import CloudCore.Api.Models
import CloudCore.Effect.Pool

/-!
# The store and what handlers may do

The catalogue's tables, the locks around them, and the commands a request
handler issues, one store statement or one call into another module at a
time.  Of the other modules (libvirt, HAProxy, DNS, the security groups) only the
answers are modelled, and any answer is possible.

## Main definitions

* `State` — the tables, the locks, and the launch threads not yet begun.
* `Cmd`, `External` — the commands of a handler.
* `exec` — what a command does.
* `Handler` — a request handler.

## Main results

* `wp_get`, `wp_put` and their like — one rule for each command.
-/

namespace CloudCore
namespace Api

open Python Relational Db Effect

/-- What the code leaves to SQLite, to Python's `repr` and to Unicode's tables. -/
structure Platform where
  /-- SQLite's text of a double. -/
  renderReal : Double → String
  /-- `repr` of a double, a list or a dictionary. -/
  repr : Json → String
  /-- `str.lower`. -/
  lower : String → String
  /-- `str.upper`. -/
  upper : String → String

/-- `str(value)`. -/
def Platform.str (pf : Platform) : Json → String
  | .null => "None"
  | .bool b => if b then "True" else "False"
  | .int n => toString n
  | .str s => s
  | v => pf.repr v

/-- An exception on its way out of a handler. -/
inductive Raised where
  | exc (e : Exc)
  | attributeError
  | keyError
  /-- The statement was refused. -/
  | database
  /-- Another module raised. -/
  | external (message : String)
  /-- `abort(status)`. -/
  | abort (status : ℕ)
  deriving DecidableEq

/-- What a handler answers with; a resource stands for its `to_dict()`. -/
inductive Reply where
  | problem (status : ℕ) (title detail : String)
  | record (status : ℕ) (k : Kind) (o : Obj k)
  | listener (status : ℕ) (l : Listener)
  | targetGroup (status : ℕ) (t : TargetGroup)
  | healthCheck (h : HealthCheck)
  | user (u : User)
  | noContent

/-! ### The state -/

/-- What `compute.create_instance` sets on the instance it is given. -/
structure Placement where
  domainName : String
  sshHostPort : ℕ
  httpHostPort : ℕ
  privateIp : String
  status : InstanceStatus

/-- A `_launch` thread: the handler's own `instance` and `vpc_cidr`. -/
structure Launch where
  instance_ : Instance Json Json
  vpcCidr : Json

/-- What all threads of the server share. -/
structure State (ι : Type) where
  table : (k : Kind) → Table (Row k)
  /-- The launch threads that have been started and have not begun. -/
  launches : List Launch
  /-- The thread that holds `usb._usb_lock`. -/
  usbLock : Option ι
  /-- The thread that holds the lock of a load balancer. -/
  lbLock : String → Option ι

namespace State

variable {ι : Type}

/-- The empty store. -/
def empty : State ι := ⟨fun _ => .empty, [], none, fun _ => none⟩

def setTable (s : State ι) (k : Kind) (t : Table (Row k)) : State ι :=
  { s with table := Function.update s.table k t }

/-- Write a row. -/
def upsert (s : State ι) {k : Kind} (r : Row k) : State ι := s.setTable k ((s.table k).upsert r)

/-- Mark a row deleted. -/
def delete (s : State ι) (k : Kind) (i : String) : State ι := s.setTable k ((s.table k).delete i)

@[simp] theorem table_setTable (s : State ι) (k : Kind) (t : Table (Row k)) :
    (s.setTable k t).table k = t := Function.update_self ..

theorem table_setTable_of_ne (s : State ι) {k k' : Kind} (h : k' ≠ k) (t : Table (Row k)) :
    (s.setTable k t).table k' = s.table k' := Function.update_of_ne h ..

@[simp] theorem table_upsert (s : State ι) {k : Kind} (r : Row k) :
    (s.upsert r).table k = (s.table k).upsert r := table_setTable ..

theorem table_upsert_of_ne (s : State ι) {k k' : Kind} (h : k' ≠ k) (r : Row k) :
    (s.upsert r).table k' = s.table k' := table_setTable_of_ne s h _

@[simp] theorem table_delete (s : State ι) (k : Kind) (i : String) :
    (s.delete k i).table k = (s.table k).delete i := table_setTable ..

theorem table_delete_of_ne (s : State ι) {k k' : Kind} (h : k' ≠ k) (i : String) :
    (s.delete k i).table k' = s.table k' := table_setTable_of_ne s h _

/-- An id no row has. -/
def Fresh (s : State ι) (i : String) : Prop := ∀ k, ∀ r ∈ (s.table k).rows, r.id ≠ i

/-! ### The queries -/

variable (s : State ι) (pf : Platform) (k : Kind)

/-- The rows that are not deleted and whose text `column` equals the parameter. -/
def select (column : Row k → Option String) (param : Json) : Except Raised (List (Row k)) :=
  match textParameter pf.renderReal param with
  | none => .error .database
  -- nothing equals NULL
  | some none => .ok []
  | some (some t) => .ok ((s.table k).live.filter fun r => column r = some t)

/-- `get_vpc` and its like. -/
def lookup (i : Json) : Except Raised (Option (Obj k)) :=
  (s.select pf k (fun r => some r.id) i).map fun l => l.head?.map decode

/-- `find_vpc_by_name` and its like. -/
def lookupName (name : Json) : Except Raised (Option (Obj k)) :=
  (s.select pf k (fun r => some r.name) name).map fun l => l.head?.map decode

/-- `list_instances_by_vpc` passes over instances in error. -/
def counted : {k : Kind} → Row k → Bool
  | .inst, r => Instance.status r ≠ .error
  | _, _ => true

/-- `list_subnets_by_vpc` and `list_instances_by_vpc`. -/
def lookupVpc (vpcId : Json) : Except Raised (List (Obj k)) :=
  (s.select pf k Row.vpcId vpcId).map fun l => (l.filter counted).map decode

/-- `put_vpc` and its like. -/
def write {k : Kind} (o : Obj k) : Except Raised Unit × State ι :=
  match encode pf.renderReal o with
  | none => (.error .database, s)
  | some r => (.ok (), s.upsert r)

end State

namespace State

variable {ι : Type} {s : State ι} {pf : Platform} {k : Kind}

theorem select_of_text {column : Row k → Option String} {param : Json} {t : String}
    (h : textColumn pf.renderReal param = some t) :
    s.select pf k column param = .ok ((s.table k).live.filter fun r => column r = some t) := by
  rw [select, textParameter_eq_some.mpr h]

/-- A row found by its id. -/
theorem lookup_eq_some {i : Json} {o : Obj k} :
    s.lookup pf k i = .ok (some o) ↔
      ∃ t r, textColumn pf.renderReal i = some t ∧ (s.table k).get t = some r ∧ decode r = o := by
  have hget (t : String) : ((s.table k).live.filter fun r => some r.id = some t).head? =
      (s.table k).get t := by
    rw [List.head?_filter, Table.get]
    simp only [Option.some.injEq, Row.key_eq]
  constructor
  · intro h
    unfold lookup select at h
    split at h
    · cases h
    · cases h
    next t ht =>
      simp only [Except.map, hget, Except.ok.injEq, Option.map_eq_some_iff] at h
      obtain ⟨r, hr, rfl⟩ := h
      exact ⟨t, r, textParameter_eq_some.mp ht, hr, rfl⟩
  · rintro ⟨t, r, ht, hr, rfl⟩
    rw [lookup, select_of_text ht]
    simp only [Except.map, hget, hr, Option.map_some]

/-- Looking up an id that is a text. -/
theorem lookup_str (id : String) :
    s.lookup pf k (.str id) = .ok (((s.table k).get id).map decode) := by
  cases hl : s.lookup pf k (.str id) with
  | error e =>
    rw [lookup, select_of_text (textColumn_str id)] at hl
    cases hl
  | ok found =>
    cases found with
    | some o =>
      obtain ⟨t, r, ht, hr, rfl⟩ := lookup_eq_some.mp hl
      rw [textColumn_str, Option.some.injEq] at ht
      rw [ht, hr, Option.map_some]
    | none =>
      cases hg : (s.table k).get id with
      | none => rfl
      | some r =>
        have hfound : s.lookup pf k (.str id) = .ok (some (decode r)) :=
          lookup_eq_some.mpr ⟨id, r, textColumn_str id, hg, rfl⟩
        rw [hl] at hfound
        cases hfound

/-- No row is found under a name that no row has. -/
theorem name_ne_of_lookupName {name : Json} {t : String} (h : s.lookupName pf k name = .ok none)
    (ht : textColumn pf.renderReal name = some t) {r : Row k} (hr : r ∈ (s.table k).live) :
    r.name ≠ t := by
  rw [lookupName, select_of_text ht] at h
  simp only [Except.map, Except.ok.injEq, Option.map_eq_none_iff, List.head?_eq_none_iff,
    List.filter_eq_nil_iff, Option.some.injEq, decide_eq_true_eq] at h
  exact h r hr

/-- No row is found in a VPC that no row is in. -/
theorem vpcId_ne_of_lookupVpc {v : String} (h : s.lookupVpc pf k (.str v) = .ok [])
    {r : Row k} (hr : r ∈ (s.table k).live) (hc : counted r) : r.vpcId ≠ some v := by
  rw [lookupVpc, select_of_text (textColumn_str v)] at h
  simp only [Except.map, Except.ok.injEq, List.map_eq_nil_iff, List.filter_eq_nil_iff,
    List.mem_filter, decide_eq_true_eq, and_imp] at h
  exact fun hv => h r hr hv hc

end State

/-! ### Commands -/

/-- A device of `list_usb_devices`: its id, and why it is blocked if it is. -/
structure UsbDevice where
  id : String
  blockReason : Option String

/-- Calls into other modules. -/
inductive External where
  /-- The VPCs of the active security groups. -/
  | securityGroupVpcs
  | securityGroupExists (id : Json)
  | applySecurityGroups (i : Instance Json Json)
  | removeSecurityGroups (i : Instance Json Json)
  | upsertDns (zone : String) (name : Json) (value : String) (resourceType resourceId : String)
  | deleteDns (resourceId : String)
  | reloadDns
  | startLb (b : LoadBalancer Json Json) (instances : List (Obj .inst))
  | reloadLb (b : LoadBalancer Json Json) (instances : List (Obj .inst))
  | stopLb (id : String)
  | sshUserForImage (imageId : Json)
  /-- The USB devices that are plugged in, from sysfs. -/
  | usbDevices
  | instanceStatus (domain : String)
  | instanceIp (domain : String)
  | stopDomain (domain : String)
  | startDomain (domain : String)
  | syncUsb (i : Instance Json Json) (added removed : List Json)

/-- What an external call returns. -/
@[reducible] def External.Result : External → Type
  | .securityGroupVpcs => List String
  | .securityGroupExists _ => Bool
  | .startLb .. => ℕ
  | .sshUserForImage _ => String
  | .usbDevices => List UsbDevice
  | .instanceStatus _ => InstanceStatus
  | .instanceIp _ => String
  | _ => Unit

inductive Cmd where
  | newId
  | nowIso
  | get (k : Kind) (id : Json)
  | findByName (k : Kind) (name : Json)
  | listByVpc (k : Kind) (vpcId : Json)
  | list (k : Kind)
  | put (k : Kind) (o : Obj k)
  | delete (k : Kind) (id : String)
  /-- `threading.Thread(target=_launch).start()`. -/
  | startLaunch (l : Launch)
  /-- A launch thread begins. -/
  | beginLaunch (l : Launch)
  | createDomain (l : Launch)
  | lockUsb
  | unlockUsb
  | lockLb (id : String)
  | unlockLb (id : String)
  | external (e : External)

/-- The answers to a command. -/
@[reducible] def Cmd.Ans : Cmd → Type
  | .newId | .nowIso => String
  | .get k _ | .findByName k _ => Except Raised (Option (Obj k))
  | .listByVpc k _ => Except Raised (List (Obj k))
  | .list k => List (Obj k)
  | .put .. => Except Raised Unit
  | .delete .. => Bool
  -- what had been set when `compute.create_instance` returned or raised
  | .createDomain _ => Placement × Except String Unit
  | .external e => Except String e.Result
  | _ => Unit

/-- The commands of a handler. -/
abbrev Commands : Signature := ⟨Cmd, Cmd.Ans⟩

variable {ι : Type}

/-- What a command of thread `i` answers and does; a lock blocks while another
holds it. -/
def exec (pf : Platform) (i : ι) (s : State ι) :
    (c : Commands.Cmd) → Commands.Ans c → State ι → Prop
  | .newId, id, s' => s.Fresh id ∧ s' = s
  | .nowIso, _, s' => s' = s
  | .get k id, a, s' => a = s.lookup pf k id ∧ s' = s
  | .findByName k name, a, s' => a = s.lookupName pf k name ∧ s' = s
  | .listByVpc k vpcId, a, s' => a = s.lookupVpc pf k vpcId ∧ s' = s
  | .list k, a, s' => a = (s.table k).live.map decode ∧ s' = s
  | .put _ o, a, s' => a = (s.write pf o).1 ∧ s' = (s.write pf o).2
  | .delete k id, a, s' => a = ((s.table k).get id).isSome ∧ s' = s.delete k id
  | .startLaunch l, _, s' => s' = { s with launches := l :: s.launches }
  | .beginLaunch l, _, s' => ∃ before after, s.launches = before ++ l :: after ∧
      s' = { s with launches := before ++ after }
  | .createDomain _, _, s' => s' = s
  | .lockUsb, _, s' => s.usbLock = none ∧ s' = { s with usbLock := some i }
  | .unlockUsb, _, s' => s' = { s with usbLock := none }
  | .lockLb id, _, s' => s.lbLock id = none ∧
      s' = { s with lbLock := Function.update s.lbLock id (some i) }
  | .unlockLb id, _, s' => s' = { s with lbLock := Function.update s.lbLock id none }
  | .external _, _, s' => s' = s

/-- The commands that leave the state alone. -/
def Cmd.Quiet : Cmd → Prop
  | .newId | .nowIso | .get .. | .findByName .. | .listByVpc .. | .list _ | .createDomain _
  | .external _ => True
  | _ => False

theorem exec_quiet {pf : Platform} {i : ι} {s s' : State ι} {c : Cmd} {a : c.Ans} (hc : c.Quiet)
    (h : exec pf i s c a s') : s' = s := by
  cases c with
  | newId => exact h.2
  | nowIso => exact h
  | get k id => exact h.2
  | findByName k name => exact h.2
  | listByVpc k vpcId => exact h.2
  | list k => exact h.2
  | createDomain l => exact h
  | external e => exact h
  | _ => cases hc

/-- A write stores the row, or raises and changes nothing. -/
theorem exec_put {pf : Platform} {i : ι} {s s' : State ι} {k : Kind} {o : Obj k}
    {a : Except Raised Unit} (h : exec pf i s (.put k o) a s') :
    s' = s ∨ ∃ r, encode pf.renderReal o = some r ∧ s' = s.upsert r := by
  obtain ⟨-, rfl⟩ := h
  unfold State.write
  split
  · exact Or.inl rfl
  next r hr => exact Or.inr ⟨r, hr, rfl⟩

/-- Only writes and deletions change the tables. -/
theorem exec_tables {pf : Platform} {i : ι} {s s' : State ι} {c : Cmd} {a : c.Ans}
    (h : exec pf i s c a s') :
    s'.table = s.table ∨
    (∃ (k : Kind) (o : Obj k) (r : Row k),
      c = .put k o ∧ encode pf.renderReal o = some r ∧ s' = s.upsert r) ∨
    ∃ k id, c = .delete k id ∧ s' = s.delete k id := by
  by_cases hq : c.Quiet
  · exact Or.inl (by rw [exec_quiet hq h])
  cases c with
  | put k o =>
    rcases exec_put h with rfl | ⟨r, hr, rfl⟩
    · exact Or.inl rfl
    · exact Or.inr (Or.inl ⟨k, o, r, rfl, hr, rfl⟩)
  | delete k id => exact Or.inr (Or.inr ⟨k, id, rfl, h.2⟩)
  | startLaunch l => obtain rfl := h; exact Or.inl rfl
  | beginLaunch l => obtain ⟨_, _, -, rfl⟩ := h; exact Or.inl rfl
  | lockUsb => obtain ⟨-, rfl⟩ := h; exact Or.inl rfl
  | unlockUsb => obtain rfl := h; exact Or.inl rfl
  | lockLb id => obtain ⟨-, rfl⟩ := h; exact Or.inl rfl
  | unlockLb id => obtain rfl := h; exact Or.inl rfl
  | _ => exact absurd trivial hq

/-! ### Running alone -/

section Alone

/-- `State.Fresh`, computed. -/
def State.isFresh (s : State ι) (id : String) : Bool :=
  [Kind.vpc, .subnet, .igw, .routeTable, .inst, .lb].all fun k =>
    (s.table k).rows.all fun r => r.id != id

theorem fresh_of_isFresh {s : State ι} {id : String} (h : s.isFresh id) : s.Fresh id := by
  intro k r hr
  have hk := List.all_eq_true.mp h k (by cases k <;> decide)
  simpa using List.all_eq_true.mp hk r hr

/-- An answer of a module that succeeds. -/
def External.success : (e : External) → e.Result
  | .securityGroupVpcs => []
  | .securityGroupExists _ => true
  | .startLb .. => (0 : ℕ)
  | .sshUserForImage _ => "ubuntu"
  | .usbDevices => [⟨"0bda:8812", none⟩]
  | .instanceStatus _ => .running
  | .instanceIp _ => ""
  | .applySecurityGroups _ | .removeSecurityGroups _ | .upsertDns .. | .deleteDns _ | .reloadDns
  | .reloadLb .. | .stopLb _ | .stopDomain _ | .startDomain _ | .syncUsb .. => ()

/-- What the commands of a thread answer and do while every other module
succeeds; `ids` are the ids drawn.  The launch threads do not begin. -/
def respond (pf : Platform) (ids : List String) (i : ι) (s : State ι) :
    (c : Commands.Cmd) → Option (Commands.Ans c × State ι)
  | .newId => (ids.find? s.isFresh).map (·, s)
  | .nowIso => some ("", s)
  | .get k id => some (s.lookup pf k id, s)
  | .findByName k name => some (s.lookupName pf k name, s)
  | .listByVpc k vpcId => some (s.lookupVpc pf k vpcId, s)
  | .list k => some ((s.table k).live.map decode, s)
  | .put _ o => some (s.write pf o)
  | .delete k id => some (((s.table k).get id).isSome, s.delete k id)
  | .startLaunch l => some ((), { s with launches := l :: s.launches })
  | .beginLaunch _ | .createDomain _ => none
  | .lockUsb => if s.usbLock.isNone then some ((), { s with usbLock := some i }) else none
  | .unlockUsb => some ((), { s with usbLock := none })
  | .lockLb id =>
    if (s.lbLock id).isNone then
      some ((), { s with lbLock := Function.update s.lbLock id (some i) })
    else none
  | .unlockLb id => some ((), { s with lbLock := Function.update s.lbLock id none })
  | .external e => some (.ok e.success, s)

theorem exec_of_respond {pf : Platform} {ids : List String} {i : ι} {s s' : State ι} {c : Cmd}
    {a : c.Ans} (h : respond pf ids i s c = some (a, s')) : exec pf i s c a s' := by
  cases c with
  | newId =>
    simp only [respond, Option.map_eq_some_iff, Prod.mk.injEq] at h
    obtain ⟨id, hid, rfl, rfl⟩ := h
    exact ⟨fresh_of_isFresh (List.find?_some hid), rfl⟩
  | lockUsb =>
    simp only [respond, Option.ite_none_right_eq_some, Option.isNone_iff_eq_none] at h
    obtain ⟨hn, h⟩ := h
    cases h
    exact ⟨hn, rfl⟩
  | lockLb id =>
    simp only [respond, Option.ite_none_right_eq_some, Option.isNone_iff_eq_none] at h
    obtain ⟨hn, h⟩ := h
    cases h
    exact ⟨hn, rfl⟩
  | put k o =>
    simp only [respond, Option.some.injEq] at h
    exact ⟨by rw [h], by rw [h]⟩
  | beginLaunch l => cases h
  | createDomain l => cases h
  | nowIso => cases h; rfl
  | startLaunch l => cases h; rfl
  | unlockUsb => cases h; rfl
  | unlockLb id => cases h; rfl
  | external e => cases h; rfl
  | _ => cases h; exact ⟨rfl, rfl⟩

end Alone

/-! ### Handlers -/

/-- A part of a handler. -/
abbrev Action (α : Type) := Program Commands Raised α

/-- A request handler; an exception that leaves it is answered with 500, or
with the status it aborts with. -/
abbrev Handler := Action Reply

namespace Store

/-- `new_id()`. -/
def newId : Action String := Program.perform (F := Commands) .newId

/-- `now_iso()`. -/
def nowIso : Action String := Program.perform (F := Commands) .nowIso

def get (k : Kind) (id : Json) : Action (Option (Obj k)) := do
  let a ← Program.perform (F := Commands) (.get k id)
  Program.lift a

def findByName (k : Kind) (name : Json) : Action (Option (Obj k)) := do
  let a ← Program.perform (F := Commands) (.findByName k name)
  Program.lift a

def listByVpc (k : Kind) (vpcId : Json) : Action (List (Obj k)) := do
  let a ← Program.perform (F := Commands) (.listByVpc k vpcId)
  Program.lift a

def list (k : Kind) : Action (List (Obj k)) := Program.perform (F := Commands) (.list k)

def put {k : Kind} (o : Obj k) : Action Unit := do
  let a ← Program.perform (F := Commands) (.put k o)
  Program.lift a

def delete (k : Kind) (id : String) : Action Bool := Program.perform (F := Commands) (.delete k id)

/-- Call another module; its exception goes through. -/
def call (e : External) : Action e.Result := do
  let a ← Program.perform (F := Commands) (.external e)
  Program.lift (Except.mapError Raised.external a)

/-- Call another module, logging an exception it raises. -/
def attempt (e : External) : Action Unit := do
  let _ ← Program.perform (F := Commands) (.external e)
  pure ()

/-- `with lock:`. -/
def withLock {α : Type} (lock unlock : Action Unit) (body : Action α) : Action α := do
  lock
  body.tryFinally unlock

end Store

/-! ### The rules -/

section

variable {pf : Platform} {i : ι} {α : Type}
  {G : State ι → (c : Commands.Cmd) → Commands.Ans c → State ι → Prop} {Q : α → State ι → Prop}
  {E : Raised → State ι → Prop} {s : State ι}

/-- A command whose answer and effect are determined by the state. -/
theorem wp_determined {c : Cmd} {a₀ : c.Ans} {s₀ : State ι} {k : c.Ans → Action α}
    (h : ∀ a s', exec pf i s c a s' ↔ a = a₀ ∧ s' = s₀) :
    (Program.call (F := Commands) c k).wp (exec pf i) Eq G Q E s ↔
      G s c a₀ s₀ ∧ (k a₀).wp (exec pf i) Eq G Q E s₀ := by
  rw [Program.wp_call_eq]
  constructor
  · intro hk
    exact hk a₀ s₀ ((h a₀ s₀).mpr ⟨rfl, rfl⟩)
  · intro hk a s' hx
    obtain ⟨rfl, rfl⟩ := (h a s').mp hx
    exact hk

theorem wp_get {k : Kind} {id : Json} {f : Option (Obj k) → Action α} :
    (Store.get k id >>= f).wp (exec pf i) Eq G Q E s ↔
      G s (.get k id) (s.lookup pf k id) s ∧
        (Program.lift (s.lookup pf k id) >>= f).wp (exec pf i) Eq G Q E s :=
  wp_determined fun _ _ => Iff.rfl

theorem wp_findByName {k : Kind} {name : Json} {f : Option (Obj k) → Action α} :
    (Store.findByName k name >>= f).wp (exec pf i) Eq G Q E s ↔
      G s (.findByName k name) (s.lookupName pf k name) s ∧
        (Program.lift (s.lookupName pf k name) >>= f).wp (exec pf i) Eq G Q E s :=
  wp_determined fun _ _ => Iff.rfl

theorem wp_listByVpc {k : Kind} {vpcId : Json} {f : List (Obj k) → Action α} :
    (Store.listByVpc k vpcId >>= f).wp (exec pf i) Eq G Q E s ↔
      G s (.listByVpc k vpcId) (s.lookupVpc pf k vpcId) s ∧
        (Program.lift (s.lookupVpc pf k vpcId) >>= f).wp (exec pf i) Eq G Q E s :=
  wp_determined fun _ _ => Iff.rfl

theorem wp_put {k : Kind} {o : Obj k} {f : Unit → Action α} :
    (Store.put o >>= f).wp (exec pf i) Eq G Q E s ↔
      G s (.put k o) (s.write pf o).1 (s.write pf o).2 ∧
        (Program.lift (s.write pf o).1 >>= f).wp (exec pf i) Eq G Q E (s.write pf o).2 :=
  wp_determined fun _ _ => Iff.rfl

theorem wp_delete {k : Kind} {id : String} {f : Bool → Action α} :
    (Store.delete k id >>= f).wp (exec pf i) Eq G Q E s ↔
      G s (.delete k id) ((s.table k).get id).isSome (s.delete k id) ∧
        (f ((s.table k).get id).isSome).wp (exec pf i) Eq G Q E (s.delete k id) :=
  wp_determined fun _ _ => Iff.rfl

theorem wp_newId {f : String → Action α} :
    (Store.newId >>= f).wp (exec pf i) Eq G Q E s ↔
      ∀ id, s.Fresh id → G s .newId id s ∧ (f id).wp (exec pf i) Eq G Q E s := by
  refine (Program.wp_call_eq (F := Commands) .newId f).trans ⟨?_, ?_⟩
  · intro h id hid
    exact h id s ⟨hid, rfl⟩
  · rintro h id s' ⟨hid, rfl⟩
    exact h id hid

end

end Api
end CloudCore
