import CloudCore.Api.Soundness

/-!
# The instance handlers under interference

What the handlers of an instance and its launch thread do to the instances,
whatever the other threads do between two of their commands.  A handler writes
an instance it has read or inserted, so a handler that is told of no instance in
a set `D`, and of none on a peer, writes none.  Outside the USB lock this is all
that the safety arguments need of it; what happens under the lock is left to
them.

## Main definitions

* `InstanceOp` — the operations on instances.
* `Told`, `Plain` — answers that tell of no instance in `D`, and the commands of
  handlers that were told of none.
* `UsbRegion` — what is left to show of a thread under the USB lock.

## Main results

* `carried_handle` — **every operation but a deletion issues plain commands
  outside the USB lock.**
* `carried_deleteInstance` — a deletion writes nothing but its mark.
-/

namespace CloudCore
namespace Api

open Python Relational Db Effect

/-- The operations on instances. -/
inductive InstanceOp where
  | create (body : Option Json)
  /-- The thread that an earlier `create` has started. -/
  | launch (l : Launch)
  | get (id : String)
  | update (id : String) (body : Option Json)
  | stop (id : String)
  | start (id : String)
  | addUser (id : String) (body : Option Json)
  | removeUser (id username : String)
  | delete (id : String)

/-- The handler of an operation. -/
def InstanceOp.handle (pf : Platform) (peers : Peers) : InstanceOp → Handler
  | .create body => createInstance pf peers body
  | .launch l => Api.launch l
  | .get id => getInstance peers id
  | .update id body => updateInstance pf peers id body
  | .stop id => stopInstance id
  | .start id => startInstance id
  | .addUser id body => addInstanceUser id body
  | .removeUser id username => removeInstanceUser id username
  | .delete id => deleteInstance peers id

/-- The operation is not placed on a peer. -/
def InstanceOp.Local : InstanceOp → Prop
  | .create body => LocalBody body
  | _ => True

/-- The requests on instances come at any time, on any thread. -/
def instanceRequests {ι : Type} (pf : Platform) (peers : Peers)
    (_ : Config Commands Raised Reply ι (State ι)) : Move Commands Raised Reply ι → Prop
  | .start _ p => ∃ op : InstanceOp, op.Local ∧ p = op.handle pf peers
  -- a thread is never stopped half-way
  | .kill _ => False
  | _ => True

/-- An instance of this host that is not in `D`. -/
structure Foreign (D : String → Prop) (i : Instance Json Json) : Prop where
  id : ¬ D i.id
  hostId : i.hostId = none

/-- The answer tells of no instance in `D`. -/
def Told (D : String → Prop) : (c : Commands.Cmd) → Commands.Ans c → Prop
  | .newId, id => ¬ D id
  | .get .inst _, a => ∀ i, a = .ok (some i) → Foreign D i
  | .beginLaunch l, _ => Foreign D l.instance_
  | _, _ => True

theorem Foreign.mono {D D' : String → Prop} (hD : ∀ id, D id → D' id) {i : Instance Json Json}
    (h : Foreign D' i) : Foreign D i := ⟨fun hi => h.id (hD _ hi), h.hostId⟩

theorem told_mono {D D' : String → Prop} (hD : ∀ id, D id → D' id) {c : Commands.Cmd}
    {a : Commands.Ans c} (h : Told D' c a) : Told D c a := by
  cases c with
  | newId => exact fun hi => h (hD _ hi)
  | get k id =>
    cases k with
    | inst => exact fun i hi => (h i hi).mono hD
    | _ => trivial
  | beginLaunch l => exact h.mono hD
  | _ => trivial

/-- The commands that concern no instance in `D`, delete none, and need no USB lock. -/
def Plain (D : String → Prop) : Commands.Cmd → Prop
  | .put .inst i => Foreign D i
  | .startLaunch l => Foreign D l.instance_
  | .beginLaunch _ => True
  | c => c.Quiet

theorem plain_of_quiet {D : String → Prop} {c : Cmd} (h : c.Quiet) : Plain D c := by
  cases c with
  | put k o => cases h
  | startLaunch l => cases h
  | _ => first | exact h | trivial

variable {S : Type} {exec : S → (c : Commands.Cmd) → Commands.Ans c → S → Prop}
  {R : S → S → Prop} {G : S → (c : Commands.Cmd) → Commands.Ans c → S → Prop}
  {D : String → Prop} {P : Commands.Cmd → Prop} {J : S → Prop} {pf : Platform} {peers : Peers}
  {α β : Type} {A : α → Prop} {B : β → Prop}

/-- The commands that bring an instance in `D`, or of a peer, into the store. -/
def Brings (D : String → Prop) : Commands.Cmd → Prop
  | .put .inst i => ¬ Foreign D i
  | .startLaunch l => ¬ Foreign D l.instance_
  | _ => False

theorem not_brings_of_plain {D : String → Prop} {c : Cmd} (h : Plain D c) : ¬ Brings D c := by
  cases c with
  | put k o =>
    cases k with
    | inst => exact not_not_intro h
    | _ => exact fun hb => hb
  | startLaunch l => exact not_not_intro h
  | _ => exact fun hb => hb

theorem isRemote_of_foreign {D : String → Prop} {i : Instance Json Json} (h : Foreign D i) :
    isRemote (k := .inst) i = false := by
  show (!(i.hostId.getD "" == "")) = false
  rw [h.hostId]
  rfl

/-- What is left to show of a thread under the USB lock. -/
structure UsbRegion (exec : S → (c : Commands.Cmd) → Commands.Ans c → S → Prop) (R : S → S → Prop)
    (G : S → (c : Commands.Cmd) → Commands.Ans c → S → Prop) (J : S → Prop) (D : String → Prop)
    (pf : Platform) : Prop where
  insert : ∀ name body users, (withUsbLock (insertInstance pf name body users)).Carried exec R G J
    fun r => ∀ i, r = .ok i → Foreign D i
  claim : ∀ i newIds, Foreign D i →
    (withUsbLock (claimDevices pf i newIds)).Carried exec R G J fun _ => True

/-! ### The rules -/

section Rules

/-- An action that only looks. -/
theorem carried_quiet (hJ : Program.Keeps exec R G (Told D) P J) (hP : ∀ c, Cmd.Quiet c → P c)
    {p : Action β} {f : β → Action α} (hp : p.Confined Cmd.Quiet B)
    (h : ∀ b, B b → (f b).Carried exec R G J A) : (p >>= f).Carried exec R G J A :=
  Program.carried_bind (Program.carried_confined hJ (Program.confined_mono hP hp)) h

theorem carried_command (hJ : Program.Keeps exec R G (Told D) P J) {c : Commands.Cmd}
    {f : Commands.Ans c → Action α} (hc : P c)
    (h : ∀ a, Told D c a → (f a).Carried exec R G J A) :
    (Program.perform (F := Commands) c >>= f).Carried exec R G J A :=
  Program.carried_call hJ hc h

theorem carried_lookup (hJ : Program.Keeps exec R G (Told D) P J)
    (hP : ∀ c, Cmd.Quiet c → P c) {id : Json} {f : Option (Obj .inst) → Action α}
    (h : ∀ found, (∀ i, found = some i → Foreign D i) → (f found).Carried exec R G J A) :
    (Store.get .inst id >>= f).Carried exec R G J A := by
  refine carried_command hJ (hP _ trivial) fun a ha => ?_
  refine Program.carried_lift fun found hfound => h found ?_
  rintro i rfl
  exact ha i hfound

theorem carried_putInstance (hJ : Program.Keeps exec R G (Told D) (Plain D) J)
    {i : Instance Json Json} (hi : Foreign D i) {f : Unit → Action α}
    (h : (f ()).Carried exec R G J A) : (Store.put (k := .inst) i >>= f).Carried exec R G J A :=
  carried_command hJ hi fun _ _ => Program.carried_lift fun _ _ => h

theorem carried_reply {r : Reply} :
    (pure r : Handler).Carried exec R G J fun _ => True := Program.carried_ret trivial

/-- `with _usb_lock:`, where taking and giving back the lock may change what is known. -/
theorem carried_withUsbLock {K : S → Prop} {body : Action α}
    (hlock : ∀ s s₁ s₂, R s s₁ → J s → exec s₁ .lockUsb () s₂ → G s₁ .lockUsb () s₂ ∧ K s₂)
    (hunlock : ∀ s s₁ s₂, R s s₁ → K s → exec s₁ .unlockUsb () s₂ → G s₁ .unlockUsb () s₂ ∧ J s₂)
    (hbody : body.Carried exec R G K A) : (withUsbLock body).Carried exec R G J A := by
  intro s hs s₁ hR a s₂ hx
  obtain ⟨hG, hK⟩ := hlock s s₁ s₂ hR hs hx
  refine ⟨hG, (Program.wp_tryFinally _ _).mpr (Program.wp_mono ?_ ?_ (hbody s₂ hK))⟩
  · rintro b s₃ ⟨hb, hs₃⟩ s₄ hR₄ u s₅ hx₅
    obtain ⟨hG₅, hJ₅⟩ := hunlock s₃ s₄ s₅ hR₄ hs₃ hx₅
    exact ⟨hG₅, hb, hJ₅⟩
  · rintro e s₃ hs₃ s₄ hR₄ u s₅ hx₅
    exact hunlock s₃ s₄ s₅ hR₄ hs₃ hx₅

end Rules

/-! ### The handlers -/

theorem confined_refresh (i : Instance Json Json) :
    (refresh i).Confined Cmd.Quiet fun j => j.id = i.id ∧ j.hostId = i.hostId := by
  refine Program.confined_bind (confined_call _) fun live _ => ?_
  have hrest (j : Instance Json Json) (hj : j.id = i.id ∧ j.hostId = i.hostId) :
      (if j.privateIp = "" ∧ live = .running then refreshIp j else pure j).Confined Cmd.Quiet
        fun j => j.id = i.id ∧ j.hostId = i.hostId := by
    split
    · refine Program.confined_bind (confined_call _) fun ip _ => ?_
      split
      · exact hj
      · refine Program.confined_bind (confined_call _) fun _ _ => ?_
        exact Program.confined_bind (confined_call _) fun _ _ => hj
    · exact hj
  dsimp only
  split
  · exact hrest _ ⟨rfl, rfl⟩
  · exact hrest _ ⟨rfl, rfl⟩

section Handlers

variable (hJ : Program.Keeps exec R G (Told D) (Plain D) J)

include hJ

theorem carried_startInstanceLaunch (hU : UsbRegion exec R G J D pf) (name : String)
    (body : Fields) (users : List User) :
    (startInstanceLaunch pf name body users).Carried exec R G J fun _ => True := by
  refine Program.carried_bind (hU.insert name body users) fun r hr => ?_
  cases r with
  | error e => exact carried_reply
  | ok i =>
    refine carried_command hJ (plain_of_quiet trivial) fun a _ => Program.carried_lift fun vpc _ => ?_
    exact carried_command hJ (hr i rfl) fun _ _ => carried_reply

theorem carried_createInstance (hU : UsbRegion exec R G J D pf) {body : Option Json}
    (hb : LocalBody body) :
    (createInstance pf peers body).Carried exec R G J fun _ => True := by
  refine Program.carried_lift fun fields hf => Program.carried_lift fun name _ => ?_
  split
  · exact carried_reply
  split
  · exact carried_reply
  refine carried_command hJ (plain_of_quiet trivial) fun a _ => Program.carried_lift fun found _ => ?_
  split
  · exact carried_reply
  rw [hb fields hf]
  refine Program.carried_lift fun groups _ => ?_
  refine carried_quiet hJ (fun _ => plain_of_quiet) (confined_missingGroup _) fun missing _ => ?_
  split
  · exact carried_reply
  refine Program.carried_lift fun entries _ => Program.carried_lift fun users _ => ?_
  split
  · exact carried_reply
  · exact carried_startInstanceLaunch hJ hU _ _ _

theorem carried_launch (l : Launch) : (launch l).Carried exec R G J fun _ => True := by
  refine carried_command hJ trivial fun _ hl => ?_
  refine carried_command hJ (plain_of_quiet trivial) fun created _ => ?_
  obtain ⟨placement, created⟩ := created
  dsimp only
  split
  · refine carried_putInstance hJ ?_ ?_
    · exact ⟨hl.id, hl.hostId⟩
    · exact carried_reply
  · refine carried_quiet hJ (fun _ => plain_of_quiet) (confined_postLaunch _) ?_
    rintro j ⟨hj, -⟩
    have hfar : Foreign D (place l.instance_ placement) := ⟨hl.id, hl.hostId⟩
    have hj' : Foreign D j := ⟨hj.id ▸ hfar.id, hj.hostId.trans hfar.hostId⟩
    refine carried_putInstance hJ hj' (carried_command hJ (plain_of_quiet trivial) fun a _ => ?_)
    refine Program.carried_lift fun instances _ => ?_
    refine carried_command hJ (plain_of_quiet trivial) fun lbs _ => ?_
    exact carried_quiet hJ (fun _ => plain_of_quiet)
      (Program.confined_forEach fun _ _ => confined_attempt _) fun _ _ => carried_reply

theorem carried_getInstance {id : String} :
    (getInstance peers id).Carried exec R G J fun _ => True := by
  refine carried_lookup hJ (fun _ => plain_of_quiet) fun found hfound => ?_
  cases found with
  | none => exact carried_reply
  | some i =>
    have hi : Foreign D i := hfound i rfl
    dsimp only
    rw [isRemote_of_foreign hi, if_neg Bool.false_ne_true]
    unfold getLocalInstance
    split
    · exact carried_reply
    · refine carried_quiet hJ (fun _ => plain_of_quiet) (confined_refresh i) fun j hj => ?_
      refine carried_putInstance hJ ?_ ?_
      · exact ⟨hj.1 ▸ hi.id, hj.2.trans hi.hostId⟩
      · exact carried_reply

theorem carried_updateDevices (hU : UsbRegion exec R G J D pf) {i : Instance Json Json}
    (hi : Foreign D i) (newIds : Json) :
    (updateDevices pf i newIds).Carried exec R G J fun _ => True := by
  refine Program.carried_bind (hU.claim i newIds hi) fun claimed _ => ?_
  obtain e | ⟨added, removed⟩ := claimed
  · exact carried_reply
  · dsimp only
    split
    · exact carried_reply
    · refine carried_command hJ (plain_of_quiet trivial) fun synced _ => ?_
      split
      · exact carried_reply
      · exact carried_reply

theorem carried_updateInstance (hU : UsbRegion exec R G J D pf) {id : String}
    {body : Option Json} : (updateInstance pf peers id body).Carried exec R G J fun _ => True := by
  refine carried_lookup hJ (fun _ => plain_of_quiet) fun found hfound => ?_
  cases found with
  | none => exact carried_reply
  | some i =>
    have hi : Foreign D i := hfound i rfl
    refine Program.carried_lift fun fields _ => ?_
    rw [isRemote_of_foreign hi, if_neg Bool.false_ne_true]
    unfold updateLocalInstance
    dsimp only
    split
    · refine carried_updateDevices hJ hU ?_ _
      exact ⟨hi.id, hi.hostId⟩
    · refine carried_putInstance hJ ?_ ?_
      · exact ⟨hi.id, hi.hostId⟩
      · exact carried_reply

theorem carried_switchInstance {old new : InstanceStatus} {verb : String}
    {domain : String → External} {id : String} :
    (switchInstance old new verb domain id).Carried exec R G J fun _ => True := by
  refine carried_lookup hJ (fun _ => plain_of_quiet) fun found hfound => ?_
  cases found with
  | none => exact carried_reply
  | some i =>
    have hi : Foreign D i := hfound i rfl
    dsimp only
    split
    · exact carried_reply
    split
    · exact carried_reply
    refine carried_command hJ (plain_of_quiet trivial) fun done _ => ?_
    split
    · exact carried_reply
    · refine carried_putInstance hJ ?_ ?_
      · exact ⟨hi.id, hi.hostId⟩
      · exact carried_quiet hJ (fun _ => plain_of_quiet) (confined_reloadLbsIn _) fun _ _ =>
        carried_reply

theorem carried_addInstanceUser {id : String} {body : Option Json} :
    (addInstanceUser id body).Carried exec R G J fun _ => True := by
  refine carried_lookup hJ (fun _ => plain_of_quiet) fun found hfound => ?_
  cases found with
  | none => exact carried_reply
  | some i =>
    have hi : Foreign D i := hfound i rfl
    refine Program.carried_lift fun fields _ => Program.carried_lift fun username _ => ?_
    split
    · exact carried_reply
    split
    · exact carried_reply
    · refine carried_putInstance hJ ?_ ?_
      · exact ⟨hi.id, hi.hostId⟩
      · exact carried_reply

theorem carried_removeInstanceUser {id username : String} :
    (removeInstanceUser id username).Carried exec R G J fun _ => True := by
  refine carried_lookup hJ (fun _ => plain_of_quiet) fun found hfound => ?_
  cases found with
  | none => exact carried_reply
  | some i =>
    have hi : Foreign D i := hfound i rfl
    dsimp only
    split
    · refine carried_putInstance hJ ?_ ?_
      · exact ⟨hi.id, hi.hostId⟩
      · exact carried_reply
    · exact carried_reply

/-- What is inserted under the lock is new. -/
theorem carried_insertInstance {name : String} {body : Fields} {users : List User} :
    (insertInstance pf name body users).Carried exec R G J
      fun r => ∀ i, r = .ok i → Foreign D i := by
  refine Program.carried_lift fun devices _ => ?_
  refine carried_quiet hJ (fun _ => plain_of_quiet) (confined_unattachable _ _) fun err _ => ?_
  split
  · refine Program.carried_ret ?_
    intro i hi
    cases hi
  · refine carried_quiet hJ (fun _ => plain_of_quiet) (confined_call _) fun sshUser _ => ?_
    refine carried_command hJ (plain_of_quiet trivial) fun id hid => ?_
    refine carried_command hJ (plain_of_quiet trivial) fun now _ => ?_
    have hnew : Foreign D (newInstance name body users sshUser id now) := ⟨hid, rfl⟩
    refine carried_putInstance hJ hnew (Program.carried_ret ?_)
    intro i hi
    cases hi
    exact hnew

/-- What is claimed under the lock stays with the instance. -/
theorem carried_claimDevices {i : Instance Json Json} (hi : Foreign D i) {newIds : Json} :
    (claimDevices pf i newIds).Carried exec R G J fun _ => True := by
  refine Program.carried_lift fun devices _ => ?_
  refine carried_quiet hJ (fun _ => plain_of_quiet) (confined_unattachable _ _) fun err _ => ?_
  split
  · exact Program.carried_ret trivial
  · refine Program.carried_lift fun old _ => Program.carried_lift fun new _ => ?_
    refine carried_putInstance hJ ?_ (Program.carried_ret trivial)
    exact ⟨hi.id, hi.hostId⟩

/-- **Every operation but a deletion issues plain commands outside the USB lock.** -/
theorem carried_handle (hU : UsbRegion exec R G J D pf) {op : InstanceOp} (hop : op.Local)
    (hdel : ∀ id, op ≠ .delete id) :
    (op.handle pf peers).Carried exec R G J fun _ => True := by
  cases op with
  | create body => exact carried_createInstance hJ hU hop
  | launch l => exact carried_launch hJ l
  | get id => exact carried_getInstance hJ
  | update id body => exact carried_updateInstance hJ hU
  | stop id => exact carried_switchInstance hJ
  | start id => exact carried_switchInstance hJ
  | addUser id body => exact carried_addInstanceUser hJ
  | removeUser id username => exact carried_removeInstanceUser hJ
  | delete id => exact absurd rfl (hdel id)

end Handlers

/-- A deletion writes nothing but its mark. -/
theorem carried_deleteInstance (hJ : Program.Keeps exec R G (Told D) Cmd.Quiet J) {id : String}
    (hmark : ∀ s a s', J s → exec s (.delete .inst id) a s' →
      G s (.delete .inst id) a s' ∧ J s') :
    (deleteInstance peers id).Carried exec R G J fun _ => True := by
  refine carried_lookup hJ (fun _ h => h) fun found hfound => ?_
  cases found with
  | none => exact carried_reply
  | some i =>
    have hi : Foreign D i := hfound i rfl
    dsimp only
    rw [isRemote_of_foreign hi, if_neg Bool.false_ne_true]
    intro s hs s₁ hR a s₂ hx
    obtain ⟨hG, hs₂⟩ := hmark s₁ a s₂ (hJ.stable s s₁ hR hs) hx
    refine ⟨hG, carried_quiet hJ (fun _ h => h) (confined_call _) (fun _ _ => ?_) s₂ hs₂⟩
    refine carried_quiet hJ (fun _ h => h) (confined_call _) fun _ _ => ?_
    refine carried_quiet hJ (fun _ h => h) (confined_call _) fun _ _ => ?_
    exact carried_quiet hJ (fun _ h => h) (confined_reloadLbsIn _) fun _ _ => carried_reply

/-! ### The store -/

section Store

variable {ι : Type} {i : ι} {s s' : State ι}

/-- No instance in `D` and none of a peer is in the store or being launched. -/
structure Clear (D : String → Prop) (s : State ι) : Prop where
  live : ∀ r ∈ (s.table .inst).live, Foreign D (decode r)
  launches : ∀ l ∈ s.launches, Foreign D l.instance_

/-- The launches waiting are those that were, and the one just started. -/
theorem mem_launches_step {c : Commands.Cmd} {a : Commands.Ans c}
    (hx : Api.exec pf i s c a s') {l : Launch} (hl : l ∈ s'.launches) :
    l ∈ s.launches ∨ c = .startLaunch l := by
  by_cases hq : c.Quiet
  · rw [exec_quiet hq hx] at hl
    exact Or.inl hl
  cases c with
  | startLaunch l' =>
    obtain rfl := hx
    rcases List.mem_cons.mp hl with rfl | hl
    · exact Or.inr rfl
    · exact Or.inl hl
  | beginLaunch l' =>
    obtain ⟨before, after, hb, rfl⟩ := hx
    left
    rw [hb]
    rcases List.mem_append.mp hl with hl | hl
    · exact List.mem_append_left _ hl
    · exact List.mem_append_right _ (List.mem_cons_of_mem _ hl)
  | put k o =>
    obtain ⟨-, rfl⟩ := hx
    left
    unfold State.write at hl
    split at hl <;> exact hl
  | delete k id => obtain ⟨-, rfl⟩ := hx; exact Or.inl hl
  | lockUsb => obtain ⟨-, rfl⟩ := hx; exact Or.inl hl
  | unlockUsb => obtain rfl := hx; exact Or.inl hl
  | lockLb id => obtain ⟨-, rfl⟩ := hx; exact Or.inl hl
  | unlockLb id => obtain rfl := hx; exact Or.inl hl
  | _ => exact absurd trivial hq

/-- A clear store tells of no instance in `D`. -/
theorem told_of_clear (hs : Clear D s) {c : Commands.Cmd} {a : Commands.Ans c}
    (hx : Api.exec pf i s c a s') (hnew : ∀ id : String, c = .newId → HEq a id → ¬ D id) :
    Told D c a := by
  cases c with
  | newId => exact hnew a rfl HEq.rfl
  | get k id =>
    cases k with
    | inst =>
      obtain ⟨rfl, -⟩ := hx
      intro j hj
      obtain ⟨t, r, -, hr, rfl⟩ := State.lookup_eq_some.mp hj
      exact hs.live r (Table.get_eq_some.mp hr).1
    | _ => trivial
  | beginLaunch l =>
    obtain ⟨before, after, hl, -⟩ := hx
    have hmem : l ∈ s.launches := by
      rw [hl]
      exact List.mem_append_right _ List.mem_cons_self
    exact hs.launches l hmem
  | _ => trivial

/-- A store stays clear as long as no command brings an instance in `D`. -/
theorem Clear.step (hs : Clear D s) {c : Commands.Cmd} {a : Commands.Ans c}
    (hx : Api.exec pf i s c a s') (hc : ¬ Brings D c) : Clear D s' := by
  have hlaunches : ∀ l ∈ s'.launches, Foreign D l.instance_ := by
    intro l hl
    rcases mem_launches_step hx hl with hl | rfl
    · exact hs.launches l hl
    · exact not_not.mp hc
  refine ⟨?_, hlaunches⟩
  intro r hr
  rcases exec_tables hx with htable | ⟨k, o, r', rfl, hr', rfl⟩ | ⟨k, id, rfl, rfl⟩
  · rw [htable] at hr
    exact hs.live r hr
  · by_cases hk : Kind.inst = k
    · subst hk
      rw [State.table_upsert] at hr
      rcases Table.mem_live_upsert.mp hr with ⟨rfl, -⟩ | ⟨hr, -⟩
      · have ho : Foreign D o := not_not.mp hc
        have hid : Row.id ((s.table .inst).stored r') = Instance.id o :=
          (Row.id_stored _ _).trans (id_of_encode hr')
        have hhost : Row.hostId ((s.table .inst).stored r') = Instance.hostId o :=
          (Row.hostId_stored _ _).trans (columns_of_encode hr').2.2.2.1.symm
        exact ⟨fun h => ho.id (hid ▸ h), hhost.trans ho.hostId⟩
      · exact hs.live r hr
    · rw [State.table_upsert_of_ne _ hk] at hr
      exact hs.live r hr
  · by_cases hk : Kind.inst = k
    · subst hk
      rw [State.table_delete] at hr
      exact hs.live r (Table.mem_live_delete.mp hr).1
    · rw [State.table_delete_of_ne _ hk] at hr
      exact hs.live r hr

/-- A row stays, if only as a deleted one. -/
theorem row_exists_step {k : Kind} {id : String} (h : ∃ r ∈ (s.table k).rows, Row.id r = id)
    {c : Commands.Cmd} {a : Commands.Ans c} (hx : Api.exec pf i s c a s') :
    ∃ r ∈ (s'.table k).rows, Row.id r = id := by
  rcases exec_tables hx with htable | ⟨k', o, r', rfl, hr', rfl⟩ | ⟨k', id', rfl, rfl⟩
  · rw [htable]
    exact h
  · by_cases hk : k = k'
    · subst hk
      rw [State.table_upsert]
      obtain ⟨r, hr, hid⟩ := h
      by_cases hkey : r.id = r'.id
      · exact ⟨_, Table.mem_upsert.mpr (Or.inl rfl), (Row.id_stored _ _).trans (hkey.symm.trans hid)⟩
      · exact ⟨r, Table.mem_upsert.mpr (Or.inr ⟨hr, hkey⟩), hid⟩
    · rw [State.table_upsert_of_ne _ hk]
      exact h
  · by_cases hk : k = k'
    · subst hk
      rw [State.table_delete]
      exact Table.exists_mem_delete h
    · rw [State.table_delete_of_ne _ hk]
      exact h

end Store

/-! ### Two threads -/

section Schedules

/-- What the commands of two threads answer: the other modules succeed, but no
domain can be created. -/
def respondEach (ids : List String) (i : Bool) (s : State Bool) :
    (c : Commands.Cmd) → Option (Commands.Ans c × State Bool)
  | .createDomain _ => some ((⟨"", 0, 0, "", .pending⟩, .error "no image"), s)
  | c => respond plainPlatform ids i s c

/-- The body of `create_instance`. -/
def instanceBody (name : String) (usbDeviceIds : List Json) : Option Json :=
  some (.obj [("name", .str name), ("image_id", .str "ubuntu"), ("flavor", .str "small"),
    ("vpc_id", .str "v"), ("subnet_id", .str "n"), ("usb_device_ids", .arr usbDeviceIds)])

theorem exec_of_respondEach {ids : List String} {i : Bool} {s s' : State Bool}
    {c : Commands.Cmd} {a : Commands.Ans c} (h : respondEach ids i s c = some (a, s')) :
    Api.exec plainPlatform i s c a s' := by
  have hrespond {c : Commands.Cmd} {a : Commands.Ans c}
      (h : respond plainPlatform ids i s c = some (a, s')) :
      Api.exec plainPlatform i s c a s' := exec_of_respond h
  cases c with
  | createDomain l => cases h; rfl
  | _ => exact hrespond h

/-- Thread `i` handles a request and issues the next `n` commands, or all of them. -/
def request (i : Bool) (op : InstanceOp) (n : ℕ) :
    List (Turn Commands Raised Reply Bool) :=
  .start i (op.handle plainPlatform noPeers) :: List.replicate n (.go i)

/-- The requests of a schedule that can be played. -/
theorem reaches_of_schedule {ids : List String} {l : List (Turn Commands Raised Reply Bool)}
    {x y : Config Commands Raised Reply Bool (State Bool)}
    (hstart : ∀ i p, Turn.start i p ∈ l →
      ∃ op : InstanceOp, op.Local ∧ p = op.handle plainPlatform noPeers)
    (h : Config.play (respondEach ids) l x = some y) :
    Reaches (Api.exec plainPlatform) (instanceRequests plainPlatform noPeers) x y :=
  reaches_of_play (fun _ _ _ _ _ hx => ⟨exec_of_respondEach hx, trivial⟩)
    (fun _ _ _ => trivial) (fun i p hp _ => hstart i p hp) h

theorem start_mem_request {i j : Bool} {op : InstanceOp} {n : ℕ} {p : Handler}
    (h : Turn.start j p ∈ request i op n) : p = op.handle plainPlatform noPeers := by
  rcases List.mem_cons.mp h with h | h
  · cases h
    rfl
  · cases List.eq_of_mem_replicate h

theorem local_instanceBody (name : String) (usbDeviceIds : List Json) :
    (InstanceOp.create (instanceBody name usbDeviceIds)).Local := by
  intro fields h
  cases h
  rfl

end Schedules

end Api
end CloudCore
