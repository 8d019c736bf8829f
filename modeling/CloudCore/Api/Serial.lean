import CloudCore.Api.LbEdits
import CloudCore.Api.Soundness

/-!
# Requests on one load balancer

Any number of requests edit one load balancer, or delete it, at the same time,
their commands in any order the lock allows.  The row that is left is the row
that some order of the requests, one after the other, leaves, and once the row
is deleted it stays so, as long as it is never deleted between the read and the
write of an edit: `deleteLb` does not take the lock.

An edit counts where it writes, or where it reads what makes it refuse.  A
deletion counts where it reads the row that it deletes: what comes after it in
the order finds no row.

## Main definitions

* `LbCall.apply` — what a request that runs alone does to the row.
* `Unraced` — no deletion comes between a read and its write.
* `Linearized` — an order of the requests so far that explains the row.

## Main results

* `serializable` — **concurrent requests leave what they leave in some order.**
* `deletion_final` — **and a deleted load balancer stays deleted.**
* `lost_deletion` — with a deletion in between they do not.
-/

namespace CloudCore
namespace Api

open Python Relational Db Effect

variable {ι : Type} {pf : Platform} {lbId : String}

/-! ### The requests -/

/-- A request on a load balancer. -/
inductive LbCall where
  | edit (e : LbRequest)
  | delete

def LbCall.handle (pf : Platform) (lbId : String) : LbCall → Handler
  | .edit e => e.handle pf lbId
  | .delete => deleteLb lbId

/-- The row of the load balancer after a request that runs alone. -/
def LbCall.apply (pf : Platform) (lbId : String) : LbCall → Option (Row .lb) → Option (Row .lb)
  | _, none => none
  | .edit e, some r =>
    match e.edit pf lbId (decode r) with
    | .ok (b, _) => some ((encode pf.renderReal (k := .lb) b).getD r)
    | .error _ => some r
  | .delete, some r => if LoadBalancer.deletionProtection r then some r else none

/-- The row after the requests of `order`, one after the other. -/
def inTurn (pf : Platform) (lbId : String) (requests : ι → LbCall) (order : List ι)
    (r : Option (Row .lb)) : Option (Row .lb) :=
  order.foldl (fun r i => (requests i).apply pf lbId r) r

/-- The row of the load balancer. -/
abbrev lbRow (lbId : String) (s : State ι) : Option (Row .lb) := (s.table .lb).get lbId

/-- Each thread is about to serve its request. -/
def arrived (pf : Platform) (lbId : String) (requests : ι → LbCall) (s : State ι) :
    Config Commands Raised Reply ι (State ι) :=
  ⟨s, fun i => some ((requests i).handle pf lbId)⟩

def Cmd.ReadsLb : Cmd → Prop
  | .get .lb _ => True
  | _ => False

def Cmd.WritesLb : Cmd → Prop
  | .put .lb _ => True
  | _ => False

/-- The request will not write the load balancer before it has read it again. -/
def Settled (p : Handler) : Prop :=
  Program.Avoids (F := Commands) (fun c _ => ¬ Cmd.ReadsLb c) Cmd.WritesLb p

/-- The requests that have arrived are served. -/
def served (_ : Config Commands Raised Reply ι (State ι)) : Move Commands Raised Reply ι → Prop
  | .call .. | .finish .. => True
  | .start .. | .kill _ => False

/-- Nothing is deleted while a request has yet to write what it has read. -/
def Unraced (x : Config Commands Raised Reply ι (State ι)) (m : Move Commands Raised Reply ι) :
    Prop :=
  served x m ∧ ∀ i id a, m = .call i (.delete .lb id) a → ∀ j p, x.thread j = some p → Settled p

/-! ### One request after the other -/

theorem inTurn_append (requests : ι → LbCall) (o₁ o₂ : List ι) (r : Option (Row .lb)) :
    inTurn pf lbId requests (o₁ ++ o₂) r =
      inTurn pf lbId requests o₂ (inTurn pf lbId requests o₁ r) := List.foldl_append

theorem inTurn_singleton (requests : ι → LbCall) (i : ι) (r : Option (Row .lb)) :
    inTurn pf lbId requests [i] r = (requests i).apply pf lbId r := rfl

theorem inTurn_cons (requests : ι → LbCall) (i : ι) (o : List ι) (r : Option (Row .lb)) :
    inTurn pf lbId requests (i :: o) r =
      inTurn pf lbId requests o ((requests i).apply pf lbId r) := rfl

theorem apply_none (c : LbCall) : c.apply pf lbId none = none := by
  cases c <;> rfl

/-- No request brings a load balancer back. -/
theorem inTurn_none (requests : ι → LbCall) (o : List ι) :
    inTurn pf lbId requests o none = none := by
  induction o with
  | nil => rfl
  | cons i o ih => rw [inTurn_cons, apply_none, ih]

theorem apply_edit_ok {e : LbRequest} {r : Row .lb} {b : LoadBalancer Json Json} {reply : Reply}
    (h : e.edit pf lbId (decode r) = .ok (b, reply)) :
    (LbCall.edit e).apply pf lbId (some r) =
      some ((encode pf.renderReal (k := .lb) b).getD r) := by
  simp only [LbCall.apply, h]

theorem apply_edit_error {e : LbRequest} {r : Row .lb} {refusal : Refusal}
    (h : e.edit pf lbId (decode r) = .error refusal) :
    (LbCall.edit e).apply pf lbId (some r) = some r := by
  simp only [LbCall.apply, h]

theorem apply_delete_protected {r : Row .lb} (h : LoadBalancer.deletionProtection r = true) :
    LbCall.delete.apply pf lbId (some r) = some r := if_pos h

theorem apply_delete_free {r : Row .lb} (h : LoadBalancer.deletionProtection r = false) :
    LbCall.delete.apply pf lbId (some r) = none := if_neg (Bool.eq_false_iff.mp h)

/-! ### Where a request is -/

section Stages

variable {s s' : State ι} {order order' : List ι} {i : ι} {requests : ι → LbCall}
  {r₀ : Option (Row .lb)}

/-- The commands between the read of an edit and its write. -/
def Cmd.Aside : Cmd → Prop
  | .listByVpc .. | .external _ => True
  | _ => False

/-- What `withLb` does under the lock. -/
def underLock (lbId : String) (edit : Edit) : Handler := do
  let found ← Store.get .lb (.str lbId)
  match found with
  | none => notFound "Load balancer" lbId
  | some b => finishEdit (edit b)

/-- Giving back the lock. -/
def release (lbId : String) : Action Unit :=
  .call (F := Commands) (.unlockLb lbId) fun _ => .ret ()

theorem withLb_eq (edit : Edit) : withLb lbId edit =
    .call (F := Commands) (.lockLb lbId) fun _ =>
      (underLock lbId edit).tryFinally (release lbId) := rfl

/-- The request still has to give the lock back, and no more. -/
def Releasing (lbId : String) (p : Handler) : Prop :=
  Program.Leads (F := Commands) Cmd.Quiet (Cmd.unlockLb lbId) Program.Ended p

/-- The request still has to write `b`, and then to give the lock back. -/
def Writing (lbId : String) (b : LoadBalancer Json Json) (p : Handler) : Prop :=
  Program.Leads (F := Commands) Cmd.Aside (Cmd.put .lb b) (Releasing lbId) p

theorem releasing_of_confined {p : Handler} (h : p.Confined Cmd.Quiet fun _ => True) :
    Releasing lbId (p.tryFinally (release lbId)) :=
  Program.leads_cleanup (fun _ => rfl) h

theorem not_settled_of_writing {b : LoadBalancer Json Json} {p : Handler}
    (h : Writing lbId b p) : ¬ Settled p := by
  refine Program.not_avoids_of_leads h trivial fun d hd => ?_
  cases d with
  | listByVpc k v => exact ⟨.ok [], fun h => h⟩
  | external e => exact ⟨.error "", fun h => h⟩
  | _ => cases hd

/-- An edit that is not refused goes on to write. -/
theorem writing_storeLb (b : LoadBalancer Json Json) (reply : Reply) :
    Writing lbId b ((storeLb b reply).tryFinally (release lbId)) := by
  have hput : Program.Leads (F := Commands) Cmd.Aside (Cmd.put .lb b)
      (fun q => q.Confined Cmd.Quiet fun _ => True)
      (do Store.put (k := .lb) b; pure reply : Handler) := by
    refine Or.inr ⟨rfl, fun a => ?_⟩
    cases a with
    | ok _ => trivial
    | error _ => trivial
  refine Program.leads_tryFinally (fun q hq => releasing_of_confined hq) ?_
  refine Or.inl ⟨trivial, fun instances => ?_⟩
  cases instances with
  | error e => exact hput
  | ok l => exact Or.inl ⟨trivial, fun _ => hput⟩

/-- What `dropLb` does after the row is marked. -/
def stopped (lbId : String) : Handler := do
  Store.call (.stopLb lbId)
  Store.call (.deleteDns lbId)
  Store.call .reloadDns
  pure .noContent

theorem dropLb_eq : dropLb lbId =
    .call (F := Commands) (.delete .lb lbId) fun _ => stopped lbId := rfl

theorem confined_stopped : (stopped lbId).Confined Cmd.Quiet fun _ => True := by
  refine Program.confined_bind (confined_call _) fun _ _ => ?_
  refine Program.confined_bind (confined_call _) fun _ _ => ?_
  exact Program.confined_bind (confined_call _) fun _ _ => trivial

/-- The row is gone, or was there for the deletion that some earlier request reads. -/
def Doomed (pf : Platform) (lbId : String) (requests : ι → LbCall) (r₀ : Option (Row .lb))
    (s : State ι) (order : List ι) : Prop :=
  lbRow lbId s = none ∨ ∃ o₁ o₂ r, order = o₁ ++ o₂ ∧
    inTurn pf lbId requests o₁ r₀ = some r ∧ LoadBalancer.deletionProtection r = false

/-- Where a request is when `order` are those that count so far. -/
inductive Stage (pf : Platform) (lbId : String) (requests : ι → LbCall) (r₀ : Option (Row .lb))
    (s : State ι) (order : List ι) (i : ι) : Option Handler → Prop where
  | waiting {e : LbRequest} (req : requests i = .edit e) (new : i ∉ order) :
      Stage pf lbId requests r₀ s order i (some (withLb lbId (e.edit pf lbId)))
  | reading {e : LbRequest} (req : requests i = .edit e) (new : i ∉ order)
      (held : s.lbLock lbId = some i) :
      Stage pf lbId requests r₀ s order i
        (some ((underLock lbId (e.edit pf lbId)).tryFinally (release lbId)))
  | writing {e : LbRequest} {r : Row .lb} {b : LoadBalancer Json Json} {reply : Reply} {p : Handler}
      (req : requests i = .edit e) (new : i ∉ order) (held : s.lbLock lbId = some i)
      (row : lbRow lbId s = some r) (edit : e.edit pf lbId (decode r) = .ok (b, reply))
      (rest : Writing lbId b p) : Stage pf lbId requests r₀ s order i (some p)
  | releasing {p : Handler} (old : i ∈ order) (held : s.lbLock lbId = some i)
      (rest : Releasing lbId p) : Stage pf lbId requests r₀ s order i (some p)
  | asking (req : requests i = .delete) (new : i ∉ order) :
      Stage pf lbId requests r₀ s order i (some (deleteLb lbId))
  | marking (req : requests i = .delete) (new : i ∉ order)
      (doomed : Doomed pf lbId requests r₀ s order) :
      Stage pf lbId requests r₀ s order i (some (dropLb lbId))
  | finishing {p : Handler} (old : i ∈ order) (rest : p.Confined Cmd.Quiet fun _ => True) :
      Stage pf lbId requests r₀ s order i (some p)
  | finished (old : i ∈ order) : Stage pf lbId requests r₀ s order i none

/-- A request stays where it is while others move. -/
theorem Stage.frame {t : Option Handler} (h : Stage pf lbId requests r₀ s order i t)
    (hmem : i ∈ order' ↔ i ∈ order)
    (hlock : s.lbLock lbId = some i → s'.lbLock lbId = some i)
    (hrow : s.lbLock lbId = some i → (∃ p, t = some p ∧ ¬ Settled p) → lbRow lbId s' = lbRow lbId s)
    (hdoom : Doomed pf lbId requests r₀ s order → Doomed pf lbId requests r₀ s' order') :
    Stage pf lbId requests r₀ s' order' i t := by
  cases h with
  | waiting req new => exact .waiting req (mt hmem.mp new)
  | reading req new held => exact .reading req (mt hmem.mp new) (hlock held)
  | writing req new held row edit rest =>
    have hsame := hrow held ⟨_, rfl, not_settled_of_writing rest⟩
    exact .writing req (mt hmem.mp new) (hlock held) (hsame.trans row) edit rest
  | releasing old held rest => exact .releasing (hmem.mpr old) (hlock held) rest
  | asking req new => exact .asking req (mt hmem.mp new)
  | marking req new doomed => exact .marking req (mt hmem.mp new) (hdoom doomed)
  | finishing old rest => exact .finishing (hmem.mpr old) rest
  | finished old => exact .finished (hmem.mpr old)

/-! ### Writing the row -/

theorem lbLock_write (pf : Platform) {k : Kind} (o : Obj k) : (s.write pf o).2.lbLock = s.lbLock := by
  unfold State.write
  split <;> rfl

/-- What is stored of a load balancer that has been read and edited. -/
theorem get_upsert_edited {e : LbRequest} {r r' : Row .lb} {b : LoadBalancer Json Json}
    (hrow : lbRow lbId s = some r) (hb : Changed (decode r) e b)
    (hr : encode pf.renderReal (k := .lb) b = some r') :
    lbRow lbId (s.upsert r') = some r' := by
  obtain ⟨hlive, hkey⟩ := Table.get_eq_some.mp hrow
  obtain ⟨hmem, hactive⟩ := Table.mem_live.mp hlive
  have hid : Record.key r' = lbId := by
    have hr' : Record.key r' = b.id := id_of_encode hr
    rw [hr', hb.id]
    exact hkey
  have hdeleted : Record.deleted r' = false := by
    have hr' : b.status = .active := by
      rw [hb.status]
      cases hst : LoadBalancer.status r with
      | active => exact hst
      | deleted =>
        have hdel : Record.deleted r = true := by
          show decide (LoadBalancer.status r = .deleted) = true
          rw [hst]
          rfl
        rw [hdel] at hactive
        cases hactive
    have hcol := (columns_of_encode hr).2.2.2.2
    show r'.deleted = false
    rw [← hcol]
    show decide (b.status = .deleted) = false
    rw [hr']
    rfl
  have hstored : (s.table .lb).stored r' = r' := by
    rw [Table.stored_of_mem hmem (hkey.trans hid.symm)]
    exact overwrite_of_createdAt ((createdAt_of_encode hr).trans hb.createdAt)
  rw [lbRow, State.table_upsert, Table.get_upsert, if_pos hid, hdeleted, hstored]
  rfl

/-- **The write of an edit is what the edit does to the row.** -/
theorem lbRow_write {e : LbRequest} {r : Row .lb} {b : LoadBalancer Json Json} {reply : Reply}
    (hrow : lbRow lbId s = some r) (hedit : e.edit pf lbId (decode r) = .ok (b, reply)) :
    lbRow lbId (s.write pf (k := .lb) b).2 = (LbCall.edit e).apply pf lbId (lbRow lbId s) := by
  rw [hrow, apply_edit_ok hedit]
  unfold State.write
  split
  next hr => rw [hr, Option.getD_none]; exact hrow
  next r' hr =>
    rw [hr, Option.getD_some]
    exact get_upsert_edited hrow (changed_of_edit hedit) hr

end Stages

/-! ### An order that explains the row -/

section Order

variable [DecidableEq ι] {x y : Config Commands Raised Reply ι (State ι)} {s' : State ι}
  {order order' : List ι} {i : ι} {requests : ι → LbCall} {r₀ : Option (Row .lb)}

/-- The requests in `order`, one after the other, leave the row that is there. -/
structure Linearized (pf : Platform) (lbId : String) (requests : ι → LbCall)
    (r₀ : Option (Row .lb)) (x : Config Commands Raised Reply ι (State ι)) (order : List ι) :
    Prop where
  nodup : order.Nodup
  row : inTurn pf lbId requests order r₀ = lbRow lbId x.shared
  stage : ∀ i, Stage pf lbId requests r₀ x.shared order i (x.thread i)

/-- Thread `i` moves, the others stay where they are. -/
theorem Linearized.move {t : Option Handler} (h : Linearized pf lbId requests r₀ x order)
    (hn : order'.Nodup) (hrow : inTurn pf lbId requests order' r₀ = lbRow lbId s')
    (hmem : ∀ j, j ≠ i → (j ∈ order' ↔ j ∈ order))
    (hlock : ∀ j, j ≠ i → x.shared.lbLock lbId = some j → s'.lbLock lbId = some j ∧
      ((∃ p, x.thread j = some p ∧ ¬ Settled p) → lbRow lbId s' = lbRow lbId x.shared))
    (hdoom : Doomed pf lbId requests r₀ x.shared order → Doomed pf lbId requests r₀ s' order')
    (hstage : Stage pf lbId requests r₀ s' order' i t) :
    Linearized pf lbId requests r₀ (x.set i s' t) order' := by
  refine ⟨hn, hrow, fun j => ?_⟩
  by_cases hj : j = i
  · subst hj
    rw [Config.set_thread_self]
    exact hstage
  · rw [Config.set_thread_of_ne x hj]
    exact (h.stage j).frame (hmem j hj) (fun held => (hlock j hj held).1)
      (fun held => (hlock j hj held).2) hdoom

/-- A move that does not touch the row and does not count. -/
theorem Linearized.stay {t : Option Handler} (h : Linearized pf lbId requests r₀ x order)
    (hrow : lbRow lbId s' = lbRow lbId x.shared)
    (hlock : ∀ j, j ≠ i → x.shared.lbLock lbId = some j → s'.lbLock lbId = some j)
    (hstage : Stage pf lbId requests r₀ s' order i t) :
    Linearized pf lbId requests r₀ (x.set i s' t) order := by
  refine h.move h.nodup (h.row.trans hrow.symm) (fun _ _ => Iff.rfl) ?_ ?_ hstage
  · intro j hj held
    exact ⟨hlock j hj held, fun _ => hrow⟩
  · rintro (hnone | hprefix)
    · exact Or.inl (hrow.trans hnone)
    · exact Or.inr hprefix

/-- A move with which a request counts, last of all so far. -/
theorem Linearized.count {t : Option Handler} (h : Linearized pf lbId requests r₀ x order)
    (new : i ∉ order)
    (hrow : lbRow lbId s' = (requests i).apply pf lbId (lbRow lbId x.shared))
    (hlock : ∀ j, j ≠ i → x.shared.lbLock lbId = some j → s'.lbLock lbId = some j ∧
      lbRow lbId s' = lbRow lbId x.shared)
    (hstage : Stage pf lbId requests r₀ s' (order ++ [i]) i t) :
    Linearized pf lbId requests r₀ (x.set i s' t) (order ++ [i]) := by
  refine h.move ?_ ?_ ?_ ?_ ?_ hstage
  · rw [List.nodup_append_comm, List.singleton_append, List.nodup_cons]
    exact ⟨new, h.nodup⟩
  · rw [inTurn_append, inTurn_singleton, h.row, hrow]
  · intro j hj
    rw [List.mem_append, List.mem_singleton]
    exact or_iff_left hj
  · intro j hj held
    exact ⟨(hlock j hj held).1, fun _ => (hlock j hj held).2⟩
  · rintro (hnone | ⟨o₁, o₂, r, rfl, hr, hfree⟩)
    · rw [hnone, apply_none] at hrow
      exact Or.inl hrow
    · exact Or.inr ⟨o₁, o₂ ++ [i], r, List.append_assoc .., hr, hfree⟩

/-! ### The moves -/

variable {c : Cmd} {k : Commands.Ans c → Handler} {a : Commands.Ans c}

/-- A request takes the lock. -/
theorem linearized_lock {e : LbRequest} (h : Linearized pf lbId requests r₀ x order)
    (req : requests i = .edit e) (new : i ∉ order)
    (hx : exec pf i x.shared (.lockLb lbId) () s') :
    Linearized pf lbId requests r₀
      (x.set i s' (some ((underLock lbId (e.edit pf lbId)).tryFinally (release lbId)))) order := by
  obtain ⟨hfree, rfl⟩ := hx
  refine h.stay rfl ?_ (.reading req new (Function.update_self ..))
  intro j hj held
  rw [hfree] at held
  cases held

/-- A request reads the row, and counts if it refuses. -/
theorem linearized_read {e : LbRequest} (h : Linearized pf lbId requests r₀ x order)
    (req : requests i = .edit e) (new : i ∉ order) (held : x.shared.lbLock lbId = some i)
    (hp : (underLock lbId (e.edit pf lbId)).tryFinally (release lbId) =
      .call (F := Commands) c k)
    (hx : exec pf i x.shared c a s') :
    ∃ order', Linearized pf lbId requests r₀ (x.set i s' (some (k a))) order' := by
  cases hp
  obtain ⟨rfl, rfl⟩ := hx
  have hlock : ∀ j, j ≠ i → x.shared.lbLock lbId = some j → x.shared.lbLock lbId = some j ∧
      lbRow lbId x.shared = lbRow lbId x.shared := fun j _ hj => ⟨hj, rfl⟩
  have old : i ∈ order ++ [i] := List.mem_append_right _ (List.mem_singleton_self i)
  rw [State.lookup_str]
  cases hrow : (x.shared.table .lb).get lbId with
  | none =>
    have hrow' : lbRow lbId x.shared = none := hrow
    refine ⟨order ++ [i], h.count new ?_ hlock (.releasing old held ?_)⟩
    · rw [hrow', apply_none]
    · exact releasing_of_confined (p := notFound "Load balancer" lbId) trivial
  | some r =>
    have hrow' : lbRow lbId x.shared = some r := hrow
    cases hedit : e.edit pf lbId (decode r) with
    | error refusal =>
      refine ⟨order ++ [i], h.count new ?_ hlock (.releasing old held ?_)⟩
      · rw [hrow', req, apply_edit_error hedit]
      · show Releasing lbId ((finishEdit (e.edit pf lbId (decode r))).tryFinally (release lbId))
        rw [hedit]
        cases refusal <;> exact releasing_of_confined trivial
    | ok res =>
      obtain ⟨b, reply⟩ := res
      refine ⟨order, h.stay rfl (fun _ _ hj => hj) (.writing req new held hrow hedit ?_)⟩
      show Writing lbId b ((finishEdit (e.edit pf lbId (decode r))).tryFinally (release lbId))
      rw [hedit]
      exact writing_storeLb b reply

theorem quiet_of_aside (h : c.Aside) : c.Quiet := by
  cases c with
  | listByVpc k v => trivial
  | external e => trivial
  | _ => cases h

/-- A request goes on to its write, and counts with it. -/
theorem linearized_write {e : LbRequest} {r : Row .lb} {b : LoadBalancer Json Json} {reply : Reply}
    (h : Linearized pf lbId requests r₀ x order) (req : requests i = .edit e) (new : i ∉ order)
    (held : x.shared.lbLock lbId = some i) (hrow : lbRow lbId x.shared = some r)
    (hedit : e.edit pf lbId (decode r) = .ok (b, reply))
    (rest : Writing lbId b (.call (F := Commands) c k)) (hx : exec pf i x.shared c a s') :
    ∃ order', Linearized pf lbId requests r₀ (x.set i s' (some (k a))) order' := by
  rcases rest with ⟨haside, hk⟩ | ⟨rfl, hk⟩
  · rw [exec_quiet (quiet_of_aside haside) hx]
    exact ⟨order, h.stay rfl (fun _ _ hj => hj) (.writing req new held hrow hedit (hk a))⟩
  · obtain ⟨-, rfl⟩ := hx
    have hsame : (x.shared.write pf (k := .lb) b).2.lbLock lbId = some i :=
      (congrFun (lbLock_write pf (k := .lb) b) lbId).trans held
    refine ⟨order ++ [i], h.count new ?_ ?_ (.releasing ?_ hsame (hk a))⟩
    · rw [req]
      exact lbRow_write hrow hedit
    · -- nobody else holds the lock
      intro j hj hheld
      rw [held, Option.some.injEq] at hheld
      exact absurd hheld.symm hj
    · exact List.mem_append_right _ (List.mem_singleton_self i)

/-- A request goes on to give back the lock. -/
theorem linearized_release (h : Linearized pf lbId requests r₀ x order) (old : i ∈ order)
    (held : x.shared.lbLock lbId = some i) (rest : Releasing lbId (.call (F := Commands) c k))
    (hx : exec pf i x.shared c a s') :
    Linearized pf lbId requests r₀ (x.set i s' (some (k a))) order := by
  rcases rest with ⟨hquiet, hk⟩ | ⟨rfl, hk⟩
  · rw [exec_quiet hquiet hx]
    exact h.stay rfl (fun _ _ hj => hj) (.releasing old held (hk a))
  · obtain rfl := hx
    refine h.stay rfl ?_ (.finishing old ?_)
    · intro j hj hheld
      rw [held, Option.some.injEq] at hheld
      exact absurd hheld.symm hj
    · have hended := hk a
      cases hka : k a with
      | call d l =>
        rw [hka] at hended
        cases hended
      | _ => trivial

/-- A deletion reads the row, and counts if it refuses. -/
theorem linearized_ask (h : Linearized pf lbId requests r₀ x order)
    (req : requests i = .delete) (new : i ∉ order)
    (hp : deleteLb lbId = .call (F := Commands) c k) (hx : exec pf i x.shared c a s') :
    ∃ order', Linearized pf lbId requests r₀ (x.set i s' (some (k a))) order' := by
  cases hp
  obtain ⟨rfl, rfl⟩ := hx
  have hlock : ∀ j, j ≠ i → x.shared.lbLock lbId = some j → x.shared.lbLock lbId = some j ∧
      lbRow lbId x.shared = lbRow lbId x.shared := fun j _ hj => ⟨hj, rfl⟩
  have old : i ∈ order ++ [i] := List.mem_append_right _ (List.mem_singleton_self i)
  rw [State.lookup_str]
  cases hrow : (x.shared.table .lb).get lbId with
  | none =>
    have hrow' : lbRow lbId x.shared = none := hrow
    refine ⟨order ++ [i], h.count new ?_ hlock (.finishing old trivial)⟩
    rw [hrow', apply_none]
  | some r =>
    have hrow' : lbRow lbId x.shared = some r := hrow
    by_cases hprotected : LoadBalancer.deletionProtection r = true
    · refine ⟨order ++ [i], h.count new ?_ hlock (.finishing old ?_)⟩
      · rw [hrow', req, apply_delete_protected hprotected]
      · show Program.Confined _ _ (if LoadBalancer.deletionProtection r = true then _ else _)
        rw [if_pos hprotected]
        trivial
    · refine ⟨order, h.stay rfl (fun _ _ hj => hj) ?_⟩
      show Stage pf lbId requests r₀ x.shared order i
        (some (if LoadBalancer.deletionProtection r = true then _ else dropLb lbId))
      rw [if_neg hprotected]
      refine .marking req new (Or.inr ⟨order, [], r, (List.append_nil order).symm, ?_, ?_⟩)
      · rw [h.row]
        exact hrow
      · exact Bool.eq_false_iff.mpr hprotected

/-- A deletion marks the row: it counts where it has read it. -/
theorem linearized_mark (h : Linearized pf lbId requests r₀ x order) (req : requests i = .delete)
    (new : i ∉ order) (doomed : Doomed pf lbId requests r₀ x.shared order)
    (hsettled : ∀ j p, x.thread j = some p → Settled p)
    (hp : dropLb lbId = .call (F := Commands) c k) (hx : exec pf i x.shared c a s') :
    ∃ order', Linearized pf lbId requests r₀ (x.set i s' (some (k a))) order' := by
  rw [dropLb_eq] at hp
  cases hp
  obtain ⟨-, rfl⟩ := hx
  have hgone : lbRow lbId (x.shared.delete .lb lbId) = none := by
    rw [lbRow, State.table_delete, Table.get_delete, if_pos rfl]
  have hstage {order' : List ι} (old : i ∈ order') : Stage pf lbId requests r₀
      (x.shared.delete .lb lbId) order' i (some (stopped lbId)) :=
    .finishing old confined_stopped
  have hlock : ∀ j, j ≠ i → x.shared.lbLock lbId = some j →
      (x.shared.delete .lb lbId).lbLock lbId = some j ∧
      ((∃ p, x.thread j = some p ∧ ¬ Settled p) →
        lbRow lbId (x.shared.delete .lb lbId) = lbRow lbId x.shared) := by
    rintro j - held
    refine ⟨held, ?_⟩
    rintro ⟨p, hp, hunsettled⟩
    exact absurd (hsettled j p hp) hunsettled
  rcases doomed with hnone | ⟨o₁, o₂, r, rfl, hr, hfree⟩
  · -- another deletion was faster
    refine ⟨order ++ [i], h.count new ?_ ?_ (hstage ?_)⟩
    · rw [hgone, hnone, apply_none]
    · intro j hj held
      exact ⟨(hlock j hj held).1, hgone.trans hnone.symm⟩
    · exact List.mem_append_right _ (List.mem_singleton_self i)
  · refine ⟨o₁ ++ i :: o₂, h.move ?_ ?_ ?_ hlock (fun _ => Or.inl hgone) (hstage ?_)⟩
    · exact List.nodup_middle.mpr (List.nodup_cons.mpr ⟨new, h.nodup⟩)
    · rw [inTurn_append, inTurn_cons, hr, req, apply_delete_free hfree, inTurn_none, hgone]
    · intro j hj
      rw [List.mem_append, List.mem_append, List.mem_cons]
      exact or_congr Iff.rfl (or_iff_right hj)
    · exact List.mem_append_right _ List.mem_cons_self

/-- **Every admitted move can be explained.** -/
theorem linearized_step {m : Move Commands Raised Reply ι}
    (h : Linearized pf lbId requests r₀ x order) (hok : Unraced x m)
    (hs : Step (exec pf) x m y) : ∃ order', Linearized pf lbId requests r₀ y order' := by
  obtain ⟨hserved, hunraced⟩ := hok
  cases hs with
  | start _ => cases hserved
  | kill _ => cases hserved
  | @ret i v ht =>
    have hst := h.stage i
    rw [ht] at hst
    refine ⟨order, h.stay rfl (fun _ _ hj => hj) (.finished ?_)⟩
    generalize hp : some (Program.ret v : Handler) = t at hst
    cases hst with
    | writing _ _ _ _ _ rest => cases hp; cases rest
    | releasing old _ _ => exact old
    | finishing old _ => exact old
    | _ => cases hp
  | @raise i e ht =>
    have hst := h.stage i
    rw [ht] at hst
    refine ⟨order, h.stay rfl (fun _ _ hj => hj) (.finished ?_)⟩
    generalize hp : some (Program.raise e : Handler) = t at hst
    cases hst with
    | writing _ _ _ _ _ rest => cases hp; cases rest
    | releasing old _ _ => exact old
    | finishing old _ => exact old
    | _ => cases hp
  | @call i c k a s' ht hx =>
    have hst := h.stage i
    rw [ht] at hst
    generalize hp : some (Program.call (F := Commands) c k : Handler) = t at hst
    cases hst with
    | waiting req new =>
      rw [withLb_eq] at hp
      cases hp
      exact ⟨order, linearized_lock h req new hx⟩
    | reading req new held => exact linearized_read h req new held (Option.some.inj hp).symm hx
    | writing req new held row edit rest =>
      cases hp
      exact linearized_write h req new held row edit rest hx
    | releasing old held rest =>
      cases hp
      exact ⟨order, linearized_release h old held rest hx⟩
    | asking req new => exact linearized_ask h req new (Option.some.inj hp).symm hx
    | marking req new doomed =>
      have hcall := (Option.some.inj hp).symm
      have hc : c = .delete .lb lbId := by
        rw [dropLb_eq] at hcall
        cases hcall
        rfl
      subst hc
      exact linearized_mark h req new doomed (hunraced i lbId a rfl) hcall hx
    | finishing old rest =>
      cases hp
      rw [exec_quiet rest.1 hx]
      exact ⟨order, h.stay rfl (fun _ _ hj => hj) (.finishing old (rest.2 a))⟩
    | finished _ => cases hp

/-! ### Whole runs -/

omit [DecidableEq ι] in
theorem linearized_arrived {s₀ : State ι} :
    Linearized pf lbId requests (lbRow lbId s₀) (arrived pf lbId requests s₀) [] := by
  refine ⟨List.nodup_nil, rfl, fun i => ?_⟩
  show Stage _ _ _ _ _ _ i (some ((requests i).handle pf lbId))
  cases hreq : requests i with
  | edit e =>
    show Stage _ _ _ _ _ _ i (some (e.handle pf lbId))
    rw [e.handle_eq]
    exact .waiting hreq List.not_mem_nil
  | delete => exact .asking hreq List.not_mem_nil

omit [DecidableEq ι] in
/-- Who writes the row has read it, and it is still there. -/
theorem row_of_put {o : Obj .lb} {k : Commands.Ans (Cmd.put .lb o) → Handler}
    (h : Linearized pf lbId requests r₀ x order)
    (ht : x.thread i = some (.call (F := Commands) (.put .lb o) k)) :
    ∃ r, lbRow lbId x.shared = some r := by
  have hst := h.stage i
  rw [ht] at hst
  generalize hp : some (Program.call (F := Commands) (.put .lb o) k : Handler) = t at hst
  cases hst with
  | writing _ _ _ row _ _ => exact ⟨_, row⟩
  | releasing _ _ rest =>
    cases hp
    rcases rest with ⟨hquiet, -⟩ | ⟨hc, -⟩
    · cases hquiet
    · cases hc
  | finishing _ rest => cases hp; cases rest.1
  | _ => cases hp

/-- **A load balancer that is gone stays so.** -/
theorem row_none_step {m : Move Commands Raised Reply ι}
    (h : Linearized pf lbId requests r₀ x order) (hs : Step (exec pf) x m y)
    (hnone : lbRow lbId x.shared = none) : lbRow lbId y.shared = none := by
  cases hs with
  | @call i c k a s' ht hx =>
    show lbRow lbId s' = none
    rcases exec_tables hx with htable | ⟨kind, o, r, rfl, hr, rfl⟩ | ⟨kind, id, rfl, rfl⟩
    · rw [lbRow, htable]
      exact hnone
    · by_cases hk : Kind.lb = kind
      · subst hk
        obtain ⟨r', hr'⟩ := row_of_put h ht
        rw [hnone] at hr'
        cases hr'
      · rw [lbRow, State.table_upsert_of_ne _ hk]
        exact hnone
    · by_cases hk : Kind.lb = kind
      · subst hk
        rw [lbRow, State.table_delete, Table.get_delete]
        split
        · rfl
        · exact hnone
      · rw [lbRow, State.table_delete_of_ne _ hk]
        exact hnone
  | _ => exact hnone

/-- **Concurrent requests leave what they leave in some order, and a load balancer
that is deleted stays so.** -/
theorem serializable {s₀ : State ι}
    (h : Reaches (exec pf) Unraced (arrived pf lbId requests s₀) x) :
    ((∀ i, x.thread i = none) → ∃ order : List ι, order.Nodup ∧ (∀ i, i ∈ order) ∧
      lbRow lbId x.shared = inTurn pf lbId requests order (lbRow lbId s₀)) ∧
    ∀ i a y z, Unraced x (.call i (.delete .lb lbId) a) →
      Step (exec pf) x (.call i (.delete .lb lbId) a) y → Reaches (exec pf) Unraced y z →
        lbRow lbId z.shared = none := by
  have hrun {y : Config Commands Raised Reply ι (State ι)}
      (hy : Reaches (exec pf) Unraced (arrived pf lbId requests s₀) y) :
      ∃ order, Linearized pf lbId requests (lbRow lbId s₀) y order := by
    refine hy.invariant (I := fun y => ∃ order, Linearized pf lbId requests (lbRow lbId s₀) y order)
      ?_ ⟨[], linearized_arrived⟩
    rintro y m z ⟨order, ho⟩ hok hs
    exact linearized_step ho hok hs
  refine ⟨?_, ?_⟩
  · intro hdone
    obtain ⟨order, ho⟩ := hrun h
    refine ⟨order, ho.nodup, fun i => ?_, ho.row.symm⟩
    have hst := ho.stage i
    rw [hdone i] at hst
    cases hst with
    | finished old => exact old
  · intro i a y z hok hs hyz
    obtain ⟨order, ho⟩ := hrun (h.tail ⟨_, hok, hs⟩)
    have hy : lbRow lbId y.shared = none := by
      cases hs with
      | call ht hx =>
        obtain ⟨-, rfl⟩ := hx
        show lbRow lbId (x.shared.delete .lb lbId) = none
        rw [lbRow, State.table_delete, Table.get_delete, if_pos rfl]
    have hz : (∃ order, Linearized pf lbId requests (lbRow lbId s₀) z order) ∧
        lbRow lbId z.shared = none := by
      refine hyz.invariant (I := fun z => (∃ order, Linearized pf lbId requests
        (lbRow lbId s₀) z order) ∧ lbRow lbId z.shared = none) ?_ ⟨⟨order, ho⟩, hy⟩
      rintro u m v ⟨⟨order, ho⟩, hn⟩ hok hs
      exact ⟨linearized_step ho hok hs, row_none_step ho hs hn⟩
    exact hz.2

end Order

/-! ### A run of either kind -/

/-- A load balancer, for two threads. -/
def oneLb : State Bool := (State.empty.write plainPlatform (k := .lb) (newLb "lb" [] "1" "")).2

/-- The first thread renames it, the second does `other`. -/
def renameAnd (other : LbCall) : Bool → LbCall
  | false => .edit (.update (bodyOf [("name", "x")]))
  | true => other

/-- The commands of a thread, as far as they are allowed. -/
def respondFor (allow : Cmd → Bool) (i : Bool) (s : State Bool) (c : Commands.Cmd) :
    Option (Commands.Ans c × State Bool) :=
  if allow c then respond plainPlatform [] i s c else none

/-- The second thread does all its work after the first `n` commands of the first. -/
def overtaking (n : ℕ) (allow : Cmd → Bool) (other : LbCall) : Option (State Bool) := do
  let (rest, s) ← Program.advance (respondFor allow false) n
    ((renameAnd other false).handle plainPlatform "1") oneLb
  let (_, s) ← Program.run (respondFor allow true) (other.handle plainPlatform "1") s
  let (_, s) ← Program.run (respondFor allow false) rest s
  some s

theorem reaches_overtaking {n : ℕ} {allow : Cmd → Bool} {other : LbCall} {s : State Bool}
    (ok : Config Commands Raised Reply Bool (State Bool) → Move Commands Raised Reply Bool → Prop)
    (hcall : ∀ x i c a, allow c → ok x (.call i c a)) (hfinish : ∀ x i r, ok x (.finish i r))
    (h : overtaking n allow other = some s) :
    ∃ y, Reaches (exec plainPlatform) ok (arrived plainPlatform "1" (renameAnd other) oneLb) y ∧
      y.shared = s ∧ ∀ i, y.thread i = none := by
  have hrespond (i : Bool) (x : Config Commands Raised Reply Bool (State Bool)) (c : Commands.Cmd)
      (a : Commands.Ans c) (s : State Bool) (hx : respondFor allow i x.shared c = some (a, s)) :
      exec plainPlatform i x.shared c a s ∧ ok x (.call i c a) := by
    rw [respondFor, Option.ite_none_right_eq_some] at hx
    exact ⟨exec_of_respond hx.2, hcall x i c a hx.1⟩
  unfold overtaking at h
  simp only [Option.bind_eq_bind, Option.bind_eq_some_iff, Prod.exists, Option.some.injEq] at h
  obtain ⟨rest, s₁, h₁, r₂, s₂, h₂, r₃, s₃, h₃, rfl⟩ := h
  refine ⟨_, ((Reaches.advance (hrespond false) n rfl h₁).trans
    (Reaches.finish (hrespond true) (fun x => hfinish x true) ?_ h₂)).trans
    (Reaches.finish (hrespond false) (fun x => hfinish x false) ?_ h₃), rfl, ?_⟩
  · rw [Config.set_thread_of_ne _ (by decide)]
    rfl
  · rw [Config.set_thread_of_ne _ (by decide), Config.set_thread_self]
  · intro i
    cases i with
    | false => rw [Config.set_thread_self]
    | true => rw [Config.set_thread_of_ne _ (by decide), Config.set_thread_self]

/-- No deletions. -/
def editing : Cmd → Bool
  | .delete .. => false
  | _ => true

theorem unraced_of_editing {x : Config Commands Raised Reply Bool (State Bool)} {i : Bool} {c : Cmd}
    {a : c.Ans} (h : editing c) : Unraced x (.call i c a) := by
  refine ⟨trivial, ?_⟩
  intro j id b hcall
  cases hcall
  cases h

/-- Two edits, one after the other. -/
theorem serializable_twoEdits : ∃ y : Config Commands Raised Reply Bool (State Bool),
    (lbRow "1" y.shared).isSome = true ∧ ∃ order : List Bool, order.Nodup ∧ (∀ i, i ∈ order) ∧
      lbRow "1" y.shared =
        inTurn plainPlatform "1" (renameAnd (.edit .deleteHealthCheck)) order (lbRow "1" oneLb) := by
  obtain ⟨s, hs⟩ := Option.isSome_iff_exists.mp
    (show (overtaking 0 editing (.edit .deleteHealthCheck)).isSome = true by decide)
  have hfinish (x : Config Commands Raised Reply Bool (State Bool)) (i : Bool)
      (r : Except Raised Reply) : Unraced x (.finish i r) :=
    ⟨trivial, fun _ _ _ hcall => by cases hcall⟩
  obtain ⟨y, hy, rfl, hdone⟩ := reaches_overtaking Unraced
    (fun _ _ _ _ hc => unraced_of_editing hc) hfinish hs
  have hrow : ((overtaking 0 editing (.edit .deleteHealthCheck)).map fun s =>
      (lbRow "1" s).isSome) = some true := by decide
  rw [hs, Option.map_some, Option.some.injEq] at hrow
  exact ⟨y, hrow, (serializable hy).1 hdone⟩

/-- A deletion between the read and the write of an edit is lost. -/
theorem lost_deletion :
    ¬ ∀ (requests : Bool → LbCall) (s₀ : State Bool)
      (y : Config Commands Raised Reply Bool (State Bool)),
      Reaches (exec plainPlatform) served (arrived plainPlatform "1" requests s₀) y →
      (∀ i, y.thread i = none) → ∃ order : List Bool, order.Nodup ∧ (∀ i, i ∈ order) ∧
        lbRow "1" y.shared = inTurn plainPlatform "1" requests order (lbRow "1" s₀) := by
  intro hall
  obtain ⟨s, hs⟩ := Option.isSome_iff_exists.mp
    (show (overtaking 2 (fun _ => true) .delete).isSome = true by decide)
  obtain ⟨y, hy, rfl, hdone⟩ := reaches_overtaking served (fun _ _ _ _ _ => trivial)
    (fun _ _ _ => trivial) hs
  have hrow : ((overtaking 2 (fun _ => true) .delete).map fun s => (lbRow "1" s).isSome) =
      some true := by decide
  rw [hs, Option.map_some, Option.some.injEq] at hrow
  obtain ⟨order, hnodup, hmem, horder⟩ := hall _ _ y hy hdone
  have hperm : order.Perm [false, true] :=
    (List.perm_ext_iff_of_nodup hnodup (by decide)).mpr fun i => iff_of_true (hmem i) (by simp)
  -- in either order nothing is left
  have hleft : inTurn plainPlatform "1" (renameAnd .delete) order (lbRow "1" oneLb) = none := by
    obtain ⟨a, b, rfl⟩ := List.length_eq_two.mp hperm.length_eq
    rw [← Option.isNone_iff_eq_none]
    cases a with
    | false =>
      cases b with
      | false => exact absurd hnodup (by decide)
      | true => decide
    | true =>
      cases b with
      | false => decide
      | true => exact absurd hnodup (by decide)
  rw [horder, hleft] at hrow
  cases hrow

end Api
end CloudCore
