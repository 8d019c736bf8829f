import CloudCore.Api.Interference

/-!
# Whether the deletion of an instance is final

The handlers write back whole rows, the status included, so a handler that read
an instance before it was deleted takes the mark off again.  That is all that
can: once the row is marked, a handler that starts does not find it, and the id
is not drawn again.

## Main definitions

* `Released`, `Undisturbed` — no write of the instance is on its way.

## Main results

* `deletion_final` — **an instance that is deleted while no write of it is on its
  way stays deleted.**
* `restored_after_deletion` — a handler that read it before brings it back.
-/

namespace CloudCore
namespace Api

open Python Relational Db Effect

variable {ι : Type} [DecidableEq ι] {pf : Platform} {peers : Peers}

/-- The thread does not write the instance any more, unless it reads it again. -/
def Released (id : String) (p : Handler) : Prop := p.Avoids (Told (· = id)) (Brings (· = id))

/-- When thread `i` marks the instance, no other thread has a write of it ahead
and no launch of it is waiting. -/
structure Undisturbed (x : Config Commands Raised Reply ι (State ι)) (i : ι) (id : String) :
    Prop where
  thread : ∀ j, j ≠ i → ∀ p, x.thread j = some p → Released id p
  launches : ∀ l ∈ x.shared.launches, l.instance_.id ≠ id

/-! ### What a handler obeys -/

/-- The commands of the operations that delete nothing. -/
def Alters (D : String → Prop) (c : Commands.Cmd) : Prop :=
  ¬ Brings D c ∧ ∀ id, c ≠ .delete .inst id

/-- The commands of a deletion. -/
def Marks (c : Commands.Cmd) : Prop := Cmd.Quiet c ∨ ∃ id, c = .delete .inst id

theorem alters_of_plain {D : String → Prop} {c : Commands.Cmd} (h : Plain D c) : Alters D c := by
  refine ⟨not_brings_of_plain h, ?_⟩
  rintro id rfl
  exact h

theorem not_brings_of_marks {D : String → Prop} {c : Commands.Cmd} (h : Marks c) :
    ¬ Brings D c := by
  rcases h with hq | ⟨id, rfl⟩
  · exact not_brings_of_plain (plain_of_quiet hq)
  · exact fun hb => hb

/-- A handler deletes nothing, or does nothing else. -/
def Knows (D : String → Prop) (p : Handler) : Prop :=
  p.Obeys (Told D) (Alters D) ∨ p.Obeys (Told D) Marks

theorem usbRegion_alters (D : String → Prop) :
    UsbRegion (fun (_ : Unit) c a _ => Told D c a) Eq (fun _ c _ _ => Alters D c) (fun _ => True)
      D pf where
  insert name body users := by
    have hJ := Program.keeps_unit (T := Told D) fun c (hc : Plain D c) => alters_of_plain hc
    refine carried_withUsbLock (K := fun _ => True) ?_ ?_ (carried_insertInstance hJ)
    · exact fun _ _ _ _ _ _ => ⟨⟨fun hb => hb, fun _ h => by cases h⟩, trivial⟩
    · exact fun _ _ _ _ _ _ => ⟨⟨fun hb => hb, fun _ h => by cases h⟩, trivial⟩
  claim i newIds hi := by
    have hJ := Program.keeps_unit (T := Told D) fun c (hc : Plain D c) => alters_of_plain hc
    refine carried_withUsbLock (K := fun _ => True) ?_ ?_ (carried_claimDevices hJ hi)
    · exact fun _ _ _ _ _ _ => ⟨⟨fun hb => hb, fun _ h => by cases h⟩, trivial⟩
    · exact fun _ _ _ _ _ _ => ⟨⟨fun hb => hb, fun _ h => by cases h⟩, trivial⟩

theorem knows_handle (D : String → Prop) {op : InstanceOp} (hop : op.Local) :
    Knows D (op.handle pf peers) := by
  by_cases hdel : ∃ id, op = .delete id
  · obtain ⟨id, rfl⟩ := hdel
    right
    refine Program.obeys_of_carried (carried_deleteInstance (D := D) ?_ ?_)
    · exact Program.keeps_unit (T := Told D) fun c hc => Or.inl hc
    · exact fun _ _ _ _ _ => ⟨Or.inr ⟨_, rfl⟩, trivial⟩
  · left
    have hJ := Program.keeps_unit (T := Told D) fun c (hc : Plain D c) => alters_of_plain hc
    refine Program.obeys_of_carried (carried_handle hJ (usbRegion_alters D) hop ?_)
    exact fun id h => hdel ⟨id, h⟩

theorem Knows.call {D : String → Prop} {c : Commands.Cmd} {k : Commands.Ans c → Handler}
    (h : Knows D (.call c k)) {a : Commands.Ans c} (ha : Told D c a) :
    ¬ Brings D c ∧ Knows D (k a) := by
  rcases h with h | h
  · obtain ⟨hc, hk⟩ := h.call ha
    exact ⟨hc.1, Or.inl hk⟩
  · obtain ⟨hc, hk⟩ := h.call ha
    exact ⟨not_brings_of_marks hc, Or.inr hk⟩

/-- Being told of fewer instances, a handler brings in fewer. -/
theorem Knows.guarded {D : String → Prop} {p : Handler} (h : Knows D p) :
    p.Obeys (Told D) fun c => ¬ Brings D c := by
  rcases h with h | h
  · exact h.mono (fun _ _ ha => ha) fun _ hc => hc.1
  · exact h.mono (fun _ _ ha => ha) fun _ hc => not_brings_of_marks hc

/-- A handler that deletes an instance does nothing else. -/
theorem knows_delete {D : String → Prop} {id : String} {k : Bool → Handler} {a : Bool}
    (h : Knows D (.call (F := Commands) (.delete .inst id) k)) :
    (k a).Obeys (Told D) Marks := by
  rcases h with h | h
  · have hc := (h.call (a := a) trivial).1
    exact absurd rfl (hc.2 id)
  · exact (h.call trivial).2

/-! ### Runs -/

omit [DecidableEq ι] in
/-- After an instance is marked, the store is clear of it. -/
theorem clear_delete {s : State ι} {id : String} (hs : Clear (fun _ => False) s)
    (hl : ∀ l ∈ s.launches, l.instance_.id ≠ id) : Clear (· = id) (s.delete .inst id) where
  live r hr := by
    rw [State.table_delete] at hr
    obtain ⟨hr, hid⟩ := Table.mem_live_delete.mp hr
    exact ⟨hid, (hs.live r hr).hostId⟩
  launches l hl' := ⟨hl l hl', (hs.launches l hl').hostId⟩

/-- A store that is clear stays so while all threads hold to what they are told. -/
theorem clear_of_reaches {D : String → Prop} {N : State ι → Prop} {T : Handler → Prop}
    (hstart : ∀ op : InstanceOp, op.Local → T (op.handle pf peers))
    (hcall : ∀ c k a, T (.call c k) → Told D c a → ¬ Brings D c ∧ T (k a))
    (hN : ∀ i s c a s', N s → exec pf i s c a s' → N s')
    (hnew : ∀ s id, N s → s.Fresh id → ¬ D id) {x y : Config Commands Raised Reply ι (State ι)}
    (h : Reaches (exec pf) (instanceRequests pf peers) x y)
    (hx : (Clear D x.shared ∧ N x.shared) ∧ ∀ j p, x.thread j = some p → T p) :
    (Clear D y.shared ∧ N y.shared) ∧ ∀ j p, y.thread j = some p → T p := by
  refine h.invariant (I := fun y => (Clear D y.shared ∧ N y.shared) ∧
    ∀ j p, y.thread j = some p → T p) ?_ hx
  rintro x m y ⟨⟨hclear, hn⟩, ht⟩ hok hs
  -- a move changes the program of its own thread only
  have hthread {i : ι} {s : State ι} {t : Option Handler} (hi : ∀ p, t = some p → T p) :
      ∀ j p, (x.set i s t).thread j = some p → T p := by
    intro j p hp
    by_cases hj : j = i
    · subst hj
      rw [Config.set_thread_self] at hp
      exact hi p hp
    · rw [Config.set_thread_of_ne x hj] at hp
      exact ht j p hp
  cases hs with
  | @start i p _ =>
    obtain ⟨op, hop, rfl⟩ := hok
    refine ⟨⟨hclear, hn⟩, hthread ?_⟩
    rintro p ⟨⟩
    exact hstart op hop
  | @call i c k a s hi hx =>
    have htold : Told D c a := by
      refine told_of_clear hclear hx ?_
      rintro id rfl ⟨⟩
      exact hnew x.shared _ hn hx.1
    obtain ⟨hc, hk⟩ := hcall c k a (ht i _ hi) htold
    refine ⟨⟨hclear.step hx hc, hN i _ c a s hn hx⟩, hthread ?_⟩
    rintro p ⟨⟩
    exact hk
  | ret _ => exact ⟨⟨hclear, hn⟩, hthread fun _ h => by cases h⟩
  | raise _ => exact ⟨⟨hclear, hn⟩, hthread fun _ h => by cases h⟩
  | kill _ => cases hok

/-- **An instance that is deleted while no write of it is on its way stays
deleted.** -/
theorem deletion_final {x y z : Config Commands Raised Reply ι (State ι)} {i : ι} {id : String}
    (hx : Reaches (exec pf) (instanceRequests pf peers) (.idle .empty) x)
    (hreleased : Undisturbed x i id)
    (hdelete : Step (exec pf) x (.call i (.delete .inst id) true) y)
    (hz : Reaches (exec pf) (instanceRequests pf peers) y z) :
    z.shared.lookup pf .inst (.str id) = .ok none := by
  -- up to the deletion: every handler deletes nothing or does nothing else
  obtain ⟨⟨hclear, -⟩, hknows⟩ := clear_of_reaches (D := fun _ => False) (N := fun _ => True)
    (fun op hop => knows_handle (fun _ => False) hop) (fun c k a h ha => h.call ha)
    (fun _ _ _ _ _ _ _ => trivial) (fun _ _ _ _ h => h) hx
    ⟨⟨⟨fun _ h => (List.not_mem_nil h).elim, fun _ h => (List.not_mem_nil h).elim⟩, trivial⟩,
      fun _ _ h => by cases h⟩
  -- from the deletion on: no handler is told of the instance
  have hy : (Clear (· = id) y.shared ∧ ∃ r ∈ (y.shared.table .inst).rows, Row.id r = id) ∧
      ∀ j p, y.thread j = some p → p.Obeys (Told (· = id)) fun c => ¬ Brings (· = id) c := by
    cases hdelete with
    | @call _ _ k _ s ht hexec =>
      obtain ⟨hfound, rfl⟩ := hexec
      obtain ⟨r, hr⟩ := Option.isSome_iff_exists.mp hfound.symm
      have hrow : ∃ r ∈ (x.shared.table .inst).rows, Row.id r = id :=
        ⟨r, (Table.mem_live.mp (Table.get_eq_some.mp hr).1).1, (Table.get_eq_some.mp hr).2⟩
      have hkept : ∃ r ∈ ((x.shared.delete .inst id).table .inst).rows, Row.id r = id :=
        row_exists_step hrow (show exec pf i x.shared (.delete .inst id) true _ from ⟨hfound, rfl⟩)
      refine ⟨⟨clear_delete hclear hreleased.launches, hkept⟩, ?_⟩
      intro j p hp
      by_cases hj : j = i
      · subst hj
        rw [Config.set_thread_self, Option.some.injEq] at hp
        subst hp
        exact (knows_delete (hknows j _ ht)).mono (fun _ _ => told_mono fun _ h => h.elim)
          fun _ => not_brings_of_marks
      · rw [Config.set_thread_of_ne x hj] at hp
        exact Program.obeys_of_avoids (hreleased.thread j hj p hp)
  obtain ⟨⟨hgone, -⟩, -⟩ := clear_of_reaches (D := (· = id))
    (T := fun p => p.Obeys (Told (· = id)) fun c => ¬ Brings (· = id) c)
    (fun op hop => (knows_handle (· = id) hop).guarded) (fun c k a h ha => h.call ha)
    (fun i s c a s' hr hx => row_exists_step hr hx)
    (fun s new ⟨r, hr, hid⟩ hfresh hnew => hfresh .inst r hr (hid.trans hnew.symm)) hz hy
  rw [State.lookup_str, Table.get_eq_none.mpr fun r hr hid => (hgone.live r hr).id ?_]
  · rfl
  · exact (id_decode (k := .inst) r).trans hid

/-! ### Two runs -/

/-- The next command marks the instance. -/
def deletes (id : String) : Option Handler → Bool
  | some (.call (.delete .inst j) _) => j == id
  | _ => false

theorem exists_of_deletes {id : String} {t : Option Handler} (h : deletes id t) :
    ∃ k, t = some (.call (F := Commands) (.delete .inst id) k) := by
  unfold deletes at h
  split at h
  next j k => exact ⟨k, by rw [← beq_iff_eq.mp h]⟩
  next => cases h

/-- The launch thread of `l` after its first command. -/
def begun (l : Launch) : Handler :=
  match launch l with
  | .call (.beginLaunch _) k => k ()
  | p => p

/-- The second thread begins the launch that was started last. -/
def beginLaunch (x : Config Commands Raised Reply Bool (State Bool)) :
    Option (Config Commands Raised Reply Bool (State Bool)) :=
  match x.thread true, x.shared.launches with
  | none, l :: rest => some (x.set true { x.shared with launches := rest } (some (begun l)))
  | _, _ => none

theorem reaches_beginLaunch {x y : Config Commands Raised Reply Bool (State Bool)}
    (h : beginLaunch x = some y) :
    Reaches (exec plainPlatform) (instanceRequests plainPlatform noPeers) x y := by
  unfold beginLaunch at h
  split at h
  next l rest ht hl =>
    cases h
    have hcall : Step (exec plainPlatform) (x.set true x.shared (some (launch l)))
        (.call true (.beginLaunch l) ()) ((x.set true x.shared (some (launch l))).set true
          { x.shared with launches := rest } (some (begun l))) :=
      Step.call (k := fun _ => begun l) (Config.set_thread_self ..) ⟨[], rest, hl, rfl⟩
    rw [Config.set_set] at hcall
    refine Reaches.head (.start true (launch l)) ⟨.launch l, trivial, rfl⟩ (.start ht) ?_
    exact Reaches.head (.call true (.beginLaunch l) ()) trivial hcall .refl
  next => cases h

/-- An instance is created, its launch fails, and it is looked up to be deleted. -/
def failedLaunch : Option (Config Commands Raised Reply Bool (State Bool)) := do
  let x ← Config.play (respondEach ["a"]) (request false (.create (instanceBody "x" [])) 10)
    (.idle .empty)
  let y ← beginLaunch x
  Config.play (respondEach ["a"]) (List.replicate 3 (.go true) ++ request false (.delete "a") 1) y

theorem reaches_failedLaunch {z : Config Commands Raised Reply Bool (State Bool)}
    (h : failedLaunch = some z) :
    Reaches (exec plainPlatform) (instanceRequests plainPlatform noPeers) (.idle .empty) z := by
  unfold failedLaunch at h
  simp only [Option.bind_eq_bind, Option.bind_eq_some_iff] at h
  obtain ⟨x, hx, y, hy, hz⟩ := h
  have hcreated := reaches_of_schedule (fun _ _ h =>
    ⟨.create _, local_instanceBody "x" [], start_mem_request h⟩) hx
  refine (hcreated.trans (reaches_beginLaunch hy)).trans (reaches_of_schedule ?_ hz)
  intro i p hp
  rcases List.mem_append.mp hp with hp | hp
  · cases List.eq_of_mem_replicate hp
  · exact ⟨.delete _, trivial, start_mem_request hp⟩

/-- An instance that failed is deleted. -/
theorem deletion_final_failed : ∃ x y : Config Commands Raised Reply Bool (State Bool),
    Step (exec plainPlatform) x (.call false (.delete .inst "a") true) y ∧
      y.shared.lookup plainPlatform .inst (.str "a") = .ok none := by
  obtain ⟨x, hx⟩ := Option.isSome_iff_exists.mp
    (show failedLaunch.isSome = true by decide)
  have hnext : (failedLaunch.map fun x => (deletes "a" (x.thread false) &&
      ((x.shared.table .inst).get "a").isSome) &&
        ((x.thread true).isNone && x.shared.launches.isEmpty)) = some true := by
    decide
  simp only [hx, Option.map_some, Option.some.injEq, Bool.and_eq_true, Option.isNone_iff_eq_none,
    List.isEmpty_iff] at hnext
  obtain ⟨⟨hdel, hfound⟩, hidle, hlaunches⟩ := hnext
  obtain ⟨k, ht⟩ := exists_of_deletes hdel
  have hstep : Step (exec plainPlatform) x (.call false (.delete .inst "a") true)
      (x.set false (x.shared.delete .inst "a") (some (k true))) :=
    .call ht ⟨hfound.symm, rfl⟩
  have hreleased : Undisturbed x false "a" := by
    refine ⟨fun j hj p hp => ?_, fun l hl => ?_⟩
    · obtain rfl : j = true := Bool.eq_true_of_not_eq_false hj
      rw [hidle] at hp
      cases hp
    · rw [hlaunches] at hl
      cases hl
  exact ⟨x, _, hstep, deletion_final (reaches_failedLaunch hx) hreleased hstep .refl⟩

/-- An instance is created; while a user is added to it, it is looked up to be deleted. -/
def overtaken : List (Turn Commands Raised Reply Bool) :=
  request false (.create (instanceBody "x" [])) 10 ++
    (request true (.addUser "a" (bodyOf [("username", "u")])) 1 ++ request false (.delete "a") 1)

theorem start_mem_overtaken {i : Bool} {p : Handler} (h : Turn.start i p ∈ overtaken) :
    ∃ op : InstanceOp, op.Local ∧ p = op.handle plainPlatform noPeers := by
  rcases List.mem_append.mp h with h | h
  · exact ⟨_, local_instanceBody "x" [], start_mem_request h⟩
  rcases List.mem_append.mp h with h | h
  · exact ⟨.addUser _ _, trivial, start_mem_request h⟩
  · exact ⟨.delete _, trivial, start_mem_request h⟩

/-- The deletion goes through, then the user is added. -/
def writtenBack : List (Turn Commands Raised Reply Bool) :=
  List.replicate 5 (.go false) ++ List.replicate 2 (.go true)

theorem start_not_mem_writtenBack {i : Bool} {p : Handler} : Turn.start i p ∉ writtenBack := by
  intro h
  rcases List.mem_append.mp h with h | h
  · cases List.eq_of_mem_replicate h
  · cases List.eq_of_mem_replicate h

/-- A handler that read an instance before it was deleted brings it back. -/
theorem restored_after_deletion :
    ¬ ∀ (x y z : Config Commands Raised Reply Bool (State Bool)) (i : Bool) (id : String),
      Reaches (exec plainPlatform) (instanceRequests plainPlatform noPeers) (.idle .empty) x →
      Step (exec plainPlatform) x (.call i (.delete .inst id) true) y →
      Reaches (exec plainPlatform) (instanceRequests plainPlatform noPeers) y z →
      z.thread i = none → z.shared.lookup plainPlatform .inst (.str id) = .ok none := by
  intro hall
  obtain ⟨x, hx⟩ := Option.isSome_iff_exists.mp (show (Config.play (respondEach ["a"]) overtaken
    (.idle .empty)).isSome = true by decide)
  have hnext : ((Config.play (respondEach ["a"]) overtaken (.idle .empty)).map fun x =>
      deletes "a" (x.thread false) && ((x.shared.table .inst).get "a").isSome) = some true := by
    decide
  rw [hx, Option.map_some, Option.some.injEq, Bool.and_eq_true] at hnext
  obtain ⟨k, ht⟩ := exists_of_deletes hnext.1
  have hstep : Step (exec plainPlatform) x (.call false (.delete .inst "a") true)
      (x.set false (x.shared.delete .inst "a") (some (k true))) :=
    .call ht ⟨hnext.2.symm, rfl⟩
  -- the rest of the schedule, from the deletion on
  have hrest : ((Config.play (respondEach ["a"]) (overtaken ++ .go false :: writtenBack)
      (.idle .empty)).map fun z => (z.thread false).isNone &&
        ((z.shared.table .inst).get "a").isSome) = some true := by
    decide
  obtain ⟨z, hz, hend⟩ := Option.map_eq_some_iff.mp hrest
  rw [Config.play_append, hx, Option.bind_some, Config.play] at hz
  have hturn : x.turn (respondEach ["a"]) (.go false) =
      some (x.set false (x.shared.delete .inst "a") (some (k true))) := by
    simp only [Config.turn, ht]
    show some (x.set false _ (some (k ((x.shared.table .inst).get "a").isSome))) = _
    rw [hnext.2]
  rw [hturn, Option.bind_some] at hz
  rw [Bool.and_eq_true, Option.isNone_iff_eq_none] at hend
  have hlookup := hall x _ z false "a"
    (reaches_of_schedule (fun _ _ h => start_mem_overtaken h) hx) hstep
    (reaches_of_schedule (fun _ _ h => absurd h start_not_mem_writtenBack) hz) hend.1
  rw [State.lookup_str] at hlookup
  obtain ⟨r, hr⟩ := Option.isSome_iff_exists.mp hend.2
  rw [hr] at hlookup
  cases hlookup

end Api
end CloudCore
