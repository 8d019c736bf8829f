import CloudCore.Effect.Sequential
import Mathlib.Data.List.InsertIdx
import Mathlib.Data.List.Nodup
import Mathlib.Data.Nat.Notation

/-!
# The queue for sandbox runs

`_RunQueue` of `verify_proxy.py` admits callers to a number of microVMs, first come, first
served.  It knows its callers by their tickets, which their browsers choose: the waiting
ones are a list of tickets, and those that run a set.

A region under the condition's lock is one step.  `acquire` enters the queue and looks
whether it may run; as long as it may not, it waits or gives up, and looks again whenever
it wakes up.

## Main definitions

* `RunQueue` — the data, with `enter`, `mayRun`, `admitTicket`, `leave`, `release`, `position`.
* `State` — the data, and the callers themselves.
* `Step` — what one region does.
* `Fair` — what is promised of the callers.
* `Tidy` — the data agree with the callers.

## Main results

* `fair_of_sequence` — **the promises are kept in every run in which no caller brings a
  ticket that is in use.**
* `unfair` — three callers with one ticket share two sandboxes.
-/

namespace CloudCore
namespace Sandbox

open Effect

/-! ### The data -/

/-- `_RunQueue`; `running` is a set. -/
structure RunQueue where
  capacity : ℕ
  waiting : List String
  running : List String

/-- `_RunQueue(capacity)`. -/
def RunQueue.init (capacity : ℕ) : RunQueue := ⟨max 1 capacity, [], []⟩

namespace RunQueue

variable (q : RunQueue) (ticket : String)

/-- `self.waiting.append(ticket)`. -/
def enter : RunQueue := { q with waiting := q.waiting ++ [ticket] }

/-- `self.waiting[0] == ticket and len(self.running) < self.capacity`. -/
def mayRun : Bool := q.waiting.head? = some ticket && q.running.length < q.capacity

/-- `self.waiting.remove(ticket)`: the first one of that name. -/
def leave : RunQueue := { q with waiting := q.waiting.erase ticket }

/-- `self.running.add(ticket)`, and out of the list. -/
def admitTicket : RunQueue :=
  { q with running := if ticket ∈ q.running then q.running else q.running ++ [ticket] }.leave ticket

/-- `self.running.discard(ticket)`. -/
def release : RunQueue := { q with running := q.running.erase ticket }

end RunQueue

/-- What `position` answers. -/
inductive Position where
  | running
  | queued (position : ℕ)
  | unknown
  deriving DecidableEq

def RunQueue.position (q : RunQueue) (ticket : String) : Position :=
  if ticket ∈ q.running then .running
  else if ticket ∈ q.waiting then .queued (q.waiting.idxOf ticket + 1)
  else .unknown

/-! ### The callers -/

/-- A caller, and the ticket it brings. -/
structure Caller where
  id : ℕ
  ticket : String
  deriving DecidableEq

/-- What a caller finds when it looks. -/
inductive Outcome where
  /-- `acquire` returns `True`. -/
  | admitted
  /-- The time is up, or the caller was interrupted. -/
  | gaveUp
  | waits
  deriving DecidableEq

/-- The queue; who waits, in the order of their calls; who has been admitted and has not
called `release`; everybody who has called, and everybody who was ever admitted. -/
structure State where
  queue : RunQueue
  waiters : List Caller
  holders : List Caller
  arrived : List ℕ
  admitted : List ℕ

def State.init (capacity : ℕ) : State := ⟨.init capacity, [], [], [], []⟩

/-- A caller enters the queue. -/
def State.arrive (s : State) (c : Caller) : State :=
  { s with
    queue := s.queue.enter c.ticket
    waiters := s.waiters ++ [c]
    arrived := s.arrived ++ [c.id] }

/-- A caller has looked. -/
def State.settle (s : State) (c : Caller) : Outcome → State
  | .admitted =>
    { s with
      queue := s.queue.admitTicket c.ticket
      waiters := s.waiters.erase c
      holders := s.holders ++ [c]
      admitted := s.admitted ++ [c.id] }
  | .gaveUp => { s with queue := s.queue.leave c.ticket, waiters := s.waiters.erase c }
  | .waits => s

/-- The regions. -/
inductive Event where
  /-- `acquire` is called. -/
  | call (c : Caller) (o : Outcome)
  /-- A caller that waits looks again. -/
  | wake (c : Caller) (o : Outcome)
  | release (c : Caller)

/-- When a region may be gone through, and how it ends: whoever may run is admitted. -/
def State.Enabled (s : State) : Event → Prop
  | .call c o => c.id ∉ s.arrived ∧ (o = .admitted ↔ (s.arrive c).queue.mayRun c.ticket = true)
  | .wake c o => c ∈ s.waiters ∧ (o = .admitted ↔ s.queue.mayRun c.ticket = true)
  | .release c => c ∈ s.holders

/-- What a region does. -/
def State.next (s : State) : Event → State
  | .call c o => (s.arrive c).settle c o
  | .wake c o => s.settle c o
  | .release c => { s with queue := s.queue.release c.ticket, holders := s.holders.erase c }

def Step (s : State) (e : Event) (s' : State) : Prop := s.Enabled e ∧ s' = s.next e

/-! ### The promises -/

/-- The place of `d` after `c` is gone. -/
def placeWithout (waiters : List Caller) (c d : Caller) (place : ℕ) : ℕ :=
  if waiters.idxOf c < waiters.idxOf d then place - 1 else place

/-- **No more callers hold a sandbox than there are; those admitted, and behind them those that
wait, are in the order of their calls; and one that gives up moves those behind it forward by
one, and nobody else.** -/
structure Fair (s : State) : Prop where
  bounded : s.holders.length ≤ s.queue.capacity
  ordered : (s.admitted ++ s.waiters.map (·.id)).Sublist s.arrived
  patient : ∀ c s', Step s (.wake c .gaveUp) s' → ∀ d ∈ s'.waiters, ∃ place,
    s.queue.position d.ticket = .queued place ∧
      s'.queue.position d.ticket = .queued (placeWithout s.waiters c d place)

/-- The data agree with the callers. -/
structure Tidy (s : State) : Prop where
  waiting : s.queue.waiting = s.waiters.map (·.ticket)
  running : s.queue.running = s.holders.map (·.ticket)
  distinct : ((s.waiters ++ s.holders).map (·.ticket)).Nodup
  bounded : s.holders.length ≤ s.queue.capacity
  ordered : (s.admitted ++ s.waiters.map (·.id)).Sublist s.arrived

/-- Nobody brings a ticket that is in use. -/
def Distinct (s : State) : Event → Prop
  | .call c _ => c.ticket ∉ s.queue.waiting ∧ c.ticket ∉ s.queue.running
  | _ => True

def Runs (s : State) (e : Event) (s' : State) : Prop := Distinct s e ∧ Step s e s'

theorem tidy_init (capacity : ℕ) : Tidy (.init capacity) :=
  ⟨rfl, rfl, List.nodup_nil, Nat.zero_le _, List.Sublist.refl []⟩

section

variable {s s' : State}

theorem Tidy.arrive (h : Tidy s) {c : Caller} (hwaiting : c.ticket ∉ s.queue.waiting)
    (hrunning : c.ticket ∉ s.queue.running) : Tidy (s.arrive c) where
  waiting := by rw [State.arrive, RunQueue.enter, h.waiting, List.map_append]; rfl
  running := h.running
  distinct := by
    rw [h.waiting] at hwaiting
    rw [h.running] at hrunning
    have hperm : ((s.arrive c).waiters ++ s.holders).Perm (c :: (s.waiters ++ s.holders)) := by
      rw [State.arrive, List.append_assoc]
      exact List.perm_middle
    refine (hperm.map (·.ticket)).nodup_iff.mpr ?_
    rw [List.map_cons, List.nodup_cons, List.map_append, List.mem_append, not_or]
    exact ⟨⟨hwaiting, hrunning⟩, List.map_append ▸ h.distinct⟩
  bounded := h.bounded
  ordered := by
    rw [State.arrive, List.map_append, ← List.append_assoc]
    exact h.ordered.append (List.Sublist.refl [c.id])

/-- Tickets tell the waiting callers apart. -/
theorem Tidy.nodup_waiters (h : Tidy s) : (s.waiters.map (·.ticket)).Nodup := by
  have hdistinct := h.distinct
  rw [List.map_append] at hdistinct
  exact (List.nodup_append.mp hdistinct).1

theorem Tidy.nodup_holders (h : Tidy s) : (s.holders.map (·.ticket)).Nodup := by
  have hdistinct := h.distinct
  rw [List.map_append] at hdistinct
  exact (List.nodup_append.mp hdistinct).2.1

/-- Where tickets tell callers apart, a ticket and its caller are the same. -/
theorem idxOf_ticket {l : List Caller} (hl : (l.map (·.ticket)).Nodup) {c : Caller} (hc : c ∈ l) :
    (l.map (·.ticket)).idxOf c.ticket = l.idxOf c := by
  induction l with
  | nil => cases hc
  | cons d l ih =>
    rw [List.map_cons, List.nodup_cons] at hl
    by_cases hd : d = c
    · rw [hd, List.map_cons, List.idxOf_cons_self, List.idxOf_cons_self]
    · have hmem : c ∈ l := (List.mem_cons.mp hc).resolve_left fun h => hd h.symm
      have hticket : d.ticket ≠ c.ticket := fun h => hl.1 (h ▸ List.mem_map_of_mem hmem)
      rw [List.map_cons, List.idxOf_cons_ne _ hticket, List.idxOf_cons_ne _ hd, ih hl.2 hmem]

theorem map_erase_ticket {l : List Caller} (hl : (l.map (·.ticket)).Nodup) {c : Caller}
    (hc : c ∈ l) : (l.map (·.ticket)).erase c.ticket = (l.erase c).map (·.ticket) := by
  rw [List.erase_eq_eraseIdx_of_idxOf (idxOf_ticket hl hc), List.erase_eq_eraseIdx_of_idxOf rfl,
    List.eraseIdx_map]

theorem Tidy.leave (h : Tidy s) {c : Caller} (hc : c ∈ s.waiters) : Tidy (s.settle c .gaveUp) where
  waiting := by
    rw [State.settle, RunQueue.leave, h.waiting]
    exact map_erase_ticket h.nodup_waiters hc
  running := h.running
  distinct := h.distinct.sublist ((List.erase_sublist.append_right _).map _)
  bounded := h.bounded
  ordered := ((List.Sublist.refl _).append (List.erase_sublist.map _)).trans h.ordered

/-- Whoever may run is the first to wait, and there is room. -/
theorem Tidy.of_mayRun (h : Tidy s) {c : Caller} (hc : c ∈ s.waiters)
    (hrun : s.queue.mayRun c.ticket = true) :
    (∃ rest, s.waiters = c :: rest) ∧ s.holders.length < s.queue.capacity := by
  rw [RunQueue.mayRun, Bool.and_eq_true, decide_eq_true_eq, decide_eq_true_eq, h.waiting,
    h.running, List.length_map] at hrun
  refine ⟨?_, hrun.2⟩
  cases hw : s.waiters with
  | nil => rw [hw] at hc; cases hc
  | cons d rest =>
    have hnodup := h.nodup_waiters
    rw [hw] at hc hrun hnodup
    have hd : d.ticket = c.ticket := Option.some.inj hrun.1
    rcases List.mem_cons.mp hc with rfl | hc
    · exact ⟨rest, rfl⟩
    · rw [List.map_cons, List.nodup_cons] at hnodup
      exact absurd (hd ▸ List.mem_map_of_mem hc) hnodup.1

theorem Tidy.admitted (h : Tidy s) {c : Caller} (hc : c ∈ s.waiters)
    (hrun : s.queue.mayRun c.ticket = true) : Tidy (s.settle c .admitted) := by
  obtain ⟨⟨rest, hrest⟩, hroom⟩ := h.of_mayRun hc hrun
  have hdistinct := h.distinct
  rw [hrest, List.cons_append, List.map_cons, List.nodup_cons, List.map_append, List.mem_append,
    not_or] at hdistinct
  have hnew : c.ticket ∉ s.queue.running := by
    rw [h.running]
    exact hdistinct.1.2
  have herase : s.waiters.erase c = rest := by rw [hrest, List.erase_cons_head]
  refine ⟨?_, ?_, ?_, ?_, ?_⟩
  · rw [State.settle, RunQueue.admitTicket, RunQueue.leave, h.waiting]
    exact map_erase_ticket h.nodup_waiters hc
  · rw [State.settle, RunQueue.admitTicket, RunQueue.leave, if_neg hnew, h.running, List.map_append]
    rfl
  · change ((s.waiters.erase c ++ (s.holders ++ [c])).map (·.ticket)).Nodup
    have hperm : (s.waiters.erase c ++ (s.holders ++ [c])).Perm (s.waiters ++ s.holders) := by
      rw [herase, hrest, ← List.append_assoc]
      exact List.perm_append_comm
    exact (hperm.map Caller.ticket).nodup_iff.mpr h.distinct
  · change (s.holders ++ [c]).length ≤ s.queue.capacity
    rw [List.length_append]
    exact hroom
  · change ((s.admitted ++ [c.id]) ++ (s.waiters.erase c).map (·.id)).Sublist s.arrived
    have hordered := h.ordered
    rw [hrest, List.map_cons] at hordered
    rw [herase, List.append_assoc]
    exact hordered

theorem Tidy.release (h : Tidy s) {c : Caller} (hc : c ∈ s.holders) :
    Tidy { s with queue := s.queue.release c.ticket, holders := s.holders.erase c } where
  waiting := h.waiting
  running := by
    change s.queue.running.erase c.ticket = _
    rw [h.running]
    exact map_erase_ticket h.nodup_holders hc
  distinct := h.distinct.sublist ((List.erase_sublist.append_left _).map _)
  bounded := Nat.le_trans List.erase_sublist.length_le h.bounded
  ordered := h.ordered

/-- **Every step keeps the data tidy if nobody brings a ticket that is in use.** -/
theorem tidy_step {e : Event} (hstep : Runs s e s') (h : Tidy s) : Tidy s' := by
  obtain ⟨hdistinct, hstep⟩ := hstep
  have hsettle {s : State} (h : Tidy s) {c : Caller} (hc : c ∈ s.waiters) {o : Outcome}
      (ho : o = .admitted ↔ s.queue.mayRun c.ticket = true) : Tidy (s.settle c o) := by
    cases o with
    | admitted => exact h.admitted hc (ho.mp rfl)
    | gaveUp => exact h.leave hc
    | waits => exact h
  cases e with
  | call c o =>
    obtain ⟨⟨-, ho⟩, rfl⟩ := hstep
    refine hsettle (h.arrive hdistinct.1 hdistinct.2) ?_ ho
    exact List.mem_append_right _ (List.mem_singleton_self c)
  | wake c o =>
    obtain ⟨⟨hc, ho⟩, rfl⟩ := hstep
    exact hsettle h hc ho
  | release c =>
    obtain ⟨hc, rfl⟩ := hstep
    exact h.release hc

/-! ### Places -/

/-- Places in a list without one of its members. -/
theorem idxOf_erase {α : Type} [DecidableEq α] {l : List α} (hl : l.Nodup) {a b : α} (ha : a ∈ l)
    (hne : b ≠ a) : (l.erase a).idxOf b =
      if l.idxOf a < l.idxOf b then l.idxOf b - 1 else l.idxOf b := by
  induction l with
  | nil => cases ha
  | cons x l ih =>
    rw [List.nodup_cons] at hl
    by_cases hx : x = a
    · rw [hx, List.erase_cons_head, List.idxOf_cons_self, List.idxOf_cons_ne l hne.symm]
      simp
    · have ha : a ∈ l := (List.mem_cons.mp ha).resolve_left fun h => hx h.symm
      rw [List.erase_cons_tail (by simpa using hx), List.idxOf_cons_ne l hx]
      by_cases hb : x = b
      · simp [hb]
      · rw [List.idxOf_cons_ne _ hb, List.idxOf_cons_ne _ hb, ih hl.2 ha]
        have hpos : l.idxOf a < l.idxOf b → 0 < l.idxOf b := fun h => Nat.zero_lt_of_lt h
        split <;> split <;> omega

/-- What `position` tells a caller that waits. -/
theorem Tidy.position (h : Tidy s) {d : Caller} (hd : d ∈ s.waiters) :
    s.queue.position d.ticket = .queued (s.waiters.idxOf d + 1) := by
  have hdistinct := h.distinct
  rw [List.map_append] at hdistinct
  have hmem : d.ticket ∈ s.waiters.map (·.ticket) := List.mem_map_of_mem hd
  have hnot : d.ticket ∉ s.queue.running := by
    rw [h.running]
    exact fun hrun => (List.nodup_append.mp hdistinct).2.2 _ hmem _ hrun rfl
  rw [RunQueue.position, if_neg hnot, h.waiting, if_pos hmem, idxOf_ticket h.nodup_waiters hd]

theorem Tidy.fair (h : Tidy s) : Fair s := by
  refine ⟨h.bounded, h.ordered, ?_⟩
  rintro c s' ⟨⟨hc, -⟩, rfl⟩ d hd
  have hdw : d ∈ s.waiters := List.mem_of_mem_erase hd
  have hnodup : s.waiters.Nodup := List.Nodup.of_map _ h.nodup_waiters
  have hne : d ≠ c := by
    rintro rfl
    exact hnodup.not_mem_erase hd
  refine ⟨s.waiters.idxOf d + 1, h.position hdw, ?_⟩
  refine ((h.leave hc).position hd).trans ?_
  change Position.queued ((s.waiters.erase c).idxOf d + 1) = _
  rw [idxOf_erase hnodup hc hne, placeWithout]
  split
  · congr 1
    omega
  · rfl

end

/-- **The promises are kept in every run in which no caller brings a ticket that is in use.** -/
theorem fair_of_sequence {capacity : ℕ} {s : State} (h : Sequence Runs (.init capacity) s) : Fair s :=
  Tidy.fair (h.invariant (fun _ _ _ hrun hs => tidy_step hrun hs) (tidy_init capacity))

/-! ### Two runs -/

instance (s : State) : DecidablePred s.Enabled
  | .call c o => inferInstanceAs (Decidable (c.id ∉ s.arrived ∧
      (o = .admitted ↔ (s.arrive c).queue.mayRun c.ticket = true)))
  | .wake c o => inferInstanceAs (Decidable (c ∈ s.waiters ∧
      (o = .admitted ↔ s.queue.mayRun c.ticket = true)))
  | .release c => inferInstanceAs (Decidable (c ∈ s.holders))

instance (s : State) : DecidablePred (Distinct s)
  | .call c _ => inferInstanceAs (Decidable (c.ticket ∉ s.queue.waiting ∧
      c.ticket ∉ s.queue.running))
  | .wake .. | .release _ => .isTrue trivial

def go (s : State) (e : Event) : Option State := if s.Enabled e then some (s.next e) else none

theorem step_go {s s' : State} {e : Event} (h : go s e = some s') : Step s e s' := by
  obtain ⟨henabled, h⟩ := Option.ite_none_right_eq_some.mp h
  cases h
  exact ⟨henabled, rfl⟩

def goDistinct (s : State) (e : Event) : Option State := if Distinct s e then go s e else none

theorem runs_go {s s' : State} {e : Event} (h : goDistinct s e = some s') : Runs s e s' := by
  obtain ⟨hdistinct, h⟩ := Option.ite_none_right_eq_some.mp h
  exact ⟨hdistinct, step_go h⟩

/-- The callers that wait, and those that hold a sandbox. -/
def summary (s : State) : List ℕ × List ℕ := (s.waiters.map (·.id), s.holders.map (·.id))

/-- Two callers take turns. -/
theorem fair_of_sequence_turns : ∃ s, summary s = ([], [2]) ∧ Fair s := by
  have hrun : (runSequence goDistinct [.call ⟨1, "x"⟩ .admitted, .call ⟨2, "y"⟩ .waits,
      .release ⟨1, "x"⟩, .wake ⟨2, "y"⟩ .admitted] (.init 1)).map summary = some ([], [2]) := by
    decide
  obtain ⟨s, hs, hsummary⟩ := Option.map_eq_some_iff.mp hrun
  exact ⟨s, hsummary, fair_of_sequence (sequence_of_run (fun _ _ _ => runs_go) hs)⟩

/-- Three callers with one ticket share two sandboxes. -/
theorem unfair : ¬∀ capacity s, Sequence Step (.init capacity) s → Fair s := by
  intro hall
  have hrun : (runSequence go [.call ⟨1, "x"⟩ .admitted, .call ⟨2, "x"⟩ .admitted,
      .call ⟨3, "x"⟩ .admitted] (.init 2)).map (fun s => (s.holders.length, s.queue.capacity)) =
        some (3, 2) := by
    decide
  obtain ⟨s, hs, hlengths⟩ := Option.map_eq_some_iff.mp hrun
  have hbounded := (hall 2 s (sequence_of_run (fun _ _ _ => step_go) hs)).bounded
  rw [Prod.mk.injEq] at hlengths
  omega

end Sandbox
end CloudCore
