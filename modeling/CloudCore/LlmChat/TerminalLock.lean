import CloudCore.LlmChat.TerminalSteps

/-!
# The lock of the terminal service

`_client_lock` is a lock of threads, and the handlers are coroutines of one thread: a handler
that waits for the lock while another one is suspended with it stops the event loop.  The message
that the capacity is full is sent under the lock.

## Main results

* `never_blocks_of_reaches` — **nobody waits for the lock**, where that message does not suspend.
* `blocked` — where it does, the service stops.
-/

namespace CloudCore
namespace Terminal

open Effect Python

section Runs

variable {ι : Type}

/-- **The event loop goes on**: nobody is about to take the lock while it is held. -/
def NeverBlocks (x : Config sig Failure Unit ι (State ι)) : Prop :=
  ∀ i, x.next i = some .acquire → x.shared.holder = none

/-- Nobody else makes a move while a browser is told that the capacity is full. -/
def SentAtOnce (x : Config sig Failure Unit ι (State ι)) (m : Move sig Failure Unit ι) : Prop :=
  ∀ j, j ≠ mover m → x.next j ≠ some (.send .full)

/-- While the lock is held, the others wait for something else. -/
def OthersWait (x : Config sig Failure Unit ι (State ι)) : Prop :=
  ∀ j, x.shared.holder = some j → ∀ i, i ≠ j → Waits (x.thread i)

variable [DecidableEq ι] {cfg : Settings} {labs : List (String × String)}
  {x : Config sig Failure Unit ι (State ι)}

/-- A move leaves the lock alone, or is made by who holds it then. -/
theorem holder_of_step {y : Config sig Failure Unit ι (State ι)} {m : Move sig Failure Unit ι}
    (h : Step (exec cfg) x m y) {j : ι} (hj : y.shared.holder = some j) :
    x.shared.holder = some j ∨ j = mover m := by
  cases h with
  | @call i c k a s ht hx =>
    change s.holder = some j at hj
    cases c with
    | acquire =>
      obtain ⟨-, rfl⟩ := hx
      exact .inr (Option.some.inj hj).symm
    | release =>
      obtain rfl := hx
      cases hj
    | setActive ip n =>
      obtain rfl := hx
      unfold State.setActive at hj
      split at hj <;> exact .inl hj
    | tick =>
      cases hx with
      | vm _ _ => exact .inl hj
      | labs _ => exact .inl hj
    | connect address r host port => exact .inl (exec_connect hx ▸ hj)
    | getActive | getVm | booted | vmIp | make | attach =>
      obtain ⟨-, rfl⟩ := hx
      exact .inl hj
    | toreDown r =>
      obtain ⟨-, -, rfl⟩ := hx
      exact .inl hj
    | _ =>
      obtain rfl := hx
      exact .inl hj
  | _ => exact .inl hj

theorem thread_of_step {y : Config sig Failure Unit ι (State ι)} {m : Move sig Failure Unit ι}
    (h : Step (exec cfg) x m y) {i : ι} (hi : i ≠ mover m) : y.thread i = x.thread i := by
  cases h <;> exact Config.set_thread_of_ne x hi ..

/-- A handler that waits holds the lock only at the message that the capacity is full. -/
theorem othersWait_of_reaches
    (h : Reaches (exec cfg) (fun x m => Served cfg x m ∧ SentAtOnce x m) (.idle (.init labs)) x) :
    OthersWait x := by
  induction h with
  | refl => exact nofun
  | tail hrun hm ih =>
    obtain ⟨m, ⟨⟨hstarts, hcoop⟩, hsent⟩, hstep⟩ := hm
    intro j hj i hij
    by_cases hjm : j = mover m
    · subst hjm
      rw [thread_of_step hstep hij]
      exact hcoop i hij
    · -- the holder of the lock is suspended
      have hheld := (holder_of_step hstep hj).resolve_right hjm
      have hsteady := steady_of_reaches (fun _ _ hok => hok.1.1) hrun j
      exact absurd (hsteady.1 (hcoop j hjm) hheld) (hsent j hjm)

/-- **Nobody waits for the lock**, in every run in which the message that the capacity is full is
sent at once. -/
theorem never_blocks_of_reaches
    (h : Reaches (exec cfg) (fun x m => Served cfg x m ∧ SentAtOnce x m) (.idle (.init labs)) x) :
    NeverBlocks x := by
  intro i hnext
  have hsteady := steady_of_reaches (fun _ _ hok => hok.1.1) h i
  cases hholder : x.shared.holder with
  | none => rfl
  | some j =>
    have hij : i ≠ j := by
      rintro rfl
      exact hsteady.2.2 hnext hholder
    obtain ⟨k, ht⟩ := Config.thread_of_next hnext
    have hwaits := othersWait_of_reaches h j hholder i hij
    rw [ht] at hwaits
    exact hwaits.elim

end Runs

/-! ### Two runs -/

/-- The message that the capacity is full. -/
def sendsFull : Option Cmd → Bool
  | some (.send .full) => true
  | _ => false

/-- The turns of an event loop; those that are made at once. -/
def check (atOnce : Bool) (x : Config sig Failure Unit Handler (State Handler))
    (t : Turn sig Failure Unit Handler) : Bool :=
  inTurn x t && (!atOnce || decide (∀ j, j ≠ taker t → sendsFull (x.next j) = false))

/-- A schedule of terminal connections is a run. -/
theorem reaches_of_schedule {cfg : Settings} {atOnce : Bool} {l : List (Turn sig Failure Unit Handler)}
    {x : Config sig Failure Unit Handler (State Handler)}
    (hl : ∀ i p, Turn.start i p ∈ l → ∃ req, p = terminalHandler cfg req)
    (hx : Config.playIf (respond cfg (.ok .null)) (check atOnce) l (.idle (.init [])) = some x) :
    Reaches (exec cfg) (fun x m => Served cfg x m ∧ (atOnce = true → SentAtOnce x m))
      (.idle (.init [])) x := by
  have hsent : ∀ (x : Config sig Failure Unit Handler (State Handler)) t, check atOnce x t = true →
      atOnce = true → ∀ j, j ≠ taker t → x.next j ≠ some (.send .full) := by
    rintro x t h rfl j hj hnext
    have hnot := of_decide_eq_true (Bool.and_eq_true_iff.mp h).2 j hj
    rw [hnext] at hnot
    cases hnot
  have hturn : ∀ x t, check atOnce x t = true → inTurn x t = true :=
    fun x t h => (Bool.and_eq_true_iff.mp h).1
  exact reaches_of_turns hturn (fun x i c a s h _ => hsent x (.go i) h)
    (fun x i r h => hsent x (.go i) h) (fun x i p h => hsent x (.start i p) h)
    (fun i p hp => .inl ((hl i p hp).imp fun req h => ⟨trivial, h⟩)) hx

/-- A terminal connection of one address. -/
def student : Request := ⟨"198.51.100.7", ["198.51.100.7"], "10.0.0.2", "", ""⟩

/-- One session, and a second connection. -/
def second : List (Turn sig Failure Unit Handler) :=
  .start .one (terminalHandler ⟨1, []⟩ student) :: (List.replicate 5 (.go .one) ++
    [.start .two (terminalHandler ⟨1, []⟩ student)])

theorem second_starts (l : List (Turn sig Failure Unit Handler))
    (hl : ∀ i p, Turn.start i p ∈ l → ∃ req, p = terminalHandler ⟨1, []⟩ req) :
    ∀ i p, Turn.start i p ∈ second ++ l → ∃ req, p = terminalHandler ⟨1, []⟩ req := by
  intro i p hp
  rcases List.mem_append.mp hp with hp | hp
  · rcases List.mem_cons.mp hp with hp | hp
    · cases hp
      exact ⟨student, rfl⟩
    rcases List.mem_append.mp hp with hp | hp
    · cases List.eq_of_mem_replicate hp
    · cases List.mem_singleton.mp hp
      exact ⟨student, rfl⟩
  · exact hl i p hp

/-- One session is being started, another handler is about to take the lock. -/
theorem never_blocks_of_reaches_second : ∃ x : Config sig Failure Unit Handler (State Handler),
    x.shared.active "198.51.100.7" = some 1 ∧ NeverBlocks x := by
  have hrun : (Config.playIf (respond ⟨1, []⟩ (.ok .null)) (check true) (second ++ [])
      (.idle (.init []))).map (·.shared.active "198.51.100.7") = some (some 1) := by
    decide
  obtain ⟨x, hx, hactive⟩ := Option.map_eq_some_iff.mp hrun
  have hreach := reaches_of_schedule (second_starts [] nofun) hx
  exact ⟨x, hactive, never_blocks_of_reaches (hreach.mono fun _ _ h => ⟨h.1, h.2 rfl⟩)⟩

/-- The command that takes the lock. -/
def takesLock : Option Cmd → Bool
  | some .acquire => true
  | _ => false

/-- **The second connection of an address is told that the capacity is full; if that message is
suspended, the next handler stops the service.** -/
theorem blocked : ¬∀ (cfg : Settings) (x : Config sig Failure Unit Handler (State Handler)),
    Reaches (exec cfg) (Served cfg) (.idle (.init [])) x → NeverBlocks x := by
  intro hall
  have hrun : (Config.playIf (respond ⟨1, []⟩ (.ok .null)) (check false) (second ++ [.go .two, .go .two,
      .start .three (terminalHandler ⟨1, []⟩ student)]) (.idle (.init []))).map
        (fun x => (takesLock (x.next .three), x.shared.holder)) = some (true, some .two) := by
    decide
  obtain ⟨x, hx, hshared⟩ := Option.map_eq_some_iff.mp hrun
  obtain ⟨hnext, hholder⟩ := Prod.mk.inj hshared
  have hreach := reaches_of_schedule (second_starts _ fun i p hp => ?_) hx
  · have hlock : x.next .three = some .acquire := by
      unfold takesLock at hnext
      split at hnext
      · assumption
      · cases hnext
    have hfree := hall ⟨1, []⟩ x (hreach.mono fun _ _ h => h.1) .three hlock
    rw [hholder] at hfree
    cases hfree
  · rcases List.mem_cons.mp hp with hp | hp
    · cases hp
    rcases List.mem_cons.mp hp with hp | hp
    · cases hp
    · cases List.mem_singleton.mp hp
      exact ⟨student, rfl⟩

end Terminal
end CloudCore
