import CloudCore.Effect.Pool
import CloudCore.Effect.Sequential
import Mathlib.Data.Int.Notation

/-!
# The one-question gate

`_handle_ask` and `_handle_ask_status` of `verify_proxy.py`, with the queue enabled.  One
question is answered at a time: a global flag and a queue of waiting clients under one
lock, a flag for each client under another.  A region under a lock is one command, and so
is every call that may raise.

## Main definitions

* `handleAsk`, `handleAskStatus` — the handlers.
* `Stage` — how far a handler is that has passed the gate.
* `Sound` — the invariant of the two flags.
* `Guarded` — what is promised.
* `Smooth` — nothing is raised between the gate and the handler's `try`.

## Main results

* `guarded_of_reaches` — **the promises are kept in every run in which nothing is raised
  between the gate and the `try`.**
* `locked_out` — if the event cannot be logged, the assistant stays busy with nobody past the
  gate.
-/

namespace CloudCore
namespace Ask

open Effect
open Effect.Program (attempt)

/-! ### The data -/

/-- An entry of `_ask_queue`; times are in microseconds. -/
structure Ticket where
  ip : String
  enqueuedAt : ℤ
  lastSeen : ℤ
  deriving DecidableEq

/-- `_ASK_QUEUE_TTL_S`. -/
def askQueueTtl : ℤ := 60 * 1000000

def Ticket.Live (now : ℤ) (t : Ticket) : Prop := ¬now - t.lastSeen > askQueueTtl

instance (now : ℤ) : DecidablePred (Ticket.Live now) := fun _ => inferInstanceAs (Decidable (¬_))

/-- `_prune_stale_queue_entries_locked`. -/
def prune (now : ℤ) (queue : List Ticket) : List Ticket := queue.filter (·.Live now)

/-- `if ip in _ask_queue: _ask_queue[ip]["last_seen"] = time.time()`. -/
def refresh (ip : String) (now : ℤ) (queue : List Ticket) : List Ticket :=
  queue.map fun t => if t.ip = ip then { t with lastSeen := now } else t

/-- `_ask_queue.setdefault(ip, {"enqueued_at": ...})["last_seen"] = ...`. -/
def enqueue (ip : String) (now : ℤ) (queue : List Ticket) : List Ticket :=
  if ip ∈ queue.map (·.ip) then refresh ip now queue else queue ++ [⟨ip, now, now⟩]

/-- How far a handler is that has passed the gate. -/
inductive Stage where
  | entered
  /-- `ask_active` is set. -/
  | active
  /-- It is reset, `_llm_busy` is not. -/
  | closing
  deriving DecidableEq

/-- `_llm_busy`; `_ask_queue`; the clients with `ask_active`; the handlers that are past the
gate, and for whom. -/
structure State (ι : Type) where
  busy : Bool
  queue : List Ticket
  active : List String
  past : ι → Option (String × Stage)

def State.empty {ι : Type} : State ι := ⟨false, [], [], fun _ => none⟩

/-! ### The handlers -/

/-- Whatever a call raises. -/
inductive Failure where
  | exception
  deriving DecidableEq

/-- What comes of the region at the gate. -/
inductive Admission where
  | admitted (now : ℤ)
  | busy
  deriving DecidableEq

inductive Cmd where
  /-- `_check_and_record_rate`. -/
  | rate (ip : String)
  /-- `_send_rate_limited`. -/
  | sendRateLimited
  /-- The region that looks at `ask_active`. -/
  | askActive (ip : String)
  /-- The region that looks at `_llm_busy` and the queue, and sends if the client must wait. -/
  | gate (ip : String)
  /-- `time.time()` and `_log_ask_queue_event(..., "started")`. -/
  | logStarted
  /-- The region that sets `ask_active` and makes an event. -/
  | activate (ip : String)
  /-- `_do_handle_ask`. -/
  | answer
  | deactivate (ip : String)
  | clearBusy
  /-- `_log_ask_queue_event(..., "finished")`. -/
  | logFinished
  /-- The region of `_handle_ask_status`. -/
  | poll (ip : String)
  /-- The sending of `_handle_ask_status`. -/
  | sendStatus
  deriving DecidableEq

@[reducible] def Cmd.Ans : Cmd → Type
  | .rate _ | .askActive _ => Except Failure Bool
  | .gate _ => Except Failure Admission
  | .deactivate _ | .clearBusy => Unit
  | _ => Except Failure Unit

abbrev sig : Signature := ⟨Cmd, Cmd.Ans⟩

abbrev Code (α : Type) := Program sig Failure α

def tryStep {α : Type} (c : Cmd) (h : c.Ans = Except Failure α) : Code α :=
  attempt (F := sig) c h

def perform (c : Cmd) : Code c.Ans := Program.perform (F := sig) c

/-- The `finally` of `_handle_ask`. -/
def finishAsk (ip : String) : Code Unit := do
  let () ← perform (.deactivate ip)
  let () ← perform .clearBusy
  tryStep .logFinished rfl

/-- What follows the gate. -/
def admittedAsk (ip : String) : Code Unit := do
  let () ← tryStep .logStarted rfl
  let () ← tryStep (.activate ip) rfl
  Program.tryFinally (tryStep .answer rfl) (finishAsk ip)

def handleAsk (ip : String) : Code Unit := do
  let allowed : Bool ← tryStep (.rate ip) rfl
  if allowed then do
    let active : Bool ← tryStep (.askActive ip) rfl
    if active then pure ()
    else do
      let admission : Admission ← tryStep (.gate ip) rfl
      match admission with
      | .busy => pure ()
      | .admitted _ => admittedAsk ip
  else tryStep .sendRateLimited rfl

def handleAskStatus (ip : String) : Code Unit := do
  let () ← tryStep (.poll ip) rfl
  tryStep .sendStatus rfl

inductive Request where
  | ask (ip : String)
  | status (ip : String)

def Request.code : Request → Code Unit
  | .ask ip => handleAsk ip
  | .status ip => handleAskStatus ip

/-! ### What the commands do -/

section Exec

variable {ι : Type} [DecidableEq ι]

/-- A client must wait. -/
def MustWait (s : State ι) (now : ℤ) (ip : String) : Prop :=
  s.busy = true ∨ ∃ t, (prune now s.queue).head? = some t ∧ t.ip ≠ ip

def State.admitAsk (s : State ι) (i : ι) (ip : String) (now : ℤ) : State ι :=
  { s with
    busy := true
    queue := (prune now s.queue).filter (·.ip ≠ ip)
    past := Function.update s.past i (some (ip, .entered)) }

def State.activate (s : State ι) (i : ι) (ip : String) : State ι :=
  { s with
    active := if ip ∈ s.active then s.active else ip :: s.active
    past := Function.update s.past i (some (ip, .active)) }

def State.deactivate (s : State ι) (i : ι) (ip : String) : State ι :=
  { s with
    active := s.active.filter (· ≠ ip)
    past := Function.update s.past i (some (ip, .closing)) }

def State.clearBusy (s : State ι) (i : ι) : State ι :=
  { s with busy := false, past := Function.update s.past i none }

/-- What a command does; the clock may show anything. -/
def exec (i : ι) (s : State ι) : (c : Cmd) → c.Ans → State ι → Prop
  | .askActive ip, .ok b, s' => b = decide (ip ∈ s.active) ∧ s' = s
  | .gate ip, .ok (.admitted now), s' => ¬MustWait s now ip ∧ s' = s.admitAsk i ip now
  | .gate ip, .ok .busy, s' => ∃ now now', MustWait s now ip ∧
    s' = { s with queue := enqueue ip now' (prune now s.queue) }
  -- the clock, the sending and the logging may raise, before and after the queue is changed
  | .gate ip, .error _, s' => s' = s ∨ (∃ now, s' = { s with queue := prune now s.queue }) ∨
    ∃ now now', MustWait s now ip ∧ s' = { s with queue := enqueue ip now' (prune now s.queue) }
  | .activate ip, _, s' => s' = s.activate i ip
  | .deactivate ip, _, s' => s' = s.deactivate i ip
  | .clearBusy, _, s' => s' = s.clearBusy i
  | .poll ip, .ok _, s' => ∃ now now', s' = { s with queue := refresh ip now' (prune now s.queue) }
  | .poll _, .error _, s' => s' = s ∨ ∃ now, s' = { s with queue := prune now s.queue }
  | .rate _, _, s' | .sendRateLimited, _, s' | .askActive _, .error _, s' | .logStarted, _, s'
  | .answer, _, s' | .logFinished, _, s' | .sendStatus, _, s' => s' = s

/-- Nothing is raised between the gate and the `try`. -/
def Smooth : (c : Cmd) → c.Ans → Prop
  | .logStarted, .error _ | .activate _, .error _ => False
  | _, _ => True

end Exec

/-! ### The invariant -/

section Invariant

variable {ι : Type} [DecidableEq ι] {s s' : State ι} {i : ι}

/-- One handler is past the gate at most; `_llm_busy` says whether there is one, and
`ask_active` is set for its client only. -/
structure Sound (s : State ι) : Prop where
  alone : ∀ i j, s.past i ≠ none → s.past j ≠ none → i = j
  busy : s.busy = true ↔ ∃ i, s.past i ≠ none
  active : ∀ ip ∈ s.active, ∃ i, s.past i = some (ip, .active)

/-- What a command must know of the handler that issues it. -/
def localGuar (w : Option (String × Stage)) : Cmd → Prop
  | .gate _ => w = none
  | .activate ip => ∃ stage, w = some (ip, stage)
  | .deactivate ip => ∃ stage, w = some (ip, stage)
  | .clearBusy => ∃ ip, w = some (ip, .closing)
  | _ => True

omit [DecidableEq ι] in
theorem Sound.of_queue (h : Sound s) (queue : List Ticket) : Sound { s with queue := queue } :=
  ⟨h.alone, h.busy, h.active⟩

theorem past_update_ne (i : ι) {f : ι → Option (String × Stage)} {p : String × Stage} {j : ι} :
    Function.update f i (some p) j ≠ none ↔ j = i ∨ f j ≠ none := by
  by_cases hj : j = i
  · subst hj
    simp
  · rw [Function.update_of_ne hj]
    simp [hj]

theorem Sound.admitAsk (h : Sound s) {ip : String} {now : ℤ} (hgate : ¬MustWait s now ip) :
    Sound (s.admitAsk i ip now) := by
  have hnone : ∀ j, s.past j = none := by
    intro j
    by_contra hj
    exact hgate (.inl (h.busy.mpr ⟨j, hj⟩))
  refine ⟨fun j k hj hk => ?_, ⟨fun _ => ⟨i, ?_⟩, fun _ => rfl⟩, fun ip' hip' => ?_⟩
  · rcases (past_update_ne i).mp hj with rfl | hj
    · rcases (past_update_ne j).mp hk with rfl | hk
      · rfl
      · exact absurd (hnone k) hk
    · exact absurd (hnone j) hj
  · exact (past_update_ne i).mpr (.inl rfl)
  · obtain ⟨j, hj⟩ := h.active ip' hip'
    rw [hnone j] at hj
    cases hj

/-- A handler that is past the gate goes on to another stage. -/
theorem Sound.advance (h : Sound s) {p p' : String × Stage} (hi : s.past i = some p)
    {active : List String} (hactive : ∀ ip ∈ active, p' = (ip, .active)) :
    Sound { s with active := active, past := Function.update s.past i (some p') } := by
  have hpast : ∀ j, Function.update s.past i (some p') j ≠ none ↔ s.past j ≠ none := by
    intro j
    rw [past_update_ne]
    refine or_iff_right_of_imp ?_
    rintro rfl
    rw [hi]
    exact nofun
  refine ⟨fun j k hj hk => h.alone j k ((hpast j).mp hj) ((hpast k).mp hk), ?_, fun ip hip => ?_⟩
  · exact h.busy.trans (exists_congr fun j => (hpast j).symm)
  · refine ⟨i, ?_⟩
    change Function.update s.past i (some p') i = _
    rw [Function.update_self, hactive ip hip]

omit [DecidableEq ι] in
/-- The flag of a client is set by the only handler past the gate. -/
theorem Sound.active_eq (h : Sound s) {p : String × Stage} (hi : s.past i = some p) {ip : String}
    (hip : ip ∈ s.active) : p = (ip, .active) := by
  obtain ⟨j, hj⟩ := h.active ip hip
  have hij : j = i := h.alone j i (by rw [hj]; exact nofun) (by rw [hi]; exact nofun)
  rw [hij, hi] at hj
  exact Option.some.inj hj

theorem Sound.activate (h : Sound s) {ip : String} {stage : Stage}
    (hi : s.past i = some (ip, stage)) : Sound (s.activate i ip) := by
  refine h.advance hi fun ip' hip' => ?_
  split at hip'
  · rw [← (Prod.mk.inj (h.active_eq hi hip')).1]
  · rcases List.mem_cons.mp hip' with rfl | hip'
    · rfl
    · rw [← (Prod.mk.inj (h.active_eq hi hip')).1]

theorem Sound.deactivate (h : Sound s) {ip : String} {stage : Stage}
    (hi : s.past i = some (ip, stage)) : Sound (s.deactivate i ip) := by
  refine h.advance hi fun ip' hip' => ?_
  obtain ⟨hip', hne⟩ := List.mem_filter.mp hip'
  exact absurd (Prod.mk.inj (h.active_eq hi hip')).1.symm (of_decide_eq_true hne)

theorem Sound.clearBusy (h : Sound s) {ip : String} (hi : s.past i = some (ip, .closing)) :
    Sound (s.clearBusy i) := by
  have hnone : ∀ j, (s.clearBusy i).past j = none := by
    intro j
    by_cases hj : j = i
    · rw [hj]
      exact Function.update_self ..
    · have hother : s.past j = none := by
        by_contra hother
        exact hj (h.alone j i hother (by rw [hi]; exact nofun))
      exact (Function.update_of_ne hj ..).trans hother
  refine ⟨fun j _ hj => absurd (hnone j) hj, ⟨nofun, fun ⟨j, hj⟩ => absurd (hnone j) hj⟩, ?_⟩
  intro ip' hip'
  cases h.active_eq hi hip'

/-- **Every command keeps the flags sound.** -/
theorem sound_step {c : Cmd} {a : c.Ans} (hx : exec i s c a s') (hg : localGuar (s.past i) c)
    (h : Sound s) : Sound s' := by
  cases c with
  | gate ip =>
    cases a with
    | ok admission =>
      cases admission with
      | admitted now =>
        obtain ⟨hgate, rfl⟩ := hx
        exact h.admitAsk hgate
      | busy =>
        obtain ⟨now, now', -, rfl⟩ := hx
        exact h.of_queue _
    | error e =>
      rcases hx with rfl | ⟨now, rfl⟩ | ⟨now, now', -, rfl⟩
      · exact h
      · exact h.of_queue _
      · exact h.of_queue _
  | activate ip =>
    obtain rfl : s' = s.activate i ip := hx
    obtain ⟨stage, hi⟩ := hg
    exact h.activate hi
  | deactivate ip =>
    obtain rfl : s' = s.deactivate i ip := hx
    obtain ⟨stage, hi⟩ := hg
    exact h.deactivate hi
  | clearBusy =>
    obtain rfl : s' = s.clearBusy i := hx
    obtain ⟨ip, hi⟩ := hg
    exact h.clearBusy hi
  | poll ip =>
    cases a with
    | ok u =>
      obtain ⟨now, now', rfl⟩ := hx
      exact h.of_queue _
    | error e =>
      rcases hx with rfl | ⟨now, rfl⟩
      · exact h
      · exact h.of_queue _
  | askActive ip =>
    cases a with
    | ok b => exact hx.2 ▸ h
    | error e => exact hx ▸ h
  | _ => exact hx ▸ h

end Invariant

/-! ### What a handler knows of itself -/

section Local

/-- What a command that goes well does to the stage of its handler. -/
def localExec (w : Option (String × Stage)) : (c : Cmd) → c.Ans → Option (String × Stage) → Prop
  | .gate ip, .ok (.admitted _), w' => w' = some (ip, .entered)
  | .activate ip, .ok _, w' => w' = some (ip, .active)
  | .deactivate ip, _, w' => w' = some (ip, .closing)
  | .clearBusy, _, w' => w' = none
  | .logStarted, .error _, _ | .activate _, .error _, _ => False
  | _, _, w' => w' = w

/-- The weakest precondition over the stage of one handler. -/
abbrev lwp {α : Type} (p : Code α) (Q : α → Option (String × Stage) → Prop)
    (E : Failure → Option (String × Stage) → Prop) (w : Option (String × Stage)) : Prop :=
  Program.wp localExec Eq (fun w c _ _ => localGuar w c) p Q E w

variable {w : Option (String × Stage)}

/-- The clean-up ends where the handler was before the gate. -/
theorem lwp_finishAsk {ip : String} {stage : Stage} :
    lwp (finishAsk ip) (fun _ w => w = none) (fun _ w => w = none) (some (ip, stage)) := by
  refine Program.wp_perform fun a w₁ hx => ⟨⟨stage, rfl⟩, ?_⟩
  obtain rfl : w₁ = some (ip, .closing) := hx
  refine Program.wp_perform fun a w₂ hx => ⟨⟨ip, rfl⟩, ?_⟩
  obtain rfl : w₂ = none := hx
  refine (Program.wp_call_eq _ _).mpr fun a w₃ hx => ⟨trivial, ?_⟩
  obtain rfl : w₃ = none := hx
  cases a with
  | ok u => rfl
  | error e => rfl

theorem lwp_admittedAsk {ip : String} :
    lwp (admittedAsk ip) (fun _ w => w = none) (fun _ w => w = none) (some (ip, .entered)) := by
  refine Program.wp_attempt rfl fun a w₁ hx => ⟨trivial, ?_⟩
  cases a with
  | error e => exact hx.elim
  | ok u =>
    obtain rfl : w₁ = some (ip, .entered) := hx
    refine Program.wp_attempt rfl fun a w₂ hx => ⟨⟨.entered, rfl⟩, ?_⟩
    cases a with
    | error e => exact hx.elim
    | ok u =>
      obtain rfl : w₂ = some (ip, .active) := hx
      refine (Program.wp_tryFinally _ _).mpr ((Program.wp_call_eq _ _).mpr fun a w₃ hx =>
        ⟨trivial, ?_⟩)
      obtain rfl : w₃ = some (ip, .active) := hx
      cases a with
      | ok u => exact lwp_finishAsk
      | error e => exact lwp_finishAsk

/-- **A handler that is past the gate leaves it before it ends**, where nothing is raised
before the `try`. -/
theorem lwp_handleAsk {ip : String} :
    lwp (handleAsk ip) (fun _ w => w = none) (fun _ w => w = none) none := by
  refine Program.wp_attempt rfl fun a w₁ hx => ⟨trivial, ?_⟩
  obtain rfl : w₁ = none := hx
  cases a with
  | error e => rfl
  | ok allowed =>
    change Program.wp _ _ _ (if allowed then _ else _) _ _ _
    split
    · refine Program.wp_attempt rfl fun a w₂ hx => ⟨trivial, ?_⟩
      obtain rfl : w₂ = none := by
        cases a with
        | ok b => exact hx
        | error e => exact hx
      cases a with
      | error e => rfl
      | ok active =>
        change Program.wp _ _ _ (if active then _ else _) _ _ _
        split
        · rfl
        · refine Program.wp_attempt rfl fun a w₃ hx => ⟨rfl, ?_⟩
          cases a with
          | error e => exact hx
          | ok admission =>
            cases admission with
            | busy => exact hx
            | admitted now =>
              obtain rfl : w₃ = some (ip, .entered) := hx
              exact lwp_admittedAsk
    · refine (Program.wp_call_eq _ _).mpr fun a w₂ hx => ⟨trivial, ?_⟩
      obtain rfl : w₂ = none := hx
      cases a with
      | ok u => rfl
      | error e => rfl

theorem lwp_handleAskStatus {ip : String} :
    lwp (handleAskStatus ip) (fun _ w' => w' = w) (fun _ w' => w' = w) w := by
  refine Program.wp_attempt rfl fun a w₁ hx => ⟨trivial, ?_⟩
  obtain rfl : w₁ = w := by
    cases a with
    | ok u => exact hx
    | error e => exact hx
  cases a with
  | error e => rfl
  | ok u =>
    refine (Program.wp_call_eq _ _).mpr fun a w₂ hx => ⟨trivial, ?_⟩
    obtain rfl : w₂ = w₁ := hx
    cases a with
    | ok u => rfl
    | error e => rfl

theorem lwp_code (r : Request) :
    lwp r.code (fun _ w => w = none) (fun _ w => w = none) none := by
  cases r with
  | ask ip => exact lwp_handleAsk
  | status ip => exact lwp_handleAskStatus

end Local

/-! ### Runs -/

section Runs

variable {ι : Type} [DecidableEq ι] {s s' : State ι} {x y : Config sig Failure Unit ι (State ι)}

/-- The handlers run to their end. -/
def Starts (_ : Config sig Failure Unit ι (State ι)) : Move sig Failure Unit ι → Prop
  | .start _ p => ∃ r : Request, p = r.code
  | .kill _ => False
  | _ => True

/-- Nothing is raised between the gate and the `try` in the step. -/
def SmoothMove : Move sig Failure Unit ι → Prop
  | .call _ c a => Smooth c a
  | _ => True

theorem past_of_exec {i : ι} {c : Cmd} {a : c.Ans} (h : exec i s c a s') :
    ∃ w, s'.past = Function.update s.past i w ∧ (Smooth c a → localExec (s.past i) c a w) := by
  have hsame (hpast : s'.past = s.past) : s'.past = Function.update s.past i (s.past i) :=
    hpast.trans (Function.update_eq_self ..).symm
  cases c with
  | gate ip =>
    cases a with
    | ok admission =>
      cases admission with
      | admitted now =>
        obtain ⟨-, rfl⟩ := h
        exact ⟨_, rfl, fun _ => rfl⟩
      | busy =>
        obtain ⟨now, now', -, rfl⟩ := h
        exact ⟨_, hsame rfl, fun _ => rfl⟩
    | error e =>
      refine ⟨_, hsame ?_, fun _ => rfl⟩
      rcases h with rfl | ⟨now, rfl⟩ | ⟨now, now', -, rfl⟩ <;> rfl
  | activate ip =>
    obtain rfl : s' = s.activate i ip := h
    cases a with
    | ok u => exact ⟨_, rfl, fun _ => rfl⟩
    | error e => exact ⟨_, rfl, False.elim⟩
  | deactivate ip =>
    obtain rfl : s' = s.deactivate i ip := h
    exact ⟨_, rfl, fun _ => rfl⟩
  | clearBusy =>
    obtain rfl : s' = s.clearBusy i := h
    exact ⟨_, rfl, fun _ => rfl⟩
  | poll ip =>
    refine ⟨_, hsame ?_, fun _ => rfl⟩
    cases a with
    | ok u =>
      obtain ⟨now, now', rfl⟩ := h
      rfl
    | error e => rcases h with rfl | ⟨now, rfl⟩ <;> rfl
  | logStarted =>
    cases a with
    | ok u => exact ⟨_, hsame (congrArg State.past h), fun _ => rfl⟩
    | error e => exact ⟨_, hsame (congrArg State.past h), False.elim⟩
  | askActive ip =>
    refine ⟨_, hsame ?_, fun _ => rfl⟩
    cases a with
    | ok b => exact congrArg State.past h.2
    | error e => exact congrArg State.past h
  | _ => exact ⟨_, hsame (congrArg State.past h), fun _ => rfl⟩

theorem localExec_of_exec {i : ι} {c : Cmd} {a : c.Ans} (h : exec i s c a s') (hsmooth : Smooth c a) :
    localExec (s.past i) c a (s'.past i) := by
  obtain ⟨w, hpast, hlocal⟩ := past_of_exec h
  rw [hpast, Function.update_self]
  exact hlocal hsmooth

/-- What the handlers know of their own stage. -/
def outline : Outline (ι := ι) exec fun x m => Starts x m ∧ SmoothMove m where
  rely i s s' := s'.past i = s.past i
  guar i s c a s' := exec i s c a s' ∧ localGuar (s.past i) c
  idle i s := s.past i = none
  post i _ s := s.past i = none
  fail i _ s := s.past i = none
  sem i s c a s' := exec i s c a s' ∧ Smooth c a
  sem_of_ok _ _ _ _ _ hok hx := ⟨hx, hok.2⟩
  rely_refl _ _ := rfl
  rely_trans _ _ _ _ h h' := h'.trans h
  rely_of_guar _ _ hj _ _ _ _ h := by
    obtain ⟨w, hpast, -⟩ := past_of_exec h.1
    rw [hpast, Function.update_of_ne hj]
  idle_stable _ _ _ h hidle := h.trans hidle
  post_stable _ _ _ _ h hpost := h.trans hpost
  fail_stable _ _ _ _ h hfail := h.trans hfail
  start x i p hp hidle := by
    obtain ⟨⟨r, rfl⟩, -⟩ := hp
    have hcode : lwp r.code (fun _ w => w = none) (fun _ w => w = none) (x.shared.past i) := by
      rw [hidle]
      exact lwp_code r
    exact Program.wp_of_view (fun s : State ι => s.past i) (fun _ _ h => h.symm)
      (fun _ _ _ _ hx => localExec_of_exec hx.1 hx.2) (fun _ _ _ _ hx hg => ⟨hx.1, hg⟩) hcode
  ret _ _ _ _ h := h
  raise _ _ _ _ h := h
  kill _ _ _ hok _ _ := hok.1.elim

/-- `i` is past the gate, for the client `ip`, and still running. -/
def Past (x : Config sig Failure Unit ι (State ι)) (i : ι) (ip : String) : Prop :=
  (∃ stage, x.shared.past i = some (ip, stage)) ∧ x.thread i ≠ none

/-- The promises of the gate. -/
structure Guarded (exec : ι → State ι → (c : Cmd) → c.Ans → State ι → Prop)
    (x : Config sig Failure Unit ι (State ι)) : Prop where
  /-- At most one handler is past the gate. -/
  alone : ∀ i j ip ip', Past x i ip → Past x j ip' → i = j
  /-- The assistant is busy only while such a handler is running. -/
  busy : x.shared.busy = true → ∃ i ip, Past x i ip
  /-- A client has a question in progress only while its handler is past the gate. -/
  active : ∀ ip ∈ x.shared.active, ∃ i, Past x i ip
  /-- A client that is admitted has no live ticket of another client ahead of it. -/
  turn : ∀ i ip now s, x.next i = some (.gate ip) →
    exec i x.shared (.gate ip) (.ok (.admitted now)) s →
    ∀ ahead t behind, x.shared.queue = ahead ++ t :: behind → t.Live now → t.ip ≠ ip →
      ∃ u ∈ ahead, u.ip = ip

omit [DecidableEq ι] in
/-- Who need not wait is the first of the live. -/
theorem turn_of_not_mustWait {now : ℤ} {ip : String} (h : ¬MustWait s now ip)
    {ahead behind : List Ticket} {t : Ticket} (hqueue : s.queue = ahead ++ t :: behind)
    (hlive : t.Live now) (hne : t.ip ≠ ip) : ∃ u ∈ ahead, u.ip = ip := by
  cases hahead : prune now ahead with
  | nil =>
    -- then `t` is the first
    refine absurd (.inr ⟨t, ?_, hne⟩) h
    unfold prune at hahead ⊢
    rw [hqueue, List.filter_append, hahead, List.nil_append,
      List.filter_cons_of_pos (p := fun u : Ticket => decide (u.Live now)) (decide_eq_true hlive),
      List.head?_cons]
  | cons u rest =>
    have hu : u ∈ prune now ahead := hahead ▸ List.mem_cons_self
    refine ⟨u, (List.mem_filter.mp hu).1, ?_⟩
    by_contra hother
    refine h (.inr ⟨u, ?_, hother⟩)
    unfold prune at hahead ⊢
    rw [hqueue, List.filter_append, hahead, List.cons_append, List.head?_cons]

/-- **The promises are kept in every run in which nothing is raised between the gate and the
`try`.** -/
theorem guarded_of_reaches
    (h : Reaches exec (fun x m => Starts x m ∧ SmoothMove m) (.idle .empty) x) : Guarded exec x := by
  have hidle : outline.Verified (.idle (.empty : State ι)) := fun _ => rfl
  have hempty : Sound (.empty : State ι) :=
    ⟨fun _ _ hi => absurd rfl hi, ⟨nofun, fun ⟨_, hi⟩ => absurd rfl hi⟩,
      fun _ hip => absurd hip List.not_mem_nil⟩
  obtain ⟨hverified, hsound⟩ := outline.invariant (I := Sound)
    (fun _ _ _ _ _ hG hs => sound_step hG.1 hG.2 hs) h hidle hempty
  -- a handler between two requests is not past the gate
  have hrunning : ∀ i, x.shared.past i ≠ none → x.thread i ≠ none := by
    intro i hi hnone
    have hknows := hverified i
    rw [hnone] at hknows
    exact hi hknows
  refine ⟨?_, fun hbusy => ?_, fun ip hip => ?_, ?_⟩
  · rintro i j ip ip' ⟨⟨stage, hi⟩, -⟩ ⟨⟨stage', hj⟩, -⟩
    exact hsound.alone i j (by rw [hi]; exact nofun) (by rw [hj]; exact nofun)
  · obtain ⟨i, hi⟩ := hsound.busy.mp hbusy
    obtain ⟨⟨ip, stage⟩, hp⟩ := Option.ne_none_iff_exists'.mp hi
    exact ⟨i, ip, ⟨stage, hp⟩, hrunning i hi⟩
  · obtain ⟨i, hi⟩ := hsound.active ip hip
    exact ⟨i, ⟨.active, hi⟩, hrunning i (by rw [hi]; exact nofun)⟩
  · rintro i ip now s - ⟨hgate, -⟩ ahead t behind hqueue hlive hne
    exact turn_of_not_mustWait hgate hqueue hlive hne

end Runs

/-! ### Two runs -/

instance {ι : Type} (s : State ι) (now : ℤ) (ip : String) : Decidable (MustWait s now ip) :=
  decidable_of_iff (s.busy = true ∨ (prune now s.queue).head?.any (·.ip ≠ ip) = true)
    (or_congr_right (by simp [Option.any_eq_true]))

/-- The answers at time 0 where only the log may raise. -/
def respond (logFails : Bool) (i : String) (s : State String) :
    (c : Cmd) → Option (c.Ans × State String)
  | .rate _ => some (.ok true, s)
  | .askActive ip => some (.ok (decide (ip ∈ s.active)), s)
  | .gate ip =>
    if MustWait s 0 ip then some (.ok .busy, { s with queue := enqueue ip 0 (prune 0 s.queue) })
    else some (.ok (.admitted 0), s.admitAsk i ip 0)
  | .logStarted => some (if logFails then .error .exception else .ok (), s)
  | .activate ip => some (.ok (), s.activate i ip)
  | .deactivate ip => some ((), s.deactivate i ip)
  | .clearBusy => some ((), s.clearBusy i)
  | .poll ip => some (.ok (), { s with queue := refresh ip 0 (prune 0 s.queue) })
  | .sendRateLimited | .answer | .logFinished | .sendStatus => some (.ok (), s)

theorem exec_respond {logFails : Bool} {i : String} {s s' : State String} {c : Cmd} {a : c.Ans}
    (h : respond logFails i s c = some (a, s')) : exec i s c a s' := by
  cases c with
  | askActive ip =>
    cases h
    exact ⟨rfl, rfl⟩
  | gate ip =>
    by_cases hgate : MustWait s 0 ip
    · rw [respond, if_pos hgate] at h
      cases h
      exact ⟨0, 0, hgate, rfl⟩
    · rw [respond, if_neg hgate] at h
      cases h
      exact ⟨hgate, rfl⟩
  | poll ip =>
    cases h
    exact ⟨0, 0, rfl⟩
  | _ =>
    cases h
    exact rfl

theorem smooth_respond {i : String} {s s' : State String} {c : Cmd} {a : c.Ans}
    (h : respond false i s c = some (a, s')) : Smooth c a := by
  cases c with
  | logStarted =>
    cases h
    trivial
  | activate ip =>
    cases h
    trivial
  | _ => trivial

/-- One client is being answered, another one waits. -/
theorem guarded_of_reaches_two : ∃ x : Config sig Failure Unit String (State String),
    (x.shared.active, x.shared.queue.map (·.ip)) = (["1"], ["2"]) ∧ Guarded exec x := by
  have hrun : (Config.play (respond false) (.start "a" (Request.code (.ask "1")) ::
      .start "b" (Request.code (.ask "2")) :: (List.replicate 5 (.go "a") ++
        List.replicate 3 (.go "b"))) (.idle .empty)).map (fun x =>
          (x.shared.active, x.shared.queue.map (·.ip))) = some (["1"], ["2"]) := by
    decide
  obtain ⟨x, hx, hshared⟩ := Option.map_eq_some_iff.mp hrun
  refine ⟨x, hshared, guarded_of_reaches (reaches_of_play (fun i x c a s h => ?_)
    (fun _ _ _ => ⟨trivial, trivial⟩) (fun i p hp x => ⟨?_, trivial⟩) hx)⟩
  · exact ⟨exec_respond h, trivial, smooth_respond h⟩
  · rcases List.mem_cons.mp hp with hp | hp
    · cases hp
      exact ⟨.ask "1", rfl⟩
    rcases List.mem_cons.mp hp with hp | hp
    · cases hp
      exact ⟨.ask "2", rfl⟩
    rcases List.mem_append.mp hp with hp | hp
    · cases List.eq_of_mem_replicate hp
    · cases List.eq_of_mem_replicate hp

/-- **If the event cannot be logged, the assistant stays busy with no handler past the gate.** -/
theorem locked_out : ¬∀ x : Config sig Failure Unit String (State String),
    Reaches exec Starts (.idle .empty) x → Guarded exec x := by
  intro hall
  have hrun : (Program.run (respond true "a") (Request.code (.ask "1")) .empty).map (·.2.busy) =
      some true := by
    decide
  obtain ⟨⟨r, s⟩, hs, hbusy⟩ := Option.map_eq_some_iff.mp hrun
  have hreach : Reaches exec Starts (.idle .empty) (.idle s) :=
    Reaches.solo (fun _ _ _ _ h => ⟨exec_respond h, trivial⟩) (fun _ _ => trivial) _
      ⟨.ask "1", rfl⟩ hs
  obtain ⟨i, ip, -, hrunning⟩ := (hall _ hreach).busy hbusy
  exact hrunning rfl

end Ask
end CloudCore
