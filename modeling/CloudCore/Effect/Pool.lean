import CloudCore.Effect.Program
import Mathlib.Logic.Function.Basic
import Mathlib.Data.Nat.Notation
import Mathlib.Logic.Relation

/-!
# Pools of threads

A pool is a shared state and, for each thread, the rest of the program it is
running, if any.  A thread starts a program, issues its commands one at a time,
ends with the program's result, or is killed between two commands; the order in
which threads move is arbitrary.  Commands may block: a command no answer of
which is possible in the present state is not executed.

Which moves are admitted is a predicate of the configuration before the move,
so "every run in which such a move is never made in such a state" is a run of
the same pool under a smaller predicate.

`Outline` is a rely-guarantee proof of a pool: what each thread relies on and
guarantees, what holds for it between two programs, and a proof of every
program it may start.

## Main definitions

* `Config`, `Move`, `Step` — configurations and their moves.
* `Reaches` — a run all of whose moves are admitted.
* `Performs` — such a run, with its moves that are no commands.
* `Program.run` — a program alone, under commands that are functions.
* `Config.play` — the turns of a schedule, under commands that are functions.
* `Outline` — a rely-guarantee proof of a pool.

## Main results

* `Reaches.solo` — a thread may run a whole program while the others wait.
* `reaches_of_play` — a schedule that can be played is a run.
* `Reaches.sequential` — **a pool of one thread keeps what its programs keep.**
* `Reaches.invariant` — what every admitted move preserves holds throughout a run.
* `Outline.verified_of_reaches` — **a pool with an outline stays verified.**
* `Outline.invariant` — what every guarantee preserves holds throughout a run.
-/

namespace Effect

/-- A shared state and the programs the threads are running. -/
structure Config (F : Signature) (ε α ι S : Type) where
  /-- The state all threads act on. -/
  shared : S
  /-- The rest of each thread's program; `none` between two programs. -/
  thread : ι → Option (Program F ε α)

/-- What a thread does in one move. -/
inductive Move (F : Signature) (ε α ι : Type) where
  /-- Thread `i` starts the program `p`. -/
  | start (i : ι) (p : Program F ε α)
  /-- Thread `i` issues `c` and gets the answer `a`. -/
  | call (i : ι) (c : F.Cmd) (a : F.Ans c)
  /-- Thread `i`'s program has ended. -/
  | finish (i : ι) (r : Except ε α)
  /-- Thread `i` is stopped where it is. -/
  | kill (i : ι)

variable {F : Signature} {ε α ι S : Type} [DecidableEq ι]

/-- Replace the shared state and what thread `i` is running. -/
def Config.set (x : Config F ε α ι S) (i : ι) (s : S) (t : Option (Program F ε α)) :
    Config F ε α ι S where
  shared := s
  thread := Function.update x.thread i t

@[simp] theorem Config.set_shared (x : Config F ε α ι S) (i : ι) (s : S)
    (t : Option (Program F ε α)) : (x.set i s t).shared = s := rfl

@[simp] theorem Config.set_thread_self (x : Config F ε α ι S) (i : ι) (s : S)
    (t : Option (Program F ε α)) : (x.set i s t).thread i = t := Function.update_self ..

theorem Config.set_thread_of_ne (x : Config F ε α ι S) {i j : ι} (h : j ≠ i) (s : S)
    (t : Option (Program F ε α)) : (x.set i s t).thread j = x.thread j :=
  Function.update_of_ne h ..

/-- The configuration in which every thread is between two programs. -/
def Config.idle (s : S) : Config F ε α ι S := ⟨s, fun _ => none⟩

@[simp] theorem Config.idle_set_none (s s' : S) (i : ι) :
    (Config.idle s : Config F ε α ι S).set i s' none = .idle s' := by
  rw [Config.set, Config.idle, Config.idle, Function.update_eq_self]

/-- One move of a pool, under the semantics `exec` of the threads' commands. -/
inductive Step (exec : ι → S → (c : F.Cmd) → F.Ans c → S → Prop) :
    Config F ε α ι S → Move F ε α ι → Config F ε α ι S → Prop where
  | start {x i p} : x.thread i = none →
      Step exec x (.start i p) (x.set i x.shared (some p))
  | call {x i c k a s} : x.thread i = some (.call c k) → exec i x.shared c a s →
      Step exec x (.call i c a) (x.set i s (some (k a)))
  | ret {x i a} : x.thread i = some (.ret a) →
      Step exec x (.finish i (.ok a)) (x.set i x.shared none)
  | raise {x i e} : x.thread i = some (.raise e) →
      Step exec x (.finish i (.error e)) (x.set i x.shared none)
  | kill {x i p} : x.thread i = some p →
      Step exec x (.kill i) (x.set i x.shared none)

/-- `y` is reached from `x` by moves that `ok` admits where they are made. -/
def Reaches (exec : ι → S → (c : F.Cmd) → F.Ans c → S → Prop)
    (ok : Config F ε α ι S → Move F ε α ι → Prop) : Config F ε α ι S → Config F ε α ι S → Prop :=
  Relation.ReflTransGen fun x y => ∃ m, ok x m ∧ Step exec x m y

section

variable {exec : ι → S → (c : F.Cmd) → F.Ans c → S → Prop}
  {ok : Config F ε α ι S → Move F ε α ι → Prop} {x y : Config F ε α ι S}

/-- What every admitted move preserves holds throughout a run. -/
theorem Reaches.invariant {I : Config F ε α ι S → Prop}
    (hstep : ∀ x m y, I x → ok x m → Step exec x m y → I y)
    (h : Reaches exec ok x y) (hx : I x) : I y := by
  induction h with
  | refl => exact hx
  | tail _ hm ih =>
    obtain ⟨m, hok, hs⟩ := hm
    exact hstep _ m _ ih hok hs

/-- A run admitted by a predicate is admitted by every weaker one. -/
theorem Reaches.mono {ok' : Config F ε α ι S → Move F ε α ι → Prop}
    (hok : ∀ x m, ok x m → ok' x m) (h : Reaches exec ok x y) : Reaches exec ok' x y :=
  Relation.ReflTransGen.mono (fun x _ ⟨m, hm, hs⟩ => ⟨m, hok x m hm, hs⟩) _ _ h

/-- What every admitted move preserves may be assumed where a move is admitted. -/
theorem Reaches.strengthen {I : Config F ε α ι S → Prop}
    (hstep : ∀ x m y, I x → ok x m → Step exec x m y → I y) (h : Reaches exec ok x y) (hx : I x) :
    Reaches exec (fun x m => ok x m ∧ I x) x y ∧ I y := by
  induction h with
  | refl => exact ⟨.refl, hx⟩
  | tail _ hm ih =>
    obtain ⟨hrun, hI⟩ := ih
    obtain ⟨m, hok, hs⟩ := hm
    exact ⟨hrun.tail ⟨m, ⟨hok, hI⟩, hs⟩, hstep _ m _ hI hok hs⟩

/-- The move, unless it is a command. -/
def Move.act : Move F ε α ι → List (Move F ε α ι)
  | .call .. => []
  | m => [m]

variable (exec ok) in
/-- A run of admitted moves; those that are no commands are `l`, in order. -/
inductive Performs (x : Config F ε α ι S) : List (Move F ε α ι) → Config F ε α ι S → Prop where
  | refl : Performs x [] x
  | move {l y m z} : Performs x l y → ok y m → Step exec y m z → Performs x (l ++ m.act) z

theorem Performs.reaches {l : List (Move F ε α ι)} (h : Performs exec ok x l y) : Reaches exec ok x y := by
  induction h with
  | refl => exact .refl
  | move _ hok hs ih => exact ih.tail ⟨_, hok, hs⟩

/-- A command changes nothing about the other moves. -/
theorem Performs.call {l : List (Move F ε α ι)} {z : Config F ε α ι S} {i : ι} {c : F.Cmd} {a : F.Ans c}
    (h : Performs exec ok x l y) (hok : ok y (.call i c a)) (hs : Step exec y (.call i c a) z) :
    Performs exec ok x l z := by
  have hz := h.move hok hs
  rwa [Move.act, List.append_nil] at hz

/-- One admitted move in front of a run. -/
theorem Reaches.head {z : Config F ε α ι S} (m : Move F ε α ι) (hok : ok x m)
    (hs : Step exec x m y) (h : Reaches exec ok y z) : Reaches exec ok x z :=
  Relation.ReflTransGen.head ⟨m, hok, hs⟩ h

end

/-! ### Running alone -/

/-- Run a program alone; `h` answers its commands and says what they do, as far
as it knows them. -/
def Program.run (h : S → (c : F.Cmd) → Option (F.Ans c × S)) :
    Program F ε α → S → Option (Except ε α × S)
  | .ret a, s => some (.ok a, s)
  | .raise e, s => some (.error e, s)
  | .call c k, s =>
    match h s c with
    | none => none
    | some (a, s') => (k a).run h s'

/-- A program that can be run alone ends so. -/
theorem Program.ends_of_run {exec : S → (c : F.Cmd) → F.Ans c → S → Prop}
    {h : S → (c : F.Cmd) → Option (F.Ans c × S)}
    (hh : ∀ s c a s', h s c = some (a, s') → exec s c a s') {p : Program F ε α}
    {r : Except ε α} {s s' : S} (hr : p.run h s = some (r, s')) : Ends exec s p r s' := by
  induction p generalizing s with
  | ret a => cases hr; exact .ret
  | raise e => cases hr; exact .raise
  | call c k ih =>
    simp only [Program.run] at hr
    split at hr
    · cases hr
    · rename_i a s₁ hs
      exact .call (hh s c a s₁ hs) (ih a hr)

/-- If all its commands are answered, a program ends as it was verified. -/
theorem Program.run_wp {h : S → (c : F.Cmd) → F.Ans c × S}
    {G : S → (c : F.Cmd) → F.Ans c → S → Prop} {Q : α → S → Prop} {E : ε → S → Prop}
    {p : Program F ε α} {s : S} (hp : p.wp (fun s c a s' => h s c = (a, s')) Eq G Q E s) :
    ∃ r s', p.run (fun s c => some (h s c)) s = some (r, s') ∧ (∀ a, r = .ok a → Q a s') ∧
      ∀ e, r = .error e → E e s' := by
  induction p generalizing s with
  | ret a => exact ⟨.ok a, s, rfl, fun b hb => by cases hb; exact hp, nofun⟩
  | raise e => exact ⟨.error e, s, rfl, nofun, fun d hd => by cases hd; exact hp⟩
  | call c k ih =>
    obtain ⟨-, hk⟩ := hp s rfl (h s c).1 (h s c).2 rfl
    exact ih (h s c).1 hk

/-- A program that raises nothing returns, if all its commands are answered. -/
theorem Program.run_of_wp {h : S → (c : F.Cmd) → F.Ans c × S}
    {G : S → (c : F.Cmd) → F.Ans c → S → Prop} {Q : α → S → Prop} {p : Program F ε α} {s : S}
    (hp : p.wp (fun s c a s' => h s c = (a, s')) Eq G Q (fun _ _ => False) s) :
    ∃ a s', p.run (fun s c => some (h s c)) s = some (.ok a, s') ∧ Q a s' := by
  obtain ⟨r, s', hrun, hok, herror⟩ := Program.run_wp hp
  cases r with
  | ok a => exact ⟨a, s', hrun, hok a rfl⟩
  | error e => exact (herror e rfl).elim

/-- What is behind a program that returns alone runs from there. -/
theorem Program.run_bind {h : S → (c : F.Cmd) → Option (F.Ans c × S)} {β : Type} {p : Program F ε β}
    {f : β → Program F ε α} {s s' : S} {b : β} (hp : p.run h s = some (.ok b, s')) :
    (p >>= f).run h s = (f b).run h s' := by
  induction p generalizing s with
  | ret a => cases hp; rfl
  | raise e => cases hp
  | call c k ih =>
    simp only [Program.run] at hp
    rw [call_bind, Program.run]
    split at hp
    · cases hp
    · exact ih _ hp

/-- What is behind a program that raises does not run. -/
theorem Program.run_bind_error {h : S → (c : F.Cmd) → Option (F.Ans c × S)} {β : Type} {p : Program F ε β}
    {f : β → Program F ε α} {s s' : S} {e : ε} (hp : p.run h s = some (.error e, s')) :
    (p >>= f).run h s = some (.error e, s') := by
  induction p generalizing s with
  | ret a => cases hp
  | raise e => cases hp; rfl
  | call c k ih =>
    simp only [Program.run] at hp
    rw [call_bind, Program.run]
    split at hp
    · cases hp
    · exact ih _ hp

/-- Issue the next `n` commands of a program alone. -/
def Program.advance (h : S → (c : F.Cmd) → Option (F.Ans c × S)) :
    ℕ → Program F ε α → S → Option (Program F ε α × S)
  | 0, p, s => some (p, s)
  | n + 1, .call c k, s =>
    match h s c with
    | none => none
    | some (a, s') => (k a).advance h n s'
  | _ + 1, _, _ => none

section

variable {exec : ι → S → (c : F.Cmd) → F.Ans c → S → Prop}
  {ok : Config F ε α ι S → Move F ε α ι → Prop} {x : Config F ε α ι S} {i : ι}
  {h : S → (c : F.Cmd) → Option (F.Ans c × S)}

theorem Config.set_set (x : Config F ε α ι S) (i : ι) (s s' : S)
    (t t' : Option (Program F ε α)) : (x.set i s t).set i s' t' = x.set i s' t' := by
  simp only [Config.set, Function.update_idem]

/-- A thread may issue the next commands of its program while the others wait. -/
theorem Reaches.advance
    (hh : ∀ x c a s, h x.shared c = some (a, s) → exec i x.shared c a s ∧ ok x (.call i c a))
    (n : ℕ) {p q : Program F ε α} {s : S} (ht : x.thread i = some p)
    (hr : p.advance h n x.shared = some (q, s)) : Reaches exec ok x (x.set i s (some q)) := by
  induction n generalizing x p with
  | zero =>
    cases hr
    rw [Config.set, ← ht, Function.update_eq_self]
    exact .refl
  | succ n ih =>
    cases p with
    | ret a => cases hr
    | raise e => cases hr
    | call c k =>
      simp only [Program.advance] at hr
      split at hr
      · cases hr
      · rename_i a s' hs
        obtain ⟨hx, hok⟩ := hh x c a s' hs
        have hk := ih (x := x.set i s' (some (k a))) (Config.set_thread_self ..) hr
        rw [Config.set_set] at hk
        exact Reaches.head _ hok (.call ht hx) hk

section

variable {x₀ : Config F ε α ι S} {l : List (Move F ε α ι)}

/-- A thread may issue the next command of its program. -/
theorem Performs.go
    (hh : ∀ x c a s, h x.shared c = some (a, s) → exec i x.shared c a s ∧ ok x (.call i c a))
    (hx : Performs exec ok x₀ l x) {c : F.Cmd} {k : F.Ans c → Program F ε α} {a : F.Ans c} {s : S}
    (ht : x.thread i = some (.call c k)) (ha : h x.shared c = some (a, s)) :
    Performs exec ok x₀ l (x.set i s (some (k a))) := by
  obtain ⟨hexec, hok⟩ := hh x c a s ha
  exact hx.call hok (.call ht hexec)

/-- A thread may run the first part of its program while the others wait. -/
theorem Performs.through
    (hh : ∀ x c a s, h x.shared c = some (a, s) → exec i x.shared c a s ∧ ok x (.call i c a))
    (hx : Performs exec ok x₀ l x) {β : Type} {p : Program F ε β} {f : β → Program F ε α} {b : β} {s : S}
    (ht : x.thread i = some (p >>= f)) (hr : p.run h x.shared = some (.ok b, s)) :
    Performs exec ok x₀ l (x.set i s (some (f b))) := by
  induction p generalizing x with
  | ret a =>
    cases hr
    rwa [Config.set, ← show x.thread i = some (f _) from ht, Function.update_eq_self]
  | raise e => cases hr
  | call c k ih =>
    simp only [Program.run] at hr
    split at hr
    · cases hr
    · rename_i a s' hs
      have hk := ih a (x := x.set i s' (some (k a >>= f)))
        (Performs.go hh hx (k := fun a => k a >>= f) ht hs) (Config.set_thread_self ..) hr
      rwa [Config.set_set] at hk

/-- The end of a program that runs alone from where it is. -/
theorem Performs.finish
    (hh : ∀ x c a s, h x.shared c = some (a, s) → exec i x.shared c a s ∧ ok x (.call i c a))
    (hfin : ∀ x r, ok x (.finish i r)) (hx : Performs exec ok x₀ l x) {p : Program F ε α}
    {r : Except ε α} {s : S} (ht : x.thread i = some p) (hr : p.run h x.shared = some (r, s)) :
    Performs exec ok x₀ (l ++ [.finish i r]) (x.set i s none) := by
  induction p generalizing x with
  | ret a => cases hr; exact hx.move (hfin x _) (.ret ht)
  | raise e => cases hr; exact hx.move (hfin x _) (.raise ht)
  | call c k ih =>
    simp only [Program.run] at hr
    split at hr
    · cases hr
    · rename_i a s' hs
      have hk := ih a (x := x.set i s' (some (k a))) (Performs.go hh hx ht hs) (Config.set_thread_self ..) hr
      rwa [Config.set_set] at hk

end

/-- A thread may run its program to the end while the others wait. -/
theorem Reaches.finish
    (hh : ∀ x c a s, h x.shared c = some (a, s) → exec i x.shared c a s ∧ ok x (.call i c a))
    (hfin : ∀ x r, ok x (.finish i r)) {p : Program F ε α} {r : Except ε α} {s : S}
    (ht : x.thread i = some p) (hr : p.run h x.shared = some (r, s)) :
    Reaches exec ok x (x.set i s none) :=
  (Performs.finish hh hfin .refl ht hr).reaches

/-- **A thread may run a whole program while the others wait.** -/
theorem Reaches.solo
    (hh : ∀ x c a s, h x.shared c = some (a, s) → exec i x.shared c a s ∧ ok x (.call i c a))
    (hfin : ∀ x r, ok x (.finish i r)) (p : Program F ε α) {r : Except ε α} {s s' : S}
    (hok : ok (.idle s) (.start i p)) (hr : p.run h s = some (r, s')) :
    Reaches exec ok (.idle s) (.idle s') := by
  have hstart : Performs exec ok (.idle s) _ (Config.set (.idle s) i s (some p)) :=
    .move .refl hok (.start rfl)
  have hrun := (Performs.finish hh hfin hstart (Config.set_thread_self ..) hr).reaches
  rwa [Config.set_set, Config.idle_set_none] at hrun

end

/-! ### Schedules -/

/-- A turn of a schedule. -/
inductive Turn (F : Signature) (ε α ι : Type) where
  /-- Thread `i` starts the program `p`. -/
  | start (i : ι) (p : Program F ε α)
  /-- Thread `i` issues its next command, or ends. -/
  | go (i : ι)

/-- One turn; `h` answers the commands, as far as it knows them. -/
def Config.turn (h : ι → S → (c : F.Cmd) → Option (F.Ans c × S)) (x : Config F ε α ι S) :
    Turn F ε α ι → Option (Config F ε α ι S)
  | .start i p =>
    match x.thread i with
    | none => some (x.set i x.shared (some p))
    | some _ => none
  | .go i =>
    match x.thread i with
    | none => none
    | some (.ret _) | some (.raise _) => some (x.set i x.shared none)
    | some (.call c k) => (h i x.shared c).map fun (a, s) => x.set i s (some (k a))

/-- The command that thread `i` issues next. -/
def Config.next (x : Config F ε α ι S) (i : ι) : Option F.Cmd :=
  match x.thread i with
  | some (.call c _) => some c
  | _ => none

omit [DecidableEq ι] in
theorem Config.thread_of_next {x : Config F ε α ι S} {i : ι} {c : F.Cmd} (h : x.next i = some c) :
    ∃ k, x.thread i = some (.call c k) := by
  unfold Config.next at h
  split at h
  next c' k ht =>
    cases h
    exact ⟨k, ht⟩
  next => cases h

/-- The turns of a schedule, one after the other. -/
def Config.play (h : ι → S → (c : F.Cmd) → Option (F.Ans c × S)) :
    List (Turn F ε α ι) → Config F ε α ι S → Option (Config F ε α ι S)
  | [], x => some x
  | t :: l, x => (x.turn h t).bind (Config.play h l)

section

variable {exec : ι → S → (c : F.Cmd) → F.Ans c → S → Prop}
  {ok : Config F ε α ι S → Move F ε α ι → Prop} {x y : Config F ε α ι S}
  {h : ι → S → (c : F.Cmd) → Option (F.Ans c × S)}

theorem Config.play_append (l l' : List (Turn F ε α ι)) (x : Config F ε α ι S) :
    Config.play h (l ++ l') x = (Config.play h l x).bind (Config.play h l') := by
  induction l generalizing x with
  | nil => rfl
  | cons t l ih =>
    rw [List.cons_append, Config.play, Config.play, Option.bind_assoc]
    exact Option.bind_congr fun y _ => ih y

/-- A schedule that can be played is a run, and keeps what its commands keep. -/
theorem reaches_of_play_keeping {I : S → Prop}
    (hcall : ∀ i x c a s, I x.shared → h i x.shared c = some (a, s) →
      (exec i x.shared c a s ∧ ok x (.call i c a)) ∧ I s)
    (hfinish : ∀ i x r, ok x (.finish i r)) {l : List (Turn F ε α ι)}
    (hstart : ∀ i p, Turn.start i p ∈ l → ∀ x, ok x (.start i p)) (hx : I x.shared)
    (hl : Config.play h l x = some y) : Reaches exec ok x y := by
  induction l generalizing x with
  | nil => cases hl; exact .refl
  | cons t l ih =>
    rw [Config.play, Option.bind_eq_some_iff] at hl
    obtain ⟨z, hz, hl⟩ := hl
    have hrest : I z.shared → Reaches exec ok z y := fun hI =>
      ih (fun i p hp => hstart i p (List.mem_cons_of_mem _ hp)) hI hl
    cases t with
    | start i p =>
      simp only [Config.turn] at hz
      split at hz
      next ht =>
        cases hz
        exact Reaches.head _ (hstart i p List.mem_cons_self x) (.start ht) (hrest hx)
      next => cases hz
    | go i =>
      simp only [Config.turn] at hz
      split at hz
      next => cases hz
      next a ht => cases hz; exact Reaches.head _ (hfinish i x _) (.ret ht) (hrest hx)
      next e ht => cases hz; exact Reaches.head _ (hfinish i x _) (.raise ht) (hrest hx)
      next c k ht =>
        rw [Option.map_eq_some_iff] at hz
        obtain ⟨⟨a, s⟩, ha, rfl⟩ := hz
        obtain ⟨⟨hexec, hok⟩, hI⟩ := hcall i x c a s hx ha
        exact Reaches.head _ hok (.call ht hexec) (hrest hI)

/-- **A schedule that can be played is a run.** -/
theorem reaches_of_play
    (hcall : ∀ i x c a s, h i x.shared c = some (a, s) → exec i x.shared c a s ∧ ok x (.call i c a))
    (hfinish : ∀ i x r, ok x (.finish i r)) {l : List (Turn F ε α ι)}
    (hstart : ∀ i p, Turn.start i p ∈ l → ∀ x, ok x (.start i p))
    (hl : Config.play h l x = some y) : Reaches exec ok x y :=
  reaches_of_play_keeping (I := fun _ => True)
    (fun i x c a s _ ha => ⟨hcall i x c a s ha, trivial⟩) hfinish hstart trivial hl

/-- One turn of a schedule is a move, if all the moves of that turn are admitted. -/
theorem step_of_turn {t : Turn F ε α ι} {z : Config F ε α ι S}
    (hcall : ∀ i c a s, t = .go i → h i x.shared c = some (a, s) →
      exec i x.shared c a s ∧ ok x (.call i c a))
    (hfinish : ∀ i r, t = .go i → ok x (.finish i r))
    (hstart : ∀ i p, t = .start i p → ok x (.start i p)) (hz : x.turn h t = some z) :
    ∃ m, ok x m ∧ Step exec x m z := by
  cases t with
  | start i p =>
    simp only [Config.turn] at hz
    split at hz
    next ht =>
      cases hz
      exact ⟨_, hstart i p rfl, .start ht⟩
    next => cases hz
  | go i =>
    simp only [Config.turn] at hz
    split at hz
    next => cases hz
    next a ht => cases hz; exact ⟨_, hfinish i _ rfl, .ret ht⟩
    next e ht => cases hz; exact ⟨_, hfinish i _ rfl, .raise ht⟩
    next c k ht =>
      rw [Option.map_eq_some_iff] at hz
      obtain ⟨⟨a, s⟩, ha, rfl⟩ := hz
      obtain ⟨hexec, hok⟩ := hcall i c a s rfl ha
      exact ⟨_, hok, .call ht hexec⟩

/-- The turns of a schedule that are admitted where they are made. -/
def Config.playIf (h : ι → S → (c : F.Cmd) → Option (F.Ans c × S))
    (check : Config F ε α ι S → Turn F ε α ι → Bool) :
    List (Turn F ε α ι) → Config F ε α ι S → Option (Config F ε α ι S)
  | [], x => some x
  | t :: l, x => if check x t then (x.turn h t).bind (Config.playIf h check l) else none

/-- **A schedule that can be played under a check is a run.** -/
theorem reaches_of_playIf {check : Config F ε α ι S → Turn F ε α ι → Bool}
    (hcall : ∀ i x c a s, check x (.go i) = true → h i x.shared c = some (a, s) →
      exec i x.shared c a s ∧ ok x (.call i c a))
    (hfinish : ∀ i x r, check x (.go i) = true → ok x (.finish i r)) {l : List (Turn F ε α ι)}
    (hstart : ∀ i p, Turn.start i p ∈ l → ∀ x, check x (.start i p) = true → ok x (.start i p))
    (hl : Config.playIf h check l x = some y) : Reaches exec ok x y := by
  induction l generalizing x with
  | nil => cases hl; exact .refl
  | cons t l ih =>
    rw [Config.playIf] at hl
    split at hl
    next hcheck =>
      obtain ⟨z, hz, hl⟩ := Option.bind_eq_some_iff.mp hl
      obtain ⟨m, hok, hstep⟩ := step_of_turn (fun i c a s ht ha => hcall i x c a s (ht ▸ hcheck) ha)
        (fun i r ht => hfinish i x r (ht ▸ hcheck))
        (fun i p ht => hstart i p (ht ▸ List.mem_cons_self) x (ht ▸ hcheck)) hz
      exact Reaches.head m hok hstep (ih (fun i p hp => hstart i p (List.mem_cons_of_mem _ hp)) hl)
    next => cases hl

end

/-! ### One thread -/

/-- **A pool of one thread keeps what its programs keep:** let every admitted
program be of some kind `t` for which `C t` holds at its start and all its
commands satisfy `P t`; if such commands keep `C t` and `I`, then `I` holds
throughout a run.  The commands need be verified only as far as the admitted moves
execute them, which is `D`. -/
theorem Reaches.sequential {T : Type} {exec : Unit → S → (c : F.Cmd) → F.Ans c → S → Prop}
    {ok : Config F ε α Unit S → Move F ε α Unit → Prop} {I : S → Prop} {C : T → S → Prop}
    {P : T → S → F.Cmd → Prop} {D : S → (c : F.Cmd) → F.Ans c → S → Prop}
    (hsem : ∀ x c a s, ok x (.call () c a) → exec () x.shared c a s → I x.shared →
      D x.shared c a s)
    (hstart : ∀ x p, ok x (.start () p) → I x.shared → ∃ t, C t x.shared ∧
      p.wp D Eq (fun s c _ _ => P t s c) (fun _ _ => True) (fun _ _ => True) x.shared)
    (hkeep : ∀ t x c a s, ok x (.call () c a) → D x.shared c a s → P t x.shared c →
      C t x.shared → I x.shared → C t s ∧ I s)
    {s : S} {y : Config F ε α Unit S} (h : Reaches exec ok (.idle s) y) (hI : I s) :
    I y.shared := by
  -- the rest of the thread's program is verified from where it stands
  have hy : I y.shared ∧ ∀ p, y.thread () = some p → ∃ t, C t y.shared ∧
      p.wp D Eq (fun s c _ _ => P t s c) (fun _ _ => True) (fun _ _ => True) y.shared := by
    refine h.invariant (I := fun y => I y.shared ∧ ∀ p, y.thread () = some p → ∃ t, C t y.shared ∧
      p.wp D Eq (fun s c _ _ => P t s c) (fun _ _ => True) (fun _ _ => True) y.shared) ?_
      ⟨hI, nofun⟩
    rintro x m z ⟨hx, hp⟩ hok hs
    cases hs with
    | @start i p ht =>
      refine ⟨hx, fun q hq => ?_⟩
      rw [Config.set_thread_self, Option.some.injEq] at hq
      exact hq ▸ hstart x p hok hx
    | @call i c k a s ht hc =>
      obtain ⟨t, hC, hwp⟩ := hp _ ht
      have hc' := hsem x c a s hok hc hx
      obtain ⟨hP, hk⟩ := hwp x.shared rfl a s hc'
      obtain ⟨hC', hI'⟩ := hkeep t x c a s hok hc' hP hC hx
      refine ⟨hI', fun q hq => ?_⟩
      rw [Config.set_thread_self, Option.some.injEq] at hq
      exact ⟨t, hC', hq ▸ hk⟩
    | _ => exact ⟨hx, fun q hq => by rw [Config.set_thread_self] at hq; cases hq⟩
  exact hy.1

/-! ### Rely-guarantee outlines -/

/-- A rely-guarantee proof of the pool with semantics `exec` and admitted moves `ok`. -/
structure Outline (exec : ι → S → (c : F.Cmd) → F.Ans c → S → Prop)
    (ok : Config F ε α ι S → Move F ε α ι → Prop) where
  /-- What a thread assumes of the other threads' commands. -/
  rely : ι → S → S → Prop
  /-- What a thread promises of its own commands. -/
  guar : ι → S → (c : F.Cmd) → F.Ans c → S → Prop
  /-- What a thread knows between two programs. -/
  idle : ι → S → Prop
  /-- What a thread knows when its program has returned. -/
  post : ι → α → S → Prop
  /-- What a thread knows when its program has raised. -/
  fail : ι → ε → S → Prop
  /-- The commands as far as the admitted moves execute them. -/
  sem : ι → S → (c : F.Cmd) → F.Ans c → S → Prop
  sem_of_ok : ∀ x i c a s, ok x (.call i c a) → exec i x.shared c a s → sem i x.shared c a s
  rely_refl : ∀ i s, rely i s s
  rely_trans : ∀ i s₁ s₂ s₃, rely i s₁ s₂ → rely i s₂ s₃ → rely i s₁ s₃
  rely_of_guar : ∀ i j, j ≠ i → ∀ s c a s', guar i s c a s' → rely j s s'
  idle_stable : ∀ i s s', rely i s s' → idle i s → idle i s'
  post_stable : ∀ i a s s', rely i s s' → post i a s → post i a s'
  fail_stable : ∀ i e s s', rely i s s' → fail i e s → fail i e s'
  start : ∀ x i p, ok x (.start i p) → idle i x.shared →
    p.wp (sem i) (rely i) (guar i) (post i) (fail i) x.shared
  ret : ∀ x i a, ok x (.finish i (.ok a)) → post i a x.shared → idle i x.shared
  raise : ∀ x i e, ok x (.finish i (.error e)) → fail i e x.shared → idle i x.shared
  kill : ∀ x i p, ok x (.kill i) → x.thread i = some p →
    p.wp (sem i) (rely i) (guar i) (post i) (fail i) x.shared → idle i x.shared

namespace Outline

variable {exec : ι → S → (c : F.Cmd) → F.Ans c → S → Prop}
  {ok : Config F ε α ι S → Move F ε α ι → Prop} (o : Outline exec ok)

/-- What thread `i` knows when `t` is the rest of its program. -/
def Knows (i : ι) (s : S) : Option (Program F ε α) → Prop
  | none => o.idle i s
  | some p => p.wp (o.sem i) (o.rely i) (o.guar i) (o.post i) (o.fail i) s

/-- Every thread knows what it should. -/
def Verified (x : Config F ε α ι S) : Prop := ∀ i, o.Knows i x.shared (x.thread i)

omit [DecidableEq ι] in
theorem knows_stable {i : ι} {s s' : S} {t : Option (Program F ε α)} (hR : o.rely i s s')
    (h : o.Knows i s t) : o.Knows i s' t := by
  cases t with
  | none => exact o.idle_stable i s s' hR h
  | some p =>
    exact Program.wp_stable (o.rely_trans i) (fun a => o.post_stable i a)
      (fun e => o.fail_stable i e) hR h

/-- A move of thread `i` that leaves the shared state alone concerns only `i`. -/
theorem verified_set {x : Config F ε α ι S} {i : ι} {t : Option (Program F ε α)}
    (h : o.Verified x) (hi : o.Knows i x.shared t) : o.Verified (x.set i x.shared t) := by
  intro j
  by_cases hj : j = i
  · subst hj; rw [Config.set_thread_self]; exact hi
  · rw [Config.set_thread_of_ne x hj]; exact h j

omit [DecidableEq ι] in
/-- A command of thread `i` keeps its guarantee. -/
theorem guar_of_call {x : Config F ε α ι S} {i : ι} {c : F.Cmd} {k : F.Ans c → Program F ε α}
    {a : F.Ans c} {s : S} (h : o.Verified x)
    (ht : x.thread i = some (.call c k)) (hok : ok x (.call i c a))
    (hx : exec i x.shared c a s) :
    o.guar i x.shared c a s ∧ o.Knows i s (some (k a)) := by
  have hi := h i
  rw [ht] at hi
  exact hi x.shared (o.rely_refl i _) a s (o.sem_of_ok x i c a s hok hx)

theorem verified_of_step {x y : Config F ε α ι S} {m : Move F ε α ι}
    (hok : ok x m) (hs : Step exec x m y) (h : o.Verified x) :
    o.Verified y := by
  cases hs with
  | @start i p ht =>
    have hi := h i
    rw [ht] at hi
    exact o.verified_set h (o.start x i p hok hi)
  | @call i c k a s ht hx =>
    obtain ⟨hG, hk⟩ := o.guar_of_call h ht hok hx
    intro j
    by_cases hj : j = i
    · subst hj; rw [Config.set_thread_self]; exact hk
    · rw [Config.set_thread_of_ne x hj]
      exact o.knows_stable (o.rely_of_guar i j hj _ _ _ _ hG) (h j)
  | @ret i a ht =>
    have hi := h i
    rw [ht] at hi
    exact o.verified_set h (o.ret x i a hok hi)
  | @raise i e ht =>
    have hi := h i
    rw [ht] at hi
    exact o.verified_set h (o.raise x i e hok hi)
  | @kill i p ht =>
    have hi := h i
    rw [ht] at hi
    exact o.verified_set h (o.kill x i p hok ht hi)

/-- **A pool with an outline stays verified.** -/
theorem verified_of_reaches {x y : Config F ε α ι S}
    (h : Reaches exec ok x y) (hx : o.Verified x) : o.Verified y :=
  h.invariant (fun _ _ _ hI hok hs => o.verified_of_step hok hs hI) hx

/-- What every guarantee preserves holds throughout a run. -/
theorem invariant {I : S → Prop}
    (hI : ∀ i s c a s', o.guar i s c a s' → I s → I s') {x y : Config F ε α ι S}
    (h : Reaches exec ok x y) (hx : o.Verified x) (h0 : I x.shared) :
    o.Verified y ∧ I y.shared := by
  refine h.invariant (I := fun x => o.Verified x ∧ I x.shared) ?_ ⟨hx, h0⟩
  rintro x m y ⟨hv, hi⟩ hok hs
  refine ⟨o.verified_of_step hok hs hv, ?_⟩
  cases hs with
  | start _ => exact hi
  | @call i c k a s ht hx => exact hI i _ _ _ _ (o.guar_of_call hv ht hok hx).1 hi
  | ret _ => exact hi
  | raise _ => exact hi
  | kill _ => exact hi

theorem kept_of_step {I : S → Prop} (o : Outline exec fun x m => ok x m ∧ I x.shared)
    (hI : ∀ i s c a s', o.guar i s c a s' → I s → I s') {x y : Config F ε α ι S}
    {m : Move F ε α ι} (h : o.Verified x ∧ I x.shared) (hok : ok x m) (hs : Step exec x m y) :
    o.Verified y ∧ I y.shared := by
  obtain ⟨hv, hi⟩ := h
  refine ⟨o.verified_of_step ⟨hok, hi⟩ hs hv, ?_⟩
  cases hs with
  | start _ => exact hi
  | @call i c k a s ht hx => exact hI i _ _ _ _ (o.guar_of_call hv ht ⟨hok, hi⟩ hx).1 hi
  | ret _ => exact hi
  | raise _ => exact hi
  | kill _ => exact hi

/-- And it may be assumed where a move is admitted. -/
theorem invariant_of_kept {I : S → Prop} (o : Outline exec fun x m => ok x m ∧ I x.shared)
    (hI : ∀ i s c a s', o.guar i s c a s' → I s → I s') {x y : Config F ε α ι S}
    (h : Reaches exec ok x y) (hx : o.Verified x) (h0 : I x.shared) :
    o.Verified y ∧ I y.shared :=
  h.invariant (I := fun x => o.Verified x ∧ I x.shared) (fun _ _ _ => o.kept_of_step hI) ⟨hx, h0⟩

/-- A run is one in which it holds where a move is admitted. -/
theorem reaches_of_kept {I : S → Prop} (o : Outline exec fun x m => ok x m ∧ I x.shared)
    (hI : ∀ i s c a s', o.guar i s c a s' → I s → I s') {x y : Config F ε α ι S}
    (h : Reaches exec ok x y) (hx : o.Verified x) (h0 : I x.shared) :
    Reaches exec (fun x m => ok x m ∧ I x.shared) x y :=
  (h.strengthen (I := fun x => o.Verified x ∧ I x.shared) (fun _ _ _ => o.kept_of_step hI)
    ⟨hx, h0⟩).1.mono fun _ _ h => ⟨h.1, h.2.2⟩

end Outline
end Effect
