import CloudCore.Effect.Program
import Mathlib.Logic.Relation

/-!
# Programs that run one after the other

A program that runs alone is verified by the weakest precondition without
interference.  Here are its rules, one for each construct, and the rule for
operations that follow one another.

## Main definitions

* `Program.Sure` — wherever the program ends, the postconditions hold.
* `Program.attempt` — a command whose answer may be an exception.
* `Program.follow` — a program under commands that are functions.
* `Sequence` — operations, each run to its end.

## Main results

* `wp_attempt`, `wp_after`, `wp_caught` — the rules for a program that also guarantees something.
* `Sure.bind`, `Sure.catch` — sequencing and handlers.
* `Sure.ends`, `Sure.result` — what is shown of a program holds where it ends.
* `Sequence.invariant` — what every operation keeps holds throughout.
-/

namespace Effect

namespace Program

variable {F : Signature} {ε α β S : Type}

/-- A command that may raise. -/
def attempt (c : F.Cmd) (h : F.Ans c = Except ε α) : Program F ε α := do
  let r ← perform c
  lift (h ▸ r)

/-! ### A program that guarantees something -/

section Guarantee

variable {exec : S → (c : F.Cmd) → F.Ans c → S → Prop}
  {G : S → (c : F.Cmd) → F.Ans c → S → Prop} {Q : α → S → Prop} {E : ε → S → Prop} {s : S}

theorem wp_perform {c : F.Cmd} {f : F.Ans c → Program F ε α}
    (h : ∀ a s', exec s c a s' → G s c a s' ∧ (f a).wp exec Eq G Q E s') :
    (perform c >>= f).wp exec Eq G Q E s :=
  (wp_call_eq c f).mpr h

theorem wp_attempt {c : F.Cmd} (hans : F.Ans c = Except ε β) {f : β → Program F ε α}
    (h : ∀ a s', exec s c a s' →
      G s c a s' ∧ (lift (hans ▸ a) >>= f : Program F ε α).wp exec Eq G Q E s') :
    (attempt c hans >>= f).wp exec Eq G Q E s :=
  (wp_call_eq c _).mpr h

/-- What comes after a program. -/
theorem wp_after {P : β → S → Prop} {p : Program F ε β} {f : β → Program F ε α}
    (h : p.wp exec Eq G P E s) (hf : ∀ b s, P b s → (f b).wp exec Eq G Q E s) :
    (p >>= f).wp exec Eq G Q E s :=
  (wp_bind p f).mpr (wp_mono hf (fun _ _ h => h) h)

/-- What comes after a program that raises nothing. -/
theorem wp_then {P : β → S → Prop} {p : Program F ε β} {f : β → Program F ε α}
    (h : p.wp exec Eq G P (fun _ _ => False) s) (hf : ∀ b s, P b s → (f b).wp exec Eq G Q E s) :
    (p >>= f).wp exec Eq G Q E s :=
  wp_after (wp_mono (fun _ _ h => h) (fun _ _ h => h.elim) h) hf

/-- A handler of whatever a program raises. -/
theorem wp_caught {D : ε → S → Prop} {p : Program F ε α} {handler : ε → Program F ε α}
    (h : p.wp exec Eq G Q D s) (hh : ∀ e s, D e s → (handler e).wp exec Eq G Q E s) :
    (p.tryCatch handler).wp exec Eq G Q E s :=
  (wp_tryCatch p handler).mpr (wp_mono (fun _ _ h => h) hh h)

end Guarantee

/-! ### A command that may raise -/

section Tame

variable {T : (c : F.Cmd) → F.Ans c → Prop} {P : F.Cmd → Prop} {c : F.Cmd}

theorem obeys_attempt {h : F.Ans c = Except ε α} (hc : P c) : (attempt c h).Obeys T P := by
  intro _ _ a _ _
  refine ⟨hc, ?_⟩
  change (lift (h ▸ a)).wp _ _ _ _ _ _
  exact wp_lift.mpr ⟨fun _ _ => trivial, fun _ _ => trivial⟩

theorem eq_symm_cast {A B : Type} (h : A = B) {a : A} {b : B} (hab : h ▸ a = b) : a = h.symm ▸ b := by
  subst h
  exact hab

/-- If it is told to raise nothing, it is tame. -/
theorem tame_attempt {h : F.Ans c = Except ε α} (hc : P c) (hok : ∀ e, ¬T c (h.symm ▸ .error e)) :
    (attempt c h).Tame T P := by
  intro _ _ a _ ha
  refine ⟨hc, ?_⟩
  change (lift (h ▸ a)).wp _ _ _ _ _ _
  exact wp_lift.mpr ⟨fun _ _ => trivial, fun e he => hok e (eq_symm_cast h he ▸ ha)⟩

end Tame

/-! ### A program that runs alone -/

variable (exec : S → (c : F.Cmd) → F.Ans c → S → Prop)

/-- From `s`, a returned value satisfies `Q` and a raised exception satisfies `E`. -/
def Sure (p : Program F ε α) (Q : α → S → Prop) (E : ε → S → Prop) (s : S) : Prop :=
  p.wp exec Eq (fun _ _ _ _ => True) Q E s

variable {exec} {Q : α → S → Prop} {E : ε → S → Prop} {s : S}

theorem sure_call {c : F.Cmd} {k : F.Ans c → Program F ε α}
    (h : ∀ a s', exec s c a s' → Sure exec (k a) Q E s') : Sure exec (.call c k) Q E s :=
  (wp_call_eq c k).mpr fun a s' hx => ⟨trivial, h a s' hx⟩

theorem sure_perform {c : F.Cmd} {f : F.Ans c → Program F ε α}
    (h : ∀ a s', exec s c a s' → Sure exec (f a) Q E s') :
    Sure exec (perform c >>= f) Q E s :=
  sure_call h

theorem sure_attempt {c : F.Cmd} (hans : F.Ans c = Except ε β) {f : β → Program F ε α}
    (h : ∀ a s', exec s c a s' → Sure exec (lift (hans ▸ a) >>= f) Q E s') :
    Sure exec (attempt c hans >>= f) Q E s :=
  sure_call h

/-- Nothing is asked of the ends. -/
theorem sure_any (p : Program F ε α) : Sure exec p (fun _ _ => True) (fun _ _ => True) s := by
  induction p generalizing s with
  | ret a => exact trivial
  | raise e => exact trivial
  | call c k ih => exact sure_call fun a s' _ => ih a

theorem Sure.mono {Q' : α → S → Prop} {E' : ε → S → Prop} {p : Program F ε α}
    (h : Sure exec p Q E s) (hQ : ∀ a s, Q a s → Q' a s) (hE : ∀ e s, E e s → E' e s) :
    Sure exec p Q' E' s :=
  wp_mono hQ hE h

theorem Sure.bind {P : β → S → Prop} {p : Program F ε β} {f : β → Program F ε α}
    (h : Sure exec p P E s) (hf : ∀ b s, P b s → Sure exec (f b) Q E s) :
    Sure exec (p >>= f) Q E s :=
  wp_after h hf

/-- After a program that raises nothing. -/
theorem Sure.then {P : β → S → Prop} {p : Program F ε β} {f : β → Program F ε α}
    (h : Sure exec p P (fun _ _ => False) s) (hf : ∀ b s, P b s → Sure exec (f b) Q E s) :
    Sure exec (p >>= f) Q E s :=
  wp_then h hf

theorem Sure.catch {D : ε → S → Prop} {p : Program F ε α} {handler : ε → Program F ε α}
    (h : Sure exec p Q D s) (hh : ∀ e s, D e s → Sure exec (handler e) Q E s) :
    Sure exec (p.tryCatch handler) Q E s :=
  wp_caught h hh

/-- **What is shown of a program holds where it ends.** -/
theorem Sure.ends {p : Program F ε α} {P : S → Prop} {r : Except ε α} {s' : S}
    (h : Sure exec p (fun _ => P) (fun _ => P) s) (hends : Ends exec s p r s') : P s' :=
  hends.of_wp h

/-- What is shown of its result, too. -/
theorem Sure.result {p : Program F ε α} {r : Except ε α} {s' : S} (h : Sure exec p Q E s)
    (hends : Ends exec s p r s') : (∀ a, r = .ok a → Q a s') ∧ ∀ e, r = .error e → E e s' := by
  induction hends with
  | ret => exact ⟨fun _ ha => Except.ok.inj ha ▸ h, nofun⟩
  | raise => exact ⟨nofun, fun _ he => Except.error.inj he ▸ h⟩
  | call hx _ ih => exact ih (h _ rfl _ _ hx).2

/-- A run is one where commands may do more. -/
theorem Ends.mono {exec' : S → (c : F.Cmd) → F.Ans c → S → Prop}
    (hexec : ∀ s c a s', exec s c a s' → exec' s c a s') {p : Program F ε α} {r : Except ε α}
    {s' : S} (h : Ends exec s p r s') : Ends exec' s p r s' := by
  induction h with
  | ret => exact .ret
  | raise => exact .raise
  | call hx _ ih => exact .call (hexec _ _ _ _ hx) ih

/-- A program that returns, and what comes after it. -/
theorem Ends.bind {p : Program F ε β} {f : β → Program F ε α} {b : β} {r : Except ε α} {s' s'' : S}
    (hp : Ends exec s p (.ok b) s') (hf : Ends exec s' (f b) r s'') : Ends exec s (p >>= f) r s'' := by
  generalize hb : (Except.ok b : Except ε β) = x at hp
  induction hp with
  | ret =>
    cases hb
    exact hf
  | raise => cases hb
  | call hx _ ih => exact .call hx (ih hf hb)

/-- A program under commands that are functions. -/
def follow (answer : S → (c : F.Cmd) → F.Ans c × S) : Program F ε α → S → Except ε α × S
  | .ret a, s => (.ok a, s)
  | .raise e, s => (.error e, s)
  | .call c k, s => follow answer (k (answer s c).1) (answer s c).2

/-- **What commands lead to that are functions, the program may end with.** -/
theorem ends_follow {answer : S → (c : F.Cmd) → F.Ans c × S}
    (hanswer : ∀ s c, exec s c (answer s c).1 (answer s c).2) (p : Program F ε α) (s : S) :
    Ends exec s p (follow answer p s).1 (follow answer p s).2 := by
  induction p generalizing s with
  | ret a => exact .ret
  | raise e => exact .raise
  | call c k ih => exact .call (hanswer s c) (ih (answer s c).1 (answer s c).2)

end Program

section Sequence

variable {S O : Type}

/-- Operations, one after the other; `run s o s'` says that `o` leads from `s` to `s'`. -/
def Sequence (run : S → O → S → Prop) : S → S → Prop :=
  Relation.ReflTransGen fun s s' => ∃ o, run s o s'

variable {run : S → O → S → Prop}

/-- **What every operation keeps holds throughout.** -/
theorem Sequence.invariant {I : S → Prop} (hstep : ∀ s o s', run s o s' → I s → I s') {s s' : S}
    (h : Sequence run s s') (hs : I s) : I s' := by
  induction h with
  | refl => exact hs
  | tail _ hrun ih =>
    obtain ⟨o, ho⟩ := hrun
    exact hstep _ o _ ho ih

/-- Operations that can be run, one after the other. -/
def runSequence (go : S → O → Option S) : List O → S → Option S
  | [], s => some s
  | o :: l, s => (go s o).bind (runSequence go l)

theorem sequence_of_run {go : S → O → Option S} (hgo : ∀ s o s', go s o = some s' → run s o s')
    {l : List O} {s s' : S} (h : runSequence go l s = some s') : Sequence run s s' := by
  induction l generalizing s with
  | nil =>
    cases h
    exact .refl
  | cons o l ih =>
    obtain ⟨s₁, ho, hrest⟩ := Option.bind_eq_some_iff.mp h
    exact .head ⟨o, hgo s o s₁ ho⟩ (ih hrest)

end Sequence

end Effect
