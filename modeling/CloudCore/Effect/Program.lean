import Mathlib.Logic.Basic

/-!
# Programs over an effect signature

A program issues commands one at a time and continues with the answer it gets;
it ends by returning a value or by raising an exception.  Nothing in it says
what a command does: that is the business of a semantics
`exec : S → (c : F.Cmd) → F.Ans c → S → Prop`, a relation between the state
before, the command, the answer and the state after, so that one program can
run alone, be cut off between two commands, or take turns with others.

`wp` is the one predicate transformer of the library.  It is a weakest
precondition under interference: before each command the state may move along
the *rely* `R`, and each command, with its answer and the states around it,
must satisfy the *guarantee* `G`.  With `R` equality and `G` anything it is the
usual weakest precondition.

## Main definitions

* `Signature`, `Program` — commands with their answers, and programs over them.
* `Program.tryCatch`, `Program.tryFinally` — handlers and clean-up.
* `Program.forEach` — loops.
* `Program.wp` — the weakest precondition under interference.
* `Program.Ends` — the ends of a program that runs alone.
* `Program.Confined` — the commands a program may issue and the values it may return.
* `Program.Leads` — a command the program is going to issue.
* `Program.Once` — at most one of the program's commands is of a certain kind.
* `Program.Avoids`, `Program.Obeys` — commands the program does not issue, and those
  it issues only, as long as the answers are of a certain kind.
* `Program.Keeps`, `Program.Carried` — programs that rely on one fact.
* `Program.Tame` — programs that raise nothing, as long as the answers are of a certain kind.

## Main results

* `Program.wp_bind`, `Program.wp_tryCatch`, `Program.wp_tryFinally` — the rules
  for sequencing, handlers and clean-up.
* `Program.wp_mono` — consequence.
* `Program.wp_forEach` — loops.
* `Program.wp_stable` — the precondition survives the rely.
* `Program.wp_of_view` — what a thread sees of the state is enough to verify it.
-/

namespace Effect

/-- The commands of a program and, for each command, the type of its answers. -/
structure Signature where
  Cmd : Type
  Ans : Cmd → Type

/-- A program: it returns, raises, or issues a command and goes on with the answer. -/
inductive Program (F : Signature) (ε α : Type) : Type where
  /-- The program has returned `a`. -/
  | ret (a : α)
  /-- The program has raised `e`. -/
  | raise (e : ε)
  /-- The program issues `c` and continues as `k` says on each answer. -/
  | call (c : F.Cmd) (k : F.Ans c → Program F ε α)

namespace Program

variable {F : Signature} {ε α β : Type}

/-! ### The monad -/

/-- Run `p`, then `f` on what it returned; an exception of `p` goes through. -/
protected def bind : Program F ε α → (α → Program F ε β) → Program F ε β
  | .ret a, f => f a
  | .raise e, _ => .raise e
  | .call c k, f => .call c fun a => (k a).bind f

/-- Run `p`; if it raises, run the handler `h` on the exception. -/
protected def tryCatch : Program F ε α → (ε → Program F ε α) → Program F ε α
  | .ret a, _ => .ret a
  | .raise e, h => h e
  | .call c k, h => .call c fun a => (k a).tryCatch h

/-- Run `p`, then the clean-up `fin`, whether `p` returned or raised. -/
def tryFinally : Program F ε α → Program F ε Unit → Program F ε α
  | .ret a, fin => fin.bind fun _ => .ret a
  | .raise e, fin => fin.bind fun _ => .raise e
  | .call c k, fin => .call c fun a => (k a).tryFinally fin

/-- The program that issues one command and returns its answer. -/
def perform (c : F.Cmd) : Program F ε (F.Ans c) := .call c .ret

/-- Go on with the value of a computation that may have raised. -/
def lift : Except ε α → Program F ε α
  | .ok a => .ret a
  | .error e => .raise e

/-- Run `body` on each item in turn. -/
def forEach : List β → (β → Program F ε Unit) → Program F ε Unit
  | [], _ => .ret ()
  | b :: l, body => (body b).bind fun _ => forEach l body

instance : Monad (Program F ε) where
  pure := .ret
  bind := Program.bind

instance : MonadExcept ε (Program F ε) where
  throw := .raise
  tryCatch := Program.tryCatch

@[simp] theorem pure_eq (a : α) : (pure a : Program F ε α) = .ret a := rfl

@[simp] theorem throw_eq (e : ε) : (throw e : Program F ε α) = .raise e := rfl

@[simp] theorem ret_bind (a : α) (f : α → Program F ε β) : (Program.ret a >>= f) = f a := rfl

@[simp] theorem raise_bind (e : ε) (f : α → Program F ε β) :
    (Program.raise e >>= f) = .raise e := rfl

@[simp] theorem call_bind (c : F.Cmd) (k : F.Ans c → Program F ε α) (f : α → Program F ε β) :
    (Program.call c k >>= f) = .call c fun a => k a >>= f := rfl

@[simp] theorem perform_bind (c : F.Cmd) (f : F.Ans c → Program F ε β) :
    (perform c >>= f) = .call c f := rfl

@[simp] theorem lift_ok (a : α) : (lift (.ok a) : Program F ε α) = .ret a := rfl

@[simp] theorem lift_error (e : ε) : (lift (.error e) : Program F ε α) = .raise e := rfl

/-! ### The weakest precondition -/

section Wp

variable {S : Type} (exec : S → (c : F.Cmd) → F.Ans c → S → Prop) (R : S → S → Prop)
  (G : S → (c : F.Cmd) → F.Ans c → S → Prop)

/-- From `s`, with the surroundings moving the state along `R` before each
command, every command of the program satisfies `G`, a returned value satisfies
`Q` and a raised exception satisfies `E`. -/
def wp : Program F ε α → (α → S → Prop) → (ε → S → Prop) → S → Prop
  | .ret a, Q, _, s => Q a s
  | .raise e, _, E, s => E e s
  | .call c k, Q, E, s =>
      ∀ s₁, R s s₁ → ∀ a s₂, exec s₁ c a s₂ → G s₁ c a s₂ ∧ (k a).wp Q E s₂

variable {exec R G} {Q : α → S → Prop} {E : ε → S → Prop} {s : S}

@[simp] theorem wp_ret (a : α) : (Program.ret a : Program F ε α).wp exec R G Q E s ↔ Q a s :=
  Iff.rfl

@[simp] theorem wp_raise (e : ε) : (Program.raise e : Program F ε α).wp exec R G Q E s ↔ E e s :=
  Iff.rfl

theorem wp_call (c : F.Cmd) (k : F.Ans c → Program F ε α) :
    (Program.call c k).wp exec R G Q E s ↔
      ∀ s₁, R s s₁ → ∀ a s₂, exec s₁ c a s₂ → G s₁ c a s₂ ∧ (k a).wp exec R G Q E s₂ :=
  Iff.rfl

/-- The rule of consequence. -/
theorem wp_mono {Q' : α → S → Prop} {E' : ε → S → Prop} {p : Program F ε α}
    (hQ : ∀ a s, Q a s → Q' a s) (hE : ∀ e s, E e s → E' e s)
    (h : p.wp exec R G Q E s) : p.wp exec R G Q' E' s := by
  induction p generalizing s with
  | ret a => exact hQ a s h
  | raise e => exact hE e s h
  | call c k ih =>
    intro s₁ hR a s₂ hx
    obtain ⟨hG, hk⟩ := h s₁ hR a s₂ hx
    exact ⟨hG, ih a hk⟩

/-- What two proofs show of a program holds together. -/
theorem wp_and {Q' : α → S → Prop} {E' : ε → S → Prop} {p : Program F ε α}
    (h : p.wp exec R G Q E s) (h' : p.wp exec R G Q' E' s) :
    p.wp exec R G (fun a s => Q a s ∧ Q' a s) (fun e s => E e s ∧ E' e s) s := by
  induction p generalizing s with
  | ret a => exact ⟨h, h'⟩
  | raise e => exact ⟨h, h'⟩
  | call c k ih =>
    intro s₁ hR a s₂ hx
    obtain ⟨hG, hk⟩ := h s₁ hR a s₂ hx
    exact ⟨hG, ih a hk (h' s₁ hR a s₂ hx).2⟩

/-- Sequencing: the second program's precondition is the first one's postcondition. -/
theorem wp_bind (p : Program F ε α) (f : α → Program F ε β) {Q : β → S → Prop} :
    (p >>= f).wp exec R G Q E s ↔
      p.wp exec R G (fun a s => (f a).wp exec R G Q E s) E s := by
  induction p generalizing s with
  | ret a => exact Iff.rfl
  | raise e => exact Iff.rfl
  | call c k ih =>
    refine forall_congr' fun s₁ => forall_congr' fun _ => forall_congr' fun a =>
      forall_congr' fun s₂ => forall_congr' fun _ => and_congr_right fun _ => ?_
    exact ih a

/-- A handler's precondition is what the program must satisfy when it raises. -/
theorem wp_tryCatch (p : Program F ε α) (h : ε → Program F ε α) :
    (p.tryCatch h).wp exec R G Q E s ↔
      p.wp exec R G Q (fun e s => (h e).wp exec R G Q E s) s := by
  induction p generalizing s with
  | ret a => exact Iff.rfl
  | raise e => exact Iff.rfl
  | call c k ih =>
    refine forall_congr' fun s₁ => forall_congr' fun _ => forall_congr' fun a =>
      forall_congr' fun s₂ => forall_congr' fun _ => and_congr_right fun _ => ?_
    exact ih a

/-- The clean-up runs from both ends of the program. -/
theorem wp_tryFinally (p : Program F ε α) (fin : Program F ε Unit) :
    (p.tryFinally fin).wp exec R G Q E s ↔
      p.wp exec R G (fun a s => fin.wp exec R G (fun _ s => Q a s) E s)
        (fun e s => fin.wp exec R G (fun _ s => E e s) E s) s := by
  induction p generalizing s with
  | ret a => exact wp_bind fin fun _ => .ret a
  | raise e => exact wp_bind fin fun _ => .raise e
  | call c k ih =>
    refine forall_congr' fun s₁ => forall_congr' fun _ => forall_congr' fun a =>
      forall_congr' fun s₂ => forall_congr' fun _ => and_congr_right fun _ => ?_
    exact ih a

theorem wp_lift {x : Except ε α} :
    (lift x : Program F ε α).wp exec R G Q E s ↔
      (∀ a, x = .ok a → Q a s) ∧ ∀ e, x = .error e → E e s := by
  cases x with
  | ok a => simp only [lift_ok, wp_ret, Except.ok.injEq, forall_eq', reduceCtorEq, false_imp_iff,
      implies_true, and_true]
  | error e => simp only [lift_error, wp_raise, Except.error.injEq, forall_eq', reduceCtorEq,
      false_imp_iff, implies_true, true_and]

/-- A loop keeps what each round keeps. -/
theorem wp_forEach {I : S → Prop} {l : List β} {body : β → Program F ε Unit}
    (hbody : ∀ b ∈ l, ∀ s, I s → (body b).wp exec R G (fun _ => I) E s) (hs : I s) :
    (forEach l body).wp exec R G (fun _ => I) E s := by
  induction l generalizing s with
  | nil => exact hs
  | cons b l ih =>
    refine (wp_bind (body b) fun _ => forEach l body).mpr ?_
    refine wp_mono (fun _ s' h' => ?_) (fun _ _ h => h) (hbody b List.mem_cons_self s hs)
    exact ih (fun b' hb' => hbody b' (List.mem_cons_of_mem _ hb')) h'

/-- What the commands do is guaranteed as well. -/
theorem wp_executed {p : Program F ε α} (h : p.wp exec R G Q E s) :
    p.wp exec R (fun s c a s' => exec s c a s' ∧ G s c a s') Q E s := by
  induction p generalizing s with
  | ret a => exact h
  | raise e => exact h
  | call c k ih =>
    intro s₁ hR a s₂ hx
    obtain ⟨hG, hk⟩ := h s₁ hR a s₂ hx
    exact ⟨⟨hx, hG⟩, ih a hk⟩

/-- The rely may act once more before the program goes on. -/
theorem wp_stable {p : Program F ε α} (htrans : ∀ s₁ s₂ s₃, R s₁ s₂ → R s₂ s₃ → R s₁ s₃)
    (hQ : ∀ a s s', R s s' → Q a s → Q a s') (hE : ∀ e s s', R s s' → E e s → E e s')
    {s' : S} (hR : R s s') (h : p.wp exec R G Q E s) : p.wp exec R G Q E s' := by
  cases p with
  | ret a => exact hQ a s s' hR h
  | raise e => exact hE e s s' hR h
  | call c k => exact fun s₁ h₁ => h s₁ (htrans _ _ _ hR h₁)

/-- The usual rule for a command, when nothing interferes. -/
theorem wp_call_eq (c : F.Cmd) (k : F.Ans c → Program F ε α) :
    (Program.call c k).wp exec Eq G Q E s ↔
      ∀ a s', exec s c a s' → G s c a s' ∧ (k a).wp exec Eq G Q E s' := by
  rw [wp_call]
  exact forall_eq'

/-- `p`, alone from `s`, ends with the result `r` in `s'`. -/
inductive Ends (exec : S → (c : F.Cmd) → F.Ans c → S → Prop) :
    S → Program F ε α → Except ε α → S → Prop where
  | ret {s : S} {a : α} : Ends exec s (.ret a) (.ok a) s
  | raise {s : S} {e : ε} : Ends exec s (.raise e) (.error e) s
  | call {s s₁ s' : S} {c : F.Cmd} {k : F.Ans c → Program F ε α} {a : F.Ans c} {r : Except ε α}
      (hx : exec s c a s₁) (h : Ends exec s₁ (k a) r s') : Ends exec s (.call c k) r s'

/-- What is verified of a program holds wherever it ends. -/
theorem Ends.of_wp {p : Program F ε α} {r : Except ε α} {s' : S} {P : S → Prop}
    (h : Ends exec s p r s') (hp : p.wp exec Eq G (fun _ => P) (fun _ => P) s) : P s' := by
  induction h with
  | ret => exact hp
  | raise => exact hp
  | call hx _ ih => exact ih (hp _ rfl _ _ hx).2

/-! ### Confined programs -/

/-- Every command the program may issue is in `P`, whatever the answers, and
every value it may return is in `A`. -/
def Confined (P : F.Cmd → Prop) (A : α → Prop) : Program F ε α → Prop
  | .ret a => A a
  | .raise _ => True
  | .call c k => P c ∧ ∀ a, (k a).Confined P A

section Confined

variable {P : F.Cmd → Prop} {A : α → Prop} {B : β → Prop}

theorem confined_mono {P' : F.Cmd → Prop} (hP : ∀ c, P c → P' c) {p : Program F ε α}
    (h : p.Confined P A) : p.Confined P' A := by
  induction p with
  | ret a => exact h
  | raise e => trivial
  | call c k ih => exact ⟨hP c h.1, fun a => ih a (h.2 a)⟩

theorem confined_bind {p : Program F ε α} {f : α → Program F ε β} (hp : p.Confined P A)
    (hf : ∀ a, A a → (f a).Confined P B) : (p >>= f).Confined P B := by
  induction p with
  | ret a => exact hf a hp
  | raise e => trivial
  | call c k ih => exact ⟨hp.1, fun a => ih a (hp.2 a)⟩

theorem confined_perform {c : F.Cmd} (hc : P c) :
    (perform c : Program F ε (F.Ans c)).Confined P fun _ => True :=
  ⟨hc, fun _ => trivial⟩

theorem confined_lift {x : Except ε α} (hx : ∀ a, x = .ok a → A a) :
    (lift x : Program F ε α).Confined P A := by
  cases x with
  | ok a => exact hx a rfl
  | error e => trivial

theorem confined_tryCatch {p : Program F ε α} {h : ε → Program F ε α} (hp : p.Confined P A)
    (hh : ∀ e, (h e).Confined P A) : (p.tryCatch h).Confined P A := by
  induction p with
  | ret a => exact hp
  | raise e => exact hh e
  | call c k ih => exact ⟨hp.1, fun a => ih a (hp.2 a)⟩

theorem confined_forEach {l : List β} {body : β → Program F ε Unit}
    (hbody : ∀ b ∈ l, (body b).Confined P fun _ => True) :
    (forEach l body).Confined P fun _ => True := by
  induction l with
  | nil => trivial
  | cons b l ih =>
    refine confined_bind (hbody b List.mem_cons_self) fun _ _ => ?_
    exact ih fun b' hb' => hbody b' (List.mem_cons_of_mem _ hb')

/-- A program whose commands leave the state alone may be passed over: only
what it returns matters. -/
theorem wp_confined {p : Program F ε α} (hp : p.Confined P A)
    (hP : ∀ s c a s', P c → exec s c a s' → s' = s ∧ G s c a s')
    (hQ : ∀ a, A a → Q a s) (hE : ∀ e, E e s) : p.wp exec Eq G Q E s := by
  induction p with
  | ret a => exact hQ a hp
  | raise e => exact hE e
  | call c k ih =>
    rintro s₁ rfl a s₂ hx
    obtain ⟨rfl, hG⟩ := hP s c a s₂ hp.1 hx
    exact ⟨hG, ih a (hp.2 a)⟩

end Confined

/-! ### What a program is going to do -/

/-- Whatever the answers, the program issues commands in `P` and then `c`, and
what is left of it then is in `T`. -/
def Leads (P : F.Cmd → Prop) (c : F.Cmd) (T : Program F ε α → Prop) : Program F ε α → Prop
  | .ret _ | .raise _ => False
  | .call d k => (P d ∧ ∀ a, (k a).Leads P c T) ∨ (d = c ∧ ∀ a, T (k a))

section Leads

variable {P : F.Cmd → Prop} {c : F.Cmd} {T : Program F ε α → Prop}

/-- The program has ended. -/
def Ended : Program F ε α → Prop
  | .ret _ | .raise _ => True
  | .call _ _ => False

/-- A program with a clean-up leads where it led without. -/
theorem leads_tryFinally {U : Program F ε α → Prop} {p : Program F ε α}
    {fin : Program F ε Unit} (hU : ∀ q, U q → T (q.tryFinally fin)) (h : p.Leads P c U) :
    (p.tryFinally fin).Leads P c T := by
  induction p with
  | ret a => cases h
  | raise e => cases h
  | call d k ih =>
    rcases h with ⟨hd, hk⟩ | ⟨hd, hk⟩
    · exact Or.inl ⟨hd, fun a => ih a (hk a)⟩
    · exact Or.inr ⟨hd, fun a => hU _ (hk a)⟩

/-- A program leads where its first part does. -/
theorem leads_bind {U : Program F ε β → Prop} {p : Program F ε α} {f : α → Program F ε β}
    (hU : ∀ q, T q → U (q >>= f)) (h : p.Leads P c T) : (p >>= f).Leads P c U := by
  induction p with
  | ret a => cases h
  | raise e => cases h
  | call d k ih =>
    rcases h with ⟨hd, hk⟩ | ⟨hd, hk⟩
    · exact Or.inl ⟨hd, fun a => ih a (hk a)⟩
    · exact Or.inr ⟨hd, fun a => hU _ (hk a)⟩

/-- A program with a handler leads where it led without. -/
theorem leads_tryCatch {U : Program F ε α → Prop} {p : Program F ε α} {f : ε → Program F ε α}
    (hU : ∀ q, T q → U (q.tryCatch f)) (h : p.Leads P c T) : (p.tryCatch f).Leads P c U := by
  induction p with
  | ret a => cases h
  | raise e => cases h
  | call d k ih =>
    rcases h with ⟨hd, hk⟩ | ⟨hd, hk⟩
    · exact Or.inl ⟨hd, fun a => ih a (hk a)⟩
    · exact Or.inr ⟨hd, fun a => hU _ (hk a)⟩

/-- The clean-up is the last thing a program does. -/
theorem leads_cleanup {A : α → Prop} {p : Program F ε α} {k : F.Ans c → Program F ε Unit}
    (hk : ∀ a, k a = .ret ()) (h : p.Confined P A) :
    (p.tryFinally (.call c k)).Leads P c Ended := by
  induction p with
  | ret b =>
    refine Or.inr ⟨rfl, fun a => ?_⟩
    show ((k a).bind _).Ended
    rw [hk]
    trivial
  | raise e =>
    refine Or.inr ⟨rfl, fun a => ?_⟩
    show ((k a).bind _).Ended
    rw [hk]
    trivial
  | call d k' ih => exact Or.inl ⟨h.1, fun a => ih a (h.2 a)⟩

end Leads

/-- No command of the program is in `P`, as long as its commands are answered as
`T` says. -/
def Avoids (T : (c : F.Cmd) → F.Ans c → Prop) (P : F.Cmd → Prop) : Program F ε α → Prop
  | .ret _ | .raise _ => True
  | .call c k => ¬ P c ∧ ∀ a, T c a → (k a).Avoids T P

section Avoids

variable {T : (c : F.Cmd) → F.Ans c → Prop} {P Q : F.Cmd → Prop} {c : F.Cmd}

/-- A program does not avoid what it is going to do. -/
theorem not_avoids_of_leads {U : Program F ε α → Prop} {p : Program F ε α} (h : p.Leads Q c U)
    (hc : P c) (hQ : ∀ d, Q d → ∃ a, T d a) : ¬ p.Avoids T P := by
  induction p with
  | ret a => cases h
  | raise e => cases h
  | call d k ih =>
    rintro ⟨hd, hk⟩
    rcases h with ⟨hQd, hl⟩ | ⟨rfl, -⟩
    · obtain ⟨a, ha⟩ := hQ d hQd
      exact ih a (hl a) (hk a ha)
    · exact hd hc

/-- All commands of the program are in `P`, as long as they are answered as `T` says. -/
def Obeys (T : (c : F.Cmd) → F.Ans c → Prop) (P : F.Cmd → Prop) (p : Program F ε α) : Prop :=
  p.wp (S := Unit) (fun _ c a _ => T c a) Eq (fun _ c _ _ => P c) (fun _ _ => True)
    (fun _ _ => True) ()

theorem obeys_of_avoids {p : Program F ε α} (h : p.Avoids T P) : p.Obeys T fun c => ¬ P c := by
  induction p with
  | ret a => trivial
  | raise e => trivial
  | call c k ih =>
    rintro _ rfl a _ ha
    exact ⟨h.1, ih a (h.2 a ha)⟩

theorem Obeys.call {k : F.Ans c → Program F ε α} (h : (Program.call c k).Obeys T P)
    {a : F.Ans c} (ha : T c a) : P c ∧ (k a).Obeys T P := h () rfl a () ha

theorem Obeys.mono {T' : (c : F.Cmd) → F.Ans c → Prop} (hT : ∀ c a, T' c a → T c a)
    (hP : ∀ c, P c → Q c) {p : Program F ε α} (h : p.Obeys T P) : p.Obeys T' Q := by
  induction p with
  | ret a => trivial
  | raise e => trivial
  | call c k ih =>
    rintro _ rfl a _ ha
    obtain ⟨hc, hk⟩ := h.call (hT c a ha)
    exact ⟨hP c hc, ih a hk⟩

end Avoids

/-- The program issues at most one command in `P`, whatever the answers. -/
def Once (P : F.Cmd → Prop) : Program F ε α → Prop
  | .ret _ | .raise _ => True
  | .call c k =>
    (P c → ∀ a, (k a).Confined (fun d => ¬ P d) fun _ => True) ∧ ∀ a, (k a).Once P

section Once

variable {P : F.Cmd → Prop} {A : α → Prop}

theorem once_of_confined {p : Program F ε α} (h : p.Confined (fun d => ¬ P d) A) : p.Once P := by
  induction p with
  | ret a => trivial
  | raise e => trivial
  | call c k ih => exact ⟨fun hc => absurd hc h.1, fun a => ih a (h.2 a)⟩

/-- What comes before may issue none. -/
theorem once_bind {p : Program F ε α} {f : α → Program F ε β}
    (hp : p.Confined (fun d => ¬ P d) A) (hf : ∀ a, A a → (f a).Once P) : (p >>= f).Once P := by
  induction p with
  | ret a => exact hf a hp
  | raise e => trivial
  | call c k ih => exact ⟨fun hc => absurd hc hp.1, fun a => ih a (hp.2 a)⟩

/-- What comes after may issue none. -/
theorem Once.bind {p : Program F ε α} {f : α → Program F ε β} (hp : p.Once P)
    (hf : ∀ a, (f a).Confined (fun d => ¬ P d) fun _ => True) : (p >>= f).Once P := by
  induction p with
  | ret a => exact once_of_confined (hf a)
  | raise e => trivial
  | call c k ih =>
    refine ⟨fun hc a => ?_, fun a => ih a (hp.2 a)⟩
    exact confined_bind (hp.1 hc a) fun b _ => hf b

end Once

/-! ### Programs that rely on one fact -/

/-- Where `J` holds, commands are answered as `T` says, and those in `P` keep
`J` and satisfy the guarantee; the rely keeps `J` too. -/
structure Keeps (exec : S → (c : F.Cmd) → F.Ans c → S → Prop) (R : S → S → Prop)
    (G : S → (c : F.Cmd) → F.Ans c → S → Prop) (T : (c : F.Cmd) → F.Ans c → Prop)
    (P : F.Cmd → Prop) (J : S → Prop) : Prop where
  stable : ∀ s s', R s s' → J s → J s'
  told : ∀ s c a s', J s → exec s c a s' → T c a
  step : ∀ s c a s', J s → exec s c a s' → P c → G s c a s' ∧ J s'

/-- From every state with `J` the program is verified, and `J` holds at its end. -/
def Carried (exec : S → (c : F.Cmd) → F.Ans c → S → Prop) (R : S → S → Prop)
    (G : S → (c : F.Cmd) → F.Ans c → S → Prop) (J : S → Prop) (A : α → Prop)
    (p : Program F ε α) : Prop :=
  ∀ s, J s → p.wp exec R G (fun a s => A a ∧ J s) (fun _ s => J s) s

section Carried

variable {J : S → Prop} {A : α → Prop} {B : β → Prop}

theorem carried_ret {a : α} (h : A a) : (Program.ret a : Program F ε α).Carried exec R G J A :=
  fun _ hs => ⟨h, hs⟩

theorem carried_raise {e : ε} : (Program.raise e : Program F ε α).Carried exec R G J A :=
  fun _ hs => hs

theorem carried_bind {p : Program F ε β} {f : β → Program F ε α} (hp : p.Carried exec R G J B)
    (hf : ∀ b, B b → (f b).Carried exec R G J A) : (p >>= f).Carried exec R G J A := by
  intro s hs
  refine (wp_bind p f).mpr (wp_mono ?_ (fun _ _ he => he) (hp s hs))
  rintro b s' ⟨hb, hs'⟩
  exact hf b hb s' hs'

/-- After a program that keeps `J` comes one that is verified from there. -/
theorem Carried.wp_bind {p : Program F ε β} {f : β → Program F ε α} {Q : α → S → Prop}
    {E : ε → S → Prop} (hp : p.Carried exec R G J B)
    (hf : ∀ b, B b → ∀ s, J s → (f b).wp exec R G Q E s) (hE : ∀ e s, J s → E e s) {s : S}
    (hs : J s) : (p >>= f).wp exec R G Q E s := by
  refine (Program.wp_bind p f).mpr (wp_mono ?_ hE (hp s hs))
  rintro b s' ⟨hb, hs'⟩
  exact hf b hb s' hs'

theorem carried_lift {x : Except ε β} {f : β → Program F ε α}
    (h : ∀ b, x = .ok b → (f b).Carried exec R G J A) :
    (lift x >>= f).Carried exec R G J A := by
  cases x with
  | ok b => exact h b rfl
  | error e => exact carried_raise

variable {T : (c : F.Cmd) → F.Ans c → Prop} {P : F.Cmd → Prop}

theorem carried_call (hJ : Keeps exec R G T P J) {c : F.Cmd} {k : F.Ans c → Program F ε α}
    (hc : P c) (h : ∀ a, T c a → (k a).Carried exec R G J A) :
    (Program.call c k).Carried exec R G J A := by
  intro s hs s₁ hR a s₂ hx
  have hs₁ : J s₁ := hJ.stable s s₁ hR hs
  obtain ⟨hG, hs₂⟩ := hJ.step s₁ c a s₂ hs₁ hx hc
  exact ⟨hG, h a (hJ.told s₁ c a s₂ hs₁ hx) s₂ hs₂⟩

theorem carried_confined (hJ : Keeps exec R G T P J) {p : Program F ε α} (h : p.Confined P A) :
    p.Carried exec R G J A := by
  induction p with
  | ret a => exact carried_ret h
  | raise e => exact carried_raise
  | call c k ih => exact carried_call hJ h.1 fun a _ => ih a (h.2 a)

/-- What answers as `T` says and commands in `P` keep, over the one-point state. -/
theorem keeps_unit {Q : F.Cmd → Prop} (hQ : ∀ c, Q c → P c) :
    Keeps (F := F) (fun (_ : Unit) c a _ => T c a) Eq (fun _ c _ _ => P c) T Q fun _ => True where
  stable _ _ _ h := h
  told _ _ _ _ _ ha := ha
  step _ c _ _ _ _ hc := ⟨hQ c hc, trivial⟩

theorem obeys_of_carried {p : Program F ε α}
    (h : p.Carried (fun (_ : Unit) c a _ => T c a) Eq (fun _ c _ _ => P c) (fun _ => True) A) :
    p.Obeys T P :=
  wp_mono (fun _ _ _ => trivial) (fun _ _ _ => trivial) (h () trivial)

end Carried

/-! ### Programs that raise nothing -/

/-- `Obeys`, and nothing is raised. -/
def Tame (T : (c : F.Cmd) → F.Ans c → Prop) (P : F.Cmd → Prop) (p : Program F ε α) : Prop :=
  p.wp (S := Unit) (fun _ c a _ => T c a) Eq (fun _ c _ _ => P c) (fun _ _ => True)
    (fun _ _ => False) ()

section Tame

variable {T : (c : F.Cmd) → F.Ans c → Prop} {P : F.Cmd → Prop} {J : S → Prop}

theorem tame_ret {a : α} : (Program.ret a : Program F ε α).Tame T P := trivial

theorem tame_call {c : F.Cmd} {k : F.Ans c → Program F ε α} (hc : P c)
    (h : ∀ a, T c a → (k a).Tame T P) : (Program.call c k).Tame T P :=
  fun _ _ a _ ha => ⟨hc, h a ha⟩

theorem tame_bind {p : Program F ε β} {f : β → Program F ε α} (hp : p.Tame T P)
    (hf : ∀ b, (f b).Tame T P) : (p >>= f).Tame T P :=
  (Program.wp_bind p f).mpr (wp_mono (fun b _ _ => hf b) (fun _ _ h => h) hp)

/-- What is raised is caught. -/
theorem tame_tryCatch {p : Program F ε α} {h : ε → Program F ε α} (hp : p.Obeys T P)
    (hh : ∀ e, (h e).Tame T P) : (p.tryCatch h).Tame T P :=
  (wp_tryCatch p h).mpr (wp_mono (fun _ _ _ => trivial) (fun e _ _ => hh e) hp)

/-- Nothing is raised that a handler could catch. -/
theorem Tame.caught {p : Program F ε α} {h : ε → Program F ε α} (hp : p.Tame T P) :
    (p.tryCatch h).Tame T P :=
  (wp_tryCatch p h).mpr (wp_mono (fun _ _ h => h) (fun _ _ h => h.elim) hp)

theorem tame_forEach {l : List β} {body : β → Program F ε Unit}
    (hbody : ∀ b ∈ l, (body b).Tame T P) : (forEach l body).Tame T P :=
  wp_forEach (I := fun _ => True) (fun b hb _ _ => hbody b hb) trivial

theorem Tame.obeys {p : Program F ε α} (h : p.Tame T P) : p.Obeys T P :=
  wp_mono (fun _ _ h => h) (fun _ _ h => h.elim) h

theorem Tame.mono {T' : (c : F.Cmd) → F.Ans c → Prop} {P' : F.Cmd → Prop}
    (hT : ∀ c a, T' c a → T c a) (hP : ∀ c, P c → P' c) {p : Program F ε α} (h : p.Tame T P) :
    p.Tame T' P' := by
  induction p with
  | ret a => trivial
  | raise e => exact h
  | call c k ih =>
    rintro _ rfl a _ ha
    obtain ⟨hc, hk⟩ := h () rfl a () (hT c a ha)
    exact ⟨hP c hc, ih a hk⟩

theorem obeys_bind {p : Program F ε β} {f : β → Program F ε α} (hp : p.Obeys T P)
    (hf : ∀ b, (f b).Obeys T P) : (p >>= f).Obeys T P :=
  (Program.wp_bind p f).mpr (wp_mono (fun b _ _ => hf b) (fun _ _ h => h) hp)

theorem obeys_tryCatch {p : Program F ε α} {h : ε → Program F ε α} (hp : p.Obeys T P)
    (hh : ∀ e, (h e).Obeys T P) : (p.tryCatch h).Obeys T P :=
  (wp_tryCatch p h).mpr (wp_mono (fun _ _ _ => trivial) (fun e _ _ => hh e) hp)

/-- **A tame program keeps what its commands keep,** and returns. -/
theorem Tame.keeps (hJ : Keeps exec R G T P J) {p : Program F ε α} (h : p.Tame T P) {s : S}
    (hs : J s) : p.wp exec R G (fun _ => J) (fun _ _ => False) s := by
  induction p generalizing s with
  | ret a => exact hs
  | raise e => exact h.elim
  | call c k ih =>
    intro s₁ hR a s₂ hx
    have hs₁ : J s₁ := hJ.stable s s₁ hR hs
    obtain ⟨hc, hk⟩ := h () rfl a () (hJ.told s₁ c a s₂ hs₁ hx)
    obtain ⟨hG, hs₂⟩ := hJ.step s₁ c a s₂ hs₁ hx hc
    exact ⟨hG, ih a hk hs₂⟩

/-- A program that raises nothing leads where what is behind it does. -/
theorem Tame.leads {p : Program F ε β} {f : β → Program F ε α} {c : F.Cmd} {U : Program F ε α → Prop}
    (h : p.Tame (fun _ _ => True) P) (hP : ∀ d, P d) (hf : ∀ b, (f b).Leads P c U) : (p >>= f).Leads P c U := by
  induction p with
  | ret b => exact hf b
  | raise e => exact h.elim
  | call d k ih => exact Or.inl ⟨hP d, fun a => ih a (h () rfl a () trivial).2⟩

/-- A program that obeys may raise, and keeps it nevertheless. -/
theorem Obeys.keeps (hJ : Keeps exec R G T P J) {p : Program F ε α} (h : p.Obeys T P) {s : S}
    (hs : J s) : p.wp exec R G (fun _ => J) (fun _ => J) s := by
  induction p generalizing s with
  | ret a => exact hs
  | raise e => exact hs
  | call c k ih =>
    intro s₁ hR a s₂ hx
    have hs₁ : J s₁ := hJ.stable s s₁ hR hs
    obtain ⟨hc, hk⟩ := h.call (hJ.told s₁ c a s₂ hs₁ hx)
    obtain ⟨hG, hs₂⟩ := hJ.step s₁ c a s₂ hs₁ hx hc
    exact ⟨hG, ih a hk hs₂⟩

end Tame

/-- What a thread sees of the state, and no other thread changes, is enough to
verify it: it may be verified without interference over its view. -/
theorem wp_of_view {V : Type} (view : S → V) {execV GV : V → (c : F.Cmd) → F.Ans c → V → Prop}
    {QV : α → V → Prop} {EV : ε → V → Prop} {p : Program F ε α}
    (hR : ∀ s s', R s s' → view s = view s')
    (hexec : ∀ s c a s', exec s c a s' → execV (view s) c a (view s'))
    (hG : ∀ s c a s', exec s c a s' → GV (view s) c a (view s') → G s c a s')
    (h : p.wp execV Eq GV QV EV (view s)) :
    p.wp exec R G (fun a s => QV a (view s)) (fun e s => EV e (view s)) s := by
  induction p generalizing s with
  | ret a => exact h
  | raise e => exact h
  | call c k ih =>
    intro s₁ hR₁ a s₂ hx
    rw [wp_call_eq] at h
    rw [hR s s₁ hR₁] at h
    obtain ⟨hg, hk⟩ := h a (view s₂) (hexec s₁ c a s₂ hx)
    exact ⟨hG s₁ c a s₂ hx hg, ih a hk⟩

end Wp

end Program
end Effect
