import CloudCore.Formats.Binary

/-!
# Readers that keep a log

A reader that writes down what it meets, also where it fails.  The log says why it fails, and it is an
account: what is bought is paid with the bytes that are read.

## Main definitions

* `Logged` — a reader with a log; `forget`, the reader without.
* `Telling` — the log tells whether the result is fair.
* `Thrifty`, `Pays` — what the reader buys is paid with bytes, except for what is free.

## Main results

* `forget_bind`, `forget_times` — the log changes nothing.
* `Telling.bind`, `Telling.times`, `Thrifty.bind`, `Thrifty.times`, `Pays.bind` — one reader after
  another.
-/

namespace Formats
namespace Binary

variable {τ ε α β : Type}

/-- A reader with a log. -/
def Logged (τ ε α : Type) := List UInt8 → List τ × Except ε (α × List UInt8)

namespace Logged

protected def bind (t : Logged τ ε α) (k : α → Logged τ ε β) : Logged τ ε β := fun bytes =>
  match t bytes with
  | (events, .ok (a, rest)) => (events ++ (k a rest).1, (k a rest).2)
  | (events, .error e) => (events, .error e)

instance : Monad (Logged τ ε) where
  pure a := fun bytes => ([], .ok (a, bytes))
  bind := Logged.bind

/-- A reader that logs nothing. -/
def lift (r : Reader ε α) : Logged τ ε α := fun bytes => ([], r bytes)

/-- Write down something about the bytes that are left. -/
def note (event : List UInt8 → τ) : Logged τ ε Unit := fun bytes => ([event bytes], .ok ((), bytes))

/-- A reader some number of times. -/
def times : ℕ → Logged τ ε Unit → Logged τ ε Unit
  | 0, _ => pure ()
  | n + 1, t => t >>= fun _ => times n t

def forget (t : Logged τ ε α) : Reader ε α := fun bytes => (t bytes).2

@[simp] theorem forget_pure (a : α) : forget (pure a : Logged τ ε α) = pure a := rfl

@[simp] theorem forget_lift (r : Reader ε α) : forget (lift r : Logged τ ε α) = r := rfl

theorem bind_ok {t : Logged τ ε α} {k : α → Logged τ ε β} {bytes rest : List UInt8} {events : List τ}
    {a : α} (h : t bytes = (events, .ok (a, rest))) :
    (t >>= k) bytes = (events ++ (k a rest).1, (k a rest).2) := by
  show Logged.bind t k bytes = _
  rw [Logged.bind, h]

theorem bind_error {t : Logged τ ε α} {k : α → Logged τ ε β} {bytes : List UInt8} {events : List τ}
    {e : ε} (h : t bytes = (events, .error e)) : (t >>= k) bytes = (events, .error e) := by
  show Logged.bind t k bytes = _
  rw [Logged.bind, h]

/-- The rest of a computation sees what a reader without a log has left. -/
theorem lift_bind_eq {r : Reader ε α} {xs : List UInt8} {a : α} (h : Reads r xs a)
    (k : α → Logged τ ε β) (rest : List UInt8) : (lift r >>= k) (xs ++ rest) = k a rest := by
  have hread : (lift r : Logged τ ε α) (xs ++ rest) = ([], .ok (a, rest)) := by rw [lift, h]
  rw [bind_ok hread, List.nil_append]

theorem note_bind_eq (event : List UInt8 → τ) (k : Unit → Logged τ ε β) (bytes : List UInt8) :
    (note event >>= k) bytes = (event bytes :: (k () bytes).1, (k () bytes).2) := rfl

/-- A reader that changes nothing logs the same every time. -/
theorem times_eq {t : Logged τ ε Unit} {bytes : List UInt8} {event : τ}
    (h : t bytes = ([event], .ok ((), bytes))) (n : ℕ) :
    times n t bytes = (List.replicate n event, .ok ((), bytes)) := by
  induction n with
  | zero => rfl
  | succ n ih =>
    show (t >>= fun _ => times n t) bytes = _
    rw [bind_ok h, ih, List.replicate_succ]
    rfl

@[simp] theorem forget_bind (t : Logged τ ε α) (k : α → Logged τ ε β) :
    forget (t >>= k) = forget t >>= fun a => forget (k a) := by
  funext bytes
  show ((t >>= k) bytes).2 = (t bytes).2 >>= fun p => (k p.1 p.2).2
  match h : t bytes with
  | (events, .ok (a, rest)) => rw [bind_ok h]; rfl
  | (events, .error e) => rw [bind_error h]; rfl

@[simp] theorem forget_note (event : List UInt8 → τ) :
    forget (note event : Logged τ ε Unit) = pure () := rfl

theorem forget_ite (c : Prop) [Decidable c] (t t' : Logged τ ε α) :
    forget (if c then t else t') = if c then forget t else forget t' := by
  split <;> rfl

@[simp] theorem forget_times (n : ℕ) (t : Logged τ ε Unit) :
    forget (times n t) = Binary.times n (forget t) := by
  induction n with
  | zero => rfl
  | succ n ih =>
    show forget (t >>= fun _ => times n t) = forget t >>= fun _ => Binary.times n (forget t)
    rw [forget_bind, ih]

/-! ### Why a reader fails -/

section Telling

variable {P : τ → Prop} {U : ε → Prop} {V : α → Prop} {W : β → Prop} {t : Logged τ ε α}
  {k : α → Logged τ ε β}

/-- A failure that is not in `U`, or a value in `V`. -/
def Fair (U : ε → Prop) (V : α → Prop) : Except ε (α × List UInt8) → Prop
  | .ok (a, _) => V a
  | .error e => ¬ U e

/-- Everything in the log is in `P` if and only if the result is fair. -/
def Telling (P : τ → Prop) (U : ε → Prop) (V : α → Prop) (t : Logged τ ε α) : Prop :=
  ∀ bytes, (∀ event ∈ (t bytes).1, P event) ↔ Fair U V (t bytes).2

theorem Telling.pure {a : α} (ha : V a) : Telling P U V (pure a : Logged τ ε α) :=
  fun _ => ⟨fun _ => ha, fun _ _ h => nomatch h⟩

theorem Telling.lift {r : Reader ε α} (hr : ∀ bytes, Fair U V (r bytes)) :
    Telling P U V (lift r : Logged τ ε α) :=
  fun bytes => ⟨fun _ => hr bytes, fun _ _ h => nomatch h⟩

theorem Telling.bind (ht : Telling P U (fun _ => True) t) (hk : ∀ a, Telling P U W (k a)) :
    Telling P U W (t >>= k) := by
  intro bytes
  have hthis := ht bytes
  match h : t bytes with
  | (events, .error e) =>
    rw [h] at hthis
    rw [bind_error h]
    exact hthis
  | (events, .ok (a, rest)) =>
    rw [h] at hthis
    have hevents : ∀ event ∈ events, P event := hthis.mpr trivial
    rw [bind_ok h]
    refine Iff.trans ⟨fun hall event hevent => ?_, fun hall event hevent => ?_⟩ (hk a rest)
    · exact hall event (List.mem_append_right _ hevent)
    · exact (List.mem_append.mp hevent).elim (hevents event) (hall event)

/-- A remark on what is fine. -/
theorem Telling.note {event : List UInt8 → τ} (hevent : ∀ bytes, P (event bytes))
    (ht : Telling P U V t) : Telling P U V (Logged.note event >>= fun _ => t) :=
  fun bytes => Iff.trans List.forall_mem_cons ((and_iff_right (hevent bytes)).trans (ht bytes))

/-- A remark on what is not, before a result that is not fair. -/
theorem Telling.warn {event : List UInt8 → τ} (hevent : ∀ bytes, ¬ P (event bytes))
    (ht : ∀ bytes, ¬ Fair U V (t bytes).2) : Telling P U V (Logged.note event >>= fun _ => t) :=
  fun bytes => ⟨fun hall => absurd (hall _ List.mem_cons_self) (hevent bytes),
    fun hfair => absurd hfair (ht bytes)⟩

theorem Telling.times {t : Logged τ ε Unit} (ht : Telling P U (fun _ => True) t) (n : ℕ) :
    Telling P U (fun _ => True) (times n t) := by
  induction n with
  | zero => exact .pure trivial
  | succ n ih => exact ht.bind fun _ => ih

end Telling

/-! ### What a reader buys -/

section Thrifty

variable {bought free : τ → Bool} {t : Logged τ ε α} {k : α → Logged τ ε β}

/-- The bytes that are left. -/
def left : Except ε (α × List UInt8) → ℕ
  | .ok (_, rest) => rest.length
  | .error _ => 0

/-- What is bought and not free is paid with bytes. -/
def Thrifty (bought free : τ → Bool) (t : Logged τ ε α) : Prop :=
  ∀ bytes, (t bytes).1.countP bought + left (t bytes).2 ≤ bytes.length + (t bytes).1.countP free

/-- One byte more is paid, where there is one. -/
def Pays (bought free : τ → Bool) (t : Logged τ ε α) : Prop :=
  ∀ bytes, bytes ≠ [] →
    (t bytes).1.countP bought + left (t bytes).2 + 1 ≤ bytes.length + (t bytes).1.countP free

theorem Thrifty.pure (a : α) : Thrifty bought free (pure a : Logged τ ε α) :=
  fun bytes => (Nat.zero_add bytes.length).le

theorem Thrifty.lift {r : Reader ε α} (hr : ∀ bytes, left (r bytes) ≤ bytes.length) :
    Thrifty bought free (lift r : Logged τ ε α) := by
  intro bytes
  show 0 + left (r bytes) ≤ bytes.length + 0
  rw [Nat.zero_add]
  exact hr bytes

theorem Pays.lift {r : Reader ε α} (hr : ∀ bytes, bytes ≠ [] → left (r bytes) < bytes.length) :
    Pays bought free (lift r : Logged τ ε α) := by
  intro bytes hbytes
  show 0 + left (r bytes) + 1 ≤ bytes.length + 0
  rw [Nat.zero_add]
  exact hr bytes hbytes

theorem Thrifty.bind (ht : Thrifty bought free t) (hk : ∀ a, Thrifty bought free (k a)) :
    Thrifty bought free (t >>= k) := by
  intro bytes
  have hthis := ht bytes
  match h : t bytes with
  | (events, .error e) =>
    rw [h] at hthis
    rw [bind_error h]
    exact hthis
  | (events, .ok (a, rest)) =>
    have hnext := hk a rest
    rw [h] at hthis
    rw [bind_ok h]
    simp only [List.countP_append, left] at hthis hnext ⊢
    omega

theorem Pays.bind (ht : Pays bought free t) (hk : ∀ a, Thrifty bought free (k a)) :
    Pays bought free (t >>= k) := by
  intro bytes hbytes
  have hthis := ht bytes hbytes
  match h : t bytes with
  | (events, .error e) =>
    rw [h] at hthis
    rw [bind_error h]
    exact hthis
  | (events, .ok (a, rest)) =>
    have hnext := hk a rest
    rw [h] at hthis
    rw [bind_ok h]
    simp only [List.countP_append, left] at hthis hnext ⊢
    omega

/-- A remark that buys nothing. -/
theorem Thrifty.note {event : List UInt8 → τ} (hbought : ∀ bytes, bought (event bytes) = false)
    {t : Logged τ ε β} (ht : Thrifty bought free t) :
    Thrifty bought free (Logged.note event >>= fun _ => t) := by
  intro bytes
  have hthis := ht bytes
  show (event bytes :: (t bytes).1).countP bought + _ ≤ _ + (event bytes :: (t bytes).1).countP free
  rw [List.countP_cons, List.countP_cons, hbought, if_neg Bool.false_ne_true]
  show _ + left (t bytes).2 ≤ _
  omega

/-- What is free where there are no bytes is paid for by what follows. -/
theorem Thrifty.buy {event : List UInt8 → τ} (hfree : free (event []) = true) {t : Logged τ ε β}
    (ht : Thrifty bought free t) (hpays : Pays bought free t) :
    Thrifty bought free (Logged.note event >>= fun _ => t) := by
  intro bytes
  show (event bytes :: (t bytes).1).countP bought + left (t bytes).2 ≤
    _ + (event bytes :: (t bytes).1).countP free
  have hone : (event bytes :: (t bytes).1).countP bought ≤ (t bytes).1.countP bought + 1 := by
    rw [List.countP_cons]
    split <;> omega
  cases bytes with
  | nil =>
    have hthis := ht []
    rw [List.countP_cons_of_pos hfree]
    omega
  | cons byte bytes =>
    have hthis := hpays (byte :: bytes) (List.cons_ne_nil _ _)
    have hmore : (t (byte :: bytes)).1.countP free ≤
        (event (byte :: bytes) :: (t (byte :: bytes)).1).countP free := by
      rw [List.countP_cons]
      omega
    omega

theorem Thrifty.times {t : Logged τ ε Unit} (ht : Thrifty bought free t) (n : ℕ) :
    Thrifty bought free (times n t) := by
  induction n with
  | zero => exact .pure ()
  | succ n ih => exact ht.bind fun _ => ih

end Thrifty

end Logged

end Binary
end Formats
