import CloudCore.Python.Ipaddress

/-!
# Decimal numbers and `int`

`int` reads more than decimal numbers: white space, signs, underscores and the digits
of other scripts.

## Main results

* `intOfText_digits` — a run of ASCII digits is read as its value.
* `isIntChar_of_intOfText` — `int` reads no text with a character of another kind.
* `value_toDigits` — a printed number reads back.
-/

namespace Python

/-- Characters that `int` may meet. -/
def isIntChar (c : Char) : Bool :=
  isSpace c || c == '+' || c == '-' || c == '_' || (decimal c).isSome

theorem decimal_of_isDigit {c : Char} (h : c.isDigit = true) : decimal c = some (c.toNat - 48) := by
  have hrange : 48 ≤ c.toNat ∧ c.toNat < 58 := by
    simp only [Char.isDigit, Bool.and_eq_true, decide_eq_true_eq] at h
    have h1 := UInt32.le_iff_toNat_le.mp h.1
    have h2 := UInt32.le_iff_toNat_le.mp h.2
    exact ⟨h1, Nat.lt_succ_of_le h2⟩
  have hfind : decimalZeros.find? (fun z => z ≤ c.toNat && c.toNat < z + 10) = some 0x30 := by
    rw [decimalZeros, List.find?_cons_of_pos]
    simpa using hrange
  rw [decimal, hfind]
  rfl

/-- What is read digit by digit consists of digits and underscores. -/
theorem isIntChar_of_digitsOf {l : List Char} {ds : List ℕ} (h : digitsOf l = some ds) :
    ∀ c ∈ l, isIntChar c = true := by
  induction l using digitsOf.induct generalizing ds with
  | case1 => cases h
  | case2 c =>
    obtain ⟨d, hd, -⟩ := Option.map_eq_some_iff.mp h
    intro c' hc'
    rw [List.mem_singleton.mp hc']
    simp [isIntChar, hd]
  | case3 c l ih =>
    obtain ⟨d, hd, h⟩ := Option.bind_eq_some_iff.mp h
    obtain ⟨ds, hds, -⟩ := Option.bind_eq_some_iff.mp h
    refine List.forall_mem_cons.mpr ⟨by simp [isIntChar, hd], ?_⟩
    exact List.forall_mem_cons.mpr ⟨by decide, ih hds⟩
  | case4 c l hne hnot ih =>
    rw [digitsOf] at h
    · obtain ⟨d, hd, h⟩ := Option.bind_eq_some_iff.mp h
      obtain ⟨ds, hds, -⟩ := Option.bind_eq_some_iff.mp h
      exact List.forall_mem_cons.mpr ⟨by simp [isIntChar, hd], ih hds⟩
    all_goals assumption

/-- `int` reads no text with a character of another kind. -/
theorem isIntChar_of_intOfText {s : String} {n : ℤ} (h : intOfText s = .ok n) :
    ∀ c ∈ s.toList, isIntChar c = true := by
  obtain ⟨a, b, ha, hb, hl⟩ := exists_stripBy isSpace s.toList
  have hspace {l : List Char} (hl : ∀ c ∈ l, isSpace c = true) : ∀ c ∈ l, isIntChar c = true :=
    fun c hc => by simp [isIntChar, hl c hc]
  have hbody : ∀ c ∈ stripBy isSpace s.toList, isIntChar c = true := by
    unfold intOfText at h
    generalize stripBy isSpace s.toList = l at h
    simp only at h
    split at h
    · cases h
    next ds hds =>
      split at hds
      · exact List.forall_mem_cons.mpr ⟨by decide, isIntChar_of_digitsOf hds⟩
      · exact List.forall_mem_cons.mpr ⟨by decide, isIntChar_of_digitsOf hds⟩
      · exact isIntChar_of_digitsOf hds
  rw [hl]
  intro c hc
  rcases List.mem_append.mp hc with hc | hc
  · rcases List.mem_append.mp hc with hc | hc
    · exact hspace ha c hc
    · exact hbody c hc
  · exact hspace hb c hc

/-- A run of digits, digit by digit. -/
theorem digitsOf_of_isDigits {l : List Char} (hne : l ≠ []) (h : l.all Char.isDigit = true) :
    digitsOf l = some (l.map fun c => c.toNat - 48) := by
  induction l with
  | nil => exact absurd rfl hne
  | cons c l ih =>
    rw [List.all_cons, Bool.and_eq_true] at h
    cases l with
    | nil => rw [digitsOf, decimal_of_isDigit h.1]; rfl
    | cons c' l =>
      have hc' : c' ≠ '_' := by
        rintro rfl
        exact absurd (List.all_eq_true.mp h.2 '_' List.mem_cons_self) (by decide)
      rw [digitsOf, decimal_of_isDigit h.1, ih nofun h.2]
      · rfl
      · exact nofun
      · intro l' hl'
        cases hl'
        exact hc' rfl

theorem stripBy_eq_self {p : Char → Bool} {l : List Char} (h : ∀ c ∈ l, p c = false) :
    stripBy p l = l := by
  have hdrop {l : List Char} (h : ∀ c ∈ l, p c = false) : l.dropWhile p = l := by
    cases l with
    | nil => rfl
    | cons c l => rw [List.dropWhile_cons, h c List.mem_cons_self]; rfl
  have hrev : ∀ c ∈ l.reverse, p c = false := fun c hc => h c (List.mem_reverse.mp hc)
  rw [stripBy, hdrop h, hdrop hrev, List.reverse_reverse]

theorem isSpace_of_isDigit {c : Char} (h : c.isDigit = true) : isSpace c = false := by
  simp only [Char.isDigit, Bool.and_eq_true, decide_eq_true_eq] at h
  have h1 : 48 ≤ c.toNat := UInt32.le_iff_toNat_le.mp h.1
  have h2 : c.toNat ≤ 57 := UInt32.le_iff_toNat_le.mp h.2
  simp only [isSpace, Bool.or_eq_false_iff, Bool.and_eq_false_iff, decide_eq_false_iff_not,
    beq_eq_false_iff_ne]
  omega

/-- **A run of ASCII digits is read as its value**, unless it is too long. -/
theorem intOfText_digits {s : String} (hs : isDigits s.toList = true) :
    intOfText s = if s.toList.length > maxStrDigits then .error .valueError else .ok (value s.toList) := by
  rw [isDigits, Bool.and_eq_true] at hs
  obtain ⟨hne, hall⟩ := hs
  have hne : s.toList ≠ [] := by
    intro hnil
    rw [hnil] at hne
    cases hne
  have hstrip : stripBy isSpace s.toList = s.toList :=
    stripBy_eq_self fun c hc => isSpace_of_isDigit (List.all_eq_true.mp hall c hc)
  unfold intOfText
  rw [hstrip]
  generalize s.toList = l at *
  have hsign : ∀ c l', l = c :: l' → c ≠ '-' ∧ c ≠ '+' := by
    rintro c l' rfl
    have hc := List.all_eq_true.mp hall c List.mem_cons_self
    constructor <;> (rintro rfl; cases hc)
  simp only
  split
  next hnone =>
    split at hnone
    next l' => exact absurd rfl (hsign _ _ rfl).1
    next l' => exact absurd rfl (hsign _ _ rfl).2
    next hminus hplus =>
      rw [digitsOf_of_isDigits hne hall] at hnone
      cases hnone
  next ds hds =>
    split at hds
    next l' => exact absurd rfl (hsign _ _ rfl).1
    next l' => exact absurd rfl (hsign _ _ rfl).2
    next hminus hplus =>
      rw [digitsOf_of_isDigits hne hall] at hds
      cases hds
      simp [value, List.foldl_map]

theorem intOfText_of_isDigits {s : String} {n : ℤ} (hs : isDigits s.toList = true)
    (h : intOfText s = .ok n) : n = value s.toList := by
  rw [intOfText_digits hs] at h
  split at h
  · cases h
  · cases h
    rfl

/-! ### Printing -/

/-- A printed number reads back. -/
theorem value_toDigits (n : ℕ) : value (Nat.toDigits 10 n) = n :=
  Nat.ofDigitChars_ten_toDigits

theorem isDigits_toDigits (n : ℕ) : isDigits (Nat.toDigits 10 n) = true := by
  rw [isDigits, Bool.and_eq_true]
  refine ⟨?_, List.all_eq_true.mpr fun c hc => Nat.isDigit_of_mem_toDigits (by decide) (by decide) hc⟩
  cases h : Nat.toDigits 10 n with
  | nil => exact absurd h Nat.toDigits_ne_nil
  | cons c l => rfl

end Python
