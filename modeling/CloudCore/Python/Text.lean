import Mathlib.Data.List.TakeWhile
import Mathlib.Data.String.Basic

/-!
# Python's strings

The string methods the code uses, on the code points of a string, and zero-padded
decimal numbers.  Strings compare by code point, as in Python and as SQLite's
binary collation compares UTF-8 text.

## Main definitions

* `isSpace`, `strip`, `startswith`, `removeprefix`, `isAscii` — `str` methods.
* `pad` — the last `w` decimal digits of a number.
* `digits` — a number from a run of ASCII digits of a given length.

## Main results

* `strip_eq_iff` — stripping takes off exactly the blanks around a text.
* `append_lt_append` — texts of one length decide the order of what follows them.
* `pad_lt_pad` — zero-padded numbers compare as numbers.
* `digits_pad` — a zero-padded number reads back.
-/

namespace Python

/-! ### Stripping -/

/-- `str.isspace` of one character. -/
def isSpace (c : Char) : Bool :=
  let n := c.toNat
  (9 ≤ n && n ≤ 13) || (28 ≤ n && n ≤ 32) || n == 0x85 || n == 0xa0 || n == 0x1680 ||
    (0x2000 ≤ n && n ≤ 0x200a) || n == 0x2028 || n == 0x2029 || n == 0x202f || n == 0x205f ||
    n == 0x3000

/-- Drop the characters `p` from both ends. -/
def stripBy (p : Char → Bool) (l : List Char) : List Char :=
  ((l.dropWhile p).reverse.dropWhile p).reverse

/-- `str.strip()`. -/
def strip (s : String) : String := .ofList (stripBy isSpace s.toList)

/-- `str.strip(chars)`. -/
def stripChars (chars s : String) : String := .ofList (stripBy (chars.toList.contains ·) s.toList)

/-- `str.startswith`. -/
def startswith (s pre : String) : Bool := pre.toList.isPrefixOf s.toList

/-- `str.removeprefix`. -/
def removeprefix (s pre : String) : String :=
  if startswith s pre then .ofList (s.toList.drop pre.toList.length) else s

/-- `str.removesuffix`. -/
def removesuffix (s post : String) : String :=
  if post.toList.isSuffixOf s.toList then
    .ofList (s.toList.take (s.toList.length - post.toList.length))
  else s

/-- `str.isascii`. -/
def isAscii (s : String) : Bool := s.toList.all fun c => c.toNat < 128

/-- The characters that end a line. -/
def isLineEnd (c : Char) : Bool :=
  let n := c.toNat
  (10 ≤ n && n ≤ 13) || (28 ≤ n && n ≤ 30) || n == 0x85 || n == 0x2028 || n == 0x2029

/-- `str.splitlines()`; `\r\n` ends one line. -/
def splitlines (l : List Char) : List (List Char) := go l [] false
where
  /-- `line` is the current line in reverse; `cr` says a `\r` has just ended one. -/
  go : List Char → List Char → Bool → List (List Char)
  | [], line, _ => if line.isEmpty then [] else [line.reverse]
  | c :: l, line, cr =>
    if c = '\n' ∧ cr then go l [] false
    else if isLineEnd c then line.reverse :: go l [] (c = '\r')
    else go l (c :: line) false

/-- The code points of the ASCII letters and digits. -/
theorem toNat_of_isAlphanum {c : Char} (h : c.isAlphanum = true) :
    (65 ≤ c.toNat ∧ c.toNat ≤ 90 ∨ 97 ≤ c.toNat ∧ c.toNat ≤ 122) ∨ 48 ≤ c.toNat ∧ c.toNat ≤ 57 := by
  have hcases : ((decide (c.val ≥ 'A'.val ∧ c.val ≤ 'Z'.val) || (decide (c.val ≥ 'a'.val) && decide (c.val ≤ 'z'.val))) ||
      (decide (c.val ≥ '0'.val) && decide (c.val ≤ '9'.val))) = true := h
  simp only [Bool.or_eq_true, Bool.and_eq_true, decide_eq_true_eq, ge_iff_le, UInt32.le_iff_toNat_le] at hcases
  exact hcases

theorem isSpace_of_isAlphanum {c : Char} (h : c.isAlphanum = true) : isSpace c = false := by
  have hcases := toNat_of_isAlphanum h
  simp only [isSpace, Bool.or_eq_false_iff, Bool.and_eq_false_iff, decide_eq_false_iff_not,
    beq_eq_false_iff_ne]
  omega

/-- One instance for every test of a text in a list. -/
instance lawfulBEqText : LawfulBEq (List Char) := inferInstance

/-- Nothing but white space. -/
def Blank (s : String) : Prop := ∀ c ∈ s.toList, isSpace c = true

/-- Stripping takes off blanks around a text. -/
theorem stripBy_blank_append {p : Char → Bool} {a l b : List Char} (ha : ∀ c ∈ a, p c = true)
    (hb : ∀ c ∈ b, p c = true) : stripBy p (a ++ l ++ b) = stripBy p l := by
  unfold stripBy
  rw [List.append_assoc, List.dropWhile_append_of_pos ha, List.dropWhile_append]
  split
  · next hl =>
    rw [List.isEmpty_iff] at hl
    rw [hl, List.dropWhile_eq_nil_iff.mpr hb]
  · rw [List.reverse_append, List.dropWhile_append_of_pos fun c hc => hb c (List.mem_reverse.mp hc)]

/-- A text is what stripping leaves of it, with dropped characters around. -/
theorem exists_stripBy (p : Char → Bool) (l : List Char) :
    ∃ a b, (∀ c ∈ a, p c = true) ∧ (∀ c ∈ b, p c = true) ∧ l = a ++ stripBy p l ++ b := by
  refine ⟨l.takeWhile p, ((l.dropWhile p).reverse.takeWhile p).reverse, ?_, ?_, ?_⟩
  · intro c hc
    exact List.mem_takeWhile_imp hc
  · intro c hc
    exact List.mem_takeWhile_imp (List.mem_reverse.mp hc)
  · have hl := List.takeWhile_append_dropWhile (p := p) (l := l)
    have hr := List.takeWhile_append_dropWhile (p := p) (l := (l.dropWhile p).reverse)
    have hr' := congrArg List.reverse hr
    rw [List.reverse_append, List.reverse_reverse] at hr'
    rw [stripBy, List.append_assoc, hr', hl]

/-- Stripping a text whose ends are not dropped changes nothing. -/
theorem stripBy_stripBy (p : Char → Bool) (l : List Char) :
    stripBy p (stripBy p l) = stripBy p l := by
  obtain ⟨a, b, ha, hb, h⟩ := exists_stripBy p l
  conv_rhs => rw [h]
  rw [stripBy_blank_append ha hb]

/-- A text that neither begins nor ends with what is dropped. -/
theorem stripBy_of_ends {p : Char → Bool} {l : List Char} (hhead : ∀ c ∈ l.head?, p c = false)
    (hlast : ∀ c ∈ l.getLast?, p c = false) : stripBy p l = l := by
  have hdrop (m : List Char) (hm : ∀ c ∈ m.head?, p c = false) : m.dropWhile p = m := by
    cases m with
    | nil => rfl
    | cons c m => rw [List.dropWhile_cons, hm c rfl, if_neg Bool.false_ne_true]
  have hback : ∀ c ∈ l.reverse.head?, p c = false := by rwa [List.head?_reverse]
  rw [stripBy, hdrop l hhead, hdrop _ hback, List.reverse_reverse]

/-- **Stripping gives the text `t`, itself stripped, exactly for `t` with blanks around.** -/
theorem strip_eq_iff {s t : String} (ht : strip t = t) :
    strip s = t ↔ ∃ a b, Blank a ∧ Blank b ∧ s = a ++ t ++ b := by
  constructor
  · intro h
    obtain ⟨a, b, ha, hb, hs⟩ := exists_stripBy isSpace s.toList
    refine ⟨.ofList a, .ofList b, ?_, ?_, ?_⟩
    · intro c hc; rw [String.toList_ofList] at hc; exact ha c hc
    · intro c hc; rw [String.toList_ofList] at hc; exact hb c hc
    · rw [← h, strip, ← String.ofList_append, ← String.ofList_append, ← hs, String.ofList_toList]
  · rintro ⟨a, b, ha, hb, rfl⟩
    rw [strip, String.toList_append, String.toList_append, stripBy_blank_append ha hb]
    exact ht

/-! ### Lines -/

/-- A line that is ended. -/
theorem go_line {l : List Char} (hl : ∀ c ∈ l, isLineEnd c = false) (r line : List Char) :
    splitlines.go (l ++ '\n' :: r) line false = (line.reverse ++ l) :: splitlines.go r [] false := by
  induction l generalizing line with
  | nil => rw [List.append_nil]; rfl
  | cons c l ih =>
    have hc := hl c List.mem_cons_self
    rw [List.cons_append, splitlines.go, if_neg (fun h => Bool.false_ne_true h.2), hc, if_neg Bool.false_ne_true,
      ih (fun d hd => hl d (List.mem_cons_of_mem c hd)), List.reverse_cons, List.append_assoc, List.singleton_append]

/-- The last line. -/
theorem go_last {l : List Char} (hl : ∀ c ∈ l, isLineEnd c = false) (line : List Char)
    (h : line.reverse ++ l ≠ []) : splitlines.go l line false = [line.reverse ++ l] := by
  induction l generalizing line with
  | nil =>
    rw [List.append_nil] at h ⊢
    rw [splitlines.go, if_neg fun hnil => h (by rw [List.isEmpty_iff.mp hnil]; rfl)]
  | cons c l ih =>
    have hc := hl c List.mem_cons_self
    have happend : line.reverse ++ c :: l = (c :: line).reverse ++ l := by
      rw [List.reverse_cons, List.append_assoc, List.singleton_append]
    rw [happend] at h ⊢
    rw [splitlines.go, if_neg (fun h => Bool.false_ne_true h.2), hc, if_neg Bool.false_ne_true]
    exact ih (fun d hd => hl d (List.mem_cons_of_mem c hd)) _ h

/-- **Lines that are joined are split again.** -/
theorem splitlines_intercalate {ls : List (List Char)}
    (h : ∀ l ∈ ls, l ≠ [] ∧ ∀ c ∈ l, isLineEnd c = false) : splitlines (['\n'].intercalate ls) = ls := by
  induction ls with
  | nil => rfl
  | cons l ls ih =>
    have hl := h l List.mem_cons_self
    cases ls with
    | nil =>
      have hone : ['\n'].intercalate [l] = l := by simp [List.intercalate]
      rw [hone]
      exact go_last hl.2 [] hl.1
    | cons m ls =>
      have hcons : ['\n'].intercalate (l :: m :: ls) = l ++ '\n' :: ['\n'].intercalate (m :: ls) := by
        simp [List.intercalate]
      have hrest := ih fun k hk => h k (List.mem_cons_of_mem l hk)
      rw [hcons, splitlines, go_line hl.2]
      exact congrArg (l :: ·) hrest

/-- A line has no end in it. -/
theorem isLineEnd_of_mem_splitlines {t l : List Char} (h : l ∈ splitlines t) : ∀ c ∈ l, isLineEnd c = false := by
  have hgo : ∀ (t line : List Char) (cr : Bool), (∀ c ∈ line, isLineEnd c = false) →
      l ∈ splitlines.go t line cr → ∀ c ∈ l, isLineEnd c = false := by
    intro t
    induction t with
    | nil =>
      intro line cr hline hl
      rw [splitlines.go] at hl
      split at hl
      · exact (List.not_mem_nil hl).elim
      · rw [List.mem_singleton.mp hl]
        exact fun c hc => hline c (List.mem_reverse.mp hc)
    | cons d t ih =>
      intro line cr hline hl
      rw [splitlines.go] at hl
      split at hl
      · exact ih [] false (fun c hc => (List.not_mem_nil hc).elim) hl
      · split at hl
        · obtain rfl | hl := List.mem_cons.mp hl
          · exact fun c hc => hline c (List.mem_reverse.mp hc)
          · exact ih [] _ (fun c hc => (List.not_mem_nil hc).elim) hl
        · next hd => exact ih (d :: line) false (List.forall_mem_cons.mpr ⟨Bool.eq_false_iff.mpr hd, hline⟩) hl
  exact hgo t [] false (fun c hc => (List.not_mem_nil hc).elim) h

/-- Lines that are all ended. -/
theorem splitlines_ended {ls : List (List Char)} (h : ∀ l ∈ ls, ∀ c ∈ l, isLineEnd c = false) :
    splitlines (['\n'].intercalate ls ++ ['\n']) = if ls = [] then [[]] else ls := by
  induction ls with
  | nil => rfl
  | cons l ls ih =>
    have hl := h l List.mem_cons_self
    have hrest := ih fun k hk => h k (List.mem_cons_of_mem l hk)
    rw [if_neg (List.cons_ne_nil l ls)]
    cases ls with
    | nil =>
      have hone : ['\n'].intercalate [l] = l := by simp [List.intercalate]
      rw [hone, splitlines, go_line hl]
      rfl
    | cons m ls =>
      have hcons : ['\n'].intercalate (l :: m :: ls) = l ++ '\n' :: ['\n'].intercalate (m :: ls) := by
        simp [List.intercalate]
      rw [if_neg (List.cons_ne_nil m ls)] at hrest
      rw [hcons, List.append_assoc, List.cons_append, splitlines, go_line hl]
      exact congrArg (l :: ·) hrest

theorem startswith_iff {s pre : String} : startswith s pre = true ↔ ∃ r, s = pre ++ r := by
  rw [startswith, List.isPrefixOf_iff_prefix]
  constructor
  · rintro ⟨r, hr⟩
    exact ⟨.ofList r, String.toList_inj.mp (by simp [hr])⟩
  · rintro ⟨r, rfl⟩
    exact ⟨r.toList, by simp⟩

theorem removeprefix_append (pre r : String) : removeprefix (pre ++ r) pre = r := by
  have h : startswith (pre ++ r) pre = true := startswith_iff.mpr ⟨r, rfl⟩
  rw [ removeprefix, if_pos h, String.toList_append, List.drop_left, String.ofList_toList]

/-! ### Decimal numbers -/

/-- The last `w` decimal digits of `n`: `f"{n:0{w}d}"` for a number of at most `w` digits. -/
def pad : ℕ → ℕ → List Char
  | 0, _ => []
  | w + 1, n => pad w (n / 10) ++ [Nat.digitChar (n % 10)]

/-- The number a run of digits stands for. -/
def value (l : List Char) : ℕ := l.foldl (fun n c => 10 * n + (c.toNat - 48)) 0

/-- A number of exactly `w` ASCII digits, and what follows it. -/
def digits (w : ℕ) (l : List Char) : Option (ℕ × List Char) :=
  if (l.take w).length = w ∧ (l.take w).all Char.isDigit then some (value (l.take w), l.drop w)
  else none

@[simp] theorem length_pad (w n : ℕ) : (pad w n).length = w := by
  induction w generalizing n with
  | zero => rfl
  | succ w ih => rw [pad, List.length_append, ih, List.length_singleton]

theorem toNat_digitChar {d : ℕ} (h : d < 10) : (Nat.digitChar d).toNat = d + 48 := by
  rw [Nat.toNat_digitChar_of_lt_ten h, Nat.add_comm]

theorem isDigit_digitChar {d : ℕ} (h : d < 10) : (Nat.digitChar d).isDigit = true := by
  have hall : ∀ d < 10, (Nat.digitChar d).isDigit = true := by decide
  exact hall d h

theorem isDigit_pad (w n : ℕ) : (pad w n).all Char.isDigit = true := by
  induction w generalizing n with
  | zero => rfl
  | succ w ih =>
    rw [pad, List.all_append, ih, List.all_cons, List.all_nil,
      isDigit_digitChar (Nat.mod_lt _ (by omega))]
    rfl

theorem value_pad {w n : ℕ} (h : n < 10 ^ w) : value (pad w n) = n := by
  induction w generalizing n with
  | zero =>
    have : n = 0 := by omega
    subst this
    rfl
  | succ w ih =>
    have hn : n / 10 < 10 ^ w := by rw [Nat.pow_succ] at h; omega
    have hv := ih hn
    unfold value at hv ⊢
    rw [pad, List.foldl_append, hv, List.foldl_cons, List.foldl_nil,
      toNat_digitChar (Nat.mod_lt _ (by omega))]
    omega

/-- **A zero-padded number reads back.** -/
theorem digits_pad {w n : ℕ} (h : n < 10 ^ w) (r : List Char) :
    digits w (pad w n ++ r) = some (n, r) := by
  have ht : (pad w n ++ r).take w = pad w n := List.take_left' (length_pad w n)
  rw [digits, ht, if_pos ⟨length_pad w n, isDigit_pad w n⟩, value_pad h,
    List.drop_left' (length_pad w n)]

/-! ### The order of texts -/

/-- Texts of one length decide the order of what follows them. -/
theorem append_lt_append {α : Type} [LT α] {l₁ l₂ r₁ r₂ : List α} (h : l₁.length = l₂.length) :
    l₁ ++ r₁ < l₂ ++ r₂ ↔ l₁ < l₂ ∨ l₁ = l₂ ∧ r₁ < r₂ := by
  induction l₁ generalizing l₂ with
  | nil =>
    have : l₂ = [] := List.length_eq_zero_iff.mp h.symm
    subst this
    simp
  | cons a l₁ ih =>
    cases l₂ with
    | nil => simp at h
    | cons b l₂ =>
      have hl : l₁.length = l₂.length := by simpa using h
      simp only [List.cons_append, List.cons_lt_cons_iff, ih hl, List.cons.injEq]
      tauto

theorem digitChar_lt_digitChar {d e : ℕ} (hd : d < 10) (he : e < 10) :
    Nat.digitChar d < Nat.digitChar e ↔ d < e := by
  have h : Nat.digitChar d < Nat.digitChar e ↔
      (Nat.digitChar d).toNat < (Nat.digitChar e).toNat := Iff.rfl
  rw [h, toNat_digitChar hd, toNat_digitChar he]
  omega

theorem pad_inj {w n m : ℕ} (hn : n < 10 ^ w) (hm : m < 10 ^ w) : pad w n = pad w m ↔ n = m := by
  refine ⟨fun h => ?_, fun h => by rw [h]⟩
  rw [← value_pad hn, ← value_pad hm, h]

/-- **Zero-padded numbers compare as numbers.** -/
theorem pad_lt_pad {w n m : ℕ} (hn : n < 10 ^ w) (hm : m < 10 ^ w) :
    pad w n < pad w m ↔ n < m := by
  induction w generalizing n m with
  | zero =>
    have : n = 0 := by omega
    have : m = 0 := by omega
    subst n m
    simp [pad]
  | succ w ih =>
    have hn' : n / 10 < 10 ^ w := by rw [Nat.pow_succ] at hn; omega
    have hm' : m / 10 < 10 ^ w := by rw [Nat.pow_succ] at hm; omega
    have hlen : (pad w (n / 10)).length = (pad w (m / 10)).length := by simp
    have hlast : [Nat.digitChar (n % 10)] < [Nat.digitChar (m % 10)] ↔ n % 10 < m % 10 := by
      rw [List.cons_lt_cons_iff, digitChar_lt_digitChar (by omega) (by omega)]
      simp
    rw [pad, pad, append_lt_append hlen, ih hn' hm', pad_inj hn' hm', hlast]
    omega

end Python
