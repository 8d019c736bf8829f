import CloudCore.Python.JsonText
import Mathlib.Data.List.Infix

/-!
# The JSON object in the answer of a model

`_extract_json_object` of `scheduler.py`.

## Main definitions

* `extractJsonObject` — the code.
* `BracesBalance` — the braces of a text, those within strings included, are closed at its end for
  the first time.

## Main results

* `balanced_iff` — what the loop over the braces cuts out.
* `extractJsonObject_iff` — **an object is found in any prose iff the braces in its strings do not
  disturb the count.**
-/

namespace CloudCore
namespace Extract

open Python Python.JsonText
open Formats.Nesting (Block)

variable (parseFloat : List Char → Double) (limit : ℕ)

/-- The loop over the braces, at some depth: the text up to the brace that closes the first one. -/
def balanced (depth : ℤ) : List Char → Option (List Char)
  | [] => none
  | c :: l =>
    if c = '{' then (balanced (depth + 1) l).map (c :: ·)
    else if c = '}' then
      if depth - 1 = 0 then some [c] else (balanced (depth - 1) l).map (c :: ·)
    else (balanced depth l).map (c :: ·)

def extractJsonObject (text : List Char) : Except Exc Json :=
  match text.dropWhile (· ≠ '{') with
  | [] => .error .valueError
  | l =>
    match balanced 0 l with
    | none => .error .valueError
    | some t => loads parseFloat limit t

/-- How many more braces are opened than closed. -/
def opened (l : List Char) : ℤ := l.count '{' - l.count '}'

/-- The braces are closed at the end for the first time. -/
def BracesBalance (s : List Char) : Prop :=
  s.count '{' = s.count '}' ∧ ∀ p, p <+: s → p ≠ [] → p ≠ s → p.count '}' < p.count '{'

/-! ### The loop -/

theorem opened_cons (c : Char) (l : List Char) :
    opened (c :: l) = (if c = '{' then 1 else if c = '}' then -1 else 0) + opened l := by
  unfold opened
  rw [List.count_cons, List.count_cons]
  by_cases hopen : c = '{'
  · subst hopen
    simp
    omega
  · by_cases hclose : c = '}'
    · subst hclose
      simp
      omega
    · simp [hopen, hclose]

theorem getLast?_balanced {d : ℤ} {l t : List Char} (h : balanced d l = some t) :
    t.getLast? = some '}' := by
  -- what is cut out of the rest goes to the end
  have hmap {d : ℤ} {c : Char} {l : List Char} (ih : ∀ {d : ℤ} {t}, balanced d l = some t → t.getLast? = some '}')
      {t : List Char} (h : (balanced d l).map (c :: ·) = some t) : t.getLast? = some '}' := by
    obtain ⟨t', ht', rfl⟩ := Option.map_eq_some_iff.mp h
    rw [List.getLast?_cons, ih ht']
    rfl
  induction l generalizing d t with
  | nil => cases h
  | cons c l ih =>
    unfold balanced at h
    split at h
    · exact hmap ih h
    · split at h
      · next hclose =>
        split at h
        · obtain rfl := Option.some.inj h
          rw [hclose]
          rfl
        · exact hmap ih h
      · exact hmap ih h

/-- **The loop cuts out what closes the open braces for the first time.** -/
theorem balanced_iff {d : ℤ} (hd : 1 ≤ d) {l t : List Char} :
    balanced d l = some t ↔
      t <+: l ∧ d + opened t = 0 ∧ ∀ p, p <+: t → p ≠ t → 1 ≤ d + opened p := by
  induction l generalizing d t with
  | nil =>
    refine ⟨nofun, fun ⟨hpfx, hends, _⟩ => ?_⟩
    rw [List.prefix_nil.mp hpfx] at hends
    simp [opened] at hends
    omega
  | cons c l ih =>
    -- a text that is cut out of the rest, with the character before it
    have hmap {d' : ℤ} (hd' : 1 ≤ d') (hc : d' = d + opened [c]) :
        (balanced d' l).map (c :: ·) = some t ↔
          t <+: c :: l ∧ d + opened t = 0 ∧ ∀ p, p <+: t → p ≠ t → 1 ≤ d + opened p := by
      have hcons (x : List Char) : d + opened (c :: x) = d' + opened x := by
        rw [hc, opened_cons, opened_cons]
        simp [opened]
        omega
      constructor
      · intro h
        obtain ⟨t', ht', rfl⟩ := Option.map_eq_some_iff.mp h
        obtain ⟨hpfx, hends, habove⟩ := (ih hd').mp ht'
        refine ⟨(List.prefix_cons_inj c).mpr hpfx, by rw [hcons, hends], fun p hp hne => ?_⟩
        cases p with
        | nil => simpa [opened] using hd
        | cons a p =>
          obtain ⟨rfl, hrest⟩ := List.cons_prefix_cons.mp hp
          rw [hcons]
          exact habove p hrest fun h => hne (by rw [h])
      · rintro ⟨hpfx, hends, habove⟩
        cases t with
        | nil =>
          simp [opened] at hends
          omega
        | cons a t =>
          obtain ⟨rfl, htail⟩ := List.cons_prefix_cons.mp hpfx
          have hrest := (ih hd').mpr ⟨htail, by rw [← hcons, hends], fun p hp hne => by
            rw [← hcons]
            exact habove (a :: p) ((List.prefix_cons_inj a).mpr hp) fun h => hne (List.cons.inj h).2⟩
          rw [hrest]
          rfl
    unfold balanced
    split
    · next hopen => exact hmap (by omega) (by rw [opened_cons, if_pos hopen]; rfl)
    · next hopen =>
      split
      · next hclose =>
        have hdelta : opened [c] = -1 := by rw [opened_cons, if_neg hopen, if_pos hclose]; rfl
        split
        · next hzero =>
          rw [Option.some.injEq]
          constructor
          · rintro rfl
            refine ⟨⟨l, rfl⟩, by rw [hdelta]; omega, fun p hp hne => ?_⟩
            obtain hwhole | hnil : p = [] ++ [c] ∨ p <+: [] := List.prefix_concat_iff.mp hp
            · exact absurd hwhole hne
            · rw [List.prefix_nil.mp hnil]
              simpa [opened] using hd
          · rintro ⟨hpfx, hends, habove⟩
            cases t with
            | nil =>
              simp [opened] at hends
              omega
            | cons a t =>
              obtain ⟨rfl, -⟩ := List.cons_prefix_cons.mp hpfx
              by_contra hne
              -- the first brace has closed what is open
              have hfirst := habove [a] ⟨t, rfl⟩ hne
              rw [hdelta] at hfirst
              omega
        · next hzero => exact hmap (by omega) (by rw [hdelta]; rfl)
      · next hclose =>
        exact hmap hd (by rw [opened_cons, if_neg hopen, if_neg hclose]; simp [opened])

/-- What the loop cuts out of a text that begins with a brace. -/
theorem balanced_zero_iff {l t : List Char} :
    balanced 0 ('{' :: l) = some t ↔ t <+: '{' :: l ∧ t ≠ [] ∧ BracesBalance t := by
  have hcons (x : List Char) : opened ('{' :: x) = 1 + opened x := opened_cons _ _
  unfold balanced
  rw [if_pos rfl, Option.map_eq_some_iff]
  constructor
  · rintro ⟨t', ht', rfl⟩
    obtain ⟨hpfx, hends, habove⟩ := (balanced_iff (by decide)).mp ht'
    refine ⟨(List.prefix_cons_inj _).mpr hpfx, List.cons_ne_nil _ _, ?_, fun p hp hne hproper => ?_⟩
    · have hzero : opened ('{' :: t') = 0 := by rw [hcons]; omega
      unfold opened at hzero
      omega
    · cases p with
      | nil => exact absurd rfl hne
      | cons a p =>
        obtain ⟨rfl, hrest⟩ := List.cons_prefix_cons.mp hp
        have hle := habove p hrest fun h => hproper (by rw [h])
        have hpos : 1 ≤ opened ('{' :: p) := by rw [hcons]; omega
        unfold opened at hpos
        omega
  · rintro ⟨hpfx, hne, hends, habove⟩
    cases t with
    | nil => exact absurd rfl hne
    | cons a t =>
      obtain ⟨rfl, htail⟩ := List.cons_prefix_cons.mp hpfx
      refine ⟨t, (balanced_iff (by decide)).mpr ⟨htail, ?_, fun p hp hproper => ?_⟩, rfl⟩
      · have hzero : opened ('{' :: t) = 0 := by unfold opened; omega
        rw [hcons] at hzero
        omega
      · have hlt := habove ('{' :: p) ((List.prefix_cons_inj _).mpr hp) (List.cons_ne_nil _ _)
          fun h => hproper (List.cons.inj h).2
        have hpos : 1 ≤ opened ('{' :: p) := by unfold opened; omega
        rw [hcons] at hpos
        omega

/-! ### The object -/

section

variable {parseFloat limit} {s t : List Char} {fields : List (String × Json)}

/-- A text that is one object is read as such. -/
theorem loads_of_value (h : value parseFloat limit s = .ok (.obj fields, [])) :
    loads parseFloat limit s = .ok (.obj fields) := by
  obtain ⟨c, rfl, -⟩ := value_block parseFloat h
  have hskip : skipWs ('{' :: c ++ '}' :: []) = '{' :: c ++ '}' :: [] := rfl
  rw [loads, hskip, h]
  rfl

/-- What ends with a brace and is read as an object is a block. -/
theorem block_of_loads (hstart : t.head? = some '{') (hend : t.getLast? = some '}')
    (h : loads parseFloat limit t = .ok (.obj fields)) : Block step .out t := by
  obtain ⟨l, rfl⟩ : ∃ l, t = '{' :: l := by
    cases t with
    | nil => cases hstart
    | cons c l => exact ⟨l, by rw [Option.some.inj hstart]⟩
  have hskip : skipWs ('{' :: l) = '{' :: l := rfl
  rw [loads, hskip] at h
  split at h
  · cases h
  · next v rest hv =>
    split at h
    · next hrest =>
      obtain rfl := Except.ok.inj h
      obtain ⟨c, hl, hblock⟩ := value_block parseFloat hv
      -- white space behind the object would be the end
      have hnil : rest = [] := by
        cases hlast : rest.getLast? with
        | none => exact List.getLast?_eq_none_iff.mp hlast
        | some x =>
          have hsplit : '{' :: l = ('{' :: c ++ ['}']) ++ rest := by rw [hl]; simp
          rw [hsplit, List.getLast?_append, hlast] at hend
          have hws := List.dropWhile_eq_nil_iff.mp (List.isEmpty_iff.mp hrest) x (List.mem_of_getLast? hlast)
          rw [Option.some.inj hend] at hws
          exact absurd hws (by decide)
      rw [hl, hnil]
      exact hblock
    · cases h

/-- **An object is found in any prose iff the braces in its strings do not disturb the count.** -/
theorem extractJsonObject_iff {pre suffix : List Char} (hpre : '{' ∉ pre)
    (hs : value parseFloat limit s = .ok (.obj fields, [])) :
    extractJsonObject parseFloat limit (pre ++ s ++ suffix) = .ok (.obj fields) ↔
      BracesBalance s := by
  obtain ⟨c, hsc, hblock⟩ := value_block parseFloat hs
  have hdrop : (pre ++ s ++ suffix).dropWhile (· ≠ '{') = '{' :: (c ++ '}' :: suffix) := by
    rw [List.append_assoc, List.dropWhile_append_of_pos]
    · rw [hsc]
      simp
    · intro x hx
      exact decide_eq_true fun h => hpre (h ▸ hx)
  have hwhole : '{' :: (c ++ '}' :: suffix) = s ++ suffix := by rw [hsc]; simp
  have hpfx : s <+: '{' :: (c ++ '}' :: suffix) := ⟨suffix, hwhole.symm⟩
  unfold extractJsonObject
  rw [hdrop]
  dsimp only
  constructor
  · intro h
    split at h
    · cases h
    · next t ht =>
      obtain ⟨ht', hne, hbalance⟩ := balanced_zero_iff.mp ht
      have hhead : t.head? = some '{' := by
        cases t with
        | nil => exact absurd rfl hne
        | cons a t => rw [(List.cons_prefix_cons.mp ht').1]; rfl
      rwa [(block_of_loads hhead (getLast?_balanced ht) h).unique (hsc ▸ hblock) ht' hpfx] at hbalance
  · intro hbalance
    have hne : s ≠ [] := by rw [hsc]; exact List.cons_ne_nil _ _
    rw [balanced_zero_iff.mpr ⟨hpfx, hne, hbalance⟩]
    exact loads_of_value hs

end

/-- The text is an object with one string. -/
def isSingle (key string : String) (r : Except Exc (Json × List Char)) : Bool :=
  match r with
  | .ok (.obj [(k, .str v)], []) => k == key && v == string
  | _ => false

theorem eq_of_isSingle {key string : String} {r : Except Exc (Json × List Char)}
    (h : isSingle key string r = true) : r = .ok (.obj [(key, .str string)], []) := by
  unfold isSingle at h
  split at h
  · rw [Bool.and_eq_true, beq_iff_eq, beq_iff_eq] at h
    rw [h.1, h.2]
  · cases h

/-- An object with one string. -/
def exampleText (string : String) : List Char :=
  ['{', '"', 'a', '"', ':', ' ', '"'] ++ string.toList ++ ['"', '}']

theorem extractJsonObject_iff_plain :
    extractJsonObject (fun _ => .nan) 1 ("Yes: ".toList ++ exampleText "b" ++ ".".toList) =
        .ok (.obj [("a", .str "b")]) ↔
      BracesBalance (exampleText "b") :=
  extractJsonObject_iff (by decide) (eq_of_isSingle (by decide))

/-- An object with a brace in a string is not found. -/
theorem brace_in_string :
    value (fun _ => .nan) 1 (exampleText "\x7d") = .ok (.obj [("a", .str "\x7d")], []) ∧
      extractJsonObject (fun _ => .nan) 1 ([] ++ exampleText "\x7d" ++ []) ≠
        .ok (.obj [("a", .str "\x7d")]) := by
  refine ⟨eq_of_isSingle (by decide), fun h => ?_⟩
  have hfails : (extractJsonObject (fun _ => .nan) 1 ([] ++ exampleText "\x7d" ++ [])).isOk = false := by
    decide
  rw [h] at hfails
  cases hfails

end Extract
end CloudCore
