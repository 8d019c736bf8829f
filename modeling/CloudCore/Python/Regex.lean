import CloudCore.Python.Text

/-!
# Regular expressions

The expressions that `re` searches a text for: classes of characters, greedy repetition of a class,
`\b`, `$`, and looking ahead and behind.  Whether a character beyond ASCII is a letter is a
parameter.

## Main definitions

* `Re.ends` — where the matches at one place end, in the order in which `re` tries them.
* `Re.search`, `Re.fullmatch`, `Re.findall` — the methods.
* `Re.Lasting` — what is found in a text is found where the text goes on with another line.

## Main results

* `Re.search_lines` — **what is not found in two lines is not found in either.**
* `Re.findall_lines` — **what is found in two lines is what is found in the first, then in the
  second.**
* `Re.exists_mem_findallFrom` — every match lies in one of those found, or begins there.
-/

namespace Python

/-- A character of `\w`. -/
def isWord (letter : Char → Bool) (c : Char) : Bool :=
  if c.toNat < 128 then c.isAlphanum || c == '_' else letter c

inductive Re where
  | eps
  /-- `[q]`. -/
  | set (q : Char → Bool)
  | seq (r s : Re)
  | alt (r s : Re)
  /-- `[q]*`. -/
  | many (q : Char → Bool)
  /-- `\b`. -/
  | boundary
  /-- `(?!r)`. -/
  | notAhead (r : Re)
  /-- `(?<![q])`. -/
  | notBehind (q : Char → Bool)
  /-- `$`. -/
  | atEnd

/-- A place in a text: the character before it, and what follows. -/
structure Place where
  before : Option Char
  rest : List Char

namespace Re

def lit (s : String) : Re := s.toList.foldr (fun c r => .seq (.set (· == c)) r) .eps

def oneOf : List Re → Re
  | [] => .set fun _ => false
  | [r] => r
  | r :: rs => .alt r (oneOf rs)

/-- `[q]+`. -/
def some1 (q : Char → Bool) : Re := .seq (.set q) (.many q)

/-- `r?`. -/
def opt (r : Re) : Re := .alt r .eps

/-- The places along a run, the last one first. -/
def along (q : Char → Bool) (before : Option Char) : List Char → List Place
  | [] => [⟨before, []⟩]
  | c :: l => (if q c then along q (some c) l else []) ++ [⟨before, c :: l⟩]

variable (letter : Char → Bool)

/-- Between a character of a word and one that is none. -/
def isBoundary (p : Place) : Bool :=
  p.before.any (isWord letter) != p.rest.head?.any (isWord letter)

/-- The place itself, under a condition. -/
def here (c : Bool) (p : Place) : List Place := if c then [p] else []

/-- The places at which a match ends that begins here. -/
def ends : Re → Place → List Place
  | .eps, p => [p]
  | .set q, p =>
    match p.rest with
    | c :: l => if q c then [⟨some c, l⟩] else []
    | [] => []
  | .seq r s, p => (ends r p).flatMap (ends s)
  | .alt r s, p => ends r p ++ ends s p
  | .many q, p => along q p.before p.rest
  | .boundary, p => here (isBoundary letter p) p
  | .notAhead r, p => here (ends r p).isEmpty p
  | .notBehind q, p => here (!p.before.any q) p
  | .atEnd, p => here (p.rest.isEmpty || p.rest == ['\n']) p

def searchFrom (r : Re) (before : Option Char) : List Char → Bool
  | [] => !(r.ends letter ⟨before, []⟩).isEmpty
  | c :: l => !(r.ends letter ⟨before, c :: l⟩).isEmpty || searchFrom r (some c) l

/-- `re.search`. -/
def search (r : Re) (l : List Char) : Bool := r.searchFrom letter none l

/-- `re.fullmatch`. -/
def fullmatch (r : Re) (l : List Char) : Bool :=
  (r.ends letter ⟨none, l⟩).any fun p => p.rest.isEmpty

/-- The matches from a place on; the first `skip` characters belong to the match before. -/
def findallFrom (r : Re) (before : Option Char) : List Char → ℕ → List (List Char)
  | [], _ => if (r.ends letter ⟨before, []⟩).isEmpty then [] else [[]]
  | c :: l, skip + 1 => findallFrom r (some c) l skip
  | c :: l, 0 =>
    match (r.ends letter ⟨before, c :: l⟩).head? with
    | some p =>
      (c :: l).take (l.length + 1 - p.rest.length) ::
        findallFrom r (some c) l (l.length - p.rest.length)
    | none => findallFrom r (some c) l 0

/-- `re.findall` of a whole match. -/
def findall (r : Re) (l : List Char) : List (List Char) := r.findallFrom letter none l 0

/-- The text behind a place without the matches; the first `skip` characters belong to the match
before. -/
def removeFrom (r : Re) (before : Option Char) : List Char → ℕ → List Char
  | [], _ => []
  | c :: l, skip + 1 => removeFrom r (some c) l skip
  | c :: l, 0 =>
    match (r.ends letter ⟨before, c :: l⟩).head? with
    | some p =>
      if p.rest.length = l.length + 1 then c :: removeFrom r (some c) l 0
      else removeFrom r (some c) l (l.length - p.rest.length)
    | none => c :: removeFrom r (some c) l 0

/-- `re.sub("", text)`. -/
def remove (r : Re) (l : List Char) : List Char := r.removeFrom letter none l 0

variable {letter}

@[simp] theorem mem_here {c : Bool} {p p' : Place} : p' ∈ here c p ↔ c = true ∧ p' = p := by
  cases c <;> simp [here]

@[simp] theorem map_here (f : Place → Place) (c : Bool) (p : Place) :
    (here c p).map f = here c (f p) := by
  cases c <;> rfl

/-! ### Matches stay in the text -/

theorem getLast?_cons_or (c : Char) (x : List Char) (before : Option Char) :
    (c :: x).getLast?.or before = x.getLast?.or (some c) := by
  cases x with
  | nil => rfl
  | cons d x => rw [List.getLast?_cons_cons, List.getLast?_cons]; rfl

/-- The places along a run are those behind a part of it. -/
theorem mem_along {q : Char → Bool} {before : Option Char} {l : List Char} {p : Place} :
    p ∈ along q before l ↔
      ∃ u, l = u ++ p.rest ∧ (∀ c ∈ u, q c = true) ∧ p.before = u.getLast?.or before := by
  obtain ⟨before', rest⟩ := p
  induction l generalizing before with
  | nil =>
    rw [along, List.mem_singleton, Place.mk.injEq]
    constructor
    · rintro ⟨rfl, rfl⟩
      exact ⟨[], rfl, nofun, rfl⟩
    · rintro ⟨u, hl, -, hbefore⟩
      obtain ⟨rfl, rfl⟩ := List.append_eq_nil_iff.mp hl.symm
      exact ⟨hbefore, rfl⟩
  | cons c l ih =>
    rw [along, List.mem_append]
    constructor
    · intro h
      obtain h | h := h
      · split at h
        · next hc =>
          obtain ⟨u, hl, hu, hbefore⟩ := ih.mp h
          refine ⟨c :: u, congrArg (c :: ·) hl, List.forall_mem_cons.mpr ⟨hc, hu⟩, ?_⟩
          rw [hbefore, getLast?_cons_or]
        · cases h
      · cases List.mem_singleton.mp h
        exact ⟨[], rfl, nofun, rfl⟩
    · rintro ⟨u, hl, hu, hbefore⟩
      cases u with
      | nil =>
        obtain rfl : c :: l = rest := hl
        obtain rfl : before' = before := hbefore
        exact .inr (List.mem_singleton_self _)
      | cons d u =>
        obtain ⟨rfl, rfl⟩ := List.cons.inj hl
        rw [if_pos (hu _ List.mem_cons_self)]
        rw [getLast?_cons_or] at hbefore
        exact .inl (ih.mpr ⟨u, rfl, fun d hd => hu d (List.mem_cons_of_mem _ hd), hbefore⟩)

theorem suffix_of_mem_ends {r : Re} {p p' : Place} (h : p' ∈ r.ends letter p) :
    p'.rest <:+ p.rest := by
  induction r generalizing p p' with
  | eps =>
    obtain rfl := List.mem_singleton.mp h
    exact List.suffix_rfl
  | set q =>
    unfold ends at h
    split at h
    · next c l hrest =>
      split at h
      · rw [List.mem_singleton.mp h, hrest]
        exact List.suffix_cons c l
      · cases h
    · cases h
  | seq r s ihr ihs =>
    obtain ⟨m, hm, h⟩ := List.mem_flatMap.mp h
    exact (ihs h).trans (ihr hm)
  | alt r s ihr ihs =>
    obtain h | h := List.mem_append.mp h
    · exact ihr h
    · exact ihs h
  | many q =>
    obtain ⟨u, hl, -⟩ := mem_along.mp h
    exact ⟨u, hl.symm⟩
  | boundary | notAhead | notBehind | atEnd =>
    obtain rfl := (mem_here.mp h).2
    exact List.suffix_rfl

/-- No match of the expression is empty. -/
def consuming : Re → Bool
  | .set _ => true
  | .seq r s => r.consuming || s.consuming
  | .alt r s => r.consuming && s.consuming
  | _ => false

theorem length_lt_of_mem_ends {r : Re} (hr : r.consuming = true) {p p' : Place}
    (h : p' ∈ r.ends letter p) : p'.rest.length < p.rest.length := by
  induction r generalizing p p' with
  | set q =>
    unfold ends at h
    split at h
    · next c l hrest =>
      split at h
      · rw [List.mem_singleton.mp h, hrest]
        simp
      · cases h
    · cases h
  | seq r s ihr ihs =>
    obtain ⟨m, hm, h⟩ := List.mem_flatMap.mp h
    have hfirst := (suffix_of_mem_ends hm).length_le
    have hsecond := (suffix_of_mem_ends h).length_le
    rw [consuming, Bool.or_eq_true] at hr
    obtain hr | hs := hr
    · have := ihr hr hm
      omega
    · have := ihs hs h
      omega
  | alt r s ihr ihs =>
    rw [consuming, Bool.and_eq_true] at hr
    obtain h | h := List.mem_append.mp h
    · exact ihr hr.1 h
    · exact ihs hr.2 h
  | eps | many | boundary | notAhead | notBehind | atEnd => cases hr

theorem ends_nil {r : Re} (hr : r.consuming = true) (before : Option Char) :
    r.ends letter ⟨before, []⟩ = [] := by
  cases h : r.ends letter ⟨before, []⟩ with
  | nil => rfl
  | cons p ps =>
    have := length_lt_of_mem_ends hr (h ▸ List.mem_cons_self : p ∈ r.ends letter ⟨before, []⟩)
    simp at this

/-! ### Another line behind the text -/

/-- The place in the text with another line. -/
def goOn (b : List Char) (p : Place) : Place := ⟨p.before, p.rest ++ '\n' :: b⟩

/-- No match runs over the end of a line. -/
def inLine : Re → Bool
  | .eps | .boundary | .notBehind _ => true
  | .set q | .many q => !q '\n'
  | .seq r s | .alt r s => r.inLine && s.inLine
  | .notAhead r => r.inLine
  | .atEnd => false

theorem isBoundary_goOn (b : List Char) (p : Place) :
    isBoundary letter (goOn b p) = isBoundary letter p := by
  obtain ⟨before, rest⟩ := p
  cases rest with
  | nil => simp [isBoundary, goOn, isWord]
  | cons c l => rfl

theorem along_goOn {q : Char → Bool} (hq : q '\n' = false) (before : Option Char)
    (l b : List Char) :
    along q before (l ++ '\n' :: b) = (along q before l).map (goOn b) := by
  induction l generalizing before with
  | nil => simp [along, hq, goOn]
  | cons c l ih =>
    rw [List.cons_append, along, along, List.map_append]
    congr 1
    split
    · exact ih (some c)
    · rfl

/-- **A match in a line is the same where the text goes on.** -/
theorem ends_goOn {r : Re} (hr : r.inLine = true) (b : List Char) (p : Place) :
    r.ends letter (goOn b p) = (r.ends letter p).map (goOn b) := by
  induction r generalizing p with
  | eps => rfl
  | set q =>
    obtain ⟨before, rest⟩ := p
    have hq : q '\n' = false := by simpa [inLine] using hr
    cases rest with
    | nil => simp [ends, goOn, hq]
    | cons c l =>
      simp only [ends, goOn, List.cons_append]
      split <;> rfl
  | seq r s ihr ihs =>
    rw [inLine, Bool.and_eq_true] at hr
    rw [ends, ends, ihr hr.1, List.flatMap_map, List.map_flatMap]
    exact List.flatMap_congr fun m _ => ihs hr.2 m
  | alt r s ihr ihs =>
    rw [inLine, Bool.and_eq_true] at hr
    rw [ends, ends, ihr hr.1, ihs hr.2, List.map_append]
  | many q => exact along_goOn (by simpa [inLine] using hr) _ _ _
  | boundary => rw [ends, ends, isBoundary_goOn, map_here]
  | notAhead r ih => rw [ends, ends, ih hr, List.isEmpty_map, map_here]
  | notBehind q =>
    rw [ends, ends, map_here]
    rfl
  | atEnd => cases hr

/-- What the expression matches it matches where the text goes on. -/
def steady : Re → Bool
  | .eps | .set _ | .many _ | .boundary | .notBehind _ => true
  | .seq r s | .alt r s => r.steady && s.steady
  | .notAhead r => r.inLine
  | .atEnd => false

theorem mem_ends_goOn {r : Re} (hr : r.steady = true) (b : List Char) {p p' : Place}
    (h : p' ∈ r.ends letter p) : goOn b p' ∈ r.ends letter (goOn b p) := by
  induction r generalizing p p' with
  | eps =>
    rw [List.mem_singleton.mp h]
    exact List.mem_singleton_self _
  | set q =>
    obtain ⟨before, rest⟩ := p
    cases rest with
    | nil => cases h
    | cons c l =>
      simp only [ends, goOn, List.cons_append] at h ⊢
      split at h
      · next hc =>
        rw [if_pos hc, List.mem_singleton.mp h]
        exact List.mem_singleton_self _
      · cases h
  | seq r s ihr ihs =>
    rw [steady, Bool.and_eq_true] at hr
    obtain ⟨m, hm, h⟩ := List.mem_flatMap.mp h
    exact List.mem_flatMap.mpr ⟨goOn b m, ihr hr.1 hm, ihs hr.2 h⟩
  | alt r s ihr ihs =>
    rw [steady, Bool.and_eq_true] at hr
    obtain h | h := List.mem_append.mp h
    · exact List.mem_append_left _ (ihr hr.1 h)
    · exact List.mem_append_right _ (ihs hr.2 h)
  | many q =>
    obtain ⟨u, hl, hu⟩ := mem_along.mp h
    exact mem_along.mpr ⟨u, by rw [goOn, hl]; exact List.append_assoc .., hu⟩
  | boundary =>
    obtain ⟨hp, rfl⟩ := mem_here.mp h
    exact mem_here.mpr ⟨(isBoundary_goOn b _).trans hp, rfl⟩
  | notAhead r =>
    obtain ⟨hp, rfl⟩ := mem_here.mp h
    refine mem_here.mpr ⟨?_, rfl⟩
    rw [ends_goOn hr, List.isEmpty_map]
    exact hp
  | notBehind q =>
    obtain ⟨hp, rfl⟩ := mem_here.mp h
    exact mem_here.mpr ⟨hp, rfl⟩
  | atEnd => cases hr

/-- Where something is found, something is found when the text goes on. -/
def Lasting (letter : Char → Bool) (r : Re) : Prop :=
  ∀ b p, r.ends letter p ≠ [] → r.ends letter (goOn b p) ≠ []

theorem lasting_of_steady {r : Re} (hr : r.steady = true) : r.Lasting letter := by
  intro b p h
  obtain ⟨p', hp'⟩ := List.exists_mem_of_ne_nil _ h
  exact List.ne_nil_of_mem (mem_ends_goOn hr b hp')

theorem Lasting.seq {r s : Re} (hr : r.steady = true) (hs : s.Lasting letter) :
    (Re.seq r s).Lasting letter := by
  intro b p h
  obtain ⟨p', hp'⟩ := List.exists_mem_of_ne_nil _ h
  obtain ⟨m, hm, hp'⟩ := List.mem_flatMap.mp hp'
  obtain ⟨q, hq⟩ := List.exists_mem_of_ne_nil _ (hs b m (List.ne_nil_of_mem hp'))
  exact List.ne_nil_of_mem (List.mem_flatMap.mpr ⟨_, mem_ends_goOn hr b hm, hq⟩)

theorem Lasting.alt {r s : Re} (hr : r.Lasting letter) (hs : s.Lasting letter) :
    (Re.alt r s).Lasting letter := by
  intro b p h hnil
  obtain ⟨hrnil, hsnil⟩ := List.append_eq_nil_iff.mp hnil
  refine h (List.append_eq_nil_iff.mpr ⟨?_, ?_⟩)
  · by_contra hne
    exact hr b p hne hrnil
  · by_contra hne
    exact hs b p hne hsnil

/-- `(?:[q]|$)`: where the text ends, the end of the line follows instead. -/
theorem lasting_orEnd {q : Char → Bool} (hq : q '\n' = true) :
    (Re.alt (.set q) .atEnd).Lasting letter := by
  rintro b ⟨before, rest⟩ h
  cases rest with
  | nil => simp [ends, goOn, hq]
  | cons c l =>
    cases hc : q c with
    | true => simp [ends, goOn, hc]
    | false =>
      have hend : (c :: l) = ['\n'] := by simpa [ends, hc, here] using h
      cases hend
      rw [hq] at hc
      cases hc

/-! ### A line before the text -/

/-- The place in the text behind another line. -/
def behindLine (p : Place) : Place := ⟨some (p.before.getD '\n'), p.rest⟩

/-- The beginning of the text looks from there like the beginning of a line. -/
def lineStart : Re → Bool
  | .notBehind q => !q '\n'
  | .seq r s | .alt r s => r.lineStart && s.lineStart
  | .notAhead r => r.lineStart
  | _ => true

theorem along_behindLine (q : Char → Bool) (p : Place) :
    along q (behindLine p).before p.rest = (along q p.before p.rest).map behindLine := by
  obtain ⟨before, rest⟩ := p
  have hsome (c : Char) (l : List Char) :
      (along q (some c) l).map behindLine = along q (some c) l := by
    induction l generalizing c with
    | nil => rfl
    | cons d l ih =>
      rw [along, List.map_append]
      congr 1
      split
      · exact ih d
      · rfl
  cases rest with
  | nil => rfl
  | cons c l =>
    show along q _ (c :: l) = (along q before (c :: l)).map _
    rw [along, along, List.map_append]
    congr 1
    split
    · exact (hsome c l).symm
    · rfl

theorem isBoundary_behindLine (p : Place) :
    isBoundary letter (behindLine p) = isBoundary letter p := by
  obtain ⟨before, rest⟩ := p
  cases before with
  | none => simp [isBoundary, behindLine, isWord]
  | some c => rfl

theorem ends_behindLine {r : Re} (hr : r.lineStart = true) (p : Place) :
    r.ends letter (behindLine p) = (r.ends letter p).map behindLine := by
  induction r generalizing p with
  | eps => rfl
  | set q =>
    obtain ⟨before, rest⟩ := p
    cases rest with
    | nil => rfl
    | cons c l =>
      simp only [ends, behindLine]
      split <;> rfl
  | seq r s ihr ihs =>
    rw [lineStart, Bool.and_eq_true] at hr
    rw [ends, ends, ihr hr.1, List.flatMap_map, List.map_flatMap]
    exact List.flatMap_congr fun m _ => ihs hr.2 m
  | alt r s ihr ihs =>
    rw [lineStart, Bool.and_eq_true] at hr
    rw [ends, ends, ihr hr.1, ihs hr.2, List.map_append]
  | many q => exact along_behindLine q p
  | boundary => rw [ends, ends, isBoundary_behindLine, map_here]
  | notAhead r ih => rw [ends, ends, ih hr, List.isEmpty_map, map_here]
  | notBehind q =>
    obtain ⟨before, rest⟩ := p
    have hq : q '\n' = false := by simpa [lineStart] using hr
    rw [ends, ends, map_here]
    cases before with
    | none => simp [behindLine, hq]
    | some c => rfl
  | atEnd =>
    rw [ends, ends, map_here]
    rfl

/-! ### Two lines -/

theorem searchFrom_behindLine {r : Re} (hr : r.lineStart = true) (l : List Char) :
    r.searchFrom letter (some '\n') l = r.searchFrom letter none l := by
  have hplace : r.ends letter ⟨some '\n', l⟩ = (r.ends letter ⟨none, l⟩).map behindLine :=
    ends_behindLine hr ⟨none, l⟩
  cases l with
  | nil => rw [searchFrom, searchFrom, hplace, List.isEmpty_map]
  | cons c l => rw [searchFrom, searchFrom, hplace, List.isEmpty_map]

theorem searchFrom_lines {r : Re} (hr : r.Lasting letter) {before : Option Char} {a b : List Char}
    (h : r.searchFrom letter before (a ++ '\n' :: b) = false) :
    r.searchFrom letter before a = false ∧ r.searchFrom letter (some '\n') b = false := by
  have hhere (before : Option Char) (a : List Char)
      (h : (r.ends letter ⟨before, a ++ '\n' :: b⟩).isEmpty = true) :
      (r.ends letter ⟨before, a⟩).isEmpty = true := by
    rw [List.isEmpty_iff] at h ⊢
    by_contra hne
    exact hr b ⟨before, a⟩ hne h
  induction a generalizing before with
  | nil =>
    rw [List.nil_append, searchFrom, Bool.or_eq_false_iff, Bool.not_eq_false'] at h
    refine ⟨?_, h.2⟩
    rw [searchFrom, hhere before [] h.1]
    rfl
  | cons c a ih =>
    rw [List.cons_append, searchFrom, Bool.or_eq_false_iff, Bool.not_eq_false'] at h
    obtain ⟨ha, hb⟩ := ih h.2
    refine ⟨?_, hb⟩
    rw [searchFrom, hhere before (c :: a) h.1, ha]
    rfl

/-- **What is not found in two lines is not found in either.** -/
theorem search_lines {r : Re} (hr : r.Lasting letter) (hstart : r.lineStart = true)
    {a b : List Char} (h : r.search letter (a ++ '\n' :: b) = false) :
    r.search letter a = false ∧ r.search letter b = false := by
  obtain ⟨ha, hb⟩ := searchFrom_lines hr h
  exact ⟨ha, (searchFrom_behindLine hstart b).symm.trans hb⟩

theorem findallFrom_behindLine {r : Re} (hr : r.lineStart = true) (l : List Char) :
    r.findallFrom letter (some '\n') l 0 = r.findallFrom letter none l 0 := by
  have hplace : r.ends letter ⟨some '\n', l⟩ = (r.ends letter ⟨none, l⟩).map behindLine :=
    ends_behindLine hr ⟨none, l⟩
  cases l with
  | nil => rw [findallFrom, findallFrom, hplace, List.isEmpty_map]
  | cons c l =>
    rw [findallFrom, findallFrom, hplace]
    cases r.ends letter ⟨none, c :: l⟩ with
    | nil => rfl
    | cons p ps => rfl

theorem findallFrom_of_ends_nil {r : Re} {before : Option Char} {c : Char} {l : List Char}
    (h : r.ends letter ⟨before, c :: l⟩ = []) :
    r.findallFrom letter before (c :: l) 0 = r.findallFrom letter (some c) l 0 := by
  rw [findallFrom, h]
  rfl

theorem findallFrom_lines {r : Re} (hr : r.inLine = true) (hne : r.consuming = true)
    (b : List Char) (before : Option Char) (a : List Char) (skip : ℕ) (hskip : skip ≤ a.length) :
    r.findallFrom letter before (a ++ '\n' :: b) skip =
      r.findallFrom letter before a skip ++ r.findallFrom letter (some '\n') b 0 := by
  induction a generalizing before skip with
  | nil =>
    obtain rfl : skip = 0 := Nat.le_zero.mp hskip
    have hends : r.ends letter ⟨before, '\n' :: b⟩ = [] :=
      (ends_goOn hr b ⟨before, []⟩).trans (by rw [ends_nil hne]; rfl)
    have hnil : r.findallFrom letter before [] 0 = [] := by
      rw [findallFrom, ends_nil hne]
      rfl
    rw [List.nil_append, findallFrom_of_ends_nil hends, hnil, List.nil_append]
  | cons c a ih =>
    rw [List.cons_append]
    cases skip with
    | succ skip => exact ih (some c) skip (by simpa using hskip)
    | zero =>
      have hends : r.ends letter ⟨before, c :: (a ++ '\n' :: b)⟩ =
          (r.ends letter ⟨before, c :: a⟩).map (goOn b) := ends_goOn hr b ⟨before, c :: a⟩
      rw [findallFrom, findallFrom, hends, List.head?_map]
      cases hhead : (r.ends letter ⟨before, c :: a⟩).head? with
      | none => exact ih (some c) 0 (Nat.zero_le _)
      | some p =>
        have hsuffix := suffix_of_mem_ends (List.mem_of_mem_head? (Option.mem_def.mpr hhead))
        have hlen : p.rest.length ≤ a.length + 1 := by simpa using hsuffix.length_le
        have htake : (a ++ '\n' :: b).length + 1 - (goOn b p).rest.length =
            a.length + 1 - p.rest.length := by
          simp only [goOn, List.length_append]
          omega
        have hdrop : (a ++ '\n' :: b).length - (goOn b p).rest.length =
            a.length - p.rest.length := by
          simp only [goOn, List.length_append]
          omega
        have htext : (c :: (a ++ '\n' :: b)).take (a.length + 1 - p.rest.length) =
            (c :: a).take (a.length + 1 - p.rest.length) := by
          rw [← List.cons_append]
          exact List.take_append_of_le_length (Nat.sub_le _ _)
        simp only [Option.map_some]
        rw [htake, hdrop, htext, ih (some c) _ (Nat.sub_le _ _)]
        rfl

/-- **What is found in two lines is what is found in the first, then in the second.** -/
theorem findall_lines {r : Re} (hr : r.inLine = true) (hne : r.consuming = true)
    (hstart : r.lineStart = true) (a b : List Char) :
    r.findall letter (a ++ '\n' :: b) = r.findall letter a ++ r.findall letter b := by
  rw [findall, findallFrom_lines hr hne b none a 0 (Nat.zero_le _), findallFrom_behindLine hstart]
  rfl

/-! ### Every match -/

/-- The search finds what begins at some place. -/
theorem searchFrom_iff {r : Re} {before : Option Char} {l : List Char} :
    r.searchFrom letter before l = true ↔
      ∃ x y, l = x ++ y ∧ ∃ p, p ∈ r.ends letter ⟨x.getLast?.or before, y⟩ := by
  have hends (p : Place) : (!(r.ends letter p).isEmpty) = true ↔ ∃ p', p' ∈ r.ends letter p := by
    rw [Bool.not_eq_true', List.isEmpty_eq_false_iff_exists_mem]
  induction l generalizing before with
  | nil =>
    rw [searchFrom, hends]
    exact ⟨fun h => ⟨[], [], rfl, h⟩, fun ⟨x, y, hxy, h⟩ => by
      obtain ⟨rfl, rfl⟩ := List.append_eq_nil_iff.mp hxy.symm
      exact h⟩
  | cons c l ih =>
    rw [searchFrom, Bool.or_eq_true, hends]
    refine (or_congr_right ih).trans ⟨?_, ?_⟩
    · rintro (h | ⟨x, y, rfl, h⟩)
      · exact ⟨[], c :: l, rfl, h⟩
      · exact ⟨c :: x, y, rfl, by rwa [getLast?_cons_or]⟩
    · rintro ⟨x, y, hxy, h⟩
      cases x with
      | nil => exact .inl (hxy ▸ h)
      | cons d x =>
        obtain ⟨rfl, rfl⟩ := List.cons.inj hxy
        rw [getLast?_cons_or] at h
        exact .inr ⟨x, y, rfl, h⟩

/-- A match that is found is one at some place. -/
theorem exists_of_mem_findallFrom {r : Re} {before : Option Char} {l w : List Char} {skip : ℕ}
    (h : w ∈ r.findallFrom letter before l skip) :
    ∃ before y, y <:+ l ∧ r.ends letter ⟨before, y⟩ ≠ [] := by
  induction l generalizing before skip with
  | nil =>
    rw [findallFrom] at h
    split at h
    · cases h
    · next hends => exact ⟨before, [], List.suffix_rfl, by simpa using hends⟩
  | cons c l ih =>
    -- one that is found behind the first character
    have hlater {skip : ℕ} (h : w ∈ r.findallFrom letter (some c) l skip) :
        ∃ before y, y <:+ c :: l ∧ r.ends letter ⟨before, y⟩ ≠ [] := by
      obtain ⟨before, y, hy, hends⟩ := ih h
      exact ⟨before, y, hy.trans (List.suffix_cons c l), hends⟩
    cases skip with
    | succ skip => exact hlater h
    | zero =>
      rw [findallFrom] at h
      split at h
      · next p hp =>
        refine ⟨before, c :: l, List.suffix_rfl, ?_⟩
        exact List.ne_nil_of_mem (List.mem_of_mem_head? (Option.mem_def.mpr hp))
      · exact hlater h

/-- A match is the text up to the place where it ends. -/
theorem take_append_rest {r : Re} {before : Option Char} {l : List Char} {p : Place}
    (h : p ∈ r.ends letter ⟨before, l⟩) : l.take (l.length - p.rest.length) ++ p.rest = l := by
  obtain ⟨w, hw⟩ := suffix_of_mem_ends h
  have hl : l = w ++ p.rest := hw.symm
  rw [hl]
  simp

/-- **Every match lies in one of those found, or begins there**: `x` is the text before it. -/
theorem exists_mem_findallFrom {r : Re} (hne : r.consuming = true) {before : Option Char}
    {x y : List Char} {skip : ℕ} (hskip : skip ≤ x.length)
    (h : r.ends letter ⟨x.getLast?.or before, y⟩ ≠ []) :
    ∃ x' w y', x ++ y = x' ++ (w ++ y') ∧ w ∈ r.findallFrom letter before (x ++ y) skip ∧
      (x' = x ∨ x'.length < x.length ∧ x.length < x'.length + w.length) ∧
      ∃ p ∈ r.ends letter ⟨x'.getLast?.or before, w ++ y'⟩, p.rest = y' := by
  induction x generalizing before skip with
  | nil =>
    obtain rfl : skip = 0 := Nat.le_zero.mp hskip
    cases y with
    | nil => exact absurd (ends_nil hne _) h
    | cons c l =>
      obtain ⟨p, ps, hp⟩ := List.exists_cons_of_ne_nil h
      have hmem : p ∈ r.ends letter ⟨before, c :: l⟩ := by
        show p ∈ r.ends letter ⟨([] : List Char).getLast?.or before, c :: l⟩
        rw [hp]
        exact List.mem_cons_self
      have htext := take_append_rest hmem
      refine ⟨[], (c :: l).take (l.length + 1 - p.rest.length), p.rest, htext.symm, ?_, .inl rfl, p, ?_,
        rfl⟩
      · have hhead : (r.ends letter ⟨before, c :: l⟩).head? = some p := by
          show (r.ends letter ⟨([] : List Char).getLast?.or before, c :: l⟩).head? = some p
          rw [hp]
          rfl
        rw [List.nil_append, findallFrom, hhead]
        exact List.mem_cons_self
      · show p ∈ r.ends letter ⟨before, (c :: l).take ((c :: l).length - p.rest.length) ++ p.rest⟩
        rw [htext]
        exact hmem
  | cons c x ih =>
    rw [getLast?_cons_or] at h
    -- what is found behind the first character
    have hlater {skip : ℕ} (hskip : skip ≤ x.length) :
        ∃ x' w y', c :: x ++ y = x' ++ (w ++ y') ∧
          w ∈ r.findallFrom letter (some c) (x ++ y) skip ∧
          (x' = c :: x ∨ x'.length < (c :: x).length ∧
            (c :: x).length < x'.length + w.length) ∧
          ∃ p ∈ r.ends letter ⟨x'.getLast?.or before, w ++ y'⟩, p.rest = y' := by
      obtain ⟨x', w, y', htext, hw, hx, p, hp, hrest⟩ := ih hskip h
      refine ⟨c :: x', w, y', congrArg (c :: ·) htext, hw, ?_, p, ?_, hrest⟩
      · obtain rfl | hx := hx
        · exact .inl rfl
        · exact .inr (by simp only [List.length_cons]; omega)
      · rw [getLast?_cons_or]
        exact hp
    cases skip with
    | succ skip =>
      rw [List.cons_append, findallFrom]
      exact hlater (by simpa using hskip)
    | zero =>
      cases hhead : (r.ends letter ⟨before, c :: (x ++ y)⟩).head? with
      | none =>
        rw [List.cons_append, findallFrom, hhead]
        exact hlater (Nat.zero_le _)
      | some p =>
        have hmem := List.mem_of_mem_head? (Option.mem_def.mpr hhead)
        have hlen : p.rest.length < (c :: (x ++ y)).length := length_lt_of_mem_ends hne hmem
        have htext := take_append_rest hmem
        rw [List.cons_append, findallFrom, hhead]
        by_cases hin : (c :: x).length < (c :: (x ++ y)).length - p.rest.length
        · refine ⟨[], (c :: (x ++ y)).take ((c :: (x ++ y)).length - p.rest.length), p.rest,
            htext.symm, List.mem_cons_self, .inr ⟨by simp, ?_⟩, p, ?_, rfl⟩
          · simp only [List.length_cons, List.length_append, List.length_nil, List.length_take] at hin ⊢
            omega
          · rw [htext]
            exact hmem
        · have hskip : (x ++ y).length - p.rest.length ≤ x.length := by
            simp only [List.length_cons, List.length_append] at hin hlen ⊢
            omega
          obtain ⟨x', w, y', htext', hw, hx⟩ := hlater hskip
          exact ⟨x', w, y', htext', List.mem_cons_of_mem _ hw, hx⟩

/-! ### Texts and choices -/

theorem mem_ends_lit {s : String} {p p' : Place} : p' ∈ (lit s).ends letter p ↔
    p.rest = s.toList ++ p'.rest ∧ p'.before = s.toList.getLast?.or p.before := by
  unfold lit
  generalize s.toList = l
  induction l generalizing p with
  | nil =>
    obtain ⟨before, rest⟩ := p
    obtain ⟨before', rest'⟩ := p'
    simp [ends, eq_comm, and_comm]
  | cons c l ih =>
    obtain ⟨before, rest⟩ := p
    cases rest with
    | nil => simp [ends]
    | cons d rest =>
      by_cases hd : d = c
      · simp [ends, hd, ih, getLast?_cons_or]
      · simp [ends, hd]

theorem mem_ends_some1 {q : Char → Bool} {p p' : Place} (h : p' ∈ (some1 q).ends letter p) :
    ∃ u, u ≠ [] ∧ p.rest = u ++ p'.rest ∧ (∀ c ∈ u, q c = true) ∧
      p'.before = u.getLast?.or p.before := by
  obtain ⟨m, hm, hmany⟩ := List.mem_flatMap.mp h
  obtain ⟨before, rest⟩ := p
  cases rest with
  | nil => cases hm
  | cons c l =>
    simp only [ends] at hm
    split at hm
    · next hc =>
      rw [List.mem_singleton.mp hm] at hmany
      obtain ⟨u, hl, hu, hbefore⟩ := mem_along.mp hmany
      refine ⟨c :: u, List.cons_ne_nil _ _, congrArg (c :: ·) hl,
        List.forall_mem_cons.mpr ⟨hc, hu⟩, ?_⟩
      rw [hbefore, getLast?_cons_or]
    · cases hm

theorem mem_ends_oneOf {rs : List Re} {p p' : Place} :
    p' ∈ (oneOf rs).ends letter p ↔ ∃ r ∈ rs, p' ∈ r.ends letter p := by
  induction rs with
  | nil =>
    obtain ⟨before, rest⟩ := p
    cases rest <;> simp [oneOf, ends]
  | cons r rs ih =>
    cases rs with
    | nil => simp [oneOf]
    | cons s rs =>
      show p' ∈ r.ends letter p ++ (oneOf (s :: rs)).ends letter p ↔ _
      rw [List.mem_append, ih]
      simp

end Re
end Python
