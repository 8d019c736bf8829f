import CloudCore.Formats.FirstValue
import CloudCore.Python.Regex
import Mathlib.Data.List.DropRight

/-!
# Editing a configuration file

An answer shows a part of a configuration file, and `_edit_config` in `advice_runner.py` makes the file look
like it: a key is set in its section, a directive takes the place of the first one.

## Main definitions

* `editConfig` — the file afterwards, or none where it is not found in the file what has just been added.
* `wanted` — the settings of a block, each with its section and key.
* `linesFor` — the lines of a file for a key, the first of which counts.
* `Meets` — all settings are in effect, nothing else is lost, and doing it again changes nothing.

## Main results

* `meets_iff` — **a block is put in exactly if its lines for one key agree and its sections have names.**
* `hostKey_lost` — of two lines for one key the first is lost.
-/

namespace CloudCore
namespace EditConfig

open Python Formats.FirstValue

abbrev Line := List Char

/-- What `re` and `str` know of characters beyond ASCII. -/
structure Alphabet where
  /-- A letter of `\w`. -/
  letter : Char → Bool
  /-- What is compared under `re.IGNORECASE`. -/
  fold : Char → Char
  /-- `str.lower`. -/
  lower : List Char → List Char
  fold_ascii : ∀ c, c.toNat < 128 → fold c = c.toLower
  isSpace_fold : ∀ c, isSpace (fold c) = isSpace c

theorem isSpace_toLower (c : Char) : isSpace c.toLower = isSpace c := by
  by_cases hascii : c.toNat < 128
  · have hall : ∀ n < 128, isSpace (Char.ofNat n).toLower = isSpace (Char.ofNat n) := by decide
    have hc := hall c.toNat hascii
    rwa [Char.ofNat_toNat] at hc
  · have hsame : c.toLower = c := by
      refine dif_neg fun hupper => hascii ?_
      have hle := UInt32.le_iff_toNat_le.mp hupper.2
      have hz : 'Z'.val.toNat = 90 := rfl
      rw [Char.toNat]
      omega
    rw [hsame]

/-- Characters beyond ASCII are no letters. -/
def ascii : Alphabet := ⟨fun _ => false, Char.toLower, List.map Char.toLower, fun _ _ => rfl, isSpace_toLower⟩

/-! ### What a line says -/

/-- The line without its blanks and its comment sign, `^\s*#?\s*`. -/
def uncomment (l : Line) : Line :=
  match l.dropWhile isSpace with
  | '#' :: r => r.dropWhile isSpace
  | r => r

def isComment (l : Line) : Bool := (l.dropWhile isSpace).head? = some '#'

def isBlank (l : Line) : Bool := l.all isSpace

/-- `_INI_SECTION_RE`, the name stripped. -/
def header (l : Line) : Option Line :=
  match l.dropWhile isSpace with
  | '[' :: r =>
    match r.dropWhile (· ≠ ']') with
    | _ :: rest =>
      if r.takeWhile (· ≠ ']') ≠ [] ∧ isBlank rest then some (stripBy isSpace (r.takeWhile (· ≠ ']'))) else none
    | [] => none
  | _ => none

def isKeyChar (c : Char) : Bool := c.isAlphanum || c == '_' || c == '.' || c == '-'

/-- `_INI_KEY_RE`, the key; it may be commented out. -/
def iniKey (l : Line) : Option Line :=
  let r := uncomment l
  if r.takeWhile isKeyChar ≠ [] ∧
      ((r.dropWhile isKeyChar).dropWhile isSpace).head?.any (fun c => c = '=' ∨ c = ':') then
    some (r.takeWhile isKeyChar)
  else none

def sectionNames (lines : List Line) : List Line := lines.filterMap header

variable (A : Alphabet)

/-- `^\s*#?\s*key(\s|$)`, whatever the case. -/
def matchesKey (key l : Line) : Bool :=
  let r := uncomment l
  (r.take key.length).map A.fold = key.map A.fold ∧ (r.drop key.length).head?.all isSpace

/-- `^[A-Za-z][\w-]*\s+\S`, of the stripped line. -/
def isDirective (l : Line) : Bool :=
  match stripBy isSpace l with
  | c :: r =>
    let rest := r.dropWhile fun c => isWord A.letter c || c == '-'
    c.isAlpha && rest.head?.any isSpace && !isBlank rest
  | [] => false

/-- The first word of a line. -/
def firstWord (l : Line) : Line := (stripBy isSpace l).takeWhile (!isSpace ·)

/-- The tag of a line `<Tag …>`. -/
def openTag (l : Line) : Option Line :=
  match l.dropWhile isSpace with
  | '<' :: r =>
    let rest := r.dropWhile (isWord A.letter)
    match rest.dropWhile (· ≠ '>') with
    | _ :: back =>
      if r.takeWhile (isWord A.letter) ≠ [] ∧ (rest.takeWhile (· ≠ '>')).head?.all isSpace ∧ isBlank back then
        some (r.takeWhile (isWord A.letter))
      else none
    | [] => none
  | _ => none

/-- What stands behind `</tag>`. -/
def behindClose (tag l : Line) : Option Line :=
  match l.dropWhile isSpace with
  | '<' :: '/' :: r =>
    if (r.take tag.length).map A.fold = tag.map A.fold then
      match r.drop tag.length with
      | '>' :: back => some back
      | _ => none
    else none
  | _ => none

/-- `re.sub(r"\s+", " ", …)`. -/
def squeeze : Line → Line
  | [] => []
  | c :: l => if isSpace c then if l.head?.any isSpace then squeeze l else ' ' :: squeeze l else c :: squeeze l

def norm (l : Line) : Line :=
  squeeze (A.lower (((stripBy isSpace l).rdropWhile fun c => c = '/' ∨ c = '>').rdropWhile (· = '/')))

/-! ### The edit -/

/-- `'\n'.join(lines) + '\n'`. -/
def unlines (lines : List Line) : List Char := ['\n'].intercalate lines ++ ['\n']

/-- The lines of a block that say something. -/
def blockLines (block : List Char) : List Line :=
  (splitlines block).filter fun b => !isBlank b && !isComment b

/-- A key is set in the section that begins at `start`: the first line for it is replaced, or one is added
before the blank lines at the end. -/
def setInSection (key line : Line) (lines : List Line) (start : ℕ) : List Line :=
  let front := lines.take (start + 1)
  let body := (lines.drop (start + 1)).takeWhile (header · = none)
  let rest := (lines.drop (start + 1)).dropWhile (header · = none)
  match body.findIdx? (iniKey · = some key) with
  | some i => front ++ body.set i line ++ rest
  | none => front ++ (body.rdropWhile isBlank ++ line :: body.rtakeWhile isBlank) ++ rest

/-- A line of an INI block, in the section of the lines before it. -/
def iniLine (s : List Line × Option Line) (b : Line) : Option (List Line × Option Line) :=
  match header b with
  | some name =>
    some (if name ∈ sectionNames s.1 then s.1 else s.1 ++ [[], '[' :: name ++ [']']], some name)
  | none =>
    match iniKey b with
    | none => some s
    | some key =>
      (s.1.findIdx? fun ln => (header ln).isSome && header ln = s.2).map fun start =>
        (setInSection key (stripBy isSpace b) s.1 start, s.2)

/-- A line of another block. -/
def directiveLine (lines : List Line) (b : Line) : List Line :=
  match lines.findIdx? (matchesKey A (firstWord b)) with
  | some i => if isDirective A b then lines.set i (stripBy isSpace b) else lines ++ [stripBy isSpace b]
  | none => lines ++ [stripBy isSpace b]

/-- The lines of a block `<Tag …>` to `</Tag>`, indented like the section they replace. -/
def indented (indent : Line) (blines : List Line) : List Line :=
  blines.mapIdx fun i b =>
    if i = 0 ∨ i = blines.length - 1 then indent ++ stripBy isSpace b
    else indent ++ "    ".toList ++ stripBy isSpace b

/-- A block `<Tag …>` to `</Tag>` replaces the section with its header, or is added. -/
def tagEdit (tag : Line) (lines blines : List Line) (block : List Char) : List Char :=
  let added := unlines (lines ++ [[]] ++ (splitlines (stripBy (· = '\n') block)).map (·.rdropWhile isSpace))
  match lines.findIdx? (norm A · = norm A (blines.headD [])) with
  | none => added
  | some start =>
    match (lines.drop (start + 1)).findIdx? fun l => (behindClose A tag l).isSome with
    | none => added
    | some n =>
      let indent := (lines.getD start []).takeWhile isSpace
      unlines (lines.take start ++ indented indent blines ++ lines.drop (start + 1 + n + 1))

def editConfig (old block : List Char) : Option (List Char) :=
  let lines := splitlines old
  let blines := blockLines block
  match blines.head?.bind (openTag A) with
  | some tag =>
    if ((blines.getLast?.bind (behindClose A tag)).any isBlank) then some (tagEdit A tag lines blines block)
    else some (unlines (blines.foldl (directiveLine A) lines))
  | none =>
    if blines.head?.any (header · ≠ none) then (blines.foldlM iniLine (lines, none)).map fun s => unlines s.1
    else some (unlines (blines.foldl (directiveLine A) lines))

/-! ### What is wanted of it -/

/-- What kind of file it is. -/
inductive Mode where
  | ini
  | directives

/-- The lines of a file with the names of the sections that have begun by then, the last one first. -/
def located : List Line → List Line → List (List Line × Line)
  | _, [] => []
  | names, l :: ls =>
    match header l with
    | some n => (n :: names, l) :: located (n :: names) ls
    | none => (names, l) :: located names ls

/-- A section, none in a file of directives, and a name in it. -/
abbrev Key := Line × Line

def entries : Mode → List Line → List (List Line × Line)
  | .ini, ls => located [] ls
  | .directives, ls => ls.map ([], ·)

/-- The first word of a directive, commented out or not, whatever its case. -/
def directiveKey (l : Line) : Option Line :=
  let w := (uncomment l).takeWhile (!isSpace ·)
  if w ≠ [] then some (w.map A.fold) else none

/-- What a line is for.  In a section that is not the first of its name it is for nothing. -/
def key : Mode → List Line × Line → Option Key
  | .ini, ([], _) => none
  | .ini, (s :: seen, l) => if s ∈ seen then none else (iniKey l).map (s, ·)
  | .directives, (_, l) => (directiveKey A l).map ([], ·)

/-- The lines for a key, commented out or not. -/
def linesFor (m : Mode) (k : Key) (ls : List Line) : List Line :=
  ((entries m ls).filter (isFor (key A m) k)).map Prod.snd

def iniWanted : Line → List Line → List (Key × Line)
  | _, [] => []
  | s, b :: bs =>
    match header b with
    | some n => iniWanted n bs
    | none =>
      match iniKey b with
      | some k => ((s, k), stripBy isSpace b) :: iniWanted s bs
      | none => iniWanted s bs

def directiveWanted (bs : List Line) : List (Key × Line) :=
  bs.filterMap fun b => (directiveKey A b).map fun k => (([], k), stripBy isSpace b)

/-- The settings of a block, each with its key. -/
def wanted : Mode → List Line → List (Key × Line)
  | .ini, bs => iniWanted [] bs
  | .directives, bs => directiveWanted A bs

/-- A block of sections with keys, or of directives. -/
def IsBlock : Mode → List Line → Prop
  | .ini, bs => bs.head?.any (header · ≠ none) ∧ ∀ b ∈ bs, header b ≠ none ∨ iniKey b ≠ none
  | .directives, bs => ∀ b ∈ bs, isDirective A b = true

/-- Every setting is the first one for its key that is not commented out, and no other line is lost or comes
into another section. -/
structure Applied (m : Mode) (blines old new : List Line) : Prop where
  effect : ∀ p ∈ wanted A m blines, ((linesFor A m p.1 new).filter (!isComment ·)).head? = some p.2
  others : (others (key A m) ((wanted A m blines).map Prod.fst) (entries m old)).Sublist (entries m new)

/-- Nothing of a block is lost. -/
structure Kept (m : Mode) (blines new : List Line) : Prop where
  names : ∀ n ∈ sectionNames blines, n ∈ sectionNames new
  lines : ∀ p ∈ wanted A m blines, p.2 ∈ linesFor A m p.1 new

/-- A block is put in. -/
def Meets (m : Mode) (old block : List Char) : Prop :=
  ∃ new, editConfig A old block = some new ∧ Kept A m (blockLines block) (splitlines new) ∧
    (((wanted A m (blockLines block)).map Prod.fst).Nodup →
      Applied A m (blockLines block) (splitlines old) (splitlines new) ∧ editConfig A new block = some new)

/-- The sections of a block have names, and its lines for one key agree; or the file has them already. -/
structure Agrees (m : Mode) (blines old : List Line) : Prop where
  named : ∀ n ∈ sectionNames blines, n = [] → n ∈ sectionNames old
  one : ∀ p ∈ wanted A m blines, lastFor p.1 (wanted A m blines) = some p.2 ∨ p.2 ∈ (linesFor A m p.1 old).tail

/-! ### Stripped lines -/

variable {A}

theorem isSpace_head?_dropWhile {l : Line} {c : Char} (h : c ∈ (l.dropWhile isSpace).head?) : isSpace c = false := by
  have hne : l.dropWhile isSpace ≠ [] := fun hnil => by rw [hnil] at h; cases h
  have hhead := List.head_dropWhile_not isSpace hne
  rw [List.head?_eq_some_head hne] at h
  cases h
  simpa using hhead

/-- A line from its first character on is the stripped line with blanks behind it. -/
theorem exists_dropWhile (l : Line) :
    ∃ w, (∀ c ∈ w, isSpace c = true) ∧ l.dropWhile isSpace = stripBy isSpace l ++ w := by
  refine ⟨(l.dropWhile isSpace).rtakeWhile isSpace, fun c hc => ?_, ?_⟩
  · exact List.mem_rtakeWhile_imp hc
  · exact List.rdropWhile_append_rtakeWhile.symm

theorem dropWhile_strip (l : Line) : (stripBy isSpace l).dropWhile isSpace = stripBy isSpace l := by
  obtain ⟨w, -, hw⟩ := exists_dropWhile l
  cases hs : stripBy isSpace l with
  | nil => rfl
  | cons c s =>
    have hc : isSpace c = false := isSpace_head?_dropWhile (l := l) (by rw [hw, hs]; rfl)
    rw [List.dropWhile_cons, hc, if_neg Bool.false_ne_true]

theorem dropWhile_append_blank {r w : Line} (hw : ∀ c ∈ w, isSpace c = true) :
    ∃ w', (∀ c ∈ w', isSpace c = true) ∧ (r ++ w).dropWhile isSpace = r.dropWhile isSpace ++ w' := by
  rw [List.dropWhile_append]
  split
  · next h =>
    rw [List.isEmpty_iff.mp h, List.dropWhile_eq_nil_iff.mpr hw]
    exact ⟨[], fun c hc => (List.not_mem_nil hc).elim, rfl⟩
  · exact ⟨w, hw, rfl⟩

/-- The sign of a comment and the blanks before it do not depend on the blanks behind. -/
theorem exists_uncomment (l : Line) :
    ∃ w, (∀ c ∈ w, isSpace c = true) ∧ uncomment l = uncomment (stripBy isSpace l) ++ w := by
  obtain ⟨w, hblank, hw⟩ := exists_dropWhile l
  unfold uncomment
  rw [dropWhile_strip, hw]
  cases hs : stripBy isSpace l with
  | nil =>
    rw [List.nil_append]
    cases w with
    | nil => exact ⟨[], hblank, rfl⟩
    | cons c w =>
      have hc := isSpace_head?_dropWhile (l := l) (c := c) (by rw [hw, hs]; rfl)
      rw [hblank c List.mem_cons_self] at hc
      cases hc
  | cons c s =>
    by_cases hc : c = '#'
    · subst hc
      exact dropWhile_append_blank hblank
    · refine ⟨w, hblank, ?_⟩
      rw [List.cons_append]
      split
      · next heq => exact absurd (List.cons.inj heq).1 hc
      · split
        · next heq => exact absurd (List.cons.inj heq).1 hc
        · rfl

theorem head?_dropWhile_append {r w : Line} (hw : ∀ c ∈ w, isSpace c = true) :
    ((r ++ w).dropWhile isSpace).head? = (r.dropWhile isSpace).head? := by
  rw [List.dropWhile_append]
  split
  · next h => rw [List.isEmpty_iff.mp h, List.dropWhile_eq_nil_iff.mpr hw]
  · next h =>
    rw [List.head?_append_of_ne_nil]
    exact fun hnil => h (by rw [hnil]; rfl)

theorem not_isKeyChar_of_isSpace {c : Char} (h : isSpace c = true) : isKeyChar c = false := by
  have halnum : c.isAlphanum = false := by
    cases ha : c.isAlphanum with
    | false => rfl
    | true => rw [isSpace_of_isAlphanum ha] at h; cases h
  have hsign : ∀ d ∈ ['_', '.', '-'], c ≠ d := by
    rintro d hd rfl
    have hnone : ∀ d ∈ ['_', '.', '-'], isSpace d = false := by decide
    rw [hnone c hd] at h
    cases h
  simp [isKeyChar, halnum, hsign]

theorem takeWhile_append_of_blank {p : Char → Bool} (hp : ∀ c, isSpace c = true → p c = false) {r w : Line}
    (hw : ∀ c ∈ w, isSpace c = true) :
    (r ++ w).takeWhile p = r.takeWhile p ∧ (r ++ w).dropWhile p = r.dropWhile p ++ w := by
  induction r with
  | nil =>
    cases w with
    | nil => exact ⟨rfl, rfl⟩
    | cons c w =>
      have hc := hp c (hw c List.mem_cons_self)
      rw [List.nil_append, List.takeWhile_cons, List.dropWhile_cons, hc]
      exact ⟨rfl, rfl⟩
  | cons c r ih =>
    rw [List.cons_append, List.takeWhile_cons, List.takeWhile_cons, List.dropWhile_cons, List.dropWhile_cons]
    cases p c with
    | true => exact ⟨congrArg (c :: ·) ih.1, ih.2⟩
    | false => exact ⟨rfl, rfl⟩

theorem iniKey_strip (l : Line) : iniKey (stripBy isSpace l) = iniKey l := by
  obtain ⟨w, hw, hl⟩ := exists_uncomment l
  obtain ⟨htake, hdrop⟩ := takeWhile_append_of_blank (fun c => not_isKeyChar_of_isSpace)
    (r := uncomment (stripBy isSpace l)) hw
  rw [iniKey, iniKey, hl, htake, hdrop, head?_dropWhile_append hw]

theorem directiveKey_strip (l : Line) : directiveKey A (stripBy isSpace l) = directiveKey A l := by
  obtain ⟨w, hw, hl⟩ := exists_uncomment l
  obtain ⟨htake, -⟩ := takeWhile_append_of_blank (p := (!isSpace ·)) (fun c hc => by rw [hc]; rfl)
    (r := uncomment (stripBy isSpace l)) hw
  rw [directiveKey, directiveKey, hl, htake]

theorem isComment_strip (l : Line) : isComment (stripBy isSpace l) = isComment l := by
  obtain ⟨w, hw, hl⟩ := exists_dropWhile l
  rw [isComment, isComment, dropWhile_strip, hl]
  cases hs : stripBy isSpace l with
  | nil =>
    cases w with
    | nil => rfl
    | cons c w =>
      have hc := isSpace_head?_dropWhile (l := l) (c := c) (by rw [hl, hs]; rfl)
      rw [hw c List.mem_cons_self] at hc
      cases hc
  | cons c s => rfl

/-- A line with a key is no header. -/
theorem header_of_iniKey {l k : Line} (h : iniKey l = some k) : header l = none := by
  unfold header
  split
  · next r heq =>
    have hun : uncomment l = '[' :: r := by
      unfold uncomment
      rw [heq]
      rfl
    rw [iniKey, hun] at h
    cases h
  · rfl

/-! ### Sections of a file -/

variable {lines pre body rest old : List Line} {hd s k b : Line}

/-- The names of the sections behind some lines. -/
def namesAfter (names ls : List Line) : List Line := (sectionNames ls).reverse ++ names

theorem sectionNames_append (a b : List Line) : sectionNames (a ++ b) = sectionNames a ++ sectionNames b :=
  List.filterMap_append

theorem sectionNames_of_none (h : ∀ l ∈ body, header l = none) : sectionNames body = [] :=
  List.filterMap_eq_nil_iff.mpr h

theorem located_append (names a b : List Line) :
    located names (a ++ b) = located names a ++ located (namesAfter names a) b := by
  induction a generalizing names with
  | nil => rfl
  | cons l a ih =>
    rw [List.cons_append, located, located]
    cases hl : header l with
    | some n => simp [ih, namesAfter, sectionNames, hl]
    | none => simp [ih, namesAfter, sectionNames, hl]

theorem located_of_none (names : List Line) (h : ∀ l ∈ body, header l = none) :
    located names body = body.map (names, ·) := by
  induction body with
  | nil => rfl
  | cons l body ih =>
    obtain ⟨hl, hbody⟩ := List.forall_mem_cons.mp h
    rw [located, hl, List.map_cons, ← ih hbody]

/-- The sections of a line are those before, and some that begin in between. -/
theorem mem_located {names ls : List Line} {e : List Line × Line} (h : e ∈ located names ls) :
    e.2 ∈ ls ∧ ∃ t, e.1 = t ++ names ∧ ∀ n ∈ t, n ∈ sectionNames ls := by
  induction ls generalizing names with
  | nil => exact (List.not_mem_nil h).elim
  | cons l ls ih =>
    rw [located] at h
    cases hl : header l with
    -- the section that begins here holds for the line itself
    | some n =>
      rw [hl] at h
      have hnames : sectionNames (l :: ls) = n :: sectionNames ls := List.filterMap_cons_some hl
      obtain rfl | h := List.mem_cons.mp h
      · refine ⟨List.mem_cons_self, [n], rfl, fun m hm => ?_⟩
        rw [hnames, List.mem_singleton.mp hm]
        exact List.mem_cons_self
      · obtain ⟨hmem, t, ht, hin⟩ := ih h
        refine ⟨List.mem_cons_of_mem l hmem, t ++ [n], by rw [ht, List.append_assoc]; rfl, fun m hm => ?_⟩
        rw [hnames]
        obtain hm | hm := List.mem_append.mp hm
        · exact List.mem_cons_of_mem n (hin m hm)
        · rw [List.mem_singleton.mp hm]
          exact List.mem_cons_self
    | none =>
      rw [hl] at h
      have hnames : sectionNames (l :: ls) = sectionNames ls := List.filterMap_cons_none hl
      obtain rfl | h := List.mem_cons.mp h
      · exact ⟨List.mem_cons_self, [], rfl, fun m hm => (List.not_mem_nil hm).elim⟩
      · obtain ⟨hmem, t, ht, hin⟩ := ih h
        exact ⟨List.mem_cons_of_mem l hmem, t, ht, hnames ▸ hin⟩

/-- A file is cut at the first section of a name. -/
structure Cut (s : Line) (lines pre : List Line) (hd : Line) (body rest : List Line) : Prop where
  eq : lines = pre ++ hd :: (body ++ rest)
  pre : s ∉ sectionNames pre
  hd : header hd = some s
  body : ∀ l ∈ body, header l = none
  rest : ∀ l ∈ rest.head?, header l ≠ none

theorem exists_cut (h : s ∈ sectionNames lines) : ∃ pre hd body rest, Cut s lines pre hd body rest := by
  induction lines with
  | nil => exact (List.not_mem_nil h).elim
  | cons l lines ih =>
    -- the first section of the name begins here, and ends where the next one begins
    by_cases hl : header l = some s
    · refine ⟨[], l, lines.takeWhile (header · = none), lines.dropWhile (header · = none), ?_, ?_, hl, ?_, ?_⟩
      · rw [List.takeWhile_append_dropWhile]
        rfl
      · exact List.not_mem_nil
      · intro m hm
        simpa using List.mem_takeWhile_imp hm
      · intro m hm
        have hne : lines.dropWhile (header · = none) ≠ [] := fun hnil => by rw [hnil] at hm; cases hm
        have hhead := List.head_dropWhile_not (header · = none) hne
        rw [List.head?_eq_some_head hne] at hm
        cases hm
        simpa using hhead
    · have hmem : s ∈ sectionNames lines := by
        obtain ⟨m, hm, heq⟩ := List.mem_filterMap.mp h
        obtain rfl | hm := List.mem_cons.mp hm
        · exact absurd heq hl
        · exact List.mem_filterMap.mpr ⟨m, hm, heq⟩
      obtain ⟨pre, hd, body, rest, hcut⟩ := ih hmem
      refine ⟨l :: pre, hd, body, rest, by rw [hcut.eq]; rfl, fun hin => ?_, hcut.hd, hcut.body, hcut.rest⟩
      obtain ⟨m, hm, heq⟩ := List.mem_filterMap.mp hin
      obtain rfl | hm := List.mem_cons.mp hm
      · exact hl heq
      · exact hcut.pre (List.mem_filterMap.mpr ⟨m, hm, heq⟩)

namespace Cut

variable (h : Cut s lines pre hd body rest)
include h

theorem names : sectionNames lines = sectionNames pre ++ s :: sectionNames rest := by
  have hcons : sectionNames (hd :: (body ++ rest)) = s :: sectionNames (body ++ rest) := List.filterMap_cons_some h.hd
  rw [h.eq, sectionNames_append, hcons, sectionNames_append, sectionNames_of_none h.body, List.nil_append]

/-- The names of the sections up to this one. -/
theorem entries : entries .ini lines =
    located [] pre ++ [(s :: (sectionNames pre).reverse, hd)] ++ body.map (s :: (sectionNames pre).reverse, ·) ++
      located (s :: (sectionNames pre).reverse) rest := by
  have hafter : namesAfter [] pre = (sectionNames pre).reverse := List.append_nil _
  have hbody (names : List Line) : namesAfter names body = names := by
    rw [namesAfter, sectionNames_of_none h.body]
    rfl
  rw [EditConfig.entries, h.eq, located_append, hafter, located, h.hd]
  simp only [located_append, hbody, located_of_none _ h.body, List.append_assoc, List.cons_append, List.nil_append]

/-- Other lines in its body. -/
theorem with_body {body' : List Line} (hbody : ∀ l ∈ body', header l = none) :
    Cut s (pre ++ hd :: (body' ++ rest)) pre hd body' rest :=
  ⟨rfl, h.pre, h.hd, hbody, h.rest⟩

variable (A)

theorem key_body (l : Line) : key A .ini (s :: (sectionNames pre).reverse, l) = (iniKey l).map (s, ·) := by
  rw [key, if_neg fun hmem => h.pre (List.mem_reverse.mp hmem)]

theorem isFor_body (k l : Line) :
    isFor (key A .ini) (s, k) (s :: (sectionNames pre).reverse, l) = decide (iniKey l = some k) := by
  rw [isFor, h.key_body A]
  cases iniKey l with
  | none => rfl
  | some k' => simp

/-- The lines before the section, and its header, are not for its keys. -/
theorem isFor_front (k : Line) :
    ∀ e ∈ located [] pre ++ [(s :: (sectionNames pre).reverse, hd)], isFor (key A .ini) (s, k) e = false := by
  intro e he
  rw [isFor, decide_eq_false_iff_not]
  intro hkey
  obtain he | he := List.mem_append.mp he
  · obtain ⟨-, t, ht, hin⟩ := mem_located he
    obtain ⟨names, l⟩ := e
    rw [List.append_nil] at ht
    cases names with
    | nil => cases hkey
    | cons n names =>
      rw [key] at hkey
      split at hkey
      · cases hkey
      · obtain ⟨_, _, heq⟩ := Option.map_eq_some_iff.mp hkey
        cases heq
        exact h.pre (hin s (ht ▸ List.mem_cons_self))
  · rw [List.mem_singleton.mp he, h.key_body A] at hkey
    obtain ⟨k', hk', -⟩ := Option.map_eq_some_iff.mp hkey
    have hhd := h.hd
    rw [header_of_iniKey hk'] at hhd
    cases hhd

/-- Nor are the lines behind it. -/
theorem isFor_rest (k : Line) :
    ∀ e ∈ located (s :: (sectionNames pre).reverse) rest, isFor (key A .ini) (s, k) e = false := by
  intro e he
  rw [isFor, decide_eq_false_iff_not]
  intro hkey
  have hrest := h.rest
  cases rest with
  | nil => cases he
  | cons l rest =>
    obtain ⟨n, hn⟩ := Option.ne_none_iff_exists'.mp (hrest l rfl)
    have hin : ∃ m t, e.1 = m :: t ∧ s ∈ t := by
      rw [located, hn] at he
      obtain rfl | he := List.mem_cons.mp he
      · exact ⟨n, _, rfl, List.mem_cons_self⟩
      · obtain ⟨-, t, ht, -⟩ := mem_located he
        cases t with
        | nil => exact ⟨n, _, ht, List.mem_cons_self⟩
        | cons m t => exact ⟨m, _, ht, List.mem_append_right t (List.mem_cons_of_mem n List.mem_cons_self)⟩
    obtain ⟨names, x⟩ := e
    obtain ⟨m, t, rfl, hs⟩ := hin
    rw [key] at hkey
    split at hkey
    · cases hkey
    · next hseen =>
      obtain ⟨_, _, heq⟩ := Option.map_eq_some_iff.mp hkey
      cases heq
      exact hseen hs

theorem linesFor_eq (k : Line) : linesFor A .ini (s, k) lines = body.filter fun l => iniKey l = some k := by
  rw [linesFor, h.entries, List.filter_append, List.filter_append, filter_eq_nil_of (h.isFor_front A k),
    filter_eq_nil_of (h.isFor_rest A k), List.append_nil, List.nil_append, List.filter_map, List.map_map]
  have hfor : (isFor (key A .ini) (s, k) ∘ (s :: (sectionNames pre).reverse, ·)) =
      fun l => decide (iniKey l = some k) := funext fun l => h.isFor_body A k l
  rw [hfor]
  exact List.map_id _

end Cut

/-! ### An INI block -/

theorem rest_takeWhile (h : Cut s lines pre hd body rest) :
    (body ++ rest).takeWhile (header · = none) = body ∧ (body ++ rest).dropWhile (header · = none) = rest := by
  have hbody : ∀ l ∈ body, decide (header l = none) = true := fun l hl => decide_eq_true (h.body l hl)
  have hrest := h.rest
  rw [List.takeWhile_append_of_pos hbody, List.dropWhile_append_of_pos hbody]
  cases rest with
  | nil => exact ⟨List.append_nil body, rfl⟩
  | cons l rest =>
    have hl : decide (header l = none) = false := decide_eq_false (hrest l rfl)
    rw [List.takeWhile_cons, List.dropWhile_cons, hl]
    exact ⟨List.append_nil body, rfl⟩

/-- A key is set in the body of its section. -/
theorem exists_placed (h : Cut s lines pre hd body rest) (k line : Line) :
    ∃ body', Placed (fun l => decide (iniKey l = some k)) line body body' ∧
      setInSection k line lines pre.length = pre ++ hd :: (body' ++ rest) := by
  have hsplit : lines = (pre ++ [hd]) ++ (body ++ rest) := by rw [h.eq, List.append_assoc]; rfl
  have hlength : (pre ++ [hd]).length = pre.length + 1 := List.length_append
  obtain ⟨htake, hdrop⟩ := rest_takeWhile h
  rw [setInSection, ← hlength, hsplit, List.take_left, List.drop_left, htake, hdrop]
  cases hfind : body.findIdx? fun l => decide (iniKey l = some k) with
  | some i =>
    refine ⟨body.set i line, placed_set hfind line, ?_⟩
    simp only [List.append_assoc, List.cons_append, List.nil_append]
  | none =>
    refine ⟨body.rdropWhile isBlank ++ line :: body.rtakeWhile isBlank, ?_, ?_⟩
    · have hnone := List.findIdx?_eq_none_iff.mp hfind
      have hbody : body.rdropWhile isBlank ++ body.rtakeWhile isBlank = body := List.rdropWhile_append_rtakeWhile
      rw [← hbody] at hnone
      have hplaced := Placed.inserted (b := line) hnone
      rwa [hbody] at hplaced
    · simp only [List.append_assoc, List.cons_append, List.nil_append]

/-- What a line with a key does. -/
theorem iniLine_key (h : Cut s lines pre hd body rest) (hk : iniKey b = some k) :
    iniLine (lines, some s) b = some (setInSection k (stripBy isSpace b) lines pre.length, some s) := by
  have hfind : (lines.findIdx? fun ln => (header ln).isSome && header ln = some s) = some pre.length := by
    rw [h.eq]
    refine findIdx?_append_cons (fun l hl => ?_) (by rw [h.hd]; simp) _
    cases hn : header l with
    | none => rfl
    | some n =>
      have hne : n ≠ s := fun heq => h.pre (List.mem_filterMap.mpr ⟨l, hl, hn.trans (congrArg some heq)⟩)
      simp [hne]
  rw [iniLine, header_of_iniKey hk, hk]
  simp only [hfind, Option.map_some]

theorem header_of_placed {f : Line → Bool} {line : Line} {body' : List Line} (h : Placed f line body body')
    (hline : header line = none) (hbody : ∀ l ∈ body, header l = none) : ∀ l ∈ body', header l = none := by
  cases h with
  | replaced hp hx =>
    obtain ⟨hp, hq⟩ := List.forall_mem_append.mp hbody
    exact List.forall_mem_append.mpr ⟨hp, List.forall_mem_cons.mpr ⟨hline, (List.forall_mem_cons.mp hq).2⟩⟩
  | inserted hnone =>
    obtain ⟨hp, hq⟩ := List.forall_mem_append.mp hbody
    exact List.forall_mem_append.mpr ⟨hp, List.forall_mem_cons.mpr ⟨hline, hq⟩⟩

/-- **A line with a key is put into the file.** -/
theorem placed_iniLine (h : s ∈ sectionNames lines) (hk : iniKey b = some k) :
    ∃ lines' e, iniLine (lines, some s) b = some (lines', some s) ∧ sectionNames lines' = sectionNames lines ∧
      key A .ini e = some (s, k) ∧ e.2 = stripBy isSpace b ∧
      Placed (isFor (key A .ini) (s, k)) e (entries .ini lines) (entries .ini lines') := by
  obtain ⟨pre, hd, body, rest, hcut⟩ := exists_cut h
  obtain ⟨body', hplaced, hset⟩ := exists_placed hcut k (stripBy isSpace b)
  have hstrip : iniKey (stripBy isSpace b) = some k := (iniKey_strip b).trans hk
  have hcut' := hcut.with_body (header_of_placed hplaced (header_of_iniKey hstrip) hcut.body)
  refine ⟨_, (s :: (sectionNames pre).reverse, stripBy isSpace b), (iniLine_key hcut hk).trans (by rw [hset]), ?_, ?_,
    rfl, ?_⟩
  · rw [hcut'.names, hcut.names]
  · rw [hcut.key_body A, hstrip]
    rfl
  · rw [hcut.entries, hcut'.entries]
    refine Placed.around ?_ (hcut.isFor_front A k) (hcut.isFor_rest A k)
    exact hplaced.map fun l => hcut.isFor_body A k l

/-- A name in a header is stripped, and has no bracket in it. -/
theorem name_of_header {b n : Line} (h : header b = some n) : stripBy isSpace n = n ∧ ']' ∉ n := by
  unfold header at h
  split at h
  · next r heq =>
    split at h
    · split at h
      · cases h
        refine ⟨stripBy_stripBy isSpace _, fun hmem => ?_⟩
        obtain ⟨x, y, -, -, hxy⟩ := exists_stripBy isSpace (r.takeWhile (· ≠ ']'))
        have hin : ']' ∈ r.takeWhile (· ≠ ']') := by
          rw [hxy]
          exact List.mem_append_left y (List.mem_append_right x hmem)
        simpa using List.mem_takeWhile_imp hin
      · cases h
    · cases h
  · cases h

/-- The header that is added. -/
theorem header_added {b n : Line} (h : header b = some n) :
    header ('[' :: n ++ [']']) = if n = [] then none else some n := by
  obtain ⟨hstrip, hnot⟩ := name_of_header h
  have hne : ∀ c ∈ n, decide (c ≠ ']') = true := fun c hc => decide_eq_true fun heq => hnot (heq ▸ hc)
  have htake : (n ++ [']']).takeWhile (· ≠ ']') = n := by
    rw [List.takeWhile_append_of_pos hne]
    exact List.append_nil n
  have hdrop : (n ++ [']']).dropWhile (· ≠ ']') = [']'] := List.dropWhile_append_of_pos hne
  have hfirst : ('[' :: (n ++ [']'])).dropWhile isSpace = '[' :: (n ++ [']']) := rfl
  rw [List.cons_append, header, hfirst]
  simp only [htake, hdrop, hstrip, isBlank, List.all_nil, and_true]
  by_cases hn : n = []
  · rw [if_pos hn, if_neg fun h => h hn]
  · rw [if_neg hn, if_pos hn]

/-- A section that is not there is added with nothing in it. -/
theorem grow_entries {n : Line} (hn : iniKey n = none) (lines : List Line) :
    ∃ extra, entries .ini (lines ++ [[], n]) = entries .ini lines ++ extra ∧ ∀ e ∈ extra, key A .ini e = none := by
  refine ⟨located (namesAfter [] lines) [[], n], located_append [] lines _, fun e he => ?_⟩
  have hnone : iniKey e.2 = none := by
    obtain ⟨hmem, -⟩ := mem_located he
    obtain h | h := List.mem_pair.mp hmem
    · rw [h]; rfl
    · rw [h]; exact hn
  obtain ⟨names, l⟩ := e
  cases names with
  | nil => rfl
  | cons s seen =>
    rw [key, hnone]
    split
    · rfl
    · rfl

theorem iniKey_added (n : Line) : iniKey ('[' :: n ++ [']']) = none := rfl

/-- The names of sections that a block adds are not empty. -/
def NamedBy (bs : List Line) (lines lines' : List Line) : Prop :=
  ∀ n, n ∈ sectionNames lines' ↔ n ∈ sectionNames lines ∨ n ≠ [] ∧ n ∈ sectionNames bs

/-- A section is there, or is added where its name is not empty. -/
def withSection (n : Line) (lines : List Line) : List Line :=
  if n ∈ sectionNames lines then lines else lines ++ [[], '[' :: n ++ [']']]

theorem iniLine_header {b n : Line} (h : header b = some n) (lines : List Line) (s : Option Line) :
    iniLine (lines, s) b = some (withSection n lines, some n) := by
  rw [iniLine, h]
  rfl

theorem iniLine_other {b : Line} (h : header b = none) (hk : iniKey b = none) (s : List Line × Option Line) :
    iniLine s b = some s := by
  rw [iniLine, h, hk]

theorem mem_withSection {b n : Line} (h : header b = some n) (lines : List Line) (m : Line) :
    m ∈ sectionNames (withSection n lines) ↔ m ∈ sectionNames lines ∨ m ≠ [] ∧ m = n := by
  unfold withSection
  split
  · next hn =>
    refine ⟨Or.inl, ?_⟩
    rintro (hm | ⟨-, rfl⟩)
    · exact hm
    · exact hn
  · have hblank : header [] = none := rfl
    rw [sectionNames_append, List.mem_append, sectionNames, sectionNames, List.filterMap_cons_none hblank,
      List.filterMap_cons, header_added h]
    -- `[]` adds a line that is no header
    by_cases hnil : n = []
    · simp only [if_pos hnil, List.filterMap_nil, List.not_mem_nil, or_false]
      constructor
      · exact Or.inl
      · rintro (hm | ⟨hne, rfl⟩)
        · exact hm
        · exact absurd hnil hne
    · simp only [if_neg hnil, List.filterMap_nil, List.mem_singleton]
      constructor
      · exact Or.imp_right fun heq => ⟨heq ▸ hnil, heq⟩
      · exact Or.imp_right And.right

theorem run_withSection (n : Line) {lines lines' : List Line} {ps : List (Key × (List Line × Line))}
    (h : Run (key A .ini) (entries .ini (withSection n lines)) ps (entries .ini lines')) :
    Run (key A .ini) (entries .ini lines) ps (entries .ini lines') := by
  unfold withSection at h
  split at h
  · exact h
  · obtain ⟨extra, hextra, hnone⟩ := grow_entries (A := A) (iniKey_added n) lines
    rw [hextra] at h
    exact .grow hnone h

/-- A key is set only where there is its section. -/
theorem mem_names_of_iniLine {r : List Line × Option Line} (hk : iniKey b = some k)
    (h : iniLine (lines, some s) b = some r) : s ∈ sectionNames lines := by
  rw [iniLine, header_of_iniKey hk, hk] at h
  obtain ⟨i, hi, -⟩ := Option.map_eq_some_iff.mp h
  obtain ⟨p, x, q, heq, -, -, hx⟩ := exists_of_findIdx? hi
  rw [Bool.and_eq_true, decide_eq_true_eq] at hx
  refine List.mem_filterMap.mpr ⟨x, ?_, hx.2⟩
  change x ∈ (lines, some s).1
  rw [heq]
  exact List.mem_append_right p List.mem_cons_self

theorem NamedBy.cons_none {bs lines lines' : List Line} {b : Line} (h : NamedBy bs lines lines')
    (hb : header b = none) : NamedBy (b :: bs) lines lines' := by
  have hnames : sectionNames (b :: bs) = sectionNames bs := List.filterMap_cons_none hb
  intro n
  rw [hnames]
  exact h n

/-- **What the lines of a block do to a file.** -/
theorem run_iniLines (bs : List Line) {lines lines' : List Line} {s : Line} {s' : Option Line}
    (h : bs.foldlM iniLine (lines, some s) = some (lines', s')) :
    NamedBy bs lines lines' ∧
      ∃ ps, ps.map (Prod.map id Prod.snd) = iniWanted s bs ∧
        Run (key A .ini) (entries .ini lines) ps (entries .ini lines') := by
  induction bs generalizing lines s with
  | nil =>
    cases h
    refine ⟨fun n => ?_, [], rfl, .done _⟩
    simp [sectionNames]
  | cons b bs ih =>
    rw [List.foldlM_cons] at h
    cases hb : header b with
    -- a header changes the section that keys are set in
    | some n =>
      rw [iniLine_header hb] at h
      obtain ⟨hnamed, ps, hps, hrun⟩ := ih h
      have hnames : sectionNames (b :: bs) = n :: sectionNames bs := List.filterMap_cons_some hb
      refine ⟨fun m => ?_, ps, ?_, run_withSection n hrun⟩
      · rw [hnamed m, mem_withSection hb, hnames, List.mem_cons]
        tauto
      · rw [iniWanted, hb]
        exact hps
    | none =>
      cases hk : iniKey b with
      | none =>
        rw [iniLine_other hb hk] at h
        obtain ⟨hnamed, ps, hps, hrun⟩ := ih h
        refine ⟨hnamed.cons_none hb, ps, ?_, hrun⟩
        rw [iniWanted, hb, hk]
        exact hps
      -- a key is put into the section, and the rest follows
      | some k =>
        obtain ⟨r, hr, hrest⟩ := Option.bind_eq_some_iff.mp h
        obtain ⟨mid, e, hmid, hsame, hkey, hline, hplaced⟩ :=
          placed_iniLine (A := A) (mem_names_of_iniLine hk hr) hk
        rw [hmid] at hr
        cases hr
        obtain ⟨hnamed, ps, hps, hrun⟩ := ih hrest
        refine ⟨NamedBy.cons_none (fun n => ?_) hb, ((s, k), e) :: ps, ?_, .put hkey hplaced hrun⟩
        · rw [← hsame]
          exact hnamed n
        · rw [iniWanted, hb, hk, List.map_cons, hps]
          exact congrArg (· :: iniWanted s bs) (Prod.ext rfl hline)

/-- The block is put in if its sections have names. -/
theorem exists_iniLines (bs : List Line) {lines : List Line} {s : Line} (hs : s ∈ sectionNames lines)
    (hnamed : ∀ n ∈ sectionNames bs, n = [] → n ∈ sectionNames lines) :
    ∃ lines' s', bs.foldlM iniLine (lines, some s) = some (lines', s') := by
  induction bs generalizing lines s with
  | nil => exact ⟨lines, some s, rfl⟩
  | cons b bs ih =>
    rw [List.foldlM_cons]
    cases hb : header b with
    | some n =>
      have hnames : sectionNames (b :: bs) = n :: sectionNames bs := List.filterMap_cons_some hb
      rw [hnames] at hnamed
      rw [iniLine_header hb]
      refine ih ?_ fun m hm hnil => (mem_withSection hb lines m).mpr (.inl (hnamed m (List.mem_cons_of_mem n hm) hnil))
      rw [mem_withSection hb]
      -- a section without a name must be there already
      by_cases hnil : n = []
      · exact .inl (hnamed n List.mem_cons_self hnil)
      · exact .inr ⟨hnil, rfl⟩
    | none =>
      have hnames : sectionNames (b :: bs) = sectionNames bs := List.filterMap_cons_none hb
      rw [hnames] at hnamed
      cases hk : iniKey b with
      | none =>
        rw [iniLine_other hb hk]
        exact ih hs hnamed
      | some k =>
        obtain ⟨mid, e, hmid, hsame, -⟩ := placed_iniLine (A := ascii) hs hk
        rw [hmid]
        exact ih (hsame ▸ hs) fun n hn hnil => hsame ▸ hnamed n hn hnil

/-- A block that is in the file already changes nothing. -/
theorem iniLines_same (bs : List Line) {lines : List Line} {s : Line} (hs : s ∈ sectionNames lines)
    (hnames : ∀ n ∈ sectionNames bs, n ∈ sectionNames lines)
    (hfirst : ∀ p ∈ iniWanted s bs, (linesFor A .ini p.1 lines).head? = some p.2) :
    ∃ s', bs.foldlM iniLine (lines, some s) = some (lines, s') := by
  induction bs generalizing s with
  | nil => exact ⟨some s, rfl⟩
  | cons b bs ih =>
    rw [List.foldlM_cons]
    rw [iniWanted] at hfirst
    cases hb : header b with
    | some n =>
      have hcons : sectionNames (b :: bs) = n :: sectionNames bs := List.filterMap_cons_some hb
      rw [hcons] at hnames
      obtain ⟨hn, hnames⟩ := List.forall_mem_cons.mp hnames
      rw [hb] at hfirst
      rw [iniLine_header hb, withSection, if_pos hn]
      exact ih hn hnames hfirst
    | none =>
      have hcons : sectionNames (b :: bs) = sectionNames bs := List.filterMap_cons_none hb
      rw [hcons] at hnames
      cases hk : iniKey b with
      | none =>
        rw [hb, hk] at hfirst
        rw [iniLine_other hb hk]
        exact ih hs hnames hfirst
      | some k =>
        rw [hb, hk] at hfirst
        obtain ⟨hhead, hfirst⟩ := List.forall_mem_cons.mp hfirst
        obtain ⟨pre, hd, body, rest, hcut⟩ := exists_cut hs
        obtain ⟨body', hplaced, hset⟩ := exists_placed hcut k (stripBy isSpace b)
        rw [hcut.linesFor_eq] at hhead
        -- the line that is put in is the one that is there
        rw [hplaced.eq_of_head? hhead, ← hcut.eq] at hset
        rw [iniLine_key hcut hk, hset]
        exact ih hs hnames hfirst

/-! ### A block of directives -/

theorem uncomment_of_alpha {l r : Line} {c : Char} (h : stripBy isSpace l = c :: r) (hc : c.isAlpha = true) :
    uncomment (stripBy isSpace l) = stripBy isSpace l := by
  unfold uncomment
  rw [dropWhile_strip, h]
  split
  · next heq =>
    rw [(List.cons.inj heq).1] at hc
    cases hc
  · rfl

theorem exists_alpha (h : isDirective A b = true) : ∃ c r, stripBy isSpace b = c :: r ∧ c.isAlpha = true := by
  unfold isDirective at h
  split at h
  · next c r heq =>
    rw [Bool.and_eq_true, Bool.and_eq_true] at h
    exact ⟨c, r, heq, h.1.1⟩
  · cases h

/-- The key of a directive is its first word. -/
theorem directiveKey_of_isDirective (h : isDirective A b = true) :
    directiveKey A b = some ((firstWord b).map A.fold) ∧ firstWord b ≠ [] := by
  obtain ⟨c, r, hs, hc⟩ := exists_alpha h
  have hspace : isSpace c = false := isSpace_of_isAlphanum (by rw [Char.isAlphanum, hc]; rfl)
  have hword : firstWord b ≠ [] := by
    rw [firstWord, hs, List.takeWhile_cons, hspace]
    exact List.cons_ne_nil c _
  refine ⟨?_, hword⟩
  rw [← directiveKey_strip, directiveKey, uncomment_of_alpha hs hc]
  exact if_pos hword

theorem isSpace_of_fold {c d : Char} (h : A.fold c = A.fold d) : isSpace c = isSpace d := by
  rw [← A.isSpace_fold c, h, A.isSpace_fold]

/-- The expression for a word matches the lines with that first word. -/
theorem matchesKey_iff {w : Line} (hne : w ≠ []) (hw : ∀ c ∈ w, isSpace c = false) (l : Line) :
    matchesKey A w l = true ↔ directiveKey A l = some (w.map A.fold) := by
  rw [matchesKey, decide_eq_true_eq, directiveKey]
  generalize uncomment l = r
  constructor
  · rintro ⟨hfold, hend⟩
    -- the word ends where a blank is, or the line
    have htake : r.takeWhile (!isSpace ·) = r.take w.length := by
      conv_lhs => rw [← List.take_append_drop w.length r]
      rw [List.takeWhile_append_of_pos fun c hc => ?_]
      · cases hrest : r.drop w.length with
        | nil => exact List.append_nil _
        | cons d rest =>
          rw [hrest] at hend
          have hd : isSpace d = true := by simpa using hend
          rw [List.takeWhile_cons, hd]
          exact List.append_nil _
      · have hc' := List.mem_map_of_mem (f := A.fold) hc
        rw [hfold] at hc'
        obtain ⟨d, hd, heq⟩ := List.mem_map.mp hc'
        rw [← isSpace_of_fold heq, hw d hd]
        rfl
    have hsome : r.take w.length ≠ [] := fun hnil => by
      rw [hnil] at hfold
      exact hne (List.map_eq_nil_iff.mp hfold.symm)
    rw [htake, if_pos hsome, hfold]
  · intro h
    split at h
    · have hmap : (r.takeWhile (!isSpace ·)).map A.fold = w.map A.fold := Option.some.inj h
      have hlength := congrArg List.length hmap
      rw [List.length_map, List.length_map] at hlength
      have hr : r.takeWhile (!isSpace ·) ++ r.dropWhile (!isSpace ·) = r := List.takeWhile_append_dropWhile
      have htake : r.take w.length = r.takeWhile (!isSpace ·) := by
        conv_lhs => rw [← hr]
        exact List.take_left' hlength
      -- what follows the first word begins with a blank
      have hdrop : r.drop w.length = r.dropWhile (!isSpace ·) := by
        conv_lhs => rw [← hr]
        exact List.drop_left' hlength
      rw [htake, hdrop]
      refine ⟨hmap, ?_⟩
      cases hd : (r.dropWhile (!isSpace ·)).head? with
      | none => rfl
      | some d =>
        have hnot := List.head?_dropWhile_not (!isSpace ·) r
        rw [hd] at hnot
        simpa using hnot
    · cases h

/-- **A directive is put into the file.** -/
theorem placed_directiveLine (h : isDirective A b = true) (lines : List Line) :
    Placed (fun l => decide (directiveKey A l = some ((firstWord b).map A.fold))) (stripBy isSpace b) lines
      (directiveLine A lines b) := by
  obtain ⟨-, hne⟩ := directiveKey_of_isDirective h
  have hword : ∀ c ∈ firstWord b, isSpace c = false := fun c hc => by
    have hc' := List.mem_takeWhile_imp hc
    simpa using hc'
  have hmatch : matchesKey A (firstWord b) = fun l => decide (directiveKey A l = some ((firstWord b).map A.fold)) := by
    funext l
    rw [Bool.eq_iff_iff, matchesKey_iff hne hword, decide_eq_true_eq]
  rw [directiveLine, hmatch, h]
  split
  · next i hi =>
    rw [if_pos rfl]
    exact placed_set hi _
  · next hi =>
    have hnone := List.findIdx?_eq_none_iff.mp hi
    have hplaced := Placed.inserted (b := stripBy isSpace b) (p := lines) (q := []) (by rwa [List.append_nil])
    rwa [List.append_nil] at hplaced

theorem isFor_directive (k l : Line) :
    isFor (key A .directives) ([], k) ([], l) = decide (directiveKey A l = some k) := by
  rw [isFor, key]
  cases directiveKey A l with
  | none => rfl
  | some k' => simp

theorem linesFor_directives (k : Line) (lines : List Line) :
    linesFor A .directives ([], k) lines = lines.filter fun l => directiveKey A l = some k := by
  rw [linesFor, entries, List.filter_map, List.map_map]
  have hfor : isFor (key A .directives) ([], k) ∘ (fun l => (([] : List Line), l)) =
      fun l => decide (directiveKey A l = some k) := funext fun l => isFor_directive k l
  rw [hfor]
  exact List.map_id _

theorem directiveWanted_cons (h : isDirective A b = true) (bs : List Line) :
    directiveWanted A (b :: bs) = (([], (firstWord b).map A.fold), stripBy isSpace b) :: directiveWanted A bs := by
  refine List.filterMap_cons_some ?_
  rw [(directiveKey_of_isDirective h).1, Option.map_some]

theorem run_directives (bs : List Line) (h : ∀ b ∈ bs, isDirective A b = true) (lines : List Line) :
    ∃ ps, ps.map (Prod.map id Prod.snd) = directiveWanted A bs ∧
      Run (key A .directives) (entries .directives lines) ps
        (entries .directives (bs.foldl (directiveLine A) lines)) := by
  induction bs generalizing lines with
  | nil => exact ⟨[], rfl, .done _⟩
  | cons b bs ih =>
    obtain ⟨hb, hbs⟩ := List.forall_mem_cons.mp h
    obtain ⟨ps, hps, hrun⟩ := ih hbs (directiveLine A lines b)
    have hkey : key A .directives ([], stripBy isSpace b) = some ([], (firstWord b).map A.fold) := by
      rw [key, directiveKey_strip, (directiveKey_of_isDirective hb).1, Option.map_some]
    refine ⟨(_, ([], stripBy isSpace b)) :: ps, ?_, .put hkey ?_ hrun⟩
    · rw [directiveWanted_cons hb, List.map_cons, hps]
      rfl
    · exact (placed_directiveLine hb lines).map fun l => isFor_directive _ l

theorem directives_same (bs : List Line) (h : ∀ b ∈ bs, isDirective A b = true) {lines : List Line}
    (hfirst : ∀ p ∈ directiveWanted A bs, (linesFor A .directives p.1 lines).head? = some p.2) :
    bs.foldl (directiveLine A) lines = lines := by
  induction bs with
  | nil => rfl
  | cons b bs ih =>
    obtain ⟨hb, hbs⟩ := List.forall_mem_cons.mp h
    rw [directiveWanted_cons hb] at hfirst
    obtain ⟨hhead, hfirst⟩ := List.forall_mem_cons.mp hfirst
    rw [linesFor_directives] at hhead
    rw [List.foldl_cons, (placed_directiveLine hb lines).eq_of_head? hhead]
    exact ih hbs hfirst

/-! ### Lines without ends -/

def NoEnds (ls : List Line) : Prop := ∀ l ∈ ls, ∀ c ∈ l, isLineEnd c = false

theorem noEnds_strip (h : ∀ c ∈ b, isLineEnd c = false) : ∀ c ∈ stripBy isSpace b, isLineEnd c = false := by
  intro c hc
  obtain ⟨x, y, -, -, hxy⟩ := exists_stripBy isSpace b
  refine h c ?_
  rw [hxy]
  exact List.mem_append_left y (List.mem_append_right x hc)

theorem noEnds_header {n : Line} (hb : ∀ c ∈ b, isLineEnd c = false) (h : header b = some n) :
    ∀ c ∈ '[' :: n ++ [']'], isLineEnd c = false := by
  have hname : ∀ c ∈ n, isLineEnd c = false := by
    unfold header at h
    split at h
    · next r heq =>
      have hr : ∀ c ∈ r, isLineEnd c = false := fun c hc => by
        refine hb c ((List.dropWhile_sublist isSpace).subset ?_)
        rw [heq]
        exact List.mem_cons_of_mem _ hc
      split at h
      · split at h
        · cases h
          exact noEnds_strip fun c hc => hr c ((List.takeWhile_sublist _).subset hc)
        · cases h
      · cases h
    · cases h
  rw [List.cons_append]
  refine List.forall_mem_cons.mpr ⟨rfl, List.forall_mem_append.mpr ⟨hname, List.forall_mem_singleton.mpr rfl⟩⟩

theorem noEnds_iniLine {lines' : List Line} {s s' : Option Line} (hlines : NoEnds lines)
    (hb : ∀ c ∈ b, isLineEnd c = false) (h : iniLine (lines, s) b = some (lines', s')) : NoEnds lines' := by
  cases hn : header b with
  | some n =>
    rw [iniLine_header hn] at h
    cases h
    unfold withSection
    split
    · exact hlines
    · refine List.forall_mem_append.mpr ⟨hlines, List.forall_mem_cons.mpr ⟨?_, ?_⟩⟩
      · exact fun c hc => (List.not_mem_nil hc).elim
      · exact List.forall_mem_singleton.mpr (noEnds_header hb hn)
  | none =>
    cases hk : iniKey b with
    | none =>
      rw [iniLine_other hn hk] at h
      cases h
      exact hlines
    | some k =>
      cases s with
      | none =>
        rw [iniLine, hn, hk] at h
        obtain ⟨i, hi, -⟩ := Option.map_eq_some_iff.mp h
        obtain ⟨p, x, q, -, -, -, hx⟩ := exists_of_findIdx? hi
        rw [Bool.and_eq_true, decide_eq_true_eq] at hx
        have hsome := hx.1
        rw [hx.2] at hsome
        cases hsome
      | some s =>
        obtain ⟨pre, hd, body, rest, hcut⟩ := exists_cut (mem_names_of_iniLine hk h)
        obtain ⟨body', hplaced, hset⟩ := exists_placed hcut k (stripBy isSpace b)
        rw [iniLine_key hcut hk, hset] at h
        cases h
        rw [hcut.eq] at hlines
        obtain ⟨hpre, hback⟩ := List.forall_mem_append.mp hlines
        obtain ⟨hhd, hback⟩ := List.forall_mem_cons.mp hback
        obtain ⟨hbody, hrest⟩ := List.forall_mem_append.mp hback
        refine List.forall_mem_append.mpr ⟨hpre, List.forall_mem_cons.mpr ⟨hhd, ?_⟩⟩
        refine List.forall_mem_append.mpr ⟨fun l hl => ?_, hrest⟩
        -- a line of the body is the new one or an old one
        obtain rfl | hl := hplaced.mem hl
        · exact noEnds_strip hb
        · exact hbody l hl

theorem noEnds_iniLines {bs : List Line} (hbs : NoEnds bs) {lines lines' : List Line} {s s' : Option Line}
    (hlines : NoEnds lines) (h : bs.foldlM iniLine (lines, s) = some (lines', s')) : NoEnds lines' := by
  induction bs generalizing lines s with
  | nil =>
    cases h
    exact hlines
  | cons b bs ih =>
    obtain ⟨hb, hbs⟩ := List.forall_mem_cons.mp hbs
    rw [List.foldlM_cons] at h
    obtain ⟨⟨mid, t⟩, hmid, hrest⟩ := Option.bind_eq_some_iff.mp h
    exact ih hbs (noEnds_iniLine hlines hb hmid) hrest

theorem noEnds_directives {bs : List Line} (hbs : NoEnds bs) (h : ∀ b ∈ bs, isDirective A b = true)
    (hlines : NoEnds lines) : NoEnds (bs.foldl (directiveLine A) lines) := by
  induction bs generalizing lines with
  | nil => exact hlines
  | cons b bs ih =>
    obtain ⟨hb, hbs⟩ := List.forall_mem_cons.mp hbs
    obtain ⟨hdir, h⟩ := List.forall_mem_cons.mp h
    refine ih hbs h fun l hl => ?_
    obtain rfl | hl := (placed_directiveLine hdir lines).mem hl
    · exact noEnds_strip hb
    · exact hlines l hl

theorem noEnds_splitlines (t : List Char) : NoEnds (splitlines t) := fun _ hl => isLineEnd_of_mem_splitlines hl

theorem noEnds_blockLines (t : List Char) : NoEnds (blockLines t) := fun _ hl =>
  isLineEnd_of_mem_splitlines (List.mem_filter.mp hl).1

/-! ### The whole edit -/

variable {m : Mode} {block new oldText : List Char}

/-- A file without lines is written as an empty line. -/
def saved (ls : List Line) : List Line := if ls = [] then [[]] else ls

theorem splitlines_unlines (h : NoEnds lines) : splitlines (unlines lines) = saved lines := splitlines_ended h

theorem unlines_saved (ls : List Line) : unlines (saved ls) = unlines ls := by
  cases ls with
  | nil => rfl
  | cons l ls => rfl

theorem sectionNames_saved (ls : List Line) : sectionNames (saved ls) = sectionNames ls := by
  cases ls with
  | nil => rfl
  | cons l ls => rfl

theorem linesFor_saved (m : Mode) (k : Key) (ls : List Line) : linesFor A m k (saved ls) = linesFor A m k ls := by
  cases ls with
  | nil =>
    cases m with
    | ini => rfl
    | directives => rfl
  | cons l ls => rfl

theorem entries_saved (m : Mode) (ls : List Line) : (entries m ls).Sublist (entries m (saved ls)) := by
  cases ls with
  | nil =>
    cases m with
    | ini => exact List.nil_sublist _
    | directives => exact List.nil_sublist _
  | cons l ls => exact List.Sublist.refl _

/-- What the lines of a block do to those of a file. -/
structure Edited (A : Alphabet) (m : Mode) (bs old new : List Line) : Prop where
  noEnds : NoEnds new
  names : ∀ n ∈ sectionNames bs, n ∈ sectionNames new ↔ n ∈ sectionNames old ∨ n ≠ []
  run : ∃ ps, ps.map (Prod.map id Prod.snd) = wanted A m bs ∧ Run (key A m) (entries m old) ps (entries m new)

theorem openTag_of_dropWhile {l r : Line} {c : Char} (h : l.dropWhile isSpace = c :: r) (hc : c ≠ '<') :
    openTag A l = none := by
  unfold openTag
  rw [h]
  split
  · next heq => exact absurd (List.cons.inj heq).1 hc
  · rfl

/-- A line of an INI block comes after the header of a section. -/
theorem editConfig_ini (h : IsBlock A .ini (blockLines block)) (oldText : List Char) :
    ∃ b n bs, blockLines block = b :: bs ∧ header b = some n ∧
      editConfig A oldText block =
        (bs.foldlM iniLine (withSection n (splitlines oldText), some n)).map fun s => unlines s.1 := by
  obtain ⟨hfirst, -⟩ := h
  cases hbs : blockLines block with
  | nil =>
    rw [hbs] at hfirst
    cases hfirst
  | cons b bs =>
    rw [hbs] at hfirst
    have hb : header b ≠ none := by simpa using hfirst
    obtain ⟨n, hn⟩ := Option.ne_none_iff_exists'.mp hb
    refine ⟨b, n, bs, rfl, hn, ?_⟩
    have htag : openTag A b = none := by
      unfold header at hn
      split at hn
      · next r heq => exact openTag_of_dropWhile heq (by decide)
      · cases hn
    rw [editConfig, hbs, List.head?_cons, Option.bind_some, htag, Option.any_some, hn]
    simp only [List.foldlM_cons, iniLine_header hn]
    rfl

theorem editConfig_directives (h : IsBlock A .directives (blockLines block)) (oldText : List Char) :
    editConfig A oldText block =
      some (unlines ((blockLines block).foldl (directiveLine A) (splitlines oldText))) := by
  cases hbs : blockLines block with
  | nil =>
    rw [editConfig, hbs]
    rfl
  | cons b bs =>
    have hb : isDirective A b = true := h b (hbs ▸ List.mem_cons_self)
    obtain ⟨c, r, hs, hc⟩ := exists_alpha hb
    obtain ⟨w, -, hw⟩ := exists_dropWhile b
    rw [hs, List.cons_append] at hw
    -- a letter begins neither a tag nor a header
    have hne : ∀ d ∈ ['<', '['], c ≠ d := by
      rintro d hd rfl
      have hnone : ∀ d ∈ ['<', '['], d.isAlpha = false := by decide
      rw [hnone c hd] at hc
      cases hc
    have htag : openTag A b = none := openTag_of_dropWhile hw (hne '<' (by decide))
    have hheader : header b = none := by
      unfold header
      rw [hw]
      split
      · next heq => exact absurd (List.cons.inj heq).1 (hne '[' (by decide))
      · rfl
    rw [editConfig, hbs, List.head?_cons, Option.bind_some, htag, Option.any_some, hheader]
    rfl

theorem header_of_isDirective (h : isDirective A b = true) : header b = none := by
  obtain ⟨c, r, hs, hc⟩ := exists_alpha h
  obtain ⟨w, -, hw⟩ := exists_dropWhile b
  rw [hs, List.cons_append] at hw
  unfold header
  rw [hw]
  split
  · next heq =>
    rw [(List.cons.inj heq).1] at hc
    cases hc
  · rfl

/-- **What a block does to a file.** -/
theorem edited_of_editConfig (h : IsBlock A m (blockLines block)) (hnew : editConfig A oldText block = some new) :
    ∃ lines', new = unlines lines' ∧ Edited A m (blockLines block) (splitlines oldText) lines' := by
  cases m with
  | ini =>
    obtain ⟨b, n, bs, hbs, hn, hedit⟩ := editConfig_ini h oldText
    rw [hedit] at hnew
    obtain ⟨⟨lines', s'⟩, hfold, rfl⟩ := Option.map_eq_some_iff.mp hnew
    obtain ⟨hnamed, ps, hps, hrun⟩ := run_iniLines (A := A) bs hfold
    -- the first header puts its section in, so the fold starts there
    have hall : (b :: bs).foldlM iniLine (splitlines oldText, none) = some (lines', s') := by
      rw [List.foldlM_cons, iniLine_header hn]
      exact hfold
    have hnames : sectionNames (b :: bs) = n :: sectionNames bs := List.filterMap_cons_some hn
    refine ⟨lines', rfl, ⟨?_, fun k hk => ?_, ps, ?_, run_withSection n hrun⟩⟩
    · exact noEnds_iniLines (hbs ▸ noEnds_blockLines block) (noEnds_splitlines oldText) hall
    · rw [hbs, hnames, List.mem_cons] at hk
      rw [hnamed k, mem_withSection hn]
      tauto
    · rw [hps, hbs, wanted, iniWanted, hn]
  | directives =>
    rw [editConfig_directives h] at hnew
    cases hnew
    obtain ⟨ps, hps, hrun⟩ := run_directives (blockLines block) h (splitlines oldText)
    refine ⟨_, rfl, ⟨?_, fun k hk => ?_, ps, hps, hrun⟩⟩
    · exact noEnds_directives (noEnds_blockLines block) h (noEnds_splitlines oldText)
    · obtain ⟨l, hl, hk⟩ := List.mem_filterMap.mp hk
      rw [header_of_isDirective (h l hl)] at hk
      cases hk

theorem exists_editConfig (h : IsBlock A m (blockLines block))
    (hnamed : ∀ n ∈ sectionNames (blockLines block), n = [] → n ∈ sectionNames (splitlines oldText)) :
    ∃ new, editConfig A oldText block = some new := by
  cases m with
  | ini =>
    obtain ⟨b, n, bs, hbs, hn, hedit⟩ := editConfig_ini h oldText
    have hnames : sectionNames (b :: bs) = n :: sectionNames bs := List.filterMap_cons_some hn
    rw [hbs, hnames] at hnamed
    obtain ⟨hfirst, hnamed⟩ := List.forall_mem_cons.mp hnamed
    have hmem : n ∈ sectionNames (withSection n (splitlines oldText)) := by
      rw [mem_withSection hn]
      by_cases hnil : n = []
      · exact .inl (hfirst hnil)
      · exact .inr ⟨hnil, rfl⟩
    obtain ⟨lines', s', hfold⟩ := exists_iniLines bs hmem fun k hk hnil =>
      (mem_withSection hn _ _).mpr (.inl (hnamed k hk hnil))
    rw [hedit, hfold]
    exact ⟨_, rfl⟩
  | directives => exact ⟨_, editConfig_directives h oldText⟩

/-- A block that is in the file already changes nothing. -/
theorem editConfig_same (h : IsBlock A m (blockLines block))
    (hnames : ∀ n ∈ sectionNames (blockLines block), n ∈ sectionNames (splitlines oldText))
    (hfirst : ∀ p ∈ wanted A m (blockLines block), (linesFor A m p.1 (splitlines oldText)).head? = some p.2) :
    editConfig A oldText block = some (unlines (splitlines oldText)) := by
  cases m with
  | ini =>
    obtain ⟨b, n, bs, hbs, hn, hedit⟩ := editConfig_ini h oldText
    have hcons : sectionNames (b :: bs) = n :: sectionNames bs := List.filterMap_cons_some hn
    rw [hbs, hcons] at hnames
    obtain ⟨hmem, hnames⟩ := List.forall_mem_cons.mp hnames
    rw [hbs, wanted, iniWanted, hn] at hfirst
    obtain ⟨s', hfold⟩ := iniLines_same bs hmem hnames hfirst
    rw [hedit, withSection, if_pos hmem, hfold]
    rfl
  | directives => rw [editConfig_directives h, directives_same (blockLines block) h hfirst]

theorem mem_iniWanted {p : Key × Line} {bs : List Line} (h : p ∈ iniWanted s bs) :
    ∃ b ∈ bs, p.2 = stripBy isSpace b := by
  induction bs generalizing s with
  | nil => exact (List.not_mem_nil h).elim
  | cons b bs ih =>
    have hback : (∃ c ∈ bs, p.2 = stripBy isSpace c) → ∃ c ∈ b :: bs, p.2 = stripBy isSpace c :=
      fun ⟨c, hc, heq⟩ => ⟨c, List.mem_cons_of_mem b hc, heq⟩
    rw [iniWanted] at h
    split at h
    · exact hback (ih h)
    · split at h
      · obtain rfl | h := List.mem_cons.mp h
        · exact ⟨b, List.mem_cons_self, rfl⟩
        · exact hback (ih h)
      · exact hback (ih h)

theorem mem_directiveWanted {p : Key × Line} {bs : List Line} (h : p ∈ directiveWanted A bs) :
    ∃ b ∈ bs, p.2 = stripBy isSpace b := by
  obtain ⟨b, hb, hp⟩ := List.mem_filterMap.mp h
  obtain ⟨k, -, rfl⟩ := Option.map_eq_some_iff.mp hp
  exact ⟨b, hb, rfl⟩

/-- A setting is a line of the block. -/
theorem isComment_of_mem_wanted {p : Key × Line} (h : p ∈ wanted A m (blockLines block)) : isComment p.2 = false := by
  have hline : ∃ b ∈ blockLines block, p.2 = stripBy isSpace b := by
    cases m with
    | ini => exact mem_iniWanted h
    | directives => exact mem_directiveWanted h
  obtain ⟨b, hb, heq⟩ := hline
  have hsays := (List.mem_filter.mp hb).2
  rw [Bool.and_eq_true, Bool.not_eq_true'] at hsays
  rw [heq, isComment_strip]
  simpa using hsays.2

/-- What the last line for a key says stands before the old lines for it. -/
theorem Edited.linesFor {bs old new : List Line} (h : Edited A m bs old new) {k : Key} {x : Line}
    (hlast : lastFor k (wanted A m bs) = some x) : linesFor A m k new = x :: (linesFor A m k old).tail := by
  obtain ⟨ps, hps, hrun⟩ := h.run
  rw [← hps] at hlast
  exact hrun.map_filter Prod.snd hlast

theorem kept_iff_agrees {bs old new : List Line} (h : Edited A m bs old new) :
    Kept A m bs (saved new) ↔ Agrees A m bs old := by
  constructor
  · rintro ⟨hnames, hlines⟩
    refine ⟨fun n hn hnil => ?_, fun p hp => ?_⟩
    · have hin := hnames n hn
      rw [sectionNames_saved, h.names n hn] at hin
      exact hin.resolve_right fun hne => hne hnil
    · obtain ⟨x, hx⟩ := exists_lastFor (k := p.1) (b := p.2) hp
      have hin := hlines p hp
      rw [linesFor_saved, h.linesFor hx, List.mem_cons] at hin
      rw [hx]
      exact hin.imp_left fun heq => congrArg some heq.symm
  · rintro ⟨hnamed, hone⟩
    refine ⟨fun n hn => ?_, fun p hp => ?_⟩
    · rw [sectionNames_saved, h.names n hn]
      by_cases hnil : n = []
      · exact .inl (hnamed n hn hnil)
      · exact .inr hnil
    · obtain ⟨x, hx⟩ := exists_lastFor (k := p.1) (b := p.2) hp
      rw [linesFor_saved, h.linesFor hx, List.mem_cons]
      have hp := hone p hp
      rw [hx] at hp
      exact hp.imp_left fun heq => (Option.some.inj heq).symm

/-- Settings for different keys are all in effect. -/
theorem applied_of_nodup {old new : List Line} (h : Edited A m (blockLines block) old new)
    (hnodup : ((wanted A m (blockLines block)).map Prod.fst).Nodup) :
    Applied A m (blockLines block) old (saved new) := by
  refine ⟨fun p hp => ?_, ?_⟩
  · rw [linesFor_saved, h.linesFor (lastFor_of_nodup hnodup (b := p.2) hp), List.filter_cons_of_pos]
    · rfl
    · rw [isComment_of_mem_wanted hp]
      rfl
  · obtain ⟨ps, hps, hrun⟩ := h.run
    have hkeys : (wanted A m (blockLines block)).map Prod.fst = ps.map Prod.fst := by
      rw [← hps, List.map_map]
      rfl
    rw [hkeys]
    exact hrun.others_sublist.trans (entries_saved m new)

/-- **A block is put in exactly if its sections have names and its lines for one key agree**, or the file has
them already. -/
theorem meets_iff (h : IsBlock A m (blockLines block)) (oldText : List Char) :
    Meets A m oldText block ↔ Agrees A m (blockLines block) (splitlines oldText) := by
  constructor
  · rintro ⟨new, hnew, hkept, -⟩
    obtain ⟨lines', rfl, hedited⟩ := edited_of_editConfig h hnew
    rw [splitlines_unlines hedited.noEnds] at hkept
    exact (kept_iff_agrees hedited).mp hkept
  · intro hagrees
    obtain ⟨new, hnew⟩ := exists_editConfig h hagrees.named
    obtain ⟨lines', rfl, hedited⟩ := edited_of_editConfig h hnew
    have hkept := (kept_iff_agrees hedited).mpr hagrees
    rw [← splitlines_unlines hedited.noEnds] at hkept
    refine ⟨_, hnew, hkept, fun hnodup => ⟨?_, ?_⟩⟩
    · rw [splitlines_unlines hedited.noEnds]
      exact applied_of_nodup hedited hnodup
    · rw [editConfig_same h hkept.names fun p hp => ?_]
      · rw [splitlines_unlines hedited.noEnds, unlines_saved]
      · rw [splitlines_unlines hedited.noEnds, linesFor_saved,
          hedited.linesFor (lastFor_of_nodup hnodup (b := p.2) hp)]
        rfl

/-- Two settings of a section; the file has one of them commented out. -/
theorem meets_jail : Meets ascii .ini "[sshd]\nenabled = true\n#port = 22\n[nginx]\nport = 80\n".toList
    "[sshd]\nport = 2222\nmaxretry = 3\n".toList := by
  have hblock : IsBlock ascii .ini (blockLines "[sshd]\nport = 2222\nmaxretry = 3\n".toList) :=
    ⟨by decide, by decide⟩
  have hone : ∀ p ∈ iniWanted [] (blockLines "[sshd]\nport = 2222\nmaxretry = 3\n".toList),
      lastFor p.1 (iniWanted [] (blockLines "[sshd]\nport = 2222\nmaxretry = 3\n".toList)) = some p.2 := by
    decide
  have hnames : ∀ n ∈ sectionNames (blockLines "[sshd]\nport = 2222\nmaxretry = 3\n".toList), n ≠ [] := by
    decide
  exact (meets_iff hblock _).mpr ⟨fun n hn hnil => absurd hnil (hnames n hn), fun p hp => .inl (hone p hp)⟩

/-- A server may have several host keys; the first of two is lost. -/
theorem hostKey_lost :
    ¬∀ old block : List Char, IsBlock ascii .directives (blockLines block) → Meets ascii .directives old block := by
  intro h
  have hblock : ∀ b ∈ blockLines "HostKey a\nHostKey b\n".toList, isDirective ascii b = true := by decide
  obtain ⟨new, hnew, hkept, -⟩ := h [] "HostKey a\nHostKey b\n".toList hblock
  have hold : editConfig ascii [] "HostKey a\nHostKey b\n".toList = some "HostKey b\n".toList := by decide
  rw [hold] at hnew
  cases hnew
  have hlost := hkept.lines (([], "hostkey".toList), "HostKey a".toList) (by decide)
  revert hlost
  decide

end EditConfig
end CloudCore
