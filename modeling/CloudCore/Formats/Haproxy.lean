import CloudCore.Formats.Lines
import Mathlib.Data.List.TakeWhile

/-!
# HAProxy configurations

The part of the language that says where a request goes: the sections with their lines, and of a
frontend the ACLs, the `use_backend` rules and the default.  A line is cut at blanks, up to a comment;
quotes and backslashes are left out.

## Main definitions

* `words` — the words of a line.
* `proxies` — the frontends and backends of a text.
* `route` — the backend to which a frontend sends a request.

## Main results

* `words_spaced` — the words of a line are those it was made of.
* `proxies_flatten` — sections that begin with their only header are read back.
-/

namespace Formats
namespace Haproxy

def isBlank (c : Char) : Bool := c == ' ' || c == '\t'

/-- The words of a line without comment. -/
def split (l : Line) : List Line := (l.splitOnP isBlank).filter (!·.isEmpty)

def words (l : Line) : List Line := split (l.takeWhile (· != '#'))

/-- A character that stands for itself. -/
def isPlain (c : Char) : Bool :=
  !(isBlank c || (10 ≤ c.toNat && c.toNat ≤ 13) || c == '#' || c == '"' || c == '\\' || c.toNat == 39)

/-- A text in which every character stands for itself. -/
def Plain (w : Line) : Prop := ∀ c ∈ w, isPlain c = true

def IsWord (w : Line) : Prop := w ≠ [] ∧ Plain w

instance (w : Line) : Decidable (Plain w) := inferInstanceAs (Decidable (∀ c ∈ w, isPlain c = true))

instance (w : Line) : Decidable (IsWord w) := inferInstanceAs (Decidable (w ≠ [] ∧ Plain w))

/-- Words with a blank between two of them. -/
def spaced (ws : List Line) : Line := [' '].intercalate ws

/-- A line of a section. -/
def indent (ws : List Line) : Line := ' ' :: ' ' :: ' ' :: ' ' :: spaced ws

/-! ### Sections -/

def keywords : List Line :=
  ["global".toList, "defaults".toList, "frontend".toList, "backend".toList, "listen".toList]

def isKeyword (w : Line) : Bool := keywords.contains w

/-- A line that begins a section. -/
def isHeader (l : Line) : Bool := (words l).head?.any isKeyword

/-- A section: the words of its header, and those of its lines. -/
structure Proxy where
  header : List Line
  body : List (List Line)
  deriving DecidableEq

def proxy : List Line → Option Proxy
  | [] => none
  | l :: body => some ⟨words l, body.map words⟩

/-- The sections of a text, without what stands before the first. -/
def proxies (text : Line) : List Proxy := (sections isHeader (lines text)).tail.filterMap proxy

/-- The frontends, or the backends. -/
def Proxy.is (keyword : Line) (p : Proxy) : Bool := p.header.head? == some keyword

def frontends (text : Line) : List Proxy := (proxies text).filter (Proxy.is "frontend".toList)

/-- The names of the backends. -/
def backendNames (text : Line) : List Line :=
  ((proxies text).filter (Proxy.is "backend".toList)).filterMap fun p => p.header[1]?

/-! ### Where a request goes -/

structure Request where
  path : Line
  host : Line
  deriving DecidableEq

def lower (l : Line) : Line := l.map Char.toLower

def isFlag (w : Line) : Bool := w.head? == some '-'

/-- Whether a criterion with its flags and patterns fits; without a pattern nothing does. -/
def fits (req : Request) : List Line → Bool
  | [] => false
  | criterion :: args =>
    let patterns := args.dropWhile isFlag
    let fold := if (args.takeWhile isFlag).contains "-i".toList then lower else id
    if criterion = "path".toList then patterns.any fun p => fold p == fold req.path
    else if criterion = "path_beg".toList then patterns.any fun p => (fold p).isPrefixOf (fold req.path)
    else if criterion = "hdr(host)".toList then patterns.any fun p => fold p == fold req.host
    else false

/-- Whether a line is one of the ACL, and fits. -/
def aclFits (req : Request) (acl : Line) : List Line → Bool
  | keyword :: name :: criterion => keyword == "acl".toList && name == acl && fits req criterion
  | _ => false

/-- An ACL of a frontend holds if one of its lines fits. -/
def holds (body : List (List Line)) (req : Request) (acl : Line) : Bool := body.any (aclFits req acl)

/-- The backend of a `use_backend` rule, if all its ACLs hold. -/
def useBackend (body : List (List Line)) (req : Request) : List Line → Option Line
  | keyword :: name :: cond :: acls =>
    if keyword = "use_backend".toList ∧ cond = "if".toList ∧ acls.all (holds body req) then some name
    else none
  | _ => none

def defaultBackend : List Line → Option Line
  | [keyword, name] => if keyword = "default_backend".toList then some name else none
  | _ => none

/-- The first rule that applies, else the default. -/
def route (p : Proxy) (req : Request) : Option Line :=
  (p.body.findSome? (useBackend p.body req)).or (p.body.findSome? defaultBackend)

/-- The backends that a frontend names. -/
def named : List Line → Option Line
  | keyword :: name :: _ =>
    if keyword = "use_backend".toList ∨ keyword = "default_backend".toList then some name else none
  | _ => none

def usedNames (text : Line) : List Line := (frontends text).flatMap fun p => p.body.filterMap named

/-! ### Lines that say something else -/

section

variable {keyword : Line} (req : Request) (ws : List Line)

theorem aclFits_of_ne (acl : Line) (h : keyword ≠ "acl".toList) : aclFits req acl (keyword :: ws) = false := by
  cases ws with
  | nil => rfl
  | cons w ws =>
    show (keyword == "acl".toList && w == acl && fits req ws) = false
    rw [beq_eq_false_iff_ne.mpr h]
    rfl

theorem useBackend_of_ne (body : List (List Line)) (h : keyword ≠ "use_backend".toList) :
    useBackend body req (keyword :: ws) = none := by
  rcases ws with _ | ⟨v, _ | ⟨w, ws⟩⟩
  · rfl
  · rfl
  · show (if keyword = "use_backend".toList ∧ w = "if".toList ∧ ws.all (holds body req) then some v
      else none) = none
    rw [if_neg fun hyes => h hyes.1]

theorem defaultBackend_of_ne (h : keyword ≠ "default_backend".toList) :
    defaultBackend (keyword :: ws) = none := by
  rcases ws with _ | ⟨v, _ | ⟨w, ws⟩⟩
  · rfl
  · show (if keyword = "default_backend".toList then some v else none) = none
    rw [if_neg h]
  · rfl

theorem named_of_ne (huse : keyword ≠ "use_backend".toList) (hdefault : keyword ≠ "default_backend".toList) :
    named (keyword :: ws) = none := by
  cases ws with
  | nil => rfl
  | cons w ws =>
    show (if keyword = "use_backend".toList ∨ keyword = "default_backend".toList then some w else none) = none
    rw [if_neg (not_or.mpr ⟨huse, hdefault⟩)]

end

/-! ### Words -/

section

variable {a b w : Line}

theorem split_append (a b : Line) {c : Char} (hc : isBlank c = true) :
    split (a ++ c :: b) = split a ++ split b := by
  rw [split, List.splitOnP_append_cons a b hc, List.filter_append]
  rfl

theorem Plain.not_mem {c : Char} (h : Plain w) (hc : isPlain c = false) : c ∉ w := fun hmem => by
  have hplain := h c hmem
  rw [hc] at hplain
  cases hplain

theorem Plain.not_blank (h : Plain w) : ∀ c ∈ w, isBlank c = false := by
  intro c hc
  have hplain := h c hc
  rw [isPlain, Bool.not_eq_true', Bool.or_eq_false_iff, Bool.or_eq_false_iff, Bool.or_eq_false_iff,
    Bool.or_eq_false_iff, Bool.or_eq_false_iff] at hplain
  exact hplain.1.1.1.1.1

theorem Plain.append (ha : Plain a) (hb : Plain b) : Plain (a ++ b) :=
  fun c hc => (List.mem_append.mp hc).elim (ha c) (hb c)

theorem Plain.of_sublist (hb : Plain b) (h : List.Sublist a b) : Plain a := fun c hc => hb c (h.subset hc)

theorem split_word (h : IsWord w) : split w = [w] := by
  rw [split, List.splitOnP_eq_singleton h.2.not_blank, List.filter_cons_of_pos, List.filter_nil]
  rw [Bool.not_eq_true', List.isEmpty_eq_false_iff]
  exact h.1

/-- Before a blank the words of a line without comment are on their own. -/
theorem words_append (ha : '#' ∉ a) {c : Char} (hc : isBlank c = true) (b : Line) :
    words (a ++ c :: b) = words a ++ words b := by
  have hcomment : (c != '#') = true := by
    rw [bne_iff_ne]
    rintro rfl
    exact absurd hc (by decide)
  have hall : ∀ x ∈ a, (x != '#') = true := fun x hx => bne_iff_ne.mpr fun heq => ha (heq ▸ hx)
  have hcons : (c :: b).takeWhile (· != '#') = c :: b.takeWhile (· != '#') := by
    rw [List.takeWhile_cons, hcomment, if_pos rfl]
  rw [words, words, words, List.takeWhile_append_of_pos hall, hcons,
    List.takeWhile_eq_self_iff.mpr hall, split_append _ _ hc]

theorem words_word (h : IsWord w) : words w = [w] := by
  have hall : ∀ x ∈ w, (x != '#') = true := fun x hx => bne_iff_ne.mpr fun heq =>
    h.2.not_mem (by decide) (heq ▸ hx)
  rw [words, List.takeWhile_eq_self_iff.mpr hall, split_word h]

@[simp] theorem words_nil : words [] = [] := rfl

theorem words_plain (h : Plain w) : words w = [w].filter (!·.isEmpty) := by
  by_cases hw : w = []
  · rw [hw]
    rfl
  · rw [words_word ⟨hw, h⟩, List.filter_cons_of_pos, List.filter_nil]
    rw [Bool.not_eq_true', List.isEmpty_eq_false_iff]
    exact hw

/-- A plain text, and what follows a blank. -/
theorem words_cons (h : Plain w) (b : Line) :
    words (w ++ ' ' :: b) = [w].filter (!·.isEmpty) ++ words b := by
  rw [words_append (h.not_mem (by decide)) rfl, words_plain h]

theorem words_blank (b : Line) : words (' ' :: b) = words b := words_append (a := []) List.not_mem_nil rfl b

theorem spaced_cons_cons (w v : Line) (ws : List Line) :
    spaced (w :: v :: ws) = w ++ ' ' :: spaced (v :: ws) := by
  simp [spaced, List.intercalate]

/-- **The words of a line are those it was made of**, but for empty ones. -/
theorem words_spaced {ws : List Line} (h : ∀ w ∈ ws, Plain w) :
    words (spaced ws) = ws.filter (!·.isEmpty) := by
  induction ws with
  | nil => rfl
  | cons w ws ih =>
    have hw := h w List.mem_cons_self
    cases ws with
    | nil =>
      have hone : spaced [w] = w := by simp [spaced, List.intercalate]
      rw [hone, words_plain hw]
    | cons v ws =>
      rw [spaced_cons_cons, words_cons hw, ih fun w' hw' => h w' (List.mem_cons_of_mem _ hw'),
        ← List.filter_append]
      rfl

theorem words_indent {ws : List Line} (h : ∀ w ∈ ws, Plain w) :
    words (indent ws) = ws.filter (!·.isEmpty) := by
  rw [indent, words_blank, words_blank, words_blank, words_blank, words_spaced h]

theorem filter_words {ws : List Line} (h : ∀ w ∈ ws, IsWord w) : ws.filter (!·.isEmpty) = ws := by
  refine List.filter_eq_self.mpr fun w hw => ?_
  rw [Bool.not_eq_true', List.isEmpty_eq_false_iff]
  exact (h w hw).1

/-- The first word of a line, whatever follows it. -/
theorem head_words_spaced (h : IsWord w) (ws : List Line) : (words (spaced (w :: ws))).head? = some w := by
  cases ws with
  | nil =>
    have hone : spaced [w] = w := by simp [spaced, List.intercalate]
    rw [hone, words_word h]
    rfl
  | cons v ws =>
    rw [spaced_cons_cons, words_append (h.2.not_mem (by decide)) rfl, words_word h]
    rfl

theorem isHeader_spaced (h : IsWord w) (ws : List Line) : isHeader (spaced (w :: ws)) = isKeyword w := by
  rw [isHeader, head_words_spaced h, Option.any_some]

theorem isHeader_indent (h : IsWord w) (ws : List Line) : isHeader (indent (w :: ws)) = isKeyword w := by
  rw [isHeader, indent, words_blank, words_blank, words_blank, words_blank, head_words_spaced h,
    Option.any_some]

theorem not_mem_spaced {ws : List Line} {c : Char} (hc : c ≠ ' ') (h : ∀ w ∈ ws, c ∉ w) :
    c ∉ spaced ws := by
  induction ws with
  | nil => exact List.not_mem_nil
  | cons w ws ih =>
    have hw := h w List.mem_cons_self
    cases ws with
    | nil =>
      have hone : spaced [w] = w := by simp [spaced, List.intercalate]
      rw [hone]
      exact hw
    | cons v ws =>
      rw [spaced_cons_cons, List.mem_append, List.mem_cons, not_or, not_or]
      exact ⟨hw, hc, ih fun w' hw' => h w' (List.mem_cons_of_mem _ hw')⟩

end

/-! ### Sections, read back -/

/-- **Sections that begin with their only header are read back.** -/
theorem proxies_flatten {bs : List (Line × List Line)} {before : List Line}
    (hlines : ∀ l ∈ before ++ (bs.map fun b => b.1 :: b.2).flatten, '\n' ∉ l)
    (hne : before ++ (bs.map fun b => b.1 :: b.2).flatten ≠ [])
    (hbefore : ∀ l ∈ before, isHeader l = false)
    (hheader : ∀ b ∈ bs, isHeader b.1 = true) (hbody : ∀ b ∈ bs, ∀ l ∈ b.2, isHeader l = false) :
    proxies (joinLines (before ++ (bs.map fun b => b.1 :: b.2).flatten)) =
      bs.map fun b => ⟨words b.1, b.2.map words⟩ := by
  have hsame : lines (joinLines (before ++ (bs.map fun b => b.1 :: b.2).flatten)) =
      before ++ (bs.map fun b => b.1 :: b.2).flatten := by
    rw [lines_join hne, List.flatMap_congr fun l hl => lines_of_not_mem (hlines l hl)]
    exact List.flatMap_singleton' _
  have hsections : sections isHeader (bs.map fun b => b.1 :: b.2).flatten =
      [] :: bs.map fun b => b.1 :: b.2 := by
    refine sections_flatten fun block hblock => ?_
    obtain ⟨b, hb, rfl⟩ := List.mem_map.mp hblock
    exact ⟨b.1, b.2, rfl, hheader b hb, hbody b hb⟩
  rw [proxies, hsame, sections_append hbefore _ hsections, List.tail_cons, List.filterMap_map]
  exact List.filterMap_eq_map' ▸ rfl

end Haproxy
end Formats
