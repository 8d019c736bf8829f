import CloudCore.LlmChat.Execute
import Mathlib.Data.List.Infix
import Mathlib.Data.List.TakeWhile

/-!
# The code blocks of an answer

`CODE_BLOCK_RE` pairs the fences of a message from left to right.  A fence with more than a tag behind
it is no opening fence for it; from there on it takes the text between two blocks for code.

## Main definitions

* `Message` — prose and fenced blocks.
* `extractAt` — `extractCode`, with the place where the block ends.
* `Faithful` — what is returned is the first block that says in which language it is.
* `Clean` — no text after a block with more than a tag is taken for code.

## Main results

* `forget_extractAt` — the place changes nothing.
* `codeMatches_partsText` — what the expression finds in a message.
* `code_faithful_iff` — the code of a message is faithful exactly if the message is clean.
-/

namespace CloudCore
namespace Execute

/-! ### Messages -/

def isBlank (c : Char) : Bool := " \t".toList.contains c

/-- A fenced block: the rest of the line of its opening fence, and the lines up to the closing one. -/
structure Block where
  info : List Char
  body : List Char
  info_line : ∀ c ∈ info, c ≠ '\n' ∧ c ≠ '`'
  body_fence : ¬fence <:+: body
  body_ends : ∀ c ∈ body.getLast?, c = '\n'

/-- A block and the prose after it. -/
structure Part where
  block : Block
  after : List Char
  after_prose : '`' ∉ after

/-- The line of the closing fence ends. -/
def Part.Closes (p : Part) : Prop := ∃ prose, p.after.dropWhile isBlank = '\n' :: prose

/-- Between two blocks there is at least the end of a line. -/
def Closed : List Part → Prop
  | [] | [_] => True
  | p :: q :: ps => p.Closes ∧ Closed (q :: ps)


/-- The text of blocks and the prose after each. -/
def partsText : List Part → List Char
  | [] => []
  | p :: ps => fence ++ (p.block.info ++ '\n' :: (p.block.body ++ (fence ++ (p.after ++ partsText ps))))

structure Message where
  before : List Char
  parts : List Part
  before_prose : '`' ∉ before
  closed : Closed parts

def Message.text (m : Message) : String := String.ofList (m.before ++ partsText m.parts)

/-! ### The extraction, with places -/

/-- `codeBlocks`, with the length of what follows each block. -/
def codeMatches : List Char → ℕ → List (String × String × ℕ)
  | [], _ => []
  | _ :: l, skip + 1 => codeMatches l skip
  | c :: l, 0 =>
    match blockAt (c :: l) with
    | none => codeMatches l 0
    | some (tag, code, rest) => (tag, code, rest.length) :: codeMatches l (l.length - rest.length)

/-- The language of a block with a tag, by its alias or by the rule for untagged blocks. -/
def languageFor (defaultLanguage : Language) (tag code : String) : Option Language :=
  match langByAlias.lookup tag.toLower with
  | some lang => some lang
  | none =>
    if tag ≠ "" then none
    else if defaultLanguage ≠ .python then some defaultLanguage
    else if pyHints.any (occurs · code) then some .python
    else none

/-- `extractCode`, with the length of what follows the block. -/
def extractAt (text : String) (defaultLanguage : Language) : Option (Language × String × ℕ) :=
  (codeMatches text.toList 0).findSome? fun e =>
    (languageFor defaultLanguage e.1 e.2.1).map fun lang => (lang, e.2.1, e.2.2)

theorem forget_codeMatches (l : List Char) (skip : ℕ) :
    (codeMatches l skip).map (fun e => (e.1, e.2.1)) = codeBlocks l skip := by
  fun_induction codeBlocks l skip with
  | case1 => rfl
  | case2 _ l skip ih => exact ih
  | case3 c l h ih =>
    rw [codeMatches, h]
    exact ih
  | case4 c l tag code rest h ih =>
    rw [codeMatches, h]
    exact congrArg ((tag, code) :: ·) ih

/-- **The place changes nothing.** -/
theorem forget_extractAt (text : String) (defaultLanguage : Language) :
    (extractAt text defaultLanguage).map (fun e => (e.1, e.2.1)) = extractCode text defaultLanguage := by
  rw [extractAt, extractCode, ← forget_codeMatches, List.findSome?_map, List.map_findSome?]
  congr 1
  funext e
  simp only [Function.comp, languageFor]
  cases langByAlias.lookup e.1.toLower with
  | some lang => rfl
  | none =>
    dsimp only
    split
    · rfl
    · split
      · rfl
      · split <;> rfl

/-! ### What is promised -/

/-- The first word of the line of the opening fence. -/
def Block.word (b : Block) : String :=
  String.ofList ((b.info.dropWhile isBlank).takeWhile (!isBlank ·))

/-- The language of a block, by the first word or by the rule for untagged blocks. -/
def Block.language (defaultLanguage : Language) (b : Block) : Option Language :=
  languageFor defaultLanguage b.word (String.ofList b.body)

/-- What is returned is a block with its language, where it stands, and no block before it has one. -/
def Returned (defaultLanguage : Language) (parts : List Part) (e : Language × String × ℕ) : Prop :=
  ∃ before p after, parts = before ++ p :: after ∧ p.block.language defaultLanguage = some e.1 ∧
    e.2.1 = String.ofList p.block.body ∧ e.2.2 = (p.after ++ partsText after).length ∧
    ∀ q ∈ before, q.block.language defaultLanguage = none

def Faithful (defaultLanguage : Language) (m : Message) : Prop :=
  ∀ e, extractAt m.text defaultLanguage = some e → Returned defaultLanguage m.parts e

/-! ### Its condition -/

/-- Nothing but a tag and blanks. -/
def Block.isBare (b : Block) : Bool := ((b.info.dropWhile isTag).dropWhile isBlank).isEmpty

/-- The text after a block, from its second line. -/
def Part.prose (p : Part) : List Char := (p.after.dropWhile isBlank).tail

/-- A block before the first one with more than a tag has a language, or no text between two blocks
from that one on counts as code. -/
def Clean (defaultLanguage : Language) (parts : List Part) : Prop :=
  (∃ p ∈ parts.takeWhile (·.block.isBare), p.block.language defaultLanguage ≠ none) ∨
    ∀ p ∈ (parts.dropWhile (·.block.isBare)).dropLast,
      languageFor defaultLanguage "" (String.ofList p.prose) = none

/-! ### The scan -/

/-- No fence begins in a text that `rest` follows. -/
def NoFence (u rest : List Char) : Prop := ∀ a b, u = a ++ b → b ≠ [] → ¬fence <+: b ++ rest

theorem NoFence.tail {c : Char} {u rest : List Char} (h : NoFence (c :: u) rest) : NoFence u rest :=
  fun a b hu hb => h (c :: a) b (by rw [hu, List.cons_append]) hb

theorem noFence_of_plain {u : List Char} (h : '`' ∉ u) (rest : List Char) : NoFence u rest := by
  rintro a b rfl hb hpre
  obtain ⟨c, b, rfl⟩ := List.exists_cons_of_ne_nil hb
  obtain ⟨t, ht⟩ := hpre
  obtain rfl : '`' = c := (List.cons.inj ht).1
  exact h (List.mem_append_right a List.mem_cons_self)

/-- The lines of a block. -/
theorem noFence_of_lines {u : List Char} (h : ¬fence <:+: u) (hends : ∀ c ∈ u.getLast?, c = '\n')
    (rest : List Char) : NoFence u rest := by
  rintro a b rfl hb hpre
  rcases List.prefix_or_prefix_of_prefix hpre (List.prefix_append b rest) with hin | hshort
  · -- the fence is in the lines
    obtain ⟨t, rfl⟩ := hin
    exact h ⟨a, t, by rw [List.append_assoc]⟩
  · -- their last character is one of the fence
    have hlast : b.getLast hb = '\n' := by
      refine hends _ ?_
      rw [List.getLast?_append_of_ne_nil a hb]
      exact List.getLast?_eq_getLast_of_ne_nil hb
    have hmem : '\n' ∈ fence := hlast ▸ hshort.subset (List.getLast_mem hb)
    exact absurd hmem (by decide)

theorem blockAt_of_not_prefix {l : List Char} (h : ¬fence <+: l) : blockAt l = none := by
  rw [blockAt, if_neg fun hpre => h (List.isPrefixOf_iff_prefix.mp hpre)]

theorem codeMatches_of_none {c : Char} {l : List Char} (h : blockAt (c :: l) = none) :
    codeMatches (c :: l) 0 = codeMatches l 0 := by
  rw [codeMatches, h]

theorem codeMatches_pass {u rest : List Char} (h : NoFence u rest) :
    codeMatches (u ++ rest) 0 = codeMatches rest 0 := by
  induction u with
  | nil => rfl
  | cons c u ih =>
    have hnone := blockAt_of_not_prefix (h [] (c :: u) rfl (List.cons_ne_nil c u))
    rw [List.cons_append] at hnone ⊢
    rw [codeMatches_of_none hnone, ih h.tail]

theorem codeMatches_skip (u rest : List Char) : codeMatches (u ++ rest) u.length = codeMatches rest 0 := by
  induction u with
  | nil => rfl
  | cons c u ih => exact ih

theorem codeMatches_of_some {c : Char} {u rest : List Char} {tag code : String}
    (h : blockAt (c :: (u ++ rest)) = some (tag, code, rest)) :
    codeMatches (c :: (u ++ rest)) 0 = (tag, code, rest.length) :: codeMatches rest 0 := by
  rw [codeMatches, h]
  dsimp only
  rw [List.length_append, Nat.add_sub_cancel, codeMatches_skip]

theorem upToFence_eq {u rest : List Char} (h : NoFence u (fence ++ rest)) :
    upToFence (u ++ (fence ++ rest)) = some (u, rest) := by
  induction u with
  | nil =>
    rw [List.nil_append, upToFence.eq_def, if_pos (List.isPrefixOf_iff_prefix.mpr (List.prefix_append fence rest)),
      List.drop_left]
  | cons c u ih =>
    have hnot : ¬fence.isPrefixOf (c :: (u ++ (fence ++ rest))) = true := fun hpre =>
      h [] (c :: u) rfl (List.cons_ne_nil c u) (List.isPrefixOf_iff_prefix.mp hpre)
    rw [List.cons_append, upToFence, if_neg hnot, ih h.tail]
    rfl

theorem upToFence_eq_none {u : List Char} (h : '`' ∉ u) : upToFence u = none := by
  induction u with
  | nil => rfl
  | cons c u ih =>
    have hnot : ¬fence.isPrefixOf (c :: u) = true := fun hpre => by
      have hpre' := List.isPrefixOf_iff_prefix.mp hpre
      exact noFence_of_plain h [] [] (c :: u) rfl (List.cons_ne_nil c u) (by rwa [List.append_nil])
    rw [upToFence, if_neg hnot, ih fun hu => h (List.mem_cons_of_mem c hu)]
    rfl

theorem dropWhile_append_stop {q : Char → Bool} {d : Char} (hd : q d = false) (u r : List Char) :
    (u ++ d :: r).dropWhile q = u.dropWhile q ++ d :: r := by
  induction u with
  | nil => exact List.dropWhile_cons_of_neg (by rw [hd]; exact Bool.false_ne_true)
  | cons c u ih =>
    rw [List.cons_append, List.dropWhile_cons, List.dropWhile_cons]
    split
    · exact ih
    · rfl

theorem takeWhile_append_stop {q : Char → Bool} {d : Char} (hd : q d = false) (u r : List Char) :
    (u ++ d :: r).takeWhile q = u.takeWhile q := by
  induction u with
  | nil => exact List.takeWhile_cons_of_neg (by rw [hd]; exact Bool.false_ne_true)
  | cons c u ih =>
    rw [List.cons_append, List.takeWhile_cons, List.takeWhile_cons, ih]

theorem blockAt_fence (l : List Char) : blockAt (fence ++ l) =
    match (l.dropWhile isTag).dropWhile isBlank with
    | '\n' :: body => (upToFence body).map fun e =>
        (String.ofList (l.takeWhile isTag), String.ofList e.1, e.2)
    | _ => none := by
  rw [blockAt, if_pos (List.isPrefixOf_iff_prefix.mpr (List.prefix_append fence l)), List.drop_left]
  rfl

/-- A bare opening fence begins its block. -/
theorem blockAt_bare {b : Block} (hbare : b.isBare = true) (rest : List Char) :
    blockAt (fence ++ (b.info ++ '\n' :: (b.body ++ (fence ++ rest)))) =
      some (String.ofList (b.info.takeWhile isTag), String.ofList b.body, rest) := by
  have hinfo : (b.info.dropWhile isTag).dropWhile isBlank = [] := List.isEmpty_iff.mp hbare
  rw [blockAt_fence, dropWhile_append_stop (by decide), dropWhile_append_stop (by decide), hinfo,
    takeWhile_append_stop (by decide), List.nil_append]
  show (upToFence (b.body ++ (fence ++ rest))).map _ = _
  rw [upToFence_eq (noFence_of_lines b.body_fence b.body_ends _)]
  rfl

/-- What is left of a fence that begins nothing. -/
theorem codeMatches_fence {l : List Char} (h : blockAt (fence ++ l) = none) (hl : ∀ c ∈ l.head?, c ≠ '`') :
    codeMatches (fence ++ l) 0 = codeMatches l 0 := by
  have hshort : ∀ u : List Char, u = ['`', '`'] ∨ u = ['`'] → blockAt (u ++ l) = none := by
    intro u hu
    refine blockAt_of_not_prefix fun hpre => ?_
    cases l with
    | nil =>
      have hlength := hpre.length_le
      rcases hu with rfl | rfl <;> exact absurd hlength (by decide)
    | cons d l =>
      obtain ⟨t, ht⟩ := hpre
      have hd := hl d rfl
      rcases hu with rfl | rfl
      · exact hd (List.cons.inj (List.cons.inj (List.cons.inj ht).2).2).1.symm
      · exact hd (List.cons.inj (List.cons.inj ht).2).1.symm
  have hfence : fence ++ l = '`' :: (['`', '`'] ++ l) := rfl
  rw [hfence, codeMatches_of_none (by rwa [← hfence])]
  exact (codeMatches_of_none (hshort ['`', '`'] (.inl rfl))).trans
    (codeMatches_of_none (hshort ['`'] (.inr rfl)))

theorem Block.not_mem_info (b : Block) : '`' ∉ b.info ++ ['\n'] := by
  rw [List.mem_append, List.mem_singleton]
  exact fun h => h.elim (fun h => (b.info_line _ h).2 rfl) (by decide)

/-- Behind a fence that begins nothing there is nothing up to the closing one. -/
theorem codeMatches_lines (b : Block) (rest : List Char) :
    codeMatches (b.info ++ '\n' :: (b.body ++ rest)) 0 = codeMatches rest 0 := by
  rw [List.append_cons, codeMatches_pass (noFence_of_plain b.not_mem_info _),
    codeMatches_pass (noFence_of_lines b.body_fence b.body_ends _)]

/-- An opening fence with more than a tag is passed over, and its block with it. -/
theorem codeMatches_not_bare {b : Block} (hbare : b.isBare = false) (rest : List Char) :
    codeMatches (fence ++ (b.info ++ '\n' :: (b.body ++ rest))) 0 = codeMatches rest 0 := by
  have hne : (b.info.dropWhile isTag).dropWhile isBlank ≠ [] := fun hnil => by
    rw [Block.isBare, hnil] at hbare
    cases hbare
  obtain ⟨c, l, hc⟩ := List.exists_cons_of_ne_nil hne
  have hmem : c ∈ b.info := (List.dropWhile_suffix _).subset
    ((List.dropWhile_suffix _).subset (hc ▸ List.mem_cons_self))
  have hnone : blockAt (fence ++ (b.info ++ '\n' :: (b.body ++ rest))) = none := by
    rw [blockAt_fence, dropWhile_append_stop (by decide), dropWhile_append_stop (by decide), hc]
    split
    · next heq => exact absurd (List.cons.inj heq).1 (b.info_line c hmem).1
    · rfl
  have hhead : ∀ d ∈ (b.info ++ '\n' :: (b.body ++ rest)).head?, d ≠ '`' := by
    rintro d hd rfl
    rw [List.append_cons, List.head?_append_of_ne_nil _ (List.append_ne_nil_of_right_ne_nil _ (by decide))] at hd
    exact b.not_mem_info (List.mem_of_mem_head? hd)
  rw [codeMatches_fence hnone hhead, codeMatches_lines]

/-- After the last block nothing is found. -/
theorem codeMatches_last {u : List Char} (h : '`' ∉ u) : codeMatches (fence ++ u) 0 = [] := by
  have hnone : blockAt (fence ++ u) = none := by
    rw [blockAt_fence]
    split
    · next body heq =>
      have hbody : '`' ∉ body := fun hmem => h ((List.dropWhile_suffix _).subset
        ((List.dropWhile_suffix _).subset (heq ▸ List.mem_cons_of_mem _ hmem)))
      rw [upToFence_eq_none hbody]
      rfl
    · rfl
  have hhead : ∀ c ∈ u.head?, c ≠ '`' := by
    rintro c hc rfl
    exact h (List.mem_of_mem_head? hc)
  have hpass := codeMatches_pass (noFence_of_plain h [])
  rw [codeMatches_fence hnone hhead]
  rwa [List.append_nil] at hpass

theorem not_isTag_of_isBlank {c : Char} (h : isBlank c = true) : isTag c = false := by
  have hall : ∀ d ∈ " \t".toList, isTag d = false := by decide
  exact hall c (List.contains_iff_mem.mp h)

/-- The closing fence of a block that was not found begins one with the prose after it. -/
theorem blockAt_closing {p : Part} (hcloses : p.Closes) (rest : List Char) :
    blockAt (fence ++ (p.after ++ (fence ++ rest))) = some ("", String.ofList p.prose, rest) := by
  obtain ⟨prose, hprose⟩ := hcloses
  obtain ⟨c, l, hafter⟩ : ∃ c l, p.after = c :: l := by
    cases hl : p.after with
    | nil =>
      rw [hl] at hprose
      cases hprose
    | cons c l => exact ⟨c, l, rfl⟩
  have htag : isTag c = false := by
    cases hc : isBlank c with
    | true => exact not_isTag_of_isBlank hc
    | false =>
      rw [hafter, List.dropWhile_cons_of_neg (by rw [hc]; exact Bool.false_ne_true)] at hprose
      rw [(List.cons.inj hprose).1]
      decide
  have hneg : ¬isTag c = true := by
    rw [htag]
    exact Bool.false_ne_true
  have hplain : '`' ∉ prose := fun hmem => p.after_prose
    ((List.dropWhile_suffix _).subset (hprose ▸ List.mem_cons_of_mem _ hmem))
  have hdrop : (p.after ++ (fence ++ rest)).dropWhile isBlank = '\n' :: (prose ++ (fence ++ rest)) := by
    rw [List.dropWhile_append, hprose]
    rfl
  have hsame : (p.after ++ (fence ++ rest)).dropWhile isTag = p.after ++ (fence ++ rest) := by
    rw [hafter, List.cons_append, List.dropWhile_cons_of_neg hneg]
  have hnil : (p.after ++ (fence ++ rest)).takeWhile isTag = [] := by
    rw [hafter, List.cons_append, List.takeWhile_cons_of_neg hneg]
  rw [blockAt_fence, hsame, hdrop, hnil, Part.prose, hprose, List.tail_cons]
  show (upToFence (prose ++ (fence ++ rest))).map _ = _
  rw [upToFence_eq (noFence_of_plain hplain _)]
  rfl

/-! ### What is found in a message -/

/-- Behind the opening fence of a part. -/
def Part.behind (p : Part) (ps : List Part) : List Char :=
  p.block.info ++ '\n' :: (p.block.body ++ (fence ++ (p.after ++ partsText ps)))

/-- From a block that is not found on, what is found is the text after each block but the last. -/
def shifted (p : Part) : List Part → List (String × String × ℕ)
  | [] => []
  | q :: ps => ("", String.ofList p.prose, (q.behind ps).length) :: shifted q ps

/-- What is found: the blocks, up to the first one with more than a tag. -/
def found : List Part → List (String × String × ℕ)
  | [] => []
  | p :: ps =>
    if p.block.isBare then
      (String.ofList (p.block.info.takeWhile isTag), String.ofList p.block.body,
        (p.after ++ partsText ps).length) :: found ps
    else shifted p ps

theorem codeMatches_fence_of_some {l u rest : List Char} {tag code : String} (hl : l = u ++ rest)
    (h : blockAt (fence ++ l) = some (tag, code, rest)) :
    codeMatches (fence ++ l) 0 = (tag, code, rest.length) :: codeMatches rest 0 := by
  subst hl
  exact codeMatches_of_some (u := ['`', '`'] ++ u) h

theorem Closed.tail {p : Part} {ps : List Part} (h : Closed (p :: ps)) : Closed ps := by
  cases ps with
  | nil => trivial
  | cons q ps => exact h.2

/-- At a closing fence that is taken for an opening one. -/
theorem codeMatches_shifted (p : Part) (ps : List Part) (h : Closed (p :: ps)) :
    codeMatches (fence ++ (p.after ++ partsText ps)) 0 = shifted p ps := by
  induction ps generalizing p with
  | nil =>
    rw [partsText, List.append_nil]
    exact codeMatches_last p.after_prose
  | cons q ps ih =>
    obtain ⟨hcloses, hclosed⟩ := h
    -- the prose, up to the next opening fence; then the line and the block behind that
    have hsplit : p.after ++ partsText (q :: ps) = (p.after ++ fence) ++ q.behind ps := by
      rw [List.append_assoc]
      rfl
    rw [codeMatches_fence_of_some hsplit (blockAt_closing hcloses (q.behind ps)), Part.behind,
      codeMatches_lines, ih q hclosed]
    rfl

/-- **The blocks, up to the first one with more than a tag; from there on the text after each block.** -/
theorem codeMatches_partsText (ps : List Part) (h : Closed ps) : codeMatches (partsText ps) 0 = found ps := by
  induction ps with
  | nil => rfl
  | cons p ps ih =>
    rw [found, partsText]
    cases hbare : p.block.isBare with
    | true =>
      have hsplit : p.block.info ++ '\n' :: (p.block.body ++ (fence ++ (p.after ++ partsText ps))) =
          (p.block.info ++ '\n' :: (p.block.body ++ fence)) ++ (p.after ++ partsText ps) := by
        rw [List.append_assoc, List.cons_append, List.append_assoc]
      rw [codeMatches_fence_of_some hsplit (blockAt_bare hbare _),
        codeMatches_pass (noFence_of_plain p.after_prose _), ih h.tail, if_pos rfl]
    | false =>
      rw [codeMatches_not_bare hbare, codeMatches_shifted p ps h, if_neg Bool.false_ne_true]

/-! ### What is returned -/

/-- The first word of a bare line is its tag. -/
theorem word_of_bare {b : Block} (hbare : b.isBare = true) : b.word = String.ofList (b.info.takeWhile isTag) := by
  have hblank : ∀ c ∈ b.info.dropWhile isTag, isBlank c = true :=
    List.dropWhile_eq_nil_iff.mp (List.isEmpty_iff.mp hbare)
  have hinfo : b.info.takeWhile isTag ++ b.info.dropWhile isTag = b.info := List.takeWhile_append_dropWhile
  have hrest : (b.info.dropWhile isTag).takeWhile (!isBlank ·) = [] := by
    cases hr : b.info.dropWhile isTag with
    | nil => rfl
    | cons c r =>
      have hc := hblank c (hr ▸ List.mem_cons_self)
      rw [List.takeWhile_cons, hc]
      rfl
  have htag : ∀ c ∈ b.info.takeWhile isTag, (!isBlank c) = true := by
    intro c hc
    cases hb : isBlank c with
    | false => rfl
    | true => cases (List.mem_takeWhile_imp hc).symm.trans (not_isTag_of_isBlank hb)
  rw [Block.word]
  congr 1
  cases ht : b.info.takeWhile isTag with
  | nil =>
    rw [ht, List.nil_append] at hinfo
    rw [← hinfo, List.dropWhile_eq_nil_iff.mpr hblank]
    rfl
  | cons c t =>
    rw [ht] at htag hinfo
    have hc : ¬isBlank c = true := by
      rw [Bool.not_eq_true, ← Bool.not_eq_true']
      exact htag c List.mem_cons_self
    rw [← hinfo, List.cons_append, List.dropWhile_cons_of_neg hc, ← List.cons_append,
      List.takeWhile_append_of_pos htag, hrest, List.append_nil]

/-- How `extractAt` looks at what is found. -/
def accepted (defaultLanguage : Language) (e : String × String × ℕ) : Option (Language × String × ℕ) :=
  (languageFor defaultLanguage e.1 e.2.1).map fun lang => (lang, e.2.1, e.2.2)

theorem accepted_eq_none {d : Language} {e : String × String × ℕ} :
    accepted d e = none ↔ languageFor d e.1 e.2.1 = none := Option.map_eq_none_iff

theorem extractAt_text (m : Message) (d : Language) :
    extractAt m.text d = (found m.parts).findSome? (accepted d) := by
  rw [extractAt, Message.text, String.toList_ofList, codeMatches_pass (noFence_of_plain m.before_prose _),
    codeMatches_partsText m.parts m.closed]
  rfl

/-- The texts that are found after a block that is not. -/
theorem forall_shifted {d : Language} (p : Part) (ps : List Part) :
    (∀ e ∈ shifted p ps, accepted d e = none) ↔
      ∀ q ∈ (p :: ps).dropLast, languageFor d "" (String.ofList q.prose) = none := by
  induction ps generalizing p with
  | nil => exact iff_of_true (List.forall_mem_nil _) (List.forall_mem_nil _)
  | cons q ps ih =>
    rw [shifted, List.forall_mem_cons, ih q, List.dropLast_cons_cons, List.forall_mem_cons, accepted_eq_none]

theorem mem_shifted {p : Part} {ps : List Part} {e : String × String × ℕ} (h : e ∈ shifted p ps) :
    ∃ q qs, q :: qs <:+ ps ∧ e.2.2 = (q.behind qs).length := by
  induction ps generalizing p with
  | nil => cases h
  | cons q ps ih =>
    rcases List.mem_cons.mp h with rfl | h
    · exact ⟨q, ps, List.suffix_rfl, rfl⟩
    · obtain ⟨r, rs, hsuffix, hlength⟩ := ih h
      exact ⟨r, rs, hsuffix.trans (List.suffix_cons q ps), hlength⟩

theorem length_partsText_le {ps qs : List Part} (h : ps <:+ qs) :
    (partsText ps).length ≤ (partsText qs).length := by
  obtain ⟨rs, rfl⟩ := h
  induction rs with
  | nil => exact le_rfl
  | cons r rs ih =>
    refine ih.trans ?_
    rw [List.cons_append, partsText]
    simp only [List.length_append, List.length_cons]
    omega

/-- Behind an opening fence is not behind a closing one. -/
theorem length_behind_ne {p q : Part} {ps qs all : List Part} (hp : p :: ps <:+ all) (hq : q :: qs <:+ all) :
    (q.behind qs).length ≠ (p.after ++ partsText ps).length := by
  have htext (r : Part) (rs : List Part) : (partsText (r :: rs)).length = 3 + (r.behind rs).length := by
    rw [partsText, List.length_append]
    rfl
  have hafter (r : Part) (rs : List Part) : (partsText rs).length ≤ (r.after ++ partsText rs).length ∧
      (r.after ++ partsText rs).length < (r.behind rs).length := by
    rw [Part.behind]
    simp only [List.length_append, List.length_cons]
    omega
  have hpafter := hafter p ps
  have hqafter := hafter q qs
  rcases List.suffix_or_suffix_of_suffix hp hq with h | h
  · rcases List.suffix_cons_iff.mp h with heq | h
    · cases heq
      omega
    · have hle := length_partsText_le h
      rw [htext] at hle
      omega
  · rcases List.suffix_cons_iff.mp h with heq | h
    · cases heq
      omega
    · have hle := length_partsText_le h
      rw [htext] at hle
      omega

/-- The text between two blocks is never what is promised. -/
theorem not_returned_shifted {d : Language} {p : Part} {ps : List Part} {e : Language × String × ℕ}
    (he : (shifted p ps).findSome? (accepted d) = some e) : ¬Returned d (p :: ps) e := by
  rintro ⟨before, x, after, hparts, -, -, hlength, -⟩
  obtain ⟨m, hm, haccepted⟩ := List.exists_of_findSome?_eq_some he
  obtain ⟨q, qs, hsuffix, hq⟩ := mem_shifted hm
  obtain ⟨lang, -, rfl⟩ := Option.map_eq_some_iff.mp haccepted
  exact @length_behind_ne x _ after _ _ ⟨before, hparts.symm⟩
    (hsuffix.trans (List.suffix_cons p ps)) (hq.symm.trans hlength)

/-- **Of the blocks the first with a language is returned, if no text is taken for one before.** -/
theorem returned_iff (d : Language) (ps : List Part) :
    (∀ e, (found ps).findSome? (accepted d) = some e → Returned d ps e) ↔ Clean d ps := by
  induction ps with
  | nil => exact iff_of_true (fun e he => by cases he) (.inr (List.forall_mem_nil _))
  | cons p ps ih =>
    rw [found, Clean, List.takeWhile_cons, List.dropWhile_cons]
    cases hbare : p.block.isBare with
    | false =>
      -- what is found is text between the blocks
      rw [if_neg Bool.false_ne_true, if_neg Bool.false_ne_true, if_neg Bool.false_ne_true, ← forall_shifted]
      refine ⟨fun h => .inr ?_, fun h e he => ?_⟩
      · rw [← List.findSome?_eq_none_iff]
        by_contra hsome
        obtain ⟨e, he⟩ := Option.ne_none_iff_exists'.mp hsome
        exact not_returned_shifted he (h e he)
      · rcases h with ⟨x, hx, -⟩ | hnone
        · cases hx
        · rw [List.findSome?_eq_none_iff.mpr hnone] at he
          cases he
    | true =>
      have hlanguage : p.block.language d =
          languageFor d (String.ofList (p.block.info.takeWhile isTag)) (String.ofList p.block.body) := by
        rw [Block.language, word_of_bare hbare]
      rw [if_pos rfl, if_pos rfl, if_pos rfl, List.findSome?_cons]
      cases hlang : p.block.language d with
      | some lang =>
        refine iff_of_true (fun e he => ?_) (.inl ⟨p, List.mem_cons_self, ?_⟩)
        · rw [accepted, ← hlanguage, hlang] at he
          cases he
          exact ⟨[], p, ps, rfl, hlang, rfl, rfl, List.forall_mem_nil _⟩
        · rw [hlang]
          exact Option.some_ne_none _
      | none =>
        have hskip : accepted d (String.ofList (p.block.info.takeWhile isTag), String.ofList p.block.body,
            (p.after ++ partsText ps).length) = none := by
          rw [accepted_eq_none, ← hlanguage, hlang]
        rw [hskip]
        dsimp only
        have hreturned (e : Language × String × ℕ) : Returned d (p :: ps) e ↔ Returned d ps e := by
          constructor
          · rintro ⟨before, x, after, hparts, hx, hbefore⟩
            cases before with
            | nil =>
              cases hparts
              exact absurd (hlang.symm.trans hx) (Option.some_ne_none _).symm
            | cons y before =>
              cases hparts
              exact ⟨before, x, after, rfl, hx, hbefore.1, hbefore.2.1,
                fun q hq => hbefore.2.2 q (List.mem_cons_of_mem _ hq)⟩
          · rintro ⟨before, x, after, rfl, hx, hcode, hleft, hbefore⟩
            exact ⟨p :: before, x, after, rfl, hx, hcode, hleft, List.forall_mem_cons.mpr ⟨hlang, hbefore⟩⟩
        simp only [hreturned]
        rw [ih, Clean]
        refine or_congr_left ⟨fun ⟨x, hx, hne⟩ => ⟨x, List.mem_cons_of_mem p hx, hne⟩, ?_⟩
        rintro ⟨x, hx, hne⟩
        rcases List.mem_cons.mp hx with rfl | hx
        · exact absurd hlang hne
        · exact ⟨x, hx, hne⟩

/-- **The code of a message is faithful exactly if the message is clean.** -/
theorem code_faithful_iff (d : Language) (m : Message) : Faithful d m ↔ Clean d m.parts := by
  rw [Faithful, extractAt_text]
  exact returned_iff d m.parts

/-! ### A message -/

def titled : Block := ⟨"python title=demo".toList, "x = 1\n".toList, by decide, by decide, by decide⟩

def plain : Block := ⟨"python".toList, "print(2)\n".toList, by decide, by decide, by decide⟩

/-- Two blocks of Python, the first one with a title. -/
def twoBlocks : Message where
  before := "First:\n".toList
  parts := [⟨titled, "\nThen import it like this:\n".toList, by decide⟩, ⟨plain, "\n".toList, by decide⟩]
  before_prose := by decide
  closed := ⟨⟨_, rfl⟩, trivial⟩

/-- The sentence between the blocks is executed as Python. -/
theorem not_faithful : ¬Faithful .python twoBlocks := by
  intro h
  have hextract : extractAt twoBlocks.text .python = some (.python, "Then import it like this:\n", 20) := by
    decide +kernel
  obtain ⟨before, p, after, hparts, -, hcode, -⟩ := h _ hextract
  have hp : p ∈ twoBlocks.parts := hparts ▸ List.mem_append_right before List.mem_cons_self
  have hbody : ∀ q ∈ twoBlocks.parts, q.block.body ≠ "Then import it like this:\n".toList := by
    intro q hq
    rcases List.mem_cons.mp hq with rfl | hq
    · decide
    · rw [List.mem_singleton.mp hq]
      decide
  exact hbody p hp (String.toList_ofList.symm.trans (congrArg String.toList hcode.symm))

end Execute
end CloudCore
