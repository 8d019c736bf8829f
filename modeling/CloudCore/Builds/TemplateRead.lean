import CloudCore.Builds.TemplateVars

/-!
# The variables are read from the blocks

What the patterns of `extract_template_vars` find in a printed file.

## Main results

* `found_printFile` — the headers and bodies that are found are those of the blocks.
* `extractDefault_eq_iff` — when the text of a default is that of the attribute.
* `readsRight_iff` — **exactly when framed blocks are read right.**
-/

namespace CloudCore
namespace TemplateVars

open Formats Python

variable {letter : Char → Bool}

/-! ### Headers -/

theorem isPrefixOf_append_cons {w l rest : Line} {c : Char} (hc : c ∉ w) :
    w.isPrefixOf (l ++ c :: rest) = w.isPrefixOf l := by
  rw [Bool.eq_iff_iff, List.isPrefixOf_iff_prefix, List.isPrefixOf_iff_prefix]
  refine ⟨fun h => ?_, fun h => h.trans (List.prefix_append l _)⟩
  obtain hw | ⟨q, rfl⟩ := List.prefix_or_prefix_of_prefix h (List.prefix_append l (c :: rest))
  · exact hw
  · cases q with
    | nil => rw [List.append_nil]
    | cons d q =>
      obtain ⟨rfl, -⟩ := List.cons_prefix_cons.mp ((List.prefix_append_right_inj l).mp h)
      exact absurd (List.mem_append_right _ List.mem_cons_self) hc

/-- A word without some character is read before it. -/
theorem expect_append_cons {w l rest : Line} {c : Char} (hc : c ∉ w) :
    expect w (l ++ c :: rest) = (expect w l).map (· ++ c :: rest) := by
  unfold expect
  rw [isPrefixOf_append_cons hc]
  split
  · next h =>
    have hle : w.length ≤ l.length := (List.isPrefixOf_iff_prefix.mp h).length_le
    rw [List.drop_append_of_le_length hle]
    rfl
  · rfl

theorem dropWhile_append_cons {p : Char → Bool} {l rest : Line} {c : Char} (hc : p c = false) :
    (l ++ c :: rest).dropWhile p = l.dropWhile p ++ c :: rest := by
  have hstop : (c :: rest).dropWhile p = c :: rest := by
    rw [List.dropWhile_cons, hc]
    rfl
  rw [List.dropWhile_append, hstop]
  split
  · next h => rw [List.isEmpty_iff.mp h, List.nil_append]
  · rfl

theorem takeWhile_append_cons {p : Char → Bool} {l rest : Line} {c : Char} (hc : p c = false) :
    (l ++ c :: rest).takeWhile p = l.takeWhile p := by
  have hstop : (c :: rest).takeWhile p = [] := by
    rw [List.takeWhile_cons, hc]
    rfl
  rw [List.takeWhile_append, hstop]
  split
  · next h =>
    rw [List.append_nil]
    exact (List.takeWhile_prefix p).eq_of_length h |>.symm
  · rfl

theorem head_append_cons {l rest : Line} {c : Char} (hc : isSpace c = false) :
    (l ++ c :: rest).head?.any isSpace = l.head?.any isSpace := by
  cases l with
  | nil => exact hc
  | cons d l => rfl

theorem isWord_brace : isWord letter '\x7d' = false := rfl

theorem isWord_quote : isWord letter '"' = false := rfl

theorem isNameChar_quote : isNameChar letter '"' = false := rfl

/-- A header is not read beyond a closing brace. -/
theorem matchHeader_append_cons (l rest : Line) :
    matchHeader letter (l ++ '\x7d' :: rest) = (matchHeader letter l).map fun r => (r.1, r.2 ++ '\x7d' :: rest) := by
  unfold matchHeader
  rw [expect_append_cons (by decide)]
  cases expect "variable".toList l with
  | none => rfl
  | some l₁ =>
    rw [Option.map_some, Option.bind_some, Option.bind_some, head_append_cons (by decide),
      dropWhile_append_cons (by decide), expect_append_cons (by decide)]
    split
    · cases expect ['"'] (l₁.dropWhile isSpace) with
      | none => rfl
      | some l₂ =>
        rw [Option.map_some, Option.bind_some, Option.bind_some, takeWhile_append_cons isWord_brace,
          dropWhile_append_cons isWord_brace, expect_append_cons (by decide)]
        split
        · rfl
        · cases expect ['"'] (l₂.dropWhile (isWord letter)) with
          | none => rfl
          | some l₃ =>
            rw [Option.map_some, Option.bind_some, Option.bind_some, dropWhile_append_cons (by decide),
              expect_append_cons (by decide), Option.map_map, Option.map_map]
            rfl
    · rfl

theorem expect_self_append (w l : Line) : expect w (w ++ l) = some l := by
  rw [expect, if_pos (List.isPrefixOf_iff_prefix.mpr (List.prefix_append w l)), List.drop_left]

theorem expect_of_head {w l : Line} {c : Char} (h : l.head? ≠ some c) : expect (c :: w) l = none := by
  unfold expect
  cases l with
  | nil => rfl
  | cons d l =>
    have hne : (c == d) = false := beq_eq_false_iff_ne.mpr fun heq => h (by rw [heq]; rfl)
    rw [List.isPrefixOf_cons_cons, hne, Bool.false_and, if_neg Bool.false_ne_true]

/-- A header begins with a `v`. -/
theorem matchHeader_of_head {l : Line} (h : l.head? ≠ some 'v') : matchHeader letter l = none := by
  have hnone : expect "variable".toList l = none := expect_of_head h
  rw [matchHeader, hnone]
  rfl

/-- What follows the header of a block. -/
def headerText (b : Block letter) (rest : Line) : Line :=
  "variable".toList ++ (b.gap.text ++ '"' :: (b.name ++ '"' :: (b.gap'.text ++ '\x7b' :: rest)))

theorem headerText_append (b : Block letter) (l rest : Line) :
    headerText b (l ++ rest) = headerText b l ++ rest := by
  unfold headerText
  generalize "variable".toList = word
  simp only [List.append_assoc, List.cons_append]

theorem headerText_cons (b : Block letter) (rest : Line) : headerText b rest = 'v' :: ("ariable".toList ++
    (b.gap.text ++ '"' :: (b.name ++ '"' :: (b.gap'.text ++ '\x7b' :: rest)))) := by
  have hword : "variable".toList = 'v' :: "ariable".toList := by decide
  unfold headerText
  rw [hword]
  generalize "ariable".toList = word
  rfl

theorem dropWhile_gap (g : Gap) {c : Char} (hc : isSpace c = false) (l : Line) :
    (g.text ++ c :: l).dropWhile isSpace = c :: l := by
  rw [dropWhile_append_cons hc, List.dropWhile_eq_nil_iff.mpr g.blank, List.nil_append]

/-- **A header is read if its name has no hyphen.** -/
theorem matchHeader_headerText (b : Block letter) (rest : Line) :
    matchHeader letter (headerText b rest) =
      if ∀ c ∈ b.name, isWord letter c = true then some (b.name, rest) else none := by
  have hspace : (b.gap.text ++ '"' :: (b.name ++ '"' :: (b.gap'.text ++ '\x7b' :: rest))).head?.any isSpace = true := by
    obtain ⟨c, l, hgap⟩ := List.exists_cons_of_ne_nil b.gapped
    have hc := b.gap.blank c (by rw [hgap]; exact List.mem_cons_self)
    rw [hgap]
    exact hc
  have hquote (l : Line) : expect ['"'] ('"' :: l) = some l := expect_self_append ['"'] l
  have hbrace (l : Line) : expect ['\x7b'] ('\x7b' :: l) = some l := expect_self_append ['\x7b'] l
  unfold matchHeader headerText
  rw [expect_self_append, Option.bind_some, if_pos hspace, dropWhile_gap b.gap (by decide), hquote,
    Option.bind_some, takeWhile_append_cons isWord_quote, dropWhile_append_cons isWord_quote]
  by_cases hword : ∀ c ∈ b.name, isWord letter c = true
  · rw [if_pos hword, List.takeWhile_eq_self_iff.mpr hword, List.dropWhile_eq_nil_iff.mpr hword,
      if_neg b.named.1, List.nil_append, hquote, Option.bind_some, dropWhile_gap b.gap' (by decide), hbrace]
    rfl
  · rw [if_neg hword]
    split
    · rfl
    · -- behind the word stands a hyphen
      obtain ⟨c, l, hrest⟩ := List.exists_cons_of_ne_nil fun hnil => hword (List.dropWhile_eq_nil_iff.mp hnil)
      have hne : c ≠ '"' := by
        rintro rfl
        have hmem : '"' ∈ b.name := (List.dropWhile_suffix _).subset (by rw [hrest]; exact List.mem_cons_self)
        have hname := (b.named.2 _ hmem).1
        rw [isNameChar_quote] at hname
        cases hname
      rw [hrest, List.cons_append, expect_of_head (by simpa using hne)]
      rfl

/-! ### The scan for headers -/

/-- No header begins in the first of two texts. -/
def NoStart (letter : Char → Bool) (l rest : Line) : Prop :=
  ∀ s, s ≠ [] → s <:+ l → matchHeader letter (s ++ rest) = none

theorem headersFrom_append {l rest : Line} (h : NoStart letter l rest) :
    headersFrom letter (l ++ rest) 0 = headersFrom letter rest 0 := by
  induction l with
  | nil => rfl
  | cons c l ih =>
    have hnone : matchHeader letter (c :: (l ++ rest)) = none :=
      h (c :: l) (List.cons_ne_nil _ _) List.suffix_rfl
    rw [List.cons_append, headersFrom, hnone]
    exact ih fun s hs hsuffix => h s hs (hsuffix.trans (List.suffix_cons c l))

theorem headersFrom_skip (l rest : Line) : headersFrom letter (l ++ rest) l.length = headersFrom letter rest 0 := by
  induction l with
  | nil => rfl
  | cons c l ih => exact ih

/-- Characters other than `v` begin no header. -/
theorem noStart_of_forall {l : Line} (h : ∀ c ∈ l, c ≠ 'v') (rest : Line) : NoStart letter l rest := by
  intro s hs hsuffix
  obtain ⟨c, s, rfl⟩ := List.exists_cons_of_ne_nil hs
  refine matchHeader_of_head ?_
  have hc := h c (hsuffix.subset List.mem_cons_self)
  simpa using hc

/-- A suffix of two texts begins in the second one, or before it. -/
theorem suffix_append_cases {s l l' : Line} (h : s <:+ l ++ l') : s <:+ l' ∨ ∃ q, q <:+ l ∧ s = q ++ l' := by
  obtain hs | ⟨q, rfl⟩ := List.suffix_or_suffix_of_suffix h (List.suffix_append l l')
  · exact Or.inl hs
  · obtain ⟨t, ht⟩ := h
    rw [← List.append_assoc] at ht
    exact Or.inr ⟨q, ⟨t, List.append_cancel_right ht⟩, rfl⟩

theorem NoStart.append {l l' rest : Line} (h : NoStart letter l (l' ++ rest)) (h' : NoStart letter l' rest) :
    NoStart letter (l ++ l') rest := by
  intro s hs hsuffix
  obtain hlater | ⟨q, hq, rfl⟩ := suffix_append_cases hsuffix
  · exact h' s hs hlater
  · by_cases hnil : q = []
    · rw [hnil, List.nil_append] at hs ⊢
      exact h' l' hs List.suffix_rfl
    · rw [List.append_assoc]
      exact h q hnil hq

theorem noStart_gap (g : Gap) (rest : Line) : NoStart letter g.text rest := by
  refine noStart_of_forall (fun c hc => ?_) rest
  rintro rfl
  exact absurd (g.blank 'v' hc) (by decide)

/-- Within a name a header would need a blank. -/
theorem noStart_name (b : Block letter) (rest : Line) : NoStart letter b.name ('"' :: rest) := by
  intro s hs hsuffix
  unfold matchHeader
  rw [expect_append_cons (by decide)]
  cases hword : expect "variable".toList s with
  | none => rfl
  | some l =>
    have hl : ∀ c ∈ l, isSpace c = false := by
      intro c hc
      unfold expect at hword
      split at hword
      · obtain rfl := Option.some.inj hword
        exact (b.named.2 c (hsuffix.subset (List.mem_of_mem_drop hc))).2
      · cases hword
    rw [Option.map_some, Option.bind_some, head_append_cons (by decide), if_neg]
    cases l with
    | nil => exact Bool.false_ne_true
    | cons c l =>
      have hc := hl c List.mem_cons_self
      show ¬ isSpace c = true
      rw [hc]
      exact Bool.false_ne_true

theorem noStart_cons {c : Char} {l rest : Line} (hnone : matchHeader letter (c :: (l ++ rest)) = none)
    (h : NoStart letter l rest) : NoStart letter (c :: l) rest := by
  intro s hs hsuffix
  rcases List.suffix_cons_iff.mp hsuffix with rfl | hsuffix
  · exact hnone
  · exact h s hs hsuffix

/-- A header with a hyphen in its name holds no header. -/
theorem noStart_header (b : Block letter) (hword : ¬ ∀ c ∈ b.name, isWord letter c = true) (rest : Line) :
    NoStart letter (headerText b []) rest := by
  have hend : NoStart letter ('"' :: (b.gap'.text ++ ['\x7b'])) rest := by
    refine noStart_of_forall (fun c hc => ?_) rest
    rintro rfl
    rcases List.mem_cons.mp hc with h | h
    · exact absurd h (by decide)
    · rcases List.mem_append.mp h with h | h
      · exact absurd (b.gap'.blank 'v' h) (by decide)
      · exact absurd h (by decide)
  have hname : NoStart letter (b.name ++ '"' :: (b.gap'.text ++ ['\x7b'])) rest :=
    NoStart.append (noStart_name b _) hend
  have hquote : NoStart letter ('"' :: (b.name ++ '"' :: (b.gap'.text ++ ['\x7b']))) rest :=
    noStart_cons (matchHeader_of_head (by simp)) hname
  have hgap := NoStart.append (noStart_gap b.gap _) hquote
  have hletters : NoStart letter "ariable".toList
      ((b.gap.text ++ '"' :: (b.name ++ '"' :: (b.gap'.text ++ ['\x7b']))) ++ rest) :=
    noStart_of_forall (by decide) _
  rw [headerText_cons]
  refine noStart_cons ?_ (NoStart.append hletters hgap)
  show matchHeader letter (headerText b [] ++ rest) = none
  rw [← headerText_append, List.nil_append, matchHeader_headerText, if_neg hword]

/-- **What is found in a block**, and then in what follows it. -/
theorem headersFrom_print (b : Block letter) (hbody : ∀ l ∈ b.body.tails, matchHeader letter l = none)
    (rest : Line) :
    headersFrom letter (b.print ++ rest) 0 =
      (if ∀ c ∈ b.name, isWord letter c = true then [(b.name, b.body ++ '\x7d' :: rest)] else []) ++
        headersFrom letter rest 0 := by
  have htext : b.print ++ rest = b.lead.text ++ headerText b (b.body ++ '\x7d' :: rest) := by
    unfold Block.print headerText
    generalize "variable".toList = word
    simp only [List.append_assoc, List.cons_append, List.nil_append]
  have hlead : headersFrom letter (b.lead.text ++ headerText b (b.body ++ '\x7d' :: rest)) 0 =
      headersFrom letter (headerText b (b.body ++ '\x7d' :: rest)) 0 := headersFrom_append (noStart_gap b.lead _)
  have hinside : headersFrom letter (b.body ++ '\x7d' :: rest) 0 = headersFrom letter rest 0 := by
    have hnone : NoStart letter b.body ('\x7d' :: rest) := by
      intro s _ hsuffix
      rw [matchHeader_append_cons, hbody s ((List.mem_tails ..).mpr hsuffix)]
      rfl
    have hbrace : matchHeader letter ('\x7d' :: rest) = none := matchHeader_of_head (by simp)
    rw [headersFrom_append hnone, headersFrom, hbrace]
  rw [htext, hlead]
  by_cases hword : ∀ c ∈ b.name, isWord letter c = true
  · have hmatch := matchHeader_headerText b (b.body ++ '\x7d' :: rest)
    rw [if_pos hword] at hmatch ⊢
    -- the scan goes on behind the header
    have hheader : headerText b (b.body ++ '\x7d' :: rest) =
        'v' :: (("ariable".toList ++ (b.gap.text ++ '"' :: (b.name ++ '"' :: (b.gap'.text ++ ['\x7b'])))) ++
          (b.body ++ '\x7d' :: rest)) := by
      simp only [headerText_cons, List.append_assoc, List.cons_append, List.nil_append]
    have hskip : headersFrom letter (headerText b (b.body ++ '\x7d' :: rest)) 0 =
        (b.name, b.body ++ '\x7d' :: rest) :: headersFrom letter (b.body ++ '\x7d' :: rest) 0 := by
      rw [hheader] at hmatch ⊢
      generalize "ariable".toList ++ (b.gap.text ++ '"' :: (b.name ++ '"' :: (b.gap'.text ++ ['\x7b']))) = l at *
      rw [headersFrom, hmatch]
      dsimp only
      rw [List.length_append, Nat.add_sub_cancel, headersFrom_skip]
    rw [hskip, hinside]
    rfl
  · have hheader : headerText b (b.body ++ '\x7d' :: rest) = headerText b [] ++ (b.body ++ '\x7d' :: rest) := by
      rw [← headerText_append, List.nil_append]
    rw [if_neg hword, hheader, headersFrom_append (noStart_header b hword _), hinside, List.nil_append]

theorem extractBalancedBlock_body {b : Block letter} (h : Brackets.Even '\x7b' '\x7d' b.body) (rest : Line) :
    extractBalancedBlock (b.body ++ '\x7d' :: rest) = b.body := by
  have hmatch : Brackets.matching '\x7b' '\x7d' 1 (b.body ++ '\x7d' :: rest) = some (b.body, rest) :=
    (Brackets.matching_one_iff (by decide)).mpr ⟨rfl, h⟩
  rw [extractBalancedBlock, hmatch]

/-- The blocks of which the header is read. -/
def readable (bs : List (Block letter)) : List (Block letter) :=
  bs.filter fun b => decide (∀ c ∈ b.name, isWord letter c = true)

/-- **The headers and bodies that are found are those of the blocks.** -/
theorem found_printFile {bs : List (Block letter)} (h : ∀ b ∈ bs, Framed b) (last : Gap) :
    found letter (printFile bs last) = (readable bs).map fun b => (b.name, varOf letter b.body) := by
  rw [found]
  induction bs with
  | nil =>
    have hlast : headersFrom letter (printFile ([] : List (Block letter)) last) 0 = [] := by
      have hnone : NoStart letter last.text [] := noStart_gap last []
      have happend := headersFrom_append hnone
      rw [List.append_nil] at happend
      exact happend
    rw [hlast]
    rfl
  | cons b bs ih =>
    have hb := h b List.mem_cons_self
    have hfile : printFile (b :: bs) last = b.print ++ printFile bs last := by
      rw [printFile, List.flatMap_cons, List.append_assoc]
      rfl
    rw [hfile, headersFrom_print b hb.headers, List.map_append,
      ih fun b' hb' => h b' (List.mem_cons_of_mem _ hb'), readable, readable, List.filter_cons]
    by_cases hword : ∀ c ∈ b.name, isWord letter c = true
    · rw [if_pos hword, if_pos (decide_eq_true hword), List.map_singleton, extractBalancedBlock_body hb.braces]
      rfl
    · rw [if_neg hword, if_neg (by rw [decide_eq_false hword]; exact Bool.false_ne_true)]
      rfl

/-! ### The schema -/

theorem get_cons (e : Line × Var) (d : Schema) (k : Line) :
    Schema.get (e :: d) k = if e.1 = k then some e.2 else d.get k := by
  unfold Schema.get
  rw [List.find?_cons]
  by_cases h : e.1 = k
  · rw [decide_eq_true h, if_pos h]
    rfl
  · rw [decide_eq_false h, if_neg h]

theorem get_isSome_iff (d : Schema) (k : Line) : (d.get k).isSome ↔ k ∈ d.map Prod.fst := by
  induction d with
  | nil => simp [Schema.get]
  | cons e d ih =>
    rw [get_cons, List.map_cons, List.mem_cons, ← ih]
    split
    · next h => exact ⟨fun _ => Or.inl h.symm, fun _ => rfl⟩
    · next h => exact ⟨Or.inr, fun hor => hor.resolve_left fun heq => h heq.symm⟩

theorem get_eq_none_iff (d : Schema) (k : Line) : d.get k = none ↔ k ∉ d.map Prod.fst := by
  rw [← get_isSome_iff, Option.not_isSome_iff_eq_none]

theorem get_append (d d' : Schema) (k : Line) : Schema.get (d ++ d') k = (d.get k).or (d'.get k) := by
  rw [Schema.get, List.find?_append, Option.map_or]
  rfl

theorem get_modify (d : Schema) (k : Line) (v : Var) (k' : Line) :
    Schema.get (OrderedDict.modify d k fun _ => v) k' =
      if k' = k then (d.get k).map fun _ => v else d.get k' := by
  induction d with
  | nil =>
    show none = if k' = k then none else none
    rw [ite_self]
  | cons e d ih =>
    show Schema.get ((if e.1 = k then (e.1, v) else e) :: OrderedDict.modify d k fun _ => v) k' = _
    rw [get_cons, get_cons, get_cons, ih]
    by_cases hk : k' = k
    · rw [hk, if_pos rfl, if_pos rfl]
      by_cases he : e.1 = k
      · rw [if_pos he, if_pos he, if_pos he]
        rfl
      · rw [if_neg he, if_neg he, if_neg he]
    · rw [if_neg hk, if_neg hk]
      by_cases he : e.1 = k
      · have hne : ¬ e.1 = k' := fun h => hk (h.symm.trans he)
        rw [if_pos he, if_neg hne, if_neg hne]
      · rw [if_neg he]

theorem get_assign (d : Schema) (k : Line) (v : Var) (k' : Line) :
    (assign d k v).get k' = if k' = k then some v else d.get k' := by
  have hany : (d.any fun e => e.1 = k) = true ↔ (d.get k).isSome := by
    rw [get_isSome_iff, List.any_eq_true, List.mem_map]
    exact exists_congr fun e => and_congr_right fun _ => decide_eq_true_iff
  unfold assign
  split
  · next h =>
    obtain ⟨v', hv'⟩ := Option.isSome_iff_exists.mp (hany.mp h)
    rw [get_modify, hv']
    rfl
  · next h =>
    have hnone : d.get k = none := Option.not_isSome_iff_eq_none.mp fun hsome => h (hany.mpr hsome)
    rw [get_append, get_cons]
    by_cases hk : k' = k
    · rw [hk, hnone, Option.none_or, if_pos rfl, if_pos rfl]
    · have hne : ¬ k = k' := fun heq => hk heq.symm
      rw [if_neg hk, if_neg hne]
      exact Option.or_none

/-- Of different keys each gets its value. -/
theorem get_assignAll (d : Schema) {es : Schema} (h : (es.map Prod.fst).Nodup) (k : Line) :
    (assignAll d es).get k = (es.get k).or (d.get k) := by
  induction es generalizing d with
  | nil => rfl
  | cons e es ih =>
    rw [List.map_cons, List.nodup_cons] at h
    show (assignAll (assign d e.1 e.2) es).get k = _
    rw [ih _ h.2, get_assign, get_cons]
    by_cases hk : k = e.1
    · rw [hk, (get_eq_none_iff es e.1).mpr h.1, if_pos rfl, if_pos rfl]
      rfl
    · have hne : ¬ e.1 = k := fun heq => hk heq.symm
      rw [if_neg hk, if_neg hne]

theorem get_connectionVars (token k : Line) : ((connectionVars token).get k).isSome ↔
    k = "cloudcore_api_url".toList ∨ k = "cloudcore_api_token".toList := by
  rw [get_isSome_iff, connectionVars, List.map_cons, List.map_cons, List.map_nil, List.mem_cons,
    List.mem_singleton]

section

variable {bs : List (Block letter)}

theorem mem_readable {b : Block letter} : b ∈ readable bs ↔ b ∈ bs ∧ ∀ c ∈ b.name, isWord letter c = true := by
  rw [readable, List.mem_filter, decide_eq_true_eq]

theorem nodup_readable (h : (bs.map (·.name)).Nodup) : ((readable bs).map (·.name)).Nodup :=
  h.sublist (List.Sublist.map _ List.filter_sublist)

/-- What the schema has for a name that is none of the connection. -/
theorem get_extract (h : ∀ b ∈ bs, Framed b) (hnames : DistinctNames bs) (last : Gap) (token k : Line) :
    (extractTemplateVars letter token (printFile bs last)).get k =
      ((connectionVars token).get k).or
        (Schema.get ((readable bs).map fun b => (b.name, varOf letter b.body)) k) := by
  have hfound := found_printFile h last
  have hkeys : (((readable bs).map fun b => (b.name, varOf letter b.body)).map Prod.fst).Nodup := by
    rw [List.map_map]
    exact nodup_readable hnames.1
  have hconnection : ((connectionVars token).map Prod.fst).Nodup := by
    show ["cloudcore_api_url".toList, "cloudcore_api_token".toList].Nodup
    decide
  rw [extractTemplateVars, get_assignAll _ hconnection, hfound, get_assignAll _ hkeys]
  exact congrArg _ (Option.or_none)

theorem isSome_readable (k : Line) :
    (Schema.get ((readable bs).map fun b => (b.name, varOf letter b.body)) k).isSome ↔
      k ∈ (readable bs).map (·.name) := by
  rw [get_isSome_iff, List.map_map]
  rfl

theorem get_readable (hnames : (bs.map (·.name)).Nodup) {b : Block letter} (hb : b ∈ readable bs) :
    Schema.get ((readable bs).map fun b => (b.name, varOf letter b.body)) b.name = some (varOf letter b.body) := by
  have hnodup := nodup_readable hnames
  generalize readable bs = l at hb hnodup
  induction l with
  | nil => cases hb
  | cons b' l ih =>
    rw [List.map_cons, List.nodup_cons] at hnodup
    rw [List.map_cons, get_cons]
    rcases List.mem_cons.mp hb with rfl | hb
    · rw [if_pos rfl]
    · have hne : ¬ b'.name = b.name := fun heq => hnodup.1 (heq ▸ List.mem_map_of_mem hb)
      rw [if_neg hne, ih hb hnodup.2]

/-- The variable of a block is right. -/
def VarRight (b : Block letter) (var : Var) : Prop :=
  (var.required = true ↔ b.default? = none) ∧ ∀ v later, b.default? = some (v, later) → var.default = v.text

/-- The file is read right if every name is read and every variable is right. -/
theorem readsRight_extract_iff (h : ∀ b ∈ bs, Framed b) (hnames : DistinctNames bs) (last : Gap) (token : Line) :
    ReadsRight bs (extractTemplateVars letter token (printFile bs last)) ↔
      ∀ b ∈ bs, (∀ c ∈ b.name, isWord letter c = true) ∧ VarRight b (varOf letter b.body) := by
  have hget (b : Block letter) (hb : b ∈ bs) : (extractTemplateVars letter token (printFile bs last)).get b.name =
      Schema.get ((readable bs).map fun b => (b.name, varOf letter b.body)) b.name := by
    have hnone : (connectionVars token).get b.name = none := by
      rw [← Option.not_isSome_iff_eq_none, get_connectionVars, not_or]
      exact hnames.2 b hb
    rw [get_extract h hnames, hnone, Option.none_or]
  constructor
  · rintro ⟨hkeys, hvars⟩ b hb
    have hsome : (Schema.get ((readable bs).map fun b => (b.name, varOf letter b.body)) b.name).isSome := by
      rw [← hget b hb]
      exact (hkeys b.name).mpr (Or.inl (List.mem_map_of_mem hb))
    obtain ⟨b', hb', hname⟩ := List.mem_map.mp ((isSome_readable b.name).mp hsome)
    obtain rfl : b' = b := List.inj_on_of_nodup_map hnames.1 (mem_readable.mp hb').1 hb hname
    refine ⟨(mem_readable.mp hb').2, ?_⟩
    obtain ⟨var, hvar, hright⟩ := hvars b' hb
    rw [hget b' hb, get_readable hnames.1 hb'] at hvar
    obtain rfl := Option.some.inj hvar
    exact hright
  · intro hall
    have hreadable : readable bs = bs := List.filter_eq_self.mpr fun b hb => decide_eq_true (hall b hb).1
    refine ⟨fun name => ?_, fun b hb => ?_⟩
    · rw [get_extract h hnames, Option.isSome_or, Bool.or_eq_true, get_connectionVars, isSome_readable, hreadable,
        or_comm]
    · refine ⟨varOf letter b.body, ?_, (hall b hb).2⟩
      rw [hget b hb, get_readable hnames.1 (by rw [hreadable]; exact hb)]

end

/-! ### Defaults -/

theorem default?_later {b : Block letter} {v : Value} {later : Line} (h : b.default? = some (v, later)) :
    ∃ l, later = '\n' :: l := by
  obtain ⟨es, -, hes⟩ := List.exists_of_findSome?_eq_some h
  split at hes
  · obtain ⟨-, rfl⟩ := Prod.mk.inj (Option.some.inj hes)
    exact ⟨_, rfl⟩
  · cases hes

theorem length_stripBy_le (p : Char → Bool) (l : Line) : (stripBy p l).length ≤ l.length := by
  obtain ⟨a, b, -, -, h⟩ := exists_stripBy p l
  have hlength := congrArg List.length h
  rw [List.length_append, List.length_append] at hlength
  omega

/-- A text with solid ends is not shortened. -/
theorem stripBy_solid {p : Char → Bool} {c d : Char} (hc : p c = false) (hd : p d = false) (l : Line) :
    stripBy p (c :: l ++ [d]) = c :: l ++ [d] := by
  have hfront : (c :: l ++ [d]).dropWhile p = c :: l ++ [d] := by
    rw [List.cons_append, List.dropWhile_cons, hc]
    rfl
  have hback : (c :: l ++ [d]).reverse = d :: (c :: l).reverse := by
    rw [List.reverse_append, List.reverse_singleton, List.singleton_append]
  rw [stripBy, hfront, hback, List.dropWhile_cons, hd, if_neg Bool.false_ne_true, ← hback, List.reverse_reverse]

theorem stripBy_eq_self {p : Char → Bool} {l : Line} (h : ∀ c ∈ l, p c = false) : stripBy p l = l := by
  have hdrop (l : Line) (h : ∀ c ∈ l, p c = false) : l.dropWhile p = l := by
    cases l with
    | nil => rfl
    | cons c l => rw [List.dropWhile_cons, h c List.mem_cons_self, if_neg Bool.false_ne_true]
  rw [stripBy, hdrop l h, hdrop _ fun c hc => h c (List.mem_reverse.mp hc), List.reverse_reverse]

/-- White space behind a text with solid ends is all that is taken off. -/
theorem stripBy_append_eq_iff {p : Char → Bool} {c d : Char} (hc : p c = false) (hd : p d = false)
    (l later : Line) : stripBy p (c :: l ++ [d] ++ later) = c :: l ++ [d] ↔ ∀ x ∈ later, p x = true := by
  constructor
  · intro h
    obtain ⟨a, b, ha, hb, hsplit⟩ := exists_stripBy p (c :: l ++ [d] ++ later)
    rw [h] at hsplit
    have ha' : a = [] := by
      cases a with
      | nil => rfl
      | cons x a =>
        obtain ⟨rfl, -⟩ := List.cons.inj hsplit
        have hx := ha c List.mem_cons_self
        rw [hc] at hx
        cases hx
    rw [ha', List.nil_append] at hsplit
    rw [List.append_cancel_left hsplit]
    exact hb
  · intro h
    have hstrip := stripBy_blank_append (p := p) (a := []) (l := c :: l ++ [d]) nofun h
    rw [List.nil_append] at hstrip
    rw [hstrip, stripBy_solid hc hd]

theorem rise_blank {o c : Char} (ho : isSpace o = false) (hc : isSpace c = false) {l : Line}
    (h : ∀ x ∈ l, isSpace x = true) : Brackets.rise o c l = 0 := by
  induction l with
  | nil => rfl
  | cons x l ih =>
    have hx := h x List.mem_cons_self
    have hxo : x ≠ o := by
      rintro rfl
      rw [ho] at hx
      cases hx
    have hxc : x ≠ c := by
      rintro rfl
      rw [hc] at hx
      cases hx
    rw [Brackets.rise, if_neg hxo, if_neg hxc, ih fun y hy => h y (List.mem_cons_of_mem _ hy)]
    rfl

/-- **A list or an object is read to its end.** -/
theorem bracketText_eq_iff {o : Char} (ho : isSpace o = false) (hc : isSpace (closing o) = false)
    (hoc : o ≠ closing o) (inner later : Line) :
    stripBy isSpace (bracketText (o :: inner ++ [closing o] ++ later)) = o :: inner ++ [closing o] ↔
      Brackets.Even o (closing o) inner ∨
        (∀ p, p <+: inner ++ [closing o] → 0 ≤ Brackets.rise o (closing o) p) ∧
          ∀ x ∈ later, isSpace x = true := by
  have htext : o :: inner ++ [closing o] ++ later = o :: (inner ++ closing o :: later) := by simp
  rw [htext, bracketText]
  cases hmatch : Brackets.matching o (closing o) 1 (inner ++ closing o :: later) with
  | some r =>
    obtain ⟨inner', rest⟩ := r
    obtain ⟨hsplit, heven⟩ := (Brackets.matching_one_iff hoc).mp hmatch
    show stripBy isSpace (o :: inner' ++ [closing o]) = _ ↔ _
    rw [stripBy_solid ho hc]
    constructor
    · intro h
      have hinner : inner' = inner := (List.cons.inj (List.append_cancel_right h)).2
      exact Or.inl (hinner ▸ heven)
    · rintro (heven' | ⟨habove, hblank⟩)
      · have hmatch' : Brackets.matching o (closing o) 1 (inner ++ closing o :: later) = some (inner, later) :=
          (Brackets.matching_one_iff hoc).mpr ⟨rfl, heven'⟩
        rw [hmatch] at hmatch'
        rw [(Prod.mk.inj (Option.some.inj hmatch')).1]
      · -- nothing that is a prefix goes below
        have hlow : Brackets.rise o (closing o) (inner' ++ [closing o]) = -1 := by
          rw [Brackets.rise_append, heven.ends, Brackets.rise, if_neg hoc.symm, if_pos rfl]
          rfl
        have hpre : inner' ++ [closing o] <+: (inner ++ [closing o]) ++ later := by
          refine ⟨rest, ?_⟩
          rw [List.append_assoc, List.append_assoc, List.singleton_append, List.singleton_append, hsplit]
        obtain hin | ⟨q, hq⟩ := List.prefix_or_prefix_of_prefix hpre (List.prefix_append _ later)
        · have hle := habove _ hin
          rw [hlow] at hle
          exact absurd hle (by decide)
        · have hqlater : q <+: later := by
            rw [← hq] at hpre
            exact (List.prefix_append_right_inj _).mp hpre
          have hrise := Brackets.rise_append (o := o) (c := closing o) (inner ++ [closing o]) q
          rw [hq, hlow, rise_blank ho hc fun x hx => hblank x (hqlater.subset hx)] at hrise
          have hle := habove _ List.prefix_rfl
          omega
  | none =>
    have habove := (Brackets.matching_eq_none_iff Nat.one_pos).mp hmatch
    show stripBy isSpace (o :: (inner ++ closing o :: later)) = _ ↔ _
    rw [← htext, stripBy_append_eq_iff ho hc]
    constructor
    · intro hblank
      refine Or.inr ⟨fun p hp => ?_, hblank⟩
      have hpre : p <+: inner ++ closing o :: later := by
        refine hp.trans ⟨later, ?_⟩
        rw [List.append_assoc, List.singleton_append]
      have hle := habove p hpre
      omega
    · rintro (heven | ⟨-, hblank⟩)
      · have hmatch' : Brackets.matching o (closing o) 1 (inner ++ closing o :: later) = some (inner, later) :=
          (Brackets.matching_one_iff hoc).mpr ⟨rfl, heven⟩
        rw [hmatch] at hmatch'
        cases hmatch'
      · exact hblank

/-! ### When a variable is right -/

section

variable {b : Block letter} {later : Line}

/-- Nothing is found exactly if nothing stands behind any `default =`. -/
theorem extractDefaultValue_eq_none_iff (body : Line) :
    extractDefaultValue body = none ↔ ∀ l ∈ defaults body, l = [] := by
  constructor
  · intro h l hl
    unfold extractDefaultValue at h
    split at h
    · cases h
    · split at h
      · cases h
      · have hnone := List.find?_eq_none.mp (Option.map_eq_none_iff.mp h) l hl
        simpa using hnone
  · intro h
    have hquoted : (defaults body).find? isQuoted = none := by
      rw [List.find?_eq_none]
      intro l hl
      rw [h l hl]
      exact Bool.false_ne_true
    have hbracketed : (defaults body).find? isBracketed = none := by
      rw [List.find?_eq_none]
      intro l hl
      rw [h l hl]
      exact Bool.false_ne_true
    have hany : (defaults body).find? (· ≠ []) = none := by
      rw [List.find?_eq_none]
      intro l hl
      rw [h l hl]
      simp
    rw [extractDefaultValue, quotedText, hquoted, Option.bind_none, hbracketed, hany]
    rfl

/-- A string is read to its first quote. -/
theorem extract_string {body : Line} {q : Quoted} (h : (Value.string q).First later body) :
    extractDefaultValue body = some (q.text.takeWhile (· != '"')) := by
  have hquoted : (defaults body).find? isQuoted = some (q.print ++ later) := h
  have htail : (q.print ++ later).tail = q.text ++ '"' :: later := by
    rw [Quoted.print, List.cons_append, List.cons_append, List.tail_cons, List.append_assoc, List.singleton_append]
  have hmem : (q.text ++ '"' :: later).contains '"' = true :=
    List.contains_iff_mem.mpr (List.mem_append_right _ List.mem_cons_self)
  have htake : (q.text ++ '"' :: later).takeWhile (· != '"') = q.text.takeWhile (· != '"') :=
    takeWhile_append_cons rfl
  rw [extractDefaultValue, quotedText, hquoted, Option.bind_some, htail, if_pos hmem, htake]

theorem string_right_iff (text : Line) :
    stripBy isSpace (text.takeWhile (· != '"')) = text ↔ '"' ∉ text ∧ stripBy isSpace text = text := by
  have hself (h : '"' ∉ text) : text.takeWhile (· != '"') = text :=
    List.takeWhile_eq_self_iff.mpr fun c hc => bne_iff_ne.mpr fun heq => h (heq ▸ hc)
  constructor
  · intro h
    have hle := length_stripBy_le isSpace (text.takeWhile (· != '"'))
    rw [h] at hle
    have hwhole : text.takeWhile (· != '"') = text :=
      (List.takeWhile_prefix _).eq_of_length (le_antisymm (List.takeWhile_prefix _).length_le hle)
    have hnot : '"' ∉ text := fun hmem =>
      absurd (List.takeWhile_eq_self_iff.mp hwhole '"' hmem) (by decide)
    exact ⟨hnot, by rw [hself hnot] at h; exact h⟩
  · rintro ⟨hnot, hstrip⟩
    rw [hself hnot, hstrip]

theorem extract_word {body : Line} {w : Word} {l : Line} (h : (Value.word w).First ('\n' :: l) body) :
    extractDefaultValue body = some w.text := by
  obtain ⟨hquoted, hbracketed, hfirst⟩ := h
  have htake : (w.text ++ '\n' :: l).takeWhile (!isSpace ·) = w.text := by
    rw [takeWhile_append_cons rfl, List.takeWhile_eq_self_iff]
    intro c hc
    rw [w.solid c hc]
    rfl
  rw [extractDefaultValue, hquoted, hbracketed, hfirst]
  show some (stripBy isSpace ((w.text ++ '\n' :: l).takeWhile (!isSpace ·))) = some w.text
  rw [htake, stripBy_eq_self w.solid]

theorem extract_brackets {body text : Line} (hquoted : quotedText body = none)
    (h : (defaults body).find? isBracketed = some text) :
    extractDefaultValue body = some (bracketText text) := by
  rw [extractDefaultValue, hquoted, h]

/-- **When the text of a default is that of the attribute.** -/
theorem extractDefault_eq_iff {v : Value} {l body : Line} (h : v.First ('\n' :: l) body) :
    ∃ t, extractDefaultValue body = some t ∧ (stripBy isSpace t = v.text ↔ v.Readable ('\n' :: l)) := by
  cases v with
  | string q => exact ⟨_, extract_string h, string_right_iff q.text⟩
  | word w => exact ⟨_, extract_word h, fun _ => trivial, fun _ => stripBy_eq_self w.solid⟩
  | list items =>
    refine ⟨_, extract_brackets h.1 h.2, ?_⟩
    exact bracketText_eq_iff (o := '[') (by decide) (by decide) (by decide) items.print ('\n' :: l)
  | object items =>
    refine ⟨_, extract_brackets h.1 h.2, ?_⟩
    exact bracketText_eq_iff (o := '\x7b') (by decide) (by decide) (by decide) items.print ('\n' :: l)

theorem varRight_iff (h : Framed b) : VarRight b (varOf letter b.body) ↔
    match b.default? with
    | none => ∀ l ∈ defaults b.body, l = []
    | some (v, later) => v.Readable later := by
  cases hdefault : b.default? with
  | none =>
    dsimp only
    rw [← extractDefaultValue_eq_none_iff, VarRight, hdefault]
    unfold varOf
    split
    · next t ht =>
      rw [ht]
      exact ⟨fun hright => absurd (hright.1.mpr rfl) Bool.false_ne_true, fun hnone => nomatch hnone⟩
    · next ht =>
      rw [ht]
      exact ⟨fun _ => rfl, fun _ => ⟨⟨fun _ => rfl, fun _ => rfl⟩, nofun⟩⟩
  | some r =>
    obtain ⟨v, later⟩ := r
    obtain ⟨l, rfl⟩ := default?_later hdefault
    obtain ⟨t, ht, hiff⟩ := extractDefault_eq_iff (h.first v _ hdefault)
    dsimp only
    rw [← hiff, VarRight, hdefault, varOf, ht]
    dsimp only
    constructor
    · exact fun hright => hright.2 v _ rfl
    · intro hstrip
      refine ⟨⟨fun hfalse => absurd hfalse Bool.false_ne_true, nofun⟩, fun v' later' heq => ?_⟩
      obtain ⟨rfl, -⟩ := Prod.mk.inj (Option.some.inj heq)
      exact hstrip

end

/-- **Framed blocks are read right exactly if each is readable.** -/
theorem readsRight_iff {bs : List (Block letter)} (h : ∀ b ∈ bs, Framed b) (hnames : DistinctNames bs)
    (last : Gap) (token : Line) :
    ReadsRight bs (extractTemplateVars letter token (printFile bs last)) ↔ ∀ b ∈ bs, b.Readable := by
  rw [readsRight_extract_iff h hnames]
  exact forall₂_congr fun b hb => and_congr_right fun _ => varRight_iff (h b hb)

/-! ### Some files -/

def noGap : Gap := ⟨[], nofun⟩

def oneBlank : Gap := ⟨[' '], by decide⟩

def newline : Gap := ⟨['\n'], by decide⟩

/-- An attribute on a line of its own. -/
def onLine (a : Attr) : Entry := ⟨newline, oneBlank, oneBlank, a⟩

/-- A string, in which a quote or a backslash has a backslash before it. -/
def quoted (s : String) : Quoted :=
  s.toList.map fun c => if h : c ≠ '"' ∧ c ≠ '\\' then .plain c h else .escaped c

def ascii : Char → Bool := fun _ => false

/-- `variable "region"` with a description and a default. -/
def regionBlock : Block ascii where
  lead := noGap
  gap := oneBlank
  gap' := oneBlank
  close := noGap
  name := "region".toList
  entries := [onLine (.description (quoted "Where it runs.")), onLine (.default (.string (quoted "eu")))]
  gapped := by decide
  named := by decide
  distinct := by decide

theorem framed_regionBlock : Framed regionBlock where
  braces := by decide
  headers := by decide
  first := by
    intro v later h
    have hdefault : regionBlock.default? = some (.string (quoted "eu"), ['\n']) := rfl
    obtain ⟨rfl, rfl⟩ := Prod.mk.inj (Option.some.inj (hdefault.symm.trans h))
    show (defaults regionBlock.body).find? isQuoted = some ((quoted "eu").print ++ ['\n'])
    decide

/-- A file that is read right. -/
theorem readsRight_region :
    ReadsRight [regionBlock] (extractTemplateVars ascii "token".toList (printFile [regionBlock] noGap)) := by
  have hframed : ∀ b ∈ [regionBlock], Framed b := List.forall_mem_singleton.mpr framed_regionBlock
  refine (readsRight_iff hframed ⟨by decide, by decide⟩ noGap _).mpr (List.forall_mem_singleton.mpr ⟨by decide, ?_⟩)
  show '"' ∉ (quoted "eu").text ∧ stripBy isSpace (quoted "eu").text = (quoted "eu").text
  decide

/-- A block like that one with another name and other attributes. -/
def blockOf (name : Line) (named : name ≠ [] ∧ ∀ c ∈ name, isNameChar ascii c = true ∧ isSpace c = false)
    (attrs : List Attr) (distinct : ((attrs.map onLine).map fun e => e.attr.kind).Nodup) : Block ascii :=
  { regionBlock with name, named, entries := attrs.map onLine, distinct }

/-- A quote in the default. -/
def greetingBlock : Block ascii :=
  blockOf "greeting".toList (by decide) [.default (.string (quoted "say \"hi\" twice"))] (by decide)

/-- A field of the type that is called `default`. -/
def shapeBlock : Block ascii :=
  blockOf "shape".toList (by decide)
    [.type (.call ⟨"object".toList, by decide, by decide, by decide⟩ (.item noGap none
      (.object (.item noGap (some (⟨"default".toList, by decide, by decide, by decide⟩, oneBlank, oneBlank))
        (.word ⟨"string".toList, by decide, by decide, by decide⟩) noGap false (.done noGap))) noGap false
          (.done noGap)))] (by decide)

/-- A brace in the description. -/
def patternBlock : Block ascii :=
  blockOf "pattern".toList (by decide) [.description (quoted "Begins with a \x7b.")] (by decide)

/-- A hyphen in the name. -/
def hyphenBlock : Block ascii := blockOf "my-region".toList (by decide) [] (by decide)

def readFile (bs : List (Block ascii)) : Schema := extractTemplateVars ascii "secret".toList (printFile bs noGap)

theorem not_readsRight_of_get {bs : List (Block ascii)} {b : Block ascii} (hb : b ∈ bs) {var : Var}
    (hget : (readFile bs).get b.name = some var) (hwrong : ¬ VarRight b var) : ¬ ReadsRight bs (readFile bs) := by
  rintro ⟨-, hvars⟩
  obtain ⟨var', hvar', hright⟩ := hvars b hb
  rw [hget] at hvar'
  obtain rfl := Option.some.inj hvar'
  exact hwrong hright

/-- The text of a default is cut at a quote; a field of a type is taken for the default; a brace in a
description hides the end of the block; a name with a hyphen is not read. -/
theorem not_readsRight :
    ¬ ReadsRight [greetingBlock] (readFile [greetingBlock]) ∧ ¬ ReadsRight [shapeBlock] (readFile [shapeBlock]) ∧
      ¬ ReadsRight [patternBlock, regionBlock] (readFile [patternBlock, regionBlock]) ∧
        ¬ ReadsRight [hyphenBlock] (readFile [hyphenBlock]) := by
  refine ⟨?_, ?_, ?_, fun h => ?_⟩
  · have hget : (readFile [greetingBlock]).get greetingBlock.name =
        some ⟨"say \\".toList, false, false, "string".toList⟩ := by decide
    refine not_readsRight_of_get (List.mem_singleton.mpr rfl) hget fun h => ?_
    have htext : "say \\".toList = (quoted "say \"hi\" twice").text := h.2 _ ['\n'] rfl
    exact absurd htext (by decide)
  · have hget : (readFile [shapeBlock]).get shapeBlock.name =
        some ⟨"string\x7d)".toList, false, false, "object".toList⟩ := by decide
    exact not_readsRight_of_get (List.mem_singleton.mpr rfl) hget fun h => Bool.false_ne_true (h.1.mpr rfl)
  · have hget : (readFile [patternBlock, regionBlock]).get patternBlock.name =
        some ⟨"eu".toList, false, false, "string".toList⟩ := by decide +kernel
    exact not_readsRight_of_get List.mem_cons_self hget fun h => Bool.false_ne_true (h.1.mpr rfl)
  · have hmissing : (readFile [hyphenBlock]).get hyphenBlock.name = none := by decide
    obtain ⟨var, hvar, -⟩ := h.2 hyphenBlock (List.mem_singleton.mpr rfl)
    rw [hmissing] at hvar
    cases hvar

end TemplateVars
end CloudCore
