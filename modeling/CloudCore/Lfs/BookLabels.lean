import CloudCore.Lfs.BookPage

/-!
# The labels of the commands

What the handlers make of a page, against the labels that its commands should have.

## Main definitions

* `Sim` — a state of the handlers between two blocks, and what stands before that place.
* `produced` — the commands that the handlers make of some marks.

## Main results

* `run_block`, `run_page` — the handlers follow the marks of a page.
* `produced_eq_iff` — when the labels are right.
* `commands_iff` — **exactly when a page without navigation in admonitions yields its commands with
  their labels.**
-/

namespace CloudCore
namespace Book

open Python

variable {letter : Char → Bool}

theorem run_append (es es' : List Event) (s : State) :
    run letter (es ++ es') s = run letter es' (run letter es s) := List.foldl_append ..

@[simp] theorem run_nil (s : State) : run letter [] s = s := rfl

theorem run_cons (e : Event) (es : List Event) (s : State) :
    run letter (e :: es) s = run letter es (handle letter e s) := rfl

/-! ### Skipped parts -/

theorem countDiv_skip {tag : Tag} {cls : Line} {s : State} (h : s.skip ≠ 0) : countDiv tag cls s = s := by
  rw [countDiv, if_neg fun hdiv => h hdiv.2]

theorem countDiv_of_ne {tag : Tag} {cls : Line} {s : State} (h : tag ≠ .div) : countDiv tag cls s = s := by
  rw [countDiv, if_neg fun hdiv => h hdiv.1]

/-- The tags that count as skipped. -/
def Tag.nests (t : Tag) : Bool := t == .script || t == .style || t == .div

theorem starttag_skip {tag : Tag} {cls : Line} {s : State} (h : s.skip ≠ 0) :
    handleStarttag letter tag cls s = if tag.nests then { s with skip := s.skip + 1 } else s := by
  unfold handleStarttag
  rw [countDiv_skip h]
  dsimp only
  rw [if_pos h]
  cases tag <;> simp [Tag.nests]

theorem endtag_skip {tag : Tag} {s : State} (h : s.skip ≠ 0) :
    handleEndtag tag s = if tag.nests then { s with skip := s.skip - 1 } else s := by
  unfold handleEndtag
  rw [if_pos h]
  cases tag <;> simp [Tag.nests]

theorem data_skip {text : Line} {s : State} (h : s.skip ≠ 0) : handleData text s = s := by
  unfold handleData
  rw [if_pos h]

/-- Calls that leave a skipping state alone. -/
def Skips (letter : Char → Bool) (es : List Event) : Prop := ∀ s : State, s.skip ≠ 0 → run letter es s = s

theorem Skips.append {es es' : List Event} (h : Skips letter es) (h' : Skips letter es') :
    Skips letter (es ++ es') := by
  intro s hs
  rw [run_append, h s hs, h' s hs]

/-- What is within a tag is skipped with it. -/
theorem Skips.within {es : List Event} (h : Skips letter es) (tag : Tag) (cls : Line) :
    Skips letter (within tag cls es) := by
  intro s hs
  rw [Book.within, run_cons, run_append, handle, starttag_skip hs]
  cases hnests : tag.nests with
  | false =>
    rw [if_neg Bool.false_ne_true, h s hs, run_cons, run_nil, handle, endtag_skip hs, hnests,
      if_neg Bool.false_ne_true]
  | true =>
    have hmore : ({ s with skip := s.skip + 1 } : State).skip ≠ 0 := Nat.succ_ne_zero _
    rw [if_pos rfl, h _ hmore, run_cons, run_nil, handle, endtag_skip hmore, hnests, if_pos rfl]
    rfl

theorem skips_data (text : Line) : Skips letter (dataEvents text) := by
  intro s hs
  unfold dataEvents
  split
  · rfl
  · exact data_skip hs

theorem skips_runs (runs : List Run) : Skips letter (runs.flatMap Run.events) := by
  induction runs with
  | nil => exact fun s _ => rfl
  | cons r runs ih =>
    rw [List.flatMap_cons]
    refine Skips.append ?_ ih
    unfold Run.events
    split
    · exact (skips_data r.text).within .other []
    · exact skips_data r.text

theorem skips_block (b : Block) : Skips letter b.events := by
  cases b with
  | script text => exact (skips_data text).within .script []
  | style text => exact (skips_data text).within .style []
  | title runs => exact (skips_runs runs).within .h1 []
  | paragraph runs => exact (skips_runs runs).within .p []
  | heading level runs => exact (skips_runs runs).within (levelTag level) []
  | pre root runs => exact (skips_runs runs).within .pre (preClass root)
  | blank text => exact skips_data text

theorem skips_page (page : Page) : Skips letter page.events := by
  induction page with
  | done => exact fun s _ => rfl
  | block b rest ih => exact (skips_block b).append ih
  | div cls inside rest ihi ihr => exact (ihi.within .div cls).append ihr

/-! ### Texts -/

/-- Within a heading or a command block a text is collected, elsewhere it is prose. -/
def State.take (s : State) (pieces : List Line) : State :=
  if s.heading ≠ none ∨ s.pre ≠ none then { s with buf := s.buf ++ pieces }
  else { s with prose := s.prose ++ pieces }

theorem take_nil (s : State) : s.take [] = s := by
  unfold State.take
  split <;> rw [List.append_nil]

theorem take_append (s : State) (ps qs : List Line) : s.take (ps ++ qs) = (s.take ps).take qs := by
  unfold State.take
  by_cases h : s.heading ≠ none ∨ s.pre ≠ none
  · rw [if_pos h, if_pos h, if_pos h, List.append_assoc]
  · rw [if_neg h, if_neg h, if_neg h, List.append_assoc]

@[simp] theorem take_skip (s : State) (pieces : List Line) : (s.take pieces).skip = s.skip := by
  unfold State.take
  split <;> rfl

theorem run_data {s : State} (h : s.skip = 0) (text : Line) :
    run letter (dataEvents text) s = s.take ([text].filter (!·.isEmpty)) := by
  unfold dataEvents
  split
  · next hnil =>
    rw [hnil]
    exact (take_nil s).symm
  · next hne =>
    have hsome : [text].filter (!·.isEmpty) = [text] := List.filter_eq_self.mpr fun t ht => by
      rw [List.mem_singleton.mp ht, Bool.not_eq_true', List.isEmpty_eq_false_iff]
      exact hne
    rw [hsome, run_cons, run_nil]
    show handleData text s = s.take [text]
    unfold handleData State.take
    rw [if_neg (not_not.mpr h)]

/-- Tags within a text change nothing. -/
theorem starttag_other {s : State} (h : s.skip = 0) : handleStarttag letter .other [] s = s := by
  have hcount : countDiv .other [] s = s := countDiv_of_ne (by decide)
  simp [handleStarttag, hcount, h, Tag.isSub]

theorem endtag_other {s : State} (h : s.skip = 0) : handleEndtag .other s = s := by
  unfold handleEndtag
  rw [if_neg (not_not.mpr h)]
  simp only [reduceCtorEq, if_false, false_and, Tag.isSub]
  cases s.pre <;> rfl

theorem run_runs {s : State} (h : s.skip = 0) (runs : List Run) :
    run letter (runs.flatMap Run.events) s = s.take (texts runs) := by
  induction runs generalizing s with
  | nil => exact (take_nil s).symm
  | cons r runs ih =>
    have hfirst : run letter r.events s = s.take ([r.text].filter (!·.isEmpty)) := by
      unfold Run.events
      split
      · rw [run_cons, handle, starttag_other h, run_append, run_data h, run_cons, run_nil, handle,
          endtag_other (by rw [take_skip]; exact h)]
      · exact run_data h r.text
    have htexts : texts (r :: runs) = [r.text].filter (!·.isEmpty) ++ texts runs := by
      rw [texts, texts, List.map_cons, ← List.filter_append]
      rfl
    rw [List.flatMap_cons, run_append, hfirst, ih (by rw [take_skip]; exact h), htexts, take_append]

/-! ### What the handlers make of the marks -/

/-- What stands before the place behind some marks. -/
def Trail.after (t : Trail) (ms : List Mark) : Trail := ms.foldl Trail.next t

/-- The commands that the handlers make of some marks. -/
def produced (letter : Char → Bool) : Trail → List Mark → List Command
  | _, [] => []
  | t, .command root pieces :: ms =>
    (if Blank (commandText pieces) then []
      else [⟨t.subsection, if t.closed then [] else t.note, root || saysRoot letter (lead t.pieces),
        commandText pieces⟩]) ++ produced letter (t.next (.command root pieces)) ms
  | t, m :: ms => produced letter (t.next m) ms

theorem produced_append (t : Trail) (ms ms' : List Mark) :
    produced letter t (ms ++ ms') = produced letter t ms ++ produced letter (t.after ms) ms' := by
  induction ms generalizing t with
  | nil => rfl
  | cons m ms ih =>
    have htail := ih (t.next m)
    cases m with
    | command root pieces =>
      show (if Blank (commandText pieces) then [] else [_]) ++ produced letter _ (ms ++ ms') = _
      rw [htail, ← List.append_assoc]
      rfl
    | title pieces => exact htail
    | paragraph pieces => exact htail
    | heading pieces => exact htail
    | blank text => exact htail
    | enter => exact htail
    | leave => exact htail

/-- A state of the handlers between two blocks, and what stands before that place. -/
structure Sim (s : State) (t : Trail) : Prop where
  skip : s.skip = 0
  heading : s.heading = none
  pre : s.pre = none
  depth : s.admonDepth.length = t.around.length
  below : ∀ d ∈ s.admonDepth.head?, d ≤ s.divs
  subsection : s.subsection = t.subsection
  note : s.note = if t.closed then [] else t.note
  prose : s.prose = t.pieces
  count : s.commands.length = t.count
  titled : t.titled = (s.title != [])

/-- The handlers have followed some marks; in an admonition the divs are counted right. -/
structure Follows (letter : Char → Bool) (s s' : State) (t : Trail) (ms : List Mark) : Prop where
  sim : Sim s' (t.after ms)
  depth : s'.admonDepth = s.admonDepth
  divs : s.admonDepth ≠ [] → s'.divs = s.divs
  commands : s'.commands = s.commands ++ produced letter t ms

theorem Follows.refl {s : State} {t : Trail} (h : Sim s t) : Follows letter s s t [] :=
  ⟨h, rfl, fun _ => rfl, (List.append_nil _).symm⟩

theorem Follows.trans {s s' s'' : State} {t : Trail} {ms ms' : List Mark} (h : Follows letter s s' t ms)
    (h' : Follows letter s' s'' (t.after ms) ms') : Follows letter s s'' t (ms ++ ms') where
  sim := by
    rw [Trail.after, List.foldl_append]
    exact h'.sim
  depth := h'.depth.trans h.depth
  divs := fun hne => (h'.divs (h.depth.symm ▸ hne)).trans (h.divs hne)
  commands := by rw [h'.commands, h.commands, produced_append, List.append_assoc]

theorem around_eq_nil_iff {s : State} {t : Trail} (h : Sim s t) : t.around = [] ↔ s.admonDepth = [] := by
  rw [← List.length_eq_zero_iff, ← List.length_eq_zero_iff, h.depth]

/-! ### Blocks -/

section

variable {s : State} {t : Trail}

theorem skip_restored (h : s.skip = 0) : ({ s with skip := 0 } : State) = s := by rw [← h]

/-- A script or a style is skipped. -/
theorem run_raw (h : s.skip = 0) {tag : Tag} (htag : tag = .script ∨ tag = .style) {es : List Event}
    (hes : Skips letter es) : run letter (within tag [] es) s = s := by
  have hdiv : tag ≠ .div := by rcases htag with rfl | rfl <;> decide
  have hnests : tag.nests = true := by rcases htag with rfl | rfl <;> rfl
  have hstart : handleStarttag letter tag [] s = { s with skip := 1 } := by
    rcases htag with rfl | rfl <;> simp [handleStarttag, countDiv_of_ne hdiv, h]
  have hone : ({ s with skip := 1 } : State).skip ≠ 0 := Nat.one_ne_zero
  rw [within, run_cons, run_append, handle, hstart, hes _ hone, run_cons, run_nil, handle, endtag_skip hone,
    hnests, if_pos rfl]
  exact skip_restored h

theorem starttag_title (h : s.skip = 0) (hpre : s.pre = none) : handleStarttag letter .h1 [] s =
    if s.title = [] then { s with heading := some .h1, buf := [] } else s := by
  have hcount : countDiv .h1 [] s = s := countDiv_of_ne (by decide)
  simp [handleStarttag, hcount, h, Tag.isSub, hpre]

theorem follows_title (h : Sim s t) (runs : List Run) :
    Follows letter s (run letter (Block.title runs).events s) t (Block.title runs).marks := by
  have htitled := h.titled
  show Follows letter s (run letter (within .h1 [] _) s) t [.title (texts runs)]
  rw [within, run_cons, run_append, handle, starttag_title h.skip h.pre]
  by_cases htitle : s.title = []
  · rw [htitle] at htitled
    have hfalse : t.titled = false := htitled
    rw [if_pos htitle, run_runs (by exact h.skip), run_cons, run_nil]
    have hend : handle letter (.endtag .h1)
        (({ s with heading := some .h1, buf := [] } : State).take (texts runs)) =
          { s with buf := texts runs, title := oneLine (texts runs).flatten, heading := none } := by
      simp [handle, handleEndtag, State.take, h.skip]
    rw [hend]
    refine ⟨⟨h.skip, rfl, h.pre, ?_, h.below, ?_, ?_, ?_, ?_, ?_⟩, rfl, fun _ => rfl, ?_⟩
    all_goals simp only [Trail.after, List.foldl_cons, List.foldl_nil, Trail.next, hfalse, Reading.next,
      Bool.false_eq_true, if_false]
    · exact h.depth
    · exact h.subsection
    · exact h.note
    · exact h.prose
    · exact h.count
    · simp [produced]
  · have htrue : t.titled = true := by
      rw [htitled, bne_iff_ne]
      exact htitle
    rw [if_neg htitle, run_runs h.skip, run_cons, run_nil]
    have hend : handle letter (.endtag .h1) (s.take (texts runs)) =
        { s with prose := s.prose ++ texts runs } := by
      simp [handle, handleEndtag, State.take, h.skip, h.heading, h.pre, Tag.isSub]
    rw [hend]
    refine ⟨⟨h.skip, h.heading, h.pre, ?_, h.below, ?_, ?_, ?_, ?_, ?_⟩, rfl, fun _ => rfl, ?_⟩
    all_goals simp only [Trail.after, List.foldl_cons, List.foldl_nil, Trail.next, htrue, Reading.next,
      if_true]
    · exact h.depth
    · exact h.subsection
    · exact h.note
    · rw [h.prose]
    · exact h.count
    · exact htrue.symm.trans htitled
    · simp [produced]

theorem starttag_paragraph (h : Sim s t) :
    handleStarttag letter .p [] s = { s with prose := s.prose ++ [['\n']] } := by
  have hcount : countDiv .p [] s = s := countDiv_of_ne (by decide)
  simp [handleStarttag, hcount, h.skip, Tag.isSub, h.pre, h.heading]

theorem follows_paragraph (h : Sim s t) (runs : List Run) :
    Follows letter s (run letter (Block.paragraph runs).events s) t (Block.paragraph runs).marks := by
  show Follows letter s (run letter (within .p [] _) s) t [.paragraph (texts runs)]
  rw [within, run_cons, run_append, handle, starttag_paragraph h, run_runs (by exact h.skip), run_cons, run_nil]
  have hend : handle letter (.endtag .p)
      (({ s with prose := s.prose ++ [['\n']] } : State).take (texts runs)) =
        { s with prose := s.prose ++ ['\n'] :: texts runs } := by
    simp [handle, handleEndtag, State.take, h.skip, h.heading, h.pre, Tag.isSub]
  rw [hend]
  refine ⟨⟨h.skip, h.heading, h.pre, h.depth, h.below, h.subsection, h.note, ?_, h.count, h.titled⟩, rfl,
    fun _ => rfl, ?_⟩
  · show s.prose ++ ['\n'] :: texts runs = t.pieces ++ ['\n'] :: texts runs
    rw [h.prose]
  · simp [produced]

theorem levelTag_facts (level : Fin 3) : (levelTag level).isSub = true ∧ levelTag level ≠ .div ∧
    levelTag level ≠ .script ∧ levelTag level ≠ .style ∧ levelTag level ≠ .h1 := by
  revert level
  decide

theorem starttag_heading (h : Sim s t) (level : Fin 3) : handleStarttag letter (levelTag level) [] s =
    { s with heading := some (if s.admonDepth = [] then .sub else .note), buf := [] } := by
  obtain ⟨hsub, hdiv, hother⟩ := levelTag_facts level
  have hcount : countDiv (levelTag level) [] s = s := countDiv_of_ne hdiv
  simp [handleStarttag, hcount, h.skip, hsub, h.pre, hdiv, hother]

theorem endtag_sub {s : State} (hskip : s.skip = 0) (level : Fin 3) (hk : s.heading = some .sub) :
    handleEndtag (levelTag level) s =
      { s with
        subsection := oneLine s.buf.flatten
        prose := s.prose ++ ["\n## ".toList ++ oneLine s.buf.flatten ++ ['\n']]
        heading := none } := by
  obtain ⟨hsub, hdiv, -⟩ := levelTag_facts level
  simp [handleEndtag, hskip, hsub, hdiv, hk]

theorem endtag_note {s : State} (hskip : s.skip = 0) (level : Fin 3) (hk : s.heading = some .note) :
    handleEndtag (levelTag level) s =
      { s with
        note := oneLine s.buf.flatten
        prose := s.prose ++ ["\n[".toList ++ oneLine s.buf.flatten ++ "]\n".toList]
        heading := none } := by
  obtain ⟨hsub, hdiv, -⟩ := levelTag_facts level
  simp [handleEndtag, hskip, hsub, hdiv, hk]

theorem follows_heading (h : Sim s t) (level : Fin 3) (runs : List Run) :
    Follows letter s (run letter (Block.heading level runs).events s) t (Block.heading level runs).marks := by
  show Follows letter s (run letter (within (levelTag level) [] _) s) t [.heading (texts runs)]
  have htake (k : Heading) : ({ s with heading := some k, buf := [] } : State).take (texts runs) =
      { s with heading := some k, buf := texts runs } := by simp [State.take]
  rw [within, run_cons, run_append, handle, starttag_heading h, run_runs (by exact h.skip), run_cons, run_nil,
    htake, handle]
  by_cases hdepth : s.admonDepth = []
  · have haround : t.around = [] := (around_eq_nil_iff h).mpr hdepth
    rw [if_pos hdepth, endtag_sub (by exact h.skip) level rfl]
    have hnext : t.after [.heading (texts runs)] =
        { t with subsection := oneLine (texts runs).flatten, sentence := []
                 pieces := t.pieces ++ ["\n## ".toList ++ oneLine (texts runs).flatten ++ ['\n']] } := by
      simp [Trail.after, Trail.next, Reading.next, haround]
    refine ⟨?_, rfl, fun _ => rfl, ?_⟩
    · rw [hnext]
      refine ⟨h.skip, rfl, h.pre, h.depth, h.below, rfl, h.note, ?_, h.count, h.titled⟩
      show s.prose ++ _ = t.pieces ++ _
      rw [h.prose]
    · simp [produced]
  · -- the heading of the innermost admonition
    obtain ⟨own, outer, haround⟩ := List.exists_cons_of_ne_nil fun hnil => hdepth ((around_eq_nil_iff h).mp hnil)
    rw [if_neg hdepth, endtag_note (by exact h.skip) level rfl]
    have hnext : t.after [.heading (texts runs)] =
        { t with around := some (oneLine (texts runs).flatten) :: outer, sentence := [], closed := false
                 pieces := t.pieces ++ ["\n[".toList ++ oneLine (texts runs).flatten ++ "]\n".toList] } := by
      simp [Trail.after, Trail.next, Reading.next, haround]
    refine ⟨?_, rfl, fun _ => rfl, ?_⟩
    · rw [hnext]
      refine ⟨h.skip, rfl, h.pre, ?_, h.below, h.subsection, rfl, ?_, h.count, h.titled⟩
      · show s.admonDepth.length = outer.length + 1
        rw [h.depth, haround, List.length_cons]
      · show s.prose ++ _ = t.pieces ++ _
        rw [h.prose]
    · simp [produced]

theorem starttag_pre (h : Sim s t) (root : Bool) : handleStarttag letter .pre (preClass root) s =
    { s with pre := some (root || saysRoot letter (lead s.prose)), buf := [] } := by
  have hcount : countDiv .pre (preClass root) s = s := countDiv_of_ne (by decide)
  have hcommand : isCommand (preClass root) = true := by cases root <;> decide
  have hroot : (preClass root == "root".toList) = root := by cases root <;> decide
  simp only [handleStarttag, hcount, h.skip, Tag.isSub, hcommand, hroot]
  simp

theorem endtag_pre {s : State} (hskip : s.skip = 0) (hheading : s.heading = none) {root : Bool}
    (hpre : s.pre = some root) :
    handleEndtag .pre s = closePre root (stripBy (· == '\n') s.buf.flatten) s := by
  simp [handleEndtag, hskip, hheading, hpre, Tag.isSub]

theorem follows_pre (h : Sim s t) (root : Bool) (runs : List Run) :
    Follows letter s (run letter (Block.pre root runs).events s) t (Block.pre root runs).marks := by
  show Follows letter s (run letter (within .pre (preClass root) _) s) t [.command root (texts runs)]
  have htake (b : Bool) : ({ s with pre := some b, buf := [] } : State).take (texts runs) =
      { s with pre := some b, buf := texts runs } := by simp [State.take]
  rw [within, run_cons, run_append, handle, starttag_pre h, run_runs (by exact h.skip), run_cons, run_nil, htake,
    handle, endtag_pre (by exact h.skip) (by exact h.heading) rfl]
  show Follows letter s (closePre _ (commandText (texts runs)) _) t _
  by_cases hblank : Blank (commandText (texts runs))
  · rw [closePre, if_pos hblank]
    have hnext : t.after [.command root (texts runs)] = { t with sentence := [] } := by
      simp [Trail.after, Trail.next, Reading.next, hblank]
    refine ⟨?_, rfl, fun _ => rfl, ?_⟩
    · rw [hnext]
      exact ⟨h.skip, h.heading, rfl, h.depth, h.below, h.subsection, h.note, h.prose, h.count, h.titled⟩
    · simp [produced, hblank]
  · rw [closePre, if_neg hblank]
    have hnext : t.after [.command root (texts runs)] =
        { t with sentence := [], pieces := t.pieces ++ [commandMark (t.count + 1)], count := t.count + 1 } := by
      simp [Trail.after, Trail.next, Reading.next, hblank]
    refine ⟨?_, rfl, fun _ => rfl, ?_⟩
    · rw [hnext]
      refine ⟨h.skip, h.heading, rfl, h.depth, h.below, h.subsection, h.note, ?_, ?_, h.titled⟩
      · show s.prose ++ [commandMark (s.commands.length + 1)] = t.pieces ++ [commandMark (t.count + 1)]
        rw [h.prose, h.count]
      · show (s.commands ++ [_]).length = t.count + 1
        rw [List.length_append, h.count, List.length_singleton]
    · simp [produced, hblank, h.subsection, h.note, h.prose]

theorem follows_blank (h : Sim s t) (text : Line) :
    Follows letter s (run letter (Block.blank text).events s) t (Block.blank text).marks := by
  show Follows letter s (run letter (dataEvents text) s) t (if text = [] then [] else [.blank text])
  rw [run_data h.skip]
  by_cases htext : text = []
  · rw [if_pos htext, htext]
    exact (take_nil s).symm ▸ Follows.refl h
  · have hsome : [text].filter (!·.isEmpty) = [text] := List.filter_eq_self.mpr fun w hw => by
      rw [List.mem_singleton.mp hw, Bool.not_eq_true', List.isEmpty_eq_false_iff]
      exact htext
    have htake : s.take [text] = { s with prose := s.prose ++ [text] } := by
      simp [State.take, h.heading, h.pre]
    rw [if_neg htext, hsome, htake]
    refine ⟨⟨h.skip, h.heading, h.pre, h.depth, h.below, h.subsection, h.note, ?_, h.count, h.titled⟩, rfl,
      fun _ => rfl, ?_⟩
    · show s.prose ++ [text] = t.pieces ++ [text]
      rw [h.prose]
    · simp [produced]

/-- **The handlers follow a block.** -/
theorem follows_block (h : Sim s t) (b : Block) : Follows letter s (run letter b.events s) t b.marks := by
  cases b with
  | script text =>
    have hsame : run letter (Block.script text).events s = s := run_raw h.skip (Or.inl rfl) (skips_data text)
    rw [hsame]
    exact Follows.refl h
  | style text =>
    have hsame : run letter (Block.style text).events s = s := run_raw h.skip (Or.inr rfl) (skips_data text)
    rw [hsame]
    exact Follows.refl h
  | title runs => exact follows_title h runs
  | paragraph runs => exact follows_paragraph h runs
  | heading level runs => exact follows_heading h level runs
  | pre root runs => exact follows_pre h root runs
  | blank text => exact follows_blank h text

end

/-! ### Divs -/

section

variable {s : State} {t : Trail} {cls : Line}

theorem not_isAdmon_of_isNav (h : isNav cls = true) : isAdmon cls = false := by
  rcases (Bool.or_eq_true _ _).mp h with h | h
  · rw [beq_iff_eq.mp h]
    decide
  · rw [beq_iff_eq.mp h]
    decide

theorem starttag_div (h : s.skip = 0) (hnav : isNav cls = false) :
    handleStarttag letter .div cls s =
      { s with divs := s.divs + 1
               admonDepth := if isAdmon cls then (s.divs + 1) :: s.admonDepth else s.admonDepth } := by
  simp [handleStarttag, countDiv, h, hnav, Tag.isSub]

theorem endtag_div (h : Sim s t) : handleEndtag .div s = closeDiv s := by
  have hclose : (closeDiv s).heading = none ∧ (closeDiv s).pre = none := by
    unfold closeDiv
    split <;> exact ⟨h.heading, h.pre⟩
  simp [handleEndtag, h.skip, hclose, Tag.isSub]

/-- Navigation is skipped, but its start is counted as a div. -/
theorem run_nav (h : s.skip = 0) (hnav : isNav cls = true) {es : List Event} (hes : Skips letter es) :
    run letter (within .div cls es) s = { s with divs := s.divs + 1 } := by
  have hstart : handleStarttag letter .div cls s = { s with divs := s.divs + 1, skip := 1 } := by
    simp [handleStarttag, countDiv, h, hnav, not_isAdmon_of_isNav hnav]
  have hone : ({ s with divs := s.divs + 1, skip := 1 } : State).skip ≠ 0 := Nat.one_ne_zero
  rw [within, run_cons, run_append, handle, hstart, hes _ hone, run_cons, run_nil, handle, endtag_skip hone]
  exact skip_restored (s := { s with divs := s.divs + 1 }) h

theorem follows_nav (h : Sim s t) (hnav : isNav cls = true) (houtside : s.admonDepth = []) {es : List Event}
    (hes : Skips letter es) : Follows letter s (run letter (within .div cls es) s) t [] := by
  rw [run_nav h.skip hnav hes]
  refine ⟨⟨h.skip, h.heading, h.pre, h.depth, fun d hd => ?_, h.subsection, h.note, h.prose, h.count, h.titled⟩,
    rfl, fun hne => absurd houtside hne, (List.append_nil _).symm⟩
  have hhead : d ∈ s.admonDepth.head? := hd
  rw [houtside] at hhead
  cases hhead

/-- A plain div changes nothing. -/
theorem follows_plain (h : Sim s t) (hnav : isNav cls = false) (hadmon : isAdmon cls = false)
    {es : List Event} {ms : List Mark}
    (hes : ∀ s', s'.admonDepth = s.admonDepth → Sim s' t → Follows letter s' (run letter es s') t ms) :
    Follows letter s (run letter (within .div cls es) s) t ms := by
  have hstart : handleStarttag letter .div cls s = { s with divs := s.divs + 1 } := by
    rw [starttag_div h.skip hnav, if_neg (by rw [hadmon]; exact Bool.false_ne_true)]
  have hbegin : Sim { s with divs := s.divs + 1 } t :=
    ⟨h.skip, h.heading, h.pre, h.depth, fun d hd => (h.below d hd).trans (Int.le_add_one le_rfl), h.subsection,
      h.note, h.prose, h.count, h.titled⟩
  have hin := hes { s with divs := s.divs + 1 } rfl hbegin
  rw [within, run_cons, run_append, handle, hstart]
  generalize run letter es { s with divs := s.divs + 1 } = s₂ at hin
  have hsim := hin.sim
  have hdepth : s₂.admonDepth = s.admonDepth := hin.depth
  have hdivs (hne : s.admonDepth ≠ []) : s₂.divs = s.divs + 1 := hin.divs hne
  -- the innermost admonition began further out
  have hbelow (d : ℤ) (hd : d ∈ s.admonDepth.head?) : d ≤ s₂.divs - 1 := by
    have hne : s.admonDepth ≠ [] := by
      rintro hnil
      rw [hnil] at hd
      cases hd
    have hle := h.below d hd
    have hcount := hdivs hne
    omega
  have hother : s₂.admonDepth.head? ≠ some s₂.divs := by
    intro heq
    have hle := hbelow s₂.divs (by rw [← hdepth]; exact heq)
    omega
  rw [run_cons, run_nil, handle, endtag_div hsim, closeDiv, if_neg hother]
  refine ⟨⟨hsim.skip, hsim.heading, hsim.pre, hsim.depth, fun d hd => ?_, hsim.subsection, hsim.note, hsim.prose,
    hsim.count, hsim.titled⟩, hdepth, fun hne => ?_, hin.commands⟩
  · refine hbelow d ?_
    rw [← hdepth]
    exact hd
  · have hcount := hdivs hne
    show s₂.divs - 1 = s.divs
    omega

/-- An admonition is entered and left. -/
theorem follows_admon (h : Sim s t) (hnav : isNav cls = false) (hadmon : isAdmon cls = true)
    {es : List Event} {ms : List Mark}
    (hes : ∀ s', s'.admonDepth ≠ [] → Sim s' (t.next .enter) →
      Follows letter s' (run letter es s') (t.next .enter) ms) :
    Follows letter s (run letter (within .div cls es) s) t (.enter :: (ms ++ [.leave])) := by
  have hstart : handleStarttag letter .div cls s =
      { s with divs := s.divs + 1, admonDepth := (s.divs + 1) :: s.admonDepth } := by
    rw [starttag_div h.skip hnav, if_pos hadmon]
  have hbegin : Sim { s with divs := s.divs + 1, admonDepth := (s.divs + 1) :: s.admonDepth }
      (t.next .enter) := by
    refine ⟨h.skip, h.heading, h.pre, ?_, ?_, h.subsection, h.note, h.prose, h.count, h.titled⟩
    · show s.admonDepth.length + 1 = t.around.length + 1
      rw [h.depth]
    · rintro d ⟨⟩
      exact le_rfl
  have hin := hes _ (List.cons_ne_nil _ _) hbegin
  rw [within, run_cons, run_append, handle, hstart]
  generalize run letter es { s with divs := s.divs + 1, admonDepth := (s.divs + 1) :: s.admonDepth } = s₂ at hin
  have hdepth : s₂.admonDepth = (s.divs + 1) :: s.admonDepth := hin.depth
  have hdivs : s₂.divs = s.divs + 1 := hin.divs (List.cons_ne_nil _ _)
  have hhere : s₂.admonDepth.head? = some s₂.divs := by rw [hdepth, hdivs, List.head?_cons]
  rw [run_cons, run_nil, handle, endtag_div hin.sim, closeDiv, if_pos hhere]
  have hsim := hin.sim
  have hafter : t.after (.enter :: (ms ++ [.leave])) = ((t.next .enter).after ms).next .leave := by
    rw [Trail.after, List.foldl_cons, List.foldl_append]
    rfl
  refine ⟨?_, ?_, fun _ => ?_, ?_⟩
  · rw [hafter]
    refine ⟨hsim.skip, hsim.heading, hsim.pre, ?_, fun d hd => ?_, hsim.subsection, rfl, hsim.prose, hsim.count,
      hsim.titled⟩
    · show s₂.admonDepth.tail.length = ((t.next .enter).after ms).around.tail.length
      rw [List.length_tail, List.length_tail, hsim.depth]
    · have htail : s₂.admonDepth.tail = s.admonDepth := by rw [hdepth, List.tail_cons]
      have hle := h.below d (by rw [← htail]; exact hd)
      show d ≤ s₂.divs - 1
      omega
  · show s₂.admonDepth.tail = s.admonDepth
    rw [hdepth, List.tail_cons]
  · show s₂.divs - 1 = s.divs
    omega
  · show s₂.commands = s.commands ++ produced letter t (.enter :: (ms ++ [.leave]))
    have hproduced : produced letter t (.enter :: (ms ++ [.leave])) = produced letter (t.next .enter) ms := by
      show produced letter (t.next .enter) (ms ++ [.leave]) = _
      rw [produced_append]
      exact List.append_nil _
    rw [hproduced]
    exact hin.commands

end

/-- **The handlers follow a page** that has no navigation in an admonition. -/
theorem follows_page (page : Page) {s : State} {t : Trail} (h : Sim s t)
    (hnav : NavOutside (!s.admonDepth.isEmpty) page) :
    Follows letter s (run letter page.events s) t page.marks := by
  induction page generalizing s t with
  | done => exact Follows.refl h
  | block b rest ih =>
    have hfirst : Follows letter s (run letter b.events s) t b.marks := follows_block h b
    show Follows letter s (run letter (b.events ++ rest.events) s) t (b.marks ++ rest.marks)
    rw [run_append]
    refine hfirst.trans (ih hfirst.sim ?_)
    rw [hfirst.depth]
    exact hnav
  | div cls page rest ihpage ihrest =>
    obtain ⟨hhere, hrest⟩ := hnav
    show Follows letter s (run letter (within .div cls page.events ++ rest.events) s) t
      ((if isNav cls then [] else if isAdmon cls then .enter :: (page.marks ++ [.leave]) else page.marks) ++
        rest.marks)
    have hfirst : Follows letter s (run letter (within .div cls page.events) s) t
        (if isNav cls then [] else if isAdmon cls then .enter :: (page.marks ++ [.leave]) else page.marks) := by
      cases hcls : isNav cls with
      | true =>
        rw [hcls, if_pos rfl, Bool.not_eq_false', List.isEmpty_iff] at hhere
        exact follows_nav h hcls hhere (skips_page page)
      | false =>
        rw [hcls, if_neg Bool.false_ne_true] at hhere
        rw [if_neg Bool.false_ne_true]
        cases hadmon : isAdmon cls with
        | true =>
          rw [hadmon, Bool.or_true] at hhere
          refine follows_admon h hcls hadmon fun s' hne hs' => ihpage hs' ?_
          rw [List.isEmpty_eq_false_iff.mpr hne]
          exact hhere
        | false =>
          rw [hadmon, Bool.or_false] at hhere
          refine follows_plain h hcls hadmon fun s' hsame hs' => ihpage hs' ?_
          rw [hsame]
          exact hhere
    rw [run_append]
    refine hfirst.trans (ihrest hfirst.sim ?_)
    rw [hfirst.depth]
    exact hrest

/-! ### When the labels are right -/

theorem toReading_next (t : Trail) (m : Mark) : (t.next m).toReading = t.toReading.next m := by
  cases m with
  | heading pieces =>
    unfold Trail.next
    dsimp only
    split <;> rfl
  | title pieces =>
    unfold Trail.next
    dsimp only
    split <;> rfl
  | command root pieces =>
    unfold Trail.next
    dsimp only
    split <;> rfl
  | paragraph pieces => rfl
  | blank text => rfl
  | enter => rfl
  | leave => rfl

/-- A command gets its labels exactly where they are clear. -/
theorem label_eq_iff (t : Trail) (root : Bool) (text : Line) :
    (⟨t.subsection, if t.closed then [] else t.note, root || saysRoot letter (lead t.pieces), text⟩ : Command) =
      ⟨t.subsection, t.note, root || saysRoot letter (oneLine t.sentence.flatten), text⟩ ↔
        t.Clear letter root := by
  rw [Command.mk.injEq, Trail.Clear]
  have hnote : (if t.closed then [] else t.note) = t.note ↔ (t.closed = true → t.note = []) := by
    cases t.closed with
    | false => exact ⟨fun _ hclosed => absurd hclosed Bool.false_ne_true, fun _ => rfl⟩
    | true => exact ⟨fun h _ => h.symm, fun h => (h rfl).symm⟩
  have hroot : (root || saysRoot letter (lead t.pieces)) =
      (root || saysRoot letter (oneLine t.sentence.flatten)) ↔
        (root = false → saysRoot letter (lead t.pieces) = saysRoot letter (oneLine t.sentence.flatten)) := by
    generalize saysRoot letter (lead t.pieces) = a
    generalize saysRoot letter (oneLine t.sentence.flatten) = b
    cases root with
    | false => exact ⟨fun h _ => h, fun h => h rfl⟩
    | true => exact ⟨fun _ htrue => absurd htrue.symm Bool.false_ne_true, fun _ => rfl⟩
  rw [hnote, hroot]
  exact ⟨fun h => ⟨h.2.1, h.2.2.1⟩, fun h => ⟨rfl, h.1, h.2, rfl⟩⟩

theorem produced_eq_iff (t : Trail) (ms : List Mark) :
    produced letter t ms = expectedFrom letter t.toReading ms ↔ ClearFrom letter t ms := by
  induction ms generalizing t with
  | nil => exact ⟨fun _ => trivial, fun _ => rfl⟩
  | cons m ms ih =>
    have htail := ih (t.next m)
    rw [toReading_next] at htail
    cases m with
    | command root pieces =>
      show (if Blank (commandText pieces) then [] else [_]) ++ _ =
        (if Blank (commandText pieces) then [] else [_]) ++ _ ↔
          (Blank (commandText pieces) ∨ t.Clear letter root) ∧ ClearFrom letter _ ms
      by_cases hblank : Blank (commandText pieces)
      · rw [if_pos hblank, if_pos hblank, List.nil_append, List.nil_append, htail]
        exact ⟨fun h => ⟨Or.inl hblank, h⟩, fun h => h.2⟩
      · rw [if_neg hblank, if_neg hblank, List.cons_append, List.cons_append, List.cons.injEq, List.nil_append,
          List.nil_append, htail, label_eq_iff]
        exact and_congr_left fun _ => ⟨Or.inr, fun h => h.resolve_left hblank⟩
    | title pieces => exact htail
    | paragraph pieces => exact htail
    | heading pieces => exact htail
    | blank text => exact htail
    | enter => exact htail
    | leave => exact htail

theorem sim_start : Sim .start .start := ⟨rfl, rfl, rfl, rfl, nofun, rfl, rfl, rfl, rfl, rfl⟩

/-- **A page without navigation in admonitions yields its commands with their labels exactly if every
command is clear.** -/
theorem commands_iff {page : Page} (h : NavOutside false page) :
    (feed letter page).commands = expected letter page ↔ AllClear letter page := by
  have hfollows : Follows letter .start (feed letter page) .start page.marks := follows_page page sim_start h
  rw [hfollows.commands]
  exact produced_eq_iff .start page.marks

/-! ### Some pages -/

def paragraph (text : String) (rest : Page) : Page := .block (.paragraph [⟨false, text.toList⟩]) rest

theorem first_level : 0 < 3 := by decide

def heading (text : String) (rest : Page) : Page :=
  .block (.heading ⟨0, first_level⟩ [⟨false, text.toList⟩]) rest

def command (text : String) (rest : Page) : Page := .block (.pre false [⟨true, text.toList⟩]) rest

def admon (inside rest : Page) : Page := .div "admon note".toList inside rest

/-- Navigation, a subsection, and an admonition with a command for root. -/
def plainPage : Page :=
  .div "navheader".toList (paragraph "Next" .done) <| heading "Installation" <| paragraph "Configure it:" <|
    command "./configure" <| admon (heading "Note" <| paragraph "As the root user, run:" <|
      command "make install" .done) .done

theorem commands_plainPage : (feed (fun _ => false) plainPage).commands = expected (fun _ => false) plainPage :=
  (commands_iff (by decide)).mpr (by decide)

/-- An admonition within a titled one, and a command behind it. -/
def nestedPage : Page :=
  admon (heading "Warning" <| admon (paragraph "Read this." .done) <| command "make" .done) .done

/-- Navigation in an admonition, and a subsection behind both. -/
def navPage : Page :=
  heading "First" <| admon (.div "navfooter".toList .done .done) <| heading "Second" <| command "make" .done

/-- A command for root, and one behind another sentence. -/
def rootPage : Page :=
  paragraph "As the root user, run:" <| command "make install" <| paragraph "Now as before, run:" <|
    command "make check" .done

/-- The note of the outer admonition is lost, the subsection is taken for a note, and the second command
is taken for one for root. -/
theorem commands_wrong :
    (feed (fun _ => false) nestedPage).commands ≠ expected (fun _ => false) nestedPage ∧
      (feed (fun _ => false) navPage).commands ≠ expected (fun _ => false) navPage ∧
        (feed (fun _ => false) rootPage).commands ≠ expected (fun _ => false) rootPage := by
  decide

end Book
end CloudCore
