import CloudCore.Lfs.WorkerGuards

/-!
# Every word of the book's command

What a repair runs instead of a command of the book has to keep the words of that command.
`_keeps_words` looks for each of them in one iterator over the words of the repair, and what one
search has consumed the next one does not see again.

## Main definitions

* `anyEq` — `any(w == x for x in words)`, and what it leaves of the iterator.
* `allAnyEq` — the searches for all words, one after the other.
* `keepsWordsIter` — `_keeps_words`, with its iterator.
* `NoComments`, `Apart` — texts without comments, and places where a text can be cut without a
  word being cut.

## Main results

* `allAnyEq_iff` — the greedy searches accept the subsequences.
* `flatMap_spaced_splitlines` — the words of a text are those of its lines.
* `keepsWordsIter_exact` — **the check is exact**, and with it reflexive, transitive and kept where
  words are inserted.
-/

namespace CloudCore
namespace LfsWorker

open Python

/-! ### Searches in one iterator -/

section Iterator

variable {α : Type*} [DecidableEq α]

/-- `any(w == x for x in words)`: whether it finds `w`, and what is left of the iterator. -/
def anyEq (w : α) : List α → Bool × List α
  | [] => (false, [])
  | x :: words => if w = x then (true, words) else anyEq w words

/-- `all(any(w == x for x in words) for w in …)`; the first search that fails is the last. -/
def allAnyEq : List α → List α → Bool
  | [], _ => true
  | w :: ws, words =>
    let (found, rest) := anyEq w words
    if found then allAnyEq ws rest else false

/-- A search that fails has seen everything. -/
theorem anyEq_of_notMem {w : α} {words : List α} (h : w ∉ words) : anyEq w words = (false, []) := by
  induction words with
  | nil => rfl
  | cons x words ih =>
    obtain ⟨hx, hwords⟩ := not_or.mp (mt List.mem_cons.mpr h)
    rw [anyEq, if_neg hx, ih hwords]

/-- A search consumes what stands before the first place, and that place. -/
theorem anyEq_append {w : α} {before : List α} (h : w ∉ before) (rest : List α) :
    anyEq w (before ++ w :: rest) = (true, rest) := by
  induction before with
  | nil => rw [List.nil_append, anyEq, if_pos rfl]
  | cons x before ih =>
    obtain ⟨hx, hbefore⟩ := not_or.mp (mt List.mem_cons.mpr h)
    rw [List.cons_append, anyEq, if_neg hx, ih hbefore]

omit [DecidableEq α] in
/-- What stands before the first place of a word is of no use to a subsequence that begins with
it. -/
theorem cons_sublist_append_iff {w : α} {before : List α} (h : w ∉ before) (ws rest : List α) :
    (w :: ws).Sublist (before ++ w :: rest) ↔ ws.Sublist rest := by
  induction before with
  | nil => exact List.cons_sublist_cons
  | cons x before ih =>
    obtain ⟨hx, hbefore⟩ := not_or.mp (mt List.mem_cons.mpr h)
    rw [List.cons_append, List.sublist_cons_iff, ← ih hbefore]
    constructor
    · rintro (hsub | ⟨r, heq, -⟩)
      · exact hsub
      · exact absurd (List.cons.inj heq).1 hx
    · exact .inl

/-- **The greedy searches accept exactly the subsequences.**  The induction is on the words that
are looked for: a search that stops at the first place leaves the most for the others. -/
theorem allAnyEq_iff {ws words : List α} : allAnyEq ws words = true ↔ ws.Sublist words := by
  induction ws generalizing words with
  | nil => exact iff_of_true rfl (List.nil_sublist words)
  | cons w ws ih =>
    by_cases hmem : w ∈ words
    · obtain ⟨before, rest, rfl, hbefore⟩ := List.eq_append_cons_of_mem hmem
      rw [allAnyEq, anyEq_append hbefore rest, cons_sublist_append_iff hbefore]
      exact ih
    · rw [allAnyEq, anyEq_of_notMem hmem]
      -- the iterator is used up, and the word is not in it
      refine iff_of_false Bool.false_ne_true fun hsub => hmem ?_
      exact hsub.subset List.mem_cons_self

end Iterator

/-! ### The words of a text -/

/-- `_keeps_words`: the words of the book's lines, each looked for behind the one before. -/
def keepsWordsIter (book instead : String) : Bool :=
  allAnyEq (bookLineWords book.toList) (shellWords instead.toList)

theorem isSpace_of_isLineEnd {c : Char} (h : isLineEnd c = true) : isSpace c = true := by
  simp only [isLineEnd, isSpace, Bool.or_eq_true, Bool.and_eq_true, decide_eq_true_eq, beq_iff_eq] at h ⊢
  omega

/-- **The words of a text are those of its lines.** -/
theorem flatMap_spaced_splitlines (t : List Char) : (splitlines t).flatMap spaced = spaced t := by
  -- `line` is what has been read of the current line, and nothing right behind a `\r`
  have hgo : ∀ (t line : List Char) (cr : Bool), (cr = true → line = []) →
      (splitlines.go t line cr).flatMap spaced = spaced (line.reverse ++ t) := by
    intro t
    induction t with
    | nil =>
      intro line cr _
      rw [splitlines.go, List.append_nil]
      cases line with
      | nil => rfl
      | cons c line => exact List.flatMap_singleton spaced (c :: line).reverse
    | cons c t ih =>
      intro line cr hcr
      rw [splitlines.go]
      split
      · next hend =>
        obtain ⟨rfl, hcr'⟩ := hend
        rw [ih [] false fun h => absurd h Bool.false_ne_true, hcr hcr']
        exact (spaced_append (show isSpace '\n' = true by decide) (a := [])).symm
      · split
        · next hend =>
          rw [List.flatMap_cons, ih [] _ fun _ => rfl, spaced_append (isSpace_of_isLineEnd hend)]
          rfl
        · rw [ih (c :: line) false fun h => absurd h Bool.false_ne_true, List.reverse_cons, List.append_assoc,
            List.singleton_append]
  exact hgo t [] false fun h => absurd h Bool.false_ne_true

/-- No line of the text is a comment. -/
def NoComments (t : String) : Prop :=
  ∀ line ∈ splitlines t.toList, (line.dropWhile isSpace).head? ≠ some '#'

instance (t : String) : Decidable (NoComments t) :=
  inferInstanceAs (Decidable (∀ line ∈ splitlines t.toList, _))

theorem spaced_of_blank {l : List Char} (h : l.dropWhile isSpace = []) : spaced l = [] := by
  induction l with
  | nil => rfl
  | cons c l ih =>
    have hc : isSpace c = true := List.dropWhile_eq_nil_iff.mp h c List.mem_cons_self
    rw [List.dropWhile_cons_of_pos hc] at h
    have hcut := spaced_append hc (a := []) (b := l)
    rw [List.nil_append] at hcut
    rw [hcut, ih h]
    rfl

/-- In a text without comments the words of the lines are all its words. -/
theorem bookLineWords_of_noComments {t : String} (h : NoComments t) :
    bookLineWords t.toList = shellWords t.toList := by
  refine (List.flatMap_congr (g := fun line => (spaced line).filter (· ≠ ['\\']))
    fun line hmem => ?_).trans ?_
  · have hhead := h line hmem
    split
    · next hblank => rw [spaced_of_blank hblank]; rfl
    · next hcomment => exact absurd (by rw [hcomment]; rfl) hhead
    · rfl
  rw [← List.filter_flatMap, flatMap_spaced_splitlines, shellWords]

/-- Two texts of which no word of the one goes on in the other: one of them is empty, or there is
white space where they meet. -/
def Apart (a b : List Char) : Prop :=
  a = [] ∨ b = [] ∨ (∃ c ∈ a.getLast?, isSpace c = true) ∨ ∃ c ∈ b.head?, isSpace c = true

theorem spaced_concat_space {c : Char} (hc : isSpace c = true) (a : List Char) :
    spaced (a ++ [c]) = spaced a := by
  rw [spaced_append hc]
  exact List.append_nil _

theorem spaced_cons_space {c : Char} (hc : isSpace c = true) (b : List Char) :
    spaced (c :: b) = spaced b :=
  spaced_append hc (a := [])

/-- The words of two texts that are apart are those of the one and those of the other. -/
theorem Apart.spaced_append {a b : List Char} (h : Apart a b) : spaced (a ++ b) = spaced a ++ spaced b := by
  obtain rfl | rfl | ⟨c, hlast, hc⟩ | ⟨c, hhead, hc⟩ := h
  · rfl
  · rw [List.append_nil]
    exact (List.append_nil _).symm
  · obtain ⟨a, rfl⟩ := List.getLast?_eq_some_iff.mp hlast
    rw [spaced_concat_space hc, List.append_assoc, List.singleton_append, LfsWorker.spaced_append hc]
  · obtain ⟨b, rfl⟩ := List.head?_eq_some_iff.mp hhead
    rw [LfsWorker.spaced_append hc, spaced_cons_space hc]

/-- Where words are inserted between words, those that were there stay in their order. -/
theorem sublist_inserted {front words back : List Char} (hcut : Apart front back)
    (hfront : Apart front words) (hback : Apart words back) :
    (shellWords (front ++ back)).Sublist (shellWords (front ++ words ++ back)) := by
  have hlong : spaced (front ++ words ++ back) = spaced front ++ (spaced words ++ spaced back) := by
    by_cases hwords : words = []
    · rw [hwords, List.append_nil, hcut.spaced_append]
      rfl
    · have houter : Apart front (words ++ back) := by
        obtain rfl | hnil | hlast | ⟨c, hhead, hc⟩ := hfront
        · exact .inl rfl
        · exact absurd hnil hwords
        · exact .inr (.inr (.inl hlast))
        · refine .inr (.inr (.inr ⟨c, ?_, hc⟩))
          rw [Option.mem_def, List.head?_append_of_ne_nil words hwords]
          exact hhead
      rw [List.append_assoc, houter.spaced_append, hback.spaced_append]
  rw [shellWords, shellWords, hcut.spaced_append, hlong]
  exact ((List.sublist_append_right _ _).append_left _).filter _

/-! ### The check -/

theorem keepsWordsIter_iff {book instead : String} :
    keepsWordsIter book instead = true ↔
      (bookLineWords book.toList).Sublist (shellWords instead.toList) :=
  allAnyEq_iff

/-- **The check is exact**: it holds if and only if the words of the book's lines are a subsequence
of the words of what runs instead.  So a text without comments keeps its own words, what keeps the
words of such a text keeps all that it keeps, and words may be inserted. -/
theorem keepsWordsIter_exact :
    (∀ book instead, keepsWordsIter book instead = true ↔
      (bookLineWords book.toList).Sublist (shellWords instead.toList)) ∧
    (∀ t, NoComments t → keepsWordsIter t t = true) ∧
    (∀ book t instead, NoComments t → keepsWordsIter book t = true → keepsWordsIter t instead = true →
      keepsWordsIter book instead = true) ∧
    ∀ book front words back, Apart front.toList back.toList → Apart front.toList words.toList →
      Apart words.toList back.toList → keepsWordsIter book (front ++ back) = true →
      keepsWordsIter book (front ++ words ++ back) = true := by
  refine ⟨fun _ _ => keepsWordsIter_iff, ?_, ?_, ?_⟩
  · intro t ht
    rw [keepsWordsIter_iff, bookLineWords_of_noComments ht]
  · intro book t instead ht hbook hinstead
    rw [keepsWordsIter_iff] at hbook hinstead ⊢
    rw [bookLineWords_of_noComments ht] at hinstead
    exact hbook.trans hinstead
  · intro book front words back hcut hfront hback hkeeps
    rw [keepsWordsIter_iff, String.toList_append] at hkeeps
    rw [keepsWordsIter_iff, String.toList_append, String.toList_append]
    exact hkeeps.trans (sublist_inserted hcut hfront hback)

/-- `make install` keeps its words with an option between them, and `make install-sshd` has not
all of them. -/
theorem keepsWordsIter_make :
    keepsWordsIter "make install" "make -j1 install" = true ∧
      ¬keepsWordsIter "make install" "make install-sshd" = true ∧
      keepsWordsIter "make \\\n install" "make install" = true := by
  refine ⟨?_, ?_, ?_⟩
  · have hcut : Apart "make ".toList "install".toList :=
      .inr (.inr (.inl ⟨' ', by decide, by decide⟩))
    have hfront : Apart "make ".toList "-j1 ".toList :=
      .inr (.inr (.inl ⟨' ', by decide, by decide⟩))
    have hback : Apart "-j1 ".toList "install".toList :=
      .inr (.inr (.inl ⟨' ', by decide, by decide⟩))
    have hself : keepsWordsIter "make install" "make install" = true :=
      keepsWordsIter_exact.2.1 "make install" (by decide)
    exact keepsWordsIter_exact.2.2.2 "make install" "make " "-j1 " "install" hcut hfront hback hself
  · rw [keepsWordsIter_exact.1]
    decide
  · exact keepsWordsIter_exact.2.2.1 _ "make install" _ (by decide) (by decide)
      (keepsWordsIter_exact.2.1 "make install" (by decide))

end LfsWorker
end CloudCore
