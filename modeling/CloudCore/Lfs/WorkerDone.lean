import CloudCore.Lfs.MkdirPattern
import Mathlib.Data.List.Nodup

/-!
# A step whose work is already done

The model may say of a failed step that its work is already done.  `_really_done` accepts that if
the output says that something exists and the directories after `mkdir` are there; the rest of the
step is then skipped.

## Main definitions

* `Command`, `stepText` — a step of simple commands.
* `Stops` — a run under `set -e` that fails at a command.
* `reallyDone` — the check.
* `LosesNothing` — whatever is accepted, only directories that exist were left to be made.

## Main results

* `losesNothing_iff` — **a step loses nothing exactly if it only makes directories that the check sees.**
-/

namespace CloudCore
namespace LfsWorker
namespace Done

open Python
open Python.Re (lit oneOf search)

variable (A : Letters)

/-! ### The machine -/

abbrev Path := List Char

/-- The directories of the machine. -/
abbrev Dirs := Path → Bool

/-- A character that the shell leaves as it is, or one of a variable. -/
def isPlain (c : Char) : Bool := c.isAlphanum || "/._-+=:,@%$".toList.contains c

/-- A word of a command. -/
abbrev Word := {w : List Char // w ≠ [] ∧ ∀ c ∈ w, isPlain c = true}

/-- Which directory a word is, for the step (in its own directory and root) and for `test -d` (as root,
where the connection begins). -/
structure Site where
  made : Word → Path
  tested : List Char → Path

/-! ### Commands -/

/-- A simple command. -/
structure Command where
  program : Word
  args : List Word
  deriving DecidableEq

def Command.words (c : Command) : List (List Char) := (c.program :: c.args).map Subtype.val

def Command.text (c : Command) : List Char := [' '].intercalate c.words

/-- One command a line. -/
def stepText (step : List Command) : List Char := ['\n'].intercalate (step.map Command.text)

/-- `-v`, `-p`, `--parents`; an option takes no word of its own. -/
def isOption (w : Word) : Bool := w.1.head? == some '-'

/-- The option, `-p` or a cluster with it, under which a directory may exist. -/
def isParents (w : Word) : Bool :=
  w.1 == "--parents".toList || isOption w && w.1.tail.head? != some '-' && w.1.contains 'p'

/-- The operands. -/
def Command.dirs (c : Command) : List Word := c.args.filter (!isOption ·)

def Command.isMkdir (c : Command) : Bool := c.program.1 == "mkdir".toList && c.dirs ≠ []

def Command.parents (c : Command) : Bool := c.args.any isParents

variable (S : Site)

/-- After a `mkdir`, whether it fails or not, its operands are there. -/
def Command.after (c : Command) (D : Dirs) : Dirs := fun p => D p || (c.dirs.map S.made).contains p

/-- None of the directories exists, nor is one made twice. -/
def Command.Fresh (c : Command) (D : Dirs) : Prop :=
  (c.dirs.map S.made).Nodup ∧ ∀ d ∈ c.dirs, D (S.made d) = false

inductive Succeeds (c : Command) (D : Dirs) : Dirs → Prop
  | mkdir (hc : c.isMkdir = true) (h : c.parents = true ∨ c.Fresh S D) : Succeeds c D (c.after S D)
  | other (hc : c.isMkdir = false) (D' : Dirs) : Succeeds c D D'

/-- A command that fails, with its message. -/
inductive Fails (c : Command) (D : Dirs) : List Char → Dirs → Prop
  | mkdir (hc : c.isMkdir = true) (hparents : c.parents = false) (h : ¬c.Fresh S D) {output : List Char}
      (houtput : "File exists".toList <:+: output) : Fails c D output (c.after S D)
  | other (hc : c.isMkdir = false) (output : List Char) (D' : Dirs) : Fails c D output D'

/-- Under `set -e` the commands before have run, one fails, and the others do not begin; `left` are
those that have not run successfully. -/
inductive Stops : List Command → Dirs → List Char → List Command → Dirs → Prop
  | here {c : Command} {cs : List Command} {D D' : Dirs} {output : List Char} (h : Fails S c D output D') :
      Stops (c :: cs) D output (c :: cs) D'
  | next {c : Command} {cs left : List Command} {D D' D'' : Dirs} {output : List Char}
      (h : Succeeds S c D D') (hrest : Stops cs D' output left D'') : Stops (c :: cs) D output left D''

/-! ### The check -/

/-- `File exists|already exists|already mounted`. -/
def existsPattern : Re := oneOf [lit "File exists", lit "already exists", lit "already mounted"]

def reallyDone (run output : List Char) (D : Dirs) : Bool :=
  search A.isLetter existsPattern output && (targets A run).all fun t => D (S.tested t)

/-- What is accepted left only directories to be made that exist. -/
def LosesNothing (step : List Command) : Prop :=
  ∀ D output left D', Stops S step D output left D' → reallyDone A S (stepText step) output D' = true →
    ∀ c ∈ left, c.isMkdir = true ∧ ∀ d ∈ c.dirs, D' (S.made d) = true

/-! ### Its condition -/

/-- A `mkdir -p`, which does not fail. -/
def Command.isSafe (c : Command) : Bool := c.isMkdir && c.parents

/-- The commands that cannot fail, and the first that can. -/
def tried : List Command → List Command
  | [] => []
  | c :: cs => if c.isSafe then c :: tried cs else [c]

/-- The commands after it. -/
def untried : List Command → List Command
  | [] => []
  | c :: cs => if c.isSafe then untried cs else cs

/-- The directories after a word that ends in `mkdir` and its options, as the check looks for them. -/
def seen (step : List Command) : List Path := (named A (step.flatMap Command.words)).map S.tested

/-- Each command makes directories; those that may be left to be made are seen, or made before. -/
def OnlySeen (step : List Command) : Prop :=
  (∀ c ∈ step, c.isMkdir = true) ∧ ∀ c ∈ untried step, ∀ d ∈ c.dirs,
    S.made d ∈ seen A S step ∨ ∃ c' ∈ tried step, ∃ d' ∈ c'.dirs, S.made d' = S.made d

/-! ### The words of a step -/

theorem isSpace_of_isPlain {c : Char} (h : isPlain c = true) : isSpace c = false := by
  rw [isPlain, Bool.or_eq_true] at h
  rcases h with h | h
  · exact isSpace_of_isAlphanum h
  · have hall : ∀ d ∈ "/._-+=:,@%$".toList, isSpace d = false := by decide
    exact hall c (List.contains_iff_mem.mp h)

theorem spaced_intercalate {c : Char} (hc : isSpace c = true) (ls : List (List Char)) :
    spaced ([c].intercalate ls) = ls.flatMap spaced := by
  induction ls with
  | nil => rfl
  | cons l ls ih =>
    cases ls with
    | nil => simp [List.intercalate]
    | cons l' ls =>
      rw [List.intercalate_cons_of_ne_nil (List.cons_ne_nil l' ls), List.append_assoc, List.singleton_append,
        spaced_append hc, ih]
      rfl

theorem spaced_words (ws : List Word) : (ws.map Subtype.val).flatMap spaced = ws.map Subtype.val := by
  rw [List.flatMap_map]
  refine (List.flatMap_congr fun w _ => ?_).trans (List.map_eq_flatMap (f := Subtype.val)).symm
  exact spaced_word w.2.1 fun c hc => isSpace_of_isPlain (w.2.2 c hc)

theorem spaced_stepText (step : List Command) : spaced (stepText step) = step.flatMap Command.words := by
  rw [stepText, spaced_intercalate (by decide), List.flatMap_map]
  refine List.flatMap_congr fun c _ => ?_
  rw [Command.text, spaced_intercalate (by decide), Command.words, spaced_words]

variable {A : Letters} {S : Site}

theorem reallyDone_iff {step : List Command} {output : List Char} {D : Dirs} :
    reallyDone A S (stepText step) output D = true ↔
      search A.isLetter existsPattern output = true ∧ ∀ p ∈ seen A S step, D p = true := by
  rw [reallyDone, Bool.and_eq_true, List.all_eq_true, targets_eq, spaced_stepText, seen, List.forall_mem_map]

/-! ### Runs that stop -/

theorem after_of_dirs {c : Command} {d : Word} (hd : d ∈ c.dirs) (D : Dirs) : c.after S D (S.made d) = true := by
  rw [Command.after, Bool.or_eq_true, List.contains_iff_mem]
  exact .inr (List.mem_map_of_mem hd)

theorem after_of_there {c : Command} {D : Dirs} {p : Path} (h : D p = true) : c.after S D p = true := by
  rw [Command.after, h, Bool.true_or]

/-- Where the directories are there already, nothing changes. -/
theorem after_eq {c : Command} {D : Dirs} (h : ∀ d ∈ c.dirs, D (S.made d) = true) : c.after S D = D := by
  funext p
  rw [Command.after]
  cases hp : (c.dirs.map S.made).contains p with
  | false => exact Bool.or_false _
  | true =>
    obtain ⟨d, hd, rfl⟩ := List.mem_map.mp (List.contains_iff_mem.mp hp)
    rw [h d hd, Bool.or_true]

/-- **Where the directories up to the first command that can fail are there, it fails** and nothing
changes. -/
theorem exists_stops {step : List Command} {D : Dirs} (hsafe : ∃ c ∈ step, c.isSafe = false)
    (hthere : ∀ c ∈ tried step, ∀ d ∈ c.dirs, D (S.made d) = true) :
    ∃ left, Stops S step D "File exists".toList left D ∧ (∀ c ∈ untried step, c ∈ left) ∧
      ∀ c ∈ step, c.isSafe = false → c ∈ left := by
  induction step with
  | nil =>
    obtain ⟨c, hc, -⟩ := hsafe
    cases hc
  | cons c cs ih =>
    have hsame : c.after S D = D := by
      refine after_eq (hthere c ?_)
      rw [tried]
      split <;> exact List.mem_cons_self
    cases hc : c.isSafe with
    | true =>
      rw [tried, if_pos hc, List.forall_mem_cons] at hthere
      obtain ⟨c', hc', hunsafe⟩ := hsafe
      have hrest : ∃ c ∈ cs, c.isSafe = false := by
        rcases List.mem_cons.mp hc' with rfl | hc'
        · cases hc.symm.trans hunsafe
        · exact ⟨c', hc', hunsafe⟩
      obtain ⟨left, hstops, huntried, hleft⟩ := ih hrest hthere.2
      obtain ⟨hmkdir, hparents⟩ := Bool.and_eq_true_iff.mp hc
      have hsucceeds : Succeeds S c D D := by
        have hmade := Succeeds.mkdir (S := S) (D := D) hmkdir (.inl hparents)
        rwa [hsame] at hmade
      refine ⟨left, .next hsucceeds hstops, by rw [untried, if_pos hc]; exact huntried, ?_⟩
      intro x hx hunsafe
      rcases List.mem_cons.mp hx with rfl | hx
      · cases hc.symm.trans hunsafe
      · exact hleft x hx hunsafe
    | false =>
      rw [tried, if_neg (by rw [hc]; exact Bool.false_ne_true), List.forall_mem_singleton] at hthere
      have hfails : Fails S c D "File exists".toList D := by
        cases hmkdir : c.isMkdir with
        | false => exact .other hmkdir _ D
        | true =>
          -- a mkdir without `-p`, of directories that are there
          have hparents : c.parents = false := by
            rwa [Command.isSafe, hmkdir, Bool.true_and] at hc
          have hfresh : ¬c.Fresh S D := by
            intro hfresh
            rw [Command.isMkdir, Bool.and_eq_true, decide_eq_true_eq] at hmkdir
            obtain ⟨d, ds, hds⟩ := List.exists_cons_of_ne_nil hmkdir.2
            have hd : d ∈ c.dirs := hds ▸ List.mem_cons_self
            cases (hthere d hd).symm.trans (hfresh.2 d hd)
          have hfails := Fails.mkdir (S := S) (D := D) hmkdir hparents hfresh List.infix_rfl
          rwa [hsame] at hfails
      refine ⟨c :: cs, .here hfails, ?_, fun x hx _ => hx⟩
      rw [untried, if_neg (by rw [hc]; exact Bool.false_ne_true)]
      exact fun x hx => List.mem_cons_of_mem c hx

/-- Where a run of `mkdir`s stops, the directories of the commands that have begun are there. -/
theorem Stops.there {step left : List Command} {D D' : Dirs} {output : List Char}
    (hmkdir : ∀ c ∈ step, c.isMkdir = true) (h : Stops S step D output left D') :
    (∀ p, D p = true → D' p = true) ∧ ∃ before c rest, step = before ++ c :: rest ∧ left = c :: rest ∧
      c.isSafe = false ∧ ∀ x ∈ before ++ [c], ∀ d ∈ x.dirs, D' (S.made d) = true := by
  induction h with
  | @here c cs D D' output hfails =>
    have hc := hmkdir c List.mem_cons_self
    cases hfails with
    | mkdir _ hparents =>
      refine ⟨fun p hp => after_of_there hp, [], c, cs, rfl, rfl, ?_, ?_⟩
      · rw [Command.isSafe, hparents, Bool.and_false]
      · exact List.forall_mem_singleton.mpr fun d hd => after_of_dirs hd D
    | other hother => cases hc.symm.trans hother
  | @next c cs left D D' D'' output hsucceeds _ ih =>
    obtain ⟨hc, hcs⟩ := List.forall_mem_cons.mp hmkdir
    obtain ⟨hmono, before, c', rest, rfl, hleft, hsafe, hthere⟩ := ih hcs
    cases hsucceeds with
    | mkdir =>
      refine ⟨fun p hp => hmono p (after_of_there hp), c :: before, c', rest, rfl, hleft, hsafe, ?_⟩
      rw [List.cons_append, List.forall_mem_cons]
      exact ⟨fun d hd => hmono _ (after_of_dirs hd D), hthere⟩
    | other hother => cases hc.symm.trans hother

/-- Up to any command that can fail stand those that are tried. -/
theorem tried_subset {c : Command} (hc : c.isSafe = false) (before rest : List Command) :
    (∀ x ∈ tried (before ++ c :: rest), x ∈ before ++ [c]) ∧ ∀ x ∈ rest, x ∈ untried (before ++ c :: rest) := by
  induction before with
  | nil =>
    rw [List.nil_append, List.nil_append, tried, untried, hc]
    exact ⟨fun x hx => hx, fun x hx => hx⟩
  | cons a before ih =>
    rw [List.cons_append, List.cons_append, tried, untried]
    cases ha : a.isSafe with
    | true =>
      refine ⟨fun x hx => ?_, ih.2⟩
      rcases List.mem_cons.mp hx with rfl | hx
      · exact List.mem_cons_self
      · exact List.mem_cons_of_mem a (ih.1 x hx)
    | false =>
      refine ⟨fun x hx => ?_, fun x hx => ?_⟩
      · rw [List.mem_singleton.mp hx]
        exact List.mem_cons_self
      · exact List.mem_append_right before (List.mem_cons_of_mem c hx)

/-- A command is left only after one that can fail. -/
theorem exists_not_safe {step : List Command} (h : ∃ c, c ∈ untried step) : ∃ c ∈ step, c.isSafe = false := by
  induction step with
  | nil =>
    obtain ⟨c, hc⟩ := h
    cases hc
  | cons a step ih =>
    cases ha : a.isSafe with
    | true =>
      rw [untried, if_pos ha] at h
      obtain ⟨c, hc, hsafe⟩ := ih h
      exact ⟨c, List.mem_cons_of_mem a hc, hsafe⟩
    | false => exact ⟨a, List.mem_cons_self, ha⟩

theorem search_exists : search A.isLetter existsPattern "File exists".toList = true := rfl

/-- Everything is there, and the output says so: a command that makes no directory is lost. -/
theorem not_losesNothing_of_other {step : List Command} {c : Command} (hc : c ∈ step)
    (hother : c.isMkdir = false) : ¬LosesNothing A S step := by
  intro h
  have hsafe : c.isSafe = false := by rw [Command.isSafe, hother, Bool.false_and]
  obtain ⟨left, hstops, -, hleft⟩ := exists_stops (S := S) (D := fun _ => true) ⟨c, hc, hsafe⟩
    fun _ _ _ _ => rfl
  have haccept := reallyDone_iff.mpr ⟨search_exists, fun p (_ : p ∈ seen A S step) => rfl⟩
  exact absurd ((h _ _ _ _ hstops haccept c (hleft c hc hsafe)).1.symm.trans hother) (by decide)

/-- Everything is there but one directory, which the check does not see: it is not made. -/
theorem not_losesNothing_of_unseen {step : List Command} {c : Command} {d : Word} (hc : c ∈ untried step)
    (hd : d ∈ c.dirs) (hseen : S.made d ∉ seen A S step)
    (htried : ∀ x ∈ tried step, ∀ y ∈ x.dirs, S.made y ≠ S.made d) : ¬LosesNothing A S step := by
  intro h
  obtain ⟨left, hstops, hleft, -⟩ := exists_stops (S := S) (D := (· != S.made d)) (exists_not_safe ⟨c, hc⟩)
    fun x hx y hy => bne_iff_ne.mpr (htried x hx y hy)
  have hthere : ∀ p ∈ seen A S step, (p != S.made d) = true :=
    fun p hp => bne_iff_ne.mpr fun heq => hseen (by rw [← heq]; exact hp)
  have haccept := reallyDone_iff.mpr ⟨search_exists, hthere⟩
  exact bne_iff_ne.mp ((h _ _ _ _ hstops haccept c (hleft c hc)).2 d hd) rfl

/-- A step that only makes directories which the check sees loses nothing. -/
theorem OnlySeen.losesNothing {step : List Command} (h : OnlySeen A S step) : LosesNothing A S step := by
  obtain ⟨hmkdir, hseen⟩ := h
  intro D output left D' hstops haccept
  obtain ⟨-, before, c, rest, rfl, rfl, hsafe, hthere⟩ := hstops.there hmkdir
  obtain ⟨htried, huntried⟩ := tried_subset hsafe before rest
  have hrest : ∀ x ∈ c :: rest, x ∈ before ++ c :: rest := fun x hx => List.mem_append_right before hx
  refine fun x hx => ⟨hmkdir x (hrest x hx), fun d hd => ?_⟩
  rcases List.mem_cons.mp hx with rfl | hx
  · exact hthere x (List.mem_append_right before (List.mem_singleton_self x)) d hd
  · rcases hseen x (huntried x hx) d hd with hmem | ⟨y, hy, d', hd', heq⟩
    · exact (reallyDone_iff.mp haccept).2 _ hmem
    · exact heq ▸ hthere y (htried y hy) d' hd'

/-- **A step loses nothing exactly if it only makes directories that the check sees.** -/
theorem losesNothing_iff (A : Letters) (S : Site) (step : List Command) :
    LosesNothing A S step ↔ OnlySeen A S step := by
  refine ⟨fun h => ⟨fun c hc => ?_, fun c hc d hd => ?_⟩, OnlySeen.losesNothing⟩
  · by_contra hother
    exact not_losesNothing_of_other hc (Bool.not_eq_true _ ▸ hother) h
  · by_contra hnot
    rw [not_or] at hnot
    exact not_losesNothing_of_unseen hc hd hnot.1
      (fun x hx y hy heq => hnot.2 ⟨x, hx, y, hy, heq⟩) h

/-! ### Some steps -/

def ascii : Letters := ⟨fun _ => false, fun _ _ => rfl⟩

/-- A machine on which both look in one place. -/
def onePlace : Site := ⟨Subtype.val, id⟩

def word (s : String) (h : s.toList ≠ [] ∧ ∀ c ∈ s.toList, isPlain c = true) : Word := ⟨s.toList, h⟩

def mkdir (dirs : List Word) : Command := ⟨word "mkdir" (by decide), dirs⟩

/-- Two directories, one after the other. -/
example : OnlySeen ascii onePlace [mkdir [word "/a" (by decide)], mkdir [word "/b" (by decide)]] :=
  ⟨by decide, by decide⟩

/-- After the `mkdir` that fails, `make` does not run; of two directories the second is not looked for. -/
theorem not_losesNothing :
    ¬LosesNothing ascii onePlace [mkdir [word "/mnt/lfs/tools" (by decide)], ⟨word "make" (by decide), []⟩] ∧
    ¬LosesNothing ascii onePlace
      [mkdir [word "/a" (by decide)], mkdir [word "/b" (by decide), word "/c" (by decide)]] := by
  refine ⟨not_losesNothing_of_other (List.mem_cons_of_mem _ (List.mem_singleton_self _)) (by decide), ?_⟩
  exact not_losesNothing_of_unseen (c := mkdir [word "/b" (by decide), word "/c" (by decide)])
    (d := word "/c" (by decide)) (by decide) (by decide) (by decide) (by decide)

end Done
end LfsWorker
end CloudCore
