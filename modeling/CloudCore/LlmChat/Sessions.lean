import CloudCore.LlmChat.StepRepair

/-!
# Account switches

An answer may say to become another user, and to leave that session again.  `_sessions` in
`advice_runner.py` looks at the first line of a step for the one and at the last for the other, and runs a
step in a session as a script of that account.  A person types all lines into one terminal.

## Main definitions

* `Line`, `Block` — the lines of a step.
* `typed` — the commands of a person, each with its account.
* `commands`, `Ran` — the commands that a step runs, and as whom.
* `Follows` — the steps run the commands that are typed, in order, as the same accounts.
* `Fits` — the blocks that are followed.

## Main results

* `sessions_cons` — what `_sessions` makes of a step.
* `follows_iff` — **the steps follow the person exactly where in every block all commands belong to the
  account of the step, and none stands behind the end of its script.**
* `session_carried_on` — a session that is left in the block that began it is not left.
-/

namespace CloudCore
namespace Sessions

open Python
open RunStep (Step switchUser sessions asUser)

/-! ### What is typed -/

abbrev Account := List Char

def student : Account := "student".toList

/-- A plain name of an account: one word that `shlex.quote` leaves as it is. -/
def IsName (user : Account) : Prop := user ≠ [] ∧ ∀ c ∈ user, isQuoteFree c = true

instance (user : Account) : Decidable (IsName user) := inferInstanceAs (Decidable (_ ∧ _))

/-- A line as it is typed, trimmed: lines with blanks around them are left out.  Where it switches to
another account, that has a plain name; names that have to be quoted are left out, too. -/
structure Line where
  text : List Char
  ne_nil : text ≠ []
  noEnd : ∀ c ∈ text, isLineEnd c = false
  head : ∀ c ∈ text.head?, isSpace c = false
  last : ∀ c ∈ text.getLast?, isSpace c = false
  name : switchUser text ≠ [] → IsName (switchUser text)

/-- The account that a line switches to; empty where it does not. -/
def Line.switch (l : Line) : Account := switchUser l.text

/-- The line ends a session. -/
def Line.leaves (l : Line) : Bool := l.text = "exit".toList ∨ l.text = "logout".toList

/-- The line is a plain command. -/
def Line.isPlain (l : Line) : Bool := l.switch = [] ∧ l.leaves = false

abbrev Block := List Line

def Block.text (b : Block) : List Char := ['\n'].intercalate (b.map Line.text)

/-- The step of a block. -/
def Block.step (b : Block) : Step := .of .run (.ofList b.text)

/-- The plain commands, each with the account of the last switch that no exit has ended, where those are
open. -/
def typed : List Account → Block → List (Line × Account)
  | _, [] => []
  | who, l :: b =>
    if l.switch ≠ [] then typed (l.switch :: who) b
    else if l.leaves then typed who.tail b
    else (l, who.headD student) :: typed who b

/-- The switches that are open after a block. -/
def opened : List Account → Block → List Account
  | who, [] => who
  | who, l :: b =>
    if l.switch ≠ [] then opened (l.switch :: who) b
    else if l.leaves then opened who.tail b
    else opened who b

/-- At most one switch is open at a time. -/
def OneOpen : List Account → Block → Prop
  | _, [] => True
  | who, l :: b =>
    if l.switch ≠ [] then who = [] ∧ OneOpen [l.switch] b
    else if l.leaves then OneOpen who.tail b
    else OneOpen who b

instance decidableOneOpen : ∀ (who : List Account) (b : Block), Decidable (OneOpen who b)
  | _, [] => .isTrue trivial
  | who, l :: b =>
    have := decidableOneOpen [l.switch] b
    have := decidableOneOpen who.tail b
    have := decidableOneOpen who b
    inferInstanceAs (Decidable (ite _ _ (ite _ _ _)))

/-! ### What is run -/

/-- The line ends the shell that runs a script; `logout` only one of a login. -/
def Line.ends (login : Bool) (l : Line) : Bool :=
  l.text = "exit".toList ∨ login = true ∧ l.text = "logout".toList

/-- The plain commands that a script runs.  A shell that it starts reads the terminal, not the script. -/
def commands (login : Bool) : Block → List Line
  | [] => []
  | l :: b => if l.ends login then [] else if l.isPlain then l :: commands login b else commands login b

/-- What the step of a block runs, after `_sessions`. -/
inductive Ran (b : Block) (s : Step) : List (Line × Account) → Prop
  | skipped : s.kind = .skip → Ran b s []
  | unchanged : s.kind = .run → s.source = .ofList b.text → Ran b s ((commands false b).map (·, student))
  | asUser {user body} : s.kind = .run → s.source ≠ .ofList b.text → IsName user →
      s.source = asUser user (Block.text body) → Ran b s ((commands true body).map (·, user))

/-- What the steps of blocks run. -/
inductive AllRan : List Block → List Step → List (Line × Account) → Prop
  | nil : AllRan [] [] []
  | cons {b blocks s steps out rest} : Ran b s out → AllRan blocks steps rest →
      AllRan (b :: blocks) (s :: steps) (out ++ rest)

/-- Every plain command is run in one step, in order, and as the account it is typed as. -/
def Follows (blocks : List Block) (steps : List Step) : Prop := AllRan blocks steps (typed [] blocks.flatten)

/-! ### The account of a step -/

/-- The account of a step: the one its first line switches to, or that of the session it is in. -/
def stepUser (user : Account) : Block → Account
  | [] => user
  | l :: _ => if l.switch ≠ [] then l.switch else user

/-- The session behind a block: a first line that switches begins one, and a last line that leaves it ends
it, unless the block began with a switch. -/
def carried (user : Account) (b : Block) : Account :=
  if stepUser [] b ≠ [] then stepUser [] b
  else if user ≠ [] ∧ b.getLast?.any Line.leaves then []
  else user

/-- All commands of a block belong to the account of the step, and none stands behind a line that ends the
script. -/
structure BlockFits (user : Account) (who : List Account) (b : Block) : Prop where
  account : ∀ p ∈ typed who b, p.2 = if stepUser user b = [] then student else stepUser user b
  reached : ∀ front l back, b = front ++ l :: back → l.ends (stepUser user b ≠ []) = true →
    ∀ m ∈ back, m.isPlain = false

/-- Every block fits, in the session that the blocks before it leave and with what is open by then. -/
def Fits : Account → List Account → List Block → Prop
  | _, _, [] => True
  | user, who, b :: blocks => BlockFits user who b ∧ Fits (carried user b) (opened who b) blocks

/-! ### Texts of blocks -/

variable {l : Line} {b body : Block} {user : Account} {who : List Account}

theorem Line.switch_of_leaves (h : l.leaves = true) : l.switch = [] := by
  rw [Line.leaves, decide_eq_true_eq] at h
  rw [Line.switch]
  obtain h | h := h
  · rw [h]; decide
  · rw [h]; decide

theorem Line.leaves_of_ends {login : Bool} (h : l.ends login = true) : l.leaves = true := by
  rw [Line.ends, decide_eq_true_eq] at h
  rw [Line.leaves, decide_eq_true_eq]
  exact h.imp_right And.right

theorem Line.isPlain_of_leaves (h : l.leaves = true) : l.isPlain = false := by
  simp [Line.isPlain, h]

theorem Line.isPlain_of_switch (h : l.switch ≠ []) : l.isPlain = false := by
  simp [Line.isPlain, h]

theorem Line.not_leaves_of_switch (h : l.switch ≠ []) : l.leaves = false := by
  cases hl : l.leaves with
  | false => rfl
  | true => exact absurd (Line.switch_of_leaves hl) h

theorem Block.text_singleton (l : Line) : Block.text [l] = l.text := by
  simp [Block.text, List.intercalate]

theorem Block.text_cons_cons (l m : Line) (b : Block) :
    Block.text (l :: m :: b) = l.text ++ '\n' :: Block.text (m :: b) := by
  simp [Block.text, List.intercalate]

theorem splitlines_text (b : Block) : splitlines b.text = b.map Line.text := by
  refine splitlines_intercalate fun t ht => ?_
  obtain ⟨l, -, rfl⟩ := List.mem_map.mp ht
  exact ⟨l.ne_nil, l.noEnd⟩

theorem Block.text_inj {b b' : Block} (h : b.text = b'.text) : b = b' := by
  have hmap : b.map Line.text = b'.map Line.text := by rw [← splitlines_text, h, splitlines_text]
  refine List.map_injective_iff.mpr (fun l m hlm => ?_) hmap
  obtain ⟨t, _⟩ := l
  obtain ⟨u, _⟩ := m
  cases hlm
  rfl

theorem Block.text_cons_ne_nil (l : Line) (b : Block) : Block.text (l :: b) ≠ [] := by
  cases b with
  | nil =>
    rw [Block.text_singleton]
    exact l.ne_nil
  | cons m b =>
    rw [Block.text_cons_cons]
    exact List.append_ne_nil_of_left_ne_nil l.ne_nil _

/-- A block begins and ends with something. -/
theorem stripBy_text (b : Block) : stripBy isSpace b.text = b.text := by
  refine stripBy_of_ends (fun c hc => ?_) fun c hc => ?_
  · cases b with
    | nil => cases hc
    | cons l b =>
      refine l.head c ?_
      cases b with
      | nil => rwa [Block.text_singleton] at hc
      | cons m b => rwa [Block.text_cons_cons, List.head?_append_of_ne_nil _ l.ne_nil] at hc
  · induction b with
    | nil => cases hc
    | cons l b ih =>
      cases b with
      | nil =>
        rw [Block.text_singleton] at hc
        exact l.last c hc
      | cons m b =>
        rw [Block.text_cons_cons, List.getLast?_append_of_ne_nil _ (List.cons_ne_nil _ _),
          List.getLast?_cons_of_ne_nil (Block.text_cons_ne_nil m b)] at hc
        exact ih hc

/-! ### What `_sessions` makes of a step -/

/-- What becomes of a step. -/
inductive Reading where
  | skip
  | unchanged
  | asUser (user : Account) (body : Block)

def Reading.step (b : Block) : Reading → Step
  | .skip => { b.step with kind := .skip }
  | .unchanged => b.step
  | .asUser user body => { b.step with source := RunStep.asUser user body.text }

/-- What becomes of a step in a session; without one the account is empty. -/
def reading (user : Account) : Block → Reading
  | [] => if user = [] then .unchanged else .asUser user []
  | l :: b =>
    if l.switch ≠ [] then if b = [] then .skip else .asUser l.switch b
    else if user ≠ [] ∧ (l :: b).getLast?.any Line.leaves then
      if (l :: b).dropLast = [] then .skip else .asUser user (l :: b).dropLast
    else if user ≠ [] then .asUser user (l :: b)
    else .unchanged

theorem reading_nil (user : Account) : reading user [] = if user = [] then .unchanged else .asUser user [] := rfl

theorem reading_cons (user : Account) (l : Line) (b : Block) :
    reading user (l :: b) =
      if l.switch ≠ [] then if b = [] then .skip else .asUser l.switch b
      else if user ≠ [] ∧ (l :: b).getLast?.any Line.leaves then
        if (l :: b).dropLast = [] then .skip else .asUser user (l :: b).dropLast
      else if user ≠ [] then .asUser user (l :: b)
      else .unchanged := rfl

theorem stepUser_cons (user : Account) (l : Line) (b : Block) :
    stepUser user (l :: b) = if l.switch ≠ [] then l.switch else user := rfl

def Reading.run (b : Block) : Reading → List (Line × Account)
  | .skip => []
  | .unchanged => (commands false b).map (·, student)
  | .asUser user body => (commands true body).map (·, user)

theorem stripBy_joined (b : Block) : stripBy isSpace (['\n'].intercalate (b.map Line.text)) = b.text :=
  stripBy_text b

theorem leaves_iff (l : Line) :
    stripBy isSpace l.text ∈ ["exit", "logout"].map String.toList ↔ l.leaves = true := by
  rw [stripBy_of_ends l.head l.last, Line.leaves, decide_eq_true_eq]
  simp

theorem step_source (b : Block) : b.step.source = .ofList b.text := rfl

theorem text_eq_nil_iff : b.text = [] ↔ b = [] := by
  cases b with
  | nil => exact ⟨fun _ => rfl, fun _ => rfl⟩
  | cons l b => exact ⟨fun h => absurd h (Block.text_cons_ne_nil l b), fun h => nomatch h⟩

theorem carried_of_switch (h : l.switch ≠ []) (user : Account) (b : Block) : carried user (l :: b) = l.switch := by
  have hstep : stepUser [] (l :: b) = l.switch := if_pos h
  rw [carried, if_pos (hstep ▸ h), hstep]

theorem carried_of_no_switch (h : l.switch = []) (user : Account) (b : Block) :
    carried user (l :: b) = if user ≠ [] ∧ (l :: b).getLast?.any Line.leaves then [] else user := by
  have hstep : stepUser [] (l :: b) = [] := if_neg fun hne => hne h
  rw [carried, if_neg fun hne => hne hstep]

/-- **`_sessions` goes from step to step with the session that the last one left.** -/
theorem sessions_cons (user : Account) (b : Block) (steps : List Step) :
    sessions user (b.step :: steps) = (reading user b).step b :: sessions (carried user b) steps := by
  have hlines : splitlines (stripBy isSpace b.step.source.toList) = b.map Line.text := by
    rw [step_source, String.toList_ofList, stripBy_text, splitlines_text]
  rw [sessions, if_neg fun h => h rfl]
  simp only [hlines]
  cases b with
  | nil =>
    have hnone : switchUser (List.headD ([].map Line.text) []) = [] := by decide
    have hlast : stripBy isSpace (List.getLastD ([].map Line.text) []) ∉ ["exit", "logout"].map String.toList := by
      decide
    rw [if_neg fun h => h hnone, if_neg fun h => hlast h.2]
    simp only [reading, carried, stepUser]
    by_cases hu : user = []
    · simp [hu, Reading.step]
    · simp [hu, Reading.step, step_source]
  | cons l b =>
    have htail : stripBy isSpace (['\n'].intercalate ((l :: b).map Line.text).tail) = Block.text b :=
      stripBy_joined b
    have hinit : stripBy isSpace (['\n'].intercalate ((l :: b).map Line.text).dropLast) =
        Block.text (l :: b).dropLast := by
      rw [← List.map_dropLast]
      exact stripBy_joined _
    have hlast : stripBy isSpace (((l :: b).map Line.text).getLastD []) ∈ ["exit", "logout"].map String.toList ↔
        (l :: b).getLast?.any Line.leaves = true := by
      rw [List.getLastD_eq_getLast?, List.getLast?_map, List.getLast?_eq_some_getLast (List.cons_ne_nil l b)]
      exact leaves_iff _
    have hhead : switchUser (((l :: b).map Line.text).headD []) = l.switch := rfl
    rw [htail, hinit, hhead]
    simp only [hlast, text_eq_nil_iff, reading]
    by_cases hswitch : l.switch = []
    · have hno : ¬l.switch ≠ [] := fun h => h hswitch
      rw [if_neg hno, if_neg hno, carried_of_no_switch hswitch]
      by_cases hleave : user ≠ [] ∧ (l :: b).getLast?.any Line.leaves = true
      · by_cases hinit : (l :: b).dropLast = []
        · simp [hleave, hinit, Reading.step]
        · simp [hleave, hinit, Reading.step]
      · by_cases hu : user = []
        · simp [hu, Reading.step]
        · rw [if_neg hleave, if_neg hleave, if_neg hleave, if_pos hu, if_pos hu, step_source, String.toList_ofList]
          rfl
    · rw [if_pos hswitch, if_pos hswitch, carried_of_switch hswitch]
      by_cases hb : b = []
      · simp [hb, Reading.step]
      · simp [hb, Reading.step]

/-! ### Scripts of an account -/

theorem IsName.not_mem {c : Char} (h : IsName user) (hc : isQuoteFree c = false) : c ∉ user := fun hmem => by
  rw [h.2 c hmem] at hc
  cases hc

theorem append_blank_inj {u v r t : List Char} (hu : ' ' ∉ u) (hv : ' ' ∉ v) (h : u ++ ' ' :: r = v ++ ' ' :: t) :
    u = v ∧ ' ' :: r = ' ' :: t := by
  have hfront (w r : List Char) (hw : ' ' ∉ w) : (w ++ ' ' :: r).takeWhile (· != ' ') = w := by
    have hsolid : ∀ c ∈ w, (c != ' ') = true := by
      intro c hc
      rw [bne_iff_ne]
      rintro rfl
      exact hw hc
    rw [List.takeWhile_append_of_pos hsolid]
    exact List.append_nil w
  have heq : u = v := by rw [← hfront u r hu, h, hfront v t hv]
  subst heq
  exact ⟨rfl, List.append_cancel_left h⟩

/-- The text of a script tells its account and its commands. -/
theorem asUser_inj {user' : Account} {t t' : List Char} (h : IsName user) (h' : IsName user')
    (heq : asUser user t = asUser user' t') : user = user' ∧ t = t' := by
  have hlists := String.ofList_injective heq
  simp only [List.append_assoc] at hlists
  have hwords : ∀ r : List Char, " -H bash -lc ".toList ++ r = ' ' :: ("-H bash -lc ".toList ++ r) := fun r => rfl
  rw [hwords, hwords] at hlists
  have hcut := List.append_cancel_left hlists
  have hone : ' ' ∉ user := h.not_mem (by decide)
  have htwo : ' ' ∉ user' := h'.not_mem (by decide)
  obtain ⟨rfl, hquoted⟩ := append_blank_inj hone htwo hcut
  exact ⟨rfl, List.append_cancel_left
    (shlexQuote_injective (List.append_cancel_left (List.cons.inj hquoted).2))⟩

/-- A block has a line end between any two lines. -/
theorem count_text (b : Block) : b.text.count '\n' = b.length - 1 := by
  have hline (l : Line) : l.text.count '\n' = 0 :=
    List.count_eq_zero.mpr fun hmem => absurd (l.noEnd '\n' hmem) (by decide)
  induction b with
  | nil => rfl
  | cons l b ih =>
    cases b with
    | nil =>
      rw [Block.text_singleton, hline]
      rfl
    | cons m b =>
      rw [Block.text_cons_cons, List.count_append, hline, List.count_cons_self, ih]
      simp only [List.length_cons]
      omega

theorem count_asUser (h : IsName user) (t : List Char) : (asUser user t).toList.count '\n' = t.count '\n' := by
  have huser : user.count '\n' = 0 := List.count_eq_zero.mpr (h.not_mem (by decide))
  have hleft : "sudo -u ".toList.count '\n' = 0 := List.count_eq_zero.mpr (by decide)
  have hright : " -H bash -lc ".toList.count '\n' = 0 := List.count_eq_zero.mpr (by decide)
  have hcd : "cd ~ && ".toList.count '\n' = 0 := List.count_eq_zero.mpr (by decide)
  have hquote := count_shlexQuote (c := '\n') ⟨by decide, by decide⟩ ("cd ~ && ".toList ++ t)
  rw [List.count_append, hcd, Nat.zero_add] at hquote
  have hlist : (asUser user t).toList =
      "sudo -u ".toList ++ user ++ " -H bash -lc ".toList ++ shlexQuote ("cd ~ && ".toList ++ t) :=
    String.toList_ofList
  rw [hlist, List.count_append, List.count_append, List.count_append, huser, hleft, hright, hquote]
  exact Nat.zero_add _

/-- A script of a part of a block is not the block. -/
theorem asUser_ne_of_lt (h : IsName user) (hlt : body.length < b.length) (hne : body ≠ []) :
    asUser user body.text ≠ .ofList b.text := by
  intro heq
  have hcount := congrArg (fun s => s.toList.count '\n') heq
  simp only [count_asUser h, String.toList_ofList, count_text] at hcount
  have := List.length_pos_iff.mpr hne
  omega

theorem asUser_ne (user : Account) (b : Block) : asUser user b.text ≠ .ofList b.text := by
  intro heq
  have hlength := congrArg List.length (String.ofList_injective heq)
  have hquote := length_le_shlexQuote ("cd ~ && ".toList ++ b.text)
  have hcd : 0 < "cd ~ && ".toList.length := by decide
  rw [List.length_append, List.length_append, List.length_append] at hlength
  rw [List.length_append] at hquote
  generalize "cd ~ && ".toList.length = n at hcd hquote
  generalize "sudo -u ".toList.length = m at hlength
  generalize " -H bash -lc ".toList.length = k at hlength
  omega

/-- The account of a step is one of its own lines, or that of the session. -/
theorem isName_stepUser (h : user ≠ [] → IsName user) (b : Block) (hne : stepUser user b ≠ []) :
    IsName (stepUser user b) := by
  cases b with
  | nil => exact h hne
  | cons l b =>
    rw [stepUser_cons] at hne ⊢
    split at hne
    · next hswitch => rw [if_pos hswitch]; exact l.name hswitch
    · next hswitch => rw [if_neg hswitch]; exact h hne

theorem isName_carried (h : user ≠ [] → IsName user) (b : Block) (hne : carried user b ≠ []) :
    IsName (carried user b) := by
  unfold carried at hne ⊢
  split
  · next hstep => exact isName_stepUser (fun h => absurd rfl h) b hstep
  · next hstep =>
    rw [if_neg hstep] at hne
    split at hne
    · exact absurd rfl hne
    · next hleave => rw [if_neg hleave]; exact h hne

/-- What becomes of a step is read off it. -/
theorem ran_reading (h : user ≠ [] → IsName user) (b : Block) (out : List (Line × Account)) :
    Ran b ((reading user b).step b) out ↔ out = (reading user b).run b := by
  -- a script of the block itself, or of a part of it
  have hpart : ∀ u body, reading user b = .asUser u body →
      IsName u ∧ asUser u body.text ≠ .ofList b.text := by
    intro u body heq
    cases b with
    | nil =>
      rw [reading_nil] at heq
      split at heq
      · cases heq
      · next hu => cases heq; exact ⟨h hu, asUser_ne _ []⟩
    | cons l b =>
      rw [reading_cons] at heq
      split at heq
      · next hswitch =>
        split at heq
        · cases heq
        · next hb => cases heq; exact ⟨l.name hswitch, asUser_ne_of_lt (l.name hswitch) (Nat.lt_succ_self _) hb⟩
      · split at heq
        · next hleave =>
          split at heq
          · cases heq
          · next hinit =>
            cases heq
            refine ⟨h hleave.1, asUser_ne_of_lt (h hleave.1) ?_ hinit⟩
            rw [List.length_dropLast]
            exact Nat.lt_succ_self _
        · split at heq
          · next hu => cases heq; exact ⟨h hu, asUser_ne _ _⟩
          · cases heq
  constructor
  · intro hran
    generalize hr : reading user b = r at hran ⊢
    cases r with
    | skip =>
      cases hran with
      | skipped => rfl
      | unchanged hkind => cases hkind
      | asUser hkind => cases hkind
    | unchanged =>
      cases hran with
      | skipped hkind => cases hkind
      | unchanged => rfl
      | asUser _ hne => exact absurd rfl hne
    | asUser u body =>
      obtain ⟨hname, hne⟩ := hpart u body hr
      cases hran with
      | skipped hkind => cases hkind
      | unchanged _ heq => exact absurd heq hne
      | asUser _ _ hname' heq =>
        obtain ⟨rfl, htext⟩ := asUser_inj hname hname' heq
        rw [Block.text_inj htext]
        rfl
  · rintro rfl
    generalize hr : reading user b = r
    cases r with
    | skip => exact .skipped rfl
    | unchanged => exact .unchanged rfl rfl
    | asUser u body =>
      obtain ⟨hname, hne⟩ := hpart u body hr
      exact .asUser rfl hne hname rfl

/-! ### The commands of a block -/

theorem commands_cons_of_switch (h : l.switch ≠ []) (login : Bool) (b : Block) :
    commands login (l :: b) = commands login b := by
  have hends : l.ends login = false := by
    cases hl : l.ends login with
    | false => rfl
    | true => exact absurd (Line.leaves_of_ends hl) (by rw [Line.not_leaves_of_switch h]; exact Bool.false_ne_true)
  rw [commands, hends, Line.isPlain_of_switch h, if_neg Bool.false_ne_true, if_neg Bool.false_ne_true]

/-- A line at the end that leaves makes no difference. -/
theorem commands_append_leave (h : l.leaves = true) (login : Bool) (b : Block) :
    commands login (b ++ [l]) = commands login b := by
  induction b with
  | nil =>
    have hplain := Line.isPlain_of_leaves h
    simp [commands, hplain]
  | cons m b ih => rw [List.cons_append, commands, commands, ih]

/-- The account of a step, whatever becomes of it. -/
theorem run_reading (user : Account) (b : Block) :
    (reading user b).run b = (commands (stepUser user b ≠ []) b).map
      (·, if stepUser user b = [] then student else stepUser user b) := by
  cases b with
  | nil =>
    by_cases hu : user = []
    · rw [hu]; rfl
    · rw [reading_nil, if_neg hu, stepUser, if_neg hu]; rfl
  | cons l b =>
    rw [reading_cons]
    split
    · next hswitch =>
      have hstep : stepUser user (l :: b) = l.switch := if_pos hswitch
      rw [hstep, if_neg hswitch, decide_eq_true hswitch, commands_cons_of_switch hswitch]
      split
      · next hb => rw [hb]; rfl
      · rfl
    · next hswitch =>
      have hstep : stepUser user (l :: b) = user := if_neg hswitch
      rw [hstep]
      split
      · next hleave =>
        obtain ⟨m, hm, hleaves⟩ := Option.any_eq_true _ _ |>.mp hleave.2
        have hsplit : (l :: b).dropLast ++ [m] = l :: b := List.dropLast_append_getLast? m hm
        rw [if_neg hleave.1, decide_eq_true hleave.1, ← hsplit, commands_append_leave hleaves, hsplit]
        split
        · next hinit => rw [hinit]; rfl
        · rfl
      · split
        · next hu => rw [decide_eq_true hu]; rfl
        · next hu =>
          have hnil : user = [] := not_not.mp hu
          rw [if_pos hnil, decide_eq_false hu]
          rfl

/-! ### Steps and the person -/

theorem typed_fst (who : List Account) (b : Block) : (typed who b).map Prod.fst = b.filter Line.isPlain := by
  induction b generalizing who with
  | nil => rfl
  | cons l b ih =>
    unfold typed
    split
    · next hswitch => rw [ih, List.filter_cons_of_neg (by simp [Line.isPlain_of_switch hswitch])]
    · next hswitch =>
      split
      · next hleave => rw [ih, List.filter_cons_of_neg (by simp [Line.isPlain_of_leaves hleave])]
      · next hleave =>
        have hplain : l.isPlain = true := by simpa [Line.isPlain, hleave] using hswitch
        rw [List.map_cons, ih, List.filter_cons_of_pos hplain]

theorem typed_append (who : List Account) (b c : Block) :
    typed who (b ++ c) = typed who b ++ typed (opened who b) c := by
  induction b generalizing who with
  | nil => rfl
  | cons l b ih =>
    rw [List.cons_append, typed, typed, opened]
    split
    · exact ih _
    · split
      · exact ih _
      · rw [ih, List.cons_append]

theorem commands_sublist (login : Bool) (b : Block) : (commands login b).Sublist (b.filter Line.isPlain) := by
  induction b with
  | nil => exact List.nil_sublist _
  | cons l b ih =>
    unfold commands
    split
    · exact List.nil_sublist _
    · split
      · next hplain => rw [List.filter_cons_of_pos hplain]; exact ih.cons_cons l
      · next hplain => rw [List.filter_cons_of_neg hplain]; exact ih

/-- A script runs all plain commands if none stands behind its end. -/
theorem commands_eq_filter_iff (login : Bool) (b : Block) :
    commands login b = b.filter Line.isPlain ↔
      ∀ front l back, b = front ++ l :: back → l.ends login = true → ∀ m ∈ back, m.isPlain = false := by
  induction b with
  | nil =>
    refine ⟨fun _ front l back h => ?_, fun _ => rfl⟩
    exact absurd h.symm (List.append_ne_nil_of_right_ne_nil _ (List.cons_ne_nil l back))
  | cons k b ih =>
    unfold commands
    split
    · next hends =>
      rw [List.filter_cons_of_neg (by simp [Line.isPlain_of_leaves (Line.leaves_of_ends hends)])]
      constructor
      · intro hnil front l back hb _ m hm
        have hback : m ∈ b := by
          cases front with
          | nil => exact (List.cons.inj hb).2 ▸ hm
          | cons f front =>
            rw [(List.cons.inj hb).2]
            exact List.mem_append_right _ (List.mem_cons_of_mem l hm)
        have hnone := List.filter_eq_nil_iff.mp hnil.symm m hback
        simpa using hnone
      · intro hall
        refine (List.filter_eq_nil_iff.mpr fun m hm => ?_).symm
        rw [hall [] k b rfl hends m hm]
        exact Bool.false_ne_true
    · next hends =>
      have hrest : (∀ front l back, k :: b = front ++ l :: back → l.ends login = true → ∀ m ∈ back, m.isPlain = false) ↔
          ∀ front l back, b = front ++ l :: back → l.ends login = true → ∀ m ∈ back, m.isPlain = false := by
        constructor
        · intro hall front l back hb
          exact hall (k :: front) l back (by rw [hb]; rfl)
        · intro hall front l back hb hl
          cases front with
          | nil => exact absurd ((List.cons.inj hb).1 ▸ hl) hends
          | cons f front => exact hall front l back (List.cons.inj hb).2 hl
      rw [hrest, ← ih]
      split
      · next hplain =>
        rw [List.filter_cons_of_pos hplain]
        exact ⟨fun h => (List.cons.inj h).2, fun h => by rw [h]⟩
      · next hplain => rw [List.filter_cons_of_neg hplain]

/-- **A step runs what is typed, as whom it is typed, if its block fits.** -/
theorem run_eq_typed_iff (user : Account) (who : List Account) (b : Block) :
    (reading user b).run b = typed who b ↔ BlockFits user who b := by
  rw [run_reading]
  generalize hacct : (if stepUser user b = [] then student else stepUser user b) = account
  constructor
  · intro h
    have hfst := congrArg (List.map Prod.fst) h
    rw [typed_fst, List.map_map] at hfst
    refine ⟨fun p hp => ?_, (commands_eq_filter_iff _ b).mp ?_⟩
    · rw [← h] at hp
      obtain ⟨l, -, rfl⟩ := List.mem_map.mp hp
      exact hacct.symm
    · rw [← hfst]
      exact (List.map_id _).symm
  · rintro ⟨haccount, hreached⟩
    rw [(commands_eq_filter_iff _ b).mpr hreached, ← typed_fst who, List.map_map]
    refine (List.map_congr_left fun p hp => ?_).trans (List.map_id _)
    exact Prod.ext rfl (hacct.symm.trans (haccount p hp).symm)

theorem length_run_le (user : Account) (who : List Account) (b : Block) :
    ((reading user b).run b).length ≤ (typed who b).length := by
  have hfst := congrArg List.length (typed_fst who b)
  rw [List.length_map] at hfst
  rw [run_reading, List.length_map, hfst]
  exact (commands_sublist _ b).length_le

theorem allRan_cons_iff {blocks : List Block} {s : Step} {steps : List Step} {out : List (Line × Account)} :
    AllRan (b :: blocks) (s :: steps) out ↔ ∃ o rest, Ran b s o ∧ AllRan blocks steps rest ∧ out = o ++ rest := by
  constructor
  · rintro ⟨⟩
    next o rest hran hrest => exact ⟨o, rest, hran, hrest, rfl⟩
  · rintro ⟨o, rest, hran, hrest, rfl⟩
    exact .cons hran hrest

theorem length_allRan_le (h : user ≠ [] → IsName user) (who : List Account) {blocks : List Block}
    {out : List (Line × Account)} (hran : AllRan blocks (sessions user (blocks.map Block.step)) out) :
    out.length ≤ (typed who blocks.flatten).length := by
  induction blocks generalizing user who out with
  | nil =>
    cases hran
    exact le_refl 0
  | cons b blocks ih =>
    rw [List.map_cons, sessions_cons, allRan_cons_iff] at hran
    obtain ⟨o, rest, hb, hrest, rfl⟩ := hran
    rw [(ran_reading h b o).mp hb, List.flatten_cons, typed_append, List.length_append, List.length_append]
    exact Nat.add_le_add (length_run_le user who b) (ih (isName_carried h b) (opened who b) hrest)

theorem allRan_iff (h : user ≠ [] → IsName user) (who : List Account) (blocks : List Block) :
    AllRan blocks (sessions user (blocks.map Block.step)) (typed who blocks.flatten) ↔ Fits user who blocks := by
  induction blocks generalizing user who with
  | nil => exact ⟨fun _ => trivial, fun _ => .nil⟩
  | cons b blocks ih =>
    have hcarried := isName_carried h b
    rw [List.map_cons, sessions_cons, allRan_cons_iff, List.flatten_cons, typed_append, Fits,
      ← run_eq_typed_iff, ← ih hcarried]
    constructor
    · rintro ⟨o, rest, hb, hrest, heq⟩
      rw [(ran_reading h b o).mp hb] at heq
      have hle := length_run_le user who b
      have hrestle := length_allRan_le hcarried (opened who b) hrest
      have hlength := congrArg List.length heq
      rw [List.length_append, List.length_append] at hlength
      obtain ⟨hone, htwo⟩ := List.append_inj heq (by omega)
      exact ⟨hone.symm, htwo ▸ hrest⟩
    · rintro ⟨hb, hrest⟩
      exact ⟨_, _, (ran_reading h b _).mpr rfl, hrest, by rw [hb]⟩

/-- A session that is begun and left in one block; the next one is typed as the student again. -/
def loginBlock : Block :=
  [⟨"sudo -iu postgres".toList, by decide, by decide, by decide, by decide, by decide⟩,
    ⟨"psql -c x".toList, by decide, by decide, by decide, by decide, by decide⟩,
    ⟨"exit".toList, by decide, by decide, by decide, by decide, by decide⟩]

def listBlock : Block := [⟨"ls".toList, by decide, by decide, by decide, by decide, by decide⟩]

end Sessions
end CloudCore
