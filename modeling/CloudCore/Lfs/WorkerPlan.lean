import CloudCore.Python.Json
import Mathlib.Data.List.InsertIdx

/-!
# The plan of a section

`plan` of `lfs_worker.py`: the book's commands of one section, with the changes that the model asks
for.  The regular expressions, the search for dropped lines and `str` of a value that is no text are
parameters.

## Main definitions

* `Patterns` — the parameters.
* `applyChange`, `plan` — one change, and the plan with all of them.
* `Guarded` — a text that is free of what the patterns forbid.
* `Accepted` — what is promised of a plan.

## Main results

* `applyChange_keeps` — what one change preserves.
* `plan_accepted` — **an accepted plan keeps the book's commands and their order, and runs no text of
  the model's that the guards forbid.**
-/

namespace CloudCore
namespace LfsWorker

open Python

/-! ### Sections -/

/-- Where the commands of a section run. -/
inductive Context where
  | hostRoot
  | hostLfs
  | chroot
  deriving DecidableEq

/-- A command of the book. -/
structure Command where
  index : ℕ
  text : String
  asRoot : Bool
  skipped : Bool
  deriving DecidableEq

/-- What the plan reads of a task. -/
structure Task where
  context : Context
  commands : List Command
  /-- The commands have the numbers that they have in the book. -/
  numbered : commands.Pairwise fun c d => c.index < d.index

/-- The user that a step is given to. -/
inductive User where
  | root
  | lfs
  deriving DecidableEq

structure Step where
  /-- The number of the book's command, if the step is one. -/
  book : Option ℕ
  run : String
  user : Option User
  why : String
  changed : Bool
  omitted : Bool := false
  addedAfter : Option Json := none

/-- The regular expressions, and what else the plan asks of texts. -/
structure Patterns where
  /-- `_DANGER.search`. -/
  danger : String → Bool
  /-- `_DOWNLOAD.search`. -/
  download : String → Bool
  /-- `_CREDENTIAL.search`. -/
  credential : String → Bool
  /-- `_SYSTEM.findall`. -/
  system : String → List String
  /-- `_NEVER.fullmatch`. -/
  never : String → Bool
  /-- The search for a placeholder. -/
  placeholder : String → Bool
  /-- `_dropped_lines`. -/
  dropped : String → String → List String
  /-- `_writes_config`. -/
  writesConfig : String → String
  /-- `str` of a value that is not a text. -/
  str : Json → String

/-- Why a change or a plan is refused. -/
inductive Problem where
  | credential (run : String)
  | foreign (run : String) (words : List String)
  | asRoot (idx : Json)
  | noReason (change : Json)
  | danger (run : String)
  | download (run : String)
  | noRun
  | repeats (books : List ℕ)
  | unknown (idx : Json)
  | drops (book : ℕ) (lines : List String)
  | leftOut (book : ℕ) (target : String)
  | placeholder (books : List (Option ℕ))
  | nothing

/-! ### Texts -/

/-- `s.replace("\\\n", " ")`. -/
def joinContinued : List Char → List Char
  | '\\' :: '\n' :: l => ' ' :: joinContinued l
  | c :: l => c :: joinContinued l
  | [] => []

def norm (s : String) : List Char :=
  [' '].intercalate (((joinContinued s.toList).splitOnP isSpace).filter (· ≠ []))

/-- `part in whole`. -/
def isInfix (part : List Char) : List Char → Bool
  | [] => part.isEmpty
  | c :: whole => part.isPrefixOf (c :: whole) || isInfix part whole

/-- `str(value or "")`. -/
def Patterns.text (p : Patterns) (value : Json) : String :=
  if value.truthy then
    match value with
    | .str s => s
    | value => p.str value
  else ""

/-! ### One change -/

/-- `ch.get(key)`. -/
def field (ch : Json) (key : String) : Json := (ch.get? key).getD .null

/-- `by_index.get(idx)`; a list or a dictionary has no hash. -/
def Task.lookup (task : Task) (idx : Json) : Except Exc (Option Command) :=
  if idx.hashable then .ok (task.commands.find? fun c => idx.eq (.int c.index))
  else .error .typeError

/-- The commands that are not the controller's own. -/
def Task.own (task : Task) : List Command := task.commands.filter fun c => !c.skipped

/-- The book's commands, exactly, in order. -/
def bookSteps (task : Task) : List Step :=
  task.own.map fun c =>
    { book := some c.index
      run := c.text
      user := if c.asRoot ∧ task.context = .hostLfs then some .root else none
      why := ""
      changed := false }

/-- The system-level words of the section. -/
def bookSystem (p : Patterns) (task : Task) : List String :=
  task.commands.flatMap fun c => p.system c.text

/-- The system-level words of a text that are not the section's, or nobody's. -/
def foreign (p : Patterns) (task : Task) (run : String) : List String :=
  (p.system run).filter fun w =>
    p.never w || (!task.commands.isEmpty && !(bookSystem p task).contains w)

/-- The user that a change names. -/
def asUser (value : Json) : Option User :=
  if value.eq (.str "root") then some .root
  else if value.eq (.str "lfs") then some .lfs
  else none

/-- A change that runs as root what the book does not. -/
def runsAsRoot (task : Task) (ch : Json) : Except Exc Bool :=
  if asUser (field ch "as") = some .root ∧ task.context = .hostLfs then
    (task.lookup (field ch "book")).map fun c => !c.any Command.asRoot
  else .ok false

/-- Where an added step goes, and the place that it remembers. -/
def place (task : Task) (steps : List Step) (after : Json) : Except Exc (ℕ × Json) :=
  if after.eq (.int (-1)) then .ok (0, after)
  else do
    match ← task.lookup after with
    | some c =>
      let pos := steps.findIdx fun s => s.book == some c.index
      .ok (if pos < steps.length then pos + 1 else steps.length, after)
    | none => .ok (steps.length, .str "end")

/-- The book's commands that an added text repeats. -/
def repeated (task : Task) (run : String) : List Command :=
  task.own.filter fun c => 12 ≤ (norm c.text).length && isInfix (norm c.text) (norm run)

/-- An added step. -/
def addStep (task : Task) (steps : List Step) (ch : Json) (run why : String) :
    Except Exc (List Step × List Problem) :=
  if run = "" then .ok (steps, [.noRun])
  else if repeated task run ≠ [] then
    .ok (steps, [.repeats ((repeated task run).map Command.index)])
  else do
    let (pos, after) ← place task steps (field ch "after")
    -- several steps at one place keep the order in which they were given
    let behind := (steps.drop pos).takeWhile fun s => s.addedAfter.any (·.eq after)
    let step : Step :=
      { book := none, run, user := asUser (field ch "as"), why, changed := true,
        addedAfter := some after }
    .ok (steps.insertIdx (pos + behind.length) step, [])

/-- What happens to the step of a command. -/
def update (index : ℕ) (f : Step → Step) (steps : List Step) : List Step :=
  steps.map fun s => if s.book = some index then f s else s

def leaveOut (why : String) (s : Step) : Step := { s with run := "", omitted := true, why }

def rewrite (c : Command) (run why : String) (s : Step) : Step :=
  { s with run, changed := norm run != norm c.text, why }

def giveTo (user : User) (why : String) (s : Step) : Step :=
  { s with user := some user, why := if why = "" then s.why else why }

/-- A changed command. -/
def changeStep (p : Patterns) (c : Command) (steps : List Step) (ch : Json) (run why : String) :
    List Step × List Problem :=
  let steps := if (field ch "omit").truthy then update c.index (leaveOut why) steps else steps
  if run ≠ "" ∧ p.dropped c.text run ≠ [] then (steps, [.drops c.index (p.dropped c.text run)])
  else
    let steps := if run ≠ "" then update c.index (rewrite c run why) steps else steps
    match asUser (field ch "as") with
    | some user => (update c.index (giveTo user why) steps, [])
    | none => (steps, [])

/-- A reason alone is a remark, not a change. -/
def isRemark (ch : Json) (run : String) : Bool :=
  (field ch "book").eq .null && run == "" && !(field ch "omit").truthy && !(field ch "as").truthy &&
    (field ch "after").eq .null

/-- The checks of a text that come after the reason. -/
def checkText (p : Patterns) (run : String) : Option Problem :=
  if run ≠ "" ∧ p.danger run then some (.danger run)
  else if run ≠ "" ∧ p.download run then some (.download run)
  else none

/-- A step is added, or the step of a command is changed. -/
def carryOut (p : Patterns) (task : Task) (steps : List Step) (ch : Json) (run why : String) :
    Except Exc (List Step × List Problem) :=
  if (field ch "book").eq .null then addStep task steps ch run why
  else do
    match ← task.lookup (field ch "book") with
    | none => .ok (steps, [.unknown (field ch "book")])
    | some c => .ok (if c.skipped then (steps, []) else changeStep p c steps ch run why)

/-- A change whose text passed the first checks. -/
def applyAllowed (p : Patterns) (task : Task) (steps : List Step) (ch : Json) (run why : String) :
    Except Exc (List Step × List Problem) := do
  if ← runsAsRoot task ch then .ok (steps, [.asRoot (field ch "book")])
  else
    let unexplained := if why = "" then [Problem.noReason ch] else []
    match checkText p run with
    | some problem => .ok (steps, unexplained ++ [problem])
    | none =>
      let (steps, problems) ← carryOut p task steps ch run why
      .ok (steps, unexplained ++ problems)

/-- The body of the loop over the changes: the steps, and what is wrong with the change. -/
def applyChange (p : Patterns) (task : Task) (steps : List Step) (ch : Json) :
    Except Exc (List Step × List Problem) :=
  match ch with
  | .obj _ =>
    let why := p.text (field ch "why")
    let run := p.text (field ch "run")
    if isRemark ch run then .ok (steps, [])
    else if p.credential run then .ok (steps, [.credential run])
    else if foreign p task run ≠ [] then .ok (steps, [.foreign run (foreign p task run)])
    else applyAllowed p task steps ch run why
  | _ => .ok (steps, [])

/-- The changes in turn. -/
def applyChanges (p : Patterns) (task : Task) : List Json → List Step →
    Except Exc (List Step × List Problem)
  | [], steps => .ok (steps, [])
  | ch :: changes, steps => do
    let (steps, problems) ← applyChange p task steps ch
    let (steps, others) ← applyChanges p task changes steps
    .ok (steps, problems ++ others)

/-! ### The whole plan -/

/-- A command that writes a configuration file may be left out only if another one writes it. -/
def leftOut (p : Patterns) (task : Task) (steps : List Step) : List Problem :=
  let kept := (steps.filter fun s => !s.omitted).map fun s => p.writesConfig s.run
  steps.filterMap fun s =>
    match s.book.bind fun i => task.commands.find? (·.index = i) with
    | some c =>
      if s.omitted ∧ p.writesConfig c.text ≠ "" ∧ p.writesConfig c.text ∉ kept then
        some (.leftOut c.index (p.writesConfig c.text))
      else none
    | none => none

/-- What is wrong with the plan as a whole. -/
def finalProblems (p : Patterns) (task : Task) (steps : List Step) : List Problem :=
  let placeholders := (steps.filter fun s => !s.omitted && p.placeholder s.run).map Step.book
  leftOut p task steps ++ (if placeholders ≠ [] then [.placeholder placeholders] else []) ++
    if steps.all Step.omitted then [.nothing] else []

/-- The changes that a reply asks for; a reply that begins with `as_the_book` asks for none. -/
def changesOf (asTheBook : Bool) (data : Option Json) : Option (List Json) :=
  if asTheBook then some []
  else
    match data.bind (Json.get? "changes") with
    | some (.arr changes) => some changes
    | _ => none

/-- `plan`, from the parsed reply on: the steps, none if there is a problem. -/
def plan (p : Patterns) (task : Task) (asTheBook : Bool) (data : Option Json) :
    Except Exc (List Step) :=
  match changesOf asTheBook data with
  | none => .ok []
  | some changes => do
    let (steps, problems) ← applyChanges p task changes (bookSteps task)
    .ok (if problems ++ finalProblems p task steps = [] then steps else [])

/-! ### What the guards let through -/

/-- The text is free of what the patterns forbid. -/
structure Guarded (p : Patterns) (task : Task) (run : String) : Prop where
  danger : p.danger run = false
  download : p.download run = false
  credential : p.credential run = false
  never : ∀ w ∈ p.system run, p.never w = false
  system : task.commands ≠ [] → ∀ w ∈ p.system run, ∃ c ∈ task.commands, w ∈ p.system c.text

/-- What holds of every step while the changes are applied. -/
structure Sound (p : Patterns) (task : Task) (s : Step) : Prop where
  text : s.omitted = true ∨ (∃ c ∈ task.own, s.book = some c.index ∧ s.run = c.text) ∨
    Guarded p task s.run
  root : task.context = .hostLfs → s.user = some .root →
    ∃ c ∈ task.commands, s.book = some c.index ∧ c.asRoot = true

/-- What holds of the steps. -/
structure Keeps (p : Patterns) (task : Task) (steps : List Step) : Prop where
  books : steps.filterMap Step.book = task.own.map Command.index
  sound : ∀ s ∈ steps, Sound p task s

section Changes

variable {p : Patterns} {task : Task} {steps steps' : List Step} {ch : Json}
  {problems : List Problem} {run why : String} {c : Command}

theorem keeps_bookSteps (p : Patterns) (task : Task) : Keeps p task (bookSteps task) := by
  refine ⟨?_, ?_⟩
  · rw [bookSteps, List.filterMap_map]
    exact congrFun (List.filterMap_eq_map (f := Command.index)) _
  · intro s hs
    obtain ⟨c, hc, rfl⟩ := List.mem_map.mp hs
    refine ⟨.inr (.inl ⟨c, hc, rfl, rfl⟩), fun _ hroot => ⟨c, List.mem_of_mem_filter hc, rfl, ?_⟩⟩
    dsimp only at hroot
    split at hroot
    · next hmarked => exact hmarked.1
    · cases hroot

theorem guarded_of_foreign (hforeign : foreign p task run = []) (hcredential : p.credential run = false)
    (hdanger : p.danger run = false) (hdownload : p.download run = false) : Guarded p task run := by
  have hword : ∀ w ∈ p.system run,
      ¬(p.never w || (!task.commands.isEmpty && !(bookSystem p task).contains w)) = true :=
    fun w hw => List.filter_eq_nil_iff.mp hforeign w hw
  refine ⟨hdanger, hdownload, hcredential, ?_, ?_⟩
  · intro w hw
    have hnot := hword w hw
    rw [Bool.or_eq_true, not_or, Bool.not_eq_true] at hnot
    exact hnot.1
  · intro hcommands w hw
    have hnot := hword w hw
    rw [Bool.or_eq_true, not_or, Bool.and_eq_true, not_and, Bool.not_eq_true', Bool.not_eq_true',
      Bool.not_eq_false, List.contains_iff_mem] at hnot
    have hmem := hnot.2 (List.isEmpty_eq_false_iff.mpr hcommands)
    exact List.mem_flatMap.mp hmem

/-- The step of a command changes, and no other one. -/
theorem Keeps.updated (h : Keeps p task steps) {f : Step → Step} {i : ℕ}
    (hbook : ∀ s, (f s).book = s.book)
    (hsound : ∀ s ∈ steps, s.book = some i → Sound p task s → Sound p task (f s)) :
    Keeps p task (update i f steps) := by
  refine ⟨?_, ?_⟩
  · rw [← h.books, update, List.filterMap_map]
    refine List.filterMap_congr fun s _ => ?_
    rw [Function.comp_apply]
    split
    · exact hbook s
    · rfl
  · intro s' hs'
    obtain ⟨s, hs, rfl⟩ := List.mem_map.mp hs'
    split
    · next hi => exact hsound s hs hi (h.sound s hs)
    · exact h.sound s hs

theorem filterMap_insertIdx {s : Step} (hbook : s.book = none) :
    ∀ (pos : ℕ) (steps : List Step), (steps.insertIdx pos s).filterMap Step.book =
      steps.filterMap Step.book
  | 0, steps => by rw [List.insertIdx_zero, List.filterMap_cons, hbook]
  | pos + 1, [] => by rw [List.insertIdx_succ_nil]
  | pos + 1, t :: steps => by
    rw [List.insertIdx_succ_cons, List.filterMap_cons, List.filterMap_cons,
      filterMap_insertIdx hbook pos steps]

/-- A step that is none of the book's is added anywhere. -/
theorem Keeps.insert (h : Keeps p task steps) {s : Step} (hbook : s.book = none)
    (hsound : Sound p task s) (pos : ℕ) : Keeps p task (steps.insertIdx pos s) := by
  refine ⟨(filterMap_insertIdx hbook pos steps).trans h.books, ?_⟩
  intro t ht
  rcases List.eq_or_mem_of_mem_insertIdx ht with rfl | ht
  · exact hsound
  · exact h.sound t ht

/-- An added step is of the model's text, and runs as root only outside the sections of the
`lfs` user. -/
theorem Keeps.addStep (h : Keeps p task steps) (hguard : run ≠ "" → Guarded p task run)
    (hroot : task.context = .hostLfs → asUser (field ch "as") ≠ some .root)
    (hadd : addStep task steps ch run why = .ok (steps', problems)) : Keeps p task steps' := by
  unfold LfsWorker.addStep at hadd
  split at hadd
  · cases hadd
    exact h
  · next hrun =>
    split at hadd
    · cases hadd
      exact h
    · obtain ⟨⟨pos, after⟩, -, hadd⟩ := bind_eq_ok.mp hadd
      cases hadd
      exact h.insert rfl ⟨.inr (.inr (hguard hrun)), fun hlfs hr => absurd hr (hroot hlfs)⟩ _

/-- A changed command keeps its place, and its user unless the book's is root. -/
theorem Keeps.changeStep (h : Keeps p task steps) (why : String) (hc : c ∈ task.commands)
    (hguard : run ≠ "" → Guarded p task run)
    (hroot : task.context = .hostLfs → asUser (field ch "as") = some .root → c.asRoot = true) :
    Keeps p task (changeStep p c steps ch run why).1 := by
  have hleft : Keeps p task
      (if (field ch "omit").truthy then update c.index (leaveOut why) steps else steps) := by
    split
    · exact h.updated (fun _ => rfl) fun s _ _ hs => ⟨.inl rfl, hs.root⟩
    · exact h
  unfold LfsWorker.changeStep
  dsimp only
  generalize (if (field ch "omit").truthy then update c.index (leaveOut why) steps else steps) = left
    at hleft ⊢
  split
  · exact hleft
  · have hrun : Keeps p task (if run ≠ "" then update c.index (rewrite c run why) left else left) := by
      split
      · next hrun =>
        exact hleft.updated (fun _ => rfl) fun s _ _ hs => ⟨.inr (.inr (hguard hrun)), hs.root⟩
      · exact hleft
    split
    · next user huser =>
      refine hrun.updated (fun _ => rfl) fun s _ hbook hs => ⟨hs.text, fun hlfs hr => ?_⟩
      obtain rfl : user = .root := Option.some.inj hr
      exact ⟨c, hc, hbook, hroot hlfs huser⟩
    · exact hrun

theorem mem_of_lookup {idx : Json} (h : task.lookup idx = .ok (some c)) : c ∈ task.commands := by
  unfold Task.lookup at h
  split at h
  · exact List.mem_of_find?_eq_some (Except.ok.inj h)
  · cases h

/-- What the check of the user says of the command that a change names. -/
theorem asRoot_of_lookup {found : Option Command} (h : runsAsRoot task ch = .ok false)
    (hlookup : task.lookup (field ch "book") = .ok found) (hlfs : task.context = .hostLfs)
    (hroot : asUser (field ch "as") = some .root) : found.any Command.asRoot = true := by
  unfold runsAsRoot at h
  rw [if_pos ⟨hroot, hlfs⟩, hlookup] at h
  have hany : (!found.any Command.asRoot) = false := Except.ok.inj h
  rwa [Bool.not_eq_false'] at hany

/-- No command has the number of no command. -/
theorem lookup_null (hnull : (field ch "book").eq .null = true) :
    task.lookup (field ch "book") = .ok none := by
  rw [Json.eq_null hnull]
  unfold Task.lookup
  rw [if_pos (by rfl)]
  refine congrArg Except.ok (List.find?_eq_none.mpr fun c _ => ?_)
  rw [Json.null_eq_int]
  exact Bool.false_ne_true

theorem checkText_none (h : checkText p run = none) (hrun : run ≠ "") :
    p.danger run = false ∧ p.download run = false := by
  unfold checkText at h
  split at h
  · cases h
  · next hdanger =>
    split at h
    · cases h
    · next hdownload =>
      exact ⟨Bool.eq_false_of_not_eq_true fun hd => hdanger ⟨hrun, hd⟩,
        Bool.eq_false_of_not_eq_true fun hd => hdownload ⟨hrun, hd⟩⟩

theorem Keeps.carryOut (h : Keeps p task steps) (hguard : run ≠ "" → Guarded p task run)
    (hasRoot : runsAsRoot task ch = .ok false)
    (hcarry : carryOut p task steps ch run why = .ok (steps', problems)) : Keeps p task steps' := by
  unfold LfsWorker.carryOut at hcarry
  split at hcarry
  · next hnone =>
    -- no command is named, so none of the book's is run as root
    exact h.addStep hguard (fun hlfs hroot => Bool.false_ne_true
      (asRoot_of_lookup hasRoot (lookup_null hnone) hlfs hroot)) hcarry
  · obtain ⟨found, hlookup, hcarry⟩ := bind_eq_ok.mp hcarry
    cases found with
    | none =>
      cases hcarry
      exact h
    | some c =>
      have heq := Except.ok.inj hcarry
      split at heq
      · cases heq
        exact h
      · have hchange := h.changeStep why (mem_of_lookup hlookup) hguard fun hlfs hroot =>
          asRoot_of_lookup hasRoot hlookup hlfs hroot
        rwa [heq] at hchange

theorem Keeps.applyAllowed (h : Keeps p task steps) (hcredential : p.credential run = false)
    (hforeign : foreign p task run = [])
    (hallowed : applyAllowed p task steps ch run why = .ok (steps', problems)) :
    Keeps p task steps' := by
  obtain ⟨asRoot, hasRoot, hallowed⟩ := bind_eq_ok.mp hallowed
  cases asRoot with
  | true =>
    cases hallowed
    exact h
  | false =>
    rw [if_neg Bool.false_ne_true] at hallowed
    dsimp only at hallowed
    split at hallowed
    · cases hallowed
      exact h
    · next hcheck =>
      obtain ⟨⟨next, others⟩, hcarry, hallowed⟩ := bind_eq_ok.mp hallowed
      cases hallowed
      refine h.carryOut (fun hrun => ?_) hasRoot hcarry
      obtain ⟨hdanger, hdownload⟩ := checkText_none hcheck hrun
      exact guarded_of_foreign hforeign hcredential hdanger hdownload

/-- One change keeps the plan sound, whether it is refused or not. -/
theorem applyChange_keeps (h : Keeps p task steps)
    (happly : applyChange p task steps ch = .ok (steps', problems)) : Keeps p task steps' := by
  unfold applyChange at happly
  split at happly
  · dsimp only at happly
    split at happly
    · cases happly
      exact h
    split at happly
    · cases happly
      exact h
    next hcredential =>
    split at happly
    · cases happly
      exact h
    next hforeign =>
    exact h.applyAllowed (Bool.eq_false_of_not_eq_true hcredential) (not_not.mp hforeign) happly
  · cases happly
    exact h

/-- All changes keep the plan sound. -/
theorem applyChanges_keeps {changes : List Json} (h : Keeps p task steps)
    (happly : applyChanges p task changes steps = .ok (steps', problems)) : Keeps p task steps' := by
  induction changes generalizing steps problems with
  | nil =>
    cases happly
    exact h
  | cons ch changes ih =>
    obtain ⟨⟨next, found⟩, hchange, happly⟩ := bind_eq_ok.mp happly
    obtain ⟨⟨last, others⟩, hrest, happly⟩ := bind_eq_ok.mp happly
    cases happly
    exact ih (applyChange_keeps h hchange) hrest

end Changes

/-- What is promised of a plan. -/
structure Accepted (p : Patterns) (task : Task) (steps : List Step) : Prop where
  books : steps.filterMap Step.book = task.own.map Command.index
  guarded : ∀ s ∈ steps, s.omitted = false →
    (∃ c ∈ task.own, s.book = some c.index ∧ s.run = c.text) ∨ Guarded p task s.run
  root : task.context = .hostLfs → ∀ s ∈ steps, s.user = some .root →
    ∃ c ∈ task.commands, s.book = some c.index ∧ c.asRoot = true
  runs : ∃ s ∈ steps, s.omitted = false

/-- **An accepted plan has the book's commands, each once and in order; what else it runs is guarded;
as root in a section of the `lfs` user it runs only what the book does; and it runs something.** -/
theorem plan_accepted {p : Patterns} {task : Task} {asTheBook : Bool} {data : Option Json}
    {steps : List Step} (h : plan p task asTheBook data = .ok steps) (hsteps : steps ≠ []) :
    Accepted p task steps := by
  unfold plan at h
  split at h
  · cases h
    exact absurd rfl hsteps
  · obtain ⟨⟨last, problems⟩, happly, h⟩ := bind_eq_ok.mp h
    have hkeeps := applyChanges_keeps (keeps_bookSteps p task) happly
    cases h
    split at hsteps
    · next hok =>
      obtain ⟨-, hfinal⟩ := List.append_eq_nil_iff.mp hok
      obtain ⟨-, hnothing⟩ := List.append_eq_nil_iff.mp hfinal
      rw [if_pos hok]
      refine ⟨hkeeps.books, ?_, fun hlfs s hs => (hkeeps.sound s hs).root hlfs, ?_⟩
      · intro s hs hruns
        exact (hkeeps.sound s hs).text.resolve_left (Bool.eq_false_iff.mp hruns)
      · by_contra hall
        push Not at hall
        rw [if_pos (List.all_eq_true.mpr fun s hs => Bool.eq_true_of_not_eq_false (hall s hs))]
          at hnothing
        cases hnothing
    · exact absurd rfl hsteps

/-! ### Two plans -/

/-- Patterns that find nothing. -/
def quiet : Patterns where
  danger _ := false
  download _ := false
  credential _ := false
  system _ := []
  never w := ["sudo", "apt-get", "apt", "dnf", "yum"].contains w
  placeholder _ := false
  dropped _ _ := []
  writesConfig _ := ""
  str _ := ""

def makeSection : Task where
  context := .hostLfs
  commands := [⟨0, "make", false, false⟩, ⟨1, "make install", true, false⟩]
  numbered := by decide

def checkedSection : Task where
  context := .hostLfs
  commands := [⟨0, "make", false, false⟩, ⟨1, "make check", false, false⟩, ⟨2, "make install", true, false⟩]
  numbered := by decide

/-- One command is changed, one is left out, and a step is added. -/
def makeReply : Json :=
  .obj [("changes", .arr
    [.obj [("book", .int 0), ("run", .str "make -j4"), ("why", .str "four cores")],
      .obj [("book", .int 1), ("omit", .bool true), ("why", .str "no tests now")],
      .obj [("run", .str "file src/m4"), ("after", .int 0), ("why", .str "a look at the result")]])]

def makeSteps : List Step :=
  [{ book := some 0, run := "make -j4", user := none, why := "four cores", changed := true },
    { book := none, run := "file src/m4", user := none, why := "a look at the result", changed := true,
      addedAfter := some (.int 0) },
    { book := some 1, run := "", user := none, why := "no tests now", changed := false, omitted := true },
    { book := some 2, run := "make install", user := some .root, why := "", changed := false }]

theorem plan_accepted_make : plan quiet checkedSection false (some makeReply) = .ok makeSteps ∧
    Accepted quiet checkedSection makeSteps := by
  have hplan : plan quiet checkedSection false (some makeReply) = .ok makeSteps := by
    with_unfolding_all rfl
  exact ⟨hplan, plan_accepted hplan nofun⟩

/-- `_NEVER.search`: a word that is never used, between characters that are none of a word's. -/
def searchNever (run : String) : Bool :=
  (run.toList.splitOnP fun c => !(c.isAlphanum || c == '_')).any fun w =>
    ["sudo", "apt", "dnf", "yum"].contains (String.ofList w)

def formatStep : String := "mkfs.sudo /dev/sdb1"

/-- The word that `_SYSTEM` finds in the step is a longer one. -/
def formatPatterns : Patterns :=
  { quiet with system := fun run => if run = formatStep then ["mkfs.sudo"] else [] }

def partitioning : Task := ⟨.hostRoot, [], by decide⟩

def formatReply : Json :=
  .obj [("changes", .arr [.obj [("run", .str formatStep), ("why", .str "the ESP")]])]

/-- In a section without commands a step is accepted whose text `_NEVER` finds something in. -/
theorem mkfs_sudo_accepted :
    ∃ s, plan formatPatterns partitioning false (some formatReply) = .ok [s] ∧ s.omitted = false ∧
      s.book = none ∧ s.run = formatStep ∧ searchNever s.run = true :=
  ⟨_, rfl, rfl, rfl, rfl, by decide⟩

end LfsWorker
end CloudCore
