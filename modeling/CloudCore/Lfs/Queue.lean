import CloudCore.Lfs.WorkerPatterns
import CloudCore.Python.Json
import CloudCore.Python.OrderedDict
import Mathlib.Algebra.GroupWithZero.Nat
import Mathlib.Algebra.Order.BigOperators.Group.List
import Mathlib.Data.List.Dedup

/-!
# The queue of a build

`plan_queue` of `lfs_build.py`: the sections of the two books in the order in which they are built,
with the commands that the build leaves out.

## Main definitions

* `Section`, `Books` — what `book-sections.py` writes of the books.
* `Rules` — the subsections and the commands that are left out, and `bookRules`, those of the code.
* `planQueue` — the tasks.
* `IsTheBook` — the tasks are the book.

## Main results

* `planQueue_ordered` — the tasks are the sections in the order of the book.
* `checkpointAfter_iff` — a checkpoint comes after each run of one chapter.
* `isTheBook_iff` — **the queue is the book iff no command that is left out meets two rules, and no
  section is numbered `end`.**
-/

namespace CloudCore
namespace LfsQueue

open Python
open Python.Re (lit oneOf opt some1)
open LfsWorker (inOrder)

/-! ### The books -/

structure Command where
  text : String
  subsection : String
  deriving DecidableEq

/-- What `plan_queue` reads of a section. -/
structure Section where
  book : String
  path : String
  chapter : String
  number : String
  title : String
  package : String
  version : String
  stage : String
  commands : List Command
  deriving DecidableEq

/-- The sections of the two books. -/
structure Books where
  lfs : List Section
  blfs : List Section
  lfs_book : ∀ s ∈ lfs, s.book = "lfs"
  blfs_book : ∀ s ∈ blfs, s.book = "blfs"
  lfs_paths : (lfs.map Section.path).Nodup
  blfs_paths : (blfs.map Section.path).Nodup
  numbers : (lfs.map Section.number).Nodup

/-- A command that the build leaves out, and why. -/
structure SkipCommand where
  search : String → Bool
  why : String

structure Rules where
  skipSubsection : String → Bool
  skipCommands : List SkipCommand
  highRisk : String → Bool

section

variable (letter : Char → Bool)

/-- `^`. -/
def atStart : Re := .notBehind fun _ => true

/-- `^\s*r\s*$`. -/
def wholeText (r : Re) : Re := inOrder [atStart, .many isSpace, r, .many isSpace, .atEnd]

/-- `\d`. -/
def isDecimal (c : Char) : Bool := (decimal c).isSome

/-- `_SKIP_SUBSECTION`. -/
def SKIP_SUBSECTION : Re := .alt (inOrder [.boundary, lit "BIOS", .boundary]) (lit "32-bit")

/-- `_HIGH_RISK`. -/
def HIGH_RISK : Re :=
  oneOf
    [inOrder [atStart, oneOf (["Binutils", "GCC", "Glibc", "Linux", "GRUB"].map lit), .boundary],
      lit "Using GRUB",
      inOrder [lit "Linux-", some1 fun c => isDecimal c || c == '.', lit " API Headers"]]

/-- `_SKIP_COMMANDS`. -/
def SKIP_COMMANDS : List (Re × String) :=
  [(.alt (lit "grub-mkrescue") (lit "xorriso"),
      "an optional rescue CD; the lab machine has no CD writer"),
    (wholeText (lit "passwd lfs"),
      "the controller switches to the lfs user itself; no password is needed"),
    (wholeText (lit "su - lfs"),
      "the controller runs the lfs user's tasks as lfs itself (an interactive shell can't be driven)"),
    (inOrder [atStart, .many isSpace, lit "chroot \"$LFS\""],
      "the controller enters the chroot for every step itself, with the book's env -i settings (an interactive login shell can't be driven)"),
    (wholeText (lit "source ~/.bash_profile"),
      "its exec env -i /bin/bash starts an interactive shell; the controller gives every lfs step a clean environment from the lfs user's .bashrc itself (LFS-017)"),
    (wholeText (oneOf [lit "make -j32", lit "export MAKEFLAGS=-j32"]),
      "the book's illustration for a 32-core CPU; its next command sets MAKEFLAGS from nproc for this machine (LFS-017)"),
    (wholeText (lit "exec /usr/bin/bash --login"),
      "it starts an interactive login shell; the controller runs every step in a fresh shell in the chroot (LFS-025)"),
    (oneOf [wholeText (lit "exit"), lit "umount $LFS/\x7bsys,proc,run,dev\x7d",
        lit "tar -cJpf $HOME/lfs-temp-tools"],
      "the book's backup leaves the chroot; the controller's checkpoint after chapter 7 snapshots both disks instead (LFS-025)"),
    (wholeText (lit "passwd root"),
      "the root password is Paul's to set, not the build's: the controller locks root's password instead, and Paul sets it himself (LFS-035)"),
    (wholeText (lit "bash tests/run.sh --srcdir=$PWD --builddir=$PWD"),
      "the book's Warning: run this root test suite only after booting the finished LFS system; it is in the boot checks (D6), not the build (LFS-041)"),
    (wholeText (lit "make menuconfig"),
      "interactive (a menu); the kernel is configured non-interactively with make defconfig and the kernel's own scripts/config instead, as the tutor's note for this section says (LFS-043)"),
    (oneOf [lit "efivarfs", lit "efibootmgr -c", lit "umount -v /sys/firmware/efi/efivars"],
      "writes a boot entry into the firmware; in the chroot that would be the build machine's own firmware, and grub-install --removable (EFI/BOOT/BOOTX64.EFI) needs no entry (LFS-043)"),
    (wholeText (lit "mount /boot"),
      "the book's caution: only for a separate /boot partition, and this build's disk has none (LFS-043)"),
    (inOrder [.boundary, lit "doxygen", .boundary],
      "documentation built with doxygen, which isn't part of this build (LFS-043)"),
    (lit "ssh-copy-id -i ~/.ssh/id_ed25519.pub REMOTE_USERNAME@REMOTE_HOSTNAME",
      "an example of copying a key to another machine; Paul adds his own key at first boot (LFS-043)"),
    (lit "sed 's@d/login@d/sshd@g' /etc/pam.d/login",
      "for Linux-PAM, which isn't part of this build (LFS-043)"),
    (inOrder [atStart, .many isSpace, lit "wget --input-file"],
      "the lab network can't reach the internet's mirrors this way; the controller delivers the verified sources from the host's repo (LFS-006)")]

/-- The rules of the code; `letter` tells the letters beyond ASCII. -/
def bookRules : Rules where
  skipSubsection t := SKIP_SUBSECTION.search letter t.toList
  skipCommands := SKIP_COMMANDS.map fun rule => ⟨fun t => rule.1.search letter t.toList, rule.2⟩
  highRisk t := HIGH_RISK.search letter t.toList

end

/-! ### The order -/

/-- The characters that `str.isdigit` takes and `int` does not. -/
def otherDigits : List (ℕ × ℕ) :=
  [(0xB2, 0xB3), (0xB9, 0xB9), (0x1369, 0x1371), (0x19DA, 0x19DA), (0x2070, 0x2070), (0x2074, 0x2079),
    (0x2080, 0x2089), (0x2460, 0x2468), (0x2474, 0x247C), (0x2488, 0x2490), (0x24EA, 0x24EA),
    (0x24F5, 0x24FD), (0x24FF, 0x24FF), (0x2776, 0x277E), (0x2780, 0x2788), (0x278A, 0x2792),
    (0x10A40, 0x10A43), (0x10E60, 0x10E68), (0x11052, 0x1105A), (0x1F100, 0x1F10A)]

/-- `str.isdigit`. -/
def isdigit (l : List Char) : Bool :=
  !l.isEmpty && l.all fun c =>
    isDecimal c || otherDigits.any fun r => r.1 ≤ c.toNat && c.toNat ≤ r.2

def numKey (number : String) : Except Exc (List ℤ) :=
  (number.toList.splitOn '.').mapM fun p => if isdigit p then intOfText (.ofList p) else .ok 0

def COMMANDLESS : List String := ["2.4"]

/-- `chapter(0[2-9]|1[01])`. -/
def chapters : List String :=
  ["chapter02", "chapter03", "chapter04", "chapter05", "chapter06", "chapter07", "chapter08",
    "chapter09", "chapter10", "chapter11"]

/-- A section that the build works through. -/
def wanted (s : Section) : Bool :=
  (!s.commands.isEmpty || COMMANDLESS.contains s.number) && chapters.contains s.chapter

/-- The comparison of two keys. -/
def keyLe (a b : List ℤ × Section) : Bool := a.1 ≤ b.1

/-- `lfs.sort(key=…)`; the keys are computed first. -/
def sortSections (sections : List Section) : Except Exc (List Section) := do
  let keyed ← sections.mapM fun s => (numKey s.number).map fun key => (key, s)
  pure ((keyed.mergeSort keyLe).map (·.2))

/-- `_BLFS_STAGE1`. -/
def BLFS_STAGE1 : List (String × String) :=
  [("general/popt.html", "10.4"), ("postlfs/efivar.html", "10.4"),
    ("postlfs/efibootmgr.html", "10.4"), ("postlfs/openssh.html", "end")]

/-- Sections, by the number before which they come. -/
abbrev Extras := List (String × List Section)

/-- `extras.setdefault(before, []).append(s)`. -/
def Extras.add (extras : Extras) (before : String) (s : Section) : Extras :=
  if extras.any (·.1 == before) then OrderedDict.modify extras before (· ++ [s])
  else extras ++ [(before, [s])]

/-- What remains after `extras.pop(key)`. -/
def Extras.without (extras : Extras) (key : String) : Extras := extras.filter (·.1 ≠ key)

/-- The section of a path, in the dictionary by paths; the last one of two. -/
def byPath (blfs : List Section) (path : String) : Option Section :=
  blfs.reverse.find? (·.path == path)

/-- The packages of stage 1, by where they go. -/
def stage1 (blfs : List Section) : List (String × String) → Extras → Except Exc Extras
  | [], extras => .ok extras
  | (path, before) :: packages, extras =>
    match byPath blfs path with
    | none => .error .valueError
    | some s => stage1 blfs packages (extras.add before s)

/-- The sections with what comes before them, and what is left. -/
def splice (extras : Extras) : List Section → List Section × Extras
  | [] => ([], extras)
  | s :: sections =>
    match extras.lookup s.number with
    | some group =>
      let r := splice (extras.without s.number) sections
      (group ++ s :: r.1, r.2)
    | none =>
      let r := splice extras sections
      (s :: r.1, r.2)

/-- The sections in the order of the tasks. -/
def ordered (lfs blfs : List Section) : Except Exc (List Section) := do
  let sections ← sortSections (lfs.filter wanted)
  let extras ← stage1 blfs BLFS_STAGE1 []
  let r := splice extras sections
  if (r.2.without "end").isEmpty then pure (r.1 ++ (r.2.lookup "end").getD [])
  else .error .valueError

/-! ### The tasks -/

/-- `_HOST_ROOT_SECTIONS`. -/
def HOST_ROOT_SECTIONS : List String := ["7.2", "7.3", "7.4"]

/-- The number of a chapter. -/
def chapterNumber (chapter : String) : Except Exc ℤ :=
  if startswith chapter "chapter" then
    let rest := removeprefix chapter "chapter"
    if rest = "" then .ok 0 else intOfText rest
  else .ok 0

def context (s : Section) : Except Exc String := do
  let ch ← chapterNumber s.chapter
  if s.book = "blfs" then pure "chroot"
  else if ch ≤ 3 then pure "host-root"
  else
    let early ← if ch = 4 then (numKey s.number).map fun key => decide (key < [4, 4]) else pure false
    if early then pure "host-root"
    else if ch ≤ 6 ∨ ch = 4 then pure "host-lfs"
    else if HOST_ROOT_SECTIONS.contains s.number then pure "host-root"
    else pure "chroot"

structure Skipped where
  index : ℕ
  why : String
  deriving DecidableEq

/-- A row of `lfs_tasks`, as it is planned. -/
structure Task where
  seq : ℕ
  book : String
  path : String
  number : String
  title : String
  package : String
  version : String
  stageNote : String
  chapter : String
  context : String
  skipSubsections : List String
  skipCommands : List Skipped
  versionOverride : String
  risk : String
  checkpointBefore : Bool
  checkpointAfter : Bool
  nCommands : ℤ
  deriving DecidableEq

variable (rules : Rules) (kernel : String)

/-- The subsections of a section that are left out. -/
def skipOf (s : Section) : List String :=
  ((s.commands.map Command.subsection).filter rules.skipSubsection).dedup.mergeSort fun a b => a ≤ b

/-- The rules that a command meets. -/
def matching (c : Command) : List SkipCommand := rules.skipCommands.filter (·.search c.text)

/-- The commands that are left out, once for each rule. -/
def skipCommandsOf (s : Section) : List Skipped :=
  s.commands.zipIdx.flatMap fun (c, n) =>
    if (skipOf rules s).contains c.subsection then []
    else (matching rules c).map fun rule => ⟨n, rule.why⟩

/-- What has one checkpoint: a chapter, or the packages of BLFS. -/
def groupOf (book chapter : String) : Option String := if book = "blfs" then none else some chapter

/-- The group of a section. -/
def Section.group (s : Section) : Option String := groupOf s.book s.chapter

/-- One round of the loop. -/
def task (seq : ℕ) (s : Section) (nxt : Option Section) : Except Exc Task :=
  (context s).map fun context =>
    { seq, book := s.book, path := s.path, number := s.number, title := s.title, package := s.package,
      version := s.version, stageNote := s.stage, chapter := s.chapter, context,
      skipSubsections := skipOf rules s, skipCommands := skipCommandsOf rules s,
      versionOverride := if s.package = "Linux" ∧ s.version ≠ kernel then kernel else "",
      risk := if rules.highRisk s.title then "high" else "normal",
      checkpointBefore := rules.highRisk s.title,
      checkpointAfter := nxt.all fun t => t.group ≠ s.group,
      nCommands :=
        s.commands.countP (fun c => !(skipOf rules s).contains c.subsection) -
          (skipCommandsOf rules s).length }

/-- The tasks from number `seq` on. -/
def tasks (seq : ℕ) : List Section → Except Exc (List Task)
  | [] => .ok []
  | s :: sections => do
    let t ← task rules kernel seq s sections.head?
    let ts ← tasks (seq + 1) sections
    pure (t :: ts)

def planQueue (lfs blfs : List Section) : Except Exc (List Task) := do
  let sections ← ordered lfs blfs
  tasks rules kernel 1 sections

/-! ### What the queue should be -/

/-- A run of equal elements that goes on neither before nor behind. -/
structure MaximalRun {α : Type} (l : List α) (a b : ℕ) : Prop where
  le : a ≤ b
  lt : b < l.length
  same : ∀ i, a ≤ i → i ≤ b → l[i]? = l[b]?
  before : a = 0 ∨ l[a - 1]? ≠ l[a]?
  behind : l[b + 1]? ≠ l[b]?

/-- The section of a task. -/
structure Copies (s : Section) (t : Task) : Prop where
  book : t.book = s.book
  path : t.path = s.path
  number : t.number = s.number
  title : t.title = s.title
  package : t.package = s.package
  version : t.version = s.version
  stage : t.stageNote = s.stage
  chapter : t.chapter = s.chapter

/-- The keys of the numbers do not decrease. -/
def NumberLe (s t : Section) : Prop :=
  ∃ key key', numKey s.number = .ok key ∧ numKey t.number = .ok key' ∧ key ≤ key'

/-- The sections of the book in its order, with the packages of stage 1 in their places. -/
structure BookOrder (books : Books) (sections : List Section) : Prop where
  lfs : ((sections.filter (·.book ≠ "blfs")).Perm (books.lfs.filter wanted))
  sorted : (sections.filter (·.book ≠ "blfs")).Pairwise NumberLe
  blfs : ∃ popt ∈ books.blfs, ∃ efivar ∈ books.blfs, ∃ efibootmgr ∈ books.blfs,
    ∃ openssh ∈ books.blfs, popt.path = "general/popt.html" ∧ efivar.path = "postlfs/efivar.html" ∧
      efibootmgr.path = "postlfs/efibootmgr.html" ∧ openssh.path = "postlfs/openssh.html" ∧
      sections.filter (·.book = "blfs") = [popt, efivar, efibootmgr, openssh] ∧
      ∃ front s back, s.number = "10.4" ∧ s.book ≠ "blfs" ∧
        sections = front ++ [popt, efivar, efibootmgr] ++ s :: back ++ [openssh]

/-- The commands of a section that the build runs. -/
def remaining (s : Section) : List Command :=
  s.commands.filter fun c => !rules.skipSubsection c.subsection && (matching rules c).isEmpty

/-- The tasks are the book. -/
structure IsTheBook (books : Books) (queue : List Task) : Prop where
  seq : queue.map Task.seq = List.range' 1 queue.length
  order : ∃ sections, BookOrder books sections ∧ List.Forall₂ Copies sections queue
  checkpoints : ∀ i (h : i < queue.length), queue[i].checkpointAfter = true ↔
    ∃ a, MaximalRun (queue.map fun t => groupOf t.book t.chapter) a i
  counts : ∀ t ∈ queue, ∀ s ∈ books.lfs ++ books.blfs, s.book = t.book → s.path = t.path →
    t.nCommands = (remaining rules s).length

/-- A section that gets a task. -/
def Queued (books : Books) (s : Section) : Prop :=
  s ∈ books.lfs.filter wanted ∨ s ∈ books.blfs ∧ s.path ∈ BLFS_STAGE1.map Prod.fst

/-- No command outside the subsections that are left out meets two rules. -/
def OneRule (s : Section) : Prop :=
  ∀ c ∈ s.commands, rules.skipSubsection c.subsection = false → (matching rules c).length ≤ 1

/-! ### Runs -/

theorem exists_maximalRun_iff {α : Type} {l : List α} {i : ℕ} (hi : i < l.length) :
    (∃ a, MaximalRun l a i) ↔ l[i + 1]? ≠ l[i]? := by
  constructor
  · rintro ⟨a, hrun⟩
    exact hrun.behind
  · intro hbehind
    -- the run that ends with element `i` begins with the last change before it
    have hstart : ∀ n ≤ i, ∃ a ≤ n, (∀ j, a ≤ j → j ≤ n → l[j]? = l[n]?) ∧
        (a = 0 ∨ l[a - 1]? ≠ l[a]?) := by
      intro n
      induction n with
      | zero =>
        intro _
        refine ⟨0, le_refl 0, fun j _ hj => ?_, .inl rfl⟩
        rw [Nat.le_zero.mp hj]
      | succ n ih =>
        intro hn
        by_cases hsame : l[n]? = l[n + 1]?
        · obtain ⟨a, ha, hrun, hbefore⟩ := ih (Nat.le_of_succ_le hn)
          refine ⟨a, Nat.le_succ_of_le ha, fun j haj hj => ?_, hbefore⟩
          obtain hj | rfl := Nat.le_or_eq_of_le_succ hj
          · rw [hrun j haj hj, hsame]
          · rfl
        · refine ⟨n + 1, le_refl _, fun j haj hj => ?_, .inr hsame⟩
          rw [Nat.le_antisymm hj haj]
    obtain ⟨a, ha, hrun, hbefore⟩ := hstart i (le_refl i)
    exact ⟨a, ha, hi, hrun, hbefore, hbehind⟩

/-! ### The tasks, one by one -/

section

variable {rules kernel}

/-- What one round makes of a section. -/
structure Made (rules : Rules) (s : Section) (t : Task) : Prop extends Copies s t where
  count : t.nCommands =
    s.commands.countP (fun c => !(skipOf rules s).contains c.subsection) -
      (skipCommandsOf rules s).length

theorem made_of_task {seq : ℕ} {s : Section} {nxt : Option Section} {t : Task}
    (h : task rules kernel seq s nxt = .ok t) :
    Made rules s t ∧ t.seq = seq ∧ t.checkpointAfter = nxt.all (fun u => u.group ≠ s.group) := by
  unfold task at h
  cases hcontext : context s with
  | error e =>
    rw [hcontext] at h
    cases h
  | ok context =>
    rw [hcontext] at h
    obtain rfl := Except.ok.inj h
    exact ⟨⟨⟨rfl, rfl, rfl, rfl, rfl, rfl, rfl, rfl⟩, rfl⟩, rfl, rfl⟩

/-- **The tasks are numbered, and each is made of its section.** -/
theorem tasks_made {seq : ℕ} {sections : List Section} {ts : List Task}
    (h : tasks rules kernel seq sections = .ok ts) :
    ts.map Task.seq = List.range' seq ts.length ∧ List.Forall₂ (Made rules) sections ts := by
  induction sections generalizing seq ts with
  | nil =>
    obtain rfl := Except.ok.inj h
    exact ⟨rfl, .nil⟩
  | cons s sections ih =>
    obtain ⟨t, ht, h⟩ := bind_eq_ok.mp h
    obtain ⟨later, hlater, h⟩ := bind_eq_ok.mp h
    obtain rfl := Except.ok.inj h
    obtain ⟨hmade, hseq, -⟩ := made_of_task ht
    obtain ⟨hseqs, hmades⟩ := ih hlater
    refine ⟨?_, .cons hmade hmades⟩
    rw [List.map_cons, hseq, hseqs, List.length_cons, List.range'_succ]

theorem groups_eq {sections : List Section} {ts : List Task}
    (h : List.Forall₂ (Made rules) sections ts) :
    (ts.map fun t => groupOf t.book t.chapter) = sections.map Section.group := by
  induction h with
  | nil => rfl
  | cons hmade _ ih => rw [List.map_cons, List.map_cons, ih, hmade.book, hmade.chapter, Section.group]

/-- A checkpoint follows where the group changes. -/
theorem checkpointAfter_of_tasks {seq : ℕ} {sections : List Section} {ts : List Task}
    (h : tasks rules kernel seq sections = .ok ts) {i : ℕ} (hi : i < ts.length) :
    ts[i].checkpointAfter = true ↔
      (ts.map fun t => groupOf t.book t.chapter)[i + 1]? ≠
        (ts.map fun t => groupOf t.book t.chapter)[i]? := by
  rw [groups_eq (tasks_made h).2]
  induction sections generalizing seq ts i with
  | nil =>
    obtain rfl := Except.ok.inj h
    cases hi
  | cons s sections ih =>
    obtain ⟨t, ht, h⟩ := bind_eq_ok.mp h
    obtain ⟨later, hlater, h⟩ := bind_eq_ok.mp h
    obtain rfl := Except.ok.inj h
    match i with
    | 0 =>
      rw [List.getElem_cons_zero, (made_of_task ht).2.2, List.map_cons, List.getElem?_cons_succ,
        List.getElem?_cons_zero]
      cases sections with
      | nil => simp
      | cons u sections => simp
    | i + 1 =>
      rw [List.getElem_cons_succ, List.map_cons, List.getElem?_cons_succ, List.getElem?_cons_succ]
      exact ih hlater (Nat.lt_of_succ_lt_succ hi)

/-- **A checkpoint comes after each run of one chapter or of BLFS.** -/
theorem checkpointAfter_iff {seq : ℕ} {sections : List Section} {ts : List Task}
    (h : tasks rules kernel seq sections = .ok ts) {i : ℕ} (hi : i < ts.length) :
    ts[i].checkpointAfter = true ↔
      ∃ a, MaximalRun (ts.map fun t => groupOf t.book t.chapter) a i := by
  rw [checkpointAfter_of_tasks h hi, exists_maximalRun_iff (by rwa [List.length_map])]

/-! ### The commands that are counted -/

theorem mem_skipOf {s : Section} {c : Command} (hc : c ∈ s.commands) :
    (skipOf rules s).contains c.subsection = rules.skipSubsection c.subsection := by
  rw [Bool.eq_iff_iff, List.contains_iff_mem, skipOf, (List.mergeSort_perm _ _).mem_iff,
    List.mem_dedup, List.mem_filter]
  exact and_iff_right (List.mem_map_of_mem hc)

/-- Of the elements that count, those with no rule are the rest of the rules iff none has two. -/
theorem countP_sub_sum_eq_iff {α : Type} (l : List α) (p : α → Bool) (m : α → ℕ) :
    ((l.countP p : ℤ) - ((l.map fun c => if p c then m c else 0).sum : ℕ) =
      (l.countP fun c => p c && m c == 0 : ℕ)) ↔ ∀ c ∈ l, p c = true → m c ≤ 1 := by
  -- what an element with several rules takes away
  have hexcess : (l.countP fun c => p c && m c == 0 : ℤ) =
      (l.countP p : ℤ) - ((l.map fun c => if p c then m c else 0).sum : ℕ) +
        ((l.map fun c => if p c then m c - 1 else 0).sum : ℕ) := by
    induction l with
    | nil => rfl
    | cons c l ih =>
      rw [List.countP_cons, List.countP_cons, List.map_cons, List.map_cons, List.sum_cons, List.sum_cons]
      cases p c with
      | false =>
        simp only [Bool.false_and, Bool.false_eq_true, if_false, zero_add, add_zero]
        exact ih
      | true =>
        cases hm : m c with
        | zero =>
          simp only [Bool.true_and, beq_self_eq_true, if_true]
          omega
        | succ n =>
          simp only [Bool.true_and, Nat.add_one_ne_zero, beq_iff_eq, if_true, if_false]
          omega
  have hzero : (l.map fun c => if p c then m c - 1 else 0).sum = 0 ↔ ∀ c ∈ l, p c = true → m c ≤ 1 := by
    rw [List.sum_eq_zero_iff]
    constructor
    · intro h c hc hp
      have hz := h _ (List.mem_map_of_mem hc)
      rw [if_pos hp] at hz
      omega
    · intro h n hn
      obtain ⟨c, hc, rfl⟩ := List.mem_map.mp hn
      split
      · next hp => have := h c hc hp; omega
      · rfl
  rw [← hzero, hexcess]
  omega

/-- How often the rules are met in a section. -/
theorem length_skipCommandsOf (s : Section) :
    (skipCommandsOf rules s).length =
      (s.commands.map fun c =>
        if !(skipOf rules s).contains c.subsection then (matching rules c).length else 0).sum := by
  unfold skipCommandsOf
  rw [List.length_flatMap]
  conv_rhs => rw [← List.zipIdx_map_fst 0 s.commands, List.map_map]
  congr 1
  apply List.map_congr_left
  rintro ⟨c, n⟩ _
  dsimp only [Function.comp]
  cases (skipOf rules s).contains c.subsection with
  | true => rfl
  | false => exact List.length_map _

/-- **A count is right iff no command that counts meets two rules.** -/
theorem count_eq_iff {s : Section} {t : Task} (h : Made rules s t) :
    t.nCommands = (remaining rules s).length ↔ OneRule rules s := by
  have hremaining : (remaining rules s).length =
      s.commands.countP fun c =>
        !(skipOf rules s).contains c.subsection && (matching rules c).length == 0 := by
    rw [remaining, ← List.countP_eq_length_filter]
    apply List.countP_congr
    intro c hc
    rw [mem_skipOf hc]
    simp [List.isEmpty_iff]
  rw [h.count, length_skipCommandsOf, hremaining, countP_sub_sum_eq_iff]
  constructor
  · intro hone c hc hskip
    exact hone c hc (by rw [mem_skipOf hc, hskip]; rfl)
  · intro hone c hc hskip
    rw [mem_skipOf hc, Bool.not_eq_true'] at hskip
    exact hone c hc hskip

end

/-! ### The sections in order -/

section

variable {sections sorted : List Section} {extras : Extras}

theorem keys_of_mapM {keyed : List (List ℤ × Section)}
    (h : (sections.mapM fun s => (numKey s.number).map fun key => (key, s)) = .ok keyed) :
    keyed.map (·.2) = sections ∧ ∀ e ∈ keyed, numKey e.2.number = .ok e.1 := by
  induction sections generalizing keyed with
  | nil =>
    rw [List.mapM_nil] at h
    obtain rfl := Except.ok.inj h
    exact ⟨rfl, nofun⟩
  | cons s sections ih =>
    rw [List.mapM_cons] at h
    obtain ⟨e, he, h⟩ := bind_eq_ok.mp h
    obtain ⟨later, hlater, h⟩ := bind_eq_ok.mp h
    obtain rfl := Except.ok.inj h
    obtain ⟨key, hkey, rfl⟩ : ∃ key, numKey s.number = .ok key ∧ (key, s) = e := by
      cases hkey : numKey s.number with
      | error x => rw [hkey] at he; cases he
      | ok key => rw [hkey] at he; exact ⟨key, rfl, Except.ok.inj he⟩
    obtain ⟨hmap, hkeys⟩ := ih hlater
    refine ⟨by rw [List.map_cons, hmap], fun e' he' => ?_⟩
    obtain rfl | hmem := List.mem_cons.mp he'
    · exact hkey
    · exact hkeys e' hmem

/-- **The sections are sorted by their numbers.** -/
theorem sorted_of_sortSections (h : sortSections sections = .ok sorted) :
    sorted.Perm sections ∧ sorted.Pairwise NumberLe := by
  obtain ⟨keyed, hkeyed, h⟩ := bind_eq_ok.mp h
  obtain rfl := Except.ok.inj h
  obtain ⟨hmap, hkeys⟩ := keys_of_mapM hkeyed
  have hperm := List.mergeSort_perm keyed keyLe
  refine ⟨hmap ▸ hperm.map _, List.pairwise_map.mpr ?_⟩
  have htrans (a b c : List ℤ × Section) (hab : keyLe a b = true) (hbc : keyLe b c = true) :
      keyLe a c = true :=
    decide_eq_true ((of_decide_eq_true hab).trans (of_decide_eq_true hbc))
  have htotal (a b : List ℤ × Section) : (keyLe a b || keyLe b a) = true := by
    rw [Bool.or_eq_true]
    exact (le_total a.1 b.1).imp decide_eq_true decide_eq_true
  have hsorted := List.pairwise_mergeSort htrans htotal keyed
  apply hsorted.imp_of_mem
  intro a b ha hb hle
  exact ⟨a.1, b.1, hkeys a (hperm.mem_iff.mp ha), hkeys b (hperm.mem_iff.mp hb), of_decide_eq_true hle⟩

theorem mem_of_byPath {blfs : List Section} {path : String} {s : Section}
    (h : byPath blfs path = some s) : s ∈ blfs ∧ s.path = path := by
  unfold byPath at h
  exact ⟨List.mem_reverse.mp (List.mem_of_find?_eq_some h), by simpa using List.find?_some h⟩

theorem byPath_of_mem {blfs : List Section} (hpaths : (blfs.map Section.path).Nodup) {s : Section}
    (hs : s ∈ blfs) : byPath blfs s.path = some s := by
  cases hfind : byPath blfs s.path with
  | none =>
    have hnone := List.find?_eq_none.mp hfind s (List.mem_reverse.mpr hs)
    exact absurd (beq_self_eq_true _) hnone
  | some u =>
    obtain ⟨hu, hpath⟩ := mem_of_byPath hfind
    rw [List.inj_on_of_nodup_map hpaths hu hs hpath]

/-- The packages of stage 1 and where they go. -/
theorem stage1_eq {blfs : List Section} (h : stage1 blfs BLFS_STAGE1 [] = .ok extras) :
    ∃ popt efivar efibootmgr openssh, byPath blfs "general/popt.html" = some popt ∧
      byPath blfs "postlfs/efivar.html" = some efivar ∧
      byPath blfs "postlfs/efibootmgr.html" = some efibootmgr ∧
      byPath blfs "postlfs/openssh.html" = some openssh ∧
      extras = [("10.4", [popt, efivar, efibootmgr]), ("end", [openssh])] := by
  unfold BLFS_STAGE1 stage1 at h
  split at h
  · cases h
  · next popt hpopt =>
    unfold stage1 at h
    split at h
    · cases h
    · next efivar hefivar =>
      unfold stage1 at h
      split at h
      · cases h
      · next efibootmgr hefibootmgr =>
        unfold stage1 at h
        split at h
        · cases h
        · next openssh hopenssh =>
          obtain rfl := Except.ok.inj h
          exact ⟨popt, efivar, efibootmgr, openssh, hpopt, hefivar, hefibootmgr, hopenssh, rfl⟩

/-- Sections before which nothing comes. -/
theorem splice_append {front : List Section} (h : ∀ s ∈ front, extras.lookup s.number = none)
    (back : List Section) :
    splice extras (front ++ back) = (front ++ (splice extras back).1, (splice extras back).2) := by
  induction front with
  | nil => rfl
  | cons s front ih =>
    rw [List.cons_append, splice, h s List.mem_cons_self, ih fun u hu => h u (List.mem_cons_of_mem _ hu)]
    rfl

theorem lookup_splice_of_none {number : String} (h : extras.lookup number = none) :
    (splice extras sections).2.lookup number = none := by
  induction sections generalizing extras with
  | nil => exact h
  | cons s sections ih =>
    unfold splice
    split
    · next group hgroup =>
      apply ih
      by_cases hne : number = s.number
      · rw [hne]
        exact OrderedDict.lookup_filter_self extras s.number
      · exact (OrderedDict.lookup_filter_of_ne extras hne).trans h
    · exact ih h

/-- What is left has no section before which it would come. -/
theorem lookup_splice {number : String} (h : ∃ s ∈ sections, s.number = number) :
    (splice extras sections).2.lookup number = none := by
  induction sections generalizing extras with
  | nil =>
    obtain ⟨s, hs, -⟩ := h
    cases hs
  | cons s sections ih =>
    obtain ⟨u, hu, hnumber⟩ := h
    unfold splice
    obtain rfl | hrest := List.mem_cons.mp hu
    · split
      · apply lookup_splice_of_none
        rw [← hnumber]
        exact OrderedDict.lookup_filter_self extras u.number
      · next hnone => exact lookup_splice_of_none (hnumber ▸ hnone)
    · split
      · exact ih ⟨u, hrest, hnumber⟩
      · exact ih ⟨u, hrest, hnumber⟩

/-- The last section stays the last one. -/
theorem getLast?_splice (extras : Extras) (sections : List Section) :
    (splice extras sections).1.getLast? = sections.getLast? := by
  induction sections generalizing extras with
  | nil => rfl
  | cons s sections ih =>
    unfold splice
    split
    · next group hgroup =>
      dsimp only
      rw [List.getLast?_append, List.getLast?_cons, List.getLast?_cons, ih]
      rfl
    · dsimp only
      rw [List.getLast?_cons, List.getLast?_cons, ih]

theorem lookup_eq_none {number : String} (h : ∀ e ∈ extras, e.1 ≠ number) :
    extras.lookup number = none := by
  rw [List.lookup_eq_none_iff]
  intro e he
  exact bne_iff_ne.mpr (h e he).symm

/-- The packages of stage 1 come before 10.4 and at the end. -/
theorem splice_stage1 {group : List Section} {last : Section}
    (hnumbers : (sections.map Section.number).Nodup) (hend : ∀ s ∈ sections, s.number ≠ "end")
    (hleft : ((splice [("10.4", group), ("end", [last])] sections).2.without "end").isEmpty = true) :
    ∃ front s back, sections = front ++ s :: back ∧ s.number = "10.4" ∧
      splice [("10.4", group), ("end", [last])] sections =
        (front ++ group ++ s :: back, [("end", [last])]) := by
  by_cases hgrub : ∃ s ∈ sections, s.number = "10.4"
  · obtain ⟨s, hs, hnumber⟩ := hgrub
    obtain ⟨front, back, rfl⟩ := List.append_of_mem hs
    refine ⟨front, s, back, rfl, hnumber, ?_⟩
    rw [List.map_append, List.nodup_append] at hnumbers
    -- no section before it has its number
    have hfront : ∀ u ∈ front, List.lookup u.number [("10.4", group), ("end", [last])] = none := by
      intro u hu
      have hne : u.number ≠ "10.4" := hnumber ▸
        hnumbers.2.2 u.number (List.mem_map_of_mem hu) s.number (List.mem_map_of_mem List.mem_cons_self)
      have hne' : u.number ≠ "end" := hend u (List.mem_append_left _ hu)
      exact lookup_eq_none (by simp [hne.symm, hne'.symm])
    have hback : ∀ u ∈ back, List.lookup u.number [("end", [last])] = none := by
      intro u hu
      have hne' : u.number ≠ "end" := hend u (List.mem_append_right _ (List.mem_cons_of_mem _ hu))
      exact lookup_eq_none (by simp [hne'.symm])
    have hlast := splice_append hback []
    rw [List.append_nil] at hlast
    have hpop : Extras.without [("10.4", group), ("end", [last])] s.number = [("end", [last])] := by
      rw [hnumber]
      rfl
    have hfound : List.lookup s.number [("10.4", group), ("end", [last])] = some group := by
      rw [hnumber]
      rfl
    rw [splice_append hfront, splice, hfound]
    dsimp only
    rw [hpop, hlast]
    simp [splice]
  · -- without 10.4 its packages are left
    have hnone : ∀ u ∈ sections, List.lookup u.number [("10.4", group), ("end", [last])] = none := by
      intro u hu
      have hne : u.number ≠ "10.4" := fun hnumber => hgrub ⟨u, hu, hnumber⟩
      exact lookup_eq_none (by simp [hne.symm, (hend u hu).symm])
    have hall := splice_append hnone []
    rw [List.append_nil] at hall
    rw [hall] at hleft
    cases hleft

/-- The packages of stage 1, by their paths. -/
theorem mem_stage1 {blfs : List Section} (hpaths : (blfs.map Section.path).Nodup)
    {popt efivar efibootmgr openssh : Section} (hpopt : byPath blfs "general/popt.html" = some popt)
    (hefivar : byPath blfs "postlfs/efivar.html" = some efivar)
    (hefibootmgr : byPath blfs "postlfs/efibootmgr.html" = some efibootmgr)
    (hopenssh : byPath blfs "postlfs/openssh.html" = some openssh) (s : Section) :
    s ∈ [popt, efivar, efibootmgr, openssh] ↔ s ∈ blfs ∧ s.path ∈ BLFS_STAGE1.map Prod.fst := by
  have hof {path : String} {p : Section} (hpath : path ∈ BLFS_STAGE1.map Prod.fst)
      (hp : byPath blfs path = some p) : p ∈ blfs ∧ p.path ∈ BLFS_STAGE1.map Prod.fst := by
    obtain ⟨hmem, rfl⟩ := mem_of_byPath hp
    exact ⟨hmem, hpath⟩
  simp only [List.mem_cons, List.not_mem_nil, or_false]
  constructor
  · rintro (rfl | rfl | rfl | rfl)
    · exact hof (by decide) hpopt
    · exact hof (by decide) hefivar
    · exact hof (by decide) hefibootmgr
    · exact hof (by decide) hopenssh
  · rintro ⟨hs, hpath⟩
    have hfound := byPath_of_mem hpaths hs
    simp only [BLFS_STAGE1, List.map_cons, List.map_nil, List.mem_cons, List.not_mem_nil, or_false]
      at hpath
    obtain hpath | hpath | hpath | hpath := hpath
    · rw [hpath] at hfound
      exact .inl (Option.some.inj (hfound.symm.trans hpopt))
    · rw [hpath] at hfound
      exact .inr (.inl (Option.some.inj (hfound.symm.trans hefivar)))
    · rw [hpath] at hfound
      exact .inr (.inr (.inl (Option.some.inj (hfound.symm.trans hefibootmgr))))
    · rw [hpath] at hfound
      exact .inr (.inr (.inr (Option.some.inj (hfound.symm.trans hopenssh))))

theorem filter_lfs {l : List Section} (h : ∀ s ∈ l, s.book = "lfs") :
    l.filter (·.book ≠ "blfs") = l ∧ l.filter (·.book = "blfs") = [] := by
  constructor
  · apply List.filter_eq_self.mpr
    intro s hs
    rw [h s hs]
    rfl
  · apply List.filter_eq_nil_iff.mpr
    intro s hs
    rw [h s hs]
    decide

theorem filter_blfs {l : List Section} (h : ∀ s ∈ l, s.book = "blfs") :
    l.filter (·.book ≠ "blfs") = [] ∧ l.filter (·.book = "blfs") = l := by
  constructor
  · apply List.filter_eq_nil_iff.mpr
    intro s hs
    rw [h s hs]
    decide
  · apply List.filter_eq_self.mpr
    intro s hs
    rw [h s hs]
    rfl

/-- **The tasks are the sections in the order of the book**, unless a section is numbered `end`. -/
theorem planned_of_ordered {books : Books} (h : ordered books.lfs books.blfs = .ok sections) :
    ((∃ s ∈ books.lfs.filter wanted, s.number = "end") →
      ∃ s, sections.getLast? = some s ∧ s.book = "lfs") ∧
    ((∀ s ∈ books.lfs.filter wanted, s.number ≠ "end") →
      BookOrder books sections ∧ ∀ s, s ∈ sections ↔ Queued books s) := by
  obtain ⟨sorted, hsort, h⟩ := bind_eq_ok.mp h
  obtain ⟨extras, hextras, h⟩ := bind_eq_ok.mp h
  obtain ⟨hperm, hsorted⟩ := sorted_of_sortSections hsort
  obtain ⟨popt, efivar, efibootmgr, openssh, hpopt, hefivar, hefibootmgr, hopenssh, rfl⟩ :=
    stage1_eq hextras
  have hlfs {s : Section} (hs : s ∈ sorted) : s.book = "lfs" :=
    books.lfs_book s (List.mem_of_mem_filter (hperm.mem_iff.mp hs))
  have hblfs {s : Section} {path : String} (hs : byPath books.blfs path = some s) : s.book = "blfs" :=
    books.blfs_book s (mem_of_byPath hs).1
  dsimp only at h
  split at h
  case isFalse => cases h
  next hleft =>
  obtain rfl := Except.ok.inj h
  constructor
  · rintro ⟨u, hu, hnumber⟩
    have hu := hperm.mem_iff.mpr hu
    -- what comes at the end has been placed before the section `end`
    rw [lookup_splice ⟨u, hu, hnumber⟩, Option.getD_none, List.append_nil, getLast?_splice]
    obtain ⟨s, hs⟩ := Option.isSome_iff_exists.mp (List.getLast?_isSome.mpr (List.ne_nil_of_mem hu))
    exact ⟨s, hs, hlfs (List.mem_of_getLast? hs)⟩
  · intro hend
    have hnumbers : (sorted.map Section.number).Nodup :=
      (hperm.map _).nodup_iff.mpr (books.numbers.sublist (List.filter_sublist.map _))
    obtain ⟨front, s, back, rfl, hnumber, hsplice⟩ :=
      splice_stage1 hnumbers (fun s hs => hend s (hperm.mem_iff.mp hs)) hleft
    rw [hsplice]
    have hsections : front ++ [popt, efivar, efibootmgr] ++ s :: back ++ [openssh] =
        (front ++ [popt, efivar, efibootmgr] ++ s :: back, [("end", [openssh])]).1 ++
          (List.lookup "end" [("end", [openssh])]).getD [] := rfl
    rw [← hsections]
    have hpackages : ∀ s ∈ [popt, efivar, efibootmgr], s.book = "blfs" := by
      simp [hblfs hpopt, hblfs hefivar, hblfs hefibootmgr]
    have hlast : ∀ s ∈ [openssh], s.book = "blfs" := by simp [hblfs hopenssh]
    have hfront : ∀ s ∈ front, s.book = "lfs" := fun u hu => hlfs (List.mem_append_left _ hu)
    have hback : ∀ u ∈ s :: back, u.book = "lfs" := fun u hu => hlfs (List.mem_append_right _ hu)
    have hfilter : (front ++ [popt, efivar, efibootmgr] ++ s :: back ++ [openssh]).filter
        (·.book ≠ "blfs") = front ++ s :: back := by
      rw [List.filter_append, List.filter_append, List.filter_append, (filter_lfs hfront).1,
        (filter_lfs hback).1, (filter_blfs hpackages).1, (filter_blfs hlast).1, List.append_nil,
        List.append_nil]
    have hfilter' : (front ++ [popt, efivar, efibootmgr] ++ s :: back ++ [openssh]).filter
        (·.book = "blfs") = [popt, efivar, efibootmgr, openssh] := by
      rw [List.filter_append, List.filter_append, List.filter_append, (filter_lfs hfront).2,
        (filter_lfs hback).2, (filter_blfs hpackages).2, (filter_blfs hlast).2]
      rfl
    constructor
    · refine ⟨by rw [hfilter]; exact hperm, by rw [hfilter]; exact hsorted, ?_⟩
      obtain ⟨hp, hpopt⟩ := mem_of_byPath hpopt
      obtain ⟨hv, hefivar⟩ := mem_of_byPath hefivar
      obtain ⟨hm, hefibootmgr⟩ := mem_of_byPath hefibootmgr
      obtain ⟨ho, hopenssh⟩ := mem_of_byPath hopenssh
      exact ⟨popt, hp, efivar, hv, efibootmgr, hm, openssh, ho, hpopt, hefivar, hefibootmgr, hopenssh,
        hfilter', front, s, back, hnumber, by rw [hback s List.mem_cons_self]; decide, rfl⟩
    · intro u
      have hsorted' : u ∈ front ++ s :: back ↔ u ∈ books.lfs.filter wanted := hperm.mem_iff
      have hstage1 := mem_stage1 books.blfs_paths hpopt hefivar hefibootmgr hopenssh u
      rw [Queued, ← hsorted', ← hstage1, ← hfilter, ← hfilter', List.mem_filter, List.mem_filter]
      constructor
      · intro hu
        by_cases hbook : u.book = "blfs"
        · exact .inr ⟨hu, decide_eq_true hbook⟩
        · exact .inl ⟨hu, decide_eq_true hbook⟩
      · rintro (⟨hu, -⟩ | ⟨hu, -⟩)
        · exact hu
        · exact hu

end

/-! ### The queue -/

section

variable {rules kernel}

theorem exists_left {α β : Type} {R : α → β → Prop} {l : List α} {l' : List β}
    (h : List.Forall₂ R l l') {b : β} (hb : b ∈ l') : ∃ a ∈ l, R a b := by
  induction h with
  | nil => cases hb
  | @cons a b' l l' hab h ih =>
    obtain rfl | hb := List.mem_cons.mp hb
    · exact ⟨a, List.mem_cons_self, hab⟩
    · obtain ⟨c, hc, hcb⟩ := ih hb
      exact ⟨c, List.mem_cons_of_mem _ hc, hcb⟩

theorem getLast?_of_forall₂ {α β : Type} {R : α → β → Prop} {l : List α} {l' : List β}
    (h : List.Forall₂ R l l') {a : α} (ha : l.getLast? = some a) : ∃ b, l'.getLast? = some b ∧ R a b := by
  induction h with
  | nil => cases ha
  | @cons a' b l l' hab h ih =>
    cases h with
    | nil =>
      obtain rfl := Option.some.inj ha
      exact ⟨b, rfl, hab⟩
    | cons hab' h => exact ih ha

theorem planQueue_made {lfs blfs : List Section} {queue : List Task}
    (h : planQueue rules kernel lfs blfs = .ok queue) :
    ∃ sections, ordered lfs blfs = .ok sections ∧ tasks rules kernel 1 sections = .ok queue := by
  obtain ⟨sections, hordered, htasks⟩ := bind_eq_ok.mp h
  exact ⟨sections, hordered, htasks⟩

/-- The section of a task is the only one of its book with its path. -/
theorem eq_of_path (books : Books) {s u : Section} (hs : s ∈ books.lfs ++ books.blfs)
    (hu : u ∈ books.lfs ++ books.blfs) (hbook : s.book = u.book) (hpath : s.path = u.path) : s = u := by
  obtain hs | hs := List.mem_append.mp hs <;> obtain hu | hu := List.mem_append.mp hu
  · exact List.inj_on_of_nodup_map books.lfs_paths hs hu hpath
  · rw [books.lfs_book s hs, books.blfs_book u hu] at hbook
    exact absurd hbook (by decide)
  · rw [books.blfs_book s hs, books.lfs_book u hu] at hbook
    exact absurd hbook (by decide)
  · exact List.inj_on_of_nodup_map books.blfs_paths hs hu hpath

theorem mem_of_queued {books : Books} {s : Section} (h : Queued books s) :
    s ∈ books.lfs ++ books.blfs := by
  obtain h | ⟨h, -⟩ := h
  · exact List.mem_append_left _ (List.mem_of_mem_filter h)
  · exact List.mem_append_right _ h

/-- **The queue is the book iff no command that counts meets two rules, and no section is numbered
`end`.** -/
theorem isTheBook_iff {books : Books} {queue : List Task}
    (h : planQueue rules kernel books.lfs books.blfs = .ok queue) :
    IsTheBook rules books queue ↔
      (∀ s, Queued books s → OneRule rules s) ∧
        ∀ s ∈ books.lfs.filter wanted, s.number ≠ "end" := by
  obtain ⟨sections, hordered, htasks⟩ := planQueue_made h
  obtain ⟨hwith, hwithout⟩ := planned_of_ordered hordered
  obtain ⟨hseq, hmade⟩ := tasks_made htasks
  constructor
  · intro hbook
    have hend : ∀ s ∈ books.lfs.filter wanted, s.number ≠ "end" := by
      intro s hs hnumber
      -- the last task is a section of LFS, and should be OpenSSH
      obtain ⟨u, hu, hlfs⟩ := hwith ⟨s, hs, hnumber⟩
      obtain ⟨t, ht, htu⟩ := getLast?_of_forall₂ hmade hu
      obtain ⟨sections', horder, hcopies⟩ := hbook.order
      obtain ⟨popt, -, efivar, -, efibootmgr, -, openssh, ho, -, -, -, -, -, front, s', back, -, -, rfl⟩ :=
        horder.blfs
      obtain ⟨t', ht', hto⟩ := getLast?_of_forall₂ hcopies List.getLast?_concat
      obtain rfl := Option.some.inj (ht.symm.trans ht')
      have hsame := htu.book.symm.trans hto.book
      rw [hlfs, books.blfs_book openssh ho] at hsame
      exact absurd hsame (by decide)
    refine ⟨fun s hs => ?_, hend⟩
    obtain ⟨t, ht, hst⟩ := exists_left hmade.flip (((hwithout hend).2 s).mpr hs)
    exact (count_eq_iff hst).mp
      (hbook.counts t ht s (mem_of_queued hs) hst.book.symm hst.path.symm)
  · rintro ⟨hone, hend⟩
    obtain ⟨horder, hmem⟩ := hwithout hend
    refine ⟨hseq, ⟨sections, horder, hmade.imp fun s t hst => hst.toCopies⟩,
      fun i hi => checkpointAfter_iff htasks hi, fun t ht s hs hbook hpath => ?_⟩
    obtain ⟨u, hu, hut⟩ := exists_left hmade ht
    have hqueued := (hmem u).mp hu
    obtain rfl := eq_of_path books hs (mem_of_queued hqueued) (hbook.trans hut.book) (hpath.trans hut.path)
    exact (count_eq_iff hut).mpr (hone s hqueued)

end

/-- A package of BLFS. -/
def examplePackage (path : String) : Section :=
  ⟨"blfs", path, "general", "", "", "", "", "", []⟩

/-- A section with some commands. -/
def exampleSection (commands : List String) : Section :=
  ⟨"lfs", "chapter10/grub.html", "chapter10", "10.4", "Using GRUB", "", "", "", commands.map (⟨·, ""⟩)⟩

def exampleBooks (commands : List String) : Books where
  lfs := [exampleSection commands]
  blfs := BLFS_STAGE1.map fun e => examplePackage e.1
  lfs_book := by simp [exampleSection]
  blfs_book := by decide
  lfs_paths := List.nodup_singleton _
  blfs_paths := by decide
  numbers := List.nodup_singleton _

/-- The rules of the code. -/
def exampleRules : Rules := bookRules fun _ => false

/-- The tasks of a book, with what each of them counts. -/
def exampleCounts (commands : List String) : Option (List (String × String × ℤ)) :=
  (planQueue exampleRules "7.1.8" (exampleBooks commands).lfs (exampleBooks commands).blfs).toOption.map
    (·.map fun t => (t.book, t.path, t.nCommands))

theorem exists_queue {commands : List String} {counts : List (String × String × ℤ)}
    (h : exampleCounts commands = some counts) :
    ∃ queue, planQueue exampleRules "7.1.8" (exampleBooks commands).lfs (exampleBooks commands).blfs =
      .ok queue ∧ queue.map (fun t => (t.book, t.path, t.nCommands)) = counts := by
  unfold exampleCounts at h
  cases hplan : planQueue exampleRules "7.1.8" (exampleBooks commands).lfs (exampleBooks commands).blfs with
  | error e =>
    rw [hplan] at h
    cases h
  | ok queue =>
    rw [hplan] at h
    exact ⟨queue, rfl, Option.some.inj h⟩

/-- The second of them is left out. -/
def grubCommands : List String := ["grub-install /dev/sda", "umount -v /sys/firmware/efi/efivars"]

theorem oneRule_grubCommands :
    ∀ s, Queued (exampleBooks grubCommands) s → OneRule exampleRules s := by
  have hone : ∀ c ∈ (exampleSection grubCommands).commands, (matching exampleRules c).length ≤ 1 := by
    decide
  rintro s (hs | ⟨hs, -⟩)
  · obtain rfl := List.mem_singleton.mp (List.mem_of_mem_filter hs)
    exact fun c hc _ => hone c hc
  · -- the packages have no commands here
    obtain ⟨e, -, rfl⟩ := List.mem_map.mp hs
    exact nofun

theorem grubCounts_eq : exampleCounts grubCommands = some
    [("blfs", "general/popt.html", 0), ("blfs", "postlfs/efivar.html", 0),
      ("blfs", "postlfs/efibootmgr.html", 0), ("lfs", "chapter10/grub.html", 1),
      ("blfs", "postlfs/openssh.html", 0)] := by
  with_unfolding_all decide

theorem isTheBook_iff_grub : ∃ queue,
    planQueue exampleRules "7.1.8" (exampleBooks grubCommands).lfs
        (exampleBooks grubCommands).blfs = .ok queue ∧
      queue.map (fun t => (t.book, t.path, t.nCommands)) =
        [("blfs", "general/popt.html", 0), ("blfs", "postlfs/efivar.html", 0),
          ("blfs", "postlfs/efibootmgr.html", 0), ("lfs", "chapter10/grub.html", 1),
          ("blfs", "postlfs/openssh.html", 0)] ∧
      IsTheBook exampleRules (exampleBooks grubCommands) queue := by
  obtain ⟨queue, hqueue, hmap⟩ := exists_queue grubCounts_eq
  refine ⟨queue, hqueue, hmap, (isTheBook_iff hqueue).mpr ⟨oneRule_grubCommands, ?_⟩⟩
  intro s hs
  obtain rfl := List.mem_singleton.mp (List.mem_of_mem_filter hs)
  decide

/-- A command that meets two rules: no rescue CD, and no documentation. -/
def exampleCommand : List String := ["doxygen xorriso"]

theorem exampleCounts_eq : exampleCounts exampleCommand = some
    [("blfs", "general/popt.html", 0), ("blfs", "postlfs/efivar.html", 0),
      ("blfs", "postlfs/efibootmgr.html", 0), ("lfs", "chapter10/grub.html", -1),
      ("blfs", "postlfs/openssh.html", 0)] := by
  with_unfolding_all decide

/-- One command that meets two rules is counted as less than none. -/
theorem negative_count : ∃ queue,
    planQueue exampleRules "7.1.8" (exampleBooks exampleCommand).lfs
        (exampleBooks exampleCommand).blfs = .ok queue ∧
      (∃ t ∈ queue, t.nCommands = -1) ∧
        ¬IsTheBook exampleRules (exampleBooks exampleCommand) queue := by
  obtain ⟨queue, hqueue, hmap⟩ := exists_queue exampleCounts_eq
  obtain ⟨t, ht, hfields⟩ : ∃ t ∈ queue,
      (t.book, t.path, t.nCommands) = ("lfs", "chapter10/grub.html", -1) := by
    apply List.mem_map.mp
    rw [hmap]
    decide
  obtain ⟨hbook, hfields⟩ := Prod.mk.inj hfields
  obtain ⟨hpath, hcount⟩ := Prod.mk.inj hfields
  refine ⟨queue, hqueue, ⟨t, ht, hcount⟩, fun h => ?_⟩
  have hlength := h.counts t ht (exampleSection exampleCommand)
    (List.mem_append_left _ (List.mem_singleton_self _)) hbook.symm hpath.symm
  rw [hcount] at hlength
  omega

end LfsQueue
end CloudCore
