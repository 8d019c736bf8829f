import CloudCore.Effect.Pool
import CloudCore.Effect.Sequential
import CloudCore.Python.Regex
import Mathlib.Algebra.Group.Int.Defs
import Mathlib.Data.Int.Notation

/-!
# The updates of the library

A pass of `kiwix_updates.py`, with the download of `fetch-kiwix-zims.py`: books of which there is
a newer release are fetched and verified, the manifest is pointed at them, and files that have
been superseded for long enough are deleted.  Files are found by their names below the artifact
folder.  Whatever a pass calls may fail, and the pass may be killed between two calls.

## Main definitions

* `fetchCatalog`, `findUpdates` — the releases of the catalog, and those worth fetching.
* `run` — one pass; `replace` is the part for one book, `prune` the deletions.
* `exec` — what the calls do.
* `Promises` — what is promised of the manifest and the files at every moment.
* `Steady` — nothing fails between the change of an entry and the write of the manifest, and no
  other entry loses its file to a checksum that does not match.
-/

namespace CloudCore
namespace Kiwix

open Effect Python
open Effect.Program (attempt)

/-! ### The manifest -/

abbrev Bytes := List UInt8

/-- `httpx.HTTPError` and `OSError`, which a download survives, and the other exceptions. -/
inductive Failure where
  | retried
  | other
  deriving DecidableEq

/-- An entry of `zims`; the keys that no pass looks at are left out. -/
structure Zim where
  filename : String
  /-- `none` where it is absent or empty: the file is not from Kiwix. -/
  sourceUrl : Option String
  sha256 : Option String
  sizeBytes : Option ℤ
  bookName : Option String
  uuid : Option String
  fulltext : Option Bool
  deriving DecidableEq

/-- An entry of `superseded`, with the instant in microseconds; reading it may raise. -/
structure Superseded where
  filename : String
  at? : Option ℤ
  deriving DecidableEq

/-- `manifest.get("superseded")`. -/
inductive Listing where
  | absent
  | items (l : List Superseded)
  /-- `null`, or no list. -/
  | other
  deriving DecidableEq

def Listing.toList : Listing → List Superseded
  | .items l => l
  | _ => []

structure Manifest where
  zims : List Zim
  superseded : Listing
  deriving DecidableEq

/-- What a pass does to an entry. -/
inductive Edit where
  | release (filename url sha256 : String) (size : ℕ)
  /-- The ids of the old release are dropped. -/
  | forget
  | bookName (name : String)
  | uuid (uuid : String)
  | fulltext (b : Bool)
  | size (n : ℕ)

def Edit.apply : Edit → Zim → Zim
  | .release filename url sha n, z =>
    { z with filename, sourceUrl := some url, sha256 := some sha, sizeBytes := some (n : ℤ) }
  | .forget, z => { z with bookName := none, uuid := none, fulltext := none }
  | .bookName name, z => { z with bookName := some name }
  | .uuid u, z => { z with uuid := some u }
  | .fulltext b, z => { z with fulltext := some b }
  | .size n, z => { z with sizeBytes := some (n : ℤ) }

def Manifest.edit (m : Manifest) (i : ℕ) (e : Edit) : Manifest :=
  { m with zims := m.zims.modify i e.apply }

/-! ### Names of files -/

section

-- what `\d` matches: the decimal digits of every script
variable (digit : Char → Bool)

/-- `_(\d{4}-\d{2})[a-z]?\.zim$`. -/
def DATE_SUFFIX : Re :=
  let d : Re := .set digit
  .seq (.seq (Re.lit "_") (.seq d (.seq d (.seq d (.seq d (.seq (Re.lit "-") (.seq d (.seq d
    (Re.opt (.set fun c => 'a' ≤ c ∧ c ≤ 'z')))))))))) (.seq (Re.lit ".zim") .atEnd)

def stem (filename : String) : String :=
  .ofList ((DATE_SUFFIX digit).remove (fun _ => false) filename.toList)

def release (filename : String) : String :=
  match ((DATE_SUFFIX digit).findall (fun _ => false) filename.toList).head? with
  | some w => .ofList ((w.drop 1).take (w.length - 5))
  | none => ""

end

/-- `path.with_suffix(path.suffix + ".part")`. -/
def partOf (name : String) : String := name ++ ".part"

/-- Where a download with another checksum is put. -/
def badOf (name : String) : String := name ++ ".bad"

/-- A name without its suffix. -/
def withoutSuffix (name : String) : String :=
  let root := ((name.toList.reverse.dropWhile (· ≠ '.')).drop 1).reverse
  if root = [] ∨ name.toList.getLast? = some '.' then name else .ofList root

/-- `path.with_suffix(".meta4")`. -/
def metaOf (name : String) : String := withoutSuffix name ++ ".meta4"

/-! ### The catalog -/

/-- A link of the catalog; `int` of its length may raise. -/
structure Link where
  type : String
  href : String
  length : Option ℤ

structure Release where
  filename : String
  url : String
  size : ℤ
  release : String
  meta4 : String

/-- The latest release of each book and flavour. -/
abbrev Catalog := String → Option Release

structure Candidate where
  /-- The place of the entry. -/
  index : ℕ
  new : Release
  meaningful : Bool

/-- `url.rsplit("/", 1)[-1]`. -/
def lastPart (url : String) : String :=
  .ofList (url.toList.reverse.takeWhile (· ≠ '/')).reverse

section

variable (digit : Char → Bool)

def addLink (latest : Catalog) (link : Link) : Except Failure Catalog :=
  let url := removesuffix link.href ".meta4"
  let filename := lastPart url
  let rel := release digit filename
  if link.type ≠ "application/x-zim" ∨ rel = "" then .ok latest
  else if (latest (stem digit filename)).all (·.release < rel) then
    match link.length with
    | some size =>
      let meta4 := if ".meta4".toList.isSuffixOf link.href.toList then link.href else ""
      .ok (Function.update latest (stem digit filename) (some ⟨filename, url, size, rel, meta4⟩))
    | none => .error .other
  else .ok latest

/-- `fetch_catalog`, of the links of the catalog. -/
def fetchCatalog (links : List Link) : Except Failure Catalog :=
  links.foldlM (addLink digit) fun _ => none

/-- What there is for one entry; `reached` is whether it has grown by enough. -/
def candidate (reached : ℤ → ℤ → Bool) (catalog : Catalog) (z : Zim) (i : ℕ) : Option Candidate := do
  let _ ← z.sourceUrl
  let new ← catalog (stem digit z.filename)
  if release digit z.filename < new.release then
    let old := z.sizeBytes.getD 0
    let grew := new.size - old
    some ⟨i, new, 0 < grew && reached grew old⟩
  else none

def findUpdates (reached : ℤ → ℤ → Bool) (m : Manifest) (catalog : Catalog) : List Candidate :=
  m.zims.zipIdx.filterMap fun (z, i) => candidate digit reached catalog z i

end

/-! ### The calls -/

inductive GitCommand where
  | commit
  | revParse
  | push

inductive Cmd where
  | readManifest
  | fetchCatalog
  /-- The manifest in memory. -/
  | memory
  | diskFree
  /-- The text of the published checksum. -/
  | published (url : String)
  | exists (name : String)
  /-- `shutil.which("aria2c")`. -/
  | aria2cInstalled
  | retrieve (url name : String)
  | aria2c (name : String)
  | size (name : String)
  /-- The size of a partial download, or 0. -/
  | partSize (name : String)
  /-- A request for what follows the first `skip` bytes. -/
  | request (url : String) (skip : ℕ)
  /-- The body of the response is appended to a file. -/
  | append (name : String)
  | unlink (name : String)
  /-- The download is moved to its place. -/
  | place (name : String)
  | sha256 (name : String)
  /-- A file with another checksum is renamed. -/
  | setAside (name : String)
  | edit (i : ℕ) (e : Edit)
  /-- Whether `libzim` is installed. -/
  | libzim
  | openArchive (name : String)
  | bookName (name : String)
  | uuid (name : String)
  | fulltext (name : String)
  | archiveSize (name : String)
  | now
  | supersede (e : Superseded)
  /-- The manifest is written behind an update. -/
  | writeUpdate (m : Manifest)
  /-- A candidate is reported as failed. -/
  | report (i : ℕ)
  | vmRunning
  /-- A superseded file is deleted. -/
  | delete (e : Superseded) (days : ℤ)
  | keep (l : List Superseded)
  /-- The manifest is written behind the deletions. -/
  | writePruned (m : Manifest)
  /-- Whether a merge, a rebase or a cherry-pick is in progress. -/
  | merging
  | git (c : GitCommand)

@[reducible] def Cmd.Ans : Cmd → Type
  | .readManifest => Except Failure Manifest
  | .fetchCatalog => Except Failure (List Link)
  | .memory => Manifest
  | .diskFree | .size _ | .partSize _ | .archiveSize _ => Except Failure ℕ
  | .published _ | .sha256 _ | .uuid _ => Except Failure String
  | .exists _ | .aria2cInstalled | .libzim | .merging => Bool
  | .aria2c _ | .request .. | .git _ => Except Failure ℤ
  | .bookName _ => Except Failure (Option String)
  | .fulltext _ | .vmRunning => Except Failure Bool
  | .now => ℤ
  | .retrieve .. | .append _ | .unlink _ | .place _ | .setAside _ | .openArchive _ | .supersede _
  | .writeUpdate _ | .delete .. | .writePruned _ => Except Failure Unit
  | .edit .. | .report _ | .keep _ => Unit

abbrev sig : Signature := ⟨Cmd, Cmd.Ans⟩

abbrev Code (α : Type) := Program sig Failure α

def step {α : Type} (c : Cmd) (h : c.Ans = α) : Code α := h ▸ Program.perform (F := sig) c

def tryStep {α : Type} (c : Cmd) (h : c.Ans = Except Failure α) : Code α :=
  attempt (F := sig) c h

/-! ### The download -/

/-- `published_sha256`, of the text. -/
def parseSha256 (text : String) : Except Failure String :=
  let word := (text.toList.dropWhile isSpace).takeWhile fun c => !isSpace c
  if word.length = 64 then .ok (String.ofList word).toLower else .error .other

/-- A server that ignores the range starts again. -/
def restart (name : String) (have_ : ℕ) (status : ℤ) : Code Unit :=
  if have_ ≠ 0 ∧ status = 200 then tryStep (.unlink (partOf name)) rfl else pure ()

/-- What follows a response. -/
def receive (name : String) (size : ℤ) (have_ : ℕ) (status : ℤ) : Code Unit :=
  -- the file is already complete
  if status = 416 ∧ size ≠ 0 ∧ size ≤ have_ then pure ()
  else do
    let () ← restart name have_ status
    if 200 ≤ status ∧ status < 300 then tryStep (.append (partOf name)) rfl else throw .retried

/-- One attempt of a download. -/
def downloadOnce (url name : String) (size : ℤ) : Code Unit := do
  let have_ : ℕ ← tryStep (.partSize name) rfl
  let status : ℤ ← tryStep (.request url have_) rfl
  receive name size have_ status

/-- The attempts that are left. -/
def downloadAll (url name : String) (size : ℤ) : ℕ → Code Unit
  | 0 => throw .retried
  | n + 1 =>
    tryCatch (downloadOnce url name size) fun e =>
      if e = .retried then downloadAll url name size n else throw e

def RETRIES : ℕ := 8

def download (url name : String) (size : ℤ) : Code Unit := do
  let () ← downloadAll url name size RETRIES
  tryStep (.place name) rfl

/-- The download from several mirrors. -/
def downloadMirrors (new : Release) : Code Unit := do
  let () ← tryStep (.retrieve new.meta4 (metaOf new.filename)) rfl
  let code : ℤ ← tryStep (.aria2c new.filename) rfl
  let () ← tryStep (.unlink (metaOf new.filename)) rfl
  if code ≠ 0 then throw .other else pure ()

/-- `_download`. -/
def fetchFile (new : Release) : Code Unit :=
  if new.meta4 ≠ "" ∧ 2 ^ 30 < new.size then do
    let installed : Bool ← step .aria2cInstalled rfl
    if installed then downloadMirrors new else download new.url new.filename new.size
  else download new.url new.filename new.size

/-! ### One book -/

/-- The name of the archive, if it has one. -/
def recordName (i : ℕ) : Option String → Code Unit
  | some book => step (.edit i (.bookName book)) rfl
  | none => pure ()

def recordMetadata (i : ℕ) (name : String) : Code Unit := do
  let installed : Bool ← step .libzim rfl
  if installed then do
    let () ← tryStep (.openArchive name) rfl
    let book : Option String ← tryStep (.bookName name) rfl
    let () ← recordName i book
    let uuid : String ← tryStep (.uuid name) rfl
    let () ← step (.edit i (.uuid uuid)) rfl
    let fulltext : Bool ← tryStep (.fulltext name) rfl
    let () ← step (.edit i (.fulltext fulltext)) rfl
    let size : ℕ ← tryStep (.archiveSize name) rfl
    step (.edit i (.size size)) rfl
  else pure ()

/-- The old file is listed, and the manifest written. -/
def listOld (old : String) : Code Unit := do
  let at_ : ℤ ← step .now rfl
  let () ← tryStep (.supersede ⟨old, some at_⟩) rfl
  let m : Manifest ← step .memory rfl
  tryStep (.writeUpdate m) rfl

/-- The entry is pointed at the new file. -/
def point (c : Candidate) (actual : String) : Code Unit := do
  let m : Manifest ← step .memory rfl
  let size : ℕ ← tryStep (.size c.new.filename) rfl
  let () ← step (.edit c.index (.release c.new.filename c.new.url actual size)) rfl
  let () ← step (.edit c.index .forget) rfl
  let () ← recordMetadata c.index c.new.filename
  listOld ((m.zims[c.index]?.map (·.filename)).getD "")

/-- A file that is not there is fetched. -/
def ensure (new : Release) (there : Bool) : Code Unit := if there then pure () else fetchFile new

/-- The update of one entry. -/
def replace (c : Candidate) : Code Unit := do
  let text : String ← tryStep (.published c.new.url) rfl
  let expected ← Program.lift (parseSha256 text)
  let there : Bool ← step (.exists c.new.filename) rfl
  let () ← ensure c.new there
  let actual : String ← tryStep (.sha256 c.new.filename) rfl
  if actual ≠ expected then do
    let () ← tryStep (.setAside c.new.filename) rfl
    throw .other
  else point c actual

/-! ### A pass -/

structure Options where
  /-- The growth and the old size reach `min_growth_pct` or `min_growth_mb`. -/
  reached : Except Failure (ℤ → ℤ → Bool)
  reserveGb : Except Failure ℤ
  retentionDays : Except Failure ℤ
  dryRun : Bool
  git : String

/-- The candidates that were updated, skipped and failed. -/
structure Report where
  updated : List ℕ
  skipped : List ℕ
  failed : List ℕ

/-- What becomes of a candidate. -/
def consider (opts : Options) (c : Candidate) (r : Report) : Code Report :=
  if !c.meaningful then pure { r with skipped := r.skipped ++ [c.index] }
  else do
    let free : ℕ ← tryStep .diskFree rfl
    let reserve ← Program.lift opts.reserveGb
    if (free : ℤ) < c.new.size + reserve * 2 ^ 30 then
      pure { r with skipped := r.skipped ++ [c.index] }
    else if opts.dryRun then pure { r with updated := r.updated ++ [c.index] }
    else
      tryCatch (do
          let () ← replace c
          pure { r with updated := r.updated ++ [c.index] })
        fun _ => do
          let () ← step (.report c.index) rfl
          pure { r with failed := r.failed ++ [c.index] }

def considerAll (opts : Options) : List Candidate → Report → Code Report
  | [], r => pure r
  | c :: cs, r => do
    let r ← consider opts c r
    considerAll opts cs r

/-- The largest `datetime`, in microseconds since the year 1. -/
def DATETIME_MAX : ℤ := 315537897599999999

def DAY : ℤ := 86400000000

/-- `now - timedelta(days=days)`. -/
def cutoff (now days : ℤ) : Except Failure ℤ :=
  let c := now - days * DAY
  if 0 ≤ c ∧ c ≤ DATETIME_MAX then .ok c else .error .other

/-- The loop of the pruning: what is kept, and whether something was deleted. -/
def pruneAll (zims : List Zim) (cut days : ℤ) (dryRun : Bool) :
    List Superseded → Code (List Superseded × Bool)
  | [] => pure ([], false)
  | e :: es => do
    let at_ ← Program.lift (match e.at? with | some t => .ok t | none => .error Failure.other)
    if at_ ≤ cut ∧ zims.all (·.filename ≠ e.filename) ∧ !dryRun then do
      let () ← tryStep (.delete e days) rfl
      let (keep, _) ← pruneAll zims cut days dryRun es
      pure (keep, true)
    else do
      let (keep, changed) ← pruneAll zims cut days dryRun es
      pure (e :: keep, changed)

def prune (days : ℤ) (dryRun : Bool) : Code Bool := do
  let m : Manifest ← step .memory rfl
  if m.superseded.toList = [] then pure false
  else do
    let running : Bool ← tryStep .vmRunning rfl
    if running then pure false
    else do
      let now : ℤ ← step .now rfl
      let cut ← Program.lift (cutoff now days)
      let (keep, changed) ← pruneAll m.zims cut days dryRun m.superseded.toList
      let () ← step (.keep keep) rfl
      pure changed

def commitManifest (mode : String) : Code String :=
  if mode = "none" then pure "manifest updated (git: none)"
  else do
    let merging : Bool ← step .merging rfl
    if merging then pure "manifest updated but NOT committed (merge/rebase in progress)"
    else do
      let code : ℤ ← tryStep (.git .commit) rfl
      if code ≠ 0 then pure "manifest updated but commit FAILED"
      else do
        let _ : ℤ ← tryStep (.git .revParse) rfl
        if mode ≠ "push" then pure "manifest committed (not pushed)"
        else do
          let code : ℤ ← tryStep (.git .push) rfl
          if code ≠ 0 then pure "manifest committed, push FAILED (kept locally)"
          else pure "manifest committed and pushed"

/-- The manifest is written if something was deleted. -/
def savePruned (pruned : Bool) : Code Unit :=
  if pruned then do
    let m : Manifest ← step .memory rfl
    tryStep (.writePruned m) rfl
  else pure ()

/-- What follows the candidates. -/
def finish (opts : Options) (r : Report) : Code (Report × String) := do
  let days ← Program.lift opts.retentionDays
  let pruned ← prune days opts.dryRun
  let () ← savePruned pruned
  if !opts.dryRun && (r.updated ≠ [] || pruned) then do
    let text ← commitManifest opts.git
    pure (r, text)
  else pure (r, "")

/-- `run`: one pass. -/
def run (digit : Char → Bool) (opts : Options) : Code (Report × String) := do
  let m : Manifest ← tryStep .readManifest rfl
  let links : List Link ← tryStep .fetchCatalog rfl
  let catalog ← Program.lift (fetchCatalog digit links)
  let reached ← Program.lift opts.reached
  let r ← considerAll opts (findUpdates digit reached m catalog) ⟨[], [], []⟩
  finish opts r

/-! ### What the calls do -/

/-- A name of a file in the folder itself. -/
def Plain (name : String) : Prop := '/' ∉ name.toList ∧ name ∉ ["", ".", ".."]

/-- The hash function, and the file below the artifact folder that a name leads to. -/
structure Host where
  sha256 : Bytes → String
  locate : String → String
  locate_plain : ∀ name, Plain name → locate name = name

/-- A deletion by the pruning: what the manifest said, and whether a kiwix VM ran. -/
structure Deletion where
  filename : String
  manifest : Option Manifest
  now : ℤ
  days : ℤ
  running : Bool

/-- The manifest and the files; behind them, the passes so far. -/
structure State where
  /-- The manifest file, if it can be read. -/
  manifest : Option Manifest
  /-- The manifest in memory. -/
  memory : Manifest
  files : String → Option Bytes
  now : ℤ
  /-- A kiwix VM ran when the pruning looked, and one has been started since. -/
  running : Bool
  started : Bool
  /-- The manifest before the first pass, those that were written, and the one that the pass read. -/
  first : Manifest
  history : List Manifest
  opened : Manifest
  /-- The entries of the candidates that the pass has reported as failed. -/
  failed : List ℕ
  deleted : List Deletion

def State.setFile (s : State) (path : String) (c : Option Bytes) : State :=
  { s with files := Function.update s.files path c }

/-- What `manifest.setdefault("superseded", []).append` makes of the manifest. -/
def Manifest.supersede (m : Manifest) (e : Superseded) : Option Manifest :=
  match m.superseded with
  | .absent => some { m with superseded := .items [e] }
  | .items l => some { m with superseded := .items (l ++ [e]) }
  | .other => none

/-- The manifest has been written; a write that fails may leave the file empty. -/
def Wrote (s : State) (m : Manifest) : Except Failure Unit → State → Prop
  | .ok (), s' => s' = { s with manifest := some m, history := m :: s.history }
  | .error _, s' => s' = s ∨ s' = { s with manifest := none }

def exec (H : Host) (s : State) : (c : Cmd) → c.Ans → State → Prop
  | .readManifest, .ok m, s' =>
    s.manifest = some m ∧ s' = { s with memory := m, opened := m, failed := [] }
  | .readManifest, .error _, s' => s' = s
  | .memory, m, s' => m = s.memory ∧ s' = s
  | .exists name, b, s' => b = (s.files (H.locate name)).isSome ∧ s' = s
  | .size name, a, s' | .archiveSize name, a, s' =>
    (∀ n, a = .ok n → ∃ c, s.files (H.locate name) = some c ∧ n = c.length) ∧ s' = s
  | .partSize name, a, s' =>
    (∀ n, a = .ok n → n = ((s.files (H.locate (partOf name))).getD []).length) ∧ s' = s
  | .sha256 name, a, s' =>
    (∀ h, a = .ok h → ∃ c, s.files (H.locate name) = some c ∧ h = H.sha256 c) ∧ s' = s
  | .retrieve _ name, _, s' | .aria2c name, _, s' => ∃ c, s' = s.setFile (H.locate name) c
  | .append name, _, s' =>
    ∃ c, s' = s.setFile (H.locate name) (some ((s.files (H.locate name)).getD [] ++ c))
  | .unlink name, .ok (), s' => s' = s.setFile (H.locate name) none
  | .place name, .ok (), s' =>
    s' = (s.setFile (H.locate name) (s.files (H.locate (partOf name)))).setFile
      (H.locate (partOf name)) none
  | .setAside name, .ok (), s' =>
    s' = (s.setFile (H.locate (badOf name)) (s.files (H.locate name))).setFile (H.locate name) none
  | .unlink _, .error _, s' | .place _, .error _, s' | .setAside _, .error _, s' => s' = s
  | .edit i e, _, s' => s' = { s with memory := s.memory.edit i e }
  | .supersede e, a, s' =>
    match s.memory.supersede e with
    | some m => a = .ok () ∧ s' = { s with memory := m }
    | none => (∀ u, a ≠ .ok u) ∧ s' = s
  | .writeUpdate m, a, s' | .writePruned m, a, s' => Wrote s m a s'
  | .report i, _, s' => s' = { s with failed := i :: s.failed }
  | .now, t, s' => ∃ b, s' = { s with now := t, started := b }
  | .vmRunning, .ok b, s' => s' = { s with running := b, started := false }
  | .vmRunning, .error _, s' => s' = s
  | .delete e days, .ok (), s' => ∃ b, s' = { s with
      files := Function.update s.files (H.locate e.filename) none
      started := b
      deleted := ⟨e.filename, s.manifest, s.now, days, s.running || s.started⟩ :: s.deleted }
  | .delete _ _, .error _, s' => ∃ b, s' = { s with started := b }
  | .keep l, _, s' => s' = { s with memory := { s.memory with superseded := .items l } }
  | .fetchCatalog, _, s' | .diskFree, _, s' | .published _, _, s' | .aria2cInstalled, _, s'
  | .request .., _, s' | .libzim, _, s' | .openArchive _, _, s' | .bookName _, _, s'
  | .uuid _, _, s' | .fulltext _, _, s' | .merging, _, s' | .git _, _, s' => s' = s

/-! ### The promises -/

/-- The entry names a file that is present, with the recorded size and checksum. -/
def Zim.Present (H : Host) (files : String → Option Bytes) (z : Zim) : Prop :=
  ∃ c, files (H.locate z.filename) = some c ∧ z.sizeBytes = some (c.length : ℤ) ∧
    z.sha256 = some (H.sha256 c)

/-- **What is allowed to the pruning:** the file is listed, past retention and named by no entry,
and no kiwix VM runs. -/
def Deletion.Allowed (H : Host) (d : Deletion) : Prop :=
  d.running = false ∧ ∃ m, d.manifest = some m ∧
    (∃ e ∈ m.superseded.toList, e.filename = d.filename ∧
      ∃ t, e.at? = some t ∧ t + d.days * DAY ≤ d.now) ∧
    ∀ z ∈ m.zims, H.locate z.filename ≠ H.locate d.filename

/-- The file is listed, or has been deleted by the pruning. -/
def Accounted (deleted : List Deletion) (m : Manifest) (filename : String) : Prop :=
  (∃ e ∈ m.superseded.toList, e.filename = filename) ∨ ∃ d ∈ deleted, d.filename = filename

/-- **What is promised at every moment.** -/
structure Promises (H : Host) (s : State) : Prop where
  /-- An entry that is no longer the first one was written by a pass. -/
  truthful : ∀ m : Manifest, s.manifest = some m → ∀ (i : ℕ) (z : Zim), m.zims[i]? = some z →
    s.first.zims[i]? ≠ some z → z.Present H s.files
  /-- No file that an entry was moved away from is lost. -/
  accounted : ∀ m : Manifest, s.manifest = some m → ∀ old ∈ s.history, ∀ (i : ℕ) (z z' : Zim),
    old.zims[i]? = some z → m.zims[i]? = some z' → z.filename ≠ z'.filename →
      Accounted s.deleted m z.filename
  /-- A candidate that failed has its entry as it was. -/
  left : ∀ i ∈ s.failed, s.memory.zims[i]? = s.opened.zims[i]? ∧
    ∀ m : Manifest, s.manifest = some m → m.zims[i]? = s.opened.zims[i]?
  allowed : ∀ d ∈ s.deleted, d.Allowed H

/-- Passes are run; they may be killed. -/
def Runs (digit : Char → Bool) : Move sig Failure (Report × String) Unit → Prop
  | .start _ p => ∃ opts, p = run digit opts
  | _ => True

/-- Nothing fails between the change of an entry and the write of the manifest, and no write of
the manifest fails; a file with another checksum is named by no entry; names of one file in the
manifest are the same; no kiwix VM is started while files are deleted. -/
def Steady (H : Host) (s : State) : Move sig Failure (Report × String) Unit → Prop
  | .call _ (.openArchive _) a => a = .ok ()
  | .call _ (.bookName _) a => ∃ b, a = .ok b
  | .call _ (.uuid _) a => ∃ u, a = .ok u
  | .call _ (.fulltext _) a => ∃ b, a = .ok b
  | .call _ (.archiveSize _) a => ∃ n, a = .ok n
  | .call _ (.supersede _) _ => s.memory.superseded ≠ .other
  | .call _ (.writeUpdate _) a | .call _ (.writePruned _) a => a = .ok ()
  | .call _ (.setAside name) _ => ∀ z ∈ s.memory.zims, H.locate z.filename ≠ H.locate name
  | .call _ (.delete e _) _ => s.started = false ∧
      ∀ z ∈ s.memory.zims, H.locate z.filename = H.locate e.filename → z.filename = e.filename
  | _ => True

/-- Before the first pass. -/
def State.init (m : Manifest) (files : String → Option Bytes) : State :=
  ⟨some m, m, files, 0, false, false, m, [m], m, [], []⟩

end Kiwix
end CloudCore
