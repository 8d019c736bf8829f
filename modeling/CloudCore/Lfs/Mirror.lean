import CloudCore.Effect.Pool
import CloudCore.Effect.Sequential
import Mathlib.Data.Int.Notation
import Mathlib.Logic.Function.Basic

/-!
# The mirror of the LFS sources

`lfs-mirror.py`.  One process runs at a time and may be killed between two commands; a transfer
that is cut off leaves what was received.  Files are found by their path below the output folder,
`MIRROR.json` apart.  The hashes and `gpg` are parameters.

## Main definitions

* `download`, `mirrorOne`, `main` — the program.
* `exec` — what the commands do.
* `Promises` — what is promised in every state.
* `Faithful` — a first download is what its source has, and a file that is present was placed for
  the same checksum.
-/

namespace CloudCore
namespace Mirror

open Effect
open Effect.Program (attempt)

/-! ### The data -/

abbrev Bytes := List UInt8

/-- An entry of the manifest; `md5` is empty where nothing is published. -/
structure Entry where
  file : String
  set : String
  url : String
  md5 : String
  checksumSource : String

structure Manifest where
  lfsVersion : String
  blfsVersion : String
  kernel : String
  files : List Entry

/-- What `verified` says, in short; `replaced` where the copy before did not match. -/
inductive How where
  | md5 (source : String) (replaced : Bool)
  | pgp (replaced : Bool)
  | matchesFirst (replaced : Bool)
  | first (replaced : Bool)
  deriving DecidableEq

/-- The record of a file; the time is left out. -/
structure Record where
  sha256 : String
  size : ℕ
  verified : How
  source : String
  deriving DecidableEq

/-- `MIRROR.json`. -/
abbrev Lock := String → Option Record

structure Args where
  set : Option String
  dryRun : Bool

/-- The exceptions, as far as the program tells them apart: `OSError` (where JSON is read also
`ValueError`), `RuntimeError`, those of `subprocess`, and what nobody catches. -/
inductive Failure where
  | os
  | runtime
  | subprocess
  | other
  deriving DecidableEq

/-- What a file is downloaded for; the code does not look at it. -/
inductive Purpose where
  | published
  | first
  | signature
  deriving DecidableEq

inductive Reply where
  | httpError (code : ℤ)
  | response (status : ℤ)

/-- A transfer: what the source has, what is received of it, and how it ends. -/
structure Transfer where
  body : Bytes
  received : Bytes
  ended : Except Failure Unit

/-! ### The commands -/

inductive Cmd where
  | readManifest (args : Args)
  | readMirror
  | exists (path : String)
  /-- The size of a file, or 0. -/
  | size (path : String)
  /-- The hash of the file that is present for an entry. -/
  | present (entry : Entry) (path sha256 : String)
  | sha256 (path : String)
  | md5 (path : String)
  | mkdir (dir : String)
  /-- `urlopen`, to go on with a partial download. -/
  | request (url part : String) (purpose : Purpose)
  /-- `copyfileobj`. -/
  | copy (url path : String) (append : Bool) (purpose : Purpose)
  /-- `kernel_signature_ok`. -/
  | verify (tarball sig : String)
  | unlink (path : String)
  /-- A signature is moved to its place. -/
  | replace (src dst : String)
  /-- The file of an entry is; `known` is the hash that is recorded. -/
  | place (entry : Entry) (known : Option String) (src dst : String)
  | writeMirror (lock : Lock)
  | writeManifest

@[reducible] def Cmd.Ans : Cmd → Type
  | .readManifest _ => Except Failure Manifest
  | .readMirror => Except Failure Lock
  | .exists _ => Bool
  | .size _ => Except Failure ℕ
  | .present .. | .sha256 _ | .md5 _ => Except Failure String
  | .request .. => Except Failure Reply
  | .copy .. => Transfer
  | .verify .. => Except Failure Bool
  | .mkdir _ | .unlink _ | .replace .. | .place .. | .writeMirror _ | .writeManifest =>
    Except Failure Unit

abbrev sig : Signature := ⟨Cmd, Cmd.Ans⟩

abbrev Code (α : Type) := Program sig Failure α

def step {α : Type} (c : Cmd) (h : c.Ans = α) : Code α := h ▸ Program.perform (F := sig) c

def tryStep {α : Type} (c : Cmd) (h : c.Ans = Except Failure α) : Code α :=
  attempt (F := sig) c h

/-! ### The program -/

/-- `path.with_name(path.name + ".part")`. -/
def partOf (path : String) : String := path ++ ".part"

/-- `target_dir`, below the output folder. -/
def targetDir (e : Entry) (m : Manifest) : String :=
  if e.set = "lfs" then m.lfsVersion
  else if e.set = "kernel" then "kernel"
  else if e.set = "books" then "books"
  else "blfs-" ++ m.blfsVersion

/-- The place of an entry's file, which is its key in `MIRROR.json` too. -/
def destOf (e : Entry) (m : Manifest) : String := targetDir e m ++ "/" ++ e.file

/-- `text.removesuffix(".xz")`. -/
def removeXz (text : String) : String :=
  if ".xz".toList.isSuffixOf text.toList then .ofList (text.toList.take (text.toList.length - 3))
  else text

/-- The place of a kernel's signature. -/
def sigOf (e : Entry) (m : Manifest) : String := targetDir e m ++ "/" ++ (removeXz e.file ++ ".sign")

def lfsMirror (version file : String) : String :=
  "https://ftp.osuosl.org/pub/lfs/lfs-packages/" ++ version ++ "/" ++ file

def urlsOf (e : Entry) (m : Manifest) : List String :=
  (if e.set = "lfs" then [lfsMirror m.lfsVersion e.file] else []) ++ [e.url]

inductive Fetched where
  | done
  | missing
  | again

/-- The body of a response. -/
def receive (url part : String) (append : Bool) (purpose : Purpose) : Code Fetched := do
  let t : Transfer ← step (.copy url part append purpose) rfl
  match t.ended with
  | .ok () => pure .done
  | .error e => throw e

/-- One attempt. -/
def fetch (url part : String) (purpose : Purpose) : Code Fetched := do
  let have_ : ℕ ← tryStep (.size part) rfl
  tryCatch (do
      let reply : Reply ← tryStep (.request url part purpose) rfl
      match reply with
      | .httpError code =>
        if code = 416 then pure .done else if code = 404 then pure .missing else pure .again
      | .response status => receive url part (have_ ≠ 0 && status = 206) purpose)
    fun e => if e = .os then pure .again else throw e

/-- The attempts from one source; whether it worked. -/
def fetchAll (url part : String) (purpose : Purpose) : ℕ → Code Bool
  | 0 => pure false
  | n + 1 => do
    let r ← fetch url part purpose
    match r with
    | .done => pure true
    | .missing => pure false
    | .again => fetchAll url part purpose n

/-- `download`, into the `.part` of a file. -/
def download (part : String) (purpose : Purpose) : List String → Code String
  | [] => throw .runtime
  | url :: urls => do
    let ok ← fetchAll url part purpose 3
    if ok then pure url else download part purpose urls

/-- What an entry's file is downloaded for. -/
def purposeOf (e : Entry) (known : Option Record) : Purpose :=
  if e.md5 = "" ∧ e.set ≠ "kernel" ∧ known = none then .first else .published

/-- The file is moved to its place and recorded. -/
def settle (e : Entry) (m : Manifest) (lock : Lock) (sha source : String) (how : How) :
    Code (Bool × Lock) := do
  let () ← tryStep (.place e ((lock (destOf e m)).map (·.sha256)) (partOf (destOf e m)) (destOf e m)) rfl
  let size : ℕ ← tryStep (.size (destOf e m)) rfl
  pure (true, Function.update lock (destOf e m) (some ⟨sha, size, how, source⟩))

/-- A file that did not pass. -/
def discard (part : String) (lock : Lock) : Code (Bool × Lock) := do
  let () ← tryStep (.unlink part) rfl
  pure (false, lock)

/-- The signature of a kernel is fetched and checked. -/
def signature (e : Entry) (m : Manifest) : Code Bool := do
  let _ ← download (partOf (sigOf e m)) .signature [removeXz e.url ++ ".sign"]
  let () ← tryStep (.replace (partOf (sigOf e m)) (sigOf e m)) rfl
  tryStep (.verify (partOf (destOf e m)) (sigOf e m)) rfl

/-- The verification of a download. -/
def check (e : Entry) (m : Manifest) (lock : Lock) (sha source : String) (replaced : Bool) :
    Code (Bool × Lock) :=
  let part := partOf (destOf e m)
  if e.md5 ≠ "" then do
    let got : String ← tryStep (.md5 part) rfl
    if got ≠ e.md5 then discard part lock
    else settle e m lock sha source (.md5 e.checksumSource replaced)
  else if e.set = "kernel" then do
    let ok ← signature e m
    if ok then settle e m lock sha source (.pgp replaced) else discard part lock
  else
    match lock (destOf e m) with
    | some known =>
      if sha ≠ known.sha256 then discard part lock
      else settle e m lock sha source (.matchesFirst replaced)
    | none => settle e m lock sha source (.first replaced)

/-- A file that is not present, or does not match. -/
def renew (e : Entry) (m : Manifest) (lock : Lock) (dryRun replaced : Bool) : Code (Bool × Lock) :=
  if dryRun then pure (true, lock)
  else do
    let () ← tryStep (.mkdir (targetDir e m)) rfl
    let source ← download (partOf (destOf e m)) (purposeOf e (lock (destOf e m))) (urlsOf e m)
    let sha : String ← tryStep (.sha256 (partOf (destOf e m))) rfl
    check e m lock sha source replaced

/-- `mirror_one`; whether it went well, and the records after it. -/
def mirrorOne (e : Entry) (m : Manifest) (lock : Lock) (dryRun : Bool) : Code (Bool × Lock) := do
  let present : Bool ← step (.exists (destOf e m)) rfl
  match present, lock (destOf e m) with
  | true, some known => do
    let sha : String ← tryStep (.present e (destOf e m) known.sha256) rfl
    if sha = known.sha256 then pure (true, lock) else renew e m lock dryRun true
  | _, _ => renew e m lock dryRun false

/-- The records are written after an entry that went well. -/
def record (dryRun : Bool) (r : Bool × Lock) : Code Unit :=
  if r.1 && !dryRun then tryStep (.writeMirror r.2) rfl else pure ()

/-- The loop over the entries; whether one failed. -/
def mirrorAll (m : Manifest) (dryRun : Bool) : List Entry → Lock → Bool → Code Bool
  | [], _, failed => pure failed
  | e :: es, lock, failed => do
    let r ← tryCatch (mirrorOne e m lock dryRun)
      fun f => if f = .other then throw f else pure (false, lock)
    let () ← record dryRun r
    mirrorAll m dryRun es r.2 (failed || !r.1)

/-- The entries of a run. -/
def selected (args : Args) (m : Manifest) : List Entry :=
  match args.set with
  | some set => if set = "" then m.files else m.files.filter (·.set = set)
  | none => m.files

/-- What follows the manifest. -/
def mirror (args : Args) (m : Manifest) : Code ℕ := do
  let lock : Lock ← tryCatch (tryStep .readMirror rfl) fun f => if f = .os then pure fun _ => none else throw f
  let failed ← mirrorAll m args.dryRun (selected args m) lock false
  if failed then pure 1
  else if args.dryRun then pure 0
  else do
    let () ← tryStep .writeManifest rfl
    pure 0

/-- `main`; the exit code. -/
def main (args : Args) : Code ℕ := do
  let manifest ← tryCatch (do
      let m : Manifest ← tryStep (.readManifest args) rfl
      pure (some m))
    fun f => if f = .os then pure none else throw f
  match manifest with
  | some m => mirror args m
  | none => pure 2

/-! ### What the commands do -/

/-- The hash functions, and the signatures of the pinned keys. -/
structure Host where
  md5 : Bytes → String
  sha256 : Bytes → String
  signed : Bytes → Bytes → Prop

/-- How a file came to its place: for which entry, with which contents, and the hash that was
recorded before. -/
structure Placement where
  entry : Entry
  content : Bytes
  known : Option String

/-- The files and `MIRROR.json`; what was placed, what the sources have served, and the run. -/
structure State where
  files : String → Option Bytes
  mirror : Option Lock
  placed : String → Option Placement
  served : List (String × Bytes)
  run : Option (Args × Manifest)

def State.move (s : State) (src dst : String) : String → Option Bytes :=
  Function.update (Function.update s.files dst (s.files src)) src none

/-- What a transfer leaves in a file. -/
def State.received (s : State) (path : String) (append : Bool) (t : Transfer) : Bytes :=
  (if append then (s.files path).getD [] else []) ++ t.received

def exec (H : Host) (s : State) : (c : Cmd) → c.Ans → State → Prop
  | .readManifest args, .ok m, s' => s' = { s with run := some (args, m) }
  | .readManifest _, .error _, s' => s' = { s with run := none }
  | .readMirror, a, s' => (∀ lock, a = .ok lock → s.mirror = some lock) ∧ s' = s
  | .exists path, b, s' => b = (s.files path).isSome ∧ s' = s
  | .size _, _, s' => s' = s
  | .present _ path _, a, s' => (∀ h, a = .ok h → ∃ c, s.files path = some c ∧ h = H.sha256 c) ∧ s' = s
  | .sha256 path, a, s' => (∀ h, a = .ok h → ∃ c, s.files path = some c ∧ h = H.sha256 c) ∧ s' = s
  | .md5 path, a, s' => (∀ h, a = .ok h → ∃ c, s.files path = some c ∧ h = H.md5 c) ∧ s' = s
  | .mkdir _, _, s' => s' = s
  | .request .., _, s' => s' = s
  | .copy url path append _, t, s' => s' = { s with
      files := Function.update s.files path (some (s.received path append t))
      served := (url, t.body) :: s.served }
  | .verify tarball sig, a, s' => (a = .ok true → ∃ c d, s.files tarball = some c ∧
      s.files sig = some d ∧ H.signed c d) ∧ s' = s
  | .unlink path, .ok (), s' => s' = { s with files := Function.update s.files path none }
  | .replace src dst, .ok (), s' => s' = { s with files := s.move src dst }
  | .place entry known src dst, .ok (), s' => ∃ c, s.files src = some c ∧
      s' = { s with
        files := s.move src dst
        placed := Function.update s.placed dst (some ⟨entry, c, known⟩) }
  | .writeMirror lock, .ok (), s' => s' = { s with mirror := some lock }
  | .writeManifest, _, s' => s' = s
  | .unlink _, .error _, s' | .replace .., .error _, s' | .place .., .error _, s' => s' = s
  | .writeMirror _, .error _, s' => s' = s

/-- A partial download. -/
def IsPart (path : String) : Prop := ".part".toList <:+ path.toList

/-- The place of a file of an entry: neither a partial download nor a signature. -/
def Final (path : String) : Prop := ¬IsPart path ∧ ¬".sign".toList <:+ path.toList

/-- A file that is not named like a partial download or a signature; a kernel without an MD5. -/
def Entry.Plain (e : Entry) (m : Manifest) : Prop :=
  Final (destOf e m) ∧ (e.set = "kernel" → e.md5 = "")

/-- What is published for an entry says that these are the contents. -/
def Entry.Published (H : Host) (e : Entry) (c : Bytes) : Prop :=
  (e.md5 ≠ "" → H.md5 c = e.md5) ∧ (e.set = "kernel" → ∃ d, H.signed c d)

/-- The verification of an entry, in the run that placed its file. -/
def Placement.Passed (H : Host) (p : Placement) : Prop :=
  p.entry.Published H p.content ∧
    (p.entry.md5 = "" → p.entry.set ≠ "kernel" → ∀ sha, p.known = some sha → H.sha256 p.content = sha)

/-- `verified` says that it was the first download. -/
def How.IsFirst : How → Prop
  | .first _ => True
  | _ => False

/-- **What is promised of a state.** -/
structure Promises (H : Host) (s : State) : Prop where
  /-- A file at its place passed the verification in the run that placed it. -/
  placed : ∀ path c, Final path → s.files path = some c →
    ∃ p, s.placed path = some p ∧ p.content = c ∧ p.Passed H
  /-- A first download is one body, as the source served it. -/
  whole : ∀ lock path rec c, s.mirror = some lock → lock path = some rec → rec.verified.IsFirst →
    s.files path = some c → H.sha256 c = rec.sha256 → (rec.source, c) ∈ s.served

/-- **What exit code 0 promises** of the entries of a run. -/
def Complete (H : Host) (s : State) : Prop :=
  ∀ args m, s.run = some (args, m) → args.dryRun = false → ∀ e ∈ selected args m,
    ∃ lock rec c, s.mirror = some lock ∧ lock (destOf e m) = some rec ∧
      s.files (destOf e m) = some c ∧ H.sha256 c = rec.sha256 ∧ e.Published H c

/-- The program is run; it may be killed. -/
def Runs : Move sig Failure ℕ Unit → Prop
  | .start _ p => ∃ args, p = main args
  | _ => True

/-- The entries of a run are plain; a first download is what its source has, when it ends, and
what its source had, where nothing is left to ask for; a file that is present was placed for the
same checksum or signature, or has it as well. -/
def Faithful (H : Host) (s : State) : Move sig Failure ℕ Unit → Prop
  | .call _ (.readManifest args) (.ok m) => ∀ e ∈ selected args m, e.Plain m
  | .call _ (.request url part .first) (.ok (.httpError code)) =>
      code = 416 → ∃ c, s.files part = some c ∧ (url, c) ∈ s.served
  | .call _ (.copy _ path append .first) t => t.ended = .ok () → s.received path append t = t.body
  | .call _ (.present e path sha) _ => ∀ p c, s.placed path = some p → s.files path = some c →
      H.sha256 c = sha → (e.md5 ≠ "" → p.entry.md5 = e.md5 ∨ H.md5 c = e.md5) ∧
        (e.set = "kernel" → p.entry.set = "kernel" ∨ ∃ d, H.signed c d)
  | _ => True

/-- Only partial downloads are there. -/
def State.init (parts : String → Option Bytes) : State := ⟨parts, none, fun _ => none, [], none⟩

end Mirror
end CloudCore
