import CloudCore.Python.OrderedDict
import CloudCore.Python.Text
import CloudCore.Sync.Download

/-!
# Pulling a repository

`cmd_pull` of `sync-package-repo.py`: the files of the index of the source, verified or downloaded.
The index, the cache of hashes and the free space are arguments; the directories and what is written
back to the cache are left out.

## Main definitions

* `cmdPull` — the code.
* `Index.Plain` — the index names each file once, no `.part` file of another one, and in the spelling
  of `served_files`, if what is not in it is deleted.

## Main results

* `fetchAll_right` — what is right stays right, and what is downloaded becomes right.
* `pull_right` — **a pulled file is the right file.**
-/

namespace CloudCore
namespace SyncRepo

open Python

/-! ### Files -/

/-- A path under the repository. -/
structure Path where
  parts : List String
  deriving DecidableEq

structure File where
  content : Bytes
  mtime : ℕ
  deriving DecidableEq

abbrev FS := List (Path × File)

/-- `Path(rel)`, of a relative path. -/
def Path.of (rel : String) : Path where
  parts :=
    ((rel.toList.splitOn '/').filter fun part => !part.isEmpty && part != ['.']).map String.ofList

/-- `as_posix()`. -/
def Path.asPosix (p : Path) : String := .intercalate "/" p.parts

def Path.name (p : Path) : String := p.parts.getLastD ""

/-- `dest.with_name(dest.name + ".part")`. -/
def Path.part (p : Path) : Path := ⟨p.parts.dropLast ++ [p.name ++ ".part"]⟩

def remove (fs : FS) (p : Path) : FS := fs.filter (·.1 ≠ p)

def SERVED_DIRS : List String := ["apt-repo", "artifacts"]

def HEADROOM : ℤ := 20 * 1024 ^ 3

def servedFiles (fs : FS) : List Path :=
  (fs.map (·.1)).filter fun p =>
    SERVED_DIRS.contains (p.parts.headD "") && !(".part".toList.isSuffixOf p.name.toList)

variable {δ : Type} [DecidableEq δ] (sha256 : Bytes → δ)

/-! ### The code -/

/-- An entry of the index. -/
structure Meta (δ : Type) where
  size : ℤ
  sha256 : δ
  deriving DecidableEq

abbrev Index (δ : Type) := List (String × Meta δ)

/-- An entry of the cache. -/
structure Entry (δ : Type) where
  size : ℕ
  mtime : ℕ
  sha256 : δ

def cachedSha (cache : String → Option (Entry δ)) (rel : String) (f : File) : δ :=
  match cache rel with
  | some hit => if hit.size = f.content.length ∧ hit.mtime = f.mtime then hit.sha256 else sha256 f.content
  | none => sha256 f.content

/-- The file is there, as the index has it. -/
def verified (cache : String → Option (Entry δ)) (fs : FS) (e : String × Meta δ) : Bool :=
  match fs.lookup (.of e.1) with
  | none => false
  | some f => f.content.length = e.2.size && cachedSha sha256 cache e.1 f = e.2.sha256

/-- The download of a file of the index, at some time. -/
def downloadTo (env : Env) (now : ℕ) (fs : FS) (e : String × Meta δ) : FS × Option Failure :=
  let p := Path.of e.1
  let o := download sha256 env e.2.size e.2.sha256 ((fs.lookup p).map File.content)
    ((fs.lookup p.part).map File.content)
  let fs :=
    match o.error, o.dest with
    | none, some content => OrderedDict.setLast fs p ⟨content, now⟩
    | _, _ => fs
  (match o.part with
    | none => remove fs p.part
    | some content => OrderedDict.setLast fs p.part ⟨content, now⟩,
    o.error)

/-- The downloads, with those that fail; nothing, if an exception gets out. -/
def fetchAll (env : String → Env) (now : ℕ) : Index δ → FS → FS × Option (List String)
  | [], fs => (fs, some [])
  | e :: todo, fs =>
    let r := downloadTo sha256 (env e.1) now fs e
    match r.2 with
    | some .uncaught => (r.1, none)
    | some .osError =>
      let later := fetchAll env now todo r.1
      (later.1, later.2.map (e.1 :: ·))
    | none => fetchAll env now todo r.1

/-- The deletion of what is not in the index; nothing, if a file has gone. -/
def pruneAll : List Path → FS → Option FS
  | [], fs => some fs
  | p :: extras, fs => if (fs.lookup p).isNone then none else pruneAll extras (remove fs p)

inductive Exit where
  | returned (code : ℕ) (fs : FS)
  | raised (fs : FS)
  deriving DecidableEq

/-- What the index asks of the code. -/
inductive Asked where
  | fine
  | refused
  | raised

/-- The check of the paths of the index; `parts[0]` of an empty path raises. -/
def checkPaths : Index δ → Asked
  | [] => .fine
  | e :: files =>
    if startswith e.1 "/" || (Path.of e.1).parts.contains ".." then .refused
    else
      match (Path.of e.1).parts with
      | [] => .raised
      | d :: _ => if SERVED_DIRS.contains d then checkPaths files else .refused

structure Args where
  dryRun : Bool
  prune : Bool

/-- The bytes that are still to be fetched. -/
def needed (fs : FS) (todo : Index δ) : ℤ :=
  (todo.map fun e => e.2.size).sum -
    (todo.map fun e => (((fs.lookup (.of (e.1 ++ ".part"))).map fun f => f.content.length).getD 0 : ℤ)).sum

/-- `cmd_pull`, from where the index is there. -/
def pullFiles (args : Args) (env : String → Env) (now : ℕ) (free : ℤ)
    (cache : String → Option (Entry δ)) (files : Index δ) (fs : FS) : Exit :=
  let todo := (files.mergeSort fun a b => a.1 ≤ b.1).filter fun e => !verified sha256 cache fs e
  let extras := (servedFiles fs).filter fun p => !(files.map (·.1)).contains p.asPosix
  if free < needed fs todo + HEADROOM then .returned 3 fs
  else if args.dryRun then .returned 0 fs
  else
    let r := fetchAll sha256 env now (todo.mergeSort fun a b => a.2.size ≤ b.2.size) fs
    match r.2 with
    | none => .raised r.1
    | some failed =>
      match if args.prune then pruneAll extras r.1 else some r.1 with
      | none => .raised r.1
      | some fs => .returned (if failed.isEmpty then 0 else 1) fs

/-- `cmd_pull`; without an index it ends with 2. -/
def cmdPull (args : Args) (env : String → Env) (now : ℕ) (free : ℤ)
    (cache : String → Option (Entry δ)) (index : Option (Index δ)) (fs : FS) : Exit :=
  match index with
  | none => .returned 2 fs
  | some files =>
    match checkPaths files with
    | .refused => .returned 2 fs
    | .raised => .raised fs
    | .fine => pullFiles sha256 args env now free cache files fs

/-! ### What a pull should do -/

/-- The file of an entry is there, with its size and its hash. -/
def Present (fs : FS) (e : String × Meta δ) : Prop :=
  ∃ f, fs.lookup (.of e.1) = some f ∧ Right sha256 e.2.size e.2.sha256 f.content

/-- What the cache has of a file with the size and the time of the entry is its hash. -/
def CacheRight (cache : String → Option (Entry δ)) (files : Index δ) (fs : FS) : Prop :=
  ∀ e ∈ files, ∀ f hit, fs.lookup (.of e.1) = some f → cache e.1 = some hit →
    hit.size = f.content.length → hit.mtime = f.mtime → hit.sha256 = sha256 f.content

/-- The index names each file once, and no `.part` file of another one.  Where the other files are
deleted, it spells a path as `served_files` does. -/
structure Index.Plain (files : Index δ) (prune : Bool) : Prop where
  once : ∀ e ∈ files, ∀ e' ∈ files, Path.of e.1 = Path.of e'.1 → e.2 = e'.2
  apart : ∀ e ∈ files, ∀ e' ∈ files, Path.of e.1 ≠ (Path.of e'.1).part
  spelled : prune = true → ∀ e ∈ files, (Path.of e.1).asPosix = e.1

/-! ### One file -/

section

variable {sha256} {env : Env} {now : ℕ} {fs : FS} {e : String × Meta δ} {q : Path}

/-- A download touches its file and the `.part` file. -/
theorem lookup_downloadTo (hq : q ≠ Path.of e.1) (hpart : q ≠ (Path.of e.1).part) :
    (downloadTo sha256 env now fs e).1.lookup q = fs.lookup q := by
  unfold downloadTo
  dsimp only
  -- first the file, then the `.part` file
  have hfile {error : Option Failure} {dest : Option Bytes} :
      (match error, dest with
        | none, some content => OrderedDict.setLast fs (.of e.1) ⟨content, now⟩
        | _, _ => fs).lookup q = fs.lookup q := by
    split
    · exact OrderedDict.lookup_setLast_of_ne fs _ hq
    · rfl
  split
  · exact (OrderedDict.lookup_filter_of_ne _ hpart).trans hfile
  · exact (OrderedDict.lookup_setLast_of_ne _ _ hpart).trans hfile

theorem lookup_downloadTo_self (hapart : Path.of e.1 ≠ (Path.of e.1).part) :
    (downloadTo sha256 env now fs e).1.lookup (.of e.1) =
      match (download sha256 env e.2.size e.2.sha256 ((fs.lookup (.of e.1)).map File.content)
          ((fs.lookup (Path.of e.1).part).map File.content)).error,
        (download sha256 env e.2.size e.2.sha256 ((fs.lookup (.of e.1)).map File.content)
          ((fs.lookup (Path.of e.1).part).map File.content)).dest with
      | none, some content => some ⟨content, now⟩
      | _, _ => fs.lookup (.of e.1) := by
  unfold downloadTo
  dsimp only
  split
  · refine (OrderedDict.lookup_filter_of_ne _ hapart).trans ?_
    split
    · exact OrderedDict.lookup_setLast_self fs _ _
    · rfl
  · refine (OrderedDict.lookup_setLast_of_ne _ _ hapart).trans ?_
    split
    · exact OrderedDict.lookup_setLast_self fs _ _
    · rfl

/-- **What is downloaded is right.** -/
theorem present_of_downloadTo (hclean : Clean env) (hapart : Path.of e.1 ≠ (Path.of e.1).part)
    (h : (downloadTo sha256 env now fs e).2 = none) :
    Present sha256 (downloadTo sha256 env now fs e).1 e := by
  obtain ⟨content, hdest, hright⟩ := (download_right sha256 _ _ hclean).1 h
  have herror : (download sha256 env e.2.size e.2.sha256 ((fs.lookup (.of e.1)).map File.content)
      ((fs.lookup (Path.of e.1).part).map File.content)).error = none := h
  refine ⟨⟨content, now⟩, ?_, hright⟩
  rw [lookup_downloadTo_self hapart, hdest, herror]

/-- **What is right stays right.** -/
theorem present_downloadTo {files : Index δ} {prune : Bool} (hplain : files.Plain prune)
    (hclean : Clean env) (he : e ∈ files) {k : String × Meta δ} (hk : k ∈ files)
    (h : Present sha256 fs k) : Present sha256 (downloadTo sha256 env now fs e).1 k := by
  by_cases hsame : Path.of k.1 = Path.of e.1
  · have hmeta := hplain.once k hk e he hsame
    cases herror : (downloadTo sha256 env now fs e).2 with
    | none =>
      obtain ⟨f, hf, hright⟩ := present_of_downloadTo hclean (hplain.apart e he e he) herror
      exact ⟨f, by rw [hsame, hf], by rw [hmeta]; exact hright⟩
    | some failure =>
      obtain ⟨f, hf, hright⟩ := h
      refine ⟨f, ?_, hright⟩
      have herror' : (download sha256 env e.2.size e.2.sha256
          ((fs.lookup (.of e.1)).map File.content)
          ((fs.lookup (Path.of e.1).part).map File.content)).error = some failure := herror
      rw [hsame, lookup_downloadTo_self (hplain.apart e he e he), herror', ← hsame, hf]
  · obtain ⟨f, hf, hright⟩ := h
    exact ⟨f, (lookup_downloadTo hsame (hplain.apart k hk e he)).trans hf, hright⟩

end

/-! ### All files -/

section

variable {sha256} {env : String → Env} {files : Index δ} {prune : Bool}

/-- What is right stays right, and without a failure everything becomes right. -/
theorem fetchAll_right (hplain : files.Plain prune) (hclean : ∀ rel, Clean (env rel)) (now : ℕ)
    {todo : Index δ} (htodo : ∀ e ∈ todo, e ∈ files) (fs : FS) :
    (∀ k ∈ files, Present sha256 fs k → Present sha256 (fetchAll sha256 env now todo fs).1 k) ∧
      ((fetchAll sha256 env now todo fs).2 = some [] →
        ∀ k ∈ todo, Present sha256 (fetchAll sha256 env now todo fs).1 k) := by
  induction todo generalizing fs with
  | nil => exact ⟨fun _ _ h => h, fun _ k hk => absurd hk List.not_mem_nil⟩
  | cons e todo ih =>
    have he : e ∈ files := htodo e List.mem_cons_self
    have hstep (k : String × Meta δ) (hk : k ∈ files) (h : Present sha256 fs k) :
        Present sha256 (downloadTo sha256 (env e.1) now fs e).1 k :=
      present_downloadTo hplain (hclean e.1) he hk h
    obtain ⟨hstay, hnew⟩ := ih (fun k hk => htodo k (List.mem_cons_of_mem _ hk))
      (downloadTo sha256 (env e.1) now fs e).1
    unfold fetchAll
    dsimp only
    split
    · exact ⟨hstep, fun h => by cases h⟩
    · -- this file is among the failed ones
      refine ⟨fun k hk h => hstay k hk (hstep k hk h), fun h => ?_⟩
      obtain ⟨failed, -, hfailed⟩ := Option.map_eq_some_iff.mp h
      cases hfailed
    · next hnone =>
      refine ⟨fun k hk h => hstay k hk (hstep k hk h), fun h k hk => ?_⟩
      rcases List.mem_cons.mp hk with rfl | hk
      · exact hstay k he (present_of_downloadTo (hclean k.1) (hplain.apart k he k he) hnone)
      · exact hnew h k hk

theorem lookup_pruneAll {extras : List Path} {fs fs' : FS} {p : Path} (h : pruneAll extras fs = some fs')
    (hp : p ∉ extras) : fs'.lookup p = fs.lookup p := by
  induction extras generalizing fs with
  | nil => rw [← Option.some.inj h]
  | cons extra extras ih =>
    unfold pruneAll at h
    split at h
    · cases h
    · rw [List.mem_cons, not_or] at hp
      exact (ih h hp.2).trans (OrderedDict.lookup_filter_of_ne fs hp.1)

/-- What is verified is there. -/
theorem present_of_verified {cache : String → Option (Entry δ)} {fs : FS} {e : String × Meta δ}
    (hcache : CacheRight sha256 cache files fs) (he : e ∈ files)
    (h : verified sha256 cache fs e = true) : Present sha256 fs e := by
  unfold verified at h
  split at h
  · cases h
  · next f hf =>
    rw [Bool.and_eq_true, decide_eq_true_eq, decide_eq_true_eq] at h
    refine ⟨f, hf, h.1, ?_⟩
    rw [← h.2]
    unfold cachedSha
    split
    · next hit hhit =>
      split
      · next hsame => exact (hcache e he f hit hf hhit hsame.1 hsame.2).symm
      · rfl
    · rfl

/-- **After a pull that returns 0 every file of the index is there.** -/
theorem pullFiles_right {args : Args} {now : ℕ} {free : ℤ} {cache : String → Option (Entry δ)} {fs fs' : FS}
    (hplain : files.Plain args.prune) (hclean : ∀ rel, Clean (env rel))
    (hcache : CacheRight sha256 cache files fs) (hdry : args.dryRun = false)
    (h : pullFiles sha256 args env now free cache files fs = .returned 0 fs') :
    ∀ e ∈ files, Present sha256 fs' e := by
  set todo := (files.mergeSort fun a b => a.1 ≤ b.1).filter fun e => !verified sha256 cache fs e
    with htodo
  have hsub : ∀ e ∈ todo.mergeSort fun a b => a.2.size ≤ b.2.size, e ∈ files := by
    intro e he
    exact List.mem_mergeSort.mp (List.mem_filter.mp (List.mem_mergeSort.mp he)).1
  obtain ⟨hstay, hnew⟩ := fetchAll_right hplain hclean now hsub fs
  unfold pullFiles at h
  dsimp only at h
  rw [← htodo, hdry] at h
  split at h
  · cases h
  · simp only [Bool.false_eq_true, if_false] at h
    split at h
    · cases h
    · next failed hfailed =>
      split at h
      · cases h
      · next fs'' hpruned =>
        rw [Exit.returned.injEq] at h
        obtain ⟨hcode, rfl⟩ := h
        have hnone : failed = [] := by
          by_contra hne
          rw [if_neg (by rwa [List.isEmpty_iff])] at hcode
          cases hcode
        subst hnone
        intro e he
        -- before the deletion
        have hthere : Present sha256 (fetchAll sha256 env now
            (todo.mergeSort fun a b => a.2.size ≤ b.2.size) fs).1 e := by
          by_cases hverified : verified sha256 cache fs e = true
          · exact hstay e he (present_of_verified hcache he hverified)
          · refine hnew hfailed e (List.mem_mergeSort.mpr (List.mem_filter.mpr
              ⟨List.mem_mergeSort.mpr he, ?_⟩))
            rw [Bool.not_eq_true] at hverified
            rw [hverified]
            rfl
        split at hpruned
        · next hprune =>
          obtain ⟨f, hf, hright⟩ := hthere
          refine ⟨f, (lookup_pruneAll hpruned fun hextra => ?_).trans hf, hright⟩
          -- the path is in the index
          have hnot := (List.mem_filter.mp hextra).2
          rw [hplain.spelled hprune e he] at hnot
          rw [List.contains_iff_mem.mpr (List.mem_map_of_mem he)] at hnot
          cases hnot
        · rw [← Option.some.inj hpruned]
          exact hthere

end

/-- **A pulled file is the right file**, where no failed write leaves anything and the index is
plain. -/
theorem pull_right :
    (∀ env size (sha : δ) dest part, (download sha256 env size sha dest part).requests ≤ 6) ∧
    (∀ env size (sha : δ) dest part, Clean env →
      ((download sha256 env size sha dest part).error = none →
        ∃ content, (download sha256 env size sha dest part).dest = some content ∧
          Right sha256 size sha content) ∧
      ((download sha256 env size sha dest part).error ≠ none →
        (download sha256 env size sha dest part).dest = dest)) ∧
    (∀ args env now free cache (index : Option (Index δ)) fs fs', (∀ rel, Clean (env rel)) →
      (∀ files, index = some files → files.Plain args.prune ∧ CacheRight sha256 cache files fs) →
      args.dryRun = false → cmdPull sha256 args env now free cache index fs = .returned 0 fs' →
      ∃ files, index = some files ∧ ∀ e ∈ files, Present sha256 fs' e) := by
  refine ⟨fun env size sha dest part => requests_le sha256 env size sha dest part,
    fun env size sha dest part hclean => download_right sha256 dest part hclean, ?_⟩
  intro args env now free cache index fs fs' hclean hindex hdry h
  cases index with
  | none => cases h
  | some files =>
    obtain ⟨hplain, hcache⟩ := hindex files rfl
    refine ⟨files, rfl, ?_⟩
    unfold cmdPull at h
    dsimp only at h
    split at h
    · cases h
    · cases h
    · exact pullFiles_right hplain hclean hcache hdry h

/-- Two bytes, which come at once. -/
def twoBytes : Env where
  attempts _ := .response 200 [([97, 98], .stored)] false none
  ready := true
  moves := true

theorem twoBytes_clean : Clean twoBytes := by
  intro n
  show Attempt.Clean (.response 200 [([97, 98], .stored)] false none)
  exact ⟨fun chunk k h => (by cases List.mem_singleton.mp h), fun k h => by cases h⟩

/-- One file is fetched; the hash of a content is the content. -/
theorem pull_right_one :
    ∃ files, (some [("apt-repo/a", ⟨2, [97, 98]⟩)] : Option (Index Bytes)) = some files ∧
      ∀ e ∈ files, Present id [(.of "apt-repo/a", ⟨[97, 98], 5⟩)] e :=
  (pull_right id).2.2 ⟨false, true⟩ (fun _ => twoBytes) 5 (30 * 1024 ^ 3) (fun _ => none)
    (some [("apt-repo/a", ⟨2, [97, 98]⟩)]) [] _ (fun _ => twoBytes_clean)
    (fun files hfiles => by
      rw [← Option.some.inj hfiles]
      refine ⟨⟨?_, ?_, ?_⟩, ?_⟩
      · intro e he e' he' _
        rw [List.mem_singleton.mp he, List.mem_singleton.mp he']
      · intro e he e' he'
        rw [List.mem_singleton.mp he, List.mem_singleton.mp he']
        decide
      · intro _ e he
        rw [List.mem_singleton.mp he]
        decide
      · intro e _ f hit hf
        cases hf)
    rfl (by with_unfolding_all decide)

/-- A write stores one byte and fails; what comes after the reconnection is put behind that byte. -/
theorem pull_wrong :
    ∃ env : Env, (download id env 2 [97, 98] none none).error = none ∧
      (download id env 2 [97, 98] none none).dest = some [97, 97, 98] ∧
        ¬ Right id 2 ([97, 98] : Bytes) [97, 97, 98] := by
  refine ⟨⟨fun n => if n = 0 then .response 200 [([97, 98], .failed 1)] false none
    else .response 200 [([97, 98], .stored)] false none, true, true⟩, ?_⟩
  unfold Right
  with_unfolding_all decide

end SyncRepo
end CloudCore
