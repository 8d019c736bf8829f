import Mathlib.Data.List.Nodup
import Mathlib.Data.List.Perm.Basic
import Mathlib.Logic.Function.Basic

/-!
# Snapshots of an instance's disks

`create_snapshot`, `restore_snapshot` and `delete_snapshot` of `compute.py`.  Every disk of the
instance gets a qcow2 snapshot of the same name, and `snapshots.json` lists the names.  The disks and
the list are changed one after the other, and any call of `qemu-img` or of libvirt may fail, and any
write of the list.

## Main definitions

* `State`, `Faults` — the disks, the list and the domain, and which calls fail.
* `createSnapshot`, `restoreSnapshot`, `deleteSnapshot` — the functions.
* `Agrees`, `Repeatable` — what is promised of every call.
* `Fits` — nothing fails behind the first change of a disk, unless it is taken back.

## Main results

* `forDisks_cases` — what a loop over the disks has done when it ends.
* `Inv.step` — where the calls fit, the list and the disks stay in step.
* `not_agrees_step` — a call that does not fit leaves them apart.
* `sound_iff_allFit` — **a sequence of calls keeps the promise if and only if all of them fit.**
-/

namespace CloudCore
namespace Snapshots

/-- The option of `qemu-img snapshot`: `-c`, `-a` or `-d`. -/
inductive Flag where
  | create
  | apply
  | delete

/-- Why a call raises. -/
inductive Exc where
  | badName
  | exists (name : String)
  | noDisks
  | key (name : String)
  | libvirt
  | notStopped
  | os
  | qemuImg (flag : Flag) (name disk : String)
  | running

/-- An entry of `snapshots.json`. -/
structure Snap where
  name : String
  description : String
  createdAt : String
  disks : List String
  wasRunning : Bool

/-- `snapshots.json`, the files of the disks, the snapshots in each, and whether the domain runs. -/
structure State where
  index : List Snap
  disks : List String
  tags : String → List String
  running : Bool
  nodup : disks.Nodup

/-- Which calls fail.  `libvirt` is what a failing call before those of `qemu-img` leaves of a domain
that runs; `slow` says that it does not shut down in time; `undo` is for the deletions on the disks
that are done when a snapshot fails on another one; `save` is for the write of `snapshots.json`. -/
structure Faults where
  libvirt : Option Bool
  slow : Bool
  qemuImg : ℕ → Bool
  undo : ℕ → Bool
  start : Bool
  save : Bool

def Faults.none : Faults := ⟨.none, false, fun _ => false, fun _ => false, false, false⟩

/-! ### The calls -/

/-- What `qemu-img snapshot` makes of the snapshots of a disk. -/
def Flag.edit (flag : Flag) (name : String) (l : List String) : List String :=
  match flag with
  | .create => l ++ [name]
  | .apply => l
  | .delete => l.erase name

/-- A disk has the snapshot, where one is needed. -/
def State.possible (s : State) (flag : Flag) (name disk : String) : Bool :=
  match flag with
  | .create => true
  | .apply | .delete => (s.tags disk).contains name

def State.put (flag : Flag) (name : String) (s : State) (disk : String) : State :=
  { s with tags := Function.update s.tags disk (flag.edit name (s.tags disk)) }

/-- `_qemu_img_snapshot` for each disk, until one fails; also the disks that are done. -/
def forDisks (flag : Flag) (name : String) (fails : ℕ → Bool) :
    ℕ → List String → State → State × List String × Option Exc
  | _, [], s => (s, [], none)
  | i, disk :: disks, s =>
    if fails i || !s.possible flag name disk then (s, [], some (.qemuImg flag name disk))
    else
      let r := forDisks flag name fails (i + 1) disks (s.put flag name disk)
      (r.1, disk :: r.2.1, r.2.2)

/-- The disks that are done lose the snapshot again; nobody looks whether `qemu-img` fails. -/
def undo (name : String) (fails : ℕ → Bool) : ℕ → List String → State → State
  | _, [], s => s
  | i, disk :: disks, s => undo name fails (i + 1) disks (if fails i then s else s.put .delete name disk)

/-- `_save_snapshots`: the file is replaced, or it is as it was. -/
def save (f : Faults) (index : List Snap) (s : State) : Option Exc × State :=
  if f.save then (some .os, s) else (none, { s with index := index })

def shutOff (force : Bool) (f : Faults) (s : State) : Except Exc Bool × State :=
  match f.libvirt with
  | some left => (.error .libvirt, { s with running := s.running && left })
  | none =>
    if !s.running then (.ok false, s)
    else if f.slow && !force then (.error .notStopped, s)
    else (.ok true, { s with running := false })

/-- How `restore_snapshot` powers the domain off. -/
def powerOff (f : Faults) (s : State) : Except Exc Bool × State :=
  match f.libvirt with
  | some left => (.error .libvirt, { s with running := s.running && left })
  | none => (.ok s.running, { s with running := false })

/-- `start_domain`, if it is called. -/
def startDomain (called : Bool) (f : Faults) (s : State) : Option Exc × State :=
  if !called then (none, s)
  else if f.start then (some .libvirt, s)
  else (none, { s with running := true })

/-- `SNAPSHOT_NAME_RE`; the pattern's `$` lets a last newline through. -/
def nameOk (name : String) : Bool :=
  let l := name.toList
  match if l.getLast? = some '\n' then l.dropLast else l with
  | [] => false
  | c :: r => c.isAlphanum && r.all (fun c => c.isAlphanum || c == '.' || c == '_' || c == '-') && r.length ≤ 63

def createSnapshot (name description : String) (force : Bool) (now : String) (f : Faults) (s : State) :
    Except Exc Snap × State :=
  if !nameOk name then (.error .badName, s)
  else if s.index.any (·.name = name) then (.error (.exists name), s)
  else if s.disks.isEmpty then (.error .noDisks, s)
  else
    match shutOff force f s with
    | (.error e, s) => (.error e, s)
    | (.ok wasRunning, s) =>
      match forDisks .create name f.qemuImg 0 s.disks s with
      | (s, done, some e) =>
        -- all or nothing
        let r := startDomain wasRunning f (undo name f.undo 0 done s)
        (.error (r.1.getD e), r.2)
      | (s, _, none) =>
        match startDomain wasRunning f s with
        | (some e, s) => (.error e, s)
        | (none, s) =>
          let snap := ⟨name, String.ofList (description.toList.take 500), now, s.disks, wasRunning⟩
          match save f (s.index ++ [snap]) s with
          | (some e, s) => (.error e, s)
          | (none, s) => (.ok snap, s)

def restoreSnapshot (name : String) (start : Option Bool) (f : Faults) (s : State) :
    Except Exc (Snap × Bool) × State :=
  match s.index.find? (·.name = name) with
  | none => (.error (.key name), s)
  | some snap =>
    match powerOff f s with
    | (.error e, s) => (.error e, s)
    | (.ok wasRunning, s) =>
      match forDisks .apply name f.qemuImg 0 snap.disks s with
      | (s, _, some e) => (.error e, s)
      | (s, _, none) =>
        match startDomain (start.getD wasRunning) f s with
        | (some e, s) => (.error e, s)
        | (none, s) => (.ok (snap, start.getD wasRunning), s)

def deleteSnapshot (name : String) (f : Faults) (s : State) : Except Exc Unit × State :=
  match s.index.find? (·.name = name) with
  | none => (.error (.key name), s)
  | some snap =>
    if f.libvirt.isSome then (.error .libvirt, s)
    else if s.running then (.error .running, s)
    else
      match forDisks .delete name f.qemuImg 0 snap.disks s with
      | (s, _, some e) => (.error e, s)
      | (s, _, none) =>
        match save f (s.index.filter (·.name ≠ name)) s with
        | (some e, s) => (.error e, s)
        | (none, s) => (.ok (), s)

/-! ### Sequences of calls -/

/-- A call, or the domain is started or stopped by someone else. -/
inductive Call where
  | create (name description : String) (force : Bool) (now : String)
  | restore (name : String) (start : Option Bool)
  | delete (name : String)
  | power (running : Bool)

/-- Whether a call raises, and the state behind it. -/
def Call.run (c : Call) (f : Faults) (s : State) : Bool × State :=
  match c with
  | .create name description force now =>
    let r := createSnapshot name description force now f s
    (!r.1.isOk, r.2)
  | .restore name start =>
    let r := restoreSnapshot name start f s
    (!r.1.isOk, r.2)
  | .delete name =>
    let r := deleteSnapshot name f s
    (!r.1.isOk, r.2)
  | .power running => (false, { s with running := running })

/-- An instance that has been created. -/
def State.init (disks : List String) (nodup : disks.Nodup) (running : Bool) : State :=
  ⟨[], disks, fun _ => [], running, nodup⟩

/-- A name in the list is on all disks of its entry, and what is on a disk is in the list. -/
structure Agrees (s : State) : Prop where
  on_disks : ∀ snap ∈ s.index, ∀ disk ∈ snap.disks, snap.name ∈ s.tags disk
  in_index : ∀ disk, ∀ name ∈ s.tags disk, name ∈ s.index.map (·.name)

/-- If the call has raised and would not have without the faults, then it does not when it is
repeated without faults. -/
def Repeatable (c : Call) (f : Faults) (s : State) : Prop :=
  (c.run f s).1 = true → (c.run .none s).1 = false → (c.run .none (c.run f s).2).1 = false

/-- What is promised of a sequence. -/
def Sound : State → List (Call × Faults) → Prop
  | _, [] => True
  | s, (c, f) :: l => Agrees (c.run f s).2 ∧ Repeatable c f s ∧ Sound (c.run f s).2 l

/-- Where every disk gets the snapshot, the domain that ran is started again and the list written;
where a disk does not, those before it lose it.  Where the deletion on the first disk succeeds it does
on all, and the list is written. -/
def Fits (s : State) : Call × Faults → Prop
  | (.create name _ force _, f) =>
    nameOk name = true → name ∉ s.index.map (·.name) → s.disks ≠ [] → f.libvirt = none →
      (s.running && f.slow && !force) = false →
        ((∀ i < s.disks.length, f.qemuImg i = false) → (s.running && f.start) = false ∧ f.save = false) ∧
          ∀ k < s.disks.length, f.qemuImg k = true → (∀ i < k, f.qemuImg i = false) → ∀ i < k, f.undo i = false
  | (.delete name, f) =>
    name ∈ s.index.map (·.name) → s.disks ≠ [] → s.running = false → f.libvirt = none →
      f.qemuImg 0 = false → (∀ i < s.disks.length, f.qemuImg i = false) ∧ f.save = false
  | _ => True

def AllFit : State → List (Call × Faults) → Prop
  | _, [] => True
  | s, (c, f) :: l => Fits s (c, f) ∧ AllFit (c.run f s).2 l

variable {flag : Flag} {name disk : String} {s s' : State} {ds : List String} {f : Faults} {fails : ℕ → Bool} {i : ℕ}

/-! ### The disks -/

/-- What is done on one disk changes nothing for another one. -/
theorem State.possible_put {d : String} (hne : disk ≠ d) :
    (s.put flag name d).possible flag name disk = s.possible flag name disk := by
  have htags : (s.put flag name d).tags disk = s.tags disk := Function.update_of_ne hne ..
  cases flag with
  | create => rfl
  | apply | delete => simp only [State.possible, htags]

/-- The snapshots after a call for each of these disks. -/
theorem foldl_put (hnodup : ds.Nodup) : ds.foldl (State.put flag name) s =
    { s with tags := fun disk => if disk ∈ ds then flag.edit name (s.tags disk) else s.tags disk } := by
  induction ds generalizing s with
  | nil => simp
  | cons d ds ih =>
    obtain ⟨hd, hnodup⟩ := List.nodup_cons.mp hnodup
    rw [List.foldl_cons, ih hnodup]
    unfold State.put
    congr 1
    funext disk
    -- a disk is edited at its only place in the list
    by_cases heq : disk = d
    · subst heq
      simp [hd]
    · simp [heq]

theorem forDisks_from (flag : Flag) (name : String) (fails : ℕ → Bool) (i : ℕ) (s : State) {ds : List String}
    (hnodup : ds.Nodup) (hposs : ∀ d ∈ ds, s.possible flag name d = true) :
    (∀ j < ds.length, fails (i + j) = false) ∧
        forDisks flag name fails i ds s = (ds.foldl (State.put flag name) s, ds, none) ∨
      ∃ k e, k < ds.length ∧ fails (i + k) = true ∧ (∀ j < k, fails (i + j) = false) ∧
        forDisks flag name fails i ds s = ((ds.take k).foldl (State.put flag name) s, ds.take k, some e) := by
  induction ds generalizing i s with
  | nil => exact .inl ⟨fun j hj => absurd hj (Nat.not_lt_zero j), rfl⟩
  | cons d ds ih =>
    obtain ⟨hd, hnodup⟩ := List.nodup_cons.mp hnodup
    rw [List.forall_mem_cons] at hposs
    rw [forDisks, hposs.1, Bool.not_true, Bool.or_false]
    by_cases hfail : fails i = true
    · refine .inr ⟨0, .qemuImg flag name d, Nat.zero_lt_succ _, hfail, fun j hj => absurd hj (Nat.not_lt_zero j), ?_⟩
      rw [if_pos hfail]
      rfl
    · have hrest : ∀ d' ∈ ds, (s.put flag name d).possible flag name d' = true := by
        intro d' hd'
        have hne : d' ≠ d := by
          rintro rfl
          exact hd hd'
        rw [State.possible_put hne]
        exact hposs.2 d' hd'
      have hfirst : fails (i + 0) = false := Bool.eq_false_iff.mpr hfail
      rw [if_neg hfail]
      -- what holds of the later disks holds of all, with the first one before them
      have hall {n : ℕ} (h : ∀ j < n, fails (i + 1 + j) = false) : ∀ j < n + 1, fails (i + j) = false := by
        intro j hj
        cases j with
        | zero => exact hfirst
        | succ j =>
          rw [← Nat.add_assoc, Nat.add_right_comm]
          exact h j (Nat.lt_of_succ_lt_succ hj)
      obtain ⟨hfine, heq⟩ | ⟨k, e, hk, hfails, hbefore, heq⟩ := ih (i + 1) _ hnodup hrest
      · exact .inl ⟨hall hfine, by rw [heq]; rfl⟩
      · refine .inr ⟨k + 1, e, Nat.succ_lt_succ hk, ?_, hall hbefore, by rw [heq]; rfl⟩
        rw [← Nat.add_assoc, Nat.add_right_comm]
        exact hfails

/-- **A loop over the disks has done all of them, or those before the first call that fails.** -/
theorem forDisks_cases (flag : Flag) (name : String) (fails : ℕ → Bool) (s : State) {ds : List String}
    (hnodup : ds.Nodup) (hposs : ∀ d ∈ ds, s.possible flag name d = true) :
    (∀ j < ds.length, fails j = false) ∧
        forDisks flag name fails 0 ds s = (ds.foldl (State.put flag name) s, ds, none) ∨
      ∃ k e, k < ds.length ∧ fails k = true ∧ (∀ j < k, fails j = false) ∧
        forDisks flag name fails 0 ds s = ((ds.take k).foldl (State.put flag name) s, ds.take k, some e) := by
  simpa only [Nat.zero_add] using forDisks_from flag name fails 0 s hnodup hposs

/-! ### In step -/

/-- Every entry lists all disks, and every disk has the snapshots of the list and no others. -/
structure Inv (s : State) : Prop where
  nodup : (s.index.map (·.name)).Nodup
  disks : ∀ snap ∈ s.index, snap.disks = s.disks
  tags : ∀ disk ∈ s.disks, (s.tags disk).Perm (s.index.map (·.name))
  others : ∀ disk ∉ s.disks, s.tags disk = []

theorem Inv.agrees (h : Inv s) : Agrees s where
  on_disks := by
    intro snap hsnap disk hdisk
    rw [h.disks snap hsnap] at hdisk
    exact (h.tags disk hdisk).mem_iff.mpr (List.mem_map_of_mem hsnap)
  in_index := by
    intro disk name hname
    by_cases hdisk : disk ∈ s.disks
    · exact (h.tags disk hdisk).mem_iff.mp hname
    · rw [h.others disk hdisk] at hname
      exact absurd hname List.not_mem_nil

theorem inv_init (disks : List String) (nodup : disks.Nodup) (running : Bool) : Inv (.init disks nodup running) where
  nodup := List.nodup_nil
  disks := fun _ h => absurd h List.not_mem_nil
  tags := fun _ _ => List.Perm.refl _
  others := fun _ _ => rfl

/-- The domain is started or stopped. -/
theorem Inv.power (h : Inv s) (running : Bool) : Inv { s with running := running } :=
  ⟨h.nodup, h.disks, h.tags, h.others⟩

theorem Inv.not_mem_tags (h : Inv s) (hname : name ∉ s.index.map (·.name)) (disk : String) : name ∉ s.tags disk := by
  intro hmem
  exact hname (h.agrees.in_index disk name hmem)

/-- The snapshot is taken of every disk, and listed. -/
theorem Inv.taken (h : Inv s) {snap : Snap} (hname : snap.name ∉ s.index.map (·.name))
    (hdisks : snap.disks = s.disks) (running : Bool) :
    Inv { s with
      index := s.index ++ [snap]
      tags := fun disk => if disk ∈ s.disks then s.tags disk ++ [snap.name] else s.tags disk
      running := running } where
  nodup := by
    show ((s.index ++ [snap]).map (·.name)).Nodup
    rw [List.map_append, List.map_singleton, List.nodup_append_comm, List.singleton_append, List.nodup_cons]
    exact ⟨hname, h.nodup⟩
  disks := List.forall_mem_append.mpr ⟨h.disks, List.forall_mem_singleton.mpr hdisks⟩
  tags := by
    intro disk hdisk
    show (if disk ∈ s.disks then s.tags disk ++ [snap.name] else s.tags disk).Perm ((s.index ++ [snap]).map (·.name))
    rw [if_pos hdisk, List.map_append]
    exact (h.tags disk hdisk).append_right _
  others := by
    intro disk hdisk
    show (if disk ∈ s.disks then s.tags disk ++ [snap.name] else s.tags disk) = []
    rw [if_neg hdisk]
    exact h.others disk hdisk

/-- The snapshot is deleted on every disk, and its entry. -/
theorem Inv.deleted (h : Inv s) (name : String) :
    Inv { s with
      index := s.index.filter (·.name ≠ name)
      tags := fun disk => if disk ∈ s.disks then (s.tags disk).erase name else s.tags disk } where
  nodup := h.nodup.sublist (List.filter_sublist.map _)
  disks := fun snap hsnap => h.disks snap (List.mem_filter.mp hsnap).1
  tags := by
    intro disk hdisk
    show (if disk ∈ s.disks then (s.tags disk).erase name else s.tags disk).Perm
      ((s.index.filter (·.name ≠ name)).map (·.name))
    rw [if_pos hdisk]
    -- names are there once, so to filter is to erase
    have hperm := (h.tags disk hdisk).erase name
    have hfilter : (s.index.filter (·.name ≠ name)).map (·.name) = (s.index.map (·.name)).erase name := by
      rw [h.nodup.erase_eq_filter, List.filter_map]
      congr 1
      refine List.filter_congr fun snap _ => ?_
      by_cases heq : snap.name = name
      · simp [heq]
      · simp [heq]
    rw [hfilter]
    exact hperm
  others := by
    intro disk hdisk
    show (if disk ∈ s.disks then (s.tags disk).erase name else s.tags disk) = []
    rw [if_neg hdisk]
    exact h.others disk hdisk

/-! ### One call -/

theorem startDomain_eq (called : Bool) (f : Faults) (s : State) :
    ∃ running, (startDomain called f s).2 = { s with running := running } := by
  unfold startDomain
  split
  · exact ⟨s.running, rfl⟩
  · split
    · exact ⟨s.running, rfl⟩
    · exact ⟨true, rfl⟩

/-- The domain is off, unless a call of libvirt fails or it does not shut down. -/
theorem shutOff_cases (force : Bool) (f : Faults) (s : State) :
    ((f.libvirt = none → (s.running && f.slow && !force) = true) ∧
        ∃ e running, shutOff force f s = (.error e, { s with running := running })) ∨
      f.libvirt = none ∧ (s.running && f.slow && !force) = false ∧
        shutOff force f s = (.ok s.running, { s with running := false }) := by
  unfold shutOff
  split
  next left hleft =>
    rw [hleft]
    exact .inl ⟨fun h => absurd h (Option.some_ne_none left), .libvirt, _, rfl⟩
  next hnone =>
    -- what runs is shut down, and may take too long
    cases hrunning : s.running with
    | true =>
      rw [Bool.not_true, if_neg Bool.false_ne_true]
      split
      next hslow => exact .inl ⟨fun _ => hslow, .notStopped, s.running, rfl⟩
      next hfast => exact .inr ⟨hnone, Bool.eq_false_iff.mpr hfast, rfl⟩
    | false =>
      rw [Bool.not_false, if_pos rfl, ← hrunning]
      exact .inr ⟨hnone, by rw [hrunning]; rfl, rfl⟩

/-- The disks that have got the snapshot lose it again. -/
theorem foldl_put_delete (hnodup : ds.Nodup) (hname : ∀ disk, name ∉ s.tags disk) :
    ds.foldl (State.put .delete name) (ds.foldl (State.put .create name) s) = s := by
  rw [foldl_put hnodup, foldl_put hnodup]
  have htags : (fun disk => if disk ∈ ds then Flag.delete.edit name
      (if disk ∈ ds then Flag.create.edit name (s.tags disk) else s.tags disk)
      else if disk ∈ ds then Flag.create.edit name (s.tags disk) else s.tags disk) = s.tags := by
    funext disk
    -- the name was not there before, so the one at the end goes
    by_cases hdisk : disk ∈ ds
    · rw [if_pos hdisk, if_pos hdisk]
      show (s.tags disk ++ [name]).erase name = s.tags disk
      rw [List.erase_append_right _ (hname disk), List.erase_cons_head, List.append_nil]
    · rw [if_neg hdisk, if_neg hdisk]
  dsimp only
  rw [htags]

/-- Where no deletion fails, all of them are done. -/
theorem undo_eq (hfine : ∀ j < ds.length, fails (i + j) = false) :
    undo name fails i ds s = ds.foldl (State.put .delete name) s := by
  induction ds generalizing i s with
  | nil => rfl
  | cons d ds ih =>
    have hfirst : ¬fails i = true := Bool.eq_false_iff.mp (hfine 0 (Nat.zero_lt_succ _))
    rw [undo, if_neg hfirst, List.foldl_cons]
    refine ih fun j hj => ?_
    rw [Nat.add_right_comm]
    exact hfine (j + 1) (Nat.succ_lt_succ hj)

@[simp] theorem undo_index : (undo name fails i ds s).index = s.index := by
  induction ds generalizing i s with
  | nil => rfl
  | cons d ds ih =>
    rw [undo, ih]
    split <;> rfl

/-- What is done on other disks changes nothing for this one. -/
theorem undo_tags_of_not_mem (hdisk : disk ∉ ds) : (undo name fails i ds s).tags disk = s.tags disk := by
  induction ds generalizing i s with
  | nil => rfl
  | cons d ds ih =>
    obtain ⟨hne, hdisk⟩ := not_or.mp (mt List.mem_cons.mpr hdisk)
    rw [undo, ih hdisk]
    split
    · rfl
    · exact Function.update_of_ne hne ..

/-- A disk on which the deletion fails keeps the snapshot. -/
theorem mem_undo {k : ℕ} (hnodup : ds.Nodup) (hk : ds[k]? = some disk) (hfails : fails (i + k) = true)
    (hmem : name ∈ s.tags disk) : name ∈ (undo name fails i ds s).tags disk := by
  induction ds generalizing i k s with
  | nil => cases hk
  | cons d ds ih =>
    obtain ⟨hd, hnodup⟩ := List.nodup_cons.mp hnodup
    rw [undo]
    cases k with
    | zero =>
      obtain rfl : d = disk := Option.some.inj hk
      rw [if_pos (show fails i = true from hfails), undo_tags_of_not_mem hd]
      exact hmem
    | succ k =>
      have hne : disk ≠ d := fun heq => hd (heq ▸ List.mem_of_getElem? hk)
      refine ih hnodup hk (by rwa [Nat.add_right_comm]) ?_
      split
      · exact hmem
      · rw [show (s.put .delete name d).tags disk = s.tags disk from Function.update_of_ne hne ..]
        exact hmem

/-- The disks that have got the snapshot lose it again, unless a deletion fails. -/
theorem undo_cases (fails : ℕ → Bool) (s : State) (hname : ∀ disk, name ∉ s.tags disk) (hnodup : ds.Nodup) :
    (∀ i < ds.length, fails i = false) ∧ undo name fails 0 ds (ds.foldl (State.put .create name) s) = s ∨
      (∃ i < ds.length, fails i = true) ∧
        ∃ disk, name ∈ (undo name fails 0 ds (ds.foldl (State.put .create name) s)).tags disk := by
  by_cases hfine : ∀ i < ds.length, fails i = false
  · refine .inl ⟨hfine, ?_⟩
    rw [undo_eq fun j hj => by rw [Nat.zero_add]; exact hfine j hj]
    exact foldl_put_delete hnodup hname
  · push Not at hfine
    obtain ⟨i, hi, hfails⟩ := hfine
    rw [ne_eq, Bool.not_eq_false] at hfails
    refine .inr ⟨⟨i, hi, hfails⟩, ds[i], ?_⟩
    refine mem_undo hnodup (List.getElem?_eq_getElem hi) (by rwa [Nat.zero_add]) ?_
    rw [foldl_put hnodup]
    show name ∈ if ds[i] ∈ ds then s.tags _ ++ [name] else _
    rw [if_pos (List.getElem_mem hi)]
    exact List.mem_append_right _ List.mem_cons_self

/-- The state where every disk has the snapshot, and the domain is off. -/
def State.taken (s : State) (name : String) : State :=
  { s with
    tags := fun disk => if disk ∈ s.disks then s.tags disk ++ [name] else s.tags disk
    running := false }

theorem exists_mem_taken (hdisks : s.disks ≠ []) : ∃ disk, name ∈ (s.taken name).tags disk := by
  obtain ⟨disk, hdisk⟩ := List.exists_mem_of_ne_nil _ hdisks
  refine ⟨disk, ?_⟩
  show name ∈ if disk ∈ s.disks then s.tags disk ++ [name] else s.tags disk
  rw [if_pos hdisk]
  exact List.mem_append_right _ List.mem_cons_self

/-- **A snapshot**: nothing is changed, or it is everywhere, or some disk has it and no entry does. -/
theorem createSnapshot_cases (h : Inv s) (name description : String) (force : Bool) (now : String) (f : Faults) :
    (Fits s (.create name description force now, f) ∧
        ((∃ e running, createSnapshot name description force now f s = (.error e, { s with running := running })) ∨
          ∃ snap running, snap.name = name ∧ snap.disks = s.disks ∧ name ∉ s.index.map (·.name) ∧
            createSnapshot name description force now f s =
              (.ok snap, { s.taken name with index := s.index ++ [snap], running := running }))) ∨
      ¬Fits s (.create name description force now, f) ∧ name ∉ s.index.map (·.name) ∧
        ∃ e s', createSnapshot name description force now f s = (.error e, s') ∧ s'.index = s.index ∧
          ∃ disk, name ∈ s'.tags disk := by
  unfold createSnapshot
  by_cases hok : nameOk name = true
  swap
  · rw [if_pos (by simpa using hok)]
    exact .inl ⟨fun hok' => absurd hok' hok, .inl ⟨.badName, s.running, rfl⟩⟩
  rw [if_neg (by simpa using hok)]
  by_cases hname : name ∈ s.index.map (·.name)
  · have hany : s.index.any (·.name = name) = true := by simpa using hname
    rw [if_pos hany]
    exact .inl ⟨fun _ hname' => absurd hname hname', .inl ⟨.exists name, s.running, rfl⟩⟩
  have hany : ¬s.index.any (·.name = name) = true := by simpa using hname
  rw [if_neg hany]
  by_cases hdisks : s.disks = []
  · rw [if_pos (List.isEmpty_iff.mpr hdisks)]
    exact .inl ⟨fun _ _ hdisks' => absurd hdisks hdisks', .inl ⟨.noDisks, s.running, rfl⟩⟩
  rw [if_neg (mt List.isEmpty_iff.mp hdisks)]
  obtain ⟨hwhy, e, running, heq⟩ | ⟨hlibvirt, hfast, heq⟩ := shutOff_cases force f s
  · rw [heq]
    refine .inl ⟨fun _ _ _ hlibvirt hslow => ?_, .inl ⟨e, running, rfl⟩⟩
    cases (hwhy hlibvirt).symm.trans hslow
  rw [heq]
  dsimp only
  obtain ⟨hfine, hloop⟩ | ⟨k, e, hk, hfails, hbefore, hloop⟩ :=
    forDisks_cases .create name f.qemuImg { s with running := false } s.nodup (fun _ _ => rfl)
  · -- every disk has the snapshot
    have htaken : s.disks.foldl (State.put .create name) { s with running := false } = s.taken name :=
      foldl_put s.nodup
    have hmem : ∃ disk, name ∈ (s.taken name).tags disk := exists_mem_taken hdisks
    -- some disk fails before one that fails
    have hnone {k : ℕ} (hk : k < s.disks.length) (hfails : f.qemuImg k = true) : False :=
      absurd (hfails.symm.trans (hfine k hk)) (by decide)
    rw [hloop, htaken]
    dsimp only
    unfold startDomain save
    cases hstart : s.running && f.start with
    | true =>
      -- the restart fails, with nothing listed yet
      obtain ⟨hrunning, hstart'⟩ := Bool.and_eq_true_iff.mp hstart
      rw [hrunning, hstart']
      refine .inr ⟨fun hfits => ?_, hname, .libvirt, _, rfl, rfl, hmem⟩
      have hstart' := ((hfits hok hname hdisks hlibvirt hfast).1 hfine).1
      cases hstart.symm.trans hstart'
    | false =>
      cases hsave : f.save with
      | true =>
        -- the list is not written
        refine .inr ⟨fun hfits => ?_, hname, ?_⟩
        · have hsave' := ((hfits hok hname hdisks hlibvirt hfast).1 hfine).2
          cases hsave.symm.trans hsave'
        · cases hrunning : s.running with
          | false => exact ⟨.os, _, rfl, rfl, hmem⟩
          | true =>
            rw [hrunning, Bool.true_and] at hstart
            rw [hstart]
            exact ⟨.os, _, rfl, rfl, hmem⟩
      | false =>
        refine .inl ⟨fun _ _ _ _ _ => ⟨fun _ => ⟨hstart, hsave⟩, fun _ hk hfails => (hnone hk hfails).elim⟩, .inr ?_⟩
        cases hrunning : s.running with
        | false => exact ⟨_, false, rfl, rfl, hname, rfl⟩
        | true =>
          rw [hrunning, Bool.true_and] at hstart
          rw [hstart]
          exact ⟨_, true, rfl, rfl, hname, rfl⟩
  · have hlength : (s.disks.take k).length = k := List.length_take_of_le (Nat.le_of_lt hk)
    have hnodup : (s.disks.take k).Nodup := s.nodup.sublist (List.take_sublist ..)
    have hcases := undo_cases f.undo { s with running := false } (h.not_mem_tags hname) hnodup
    rw [hlength] at hcases
    rw [hloop]
    dsimp only
    obtain ⟨running, hstart⟩ := startDomain_eq s.running f (undo name f.undo 0 (s.disks.take k)
      ((s.disks.take k).foldl (State.put .create name) { s with running := false }))
    rw [hstart]
    obtain ⟨hundo, hclean⟩ | ⟨⟨i, hi, hundo⟩, hmem⟩ := hcases
    -- those that have it lose it again
    · rw [hclean]
      refine .inl ⟨fun _ _ _ _ _ => ⟨fun hfine => ?_, fun k' hk' hfails' hbefore' => ?_⟩, .inl ⟨_, running, rfl⟩⟩
      · cases hfails.symm.trans (hfine k hk)
      · -- the first disk that fails is this one
        have hle : k' ≤ k := by
          by_contra hlt
          exact absurd (hfails.symm.trans (hbefore' k (Nat.not_le.mp hlt))) (by decide)
        exact fun i hi => hundo i (Nat.lt_of_lt_of_le hi hle)
    -- some disk keeps it
    · refine .inr ⟨fun hfits => ?_, hname, _, _, rfl, ?_, hmem⟩
      · have hfine := (hfits hok hname hdisks hlibvirt hfast).2 k hk hfails hbefore i hi
        cases hundo.symm.trans hfine
      · simp only [undo_index, foldl_put hnodup]

/-- An entry of a name, if there is one. -/
theorem find_cases (h : Inv s) (name : String) :
    s.index.find? (·.name = name) = none ∧ name ∉ s.index.map (·.name) ∨
      ∃ snap, s.index.find? (·.name = name) = some snap ∧ name ∈ s.index.map (·.name) ∧ snap.disks = s.disks := by
  cases hfind : s.index.find? (·.name = name) with
  | none =>
    refine .inl ⟨rfl, fun hmem => ?_⟩
    obtain ⟨snap, hsnap, hname⟩ := List.mem_map.mp hmem
    exact List.find?_eq_none.mp hfind snap hsnap (decide_eq_true hname)
  | some snap =>
    have hsnap := List.mem_of_find?_eq_some hfind
    have hdecide : decide (snap.name = name) = true :=
      List.find?_some (p := fun x : Snap => decide (x.name = name)) hfind
    have hname : snap.name = name := of_decide_eq_true hdecide
    exact .inr ⟨snap, rfl, hname ▸ List.mem_map_of_mem hsnap, h.disks snap hsnap⟩

/-- Every disk has the snapshots of the list. -/
theorem Inv.possible (h : Inv s) (hname : name ∈ s.index.map (·.name)) (flag : Flag) :
    ∀ disk ∈ s.disks, s.possible flag name disk = true := by
  intro disk hdisk
  have hmem := (h.tags disk hdisk).mem_iff.mpr hname
  cases flag with
  | create => rfl
  | apply | delete => exact List.contains_iff_mem.mpr hmem

/-- To put the disks back leaves the snapshots as they are. -/
theorem foldl_put_apply (name : String) (ds : List String) (s : State) :
    ds.foldl (State.put .apply name) s = s := by
  induction ds generalizing s with
  | nil => rfl
  | cons d ds ih =>
    have hput : s.put .apply name d = s := by
      unfold State.put
      rw [show Flag.apply.edit name (s.tags d) = s.tags d from rfl, Function.update_eq_self]
    rw [List.foldl_cons, hput, ih]

theorem powerOff_eq (f : Faults) (s : State) :
    (∃ e running, powerOff f s = (.error e, { s with running := running })) ∨
      powerOff f s = (.ok s.running, { s with running := false }) := by
  unfold powerOff
  split
  · exact .inl ⟨.libvirt, _, rfl⟩
  · exact .inr rfl

/-- **A restore** changes neither the list nor the snapshots. -/
theorem restoreSnapshot_state (h : Inv s) (name : String) (start : Option Bool) (f : Faults) :
    ∃ running, (restoreSnapshot name start f s).2 = { s with running := running } := by
  unfold restoreSnapshot
  obtain ⟨hfind, -⟩ | ⟨snap, hfind, hname, hdisks⟩ := find_cases h name
  · rw [hfind]
    exact ⟨s.running, rfl⟩
  rw [hfind]
  dsimp only
  obtain ⟨e, running, heq⟩ | heq := powerOff_eq f s
  · rw [heq]
    exact ⟨running, rfl⟩
  rw [heq]
  dsimp only
  obtain ⟨-, hloop⟩ | ⟨k, e, -, -, -, hloop⟩ :=
    forDisks_cases .apply name f.qemuImg { s with running := false } s.nodup ((h.power false).possible hname .apply)
  · rw [hdisks, hloop, foldl_put_apply]
    dsimp only
    obtain ⟨running, hstart⟩ := startDomain_eq (start.getD s.running) f { s with running := false }
    refine ⟨running, ?_⟩
    rw [← hstart]
    split <;> rename_i heq <;> rw [heq]
  · rw [hdisks, hloop, foldl_put_apply]
    exact ⟨false, rfl⟩

/-- The state where these disks have lost the snapshot. -/
def State.lost (s : State) (name : String) (ds : List String) : State :=
  { s with tags := fun disk => if disk ∈ ds then (s.tags disk).erase name else s.tags disk }

/-- **A deletion**: nothing is changed, or the snapshot is gone everywhere, or it is gone from some disk
and its entry is still there. -/
theorem deleteSnapshot_cases (h : Inv s) (name : String) (f : Faults) :
    (Fits s (.delete name, f) ∧
        ((∃ e, deleteSnapshot name f s = (.error e, s)) ∨
          deleteSnapshot name f s = (.ok (), { s.lost name s.disks with index := s.index.filter (·.name ≠ name) }))) ∨
      ¬Fits s (.delete name, f) ∧ name ∈ s.index.map (·.name) ∧
        ∃ k e, s.disks.take k ≠ [] ∧ deleteSnapshot name f s = (.error e, s.lost name (s.disks.take k)) := by
  unfold deleteSnapshot
  obtain ⟨hfind, hname⟩ | ⟨snap, hfind, hname, hdisks⟩ := find_cases h name
  · rw [hfind]
    exact .inl ⟨fun hname' => absurd hname' hname, .inl ⟨.key name, rfl⟩⟩
  rw [hfind]
  dsimp only
  cases hlibvirt : f.libvirt with
  | some left =>
    refine .inl ⟨fun _ _ _ hnone => ?_, .inl ⟨.libvirt, rfl⟩⟩
    exact absurd (hlibvirt.symm.trans hnone) (Option.some_ne_none left)
  | none =>
  rw [if_neg (show ¬(none : Option Bool).isSome = true from Bool.false_ne_true)]
  cases hrunning : s.running with
  | true =>
    refine .inl ⟨fun _ _ hrunning' => ?_, .inl ⟨.running, rfl⟩⟩
    cases hrunning.symm.trans hrunning'
  | false =>
  rw [if_neg Bool.false_ne_true, hdisks]
  obtain ⟨hfine, hloop⟩ | ⟨k, e, hk, hfails, hbefore, hloop⟩ :=
    forDisks_cases .delete name f.qemuImg s s.nodup (h.possible hname .delete)
  · have hlost : s.disks.foldl (State.put .delete name) s = s.lost name s.disks := foldl_put s.nodup
    rw [hloop, hlost]
    dsimp only
    unfold save
    cases hsave : f.save with
    | false => exact .inl ⟨fun _ _ _ _ _ => ⟨hfine, hsave⟩, .inr rfl⟩
    | true =>
      by_cases hnil : s.disks = []
      · have hsame : s.lost name s.disks = s := by rw [← hlost, hnil, List.foldl_nil]
        rw [hsame]
        exact .inl ⟨fun _ hdisks => absurd hnil hdisks, .inl ⟨.os, rfl⟩⟩
      -- the entry is not taken out of the list
      · refine .inr ⟨fun hfits => ?_, hname, s.disks.length, .os, by rwa [List.take_length], by rw [List.take_length]; rfl⟩
        have hfirst := hfine 0 (List.length_pos_of_ne_nil hnil)
        exact absurd (hsave.symm.trans (hfits hname hnil hrunning hlibvirt hfirst).2) (by decide)
  · rw [hloop, foldl_put (s.nodup.sublist (List.take_sublist ..))]
    cases k with
    -- the first disk has failed, and nothing has changed
    | zero =>
      refine .inl ⟨fun _ _ _ _ hfirst => ?_, .inl ⟨e, ?_⟩⟩
      · cases hfails.symm.trans hfirst
      · simp
    -- some disks have lost the snapshot, and the entry is still there
    | succ k =>
      have hnil : s.disks ≠ [] := List.ne_nil_of_length_pos (Nat.lt_trans (Nat.zero_lt_succ k) hk)
      refine .inr ⟨fun hfits => ?_, hname, k + 1, e, ?_, rfl⟩
      · have hfine := (hfits hname hnil hrunning hlibvirt (hbefore 0 (Nat.zero_lt_succ k))).1 (k + 1) hk
        cases hfails.symm.trans hfine
      · rw [Ne, List.take_eq_nil_iff]
        exact not_or.mpr ⟨Nat.succ_ne_zero k, hnil⟩

/-! ### Repeated calls -/

/-- Without faults a snapshot is taken wherever it may be. -/
theorem createSnapshot_none (name description : String) (force : Bool) (now : String) (s : State) :
    (createSnapshot name description force now .none s).1.isOk =
      (nameOk name && !s.index.any (·.name = name) && !s.disks.isEmpty) := by
  unfold createSnapshot
  cases nameOk name with
  | false => rfl
  | true =>
  cases hany : s.index.any (·.name = name) with
  | true => rfl
  | false =>
  cases hdisks : s.disks.isEmpty with
  | true => rfl
  | false =>
  obtain ⟨hwhy, -⟩ | ⟨-, -, heq⟩ := shutOff_cases force .none s
  · rw [show Faults.none.slow = false from rfl, Bool.and_false, Bool.false_and] at hwhy
    exact absurd (hwhy rfl) Bool.false_ne_true
  rw [heq]
  obtain ⟨-, hloop⟩ | ⟨k, e, -, hfails, -⟩ :=
    forDisks_cases .create name Faults.none.qemuImg { s with running := false } s.nodup (fun _ _ => rfl)
  · dsimp only [Bool.not_true, Bool.not_false]
    rw [hloop]
    cases s.running <;> rfl
  · exact absurd hfails Bool.false_ne_true

theorem restoreSnapshot_none (h : Inv s) (name : String) (start : Option Bool) :
    (restoreSnapshot name start .none s).1.isOk = (s.index.find? (·.name = name)).isSome := by
  unfold restoreSnapshot
  obtain ⟨hfind, -⟩ | ⟨snap, hfind, hname, hdisks⟩ := find_cases h name
  · rw [hfind]
    rfl
  rw [hfind]
  dsimp only
  obtain ⟨-, hloop⟩ | ⟨k, e, -, hfails, -⟩ :=
    forDisks_cases .apply name Faults.none.qemuImg { s with running := false } s.nodup ((h.power false).possible hname .apply)
  · rw [show powerOff .none s = (.ok s.running, { s with running := false }) from rfl, hdisks]
    dsimp only
    rw [hloop]
    cases start.getD s.running <;> rfl
  · exact absurd hfails Bool.false_ne_true

/-! ### Sequences -/

/-- **Where a call fits, the list and the disks stay in step.** -/
theorem Inv.step (h : Inv s) (c : Call) (hfits : Fits s (c, f)) : Inv (c.run f s).2 := by
  cases c with
  | create name description force now =>
    show Inv (createSnapshot name description force now f s).2
    obtain ⟨-, ⟨e, running, heq⟩ | ⟨snap, running, rfl, hdisks, hname, heq⟩⟩ | ⟨hnot, -⟩ :=
      createSnapshot_cases h name description force now f
    · rw [heq]
      exact h.power running
    · rw [heq]
      exact h.taken hname hdisks running
    · exact absurd hfits hnot
  | restore name start =>
    show Inv (restoreSnapshot name start f s).2
    obtain ⟨running, heq⟩ := restoreSnapshot_state h name start f
    rw [heq]
    exact h.power running
  | delete name =>
    show Inv (deleteSnapshot name f s).2
    obtain ⟨-, ⟨e, heq⟩ | heq⟩ | ⟨hnot, -⟩ := deleteSnapshot_cases h name f
    · rw [heq]
      exact h
    · rw [heq]
      exact h.deleted name
    · exact absurd hfits hnot
  | power running => exact h.power running

/-- **A call that does not fit leaves them apart**: a snapshot that is not in the list, or an entry
whose snapshot is missing on a disk. -/
theorem not_agrees_step (h : Inv s) (c : Call) (hfits : ¬Fits s (c, f)) : ¬Agrees (c.run f s).2 := by
  intro hagrees
  cases c with
  | create name description force now =>
    obtain ⟨hfits', -⟩ | ⟨-, hname, e, s', heq, hindex, disk, hmem⟩ :=
      createSnapshot_cases h name description force now f
    · exact hfits hfits'
    -- some disk has a snapshot that is not listed
    have hagrees : Agrees (createSnapshot name description force now f s).2 := hagrees
    rw [heq] at hagrees
    exact hname (hindex ▸ hagrees.in_index disk name hmem)
  | restore name start => exact hfits trivial
  | delete name =>
    obtain ⟨hfits', -⟩ | ⟨-, hname, k, e, hnil, heq⟩ := deleteSnapshot_cases h name f
    · exact hfits hfits'
    obtain ⟨snap, hsnap, rfl⟩ := List.mem_map.mp hname
    obtain ⟨disk, hdisk⟩ := List.exists_mem_of_ne_nil _ hnil
    have hmem := List.mem_of_mem_take hdisk
    have hagrees : Agrees (deleteSnapshot snap.name f s).2 := hagrees
    rw [heq] at hagrees
    have hleft : snap.name ∈ if disk ∈ s.disks.take k then (s.tags disk).erase snap.name else s.tags disk :=
      hagrees.on_disks snap hsnap disk (h.disks snap hsnap ▸ hmem)
    rw [if_pos hdisk] at hleft
    have hnodup := (h.tags disk hmem).nodup_iff.mpr h.nodup
    exact ((List.Nodup.mem_erase_iff hnodup).mp hleft).1 rfl
  | power running => exact hfits trivial

/-- Where a call fits it can be repeated. -/
theorem repeatable_of_fits (h : Inv s) (c : Call) (hfits : Fits s (c, f)) : Repeatable c f s := by
  intro hraised hfine
  cases c with
  | create name description force now =>
    have hfine : (!(createSnapshot name description force now .none s).1.isOk) = false := hfine
    have hraised : (!(createSnapshot name description force now f s).1.isOk) = true := hraised
    show (!(createSnapshot name description force now .none
      (createSnapshot name description force now f s).2).1.isOk) = false
    obtain ⟨-, ⟨e, running, heq⟩ | ⟨snap, running, -, -, -, heq⟩⟩ | ⟨hnot, -⟩ :=
      createSnapshot_cases h name description force now f
    · rw [createSnapshot_none] at hfine
      rw [heq, createSnapshot_none]
      exact hfine
    · rw [heq] at hraised
      exact absurd hraised Bool.false_ne_true
    · exact absurd hfits hnot
  | restore name start =>
    have hfine : (!(restoreSnapshot name start .none s).1.isOk) = false := hfine
    show (!(restoreSnapshot name start .none (restoreSnapshot name start f s).2).1.isOk) = false
    obtain ⟨running, heq⟩ := restoreSnapshot_state h name start f
    rw [restoreSnapshot_none h] at hfine
    rw [heq, restoreSnapshot_none (h.power running)]
    exact hfine
  | delete name =>
    have hraised : (!(deleteSnapshot name f s).1.isOk) = true := hraised
    show (!(deleteSnapshot name .none (deleteSnapshot name f s).2).1.isOk) = false
    obtain ⟨-, ⟨e, heq⟩ | heq⟩ | ⟨hnot, -⟩ := deleteSnapshot_cases h name f
    · rw [heq]
      exact hfine
    · rw [heq] at hraised
      exact absurd hraised Bool.false_ne_true
    · exact absurd hfits hnot
  | power running => exact absurd hraised Bool.false_ne_true

theorem sound_iff_of_inv (h : Inv s) (l : List (Call × Faults)) : Sound s l ↔ AllFit s l := by
  induction l generalizing s with
  | nil => exact Iff.rfl
  | cons p l ih =>
    obtain ⟨c, f⟩ := p
    rw [Sound, AllFit]
    constructor
    · rintro ⟨hagrees, -, hrest⟩
      have hfits : Fits s (c, f) := by
        by_contra hnot
        exact not_agrees_step h c hnot hagrees
      exact ⟨hfits, (ih (h.step c hfits)).mp hrest⟩
    · rintro ⟨hfits, hrest⟩
      have hinv := h.step c hfits
      exact ⟨hinv.agrees, repeatable_of_fits h c hfits, (ih hinv).mpr hrest⟩

/-- **From an instance's creation on, the list and the disks agree behind every call, and every call
that has failed can be repeated, if and only if nothing fails behind the first change of a disk in any
call,** but a snapshot on another disk behind which all the others lose it again. -/
theorem sound_iff_allFit (disks : List String) (nodup : disks.Nodup) (running : Bool) (l : List (Call × Faults)) :
    Sound (.init disks nodup running) l ↔ AllFit (.init disks nodup running) l :=
  sound_iff_of_inv (inv_init disks nodup running) l

/-- Two disks, of which a snapshot is taken and deleted, though it fails on the second one at first; one
whose restart fails, one that is not written to the list, and one that fails on the second disk and is
not taken back on the first. -/
theorem sound_two :
    Sound (.init ["disk.qcow2", "data1.qcow2"] (by decide) true)
        [(.create "base" "" false "", { Faults.none with qemuImg := (· == 1) }), (.create "base" "" false "", .none),
          (.power false, .none), (.delete "base", .none)] ∧
      ∀ f ∈ [{ Faults.none with start := true }, { Faults.none with save := true },
          { Faults.none with qemuImg := (· == 1), undo := fun _ => true }],
        ¬Sound (.init ["disk.qcow2", "data1.qcow2"] (by decide) true) [(.create "base" "" false "", f)] := by
  constructor
  · rw [sound_iff_allFit]
    refine ⟨fun _ _ _ _ _ => ⟨fun hfine => absurd (hfine 1 (by decide)) (by decide), fun _ _ _ _ _ _ => rfl⟩,
      fun _ _ _ _ _ => ⟨fun _ => ⟨rfl, rfl⟩, fun _ _ _ _ _ _ => rfl⟩, trivial, fun _ _ _ _ _ => ⟨fun _ _ => rfl, rfl⟩,
      trivial⟩
  · intro f hf
    rw [sound_iff_allFit]
    rintro ⟨hfits, -⟩
    simp only [List.mem_cons, List.not_mem_nil, or_false] at hf
    obtain rfl | rfl | rfl := hf
    · have h := hfits (by decide) List.not_mem_nil (List.cons_ne_nil _ _) rfl rfl
      exact absurd (h.1 fun _ _ => rfl).1 (by decide)
    · have h := hfits (by decide) List.not_mem_nil (List.cons_ne_nil _ _) rfl rfl
      exact absurd (h.1 fun _ _ => rfl).2 (by decide)
    · have h := hfits (by decide) List.not_mem_nil (List.cons_ne_nil _ _) rfl rfl
      exact absurd (h.2 1 (by decide) rfl (by decide) 0 (by decide)) (by decide)

end Snapshots
end CloudCore
