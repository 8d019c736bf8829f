import CloudCore.Effect.Sequential
import Mathlib.Algebra.BigOperators.Group.List.Basic
import Mathlib.Algebra.Order.BigOperators.Group.List
import Mathlib.Algebra.Ring.Int.Defs

/-!
# The memory of the microVMs

`plan_vm_size` and `boot` of `microvm.py`.  A host's memory is planned from what its kernel
says: every live VM's cgroup tells what it was promised and what it uses.  From the plan to
the new VM's cgroup the plan lock is held, so that a boot is one step.  Memory is in MiB where
the source has it so, `/proc/meminfo` is in kB, the cgroups and the state are in bytes.

## Main definitions

* `planVmSize`, `boot` — the plan, and what a boot promises.
* `Reading.Of` — what a host reads.
* `Step` — a boot, or a teardown.
* `Within` — the promises and what is not a VM's leave the reserve free.

## Main results

* `within_of_sized` — **a VM with a sizing is booted within what the host has**, and gets
  between its floor and its target.
* `overpromised` — a VM without one may be booted beyond.
-/

namespace CloudCore
namespace Microvm

/-! ### The plan -/

/-- A MiB in bytes. -/
def mebi : ℤ := 1024 * 1024

/-- `VMM_OVERHEAD_MIB`. -/
def vmmOverhead : ℤ := 128

structure VmSizing where
  memTarget : ℤ
  memFloor : ℤ
  vcpuTarget : ℤ
  scratchTarget : ℤ
  scratchFloor : ℤ

/-- `memory.max`. -/
inductive Limit where
  | max
  | bytes (n : ℤ)

/-- The files of a cgroup; `none` where a file cannot be read. -/
structure Cgroup where
  limit : Option Limit
  current : Option ℤ

/-- What a boot reads of the host. -/
structure Reading where
  /-- `/proc/meminfo`, in kB. -/
  meminfo : List (String × ℤ)
  /-- The directories under `CGROUP_PARENT`, if it can be scanned. -/
  cgroups : Option (List Cgroup)
  cpuCount : Option ℤ
  bavail : ℤ
  frsize : ℤ

/-- `HOST_RESERVE_MIB` and `DISK_RESERVE_MIB`, and the memory there is, in kB. -/
structure Host where
  memTotal : ℤ
  hostReserve : ℤ
  diskReserve : ℤ

inductive Exc where
  | keyError
  | capacityError (text : String)
  deriving DecidableEq

def meminfoMib (r : Reading) : Except Exc (ℤ × ℤ) :=
  match r.meminfo.lookup "MemTotal", r.meminfo.lookup "MemAvailable" with
  | some total, some available => .ok (total / 1024, available / 1024)
  | _, _ => .error .keyError

/-- One round of the loop of `_vm_memory_ledger_mib`. -/
def ledgerStep (ledger : ℤ × ℤ) (c : Cgroup) : ℤ × ℤ :=
  match c.limit, c.current with
  | some .max, some cur => (ledger.1, ledger.2 + cur / (1024 * 1024))
  | some (.bytes n), some cur => (ledger.1 + n / (1024 * 1024), ledger.2 + cur / (1024 * 1024))
  | _, _ => ledger

def vmMemoryLedgerMib (r : Reading) : ℤ × ℤ :=
  match r.cgroups with
  | some entries => entries.foldl ledgerStep (0, 0)
  | none => (0, 0)

/-- `plan_vm_size`: CPUs, memory and scratch disk. -/
def planVmSize (h : Host) (sizing : VmSizing) (r : Reading) : Except Exc (ℤ × ℤ × ℤ) := do
  let (total, available) ← meminfoMib r
  let (promised, inUse) := vmMemoryLedgerMib r
  let nonVm := max 0 (total - available - inUse)
  let spare := total - nonVm - h.hostReserve - promised - vmmOverhead
  let mem := min sizing.memTarget spare / 128 * 128
  if mem < sizing.memFloor then
    throw (.capacityError (s!"not enough free memory for another sandbox right now " ++
      s!"({max spare 0}MB spare, {sizing.memFloor}MB needed) -- try again when a session ends"))
  else
    let cpus := match r.cpuCount with
      | some n => if n = 0 then 1 else n
      | none => 1
    let vcpus := max 1 (min sizing.vcpuTarget (if cpus > 1 then cpus - 1 else 1))
    let diskFree := r.bavail * r.frsize / (1024 * 1024)
    let scratch := min sizing.scratchTarget (diskFree - h.diskReserve)
    if scratch < sizing.scratchFloor then
      throw (.capacityError
        s!"not enough free disk for another sandbox right now ({max diskFree 0}MB free)")
    else pure (vcpus, mem, scratch)

/-- What a `MicroVM` is made with; its size is a placeholder if there is a sizing. -/
structure Request where
  sizing : Option VmSizing
  vcpuCount : ℤ
  memSize : ℤ
  scratch : ℤ

/-- A VM as it is started. -/
structure Vm where
  vcpuCount : ℤ
  memSize : ℤ
  scratch : ℤ
  deriving DecidableEq

def Vm.memMax (vm : Vm) : ℤ := (vm.memSize + vmmOverhead) * 1024 * 1024

/-- `boot`, up to the VM's cgroup. -/
def boot (h : Host) (req : Request) (r : Reading) : Except Exc Vm :=
  match req.sizing with
  | some sizing => (planVmSize h sizing r).map fun (vcpus, mem, scratch) => ⟨vcpus, mem, scratch⟩
  | none => .ok ⟨req.vcpuCount, req.memSize, req.scratch⟩

theorem Vm.memMax_eq (vm : Vm) : vm.memMax = (vm.memSize + vmmOverhead) * mebi :=
  Int.mul_assoc ..

/-! ### A host -/

/-- A line of `/proc/meminfo`. -/
def Reading.kb (r : Reading) (key : String) : ℤ := (r.meminfo.lookup key).getD 0

def Reading.entries (r : Reading) : List Cgroup := r.cgroups.getD []

/-- What the ledger counts as a VM's use, in bytes. -/
def Cgroup.use (c : Cgroup) : ℤ :=
  match c.limit, c.current with
  | some _, some cur => cur
  | _, _ => 0

/-- What is used by others than the VMs, in bytes. -/
def Reading.nonVm (r : Reading) : ℤ :=
  (r.kb "MemTotal" - r.kb "MemAvailable") * 1024 - (r.entries.map Cgroup.use).sum

/-- What a VM with a limit and a use shows. -/
def cgroupOf (vm : ℤ × ℤ) : Cgroup := ⟨some (.bytes vm.1), some vm.2⟩

/-- The promise of a cgroup that is no live VM's is not negative. -/
def Cgroup.Sane (c : Cgroup) : Prop := ∀ n, c.limit = some (.bytes n) → 0 ≤ n

/-- What is read on a host whose live VMs have these limits.  There may be cgroups that are
no live VM's, and some of those may not be readable. -/
structure Reading.Of (h : Host) (live : List ℤ) (r : Reading) : Prop where
  total : r.meminfo.lookup "MemTotal" = some h.memTotal
  /-- A VM uses no more than its limit. -/
  cgroups : ∃ vms : List (ℤ × ℤ), vms.map Prod.fst = live ∧ (∀ vm ∈ vms, 0 ≤ vm.2 ∧ vm.2 ≤ vm.1) ∧
    ∃ others : List Cgroup, (∀ c ∈ others, c.Sane) ∧
      r.entries.Perm (vms.map cgroupOf ++ others)
  /-- The VMs' use is part of the use of memory. -/
  nonVm_nonneg : 0 ≤ r.nonVm

/-- The `memory.max` of the live VMs, before and after a boot or a teardown. -/
inductive Step (h : Host) : List ℤ → List ℤ → Prop where
  | boot {live : List ℤ} {req : Request} {r : Reading} {vm : Vm} (hr : r.Of h live)
      (hboot : boot h req r = .ok vm) : Step h live (live ++ [vm.memMax])
  | teardown (live : List ℤ) (i : ℕ) : Step h live (live.eraseIdx i)

/-- Live VMs, after any boots and teardowns. -/
def Reachable (h : Host) (live : List ℤ) : Prop := Relation.ReflTransGen (Step h) [] live

/-- The promises of the VMs, what is used by others and the reserve are at most the memory
there is, up to `slack` MiB. -/
def Within (h : Host) (live : List ℤ) (r : Reading) (slack : ℤ) : Prop :=
  live.sum + r.nonVm + h.hostReserve * mebi ≤ h.memTotal * 1024 + slack * mebi

instance (h : Host) (live : List ℤ) (r : Reading) (slack : ℤ) : Decidable (Within h live r slack) :=
  inferInstanceAs (Decidable (_ ≤ _))

/-! ### The ledger -/

variable {h : Host} {live : List ℤ} {r : Reading} {sizing : VmSizing}

/-- What the ledger counts as a VM's promise, in MiB. -/
def Cgroup.promise (c : Cgroup) : ℤ :=
  match c.limit, c.current with
  | some (.bytes n), some _ => n / (1024 * 1024)
  | _, _ => 0

theorem ledgerStep_eq (ledger : ℤ × ℤ) (c : Cgroup) :
    ledgerStep ledger c = (ledger.1 + c.promise, ledger.2 + c.use / (1024 * 1024)) := by
  obtain ⟨limit, current⟩ := c
  rcases limit with _ | _ | n <;> rcases current with _ | cur <;>
    simp [ledgerStep, Cgroup.promise, Cgroup.use]

theorem foldl_ledgerStep (l : List Cgroup) (ledger : ℤ × ℤ) :
    l.foldl ledgerStep ledger = (ledger.1 + (l.map Cgroup.promise).sum,
      ledger.2 + (l.map fun c => c.use / (1024 * 1024)).sum) := by
  induction l generalizing ledger with
  | nil => simp
  | cons c l ih =>
    rw [List.foldl_cons, ih, ledgerStep_eq, List.map_cons, List.map_cons, List.sum_cons,
      List.sum_cons, Int.add_assoc, Int.add_assoc]

theorem vmMemoryLedgerMib_eq (r : Reading) : vmMemoryLedgerMib r =
    ((r.entries.map Cgroup.promise).sum, (r.entries.map fun c => c.use / (1024 * 1024)).sum) := by
  unfold vmMemoryLedgerMib Reading.entries
  cases r.cgroups with
  | none => rfl
  | some entries =>
    simp only [foldl_ledgerStep, Int.zero_add, Option.getD_some]

/-- Whole MiB are never more than the bytes. -/
theorem sum_div_le (l : List Cgroup) :
    (l.map fun c => c.use / (1024 * 1024)).sum * mebi ≤ (l.map Cgroup.use).sum := by
  induction l with
  | nil => decide
  | cons c l ih =>
    rw [List.map_cons, List.map_cons, List.sum_cons, List.sum_cons]
    unfold mebi at ih ⊢
    omega

theorem promise_nonneg {l : List Cgroup} (hl : ∀ c ∈ l, c.Sane) :
    0 ≤ (l.map Cgroup.promise).sum := by
  refine List.sum_nonneg fun n hn => ?_
  obtain ⟨c, hc, rfl⟩ := List.mem_map.mp hn
  have hsane := hl c hc
  obtain ⟨limit, current⟩ := c
  rcases limit with _ | _ | n <;> rcases current with _ | cur
  case some.bytes.some =>
    have hn := hsane n rfl
    change 0 ≤ n / (1024 * 1024)
    omega
  all_goals exact Int.le_refl 0

/-- The ledger counts the limits of the live VMs in full, where they are whole MiB. -/
theorem sum_promise_cgroupOf {vms : List (ℤ × ℤ)} (hwhole : ∀ vm ∈ vms, mebi ∣ vm.1) :
    ((vms.map cgroupOf).map Cgroup.promise).sum * mebi = (vms.map Prod.fst).sum := by
  induction vms with
  | nil => rfl
  | cons vm vms ih =>
    have hvm := hwhole vm List.mem_cons_self
    have hrest := ih fun vm' h' => hwhole vm' (List.mem_cons_of_mem _ h')
    rw [List.map_cons, List.map_cons, List.map_cons, List.sum_cons, List.sum_cons]
    change (vm.1 / (1024 * 1024) + _) * mebi = _
    unfold mebi at hvm hrest ⊢
    omega

/-- The limits of the live VMs are at most what the ledger calls promised. -/
theorem Reading.Of.sum_le (hr : r.Of h live) (hwhole : ∀ m ∈ live, mebi ∣ m) :
    live.sum ≤ (vmMemoryLedgerMib r).1 * mebi := by
  obtain ⟨vms, rfl, -, others, hsane, hperm⟩ := hr.cgroups
  have hvms := sum_promise_cgroupOf fun vm hvm => hwhole vm.1 (List.mem_map_of_mem hvm)
  have hothers := promise_nonneg hsane
  have hsum := (hperm.map Cgroup.promise).sum_eq
  rw [List.map_append, List.sum_append] at hsum
  rw [vmMemoryLedgerMib_eq, ← hvms]
  unfold mebi
  omega

/-! ### The plan -/

/-- **What is planned leaves the reserve free.** -/
theorem planVmSize_spec {vcpus mem scratch : ℤ} (hplan : planVmSize h sizing r = .ok (vcpus, mem, scratch)) :
    ∃ total available, r.meminfo.lookup "MemTotal" = some total ∧
      r.meminfo.lookup "MemAvailable" = some available ∧
      (vmMemoryLedgerMib r).1 + (mem + vmmOverhead) + h.hostReserve ≤
        available / 1024 + (vmMemoryLedgerMib r).2 ∧
      (sizing.memFloor ≤ mem ∧ mem ≤ sizing.memTarget) ∧
      sizing.scratchFloor ≤ scratch ∧ scratch ≤ sizing.scratchTarget := by
  unfold planVmSize meminfoMib at hplan
  cases htotal : r.meminfo.lookup "MemTotal" with
  | none =>
    rw [htotal] at hplan
    cases hplan
  | some total =>
    cases havailable : r.meminfo.lookup "MemAvailable" with
    | none =>
      rw [htotal, havailable] at hplan
      cases hplan
    | some available =>
      rw [htotal, havailable] at hplan
      refine ⟨total, available, rfl, rfl, ?_⟩
      generalize vmMemoryLedgerMib r = ledger at hplan ⊢
      obtain ⟨promised, inUse⟩ := ledger
      simp only [bind, Except.bind] at hplan
      split at hplan
      · cases hplan
      · split at hplan
        · cases hplan
        · cases hplan
          simp only [vmmOverhead] at *
          refine ⟨?_, ⟨?_, ?_⟩, ?_, ?_⟩ <;> omega

/-! ### Runs -/

/-- The limits of the live VMs are whole MiB. -/
theorem whole_of_reachable (hreach : Reachable h live) : ∀ m ∈ live, mebi ∣ m := by
  induction hreach with
  | refl => exact nofun
  | tail _ hstep ih =>
    cases hstep with
    | @boot req r vm =>
      intro m hm
      rcases List.mem_append.mp hm with hm | hm
      · exact ih m hm
      · obtain rfl := List.mem_singleton.mp hm
        exact ⟨vm.memSize + vmmOverhead, vm.memMax_eq.trans (Int.mul_comm ..)⟩
    | teardown i => exact fun m hm => ih m (List.mem_of_mem_eraseIdx hm)

/-- **A VM with a sizing is booted within what the host has:** the promises of the live VMs
then leave the reserve free, and the VM gets between its floor and its target. -/
theorem within_of_sized {req : Request} {vm : Vm} (hreach : Reachable h live) (hr : r.Of h live)
    (hsizing : req.sizing = some sizing) (hboot : boot h req r = .ok vm) :
    Within h (live ++ [vm.memMax]) r 0 ∧
      (sizing.memFloor ≤ vm.memSize ∧ vm.memSize ≤ sizing.memTarget) ∧
      sizing.scratchFloor ≤ vm.scratch ∧ vm.scratch ≤ sizing.scratchTarget := by
  rw [boot, hsizing] at hboot
  cases hplan : planVmSize h sizing r with
  | error e =>
    simp only [hplan, Except.map] at hboot
    cases hboot
  | ok plan =>
    obtain ⟨vcpus, mem, scratch⟩ := plan
    simp only [hplan, Except.map] at hboot
    cases hboot
    obtain ⟨total, available, htotal, havailable, hle, hsizes⟩ := planVmSize_spec hplan
    refine ⟨?_, hsizes⟩
    have hlive := hr.sum_le (whole_of_reachable hreach)
    have huse := sum_div_le r.entries
    rw [vmMemoryLedgerMib_eq] at hle hlive
    rw [Within, Reading.nonVm, Reading.kb, Reading.kb, htotal, havailable, Option.getD_some,
      Option.getD_some, List.sum_append, List.sum_singleton, Vm.memMax_eq]
    obtain rfl : total = h.memTotal := Option.some.inj (htotal.symm.trans hr.total)
    simp only [mebi] at *
    omega

/-- A host with 4 GiB, of which 100 MiB are used. -/
def fourGib : Host := ⟨4096 * 1024, 768, 4096⟩

/-- It is read with these live VMs, none of which uses memory yet. -/
def readWith (live : List ℤ) : Reading where
  meminfo := [("MemTotal", 4096 * 1024), ("MemAvailable", 3996 * 1024)]
  cgroups := some (live.map fun m => cgroupOf (m, 0))
  cpuCount := some 4
  bavail := 10000000
  frsize := 4096

theorem of_readWith (hlive : ∀ m ∈ live, 0 ≤ m) : (readWith live).Of fourGib live := by
  have hzero : (((readWith live).entries.map Cgroup.use)).sum = 0 := by
    refine List.sum_eq_zero fun n hn => ?_
    obtain ⟨c, hc, rfl⟩ := List.mem_map.mp hn
    obtain ⟨m, -, rfl⟩ := List.mem_map.mp hc
    rfl
  refine ⟨rfl, ⟨live.map fun m => (m, 0), ?_, ?_, [], nofun, ?_⟩, ?_⟩
  · rw [List.map_map]
    exact List.map_id live
  · intro vm hvm
    obtain ⟨m, hm, rfl⟩ := List.mem_map.mp hvm
    exact ⟨Int.le_refl 0, hlive m hm⟩
  · rw [List.append_nil, List.map_map]
    exact .refl _
  · rw [Reading.nonVm, hzero]
    exact (by decide : (0 : ℤ) ≤ (4096 * 1024 - 3996 * 1024) * 1024 - 0)

/-- A VM that would like 3 GiB. -/
def large : Request := ⟨some ⟨3072, 1024, 2, 16384, 4096⟩, 1, 256, 1024⟩

theorem large_sizing : large.sizing = some ⟨3072, 1024, 2, 16384, 4096⟩ := rfl

theorem boot_large : boot fourGib large (readWith []) = .ok ⟨2, 3072, 16384⟩ := by decide

/-- A VM that would like 1 GiB. -/
def small : Request := ⟨some ⟨1024, 512, 1, 8192, 4096⟩, 1, 256, 1024⟩

theorem boot_small : boot fourGib small (readWith []) = .ok ⟨1, 1024, 8192⟩ := by decide

/-- The host with the small VM, which uses 100 MiB of its 1152. -/
def besideSmall : Reading where
  meminfo := [("MemTotal", 4096 * 1024), ("MemAvailable", 3896 * 1024)]
  cgroups := some [cgroupOf (1152 * mebi, 100 * mebi)]
  cpuCount := some 4
  bavail := 10000000
  frsize := 4096

theorem of_besideSmall : besideSmall.Of fourGib [1152 * mebi] :=
  ⟨rfl, ⟨[(1152 * mebi, 100 * mebi)], rfl, by decide, [], nofun, .refl _⟩, by decide⟩

/-- Beside the small VM, the large one gets what is left. -/
theorem within_of_sized_large : Within fourGib [1152 * mebi, 2048 * mebi] besideSmall 0 := by
  have hsmall : Step fourGib [] [1152 * mebi] := .boot (of_readWith (fun _ h => absurd h List.not_mem_nil)) boot_small
  have hlarge : boot fourGib large besideSmall = .ok ⟨2, 1920, 16384⟩ := by decide
  exact (within_of_sized (.single hsmall) of_besideSmall large_sizing hlarge).1

/-- **A VM without a sizing may be booted beyond what the host has**, even up to a MiB for
each quantity read. -/
theorem overpromised : ¬∀ (h : Host) (live : List ℤ), Reachable h live →
    ∀ (req : Request) (r : Reading) (vm : Vm), r.Of h live → boot h req r = .ok vm →
      Within h (live ++ [vm.memMax]) r (2 + 2 * live.length) := by
  intro hall
  have hlarge : Step fourGib [] [3200 * 1024 * 1024] :=
    .boot (of_readWith (fun _ h => absurd h List.not_mem_nil)) boot_large
  have hlive : (readWith [3200 * 1024 * 1024]).Of fourGib [3200 * 1024 * 1024] :=
    of_readWith (by decide)
  have hwithin := hall fourGib _ (.single hlarge) ⟨none, 1, 256, 1024⟩ _ ⟨1, 256, 1024⟩ hlive rfl
  exact absurd hwithin (by decide)

end Microvm
end CloudCore
