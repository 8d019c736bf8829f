import CloudCore.Python.Json
import Mathlib.Algebra.Order.Field.Rat
import Mathlib.Tactic.Linarith
import Mathlib.Tactic.NormNum
import Mathlib.Tactic.Positivity

/-!
# The RAM of the peers of a build

The checks of `capacity_gate.py` that a build passes before it starts, and the VMs that the templates
then place.  `peer_stats` is an argument; what a peer reports is a whole number of MB.

## Main definitions

* `checkWorkerPeers`, `checkCoordinatorPeer`, `checkNoCoordinatorWorkerOverlap` — the checks.
* `placedMb` — the RAM of the VMs that a build places on a peer.
* `Sound` — no peer gets more than it has.
* `RoomForAll` — a peer that is named more than once has room for all of its workers.

## Main results

* `room_of_checks` — a peer has room for each VM alone.
* `sound_iff` — **what passes the checks is sound iff every peer that is named more than once has room
  for all of its workers.**
-/

namespace CloudCore
namespace CapacityGate

open Python

/-! ### The checks -/

/-- `compute.FLAVORS`: the cores, the RAM in MB and the disk in GB. -/
def FLAVORS : List (String × ℕ × ℕ × ℕ) :=
  [("standard.nano", 1, 512, 5), ("standard.small", 1, 1024, 10), ("standard.medium", 2, 2048, 20),
    ("standard.large", 4, 4096, 40), ("standard.xlarge", 6, 8192, 60),
    ("standard.2xlarge", 6, 16384, 100), ("memory.medium", 2, 8192, 40),
    ("memory.large", 2, 16384, 60)]

/-- The double `1.2`.  The RAM of a flavor is a power of two, so that the product with it is exact. -/
def HEADROOM_FACTOR : ℚ := 5404319552844595 / 2 ^ 52

/-- The exceptions of the checks. -/
inductive Failure where
  | typeError
  | overflowError
  | bindingError
  deriving DecidableEq

/-- What the checks read of `host_stats.collect`. -/
structure Memory where
  availableMb : Option ℕ
  deriving DecidableEq

structure Stats where
  memory : Option Memory
  deriving DecidableEq

/-- `stats.get("memory", {}).get("available_mb", 0)`. -/
def Stats.availableMb (s : Stats) : ℕ := (s.memory.bind (·.availableMb)).getD 0

inductive Role where
  | worker
  | coordinator
  deriving DecidableEq

inductive Refusal where
  | unreachable (role : Role) (peer flavor : Json) (requiredMb : ℚ)
  | noRoom (role : Role) (peer flavor : Json) (availableMb : ℕ) (requiredMb : ℚ)
  | overlap (peer : Json)

/-- `peers_routes.peer_stats`.  The id of a peer is a text, and SQLite takes no list, no dictionary and
no long integer as a parameter. -/
def peerStats (stats : String → Option Stats) : Json → Except Failure (Option Stats)
  | .str peer => .ok (stats peer)
  | .arr _ | .obj _ => .error .bindingError
  | .int n => if -2 ^ 63 ≤ n ∧ n < 2 ^ 63 then .ok none else .error .overflowError
  | _ => .ok none

/-- The default of a variable; an entry of a schema is a dictionary. -/
def schemaDefault (schema : Json) (key : String) : Json :=
  ((schema.get? key).bind (·.get? "default")).getD .null

/-- `var_overrides.get(key) or (schema.get(key, {}) or {}).get("default")`. -/
def flavorName (overrides schema : Json) (key : String) : Json :=
  let chosen := (overrides.get? key).getD .null
  if chosen.truthy then chosen else schemaDefault schema key

/-- The RAM of a flavor, if there is one. -/
def ramOf (name : String) : Option ℕ := (FLAVORS.find? (·.1 == name)).map (·.2.2.1)

/-- `compute.FLAVORS.get(name)`, for the RAM. -/
def getFlavor : Json → Except Failure (Option ℕ)
  | .str name => .ok (ramOf name)
  | name => if name.hashable then .ok none else .error .typeError

/-- Whether a peer has room for one VM. -/
def checkRoom (stats : String → Option Stats) (role : Role) (flavor : Json) (flavorMb : ℕ)
    (peer : Json) : Except Failure (Option Refusal) :=
  (peerStats stats peer).map fun answer =>
    match answer with
    | none => some (.unreachable role peer flavor (flavorMb * HEADROOM_FACTOR))
    | some s =>
      if (s.availableMb : ℚ) < flavorMb * HEADROOM_FACTOR then
        some (.noRoom role peer flavor s.availableMb (flavorMb * HEADROOM_FACTOR))
      else none

/-- `entry.get("peer_id") if isinstance(entry, dict) else None`. -/
def entryPeer (entry : Json) : Json := (entry.get? "peer_id").getD .null

/-- The loop of `check_worker_peers`. -/
def checkEntries (check : Json → Except Failure (Option Refusal)) :
    List Json → Except Failure (Option Refusal)
  | [] => .ok none
  | entry :: entries =>
    if (entryPeer entry).truthy then
      match check (entryPeer entry) with
      | .error e => .error e
      | .ok (some refusal) => .ok (some refusal)
      | .ok none => checkEntries check entries
    else checkEntries check entries

/-- A check with the flavor of a variable; an unknown one is left to the build. -/
def withFlavor (overrides schema : Json) (key : String)
    (check : Json → ℕ → Except Failure (Option Refusal)) : Except Failure (Option Refusal) :=
  let name := flavorName overrides schema key
  if name.truthy then
    match getFlavor name with
    | .error e => .error e
    | .ok none => .ok none
    | .ok (some flavorMb) => check name flavorMb
  else .ok none

/-- The entries of `worker_peers`; nothing of what is not a list. -/
def workerPeers (overrides : Json) : List Json :=
  match overrides.get? "worker_peers" with
  | some (.arr entries) => entries
  | _ => []

def coordinatorPeer (overrides : Json) : Json := (overrides.get? "coordinator_peer_id").getD .null

def checkWorkerPeers (stats : String → Option Stats) (overrides schema : Json) :
    Except Failure (Option Refusal) :=
  if workerPeers overrides = [] then .ok none
  else
    withFlavor overrides schema "worker_flavor" fun flavor flavorMb =>
      checkEntries (checkRoom stats .worker flavor flavorMb) (workerPeers overrides)

def checkCoordinatorPeer (stats : String → Option Stats) (overrides schema : Json) :
    Except Failure (Option Refusal) :=
  if (coordinatorPeer overrides).truthy then
    withFlavor overrides schema "coordinator_flavor" fun flavor flavorMb =>
      checkRoom stats .coordinator flavor flavorMb (coordinatorPeer overrides)
  else .ok none

def checkNoCoordinatorWorkerOverlap (overrides : Json) : Option Refusal :=
  if (coordinatorPeer overrides).truthy then
    ((workerPeers overrides).find? fun entry =>
      (entryPeer entry).truthy && (entryPeer entry).eq (coordinatorPeer overrides)).map fun entry =>
        .overlap (entryPeer entry)
  else none

/-! ### What the build places -/

/-- The value that OpenTofu has for a variable: what `_build_env` hands over, or the default. -/
def variableOf (overrides schema : Json) (key : String) : Json :=
  (overrides.get? key).getD (schemaDefault schema key)

/-- The RAM of a VM of this flavor; the API makes no VM of another one. -/
def flavorMb : Json → ℕ
  | .str name => (ramOf name).getD 0
  | _ => 0

/-- What is named runs on the peer; a VM without a name of a peer stays on this host. -/
def placedOn (peer : String) (name : Json) : Bool := name.truthy && name.eq (.str peer)

/-- The workers on a peer: one for each entry that names it. -/
def workersOn (overrides : Json) (peer : String) : ℕ :=
  (workerPeers overrides).countP fun entry => placedOn peer (entryPeer entry)

def placedMb (overrides schema : Json) (peer : String) : ℕ :=
  workersOn overrides peer * flavorMb (variableOf overrides schema "worker_flavor") +
    if placedOn peer (coordinatorPeer overrides) then
      flavorMb (variableOf overrides schema "coordinator_flavor")
    else 0

/-- No peer gets more than it has, with the headroom. -/
def Sound (stats : String → Option Stats) (overrides schema : Json) : Prop :=
  ∀ peer s, stats peer = some s →
    (placedMb overrides schema peer : ℚ) * HEADROOM_FACTOR ≤ s.availableMb

/-- A peer that is named more than once has room for all of its workers. -/
def RoomForAll (stats : String → Option Stats) (overrides schema : Json) : Prop :=
  ∀ peer s, stats peer = some s → 2 ≤ workersOn overrides peer →
    workersOn overrides peer *
      (flavorMb (variableOf overrides schema "worker_flavor") * HEADROOM_FACTOR) ≤ s.availableMb

/-- All the checks let the build through. -/
structure Passes (stats : String → Option Stats) (overrides schema : Json) : Prop where
  workers : checkWorkerPeers stats overrides schema = .ok none
  coordinator : checkCoordinatorPeer stats overrides schema = .ok none
  overlap : checkNoCoordinatorWorkerOverlap overrides = none

/-! ### One VM -/

section

variable {stats : String → Option Stats} {overrides schema : Json} {peer key : String} {s : Stats}
  {name : Json} {check : Json → ℕ → Except Failure (Option Refusal)}

theorem placedOn_iff : placedOn peer name = true ↔ name = .str peer ∧ name.truthy = true := by
  rw [placedOn, Bool.and_eq_true, Json.eq_str, and_comm]

/-- What the check takes for the flavor is what the build takes, if there is such a flavor. -/
theorem flavorName_of_flavorMb (h : flavorMb (variableOf overrides schema key) ≠ 0) :
    ∃ name, flavorName overrides schema key = .str name ∧ name ≠ "" ∧
      ramOf name = some (flavorMb (variableOf overrides schema key)) := by
  cases hvar : variableOf overrides schema key with
  | str name =>
    rw [hvar] at h
    obtain ⟨ram, hram⟩ : ∃ ram, ramOf name = some ram := by
      cases hram : ramOf name with
      | none => exact absurd (by rw [flavorMb, hram]; rfl) h
      | some ram => exact ⟨ram, rfl⟩
    have hname : name ≠ "" := by
      rintro rfl
      have hnone : ramOf "" = none := by decide
      cases hnone.symm.trans hram
    refine ⟨name, ?_, hname, by rw [flavorMb, hram]; rfl⟩
    unfold variableOf at hvar
    unfold flavorName
    dsimp only
    cases hover : overrides.get? key with
    | none =>
      rw [hover] at hvar
      exact (if_neg (by decide)).trans hvar
    | some value =>
      rw [hover] at hvar
      -- an override that names a flavor is not empty
      obtain rfl : value = .str name := hvar
      exact if_pos (decide_eq_true hname)
  | null | bool | int | float | arr | obj => exact absurd (by rw [hvar]; rfl) h

theorem check_of_withFlavor (h : withFlavor overrides schema key check = .ok none)
    (hflavor : flavorMb (variableOf overrides schema key) ≠ 0) :
    check (flavorName overrides schema key) (flavorMb (variableOf overrides schema key)) = .ok none := by
  obtain ⟨name, hname, hne, hram⟩ := flavorName_of_flavorMb hflavor
  unfold withFlavor at h
  rw [hname] at h ⊢
  have htruthy : (Json.str name).truthy = true := decide_eq_true hne
  dsimp only at h
  rw [if_pos htruthy, getFlavor, hram] at h
  exact h

/-- **A peer that passes has room for one VM.** -/
theorem room_of_checkRoom {role : Role} {flavor : Json} {mb : ℕ}
    (h : checkRoom stats role flavor mb (.str peer) = .ok none) (hs : stats peer = some s) :
    (mb : ℚ) * HEADROOM_FACTOR ≤ s.availableMb := by
  unfold checkRoom at h
  rw [peerStats, hs] at h
  by_contra hlt
  have hrefused := Except.ok.inj h
  dsimp only at hrefused
  rw [if_pos (not_le.mp hlt)] at hrefused
  cases hrefused

theorem check_of_checkEntries {check : Json → Except Failure (Option Refusal)} {entries : List Json}
    (h : checkEntries check entries = .ok none) {entry : Json} (hentry : entry ∈ entries)
    (htruthy : (entryPeer entry).truthy = true) : check (entryPeer entry) = .ok none := by
  induction entries with
  | nil => cases hentry
  | cons first entries ih =>
    unfold checkEntries at h
    cases hfirst : (entryPeer first).truthy with
    | true =>
      rw [hfirst, if_pos rfl] at h
      split at h
      · cases h
      · cases h
      · next hok =>
        obtain rfl | hrest := List.mem_cons.mp hentry
        · exact hok
        · exact ih h hrest
    | false =>
      rw [hfirst, if_neg Bool.false_ne_true] at h
      obtain rfl | hrest := List.mem_cons.mp hentry
      · exact absurd htruthy (by rw [hfirst]; exact Bool.false_ne_true)
      · exact ih h hrest

/-- An entry that names the peer. -/
theorem exists_entry (h : workersOn overrides peer ≠ 0) :
    ∃ entry ∈ workerPeers overrides, entryPeer entry = .str peer ∧ (entryPeer entry).truthy = true := by
  obtain ⟨entry, hentry, hplaced⟩ := List.countP_pos_iff.mp (Nat.pos_of_ne_zero h)
  exact ⟨entry, hentry, placedOn_iff.mp hplaced⟩

/-- **A peer that passes has room for each of its workers alone.** -/
theorem room_for_worker (h : Passes stats overrides schema) (hs : stats peer = some s)
    (hon : workersOn overrides peer ≠ 0) :
    (flavorMb (variableOf overrides schema "worker_flavor") : ℚ) * HEADROOM_FACTOR ≤ s.availableMb := by
  obtain ⟨entry, hentry, hpeer, htruthy⟩ := exists_entry hon
  by_cases hflavor : flavorMb (variableOf overrides schema "worker_flavor") = 0
  · rw [hflavor, Nat.cast_zero, zero_mul]
    exact Nat.cast_nonneg _
  · have hworkers := h.workers
    rw [checkWorkerPeers, if_neg (List.ne_nil_of_mem hentry)] at hworkers
    have hcheck := check_of_checkEntries (check_of_withFlavor hworkers hflavor) hentry htruthy
    rw [hpeer] at hcheck
    exact room_of_checkRoom hcheck hs

theorem room_for_coordinator (h : Passes stats overrides schema) (hs : stats peer = some s)
    (hon : placedOn peer (coordinatorPeer overrides) = true) :
    (flavorMb (variableOf overrides schema "coordinator_flavor") : ℚ) * HEADROOM_FACTOR ≤
      s.availableMb := by
  obtain ⟨hpeer, htruthy⟩ := placedOn_iff.mp hon
  by_cases hflavor : flavorMb (variableOf overrides schema "coordinator_flavor") = 0
  · rw [hflavor, Nat.cast_zero, zero_mul]
    exact Nat.cast_nonneg _
  · have hcoordinator := h.coordinator
    rw [checkCoordinatorPeer, if_pos htruthy] at hcoordinator
    have hcheck := check_of_withFlavor hcoordinator hflavor
    rw [hpeer] at hcheck
    exact room_of_checkRoom hcheck hs

/-- The coordinator has its peer for itself. -/
theorem workersOn_of_coordinator (h : Passes stats overrides schema)
    (hon : placedOn peer (coordinatorPeer overrides) = true) : workersOn overrides peer = 0 := by
  by_contra hworkers
  obtain ⟨entry, hentry, hpeer, htruthy⟩ := exists_entry hworkers
  obtain ⟨hcoordinator, hset⟩ := placedOn_iff.mp hon
  have hoverlap := h.overlap
  rw [checkNoCoordinatorWorkerOverlap, if_pos hset, Option.map_eq_none_iff, List.find?_eq_none] at hoverlap
  have hsame : (entryPeer entry).eq (coordinatorPeer overrides) = true := by
    rw [hcoordinator, Json.eq_str, hpeer]
  exact hoverlap entry hentry (by rw [htruthy, hsame]; rfl)

end

/-! ### All the VMs -/

/-- **What passes the checks is sound iff every peer that is named more than once has room for all of
its workers.** -/
theorem sound_iff {stats : String → Option Stats} {overrides schema : Json}
    (h : Passes stats overrides schema) :
    Sound stats overrides schema ↔ RoomForAll stats overrides schema := by
  constructor
  · intro hsound peer s hs _
    have hle := hsound peer s hs
    -- what is placed is at least the workers
    have hworkers : workersOn overrides peer * flavorMb (variableOf overrides schema "worker_flavor") ≤
        placedMb overrides schema peer := Nat.le_add_right _ _
    have hcast : ((workersOn overrides peer *
        flavorMb (variableOf overrides schema "worker_flavor") : ℕ) : ℚ) * HEADROOM_FACTOR ≤
          placedMb overrides schema peer * HEADROOM_FACTOR := by
      apply mul_le_mul_of_nonneg_right (Nat.cast_le.mpr hworkers)
      unfold HEADROOM_FACTOR
      positivity
    rw [Nat.cast_mul, mul_assoc] at hcast
    exact hcast.trans hle
  · intro hroom peer s hs
    unfold placedMb
    cases hon : placedOn peer (coordinatorPeer overrides) with
    | true =>
      rw [workersOn_of_coordinator h hon, zero_mul, zero_add, if_pos rfl]
      exact room_for_coordinator h hs hon
    | false =>
      rw [if_neg Bool.false_ne_true, add_zero, Nat.cast_mul, mul_assoc]
      obtain hzero | hone | hmore : workersOn overrides peer = 0 ∨ workersOn overrides peer = 1 ∨
          2 ≤ workersOn overrides peer := by omega
      · rw [hzero, Nat.cast_zero, zero_mul]
        exact Nat.cast_nonneg _
      · rw [hone, Nat.cast_one, one_mul]
        exact room_for_worker h hs (by rw [hone]; exact Nat.one_ne_zero)
      · exact hroom peer s hs hmore

/-- A worker for each of the peers. -/
def exampleOverrides (peers : List String) : Json :=
  .obj [("worker_flavor", .str "standard.2xlarge"),
    ("worker_peers", .arr (peers.map fun peer => .obj [("peer_id", .str peer)]))]

/-- A peer with some memory. -/
def exampleStats (mb : ℕ) (peer : String) : Option Stats :=
  if peer = "a" then some ⟨some ⟨some mb⟩⟩ else none

theorem passes_of_matches {stats : String → Option Stats} {overrides schema : Json}
    (h : (checkWorkerPeers stats overrides schema matches .ok none) ∧
      (checkCoordinatorPeer stats overrides schema matches .ok none) ∧
      (checkNoCoordinatorWorkerOverlap overrides matches none)) : Passes stats overrides schema := by
  obtain ⟨hworkers, hcoordinator, hoverlap⟩ := h
  refine ⟨?_, ?_, ?_⟩
  · split at hworkers
    · assumption
    · cases hworkers
  · split at hcoordinator
    · assumption
    · cases hcoordinator
  · split at hoverlap
    · assumption
    · cases hoverlap

/-- Two workers of 16 GB on a peer that has 50. -/
theorem sound_iff_twice : Sound (exampleStats 50000) (exampleOverrides ["a", "a"]) (.obj []) := by
  refine (sound_iff (passes_of_matches (by with_unfolding_all decide))).mpr ?_
  intro peer s hs _
  obtain ⟨rfl, rfl⟩ : peer = "a" ∧ s = ⟨some ⟨some 50000⟩⟩ := by
    unfold exampleStats at hs
    split at hs
    · next ha => exact ⟨ha, (Option.some.inj hs).symm⟩
    · cases hs
  have hworkers : workersOn (exampleOverrides ["a", "a"]) "a" = 2 := by decide
  have hflavor : flavorMb (variableOf (exampleOverrides ["a", "a"]) (.obj []) "worker_flavor") = 16384 := by
    decide
  have havailable : (⟨some ⟨some 50000⟩⟩ : Stats).availableMb = 50000 := rfl
  rw [hworkers, hflavor, havailable, HEADROOM_FACTOR]
  norm_num

/-- Two of them on a peer that has 20. -/
theorem overbooked : Passes (exampleStats 20000) (exampleOverrides ["a", "a"]) (.obj []) ∧
    ¬Sound (exampleStats 20000) (exampleOverrides ["a", "a"]) (.obj []) := by
  refine ⟨passes_of_matches (by with_unfolding_all decide), fun hsound => ?_⟩
  have hle := hsound "a" ⟨some ⟨some 20000⟩⟩ rfl
  have hplaced : placedMb (exampleOverrides ["a", "a"]) (.obj []) "a" = 32768 := by decide
  have havailable : (⟨some ⟨some 20000⟩⟩ : Stats).availableMb = 20000 := rfl
  rw [hplaced, havailable, HEADROOM_FACTOR] at hle
  norm_num at hle

end CapacityGate
end CloudCore
