import CloudCore.Python.Rounding
import Mathlib.Algebra.BigOperators.Group.List.Basic
import Mathlib.Algebra.Order.BigOperators.Group.List
import Mathlib.Tactic.FieldSimp
import Mathlib.Tactic.Positivity

/-!
# The layers that the workers get

`_effective_capacity` and `compute_offload_layers` of `layer_split.py`, in exact arithmetic.  What
`gguf_meta.block_count` says of the model and the size of its file are arguments.

## Main definitions

* `effectiveCapacity` — what a host can do at the moment.
* `computeOffloadLayers` — the number of layers.
* `Fits` — a split that both machines can hold.

## Main results

* `fits_iff` — **the split fits both machines iff no machine is too small for a single layer while
  the other one could hold the whole model.**
* `layers_monotone` — **more cores or less load of a worker never cost it layers.**
-/

namespace CloudCore
namespace LayerSplit

open Python

/-- What `compute_offload_layers` reads of a host's statistics. -/
structure Stats where
  cores : ℕ
  loadPct1m : ℚ
  deriving DecidableEq

def minFreeFraction : ℚ := 5 / 100

def safeWeightFraction : ℚ := 75 / 100

def mb : ℚ := 1024 * 1024

def effectiveCapacity (s : Stats) : ℚ := s.cores * max minFreeFraction (1 - s.loadPct1m / 100)

/-- `ZeroDivisionError`. -/
inductive Failure where
  | zeroDivision
  deriving DecidableEq

/-- The bytes of weights that a flavor has room for. -/
def room (flavorMb : ℤ) : ℚ := flavorMb * safeWeightFraction * mb

/-- At least one layer, and not all of them. -/
def inRange (totalLayers layers : ℤ) : ℤ := max 1 (min (totalLayers - 1) layers)

/-- The split by capacity alone. -/
def layersByCapacity (totalLayers : ℤ) (workerCap totalCap : ℚ) : ℤ :=
  inRange totalLayers (roundHalfEven (totalLayers * (workerCap / totalCap)))

/-- The split that also fits the flavors, if there is one. -/
def clampToFlavors (totalLayers layers : ℤ) (bytesPerLayer : ℚ) (coordinatorMb workerMb : ℤ) :
    Option ℤ :=
  let maxWorkerLayers := trunc (room workerMb / bytesPerLayer)
  let maxCoordinatorLayers := trunc (room coordinatorMb / bytesPerLayer)
  let minWorkerLayers := totalLayers - maxCoordinatorLayers
  if minWorkerLayers > maxWorkerLayers then none
  else some (inRange totalLayers (max (min layers maxWorkerLayers) minWorkerLayers))

/-- The clamp, when both flavors are known. -/
def clampToKnown (totalLayers layers : ℤ) (modelBytes : ℕ) (coordinatorMb workerMb : Option ℤ) :
    Except Failure (Option ℤ) :=
  match coordinatorMb.filter (· ≠ 0), workerMb.filter (· ≠ 0) with
  | some coordinatorMb, some workerMb =>
    if modelBytes = 0 then .error .zeroDivision
    else .ok (clampToFlavors totalLayers layers (modelBytes / totalLayers) coordinatorMb workerMb)
  | _, _ => .ok (some layers)

def totalCapacity (coordinator : Stats) (workers : List Stats) : ℚ :=
  effectiveCapacity coordinator + (workers.map effectiveCapacity).sum

def computeOffloadLayers (blockCount : Option ℤ) (modelBytes : ℕ) (coordinator : Stats)
    (workers : List Stats) (coordinatorMb workerMb : Option ℤ) : Except Failure (Option ℤ) :=
  match blockCount with
  | none => .ok none
  | some totalLayers =>
    if totalLayers < 2 ∨ workers = [] then .ok none
    else if totalCapacity coordinator workers ≤ 0 then .ok none
    else
      clampToKnown totalLayers
        (layersByCapacity totalLayers (workers.map effectiveCapacity).sum
          (totalCapacity coordinator workers))
        modelBytes coordinatorMb workerMb

/-! ### What fits -/

/-- `n` of the layers fit the worker, and the others the coordinator. -/
structure Fits (totalLayers : ℤ) (modelBytes : ℕ) (coordinatorMb workerMb n : ℤ) : Prop where
  least : 1 ≤ n
  most : n ≤ totalLayers - 1
  worker : n * (modelBytes / totalLayers : ℚ) ≤ room workerMb
  coordinator : (totalLayers - n) * (modelBytes / totalLayers : ℚ) ≤ room coordinatorMb

/-- The answer fits, and there is one where something fits. -/
def Faithful (totalLayers : ℤ) (modelBytes : ℕ) (coordinatorMb workerMb : ℤ) (capacity : ℚ)
    (r : Except Failure (Option ℤ)) : Prop :=
  (∀ n, r = .ok (some n) → Fits totalLayers modelBytes coordinatorMb workerMb n) ∧
    (r = .ok none → 0 < capacity → ∀ n, ¬Fits totalLayers modelBytes coordinatorMb workerMb n)

/-- A machine with room for the whole model is not paired with one that has none for a layer. -/
def Balanced (totalLayers : ℤ) (modelBytes : ℕ) (coordinatorMb workerMb : ℤ) : Prop :=
  ((modelBytes : ℚ) ≤ room coordinatorMb → (modelBytes / totalLayers : ℚ) ≤ room workerMb) ∧
    ((modelBytes : ℚ) ≤ room workerMb → (modelBytes / totalLayers : ℚ) ≤ room coordinatorMb)

section Fits

variable {totalLayers : ℤ} {modelBytes : ℕ} {coordinatorMb workerMb n : ℤ}

theorem room_pos {flavorMb : ℤ} (h : 0 < flavorMb) : 0 < room flavorMb := by
  have hflavor : (0 : ℚ) < flavorMb := Int.cast_pos.mpr h
  unfold room safeWeightFraction mb
  positivity

/-- How many layers fit a machine. -/
theorem le_trunc_room {flavorMb : ℤ} (hflavor : 0 < flavorMb) {bytes : ℚ} (hbytes : 0 < bytes) (k : ℤ) :
    k ≤ trunc (room flavorMb / bytes) ↔ k * bytes ≤ room flavorMb := by
  rw [le_trunc_iff (div_nonneg (room_pos hflavor).le hbytes.le), le_div_iff₀ hbytes]

theorem fits_iff_trunc (hlayers : 2 ≤ totalLayers) (hbytes : modelBytes ≠ 0)
    (hc : 0 < coordinatorMb) (hw : 0 < workerMb) :
    Fits totalLayers modelBytes coordinatorMb workerMb n ↔
      (1 ≤ n ∧ n ≤ totalLayers - 1) ∧
        n ≤ trunc (room workerMb / (modelBytes / totalLayers)) ∧
        totalLayers - n ≤ trunc (room coordinatorMb / (modelBytes / totalLayers)) := by
  have hbytes : (0 : ℚ) < modelBytes := by exact_mod_cast Nat.pos_of_ne_zero hbytes
  have htotal : (0 : ℚ) < totalLayers := by exact_mod_cast (by omega : 0 < totalLayers)
  rw [le_trunc_room hw (div_pos hbytes htotal), le_trunc_room hc (div_pos hbytes htotal)]
  push_cast
  exact ⟨fun h => ⟨⟨h.least, h.most⟩, h.worker, h.coordinator⟩,
    fun h => ⟨h.1.1, h.1.2, h.2.1, h.2.2⟩⟩

theorem balanced_iff_trunc (hlayers : 2 ≤ totalLayers) (hbytes : modelBytes ≠ 0)
    (hc : 0 < coordinatorMb) (hw : 0 < workerMb) :
    Balanced totalLayers modelBytes coordinatorMb workerMb ↔
      (totalLayers ≤ trunc (room coordinatorMb / (modelBytes / totalLayers)) →
          1 ≤ trunc (room workerMb / (modelBytes / totalLayers))) ∧
        (totalLayers ≤ trunc (room workerMb / (modelBytes / totalLayers)) →
          1 ≤ trunc (room coordinatorMb / (modelBytes / totalLayers))) := by
  have hbytes : (0 : ℚ) < modelBytes := by exact_mod_cast Nat.pos_of_ne_zero hbytes
  have htotal : (0 : ℚ) < totalLayers := by exact_mod_cast (by omega : 0 < totalLayers)
  have hwhole : totalLayers * ((modelBytes : ℚ) / totalLayers) = modelBytes :=
    mul_div_cancel₀ _ htotal.ne'
  simp only [le_trunc_room hw (div_pos hbytes htotal), le_trunc_room hc (div_pos hbytes htotal),
    hwhole, Int.cast_one, one_mul]
  rfl

/-- The last clamp undoes the one before it exactly where one side holds no layer and the other
side all of them. -/
theorem clamp_fits_iff (layers : ℤ) {x y : ℤ} (hlayers : 2 ≤ totalLayers) (hx : 0 ≤ x) (hy : 0 ≤ y)
    (hmin : totalLayers - y ≤ x) :
    (inRange totalLayers (max (min layers x) (totalLayers - y)) ≤ x ∧
      totalLayers - inRange totalLayers (max (min layers x) (totalLayers - y)) ≤ y) ↔
      (totalLayers ≤ y → 1 ≤ x) ∧ (totalLayers ≤ x → 1 ≤ y) := by
  unfold inRange
  omega

theorem inRange_bounds {layers : ℤ} (hlayers : 2 ≤ totalLayers) :
    1 ≤ inRange totalLayers layers ∧ inRange totalLayers layers ≤ totalLayers - 1 := by
  unfold inRange
  omega

/-- With capacity and a model, everything depends on the flavors. -/
theorem faithful_clamp_iff {layers : ℤ} {capacity : ℚ} (hlayers : 2 ≤ totalLayers)
    (hbytes : modelBytes ≠ 0) (hc : 0 < coordinatorMb) (hw : 0 < workerMb) :
    Faithful totalLayers modelBytes coordinatorMb workerMb capacity
      (.ok (clampToFlavors totalLayers layers (modelBytes / totalLayers) coordinatorMb workerMb)) ↔
      Balanced totalLayers modelBytes coordinatorMb workerMb := by
  have hperLayer : (0 : ℚ) < modelBytes / totalLayers :=
    div_pos (by exact_mod_cast Nat.pos_of_ne_zero hbytes)
      (by exact_mod_cast (by omega : 0 < totalLayers))
  have hx : 0 ≤ trunc (room workerMb / (modelBytes / totalLayers)) :=
    (le_trunc_room hw hperLayer 0).mpr (by simpa using (room_pos hw).le)
  have hy : 0 ≤ trunc (room coordinatorMb / (modelBytes / totalLayers)) :=
    (le_trunc_room hc hperLayer 0).mpr (by simpa using (room_pos hc).le)
  rw [balanced_iff_trunc hlayers hbytes hc hw]
  unfold Faithful clampToFlavors
  simp only [fits_iff_trunc hlayers hbytes hc hw]
  generalize trunc (room workerMb / (modelBytes / totalLayers)) = x at hx ⊢
  generalize trunc (room coordinatorMb / (modelBytes / totalLayers)) = y at hy ⊢
  split
  · -- neither machine holds all layers, and together they do not either
    refine ⟨fun _ => by omega, fun _ => ⟨nofun, fun _ _ n hn => by omega⟩⟩
  · next hmin =>
    rw [← clamp_fits_iff layers hlayers hx hy (not_lt.mp hmin)]
    refine ⟨fun h => (h.1 _ rfl).2, fun h => ⟨?_, nofun⟩⟩
    rintro _ ⟨⟩
    exact ⟨inRange_bounds hlayers, h⟩

/-- **The split fits both machines, iff no machine is too small for one layer while the other one
has room for the whole model.** -/
theorem fits_iff {coordinator : Stats} {workers : List Stats} (hlayers : 2 ≤ totalLayers)
    (hworkers : workers ≠ []) (hc : 0 < coordinatorMb) (hw : 0 < workerMb) :
    Faithful totalLayers modelBytes coordinatorMb workerMb (totalCapacity coordinator workers)
      (computeOffloadLayers (some totalLayers) modelBytes coordinator workers (some coordinatorMb)
        (some workerMb)) ↔
      (0 < totalCapacity coordinator workers →
        Balanced totalLayers modelBytes coordinatorMb workerMb) := by
  have hfilter : ∀ k : ℤ, 0 < k → (some k).filter (· ≠ 0) = some k := by
    intro k hk
    rw [Option.filter_some, if_pos (decide_eq_true hk.ne')]
  unfold computeOffloadLayers
  dsimp only
  rw [if_neg (not_or.mpr ⟨not_lt.mpr hlayers, hworkers⟩)]
  split
  · next hcap =>
    exact ⟨fun _ h => absurd h (not_lt.mpr hcap), fun _ => ⟨nofun, fun _ h => absurd h (not_lt.mpr hcap)⟩⟩
  · next hcap =>
    unfold clampToKnown
    rw [hfilter _ hc, hfilter _ hw]
    dsimp only
    split
    · next hbytes =>
      -- layers of no bytes fit everywhere
      have hnothing : (modelBytes / totalLayers : ℚ) = 0 := by rw [hbytes, Nat.cast_zero, zero_div]
      refine ⟨fun _ _ => ⟨fun _ => ?_, fun _ => ?_⟩, fun _ => ⟨nofun, nofun⟩⟩
      · exact hnothing.trans_le (room_pos hw).le
      · exact hnothing.trans_le (room_pos hc).le
    · next hbytes =>
      rw [faithful_clamp_iff hlayers hbytes hc hw]
      exact ⟨fun h _ => h, fun h => h (not_le.mp hcap)⟩

/-- A flavor with no room for a layer, beside one that holds all of them. -/
theorem no_room_for_one :
    ¬Faithful 24 (12 * 1024 ^ 3) 16384 512 (totalCapacity ⟨8, 0⟩ [⟨4, 80⟩])
      (computeOffloadLayers (some 24) (12 * 1024 ^ 3) ⟨8, 0⟩ [⟨4, 80⟩] (some 16384) (some 512)) := by
  have hanswer : computeOffloadLayers (some 24) (12 * 1024 ^ 3) ⟨8, 0⟩ [⟨4, 80⟩] (some 16384)
      (some 512) = .ok (some 1) := by with_unfolding_all decide
  intro h
  have hfits := (h.1 1 hanswer).worker
  norm_num [room, safeWeightFraction, mb] at hfits

/-- Two flavors that hold the model only together. -/
theorem fits_iff_together :
    computeOffloadLayers (some 48) 8370000000 ⟨4, 80⟩ [⟨4, 50⟩] (some 8192) (some 8192) = .ok (some 34) ∧
      Fits 48 8370000000 8192 8192 34 := by
  have hanswer : computeOffloadLayers (some 48) 8370000000 ⟨4, 80⟩ [⟨4, 50⟩] (some 8192) (some 8192) =
      .ok (some 34) := by with_unfolding_all decide
  have hfull : ¬((8370000000 : ℕ) : ℚ) ≤ room 8192 := by norm_num [room, safeWeightFraction, mb]
  have hbalanced : Balanced 48 8370000000 8192 8192 :=
    ⟨fun h => absurd h hfull, fun h => absurd h hfull⟩
  have hfaithful : Faithful 48 8370000000 8192 8192 (totalCapacity ⟨4, 80⟩ [⟨4, 50⟩]) _ :=
    (fits_iff (by decide) (by decide) (by decide) (by decide)).mpr fun _ => hbalanced
  exact ⟨hanswer, hfaithful.1 34 hanswer⟩

end Fits

/-! ### What the load moves -/

/-- `s'` can do at least what `s` can. -/
def Stats.Improves (s s' : Stats) : Prop := s.cores ≤ s'.cores ∧ s'.loadPct1m ≤ s.loadPct1m

/-- A number stays a number, which the change moves in one direction at most. -/
def Moves (le : ℤ → ℤ → Prop) (r r' : Except Failure (Option ℤ)) : Prop :=
  ∀ n, r = .ok (some n) → ∃ n', r' = .ok (some n') ∧ le n n'

theorem effectiveCapacity_nonneg (s : Stats) : 0 ≤ effectiveCapacity s := by
  have hfree : (0 : ℚ) ≤ max minFreeFraction (1 - s.loadPct1m / 100) :=
    le_max_of_le_left (by norm_num [minFreeFraction])
  exact mul_nonneg (Nat.cast_nonneg _) hfree

theorem effectiveCapacity_mono {s s' : Stats} (h : s.Improves s') :
    effectiveCapacity s ≤ effectiveCapacity s' := by
  have hfree : max minFreeFraction (1 - s.loadPct1m / 100) ≤
      max minFreeFraction (1 - s'.loadPct1m / 100) :=
    max_le_max_left _ (by linarith [h.2])
  exact mul_le_mul (by exact_mod_cast h.1) hfree
    (le_max_of_le_left (by norm_num [minFreeFraction])) (Nat.cast_nonneg _)

theorem sum_nonneg (workers : List Stats) : 0 ≤ (workers.map effectiveCapacity).sum :=
  List.sum_nonneg fun _ h => by
    obtain ⟨s, -, rfl⟩ := List.mem_map.mp h
    exact effectiveCapacity_nonneg s

theorem layersByCapacity_mono {totalLayers : ℤ} (hlayers : 0 ≤ totalLayers) {w t w' t' : ℚ}
    (h : w / t ≤ w' / t') :
    layersByCapacity totalLayers w t ≤ layersByCapacity totalLayers w' t' := by
  have hround : roundHalfEven (totalLayers * (w / t)) ≤ roundHalfEven (totalLayers * (w' / t')) :=
    roundHalfEven_mono (mul_le_mul_of_nonneg_left h (by exact_mod_cast hlayers))
  unfold layersByCapacity inRange
  omega

/-- The flavors decide whether there is an answer, and the clamps keep the order. -/
theorem clampToKnown_mono {totalLayers layers layers' : ℤ} (h : layers ≤ layers') (modelBytes : ℕ)
    (coordinatorMb workerMb : Option ℤ) :
    Moves (· ≤ ·) (clampToKnown totalLayers layers modelBytes coordinatorMb workerMb)
        (clampToKnown totalLayers layers' modelBytes coordinatorMb workerMb) ∧
      Moves (· ≥ ·) (clampToKnown totalLayers layers' modelBytes coordinatorMb workerMb)
        (clampToKnown totalLayers layers modelBytes coordinatorMb workerMb) := by
  unfold clampToKnown clampToFlavors
  split
  · split
    · exact ⟨nofun, nofun⟩
    · dsimp only
      split
      · exact ⟨nofun, nofun⟩
      · constructor <;> rintro _ ⟨⟩ <;> exact ⟨_, rfl, by unfold inRange; omega⟩
  · constructor <;> rintro _ ⟨⟩ <;> exact ⟨_, rfl, h⟩

theorem clampToKnown_none_iff (totalLayers layers layers' : ℤ) (modelBytes : ℕ)
    (coordinatorMb workerMb : Option ℤ) :
    clampToKnown totalLayers layers modelBytes coordinatorMb workerMb = .ok none ↔
      clampToKnown totalLayers layers' modelBytes coordinatorMb workerMb = .ok none := by
  unfold clampToKnown clampToFlavors
  split
  · split
    · exact ⟨nofun, nofun⟩
    · dsimp only
      split
      · exact Iff.rfl
      · exact ⟨nofun, nofun⟩
  · exact ⟨nofun, nofun⟩

section Moves

variable {blockCount : Option ℤ} {modelBytes : ℕ} {coordinator coordinator' : Stats}
  {workers workers' : List Stats} {coordinatorMb workerMb : Option ℤ}

theorem computeOffloadLayers_eq {totalLayers : ℤ} (hlayers : 2 ≤ totalLayers)
    (hworkers : workers ≠ []) (hcap : 0 < totalCapacity coordinator workers) :
    computeOffloadLayers (some totalLayers) modelBytes coordinator workers coordinatorMb workerMb =
      clampToKnown totalLayers
        (layersByCapacity totalLayers (workers.map effectiveCapacity).sum
          (totalCapacity coordinator workers))
        modelBytes coordinatorMb workerMb := by
  unfold computeOffloadLayers
  dsimp only
  rw [if_neg (not_or.mpr ⟨not_lt.mpr hlayers, hworkers⟩), if_neg (not_le.mpr hcap)]

/-- What an answer that is a number says of the arguments. -/
theorem of_computeOffloadLayers {n : ℤ}
    (h : computeOffloadLayers blockCount modelBytes coordinator workers coordinatorMb workerMb =
      .ok (some n)) :
    ∃ totalLayers, blockCount = some totalLayers ∧ 2 ≤ totalLayers ∧ workers ≠ [] ∧
      0 < totalCapacity coordinator workers := by
  unfold computeOffloadLayers at h
  split at h
  · cases h
  · next totalLayers =>
    split at h
    · cases h
    · next hok =>
      split at h
      · cases h
      · next hcap =>
        exact ⟨totalLayers, rfl, by omega, fun hempty => hok (.inr hempty), not_le.mp hcap⟩

/-- The workers' part of the capacity grows with theirs. -/
theorem share_le {c w c' w' : ℚ} (hc : 0 ≤ c') (hw : 0 ≤ w) (hcc : c' ≤ c) (hww : w ≤ w')
    (hpos : 0 < c + w) (hpos' : 0 < c' + w') : w / (c + w) ≤ w' / (c' + w') := by
  have hcross : w * c' ≤ w' * c := mul_le_mul hww hcc hc (hw.trans hww)
  rw [div_le_div_iff₀ hpos hpos']
  linarith

/-- More capacity of the workers moves layers to them. -/
theorem moves_to_workers (hworkers : workers' ≠ [])
    (hsum : (workers.map effectiveCapacity).sum ≤ (workers'.map effectiveCapacity).sum) :
    Moves (· ≤ ·)
      (computeOffloadLayers blockCount modelBytes coordinator workers coordinatorMb workerMb)
      (computeOffloadLayers blockCount modelBytes coordinator workers' coordinatorMb workerMb) := by
  intro n hn
  obtain ⟨totalLayers, rfl, hlayers, hne, hcap⟩ := of_computeOffloadLayers hn
  have hcap' : 0 < totalCapacity coordinator workers' := by
    unfold totalCapacity at hcap ⊢
    linarith
  rw [computeOffloadLayers_eq hlayers hne hcap] at hn
  rw [computeOffloadLayers_eq hlayers hworkers hcap']
  refine (clampToKnown_mono (layersByCapacity_mono (by omega) ?_) _ _ _).1 n hn
  exact share_le (effectiveCapacity_nonneg _) (sum_nonneg _) le_rfl hsum hcap hcap'

/-- More capacity of the coordinator moves layers to it. -/
theorem moves_to_coordinator (himproves : coordinator.Improves coordinator') :
    Moves (· ≥ ·)
      (computeOffloadLayers blockCount modelBytes coordinator workers coordinatorMb workerMb)
      (computeOffloadLayers blockCount modelBytes coordinator' workers coordinatorMb workerMb) := by
  intro n hn
  obtain ⟨totalLayers, rfl, hlayers, hne, hcap⟩ := of_computeOffloadLayers hn
  have hle := effectiveCapacity_mono himproves
  have hcap' : 0 < totalCapacity coordinator' workers := by
    unfold totalCapacity at hcap ⊢
    linarith
  rw [computeOffloadLayers_eq hlayers hne hcap] at hn
  rw [computeOffloadLayers_eq hlayers hne hcap']
  refine (clampToKnown_mono (layersByCapacity_mono (by omega) ?_) _ _ _).2 n hn
  exact share_le (effectiveCapacity_nonneg _) (sum_nonneg _) hle le_rfl hcap' hcap

theorem computeOffloadLayers_perm (h : workers.Perm workers') :
    computeOffloadLayers blockCount modelBytes coordinator workers coordinatorMb workerMb =
      computeOffloadLayers blockCount modelBytes coordinator workers' coordinatorMb workerMb := by
  have hsum : (workers.map effectiveCapacity).sum = (workers'.map effectiveCapacity).sum :=
    (h.map _).sum_eq
  have hempty : workers = [] ↔ workers' = [] := by
    constructor
    · rintro rfl
      exact h.nil_eq.symm
    · rintro rfl
      exact h.eq_nil
  unfold computeOffloadLayers totalCapacity
  rw [hsum]
  simp only [hempty]

theorem computeOffloadLayers_none_iff (hcap : 0 < totalCapacity coordinator workers)
    (hcap' : 0 < totalCapacity coordinator' workers')
    (hempty : workers = [] ↔ workers' = []) :
    computeOffloadLayers blockCount modelBytes coordinator workers coordinatorMb workerMb = .ok none ↔
      computeOffloadLayers blockCount modelBytes coordinator' workers' coordinatorMb workerMb =
        .ok none := by
  unfold computeOffloadLayers
  cases blockCount with
  | none => exact Iff.rfl
  | some totalLayers =>
    dsimp only
    rw [if_neg (not_le.mpr hcap), if_neg (not_le.mpr hcap')]
    simp only [hempty]
    split
    · exact Iff.rfl
    · exact clampToKnown_none_iff ..

/-- A better worker in the list. -/
theorem sum_replace_le {pre suf : List Stats} {s s' : Stats} (h : s.Improves s') :
    ((pre ++ s :: suf).map effectiveCapacity).sum ≤ ((pre ++ s' :: suf).map effectiveCapacity).sum := by
  have hle := effectiveCapacity_mono h
  simp only [List.map_append, List.map_cons, List.sum_append, List.sum_cons]
  linarith

/-- One more worker in the list. -/
theorem sum_insert_le (pre suf : List Stats) (s : Stats) :
    ((pre ++ suf).map effectiveCapacity).sum ≤ ((pre ++ s :: suf).map effectiveCapacity).sum := by
  have hle := effectiveCapacity_nonneg s
  simp only [List.map_append, List.map_cons, List.sum_append, List.sum_cons]
  linarith

end Moves

/-- **A better or an added worker never loses layers, a better coordinator never gives any away, the
order of the workers does not matter, and neither does the load, for whether there is an answer.** -/
theorem layers_monotone (blockCount : Option ℤ) (modelBytes : ℕ) (coordinatorMb workerMb : Option ℤ) :
    (∀ coordinator pre suf (s s' : Stats), s.Improves s' →
        Moves (· ≤ ·)
          (computeOffloadLayers blockCount modelBytes coordinator (pre ++ s :: suf) coordinatorMb
            workerMb)
          (computeOffloadLayers blockCount modelBytes coordinator (pre ++ s' :: suf) coordinatorMb
            workerMb)) ∧
      (∀ (coordinator coordinator' : Stats) workers, coordinator.Improves coordinator' →
        Moves (· ≥ ·)
          (computeOffloadLayers blockCount modelBytes coordinator workers coordinatorMb workerMb)
          (computeOffloadLayers blockCount modelBytes coordinator' workers coordinatorMb workerMb)) ∧
      (∀ coordinator pre suf s,
        Moves (· ≤ ·)
          (computeOffloadLayers blockCount modelBytes coordinator (pre ++ suf) coordinatorMb workerMb)
          (computeOffloadLayers blockCount modelBytes coordinator (pre ++ s :: suf) coordinatorMb
            workerMb)) ∧
      (∀ coordinator workers workers', workers.Perm workers' →
        computeOffloadLayers blockCount modelBytes coordinator workers coordinatorMb workerMb =
          computeOffloadLayers blockCount modelBytes coordinator workers' coordinatorMb workerMb) ∧
      ∀ coordinator coordinator' workers workers', coordinator.cores = coordinator'.cores →
        workers.map Stats.cores = workers'.map Stats.cores →
        0 < totalCapacity coordinator workers → 0 < totalCapacity coordinator' workers' →
        (computeOffloadLayers blockCount modelBytes coordinator workers coordinatorMb workerMb =
            .ok none ↔
          computeOffloadLayers blockCount modelBytes coordinator' workers' coordinatorMb workerMb =
            .ok none) := by
  refine ⟨?_, ?_, ?_, ?_, ?_⟩
  · intro coordinator pre suf s s' h
    exact moves_to_workers (by simp) (sum_replace_le h)
  · intro coordinator coordinator' workers h
    exact moves_to_coordinator h
  · intro coordinator pre suf s
    exact moves_to_workers (by simp) (sum_insert_le pre suf s)
  · intro coordinator workers workers' h
    exact computeOffloadLayers_perm h
  · intro coordinator coordinator' workers workers' _ hcores hcap hcap'
    refine computeOffloadLayers_none_iff hcap hcap' ?_
    rw [← List.map_eq_nil_iff (f := Stats.cores), hcores, List.map_eq_nil_iff]

/-- An idle worker with twice the cores takes over from a busy one, up to what its flavor holds. -/
theorem layers_monotone_idle :
    computeOffloadLayers (some 48) 8370000000 ⟨4, 80⟩ [⟨4, 50⟩] (some 8192) (some 8192) = .ok (some 34) ∧
      computeOffloadLayers (some 48) 8370000000 ⟨4, 80⟩ [⟨8, 0⟩] (some 8192) (some 8192) = .ok (some 36) ∧
      Moves (· ≤ ·)
        (computeOffloadLayers (some 48) 8370000000 ⟨4, 80⟩ ([] ++ [⟨4, 50⟩]) (some 8192) (some 8192))
        (computeOffloadLayers (some 48) 8370000000 ⟨4, 80⟩ ([] ++ [⟨8, 0⟩]) (some 8192) (some 8192)) :=
  ⟨by with_unfolding_all decide, by with_unfolding_all decide,
    (layers_monotone (some 48) 8370000000 (some 8192) (some 8192)).1 ⟨4, 80⟩ [] [] ⟨4, 50⟩ ⟨8, 0⟩
      ⟨by decide, by decide⟩⟩

end LayerSplit
end CloudCore
