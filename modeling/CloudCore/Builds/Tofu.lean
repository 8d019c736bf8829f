import CloudCore.Effect.Pool
import CloudCore.Effect.Sequential
import Mathlib.Data.Int.Notation

/-!
# OpenTofu builds

`api/tofu_engine.py`.  A build applies a template in the template's own directory,
where OpenTofu keeps its state file: one file for each template, and not for each
build.  A status is kept for each build.

## Main definitions

* `Resource`, `Build`, `State` — what exists, what the state files track, the rows.
* `executeTofu`, `runBuild`, `runTofuDestroy` — the code.
* `Tracked`, `Intact`, `Own` — the three parts of what is expected.
* `Allowed`, `Whole` — what must hold of an operation for that.

## Main results

* `tracked_of_sequence` — nothing is ever orphaned.
* `builds_of_sequence` — **what is expected holds in every sequence of allowed operations.**
* `superseded` — a second build of a template takes the resources of the first.
-/

namespace CloudCore
namespace Tofu

open Effect
open Effect.Program (Sure attempt sure_perform sure_attempt)

/-! ### Builds and resources -/

inductive Status where
  | pending
  | running
  | success
  | failed
  | destroyed
  deriving DecidableEq

/-- A resource, with the build that created it and the template of that build. -/
structure Resource where
  id : ℕ
  build : String
  template : String
  deriving DecidableEq

/-- A row of `tofu_builds`. -/
structure Build where
  id : String
  template : String
  status : Status
  exitCode : ℤ
  deriving DecidableEq

inductive Failure where
  /-- `FileNotFoundError`: no template directory, or no OpenTofu. -/
  | fileNotFound
  /-- `ValueError`: no such build. -/
  | value
  /-- A program could not be started, or a file could not be read or removed. -/
  | os
  deriving DecidableEq

/-! ### Commands -/

/-- The steps of the engine; a template names its directory. -/
inductive Cmd where
  /-- `uuid.uuid4()`. -/
  | newId
  /-- `src_dir.exists()`. -/
  | directory (template : String)
  /-- `_build_env` and `_find_tofu`. -/
  | findTofu
  /-- `state_file.exists()`. -/
  | stateExists (template : String)
  /-- `bool(json.loads(state_file.read_text()).get("resources"))`. -/
  | readState (template : String)
  /-- `tofu get`. -/
  | get (template : String)
  /-- `tofu destroy -auto-approve`. -/
  | destroy (template : String)
  /-- Removes `terraform.tfstate`, or `terraform.tfstate.backup`, if it is there. -/
  | unlink (template : String) (backup : Bool)
  /-- `tofu init`. -/
  | init (template : String)
  /-- `using_dev_overrides and modules_json.exists()`. -/
  | modulesResolved (template : String)
  /-- `tofu apply -auto-approve`, for a build. -/
  | apply (build template : String)
  /-- `failure_queue.queue_failure`. -/
  | queueFailure (build : String)
  | getBuild (id : String)
  /-- `_save_build`. -/
  | saveBuild (b : Build)
  /-- `mark_build_destroyed`. -/
  | markDestroyed (id : String)
  deriving DecidableEq

/-- What a step answers; programs answer with their exit code. -/
@[reducible] def Cmd.Ans : Cmd → Type
  | .newId => String
  | .directory _ | .stateExists _ | .modulesResolved _ => Bool
  | .findTofu | .unlink .. | .queueFailure _ => Except Failure Unit
  | .readState _ => Except Failure Bool
  | .get _ | .destroy _ | .init _ | .apply .. => Except Failure ℤ
  | .getBuild _ => Option Build
  | .saveBuild _ | .markDestroyed _ => Unit

abbrev sig : Signature := ⟨Cmd, Cmd.Ans⟩

/-- The code of the engine. -/
abbrev Code (α : Type) := Program sig Failure α

def perform (c : Cmd) : Code c.Ans := Program.perform (F := sig) c

def tryStep {α : Type} (c : Cmd) (h : c.Ans = Except Failure α) : Code α :=
  attempt (F := sig) c h

/-! ### The engine -/

/-- How a build ends. -/
structure Outcome where
  status : Status
  exitCode : ℤ

/-- The part of `_execute_tofu` that destroys what the state file tracks: the exit code
with which the build stops, if it does. -/
def destroyFirst (template : String) : Code (Option ℤ) :=
  Program.tryCatch (do
      let resources : Bool ← tryStep (.readState template) rfl
      if resources then do
        let _ : ℤ ← tryStep (.get template) rfl
        let rc : ℤ ← tryStep (.destroy template) rfl
        pure (if rc = 0 then none else some rc)
      else pure none)
    fun _ => pure (some 1)

/-- The rest of `_execute_tofu`, from the removal of stale state files on. -/
def applyFresh (build template : String) : Code Outcome := do
  let () ← tryStep (.unlink template false) rfl
  let () ← tryStep (.unlink template true) rfl
  let _ : ℤ ← tryStep (.get template) rfl
  let rc : ℤ ← tryStep (.init template) rfl
  let resolved : Bool ← perform (.modulesResolved template)
  if rc ≠ 0 ∧ resolved = false then pure ⟨.failed, rc⟩
  else do
    let rc : ℤ ← tryStep (.apply build template) rfl
    pure ⟨if rc = 0 then .success else .failed, rc⟩

def executeTofu (build template : String) : Code Outcome := do
  let directory : Bool ← perform (.directory template)
  if directory = false then throw .fileNotFound
  else do
    let () ← tryStep .findTofu rfl
    let found : Bool ← perform (.stateExists template)
    let stop ← if found then destroyFirst template else pure none
    match stop with
    | some rc => pure ⟨.failed, rc⟩
    | none => applyFresh build template

/-- The part of `_cleanup_failed_build` that destroys. -/
def autoDestroy (template : String) : Code Unit :=
  Program.tryCatch (do
      let found : Bool ← perform (.stateExists template)
      if found then do
        let resources : Bool ← tryStep (.readState template) rfl
        if resources then do
          let () ← tryStep .findTofu rfl
          let _ : ℤ ← tryStep (.destroy template) rfl
          pure ()
        else pure ()
      else pure ())
    fun _ => pure ()

def cleanupFailedBuild (build template : String) : Code Unit := do
  let () ← autoDestroy template
  Program.tryCatch (tryStep (.queueFailure build) rfl) fun _ => pure ()

def runBuild (build template : String) : Code Unit := do
  let outcome ← Program.tryCatch (executeTofu build template) fun _ => pure ⟨.failed, -1⟩
  let () ← if outcome.status = .failed then cleanupFailedBuild build template else pure ()
  perform (.saveBuild ⟨build, template, outcome.status, outcome.exitCode⟩)

/-- `submit_build`, with the thread it starts. -/
def submitBuild (template : String) : Code Unit := do
  let build : String ← perform .newId
  runBuild build template

def runTofuDestroy (id : String) : Code Bool := do
  let build : Option Build ← perform (.getBuild id)
  match build with
  | none => throw .value
  | some build => do
    let directory : Bool ← perform (.directory build.template)
    if directory = false then pure false
    else do
      let found : Bool ← perform (.stateExists build.template)
      if found = false then do
        let () ← perform (.markDestroyed id)
        pure true
      else do
        let () ← tryStep .findTofu rfl
        let _ : ℤ ← tryStep (.get build.template) rfl
        let rc : ℤ ← tryStep (.destroy build.template) rfl
        if rc = 0 then do
          let () ← perform (.markDestroyed id)
          pure true
        else pure false

/-! ### What the steps do -/

structure State where
  existing : List Resource
  /-- All resources that were ever created. -/
  made : List Resource
  /-- What each template's state file tracks, if there is one. -/
  file : String → Option (List Resource)
  builds : List Build

def State.empty : State := ⟨[], [], fun _ => none, []⟩

/-- The resources that a template's state file tracks. -/
def State.tracks (s : State) (template : String) : List Resource := (s.file template).getD []

/-- The file of a template is written. -/
def State.write (s : State) (template : String) (resources : Option (List Resource)) : State :=
  { s with file := fun t => if t = template then resources else s.file t }

/-- Resources that a template tracks are deleted. -/
def State.remove (s : State) (template : String) (gone : List Resource) : State :=
  { s.write template (some ((s.tracks template).filter (· ∉ gone))) with
    existing := s.existing.filter (· ∉ gone) }

/-- Resources are created from a template. -/
def State.create (s : State) (template : String) (fresh : List Resource) : State :=
  { s.write template (some (s.tracks template ++ fresh)) with
    existing := s.existing ++ fresh
    made := s.made ++ fresh }

/-- `ON CONFLICT(id) DO UPDATE`; a build is saved under a new id. -/
def State.save (s : State) (b : Build) : State := { s with builds := s.builds ++ [b] }

/-- `UPDATE tofu_builds SET status='destroyed' WHERE id=?`. -/
def State.mark (s : State) (id : String) : State :=
  { s with builds := s.builds.map fun b => if b.id = id then { b with status := .destroyed } else b }

/-- What a command does.  OpenTofu may fail anywhere: `destroy` has then deleted some of
what the file tracks, `apply` has created some of what it was to create. -/
def exec (s : State) : (c : Cmd) → c.Ans → State → Prop
  | .newId, id, s' => s' = s ∧ (∀ b ∈ s.builds, b.id ≠ id) ∧ ∀ x ∈ s.made, x.build ≠ id
  | .stateExists t, found, s' => s' = s ∧ found = (s.file t).isSome
  | .readState t, .ok resources, s' => s' = s ∧ resources = !(s.tracks t).isEmpty
  | .destroy t, .ok rc, s' => ∃ gone : List Resource, (∀ x ∈ gone, x ∈ s.tracks t) ∧
    (rc = 0 → ∀ x ∈ s.tracks t, x ∈ gone) ∧ s' = s.remove t gone
  | .unlink t false, .ok _, s' => s' = s.write t none
  | .apply build t, .ok _, s' => ∃ fresh : List Resource,
    (∀ x ∈ fresh, x ∉ s.made ∧ x.build = build ∧ x.template = t) ∧ s' = s.create t fresh
  | .getBuild id, b, s' => s' = s ∧ b = s.builds.find? (·.id = id)
  | .saveBuild b, _, s' => s' = s.save b
  | .markDestroyed id, _, s' => s' = s.mark id
  | .directory _, _, s' | .findTofu, _, s' | .readState _, .error _, s' | .get _, _, s'
  | .destroy _, .error _, s' | .unlink _ false, .error _, s' | .unlink _ true, _, s'
  | .init _, _, s' | .modulesResolved _, _, s' | .apply .., .error _, s'
  | .queueFailure _, _, s' => s' = s

/-! ### What is expected -/

/-- Every resource that exists is tracked by its template. -/
def Tracked (s : State) : Prop := ∀ x ∈ s.existing, x ∈ s.tracks x.template

/-- A build recorded as a success has all its resources. -/
def Intact (s : State) : Prop :=
  ∀ b ∈ s.builds, b.status = .success → ∀ x ∈ s.made, x.build = b.id → x ∈ s.existing

/-- What was deleted between the states was created by the build. -/
def Own (id : String) (s s' : State) : Prop := ∀ x ∈ s.existing, x ∉ s'.existing → x.build = id

/-- No resource of a build recorded as a success is tracked. -/
def Loose (template : String) (s : State) : Prop :=
  ∀ x ∈ s.tracks template, ∀ b ∈ s.builds, b.id = x.build → b.status ≠ .success

section States

variable {s : State} {template : String}

@[simp] theorem tracks_write (s : State) (template : String) (r : Option (List Resource)) :
    (s.write template r).tracks template = r.getD [] := by
  simp [State.tracks, State.write]

theorem tracks_write_of_ne {t : String} (h : t ≠ template) (r : Option (List Resource)) :
    (s.write template r).tracks t = s.tracks t := by
  simp [State.tracks, State.write, h]

theorem mem_tracks_remove {gone : List Resource} {t : String} {x : Resource} :
    x ∈ (s.remove template gone).tracks t ↔ x ∈ s.tracks t ∧ (t = template → x ∉ gone) := by
  by_cases ht : t = template
  · subst ht
    change x ∈ (s.write t _).tracks t ↔ _
    rw [tracks_write, Option.getD_some, List.mem_filter, decide_eq_true_eq]
    exact and_congr_right fun _ => ⟨fun h _ => h, fun h => h rfl⟩
  · change x ∈ (s.write template _).tracks t ↔ _
    rw [tracks_write_of_ne ht]
    exact ⟨fun h => ⟨h, fun heq => absurd heq ht⟩, fun h => h.1⟩

theorem mem_existing_remove {gone : List Resource} {x : Resource} :
    x ∈ (s.remove template gone).existing ↔ x ∈ s.existing ∧ x ∉ gone := by
  change x ∈ s.existing.filter (· ∉ gone) ↔ _
  rw [List.mem_filter, decide_eq_true_eq]

theorem mem_tracks_create {fresh : List Resource} {t : String} {x : Resource} :
    x ∈ (s.create template fresh).tracks t ↔ x ∈ s.tracks t ∨ (t = template ∧ x ∈ fresh) := by
  by_cases ht : t = template
  · subst ht
    change x ∈ (s.write t _).tracks t ↔ _
    rw [tracks_write, Option.getD_some, List.mem_append]
    exact or_congr_right (by simp)
  · change x ∈ (s.write template _).tracks t ↔ _
    rw [tracks_write_of_ne ht]
    exact ⟨.inl, fun h => h.resolve_right fun h => ht h.1⟩

theorem Tracked.remove {gone : List Resource} (h : Tracked s) : Tracked (s.remove template gone) := by
  intro x hx
  obtain ⟨hx, hgone⟩ := mem_existing_remove.mp hx
  exact mem_tracks_remove.mpr ⟨h x hx, fun _ => hgone⟩

theorem Tracked.create {fresh : List Resource} (h : Tracked s)
    (hfresh : ∀ x ∈ fresh, x.template = template) : Tracked (s.create template fresh) := by
  intro x hx
  rcases List.mem_append.mp hx with hx | hx
  · exact mem_tracks_create.mpr (.inl (h x hx))
  · exact mem_tracks_create.mpr (.inr ⟨hfresh x hx, hx⟩)

/-- A file that tracks nothing may be removed. -/
theorem Tracked.unlink (h : Tracked s) (hempty : s.tracks template = []) :
    Tracked (s.write template none) := by
  intro x hx
  have hmem := h x hx
  by_cases ht : x.template = template
  · rw [ht, hempty] at hmem
    cases hmem
  · rw [tracks_write_of_ne ht]
    exact hmem

/-- What belongs to no success may be deleted. -/
theorem Intact.remove {gone : List Resource} (h : Intact s) (hloose : Loose template s)
    (hgone : ∀ x ∈ gone, x ∈ s.tracks template) : Intact (s.remove template gone) := by
  intro b hb hsuccess x hx hown
  refine mem_existing_remove.mpr ⟨h b hb hsuccess x hx hown, fun hmem => ?_⟩
  exact hloose x (hgone x hmem) b hb hown.symm hsuccess

theorem Intact.create {fresh : List Resource} (h : Intact s) :
    Intact (s.create template fresh) := by
  intro b hb hsuccess x hx hown
  rcases List.mem_append.mp hx with hx | hx
  · exact List.mem_append_left _ (h b hb hsuccess x hx hown)
  · exact List.mem_append_right _ hx

theorem Loose.remove {gone : List Resource} (h : Loose template s) :
    Loose template (s.remove template gone) :=
  fun x hx => h x (mem_tracks_remove.mp hx).1

end States

/-! ### What the code keeps -/

/-- What holds while a build runs; `P` says that the operations are allowed. -/
structure Building (P : Prop) (build template : String) (s : State) : Prop where
  tracked : Tracked s
  intact : P → Intact s
  loose : P → Loose template s
  fresh : ∀ b ∈ s.builds, b.id ≠ build

/-- The build has created nothing yet. -/
def Unmade (build : String) (s : State) : Prop := ∀ x ∈ s.made, x.build ≠ build

/-- What the build has created is there. -/
def Complete (build : String) (s : State) : Prop := ∀ x ∈ s.made, x.build = build → x ∈ s.existing

section Code

variable {P : Prop} {s : State} {build template : String}

theorem Building.remove {gone : List Resource} (h : Building P build template s)
    (hgone : ∀ x ∈ gone, x ∈ s.tracks template) :
    Building P build template (s.remove template gone) :=
  ⟨h.tracked.remove, fun hP => (h.intact hP).remove (h.loose hP) hgone,
    fun hP => (h.loose hP).remove, h.fresh⟩

theorem Building.create {fresh : List Resource} (h : Building P build template s)
    (hfresh : ∀ x ∈ fresh, x ∉ s.made ∧ x.build = build ∧ x.template = template) :
    Building P build template (s.create template fresh) := by
  refine ⟨h.tracked.create fun x hx => (hfresh x hx).2.2, fun hP => (h.intact hP).create, ?_,
    h.fresh⟩
  intro hP x hx b hb hown
  rcases mem_tracks_create.mp hx with hx | ⟨-, hx⟩
  · exact h.loose hP x hx b hb hown
  · exact absurd (hown.trans (hfresh x hx).2.1) (h.fresh b hb)

theorem Unmade.complete {fresh : List Resource} (h : Unmade build s) :
    Complete build (s.create template fresh) := by
  intro x hx hown
  -- what the build has made is all new
  rcases List.mem_append.mp hx with hx | hx
  · exact absurd hown (h x hx)
  · exact List.mem_append_right _ hx

/-- What is destroyed first leaves a file that tracks nothing, or the build stops. -/
theorem sure_destroyFirst (h : Building P build template s) (hunmade : Unmade build s) :
    Sure (F := sig) exec (destroyFirst template) (fun stop s => Building P build template s ∧
      Unmade build s ∧ (stop = none → s.tracks template = [])) (fun _ _ => False) s := by
  refine Program.Sure.catch (D := fun _ s => Building P build template s ∧ Unmade build s) ?_
    fun e s hs => ⟨hs.1, hs.2, nofun⟩
  refine sure_attempt rfl fun resources s₁ hx => ?_
  cases resources with
  | error e =>
    cases hx
    exact ⟨h, hunmade⟩
  | ok resources =>
    obtain ⟨rfl, hresources⟩ := hx
    cases resources with
    -- the file tracks nothing already
    | false =>
      refine ⟨h, hunmade, fun _ => ?_⟩
      exact List.isEmpty_iff.mp (by simpa using hresources.symm)
    | true =>
      refine sure_attempt rfl fun got s₂ hx => ?_
      cases hx
      cases got with
      | error e => exact ⟨h, hunmade⟩
      | ok got =>
        refine sure_attempt rfl fun rc s₂ hx => ?_
        cases rc with
        | error e =>
          cases hx
          exact ⟨h, hunmade⟩
        | ok rc =>
          obtain ⟨gone, hgone, hall, rfl⟩ := hx
          -- `tofu destroy` has said that all is gone
          refine ⟨h.remove hgone, hunmade, fun hstop => ?_⟩
          have hrc : rc = 0 := by
            by_contra hne
            rw [if_neg hne] at hstop
            cases hstop
          refine List.eq_nil_iff_forall_not_mem.mpr fun x hx => ?_
          obtain ⟨hx, hnot⟩ := mem_tracks_remove.mp hx
          exact hnot rfl (hall hrc x hx)

/-- The rest of the build, over a file that tracks nothing. -/
theorem sure_applyFresh (h : Building P build template s) (hunmade : Unmade build s)
    (hempty : s.tracks template = []) : Sure (F := sig) exec (applyFresh build template)
      (fun outcome s => Building P build template s ∧ (outcome.status = .success → Complete build s) ∧
        (outcome.status = .success ∨ outcome.status = .failed))
      (fun _ => Building P build template) s := by
  refine sure_attempt rfl fun removed s₁ hx => ?_
  cases removed with
  | error e =>
    cases hx
    exact h
  | ok u =>
    obtain rfl : s₁ = s.write template none := hx
    -- without a file nothing is tracked, so nothing of other builds is
    have hloose : P → Loose template (s.write template none) := fun _ x hx => by
      rw [tracks_write] at hx
      cases hx
    have h₁ : Building P build template (s.write template none) :=
      ⟨h.tracked.unlink hempty, h.intact, hloose, h.fresh⟩
    refine sure_attempt rfl fun backup s₂ hx => ?_
    cases hx
    cases backup with
    | error e => exact h₁
    | ok u =>
      refine sure_attempt rfl fun got s₂ hx => ?_
      cases hx
      cases got with
      | error e => exact h₁
      | ok got =>
        refine sure_attempt rfl fun rc s₂ hx => ?_
        cases hx
        cases rc with
        | error e => exact h₁
        | ok rc =>
          refine sure_perform fun resolved s₂ hx => ?_
          cases hx
          split
          · exact ⟨h₁, nofun, .inr rfl⟩
          · refine sure_attempt rfl fun rc s₃ hx => ?_
            cases rc with
            | error e =>
              cases hx
              exact h₁
            | ok rc =>
              -- whatever `tofu apply` says, what it has created is tracked
              obtain ⟨fresh, hfresh, rfl⟩ := hx
              refine ⟨h₁.create hfresh, fun _ => Unmade.complete hunmade, ?_⟩
              change (if rc = 0 then Status.success else .failed) = .success ∨
                (if rc = 0 then Status.success else .failed) = .failed
              split
              · exact .inl rfl
              · exact .inr rfl

theorem sure_executeTofu (h : Building P build template s) (hunmade : Unmade build s) :
    Sure (F := sig) exec (executeTofu build template)
      (fun outcome s => Building P build template s ∧ (outcome.status = .success → Complete build s) ∧
        (outcome.status = .success ∨ outcome.status = .failed))
      (fun _ => Building P build template) s := by
  refine sure_perform fun directory s₁ hx => ?_
  cases hx
  split
  · exact h
  · refine sure_attempt rfl fun found s₁ hx => ?_
    cases hx
    cases found with
    | error e => exact h
    | ok u =>
      refine sure_perform fun (found : Bool) s₁ hx => ?_
      obtain ⟨rfl, hfound⟩ := hx
      cases found with
      | true =>
        refine (sure_destroyFirst h hunmade).then fun stop s₂ hs => ?_
        cases stop with
        | some rc => exact ⟨hs.1, nofun, .inr rfl⟩
        | none => exact sure_applyFresh hs.1 hs.2.1 (hs.2.2 rfl)
      | false =>
        -- no file, and so nothing that it tracks
        have hnone : s₁.file template = none := Option.isSome_eq_false_iff.mp hfound.symm
          |> Option.isNone_iff_eq_none.mp
        refine sure_applyFresh h hunmade ?_
        rw [State.tracks, hnone]
        rfl

/-- The clean-up of a failed build takes nothing of a success. -/
theorem sure_cleanup (h : Building P build template s) :
    Sure (F := sig) exec (cleanupFailedBuild build template)
      (fun _ => Building P build template) (fun _ _ => False) s := by
  -- the destroy takes only what the file tracks
  have hdestroy : Sure (F := sig) exec (autoDestroy template) (fun _ => Building P build template)
      (fun _ _ => False) s := by
    refine Program.Sure.catch (D := fun _ => Building P build template) ?_ fun e s hs => hs
    refine sure_perform fun found s₁ hx => ?_
    obtain ⟨rfl, -⟩ := hx
    split
    · refine sure_attempt rfl fun resources s₂ hx => ?_
      cases resources with
      | error e =>
        cases hx
        exact h
      | ok resources =>
        obtain ⟨rfl, -⟩ := hx
        cases resources with
        | false => exact h
        | true =>
          refine sure_attempt rfl fun found s₃ hx => ?_
          cases hx
          cases found with
          | error e => exact h
          | ok u =>
            refine sure_attempt rfl fun rc s₃ hx => ?_
            cases rc with
            | error e =>
              cases hx
              exact h
            | ok rc =>
              obtain ⟨gone, hgone, -, rfl⟩ := hx
              exact h.remove hgone
    · exact h
  refine hdestroy.then fun u s₁ hs => ?_
  refine Program.Sure.catch (D := fun _ => Building P build template) ?_ fun e s hs => hs
  refine Program.sure_call fun queued s₂ hx => ?_
  cases hx
  cases queued with
  | error e => exact hs
  | ok u => exact hs

/-- The state of a build is saved. -/
theorem Building.save (h : Building P build template s) {b : Build} (hid : b.id = build)
    (hcomplete : b.status = .success → Complete build s) :
    Tracked (s.save b) ∧ (P → Intact (s.save b)) := by
  refine ⟨h.tracked, fun hP b' hb' hsuccess x hx hown => ?_⟩
  rcases List.mem_append.mp hb' with hb' | hb'
  · exact h.intact hP b' hb' hsuccess x hx hown
  · rw [List.mem_singleton.mp hb'] at hsuccess hown
    exact hcomplete hsuccess x hx (hown.trans hid)

theorem sure_runBuild (h : Building P build template s) (hunmade : Unmade build s) :
    Sure (F := sig) exec (runBuild build template) (fun _ s => Tracked s ∧ (P → Intact s))
      (fun _ s => Tracked s ∧ (P → Intact s)) s := by
  have houtcome : Sure (F := sig) exec
      (Program.tryCatch (executeTofu build template) fun _ => pure ⟨.failed, -1⟩)
      (fun outcome s => Building P build template s ∧ (outcome.status = .success → Complete build s))
      (fun _ _ => False) s := by
    refine Program.Sure.catch (D := fun _ => Building P build template) ?_ fun e s hs => ⟨hs, nofun⟩
    exact (sure_executeTofu h hunmade).mono (fun _ _ h => ⟨h.1, h.2.1⟩) fun _ _ h => h
  refine houtcome.then fun outcome s₁ hs => ?_
  change Sure (F := sig) _ (if outcome.status = .failed then _ else _) _ _ _
  split
  · next hfailed =>
    refine (sure_cleanup hs.1).then fun u s₂ hs₂ => ?_
    refine Program.sure_call fun saved s₃ hx => ?_
    obtain rfl : s₃ = s₂.save _ := hx
    exact hs₂.save rfl fun hsuccess => by rw [hfailed] at hsuccess; cases hsuccess
  · refine Program.sure_call fun saved s₂ hx => ?_
    obtain rfl : s₂ = s₁.save _ := hx
    exact hs.1.save rfl hs.2

/-- **A build of a template that tracks nothing of a success keeps what is expected.** -/
theorem sure_submitBuild (htracked : Tracked s) (hintact : P → Intact s)
    (hloose : P → Loose template s) :
    Sure (F := sig) exec (submitBuild template) (fun _ s => Tracked s ∧ (P → Intact s))
      (fun _ s => Tracked s ∧ (P → Intact s)) s := by
  refine sure_perform fun id s₁ hx => ?_
  obtain ⟨rfl, hbuilds, hmade⟩ := hx
  exact sure_runBuild ⟨htracked, hintact, hloose, hbuilds⟩ hmade

end Code

/-! ### Destroying a build -/

/-- `tofu destroy` for a build recorded as a success deletes everything or nothing. -/
def Whole (id : String) (s : State) : (c : Cmd) → c.Ans → State → Prop
  | .destroy _, .ok rc, s' => rc ≠ 0 → (∃ b ∈ s.builds, b.id = id ∧ b.status = .success) →
    s'.existing = s.existing
  | _, _, _ => True

def execWhole (id : String) (s : State) (c : Cmd) (a : c.Ans) (s' : State) : Prop :=
  exec s c a s' ∧ Whole id s c a s'

/-- Only what a build created is tracked by its template. -/
def OwnFile (id : String) (s : State) : Prop :=
  ∀ b ∈ s.builds, b.id = id → ∀ x ∈ s.tracks b.template, x.build = id

section Destroy

variable {s s' : State} {id template : String}

/-- A build that is marked is no success any more. -/
theorem Intact.mark (h : ∀ b ∈ s.builds, b.id ≠ id → b.status = .success →
    ∀ x ∈ s.made, x.build = b.id → x ∈ s.existing) : Intact (s.mark id) := by
  intro b hb hsuccess x hx hown
  obtain ⟨b', hb', rfl⟩ := List.mem_map.mp hb
  split at hsuccess
  · cases hsuccess
  · next hne =>
    rw [if_neg hne] at hown
    exact h b' hb' hne hsuccess x hx hown

/-- What a build created is deleted; the other builds keep what they have. -/
theorem Intact.remove_own {gone : List Resource} (h : Intact s) (hgone : ∀ x ∈ gone, x.build = id)
    {b : Build} (hb : b ∈ s.builds) (hne : b.id ≠ id) (hsuccess : b.status = .success)
    {x : Resource} (hx : x ∈ s.made) (hown : x.build = b.id) :
    x ∈ (s.remove template gone).existing :=
  mem_existing_remove.mpr ⟨h b hb hsuccess x hx hown,
    fun hmem => hne (hown.symm.trans (hgone x hmem))⟩

theorem own_remove {gone : List Resource} (hgone : ∀ x ∈ gone, x.build = id) :
    Own id s (s.remove template gone) := by
  intro x hx hnot
  by_contra hne
  exact hnot (mem_existing_remove.mpr ⟨hx, fun hmem => hne (hgone x hmem)⟩)

theorem own_refl (s : State) : Own id s s := fun _ hx hnot => absurd hx hnot

/-- What holds after a destroy. -/
def Destroyed (P : Prop) (id : String) (s s' : State) : Prop :=
  Tracked s' ∧ (P → Intact s' ∧ Own id s s')

/-- **A destroy over a file of its own keeps what is expected, and deletes only what
the build created.** -/
theorem sure_runTofuDestroy {P : Prop} {sem : State → (c : Cmd) → c.Ans → State → Prop}
    (hsem : ∀ s c a s', sem s c a s' → exec s c a s' ∧ (P → Whole id s c a s'))
    (htracked : Tracked s) (hintact : P → Intact s) (hown : P → OwnFile id s) :
    Sure (F := sig) sem (runTofuDestroy id) (fun _ => Destroyed P id s)
      (fun _ => Destroyed P id s) s := by
  refine sure_perform fun (build : Option Build) s₁ hx => ?_
  obtain ⟨rfl, hbuild⟩ := (hsem _ _ _ _ hx).1
  cases build with
  -- no such build: nothing is done
  | none => exact ⟨htracked, fun hP => ⟨hintact hP, own_refl s₁⟩⟩
  | some build =>
    have hmem : build ∈ s₁.builds := List.mem_of_find?_eq_some hbuild.symm
    have hid : build.id = id := of_decide_eq_true
      (List.find?_some (p := fun b : Build => decide (b.id = id)) hbuild.symm)
    refine sure_perform fun directory s₂ hx => ?_
    replace hx := (hsem _ _ _ _ hx).1
    cases hx
    split
    · exact ⟨htracked, fun hP => ⟨hintact hP, own_refl s₁⟩⟩
    refine sure_perform fun (found : Bool) s₂ hx => ?_
    obtain ⟨rfl, hfound⟩ := (hsem _ _ _ _ hx).1
    split
    · refine sure_perform fun u s₃ hx => ?_
      replace hx := (hsem _ _ _ _ hx).1
      obtain rfl : s₃ = s₂.mark id := hx
      exact ⟨htracked, fun hP =>
        ⟨Intact.mark fun b hb _ => hintact hP b hb, fun x hx hnot => absurd hx hnot⟩⟩
    refine sure_attempt rfl fun tofu s₃ hx => ?_
    replace hx := (hsem _ _ _ _ hx).1
    cases hx
    cases tofu with
    | error e => exact ⟨htracked, fun hP => ⟨hintact hP, own_refl s₂⟩⟩
    | ok u =>
      refine sure_attempt rfl fun got s₃ hx => ?_
      replace hx := (hsem _ _ _ _ hx).1
      cases hx
      cases got with
      | error e => exact ⟨htracked, fun hP => ⟨hintact hP, own_refl s₂⟩⟩
      | ok got =>
        refine sure_attempt rfl fun rc s₃ hx => ?_
        cases rc with
        | error e =>
          replace hx := (hsem _ _ _ _ hx).1
          cases hx
          exact ⟨htracked, fun hP => ⟨hintact hP, own_refl s₂⟩⟩
        | ok rc =>
          obtain ⟨⟨gone, hgone, -, rfl⟩, hwhole⟩ := hsem _ _ _ _ hx
          -- all that the file tracks is of this build
          have howned : P → ∀ x ∈ gone, x.build = id := fun hP x hx =>
            hown hP build hmem hid x (hgone x hx)
          have hdeleted : P → Own id s₂ (s₂.remove build.template gone) := fun hP =>
            own_remove (howned hP)
          change Sure (F := sig) _ (if rc = 0 then _ else _) _ _ _
          split
          -- the build is marked, and no success any more
          · refine sure_perform fun u s₄ hx => ?_
            obtain rfl : s₄ = (s₂.remove build.template gone).mark id := (hsem _ _ _ _ hx).1
            refine ⟨htracked.remove, fun hP => ⟨Intact.mark ?_, hdeleted hP⟩⟩
            intro b hb hne hsuccess x hx hxb
            exact (hintact hP).remove_own (howned hP) hb hne hsuccess hx hxb
          · next hrc =>
            refine ⟨htracked.remove, fun hP => ⟨?_, hdeleted hP⟩⟩
            intro b hb hsuccess x hx hxb
            by_cases hb' : b.id = id
            · -- a success is destroyed as a whole, or not at all
              rw [hwhole hP hrc ⟨b, hb, hb', hsuccess⟩]
              exact hintact hP b hb hsuccess x hx hxb
            · exact (hintact hP).remove_own (howned hP) hb hb' hsuccess hx hxb

theorem destroyed_of_allowed (htracked : Tracked s) (hintact : Intact s) (hown : OwnFile id s) :
    Sure (F := sig) (execWhole id) (runTofuDestroy id) (fun _ => Destroyed True id s)
      (fun _ => Destroyed True id s) s :=
  sure_runTofuDestroy (fun _ _ _ _ hx => ⟨hx.1, fun _ => hx.2⟩) htracked (fun _ => hintact)
    fun _ => hown

end Destroy

/-! ### Sequences of operations -/

inductive Operation where
  | submit (template : String)
  | destroy (id : String)

/-- What must hold before an operation. -/
def Allowed (s : State) : Operation → Prop
  | .submit template => Loose template s
  | .destroy id => OwnFile id s

/-- An operation, from beginning to end. -/
def Runs (s : State) : Operation → State → Prop
  | .submit template, s' => ∃ r, Program.Ends (F := sig) exec s (submitBuild template) r s'
  | .destroy id, s' => ∃ r, Program.Ends (F := sig) exec s (runTofuDestroy id) r s'

/-- An allowed operation; a success is destroyed as a whole. -/
def RunsAllowed (s : State) : Operation → State → Prop
  | .submit template, s' => Allowed s (.submit template) ∧
    ∃ r, Program.Ends (F := sig) exec s (submitBuild template) r s'
  | .destroy id, s' => Allowed s (.destroy id) ∧
    ∃ r, Program.Ends (F := sig) (execWhole id) s (runTofuDestroy id) r s'

/-- What is expected of a state, and of every operation from it. -/
structure Expected (run : State → Operation → State → Prop) (s : State) : Prop where
  tracked : Tracked s
  intact : Intact s
  own : ∀ id s', run s (.destroy id) s' → Own id s s'

/-- **Nothing is ever orphaned.** -/
theorem tracked_of_sequence {s : State} (h : Sequence Runs .empty s) : Tracked s := by
  refine h.invariant ?_ fun x hx => absurd hx List.not_mem_nil
  intro s o s' hrun htracked
  cases o with
  | submit template =>
    obtain ⟨r, hends⟩ := hrun
    exact ((sure_submitBuild (P := False) htracked False.elim False.elim).ends hends).1
  | destroy id =>
    obtain ⟨r, hends⟩ := hrun
    exact ((sure_runTofuDestroy (P := False) (fun _ _ _ _ hx => ⟨hx, False.elim⟩) htracked
      False.elim False.elim).ends hends).1

/-- **Nothing is orphaned, successes have all their resources, and a destroy deletes
only what its build created, in every sequence of allowed operations.** -/
theorem builds_of_sequence {s : State} (h : Sequence RunsAllowed .empty s) :
    Expected RunsAllowed s := by
  have hstate : Tracked s ∧ Intact s := by
    refine h.invariant (I := fun s => Tracked s ∧ Intact s) ?_
      ⟨fun x hx => absurd hx List.not_mem_nil, fun b hb => absurd hb List.not_mem_nil⟩
    rintro s o s' hrun ⟨htracked, hintact⟩
    cases o with
    | submit template =>
      obtain ⟨hloose, r, hends⟩ := hrun
      have hsure := (sure_submitBuild (P := True) htracked (fun _ => hintact)
        fun _ => hloose).ends hends
      exact ⟨hsure.1, hsure.2 trivial⟩
    | destroy id =>
      obtain ⟨hown, r, hends⟩ := hrun
      have hsure := (destroyed_of_allowed htracked hintact hown).ends hends
      exact ⟨hsure.1, (hsure.2 trivial).1⟩
  refine ⟨hstate.1, hstate.2, fun id s' hrun => ?_⟩
  obtain ⟨hown, r, hends⟩ := hrun
  exact (((destroyed_of_allowed hstate.1 hstate.2 hown).ends hends).2 trivial).2

/-! ### Two builds of one template -/

/-- A name that no build has yet, if the builds are named so. -/
def nextName (s : State) : String := String.ofList (List.replicate (s.builds.length + 1) 'b')

/-- Nothing fails, and each build creates one resource. -/
def answer (s : State) : (c : Cmd) → Option (c.Ans × State)
  | .newId =>
    if (∀ b ∈ s.builds, b.id ≠ nextName s) ∧ ∀ x ∈ s.made, x.build ≠ nextName s then
      some (nextName s, s)
    else none
  | .directory _ => some (true, s)
  | .findTofu => some (.ok (), s)
  | .stateExists t => some ((s.file t).isSome, s)
  | .readState t => some (.ok (!(s.tracks t).isEmpty), s)
  | .get _ | .init _ => some (.ok 0, s)
  | .destroy t => some (.ok 0, s.remove t (s.tracks t))
  | .unlink t false => some (.ok (), s.write t none)
  | .unlink _ true | .queueFailure _ => some (.ok (), s)
  | .modulesResolved _ => some (true, s)
  | .apply build t =>
    if (⟨s.made.length, build, t⟩ : Resource) ∈ s.made then none
    else some (.ok 0, s.create t [⟨s.made.length, build, t⟩])
  | .getBuild id => some (s.builds.find? (·.id = id), s)
  | .saveBuild b => some ((), s.save b)
  | .markDestroyed id => some ((), s.mark id)

theorem exec_answer {s s' : State} {c : Cmd} {a : c.Ans} (h : answer s c = some (a, s')) :
    exec s c a s' := by
  cases c with
  | newId =>
    simp only [answer] at h
    split at h
    · next hnew =>
      cases h
      exact ⟨rfl, hnew⟩
    · cases h
  | destroy t =>
    cases h
    exact ⟨s.tracks t, fun _ hx => hx, fun _ _ hx => hx, rfl⟩
  | apply build t =>
    simp only [answer] at h
    split at h
    · cases h
    · next hnew =>
      cases h
      refine ⟨_, fun x hx => ?_, rfl⟩
      rw [List.mem_singleton.mp hx]
      exact ⟨hnew, rfl, rfl⟩
  | stateExists | readState | getBuild =>
    cases h
    exact ⟨rfl, rfl⟩
  | unlink t backup => cases backup <;> (cases h; rfl)
  | _ =>
    cases h
    rfl

theorem execWhole_answer {id : String} {s s' : State} {c : Cmd} {a : c.Ans}
    (h : answer s c = some (a, s')) : execWhole id s c a s' := by
  refine ⟨exec_answer h, ?_⟩
  cases c with
  | destroy t =>
    cases h
    exact fun hne => absurd rfl hne
  | _ => trivial

/-- An operation in these surroundings. -/
def go (s : State) : Operation → Option State
  | .submit template => ((submitBuild template).run answer s).map Prod.snd
  | .destroy id => ((runTofuDestroy id).run answer s).map Prod.snd

theorem runs_go {s s' : State} {o : Operation} (h : go s o = some s') : Runs s o s' := by
  cases o with
  | submit template =>
    obtain ⟨⟨r, s₁⟩, hrun, rfl⟩ := Option.map_eq_some_iff.mp h
    exact ⟨r, Program.ends_of_run (fun _ _ _ _ => exec_answer) hrun⟩
  | destroy id =>
    obtain ⟨⟨r, s₁⟩, hrun, rfl⟩ := Option.map_eq_some_iff.mp h
    exact ⟨r, Program.ends_of_run (fun _ _ _ _ => exec_answer) hrun⟩

instance (s : State) (o : Operation) : Decidable (Allowed s o) :=
  match o with
  | .submit template => inferInstanceAs (Decidable (∀ x ∈ s.tracks template, ∀ b ∈ s.builds,
      b.id = x.build → b.status ≠ .success))
  | .destroy id => inferInstanceAs (Decidable (∀ b ∈ s.builds, b.id = id →
      ∀ x ∈ s.tracks b.template, x.build = id))

def goAllowed (s : State) (o : Operation) : Option State := if Allowed s o then go s o else none

theorem runsAllowed_go {s s' : State} {o : Operation} (h : goAllowed s o = some s') :
    RunsAllowed s o s' := by
  unfold goAllowed at h
  split at h
  · next hallowed =>
    cases o with
    | submit template =>
      obtain ⟨⟨r, s₁⟩, hrun, rfl⟩ := Option.map_eq_some_iff.mp h
      exact ⟨hallowed, r, Program.ends_of_run (fun _ _ _ _ => exec_answer) hrun⟩
    | destroy id =>
      obtain ⟨⟨r, s₁⟩, hrun, rfl⟩ := Option.map_eq_some_iff.mp h
      exact ⟨hallowed, r, Program.ends_of_run (fun _ _ _ _ => execWhole_answer) hrun⟩
  · cases h

/-- The builds with their status, and what exists. -/
def summary (s : State) : List (String × Status) × List Resource :=
  (s.builds.map fun b => (b.id, b.status), s.existing)

/-- A template is built, destroyed and built again. -/
theorem builds_of_sequence_rebuilt : ∃ s, summary s = ([("b", .destroyed), ("bb", .success)],
    [⟨1, "bb", "vpc-only"⟩]) ∧ Expected RunsAllowed s := by
  have hrun : (runSequence goAllowed [.submit "vpc-only", .destroy "b", .submit "vpc-only"]
      .empty).map summary = some ([("b", .destroyed), ("bb", .success)],
        [⟨1, "bb", "vpc-only"⟩]) := by
    decide
  obtain ⟨s, hs, hsummary⟩ := Option.map_eq_some_iff.mp hrun
  exact ⟨s, hsummary, builds_of_sequence (sequence_of_run (fun _ _ _ => runsAllowed_go) hs)⟩

/-- A template is built twice: the first build is recorded as a success, and has lost
its resource. -/
theorem superseded : ¬∀ s, Sequence Runs .empty s → Expected Runs s := by
  intro hall
  have hrun : (runSequence go [.submit "vpc-only", .submit "vpc-only"] .empty).map
      (fun s => (summary s, s.made)) = some (([("b", .success), ("bb", .success)],
        [⟨1, "bb", "vpc-only"⟩]), [⟨0, "b", "vpc-only"⟩, ⟨1, "bb", "vpc-only"⟩]) := by
    decide
  obtain ⟨s, hs, hsummary⟩ := Option.map_eq_some_iff.mp hrun
  simp only [summary, Prod.mk.injEq] at hsummary
  obtain ⟨⟨hbuilds, hexisting⟩, hmade⟩ := hsummary
  have hintact := (hall s (sequence_of_run (fun _ _ _ => runs_go) hs)).intact
  obtain ⟨b, hb, hrow⟩ : ∃ b ∈ s.builds, (b.id, b.status) = ("b", Status.success) := by
    rw [← List.mem_map, hbuilds]
    exact List.mem_cons_self
  rw [Prod.mk.injEq] at hrow
  have hmem := hintact b hb hrow.2 ⟨0, "b", "vpc-only"⟩ (hmade ▸ List.mem_cons_self) hrow.1.symm
  rw [hexisting] at hmem
  exact absurd hmem (by decide)

end Tofu
end CloudCore
