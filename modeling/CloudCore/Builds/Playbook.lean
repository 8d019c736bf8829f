import CloudCore.Effect.Pool
import CloudCore.Effect.Sequential
import Mathlib.Data.Int.Notation
import Mathlib.Data.List.Sort

/-!
# Playbook builds

`api/build_engine.py`.  What a playbook has created is not known to the engine: it
lists the whole host before and after, and takes the difference for the build's own.
If the build fails, the difference is deleted.

## Main definitions

* `snapshot`, `diffSnapshots`, `runBuild`, `cleanupFailedBuild` — the code.
* `Request` — what everybody does through the API meanwhile, playbooks included.
* `Watch` — what a build has listed of one kind of resource so far.
* `Attributed` — the invariant.
* `Undisturbed` — nobody else creates what a listing would attribute to a build.

## Main results

* `attributed_step` — every step keeps the invariant if nobody is disturbed.
* `own_cleanup` — **the clean-up of a build deletes only what its playbook created, in
  every run in which no build is disturbed.**
* `bystander` — a VPC that somebody else creates during a failing build is deleted.
-/

namespace CloudCore
namespace Playbook

open Effect
open Effect.Program (attempt)

/-! ### Resources and listings -/

/-- The kinds of resources that are listed. -/
inductive Kind where
  | vpc
  | «instance»
  | lb
  | dnsZone
  | nfsServer
  | securityGroup
  deriving DecidableEq

/-- The order of the listings. -/
def Kind.listed : List Kind := [.vpc, .instance, .lb, .dnsZone, .nfsServer, .securityGroup]

def Kind.destroyOrder : Kind → ℕ
  | .instance => 0
  | .lb | .nfsServer | .dnsZone => 1
  | .securityGroup => 2
  | .vpc => 3

/-- A resource; `creator` is the build whose playbook created it.  The key of a DNS zone
is its name. -/
structure Resource where
  kind : Kind
  id : String
  name : String
  creator : Option String
  deriving DecidableEq

/-- An entry of a listing. -/
structure Item where
  id : String
  name : String
  deriving DecidableEq

/-- A snapshot: the listings, by their kinds. -/
abbrev Snapshot := List (Kind × List Item)

/-- An entry of `provisioned`. -/
structure Provisioned where
  kind : Kind
  id : String
  name : String
  deriving DecidableEq

inductive Phase where
  | before
  | after
  deriving DecidableEq

inductive Status where
  | success
  | failed
  deriving DecidableEq

/-- Whatever a call raises. -/
inductive Failure where
  | exception
  deriving DecidableEq

/-! ### Commands -/

/-- The steps of builds, and those of the API's other callers. -/
inductive Cmd where
  /-- `uuid.uuid4()`. -/
  | newId
  /-- One `GET` of `_snapshot`. -/
  | list (build : String) (phase : Phase) (kind : Kind)
  /-- `_execute_playbook`: waits for `ansible-playbook`. -/
  | playbook (build : String)
  /-- One `DELETE` of `_cleanup_failed_build`. -/
  | delete (build : String) (kind : Kind) (id : String)
  /-- `failure_queue.queue_failure`. -/
  | queueFailure (build : String)
  /-- `_save_build`. -/
  | save (build : String) (status : Status) (provisioned : List Provisioned)
  /-- A request that creates; `creator` is the build whose playbook sends it. -/
  | create (creator : Option String) (kind : Kind) (id name : String)
  /-- A request that deletes. -/
  | remove (kind : Kind) (id : String)
  deriving DecidableEq

@[reducible] def Cmd.Ans : Cmd → Type
  | .newId => String
  | .list .. => Except Failure (List Item)
  | .playbook _ => Except Failure ℤ
  | .delete .. | .queueFailure _ | .create .. | .remove .. => Except Failure Unit
  | .save .. => Unit

abbrev sig : Signature := ⟨Cmd, Cmd.Ans⟩

abbrev Code (α : Type) := Program sig Failure α

def perform (c : Cmd) : Code c.Ans := Program.perform (F := sig) c

def tryStep {α : Type} (c : Cmd) (h : c.Ans = Except Failure α) : Code α :=
  attempt (F := sig) c h

/-! ### The engine -/

/-- The listings of these kinds. -/
def listings (build : String) (phase : Phase) : List Kind → Code Snapshot
  | [] => pure []
  | kind :: kinds => do
    let items : List Item ← tryStep (.list build phase kind) rfl
    let rest ← listings build phase kinds
    pure ((kind, items) :: rest)

def snapshot (build : String) (phase : Phase) : Code Snapshot := listings build phase Kind.listed

/-- `before.get(rtype, {}).keys()`. -/
def idsOf (before : Snapshot) (kind : Kind) : List String :=
  ((before.lookup kind).getD []).map (·.id)

def diffSnapshots (before after : Snapshot) : List Provisioned :=
  after.flatMap fun (kind, items) =>
    (items.filter fun item => item.id ∉ idsOf before kind).map fun item =>
      ⟨kind, item.id, item.name⟩

/-- `sorted(provisioned, key=...)`. -/
def destroySorted (provisioned : List Provisioned) : List Provisioned :=
  provisioned.insertionSort fun p q => p.kind.destroyOrder ≤ q.kind.destroyOrder

/-- A call whose exception is logged. -/
def logged (c : Cmd) (h : c.Ans = Except Failure Unit) : Code Unit :=
  Program.tryCatch (tryStep c h) fun _ => pure ()

def cleanupFailedBuild (build : String) (provisioned : List Provisioned) : Code Unit := do
  let () ← Program.forEach (destroySorted provisioned) fun p => logged (.delete build p.kind p.id) rfl
  logged (.queueFailure build) rfl

/-- The end of `_run_build`: what was provisioned, if there is a snapshot to compare with. -/
def provisionedSince (build : String) : Option Snapshot → Code (List Provisioned)
  | none => pure []
  | some before => Program.tryCatch (do
      let after ← snapshot build .after
      pure (diffSnapshots before after))
    fun _ => pure []

/-- `submit_build`, with `_run_build` in the thread it starts. -/
def runBuild : Code Unit := do
  let build : String ← perform .newId
  let before ← Program.tryCatch (do
      let s ← snapshot build .before
      pure (some s))
    fun _ => pure none
  let status ← Program.tryCatch (do
      let rc : ℤ ← tryStep (.playbook build) rfl
      pure (if rc = 0 then Status.success else .failed))
    fun _ => pure .failed
  let provisioned ← provisionedSince build before
  let () ← if status = .failed then cleanupFailedBuild build provisioned else pure ()
  perform (.save build status provisioned)

/-- What the threads run: builds, and requests to the API. -/
inductive Request where
  | build
  | create (creator : Option String) (kind : Kind) (id name : String)
  | remove (kind : Kind) (id : String)

def Request.code : Request → Code Unit
  | .build => runBuild
  | .create creator kind id name => logged (.create creator kind id name) rfl
  | .remove kind id => logged (.remove kind id) rfl

/-! ### What the steps do -/

/-- What a build has listed of one kind. -/
inductive Watch where
  /-- Nothing that matters: no listing yet, or one has failed, or nothing will be deleted. -/
  | off
  /-- What was there before. -/
  | since (ids : List String)
  /-- What was not there before and is there after. -/
  | targets (ids : List String)
  deriving DecidableEq

/-- What a listing adds to that. -/
def Watch.learn (items : List Item) : Phase → Watch → Watch
  | .before, _ => .since (items.map (·.id))
  | .after, .since old => .targets ((items.map (·.id)).filter (· ∉ old))
  | .after, w => w

/-- The keys that the build takes for its own. -/
def Watch.ids : Watch → List String
  | .targets ids => ids
  | _ => []

/-- What a build knows after one of its steps. -/
def watchAfter (w : Kind → Watch) : (c : Cmd) → c.Ans → Kind → Watch
  | .list _ phase kind, .ok items => fun k => if k = kind then (w k).learn items phase else w k
  | .list _ _ _, .error _ => fun _ => .off
  | .playbook _, .ok rc => if rc = 0 then fun _ => .off else w
  | .save .., _ => fun _ => .off
  | _, _ => w

/-- The resources; the keys that were ever used; the builds that were ever begun, and
what each has listed. -/
structure State where
  resources : List Resource
  used : List (Kind × String)
  begun : List String
  watch : String → Kind → Watch

def State.empty : State := ⟨[], [], [], fun _ _ => .off⟩

/-- What a listing answers. -/
def State.listing (s : State) (kind : Kind) : List Item :=
  (s.resources.filter (·.kind = kind)).map fun r => ⟨r.id, r.name⟩

def State.remove (s : State) (kind : Kind) (id : String) : State :=
  { s with resources := s.resources.filter fun r => ¬(r.kind = kind ∧ r.id = id) }

def State.create (s : State) (r : Resource) : State :=
  { s with resources := s.resources ++ [r], used := (r.kind, r.id) :: s.used }

/-- A build has learnt something. -/
def State.observe (s : State) (build : String) (w : Kind → Watch) : State :=
  { s with watch := fun b => if b = build then w else s.watch b }

/-- What a command does.  A thread is named by the build it runs.  Requests may be
refused, and may have been carried out when they fail; names of zones can be used again. -/
def exec (i : String) (s : State) : (c : Cmd) → c.Ans → State → Prop
  | .newId, id, s' => id = i ∧ id ∉ s.begun ∧ s' = { s with begun := id :: s.begun }
  | .list build phase kind, .ok items, s' => items = s.listing kind ∧
    s' = s.observe build (watchAfter (s.watch build) (.list build phase kind) (.ok items))
  | .list build phase kind, .error e, s' =>
    s' = s.observe build (watchAfter (s.watch build) (.list build phase kind) (.error e))
  | .playbook build, a, s' =>
    s' = s.observe build (watchAfter (s.watch build) (.playbook build) a)
  | .save build status provisioned, a, s' =>
    s' = s.observe build (watchAfter (s.watch build) (.save build status provisioned) a)
  | .delete _ kind id, _, s' | .remove kind id, _, s' => s' = s ∨ s' = s.remove kind id
  | .create creator kind id name, _, s' => s' = s ∨
    ((∀ r ∈ s.resources, ¬(r.kind = kind ∧ r.id = id)) ∧
      (kind ≠ .dnsZone → (kind, id) ∉ s.used) ∧ s' = s.create ⟨kind, id, name, creator⟩)
  | .queueFailure _, _, s' => s' = s

/-! ### The invariant -/

/-- What a build has listed tells whose the resources are. -/
def Attributed (s : State) : Prop :=
  ∀ b, ∀ r ∈ s.resources,
    match s.watch b r.kind with
    | .off => True
    | .since ids => r.creator ≠ some b → r.id ∈ ids
    | .targets ids => r.id ∈ ids → r.creator = some b

/-- Nobody but a build's own playbook creates a resource of a kind that the build has listed
once, or one with a key that the build takes for its own. -/
def Undisturbed (s : State) : Cmd → Prop
  | .create creator kind id _ => ∀ b, creator ≠ some b →
    match s.watch b kind with
    | .off => True
    | .since _ => False
    | .targets ids => id ∉ ids
  | _ => True

section Steps

variable {s s' : State}

theorem attributed_of_subset (h : Attributed s) (hwatch : s'.watch = s.watch)
    (hsub : ∀ r ∈ s'.resources, r ∈ s.resources) : Attributed s' := by
  intro b r hr
  rw [hwatch]
  exact h b r (hsub r hr)

theorem Attributed.remove (h : Attributed s) (kind : Kind) (id : String) :
    Attributed (s.remove kind id) :=
  attributed_of_subset h rfl fun _ hr => List.mem_of_mem_filter hr

theorem Attributed.create {creator : Option String} {kind : Kind} {id name : String}
    (h : Attributed s) (hnew : Undisturbed s (.create creator kind id name)) :
    Attributed (s.create ⟨kind, id, name, creator⟩) := by
  intro b r hr
  rcases List.mem_append.mp hr with hr | hr
  · exact h b r hr
  · rw [List.mem_singleton.mp hr]
    change match s.watch b kind with
      | .off => True
      | .since ids => creator ≠ some b → id ∈ ids
      | .targets ids => id ∈ ids → creator = some b
    have hb := hnew b
    cases hw : s.watch b kind with
    | off => trivial
    | since ids =>
      rw [hw] at hb
      exact fun hne => (hb hne).elim
    | targets ids =>
      rw [hw] at hb
      intro hmem
      by_contra hne
      exact hb hne hmem

/-- What is off says nothing. -/
theorem Attributed.off (h : Attributed s) (build : String) :
    Attributed (s.observe build fun _ => .off) := by
  intro b r hr
  by_cases hb : b = build
  · simp only [State.observe, if_pos hb]
  · simp only [State.observe, if_neg hb]
    exact h b r hr

theorem mem_listing {kind : Kind} {r : Resource} (hr : r ∈ s.resources) (hk : r.kind = kind) :
    r.id ∈ (s.listing kind).map (·.id) := by
  rw [State.listing, List.map_map]
  exact List.mem_map.mpr ⟨r, List.mem_filter.mpr ⟨hr, decide_eq_true hk⟩, rfl⟩

/-- **A listing attributes to a build what its playbook created.** -/
theorem Attributed.list (h : Attributed s) (build : String) (phase : Phase) (kind : Kind) :
    Attributed (s.observe build fun k =>
      if k = kind then (s.watch build k).learn (s.listing kind) phase else s.watch build k) := by
  intro b r hr
  by_cases hb : b = build
  · by_cases hk : r.kind = kind
    · simp only [State.observe, if_pos hb, if_pos hk]
      have hold := h build r hr
      cases phase with
      | before => exact fun _ => mem_listing hr hk
      | after =>
        cases hw : s.watch build r.kind with
        | off => trivial
        | since ids =>
          rw [hw] at hold
          intro hmem
          by_contra hne
          rw [hb] at hne
          exact of_decide_eq_true (List.mem_filter.mp hmem).2 (hold hne)
        | targets ids =>
          rw [hw] at hold
          exact fun hmem => hb ▸ hold hmem
    · simp only [State.observe, if_pos hb, if_neg hk]
      exact hb ▸ h build r hr
  · simp only [State.observe, if_neg hb]
    exact h b r hr

/-- A build that has learnt nothing. -/
theorem observe_watch (s : State) (build : String) : s.observe build (s.watch build) = s := by
  have hwatch : (fun b => if b = build then s.watch build else s.watch b) = s.watch := by
    funext b
    split
    · next hb => rw [hb]
    · rfl
  rw [State.observe, hwatch]

/-- **Every step keeps the invariant if no build is disturbed.** -/
theorem attributed_step {i : String} {c : Cmd} {a : c.Ans} (h : Attributed s)
    (hx : exec i s c a s') (hu : Undisturbed s c) : Attributed s' := by
  cases c with
  | newId =>
    obtain ⟨-, -, rfl⟩ := hx
    exact attributed_of_subset h rfl fun _ hr => hr
  | list build phase kind =>
    cases a with
    | error e =>
      obtain rfl : s' = s.observe build fun _ => .off := hx
      exact h.off build
    | ok items =>
      obtain ⟨rfl, rfl⟩ := hx
      exact h.list build phase kind
  | playbook build =>
    cases a with
    | error e =>
      obtain rfl : s' = s.observe build (s.watch build) := hx
      rw [observe_watch]
      exact h
    | ok rc =>
      obtain rfl : s' = s.observe build (if rc = 0 then fun _ => .off else s.watch build) := hx
      split
      · exact h.off build
      · rw [observe_watch]
        exact h
  | save build status provisioned =>
    obtain rfl : s' = s.observe build fun _ => .off := hx
    exact h.off build
  | delete build kind id =>
    rcases hx with rfl | rfl
    · exact h
    · exact h.remove kind id
  | remove kind id =>
    rcases hx with rfl | rfl
    · exact h
    · exact h.remove kind id
  | create creator kind id name =>
    rcases hx with rfl | ⟨-, -, rfl⟩
    · exact h
    · exact h.create hu
  | queueFailure build =>
    obtain rfl : s' = s := hx
    exact h

end Steps

/-! ### What a build knows -/

/-- The command is one of build `i`, if it is a build's. -/
def Cmd.Owned (i : String) : Cmd → Prop
  | .list build .. | .playbook build | .save build .. | .delete build .. => build = i
  | _ => True

/-- The steps of a thread, on what its build has listed. -/
def localExec (i : String) (w : Kind → Watch) : (c : Cmd) → c.Ans → (Kind → Watch) → Prop
  | .newId, id, w' => id = i ∧ w' = w
  | c, a, w' => c.Owned i → w' = watchAfter w c a

/-- What the steps of a thread guarantee: it acts for its own build, and deletes what it
takes for its own. -/
def localGuar (i : String) (w : Kind → Watch) (c : Cmd) (_ : c.Ans) (_ : Kind → Watch) : Prop :=
  c.Owned i ∧ ∀ kind id, c = .delete i kind id → id ∈ (w kind).ids

/-- The weakest precondition of a program, on what its build has listed. -/
abbrev lwp (i : String) {α : Type} (p : Code α) (Q : α → (Kind → Watch) → Prop)
    (E : Failure → (Kind → Watch) → Prop) (w : Kind → Watch) : Prop :=
  p.wp (F := sig) (localExec i) Eq (localGuar i) Q E w

/-- The snapshot before is what the build has listed. -/
def Known (w : Kind → Watch) : Option Snapshot → Prop
  | none => True
  | some before => before.map Prod.fst = Kind.listed ∧
    ∀ e ∈ before, w e.1 = .since (e.2.map (·.id))

section Rules

variable {i : String} {w : Kind → Watch}

theorem lwp_listings (phase : Phase) {kinds : List Kind} (hkinds : kinds.Nodup) :
    lwp i (listings i phase kinds) (fun l w' => l.map Prod.fst = kinds ∧
      (∀ e ∈ l, w' e.1 = (w e.1).learn e.2 phase) ∧ ∀ k ∉ kinds, w' k = w k)
      (fun _ _ => True) w := by
  induction kinds generalizing w with
  | nil => exact ⟨rfl, fun e he => absurd he List.not_mem_nil, fun _ _ => rfl⟩
  | cons kind kinds ih =>
    obtain ⟨hnot, hkinds⟩ := List.nodup_cons.mp hkinds
    refine Program.wp_attempt rfl fun a w₁ hx => ⟨⟨rfl, nofun⟩, ?_⟩
    obtain rfl := hx rfl
    cases a with
    | error e => trivial
    | ok items =>
      change lwp i (listings i phase kinds >>= fun rest => pure ((kind, items) :: rest)) _ _ _
      refine Program.wp_after (ih hkinds) ?_
      rintro l w₂ ⟨hl, heach, hrest⟩
      -- the later listings leave what this one has shown
      have hkind : w₂ kind = (w kind).learn items phase := by
        rw [hrest kind hnot]
        exact if_pos rfl
      refine ⟨congrArg (kind :: ·) hl, ?_, fun k hk => ?_⟩
      · rw [List.forall_mem_cons]
        refine ⟨hkind, fun e he => ?_⟩
        rw [heach e he]
        have hne : e.1 ≠ kind := fun heq => hnot (heq ▸ hl ▸ List.mem_map_of_mem he)
        exact congrArg (Watch.learn e.2 phase) (if_neg hne)
      · rw [List.mem_cons, not_or] at hk
        rw [hrest k hk.2]
        exact if_neg hk.1

theorem lwp_snapshot (phase : Phase) : lwp i (snapshot i phase) (fun l w' =>
    l.map Prod.fst = Kind.listed ∧ ∀ e ∈ l, w' e.1 = (w e.1).learn e.2 phase)
      (fun _ _ => True) w :=
  Program.wp_mono (fun _ _ h => ⟨h.1, h.2.1⟩) (fun _ _ h => h) (lwp_listings phase (by decide))

/-- A call that is logged, whatever comes of it. -/
theorem lwp_logged {c : Cmd} (h : c.Ans = Except Failure Unit) (hnew : c ≠ .newId)
    (howned : c.Owned i) (hdelete : ∀ kind id, c = .delete i kind id → id ∈ (w kind).ids)
    (hwatch : ∀ a, watchAfter w c a = w) :
    lwp i (logged c h) (fun _ w' => w' = w) (fun _ _ => False) w := by
  refine (Program.wp_call_eq _ _).mpr fun a w₁ hx => ⟨⟨howned, hdelete⟩, ?_⟩
  have hw : w₁ = w := by
    cases c with
    | newId => exact absurd rfl hnew
    | _ => exact (hx howned).trans (hwatch a)
  have hend : ∀ r : Except Failure Unit, lwp i (Program.tryCatch (Program.lift r) fun _ => pure ())
      (fun _ w' => w' = w) (fun _ _ => False) w₁ := by
    intro r
    cases r with
    | ok u => exact hw
    | error e => exact hw
  exact hend _

/-- What was provisioned is what the build takes for its own. -/
theorem mem_diffSnapshots {before after : Snapshot} {w' : Kind → Watch}
    (hbefore : Known w (some before))
    (hafter : ∀ e ∈ after, w' e.1 = (w e.1).learn e.2 .after)
    {p : Provisioned} (hp : p ∈ diffSnapshots before after) : p.id ∈ (w' p.kind).ids := by
  obtain ⟨⟨kind, items⟩, he, hp⟩ := List.mem_flatMap.mp hp
  obtain ⟨item, hitem, rfl⟩ := List.mem_map.mp hp
  obtain ⟨hitem, hnew⟩ := List.mem_filter.mp hitem
  have hnew := of_decide_eq_true hnew
  -- every kind was listed before
  have hlisted : kind ∈ before.map Prod.fst := by
    rw [hbefore.1]
    cases kind <;> decide
  obtain ⟨old, hold⟩ : ∃ old, before.lookup kind = some old := by
    cases hlookup : before.lookup kind with
    | some old => exact ⟨old, rfl⟩
    | none =>
      obtain ⟨e, he, hk⟩ := List.mem_map.mp hlisted
      have hne := List.lookup_eq_none_iff.mp hlookup e he
      rw [hk, bne_self_eq_false] at hne
      cases hne
  obtain ⟨l₁, l₂, hsplit, -⟩ := List.lookup_eq_some_iff.mp hold
  have hw : w kind = .since (old.map (·.id)) := by
    refine hbefore.2 (kind, old) ?_
    rw [hsplit]
    exact List.mem_append_right _ List.mem_cons_self
  rw [idsOf, hold, Option.getD_some] at hnew
  have hw' : w' kind = (w kind).learn items .after := hafter (kind, items) he
  rw [hw', hw]
  exact List.mem_filter.mpr ⟨List.mem_map_of_mem hitem, decide_eq_true hnew⟩

theorem lwp_provisionedSince {P : Prop} {before : Option Snapshot} (h : P → Known w before) :
    lwp i (provisionedSince i before) (fun provisioned w' =>
      P → ∀ p ∈ provisioned, p.id ∈ (w' p.kind).ids) (fun _ _ => False) w := by
  have hnil : P → ∀ p ∈ ([] : List Provisioned), ∀ w' : Kind → Watch, p.id ∈ (w' p.kind).ids :=
    fun _ p hp => absurd hp List.not_mem_nil
  cases before with
  | none => exact fun hP p hp => hnil hP p hp w
  | some before =>
    refine Program.wp_caught (Program.wp_after (lwp_snapshot .after) fun after w' hafter => ?_)
      fun _ w' _ hP p hp => hnil hP p hp w'
    exact fun hP p hp => mem_diffSnapshots (h hP) hafter.2 hp

theorem lwp_cleanup {provisioned : List Provisioned}
    (h : ∀ p ∈ provisioned, p.id ∈ (w p.kind).ids) :
    lwp i (cleanupFailedBuild i provisioned) (fun _ _ => True) (fun _ _ => False) w := by
  have hloop : lwp i (Program.forEach (destroySorted provisioned) fun p =>
      logged (.delete i p.kind p.id) rfl) (fun _ w' => w' = w) (fun _ _ => False) w := by
    refine Program.wp_forEach (I := fun w' => w' = w) (fun p hp w' hw => ?_) rfl
    subst hw
    refine lwp_logged rfl nofun rfl (fun kind id heq => ?_) fun _ => rfl
    cases heq
    exact h p ((List.mem_insertionSort _).mp hp)
  refine Program.wp_after hloop fun _ w' hw => ?_
  subst hw
  exact Program.wp_mono (fun _ _ _ => trivial) (fun _ _ h => h)
    (lwp_logged rfl nofun trivial nofun fun _ => rfl)

/-- **A build deletes only what it takes for its own.** -/
theorem lwp_runBuild : lwp i runBuild (fun _ _ => True) (fun _ _ => True) w := by
  refine Program.wp_perform fun id w₁ hx => ⟨⟨trivial, nofun⟩, ?_⟩
  obtain ⟨rfl, rfl⟩ := hx
  have hbefore : lwp id (Program.tryCatch (snapshot id .before >>= fun s => pure (some s))
      fun _ => pure none) (fun before w' => Known w' before) (fun _ _ => False) w₁ :=
    Program.wp_caught (Program.wp_after (lwp_snapshot .before) fun _ _ h => h) fun _ _ _ => trivial
  refine Program.wp_then hbefore fun before w₂ hknown => ?_
  have hstatus : lwp id (Program.tryCatch (tryStep (.playbook id) rfl >>= fun rc : ℤ =>
      pure (if rc = 0 then Status.success else .failed)) fun _ => pure .failed)
      (fun status w' => status = .failed → Known w' before) (fun _ _ => False) w₂ := by
    refine Program.wp_caught (D := fun _ w' => Known w' before)
      (Program.wp_attempt rfl fun a w₃ hx => ⟨⟨rfl, nofun⟩, ?_⟩) fun _ _ h _ => h
    obtain rfl := hx rfl
    cases a with
    | error e => exact hknown
    | ok rc =>
      by_cases hrc : rc = 0
      · intro hfailed
        rw [if_pos hrc] at hfailed
        cases hfailed
      · intro _
        change Known (if rc = 0 then _ else w₂) before
        rw [if_neg hrc]
        exact hknown
  refine Program.wp_then hstatus fun status w₃ hfailed => ?_
  refine Program.wp_then (lwp_provisionedSince hfailed) fun provisioned w₄ hprovisioned => ?_
  have hsave : ∀ w, lwp id (perform (.save id status provisioned)) (fun _ _ => True)
      (fun _ _ => True) w := fun w =>
    (Program.wp_call_eq _ _).mpr fun _ _ _ => ⟨⟨rfl, nofun⟩, trivial⟩
  change Program.wp _ _ _ (if status = .failed then _ else _) _ _ _
  split
  · next hstatus =>
    exact Program.wp_then (lwp_cleanup (hprovisioned hstatus)) fun _ w' _ => hsave w'
  · exact hsave w₄

theorem lwp_code (r : Request) : lwp i r.code (fun _ _ => True) (fun _ _ => True) w := by
  cases r with
  | build => exact lwp_runBuild
  | create creator kind id name =>
    exact Program.wp_mono (fun _ _ _ => trivial) (fun _ _ h => h.elim)
      (lwp_logged rfl nofun trivial nofun fun _ => rfl)
  | remove kind id =>
    exact Program.wp_mono (fun _ _ _ => trivial) (fun _ _ h => h.elim)
      (lwp_logged rfl nofun trivial nofun fun _ => rfl)

end Rules

/-! ### Runs -/

/-- A thread's step does to what its build has listed what `localExec` says. -/
theorem localExec_of_exec {i : String} {s s' : State} {c : Cmd} {a : c.Ans} (h : exec i s c a s') :
    localExec i (s.watch i) c a (s'.watch i) := by
  cases c with
  | newId =>
    obtain ⟨rfl, -, rfl⟩ := h
    exact ⟨rfl, rfl⟩
  | list build phase kind =>
    rintro rfl
    cases a with
    | ok items =>
      obtain ⟨-, rfl⟩ := h
      exact if_pos rfl
    | error e =>
      obtain rfl : s' = s.observe build _ := h
      exact if_pos rfl
  | playbook build =>
    rintro rfl
    obtain rfl : s' = s.observe build _ := h
    exact if_pos rfl
  | save build status provisioned =>
    rintro rfl
    obtain rfl : s' = s.observe build _ := h
    exact if_pos rfl
  | delete build kind id =>
    intro _
    rcases h with rfl | rfl <;> rfl
  | remove kind id =>
    intro _
    rcases h with rfl | rfl <;> rfl
  | create creator kind id name =>
    intro _
    rcases h with rfl | ⟨-, -, rfl⟩ <;> rfl
  | queueFailure build =>
    intro _
    obtain rfl : s' = s := h
    rfl

/-- The other builds know what they knew. -/
theorem watch_of_ne {i j : String} (hj : j ≠ i) {k : String} {s s' : State} {c : Cmd} {a : c.Ans}
    (h : exec k s c a s') (howned : c.Owned i) : s'.watch j = s.watch j := by
  cases c with
  | newId =>
    obtain ⟨-, -, rfl⟩ := h
    rfl
  | list build phase kind =>
    obtain rfl : build = i := howned
    cases a with
    | ok items =>
      obtain ⟨-, rfl⟩ := h
      exact if_neg hj
    | error e =>
      obtain rfl : s' = s.observe build _ := h
      exact if_neg hj
  | playbook build =>
    obtain rfl : build = i := howned
    obtain rfl : s' = s.observe build _ := h
    exact if_neg hj
  | save build status provisioned =>
    obtain rfl : build = i := howned
    obtain rfl : s' = s.observe build _ := h
    exact if_neg hj
  | delete build kind id => rcases h with rfl | rfl <;> rfl
  | remove kind id => rcases h with rfl | rfl <;> rfl
  | create creator kind id name => rcases h with rfl | ⟨-, -, rfl⟩ <;> rfl
  | queueFailure build =>
    obtain rfl : s' = s := h
    rfl

/-- The threads run builds and requests, and may be stopped anywhere. -/
def Starts (_ : Config sig Failure Unit String State) : Move sig Failure Unit String → Prop
  | .start _ p => ∃ r : Request, p = r.code
  | _ => True

/-- What the threads know of their builds. -/
def outline : Outline exec Starts where
  rely i s s' := s'.watch i = s.watch i
  guar i s c a s' := exec i s c a s' ∧ localGuar i (s.watch i) c a (s'.watch i)
  idle _ _ := True
  post _ _ _ := True
  fail _ _ _ := True
  sem := exec
  sem_of_ok _ _ _ _ _ _ hx := hx
  rely_refl _ _ := rfl
  rely_trans _ _ _ _ h h' := h'.trans h
  rely_of_guar _ _ hj _ _ _ _ h := watch_of_ne hj h.1 h.2.1
  idle_stable _ _ _ _ _ := trivial
  post_stable _ _ _ _ _ _ := trivial
  fail_stable _ _ _ _ _ _ := trivial
  start x i p hp _ := by
    obtain ⟨r, rfl⟩ := hp
    exact Program.wp_of_view (fun s : State => s.watch i) (fun _ _ h => h.symm)
      (fun _ _ _ _ hx => localExec_of_exec hx) (fun _ _ _ _ hx h => ⟨hx, h⟩) (lwp_code r)
  ret _ _ _ _ _ := trivial
  raise _ _ _ _ _ := trivial
  kill _ _ _ _ _ _ := trivial

/-- No build is disturbed in the step. -/
def Considerate (x : Config sig Failure Unit String State) (m : Move sig Failure Unit String) :
    Prop :=
  ∀ i c a, m = .call i c a → Undisturbed x.shared c

/-- The answers in which every playbook exits with 2. -/
def respond (i : String) (s : State) : (c : Cmd) → Option (c.Ans × State)
  | .newId => if i ∈ s.begun then none else some (i, { s with begun := i :: s.begun })
  | .list build phase kind => some (.ok (s.listing kind), s.observe build
      (watchAfter (s.watch build) (.list build phase kind) (.ok (s.listing kind))))
  | .playbook build => some (.ok 2, s.observe build
      (watchAfter (s.watch build) (.playbook build) (.ok 2)))
  | .save build status provisioned => some ((), s.observe build
      (watchAfter (s.watch build) (.save build status provisioned) ()))
  | .delete _ kind id | .remove kind id => some (.ok (), s.remove kind id)
  | .create creator kind id name =>
    if (∀ r ∈ s.resources, ¬(r.kind = kind ∧ r.id = id)) ∧ (kind, id) ∉ s.used then
      some (.ok (), s.create ⟨kind, id, name, creator⟩)
    else none
  | .queueFailure _ => some (.ok (), s)

theorem exec_respond {i : String} {s s' : State} {c : Cmd} {a : c.Ans}
    (h : respond i s c = some (a, s')) : exec i s c a s' := by
  cases c with
  | newId =>
    obtain ⟨hnew, heq⟩ := Option.ite_none_left_eq_some.mp h
    cases heq
    exact ⟨rfl, hnew, rfl⟩
  | list build phase kind =>
    cases h
    exact ⟨rfl, rfl⟩
  | playbook build =>
    cases h
    exact rfl
  | save build status provisioned =>
    cases h
    exact rfl
  | delete build kind id =>
    cases h
    exact .inr rfl
  | remove kind id =>
    cases h
    exact .inr rfl
  | create creator kind id name =>
    obtain ⟨⟨hfresh, hunused⟩, heq⟩ := Option.ite_none_right_eq_some.mp h
    cases heq
    exact .inr ⟨hfresh, fun _ => hunused, rfl⟩
  | queueFailure build =>
    cases h
    exact rfl

/-- A VPC is created during a build that fails; the build is about to delete it. -/
def failing (creator : Option String) : List (Turn sig Failure Unit String) :=
  .start "b" (Request.code .build) :: (List.replicate 7 (.go "b") ++
    (.start "p" (Request.code (.create creator .vpc "v" "net")) :: (List.replicate 2 (.go "p") ++
      List.replicate 7 (.go "b"))))

theorem start_mem_failing {creator : Option String} {i : String} {p : Code Unit}
    (h : Turn.start i p ∈ failing creator) : ∃ r : Request, p = r.code := by
  rcases List.mem_cons.mp h with h | h
  · cases h
    exact ⟨.build, rfl⟩
  rcases List.mem_append.mp h with h | h
  · cases List.eq_of_mem_replicate h
  rcases List.mem_cons.mp h with h | h
  · cases h
    exact ⟨.create creator .vpc "v" "net", rfl⟩
  rcases List.mem_append.mp h with h | h
  · cases List.eq_of_mem_replicate h
  · cases List.eq_of_mem_replicate h

/-- The deletion of the VPC. -/
theorem step_delete {x : Config sig Failure Unit String State} {build id : String} {kind : Kind}
    (h : x.next build = some (.delete build kind id)) :
    ∃ y, Step exec x (.call build (.delete build kind id) (.ok ())) y ∧
      y.shared = x.shared.remove kind id := by
  obtain ⟨k, ht⟩ := Config.thread_of_next h
  have hexec : exec build x.shared (.delete build kind id) (.ok ()) (x.shared.remove kind id) :=
    .inr rfl
  exact ⟨_, .call ht hexec, rfl⟩

/-- The VPC is gone. -/
theorem remove_failing {s : State} {creator : Option String}
    (h : s.resources = [⟨.vpc, "v", "net", creator⟩]) : (s.remove .vpc "v").resources = [] := by
  change s.resources.filter (fun r => ¬(r.kind = .vpc ∧ r.id = "v")) = []
  rw [h]
  simp

instance (i : String) : DecidablePred (Cmd.Owned i)
  | .list build .. | .playbook build | .save build .. | .delete build .. =>
    inferInstanceAs (Decidable (build = i))
  | .newId | .queueFailure _ | .create .. | .remove .. => .isTrue trivial

/-- Nothing is created except by the playbook of one build, and no other build runs. -/
def alone (build : String) : Cmd → Bool
  | .create creator .. => creator = some build
  | c => c.Owned build

theorem owned_of_alone {build : String} {c : Cmd} (h : alone build c = true) : c.Owned build := by
  cases c with
  | create creator kind id name => trivial
  | _ => exact of_decide_eq_true h

theorem undisturbed_of_alone {build : String} {s : State} {c : Cmd} (h : alone build c = true)
    (hs : ∀ b, b ≠ build → s.watch b = fun _ => .off) : Undisturbed s c := by
  cases c with
  | create creator kind id name =>
    obtain rfl : creator = some build := of_decide_eq_true h
    intro b hb
    rw [hs b fun heq => hb (congrArg some heq.symm)]
    trivial
  | _ => trivial

end Playbook
end CloudCore
