import CloudCore.Db.Column
import CloudCore.Effect.Pool
import CloudCore.Effect.Sequential
import CloudCore.Python.Isoformat
import Mathlib.Data.List.Nodup

/-!
# The re-verification of submissions

`process_pending`, `_reverify` and `_set` of `llm_client_capture.py` and `record_example` of
`llm_examples_store.py`.  One worker runs passes over the pending submissions; the process may
be killed between two commits, and the next one starts over.  Every statement with its commit
is one command.  A pass works on the rows it has read, so that a submission that arrives
meanwhile is seen by the next one.

## Main definitions

* `processPending` — one pass.
* `State` — the two tables; `Submissions` have distinct ids.
* `Promises` — what is promised.
* `Careful` — nothing stops the worker between an example and its mark.
* `Sound` — the invariant.

## Main results

* `settled_of_reaches` — **the promises are kept in every run in which nothing stops the
  worker between an example and its mark.**
* `recorded_twice` — a submission with two examples.
-/

namespace CloudCore
namespace Reverify

open Effect Python
open Effect.Program (attempt)

/-! ### The tables -/

inductive Status where
  | pending
  | verified
  | rejected
  | expired
  deriving DecidableEq

/-- A row of `llm_client_submissions`. -/
structure Submission where
  id : String
  tokenId : String
  modelFilename : String
  prompt : String
  code : String
  language : String
  status : Status
  attempts : ℤ
  lastError : String
  exampleId : String
  createdAt : String
  deriving DecidableEq

/-- What `record_example` is given; the coordinator's values are bound as they are. -/
structure Evidence where
  source : String
  modelFilename : String
  prompt : String
  generatedCode : String
  execStdout : Json
  execStderr : Json
  execExitCode : Json
  passed : Bool
  language : String
  clientTokenId : String

/-- A row of `llm_verification_examples`.  The submission it comes from is not stored. -/
structure Example where
  id : String
  evidence : Evidence
  origin : String

/-- The columns that `_set` writes. -/
structure Fields where
  status : Option Status
  attempts : Option ℤ
  lastError : String
  exampleId : Option String
  deriving DecidableEq

def Fields.apply (f : Fields) (sub : Submission) : Submission :=
  { sub with
    status := f.status.getD sub.status
    attempts := f.attempts.getD sub.attempts
    lastError := f.lastError
    exampleId := f.exampleId.getD sub.exampleId }

/-- The rows of `llm_client_submissions`, under their primary key. -/
structure Submissions where
  rows : List Submission
  nodup : (rows.map (·.id)).Nodup

def Submissions.insert (subs : Submissions) (sub : Submission) (h : sub.id ∉ subs.rows.map (·.id)) :
    Submissions where
  rows := subs.rows ++ [sub]
  nodup := by
    rw [List.map_append, List.map_singleton]
    exact List.nodup_append.mpr ⟨subs.nodup, List.nodup_singleton _, fun a ha b hb heq =>
      h (List.mem_singleton.mp hb ▸ heq ▸ ha)⟩

/-- `UPDATE ... WHERE id=?`. -/
def Submissions.set (subs : Submissions) (id : String) (f : Fields) : Submissions where
  rows := subs.rows.map fun sub => if sub.id = id then f.apply sub else sub
  nodup := by
    have hid : (fun sub : Submission => (if sub.id = id then f.apply sub else sub).id) =
        fun sub => sub.id := by
      funext sub
      split <;> rfl
    rw [List.map_map]
    exact (congrArg (fun g => (subs.rows.map g).Nodup) hid).mpr subs.nodup

/-- The tables, and the example that was recorded last if its submission is not marked yet:
the submission and the example. -/
structure State where
  subs : Submissions
  examples : List Example
  unmarked : Option (String × String)

/-! ### The pass -/

inductive Failure where
  | exception
  deriving DecidableEq

/-- What a coordinator is told, as far as `process_pending` tells it apart. -/
inductive Reply where
  /-- An `HTTPError`. -/
  | httpError (code : ℤ) (body : String)
  /-- A `URLError`, an `OSError` or a `ValueError`. -/
  | failed (text : String)
  | answered (result : Json)

inductive Cmd where
  /-- `SELECT * ... WHERE status='pending' ORDER BY created_at`. -/
  | pending
  /-- `_coordinator_urls`. -/
  | urls
  /-- `datetime.now(timezone.utc)`. -/
  | now
  | reverify (url language code : String)
  /-- `record_example`, and the submission it is called for. -/
  | record (evidence : Evidence) (origin : String)
  /-- `_set`. -/
  | set (id : String) (fields : Fields)
  /-- `submit`, what it inserts. -/
  | insert (sub : Submission)

@[reducible] def Cmd.Ans : Cmd → Type
  | .pending => Except Failure (List Submission)
  | .urls => Except Failure (List String)
  | .now => ℤ
  | .reverify .. => Except Failure Reply
  | .record .. => Except Failure String
  | .set .. | .insert _ => Except Failure Unit

abbrev sig : Signature := ⟨Cmd, Cmd.Ans⟩

abbrev Code (α : Type) := Program sig Failure α

def tryStep {α : Type} (c : Cmd) (h : c.Ans = Except Failure α) : Code α :=
  attempt (F := sig) c h

/-- `_set` with `status`, `attempts` and `last_error`. -/
def mark (sub : Submission) (status : Option Status) (attempts : Option ℤ) (lastError : String)
    (exampleId : Option String) : Code Unit :=
  tryStep (.set sub.id ⟨status, attempts, lastError, exampleId⟩) rfl

/-- `EXPIRE_AFTER`, in microseconds. -/
def expireAfter : ℤ := 24 * 3600 * 1000000

/-- `text[:300]`. -/
def clip (s : String) : String := String.ofList (s.toList.take 300)

/-- `datetime.fromisoformat(created_at)`, as far as it can be subtracted from a time with a
zone. -/
def createdInstant (sub : Submission) : Option ℤ := (fromisoformat sub.createdAt).bind (·.instant)

/-- `value or ""`. -/
def orEmpty (v : Option Json) : Json :=
  match v with
  | some v => if v.truthy then v else .str ""
  | none => .str ""

/-- What is recorded of a result; `none` if it is no dictionary. -/
def evidence (sub : Submission) : Json → Option Evidence
  | .obj fields =>
    let result := Json.obj fields
    some
      { source := "local-client"
        modelFilename := sub.modelFilename
        prompt := sub.prompt
        generatedCode := sub.code
        execStdout := orEmpty (result.get? "stdout")
        execStderr := orEmpty (result.get? "stderr")
        execExitCode := (result.get? "exit_code").getD .null
        passed := !((result.get? "timed_out").getD .null).truthy &&
          ((result.get? "exit_code").getD .null).eq (.int 0)
        language := sub.language
        clientTokenId := sub.tokenId }
  | _ => none

/-- What `process_pending` does with an answer; whether the submission is done. -/
def handleReply (sub : Submission) : Reply → Code Bool
  | .httpError code body =>
    if 400 ≤ code ∧ code < 500 then do
      let () ← mark sub (some .rejected) (some (sub.attempts + 1))
        s!"coordinator refused it: HTTP {code} {clip body}" none
      pure true
    else do
      let () ← mark sub none (some (sub.attempts + 1)) s!"HTTP {code} {clip body}" none
      pure false
  | .failed text => do
    let () ← mark sub none (some (sub.attempts + 1)) (clip text) none
    pure false
  | .answered result =>
    match evidence sub result with
    | none => throw .exception
    | some e => do
      let exampleId : String ← tryStep (.record e sub.id) rfl
      let () ← mark sub (some .verified) (some (sub.attempts + 1)) "" (some exampleId)
      pure true

/-- One round of the loop of `process_pending`. -/
def processOne (urls : List String) (sub : Submission) : Code Bool :=
  match createdInstant sub with
  | none => throw .exception
  | some created => do
    let now : ℤ ← Program.perform (F := sig) .now
    if now - created > expireAfter then do
      let () ← mark sub (some .expired) none "no llm-chat coordinator re-verified this within 24h" none
      pure true
    else
      match urls with
      | [] => do
        let () ← mark sub none (some (sub.attempts + 1))
          "no running llm-chat coordinator to re-verify on" none
        pure false
      | url :: _ => do
        let reply : Reply ← tryStep (.reverify url sub.language sub.code) rfl
        handleReply sub reply

/-- The loop of `process_pending`, with `done`. -/
def processAll (urls : List String) : List Submission → ℕ → Code ℕ
  | [], done => pure done
  | sub :: rows, done => do
    let final ← processOne urls sub
    processAll urls rows (if final then done + 1 else done)

def processPending : Code ℕ := do
  let rows : List Submission ← tryStep .pending rfl
  if rows.isEmpty then pure 0
  else do
    let urls : List String ← tryStep .urls rfl
    processAll urls rows 0

/-- What the process runs: a pass, or a request. -/
inductive Task where
  | pass
  | submit (sub : Submission)

def Task.code : Task → Code ℕ
  | .pass => processPending
  | .submit sub => do
    let () ← tryStep (.insert sub) rfl
    pure 0

/-! ### What the commands do -/

/-- Whether SQLite takes the evidence. -/
def Evidence.Bound (e : Evidence) : Prop :=
  Db.textColumn (fun _ => "") e.execStdout ≠ none ∧ Db.textColumn (fun _ => "") e.execStderr ≠ none ∧
    Db.textParameter (fun _ => "") e.execExitCode ≠ none

instance (e : Evidence) : Decidable e.Bound := inferInstanceAs (Decidable (_ ∧ _ ∧ _))

/-- A command that raises has written nothing. -/
def exec (_ : Unit) (s : State) : (c : Cmd) → c.Ans → State → Prop
  | .pending, .ok rows, s' => rows.Perm (s.subs.rows.filter (·.status = .pending)) ∧
    rows.Pairwise (fun a b => a.createdAt ≤ b.createdAt) ∧ s' = s
  | .record e origin, .ok id, s' => e.Bound ∧ id ∉ s.examples.map (·.id) ∧
    s' = { s with examples := s.examples ++ [⟨id, e, origin⟩], unmarked := some (origin, id) }
  | .set id f, .ok (), s' => s' = { s with
      subs := s.subs.set id f
      unmarked := if s.unmarked = f.exampleId.map fun ex => (id, ex) then none else s.unmarked }
  | .insert sub, .ok (), s' => sub.status = .pending ∧ sub.exampleId = "" ∧
    ∃ h : sub.id ∉ s.subs.rows.map (·.id), s' = { s with subs := s.subs.insert sub h }
  | _, _, s' => s' = s

/-- The mark of an example does not fail. -/
def Smooth (s : State) : (c : Cmd) → c.Ans → Prop
  | .set _ _, .error _ => s.unmarked = none
  | _, _ => True

/-- Nothing stops the worker between an example and its mark. -/
def Careful (x : Config sig Failure ℕ Unit State) : Move sig Failure ℕ Unit → Prop
  | .kill _ => x.shared.unmarked = none
  | .call _ c a => Smooth x.shared c a
  | _ => True

/-- The process runs passes and requests. -/
def Starts (_ : Config sig Failure ℕ Unit State) : Move sig Failure ℕ Unit → Prop
  | .start _ p => ∃ t : Task, p = t.code
  | _ => True

/-- Submissions, and no example yet. -/
def State.init (subs : Submissions) : State := ⟨subs, [], none⟩

structure Promises (s : State) : Prop where
  /-- A submission yields at most one example. -/
  once : (s.examples.map (·.origin)).Nodup
  /-- A verified submission has its own example. -/
  verified : ∀ sub ∈ s.subs.rows, sub.status = .verified →
    ∃ e ∈ s.examples, e.id = sub.exampleId ∧ e.origin = sub.id
  /-- A rejected or expired submission has none. -/
  none : ∀ sub ∈ s.subs.rows, sub.status = .rejected ∨ sub.status = .expired →
    ∀ e ∈ s.examples, e.origin ≠ sub.id

/-! ### The invariant -/

/-- A submission waits for a coordinator. -/
def Pending (s : State) (id : String) : Prop :=
  ∃ sub ∈ s.subs.rows, sub.id = id ∧ sub.status = .pending

structure Sound (s : State) : Prop where
  once : (s.examples.map (·.origin)).Nodup
  /-- An example belongs to a submission that is verified with it, or about to be. -/
  owned : ∀ e ∈ s.examples, s.unmarked = some (e.origin, e.id) ∨
    ∃ sub ∈ s.subs.rows, sub.id = e.origin ∧ sub.status = .verified
  verified : ∀ sub ∈ s.subs.rows, sub.status = .verified →
    ∃ e ∈ s.examples, e.id = sub.exampleId ∧ e.origin = sub.id
  unmarked : ∀ origin id, s.unmarked = some (origin, id) →
    Pending s origin ∧ ∃ e ∈ s.examples, e.id = id ∧ e.origin = origin

/-- What a command must know of the tables. -/
def Guard (s : State) : Cmd → Prop
  | .record _ origin => s.unmarked = none ∧ Pending s origin
  | .set id f =>
    match f.exampleId with
    | some ex => f.status = some .verified ∧ s.unmarked = some (id, ex)
    | none => s.unmarked = none ∧ Pending s id ∧ f.status ≠ some .verified
  | _ => s.unmarked = none

variable {s s' : State}

theorem eq_of_id (subs : Submissions) {sub sub' : Submission} (h : sub ∈ subs.rows)
    (h' : sub' ∈ subs.rows) (hid : sub.id = sub'.id) : sub = sub' :=
  List.inj_on_of_nodup_map subs.nodup h h' hid

@[simp] theorem apply_id (f : Fields) (sub : Submission) : (f.apply sub).id = sub.id := rfl

theorem mem_set {subs : Submissions} {id : String} {f : Fields} {sub : Submission} :
    sub ∈ (subs.set id f).rows ↔ ∃ old ∈ subs.rows,
      (if old.id = id then f.apply old else old) = sub :=
  List.mem_map

/-- A submission that waits is not verified. -/
theorem Pending.not_verified {id : String} (h : Pending s id) {sub : Submission}
    (hsub : sub ∈ s.subs.rows) (hid : sub.id = id) : sub.status ≠ .verified := by
  obtain ⟨sub', hsub', hid', hpending⟩ := h
  rw [eq_of_id s.subs hsub hsub' (hid.trans hid'.symm), hpending]
  exact nofun

theorem Pending.set {id id' : String} {f : Fields} (h : Pending s id) (hne : id ≠ id')
    {unmarked : Option (String × String)} :
    Pending { s with subs := s.subs.set id' f, unmarked := unmarked } id := by
  obtain ⟨sub, hsub, hid, hpending⟩ := h
  exact ⟨sub, mem_set.mpr ⟨sub, hsub, if_neg fun heq => hne (hid.symm.trans heq)⟩, hid, hpending⟩

/-- An example is recorded for a submission that waits. -/
theorem Sound.record (h : Sound s) {e : Evidence} {origin id : String} (hunmarked : s.unmarked = none)
    (hpending : Pending s origin) :
    Sound { s with
      examples := s.examples ++ [⟨id, e, origin⟩]
      unmarked := some (origin, id) } := by
  have hfresh : origin ∉ s.examples.map (·.origin) := by
    intro hmem
    obtain ⟨e', he', rfl⟩ := List.mem_map.mp hmem
    rcases h.owned e' he' with hlast | ⟨sub, hsub, hid, hverified⟩
    · rw [hunmarked] at hlast
      cases hlast
    · exact hpending.not_verified hsub hid hverified
  refine ⟨?_, fun e' he' => ?_, fun sub hsub hverified => ?_, fun o i hlast => ?_⟩
  · change ((s.examples ++ [(⟨id, e, origin⟩ : Example)]).map (·.origin)).Nodup
    rw [List.map_append, List.map_singleton]
    refine List.nodup_append.mpr ⟨h.once, List.nodup_singleton _, fun a ha b hb heq => ?_⟩
    obtain rfl := List.mem_singleton.mp hb
    exact hfresh (heq ▸ ha)
  · rcases List.mem_append.mp he' with he' | he'
    · rcases h.owned e' he' with hlast | hverified
      · rw [hunmarked] at hlast
        cases hlast
      · exact .inr hverified
    · obtain rfl := List.mem_singleton.mp he'
      exact .inl rfl
  · obtain ⟨e', he', hid⟩ := h.verified sub hsub hverified
    exact ⟨e', List.mem_append_left _ he', hid⟩
  · cases hlast
    exact ⟨hpending, _, List.mem_append_right _ (List.mem_singleton_self _), rfl, rfl⟩

/-- A submission that waits is marked otherwise than verified. -/
theorem Sound.set_other (h : Sound s) {id : String} {f : Fields} (hunmarked : s.unmarked = none)
    (hpending : Pending s id) (hstatus : f.status ≠ some .verified) :
    Sound { s with subs := s.subs.set id f, unmarked := none } := by
  -- verified submissions are the same before and after
  have hnot : ∀ old ∈ s.subs.rows, old.id = id → (f.apply old).status ≠ .verified := by
    intro old hold hid
    have hold' := hpending.not_verified hold hid
    change f.status.getD old.status ≠ .verified
    cases hf : f.status with
    | none => exact hold'
    | some status =>
      rw [hf] at hstatus
      exact fun heq => hstatus (congrArg some heq)
  refine ⟨h.once, fun e he => .inr ?_, fun sub hsub hverified => ?_, nofun⟩
  · rcases h.owned e he with hlast | ⟨sub, hsub, hid, hverified⟩
    · rw [hunmarked] at hlast
      cases hlast
    · have hne : sub.id ≠ id := fun heq => hpending.not_verified hsub heq hverified
      exact ⟨sub, mem_set.mpr ⟨sub, hsub, if_neg hne⟩, hid, hverified⟩
  · obtain ⟨old, hold, rfl⟩ := mem_set.mp hsub
    by_cases hid : old.id = id
    · rw [if_pos hid] at hverified
      exact absurd hverified (hnot old hold hid)
    · rw [if_neg hid] at hverified ⊢
      exact h.verified old hold hverified

/-- The submission of the last example is marked. -/
theorem Sound.set_verified (h : Sound s) {id ex : String} {f : Fields}
    (hunmarked : s.unmarked = some (id, ex)) (hstatus : f.status = some .verified)
    (hexample : f.exampleId = some ex) :
    Sound { s with subs := s.subs.set id f, unmarked := none } := by
  obtain ⟨⟨sub₀, hsub₀, hid₀, -⟩, e₀, he₀, hex₀, horigin₀⟩ := h.unmarked id ex hunmarked
  have hmarked : (f.apply sub₀).status = .verified := by
    change f.status.getD _ = _
    rw [hstatus, Option.getD_some]
  refine ⟨h.once, fun e he => .inr ?_, fun sub hsub hverified => ?_, nofun⟩
  · rcases h.owned e he with hlast | ⟨sub, hsub, hid, hverified⟩
    · rw [hunmarked] at hlast
      cases hlast
      exact ⟨f.apply sub₀, mem_set.mpr ⟨sub₀, hsub₀, if_pos hid₀⟩, hid₀, hmarked⟩
    · refine ⟨_, mem_set.mpr ⟨sub, hsub, rfl⟩, ?_⟩
      split
      · refine ⟨hid, ?_⟩
        change f.status.getD _ = _
        rw [hstatus, Option.getD_some]
      · exact ⟨hid, hverified⟩
  · obtain ⟨old, hold, rfl⟩ := mem_set.mp hsub
    by_cases hid : old.id = id
    · rw [if_pos hid]
      refine ⟨e₀, he₀, ?_, horigin₀.trans hid.symm⟩
      change e₀.id = f.exampleId.getD _
      rw [hexample, Option.getD_some, hex₀]
    · rw [if_neg hid] at hverified ⊢
      exact h.verified old hold hverified

theorem Sound.insert (h : Sound s) {sub : Submission} (hpending : sub.status = .pending)
    (hid : sub.id ∉ s.subs.rows.map (·.id)) :
    Sound { s with subs := s.subs.insert sub hid } := by
  refine ⟨h.once, fun e he => ?_, fun sub' hsub' hverified => ?_, fun o i hlast => ?_⟩
  · refine (h.owned e he).imp_right ?_
    rintro ⟨sub', hsub', hrest⟩
    exact ⟨sub', List.mem_append_left _ hsub', hrest⟩
  · rcases List.mem_append.mp hsub' with hsub' | hsub'
    · exact h.verified sub' hsub' hverified
    · obtain rfl := List.mem_singleton.mp hsub'
      rw [hpending] at hverified
      cases hverified
  · obtain ⟨⟨sub', hsub', hrest⟩, hexample⟩ := h.unmarked o i hlast
    exact ⟨⟨sub', List.mem_append_left _ hsub', hrest⟩, hexample⟩

/-- **Every command keeps the tables sound.** -/
theorem sound_step {c : Cmd} {a : c.Ans} (hx : exec () s c a s') (hg : Guard s c) (h : Sound s) :
    Sound s' := by
  cases c with
  | record e origin =>
    cases a with
    | ok id =>
      obtain ⟨-, -, rfl⟩ := hx
      exact h.record hg.1 hg.2
    | error e => exact hx ▸ h
  | set id f =>
    cases a with
    | ok u =>
      obtain rfl := hx
      obtain ⟨status, attempts, lastError, exampleId⟩ := f
      cases exampleId with
      | some ex =>
        obtain ⟨hstatus, hunmarked⟩ := hg
        simp only [hunmarked, Option.map_some, if_true]
        exact h.set_verified hunmarked hstatus rfl
      | none =>
        obtain ⟨hunmarked, hpending, hstatus⟩ := hg
        simp only [hunmarked, Option.map_none, if_true]
        exact h.set_other hunmarked hpending hstatus
    | error e => exact hx ▸ h
  | insert sub =>
    cases a with
    | ok u =>
      obtain ⟨hpending, -, hid, rfl⟩ := hx
      exact h.insert hpending hid
    | error e => exact hx ▸ h
  | pending =>
    cases a with
    | ok rows => exact hx.2.2 ▸ h
    | error e => exact hx ▸ h
  | _ => exact hx ▸ h

/-! ### The pass -/

section Pass

/-- The weakest precondition of the worker, where nothing stops it. -/
abbrev lwp {α : Type} (p : Code α) (Q : α → State → Prop) (E : Failure → State → Prop) (s : State) :
    Prop :=
  Program.wp (fun s c a s' => exec () s c a s' ∧ Smooth s c a) Eq (fun s c _ _ => Guard s c) p Q E s

/-- Nothing is left to be marked, and the submissions among `ids` wait. -/
def Ready (ids : List String) (s : State) : Prop :=
  s.unmarked = none ∧ ∀ id ∈ ids, Pending s id

/-- A submission is marked. -/
theorem lwp_mark {sub : Submission} {status : Option Status} {attempts : Option ℤ}
    {lastError : String} {exampleId : Option String} {ids : List String} (hids : sub.id ∉ ids)
    (hwait : ∀ id ∈ ids, Pending s id)
    (hg : Guard s (.set sub.id ⟨status, attempts, lastError, exampleId⟩))
    (hunmarked : s.unmarked = exampleId.map fun ex => (sub.id, ex)) :
    lwp (mark sub status attempts lastError exampleId) (fun _ => Ready ids)
      (fun _ s => s.unmarked = none) s := by
  refine (Program.wp_call_eq _ _).mpr fun a s' ⟨hx, hsmooth⟩ => ⟨hg, ?_⟩
  cases a with
  | ok u =>
    obtain rfl := hx
    refine ⟨?_, fun id hid => ?_⟩
    · change (if s.unmarked = exampleId.map _ then none else s.unmarked) = none
      rw [if_pos hunmarked]
    · refine (hwait id hid).set ?_
      rintro rfl
      exact hids hid
  | error e =>
    obtain rfl : s' = s := hx
    exact hsmooth

/-- After the answer of a coordinator. -/
theorem lwp_handleReply {sub : Submission} {ids : List String} (hids : sub.id ∉ ids)
    (h : Ready (sub.id :: ids) s) (reply : Reply) :
    lwp (handleReply sub reply) (fun _ => Ready ids) (fun _ s => s.unmarked = none) s := by
  obtain ⟨hunmarked, hwait⟩ := h
  have hthis : Pending s sub.id := hwait _ List.mem_cons_self
  have hrest : ∀ id ∈ ids, Pending s id := fun id hid => hwait id (List.mem_cons_of_mem _ hid)
  cases reply with
  | httpError code body =>
    change Program.wp _ _ _ (if 400 ≤ code ∧ code < 500 then _ else _) _ _ _
    split
    · exact Program.wp_after (lwp_mark hids hrest ⟨hunmarked, hthis, nofun⟩ hunmarked)
        fun _ _ h => h
    · exact Program.wp_after (lwp_mark hids hrest ⟨hunmarked, hthis, nofun⟩ hunmarked)
        fun _ _ h => h
  | failed text =>
    exact Program.wp_after (lwp_mark hids hrest ⟨hunmarked, hthis, nofun⟩ hunmarked) fun _ _ h => h
  | answered result =>
    cases he : evidence sub result with
    | none =>
      simp only [handleReply, he]
      exact hunmarked
    | some e =>
      simp only [handleReply, he]
      refine Program.wp_attempt rfl fun a s₁ ⟨hx, _⟩ => ⟨⟨hunmarked, hthis⟩, ?_⟩
      cases a with
      | error e =>
        obtain rfl : s₁ = s := hx
        exact hunmarked
      | ok id =>
        obtain ⟨-, -, rfl⟩ := hx
        change lwp (do
          let () ← mark sub (some .verified) (some (sub.attempts + 1)) "" (some id)
          pure true) _ _ _
        have hg : ∀ lastError attempts, Guard
            { s with
              examples := s.examples ++ [⟨id, e, sub.id⟩]
              unmarked := some (sub.id, id) }
            (.set sub.id ⟨some .verified, attempts, lastError, some id⟩) := fun _ _ => ⟨rfl, rfl⟩
        exact Program.wp_after (lwp_mark hids hrest (hg _ _) rfl) fun _ _ h => h

theorem lwp_processOne {urls : List String} {sub : Submission} {ids : List String}
    (hids : sub.id ∉ ids) (h : Ready (sub.id :: ids) s) :
    lwp (processOne urls sub) (fun _ => Ready ids) (fun _ s => s.unmarked = none) s := by
  have hthis : Pending s sub.id := h.2 _ List.mem_cons_self
  have hrest : ∀ id ∈ ids, Pending s id := fun id hid => h.2 id (List.mem_cons_of_mem _ hid)
  unfold processOne
  cases createdInstant sub with
  | none => exact h.1
  | some created =>
    refine Program.wp_perform fun now s₁ ⟨hx, _⟩ => ⟨h.1, ?_⟩
    obtain rfl : s₁ = s := hx
    change Program.wp _ _ _ (if now - created > expireAfter then _ else _) _ _ _
    split
    · exact Program.wp_after (lwp_mark hids hrest ⟨h.1, hthis, nofun⟩ h.1) fun _ _ h => h
    · cases urls with
      | nil => exact Program.wp_after (lwp_mark hids hrest ⟨h.1, hthis, nofun⟩ h.1) fun _ _ h => h
      | cons url urls =>
        refine Program.wp_attempt rfl fun a s₂ ⟨hx, _⟩ => ⟨h.1, ?_⟩
        obtain rfl : s₂ = s₁ := by
          cases a with
          | ok reply => exact hx
          | error e => exact hx
        cases a with
        | ok reply => exact lwp_handleReply hids h reply
        | error e => exact h.1

theorem lwp_processAll {urls : List String} {rows : List Submission} {done : ℕ}
    (hrows : (rows.map (·.id)).Nodup) (h : Ready (rows.map (·.id)) s) :
    lwp (processAll urls rows done) (fun _ s => s.unmarked = none) (fun _ s => s.unmarked = none)
      s := by
  induction rows generalizing s done with
  | nil => exact h.1
  | cons sub rows ih =>
    rw [List.map_cons, List.nodup_cons] at hrows
    exact Program.wp_after (lwp_processOne hrows.1 h) fun final s' h' => ih hrows.2 h'

/-- **A pass marks every example it records.** -/
theorem lwp_processPending (h : s.unmarked = none) :
    lwp processPending (fun _ s => s.unmarked = none) (fun _ s => s.unmarked = none) s := by
  refine Program.wp_attempt rfl fun a s₁ ⟨hx, _⟩ => ⟨h, ?_⟩
  cases a with
  | error e =>
    obtain rfl : s₁ = s := hx
    exact h
  | ok rows =>
    obtain ⟨hperm, -, rfl⟩ := hx
    change Program.wp _ _ _ (if rows.isEmpty then _ else _) _ _ _
    split
    · exact h
    · refine Program.wp_attempt rfl fun a s₂ ⟨hx, _⟩ => ⟨h, ?_⟩
      obtain rfl : s₂ = s₁ := by
        cases a with
        | ok urls => exact hx
        | error e => exact hx
      cases a with
      | error e => exact h
      | ok urls =>
        refine lwp_processAll ?_ ⟨h, fun id hid => ?_⟩
        · have hsub := (List.filter_sublist (l := s₂.subs.rows)
            (p := fun sub => sub.status = .pending)).map (·.id)
          exact (hperm.map _).nodup_iff.mpr (s₂.subs.nodup.sublist hsub)
        · obtain ⟨sub, hsub, rfl⟩ := List.mem_map.mp hid
          obtain ⟨hmem, hpending⟩ := List.mem_filter.mp (hperm.mem_iff.mp hsub)
          exact ⟨sub, hmem, rfl, of_decide_eq_true hpending⟩

theorem lwp_code (t : Task) (h : s.unmarked = none) :
    lwp t.code (fun _ s => s.unmarked = none) (fun _ s => s.unmarked = none) s := by
  cases t with
  | pass => exact lwp_processPending h
  | submit sub =>
    refine Program.wp_attempt rfl fun a s₁ ⟨hx, _⟩ => ⟨h, ?_⟩
    cases a with
    | ok u =>
      obtain ⟨-, -, -, rfl⟩ := hx
      exact h
    | error e =>
      obtain rfl : s₁ = s := hx
      exact h

end Pass

/-! ### Runs -/

/-- The worker marks what it records, where nothing stops it. -/
def outline : Outline exec fun x m => Starts x m ∧ Careful x m where
  rely _ := Eq
  guar _ s c a s' := exec () s c a s' ∧ Guard s c
  idle _ s := s.unmarked = none
  post _ _ s := s.unmarked = none
  fail _ _ s := s.unmarked = none
  sem _ s c a s' := exec () s c a s' ∧ Smooth s c a
  sem_of_ok _ _ _ _ _ hok hx := ⟨hx, hok.2⟩
  rely_refl _ _ := rfl
  rely_trans _ _ _ _ h h' := h.trans h'
  rely_of_guar _ _ hne := absurd rfl hne
  idle_stable _ _ _ h hidle := h ▸ hidle
  post_stable _ _ _ _ h hpost := h ▸ hpost
  fail_stable _ _ _ _ h hfail := h ▸ hfail
  start x i p hp hidle := by
    obtain ⟨⟨t, rfl⟩, -⟩ := hp
    exact Program.wp_of_view id (fun _ _ h => h) (fun _ _ _ _ hx => hx)
      (fun _ _ _ _ hx hg => ⟨hx.1, hg⟩) (lwp_code t hidle)
  ret _ _ _ _ h := h
  raise _ _ _ _ h := h
  kill _ _ _ hok _ _ := hok.2

theorem Sound.promises (h : Sound s) : Promises s := by
  refine ⟨h.once, h.verified, fun sub hsub hfinal e he heq => ?_⟩
  rcases h.owned e he with hlast | ⟨sub', hsub', hid', hverified⟩
  · obtain ⟨⟨sub', hsub', hid', hpending⟩, -⟩ := h.unmarked _ _ hlast
    rw [eq_of_id s.subs hsub hsub' (heq.symm.trans hid'.symm), hpending] at hfinal
    rcases hfinal with hfinal | hfinal <;> cases hfinal
  · rw [eq_of_id s.subs hsub hsub' (heq.symm.trans hid'.symm), hverified] at hfinal
    rcases hfinal with hfinal | hfinal <;> cases hfinal

/-- **The promises are kept in every run in which nothing stops the worker between an example
and its mark.** -/
theorem settled_of_reaches {subs : Submissions} (hsubs : ∀ sub ∈ subs.rows, sub.status = .pending)
    {x : Config sig Failure ℕ Unit State}
    (h : Reaches exec (fun x m => Starts x m ∧ Careful x m) (.idle (.init subs)) x) :
    Promises x.shared := by
  have hidle : outline.Verified (.idle (.init subs)) := fun _ => rfl
  have hsound : Sound (.init subs) := by
    refine ⟨List.nodup_nil, nofun, fun sub hsub hverified => ?_, nofun⟩
    have hpending : sub.status = .pending := hsubs sub hsub
    rw [hpending] at hverified
    cases hverified
  exact (outline.invariant (I := Sound) (fun _ _ _ _ _ hG hs => sound_step hG.1 hG.2 hs) h hidle
    hsound).2.promises

/-- At time 0, a coordinator on which Python code exits with 0 and that is too busy for other code. -/
def respond (_ : Unit) (s : State) : (c : Cmd) → Option (c.Ans × State)
  | .pending =>
    let rows := s.subs.rows.filter (·.status = .pending)
    if rows.Pairwise (fun a b => a.createdAt ≤ b.createdAt) then some (.ok rows, s) else none
  | .urls => some (.ok ["http://10.0.0.2"], s)
  | .now => some (0, s)
  | .reverify _ language _ =>
    some (.ok (if language = "python" then .answered (.obj [("exit_code", .int 0)])
      else .httpError 503 "busy"), s)
  | .record e origin =>
    let id := toString s.examples.length
    if e.Bound ∧ id ∉ s.examples.map (·.id) then
      some (.ok id, { s with
        examples := s.examples ++ [⟨id, e, origin⟩]
        unmarked := some (origin, id) })
    else none
  | .set id f => some (.ok (), { s with
      subs := s.subs.set id f
      unmarked := if s.unmarked = f.exampleId.map fun ex => (id, ex) then none else s.unmarked })
  | .insert _ => none

theorem exec_respond {i : Unit} {c : Cmd} {a : c.Ans} (h : respond i s c = some (a, s')) :
    exec i s c a s' := by
  cases c with
  | pending =>
    simp only [respond] at h
    split at h
    · next hsorted =>
      cases h
      exact ⟨.refl _, hsorted, rfl⟩
    · cases h
  | record e origin =>
    simp only [respond] at h
    split at h
    · next hok =>
      cases h
      exact ⟨hok.1, hok.2, rfl⟩
    · cases h
  | insert sub => cases h
  | _ =>
    cases h
    exact rfl

theorem smooth_respond {i : Unit} {c : Cmd} {a : c.Ans} (h : respond i s c = some (a, s')) :
    Smooth s c a := by
  cases c with
  | set id f =>
    cases h
    trivial
  | _ => trivial

/-- Two submissions, of the beginning of 1970. -/
def two : Submissions where
  rows := [("s", "python"), ("r", "c")].map fun (id, language) =>
    ⟨id, "t", "m", "p", "print(1)", language, .pending, 0, "", "", "1970-01-01T00:00:00+00:00"⟩
  nodup := by decide

theorem two_pending : ∀ sub ∈ two.rows, sub.status = .pending := by decide

/-- One submission is verified, with its example; the other one has one attempt more. -/
theorem settled_of_reaches_two : ∃ s : State,
    s.subs.rows.map (fun sub => (sub.status, sub.attempts)) = [(.verified, 1), (.pending, 1)] ∧
      s.examples.map (·.origin) = ["s"] ∧ Promises s := by
  have hrun : (Task.pass.code.run (respond ()) (.init two)).map (fun r =>
      (r.2.subs.rows.map (fun sub => (sub.status, sub.attempts)), r.2.examples.map (·.origin))) =
        some ([(.verified, 1), (.pending, 1)], ["s"]) := by
    decide
  obtain ⟨⟨r, s⟩, hr, hs⟩ := Option.map_eq_some_iff.mp hrun
  obtain ⟨hrows, hexamples⟩ := Prod.mk.inj hs
  refine ⟨s, hrows, hexamples, settled_of_reaches two_pending (x := .idle s) ?_⟩
  exact Reaches.solo (fun x c a s h => ⟨exec_respond h, trivial, smooth_respond h⟩)
    (fun _ _ => ⟨trivial, trivial⟩) _ ⟨⟨.pass, rfl⟩, trivial⟩ hr

/-- **A worker that is killed between an example and its mark records another one.** -/
theorem recorded_twice : ¬∀ subs : Submissions, (∀ sub ∈ subs.rows, sub.status = .pending) →
    ∀ x : Config sig Failure ℕ Unit State,
      Reaches exec Starts (.idle (.init subs)) x → Promises x.shared := by
  intro hall
  have hrun : ((Config.play respond (.start () Task.pass.code :: List.replicate 5 (.go ()))
      (.idle (.init two))).bind fun x =>
        (x.thread ()).bind fun _ => Task.pass.code.run (respond ()) x.shared).map (fun r =>
          r.2.examples.map (·.origin)) = some ["s", "s"] := by
    decide
  obtain ⟨⟨r, s⟩, hr, hs⟩ := Option.map_eq_some_iff.mp hrun
  obtain ⟨x, hx, hr⟩ := Option.bind_eq_some_iff.mp hr
  obtain ⟨p, hp, hr⟩ := Option.bind_eq_some_iff.mp hr
  have hfirst : Reaches exec Starts (.idle (.init two)) x :=
    reaches_of_play (fun i x c a s h => ⟨exec_respond h, trivial⟩) (fun _ _ _ => trivial)
      (fun i p hp x => by
        rcases List.mem_cons.mp hp with hp | hp
        · cases hp
          exact ⟨.pass, rfl⟩
        · cases List.eq_of_mem_replicate hp) hx
  have hidle : x.set () x.shared none = .idle x.shared := by
    rw [Config.set, Config.idle]
    congr 1
  have hkilled : Reaches exec Starts (.idle (.init two)) (.idle x.shared) :=
    hidle ▸ hfirst.tail ⟨.kill (), trivial, .kill hp⟩
  have hsecond : Reaches exec Starts (.idle x.shared) (.idle s) :=
    Reaches.solo (fun x c a s h => ⟨exec_respond h, trivial⟩) (fun _ _ => trivial) _
      ⟨.pass, rfl⟩ hr
  have honce : (s.examples.map (·.origin)).Nodup :=
    (hall two two_pending _ (hkilled.trans hsecond)).once
  rw [hs] at honce
  exact absurd honce (by decide)

end Reverify
end CloudCore
