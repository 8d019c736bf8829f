import CloudCore.LlmChat.LabRun

/-!
# The queue of the answers that are tried

Whether the worker goes on: it takes every answer that is queued, once and in order, and leaves
none with a record that is queued or running.  It does as long as nothing raises that is called
outside of every `try`: the alternatives are run there.

## Main definitions

* `Promises` — what the worker promises.
* `Fatal`, `Quiet` — what ends its thread, and that nothing does.
* `Sound` — the invariant.

## Main results

* `served_of_reaches` — **the promises are kept in every run in which nothing raises outside of
  every `try`.**
* `stopped` — an alternative that cannot be parsed, and an answer that is never taken.
-/

namespace CloudCore
namespace LabRun

open Effect OrderedDict
open Effect.Program (Tame Obeys Keeps tame_ret tame_call tame_bind tame_tryCatch tame_forEach
  obeys_bind obeys_tryCatch tame_attempt obeys_attempt)
open Advice (Record Job adviceStore)

/-! ### What is raised, and what is not -/

/-- The exceptions that nothing catches. -/
def Fatal : (c : Cmd) → c.Ans → Prop
  | .setUp, .error () | .report, .error () | .alternative, .error ()
  | .parse (.alternative _), .error () | .examine (.alternative _), .error ()
  | .addBridge (.alternative _), .error () | .upBridge (.alternative _), .error ()
  | .makeVm (.alternative _) false, .error () | .prepare (.alternative _), .error ()
  | .lines (.alternative _) false, .error () | .deleteBridge (.alternative _) _, .error () => True
  | _, _ => False

/-- The commands of a run; only an answer stores its record. -/
def OfRun (who : Who) : Cmd → Prop
  | .setUp | .enqueue .. | .take | .die | .fail _ => False
  | .store id _ _ => ∃ job, who = .answer id job
  | _ => True

section Tame

variable {T : (c : Cmd) → c.Ans → Prop} {cfg : Settings} {who : Who} {plan : Plan} {l : Locals}

theorem run_of_acts {c : Cmd} (hc : Acts who c) : OfRun who c := by
  cases c with
  | store id job status => exact hc
  | lines _ _ | call | setAttempts _ _ => trivial
  | _ => exact hc.elim

theorem obeys_published {inside : Bool} {status : String} :
    (publish who inside status).Obeys T (OfRun who) :=
  obeys_publish.mono (fun _ _ h => h) fun _ => run_of_acts

theorem tame_performed (acts : List Act) : (perform who acts).Tame T (OfRun who) :=
  (tame_perform acts).mono (fun _ _ h => h) fun _ => run_of_acts

theorem tame_called_teardown {m : ℕ} : (called (.teardown m true) rfl).Tame T (OfRun who) :=
  tame_call trivial fun a _ => match a with
    | .ok () => tame_ret
    | .error () => tame_ret

theorem tame_orElse {failed : Bool} {p : Code Bool} {k : Code (Locals × Ending)}
    (hp : p.Tame T (OfRun who)) (hk : k.Tame T (OfRun who)) :
    (orElse l failed p k).Tame T (OfRun who) := by
  refine tame_bind hp fun ok => ?_
  cases ok with
  | true => exact hk
  | false => exact tame_ret

theorem tame_offer : (offer cfg who plan l).Tame T (OfRun who) := by
  cases who with
  | answer id job =>
    dsimp only [offer]
    split
    · exact tame_ret
    · exact tame_call trivial fun _ _ => tame_ret
  | alternative id => exact tame_ret

theorem tame_judge : (judge cfg who plan l).Tame T (OfRun who) :=
  tame_orElse (tame_performed _) (tame_orElse (tame_performed _) tame_offer)

theorem tame_replaceVm {k : Locals → Code (Locals × Ending)} (hk : ∀ l, (k l).Tame T (OfRun who)) :
    (replaceVm who l k).Tame T (OfRun who) := by
  refine tame_orElse (tame_called.mono (fun _ _ h => h) fun _ => run_of_acts) ?_
  refine tame_orElse tame_called_teardown (tame_call trivial fun r _ => ?_)
  cases r with
  | error => exact tame_ret
  | ok vm => exact tame_orElse (tame_performed _) (hk _)

theorem tame_followSteps (steps : List Step) : (followSteps cfg who plan steps l).Tame T (OfRun who) := by
  induction steps generalizing l with
  | nil => exact tame_judge
  | cons s steps ih =>
    cases s with
    | acts acts => exact tame_orElse (tame_performed _) ih
    | reboot acts =>
      refine tame_orElse (tame_performed _) (tame_call trivial fun r _ => ?_)
      match r with
      | .error () => exact tame_ret
      | .ok false => exact tame_ret
      | .ok true =>
        dsimp only
        split
        · exact tame_orElse (tame_performed _) ih
        · exact tame_replaceVm fun _ => ih

theorem tame_withProber {k : Locals → Code (Locals × Ending)} (hk : ∀ l, (k l).Tame T (OfRun who)) :
    (withProber who plan l k).Tame T (OfRun who) := by
  unfold withProber
  split
  · refine tame_orElse (tame_performed _) (tame_call trivial fun r _ => ?_)
    cases r with
    | error => exact tame_ret
    | ok prober => exact tame_orElse (tame_performed _) (hk _)
  · exact hk _

/-- **The `try` of a run catches everything.** -/
theorem tame_body {vm : ℕ} : (body cfg who plan vm).Tame T (OfRun who) :=
  tame_orElse (tame_performed _) <| tame_withProber fun _ =>
    tame_orElse (tame_performed _) (tame_followSteps _)

theorem tame_tearDown {m : ℕ} : (tearDown m).Tame T (OfRun who) :=
  tame_call trivial fun _ _ => tame_ret

theorem tame_tearDownProber (prober : Option ℕ) : (tearDownProber prober).Tame T (OfRun who) :=
  match prober with
  | none => tame_ret
  | some _ => tame_tearDown

theorem tame_release (who : Who) {id : String} : (release id).Tame T (OfRun who) := by
  refine tame_call trivial fun machine _ => ?_
  cases machine with
  | none => exact tame_ret
  | some m => exact tame_tearDown

theorem tame_tearDownTarget : (tearDownTarget l).Tame T (OfRun who) := by
  unfold tearDownTarget
  split
  · exact tame_ret
  · exact tame_tearDown

theorem obeys_cleanUp {bridge : ℕ} {status : String} :
    (cleanUp who bridge l status).Obeys T (OfRun who) := by
  refine obeys_bind tame_tearDownTarget.obeys fun _ => obeys_bind (tame_tearDownProber _).obeys fun _ => ?_
  exact obeys_bind (obeys_attempt trivial) fun _ => obeys_published

theorem obeys_conclude {bridge : ℕ} (ending : Ending) :
    (conclude who bridge l ending).Obeys T (OfRun who) := by
  cases ending with
  | done failed => exact obeys_bind obeys_cleanUp fun _ => tame_ret.obeys
  | raised failed => exact obeys_bind obeys_cleanUp fun _ => tame_ret.obeys
  | lost =>
    refine obeys_bind (obeys_tryCatch obeys_published fun e => ?_) fun _ =>
      obeys_bind obeys_cleanUp fun _ => tame_ret.obeys
    exact obeys_bind obeys_cleanUp fun _ => trivial

theorem obeys_createBridge : (createBridge who).Obeys T (OfRun who) := by
  refine obeys_bind (obeys_attempt trivial) fun _ => ?_
  exact obeys_bind (obeys_attempt trivial) fun _ => tame_ret.obeys

theorem obeys_tested : (tested cfg who plan).Obeys T (OfRun who) := by
  refine obeys_bind obeys_createBridge fun _ => ?_
  refine obeys_bind (obeys_attempt trivial) fun _ => ?_
  refine obeys_bind (obeys_attempt trivial) fun _ => ?_
  exact obeys_bind tame_body.obeys fun r => obeys_conclude r.2

theorem obeys_runAdvice : (runAdvice cfg who).Obeys T (OfRun who) := by
  refine obeys_bind (obeys_attempt trivial) fun _ => ?_
  refine obeys_bind (obeys_attempt trivial) fun plan => ?_
  split
  · exact obeys_tested
  · exact obeys_bind obeys_published fun _ => tame_ret.obeys

end Tame

/-! ### An alternative -/

section Alternative

variable {cfg : Settings} {id : String} {plan : Plan} {l : Locals}

/-- What the commands of an alternative are told. -/
def Calm (c : Cmd) (a : c.Ans) : Prop := ¬Fatal c a

theorem tame_tryStep {α : Type} {P : Cmd → Prop} {c : Cmd} {h : c.Ans = Except Unit α} (hc : P c)
    (hfatal : ∀ e, Fatal c (h.symm ▸ .error e)) : (tryStep c h).Tame Calm P :=
  tame_attempt hc fun e ha => ha (hfatal e)

theorem tame_publish {status : String} :
    (publish (.alternative id) false status).Tame Calm (OfRun (.alternative id)) :=
  tame_bind (tame_tryStep trivial fun _ => trivial) fun _ =>
    tame_call trivial fun _ _ => tame_ret

theorem tame_cleanUp {bridge : ℕ} {status : String} :
    (cleanUp (.alternative id) bridge l status).Tame Calm (OfRun (.alternative id)) := by
  refine tame_bind tame_tearDownTarget fun _ => tame_bind (tame_tearDownProber _) fun _ => ?_
  exact tame_bind (tame_tryStep trivial fun _ => trivial) fun _ => tame_publish

theorem tame_conclude {bridge : ℕ} (ending : Ending) :
    (conclude (.alternative id) bridge l ending).Tame Calm (OfRun (.alternative id)) := by
  cases ending with
  | done failed => exact tame_bind tame_cleanUp fun _ => tame_ret
  | raised failed => exact tame_bind tame_cleanUp fun _ => tame_ret
  | lost => exact tame_bind tame_publish.caught fun _ => tame_bind tame_cleanUp fun _ => tame_ret

theorem tame_createBridge :
    (createBridge (.alternative id)).Tame Calm (OfRun (.alternative id)) := by
  refine tame_bind (tame_tryStep trivial fun _ => trivial) fun _ => ?_
  exact tame_bind (tame_tryStep trivial fun _ => trivial) fun _ => tame_ret

theorem tame_tested :
    (tested cfg (.alternative id) plan).Tame Calm (OfRun (.alternative id)) := by
  refine tame_bind tame_createBridge fun _ => ?_
  refine tame_bind (tame_tryStep trivial fun _ => trivial) fun _ => ?_
  refine tame_bind (tame_tryStep trivial fun _ => trivial) fun _ => ?_
  exact tame_bind tame_body fun r => tame_conclude r.2

theorem tame_runAdvice :
    (runAdvice cfg (.alternative id)).Tame Calm (OfRun (.alternative id)) := by
  refine tame_bind (tame_tryStep trivial fun _ => trivial) fun _ => ?_
  refine tame_bind (tame_tryStep trivial fun _ => trivial) fun plan => ?_
  split
  · exact tame_tested
  · exact tame_bind tame_publish fun _ => tame_ret

/-- **The alternatives raise nothing,** if nothing raises that is called outside of every `try`. -/
theorem tame_otherWays (n : ℕ) : (otherWays cfg id n).Tame Calm (OfRun (.alternative id)) := by
  induction n with
  | zero => exact tame_call trivial fun _ _ => tame_ret
  | succ n ih =>
    refine tame_call trivial fun _ _ => ?_
    refine tame_bind (p := tryStep .report rfl) (tame_tryStep trivial fun _ => trivial) fun _ => ?_
    refine tame_bind (tame_tryStep trivial fun _ => trivial) fun another => ?_
    cases another with
    | false => exact tame_call trivial fun _ _ => tame_ret
    | true =>
      refine tame_call trivial fun _ _ => ?_
      refine tame_bind (p := runAdvice cfg (.alternative id)) tame_runAdvice fun failed => ?_
      refine tame_bind (tame_tryStep trivial fun _ => trivial) fun _ => ?_
      cases failed with
      | true => exact ih
      | false => exact tame_call trivial fun _ _ => tame_ret

/-- What is done with an answer that was taken. -/
def Working : Cmd → Prop
  | .setUp | .enqueue .. | .take | .die => False
  | _ => True

theorem working_of_run {who : Who} {c : Cmd} (hc : OfRun who c) : Working c := by
  cases c with
  | setUp | enqueue _ _ | take | die => exact hc.elim
  | _ => trivial

/-- **Nothing that is done with an answer raises.** -/
theorem tame_attend {job : Job} : (attend cfg id job).Tame Calm Working := by
  refine tame_bind (tame_call trivial fun _ _ => tame_ret) fun surplus => ?_
  refine tame_bind (tame_forEach fun id' _ => ?_) fun _ => ?_
  · exact (tame_release (.alternative id')).mono (fun _ _ h => h) fun _ => working_of_run
  refine tame_bind (tame_tryCatch ?_ fun _ => tame_call trivial fun _ _ => tame_ret) fun failed => ?_
  · exact obeys_runAdvice.mono (fun _ _ h => h) fun _ => working_of_run
  cases failed with
  | true => exact (tame_otherWays cfg.retries).mono (fun _ _ h => h) fun _ => working_of_run
  | false => exact tame_ret

end Alternative

/-! ### The promises -/

/-- A run is over. -/
def Final (r : Record) : Prop := r.status ≠ "queued" ∧ r.status ≠ "running"

section Promises

variable {ι : Type} [DecidableEq ι]

/-- `h` is how everything behaves that the worker calls: nothing raises that nothing catches. -/
def Behaves (cfg : Settings) (w : ι) (h : State ι → (c : Cmd) → c.Ans × State ι) : Prop :=
  ∀ s c, (c = .take → s.worker = .ready) → exec cfg w s c (h s c).1 (h s c).2 ∧ ¬Fatal c (h s c).1

omit [DecidableEq ι] in
/-- `n` rounds of the worker, one after the other. -/
def rounds (cfg : Settings) (h : State ι → (c : Cmd) → c.Ans × State ι) : ℕ → State ι → Option (State ι)
  | 0, s => some s
  | n + 1, s =>
    match (serve cfg).run (fun s c => some (h s c)) s with
    | some (.ok (), s') => rounds cfg h n s'
    | _ => none

/-- The worker is not dead; the answers are taken in the order in which they were queued, each
once; those it has taken are over, but for the one it has in hand; and the rounds that are left
take the rest. -/
structure Promises (cfg : Settings) (w : ι) (x : Config sig Unit Unit ι (State ι)) : Prop where
  alive : x.shared.worker ≠ .dead
  order : x.shared.taken ++ x.shared.waiting = x.shared.queued
  once : x.shared.taken.Nodup
  settled : ∀ e ∈ x.shared.runs, e.1 ∈ x.shared.taken.dropLast → Final e.2
  last : x.thread w = none → ∀ id, x.shared.taken.getLast? = some id →
    (x.shared.runs.lookup id).isSome = true ∧ ∀ e ∈ x.shared.runs, e.1 = id → Final e.2
  goesOn : x.thread w = none → x.shared.worker = .ready → ∀ h, Behaves cfg w h →
    ∃ s, rounds cfg h x.shared.waiting.length x.shared = some s ∧ s.waiting = [] ∧
      s.taken = x.shared.queued

/-- Nothing raises that nothing catches. -/
def Quiet (x : Config sig Unit Unit ι (State ι)) : Move sig Unit Unit ι → Prop
  | .call _ c a => ¬Fatal c a ∧ Meets x.shared c
  | _ => True

end Promises

/-! ### The invariant -/

section Sound

variable {ι : Type} [DecidableEq ι] {cfg : Settings} {w i : ι} {s s' s'' : State ι} {c : Cmd} {a : c.Ans}
  {id : String}

structure Sound (s : State ι) : Prop where
  alive : s.worker ≠ .dead
  order : s.taken ++ s.waiting = s.queued
  once : s.queued.Nodup
  settled : ∀ e ∈ s.runs, e.1 ∈ s.taken.dropLast → Final e.2

/-- What the worker knows of the answer it has in hand, and when the run is over. -/
structure InHand (id : String) (s : State ι) : Prop where
  last : s.taken.getLast? = some id
  queued : id ∈ s.queued

structure Over (id : String) (s : State ι) : Prop extends InHand id s where
  found : (s.runs.lookup id).isSome = true
  final : ∀ e ∈ s.runs, e.1 = id → Final e.2

/-- The records of what was queued stay, and their status. -/
structure Beside (s s' : State ι) : Prop where
  worker : s'.worker = s.worker
  taken : s'.taken = s.taken
  queued : ∃ l, s'.waiting = s.waiting ++ l ∧ s'.queued = s.queued ++ l
  once : s.queued.Nodup → s'.queued.Nodup
  found : ∀ id ∈ s.queued, (s.runs.lookup id).isSome = true → (s'.runs.lookup id).isSome = true
  same : ∀ e' ∈ s'.runs, e'.1 ∈ s.queued → ∃ e ∈ s.runs, e.1 = e'.1 ∧ e.2.status = e'.2.status

/-- What leaves them. -/
def Aside : Cmd → Prop
  | .setUp | .take | .store .. | .fail _ | .die => False
  | _ => True

/-- What the threads do, and when. -/
def Allowed (w i : ι) (s : State ι) : Cmd → Prop
  | .take => i = w ∧ ∀ e ∈ s.runs, e.1 ∈ s.taken → Final e.2
  | .store id _ _ | .fail id => i = w ∧ s.taken.getLast? = some id
  | .setUp => i = w
  | .die => False
  | _ => True

omit [DecidableEq ι] in
theorem Beside.mem_queued (h : Beside s s') (hid : id ∈ s.queued) : id ∈ s'.queued := by
  obtain ⟨l, -, hqueued⟩ := h.queued
  exact hqueued ▸ List.mem_append_left l hid

omit [DecidableEq ι] in
theorem Beside.of_eq (hworker : s'.worker = s.worker) (htaken : s'.taken = s.taken)
    (hwaiting : s'.waiting = s.waiting) (hqueued : s'.queued = s.queued) (hruns : s'.runs = s.runs) :
    Beside s s' where
  worker := hworker
  taken := htaken
  queued := ⟨[], hwaiting ▸ (List.append_nil _).symm, hqueued ▸ (List.append_nil _).symm⟩
  once h := hqueued ▸ h
  found _ _ h := hruns ▸ h
  same e he _ := ⟨e, hruns ▸ he, rfl, rfl⟩

omit [DecidableEq ι] in
theorem Beside.refl (s : State ι) : Beside s s := .of_eq rfl rfl rfl rfl rfl

omit [DecidableEq ι] in
theorem Beside.trans (h : Beside s s') (h' : Beside s' s'') : Beside s s'' where
  worker := h'.worker.trans h.worker
  taken := h'.taken.trans h.taken
  queued := by
    obtain ⟨l, hwaiting, hqueued⟩ := h.queued
    obtain ⟨l', hwaiting', hqueued'⟩ := h'.queued
    refine ⟨l ++ l', ?_, ?_⟩
    · rw [hwaiting', hwaiting, List.append_assoc]
    · rw [hqueued', hqueued, List.append_assoc]
  once hnodup := h'.once (h.once hnodup)
  found id hid hfound := h'.found id (h.mem_queued hid) (h.found id hid hfound)
  same e'' he'' hid := by
    obtain ⟨e', he', hid', hstatus'⟩ := h'.same e'' he'' (h.mem_queued hid)
    obtain ⟨e, he, heq, hstatus⟩ := h.same e' he' (hid' ▸ hid)
    exact ⟨e, he, heq.trans hid', hstatus.trans hstatus'⟩

omit [DecidableEq ι] in
theorem InHand.beside (h : InHand id s) (hb : Beside s s') : InHand id s' :=
  ⟨hb.taken ▸ h.last, hb.mem_queued h.queued⟩

omit [DecidableEq ι] in
theorem Over.beside (h : Over id s) (hb : Beside s s') : Over id s' where
  toInHand := h.toInHand.beside hb
  found := hb.found id h.queued h.found
  final e' he' hid := by
    obtain ⟨e, he, heq, hstatus⟩ := hb.same e' he' (hid ▸ h.queued)
    have hfinal := h.final e he (heq.trans hid)
    rwa [Final, hstatus] at hfinal

theorem mem_of_setLast {runs : List (String × Record)} {r : Record} {e : String × Record}
    (h : e ∈ setLast runs id r) : (e ∈ runs ∧ e.1 ≠ id) ∨ e = (id, r) := by
  rcases List.mem_append.mp h with h | h
  · obtain ⟨hmem, hne⟩ := List.mem_filter.mp h
    exact .inl ⟨hmem, of_decide_eq_true hne⟩
  · exact .inr (List.mem_singleton.mp h)

theorem mem_of_modify {runs : List (String × Record)} {f : Record → Record} {e' : String × Record}
    (h : e' ∈ modify runs id f) :
    ∃ e ∈ runs, e.1 = e'.1 ∧ ((e.1 ≠ id ∧ e'.2 = e.2) ∨ (e.1 = id ∧ e'.2 = f e.2)) := by
  obtain ⟨e, he, rfl⟩ := List.mem_map.mp h
  refine ⟨e, he, ?_⟩
  split
  · next heq => exact ⟨rfl, .inr ⟨heq, rfl⟩⟩
  · next hne => exact ⟨rfl, .inl ⟨hne, rfl⟩⟩

theorem isSome_lookup_modify {runs : List (String × Record)} {f : Record → Record} {id' : String}
    (h : (runs.lookup id').isSome = true) : ((modify runs id f).lookup id').isSome = true := by
  by_cases heq : id' = id
  · rw [heq] at h ⊢
    rwa [lookup_modify_self, Option.isSome_map]
  · rwa [lookup_modify_of_ne _ _ heq]

/-- **Most commands leave the records of what was queued.** -/
theorem beside_of_exec (hx : exec cfg i s c a s') (hm : Meets s c) (hc : Aside c) : Beside s s' := by
  cases c with
  -- the id is new, so no record of what was queued is pushed aside
  | enqueue id job =>
    obtain rfl := hx
    refine ⟨rfl, rfl, ⟨[id], rfl, rfl⟩, fun hnodup => ?_, fun id' hid' hfound => ?_, fun e he hid => ?_⟩
    · exact List.nodup_append.mpr ⟨hnodup, List.nodup_singleton id, fun id' hid' _ hid heq =>
        hm (List.mem_singleton.mp hid ▸ heq ▸ hid')⟩
    · have hne : id' ≠ id := fun heq => hm (heq ▸ hid')
      change ((setLast s.runs id (.queued job)).lookup id').isSome = true
      rwa [lookup_setLast_of_ne _ _ hne]
    · rcases mem_of_setLast he with ⟨hmem, -⟩ | rfl
      · exact ⟨e, hmem, rfl, rfl⟩
      · exact absurd hid hm
  -- a record keeps its status
  | setAttempts id retrying =>
    obtain rfl := hx
    refine ⟨rfl, rfl, ⟨[], (List.append_nil _).symm, (List.append_nil _).symm⟩, fun h => h,
      fun id' _ hfound => ?_, fun e he _ => ?_⟩
    · dsimp only
      exact isSome_lookup_modify hfound
    dsimp only at he
    obtain ⟨e₀, he₀, heq, h⟩ := mem_of_modify he
    refine ⟨e₀, he₀, heq, ?_⟩
    rcases h with ⟨-, h⟩ | ⟨-, h⟩ <;> rw [h]
  | addBridge who =>
    cases a with
    | ok b =>
      obtain ⟨-, rfl⟩ := hx
      exact .of_eq rfl rfl rfl rfl rfl
    | error _ => exact hx ▸ .refl _
  | makeVm who inside =>
    cases a with
    | ok m =>
      obtain ⟨-, rfl⟩ := hx
      exact .of_eq rfl rfl rfl rfl rfl
    | error _ => exact hx ▸ .refl _
  | makeProber =>
    cases a with
    | ok m =>
      obtain ⟨-, rfl⟩ := hx
      exact .of_eq rfl rfl rfl rfl rfl
    | error _ => exact hx ▸ .refl _
  | deleteBridge who b =>
    cases a with
    | ok _ => exact hx ▸ .of_eq rfl rfl rfl rfl rfl
    | error _ => exact hx ▸ .refl _
  | surplus | pop _ =>
    obtain ⟨-, rfl⟩ := hx
    exact .of_eq rfl rfl rfl rfl rfl
  | teardown m rebooting | keep id m =>
    obtain rfl := hx
    exact .of_eq rfl rfl rfl rfl rfl
  | setUp | take | store _ _ _ | fail _ | die => exact hc.elim
  | _ =>
    obtain rfl := hx
    exact .refl _

omit [DecidableEq ι] in
theorem Sound.mem_queued (h : Sound s) (hid : id ∈ s.taken) : id ∈ s.queued :=
  h.order ▸ List.mem_append_left _ hid

omit [DecidableEq ι] in
theorem Sound.beside (h : Sound s) (hb : Beside s s') : Sound s' where
  alive := hb.worker ▸ h.alive
  order := by
    obtain ⟨l, hwaiting, hqueued⟩ := hb.queued
    rw [hb.taken, hwaiting, hqueued, ← h.order, List.append_assoc]
  once := hb.once h.once
  settled e' he' hid := by
    rw [hb.taken] at hid
    obtain ⟨e, he, heq, hstatus⟩ := hb.same e' he' (h.mem_queued (List.dropLast_subset _ hid))
    have hfinal := h.settled e he (heq ▸ hid)
    rwa [Final, hstatus] at hfinal

omit [DecidableEq ι] in
/-- The answer in hand is none of those that are over. -/
theorem Sound.not_mem_dropLast (h : Sound s) (hlast : s.taken.getLast? = some id) :
    id ∉ s.taken.dropLast := by
  have hnodup : s.taken.Nodup := (List.nodup_append.mp (h.order ▸ h.once)).1
  obtain ⟨l, heq⟩ := List.getLast?_eq_some_iff.mp hlast
  rw [heq] at hnodup ⊢
  rw [List.dropLast_concat]
  exact fun hmem => (List.nodup_append.mp hnodup).2.2 id hmem id (List.mem_singleton_self id) rfl

theorem Sound.step (h : Sound s) (hx : exec cfg i s c a s') (hcalm : ¬Fatal c a) (hm : Meets s c)
    (hallowed : Allowed w i s c) : Sound s' := by
  cases c with
  | setUp =>
    cases a with
    | error _ => exact absurd trivial hcalm
    | ok _ =>
      obtain rfl := hx
      exact ⟨nofun, h.order, h.once, h.settled⟩
  -- what was taken before is over
  | take =>
    obtain ⟨-, hx⟩ := hx
    split at hx
    · obtain ⟨-, rfl⟩ := hx
      exact h
    · next id rest hwaiting =>
      obtain ⟨-, rfl⟩ := hx
      refine ⟨h.alive, ?_, h.once, fun e he hid => ?_⟩
      · rw [← h.order, hwaiting, List.append_assoc]
        rfl
      · rw [List.dropLast_concat] at hid
        exact hallowed.2 e he hid
  -- the record of the answer in hand, which is none of those that are over
  | store id job status =>
    obtain rfl := hx
    refine ⟨h.alive, h.order, h.once, fun e he hid => ?_⟩
    rcases mem_of_setLast (List.mem_of_mem_drop he) with ⟨hmem, -⟩ | rfl
    · exact h.settled e hmem hid
    · exact absurd hid (h.not_mem_dropLast hallowed.2)
  | fail id =>
    obtain rfl := hx
    refine ⟨h.alive, h.order, h.once, fun e he hid => ?_⟩
    dsimp only at he
    obtain ⟨e₀, he₀, heq, hcase⟩ := mem_of_modify he
    rcases hcase with ⟨-, hrec⟩ | ⟨hid₀, -⟩
    · exact hrec ▸ h.settled e₀ he₀ (heq ▸ hid)
    · exact absurd (heq.symm.trans hid₀ ▸ hid) (h.not_mem_dropLast hallowed.2)
  | die => exact hallowed.elim
  | _ => exact h.beside (beside_of_exec hx hm trivial)

end Sound

/-! ### The worker -/

section Worker

variable {ι : Type} [DecidableEq ι] {cfg : Settings} {w i : ι} {s s' : State ι} {id : String} {job : Job}

/-- The commands, where nothing raises that nothing catches. -/
def Sem (cfg : Settings) (i : ι) (s : State ι) (c : Cmd) (a : c.Ans) (s' : State ι) : Prop :=
  exec cfg i s c a s' ∧ (¬Fatal c a ∧ Meets s c) ∧ Sound s

def Guar (cfg : Settings) (w i : ι) (s : State ι) (c : Cmd) (a : c.Ans) (s' : State ι) : Prop :=
  Sem cfg i s c a s' ∧ Allowed w i s c

def Rely (w i : ι) (s s' : State ι) : Prop := i = w → Beside s s'

/-- What the worker knows between two rounds. -/
def Idle (w i : ι) (s : State ι) : Prop := i = w → ∀ id, s.taken.getLast? = some id → Over id s

/-- The worker's program is verified from `s`. -/
def lwp (cfg : Settings) (w : ι) {α : Type} (p : Code α) (Q : α → State ι → Prop)
    (E : Unit → State ι → Prop) (s : State ι) : Prop :=
  p.wp (Sem cfg w) (Rely w w) (Guar cfg w w) Q E s

omit [DecidableEq ι] in
theorem allowed_of_aside {c : Cmd} (hc : Aside c) : Allowed w i s c := by
  cases c with
  | setUp | take | store _ _ _ | fail _ | die => exact hc.elim
  | _ => trivial

theorem aside_of_alternative {c : Cmd} (hc : OfRun (.alternative id) c) : Aside c := by
  cases c with
  | setUp | enqueue _ _ | take | die | fail _ => exact hc.elim
  | store _ _ _ =>
    obtain ⟨_, hwho⟩ := hc
    cases hwho
  | _ => trivial

/-- What is kept by what leaves the records. -/
theorem keeps_aside {R : State ι → State ι → Prop} {J : State ι → Prop}
    (hR : ∀ s s', R s s' → J s → J s') (hJ : ∀ s s', Beside s s' → J s → J s') :
    Keeps (F := sig) (Sem cfg i) R (Guar cfg w i) Calm Aside J where
  stable := hR
  told _ _ _ _ _ hx := hx.2.1.1
  step s _ _ s' hs hx hc := ⟨⟨hx, allowed_of_aside hc⟩, hJ s s' (beside_of_exec hx.1 hx.2.1.2 hc) hs⟩

/-- An answer in hand stays in hand while it is run. -/
theorem keeps_inHand :
    Keeps (F := sig) (Sem cfg w) (Rely w w) (Guar cfg w w) Calm (OfRun (.answer id job)) (InHand id) where
  stable _ _ hR h := h.beside (hR rfl)
  told _ _ _ _ _ hx := hx.2.1.1
  step s c a s' h hx hc := by
    cases c with
    | setUp | enqueue _ _ | take | die | fail _ => exact hc.elim
    | store id' job' status =>
      obtain ⟨job, ⟨⟩⟩ := hc
      refine ⟨⟨hx, rfl, h.last⟩, ?_⟩
      obtain ⟨rfl, -⟩ := hx
      exact ⟨h.last, h.queued⟩
    | _ => exact ⟨⟨hx, trivial⟩, h.beside (beside_of_exec hx.1 hx.2.1.2 trivial)⟩

/-- What comes after something that may raise. -/
theorem lwp_after {α β : Type} (job : Job) {p : Code α} {f : α → Code β} {Q : β → State ι → Prop}
    (hp : p.Obeys Calm (OfRun (.answer id job)))
    (hf : ∀ a s, InHand id s → lwp cfg w (f a) Q (fun _ => InHand id) s) (h : InHand id s) :
    lwp cfg w (p >>= f) Q (fun _ => InHand id) s :=
  (Program.wp_bind p f).mpr (Program.wp_mono hf (fun _ _ h => h) (hp.keeps keeps_inHand h))

theorem lwp_then {α β : Type} {p : Code α} {f : α → Code β} {Q : β → State ι → Prop}
    (hp : lwp cfg w p (fun _ => Over id) (fun _ => InHand id) s)
    (hf : ∀ a s, Over id s → lwp cfg w (f a) Q (fun _ => InHand id) s) :
    lwp cfg w (p >>= f) Q (fun _ => InHand id) s :=
  (Program.wp_bind p f).mpr (Program.wp_mono hf (fun _ _ h => h) hp)

/-- **A run is over when its last record is stored.** -/
theorem lwp_publish {status : String} (hstatus : status ≠ "queued" ∧ status ≠ "running")
    (h : InHand id s) :
    lwp cfg w (publish (.answer id job) false status) (fun _ => Over id) (fun _ => InHand id) s := by
  refine lwp_after job (obeys_attempt trivial) (fun _ s h => ?_) h
  intro s₁ hR a s₂ hx
  have h₁ : InHand id s₁ := h.beside (hR rfl)
  refine ⟨⟨hx, rfl, h₁.last⟩, ?_⟩
  obtain ⟨rfl, -⟩ := hx
  refine ⟨⟨h₁.last, h₁.queued⟩, ?_, fun e he hid => ?_⟩
  · exact Option.isSome_iff_exists.mpr
      ⟨_, lookup_keepLast_setLast (n := Advice.adviceKeep) (by decide) s₁.runs id _⟩
  · rcases mem_of_setLast (List.mem_of_mem_drop he) with ⟨-, hne⟩ | rfl
    · exact absurd hid hne
    · exact hstatus

theorem lwp_cleanUp {bridge : ℕ} {l : Locals} {status : String}
    (hstatus : status ≠ "queued" ∧ status ≠ "running") (h : InHand id s) :
    lwp cfg w (cleanUp (.answer id job) bridge l status) (fun _ => Over id) (fun _ => InHand id) s :=
  lwp_after job tame_tearDownTarget.obeys (fun _ _ h =>
    lwp_after job (tame_tearDownProber _).obeys (fun _ _ h =>
      lwp_after job (obeys_attempt trivial) (fun _ _ h => lwp_publish hstatus h) h) h) h

theorem lwp_conclude {bridge : ℕ} {l : Locals} (ending : Ending) (h : InHand id s) :
    lwp cfg w (conclude (.answer id job) bridge l ending) (fun _ => Over id) (fun _ => InHand id) s := by
  cases ending with
  | done failed => exact lwp_then (lwp_cleanUp (by decide) h) fun _ _ h => h
  | raised failed => exact lwp_then (lwp_cleanUp (by decide) h) fun _ _ h => h
  | lost =>
    refine (Program.wp_bind _ _).mpr ((Program.wp_tryCatch _ _).mpr ?_)
    refine Program.wp_mono (fun _ s h => ?_) (fun e s h => ?_) (obeys_published.keeps keeps_inHand h)
    · exact lwp_then (lwp_cleanUp (by decide) h) fun _ _ h => h
    · exact lwp_then (lwp_cleanUp (by decide) h) fun _ _ h => h.toInHand

theorem lwp_tested {plan : Plan} (h : InHand id s) :
    lwp cfg w (tested cfg (.answer id job) plan) (fun _ => Over id) (fun _ => InHand id) s := by
  refine lwp_after job obeys_createBridge (fun _ _ h => ?_) h
  refine lwp_after job (obeys_attempt trivial) (fun _ _ h => ?_) h
  refine lwp_after job (obeys_attempt trivial) (fun _ _ h => ?_) h
  exact lwp_after job tame_body.obeys (fun r _ h => lwp_conclude r.2 h) h

/-- **A run that returns is over.** -/
theorem lwp_runAdvice (h : InHand id s) :
    lwp cfg w (runAdvice cfg (.answer id job)) (fun _ => Over id) (fun _ => InHand id) s := by
  refine lwp_after job (obeys_attempt trivial) (fun _ _ h => ?_) h
  refine lwp_after job (obeys_attempt trivial) (fun plan _ h => ?_) h
  split
  · exact lwp_tested h
  · exact lwp_then (lwp_publish (by decide) h) fun _ _ h => h

/-- One that raises is noted. -/
theorem lwp_runAnswer (h : InHand id s) :
    lwp cfg w (runAnswer cfg id job) (fun _ => Over id) (fun _ _ => False) s := by
  refine (Program.wp_tryCatch _ _).mpr ?_
  refine Program.wp_mono (fun _ _ h => h) (fun _ s h => ?_) (lwp_runAdvice h)
  intro s₁ hR a s₂ hx
  have h₁ : InHand id s₁ := h.beside (hR rfl)
  refine ⟨⟨hx, rfl, h₁.last⟩, ?_⟩
  obtain ⟨rfl, ⟨-, hfound⟩, -⟩ := hx
  refine ⟨⟨h₁.last, h₁.queued⟩, ?_, fun e he hid => ?_⟩
  · dsimp only
    exact isSome_lookup_modify hfound
  · dsimp only at he
    obtain ⟨e₀, -, heq, ⟨hne, -⟩ | ⟨-, hrec⟩⟩ := mem_of_modify he
    · exact absurd (heq.trans hid) hne
    · rw [hrec]
      exact (by decide : "error" ≠ "queued" ∧ "error" ≠ "running")

/-- What comes after something that raises nothing. -/
theorem wp_tame {α β : Type} (job : Job) {p : Code α} {f : α → Code β} {Q : β → State ι → Prop}
    {E : Unit → State ι → Prop} (hp : p.Tame Calm (OfRun (.answer id job)))
    (hf : ∀ a s, InHand id s → lwp cfg w (f a) Q E s) (h : InHand id s) :
    lwp cfg w (p >>= f) Q E s :=
  (Program.wp_bind p f).mpr (Program.wp_mono hf (fun _ _ h => h.elim) (hp.keeps keeps_inHand h))

omit [DecidableEq ι] in
theorem Over.idle (h : Over id s) : Idle w w s := by
  intro _ id' hlast
  obtain rfl := Option.some.inj (h.last.symm.trans hlast)
  exact h

omit [DecidableEq ι] in
theorem Idle.beside (hb : Rely w i s s') (h : Idle w i s) : Idle w i s' :=
  fun hi id hlast => (h hi id ((hb hi).taken ▸ hlast)).beside (hb hi)

theorem lwp_attend (h : InHand id s) :
    lwp cfg w (attend cfg id job) (fun _ => Idle w w) (fun _ _ => False) s := by
  refine wp_tame job (tame_call trivial fun _ _ => tame_ret) (fun surplus s h => ?_) h
  refine wp_tame job (tame_forEach fun _ _ => tame_release _) (fun _ s h => ?_) h
  refine (Program.wp_bind _ _).mpr (Program.wp_mono (fun failed s h => ?_) (fun _ _ h => h)
    (lwp_runAnswer h))
  have hkeeps : Keeps (F := sig) (Sem cfg w) (Rely w w) (Guar cfg w w) Calm Aside (Over id) :=
    keeps_aside (fun _ _ hR h => h.beside (hR rfl)) fun _ _ hb h => h.beside hb
  cases failed with
  | true =>
    have hways : (otherWays cfg id cfg.retries).Tame Calm (OfRun (.alternative id)) := tame_otherWays _
    have htame : (otherWays cfg id cfg.retries).Tame Calm Aside :=
      hways.mono (fun _ _ h => h) fun _ => aside_of_alternative
    exact Program.wp_mono (fun _ _ h => h.idle) (fun _ _ h => h) (htame.keeps hkeeps h)
  | false => exact h.idle

omit [DecidableEq ι] in
/-- All that were taken are over when the next one is. -/
theorem Idle.over (h : Idle w w s) (hs : Sound s) (e : String × Record) (he : e ∈ s.runs)
    (hid : e.1 ∈ s.taken) : Final e.2 := by
  cases hlast : s.taken.getLast? with
  | none =>
    rw [List.getLast?_eq_none_iff.mp hlast] at hid
    cases hid
  | some id =>
    obtain ⟨l, hl⟩ := List.getLast?_eq_some_iff.mp hlast
    rw [hl] at hid
    rcases List.mem_append.mp hid with hmem | hmem
    · refine hs.settled e he ?_
      rwa [hl, List.dropLast_concat]
    · exact (h rfl id hlast).final e he (List.mem_singleton.mp hmem)

theorem lwp_round (h : Idle w w s) :
    lwp cfg w (round cfg) (fun _ => Idle w w) (fun _ _ => False) s := by
  intro s₁ hR a s₂ hx
  have h₁ : Idle w w s₁ := h.beside hR
  refine ⟨⟨hx, rfl, h₁.over hx.2.2⟩, ?_⟩
  obtain ⟨⟨-, hx⟩, -, hsound⟩ := hx
  split at hx
  · obtain ⟨rfl, rfl⟩ := hx
    exact h₁
  · next id rest hwaiting =>
    obtain ⟨rfl, rfl⟩ := hx
    refine lwp_attend ⟨List.getLast?_concat, ?_⟩
    rw [← hsound.order, hwaiting]
    exact List.mem_append_right _ List.mem_cons_self

/-- **A round of the worker raises nothing.** -/
theorem lwp_serve (h : Idle w w s) :
    lwp cfg w (serve cfg) (fun _ => Idle w w) (fun _ => Idle w w) s :=
  (Program.wp_tryCatch _ _).mpr (Program.wp_mono (fun _ _ h => h) (fun _ _ h => h.elim) (lwp_round h))

theorem lwp_begin (h : Idle w w s) : lwp cfg w begin (fun _ => Idle w w) (fun _ => Idle w w) s := by
  refine (Program.wp_tryCatch _ _).mpr ?_
  intro s₁ hR a s₂ hx
  have h₁ : Idle w w s₁ := h.beside hR
  refine ⟨⟨hx, rfl⟩, ?_⟩
  obtain ⟨hx, ⟨hcalm, -⟩, -⟩ := hx
  cases a with
  | error _ => exact absurd trivial hcalm
  | ok _ =>
    obtain rfl := hx
    refine fun hi id hlast => ?_
    obtain ⟨⟨hlast, hqueued⟩, hfound, hfinal⟩ := h₁ hi id hlast
    exact ⟨⟨hlast, hqueued⟩, hfound, hfinal⟩

end Worker

/-! ### The rounds that are left -/

section Rounds

variable {ι : Type} [DecidableEq ι] {cfg : Settings} {w : ι} {s s' : State ι} {id : String}
  {h : State ι → (c : Cmd) → c.Ans × State ι}

/-- Where the queue stands. -/
structure At (waiting taken : List String) (s : State ι) : Prop where
  worker : s.worker = .ready
  waiting : s.waiting = waiting
  taken : s.taken = taken

theorem at_of_exec {waiting taken : List String} {c : Cmd} {a : c.Ans} (hx : exec cfg w s c a s')
    (hc : Working c) (hat : At waiting taken s) : At waiting taken s' := by
  obtain ⟨hworker, hwaiting, htaken⟩ := hat
  cases c with
  | setUp | enqueue _ _ | take | die => exact hc.elim
  -- the commands of a run leave the queue alone
  | addBridge who | makeVm who inside | makeProber =>
    cases a with
    | ok b =>
      obtain ⟨-, rfl⟩ := hx
      exact ⟨hworker, hwaiting, htaken⟩
    | error _ =>
      obtain rfl := hx
      exact ⟨hworker, hwaiting, htaken⟩
  | deleteBridge who b =>
    cases a with
    | ok _ | error _ =>
      obtain rfl := hx
      exact ⟨hworker, hwaiting, htaken⟩
  | surplus | pop _ =>
    obtain ⟨-, rfl⟩ := hx
    exact ⟨hworker, hwaiting, htaken⟩
  | _ =>
    obtain rfl := hx
    exact ⟨hworker, hwaiting, htaken⟩

theorem keeps_at (hh : Behaves cfg w h) (waiting taken : List String) :
    Keeps (F := sig) (fun s c a s' => h s c = (a, s')) Eq (fun _ _ _ _ => True) Calm Working
      (At waiting taken) where
  stable _ _ heq hat := heq ▸ hat
  told s c a s' hat hx := by
    have hcalm := (hh s c fun _ => hat.worker).2
    rwa [hx] at hcalm
  step s c a s' hat hx hc := by
    have hexec := (hh s c fun _ => hat.worker).1
    rw [hx] at hexec
    exact ⟨trivial, at_of_exec hexec hc hat⟩

/-- **A round takes the next answer,** however the functions behave that it calls. -/
theorem serve_takes (hh : Behaves cfg w h) {rest taken : List String} (hat : At (id :: rest) taken s) :
    ∃ s', (serve cfg).run (fun s c => some (h s c)) s = some (.ok (), s') ∧
      At rest (taken ++ [id]) s' := by
  have hwp : (serve cfg).wp (fun s c a s' => h s c = (a, s')) Eq (fun _ _ _ _ => True)
      (fun _ => At rest (taken ++ [id])) (fun _ _ => False) s := by
    refine (Program.wp_tryCatch _ _).mpr
      (Program.wp_mono (E := fun _ _ => False) (fun _ _ h => h) (fun _ _ h => h.elim) ?_)
    rintro _ rfl a s' hx
    have hexec := (hh s .take fun _ => hat.worker).1
    rw [hx] at hexec
    obtain ⟨-, hexec⟩ := hexec
    rw [hat.waiting] at hexec
    obtain ⟨rfl, rfl⟩ := hexec
    exact ⟨trivial, tame_attend.keeps (keeps_at hh _ _) ⟨hat.worker, rfl, hat.taken ▸ rfl⟩⟩
  obtain ⟨_, s', hrun, hat'⟩ := Program.run_of_wp hwp
  exact ⟨s', hrun, hat'⟩

/-- The rounds that are left take all that waits. -/
theorem rounds_take (hh : Behaves cfg w h) {waiting taken : List String} (hat : At waiting taken s) :
    ∃ s', rounds cfg h waiting.length s = some s' ∧ At [] (taken ++ waiting) s' := by
  induction waiting generalizing s taken with
  | nil => exact ⟨s, rfl, (List.append_nil taken).symm ▸ hat⟩
  | cons id rest ih =>
    obtain ⟨s₁, hrun, hat₁⟩ := serve_takes hh hat
    obtain ⟨s', hrounds, hat'⟩ := ih hat₁
    refine ⟨s', ?_, ?_⟩
    · rw [List.length_cons, rounds, hrun]
      exact hrounds
    · rwa [List.append_assoc] at hat'

end Rounds

/-! ### Every run -/

section Pool

variable {ι : Type} [DecidableEq ι] {cfg : Settings} {w : ι}

/-- The moves of the worker and of the others, where nothing raises that nothing catches. -/
def Admitted (cfg : Settings) (w : ι) (x : Config sig Unit Unit ι (State ι)) (m : Move sig Unit Unit ι) :
    Prop :=
  (Runs cfg w x.shared m ∧ Quiet x m) ∧ Sound x.shared

theorem rely_of_guar {i j : ι} (hj : j ≠ i) {s s' : State ι} {c : Cmd} {a : c.Ans}
    (h : Guar cfg w i s c a s') : Rely w j s s' := by
  rintro rfl
  obtain ⟨⟨hx, ⟨-, hm⟩, -⟩, hallowed⟩ := h
  have hi : i ≠ j := hj.symm
  cases c with
  | setUp => exact absurd hallowed hi
  | take | store _ _ _ | fail _ => exact absurd hallowed.1 hi
  | die => exact hallowed.elim
  | _ => exact beside_of_exec hx hm trivial

/-- The programs of the other threads. -/
theorem wp_other {i : ι} (hi : i ≠ w) {p : Code Unit} (hp : p.Tame Calm Aside) (s : State ι) :
    p.wp (Sem cfg i) (Rely w i) (Guar cfg w i) (fun _ => Idle w i) (fun _ => Idle w i) s :=
  Program.wp_mono (fun _ _ _ hiw => absurd hiw hi) (fun _ _ h => h.elim)
    (hp.keeps (J := fun _ => True) (keeps_aside (fun _ _ _ h => h) fun _ _ _ h => h) trivial)

theorem tame_release_aside {id : String} : (release id).Tame Calm Aside :=
  (tame_release (.alternative id)).mono (fun _ _ h => h) fun _ => aside_of_alternative

theorem tame_enqueue {id : String} {job : Job} : (enqueue id job).Tame Calm Aside :=
  tame_call trivial fun _ _ => tame_ret

theorem tame_reap : reap.Tame Calm Aside :=
  tame_call trivial fun _ _ => tame_forEach fun _ _ => tame_release_aside

theorem wp_of_runs {i : ι} {p : Code Unit} {s : State ι} (h : Runs cfg w s (.start i p))
    (hidle : Idle w i s) :
    p.wp (Sem cfg i) (Rely w i) (Guar cfg w i) (fun _ => Idle w i) (fun _ => Idle w i) s := by
  dsimp only [Runs] at h
  split at h
  · next hi =>
    subst hi
    rcases h with ⟨-, rfl⟩ | ⟨-, rfl⟩
    · exact lwp_begin hidle
    · exact lwp_serve hidle
  · next hi =>
    rcases h with ⟨id, job, rfl⟩ | rfl | ⟨id, rfl⟩
    · exact wp_other hi tame_enqueue s
    · exact wp_other hi tame_reap s
    · exact wp_other hi tame_release_aside s

def outline (cfg : Settings) (w : ι) : Outline (exec cfg) (Admitted cfg w) where
  rely := Rely w
  guar := Guar cfg w
  idle := Idle w
  post i _ := Idle w i
  fail i _ := Idle w i
  sem := Sem cfg
  sem_of_ok _ _ _ _ _ hok hx := ⟨hx, hok.1.2, hok.2⟩
  rely_refl _ s _ := .refl s
  rely_trans _ _ _ _ h h' hi := (h hi).trans (h' hi)
  rely_of_guar _ _ hj _ _ _ _ h := rely_of_guar hj h
  idle_stable _ _ _ hR h := h.beside hR
  post_stable _ _ _ _ hR h := h.beside hR
  fail_stable _ _ _ _ hR h := h.beside hR
  start _ _ _ hok hidle := wp_of_runs hok.1.1 hidle
  ret _ _ _ _ h := h
  raise _ _ _ _ h := h
  kill _ _ _ hok := hok.1.1.elim

omit [DecidableEq ι] in
theorem sound_init : Sound (State.init : State ι) := 
  ⟨nofun, rfl, List.nodup_nil, List.forall_mem_nil _⟩

/-- **The queue never stops** in any run in which nothing raises that is called outside of every
`try`, every id is new, and a run that fails still has its record. -/
theorem served_of_reaches {y : Config sig Unit Unit ι (State ι)}
    (h : Reaches (exec cfg) (fun x m => Runs cfg w x.shared m ∧ Quiet x m) (.idle .init) y) :
    Promises cfg w y := by
  have hverified : (outline cfg w).Verified (.idle .init) := fun _ _ _ hlast => nomatch hlast
  obtain ⟨hy, hs⟩ := (outline cfg w).invariant_of_kept
    (fun _ s c a s' hg hs => hs.step hg.1.1 hg.1.2.1.1 hg.1.2.1.2 hg.2) h hverified sound_init
  refine ⟨hs.alive, hs.order, ?_, hs.settled, fun hw id hlast => ?_, fun _ hready g hg => ?_⟩
  · exact (List.nodup_append.mp (hs.order ▸ hs.once)).1
  · have hknows := hy w
    rw [hw] at hknows
    obtain ⟨-, hfound, hfinal⟩ := hknows rfl id hlast
    exact ⟨hfound, hfinal⟩
  · obtain ⟨s, hrounds, hat⟩ := rounds_take hg ⟨hready, rfl, rfl⟩
    exact ⟨s, hrounds, hat.waiting, hat.taken.trans hs.order⟩

end Pool

/-! ### An alternative that is run, and one that cannot be parsed -/

/-- An answer that fails in the lab, and one in which nothing can be run. -/
def failing : Plan := ⟨true, false, false, [], false, [], [], [], [], true, []⟩

def untestable : Plan := ⟨false, false, false, [], false, [], [], [], [], false, []⟩

/-- Every answer fails in the lab, and there is nothing to run in an alternative. -/
def planOf : Who → Plan
  | .answer .. => failing
  | .alternative _ => untestable

/-- An alternative cannot be parsed. -/
def unparsed : Cmd → Bool
  | .parse (.alternative _) => true
  | _ => false

theorem calm_respond {plan : Who → Plan} {i : Bool} {s s' : State Bool} {c : Cmd} {a : c.Ans}
    (h : respond plan (fun _ => false) i s c = some (a, s')) : ¬Fatal c a := by
  cases c with
  | enqueue | take | fail => exact fun hfatal => hfatal
  | due | makeProber | waitExit => cases h
  | parse who | examine who | addBridge who | upBridge who | deleteBridge who b | prepare who =>
    cases h
    cases who <;> exact fun hfatal => hfatal
  | makeVm who inside | lines who inside =>
    cases h
    cases who <;> cases inside <;> exact fun hfatal => hfatal
  | _ =>
    cases h
    exact fun hfatal => hfatal

/-- The alternative of the first answer is run, and the second one waits. -/
theorem served_of_reaches_alternative : ∃ x : Config sig Unit Unit Bool (State Bool),
    x.thread true = none ∧ x.shared.taken = ["a"] ∧ x.shared.waiting = ["b"] ∧
      Promises ⟨20, 2, 2⟩ true x := by
  have hrun : (Config.playIf (respond planOf fun _ => false) startable
      (schedule ["a", "b"] 26 []) (.idle .init)).any
      (fun x => (x.thread true).isNone && decide (x.shared.taken = ["a"]) &&
        decide (x.shared.waiting = ["b"])) = true := by
    decide
  obtain ⟨x, hx, hends⟩ := (Option.any_eq_true ..).mp hrun
  simp only [Bool.and_eq_true, Option.isNone_iff_eq_none, decide_eq_true_eq] at hends
  obtain ⟨⟨hthread, htaken⟩, hwaiting⟩ := hends
  refine ⟨x, hthread, htaken, hwaiting, served_of_reaches (reaches_of_playIf
    (fun i x c a s _ h => ?_) (fun _ _ _ _ => ⟨trivial, trivial⟩)
    (fun i p hp x hcheck => ⟨runs_of_schedule (fun _ _ h => by cases h) hp x hcheck, trivial⟩) hx)⟩
  obtain ⟨hexec, hmeets⟩ := exec_respond h
  exact ⟨hexec, trivial, calm_respond h, hmeets⟩

/-- **An alternative that cannot be parsed stops the queue:** the second answer is never taken. -/
theorem stopped : ¬∀ (cfg : Settings) (w : Bool) (x : Config sig Unit Unit Bool (State Bool)),
    Reaches (exec cfg) (fun x m => Runs cfg w x.shared m) (.idle .init) x → Promises cfg w x := by
  intro hall
  have hrun : (Config.playIf (respond planOf unparsed) startable
      (schedule ["a", "b"] 21 []) (.idle .init)).any
      (fun x => decide (x.shared.worker = .dead)) = true := by
    decide
  obtain ⟨x, hx, hdead⟩ := (Option.any_eq_true ..).mp hrun
  refine (hall ⟨20, 2, 2⟩ true x (reaches_of_playIf (fun i x c a s _ h => ?_) (fun _ _ _ _ => trivial)
    (fun i p hp x hcheck => runs_of_schedule (fun _ _ h => by cases h) hp x hcheck) hx)).alive (of_decide_eq_true hdead)
  exact ⟨(exec_respond h).1, trivial⟩

end LabRun
end CloudCore
