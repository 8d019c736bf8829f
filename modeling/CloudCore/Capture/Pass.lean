import CloudCore.Capture.Reverify
import CloudCore.Python.JsonText
import CloudCore.Python.Utf8

/-!
# One pass over the submissions

`process_pending`, whatever the coordinator answers.  The tables work, and refuse only what cannot be
bound.  `json.loads` is an argument.

## Main definitions

* `Answer` — what becomes of a request to the coordinator, and `reverify`, what `process_pending`
  learns of it.
* `respond` — a coordinator with one answer for each submission.
* `Fits` — what the loop can deal with.

## Main results

* `wp_processAll` — the loop gets to its end if all submissions fit.
* `settles_iff` — **a pass settles every submission if and only if all of them fit.**
-/

namespace CloudCore
namespace Reverify

open Effect Python

/-! ### The coordinator -/

/-- A value of `json.loads`.  Lone surrogates are replaced in it; `lone` says under which keys. -/
structure Decoded where
  value : Json
  lone : String → Bool

/-- What `json.loads` raises. -/
inductive Undecoded where
  | valueError (text : String)
  | recursionError

/-- What becomes of a request. -/
inductive Answer where
  | answered (body : List UInt8)
  /-- An `HTTPError`, with its body if `e.read()` gives it. -/
  | httpError (code : ℤ) (body : Option (List UInt8))
  /-- A `URLError`, an `OSError` or a `ValueError`. -/
  | failed (text : String)
  /-- Another exception, such as `http.client.IncompleteRead`. -/
  | raised

/-- A submission of a pass, the time when it is looked at, and what becomes of its request. -/
structure Round where
  sub : Submission
  now : ℤ
  answer : Answer

/-- The tables, the rounds to come, the answer of this one, and `lone` of what was decoded last. -/
structure World where
  tables : State
  rounds : List Round
  answer : Answer
  lone : String → Bool

variable (loads : List UInt8 → Except Undecoded Decoded)

/-- `_reverify` under its handlers; an exception in a handler is not handled. -/
def reverify : Answer → Except Failure Reply
  | .answered body =>
    match loads body with
    | .ok d => .ok (.answered d.value)
    | .error (.valueError text) => .ok (.failed text)
    | .error .recursionError => .error .exception
  | .httpError code (some body) => .ok (.httpError code (.ofList (Utf8.decodeReplace body)))
  | .httpError _ none => .error .exception
  | .failed text => .ok (.failed text)
  | .raised => .error .exception

/-- Where the last result has lone surrogates. -/
def loneKeys : Answer → String → Bool
  | .answered body =>
    match loads body with
    | .ok d => d.lone
    | .error _ => fun _ => false
  | _ => fun _ => false

/-- The values of these keys are bound to columns. -/
def boundKeys : List String := ["stdout", "stderr", "exit_code"]

/-- What the commands of a pass do. -/
def perform (urls : List String) (w : World) : (c : Cmd) → c.Ans × World
  | .pending => (.ok (w.rounds.map (·.sub)), w)
  | .urls => (.ok urls, w)
  | .now =>
    match w.rounds with
    | [] => (0, w)
    | r :: rounds => (r.now, { w with rounds := rounds, answer := r.answer })
  | .reverify .. => (reverify loads w.answer, { w with lone := loneKeys loads w.answer })
  | .record e origin =>
    if e.Bound ∧ boundKeys.any w.lone = false then
      let id := toString w.tables.examples.length
      (.ok id, { w with tables := { w.tables with
        examples := w.tables.examples ++ [⟨id, e, origin⟩]
        unmarked := some (origin, id) } })
    else (.error .exception, w)
  | .set id f => (.ok (), { w with tables := { w.tables with subs := w.tables.subs.set id f } })
  | .insert _ => (.error .exception, w)

/-- The submission has reached a final status, or one attempt more. -/
def Settled (subs : Submissions) (old : Submission) : Prop :=
  ∃ sub ∈ subs.rows, sub.id = old.id ∧ (sub.status ≠ .pending ∨ sub.attempts = old.attempts + 1)

def World.start (subs : Submissions) (rounds : List Round) : World :=
  ⟨.init subs, rounds, .raised, fun _ => false⟩

/-- A pass returns, and every submission is settled. -/
def Settles (urls : List String) (subs : Submissions) (rounds : List Round) : Prop :=
  ∃ n w, processPending.run (fun w c => some (perform loads urls w c)) (.start subs rounds) =
      some (.ok n, w) ∧
    ∀ r ∈ rounds, Settled w.tables.subs r.sub

/-! ### What a pass can deal with -/

/-- A result that is a dictionary, and of which the columns take the values. -/
def Decoded.Fits (sub : Submission) (d : Decoded) : Prop :=
  ∃ e, evidence sub d.value = some e ∧ e.Bound ∧ boundKeys.any d.lone = false

/-- What the loop can deal with: an error it catches, or a result that fits. -/
def Answer.Fits (sub : Submission) : Answer → Prop
  | .answered body =>
    match loads body with
    | .ok d => d.Fits sub
    | .error (.valueError _) => True
    | .error .recursionError => False
  | .httpError _ body => body.isSome
  | .failed _ => True
  | .raised => False

/-- A submission that has expired or cannot be sent needs no answer. -/
def Round.Fits (urls : List String) (r : Round) : Prop :=
  ∃ created, createdInstant r.sub = some created ∧
    (r.now - created ≤ expireAfter → urls ≠ [] → r.answer.Fits loads r.sub)

instance (sub : Submission) (d : Decoded) : Decidable (d.Fits sub) :=
  match h : evidence sub d.value with
  | none => isFalse fun ⟨_, he, _⟩ => nomatch h.symm.trans he
  | some e => decidable_of_iff (e.Bound ∧ boundKeys.any d.lone = false)
      ⟨fun hbound => ⟨e, h, hbound⟩, fun ⟨_, he, hbound⟩ => Option.some.inj (h.symm.trans he) ▸ hbound⟩

instance (sub : Submission) (answer : Answer) : Decidable (answer.Fits loads sub) :=
  match answer with
  | .answered body => by
    unfold Answer.Fits
    dsimp only
    split <;> infer_instance
  | .httpError _ body => inferInstanceAs (Decidable (body.isSome = true))
  | .failed _ => isTrue trivial
  | .raised => isFalse id

instance (urls : List String) (r : Round) : Decidable (r.Fits loads urls) :=
  match h : createdInstant r.sub with
  | none => isFalse fun ⟨_, hsome, _⟩ => nomatch h.symm.trans hsome
  | some created => decidable_of_iff (r.now - created ≤ expireAfter → urls ≠ [] → r.answer.Fits loads r.sub)
      ⟨fun hfits => ⟨created, h, hfits⟩, fun ⟨_, hsome, hfits⟩ =>
        Option.some.inj (h.symm.trans hsome) ▸ hfits⟩

/-! ### The loop -/

section

variable {loads} {urls : List String} {w : World}

/-- The worker alone in such a world. -/
abbrev pwp (loads : List UInt8 → Except Undecoded Decoded) (urls : List String) {α : Type} (p : Code α)
    (Q : α → World → Prop) (E : Failure → World → Prop) (w : World) : Prop :=
  Program.wp (fun w c a w' => perform loads urls w c = (a, w')) Eq (fun _ _ _ _ => True) p Q E w

/-- After a round: the others are still to come and their rows are as they were. -/
structure After (w : World) (rounds : List Round) (sub : Submission) (w' : World) : Prop where
  rounds : w'.rounds = rounds
  settled : Settled w'.tables.subs sub
  others : ∀ other ∈ w.tables.subs.rows, other.id ≠ sub.id → other ∈ w'.tables.subs.rows

theorem mem_set_of_ne {subs : Submissions} {id : String} {f : Fields} {sub : Submission}
    (h : sub ∈ subs.rows) (hne : sub.id ≠ id) : sub ∈ (subs.set id f).rows :=
  mem_set.mpr ⟨sub, h, if_neg hne⟩

/-- A submission is marked as final, or with one attempt more. -/
theorem pwp_mark {sub : Submission} {status : Option Status} {attempts : Option ℤ}
    {lastError : String} {exampleId : Option String} {rounds : List Round} {E : Failure → World → Prop}
    (w₀ : World) (hmem : sub ∈ w.tables.subs.rows) (hrounds : w.rounds = rounds)
    (hsame : w.tables.subs = w₀.tables.subs)
    (hmark : (∃ s, status = some s ∧ s ≠ .pending) ∨ attempts = some (sub.attempts + 1)) :
    pwp loads urls (mark sub status attempts lastError exampleId)
      (fun _ => After w₀ rounds sub) E w := by
  refine (Program.wp_call_eq _ _).mpr fun a w' hx => ⟨trivial, ?_⟩
  obtain ⟨rfl, rfl⟩ := Prod.mk.inj hx
  refine ⟨hrounds, ⟨_, mem_set.mpr ⟨sub, hmem, if_pos rfl⟩, rfl, ?_⟩, fun other hother hne => ?_⟩
  · rcases hmark with ⟨s, rfl, hs⟩ | rfl
    · exact .inl hs
    · exact .inr rfl
  · exact mem_set_of_ne (hsame ▸ hother) hne

theorem not_fits_of_error {answer : Answer} {sub : Submission} {e : Failure}
    (h : reverify loads answer = .error e) : ¬ answer.Fits loads sub := by
  cases answer with
  | answered body =>
    unfold reverify at h
    unfold Answer.Fits
    dsimp only at h ⊢
    split at h
    · cases h
    · cases h
    · exact id
  | httpError code body =>
    cases body with
    | none => exact nofun
    | some body => cases h
  | failed text => cases h
  | raised => exact id

/-- What follows the answer of the coordinator. -/
theorem pwp_handleReply {sub : Submission} {rounds : List Round} {reply : Reply} (w w₀ : World)
    (hreply : reverify loads w.answer = .ok reply) (hlone : w.lone = loneKeys loads w.answer)
    (hmem : sub ∈ w.tables.subs.rows) (hrounds : w.rounds = rounds)
    (hsame : w.tables.subs = w₀.tables.subs) :
    pwp loads urls (handleReply sub reply)
      (fun _ w' => w.answer.Fits loads sub ∧ After w₀ rounds sub w')
      (fun _ _ => ¬ w.answer.Fits loads sub) w := by
  have hmarked {status : Option Status} {attempts : Option ℤ} {lastError : String}
      {done : Bool} (hfits : w.answer.Fits loads sub)
      (hmark : (∃ s, status = some s ∧ s ≠ .pending) ∨ attempts = some (sub.attempts + 1)) :
      pwp loads urls (do
          let () ← mark sub status attempts lastError none
          pure done)
        (fun _ w' => w.answer.Fits loads sub ∧ After w₀ rounds sub w')
        (fun _ _ => ¬ w.answer.Fits loads sub) w :=
    Program.wp_after (pwp_mark w₀ hmem hrounds hsame hmark) fun _ _ h => ⟨hfits, h⟩
  cases hanswer : w.answer with
  | raised =>
    rw [hanswer] at hreply
    cases hreply
  | failed text =>
    rw [hanswer] at hreply
    obtain rfl := Except.ok.inj hreply
    rw [← hanswer]
    exact hmarked (by rw [hanswer]; trivial) (.inr rfl)
  | httpError code body =>
    rw [hanswer] at hreply
    cases body with
    | none => cases hreply
    | some body =>
      obtain rfl := Except.ok.inj hreply
      have hfits : w.answer.Fits loads sub := by
        rw [hanswer]
        rfl
      rw [← hanswer]
      change pwp loads urls (if 400 ≤ code ∧ code < 500 then _ else _) _ _ _
      split
      · exact hmarked hfits (.inr rfl)
      · exact hmarked hfits (.inr rfl)
  | answered body =>
    rw [hanswer] at hreply hlone
    unfold reverify at hreply
    unfold loneKeys at hlone
    dsimp only at hreply hlone
    split at hreply
    · next d hd =>
      rw [hd] at hlone
      have hkeys : w.lone = d.lone := hlone
      obtain rfl := Except.ok.inj hreply
      have hiff : (Answer.answered body).Fits loads sub ↔ d.Fits sub := by
        unfold Answer.Fits
        dsimp only
        rw [hd]
      cases he : evidence sub d.value with
      | none =>
        -- no dictionary
        simp only [handleReply, he]
        show ¬ (Answer.answered body).Fits loads sub
        rw [hiff]
        rintro ⟨e, he', -⟩
        rw [he] at he'
        cases he'
      | some e =>
        simp only [handleReply, he]
        refine Program.wp_attempt rfl fun a w₁ hx => ⟨trivial, ?_⟩
        unfold perform at hx
        dsimp only at hx
        split at hx
        · next hbound =>
          obtain ⟨rfl, rfl⟩ := Prod.mk.inj hx
          change pwp loads urls (do
            let () ← mark sub (some .verified) (some (sub.attempts + 1)) ""
              (some (toString w.tables.examples.length))
            pure true) _ _ _
          refine Program.wp_after (pwp_mark w₀ hmem hrounds hsame (.inr rfl)) fun _ _ h => ?_
          exact ⟨hiff.mpr ⟨e, he, hbound.1, hkeys ▸ hbound.2⟩, h⟩
        · next hbound =>
          -- the columns do not take the values
          obtain ⟨rfl, rfl⟩ := Prod.mk.inj hx
          show ¬ (Answer.answered body).Fits loads sub
          rw [hiff]
          rintro ⟨e', he', hbound'⟩
          rw [he] at he'
          cases he'
          exact hbound (hkeys ▸ hbound')
    · next text htext =>
      obtain rfl := Except.ok.inj hreply
      rw [← hanswer]
      refine hmarked ?_ (.inr rfl)
      rw [hanswer]
      unfold Answer.Fits
      dsimp only
      rw [htext]
      trivial
    · cases hreply

/-- **A round settles its submission if and only if that fits.** -/
theorem pwp_processOne {r : Round} {rounds : List Round} (hmem : r.sub ∈ w.tables.subs.rows)
    (hrounds : w.rounds = r :: rounds) :
    pwp loads urls (processOne urls r.sub)
      (fun _ w' => r.Fits loads urls ∧ After w rounds r.sub w') (fun _ _ => ¬ r.Fits loads urls) w := by
  unfold processOne
  cases hcreated : createdInstant r.sub with
  | none =>
    rintro ⟨created, hsome, -⟩
    rw [hcreated] at hsome
    cases hsome
  | some created =>
    have hiff : r.Fits loads urls ↔
        (r.now - created ≤ expireAfter → urls ≠ [] → r.answer.Fits loads r.sub) := by
      refine ⟨?_, fun hfits => ⟨created, hcreated, hfits⟩⟩
      rintro ⟨created', hsome, hfits⟩
      rw [hcreated] at hsome
      cases hsome
      exact hfits
    rw [hiff]
    refine Program.wp_perform fun now w₁ hx => ⟨trivial, ?_⟩
    unfold perform at hx
    dsimp only at hx
    rw [hrounds] at hx
    obtain ⟨rfl, rfl⟩ := Prod.mk.inj hx
    change pwp loads urls (if r.now - created > expireAfter then _ else _) _ _ _
    split
    · next hlate =>
      refine Program.wp_after (pwp_mark w hmem rfl rfl (.inl ⟨_, rfl, fun h => by cases h⟩)) fun _ _ h => ?_
      exact ⟨fun hnow => absurd hnow (Int.not_le.mpr hlate), h⟩
    · next hnow =>
      cases urls with
      | nil =>
        refine Program.wp_after (pwp_mark w hmem rfl rfl (.inr rfl)) fun _ _ h => ?_
        exact ⟨fun _ hne => absurd rfl hne, h⟩
      | cons url urls =>
        have hfits : (r.now - created ≤ expireAfter → url :: urls ≠ [] → r.answer.Fits loads r.sub) ↔
            r.answer.Fits loads r.sub :=
          ⟨fun h => h (Int.not_lt.mp hnow) (List.cons_ne_nil _ _), fun h _ _ => h⟩
        rw [hfits]
        refine Program.wp_attempt rfl fun a w₂ hx => ⟨trivial, ?_⟩
        obtain ⟨rfl, rfl⟩ := Prod.mk.inj hx
        cases hreply : reverify loads r.answer with
        | ok reply =>
          change pwp loads (url :: urls) (handleReply r.sub reply) _ _ _
          exact pwp_handleReply ⟨w.tables, rounds, r.answer, loneKeys loads r.answer⟩ w hreply rfl hmem
            rfl rfl
        | error e =>
          -- what is not caught does not fit
          show ¬ r.answer.Fits loads r.sub
          exact not_fits_of_error hreply

/-- **The loop gets to its end if and only if all submissions fit.** -/
theorem pwp_processAll (w : World) {rounds : List Round} (hrounds : w.rounds = rounds)
    (hmem : ∀ r ∈ rounds, r.sub ∈ w.tables.subs.rows) (hids : (rounds.map (·.sub.id)).Nodup) (done : ℕ) :
    pwp loads urls (processAll urls (rounds.map (·.sub)) done)
      (fun _ w' => (∀ r ∈ rounds, r.Fits loads urls) ∧ (∀ r ∈ rounds, Settled w'.tables.subs r.sub) ∧
        ∀ other ∈ w.tables.subs.rows, other.id ∉ rounds.map (·.sub.id) →
          other ∈ w'.tables.subs.rows)
      (fun _ _ => ¬ ∀ r ∈ rounds, r.Fits loads urls) w := by
  induction rounds generalizing w done with
  | nil => exact ⟨List.forall_mem_nil _, List.forall_mem_nil _, fun other hother _ => hother⟩
  | cons r rounds ih =>
    rw [List.map_cons, List.nodup_cons] at hids
    have hfirst : r.sub ∈ w.tables.subs.rows := hmem r List.mem_cons_self
    refine Program.wp_after (Program.wp_mono (fun _ _ h => h) ?_ (pwp_processOne hfirst hrounds))
      fun final w₁ hround => ?_
    · exact fun _ _ hnot hall => hnot (hall r List.mem_cons_self)
    obtain ⟨hfits, hafter⟩ := hround
    have hmem' : ∀ r' ∈ rounds, r'.sub ∈ w₁.tables.subs.rows := by
      intro r' hr'
      refine hafter.others _ (hmem r' (List.mem_cons_of_mem _ hr')) fun hid => ?_
      exact hids.1 (hid ▸ List.mem_map_of_mem (f := fun r : Round => r.sub.id) hr')
    refine Program.wp_mono ?_ ?_ (ih w₁ hafter.rounds hmem' hids.2 _)
    · rintro n w₂ ⟨hrest, hsettled, hothers⟩
      refine ⟨List.forall_mem_cons.mpr ⟨hfits, hrest⟩, List.forall_mem_cons.mpr ⟨?_, hsettled⟩, ?_⟩
      · -- the later rounds leave this row alone
        obtain ⟨sub, hsub, hid, hfinal⟩ := hafter.settled
        exact ⟨sub, hothers sub hsub (by rw [hid]; exact hids.1), hid, hfinal⟩
      · intro other hother hnot
        rw [List.map_cons, List.mem_cons, not_or] at hnot
        exact hothers other (hafter.others other hother hnot.1) hnot.2
    · exact fun _ _ hnot hall => hnot fun r' hr' => hall r' (List.mem_cons_of_mem _ hr')

/-- **A pass settles every submission if and only if all of them fit.** -/
theorem settles_iff (loads : List UInt8 → Except Undecoded Decoded) (urls : List String)
    (subs : Submissions) (rounds : List Round)
    (hpending : (rounds.map (·.sub)).Perm (subs.rows.filter (·.status = .pending))) :
    Settles loads urls subs rounds ↔ ∀ r ∈ rounds, r.Fits loads urls := by
  have hmem : ∀ r ∈ rounds, r.sub ∈ subs.rows := by
    intro r hr
    exact (List.mem_filter.mp (hpending.mem_iff.mp (List.mem_map_of_mem hr))).1
  have hids : (rounds.map (·.sub.id)).Nodup := by
    have hsub := (List.filter_sublist (l := subs.rows) (p := fun sub => sub.status = .pending)).map
      (·.id)
    have hnodup := (hpending.map (·.id)).nodup_iff.mpr (subs.nodup.sublist hsub)
    rwa [List.map_map] at hnodup
  have hwp : pwp loads urls processPending
      (fun _ w => (∀ r ∈ rounds, r.Fits loads urls) ∧ ∀ r ∈ rounds, Settled w.tables.subs r.sub)
      (fun _ _ => ¬ ∀ r ∈ rounds, r.Fits loads urls) (.start subs rounds) := by
    refine Program.wp_attempt rfl fun a w hx => ⟨trivial, ?_⟩
    obtain ⟨rfl, rfl⟩ := Prod.mk.inj hx
    change pwp loads urls (if (rounds.map (·.sub)).isEmpty then _ else _) _ _ _
    split
    · next hnone =>
      rw [List.isEmpty_iff, List.map_eq_nil_iff] at hnone
      subst hnone
      exact ⟨fun r hr => absurd hr List.not_mem_nil, fun r hr => absurd hr List.not_mem_nil⟩
    · refine Program.wp_attempt rfl fun a w hx => ⟨trivial, ?_⟩
      obtain ⟨rfl, rfl⟩ := Prod.mk.inj hx
      change pwp loads urls (processAll urls (rounds.map (·.sub)) 0) _ _ _
      refine Program.wp_mono ?_ ?_ (pwp_processAll (.start subs rounds) rfl hmem hids 0)
      · exact fun _ _ h => ⟨h.1, h.2.1⟩
      · exact fun _ _ h => h
  obtain ⟨r, w, hrun, hok, herror⟩ := Program.run_wp hwp
  refine ⟨?_, fun hfits => ?_⟩
  · rintro ⟨n, w', hrun', -⟩
    rw [hrun] at hrun'
    obtain ⟨rfl, rfl⟩ := Prod.mk.inj (Option.some.inj hrun')
    exact (hok n rfl).1
  · cases r with
    | ok n => exact ⟨n, w, hrun, (hok n rfl).2⟩
    | error e => exact absurd hfits (herror e rfl)

end

/-! ### Two passes -/

/-- `json.loads` of UTF-8 without lone surrogates, with no double in it. -/
def loadsText (body : List UInt8) : Except Undecoded Decoded :=
  match JsonText.loads (fun _ => .nan) 900 (Utf8.decodeReplace body) with
  | .ok v => .ok ⟨v, fun _ => false⟩
  | .error .runtimeError => .error .recursionError
  | .error _ => .error (.valueError "Expecting value")

/-- `{"exit_code": 0}`. -/
def exitZero : List UInt8 := [123, 34, 101, 120, 105, 116, 95, 99, 111, 100, 101, 34, 58, 48, 125]

/-- The first submission exits with 0, and the answer to the second one is an error. -/
theorem settles_two : Settles loadsText ["http://10.0.0.2"] two
    (two.rows.zipWith (fun sub answer => ⟨sub, 0, answer⟩)
      [.answered exitZero, .httpError 503 (some [98, 117, 115, 121])]) :=
  (settles_iff loadsText ["http://10.0.0.2"] two _ (by decide)).mpr (by with_unfolding_all decide)

/-- **The answer `[]` to the first submission keeps the second one waiting.** -/
theorem two_blocked : ¬ ∀ (loads : List UInt8 → Except Undecoded Decoded) (urls : List String)
    (subs : Submissions) (rounds : List Round),
    (rounds.map (·.sub)).Perm (subs.rows.filter (·.status = .pending)) →
      Settles loads urls subs rounds := by
  intro hall
  obtain ⟨n, w, hrun, -⟩ := hall loadsText ["http://10.0.0.2"] two
    (two.rows.map fun sub => ⟨sub, 0, .answered [91, 93]⟩) (by decide)
  have hraised : ((processPending.run (fun w c => some (perform loadsText ["http://10.0.0.2"] w c))
      (.start two (two.rows.map fun sub => ⟨sub, 0, .answered [91, 93]⟩))).map fun r =>
        r.1.toOption.isNone && r.2.tables.subs.rows.all (·.attempts = 0)) = some true := by
    with_unfolding_all decide
  rw [hrun] at hraised
  cases hraised

end Reverify
end CloudCore
