import CloudCore.LlmChat.Execute
import CloudCore.Python.Utf8Pieces

/-!
# The output of a program, read in chunks

The loops of `run_sandboxed_interactive` and of `run_in_microvm` around a running program, down to
the bytes that each read takes from it.  Either decodes what a read delivers by itself, so that a
character which comes in two reads is not the one that the program wrote.

## Main definitions

* `loop`, `runSandboxedInteractive`, `runInMicrovm` — the loop and what it reports, from the start of
  the program on.
* `World` — what the reads have taken of the standard output, and what none has.
* `Reported` — the standard output is that of all bytes, up to its first characters.

## Main results

* `followed` — the loop is the one of `Execute`, on the rounds that it sees.
* `reported_iff` — **the output is reported truly exactly if its first characters are clean.**
* `not_reported` — a letter that comes in two reads.
-/

namespace CloudCore
namespace Execute
namespace Chunks

open Effect Python
open Effect.Program (attempt Ends Sure sure_perform sure_attempt)

/-! ### Commands -/

inductive Stream where
  | stdout
  | stderr
  deriving DecidableEq

inductive Cmd where
  /-- Whether there is an interrupt and it is set. -/
  | isSet
  /-- `os.read(fd, 65536)` of what `select` reports; nothing where it does not, or at an end. -/
  | osRead (st : Stream)
  /-- `chan.recv(65536)`, or `recv_stderr`, as long as it is ready. -/
  | recv (st : Stream)
  /-- `proc.poll() is not None`, or `chan.exit_status_ready()`. -/
  | exited
  /-- Whether the program waits for input, and whether it has been quiet for `INTERACTIVE_QUIET_S`. -/
  | probe
  | provideInput (transcript : String)
  /-- A line to the program; whether it arrived. -/
  | send (line : String)
  /-- The program is killed if it runs, and waited for. -/
  | kill
  /-- `proc.returncode`, or `chan.recv_exit_status()`. -/
  | status

@[reducible] def Cmd.Ans : Cmd → Type
  | .isSet | .exited | .send _ => Bool
  | .osRead _ => Option (List UInt8)
  | .recv _ => Except Failure (List (List UInt8))
  | .probe => Except Failure (WaitState × Bool)
  | .provideInput _ => Option String
  | .kill => Unit
  | .status => Option ℤ

abbrev sig : Signature := ⟨Cmd, Cmd.Ans⟩

abbrev Code (α : Type) := Program sig Failure α

/-! ### The loop -/

/-- `chunk.decode(errors="replace")`. -/
def text (chunk : List UInt8) : String := String.ofList (Utf8.decodeReplace chunk)

/-- In which of the two functions the loop is. -/
inductive Place where
  | host
  | guest (interactive : Bool)

def Place.interactive : Place → Bool
  | .host => true
  | .guest interactive => interactive

def Place.cap : Place → Option ℕ
  | .host => none
  | .guest _ => some runOutputHardCap

/-- What is there of a stream, decoded read by read. -/
def Place.read (st : Stream) : Place → Code (List String)
  | .host => do
    let chunk : Option (List UInt8) ← Program.perform (F := sig) (.osRead st)
    pure (chunk.toList.map text)
  | .guest _ => do
    let chunks : List (List UInt8) ← attempt (F := sig) (.recv st) rfl
    pure (chunks.map text)

/-- One line of input, as in `Execute.exchange`. -/
def exchange (cfg : Settings) (d : Detection) (se : Session) : Code (Session × Bool) :=
  if interactiveMaxExchanges ≤ se.exchanges then pure ({ se with timedOut := true }, false)
  else do
    let value : Option String ←
      Program.perform (F := sig) (.provideInput (joined se.transcript))
    match value with
    | none => pure (se, false)
    | some value => do
      let sent : Bool ← Program.perform (F := sig) (.send (value ++ "\n"))
      pure ({ se with exchanges := se.exchanges + 1 }.note
        s!"\n>>> INPUT PROVIDED ({d.text}): {cfg.repr value}\n", sent)

/-- The rounds that the wall-clock limit leaves time for. -/
def loop (cfg : Settings) (place : Place) : ℕ → Session → Code Session
  | 0, se => do
    let stopped : Bool ← Program.perform (F := sig) .isSet
    if stopped then pure { se with interrupted := true }
    else pure { se with timedOut := true }
  | rounds + 1, se => do
    let stopped : Bool ← Program.perform (F := sig) .isSet
    if stopped then pure { se with interrupted := true }
    else do
      let out ← place.read .stdout
      let err ← place.read .stderr
      let se := se.hear out err
      if place.cap.any (· < se.total) then
        pure (se.note "\n[Output limit reached -- program stopped]\n")
      else if out ≠ [] ∨ err ≠ [] then loop cfg place rounds se
      else do
        let exited : Bool ← Program.perform (F := sig) .exited
        if exited then pure se
        else if place.interactive then do
          let e : WaitState × Bool ← attempt (F := sig) .probe rfl
          match detection e.1 e.2 with
          | none => loop cfg place rounds se
          | some d => do
            let r ← exchange cfg d se
            if r.2 then loop cfg place rounds r.1 else pure r.1
        else loop cfg place rounds se

/-- `run_sandboxed_interactive`, from the start of the program on. -/
def runSandboxedInteractive (cfg : Settings) (rounds : ℕ) : Code Result := do
  let se ← loop cfg .host rounds .empty
  let () ← Program.perform (F := sig) .kill
  let out ← Place.host.read .stdout
  let err ← Place.host.read .stderr
  let se := se.hear out err
  let se := if se.interrupted then se.note "\n[Interactive session stopped by the student]\n"
    else if se.timedOut then se.note budgetSpent
    else se
  let status : Option ℤ ← Program.perform (F := sig) .status
  pure (se.result status .python)

/-- The final drain, and the status with it, where the program has exited. -/
def drain (place : Place) (se : Session) : Code (Session × Option ℤ) := do
  let exited : Bool ← Program.perform (F := sig) .exited
  if exited then do
    let out ← place.read .stdout
    let err ← place.read .stderr
    let status : Option ℤ ← Program.perform (F := sig) .status
    pure (se.hear out err, status)
  else pure (se, none)

/-- `run_in_microvm`, from the start of the program on. -/
def runInMicrovm (cfg : Settings) (g : Guest) (interactive : Bool) (rounds : ℕ) : Code Result := do
  let se ← loop cfg (.guest interactive) rounds .empty
  let e ← drain (.guest interactive) se
  let se := e.1
  let msg := if interactive then budgetSpent
    else s!"\n[Execution killed: exceeded {cfg.verifyTimeoutS}s]\n"
  let se := if se.interrupted then se.note "\n[Stopped at your request]\n"
    else if se.timedOut then { se.note msg with stderr := se.stderr ++ [msg] }
    else se
  pure (se.result e.2 (.guest g))

/-! ### What is promised -/

/-- The standard output of the program: what each read has taken, and what none has. -/
structure World where
  taken : List (List UInt8)
  unread : List UInt8

/-- What the program has written. -/
def World.written (w : World) : List UInt8 := w.taken.flatten ++ w.unread

/-- A program that is started. -/
def World.init : World := ⟨[], []⟩

/-- The chunks of standard output with which a command is answered. -/
def delivered : (c : Cmd) → c.Ans → List (List UInt8)
  | .osRead .stdout, chunk => chunk.toList
  | .recv .stdout, .ok chunks => chunks
  | _, _ => []

/-- What a command may do.  Meanwhile the program goes on writing; where a read cuts its output is
not said. -/
structure exec (w : World) (c : Cmd) (a : c.Ans) (w' : World) : Prop where
  taken : w'.taken = w.taken ++ delivered c a
  written : w.written <+: w'.written
  chunks : ∀ chunk ∈ delivered c a, chunk ≠ [] ∧ chunk.length ≤ 65536

/-- The standard output that is reported is what the program has written, up to the length that is
shown. -/
def Reported (r : Result) (w : World) : Prop :=
  r.stdout.toList = (Utf8.decodeReplace w.written).take maxOutputChars

/-- The characters that are shown come from one read each; or, from the first one that does not, there
is nothing but replacement characters, and as many of them. -/
def Whole (w : World) : Prop := Utf8.Clean maxOutputChars (Utf8.marks w.taken w.unread)

/-! ### What the loop has heard -/

/-- A session holds what the reads have taken, each decoded. -/
def Heard (se : Session) (w : World) : Prop := se.stdout = w.taken.map text

variable {cfg : Settings} {place : Place} {w : World} {se : Session}

/-- A command that takes nothing of the standard output. -/
theorem Heard.keep {w' : World} {c : Cmd} {a : c.Ans} (h : Heard se w) (hx : exec w c a w')
    (hnone : delivered c a = []) : Heard se w' := by
  rw [Heard, hx.taken, hnone, List.append_nil]
  exact h

theorem sure_stdout : Sure exec (place.read .stdout)
    (fun out w' => w'.taken.map text = w.taken.map text ++ out) (fun _ _ => True) w := by
  cases place with
  | host =>
    refine sure_perform fun chunk w' hx => ?_
    show _ = _
    rw [hx.taken, List.map_append]
    rfl
  | guest interactive =>
    refine sure_attempt rfl fun r w' hx => ?_
    cases r with
    | error e => exact trivial
    | ok chunks =>
      show _ = _
      rw [hx.taken, List.map_append]
      rfl

theorem sure_stderr : Sure exec (place.read .stderr) (fun _ w' => w'.taken = w.taken)
    (fun _ _ => True) w := by
  cases place with
  | host =>
    refine sure_perform fun chunk w' hx => ?_
    show _ = _
    rw [hx.taken]
    exact List.append_nil _
  | guest interactive =>
    refine sure_attempt rfl fun r w' hx => ?_
    cases r with
    | error e => exact trivial
    | ok chunks =>
      show _ = _
      rw [hx.taken]
      exact List.append_nil _

/-- After the reads of both streams. -/
theorem sure_reads {α : Type} {f : List String → List String → Code α} {Q : α → World → Prop}
    (h : Heard se w)
    (hf : ∀ out err w', Heard (se.hear out err) w' → Sure exec (f out err) Q (fun _ _ => True) w') :
    Sure exec (do
      let out ← place.read .stdout
      let err ← place.read .stderr
      f out err) Q (fun _ _ => True) w := by
  refine Sure.bind sure_stdout fun out w₁ hout => ?_
  refine Sure.bind sure_stderr fun err w₂ herr => hf out err w₂ ?_
  rw [Heard, herr, hout, ← h]
  rfl

theorem sure_exchange {d : Detection} (h : Heard se w) :
    Sure exec (exchange cfg d se) (fun e => Heard e.1) (fun _ _ => True) w := by
  rw [exchange]
  split
  · exact h
  · refine sure_perform fun value w' hx => ?_
    cases value with
    | none => exact h.keep hx rfl
    | some value => exact sure_perform fun sent w'' hx' => (h.keep hx rfl).keep hx' rfl

theorem sure_loop {rounds : ℕ} (h : Heard se w) :
    Sure exec (loop cfg place rounds se) Heard (fun _ _ => True) w := by
  induction rounds generalizing se w with
  | zero =>
    refine sure_perform fun stopped w' hx => ?_
    cases stopped with
    | true => exact h.keep hx rfl
    | false => exact h.keep hx rfl
  | succ rounds ih =>
    refine sure_perform fun stopped w' hx => ?_
    cases stopped with
    | true => exact h.keep hx rfl
    | false =>
      refine sure_reads (h.keep hx rfl) fun out err w₁ h => ?_
      dsimp only
      split
      · exact h
      · split
        · exact ih h
        · refine sure_perform fun exited w₂ hx => ?_
          replace h := h.keep hx rfl
          cases exited with
          | true => exact h
          | false =>
            cases place.interactive with
            | false => exact ih h
            | true =>
              refine sure_attempt rfl fun r w₃ hx => ?_
              replace h := h.keep hx rfl
              cases r with
              | error e => exact trivial
              | ok e =>
                show Sure (F := sig) exec (match detection e.1 e.2 with | none => _ | some d => _) _ _ _
                cases detection e.1 e.2 with
                | none => exact ih h
                | some d =>
                  refine Sure.bind (sure_exchange h) fun r w₄ h => ?_
                  split
                  · exact ih h
                  · exact h

/-! ### The loop of `Execute` -/

/-- With some answers, a program of `Execute` returns. -/
def Returns {α : Type} (p : Execute.Code α) (a : α) : Prop :=
  Ends (fun (_ : Unit) _ _ _ => True) () p (.ok a) ()

theorem returns_perform {α : Type} {c : Execute.Cmd} (answer : c.Ans) {f : c.Ans → Execute.Code α} {a : α}
    (h : Returns (f answer) a) : Returns (Program.perform (F := Execute.sig) c >>= f) a :=
  .call trivial h

/-- With some rounds, the loop of `Execute` comes from one session to another. -/
def Follows (cfg : Settings) (place : Place) (se se' : Session) : Prop :=
  ∃ rounds, Returns (follow cfg place.interactive place.cap rounds se) se'

/-- One line of input is one line of input there. -/
theorem sure_exchanged {d : Detection} : Sure exec (exchange cfg d se)
    (fun e _ => Returns (Execute.exchange cfg d se) e) (fun _ _ => True) w := by
  rw [exchange, Execute.exchange]
  split
  · exact Ends.ret
  · refine sure_perform fun value w' hx => ?_
    cases value with
    | none =>
      refine returns_perform (c := .provideInput (joined se.transcript)) (none : Option String) ?_
      exact Ends.ret
    | some value =>
      refine sure_perform fun sent w'' hx' => ?_
      refine returns_perform (c := .provideInput (joined se.transcript)) (some value) ?_
      exact returns_perform (c := .send (value ++ "\n")) sent Ends.ret

/-- A round in front of the others. -/
theorem Follows.next {round : Round} {se₁ se' : Session} (h : Follows cfg place se₁ se')
    (hround : ∀ rounds, follow cfg place.interactive place.cap (round :: rounds) se =
      follow cfg place.interactive place.cap rounds se₁) : Follows cfg place se se' := by
  obtain ⟨rounds, hends⟩ := h
  exact ⟨round :: rounds, (hround rounds).symm ▸ hends⟩

/-- **The loop is the one of `Execute`, on the rounds that it sees.** -/
theorem followed {rounds : ℕ} :
    Sure exec (loop cfg place rounds se) (fun se' _ => Follows cfg place se se') (fun _ _ => True) w := by
  induction rounds generalizing se w with
  | zero =>
    refine sure_perform fun stopped w' hx => ?_
    cases stopped with
    | true => exact ⟨[.interrupted], .ret⟩
    | false => exact ⟨[], .ret⟩
  | succ rounds ih =>
    refine sure_perform fun stopped w' hx => ?_
    cases stopped with
    | true => exact ⟨[.interrupted], .ret⟩
    | false =>
      refine Sure.bind (Q := fun se' _ => Follows cfg place se se') (P := fun _ _ => True) ?_
        fun out w₁ _ => Sure.bind (P := fun _ _ => True) ?_ fun err w₂ _ => ?_
      · exact Sure.mono sure_stdout (fun _ _ _ => trivial) fun _ _ _ => trivial
      · exact Sure.mono sure_stderr (fun _ _ _ => trivial) fun _ _ _ => trivial
      · have houtput : ∀ rs, follow cfg place.interactive place.cap (.output out err :: rs) se =
            if place.cap.any (· < (se.hear out err).total) then
              pure ((se.hear out err).note "\n[Output limit reached -- program stopped]\n")
            else follow cfg place.interactive place.cap rs (se.hear out err) := fun rs => rfl
        dsimp only
        split
        · next hcap => exact ⟨[.output out err], (houtput []).trans (if_pos hcap) ▸ .ret⟩
        · next hcap =>
          have hheard : ∀ rs, follow cfg place.interactive place.cap (.output out err :: rs) se =
              follow cfg place.interactive place.cap rs (se.hear out err) := fun rs =>
            (houtput rs).trans (if_neg hcap)
          split
          · exact Sure.mono ih (fun se' _ h => h.next hheard) fun _ _ _ => trivial
          · refine sure_perform fun exited w₃ hx => ?_
            cases exited with
            | true => exact ⟨[.output out err, .exited], (hheard [.exited]).symm ▸ .ret⟩
            | false =>
              cases hplace : place.interactive with
              | false => exact Sure.mono ih (fun se' _ h => h.next hheard) fun _ _ _ => trivial
              | true =>
                refine sure_attempt rfl fun r w₄ hx => ?_
                cases r with
                | error e => exact trivial
                | ok e =>
                  show Sure (F := sig) exec (match detection e.1 e.2 with | none => _ | some d => _) _ _ _
                  cases hd : detection e.1 e.2 with
                  | none => exact Sure.mono ih (fun se' _ h => h.next hheard) fun _ _ _ => trivial
                  | some d =>
                    have hasked : ∀ rs, follow cfg place.interactive place.cap
                        (.output out err :: .silent e.1 e.2 :: rs) se =
                        Execute.exchange cfg d (se.hear out err) >>= fun r =>
                          if r.2 then follow cfg place.interactive place.cap rs r.1 else pure r.1 := by
                      intro rs
                      rw [hheard, follow, hplace, if_pos rfl, hd]
                    refine Sure.bind sure_exchanged fun r w₅ hr => ?_
                    split
                    · next hgo =>
                      refine Sure.mono ih ?_ fun _ _ _ => trivial
                      rintro se' _ ⟨rs, h⟩
                      refine ⟨_, (hasked rs).symm ▸ Ends.bind hr ?_⟩
                      exact (if_pos hgo).symm ▸ h
                    · next hgo =>
                      refine ⟨_, (hasked []).symm ▸ Ends.bind hr ?_⟩
                      exact (if_neg hgo).symm ▸ Ends.ret

theorem toList_joined (l : List String) : (joined l).toList = l.flatMap String.toList := by
  induction l with
  | nil => rfl
  | cons x l ih =>
    cases l with
    | nil =>
      rw [joined, String.intercalate_singleton, List.flatMap_singleton]
    | cons y l =>
      rw [joined, String.intercalate_cons_cons, String.append_empty, String.toList_append,
        List.flatMap_cons, ← ih, joined]

/-- What a session reports is true exactly if the output is whole. -/
theorem Heard.result_iff (h : Heard se w) (status : Option ℤ) (language : Language) :
    Reported (se.result status language) w ↔ Whole w := by
  have hstdout : (se.result status language).stdout.toList =
      (w.taken.flatMap Utf8.decodeReplace).take maxOutputChars := by
    show (clip (joined se.stdout)).toList = _
    rw [clip, String.toList_ofList, toList_joined, h, List.flatMap_map]
    exact congrArg (List.take maxOutputChars) (List.flatMap_congr fun _ _ => String.toList_ofList)
  rw [Reported, hstdout, World.written]
  exact Utf8.take_eq_take_iff maxOutputChars w.taken w.unread

theorem Heard.of_stdout {se' : Session} (h : Heard se w) (heq : se'.stdout = se.stdout) : Heard se' w :=
  heq.trans h

theorem sure_host {rounds : ℕ} : Sure exec (runSandboxedInteractive cfg rounds)
    (fun r w => Reported r w ↔ Whole w) (fun _ _ => True) .init := by
  refine Sure.bind (sure_loop (Eq.refl (Session.stdout .empty))) fun se w h => ?_
  refine sure_perform fun _ w' hx => sure_reads (h.keep hx rfl) fun out err w h => ?_
  refine sure_perform fun status w' hx => ((h.keep hx rfl).of_stdout ?_).result_iff status .python
  split
  · rfl
  · split <;> rfl

theorem sure_drain (h : Heard se w) :
    Sure exec (drain place se) (fun e => Heard e.1) (fun _ _ => True) w := by
  refine sure_perform fun exited w' hx => ?_
  cases exited with
  | true => exact sure_reads (h.keep hx rfl) fun out err w h => sure_perform fun _ _ hx => h.keep hx rfl
  | false => exact h.keep hx rfl

theorem sure_guest {g : Guest} {interactive : Bool} {rounds : ℕ} :
    Sure exec (runInMicrovm cfg g interactive rounds) (fun r w => Reported r w ↔ Whole w)
      (fun _ _ => True) .init := by
  refine Sure.bind (sure_loop (Eq.refl (Session.stdout .empty))) fun se w h => ?_
  refine Sure.bind (sure_drain h) fun e w h => (h.of_stdout ?_).result_iff e.2 (.guest g)
  split
  · rfl
  · split <;> rfl

/-- **The output is reported truly exactly if its first characters are whole,** however the reads have
cut it. -/
theorem reported_iff (cfg : Settings) (rounds : ℕ) (r : Result) (w : World) :
    (Ends exec .init (runSandboxedInteractive cfg rounds) (.ok r) w → (Reported r w ↔ Whole w)) ∧
      ∀ g interactive, Ends exec .init (runInMicrovm cfg g interactive rounds) (.ok r) w →
        (Reported r w ↔ Whole w) :=
  ⟨fun h => (sure_host.result h).1 r rfl, fun _ _ h => (sure_guest.result h).1 r rfl⟩

/-! ### A letter in two reads -/

/-- The next chunks are written and taken, where all before them have been taken. -/
def World.take (w : World) (chunks : List (List UInt8)) : Option World :=
  if w.unread = [] then some ⟨w.taken ++ chunks, []⟩ else none

/-- A program whose output comes in these chunks, and which then exits. -/
def respond (out : List (List UInt8)) (w : World) : (c : Cmd) → Option (c.Ans × World)
  | .osRead .stdout => (w.take out[w.taken.length]?.toList).map fun w' => (out[w.taken.length]?, w')
  | .recv .stdout => (w.take (out.drop w.taken.length)).map fun w' => (.ok (out.drop w.taken.length), w')
  | .osRead .stderr => some (none, w)
  | .recv .stderr => some (.ok [], w)
  | .isSet => some (false, w)
  | .exited => some (decide (out.length ≤ w.taken.length), w)
  | .kill => some ((), w)
  | .status => some (some 0, w)
  | _ => none

/-- Chunks that a read can deliver. -/
def Fit (out : List (List UInt8)) : Prop := ∀ chunk ∈ out, chunk ≠ [] ∧ chunk.length ≤ 65536

theorem exec_take {chunks : List (List UInt8)} (hchunks : Fit chunks) {w w' : World} {c : Cmd}
    {a : c.Ans} (h : w.take chunks = some w') (ha : delivered c a = chunks) : exec w c a w' := by
  rw [World.take] at h
  split at h
  · next hunread =>
    obtain rfl := Option.some_inj.mp h
    refine ⟨congrArg (w.taken ++ ·) ha.symm, ?_, ha ▸ hchunks⟩
    rw [World.written, World.written, hunread, List.append_nil, List.append_nil, List.flatten_append]
    exact List.prefix_append _ _
  · cases h

theorem exec_respond {out : List (List UInt8)} (hout : Fit out) {w w' : World} {c : Cmd} {a : c.Ans}
    (h : respond out w c = some (a, w')) : exec w c a w' := by
  cases c with
  | osRead st =>
    cases st with
    | stdout =>
      obtain ⟨w₁, htake, hw⟩ := Option.map_eq_some_iff.mp h
      cases hw
      exact exec_take (fun chunk hc => hout chunk (List.mem_of_getElem? (Option.mem_toList.mp hc))) htake rfl
    | stderr =>
      cases h
      exact ⟨(List.append_nil _).symm, List.prefix_rfl, nofun⟩
  | recv st =>
    cases st with
    | stdout =>
      obtain ⟨w₁, htake, hw⟩ := Option.map_eq_some_iff.mp h
      cases hw
      exact exec_take (fun chunk hc => hout chunk (List.mem_of_mem_drop hc)) htake rfl
    | stderr =>
      cases h
      exact ⟨(List.append_nil _).symm, List.prefix_rfl, nofun⟩
  | probe | provideInput _ | send _ => cases h
  | isSet | exited | kill | status =>
    cases h
    exact ⟨(List.append_nil _).symm, List.prefix_rfl, nofun⟩

/-- A run, with what it reports. -/
theorem ends_respond {out : List (List UInt8)} (hout : Fit out) {p : Code Result} {s : String}
    (h : (p.run (respond out) .init).any (fun x => x.1.toOption.any (decide <| ·.stdout = s) &&
      decide (x.2.taken = out ∧ x.2.unread = [])) = true) :
    ∃ r w, Ends exec .init p (.ok r) w ∧ r.stdout = s ∧ w = ⟨out, []⟩ := by
  obtain ⟨⟨r, w⟩, hrun, hr⟩ := (Option.any_eq_true ..).mp h
  obtain ⟨hshown, hw⟩ := Bool.and_eq_true_iff.mp hr
  obtain ⟨taken, unread⟩ := w
  obtain ⟨rfl, rfl⟩ := of_decide_eq_true hw
  cases r with
  | error e => cases hshown
  | ok r =>
    exact ⟨r, _, Program.ends_of_run (fun _ _ _ _ => exec_respond hout) hrun, of_decide_eq_true hshown, rfl⟩

/-- `café`, in three reads. -/
def cafe : List (List UInt8) := [[0x63, 0x61], [0x66, 0xC3, 0xA9], [0x0A]]

/-- Both functions report a word whose letters all come in one read each. -/
theorem reported_iff_word :
    (∃ r w, Ends exec .init (runSandboxedInteractive defaults 4) (.ok r) w ∧ r.stdout = "café\n" ∧
        Reported r w ∧ Whole w) ∧
      ∃ r w, Ends exec .init (runInMicrovm defaults .bash false 4) (.ok r) w ∧ r.stdout = "café\n" ∧
        Reported r w ∧ Whole w := by
  have hfit : Fit cafe := by simp [Fit, cafe]
  have hword : ∀ r : Result, r.stdout = "café\n" → Reported r ⟨cafe, []⟩ := by
    intro r hr
    have hdecoded : Utf8.decodeReplace cafe.flatten = "café\n".toList :=
      Utf8.decodeReplace_encode "café\n".toList
    rw [Reported, hr, World.written, List.append_nil, hdecoded]
    decide
  obtain ⟨r, _, hr, hshown, rfl⟩ := ends_respond (p := runSandboxedInteractive defaults 4)
    (s := "café\n") hfit (by with_unfolding_all decide)
  obtain ⟨r', _, hr', hshown', rfl⟩ := ends_respond (p := runInMicrovm defaults .bash false 4)
    (s := "café\n") hfit (by with_unfolding_all decide)
  have hheard := hword r hshown
  have hheard' := hword r' hshown'
  exact ⟨⟨r, _, hr, hshown, hheard, ((reported_iff defaults 4 r _).1 hr).mp hheard⟩,
    r', _, hr', hshown', hheard', ((reported_iff defaults 4 r' _).2 .bash false hr').mp hheard'⟩

/-- **A letter that comes in two reads is reported as two replacement characters,** by both. -/
theorem not_reported :
    (∃ r w, Ends exec .init (runSandboxedInteractive defaults 3) (.ok r) w ∧ ¬Reported r w) ∧
      ∃ r w, Ends exec .init (runInMicrovm defaults .bash false 3) (.ok r) w ∧ ¬Reported r w := by
  have hfit : Fit [[0xC3], [0xA9]] := by simp [Fit]
  have hletter : ∀ r : Result, r.stdout = "\uFFFD\uFFFD" → ¬Reported r ⟨[[0xC3], [0xA9]], []⟩ := by
    intro r hr h
    have hwhole : Utf8.decodeReplace [0xC3, 0xA9] = ['é'] := Utf8.decodeReplace_encode ['é']
    rw [Reported, hr] at h
    exact absurd (h.trans (congrArg (List.take maxOutputChars) hwhole)) (by decide)
  obtain ⟨r, _, hr, hshown, rfl⟩ := ends_respond (p := runSandboxedInteractive defaults 3)
    (s := "\uFFFD\uFFFD") hfit (by with_unfolding_all decide)
  obtain ⟨r', _, hr', hshown', rfl⟩ := ends_respond (p := runInMicrovm defaults .bash false 3)
    (s := "\uFFFD\uFFFD") hfit (by with_unfolding_all decide)
  exact ⟨⟨r, _, hr, hletter r hshown⟩, r', _, hr', hletter r' hshown'⟩

end Chunks
end Execute
end CloudCore
