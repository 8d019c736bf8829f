import CloudCore.Effect.Pool
import CloudCore.Effect.Sequential
import CloudCore.LlmChat.RelayLines
import CloudCore.Python.JsonText

/-!
# An answer, its continuations and its end

`_relay_and_verify_stream` of `verify_proxy.py`: an answer is relayed, continued where it was cut off,
verified, and ended with `[DONE]`.  What `json.loads` gives for a line, the code in a text and what the
verification does are outside.

## Main definitions

* `relayAndVerifyStream` — one answer, from the headers to the end.
* `World` — what the client was sent, and the requests for a continuation.
* `OneDone` — there is one `[DONE]`, and it comes last.
* `Understood` — no line breaks a relay off, and the timings are a dictionary.

## Main results

* `sure_continueRounds` — each round asks for a continuation once, after `length`.
* `stream_iff` — **the promise for a relay is kept exactly if its lines are fine; a continuation is only
  asked for after `length`, and not too often; and where nothing outside raises and the client stays, the
  answer is ended exactly if its lines are understood.**
* `not_stream` — a choice that is no dictionary, after which there is no end, and a finish reason beside a
  delta that is `null`.
-/

namespace CloudCore
namespace Relay

open Effect Formats Python
open Effect.Program (attempt Ends Sure sure_perform sure_attempt)

namespace Stream

/-- `BrokenPipeError` and `ConnectionResetError`, and what is caught nowhere. -/
inductive Exn where
  | brokenPipe
  | other
  deriving DecidableEq

inductive StopReason where
  | interrupted
  | disconnected
  | stalled
  | emptyResponse
  deriving DecidableEq

def StopReason.name : StopReason → String
  | .interrupted => "interrupted"
  | .disconnected => "disconnected"
  | .stalled => "stalled"
  | .emptyResponse => "empty_response"

def stopReason : Stop → Option StopReason
  | .finished => none
  | .interrupted => some .interrupted
  | .disconnected => some .disconnected
  | .stalled => some .stalled

/-- What `_relay_one_stream` returns. -/
structure Answer where
  text : String
  finishReason : Option Json
  stop : Option StopReason
  lastMeta : Option Meta
  timings : Option Json

/-- What is written to the client. -/
inductive Sent where
  | line (bytes : List UInt8)
  /-- `_write_sse_delta`: a chunk whose delta is this text. -/
  | delta (text : String) (lastMeta : Option Meta)
  /-- `_sse_heartbeat`. -/
  | heartbeat
  | sources
  | notices
  | labRun (id token : String)
  | done

/-- Whether it is a `[DONE]`. -/
def Sent.isDone : Sent → Bool
  | .line bytes => Relay.isDone bytes
  | .done => true
  | _ => false

structure Request where
  /-- `MAX_CONTINUATION_ROUNDS`. -/
  maxContinuationRounds : ℤ
  enableVerification : Bool
  sentinelHost : Bool
  verify : Bool
  language : Option String
  studentCode : String
  linuxAsk : Bool
  started : Bool
  questionTruncatedForSearch : Bool
  /-- Whether a page behind the answer has a link. -/
  sources : Bool
  /-- `extract_code`. -/
  extractCode : String → String → Option (String × String)
  /-- `extract_stdin_value`. -/
  extractStdinValue : String → Option String

inductive Cmd where
  /-- The response line and the headers. -/
  | header
  /-- `_relay_one_stream` of the open connection. -/
  | relay
  | close
  /-- `_open_upstream_completion` of a continuation; whether there is a response. -/
  | openUpstream (priorText : String)
  | write (e : Sent)
  /-- `_record_llm_stats`, after the first two lines. -/
  | recordLlmStats (model tokens tps : Json)
  | logAskOutcome (outcome : String) (answerChars continuationRounds : ℕ) (tokens tps : Json)
  | restartLlamaServer
  /-- `verify_and_maybe_fix`: the text to append, and whether the code passed. -/
  | verifyAndMaybeFix (language code : String) (input : Option String)
  | captureExample
  | logGrounding (answer : String) (codeVerified : Option String) (outcome : Option String) (tokens tps : Json)
    (continuationRounds : ℕ)
  | pushLlmStats
  | startAdviceRun (answer : String)

@[reducible] def Cmd.Ans : Cmd → Type
  | .relay => Except Exn Answer
  | .openUpstream _ => Except Exn Bool
  | .verifyAndMaybeFix .. => Except Exn (String × Bool)
  | .startAdviceRun _ => Except Exn (Option (String × String))
  | .close | .restartLlamaServer | .pushLlmStats => Unit
  | .header | .write _ | .recordLlmStats .. | .logAskOutcome .. | .captureExample | .logGrounding .. =>
    Except Exn Unit

abbrev sig : Signature := ⟨Cmd, Cmd.Ans⟩

abbrev Code (α : Type) := Program sig Exn α

/-! ### The function -/

/-- An `if` without an `else`. -/
def only (c : Prop) [Decidable c] (p : Code Unit) : Code Unit := if c then p else pure ()

def writeSseDelta (text : String) (lastMeta : Option Meta) : Code Unit :=
  tryCatch (attempt (F := sig) (.write (.delta text lastMeta)) rfl) fun e =>
    match e with
    | .brokenPipe => pure ()
    | .other => throw e

/-- What the rounds leave. -/
structure Progress where
  texts : List String
  finishReason : Option Json
  stop : Option StopReason
  lastMeta : Option Meta
  timings : Option Json
  rounds : ℕ

def Progress.start (a : Answer) : Progress where
  texts := [a.text]
  finishReason := a.finishReason
  stop := if a.stop = none ∧ a.finishReason.isNone ∧ a.text = "" then some .emptyResponse else a.stop
  lastMeta := a.lastMeta
  timings := a.timings
  rounds := 0

def Progress.next (p : Progress) (a : Answer) : Progress where
  texts := p.texts ++ [a.text]
  finishReason := a.finishReason
  stop := a.stop
  lastMeta := a.lastMeta.or p.lastMeta
  timings := a.timings.or p.timings
  rounds := p.rounds + 1

/-- `stop_reason is None and finish_reason == "length"`. -/
def Progress.cutOff (p : Progress) : Bool :=
  p.stop.isNone && p.finishReason.any (·.eq (.str "length"))

/-- The automatic continuations. -/
def continueRounds : ℕ → Progress → Code Progress
  | 0, p => pure p
  | n + 1, p =>
    if p.cutOff then do
      let opened : Bool ← attempt (F := sig) (.openUpstream (String.join p.texts)) rfl
      if opened then do
        let a : Answer ← attempt (F := sig) .relay rfl
        let () ← Program.perform (F := sig) .close
        continueRounds n (p.next a)
      else do
        let () ← writeSseDelta "\n\n_[Automatic continuation failed — the model backend became unreachable. The answer above may be incomplete.]_\n" p.lastMeta
        pure { p with rounds := p.rounds + 1 }
    else pure p

/-- `language or "python"`. -/
def Request.languageOr (req : Request) : String := (req.language.filter (· ≠ "")).getD "python"

/-- The verification of an answer: whether its code passed, where it has any. -/
def verifyAnswer (req : Request) (fullText : String) (lastMeta : Option Meta) : Code (Option Bool) :=
  match if req.enableVerification then req.extractCode fullText req.languageOr else none with
  | some (language, code) => do
    let r : String × Bool ← attempt (F := sig) (.verifyAndMaybeFix language code none) rfl
    let () ← writeSseDelta r.1 lastMeta
    let () ← attempt (F := sig) .captureExample rfl
    pure (some r.2)
  | none =>
    match req.extractStdinValue fullText with
    | some input =>
      if req.enableVerification ∧ req.studentCode ≠ "" then do
        let r : String × Bool ← attempt (F := sig)
          (.verifyAndMaybeFix req.languageOr req.studentCode (some input)) rfl
        let () ← writeSseDelta ("\n\n_Ran the code in your editor with the input above._" ++ r.1) lastMeta
        pure (some r.2)
      else pure none
    | none => pure none

/-- What an answer that is over is followed by. -/
def epilogue (req : Request) (fullText : String) (lastMeta : Option Meta) :
    Option StopReason → Code (Option Bool)
  | some .interrupted => do
    let () ← writeSseDelta "\n\n---\n_Stopped at your request._\n" lastMeta
    pure none
  | some .stalled => do
    let () ← writeSseDelta "\n\n---\n_The model backend appears to have stalled. It's being automatically restarted -- please try again in about a minute._\n" lastMeta
    let () ← Program.perform (F := sig) .restartLlamaServer
    pure none
  | some _ => do
    let () ← writeSseDelta "\n\n---\n_The model backend closed the connection unexpectedly before answering (likely a momentary restart in progress) -- please try again._\n" lastMeta
    pure none
  | none => if req.verify then verifyAnswer req fullText lastMeta else pure none

/-- The notices of a question about Linux, and the run that tries its answer. -/
def writeNotices (fullText : String) (outcome : Option String) : Code Unit := do
  let () ← attempt (F := sig) (.write .notices) rfl
  only (outcome = some "success") do
    let run : Option (String × String) ← attempt (F := sig) (.startAdviceRun fullText) rfl
    match run with
    | some (id, token) => attempt (F := sig) (.write (.labRun id token)) rfl
    | none => pure ()

/-- The last lines. -/
def finishStream (req : Request) (fullText : String) (outcome : Option String) : Code Unit :=
  tryCatch
    (do
      let () ← only req.sources (attempt (F := sig) (.write .sources) rfl)
      let () ← only req.linuxAsk (writeNotices fullText outcome)
      attempt (F := sig) (.write .done) rfl)
    fun e =>
      match e with
      | .brokenPipe => pure ()
      | .other => throw e

/-- `outcome`, where the time of the question is known. -/
def outcomeOf (req : Request) (p : Progress) : Option String :=
  if req.started then
    some (match p.stop with
      | some stop => stop.name
      | none => if p.cutOff then "length_exhausted" else "success")
  else none

/-- `get` of `predicted_n` and of `predicted_per_second`: there is none where the timings are no
dictionary. -/
def rates : Option Json → Except Exn (Json × Json)
  | none => .ok (.null, .null)
  | some (.obj fields) => .ok (((Json.obj fields).get? "predicted_n").getD .null,
      ((Json.obj fields).get? "predicted_per_second").getD .null)
  | some _ => .error .other

/-- The statistics of an answer. -/
def reportStats (p : Progress) : Code Unit :=
  match p.timings with
  | some timings => do
    let rate : Json × Json ← Program.lift (rates (some timings))
    attempt (F := sig) (.recordLlmStats ((p.lastMeta.map (·.model)).getD .null) rate.1 rate.2) rfl
  | none => pure ()

/-- What an answer is followed by where the client has not gone. -/
def closeStream (req : Request) (p : Progress) (fullText : String) (outcome : Option String) : Code Unit := do
  let passed ← epilogue req fullText p.lastMeta p.stop
  let () ← only req.questionTruncatedForSearch (writeSseDelta "\n\n---\n_Your question was quite long, so it was shortened before searching for reference material -- this can make the answer above less reliable. For best results, paste just the most relevant part of a long error or log rather than the whole output._\n" p.lastMeta)
  let codeVerified := passed.map fun passed => if passed then "passed" else "failed"
  let rate : Json × Json ← Program.lift (rates p.timings)
  let () ← attempt (F := sig) (.logGrounding fullText codeVerified outcome rate.1 rate.2 p.rounds) rfl
  let () ← only req.sentinelHost (Program.perform (F := sig) .pushLlmStats)
  finishStream req fullText outcome

/-- The record of an answer. -/
def logOutcome (p : Progress) (fullText : String) (outcome : Option String) : Code Unit :=
  match outcome with
  | some name => do
    let rate : Json × Json ← Program.lift (rates p.timings)
    attempt (F := sig) (.logAskOutcome name fullText.length p.rounds rate.1 rate.2) rfl
  | none => pure ()

/-- From the end of the last relay to the end of the answer. -/
def conclude (req : Request) (p : Progress) : Code Unit := do
  let () ← only p.cutOff (writeSseDelta "\n\n_[This answer may still be incomplete — it kept hitting the model's context limit after several automatic continuations. Ask a follow-up if something's missing.]_\n" p.lastMeta)
  let () ← reportStats p
  let fullText := String.join p.texts
  let outcome := outcomeOf req p
  let () ← logOutcome p fullText outcome
  if p.stop = some .disconnected then pure () else closeStream req p fullText outcome

def relayAndVerifyStream (req : Request) : Code Unit := do
  let () ← attempt (F := sig) .header rfl
  let a : Answer ← attempt (F := sig) .relay rfl
  let () ← Program.perform (F := sig) .close
  let p ← continueRounds req.maxContinuationRounds.toNat (.start a)
  conclude req p

/-! ### What commands do -/

/-- What the client was sent, whether it has gone, the finish reason of the last relay, and the one that
each request for a continuation was made after. -/
structure World where
  log : List Sent
  gone : Bool
  last : Option Json
  asked : List (Option Json)

def World.init : World := ⟨[], false, none, []⟩

/-- The lines of the answer that were written to the client. -/
def World.lines (w : World) : List (List UInt8) :=
  w.log.filterMap fun
    | .line bytes => some bytes
    | _ => none

/-- What a relay does: the turn that ends it writes the last of these lines.  Where it goes smoothly the
answer can be read. -/
def Relays (cfg : Config) (smooth : Prop) (r : Except Exn Answer) (lines : List (List UInt8)) (gone : Bool) :
    Prop :=
  ∃ sock ticks t s, run { cfg with sock := sock } ticks = .on s ∧
    (turn { cfg with sock := sock } t s).state.sent = lines ∧ (smooth → t.fault ≠ some .other) ∧
    match turn { cfg with sock := sock } t s with
    | .on _ => False
    | .returned stop text s' =>
      r = .ok ⟨text, s'.heard.finishReason, stopReason stop, s'.heard.lastMeta, s'.heard.timings⟩ ∧
        gone = decide (stop = .disconnected)
    | .raised _ => r = .error .other ∧ gone = false

/-- What is outside raises nothing that is caught, and where it goes smoothly nothing at all. -/
def Outside {α : Type} (smooth : Prop) (r : Except Exn α) : Prop :=
  ∀ e, r = .error e → e = .other ∧ ¬smooth

/-- What a command may do.  A write fails only where the client has gone; `smooth` is whether everything
that the function calls goes smoothly. -/
def exec (cfg : Config) (smooth : Prop) (w : World) : (c : Cmd) → c.Ans → World → Prop
  | .header, .ok _, w' => w' = w
  | .header, .error _, w' => w' = { w with gone := true }
  | .write e, .ok _, w' => w' = { w with log := w.log ++ [e] }
  | .write _, .error _, w' => w' = { w with gone := true }
  | .relay, r, w' => ∃ lines gone, Relays cfg smooth r lines gone ∧
      w' = { w with
        log := w.log ++ lines.map .line
        gone := w.gone || gone
        last := r.toOption.bind (·.finishReason) }
  | .openUpstream _, r, w' => Outside smooth r ∧ w' = { w with asked := w.last :: w.asked }
  | .verifyAndMaybeFix .., r, w' =>
      Outside smooth r ∧ ∃ n, w' = { w with log := w.log ++ List.replicate n .heartbeat }
  | .recordLlmStats .., r, w' | .logAskOutcome .., r, w' | .captureExample, r, w' | .logGrounding .., r, w' =>
      Outside smooth r ∧ w' = w
  | .startAdviceRun _, r, w' => Outside smooth r ∧ w' = w
  | .close, _, w' | .restartLlamaServer, _, w' | .pushLlmStats, _, w' => w' = w

/-- There is one `[DONE]`, and it comes last. -/
def OneDone (log : List Sent) : Prop := ∃ front, log = front ++ [.done] ∧ ∀ e ∈ front, e.isDone = false

/-- The timings that are kept of some lines. -/
def lastTimings (cfg : Config) (lines : List (List UInt8)) : Option Json :=
  (lines.filterMap (timing cfg)).getLast?

/-- Each line that was written is taken up, and the last timings are a dictionary. -/
structure Understood (cfg : Config) (w : World) : Prop where
  safe : ∀ line ∈ w.lines, Safe cfg line
  rated : ∃ rate, rates (lastTimings cfg w.lines) = .ok rate

/-! ### What holds throughout -/

/-- A continuation was asked for at most so often, and only after `length`. -/
structure Measured (n : ℕ) (w : World) : Prop where
  few : w.asked.length ≤ n
  length : ∀ reason ∈ w.asked, reason = some (.str "length")

/-- Before the end: these are the timings, and where `G` holds the client has gone. -/
structure Open (cfg : Config) (n : ℕ) (G : Prop) (timings : Option Json) (w : World) : Prop
    extends Measured n w where
  log : ∀ e ∈ w.log, e.isDone = false
  gone : G → w.gone = true
  safe : ∀ line ∈ w.lines, Safe cfg line
  timings : lastTimings cfg w.lines = timings

/-- Where an exception is raised, the answer has no end. -/
structure Broken (cfg : Config) (smooth : Prop) (n : ℕ) (e : Exn) (w : World) : Prop extends Measured n w where
  log : ∀ e ∈ w.log, e.isDone = false
  why : w.gone = true ∨ ¬smooth ∨ ¬Understood cfg w
  pipe : e = .brokenPipe → w.gone = true

/-- The answer has its end, or the client has gone. -/
structure Closed (cfg : Config) (n : ℕ) (w : World) : Prop extends Measured n w where
  ended : w.gone = true ∨ OneDone w.log ∧ Understood cfg w

variable {cfg : Config} {smooth G G' : Prop} {n m : ℕ} {w w' : World} {T : Option Json} {e : Exn} {α β : Type}

theorem Measured.weaken (h : Measured n w) (hle : n ≤ m) : Measured m w := ⟨h.few.trans hle, h.length⟩

theorem Open.weaken (h : Open cfg n G T w) (hle : n ≤ m) (hG : G' → w.gone = true) : Open cfg m G' T w :=
  ⟨h.toMeasured.weaken hle, h.log, hG, h.safe, h.timings⟩

theorem Broken.weaken (h : Broken cfg smooth n e w) (hle : n ≤ m) : Broken cfg smooth m e w :=
  ⟨h.toMeasured.weaken hle, h.log, h.why, h.pipe⟩

/-- An exception that is not the client's. -/
theorem Open.broken (h : Open cfg n G T w) (he : e = .other) (hwhy : ¬smooth ∨ ¬Understood cfg w) :
    Broken cfg smooth n e w :=
  ⟨h.toMeasured, h.log, Or.inr hwhy, fun hpipe => by cases he.symm.trans hpipe⟩

/-- The client has gone. -/
theorem Open.leave (h : Open cfg n G T w) : Open cfg n G' T { w with gone := true } :=
  ⟨⟨h.few, h.length⟩, h.log, fun _ => rfl, h.safe, h.timings⟩

theorem Open.left (h : Open cfg n G T w) : Broken cfg smooth n e { w with gone := true } :=
  ⟨⟨h.few, h.length⟩, h.log, Or.inl rfl, fun _ => rfl⟩

/-- Whether something is neither a line of the answer nor the end. -/
def Sent.isAside : Sent → Bool
  | .line _ | .done => false
  | _ => true

theorem lines_append (w : World) (es : List Sent) : World.lines { w with log := w.log ++ es } =
    w.lines ++ World.lines { w with log := es } :=
  List.filterMap_append

theorem lines_asides {es : List Sent} (hes : ∀ e ∈ es, e.isAside = true) :
    World.lines { w with log := es } = [] := by
  refine List.filterMap_eq_nil_iff.mpr fun e he => ?_
  have haside := hes e he
  cases e with
  | line _ => cases haside
  | _ => rfl

theorem Open.append (h : Open cfg n G T w) {es : List Sent} (hes : ∀ e ∈ es, e.isAside = true) :
    Open cfg n G T { w with log := w.log ++ es } := by
  have hlines : World.lines { w with log := w.log ++ es } = w.lines := by
    rw [lines_append, lines_asides hes, List.append_nil]
  refine ⟨⟨h.few, h.length⟩, List.forall_mem_append.mpr ⟨h.log, fun e he => ?_⟩, h.gone, ?_, ?_⟩
  · have haside := hes e he
    cases e with
    | line _ | done => cases haside
    | _ => rfl
  · rw [hlines]
    exact h.safe
  · rw [hlines]
    exact h.timings

/-! ### Programs before the end -/

/-- A program before the end. -/
def Ongoing (cfg : Config) (smooth : Prop) (n : ℕ) (G : Prop) (T : Option Json) (p : Code α) : Prop :=
  ∀ w, Open cfg n G T w → Sure (exec cfg smooth) p (fun _ => Open cfg n G T) (Broken cfg smooth n) w

theorem ongoing_pure (a : α) : Ongoing cfg smooth n G T (pure a : Code α) := fun _ h => h

theorem Ongoing.bind {p : Code β} {f : β → Code α} (hp : Ongoing cfg smooth n G T p)
    (hf : ∀ b, Ongoing cfg smooth n G T (f b)) : Ongoing cfg smooth n G T (p >>= f) :=
  fun w h => Sure.bind (hp w h) fun b w' h' => hf b w' h'

theorem ongoing_ite {c : Prop} [Decidable c] {p q : Code α} (hp : Ongoing cfg smooth n G T p)
    (hq : Ongoing cfg smooth n G T q) : Ongoing cfg smooth n G T (if c then p else q) := by
  split
  · exact hp
  · exact hq

theorem ongoing_only {c : Prop} [Decidable c] {p : Code Unit} (hp : Ongoing cfg smooth n G T p) :
    Ongoing cfg smooth n G T (only c p) :=
  ongoing_ite hp (ongoing_pure ())

theorem ongoing_perform {c : Cmd} (hstep : ∀ w a w', exec cfg smooth w c a w' → w' = w) :
    Ongoing cfg smooth n G T (Program.perform (F := sig) c) :=
  fun w h => Program.sure_call fun a w' hx => hstep w a w' hx ▸ h

theorem ongoing_lift {r : Except Exn α} {a : α} (hr : r = .ok a) :
    Ongoing cfg smooth n G T (Program.lift r : Code α) := by
  subst hr
  exact ongoing_pure a

theorem ongoing_attempt {c : Cmd} (hans : sig.Ans c = Except Exn β)
    (hstep : ∀ w (a : sig.Ans c) w', Open cfg n G T w → exec cfg smooth w c a w' →
      Open cfg n G T w' ∧ ∀ e, (hans ▸ a : Except Exn β) = .error e → Broken cfg smooth n e w') :
    Ongoing cfg smooth n G T (attempt (F := sig) c hans) := by
  intro w h
  refine Program.sure_call fun a w' hx => ?_
  obtain ⟨hopen, hbroken⟩ := hstep w a w' h hx
  show Sure (F := sig) (exec cfg smooth) (Program.lift (hans ▸ a)) _ _ _
  generalize (hans ▸ a : Except Exn β) = r at hbroken ⊢
  cases r with
  | ok b => exact hopen
  | error e => exact hbroken e rfl

/-- What is outside may raise. -/
theorem Open.outside {r : Except Exn β} (h : Open cfg n G T w) (hr : Outside smooth r) :
    Open cfg n G T w ∧ ∀ e, r = .error e → Broken cfg smooth n e w :=
  ⟨h, fun e he => h.broken (hr e he).1 (Or.inl (hr e he).2)⟩

/-- A write, but not of the end. -/
theorem ongoing_write {e : Sent} (he : e.isAside = true) :
    Ongoing cfg smooth n G T (attempt (F := sig) (.write e) rfl) := by
  refine ongoing_attempt rfl fun w r w' h hx => ?_
  cases r with
  | ok _ =>
    obtain rfl := hx
    exact ⟨h.append (List.forall_mem_singleton.mpr he), nofun⟩
  | error e =>
    obtain rfl := hx
    exact ⟨h.leave, fun _ _ => h.left⟩

theorem ongoing_writeSseDelta (text : String) (lastMeta : Option Meta) :
    Ongoing cfg smooth n G T (writeSseDelta text lastMeta) := by
  intro w h
  have hwrite : Sure (F := sig) (exec cfg smooth) (attempt (F := sig) (.write (.delta text lastMeta)) rfl)
      (fun _ => Open cfg n G T) (fun e w => Broken cfg smooth n e w ∧ Open cfg n G T w) w := by
    refine Program.sure_call fun r w' hx => ?_
    cases r with
    | ok _ =>
      obtain rfl := hx
      exact h.append (List.forall_mem_singleton.mpr rfl)
    | error e =>
      obtain rfl := hx
      exact ⟨h.left, h.leave⟩
  refine Sure.catch hwrite fun e w' hbroken => ?_
  cases e with
  | brokenPipe => exact hbroken.2
  | other => exact hbroken.1

/-! ### The relays -/

/-- The lines that a relay writes are no ends; it fails only where a line is not taken up or the answer
cannot be read. -/
theorem relays_spec {r : Except Exn Answer} {lines : List (List UInt8)} {gone : Bool}
    (h : Relays cfg smooth r lines gone) :
    (∀ line ∈ lines, Relay.isDone line = false) ∧
      (∀ e, r = .error e → e = .other ∧ (¬smooth ∨ ∃ line ∈ lines, ¬Safe cfg line)) ∧
      ∀ a, r = .ok a → (∀ line ∈ lines, Safe cfg line) ∧ a.timings = lastTimings cfg lines ∧
        (a.stop = some .disconnected → gone = true) := by
  obtain ⟨sock, ticks, t, s, hrun, rfl, hfault, hend⟩ := h
  have hparted := parted t hrun
  have hraised := raised_iff t hrun
  refine ⟨fun line hline => (hparted.lines line hline).2, fun e he => ?_, fun a ha => ?_⟩
  · split at hend
    · exact hend.elim
    · cases hend.1.symm.trans he
    · next s' hturn =>
      refine ⟨Except.error.inj (he.symm.trans hend.1), or_iff_not_imp_left.mpr fun hs => ?_⟩
      by_contra hno
      have hsafe : ∀ line ∈ (turn { cfg with sock := sock } t s).state.sent, Safe { cfg with sock := sock } line :=
        fun line hline => not_not.mp fun h => hno ⟨line, hline, h⟩
      have hnot := hraised (fun _ _ => hfault (not_not.mp hs)) (fun s'' h => by cases hturn.symm.trans h)
      exact hnot.mpr hsafe s' hturn
  · split at hend
    · exact hend.elim
    · next stop text s' hturn =>
      obtain ⟨hr, rfl⟩ := hend
      obtain rfl := Except.ok.inj (ha.symm.trans hr)
      have hnot := hraised (fun s'' h => by cases hturn.symm.trans h) (fun s'' h => by cases hturn.symm.trans h)
      refine ⟨hnot.mp fun s'' h => (by cases hturn.symm.trans h), ?_, fun hstop => ?_⟩
      · have hheard := hparted.heard
        rw [hturn] at hheard ⊢
        exact (congrArg Heard.timings hheard).trans (timings_tell _)
      · cases stop with
        | disconnected => rfl
        | finished | interrupted | stalled => cases hstop
    · cases hend.1.symm.trans ha

theorem lines_lines (lines : List (List UInt8)) : World.lines { w with log := lines.map .line } = lines := by
  show (lines.map Sent.line).filterMap _ = lines
  rw [List.filterMap_map]
  exact List.filterMap_some

theorem lastTimings_append (before after : List (List UInt8)) :
    lastTimings cfg (before ++ after) = (lastTimings cfg after).or (lastTimings cfg before) := by
  rw [lastTimings, List.filterMap_append, List.getLast?_append]
  rfl

theorem sure_relay (h : Open cfg n False T w) : Sure (exec cfg smooth) (attempt (F := sig) .relay rfl)
    (fun a w' => Open cfg n (a.stop = some .disconnected) (a.timings.or T) w' ∧ w'.last = a.finishReason)
    (Broken cfg smooth n) w := by
  refine Program.sure_call fun r w' hx => ?_
  obtain ⟨lines, gone, hrelays, rfl⟩ := hx
  obtain ⟨hlines, herror, hok⟩ := relays_spec hrelays
  have hlog : ∀ e ∈ w.log ++ lines.map Sent.line, e.isDone = false :=
    List.forall_mem_append.mpr ⟨h.log, List.forall_mem_map.mpr fun line hline => hlines line hline⟩
  have hall : w.lines ++ lines = (w.log ++ lines.map Sent.line).filterMap fun
      | .line bytes => some bytes
      | _ => none := by
    refine Eq.trans ?_ (lines_append w _).symm
    rw [lines_lines]
  cases r with
  | ok a =>
    obtain ⟨hsafe, htimings, hgone⟩ := hok a rfl
    refine ⟨⟨⟨h.few, h.length⟩, hlog, ?_, ?_, ?_⟩, rfl⟩
    · exact fun hstop => Bool.or_eq_true_iff.mpr (Or.inr (hgone hstop))
    · show ∀ line ∈ List.filterMap _ _, _
      rw [← hall]
      exact List.forall_mem_append.mpr ⟨h.safe, hsafe⟩
    · show lastTimings cfg (List.filterMap _ _) = _
      rw [← hall, lastTimings_append, htimings, h.timings]
  | error e =>
    obtain ⟨rfl, hwhy⟩ := herror e rfl
    refine ⟨⟨h.few, h.length⟩, hlog, Or.inr (hwhy.imp_right ?_), nofun⟩
    rintro ⟨line, hline, hsafe⟩ hunderstood
    refine hsafe (hunderstood.safe line ?_)
    show line ∈ List.filterMap _ _
    rw [← hall]
    exact List.mem_append_right _ hline

/-- An answer that was cut off has the finish reason `length`. -/
theorem finishReason_of_cutOff {p : Progress} (h : p.cutOff = true) : p.finishReason = some (.str "length") := by
  obtain ⟨-, hany⟩ := Bool.and_eq_true_iff.mp h
  obtain ⟨reason, hreason, heq⟩ := (Option.any_eq_true ..).mp hany
  rw [hreason, Json.eq_str.mp heq]

/-- **Each round asks once, after `length`.** -/
theorem sure_continueRounds {rounds : ℕ} {p : Progress} {k : ℕ}
    (h : Open cfg k (p.stop = some .disconnected) p.timings w) (hlast : w.last = p.finishReason) :
    Sure (exec cfg smooth) (continueRounds rounds p)
      (fun p w' => Open cfg (k + rounds) (p.stop = some .disconnected) p.timings w')
      (Broken cfg smooth (k + rounds)) w := by
  induction rounds generalizing p k w with
  | zero => exact h
  | succ rounds ih =>
    rw [continueRounds]
    split
    · next hcut =>
      have hstop : p.stop = none := Option.isNone_iff_eq_none.mp (Bool.and_eq_true_iff.mp hcut).1
      refine sure_attempt rfl fun r w' hx => ?_
      obtain ⟨hr, rfl⟩ := hx
      have hasked : Open cfg (k + 1) False p.timings { w with asked := w.last :: w.asked } := by
        refine ⟨⟨Nat.succ_le_succ h.few, List.forall_mem_cons.mpr ⟨?_, h.length⟩⟩, h.log, False.elim, h.safe,
          h.timings⟩
        exact hlast.trans (finishReason_of_cutOff hcut)
      have hle : k + 1 ≤ k + (rounds + 1) := by omega
      cases r with
      | error e => exact ((hasked.outside hr).2 e rfl).weaken hle
      | ok opened =>
        cases opened with
        | false =>
          show Sure (F := sig) (exec cfg smooth) (writeSseDelta _ p.lastMeta >>= fun _ =>
            pure { p with rounds := p.rounds + 1 }) _ _ _
          refine Sure.bind (Sure.mono (ongoing_writeSseDelta _ _ _ hasked) (fun _ _ h' => h')
            fun e w' h' => h'.weaken hle) fun _ w' h' => ?_
          -- an answer that was cut off was not left by the client
          refine h'.weaken hle fun hgone => ?_
          rw [hstop] at hgone
          cases hgone
        | true =>
          show Sure (F := sig) (exec cfg smooth) (attempt (F := sig) .relay rfl >>= fun a =>
            Program.perform (F := sig) .close >>= fun _ => continueRounds rounds (p.next a)) _ _ _
          refine Sure.bind (Sure.mono (sure_relay hasked) (fun _ _ h' => h') fun e w' h' => h'.weaken hle) ?_
          rintro a w₁ ⟨h₁, hlast₁⟩
          refine sure_perform fun _ w₂ hx => ?_
          obtain rfl := hx
          rw [show k + (rounds + 1) = k + 1 + rounds by omega]
          exact ih h₁ hlast₁
    · exact h.weaken (Nat.le_add_right k _) h.gone

/-! ### The end -/

theorem ongoing_verify (language code : String) (input : Option String) :
    Ongoing cfg smooth n G T (attempt (F := sig) (.verifyAndMaybeFix language code input) rfl) := by
  refine ongoing_attempt rfl fun w r w' h hx => ?_
  obtain ⟨hr, k, rfl⟩ := hx
  exact (h.append fun e he => List.eq_of_mem_replicate he ▸ rfl).outside hr

theorem ongoing_verifyAnswer (req : Request) (fullText : String) (lastMeta : Option Meta) :
    Ongoing cfg smooth n G T (verifyAnswer req fullText lastMeta) := by
  unfold verifyAnswer
  split
  · refine (ongoing_verify _ _ _).bind fun r => (ongoing_writeSseDelta _ _).bind fun _ => ?_
    refine Ongoing.bind ?_ fun _ => ongoing_pure _
    exact ongoing_attempt rfl fun w r w' h hx => hx.2 ▸ h.outside hx.1
  · split
    · refine ongoing_ite ((ongoing_verify _ _ _).bind fun r => ?_) (ongoing_pure _)
      exact (ongoing_writeSseDelta _ _).bind fun _ => ongoing_pure _
    · exact ongoing_pure _

theorem ongoing_epilogue (req : Request) (fullText : String) (lastMeta : Option Meta)
    (stop : Option StopReason) : Ongoing cfg smooth n G T (epilogue req fullText lastMeta stop) := by
  unfold epilogue
  split
  · exact (ongoing_writeSseDelta _ _).bind fun _ => ongoing_pure _
  · refine (ongoing_writeSseDelta _ _).bind fun _ => Ongoing.bind ?_ fun _ => ongoing_pure _
    exact ongoing_perform fun w a w' hx => hx
  · exact (ongoing_writeSseDelta _ _).bind fun _ => ongoing_pure _
  · exact ongoing_ite (ongoing_verifyAnswer _ _ _) (ongoing_pure _)

theorem ongoing_writeNotices (fullText : String) (outcome : Option String) :
    Ongoing cfg smooth n G T (writeNotices fullText outcome) := by
  refine Ongoing.bind (ongoing_write rfl) fun _ => ongoing_only (Ongoing.bind ?_ fun run => ?_)
  · exact ongoing_attempt rfl fun w r w' h hx => hx.2 ▸ h.outside hx.1
  · split
    · exact ongoing_write rfl
    · exact ongoing_pure _

/-- **The end is written last, and once.** -/
theorem sure_finishStream {req : Request} {fullText : String} {outcome : Option String}
    (h : Open cfg n False T w) (hrate : ∃ rate, rates T = .ok rate) :
    Sure (exec cfg smooth) (finishStream req fullText outcome) (fun _ => Closed cfg n) (Broken cfg smooth n) w := by
  refine Sure.catch (D := fun e w => Broken cfg smooth n e w) ?_ fun e w' hbroken => ?_
  · refine Sure.bind (ongoing_only (ongoing_write rfl) w h) fun _ w₁ h₁ => ?_
    refine Sure.bind (ongoing_only (ongoing_writeNotices _ _) w₁ h₁) fun _ w₂ h₂ => ?_
    refine Program.sure_call fun r w₃ hx => ?_
    cases r with
    | ok _ =>
      obtain rfl := hx
      have hlines : World.lines { w₂ with log := w₂.log ++ [.done] } = w₂.lines := by
        rw [lines_append]
        exact List.append_nil _
      refine ⟨⟨h₂.few, h₂.length⟩, Or.inr ⟨⟨w₂.log, rfl, h₂.log⟩, ?_, ?_⟩⟩
      · rw [hlines]
        exact h₂.safe
      · rw [hlines, h₂.timings]
        exact hrate
    | error e =>
      obtain rfl := hx
      exact h₂.left
  · cases e with
    | brokenPipe => exact ⟨hbroken.toMeasured, Or.inl (hbroken.pipe rfl)⟩
    | other => exact hbroken

/-- After the statistics, the timings were a dictionary. -/
theorem sure_reportStats {p : Progress} (h : Open cfg n G p.timings w) :
    Sure (exec cfg smooth) (reportStats p)
      (fun _ w => Open cfg n G p.timings w ∧ ∃ rate, rates p.timings = .ok rate) (Broken cfg smooth n) w := by
  unfold reportStats
  cases htimings : p.timings with
  | none =>
    rw [htimings] at h
    exact ⟨h, _, rfl⟩
  | some timings =>
    rw [htimings] at h
    dsimp only
    cases hrate : rates (some timings) with
    | error e =>
      refine h.broken ?_ (Or.inr fun hunderstood => ?_)
      · unfold rates at hrate
        split at hrate <;> cases hrate
        rfl
      · obtain ⟨rate, hrate'⟩ := hunderstood.rated
        rw [h.timings] at hrate'
        cases hrate.symm.trans hrate'
    | ok rate =>
      have hrecord : Ongoing cfg smooth n G (some timings)
          (attempt (F := sig) (.recordLlmStats ((p.lastMeta.map (·.model)).getD .null) rate.1 rate.2) rfl) :=
        ongoing_attempt rfl fun w r w' h hx => hx.2 ▸ h.outside hx.1
      exact Sure.mono (hrecord w h) (fun _ _ h' => ⟨h', rate, rfl⟩) fun _ _ h' => h'

theorem ongoing_logOutcome {p : Progress} {rate : Json × Json} (hrate : rates p.timings = .ok rate)
    (fullText : String) (outcome : Option String) :
    Ongoing cfg smooth n G T (logOutcome p fullText outcome) := by
  unfold logOutcome
  split
  · refine (ongoing_lift hrate).bind fun _ => ?_
    exact ongoing_attempt rfl fun w r w' h hx => hx.2 ▸ h.outside hx.1
  · exact ongoing_pure _

theorem sure_closeStream {req : Request} {p : Progress} {fullText : String} {outcome : Option String}
    {rate : Json × Json} (h : Open cfg n False p.timings w) (hrate : rates p.timings = .ok rate) :
    Sure (exec cfg smooth) (closeStream req p fullText outcome) (fun _ => Closed cfg n) (Broken cfg smooth n) w := by
  unfold closeStream
  refine Sure.bind (ongoing_epilogue _ _ _ _ w h) fun passed w₁ h₁ => ?_
  refine Sure.bind (ongoing_only (ongoing_writeSseDelta _ _) w₁ h₁) fun _ w₂ h₂ => ?_
  refine Sure.bind (ongoing_lift hrate w₂ h₂) fun _ w₃ h₃ => ?_
  refine Sure.bind (ongoing_attempt rfl (fun w r w' h hx => hx.2 ▸ h.outside hx.1) w₃ h₃) fun _ w₄ h₄ => ?_
  have hpush : Ongoing cfg smooth n False p.timings (Program.perform (F := sig) .pushLlmStats) :=
    ongoing_perform fun _ _ _ hx => hx
  refine Sure.bind (ongoing_only hpush w₄ h₄) fun _ w₅ h₅ => ?_
  exact sure_finishStream h₅ ⟨rate, hrate⟩

theorem sure_conclude {req : Request} {p : Progress} (h : Open cfg n (p.stop = some .disconnected) p.timings w) :
    Sure (exec cfg smooth) (conclude req p) (fun _ => Closed cfg n) (Broken cfg smooth n) w := by
  unfold conclude
  refine Sure.bind (ongoing_only (ongoing_writeSseDelta _ _) w h) fun _ w₁ h₁ => ?_
  refine Sure.bind (sure_reportStats h₁) ?_
  rintro _ w₂ ⟨h₂, rate, hrate⟩
  refine Sure.bind (ongoing_logOutcome hrate _ _ w₂ h₂) fun _ w₃ h₃ => ?_
  split
  · next hstop => exact ⟨h₃.toMeasured, Or.inl (h₃.gone hstop)⟩
  · exact sure_closeStream (h₃.weaken le_rfl False.elim) hrate

/-- **A whole answer.** -/
theorem sure_relayAndVerifyStream (req : Request) :
    Sure (exec cfg smooth) (relayAndVerifyStream req) (fun _ => Closed cfg req.maxContinuationRounds.toNat)
      (Broken cfg smooth req.maxContinuationRounds.toNat) .init := by
  have hinit : Open cfg 0 False none .init := ⟨⟨le_rfl, nofun⟩, nofun, False.elim, nofun, rfl⟩
  unfold relayAndVerifyStream
  refine sure_attempt rfl fun r w hx => ?_
  cases r with
  | error e =>
    obtain rfl := hx
    exact hinit.left.weaken (Nat.zero_le _)
  | ok _ =>
    obtain rfl := hx
    show Sure (F := sig) (exec cfg smooth) (attempt (F := sig) .relay rfl >>= fun a =>
      Program.perform (F := sig) .close >>= fun _ =>
        continueRounds req.maxContinuationRounds.toNat (.start a) >>= conclude req) _ _ _
    refine Sure.bind (Sure.mono (sure_relay hinit) (fun _ _ h => h) fun e w h => h.weaken (Nat.zero_le _)) ?_
    rintro a w₁ ⟨h₁, hlast⟩
    refine sure_perform fun _ w₂ hx => ?_
    obtain rfl := hx
    rw [Option.or_none] at h₁
    have hstart : Open cfg 0 ((Progress.start a).stop = some .disconnected) (Progress.start a).timings w₂ := by
      refine h₁.weaken le_rfl fun hstop => h₁.gone ?_
      unfold Progress.start at hstop
      dsimp only at hstop
      split at hstop
      · cases hstop
      · exact hstop
    have hrounds := @sure_continueRounds cfg smooth _ req.maxContinuationRounds.toNat _ _ hstart hlast
    rw [Nat.zero_add] at hrounds
    exact Sure.bind hrounds fun p w₃ h₃ => sure_conclude h₃

theorem not_oneDone {log : List Sent} (h : ∀ e ∈ log, e.isDone = false) : ¬OneDone log := by
  rintro ⟨front, rfl, -⟩
  cases h .done (List.mem_append_right _ (List.mem_singleton_self _))

/-- **The promise for a relay is kept exactly if its lines are fine.  There are not too many
continuations, each after `length`; and where what is called goes smoothly and the client stays, there is
one end exactly if all lines are understood.** -/
theorem stream_iff (cfg : Config) :
    (∀ ticks t s, run cfg ticks = .on s → t.fault ≠ some .other →
      (Relayed cfg (arrived (ticks ++ [t])) (turn cfg t s) ↔
        ∀ line ∈ (turn cfg t s).state.sent, Fine cfg line)) ∧
    (∀ req r w, Ends (exec cfg False) .init (relayAndVerifyStream req) r w →
      w.asked.length ≤ req.maxContinuationRounds.toNat ∧
        ∀ reason ∈ w.asked, reason = some (.str "length")) ∧
    ∀ req r w, Ends (exec cfg True) .init (relayAndVerifyStream req) r w → w.gone = false →
      (OneDone w.log ↔ Understood cfg w) := by
  refine ⟨relayed_iff cfg, fun req r w h => ?_, fun req r w h hgone => ?_⟩
  · have hmeasured : Measured req.maxContinuationRounds.toNat w :=
      Sure.ends (Sure.mono (sure_relayAndVerifyStream req) (fun _ _ h => h.toMeasured)
        fun _ _ h => h.toMeasured) h
    exact ⟨hmeasured.few, hmeasured.length⟩
  · obtain ⟨hok, herror⟩ := Sure.result (sure_relayAndVerifyStream req) h
    cases r with
    | ok _ =>
      obtain hleft | ⟨hdone, hunderstood⟩ := (hok () rfl).ended
      · cases hleft.symm.trans hgone
      · exact iff_of_true hdone hunderstood
    | error e =>
      have hbroken := herror e rfl
      refine iff_of_false (not_oneDone hbroken.log) fun hunderstood => ?_
      obtain hleft | hsmooth | hnot := hbroken.why
      · cases hleft.symm.trans hgone
      · exact hsmooth trivial
      · exact hnot hunderstood

/-! ### An answer that is continued, and odd lines -/

/-- `json.loads`, of texts whose numbers have no fraction. -/
def loads (text : List Char) : Except Refusal Json :=
  (JsonText.loads (fun _ => .nan) 900 text).mapError fun _ => .decodeError

/-- A plain request, with one continuation at most. -/
def Request.plain : Request where
  maxContinuationRounds := 1
  enableVerification := false
  sentinelHost := false
  verify := false
  language := none
  studentCode := ""
  linuxAsk := false
  started := false
  questionTruncatedForSearch := false
  sources := false
  extractCode := fun _ _ => none
  extractStdinValue := fun _ => none

/-- A turn in which the connection is closed, and one in which the student stops the answer. -/
def Tick.closed : Tick := ⟨[], true, 0, false, false, none⟩

def Tick.stop : Tick := ⟨[], false, 0, true, false, none⟩

/-- The chunk of an answer that is cut off. -/
def cut : List UInt8 := Utf8.encode
  "data: \x7b\"choices\":[\x7b\"delta\":\x7b\"content\":\"a\"\x7d,\"finish_reason\":\"length\"\x7d]\x7d\n".toList

/-- Whether a relay gives back this chunk and no more. -/
def isCut : Outcome → Bool
  | .returned .finished text s =>
    text == "a" && s.sent == [cut] && s.heard.timings.isNone &&
      s.heard.finishReason.any (·.eq (.str "length"))
  | _ => false

/-- The chunk is relayed, and the connection is closed behind it. -/
theorem relays_cut : ∃ s, run (.ofLoads loads) (cut.map fun b => .ofBytes [b]) = .on s ∧
    (turn (.ofLoads loads) Tick.closed s).state.sent = [cut] ∧
    ∃ m, ∀ smooth, Relays (.ofLoads loads) smooth (.ok ⟨"a", some (.str "length"), none, m, none⟩) [cut]
      false := by
  have heval : (run (.ofLoads loads) (cut.map fun b => .ofBytes [b])).onIs
      (fun s => isCut (turn (.ofLoads loads) Tick.closed s)) = true := by
    decide +kernel
  obtain ⟨s, hrun, hs⟩ := Outcome.onIs_iff.mp heval
  unfold isCut at hs
  split at hs
  · next text s' hturn =>
    simp only [Bool.and_eq_true, beq_iff_eq, Option.isNone_iff_eq_none] at hs
    obtain ⟨⟨⟨rfl, hsent⟩, htimings⟩, hlength⟩ := hs
    have hreason := finishReason_of_cutOff (p := ⟨[], s'.heard.finishReason, none, none, none, 0⟩) hlength
    have hstate : (turn (.ofLoads loads) Tick.closed s).state.sent = [cut] := by
      rw [hturn]
      exact hsent
    refine ⟨s, hrun, hstate, s'.heard.lastMeta, fun smooth =>
      ⟨true, _, Tick.closed, s, hrun, hstate, fun _ => nofun, ?_⟩⟩
    rw [show turn { Config.ofLoads loads with sock := true } Tick.closed s = _ from hturn, ← hreason, ← htimings]
    exact ⟨rfl, rfl⟩
  · cases hs

/-- An answer that is cut off is continued; stopped then, it ends with a note and with `[DONE]`. -/
theorem ends_stopped : ∃ m, ∀ smooth,
    Ends (exec (.ofLoads loads) smooth) .init (relayAndVerifyStream .plain) (.ok ())
      ⟨[.line cut, .delta "\n\n---\n_Stopped at your request._\n" m, .done], false, none,
        [some (.str "length")]⟩ := by
  obtain ⟨_, _, _, m, hcut⟩ := relays_cut
  refine ⟨m, fun smooth => ?_⟩
  have hstop : Relays (.ofLoads loads) smooth (.ok ⟨"", none, some .interrupted, none, none⟩) [] false :=
    ⟨true, [], Tick.stop, .init, rfl, rfl, fun _ => nofun, rfl, rfl⟩
  refine .call (F := sig) (c := .header) (a := .ok ()) rfl ?_
  refine .call (F := sig) (c := .relay) (a := .ok _) ⟨_, false, hcut smooth, rfl⟩ ?_
  refine .call (F := sig) (c := .close) (a := ()) rfl ?_
  refine .call (F := sig) (c := .openUpstream "a") (a := .ok true) ⟨nofun, rfl⟩ ?_
  refine .call (F := sig) (c := .relay) (a := .ok _) ⟨_, false, hstop, rfl⟩ ?_
  refine .call (F := sig) (c := .close) (a := ()) rfl ?_
  refine .call (F := sig) (c := .write (.delta _ m)) (a := .ok ()) rfl ?_
  refine .call (F := sig) (c := .logGrounding _ _ _ _ _ _) (a := .ok ()) ⟨nofun, rfl⟩ ?_
  exact .call (F := sig) (c := .write .done) (a := .ok ()) rfl .ret

/-- A chunk that is relayed, and an answer that is continued and then stopped. -/
theorem stream_iff_continued :
    (∃ s, (turn (.ofLoads loads) Tick.closed s).state.sent = [cut] ∧
      (Relayed (.ofLoads loads) (arrived ((cut.map fun b => .ofBytes [b]) ++ [Tick.closed]))
        (turn (.ofLoads loads) Tick.closed s) ↔
        ∀ line ∈ (turn (.ofLoads loads) Tick.closed s).state.sent, Fine (.ofLoads loads) line)) ∧
    ∃ w, w.lines = [cut] ∧ w.asked.length ≤ 1 ∧ (∀ reason ∈ w.asked, reason = some (.str "length")) ∧
      (OneDone w.log ↔ Understood (.ofLoads loads) w) := by
  obtain ⟨s, hrun, hsent, -⟩ := relays_cut
  obtain ⟨m, hends⟩ := ends_stopped
  obtain ⟨hrelayed, hmeasured, hdone⟩ := stream_iff (.ofLoads loads)
  obtain ⟨hfew, hlength⟩ := hmeasured .plain _ _ (hends False)
  exact ⟨⟨s, hsent, hrelayed _ Tick.closed s hrun nofun⟩, _, rfl, hfew, hlength,
    hdone .plain _ _ (hends True) rfl⟩

/-- A choice that is no dictionary. -/
def odd : List UInt8 := Utf8.encode "data: \x7b\"choices\":[\"x\"]\x7d".toList

/-- A finish reason beside a delta that is `null`. -/
def hidden : List UInt8 :=
  Utf8.encode "data: \x7b\"choices\":[\x7b\"delta\":null,\"finish_reason\":\"length\"\x7d]\x7d\n".toList

def isRaised : Outcome → Bool
  | .raised _ => true
  | _ => false

theorem eq_raised_of_isRaised {o : Outcome} (h : isRaised o = true) : o = .raised o.state := by
  cases o with
  | raised s => rfl
  | _ => exact absurd h Bool.false_ne_true

/-- The relay of such a choice breaks off, after it was written. -/
theorem odd_raised : ∃ s s', run (.ofLoads loads) (odd.map fun b => .ofBytes [b]) = .on s ∧
    turn (.ofLoads loads) (.ofBytes [newline]) s = .raised s' ∧ s'.sent = [odd ++ [newline]] := by
  have heval : (run (.ofLoads loads) (odd.map fun b => .ofBytes [b])).onIs (fun s =>
      let o := turn (.ofLoads loads) (.ofBytes [newline]) s
      isRaised o && o.state.sent == [odd ++ [newline]]) = true := by decide +kernel
  obtain ⟨s, hrun, hs⟩ := Outcome.onIs_iff.mp heval
  obtain ⟨hraised, hsent⟩ := Bool.and_eq_true_iff.mp hs
  have hturn := eq_raised_of_isRaised hraised
  exact ⟨s, _, hrun, hturn, beq_iff_eq.mp hsent⟩

/-- **A choice that is no dictionary ends the relay, and then the answer has no end; and beside a delta
that is `null` the finish reason is hidden.** -/
theorem not_stream :
    (∃ s s', run (.ofLoads loads) (odd.map fun b => .ofBytes [b]) = .on s ∧
      turn (.ofLoads loads) (.ofBytes [newline]) s = .raised s') ∧
    (∀ req, ∃ r w, Ends (exec (.ofLoads loads) True) .init (relayAndVerifyStream req) r w ∧ w.gone = false ∧
      ¬OneDone w.log) ∧ ¬Heeded (.ofLoads loads) hidden := by
  obtain ⟨s, s', hrun, hturn, hsent⟩ := odd_raised
  refine ⟨⟨s, s', hrun, hturn⟩, fun req => ?_, fun h => ?_⟩
  · have hrelays : Relays (.ofLoads loads) True (.error .other) [odd ++ [newline]] false := by
      refine ⟨true, _, .ofBytes [newline], s, hrun, ?_, fun _ => nofun, ?_⟩
      · exact (congrArg (fun o => o.state.sent) hturn).trans hsent
      · rw [show turn { Config.ofLoads loads with sock := true } (.ofBytes [newline]) s = .raised s' from hturn]
        exact ⟨rfl, rfl⟩
    refine ⟨.error .other, ⟨[.line (odd ++ [newline])], false, none, []⟩, ?_, rfl, ?_⟩
    · refine .call (F := sig) (c := .header) (a := .ok ()) rfl ?_
      exact .call (F := sig) (c := .relay) (a := .error .other) ⟨_, false, hrelays, rfl⟩ .raise
    · refine not_oneDone (List.forall_mem_singleton.mpr ?_)
      show Relay.isDone _ = false
      decide +kernel
  · have heval : ((finish (.ofLoads loads) hidden).isSome &&
        (hear (.ofLoads loads) hidden .empty).any (fun heard => heard.1.finishReason.isNone)) = true := by
      decide +kernel
    obtain ⟨heard, content, hhear, hfinish⟩ := h .empty
    obtain ⟨hsome, hnone⟩ := Bool.and_eq_true_iff.mp heval
    obtain ⟨reason, hreason⟩ := Option.isSome_iff_exists.mp hsome
    rw [hreason] at hfinish
    rw [hhear, Option.any_some, hfinish] at hnone
    cases hnone

end Stream
end Relay
end CloudCore
