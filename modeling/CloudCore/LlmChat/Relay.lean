import CloudCore.Formats.Ended
import CloudCore.Python.Buffered
import CloudCore.Python.Json
import CloudCore.Python.Utf8
import Mathlib.Data.List.Induction

/-!
# Relaying an answer

`_relay_one_stream` of `verify_proxy.py`: an answer of the model comes as lines, each is sent on as it
is, and what it says is kept.  One turn of its loop is one step; what comes from outside meanwhile is a
`Tick`.

## Main definitions

* `hear` — what one line says, with the exceptions that are caught around it.
* `turn`, `run` — a turn of the loop, and a run from its beginning.
* `Prompt` — nothing that is there is kept back.

## Main results

* `prompt_iff` — **nothing is kept back exactly if what is in the buffer has no line end**, and how much
  is in the buffer depends on the sizes of what arrives alone.
* `not_prompt` — two lines that arrive together.
-/

namespace CloudCore
namespace Relay

open Formats Python

/-! ### Lines -/

def newline : UInt8 := 10

/-- `line.decode(errors="replace").strip()`. -/
def textOf (line : List UInt8) : List Char := stripBy isSpace (Utf8.decodeReplace line)

/-- `text[len("data: "):]`, of a text that begins so. -/
def payload? (text : List Char) : Option (List Char) :=
  if "data: ".toList.isPrefixOf text then some (text.drop 6) else none

def isDone (line : List UInt8) : Bool := payload? (textOf line) == some "[DONE]".toList

/-! ### What a line says -/

/-- How `json.loads` fails: with a `JSONDecodeError`, or with an exception that is not caught. -/
inductive Refusal where
  | decodeError
  | other
  deriving DecidableEq

/-- `id`, `model` and `system_fingerprint` of a chunk. -/
structure Meta where
  id : Json
  model : Json
  systemFingerprint : Json

/-- What has been kept of the lines. -/
structure Heard where
  /-- `accumulated`: not only strings are put there. -/
  accumulated : List Json
  finishReason : Option Json
  lastMeta : Option Meta
  timings : Option Json

def Heard.empty : Heard := ⟨[], none, none, none⟩

/-- `obj["choices"][0]`; nothing where it raises `KeyError`, `IndexError` or `TypeError`. -/
def firstChoice (obj : Json) : Option Json :=
  match obj.get? "choices" with
  | some (.arr items) => items.head?
  | some (.str s) => s.toList.head?.map fun c => .str c.toString
  | _ => none

/-- `"content" in delta and delta["content"]`, where it is true the content; an error where it raises
`TypeError`. -/
def content? (delta : Json) : Except Unit (Option Json) :=
  match delta with
  | .obj _ => .ok ((delta.get? "content").filter Json.truthy)
  | .arr items => if items.any (·.eq (.str "content")) then .error () else .ok none
  | .str s => if s.toList.tails.any ("content".toList.isPrefixOf ·) then .error () else .ok none
  | _ => .error ()

/-- `choice.get("delta", {})`. -/
def deltaOf (choice : Json) : Json := (choice.get? "delta").getD (.obj [])

/-- `choice.get("finish_reason")`, where it is true. -/
def finishOf (choice : Json) : Option Json := (choice.get? "finish_reason").filter Json.truthy

def metaOf (obj : Json) : Meta :=
  ⟨(obj.get? "id").getD .null, (obj.get? "model").getD .null, (obj.get? "system_fingerprint").getD .null⟩

/-- What is kept of a chunk whose choice is a dictionary. -/
def Heard.add (h : Heard) (obj choice : Json) (content : Option Json) : Heard where
  accumulated := h.accumulated ++ content.toList
  finishReason := (finishOf choice).or h.finishReason
  lastMeta := some (metaOf obj)
  timings := ((obj.get? "timings").filter Json.truthy).or h.timings

/-- What the chunk in a line says, and whether it has content.  `none` is an exception that is not
caught. -/
def hearObject (obj : Json) (h : Heard) : Option (Heard × Bool) :=
  match firstChoice obj with
  | none => some (h, false)
  | some choice =>
    match choice with
    | .obj _ =>
      match content? (deltaOf choice) with
      | .error _ => some (h, false)
      | .ok content => some (h.add obj choice content, content.isSome)
    -- there is no `get`, and an `AttributeError` is not caught
    | _ => none

structure Config where
  /-- `json.loads`. -/
  loads : List Char → Except Refusal Json
  /-- Whether there is a socket to wait for. -/
  sock : Bool
  /-- `GENERATION_STALL_TIMEOUT_S`, in the unit of the clock. -/
  stallTimeout : ℤ

/-- What a line says. -/
def hear (cfg : Config) (line : List UInt8) (h : Heard) : Option (Heard × Bool) :=
  match payload? (textOf line) with
  | none => some (h, false)
  | some payload =>
    match cfg.loads payload with
    | .error .decodeError => some (h, false)
    | .error .other => none
    | .ok obj => hearObject obj h

/-! ### The loop -/

/-- How `resp.read(1)` may fail. -/
inductive Fault where
  /-- A `socket.timeout` or an `OSError`. -/
  | os
  | other
  deriving DecidableEq

/-- What happens outside in one turn. -/
structure Tick where
  arrives : List UInt8
  closes : Bool
  elapsed : ℕ
  interrupted : Bool
  /-- The client is gone: nothing can be written to it. -/
  gone : Bool
  fault : Option Fault

inductive Stop where
  | finished
  | interrupted
  | disconnected
  | stalled
  deriving DecidableEq

structure State where
  reader : Reader UInt8
  /-- The beginning of a line. -/
  buf : List UInt8
  /-- The lines that were written to the client. -/
  sent : List (List UInt8)
  heard : Heard
  now : ℕ
  lastContent : ℕ

def State.init : State := ⟨.empty, [], [], .empty, 0, 0⟩

/-- The strings among the values. -/
def str? : Json → Option String
  | .str s => some s
  | _ => none

/-- `"".join(accumulated)`; nothing where it raises. -/
def join (accumulated : List Json) : Option String :=
  (accumulated.mapM str?).map fun l => String.join l

inductive Outcome where
  | on (s : State)
  | returned (stop : Stop) (text : String) (s : State)
  | raised (s : State)

/-- The end of the loop. -/
def State.leave (s : State) (stop : Stop) : Outcome :=
  match join s.heard.accumulated with
  | some text => .returned stop text s
  | none => .raised s

/-- Nothing came in this turn. -/
def State.wait (cfg : Config) (s : State) : Outcome :=
  if cfg.stallTimeout < s.now - s.lastContent then s.leave .stalled else .on s

/-- A whole line is there. -/
def State.takeLine (cfg : Config) (t : Tick) (s : State) : Outcome :=
  if isDone s.buf then s.leave .finished
  else if t.gone then s.leave .disconnected
  else
    let s' := { s with sent := s.sent ++ [s.buf], buf := [] }
    match hear cfg s.buf s.heard with
    | none => .raised s'
    | some (heard, content) =>
      .on { s' with heard := heard, lastContent := if content then s.now else s.lastContent }

/-- A byte is taken. -/
def State.take (s : State) (b : UInt8) (reader : Reader UInt8) : State :=
  { s with reader := reader, buf := s.buf ++ [b] }

/-- `resp.read(1)`, and what it leads to. -/
def State.read (cfg : Config) (t : Tick) (s : State) : Outcome :=
  match t.fault with
  | some .os => s.wait cfg
  | some .other => .raised s
  | none =>
    match s.reader.read1 with
    | (.blocked, _) => .on s
    | (.eof, _) => s.leave .finished
    | (.byte b, reader) =>
      if b = newline then (s.take b reader).takeLine cfg t else .on (s.take b reader)

/-- Time passes, and something may arrive. -/
def State.receive (t : Tick) (s : State) : State :=
  { s with now := s.now + t.elapsed, reader := s.reader.receive t.arrives t.closes }

/-- One turn of the loop. -/
def turn (cfg : Config) (t : Tick) (s : State) : Outcome :=
  let s := s.receive t
  if t.interrupted then s.leave .interrupted
  else if cfg.sock && !s.reader.ready then s.wait cfg
  else s.read cfg t

/-- The turns, as long as the loop goes on. -/
def Outcome.run (cfg : Config) : List Tick → Outcome → Outcome
  | t :: ticks, .on s => Outcome.run cfg ticks (turn cfg t s)
  | _, o => o

/-- A run of the loop. -/
def run (cfg : Config) (ticks : List Tick) : Outcome := .run cfg ticks (.on .init)

/-! ### What a turn does -/

variable {cfg : Config} {t : Tick} {s s' : State} {ticks : List Tick}

/-- The turn waits for the socket, and there is nothing on it. -/
def Idle (cfg : Config) (t : Tick) (s : State) : Prop :=
  t.interrupted = false ∧ cfg.sock = true ∧ (s.receive t).reader.ready = false

/-- The branches of a turn, in the state after what has arrived in it. -/
inductive Branch (cfg : Config) (t : Tick) (s : State) : Outcome → Prop where
  | interrupted : t.interrupted = true → Branch cfg t s ((s.receive t).leave .interrupted)
  | idle : Idle cfg t s → Branch cfg t s ((s.receive t).wait cfg)
  | fault : t.fault = some .os → Branch cfg t s ((s.receive t).wait cfg)
  | raised : t.fault = some .other → Branch cfg t s (.raised (s.receive t))
  | blocked : cfg.sock = false → Branch cfg t s (.on (s.receive t))
  | eof : (s.receive t).reader.held = [] → Branch cfg t s ((s.receive t).leave .finished)
  | byte {b : UInt8} {reader : Reader UInt8} : (s.receive t).reader.read1 = (.byte b, reader) →
      (cfg.sock = true → (s.receive t).reader.ready = true) → b ≠ newline →
      Branch cfg t s (.on ((s.receive t).take b reader))
  | line {reader : Reader UInt8} : (s.receive t).reader.read1 = (.byte newline, reader) →
      (cfg.sock = true → (s.receive t).reader.ready = true) →
      Branch cfg t s (((s.receive t).take newline reader).takeLine cfg t)

theorem branch (cfg : Config) (t : Tick) (s : State) : Branch cfg t s (turn cfg t s) := by
  unfold turn
  dsimp only
  split
  · next hinterrupted => exact .interrupted hinterrupted
  · next hinterrupted =>
    replace hinterrupted := (Bool.not_eq_true _).mp hinterrupted
    split
    · next hidle =>
      obtain ⟨hsock, hready⟩ := Bool.and_eq_true_iff.mp hidle
      exact .idle ⟨hinterrupted, hsock, (Bool.not_eq_true' _).mp hready⟩
    · next hidle =>
      have hready : cfg.sock = true → (s.receive t).reader.ready = true := fun hsock => by
        simpa [hsock] using hidle
      unfold State.read
      split
      · next hfault => exact .fault hfault
      · next hfault => exact .raised hfault
      · obtain ⟨b, reader, hread, -⟩ | ⟨hheld, hread⟩ := (s.receive t).reader.read1_cases
        · rw [hread]
          dsimp only
          split
          · next hb =>
            obtain rfl := hb
            exact .line hread hready
          · next hb => exact .byte hread hready hb
        · rw [hread]
          cases hclosed : (s.receive t).reader.closed with
          | true => exact .eof hheld
          | false =>
            refine .blocked ((Bool.not_eq_true _).mp fun hsock => ?_)
            have hnot := (Reader.ready_iff _).mpr ⟨(List.append_eq_nil_iff.mp hheld).2, hclosed⟩
            exact Bool.false_ne_true (hnot.symm.trans (hready hsock))

theorem leave_ne_on {stop : Stop} : s.leave stop ≠ .on s' := by
  unfold State.leave
  split <;> exact nofun

theorem wait_on (h : s.wait cfg = .on s') : s' = s := by
  unfold State.wait at h
  split at h
  · exact absurd h leave_ne_on
  · exact (Outcome.on.inj h).symm

/-- What is written to the client, and what is kept of it. -/
theorem takeLine_on (h : s.takeLine cfg t = .on s') : isDone s.buf = false ∧
    ∃ heard content, hear cfg s.buf s.heard = some (heard, content) ∧
      s' = { s with
        sent := s.sent ++ [s.buf]
        buf := []
        heard := heard
        lastContent := if content then s.now else s.lastContent } := by
  unfold State.takeLine at h
  split at h
  · exact absurd h leave_ne_on
  · next hdone =>
    split at h
    · exact absurd h leave_ne_on
    · dsimp only at h
      split at h
      · cases h
      · next heard content hhear =>
        exact ⟨(Bool.not_eq_true _).mp hdone, heard, content, hhear, (Outcome.on.inj h).symm⟩

/-- **A turn after which the loop goes on**: it has waited, or it has taken a byte, and with a line end
the line. -/
inductive Goes (cfg : Config) (t : Tick) (s : State) : State → Prop where
  | wait : (cfg.sock = true → t.fault = none → Idle cfg t s) → Goes cfg t s (s.receive t)
  | byte {b : UInt8} {reader : Reader UInt8} : (s.receive t).reader.read1 = (.byte b, reader) →
      (cfg.sock = true → (s.receive t).reader.ready = true) → b ≠ newline →
      Goes cfg t s ((s.receive t).take b reader)
  | line {reader : Reader UInt8} {heard : Heard} {content : Bool} :
      (s.receive t).reader.read1 = (.byte newline, reader) →
      (cfg.sock = true → (s.receive t).reader.ready = true) → isDone (s.buf ++ [newline]) = false →
      hear cfg (s.buf ++ [newline]) s.heard = some (heard, content) →
      Goes cfg t s
        { (s.receive t).take newline reader with
          sent := s.sent ++ [s.buf ++ [newline]]
          buf := []
          heard := heard
          lastContent := if content then (s.receive t).now else s.lastContent }

theorem goes (h : turn cfg t s = .on s') : Goes cfg t s s' := by
  have hbranch := branch cfg t s
  rw [h] at hbranch
  generalize ho : Outcome.on s' = o at hbranch
  cases hbranch with
  | interrupted _ => exact absurd ho.symm leave_ne_on
  | idle hidle =>
    obtain rfl := wait_on ho.symm
    exact .wait fun _ _ => hidle
  | fault hfault =>
    obtain rfl := wait_on ho.symm
    exact .wait fun _ hnone => by rw [hnone] at hfault; cases hfault
  | raised _ => cases ho
  | blocked hsock =>
    cases ho
    exact .wait fun h => absurd (hsock.symm.trans h) Bool.false_ne_true
  | eof _ => exact absurd ho.symm leave_ne_on
  | byte hread hready hb =>
    cases ho
    exact .byte hread hready hb
  | line hread hready =>
    obtain ⟨hdone, heard, content, hhear, rfl⟩ := takeLine_on ho.symm
    exact .line hread hready hdone hhear

/-! ### What has arrived -/

/-- What has arrived. -/
def arrived (ticks : List Tick) : List UInt8 := ticks.flatMap (·.arrives)

/-- The clock. -/
def clock (ticks : List Tick) : ℕ := (ticks.map (·.elapsed)).sum

theorem arrived_concat (ticks : List Tick) (t : Tick) : arrived (ticks ++ [t]) = arrived ticks ++ t.arrives := by
  rw [arrived, List.flatMap_append, List.flatMap_singleton]
  rfl

theorem clock_append (before after : List Tick) : clock (before ++ after) = clock before + clock after := by
  rw [clock, List.map_append, List.sum_append]
  rfl

/-- Nothing of what has arrived is lost or written twice: lines that were written, the beginning of one,
and what has not been read. -/
structure Sound (bytes : List UInt8) (s : State) : Prop where
  bytes : bytes = s.sent.flatten ++ (s.buf ++ s.reader.held)
  lines : ∀ l ∈ s.sent, IsLine newline l ∧ isDone l = false
  buf : newline ∉ s.buf

theorem sound_init : Sound [] .init := ⟨rfl, nofun, List.not_mem_nil⟩

theorem Sound.receive {bytes : List UInt8} (h : Sound bytes s) (t : Tick) :
    Sound (bytes ++ t.arrives) (s.receive t) := by
  refine ⟨?_, h.lines, h.buf⟩
  show _ = s.sent.flatten ++ (s.buf ++ (s.reader.receive t.arrives t.closes).held)
  rw [Reader.held_receive, h.bytes, List.append_assoc, List.append_assoc]

theorem held_of_read {r r' : Reader UInt8} {b : UInt8} (h : r.read1 = (.byte b, r')) :
    r.held = b :: r'.held := by
  obtain ⟨b', r'', hread, hheld⟩ | ⟨-, hread⟩ := r.read1_cases
  · rw [hread] at h
    cases h
    exact hheld
  · rw [hread] at h
    obtain ⟨hgot, -⟩ := Prod.mk.inj h
    split at hgot <;> cases hgot

/-- A turn keeps this. -/
theorem Sound.turn {bytes : List UInt8} (h : Sound bytes s) (hturn : turn cfg t s = .on s') :
    Sound (bytes ++ t.arrives) s' := by
  have hrec := h.receive t
  cases goes hturn with
  | wait _ => exact hrec
  | byte hread _ hb =>
    refine ⟨?_, h.lines, ?_⟩
    · rw [hrec.bytes, held_of_read hread]
      show _ = s.sent.flatten ++ (s.buf ++ [_] ++ _)
      rw [List.append_assoc, List.singleton_append]
      rfl
    · show newline ∉ s.buf ++ [_]
      exact fun hmem => (List.mem_append.mp hmem).elim h.buf fun hsep => hb (List.mem_singleton.mp hsep).symm
  | line hread _ hdone hhear =>
    refine ⟨?_, ?_, List.not_mem_nil⟩
    · rw [hrec.bytes, held_of_read hread, List.flatten_append, List.flatten_singleton, List.nil_append]
      show s.sent.flatten ++ (s.buf ++ _) = _
      rw [List.append_assoc, List.append_assoc, List.singleton_append]
      rfl
    · exact List.forall_mem_append.mpr ⟨h.lines, List.forall_mem_singleton.mpr ⟨⟨s.buf, h.buf, rfl⟩, hdone⟩⟩

/-! ### Runs -/

theorem run_cons_of_stopped {o : Outcome} (ho : ∀ s, o ≠ .on s) (ticks : List Tick) :
    Outcome.run cfg ticks o = o := by
  cases ticks with
  | nil => cases o <;> rfl
  | cons t ticks =>
    cases o with
    | on s => exact absurd rfl (ho s)
    | returned stop text s => rfl
    | raised s => rfl

theorem run_append (before after : List Tick) (o : Outcome) :
    Outcome.run cfg (before ++ after) o = Outcome.run cfg after (Outcome.run cfg before o) := by
  induction before generalizing o with
  | nil => cases o <;> rfl
  | cons t before ih =>
    cases o with
    | on s => exact ih _
    | returned stop text s => exact (run_cons_of_stopped (fun s h => by cases h) after).symm
    | raised s => exact (run_cons_of_stopped (fun s h => by cases h) after).symm

theorem run_single (t : Tick) (s : State) : Outcome.run cfg [t] (.on s) = turn cfg t s := by
  rw [Outcome.run]
  cases turn cfg t s <;> rfl

/-- The last turn of a run. -/
theorem run_concat (ticks : List Tick) (t : Tick) :
    (∃ s, run cfg ticks = .on s ∧ run cfg (ticks ++ [t]) = turn cfg t s) ∨
      (∀ s, run cfg ticks ≠ .on s) ∧ run cfg (ticks ++ [t]) = run cfg ticks := by
  have happend : run cfg (ticks ++ [t]) = Outcome.run cfg [t] (run cfg ticks) := run_append ticks [t] _
  cases hbefore : run cfg ticks with
  | on s =>
    rw [hbefore, run_single] at happend
    exact Or.inl ⟨s, rfl, happend⟩
  | returned stop text s =>
    rw [hbefore] at happend
    exact Or.inr ⟨(fun s h => by cases h), happend⟩
  | raised s =>
    rw [hbefore] at happend
    exact Or.inr ⟨(fun s h => by cases h), happend⟩

/-- **A property of every state that a run comes to,** from what a turn keeps. -/
theorem run_induction {P : List Tick → State → Prop} (hinit : P [] .init)
    (hturn : ∀ ticks t s s', run cfg ticks = .on s → P ticks s → turn cfg t s = .on s' →
      P (ticks ++ [t]) s') (hrun : run cfg ticks = .on s) : P ticks s := by
  induction ticks using List.reverseRecOn generalizing s with
  | nil =>
    cases hrun
    exact hinit
  | append_singleton ticks t ih =>
    obtain ⟨s₁, hbefore, hlast⟩ | ⟨hstopped, hlast⟩ := @run_concat cfg ticks t
    · exact hturn ticks t s₁ s hbefore (ih hbefore) (hlast.symm.trans hrun)
    · exact absurd (hlast.symm.trans hrun) (hstopped s)

theorem sound_run (hrun : run cfg ticks = .on s) : Sound (arrived ticks) s :=
  run_induction (P := fun ticks s => Sound (arrived ticks) s) sound_init
    (fun ticks t _ _ _ h hturn => arrived_concat ticks t ▸ h.turn hturn) hrun

/-! ### What is kept back -/

/-- How much is in the buffer and on the socket, from how much has arrived in each turn alone. -/
def counts (ticks : List Tick) : Reader.Counts :=
  ticks.foldl (fun c t => c.turn t.arrives.length t.closes) ⟨0, 0, false⟩

theorem counts_concat (ticks : List Tick) (t : Tick) :
    counts (ticks ++ [t]) = (counts ticks).turn t.arrives.length t.closes := by
  rw [counts, List.foldl_append]
  rfl

/-- Where nothing is in the buffer, all that arrives in a turn is moved there, but for its first byte. -/
theorem counts_segment (h : (counts ticks).buffered = 0 ∧ (counts ticks).waiting = 0) (t : Tick) :
    (counts (ticks ++ [t])).buffered = t.arrives.length - 1 ∧ (counts (ticks ++ [t])).waiting = 0 := by
  obtain ⟨hbuffered, hwaiting⟩ := h
  rw [counts_concat, Reader.Counts.turn, hbuffered, hwaiting]
  split
  · next hnone =>
    have hzero : t.arrives.length - 1 = 0 := by omega
    exact ⟨hzero.symm, rfl⟩
  · exact ⟨congrArg (· - 1) (Nat.zero_add _), rfl⟩

/-- So nothing is in the buffer where each turn brings one byte at most. -/
theorem counts_of_single (h : ∀ t ∈ ticks, t.arrives.length ≤ 1) :
    (counts ticks).buffered = 0 ∧ (counts ticks).waiting = 0 := by
  induction ticks using List.reverseRecOn with
  | nil => exact ⟨rfl, rfl⟩
  | append_singleton ticks t ih =>
    obtain ⟨hticks, ht⟩ := List.forall_mem_append.mp h
    obtain ⟨hbuffered, hwaiting⟩ := counts_segment (ih hticks) t
    have hone : t.arrives.length ≤ 1 := ht t (List.mem_singleton_self t)
    exact ⟨hbuffered.trans (by omega), hwaiting⟩

theorem counts_run (hsock : cfg.sock = true) (hfault : ∀ t ∈ ticks, t.fault = none)
    (hrun : run cfg ticks = .on s) : counts ticks = s.reader.counts := by
  refine run_induction (P := fun ticks s => (∀ t ∈ ticks, t.fault = none) → counts ticks = s.reader.counts)
    (fun _ => rfl) ?_ hrun hfault
  intro ticks t s s' _ ih hturn hfault
  obtain ⟨hfault, hlast⟩ := List.forall_mem_append.mp hfault
  rw [counts_concat, ih hfault, Reader.counts_turn]
  cases goes hturn with
  | wait hidle =>
    exact if_pos (hidle hsock (hlast t (List.mem_singleton_self t))).2.2
  | byte hread hready _ =>
    rw [if_neg (by rw [show (s.reader.receive t.arrives t.closes).ready = true from hready hsock]; decide)]
    exact congrArg (fun r => r.2.counts) hread
  | line hread hready _ _ =>
    rw [if_neg (by rw [show (s.reader.receive t.arrives t.closes).ready = true from hready hsock]; decide)]
    exact congrArg (fun r => r.2.counts) hread

/-- Where nothing is on the socket, the last bytes that have arrived are in the buffer: as many as the
counts say. -/
theorem drop_arrived (hfault : ∀ t ∈ ticks, t.fault = none) (hrun : run cfg ticks = .on s)
    (hidle : Idle cfg t s) :
    (arrived ticks).drop ((arrived ticks).length - (counts ticks).buffered) = s.reader.buffer := by
  have hsocket : s.reader.socket = [] :=
    (List.append_eq_nil_iff.mp ((Reader.ready_iff _).mp hidle.2.2).1).1
  have hbytes := (sound_run hrun).bytes
  rw [Reader.held, hsocket, List.append_nil, ← List.append_assoc] at hbytes
  rw [counts_run hidle.2.1 hfault hrun, hbytes, List.length_append]
  exact List.drop_left' (Nat.add_sub_cancel ..).symm

/-! ### Content -/

/-- Whether a line has content. -/
def hasContent (cfg : Config) (line : List UInt8) : Bool := (hear cfg line .empty).any (·.2)

/-- What a line says does not depend on what was said before. -/
theorem hasContent_of_hear {line : List UInt8} {h heard : Heard} {content : Bool}
    (hhear : hear cfg line h = some (heard, content)) : hasContent cfg line = content := by
  have hobject : ∀ obj, hearObject obj h = some (heard, content) →
      (hearObject obj .empty).any (·.2) = content := by
    intro obj hobj
    unfold hearObject at hobj ⊢
    split at hobj
    · cases hobj
      rfl
    · split at hobj
      · split at hobj
        · cases hobj
          rfl
        · cases hobj
          rfl
      · cases hobj
  unfold hasContent hear at *
  split at hhear
  · cases hhear
    rfl
  · split at hhear
    · cases hhear
      rfl
    · cases hhear
    · exact hobject _ hhear

/-- The lines with content. -/
def contents (cfg : Config) (lines : List (List UInt8)) : List (List UInt8) := lines.filter (hasContent cfg)

/-- When content was last heard, all content that has been written to the client had arrived. -/
def Fresh (cfg : Config) (ticks : List Tick) (s : State) : Prop :=
  s.now = clock ticks ∧ ∃ before, before <+: ticks ∧ s.lastContent = clock before ∧
    ∃ lines, lines <+: ended newline (arrived before) ∧ contents cfg lines = contents cfg s.sent

theorem clock_concat (ticks : List Tick) (t : Tick) : clock (ticks ++ [t]) = clock ticks + t.elapsed := by
  rw [clock_append]
  exact congrArg (clock ticks + ·) (Nat.add_zero t.elapsed)

theorem fresh_run (hrun : run cfg ticks = .on s) : Fresh cfg ticks s := by
  refine run_induction ⟨rfl, [], List.prefix_rfl, rfl, [], List.nil_prefix, rfl⟩ ?_ hrun
  rintro ticks t s s' hbefore ⟨hnow, before, hpre, hlast, lines, hlines, hcontents⟩ hturn
  have hclock : (s.receive t).now = clock (ticks ++ [t]) := by
    rw [clock_concat, ← hnow]
    rfl
  have hlonger : before <+: ticks ++ [t] := hpre.trans (List.prefix_append ticks [t])
  have hsound := arrived_concat ticks t ▸ (sound_run hbefore).turn hturn
  cases goes hturn with
  | wait _ => exact ⟨hclock, before, hlonger, hlast, lines, hlines, hcontents⟩
  | byte _ _ _ => exact ⟨hclock, before, hlonger, hlast, lines, hlines, hcontents⟩
  | @line reader heard content _ _ _ hhear =>
    cases hcontent : content with
    | true =>
      refine ⟨hclock, ticks ++ [t], List.prefix_rfl, hclock, _, ?_, rfl⟩
      rw [hsound.bytes, ended_flatten fun l hl => (hsound.lines l hl).1]
      exact List.prefix_append _ _
    | false =>
      refine ⟨hclock, before, hlonger, hlast, lines, hlines, hcontents.trans ?_⟩
      have hline : hasContent cfg (s.buf ++ [newline]) = false :=
        (hasContent_of_hear hhear).trans hcontent
      rw [contents, contents, List.filter_append, List.filter_singleton, hline]
      exact (List.append_nil _).symm

/-- **Nothing that is there is kept back,** where the loop waits and nothing is ready. -/
structure Prompt (cfg : Config) (ticks : List Tick) (t : Tick) (s : State) : Prop where
  /-- There is no whole line in the buffer. -/
  line : newline ∉ s.buf ++ (s.receive t).reader.buffer
  /-- Every line that has arrived was written to the client. -/
  sent : s.sent = ended newline (arrived (ticks ++ [t]))
  /-- A stall is only where no content has arrived for so long. -/
  stalled : ∀ text s', turn cfg t s = .returned .stalled text s' → ∀ before, before <+: ticks ++ [t] →
    ((clock (ticks ++ [t]) : ℤ) - clock before ≤ cfg.stallTimeout) →
    contents cfg (ended newline (arrived before)) = contents cfg (ended newline (arrived (ticks ++ [t])))

theorem turn_idle (hidle : Idle cfg t s) : turn cfg t s = (s.receive t).wait cfg := by
  obtain ⟨hinterrupted, hsock, hready⟩ := hidle
  unfold turn
  dsimp only
  rw [if_neg (by rw [hinterrupted]; decide), if_pos (by rw [hsock, hready]; decide)]

theorem leave_returned {stop stop' : Stop} {text : String} (h : s.leave stop = .returned stop' text s') :
    stop' = stop ∧ s' = s ∧ join s.heard.accumulated = some text := by
  unfold State.leave at h
  split at h
  · next hjoin =>
    cases h
    exact ⟨rfl, rfl, hjoin⟩
  · cases h

theorem wait_returned {stop : Stop} {text : String} (h : s.wait cfg = .returned stop text s') :
    stop = .stalled ∧ cfg.stallTimeout < (s.now : ℤ) - s.lastContent := by
  unfold State.wait at h
  split at h
  · next hlate => exact ⟨(leave_returned h).1, hlate⟩
  · cases h

/-- Only a turn in which nothing is ready ends with a stall. -/
theorem idle_of_stalled (hfault : t.fault = none) {text : String}
    (h : turn cfg t s = .returned .stalled text s') : Idle cfg t s := by
  have hbranch := branch cfg t s
  rw [h] at hbranch
  generalize ho : Outcome.returned .stalled text s' = o at hbranch
  cases hbranch with
  | interrupted _ => cases (leave_returned ho.symm).1
  | idle hidle => exact hidle
  | fault hos =>
    rw [hfault] at hos
    cases hos
  | raised _ => cases ho
  | blocked _ => cases ho
  | eof _ => cases (leave_returned ho.symm).1
  | byte _ _ _ => cases ho
  | line _ _ =>
    unfold State.takeLine at ho
    split at ho
    · cases (leave_returned ho.symm).1
    · split at ho
      · cases (leave_returned ho.symm).1
      · dsimp only at ho
        split at ho <;> cases ho

/-- Where no line is kept back, every line that has arrived was written. -/
theorem sent_of_line (hrun : run cfg ticks = .on s) (hidle : Idle cfg t s)
    (hline : newline ∉ s.buf ++ (s.receive t).reader.buffer) :
    s.sent = ended newline (arrived (ticks ++ [t])) := by
  have hsound := (sound_run hrun).receive t
  have hnone : ended newline ((s.receive t).buf ++ (s.receive t).reader.buffer) = [] :=
    ended_of_not_mem hline
  rw [arrived_concat, hsound.bytes, ended_flatten fun l hl => (hsound.lines l hl).1,
    Reader.held_of_not_ready hidle.2.2, hnone, List.append_nil]
  rfl

/-- Then a stall is only where no content has arrived for so long. -/
theorem stalled_of_sent (hrun : run cfg ticks = .on s) (hidle : Idle cfg t s)
    (hsent : s.sent = ended newline (arrived (ticks ++ [t]))) {text : String}
    (hturn : turn cfg t s = .returned .stalled text s') {before : List Tick} (hpre : before <+: ticks ++ [t])
    (hlate : (clock (ticks ++ [t]) : ℤ) - clock before ≤ cfg.stallTimeout) :
    contents cfg (ended newline (arrived before)) = contents cfg (ended newline (arrived (ticks ++ [t]))) := by
  obtain ⟨hnow, last, hlast, hclock, lines, hlines, hcontents⟩ := fresh_run hrun
  obtain ⟨-, hlong⟩ := wait_returned ((turn_idle hidle).symm.trans hturn)
  have hwhen : (s.receive t).now = clock (ticks ++ [t]) := by
    rw [clock_concat, ← hnow]
    rfl
  rw [hwhen, show (s.receive t).lastContent = clock last from hclock] at hlong
  -- the content that was heard last had arrived before
  have hearlier : last <+: before := by
    obtain h | ⟨more, rfl⟩ :=
      List.prefix_or_prefix_of_prefix (hlast.trans (List.prefix_append ticks [t])) hpre
    · exact h
    · have hmore := clock_append before more
      omega
  have harrived : ∀ {x y : List Tick}, x <+: y →
      contents cfg (ended newline (arrived x)) <+: contents cfg (ended newline (arrived y)) := by
    rintro x _ ⟨y, rfl⟩
    rw [arrived, arrived, List.flatMap_append]
    exact (ended_of_append _ _).filter _
  refine (harrived hpre).eq_of_length_le ?_
  calc (contents cfg (ended newline (arrived (ticks ++ [t])))).length
      = (contents cfg lines).length := by rw [← hsent, hcontents]
    _ ≤ (contents cfg (ended newline (arrived last))).length := (hlines.filter _).length_le
    _ ≤ (contents cfg (ended newline (arrived before))).length := (harrived hearlier).length_le

/-- **Where nothing is ready, nothing is kept back exactly if there is no line end among the last bytes
that have arrived: as many as are in the buffer,** which the sizes of what arrived in each turn say. -/
theorem prompt_iff (cfg : Config) (ticks : List Tick) (t : Tick) (s : State)
    (hrun : run cfg ticks = .on s) (hfault : ∀ t' ∈ ticks ++ [t], t'.fault = none) :
    (Idle cfg t s → (Prompt cfg ticks t s ↔
      newline ∉ (arrived ticks).drop ((arrived ticks).length - (counts ticks).buffered))) ∧
      ∀ text s', turn cfg t s = .returned .stalled text s' → Idle cfg t s := by
  obtain ⟨hbefore, hlast⟩ := List.forall_mem_append.mp hfault
  refine ⟨fun hidle => ?_, fun text s' => idle_of_stalled (hlast t (List.mem_singleton_self t))⟩
  rw [drop_arrived hbefore hrun hidle]
  have hbuf := (sound_run hrun).buf
  constructor
  · exact fun h hmem => h.line (List.mem_append_right s.buf hmem)
  · intro h
    have hline : newline ∉ s.buf ++ (s.receive t).reader.buffer := fun hmem =>
      (List.mem_append.mp hmem).elim hbuf h
    have hsent := sent_of_line hrun hidle hline
    exact ⟨hline, hsent, fun text s' hturn before hpre => stalled_of_sent hrun hidle hsent hturn hpre⟩

/-! ### Lines that arrive together -/

/-- A turn in which this arrives. -/
def Tick.ofBytes (arrives : List UInt8) : Tick := ⟨arrives, false, 0, false, false, none⟩

/-- A stall is declared after 120 seconds. -/
def Config.ofLoads (loads : List Char → Except Refusal Json) : Config := ⟨loads, true, 120⟩

/-- Whether the loop goes on, in such a state. -/
def Outcome.onIs (p : State → Bool) : Outcome → Bool
  | .on s => p s
  | _ => false

theorem Outcome.onIs_iff {p : State → Bool} {o : Outcome} :
    o.onIs p = true ↔ ∃ s, o = .on s ∧ p s = true := by
  cases o with
  | on s => exact ⟨fun h => ⟨s, rfl, h⟩, fun ⟨_, heq, h⟩ => Outcome.on.inj heq ▸ h⟩
  | returned stop text s => exact iff_of_false Bool.false_ne_true fun ⟨_, heq, _⟩ => Outcome.noConfusion heq
  | raised s => exact iff_of_false Bool.false_ne_true fun ⟨_, heq, _⟩ => Outcome.noConfusion heq

/-- A line with content. -/
def contentLine : List UInt8 := Utf8.encode
  "data: \x7b\"choices\":[\x7b\"delta\":\x7b\"content\":\"hi\"\x7d\x7d]\x7d\n".toList

/-- What `json.loads` gives for it. -/
def reads (_ : List Char) : Except Refusal Json :=
  .ok (.obj [("choices", .arr [.obj [("delta", .obj [("content", .str "hi")])]])])

/-- A line that arrives byte by byte, and then nothing: it is there at once. -/
theorem prompt_iff_content : ∃ s, run (.ofLoads reads) (contentLine.map fun b => .ofBytes [b]) = .on s ∧
    contents (.ofLoads reads) s.sent = [contentLine] ∧
    Prompt (.ofLoads reads) (contentLine.map fun b => .ofBytes [b]) (.ofBytes []) s := by
  have hon : (run (.ofLoads reads) (contentLine.map fun b => .ofBytes [b])).onIs (fun s =>
      decide (contents (.ofLoads reads) s.sent = [contentLine] ∧ s.reader.socket = [] ∧
        s.reader.closed = false)) = true := by
    with_unfolding_all decide
  obtain ⟨s, hrun, hs⟩ := Outcome.onIs_iff.mp hon
  obtain ⟨hcontents, hsocket, hclosed⟩ := of_decide_eq_true hs
  have hidle : Idle (.ofLoads reads) (.ofBytes []) s := by
    refine ⟨rfl, rfl, (Reader.ready_iff _).mpr ⟨?_, ?_⟩⟩
    · exact (List.append_nil _).trans hsocket
    · exact (Bool.or_false _).trans hclosed
  have hcounts : (counts (contentLine.map fun b => .ofBytes [b])).buffered = 0 ∧ _ :=
    counts_of_single (List.forall_mem_map.mpr fun _ _ => le_rfl)
  refine ⟨s, hrun, hcontents, ((prompt_iff _ _ _ s hrun ?_).1 hidle).mpr ?_⟩
  · exact List.forall_mem_append.mpr
      ⟨List.forall_mem_map.mpr fun _ _ => rfl, List.forall_mem_singleton.mpr rfl⟩
  · rw [hcounts.1, Nat.sub_zero, List.drop_length]
    exact List.not_mem_nil

/-- An answer of one word, and its end. -/
def word : List UInt8 := contentLine ++ Utf8.encode "\ndata: [DONE]\n\n".toList

/-- What arrives at once is moved to the buffer, and one byte of it is read. -/
theorem run_at_once (loads : List Char → Except Refusal Json) {b : UInt8} (hb : b ≠ newline)
    (rest : List UInt8) : run (.ofLoads loads) [.ofBytes (b :: rest)] =
      .on ⟨⟨[], rest, false⟩, [b], [], .empty, 0, 0⟩ := by
  rw [run, run_single]
  exact if_neg hb

/-- **An answer that arrives at once stays in the buffer, and the loop ends with a stall.** -/
theorem not_prompt : ∃ ticks t s, ∀ loads, run (.ofLoads loads) ticks = .on s ∧ Idle (.ofLoads loads) t s ∧
    ¬Prompt (.ofLoads loads) ticks t s ∧ ∃ s', turn (.ofLoads loads) t s = .returned .stalled "" s' := by
  obtain ⟨b, rest, hword⟩ := List.exists_cons_of_ne_nil (show word ≠ [] by decide)
  have hb : (word.head? != some newline) = true := by decide
  have hend : newline ∈ word.tail := by decide
  rw [hword] at hb hend
  have hne : b ≠ newline := fun h => by
    rw [h] at hb
    cases hb
  refine ⟨[.ofBytes (b :: rest)], ⟨[], false, 121, false, false, none⟩,
    ⟨⟨[], rest, false⟩, [b], [], .empty, 0, 0⟩, fun loads => ?_⟩
  have hidle : Idle (.ofLoads loads) ⟨[], false, 121, false, false, none⟩
      ⟨⟨[], rest, false⟩, [b], [], .empty, 0, 0⟩ := ⟨rfl, rfl, rfl⟩
  have hlate : (120 : ℤ) < ((0 + 121 : ℕ) : ℤ) - (0 : ℕ) := by decide
  exact ⟨run_at_once loads hne rest, hidle, fun h => h.line (List.mem_cons_of_mem b hend), _,
    (turn_idle hidle).trans (if_pos hlate)⟩

end Relay
end CloudCore
