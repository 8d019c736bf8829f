import CloudCore.Builds.GgufMeta
import CloudCore.Formats.Logged

/-!
# The layer count of any file

`gguf_meta.py` on bytes of whatever kind.  The reader writes down what it meets.  `memory` is what
`f.read` can be asked for, and `frames` what the interpreter leaves to the calls below `block_count`.

## Main definitions

* `Logged.blockCount` — the reader, and `events`, its log.
* `Event.Fine` — what the reader can deal with.
* `visits`, `hollow` — the values it visits, and those of which the file has not one byte.

## Main results

* `Logged.blockCount_eq` — the log changes nothing.
* `visits_le` — **the values that are visited are at most as many as the bytes and the hollow values.**
* `robust_iff` — **an answer is given if and only if the reader can deal with what it meets, and the
  visits are linear in the length of the file as far as the hollow values are.**
-/

namespace CloudCore
namespace GgufMeta

open Formats Formats.Binary Python

/-- What the reader meets. -/
inductive Event where
  /-- A value of this type, with the bytes that are left of the file. -/
  | visit (vtype left : ℕ)
  /-- A text of this length. -/
  | text (n : ℕ)
  /-- A call that is too deep. -/
  | deep
  /-- A text is the answer. -/
  | answerText
  deriving DecidableEq

def isType (vtype : ℕ) : Bool := vtype == 8 || vtype == 9 || (scalarSize vtype).isSome

/-- What the reader can deal with: a type that it knows, a text for which there is memory. -/
def Event.Fine (memory : ℕ) : Event → Prop
  | .visit vtype _ => isType vtype = true
  | .text n => n ≤ memory
  | .deep => False
  | .answerText => False

instance (memory : ℕ) : DecidablePred (Event.Fine memory)
  | .visit vtype _ => inferInstanceAs (Decidable (isType vtype = true))
  | .text n => inferInstanceAs (Decidable (n ≤ memory))
  | .deep => inferInstanceAs (Decidable False)
  | .answerText => inferInstanceAs (Decidable False)

def Event.isVisit : Event → Bool
  | .visit _ _ => true
  | _ => false

/-- A value of which the file has not one byte. -/
def Event.isHollow : Event → Bool
  | .visit _ 0 => true
  | _ => false

/-- An error that `block_count` does not catch. -/
def Uncaught (e : Failure) : Prop := e ≠ .struct

namespace Logged

open Binary.Logged

/-- A reader of a file, with its log. -/
abbrev Code (α : Type) := Binary.Logged Event Failure α

variable (memory : ℕ)

/-- `f.read(n)`; `MemoryError`, if there is no memory for it, is an overflow as well. -/
def read (n : ℕ) : Reader Failure (List UInt8) :=
  if n ≤ memory then fun bytes => .ok (bytes.take n, bytes.drop n) else fail .overflow

def tooDeep {α : Type} : Code α := note (fun _ => .deep) >>= fun _ => lift (fail .recursion)

def visit {α : Type} (vtype : ℕ) (t : Code α) : Code α :=
  note (fun bytes => .visit vtype bytes.length) >>= fun _ => t

def readStr : ℕ → Code (List Char)
  | 0 => tooDeep
  | _ + 1 => do
    let n ← lift (unpack 8)
    note (fun _ => .text n) >>= fun _ => do
      let bytes ← lift (read memory n)
      pure (Utf8.decodeReplace bytes)

def skipValue : ℕ → ℕ → Code Unit
  | 0, vtype => visit vtype tooDeep
  | frames + 1, vtype =>
    if vtype = 8 then visit vtype do
      let _ ← readStr memory frames
      pure ()
    else if vtype = 9 then visit vtype do
      let elemType ← lift (unpack 4)
      let count ← lift (unpack 8)
      times count (skipValue frames elemType)
    else
      match scalarSize vtype with
      | some size => visit vtype do
        let _ ← lift (GgufMeta.read size)
        pure ()
      | none => visit vtype (lift (fail (.unknownType vtype)))

/-- A number of an answer. -/
def number (vtype : ℕ) (r : Reader Failure ℤ) : Code (Option Answer) :=
  visit vtype do
    let z ← lift r
    pure (some (.int z))

/-- `struct.unpack` of a number without a sign. -/
def unpackNat (size : ℕ) : Reader Failure ℤ := do
  let n ← unpack size
  pure (n : ℤ)

/-- `_read_scalar`.  What it leaves to `_skip_value` is visited there. -/
def readScalar : ℕ → ℕ → Code (Option Answer)
  | 0, vtype => visit vtype tooDeep
  | frames + 1, vtype =>
    if vtype = 8 then visit vtype do
      let s ← readStr memory frames
      note (fun _ => .answerText) >>= fun _ => pure (some (.str s))
    else if vtype = 4 ∨ vtype = 10 then number vtype (unpackNat (if vtype = 4 then 4 else 8))
    else if vtype = 5 ∨ vtype = 11 then number vtype (unpackSigned (if vtype = 5 then 4 else 8))
    else if vtype = 2 then number vtype (unpackNat 2)
    else if vtype = 3 then number vtype (unpackSigned 2)
    else do
      skipValue memory frames vtype
      pure none

/-- The pairs of the header, up to the layer count. -/
def search (frames : ℕ) : ℕ → Code (Option Answer)
  | 0 => pure none
  | n + 1 => do
    let key ← readStr memory frames
    let vtype ← lift (unpack 4)
    if isBlockCount key then readScalar memory frames vtype
    else do
      skipValue memory frames vtype
      search frames n

def readHeader (frames : ℕ) : Code (Option Answer) := do
  let start ← lift (GgufMeta.read 4)
  if start ≠ magic then pure none
  else do
    let _version ← lift (unpack 4)
    let _tensorCount ← lift (unpack 8)
    let kvCount ← lift (unpack 8)
    search memory frames kvCount

/-- `block_count`, of the bytes of a file. -/
def blockCount (frames : ℕ) (file : List UInt8) : Except Failure (Option Answer) :=
  match (readHeader memory frames file).2 with
  | .ok (result, _) => .ok result
  | .error .struct => .ok none
  | .error e => .error e

end Logged

/-- What is met in a file: the type tags and the text lengths that stand in it, in their order, up to the
first block count, the end, or what the reader cannot deal with. -/
def events (memory frames : ℕ) (file : List UInt8) : List Event :=
  (Logged.readHeader memory frames file).1

/-- The values that are visited. -/
def visits (memory frames : ℕ) (file : List UInt8) : ℕ := (events memory frames file).countP Event.isVisit

/-- Those of which the file has not one byte. -/
def hollow (memory frames : ℕ) (file : List UInt8) : ℕ := (events memory frames file).countP Event.isHollow

/-- An integer is the answer, or that there is none. -/
def Answers (memory frames : ℕ) (file : List UInt8) : Prop :=
  ∃ answer : Option ℤ, Logged.blockCount memory frames file = .ok (answer.map .int)

/-- The answer, after visits linear in the length of the file. -/
def Robust (memory frames c : ℕ) (file : List UInt8) : Prop :=
  Answers memory frames file ∧ visits memory frames file ≤ c * (file.length + 1)

/-- The reader can deal with what it meets, and the hollow values are linear in the length. -/
def Sane (memory frames c : ℕ) (file : List UInt8) : Prop :=
  (∀ event ∈ events memory frames file, event.Fine memory) ∧
    hollow memory frames file ≤ c * (file.length + 1)

/-! ### The log changes nothing -/

namespace Logged

open Binary.Logged

section

variable {memory : ℕ} (hmemory : memory + 1 = 2 ^ 63)

include hmemory

theorem read_eq (n : ℕ) : read memory n = GgufMeta.read n := by
  unfold read GgufMeta.read
  by_cases hn : n ≤ memory
  · rw [if_pos hn, if_pos (by omega)]
  · rw [if_neg hn, if_neg (by omega)]

omit hmemory in
theorem forget_visit {α : Type} (vtype : ℕ) (t : Code α) : forget (visit vtype t) = forget t := rfl

theorem forget_readStr (frames : ℕ) : forget (readStr memory frames) = GgufMeta.readStr frames := by
  cases frames with
  | zero => rfl
  | succ frames =>
    simp only [readStr, forget_bind, forget_lift, read_eq hmemory]
    rfl

theorem forget_skipValue (frames vtype : ℕ) :
    forget (skipValue memory frames vtype) = GgufMeta.skipValue frames vtype := by
  induction frames generalizing vtype with
  | zero => rfl
  | succ frames ih =>
    simp only [skipValue, GgufMeta.skipValue, forget_ite, forget_visit, forget_bind, forget_lift,
      forget_times, forget_pure, forget_readStr hmemory, ih]
    cases scalarSize vtype with
    | none => rfl
    | some size => simp only [forget_visit, forget_bind, forget_lift, forget_pure]

theorem forget_readScalar (frames vtype : ℕ) :
    forget (readScalar memory frames vtype) = GgufMeta.readScalar frames vtype := by
  cases frames with
  | zero => rfl
  | succ frames =>
    simp only [readScalar, GgufMeta.readScalar, number, forget_ite, forget_visit, forget_bind,
      forget_lift, forget_pure, forget_note, forget_readStr hmemory, forget_skipValue hmemory, unpackNat,
      bind_assoc, pure_bind]

theorem forget_search (frames n : ℕ) : forget (search memory frames n) = GgufMeta.search frames n := by
  induction n with
  | zero => rfl
  | succ n ih =>
    unfold search GgufMeta.search
    simp only [forget_bind, forget_readStr hmemory, forget_lift]
    congr 1
    funext key
    congr 1
    funext vtype
    split
    · exact forget_readScalar hmemory frames vtype
    · rw [forget_bind, forget_skipValue hmemory, ih]

/-- **The log changes nothing.** -/
theorem blockCount_eq (frames : ℕ) (file : List UInt8) :
    blockCount memory frames file = GgufMeta.blockCount frames (some file) := by
  have hheader : forget (readHeader memory frames) = GgufMeta.readHeader frames := by
    unfold readHeader GgufMeta.readHeader
    simp only [forget_bind, forget_lift]
    congr 1
    funext start
    split
    · rfl
    · simp only [forget_bind, forget_lift, forget_search hmemory]
  have hfile : (readHeader memory frames file).2 = GgufMeta.readHeader frames file :=
    congrFun hheader file
  unfold blockCount GgufMeta.blockCount
  exact hfile ▸ rfl

end

end Logged

/-! ### Small readers -/

/-- A reader that takes some bytes, or fails with `struct.error`. -/
def Takes {α : Type} (r : Reader Failure α) : Prop :=
  ∀ bytes, r bytes = .error .struct ∨ ∃ a n, 0 < n ∧ r bytes = .ok (a, bytes.drop n)

section

variable {α β : Type} {r : Reader Failure α} {size : ℕ}

theorem Takes.map (hr : Takes r) (f : α → β) :
    Takes (do
      let a ← r
      pure (f a)) := by
  intro bytes
  change (r bytes >>= fun p => pure (f p.1, p.2)) = _ ∨ ∃ a n, 0 < n ∧
    (r bytes >>= fun p => pure (f p.1, p.2)) = _
  rcases hr bytes with h | ⟨a, n, hn, h⟩
  · exact .inl (by rw [h]; rfl)
  · exact .inr ⟨f a, n, hn, by rw [h]; rfl⟩

theorem takes_read (hpos : 0 < size) (hsize : size < 2 ^ 63) : Takes (read size) := by
  intro bytes
  unfold read
  rw [if_pos hsize]
  exact .inr ⟨bytes.take size, size, hpos, rfl⟩

theorem takes_unpack (hpos : 0 < size) (hsize : size < 2 ^ 63) : Takes (unpack size) := by
  intro bytes
  unfold unpack read
  rw [if_pos hsize]
  change (if (bytes.take size).length = size then pure (ofLe (bytes.take size)) else fail .struct :
    Reader Failure ℕ) (bytes.drop size) = _ ∨ ∃ a n, 0 < n ∧
      (if (bytes.take size).length = size then pure (ofLe (bytes.take size)) else fail .struct :
        Reader Failure ℕ) (bytes.drop size) = _
  split
  · exact .inr ⟨ofLe (bytes.take size), size, hpos, rfl⟩
  · exact .inl rfl

theorem takes_unpackSigned (hpos : 0 < size) (hsize : size < 2 ^ 63) : Takes (unpackSigned size) :=
  (takes_unpack hpos hsize).map _

theorem takes_unpackNat (hpos : 0 < size) (hsize : size < 2 ^ 63) : Takes (Logged.unpackNat size) :=
  (takes_unpack hpos hsize).map _

theorem scalarSize_bounds {vtype : ℕ} (h : scalarSize vtype = some size) : 0 < size ∧ size < 2 ^ 63 := by
  unfold scalarSize at h
  split at h <;> cases h <;> decide

end

/-! ### What the log tells -/

namespace Logged

open Binary.Logged

/-- The log tells whether the reader fails otherwise than with `struct.error`, or returns something
outside `V`. -/
abbrev Tells {α : Type} (memory : ℕ) (V : α → Prop) (t : Code α) : Prop :=
  Telling (Event.Fine memory) Uncaught V t

/-- The values that are visited are paid with bytes, except for the hollow ones. -/
abbrev Affords {α : Type} (t : Code α) : Prop := Thrifty Event.isVisit Event.isHollow t

abbrev AffordsMore {α : Type} (t : Code α) : Prop := Pays Event.isVisit Event.isHollow t

section

variable {memory : ℕ} {α : Type} {V : α → Prop} {r : Reader Failure α}

theorem tells_lift (hr : Takes r) : Tells memory (fun _ => True) (lift r : Code α) := by
  refine .lift fun bytes => ?_
  rcases hr bytes with h | ⟨a, n, -, h⟩
  · rw [h]
    exact fun hne => hne rfl
  · rw [h]
    trivial

theorem affordsMore_lift (hr : Takes r) : AffordsMore (lift r : Code α) := by
  refine .lift fun bytes hbytes => ?_
  have hpos : 0 < bytes.length := List.length_pos_iff.mpr hbytes
  rcases hr bytes with h | ⟨a, n, hn, h⟩
  · rw [h]
    exact hpos
  · rw [h]
    show (bytes.drop n).length < bytes.length
    rw [List.length_drop]
    omega

theorem affords_lift (hr : Takes r) : Affords (lift r : Code α) := by
  refine .lift fun bytes => ?_
  rcases hr bytes with h | ⟨a, n, -, h⟩
  · rw [h]
    exact Nat.zero_le _
  · rw [h]
    show (bytes.drop n).length ≤ bytes.length
    rw [List.length_drop]
    exact Nat.sub_le _ _

theorem tells_tooDeep : Tells memory V (tooDeep : Code α) :=
  .warn (fun _ => id) fun _ hfair => hfair nofun

theorem affords_fail (e : Failure) : Affords (lift (fail e) : Code α) :=
  .lift fun _ => Nat.zero_le _

theorem affordsMore_fail (e : Failure) : AffordsMore (lift (fail e) : Code α) :=
  .lift fun _ hbytes => List.length_pos_iff.mpr hbytes

/-- The depth is told whatever the type is. -/
theorem tells_visit_tooDeep (vtype : ℕ) : Tells memory V (visit vtype tooDeep : Code α) := fun _ =>
  ⟨fun hall => (hall .deep (List.mem_cons_of_mem _ List.mem_cons_self)).elim,
    fun hfair => absurd nofun hfair⟩

theorem affords_tooDeep : Affords (tooDeep : Code α) := .note (fun _ => rfl) (affords_fail _)

theorem affordsMore_tooDeep : AffordsMore (tooDeep : Code α) :=
  fun bytes hbytes => affordsMore_fail .recursion bytes hbytes

/-! ### One lemma for each function -/

theorem tells_readStr (frames : ℕ) : Tells memory (fun _ => True) (readStr memory frames) := by
  cases frames with
  | zero => exact tells_tooDeep
  | succ frames =>
    refine (tells_lift (takes_unpack (by decide) (by decide))).bind fun n => ?_
    by_cases hn : n ≤ memory
    · refine .note (fun _ => hn) (.bind (.lift fun bytes => ?_) fun bytes => .pure trivial)
      rw [read, if_pos hn]
      trivial
    · refine .warn (fun _ => hn) fun bytes => ?_
      rw [read, if_neg hn]
      exact fun hfair => hfair nofun

theorem affords_text (n : ℕ) :
    Affords (note (fun _ => Event.text n) >>= fun _ => do
      let bytes ← lift (read memory n)
      pure (Utf8.decodeReplace bytes)) := by
  refine .note (fun _ => rfl) (.bind (.lift fun bytes => ?_) fun bytes => .pure _)
  unfold read
  split
  · show (bytes.drop n).length ≤ bytes.length
    rw [List.length_drop]
    exact Nat.sub_le _ _
  · exact Nat.zero_le _

theorem affords_readStr (frames : ℕ) : Affords (readStr memory frames) := by
  cases frames with
  | zero => exact affords_tooDeep
  | succ frames => exact (affords_lift (takes_unpack (by decide) (by decide))).bind affords_text

/-- Behind the first call a text takes its length. -/
theorem affordsMore_readStr (frames : ℕ) : AffordsMore (readStr memory frames) := by
  cases frames with
  | zero => exact affordsMore_tooDeep
  | succ frames => exact (affordsMore_lift (takes_unpack (by decide) (by decide))).bind affords_text

theorem tells_skipValue (frames vtype : ℕ) :
    Tells memory (fun _ => True) (skipValue memory frames vtype) := by
  induction frames generalizing vtype with
  | zero => exact tells_visit_tooDeep vtype
  | succ frames ih =>
    unfold skipValue
    split
    · next hstring =>
      exact .note (fun _ => by rw [hstring]; rfl) ((tells_readStr frames).bind fun _ => .pure trivial)
    · split
      · next harray =>
        refine .note (fun _ => by rw [harray]; rfl) ?_
        refine (tells_lift (takes_unpack (by decide) (by decide))).bind fun elemType => ?_
        refine (tells_lift (takes_unpack (by decide) (by decide))).bind fun count => ?_
        exact (ih elemType).times count
      · split
        · next size hsize =>
          obtain ⟨hpos, hlt⟩ := scalarSize_bounds hsize
          refine .note (fun _ => ?_) ((tells_lift (takes_read hpos hlt)).bind fun _ => .pure trivial)
          show isType vtype = true
          rw [isType, hsize, Option.isSome_some, Bool.or_true]
        · next hstring harray _ hnone =>
          refine .warn (fun _ htype => ?_) fun _ hfair => hfair nofun
          change isType vtype = true at htype
          rw [isType, hnone] at htype
          simp [hstring, harray] at htype

theorem affords_skipValue (frames vtype : ℕ) : Affords (skipValue memory frames vtype) := by
  induction frames generalizing vtype with
  | zero => exact .buy rfl affords_tooDeep affordsMore_tooDeep
  | succ frames ih =>
    unfold skipValue
    split
    · exact .buy rfl ((affords_readStr frames).bind fun _ => .pure _)
        ((affordsMore_readStr frames).bind fun _ => .pure _)
    · split
      · have hrest (elemType : ℕ) : Affords (do
            let count ← lift (unpack 8)
            times count (skipValue memory frames elemType)) :=
          (affords_lift (takes_unpack (by decide) (by decide))).bind fun count => (ih elemType).times count
        exact .buy rfl ((affords_lift (takes_unpack (by decide) (by decide))).bind hrest)
          ((affordsMore_lift (takes_unpack (by decide) (by decide))).bind hrest)
      · split
        · next size hsize =>
          obtain ⟨hpos, hlt⟩ := scalarSize_bounds hsize
          exact .buy rfl ((affords_lift (takes_read hpos hlt)).bind fun _ => .pure _)
            ((affordsMore_lift (takes_read hpos hlt)).bind fun _ => .pure _)
        · exact .buy rfl (affords_fail _) (affordsMore_fail _)

/-- An integer, or that there is none. -/
def IsCount (answer : Option Answer) : Prop := ∃ z : Option ℤ, answer = z.map .int

theorem tells_number {vtype : ℕ} {r : Reader Failure ℤ} (htype : isType vtype = true) (hr : Takes r) :
    Tells memory IsCount (number vtype r) :=
  .note (fun _ => htype) ((tells_lift hr).bind fun z => .pure ⟨some z, rfl⟩)

theorem affords_number {vtype : ℕ} {r : Reader Failure ℤ} (hr : Takes r) : Affords (number vtype r) :=
  .buy rfl ((affords_lift hr).bind fun _ => .pure _) ((affordsMore_lift hr).bind fun _ => .pure _)

/-- The sizes of the answers. -/
theorem takes_answer (c : Prop) [Decidable c] :
    Takes (unpackNat (if c then 4 else 8)) ∧ Takes (unpackSigned (if c then 4 else 8)) := by
  split
  · exact ⟨takes_unpackNat (by decide) (by decide), takes_unpackSigned (by decide) (by decide)⟩
  · exact ⟨takes_unpackNat (by decide) (by decide), takes_unpackSigned (by decide) (by decide)⟩

theorem tells_readScalar (frames vtype : ℕ) :
    Tells memory IsCount (readScalar memory frames vtype) := by
  cases frames with
  | zero => exact tells_visit_tooDeep vtype
  | succ frames =>
    rw [readScalar]
    split
    · next hstring =>
      refine .note (fun _ => by rw [hstring]; rfl) ((tells_readStr frames).bind fun s => ?_)
      refine .warn (fun _ => id) fun _ ⟨z, hz⟩ => ?_
      cases z with
      | none => cases hz
      | some z => cases hz
    · split
      · next hnat => exact tells_number (by rcases hnat with rfl | rfl <;> rfl) (takes_answer _).1
      · split
        · next hint => exact tells_number (by rcases hint with rfl | rfl <;> rfl) (takes_answer _).2
        · split
          · next h => exact tells_number (by rw [h]; rfl) (takes_unpackNat (by decide) (by decide))
          · split
            · next h =>
              exact tells_number (by rw [h]; rfl) (takes_unpackSigned (by decide) (by decide))
            · exact (tells_skipValue frames vtype).bind fun _ => .pure ⟨none, rfl⟩

theorem affords_readScalar (frames vtype : ℕ) : Affords (readScalar memory frames vtype) := by
  cases frames with
  | zero => exact .buy rfl affords_tooDeep affordsMore_tooDeep
  | succ frames =>
    rw [readScalar]
    have hanswer (s : List Char) :
        Affords (note (fun _ => Event.answerText) >>= fun _ => pure (some (Answer.str s))) :=
      .note (fun _ => rfl) (.pure _)
    split
    · exact .buy rfl ((affords_readStr frames).bind hanswer) ((affordsMore_readStr frames).bind hanswer)
    · split
      · exact affords_number (takes_answer _).1
      · split
        · exact affords_number (takes_answer _).2
        · split
          · exact affords_number (takes_unpackNat (by decide) (by decide))
          · split
            · exact affords_number (takes_unpackSigned (by decide) (by decide))
            · exact (affords_skipValue frames vtype).bind fun _ => .pure _

theorem tells_search (frames n : ℕ) : Tells memory IsCount (search memory frames n) := by
  induction n with
  | zero => exact .pure ⟨none, rfl⟩
  | succ n ih =>
    refine (tells_readStr frames).bind fun key => ?_
    refine (tells_lift (takes_unpack (by decide) (by decide))).bind fun vtype => ?_
    split
    · exact tells_readScalar frames vtype
    · exact (tells_skipValue frames vtype).bind fun _ => ih

theorem affords_search (frames n : ℕ) : Affords (search memory frames n) := by
  induction n with
  | zero => exact .pure _
  | succ n ih =>
    refine (affords_readStr frames).bind fun key => ?_
    refine (affords_lift (takes_unpack (by decide) (by decide))).bind fun vtype => ?_
    split
    · exact affords_readScalar frames vtype
    · exact (affords_skipValue frames vtype).bind fun _ => ih

theorem tells_readHeader (frames : ℕ) : Tells memory IsCount (readHeader memory frames) := by
  refine (tells_lift (takes_read (by decide) (by decide))).bind fun start => ?_
  split
  · exact .pure ⟨none, rfl⟩
  · refine (tells_lift (takes_unpack (by decide) (by decide))).bind fun _ => ?_
    refine (tells_lift (takes_unpack (by decide) (by decide))).bind fun _ => ?_
    exact (tells_lift (takes_unpack (by decide) (by decide))).bind fun n => tells_search frames n

theorem affords_readHeader (frames : ℕ) : Affords (readHeader memory frames) := by
  refine (affords_lift (takes_read (by decide) (by decide))).bind fun start => ?_
  split
  · exact .pure _
  · refine (affords_lift (takes_unpack (by decide) (by decide))).bind fun _ => ?_
    refine (affords_lift (takes_unpack (by decide) (by decide))).bind fun _ => ?_
    exact (affords_lift (takes_unpack (by decide) (by decide))).bind fun n => affords_search frames n

end

end Logged

/-! ### Any file -/

section

variable (memory frames : ℕ) (file : List UInt8)

/-- An answer is given if and only if the reader can deal with what it meets. -/
theorem answers_iff : Answers memory frames file ↔
    ∀ event ∈ events memory frames file, event.Fine memory := by
  refine Iff.trans ?_ (Logged.tells_readHeader frames file).symm
  unfold Answers Logged.blockCount
  match (Logged.readHeader memory frames file).2 with
  | .ok (answer, rest) =>
    exact ⟨fun ⟨z, hz⟩ => ⟨z, Except.ok.inj hz⟩, fun ⟨z, hz⟩ => ⟨z, congrArg _ hz⟩⟩
  | .error .struct => exact ⟨fun _ hne => hne rfl, fun _ => ⟨none, rfl⟩⟩
  | .error .overflow => exact ⟨fun ⟨_, h⟩ => (nomatch h), fun hfair => absurd nofun hfair⟩
  | .error .recursion => exact ⟨fun ⟨_, h⟩ => (nomatch h), fun hfair => absurd nofun hfair⟩
  | .error (.unknownType _) => exact ⟨fun ⟨_, h⟩ => (nomatch h), fun hfair => absurd nofun hfair⟩

theorem visits_le : visits memory frames file ≤ file.length + hollow memory frames file :=
  (Nat.le_add_right _ _).trans (Logged.affords_readHeader frames file)

theorem hollow_le : hollow memory frames file ≤ visits memory frames file := by
  refine List.countP_mono_left fun event _ h => ?_
  cases event with
  | visit vtype left => rfl
  | text n => cases h
  | deep => cases h
  | answerText => cases h

/-- **An answer is given if and only if the reader can deal with what it meets; the visits are linear
in the length of the file as far as the hollow values are.** -/
theorem robust_iff :
    (Answers memory frames file ↔ ∀ event ∈ events memory frames file, event.Fine memory) ∧
      ∀ c, (Robust memory frames c file → Sane memory frames c file) ∧
        (Sane memory frames c file → Robust memory frames (c + 1) file) := by
  have hiff := answers_iff memory frames file
  refine ⟨hiff, fun c => ⟨fun ⟨hanswers, hlinear⟩ => ?_, fun ⟨hfine, hlinear⟩ => ?_⟩⟩
  · exact ⟨hiff.mp hanswers, (hollow_le memory frames file).trans hlinear⟩
  · refine ⟨hiff.mpr hfine, (visits_le memory frames file).trans ?_⟩
    rw [Nat.succ_mul]
    omega

end

/-! ### Hollow values -/

/-- An array of `n` bytes, of which the file has none. -/
def hollowFile (n : ℕ) : List UInt8 :=
  magic ++ (toLe 4 3 ++ (toLe 8 0 ++ (toLe 8 1 ++ (toLe 8 1 ++ ([97] ++ (toLe 4 9 ++ (toLe 4 0 ++
    (toLe 8 n ++ []))))))))

theorem length_hollowFile (n : ℕ) : (hollowFile n).length = 49 := by
  unfold hollowFile magic
  simp only [List.length_append, length_toLe, List.length_cons, List.length_nil]

theorem readStr_hollow {memory : ℕ} (hmemory : 0 < memory) (frames : ℕ) (rest : List UInt8) :
    Logged.readStr memory (frames + 1) (toLe 8 1 ++ ([97] ++ rest)) =
      ([.text 1], .ok (Utf8.decodeReplace [97], rest)) := by
  have hone : Reads (unpack 8) (toLe 8 1) 1 := reads_unpack (by decide) (by decide)
  rw [Logged.readStr, Binary.Logged.lift_bind_eq hone]
  have hread : Reads (Logged.read memory 1) [97] [97] := by
    intro rest
    rw [Logged.read, if_pos (Nat.succ_le_of_lt hmemory)]
    rfl
  rw [Binary.Logged.note_bind_eq, Binary.Logged.lift_bind_eq hread]
  rfl

theorem skipValue_nine (memory frames : ℕ) :
    Logged.skipValue memory (frames + 1) 9 = Logged.visit 9 (do
      let elemType ← Binary.Logged.lift (unpack 4)
      let count ← Binary.Logged.lift (unpack 8)
      Binary.Logged.times count (Logged.skipValue memory frames elemType)) := rfl

/-- The file has always 49 bytes. -/
theorem le_visits_hollowFile {memory n : ℕ} (hmemory : 0 < memory) (hn : n < 2 ^ 64) (frames : ℕ) :
    n ≤ visits memory (frames + 2) (hollowFile n) := by
  have hmagic : Reads (read 4) magic magic := reads_read rfl (by decide)
  have hversion : Reads (unpack 4) (toLe 4 3) 3 := reads_unpack (by decide) (by decide)
  have htensors : Reads (unpack 8) (toLe 8 0) 0 := reads_unpack (by decide) (by decide)
  have hpairs : Reads (unpack 8) (toLe 8 1) 1 := reads_unpack (by decide) (by decide)
  have harray : Reads (unpack 4) (toLe 4 9) 9 := reads_unpack (by decide) (by decide)
  have hbytes : Reads (unpack 4) (toLe 4 0) 0 := reads_unpack (by decide) (by decide)
  have hcount : Reads (unpack 8) (toLe 8 n) n := reads_unpack (by decide) hn
  have hskip : ∃ events, Logged.skipValue memory (frames + 2) 9 (toLe 4 0 ++ (toLe 8 n ++ [])) =
      (events ++ List.replicate n (.visit 0 0), .ok ((), [])) := by
    have helem : Logged.skipValue memory (frames + 1) 0 [] = ([.visit 0 0], .ok ((), [])) := rfl
    have htimes := Binary.Logged.times_eq helem n
    refine ⟨[.visit 9 (toLe 4 0 ++ (toLe 8 n ++ [])).length], ?_⟩
    rw [skipValue_nine, Logged.visit, Binary.Logged.note_bind_eq, Binary.Logged.lift_bind_eq hbytes,
      Binary.Logged.lift_bind_eq hcount, htimes]
    rfl
  obtain ⟨events, hskip⟩ := hskip
  have hkey : isBlockCount (Utf8.decodeReplace [97]) = false := by with_unfolding_all decide
  have hlog : GgufMeta.events memory (frames + 2) (hollowFile n) =
      [Event.text 1] ++ (events ++ List.replicate n (.visit 0 0) ++ []) := by
    unfold GgufMeta.events hollowFile Logged.readHeader
    rw [Binary.Logged.lift_bind_eq hmagic, if_neg (not_not.mpr rfl),
      Binary.Logged.lift_bind_eq hversion, Binary.Logged.lift_bind_eq htensors,
      Binary.Logged.lift_bind_eq hpairs, Logged.search,
      Binary.Logged.bind_ok (readStr_hollow hmemory (frames + 1) _),
      Binary.Logged.lift_bind_eq harray, hkey, if_neg Bool.false_ne_true,
      Binary.Logged.bind_ok hskip]
    rfl
  unfold visits
  rw [hlog, List.append_nil, List.countP_append, List.countP_append, List.countP_replicate]
  exact (Nat.le_add_left _ _).trans (Nat.le_add_left _ _)

/-- A value of a type that does not exist. -/
def unknownFile : List UInt8 :=
  magic ++ (toLe 4 3 ++ (toLe 8 0 ++ (toLe 8 1 ++ (toLe 8 1 ++ ([97] ++ toLe 4 13)))))

/-- **A type that does not exist is not answered, and 49 bytes can have 2 ^ 64 - 1 values.** -/
theorem not_robust :
    ¬ Answers (2 ^ 63 - 1) 990 unknownFile ∧ (hollowFile (2 ^ 64 - 1)).length = 49 ∧
      2 ^ 64 - 1 ≤ visits (2 ^ 63 - 1) 990 (hollowFile (2 ^ 64 - 1)) := by
  refine ⟨?_, length_hollowFile _, le_visits_hollowFile (by decide) (by decide) 988⟩
  rw [answers_iff]
  with_unfolding_all decide

end GgufMeta
end CloudCore
