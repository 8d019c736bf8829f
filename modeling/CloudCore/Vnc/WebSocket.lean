import CloudCore.Formats.Binary
import CloudCore.Formats.Incremental
import Mathlib.Tactic.IntervalCases

/-!
# The frames of the VNC bridge

`_frame` and `_Reader` of `vnc_bridge.py`, and what `serve` does with the messages of the browser.

## Main definitions

* `frame`, `readFrame` — a frame of the bridge, and the reading of one.
* `reader` — `_Reader`, with the fragments of a message as its state.
* `relay` — what `serve` makes of the items of the reader.
* `Sent` — a frame of the browser, and `Sends`, the frames that carry some messages.

## Main results

* `readFrame_encode` — a frame of the browser is read as a whole.
* `drain_sends` — the frames of some messages give these messages.
* `reader_sound` — **what the reader gives depends neither on the frames nor on the pieces, and what
  `_frame` writes is read again.**
-/

namespace CloudCore
namespace VncBridge

open Formats Formats.Binary

abbrev Bytes := List UInt8

/-! ### The code -/

def OP_TEXT : UInt8 := 0x1
def OP_BINARY : UInt8 := 0x2
def OP_CLOSE : UInt8 := 0x8
def OP_PING : UInt8 := 0x9
def OP_PONG : UInt8 := 0xA

def MAX_FRAME : ℕ := 16 * 2 ^ 20

/-- `struct.pack`, the most significant byte first. -/
def toBe (n v : ℕ) : Bytes := (toLe n v).reverse

def ofBe (bytes : Bytes) : ℕ := ofLe bytes.reverse

/-- `_frame`; `struct.pack` refuses what is longer. -/
def frame (op : UInt8) (payload : Bytes) : Option Bytes :=
  let n := payload.length
  if n < 126 then some ((0x80 ||| op) :: UInt8.ofNat n :: payload)
  else if n < 2 ^ 16 then some ((0x80 ||| op) :: 126 :: (toBe 2 n ++ payload))
  else if n < 2 ^ 64 then some ((0x80 ||| op) :: 127 :: (toBe 8 n ++ payload))
  else none

/-- The first `k` bytes and what follows them, if they are there. -/
def front (k : ℕ) (rest : Bytes) : Option (Bytes × Bytes) :=
  if rest.length < k then none else some (rest.take k, rest.drop k)

/-- The length of the payload, and what follows it. -/
def readLength (n : ℕ) (rest : Bytes) : Option (ℕ × Bytes) :=
  if n = 126 then (front 2 rest).map fun r => (ofBe r.1, r.2)
  else if n = 127 then (front 8 rest).map fun r => (ofBe r.1, r.2)
  else some (n, rest)

/-- The mask, if there is one. -/
def readMask (masked : Bool) (rest : Bytes) : Option (Bytes × Bytes) :=
  if masked then front 4 rest else some ([], rest)

/-- The payload under the mask. -/
def unmask (masked : Bool) (mask payload : Bytes) : Bytes :=
  if masked then payload.mapIdx fun i c => c ^^^ mask.getD (i % 4) 0 else payload

structure Frame where
  fin : Bool
  op : UInt8
  payload : Bytes
  deriving DecidableEq

inductive Failure where
  | tooLarge
  deriving DecidableEq

/-- The payload of a frame, of which the header is known. -/
def readPayload (b0 : UInt8) (masked : Bool) (n : ℕ) (rest : Bytes) :
    Parsed UInt8 Unit Frame Failure :=
  match (readMask masked rest).bind fun r => (front n r.2).map fun r' => (r.1, r') with
  | none => .more
  | some (mask, payload, rest) =>
    .item [⟨b0 &&& 0x80 ≠ 0, b0 &&& 0x0F, unmask masked mask payload⟩] () rest

/-- A frame of at most `limit` bytes. -/
def readFrame (limit : ℕ) : Bytes → Parsed UInt8 Unit Frame Failure
  | b0 :: b1 :: rest =>
    match readLength (b1 &&& 0x7F).toNat rest with
    | none => .more
    | some (n, rest) =>
      if limit < n then .fail .tooLarge else readPayload b0 (b1 &&& 0x80 ≠ 0) n rest
  | _ => .more

/-- An item that `feed` returns. -/
abbrev Item := UInt8 × Bytes

/-- What a frame gives, and the fragments behind it. -/
def accept (fragments : List Bytes) (f : Frame) : List Item × List Bytes :=
  if f.op = OP_CLOSE ∨ f.op = OP_PING ∨ f.op = OP_PONG then ([(f.op, f.payload)], fragments)
  else if f.op = 0x0 ∨ f.fin = false then
    if f.fin then ([(OP_BINARY, (fragments ++ [f.payload]).flatten)], [])
    else ([], fragments ++ [f.payload])
  else ([(f.op, f.payload)], fragments)

/-- One round of the loop of `feed`. -/
def next (fragments : List Bytes) (buf : Bytes) : Parsed UInt8 (List Bytes) Item Failure :=
  match readFrame MAX_FRAME buf with
  | .more => .more
  | .fail e => .fail e
  | .item [f] _ rest => .item (accept fragments f).1 (accept fragments f).2 rest
  | .item _ _ _ => .more

/-- What `serve` sends, for a frame with what it is made of. -/
inductive Effect where
  | toClient (op : UInt8) (payload : Bytes)
  | toVnc (payload : Bytes)
  deriving DecidableEq

/-- What `serve` makes of the items, and whether it goes on. -/
def relay : List Item → List Effect × Bool
  | [] => ([], true)
  | (op, payload) :: items =>
    if op = OP_CLOSE then ([.toClient OP_CLOSE (payload.take 2)], false)
    else if op = OP_PING then ((.toClient OP_PONG payload) :: (relay items).1, (relay items).2)
    else if op = OP_BINARY ∨ op = OP_TEXT then ((.toVnc payload) :: (relay items).1, (relay items).2)
    else relay items

/-! ### The reader is incremental -/

section

variable {n m k limit : ℕ} {first rest left mask : Bytes} {masked : Bool} {b0 : UInt8} {buf : Bytes}

theorem front_append (h : front k rest = some (first, left)) (behind : Bytes) :
    front k (rest ++ behind) = some (first, left ++ behind) ∧ left.length ≤ rest.length := by
  unfold front at h ⊢
  split at h
  · cases h
  · next hlen =>
    obtain ⟨rfl, rfl⟩ := Prod.mk.inj (Option.some.inj h)
    have hle : k ≤ rest.length := by omega
    have hlen' : ¬(rest ++ behind).length < k := by rw [List.length_append]; omega
    rw [if_neg hlen', List.take_append_of_le_length hle, List.drop_append_of_le_length hle]
    exact ⟨rfl, by rw [List.length_drop]; omega⟩

theorem readLength_append (h : readLength n rest = some (m, left)) (behind : Bytes) :
    readLength n (rest ++ behind) = some (m, left ++ behind) ∧ left.length ≤ rest.length := by
  unfold readLength at h ⊢
  -- a length that follows the header
  have hlong {k : ℕ} (h : (front k rest).map (fun r => (ofBe r.1, r.2)) = some (m, left)) :
      (front k (rest ++ behind)).map (fun r => (ofBe r.1, r.2)) = some (m, left ++ behind) ∧
        left.length ≤ rest.length := by
    obtain ⟨⟨first, left'⟩, hfront, heq⟩ := Option.map_eq_some_iff.mp h
    obtain ⟨rfl, rfl⟩ := Prod.mk.inj heq
    obtain ⟨hfront', hle⟩ := front_append hfront behind
    exact ⟨by rw [hfront']; rfl, hle⟩
  split at h
  · next h126 =>
    rw [if_pos h126]
    exact hlong h
  · next h126 =>
    rw [if_neg h126]
    split at h
    · next h127 =>
      rw [if_pos h127]
      exact hlong h
    · next h127 =>
      obtain ⟨rfl, rfl⟩ := Prod.mk.inj (Option.some.inj h)
      rw [if_neg h127]
      exact ⟨rfl, le_refl _⟩

theorem readMask_append (h : readMask masked rest = some (mask, left)) (behind : Bytes) :
    readMask masked (rest ++ behind) = some (mask, left ++ behind) ∧ left.length ≤ rest.length := by
  unfold readMask at h ⊢
  split at h
  · next hmasked =>
    rw [if_pos hmasked]
    exact front_append h behind
  · next hmasked =>
    rw [if_neg hmasked]
    obtain ⟨rfl, rfl⟩ := Prod.mk.inj (Option.some.inj h)
    exact ⟨rfl, le_refl _⟩

theorem readPayload_append {fs : List Frame} (h : readPayload b0 masked n rest = .item fs () left)
    (behind : Bytes) :
    readPayload b0 masked n (rest ++ behind) = .item fs () (left ++ behind) ∧
      left.length ≤ rest.length ∧ ∃ f, fs = [f] := by
  unfold readPayload at h ⊢
  split at h
  · cases h
  · next mask payload left' hread =>
    obtain ⟨rfl, -, rfl⟩ := Parsed.item.inj h
    obtain ⟨⟨mask', rest'⟩, hmask, hpayload⟩ := Option.bind_eq_some_iff.mp hread
    obtain ⟨⟨payload', left''⟩, hfront, heq⟩ := Option.map_eq_some_iff.mp hpayload
    obtain ⟨rfl, rfl, rfl⟩ := by simpa using heq
    obtain ⟨hmask', hle⟩ := readMask_append hmask behind
    obtain ⟨hfront', hle'⟩ := front_append hfront behind
    rw [hmask', Option.bind_some, hfront', Option.map_some]
    exact ⟨rfl, hle'.trans hle, _, rfl⟩

theorem readFrame_append {fs : List Frame} (h : readFrame limit buf = .item fs () left)
    (behind : Bytes) :
    readFrame limit (buf ++ behind) = .item fs () (left ++ behind) ∧ left.length < buf.length ∧
      ∃ f, fs = [f] := by
  match buf with
  | [] | [_] => cases h
  | b0 :: b1 :: rest =>
    simp only [readFrame] at h
    split at h
    · cases h
    · next m rest' hlength =>
      obtain ⟨hlength', hshort⟩ := readLength_append hlength behind
      split at h
      · cases h
      · next hlimit =>
        obtain ⟨hpayload, hshort', hone⟩ := readPayload_append h behind
        refine ⟨?_, by simp only [List.length_cons]; omega, hone⟩
        simp only [List.cons_append, readFrame, hlength', if_neg hlimit]
        exact hpayload

theorem readFrame_fail {e : Failure} (h : readFrame limit buf = .fail e) (behind : Bytes) :
    readFrame limit (buf ++ behind) = .fail e := by
  match buf with
  | [] | [_] => cases h
  | b0 :: b1 :: rest =>
    simp only [readFrame] at h
    split at h
    · cases h
    · next m rest' hlength =>
      obtain ⟨hlength', -⟩ := readLength_append hlength behind
      split at h
      · next hlimit =>
        simp only [List.cons_append, readFrame, hlength', if_pos hlimit]
      · unfold readPayload at h
        split at h <;> cases h

theorem next_item {fragments fragments' : List Bytes} {out : List Item}
    (h : next fragments buf = .item out fragments' left) :
    ∃ f, readFrame MAX_FRAME buf = .item [f] () left ∧ accept fragments f = (out, fragments') := by
  unfold next at h
  split at h
  · cases h
  · cases h
  · next f _ rest hframe =>
    obtain ⟨rfl, rfl, rfl⟩ := Parsed.item.inj h
    exact ⟨f, hframe, rfl⟩
  · cases h

theorem next_of_readFrame {fragments : List Bytes} {f : Frame}
    (h : readFrame MAX_FRAME buf = .item [f] () left) :
    next fragments buf = .item (accept fragments f).1 (accept fragments f).2 left := by
  unfold next
  rw [h]

end

def reader : Parser UInt8 (List Bytes) Item Failure where
  next := next
  shorter h := by
    obtain ⟨f, hframe, -⟩ := next_item h
    exact (readFrame_append hframe []).2.1
  item_append h behind := by
    obtain ⟨f, hframe, haccept⟩ := next_item h
    rw [next_of_readFrame (readFrame_append hframe behind).1, haccept]
  fail_append {s buf e} h behind := by
    have hframe : readFrame MAX_FRAME buf = .fail e := by
      unfold next at h
      split at h
      · cases h
      · next e' he => exact he.trans (congrArg _ (Parsed.fail.inj h))
      · cases h
      · cases h
    unfold next
    rw [readFrame_fail hframe behind]

/-! ### What a frame looks like -/

/-- The three encodings of a length. -/
inductive Form where
  | short
  | medium
  | long
  deriving DecidableEq

/-- The length has room in the encoding. -/
def Form.Fits (n : ℕ) : Form → Prop
  | .short => n < 126
  | .medium => n < 2 ^ 16
  | .long => n < 2 ^ 64

/-- The length as it stands in the second byte. -/
def Form.code (n : ℕ) : Form → ℕ
  | .short => n
  | .medium => 126
  | .long => 127

/-- The length as it follows the second byte. -/
def Form.extended (n : ℕ) : Form → Bytes
  | .short => []
  | .medium => toBe 2 n
  | .long => toBe 8 n

/-- A frame with the first byte `b0`; `content` is what stands under the mask. -/
def pack (b0 : UInt8) (form : Form) (masked : Bool) (mask content : Bytes) : Bytes :=
  b0 :: ((if masked then 0x80 else 0) ||| UInt8.ofNat (form.code content.length)) ::
    (form.extended content.length ++ (mask ++ content))

@[simp] theorem length_toBe (n v : ℕ) : (toBe n v).length = n := by
  rw [toBe, List.length_reverse, length_toLe]

theorem ofBe_toBe {n v : ℕ} (h : v < 256 ^ n) : ofBe (toBe n v) = v := by
  rw [ofBe, toBe, List.reverse_reverse, ofLe_toLe h]

theorem front_of_append (first rest : Bytes) : front first.length (first ++ rest) = some (first, rest) := by
  rw [front, if_neg (by rw [List.length_append]; omega), List.take_left, List.drop_left]

section

variable {n limit : ℕ} {form : Form} {masked : Bool} {mask content : Bytes}

theorem Form.code_lt (h : form.Fits n) : form.code n < 128 := by
  cases form with
  | short => exact Nat.lt_trans h (by decide)
  | medium => exact (by decide : 126 < 128)
  | long => exact (by decide : 127 < 128)

/-- The two parts of the second byte. -/
theorem second_byte (masked : Bool) (hn : n < 128) :
    decide ((((if masked then 0x80 else 0) ||| UInt8.ofNat n) &&& 0x80) ≠ 0) = masked ∧
      (((if masked then 0x80 else 0) ||| UInt8.ofNat n) &&& 0x7F).toNat = n := by
  have hall : ∀ k : Fin 128, ∀ masked : Bool,
      decide ((((if masked then 0x80 else 0) ||| UInt8.ofNat k.val) &&& 0x80) ≠ 0) = masked ∧
        (((if masked then 0x80 else 0) ||| UInt8.ofNat k.val) &&& 0x7F).toNat = k.val := by
    decide
  exact hall ⟨n, hn⟩ masked

/-- The two parts of the first byte. -/
theorem first_byte (fin : Bool) {op : UInt8} (hop : op < 16) :
    decide ((((if fin then 0x80 else 0) ||| op) &&& 0x80) ≠ 0) = fin ∧
      ((if fin then 0x80 else 0) ||| op) &&& 0x0F = op := by
  have hall : ∀ k : Fin 16, ∀ fin : Bool,
      decide ((((if fin then 0x80 else 0) ||| UInt8.ofNat k.val) &&& 0x80) ≠ 0) = fin ∧
        ((if fin then 0x80 else 0) ||| UInt8.ofNat k.val) &&& 0x0F = UInt8.ofNat k.val := by
    decide
  have h := hall ⟨op.toNat, hop⟩ fin
  rwa [UInt8.ofNat_toNat] at h

/-- The first byte that `_frame` writes. -/
theorem own_first_byte (op : UInt8) :
    decide (((0x80 ||| op) &&& 0x80) ≠ 0) = true ∧ (0x80 ||| op) &&& 0x0F = op &&& 0x0F := by
  have hall : ∀ k : Fin 256,
      decide (((0x80 ||| UInt8.ofNat k.val) &&& 0x80) ≠ 0) = true ∧
        (0x80 ||| UInt8.ofNat k.val) &&& 0x0F = UInt8.ofNat k.val &&& 0x0F := by
    decide +kernel
  have h := hall ⟨op.toNat, op.toNat_lt⟩
  rwa [UInt8.ofNat_toNat] at h

theorem readLength_form (hfits : form.Fits n) (rest : Bytes) :
    readLength (form.code n) (form.extended n ++ rest) = some (n, rest) := by
  cases form with
  | short =>
    have hlt : n < 126 := hfits
    rw [readLength, Form.code, Form.extended, if_neg (by omega), if_neg (by omega), List.nil_append]
  | medium =>
    have hfront := front_of_append (toBe 2 n) rest
    rw [length_toBe] at hfront
    rw [readLength, Form.code, Form.extended, if_pos rfl, hfront, Option.map_some,
      ofBe_toBe (Nat.lt_of_lt_of_eq hfits (by norm_num))]
  | long =>
    have hfront := front_of_append (toBe 8 n) rest
    rw [length_toBe] at hfront
    rw [readLength, Form.code, Form.extended, if_neg (by decide), if_pos rfl, hfront, Option.map_some,
      ofBe_toBe (Nat.lt_of_lt_of_eq hfits (by norm_num))]

/-- **A frame is read as a whole**, whatever follows it. -/
theorem readFrame_pack (b0 : UInt8) (masked : Bool) (hfits : form.Fits content.length)
    (hlimit : content.length ≤ limit) (hmask : mask.length = if masked then 4 else 0) (rest : Bytes) :
    readFrame limit (pack b0 form masked mask content ++ rest) =
      .item [⟨b0 &&& 0x80 ≠ 0, b0 &&& 0x0F, unmask masked mask content⟩] () rest := by
  obtain ⟨hmasked, hcode⟩ := second_byte masked (Form.code_lt hfits)
  have hread : readMask masked (mask ++ (content ++ rest)) = some (mask, content ++ rest) := by
    cases masked with
    | true =>
      have hfront := front_of_append mask (content ++ rest)
      rwa [hmask] at hfront
    | false =>
      obtain rfl := List.eq_nil_of_length_eq_zero hmask
      rfl
  have hpayload : readPayload b0 masked content.length (mask ++ (content ++ rest)) =
      .item [⟨b0 &&& 0x80 ≠ 0, b0 &&& 0x0F, unmask masked mask content⟩] () rest := by
    rw [readPayload, hread, Option.bind_some, front_of_append, Option.map_some]
  simp only [pack, List.cons_append, List.append_assoc, readFrame]
  rw [hcode, readLength_form hfits]
  dsimp only
  rw [if_neg (Nat.not_lt.mpr hlimit), hmasked, hpayload]

end

/-- The mask taken twice is the payload again. -/
theorem unmask_unmask (masked : Bool) (mask payload : Bytes) :
    unmask masked mask (unmask masked mask payload) = payload := by
  unfold unmask
  cases masked with
  | false => rfl
  | true =>
    apply List.ext_getElem
    · simp
    · intro i h h'
      simp [UInt8.xor_assoc]

@[simp] theorem length_unmask (masked : Bool) (mask payload : Bytes) :
    (unmask masked mask payload).length = payload.length := by
  unfold unmask
  split <;> simp

/-- What `_frame` writes, with the shortest form. -/
theorem frame_eq_pack {op : UInt8} {payload bytes : Bytes} (h : frame op payload = some bytes) :
    ∃ form : Form, form.Fits payload.length ∧ bytes = pack (0x80 ||| op) form false [] payload := by
  unfold frame at h
  dsimp only at h
  split at h
  · next hshort =>
    refine ⟨.short, hshort, (Option.some.inj h).symm.trans ?_⟩
    simp [pack, Form.code, Form.extended]
  · split at h
    · next hmedium =>
      refine ⟨.medium, hmedium, (Option.some.inj h).symm.trans ?_⟩
      simp [pack, Form.code, Form.extended]
    · split at h
      · next hlong =>
        refine ⟨.long, hlong, (Option.some.inj h).symm.trans ?_⟩
        simp [pack, Form.code, Form.extended]
      · cases h

/-! ### The frames of the browser -/

/-- A frame of the browser. -/
structure Sent where
  fin : Bool
  op : UInt8
  form : Form
  mask : Bytes
  payload : Bytes
  op_lt : op < 16
  mask_length : mask.length = 4
  fits : form.Fits payload.length
  payload_le : payload.length ≤ MAX_FRAME

/-- The bytes of a frame of the browser, with the payload under the mask. -/
def Sent.encode (f : Sent) : Bytes :=
  pack ((if f.fin then 0x80 else 0) ||| f.op) f.form true f.mask (unmask true f.mask f.payload)

/-- The frames that carry some messages and some pings.  The first argument is what has been sent of
a message that is not complete. -/
inductive Sends : Option Bytes → List Bytes → List Bytes → List Sent → Prop where
  | nil : Sends none [] [] []
  | ping {m ms ps fs} {f : Sent} : f.op = OP_PING → f.fin = true → Sends m ms ps fs →
      Sends m ms (f.payload :: ps) (f :: fs)
  | pong {m ms ps fs} {f : Sent} : f.op = OP_PONG → f.fin = true → Sends m ms ps fs →
      Sends m ms ps (f :: fs)
  | whole {ms ps fs} {f : Sent} : f.op = OP_TEXT ∨ f.op = OP_BINARY → f.fin = true →
      Sends none ms ps fs → Sends none (f.payload :: ms) ps (f :: fs)
  | first {ms ps fs} {f : Sent} : f.op = OP_TEXT ∨ f.op = OP_BINARY → f.fin = false →
      Sends (some f.payload) ms ps fs → Sends none ms ps (f :: fs)
  | middle {m ms ps fs} {f : Sent} : f.op = 0x0 → f.fin = false →
      Sends (some (m ++ f.payload)) ms ps fs → Sends (some m) ms ps (f :: fs)
  | last {m ms ps fs} {f : Sent} : f.op = 0x0 → f.fin = true → Sends none ms ps fs →
      Sends (some m) ((m ++ f.payload) :: ms) ps (f :: fs)

/-- What goes to the display. -/
def toVnc : List Effect → List Bytes :=
  List.filterMap fun | .toVnc payload => some payload | .toClient _ _ => none

/-- What goes to the browser. -/
def toClient : List Effect → List (UInt8 × Bytes) :=
  List.filterMap fun | .toVnc _ => none | .toClient op payload => some (op, payload)

/-- The payloads of the data messages. -/
def data : List Item → List Bytes :=
  List.filterMap fun item => if item.1 = OP_BINARY ∨ item.1 = OP_TEXT then some item.2 else none

/-- The items are these messages and these pings, and a pong at most. -/
structure Gives (out : List Item) (ms ps : List Bytes) : Prop where
  data : data out = ms
  toVnc : toVnc (relay out).1 = ms
  toClient : toClient (relay out).1 = ps.map fun payload => (OP_PONG, payload)
  goes_on : (relay out).2 = true

section

variable {out : List Item} {ms ps : List Bytes} {payload : Bytes} {op : UInt8}

theorem Gives.nil : Gives [] [] [] := ⟨rfl, rfl, rfl, rfl⟩

theorem Gives.ping (h : Gives out ms ps) : Gives ((OP_PING, payload) :: out) ms (payload :: ps) where
  data := h.data
  toVnc := h.toVnc
  toClient := congrArg ((OP_PONG, payload) :: ·) h.toClient
  goes_on := h.goes_on

theorem Gives.pong (h : Gives out ms ps) : Gives ((OP_PONG, payload) :: out) ms ps :=
  ⟨h.data, h.toVnc, h.toClient, h.goes_on⟩

theorem Gives.message (hop : op = OP_TEXT ∨ op = OP_BINARY) (h : Gives out ms ps) :
    Gives ((op, payload) :: out) (payload :: ms) ps := by
  obtain rfl | rfl := hop
  · exact ⟨congrArg (payload :: ·) h.data, congrArg (payload :: ·) h.toVnc, h.toClient, h.goes_on⟩
  · exact ⟨congrArg (payload :: ·) h.data, congrArg (payload :: ·) h.toVnc, h.toClient, h.goes_on⟩

end

theorem readFrame_encode (f : Sent) (rest : Bytes) :
    readFrame MAX_FRAME (f.encode ++ rest) = .item [⟨f.fin, f.op, f.payload⟩] () rest := by
  have hlength : (unmask true f.mask f.payload).length = f.payload.length := length_unmask _ _ _
  have hread := readFrame_pack ((if f.fin then 0x80 else 0) ||| f.op) true (hlength ▸ f.fits)
    (hlength ▸ f.payload_le) f.mask_length rest
  obtain ⟨hfin, hop⟩ := first_byte f.fin f.op_lt
  rwa [unmask_unmask, hfin, hop] at hread

/-- A frame of the browser is taken as a whole. -/
theorem drain_encode (fragments : List Bytes) (f : Sent) (rest : Bytes) :
    reader.drain fragments (f.encode ++ rest) =
      (reader.drain (accept fragments ⟨f.fin, f.op, f.payload⟩).2 rest).map fun r =>
        ((accept fragments ⟨f.fin, f.op, f.payload⟩).1 ++ r.1, r.2) :=
  Parser.drain_item (next_of_readFrame (readFrame_encode f rest))

/-- **The frames of some messages give these messages.** -/
theorem drain_sends {m : Option Bytes} {ms ps : List Bytes} {fs : List Sent} (h : Sends m ms ps fs)
    (fragments : List Bytes) (hm : fragments.flatten = m.getD []) (hnone : m = none → fragments = []) :
    ∃ out, reader.drain fragments (fs.flatMap Sent.encode) = .ok (out, [], []) ∧ Gives out ms ps := by
  -- what is drained first is one frame; the rest is drained with the fragments behind it
  have hstep {fs : List Sent} {f : Sent} {fragments fragments' : List Bytes}
      {out : List Item} (items : List Item)
      (haccept : accept fragments ⟨f.fin, f.op, f.payload⟩ = (items, fragments'))
      (hrest : reader.drain fragments' (fs.flatMap Sent.encode) = .ok (out, [], [])) :
      reader.drain fragments ((f :: fs).flatMap Sent.encode) = .ok (items ++ out, [], []) := by
    rw [List.flatMap_cons, drain_encode, haccept, hrest]
    rfl
  induction h generalizing fragments with
  | nil =>
    rw [hnone rfl]
    exact ⟨[], Parser.drain_more rfl, .nil⟩
  | @ping m ms ps fs f hop hfin _ ih =>
    obtain ⟨out, hdrain, hgives⟩ := ih fragments hm hnone
    refine ⟨_, hstep [(OP_PING, f.payload)] ?_ hdrain, hgives.ping⟩
    rw [hop, hfin]
    rfl
  | @pong m ms ps fs f hop hfin _ ih =>
    obtain ⟨out, hdrain, hgives⟩ := ih fragments hm hnone
    refine ⟨_, hstep [(OP_PONG, f.payload)] ?_ hdrain, hgives.pong⟩
    rw [hop, hfin]
    rfl
  | @whole ms ps fs f hop hfin _ ih =>
    obtain ⟨out, hdrain, hgives⟩ := ih fragments hm hnone
    refine ⟨_, hstep [(f.op, f.payload)] ?_ hdrain, hgives.message hop⟩
    rw [hfin]
    obtain hop | hop := hop
    · rw [hop]; rfl
    · rw [hop]; rfl
  | @first ms ps fs f hop hfin _ ih =>
    have hfragments : fragments = [] := hnone rfl
    obtain ⟨out, hdrain, hgives⟩ := ih [f.payload] (by simp) (by simp)
    refine ⟨_, hstep [] ?_ hdrain, hgives⟩
    rw [hfin, hfragments]
    obtain hop | hop := hop
    · rw [hop]; rfl
    · rw [hop]; rfl
  | @middle m ms ps fs f hop hfin _ ih =>
    obtain ⟨out, hdrain, hgives⟩ := ih (fragments ++ [f.payload])
      (by simpa using hm) (by simp)
    refine ⟨_, hstep [] ?_ hdrain, hgives⟩
    rw [hfin, hop]
    rfl
  | @last m ms ps fs f hop hfin _ ih =>
    obtain ⟨out, hdrain, hgives⟩ := ih [] rfl (fun _ => rfl)
    have hwhole : (fragments ++ [f.payload]).flatten = m ++ f.payload := by simpa using hm
    refine ⟨_, hstep [(OP_BINARY, m ++ f.payload)] ?_ hdrain, hgives.message (.inr rfl)⟩
    rw [hfin, hop, ← hwhole]
    rfl

/-- **What the reader gives depends neither on the frames nor on the pieces**, and what `_frame`
writes, of any payload that `struct.pack` does not refuse, is read again. -/
theorem reader_sound :
    (∀ {ms ps : List Bytes} {fs : List Sent} {chunks : List Bytes}, Sends none ms ps fs →
      chunks.flatten = fs.flatMap Sent.encode →
      ∃ out, reader.feedAll ([], []) chunks = .ok (out, [], []) ∧ data out = ms ∧
        toVnc (relay out).1 = ms ∧
        toClient (relay out).1 = ps.map (fun payload => (OP_PONG, payload)) ∧ (relay out).2 = true) ∧
    (∀ {op : UInt8} {payload bytes : Bytes} {limit : ℕ}, frame op payload = some bytes →
      payload.length ≤ limit → ∀ rest,
        readFrame limit (bytes ++ rest) = .item [⟨true, op &&& 0x0F, payload⟩] () rest) ∧
    ∀ {op : UInt8} {payload : Bytes}, payload.length < 2 ^ 64 → ∃ bytes, frame op payload = some bytes := by
  refine ⟨?_, ?_, ?_⟩
  · intro ms ps fs chunks hsends hchunks
    obtain ⟨out, hdrain, hgives⟩ := drain_sends hsends [] rfl (fun _ => rfl)
    refine ⟨out, ?_, hgives.data, hgives.toVnc, hgives.toClient, hgives.goes_on⟩
    rw [Parser.feedAll_eq chunks (Parser.drain_more rfl), List.nil_append, hchunks]
    exact hdrain
  · intro op payload bytes limit hframe hlimit rest
    obtain ⟨form, hfits, rfl⟩ := frame_eq_pack hframe
    obtain ⟨hfin, hop⟩ := own_first_byte op
    rw [readFrame_pack (0x80 ||| op) false hfits hlimit rfl, hfin, hop]
    rfl
  · intro op payload hlength
    rw [frame]
    split
    · exact ⟨_, rfl⟩
    · split
      · exact ⟨_, rfl⟩
      · exact ⟨_, rfl⟩

theorem flatten_singletons (bytes : Bytes) : (bytes.map fun b => [b]).flatten = bytes := by
  induction bytes with
  | nil => rfl
  | cons b bytes ih => exact congrArg (b :: ·) ih

/-- The first fragment of a message, with its length in two bytes. -/
def exampleFirst : Sent where
  fin := false
  op := OP_BINARY
  form := .medium
  mask := [1, 2, 3, 4]
  payload := [104, 101]
  op_lt := by decide
  mask_length := rfl
  fits := (by decide : 2 < 2 ^ 16)
  payload_le := by decide

/-- A ping between the fragments. -/
def examplePing : Sent where
  fin := true
  op := OP_PING
  form := .short
  mask := [5, 6, 7, 8]
  payload := [7]
  op_lt := by decide
  mask_length := rfl
  fits := (by decide : 1 < 126)
  payload_le := by decide

/-- The last fragment, with its length in eight bytes. -/
def exampleLast : Sent where
  fin := true
  op := 0x0
  form := .long
  mask := [9, 9, 9, 9]
  payload := [121]
  op_lt := by decide
  mask_length := rfl
  fits := (by decide : [(121 : UInt8)].length < 2 ^ 64)
  payload_le := by decide

theorem reader_sound_fragments :
    (∃ out, reader.feedAll ([], [])
        (([exampleFirst, examplePing, exampleLast].flatMap Sent.encode).map fun b => [b]) =
        .ok (out, [], []) ∧
      data out = [[104, 101, 121]] ∧ toVnc (relay out).1 = [[104, 101, 121]] ∧
      toClient (relay out).1 = [[7]].map (fun payload => (OP_PONG, payload)) ∧ (relay out).2 = true) ∧
    readFrame MAX_FRAME ([0x82, 3, 104, 101, 121] ++ [0x82]) =
      .item [⟨true, OP_BINARY &&& 0x0F, [104, 101, 121]⟩] () [0x82] := by
  have hlast : Sends (some exampleFirst.payload) [[104, 101, 121]] [] [exampleLast] :=
    .last (m := [104, 101]) (f := exampleLast) rfl rfl .nil
  have hsends : Sends none [[104, 101, 121]] [[7]] [exampleFirst, examplePing, exampleLast] :=
    .first (.inr rfl) rfl (.ping (f := examplePing) rfl rfl hlast)
  have hlimit : ([104, 101, 121] : Bytes).length ≤ MAX_FRAME := by decide
  have hframe : frame OP_BINARY [104, 101, 121] = some [0x82, 3, 104, 101, 121] := rfl
  exact ⟨reader_sound.1 hsends (flatten_singletons _), reader_sound.2.1 hframe hlimit [0x82]⟩

end VncBridge
end CloudCore
