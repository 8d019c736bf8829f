import CloudCore.Formats.Binary
import CloudCore.Python.Utf8

/-!
# The layer count of a GGUF file

`gguf_meta.py`: a reader that passes over the pairs of a header up to the key of the layer count.  The
interpreter bounds the depth of calls; `frames` is what it leaves to the calls below `block_count`.

## Main definitions

* `blockCount` — the reader, on the bytes of a file.
* `Value`, `Header` — what a header holds, and `Header.encode`, the bytes of it.
* `expected` — what the header says of the layer count.

## Main results

* `skipValue_reads`, `skipValue_stops` — a value is passed over as a whole, or its depth exceeds the
  bound.
* `blockCount_iff` — **the layer count is read iff the values before it are not too deep.**
-/

namespace CloudCore
namespace GgufMeta

open Formats Formats.Binary Python

/-- `struct.error`, and the exceptions that `block_count` does not catch. -/
inductive Failure where
  | struct
  | overflow
  | recursion
  | unknownType (vtype : ℕ)
  deriving DecidableEq

/-- `_SCALAR_SIZES`. -/
def scalarSize : ℕ → Option ℕ
  | 0 => some 1
  | 1 => some 1
  | 2 => some 2
  | 3 => some 2
  | 4 => some 4
  | 5 => some 4
  | 6 => some 4
  | 7 => some 1
  | 10 => some 8
  | 11 => some 8
  | 12 => some 8
  | _ => none

/-- `f.read(n)`: all that is left, if that is less.  The index has to fit a machine word. -/
def read (n : ℕ) : Reader Failure (List UInt8) :=
  if n < 2 ^ 63 then fun bytes => .ok (bytes.take n, bytes.drop n) else fail .overflow

/-- `struct.unpack` of one number without a sign. -/
def unpack (size : ℕ) : Reader Failure ℕ := do
  let bytes ← read size
  if bytes.length = size then pure (ofLe bytes) else fail .struct

/-- `struct.unpack` of one number with a sign. -/
def unpackSigned (size : ℕ) : Reader Failure ℤ := do
  let word ← unpack size
  pure (BitVec.ofNat (8 * size) word).toInt

def readStr : ℕ → Reader Failure (List Char)
  | 0 => fail .recursion
  | _ + 1 => do
    let n ← unpack 8
    let bytes ← read n
    pure (Utf8.decodeReplace bytes)

def skipValue : ℕ → ℕ → Reader Failure Unit
  | 0, _ => fail .recursion
  | frames + 1, vtype =>
    if vtype = 8 then do
      let _ ← readStr frames
      pure ()
    else if vtype = 9 then do
      let elemType ← unpack 4
      let count ← unpack 8
      times count (skipValue frames elemType)
    else
      match scalarSize vtype with
      | some size => do
        let _ ← read size
        pure ()
      | none => fail (.unknownType vtype)

/-- What `_read_scalar` returns. -/
inductive Answer where
  | int (z : ℤ)
  | str (s : List Char)
  deriving DecidableEq

def readScalar : ℕ → ℕ → Reader Failure (Option Answer)
  | 0, _ => fail .recursion
  | frames + 1, vtype =>
    if vtype = 8 then do
      let s ← readStr frames
      pure (some (.str s))
    else if vtype = 4 ∨ vtype = 10 then do
      let n ← unpack (if vtype = 4 then 4 else 8)
      pure (some (.int n))
    else if vtype = 5 ∨ vtype = 11 then do
      let z ← unpackSigned (if vtype = 5 then 4 else 8)
      pure (some (.int z))
    else if vtype = 2 then do
      let n ← unpack 2
      pure (some (.int n))
    else if vtype = 3 then do
      let z ← unpackSigned 2
      pure (some (.int z))
    else do
      skipValue frames vtype
      pure none

def isBlockCount (key : List Char) : Bool := ".block_count".toList.isSuffixOf key

/-- The pairs of the header, up to the layer count. -/
def search (frames : ℕ) : ℕ → Reader Failure (Option Answer)
  | 0 => pure none
  | n + 1 => do
    let key ← readStr frames
    let vtype ← unpack 4
    if isBlockCount key then readScalar frames vtype
    else
      skipValue frames vtype
      search frames n

def magic : List UInt8 := [0x47, 0x47, 0x55, 0x46]

def readHeader (frames : ℕ) : Reader Failure (Option Answer) := do
  let start ← read 4
  if start ≠ magic then pure none
  else
    let _version ← unpack 4
    let _tensorCount ← unpack 8
    let kvCount ← unpack 8
    search frames kvCount

/-- `block_count`, of the bytes of the file if it could be opened. -/
def blockCount (frames : ℕ) (file : Option (List UInt8)) : Except Failure (Option Answer) :=
  match file with
  | none => .ok none
  | some bytes =>
    match readHeader frames bytes with
    | .ok (result, _) => .ok result
    | .error .struct => .ok none
    | .error e => .error e

/-! ### What a header holds -/

inductive ScalarKind where
  | uint8 | int8 | uint16 | int16 | uint32 | int32 | float32 | bool | uint64 | int64 | float64
  deriving DecidableEq

namespace ScalarKind

def size : ScalarKind → ℕ
  | uint8 | int8 | bool => 1
  | uint16 | int16 => 2
  | uint32 | int32 | float32 => 4
  | uint64 | int64 | float64 => 8

def code : ScalarKind → ℕ
  | uint8 => 0
  | int8 => 1
  | uint16 => 2
  | int16 => 3
  | uint32 => 4
  | int32 => 5
  | float32 => 6
  | bool => 7
  | uint64 => 10
  | int64 => 11
  | float64 => 12

/-- The integer of 16, 32 or 64 bits. -/
def int? : (kind : ScalarKind) → BitVec (8 * kind.size) → Option ℤ
  | uint16, bits | uint32, bits | uint64, bits => some bits.toNat
  | int16, bits | int32, bits | int64, bits => some bits.toInt
  | _, _ => none

end ScalarKind

inductive ValueType where
  | scalar (kind : ScalarKind)
  | string
  | array
  deriving DecidableEq

def ValueType.code : ValueType → ℕ
  | scalar kind => kind.code
  | string => 8
  | array => 9

/-- A text that a file can hold. -/
structure Text where
  chars : List Char
  short : (Utf8.encode chars).length < 2 ^ 63

mutual

/-- A value of a type; the elements of an array are of one type. -/
inductive Value : ValueType → Type
  | scalar (kind : ScalarKind) (bits : BitVec (8 * kind.size)) : Value (.scalar kind)
  | string (text : Text) : Value .string
  | array (type : ValueType) (count : ℕ) (elems : Values type count) (fits : count < 2 ^ 64) :
      Value .array

inductive Values : ValueType → ℕ → Type
  | nil (type : ValueType) : Values type 0
  | cons {type : ValueType} {count : ℕ} (value : Value type) (elems : Values type count) :
      Values type (count + 1)

end

structure Pair where
  key : Text
  type : ValueType
  value : Value type

structure Header where
  version : UInt32
  tensorCount : UInt64
  pairs : List Pair
  fits : pairs.length < 2 ^ 64

/-! ### The bytes of a header -/

def Text.encode (text : Text) : List UInt8 :=
  toLe 8 (Utf8.encode text.chars).length ++ Utf8.encode text.chars

mutual

def Value.encode {type : ValueType} : Value type → List UInt8
  | .scalar kind bits => toLe kind.size bits.toNat
  | .string text => text.encode
  | .array type count elems _ => toLe 4 type.code ++ (toLe 8 count ++ elems.encode)

def Values.encode {type : ValueType} {count : ℕ} : Values type count → List UInt8
  | .nil _ => []
  | .cons value elems => value.encode ++ elems.encode

end

def Pair.encode (pair : Pair) : List UInt8 :=
  pair.key.encode ++ (toLe 4 pair.type.code ++ pair.value.encode)

def Header.encode (header : Header) : List UInt8 :=
  magic ++ (toLe 4 header.version.toNat ++ (toLe 8 header.tensorCount.toNat ++
    (toLe 8 header.pairs.length ++ header.pairs.flatMap Pair.encode)))

/-! ### What should be read -/

mutual

/-- The calls that are open at once while the value is passed over. -/
def Value.frames {type : ValueType} : Value type → ℕ
  | .scalar _ _ => 1
  | .string _ => 2
  | .array _ _ elems _ => elems.frames + 1

def Values.frames {type : ValueType} {count : ℕ} : Values type count → ℕ
  | .nil _ => 0
  | .cons value elems => max value.frames elems.frames

end

def Pair.isBlockCount (pair : Pair) : Bool := GgufMeta.isBlockCount pair.key.chars

def Value.int? {type : ValueType} : Value type → Option ℤ
  | .scalar kind bits => kind.int? bits
  | _ => none

/-- The layer count, or that there is none, where the header says so. -/
def expected (pairs : List Pair) : Option (Option ℤ) :=
  match pairs.find? Pair.isBlockCount with
  | none => some none
  | some pair => pair.value.int?.map some

/-- The calls that are open at once, over the pairs up to the layer count. -/
def frames : List Pair → ℕ
  | [] => 0
  | pair :: pairs => if pair.isBlockCount then 1 else max pair.value.frames (frames pairs)

/-! ### Reading what was written -/

theorem reads_read {n : ℕ} {bytes : List UInt8} (hn : bytes.length = n) (hfits : n < 2 ^ 63) :
    Reads (read n) bytes bytes := by
  intro rest
  unfold read
  rw [if_pos hfits, ← hn, List.take_left, List.drop_left]

theorem reads_unpack {size v : ℕ} (hsize : size < 2 ^ 63) (hv : v < 256 ^ size) :
    Reads (unpack size) (toLe size v) v := by
  have hlength := length_toLe size v
  refine (reads_read hlength hsize).bind_nil ?_
  rw [if_pos hlength, ofLe_toLe hv]
  exact .pure v

theorem reads_unpackSigned {size : ℕ} (hsize : size < 2 ^ 63) (bits : BitVec (8 * size)) :
    Reads (unpackSigned size) (toLe size bits.toNat) bits.toInt := by
  have hbits : bits.toNat < 256 ^ size := by
    have hlt := bits.isLt
    rwa [pow_mul] at hlt
  refine (reads_unpack hsize hbits).bind_nil ?_
  rw [BitVec.ofNat_toNat, BitVec.setWidth_eq]
  exact .pure _

theorem reads_readStr (text : Text) (frames : ℕ) :
    Reads (readStr (frames + 1)) text.encode text.chars := by
  have hshort := text.short
  have hcount : (Utf8.encode text.chars).length < 256 ^ 8 := by omega
  refine (reads_unpack (by decide) hcount).bind ((reads_read rfl hshort).bind_nil ?_)
  rw [Utf8.decodeReplace_encode]
  exact .pure _

theorem code_lt (type : ValueType) : type.code < 256 ^ 4 := by
  cases type with
  | scalar kind => cases kind <;> decide
  | string => decide
  | array => decide

/-- The table of sizes is right, and none of its types is a string or an array. -/
theorem scalarSize_code (kind : ScalarKind) :
    kind.code ≠ 8 ∧ kind.code ≠ 9 ∧ scalarSize kind.code = some kind.size := by
  cases kind <;> decide

theorem size_lt (kind : ScalarKind) : kind.size < 2 ^ 63 := by cases kind <;> decide

theorem skipValue_scalar (kind : ScalarKind) (frames : ℕ) :
    skipValue (frames + 1) (ValueType.scalar kind).code = (do
      let _ ← read kind.size
      pure ()) := by
  obtain ⟨hstring, harray, hsize⟩ := scalarSize_code kind
  rw [ValueType.code, skipValue, if_neg hstring, if_neg harray, hsize]

theorem skipValue_string (frames : ℕ) :
    skipValue (frames + 1) ValueType.string.code = (do
      let _ ← readStr frames
      pure ()) := rfl

theorem skipValue_array (frames : ℕ) :
    skipValue (frames + 1) ValueType.array.code = (do
      let elemType ← unpack 4
      let count ← unpack 8
      times count (skipValue frames elemType)) := rfl

mutual

/-- A value is passed over as a whole. -/
theorem skipValue_reads {type : ValueType} : ∀ (value : Value type) {frames : ℕ},
    value.frames ≤ frames → Reads (skipValue frames type.code) value.encode ()
  | .scalar kind bits, frames + 1, _ => by
    rw [skipValue_scalar]
    exact (reads_read (length_toLe _ _) (size_lt kind)).bind_nil (.pure _)
  | .string text, frames + 2, _ => by
    rw [skipValue_string]
    exact (reads_readStr text frames).bind_nil (.pure _)
  | .array elemType count elems fits, frames + 1, h => by
    rw [skipValue_array]
    refine (reads_unpack (by decide) (code_lt elemType)).bind
      ((reads_unpack (by decide) (fits.trans_eq (by decide))).bind ?_)
    exact times_reads elems (Nat.le_of_succ_le_succ h)

theorem times_reads {type : ValueType} {count : ℕ} : ∀ (elems : Values type count) {frames : ℕ},
    elems.frames ≤ frames → Reads (times count (skipValue frames type.code)) elems.encode ()
  | .nil _, _, _ => .pure _
  | .cons value elems, _, h =>
    (skipValue_reads value (le_of_max_le_left h)).bind (times_reads elems (le_of_max_le_right h))

end

mutual

/-- A value that is too deep is not passed over. -/
theorem skipValue_stops {type : ValueType} : ∀ (value : Value type) {frames : ℕ},
    frames < value.frames → Stops (skipValue frames type.code) value.encode .recursion
  | _, 0, _ => .fail _ _
  | .scalar _ _, _ + 1, h => absurd h (by simp [Value.frames])
  | .string _, 1, _ => fun _ => rfl
  | .string _, _ + 2, h => absurd h (by simp [Value.frames])
  | .array elemType count elems fits, frames + 1, h => by
    rw [skipValue_array]
    refine (reads_unpack (by decide) (code_lt elemType)).bind_stops
      ((reads_unpack (by decide) (fits.trans_eq (by decide))).bind_stops ?_)
    exact times_stops elems (Nat.lt_of_succ_lt_succ h)

theorem times_stops {type : ValueType} {count : ℕ} : ∀ (elems : Values type count) {frames : ℕ},
    frames < elems.frames → Stops (times count (skipValue frames type.code)) elems.encode .recursion
  | .nil _, _, h => absurd h (Nat.not_lt_zero _)
  | .cons value elems, frames, h => by
    by_cases hvalue : frames < value.frames
    · exact (skipValue_stops value hvalue).bind _
    · -- the first value is passed over, and one after it is too deep
      have helems : frames < elems.frames := by
        rw [Values.frames] at h
        omega
      exact (skipValue_reads value (not_lt.mp hvalue)).bind_stops (times_stops elems helems)

end

theorem frames_pos {type : ValueType} (value : Value type) : 0 < value.frames := by
  cases value <;> simp [Value.frames]

theorem readScalar_reads {kind : ScalarKind} {bits : BitVec (8 * kind.size)} {z : ℤ} (frames : ℕ)
    (h : kind.int? bits = some z) :
    Reads (readScalar (frames + 1) kind.code) (toLe kind.size bits.toNat) (some (.int z)) := by
  have hbits : bits.toNat < 256 ^ kind.size := by
    have hlt := bits.isLt
    rwa [pow_mul] at hlt
  have hunsigned : ∀ size, kind.size = size →
      Reads (do
        let n ← unpack size
        pure (some (Answer.int n))) (toLe kind.size bits.toNat) (some (.int bits.toNat)) := by
    rintro _ rfl
    exact (reads_unpack (size_lt kind) hbits).bind_nil (.pure _)
  have hsigned : ∀ size, kind.size = size →
      Reads (do
        let z ← unpackSigned size
        pure (some (Answer.int z))) (toLe kind.size bits.toNat) (some (.int bits.toInt)) := by
    rintro _ rfl
    exact (reads_unpackSigned (size_lt kind) bits).bind_nil (.pure _)
  cases kind with
  | uint16 => cases h; exact hunsigned 2 rfl
  | int16 => cases h; exact hsigned 2 rfl
  | uint32 => cases h; exact hunsigned 4 rfl
  | int32 => cases h; exact hsigned 4 rfl
  | uint64 => cases h; exact hunsigned 8 rfl
  | int64 => cases h; exact hsigned 8 rfl
  | uint8 => cases h
  | int8 => cases h
  | float32 => cases h
  | bool => cases h
  | float64 => cases h

theorem readScalar_value {type : ValueType} {value : Value type} {z : ℤ} (frames : ℕ)
    (h : value.int? = some z) :
    Reads (readScalar (frames + 1) type.code) value.encode (some (.int z)) := by
  cases value with
  | scalar kind bits => exact readScalar_reads frames h
  | string text => cases h
  | array type count elems fits => cases h

theorem expected_cons (pair : Pair) (pairs : List Pair) :
    expected (pair :: pairs) =
      if pair.isBlockCount then pair.value.int?.map some else expected pairs := by
  unfold expected
  rw [List.find?_cons]
  cases pair.isBlockCount <;> rfl

/-- The search answers what the header says, from the pairs that it reads. -/
theorem search_reads {limit : ℕ} : ∀ {pairs : List Pair} {answer : Option ℤ},
    frames pairs ≤ limit → expected pairs = some answer →
      ∃ xs ys, pairs.flatMap Pair.encode = xs ++ ys ∧
        Reads (search limit pairs.length) xs (answer.map .int)
  | [], _, _, rfl => ⟨[], [], rfl, .pure _⟩
  | pair :: pairs, answer, hframes, hexpected => by
    rw [expected_cons] at hexpected
    rw [frames] at hframes
    have hcode := reads_unpack (by decide) (code_lt pair.type)
    cases hkey : pair.isBlockCount with
    | true =>
      rw [hkey, if_pos rfl] at hframes
      rw [hkey, if_pos rfl, Option.map_eq_some_iff] at hexpected
      obtain ⟨z, hz, rfl⟩ := hexpected
      obtain ⟨limit, rfl⟩ := Nat.exists_eq_add_of_le' hframes
      refine ⟨pair.encode, pairs.flatMap Pair.encode, rfl,
        (reads_readStr pair.key limit).bind (hcode.bind ?_)⟩
      rw [if_pos (show GgufMeta.isBlockCount pair.key.chars = true from hkey)]
      exact readScalar_value limit hz
    | false =>
      rw [hkey, if_neg Bool.false_ne_true] at hexpected hframes
      obtain ⟨xs, ys, hbytes, hreads⟩ := search_reads (le_of_max_le_right hframes) hexpected
      have hvalue : pair.value.frames ≤ limit := le_of_max_le_left hframes
      obtain ⟨limit, rfl⟩ := Nat.exists_eq_add_of_le' ((frames_pos pair.value).trans_le hvalue)
      refine ⟨pair.key.encode ++ (toLe 4 pair.type.code ++ (pair.value.encode ++ xs)), ys, ?_,
        (reads_readStr pair.key limit).bind (hcode.bind ?_)⟩
      · simp only [List.flatMap_cons, hbytes, Pair.encode, List.append_assoc]
      · rw [if_neg (by rw [← Pair.isBlockCount, hkey]; exact Bool.false_ne_true)]
        exact (skipValue_reads pair.value hvalue).bind hreads

theorem search_stops {limit : ℕ} : ∀ {pairs : List Pair}, limit < frames pairs →
    Stops (search limit pairs.length) (pairs.flatMap Pair.encode) .recursion
  | [], h => absurd h (Nat.not_lt_zero _)
  | pair :: pairs, hframes => by
    rw [frames] at hframes
    rw [List.flatMap_cons, Pair.encode, List.append_assoc, List.append_assoc]
    cases limit with
    | zero => exact fun _ => rfl
    | succ limit =>
      refine (reads_readStr pair.key limit).bind_stops
        ((reads_unpack (by decide) (code_lt pair.type)).bind_stops ?_)
      cases hkey : pair.isBlockCount with
      | true =>
        rw [hkey, if_pos rfl] at hframes
        omega
      | false =>
        rw [hkey, if_neg Bool.false_ne_true] at hframes
        rw [if_neg (by rw [← Pair.isBlockCount, hkey]; exact Bool.false_ne_true)]
        by_cases hvalue : limit + 1 < pair.value.frames
        · exact (skipValue_stops pair.value hvalue).bind _
        · exact (skipValue_reads pair.value (not_lt.mp hvalue)).bind_stops
            (search_stops (by omega))

/-- What comes before the pairs is read whatever it is. -/
theorem readHeader_eq (header : Header) (limit : ℕ) (data : List UInt8) :
    readHeader limit (header.encode ++ data) =
      search limit header.pairs.length (header.pairs.flatMap Pair.encode ++ data) := by
  have hmagic : Reads (read 4) magic magic := reads_read rfl (by decide)
  have hversion : header.version.toNat < 256 ^ 4 := header.version.toNat_lt
  have htensors : header.tensorCount.toNat < 256 ^ 8 := header.tensorCount.toNat_lt
  have hpairs : header.pairs.length < 256 ^ 8 := header.fits
  unfold readHeader Header.encode
  simp only [List.append_assoc]
  rw [hmagic.bind_eq, if_neg (not_not.mpr rfl),
    (reads_unpack (by decide) hversion).bind_eq, (reads_unpack (by decide) htensors).bind_eq,
    (reads_unpack (by decide) hpairs).bind_eq]

theorem blockCount_of_frames_le {header : Header} {limit : ℕ} {answer : Option ℤ}
    (hframes : frames header.pairs ≤ limit) (hexpected : expected header.pairs = some answer)
    (data : List UInt8) :
    blockCount limit (some (header.encode ++ data)) = .ok (answer.map .int) := by
  obtain ⟨xs, ys, hbytes, hreads⟩ := search_reads hframes hexpected
  rw [blockCount, readHeader_eq, hbytes, List.append_assoc, hreads]

theorem blockCount_of_lt_frames {header : Header} {limit : ℕ} (hframes : limit < frames header.pairs)
    (data : List UInt8) :
    blockCount limit (some (header.encode ++ data)) = .error .recursion := by
  rw [blockCount, readHeader_eq, search_stops hframes]

/-- **The layer count is read, and its absence is noticed, iff the interpreter allows the calls for
the values before it.** -/
theorem blockCount_iff (header : Header) (data : List UInt8) (limit : ℕ) :
    (∀ answer, expected header.pairs = some answer →
        blockCount limit (some (header.encode ++ data)) = .ok (answer.map .int)) ↔
      ((expected header.pairs).isSome → frames header.pairs ≤ limit) := by
  constructor
  · intro h hsome
    obtain ⟨answer, hanswer⟩ := Option.isSome_iff_exists.mp hsome
    by_contra hlt
    have hread := h answer hanswer
    rw [blockCount_of_lt_frames (not_le.mp hlt)] at hread
    cases hread
  · intro h answer hanswer
    exact blockCount_of_frames_le (h (Option.isSome_of_eq_some hanswer)) hanswer data

/-- An empty array in arrays of one element each. -/
def nested : ℕ → Value .array
  | 0 => .array (.scalar .uint8) 0 (.nil _) (by decide)
  | n + 1 => .array .array 1 (.cons (nested n) (.nil _)) (by decide)

theorem frames_nested (n : ℕ) : (nested n).frames = n + 1 := by
  induction n with
  | zero => rfl
  | succ n ih => rw [nested, Value.frames, Values.frames, Values.frames, ih, Nat.max_zero]

/-- One array of a depth that the interpreter does not allow. -/
def deepHeader (depth : ℕ) : Header where
  version := 3
  tensorCount := 0
  pairs := [⟨⟨"general.tags".toList, by decide⟩, .array, nested depth⟩]
  fits := Nat.one_lt_two_pow (by decide)

theorem expected_deepHeader (depth : ℕ) : expected (deepHeader depth).pairs = some none := rfl

theorem lt_frames_deepHeader (depth : ℕ) : depth < frames (deepHeader depth).pairs := by
  refine lt_max_of_lt_left ?_
  rw [frames_nested]
  exact Nat.lt_succ_self depth

/-- No key of the header is that of the layer count, and the answer is not that there is none. -/
theorem too_deep :
    expected (deepHeader 1000).pairs = some none ∧
      blockCount 1000 (some ((deepHeader 1000).encode ++ [])) ≠ .ok none := by
  refine ⟨expected_deepHeader 1000, ?_⟩
  rw [blockCount_of_lt_frames (lt_frames_deepHeader 1000)]
  exact fun h => by cases h

end GgufMeta
end CloudCore
