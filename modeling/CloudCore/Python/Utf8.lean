import Mathlib.Algebra.GroupWithZero.Nat
import Mathlib.Data.Char
import Mathlib.Data.List.Basic
import Mathlib.Data.Nat.Notation

/-!
# Texts as UTF-8 bytes

`str.encode` and `bytes.decode` with `errors="replace"`.  One character is decoded by
`ByteArray.utf8DecodeChar?`; what is added here is what becomes of bytes that are none.

## Main definitions

* `encode`, `decodeReplace` — writing a text, and reading bytes as one.

## Main results

* `decodeReplace_encode` — reading undoes writing.
-/

namespace Python
namespace Utf8

/-- `text.encode()`. -/
def encode (text : List Char) : List UInt8 := text.flatMap String.utf8EncodeChar

def isContinuation (b : UInt8) : Bool := 0x80 ≤ b && b ≤ 0xBF

/-- How many bytes should follow a first one. -/
def following (lead : UInt8) : ℕ :=
  if 0xC2 ≤ lead && lead ≤ 0xDF then 1
  else if 0xE0 ≤ lead && lead ≤ 0xEF then 2
  else if 0xF0 ≤ lead && lead ≤ 0xF4 then 3
  else 0

/-- The second byte of a character is bound further by the first one: no longer form than needed, no
surrogate, nothing beyond the last code point. -/
def isSecond (lead b : UInt8) : Bool :=
  isContinuation b && !(lead == 0xE0 && b < 0xA0) && !(lead == 0xED && 0xA0 ≤ b) &&
    !(lead == 0xF0 && b < 0x90) && !(lead == 0xF4 && 0x90 ≤ b)

/-- The bytes for which one replacement character stands: those that began a character. -/
def badLength (lead : UInt8) (rest : List UInt8) : ℕ :=
  match rest with
  | [] => 1
  | second :: rest =>
    if following lead ≠ 0 ∧ isSecond lead second then
      2 + ((rest.take (following lead - 1)).takeWhile isContinuation).length
    else 1

theorem badLength_pos (lead : UInt8) (rest : List UInt8) : 0 < badLength lead rest := by
  unfold badLength
  split
  · exact Nat.one_pos
  · split <;> omega

/-- `bytes.decode("utf-8", errors="replace")`. -/
def decodeReplace : List UInt8 → List Char
  | [] => []
  | lead :: rest =>
    match (lead :: rest).toByteArray.utf8DecodeChar? 0 with
    | some c => c :: decodeReplace ((lead :: rest).drop c.utf8Size)
    | none => '\uFFFD' :: decodeReplace ((lead :: rest).drop (badLength lead rest))
termination_by bytes => bytes.length
decreasing_by
  · have hsize := c.utf8Size_pos
    simp only [List.length_drop, List.length_cons]
    omega
  · have hsize := badLength_pos lead rest
    simp only [List.length_drop, List.length_cons]
    omega

theorem toByteArray_append (xs ys : List UInt8) :
    (xs ++ ys).toByteArray = xs.toByteArray ++ ys.toByteArray := by
  simp

/-- A written character is read, and no more than it. -/
theorem decodeReplace_encodeChar (c : Char) (bytes : List UInt8) :
    decodeReplace (String.utf8EncodeChar c ++ bytes) = c :: decodeReplace bytes := by
  obtain ⟨lead, rest, hcons⟩ :=
    List.exists_cons_of_ne_nil (List.append_ne_nil_of_left_ne_nil (String.utf8EncodeChar_ne_nil (c := c)) bytes)
  have hchar : (lead :: rest).toByteArray.utf8DecodeChar? 0 = some c := by
    rw [← hcons, toByteArray_append]
    exact ByteArray.utf8DecodeChar?_utf8EncodeChar_append
  have hdrop : (lead :: rest).drop c.utf8Size = bytes := by
    rw [← hcons, ← String.length_utf8EncodeChar, List.drop_left]
  rw [hcons, decodeReplace, hchar]
  dsimp only
  rw [hdrop]

/-- **Reading undoes writing.** -/
theorem decodeReplace_encode (text : List Char) : decodeReplace (encode text) = text := by
  induction text with
  | nil => rw [encode, List.flatMap_nil, decodeReplace]
  | cons c text ih =>
    rw [encode, List.flatMap_cons, decodeReplace_encodeChar]
    exact congrArg (c :: ·) ih

end Utf8
end Python
