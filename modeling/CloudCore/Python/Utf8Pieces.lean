import CloudCore.Python.Utf8
import Mathlib.Data.List.TakeWhile

/-!
# Decoding bytes in pieces

A text that is decoded piece by piece, against the text of all of its bytes.  What is decoded at
once is a unit: the bytes of a character, or bytes for which one replacement character stands.  A
unit within a piece is decoded there as in the whole; of one that is cut, the first part and each
further byte is a replacement character.

## Main definitions

* `unitLen`, `unitChar` — the first unit of some bytes.
* `marks` — the characters of the whole, each with what the pieces show of it.
* `Clean` — the first characters of the whole are those that the pieces show.

## Main results

* `texts_marks`, `shown_marks` — the marks hold both texts.
* `take_eq_take_iff` — **the first characters agree exactly if the pieces are clean.**
-/

namespace Python
namespace Utf8

/-! ### Units -/

/-- How many bytes the first unit has. -/
def unitLen : List UInt8 → ℕ
  | [] => 0
  | lead :: rest =>
    match (lead :: rest).toByteArray.utf8DecodeChar? 0 with
    | some c => c.utf8Size
    | none => badLength lead rest

/-- What the first unit is decoded to. -/
def unitChar (bytes : List UInt8) : Char :=
  (bytes.toByteArray.utf8DecodeChar? 0).getD '\uFFFD'

theorem decodeReplace_eq {bytes : List UInt8} (h : bytes ≠ []) :
    decodeReplace bytes = unitChar bytes :: decodeReplace (bytes.drop (unitLen bytes)) := by
  cases bytes with
  | nil => exact absurd rfl h
  | cons lead rest =>
    rw [decodeReplace, unitChar, unitLen]
    cases (lead :: rest).toByteArray.utf8DecodeChar? 0 with
    | some c => rfl
    | none => rfl

theorem unitLen_pos {bytes : List UInt8} (h : bytes ≠ []) : 0 < unitLen bytes := by
  cases bytes with
  | nil => exact absurd rfl h
  | cons lead rest =>
    rw [unitLen]
    split
    · exact Char.utf8Size_pos _
    · exact badLength_pos lead rest

/-- A character is decoded where its bytes stand. -/
theorem decodes_iff {bytes : List UInt8} {c : Char} :
    bytes.toByteArray.utf8DecodeChar? 0 = some c ↔ String.utf8EncodeChar c <+: bytes := by
  constructor
  · intro h
    obtain ⟨rest, hrest⟩ := ByteArray.exists_of_utf8DecodeChar?_eq_some h
    refine ⟨rest.data.toList, ?_⟩
    have hdata := congrArg (fun b : ByteArray => b.data.toList) hrest
    simpa using hdata.symm
  · rintro ⟨rest, rfl⟩
    rw [toByteArray_append]
    exact ByteArray.utf8DecodeChar?_utf8EncodeChar_append

theorem decodes_eq_none {bytes : List UInt8} (h : ∀ c, ¬String.utf8EncodeChar c <+: bytes) :
    bytes.toByteArray.utf8DecodeChar? 0 = none :=
  Option.eq_none_iff_forall_ne_some.mpr fun c hc => h c (decodes_iff.mp hc)

/-- No character is the beginning of another one. -/
theorem eq_of_encode_prefix {c d : Char} (h : String.utf8EncodeChar c <+: String.utf8EncodeChar d) :
    c = d :=
  Option.some_inj.mp ((decodes_iff.mpr h).symm.trans (decodes_iff.mpr List.prefix_rfl))

/-! ### The bytes of a character -/

theorem isContinuation_iff {b : UInt8} : isContinuation b = true ↔ 128 ≤ b.toNat ∧ b.toNat ≤ 191 := by
  simp [isContinuation, UInt8.le_iff_toNat_le]

theorem isContinuation_of_isSecond {lead b : UInt8} (h : isSecond lead b = true) :
    isContinuation b = true := by
  simp only [isSecond, Bool.and_eq_true] at h
  exact h.1.1.1.1

theorem following_eq (lead : UInt8) : following lead =
    if 194 ≤ lead.toNat ∧ lead.toNat ≤ 223 then 1
    else if 224 ≤ lead.toNat ∧ lead.toNat ≤ 239 then 2
    else if 240 ≤ lead.toNat ∧ lead.toNat ≤ 244 then 3
    else 0 := by
  simp [following, UInt8.le_iff_toNat_le]

theorem following_eq_zero {b : UInt8} (h : isContinuation b = true) : following b = 0 := by
  obtain ⟨hle, hlt⟩ := isContinuation_iff.mp h
  rw [following_eq, if_neg (by omega), if_neg (by omega), if_neg (by omega)]

theorem isSecond_iff {lead b : UInt8} : isSecond lead b = true ↔
    (128 ≤ b.toNat ∧ b.toNat ≤ 191) ∧ ¬(lead.toNat = 224 ∧ b.toNat < 160) ∧
      ¬(lead.toNat = 237 ∧ 160 ≤ b.toNat) ∧ ¬(lead.toNat = 240 ∧ b.toNat < 144) ∧
      ¬(lead.toNat = 244 ∧ 144 ≤ b.toNat) := by
  simp only [isSecond, Bool.and_eq_true, isContinuation_iff, Bool.not_eq_true', ← Bool.not_eq_true,
    beq_iff_eq, decide_eq_true_eq, UInt8.lt_iff_toNat_lt, UInt8.le_iff_toNat_le, ← UInt8.toNat_inj]
  tauto

/-- The bytes of a character: the first one says how many follow, and these are as they should be. -/
structure WellLed (lead : UInt8) (rest : List UInt8) : Prop where
  following : following lead = rest.length
  begins : isContinuation lead = false
  second : ∀ b ∈ rest.head?, isSecond lead b = true
  tail : ∀ b ∈ rest, isContinuation b = true

/-- A byte that holds six bits of a code point. -/
theorem isContinuation_ofNat (v : ℕ) : isContinuation (UInt8.ofNat (v % 64 + 128)) = true := by
  rw [isContinuation_iff, UInt8.toNat_ofNat']
  omega

/-- A character is well led, whatever its code point. -/
theorem wellLed_encode (c : Char) :
    ∃ lead rest, String.utf8EncodeChar c = lead :: rest ∧ WellLed lead rest := by
  have hvalid : c.val.toNat < 0xD800 ∨ 0xDFFF < c.val.toNat ∧ c.val.toNat < 0x110000 := c.valid
  rw [String.utf8EncodeChar]
  generalize c.val.toNat = v at hvalid
  split
  · refine ⟨_, _, rfl, ?_, ?_, nofun, nofun⟩
    · rw [following_eq, UInt8.toNat_ofNat', if_neg (by omega), if_neg (by omega), if_neg (by omega)]
      rfl
    · rw [← Bool.not_eq_true, isContinuation_iff, UInt8.toNat_ofNat']
      omega
  · split
    · refine ⟨_, _, rfl, ?_, ?_, ?_, List.forall_mem_singleton.mpr (isContinuation_ofNat _)⟩
      · rw [following_eq, UInt8.toNat_ofNat', if_pos (by omega)]
        rfl
      · rw [← Bool.not_eq_true, isContinuation_iff, UInt8.toNat_ofNat']
        omega
      · rintro b ⟨⟩
        simp only [isSecond_iff, UInt8.toNat_ofNat']
        omega
    · split
      · refine ⟨_, _, rfl, ?_, ?_, ?_, List.forall_mem_cons.mpr ⟨isContinuation_ofNat _,
          List.forall_mem_singleton.mpr (isContinuation_ofNat _)⟩⟩
        · rw [following_eq, UInt8.toNat_ofNat', if_neg (by omega), if_pos (by omega)]
          rfl
        · rw [← Bool.not_eq_true, isContinuation_iff, UInt8.toNat_ofNat']
          omega
        · rintro b ⟨⟩
          -- no longer form, no surrogate
          simp only [isSecond_iff, UInt8.toNat_ofNat']
          omega
      · refine ⟨_, _, rfl, ?_, ?_, ?_, List.forall_mem_cons.mpr ⟨isContinuation_ofNat _,
          List.forall_mem_cons.mpr ⟨isContinuation_ofNat _,
            List.forall_mem_singleton.mpr (isContinuation_ofNat _)⟩⟩⟩
        · rw [following_eq, UInt8.toNat_ofNat', if_neg (by omega), if_neg (by omega), if_pos (by omega)]
          rfl
        · rw [← Bool.not_eq_true, isContinuation_iff, UInt8.toNat_ofNat']
          omega
        · rintro b ⟨⟩
          -- no longer form, nothing beyond the last code point
          simp only [isSecond_iff, UInt8.toNat_ofNat']
          omega

/-! ### A unit that begins with a piece -/

/-- A run within the first part ends there in the whole. -/
theorem takeWhile_take_append {α : Type*} (p : α → Bool) (m : ℕ) (x y : List α)
    (h : (((x ++ y).take m).takeWhile p).length ≤ x.length) :
    ((x ++ y).take m).takeWhile p = (x.take m).takeWhile p := by
  rw [List.take_append, List.takeWhile_append] at h ⊢
  split
  · next hall =>
    rw [if_pos hall, List.length_append, List.length_take] at h
    rw [(List.takeWhile_prefix p).eq_of_length hall]
    by_cases hm : m ≤ x.length
    · rw [Nat.sub_eq_zero_of_le hm, List.take_zero, List.takeWhile_nil, List.append_nil]
    · rw [List.eq_nil_of_length_eq_zero (l := (y.take (m - x.length)).takeWhile p) (by omega),
        List.append_nil]
  · rfl

/-- A run beyond the first part covers it. -/
theorem takeWhile_take_beyond {α : Type*} (p : α → Bool) (m : ℕ) (x y : List α)
    (h : x.length < (((x ++ y).take m).takeWhile p).length) :
    (x.take m).takeWhile p = x ∧
      ((x ++ y).take m).takeWhile p = x ++ (y.take (m - x.length)).takeWhile p := by
  rw [List.take_append, List.takeWhile_append] at h ⊢
  have hle : ((x.take m).takeWhile p).length ≤ (x.take m).length := (List.takeWhile_prefix p).length_le
  rw [List.length_take] at hle
  split
  · next hall =>
    rw [if_pos hall, List.length_append] at h
    have htake : x.take m = x := by
      refine List.take_of_length_le (not_lt.mp fun hm => ?_)
      rw [Nat.sub_eq_zero_of_le (le_of_lt hm), List.take_zero, List.takeWhile_nil, List.length_take] at h
      simp only [List.length_nil] at h
      omega
    rw [(List.takeWhile_prefix p).eq_of_length hall, htake]
    exact ⟨rfl, rfl⟩
  · next hall =>
    rw [if_neg hall] at h
    omega

theorem of_mem_take_run {α : Type*} {p : α → Bool} {m : ℕ} {y : List α} {b : α}
    (h : b ∈ y.take ((y.take m).takeWhile p).length) : p b = true := by
  have hpre : (y.take m).takeWhile p <+: y := (List.takeWhile_prefix p).trans (List.take_prefix m y)
  rw [← List.prefix_iff_eq_take.mp hpre] at h
  exact List.mem_takeWhile_imp h

theorem badLength_append {lead : UInt8} {x y : List UInt8}
    (h : badLength lead (x ++ y) ≤ x.length + 1) : badLength lead x = badLength lead (x ++ y) := by
  cases x with
  | nil =>
    have hpos := badLength_pos lead y
    exact le_antisymm hpos h
  | cons second x =>
    simp only [badLength, List.cons_append, List.length_cons] at h ⊢
    split
    · next hled =>
      rw [if_pos hled] at h
      rw [takeWhile_take_append isContinuation _ x y (by omega)]
    · rfl

/-- Of a bad unit that goes beyond the first part, that part is one too. -/
theorem badLength_cut {lead : UInt8} {x y : List UInt8} (h : x.length + 1 < badLength lead (x ++ y)) :
    badLength lead x = x.length + 1 ∧
      ∀ b ∈ y.take (badLength lead (x ++ y) - (x.length + 1)), isContinuation b = true := by
  cases x with
  | nil =>
    refine ⟨rfl, ?_⟩
    cases y with
    | nil => exact absurd h (lt_irrefl 1)
    | cons second y =>
      simp only [badLength, List.nil_append, List.length_nil] at h ⊢
      split
      · next hled =>
        refine fun b hb => ?_
        rw [show 2 + ((y.take (following lead - 1)).takeWhile isContinuation).length - 1 =
          ((y.take (following lead - 1)).takeWhile isContinuation).length + 1 by omega,
          List.take_succ_cons] at hb
        obtain rfl | hb := List.mem_cons.mp hb
        · exact isContinuation_of_isSecond hled.2
        · exact of_mem_take_run hb
      · next hled =>
        rw [if_neg hled] at h
        exact absurd h (lt_irrefl 1)
  | cons second x =>
    simp only [badLength, List.cons_append, List.length_cons] at h ⊢
    split
    · next hled =>
      rw [if_pos hled] at h
      obtain ⟨hx, hxy⟩ := takeWhile_take_beyond isContinuation (following lead - 1) x y (by omega)
      rw [hx, hxy, List.length_append]
      refine ⟨by omega, fun b hb => of_mem_take_run (m := following lead - 1 - x.length)
        (List.take_subset_take_left y ?_ hb)⟩
      omega
    · next hled =>
      rw [if_neg hled] at h
      omega

/-- A unit within the first part is the unit there. -/
theorem unit_append {x y : List UInt8} (hne : x ≠ []) (h : unitLen (x ++ y) ≤ x.length) :
    unitLen x = unitLen (x ++ y) ∧ unitChar x = unitChar (x ++ y) := by
  obtain ⟨lead, rest, rfl⟩ := List.exists_cons_of_ne_nil hne
  simp only [List.cons_append, unitLen, unitChar] at h ⊢
  cases hwhole : (lead :: (rest ++ y)).toByteArray.utf8DecodeChar? 0 with
  | some c =>
    simp only [hwhole] at h
    have hpre : String.utf8EncodeChar c <+: lead :: rest := by
      refine List.prefix_of_prefix_length_le (decodes_iff.mp hwhole) (List.prefix_append (lead :: rest) y) ?_
      rwa [String.length_utf8EncodeChar]
    rw [decodes_iff.mpr hpre]
    exact ⟨rfl, rfl⟩
  | none =>
    simp only [hwhole] at h
    have hnone : (lead :: rest).toByteArray.utf8DecodeChar? 0 = none := by
      refine decodes_eq_none fun c hc => ?_
      have hsome := decodes_iff.mpr (hc.trans (List.prefix_append (lead :: rest) y))
      exact Option.some_ne_none c (hsome.symm.trans hwhole)
    rw [hnone]
    exact ⟨badLength_append h, rfl⟩

/-- The beginning of a character is one bad unit. -/
theorem WellLed.badLength {lead : UInt8} {rest more : List UInt8} (h : WellLed lead (rest ++ more))
    (hne : more ≠ []) : badLength lead rest = rest.length + 1 := by
  cases rest with
  | nil => rfl
  | cons second rest =>
    have hfollowing : Utf8.following lead = rest.length + 1 + more.length := by
      rw [h.following, List.length_append, List.length_cons]
    have hmore := List.length_pos_of_ne_nil hne
    have hrun : (rest.take (Utf8.following lead - 1)).takeWhile isContinuation = rest := by
      rw [List.take_of_length_le (by omega)]
      refine List.takeWhile_eq_self_iff.mpr fun b hb => h.tail b ?_
      exact List.mem_append_left more (List.mem_cons_of_mem second hb)
    rw [Utf8.badLength, if_pos ⟨by omega, h.second second rfl⟩, hrun, List.length_cons]
    omega

/-- Of a unit that goes beyond the first part, that part is a bad one, and the bytes behind it begin
nothing. -/
theorem unit_cut {x y : List UInt8} (hne : x ≠ []) (h : x.length < unitLen (x ++ y)) :
    unitLen x = x.length ∧ unitChar x = '\uFFFD' ∧
      ∀ b ∈ y.take (unitLen (x ++ y) - x.length), isContinuation b = true := by
  obtain ⟨lead, rest, rfl⟩ := List.exists_cons_of_ne_nil hne
  simp only [List.cons_append, unitLen, unitChar] at h ⊢
  cases hwhole : (lead :: (rest ++ y)).toByteArray.utf8DecodeChar? 0 with
  | some c =>
    simp only [hwhole] at h ⊢
    rw [← String.length_utf8EncodeChar] at h ⊢
    obtain ⟨more, hmore⟩ : lead :: rest <+: String.utf8EncodeChar c :=
      List.prefix_of_prefix_length_le (List.prefix_append (lead :: rest) y) (decodes_iff.mp hwhole) h.le
    have hnone : (lead :: rest).toByteArray.utf8DecodeChar? 0 = none := by
      refine decodes_eq_none fun d hd => ?_
      obtain rfl := eq_of_encode_prefix (hd.trans ⟨more, hmore⟩)
      exact not_lt.mpr hd.length_le h
    have hne : more ≠ [] := by
      rintro rfl
      rw [← hmore, List.append_nil] at h
      exact lt_irrefl _ h
    obtain ⟨_, _, hcons, hled⟩ := wellLed_encode c
    obtain ⟨rfl, rfl⟩ := List.cons_eq_cons.mp (hmore.trans hcons)
    rw [hnone]
    refine ⟨hled.badLength hne, rfl, fun b hb => hled.tail b (List.mem_append_right rest ?_)⟩
    -- what is missing of the character is what comes next
    have hpre : more <+: y := by
      have hchar := decodes_iff.mp hwhole
      rw [← hmore, ← List.cons_append] at hchar
      exact (List.prefix_append_right_inj (lead :: rest)).mp hchar
    rw [← hmore, List.length_append, Nat.add_sub_cancel_left, ← List.prefix_iff_eq_take.mp hpre] at hb
    exact hb
  | none =>
    simp only [hwhole] at h ⊢
    have hnone : (lead :: rest).toByteArray.utf8DecodeChar? 0 = none := by
      refine decodes_eq_none fun c hc => ?_
      have hsome := decodes_iff.mpr (hc.trans (List.prefix_append (lead :: rest) y))
      exact Option.some_ne_none c (hsome.symm.trans hwhole)
    rw [hnone]
    obtain ⟨hlen, hbytes⟩ := badLength_cut h
    exact ⟨hlen, rfl, hbytes⟩

/-- A byte that continues a character begins none. -/
theorem unit_continuation {b : UInt8} (h : isContinuation b = true) (rest : List UInt8) :
    unitLen (b :: rest) = 1 ∧ unitChar (b :: rest) = '\uFFFD' := by
  have hnone : (b :: rest).toByteArray.utf8DecodeChar? 0 = none := by
    refine decodes_eq_none fun c hc => ?_
    obtain ⟨lead, tail, hcons, hled⟩ := wellLed_encode c
    rw [hcons] at hc
    obtain ⟨rfl, -⟩ := List.cons_prefix_cons.mp hc
    exact Bool.false_ne_true (hled.begins.symm.trans h)
  rw [unitLen, unitChar, hnone]
  refine ⟨?_, rfl⟩
  cases rest with
  | nil => rfl
  | cons second rest => exact if_neg fun hled => hled.1 (following_eq_zero h)

/-- Bytes that begin nothing are replaced one by one. -/
theorem decodeReplace_continuation {k : ℕ} {bytes : List UInt8}
    (h : ∀ b ∈ bytes.take k, isContinuation b = true) :
    decodeReplace bytes = List.replicate (min k bytes.length) '\uFFFD' ++ decodeReplace (bytes.drop k) := by
  induction k generalizing bytes with
  | zero => rw [Nat.zero_min, List.replicate_zero, List.nil_append, List.drop_zero]
  | succ k ih =>
    cases bytes with
    | nil => rw [List.length_nil, Nat.min_zero, List.replicate_zero, List.nil_append, List.drop_nil]
    | cons b bytes =>
      rw [List.take_succ_cons] at h
      obtain ⟨hb, hbytes⟩ := List.forall_mem_cons.mp h
      obtain ⟨hlen, hchar⟩ := unit_continuation hb bytes
      rw [decodeReplace_eq (List.cons_ne_nil b bytes), hlen, hchar, List.drop_succ_cons, List.drop_zero,
        ih hbytes, List.drop_succ_cons, List.length_cons, Nat.add_min_add_right, List.replicate_succ,
        List.cons_append]

/-! ### The characters of the whole -/

/-- A character of the whole and what the pieces show of it: itself, or so many replacement
characters. -/
abbrev Mark := Char × Option ℕ

def Mark.shown : Mark → List Char
  | (c, none) => [c]
  | (_, some n) => List.replicate n '\uFFFD'

/-- What is left of the pieces behind `k` more bytes. -/
def dropBytes : ℕ → List (List UInt8) → List (List UInt8)
  | _, [] => []
  | k, piece :: pieces => piece.drop k :: dropBytes (k - piece.length) pieces

/-- How much there is to go through. -/
def weight (pieces : List (List UInt8)) : ℕ := (pieces.map fun piece => piece.length + 1).sum

theorem weight_cons (piece : List UInt8) (pieces : List (List UInt8)) :
    weight (piece :: pieces) = piece.length + 1 + weight pieces := rfl

theorem weight_dropBytes (k : ℕ) (pieces : List (List UInt8)) :
    weight (dropBytes k pieces) ≤ weight pieces := by
  induction pieces generalizing k with
  | nil => exact le_rfl
  | cons piece pieces ih =>
    have hle := ih (k - piece.length)
    rw [dropBytes, weight_cons, weight_cons, List.length_drop]
    omega

theorem flatten_dropBytes (k : ℕ) (pieces : List (List UInt8)) :
    (dropBytes k pieces).flatten = pieces.flatten.drop k := by
  induction pieces generalizing k with
  | nil => exact List.drop_nil.symm
  | cons piece pieces ih => rw [dropBytes, List.flatten_cons, ih, List.flatten_cons, List.drop_append]

/-- The characters of the pieces and of the bytes behind them, which nothing shows. -/
def marks : List (List UInt8) → List UInt8 → List Mark
  | [], lost => (decodeReplace lost).map (·, some 0)
  | piece :: pieces, lost =>
    if piece = [] then marks pieces lost
    else if unitLen (piece ++ (pieces.flatten ++ lost)) ≤ piece.length then
      (unitChar (piece ++ (pieces.flatten ++ lost)), none) ::
        marks (piece.drop (unitLen (piece ++ (pieces.flatten ++ lost))) :: pieces) lost
    else
      (unitChar (piece ++ (pieces.flatten ++ lost)),
          some (min (unitLen (piece ++ (pieces.flatten ++ lost)) - piece.length) pieces.flatten.length + 1)) ::
        marks (dropBytes (unitLen (piece ++ (pieces.flatten ++ lost)) - piece.length) pieces)
          (lost.drop (unitLen (piece ++ (pieces.flatten ++ lost)) - piece.length - pieces.flatten.length))
termination_by pieces => weight pieces
decreasing_by
  · rw [weight_cons]
    omega
  · rename_i hne _
    have hpos := unitLen_pos (List.append_ne_nil_of_left_ne_nil hne (pieces.flatten ++ lost))
    rw [weight_cons, weight_cons, List.length_drop]
    exact Nat.add_lt_add_right (Nat.add_lt_add_right (Nat.sub_lt (List.length_pos_of_ne_nil hne) hpos) 1) _
  · have hle := weight_dropBytes (unitLen (piece ++ (pieces.flatten ++ lost)) - piece.length) pieces
    rw [weight_cons]
    omega

/-- The marks hold the text of the whole. -/
theorem texts_marks (pieces : List (List UInt8)) (lost : List UInt8) :
    (marks pieces lost).map Prod.fst = decodeReplace (pieces.flatten ++ lost) := by
  induction pieces, lost using marks.induct with
  | case1 lost => rw [marks, List.map_map, List.flatten_nil, List.nil_append]; exact List.map_id _
  | case2 pieces lost ih => rw [marks, if_pos rfl, ih, List.flatten_cons, List.nil_append]
  | case3 piece pieces lost hne hlen ih =>
    have hwhole : piece ++ (pieces.flatten ++ lost) ≠ [] := List.append_ne_nil_of_left_ne_nil hne _
    rw [marks, if_neg hne, if_pos hlen, List.map_cons, ih, List.flatten_cons, List.flatten_cons,
      List.append_assoc, List.append_assoc, decodeReplace_eq hwhole, List.drop_append_of_le_length hlen]
  | case4 piece pieces lost hne hlen ih =>
    have hwhole : piece ++ (pieces.flatten ++ lost) ≠ [] := List.append_ne_nil_of_left_ne_nil hne _
    -- nothing is left of the piece
    have hcut : (piece ++ (pieces.flatten ++ lost)).drop (unitLen (piece ++ (pieces.flatten ++ lost))) =
        (pieces.flatten ++ lost).drop (unitLen (piece ++ (pieces.flatten ++ lost)) - piece.length) := by
      rw [List.drop_append, List.drop_of_length_le (le_of_lt (not_le.mp hlen)), List.nil_append]
    rw [marks, if_neg hne, if_neg hlen, List.map_cons, ih, List.flatten_cons, List.append_assoc,
      decodeReplace_eq hwhole, hcut, flatten_dropBytes, ← List.drop_append]

theorem flatMap_dropBytes {k : ℕ} {pieces : List (List UInt8)}
    (h : ∀ b ∈ pieces.flatten.take k, isContinuation b = true) :
    pieces.flatMap decodeReplace = List.replicate (min k pieces.flatten.length) '\uFFFD' ++
      (dropBytes k pieces).flatMap decodeReplace := by
  induction pieces generalizing k with
  | nil => rw [List.flatten_nil, List.length_nil, Nat.min_zero, List.replicate_zero, dropBytes, List.nil_append]
  | cons piece pieces ih =>
    rw [List.flatten_cons, List.take_append] at h
    rw [List.flatMap_cons, decodeReplace_continuation fun b hb => h b (List.mem_append_left _ hb),
      ih fun b hb => h b (List.mem_append_right _ hb), dropBytes, List.flatMap_cons, List.flatten_cons,
      List.length_append]
    by_cases hk : k ≤ piece.length
    · rw [Nat.sub_eq_zero_of_le hk, Nat.zero_min, List.replicate_zero, List.nil_append, List.append_assoc,
        min_eq_left hk, min_eq_left (by omega)]
    · have hmin : min k (piece.length + pieces.flatten.length) =
          min k piece.length + min (k - piece.length) pieces.flatten.length := by omega
      rw [List.drop_of_length_le (by omega), decodeReplace, List.append_nil, List.nil_append,
        ← List.append_assoc, List.replicate_append_replicate, hmin]

/-- And they hold what the pieces show. -/
theorem shown_marks (pieces : List (List UInt8)) (lost : List UInt8) :
    (marks pieces lost).flatMap Mark.shown = pieces.flatMap decodeReplace := by
  induction pieces, lost using marks.induct with
  | case1 lost =>
    rw [marks, List.flatMap_map]
    exact List.flatMap_eq_nil_iff.mpr fun c _ => rfl
  | case2 pieces lost ih => rw [marks, if_pos rfl, ih, List.flatMap_cons, decodeReplace, List.nil_append]
  | case3 piece pieces lost hne hlen ih =>
    obtain ⟨hsame, hchar⟩ := unit_append hne hlen
    rw [marks, if_neg hne, if_pos hlen, List.flatMap_cons, ih, List.flatMap_cons, List.flatMap_cons,
      decodeReplace_eq hne, hsame, hchar]
    rfl
  | case4 piece pieces lost hne hlen ih =>
    obtain ⟨hall, hchar, hbytes⟩ := unit_cut hne (not_le.mp hlen)
    have hrest := flatMap_dropBytes fun b (hb : b ∈ pieces.flatten.take _) =>
      hbytes b (List.take_append ▸ List.mem_append_left _ hb)
    rw [List.flatMap_cons, hrest, decodeReplace_eq hne, hall, hchar, List.drop_length, decodeReplace, marks,
      if_neg hne, if_neg hlen, List.flatMap_cons, ih]
    rfl

/-- Where nothing is left of the pieces, nothing is shown. -/
theorem lost_marks {pieces : List (List UInt8)} {lost : List UInt8} (h : pieces.flatten = []) :
    ∀ m ∈ marks pieces lost, m.2 = some 0 := by
  induction pieces with
  | nil =>
    rw [marks]
    exact List.forall_mem_map.mpr fun _ _ => rfl
  | cons piece pieces ih =>
    obtain ⟨hpiece, hpieces⟩ := List.append_eq_nil_iff.mp (List.flatten_cons.symm.trans h)
    rw [marks, if_pos hpiece]
    exact ih hpieces

/-- Behind a character of which less than two signs are shown there is nothing more. -/
def Ordered (ms : List Mark) : Prop :=
  ms.Pairwise fun m m' => ∀ n, m.2 = some n → n ≤ 1 → m'.2 = some 0

theorem ordered_marks (pieces : List (List UInt8)) (lost : List UInt8) : Ordered (marks pieces lost) := by
  induction pieces, lost using marks.induct with
  | case1 lost =>
    have hlost : ∀ m ∈ marks [] lost, m.2 = some 0 := lost_marks rfl
    exact List.pairwise_of_forall_mem_list fun _ _ _ hm _ _ _ => hlost _ hm
  | case2 pieces lost ih =>
    rw [marks, if_pos rfl]
    exact ih
  | case3 piece pieces lost hne hlen ih =>
    rw [marks, if_neg hne, if_pos hlen]
    exact List.pairwise_cons.mpr ⟨fun m _ n hn => (nomatch hn), ih⟩
  | case4 piece pieces lost hne hlen ih =>
    rw [marks, if_neg hne, if_neg hlen]
    refine List.pairwise_cons.mpr ⟨fun m hm n hn hle => lost_marks ?_ m hm, ih⟩
    cases hn
    rw [flatten_dropBytes, List.eq_nil_of_length_eq_zero (l := pieces.flatten) (by omega), List.drop_nil]

/-! ### The first characters -/

/-- The first `n` characters are those of the whole: each is shown as it is, or, from the first one
that is not, there are only replacement characters on both sides, and equally many. -/
def Clean : ℕ → List Mark → Prop
  | 0, _ => True
  | _ + 1, [] => True
  | n + 1, (_, none) :: ms => Clean n ms
  | n + 1, (c, some k) :: ms =>
    (∀ d ∈ (((c, some k) :: ms).map Prod.fst).take (n + 1), d = '\uFFFD') ∧
      min (n + 1) (ms.length + 1) = min (n + 1) (((c, some k) :: ms).flatMap Mark.shown).length

theorem shown_lost {ms : List Mark} (h : ∀ m ∈ ms, m.2 = some 0) : ms.flatMap Mark.shown = [] := by
  refine List.flatMap_eq_nil_iff.mpr fun m hm => ?_
  obtain ⟨c, _⟩ := m
  cases h _ hm
  rfl

/-- What is shown at a place is in the whole not behind it. -/
theorem Ordered.behind {ms : List Mark} (h : Ordered ms) {i : ℕ} {d : Char}
    (hd : (ms.flatMap Mark.shown)[i]? = some d) :
    d = '\uFFFD' ∨ ∃ j ≤ i, (ms.map Prod.fst)[j]? = some d := by
  induction ms generalizing i with
  | nil => cases hd
  | cons m ms ih =>
    obtain ⟨hm, hms⟩ := List.pairwise_cons.mp h
    obtain ⟨c, _ | n⟩ := m
    · cases i with
      | zero => exact Or.inr ⟨0, le_rfl, hd⟩
      | succ i => exact (ih hms hd).imp_right fun ⟨j, hj, hdj⟩ => ⟨j + 1, Nat.succ_le_succ hj, hdj⟩
    · rw [List.flatMap_cons, Mark.shown, List.getElem?_append, List.length_replicate] at hd
      split at hd
      · exact Or.inl (List.eq_of_mem_replicate (List.mem_of_getElem? hd))
      · next hi =>
        cases n with
        | zero =>
          rw [shown_lost fun m' hm' => hm m' hm' 0 rfl (Nat.zero_le 1)] at hd
          cases hd
        | succ n =>
          exact (ih hms hd).imp_right fun ⟨j, hj, hdj⟩ => ⟨j + 1, by omega, hdj⟩

/-- Behind a character that is cut, what is shown is in the whole further in front. -/
theorem Ordered.further {c : Char} {n : ℕ} {ms : List Mark} (h : Ordered ((c, some n) :: ms)) {i : ℕ}
    {d : Char} (hd : (((c, some n) :: ms).flatMap Mark.shown)[i]? = some d) :
    d = '\uFFFD' ∨ ∃ j < i, (((c, some n) :: ms).map Prod.fst)[j]? = some d := by
  obtain ⟨hm, hms⟩ := List.pairwise_cons.mp h
  rw [List.flatMap_cons, Mark.shown, List.getElem?_append, List.length_replicate] at hd
  split at hd
  · exact Or.inl (List.eq_of_mem_replicate (List.mem_of_getElem? hd))
  · next hi =>
    by_cases hn : n ≤ 1
    · rw [shown_lost fun m' hm' => hm m' hm' n rfl hn] at hd
      cases hd
    · exact (Ordered.behind hms hd).imp_right fun ⟨j, hj, hdj⟩ => ⟨j + 1, by omega, hdj⟩

/-- From a character that is cut, two texts that agree hold nothing but replacement characters. -/
theorem Ordered.take_cut_iff {c : Char} {k : ℕ} {ms : List Mark} (h : Ordered ((c, some k) :: ms))
    (n : ℕ) : (((c, some k) :: ms).map Prod.fst).take (n + 1) =
        (((c, some k) :: ms).flatMap Mark.shown).take (n + 1) ↔ Clean (n + 1) ((c, some k) :: ms) := by
  rw [Clean]
  generalize hT : ((c, some k) :: ms).map Prod.fst = T
  generalize hJ : ((c, some k) :: ms).flatMap Mark.shown = J
  have hlen : ms.length + 1 = T.length := by rw [← hT, List.length_map, List.length_cons]
  have hfurther : ∀ i d, J[i]? = some d → d = '\uFFFD' ∨ ∃ j < i, T[j]? = some d := fun i d hd => by
    rw [← hT]
    exact h.further (hJ ▸ hd)
  rw [hlen]
  constructor
  · intro heq
    -- by induction on the place: what is there is shown, so it is further in front
    have hplace : ∀ i < n + 1, ∀ d, T[i]? = some d → d = '\uFFFD' := by
      intro i
      induction i using Nat.strongRecOn with
      | ind i ih =>
        intro hi d hd
        have hshown : J[i]? = some d := by
          rw [← List.getElem?_take_of_lt hi, ← heq, List.getElem?_take_of_lt hi, hd]
        obtain rfl | ⟨j, hj, hdj⟩ := hfurther i d hshown
        · rfl
        · exact ih j hj (hj.trans hi) d hdj
    refine ⟨fun d hd => ?_, ?_⟩
    · obtain ⟨i, hi⟩ := List.mem_iff_getElem?.mp hd
      rw [List.getElem?_take] at hi
      split at hi
      · next hlt => exact hplace i hlt d hi
      · cases hi
    · rw [← List.length_take, ← List.length_take, heq]
  · rintro ⟨hall, hmin⟩
    have hT : T.take (n + 1) = List.replicate (min (n + 1) T.length) '\uFFFD' :=
      List.eq_replicate_iff.mpr ⟨List.length_take, hall⟩
    have hJ : J.take (n + 1) = List.replicate (min (n + 1) J.length) '\uFFFD' := by
      refine List.eq_replicate_iff.mpr ⟨List.length_take, fun d hd => ?_⟩
      obtain ⟨i, hi⟩ := List.mem_iff_getElem?.mp hd
      rw [List.getElem?_take] at hi
      split at hi
      · next hlt =>
        obtain rfl | ⟨j, hj, hdj⟩ := hfurther i d hi
        · rfl
        · refine hall d (List.mem_of_getElem? (i := j) ?_)
          rw [List.getElem?_take_of_lt (hj.trans hlt), hdj]
      · cases hi
    rw [hT, hJ, hmin]

/-- **The first characters of the whole are the first ones that the pieces show exactly if these are
clean.** -/
theorem take_eq_take_iff (n : ℕ) (pieces : List (List UInt8)) (lost : List UInt8) :
    (pieces.flatMap decodeReplace).take n = (decodeReplace (pieces.flatten ++ lost)).take n ↔
      Clean n (marks pieces lost) := by
  rw [← texts_marks, ← shown_marks pieces lost, eq_comm]
  have h := ordered_marks pieces lost
  generalize marks pieces lost = ms at h
  induction n generalizing ms with
  | zero => exact iff_of_true rfl trivial
  | succ n ih =>
    cases ms with
    | nil => exact iff_of_true rfl trivial
    | cons m ms =>
      obtain ⟨c, _ | k⟩ := m
      · exact (List.cons_inj_right c).trans (ih ms (List.pairwise_cons.mp h).2)
      · exact h.take_cut_iff n

end Utf8
end Python
