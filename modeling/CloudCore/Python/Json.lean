import CloudCore.Python.Text
import Mathlib.Algebra.Group.Int.Defs
import Mathlib.Data.Int.Notation

/-!
# JSON values in Python

A request body as `json.loads` gives it, with Python's truth value of such a
value and its conversion to `int`.

## Main definitions

* `Json`, `Json.get?` — values, and the value of a key.
* `Json.truthy` — `bool(value)`.
* `Json.eq` — `value == other`.
* `Json.iter` — the items a `for` loop over the value runs through.
* `Json.toInt` — `int(value)`, with the exceptions it raises.
-/

namespace Python

/-- A double: the value `m * 2 ^ e`, an infinity, or not a number. -/
inductive Double where
  | nan
  | inf (negative : Bool)
  | fin (m e : ℤ)
  deriving DecidableEq

/-- A value of `json.loads`. -/
inductive Json where
  | null
  | bool (b : Bool)
  | int (n : ℤ)
  | float (x : Double)
  | str (s : String)
  | arr (items : List Json)
  /-- The keys of an object are distinct: of two, Python keeps the last. -/
  | obj (fields : List (String × Json))

/-- The exceptions of the standard library the code tells apart. -/
inductive Exc where
  | valueError
  | typeError
  | overflowError
  | runtimeError
  deriving DecidableEq

/-- A sequence of two steps succeeds when both do. -/
theorem bind_eq_ok {ε α β : Type} {x : Except ε α} {f : α → Except ε β} {b : β} :
    (x >>= f) = .ok b ↔ ∃ a, x = .ok a ∧ f a = .ok b := by
  cases x with
  | error e => exact ⟨nofun, fun ⟨_, h, _⟩ => by cases h⟩
  | ok a => exact ⟨fun h => ⟨a, rfl, h⟩, fun ⟨_, h, hf⟩ => by cases h; exact hf⟩

theorem mapError_eq_ok {ε ε' α : Type} {x : Except ε α} {f : ε → ε'} {a : α} :
    x.mapError f = .ok a ↔ x = .ok a := by
  cases x with
  | error e => exact ⟨nofun, nofun⟩
  | ok b => exact ⟨fun h => by cases h; rfl, fun h => by cases h; rfl⟩

namespace Json

/-- `value.get(key)` of a dictionary; nothing of any other value. -/
def get? (key : String) : Json → Option Json
  | .obj fields => (fields.find? (·.1 == key)).map (·.2)
  | _ => none

/-- `bool(value)`. -/
def truthy : Json → Bool
  | .null => false
  | .bool b => b
  | .int n => n ≠ 0
  | .float (.fin m _) => m ≠ 0
  | .float _ => true
  | .str s => s ≠ ""
  | .arr items => !items.isEmpty
  | .obj fields => !fields.isEmpty

/-- The items of `for item in value`: those of a list, the keys of a
dictionary, the characters of a string. -/
def iter : Json → Option (List Json)
  | .arr items => some items
  | .obj fields => some (fields.map (.str ·.1))
  | .str s => some (s.toList.map (.str ·.toString))
  | _ => none

/-- Whether the value may be put into a set. -/
def hashable : Json → Bool
  | .arr _ | .obj _ => false
  | _ => true

/-! ### `value == other` -/

/-- A number as `m * 2 ^ e`. -/
def number? : Json → Option (ℤ × ℤ)
  | .bool b => some (if b then 1 else 0, 0)
  | .int n => some (n, 0)
  | .float (.fin m e) => some (m, e)
  | _ => none

/-- Numbers are equal across their types; no value equals a NaN. -/
def eqNumber (v w : Json) : Bool :=
  match v, w with
  | .float (.inf a), .float (.inf b) => a == b
  | v, w =>
    match v.number?, w.number? with
    | some (m, e), some (m', e') => m * 2 ^ (e - e').toNat == m' * 2 ^ (e' - e).toNat
    | _, _ => false

mutual

/-- `v == w`. -/
def eq : Json → Json → Bool
  | .null, .null => true
  | .str a, .str b => a == b
  | .arr a, .arr b => eqItems a b
  | .obj a, .obj b => a.length == b.length && eqFields a b
  | v, w => v.eqNumber w

/-- Two lists, item by item. -/
def eqItems : List Json → List Json → Bool
  | [], [] => true
  | v :: a, w :: b => v.eq w && eqItems a b
  | _, _ => false

/-- Each key of `a` has an equal value in `b`. -/
def eqFields : List (String × Json) → List (String × Json) → Bool
  | [], _ => true
  | (key, v) :: a, b =>
    (match b.find? (·.1 == key) with
      | some (_, w) => v.eq w
      | none => false) && eqFields a b

end

theorem eq_str {v : Json} {s : String} : v.eq (.str s) = true ↔ v = .str s := by
  cases v with
  | str a => rw [eq, beq_iff_eq, str.injEq]
  | float x => cases x <;> exact ⟨fun h => absurd h Bool.false_ne_true, nofun⟩
  | null | bool | int | arr | obj => exact ⟨fun h => absurd h Bool.false_ne_true, nofun⟩

theorem str_eq {v : Json} {s : String} : (Json.str s).eq v = true ↔ v = .str s := by
  cases v with
  | str a => rw [eq, beq_iff_eq, str.injEq, eq_comm]
  | float x => cases x <;> exact ⟨fun h => absurd h Bool.false_ne_true, nofun⟩
  | null | bool | int | arr | obj => exact ⟨fun h => absurd h Bool.false_ne_true, nofun⟩

theorem eq_null {v : Json} (h : v.eq .null = true) : v = .null := by
  cases v with
  | null => rfl
  | bool b => exact absurd h Bool.false_ne_true
  | int n => exact absurd h Bool.false_ne_true
  | float x => cases x <;> exact absurd h Bool.false_ne_true
  | str s => exact absurd h Bool.false_ne_true
  | arr a => exact absurd h Bool.false_ne_true
  | obj a => exact absurd h Bool.false_ne_true

theorem null_eq_int (n : ℤ) : Json.null.eq (.int n) = false := rfl

example : Json.eq (.arr [.int 1, .str "a"]) (.arr [.float (.fin 1 0), .str "a"]) = true := by
  simp [eq, eqItems, eqNumber, number?]

end Json

/-! ### `int(value)` -/

/-- The zeros of the Unicode scripts whose digits `int` reads, ten to a script. -/
def decimalZeros : List ℕ :=
  [0x30, 0x660, 0x6F0, 0x7C0, 0x966, 0x9E6, 0xA66, 0xAE6, 0xB66, 0xBE6, 0xC66, 0xCE6, 0xD66,
    0xDE6, 0xE50, 0xED0, 0xF20, 0x1040, 0x1090, 0x17E0, 0x1810, 0x1946, 0x19D0, 0x1A80, 0x1A90,
    0x1B50, 0x1BB0, 0x1C40, 0x1C50, 0xA620, 0xA8D0, 0xA900, 0xA9D0, 0xA9F0, 0xAA50, 0xABF0,
    0xFF10, 0x104A0, 0x10D30, 0x11066, 0x110F0, 0x11136, 0x111D0, 0x112F0, 0x11450, 0x114D0,
    0x11650, 0x116C0, 0x11730, 0x118E0, 0x11950, 0x11C50, 0x11D50, 0x11DA0, 0x11F50, 0x16A60,
    0x16AC0, 0x16B50, 0x1D7CE, 0x1D7D8, 0x1D7E2, 0x1D7EC, 0x1D7F6, 0x1E140, 0x1E2F0, 0x1E4F0,
    0x1E950, 0x1FBF0]

/-- `unicodedata.decimal`. -/
def decimal (c : Char) : Option ℕ :=
  (decimalZeros.find? fun z => z ≤ c.toNat && c.toNat < z + 10).map (c.toNat - ·)

/-- Digits with single underscores between them. -/
def digitsOf : List Char → Option (List ℕ)
  | [] => none
  | [c] => (decimal c).map ([·])
  | c :: '_' :: l => do
    let d ← decimal c
    let ds ← digitsOf l
    some (d :: ds)
  | c :: l => do
    let d ← decimal c
    let ds ← digitsOf l
    some (d :: ds)

/-- The digits of a number that `int` reads at most. -/
def maxStrDigits : ℕ := 4300

/-- `int(text)`: a sign and digits, with white space around. -/
def intOfText (s : String) : Except Exc ℤ :=
  let l := stripBy isSpace s.toList
  let (neg, l) : Bool × List Char :=
    match l with
    | '-' :: l => (true, l)
    | '+' :: l => (false, l)
    | l => (false, l)
  match digitsOf l with
  | none => .error .valueError
  | some ds =>
    if ds.length > maxStrDigits then .error .valueError
    else
      let n : ℕ := ds.foldl (fun n d => 10 * n + d) 0
      .ok (if neg then -n else n)

/-- `int(x)` of a double: towards zero. -/
def Double.toInt : Double → Except Exc ℤ
  | .nan => .error .valueError
  | .inf _ => .error .overflowError
  | .fin m e => .ok (if 0 ≤ e then m * 2 ^ e.toNat else m.tdiv (2 ^ (-e).toNat))

/-- `int(value)`. -/
def Json.toInt : Json → Except Exc ℤ
  | .bool b => .ok (if b then 1 else 0)
  | .int n => .ok n
  | .float x => x.toInt
  | .str s => intOfText s
  | .null | .arr _ | .obj _ => .error .typeError

example : Json.toInt (.str " -1_000\n") = .ok (-1000) := by decide

example : Json.toInt (.float (.fin (-7) (-1))) = .ok (-3) := by decide

end Python
