import CloudCore.Python.Json

/-!
# Values bound to text columns

What SQLite stores for a Python value bound to a `TEXT NOT NULL` column, and
what it compares such a column with.  Numbers become text.

## Main definitions

* `textColumn`, `flagColumn` — what a column stores.
* `textParameter` — what a text column is compared with.
-/

namespace CloudCore
namespace Db

open Python

/-- The text a `TEXT NOT NULL` column holds for a value; `none` if the statement
raises.  `renderReal` is SQLite's own rendering of a double. -/
def textColumn (renderReal : Double → String) : Json → Option String
  | .null => none
  | .bool b => some (if b then "1" else "0")
  | .int n => if -2 ^ 63 ≤ n ∧ n < 2 ^ 63 then some (toString n) else none
  -- SQLite stores NULL for a NaN
  | .float .nan => none
  | .float x => some (renderReal x)
  | .str s => some s
  | .arr _ | .obj _ => none

/-- What a text column is compared with, `NULL` included; `none` if the
statement raises. -/
def textParameter (renderReal : Double → String) : Json → Option (Option String)
  | .null | .float .nan => some none
  | value => (textColumn renderReal value).map some

/-- The truth value an `INTEGER` column holds for `int(value)`; `none` if the
conversion or the statement raises. -/
def flagColumn (value : Json) : Option Bool :=
  match value.toInt with
  | .error _ => none
  | .ok n => if -2 ^ 63 ≤ n ∧ n < 2 ^ 63 then some (n ≠ 0) else none

variable {renderReal : Double → String}

@[simp] theorem textColumn_str (s : String) : textColumn renderReal (.str s) = some s := rfl

@[simp] theorem textParameter_str (s : String) :
    textParameter renderReal (.str s) = some (some s) := rfl

@[simp] theorem flagColumn_bool (b : Bool) : flagColumn (.bool b) = some b := by
  cases b <;> rfl

/-- A value is stored as the text it is compared with. -/
theorem textParameter_eq_some {value : Json} {t : String} :
    textParameter renderReal value = some (some t) ↔ textColumn renderReal value = some t := by
  unfold textParameter
  split
  · exact ⟨nofun, nofun⟩
  · exact ⟨nofun, nofun⟩
  · rw [Option.map_eq_some_iff]
    exact ⟨fun ⟨_, h, ht⟩ => by cases ht; exact h, fun h => ⟨t, h, rfl⟩⟩

end Db
end CloudCore
