import Mathlib.Data.List.Basic
import Mathlib.Data.List.Nodup
import Mathlib.Data.Nat.Notation

/-!
# Tables with soft deletion

A table of rows with a text primary key.  A row is written with
`INSERT ... ON CONFLICT(key) DO UPDATE`, which appends a row with a new key and
overwrites the row that has the key otherwise, and is deleted by a mark: queries
pass over the marked rows, but the row stays, and writing it again takes the
mark off.

## Main definitions

* `Record` — rows: their key, their mark, and what overwriting keeps of them.
* `Table` — rows with distinct keys; `live`, `get`, `upsert`, `delete`.

## Main results

* `Table.mem_live_upsert`, `Table.mem_live_delete` — the rows seen after a write
  and after a deletion.
* `Table.get_eq_some`, `Table.get_upsert`, `Table.get_delete` — looking up a key.
-/

namespace Relational

/-- Rows with a text key and a deletion mark. -/
class Record (α : Type) where
  key : α → String
  deleted : α → Bool
  /-- The row with its mark set. -/
  mark : α → α
  /-- What is stored when `new` is written over `old`. -/
  overwrite (old new : α) : α
  key_mark : ∀ r, key (mark r) = key r
  deleted_mark : ∀ r, deleted (mark r) = true
  key_overwrite : ∀ old new, key (overwrite old new) = key new
  deleted_overwrite : ∀ old new, deleted (overwrite old new) = deleted new

attribute [simp] Record.key_mark Record.deleted_mark Record.key_overwrite Record.deleted_overwrite

/-- A table: its rows in the order in which they were inserted. -/
structure Table (α : Type) [Record α] where
  rows : List α
  /-- The primary key. -/
  nodup : (rows.map Record.key).Nodup

namespace Table

open Record

variable {α : Type} [Record α]

/-- The table without rows. -/
def empty : Table α := ⟨[], List.nodup_nil⟩

/-- The rows that are not marked. -/
def live (t : Table α) : List α := t.rows.filter fun r => !deleted r

/-- The row with key `i`, unless it is marked. -/
def get (t : Table α) (i : String) : Option α := t.live.find? fun r => key r = i

/-- What the table stores for `r`. -/
def stored (t : Table α) (r : α) : α :=
  match t.rows.find? fun x => key x = key r with
  | none => r
  | some old => overwrite old r

/-- Replace the rows that `p` picks. -/
def mapRows (t : Table α) (f : α → α) (h : ∀ r, key (f r) = key r) : Table α where
  rows := t.rows.map f
  nodup := by
    rw [List.map_map, show key ∘ f = (key : α → String) from funext h]
    exact t.nodup

/-- Append a row with a new key. -/
def append (t : Table α) (r : α) (h : ∀ x ∈ t.rows, key x ≠ key r) : Table α where
  rows := t.rows ++ [r]
  nodup := by
    rw [List.map_append, List.nodup_append]
    refine ⟨t.nodup, List.nodup_singleton _, ?_⟩
    rintro i hi j hj
    obtain ⟨x, hx, rfl⟩ := List.mem_map.mp hi
    rw [List.map_cons, List.map_nil, List.mem_singleton] at hj
    rw [hj]
    exact h x hx

/-- `INSERT ... ON CONFLICT(key) DO UPDATE`. -/
def upsert (t : Table α) (r : α) : Table α :=
  if h : ∀ x ∈ t.rows, key x ≠ key r then t.append r h
  else t.mapRows (fun x => if key x = key r then overwrite x r else x) fun x => by
    split
    next hx => rw [key_overwrite, hx]
    next => rfl

/-- `UPDATE ... SET mark WHERE key=? AND NOT mark`. -/
def delete (t : Table α) (i : String) : Table α :=
  t.mapRows (fun x => if key x = i ∧ deleted x = false then mark x else x) fun x => by
    split
    next => exact key_mark x
    next => rfl

/-! ### Keys -/

/-- Two rows of a table with one key are the same row. -/
theorem eq_of_key {t : Table α} {r r' : α} (h : r ∈ t.rows) (h' : r' ∈ t.rows) (hid : key r = key r') :
    r = r' :=
  List.inj_on_of_nodup_map t.nodup h h' hid

theorem mem_live {t : Table α} {r : α} : r ∈ t.live ↔ r ∈ t.rows ∧ deleted r = false := by
  rw [live, List.mem_filter, Bool.not_eq_true']

theorem get_eq_some {t : Table α} {i : String} {r : α} : t.get i = some r ↔ r ∈ t.live ∧ key r = i := by
  constructor
  · intro h
    exact ⟨List.mem_of_find?_eq_some h, by simpa using List.find?_some h⟩
  · rintro ⟨hr, hi⟩
    cases hf : t.get i with
    | none => exact absurd hi (by simpa using List.find?_eq_none.mp hf r hr)
    | some r' =>
      have hr' := List.mem_of_find?_eq_some hf
      have hi' : key r' = i := by simpa using List.find?_some hf
      rw [eq_of_key (mem_live.mp hr').1 (mem_live.mp hr).1 (hi'.trans hi.symm)]

theorem get_eq_none {t : Table α} {i : String} : t.get i = none ↔ ∀ r ∈ t.live, key r ≠ i := by
  rw [get, List.find?_eq_none]
  simp only [decide_eq_true_eq, ne_eq]

@[simp] theorem live_empty : (empty : Table α).live = [] := rfl

@[simp] theorem get_empty (i : String) : (empty : Table α).get i = none := rfl

/-! ### Writing -/

@[simp] theorem key_stored (t : Table α) (r : α) : key (t.stored r) = key r := by
  unfold stored
  split
  · rfl
  · exact key_overwrite _ _

@[simp] theorem deleted_stored (t : Table α) (r : α) : deleted (t.stored r) = deleted r := by
  unfold stored
  split
  · rfl
  · exact deleted_overwrite _ _

/-- What overwriting takes from the new row, the table stores as written. -/
theorem stored_congr {β : Type} {f : α → β} (hf : ∀ old new, f (overwrite old new) = f new)
    (t : Table α) (r : α) : f (t.stored r) = f r := by
  unfold stored
  split
  · rfl
  · exact hf _ _

theorem stored_of_fresh {t : Table α} {r : α} (h : ∀ x ∈ t.rows, key x ≠ key r) : t.stored r = r := by
  unfold stored
  rw [List.find?_eq_none.mpr fun x hx => by simpa using h x hx]

theorem stored_of_mem {t : Table α} {old r : α} (ho : old ∈ t.rows) (hid : key old = key r) :
    t.stored r = overwrite old r := by
  unfold stored
  split
  next hf => exact absurd hid (by simpa using List.find?_eq_none.mp hf old ho)
  next x hf =>
    have hx : key x = key r := by simpa using List.find?_some hf
    rw [eq_of_key (List.mem_of_find?_eq_some hf) ho (hx.trans hid.symm)]

theorem mem_upsert {t : Table α} {r x : α} :
    x ∈ (t.upsert r).rows ↔ x = t.stored r ∨ x ∈ t.rows ∧ key x ≠ key r := by
  unfold upsert
  split
  next h =>
    simp only [append, List.mem_append, List.mem_singleton, stored_of_fresh h]
    constructor
    · rintro (hx | rfl)
      · exact Or.inr ⟨hx, h x hx⟩
      · exact Or.inl rfl
    · rintro (rfl | ⟨hx, -⟩)
      · exact Or.inr rfl
      · exact Or.inl hx
  next h =>
    simp only [not_forall, Decidable.not_not] at h
    obtain ⟨old, ho, hid⟩ := h
    simp only [mapRows, List.mem_map]
    constructor
    · rintro ⟨y, hy, rfl⟩
      by_cases hyr : key y = key r
      · rw [if_pos hyr, stored_of_mem hy hyr]
        exact Or.inl rfl
      · rw [if_neg hyr]
        exact Or.inr ⟨hy, hyr⟩
    · rintro (rfl | ⟨hx, hxr⟩)
      · exact ⟨old, ho, by rw [if_pos hid, stored_of_mem ho hid]⟩
      · exact ⟨x, hx, if_neg hxr⟩

/-- **The rows seen after a write:** the one written, unless it carries the
mark, and those with other keys. -/
theorem mem_live_upsert {t : Table α} {r x : α} :
    x ∈ (t.upsert r).live ↔ (x = t.stored r ∧ deleted r = false) ∨ (x ∈ t.live ∧ key x ≠ key r) := by
  rw [mem_live, mem_live, mem_upsert]
  constructor
  · rintro ⟨rfl | ⟨hx, hid⟩, hd⟩
    · exact Or.inl ⟨rfl, by rwa [deleted_stored] at hd⟩
    · exact Or.inr ⟨⟨hx, hd⟩, hid⟩
  · rintro (⟨rfl, hd⟩ | ⟨⟨hx, hd⟩, hid⟩)
    · exact ⟨Or.inl rfl, by rwa [deleted_stored]⟩
    · exact ⟨Or.inr ⟨hx, hid⟩, hd⟩

/-- **The rows seen after a deletion** are those with other keys. -/
theorem mem_live_delete {t : Table α} {i : String} {x : α} :
    x ∈ (t.delete i).live ↔ x ∈ t.live ∧ key x ≠ i := by
  rw [mem_live, mem_live]
  simp only [delete, mapRows, List.mem_map]
  constructor
  · rintro ⟨⟨y, hy, rfl⟩, hd⟩
    by_cases hyi : key y = i ∧ deleted y = false
    · rw [if_pos hyi, deleted_mark] at hd
      cases hd
    · rw [if_neg hyi] at hd ⊢
      exact ⟨⟨hy, hd⟩, fun h => hyi ⟨h, hd⟩⟩
  · rintro ⟨⟨hx, hd⟩, hid⟩
    exact ⟨⟨x, hx, if_neg fun h => hid h.1⟩, hd⟩

/-- The rows after a deletion are those before, one of them perhaps marked. -/
theorem exists_of_mem_delete {t : Table α} {i : String} {x : α} (h : x ∈ (t.delete i).rows) :
    ∃ y ∈ t.rows, x = y ∨ x = mark y := by
  obtain ⟨y, hy, rfl⟩ := List.mem_map.mp h
  refine ⟨y, hy, ?_⟩
  split
  · exact Or.inr rfl
  · exact Or.inl rfl

/-- The keys of a table stay after a deletion. -/
theorem exists_mem_delete {t : Table α} {i j : String} (h : ∃ x ∈ t.rows, key x = j) :
    ∃ x ∈ (t.delete i).rows, key x = j := by
  obtain ⟨x, hx, rfl⟩ := h
  refine ⟨_, List.mem_map_of_mem hx, ?_⟩
  split
  · exact key_mark x
  · rfl

/-! ### Looking up -/

theorem get_upsert (t : Table α) (r : α) (i : String) :
    (t.upsert r).get i =
      if key r = i then (if deleted r then none else some (t.stored r)) else t.get i := by
  split
  next hi =>
    subst hi
    split
    next hd =>
      rw [get_eq_none]
      intro x hx
      rcases mem_live_upsert.mp hx with ⟨-, hl⟩ | ⟨-, hid⟩
      · rw [hd] at hl
        cases hl
      · exact hid
    next hd =>
      rw [get_eq_some]
      exact ⟨mem_live_upsert.mpr (Or.inl ⟨rfl, by simpa using hd⟩), key_stored t r⟩
  next hi =>
    cases hg : t.get i with
    | none =>
      rw [get_eq_none] at hg ⊢
      intro x hx
      rcases mem_live_upsert.mp hx with ⟨rfl, -⟩ | ⟨hx, -⟩
      · rwa [key_stored]
      · exact hg x hx
    | some x =>
      obtain ⟨hx, hxi⟩ := get_eq_some.mp hg
      rw [get_eq_some]
      exact ⟨mem_live_upsert.mpr (Or.inr ⟨hx, fun h => hi (h ▸ hxi)⟩), hxi⟩

theorem get_delete (t : Table α) (i j : String) :
    (t.delete i).get j = if j = i then none else t.get j := by
  split
  next hj =>
    subst hj
    exact get_eq_none.mpr fun x hx => (mem_live_delete.mp hx).2
  next hj =>
    cases hg : t.get j with
    | none =>
      rw [get_eq_none] at hg ⊢
      exact fun x hx => hg x (mem_live_delete.mp hx).1
    | some x =>
      obtain ⟨hx, hxj⟩ := get_eq_some.mp hg
      rw [get_eq_some]
      exact ⟨mem_live_delete.mpr ⟨hx, hxj ▸ hj⟩, hxj⟩

end Table
end Relational
