import CloudCore.Python.Json
import CloudCore.Python.Text
import Mathlib.Data.Int.Notation
import Mathlib.Data.List.Induction

/-!
# The journal of a build task

The journal of `lfs_build.py`, which is only ever appended to, and how `lfs-tutor.py` reads it:
a task becomes stuck with a state entry, Sentinel asks for a tutor, and an escalation of the
tutor answers.

## Main definitions

* `stuckAt` — where the task became stuck last.
* `wanted` — Sentinel asked for a tutor, and nobody has answered.
* `Answered` — the journal goes on after an answer, or after another time the task became stuck.

## Main results

* `Answered.append` — an answer stays.
* `not_answered_of_wanted` — a tutor is wanted only where there is no answer.
-/

namespace CloudCore
namespace Lfs

open Python

/-- An entry of `lfs_journal`; `data` is what `json.loads` makes of the column, if it can be
read. -/
structure Entry where
  who : String
  kind : String
  text : String
  data : Option Json

/-- `e["text"].split(":")[0].rstrip().endswith("-> stuck")`. -/
def endsStuck (text : String) : Bool :=
  "-> stuck".toList.isSuffixOf
    (((text.toList.takeWhile (· ≠ ':')).reverse.dropWhile isSpace).reverse)

def Entry.isStuck (e : Entry) : Bool := e.kind = "state" && endsStuck e.text

def stuckAt (j : List Entry) : ℤ :=
  match ((j.zipIdx.filter (·.1.isStuck)).map Prod.snd).max? with
  | some i => (i : ℤ)
  | none => -1

/-- `_data`. -/
def dataOf (e : Entry) : Json :=
  match e.data with
  | some d => if d.truthy then d else .obj []
  | none => .obj []

/-- `d.get(key)`; `none` if it raises, since `d` is no dictionary. -/
def field (d : Json) (key : String) : Option Json :=
  match d with
  | .obj fields => some (((Json.obj fields).get? key).getD .null)
  | _ => none

/-- `d.get("rung") == 3 and d.get("status") == "requested"`. -/
def asks (d : Json) : Option Bool := do
  let rung ← field d "rung"
  if rung.eq (.int 3) then do
    let status ← field d "status"
    pure (status.eq (.str "requested"))
  else pure false

/-- `e["who"] == "claude" and d.get("rung") in (3, 4)`. -/
def answers (e : Entry) : Option Bool :=
  if e.who = "claude" then do
    let rung ← field (dataOf e) "rung"
    pure (rung.eq (.int 3) || rung.eq (.int 4))
  else pure false

/-- `wanted`; `none` if it raises. -/
def wanted (j : List Entry) : Option Bool := do
  let after := (j.drop (stuckAt j + 1).toNat).filter (·.kind = "escalation")
  let asked ← after.anyM fun e => asks (dataOf e)
  let answered ← after.anyM answers
  pure (asked && !answered)

/-- The journal goes on after entry `k` with an answer of the tutor, or with another time the
task became stuck. -/
def Answered (j : List Entry) (k : ℤ) : Prop :=
  k < stuckAt j ∨
    ∃ e ∈ j.drop (k + 1).toNat, e.kind = "escalation" ∧ answers e = some true

/-! ### A journal grows -/

theorem stuckAt_concat (j : List Entry) (e : Entry) :
    stuckAt (j ++ [e]) = if e.isStuck then (j.length : ℤ) else stuckAt j := by
  unfold stuckAt
  rw [List.zipIdx_append, List.filter_append, List.map_append, List.zipIdx_singleton, Nat.zero_add]
  by_cases he : e.isStuck = true
  · have hlast : [(e, j.length)].filter (·.1.isStuck) = [(e, j.length)] :=
      List.filter_cons_of_pos he
    have hmax : (((j.zipIdx.filter (·.1.isStuck)).map Prod.snd) ++ [j.length]).max? =
        some j.length := by
      refine List.max?_eq_some_iff.mpr ⟨List.mem_append_right _ (List.mem_singleton_self _), ?_⟩
      intro b hb
      rcases List.mem_append.mp hb with hb | hb
      · obtain ⟨p, hp, rfl⟩ := List.mem_map.mp hb
        exact Nat.le_of_lt (List.snd_lt_of_mem_zipIdx (List.mem_of_mem_filter hp))
      · exact Nat.le_of_eq (List.mem_singleton.mp hb)
    rw [if_pos he, hlast, List.map_singleton, hmax]
  · have hlast : [(e, j.length)].filter (·.1.isStuck) = [] := List.filter_cons_of_neg he
    rw [if_neg he, hlast, List.map_nil, List.append_nil]

variable {j l : List Entry}

theorem stuckAt_lt (j : List Entry) : stuckAt j < j.length := by
  induction j using List.reverseRec with
  | nil => decide
  | append_singleton j e ih =>
    rw [stuckAt_concat, List.length_append, List.length_singleton]
    split <;> omega

theorem stuckAt_append (j l : List Entry) : stuckAt j ≤ stuckAt (j ++ l) := by
  induction l using List.reverseRec with
  | nil => rw [List.append_nil]
  | append_singleton l e ih =>
    rw [← List.append_assoc, stuckAt_concat]
    split
    · have hlt := stuckAt_lt j
      rw [List.length_append]
      omega
    · exact ih

/-- **An answer stays.** -/
theorem Answered.append {k : ℤ} (h : Answered j k) (l : List Entry) : Answered (j ++ l) k := by
  rcases h with hlt | ⟨e, he, hans⟩
  · exact .inl (Int.lt_of_lt_of_le hlt (stuckAt_append j l))
  · refine .inr ⟨e, ?_, hans⟩
    rw [List.drop_append]
    exact List.mem_append_left _ he

/-- An escalation of the tutor answers what the task was stuck on before. -/
theorem answered_concat {k : ℤ} {e : Entry} (hk : k ≤ stuckAt j) (hkind : e.kind = "escalation")
    (hans : answers e = some true) : Answered (j ++ [e]) k := by
  have hlt := stuckAt_lt j
  refine .inr ⟨e, ?_, hkind, hans⟩
  rw [List.drop_append_of_le_length (by omega)]
  exact List.mem_append_right _ (List.mem_singleton_self e)

theorem anyM_eq_false {α : Type} {p : α → Option Bool} {l : List α} (h : l.anyM p = some false) :
    ∀ a ∈ l, p a = some false := by
  induction l with
  | nil => exact nofun
  | cons a l ih =>
    rw [List.anyM] at h
    obtain ⟨b, hb, h⟩ := Option.bind_eq_some_iff.mp h
    cases b with
    | true => cases h
    | false =>
      intro a' ha'
      rcases List.mem_cons.mp ha' with rfl | ha'
      · exact hb
      · exact ih h a' ha'

/-- **A tutor is wanted only where there is no answer.** -/
theorem not_answered_of_wanted (h : wanted j = some true) : ¬Answered j (stuckAt j) := by
  rintro (hlt | ⟨e, he, hkind, hans⟩)
  · exact absurd hlt (Int.lt_irrefl _)
  obtain ⟨asked, -, h⟩ := Option.bind_eq_some_iff.mp h
  obtain ⟨answered, hanswered, h⟩ := Option.bind_eq_some_iff.mp h
  have hfalse : answered = false := by
    cases answered with
    | false => rfl
    | true => cases asked <;> cases h
  rw [hfalse] at hanswered
  have hnot := anyM_eq_false hanswered e (List.mem_filter.mpr ⟨he, decide_eq_true hkind⟩)
  rw [hans] at hnot
  cases hnot

end Lfs
end CloudCore
