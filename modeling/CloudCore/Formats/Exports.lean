import CloudCore.Formats.Haproxy

/-!
# The exports of an NFS server

`/etc/exports`: a line is a path and the clients that may mount it, with blanks between them.  A
client has its options in parentheses directly after it; options that stand alone are those of
everyone.

## Main definitions

* `exports` — the exports of a text.
* `Export.optionsOf` — the options that a client has.

## Main results

* `split_append_of_solid` — what is written directly after a text belongs to its last word.
* `split_append_of_not_solid` — after a blank it is a word of its own.
* `exports_joinLines` — lines that have words are one export each.
-/

namespace Formats
namespace Exports

open Haproxy (isBlank split words IsWord)

/-- A client of a path; everyone if the host is empty. -/
structure Client where
  host : Line
  options : List Line
  deriving DecidableEq

structure Export where
  path : Line
  clients : List Client
  deriving DecidableEq

/-- The options between a parenthesis and the next; none are the default ones. -/
def client (w : Line) : Client where
  host := w.takeWhile (· != '(')
  options := match w.dropWhile (· != '(') with
    | [] => []
    | _ :: inner => (inner.takeWhile (· != ')')).splitOn ','

def exportOf : List Line → Option Export
  | [] => none
  | path :: clients => some ⟨path, clients.map client⟩

def exports (text : Line) : List Export := (lines text).filterMap fun l => exportOf (words l)

/-- Of two entries of one client the first counts. -/
def Export.optionsOf (e : Export) (host : Line) : Option (List Line) :=
  (e.clients.find? (·.host == host)).map Client.options

theorem optionsOf_cons (path : Line) (c : Client) (cs : List Client) (host : Line) :
    (Export.mk path (c :: cs)).optionsOf host =
      if c.host = host then some c.options else (Export.mk path cs).optionsOf host := by
  rw [Export.optionsOf, Export.optionsOf, List.find?_cons]
  by_cases h : c.host = host
  · rw [beq_iff_eq.mpr h, if_pos h, Option.map_some]
  · rw [beq_eq_false_iff_ne.mpr h, if_neg h]

theorem optionsOf_nil (path host : Line) : (Export.mk path []).optionsOf host = none := rfl

/-! ### Words -/

/-- A text does not end with a blank, nor is it empty. -/
def Solid (s : Line) : Prop := ∃ c ∈ s.getLast?, isBlank c = false

instance (s : Line) : Decidable (Solid s) := inferInstanceAs (Decidable (∃ c ∈ s.getLast?, isBlank c = false))

theorem not_solid_nil : ¬Solid [] := by
  rintro ⟨c, hc, -⟩
  cases hc

theorem solid_append {a b : Line} (h : b ≠ []) : Solid (a ++ b) ↔ Solid b := by
  rw [Solid, Solid, List.getLast?_append_of_ne_nil _ h]

theorem solid_of_not_blank {w : Line} (hne : w ≠ []) (h : ∀ c ∈ w, isBlank c = false) : Solid w :=
  ⟨w.getLast hne, List.getLast?_eq_getLast_of_ne_nil hne, h _ (List.getLast_mem hne)⟩

/-- A text that has no blank is one word. -/
theorem split_of_not_blank {w : Line} (hne : w ≠ []) (h : ∀ c ∈ w, isBlank c = false) : split w = [w] := by
  rw [split, List.splitOnP_eq_singleton h, List.filter_cons_of_pos, List.filter_nil]
  rw [Bool.not_eq_true', List.isEmpty_eq_false_iff]
  exact hne

theorem mem_splitOnP {s w : Line} (h : w ∈ s.splitOnP isBlank) : ∀ c ∈ w, c ∈ s ∧ isBlank c = false := by
  induction s generalizing w with
  | nil =>
    rw [List.splitOnP_nil, List.mem_singleton] at h
    subst h
    exact List.forall_mem_nil _
  | cons d s ih =>
    rw [List.splitOnP_cons_eq_if_modifyHead] at h
    cases hd : isBlank d with
    | true =>
      rw [hd, if_pos rfl, List.mem_cons] at h
      rcases h with rfl | h
      · exact List.forall_mem_nil _
      · exact fun c hc => ⟨List.mem_cons_of_mem d (ih h c hc).1, (ih h c hc).2⟩
    | false =>
      rw [hd, if_neg Bool.false_ne_true] at h
      obtain ⟨v, vs, hs⟩ := List.exists_cons_of_ne_nil (List.splitOnP_ne_nil isBlank s)
      rw [hs, List.modifyHead_cons, List.mem_cons] at h
      rcases h with rfl | h
      · refine List.forall_mem_cons.mpr ⟨⟨List.mem_cons_self, hd⟩, fun c hc => ?_⟩
        have hv := ih (hs ▸ List.mem_cons_self) c hc
        exact ⟨List.mem_cons_of_mem d hv.1, hv.2⟩
      · intro c hc
        have hvs := ih (hs ▸ List.mem_cons_of_mem v h) c hc
        exact ⟨List.mem_cons_of_mem d hvs.1, hvs.2⟩

/-- What the words of a text are made of. -/
theorem mem_split {s w : Line} (h : w ∈ split s) : w ≠ [] ∧ ∀ c ∈ w, c ∈ s ∧ isBlank c = false := by
  rw [split, List.mem_filter, Bool.not_eq_true', List.isEmpty_eq_false_iff] at h
  exact ⟨h.2, mem_splitOnP h.1⟩

/-- The last blank of a text. -/
theorem last_blank (s : Line) : (∀ c ∈ s, isBlank c = false) ∨
    ∃ a c b, s = a ++ c :: b ∧ isBlank c = true ∧ ∀ x ∈ b, isBlank x = false := by
  induction s with
  | nil => exact .inl (List.forall_mem_nil _)
  | cons d s ih =>
    rcases ih with hnone | ⟨a, c, b, rfl, hc, hb⟩
    · cases hd : isBlank d with
      | false => exact .inl (List.forall_mem_cons.mpr ⟨hd, hnone⟩)
      | true => exact .inr ⟨[], d, s, rfl, hd, hnone⟩
    · exact .inr ⟨d :: a, c, b, rfl, hc, hb⟩

theorem split_append_of_solid {s t : Line} (ht : ∀ c ∈ t, isBlank c = false) (hs : Solid s) :
    ∃ ws w, w ≠ [] ∧ split s = ws ++ [w] ∧ split (s ++ t) = ws ++ [w ++ t] := by
  have hlast {b : Line} (hne : b ≠ []) (hb : ∀ x ∈ b, isBlank x = false) :
      split b = [b] ∧ split (b ++ t) = [b ++ t] := by
    refine ⟨split_of_not_blank hne hb, split_of_not_blank (List.append_ne_nil_of_left_ne_nil hne t) ?_⟩
    exact fun c hc => (List.mem_append.mp hc).elim (hb c) (ht c)
  rcases last_blank s with hnone | ⟨a, c, b, rfl, hc, hb⟩
  · have hne : s ≠ [] := fun h => not_solid_nil (h ▸ hs)
    exact ⟨[], s, hne, (hlast hne hnone).1, (hlast hne hnone).2⟩
  · have hne : b ≠ [] := by
      rintro rfl
      obtain ⟨d, hd, hblank⟩ := (solid_append (List.cons_ne_nil c [])).mp hs
      cases hd
      cases hc.symm.trans hblank
    refine ⟨split a, b, hne, ?_, ?_⟩
    · rw [Haproxy.split_append _ _ hc, (hlast hne hb).1]
    · rw [List.append_assoc, List.cons_append, Haproxy.split_append _ _ hc, (hlast hne hb).2]

theorem split_append_of_not_solid {s t : Line} (hne : t ≠ []) (ht : ∀ c ∈ t, isBlank c = false)
    (hs : ¬Solid s) : split (s ++ t) = split s ++ [t] := by
  rcases last_blank s with hnone | ⟨a, c, b, rfl, hc, hb⟩
  · have hnil : s = [] := by
      by_contra hne'
      exact hs (solid_of_not_blank hne' hnone)
    rw [hnil, List.nil_append, split_of_not_blank hne ht]
    rfl
  · have hnil : b = [] := by
      by_contra hne'
      exact hs (List.append_cons a c b ▸ (solid_append hne').mpr (solid_of_not_blank hne' hb))
    have hempty : split [] = [] := rfl
    rw [hnil, List.append_assoc, List.singleton_append, Haproxy.split_append _ _ hc,
      Haproxy.split_append _ _ hc, hempty, List.append_nil, split_of_not_blank hne ht]

/-! ### Lines -/

/-- **Lines that have words are one export each.** -/
theorem exports_joinLines {ls : List Line} {es : List Export} (hline : ∀ l ∈ ls, '\n' ∉ l)
    (h : List.Forall₂ (fun l e => exportOf (words l) = some e) ls es) : exports (joinLines ls) = es := by
  by_cases hne : ls = []
  · subst hne
    cases h
    rfl
  have hsame : lines (joinLines ls) = ls := by
    rw [lines_join hne, List.flatMap_congr fun l hl => lines_of_not_mem (hline l hl)]
    exact List.flatMap_singleton' _
  rw [exports, hsame]
  clear hsame hline hne
  induction h with
  | nil => rfl
  | cons hl _ ih =>
    rw [List.filterMap_cons, hl]
    exact congrArg _ ih

/-- An empty line is no export. -/
theorem exports_append_newline (text : Line) : exports (text ++ ['\n']) = exports text := by
  rw [exports, lines_append, List.filterMap_append]
  exact List.append_nil _

end Exports
end Formats
