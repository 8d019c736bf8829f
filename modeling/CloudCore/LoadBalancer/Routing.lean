import CloudCore.LoadBalancer.Emitted
import Mathlib.Data.List.Nodup

/-!
# Where HAProxy sends a request

The frontends of `_write_config` as HAProxy reads them, against the rules of the load balancer.

## Main definitions

* `bodyWords` — the lines of a frontend, in words.
* `IsFront` — a section of which they are known.

## Main results

* `route_bodyWords` — a frontend sends a request by the first of its rules that holds.
* `find?_placed` — the rules that are written are those of the load balancer.
* `isFront_listenerBlock` — what is written for a listener.
-/

namespace CloudCore
namespace Lb

open Formats Formats.Haproxy Python

variable {env : Surroundings} {lb : LoadBalancer}

/-! ### The words of a frontend -/

def useWords (p : Placed) : List Line :=
  "use_backend".toList :: backName p.tg :: "if".toList :: aclParts p.idx p.conds

/-- The lines of a frontend, in words. -/
def bodyWords (address : Line) (ps : List Placed) (name : Line) : List (List Line) :=
  ["bind".toList, address] :: ((ps.flatMap fun p => aclWords p.idx p.conds) ++
    ((ps.filter Placed.hasCondition).map useWords ++ [["default_backend".toList, name], []]))

/-! ### The ACLs -/

theorem aclFits_acl (req : Request) (i j : ℕ) (k k' : Char) (criterion : List Line) :
    aclFits req (aclName j k') ("acl".toList :: aclName i k :: criterion) =
      (decide (i = j ∧ k = k') && fits req criterion) := by
  have hname : (aclName i k == aclName j k') = decide (i = j ∧ k = k') := by
    rw [Bool.eq_iff_iff, beq_iff_eq, decide_eq_true_eq]
    exact ⟨aclName_inj, fun h => by rw [h.1, h.2]⟩
  show ("acl".toList == "acl".toList && aclName i k == aclName j k' && fits req criterion) = _
  rw [hname, beq_self_eq_true, Bool.true_and]

/-- The words of a criterion fit under its own name only. -/
theorem any_aclWord (req : Request) (i j : ℕ) (kind kind' : Char) (value : Line) (criterion : List Line) :
    (if value = [] then [] else ["acl".toList :: aclName i kind :: criterion]).any
        (aclFits req (aclName j kind')) =
      (decide (i = j ∧ kind = kind') && (!value.isEmpty && fits req criterion)) := by
  split
  · next hnil =>
    rw [hnil]
    exact (Bool.and_false _).symm
  · next hne =>
    rw [List.any_cons, aclFits_acl, List.any_nil, Bool.or_false, List.isEmpty_eq_false_iff.mpr hne]
    rfl

theorem any_aclWords_path (req : Request) (i j : ℕ) (c : Conditions) :
    (aclWords i c).any (aclFits req (aclName j 'p')) =
      (decide (i = j) && (!c.pathPattern.isEmpty && fits req (pathCriterion c.pathPattern))) := by
  rw [aclWords, List.any_append, any_aclWord, any_aclWord]
  simp

theorem any_aclWords_host (req : Request) (i j : ℕ) (c : Conditions) :
    (aclWords i c).any (aclFits req (aclName j 'h')) =
      (decide (i = j) && (!c.hostHeader.isEmpty && fits req (hostCriterion c.hostHeader))) := by
  rw [aclWords, List.any_append, any_aclWord, any_aclWord]
  simp

/-- Only the ACLs count for whether one holds. -/
theorem holds_bodyWords (address : Line) (ps : List Placed) (name : Line) (req : Request) (acl : Line) :
    holds (bodyWords address ps name) req acl = ps.any fun p => (aclWords p.idx p.conds).any (aclFits req acl) := by
  have huse : ((ps.filter Placed.hasCondition).map useWords).any (aclFits req acl) = false := by
    rw [List.any_eq_false]
    intro l hl
    obtain ⟨p, -, rfl⟩ := List.mem_map.mp hl
    rw [useWords, aclFits_of_ne req _ acl (by decide)]
    exact Bool.false_ne_true
  have hend : ([["default_backend".toList, name], []] : List (List Line)).any (aclFits req acl) = false := by
    rw [List.any_cons, aclFits_of_ne req _ acl (by decide)]
    rfl
  rw [holds, bodyWords, List.any_cons, aclFits_of_ne req _ acl (by decide), List.any_append,
    List.any_append, huse, hend, List.any_flatMap, Bool.or_false, Bool.or_false, Bool.false_or]

/-- Of rules in different places one speaks of a place. -/
theorem any_place {ps : List Placed} (hnodup : (ps.map (·.idx)).Nodup) {p : Placed} (hp : p ∈ ps)
    (f : Placed → Bool) : (ps.any fun q => decide (q.idx = p.idx) && f q) = f p := by
  rw [Bool.eq_iff_iff, List.any_eq_true]
  constructor
  · rintro ⟨q, hq, hboth⟩
    rw [Bool.and_eq_true, decide_eq_true_eq] at hboth
    obtain rfl := List.inj_on_of_nodup_map hnodup hq hp hboth.1
    exact hboth.2
  · intro h
    refine ⟨p, hp, ?_⟩
    rw [h, Bool.and_true, decide_eq_true_eq]

/-- What HAProxy makes of the conditions: all hold, but the pattern for all paths does not. -/
def Conditions.holdAs (c : Conditions) (req : Request) : Bool := c.pathPattern != ['*'] && c.hold req

/-- The ACLs of a rule hold if its conditions do. -/
theorem all_aclParts (address : Line) {ps : List Placed} (hnodup : (ps.map (·.idx)).Nodup) (name : Line)
    (req : Request) {p : Placed} (hp : p ∈ ps) (hplain : p.conds.Plain) :
    (aclParts p.idx p.conds).all (holds (bodyWords address ps name) req) = p.conds.holdAs req := by
  have hpath := any_place hnodup hp fun q =>
    !q.conds.pathPattern.isEmpty && fits req (pathCriterion q.conds.pathPattern)
  have hhost := any_place hnodup hp fun q =>
    !q.conds.hostHeader.isEmpty && fits req (hostCriterion q.conds.hostHeader)
  simp only [← any_aclWords_path, ← any_aclWords_host, ← holds_bodyWords address ps name req] at hpath hhost
  rw [aclParts, List.all_append, Conditions.holdAs, Conditions.hold]
  have hfirst : (if p.conds.pathPattern = [] then [] else [aclName p.idx 'p']).all
      (holds (bodyWords address ps name) req) =
        (p.conds.pathPattern != ['*'] &&
          (p.conds.pathPattern.isEmpty || pathMatches p.conds.pathPattern req.path)) := by
    split
    · next hnil =>
      rw [hnil]
      rfl
    · next hne =>
      have hsome : p.conds.pathPattern.isEmpty = false := List.isEmpty_eq_false_iff.mpr hne
      rw [List.all_cons, List.all_nil, Bool.and_true, hpath, hsome, fits_pathCriterion hplain.pathFlag]
      rfl
  have hsecond : (if p.conds.hostHeader = [] then [] else [aclName p.idx 'h']).all
      (holds (bodyWords address ps name) req) =
        (p.conds.hostHeader.isEmpty || lower p.conds.hostHeader == lower req.host) := by
    split
    · next hnil =>
      rw [hnil]
      rfl
    · next hne =>
      have hsome : p.conds.hostHeader.isEmpty = false := List.isEmpty_eq_false_iff.mpr hne
      rw [List.all_cons, List.all_nil, Bool.and_true, hhost, hsome, fits_hostCriterion hplain.hostFlag]
      rfl
  rw [hfirst, hsecond, Bool.and_assoc]

/-! ### The rules -/

theorem findSome?_ite {α β : Type} (p : α → Bool) (f : α → β) (l : List α) :
    (l.findSome? fun a => if p a then some (f a) else none) = (l.find? p).map f := by
  induction l with
  | nil => rfl
  | cons a l ih =>
    rw [List.findSome?_cons, List.find?_cons]
    cases hp : p a with
    | false => exact ih
    | true => rfl

theorem findSome?_congr {α β : Type} {f g : α → Option β} {l : List α} (h : ∀ a ∈ l, f a = g a) :
    l.findSome? f = l.findSome? g := by
  induction l with
  | nil => rfl
  | cons a l ih =>
    rw [List.findSome?_cons, List.findSome?_cons, h a List.mem_cons_self,
      ih fun b hb => h b (List.mem_cons_of_mem _ hb)]

theorem exists_cons_of_mem_aclWords {i : ℕ} {c : Conditions} {l : List Line} (h : l ∈ aclWords i c) :
    ∃ ws, l = "acl".toList :: ws := by
  rcases List.mem_append.mp h with h | h
  · split at h
    · cases h
    · exact ⟨_, List.mem_singleton.mp h⟩
  · split at h
    · cases h
    · exact ⟨_, List.mem_singleton.mp h⟩

/-- What is found in a frontend, if not in its ACLs. -/
theorem findSome?_bodyWords {β : Type} (f : List Line → Option β) (address : Line) (ps : List Placed)
    (name : Line) (hbind : ∀ ws, f ("bind".toList :: ws) = none) (hacl : ∀ ws, f ("acl".toList :: ws) = none)
    (hnil : f [] = none) :
    (bodyWords address ps name).findSome? f =
      ((ps.filter Placed.hasCondition).findSome? fun p => f (useWords p)).or
        (f ["default_backend".toList, name]) := by
  have hnone : (ps.flatMap fun p => aclWords p.idx p.conds).findSome? f = none := by
    rw [List.findSome?_eq_none_iff]
    intro l hl
    obtain ⟨p, -, hp⟩ := List.mem_flatMap.mp hl
    obtain ⟨ws, rfl⟩ := exists_cons_of_mem_aclWords hp
    exact hacl ws
  have hend : ([["default_backend".toList, name], []] : List (List Line)).findSome? f =
      f ["default_backend".toList, name] := by
    rw [List.findSome?_cons, List.findSome?_cons, hnil]
    cases f ["default_backend".toList, name] <;> rfl
  rw [bodyWords, List.findSome?_cons, hbind]
  dsimp only
  rw [List.findSome?_append, hnone, Option.none_or, List.findSome?_append, hend, List.findSome?_map]
  rfl

/-- **A frontend sends a request by the first of its rules that holds, else by default.** -/
theorem route_bodyWords (header : List Line) (address : Line) {ps : List Placed}
    (hnodup : (ps.map (·.idx)).Nodup) (hplain : ∀ p ∈ ps, p.conds.Plain) (name : Line) (req : Request) :
    route ⟨header, bodyWords address ps name⟩ req =
      ((ps.find? fun p => p.hasCondition && p.conds.holdAs req).map fun p => backName p.tg).or (some name) := by
  have hline : ∀ p ∈ ps.filter Placed.hasCondition,
      useBackend (bodyWords address ps name) req (useWords p) =
        if p.conds.holdAs req then some (backName p.tg) else none := by
    intro p hp
    have hmem : p ∈ ps := List.mem_of_mem_filter hp
    have hall := all_aclParts address hnodup name req hmem (hplain p hmem)
    show (if "use_backend".toList = "use_backend".toList ∧ "if".toList = "if".toList ∧
      (aclParts p.idx p.conds).all (holds (bodyWords address ps name) req) then some (backName p.tg)
      else none) = _
    rw [hall]
    simp only [true_and]
  have huse : (bodyWords address ps name).findSome? (useBackend (bodyWords address ps name) req) =
      (ps.find? fun p => p.hasCondition && p.conds.holdAs req).map fun p => backName p.tg := by
    rw [findSome?_bodyWords _ address ps name (fun ws => useBackend_of_ne req ws _ (by decide))
      (fun ws => useBackend_of_ne req ws _ (by decide)) rfl, useBackend_of_ne req _ _ (by decide),
      Option.or_none, findSome?_congr hline, findSome?_ite, List.find?_filter]
    simp only [Bool.decide_and, Bool.decide_eq_true]
  have hdefault : (bodyWords address ps name).findSome? defaultBackend = some name := by
    rw [findSome?_bodyWords _ address ps name (fun ws => defaultBackend_of_ne ws (by decide))
      (fun ws => defaultBackend_of_ne ws (by decide)) rfl]
    have hnone : ((ps.filter Placed.hasCondition).findSome? fun p => defaultBackend (useWords p)) = none :=
      List.findSome?_eq_none_iff.mpr fun p _ => defaultBackend_of_ne _ (by decide)
    rw [hnone]
    rfl
  rw [route, huse, hdefault]

/-! ### The rules that are written -/

theorem placed_isSome_iff {l : List (Rule × ℕ)} :
    (placed lb l).isSome ↔ ∀ r ∈ l, r.1.conditions ≠ none := by
  induction l with
  | nil => exact ⟨fun _ => nofun, fun _ => rfl⟩
  | cons r l ih =>
    obtain ⟨r, idx⟩ := r
    rw [List.forall_mem_cons, ← ih, placed]
    cases hc : r.conditions with
    | none => simp
    | some c =>
      dsimp only
      cases findTg lb r.targetGroupId with
      | none => simp
      | some tg => simp

/-- Where the rules that are written come from. -/
theorem mem_placed {l : List (Rule × ℕ)} {ps : List Placed} (h : placed lb l = some ps) {p : Placed}
    (hp : p ∈ ps) : ∃ r, (r, p.idx) ∈ l ∧ r.conditions = some p.conds ∧
      findTg lb r.targetGroupId = some p.tg := by
  induction l generalizing ps with
  | nil =>
    cases h
    cases hp
  | cons r l ih =>
    obtain ⟨r, idx⟩ := r
    rw [placed] at h
    split at h
    · cases h
    · next c hc =>
      split at h
      · obtain ⟨r', hmem, hrest⟩ := ih h hp
        exact ⟨r', List.mem_cons_of_mem _ hmem, hrest⟩
      · next tg htg =>
        obtain ⟨qs, hqs, rfl⟩ := Option.map_eq_some_iff.mp h
        rcases List.mem_cons.mp hp with rfl | hp
        · exact ⟨r, List.mem_cons_self, hc, htg⟩
        · obtain ⟨r', hmem, hrest⟩ := ih hqs hp
          exact ⟨r', List.mem_cons_of_mem _ hmem, hrest⟩

theorem sublist_placed {l : List (Rule × ℕ)} {ps : List Placed} (h : placed lb l = some ps) :
    List.Sublist (ps.map (·.idx)) (l.map Prod.snd) := by
  induction l generalizing ps with
  | nil =>
    cases h
    exact List.Sublist.refl []
  | cons r l ih =>
    obtain ⟨r, idx⟩ := r
    rw [placed] at h
    split at h
    · cases h
    · split at h
      · exact (ih h).cons idx
      · obtain ⟨qs, hqs, rfl⟩ := Option.map_eq_some_iff.mp h
        exact (ih hqs).cons_cons idx

theorem nodup_placed {rules : List Rule} {ps : List Placed} (h : placed lb rules.zipIdx = some ps) :
    (ps.map (·.idx)).Nodup := by
  refine (sublist_placed h).nodup ?_
  rw [List.zipIdx_map_snd]
  exact List.nodup_range'

/-- **The rules that are written are those of the load balancer**, but for the pattern for all paths. -/
theorem find?_placed {l : List (Rule × ℕ)} {ps : List Placed} (h : placed lb l = some ps) (req : Request) :
    (ps.find? fun p => p.hasCondition && p.conds.holdAs req).map (·.tg) =
      ((l.map Prod.fst).find? fun r => applies lb req r && !r.isStar).bind fun r =>
        findTg lb r.targetGroupId := by
  induction l generalizing ps with
  | nil =>
    cases h
    rfl
  | cons r l ih =>
    obtain ⟨r, idx⟩ := r
    rw [placed] at h
    rw [List.map_cons, List.find?_cons]
    split at h
    · cases h
    · next c hc =>
      split at h
      · next htg =>
        have hno : (applies lb req r && !r.isStar) = false := by
          rw [applies, htg, Option.isSome_none, Bool.and_false, Bool.false_and]
        rw [hno]
        exact ih h
      · next tg htg =>
        obtain ⟨qs, hqs, rfl⟩ := Option.map_eq_some_iff.mp h
        have hsame : (applies lb req r && !r.isStar) =
            (Placed.hasCondition ⟨idx, c, tg⟩ && c.holdAs req) := by
          rw [applies, Rule.isStar, hc, htg, Option.isSome_some, Bool.and_true, Option.any_some,
            Option.any_some, Conditions.holdAs, bne, Bool.and_assoc, Bool.and_comm (c.hold req)]
          rfl
        rw [List.find?_cons, hsame]
        dsimp only
        cases Placed.hasCondition ⟨idx, c, tg⟩ && c.holdAs req with
        | false => exact ih hqs
        | true => exact htg.symm

/-- A rule with conditions and a target group is written. -/
theorem exists_placed {l : List (Rule × ℕ)} {ps : List Placed} (h : placed lb l = some ps) {r : Rule × ℕ}
    (hr : r ∈ l) {c : Conditions} (hc : r.1.conditions = some c) {tg : TargetGroup}
    (htg : findTg lb r.1.targetGroupId = some tg) : ∃ p ∈ ps, p.conds = c ∧ p.tg = tg := by
  induction l generalizing ps with
  | nil => cases hr
  | cons r' l ih =>
    obtain ⟨r', idx⟩ := r'
    rw [placed] at h
    rcases List.mem_cons.mp hr with rfl | hr
    · rw [hc] at h
      dsimp only at h htg
      rw [htg] at h
      obtain ⟨qs, -, rfl⟩ := Option.map_eq_some_iff.mp h
      exact ⟨_, List.mem_cons_self, rfl, rfl⟩
    · split at h
      · cases h
      · split at h
        · exact ih h hr
        · obtain ⟨qs, hqs, rfl⟩ := Option.map_eq_some_iff.mp h
          obtain ⟨p, hp, hsame⟩ := ih hqs hr
          exact ⟨p, List.mem_cons_of_mem _ hp, hsame⟩

/-! ### The sections of the listeners -/

theorem findTg_mem {id : Line} {tg : TargetGroup} (h : findTg lb id = some tg) : tg ∈ lb.targetGroups := by
  unfold findTg at h
  split at h
  · cases h
  · exact List.mem_of_find?_eq_some h

theorem mem_rules_of_zipIdx {lst : Listener} {r : Rule} {idx : ℕ} (h : (r, idx) ∈ (sortedRules lst).zipIdx) :
    r ∈ lst.routingRules :=
  mem_sortedBy.mp (List.fst_mem_of_mem_zipIdx h)

/-- A frontend, of which the words are known. -/
structure IsFront (lb : LoadBalancer) (ps : List Placed) (back : Option TargetGroup) (b : Block) : Prop where
  tidy : ∃ suffix, TidyBlock "frontend".toList (lb.name ++ '-' :: suffix) b
  words : ∃ address, (b.2 ++ [[]]).map words = bodyWords address ps (nameOf lb back)

theorem isWord_nameOf (h : PlainConfig env lb) {id : Line} : IsWord (nameOf lb (findTg lb id)) := by
  cases htg : findTg lb id with
  | none => exact isWord_ownName h.name
  | some tg => exact isWord_backName (h.groups tg (findTg_mem htg))

theorem tidy_aclLines (idx : ℕ) {c : Conditions} (h : c.Plain) : ∀ l ∈ aclLines idx c, Tidy l := by
  intro l hl
  rcases List.mem_append.mp hl with hl | hl
  · split at hl
    · cases hl
    · rw [List.mem_singleton.mp hl]
      unfold pathLine
      split
      · refine tidy_indent (by decide) (by decide) ?_
        simp only [List.forall_mem_cons]
        exact ⟨plain_aclName idx rfl, by decide, h.path.of_sublist (List.dropLast_sublist _), nofun⟩
      · refine tidy_indent (by decide) (by decide) ?_
        simp only [List.forall_mem_cons]
        exact ⟨plain_aclName idx rfl, by decide, h.path, nofun⟩
  · split at hl
    · cases hl
    · rw [List.mem_singleton.mp hl]
      refine tidy_indent (by decide) (by decide) ?_
      simp only [List.forall_mem_cons]
      exact ⟨plain_aclName idx rfl, by decide, by decide, h.host, nofun⟩

theorem tidy_useLine (idx : ℕ) (c : Conditions) {tg : TargetGroup} (htg : Plain tg.id) :
    Tidy (useLine idx c tg) := by
  have hfirst : ∀ w ∈ [backName tg, "if".toList], Plain w := by
    simp only [List.forall_mem_cons]
    exact ⟨(isWord_backName htg).2, by decide, nofun⟩
  exact tidy_indent (by decide) (by decide) fun w hw => (List.mem_append.mp hw).elim (hfirst w)
    fun hpart => (isWord_aclParts idx c w hpart).2

theorem tidy_defaultLine {name : Line} (h : IsWord name) : Tidy (defaultLine name) := by
  refine tidy_indent (by decide) (by decide) ?_
  simp only [List.forall_mem_cons]
  exact ⟨h.2, nofun⟩

theorem tidy_bindLine (port : ℕ) : Tidy (bindLine port) := by
  refine tidy_indent (by decide) (by decide) ?_
  simp only [List.forall_mem_cons]
  exact ⟨Plain.append (by decide) (plain_number port), nofun⟩

theorem isWord_frontName (h : Plain lb.name) {suffix : Line} (hsuffix : Plain suffix) :
    IsWord (lb.name ++ '-' :: suffix) := by
  refine ⟨fun hnil => ?_, h.append (Plain.append (a := ['-']) (by decide) hsuffix)⟩
  have hlength := congrArg List.length hnil
  simp at hlength

/-- The section of a listener. -/
theorem isFront_listenerBlock (h : PlainConfig env lb) {lst : Listener} (hlst : lst ∈ lb.listeners)
    {b : Block} (hb : listenerBlock lb lst = some b) :
    ∃ ps, placed lb (sortedRules lst).zipIdx = some ps ∧ (∀ p ∈ ps, p.conds.Plain) ∧
      IsFront lb ps (findTg lb lst.targetGroupId) b := by
  obtain ⟨ps, hps, rfl⟩ := Option.map_eq_some_iff.mp hb
  have hrule : ∀ p ∈ ps, p.conds.Plain ∧ Plain p.tg.id := by
    intro p hp
    obtain ⟨r, hr, hc, htg⟩ := mem_placed hps hp
    exact ⟨h.rules lst hlst r (mem_rules_of_zipIdx hr) _ hc, h.groups _ (findTg_mem htg)⟩
  have hname : IsWord (nameOf lb (findTg lb lst.targetGroupId)) := isWord_nameOf h
  have hshort : Plain (short lst) :=
    plain_take (Plain.of_sublist (h.listeners lst hlst) List.filter_sublist) 8
  refine ⟨ps, hps, fun p hp => (hrule p hp).1, ⟨short lst, rfl, ⟨by decide, by decide⟩,
    isWord_frontName h.name hshort, fun l hl => ?_⟩,
    "127.0.0.1:".toList ++ number lst.port, ?_⟩
  · rcases List.mem_append.mp hl with hl | hl
    · rcases List.mem_cons.mp hl with rfl | hl
      · exact tidy_bindLine lst.port
      · rcases List.mem_append.mp hl with hl | hl
        · obtain ⟨p, hp, hl⟩ := List.mem_flatMap.mp hl
          exact tidy_aclLines p.idx (hrule p hp).1 l hl
        · obtain ⟨p, hp, rfl⟩ := List.mem_map.mp hl
          exact tidy_useLine p.idx p.conds (hrule p (List.mem_of_mem_filter hp)).2
    · rw [List.mem_singleton.mp hl]
      exact tidy_defaultLine hname
  · -- the words of each line are known
    have hacl : (ps.flatMap fun p => aclLines p.idx p.conds).map words =
        ps.flatMap fun p => aclWords p.idx p.conds := by
      rw [List.map_flatMap]
      exact List.flatMap_congr fun p hp => words_aclLines p.idx (hrule p hp).1
    have huse : ((ps.filter Placed.hasCondition).map fun p => useLine p.idx p.conds p.tg).map words =
        (ps.filter Placed.hasCondition).map useWords := by
      rw [List.map_map]
      exact List.map_congr_left fun p hp =>
        words_useLine p.idx p.conds (hrule p (List.mem_of_mem_filter hp)).2
    rw [bodyWords, List.map_append, List.map_append, List.cons_append, List.map_cons, List.map_append,
      hacl, huse, List.map_singleton, words_defaultLine hname, words_bindLine, List.cons_append,
      List.append_assoc, List.cons_append, List.append_assoc, List.append_assoc]
    rfl

theorem isFront_frontBlock (h : PlainConfig env lb) : IsFront lb [] none (frontBlock env lb) := by
  have hname := isWord_ownName h.name
  refine ⟨⟨"front".toList, rfl, ⟨by decide, by decide⟩, isWord_frontName h.name (by decide), ?_⟩,
    "127.0.0.1:".toList ++ number env.listenPort, ?_⟩
  · simp only [frontBlock, List.forall_mem_cons]
    exact ⟨tidy_bindLine _, tidy_defaultLine hname, nofun⟩
  · have hlines : (frontBlock env lb).2 ++ [[]] = [bindLine env.listenPort, defaultLine (ownName lb), []] := rfl
    rw [hlines, List.map_cons, List.map_cons, List.map_cons, List.map_nil, words_bindLine,
      words_defaultLine hname, words_nil]
    rfl

end Lb
end CloudCore
