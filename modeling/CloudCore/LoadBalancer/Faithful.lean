import CloudCore.LoadBalancer.Routing

/-!
# The configuration means what the load balancer says

The whole text of `_write_config`, as HAProxy reads it.

## Main definitions

* `Faithful` — every listener sends every request where its rules say, and every backend that is named
  is there once.

## Main results

* `frontends_render`, `backendNames_render` — the sections that HAProxy reads.
* `route_listener` — a listener sends a request by its rules other than those for all paths.
* `faithful_iff` — **exactly when the configuration means what the load balancer says.**
-/

namespace CloudCore
namespace Lb

open Formats Formats.Haproxy Python

variable {env : Surroundings} {lb : LoadBalancer}

/-- The ids of the target groups differ in their first 8 characters. -/
def Distinct (lb : LoadBalancer) : Prop := (lb.targetGroups.map fun tg => tg.id.take 8).Nodup

instance (lb : LoadBalancer) : Decidable (Distinct lb) := inferInstanceAs (Decidable (List.Nodup _))

/-- Every listener sends every request where its rules say, and every backend that is named is there
once. -/
def Faithful (env : Surroundings) (lb : LoadBalancer) : Prop :=
  ∃ cfg, writeConfig env lb = some cfg ∧
    (∀ (i : ℕ) lst, lb.listeners[i]? = some lst → ∃ p, (frontends cfg)[i]? = some p ∧
      ∀ req, route p req = some (nameOf lb (chosen lb lst req))) ∧
    ∀ name ∈ usedNames cfg, (backendNames cfg).count name = 1

/-! ### Sections -/

/-- A section that is read back. -/
structure IsSection (b : Block) : Prop where
  header : isHeader b.1 = true ∧ '\n' ∉ b.1
  lines : ∀ l ∈ b.2, Tidy l

def readBlock (b : Block) : Proxy := ⟨words b.1, (b.2 ++ [[]]).map words⟩

theorem TidyBlock.isSection {keyword name : Line} {b : Block} (h : TidyBlock keyword name b) : IsSection b := by
  refine ⟨⟨?_, ?_⟩, h.lines⟩
  · rw [h.header, isHeader_spaced h.keyword.1, h.keyword.2]
  · rw [h.header]
    refine not_mem_spaced (by decide) ?_
    simp only [List.forall_mem_cons]
    exact ⟨h.keyword.1.2.not_mem (by decide), h.name.2.not_mem (by decide), nofun⟩

theorem isSection_globalBlock (h : PlainConfig env lb) : IsSection (globalBlock env) := by
  have hheader : isHeader "global".toList = true ∧ '\n' ∉ "global".toList := by decide
  refine ⟨hheader, ?_⟩
  show ∀ l ∈ [_, _, _, _], Tidy l
  simp only [List.forall_mem_cons]
  refine ⟨tidy_indent (by decide) (by decide) nofun, tidy_indent (by decide) (by decide) ?_,
    tidy_indent (by decide) (by decide) ?_, tidy_indent (by decide) (by decide) (by decide), nofun⟩
  · simp only [List.forall_mem_cons]
    exact ⟨h.files.1, nofun⟩
  · simp only [List.forall_mem_cons]
    exact ⟨by decide, h.files.2.1, by decide, by decide, by decide, by decide, nofun⟩

theorem isSection_defaultsBlock (h : PlainConfig env lb) : IsSection (defaultsBlock env lb) := by
  have hheader : isHeader "defaults".toList = true ∧ '\n' ∉ "defaults".toList := by decide
  refine ⟨hheader, fun l hl => ?_⟩
  have hfixed : ∀ l ∈ [indent ["log".toList, [], [], [], [], "global".toList],
      indent ["timeout".toList, "connect".toList, "5s".toList],
      indent ["timeout".toList, "client".toList, [], "300s".toList],
      indent ["timeout".toList, "server".toList, [], "300s".toList]], Tidy l := by
    simp only [List.forall_mem_cons]
    exact ⟨tidy_indent (by decide) (by decide) (by decide), tidy_indent (by decide) (by decide) (by decide),
      tidy_indent (by decide) (by decide) (by decide), tidy_indent (by decide) (by decide) (by decide), nofun⟩
  have hopts : ∀ l ∈ httpOpts env lb, Tidy l := by
    unfold httpOpts
    split
    · simp only [List.forall_mem_cons]
      refine ⟨tidy_indent (by decide) (by decide) (by decide),
        tidy_indent (by decide) (by decide) (by decide), tidy_indent (by decide) (by decide) (by decide),
        tidy_indent (by decide) (by decide) ?_, nofun⟩
      simp only [List.forall_mem_cons]
      exact ⟨by decide, h.files.2.2, nofun⟩
    · simp only [List.forall_mem_cons]
      exact ⟨tidy_indent (by decide) (by decide) (by decide), nofun⟩
  rcases List.mem_append.mp hl with hl | hl
  · rcases List.mem_cons.mp hl with rfl | hl
    · refine tidy_indent (by decide) (by decide) ?_
      simp only [List.forall_mem_cons]
      refine ⟨?_, nofun⟩
      split <;> decide
    · exact hfixed l hl
  · exact hopts l hl

/-- **The sections are read back**, each with the empty line at its end. -/
theorem proxies_render {blocks : List Block} (hne : blocks ≠ []) (h : ∀ b ∈ blocks, IsSection b) :
    proxies (render blocks) = blocks.map readBlock := by
  have hflat : (blocks.map fun b => b.1 :: (b.2 ++ [[]])).flatten =
      [] ++ ((blocks.map fun b => (b.1, b.2 ++ [[]])).map fun b => b.1 :: b.2).flatten := by
    rw [List.nil_append, List.map_map]
    rfl
  have hends : ∀ b ∈ blocks, ∀ l ∈ b.2 ++ [[]], Tidy l := by
    intro b hb l hl
    rcases List.mem_append.mp hl with hl | hl
    · exact (h b hb).lines l hl
    · rw [List.mem_singleton.mp hl]
      exact ⟨List.not_mem_nil, rfl⟩
  rw [render, hflat, proxies_flatten]
  · rw [List.map_map]
    rfl
  · intro l hl
    rw [← hflat] at hl
    obtain ⟨ls, hls, hl⟩ := List.mem_flatten.mp hl
    obtain ⟨b, hb, rfl⟩ := List.mem_map.mp hls
    rcases List.mem_cons.mp hl with rfl | hl
    · exact (h b hb).header.2
    · exact (hends b hb l hl).1
  · rw [← hflat]
    obtain ⟨b, blocks, rfl⟩ := List.exists_cons_of_ne_nil hne
    exact List.cons_ne_nil _ _
  · nofun
  · intro b hb
    obtain ⟨b, hb', rfl⟩ := List.mem_map.mp hb
    exact (h b hb').header.1
  · intro b hb l hl
    obtain ⟨b, hb', rfl⟩ := List.mem_map.mp hb
    exact (hends b hb' l hl).2

/-! ### Frontends and backends -/

theorem is_readBlock {keyword name : Line} {b : Block} (h : TidyBlock keyword name b) (k : Line) :
    (readBlock b).is k = (keyword == k) := by
  show ((words b.1).head? == some k) = (keyword == k)
  rw [h.words]
  rfl

section

variable {fronts : List Block}

/-- Blocks of one kind are all of that kind. -/
theorem filter_readBlock {keyword : Line} {bs : List Block}
    (h : ∀ b ∈ bs, ∃ name, TidyBlock keyword name b) (k : Line) :
    (bs.map readBlock).filter (Proxy.is k) = if keyword == k then bs.map readBlock else [] := by
  have hone : ∀ p ∈ bs.map readBlock, p.is k = (keyword == k) := by
    intro p hp
    obtain ⟨b, hb, rfl⟩ := List.mem_map.mp hp
    obtain ⟨name, hb⟩ := h b hb
    exact is_readBlock hb k
  split
  · next heq => exact List.filter_eq_self.mpr fun p hp => (hone p hp).trans heq
  · next hne => exact List.filter_eq_nil_iff.mpr fun p hp heq => hne ((hone p hp).symm.trans heq)

theorem tidy_backends (h : PlainConfig env lb) :
    ∀ b ∈ ownBlock env lb :: (referenced lb).map (tgBlock env lb), ∃ name, TidyBlock "backend".toList name b := by
  refine List.forall_mem_cons.mpr ⟨⟨_, tidy_ownBlock h⟩, fun b hb => ?_⟩
  obtain ⟨tg, htg, rfl⟩ := List.mem_map.mp hb
  exact ⟨_, tidy_tgBlock h (List.mem_of_mem_filter htg)⟩

/-- All the sections of the text. -/
theorem proxies_writeConfig (h : PlainConfig env lb)
    (hfronts : ∀ b ∈ fronts, ∃ name, TidyBlock "frontend".toList name b) :
    proxies (render (allBlocks env lb fronts)) =
      readBlock (globalBlock env) :: readBlock (defaultsBlock env lb) :: (fronts.map readBlock ++
        (ownBlock env lb :: (referenced lb).map (tgBlock env lb)).map readBlock) := by
  have hblocks : allBlocks env lb fronts = globalBlock env :: defaultsBlock env lb ::
      (fronts ++ ownBlock env lb :: (referenced lb).map (tgBlock env lb)) := rfl
  rw [hblocks, proxies_render (List.cons_ne_nil _ _)]
  · rw [List.map_cons, List.map_cons, List.map_append]
  · rw [List.forall_mem_cons, List.forall_mem_cons]
    refine ⟨isSection_globalBlock h, isSection_defaultsBlock h, fun b hb => ?_⟩
    rcases List.mem_append.mp hb with hb | hb
    · obtain ⟨name, hb⟩ := hfronts b hb
      exact hb.isSection
    · rcases List.mem_cons.mp hb with rfl | hb
      · exact (tidy_ownBlock h).isSection
      · obtain ⟨tg, htg, rfl⟩ := List.mem_map.mp hb
        exact (tidy_tgBlock h (List.mem_of_mem_filter htg)).isSection

/-- **The frontends that HAProxy reads.** -/
theorem frontends_render (h : PlainConfig env lb)
    (hfronts : ∀ b ∈ fronts, ∃ name, TidyBlock "frontend".toList name b) :
    frontends (render (allBlocks env lb fronts)) = fronts.map readBlock := by
  rw [frontends, proxies_writeConfig h hfronts, List.filter_cons_of_neg, List.filter_cons_of_neg,
    List.filter_append, filter_readBlock hfronts, filter_readBlock (tidy_backends h), if_pos (by decide),
    if_neg (by decide), List.append_nil]
  · exact Bool.false_ne_true
  · exact Bool.false_ne_true

theorem backendNames_render (h : PlainConfig env lb)
    (hfronts : ∀ b ∈ fronts, ∃ name, TidyBlock "frontend".toList name b) :
    backendNames (render (allBlocks env lb fronts)) = ownName lb :: (referenced lb).map backName := by
  have hname {name : Line} {b : Block} (hb : TidyBlock "backend".toList name b) :
      (readBlock b).header[1]? = some name := by
    show (words b.1)[1]? = some name
    rw [hb.words]
    rfl
  rw [backendNames, proxies_writeConfig h hfronts, List.filter_cons_of_neg, List.filter_cons_of_neg,
    List.filter_append, filter_readBlock hfronts, filter_readBlock (tidy_backends h), if_neg (by decide),
    if_pos (by decide), List.nil_append, List.map_cons, List.filterMap_cons, hname (tidy_ownBlock h),
    List.map_map, List.filterMap_map]
  · refine congrArg (ownName lb :: ·) ?_
    rw [← List.filterMap_eq_map']
    exact List.filterMap_congr fun tg htg => hname (tidy_tgBlock h (List.mem_of_mem_filter htg))
  · exact Bool.false_ne_true
  · exact Bool.false_ne_true

end

/-! ### Where a listener sends a request -/

/-- **A listener sends a request by its rules other than those for all paths.** -/
theorem route_listener {lst : Listener} {ps : List Placed} {b : Block}
    (hps : placed lb (sortedRules lst).zipIdx = some ps) (hplain : ∀ p ∈ ps, p.conds.Plain)
    (hfront : IsFront lb ps (findTg lb lst.targetGroupId) b) (req : Request) :
    route (readBlock b) req =
      some (nameOf lb (chosenBy lb lst (lst.routingRules.filter (!·.isStar)) req)) := by
  obtain ⟨address, hwords⟩ := hfront.words
  have hfind : ((ps.find? fun p => p.hasCondition && p.conds.holdAs req).map fun p => backName p.tg) =
      (((lowest Rule.prio ((lst.routingRules.filter (!·.isStar)).filter (applies lb req))).bind fun r =>
        findTg lb r.targetGroupId).map backName) := by
    calc
      ((ps.find? fun p => p.hasCondition && p.conds.holdAs req).map fun p => backName p.tg) =
          ((ps.find? fun p => p.hasCondition && p.conds.holdAs req).map (·.tg)).map backName := by
        rw [Option.map_map]
        rfl
      _ = _ := by
        rw [find?_placed hps, List.zipIdx_map_fst, sortedRules, find?_sortedBy, List.filter_filter]
  rw [readBlock, hwords, route_bodyWords _ address (nodup_placed hps) hplain, hfind, chosenBy]
  cases hlow : lowest Rule.prio ((lst.routingRules.filter (!·.isStar)).filter (applies lb req)) with
  | none => rfl
  | some r =>
    -- the rule that applies has a target group
    have hr : applies lb req r = true := by
      obtain ⟨before, after, hsplit, -⟩ := lowest_eq_some_iff.mp hlow
      have hmem : r ∈ (lst.routingRules.filter (!·.isStar)).filter (applies lb req) := by
        rw [hsplit]
        exact List.mem_append_right _ List.mem_cons_self
      exact (List.mem_filter.mp hmem).2
    obtain ⟨tg, htg⟩ := Option.isSome_iff_exists.mp (Bool.and_eq_true_iff.mp hr).2
    show ((findTg lb r.targetGroupId).map backName).or _ = some (nameOf lb (findTg lb r.targetGroupId))
    rw [htg]
    rfl

/-! ### The names that are used -/

theorem refersTo_iff {lst : Listener} {tg : TargetGroup} :
    refersTo lb lst tg = true ↔
      (∃ r ∈ lst.routingRules, ∃ c, r.conditions = some c ∧
        (!(c.pathPattern.isEmpty && c.hostHeader.isEmpty)) = true ∧
          findTg lb r.targetGroupId = some tg) ∨ findTg lb lst.targetGroupId = some tg := by
  rw [refersTo, Bool.or_eq_true, List.any_eq_true, beq_iff_eq]
  refine or_congr_left (exists_congr fun r => and_congr_right fun _ => ?_)
  rw [Bool.and_eq_true, Option.any_eq_true, beq_iff_eq]
  exact ⟨fun ⟨⟨c, hc, hcond⟩, htg⟩ => ⟨c, hc, hcond, htg⟩, fun ⟨c, hc, hcond, htg⟩ => ⟨⟨c, hc, hcond⟩, htg⟩⟩

theorem refersTo_of_chosenBy {lst : Listener} {rules : List Rule} (hrules : rules ⊆ lst.routingRules)
    {req : Request} {tg : TargetGroup} (h : chosenBy lb lst rules req = some tg) :
    refersTo lb lst tg = true := by
  unfold chosenBy at h
  split at h
  · next r hlow =>
    obtain ⟨before, after, hsplit, -⟩ := lowest_eq_some_iff.mp hlow
    have hmem : r ∈ rules.filter (applies lb req) := by
      rw [hsplit]
      exact List.mem_append_right _ List.mem_cons_self
    obtain ⟨hr, happlies⟩ := List.mem_filter.mp hmem
    obtain ⟨c, hc, hcond⟩ := (Option.any_eq_true _ _).mp (Bool.and_eq_true_iff.mp happlies).1
    exact refersTo_iff.mpr (Or.inl ⟨r, hrules hr, c, hc, (Bool.and_eq_true_iff.mp hcond).1, h⟩)
  · exact refersTo_iff.mpr (Or.inr h)

theorem mem_referenced {lst : Listener} (hlst : lst ∈ lb.listeners) {tg : TargetGroup}
    (h : refersTo lb lst tg = true) : tg ∈ referenced lb := by
  refine List.mem_filter.mpr ⟨?_, List.any_eq_true.mpr ⟨lst, hlst, h⟩⟩
  rcases refersTo_iff.mp h with ⟨r, -, c, -, -, htg⟩ | htg
  · exact findTg_mem htg
  · exact findTg_mem htg

theorem filterMap_named (address : Line) (ps : List Placed) (name : Line) :
    (bodyWords address ps name).filterMap named =
      ((ps.filter Placed.hasCondition).map fun p => backName p.tg) ++ [name] := by
  have hacl : (ps.flatMap fun p => aclWords p.idx p.conds).filterMap named = [] := by
    refine List.filterMap_eq_nil_iff.mpr fun l hl => ?_
    obtain ⟨p, -, hp⟩ := List.mem_flatMap.mp hl
    obtain ⟨ws, rfl⟩ := exists_cons_of_mem_aclWords hp
    exact named_of_ne ws (by decide) (by decide)
  rw [bodyWords, List.filterMap_cons_none (named_of_ne _ (by decide) (by decide)), List.filterMap_append,
    hacl, List.nil_append, List.filterMap_append, List.filterMap_map]
  refine congrArg₂ (· ++ ·) ?_ rfl
  rw [← List.filterMap_eq_map']
  exact List.filterMap_congr fun p _ => rfl

/-- The backends that the frontend of a listener names. -/
theorem mem_named_iff {lst : Listener} {ps : List Placed} (hps : placed lb (sortedRules lst).zipIdx = some ps)
    {b : Block} (hfront : IsFront lb ps (findTg lb lst.targetGroupId) b) {name : Line} :
    name ∈ (readBlock b).body.filterMap named ↔
      (∃ tg, refersTo lb lst tg = true ∧ name = backName tg) ∨
        findTg lb lst.targetGroupId = none ∧ name = ownName lb := by
  obtain ⟨address, hwords⟩ := hfront.words
  rw [readBlock, hwords, filterMap_named, List.mem_append, List.mem_singleton]
  constructor
  · rintro (h | h)
    · obtain ⟨p, hp, rfl⟩ := List.mem_map.mp h
      obtain ⟨hmem, hcond⟩ := List.mem_filter.mp hp
      obtain ⟨r, hr, hc, htg⟩ := mem_placed hps hmem
      exact Or.inl ⟨p.tg, refersTo_iff.mpr (Or.inl ⟨r, mem_rules_of_zipIdx hr, p.conds, hc, hcond, htg⟩), rfl⟩
    · cases htg : findTg lb lst.targetGroupId with
      | none =>
        rw [htg] at h
        exact Or.inr ⟨rfl, h⟩
      | some tg =>
        rw [htg] at h
        exact Or.inl ⟨tg, refersTo_iff.mpr (Or.inr htg), h⟩
  · rintro (⟨tg, hrefers, rfl⟩ | ⟨htg, rfl⟩)
    · rcases refersTo_iff.mp hrefers with ⟨r, hr, c, hc, hcond, htg⟩ | htg
      · -- its rule is written
        obtain ⟨idx, hidx⟩ : ∃ idx, (r, idx) ∈ (sortedRules lst).zipIdx := by
          have hsorted : r ∈ sortedRules lst := mem_sortedBy.mpr hr
          obtain ⟨idx, hidx⟩ := List.mem_iff_getElem?.mp hsorted
          exact ⟨idx, List.mk_mem_zipIdx_iff_getElem?.mpr hidx⟩
        obtain ⟨p, hp, rfl, rfl⟩ := exists_placed hps hidx hc htg
        exact Or.inl (List.mem_map.mpr ⟨p, List.mem_filter.mpr ⟨hp, hcond⟩, rfl⟩)
      · rw [htg]
        exact Or.inr rfl
    · rw [htg]
      exact Or.inr rfl

/-! ### All listeners -/

theorem listenerBlock_isSome_iff {lst : Listener} :
    (listenerBlock lb lst).isSome ↔ ∀ r ∈ lst.routingRules, r.conditions ≠ none := by
  rw [listenerBlock, Option.isSome_map, placed_isSome_iff]
  refine ⟨fun h r hr => ?_, fun h r hr => h r.1 (mem_rules_of_zipIdx hr)⟩
  have hsorted : r ∈ sortedRules lst := mem_sortedBy.mpr hr
  obtain ⟨idx, hidx⟩ := List.mem_iff_getElem?.mp hsorted
  exact h (r, idx) (List.mk_mem_zipIdx_iff_getElem?.mpr hidx)

/-- What is computed item by item. -/
theorem mapM_eq_some_iff {α β : Type} {f : α → Option β} {l : List α} {l' : List β} :
    l.mapM f = some l' ↔ List.Forall₂ (fun a b => f a = some b) l l' := by
  induction l generalizing l' with
  | nil =>
    rw [List.mapM_nil, List.forall₂_nil_left_iff]
    exact ⟨fun h => (Option.some.inj h).symm, fun h => h ▸ rfl⟩
  | cons a l ih =>
    rw [List.mapM_cons, List.forall₂_cons_left_iff]
    constructor
    · intro h
      obtain ⟨b, hb, h⟩ := Option.bind_eq_some_iff.mp h
      obtain ⟨bs, hbs, h⟩ := Option.bind_eq_some_iff.mp h
      exact ⟨b, bs, hb, ih.mp hbs, (Option.some.inj h).symm⟩
    · rintro ⟨b, bs, hb, hbs, rfl⟩
      rw [hb, ih.mpr hbs]
      rfl

theorem mapM_isSome_iff {α β : Type} {f : α → Option β} {l : List α} :
    (l.mapM f).isSome ↔ ∀ a ∈ l, (f a).isSome := by
  induction l with
  | nil => exact ⟨fun _ => nofun, fun _ => rfl⟩
  | cons a l ih =>
    rw [List.mapM_cons, List.forall_mem_cons, ← ih]
    cases f a with
    | none => simp
    | some b => cases l.mapM f <;> simp

theorem writeConfig_isSome_iff : (writeConfig env lb).isSome ↔
    ∀ lst ∈ lb.listeners, ∀ r ∈ lst.routingRules, r.conditions ≠ none := by
  rw [writeConfig, Option.isSome_map, frontendBlocks]
  split
  · next hnil =>
    rw [hnil]
    exact ⟨fun _ => nofun, fun _ => rfl⟩
  · rw [mapM_isSome_iff]
    exact forall₂_congr fun lst _ => listenerBlock_isSome_iff

/-- The frontends are those of the listeners. -/
theorem frontendBlocks_cases (h : PlainConfig env lb) {fronts : List Block}
    (hfronts : frontendBlocks env lb = some fronts) :
    (lb.listeners = [] ∧ fronts = [frontBlock env lb]) ∨ List.Forall₂ (fun lst b => lst ∈ lb.listeners ∧
      ∃ ps, placed lb (sortedRules lst).zipIdx = some ps ∧ (∀ p ∈ ps, p.conds.Plain) ∧
        IsFront lb ps (findTg lb lst.targetGroupId) b) lb.listeners fronts := by
  unfold frontendBlocks at hfronts
  split at hfronts
  · next hnil => exact Or.inl ⟨hnil, (Option.some.inj hfronts).symm⟩
  · refine Or.inr ((List.forall₂_and_left _ _).mpr ⟨fun _ h => h, mapM_eq_some_iff.mp hfronts⟩ |>.imp ?_)
    rintro lst b ⟨hlst, hb⟩
    exact ⟨hlst, isFront_listenerBlock h hlst hb⟩

theorem tidy_fronts (h : PlainConfig env lb) {fronts : List Block}
    (hfronts : frontendBlocks env lb = some fronts) :
    ∀ b ∈ fronts, ∃ name, TidyBlock "frontend".toList name b := by
  rcases frontendBlocks_cases h hfronts with ⟨-, rfl⟩ | hall
  · intro b hb
    rw [List.mem_singleton.mp hb]
    obtain ⟨suffix, htidy⟩ := (isFront_frontBlock h).tidy
    exact ⟨_, htidy⟩
  · intro b hb
    obtain ⟨i, hi, rfl⟩ := List.mem_iff_getElem.mp hb
    obtain ⟨-, ps, -, -, hfront⟩ := hall.get (by rw [hall.length_eq]; exact hi) hi
    obtain ⟨suffix, htidy⟩ := hfront.tidy
    exact ⟨_, htidy⟩

/-- Where the listeners send requests. -/
theorem routes_iff (h : PlainConfig env lb) {fronts : List Block}
    (hfronts : frontendBlocks env lb = some fronts) :
    (∀ (i : ℕ) lst, lb.listeners[i]? = some lst →
      ∃ p, (frontends (render (allBlocks env lb fronts)))[i]? = some p ∧
        ∀ req, route p req = some (nameOf lb (chosen lb lst req))) ↔
      ∀ lst ∈ lb.listeners, ∀ req, nameOf lb (chosenBy lb lst (lst.routingRules.filter (!·.isStar)) req) =
        nameOf lb (chosen lb lst req) := by
  rw [frontends_render h (tidy_fronts h hfronts)]
  rcases frontendBlocks_cases h hfronts with ⟨hnil, -⟩ | hall
  · rw [hnil]
    exact ⟨fun _ => nofun, fun _ => nofun⟩
  · have hroute (i : ℕ) (lst : Listener) (hlst : lb.listeners[i]? = some lst) :
        ∃ b, fronts[i]? = some b ∧ ∀ req, route (readBlock b) req =
          some (nameOf lb (chosenBy lb lst (lst.routingRules.filter (!·.isStar)) req)) := by
      obtain ⟨hi, rfl⟩ := List.getElem?_eq_some_iff.mp hlst
      have hi' : i < fronts.length := hall.length_eq ▸ hi
      obtain ⟨-, ps, hps, hplain, hfront⟩ := hall.get hi hi'
      exact ⟨fronts[i], List.getElem?_eq_getElem hi', route_listener hps hplain hfront⟩
    constructor
    · intro hfaith lst hlst req
      obtain ⟨i, hi⟩ := List.mem_iff_getElem?.mp hlst
      obtain ⟨p, hp, hp'⟩ := hfaith i lst hi
      obtain ⟨b, hb, hb'⟩ := hroute i lst hi
      rw [List.getElem?_map, hb] at hp
      obtain rfl := Option.some.inj hp
      exact Option.some.inj ((hb' req).symm.trans (hp' req))
    · intro hsame i lst hi
      obtain ⟨b, hb, hb'⟩ := hroute i lst hi
      refine ⟨readBlock b, by rw [List.getElem?_map, hb]; rfl, fun req => ?_⟩
      rw [hb' req, hsame lst (List.mem_of_getElem? hi) req]

/-! ### Names that are there once -/

theorem take_eq_of_backName_eq {tg tg' : TargetGroup} (h : backName tg = backName tg') :
    tg.id.take 8 = tg'.id.take 8 :=
  List.append_cancel_left (List.append_cancel_right h)

theorem backName_inj (hids : Distinct lb) {tg tg' : TargetGroup} (htg : tg ∈ lb.targetGroups)
    (htg' : tg' ∈ lb.targetGroups) (h : backName tg = backName tg') : tg = tg' :=
  List.inj_on_of_nodup_map hids htg htg' (take_eq_of_backName_eq h)

theorem nodup_referenced (hids : Distinct lb) : ((referenced lb).map backName).Nodup := by
  refine List.Nodup.map_on (fun tg htg tg' htg' h => ?_) (List.Nodup.filter _ (List.Nodup.of_map _ hids))
  exact backName_inj hids (List.mem_of_mem_filter htg) (List.mem_of_mem_filter htg') h

theorem count_ownName : (ownName lb :: (referenced lb).map backName).count (ownName lb) = 1 ↔
    ∀ tg ∈ referenced lb, backName tg ≠ ownName lb := by
  rw [List.count_cons_self, Nat.add_eq_right, List.count_eq_zero, List.mem_map]
  exact ⟨fun h tg htg heq => h ⟨tg, htg, heq⟩, fun h ⟨tg, htg, heq⟩ => h tg htg heq⟩

theorem mem_usedNames (h : PlainConfig env lb) {fronts : List Block}
    (hfronts : frontendBlocks env lb = some fronts) {name : Line}
    (hname : name ∈ usedNames (render (allBlocks env lb fronts))) :
    name = ownName lb ∨ ∃ tg ∈ referenced lb, name = backName tg := by
  rw [usedNames, frontends_render h (tidy_fronts h hfronts), List.flatMap_map] at hname
  obtain ⟨b, hb, hb'⟩ := List.mem_flatMap.mp hname
  rcases frontendBlocks_cases h hfronts with ⟨-, rfl⟩ | hall
  · obtain ⟨address, hwords⟩ := (isFront_frontBlock h).words
    rw [List.mem_singleton.mp hb, readBlock, hwords, filterMap_named] at hb'
    exact Or.inl (List.mem_singleton.mp hb')
  · obtain ⟨i, hi, rfl⟩ := List.mem_iff_getElem.mp hb
    obtain ⟨hlst, ps, hps, -, hfront⟩ := hall.get (by rw [hall.length_eq]; exact hi) hi
    rcases (mem_named_iff hps hfront).mp hb' with ⟨tg, hrefers, rfl⟩ | ⟨-, rfl⟩
    · exact Or.inr ⟨tg, mem_referenced hlst hrefers, rfl⟩
    · exact Or.inl rfl

/-- A target group that is referred to is named. -/
theorem backName_mem_usedNames (h : PlainConfig env lb) {fronts : List Block}
    (hfronts : frontendBlocks env lb = some fronts) {tg : TargetGroup} (htg : tg ∈ referenced lb) :
    backName tg ∈ usedNames (render (allBlocks env lb fronts)) := by
  obtain ⟨lst, hlst, hrefers⟩ := List.any_eq_true.mp (List.mem_filter.mp htg).2
  rw [usedNames, frontends_render h (tidy_fronts h hfronts), List.flatMap_map]
  rcases frontendBlocks_cases h hfronts with ⟨hnil, -⟩ | hall
  · rw [hnil] at hlst
    cases hlst
  · obtain ⟨i, hi, rfl⟩ := List.mem_iff_getElem.mp hlst
    have hi' : i < fronts.length := hall.length_eq ▸ hi
    obtain ⟨-, ps, hps, -, hfront⟩ := hall.get hi hi'
    exact List.mem_flatMap.mpr ⟨fronts[i], List.getElem_mem hi',
      (mem_named_iff hps hfront).mpr (Or.inl ⟨tg, hrefers, rfl⟩)⟩

/-- **The names are there once if no target group has the backend of the load balancer.** -/
theorem names_once_iff (h : PlainConfig env lb) (hids : Distinct lb) {fronts : List Block}
    (hfronts : frontendBlocks env lb = some fronts) :
    (∀ name ∈ usedNames (render (allBlocks env lb fronts)),
      (backendNames (render (allBlocks env lb fronts))).count name = 1) ↔
      ∀ tg ∈ referenced lb, backName tg ≠ ownName lb := by
  rw [backendNames_render h (tidy_fronts h hfronts)]
  constructor
  · intro honce tg htg heq
    have hcount := honce _ (backName_mem_usedNames h hfronts htg)
    rw [heq, count_ownName] at hcount
    exact hcount tg htg heq
  · intro hother name hname
    rcases mem_usedNames h hfronts hname with rfl | ⟨tg, htg, rfl⟩
    · exact count_ownName.mpr hother
    · rw [List.count_cons_of_ne (hother tg htg).symm]
      exact List.count_eq_one_of_mem (nodup_referenced hids) (List.mem_map_of_mem htg)

/-- The name of a backend says which target group is meant. -/
theorem nameOf_inj (hids : Distinct lb) (hother : ∀ tg ∈ referenced lb, backName tg ≠ ownName lb)
    {x y : Option TargetGroup} (hx : ∀ tg, x = some tg → tg ∈ referenced lb)
    (hy : ∀ tg, y = some tg → tg ∈ referenced lb) : nameOf lb x = nameOf lb y ↔ x = y := by
  refine ⟨fun heq => ?_, fun heq => by rw [heq]⟩
  cases x with
  | none =>
    cases y with
    | none => rfl
    | some tg => exact absurd heq.symm (hother tg (hy tg rfl))
  | some tg =>
    cases y with
    | none => exact absurd heq (hother tg (hx tg rfl))
    | some tg' =>
      exact congrArg some (backName_inj hids (List.mem_of_mem_filter (hx tg rfl))
        (List.mem_of_mem_filter (hy tg' rfl)) heq)

/-- **The configuration means what the load balancer says** exactly if no rule has null for conditions,
no target group has the backend of the load balancer, and the rules for all paths decide nothing. -/
theorem faithful_iff (h : PlainConfig env lb) (_happ : lb.application = true) (hids : Distinct lb) :
    Faithful env lb ↔
      (∀ lst ∈ lb.listeners, ∀ r ∈ lst.routingRules, r.conditions ≠ none) ∧
        (∀ tg ∈ referenced lb, backName tg ≠ ownName lb) ∧
          ∀ lst ∈ lb.listeners, ∀ req,
            chosen lb lst req = chosenBy lb lst (lst.routingRules.filter (!·.isStar)) req := by
  have hmem (hother : ∀ tg ∈ referenced lb, backName tg ≠ ownName lb) {lst : Listener}
      (hlst : lst ∈ lb.listeners) (req : Request) :
      nameOf lb (chosenBy lb lst (lst.routingRules.filter (!·.isStar)) req) =
        nameOf lb (chosen lb lst req) ↔
          chosen lb lst req = chosenBy lb lst (lst.routingRules.filter (!·.isStar)) req := by
    rw [nameOf_inj hids hother, eq_comm]
    · exact fun tg htg => mem_referenced hlst (refersTo_of_chosenBy (List.filter_subset_self _) htg)
    · exact fun tg htg => mem_referenced hlst (refersTo_of_chosenBy (List.Subset.refl _) htg)
  constructor
  · rintro ⟨cfg, hcfg, hroutes, honce⟩
    obtain ⟨fronts, hfronts, rfl⟩ := Option.map_eq_some_iff.mp hcfg
    have hother := (names_once_iff h hids hfronts).mp honce
    refine ⟨writeConfig_isSome_iff.mp (Option.isSome_of_eq_some hcfg), hother, fun lst hlst req => ?_⟩
    exact (hmem hother hlst req).mp ((routes_iff h hfronts).mp hroutes lst hlst req)
  · rintro ⟨hnull, hother, hstar⟩
    have hsome : (writeConfig env lb).isSome := writeConfig_isSome_iff.mpr hnull
    obtain ⟨cfg, hcfg⟩ := Option.isSome_iff_exists.mp hsome
    obtain ⟨fronts, hfronts, rfl⟩ := Option.map_eq_some_iff.mp hcfg
    refine ⟨_, hcfg, (routes_iff h hfronts).mpr fun lst hlst req => ?_,
      (names_once_iff h hids hfronts).mpr hother⟩
    exact (hmem hother hlst req).mpr (hstar lst hlst req)

/-! ### Two load balancers -/

/-- Nothing but the files. -/
def bareSurroundings : Surroundings where
  pidPath := "/run/lb.pid".toList
  sockPath := "/run/lb.sock".toList
  startupPath := "/run/startup.http".toList
  listenPort := 18080
  vpcInstances := []
  getInstance := fun _ => none

/-- A load balancer with a target group, to which it sends the requests of one path pattern. -/
def oneRuleLb (pattern : Line) : LoadBalancer where
  name := "web".toList
  application := true
  backends := []
  listeners := [⟨"l1".toList, 8080, [], [⟨some 10, some ⟨pattern, []⟩, "group-one".toList⟩]⟩]
  healthCheck := none
  targetGroups := [⟨"group-one".toList, some 80, [], none⟩]
  stickySessions := false
  cookieName := []

theorem plainConfig_oneRuleLb {pattern : Line} (hplain : Plain pattern) (hflag : isFlag pattern = false) :
    PlainConfig bareSurroundings (oneRuleLb pattern) where
  name := by
    show Plain "web".toList
    decide
  cookie := nofun
  listeners := by
    show ∀ lst ∈ [_], Plain _
    rw [List.forall_mem_singleton]
    show Plain "l1".toList
    decide
  rules := by
    intro lst hlst r hr c hc
    obtain rfl := List.mem_singleton.mp hlst
    obtain rfl := List.mem_singleton.mp hr
    obtain rfl := Option.some.inj hc
    exact ⟨hplain, nofun, hflag, rfl⟩
  groups := by
    intro tg htg
    obtain rfl := List.mem_singleton.mp htg
    show Plain "group-one".toList
    decide
  groupChecks := by
    intro tg htg hc hsome
    obtain rfl := List.mem_singleton.mp htg
    cases hsome
  check := nofun
  backends := nofun
  vpc := nofun
  store := nofun
  files := by
    show Plain "/run/lb.pid".toList ∧ Plain "/run/lb.sock".toList ∧ Plain "/run/startup.http".toList
    decide

/-- A load balancer with two listeners, of which the first has a rule for a path and one for a host. -/
def twoListeners : LoadBalancer where
  name := "web".toList
  application := true
  backends := []
  listeners :=
    [⟨"l1".toList, 8080, [],
        [⟨some 10, some ⟨"/api/*".toList, []⟩, "group-one".toList⟩,
          ⟨some 5, some ⟨[], "static.example".toList⟩, "group-two".toList⟩]⟩,
      ⟨"l2".toList, 8443, "group-one".toList,
        [⟨none, some ⟨"/img/*".toList, "static.example".toList⟩, "group-two".toList⟩]⟩]
  healthCheck := none
  targetGroups := [⟨"group-one".toList, some 80, [], none⟩, ⟨"group-two".toList, some 81, [], none⟩]
  stickySessions := false
  cookieName := []

theorem plainConfig_twoListeners : PlainConfig bareSurroundings twoListeners where
  name := by decide
  cookie := nofun
  listeners := by decide
  rules := by
    have hall : ∀ lst ∈ twoListeners.listeners, ∀ r ∈ lst.routingRules, ∀ c ∈ r.conditions,
        Plain c.pathPattern ∧ Plain c.hostHeader ∧ isFlag c.pathPattern = false ∧
          isFlag c.hostHeader = false := by decide
    intro lst hlst r hr c hc
    obtain ⟨hpath, hhost, hpathFlag, hhostFlag⟩ := hall lst hlst r hr c hc
    exact ⟨hpath, hhost, hpathFlag, hhostFlag⟩
  groups := by decide
  groupChecks := by
    have hall : ∀ tg ∈ twoListeners.targetGroups, tg.healthCheck = none := by decide
    intro tg htg hc hsome
    cases (hall tg htg).symm.trans hsome
  check := nofun
  backends := nofun
  vpc := nofun
  store := nofun
  files := by decide

/-- Paths and hosts are sent where the rules say. -/
theorem faithful_twoListeners : Faithful bareSurroundings twoListeners := by
  refine (faithful_iff plainConfig_twoListeners rfl (by decide)).mpr ⟨by decide, by decide, ?_⟩
  have hnoStar : ∀ lst ∈ twoListeners.listeners,
      lst.routingRules.filter (!·.isStar) = lst.routingRules := by decide
  intro lst hlst req
  rw [hnoStar lst hlst]
  rfl

/-- A rule for all paths is written without a pattern, and nothing is sent to its target group. -/
theorem not_faithful_star :
    PlainConfig bareSurroundings (oneRuleLb ['*']) ∧ (oneRuleLb ['*']).application = true ∧
      Distinct (oneRuleLb ['*']) ∧ ¬ Faithful bareSurroundings (oneRuleLb ['*']) := by
  refine ⟨plainConfig_oneRuleLb (by decide) (by decide), rfl, by decide, ?_⟩
  rintro ⟨cfg, hcfg, hroutes, -⟩
  obtain ⟨p, hp, hroute⟩ := hroutes 0 _ rfl
  have hsent := hroute ⟨"/".toList, []⟩
  have hstated : chosen (oneRuleLb ['*']) ⟨"l1".toList, 8080, [], [⟨some 10, some ⟨['*'], []⟩,
      "group-one".toList⟩]⟩ ⟨"/".toList, []⟩ = some ⟨"group-one".toList, some 80, [], none⟩ := by
    decide
  have hread : ((writeConfig bareSurroundings (oneRuleLb ['*'])).bind fun cfg =>
      (frontends cfg)[0]?.bind fun p => route p ⟨"/".toList, []⟩) = some (ownName (oneRuleLb ['*'])) := by
    with_unfolding_all decide
  rw [hcfg, Option.bind_some, hp, Option.bind_some, hsent] at hread
  rw [hstated] at hread
  exact absurd hread (by decide)

end Lb
end CloudCore
