import CloudCore.LoadBalancer.Config
import Mathlib.Tactic.Linarith

/-!
# The written configuration, as HAProxy reads it

The sections that `_write_config` writes, line by line, of texts that stand for themselves.

## Main definitions

* `PlainConfig` — the texts that are put into the configuration stand for themselves.
* `TidyBlock` — a section with a header, and with lines that are none.

## Main results

* `tidy_tgBlock`, `tidy_ownBlock` — the backends are such sections.
* `words_aclLines`, `words_useLine`, `words_defaultLine` — the words of a frontend.
* `fits_pathCriterion`, `fits_hostCriterion` — what its ACLs stand for.
-/

namespace CloudCore
namespace Lb

open Formats Formats.Haproxy Python

variable {env : Surroundings} {lb : LoadBalancer}

/-- The texts of a rule stand for themselves; a pattern is no flag. -/
structure Conditions.Plain (c : Conditions) : Prop where
  path : Haproxy.Plain c.pathPattern
  host : Haproxy.Plain c.hostHeader
  pathFlag : isFlag c.pathPattern = false
  hostFlag : isFlag c.hostHeader = false

/-- The texts that are put into the configuration stand for themselves. -/
structure PlainConfig (env : Surroundings) (lb : LoadBalancer) : Prop where
  name : Plain lb.name
  cookie : Plain lb.cookieName
  listeners : ∀ lst ∈ lb.listeners, Plain lst.id
  rules : ∀ lst ∈ lb.listeners, ∀ r ∈ lst.routingRules, ∀ c, r.conditions = some c → c.Plain
  groups : ∀ tg ∈ lb.targetGroups, Plain tg.id
  groupChecks : ∀ tg ∈ lb.targetGroups, ∀ hc, tg.healthCheck = some hc → Plain (hc.path.getD [])
  check : ∀ hc, lb.healthCheck = some hc → Plain (hc.path.getD [])
  backends : ∀ s ∈ lb.backends, Plain s.name ∧ Plain s.address
  vpc : ∀ i ∈ env.vpcInstances, Plain i.name ∧ Plain i.privateIp
  store : ∀ id i, env.getInstance id = some i → Plain i.name ∧ Plain i.privateIp
  files : Plain env.pidPath ∧ Plain env.sockPath ∧ Plain env.startupPath

/-! ### Lines -/

theorem plain_number (n : ℕ) : Plain (number n) := by
  intro c hc
  have hdigit : c.isDigit = true := Nat.isDigit_of_mem_toDigits (by decide) (by decide) hc
  rw [Char.isDigit, Bool.and_eq_true, decide_eq_true_eq, decide_eq_true_eq] at hdigit
  have hlow : 48 ≤ c.toNat := hdigit.1
  have hhigh : c.toNat ≤ 57 := hdigit.2
  have hne (d : Char) (hd : d.toNat < 48 ∨ 57 < d.toNat) : (c == d) = false := by
    rw [beq_eq_false_iff_ne]
    rintro rfl
    omega
  unfold isPlain isBlank
  rw [hne ' ' (by decide), hne '\t' (by decide), hne '#' (by decide), hne '"' (by decide),
    hne '\\' (by decide)]
  have hline : (decide (10 ≤ c.toNat) && decide (c.toNat ≤ 13)) = false := by
    rw [Bool.and_eq_false_iff, decide_eq_false_iff_not, decide_eq_false_iff_not]
    omega
  have hquote : (c.toNat == 39) = false := beq_eq_false_iff_ne.mpr (by omega)
  rw [hline, hquote]
  rfl

theorem number_inj {n m : ℕ} (h : number n = number m) : n = m := by
  rw [← value_toDigits n, ← value_toDigits m]
  exact congrArg value h

theorem plain_aclName (idx : ℕ) {kind : Char} (hkind : isPlain kind = true) : Plain (aclName idx kind) := by
  have hletter : Plain ['r'] := by decide
  have hend : Plain [kind] := fun c hc => by rw [List.mem_singleton.mp hc]; exact hkind
  exact (hletter.append (plain_number idx)).append hend

theorem aclName_inj {idx idx' : ℕ} {kind kind' : Char} (h : aclName idx kind = aclName idx' kind') :
    idx = idx' ∧ kind = kind' := by
  obtain ⟨hfront, hend⟩ := List.append_inj' h rfl
  exact ⟨number_inj (List.cons.inj hfront).2, (List.cons.inj hend).1⟩

/-- A line within a section: no header, and no end of a line in it. -/
def Tidy (l : Line) : Prop := '\n' ∉ l ∧ isHeader l = false

theorem tidy_indent {w : Line} {ws : List Line} (hw : IsWord w) (hkeyword : isKeyword w = false)
    (hws : ∀ v ∈ ws, Plain v) : Tidy (indent (w :: ws)) := by
  refine ⟨?_, (isHeader_indent hw ws).trans hkeyword⟩
  have hnot : '\n' ∉ spaced (w :: ws) := by
    refine not_mem_spaced (by decide) fun v hv => ?_
    rcases List.mem_cons.mp hv with rfl | hv
    · exact hw.2.not_mem (by decide)
    · exact (hws v hv).not_mem (by decide)
  rw [indent, List.mem_cons, List.mem_cons, List.mem_cons, List.mem_cons]
  rintro (h | h | h | h | h)
  · exact absurd h (by decide)
  · exact absurd h (by decide)
  · exact absurd h (by decide)
  · exact absurd h (by decide)
  · exact hnot h

theorem plain_take {w : Line} (h : Plain w) (n : ℕ) : Plain (w.take n) :=
  h.of_sublist (List.take_sublist n w)

/-! ### Sections -/

/-- A section as it should be: a header with a keyword and a name, and tidy lines. -/
structure TidyBlock (keyword name : Line) (b : Block) : Prop where
  header : b.1 = spaced [keyword, name]
  keyword : IsWord keyword ∧ isKeyword keyword = true
  name : IsWord name
  lines : ∀ l ∈ b.2, Tidy l

theorem TidyBlock.words {keyword name : Line} {b : Block} (h : TidyBlock keyword name b) :
    Haproxy.words b.1 = [keyword, name] := by
  have hwords : ∀ w ∈ [keyword, name], IsWord w := by
    rw [List.forall_mem_cons, List.forall_mem_singleton]
    exact ⟨h.keyword.1, h.name⟩
  rw [h.header, words_spaced fun w hw => (hwords w hw).2, filter_words hwords]

theorem tidy_serversCfg {servers : List Server} (hservers : ∀ s ∈ servers, Plain s.name ∧ Plain s.address)
    (sticky : Bool) : ∀ l ∈ serversCfg servers sticky, Tidy l := by
  intro l hl
  unfold serversCfg at hl
  split at hl
  · rw [List.mem_singleton.mp hl]
    exact ⟨by decide, by decide⟩
  · obtain ⟨s, hs, rfl⟩ := List.mem_map.mp hl
    obtain ⟨hname, haddress⟩ := hservers s hs
    have hport : Plain (s.address ++ ':' :: number s.port) :=
      haddress.append (Plain.append (a := [':']) (by decide) (plain_number s.port))
    show Tidy (indent ("server".toList :: ([s.name, s.address ++ ':' :: number s.port, "check".toList] ++
      if sticky then ["cookie".toList, s.name] else [])))
    have hfirst : ∀ v ∈ [s.name, s.address ++ ':' :: number s.port, "check".toList], Plain v := by
      simp only [List.forall_mem_cons]
      exact ⟨hname, hport, by decide, nofun⟩
    have hcookie : ∀ v ∈ ["cookie".toList, s.name], Plain v := by
      simp only [List.forall_mem_cons]
      exact ⟨by decide, hname, nofun⟩
    refine tidy_indent (by decide) (by decide) fun v hv => ?_
    rcases List.mem_append.mp hv with hv | hv
    · exact hfirst v hv
    · split at hv
      · exact hcookie v hv
      · cases hv

theorem tidy_stickyLines (hcookie : Plain lb.cookieName) : ∀ l ∈ stickyLines lb, Tidy l := by
  intro l hl
  unfold stickyLines at hl
  split at hl
  · rw [List.mem_singleton.mp hl]
    refine tidy_indent (by decide) (by decide) ?_
    simp only [List.forall_mem_cons]
    refine ⟨?_, by decide, by decide, by decide, nofun⟩
    split
    · decide
    · exact hcookie
  · cases hl

theorem tidy_healthLines (hc : HealthCheck) {path : Line} (hpath : Plain path) :
    ∀ l ∈ healthLines hc path, Tidy l := by
  have hseconds (n : ℕ) : Plain (number n ++ ['s']) := (plain_number n).append (by decide)
  simp only [healthLines, List.forall_mem_cons]
  refine ⟨tidy_indent (by decide) (by decide) (by decide), tidy_indent (by decide) (by decide) ?_,
    tidy_indent (by decide) (by decide) ?_, nofun⟩
  · simp only [List.forall_mem_cons]
    exact ⟨by decide, by decide, by decide, by decide, hpath, by decide, by decide, by decide, by decide,
      by decide, nofun⟩
  · simp only [List.forall_mem_cons]
    exact ⟨by decide, hseconds _, by decide, plain_number _, by decide, plain_number _, nofun⟩

/-- A backend section. -/
theorem tidy_backendBlock (hcookie : Plain lb.cookieName) {name : Line} (hname : IsWord name)
    {hcLines : List Line} (hc : ∀ l ∈ hcLines, Tidy l) {servers : List Server}
    (hservers : ∀ s ∈ servers, Plain s.name ∧ Plain s.address) :
    TidyBlock "backend".toList name (backendBlock lb name hcLines servers) := by
  refine ⟨rfl, ⟨by decide, by decide⟩, hname, fun l hl => ?_⟩
  rcases List.mem_cons.mp hl with rfl | hl
  · exact tidy_indent (by decide) (by decide) (by decide)
  · rcases List.mem_append.mp hl with hl | hl
    · rcases List.mem_append.mp hl with hl | hl
      · exact tidy_stickyLines hcookie l hl
      · exact hc l hl
    · exact tidy_serversCfg hservers _ l hl

theorem plain_findInstance (h : PlainConfig env lb) {id : Line} {inst : Instance}
    (hinst : findInstance env id = some inst) : Plain inst.name ∧ Plain inst.privateIp := by
  rcases Option.or_eq_some_iff.mp hinst with hvpc | ⟨-, hstore⟩
  · exact h.vpc inst (List.mem_of_find?_eq_some hvpc)
  · exact h.store id inst hstore

theorem isWord_backName {tg : TargetGroup} (h : Plain tg.id) : IsWord (backName tg) := by
  refine ⟨fun hnil => ?_, ?_⟩
  · have hlength := congrArg List.length hnil
    rw [backName, List.length_append, List.length_append] at hlength
    exact absurd (Nat.eq_zero_of_add_eq_zero_left hlength) (by decide)
  · exact Plain.append (Plain.append (by decide) (plain_take h 8)) (by decide)

theorem isWord_ownName (h : Plain lb.name) : IsWord (ownName lb) := by
  refine ⟨fun hnil => ?_, h.append (by decide)⟩
  have hlength := congrArg List.length hnil
  simp [ownName] at hlength

theorem plain_localhost : Plain "127.0.0.1".toList := by decide

theorem tidy_tgBlock (h : PlainConfig env lb) {tg : TargetGroup} (htg : tg ∈ lb.targetGroups) :
    TidyBlock "backend".toList (backName tg) (tgBlock env lb tg) := by
  refine tidy_backendBlock h.cookie (isWord_backName (h.groups tg htg)) ?_ ?_
  · unfold tgHealthLines
    split
    · nofun
    · next hc hsome =>
      split
      · exact tidy_healthLines hc (h.groupChecks tg htg hc hsome)
      · nofun
  · intro s hs
    obtain ⟨t, -, ht⟩ := List.mem_filterMap.mp hs
    split at ht
    · cases ht
    · next inst hinst =>
      obtain ⟨hname, hip⟩ := plain_findInstance h hinst
      split at ht
      · cases ht
        exact ⟨hname, plain_localhost⟩
      · split at ht
        · cases ht
          exact ⟨hname, hip⟩
        · cases ht

theorem tidy_ownBlock (h : PlainConfig env lb) :
    TidyBlock "backend".toList (ownName lb) (ownBlock env lb) := by
  refine tidy_backendBlock h.cookie (isWord_ownName h.name) ?_ ?_
  · unfold lbHealthLines
    split
    · nofun
    · next hc hsome =>
      split
      · refine tidy_healthLines hc ?_
        have hpath := h.check hc hsome
        cases hp : hc.path with
        | none => decide
        | some p =>
          rw [hp] at hpath
          exact hpath
      · nofun
  · intro s hs
    unfold effectiveBackends at hs
    split at hs
    · obtain ⟨inst, hinst, hsome⟩ := List.mem_filterMap.mp hs
      obtain ⟨hname, hip⟩ := h.vpc inst hinst
      split at hsome
      · cases hsome
        exact ⟨hname, plain_localhost⟩
      · split at hsome
        · cases hsome
          exact ⟨hname, hip⟩
        · cases hsome
    · exact h.backends s hs

/-! ### The words of a frontend -/

def pathCriterion (pattern : Line) : List Line :=
  if pattern.getLast? = some '*' then "path_beg".toList :: [pattern.dropLast].filter (!·.isEmpty)
  else ["path".toList, pattern]

def hostCriterion (host : Line) : List Line := ["hdr(host)".toList, "-i".toList, host]

def aclWords (idx : ℕ) (c : Conditions) : List (List Line) :=
  (if c.pathPattern = [] then [] else ["acl".toList :: aclName idx 'p' :: pathCriterion c.pathPattern]) ++
    if c.hostHeader = [] then [] else ["acl".toList :: aclName idx 'h' :: hostCriterion c.hostHeader]

theorem isWord_aclName (idx : ℕ) {kind : Char} (hkind : isPlain kind = true) : IsWord (aclName idx kind) :=
  ⟨nofun, plain_aclName idx hkind⟩

theorem words_pathLine (idx : ℕ) {pattern : Line} (h : Plain pattern) (hne : pattern ≠ []) :
    words (pathLine idx pattern) = "acl".toList :: aclName idx 'p' :: pathCriterion pattern := by
  have hname : IsWord (aclName idx 'p') := isWord_aclName idx rfl
  unfold pathLine pathCriterion
  split
  · have hplain : ∀ w ∈ ["acl".toList, aclName idx 'p', "path_beg".toList, pattern.dropLast], Plain w := by
      simp only [List.forall_mem_cons]
      exact ⟨by decide, hname.2, by decide, h.of_sublist (List.dropLast_sublist _), nofun⟩
    rw [words_indent hplain]
    rfl
  · have hwords : ∀ w ∈ ["acl".toList, aclName idx 'p', "path".toList, pattern], IsWord w := by
      simp only [List.forall_mem_cons]
      exact ⟨by decide, hname, by decide, ⟨hne, h⟩, nofun⟩
    rw [words_indent fun w hw => (hwords w hw).2, filter_words hwords]

theorem words_hostLine (idx : ℕ) {host : Line} (h : IsWord host) :
    words (hostLine idx host) = "acl".toList :: aclName idx 'h' :: hostCriterion host := by
  have hwords : ∀ w ∈ ["acl".toList, aclName idx 'h', "hdr(host)".toList, "-i".toList, host],
      IsWord w := by
    simp only [List.forall_mem_cons]
    exact ⟨by decide, isWord_aclName idx rfl, by decide, by decide, h, nofun⟩
  rw [hostLine, words_indent fun w hw => (hwords w hw).2, filter_words hwords]
  rfl

theorem words_aclLines (idx : ℕ) {c : Conditions} (h : c.Plain) :
    (aclLines idx c).map words = aclWords idx c := by
  unfold aclLines aclWords
  rw [List.map_append]
  congr 1
  · split
    · rfl
    · next hne => rw [List.map_singleton, words_pathLine idx h.path hne]
  · split
    · rfl
    · next hne => rw [List.map_singleton, words_hostLine idx ⟨hne, h.host⟩]

theorem isWord_aclParts (idx : ℕ) (c : Conditions) : ∀ w ∈ aclParts idx c, IsWord w := by
  intro w hw
  rcases List.mem_append.mp hw with hw | hw
  · split at hw
    · cases hw
    · rw [List.mem_singleton.mp hw]
      exact isWord_aclName idx rfl
  · split at hw
    · cases hw
    · rw [List.mem_singleton.mp hw]
      exact isWord_aclName idx rfl

theorem words_useLine (idx : ℕ) (c : Conditions) {tg : TargetGroup} (htg : Plain tg.id) :
    words (useLine idx c tg) =
      "use_backend".toList :: backName tg :: "if".toList :: aclParts idx c := by
  have hfirst : ∀ w ∈ ["use_backend".toList, backName tg, "if".toList], IsWord w := by
    simp only [List.forall_mem_cons]
    exact ⟨by decide, isWord_backName htg, by decide, nofun⟩
  have hwords : ∀ w ∈ ["use_backend".toList, backName tg, "if".toList] ++ aclParts idx c, IsWord w :=
    fun w hw => (List.mem_append.mp hw).elim (hfirst w) (isWord_aclParts idx c w)
  rw [useLine, words_indent fun w hw => (hwords w hw).2, filter_words hwords]
  rfl

theorem words_defaultLine {name : Line} (h : IsWord name) :
    words (defaultLine name) = ["default_backend".toList, name] := by
  have hwords : ∀ w ∈ ["default_backend".toList, name], IsWord w := by
    simp only [List.forall_mem_cons]
    exact ⟨by decide, h, nofun⟩
  rw [defaultLine, words_indent fun w hw => (hwords w hw).2, filter_words hwords]

theorem words_bindLine (port : ℕ) :
    words (bindLine port) = ["bind".toList, "127.0.0.1:".toList ++ number port] := by
  have haddress : IsWord ("127.0.0.1:".toList ++ number port) :=
    ⟨nofun, Plain.append (by decide) (plain_number port)⟩
  have hwords : ∀ w ∈ ["bind".toList, "127.0.0.1:".toList ++ number port], IsWord w := by
    simp only [List.forall_mem_cons]
    exact ⟨by decide, haddress, nofun⟩
  rw [bindLine, words_indent fun w hw => (hwords w hw).2, filter_words hwords]

/-! ### The criteria -/

/-- Patterns without flags. -/
theorem dropWhile_isFlag {p : Line} (h : isFlag p = false) :
    [p].dropWhile isFlag = [p] ∧ [p].takeWhile isFlag = [] := by
  rw [List.dropWhile_cons, List.takeWhile_cons, h]
  exact ⟨rfl, rfl⟩

theorem fits_path {p : Line} (h : isFlag p = false) (req : Request) :
    fits req ["path".toList, p] = (p == req.path) := by
  unfold fits
  dsimp only
  rw [if_pos rfl, (dropWhile_isFlag h).1, (dropWhile_isFlag h).2]
  exact Bool.or_false _

theorem fits_pathBeg {p : Line} (h : isFlag p = false) (req : Request) :
    fits req ["path_beg".toList, p] = p.isPrefixOf req.path := by
  unfold fits
  dsimp only
  rw [if_neg (by decide), if_pos rfl, (dropWhile_isFlag h).1, (dropWhile_isFlag h).2]
  exact Bool.or_false _

/-- A path is matched as the load balancer says, but not by the pattern for all paths. -/
theorem fits_pathCriterion {pattern : Line} (hflag : isFlag pattern = false) (req : Request) :
    fits req (pathCriterion pattern) = (pattern != ['*'] && pathMatches pattern req.path) := by
  unfold pathCriterion pathMatches
  split
  · next hstar =>
    by_cases hone : pattern = ['*']
    · rw [hone]
      rfl
    · -- something stands before the star
      obtain ⟨front, rfl⟩ : ∃ front, pattern = front ++ ['*'] := List.getLast?_eq_some_iff.mp hstar
      have hfront : front ≠ [] := fun hnil => hone (by rw [hnil]; rfl)
      have hflag' : isFlag front = false := by
        obtain ⟨c, front, rfl⟩ := List.exists_cons_of_ne_nil hfront
        exact hflag
      have hsome : [front].filter (!·.isEmpty) = [front] :=
        List.filter_eq_self.mpr fun w hw => by
          rw [List.mem_singleton.mp hw, Bool.not_eq_true', List.isEmpty_eq_false_iff]
          exact hfront
      rw [List.dropLast_concat, hsome, bne_iff_ne.mpr hone, Bool.true_and, fits_pathBeg hflag']
  · next hstar =>
    have hone : (pattern != ['*']) = true := by
      rw [bne_iff_ne]
      rintro rfl
      exact hstar rfl
    rw [hone, Bool.true_and, fits_path hflag]

theorem fits_hostCriterion {host : Line} (hflag : isFlag host = false) (req : Request) :
    fits req (hostCriterion host) = (lower host == lower req.host) := by
  have hdrop : ["-i".toList, host].dropWhile isFlag = [host] := by
    rw [List.dropWhile_cons, if_pos (by decide), (dropWhile_isFlag hflag).1]
  have htake : ["-i".toList, host].takeWhile isFlag = ["-i".toList] := by
    rw [List.takeWhile_cons, if_pos (by decide), (dropWhile_isFlag hflag).2]
  unfold hostCriterion fits
  dsimp only
  rw [if_neg (by decide), if_neg (by decide), if_pos rfl, hdrop, htake]
  exact Bool.or_false _

end Lb
end CloudCore
