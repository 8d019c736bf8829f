import CloudCore.Nfs.Server
import Mathlib.Data.List.Basic

/-!
# The shares of an NFS server

What is stored follows from the changes that were stored, and the exports file from one of
them; the last one is either written or still to be.

## Main definitions

* `Inv` — what holds in every state.
* `Guard` — what a thread knows where it issues a command.
* `Rely` — what it assumes of the others.

## Main results

* `inv_of_guard` — **every command keeps the invariant.**
* `listed_of_reaches` — **no share is lost, and what is stored is exported,** in every run
  that is careful.
* `resurrected` — a server that was deleted is there again.
-/

namespace CloudCore
namespace Nfs

open Effect Python
open Effect.Program (attempt)

variable {ι : Type} [DecidableEq ι] {H : Host} {shares : List Share} {s s' s'' : State ι} {i j : ι}

/-! ### The changes -/

/-- The result of the changes, in their order. -/
def applyAll (shares : List Share) (log : List (ι × Change)) : List Share :=
  (log.map (·.2)).foldl Change.apply shares

/-- The changes of a thread. -/
def changesOf (i : ι) (log : List (ι × Change)) : List Change := (log.filter (·.1 = i)).map (·.2)

/-- The changes that are still to be answered. -/
def owing (tokens : List Token) : List Change :=
  tokens.filterMap fun | .answer change => some change | .job _ => none

/-- A reload that is still to run. -/
def Pending (s : State ι) (n : ℕ) (l : List Share) : Prop :=
  .reload n l ∈ s.jobs ∨ ∃ i, Token.job (.reload n l) ∈ s.held i

omit [DecidableEq ι] in
theorem applyAll_append (log : List (ι × Change)) (p : ι × Change) :
    applyAll shares (log ++ [p]) = p.2.apply (applyAll shares log) := by
  simp only [applyAll, List.map_append, List.foldl_append, List.map_cons, List.map_nil, List.foldl_cons,
    List.foldl_nil]

theorem changesOf_append_self (log : List (ι × Change)) (change : Change) :
    changesOf i (log ++ [(i, change)]) = changesOf i log ++ [change] := by
  simp only [changesOf, List.filter_append, List.map_append, decide_true, List.filter_cons_of_pos,
    List.filter_nil, List.map_cons, List.map_nil]

theorem changesOf_append_of_ne (log : List (ι × Change)) (change : Change) (hne : j ≠ i) :
    changesOf i (log ++ [(j, change)]) = changesOf i log := by
  have hnil : [(j, change)].filter (fun p => decide (p.1 = i)) = [] :=
    List.filter_eq_nil_iff.mpr fun p hp => by
      obtain rfl := List.mem_singleton.mp hp
      exact fun h => hne (of_decide_eq_true h)
  rw [changesOf, List.filter_append, hnil, List.append_nil]
  rfl

/-- Two logs of the same changes of each thread have the same changes. -/
theorem perm_of_changesOf {l l' : List (ι × Change)} (h : ∀ i, changesOf i l = changesOf i l') :
    l.Perm l' := by
  classical
  have hfilter (i : ι) (l : List (ι × Change)) :
      l.filter (·.1 = i) = (changesOf i l).map fun change => (i, change) := by
    rw [changesOf, List.map_map]
    refine (List.map_id _).symm.trans (List.map_congr_left fun p hp => ?_)
    have hi : p.1 = i := of_decide_eq_true (List.mem_filter.mp hp).2
    exact Prod.ext hi rfl
  refine List.perm_iff_count.mpr fun p => ?_
  have hcount (l : List (ι × Change)) : l.count p = (l.filter (·.1 = p.1)).count p :=
    (List.count_filter (p := fun q : ι × Change => decide (q.1 = p.1)) (decide_eq_true rfl)).symm
  rw [hcount l, hcount l', hfilter, hfilter, h]

/-! ### The invariant -/

omit [DecidableEq ι] in
theorem stored_eq_some {row : Row} : s.stored = some row ↔ s.row = some row ∧ row.visible = true :=
  Option.filter_eq_some_iff

/-- **The invariant.**  While the launch is under way, the row is as it was created but for its
shares; after it, the exports file is that of the last change, or will be. -/
structure Inv (H : Host) (shares : List Share) (s : State ι) : Prop where
  row : ∃ row, s.row = some row ∧ row.shares = applyAll shares s.log
  logged : ∀ i, changesOf i s.log = changesOf i s.answered ++ owing (s.held i)
  gone : s.gone = true → s.stored = none
  pending : ∀ n l, Pending s n l → n ≤ s.log.length ∧ l = applyAll shares (s.log.take n)
  waiting : ∀ nfs, s.launch = .waiting nfs → nfs.shares = shares
  status : s.launch ≠ .done → ∀ row, s.stored = some row → row.status = .pending ∧ row.domainName = ""
  early : s.launch ≠ .done → ∀ m, s.machine = some m → m.source = shares
  quiet : s.launch ≠ .done → ∀ n l, ¬Pending s n l
  source : s.launch = .done → ∀ m, s.machine = some m →
    s.written = s.log.length ∧ m.source = applyAll shares s.log ∨
      Pending s s.log.length (applyAll shares s.log)
  exports : ∀ m, s.machine = some m → m.booted = true → H.exportLines m.source = some m.exports

/-- What a thread knows where it issues a command. -/
def Guard (shares : List Share) (i : ι) (s : State ι) : Cmd → Prop
  | .put base row .launch => s.launch = .running i ∧ base.shares = shares ∧ row.shares = shares
  | .put base row .refresh => s.launch = .done ∧ row.shares = base.shares
  | .put base row (.share change) => s.held i = [] ∧ row.shares = change.apply base.shares ∧
      (s.launch ≠ .done → base.status = .pending ∧ row.status = .pending ∧ row.domainName = "")
  | .spawn (.reload n l) => ∃ rest, s.held i = .job (.reload n l) :: rest
  | .spawn .destroy | .take _ => s.held i = []
  | .create nfs => s.launch = .running i ∧ nfs.shares = shares
  | .reload n l => s.held i = [.job (.reload n l)]
  | .destroy => s.held i = [.job .destroy]
  | .answer (.changed change) => s.held i = [.answer change]
  | .answer .gone => s.stored = none
  | _ => True

/-- Where a thread's tokens are replaced. -/
theorem mem_holding {tokens : List Token} {t : Token} :
    t ∈ (s.holding i tokens).held j ↔ j = i ∧ t ∈ tokens ∨ j ≠ i ∧ t ∈ s.held j := by
  by_cases hj : j = i
  · subst hj
    simp only [State.holding, Function.update_self, true_and, ne_eq, not_true_eq_false, false_and, or_false]
  · simp only [State.holding, Function.update_of_ne hj, hj, false_and, ne_eq, not_false_eq_true, true_and,
      false_or]

theorem owing_holding {tokens : List Token} (h : owing tokens = owing (s.held i)) (j : ι) :
    owing ((s.holding i tokens).held j) = owing (s.held j) := by
  by_cases hj : j = i
  · subst hj
    simpa only [State.holding, Function.update_self] using h
  · simp only [State.holding, Function.update_of_ne hj]

/-- A thread takes up or passes on what is to be done. -/
theorem Inv.moved {jobs : List Job} {tokens : List Token} (h : Inv H shares s)
    (howing : owing tokens = owing (s.held i))
    (hpending : ∀ n l, Pending { s.holding i tokens with jobs := jobs } n l ↔ Pending s n l) :
    Inv H shares { s.holding i tokens with jobs := jobs } where
  row := h.row
  logged j := (h.logged j).trans (congrArg _ (owing_holding howing j).symm)
  gone := h.gone
  pending n l hn := h.pending n l ((hpending n l).mp hn)
  waiting := h.waiting
  status := h.status
  early := h.early
  quiet hlaunch n l hn := h.quiet hlaunch n l ((hpending n l).mp hn)
  source hlaunch m hm := (h.source hlaunch m hm).imp id (hpending _ _).mpr
  exports := h.exports

theorem Inv.spawn {job : Job} (h : Inv H shares s) (hg : Guard shares i s (.spawn job)) :
    Inv H shares { s.holding i (s.held i).tail with jobs := job :: s.jobs } := by
  cases job with
  | reload n l =>
    obtain ⟨rest, hheld⟩ := hg
    refine h.moved ?_ fun n' l' => ?_
    · rw [hheld]
      rfl
    · rw [hheld, List.tail_cons]
      constructor
      · rintro (hjobs | ⟨j, hj⟩)
        · rcases List.mem_cons.mp hjobs with heq | hjobs
          · exact .inr ⟨i, by rw [hheld, heq]; exact List.mem_cons_self⟩
          · exact .inl hjobs
        · rcases mem_holding.mp hj with ⟨rfl, hmem⟩ | ⟨-, hmem⟩
          · exact .inr ⟨j, by rw [hheld]; exact List.mem_cons_of_mem _ hmem⟩
          · exact .inr ⟨j, hmem⟩
      · rintro (hjobs | ⟨j, hj⟩)
        · exact .inl (List.mem_cons_of_mem _ hjobs)
        · by_cases hji : j = i
          · subst hji
            rw [hheld] at hj
            rcases List.mem_cons.mp hj with heq | hmem
            · cases heq
              exact .inl List.mem_cons_self
            · exact .inr ⟨j, mem_holding.mpr (.inl ⟨rfl, hmem⟩)⟩
          · exact .inr ⟨j, mem_holding.mpr (.inr ⟨hji, hj⟩)⟩
  | destroy =>
    have hheld : s.held i = [] := hg
    refine h.moved ?_ fun n' l' => ?_
    · rw [hheld]
      rfl
    -- a deletion is no reload, so what is pending stays
    · rw [hheld, List.tail_nil]
      constructor
      · rintro (hjobs | ⟨j, hj⟩)
        · rcases List.mem_cons.mp hjobs with heq | hjobs
          · cases heq
          · exact .inl hjobs
        · rcases mem_holding.mp hj with ⟨-, hmem⟩ | ⟨-, hmem⟩
          · cases hmem
          · exact .inr ⟨j, hmem⟩
      · rintro (hjobs | ⟨j, hj⟩)
        · exact .inl (List.mem_cons_of_mem _ hjobs)
        · refine .inr ⟨j, mem_holding.mpr (.inr ⟨?_, hj⟩)⟩
          rintro rfl
          rw [hheld] at hj
          cases hj

theorem Inv.take {job : Job} {l r : List Job} (h : Inv H shares s) (hheld : s.held i = [])
    (hjobs : s.jobs = l ++ job :: r) :
    Inv H shares { s.holding i [.job job] with jobs := l ++ r } := by
  refine h.moved ?_ fun n' l' => ?_
  · rw [hheld]
    rfl
  · constructor
    · rintro (hmem | ⟨j, hj⟩)
      · refine .inl ?_
        rw [hjobs]
        rcases List.mem_append.mp hmem with hmem | hmem
        · exact List.mem_append_left _ hmem
        · exact List.mem_append_right _ (List.mem_cons_of_mem _ hmem)
      · rcases mem_holding.mp hj with ⟨-, hmem⟩ | ⟨-, hmem⟩
        · have heq := List.mem_singleton.mp hmem
          refine .inl ?_
          rw [hjobs, ← Token.job.inj heq]
          exact List.mem_append_right _ List.mem_cons_self
        · exact .inr ⟨j, hmem⟩
    · rintro (hmem | ⟨j, hj⟩)
      · rw [hjobs] at hmem
        rcases List.mem_append.mp hmem with hmem | hmem
        · exact .inl (List.mem_append_left _ hmem)
        · rcases List.mem_cons.mp hmem with heq | hmem
          · exact .inr ⟨i, mem_holding.mpr (.inl ⟨rfl, List.mem_singleton.mpr (congrArg _ heq)⟩)⟩
          · exact .inl (List.mem_append_right _ hmem)
      -- the thread that takes it had nothing in hand
      · refine .inr ⟨j, mem_holding.mpr (.inr ⟨?_, hj⟩)⟩
        rintro rfl
        rw [hheld] at hj
        cases hj

/-- The tokens of a thread are gone. -/
theorem not_pending_of_holding {n : ℕ} {l : List Share} (h : Pending (s.holding i []) n l) :
    Pending s n l := by
  rcases h with hjobs | ⟨j, hj⟩
  · exact .inl hjobs
  · rcases mem_holding.mp hj with ⟨-, hmem⟩ | ⟨-, hmem⟩
    · cases hmem
    · exact .inr ⟨j, hmem⟩

theorem pending_holding {n : ℕ} {l : List Share} (h : Pending s n l)
    (hi : Token.job (.reload n l) ∉ s.held i) : Pending (s.holding i []) n l := by
  rcases h with hjobs | ⟨j, hj⟩
  · exact .inl hjobs
  · refine .inr ⟨j, mem_holding.mpr (.inr ⟨?_, hj⟩)⟩
    rintro rfl
    exact hi hj

/-- What a thread held was no reload. -/
theorem Inv.dropped (h : Inv H shares s) (howing : owing (s.held i) = [])
    (hheld : ∀ n l, Token.job (.reload n l) ∉ s.held i) : Inv H shares (s.holding i []) :=
  have hmoved : Inv H shares { s.holding i [] with jobs := s.jobs } :=
    h.moved howing.symm fun n l => ⟨not_pending_of_holding, fun hn => pending_holding hn (hheld n l)⟩
  hmoved

/-- The row is replaced by one with the same shares. -/
theorem Inv.setRow {row : Row} (h : Inv H shares s) (hshares : row.shares = applyAll shares s.log)
    (hgone : s.gone = true → row.visible = false)
    (hstatus : s.launch ≠ .done → row.visible = true → row.status = .pending ∧ row.domainName = "") :
    Inv H shares { s with row := some row } where
  row := ⟨row, rfl, hshares⟩
  logged := h.logged
  gone hg := by
    have hhidden := hgone hg
    simp only [State.stored, Option.filter_some, hhidden, Bool.false_eq_true, if_false]
  pending := h.pending
  waiting := h.waiting
  status hlaunch row' hrow' := by
    obtain ⟨heq, hvisible⟩ := stored_eq_some.mp hrow'
    obtain rfl := Option.some.inj heq
    exact hstatus hlaunch hvisible
  early := h.early
  quiet := h.quiet
  source := h.source
  exports := h.exports

omit [DecidableEq ι] in
/-- A row that is there, and not deleted, is no answer to a deletion. -/
theorem Inv.not_gone [DecidableEq ι] {row : Row} (h : Inv H shares s) (hrow : s.stored = some row) :
    s.gone ≠ true := fun hg => absurd (hrow.symm.trans (h.gone hg)) nofun

theorem Inv.shares_eq {row : Row} (h : Inv H shares s) (hrow : s.stored = some row) :
    row.shares = applyAll shares s.log := by
  obtain ⟨row', hrow', hshares⟩ := h.row
  exact Option.some.inj (hrow'.symm.trans (stored_eq_some.mp hrow).1) ▸ hshares

theorem Inv.launched {base row row' : Row} (h : Inv H shares s) (hbase : base.shares = shares)
    (hrow : row.shares = shares) (hlaunch : s.launch = .running i) (hstored : s.stored = some row')
    (hfresh : row'.shares = base.shares) :
    Inv H shares { s with launch := .done, written := s.log.length, row := some row } := by
  have hnot : s.launch ≠ .done := fun hdone => nomatch hlaunch.symm.trans hdone
  have hsame : applyAll shares s.log = shares :=
    (h.shares_eq hstored).symm.trans (hfresh.trans hbase)
  refine ⟨⟨row, rfl, hrow.trans hsame.symm⟩, h.logged, fun hg => absurd hg (h.not_gone hstored),
    h.pending, nofun, fun hdone => absurd rfl hdone, fun hdone => absurd rfl hdone,
    fun hdone => absurd rfl hdone, fun _ m hm => .inl ⟨rfl, ?_⟩, h.exports⟩
  exact (h.early hnot m hm).trans hsame.symm

theorem pending_append {log : List (ι × Change)} {n : ℕ} {l : List Share}
    {tokens : List Token} (hheld : s.held i = []) :
    Pending { s.holding i tokens with log := log } n l ↔
      Pending s n l ∨ Token.job (.reload n l) ∈ tokens := by
  constructor
  · rintro (hjobs | ⟨j, hj⟩)
    · exact .inl (.inl hjobs)
    · rcases mem_holding.mp hj with ⟨-, hmem⟩ | ⟨-, hmem⟩
      · exact .inr hmem
      · exact .inl (.inr ⟨j, hmem⟩)
  · rintro ((hjobs | ⟨j, hj⟩) | hmem)
    · exact .inl hjobs
    · refine .inr ⟨j, mem_holding.mpr (.inr ⟨?_, hj⟩)⟩
      rintro rfl
      rw [hheld] at hj
      cases hj
    · exact .inr ⟨i, mem_holding.mpr (.inl ⟨rfl, hmem⟩)⟩

theorem mem_owed {n n' : ℕ} {base row : Row} {change : Change} {l : List Share} :
    Token.job (.reload n' l) ∈ owed n base row change ↔
      base.status = .running ∧ n' = n ∧ l = row.shares := by
  unfold owed
  split
  · next hrunning =>
    constructor
    · intro hmem
      rcases List.mem_append.mp hmem with hmem | hmem
      · cases List.mem_singleton.mp hmem
        exact ⟨hrunning, rfl, rfl⟩
      · cases List.mem_singleton.mp hmem
    · rintro ⟨-, rfl, rfl⟩
      exact List.mem_append_left _ (List.mem_singleton_self _)
  · next hrunning =>
    constructor
    · intro hmem
      cases List.mem_singleton.mp hmem
    · exact fun h => absurd h.1 hrunning

theorem owing_owed (n : ℕ) (base row : Row) (change : Change) : owing (owed n base row change) = [change] := by
  unfold owed
  split
  · rfl
  · rfl

/-- A change is stored: it is exported by the reload that follows. -/
theorem Inv.changed {base row row' : Row} {change : Change} (h : Inv H shares s)
    (hheld : s.held i = []) (hrow : row.shares = change.apply base.shares)
    (hstatus : s.launch ≠ .done → base.status = .pending ∧ row.status = .pending ∧ row.domainName = "")
    (hstored : s.stored = some row') (hfresh : row'.shares = base.shares)
    (htold : base.status = .running ∨ s.machine = none ∨ s.launch ≠ .done) :
    Inv H shares { s.holding i (owed (s.log.length + 1) base row change) with
      log := s.log ++ [(i, change)], row := some row } := by
  have hshares : row.shares = applyAll shares (s.log ++ [(i, change)]) := by
    rw [applyAll_append, hrow, ← hfresh, h.shares_eq hstored]
  have hlength : (s.log ++ [(i, change)]).length = s.log.length + 1 := List.length_append ..
  have hpending (n : ℕ) (l : List Share) :
      Pending { s.holding i (owed (s.log.length + 1) base row change) with
        log := s.log ++ [(i, change)] } n l ↔
      Pending s n l ∨ Token.job (.reload n l) ∈ owed (s.log.length + 1) base row change :=
    pending_append hheld
  refine ⟨⟨row, rfl, hshares⟩, fun j => ?_, fun hg => absurd hg (h.not_gone hstored), fun n l hn => ?_,
    h.waiting, fun hlaunch row'' hrow'' => ?_, h.early, fun hlaunch n l hn => ?_,
    fun hdone m hm => ?_, h.exports⟩
  -- the thread owes an answer now, and the others what they owed
  · by_cases hj : i = j
    · subst hj
      have hnil : owing (s.held i) = [] := by rw [hheld]; rfl
      have hself : (s.holding i (owed (s.log.length + 1) base row change)).held i =
          owed (s.log.length + 1) base row change := Function.update_self ..
      change changesOf i (s.log ++ [(i, change)]) = changesOf i s.answered ++ owing _
      rw [changesOf_append_self, h.logged, hnil, List.append_nil]
      exact congrArg _ ((owing_owed ..).symm.trans (congrArg owing hself.symm))
    · have hother : (s.holding i (owed (s.log.length + 1) base row change)).held j = s.held j :=
        Function.update_of_ne (Ne.symm hj) ..
      change changesOf j (s.log ++ [(i, change)]) = changesOf j s.answered ++ owing _
      rw [changesOf_append_of_ne _ _ hj, h.logged]
      exact congrArg _ (congrArg owing hother.symm)
  -- reloads of before have shares of before; the new one has those of now
  · rcases (hpending n l).mp hn with hn | hmem
    · obtain ⟨hle, hl⟩ := h.pending n l hn
      refine ⟨le_of_le_of_eq (Nat.le_succ_of_le hle) hlength.symm, hl.trans (congrArg _ ?_)⟩
      exact (List.take_append_of_le_length hle).symm
    · obtain ⟨-, rfl, rfl⟩ := mem_owed.mp hmem
      refine ⟨hlength.ge, ?_⟩
      rw [← hlength, List.take_length]
      exact hshares
  · obtain ⟨heq, -⟩ := stored_eq_some.mp hrow''
    obtain rfl := Option.some.inj heq
    exact (hstatus hlaunch).2
  -- nothing is reloaded before the launch is over
  · rcases (hpending n l).mp hn with hn | hmem
    · exact h.quiet hlaunch n l hn
    · exact absurd ((hstatus hlaunch).1.symm.trans (mem_owed.mp hmem).1) nofun
  -- a machine that is up gets the reload
  · refine .inr ((hpending _ _).mpr (.inr (mem_owed.mpr ⟨?_, hlength, hshares.symm⟩)))
    rcases htold with hrunning | hnone | hlaunch
    · exact hrunning
    · exact absurd (hm.symm.trans hnone) nofun
    · exact absurd hdone hlaunch

/-- A reload that is not overtaken writes the last change, or leaves it to come. -/
theorem Inv.reloaded {n : ℕ} {l : List Share} {m : Machine} {lines : List String} (h : Inv H shares s)
    (hheld : s.held i = [.job (.reload n l)]) (hm : s.machine = some m)
    (hlines : H.exportLines l = some lines) (horder : s.written ≤ n) :
    Inv H shares { s.holding i [] with machine := some ⟨m.booted, lines, l⟩, written := n } := by
  have hmine : Pending s n l := .inr ⟨i, hheld ▸ List.mem_singleton_self _⟩
  -- there is no reload before the launch is over
  have hdone : s.launch = .done := by
    by_contra hlaunch
    exact h.quiet hlaunch n l hmine
  obtain ⟨hle, hl⟩ := h.pending n l hmine
  refine ⟨h.row, fun j => ?_, h.gone, fun n' l' hn => h.pending n' l' (not_pending_of_holding hn),
    h.waiting, fun hlaunch => absurd hdone hlaunch, fun hlaunch => absurd hdone hlaunch,
    fun hlaunch => absurd hdone hlaunch, fun _ m' hm' => ?_, fun m' hm' _ => ?_⟩
  · refine (h.logged j).trans (congrArg _ (owing_holding ?_ j).symm)
    rw [hheld]
    rfl
  · obtain rfl := Option.some.inj hm'
    -- if it is not the last change, the reload of that one is with another thread
    by_cases hlast : n = s.log.length
    · exact .inl ⟨hlast, hl.trans (congrArg _ (List.take_of_length_le hlast.ge))⟩
    · have hpending : Pending s s.log.length (applyAll shares s.log) := by
        rcases h.source hdone m hm with ⟨hwritten, -⟩ | hpending
        · exact absurd (hle.antisymm (hwritten ▸ horder)) hlast
        · exact hpending
      have hother : Token.job (.reload s.log.length (applyAll shares s.log)) ∉ s.held i := by
        intro hmem
        rw [hheld] at hmem
        cases List.mem_singleton.mp hmem
        exact hlast rfl
      have hstill := pending_holding hpending hother
      exact .inr hstill
  · obtain rfl := Option.some.inj hm'
    exact hlines

/-- The machine is replaced by one that is written from the same shares. -/
theorem Inv.setMachine {machine : Option Machine} (h : Inv H shares s)
    (hsource : ∀ m, machine = some m → (s.launch = .done → ∃ m', s.machine = some m' ∧ m.source = m'.source) ∧
      (s.launch ≠ .done → m.source = shares) ∧ (m.booted = true → H.exportLines m.source = some m.exports)) :
    Inv H shares { s with machine := machine } where
  row := h.row
  logged := h.logged
  gone := h.gone
  pending := h.pending
  waiting := h.waiting
  status := h.status
  early hlaunch m hm := (hsource m hm).2.1 hlaunch
  quiet := h.quiet
  source hdone m hm := by
    obtain ⟨m', hm', heq⟩ := (hsource m hm).1 hdone
    exact heq ▸ h.source hdone m' hm'
  exports m hm := (hsource m hm).2.2

/-- There is no machine to reload. -/
theorem Inv.unreached (h : Inv H shares s) (howing : owing (s.held i) = []) (hm : s.machine = none) :
    Inv H shares (s.holding i []) where
  row := h.row
  logged j := by
    have hnil : owing [] = owing (s.held i) := howing.symm
    exact (h.logged j).trans (congrArg _ (owing_holding hnil j).symm)
  gone := h.gone
  pending n l hn := h.pending n l (not_pending_of_holding hn)
  waiting := h.waiting
  status := h.status
  early := h.early
  quiet hlaunch n l hn := h.quiet hlaunch n l (not_pending_of_holding hn)
  source _ m hm' := absurd (hm.symm.trans hm') nofun
  exports := h.exports

theorem Inv.answered {change : Change} (h : Inv H shares s) (hheld : s.held i = [.answer change]) :
    Inv H shares { s.holding i [] with answered := s.answered ++ [(i, change)] } := by
  have hother (n : ℕ) (l : List Share) : Token.job (.reload n l) ∉ s.held i := by
    intro hmem
    rw [hheld] at hmem
    cases List.mem_singleton.mp hmem
  refine ⟨h.row, fun j => ?_, h.gone, fun n l hn => h.pending n l (not_pending_of_holding hn),
    h.waiting, h.status, h.early, fun hlaunch n l hn => h.quiet hlaunch n l (not_pending_of_holding hn),
    fun hdone m hm => (h.source hdone m hm).imp id fun hn => ?_, h.exports⟩
  · by_cases hj : i = j
    · subst hj
      have hself : (s.holding i []).held i = [] := Function.update_self ..
      change changesOf i s.log = changesOf i (s.answered ++ [(i, change)]) ++ owing _
      rw [changesOf_append_self, h.logged, hheld]
      exact (List.append_nil _).symm.trans (congrArg _ (congrArg owing hself.symm))
    · have hrest : (s.holding i []).held j = s.held j := Function.update_of_ne (Ne.symm hj) ..
      change changesOf j s.log = changesOf j (s.answered ++ [(i, change)]) ++ owing _
      rw [changesOf_append_of_ne _ _ hj, h.logged]
      exact congrArg _ (congrArg owing hrest.symm)
  · have hstill := pending_holding hn (hother _ _)
    exact hstill

theorem Inv.began {nfs : Row} (h : Inv H shares s) (hlaunch : s.launch = .waiting nfs) :
    Inv H shares { s with launch := .running i } := by
  have hnot : s.launch ≠ .done := fun hdone => nomatch hlaunch.symm.trans hdone
  exact ⟨h.row, h.logged, h.gone, h.pending, nofun, fun _ => h.status hnot, fun _ => h.early hnot,
    fun _ => h.quiet hnot, nofun, h.exports⟩

/-- **Every command keeps the invariant**, where its guard holds. -/
theorem inv_of_guard {c : Cmd} {a : c.Ans} (hx : exec H i s c a s')
    (hcareful : Careful H s (.call i c a)) (hg : Guard shares i s c) (h : Inv H shares s) :
    Inv H shares s' := by
  cases c with
  | get => exact hx.2 ▸ h
  | ip | status =>
    obtain rfl := hx
    exact h
  | put base row why =>
    obtain ⟨-, rfl⟩ := hx
    obtain ⟨⟨row', hstored, hfresh⟩, htold⟩ := hcareful
    cases why with
    | launch =>
      obtain ⟨hlaunch, hbase, hrow⟩ := hg
      exact h.launched hbase hrow hlaunch hstored hfresh
    | refresh =>
      obtain ⟨hdone, hrow⟩ := hg
      exact h.setRow (hrow.trans (hfresh.symm.trans (h.shares_eq hstored)))
        (fun hgone => absurd hgone (h.not_gone hstored)) fun hlaunch => absurd hdone hlaunch
    | share change =>
      obtain ⟨hheld, hrow, hstatus⟩ := hg
      exact h.changed hheld hrow hstatus hstored hfresh (htold change rfl)
  | delete =>
    obtain rfl := hx
    obtain ⟨row, hrow, hshares⟩ := h.row
    rw [hrow]
    exact h.setRow hshares (fun _ => rfl) fun _ => nofun
  | spawn job =>
    obtain rfl := hx
    exact h.spawn hg
  | take job =>
    obtain ⟨l, r, hjobs, rfl⟩ := hx
    exact h.take hg hjobs
  | takeLaunch =>
    obtain ⟨hlaunch, rfl⟩ := hx
    exact h.began hlaunch
  | create nfs =>
    obtain ⟨-, hx⟩ := hx
    split at hx
    · obtain ⟨-, -, -, rfl⟩ := hx
      refine h.setMachine fun m hm => ?_
      obtain rfl := Option.some.inj hm
      exact ⟨fun hdone => (nomatch hg.1.symm.trans hdone), fun _ => hg.2, nofun⟩
    · exact hx ▸ h
  | boot =>
    obtain ⟨m, lines, hm, -, hlines, rfl⟩ := hx
    refine h.setMachine fun m' hm' => ?_
    obtain rfl := Option.some.inj hm'
    exact ⟨fun _ => ⟨m, hm, rfl⟩, fun hlaunch => h.early hlaunch m hm, fun _ => hlines (hcareful m hm)⟩
  | reload n l =>
    cases a with
    | ok _ =>
      obtain ⟨m, lines, hm, hlines, rfl⟩ := hx
      obtain ⟨-, horder, -, hprintable⟩ := hcareful m hm
      exact h.reloaded hg hm (hlines hprintable) horder
    -- in a careful run a reload fails only without a machine
    | error _ =>
      obtain ⟨lines, rfl⟩ := hx
      have hheld : s.held i = [.job (.reload n l)] := hg
      cases hm : s.machine with
      | some m => exact absurd (hcareful m hm).2.2.1 nofun
      | none =>
        have hnone := h.unreached (i := i) (by rw [hheld]; rfl) hm
        exact hnone.setMachine nofun
  | destroy =>
    have hheld : s.held i = [.job .destroy] := hg
    -- a deletion owes no answer and no reload
    have hdropped : Inv H shares (s.holding i []) := by
      refine h.dropped (by rw [hheld]; rfl) fun n l hmem => ?_
      rw [hheld] at hmem
      cases List.mem_singleton.mp hmem
    cases a with
    | ok _ =>
      obtain rfl := hx
      exact hdropped.setMachine nofun
    | error _ =>
      obtain rfl := hx
      exact hdropped
  | answer reply =>
    cases reply with
    | other => exact hx ▸ h
    | changed change =>
      obtain rfl := hx
      exact h.answered hg
    | gone =>
      obtain rfl := hx
      exact ⟨h.row, h.logged, fun _ => hg, h.pending, h.waiting, h.status, h.early, h.quiet, h.source,
        h.exports⟩

/-! ### What a thread relies on -/

/-- What the others leave alone. -/
structure Rely (i : ι) (s s' : State ι) : Prop where
  held : s'.held i = s.held i
  gone : s.stored = none → s'.stored = none
  mine : s'.launch = .running i ↔ s.launch = .running i
  done : s.launch = .done → s'.launch = .done

omit [DecidableEq ι] in
theorem Rely.refl (i : ι) (s : State ι) : Rely i s s := ⟨rfl, id, .rfl, id⟩

omit [DecidableEq ι] in
theorem Rely.trans (h : Rely i s s') (h' : Rely i s' s'') : Rely i s s'' :=
  ⟨h'.held.trans h.held, h'.gone ∘ h.gone, h'.mine.trans h.mine, h'.done ∘ h.done⟩

/-- What another thread does is relied on. -/
theorem rely_of_guard {c : Cmd} {a : c.Ans} (hne : i ≠ j) (hx : exec H j s c a s')
    (hcareful : Careful H s (.call j c a)) (hg : Guard shares j s c) : Rely i s s' := by
  -- a thread holds what it held, whatever the others take up
  have hheld (tokens : List Token) : (s.holding j tokens).held i = s.held i :=
    Function.update_of_ne hne ..
  cases c with
  | get => exact hx.2 ▸ .refl i s
  | ip | status =>
    obtain rfl := hx
    exact .refl i _
  | put base row why =>
    obtain ⟨-, rfl⟩ := hx
    obtain ⟨⟨row', hstored, -⟩, -⟩ := hcareful
    -- who writes has found the row
    have hgone (s' : State ι) (hnone : s.stored = none) : s'.stored = none :=
      absurd (hstored.symm.trans hnone) nofun
    cases why with
    | launch =>
      refine ⟨rfl, hgone _, ⟨nofun, fun hmine => ?_⟩, fun _ => rfl⟩
      exact absurd (Launch.running.inj (hmine.symm.trans hg.1)) hne
    | refresh => exact ⟨rfl, hgone _, .rfl, id⟩
    | share change => exact ⟨hheld _, hgone _, .rfl, id⟩
  | delete =>
    obtain rfl := hx
    refine ⟨rfl, fun _ => ?_, .rfl, id⟩
    cases hrow : s.row with
    | none => rfl
    | some row => rfl
  | spawn job =>
    obtain rfl := hx
    exact ⟨hheld _, id, .rfl, id⟩
  | take job =>
    obtain ⟨l, r, -, rfl⟩ := hx
    exact ⟨hheld _, id, .rfl, id⟩
  | takeLaunch =>
    obtain ⟨hlaunch, rfl⟩ := hx
    refine ⟨rfl, id, ⟨fun hmine => ?_, fun hmine => ?_⟩, fun hdone => ?_⟩
    · exact absurd (Launch.running.inj hmine).symm hne
    · exact nomatch hlaunch.symm.trans hmine
    · exact nomatch hlaunch.symm.trans hdone
  | create nfs =>
    obtain ⟨-, hx⟩ := hx
    split at hx
    · obtain ⟨-, -, -, rfl⟩ := hx
      exact ⟨rfl, id, .rfl, id⟩
    · exact hx ▸ .refl i s
  | boot =>
    obtain ⟨m, lines, -, -, -, rfl⟩ := hx
    exact ⟨rfl, id, .rfl, id⟩
  | reload n l =>
    cases a with
    | ok _ =>
      obtain ⟨m, lines, -, -, rfl⟩ := hx
      exact ⟨hheld _, id, .rfl, id⟩
    | error _ =>
      obtain ⟨lines, rfl⟩ := hx
      exact ⟨hheld _, id, .rfl, id⟩
  | destroy =>
    cases a with
    | ok _ =>
      obtain rfl := hx
      exact ⟨hheld _, id, .rfl, id⟩
    | error _ =>
      obtain rfl := hx
      exact ⟨hheld _, id, .rfl, id⟩
  | answer reply =>
    cases reply with
    | other => exact hx ▸ .refl i s
    | changed change =>
      obtain rfl := hx
      exact ⟨hheld _, id, .rfl, id⟩
    | gone =>
      obtain rfl := hx
      exact ⟨rfl, id, .rfl, id⟩

/-! ### The handlers -/

/-- What the commands do, as far as a run admits it. -/
abbrev Sem (H : Host) (shares : List Share) (i : ι) (s : State ι) (c : Cmd) (a : c.Ans) (s' : State ι) :
    Prop :=
  exec H i s c a s' ∧ Careful H s (.call i c a) ∧ Inv H shares s

/-- The weakest precondition of a program of thread `i`. -/
abbrev lwp {α : Type} (H : Host) (shares : List Share) (i : ι) (p : Code α) (Q : α → State ι → Prop)
    (E : Unit → State ι → Prop) (s : State ι) : Prop :=
  Program.wp (F := sig) (Sem H shares i) (Rely i) (fun s c _ _ => Guard shares i s c) p Q E s

variable {α β : Type} {Q : α → State ι → Prop} {E : Unit → State ι → Prop} {P : State ι → Prop}

/-- The others keep it. -/
def Stable (i : ι) (P : State ι → Prop) : Prop := ∀ s s', Rely i s s' → P s → P s'

theorem lwp_bind {p : Code β} {f : β → Code α} {B : β → State ι → Prop} (h : lwp H shares i p B E s)
    (hf : ∀ b s, B b s → lwp H shares i (f b) Q E s) : lwp H shares i (p >>= f) Q E s :=
  (Program.wp_bind p f).mpr (Program.wp_mono hf (fun _ _ h => h) h)

theorem lwp_step {c : Cmd} (hans : c.Ans = β) {B : β → State ι → Prop} (hP : Stable i P) (hs : P s)
    (h : ∀ s a s', P s → Sem H shares i s c a s' → Guard shares i s c ∧ B (hans ▸ a) s') :
    lwp H shares i (step c hans) B E s := by
  subst hans
  exact fun s₁ hrely a s₂ hx => h s₁ a s₂ (hP s s₁ hrely hs) hx

theorem lwp_try {c : Cmd} (hans : c.Ans = Except Unit β) {B : β → State ι → Prop} (hP : Stable i P)
    (hs : P s) (h : ∀ s a s', P s → Sem H shares i s c a s' → Guard shares i s c ∧
      (∀ b, hans ▸ a = Except.ok b → B b s') ∧ ∀ e, hans ▸ a = Except.error e → E e s') :
    lwp H shares i (tryStep c hans) B E s := by
  intro s₁ hrely a s₂ hx
  obtain ⟨hg, hok, herr⟩ := h s₁ a s₂ (hP s s₁ hrely hs) hx
  exact ⟨hg, Program.wp_lift.mpr ⟨hok, herr⟩⟩

/-- A thread that has nothing to do, and is not the launch. -/
structure Free (i : ι) (s : State ι) : Prop where
  held : s.held i = []
  other : s.launch ≠ .running i

/-- The thread of the launch. -/
structure Launching (i : ι) (s : State ι) : Prop where
  held : s.held i = []
  mine : s.launch = .running i

/-- A row that was read during the launch is new. -/
def New (base : Row) (s : State ι) : Prop :=
  s.launch ≠ .done → base.status = .pending ∧ base.domainName = ""

omit [DecidableEq ι] in
theorem Free.stable : Stable i (Free i) := fun _ _ hrely h =>
  ⟨hrely.held.trans h.held, fun hmine => h.other (hrely.mine.mp hmine)⟩

omit [DecidableEq ι] in
theorem Launching.stable : Stable i (Launching i) := fun _ _ hrely h =>
  ⟨hrely.held.trans h.held, hrely.mine.mpr h.mine⟩

omit [DecidableEq ι] in
theorem New.stable (base : Row) : Stable i (New base) := fun _ _ hrely h hnot =>
  h fun hdone => hnot (hrely.done hdone)

omit [DecidableEq ι] in
theorem Stable.and {P' : State ι → Prop} (h : Stable i P) (h' : Stable i P') :
    Stable i fun s => P s ∧ P' s := fun s s' hrely hs => ⟨h s s' hrely hs.1, h' s s' hrely hs.2⟩

theorem lwp_other (h : Free i s) : lwp H shares i (answer .other) (fun _ => Free i) (fun _ => Free i) s :=
  lwp_step rfl Free.stable h fun _ _ _ hs hx => ⟨trivial, hx.1 ▸ hs⟩

/-- `nfs_store.get`. -/
theorem lwp_get (h : Free i s) :
    lwp H shares i (step .get rfl) (fun (nfs : Option Row) s => Free i s ∧ ∀ row, nfs = some row → New row s)
      (fun _ => Free i) s :=
  lwp_step rfl Free.stable h fun s a s' hs hx => by
    obtain ⟨⟨rfl, rfl⟩, -, hinv⟩ := hx
    exact ⟨trivial, hs, fun row hrow hnot => hinv.status hnot row hrow⟩

theorem lwp_ipOf {nfs : Row} (h : Free i s ∧ s.launch = .done) :
    lwp H shares i (ipOf nfs) (fun _ s => Free i s ∧ s.launch = .done) (fun _ => Free i) s := by
  unfold ipOf
  split
  · refine lwp_try rfl (Free.stable.and fun _ _ hrely => hrely.done) h fun s a s' hs hx => ?_
    obtain ⟨rfl, -⟩ := hx
    exact ⟨trivial, fun _ _ => hs, fun _ _ => hs.1⟩
  · exact h

theorem lwp_refresh {nfs : Row} (h : Free i s) (hnew : New nfs s) :
    lwp H shares i (refresh nfs) (fun _ => Free i) (fun _ => Free i) s := by
  have hdone : Stable i fun s => Free i s ∧ s.launch = .done :=
    Free.stable.and fun _ _ hrely => hrely.done
  unfold refresh
  split
  · next hdomain =>
    have h : Free i s ∧ s.launch = .done := by
      refine ⟨h, ?_⟩
      by_contra hnot
      exact hdomain (hnew hnot).2
    refine lwp_bind (B := fun _ s => Free i s ∧ s.launch = .done)
      (lwp_try rfl hdone h fun s a s' hs hx => ?_) fun status s₁ h₁ => ?_
    · obtain ⟨rfl, -⟩ := hx
      exact ⟨trivial, fun _ _ => hs, fun _ _ => hs.1⟩
    · refine lwp_bind (lwp_ipOf h₁) fun ip s₂ h₂ => ?_
      refine lwp_bind (B := fun _ => Free i) (lwp_step rfl hdone h₂ fun s a s' hs hx => ?_)
        fun _ s₃ h₃ => lwp_other h₃
      obtain ⟨⟨-, rfl⟩, -⟩ := hx
      exact ⟨⟨hs.2, rfl⟩, hs.1.held, hs.1.other⟩
  · exact lwp_other h

theorem lwp_getNfsServer (h : Free i s) :
    lwp H shares i getNfsServer (fun _ => Free i) (fun _ => Free i) s := by
  refine lwp_bind (lwp_get h) fun nfs s₁ h₁ => ?_
  cases nfs with
  | none => exact lwp_other h₁.1
  | some nfs => exact lwp_refresh h₁.1 (h₁.2 nfs rfl)

/-- **A deletion answers when the server is gone.** -/
theorem lwp_deleteNfsServer (h : Free i s) :
    lwp H shares i deleteNfsServer (fun _ => Free i) (fun _ => Free i) s := by
  refine lwp_bind (lwp_get h) fun nfs s₁ h₁ => ?_
  have hgone : Stable i fun s => Free i s ∧ s.stored = none :=
    Free.stable.and fun _ _ hrely => hrely.gone
  cases nfs with
  | none => exact lwp_other h₁.1
  | some nfs =>
    refine lwp_bind (B := fun _ s => Free i s ∧ s.stored = none)
      (lwp_step rfl Free.stable h₁.1 fun s a s' hs hx => ?_) fun _ s₂ h₂ => ?_
    · obtain ⟨rfl, -⟩ := hx
      refine ⟨trivial, ⟨hs.held, hs.other⟩, ?_⟩
      cases hrow : s.row with
      | none => simp only [State.stored, Option.map_none, Option.filter_none]
      | some row => rfl
    · refine lwp_bind (B := fun _ s => Free i s ∧ s.stored = none)
        (lwp_step rfl hgone h₂ fun s a s' hs hx => ?_) fun _ s₃ h₃ =>
        lwp_step rfl hgone h₃ fun s a s' hs hx => ?_
      · obtain ⟨rfl, -⟩ := hx
        refine ⟨hs.1.held, ⟨?_, hs.1.other⟩, hs.2⟩
        rw [hs.1.held]
        exact Function.update_self ..
      · obtain ⟨rfl, -⟩ := hx
        exact ⟨hs.2, hs.1.held, hs.1.other⟩

/-- What a thread holds, if it is not the launch. -/
def Holds (i : ι) (tokens : List Token) (s : State ι) : Prop := s.held i = tokens ∧ s.launch ≠ .running i

omit [DecidableEq ι] in
theorem Holds.stable (tokens : List Token) : Stable i (Holds i tokens) := fun _ _ hrely h =>
  ⟨hrely.held.trans h.1, fun hmine => h.2 (hrely.mine.mp hmine)⟩

/-- The answer is the last thing that is to be done about a change. -/
theorem lwp_changed {change : Change} (h : Holds i [.answer change] s) :
    lwp H shares i (answer (.changed change)) (fun _ => Free i) (fun _ => Free i) s :=
  lwp_step rfl (Holds.stable _) h fun s a s' hs hx => by
    obtain ⟨rfl, -⟩ := hx
    exact ⟨hs.1, Function.update_self .., hs.2⟩

/-- **A change is stored and, where the row says running, told to the machine.** -/
theorem lwp_store {nfs : Row} {change : Change} (h : Free i s) (hnew : New nfs s) :
    lwp H shares i (store nfs change) (fun _ => Free i) (fun _ => Free i) s := by
  refine lwp_bind (B := fun n s =>
    Holds i (owed n nfs { nfs with shares := change.apply nfs.shares } change) s)
    (lwp_step rfl (Free.stable.and (New.stable nfs)) ⟨h, hnew⟩ fun s a s' hs hx => ?_) fun n s₁ h₁ => ?_
  · obtain ⟨⟨rfl, rfl⟩, -⟩ := hx
    obtain ⟨hs, hnew⟩ := hs
    refine ⟨⟨hs.held, rfl, fun hnot => ?_⟩, Function.update_self .., hs.other⟩
    obtain ⟨hstatus, hdomain⟩ := hnew hnot
    exact ⟨hstatus, hstatus, hdomain⟩
  · unfold owed at h₁
    split
    · next hrunning =>
      rw [if_pos hrunning] at h₁
      refine lwp_bind (B := fun _ => Holds i [.answer change])
        (lwp_step rfl (Holds.stable _) h₁ fun s a s' hs hx => ?_) fun _ s₂ h₂ => lwp_changed h₂
      obtain ⟨rfl, -⟩ := hx
      refine ⟨⟨_, hs.1⟩, ?_, hs.2⟩
      rw [hs.1]
      exact Function.update_self ..
    · next hrunning =>
      rw [if_neg hrunning] at h₁
      exact lwp_changed h₁

theorem lwp_addShare {body : Json} (h : Free i s) :
    lwp H shares i (addShare body) (fun _ => Free i) (fun _ => Free i) s := by
  refine lwp_bind (lwp_get h) fun nfs s₁ h₁ => ?_
  obtain ⟨h₁, hnew⟩ := h₁
  cases nfs with
  | none => exact lwp_other h₁
  | some nfs =>
    dsimp only [Program.bind]
    cases nameOf body with
    | error e => exact h₁
    | ok name =>
      change lwp H shares i (insert nfs body name) _ _ _
      unfold insert
      split
      · exact lwp_other h₁
      · split
        · exact lwp_other h₁
        · split
          · exact h₁
          · exact lwp_store h₁ (hnew nfs rfl)

theorem lwp_updateShare {name : String} {body : Json} (h : Free i s) :
    lwp H shares i (updateShare name body) (fun _ => Free i) (fun _ => Free i) s := by
  refine lwp_bind (lwp_get h) fun nfs s₁ h₁ => ?_
  obtain ⟨h₁, hnew⟩ := h₁
  cases nfs with
  | none => exact lwp_other h₁
  | some nfs =>
    dsimp only [Program.bind]
    split
    · cases givenClients body with
      | error e => exact h₁
      | ok clients => exact lwp_store h₁ (hnew nfs rfl)
    · exact lwp_other h₁

theorem lwp_removeShare {name : String} (h : Free i s) :
    lwp H shares i (removeShare name) (fun _ => Free i) (fun _ => Free i) s := by
  refine lwp_bind (lwp_get h) fun nfs s₁ h₁ => ?_
  obtain ⟨h₁, hnew⟩ := h₁
  cases nfs with
  | none => exact lwp_other h₁
  | some nfs =>
    change lwp H shares i (if nfs.shares.any (·.name = name) then store nfs (.remove name)
      else answer .other) _ _ _
    split
    · exact lwp_store h₁ (hnew nfs rfl)
    · exact lwp_other h₁

/-! ### The background -/

theorem lwp_launched {nfs row : Row} (h : Launching i s) (hnfs : nfs.shares = shares)
    (hrow : row.shares = shares) :
    lwp H shares i (launched nfs row) (fun _ => Free i) (fun _ => Free i) s := by
  refine lwp_bind (B := fun _ => Free i) (lwp_step rfl Launching.stable h fun s a s' hs hx => ?_)
    fun _ _ h₁ => h₁
  obtain ⟨⟨-, rfl⟩, -⟩ := hx
  exact ⟨⟨hs.mine, hnfs, hrow⟩, hs.held, nofun⟩

/-- **The launch stores the shares that it was given.** -/
theorem lwp_launch (h : Free i s) :
    lwp H shares i launch (fun _ => Free i) (fun _ => Free i) s := by
  refine lwp_bind (B := fun (nfs : Row) s => Launching i s ∧ nfs.shares = shares)
    (lwp_step rfl Free.stable h fun s a s' hs hx => ?_) fun nfs s₁ h₁ => ?_
  · obtain ⟨⟨hlaunch, rfl⟩, -, hinv⟩ := hx
    exact ⟨trivial, ⟨hs.held, rfl⟩, hinv.waiting a hlaunch⟩
  · obtain ⟨h₁, hnfs⟩ := h₁
    refine lwp_bind (B := fun (created : Bool × Row) s => Launching i s ∧ created.2.shares = shares)
      (lwp_step rfl Launching.stable h₁ fun s a s' hs hx => ?_) fun created s₂ h₂ => ?_
    · obtain ⟨⟨hshares, hx⟩, -⟩ := hx
      refine ⟨⟨hs.mine, hnfs⟩, ?_, hshares.trans hnfs⟩
      split at hx
      · obtain ⟨-, -, -, rfl⟩ := hx
        exact ⟨hs.held, hs.mine⟩
      · exact hx ▸ hs
    · obtain ⟨ok, row⟩ := created
      obtain ⟨h₂, hrow⟩ := h₂
      cases ok with
      | false => exact lwp_launched h₂ hnfs hrow
      | true =>
        refine lwp_bind (B := fun _ => Launching i) (lwp_step rfl Launching.stable h₂ fun s a s' hs hx => ?_)
          fun ip s₃ h₃ => ?_
        · obtain ⟨rfl, -⟩ := hx
          exact ⟨trivial, hs⟩
        · cases ip with
          | ok ip => exact lwp_launched h₃ hnfs hrow
          | error e => exact lwp_launched h₃ hnfs hrow

theorem lwp_take {job : Job} (h : Free i s) :
    lwp H shares i (step (.take job) rfl) (fun (_ : Unit) => Holds i [.job job]) (fun _ => Free i) s :=
  lwp_step rfl Free.stable h fun s a s' hs hx => by
    obtain ⟨⟨l, r, -, rfl⟩, -⟩ := hx
    exact ⟨hs.held, Function.update_self .., hs.other⟩

theorem lwp_reload {n : ℕ} {l : List Share} (h : Free i s) :
    lwp H shares i (reload n l) (fun _ => Free i) (fun _ => Free i) s := by
  refine lwp_bind (lwp_take h) fun _ s₁ h₁ => ?_
  refine lwp_bind (B := fun _ => Free i) (lwp_step rfl (Holds.stable _) h₁ fun s a s' hs hx => ?_)
    fun _ _ h₂ => h₂
  obtain ⟨hx, -⟩ := hx
  cases a with
  | ok _ =>
    obtain ⟨m, lines, -, -, rfl⟩ := hx
    exact ⟨hs.1, Function.update_self .., hs.2⟩
  | error _ =>
    obtain ⟨lines, rfl⟩ := hx
    exact ⟨hs.1, Function.update_self .., hs.2⟩

theorem lwp_tearDown (h : Free i s) :
    lwp H shares i tearDown (fun _ => Free i) (fun _ => Free i) s := by
  refine lwp_bind (lwp_take h) fun _ s₁ h₁ => ?_
  refine lwp_bind (B := fun _ => Free i) (lwp_step rfl (Holds.stable _) h₁ fun s a s' hs hx => ?_)
    fun _ _ h₂ => h₂
  obtain ⟨hx, -⟩ := hx
  cases a with
  | ok _ =>
    obtain rfl := hx
    exact ⟨hs.1, Function.update_self .., hs.2⟩
  | error _ =>
    obtain rfl := hx
    exact ⟨hs.1, Function.update_self .., hs.2⟩

theorem lwp_bootMachine (h : Free i s) :
    lwp H shares i bootMachine (fun _ => Free i) (fun _ => Free i) s :=
  lwp_step rfl Free.stable h fun s a s' hs hx => by
    obtain ⟨⟨m, lines, -, -, -, rfl⟩, -⟩ := hx
    exact ⟨trivial, hs.held, hs.other⟩

theorem lwp_code (o : Operation) (h : Free i s) :
    lwp H shares i o.code (fun _ => Free i) (fun _ => Free i) s := by
  cases o with
  | get => exact lwp_getNfsServer h
  | delete => exact lwp_deleteNfsServer h
  | addShare body => exact lwp_addShare h
  | updateShare name body => exact lwp_updateShare h
  | removeShare name => exact lwp_removeShare h
  | launch => exact lwp_launch h
  | reload n l => exact lwp_reload h
  | tearDown => exact lwp_tearDown h
  | boot => exact lwp_bootMachine h

/-! ### Runs -/

/-- The handlers and the background threads, in any order. -/
def outline (H : Host) (shares : List Share) : Outline (exec (ι := ι) H)
    fun x m => (Runs m ∧ Careful H x.shared m) ∧ Inv H shares x.shared where
  rely := Rely
  guar i s c a s' := Sem H shares i s c a s' ∧ Guard shares i s c
  idle := Free
  post i _ := Free i
  fail i _ := Free i
  sem := Sem H shares
  sem_of_ok _ _ _ _ _ hok hx := ⟨hx, hok.1.2, hok.2⟩
  rely_refl := Rely.refl
  rely_trans _ _ _ _ h h' := h.trans h'
  rely_of_guar _ _ hne _ _ _ _ hg := rely_of_guard hne hg.1.1 hg.1.2.1 hg.2
  idle_stable _ := Free.stable
  post_stable _ _ := Free.stable
  fail_stable _ _ := Free.stable
  start x i p hp h := by
    obtain ⟨⟨⟨o, rfl⟩, -⟩, -⟩ := hp
    exact Program.wp_executed (lwp_code o h)
  ret _ _ _ _ h := h
  raise _ _ _ _ h := h
  kill _ _ _ hok _ _ := hok.1.1.elim

theorem inv_created : Inv H shares (.created (newServer shares) : State ι) where
  row := ⟨_, rfl, rfl⟩
  logged _ := rfl
  gone := nofun
  pending n l hn := by
    rcases hn with hjobs | ⟨i, hi⟩
    · cases hjobs
    · cases hi
  waiting nfs hnfs := Launch.waiting.inj hnfs ▸ rfl
  status _ row hrow := by
    obtain rfl := Option.some.inj (stored_eq_some.mp hrow).1
    exact ⟨rfl, rfl⟩
  early _ m hm := nomatch hm
  quiet _ n l hn := by
    rcases hn with hjobs | ⟨i, hi⟩
    · cases hjobs
    · cases hi
  source _ m hm := nomatch hm
  exports m hm := nomatch hm

/-- **What is promised:** a server that was deleted is gone; once all threads have ended, the shares
are the result of the requests that succeeded, and the machine exports them. -/
structure Promises (H : Host) (shares : List Share) (x : Config sig Unit Unit ι (State ι)) : Prop where
  gone : x.shared.gone = true → x.shared.stored = none
  kept : (∀ i, x.thread i = none) → x.shared.Settled → ∃ row, x.shared.row = some row ∧
    (∃ order, order.Perm x.shared.answered ∧ row.shares = applyAll shares order) ∧
      ∀ m, x.shared.machine = some m → H.exportLines row.shares = some m.exports

/-- **No share is lost, and what is stored is exported,** in every run that is careful. -/
theorem listed_of_reaches {x : Config sig Unit Unit ι (State ι)}
    (h : Reaches (exec H) (fun x m => Runs m ∧ Careful H x.shared m)
      (.idle (.created (newServer shares))) x) : Promises H shares x := by
  obtain ⟨hv, hinv⟩ := (outline H shares).invariant_of_kept (I := Inv H shares)
    (fun _ _ _ _ _ hg => inv_of_guard hg.1.1 hg.1.2.1 hg.2) h
    (fun i => (⟨rfl, nofun⟩ : Free i (.created (newServer shares)))) inv_created
  refine ⟨hinv.gone, fun hidle hsettled => ?_⟩
  obtain ⟨hjobs, hwaiting, hbooted⟩ := hsettled
  have hfree (i : ι) : Free i x.shared := by
    have hi := hv i
    rw [hidle i] at hi
    exact hi
  have hdone : x.shared.launch = .done := by
    cases hlaunch : x.shared.launch with
    | waiting nfs => exact absurd hlaunch (hwaiting nfs)
    | running i => exact absurd hlaunch (hfree i).other
    | done => rfl
  obtain ⟨row, hrow, hshares⟩ := hinv.row
  refine ⟨row, hrow, ⟨x.shared.log, perm_of_changesOf fun i => ?_, hshares⟩, fun m hm => ?_⟩
  · rw [hinv.logged i, (hfree i).held]
    exact List.append_nil _
  · have hsource : m.source = applyAll shares x.shared.log := by
      rcases hinv.source hdone m hm with ⟨-, hsource⟩ | hpending
      · exact hsource
      · rcases hpending with hmem | ⟨i, hmem⟩
        · rw [hjobs] at hmem
          cases hmem
        · rw [(hfree i).held] at hmem
          cases hmem
    rw [hshares, ← hsource]
    exact hinv.exports m hm (hbooted m hm)

/-! ### Two runs -/

instance (line : String) : Decidable (Plain line) := inferInstanceAs (Decidable (_ ∧ _))

/-- One answer to each command; nothing fails. -/
def respond (H : Host) (i : ι) (s : State ι) : (c : Cmd) → Option (c.Ans × State ι)
  | .get => some (s.stored, s)
  | .put base row why => some (s.log.length + 1, { s.note i base row why with row := some row })
  | .delete => some ((), { s with row := s.row.map ({ · with status := .deleted }) })
  | .spawn job => some ((), { s.holding i (s.held i).tail with jobs := job :: s.jobs })
  | .take _ => none
  | .takeLaunch =>
    match s.launch with
    | .waiting nfs => some (nfs, { s with launch := .running i })
    | _ => none
  | .create nfs =>
    if (H.exportLines nfs.shares).isSome then
      some ((true, { nfs with status := .running, domainName := "ccnfs" }),
        { s with machine := some ⟨false, [], nfs.shares⟩ })
    else none
  | .ip _ => some (.ok "10.0.0.5", s)
  | .status _ => some (.ok .running, s)
  | .boot =>
    match s.machine with
    | some ⟨false, _, source⟩ => (H.exportLines source).map fun lines =>
      ((), { s with machine := some ⟨true, lines, source⟩ })
    | _ => none
  | .reload n l =>
    match s.machine with
    | some m => (H.exportLines l).map fun lines =>
      (.ok (), { s.holding i [] with machine := some ⟨m.booted, lines, l⟩, written := n })
    | none => none
  | .destroy => some (.ok (), { s.holding i [] with machine := none })
  | .answer (.changed change) =>
    some ((), { s.holding i [] with answered := s.answered ++ [(i, change)] })
  | .answer .gone => some ((), { s with gone := true })
  | .answer .other => some ((), s)

theorem exec_respond {c : Cmd} {a : c.Ans} (h : respond H i s c = some (a, s')) :
    exec H i s c a s' := by
  cases c with
  | takeLaunch =>
    simp only [respond] at h
    split at h
    · next nfs hlaunch =>
      cases h
      exact ⟨hlaunch, rfl⟩
    · cases h
  | create nfs =>
    simp only [respond] at h
    split at h
    · next hlines =>
      cases h
      have hdomain : "ccnfs" ≠ "" := by decide
      exact ⟨rfl, rfl, hdomain, hlines, rfl⟩
    · cases h
  | boot =>
    simp only [respond] at h
    split at h
    · next source hm =>
      obtain ⟨lines, hlines, heq⟩ := Option.map_eq_some_iff.mp h
      cases heq
      exact ⟨_, lines, hm, rfl, fun _ => hlines, rfl⟩
    · cases h
  | reload n l =>
    simp only [respond] at h
    split at h
    · next m hm =>
      obtain ⟨lines, hlines, heq⟩ := Option.map_eq_some_iff.mp h
      cases heq
      exact ⟨m, lines, hm, fun _ => hlines, rfl⟩
    · cases h
  | take => cases h
  | answer reply =>
    cases reply with
    | _ =>
      cases h
      exact rfl
  | get | put =>
    cases h
    exact ⟨rfl, rfl⟩
  | delete | spawn | ip | status | destroy =>
    cases h
    exact rfl

/-- The host of the runs. -/
def plainHost : Host := ⟨"192.168.122.0/24", fun _ => ""⟩

/-- The same clients, none or a text. -/
def sameClients : Option Json → Option Json → Bool
  | none, none => true
  | some (.str t), some (.str t') => t == t'
  | _, _ => false

theorem eq_of_sameClients {c c' : Option Json} (h : sameClients c c' = true) : c = c' := by
  unfold sameClients at h
  split at h
  · rfl
  · rw [beq_iff_eq.mp h]
  · cases h

/-- The same shares, of such clients. -/
def sameShares : List Share → List Share → Bool
  | [], [] => true
  | ⟨name, c⟩ :: l, ⟨name', c'⟩ :: l' => name == name' && sameClients c c' && sameShares l l'
  | _, _ => false

theorem eq_of_sameShares {l l' : List Share} (h : sameShares l l' = true) : l = l' := by
  induction l generalizing l' with
  | nil =>
    cases l' with
    | nil => rfl
    | cons share l' => cases h
  | cons share l ih =>
    cases l' with
    | nil => cases h
    | cons share' l' =>
      obtain ⟨hsame, hrest⟩ := Bool.and_eq_true_iff.mp h
      obtain ⟨hname, hclients⟩ := Bool.and_eq_true_iff.mp hsame
      obtain ⟨name, c⟩ := share
      obtain ⟨name', c'⟩ := share'
      obtain rfl : name = name' := beq_iff_eq.mp hname
      obtain rfl : c = c' := eq_of_sameClients hclients
      rw [ih hrest]

def printable (H : Host) (l : List Share) : Bool :=
  (H.exportLines l).any fun lines => lines.all fun line => decide (Plain line)

theorem printable_of {l : List Share} (h : printable H l = true) : H.Printable l := by
  obtain ⟨lines, hlines, hall⟩ := Option.any_eq_true .. |>.mp h
  exact ⟨lines, hlines, fun line hline => of_decide_eq_true (List.all_eq_true.mp hall line hline)⟩

/-- Where a command is careful. -/
def admits (H : Host) (s : State ι) : Cmd → Bool
  | .put base _ why => (s.stored.any fun row => sameShares row.shares base.shares) &&
    match why with
    | .share _ => decide (base.status = .running)
    | _ => true
  | .boot => s.machine.all fun m => printable H m.source
  | .reload n l => s.machine.all fun m => m.booted && decide (s.written ≤ n) && printable H l
  | _ => true

/-- `respond`, where it is careful; one reload is waiting. -/
def respondCareful (H : Host) (i : ι) (s : State ι) (c : Cmd) : Option (c.Ans × State ι) :=
  match c with
  | .take job =>
    match s.jobs, job with
    | [.reload n l], .reload n' l' =>
      if n = n' ∧ sameShares l l' then some ((), { s.holding i [.job job] with jobs := [] }) else none
    | _, _ => none
  | c => if admits H s c then respond H i s c else none

theorem careful_respond {c : Cmd} {a : c.Ans} (hadmits : admits H s c = true)
    (h : respond H i s c = some (a, s')) : Careful H s (.call i c a) := by
  cases c with
  | put base row why =>
    obtain ⟨hrow, hwhy⟩ := Bool.and_eq_true_iff.mp hadmits
    obtain ⟨row', hstored, hsame⟩ := Option.any_eq_true .. |>.mp hrow
    refine ⟨⟨row', hstored, eq_of_sameShares hsame⟩, fun change heq => ?_⟩
    subst heq
    exact .inl (of_decide_eq_true hwhy)
  | boot =>
    intro m hm
    unfold admits at hadmits
    rw [hm] at hadmits
    exact printable_of hadmits
  | reload n l =>
    intro m hm
    unfold admits at hadmits
    rw [hm] at hadmits
    obtain ⟨hbooted, hprintable⟩ := Bool.and_eq_true_iff.mp hadmits
    obtain ⟨hbooted, horder⟩ := Bool.and_eq_true_iff.mp hbooted
    refine ⟨hbooted, of_decide_eq_true horder, ?_, printable_of hprintable⟩
    simp only [respond, hm] at h
    obtain ⟨lines, -, heq⟩ := Option.map_eq_some_iff.mp h
    cases heq
    rfl
  | _ => trivial

theorem of_respondCareful {c : Cmd} {a : c.Ans} (h : respondCareful H i s c = some (a, s')) :
    exec H i s c a s' ∧ Careful H s (.call i c a) := by
  have hrest (hc : (if admits H s c then respond H i s c else none) = some (a, s')) :
      exec H i s c a s' ∧ Careful H s (.call i c a) := by
    split at hc
    · next hadmits => exact ⟨exec_respond hc, careful_respond hadmits hc⟩
    · cases hc
  cases c with
  | take job =>
    simp only [respondCareful] at h
    split at h
    · next n l n' l' hjobs =>
      split at h
      · next hsame =>
        cases h
        obtain rfl := hsame.1
        obtain rfl := eq_of_sameShares hsame.2
        exact ⟨⟨[], [], hjobs, rfl⟩, trivial⟩
      · cases h
    · cases h
  | _ => exact hrest h

/-- The share gets other clients. -/
def narrower : Json := .obj [("clients", .str "10.0.0.0/24")]

/-- A server with a share is launched and boots; the share is updated, and the machine told. -/
def ordinary : List (Turn sig Unit Unit Unit) :=
  [.start () launch, .go (), .go (), .go (), .go (), .go (), .start () bootMachine, .go (), .go (),
    .start () (updateShare "data" narrower), .go (), .go (), .go (), .go (), .go (),
    .start () (reload 1 [⟨"data", some (.str "10.0.0.0/24")⟩]), .go (), .go (), .go ()]

/-- What the machine exports at its end. -/
def narrowed : List String := ["/exports/data 10.0.0.0/24(rw,sync,no_subtree_check,no_root_squash)"]

/-- The ordinary run. -/
theorem listed_of_reaches_ordinary : ∃ x : Config sig Unit Unit Unit (State Unit),
    x.thread () = none ∧ x.shared.jobs = [] ∧ x.shared.answered.length = 1 ∧
      x.shared.machine.map (·.exports) = some narrowed ∧ Promises plainHost [⟨"data", none⟩] x := by
  have hplay : (Config.play (respondCareful plainHost) ordinary
      (.idle (.created (newServer [⟨"data", none⟩])))).any (fun x => (x.thread ()).isNone &&
        x.shared.jobs.isEmpty && x.shared.answered.length == 1 &&
        x.shared.machine.map (·.exports) == some narrowed) = true := by
    decide +kernel
  obtain ⟨x, hx, hends⟩ := Option.any_eq_true .. |>.mp hplay
  obtain ⟨hends, hexports⟩ := Bool.and_eq_true_iff.mp hends
  obtain ⟨hends, hanswered⟩ := Bool.and_eq_true_iff.mp hends
  obtain ⟨hthread, hjobs⟩ := Bool.and_eq_true_iff.mp hends
  refine ⟨x, Option.isNone_iff_eq_none.mp hthread, List.isEmpty_iff.mp hjobs, beq_iff_eq.mp hanswered,
    beq_iff_eq.mp hexports,
    listed_of_reaches (reaches_of_play (fun i x c a s h => ?_) (fun _ _ _ => ⟨trivial, trivial⟩)
      (fun i p hp x => ⟨?_, trivial⟩) hx)⟩
  · obtain ⟨hexec, hcareful⟩ := of_respondCareful h
    exact ⟨hexec, trivial, hcareful⟩
  · have hp : p = launch ∨ p = bootMachine ∨ p = updateShare "data" narrower ∨
        p = reload 1 [⟨"data", some (.str "10.0.0.0/24")⟩] := by
      simpa only [ordinary, List.mem_cons, Turn.start.injEq, true_and, reduceCtorEq, List.not_mem_nil,
        or_false, false_or] using hp
    rcases hp with rfl | rfl | rfl | rfl
    · exact ⟨.launch, rfl⟩
    · exact ⟨.boot, rfl⟩
    · exact ⟨.updateShare "data" narrower, rfl⟩
    · exact ⟨.reload 1 [⟨"data", some (.str "10.0.0.0/24")⟩], rfl⟩

/-- One launch, while the server is deleted. -/
def overtaken : List (Turn sig Unit Unit Bool) :=
  [.start true launch, .go true, .go true, .start false deleteNfsServer] ++
    List.replicate 4 (.go false) ++ [.go true, .go true]

/-- **A server that was deleted is there again:** its launch stores it. -/
theorem resurrected : ¬∀ (H : Host) (shares : List Share) (x : Config sig Unit Unit Bool (State Bool)),
    Reaches (exec H) (fun _ m => Runs m) (.idle (.created (newServer shares))) x →
      Promises H shares x := by
  intro hall
  have hplay : (Config.play (respond plainHost) overtaken (.idle (.created (newServer [])))).any
      (fun x => x.shared.gone && x.shared.stored.isSome) = true := by
    decide +kernel
  obtain ⟨x, hx, hgone⟩ := Option.any_eq_true .. |>.mp hplay
  obtain ⟨hgone, hstored⟩ := Bool.and_eq_true_iff.mp hgone
  have hreaches : Reaches (exec plainHost) (fun _ m => Runs m) (.idle (.created (newServer []))) x := by
    refine reaches_of_play (fun i x c a s h => ⟨exec_respond h, trivial⟩) (fun _ _ _ => trivial)
      (fun i p hp x => ?_) hx
    have hp : p = launch ∨ p = deleteNfsServer := by
      simp only [overtaken, List.cons_append, List.nil_append, List.replicate, List.mem_cons,
        Turn.start.injEq, reduceCtorEq, List.not_mem_nil, or_false, false_or] at hp
      exact hp.imp (·.2) (·.2)
    rcases hp with rfl | rfl
    · exact ⟨.launch, rfl⟩
    · exact ⟨.delete, rfl⟩
  have hnone := (hall plainHost [] x hreaches).gone hgone
  rw [hnone] at hstored
  cases hstored

end Nfs
end CloudCore
