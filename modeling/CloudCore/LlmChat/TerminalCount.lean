import CloudCore.LlmChat.TerminalSteps
import Mathlib.Data.List.Nodup

/-!
# The sessions of the terminal service

`_client_active` counts the sessions of a client.  It is raised when a handler is admitted and
lowered at its end, on the paths that lead there.

## Main definitions

* `Exact` — the count, the machines and the map agree with the handlers.
* `Books` — the invariant behind it.

## Main results

* `exact_of_reaches` — **the accounts are exact**, where no exit skips the decrement.
* `locked_out_for_good` — an exit that does.
-/

namespace CloudCore
namespace Terminal

open Effect Python

section Accounts

variable {ι : Type}

/-- **The accounts**, where every handler waits or is finished. -/
structure Exact (cfg : Settings) (x : Config sig Failure Unit ι (State ι)) : Prop where
  /-- The count is the number of admitted handlers that have not finished, and within its bound. -/
  count : ∀ ip, ∃ l : List ι, l.Nodup ∧
    (∀ i, i ∈ l ↔ x.thread i ≠ none ∧ x.shared.admitted i = some ip) ∧
    (x.shared.active ip).getD 0 = l.length ∧ (l.length : ℤ) ≤ max cfg.maxConcurrent 0
  /-- When the handlers of a client have finished, it has no VM. -/
  map : ∀ ip, (∀ i, x.shared.admitted i = some ip → x.thread i = none) → x.shared.clientVm ip = none
  /-- The VM of a handler that has finished is torn down. -/
  down : ∀ r < x.shared.nextVm, ∀ i, (x.shared.vms r).owner = some i →
    (x.shared.vms r).owned = true → x.thread i = none → (x.shared.vms r).Gone

/-- A session that is counted. -/
def State.Counts (s : State ι) (i : ι) (ip : String) : Prop :=
  ∃ e, s.entry i = some e ∧ e.ip = ip ∧ e.counted = true

/-- The counts are right. -/
def Counted (cfg : Settings) (s : State ι) : Prop :=
  ∀ ip, ∃ l : List ι, l.Nodup ∧ (∀ i, i ∈ l ↔ s.Counts i ip) ∧ (s.active ip).getD 0 = l.length ∧
    (l.length : ℤ) ≤ max cfg.maxConcurrent 0

/-- A VM of a client belongs to a session of it. -/
def Recorded (s : State ι) : Prop :=
  ∀ ip r, s.clientVm ip = some r → ∃ i e, s.entry i = some e ∧ e.ip = ip ∧ e.vm = some r

/-- A VM belongs to the session of its owner, or is torn down. -/
def Kept (s : State ι) : Prop :=
  ∀ r < s.nextVm, ∀ i, (s.vms r).owner = some i → (s.vms r).owned = true →
    (s.vms r).Gone ∨ ∃ e, s.entry i = some e ∧ e.vm = some r

/-- The books of the service. -/
structure Books (cfg : Settings) (s : State ι) : Prop where
  counted : Counted cfg s
  recorded : Recorded s
  kept : Kept s

variable {cfg : Settings} {calm strict routed : Prop} {i j : ι} {s s' : State ι}

theorem Counted.congr (h : Counted cfg s) (hactive : s'.active = s.active)
    (hcounts : ∀ i ip, s'.Counts i ip ↔ s.Counts i ip) : Counted cfg s' := by
  intro ip
  obtain ⟨l, hnodup, hmem, hlength, hmax⟩ := h ip
  exact ⟨l, hnodup, fun i => (hmem i).trans (hcounts i ip).symm, hactive ▸ hlength, hmax⟩

variable [DecidableEq ι]

/-- A session is counted for one client. -/
theorem counts_update {e : Option Entry} {k : ι} {ip : String} (hne : k ≠ i)
    (hs : s'.entry = Function.update s.entry i e) : s'.Counts k ip ↔ s.Counts k ip := by
  unfold State.Counts
  rw [hs, Function.update_of_ne hne]

theorem counts_update_self {e : Option Entry} {ip : String}
    (hs : s'.entry = Function.update s.entry i e) :
    s'.Counts i ip ↔ ∃ e', e = some e' ∧ e'.ip = ip ∧ e'.counted = true := by
  unfold State.Counts
  rw [hs, Function.update_self]

/-- A handler is admitted. -/
theorem counted_of_admission {ip : String} {n : ℤ} (hnone : s.entry i = none)
    (hroom : (s.active ip).getD 0 < cfg.maxConcurrent) (hn : n = (s.active ip).getD 0 + 1)
    (hactive : s'.active = Function.update s.active ip (some n))
    (hentry : s'.entry = Function.update s.entry i (some ⟨ip, none, true⟩)) (h : Counted cfg s) :
    Counted cfg s' := by
  intro ip'
  obtain ⟨l, hnodup, hmem, hlength, hmax⟩ := h ip'
  have hnot : ∀ ip, ¬s.Counts i ip := by
    rintro ip ⟨e, he, -⟩
    rw [hnone] at he
    cases he
  by_cases hip : ip' = ip
  · subst hip
    refine ⟨i :: l, List.nodup_cons.mpr ⟨fun hi => hnot ip' ((hmem i).mp hi), hnodup⟩, fun j => ?_, ?_, ?_⟩
    · by_cases hj : j = i
      · subst hj
        exact ⟨fun _ => (counts_update_self hentry).mpr ⟨_, rfl, rfl, rfl⟩,
          fun _ => List.mem_cons_self⟩
      · rw [counts_update hj hentry, ← hmem j, List.mem_cons]
        exact or_iff_right hj
    · rw [hactive, Function.update_self, Option.getD_some, hn, hlength, List.length_cons]
      omega
    · rw [List.length_cons]
      omega
  · refine ⟨l, hnodup, fun j => ?_, ?_, hmax⟩
    · by_cases hj : j = i
      · subst hj
        rw [counts_update_self hentry, hmem j]
        refine ⟨fun h => absurd h (hnot ip'), ?_⟩
        rintro ⟨e, he, hne, -⟩
        obtain rfl := Option.some.inj he
        exact absurd hne.symm hip
      · rw [counts_update hj hentry, hmem j]
    · rw [hactive, Function.update_of_ne hip, hlength]

/-- A handler is not counted any more. -/
theorem counted_of_lowering {e : Entry} {n : ℤ} (he : s.entry i = some e) (hcounted : e.counted = true)
    (hn : n = max 0 ((s.active e.ip).getD 1 - 1))
    (hactive : s'.active = Function.update s.active e.ip (some n))
    (hentry : s'.entry = Function.update s.entry i (some { e with counted := false }))
    (h : Counted cfg s) : Counted cfg s' := by
  intro ip'
  obtain ⟨l, hnodup, hmem, hlength, hmax⟩ := h ip'
  have hnot : ∀ ip, ¬s'.Counts i ip := by
    intro ip hc
    obtain ⟨e', he', -, hc⟩ := (counts_update_self hentry).mp hc
    obtain rfl := Option.some.inj he'
    cases hc
  by_cases hip : ip' = e.ip
  · subst hip
    have hi : i ∈ l := (hmem i).mpr ⟨e, he, rfl, hcounted⟩
    have hpos : 0 < l.length := List.length_pos_of_mem hi
    refine ⟨l.erase i, hnodup.erase i, fun j => ?_, ?_, ?_⟩
    · by_cases hj : j = i
      · subst hj
        exact ⟨fun h => absurd h (hnodup.not_mem_erase), fun h => absurd h (hnot _)⟩
      · rw [List.mem_erase_of_ne hj, hmem j, counts_update hj hentry]
    · rw [hactive, Function.update_self, Option.getD_some, List.length_erase_of_mem hi, hn]
      cases hk : s.active e.ip with
      | none =>
        rw [hk, Option.getD_none] at hlength
        omega
      | some k =>
        rw [hk, Option.getD_some] at hlength
        rw [Option.getD_some]
        omega
    · rw [List.length_erase_of_mem hi]
      omega
  · refine ⟨l, hnodup, fun j => ?_, ?_, hmax⟩
    · by_cases hj : j = i
      · subst hj
        rw [hmem j]
        refine ⟨fun h => ?_, fun h => absurd h (hnot _)⟩
        obtain ⟨e', he', hne, -⟩ := h
        obtain rfl := Option.some.inj (he'.symm.trans he)
        exact absurd hne.symm hip
      · rw [counts_update hj hentry, hmem j]
    · rw [hactive, Function.update_of_ne hip, hlength]

/-- The commands that change the sessions or the counts. -/
def Cmd.Accounts : Cmd → Prop
  | .setActive .. | .release | .make _ | .attach .. => True
  | _ => False

theorem same_of_exec {c : Cmd} {a : c.Ans} (hc : ¬c.Accounts) (hx : exec cfg i s c a s') :
    s'.entry = s.entry ∧ s'.active = s.active ∧ s'.nextVm = s.nextVm := by
  cases c with
  | setActive | release | make | attach => exact absurd trivial hc
  | tick =>
    cases hx with
    | vm _ _ => exact ⟨rfl, rfl, rfl⟩
    | labs _ => exact ⟨rfl, rfl, rfl⟩
  | connect address r host port => exact exec_connect hx ▸ ⟨rfl, rfl, rfl⟩
  | acquire | getActive | getVm | booted | vmIp =>
    obtain ⟨-, rfl⟩ := hx
    exact ⟨rfl, rfl, rfl⟩
  | toreDown r =>
    obtain ⟨-, -, rfl⟩ := hx
    exact ⟨rfl, rfl, rfl⟩
  | _ =>
    obtain rfl := hx
    exact ⟨rfl, rfl, rfl⟩

theorem counts_of_create {owned : Bool} {client lab ip' : String} {ip : Json} {k : ι} :
    (s.create i owned client lab ip).Counts k ip' ↔ s.Counts k ip' := by
  by_cases hk : k = i
  · subst hk
    rw [counts_update_self (s := s) rfl]
    constructor
    · rintro ⟨e, he, hip, hcounted⟩
      obtain ⟨e', he', rfl⟩ := Option.map_eq_some_iff.mp he
      exact ⟨e', he', hip, hcounted⟩
    · rintro ⟨e, he, hip, hcounted⟩
      exact ⟨_, Option.map_eq_some_iff.mpr ⟨e, he, rfl⟩, hip, hcounted⟩
  · exact counts_update (s := s) hk rfl

theorem counts_of_release {ip : String} {k : ι} : (s.release i).Counts k ip ↔ s.Counts k ip := by
  by_cases hk : k = i
  · subst hk
    rw [counts_update_self (s := s) rfl]
    constructor
    · rintro ⟨e, he, hip, hcounted⟩
      exact ⟨e, (Option.filter_eq_some_iff.mp he).1, hip, hcounted⟩
    · rintro ⟨e, he, hip, hcounted⟩
      exact ⟨e, Option.filter_eq_some_iff.mpr ⟨he, hcounted⟩, hip, hcounted⟩
  · exact counts_update (s := s) hk rfl

theorem counted_of_guard {c : Cmd} {a : c.Ans} (hx : exec cfg i s c a s')
    (hg : Guard cfg calm strict routed i s c) (h : Counted cfg s) : Counted cfg s' := by
  by_cases hc : c.Accounts
  · cases c with
    | setActive ip n =>
      obtain rfl := hx
      obtain ⟨-, hg⟩ := hg
      unfold State.setActive
      cases he : s.entry i with
      | none =>
        rw [he] at hg
        exact counted_of_admission he hg.2.1 hg.2.2 rfl rfl h
      | some e =>
        rw [he] at hg
        obtain ⟨rfl, hcounted, hn⟩ := hg
        exact counted_of_lowering he hcounted hn rfl rfl h
    | release =>
      obtain rfl := hx
      exact h.congr rfl fun _ _ => counts_of_release
    | make address =>
      obtain ⟨-, rfl⟩ := hx
      exact h.congr rfl fun _ _ => counts_of_create
    | attach address lab ip =>
      obtain ⟨-, rfl⟩ := hx
      exact h.congr rfl fun _ _ => counts_of_create
    | _ => exact hc.elim
  · obtain ⟨hentry, hactive, -⟩ := same_of_exec hc hx
    exact h.congr hactive fun k ip => by unfold State.Counts; rw [hentry]

/-- A session of the client `ip` has the VM `r`. -/
def State.Has (s : State ι) (i : ι) (ip : String) (r : ℕ) : Prop :=
  ∃ e, s.entry i = some e ∧ e.ip = ip ∧ e.vm = some r

/-- **A session keeps its VM** until it is over. -/
theorem has_of_guard {c : Cmd} {a : c.Ans} (hx : exec cfg i s c a s')
    (hg : Guard cfg calm strict routed i s c) {k : ι} {ip : String} {r : ℕ} (h : s.Has k ip r) :
    s'.Has k ip r ∨ c = .release ∧ k = i ∧ ∃ e, s.entry i = some e ∧ e.counted = false ∧
      e.ip = ip ∧ e.vm = some r := by
  obtain ⟨e, he, hip, hr⟩ := h
  have hother : ∀ e', k ≠ i → s'.entry = Function.update s.entry i e' → s'.Has k ip r :=
    fun e' hk hs => ⟨e, by rw [hs, Function.update_of_ne hk, he], hip, hr⟩
  have hcreate : (∃ e, s.entry i = some e ∧ e.counted = true ∧ e.vm = none) →
      s'.entry = Function.update s.entry i ((s.entry i).map fun e => { e with vm := some s.nextVm }) →
      s'.Has k ip r := by
    rintro ⟨e', he', -, hnone⟩ hs
    by_cases hk : k = i
    · subst hk
      obtain rfl := Option.some.inj (he.symm.trans he')
      rw [hr] at hnone
      cases hnone
    · exact hother _ hk hs
  by_cases hc : c.Accounts
  · cases c with
    | setActive ip' n =>
      obtain rfl := hx
      obtain ⟨-, hg⟩ := hg
      refine .inl ?_
      by_cases hk : k = i
      · subst hk
        refine ⟨{ e with counted := false }, ?_, hip, hr⟩
        simp only [State.setActive, he, Function.update_self]
      · unfold State.setActive
        cases he' : s.entry i with
        | none => exact ⟨e, (Function.update_of_ne hk ..).trans he, hip, hr⟩
        | some e' => exact ⟨e, (Function.update_of_ne hk ..).trans he, hip, hr⟩
    | release =>
      obtain rfl := hx
      by_cases hk : k = i
      · subst hk
        cases hcounted : e.counted with
        | false => exact .inr ⟨rfl, rfl, e, he, hcounted, hip, hr⟩
        | true =>
          refine .inl ⟨e, ?_, hip, hr⟩
          simp only [State.release, Function.update_self, he]
          exact Option.filter_some_pos hcounted
      · exact .inl (hother _ hk rfl)
    | make address =>
      obtain ⟨-, rfl⟩ := hx
      exact .inl (hcreate hg.2 rfl)
    | attach address lab ip =>
      obtain ⟨-, rfl⟩ := hx
      exact .inl (hcreate hg.2 rfl)
    | _ => exact hc.elim
  · exact .inl ⟨e, by rw [(same_of_exec hc hx).1, he], hip, hr⟩

theorem recorded_of_guard {c : Cmd} {a : c.Ans} (hx : exec cfg i s c a s')
    (hg : Guard cfg calm strict routed i s c) (h : Recorded s) : Recorded s' := by
  intro ip r hr
  obtain rfl | hold := clientVm_of_exec hx hr
  · obtain ⟨-, ⟨e, he, hip, hvm⟩, -⟩ := hg
    obtain rfl := hx
    exact ⟨i, e, he, hip, hvm⟩
  · obtain ⟨k, hhas⟩ := h ip r hold
    obtain hhas' | ⟨rfl, rfl, e, he, hcounted, rfl, hvm⟩ := has_of_guard hx hg hhas
    · exact ⟨k, hhas'⟩
    · exact absurd hold (hg.2 e r he hcounted hvm).1

/-- **What is torn down stays so.** -/
theorem gone_of_guard {c : Cmd} {a : c.Ans} (hx : exec cfg i s c a s')
    (hg : Guard cfg calm strict routed i s c) {r : ℕ} (hlt : r < s.nextVm) (h : (s.vms r).Gone) :
    (s'.vms r).Gone := by
  have hset : ∀ (r' : ℕ) (w : Vm ι), r' ≠ r → ((s.setVm r' w).vms r).Gone := by
    intro r' w hne
    simp only [State.setVm, Function.update_of_ne hne.symm]
    exact h
  have hne : ∀ r', (s.vms r').down = false → r' ≠ r := by
    rintro r' hdown rfl
    rw [h.down] at hdown
    cases hdown
  have hcreate : ∀ (owned : Bool) (client lab : String) (ip : Json),
      ((s.create i owned client lab ip).vms r).Gone := by
    intro owned client lab ip
    simp only [State.create, Function.update_of_ne (Nat.ne_of_lt hlt)]
    exact h
  cases c with
  | tick => exact h.later (vms_of_tick hx r)
  | startBoot r' =>
    obtain rfl := hx
    exact hset r' _ (hne r' hg.2.2.2.down)
  | startTeardown r' =>
    obtain rfl := hx
    exact hset r' _ (hne r' hg.2.2.2.down)
  | make address =>
    obtain ⟨-, rfl⟩ := hx
    exact hcreate ..
  | attach address lab ip =>
    obtain ⟨-, rfl⟩ := hx
    exact hcreate ..
  | setActive ip n =>
    obtain rfl := hx
    unfold State.setActive
    split <;> exact h
  | connect address r host port => exact exec_connect hx ▸ h
  | acquire | getActive | getVm | booted | vmIp =>
    obtain ⟨-, rfl⟩ := hx
    exact h
  | toreDown r =>
    obtain ⟨-, -, rfl⟩ := hx
    exact h
  | _ =>
    obtain rfl := hx
    exact h

theorem kept_of_guard {c : Cmd} {a : c.Ans} (hx : exec cfg i s c a s')
    (hg : Guard cfg calm True routed i s c) (h : Kept s) : Kept s' := by
  intro r hlt' k howner howned
  by_cases hlt : r < s.nextVm
  · have hstays := (stays_of_exec hx).2 r hlt
    rw [hstays.owner] at howner
    rw [hstays.owned] at howned
    obtain hgone | ⟨e, he, hvm⟩ := h r hlt k howner howned
    · exact .inl (gone_of_guard hx hg hlt hgone)
    · obtain ⟨e', he', -, hvm'⟩ | ⟨rfl, rfl, e', he', hcounted, -, hvm'⟩ :=
        has_of_guard hx hg ⟨e, he, rfl, hvm⟩
      · exact .inr ⟨e', he', hvm'⟩
      · exact .inl (gone_of_guard hx hg hlt ((hg.2 e' r he' hcounted hvm').2 trivial howned))
  · -- a VM that was made in this step
    have hnew : ∀ (owned : Bool) (client lab : String) (ip : Json),
        (∃ e, s.entry i = some e ∧ e.counted = true ∧ e.vm = none) →
        s' = s.create i owned client lab ip → ∃ e, s'.entry k = some e ∧ e.vm = some r := by
      rintro owned client lab ip ⟨e, he, -, -⟩ rfl
      obtain rfl : r = s.nextVm := Nat.le_antisymm (Nat.le_of_lt_succ hlt') (Nat.le_of_not_lt hlt)
      simp only [State.create, Function.update_self, Option.some.injEq] at howner
      subst howner
      simp only [State.create, Function.update_self, he]
      exact ⟨_, rfl, rfl⟩
    by_cases hc : c.Accounts
    · cases c with
      | make address =>
        exact .inr (hnew _ _ _ _ hg.2 hx.2)
      | attach address lab ip => exact .inr (hnew _ _ _ _ hg.2 hx.2)
      | setActive ip n =>
        obtain rfl := hx
        unfold State.setActive at hlt'
        split at hlt' <;> exact absurd hlt' hlt
      | release =>
        obtain rfl := hx
        exact absurd hlt' hlt
      | _ => exact hc.elim
    · rw [(same_of_exec hc hx).2.2] at hlt'
      exact absurd hlt' hlt

theorem books_of_guard {c : Cmd} {a : c.Ans} (hx : exec cfg i s c a s')
    (hg : Guard cfg calm True routed i s c) (h : Books cfg s) : Books cfg s' :=
  ⟨counted_of_guard hx hg h.counted, recorded_of_guard hx hg h.recorded, kept_of_guard hx hg h.kept⟩

/-- Nothing goes wrong between the admission and the outer `try`, nor in a teardown, and no boot is
cancelled. -/
def Smooth : Move sig Failure Unit ι → Prop
  | .call _ c a => Calm c a ∧ Strict c a
  | _ => True

/-- **The accounts are exact** wherever every handler waits or is finished, in every run in which
nothing goes wrong between the admission and the outer `try`, nor in a teardown. -/
theorem exact_of_reaches {labs : List (String × String)} {x : Config sig Failure Unit ι (State ι)}
    (h : Reaches (exec cfg) (fun x m => Served cfg x m ∧ Smooth m) (.idle (.init labs)) x)
    (hwaits : ∀ i, Waits (x.thread i)) : Exact cfg x := by
  have hsteady := fun i => (steady_of_reaches (fun _ _ hok => hok.1.1) h i).2.1 (hwaits i)
  have hstarts : ∀ (x : Config sig Failure Unit ι (State ι)) m, Served cfg x m ∧ Smooth m →
      Starts cfg (fun _ => True) (fun _ => True) x m := fun _ _ hok => hok.1.1
  have hsmooth : ∀ (x : Config sig Failure Unit ι (State ι)) i c a,
      (Served cfg x (.call i c a) ∧ Smooth (.call i c a)) →
        (True → Calm c a) ∧ (True → Strict c a) := fun _ _ _ _ hok =>
    ⟨fun _ => hok.2.1, fun _ => hok.2.2⟩
  obtain ⟨hverified, -⟩ := verified_of_reaches True cfg True False (fun h => h)
    (fun _ _ => False.elim) (fun _ _ => False.elim) hstarts hsmooth h
  have hbooks : Books cfg x.shared := by
    refine invariant_of_reaches True cfg True False (fun h => h) (fun _ _ => False.elim)
      (fun _ _ => False.elim) hstarts hsmooth h (fun i s c a s' hx hg _ => books_of_guard hx hg) ?_
    refine ⟨fun ip => ⟨[], List.nodup_nil, fun i => ⟨nofun, fun ⟨_, he, _⟩ => nomatch he⟩, rfl, ?_⟩,
      nofun, nofun⟩
    exact Int.le_max_right ..
  -- a session is one of a handler that has not finished
  have hrunning : ∀ i e, x.shared.entry i = some e →
      x.thread i ≠ none ∧ x.shared.admitted i = some e.ip := by
    intro i e he
    have hne : x.thread i ≠ none := by
      intro hnone
      have hknows := hverified i
      rw [hnone] at hknows
      rw [hknows.strict trivial] at he
      cases he
    refine ⟨hne, ?_⟩
    rw [(hsteady i hne).admitted, he]
    rfl
  refine ⟨fun ip => ?_, fun ip hfinished => ?_, fun r hlt i howner howned hnone => ?_⟩
  · obtain ⟨l, hnodup, hmem, hlength, hmax⟩ := hbooks.counted ip
    refine ⟨l, hnodup, fun i => (hmem i).trans ⟨?_, ?_⟩, hlength, hmax⟩
    · rintro ⟨e, he, rfl, -⟩
      exact hrunning i e he
    · rintro ⟨hne, hadmitted⟩
      rw [(hsteady i hne).admitted] at hadmitted
      obtain ⟨e, he, hip⟩ := Option.map_eq_some_iff.mp hadmitted
      exact ⟨e, he, hip, (hsteady i hne).counted e he⟩
  · cases hvm : x.shared.clientVm ip with
    | none => rfl
    | some r =>
      obtain ⟨i, e, he, rfl, -⟩ := hbooks.recorded ip r hvm
      obtain ⟨hne, hadmitted⟩ := hrunning i e he
      exact absurd (hfinished i hadmitted) hne
  · obtain hgone | ⟨e, he, -⟩ := hbooks.kept r hlt i howner howned
    · exact hgone
    · exact absurd hnone (hrunning i e he).1

end Accounts

/-! ### Two runs -/

/-- A browser that opens a lab machine. -/
def opener : Request := ⟨"198.51.100.7", ["198.51.100.7"], "10.0.0.2", "a1b2c3", "secret"⟩

/-- Another one, for which a machine is booted. -/
def booter : Request := ⟨"203.0.113.9", ["203.0.113.9"], "10.0.0.2", "", ""⟩

/-- One address for the machines that are booted. -/
def room : Settings := ⟨1, ["172.30.0.10"]⟩

/-- Steps of the executor. -/
def ticks (n : ℕ) : List (Turn sig Failure Unit Handler) :=
  (List.replicate n [.start .three tick, .go .three, .go .three]).flatten

/-- Both have their sessions; the first one ends, and the machine of the second one is torn down. -/
def sessions : List (Turn sig Failure Unit Handler) :=
  [.start .one (terminalHandler room opener)] ++ List.replicate 13 (.go .one) ++
    [.start .two (terminalHandler room booter)] ++ List.replicate 7 (.go .two) ++ ticks 3 ++
    List.replicate 6 (.go .two) ++ List.replicate 8 (.go .one) ++ List.replicate 2 (.go .two) ++ ticks 1

theorem start_mem_sessions {i : Handler} {p : Code Unit} (h : Turn.start i p ∈ sessions) :
    (∃ req, True ∧ p = terminalHandler room req) ∨
      (∃ visit, True ∧ p = previewHandler visit) ∨ p = step .tick rfl := by
  simp only [sessions, ticks, List.replicate, List.flatten_cons, List.flatten_nil, List.append_nil,
    List.mem_append, List.mem_cons, List.not_mem_nil, reduceCtorEq, Turn.start.injEq,
    or_false] at h
  rcases h with ((⟨-, rfl⟩ | ⟨-, rfl⟩) | ⟨-, rfl⟩ | ⟨-, rfl⟩ | ⟨-, rfl⟩) | ⟨-, rfl⟩
  · exact .inl ⟨opener, trivial, rfl⟩
  · exact .inl ⟨booter, trivial, rfl⟩
  all_goals exact .inr (.inr rfl)

theorem smooth_respond {info : Json} {fields : List (String × Json)} {session : String} {i : Handler}
    {s s' : State Handler} {c : Cmd} {a : c.Ans} (hinfo : info = .obj fields)
    (hsession : info.get? "session_id" = some (.str session))
    (h : respond room (.ok info) i s c = some (a, s')) : Smooth (.call i c a) := by
  cases c with
  | booted r =>
    obtain ⟨-, ⟨⟩⟩ := Option.ite_none_right_eq_some.mp h
    exact ⟨nofun, trivial⟩
  | toreDown r =>
    obtain ⟨-, ⟨⟩⟩ := Option.ite_none_right_eq_some.mp h
    exact ⟨trivial, rfl⟩
  | attachInfo lab token =>
    cases h
    refine ⟨trivial, fields, congrArg _ hinfo, fun v hv => ⟨session, ?_⟩⟩
    exact Option.some.inj (hv.symm.trans (hinfo ▸ hsession))
  | float v =>
    cases h
    exact ⟨trivial, rfl⟩
  | send note =>
    cases h
    cases note with
    | cantOpen error => exact ⟨trivial, nofun⟩
    | _ => exact ⟨trivial, trivial⟩
  | _ => exact ⟨trivial, trivial⟩

/-- The lab machine is left again, and the other machine is down, but still counted. -/
theorem exact_of_reaches_two : ∃ x : Config sig Failure Unit Handler (State Handler),
    x.shared.active "198.51.100.7" = some 0 ∧ x.shared.active "203.0.113.9" = some 1 ∧
      (x.shared.vms 1).down = true ∧ Exact room x := by
  let info : Json := .obj [("session_id", .str "lab-1"), ("ip", .str "172.30.0.250")]
  have hrun : (Config.playIf (respond room (.ok info)) inTurn sessions (.idle (.init []))).any
      (fun x => decide (x.shared.active "198.51.100.7" = some 0 ∧
        x.shared.active "203.0.113.9" = some 1 ∧ (x.shared.vms 1).down = true ∧
        ∀ i, Waits (x.thread i))) = true := by
    decide
  obtain ⟨x, hx, hends⟩ := (Option.any_eq_true ..).mp hrun
  obtain ⟨hleft, hcounted, hdown, hwaits⟩ := of_decide_eq_true hends
  have hreach : Reaches (exec room) (fun x m => Served room x m ∧ Smooth m) (.idle (.init [])) x :=
    reaches_of_turns (fun _ _ h => h) (fun _ _ _ _ _ _ h => smooth_respond rfl rfl h)
      (fun _ _ _ _ => trivial) (fun _ _ _ _ => trivial) (fun _ _ h => start_mem_sessions h) hx
  exact ⟨x, hleft, hcounted, hdown, exact_of_reaches hreach hwaits⟩

/-- **If the lab service cannot be asked, the client stays counted for good.** -/
theorem locked_out_for_good : ¬∀ (cfg : Settings) (x : Config sig Failure Unit Handler (State Handler)),
    Reaches (exec cfg) (Served cfg) (.idle (.init [])) x → (∀ i, Waits (x.thread i)) →
      Exact cfg x := by
  intro hall
  have hrun : (Config.playIf (respond room (.error .exception)) inTurn
      (.start .one (terminalHandler room opener) :: List.replicate 6 (.go .one)) (.idle (.init []))).any
        (fun x => decide (x.shared.active "198.51.100.7" = some 1 ∧ ∀ i, (x.thread i).isNone)) = true := by
    decide
  obtain ⟨x, hx, hends⟩ := (Option.any_eq_true ..).mp hrun
  obtain ⟨hactive, hnone⟩ := of_decide_eq_true hends
  have hnone : ∀ i, x.thread i = none := fun i => Option.isNone_iff_eq_none.mp (hnone i)
  have hreach : Reaches (exec room) (fun x m => Served room x m ∧ True) (.idle (.init [])) x := by
    refine reaches_of_turns (fun _ _ h => h) (fun _ _ _ _ _ _ _ => trivial) (fun _ _ _ _ => trivial)
      (fun _ _ _ _ => trivial) (fun i p hp => ?_) hx
    rcases List.mem_cons.mp hp with hp | hp
    · cases hp
      exact .inl ⟨opener, trivial, rfl⟩
    · cases List.eq_of_mem_replicate hp
  obtain ⟨l, -, hmem, hlength, -⟩ := (hall room x (hreach.mono fun _ _ h => h.1) fun i => by
    rw [hnone i]
    trivial).count "198.51.100.7"
  have hnil : l = [] := List.eq_nil_iff_forall_not_mem.mpr fun i hi => ((hmem i).mp hi).1 (hnone i)
  subst hnil
  rw [hactive] at hlength
  cases hlength

end Terminal
end CloudCore
