import CloudCore.LlmChat.LabRun
import Mathlib.Algebra.Order.Group.Int
import Mathlib.Data.List.Perm.Basic

/-!
# The machines of the lab

Whether a machine leaks, or is torn down twice.  A machine belongs to the run that made it, then
perhaps to the kept ones, and then to whoever takes it from there to tear it down.  A run leaves
nothing behind as long as nothing raises between the creation of its bridge and its `try`, nor
where its machine is replaced after a reboot.

## Main definitions

* `Clean`, `Promises` — what a run leaves, and what is promised.
* `Safe`, `Careful` — what must not raise.
* `Loose`, `SeenTo` — to whom a machine belongs.
* `Sound` — the invariant.

## Main results

* `owned_of_reaches` — **the promises are kept in every run in which none of it raises.**
* `leaked` — a machine that cannot be made, and a bridge that stays.
-/

namespace CloudCore
namespace LabMachines

open Effect LabRun OrderedDict
open Effect.Program (Tame Obeys Keeps tame_ret tame_call tame_bind obeys_attempt)
open Advice (Record Job)

section Promises

variable {ι : Type} [DecidableEq ι]

/-- It was torn down, once, or it is kept, or somebody has it in hand to tear it down. -/
def SeenTo (s : State ι) (m : ℕ) : Prop :=
  s.torn m = 1 ∨ (∃ e ∈ s.kept, e.2 = m) ∨ ∃ i, s.held i = some m

/-- What the runs have left. -/
structure Clean (s : State ι) : Prop where
  bridges : s.bridges = []
  machines : ∀ m < s.made, SeenTo s m

/-- Where no run is under way. -/
def Outside : Cmd → Prop
  | .parse _ | .fail _ | .report | .alternative | .die => True
  | _ => False

/-- No machine is torn down twice, nor while it is kept; the kept ones are not too many; who takes
one tears it down; and a run leaves no bridge and no machine but those. -/
structure Promises (cfg : Settings) (w : ι) (x : Config sig Unit Unit ι (State ι)) : Prop where
  once : ∀ m, x.shared.torn m ≤ 1
  untouched : ∀ e ∈ x.shared.kept, x.shared.torn e.2 = 0
  few : (x.shared.kept.length : ℤ) ≤ max 0 cfg.keepMax
  handed : ∀ i, x.thread i = none → x.shared.held i = none
  clean : (x.thread w = none ∨ ∃ c, x.next w = some c ∧ Outside c) → Clean x.shared

/-- What does not raise: what comes between the bridge and the `try`, what replaces a machine, and
the bridge's deletion. -/
def Safe : (c : Cmd) → c.Ans → Prop
  | .upBridge _, .error () | .makeVm .., .error () | .prepare _, .error ()
  | .teardown _ true, .error () | .deleteBridge .., .error () => False
  | _, _ => True

/-- An id is new where it is queued. -/
def Fresh (s : State ι) : Cmd → Prop
  | .enqueue id _ => id ∉ s.queued
  | _ => True

def Careful (x : Config sig Unit Unit ι (State ι)) : Move sig Unit Unit ι → Prop
  | .call _ c a => Safe c a ∧ Fresh x.shared c
  | _ => True

end Promises

/-! ### The invariant -/

section Sound

variable {ι : Type} [DecidableEq ι] {cfg : Settings} {w i : ι} {s s' : State ι} {c : Cmd} {a : c.Ans}
  {m : ℕ}

/-- A machine of the run. -/
structure Loose (s : State ι) (m : ℕ) : Prop where
  made : m < s.made
  torn : s.torn m = 0
  kept : ∀ e ∈ s.kept, e.2 ≠ m
  held : ∀ i, s.held i ≠ some m

structure Sound (cfg : Settings) (s : State ι) : Prop where
  order : s.taken ++ s.waiting = s.queued
  once : s.queued.Nodup
  ids : ∀ e ∈ s.kept, e.1 ∈ s.taken
  keys : (s.kept.map Prod.fst).Nodup
  machines : (s.kept.map Prod.snd).Nodup
  kept : ∀ e ∈ s.kept, e.2 < s.made ∧ s.torn e.2 = 0 ∧ ∀ i, s.held i ≠ some e.2
  held : ∀ i m, s.held i = some m → m < s.made ∧ s.torn m = 0
  alone : ∀ i j m, s.held i = some m → s.held j = some m → i = j
  torn : ∀ m, s.torn m ≤ 1
  unmade : ∀ m, s.made ≤ m → s.torn m = 0
  few : (s.kept.length : ℤ) ≤ max 0 cfg.keepMax

/-- What the threads do, and when. -/
def Allowed (cfg : Settings) (w i : ι) (s : State ι) : Cmd → Prop
  | .keep id m => i = w ∧ Loose s m ∧ id ∈ s.taken ∧ id ∉ s.kept.map Prod.fst ∧
      (s.kept.length : ℤ) < cfg.keepMax
  | .teardown m _ => s.held i = some m ∨ (i = w ∧ s.held i = none ∧ Loose s m)
  | .pop _ => s.held i = none
  | .take | .addBridge _ | .deleteBridge .. | .makeVm .. | .makeProber => i = w
  | .parse _ | .fail _ | .report | .alternative | .die => i = w ∧ Clean s
  | _ => True

/-- What concerns no more than the machines that are kept or in hand. -/
def Elsewhere : Cmd → Prop
  | .take | .addBridge _ | .deleteBridge .. | .makeVm .. | .makeProber | .keep .. => False
  | _ => True

omit [DecidableEq ι] in
theorem filter_of_not_mem {kept : List (String × ℕ)} {id : String} (h : id ∉ kept.map Prod.fst) :
    kept.filter (·.1 ≠ id) = kept :=
  List.filter_eq_self.mpr fun _ he => decide_eq_true fun heq => h (heq ▸ List.mem_map_of_mem he)

/-- What a command does with the machines that are kept, in hand, or torn down. -/
def tornAfter (s : State ι) : Cmd → ℕ → ℕ
  | .teardown m _ => Function.update s.torn m (s.torn m + 1)
  | _ => s.torn

def heldAfter (i : ι) (s : State ι) : Cmd → ι → Option ℕ
  | .teardown .. => Function.update s.held i none
  | .pop id => Function.update s.held i (s.kept.lookup id)
  | _ => s.held

omit [DecidableEq ι] in
def keptAfter (s : State ι) : Cmd → List (String × ℕ)
  | .pop id => s.kept.filter (·.1 ≠ id)
  | .keep id m => s.kept.filter (·.1 ≠ id) ++ [(id, m)]
  | _ => s.kept

/-- What becomes of the machines; only some commands do more. -/
structure Moved (i : ι) (s : State ι) (c : Cmd) (s' : State ι) : Prop where
  torn : s'.torn = tornAfter s c
  held : s'.held = heldAfter i s c
  kept : s'.kept = keptAfter s c
  made : s.made ≤ s'.made
  same : Elsewhere c → s'.made = s.made ∧ s'.bridges = s.bridges ∧ s'.taken = s.taken

theorem moved_of_exec (hx : exec cfg i s c a s') : Moved i s c s' := by
  cases c with
  | setUp =>
    cases a with
    | ok _ | error _ =>
      obtain rfl := hx
      exact ⟨rfl, rfl, rfl, le_rfl, fun _ => ⟨rfl, rfl, rfl⟩⟩
  | deleteBridge _ _ =>
    cases a with
    | ok _ | error _ =>
      obtain rfl := hx
      exact ⟨rfl, rfl, rfl, le_rfl, False.elim⟩
  | addBridge _ =>
    cases a with
    | ok _ =>
      obtain ⟨-, rfl⟩ := hx
      exact ⟨rfl, rfl, rfl, le_rfl, False.elim⟩
    | error _ =>
      obtain rfl := hx
      exact ⟨rfl, rfl, rfl, le_rfl, False.elim⟩
  | makeVm _ _ | makeProber =>
    cases a with
    | ok _ =>
      obtain ⟨-, rfl⟩ := hx
      exact ⟨rfl, rfl, rfl, Nat.le_succ _, False.elim⟩
    | error _ =>
      obtain rfl := hx
      exact ⟨rfl, rfl, rfl, le_rfl, False.elim⟩
  | take =>
    obtain ⟨-, hx⟩ := hx
    split at hx <;> obtain ⟨-, rfl⟩ := hx <;> exact ⟨rfl, rfl, rfl, le_rfl, False.elim⟩
  | surplus | pop _ =>
    obtain ⟨-, rfl⟩ := hx
    exact ⟨rfl, rfl, rfl, le_rfl, fun _ => ⟨rfl, rfl, rfl⟩⟩
  | keep _ _ =>
    obtain rfl := hx
    exact ⟨rfl, rfl, rfl, le_rfl, False.elim⟩
  | _ =>
    obtain rfl := hx
    exact ⟨rfl, rfl, rfl, le_rfl, fun _ => ⟨rfl, rfl, rfl⟩⟩

/-- What takes a machine from somebody's hands, or puts it there. -/
def Handles : Cmd → Prop
  | .pop _ | .teardown .. => True
  | _ => False

theorem Moved.held_eq (h : Moved i s c s') {j : ι} (hj : j = i → ¬Handles c) : s'.held j = s.held j := by
  rw [h.held]
  cases c with
  | pop id => exact Function.update_of_ne (fun heq => hj heq trivial) ..
  | teardown m rebooting => exact Function.update_of_ne (fun heq => hj heq trivial) ..
  | _ => rfl

theorem Moved.torn_eq (h : Moved i s c s') (hm : ∀ b, c ≠ .teardown m b) : s'.torn m = s.torn m := by
  rw [h.torn]
  cases c with
  | teardown m' rebooting =>
    refine Function.update_of_ne ?_ ..
    rintro rfl
    exact hm rebooting rfl
  | _ => rfl

theorem Moved.kept_sublist (h : Moved i s c s') (hc : ∀ id m, c ≠ .keep id m) :
    s'.kept.Sublist s.kept := by
  rw [h.kept]
  cases c with
  | pop id => exact List.filter_sublist
  | keep id m => exact absurd rfl (hc id m)
  | _ => exact .refl _

/-- **What is seen to stays so.** -/
theorem SeenTo.moved (h : SeenTo s m) (hs : Sound cfg s) (hmoved : Moved i s c s')
    (hallowed : Allowed cfg w i s c) : SeenTo s' m := by
  by_cases htear : ∃ b, c = .teardown m b
  · -- then it was in hand: what was torn down, or is kept, is not torn down
    obtain ⟨b, rfl⟩ := htear
    refine .inl ?_
    have hzero : s.torn m = 0 := by
      rcases hallowed with hheld | ⟨-, -, hloose⟩
      · exact (hs.held i m hheld).2
      · exact hloose.torn
    rw [hmoved.torn]
    exact (Function.update_self ..).trans (congrArg (· + 1) hzero)
  rcases h with htorn | ⟨e, he, rfl⟩ | ⟨j, hj⟩
  · exact .inl ((hmoved.torn_eq fun b heq => htear ⟨b, heq⟩).trans htorn)
  · by_cases hpop : c = .pop e.1
    · subst hpop
      refine .inr (.inr ⟨i, ?_⟩)
      rw [hmoved.held]
      exact (Function.update_self ..).trans (lookup_of_mem hs.keys he)
    · refine .inr (.inl ⟨e, ?_, rfl⟩)
      rw [hmoved.kept]
      cases c with
      | pop id => exact List.mem_filter.mpr ⟨he, decide_eq_true fun heq => hpop (heq ▸ rfl)⟩
      | keep id m =>
        refine List.mem_append_left _ ?_
        rwa [filter_of_not_mem hallowed.2.2.2.1]
      | _ => exact he
  · by_cases heq : j = i ∧ Handles c
    · obtain ⟨rfl, hc⟩ := heq
      cases c with
      | pop id => exact absurd (hj.symm.trans hallowed) nofun
      | teardown m' b =>
        rcases hallowed with hheld | ⟨-, hnone, -⟩
        · obtain rfl := Option.some.inj (hj.symm.trans hheld)
          exact absurd ⟨b, rfl⟩ htear
        · exact absurd (hj.symm.trans hnone) nofun
      | _ => exact hc.elim
    · refine .inr (.inr ⟨j, ?_⟩)
      rw [hmoved.held_eq fun hji hc => heq ⟨hji, hc⟩]
      exact hj

theorem Loose.moved (h : Loose s m) (hmoved : Moved i s c s') (htear : ∀ b, c ≠ .teardown m b)
    (hkeep : ∀ id, c ≠ .keep id m) : Loose s' m where
  made := Nat.lt_of_lt_of_le h.made hmoved.made
  torn := (hmoved.torn_eq htear).trans h.torn
  kept e he := by
    rw [hmoved.kept] at he
    cases c with
    | pop id => exact h.kept e (List.mem_filter.mp he).1
    | keep id m' =>
      rcases List.mem_append.mp he with he | he
      · exact h.kept e (List.mem_filter.mp he).1
      · obtain rfl := List.mem_singleton.mp he
        rintro rfl
        exact hkeep id rfl
    | _ => exact h.kept e he
  held j := by
    by_cases heq : j = i ∧ Handles c
    · obtain ⟨rfl, hc⟩ := heq
      rw [hmoved.held]
      cases c with
      | pop id =>
        dsimp only [heldAfter]
        rw [Function.update_self]
        exact fun hlookup => h.kept _ (mem_of_lookup hlookup) rfl
      | teardown m' b =>
        dsimp only [heldAfter]
        rw [Function.update_self]
        nofun
      | _ => exact hc.elim
    · rw [hmoved.held_eq fun hji hc => heq ⟨hji, hc⟩]
      exact h.held j

theorem queue_of_exec (hx : exec cfg i s c a s') (hfresh : Fresh s c) (hs : Sound cfg s) :
    s'.taken ++ s'.waiting = s'.queued ∧ s'.queued.Nodup ∧ s.taken ⊆ s'.taken := by
  cases c with
  | enqueue id job =>
    obtain rfl := hx
    refine ⟨?_, List.nodup_append.mpr ⟨hs.once, List.nodup_singleton id, fun id' hid' _ hid heq =>
      hfresh (List.mem_singleton.mp hid ▸ heq ▸ hid')⟩, fun _ h => h⟩
    rw [← hs.order, List.append_assoc]
  | take =>
    obtain ⟨-, hx⟩ := hx
    split at hx
    · obtain ⟨-, rfl⟩ := hx
      exact ⟨hs.order, hs.once, fun _ h => h⟩
    · next id rest hwaiting =>
      obtain ⟨-, rfl⟩ := hx
      refine ⟨?_, hs.once, List.subset_append_left _ _⟩
      rw [← hs.order, hwaiting, List.append_assoc]
      rfl
  | setUp | deleteBridge _ _ =>
    cases a with
    | ok _ | error _ =>
      obtain rfl := hx
      exact ⟨hs.order, hs.once, fun _ h => h⟩
  | addBridge _ | makeVm _ _ | makeProber =>
    cases a with
    | ok _ =>
      obtain ⟨-, rfl⟩ := hx
      exact ⟨hs.order, hs.once, fun _ h => h⟩
    | error _ =>
      obtain rfl := hx
      exact ⟨hs.order, hs.once, fun _ h => h⟩
  | surplus | pop _ =>
    obtain ⟨-, rfl⟩ := hx
    exact ⟨hs.order, hs.once, fun _ h => h⟩
  | _ =>
    obtain rfl := hx
    exact ⟨hs.order, hs.once, fun _ h => h⟩

omit [DecidableEq ι] in
/-- What is torn down was not, and is not kept. -/
theorem Sound.tearable (hs : Sound cfg s) {b : Bool} (h : Allowed cfg w i s (.teardown m b)) :
    m < s.made ∧ s.torn m = 0 ∧ ∀ e ∈ s.kept, e.2 ≠ m := by
  rcases h with hheld | ⟨-, -, hloose⟩
  · obtain ⟨hmade, htorn⟩ := hs.held i m hheld
    exact ⟨hmade, htorn, fun e he heq => (hs.kept e he).2.2 i (heq ▸ hheld)⟩
  · exact ⟨hloose.made, hloose.torn, hloose.kept⟩

omit [DecidableEq ι] in
theorem Sound.eq_of_machine (hs : Sound cfg s) {e e' : String × ℕ} (he : e ∈ s.kept) (he' : e' ∈ s.kept)
    (h : e.2 = e'.2) : e = e' :=
  List.inj_on_of_nodup_map hs.machines he he' h

/-- A machine that stays kept is not touched. -/
theorem Sound.kept_moved (hs : Sound cfg s) (hmoved : Moved i s c s')
    (hallowed : Allowed cfg w i s c) {e : String × ℕ} (he : e ∈ s.kept) (hpop : c ≠ .pop e.1) :
    e.2 < s'.made ∧ s'.torn e.2 = 0 ∧ ∀ j, s'.held j ≠ some e.2 := by
  obtain ⟨hmade, htorn, hheld⟩ := hs.kept e he
  refine ⟨Nat.lt_of_lt_of_le hmade hmoved.made, ?_, fun j => ?_⟩
  · rw [hmoved.torn_eq fun b heq => ?_, htorn]
    subst heq
    exact (hs.tearable hallowed).2.2 e he rfl
  · rw [hmoved.held]
    by_cases hj : j = i
    · subst hj
      cases c with
      | pop id =>
        dsimp only [heldAfter]
        rw [Function.update_self]
        intro hlookup
        have heq := hs.eq_of_machine he (mem_of_lookup hlookup) rfl
        exact hpop (congrArg Cmd.pop (congrArg Prod.fst heq).symm)
      | teardown m b =>
        dsimp only [heldAfter]
        rw [Function.update_self]
        nofun
      | _ => exact hheld j
    · rw [← hmoved.held, hmoved.held_eq fun hji => absurd hji hj]
      exact hheld j

theorem Sound.held_moved (hs : Sound cfg s) (hmoved : Moved i s c s') (hallowed : Allowed cfg w i s c)
    {j : ι} (hj : s'.held j = some m) :
    (s.held j = some m ∧ ∀ b, c ≠ .teardown m b) ∨
      (j = i ∧ ∃ id, c = .pop id ∧ (id, m) ∈ s.kept) := by
  by_cases heq : j = i ∧ Handles c
  · obtain ⟨rfl, hc⟩ := heq
    rw [hmoved.held] at hj
    cases c with
    | pop id =>
      dsimp only [heldAfter] at hj
      rw [Function.update_self] at hj
      exact .inr ⟨rfl, id, rfl, mem_of_lookup hj⟩
    | teardown m' b =>
      dsimp only [heldAfter] at hj
      rw [Function.update_self] at hj
      cases hj
    | _ => exact hc.elim
  · rw [hmoved.held_eq fun hji hc => heq ⟨hji, hc⟩] at hj
    refine .inl ⟨hj, ?_⟩
    rintro b rfl
    rcases hallowed with hheld | ⟨-, -, hloose⟩
    · exact heq ⟨hs.alone j i m hj hheld, trivial⟩
    · exact hloose.held j hj

omit [DecidableEq ι] in
theorem nodup_keptAfter {α : Type} (f : String × ℕ → α) (h : (s.kept.map f).Nodup)
    (hnew : ∀ id m, c = .keep id m → ∀ e ∈ s.kept, f e ≠ f (id, m)) :
    ((keptAfter s c).map f).Nodup := by
  cases c with
  | pop id => exact (List.filter_sublist.map f).nodup h
  | keep id m =>
    dsimp only [keptAfter]
    rw [List.map_append, List.nodup_append]
    refine ⟨(List.filter_sublist.map f).nodup h, List.nodup_singleton _, ?_⟩
    rintro _ hold _ hmem rfl
    obtain ⟨e, he, heq⟩ := List.mem_map.mp hold
    exact hnew id m rfl e (List.mem_filter.mp he).1 (heq.trans (List.mem_singleton.mp hmem))
  | _ => exact h

theorem Sound.step (hs : Sound cfg s) (hx : exec cfg i s c a s') (hfresh : Fresh s c)
    (hallowed : Allowed cfg w i s c) : Sound cfg s' := by
  have hmoved := moved_of_exec hx
  obtain ⟨horder, honce, htaken⟩ := queue_of_exec hx hfresh hs
  refine ⟨horder, honce, ?_, ?_, ?_, ?_, ?_, ?_, ?_, ?_, ?_⟩
  · intro e he
    rw [hmoved.kept] at he
    cases c with
    | pop id => exact htaken (hs.ids e (List.mem_filter.mp he).1)
    | keep id m =>
      rcases List.mem_append.mp he with he | he
      · exact htaken (hs.ids e (List.mem_filter.mp he).1)
      · obtain rfl := List.mem_singleton.mp he
        exact htaken hallowed.2.2.1
    | _ => exact htaken (hs.ids e he)
  · rw [hmoved.kept]
    refine nodup_keptAfter _ hs.keys ?_
    rintro id m rfl e he heq
    exact hallowed.2.2.2.1 (List.mem_map.mpr ⟨e, he, heq⟩)
  · rw [hmoved.kept]
    refine nodup_keptAfter _ hs.machines ?_
    rintro id m rfl e he heq
    exact hallowed.2.1.kept e he heq
  · intro e he
    rw [hmoved.kept] at he
    cases c with
    | pop id =>
      obtain ⟨hmem, hne⟩ := List.mem_filter.mp he
      exact hs.kept_moved hmoved hallowed hmem fun heq =>
        of_decide_eq_true hne (Cmd.pop.inj heq).symm
    | keep id m =>
      rcases List.mem_append.mp he with he | he
      · exact hs.kept_moved hmoved hallowed (List.mem_filter.mp he).1 nofun
      · obtain rfl := List.mem_singleton.mp he
        obtain ⟨hmade, htorn, -, hheld⟩ := hallowed.2.1
        refine ⟨Nat.lt_of_lt_of_le hmade hmoved.made, (hmoved.torn_eq nofun).trans htorn, fun j => ?_⟩
        rw [hmoved.held]
        exact hheld j
    | _ => exact hs.kept_moved hmoved hallowed he nofun
  · intro j m hj
    rcases hs.held_moved hmoved hallowed hj with ⟨hheld, htear⟩ | ⟨-, id, rfl, hmem⟩
    · obtain ⟨hmade, htorn⟩ := hs.held j m hheld
      exact ⟨Nat.lt_of_lt_of_le hmade hmoved.made, (hmoved.torn_eq htear).trans htorn⟩
    · obtain ⟨hmade, htorn, -⟩ := hs.kept _ hmem
      exact ⟨Nat.lt_of_lt_of_le hmade hmoved.made, (hmoved.torn_eq nofun).trans htorn⟩
  · intro j j' m hj hj'
    rcases hs.held_moved hmoved hallowed hj with ⟨hheld, -⟩ | ⟨rfl, id, rfl, hmem⟩
    · rcases hs.held_moved hmoved hallowed hj' with ⟨hheld', -⟩ | ⟨-, id, -, hmem⟩
      · exact hs.alone j j' m hheld hheld'
      · exact absurd hheld ((hs.kept _ hmem).2.2 j)
    · rcases hs.held_moved hmoved hallowed hj' with ⟨hheld', -⟩ | ⟨rfl, -⟩
      · exact absurd hheld' ((hs.kept _ hmem).2.2 j')
      · rfl
  · intro m
    by_cases htear : ∃ b, c = .teardown m b
    · obtain ⟨b, rfl⟩ := htear
      rw [hmoved.torn, tornAfter, Function.update_self, (hs.tearable hallowed).2.1]
    · rw [hmoved.torn_eq fun b heq => htear ⟨b, heq⟩]
      exact hs.torn m
  · intro m hm
    rw [hmoved.torn_eq]
    · exact hs.unmade m (Nat.le_trans hmoved.made hm)
    · rintro b rfl
      exact absurd (hs.tearable hallowed).1 (Nat.not_lt.mpr (Nat.le_trans hmoved.made hm))
  · rw [hmoved.kept]
    cases c with
    | pop id => exact le_trans (Int.ofNat_le.mpr (List.length_filter_le ..)) hs.few
    | keep id m =>
      dsimp only [keptAfter]
      rw [filter_of_not_mem hallowed.2.2.2.1, List.length_append, List.length_singleton]
      have hroom := hallowed.2.2.2.2
      omega
    | _ => exact hs.few

end Sound

/-! ### What a run has -/

section Run

variable {ι : Type} [DecidableEq ι] {cfg : Settings} {w i : ι} {s s' : State ι} {c : Cmd} {a : c.Ans}
  {m : ℕ} {own bs : List ℕ} {who : Who}

/-- What the others leave, who take only kept machines. -/
structure Beside (s s' : State ι) : Prop where
  made : s'.made = s.made
  bridges : s'.bridges = s.bridges
  taken : s'.taken = s.taken
  kept : s'.kept.Sublist s.kept
  loose : ∀ m, Loose s m → Loose s' m
  seenTo : ∀ m, SeenTo s m → SeenTo s' m

def Rely (w i : ι) (s s' : State ι) : Prop := s'.held i = s.held i ∧ (i = w → Beside s s')

/-- The commands, where none of it raises. -/
def Sem (cfg : Settings) (i : ι) (s : State ι) (c : Cmd) (a : c.Ans) (s' : State ι) : Prop :=
  exec cfg i s c a s' ∧ (Safe c a ∧ Fresh s c) ∧ Sound cfg s

def Guar (cfg : Settings) (w i : ι) (s : State ι) (c : Cmd) (a : c.Ans) (s' : State ι) : Prop :=
  Sem cfg i s c a s' ∧ Allowed cfg w i s c

/-- The run has the machines `own` and the bridges `bs`; the others are seen to. -/
structure Has (w : ι) (own bs : List ℕ) (s : State ι) : Prop where
  held : s.held w = none
  loose : ∀ m ∈ own, Loose s m
  apart : own.Nodup
  rest : ∀ m < s.made, m ∈ own ∨ SeenTo s m
  bridges : s.bridges = bs

/-- There is room for the machine of an answer. -/
def Slot (cfg : Settings) (who : Who) (s : State ι) : Prop :=
  ∀ id job, who = .answer id job →
    id ∈ s.taken ∧ id ∉ s.kept.map Prod.fst ∧ (s.kept.length : ℤ) ≤ max 0 (cfg.keepMax - 1)

/-- What concerns no machine, and no end of a run. -/
def Plain : Cmd → Prop
  | .setUp | .enqueue .. | .surplus | .due | .examine _ | .upBridge _ | .prepare _ | .call
  | .waitExit | .lines .. | .store .. | .setAttempts .. => True
  | _ => False

omit [DecidableEq ι] in
theorem Beside.trans {s'' : State ι} (h : Beside s s') (h' : Beside s' s'') : Beside s s'' where
  made := h'.made.trans h.made
  bridges := h'.bridges.trans h.bridges
  taken := h'.taken.trans h.taken
  kept := h'.kept.trans h.kept
  loose m hm := h'.loose m (h.loose m hm)
  seenTo m hm := h'.seenTo m (h.seenTo m hm)

omit [DecidableEq ι] in
theorem Beside.refl (s : State ι) : Beside s s :=
  ⟨rfl, rfl, rfl, .refl _, fun _ h => h, fun _ h => h⟩

theorem beside_of_moved (hs : Sound cfg s) (hmoved : Moved i s c s') (hallowed : Allowed cfg w i s c)
    (hc : Elsewhere c) (htear : ∀ m b, c = .teardown m b → s.held i = some m) : Beside s s' := by
  obtain ⟨hmade, hbridges, htaken⟩ := hmoved.same hc
  refine ⟨hmade, hbridges, htaken, hmoved.kept_sublist ?_, fun m hm => ?_,
    fun m hm => hm.moved hs hmoved hallowed⟩
  · rintro id m rfl
    exact hc
  · refine hm.moved hmoved (fun b heq => hm.held i (htear m b heq)) ?_
    rintro id rfl
    exact hc

omit [DecidableEq ι] in
theorem Has.rely (h : Has w own bs s) (hR : Rely w w s s') : Has w own bs s' := by
  obtain ⟨hheld, hb⟩ := hR
  have hb := hb rfl
  exact ⟨hheld.trans h.held, fun m hm => hb.loose m (h.loose m hm), h.apart,
    fun m hm => (h.rest m (hb.made ▸ hm)).imp_right (hb.seenTo m), hb.bridges.trans h.bridges⟩

omit [DecidableEq ι] in
theorem Slot.rely (h : Slot cfg who s) (hR : Rely w w s s') : Slot cfg who s' := by
  rintro id job rfl
  obtain ⟨hid, hnot, hroom⟩ := h id job rfl
  have hb := hR.2 rfl
  refine ⟨hb.taken ▸ hid, fun hmem => hnot ((hb.kept.map _).subset hmem), ?_⟩
  exact le_trans (Int.ofNat_le.mpr hb.kept.length_le) hroom

omit [DecidableEq ι] in
theorem allowed_of_plain (hc : Plain c) : Allowed cfg w i s c := by
  cases c with
  | setUp | enqueue _ _ | surplus | due | examine _ | upBridge _ | prepare _ | call | waitExit
  | lines _ _ | store _ _ _ | setAttempts _ _ => trivial
  | _ => exact hc.elim

theorem rely_of_plain (hs : Sound cfg s) (hx : exec cfg w s c a s') (hc : Plain c) : Rely w w s s' := by
  have hmoved := moved_of_exec hx
  have hallowed : Allowed cfg w w s c := allowed_of_plain hc
  have hother : Elsewhere c ∧ ¬Handles c := by
    cases c with
    | setUp | enqueue _ _ | surplus | due | examine _ | upBridge _ | prepare _ | call | waitExit
    | lines _ _ | store _ _ _ | setAttempts _ _ => exact ⟨trivial, id⟩
    | _ => exact hc.elim
  refine ⟨hmoved.held_eq fun _ => hother.2, fun _ => ?_⟩
  refine beside_of_moved hs hmoved hallowed hother.1 ?_
  rintro m b rfl
  exact absurd trivial hother.2

omit [DecidableEq ι] in
/-- A machine is made. -/
theorem Has.make (h : Has w own bs s) (hs : Sound cfg s) :
    Has w (s.made :: own) bs { s with made := s.made + 1 } := by
  have hnew : Loose { s with made := s.made + 1 } s.made := by
    refine ⟨Nat.lt_succ_self _, hs.unmade _ le_rfl, fun e he heq => ?_, fun i hi => ?_⟩
    · exact Nat.lt_irrefl _ (heq ▸ (hs.kept e he).1)
    · exact Nat.lt_irrefl _ (hs.held i _ hi).1
  refine ⟨h.held, fun m hm => ?_, List.nodup_cons.mpr ⟨fun hmem => ?_, h.apart⟩, fun m hm => ?_,
    h.bridges⟩
  · rcases List.mem_cons.mp hm with rfl | hm
    · exact hnew
    · obtain ⟨hmade, htorn, hkept, hheld⟩ := h.loose m hm
      exact ⟨Nat.lt_succ_of_lt hmade, htorn, hkept, hheld⟩
  · exact Nat.lt_irrefl _ (h.loose _ hmem).made
  · rcases Nat.lt_succ_iff_lt_or_eq.mp hm with hm | rfl
    · exact (h.rest m hm).imp_left (List.mem_cons_of_mem _)
    · exact .inl List.mem_cons_self

/-- **A machine of the run is torn down.** -/
theorem Has.tear (h : Has w (m :: own) bs s) (hs : Sound cfg s) {b : Bool} {a : Except Unit Unit}
    (hx : exec cfg w s (.teardown m b) a s') : Has w own bs s' := by
  have hmoved := moved_of_exec hx
  have hm : Loose s m := h.loose m List.mem_cons_self
  have hallowed : Allowed cfg w w s (.teardown m b) := .inr ⟨rfl, h.held, hm⟩
  obtain ⟨hnot, hapart⟩ := List.nodup_cons.mp h.apart
  obtain ⟨hmade, hbridges, -⟩ := hmoved.same trivial
  refine ⟨?_, fun m' hm' => ?_, hapart, fun m' hm' => ?_, hbridges.trans h.bridges⟩
  · rw [hmoved.held]
    exact Function.update_self ..
  · refine (h.loose m' (List.mem_cons_of_mem _ hm')).moved hmoved (fun b' heq => ?_) nofun
    cases heq
    exact hnot hm'
  · rcases h.rest m' (hmade ▸ hm') with hmem | hseen
    · rcases List.mem_cons.mp hmem with rfl | hmem
      · refine .inr (.inl ?_)
        rw [hmoved.torn, tornAfter, Function.update_self, hm.torn]
      · exact .inl hmem
    · exact .inr (hseen.moved hs hmoved hallowed)

/-- **It is kept.** -/
theorem Has.keep (h : Has w (m :: own) bs s) (hs : Sound cfg s) {id : String} {a : Unit}
    (hallowed : Allowed cfg w w s (.keep id m)) (hx : exec cfg w s (.keep id m) a s') :
    Has w own bs s' := by
  have hmoved := moved_of_exec hx
  obtain ⟨hnot, hapart⟩ := List.nodup_cons.mp h.apart
  obtain rfl := hx
  refine ⟨h.held, fun m' hm' => ?_, hapart, fun m' hm' => ?_, h.bridges⟩
  · refine (h.loose m' (List.mem_cons_of_mem _ hm')).moved hmoved nofun fun id' heq => ?_
    cases heq
    exact hnot hm'
  · rcases h.rest m' hm' with hmem | hseen
    · rcases List.mem_cons.mp hmem with rfl | hmem
      · exact .inr (.inr (.inl ⟨(id, m'), List.mem_append_right _ (List.mem_singleton_self _), rfl⟩))
      · exact .inl hmem
    · exact .inr (hseen.moved hs hmoved hallowed)

end Run

/-! ### A run -/

section Advice

variable {ι : Type} [DecidableEq ι] {cfg : Settings} {w : ι} {s s' : State ι} {m b : ℕ}
  {own bs : List ℕ} {who : Who} {plan : Plan} {l : Locals}

def lwp (cfg : Settings) (w : ι) {α : Type} (p : Code α) (Q : α → State ι → Prop)
    (E : Unit → State ι → Prop) (s : State ι) : Prop :=
  p.wp (Sem cfg w) (Rely w w) (Guar cfg w w) Q E s

/-- Nothing is asked of the answers. -/
def Any (c : Cmd) (_ : c.Ans) : Prop := True

/-- The machines of a run in its `try`. -/
def ownOf (l : Locals) : List ℕ := (if l.kept then [] else [l.vm]) ++ l.prober.toList

/-- In the `try` of a run whose bridge is `b`. -/
def Mid (cfg : Settings) (w : ι) (who : Who) (b : ℕ) (l : Locals) (s : State ι) : Prop :=
  Has w (ownOf l) [b] s ∧ Slot cfg who s

/-- The rest of the `try`, from there. -/
def Goes (cfg : Settings) (w : ι) (who : Who) (b : ℕ) (l : Locals) (k : Code (Locals × Ending)) : Prop :=
  ∀ s, Mid cfg w who b l s → lwp cfg w k (fun r => Has w (ownOf r.1) [b]) (fun _ _ => False) s

theorem plain_of_acts {c : Cmd} (hc : Acts who c) : Plain c := by
  cases c with
  | store _ _ _ | lines _ _ | call | setAttempts _ _ => trivial
  | _ => exact hc.elim

theorem keeps_plain {J : State ι → Prop} (hJ : ∀ s s', Rely w w s s' → J s → J s') :
    Keeps (F := sig) (Sem cfg w) (Rely w w) (Guar cfg w w) Any Plain J where
  stable := hJ
  told _ _ _ _ _ _ := trivial
  step s _ _ s' hs hx hc :=
    ⟨⟨hx, allowed_of_plain hc⟩, hJ s s' (rely_of_plain hx.2.2 hx.1 hc) hs⟩

omit [DecidableEq ι] in
theorem Mid.rely (s s' : State ι) (hR : Rely w w s s') (h : Mid cfg w who b l s) :
    Mid cfg w who b l s' :=
  ⟨h.1.rely hR, h.2.rely hR⟩

theorem goes_orElse {failed : Bool} {p : Code Bool} {k : Code (Locals × Ending)}
    (hp : p.Tame Any (Acts who)) (hk : Goes cfg w who b l k) :
    Goes cfg w who b l (orElse l failed p k) := by
  intro s h
  have hplain : p.Tame Any Plain := hp.mono (fun _ _ h => h) fun _ => plain_of_acts
  refine (Program.wp_bind _ _).mpr (Program.wp_mono (fun ok s h => ?_) (fun _ _ h => h)
    (hplain.keeps (keeps_plain Mid.rely) h))
  cases ok with
  | true => exact hk s h
  | false => exact h.1

theorem goes_offer (hl : l.kept = false) : Goes cfg w who b l (offer cfg who plan l) := by
  intro s h
  cases who with
  | alternative id => exact h.1
  | answer id job =>
    dsimp only [offer]
    split
    · exact h.1
    · next hkeep =>
      intro s₁ hR a s₂ hx
      obtain ⟨hhas, hslot⟩ := Mid.rely s s₁ hR h
      rw [ownOf, hl] at hhas
      obtain ⟨hid, hnot, hroom⟩ := hslot id job rfl
      have hallowed : Allowed cfg w w s₁ (.keep id l.vm) := by
        refine ⟨rfl, hhas.loose _ List.mem_cons_self, hid, hnot, ?_⟩
        have hmax : ¬cfg.keepMax ≤ 0 := fun hle => hkeep (.inr (.inl hle))
        omega
      exact ⟨⟨hx, hallowed⟩, hhas.keep hx.2.2 hallowed hx.1⟩

theorem goes_judge (hl : l.kept = false) : Goes cfg w who b l (judge cfg who plan l) :=
  goes_orElse (tame_perform _) (goes_orElse (tame_perform _) (goes_offer hl))

/-- **The machine that is replaced is torn down once,** and there is a new one. -/
theorem goes_replaceVm (hl : l.kept = false) {k : Locals → Code (Locals × Ending)}
    (hk : ∀ l, l.kept = false → Goes cfg w who b l (k l)) :
    Goes cfg w who b l (replaceVm who l k) := by
  refine goes_orElse tame_called fun s h s₁ hR a s₂ hx => ?_
  obtain ⟨hhas, hslot⟩ := Mid.rely s s₁ hR h
  rw [ownOf, hl] at hhas
  refine ⟨⟨hx, .inr ⟨rfl, hhas.held, hhas.loose _ List.mem_cons_self⟩⟩, ?_⟩
  cases a with
  | error _ => exact hx.2.1.1.elim
  | ok _ =>
    have hhas₂ : Has w l.prober.toList [b] s₂ := hhas.tear hx.2.2 hx.1
    have hslot₂ : Slot cfg who s₂ := by
      obtain rfl := hx.1
      exact hslot
    intro s₃ hR' a s₄ hx'
    have hhas₃ := hhas₂.rely hR'
    have hslot₃ := hslot₂.rely hR'
    refine ⟨⟨hx', rfl⟩, ?_⟩
    cases a with
    | error _ => exact hx'.2.1.1.elim
    | ok vm =>
      obtain ⟨⟨rfl, rfl⟩, -, hsound⟩ := hx'
      refine goes_orElse (l := { l with vm := s₃.made }) (tame_perform _) (hk _ hl) _ ⟨?_, hslot₃⟩
      rw [ownOf, if_neg (by rw [hl]; nofun)]
      exact hhas₃.make hsound

theorem goes_followSteps (steps : List Step) (hl : l.kept = false) :
    Goes cfg w who b l (followSteps cfg who plan steps l) := by
  induction steps generalizing l with
  | nil => exact goes_judge hl
  | cons step steps ih =>
    cases step with
    | acts acts => exact goes_orElse (tame_perform _) (ih hl)
    | reboot acts =>
      refine goes_orElse (tame_perform _) fun s h s₁ hR a s₂ hx => ⟨⟨hx, trivial⟩, ?_⟩
      have h₁ := Mid.rely s s₁ hR h
      obtain ⟨rfl, -⟩ := hx
      match a with
      | .error () => exact h₁.1
      | .ok false => exact h₁.1
      | .ok true =>
        dsimp only
        split
        · exact goes_orElse (tame_perform _) (ih hl) _ h₁
        · exact goes_replaceVm hl (fun _ hl => ih hl) _ h₁

theorem goes_withProber {vm : ℕ} {k : Locals → Code (Locals × Ending)}
    (hk : ∀ l, l.kept = false → Goes cfg w who b l (k l)) :
    Goes cfg w who b ⟨vm, none, false⟩ (withProber who plan ⟨vm, none, false⟩ k) := by
  unfold withProber
  split
  · refine goes_orElse (tame_perform _) fun s h s₁ hR a s₂ hx => ⟨⟨hx, rfl⟩, ?_⟩
    obtain ⟨hhas, hslot⟩ := Mid.rely s s₁ hR h
    cases a with
    | error _ =>
      obtain ⟨rfl, -⟩ := hx
      exact hhas
    | ok prober =>
      obtain ⟨⟨rfl, rfl⟩, -, hsound⟩ := hx
      refine goes_orElse (l := ⟨vm, some s₁.made, false⟩) (tame_perform _) (hk _ rfl) _ ⟨?_, hslot⟩
      obtain ⟨hheld, hloose, hapart, hrest, hbridges⟩ := hhas.make hsound
      have hperm : [s₁.made, vm].Perm [vm, s₁.made] := List.Perm.swap ..
      exact ⟨hheld, fun m hm => hloose m (hperm.mem_iff.mpr hm), hperm.nodup_iff.mp hapart,
        fun m hm => (hrest m hm).imp_left hperm.mem_iff.mp, hbridges⟩
  · exact hk _ rfl

/-- **The `try` of a run,** wherever it ends. -/
theorem goes_body {vm : ℕ} : Goes cfg w who b ⟨vm, none, false⟩ (body cfg who plan vm) := by
  refine goes_orElse (tame_perform _) (goes_withProber fun l hl => ?_)
  exact goes_orElse (tame_perform _) (goes_followSteps _ hl)

theorem lwp_tearDown (h : Has w (m :: own) bs s) :
    lwp cfg w (tearDown m) (fun _ => Has w own bs) (fun _ _ => False) s := by
  intro s₁ hR a s₂ hx
  have h₁ := h.rely hR
  exact ⟨⟨hx, .inr ⟨rfl, h₁.held, h₁.loose _ List.mem_cons_self⟩⟩, h₁.tear hx.2.2 hx.1⟩

theorem lwp_tearDownTarget (h : Has w (ownOf l) bs s) :
    lwp cfg w (tearDownTarget l) (fun _ => Has w l.prober.toList bs) (fun _ _ => False) s := by
  unfold ownOf at h
  unfold tearDownTarget
  split at h <;> rename_i hkept
  · rw [if_pos hkept]
    exact h
  · rw [if_neg hkept]
    exact lwp_tearDown h

theorem lwp_tearDownProber {prober : Option ℕ} (h : Has w prober.toList bs s) :
    lwp cfg w (tearDownProber prober) (fun _ => Has w [] bs) (fun _ _ => False) s := by
  cases prober with
  | none => exact h
  | some m => exact lwp_tearDown h

/-- What a publication leaves. -/
theorem lwp_publish {inside : Bool} {status : String} (h : Has w own bs s) :
    lwp cfg w (publish who inside status) (fun _ => Has w own bs) (fun _ => Has w own bs) s :=
  (obeys_publish.mono (fun _ _ h => h) fun _ => plain_of_acts).keeps
    (keeps_plain fun _ _ hR h => Has.rely h hR) h

/-- **`finally` leaves nothing.** -/
theorem lwp_cleanUp {status : String} (h : Has w (ownOf l) [b] s) :
    lwp cfg w (cleanUp who b l status) (fun _ => Has w [] []) (fun _ => Has w [] []) s := by
  refine (Program.wp_bind _ _).mpr (Program.wp_mono (fun _ s h => ?_) (fun _ _ h => h.elim)
    (lwp_tearDownTarget h))
  refine (Program.wp_bind _ _).mpr (Program.wp_mono (fun _ s h => ?_) (fun _ _ h => h.elim)
    (lwp_tearDownProber h))
  intro s₁ hR a s₂ hx
  have h₁ := h.rely hR
  refine ⟨⟨hx, rfl⟩, ?_⟩
  cases a with
  | error _ => exact hx.2.1.1.elim
  | ok _ =>
    obtain ⟨rfl, -⟩ := hx
    refine lwp_publish ⟨h₁.held, nofun, List.nodup_nil, h₁.rest, ?_⟩
    dsimp only
    rw [h₁.bridges, List.erase_cons_head]

theorem lwp_conclude (ending : Ending) (h : Has w (ownOf l) [b] s) :
    lwp cfg w (conclude who b l ending) (fun _ => Has w [] []) (fun _ => Has w [] []) s := by
  cases ending with
  | done failed =>
    exact (Program.wp_bind _ _).mpr (lwp_cleanUp h)
  | raised failed =>
    exact (Program.wp_bind _ _).mpr (lwp_cleanUp h)
  | lost =>
    refine (Program.wp_bind _ _).mpr ((Program.wp_tryCatch _ _).mpr ?_)
    refine Program.wp_mono (fun _ s h => ?_) (fun e s h => ?_) (lwp_publish h)
    · exact (Program.wp_bind _ _).mpr (lwp_cleanUp h)
    · exact (Program.wp_bind _ _).mpr (lwp_cleanUp h)

/-- What comes between the bridge and the `try` does not raise. -/
theorem lwp_tested (h : Has w [] [] s) (hslot : Slot cfg who s) :
    lwp cfg w (tested cfg who plan) (fun _ => Has w [] []) (fun _ => Has w [] []) s := by
  intro s₁ hR a s₂ hx
  have h₁ := h.rely hR
  have hslot₁ := hslot.rely hR
  refine ⟨⟨hx, rfl⟩, ?_⟩
  cases a with
  | error _ =>
    obtain ⟨rfl, -⟩ := hx
    exact h₁
  | ok b =>
    obtain ⟨⟨rfl, rfl⟩, -, -⟩ := hx
    have h₂ : Has w [] [s₁.bridge]
        { s₁ with bridge := s₁.bridge + 1, bridges := s₁.bridge :: s₁.bridges } :=
      ⟨h₁.held, nofun, h₁.apart, h₁.rest, by rw [h₁.bridges]⟩
    have hslot₂ : Slot cfg who
        { s₁ with bridge := s₁.bridge + 1, bridges := s₁.bridge :: s₁.bridges } := hslot₁
    -- the link is up
    intro s₃ hR₃ a s₄ hx
    have h₃ := h₂.rely hR₃
    have hslot₃ := hslot₂.rely hR₃
    refine ⟨⟨hx, trivial⟩, ?_⟩
    cases a with
    | error _ => exact hx.2.1.1.elim
    | ok _ =>
    obtain ⟨rfl, -⟩ := hx
    -- the machine is made
    intro s₅ hR₅ a s₆ hx
    have h₅ := h₃.rely hR₅
    have hslot₅ := hslot₃.rely hR₅
    refine ⟨⟨hx, rfl⟩, ?_⟩
    cases a with
    | error _ => exact hx.2.1.1.elim
    | ok vm =>
    obtain ⟨⟨rfl, rfl⟩, -, hsound⟩ := hx
    have h₆ := h₅.make hsound
    have hslot₆ : Slot cfg who { s₅ with made := s₅.made + 1 } := hslot₅
    -- and prepared
    intro s₇ hR₇ a s₈ hx
    have h₇ := h₆.rely hR₇
    have hslot₇ := hslot₆.rely hR₇
    refine ⟨⟨hx, trivial⟩, ?_⟩
    cases a with
    | error _ => exact hx.2.1.1.elim
    | ok _ =>
    obtain ⟨rfl, -⟩ := hx
    change lwp cfg w (body cfg who plan s₅.made >>= fun r => conclude who s₁.bridge r.1 r.2) _ _ _
    exact (Program.wp_bind _ _).mpr (Program.wp_mono (fun r _ h => lwp_conclude r.2 h)
      (fun _ _ h => h.elim) (goes_body _ ⟨h₇, hslot₇⟩))

omit [DecidableEq ι] in
theorem Has.clean (h : Has w [] [] s) : Clean s :=
  ⟨h.bridges, fun m hm => (h.rest m hm).resolve_left List.not_mem_nil⟩

/-- **A run leaves no machine and no bridge,** whether it returns or raises. -/
theorem lwp_runAdvice (h : Has w [] [] s) (hslot : Slot cfg who s) :
    lwp cfg w (runAdvice cfg who) (fun _ => Has w [] []) (fun _ => Has w [] []) s := by
  intro s₁ hR a s₂ hx
  have h₁ := h.rely hR
  have hslot₁ := hslot.rely hR
  refine ⟨⟨hx, rfl, h₁.clean⟩, ?_⟩
  obtain ⟨rfl, -⟩ := hx
  cases a with
  | error _ => exact h₁
  | ok _ =>
    intro s₃ hR₃ a s₄ hx
    have h₃ := h₁.rely hR₃
    have hslot₃ := hslot₁.rely hR₃
    refine ⟨⟨hx, trivial⟩, ?_⟩
    obtain ⟨rfl, -⟩ := hx
    cases a with
    | error _ => exact h₃
    | ok plan =>
      change lwp cfg w (if plan.testable then _ else _) _ _ _
      split
      · exact lwp_tested h₃ hslot₃
      · exact (Program.wp_bind _ _).mpr (lwp_publish h₃)

end Advice

/-! ### The worker and the others -/

section Worker

variable {ι : Type} [DecidableEq ι] {cfg : Settings} {w i : ι} {s s' : State ι} {id : String} {job : Job}

/-- What a thread knows between two programs. -/
def Idle (w i : ι) (s : State ι) : Prop := s.held i = none ∧ (i = w → Has w [] [] s)

omit [DecidableEq ι] in
theorem Idle.rely (hR : Rely w i s s') (h : Idle w i s) : Idle w i s' := by
  refine ⟨hR.1.trans h.1, ?_⟩
  rintro rfl
  exact (h.2 rfl).rely hR

/-- The ids of the kept machines are among `ids`, in that order. -/
def Among (ids : List String) (s : State ι) : Prop := (s.kept.map Prod.fst).Sublist ids

theorem filter_sublist_of_cons {l ids : List String} (h : l.Sublist (id :: ids)) :
    (l.filter (· ≠ id)).Sublist ids := by
  have hfilter := h.filter (· ≠ id)
  rw [List.filter_cons_of_neg (by simp)] at hfilter
  exact hfilter.trans List.filter_sublist

theorem Among.pop {ids : List String} {a : Option ℕ} (h : Among (id :: ids) s)
    (hx : exec cfg i s (.pop id) a s') : Among ids s' := by
  obtain ⟨-, rfl⟩ := hx
  have hmap : (s.kept.filter (·.1 ≠ id)).map Prod.fst = (s.kept.map Prod.fst).filter (· ≠ id) := by
    rw [List.filter_map]
    rfl
  change ((s.kept.filter (·.1 ≠ id)).map Prod.fst).Sublist ids
  rw [hmap]
  exact filter_sublist_of_cons h

/-- **Whoever takes a kept machine tears it down.** -/
theorem wp_release {K Q : State ι → Prop} (hK : ∀ s s', Rely w i s s' → K s → K s')
    (hQ : ∀ s s', Rely w i s s' → Q s → Q s')
    (hpop : ∀ s a s', Sem cfg i s (.pop id) a s' → s.held i = none → K s → Q s')
    (htear : ∀ s m a s', Sem cfg i s (.teardown m false) a s' → s.held i = some m → Q s → Q s')
    (hs : s.held i = none ∧ K s) :
    (release id).wp (Sem cfg i) (Rely w i) (Guar cfg w i) (fun _ s => s.held i = none ∧ Q s)
      (fun _ _ => False) s := by
  intro s₁ hR a s₂ hx
  have hnone : s₁.held i = none := hR.1.trans hs.1
  refine ⟨⟨hx, hnone⟩, ?_⟩
  have h₂ : Q s₂ := hpop s₁ a s₂ hx hnone (hK s s₁ hR hs.2)
  have hheld := (moved_of_exec hx.1).held
  obtain ⟨⟨rfl, -⟩, -⟩ := hx
  cases hlookup : s₁.kept.lookup id with
  | none =>
    refine ⟨?_, h₂⟩
    rw [hheld, heldAfter, Function.update_self, hlookup]
  | some m =>
    intro s₃ hR₃ a s₄ hx
    have hmine : s₃.held i = some m := by
      rw [hR₃.1, hheld, heldAfter, Function.update_self, hlookup]
    refine ⟨⟨hx, .inl hmine⟩, ?_, htear s₃ m a s₄ hx hmine (hQ s₂ s₃ hR₃ h₂)⟩
    rw [(moved_of_exec hx.1).held]
    exact Function.update_self ..

/-- While the worker makes room for the machine of an answer. -/
structure Making (id : String) (ids : List String) (s : State ι) : Prop where
  clean : Clean s
  among : Among ids s
  taken : id ∈ s.taken
  fresh : id ∉ s.kept.map Prod.fst

omit [DecidableEq ι] in
theorem Clean.beside (h : Clean s) (hb : Beside s s') : Clean s' :=
  ⟨hb.bridges.trans h.bridges, fun m hm => hb.seenTo m (h.machines m (hb.made ▸ hm))⟩

omit [DecidableEq ι] in
theorem Making.beside {ids : List String} (h : Making id ids s) (hb : Beside s s') :
    Making id ids s' where
  clean := h.clean.beside hb
  among := (hb.kept.map _).trans h.among
  taken := hb.taken ▸ h.taken
  fresh hmem := h.fresh ((hb.kept.map _).subset hmem)

theorem lwp_makeRoom {ids rest : List String} (h : s.held w = none ∧ Making id (ids ++ rest) s) :
    lwp cfg w (Program.forEach ids release) (fun _ s => s.held w = none ∧ Making id rest s)
      (fun _ _ => False) s := by
  induction ids generalizing s with
  | nil => exact h
  | cons id' ids ih =>
    refine (Program.wp_bind _ _).mpr (Program.wp_mono (fun _ s h => ih h) (fun _ _ h => h)
      (wp_release (K := Making id (id' :: (ids ++ rest))) ?_ ?_ ?_ ?_ h))
    · exact fun s s' hR h => h.beside (hR.2 rfl)
    · exact fun s s' hR h => h.beside (hR.2 rfl)
    · intro s a s' hx hnone h
      have hb := beside_of_moved (w := w) hx.2.2 (moved_of_exec hx.1) hnone trivial nofun
      have h' := h.beside hb
      exact ⟨h'.clean, h.among.pop hx.1, h'.taken, h'.fresh⟩
    · intro s m a s' hx hheld h
      refine h.beside (beside_of_moved (w := w) hx.2.2 (moved_of_exec hx.1) (.inl hheld) trivial ?_)
      rintro m' b ⟨⟩
      exact hheld

omit [DecidableEq ι] in
theorem Making.slot {rest : List String} (h : Making id rest s)
    (hrest : (rest.length : ℤ) ≤ max 0 (cfg.keepMax - 1)) : Slot cfg (.answer id job) s := by
  rintro id' job' ⟨⟩
  refine ⟨h.taken, h.fresh, le_trans (Int.ofNat_le.mpr ?_) hrest⟩
  have hlength : (s.kept.map Prod.fst).length = s.kept.length := List.length_map _
  exact hlength ▸ h.among.length_le

omit [DecidableEq ι] in
theorem has_stable {own bs : List ℕ} (s s' : State ι) (hR : Rely w w s s') (h : Has w own bs s) :
    Has w own bs s' :=
  h.rely hR

/-- What comes after a command that concerns no machine. -/
theorem lwp_plain {α β : Type} {p : Code α} {f : α → Code β} {Q : β → State ι → Prop}
    (hp : p.Obeys Any Plain) (hf : ∀ a s, Has w [] [] s → lwp cfg w (f a) Q (fun _ => Has w [] []) s)
    (h : Has w [] [] s) : lwp cfg w (p >>= f) Q (fun _ => Has w [] []) s :=
  (Program.wp_bind p f).mpr
    (Program.wp_mono hf (fun _ _ h => h) (hp.keeps (keeps_plain has_stable) h))

/-- One that is issued where no run is under way, and leaves the machines alone. -/
theorem has_outside {c : Cmd} {a : c.Ans} (h : Has w [] [] s) (hx : Sem cfg w s c a s')
    (hc : Outside c) : Allowed cfg w w s c ∧ Has w [] [] s' := by
  have hallowed : Allowed cfg w w s c := by
    cases c with
    | parse _ | fail _ | report | alternative | die => exact ⟨rfl, h.clean⟩
    | _ => exact hc.elim
  have hother : Elsewhere c ∧ ¬Handles c := by
    cases c with
    | parse _ | fail _ | report | alternative | die => exact ⟨trivial, id⟩
    | _ => exact hc.elim
  have hmoved := moved_of_exec hx.1
  refine ⟨hallowed, h.rely ⟨hmoved.held_eq fun _ => hother.2, fun _ => ?_⟩⟩
  refine beside_of_moved hx.2.2 hmoved hallowed hother.1 ?_
  rintro m b rfl
  exact absurd trivial hother.2

/-- **Neither do the alternatives,** wherever they end. -/
theorem lwp_otherWays (n : ℕ) (h : Has w [] [] s) :
    lwp cfg w (otherWays cfg id n) (fun _ => Has w [] []) (fun _ => Has w [] []) s := by
  induction n generalizing s with
  | zero => exact (Tame.obeys (tame_call trivial fun _ _ => tame_ret)).keeps (keeps_plain has_stable) h
  | succ n ih =>
    refine lwp_plain (Tame.obeys (tame_call trivial fun _ _ => tame_ret)) (fun _ s h => ?_) h
    intro s₁ hR₁ a s₂ hx
    obtain ⟨hallowed, h₂⟩ := has_outside (h.rely hR₁) hx trivial
    refine ⟨⟨hx, hallowed⟩, ?_⟩
    cases a with
    | error _ => exact h₂
    | ok _ =>
    intro s₃ hR₃ a s₄ hx
    obtain ⟨hallowed, h₄⟩ := has_outside (h₂.rely hR₃) hx trivial
    refine ⟨⟨hx, hallowed⟩, ?_⟩
    match a with
    | .error () => exact h₄
    | .ok false =>
      exact (Tame.obeys (tame_call trivial fun _ _ => tame_ret)).keeps (keeps_plain has_stable) h₄
    | .ok true =>
      refine lwp_plain (p := step (.setAttempts id true) rfl)
        (Tame.obeys (tame_call trivial fun _ _ => tame_ret)) (fun _ s h => ?_) h₄
      refine (Program.wp_bind _ _).mpr (Program.wp_mono (fun failed s h => ?_) (fun _ _ h => h)
        (lwp_runAdvice h nofun))
      refine lwp_plain (obeys_attempt trivial) (fun _ s h => ?_) h
      cases failed with
      | true => exact ih h
      | false =>
        exact (Tame.obeys (tame_call trivial fun _ _ => tame_ret)).keeps (keeps_plain has_stable) h

theorem lwp_runAnswer (h : Has w [] [] s) (hslot : Slot cfg (.answer id job) s) :
    lwp cfg w (runAnswer cfg id job) (fun _ => Has w [] []) (fun _ => Has w [] []) s := by
  refine (Program.wp_tryCatch _ _).mpr ?_
  refine Program.wp_mono (fun _ _ h => h) (fun _ s h => ?_) (lwp_runAdvice h hslot)
  intro s₁ hR a s₂ hx
  obtain ⟨hallowed, h₂⟩ := has_outside (h.rely hR) hx trivial
  exact ⟨⟨hx, hallowed⟩, h₂⟩

omit [DecidableEq ι] in
theorem Making.has {ids : List String} (h : s.held w = none ∧ Making id ids s) : Has w [] [] s :=
  ⟨h.1, nofun, List.nodup_nil, fun m hm => .inr (h.2.clean.machines m hm), h.2.clean.bridges⟩

omit [DecidableEq ι] in
/-- The oldest make room. -/
theorem Making.surplus (cfg : Settings) {ids : List String} (h : Making id ids s) :
    ∃ rest : List String, Making id (s.surplus cfg ++ rest) s ∧
      (rest.length : ℤ) ≤ max 0 (cfg.keepMax - 1) := by
  let n := (max 0 ((s.kept.length : ℤ) - (cfg.keepMax - 1))).toNat
  refine ⟨(s.kept.map Prod.fst).drop n, ⟨h.clean, ?_, h.taken, h.fresh⟩, ?_⟩
  · change (s.kept.map Prod.fst).Sublist ((s.kept.map Prod.fst).take n ++ (s.kept.map Prod.fst).drop n)
    rw [List.take_append_drop]
  · rw [List.length_drop, List.length_map]
    omega

theorem lwp_attend {ids : List String} (h : s.held w = none ∧ Making id ids s) :
    lwp cfg w (attend cfg id job) (fun _ => Has w [] []) (fun _ => Has w [] []) s := by
  intro s₁ hR a s₂ hx
  have h₁ : s₁.held w = none ∧ Making id ids s₁ := ⟨hR.1.trans h.1, h.2.beside (hR.2 rfl)⟩
  refine ⟨⟨hx, trivial⟩, ?_⟩
  obtain ⟨⟨rfl, rfl⟩, -⟩ := hx
  obtain ⟨rest, hmaking, hrest⟩ := h₁.2.surplus cfg
  refine (Program.wp_bind (Program.forEach (s₂.surplus cfg) release) _).mpr
    (Program.wp_mono (fun _ s h => ?_) (fun _ _ h => h.elim) (lwp_makeRoom ⟨h₁.1, hmaking⟩))
  refine (Program.wp_bind _ _).mpr (Program.wp_mono (fun failed s h => ?_) (fun _ _ h => h)
    (lwp_runAnswer (Making.has h) (h.2.slot hrest)))
  cases failed with
  | true => exact lwp_otherWays _ h
  | false => exact h

theorem lwp_round (h : Has w [] [] s) :
    lwp cfg w (round cfg) (fun _ => Has w [] []) (fun _ => Has w [] []) s := by
  intro s₁ hR a s₂ hx
  have h₁ := h.rely hR
  refine ⟨⟨hx, rfl⟩, ?_⟩
  obtain ⟨⟨-, hx⟩, -, hsound⟩ := hx
  split at hx
  · obtain ⟨rfl, rfl⟩ := hx
    exact h₁
  · next id rest hwaiting =>
    obtain ⟨rfl, rfl⟩ := hx
    refine @lwp_attend _ _ _ _ _ _ _ (s₁.kept.map Prod.fst) ⟨h₁.held,
      ⟨h₁.bridges, h₁.clean.machines⟩,
      .refl _, List.mem_append_right _ (List.mem_singleton_self _), fun hmem => ?_⟩
    obtain ⟨e, he, rfl⟩ := List.mem_map.mp hmem
    have hnodup : (s₁.taken ++ e.1 :: rest).Nodup := hwaiting ▸ hsound.order ▸ hsound.once
    exact (List.nodup_append.mp hnodup).2.2 _ (hsound.ids e he) _ List.mem_cons_self rfl

theorem lwp_orDie {p : Code Unit}
    (hp : lwp cfg w p (fun _ => Has w [] []) (fun _ => Has w [] []) s) :
    lwp cfg w (orDie p) (fun _ => Has w [] []) (fun _ => Has w [] []) s := by
  refine (Program.wp_tryCatch _ _).mpr (Program.wp_mono (fun _ _ h => h) (fun _ s h => ?_) hp)
  intro s₁ hR a s₂ hx
  obtain ⟨hallowed, h₂⟩ := has_outside (h.rely hR) hx trivial
  exact ⟨⟨hx, hallowed⟩, h₂⟩

theorem lwp_begin (h : Has w [] [] s) :
    lwp cfg w begin (fun _ => Has w [] []) (fun _ => Has w [] []) s :=
  lwp_orDie ((obeys_attempt trivial).keeps (keeps_plain has_stable) h)

theorem lwp_serve (h : Has w [] [] s) :
    lwp cfg w (serve cfg) (fun _ => Has w [] []) (fun _ => Has w [] []) s :=
  lwp_orDie (lwp_round h)

end Worker

/-! ### Every run -/

section Pool

variable {ι : Type} [DecidableEq ι] {cfg : Settings} {w i : ι} {s s' : State ι}

theorem rely_of_guar {j : ι} {c : Cmd} {a : c.Ans} (hj : j ≠ i) (h : Guar cfg w i s c a s') :
    Rely w j s s' := by
  obtain ⟨⟨hx, -, hs⟩, hallowed⟩ := h
  have hmoved := moved_of_exec hx
  refine ⟨hmoved.held_eq fun heq => absurd heq hj, ?_⟩
  rintro rfl
  have hi : i ≠ j := hj.symm
  have helse : Elsewhere c := by
    cases c with
    | take | addBridge _ | deleteBridge _ _ | makeVm _ _ | makeProber => exact absurd hallowed hi
    | keep _ _ => exact absurd hallowed.1 hi
    | _ => trivial
  refine beside_of_moved hs hmoved hallowed helse ?_
  rintro m b rfl
  exact hallowed.resolve_right fun h => hi h.1

/-- The programs of the other threads. -/
theorem wp_released {id : String} (h : s.held i = none) :
    (release id).wp (Sem cfg i) (Rely w i) (Guar cfg w i) (fun _ s => s.held i = none)
      (fun _ _ => False) s :=
  Program.wp_mono (fun _ _ h => h.1) (fun _ _ h => h)
    (wp_release (K := fun _ => True) (Q := fun _ => True) (fun _ _ _ h => h) (fun _ _ _ h => h)
      (fun _ _ _ _ _ h => h) (fun _ _ _ _ _ _ h => h) ⟨h, trivial⟩)

theorem wp_of_runs {p : Code Unit} (hruns : Runs cfg w s (.start i p)) (hidle : Idle w i s) :
    p.wp (Sem cfg i) (Rely w i) (Guar cfg w i) (fun _ => Idle w i) (fun _ => Idle w i) s := by
  dsimp only [Runs] at hruns
  split at hruns
  · next hi =>
    subst hi
    have hmono : ∀ s : State ι, Has i [] [] s → Idle i i s := fun s h => ⟨h.held, fun _ => h⟩
    rcases hruns with ⟨-, rfl⟩ | ⟨-, rfl⟩
    · exact Program.wp_mono (fun _ => hmono) (fun _ => hmono) (lwp_begin (hidle.2 rfl))
    · exact Program.wp_mono (fun _ => hmono) (fun _ => hmono) (lwp_serve (hidle.2 rfl))
  · next hi =>
    have hmono : ∀ s : State ι, s.held i = none → Idle w i s := fun s h => ⟨h, fun hiw => absurd hiw hi⟩
    rcases hruns with ⟨id, job, rfl⟩ | rfl | ⟨id, rfl⟩
    · intro s₁ hR a s₂ hx
      refine ⟨⟨hx, trivial⟩, hmono s₂ ?_⟩
      exact ((moved_of_exec hx.1).held_eq fun _ h => h).trans (hR.1.trans hidle.1)
    · intro s₁ hR a s₂ hx
      refine ⟨⟨hx, trivial⟩, ?_⟩
      have h₂ : s₂.held i = none :=
        ((moved_of_exec hx.1).held_eq fun _ h => h).trans (hR.1.trans hidle.1)
      have hwp : (Program.forEach a release).wp (Sem cfg i) (Rely w i) (Guar cfg w i)
          (fun _ s => s.held i = none) (fun _ _ => False) s₂ :=
        Program.wp_forEach (fun _ _ _ h => wp_released h) h₂
      exact Program.wp_mono (fun _ => hmono) (fun _ _ h => h.elim) hwp
    · exact Program.wp_mono (fun _ => hmono) (fun _ _ h => h.elim) (wp_released hidle.1)

/-- The moves of the worker and of the others, where none of it raises. -/
def Admitted (cfg : Settings) (w : ι) (x : Config sig Unit Unit ι (State ι)) (m : Move sig Unit Unit ι) :
    Prop :=
  (Runs cfg w x.shared m ∧ Careful x m) ∧ Sound cfg x.shared

def outline (cfg : Settings) (w : ι) : Outline (exec cfg) (Admitted cfg w) where
  rely := Rely w
  guar := Guar cfg w
  idle := Idle w
  post i _ := Idle w i
  fail i _ := Idle w i
  sem := Sem cfg
  sem_of_ok _ _ _ _ _ hok hx := ⟨hx, hok.1.2, hok.2⟩
  rely_refl _ s := ⟨rfl, fun _ => .refl s⟩
  rely_trans _ _ _ _ h h' := ⟨h'.1.trans h.1, fun hi => (h.2 hi).trans (h'.2 hi)⟩
  rely_of_guar _ _ hj _ _ _ _ h := rely_of_guar hj h
  idle_stable _ _ _ hR h := h.rely hR
  post_stable _ _ _ _ hR h := h.rely hR
  fail_stable _ _ _ _ hR h := h.rely hR
  start _ _ _ hok hidle := wp_of_runs hok.1.1 hidle
  ret _ _ _ _ h := h
  raise _ _ _ _ h := h
  kill _ _ _ hok := hok.1.1.elim

omit [DecidableEq ι] in
theorem sound_init : Sound cfg (State.init : State ι) :=
  ⟨rfl, List.nodup_nil, nofun, List.nodup_nil, List.nodup_nil, nofun, nofun, nofun, fun _ => Nat.zero_le 1,
    fun _ _ => rfl, le_max_left ..⟩

/-- Where no run is under way, a command has an answer that raises nothing. -/
theorem exists_answer (cfg : Settings) (w : ι) (s : State ι) {c : Cmd} (hc : Outside c) : ∃ a s', exec cfg w s c a s' ∧ Safe c a ∧ Fresh s c := by
  cases c with
  | parse who => exact ⟨.ok (), s, rfl, trivial, trivial⟩
  | fail id => exact ⟨(), _, rfl, trivial, trivial⟩
  | report => exact ⟨.ok (), s, rfl, trivial, trivial⟩
  | alternative => exact ⟨.ok false, s, rfl, trivial, trivial⟩
  | die => exact ⟨(), _, rfl, trivial, trivial⟩
  | _ => exact hc.elim

/-- **No machine leaks, and none is torn down twice,** in any run in which nothing raises between
the creation of a bridge and the `try`, where a machine is replaced, or where a bridge is deleted,
and every id is new. -/
theorem owned_of_reaches {y : Config sig Unit Unit ι (State ι)}
    (h : Reaches (exec cfg) (fun x m => Runs cfg w x.shared m ∧ Careful x m) (.idle .init) y) :
    Promises cfg w y := by
  have hverified : (outline cfg w).Verified (.idle .init) := fun i =>
    ⟨rfl, fun _ => ⟨rfl, nofun, List.nodup_nil, nofun, rfl⟩⟩
  obtain ⟨hy, hs⟩ := (outline cfg w).invariant_of_kept
    (fun _ s c a s' hg hs => hs.step hg.1.1 hg.1.2.1.2 hg.2) h hverified sound_init
  have hidle : ∀ i, y.thread i = none → Idle w i y.shared := by
    intro i hi
    have hknows := hy i
    rwa [hi] at hknows
  refine ⟨hs.torn, fun e he => (hs.kept e he).2.1, hs.few, fun i hi => (hidle i hi).1, ?_⟩
  rintro (hnone | ⟨c, hnext, hc⟩)
  · exact ((hidle w hnone).2 rfl).clean
  · obtain ⟨k, hk⟩ := Config.thread_of_next hnext
    have hknows := hy w
    rw [hk] at hknows
    obtain ⟨a, s, hx, hsafe, hfresh⟩ := exists_answer cfg w y.shared hc
    obtain ⟨⟨-, hallowed⟩, -⟩ :=
      hknows y.shared ((outline cfg w).rely_refl w _) a s ⟨hx, ⟨hsafe, hfresh⟩, hs⟩
    cases c with
    | parse _ | fail _ | report | alternative | die => exact hallowed.2
    | _ => exact hc.elim

end Pool

/-! ### A machine that is kept, and one that cannot be made -/

/-- An answer in which nothing goes wrong. -/
def working : Plan := ⟨true, false, true, [], false, [], [], [], [], false, []⟩

/-- The machine cannot be made. -/
def unmade : Cmd → Bool
  | .makeVm .. => true
  | _ => false

theorem safe_respond {plan : Who → Plan} {i : Bool} {s s' : State Bool} {c : Cmd} {a : c.Ans}
    (h : respond plan (fun _ => false) i s c = some (a, s')) : Safe c a := by
  cases c with
  | enqueue | take | fail => trivial
  | due | makeProber | waitExit => cases h
  | teardown m rebooting =>
    cases h
    cases rebooting <;> trivial
  | _ =>
    cases h
    trivial

theorem Fresh.of_meets {s : State Bool} {c : Cmd} (h : Meets s c) : Fresh s c := by
  cases c with
  | enqueue id job => exact h
  | _ => trivial

/-- An answer is destroyed from its page. -/
def destroyed : List (Turn sig Unit Unit Bool) :=
  [.start false (release "a"), .go false, .go false, .go false]

theorem start_mem_destroyed {i : Bool} {p : Code Unit} (h : Turn.start i p ∈ destroyed) :
    i = false ∧ ∃ id, p = release id := by
  simp only [destroyed, List.mem_cons, Turn.start.injEq, List.not_mem_nil, or_false, reduceCtorEq] at h
  exact ⟨h.1, "a", h.2⟩

/-- The machine of an answer is kept, and then destroyed. -/
theorem owned_of_reaches_destroyed : ∃ x : Config sig Unit Unit Bool (State Bool),
    x.shared.made = 1 ∧ x.shared.torn 0 = 1 ∧ Promises ⟨20, 2, 2⟩ true x := by
  have hrun : (Config.playIf (respond (fun _ => working) fun _ => false) startable
      (schedule ["a"] 16 destroyed) (.idle .init)).any
      (fun x => decide (x.shared.made = 1) && decide (x.shared.torn 0 = 1)) = true := by
    decide
  obtain ⟨x, hx, hends⟩ := (Option.any_eq_true ..).mp hrun
  obtain ⟨hmade, htorn⟩ := Bool.and_eq_true_iff.mp hends
  refine ⟨x, of_decide_eq_true hmade, of_decide_eq_true htorn, owned_of_reaches (reaches_of_playIf
    (fun i x c a s _ h => ?_) (fun _ _ _ _ => ⟨trivial, trivial⟩)
    (fun i p hp x hcheck => ⟨runs_of_schedule (fun _ _ => start_mem_destroyed) hp x hcheck, trivial⟩) hx)⟩
  obtain ⟨hexec, hmeets⟩ := exec_respond h
  exact ⟨hexec, trivial, safe_respond h, .of_meets hmeets⟩

/-- **A machine that cannot be made leaves the bridge of its run.** -/
theorem leaked : ¬∀ (cfg : Settings) (w : Bool) (x : Config sig Unit Unit Bool (State Bool)),
    Reaches (exec cfg) (fun x m => Runs cfg w x.shared m) (.idle .init) x → Promises cfg w x := by
  intro hall
  have hrun : (Config.playIf (respond (fun _ => working) unmade) startable
      (schedule ["a"] 9 []) (.idle .init)).any
      (fun x => (x.thread true).isNone && decide (x.shared.bridges = [0])) = true := by
    decide
  obtain ⟨x, hx, hends⟩ := (Option.any_eq_true ..).mp hrun
  obtain ⟨hthread, hbridges⟩ := Bool.and_eq_true_iff.mp hends
  have hclean := (hall ⟨20, 2, 2⟩ true x (reaches_of_playIf (fun i x c a s _ h => ?_)
    (fun _ _ _ _ => trivial) (fun i p hp x hcheck => runs_of_schedule (fun _ _ h => by cases h) hp x hcheck) hx)).clean
    (.inl (Option.isNone_iff_eq_none.mp hthread))
  · exact absurd ((of_decide_eq_true hbridges).symm.trans hclean.bridges) nofun
  · exact ⟨(exec_respond h).1, trivial⟩

end LabMachines
end CloudCore
