import Mathlib.Data.List.Nodup

/-!
# Files of which the first value counts

In many configuration files the first entry for a key is the one in effect.  Such a file is edited by an
entry that takes the place of the first one for its key, or a new place where there is none.

## Main definitions

* `Placed` — one entry is put in.
* `Run` — entries are put in one after another, and the file may grow by what has no key.
* `others` — the entries that are not replaced.

## Main results

* `Run.filter` — **the entries for a key afterwards.**
* `Run.others_sublist` — **nothing else is lost or changes its place.**
-/

namespace Formats
namespace FirstValue

variable {α β κ : Type} [DecidableEq κ]

/-- `b` takes the place of the first entry with `f`, or some place where there is none. -/
inductive Placed (f : α → Bool) (b : α) : List α → List α → Prop
  | replaced {p x q} : (∀ y ∈ p, f y = false) → f x = true → Placed f b (p ++ x :: q) (p ++ b :: q)
  | inserted {p q} : (∀ y ∈ p ++ q, f y = false) → Placed f b (p ++ q) (p ++ b :: q)

section Placed

variable {f g : α → Bool} {b : α} {old new front back : List α}

theorem filter_eq_nil_of {l : List α} (h : ∀ y ∈ l, f y = false) : l.filter f = [] :=
  List.filter_eq_nil_iff.mpr fun y hy => by rw [h y hy]; exact Bool.false_ne_true

theorem Placed.filter (h : Placed f b old new) (hb : f b = true) :
    new.filter f = b :: (old.filter f).tail := by
  cases h with
  | replaced hp hx =>
    rw [List.filter_append, List.filter_append, filter_eq_nil_of hp, List.filter_cons_of_pos hb,
      List.filter_cons_of_pos hx]
    rfl
  | inserted hnone =>
    obtain ⟨hp, hq⟩ := List.forall_mem_append.mp hnone
    rw [List.filter_append, List.filter_append, filter_eq_nil_of hp, List.filter_cons_of_pos hb,
      filter_eq_nil_of hq]
    rfl

/-- The entries that have nothing to do with it. -/
theorem Placed.filter_other (h : Placed f b old new) (hb : g b = false) (hg : ∀ y, f y = true → g y = false) :
    new.filter g = old.filter g := by
  cases h with
  | replaced hp hx =>
    rw [List.filter_append, List.filter_append, List.filter_cons_of_neg (by simp [hb]),
      List.filter_cons_of_neg (by simp [hg _ hx])]
  | inserted hnone =>
    rw [List.filter_append, List.filter_append, List.filter_cons_of_neg (by simp [hb])]

theorem Placed.mem {y : α} (h : Placed f b old new) (hy : y ∈ new) : y = b ∨ y ∈ old := by
  cases h with
  | replaced hp hx =>
    obtain hy | hy := List.mem_append.mp hy
    · exact .inr (List.mem_append_left _ hy)
    · obtain rfl | hy := List.mem_cons.mp hy
      · exact .inl rfl
      · exact .inr (List.mem_append_right _ (List.mem_cons_of_mem _ hy))
  | inserted hnone =>
    obtain hy | hy := List.mem_append.mp hy
    · exact .inr (List.mem_append_left _ hy)
    · obtain rfl | hy := List.mem_cons.mp hy
      · exact .inl rfl
      · exact .inr (List.mem_append_right _ hy)

theorem Placed.eraseP_sublist (h : Placed f b old new) : (old.eraseP f).Sublist new := by
  cases h with
  | replaced hp hx =>
    rename_i p x q
    rw [List.eraseP_append_right _ fun y hy => by rw [hp y hy]; exact Bool.false_ne_true,
      List.eraseP_cons_of_pos hx]
    exact (List.sublist_cons_self b q).append_left p
  | inserted hnone =>
    rename_i p q
    rw [List.eraseP_of_forall_not fun y hy => by rw [hnone y hy]; exact Bool.false_ne_true]
    exact (List.sublist_cons_self b q).append_left p

/-- Nothing changes where the entry is the first one. -/
theorem Placed.eq_of_head? (h : Placed f b old new) (hb : (old.filter f).head? = some b) : new = old := by
  cases h with
  | replaced hp hx =>
    rw [List.filter_append, filter_eq_nil_of hp, List.filter_cons_of_pos hx] at hb
    cases hb
    rfl
  | inserted hnone =>
    rw [filter_eq_nil_of hnone] at hb
    cases hb

/-- What stands around it makes no difference. -/
theorem Placed.around (h : Placed f b old new) (hfront : ∀ y ∈ front, f y = false)
    (hback : ∀ y ∈ back, f y = false) : Placed f b (front ++ old ++ back) (front ++ new ++ back) := by
  cases h with
  | replaced hp hx =>
    rename_i p x q
    have hold : front ++ (p ++ x :: q) ++ back = front ++ p ++ x :: (q ++ back) := by simp
    have hnew : front ++ (p ++ b :: q) ++ back = front ++ p ++ b :: (q ++ back) := by simp
    rw [hold, hnew]
    exact .replaced (List.forall_mem_append.mpr ⟨hfront, hp⟩) hx
  | inserted hnone =>
    rename_i p q
    obtain ⟨hp, hq⟩ := List.forall_mem_append.mp hnone
    have hold : front ++ (p ++ q) ++ back = front ++ p ++ (q ++ back) := by simp
    have hnew : front ++ (p ++ b :: q) ++ back = front ++ p ++ b :: (q ++ back) := by simp
    rw [hold, hnew]
    refine .inserted (List.forall_mem_append.mpr ⟨List.forall_mem_append.mpr ⟨hfront, hp⟩, ?_⟩)
    exact List.forall_mem_append.mpr ⟨hq, hback⟩

/-- What a search finds. -/
theorem exists_of_findIdx? {i : ℕ} (h : old.findIdx? f = some i) :
    ∃ p x q, old = p ++ x :: q ∧ p.length = i ∧ (∀ y ∈ p, f y = false) ∧ f x = true := by
  induction old generalizing i with
  | nil => cases h
  | cons y old ih =>
    rw [List.findIdx?_cons] at h
    split at h
    · next hy =>
      cases h
      exact ⟨[], y, old, rfl, rfl, fun z hz => (List.not_mem_nil hz).elim, hy⟩
    · next hy =>
      obtain ⟨j, hj, rfl⟩ := Option.map_eq_some_iff.mp h
      obtain ⟨p, x, q, rfl, hlen, hp, hx⟩ := ih hj
      exact ⟨y :: p, x, q, rfl, congrArg (· + 1) hlen, List.forall_mem_cons.mpr ⟨Bool.eq_false_iff.mpr hy, hp⟩, hx⟩

theorem findIdx?_append_cons {x : α} (hfront : ∀ y ∈ front, f y = false) (hx : f x = true) (back : List α) :
    (front ++ x :: back).findIdx? f = some front.length := by
  induction front with
  | nil => rw [List.nil_append, List.findIdx?_cons, if_pos hx]; rfl
  | cons y front ih =>
    obtain ⟨hy, hfront⟩ := List.forall_mem_cons.mp hfront
    rw [List.cons_append, List.findIdx?_cons, hy, if_neg Bool.false_ne_true, ih hfront]
    rfl

theorem placed_set {i : ℕ} (h : old.findIdx? f = some i) (b : α) : Placed f b old (old.set i b) := by
  obtain ⟨p, x, q, rfl, rfl, hp, hx⟩ := exists_of_findIdx? h
  rw [List.set_append_right p.length b (Nat.le_refl _), Nat.sub_self, List.set_cons_zero]
  exact .replaced hp hx

theorem Placed.map {f' : β → Bool} {e : α → β} (h : Placed f b old new) (he : ∀ y, f' (e y) = f y) :
    Placed f' (e b) (old.map e) (new.map e) := by
  cases h with
  | replaced hp hx =>
    rw [List.map_append, List.map_append, List.map_cons, List.map_cons]
    refine .replaced (fun y hy => ?_) ((he _).trans hx)
    obtain ⟨z, hz, rfl⟩ := List.mem_map.mp hy
    exact (he z).trans (hp z hz)
  | inserted hnone =>
    rw [List.map_append, List.map_append, List.map_cons]
    refine .inserted fun y hy => ?_
    rw [← List.map_append] at hy
    obtain ⟨z, hz, rfl⟩ := List.mem_map.mp hy
    exact (he z).trans (hnone z hz)

end Placed

variable (key : α → Option κ)

/-- Being an entry for a key. -/
def isFor (k : κ) (e : α) : Bool := key e = some k

/-- The entries `bs`, each with its key, are put in one after another, and the file may grow by what has no
key. -/
inductive Run : List α → List (κ × α) → List α → Prop
  | done (ls : List α) : Run ls [] ls
  | put {k b old mid bs new} : key b = some k → Placed (isFor key k) b old mid → Run mid bs new →
      Run old ((k, b) :: bs) new
  | grow {old extra bs new} : (∀ y ∈ extra, key y = none) → Run (old ++ extra) bs new → Run old bs new

/-- The last entry for a key. -/
def lastFor (k : κ) (bs : List (κ × β)) : Option β := ((bs.filter (·.1 = k)).map Prod.snd).getLast?

/-- The entries of a file but the first one for each key. -/
def others (ks : List κ) (ls : List α) : List α := ks.foldl (fun ls k => ls.eraseP (isFor key k)) ls

variable {key} {old new : List α} {k : κ} {b : α} {bs : List (κ × α)}

theorem isFor_iff {e : α} : isFor key k e = true ↔ key e = some k := decide_eq_true_iff

theorem isFor_of_key_ne {k' : κ} (h : key b = some k') (hne : k' ≠ k) : isFor key k b = false := by
  rw [isFor, decide_eq_false_iff_not, h]
  exact fun heq => hne (Option.some.inj heq)

/-! ### The last entry for a key -/

theorem lastFor_cons_self (k : κ) (b : β) (bs : List (κ × β)) :
    lastFor k ((k, b) :: bs) = some ((lastFor k bs).getD b) := by
  rw [lastFor, List.filter_cons_of_pos (by simp), List.map_cons, lastFor]
  cases (bs.filter (·.1 = k)).map Prod.snd with
  | nil => rfl
  | cons c cs => rw [List.getLast?_cons_cons, List.getLast?_eq_some_getLast (List.cons_ne_nil c cs)]; rfl

theorem lastFor_cons_of_ne {k k' : κ} (h : k' ≠ k) (b : β) (bs : List (κ × β)) :
    lastFor k ((k', b) :: bs) = lastFor k bs := by
  rw [lastFor, List.filter_cons_of_neg (by simpa using h), lastFor]

theorem lastFor_map (e : α → β) (k : κ) (bs : List (κ × α)) :
    lastFor k (bs.map (Prod.map id e)) = (lastFor k bs).map e := by
  induction bs with
  | nil => rfl
  | cons p bs ih =>
    obtain ⟨k', b⟩ := p
    by_cases hk : k' = k
    · subst hk
      rw [List.map_cons, Prod.map_apply, id_eq, lastFor_cons_self, lastFor_cons_self, ih]
      cases lastFor k' bs with
      | none => rfl
      | some c => rfl
    · rw [List.map_cons, Prod.map_apply, id_eq, lastFor_cons_of_ne hk, lastFor_cons_of_ne hk, ih]

theorem mem_of_lastFor {bs : List (κ × β)} {b : β} (h : lastFor k bs = some b) : (k, b) ∈ bs := by
  obtain ⟨p, hp, rfl⟩ := List.mem_map.mp (List.mem_of_getLast? h)
  obtain ⟨hmem, hk⟩ := List.mem_filter.mp hp
  rw [← of_decide_eq_true hk]
  exact hmem

theorem exists_lastFor {bs : List (κ × β)} {b : β} (h : (k, b) ∈ bs) : ∃ c, lastFor k bs = some c := by
  have hmem : b ∈ (bs.filter (·.1 = k)).map Prod.snd :=
    List.mem_map.mpr ⟨(k, b), List.mem_filter.mpr ⟨h, decide_eq_true rfl⟩, rfl⟩
  exact ⟨_, List.getLast?_eq_some_getLast (List.ne_nil_of_mem hmem)⟩

theorem lastFor_of_nodup {bs : List (κ × β)} {b : β} (hnodup : (bs.map Prod.fst).Nodup) (h : (k, b) ∈ bs) :
    lastFor k bs = some b := by
  obtain ⟨c, hc⟩ := exists_lastFor h
  rw [hc]
  have heq := List.inj_on_of_nodup_map hnodup (mem_of_lastFor hc) h rfl
  rw [(Prod.mk.inj heq).2]

/-! ### A run -/

theorem Run.trans {mid : List α} {cs : List (κ × α)} (h : Run key old bs mid) (h' : Run key mid cs new) :
    Run key old (bs ++ cs) new := by
  induction h with
  | done ls => exact h'
  | put hk hplaced hrest ih => exact .put hk hplaced (ih h')
  | grow hextra hrest ih => exact .grow hextra (ih h')

/-- **The entries for a key afterwards: the last one that was put in, and those behind the first one
before.** -/
theorem Run.filter (h : Run key old bs new) (k : κ) :
    new.filter (isFor key k) =
      match lastFor k bs with
      | none => old.filter (isFor key k)
      | some b => b :: (old.filter (isFor key k)).tail := by
  induction h with
  | done ls => rfl
  | put hk hplaced hrest ih =>
    rename_i k' b old mid bs new
    rw [ih]
    by_cases hkey : k' = k
    · subst hkey
      rw [lastFor_cons_self, hplaced.filter (isFor_iff.mpr hk)]
      cases lastFor k' bs with
      | none => rfl
      | some c => rfl
    · rw [lastFor_cons_of_ne hkey,
        hplaced.filter_other (isFor_of_key_ne hk hkey) fun y hy => isFor_of_key_ne (isFor_iff.mp hy) hkey]
  | grow hextra hrest ih =>
    rename_i old extra bs new
    have hnone : extra.filter (isFor key k) = [] :=
      filter_eq_nil_of fun y hy => by rw [isFor, hextra y hy]; rfl
    rw [ih, List.filter_append, hnone, List.append_nil]

/-- What is said for a key afterwards. -/
theorem Run.map_filter (h : Run key old bs new) (e : α → β) {x : β} (hlast : lastFor k (bs.map (Prod.map id e)) = some x) :
    (new.filter (isFor key k)).map e = x :: ((old.filter (isFor key k)).map e).tail := by
  rw [lastFor_map] at hlast
  obtain ⟨b, hb, rfl⟩ := Option.map_eq_some_iff.mp hlast
  rw [h.filter k, hb, List.map_cons, List.map_tail]

theorem others_sublist_others {l l' : List α} (h : l.Sublist l') (ks : List κ) :
    (others key ks l).Sublist (others key ks l') := by
  induction ks generalizing l l' with
  | nil => exact h
  | cons k ks ih => exact ih h.eraseP

/-- **The entries that are not replaced are all there, in their order.** -/
theorem Run.others_sublist (h : Run key old bs new) : (others key (bs.map Prod.fst) old).Sublist new := by
  induction h with
  | done ls => exact List.Sublist.refl ls
  | put hk hplaced hrest ih =>
    exact (others_sublist_others hplaced.eraseP_sublist _).trans ih
  | grow hextra hrest ih =>
    rename_i old extra bs new
    exact (others_sublist_others (List.sublist_append_left old extra) _).trans ih

end FirstValue
end Formats
