import CloudCore.Api.LbEdits
import CloudCore.Api.Soundness
import Mathlib.Data.List.Pairwise

/-!
# Names

The handlers that create a resource look for its name first, those that update
one do not, and nothing in the schema keeps two rows from having one name.  When
operations come one at a time, names are distinct within a kind, and so are the
ports and the target groups of a load balancer, as long as no operation gives a
resource that exists a name that another one has.

## Main definitions

* `DistinctNames` — the property.
* `Free` — the names an operation gives are free.

## Main results

* `distinct_names` — **names stay distinct while the names given are free.**
* `renamed_twice` — an update may give a name that is taken.
-/

namespace CloudCore
namespace Api

open Python Relational Db Effect

variable {ι : Type} {pf : Platform} {peers : Peers} {op : Op} {i : ι} {s : State ι} {k : Kind}

/-! ### The property -/

/-- Two names are not equal. -/
def Differ (v w : Json) : Prop := v.eq w = false ∧ w.eq v = false

theorem Differ.symm {v w : Json} (h : Differ v w) : Differ w v := ⟨h.2, h.1⟩

/-- The ports of the listeners and the names of the target groups are distinct. -/
structure PartsDistinct {τ φ : Type} (b : LoadBalancer τ φ) : Prop where
  ports : (b.listeners.map (·.port)).Nodup
  targetGroups : b.targetGroups.Pairwise fun t u => Differ t.name u.name

/-- Names are distinct within a kind, and a look-up by name finds at most one
resource. -/
structure DistinctNames (pf : Platform) (s : State ι) : Prop where
  names : ∀ k, ((s.table k).live.map Row.name).Nodup
  parts : ∀ b ∈ (s.table .lb).live, PartsDistinct (b : LoadBalancer String Bool)
  lookups : ∀ k name l, s.select pf k (fun r => some r.name) name = .ok l → l.length ≤ 1

/-- The operation comes to write over the resource: a launch thread always does,
the others if it is there. -/
def Op.WritesOver (s : State ι) (k : Kind) (id : String) : Op → Prop
  | .launch _ => True
  | _ => ∃ r, (s.table k).get id = some r

/-- The target groups but the one that is edited. -/
def otherGroups (tgId : String) (l : List TargetGroup) : List TargetGroup :=
  l.eraseP (·.id == tgId)

/-- The names the operation gives to what it writes over are free. -/
structure Free (pf : Platform) (s : State ι) (op : Op) : Prop where
  name : ∀ k id v t, op.renames = some (k, id, v) → op.WritesOver s k id →
    textColumn pf.renderReal v = some t → ∀ r ∈ (s.table k).live, r.id ≠ id → r.name ≠ t
  targetGroup : ∀ lbId tgId body v r, op = .editLb lbId (.updateTargetGroup tgId body) →
    givenName body = some v → (s.table .lb).get lbId = some r →
    (∃ b' reply, editTargetGroup tgId body (decode r) = .ok (b', reply)) →
    ∀ t ∈ otherGroups tgId (LoadBalancer.targetGroups r), Differ v t.name

/-- The operations, as long as the names they give are free. -/
def freeOperations (pf : Platform) (peers : Peers)
    (x : Config Commands Raised Reply Unit (State Unit)) :
    Move Commands Raised Reply Unit → Prop
  | .start _ p => ∃ op : Op, op.Local ∧ p = op.handle pf peers ∧ Free pf x.shared op
  | _ => True

/-! ### The parts of a load balancer -/

section Parts

variable {b b' : LoadBalancer Json Json} {e : LbRequest}

theorem port_assignListener (fields : Fields) (l : Listener) :
    (assignListener fields l).port = l.port := rfl

theorem map_modifyFirst {α β : Type} {g : α → β} {p : α → Bool} {f : α → α}
    (hf : ∀ a, g (f a) = g a) (l : List α) : (modifyFirst p f l).map g = l.map g := by
  induction l with
  | nil => rfl
  | cons a l ih =>
    rw [modifyFirst]
    split
    · rw [List.map_cons, List.map_cons, hf]
    · rw [List.map_cons, List.map_cons, ih]

/-- The first item that `p` picks, with those around it. -/
theorem modifyFirst_const {α : Type} {p : α → Bool} {a : α} (a' : α) {l : List α}
    (h : l.find? p = some a) : ∃ l₁ l₂, l = l₁ ++ a :: l₂ ∧
      modifyFirst p (fun _ => a') l = l₁ ++ a' :: l₂ ∧ l.eraseP p = l₁ ++ l₂ ∧ p a = true ∧
      ∀ x ∈ l₁, p x = false := by
  induction l with
  | nil => cases h
  | cons c l ih =>
    by_cases hc : p c = true
    · rw [List.find?_cons_of_pos hc, Option.some.injEq] at h
      subst h
      refine ⟨[], l, rfl, ?_, List.eraseP_cons_of_pos hc, hc, nofun⟩
      rw [modifyFirst, if_pos hc, List.nil_append]
    · rw [List.find?_cons_of_neg hc] at h
      obtain ⟨l₁, l₂, hl, hm, he, hp, hn⟩ := ih h
      refine ⟨c :: l₁, l₂, ?_, ?_, ?_, hp, ?_⟩
      · rw [hl, List.cons_append]
      · rw [modifyFirst, if_neg hc, hm, List.cons_append]
      · rw [List.eraseP_cons_of_neg hc, he, List.cons_append]
      · exact List.forall_mem_cons.mpr ⟨Bool.eq_false_iff.mpr hc, hn⟩

/-- A target group under another name stays distinct from the others. -/
theorem pairwise_modifyFirst {tgId : String} {l : List TargetGroup} {tg tg' : TargetGroup}
    (hl : l.Pairwise fun t u => Differ t.name u.name) (hfound : l.find? (·.id == tgId) = some tg)
    (hname : tg'.name = tg.name ∨ ∀ t ∈ otherGroups tgId l, Differ tg'.name t.name) :
    (modifyFirst (·.id == tgId) (fun _ => tg') l).Pairwise fun t u => Differ t.name u.name := by
  obtain ⟨l₁, l₂, rfl, hm, he, -, -⟩ := modifyFirst_const tg' hfound
  rw [hm]
  rw [otherGroups, he] at hname
  have hsymm {t u : TargetGroup} : Differ t.name u.name → Differ u.name t.name := Differ.symm
  rw [List.pairwise_middle hsymm, List.pairwise_cons] at hl ⊢
  refine ⟨?_, hl.2⟩
  rcases hname with hkeep | hfree
  · rw [hkeep]
    exact hl.1
  · exact hfree

/-- A text differs from what is not it. -/
theorem differ_str {v : Json} {name : String} (h : v ≠ .str name) : Differ v (.str name) := by
  have hvn : v.eq (.str name) = false := by
    rw [Bool.eq_false_iff, ne_eq, Json.eq_str]
    exact h
  refine ⟨hvn, ?_⟩
  rw [Bool.eq_false_iff, ne_eq, Json.str_eq]
  exact h

/-- **An edit keeps the parts distinct**, a new name of a target group being free. -/
theorem PartsDistinct.changed (hb : PartsDistinct b) (h : Changed b e b')
    (hfree : ∀ tgId body v, e = .updateTargetGroup tgId body → givenName body = some v →
      ∀ t ∈ otherGroups tgId b.targetGroups, Differ v t.name) : PartsDistinct b' := by
  cases h with
  | @addListener _ _ l free =>
    refine ⟨?_, hb.targetGroups⟩
    rw [List.map_append, List.map_singleton, List.nodup_append_comm, List.singleton_append,
      List.nodup_cons, List.mem_map]
    exact ⟨fun ⟨x, hx, hport⟩ => free x hx hport, hb.ports⟩
  | updateListener fields =>
    refine ⟨?_, hb.targetGroups⟩
    rw [map_modifyFirst (port_assignListener fields)]
    exact hb.ports
  | removeListener p =>
    exact ⟨hb.ports.sublist (List.filter_sublist.map _), hb.targetGroups⟩
  | @createTargetGroup _ _ tg name named free =>
    refine ⟨hb.ports, List.pairwise_append.mpr ⟨hb.targetGroups, List.pairwise_singleton .., ?_⟩⟩
    intro x hx u hu
    rw [List.mem_singleton.mp hu, named]
    exact differ_str (free x hx)
  | @updateTargetGroup tgId body tg tg' found id name =>
    refine ⟨hb.ports, pairwise_modifyFirst hb.targetGroups found ?_⟩
    exact name.imp_right fun hgiven => hfree tgId body tg'.name rfl hgiven
  | deleteTargetGroup p => exact ⟨hb.ports, hb.targetGroups.sublist List.filter_sublist⟩
  | _ => exact ⟨hb.ports, hb.targetGroups⟩

/-- The name of a load balancer is given or stays. -/
theorem Changed.name (h : Changed b e b') :
    b'.name = b.name ∨ ∃ body, e = .update body ∧ givenName body = some b'.name := by
  cases h with
  | @update body fields read =>
    exact (assigned_name read b.name).imp_right fun hgiven => ⟨body, rfl, hgiven⟩
  | _ => exact Or.inl rfl

end Parts

/-! ### The invariant -/

/-- The store is local, names are distinct, and so are parts. -/
structure Distinct (s : State ι) : Prop where
  here : s.AllLocal
  names : ∀ k, ∀ r ∈ (s.table k).live, ∀ r' ∈ (s.table k).live, r.name = r'.name → r.id = r'.id
  parts : ∀ b ∈ (s.table .lb).live, PartsDistinct (b : LoadBalancer String Bool)

/-- No two rows of a list with distinct values have one value. -/
theorem length_filter_le_one {α β : Type} [DecidableEq β] {f : α → β} {l : List α}
    (h : (l.map f).Nodup) (t : β) : (l.filter fun a => f a = t).length ≤ 1 := by
  have hcount := List.nodup_iff_count_le_one.mp h t
  rw [List.count, List.countP_map, List.countP_eq_length_filter] at hcount
  exact hcount

theorem Distinct.nodup (hs : Distinct s) (k : Kind) : ((s.table k).live.map Row.name).Nodup := by
  have hrows : (s.table k).rows.Nodup := (s.table k).nodup.of_map _
  refine List.Nodup.map_on ?_ (hrows.filter _)
  intro r hr r' hr' hname
  have hid := hs.names k r hr r' hr' hname
  exact Table.eq_of_key (Table.mem_live.mp hr).1 (Table.mem_live.mp hr').1 hid

theorem Distinct.distinctNames (hs : Distinct s) : DistinctNames pf s where
  names := hs.nodup
  parts := hs.parts
  lookups k name l hl := by
    unfold State.select at hl
    split at hl
    · cases hl
    · cases hl
      exact Nat.zero_le 1
    next t _ =>
      cases hl
      have h := length_filter_le_one (hs.nodup k) t
      simpa only [Option.some.injEq] using h

/-! ### Writes -/

theorem writesOver_of_get {id : String} {r : Row k} (h : (s.table k).get id = some r) :
    op.WritesOver s k id := by
  cases op with
  | launch l => trivial
  | _ => exact ⟨r, h⟩

/-- **The name that is written, no other resource has.** -/
theorem free_of_writes (hs : Distinct s) (hf : Free pf s op) {o : Obj k} {t : String}
    (hw : Writes pf op s o) (ht : textColumn pf.renderReal o.name = some t) {x : Row k}
    (hx : x ∈ (s.table k).live) (hid : x.id ≠ o.id) : x.name ≠ t := by
  -- a resource that keeps its name is the only one that has it
  have keeps {r : Row k} (hr : (s.table k).get o.id = some r) (hn : o.name = .str r.name) :
      x.name ≠ t := by
    rw [hn, textColumn_str, Option.some.injEq] at ht
    obtain ⟨hlive, hkey⟩ := Table.get_eq_some.mp hr
    intro hxt
    exact hid ((hs.names k x hx r hlive (hxt.trans ht.symm)).trans hkey)
  cases hw with
  | insert _ _ free _ _ _ => exact State.name_ne_of_lookupName free ht hx
  | update _ get _ name =>
    rcases name with hkeep | hgiven
    · exact keeps get hkeep
    · exact hf.name k o.id o.name t hgiven (writesOver_of_get get) ht x hx hid
  | @edit b b' r lbId e reply hop get read edit =>
    have hchanged := changed_of_edit edit
    have hlb : b'.id = lbId := by
      have hb : b.id = lbId := by
        rw [← read]
        exact (Table.get_eq_some.mp get).2
      exact hchanged.id.trans hb
    rcases hchanged.name with hkeep | ⟨body, rfl, hgiven⟩
    · refine keeps (r := r) ?_ ?_
      · show (s.table .lb).get b'.id = some r
        rw [hlb]
        exact get
      · show b'.name = _
        rw [hkeep, ← read]
        rfl
    · subst hop
      have hren : (Op.editLb lbId (.update body)).renames = some (.lb, b'.id, b'.name) := by
        rw [hlb]
        exact congrArg (Option.map (Kind.lb, lbId, ·)) hgiven
      exact hf.name .lb b'.id b'.name t hren ⟨r, hlb ▸ get⟩ ht x hx hid
  | @launch o l hop id name _ =>
    subst hop
    refine hf.name .inst o.id o.name t ?_ trivial ht x hx hid
    rw [id, name]
    rfl

/-- The parts of a load balancer are stored as they are. -/
theorem parts_of_encode {b : LoadBalancer Json Json} {r : Row .lb}
    (h : encode pf.renderReal (k := .lb) b = some r) :
    LoadBalancer.listeners r = b.listeners ∧ LoadBalancer.targetGroups r = b.targetGroups := by
  simp only [encode, Option.bind_eq_bind, Option.bind_eq_some_iff] at h
  obtain ⟨_, -, _, -, _, -, _, -, _, -, h⟩ := h
  cases h
  exact ⟨rfl, rfl⟩

theorem parts_stored (t : Table (Row .lb)) (r : Row .lb) :
    LoadBalancer.listeners (t.stored r) = LoadBalancer.listeners r ∧
      LoadBalancer.targetGroups (t.stored r) = LoadBalancer.targetGroups r :=
  ⟨Table.stored_congr (f := fun r : Row .lb => LoadBalancer.listeners r) (fun _ _ => rfl) t r,
    Table.stored_congr (f := fun r : Row .lb => LoadBalancer.targetGroups r) (fun _ _ => rfl) t r⟩

theorem PartsDistinct.congr {τ φ τ' φ' : Type} {b : LoadBalancer τ φ} {b' : LoadBalancer τ' φ'}
    (hb : PartsDistinct b) (hl : b'.listeners = b.listeners)
    (hg : b'.targetGroups = b.targetGroups) : PartsDistinct b' :=
  ⟨by rw [hl]; exact hb.ports, by rw [hg]; exact hb.targetGroups⟩

/-- The parts that are written are distinct. -/
theorem partsDistinct_of_writes (hs : Distinct s) (hf : Free pf s op) {b' : LoadBalancer Json Json}
    (hw : Writes pf op s (k := .lb) b') : PartsDistinct b' := by
  cases hw with
  | insert _ _ _ _ _ bare => exact ⟨by rw [bare.1]; exact .nil, by rw [bare.2]; exact .nil⟩
  | update hk _ _ _ => exact absurd rfl hk
  | @edit b _ r lbId e reply hop get read edit =>
    have hb : PartsDistinct b := by
      have hr := hs.parts r (Table.get_eq_some.mp get).1
      rw [← read]
      exact hr.congr rfl rfl
    refine hb.changed (changed_of_edit edit) ?_
    rintro tgId body v rfl hgiven
    rw [← read] at edit ⊢
    exact hf.targetGroup lbId tgId body v r hop hgiven get ⟨b', reply, edit⟩

theorem names_upsert (hs : Distinct s) (hf : Free pf s op) {o : Obj k} {r : Row k}
    (hr : encode pf.renderReal o = some r) (hw : Writes pf op s o) {x : Row k}
    (hx : x ∈ (s.table k).live) (hid : x.id ≠ r.id) :
    x.name ≠ ((s.table k).stored r).name := by
  rw [Row.name_stored]
  rw [id_of_encode hr] at hid
  exact free_of_writes hs hf hw (columns_of_encode hr).1 hx hid

theorem distinct_upsert (hs : Distinct s) (hf : Free pf s op) {o : Obj k} {r : Row k}
    (hr : encode pf.renderReal o = some r) (hw : Writes pf op s o)
    (here : (s.upsert r).AllLocal) : Distinct (s.upsert r) := by
  refine ⟨here, fun k' => ?_, fun b hb => ?_⟩
  · by_cases hk : k' = k
    · subst hk
      rw [State.table_upsert]
      intro x hx y hy hxy
      rcases Table.mem_live_upsert.mp hx with ⟨rfl, -⟩ | ⟨hx, hxid⟩ <;>
        rcases Table.mem_live_upsert.mp hy with ⟨rfl, -⟩ | ⟨hy, hyid⟩
      · rfl
      · exact absurd hxy.symm (names_upsert hs hf hr hw hy hyid)
      · exact absurd hxy (names_upsert hs hf hr hw hx hxid)
      · exact hs.names k' x hx y hy hxy
    · rw [State.table_upsert_of_ne s hk]
      exact hs.names k'
  · by_cases hk : Kind.lb = k
    · subst hk
      rw [State.table_upsert] at hb
      rcases Table.mem_live_upsert.mp hb with ⟨rfl, -⟩ | ⟨hb, -⟩
      · obtain ⟨hl, hg⟩ := parts_of_encode hr
        obtain ⟨hl', hg'⟩ := parts_stored (s.table .lb) r
        exact (partsDistinct_of_writes hs hf hw).congr (hl'.trans hl) (hg'.trans hg)
      · exact hs.parts b hb
    · rw [State.table_upsert_of_ne s hk] at hb
      exact hs.parts b hb

theorem distinct_delete {id : String} (hs : Distinct s) (here : (s.delete k id).AllLocal) :
    Distinct (s.delete k id) := by
  have hlive {k' : Kind} {x : Row k'} (hx : x ∈ ((s.delete k id).table k').live) :
      x ∈ (s.table k').live := by
    by_cases hk : k' = k
    · subst hk
      rw [State.table_delete] at hx
      exact (Table.mem_live_delete.mp hx).1
    · rwa [State.table_delete_of_ne s hk] at hx
  exact ⟨here, fun k' x hx y hy => hs.names k' x (hlive hx) y (hlive hy),
    fun b hb => hs.parts b (hlive hb)⟩

/-! ### What an operation gives stays free while it runs -/

theorem WritesOver.congr {s' : State ι} {id : String}
    (h : (s'.table k).get id = (s.table k).get id) (hw : op.WritesOver s' k id) :
    op.WritesOver s k id := by
  cases op with
  | launch l => trivial
  | _ =>
    obtain ⟨r, hr⟩ := hw
    exact ⟨r, h ▸ hr⟩

/-- What an operation that renames writes, it writes over something. -/
theorem writesOver_of_writes {o : Obj k} {k' : Kind} {id : String} {v : Json}
    (hw : Writes pf op s o) (hren : op.renames = some (k', id, v)) :
    op.WritesOver s k o.id := by
  cases hw with
  | insert hop _ _ _ _ _ => rw [hop] at hren; cases hren
  | update _ get _ _ => exact writesOver_of_get get
  | @edit b b' r lbId e reply hop get read edit =>
    have hid : b'.id = lbId := by
      rw [(changed_of_edit edit).id, ← read]
      exact (Table.get_eq_some.mp get).2
    exact writesOver_of_get (r := r) (by rw [← get, ← hid]; rfl)
  | launch hop _ _ _ => subst hop; trivial

/-- An operation that renames writes under the name it gives, or under the name
that was there. -/
theorem name_of_writes {o : Obj k} {id : String} {v : Json} (hw : Writes pf op s o)
    (hren : op.renames = some (k, id, v)) :
    o.id = id ∨ ∃ old, (s.table k).get o.id = some old ∧ o.name = .str old.name := by
  cases hw with
  | insert hop _ _ _ _ _ => rw [hop] at hren; cases hren
  | update _ get _ name =>
    rcases name with hkeep | hgiven
    · exact Or.inr ⟨_, get, hkeep⟩
    · rw [hgiven] at hren
      cases hren
      exact Or.inl rfl
  | @edit b b' r lbId e reply hop get read edit =>
    left
    have hid : b'.id = lbId := by
      rw [(changed_of_edit edit).id, ← read]
      exact (Table.get_eq_some.mp get).2
    subst hop
    cases e with
    | update body =>
      obtain ⟨w, -, hw⟩ := Option.map_eq_some_iff.mp hren
      cases hw
      exact hid
    | _ => cases hren
  | launch hop id _ _ =>
    subst hop
    cases hren
    exact Or.inl id

theorem free_name_upsert (hf : Free pf s op) {o : Obj k} {r : Row k}
    (hr : encode pf.renderReal o = some r) (hw : Writes pf op s o) {k' : Kind} {id : String}
    {v : Json} {t : String} (hren : op.renames = some (k', id, v))
    (hover : op.WritesOver (s.upsert r) k' id) (ht : textColumn pf.renderReal v = some t)
    {x : Row k'} (hx : x ∈ ((s.upsert r).table k').live) (hid : x.id ≠ id) : x.name ≠ t := by
  by_cases hk : k' = k
  · subst hk
    have hrid := id_of_encode hr
    rw [State.table_upsert] at hx
    have hover' : op.WritesOver s k' id := by
      by_cases ho : o.id = id
      · exact ho ▸ writesOver_of_writes hw hren
      · refine WritesOver.congr ?_ hover
        rw [State.table_upsert, Table.get_upsert, Row.key_eq, hrid, if_neg ho]
    rcases Table.mem_live_upsert.mp hx with ⟨rfl, -⟩ | ⟨hx, -⟩
    · -- what has just been written has another id, so it has the name that was there
      rw [Row.id_stored, hrid] at hid
      rcases name_of_writes hw hren with ho | ⟨old, hold, hname⟩
      · exact absurd ho hid
      · have hcol := (columns_of_encode hr).1
        rw [hname, textColumn_str, Option.some.injEq] at hcol
        obtain ⟨hlive, hkey⟩ := Table.get_eq_some.mp hold
        have hold : old.id ≠ id := fun h => hid (hkey.symm.trans h)
        rw [Row.name_stored, ← hcol]
        exact hf.name k' id v t hren hover' ht old hlive hold
    · exact hf.name k' id v t hren hover' ht x hx hid
  · rw [State.table_upsert_of_ne s hk] at hx
    refine hf.name k' id v t hren (WritesOver.congr ?_ hover) ht x hx hid
    rw [State.table_upsert_of_ne s hk]

/-- The other target groups are the same after the edit. -/
theorem otherGroups_changed {b b' : LoadBalancer Json Json} {tgId : String} {body : Option Json}
    (h : Changed b (.updateTargetGroup tgId body) b') :
    otherGroups tgId b'.targetGroups = otherGroups tgId b.targetGroups := by
  cases h with
  | @updateTargetGroup _ _ tg tg' found id name =>
    obtain ⟨l₁, l₂, hl, hm, he, hp, hn⟩ := modifyFirst_const tg' found
    have hp' : (tg'.id == tgId) = true := by rw [id]; exact hp
    show List.eraseP _ (modifyFirst _ _ _) = _
    rw [hm, otherGroups, he, List.eraseP_append_right _ fun x hx => by rw [hn x hx]; decide]
    exact congrArg (l₁ ++ ·) (List.eraseP_cons_of_pos (p := fun u : TargetGroup => u.id == tgId) hp')

theorem free_targetGroup_upsert (hf : Free pf s op) {o : Obj k} {r : Row k}
    (hr : encode pf.renderReal o = some r) (hw : Writes pf op s o) {lbId tgId : String}
    {body : Option Json} {v : Json} {x : Row .lb}
    (hop : op = .editLb lbId (.updateTargetGroup tgId body)) (hgiven : givenName body = some v)
    (hget : ((s.upsert r).table .lb).get lbId = some x)
    (hedit : ∃ b' reply, editTargetGroup tgId body (decode x) = .ok (b', reply))
    {t : TargetGroup} (ht : t ∈ otherGroups tgId (LoadBalancer.targetGroups x)) :
    Differ v t.name := by
  by_cases hk : Kind.lb = k
  · subst hk
    rw [State.table_upsert, Table.get_upsert] at hget
    split at hget
    · split at hget
      · cases hget
      cases hget
      rw [(parts_stored _ _).2, (parts_of_encode hr).2] at ht
      cases hw with
      | insert _ _ _ _ _ bare =>
        rw [bare.2] at ht
        cases ht
      | update hk _ _ _ => exact absurd rfl hk
      | @edit b b' old lbId' e reply hop' get read edit =>
        rw [hop] at hop'
        cases hop'
        rw [otherGroups_changed (changed_of_edit edit), ← read] at ht
        rw [← read] at edit
        exact hf.targetGroup lbId tgId body v old hop hgiven get ⟨_, _, edit⟩ t ht
    · exact hf.targetGroup lbId tgId body v x hop hgiven hget hedit t ht
  · rw [State.table_upsert_of_ne s hk] at hget
    exact hf.targetGroup lbId tgId body v x hop hgiven hget hedit t ht

theorem free_delete {id : String} (hf : Free pf s op) : Free pf (s.delete k id) op := by
  have hlive {k' : Kind} {x : Row k'} (hx : x ∈ ((s.delete k id).table k').live) :
      x ∈ (s.table k').live := by
    by_cases hk : k' = k
    · subst hk
      rw [State.table_delete] at hx
      exact (Table.mem_live_delete.mp hx).1
    · rwa [State.table_delete_of_ne s hk] at hx
  have hget {k' : Kind} {j : String} {x : Row k'}
      (hx : ((s.delete k id).table k').get j = some x) : (s.table k').get j = some x := by
    obtain ⟨hx, hj⟩ := Table.get_eq_some.mp hx
    exact Table.get_eq_some.mpr ⟨hlive hx, hj⟩
  refine ⟨?_, ?_⟩
  · intro k' j v t hren hover ht x hx hid
    refine hf.name k' j v t hren ?_ ht x (hlive hx) hid
    cases op with
    | launch l => trivial
    | _ =>
      obtain ⟨r, hr⟩ := hover
      exact ⟨r, hget hr⟩
  · intro lbId tgId body v x hop hgiven hx hedit
    exact hf.targetGroup lbId tgId body v x hop hgiven (hget hx) hedit

/-! ### Runs -/

theorem Distinct.congr {s' : State ι} (hs : Distinct s) (h : s'.table = s.table)
    (here : s'.AllLocal) : Distinct s' := by
  refine ⟨here, ?_, ?_⟩
  · rw [h]
    exact hs.names
  · rw [h]
    exact hs.parts

theorem Free.congr {s' : State ι} (hf : Free pf s op) (h : s'.table = s.table) : Free pf s' op := by
  refine ⟨?_, ?_⟩
  · intro k id v t hren hover
    rw [h]
    exact hf.name k id v t hren (WritesOver.congr (by rw [h]) hover)
  · rw [h]
    exact hf.targetGroup

/-- **A command keeps names distinct**, and the names the operation gives free. -/
theorem distinct_step {c : Cmd} {a : c.Ans} {s' : State ι} (hs : Distinct s)
    (hf : Free pf s op) (hp : Permitted pf op s c) (hx : exec pf i s c a s') :
    Free pf s' op ∧ Distinct s' := by
  have here : s'.AllLocal := hs.here.step hp hx
  rcases exec_tables hx with ht | ⟨k, o, r, rfl, hr, rfl⟩ | ⟨k, id, rfl, rfl⟩
  · exact ⟨hf.congr ht, hs.congr ht here⟩
  · refine ⟨⟨?_, ?_⟩, distinct_upsert hs hf hr hp here⟩
    · intro k' id v t hren hover ht x hx hid
      exact free_name_upsert hf hr hp hren hover ht hx hid
    · intro lbId tgId body v x hop hgiven hget hedit t ht
      exact free_targetGroup_upsert hf hr hp hop hgiven hget hedit ht
  · exact ⟨free_delete hf, distinct_delete hs here⟩

theorem distinct_empty : Distinct (State.empty : State ι) := by
  refine ⟨allLocal_empty, ?_, ?_⟩
  · intro k r hr
    exact absurd hr List.not_mem_nil
  · intro b hb
    exact absurd hb List.not_mem_nil

/-- **Names stay distinct while the names given are free.** -/
theorem distinct_names {y : Config Commands Raised Reply Unit (State Unit)}
    (h : Reaches (exec pf) (freeOperations pf peers) (.idle .empty) y) :
    DistinctNames pf y.shared := by
  refine Distinct.distinctNames
    (h.sequential (C := fun op s => Free pf s op) (P := Permitted pf) (D := exec pf ())
      (fun _ _ _ _ _ hx _ => hx) ?_ ?_ distinct_empty)
  · rintro x p ⟨op, hop, rfl, hfree⟩ hx
    exact ⟨op, hfree, sound_handle hop hx.here⟩
  · intro op x c a s' _ hx hp hf hs
    exact distinct_step hs hf hp hx

/-! ### A run of either kind -/

/-- Two VPCs, the second of which gets another name. -/
def renameSecond (name : String) : List Op :=
  [newVpc "a", newVpc "b", .updateVpc "2" (bodyOf [("name", name)])]

/-- The state after that. -/
@[irreducible] def renamed (name : String) : State Unit :=
  stateAfter ["1", "2"] (fun _ => true) (renameSecond name)

/-- An operation that gives nothing a name. -/
theorem free_of_renames {s : State Unit} (h : op.renames = none)
    (he : ∀ lbId e, op ≠ .editLb lbId e) : Free pf s op := by
  refine ⟨?_, ?_⟩
  · intro k id v t hren
    rw [h] at hren
    cases hren
  · intro lbId tgId body v r hop
    exact absurd hop (he lbId _)

theorem free_createVpc {s : State Unit} {body : Option Json} : Free pf s (.createVpc body) :=
  free_of_renames rfl fun _ _ h => by cases h

/-- The new name of a VPC is free. -/
theorem free_updateVpc {s : State Unit} {id name : String}
    (h : ((s.table .vpc).live.all fun r => r.id == id || r.name != name) = true) :
    Free pf s (.updateVpc id (bodyOf [("name", name)])) := by
  refine ⟨?_, fun _ _ _ _ _ hop => by cases hop⟩
  intro k j v t hren _ ht r hr hid
  cases hren
  rw [textColumn_str, Option.some.injEq] at ht
  subst ht
  have hall := List.all_eq_true.mp h r hr
  simp only [Bool.or_eq_true, beq_iff_eq, bne_iff_ne] at hall
  exact hall.resolve_left hid

theorem reaches_renamed :
    Reaches (exec plainPlatform) (freeOperations plainPlatform noPeers) (.idle .empty)
      (.idle (renamed "c")) := by
  unfold renamed
  refine reaches_foldl_after (fun _ _ _ _ => trivial) (fun _ _ => trivial) ?_ (by decide)
  refine ⟨⟨newVpc "a", newVpc_local "a", rfl, free_createVpc⟩,
    ⟨newVpc "b", newVpc_local "b", rfl, free_createVpc⟩,
    ⟨.updateVpc "2" (bodyOf [("name", "c")]), trivial, rfl, ?_⟩, trivial⟩
  exact free_updateVpc (by decide)

/-- A name that is free may be given. -/
theorem distinct_names_renamed :
    ((renamed "c").table .vpc).live.map Row.name = ["a", "c"] ∧
      DistinctNames plainPlatform (renamed "c") := by
  have h := distinct_names reaches_renamed
  exact ⟨by with_unfolding_all decide, h⟩

/-- An update may give a name that is taken. -/
theorem renamed_twice :
    ¬ ∀ y : Config Commands Raised Reply Unit (State Unit),
      Reaches (exec plainPlatform) (operations plainPlatform noPeers) (.idle .empty) y →
        DistinctNames plainPlatform y.shared := by
  intro hall
  have hrun : Reaches (exec plainPlatform) (operations plainPlatform noPeers) (.idle .empty)
      (.idle (renamed "a")) := by
    unfold renamed
    refine reaches_foldl_after (fun _ _ _ _ => trivial) (fun _ _ => trivial) ?_ (by decide)
    exact ⟨⟨newVpc "a", newVpc_local "a", rfl⟩, ⟨newVpc "b", newVpc_local "b", rfl⟩,
      ⟨.updateVpc "2" (bodyOf [("name", "a")]), trivial, rfl⟩, trivial⟩
  have hdistinct : DistinctNames plainPlatform (renamed "a") := hall _ hrun
  have hnames := hdistinct.names .vpc
  have htwice : ((renamed "a").table .vpc).live.map Row.name = ["a", "a"] := by with_unfolding_all decide
  rw [htwice] at hnames
  exact absurd hnames (by decide)

end Api
end CloudCore
