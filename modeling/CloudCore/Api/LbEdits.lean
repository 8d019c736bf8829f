import CloudCore.Api.Operations

/-!
# What the edits of a load balancer change

Each of the eleven edits changes one part of the copy and leaves the rest, the
id, the status and the time of creation among it.  What is known of the part it
changes is said here once.

## Main definitions

* `Changed` — what a request may do to the load balancer.

## Main results

* `changed_of_edit` — an edit that is not refused does no more.
-/

namespace CloudCore
namespace Api

open Python

variable {pf : Platform} {lbId : String} {b b' : LoadBalancer Json Json} {reply : Reply}

/-- What a request may turn the load balancer into. -/
inductive Changed (b : LoadBalancer Json Json) : LbRequest → LoadBalancer Json Json → Prop where
  | update {body : Option Json} {fields : Fields} (read : requestJson body = .ok fields) :
      Changed b (.update body) (assignLb fields b)
  | addBackend {body : Option Json} (v : Json) :
      Changed b (.addBackend body) { b with backends := v }
  | removeBackend {name : String} (v : Json) :
      Changed b (.removeBackend name) { b with backends := v }
  | addListener {id : String} {body : Option Json} {l : Listener}
      (free : ∀ x ∈ b.listeners, x.port ≠ l.port) :
      Changed b (.addListener id body) { b with listeners := b.listeners ++ [l] }
  | updateListener {listenerId : String} {body : Option Json} {p : Listener → Bool}
      (fields : Fields) :
      Changed b (.updateListener listenerId body)
        { b with listeners := modifyFirst p (assignListener fields) b.listeners }
  | removeListener {listenerId : String} (p : Listener → Bool) :
      Changed b (.removeListener listenerId) { b with listeners := b.listeners.filter p }
  | createTargetGroup {id : String} {body : Option Json} {tg : TargetGroup} {name : String}
      (named : tg.name = .str name) (free : ∀ x ∈ b.targetGroups, x.name ≠ .str name) :
      Changed b (.createTargetGroup id body) { b with targetGroups := b.targetGroups ++ [tg] }
  | updateTargetGroup {tgId : String} {body : Option Json} {tg tg' : TargetGroup}
      (found : findTargetGroup b tgId = some tg) (id : tg'.id = tg.id)
      (name : tg'.name = tg.name ∨ givenName body = some tg'.name) :
      Changed b (.updateTargetGroup tgId body)
        { b with targetGroups := modifyFirst (·.id == tgId) (fun _ => tg') b.targetGroups }
  | deleteTargetGroup {tgId : String} (p : TargetGroup → Bool) :
      Changed b (.deleteTargetGroup tgId) { b with targetGroups := b.targetGroups.filter p }
  | setHealthCheck {body : Option Json} (hc : HealthCheck) :
      Changed b (.setHealthCheck body) { b with healthCheck := some hc }
  | deleteHealthCheck : Changed b .deleteHealthCheck { b with healthCheck := none }

/-! ### Successful steps of an edit -/

theorem raising_eq_ok {α : Type} {x : Except Raised α} {a : α} :
    raising x = .ok a ↔ x = .ok a := mapError_eq_ok

/-- A refusal is no success. -/
theorem refuse_ne_ok {α : Type} {status : ℕ} {title detail : String} {a : α} :
    refuse status title detail ≠ .ok a := nofun

/-! ### The edits -/

theorem changed_update {body : Option Json} (h : editLb body b = .ok (b', reply)) :
    Changed b (.update body) b' := by
  obtain ⟨fields, hf, h⟩ := bind_eq_ok.mp h
  cases h
  exact .update (raising_eq_ok.mp hf)

theorem changed_addBackend {body : Option Json} (h : editAddBackend body b = .ok (b', reply)) :
    Changed b (.addBackend body) b' := by
  obtain ⟨fields, -, h⟩ := bind_eq_ok.mp h
  split at h
  · exact absurd h refuse_ne_ok
  · obtain ⟨l, -, h⟩ := bind_eq_ok.mp h
    obtain ⟨port, -, h⟩ := bind_eq_ok.mp h
    cases h
    exact .addBackend _

theorem changed_removeBackend {name : String} (h : editRemoveBackend name b = .ok (b', reply)) :
    Changed b (.removeBackend name) b' := by
  obtain ⟨l, -, h⟩ := bind_eq_ok.mp h
  obtain ⟨l', -, h⟩ := bind_eq_ok.mp h
  cases h
  exact .removeBackend _

theorem changed_addListener {id : String} {body : Option Json}
    (h : editAddListener pf id lbId body b = .ok (b', reply)) :
    Changed b (.addListener id body) b' := by
  obtain ⟨fields, -, h⟩ := bind_eq_ok.mp h
  obtain ⟨port, -, h⟩ := bind_eq_ok.mp h
  obtain ⟨protocol, -, h⟩ := bind_eq_ok.mp h
  split at h
  · exact absurd h refuse_ne_ok
  next hfree =>
    cases h
    refine .addListener fun x hx hport => hfree ?_
    exact List.any_eq_true.mpr ⟨x, hx, beq_iff_eq.mpr hport⟩

theorem changed_updateListener {listenerId : String} {body : Option Json}
    (h : editListener listenerId body b = .ok (b', reply)) :
    Changed b (.updateListener listenerId body) b' := by
  unfold editListener at h
  split at h
  · exact absurd h refuse_ne_ok
  · obtain ⟨fields, -, h⟩ := bind_eq_ok.mp h
    cases h
    exact .updateListener fields

theorem changed_removeListener {listenerId : String}
    (h : editRemoveListener listenerId b = .ok (b', reply)) :
    Changed b (.removeListener listenerId) b' := by
  unfold editRemoveListener at h
  split at h
  · cases h
    exact .removeListener _
  · exact absurd h refuse_ne_ok

theorem name_newTargetGroup {id name : String} {body : Fields} {tg : TargetGroup}
    (h : newTargetGroup pf id lbId name body = .ok tg) : tg.name = .str name := by
  obtain ⟨port, -, h⟩ := bind_eq_ok.mp h
  obtain ⟨protocol, -, h⟩ := bind_eq_ok.mp h
  obtain ⟨hc, -, h⟩ := bind_eq_ok.mp h
  obtain ⟨healthCheck, -, h⟩ := bind_eq_ok.mp h
  cases h
  rfl

theorem changed_createTargetGroup {id : String} {body : Option Json}
    (h : editCreateTargetGroup pf id lbId body b = .ok (b', reply)) :
    Changed b (.createTargetGroup id body) b' := by
  obtain ⟨fields, -, h⟩ := bind_eq_ok.mp h
  obtain ⟨name, -, h⟩ := bind_eq_ok.mp h
  split at h
  · exact absurd h refuse_ne_ok
  split at h
  · exact absurd h refuse_ne_ok
  unfold appendTargetGroup at h
  split at h
  · exact absurd h refuse_ne_ok
  next hfree =>
    obtain ⟨tg, htg, h⟩ := bind_eq_ok.mp h
    cases h
    refine .createTargetGroup (name_newTargetGroup htg) fun x hx hname => hfree ?_
    exact List.any_eq_true.mpr ⟨x, hx, Json.eq_str.mpr hname⟩

theorem name_assignTargetGroup {body : Option Json} {fields : Fields} {tg tg' : TargetGroup}
    (hb : requestJson body = .ok fields) (h : assignTargetGroup fields tg = .ok tg') :
    tg'.id = tg.id ∧ (tg'.name = tg.name ∨ givenName body = some tg'.name) := by
  obtain ⟨port, -, h⟩ := bind_eq_ok.mp h
  obtain ⟨healthCheck, -, h⟩ := bind_eq_ok.mp h
  cases h
  exact ⟨rfl, assigned_name hb tg.name⟩

theorem changed_updateTargetGroup {tgId : String} {body : Option Json}
    (h : editTargetGroup tgId body b = .ok (b', reply)) :
    Changed b (.updateTargetGroup tgId body) b' := by
  unfold editTargetGroup at h
  split at h
  · exact absurd h refuse_ne_ok
  next tg hfound =>
    obtain ⟨fields, hb, h⟩ := bind_eq_ok.mp h
    obtain ⟨tg', htg, h⟩ := bind_eq_ok.mp h
    cases h
    obtain ⟨hid, hname⟩ := name_assignTargetGroup (raising_eq_ok.mp hb) htg
    exact .updateTargetGroup hfound hid hname

theorem changed_deleteTargetGroup {tgId : String}
    (h : editDeleteTargetGroup tgId b = .ok (b', reply)) :
    Changed b (.deleteTargetGroup tgId) b' := by
  unfold editDeleteTargetGroup at h
  split at h
  · exact absurd h refuse_ne_ok
  · obtain ⟨n, -, h⟩ := bind_eq_ok.mp h
    split at h
    · exact absurd h refuse_ne_ok
    · cases h
      exact .deleteTargetGroup _

theorem changed_setHealthCheck {body : Option Json}
    (h : editSetHealthCheck pf body b = .ok (b', reply)) :
    Changed b (.setHealthCheck body) b' := by
  obtain ⟨fields, -, h⟩ := bind_eq_ok.mp h
  obtain ⟨protocol, -, h⟩ := bind_eq_ok.mp h
  dsimp only at h
  split at h
  · exact absurd h refuse_ne_ok
  · obtain ⟨hc, -, h⟩ := bind_eq_ok.mp h
    cases h
    exact .setHealthCheck _

theorem changed_deleteHealthCheck (h : editDeleteHealthCheck b = .ok (b', reply)) :
    Changed b .deleteHealthCheck b' := by
  cases h
  exact .deleteHealthCheck

/-- **An edit that is not refused changes one part.** -/
theorem changed_of_edit {e : LbRequest} (h : e.edit pf lbId b = .ok (b', reply)) :
    Changed b e b' := by
  cases e with
  | update body => exact changed_update h
  | addBackend body => exact changed_addBackend h
  | removeBackend name => exact changed_removeBackend h
  | addListener id body => exact changed_addListener h
  | updateListener listenerId body => exact changed_updateListener h
  | removeListener listenerId => exact changed_removeListener h
  | createTargetGroup id body => exact changed_createTargetGroup h
  | updateTargetGroup tgId body => exact changed_updateTargetGroup h
  | deleteTargetGroup tgId => exact changed_deleteTargetGroup h
  | setHealthCheck body => exact changed_setHealthCheck h
  | deleteHealthCheck => exact changed_deleteHealthCheck h

/-! ### What stays -/

theorem Changed.id {e : LbRequest} (h : Changed b e b') : b'.id = b.id := by
  cases h <;> rfl

theorem Changed.status {e : LbRequest} (h : Changed b e b') : b'.status = b.status := by
  cases h <;> rfl

theorem Changed.createdAt {e : LbRequest} (h : Changed b e b') : b'.createdAt = b.createdAt := by
  cases h <;> rfl

end Api
end CloudCore
