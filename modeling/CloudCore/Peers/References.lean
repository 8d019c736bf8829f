import CloudCore.Peers.Approval
import Mathlib.Data.List.Nodup

/-!
# Records follow the peer

A record of a VPC, a subnet, a security group or an instance that was placed on a peer
names the peer's row in `host_id`.  When a row of the host is approved, in
`approve_pairing_request` and in `complete_pairing`, the records of its other rows are
pointed to it.  `revoke_peer` points nothing anywhere: if the host has another approved
row, the records of the revoked one are left behind.

## Main definitions

* `Settled`, `Linked` — the records of a host name approved rows; they do if there are any.
* `Repaired` — nothing fails between approving a row and moving the records, and no row
  is revoked that records name while the host has another approved row.
* `Sound`, `Moving` — the invariant, and what holds while the records are moved.
* `Sequence` — operations one after the other.

## Main results

* `Sound.of_exec` — a command that is harmless, or says where a peer is, keeps the
  invariant.
* `Moving.migrate` — moving the records completes it.
* `linked_of_sequence` — **records follow the peer in every sequence of operations whose
  steps are all repaired.**
* `left_behind` — a record that names a revoked row of a host that is approved.
-/

namespace CloudCore
namespace Peers

open Python Effect
open Auth (PeerStatus)

/-! ### Records and rows -/

/-- The records that name a row of the host name an approved one. -/
def Settled (s : State) (fpr : String) : Prop :=
  ∀ r ∈ s.records, ∀ p ∈ s.peers, r.hostId = some p.id → p.pubkeyFpr = fpr → p.status = .approved

/-- The records that name a row of a host name an approved one, if the host has one. -/
def Linked (s : State) : Prop := ∀ fpr, s.Taken (.host fpr) → Settled s fpr

/-- What is asked of a step, in the state before it. -/
def Repaired (s : State) : (c : Cmd) → c.Ans → Prop
  | .updatePeer id .revoke, _ => ∀ r ∈ s.records, r.hostId = some id →
    ∀ p ∈ s.peers, p.id = id → ∀ q ∈ s.peers, q.id ≠ id → q.status = .approved →
      q.pubkeyFpr ≠ p.pubkeyFpr
  | .wgApproved peer _, .error _ => Settled s peer.pubkeyFpr
  | .updatePeer id (.tunnel ..), .error _ => ∀ p ∈ s.peers, p.id = id → Settled s p.pubkeyFpr
  | .migrate fpr _, .error _ => Settled s fpr
  | _, _ => True

/-- The steps that are repaired. -/
def execRepaired (s : State) (c : Cmd) (a : c.Ans) (s' : State) : Prop :=
  exec s c a s' ∧ Repaired s c a

/-- Every record that names a row names one that was approved. -/
def Named (s : State) : Prop :=
  ∀ r ∈ s.records, ∀ i, r.hostId = some i → ∃ p ∈ s.peers, p.id = i ∧ p.status ≠ .pendingOutbound

structure Sound (s : State) : Prop where
  ids : (s.peers.map (·.id)).Nodup
  named : Named s
  linked : Linked s

/-- The row has just been approved; the records of the host are about to be moved to it. -/
structure Moving (fpr id : String) (s : State) : Prop where
  ids : (s.peers.map (·.id)).Nodup
  named : Named s
  linked : ∀ f, f ≠ fpr → s.Taken (.host f) → Settled s f
  row : ∃ p ∈ s.peers, p.id = id ∧ p.status = .approved ∧ p.pubkeyFpr = fpr

theorem Moving.sound {fpr id : String} {s : State} (h : Moving fpr id s) (hs : Settled s fpr) :
    Sound s := by
  refine ⟨h.ids, h.named, fun f hf => ?_⟩
  by_cases hfpr : f = fpr
  · exact hfpr ▸ hs
  · exact h.linked f hfpr hf

/-- A row is known by its id. -/
theorem eq_of_id {peers : List Peer} (h : (peers.map (·.id)).Nodup) {p q : Peer} (hp : p ∈ peers)
    (hq : q ∈ peers) (hid : p.id = q.id) : p = q :=
  List.inj_on_of_nodup_map h hp hq hid

theorem findPeer_some {peers : List Peer} {id : Option String} {p : Peer}
    (h : findPeer peers id = some p) : p ∈ peers ∧ some p.id = id := by
  unfold findPeer at h
  have hid := List.find?_some (p := fun q : Peer => decide (some q.id = id)) h
  exact ⟨List.mem_of_find?_eq_some h, of_decide_eq_true hid⟩

theorem setPeer_ids (peers : List Peer) (id : String) (u : PeerUpdate) :
    (setPeer peers id u).map (·.id) = peers.map (·.id) := by
  rw [setPeer, List.map_map]
  refine List.map_congr_left fun p _ => ?_
  rw [Function.comp_apply]
  split
  · exact PeerUpdate.apply_id p u
  · rfl

/-- A row after an update is another row, or it is the updated one. -/
theorem mem_setPeer {peers : List Peer} {id : String} {u : PeerUpdate} {p : Peer}
    (h : p ∈ setPeer peers id u) : (p ∈ peers ∧ p.id ≠ id) ∨
      ∃ q ∈ peers, q.id = id ∧ p = u.apply q := by
  obtain ⟨q, hq, rfl⟩ := List.mem_map.mp h
  split
  · next hid => exact .inr ⟨q, hq, hid, rfl⟩
  · next hid => exact .inl ⟨hq, hid⟩

theorem mem_setPeer_of_ne {peers : List Peer} {id : String} {u : PeerUpdate} {p : Peer}
    (hp : p ∈ peers) (hid : p.id ≠ id) : p ∈ setPeer peers id u :=
  List.mem_map.mpr ⟨p, hp, if_neg hid⟩

theorem apply_mem_setPeer {peers : List Peer} {id : String} {u : PeerUpdate} {p : Peer}
    (hp : p ∈ peers) (hid : p.id = id) : u.apply p ∈ setPeer peers id u :=
  List.mem_map.mpr ⟨p, hp, if_pos hid⟩

/-! ### Updates that change neither the host nor the status -/

/-- The rows are of one host and have one status. -/
def Similar (p q : Peer) : Prop :=
  p.id = q.id ∧ p.status = q.status ∧ p.pubkeyFpr = q.pubkeyFpr

/-- What `on_peer_approved` and `_reconcile_peer` write. -/
def PeerUpdate.Neutral : PeerUpdate → Prop
  | .tunnel .. | .address .. => True
  | _ => False

theorem similar_apply {u : PeerUpdate} (hu : u.Neutral) (p : Peer) : Similar p (u.apply p) := by
  cases u with
  | complete | revoke => cases hu
  | tunnel | address => exact ⟨rfl, rfl, rfl⟩

/-- The records are the same, and so are the rows as far as hosts are concerned. -/
structure Alike (s s' : State) : Prop where
  records : s'.records = s.records
  ids : s'.peers.map (·.id) = s.peers.map (·.id)
  back : ∀ p' ∈ s'.peers, ∃ p ∈ s.peers, Similar p p'
  forth : ∀ p ∈ s.peers, ∃ p' ∈ s'.peers, Similar p p'

theorem alike_setPeer (s : State) (id : String) {u : PeerUpdate} (hu : u.Neutral) :
    Alike s { s with peers := setPeer s.peers id u } where
  records := rfl
  ids := setPeer_ids ..
  back p' hp' := by
    rcases mem_setPeer hp' with ⟨hp, -⟩ | ⟨p, hp, -, rfl⟩
    · exact ⟨p', hp, rfl, rfl, rfl⟩
    · exact ⟨p, hp, similar_apply hu p⟩
  forth p hp := by
    by_cases hid : p.id = id
    · exact ⟨_, apply_mem_setPeer hp hid, similar_apply hu p⟩
    · exact ⟨p, mem_setPeer_of_ne hp hid, rfl, rfl, rfl⟩

section Alike

variable {s s' : State} (h : Alike s s')

include h

theorem Alike.taken {fpr : String} (ht : s'.Taken (.host fpr)) : s.Taken (.host fpr) := by
  obtain ⟨p', hp', hstatus, hfpr⟩ := ht
  obtain ⟨p, hp, hsimilar⟩ := h.back p' hp'
  exact ⟨p, hp, hsimilar.2.1.trans hstatus, hsimilar.2.2.trans hfpr⟩

theorem Alike.settled {fpr : String} (hs : Settled s fpr) : Settled s' fpr := by
  intro r hr p' hp' hname hfpr
  obtain ⟨p, hp, hid, hstatus, hsame⟩ := h.back p' hp'
  rw [h.records] at hr
  exact hstatus ▸ hs r hr p hp (hname.trans (congrArg some hid.symm)) (hsame.trans hfpr)

theorem Alike.named (hs : Named s) : Named s' := by
  intro r hr i hi
  rw [h.records] at hr
  obtain ⟨p, hp, hid, hstatus⟩ := hs r hr i hi
  obtain ⟨p', hp', hsimilar⟩ := h.forth p hp
  exact ⟨p', hp', hsimilar.1.symm.trans hid, hsimilar.2.1 ▸ hstatus⟩

theorem Alike.sound (hs : Sound s) : Sound s' :=
  ⟨by rw [h.ids]; exact hs.ids, h.named hs.named,
    fun fpr ht => h.settled (hs.linked fpr (h.taken ht))⟩

theorem Alike.moving {fpr id : String} (hs : Moving fpr id s) : Moving fpr id s' := by
  refine ⟨by rw [h.ids]; exact hs.ids, h.named hs.named,
    fun f hf ht => h.settled (hs.linked f hf (h.taken ht)), ?_⟩
  obtain ⟨p, hp, hid, hstatus, hfpr⟩ := hs.row
  obtain ⟨p', hp', hsimilar⟩ := h.forth p hp
  exact ⟨p', hp', hsimilar.1.symm.trans hid, hsimilar.2.1.symm.trans hstatus,
    hsimilar.2.2.symm.trans hfpr⟩

end Alike

/-! ### What one command does -/

section Steps

variable {s : State}

theorem Named.revoke (h : Named s) (id : String) :
    Named { s with peers := setPeer s.peers id .revoke } := by
  intro r hr i hi
  obtain ⟨p, hp, hid, hstatus⟩ := h r hr i hi
  by_cases hrevoked : p.id = id
  · exact ⟨_, apply_mem_setPeer hp hrevoked, hid, nofun⟩
  · exact ⟨p, mem_setPeer_of_ne hp hrevoked, hid, hstatus⟩

/-- A row may be revoked if no record names it, or the host has no other approved row. -/
theorem Sound.revoke {id : String} (h : Sound s)
    (hrepaired : ∀ r ∈ s.records, r.hostId = some id → ∀ p ∈ s.peers, p.id = id →
      ∀ q ∈ s.peers, q.id ≠ id → q.status = .approved → q.pubkeyFpr ≠ p.pubkeyFpr) :
    Sound { s with peers := setPeer s.peers id .revoke } := by
  refine ⟨by rw [setPeer_ids]; exact h.ids, h.named.revoke id, ?_⟩
  rintro fpr ⟨q, hq, happroved, hfpr⟩ r hr p hp hname hhost
  -- the approved row is not the revoked one
  rcases mem_setPeer hq with ⟨hq, hqid⟩ | ⟨q, -, -, rfl⟩
  · rcases mem_setPeer hp with ⟨hp, -⟩ | ⟨p, hold, hpid, rfl⟩
    · exact h.linked fpr ⟨q, hq, happroved, hfpr⟩ r hr p hp hname hhost
    · have hnamed : r.hostId = some id := hname.trans (congrArg some hpid)
      exact absurd (hfpr.trans hhost.symm) (hrepaired r hr hnamed p hold hpid q hq hqid happroved)
  · cases happroved

theorem Named.insert {p : Peer} (h : Named s) : Named { s with peers := s.peers ++ [p] } := by
  intro r hr i hi
  obtain ⟨q, hq, hid⟩ := h r hr i hi
  exact ⟨q, List.mem_append_left _ hq, hid⟩

/-- No record names a row that is new. -/
theorem Named.not_named {p : Peer} (h : Named s) (hfresh : ∀ q ∈ s.peers, q.id ≠ p.id) {r : Record}
    (hr : r ∈ s.records) : r.hostId ≠ some p.id := by
  intro hname
  obtain ⟨q, hq, hid, -⟩ := h r hr p.id hname
  exact hfresh q hq hid

theorem nodup_insert {peers : List Peer} {p : Peer} (h : (peers.map (·.id)).Nodup)
    (hfresh : ∀ q ∈ peers, q.id ≠ p.id) : ((peers ++ [p]).map (·.id)).Nodup := by
  rw [List.map_append, List.map_singleton, List.nodup_append]
  refine ⟨h, List.nodup_singleton _, fun a ha b hb => ?_⟩
  obtain ⟨q, hq, rfl⟩ := List.mem_map.mp ha
  rw [List.mem_singleton.mp hb]
  exact hfresh q hq

/-- A record that names a row names an old one. -/
theorem Settled.insert {p : Peer} {fpr : String} (h : Settled s fpr) (hnamed : Named s)
    (hfresh : ∀ q ∈ s.peers, q.id ≠ p.id) : Settled { s with peers := s.peers ++ [p] } fpr := by
  intro r hr q hq hname hfpr
  rcases List.mem_append.mp hq with hq | hq
  · exact h r hr q hq hname hfpr
  · rw [List.mem_singleton.mp hq] at hname
    exact absurd hname (hnamed.not_named hfresh hr)

theorem Sound.insert {p : Peer} (h : Sound s) (hfresh : ∀ q ∈ s.peers, q.id ≠ p.id)
    (hp : p.status ≠ .approved) : Sound { s with peers := s.peers ++ [p] } := by
  refine ⟨nodup_insert h.ids hfresh, h.named.insert, ?_⟩
  rintro fpr ⟨q, hq, happroved, hfpr⟩
  rcases List.mem_append.mp hq with hq | hq
  · exact (h.linked fpr ⟨q, hq, happroved, hfpr⟩).insert h.named hfresh
  · rw [List.mem_singleton.mp hq] at happroved
    exact absurd happroved hp

/-- From the row of an approved request on, the records are to be moved. -/
theorem Sound.approve {p : Peer} (h : Sound s) (hfresh : ∀ q ∈ s.peers, q.id ≠ p.id)
    (hp : p.status = .approved) :
    Moving p.pubkeyFpr p.id { s with peers := s.peers ++ [p] } := by
  refine ⟨nodup_insert h.ids hfresh, h.named.insert, ?_,
    p, List.mem_append_right _ (List.mem_singleton_self p), rfl, hp, rfl⟩
  rintro fpr hne ⟨q, hq, happroved, hfpr⟩
  rcases List.mem_append.mp hq with hq | hq
  · exact (h.linked fpr ⟨q, hq, happroved, hfpr⟩).insert h.named hfresh
  · rw [List.mem_singleton.mp hq] at hfpr
    exact absurd hfpr.symm hne

/-- From the approval of a pending row on, the records are to be moved. -/
theorem Sound.complete {row : Peer} (h : Sound s) (hrow : row ∈ s.peers)
    (hpending : row.status = .pendingOutbound) (k f : String) (t w e b : Option String)
    (a : String) :
    Moving f row.id { s with peers := setPeer s.peers row.id (.complete k f t w e b a) } := by
  refine ⟨by rw [setPeer_ids]; exact h.ids, ?_, ?_, _, apply_mem_setPeer hrow rfl, rfl, rfl, rfl⟩
  · intro r hr i hi
    obtain ⟨p, hp, hid, hstatus⟩ := h.named r hr i hi
    refine ⟨p, mem_setPeer_of_ne hp fun hsame => hstatus ?_, hid, hstatus⟩
    rw [eq_of_id h.ids hp hrow hsame]
    exact hpending
  · rintro fpr hne ⟨q, hq, happroved, hfpr⟩ r hr p hp hname hhost
    rcases mem_setPeer hq with ⟨hq, -⟩ | ⟨q, -, -, rfl⟩
    · rcases mem_setPeer hp with ⟨hp, -⟩ | ⟨p, -, -, rfl⟩
      · exact h.linked fpr ⟨q, hq, happroved, hfpr⟩ r hr p hp hname hhost
      · exact absurd hhost.symm hne
    · exact absurd hfpr.symm hne

/-- A record is pointed to the row, or it named no row of the list. -/
theorem mem_redirect {records : List Record} {ids : List String} {id : String} {r : Record}
    (h : r ∈ redirect records ids id) :
    r.hostId = some id ∨ (r ∈ records ∧ ∀ i ∈ ids, r.hostId ≠ some i) := by
  obtain ⟨q, hq, rfl⟩ := List.mem_map.mp h
  split
  · exact .inl rfl
  · next hany =>
    refine .inr ⟨hq, fun i hi hname => hany ?_⟩
    rw [hname]
    exact List.contains_iff_mem.mpr hi

/-- **Moving the records completes an approval.** -/
theorem Moving.migrate {fpr id : String} (h : Moving fpr id s) :
    Sound { s with records := redirect s.records (otherIds s.peers fpr id) id } := by
  obtain ⟨q, hq, hqid, happroved, hqfpr⟩ := h.row
  refine ⟨h.ids, ?_, fun f hf r hr p hp hname hfpr => ?_⟩
  · intro r hr i hi
    rcases mem_redirect hr with hmoved | ⟨hr, -⟩
    · rw [hmoved, Option.some.injEq] at hi
      exact ⟨q, hq, hqid.trans hi, by rw [happroved]; decide⟩
    · exact h.named r hr i hi
  · rcases mem_redirect hr with hmoved | ⟨hr, hothers⟩
    · rw [hmoved, Option.some.injEq] at hname
      rw [eq_of_id h.ids hp hq (hname.symm.trans hqid.symm)]
      exact happroved
    · by_cases hsame : f = fpr
      · -- a row of the host that is named is the new one
        have hpid : p.id = id := by
          by_contra hne
          refine hothers p.id (List.mem_map_of_mem (List.mem_filter.mpr ⟨hp, ?_⟩)) hname
          rw [Bool.and_eq_true, decide_eq_true_eq, decide_eq_true_eq]
          exact ⟨hfpr.trans hsame, hne⟩
        rw [eq_of_id h.ids hp hq (hpid.trans hqid.symm)]
        exact happroved
      · exact h.linked f hsame hf r hr p hp hname hfpr

theorem mem_upsert {records : List Record} {r r' : Record} (h : r' ∈ upsert records r) :
    r' ∈ records ∨ r' = r := by
  unfold upsert at h
  split at h
  · obtain ⟨q, hq, rfl⟩ := List.mem_map.mp h
    split
    · exact .inr rfl
    · exact .inl hq
  · rcases List.mem_append.mp h with h | h
    · exact .inl h
    · exact .inr (List.mem_singleton.mp h)

/-- A record is placed on a peer that is approved. -/
theorem Sound.put {r : Record} (h : Sound s)
    (hhost : ∃ p ∈ s.peers, some p.id = r.hostId ∧ p.status = .approved) :
    Sound { s with records := upsert s.records r } := by
  obtain ⟨q, hq, hqid, happroved⟩ := hhost
  refine ⟨h.ids, ?_, fun f hf r' hr' p hp hname hfpr => ?_⟩
  · intro r' hr' i hi
    rcases mem_upsert hr' with hr' | rfl
    · exact h.named r' hr' i hi
    · exact ⟨q, hq, Option.some.inj (hqid.trans hi), by rw [happroved]; decide⟩
  · rcases mem_upsert hr' with hr' | rfl
    · exact h.linked f hf r' hr' p hp hname hfpr
    · rw [eq_of_id h.ids hp hq (Option.some.inj (hname.symm.trans hqid.symm))]
      exact happroved

/-- The command is harmless, or says where a peer is. -/
def Tame (c : Cmd) : Prop :=
  Harmless c ∨
    match c with
    | .updatePeer _ (.address ..) => True
    | _ => False

/-- What is placed where is changed by placing and by moving only. -/
theorem records_step {s' : State} {c : Cmd} {a : c.Ans} (h : exec s c a s') (hc : Tame c) :
    s'.records = s.records := by
  cases c with
  | insertPeer | insertRequest =>
    cases a with
    | error e =>
      cases h
      rfl
    | ok u =>
      obtain ⟨-, rfl⟩ := h
      rfl
  | updatePeer =>
    cases a with
    | error e =>
      cases h
      rfl
    | ok p =>
      obtain ⟨rfl, -⟩ := h
      rfl
  | listPeers | getPeer | findPendingOutbound | countPending | getRequest => rw [h.1]
  | expireStale | updateRequest => cases a <;> (cases h; rfl)
  | migrate | putRecord => exact (hc.elim id id).elim
  | _ =>
    cases h
    rfl

/-- The invariant is about the rows and the records only. -/
theorem Sound.congr {s' : State} (h : Sound s) (hpeers : s'.peers = s.peers)
    (hrecords : s'.records = s.records) : Sound s' := by
  refine Alike.sound ⟨hrecords, congrArg _ hpeers, fun p hp => ?_, fun p hp => ?_⟩ h
  · exact ⟨p, hpeers ▸ hp, rfl, rfl, rfl⟩
  · exact ⟨p, hpeers ▸ hp, rfl, rfl, rfl⟩

/-- **A command that is harmless, or says where a peer is, keeps the invariant.** -/
theorem Sound.of_exec {s' : State} {c : Cmd} {a : c.Ans} (h : Sound s) (hc : Tame c)
    (hx : execRepaired s c a s') : Sound s' := by
  obtain ⟨hx, hrepaired⟩ := hx
  have hrecords : s'.records = s.records := records_step hx hc
  rcases peers_step hx with hsame | ⟨p, r, rfl, hfresh, hadd⟩ | ⟨id, u, rfl, hset⟩
  · exact h.congr hsame hrecords
  · exact (h.insert hfresh (hc.resolve_right id).1).congr hadd hrecords
  · cases u with
    | complete => exact (hc.elim (fun h => h) fun h => h).elim
    | revoke => exact (h.revoke hrepaired).congr hset hrecords
    | tunnel | address =>
      exact ((alike_setPeer s id (by trivial)).sound h).congr hset hrecords

end Steps

/-! ### What the operations do -/

/-- From `s` the program leads to states with the invariant, however it ends. -/
def Safe {α : Type} (p : Code α) (s : State) : Prop :=
  p.wp (F := sig) execRepaired Eq (fun _ _ _ _ => True) (fun _ => Sound) (fun _ => Sound) s

section Code

variable {α β : Type} {s : State} {pf : Platform}

theorem safe_call {c : sig.Cmd} {k : sig.Ans c → Code α}
    (h : ∀ a s', execRepaired s c a s' → Safe (k a) s') : Safe (.call c k) s := by
  rintro _ rfl a s' hx
  exact ⟨trivial, h a s' hx⟩

theorem safe_perform {c : sig.Cmd} {f : sig.Ans c → Code α}
    (h : ∀ a s', execRepaired s c a s' → Safe (f a) s') : Safe (perform c >>= f) s :=
  safe_call h

theorem safe_bind {p : Code β} {f : β → Code α} (h : Safe p s)
    (hf : ∀ b s, Sound s → Safe (f b) s) : Safe (p >>= f) s :=
  (Program.wp_bind p f).mpr (Program.wp_mono hf (fun _ _ h => h) h)

theorem keeps_sound : Program.Keeps (F := sig) execRepaired Eq (fun _ _ _ _ => True)
    (fun _ _ => True) Tame Sound where
  stable _ _ hs h := hs ▸ h
  told _ _ _ _ _ _ := trivial
  step _ _ _ _ h hx hc := ⟨trivial, h.of_exec hc hx⟩

theorem safe_tame {p : Code α} (hp : p.Confined Tame fun _ => True) (h : Sound s) : Safe p s :=
  Program.wp_mono (fun _ _ h => h.2) (fun _ _ h => h)
    (Program.carried_confined (F := sig) keeps_sound hp s h)

theorem safe_quiet {p : Code α} (hp : Quiet p) (h : Sound s) : Safe p s :=
  safe_tame (hp.mono fun _ => .inl) h

theorem safe_quiet_bind {p : Code β} {f : β → Code α} (hp : Quiet p) (h : Sound s)
    (hf : ∀ b s, Sound s → Safe (f b) s) : Safe (p >>= f) s :=
  safe_bind (safe_quiet hp h) hf

theorem safe_lift {x : Except Failure β} {f : β → Code α} (h : Sound s)
    (hf : ∀ b, x = .ok b → Safe (f b) s) : Safe (Program.lift x >>= f) s := by
  cases x with
  | ok b => exact hf b rfl
  | error e => exact h

/-- A step that may raise. -/
theorem safe_attempt {c : sig.Cmd} (hans : sig.Ans c = Except Failure β) {f : β → Code α}
    (h : ∀ a s', execRepaired s c a s' → Safe (Program.lift (hans ▸ a) >>= f) s') :
    Safe (attempt c hans >>= f) s :=
  safe_call h

/-- From the approval of a row on: the records are moved to it, or none has to be. -/
theorem safe_settle {row : Peer} {fpr : Peer → String} {host : String} {f : Peer → Code α}
    (hrow : row.pubkeyFpr = host) (hfpr : ∀ p, p.pubkeyFpr = host → fpr p = host)
    (h : Moving host row.id s) (hf : ∀ b s, Sound s → Safe (f b) s) :
    Safe (settle row fpr >>= f) s := by
  refine safe_call fun approved s₁ hx => ?_
  obtain ⟨⟨rfl, -⟩, -⟩ := hx
  refine safe_call fun tunnel s₂ hx => ?_
  cases tunnel with
  | error e =>
    obtain ⟨rfl, hsettled⟩ := hx
    exact h.sound (hrow ▸ hsettled)
  | ok tunnel =>
    obtain ⟨rfl, -⟩ := hx
    refine safe_call fun updated s₃ hx => ?_
    obtain ⟨p, hp, hid, happroved, hphost⟩ := h.row
    cases updated with
    | error e =>
      obtain ⟨rfl, hsettled⟩ := hx
      exact h.sound (hphost ▸ hsettled p hp hid)
    | ok updated =>
      obtain ⟨⟨rfl, rfl⟩, -⟩ := hx
      have hmoving := (alike_setPeer s₂ row.id (u := .tunnel tunnel.1 tunnel.2) trivial).moving h
      obtain ⟨q, hq, hqid, -, hqhost⟩ := hmoving.row
      cases hfind : findPeer (setPeer s₂.peers row.id (.tunnel tunnel.1 tunnel.2)) (some row.id) with
      | none =>
        have hnone := List.find?_eq_none.mp hfind q hq
        exact absurd (decide_eq_true (congrArg some hqid)) hnone
      | some updated =>
        obtain ⟨hmem, hid⟩ := findPeer_some hfind
        have hupdated : updated.id = row.id := Option.some.inj hid
        have hhost : updated.pubkeyFpr = host := by
          rw [eq_of_id hmoving.ids hmem hq (hupdated.trans hqid.symm)]
          exact hqhost
        refine safe_call fun n s₄ hx => ?_
        rw [hfpr updated hhost, hupdated] at hx
        cases n with
        | error e =>
          obtain ⟨rfl, hsettled⟩ := hx
          exact hmoving.sound hsettled
        | ok n =>
          obtain ⟨rfl, -⟩ := hx
          exact hf updated _ hmoving.migrate

theorem safe_approvePairingRequest (id : String) (h : Sound s) :
    Safe (approvePairingRequest pf id) s := by
  refine safe_quiet_bind (quiet_perform trivial) h fun row s h => ?_
  split
  · exact h
  split
  · exact h
  refine safe_quiet_bind (quiet_perform trivial) h fun now s h => ?_
  split
  · exact safe_quiet (quiet_bind (quiet_attempt rfl trivial) fun u => trivial) h
  refine safe_quiet_bind (quiet_perform trivial) h fun localToken s h => ?_
  refine safe_quiet_bind (quiet_attempt rfl trivial) h fun me s h => ?_
  refine safe_quiet_bind (quiet_perform trivial) h fun approvedAt s h => ?_
  refine safe_quiet_bind (quiet_perform trivial) h fun i s h => ?_
  refine safe_quiet_bind (quiet_perform trivial) h fun createdAt s h => ?_
  refine safe_attempt rfl fun a s' hx => ?_
  cases a with
  | error e =>
    obtain ⟨rfl, -⟩ := hx
    exact h
  | ok u =>
    obtain ⟨⟨hfresh, rfl⟩, -⟩ := hx
    have hmoving := h.approve hfresh rfl
    refine safe_settle rfl (fun _ hp => hp) ⟨hmoving.ids, hmoving.named, hmoving.linked, hmoving.row⟩
      fun row s h => ?_
    refine safe_quiet_bind (quiet_attempt rfl trivial) h fun me' s h => ?_
    refine safe_quiet_bind (quiet_postOrReason _ _ _) h fun delivered s h => ?_
    exact safe_quiet (quiet_bind (quiet_attempt rfl trivial) fun u => trivial) h

theorem safe_completeRow {row : Peer} {body : Option Json} (h : Sound s) (hrow : row ∈ s.peers)
    (hpending : row.status = .pendingOutbound) : Safe (completeRow pf row body) s := by
  refine safe_lift h fun body hbody => ?_
  split
  · exact h
  refine safe_call fun approvedAt s₁ hx => ?_
  obtain ⟨rfl, -⟩ := hx
  refine safe_lift h fun update hupdate => ?_
  obtain ⟨k, f, t, w, e, b, rfl⟩ := completeUpdate_complete pf hupdate
  refine safe_attempt rfl fun a s' hx => ?_
  cases a with
  | error e =>
    obtain ⟨rfl, -⟩ := hx
    exact h
  | ok updated =>
    obtain ⟨⟨rfl, rfl⟩, -⟩ := hx
    have hmoving := h.complete hrow hpending k f t w e b approvedAt
    obtain ⟨q, hq, hqid, -, hqhost⟩ := hmoving.row
    cases hfind : findPeer (setPeer s₁.peers row.id (.complete k f t w e b approvedAt))
        (some row.id) with
    | none =>
      have hnone := List.find?_eq_none.mp hfind q hq
      exact absurd (decide_eq_true (congrArg some hqid)) hnone
    | some updated =>
      obtain ⟨hmem, hid⟩ := findPeer_some hfind
      have hupdated : updated.id = row.id := Option.some.inj hid
      have hhost : updated.pubkeyFpr = f := by
        rw [eq_of_id hmoving.ids hmem hq (hupdated.trans hqid.symm)]
        exact hqhost
      exact safe_settle hhost (fun _ _ => hhost) (hupdated ▸ hmoving) fun _ _ h => h

theorem safe_completePairing (token : String) (body : Option Json) (h : Sound s) :
    Safe (completePairing pf token body) s := by
  unfold completePairing
  split
  · exact h
  refine safe_perform fun row s' hx => ?_
  obtain ⟨⟨rfl, rfl⟩, -⟩ := hx
  split
  · exact h
  next row hfind =>
    have hrow := List.find?_some hfind
    rw [Bool.and_eq_true, decide_eq_true_eq, decide_eq_true_eq] at hrow
    exact safe_completeRow h (List.mem_of_find?_eq_some hfind) hrow.2

/-- Another host is asked; nothing changes here. -/
theorem safe_postOrReason {url : String} {body : Json} {token : Option String}
    {f : String ⊕ (ℕ × Json) → Code α} (h : Sound s) (hf : ∀ r, Safe (f r) s) :
    Safe (postOrReason url body token >>= f) s := by
  refine safe_call fun a s' hx => ?_
  obtain ⟨rfl, -⟩ := hx
  cases a with
  | ok r => exact hf (.inr r)
  | error e =>
    cases e with
    | unreachable message => exact hf (.inl message)
    | _ => exact h

theorem safe_createRemote (table : HostTable) (peerId : Json) (fields : List (String × Json))
    (h : Sound s) : Safe (createRemote pf table peerId fields) s := by
  refine safe_lift h fun hostId _ => ?_
  refine safe_perform fun row s' hx => ?_
  obtain ⟨⟨rfl, rfl⟩, -⟩ := hx
  split
  · exact h
  next peer hpeer =>
    rw [Option.filter_eq_some_iff] at hpeer
    obtain ⟨hmem, hid⟩ := findPeer_some hpeer.1
    refine safe_postOrReason h fun r => ?_
    split
    · exact h
    split
    · exact h
    refine safe_lift h fun i _ => ?_
    refine safe_attempt rfl fun a s'' hx => ?_
    cases a with
    | error e =>
      obtain ⟨rfl, -⟩ := hx
      exact h
    | ok u =>
      obtain ⟨rfl, -⟩ := hx
      exact h.put ⟨peer, hmem, hid, of_decide_eq_true hpeer.2⟩

/-- **Every operation keeps the invariant.** -/
theorem safe_code (op : Operation) (h : Sound s) : Safe (op.code pf) s := by
  have htame : (∀ c, op.Issues c → Tame c) → Safe (op.code pf) s := fun hop =>
    safe_tame (Program.confined_mono (fun c hc => hc.elim .inl (hop c)) (within_code pf op)) h
  cases op with
  | approve id => exact safe_bind (safe_approvePairingRequest id h) fun _ _ h => h
  | complete token body => exact safe_bind (safe_completePairing token body h) fun _ _ h => h
  | place table peerId fields =>
    exact safe_bind (safe_createRemote table peerId fields h) fun _ _ h => h
  | reconcile id hit =>
    refine htame fun c hc => ?_
    cases c with
    | updatePeer i u =>
      cases u with
      | address => exact .inr trivial
      | _ => cases hc
    | _ => cases hc
  | initiate | bootstrap | reject | revoke => exact htame fun c hc => hc.elim

end Code

/-! ### Sequences of operations -/

/-- Operations that run one after the other, each to its end. -/
def Sequence (exec : State → (c : Cmd) → c.Ans → State → Prop) (pf : Platform) :
    State → State → Prop :=
  Relation.ReflTransGen fun s s' => ∃ (op : Operation) (r : Except Failure Unit),
    Program.Ends (F := sig) exec s (op.code pf) r s'

/-- **Records follow the peer in every sequence of operations whose steps are all
repaired.** -/
theorem linked_of_sequence {pf : Platform} {s : State} (h : Sequence execRepaired pf .empty s) :
    Linked s := by
  have hsound : Sound s := by
    induction h with
    | refl =>
      -- there are no records yet
      exact ⟨.nil, fun r hr => absurd hr List.not_mem_nil, fun _ _ r hr => absurd hr List.not_mem_nil⟩
    | tail _ hop ih =>
      obtain ⟨op, r, hends⟩ := hop
      exact hends.of_wp (safe_code op ih)
  exact hsound.linked

/-- The operations, one after the other, where they can be run. -/
def runAll (answer : State → (c : sig.Cmd) → Option (sig.Ans c × State)) :
    List Operation → State → Option State
  | [], s => some s
  | op :: l, s => ((op.code plainPlatform).run answer s).bind fun (_, s') => runAll answer l s'

theorem sequence_of_runAll {exec : State → (c : Cmd) → c.Ans → State → Prop}
    {answer : State → (c : sig.Cmd) → Option (sig.Ans c × State)}
    (hanswer : ∀ s c a s', answer s c = some (a, s') → exec s c a s') {l : List Operation}
    {s s' : State} (h : runAll answer l s = some s') : Sequence exec plainPlatform s s' := by
  induction l generalizing s with
  | nil =>
    cases h
    exact .refl
  | cons op l ih =>
    obtain ⟨⟨r, s₁⟩, hop, hrest⟩ := Option.bind_eq_some_iff.mp h
    exact .head ⟨op, r, Program.ends_of_run hanswer hop⟩ (ih hrest)

/-- A host that answers every request with a VPC. -/
def madeVpc (_ : String) : ℕ × Json := (201, .obj [("id", .str "v")])

/-- A row is revoked only if there is no other. -/
def allowed (s : State) : Cmd → Bool
  | .updatePeer id .revoke => s.peers.all (·.id = id)
  | _ => true

def careful (s : State) (c : sig.Cmd) : Option (sig.Ans c × State) :=
  (surroundings madeVpc s c).filter fun _ => allowed s c

theorem execRepaired_careful {s s' : State} {c : sig.Cmd} {a : sig.Ans c}
    (h : careful s c = some (a, s')) : execRepaired s c a s' := by
  obtain ⟨h, hallowed⟩ := Option.filter_eq_some_iff.mp h
  refine ⟨exec_surroundings h, ?_⟩
  cases c with
  | updatePeer id u =>
    cases u with
    | revoke =>
      intro r _ _ p _ _ q hq hne
      exact absurd (of_decide_eq_true (List.all_eq_true.mp hallowed q hq)) hne
    | tunnel =>
      cases h
      trivial
    | _ => trivial
  | wgApproved =>
    cases h
    trivial
  | migrate =>
    cases h
    trivial
  | _ => trivial

/-- What a record names: the row and its status. -/
def placements (s : State) : List (Option String × List (String × PeerStatus)) :=
  s.records.map fun r => (r.hostId, s.peers.map fun p => (p.id, p.status))

/-- A VPC is placed on a peer, which is revoked and paired again: the record follows. -/
theorem linked_of_sequence_repaired : ∃ s, placements s = [(some "xxxx",
    [("xx", .revoked), ("xxxx", .approved)])] ∧ Linked s := by
  have hrun : (runAll careful [bootstrap, .approve "x", .place .vpcs (.str "xx") [], .revoke "xx",
      bootstrap, .approve "xxx"] .empty).map placements =
        some [(some "xxxx", [("xx", .revoked), ("xxxx", .approved)])] := by
    with_unfolding_all decide
  obtain ⟨s, hs, hplaced⟩ := Option.map_eq_some_iff.mp hrun
  exact ⟨s, hplaced, linked_of_sequence
    (sequence_of_runAll (fun _ _ _ _ => execRepaired_careful) hs)⟩

/-- A host is approved twice, a VPC is placed on the first row, and this row is revoked. -/
theorem left_behind : ¬∀ s, Sequence exec plainPlatform .empty s → Linked s := by
  intro hall
  have hrun : (runAll (surroundings madeVpc) [bootstrap, bootstrap, .approve "x", .approve "xx",
      .place .vpcs (.str "xxx") [], .revoke "xxx"] .empty).map (fun s =>
        (s.records.map (·.hostId), s.peers.map fun p => (p.id, p.status, p.pubkeyFpr))) =
      some ([some "xxx"], [("xxx", .revoked, "SHA256:there's key"),
        ("xxxx", .approved, "SHA256:there's key")]) := by
    with_unfolding_all decide
  obtain ⟨s, hs, hleft⟩ := Option.map_eq_some_iff.mp hrun
  rw [Prod.mk.injEq] at hleft
  obtain ⟨r, hr, hname⟩ : ∃ r ∈ s.records, r.hostId = some "xxx" := by
    rw [← List.mem_map, hleft.1]
    exact List.mem_singleton_self _
  obtain ⟨p, hp, hrevoked⟩ : ∃ p ∈ s.peers,
      (p.id, p.status, p.pubkeyFpr) = ("xxx", .revoked, "SHA256:there's key") := by
    rw [← List.mem_map, hleft.2]
    exact List.mem_cons_self
  obtain ⟨q, hq, happroved⟩ : ∃ q ∈ s.peers,
      (q.id, q.status, q.pubkeyFpr) = ("xxxx", .approved, "SHA256:there's key") := by
    rw [← List.mem_map, hleft.2]
    exact List.mem_cons_of_mem _ (List.mem_singleton_self _)
  simp only [Prod.mk.injEq] at hrevoked happroved
  have hlinked := hall s (sequence_of_runAll (fun _ _ _ _ => exec_surroundings) hs)
    "SHA256:there's key" ⟨q, hq, happroved.2⟩ r hr p hp
    (by rw [hname, hrevoked.1]) hrevoked.2.2
  rw [hrevoked.2.1] at hlinked
  cases hlinked

end Peers
end CloudCore
