import CloudCore.Peers.Store

/-!
# Revoked for good

`revoke_peer` marks the row and takes its tokens away.  The other handlers look a row
up first and write to it later.  Of their writes only that of `complete_pairing` sets
a status and a token; it does not look at the row again, so a revocation that falls in
between is undone.

## Main definitions

* `Gone` — the row is revoked and has no tokens.
* `findPeerByLocalToken` — the lookup of a request's token.
* `StillPending` — `complete_pairing` does not write to a revoked row.

## Main results

* `gone_step` — every other command keeps a revoked row revoked.
* `revoked_for_good` — **a revoked row stays so in every run in which
  `complete_pairing` writes to no revoked row.**
* `revocation_undone` — a revocation between the lookup and the write is undone.
-/

namespace CloudCore
namespace Peers

open Python Effect
open Auth (PeerStatus)

/-- The row is revoked and has no tokens. -/
def Gone (id : String) (peers : List Peer) : Prop :=
  ∀ p ∈ peers, p.id = id → p.status = .revoked ∧ p.localToken = none ∧ p.remoteToken = none

def findPeerByLocalToken (peers : List Peer) (token : String) : Option Peer :=
  peers.find? fun p => p.localToken = some token && p.status = .approved

/-- Nobody is identified as a row that is gone. -/
theorem Gone.not_found {id : String} {peers : List Peer} (h : Gone id peers) (token : String)
    (p : Peer) (hp : findPeerByLocalToken peers token = some p) : p.id ≠ id := by
  intro hid
  have hstatus := List.find?_some hp
  simp only [Bool.and_eq_true, decide_eq_true_eq] at hstatus
  rw [(h p (List.mem_of_find?_eq_some hp) hid).2.1] at hstatus
  cases hstatus.1

/-- The update is not that of `complete_pairing`. -/
def PeerUpdate.Mild : PeerUpdate → Prop
  | .complete .. => False
  | _ => True

theorem PeerUpdate.apply_id (p : Peer) (u : PeerUpdate) : (u.apply p).id = p.id := by
  cases u <;> rfl

/-- A mild update leaves a row that is gone as it is in status and tokens. -/
theorem gone_apply {p : Peer} {u : PeerUpdate} (hu : u.Mild)
    (h : p.status = .revoked ∧ p.localToken = none ∧ p.remoteToken = none) :
    (u.apply p).status = .revoked ∧ (u.apply p).localToken = none ∧
      (u.apply p).remoteToken = none := by
  cases u with
  | complete => cases hu
  | tunnel status transitIp => exact h
  | revoke => exact ⟨rfl, rfl, rfl⟩
  | address apiUrl wgPubkey wgEndpoint wgBridgeSubnet => exact h

/-- After `revoke_peer` the row is gone. -/
theorem gone_revoke (peers : List Peer) (id : String) : Gone id (setPeer peers id .revoke) := by
  intro p hp hid
  obtain ⟨q, -, rfl⟩ := List.mem_map.mp hp
  split at hid
  · next hq =>
    rw [if_pos hq]
    exact ⟨rfl, rfl, rfl⟩
  · next hq => exact absurd hid hq

/-- A command keeps a row gone, unless it is `complete_pairing`'s write to it. -/
theorem gone_step {s s' : State} {c : Cmd} {a : c.Ans} {id : String} (h : exec s c a s')
    (hc : ∀ u, c = .updatePeer id u → u.Mild) (hexists : ∃ p ∈ s.peers, p.id = id)
    (hgone : Gone id s.peers) : Gone id s'.peers ∧ ∃ p ∈ s'.peers, p.id = id := by
  rcases peers_step h with hsame | ⟨p, r, rfl, hfresh, hadd⟩ | ⟨id', u, rfl, hset⟩
  · rw [hsame]
    exact ⟨hgone, hexists⟩
  · rw [hadd]
    obtain ⟨q, hq, hid⟩ := hexists
    refine ⟨?_, q, List.mem_append_left _ hq, hid⟩
    intro p' hp' hid'
    rcases List.mem_append.mp hp' with hp' | hp'
    · exact hgone p' hp' hid'
    · -- a new row has an id of its own
      rw [List.mem_singleton.mp hp'] at hid'
      exact absurd (hid.trans hid'.symm) (hfresh q hq)
  · rw [hset]
    constructor
    · intro p hp hid
      obtain ⟨q, hq, rfl⟩ := List.mem_map.mp hp
      split at hid
      · next hqid =>
        rw [PeerUpdate.apply_id] at hid
        rw [if_pos hqid]
        rw [show id' = id from hqid.symm.trans hid] at hc
        exact gone_apply (hc u rfl) (hgone q hq hid)
      · next hqid =>
        rw [if_neg hqid]
        exact hgone q hq hid
    · obtain ⟨q, hq, hid⟩ := hexists
      refine ⟨_, List.mem_map_of_mem hq, ?_⟩
      split
      · rw [PeerUpdate.apply_id, hid]
      · exact hid

variable {ι : Type} [DecidableEq ι] {pf : Platform}

/-- `complete_pairing` does not write to a row that has been revoked. -/
def StillPending (x : Config sig Failure Unit ι State) (m : Move sig Failure Unit ι) : Prop :=
  ∀ i id u a, m = .call i (.updatePeer id u) a →
    (∃ p ∈ x.shared.peers, p.id = id ∧ p.status = .revoked) → u.Mild

/-- **A revoked row is never approved and never holds a token again, and nobody is
identified as it, in every run in which `complete_pairing` writes to no revoked row.** -/
theorem revoked_for_good {x y z : Config sig Failure Unit ι State} {i : ι} {id : String}
    {a : (Cmd.updatePeer id .revoke).Ans} (_ : Reaches (fun _ => exec) (Starts pf) (.idle .empty) x)
    (hrow : ∃ p ∈ x.shared.peers, p.id = id) (hok : ∃ p, a = .ok p)
    (hrevoke : Step (fun _ => exec) x (.call i (.updatePeer id .revoke) a) y)
    (hz : Reaches (fun _ => exec) (fun x m => Starts pf x m ∧ StillPending x m) y z) :
    (∀ p ∈ z.shared.peers, p.id = id → p.status ≠ .approved ∧ p.remoteToken = none) ∧
      ∀ token p, findPeerByLocalToken z.shared.peers token = some p → p.id ≠ id := by
  have hy : Gone id y.shared.peers ∧ ∃ p ∈ y.shared.peers, p.id = id := by
    obtain ⟨p, rfl⟩ := hok
    cases hrevoke with
    | @call _ _ k _ s ht hx =>
      obtain ⟨rfl, -⟩ := hx
      refine ⟨gone_revoke _ _, ?_⟩
      obtain ⟨q, hq, hid⟩ := hrow
      refine ⟨_, List.mem_map_of_mem hq, ?_⟩
      rw [if_pos hid]
      exact hid
  have hgone : Gone id z.shared.peers ∧ ∃ p ∈ z.shared.peers, p.id = id := by
    refine hz.invariant (I := fun z => Gone id z.shared.peers ∧ ∃ p ∈ z.shared.peers, p.id = id)
      ?_ hy
    intro x m z ⟨hgone, hexists⟩ ⟨_, hpending⟩ hs
    cases hs with
    | @call i c k a s ht hx =>
      refine gone_step hx ?_ hexists hgone
      intro u hu
      subst hu
      obtain ⟨p, hp, hid⟩ := hexists
      exact hpending i id u a rfl ⟨p, hp, hid, (hgone p hp hid).1⟩
    | start _ => exact ⟨hgone, hexists⟩
    | ret _ => exact ⟨hgone, hexists⟩
    | raise _ => exact ⟨hgone, hexists⟩
    | kill _ => exact ⟨hgone, hexists⟩
  refine ⟨?_, fun token p hp => hgone.1.not_found token p hp⟩
  intro p hp hid
  obtain ⟨hstatus, -, htoken⟩ := hgone.1 p hp hid
  rw [hstatus]
  exact ⟨fun h => (by cases h), htoken⟩

/-! ### A revocation between the lookup and the write -/

/-- The next step is to revoke the row. -/
def revokes (id : String) : Option (Code Unit) → Bool
  | some (.call (.updatePeer id' .revoke) _) => id' = id
  | _ => false

theorem exists_of_revokes {id : String} {t : Option (Code Unit)} (h : revokes id t = true) :
    ∃ k, t = some (.call (.updatePeer id .revoke) k) := by
  unfold revokes at h
  split at h
  next id' k =>
    cases of_decide_eq_true h
    exact ⟨k, rfl⟩
  next => cases h

/-- A pairing is begun with a host called `there`. -/
def pairing : List (Turn sig Failure Unit Bool) :=
  operate true (.initiate (some (.obj [("hostname", .str "there"), ("address", .str "10.0.0.2"),
    ("port", .int 8445)]))) 8

/-- The answer of that host. -/
def completion : Operation :=
  .complete "x" (some (.obj [("pubkey", .str "there's key"), ("token_for_you", .str "y")]))

/-- While the answer is looked at, the row is looked up to be revoked. -/
def crossing : List (Turn sig Failure Unit Bool) :=
  pairing ++ (operate true completion 1 ++ operate false (.revoke "x") 0)

theorem start_mem_pairing {i : Bool} {p : Code Unit} (h : Turn.start i p ∈ pairing) :
    ∃ op : Operation, p = op.code plainPlatform :=
  ⟨_, start_mem_operate h⟩

theorem start_mem_crossing {i : Bool} {p : Code Unit} (h : Turn.start i p ∈ crossing) :
    ∃ op : Operation, p = op.code plainPlatform := by
  rcases List.mem_append.mp h with h | h
  · exact start_mem_pairing h
  rcases List.mem_append.mp h with h | h
  · exact ⟨_, start_mem_operate h⟩
  · exact ⟨_, start_mem_operate h⟩

/-- Where a schedule leads, the row can be revoked, if that is the next step of the
second thread. -/
theorem exists_revocation (l : List (Turn sig Failure Unit Bool)) (id : String)
    (hl : ((Config.play (respond fun _ => (200, .null)) l (.idle .empty)).map fun x =>
      revokes id (x.thread false) && x.shared.peers.any (·.id = id)) = some true) :
    ∃ x k, Config.play (respond fun _ => (200, .null)) l (.idle .empty) = some x ∧
      x.thread false = some (.call (.updatePeer id .revoke) k) ∧ ∃ p ∈ x.shared.peers, p.id = id := by
  obtain ⟨x, hx, hnext⟩ := Option.map_eq_some_iff.mp hl
  rw [Bool.and_eq_true, List.any_eq_true] at hnext
  obtain ⟨hrevokes, p, hp, hid⟩ := hnext
  obtain ⟨k, ht⟩ := exists_of_revokes hrevokes
  exact ⟨x, k, hx, ht, p, hp, of_decide_eq_true hid⟩

/-- The row of a revoked peer. -/
def revokedRow (x : Config sig Failure Unit Bool State) (id : String) : State :=
  { x.shared with peers := setPeer x.shared.peers id .revoke }

theorem step_revoke {x : Config sig Failure Unit Bool State} {id : String}
    {k : (Cmd.updatePeer id .revoke).Ans → Code Unit}
    (ht : x.thread false = some (.call (.updatePeer id .revoke) k)) :
    Step (fun _ => exec) x
      (.call false (.updatePeer id .revoke) (.ok (findPeer (revokedRow x id).peers (some id))))
      (x.set false (revokedRow x id) (some (k (.ok (findPeer (revokedRow x id).peers (some id)))))) :=
  .call ht ⟨rfl, rfl⟩

/-- A row is revoked before the other host answers. -/
theorem revoked_for_good_pending : ∃ (x y : Config sig Failure Unit Bool State) (a : (Cmd.updatePeer "x" .revoke).Ans),
    ∃ p ∈ x.shared.peers, p.id = "x" ∧
      Step (fun _ => exec) x (.call false (.updatePeer "x" .revoke) a) y ∧
      ∀ token p, findPeerByLocalToken y.shared.peers token = some p → p.id ≠ "x" := by
  obtain ⟨x, k, hx, ht, p, hp, hid⟩ := exists_revocation (pairing ++ operate false (.revoke "x") 0)
    "x" (by decide)
  have hreach := starts_of_play (fun i p hp => by
    rcases List.mem_append.mp hp with hp | hp
    · exact start_mem_pairing hp
    · exact ⟨_, start_mem_operate hp⟩) hx
  have hstep := step_revoke ht
  exact ⟨x, _, _, p, hp, hid, hstep,
    (revoked_for_good hreach ⟨p, hp, hid⟩ ⟨_, rfl⟩ hstep .refl).2⟩

/-- The row has been approved, and has a token. -/
def isApproved (id : String) (peers : List Peer) : Bool :=
  peers.any fun p => p.id = id ∧ p.status = .approved ∧ p.remoteToken.isSome

/-- `complete_pairing` approves a row that was revoked after it was looked up. -/
theorem revocation_undone : ¬∀ (x y z : Config sig Failure Unit Bool State) (i : Bool)
    (id : String) (p : Option Peer),
      Reaches (fun _ => exec) (Starts plainPlatform) (.idle .empty) x →
      (∃ p ∈ x.shared.peers, p.id = id) →
      Step (fun _ => exec) x (.call i (.updatePeer id .revoke) (.ok p)) y →
      Reaches (fun _ => exec) (Starts plainPlatform) y z →
        ∀ p ∈ z.shared.peers, p.id = id → p.status ≠ .approved ∧ p.remoteToken = none := by
  intro hall
  obtain ⟨x, k, hx, ht, hrow⟩ := exists_revocation crossing "x" (by decide)
  have hrest : ((Config.play (respond fun _ => (200, .null))
      (crossing ++ .go false :: [.go true]) (.idle .empty)).map fun z =>
        isApproved "x" z.shared.peers) = some true := by
    decide
  obtain ⟨z, hz, hend⟩ := Option.map_eq_some_iff.mp hrest
  rw [Config.play_append, hx, Option.bind_some, Config.play] at hz
  have hturn : x.turn (respond fun _ => (200, .null)) (.go false) =
      some (x.set false (revokedRow x "x")
        (some (k (.ok (findPeer (revokedRow x "x").peers (some "x")))))) := by
    simp only [Config.turn, ht]
    rfl
  rw [hturn, Option.bind_some] at hz
  obtain ⟨p, hp, hrow'⟩ := List.any_eq_true.mp hend
  obtain ⟨hid, hstatus, -⟩ := of_decide_eq_true hrow'
  have happroval : Reaches (fun _ => exec) (Starts plainPlatform) _ z :=
    starts_of_play (fun i p hp => by cases List.mem_singleton.mp hp) hz
  have hfinal := hall x _ z false "x" _ (starts_of_play (fun _ _ => start_mem_crossing) hx) hrow
    (step_revoke ht) happroval
  exact (hfinal p hp hid).1 hstatus

end Peers
end CloudCore
