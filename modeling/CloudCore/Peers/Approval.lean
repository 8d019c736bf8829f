import CloudCore.Peers.Revocation

/-!
# One approved row per host

`pairing_request_bootstrap` refuses a host that is already approved, when its request
arrives.  The rows become approved later: `approve_pairing_request` and
`complete_pairing` look up a request, or a pending row, wait, and then approve, without
looking for another approved row of the host.

## Main definitions

* `Claim`, `Cmd.Claims` — what can be taken once: a host, and a pairing request.
* `State.Taken` — it has been.
* `Alone` — at its lookup, a handler finds nothing taken that it may take, and no other
  handler is on its way to take the same.
* `OneApproved`, `OneRow` — no host and no request has been taken twice.

## Main results

* `taken_step` — only a command that claims takes.
* `once_code` — an operation claims a host, or a request, at most once.
* `approved_once` — **no host and no request is ever taken twice, if every handler is
  alone at its lookup.**
* `approved_twice` — two requests of one host are both approved.
-/

namespace CloudCore
namespace Peers

open Python Effect
open Auth (PeerStatus)

/-! ### Claims -/

/-- What an approval takes: the host with a fingerprint, and the request with an id. -/
inductive Claim where
  | host (pubkeyFpr : String)
  | request (id : String)
  deriving DecidableEq

/-- The command approves a row for the claim. -/
def Cmd.Claims (t : Claim) : Cmd → Prop
  | .insertPeer p request =>
    match t with
    | .host fpr => p.status = .approved ∧ p.pubkeyFpr = fpr
    | .request r => request = some r
  | .updatePeer _ (.complete _ fpr ..) => t = .host fpr
  | _ => False

/-- The claim has been taken. -/
def State.Taken (s : State) : Claim → Prop
  | .host fpr => ∃ p ∈ s.peers, p.status = .approved ∧ p.pubkeyFpr = fpr
  | .request r => ∃ x ∈ s.led, x.1 = r

/-- The rows a request has led to. -/
theorem led_step {s s' : State} {c : Cmd} {a : c.Ans} (h : exec s c a s') :
    s'.led = s.led ∨ ∃ p r, c = .insertPeer p (some r) ∧ s'.led = s.led ++ [(r, p.id)] := by
  cases c with
  | insertPeer p r =>
    cases a with
    | error e =>
      cases h
      exact .inl rfl
    | ok u =>
      obtain ⟨-, rfl⟩ := h
      cases r with
      | none => exact .inl (List.append_nil _)
      | some r => exact .inr ⟨p, r, rfl, rfl⟩
  | listPeers | getPeer | findPendingOutbound | countPending | getRequest =>
    exact .inl (by rw [h.1])
  | updatePeer id u =>
    cases a with
    | error e =>
      cases h
      exact .inl rfl
    | ok p =>
      obtain ⟨rfl, -⟩ := h
      exact .inl rfl
  | insertRequest r =>
    cases a with
    | error e =>
      cases h
      exact .inl rfl
    | ok u =>
      obtain ⟨-, rfl⟩ := h
      exact .inl rfl
  | migrate | expireStale | updateRequest | putRecord =>
    cases a <;> (cases h; exact .inl rfl)
  | _ =>
    cases h
    exact .inl rfl

/-- An update that is not `complete_pairing`'s approves nothing. -/
theorem PeerUpdate.apply_approved {p : Peer} {u : PeerUpdate} {fpr : String}
    (h : (u.apply p).status = .approved ∧ (u.apply p).pubkeyFpr = fpr) :
    (p.status = .approved ∧ p.pubkeyFpr = fpr) ∨
      ∃ k t w e b at', u = .complete k fpr t w e b at' := by
  cases u with
  | complete k f t w e b at' =>
    obtain rfl : f = fpr := h.2
    exact .inr ⟨k, t, w, e, b, at', rfl⟩
  | revoke => cases h.1
  | tunnel | address => exact .inl h

/-- **Only a command that claims takes.** -/
theorem taken_step {s s' : State} {c : Cmd} {a : c.Ans} {t : Claim} (h : exec s c a s')
    (hc : ¬ c.Claims t) (ht : s'.Taken t) : s.Taken t := by
  cases t with
  | host fpr =>
    obtain ⟨p, hp, happroved⟩ := ht
    rcases peers_step h with hsame | ⟨q, r, rfl, -, hadd⟩ | ⟨id, u, rfl, hset⟩
    · exact ⟨p, hsame ▸ hp, happroved⟩
    · rw [hadd] at hp
      rcases List.mem_append.mp hp with hp | hp
      · exact ⟨p, hp, happroved⟩
      · rw [List.mem_singleton.mp hp] at happroved
        exact absurd happroved hc
    · rw [hset] at hp
      obtain ⟨q, hq, rfl⟩ := List.mem_map.mp hp
      split at happroved
      · rcases PeerUpdate.apply_approved happroved with hold | ⟨k, t, w, e, b, at', rfl⟩
        · exact ⟨q, hq, hold⟩
        · exact absurd rfl hc
      · exact ⟨q, hq, happroved⟩
  | request r =>
    obtain ⟨x, hx, rfl⟩ := ht
    rcases led_step h with hsame | ⟨p, r', rfl, hadd⟩
    · exact ⟨x, hsame ▸ hx, rfl⟩
    · rw [hadd] at hx
      rcases List.mem_append.mp hx with hx | hx
      · exact ⟨x, hx, rfl⟩
      · rw [List.mem_singleton.mp hx] at hc
        exact absurd rfl hc

/-! ### What the operations claim -/

section Code

variable {t : Claim} {α β : Type}

/-- The command approves no row, and does not say where a peer or a record is. -/
def Harmless : Cmd → Prop
  | .insertPeer p request => p.status ≠ .approved ∧ request = none
  | .updatePeer _ (.complete ..) | .updatePeer _ (.address ..) => False
  | .putRecord _ | .migrate .. => False
  | _ => True

/-- Every command of the program is harmless. -/
def Quiet (p : Code α) : Prop := p.Confined Harmless fun _ => True

/-- The program claims nothing. -/
def Idle (t : Claim) (p : Code α) : Prop :=
  p.Confined (fun c => ¬ Cmd.Claims t c) fun _ => True

/-- The program claims at most once. -/
def ClaimsOnce (t : Claim) (p : Code α) : Prop := p.Once (Cmd.Claims t)

theorem Harmless.not_claims {c : Cmd} (h : Harmless c) : ¬ c.Claims t := by
  cases c with
  | insertPeer p request =>
    cases t with
    | host fpr => exact fun hc => h.1 hc.1
    | request r =>
      obtain ⟨-, rfl⟩ := h
      exact nofun
  | updatePeer id u =>
    cases u with
    | complete | address => cases h
    | _ => exact fun hc => hc
  | _ => exact id

theorem Quiet.mono {P : Cmd → Prop} (hP : ∀ c, Harmless c → P c) {p : Code α} (h : Quiet p) :
    p.Confined P fun _ => True :=
  Program.confined_mono hP h

theorem Quiet.idle {p : Code α} (h : Quiet p) : Idle t p :=
  h.mono fun _ => Harmless.not_claims

theorem quiet_bind {p : Code α} {f : α → Code β} (hp : Quiet p) (hf : ∀ a, Quiet (f a)) :
    Quiet (p >>= f) :=
  Program.confined_bind hp fun a _ => hf a

theorem quiet_discard {p : Code α} (hp : Quiet p) : Quiet (p >>= fun _ => pure ()) :=
  quiet_bind hp fun _ => trivial

theorem quiet_perform {c : Cmd} (hc : Harmless c) : Quiet (perform c) :=
  Program.confined_perform (F := sig) hc

theorem quiet_lift (x : Except Failure α) : Quiet (Program.lift x : Code α) :=
  Program.confined_lift fun _ _ => trivial

theorem quiet_attempt {c : Cmd} (h : c.Ans = Except Failure α) (hc : Harmless c) :
    Quiet (attempt c h) :=
  quiet_bind (quiet_perform hc) fun _ => quiet_lift _

theorem claimsOnce_attempt {c : Cmd} (h : c.Ans = Except Failure α) :
    ClaimsOnce t (attempt c h) :=
  ⟨fun _ _ => (Quiet.idle (quiet_lift _)), fun _ => Program.once_of_confined (Quiet.idle (quiet_lift _))⟩

theorem quiet_postOrReason (url : String) (body : Json) (token : Option String) :
    Quiet (postOrReason url body token) := by
  refine Program.confined_tryCatch (quiet_bind (quiet_attempt rfl trivial) fun _ => trivial) ?_
  intro e
  cases e <;> trivial

variable (pf : Platform)

theorem quiet_initiatePairing (body : Option Json) : Quiet (initiatePairing pf body) := by
  refine quiet_bind (quiet_lift _) fun body => ?_
  dsimp only
  split
  · trivial
  refine quiet_bind (quiet_perform trivial) fun peers => ?_
  split
  · trivial
  refine quiet_bind (quiet_perform trivial) fun token => ?_
  refine quiet_bind (quiet_attempt rfl trivial) fun me => ?_
  refine quiet_bind (quiet_attempt rfl trivial) fun signature => ?_
  refine quiet_bind (quiet_postOrReason _ _ _) fun r => ?_
  split
  · trivial
  split
  · trivial
  refine quiet_bind (quiet_lift _) fun hostname => ?_
  refine quiet_bind (quiet_perform trivial) fun i => ?_
  refine quiet_bind (quiet_perform trivial) fun createdAt => ?_
  -- the row is pending
  exact quiet_bind (quiet_attempt rfl ⟨nofun, rfl⟩) fun u => trivial

theorem quiet_storeRequest (remoteAddr : String) (payload signature : Json)
    (pubkey pubkeyFpr : String) (expires : DateTime) :
    Quiet (storeRequest pf remoteAddr payload signature pubkey pubkeyFpr expires) := by
  refine quiet_bind (quiet_lift _) fun hostname => ?_
  refine quiet_bind (quiet_lift _) fun signature => ?_
  refine quiet_bind (quiet_lift _) fun callbackToken => ?_
  refine quiet_bind (quiet_lift _) fun wgPubkey => ?_
  refine quiet_bind (quiet_lift _) fun wgEndpoint => ?_
  refine quiet_bind (quiet_lift _) fun wgBridgeSubnet => ?_
  refine quiet_bind (quiet_perform trivial) fun i => ?_
  refine quiet_bind (quiet_perform trivial) fun createdAt => ?_
  exact quiet_bind (quiet_attempt rfl trivial) fun u => trivial

theorem quiet_receiveRequest (remoteAddr : String) (body : Json) :
    Quiet (receiveRequest pf remoteAddr body) := by
  unfold receiveRequest
  dsimp only
  split
  · trivial
  split
  · trivial
  split
  · trivial
  refine quiet_bind (quiet_lift _) fun key => ?_
  refine quiet_bind (quiet_perform trivial) fun peers => ?_
  split
  · trivial
  refine quiet_bind (quiet_perform trivial) fun now => ?_
  refine quiet_bind (quiet_lift _) fun expires => ?_
  exact quiet_storeRequest ..

theorem quiet_pairingRequestBootstrap (remoteAddr : String) (body : Option Json) :
    Quiet (pairingRequestBootstrap pf remoteAddr body) := by
  refine quiet_bind (quiet_perform trivial) fun allowed => ?_
  split
  · trivial
  refine quiet_bind (quiet_perform trivial) fun now => ?_
  refine quiet_bind (quiet_attempt rfl trivial) fun u => ?_
  refine quiet_bind (quiet_perform trivial) fun pending => ?_
  split
  · trivial
  refine quiet_bind (quiet_lift _) fun body => ?_
  exact quiet_receiveRequest ..

theorem quiet_rejectPairingRequest (id : String) : Quiet (rejectPairingRequest id) := by
  refine quiet_bind (quiet_perform trivial) fun row => ?_
  split
  · trivial
  split
  · trivial
  exact quiet_bind (quiet_attempt rfl trivial) fun u => trivial

theorem quiet_revokePeer (id : String) : Quiet (revokePeer id) := by
  refine quiet_bind (quiet_perform trivial) fun row => ?_
  split
  · trivial
  refine quiet_bind (quiet_attempt rfl trivial) fun u => ?_
  refine quiet_bind (quiet_perform trivial) fun approved => ?_
  exact quiet_bind (quiet_attempt rfl trivial) fun u => trivial

theorem quiet_retunnel (id : String) (updated : Peer) : Quiet (retunnel id updated) := by
  refine quiet_bind (quiet_perform trivial) fun approved => ?_
  refine quiet_bind (quiet_attempt rfl trivial) fun tunnel => ?_
  exact quiet_bind (quiet_attempt rfl trivial) fun u => trivial

/-- `_reconcile_peer` only writes where the peer is. -/
theorem selfInfoUpdate_address {peer : Peer} {hit : Hit} {status : ℕ} {body : Json}
    {u : PeerUpdate} (h : selfInfoUpdate pf peer hit status body = .ok (some u)) :
    ∃ w e b, u = .address hit.url w e b := by
  unfold selfInfoUpdate at h
  split at h
  · cases h
  cases hbody : requestBody (some body) with
  | error e =>
    rw [hbody] at h
    cases h
  | ok body =>
    rw [hbody] at h
    dsimp only [bind, Except.bind] at h
    repeat' split at h
    all_goals try cases h
    all_goals exact ⟨_, _, _, rfl⟩

/-- What an operation issues that is not harmless. -/
def Operation.Issues : Operation → Cmd → Prop
  | .approve _, .insertPeer .. | .approve _, .migrate .. => True
  | .complete .., .updatePeer _ (.complete ..) | .complete .., .migrate .. => True
  | .reconcile _ hit, .updatePeer _ (.address url ..) => url = hit.url
  | .place .., .putRecord _ => True
  | _, _ => False

/-- Every command of the program is harmless, or the operation's own. -/
def Within (op : Operation) (p : Code α) : Prop :=
  p.Confined (fun c => Harmless c ∨ op.Issues c) fun _ => True

section Within

variable {op : Operation}

theorem Quiet.within {p : Code α} (h : Quiet p) : Within op p :=
  h.mono fun _ => .inl

theorem within_bind {p : Code α} {f : α → Code β} (hp : Within op p) (hf : ∀ a, Within op (f a)) :
    Within op (p >>= f) :=
  Program.confined_bind hp fun a _ => hf a

theorem within_attempt {c : Cmd} (h : c.Ans = Except Failure α) (hc : op.Issues c) :
    Within op (attempt c h) :=
  within_bind (Program.confined_perform (F := sig) (.inr hc)) fun _ => (quiet_lift _).within

theorem within_perform {c : Cmd} (hc : Harmless c) : Within op (perform c) :=
  (quiet_perform hc).within

theorem within_settle (hop : ∀ fpr id, op.Issues (.migrate fpr id)) (row : Peer)
    (fpr : Peer → String) : Within op (settle row fpr) := by
  refine within_bind (within_perform trivial) fun approved => ?_
  refine within_bind (Quiet.within (quiet_attempt rfl trivial)) fun tunnel => ?_
  refine within_bind (Quiet.within (quiet_attempt rfl trivial)) fun updated => ?_
  split
  · trivial
  exact within_bind (within_attempt rfl (hop _ _)) fun n => trivial

theorem within_approvePairingRequest (id : String) :
    Within (.approve id) (approvePairingRequest pf id) := by
  refine within_bind (within_perform trivial) fun row => ?_
  split
  · trivial
  split
  · trivial
  refine within_bind (within_perform trivial) fun now => ?_
  split
  · exact Quiet.within (quiet_bind (quiet_attempt rfl trivial) fun u => trivial)
  refine within_bind (within_perform trivial) fun localToken => ?_
  refine within_bind (Quiet.within (quiet_attempt rfl trivial)) fun me => ?_
  refine within_bind (within_perform trivial) fun approvedAt => ?_
  refine within_bind (within_perform trivial) fun i => ?_
  refine within_bind (within_perform trivial) fun createdAt => ?_
  refine within_bind (within_attempt rfl trivial) fun u => ?_
  refine within_bind (within_settle ?_ _ _) fun row => Quiet.within ?_
  · exact fun _ _ => trivial
  refine quiet_bind (quiet_attempt rfl trivial) fun me' => ?_
  refine quiet_bind (quiet_postOrReason _ _ _) fun delivered => ?_
  exact quiet_bind (quiet_attempt rfl trivial) fun u => trivial

/-- The update of `complete_pairing` is of the host whose key the body has. -/
theorem completeUpdate_complete {body : Json} {approvedAt : String} {u : PeerUpdate}
    (h : completeUpdate pf body approvedAt = .ok u) :
    ∃ k f t w e b, u = .complete k f t w e b approvedAt := by
  unfold completeUpdate at h
  simp only [bind, Except.bind] at h
  repeat' split at h
  all_goals cases h
  exact ⟨_, _, _, _, _, _, rfl⟩

theorem within_completePairing (token : String) (body : Option Json) :
    Within (.complete token body) (completePairing pf token body) := by
  unfold completePairing
  split
  · trivial
  refine within_bind (within_perform trivial) fun row => ?_
  split
  · trivial
  refine within_bind (quiet_lift _).within fun body => ?_
  split
  · trivial
  refine within_bind (within_perform trivial) fun approvedAt => ?_
  refine Program.confined_bind (Program.confined_lift fun u hu => hu) fun update hupdate => ?_
  obtain ⟨k, f, t, w, e, b, rfl⟩ := completeUpdate_complete pf hupdate
  refine within_bind (within_attempt rfl trivial) fun updated => ?_
  split
  · trivial
  refine within_bind (within_settle ?_ _ _) fun _ => trivial
  exact fun _ _ => trivial

theorem within_reconcilePeer (id : String) (hit : Hit) :
    Within (.reconcile id hit) (reconcilePeer pf id hit) := by
  refine within_bind (within_perform trivial) fun row => ?_
  split
  · trivial
  split
  · trivial
  refine Program.confined_tryCatch ?_ fun _ => trivial
  refine within_bind (Quiet.within (quiet_attempt rfl trivial)) fun answer => ?_
  refine Program.confined_bind (Program.confined_lift fun u hu => hu) fun u hu => ?_
  split
  · trivial
  next update =>
    obtain ⟨w, e, b, rfl⟩ := selfInfoUpdate_address pf hu
    refine within_bind (within_attempt rfl rfl) fun updated => ?_
    split
    · trivial
    exact (quiet_retunnel _ _).within

theorem within_createRemote (table : HostTable) (peerId : Json) (fields : List (String × Json)) :
    Within (.place table peerId fields) (createRemote pf table peerId fields) := by
  refine within_bind (quiet_lift _).within fun hostId => ?_
  refine within_bind (within_perform trivial) fun row => ?_
  split
  · trivial
  refine within_bind (quiet_postOrReason _ _ _).within fun r => ?_
  split
  · trivial
  split
  · trivial
  refine within_bind (quiet_lift _).within fun i => ?_
  exact within_bind (within_attempt rfl trivial) fun u => trivial

/-- **An operation issues harmless commands, and its own.** -/
theorem within_code (op : Operation) : Within op (op.code pf) := by
  cases op with
  | initiate body => exact (quiet_discard (quiet_initiatePairing ..)).within
  | bootstrap remoteAddr body => exact (quiet_discard (quiet_pairingRequestBootstrap ..)).within
  | approve id => exact within_bind (within_approvePairingRequest pf id) fun _ => trivial
  | reject id => exact (quiet_discard (quiet_rejectPairingRequest id)).within
  | complete token body => exact within_bind (within_completePairing pf token body) fun _ => trivial
  | revoke id => exact (quiet_discard (quiet_revokePeer id)).within
  | reconcile id hit => exact within_reconcilePeer pf id hit
  | place table peerId fields =>
    exact within_bind (within_createRemote pf table peerId fields) fun _ => trivial

/-- Only the handlers of approvals claim. -/
theorem idle_or (op : Operation) : (∀ t, Idle t (op.code pf)) ∨ (∃ id, op = .approve id) ∨
    ∃ token body, op = .complete token body := by
  have hidle : (∀ c t, op.Issues c → ¬ Cmd.Claims t c) → ∀ t, Idle t (op.code pf) := fun h t =>
    Program.confined_mono (fun c hc => hc.elim Harmless.not_claims (h c t)) (within_code pf op)
  cases op with
  | approve id => exact .inr (.inl ⟨id, rfl⟩)
  | complete token body => exact .inr (.inr ⟨token, body, rfl⟩)
  | initiate | bootstrap | reject | revoke => exact .inl (hidle fun c t hc => hc.elim)
  | reconcile id hit =>
    refine .inl (hidle fun c t hc => ?_)
    cases c with
    | updatePeer i u =>
      cases u with
      | address => exact fun h => h
      | _ => cases hc
    | _ => cases hc
  | place table peerId fields =>
    refine .inl (hidle fun c t hc => ?_)
    cases c with
    | putRecord r => exact fun h => h
    | _ => cases hc

end Within

theorem idle_attempt {c : Cmd} (h : c.Ans = Except Failure α) (hc : ¬ c.Claims t) :
    Idle t (attempt c h) :=
  Program.confined_bind (Program.confined_perform (F := sig) hc) fun _ _ => Quiet.idle (quiet_lift _)

/-- What follows an approval claims nothing. -/
theorem idle_settle (row : Peer) (fpr : Peer → String) : Idle t (settle row fpr) := by
  refine Program.confined_bind (Quiet.idle (quiet_perform trivial)) fun approved _ => ?_
  refine Program.confined_bind (Quiet.idle (quiet_attempt rfl trivial)) fun tunnel _ => ?_
  refine Program.confined_bind (Quiet.idle (quiet_attempt rfl trivial)) fun updated _ => ?_
  split
  · trivial
  exact Program.confined_bind (idle_attempt rfl id) fun n _ => trivial

/-- Approving a request claims once: nothing after the row claims. -/
theorem claimsOnce_approvePairingRequest (id : String) :
    ClaimsOnce t (approvePairingRequest pf id) := by
  refine Program.once_bind (Quiet.idle (quiet_perform trivial)) fun row _ => ?_
  split
  · trivial
  split
  · trivial
  refine Program.once_bind (Quiet.idle (quiet_perform trivial)) fun now _ => ?_
  split
  · exact Program.once_of_confined (Quiet.idle (quiet_bind (quiet_attempt rfl trivial) fun u => trivial))
  refine Program.once_bind (Quiet.idle (quiet_perform trivial)) fun localToken _ => ?_
  refine Program.once_bind (Quiet.idle (quiet_attempt rfl trivial)) fun me _ => ?_
  refine Program.once_bind (Quiet.idle (quiet_perform trivial)) fun approvedAt _ => ?_
  refine Program.once_bind (Quiet.idle (quiet_perform trivial)) fun i _ => ?_
  refine Program.once_bind (Quiet.idle (quiet_perform trivial)) fun createdAt _ => ?_
  refine Program.Once.bind (claimsOnce_attempt rfl) fun u => ?_
  refine Program.confined_bind (idle_settle _ _) fun row _ => Quiet.idle ?_
  refine quiet_bind (quiet_attempt rfl trivial) fun me' => ?_
  refine quiet_bind (quiet_postOrReason _ _ _) fun delivered => ?_
  exact quiet_bind (quiet_attempt rfl trivial) fun u => trivial

theorem claimsOnce_completePairing (token : String) (body : Option Json) :
    ClaimsOnce t (completePairing pf token body) := by
  unfold completePairing
  split
  · trivial
  refine Program.once_bind (Quiet.idle (quiet_perform trivial)) fun row _ => ?_
  split
  · trivial
  refine Program.once_bind (Quiet.idle (quiet_lift _)) fun body _ => ?_
  split
  · trivial
  refine Program.once_bind (Quiet.idle (quiet_perform trivial)) fun approvedAt _ => ?_
  refine Program.once_bind (Quiet.idle (quiet_lift _)) fun update _ => ?_
  refine Program.Once.bind (claimsOnce_attempt rfl) fun updated => ?_
  split
  · trivial
  exact Program.confined_bind (idle_settle _ _) fun _ _ => trivial

/-- **An operation claims a host, or a request, at most once.** -/
theorem claimsOnce_code (op : Operation) : ClaimsOnce t (op.code pf) := by
  rcases idle_or pf op with hidle | ⟨id, rfl⟩ | ⟨token, body, rfl⟩
  · exact Program.once_of_confined (hidle t)
  · exact (claimsOnce_approvePairingRequest pf id).bind fun _ => trivial
  · exact (claimsOnce_completePairing pf token body).bind fun _ => trivial

/-- The handlers of approvals begin with a lookup. -/
theorem lookup_of_code {op : Operation} {c : sig.Cmd} {k : sig.Ans c → Code Unit}
    (h : .call c k = op.code pf) : (∀ t, Idle t (op.code pf)) ∨ (∃ id, c = Cmd.getRequest id) ∨
      ∃ token, c = Cmd.findPendingOutbound token := by
  rcases idle_or pf op with hidle | ⟨id, rfl⟩ | ⟨token, body, rfl⟩
  · exact .inl hidle
  · cases h
    exact .inr (.inl ⟨id, rfl⟩)
  · by_cases htoken : token = ""
    · rw [Operation.code, completePairing, if_pos htoken] at h
      cases h
    · rw [Operation.code, completePairing, if_neg htoken] at h
      cases h
      exact .inr (.inr ⟨token, rfl⟩)

/-- No operation begins with a claim. -/
theorem not_claims_of_code {op : Operation} {c : sig.Cmd} {k : sig.Ans c → Code Unit}
    (h : .call c k = op.code pf) : ¬ Cmd.Claims t c := by
  rcases lookup_of_code pf h with hidle | ⟨id, rfl⟩ | ⟨token, rfl⟩
  · have hcall : Idle t (op.code pf) := hidle t
    rw [← h] at hcall
    exact hcall.1
  · exact fun h => h
  · exact fun h => h

end Code

/-! ### Nothing is taken twice -/

/-- The rows of a host that are approved. -/
def approvedRows (s : State) (pubkeyFpr : String) : List Peer :=
  s.peers.filter fun p => p.status = .approved && p.pubkeyFpr = pubkeyFpr

def OneApproved (s : State) : Prop := ∀ fpr, (approvedRows s fpr).length ≤ 1

/-- Every request has led to one row at most. -/
def OneRow (s : State) : Prop := ∀ id, (s.led.filter (·.1 = id)).length ≤ 1

/-- Two rows of `peers`. -/
def Compatible (p q : Peer) : Prop :=
  p.id ≠ q.id ∧ ¬(p.status = .approved ∧ q.status = .approved ∧ p.pubkeyFpr = q.pubkeyFpr)

def Distinct (s : State) : Prop :=
  s.peers.Pairwise Compatible ∧ s.led.Pairwise fun x y => x.1 ≠ y.1

theorem length_filter_le_one {α : Type} {l : List α} {R : α → α → Prop} {P : α → Bool}
    (h : l.Pairwise R) (hP : ∀ a b, P a = true → P b = true → ¬ R a b) :
    (l.filter P).length ≤ 1 := by
  have hfilter : (l.filter P).Pairwise R := h.filter P
  have hmem : ∀ a ∈ l.filter P, P a = true := fun a ha => (List.mem_filter.mp ha).2
  match hl : l.filter P with
  | [] => exact Nat.zero_le 1
  | [_] => exact Nat.le_refl 1
  | a :: b :: _ =>
    rw [hl] at hfilter hmem
    have hab : R a b := List.rel_of_pairwise_cons hfilter List.mem_cons_self
    exact absurd hab (hP a b (hmem a (by simp)) (hmem b (by simp)))

theorem Distinct.one {s : State} (h : Distinct s) : OneApproved s ∧ OneRow s := by
  refine ⟨fun fpr => length_filter_le_one h.1 ?_, fun id => length_filter_le_one h.2 ?_⟩
  · intro p q hp hq hcompatible
    simp only [Bool.and_eq_true, decide_eq_true_eq] at hp hq
    exact hcompatible.2 ⟨hp.1, hq.1, hp.2.trans hq.2.symm⟩
  · intro x y hx hy hne
    exact hne ((of_decide_eq_true hx).trans (of_decide_eq_true hy).symm)

/-- The update of a row is compatible with another row. -/
theorem compatible_apply {p q : Peer} {u : PeerUpdate} (h : Compatible p q)
    (hfree : ∀ k f t w e b at', u = .complete k f t w e b at' →
      ¬(q.status = .approved ∧ q.pubkeyFpr = f)) : Compatible (u.apply p) q := by
  refine ⟨by rw [PeerUpdate.apply_id]; exact h.1, ?_⟩
  rintro ⟨hp, hq, hfpr⟩
  rcases PeerUpdate.apply_approved ⟨hp, hfpr⟩ with hold | ⟨k, t, w, e, b, at', rfl⟩
  · exact h.2 ⟨hold.1, hq, hold.2⟩
  · exact hfree _ _ _ _ _ _ _ rfl ⟨hq, rfl⟩

theorem Compatible.symm {p q : Peer} (h : Compatible p q) : Compatible q p :=
  ⟨h.1.symm, fun ⟨hq, hp, hfpr⟩ => h.2 ⟨hp, hq, hfpr.symm⟩⟩

/-- A command that claims nothing that is taken keeps the rows distinct. -/
theorem distinct_step {s s' : State} {c : Cmd} {a : c.Ans} (h : exec s c a s')
    (hfree : ∀ t, c.Claims t → ¬ s.Taken t) (hs : Distinct s) : Distinct s' := by
  obtain ⟨hpeers, hled⟩ := hs
  constructor
  · rcases peers_step h with hsame | ⟨p, r, rfl, hfresh, hadd⟩ | ⟨id, u, rfl, hset⟩
    · exact hsame ▸ hpeers
    · rw [hadd, List.pairwise_append]
      refine ⟨hpeers, List.pairwise_singleton _ _, fun q hq p' hp' => ?_⟩
      rw [List.mem_singleton.mp hp']
      refine ⟨hfresh q hq, fun ⟨hqa, hpa, hfpr⟩ => ?_⟩
      exact hfree (.host p.pubkeyFpr) ⟨hpa, rfl⟩ ⟨q, hq, hqa, hfpr⟩
    · rw [hset, setPeer, List.pairwise_map]
      have happly : ∀ p q, q ∈ s.peers → Compatible p q → Compatible (u.apply p) q := by
        intro p q hq hpq
        refine compatible_apply hpq ?_
        rintro k f t w e b at' rfl happroved
        exact hfree (.host f) rfl ⟨q, hq, happroved⟩
      refine hpeers.imp_of_mem fun {p q} hp hq hpq => ?_
      split <;> split
      · next hpid hqid => exact absurd (hpid.trans hqid.symm) hpq.1
      · exact happly p q hq hpq
      · exact (happly q p hp hpq.symm).symm
      · exact hpq
  · rcases led_step h with hsame | ⟨p, r, rfl, hadd⟩
    · exact hsame ▸ hled
    · rw [hadd, List.pairwise_append]
      refine ⟨hled, List.pairwise_singleton _ _, fun x hx y hy => ?_⟩
      rw [List.mem_singleton.mp hy]
      exact fun hxr => hfree (.request r) rfl ⟨x, hx, hxr⟩

section Run

variable {ι : Type} [DecidableEq ι] (pf : Platform)

/-- The thread is not on its way to claim: it has looked nothing up yet, or it cannot
claim. -/
def Clear (t : Claim) (r : Option (Code Unit)) : Prop :=
  ∀ p, r = some p → (∃ op : Operation, p = op.code pf) ∨ Idle t p

/-- When a handler makes its first step, its lookup, nothing is taken that it may claim
from there, and no other handler is on its way to claim the same. -/
def Alone (x : Config sig Failure Unit ι State) (m : Move sig Failure Unit ι) : Prop :=
  ∀ i (c : sig.Cmd) a k (op : Operation), m = .call i c a → x.thread i = some (.call c k) →
    x.thread i = some (op.code pf) → ∀ t, ¬ Idle t (k a) →
      ¬ x.shared.Taken t ∧ ∀ j, j ≠ i → Clear pf t (x.thread j)

/-- A thread that is past its lookup claims once, and alone. -/
def Guarded (x : Config sig Failure Unit ι State) (i : ι) (p : Code Unit) : Prop :=
  (∃ op : Operation, p = op.code pf) ∨ ∀ t, ClaimsOnce t p ∧
    (¬ Idle t p → ¬ x.shared.Taken t ∧ ∀ j, j ≠ i → Clear pf t (x.thread j))

variable {pf}

theorem clear_set {x : Config sig Failure Unit ι State} {i j : ι} {s : State} {t : Claim}
    {r : Option (Code Unit)} (hr : Clear pf t r) (hj : Clear pf t (x.thread j)) :
    Clear pf t ((x.set i s r).thread j) := by
  by_cases hij : j = i
  · rw [hij, Config.set_thread_self]
    exact hr
  · rw [Config.set_thread_of_ne x hij]
    exact hj

/-- A thread that comes to an end, or to its beginning, disturbs nobody. -/
theorem guarded_set {x : Config sig Failure Unit ι State} {i : ι} {r : Option (Code Unit)}
    (hx : ∀ j p, x.thread j = some p → Guarded pf x j p)
    (hr : ∀ p, r = some p → ∃ op : Operation, p = op.code pf) (j : ι) (p : Code Unit)
    (hp : (x.set i x.shared r).thread j = some p) : Guarded pf (x.set i x.shared r) j p := by
  by_cases hij : j = i
  · rw [hij, Config.set_thread_self] at hp
    exact .inl (hr p hp)
  · rw [Config.set_thread_of_ne x hij] at hp
    rcases hx j p hp with hop | hguard
    · exact .inl hop
    · refine .inr fun t => ⟨(hguard t).1, fun hidle => ?_⟩
      obtain ⟨htaken, hclear⟩ := (hguard t).2 hidle
      exact ⟨htaken, fun l hl => clear_set (fun p hp => .inl (hr p hp)) (hclear l hl)⟩

omit [DecidableEq ι] in
/-- A command of a guarded thread claims only what is free. -/
theorem Guarded.free {x : Config sig Failure Unit ι State} {i : ι} {c : sig.Cmd}
    {k : sig.Ans c → Code Unit} (h : Guarded pf x i (.call c k)) {t : Claim}
    (hc : Cmd.Claims t c) : (¬∃ op : Operation, .call c k = op.code pf) ∧ ¬ x.shared.Taken t ∧
      (∀ j, j ≠ i → Clear pf t (x.thread j)) ∧ ∀ a, Idle t (k a) := by
  have hop : ¬∃ op : Operation, .call c k = op.code pf := by
    rintro ⟨op, hop⟩
    exact not_claims_of_code pf hop hc
  obtain ⟨honce, hfree⟩ := h.resolve_left hop t
  obtain ⟨htaken, hclear⟩ := hfree fun hidle => hidle.1 hc
  exact ⟨hop, htaken, hclear, honce.1 hc⟩

/-- A command of one thread leaves every thread guarded. -/
theorem guarded_call {x : Config sig Failure Unit ι State} {i : ι} {c : sig.Cmd}
    {k : sig.Ans c → Code Unit} {a : sig.Ans c} {s : State}
    (hx : ∀ j p, x.thread j = some p → Guarded pf x j p) (ht : x.thread i = some (.call c k))
    (halone : Alone pf x (.call i c a)) (hexec : exec x.shared c a s) (j : ι) (p : Code Unit)
    (hp : (x.set i s (some (k a))).thread j = some p) :
    Guarded pf (x.set i s (some (k a))) j p := by
  have hguard : Guarded pf x i (.call c k) := hx i _ ht
  -- what the rest of the thread may claim was free, and nobody else is after it
  have hrest : ∀ t, ClaimsOnce t (k a) ∧ (¬ Idle t (k a) →
      ¬ Cmd.Claims t c ∧ ¬ x.shared.Taken t ∧ ∀ j, j ≠ i → Clear pf t (x.thread j)) := by
    intro t
    by_cases hop : ∃ op : Operation, .call c k = op.code pf
    · obtain ⟨op, hop⟩ := hop
      have honce : ClaimsOnce t (.call c k : Code Unit) := hop ▸ claimsOnce_code pf op
      refine ⟨honce.2 a, fun hidle => ?_⟩
      obtain ⟨htaken, hclear⟩ := halone i c a k op rfl ht (ht.trans (congrArg some hop)) t hidle
      exact ⟨fun hc => hidle (honce.1 hc a), htaken, hclear⟩
    · obtain ⟨honce, hfree⟩ := hguard.resolve_left hop t
      refine ⟨honce.2 a, fun hidle => ?_⟩
      exact ⟨fun hc => hidle (honce.1 hc a), hfree fun h => hidle (h.2 a)⟩
  by_cases hij : j = i
  · rw [hij, Config.set_thread_self, Option.some.injEq] at hp
    subst hij
    refine .inr fun t => ?_
    rw [← hp]
    refine ⟨(hrest t).1, fun hidle => ?_⟩
    obtain ⟨hc, htaken, hclear⟩ := (hrest t).2 hidle
    refine ⟨fun h => htaken (taken_step hexec hc h), fun l hl => ?_⟩
    rw [Config.set_thread_of_ne x hl]
    exact hclear l hl
  · rw [Config.set_thread_of_ne x hij] at hp
    by_cases hop : ∃ op : Operation, p = op.code pf
    · exact .inl hop
    refine .inr fun t => ?_
    obtain ⟨honce, hfree⟩ := (hx j p hp).resolve_left hop t
    refine ⟨honce, fun hidle => ?_⟩
    obtain ⟨htaken, hclear⟩ := hfree hidle
    -- the thread that moved cannot take what this one is after
    have hc : ¬ Cmd.Claims t c := by
      intro hc
      obtain ⟨hnop, -, hothers, -⟩ := hguard.free hc
      exact (hothers j hij p hp).elim hop hidle
    refine ⟨fun h => htaken (taken_step hexec hc h), fun l hl => ?_⟩
    refine clear_set ?_ (hclear l hl)
    rintro _ ⟨⟩
    refine .inr (by_contra fun hmay => ?_)
    exact ((hrest t).2 hmay).2.2 j hij p hp |>.elim hop hidle

/-- **No host is approved twice, and no request leads to two rows, in every run in which
every handler is alone at its lookup.** -/
theorem approved_once {y : Config sig Failure Unit ι State}
    (h : Reaches (fun _ => exec) (fun x m => Starts pf x m ∧ Alone pf x m) (.idle .empty) y) :
    OneApproved y.shared ∧ OneRow y.shared := by
  have hy : Distinct y.shared ∧ ∀ i p, y.thread i = some p → Guarded pf y i p := by
    refine h.invariant
      (I := fun y => Distinct y.shared ∧ ∀ i p, y.thread i = some p → Guarded pf y i p) ?_
      ⟨⟨.nil, .nil⟩, nofun⟩
    rintro x m z ⟨hdistinct, hguard⟩ ⟨hstart, halone⟩ hs
    cases hs with
    | @start i p ht =>
      refine ⟨hdistinct, guarded_set hguard ?_⟩
      rintro _ ⟨⟩
      exact hstart
    | @call i c k a s ht hx =>
      refine ⟨distinct_step hx (fun t hc => ?_) hdistinct, guarded_call hguard ht halone hx⟩
      exact ((hguard i _ ht).free hc).2.1
    | ret _ => exact ⟨hdistinct, guarded_set hguard nofun⟩
    | raise _ => exact ⟨hdistinct, guarded_set hguard nofun⟩
    | kill _ => exact ⟨hdistinct, guarded_set hguard nofun⟩
  exact hy.1.one

end Run

/-! ### Two requests of one host -/

/-- What a host called `there` signs to be paired. -/
def bootstrap : Operation :=
  .bootstrap "10.0.0.2" (some (.obj [("payload", .obj [("hostname", .str "there"),
    ("pubkey", .str "there's key"), ("peer_port", .int 8445), ("callback_token", .str "y")]),
    ("signature", .str "signed with there's key")]))

/-- Its request is approved. -/
def approval : List (Turn sig Failure Unit Unit) :=
  operate () bootstrap 9 ++ operate () (.approve "x") 15

theorem start_mem_approval {i : Unit} {p : Code Unit} (h : Turn.start i p ∈ approval) :
    ∃ op : Operation, p = op.code plainPlatform := by
  rcases List.mem_append.mp h with h | h <;> exact ⟨_, start_mem_operate h⟩

/-- Lookups are answered as long as nothing is approved. -/
def respondFirst (i : Unit) (s : State) : (c : sig.Cmd) → Option (sig.Ans c × State)
  | .getRequest id =>
    if s.peers.isEmpty ∧ s.led.isEmpty then respond (fun _ => (200, .null)) i s (.getRequest id)
    else none
  | .findPendingOutbound token =>
    if s.peers.isEmpty ∧ s.led.isEmpty then
      respond (fun _ => (200, .null)) i s (.findPendingOutbound token)
    else none
  | c => respond (fun _ => (200, .null)) i s c

theorem not_taken_of_isEmpty {s : State} (h : s.peers.isEmpty ∧ s.led.isEmpty) (t : Claim) :
    ¬ s.Taken t := by
  rw [List.isEmpty_iff, List.isEmpty_iff] at h
  cases t with
  | host fpr =>
    rintro ⟨p, hp, -⟩
    rw [h.1] at hp
    cases hp
  | request r =>
    rintro ⟨x, hx, -⟩
    rw [h.2] at hx
    cases hx

theorem respondFirst_ok {i : Unit} {x : Config sig Failure Unit Unit State} {c : sig.Cmd}
    {a : sig.Ans c} {s : State} (h : respondFirst i x.shared c = some (a, s)) :
    exec x.shared c a s ∧ Alone plainPlatform x (.call i c a) := by
  constructor
  · unfold respondFirst at h
    split at h
    · rw [Option.ite_none_right_eq_some] at h
      exact exec_surroundings h.2
    · rw [Option.ite_none_right_eq_some] at h
      exact exec_surroundings h.2
    · exact exec_surroundings h
  · rintro _ _ _ k op ⟨⟩ ht hop t hidle
    refine ⟨?_, fun j hj => absurd rfl hj⟩
    have hcode : .call c k = op.code plainPlatform := Option.some.inj (ht.symm.trans hop)
    rcases lookup_of_code plainPlatform hcode with hall | ⟨id, rfl⟩ | ⟨token, rfl⟩
    · have hcall : Idle t (op.code plainPlatform) := hall t
      rw [← hcode] at hcall
      exact absurd (hcall.2 a) hidle
    · rw [respondFirst, Option.ite_none_right_eq_some] at h
      exact not_taken_of_isEmpty h.1 t
    · rw [respondFirst, Option.ite_none_right_eq_some] at h
      exact not_taken_of_isEmpty h.1 t

/-- One request of a host is approved. -/
theorem approved_once_first : ∃ y : Config sig Failure Unit Unit State,
    (approvedRows y.shared "SHA256:there's key").length = 1 ∧ OneApproved y.shared ∧
      OneRow y.shared := by
  have hrun : ((Config.play respondFirst approval (.idle .empty)).map fun y =>
      (approvedRows y.shared "SHA256:there's key").length) = some 1 := by
    with_unfolding_all decide
  obtain ⟨y, hy, hone⟩ := Option.map_eq_some_iff.mp hrun
  have hreach : Reaches (fun _ => exec)
      (fun x m => Starts plainPlatform x m ∧ Alone plainPlatform x m) (.idle .empty) y := by
    refine reaches_of_play ?_ ?_ ?_ hy
    · intro i x c a s h
      obtain ⟨hexec, halone⟩ := respondFirst_ok h
      exact ⟨hexec, trivial, halone⟩
    · exact fun i x r => ⟨trivial, fun _ _ _ _ _ hm => nomatch hm⟩
    · exact fun i p hp x => ⟨start_mem_approval hp, fun _ _ _ _ _ hm => nomatch hm⟩
  exact ⟨y, hone, approved_once hreach⟩

/-- Two requests of the host arrive, and one after the other is approved. -/
def approvals : List (Turn sig Failure Unit Unit) :=
  operate () bootstrap 9 ++ (operate () bootstrap 9 ++
    (operate () (.approve "x") 15 ++ operate () (.approve "xx") 15))

theorem start_mem_approvals {i : Unit} {p : Code Unit} (h : Turn.start i p ∈ approvals) :
    ∃ op : Operation, p = op.code plainPlatform := by
  rcases List.mem_append.mp h with h | h
  · exact ⟨_, start_mem_operate h⟩
  rcases List.mem_append.mp h with h | h
  · exact ⟨_, start_mem_operate h⟩
  rcases List.mem_append.mp h with h | h <;> exact ⟨_, start_mem_operate h⟩

/-- One host has two approved rows. -/
theorem approved_twice : ¬∀ y : Config sig Failure Unit Unit State,
    Reaches (fun _ => exec) (Starts plainPlatform) (.idle .empty) y →
      OneApproved y.shared ∧ OneRow y.shared := by
  intro hall
  have hrun : ((Config.play (respond fun _ => (200, .null)) approvals (.idle .empty)).map fun y =>
      (approvedRows y.shared "SHA256:there's key").length) = some 2 := by
    with_unfolding_all decide
  obtain ⟨y, hy, htwo⟩ := Option.map_eq_some_iff.mp hrun
  have hone := (hall y (starts_of_play (fun _ _ => start_mem_approvals) hy)).1 "SHA256:there's key"
  rw [htwo] at hone
  exact absurd hone (by decide)

end Peers
end CloudCore
