import CloudCore.Auth.Authz
import CloudCore.Db.Column
import CloudCore.Effect.Pool

/-!
# Pairing with other hosts

`api/peers_store.py` and the handlers over it: `api/peers_routes.py` pairs this
host with others, `api/peer_reconciler.py` follows an approved peer to a new
address, and the catalogue's `_create_remote_*` place resources on a peer.  Each
call of the store is one step; what other hosts, WireGuard and `ssh-keygen` answer
is up to the surroundings.

## Main definitions

* `Peer`, `PairingRequest`, `Record` — the rows.
* `Cmd`, `exec` — the calls of the store and the surroundings, and what they do.
* `initiatePairing`, `pairingRequestBootstrap`, `approvePairingRequest`,
  `rejectPairingRequest`, `completePairing`, `revokePeer`, `reconcilePeer`,
  `createRemote` — the handlers.
* `Operation` — what the threads run.

## Main results

* `peers_step` — peers rows are only appended, or updated in one of four ways.
-/

namespace CloudCore
namespace Peers

open Python Db Effect
open Auth (PeerStatus)

/-! ### The tables -/

inductive Direction where
  | outbound
  | inbound
  deriving DecidableEq

/-- A row of `peers`. -/
structure Peer where
  id : String
  hostname : String
  pubkey : String
  pubkeyFpr : String
  apiUrl : String
  direction : Direction
  status : PeerStatus
  localToken : Option String
  remoteToken : Option String
  wgPubkey : Option String
  wgEndpoint : Option String
  wgBridgeSubnet : Option String
  wgTransitIp : Option String
  wgTunnelStatus : String
  createdAt : String
  approvedAt : Option String
  deriving DecidableEq

inductive RequestStatus where
  | pending
  | approved
  | rejected
  | expired
  deriving DecidableEq

def RequestStatus.text : RequestStatus → String
  | .pending => "pending"
  | .approved => "approved"
  | .rejected => "rejected"
  | .expired => "expired"

/-- A row of `pairing_requests`. -/
structure PairingRequest where
  id : String
  hostname : String
  pubkey : String
  pubkeyFpr : String
  signature : String
  callbackToken : String
  callbackUrl : String
  wgPubkey : String
  wgEndpoint : String
  wgBridgeSubnet : String
  status : RequestStatus
  createdAt : String
  expiresAt : String
  deriving DecidableEq

/-- `_HOST_ID_TABLES`. -/
inductive HostTable where
  | instances
  | vpcs
  | subnets
  | securityGroups
  deriving DecidableEq

/-- A row of one of these tables, by its key and its `host_id`. -/
structure Record where
  table : HostTable
  id : Option String
  hostId : Option String
  deriving DecidableEq

/-! ### Commands -/

/-- What the handlers raise. -/
inductive Failure where
  /-- `PeerUnreachable`. -/
  | unreachable (message : String)
  /-- `abort(400)`: the body is not JSON. -/
  | badBody
  | attribute
  | key
  | type
  | overflow
  /-- A statement raised. -/
  | sqlite
  /-- A program or a file was missing, or a program failed. -/
  | os
  deriving DecidableEq

/-- What this host says of itself in a handshake. -/
structure MyInfo where
  hostname : String
  pubkey : String
  peerPort : ℤ
  wgPubkey : String
  wgEndpoint : String
  wgBridgeSubnet : String

/-- The columns that `update_peer` is called with. -/
inductive PeerUpdate where
  /-- `complete_pairing`. -/
  | complete (pubkey pubkeyFpr : String)
      (remoteToken wgPubkey wgEndpoint wgBridgeSubnet : Option String) (approvedAt : String)
  /-- What `wireguard.on_peer_approved` returns. -/
  | tunnel (status : String) (transitIp : Option String)
  /-- `revoke_peer`. -/
  | revoke
  /-- `_reconcile_peer`. -/
  | address (apiUrl : String) (wgPubkey wgEndpoint wgBridgeSubnet : Option String)
  deriving DecidableEq

def PeerUpdate.apply (p : Peer) : PeerUpdate → Peer
  | .complete pubkey pubkeyFpr remoteToken wgPubkey wgEndpoint wgBridgeSubnet approvedAt =>
    { p with
      status := .approved
      pubkey
      pubkeyFpr
      remoteToken
      wgPubkey
      wgEndpoint
      wgBridgeSubnet
      approvedAt := some approvedAt }
  | .tunnel status transitIp => { p with wgTunnelStatus := status, wgTransitIp := transitIp }
  | .revoke => { p with status := .revoked, localToken := none, remoteToken := none }
  | .address apiUrl wgPubkey wgEndpoint wgBridgeSubnet =>
    { p with apiUrl, wgPubkey, wgEndpoint, wgBridgeSubnet }

/-- The steps of the handlers. -/
inductive Cmd where
  /-- `models.now_iso`. -/
  | nowIso
  /-- `datetime.now(timezone.utc)`. -/
  | now
  /-- `models.new_id`. -/
  | newId
  /-- `secrets.token_urlsafe(32)`. -/
  | token
  /-- `_check_rate_limit`. -/
  | rateLimit (ip : String)
  /-- This host's identity and WireGuard settings. -/
  | me
  /-- `peer_crypto.sign`, with this host's key. -/
  | sign (payload : Json)
  | get (url : String)
  | post (url : String) (body : Json) (token : Option String)
  /-- `wireguard.on_peer_approved`. -/
  | wgApproved (peer : Peer) (approved : List Peer)
  /-- `wireguard.on_peer_revoked`. -/
  | wgRevoked (approved : List Peer)
  | listPeers (status : Option PeerStatus)
  | getPeer (id : Option String)
  /-- `find_pending_outbound_by_local_token`. -/
  | findPendingOutbound (token : String)
  /-- `insert_peer`; approving a pairing request says which. -/
  | insertPeer (p : Peer) (request : Option String)
  | updatePeer (id : String) (update : PeerUpdate)
  /-- `migrate_host_id_references`. -/
  | migrate (pubkeyFpr newPeerId : String)
  | expireStale (now : String)
  | countPending
  | insertRequest (r : PairingRequest)
  | getRequest (id : String)
  | updateRequest (id : String) (status : RequestStatus)
  /-- The catalogue's `put` of a resource on a peer. -/
  | putRecord (r : Record)

/-- What a step answers. -/
def Cmd.Ans : Cmd → Type
  | .nowIso | .newId | .token => String
  | .now => DateTime
  | .rateLimit _ => Bool
  | .me => Except Failure MyInfo
  | .sign _ => Except Failure String
  | .get _ | .post .. => Except Failure (ℕ × Json)
  | .wgApproved .. => Except Failure (String × Option String)
  | .wgRevoked _ => Except Failure Unit
  | .listPeers _ => List Peer
  | .getPeer _ | .findPendingOutbound _ => Option Peer
  | .insertPeer .. | .expireStale _ | .insertRequest _ | .updateRequest .. | .putRecord _ =>
    Except Failure Unit
  | .updatePeer .. => Except Failure (Option Peer)
  | .migrate .. => Except Failure ℕ
  | .countPending => ℕ
  | .getRequest _ => Option PairingRequest

def sig : Signature := ⟨Cmd, Cmd.Ans⟩

/-- The code of the handlers. -/
abbrev Code (α : Type) := Program sig Failure α

def perform (c : Cmd) : Code c.Ans := Program.perform (F := sig) c

/-- A step that may raise. -/
def attempt {α : Type} (c : Cmd) (h : c.Ans = Except Failure α) : Code α := do
  let r ← perform c
  Program.lift (h ▸ r)

/-! ### Values -/

/-- What the handlers use of the surroundings that is not a step. -/
structure Platform where
  /-- `str` of a value that is not a string. -/
  str : Json → String
  /-- SQLite's rendering of a double. -/
  renderReal : Double → String
  /-- `peer_crypto.verify(payload, signature, pubkey)`. -/
  verify : Json → Json → Json → Bool
  /-- `peer_crypto.fingerprint_of`; `ssh-keygen` fails on what is not a key. -/
  fingerprintOf : String → Option String

variable (pf : Platform)

/-- `str(value)`. -/
def Platform.text : Json → String
  | .str s => s
  | v => pf.str v

/-- `value.get(key)` of a dictionary. -/
def field (v : Json) (key : String) : Json := (v.get? key).getD .null

/-- `value.get(key, "")` of a dictionary. -/
def fieldText (v : Json) (key : String) : Json := (v.get? key).getD (.str "")

def isDict : Json → Bool
  | .obj _ => true
  | _ => false

/-- `request.get_json(force=True) or {}`, for a handler that goes on with `body.get`. -/
def requestBody : Option Json → Except Failure Json
  | none => .error .badBody
  | some v =>
    if isDict v then .ok v
    else if v.truthy then .error .attribute
    else .ok (.obj [])

/-- A value bound to a `TEXT NOT NULL` column. -/
def column (v : Json) : Except Failure String :=
  match textColumn pf.renderReal v with
  | some s => .ok s
  | none => .error .sqlite

/-- A value bound to a `TEXT` column, or compared with one. -/
def nullable (v : Json) : Except Failure (Option String) :=
  match textParameter pf.renderReal v with
  | some s => .ok s
  | none => .error .sqlite

/-- `fingerprint_of` of a JSON value. -/
def fingerprint : Json → Except Failure (String × String)
  | .str pubkey =>
    match pf.fingerprintOf pubkey with
    | some fpr => .ok (pubkey, fpr)
    | none => .error .os
  | _ => .error .attribute

/-- What a handler answers. -/
inductive Answer where
  | problem (status : ℕ) (title : String) (detail : Option String)
  /-- `to_public_dict` of a row, and why the callback was not delivered. -/
  | peer (status : ℕ) (row : Peer) (callbackError : Option String)
  | accepted (requestId expiresAt : String)
  | status (status : String)
  | record (status : ℕ) (r : Record)
  | empty

/-! ### Pairing -/

/-- The values that are sent with a handshake. -/
def MyInfo.wgFields (me : MyInfo) : List (String × Json) :=
  [("wg_pubkey", .str me.wgPubkey), ("wg_endpoint", .str me.wgEndpoint),
    ("wg_bridge_subnet", .str me.wgBridgeSubnet)]

/-- `peer_client.post`, with `PeerUnreachable` caught. -/
def postOrReason (url : String) (body : Json) (token : Option String) :
    Code (String ⊕ (ℕ × Json)) :=
  ((attempt (.post url body token) rfl : Code (ℕ × Json)) >>= fun r => pure (.inr r)).tryCatch
    fun e =>
      match e with
      | .unreachable message => pure (.inl message)
      | e => throw e

/-- A row of a new outbound pairing. -/
def outboundRow (id createdAt hostname apiUrl token : String) : Peer where
  id
  hostname
  pubkey := ""
  pubkeyFpr := ""
  apiUrl
  direction := .outbound
  status := .pendingOutbound
  localToken := some token
  remoteToken := none
  wgPubkey := none
  wgEndpoint := none
  wgBridgeSubnet := none
  wgTransitIp := none
  wgTunnelStatus := "unknown"
  createdAt
  approvedAt := none

/-- The detail of the answer to a second pairing with one address. -/
def alreadyPaired (p : Peer) (address port : String) : String :=
  let status := if p.status = .approved then "approved" else "pending_outbound"
  s!"Already {status} with a peer at {address}:{port} (id {p.id}) — revoke it first if you want to re-pair."

def initiatePairing (body : Option Json) : Code Answer := do
  let body ← Program.lift (requestBody body)
  let hostname := field body "hostname"
  let address := field body "address"
  let port := field body "port"
  if !(hostname.truthy && address.truthy && port.truthy) then
    pure (.problem 400 "Bad Request" (some "hostname, address, and port are required"))
  else do
    let apiUrl := s!"http://{pf.text address}:{pf.text port}"
    let peers : List Peer ← perform (.listPeers none)
    match peers.find? fun p => p.apiUrl = apiUrl && (p.status = .approved || p.status = .pendingOutbound) with
    | some p => pure (.problem 409 "Conflict" (some (alreadyPaired p (pf.text address) (pf.text port))))
    | none => do
      let callbackToken : String ← perform .token
      let me : MyInfo ← attempt .me rfl
      let payload := .obj ([("hostname", .str me.hostname), ("pubkey", .str me.pubkey),
        ("peer_port", .int me.peerPort), ("callback_token", .str callbackToken)] ++ me.wgFields)
      let signature : String ← attempt (.sign payload) rfl
      let targetUrl := apiUrl ++ "/v1/peers/pairing-requests"
      match ← postOrReason targetUrl
          (.obj [("payload", payload), ("signature", .str signature)]) none with
      | .inl reason => pure (.problem 502 "Bad Gateway"
          (some s!"Could not reach {targetUrl}: {reason}"))
      | .inr (status, answer) =>
        if status ∉ [200, 202] then pure (.problem 502 "Bad Gateway"
          (some s!"Target rejected pairing request: {status} {pf.text answer}"))
        else do
          let hostname ← Program.lift (column pf hostname)
          let id : String ← perform .newId
          let createdAt : String ← perform .nowIso
          let row := outboundRow id createdAt hostname apiUrl callbackToken
          let () ← attempt (.insertPeer row none) rfl
          pure (.peer 201 row none)

def maxPendingPairingRequests : ℕ := 20

/-- `PAIRING_REQUEST_TTL_MINUTES`, in microseconds. -/
def pairingRequestTtl : ℤ := 15 * 60 * 1000000

/-- When a request expires. -/
@[irreducible] def expiry (now : DateTime) : Except Failure DateTime :=
  match now.add pairingRequestTtl with
  | none => .error .overflow
  | some expires => .ok expires

/-- What `pairing_request_bootstrap` stores of a request that expires at `expires`. -/
def storeRequest (remoteAddr : String) (payload signature : Json) (pubkey pubkeyFpr : String)
    (expires : DateTime) : Code Answer := do
  let hostname ← Program.lift (column pf (field payload "hostname"))
  let signature ← Program.lift (column pf signature)
  let callbackToken ← Program.lift (column pf (field payload "callback_token"))
  let wgPubkey ← Program.lift (column pf (fieldText payload "wg_pubkey"))
  let wgEndpoint ← Program.lift (column pf (fieldText payload "wg_endpoint"))
  let wgBridgeSubnet ← Program.lift (column pf (fieldText payload "wg_bridge_subnet"))
  let port := pf.text (field payload "peer_port")
  let id : String ← perform .newId
  let createdAt : String ← perform .nowIso
  let () ← attempt (.insertRequest
      { id
        hostname
        pubkey
        pubkeyFpr
        signature
        callbackToken
        callbackUrl := s!"http://{remoteAddr}:{port}"
        wgPubkey
        wgEndpoint
        wgBridgeSubnet
        status := .pending
        createdAt
        expiresAt := expires.isoformat }) rfl
  pure (.accepted id expires.isoformat)

/-- The part of `pairing_request_bootstrap` that looks at the body. -/
def receiveRequest (remoteAddr : String) (body : Json) : Code Answer := do
  let payload := field body "payload"
  let signature := field body "signature"
  let required := ["hostname", "pubkey", "peer_port", "callback_token"]
  if !isDict payload || !signature.truthy then
    pure (.problem 400 "Bad Request" (some "payload and signature are required"))
  else if !required.all fun k => (payload.get? k).isSome then
    pure (.problem 400 "Bad Request" (some
      "payload missing required field(s): ('hostname', 'pubkey', 'peer_port', 'callback_token')"))
  else if !pf.verify payload signature (field payload "pubkey") then
    pure (.problem 400 "Bad Request" (some "Signature does not match the claimed public key."))
  else do
    let (pubkey, pubkeyFpr) ← Program.lift (fingerprint pf (field payload "pubkey"))
    let peers : List Peer ← perform (.listPeers none)
    match peers.find? fun p => p.pubkeyFpr = pubkeyFpr && p.status = .approved with
    | some p => pure (.problem 409 "Conflict" (some
        s!"Already paired with this host (peer id {p.id}) — revoke it first if you want to re-pair."))
    | none => do
      let now : DateTime ← perform .now
      let expires ← Program.lift (expiry now)
      storeRequest pf remoteAddr payload signature pubkey pubkeyFpr expires

def pairingRequestBootstrap (remoteAddr : String) (body : Option Json) : Code Answer := do
  let allowed : Bool ← perform (.rateLimit remoteAddr)
  if !allowed then pure (.problem 429 "Too Many Requests"
    (some "Too many pairing requests from this source — try again later."))
  else do
    let now : String ← perform .nowIso
    let () ← attempt (.expireStale now) rfl
    let pending : ℕ ← perform .countPending
    if maxPendingPairingRequests ≤ pending then pure (.problem 429 "Too Many Requests"
      (some "Too many pending pairing requests on this host right now."))
    else do
      let body ← Program.lift (requestBody body)
      receiveRequest pf remoteAddr body

/-- From the moment a row is approved: the tunnel, and the references to older rows of
the host whose fingerprint is `fpr`. -/
def settle (row : Peer) (fpr : Peer → String) : Code Peer := do
  let approved : List Peer ← perform (.listPeers (some .approved))
  let (status, transitIp) : String × Option String ← attempt (.wgApproved row approved) rfl
  let updated : Option Peer ← attempt (.updatePeer row.id (.tunnel status transitIp)) rfl
  match updated with
  | none => throw .type
  | some updated => do
    let _ : ℕ ← attempt (.migrate (fpr updated) updated.id) rfl
    pure updated

/-- The row of an approved pairing request. -/
def inboundRow (r : PairingRequest) (id createdAt localToken approvedAt : String) : Peer where
  id
  hostname := r.hostname
  pubkey := r.pubkey
  pubkeyFpr := r.pubkeyFpr
  apiUrl := r.callbackUrl
  direction := .inbound
  status := .approved
  localToken := some localToken
  remoteToken := some r.callbackToken
  wgPubkey := some r.wgPubkey
  wgEndpoint := some r.wgEndpoint
  wgBridgeSubnet := some r.wgBridgeSubnet
  wgTransitIp := none
  wgTunnelStatus := "unknown"
  createdAt
  approvedAt := some approvedAt

/-- The rest of `approve_pairing_request`, for a request that is pending. -/
def approveRow (r : PairingRequest) : Code Answer := do
  let localToken : String ← perform .token
  let me : MyInfo ← attempt .me rfl
  let approvedAt : String ← perform .nowIso
  let id : String ← perform .newId
  let createdAt : String ← perform .nowIso
  let row := inboundRow r id createdAt localToken approvedAt
  let () ← attempt (.insertPeer row (some r.id)) rfl
  let row ← settle row (·.pubkeyFpr)
  let me' : MyInfo ← attempt .me rfl
  let delivered ← postOrReason (r.callbackUrl ++ "/v1/peers/complete")
    (.obj ([("pubkey", .str me'.pubkey), ("token_for_you", .str localToken)] ++ me.wgFields))
    (some r.callbackToken)
  let callbackError :=
    match delivered with
    | .inl reason => some reason
    | .inr (status, answer) => if status = 200 then none else some s!"{status} {pf.text answer}"
  let () ← attempt (.updateRequest r.id .approved) rfl
  pure (.peer 200 row callbackError)

/-- The request is not pending any more. -/
def notPending (r : PairingRequest) : Answer :=
  .problem 409 "Conflict" (some s!"Request is '{r.status.text}', not pending.")

def approvePairingRequest (id : String) : Code Answer := do
  let row : Option PairingRequest ← perform (.getRequest id)
  match row with
  | none => pure (.problem 404 "Not Found" none)
  | some r =>
    if r.status ≠ .pending then pure (notPending r)
    else do
      let now : String ← perform .nowIso
      if r.expiresAt < now then do
        let () ← attempt (.updateRequest id .expired) rfl
        pure (.problem 410 "Gone" (some "Request expired."))
      else approveRow pf r

def rejectPairingRequest (id : String) : Code Answer := do
  let row : Option PairingRequest ← perform (.getRequest id)
  match row with
  | none => pure (.problem 404 "Not Found" none)
  | some r =>
    if r.status ≠ .pending then pure (notPending r)
    else do
      let () ← attempt (.updateRequest id .rejected) rfl
      pure (.status "rejected")

/-- The columns that `complete_pairing` takes from the body. -/
def completeUpdate (body : Json) (approvedAt : String) : Except Failure PeerUpdate := do
  let (pubkey, pubkeyFpr) ← fingerprint pf (field body "pubkey")
  let remoteToken ← nullable pf (field body "token_for_you")
  let wgPubkey ← nullable pf (fieldText body "wg_pubkey")
  let wgEndpoint ← nullable pf (fieldText body "wg_endpoint")
  let wgBridgeSubnet ← nullable pf (fieldText body "wg_bridge_subnet")
  .ok (.complete pubkey pubkeyFpr remoteToken wgPubkey wgEndpoint wgBridgeSubnet approvedAt)

def unauthorized : Answer := .problem 401 "Unauthorized" none

/-- The rest of `complete_pairing`, for a token that a pending row has. -/
def completeRow (row : Peer) (body : Option Json) : Code Answer := do
  let body ← Program.lift (requestBody body)
  if !((field body "pubkey").truthy && (field body "token_for_you").truthy) then
    pure (.problem 400 "Bad Request" (some "pubkey and token_for_you are required"))
  else do
    let approvedAt : String ← perform .nowIso
    let update ← Program.lift (completeUpdate pf body approvedAt)
    let updated : Option Peer ← attempt (.updatePeer row.id update) rfl
    match updated with
    | none => throw .attribute
    | some updated => do
      let _ ← settle updated fun _ => updated.pubkeyFpr
      pure .empty

/-- `complete_pairing`; `token` is that of the header. -/
def completePairing (token : String) (body : Option Json) : Code Answer := do
  if token = "" then pure unauthorized
  else do
    let row : Option Peer ← perform (.findPendingOutbound token)
    match row with
    | none => pure unauthorized
    | some row => completeRow pf row body

/-- The route `revoke_peer`. -/
def revokePeer (id : String) : Code Answer := do
  let row : Option Peer ← perform (.getPeer (some id))
  match row with
  | none => pure (.problem 404 "Not Found" none)
  | some _ => do
    let _ : Option Peer ← attempt (.updatePeer id .revoke) rfl
    let approved : List Peer ← perform (.listPeers (some .approved))
    let () ← attempt (.wgRevoked approved) rfl
    pure (.status "revoked")

/-! ### Following a peer -/

/-- What mDNS says of an address. -/
structure Hit where
  address : String
  port : ℤ

/-- The address to try. -/
def Hit.url (hit : Hit) : String := s!"http://{hit.address}:{hit.port}"

/-- `value or stored`. -/
def orStored (v : Json) (stored : Option String) : Except Failure (Option String) :=
  if v.truthy then nullable pf v else .ok stored

/-- What `_reconcile_peer` makes of the answer of the address it tries: the update,
if the answer is signed with the peer's key. -/
def selfInfoUpdate (peer : Peer) (hit : Hit) (status : ℕ) (body : Json) :
    Except Failure (Option PeerUpdate) :=
  if status ≠ 200 then .ok none
  else do
    let body ← requestBody (some body)
    let payload := field body "payload"
    let signature := field body "signature"
    if !isDict payload || !signature.truthy then .ok none
    else if !pf.verify payload signature (fieldText payload "pubkey") then .ok none
    else
      match payload.get? "pubkey" with
      | none => .error .key
      | some pubkey => do
        let (_, claimedFpr) ← fingerprint pf pubkey
        if claimedFpr ≠ peer.pubkeyFpr then .ok none
        else do
          let wgPubkey ← orStored pf (field payload "wg_pubkey") peer.wgPubkey
          let wgEndpoint ← orStored pf (field payload "wg_endpoint") peer.wgEndpoint
          let wgBridgeSubnet ← orStored pf (field payload "wg_bridge_subnet") peer.wgBridgeSubnet
          .ok (some (.address hit.url wgPubkey wgEndpoint wgBridgeSubnet))

/-- The end of `_reconcile_peer`: the tunnel to the new address. -/
def retunnel (id : String) (updated : Peer) : Code Unit := do
  let approved : List Peer ← perform (.listPeers (some .approved))
  let (status, transitIp) : String × Option String ← attempt (.wgApproved updated approved) rfl
  let _ : Option Peer ← attempt (.updatePeer id (.tunnel status transitIp)) rfl
  pure ()

/-- The part of `_reconcile_peer` in `try`. -/
def followTo (peer : Peer) (hit : Hit) : Code Unit := do
  let (status, body) : ℕ × Json ← attempt (.get (hit.url ++ "/v1/peers/self-info")) rfl
  match ← Program.lift (selfInfoUpdate pf peer hit status body) with
  | none => pure ()
  | some update => do
    let updated : Option Peer ← attempt (.updatePeer peer.id update) rfl
    match updated with
    | none => throw .attribute
    | some updated => retunnel peer.id updated

def reconcilePeer (id : String) (hit : Hit) : Code Unit := do
  let row : Option Peer ← perform (.getPeer (some id))
  match row with
  | none => pure ()
  | some peer =>
    if peer.status ≠ .approved then pure ()
    else (followTo pf peer hit).tryCatch fun _ => pure ()

/-! ### Resources on a peer -/

/-- The path of a table's resources on the peer. -/
def HostTable.path : HostTable → String
  | .instances => "/v1/instances"
  | .vpcs => "/v1/vpcs"
  | .subnets => "/v1/subnets"
  | .securityGroups => "/v1/security-groups"

/-- The statuses with which a peer accepts a create. -/
def HostTable.accepts : HostTable → List ℕ
  | .instances => [200, 202]
  | .vpcs | .subnets | .securityGroups => [201]

/-- The id the peer gave the resource. -/
def remoteId (table : HostTable) (remote : Json) : Except Failure (Option String) :=
  if !isDict remote then .error (if table = .instances then .type else .attribute)
  else
    match table, remote.get? "id" with
    | .instances, none => .error .key
    | _, id => nullable pf (id.getD .null)

/-- `_create_remote_vpc`, `_create_remote_subnet`, `_create_remote_sg` and
`_create_remote_instance`. -/
def createRemote (table : HostTable) (peerId : Json) (fields : List (String × Json)) :
    Code Answer := do
  let hostId ← Program.lift (nullable pf peerId)
  let row : Option Peer ← perform (.getPeer hostId)
  match row.filter (·.status = .approved) with
  | none => pure (.problem 400 "Bad Request" (some s!"'{pf.text peerId}' is not an approved peer"))
  | some peer => do
    let body := .obj (fields.filter (·.1 != "peer_id"))
    match ← postOrReason (peer.apiUrl ++ table.path) body peer.remoteToken with
    | .inl reason => pure (.problem 502 "Bad Gateway"
        (some s!"Could not reach peer '{peer.hostname}': {reason}"))
    | .inr (status, remote) =>
      if status ∉ table.accepts then
        let detail := if isDict remote then (remote.get? "detail").getD remote else remote
        pure (.problem status "Bad Gateway"
          (some s!"Peer '{peer.hostname}' rejected the create: {pf.text detail}"))
      else do
        let id ← Program.lift (remoteId pf table remote)
        let r : Record := { table, id, hostId }
        let () ← attempt (.putRecord r) rfl
        pure (.record status r)

/-! ### What the steps do -/

/-- The tables; and which peers rows each pairing request has led to. -/
structure State where
  peers : List Peer
  requests : List PairingRequest
  records : List Record
  led : List (String × String)

def State.empty : State := ⟨[], [], [], []⟩

/-- `SELECT * FROM peers WHERE id=?`. -/
def findPeer (peers : List Peer) (id : Option String) : Option Peer :=
  peers.find? fun p => some p.id = id

/-- `UPDATE peers SET ... WHERE id=?`. -/
def setPeer (peers : List Peer) (id : String) (update : PeerUpdate) : List Peer :=
  peers.map fun p => if p.id = id then update.apply p else p

/-- The rows of a host, but one. -/
def otherIds (peers : List Peer) (pubkeyFpr newPeerId : String) : List String :=
  (peers.filter fun p => p.pubkeyFpr = pubkeyFpr && p.id ≠ newPeerId).map (·.id)

/-- `UPDATE ... SET host_id=? WHERE host_id IN (...)`, in all the tables. -/
def redirect (records : List Record) (ids : List String) (newPeerId : String) : List Record :=
  records.map fun r =>
    if r.hostId.any (ids.contains ·) then { r with hostId := some newPeerId } else r

/-- `INSERT ... ON CONFLICT(id) DO UPDATE`; `NULL` is in conflict with nothing. -/
def upsert (records : List Record) (r : Record) : List Record :=
  if r.id.isSome && records.any fun r' => r'.table = r.table && r'.id = r.id then
    records.map fun r' => if r'.table = r.table && r'.id = r.id then r else r'
  else records ++ [r]

def setRequest (requests : List PairingRequest) (id : String) (status : RequestStatus) :
    List PairingRequest :=
  requests.map fun r => if r.id = id then { r with status } else r

/-- `UPDATE pairing_requests SET status='expired' WHERE status='pending' AND expires_at < ?`. -/
def expire (requests : List PairingRequest) (now : String) : List PairingRequest :=
  requests.map fun r =>
    if r.status = .pending ∧ r.expiresAt < now then { r with status := .expired } else r

/-- What a command does.  A write may be refused; the surroundings answer as they like. -/
def exec (s : State) : (c : Cmd) → c.Ans → State → Prop
  | .listPeers status, peers, s' =>
    s' = s ∧ peers = s.peers.filter fun p => status.all (p.status = ·)
  | .getPeer id, p, s' => s' = s ∧ p = findPeer s.peers id
  | .findPendingOutbound token, p, s' =>
    s' = s ∧ p = s.peers.find? fun p => p.localToken = some token && p.status = .pendingOutbound
  | .insertPeer p request, .ok _, s' =>
    (∀ q ∈ s.peers, q.id ≠ p.id) ∧
      s' = { s with
        peers := s.peers ++ [p]
        led := s.led ++ (request.map fun r => (r, p.id)).toList }
  | .updatePeer id update, .ok p, s' =>
    s' = { s with peers := setPeer s.peers id update } ∧ p = findPeer s'.peers (some id)
  | .migrate fpr id, .ok _, s' =>
    s' = { s with records := redirect s.records (otherIds s.peers fpr id) id }
  | .expireStale now, .ok _, s' => s' = { s with requests := expire s.requests now }
  | .countPending, n, s' => s' = s ∧ n = s.requests.countP (·.status = .pending)
  | .insertRequest r, .ok _, s' =>
    (∀ q ∈ s.requests, q.id ≠ r.id) ∧ s' = { s with requests := s.requests ++ [r] }
  | .getRequest id, r, s' => s' = s ∧ r = s.requests.find? (·.id = id)
  | .updateRequest id status, .ok _, s' => s' = { s with requests := setRequest s.requests id status }
  | .putRecord r, .ok _, s' => s' = { s with records := upsert s.records r }
  | .insertPeer .., .error _, s' | .updatePeer .., .error _, s' | .migrate .., .error _, s'
  | .expireStale _, .error _, s' | .insertRequest _, .error _, s' | .updateRequest .., .error _, s'
  | .putRecord _, .error _, s' => s' = s
  | .nowIso, _, s' | .now, _, s' | .newId, _, s' | .token, _, s' | .rateLimit _, _, s' | .me, _, s'
  | .sign _, _, s' | .get _, _, s' | .post .., _, s' | .wgApproved .., _, s'
  | .wgRevoked _, _, s' => s' = s

/-- What a command may do to the peers. -/
theorem peers_step {s s' : State} {c : Cmd} {a : c.Ans} (h : exec s c a s') :
    s'.peers = s.peers ∨
      (∃ p r, c = .insertPeer p r ∧ (∀ q ∈ s.peers, q.id ≠ p.id) ∧ s'.peers = s.peers ++ [p]) ∨
      ∃ id u, c = .updatePeer id u ∧ s'.peers = setPeer s.peers id u := by
  cases c with
  | insertPeer p r =>
    cases a with
    | error e =>
      cases h
      exact .inl rfl
    | ok u =>
      obtain ⟨hfresh, rfl⟩ := h
      exact .inr (.inl ⟨p, r, rfl, hfresh, rfl⟩)
  | updatePeer id u =>
    cases a with
    | error e =>
      cases h
      exact .inl rfl
    | ok p =>
      obtain ⟨rfl, -⟩ := h
      exact .inr (.inr ⟨id, u, rfl, rfl⟩)
  | listPeers status => exact .inl (by rw [h.1])
  | getPeer id => exact .inl (by rw [h.1])
  | findPendingOutbound token => exact .inl (by rw [h.1])
  | countPending => exact .inl (by rw [h.1])
  | getRequest id => exact .inl (by rw [h.1])
  | migrate fpr id => cases a <;> (cases h; exact .inl rfl)
  | expireStale now => cases a <;> (cases h; exact .inl rfl)
  | insertRequest r =>
    cases a with
    | error e =>
      cases h
      exact .inl rfl
    | ok u =>
      obtain ⟨-, rfl⟩ := h
      exact .inl rfl
  | updateRequest id status => cases a <;> (cases h; exact .inl rfl)
  | putRecord r => cases a <;> (cases h; exact .inl rfl)
  | _ =>
    cases h
    exact .inl rfl

/-! ### Operations -/

/-- What the threads run. -/
inductive Operation where
  | initiate (body : Option Json)
  | bootstrap (remoteAddr : String) (body : Option Json)
  | approve (id : String)
  | reject (id : String)
  | complete (token : String) (body : Option Json)
  | revoke (id : String)
  | reconcile (id : String) (hit : Hit)
  | place (table : HostTable) (peerId : Json) (fields : List (String × Json))

/-- The code of an operation, without its answer. -/
def Operation.code (pf : Platform) : Operation → Code Unit
  | .initiate body => initiatePairing pf body >>= fun _ => pure ()
  | .bootstrap remoteAddr body => pairingRequestBootstrap pf remoteAddr body >>= fun _ => pure ()
  | .approve id => approvePairingRequest pf id >>= fun _ => pure ()
  | .reject id => rejectPairingRequest id >>= fun _ => pure ()
  | .complete token body => completePairing pf token body >>= fun _ => pure ()
  | .revoke id => revokePeer id >>= fun _ => pure ()
  | .reconcile id hit => reconcilePeer pf id hit
  | .place table peerId fields => createRemote pf table peerId fields >>= fun _ => pure ()

/-- The threads start these operations, and may be stopped anywhere. -/
def Starts {ι S : Type} (pf : Platform) (_ : Config sig Failure Unit ι S) :
    Move sig Failure Unit ι → Prop
  | .start _ p => ∃ op : Operation, p = op.code pf
  | _ => True

/-! ### Surroundings -/

/-- Every text is a key, and a signature says whose it is. -/
def plainPlatform : Platform where
  str _ := ""
  renderReal _ := ""
  verify _ signature key :=
    match signature, key with
    | .str s, .str k => s = "signed with " ++ k
    | _, _ => false
  fingerprintOf pubkey := some ("SHA256:" ++ pubkey)

/-- A name that no row has yet, if the rows are named so. -/
def nextName (s : State) : String :=
  String.ofList (List.replicate (s.peers.length + s.requests.length + 1) 'x')

theorem march_valid : (1 ≤ 2026 ∧ 2026 ≤ 9999) ∧ (1 ≤ 3 ∧ 3 ≤ 12) ∧
    1 ≤ 1 ∧ 1 ≤ daysInMonth (isLeap 2026) 3 := by
  decide

/-- Noon of a day in March. -/
def noon : DateTime where
  date := ⟨2026, 3, 1, march_valid⟩
  time := ⟨12, 0, 0, 0, by decide⟩

/-- This host, to others. -/
def thisHost : MyInfo where
  hostname := "here"
  pubkey := "here's key"
  peerPort := 8445
  wgPubkey := ""
  wgEndpoint := "10.0.0.1:51820"
  wgBridgeSubnet := "192.168.100.0/24"

/-- Nothing fails, and the other hosts answer as `answer` says. -/
def surroundings (answer : String → ℕ × Json) (s : State) : (c : Cmd) → Option (c.Ans × State)
  | .nowIso => some ("2026-03-01T12:00:00+00:00", s)
  | .now => some (noon, s)
  | .newId => some (nextName s, s)
  | .token => some (nextName s, s)
  | .rateLimit _ => some (true, s)
  | .me => some (.ok thisHost, s)
  | .sign _ => some (.ok "signed with here's key", s)
  | .get url => some (.ok (answer url), s)
  | .post url _ _ => some (.ok (answer url), s)
  | .wgApproved .. => some (.ok ("up", none), s)
  | .wgRevoked _ => some (.ok (), s)
  | .listPeers status => some (s.peers.filter fun p => status.all (p.status = ·), s)
  | .getPeer id => some (findPeer s.peers id, s)
  | .findPendingOutbound token =>
    some (s.peers.find? fun p => p.localToken = some token && p.status = .pendingOutbound, s)
  | .insertPeer p request =>
    if s.peers.all (·.id ≠ p.id) then
      some (.ok (), { s with
        peers := s.peers ++ [p]
        led := s.led ++ (request.map fun r => (r, p.id)).toList })
    else none
  | .updatePeer id update =>
    let s' := { s with peers := setPeer s.peers id update }
    some (.ok (findPeer s'.peers (some id)), s')
  | .migrate fpr id =>
    some (.ok 0, { s with records := redirect s.records (otherIds s.peers fpr id) id })
  | .expireStale now => some (.ok (), { s with requests := expire s.requests now })
  | .countPending => some (s.requests.countP (·.status = .pending), s)
  | .insertRequest r =>
    if s.requests.all (·.id ≠ r.id) then some (.ok (), { s with requests := s.requests ++ [r] })
    else none
  | .getRequest id => some (s.requests.find? (·.id = id), s)
  | .updateRequest id status =>
    some (.ok (), { s with requests := setRequest s.requests id status })
  | .putRecord r => some (.ok (), { s with records := upsert s.records r })

theorem exec_surroundings {answer : String → ℕ × Json} {s s' : State} {c : Cmd} {a : c.Ans}
    (h : surroundings answer s c = some (a, s')) : exec s c a s' := by
  cases c with
  | insertPeer p request =>
    simp only [surroundings] at h
    split at h
    · next hnew =>
      cases h
      exact ⟨by simpa using hnew, rfl⟩
    · cases h
  | insertRequest r =>
    simp only [surroundings] at h
    split at h
    · next hnew =>
      cases h
      exact ⟨by simpa using hnew, rfl⟩
    · cases h
  | listPeers | getPeer | findPendingOutbound | countPending | getRequest | updatePeer =>
    cases h
    exact ⟨rfl, rfl⟩
  | _ =>
    cases h
    rfl

section

variable {ι : Type}

/-- Threads in these surroundings. -/
def respond (answer : String → ℕ × Json) (_ : ι) (s : State) (c : sig.Cmd) :
    Option (sig.Ans c × State) :=
  surroundings answer s c

/-- A schedule of operations that can be played in these surroundings is a run. -/
theorem starts_of_play [DecidableEq ι] {answer : String → ℕ × Json}
    {l : List (Turn sig Failure Unit ι)} {x y : Config sig Failure Unit ι State}
    (hstart : ∀ i p, Turn.start i p ∈ l → ∃ op : Operation, p = op.code plainPlatform)
    (hl : Config.play (respond answer) l x = some y) :
    Reaches (fun _ => exec) (Starts plainPlatform) x y :=
  reaches_of_play (fun _ _ _ _ _ h => ⟨exec_surroundings h, trivial⟩) (fun _ _ _ => trivial)
    (fun i p hp _ => hstart i p hp) hl

/-- A thread runs an operation of `n` commands, and ends. -/
def operate (i : ι) (op : Operation) (n : ℕ) : List (Turn sig Failure Unit ι) :=
  .start i (op.code plainPlatform) :: List.replicate (n + 1) (.go i)

theorem start_mem_operate {i j : ι} {op : Operation} {n : ℕ} {p : Code Unit}
    (h : Turn.start j p ∈ operate i op n) : p = op.code plainPlatform := by
  rcases List.mem_cons.mp h with h | h
  · cases h
    rfl
  · cases List.eq_of_mem_replicate h

end

end Peers
end CloudCore
