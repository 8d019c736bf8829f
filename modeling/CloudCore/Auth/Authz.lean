import CloudCore.Auth.Token
import CloudCore.Python.Isoformat

/-!
# Who may call what

`api/authz.py` and the two bind gates of `api/server.py`.  The app is served on
three ports.  Before a request reaches its route, `_peer_bind_gate` refuses what
the port it came in on does not serve, and the master token on the two
network-facing ports; then `authz.gate` identifies the caller from the token of
the request and looks up the route's allowed identities.

## Main definitions

* `Endpoints` — the allowlists of the blueprints.
* `allowed`, `identify`, `requestToken`, `gate` — `authz`.
* `peerBindGate` — `_peer_bind_gate`.
* `Server.handle` — the gates in their order.
-/

namespace CloudCore
namespace Auth

open Python

/-! ### Identities and routes -/

/-- A scope of `authz`. -/
inductive Scope where
  | admin
  | peer
  | capture
  | labvm
  | student
  deriving DecidableEq

/-- The source's word for a scope. -/
def Scope.name : Scope → String
  | .admin => "admin"
  | .peer => "peer"
  | .capture => "capture"
  | .labvm => "labvm"
  | .student => "student"

structure Identity where
  scope : Scope
  id : String
  name : String
  deriving DecidableEq

/-- The identity the master token has. -/
def Identity.master : Identity := ⟨.admin, "master", "master token (api.env)"⟩

/-- A set of endpoint names. -/
abbrev Endpoints := List String

/-- `PUBLIC`. -/
def publicEndpoints : Endpoints :=
  ["ui", "ui_vendor", "static", "llm_examples.list_published",
    "peers.pairing_request_bootstrap", "peers.self_info", "peers.complete_pairing",
    "instance_vnc_websocket"]

def peerReachableEndpoints : Endpoints :=
  ["peers.pairing_request_bootstrap", "peers.complete_pairing", "peers.self_info",
    "sg.list_sgs", "sg.create_sg", "sg.get_sg", "sg.update_sg", "sg.delete_sg",
    "stats.get_system_stats", "peers.sentinel_relay"]

def peerReachableLocalEndpoints : Endpoints :=
  ["resize_instance_disk",
    "create_instance", "get_instance", "update_instance", "delete_instance",
    "list_vpcs", "list_subnets",
    "create_vpc", "get_vpc", "update_vpc", "delete_vpc",
    "create_subnet", "get_subnet", "update_subnet", "delete_subnet"]

def labnetPeerReachable : Endpoints := ["labnet.add_pair", "labnet.remove_ip"]

def examplesReachableEndpoints : Endpoints :=
  ["llm_examples.ingest_example", "llm_examples.list_published"]

def llmDeploymentsReachableEndpoints : Endpoints :=
  ["llm_deployments.register_deployment_endpoint"]

def clientReachableEndpoints : Endpoints :=
  ["llm_client_capture.submit", "llm_client_capture.submission_status"]

def labVmReachableEndpoints : Endpoints :=
  ["lab_vms.create_lab_vm", "lab_vms.list_lab_vms", "lab_vms.get_lab_vm",
    "lab_vms.touch_lab_vm", "lab_vms.delete_lab_vm", "lab_vms.pair_lab_vm",
    "lab_vms.grow_lab_vm_disk", "lab_vms.set_control_key", "lab_vms.list_build_snapshots",
    "lab_vms.take_build_snapshot", "lab_vms.restore_build_snapshot"]

def lfsEndpoints : Endpoints :=
  ["lfs.create_build", "lfs.list_builds", "lfs.get_build", "lfs.update_build", "lfs.list_tasks",
    "lfs.next_task", "lfs.get_task", "lfs.set_task_state", "lfs.add_journal",
    "lfs.journal_markdown", "lfs.heartbeat"]

/-- What the peer listener serves. -/
def peerEndpoints : Endpoints :=
  peerReachableEndpoints ++ peerReachableLocalEndpoints ++ labnetPeerReachable

/-- What the examples listener serves. -/
def examplesEndpoints : Endpoints :=
  examplesReachableEndpoints ++ llmDeploymentsReachableEndpoints ++ clientReachableEndpoints ++
    labVmReachableEndpoints ++ lfsEndpoints

def queryTokenRules : List String :=
  ["/v1/builds/<build_id>/log", "/v1/tofu/builds/<build_id>/log"]

/-- The endpoints of those rules. -/
def queryTokenEndpoints : Endpoints := ["build_manager.get_build_log", "tofu.get_build_log"]

/-- `request.url_rule`, with its endpoint. -/
structure Route where
  rule : String
  endpoint : String
  /-- The rules that take `?token=` are registered under these endpoints. -/
  registered : rule ∈ queryTokenRules → endpoint ∈ queryTokenEndpoints

/-- `request.method`. -/
inductive Method where
  | get
  | head
  | post
  | put
  | patch
  | delete
  | options
  deriving DecidableEq

/-- What the gates look at in a request. -/
structure Request where
  /-- `SERVER_PORT`, from the accepting socket. -/
  serverPort : String
  method : Method
  /-- No route: Flask answers 404 or 405. -/
  route : Option Route
  /-- The `Authorization` header. -/
  authorization : Option String
  /-- `?token=`. -/
  queryToken : Option String

/-- `request.endpoint`. -/
def Request.endpoint (req : Request) : Option String := req.route.map (·.endpoint)

/-! ### Allowed identities -/

abbrev Access := String → Option (List Scope)

/-- One loop of `configure`. -/
def Access.allow (access : Access) (endpoints : Endpoints) (scopes : List Scope) : Access :=
  fun ep => if ep ∈ endpoints ∧ ep ∉ publicEndpoints then some scopes else access ep

/-- `configure`, as `server.py` calls it; a later loop overrides an earlier one. -/
def access : Access :=
  ((((Access.allow (fun _ => none) peerEndpoints [.admin, .peer]).allow
    (examplesReachableEndpoints ++ llmDeploymentsReachableEndpoints) [.admin, .capture]).allow
    clientReachableEndpoints [.student]).allow
    labVmReachableEndpoints [.labvm]).allow
    lfsEndpoints [.admin, .labvm]

/-- `allowed`: `none` means public, and a route that is not listed is for admins only. -/
def allowed (endpoint : String) : Option (List Scope) :=
  if endpoint ∈ publicEndpoints then none else some ((access endpoint).getD [.admin])

/-! ### Identifying the caller -/

/-- A row of `api_tokens`. -/
structure ApiToken where
  id : String
  name : String
  scope : Scope
  tokenSha256 : String
  expiresAt : Option String
  revokedAt : Option String
  /-- `uuid.uuid4().hex[:12]`. -/
  id_hex : id.toList.length = 12

/-- `status` of a peer. -/
inductive PeerStatus where
  | pendingOutbound
  | approved
  | revoked
  deriving DecidableEq

/-- A row of `peers`. -/
structure Peer where
  id : String
  hostname : String
  localToken : Option String
  status : PeerStatus
  deriving DecidableEq

/-- A row of `llm_client_tokens`. -/
structure ClientToken where
  id : String
  label : String
  tokenSha256 : String
  revokedAt : Option String
  deriving DecidableEq

/-- The server: the token it read when it started, what it reads now, and its tables. -/
structure Server where
  /-- `API_TOKEN`, read once when the module is loaded. -/
  apiToken : String
  env : Env
  apiTokens : List ApiToken
  peers : List Peer
  clientTokens : List ClientToken
  /-- The setting `network.peer_listener_port`. -/
  peerListenerPort : ℕ
  /-- SHA-256, in hexadecimal. -/
  sha256 : String → String
  now : DateTime

/-- `hmac.compare_digest` of two strings. -/
def compareDigest (a b : String) : Except Exc Bool :=
  if isAscii a ∧ isAscii b then .ok (a = b) else .error .typeError

/-- The token has not expired; comparing with a time without an offset raises. -/
def unexpired (now : DateTime) (expiresAt : Option String) : Except Exc Bool :=
  match expiresAt with
  | none => .ok true
  | some text =>
    if text = "" then .ok true
    else
      match fromisoformat text with
      | none => .error .valueError
      | some stamp =>
        match stamp.instant with
        | none => .error .typeError
        | some i => .ok (decide ((now.micros : ℤ) < i))

/-- A named token of the `api_tokens` table. -/
def Server.namedToken (srv : Server) (token : String) : Except Exc (Option Identity) :=
  match srv.apiTokens.find? fun row =>
      row.tokenSha256 = srv.sha256 token ∧ row.revokedAt = none with
  | none => .ok none
  | some row => do
    if ← unexpired srv.now row.expiresAt then .ok (some ⟨row.scope, row.id, row.name⟩)
    else .ok none

def Server.findPeerByLocalToken (srv : Server) (token : String) : Option Peer :=
  srv.peers.find? fun peer => peer.localToken = some token ∧ peer.status = .approved

/-- A token of the environment; without one, nobody has the scope. -/
def envToken (scope : Scope) (value token : String) : Except Exc (Option Identity) :=
  if value = "" then .ok none
  else do
    if ← compareDigest token value then
      .ok (some ⟨scope, scope.name ++ "-env", scope.name ++ " token (api.env)"⟩)
    else .ok none

/-- A per-student token. -/
def Server.clientToken (srv : Server) (token : String) : Option Identity :=
  (srv.clientTokens.find? fun row =>
    row.tokenSha256 = srv.sha256 token ∧ row.revokedAt = none).map
      fun row => ⟨.student, row.id, row.label⟩

/-- `identify`: the first kind of token that matches. -/
def Server.identify (srv : Server) (token : String) : Except Exc (Option Identity) :=
  if token = "" then .ok none
  else do
    let master ← masterToken srv.env
    if ← compareDigest token master then .ok (some .master)
    else
      match ← srv.namedToken token with
      | some ident => .ok (some ident)
      | none =>
        match srv.findPeerByLocalToken token with
        | some peer =>
          .ok (some ⟨.peer, peer.id, if peer.hostname = "" then peer.id else peer.hostname⟩)
        | none =>
          match ← envToken .capture (examplesToken srv.env) token with
          | some ident => .ok (some ident)
          | none =>
            match ← envToken .labvm (labvmToken srv.env) token with
            | some ident => .ok (some ident)
            | none => .ok (srv.clientToken token)

/-- The token of the `Authorization` header. -/
def headerToken (authorization : Option String) : String :=
  let auth := authorization.getD ""
  if startswith auth "Bearer " then strip ( removeprefix auth "Bearer ") else ""

def requestToken (req : Request) : String :=
  let token := headerToken req.authorization
  if token = "" ∧ req.method = .get ∧ req.route.any (·.rule ∈ queryTokenRules) then
    req.queryToken.getD ""
  else token

/-! ### The gates -/

/-- What becomes of a request before its route. -/
inductive Outcome where
  /-- `abort(status)`. -/
  | abort (status : ℕ)
  /-- A JSON problem. -/
  | problem (status : ℕ) (title detail : String)
  /-- The gate raised: Flask answers 500. -/
  | raised (e : Exc)
  /-- Flask answers itself: no route, or `OPTIONS`. -/
  | flask
  /-- On to the blueprint's own hooks and the route's code. -/
  | dispatched
  deriving DecidableEq

/-- `gate`; `none` lets the request through. -/
def Server.gate (srv : Server) (req : Request) : Option Outcome :=
  match req.endpoint with
  | none => none
  | some endpoint =>
    if req.method = .options then none
    else
      match srv.identify (requestToken req), allowed endpoint with
      | .error e, _ => some (.raised e)
      | .ok _, none => none
      | .ok none, some _ =>
        some (.problem 401 "Unauthorized" "a valid API token is required for this route")
      | .ok (some ident), some need =>
        if ident.scope ∈ need then none
        else some (.problem 403 "Forbidden" ("a " ++ ident.scope.name ++ " token can't call this route"))

/-- `examples_listener.PORT`. -/
def examplesPort : ℕ := 8083

/-- One bind of `_peer_bind_gate`: the master token is refused, and so is whatever
the bind does not serve. -/
def bindRefuses (apiToken : String) (endpoints : Endpoints) (req : Request) : Bool :=
  req.authorization.getD "" = "Bearer " ++ apiToken ∨ ¬∃ ep ∈ req.endpoint, ep ∈ endpoints

def Server.peerBindGate (srv : Server) (req : Request) : Option Outcome :=
  if req.serverPort = toString srv.peerListenerPort ∧ bindRefuses srv.apiToken peerEndpoints req then
    some (.abort 403)
  else if req.serverPort = toString examplesPort ∧
      bindRefuses srv.apiToken examplesEndpoints req then
    some (.abort 403)
  else none

/-- The gates in their order, then the route. -/
def Server.handle (srv : Server) (req : Request) : Outcome :=
  match srv.peerBindGate req with
  | some out => out
  | none =>
    match srv.gate req with
    | some out => out
    | none => if req.route.isNone ∨ req.method = .options then .flask else .dispatched

end Auth
end CloudCore
