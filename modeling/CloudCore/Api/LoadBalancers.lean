import CloudCore.Api.Instances

/-!
# The load balancer handlers

Eleven handlers edit a load balancer in one way: under its lock they read the
row, edit the copy, reload HAProxy and write the copy back.  What each does to
the copy is a pure `Edit`, which may refuse; `withLb` is the rest.  `deleteLb`
takes no lock.

## Main definitions

* `createLb`, `deleteLb`.
* `Edit`, `withLb` — edits of one load balancer, and the handler around them.
* `updateLb`, `addBackend`, `removeBackend`, `addListener`, `updateListener`,
  `removeListener`, `createTargetGroup`, `updateTargetGroup`, `deleteTargetGroup`,
  `setHealthCheck`, `deleteHealthCheck`.
-/

namespace CloudCore
namespace Api

open Python Effect

variable (pf : Platform)

/-! ### Creating and deleting -/

/-- The `lb` of `create_lb`. -/
def newLb (name : String) (body : Fields) (id createdAt : String) : LoadBalancer Json Json where
  id
  name := .str name
  type := fieldD body "type" (.str "application")
  vpcId := fieldD body "vpc_id" (.str "")
  subnetIds := fieldD body "subnet_ids" (.arr [])
  internal := fieldD body "internal" (.bool false)
  dnsName := name ++ ".lb.cloudcore.internal"
  backends := fieldD body "backends" (.arr [])
  stickySessions := (fieldD body "sticky_sessions" (.bool false)).truthy
  cookieName := fieldD body "cookie_name" (.str "SERVERID")
  deletionProtection := (fieldD body "deletion_protection" (.bool false)).truthy
  createdAt
  tags := fieldD body "tags" (.obj [])

/-- Start HAProxy; a failure is logged and leaves the port at 0. -/
def startLb (b : LoadBalancer Json Json) : Action (LoadBalancer Json Json) := do
  let instances ← Program.perform (F := Commands) (.listByVpc .inst b.vpcId)
  match instances with
  | .error _ => pure b
  | .ok l => do
    let port ← Program.perform (F := Commands) (.external (.startLb b l))
    match port with
    | .error _ => pure b
    | .ok port => pure { b with listenPort := port }

/-- Register the name of a load balancer; a failure is logged. -/
def registerLb (b : LoadBalancer Json Json) : Action Unit :=
  Program.tryCatch
    (do
      Store.call (.upsertDns "lb.cloudcore.internal" b.name "127.0.0.1" "lb" b.id)
      Store.call .reloadDns)
    fun _ => pure ()

/-- `create_lb`, its name being free. -/
def insertLb (name : String) (body : Fields) : Handler := do
  let id ← Store.newId
  let createdAt ← Store.nowIso
  let b ← startLb (newLb name body id createdAt)
  Store.put (k := .lb) b
  registerLb b
  pure (.record 201 .lb b)

def createLb (body : Option Json) : Handler := do
  let body ← Program.lift (requestJson body)
  let name ← Program.lift (strippedField body "name")
  if name = "" then badRequest "name is required"
  else do
    let found ← Store.findByName .lb (.str name)
    if found.isSome then conflict s!"Load balancer '{name}' already exists"
    else insertLb name body

/-- `delete_lb` after its checks. -/
def dropLb (lbId : String) : Handler := do
  let _ ← Store.delete .lb lbId
  Store.call (.stopLb lbId)
  Store.call (.deleteDns lbId)
  Store.call .reloadDns
  pure .noContent

def deleteLb (lbId : String) : Handler := do
  let found ← Store.get .lb (.str lbId)
  match found with
  | none => notFound "Load balancer" lbId
  | some b =>
    if LoadBalancer.deletionProtection b then
      conflict s!"Load balancer '{lbId}' has deletion protection enabled — disable it first"
    else dropLb lbId

/-! ### Editing -/

/-- Why an edit does not take place. -/
inductive Refusal where
  | reply (r : Reply)
  | raised (e : Raised)

/-- What a handler does to its copy of the load balancer, and its answer. -/
abbrev Edit := LoadBalancer Json Json → Except Refusal (LoadBalancer Json Json × Reply)

/-- Go on unless an exception was raised. -/
def raising {α : Type} : Except Raised α → Except Refusal α := Except.mapError .raised

/-- Answer with a problem. -/
def refuse {α : Type} (status : ℕ) (title detail : String) : Except Refusal α :=
  .error (.reply (.problem status title detail))

/-- `with store.lb_lock(lb_id)`. -/
def withLbLock (lbId : String) : Handler → Handler :=
  Store.withLock (Program.perform (F := Commands) (.lockLb lbId))
    (Program.perform (F := Commands) (.unlockLb lbId))

/-- Reload HAProxy with the edited load balancer and store it. -/
def storeLb (b : LoadBalancer Json Json) (reply : Reply) : Handler := do
  reloadLb b.vpcId b
  Store.put (k := .lb) b
  pure reply

/-- What an edit leads to. -/
def finishEdit : Except Refusal (LoadBalancer Json Json × Reply) → Handler
  | .error (.reply r) => pure r
  | .error (.raised e) => throw e
  | .ok (b, reply) => storeLb b reply

/-- Read the load balancer, edit the copy, write it back, all under its lock. -/
def withLb (lbId : String) (edit : Edit) : Handler :=
  withLbLock lbId do
    let found ← Store.get .lb (.str lbId)
    match found with
    | none => notFound "Load balancer" lbId
    | some b => finishEdit (edit b)

/-- `int(value)` where nothing catches its exceptions. -/
def intOf (v : Json) : Except Refusal ℤ := raising (v.toInt.mapError .exc)

/-- `value["key"]`. -/
def item (v : Json) (key : String) : Except Raised Json :=
  match v with
  | .obj fields =>
    match field? fields key with
    | some w => .ok w
    | none => .error .keyError
  | _ => .error (.exc .typeError)

/-- `value or default`. -/
def orElse (v default : Json) : Json := if v.truthy then v else default

/-! ### The load balancer itself -/

/-- The assignments of `update_lb`. -/
def assignLb (body : Fields) (b : LoadBalancer Json Json) : LoadBalancer Json Json :=
  { b with
    name := fieldD body "name" b.name
    subnetIds := fieldD body "subnet_ids" b.subnetIds
    internal := fieldD body "internal" b.internal
    backends := fieldD body "backends" b.backends
    stickySessions := (fieldD body "sticky_sessions" (.bool b.stickySessions)).truthy
    cookieName := fieldD body "cookie_name" b.cookieName
    deletionProtection := (fieldD body "deletion_protection" (.bool b.deletionProtection)).truthy
    tags := fieldD body "tags" b.tags }

def editLb (body : Option Json) : Edit := fun b => do
  let body ← raising (requestJson body)
  .ok (assignLb body b, .record 200 .lb (assignLb body b))

/-! ### Backends -/

/-- The backend that `add_backend` appends. -/
def newBackend (body : Fields) (port : ℤ) : Json :=
  .obj [("name", fieldD body "name" .null), ("address", fieldD body "address" .null),
    ("port", .int port)]

/-- A value on which `.append` is called. -/
def listOf : Json → Except Raised (List Json)
  | .arr l => .ok l
  | _ => .error .attributeError

def editAddBackend (body : Option Json) : Edit := fun b => do
  let body ← raising (requestJson body)
  match missingField body ["name", "address", "port"] with
  | some field => refuse 400 "Bad Request" s!"{field} is required"
  | none => do
    let l ← raising (listOf b.backends)
    let port ← intOf (fieldD body "port" .null)
    let b := { b with backends := .arr (l ++ [newBackend body port]) }
    .ok (b, .record 201 .lb b)

/-- `[b for b in backends if b["name"] != name]`. -/
def backendsExcept (name : String) : List Json → Except Raised (List Json)
  | [] => .ok []
  | v :: l => do
    let n ← item v "name"
    let l ← backendsExcept name l
    .ok (if n.eq (.str name) then l else v :: l)

def editRemoveBackend (backendName : String) : Edit := fun b => do
  let l ← raising (items b.backends)
  let l ← raising (backendsExcept backendName l)
  .ok ({ b with backends := .arr l }, .noContent)

/-! ### Listeners -/

/-- `int(value)`, or the answer where the value is no integer. -/
def intOrRefuse (v : Json) (detail : String) : Except Refusal ℤ :=
  match v.toInt with
  | .ok n => .ok n
  | .error .valueError | .error .typeError => refuse 400 "Bad Request" detail
  | .error e => .error (.raised (.exc e))

/-- A field with a text method called on it. -/
def textField (body : Fields) (key default : String) : Except Refusal String :=
  match fieldD body key (.str default) with
  | .str s => .ok s
  | _ => .error (.raised .attributeError)

/-- The port of a new listener. -/
def listenerPort (body : Fields) : Except Refusal ℤ :=
  let port := fieldD body "port" .null
  if !port.truthy then refuse 400 "Bad Request" "port is required"
  else do
    let port ← intOrRefuse port "port must be an integer"
    if port < 1 ∨ port > 65535 then refuse 400 "Bad Request" "port must be between 1 and 65535"
    else .ok port

/-- The protocol of a new listener. -/
def listenerProtocol (body : Fields) : Except Refusal String := do
  let protocol ← textField body "protocol" "http"
  if ["http", "https", "tcp"].contains (pf.lower protocol) then .ok protocol
  else refuse 400 "Bad Request" "protocol must be http, https or tcp"

/-- The listener that `add_listener` appends. -/
def newListener (id lbId : String) (body : Fields) (port : ℤ) (protocol : String) : Listener where
  id
  lbId
  port
  protocol
  targetGroupId := fieldD body "target_group_id" (.str "")
  routingRules := fieldOr body "routing_rules" (.arr [])
  defaultAction := fieldD body "default_action" (.str "forward")

/-- The edit of `add_listener`; `id` is the id it draws. -/
def editAddListener (id lbId : String) (body : Option Json) : Edit := fun b => do
  let body ← raising (requestJson body)
  let port ← listenerPort body
  let protocol ← listenerProtocol pf body
  if b.listeners.any (·.port == port) then
    refuse 409 "Conflict" s!"Listener on port {port} already exists"
  else
    let l := newListener id lbId body port protocol
    .ok ({ b with listeners := b.listeners ++ [l] }, .listener 201 l)

/-- Replace the first item that `p` picks. -/
def modifyFirst {α : Type} (p : α → Bool) (f : α → α) : List α → List α
  | [] => []
  | a :: l => if p a then f a :: l else a :: modifyFirst p f l

/-- The assignments of `update_listener`. -/
def assignListener (body : Fields) (l : Listener) : Listener :=
  { l with
    targetGroupId := fieldD body "target_group_id" l.targetGroupId
    routingRules := fieldOr body "routing_rules" (orElse l.routingRules (.arr []))
    defaultAction := fieldD body "default_action" l.defaultAction }

def editListener (listenerId : String) (body : Option Json) : Edit := fun b =>
  match b.listeners.find? (·.id == listenerId) with
  | none => refuse 404 "Not Found" s!"Listener '{listenerId}' not found"
  | some l => do
    let body ← raising (requestJson body)
    .ok ({ b with
        listeners := modifyFirst (·.id == listenerId) (assignListener body) b.listeners },
      .listener 200 (assignListener body l))

def editRemoveListener (listenerId : String) : Edit := fun b =>
  if b.listeners.any (·.id == listenerId) then
    .ok ({ b with listeners := b.listeners.filter (·.id != listenerId) }, .noContent)
  else refuse 404 "Not Found" s!"Listener '{listenerId}' not found"

/-! ### Target groups -/

/-- A value on which `.get` is called. -/
def dictOf : Json → Except Refusal Fields
  | .obj fields => .ok fields
  | _ => .error (.raised .attributeError)

/-- The health check of a target group: the fields that are set, the previous
ones, the defaults. -/
def targetHealthCheck (hc : Fields) (previous : Option TargetHealthCheck) :
    Except Refusal TargetHealthCheck := do
  let old (f : TargetHealthCheck → Json) : Json := (previous.map f).getD .null
  let path := orElse (fieldD hc "path" .null) (orElse (old (·.path)) (.str "/"))
  let interval ← intOf (orElse (fieldD hc "interval" .null)
    (orElse (old (.int ·.interval)) (.int 30)))
  let healthyThreshold ← intOf (orElse (fieldD hc "healthy_threshold" .null)
    (orElse (old (.int ·.healthyThreshold)) (.int 2)))
  let unhealthyThreshold ← intOf (orElse (fieldD hc "unhealthy_threshold" .null)
    (orElse (old (.int ·.unhealthyThreshold)) (.int 2)))
  .ok { path, interval, healthyThreshold, unhealthyThreshold }

/-- The target group that `create_target_group` appends. -/
def newTargetGroup (id lbId name : String) (body : Fields) : Except Refusal TargetGroup := do
  let port ← intOf (fieldD body "port" .null)
  let protocol ← textField body "protocol" "http"
  let hc ← dictOf (fieldD body "health_check" (.obj []))
  let healthCheck ← targetHealthCheck hc none
  .ok
    { id, lbId, name := .str name, port
      protocol := .str (pf.lower protocol)
      targets := fieldOr body "targets" (.arr [])
      healthCheck }

/-- `create_target_group` once its name and port are there. -/
def appendTargetGroup (id lbId name : String) (body : Fields) : Edit := fun b =>
  if b.targetGroups.any (·.name.eq (.str name)) then
    refuse 409 "Conflict" s!"Target group '{name}' already exists on this LB"
  else do
    let tg ← newTargetGroup pf id lbId name body
    .ok ({ b with targetGroups := b.targetGroups ++ [tg] }, .targetGroup 201 tg)

/-- The edit of `create_target_group`; `id` is the id it draws. -/
def editCreateTargetGroup (id lbId : String) (body : Option Json) : Edit := fun b => do
  let body ← raising (requestJson body)
  let name ← raising (strippedField body "name")
  if name = "" then refuse 400 "Bad Request" "name is required"
  else if !(fieldD body "port" .null).truthy then refuse 400 "Bad Request" "port is required"
  else appendTargetGroup pf id lbId name body b

/-- The health check that `update_target_group` assigns. -/
def assignHealthCheck (body : Fields) (old : TargetHealthCheck) :
    Except Refusal TargetHealthCheck :=
  match field? body "health_check" with
  | none => .ok old
  | some hc => do
    let hc ← dictOf hc
    targetHealthCheck hc (some old)

/-- The assignments of `update_target_group`. -/
def assignTargetGroup (body : Fields) (tg : TargetGroup) : Except Refusal TargetGroup := do
  let port ← intOf (fieldD body "port" (.int tg.port))
  let healthCheck ← assignHealthCheck body tg.healthCheck
  .ok
    { tg with
      name := fieldD body "name" tg.name
      port
      protocol := fieldD body "protocol" tg.protocol
      targets := fieldD body "targets" tg.targets
      healthCheck }

/-- `_find_tg`. -/
def findTargetGroup (b : LoadBalancer Json Json) (tgId : String) : Option TargetGroup :=
  b.targetGroups.find? (·.id == tgId)

def editTargetGroup (tgId : String) (body : Option Json) : Edit := fun b =>
  match findTargetGroup b tgId with
  | none => refuse 404 "Not Found" s!"Target group '{tgId}' not found"
  | some tg => do
    let body ← raising (requestJson body)
    let tg' ← assignTargetGroup body tg
    .ok ({ b with targetGroups := modifyFirst (·.id == tgId) (fun _ => tg') b.targetGroups },
      .targetGroup 200 tg')

/-- Whether one of the routing rules names the target group. -/
def ruleNames (tgId : String) : List Json → Except Raised Bool
  | [] => .ok false
  | .obj rule :: l =>
    if (fieldD rule "target_group_id" .null).eq (.str tgId) then .ok true else ruleNames tgId l
  | _ :: _ => .error .attributeError

/-- Whether the listener names the target group. -/
def listenerNames (tgId : String) (l : Listener) : Except Raised Bool :=
  if l.targetGroupId.eq (.str tgId) then .ok true
  else do
    let rules ← items (orElse l.routingRules (.arr []))
    ruleNames tgId rules

/-- How many listeners name the target group. -/
def countUses (tgId : String) : List Listener → Except Raised ℕ
  | [] => .ok 0
  | l :: ls => do
    let used ← listenerNames tgId l
    let n ← countUses tgId ls
    .ok (if used then n + 1 else n)

def editDeleteTargetGroup (tgId : String) : Edit := fun b =>
  match findTargetGroup b tgId with
  | none => refuse 404 "Not Found" s!"Target group '{tgId}' not found"
  | some _ => do
    let n ← raising (countUses tgId b.listeners)
    if n ≠ 0 then
      refuse 409 "Conflict"
        s!"Target group '{tgId}' is referenced by {n} listener(s) — remove references first"
    else .ok ({ b with targetGroups := b.targetGroups.filter (·.id != tgId) }, .noContent)

/-! ### The health check -/

/-- The health check that `set_health_check` assigns, its protocol read. -/
def newHealthCheck (body : Fields) (protocol : String) : Except Refusal HealthCheck := do
  let interval ← intOrRefuse (fieldD body "interval" (.int 30)) "interval must be an integer"
  let healthyThreshold ← intOf (fieldD body "healthy_threshold" (.int 2))
  let unhealthyThreshold ← intOf (fieldD body "unhealthy_threshold" (.int 3))
  .ok
    { protocol
      path := if protocol = "HTTP" then fieldD body "path" (.str "/") else .str ""
      interval, healthyThreshold, unhealthyThreshold }

def editSetHealthCheck (body : Option Json) : Edit := fun b => do
  let body ← raising (requestJson body)
  let protocol ← textField body "protocol" "HTTP"
  let protocol := pf.upper protocol
  if protocol ≠ "HTTP" ∧ protocol ≠ "TCP" then
    refuse 400 "Bad Request" "protocol must be HTTP or TCP"
  else do
    let hc ← newHealthCheck body protocol
    .ok ({ b with healthCheck := some hc }, .healthCheck hc)

def editDeleteHealthCheck : Edit := fun b => .ok ({ b with healthCheck := none }, .noContent)

/-! ### The handlers -/

def updateLb (lbId : String) (body : Option Json) : Handler := withLb lbId (editLb body)

def addBackend (lbId : String) (body : Option Json) : Handler := withLb lbId (editAddBackend body)

def removeBackend (lbId backendName : String) : Handler :=
  withLb lbId (editRemoveBackend backendName)

def addListener (id lbId : String) (body : Option Json) : Handler :=
  withLb lbId (editAddListener pf id lbId body)

def updateListener (lbId listenerId : String) (body : Option Json) : Handler :=
  withLb lbId (editListener listenerId body)

def removeListener (lbId listenerId : String) : Handler :=
  withLb lbId (editRemoveListener listenerId)

def createTargetGroup (id lbId : String) (body : Option Json) : Handler :=
  withLb lbId (editCreateTargetGroup pf id lbId body)

def updateTargetGroup (lbId tgId : String) (body : Option Json) : Handler :=
  withLb lbId (editTargetGroup tgId body)

def deleteTargetGroup (lbId tgId : String) : Handler := withLb lbId (editDeleteTargetGroup tgId)

def setHealthCheck (lbId : String) (body : Option Json) : Handler :=
  withLb lbId (editSetHealthCheck pf body)

def deleteHealthCheck (lbId : String) : Handler := withLb lbId editDeleteHealthCheck

end Api
end CloudCore
