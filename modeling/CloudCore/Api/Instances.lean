import CloudCore.Api.Network

/-!
# The instance handlers

Creating an instance, with the thread that launches it, and reading, updating,
starting, stopping and deleting it, and its users.  Each handler reads the row,
works on its copy, and writes the whole copy back.

## Main definitions

* `createInstance`, `launch` — the request and its background thread.
* `getInstance`, `updateInstance`, `deleteInstance`, `stopInstance`,
  `startInstance`, `addInstanceUser`, `removeInstanceUser`.
-/

namespace CloudCore
namespace Api

open Python Effect

variable (pf : Platform) (peers : Peers)

/-- `usb._usb_lock`. -/
def withUsbLock {α : Type} : Action α → Action α :=
  Store.withLock (Program.perform (F := Commands) .lockUsb) (Program.perform (F := Commands) .unlockUsb)

/-- The items of a value a handler loops over. -/
def items (v : Json) : Except Raised (List Json) :=
  match v.iter with
  | none => .error (.exc .typeError)
  | some l => .ok l

/-! ### Creating -/

/-- The first of the security groups that does not exist. -/
def missingGroup : List Json → Action (Option Json)
  | [] => pure none
  | g :: l => do
    let found : Bool ← Store.call (.securityGroupExists g)
    if found then missingGroup l else pure (some g)

/-- `set(value)`. -/
def setOf (v : Json) : Except Raised (List Json) := do
  let l ← items v
  if l.all Json.hashable then .ok l else .error (.exc .typeError)

/-- `_attached_instance_map`: its assignments, one after the other. -/
def attachedInstanceMap : List (Obj .inst) → Except Raised (List (Json × String))
  | [] => .ok []
  | i :: l => do
    let ids ← setOf (Instance.usbDeviceIds i)
    let rest ← attachedInstanceMap l
    .ok (ids.map (·, Instance.id i) ++ rest)

/-- `attached.get(usb_id)`: the last assignment counts. -/
def attachedTo (attached : List (Json × String)) (usbId : String) : Option String :=
  (attached.reverse.find? fun p => p.1.eq (.str usbId)).map (·.2)

/-- What `validate_attachable` answers from the two lists it reads. -/
def judgeDevice (attached : List (Json × String)) (devices : List UsbDevice) (usbId : Json)
    (requesting : Option String) : Except Raised (Option String) :=
  if !usbId.hashable then .error (.exc .typeError)
  else
    let text := pf.str usbId
    -- of two devices with one id the dictionary keeps the last
    match devices.reverse.find? fun d => usbId.eq (.str d.id) with
    | none => .ok (some s!"USB device '{text}' not found on this host")
    | some d =>
      match d.blockReason with
      | some reason => .ok (some s!"USB device '{text}' cannot be attached: {reason}")
      | none =>
        match attachedTo attached d.id with
        | none => .ok none
        | some owner =>
          if owner = "" ∨ some owner = requesting then .ok none
          else .ok (some s!"USB device '{text}' is already attached to instance '{owner}'")

def validateAttachable (usbId : Json) (requesting : Option String) : Action (Option String) := do
  let instances ← Store.list .inst
  let attached ← Program.lift (attachedInstanceMap instances)
  let devices ← Store.call .usbDevices
  Program.lift (judgeDevice pf attached devices usbId requesting)

/-- What is wrong with the first of the devices that cannot be attached. -/
def unattachable (requesting : Option String) : List Json → Action (Option String)
  | [] => pure none
  | u :: l => do
    let err ← validateAttachable pf u requesting
    match err with
    | some e => pure (some e)
    | none => unattachable requesting l

/-- An entry of `users`; none if it is refused. -/
def readUser : Json → Except Raised (Option User)
  | .obj u => do
    let username ← strippedField u "username"
    if username = "" then .ok none
    else .ok (some
      { username
        isSudo := (fieldD u "sudo" (.bool false)).truthy
        sshKeys := fieldOr u "ssh_keys" (.arr [])
        passwordHash := fieldD u "password_hash" (.str "") })
  | _ => .ok none

/-- The entries of `users`; none if one is refused. -/
def readUsers : List Json → Except Raised (Option (List User))
  | [] => .ok (some [])
  | u :: l => do
    let user ← readUser u
    match user with
    | none => .ok none
    | some user => do
      let users ← readUsers l
      .ok (users.map (user :: ·))

/-- The `instance` of `create_instance`. -/
def newInstance (name : String) (body : Fields) (users : List User) (sshUser id createdAt : String) :
    Instance Json Json where
  id
  name := .str name
  imageId := fieldD body "image_id" .null
  flavor := fieldD body "flavor" .null
  vpcId := fieldD body "vpc_id" .null
  subnetId := fieldD body "subnet_id" .null
  securityGroupIds := fieldOr body "security_group_ids" (.arr [])
  usbDeviceIds := fieldOr body "usb_device_ids" (.arr [])
  userData := fieldD body "user_data" .null
  createdAt
  tags := fieldD body "tags" (.obj [])
  sshUser
  users

/-- What `create_instance` does under the USB lock: the instance it stored, or
the reason why it did not. -/
def insertInstance (name : String) (body : Fields) (users : List User) :
    Action (Except String (Instance Json Json)) := do
  let devices ← Program.lift (items (fieldOr body "usb_device_ids" (.arr [])))
  let err ← unattachable pf none devices
  match err with
  | some e => pure (.error e)
  | none => do
    let sshUser ← Store.call (.sshUserForImage (fieldD body "image_id" .null))
    let id ← Store.newId
    let createdAt ← Store.nowIso
    Store.put (k := .inst) (newInstance name body users sshUser id createdAt)
    pure (.ok (newInstance name body users sshUser id createdAt))

/-- Store the instance and start the thread that launches it. -/
def startInstanceLaunch (name : String) (body : Fields) (users : List User) : Handler := do
  let stored ← withUsbLock (insertInstance pf name body users)
  match stored with
  | .error e => conflict e
  | .ok i => do
    let vpc ← Store.get .vpc i.vpcId
    let vpcCidr := vpc.elim (.str "10.0.0.0/8") Vpc.cidrBlock
    Program.perform (F := Commands) (.startLaunch ⟨i, vpcCidr⟩)
    pure (.record 202 .inst i)

/-- `create_instance` on this host, its name being free. -/
def createLocalInstance (name : String) (body : Fields) : Handler := do
  let groups ← Program.lift (items (fieldOr body "security_group_ids" (.arr [])))
  let missing ← missingGroup groups
  match missing with
  | some g =>
    let g := pf.str g
    badRequest (s!"security group '{g}' not found — for a peer-placed instance, " ++
      "security_group_ids must reference a security group that exists on " ++
      "the target peer, not the originating host")
  | none => do
    let entries ← Program.lift (items (fieldOr body "users" (.arr [])))
    let users ← Program.lift (readUsers entries)
    match users with
    | none => badRequest "each entry in users requires a non-empty username"
    | some users => startInstanceLaunch pf name body users

/-- `create_instance`, its body read and its name stripped. -/
def createNamedInstance (name : String) (body : Fields) : Handler := do
  let found ← Store.findByName .inst (.str name)
  if found.isSome then conflict s!"Instance '{name}' already exists"
  else
    match peerId body with
    | some peer => peers.create .inst peer body
    | none => createLocalInstance pf name body

def createInstance (body : Option Json) : Handler := do
  let body ← Program.lift (requestJson body)
  let name ← Program.lift (strippedField body "name")
  if name = "" then badRequest "name is required"
  else
    match missingField body ["image_id", "flavor", "vpc_id", "subnet_id"] with
    | some field => badRequest s!"{field} is required"
    | none => createNamedInstance pf peers name body

/-! ### Reloading load balancers -/

/-- Reload one load balancer with the instances of a VPC; failures are logged. -/
def reloadLb (vpcId : Json) (b : LoadBalancer Json Json) : Action Unit := do
  let instances ← Program.perform (F := Commands) (.listByVpc .inst vpcId)
  match instances with
  | .error _ => pure ()
  | .ok l => Store.attempt (.reloadLb b l)

/-- Reload the load balancers of a VPC. -/
def reloadLbsIn (vpcId : Json) : Action Unit := do
  let lbs ← Store.list .lb
  Program.forEach (lbs.filter (inVpc vpcId)) (reloadLb vpcId)

/-! ### The launch thread -/

/-- The text of an exception. -/
def Raised.message : Raised → String
  | .external message => message
  | _ => ""

/-- What `compute.create_instance` leaves in the instance. -/
def place (i : Instance Json Json) (p : Placement) : Instance Json Json :=
  { i with
    domainName := p.domainName
    sshHostPort := p.sshHostPort
    httpHostPort := p.httpHostPort
    privateIp := p.privateIp
    status := p.status }

/-- The DNS record and the security groups of an instance that has come up. -/
def registerLaunched (i : Instance Json Json) : Action Unit := do
  let ip := if i.privateIp = "" then "127.0.0.1" else i.privateIp
  Store.call (.upsertDns "instances.cloudcore.internal" i.name ip "instance" i.id)
  Store.call .reloadDns
  if i.securityGroupIds.truthy then Store.call (.applySecurityGroups i) else pure ()

/-- The steps of `_launch` after the VM is up; what they raise is kept in
`error_message`. -/
def postLaunch (i : Instance Json Json) : Action (Instance Json Json) := do
  let failed (e : String) := s!"Post-launch step failed (instance is otherwise up): {e}"
  let ip ← Program.perform (F := Commands) (.external (.instanceIp i.domainName))
  match ip with
  | .error e => pure { i with errorMessage := failed e }
  | .ok ip =>
    let i := { i with privateIp := ip }
    Program.tryCatch (do registerLaunched i; pure i)
      fun e => pure { i with errorMessage := failed e.message }

/-- `_launch`: it answers nobody. -/
def launch (l : Launch) : Handler := do
  Program.perform (F := Commands) (.beginLaunch l)
  let (placement, created) ← Program.perform (F := Commands) (.createDomain l)
  let i := place l.instance_ placement
  match created with
  | .error e => do
    Store.put (k := .inst) { i with status := .error, errorMessage := e }
    pure .noContent
  | .ok _ => do
    let i ← postLaunch i
    Store.put (k := .inst) i
    let instances ← Store.listByVpc .inst i.vpcId
    let lbs ← Store.list .lb
    Program.forEach (lbs.filter (inVpc i.vpcId)) fun b => Store.attempt (.reloadLb b instances)
    pure .noContent

/-! ### Reading -/

/-- Ask for the address of a running instance that has none yet. -/
def refreshIp (i : Instance Json Json) : Action (Instance Json Json) := do
  let ip : String ← Store.call (.instanceIp i.domainName)
  if ip = "" then pure { i with privateIp := ip }
  else do
    Store.call (.upsertDns "instances.cloudcore.internal" i.name ip "instance" i.id)
    Store.call .reloadDns
    pure { i with privateIp := ip }

/-- The instance with the status and address libvirt reports. -/
def refresh (i : Instance Json Json) : Action (Instance Json Json) := do
  let live : InstanceStatus ← Store.call (.instanceStatus i.domainName)
  let i := if live ≠ .deleted then { i with status := live } else i
  if i.privateIp = "" ∧ live = .running then refreshIp i else pure i

/-- `get_instance` of an instance on this host. -/
def getLocalInstance (i : Instance Json Json) : Handler :=
  if i.domainName = "" then pure (.record 200 .inst i)
  else do
    let i ← refresh i
    Store.put (k := .inst) i
    pure (.record 200 .inst i)

def getInstance (instanceId : String) : Handler := do
  let found ← Store.get .inst (.str instanceId)
  match found with
  | none => notFound "Instance" instanceId
  | some i => if isRemote i then peers.read .inst i else getLocalInstance i

/-! ### Updating -/

/-- `a - b` of two sets. -/
def difference (a b : List Json) : List Json := a.filter fun v => !b.any v.eq

/-- Claim the devices and write the instance; the devices added and removed, or
the reason why it was refused. -/
def claimDevices (i : Instance Json Json) (newIds : Json) :
    Action (Except String (List Json × List Json)) := do
  let devices ← Program.lift (items newIds)
  let err ← unattachable pf (some i.id) devices
  match err with
  | some e => pure (.error e)
  | none => do
    let old ← Program.lift (setOf i.usbDeviceIds)
    let new ← Program.lift (setOf newIds)
    Store.put (k := .inst) { i with usbDeviceIds := newIds }
    pure (.ok (difference new old, difference old new))

/-- `update_instance` when the body names the devices. -/
def updateDevices (i : Instance Json Json) (newIds : Json) : Handler := do
  let claimed ← withUsbLock (claimDevices pf i newIds)
  match claimed with
  | .error e => conflict e
  | .ok (added, removed) =>
    let i := { i with usbDeviceIds := newIds }
    if (added.isEmpty && removed.isEmpty) || i.domainName == "" then pure (.record 200 .inst i)
    else do
      let synced ← Program.perform (F := Commands) (.external (.syncUsb i added removed))
      match synced with
      | .error e => pure (.problem 500 "Internal Server Error" e)
      | .ok _ => pure (.record 200 .inst i)

/-- `update_instance` of an instance on this host. -/
def updateLocalInstance (body : Fields) (i : Instance Json Json) : Handler :=
  let i := { i with name := fieldD body "name" i.name, tags := fieldD body "tags" i.tags }
  match field? body "usb_device_ids" with
  | some ids => updateDevices pf i (if ids.truthy then ids else .arr [])
  | none => do
    Store.put (k := .inst) i
    pure (.record 200 .inst i)

def updateInstance (instanceId : String) (body : Option Json) : Handler := do
  let found ← Store.get .inst (.str instanceId)
  match found with
  | none => notFound "Instance" instanceId
  | some i => do
    let body ← Program.lift (requestJson body)
    if isRemote i then peers.update .inst i body else updateLocalInstance pf body i

/-! ### Deleting -/

/-- `delete_instance` of an instance on this host. -/
def deleteLocalInstance (instanceId : String) (i : Instance Json Json) : Handler := do
  let _ ← Store.delete .inst instanceId
  Store.call (.deleteDns instanceId)
  Store.call .reloadDns
  Store.call (.removeSecurityGroups i)
  reloadLbsIn i.vpcId
  -- the thread that destroys the domain does not come back to the store
  pure .noContent

def deleteInstance (instanceId : String) : Handler := do
  let found ← Store.get .inst (.str instanceId)
  match found with
  | none => notFound "Instance" instanceId
  | some i => if isRemote i then peers.delete .inst i else deleteLocalInstance instanceId i

/-! ### Starting and stopping -/

/-- Switch an instance that is `old` to `new`. -/
def switchInstance (old new : InstanceStatus) (verb : String) (domain : String → External)
    (instanceId : String) : Handler := do
  let found ← Store.get .inst (.str instanceId)
  match found with
  | none => notFound "Instance" instanceId
  | some found =>
    let i : Instance Json Json := found
    let status := i.status.value
    let wanted := old.value
    if i.status ≠ old then conflict s!"Instance '{instanceId}' is {status}, not {wanted}"
    else if i.domainName = "" then
      conflict s!"Instance has no associated domain — cannot {verb}"
    else do
      let done ← Program.perform (F := Commands) (.external (domain i.domainName))
      match done with
      | .error e => pure (.problem 500 "Internal Server Error" e)
      | .ok _ => do
        Store.put (k := .inst) { i with status := new }
        reloadLbsIn i.vpcId
        pure (.record 200 .inst ({ i with status := new } : Instance _ _))

def stopInstance : String → Handler := switchInstance .running .stopped "stop" .stopDomain

def startInstance : String → Handler := switchInstance .stopped .running "start" .startDomain

/-! ### Users -/

/-- The entry `add_instance_user` makes. -/
def userEntry (username : String) (body : Fields) : User where
  username
  isSudo := (fieldD body "sudo" (.bool false)).truthy
  sshKeys := fieldD body "ssh_keys" (.arr [])
  passwordHash := fieldD body "password_hash" (.str "")

/-- `add_instance_user`, the instance and the body read. -/
def addUser (i : Instance Json Json) (body : Fields) : Handler := do
  let username ← Program.lift (strippedField body "username")
  if username = "" then badRequest "username is required"
  else if i.users.any (·.username == username) then
    conflict s!"User '{username}' already exists on this instance"
  else do
    Store.put (k := .inst) { i with users := i.users ++ [userEntry username body] }
    pure (.user (userEntry username body))

def addInstanceUser (instanceId : String) (body : Option Json) : Handler := do
  let found ← Store.get .inst (.str instanceId)
  match found with
  | none => notFound "Instance" instanceId
  | some i => do
    let body ← Program.lift (requestJson body)
    addUser i body

def removeInstanceUser (instanceId username : String) : Handler := do
  let found ← Store.get .inst (.str instanceId)
  match found with
  | none => notFound "Instance" instanceId
  | some found =>
    let i : Instance Json Json := found
    if i.users.any (·.username == username) then do
      Store.put (k := .inst) { i with users := i.users.filter (·.username != username) }
      pure .noContent
    else
      pure (.problem 404 "Not Found" s!"User '{username}' not found on this instance")

end Api
end CloudCore
