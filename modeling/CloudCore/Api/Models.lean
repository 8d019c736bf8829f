import CloudCore.Db.Column
import CloudCore.Relational.Table

/-!
# The resource models

The dataclasses of the catalogue and the rows that store them.  A handler
works on objects, whose text and flag fields hold whatever JSON value the request
gave; the store keeps rows, whose columns hold text and truth values.  The two
are one structure at two types of fields: `Obj k` and `Row k` for each kind `k`
of resource.

## Main definitions

* `Vpc`, `Subnet`, `InternetGateway`, `RouteTable`, `Instance`, `LoadBalancer`.
* `Kind`, `Obj`, `Row` — the six kinds, their objects and their rows.
* `encode` — what a write stores of an object.
* `decode` — the object a row is read as.
-/

namespace CloudCore
namespace Api

open Python Relational Db

/-- `VPCStatus`, `SubnetStatus`, `IGWStatus`, `RouteTableStatus` and `LBStatus`. -/
inductive Status where
  | active
  | deleted
  deriving DecidableEq

inductive InstanceStatus where
  | pending
  | running
  | stopped
  | deleted
  | error
  | unreachable
  deriving DecidableEq

/-- `status.value`. -/
def InstanceStatus.value : InstanceStatus → String
  | .pending => "pending"
  | .running => "running"
  | .stopped => "stopped"
  | .deleted => "deleted"
  | .error => "error"
  | .unreachable => "unreachable"

/-! ### The dataclasses

`τ` is the type of the text fields a request may set, `φ` that of the flags it
may set, `ν` that of a text field that may be absent. -/

structure Vpc (τ φ : Type) where
  id : String
  name : τ
  cidrBlock : τ
  dnsSupport : φ
  status : Status := .active
  createdAt : String
  tags : Json
  /-- The peer the VPC lives on; none if it is local. -/
  hostId : Option String := none

structure Subnet (τ : Type) where
  id : String
  name : τ
  vpcId : τ
  cidrBlock : τ
  isPublic : Bool
  zone : τ
  status : Status := .active
  createdAt : String
  tags : Json
  hostId : Option String := none

structure InternetGateway (τ : Type) where
  id : String
  name : τ
  vpcId : τ
  status : Status := .active
  createdAt : String
  tags : Json

structure RouteTable (τ : Type) where
  id : String
  name : τ
  vpcId : τ
  subnetIds : Json
  routes : Json
  status : Status := .active
  createdAt : String
  tags : Json

/-- An entry of `Instance.users`. -/
structure User where
  username : String
  isSudo : Bool
  sshKeys : Json
  passwordHash : Json

structure Instance (τ ν : Type) where
  id : String
  name : τ
  imageId : τ
  flavor : τ
  vpcId : τ
  subnetId : τ
  securityGroupIds : Json
  usbDeviceIds : Json
  userData : ν
  privateIp : String := ""
  publicIp : String := ""
  status : InstanceStatus := .pending
  errorMessage : String := ""
  createdAt : String
  tags : Json
  domainName : String := ""
  sshHostPort : ℕ := 0
  httpHostPort : ℕ := 0
  sshUser : String
  users : List User
  hostId : Option String := none

/-- An entry of `LoadBalancer.listeners`. -/
structure Listener where
  id : String
  lbId : String
  port : ℤ
  protocol : String
  targetGroupId : Json
  routingRules : Json
  defaultAction : Json
  status : String := "active"

/-- `health_check` of a target group. -/
structure TargetHealthCheck where
  path : Json
  interval : ℤ
  healthyThreshold : ℤ
  unhealthyThreshold : ℤ

/-- An entry of `LoadBalancer.target_groups`. -/
structure TargetGroup where
  id : String
  lbId : String
  name : Json
  port : ℤ
  protocol : Json
  targets : Json
  healthCheck : TargetHealthCheck
  status : String := "active"

/-- `LoadBalancer.health_check`, where it is not `{}`. -/
structure HealthCheck where
  protocol : String
  path : Json
  interval : ℤ
  healthyThreshold : ℤ
  unhealthyThreshold : ℤ

structure LoadBalancer (τ φ : Type) where
  id : String
  name : τ
  type : τ
  vpcId : τ
  subnetIds : Json
  internal : φ
  dnsName : String
  listenPort : ℕ := 0
  backends : Json
  listeners : List Listener := []
  healthCheck : Option HealthCheck := none
  targetGroups : List TargetGroup := []
  stickySessions : Bool
  cookieName : τ
  deletionProtection : Bool
  status : Status := .active
  createdAt : String
  tags : Json

/-! ### Kinds -/

/-- The kinds of resources, a table each. -/
inductive Kind where
  | vpc
  | subnet
  | igw
  | routeTable
  | inst
  | lb
  deriving DecidableEq

/-- The objects of a kind. -/
def Obj : Kind → Type
  | .vpc => Vpc Json Json
  | .subnet => Subnet Json
  | .igw => InternetGateway Json
  | .routeTable => RouteTable Json
  | .inst => Instance Json Json
  | .lb => LoadBalancer Json Json

/-- The rows of a kind. -/
def Row : Kind → Type
  | .vpc => Vpc String Bool
  | .subnet => Subnet String
  | .igw => InternetGateway String
  | .routeTable => RouteTable String
  | .inst => Instance String (Option String)
  | .lb => LoadBalancer String Bool

namespace Obj

def id : {k : Kind} → Obj k → String
  | .vpc, o => Vpc.id o
  | .subnet, o => Subnet.id o
  | .igw, o => InternetGateway.id o
  | .routeTable, o => RouteTable.id o
  | .inst, o => Instance.id o
  | .lb, o => LoadBalancer.id o

def name : {k : Kind} → Obj k → Json
  | .vpc, o => Vpc.name o
  | .subnet, o => Subnet.name o
  | .igw, o => InternetGateway.name o
  | .routeTable, o => RouteTable.name o
  | .inst, o => Instance.name o
  | .lb, o => LoadBalancer.name o

/-- The VPC the resource is in. -/
def vpcId : {k : Kind} → Obj k → Option Json
  | .vpc, _ => none
  | .subnet, o => some (Subnet.vpcId o)
  | .igw, o => some (InternetGateway.vpcId o)
  | .routeTable, o => some (RouteTable.vpcId o)
  | .inst, o => some (Instance.vpcId o)
  | .lb, o => some (LoadBalancer.vpcId o)

def cidrBlock : {k : Kind} → Obj k → Option Json
  | .vpc, o => some (Vpc.cidrBlock o)
  | .subnet, o => some (Subnet.cidrBlock o)
  | .igw, _ | .routeTable, _ | .inst, _ | .lb, _ => none

/-- The peer the resource lives on; none if it is local. -/
def hostId : {k : Kind} → Obj k → Option String
  | .vpc, o => Vpc.hostId o
  | .subnet, o => Subnet.hostId o
  | .inst, o => Instance.hostId o
  | .igw, _ | .routeTable, _ | .lb, _ => none

def deleted : {k : Kind} → Obj k → Bool
  | .vpc, o => Vpc.status o = .deleted
  | .subnet, o => Subnet.status o = .deleted
  | .igw, o => InternetGateway.status o = .deleted
  | .routeTable, o => RouteTable.status o = .deleted
  | .inst, o => Instance.status o = .deleted
  | .lb, o => LoadBalancer.status o = .deleted

end Obj

namespace Row

def id : {k : Kind} → Row k → String
  | .vpc, r => Vpc.id r
  | .subnet, r => Subnet.id r
  | .igw, r => InternetGateway.id r
  | .routeTable, r => RouteTable.id r
  | .inst, r => Instance.id r
  | .lb, r => LoadBalancer.id r

def name : {k : Kind} → Row k → String
  | .vpc, r => Vpc.name r
  | .subnet, r => Subnet.name r
  | .igw, r => InternetGateway.name r
  | .routeTable, r => RouteTable.name r
  | .inst, r => Instance.name r
  | .lb, r => LoadBalancer.name r

/-- The VPC the resource is in. -/
def vpcId : {k : Kind} → Row k → Option String
  | .vpc, _ => none
  | .subnet, r => some (Subnet.vpcId r)
  | .igw, r => some (InternetGateway.vpcId r)
  | .routeTable, r => some (RouteTable.vpcId r)
  | .inst, r => some (Instance.vpcId r)
  | .lb, r => some (LoadBalancer.vpcId r)

def cidrBlock : {k : Kind} → Row k → Option String
  | .vpc, r => some (Vpc.cidrBlock r)
  | .subnet, r => some (Subnet.cidrBlock r)
  | .igw, _ | .routeTable, _ | .inst, _ | .lb, _ => none

/-- The peer the resource lives on; none if it is local. -/
def hostId : {k : Kind} → Row k → Option String
  | .vpc, r => Vpc.hostId r
  | .subnet, r => Subnet.hostId r
  | .inst, r => Instance.hostId r
  | .igw, _ | .routeTable, _ | .lb, _ => none

def deleted : {k : Kind} → Row k → Bool
  | .vpc, r => Vpc.status r = .deleted
  | .subnet, r => Subnet.status r = .deleted
  | .igw, r => InternetGateway.status r = .deleted
  | .routeTable, r => RouteTable.status r = .deleted
  | .inst, r => Instance.status r = .deleted
  | .lb, r => LoadBalancer.status r = .deleted

/-- `SET status='deleted'`. -/
def mark : {k : Kind} → Row k → Row k
  | .vpc, r => { (r : Vpc _ _) with status := .deleted }
  | .subnet, r => { (r : Subnet _) with status := .deleted }
  | .igw, r => { (r : InternetGateway _) with status := .deleted }
  | .routeTable, r => { (r : RouteTable _) with status := .deleted }
  | .inst, r => { (r : Instance _ _) with status := .deleted }
  | .lb, r => { (r : LoadBalancer _ _) with status := .deleted }

/-- `DO UPDATE SET`: every column but `created_at`. -/
def overwrite : {k : Kind} → (old new : Row k) → Row k
  | .vpc, old, new => { (new : Vpc _ _) with createdAt := Vpc.createdAt old }
  | .subnet, old, new => { (new : Subnet _) with createdAt := Subnet.createdAt old }
  | .igw, old, new => { (new : InternetGateway _) with createdAt := InternetGateway.createdAt old }
  | .routeTable, old, new => { (new : RouteTable _) with createdAt := RouteTable.createdAt old }
  | .inst, old, new => { (new : Instance _ _) with createdAt := Instance.createdAt old }
  | .lb, old, new => { (new : LoadBalancer _ _) with createdAt := LoadBalancer.createdAt old }

instance (k : Kind) : Record (Row k) where
  key := id
  deleted := deleted
  mark := mark
  overwrite := overwrite
  key_mark _ := by cases k <;> rfl
  deleted_mark _ := by cases k <;> rfl
  key_overwrite _ _ := by cases k <;> rfl
  deleted_overwrite _ _ := by cases k <;> rfl

variable {k : Kind}

@[simp] theorem key_eq (r : Row k) : Record.key r = r.id := rfl

@[simp] theorem hostId_mark (r : Row k) : (Record.mark r).hostId = r.hostId := by
  cases k <;> rfl

@[simp] theorem name_overwrite (old new : Row k) : (Record.overwrite old new).name = new.name := by
  cases k <;> rfl

@[simp] theorem vpcId_overwrite (old new : Row k) :
    (Record.overwrite old new).vpcId = new.vpcId := by
  cases k <;> rfl

@[simp] theorem cidrBlock_overwrite (old new : Row k) :
    (Record.overwrite old new).cidrBlock = new.cidrBlock := by
  cases k <;> rfl

@[simp] theorem hostId_overwrite (old new : Row k) :
    (Record.overwrite old new).hostId = new.hostId := by
  cases k <;> rfl

/-! The columns of what a table stores for a row. -/

theorem id_stored (t : Table (Row k)) (r : Row k) : (t.stored r).id = r.id := Table.key_stored t r

theorem name_stored (t : Table (Row k)) (r : Row k) : (t.stored r).name = r.name :=
  Table.stored_congr name_overwrite t r

theorem vpcId_stored (t : Table (Row k)) (r : Row k) : (t.stored r).vpcId = r.vpcId :=
  Table.stored_congr vpcId_overwrite t r

theorem cidrBlock_stored (t : Table (Row k)) (r : Row k) : (t.stored r).cidrBlock = r.cidrBlock :=
  Table.stored_congr cidrBlock_overwrite t r

theorem hostId_stored (t : Table (Row k)) (r : Row k) : (t.stored r).hostId = r.hostId :=
  Table.stored_congr hostId_overwrite t r

end Row

/-! ### Storing and reading -/

section

variable (renderReal : Double → String)

/-- What a write stores of an object; `none` if the statement raises. -/
def encode : {k : Kind} → Obj k → Option (Row k)
  | .vpc, (v : Vpc Json Json) => do
    let name ← textColumn renderReal v.name
    let cidrBlock ← textColumn renderReal v.cidrBlock
    let dnsSupport ← flagColumn v.dnsSupport
    some (⟨v.id, name, cidrBlock, dnsSupport, v.status, v.createdAt, v.tags, v.hostId⟩ : Vpc _ _)
  | .subnet, (s : Subnet Json) => do
    let name ← textColumn renderReal s.name
    let vpcId ← textColumn renderReal s.vpcId
    let cidrBlock ← textColumn renderReal s.cidrBlock
    let zone ← textColumn renderReal s.zone
    some (⟨s.id, name, vpcId, cidrBlock, s.isPublic, zone, s.status, s.createdAt, s.tags,
      s.hostId⟩ : Subnet _)
  | .igw, (g : InternetGateway Json) => do
    let name ← textColumn renderReal g.name
    let vpcId ← textColumn renderReal g.vpcId
    some (⟨g.id, name, vpcId, g.status, g.createdAt, g.tags⟩ : InternetGateway _)
  | .routeTable, (t : RouteTable Json) => do
    let name ← textColumn renderReal t.name
    let vpcId ← textColumn renderReal t.vpcId
    some (⟨t.id, name, vpcId, t.subnetIds, t.routes, t.status, t.createdAt, t.tags⟩ : RouteTable _)
  | .inst, (i : Instance Json Json) => do
    let name ← textColumn renderReal i.name
    let imageId ← textColumn renderReal i.imageId
    let flavor ← textColumn renderReal i.flavor
    let vpcId ← textColumn renderReal i.vpcId
    let subnetId ← textColumn renderReal i.subnetId
    let userData ← textParameter renderReal i.userData
    some (⟨i.id, name, imageId, flavor, vpcId, subnetId, i.securityGroupIds, i.usbDeviceIds,
      userData, i.privateIp, i.publicIp, i.status, i.errorMessage, i.createdAt, i.tags,
      i.domainName, i.sshHostPort, i.httpHostPort, i.sshUser, i.users, i.hostId⟩ : Instance _ _)
  | .lb, (b : LoadBalancer Json Json) => do
    let name ← textColumn renderReal b.name
    let type ← textColumn renderReal b.type
    let vpcId ← textColumn renderReal b.vpcId
    let internal ← flagColumn b.internal
    let cookieName ← textColumn renderReal b.cookieName
    some (⟨b.id, name, type, vpcId, b.subnetIds, internal, b.dnsName, b.listenPort, b.backends,
      b.listeners, b.healthCheck, b.targetGroups, b.stickySessions, cookieName,
      b.deletionProtection, b.status, b.createdAt, b.tags⟩ : LoadBalancer _ _)

end

/-- `_vpc_from_row`, `_subnet_from_row` and their like. -/
def decode : {k : Kind} → Row k → Obj k
  | .vpc, (v : Vpc String Bool) =>
    (⟨v.id, .str v.name, .str v.cidrBlock, .bool v.dnsSupport, v.status, v.createdAt, v.tags,
      v.hostId⟩ : Vpc _ _)
  | .subnet, (s : Subnet String) =>
    (⟨s.id, .str s.name, .str s.vpcId, .str s.cidrBlock, s.isPublic, .str s.zone, s.status,
      s.createdAt, s.tags, s.hostId⟩ : Subnet _)
  | .igw, (g : InternetGateway String) =>
    (⟨g.id, .str g.name, .str g.vpcId, g.status, g.createdAt, g.tags⟩ : InternetGateway _)
  | .routeTable, (t : RouteTable String) =>
    (⟨t.id, .str t.name, .str t.vpcId, t.subnetIds, t.routes, t.status, t.createdAt, t.tags⟩ :
      RouteTable _)
  | .inst, (i : Instance String (Option String)) =>
    (⟨i.id, .str i.name, .str i.imageId, .str i.flavor, .str i.vpcId, .str i.subnetId,
      i.securityGroupIds, i.usbDeviceIds, i.userData.elim .null .str, i.privateIp, i.publicIp,
      i.status, i.errorMessage, i.createdAt, i.tags, i.domainName, i.sshHostPort, i.httpHostPort,
      i.sshUser, i.users, i.hostId⟩ : Instance _ _)
  | .lb, (b : LoadBalancer String Bool) =>
    (⟨b.id, .str b.name, .str b.type, .str b.vpcId, b.subnetIds, .bool b.internal, b.dnsName,
      b.listenPort, b.backends, b.listeners, b.healthCheck, b.targetGroups, b.stickySessions,
      .str b.cookieName, b.deletionProtection, b.status, b.createdAt, b.tags⟩ : LoadBalancer _ _)

variable {renderReal : Double → String} {k : Kind}

@[simp] theorem id_decode (r : Row k) : (decode r).id = r.id := by
  cases k <;> rfl

theorem id_of_encode {o : Obj k} {r : Row k} (h : encode renderReal o = some r) : r.id = o.id := by
  cases k <;> simp only [encode, Option.bind_eq_bind, Option.bind_eq_some_iff] at h <;>
    obtain ⟨_, _, h⟩ := h <;> grind [Row.id, Obj.id]

@[simp] theorem deleted_decode (r : Row k) : (decode r).deleted = r.deleted := by
  cases k <;> rfl

/-- The name, the VPC and the CIDR are stored as text. -/
theorem columns_of_encode {o : Obj k} {r : Row k} (h : encode renderReal o = some r) :
    textColumn renderReal o.name = some r.name ∧
    o.vpcId.bind (textColumn renderReal) = r.vpcId ∧
    o.cidrBlock.bind (textColumn renderReal) = r.cidrBlock ∧
    o.hostId = r.hostId ∧ o.deleted = r.deleted := by
  cases k <;> simp only [encode, Option.bind_eq_bind, Option.bind_eq_some_iff] at h <;>
    obtain ⟨_, _, h⟩ := h <;>
    grind [Row.name, Obj.name, Row.vpcId, Obj.vpcId, Row.cidrBlock, Obj.cidrBlock, Row.hostId,
      Obj.hostId, Row.deleted, Obj.deleted]

theorem createdAt_of_encode {b : LoadBalancer Json Json} {r : Row .lb}
    (h : encode renderReal (k := .lb) b = some r) : LoadBalancer.createdAt r = b.createdAt := by
  simp only [encode, Option.bind_eq_bind, Option.bind_eq_some_iff] at h
  obtain ⟨_, -, _, -, _, -, _, -, _, -, h⟩ := h
  cases h
  rfl

/-- Overwriting keeps the time of creation, so it may keep nothing. -/
theorem overwrite_of_createdAt {old new : Row .lb}
    (h : LoadBalancer.createdAt new = LoadBalancer.createdAt old) :
    Record.overwrite old new = new := by
  show ({ (new : LoadBalancer _ _) with createdAt := LoadBalancer.createdAt old } :
    LoadBalancer String Bool) = new
  rw [← h]
  rfl

end Api
end CloudCore
