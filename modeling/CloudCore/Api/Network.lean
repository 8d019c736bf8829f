import CloudCore.Api.Request
import CloudCore.Python.Ipaddress

/-!
# The network handlers

Creating, updating and deleting VPCs, subnets, internet gateways and route tables.

## Main definitions

* `createVpc`, `createSubnet`, `createIgw`, `createRouteTable`.
* `updateVpc`, `updateSubnet`, `updateIgw`, `updateRouteTable`.
* `deleteVpc`, `deleteSubnet`, `deleteIgw`, `deleteRouteTable`.
* `cidrContained` — the containment check of `createSubnet`.
-/

namespace CloudCore
namespace Api

open Python Effect

variable (pf : Platform) (peers : Peers)

/-! ### VPCs -/

def createVpc (body : Option Json) : Handler := do
  let body ← Program.lift (requestJson body)
  let name ← Program.lift (strippedField body "name")
  if name = "" then badRequest "name is required"
  else
    -- a name on a peer is the peer's to check
    match peerId body with
    | some peer => peers.create .vpc peer body
    | none => insertNamed pf .vpc "VPC" (.str name) fun id createdAt =>
      ({ id, name := .str name
         cidrBlock := fieldD body "cidr_block" (.str "10.0.0.0/16")
         dnsSupport := fieldD body "dns_support" (.bool true)
         createdAt
         tags := fieldD body "tags" (.obj []) } : Vpc Json Json)

/-- The assignments of `update_vpc`. -/
def editVpc (body : Fields) (vpc : Obj .vpc) : Obj .vpc :=
  let vpc : Vpc Json Json := vpc
  ({ vpc with
    name := fieldD body "name" vpc.name
    dnsSupport := fieldD body "dns_support" vpc.dnsSupport
    tags := fieldD body "tags" vpc.tags } : Vpc Json Json)

def updateVpc : String → Option Json → Handler := updateResource peers .vpc "VPC" editVpc

/-- `lb.vpc_id == vpc_id`. -/
def inVpc (vpcId : Json) (b : Obj .lb) : Bool := (LoadBalancer.vpcId b).eq vpcId

/-- The checks of `delete_vpc` after the first two, and the deletion. -/
def deleteVpcUnused (vpcId : String) : Handler := do
  let groups ← Store.call .securityGroupVpcs
  let n := groups.countP (· == vpcId)
  refuseIf n s!"VPC '{vpcId}' has {n} active security group(s) — delete them first" do
    let subnets ← Store.listByVpc .subnet (.str vpcId)
    let n := subnets.length
    refuseIf n s!"VPC '{vpcId}' has {n} active subnet(s) — delete them first" do
      deleteResource .vpc "VPC" vpcId

def deleteVpc (vpcId : String) : Handler := do
  let vpc ← Store.get .vpc (.str vpcId)
  match vpc with
  | none => notFound "VPC" vpcId
  | some vpc =>
    if isRemote vpc then peers.delete .vpc vpc
    else do
      let instances ← Store.listByVpc .inst (.str vpcId)
      let n := instances.length
      refuseIf n s!"VPC '{vpcId}' has {n} active instance(s) — delete them first" do
        let lbs ← Store.list .lb
        let n := lbs.countP (inVpc (.str vpcId))
        refuseIf n s!"VPC '{vpcId}' has {n} active load balancer(s) — delete them first" do
          deleteVpcUnused vpcId

/-! ### Subnets -/

def cidrContained (parent child : Json) : Except Raised Bool :=
  match ipNetwork parent, ipNetwork child with
  | some parent, some child => (child.subnetOf parent).mapError .exc
  | _, _ => .ok false

/-- `create_subnet` in a local VPC. -/
def createLocalSubnet (body : Fields) : Handler := do
  let vpcId := fieldD body "vpc_id" .null
  let cidrBlock := fieldD body "cidr_block" .null
  let name := fieldD body "name" .null
  let found ← Store.get .vpc vpcId
  match found with
  | none => notFound "VPC" (pf.str vpcId)
  | some vpc => do
    let parent := Vpc.cidrBlock vpc
    let contained ← Program.lift (cidrContained parent cidrBlock)
    if contained then
      insertNamed pf .subnet "Subnet" name fun id createdAt =>
        ({ id, name, vpcId, cidrBlock
           isPublic := (fieldD body "public" (.bool false)).truthy
           zone := fieldD body "zone" (.str "a")
           createdAt
           tags := fieldD body "tags" (.obj []) } : Subnet Json)
    else
      let cidr := pf.str cidrBlock
      let vpcCidr := pf.str parent
      badRequest s!"Subnet CIDR '{cidr}' is not contained within VPC CIDR '{vpcCidr}'"

def createSubnet (body : Option Json) : Handler := do
  let body ← Program.lift (requestJson body)
  match missingField body ["name", "vpc_id", "cidr_block"] with
  | some field => badRequest s!"'{field}' is required"
  | none =>
    match peerId body with
    | some peer => peers.create .subnet peer body
    | none => createLocalSubnet pf body

/-- The assignments of `update_subnet`. -/
def editSubnet (body : Fields) (subnet : Obj .subnet) : Obj .subnet :=
  let subnet : Subnet Json := subnet
  ({ subnet with
    name := fieldD body "name" subnet.name
    isPublic := (fieldD body "public" (.bool subnet.isPublic)).truthy
    zone := fieldD body "zone" subnet.zone
    tags := fieldD body "tags" subnet.tags } : Subnet Json)

def updateSubnet : String → Option Json → Handler :=
  updateResource peers .subnet "Subnet" editSubnet

def deleteSubnet (subnetId : String) : Handler := do
  let subnet ← Store.get .subnet (.str subnetId)
  match subnet with
  | none => notFound "Subnet" subnetId
  | some subnet =>
    if isRemote subnet then peers.delete .subnet subnet
    else do
      let instances ← Store.listByVpc .inst (Subnet.vpcId subnet)
      let n := instances.countP fun i => (Instance.subnetId i).eq (.str subnetId)
      refuseIf n s!"Subnet '{subnetId}' has {n} active instance(s) — delete them first" do
        deleteResource .subnet "Subnet" subnetId

/-! ### Internet gateways and route tables -/

/-- Create a resource of a VPC that has only to exist. -/
def createInVpc (k : Kind) (label : String)
    (build : (id createdAt : String) → (body : Fields) → Obj k) (body : Option Json) : Handler := do
  let body ← Program.lift (requestJson body)
  match missingField body ["name", "vpc_id"] with
  | some field => badRequest s!"'{field}' is required"
  | none => do
    let vpcId := fieldD body "vpc_id" .null
    let vpc ← Store.get .vpc vpcId
    if vpc.isNone then notFound "VPC" (pf.str vpcId)
    else
      insertNamed pf k label (fieldD body "name" .null) fun id createdAt => build id createdAt body

def createIgw : Option Json → Handler :=
  createInVpc pf .igw "Internet gateway" fun id createdAt body =>
    ({ id
       name := fieldD body "name" .null
       vpcId := fieldD body "vpc_id" .null
       createdAt
       tags := fieldD body "tags" (.obj []) } : InternetGateway Json)

/-- The assignments of `update_igw`. -/
def editIgw (body : Fields) (igw : Obj .igw) : Obj .igw :=
  let igw : InternetGateway Json := igw
  ({ igw with
    name := fieldD body "name" igw.name
    tags := fieldD body "tags" igw.tags } : InternetGateway Json)

def updateIgw : String → Option Json → Handler :=
  updateResource peers .igw "Internet gateway" editIgw

def deleteIgw : String → Handler := deleteResource .igw "Internet gateway"

def createRouteTable : Option Json → Handler :=
  createInVpc pf .routeTable "Route table" fun id createdAt body =>
    ({ id
       name := fieldD body "name" .null
       vpcId := fieldD body "vpc_id" .null
       subnetIds := fieldD body "subnet_ids" (.arr [])
       routes := fieldD body "routes" (.arr [])
       createdAt
       tags := fieldD body "tags" (.obj []) } : RouteTable Json)

/-- The assignments of `update_route_table`. -/
def editRouteTable (body : Fields) (rt : Obj .routeTable) : Obj .routeTable :=
  let rt : RouteTable Json := rt
  ({ rt with
    name := fieldD body "name" rt.name
    subnetIds := fieldD body "subnet_ids" rt.subnetIds
    routes := fieldD body "routes" rt.routes
    tags := fieldD body "tags" rt.tags } : RouteTable Json)

def updateRouteTable : String → Option Json → Handler :=
  updateResource peers .routeTable "Route table" editRouteTable

def deleteRouteTable : String → Handler := deleteResource .routeTable "Route table"

end Api
end CloudCore
