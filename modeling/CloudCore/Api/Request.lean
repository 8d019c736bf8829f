import CloudCore.Api.Store

/-!
# Request bodies and the shapes handlers share

Reading a JSON body, the problem answers, and the three shapes most handlers of
the catalogue have: insert a resource under a name that is free, update a
resource in place, delete a resource by id.

## Main definitions

* `requestJson` — `request.get_json(force=True) or {}`.
* `insertNamed`, `updateResource`, `deleteResource` — the shared shapes.
* `Peers` — the handlers for resources that live on a peer.
-/

namespace CloudCore
namespace Api

open Python Effect

/-! ### Bodies -/

/-- The fields of a JSON object. -/
abbrev Fields := List (String × Json)

/-- `request.get_json(force=True) or {}`; the body is none if it is not JSON. -/
def requestJson : Option Json → Except Raised Fields
  | none => .error (.abort 400)
  | some (.obj fields) => .ok fields
  -- each handler goes on with `body.get`, which no other value has
  | some v => if v.truthy then .error .attributeError else .ok []

/-- `body.get(key)`. -/
def field? (body : Fields) (key : String) : Option Json := (Json.obj body).get? key

/-- `body.get(key, default)`. -/
def fieldD (body : Fields) (key : String) (default : Json) : Json := (field? body key).getD default

/-- `body.get(key) or default`. -/
def fieldOr (body : Fields) (key : String) (default : Json) : Json :=
  if (fieldD body key .null).truthy then fieldD body key .null else default

/-- `body.get(key, "").strip()`. -/
def strippedField (body : Fields) (key : String) : Except Raised String :=
  match fieldD body key (.str "") with
  | .str s => .ok (strip s)
  | _ => .error .attributeError

/-- The first of the required fields that is missing or empty. -/
def missingField (body : Fields) (required : List String) : Option String :=
  required.find? fun key => !(fieldD body key .null).truthy

/-- `body.get("peer_id")`, where it counts as given. -/
def peerId (body : Fields) : Option Json := (field? body "peer_id").filter Json.truthy

/-! ### Answers -/

def badRequest (detail : String) : Handler := pure (.problem 400 "Bad Request" detail)

def conflict (detail : String) : Handler := pure (.problem 409 "Conflict" detail)

/-- The problem of an id nothing has. -/
def notFound (label id : String) : Handler :=
  pure (.problem 404 "Not Found" s!"{label} '{id}' not found")

/-- Go on only if `n` resources in the way are none. -/
def refuseIf (n : ℕ) (detail : String) (next : Handler) : Handler :=
  if n = 0 then next else conflict detail

/-! ### Resources on peers -/

/-- The handlers for resources that live on a peer. -/
structure Peers where
  create : (k : Kind) → (peerId : Json) → Fields → Handler
  read : (k : Kind) → Obj k → Handler
  update : (k : Kind) → Obj k → Fields → Handler
  delete : (k : Kind) → Obj k → Handler

/-- `if o.host_id`: the resource lives on a peer. -/
def isRemote : {k : Kind} → Obj k → Bool
  | .vpc, o => !(Vpc.hostId o).getD "" == ""
  | .subnet, o => !(Subnet.hostId o).getD "" == ""
  | .inst, o => !(Instance.hostId o).getD "" == ""
  | .igw, _ | .routeTable, _ | .lb, _ => false

/-! ### The shared shapes -/

/-- Create a resource, unless its name is taken. -/
def insertNamed (pf : Platform) (k : Kind) (label : String) (name : Json)
    (build : (id createdAt : String) → Obj k) : Handler := do
  let found ← Store.findByName k name
  if found.isSome then conflict s!"{label} '{pf.str name}' already exists"
  else do
    let id ← Store.newId
    let createdAt ← Store.nowIso
    Store.put (build id createdAt)
    pure (.record 201 k (build id createdAt))

/-- Read a resource, edit it as the body says, write it back. -/
def updateResource (peers : Peers) (k : Kind) (label : String) (edit : Fields → Obj k → Obj k)
    (id : String) (body : Option Json) : Handler := do
  let found ← Store.get k (.str id)
  match found with
  | none => notFound label id
  | some o => do
    let body ← Program.lift (requestJson body)
    if isRemote o then peers.update k o body
    else do
      Store.put (edit body o)
      pure (.record 200 k (edit body o))

/-- Mark a resource deleted. -/
def deleteResource (k : Kind) (label id : String) : Handler := do
  let deleted ← Store.delete k id
  if deleted then pure .noContent else notFound label id

end Api
end CloudCore
