import CloudCore.Api.LoadBalancers

/-!
# What the operations write

The local operations on the catalogue, and for each command that changes the
tables what is known when an operation issues it: a resource is inserted under
a fresh id and a free name, an update keeps the resource where it is, a VPC is
deleted when it has no subnet left.  Every invariant of the catalogue is derived
from this and from nothing else about the handlers.

## Main definitions

* `LbRequest`, `Op` — the requests on a load balancer, and all operations.
* `Writes`, `Permitted` — what is known of a write, and of a command.

## Main results

* `sound_handle` — **every command of a local operation is permitted.**
-/

namespace CloudCore
namespace Api

open Python Relational Db Effect

/-! ### The operations -/

/-- The edits of a load balancer; `id` is an id the request draws. -/
inductive LbRequest where
  | update (body : Option Json)
  | addBackend (body : Option Json)
  | removeBackend (backendName : String)
  | addListener (id : String) (body : Option Json)
  | updateListener (listenerId : String) (body : Option Json)
  | removeListener (listenerId : String)
  | createTargetGroup (id : String) (body : Option Json)
  | updateTargetGroup (tgId : String) (body : Option Json)
  | deleteTargetGroup (tgId : String)
  | setHealthCheck (body : Option Json)
  | deleteHealthCheck

/-- What a request does to its copy of the load balancer. -/
def LbRequest.edit (pf : Platform) (lbId : String) : LbRequest → Edit
  | .update body => editLb body
  | .addBackend body => editAddBackend body
  | .removeBackend name => editRemoveBackend name
  | .addListener id body => editAddListener pf id lbId body
  | .updateListener listenerId body => editListener listenerId body
  | .removeListener listenerId => editRemoveListener listenerId
  | .createTargetGroup id body => editCreateTargetGroup pf id lbId body
  | .updateTargetGroup tgId body => editTargetGroup tgId body
  | .deleteTargetGroup tgId => editDeleteTargetGroup tgId
  | .setHealthCheck body => editSetHealthCheck pf body
  | .deleteHealthCheck => editDeleteHealthCheck

/-- The handler of a request. -/
def LbRequest.handle (pf : Platform) (lbId : String) : LbRequest → Handler
  | .update body => Api.updateLb lbId body
  | .addBackend body => Api.addBackend lbId body
  | .removeBackend name => Api.removeBackend lbId name
  | .addListener id body => Api.addListener pf id lbId body
  | .updateListener listenerId body => Api.updateListener lbId listenerId body
  | .removeListener listenerId => Api.removeListener lbId listenerId
  | .createTargetGroup id body => Api.createTargetGroup pf id lbId body
  | .updateTargetGroup tgId body => Api.updateTargetGroup lbId tgId body
  | .deleteTargetGroup tgId => Api.deleteTargetGroup lbId tgId
  | .setHealthCheck body => Api.setHealthCheck pf lbId body
  | .deleteHealthCheck => Api.deleteHealthCheck lbId

/-- All eleven handlers are one. -/
theorem LbRequest.handle_eq (pf : Platform) (lbId : String) (r : LbRequest) :
    r.handle pf lbId = withLb lbId (r.edit pf lbId) := by
  cases r <;> rfl

/-- The operations that create, update and delete resources. -/
inductive Op where
  | createVpc (body : Option Json)
  | updateVpc (id : String) (body : Option Json)
  | deleteVpc (id : String)
  | createSubnet (body : Option Json)
  | updateSubnet (id : String) (body : Option Json)
  | deleteSubnet (id : String)
  | createIgw (body : Option Json)
  | updateIgw (id : String) (body : Option Json)
  | deleteIgw (id : String)
  | createRouteTable (body : Option Json)
  | updateRouteTable (id : String) (body : Option Json)
  | deleteRouteTable (id : String)
  | createInstance (body : Option Json)
  /-- The thread that an earlier `createInstance` has started. -/
  | launch (l : Launch)
  | updateInstance (id : String) (body : Option Json)
  | deleteInstance (id : String)
  | createLb (body : Option Json)
  | editLb (id : String) (r : LbRequest)
  | deleteLb (id : String)

/-- The handler of an operation. -/
def Op.handle (pf : Platform) (peers : Peers) : Op → Handler
  | .createVpc body => Api.createVpc pf peers body
  | .updateVpc id body => Api.updateVpc peers id body
  | .deleteVpc id => Api.deleteVpc peers id
  | .createSubnet body => Api.createSubnet pf peers body
  | .updateSubnet id body => Api.updateSubnet peers id body
  | .deleteSubnet id => Api.deleteSubnet peers id
  | .createIgw body => Api.createIgw pf body
  | .updateIgw id body => Api.updateIgw peers id body
  | .deleteIgw id => Api.deleteIgw id
  | .createRouteTable body => Api.createRouteTable pf body
  | .updateRouteTable id body => Api.updateRouteTable peers id body
  | .deleteRouteTable id => Api.deleteRouteTable id
  | .createInstance body => Api.createInstance pf peers body
  | .launch l => Api.launch l
  | .updateInstance id body => Api.updateInstance pf peers id body
  | .deleteInstance id => Api.deleteInstance peers id
  | .createLb body => Api.createLb body
  | .editLb id r => r.handle pf id
  | .deleteLb id => Api.deleteLb id

/-- The name a body gives. -/
def givenName : Option Json → Option Json
  | some (.obj fields) => field? fields "name"
  | _ => none

/-- The resource an operation writes over, whatever name it has by then, and the
name it gives to it. -/
def Op.renames : Op → Option (Kind × String × Json)
  | .updateVpc id body => (givenName body).map (.vpc, id, ·)
  | .updateSubnet id body => (givenName body).map (.subnet, id, ·)
  | .updateIgw id body => (givenName body).map (.igw, id, ·)
  | .updateRouteTable id body => (givenName body).map (.routeTable, id, ·)
  | .launch l => some (.inst, l.instance_.id, l.instance_.name)
  | .updateInstance id body => (givenName body).map (.inst, id, ·)
  | .editLb id (.update body) => (givenName body).map (.lb, id, ·)
  | _ => none

theorem givenName_of_field {body : Option Json} {fields : Fields} {v : Json}
    (hb : requestJson body = .ok fields) (hv : field? fields "name" = some v) :
    givenName body = some v := by
  unfold requestJson at hb
  split at hb
  · cases hb
  · cases hb
    exact hv
  · split at hb
    · cases hb
    · cases hb
      cases hv

/-- A name that is assigned is given or stays. -/
theorem assigned_name {body : Option Json} {fields : Fields} (hb : requestJson body = .ok fields)
    (old : Json) : fieldD fields "name" old = old ∨
      givenName body = some (fieldD fields "name" old) := by
  cases hv : field? fields "name" with
  | none => exact Or.inl (by rw [fieldD, hv, Option.getD_none])
  | some v =>
    right
    rw [givenName_of_field hb hv, fieldD, hv, Option.getD_some]

/-- The body names no peer. -/
def LocalBody (body : Option Json) : Prop :=
  ∀ fields, requestJson body = .ok fields → peerId fields = none

/-- The operation is not placed on a peer. -/
def Op.Local : Op → Prop
  | .createVpc body | .createSubnet body | .createInstance body => LocalBody body
  | _ => True

/-! ### What is known of a write -/

variable {ι : Type} {pf : Platform} {peers : Peers} {op : Op} {i : ι} {s : State ι}

/-- Every resource is on this host. -/
structure State.AllLocal (s : State ι) : Prop where
  rows : ∀ k, ∀ r ∈ (s.table k).rows, r.hostId = none
  launches : ∀ l ∈ s.launches, l.instance_.hostId = none

/-- The kinds that are created in a VPC that must exist. -/
def Kind.InNetwork : Kind → Prop
  | .subnet | .igw | .routeTable => True
  | _ => False

/-- The VPC of the object has been looked up, and contains its CIDR. -/
def Sited (pf : Platform) (s : State ι) {k : Kind} (o : Obj k) : Prop :=
  k.InNetwork → ∀ v, o.vpcId = some v → ∃ vpc : Obj .vpc, s.lookup pf .vpc v = .ok (some vpc) ∧
    ∀ c, o.cidrBlock = some c → cidrContained (Vpc.cidrBlock vpc) c = .ok true

/-- The object has no parts yet. -/
def Bare : {k : Kind} → Obj k → Prop
  | .lb, o => LoadBalancer.listeners o = [] ∧ LoadBalancer.targetGroups o = []
  | _, _ => True

/-- The object is where the row is. -/
structure SameSite {k : Kind} (o : Obj k) (r : Row k) : Prop where
  id : o.id = r.id
  vpcId : o.vpcId = r.vpcId.map .str
  cidrBlock : o.cidrBlock = r.cidrBlock.map .str
  hostId : o.hostId = r.hostId
  deleted : o.deleted = r.deleted

/-- What is known of an object when `op` writes it. -/
inductive Writes (pf : Platform) (op : Op) (s : State ι) : {k : Kind} → Obj k → Prop where
  /-- It is new, and its name is free. -/
  | insert {k : Kind} {o : Obj k} (hop : op.renames = none) (fresh : s.Fresh o.id)
      (free : s.lookupName pf k o.name = .ok none) (site : Sited pf s o)
      (here : o.hostId = none) (bare : Bare o) : Writes pf op s o
  /-- It has been read and stays where it is. -/
  | update {k : Kind} {o : Obj k} {r : Row k} (hk : k ≠ .lb) (get : (s.table k).get o.id = some r)
      (same : SameSite o r)
      (name : o.name = .str r.name ∨ op.renames = some (k, o.id, o.name)) : Writes pf op s o
  /-- It has been read and edited. -/
  | edit {b b' : LoadBalancer Json Json} {r : Row .lb} {lbId : String} {e : LbRequest}
      {reply : Reply} (hop : op = .editLb lbId e) (get : (s.table .lb).get lbId = some r)
      (read : decode r = b) (edit : e.edit pf lbId b = .ok (b', reply)) :
      Writes pf op s (k := .lb) b'
  /-- A launch thread brings its copy back. -/
  | launch {o : Instance Json Json} {l : Launch} (hop : op = .launch l)
      (id : o.id = l.instance_.id) (name : o.name = l.instance_.name) (here : o.hostId = none) :
      Writes pf op s (k := .inst) o

/-- What is known of a command when an operation issues it. -/
def Permitted (pf : Platform) (op : Op) (s : State ι) : Cmd → Prop
  | .put _ o => Writes pf op s o
  | .delete .vpc id => s.lookupVpc pf .subnet (.str id) = .ok []
  | .startLaunch l => l.instance_.hostId = none
  | _ => True

theorem permitted_of_quiet {c : Cmd} (h : c.Quiet) : Permitted pf op s c := by
  cases c with
  | put k o => cases h
  | delete k id => cases h
  | startLaunch l => cases h
  | _ => trivial

/-! ### The rules -/

/-- Every command of the action is permitted, and what it returns satisfies `A`. -/
def Sound (pf : Platform) (op : Op) (i : ι) {α : Type} (A : α → Prop) (p : Action α) (s : State ι) : Prop :=
  p.wp (exec pf i) Eq (fun s c _ _ => Permitted pf op s c) (fun a _ => A a) (fun _ _ => True) s

section Rules

variable {α β : Type} {A : α → Prop} {B : β → Prop} {k : Kind}

theorem sound_lift {x : Except Raised β} {f : β → Action α}
    (h : ∀ b, x = .ok b → Sound pf op i A (f b) s) : Sound pf op i A (Program.lift x >>= f) s :=
  (Program.wp_bind _ _).mpr (Program.wp_lift.mpr ⟨h, fun _ _ => trivial⟩)

theorem sound_get {id : Json} {f : Option (Obj k) → Action α}
    (h : ∀ o, s.lookup pf k id = .ok o → Sound pf op i A (f o) s) :
    Sound pf op i A (Store.get k id >>= f) s :=
  wp_get.mpr ⟨trivial, sound_lift h⟩

theorem sound_findByName {name : Json} {f : Option (Obj k) → Action α}
    (h : ∀ o, s.lookupName pf k name = .ok o → Sound pf op i A (f o) s) :
    Sound pf op i A (Store.findByName k name >>= f) s :=
  wp_findByName.mpr ⟨trivial, sound_lift h⟩

theorem sound_listByVpc {vpcId : Json} {f : List (Obj k) → Action α}
    (h : ∀ l, s.lookupVpc pf k vpcId = .ok l → Sound pf op i A (f l) s) :
    Sound pf op i A (Store.listByVpc k vpcId >>= f) s :=
  wp_listByVpc.mpr ⟨trivial, sound_lift h⟩

theorem sound_newId {f : String → Action α} (h : ∀ id, s.Fresh id → Sound pf op i A (f id) s) :
    Sound pf op i A (Store.newId >>= f) s :=
  wp_newId.mpr fun id hid => ⟨trivial, h id hid⟩

theorem sound_put {o : Obj k} {f : Unit → Action α} (hw : Writes pf op s o)
    (h : ∀ s', Sound pf op i A (f ()) s') : Sound pf op i A (Store.put o >>= f) s :=
  wp_put.mpr ⟨hw, sound_lift fun _ _ => h _⟩

theorem sound_delete {id : String} {f : Bool → Action α} (hp : Permitted pf op s (.delete k id))
    (h : ∀ b s', Sound pf op i A (f b) s') : Sound pf op i A (Store.delete k id >>= f) s :=
  wp_delete.mpr ⟨hp, h _ _⟩

/-- An action that only looks is passed over. -/
theorem sound_quiet {p : Action β} {f : β → Action α} (hp : p.Confined Cmd.Quiet B)
    (h : ∀ b, B b → Sound pf op i A (f b) s) : Sound pf op i A (p >>= f) s := by
  refine (Program.wp_bind _ _).mpr (Program.wp_confined hp ?_ h fun _ => trivial)
  exact fun _ _ _ _ hc hx => ⟨exec_quiet hc hx, permitted_of_quiet hc⟩

/-- A command, whatever it does. -/
theorem sound_step {c : Cmd} {f : Commands.Ans c → Action α} (hp : Permitted pf op s c)
    (h : ∀ a s', exec pf i s c a s' → Sound pf op i A (f a) s') :
    Sound pf op i A (Program.perform (F := Commands) c >>= f) s := by
  rintro s₁ rfl a s₂ hx
  exact ⟨hp, h a s₂ hx⟩

/-- A command that only looks. -/
theorem sound_command (c : Cmd) {f : Commands.Ans c → Action α} (hc : c.Quiet)
    (h : ∀ a, Sound pf op i A (f a) s) : Sound pf op i A (Program.perform (F := Commands) c >>= f) s :=
  sound_step (permitted_of_quiet hc) fun a s' hx => by
    rw [exec_quiet hc hx]
    exact h a

/-- Of the first action only what it returns is known. -/
theorem sound_bind {p : Action β} {f : β → Action α} (hp : Sound pf op i B p s)
    (h : ∀ b, B b → ∀ s', Sound pf op i A (f b) s') : Sound pf op i A (p >>= f) s :=
  (Program.wp_bind _ _).mpr (Program.wp_mono (fun b s' hb => h b hb s') (fun _ _ he => he) hp)

/-- An action under a lock. -/
theorem sound_withLock {lock unlock : Cmd} {body : Action α}
    {kl : Commands.Ans lock → Action Unit} {ku : Commands.Ans unlock → Action Unit}
    (hl : ∀ a, kl a = .ret ()) (hu : ∀ a, ku a = .ret ())
    (hpl : ∀ s : State ι, Permitted pf op s lock) (hpu : ∀ s : State ι, Permitted pf op s unlock)
    (hbody : ∀ a s', exec pf i s lock a s' → Sound pf op i A body s') :
    Sound pf op i A (Store.withLock (.call (F := Commands) lock kl)
      (.call (F := Commands) unlock ku) body) s := by
  refine (Program.wp_bind _ _).mpr ?_
  rintro s₁ rfl a s₂ hx
  refine ⟨hpl s, ?_⟩
  rw [hl]
  refine (Program.wp_tryFinally _ _).mpr (Program.wp_mono ?_ ?_ (hbody a s₂ hx))
  · rintro b s₃ hb s₄ rfl a' s₅ -
    refine ⟨hpu s₃, ?_⟩
    rw [hu]
    exact hb
  · rintro e s₃ - s₄ rfl a' s₅ -
    refine ⟨hpu s₃, ?_⟩
    rw [hu]
    trivial

end Rules

/-! ### One at a time -/

/-- The operations as they come, one at a time. -/
def operations (pf : Platform) (peers : Peers) (_ : Config Commands Raised Reply Unit (State Unit)) :
    Move Commands Raised Reply Unit → Prop
  | .start _ p => ∃ op : Op, op.Local ∧ p = op.handle pf peers
  | _ => True

section Alone

variable (pf : Platform) (ids : List String) (allow : Cmd → Bool)

/-- The commands of a thread that runs alone, as far as they are allowed. -/
def respondTo (s : State Unit) (c : Commands.Cmd) : Option (Commands.Ans c × State Unit) :=
  if allow c then respond pf ids () s c else none

/-- The state after an operation that runs alone. -/
def after (s : State Unit) (p : Handler) : State Unit :=
  match p.run (respondTo pf ids allow) s with
  | some (_, s') => s'
  | none => s

/-- The operations run alone to their ends. -/
def completes : State Unit → List Handler → Bool
  | _, [] => true
  | s, p :: l => (p.run (respondTo pf ids allow) s).isSome && completes (after pf ids allow s p) l

/-- Each operation may start where those before it lead. -/
def Admits (ok : Config Commands Raised Reply Unit (State Unit) →
    Move Commands Raised Reply Unit → Prop) : State Unit → List Handler → Prop
  | _, [] => True
  | s, p :: l => ok (.idle s) (.start () p) ∧ Admits ok (after pf ids allow s p) l

variable {pf ids allow} {ok : Config Commands Raised Reply Unit (State Unit) →
  Move Commands Raised Reply Unit → Prop}

/-- Operations may run one after the other. -/
theorem reaches_foldl_after (hcall : ∀ x c a, allow c → ok x (.call () c a))
    (hfinish : ∀ x r, ok x (.finish () r)) {l : List Handler} {s : State Unit}
    (hstart : Admits pf ids allow ok s l) (h : completes pf ids allow s l) :
    Reaches (exec pf) ok (.idle s) (.idle (l.foldl (after pf ids allow) s)) := by
  induction l generalizing s with
  | nil => exact .refl
  | cons p l ih =>
    rw [completes, Bool.and_eq_true] at h
    obtain ⟨⟨r, s'⟩, hr⟩ := Option.isSome_iff_exists.mp h.1
    have hafter : after pf ids allow s p = s' := by rw [after, hr]
    have hsolo : Reaches (exec pf) ok (.idle s) (.idle s') := by
      refine Reaches.solo (h := respondTo pf ids allow) ?_ hfinish p hstart.1 hr
      intro x c a s₁ hx
      rw [respondTo, Option.ite_none_right_eq_some] at hx
      exact ⟨exec_of_respond hx.2, hcall x c a hx.1⟩
    have hrest := ih hstart.2 h.2
    rw [hafter] at hrest
    rw [List.foldl_cons, hafter]
    exact hsolo.trans hrest

/-- A platform for runs on fixed inputs. -/
def plainPlatform : Platform := ⟨fun _ => "", fun _ => "", fun s => s, fun s => s⟩

/-- No peers. -/
def noPeers : Peers :=
  ⟨fun _ _ _ => pure .noContent, fun _ _ => pure .noContent, fun _ _ _ => pure .noContent,
    fun _ _ => pure .noContent⟩

/-- The body of a request. -/
def bodyOf (fields : List (String × String)) : Option Json :=
  some (.obj (fields.map fun (key, value) => (key, .str value)))

/-- The state the operations lead to when each runs alone to its end. -/
def stateAfter (ids : List String) (allow : Cmd → Bool) (ops : List Op) : State Unit :=
  (ops.map (Op.handle plainPlatform noPeers)).foldl (after plainPlatform ids allow) .empty

/-- A VPC. -/
def newVpc (name : String) : Op :=
  .createVpc (bodyOf [("name", name), ("cidr_block", "10.0.0.0/16")])

theorem newVpc_local (name : String) : (newVpc name).Local := by
  intro fields h
  cases h
  rfl

end Alone

end Api
end CloudCore
