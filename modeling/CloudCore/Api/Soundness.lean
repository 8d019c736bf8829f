import CloudCore.Api.Operations

/-!
# The operations are sound

Handler by handler: in a store whose resources are all local, every command an
operation issues is permitted.  The shared shapes come first, then the handlers
that have checks of their own.

## Main results

* `sound_handle` — **every command of a local operation is permitted.**
-/

namespace CloudCore
namespace Api

open Python Relational Db Effect

variable {ι : Type} {pf : Platform} {peers : Peers} {op : Op} {i : ι} {s : State ι} {k : Kind}

/-- The answer of a handler is of no concern. -/
abbrev Handles (pf : Platform) (op : Op) (i : ι) (p : Handler) (s : State ι) : Prop :=
  Sound pf op i (fun _ => True) p s

/-! ### The shared shapes -/

theorem lookup_str {id : String} {o : Obj k} (h : s.lookup pf k (.str id) = .ok (some o)) :
    ∃ r, (s.table k).get id = some r ∧ decode r = o := by
  obtain ⟨t, r, ht, hr, ho⟩ := State.lookup_eq_some.mp h
  rw [textColumn_str, Option.some.injEq] at ht
  exact ⟨r, ht ▸ hr, ho⟩

theorem isRemote_eq_false {r : Row k} (h : r.hostId = none) : isRemote (decode r) = false := by
  cases k with
  | vpc => obtain ⟨⟩ := r; cases h; rfl
  | subnet => obtain ⟨⟩ := r; cases h; rfl
  | inst => obtain ⟨⟩ := r; cases h; rfl
  | _ => rfl

/-- What is read from a local store is local. -/
theorem State.AllLocal.hostId_of_get (hs : s.AllLocal) {id : String} {r : Row k}
    (h : (s.table k).get id = some r) : r.hostId = none :=
  hs.rows k r (Table.mem_live.mp (Table.get_eq_some.mp h).1).1

theorem sound_notFound {label id : String} : Handles pf op i (notFound label id) s := trivial

theorem sound_refuseIf {n : ℕ} {detail : String} {next : Handler}
    (h : n = 0 → Handles pf op i next s) : Handles pf op i (refuseIf n detail next) s := by
  unfold refuseIf
  split
  next hn => exact h hn
  next => trivial

theorem sound_insertNamed {label : String} {name : Json} {build : String → String → Obj k}
    (hop : op.renames = none) (h : ∀ id createdAt, (build id createdAt).id = id ∧ (build id createdAt).name = name ∧
      (build id createdAt).hostId = none ∧ Bare (build id createdAt) ∧
      Sited pf s (build id createdAt)) :
    Handles pf op i (insertNamed pf k label name build) s := by
  refine sound_findByName fun found hf => ?_
  split
  · trivial
  next hn =>
    obtain rfl : found = none := by simpa using hn
    refine sound_newId fun id hid => sound_command .nowIso trivial fun now => ?_
    obtain ⟨hi, hname, hhost, hbare, hsite⟩ := h id now
    refine sound_put (.insert hop ?_ ?_ hsite hhost hbare) fun _ => trivial
    · rw [hi]
      exact hid
    · rw [hname]
      exact hf

theorem sound_updateResource {label id : String} {edit : Fields → Obj k → Obj k}
    {body : Option Json} (hs : s.AllLocal) (hk : k ≠ .lb)
    (hop : ∀ v, givenName body = some v → op.renames = some (k, id, v))
    (hedit : ∀ fields (r : Row k), SameSite (edit fields (decode r)) r ∧
      (edit fields (decode r)).name = fieldD fields "name" (.str r.name)) :
    Handles pf op i (updateResource peers k label edit id body) s := by
  refine sound_get fun found hf => ?_
  cases found with
  | none => exact sound_notFound
  | some o =>
    obtain ⟨r, hr, rfl⟩ := lookup_str hf
    refine sound_lift fun fields hf => ?_
    rw [isRemote_eq_false (hs.hostId_of_get hr)]
    obtain ⟨hsame, hname⟩ := hedit fields r
    have hkey : r.id = id := (Table.get_eq_some.mp hr).2
    have hid : (edit fields (decode r)).id = id := hsame.id.trans hkey
    refine sound_put (.update hk (hid ▸ hr) hsame ?_) fun _ => trivial
    rw [hname, hid]
    exact (assigned_name hf _).imp_right (hop _)

theorem sound_deleteResource {label id : String} (hp : Permitted pf op s (.delete k id)) :
    Handles pf op i (deleteResource k label id) s := by
  refine sound_delete hp fun b s' => ?_
  split <;> trivial

/-! ### Calls into other modules -/

theorem confined_command {α : Type} {A : α → Prop} (c : Cmd) {f : Commands.Ans c → Action α}
    (hc : c.Quiet) (h : ∀ a, (f a).Confined Cmd.Quiet A) :
    (Program.perform (F := Commands) c >>= f).Confined Cmd.Quiet A :=
  ⟨hc, h⟩

theorem confined_call (e : External) :
    (Store.call e).Confined Cmd.Quiet fun _ => True :=
  confined_command (.external e) trivial fun _ => Program.confined_lift fun _ _ => trivial

theorem confined_attempt (e : External) :
    (Store.attempt e).Confined Cmd.Quiet fun _ => True :=
  confined_command (.external e) trivial fun _ => trivial

theorem confined_reloadLb (v : Json) (b : LoadBalancer Json Json) :
    (reloadLb v b).Confined Cmd.Quiet fun _ => True := by
  refine confined_command (.listByVpc .inst v) trivial fun a => ?_
  split
  · trivial
  · exact confined_attempt _

theorem confined_reloadLbsIn (v : Json) : (reloadLbsIn v).Confined Cmd.Quiet fun _ => True :=
  confined_command (.list .lb) trivial fun _ =>
    Program.confined_forEach fun b _ => confined_reloadLb v b

theorem confined_missingGroup (l : List Json) :
    (missingGroup l).Confined Cmd.Quiet fun _ => True := by
  induction l with
  | nil => trivial
  | cons g l ih =>
    refine Program.confined_bind (confined_call _) fun found _ => ?_
    split
    · exact ih
    · trivial

theorem confined_validateAttachable (u : Json) (requesting : Option String) :
    (validateAttachable pf u requesting).Confined Cmd.Quiet fun _ => True := by
  refine confined_command (.list .inst) trivial fun instances => ?_
  refine Program.confined_bind (A := fun _ => True) (Program.confined_lift fun _ _ => trivial) ?_
  intro attached _
  refine Program.confined_bind (confined_call _) fun devices _ => ?_
  exact Program.confined_lift fun _ _ => trivial

theorem confined_unattachable (requesting : Option String) (l : List Json) :
    (unattachable pf requesting l).Confined Cmd.Quiet fun _ => True := by
  induction l with
  | nil => trivial
  | cons u l ih =>
    refine Program.confined_bind (confined_validateAttachable _ _) fun err _ => ?_
    split
    · trivial
    · exact ih

/-- The fields of an instance that no handler of an existing instance changes,
its name apart. -/
structure SameInstance (i j : Instance Json Json) : Prop where
  id : i.id = j.id
  vpcId : i.vpcId = j.vpcId
  hostId : i.hostId = j.hostId
  status : i.status = j.status

theorem confined_registerLaunched (j : Instance Json Json) :
    (registerLaunched j).Confined Cmd.Quiet fun _ => True := by
  refine Program.confined_bind (confined_call _) fun _ _ => ?_
  refine Program.confined_bind (confined_call _) fun _ _ => ?_
  split
  · exact confined_call _
  · trivial

theorem confined_postLaunch (j : Instance Json Json) :
    (postLaunch j).Confined Cmd.Quiet fun j' => SameInstance j' j ∧ j'.name = j.name := by
  refine confined_command (.external (.instanceIp j.domainName)) trivial fun ip => ?_
  split
  · exact ⟨⟨rfl, rfl, rfl, rfl⟩, rfl⟩
  · refine Program.confined_tryCatch ?_ fun _ => ⟨⟨rfl, rfl, rfl, rfl⟩, rfl⟩
    exact Program.confined_bind (confined_registerLaunched _) fun _ _ =>
      ⟨⟨rfl, rfl, rfl, rfl⟩, rfl⟩

/-! ### The network -/

theorem sound_createVpc {body : Option Json} (hb : LocalBody body) :
    Handles pf (.createVpc body) i (createVpc pf peers body) s := by
  refine sound_lift fun fields hf => sound_lift fun name _ => ?_
  split
  · trivial
  · rw [hb fields hf]
    exact sound_insertNamed rfl fun id now => ⟨rfl, rfl, rfl, trivial, nofun⟩

theorem sound_updateVpc {id : String} {body : Option Json} (hs : s.AllLocal) :
    Handles pf (.updateVpc id body) i (updateVpc peers id body) s :=
  sound_updateResource hs nofun (fun _ hv => congrArg (Option.map (Kind.vpc, id, ·)) hv)
    fun _ _ => ⟨⟨rfl, rfl, rfl, rfl, rfl⟩, rfl⟩

theorem sound_deleteVpc {id : String} (hs : s.AllLocal) :
    Handles pf op i (deleteVpc peers id) s := by
  refine sound_get fun found hf => ?_
  cases found with
  | none => exact sound_notFound
  | some o =>
    obtain ⟨r, hr, rfl⟩ := lookup_str hf
    dsimp only
    rw [isRemote_eq_false (hs.hostId_of_get hr)]
    refine sound_listByVpc fun instances _ => sound_refuseIf fun _ => ?_
    refine sound_command (.list .lb) trivial fun lbs => sound_refuseIf fun _ => ?_
    refine sound_quiet (confined_call _) fun groups _ => sound_refuseIf fun _ => ?_
    refine sound_listByVpc fun subnets hsub => sound_refuseIf fun hn => ?_
    rw [List.eq_nil_of_length_eq_zero hn] at hsub
    exact sound_deleteResource hsub

theorem sound_createLocalSubnet {fields : Fields} (hop : op.renames = none) :
    Handles pf op i (createLocalSubnet pf fields) s := by
  refine sound_get fun found hf => ?_
  cases found with
  | none => exact sound_notFound
  | some vpc =>
    refine sound_lift fun contained hc => ?_
    split
    next htrue =>
      subst htrue
      refine sound_insertNamed hop fun id now => ⟨rfl, rfl, rfl, trivial, fun _ v hv => ?_⟩
      cases hv
      exact ⟨vpc, hf, fun c h => by cases h; exact hc⟩
    next => trivial

theorem sound_createSubnet {body : Option Json} (hb : LocalBody body) :
    Handles pf (.createSubnet body) i (createSubnet pf peers body) s := by
  refine sound_lift fun fields hf => ?_
  split
  · trivial
  · rw [hb fields hf]
    exact sound_createLocalSubnet rfl

theorem sound_updateSubnet {id : String} {body : Option Json} (hs : s.AllLocal) :
    Handles pf (.updateSubnet id body) i (updateSubnet peers id body) s :=
  sound_updateResource hs nofun (fun _ hv => congrArg (Option.map (Kind.subnet, id, ·)) hv)
    fun _ _ => ⟨⟨rfl, rfl, rfl, rfl, rfl⟩, rfl⟩

theorem sound_deleteSubnet {id : String} (hs : s.AllLocal) :
    Handles pf op i (deleteSubnet peers id) s := by
  refine sound_get fun found hf => ?_
  cases found with
  | none => exact sound_notFound
  | some o =>
    obtain ⟨r, hr, rfl⟩ := lookup_str hf
    dsimp only
    rw [isRemote_eq_false (hs.hostId_of_get hr)]
    refine sound_listByVpc fun instances _ => sound_refuseIf fun _ => ?_
    exact sound_deleteResource trivial

theorem sound_createInVpc {label : String} {build : String → String → Fields → Obj k}
    {body : Option Json} (hop : op.renames = none)
    (h : ∀ id createdAt fields, (build id createdAt fields).id = id ∧
      (build id createdAt fields).name = fieldD fields "name" .null ∧
      (build id createdAt fields).hostId = none ∧ Bare (build id createdAt fields) ∧
      (build id createdAt fields).vpcId = some (fieldD fields "vpc_id" .null) ∧
      (build id createdAt fields).cidrBlock = none) :
    Handles pf op i (createInVpc pf k label build body) s := by
  refine sound_lift fun fields _ => ?_
  split
  · trivial
  · refine sound_get fun vpc hv => ?_
    cases vpc with
    | none => exact sound_notFound
    | some vpc =>
      refine sound_insertNamed hop fun id now => ?_
      obtain ⟨hid, hname, hhost, hbare, hvpc, hcidr⟩ := h id now fields
      refine ⟨hid, hname, hhost, hbare, fun _ v h => ?_⟩
      rw [hvpc, Option.some.injEq] at h
      rw [hcidr]
      exact ⟨vpc, h ▸ hv, nofun⟩

theorem sound_createIgw {body : Option Json} : Handles pf (.createIgw body) i (createIgw pf body) s :=
  sound_createInVpc rfl fun _ _ _ => ⟨rfl, rfl, rfl, trivial, rfl, rfl⟩

theorem sound_updateIgw {id : String} {body : Option Json} (hs : s.AllLocal) :
    Handles pf (.updateIgw id body) i (updateIgw peers id body) s :=
  sound_updateResource hs nofun (fun _ hv => congrArg (Option.map (Kind.igw, id, ·)) hv)
    fun _ _ => ⟨⟨rfl, rfl, rfl, rfl, rfl⟩, rfl⟩

theorem sound_createRouteTable {body : Option Json} :
    Handles pf (.createRouteTable body) i (createRouteTable pf body) s :=
  sound_createInVpc rfl fun _ _ _ => ⟨rfl, rfl, rfl, trivial, rfl, rfl⟩

theorem sound_updateRouteTable {id : String} {body : Option Json} (hs : s.AllLocal) :
    Handles pf (.updateRouteTable id body) i (updateRouteTable peers id body) s :=
  sound_updateResource hs nofun (fun _ hv => congrArg (Option.map (Kind.routeTable, id, ·)) hv)
    fun _ _ => ⟨⟨rfl, rfl, rfl, rfl, rfl⟩, rfl⟩

/-! ### Instances -/

theorem hostId_newInstance {name : String} {fields : Fields} {users : List User}
    {sshUser id createdAt : String} :
    (newInstance name fields users sshUser id createdAt).hostId = none := rfl

theorem sound_insertInstance {name : String} {fields : Fields} {users : List User}
    (hop : op.renames = none) (hfree : s.lookupName pf .inst (.str name) = .ok none) :
    Sound pf op i (fun r => ∀ j, r = .ok j → j.hostId = none) (insertInstance pf name fields users) s := by
  refine sound_lift fun devices _ => sound_quiet (confined_unattachable _ _) fun err _ => ?_
  split
  · exact nofun
  · refine sound_quiet (confined_call _) fun sshUser _ => sound_newId fun id hid => ?_
    refine sound_command .nowIso trivial fun now => ?_
    refine sound_put (.insert hop hid hfree nofun hostId_newInstance trivial) fun _ => ?_
    rintro j ⟨⟩
    exact hostId_newInstance

theorem sound_startInstanceLaunch {name : String} {fields : Fields} {users : List User}
    (hop : op.renames = none) (hfree : s.lookupName pf .inst (.str name) = .ok none) :
    Handles pf op i (startInstanceLaunch pf name fields users) s := by
  refine sound_bind (B := fun r => ∀ j, r = .ok j → Instance.hostId j = none) ?_ ?_
  · refine sound_withLock (fun _ => rfl) (fun _ => rfl) (fun _ => trivial) (fun _ => trivial) ?_
    rintro a s' ⟨-, rfl⟩
    exact sound_insertInstance hop hfree
  · rintro (e | j) hj s'
    · trivial
    · exact sound_get fun vpc _ => sound_step (hj j rfl) fun _ _ _ => trivial

theorem sound_createInstance {body : Option Json} (hb : LocalBody body) :
    Handles pf (.createInstance body) i (createInstance pf peers body) s := by
  refine sound_lift fun fields hf => sound_lift fun name _ => ?_
  split
  · trivial
  split
  · trivial
  refine sound_findByName fun found hfree => ?_
  split
  · trivial
  next hn =>
    obtain rfl : found = none := by simpa using hn
    rw [hb fields hf]
    refine sound_lift fun groups _ => sound_quiet (confined_missingGroup _) fun missing _ => ?_
    split
    · trivial
    · refine sound_lift fun entries _ => sound_lift fun users _ => ?_
      split
      · trivial
      · exact sound_startInstanceLaunch rfl hfree

theorem sound_launch {l : Launch} (hs : s.AllLocal) :
    Handles pf (.launch l) i (launch l) s := by
  refine sound_step trivial ?_
  rintro a s₂ ⟨before, after, hl, rfl⟩
  have hhost : l.instance_.hostId = none :=
    hs.launches l (hl ▸ List.mem_append_right _ List.mem_cons_self)
  refine sound_command (.createDomain l) trivial fun created => ?_
  obtain ⟨placement, created⟩ := created
  dsimp only
  split
  · exact sound_put (.launch rfl rfl rfl hhost) fun _ => trivial
  · refine sound_quiet (confined_postLaunch _) ?_
    rintro j ⟨hj, hname⟩
    refine sound_put (.launch rfl hj.id hname (hj.hostId.trans hhost)) fun _ => ?_
    refine sound_listByVpc fun instances _ => ?_
    refine sound_command (.list .lb) trivial fun lbs => ?_
    exact sound_quiet (Program.confined_forEach fun _ _ => confined_attempt _) fun _ _ => trivial

theorem sameSite_instance {r : Row .inst} {j : Instance Json Json}
    (h : SameInstance j (decode r)) : SameSite (k := .inst) j r where
  id := h.id
  vpcId := congrArg some h.vpcId
  cidrBlock := rfl
  hostId := h.hostId
  deleted := by
    change decide (j.status = .deleted) = _
    rw [h.status]
    exact deleted_decode r

/-- Writing back an instance that has been read. -/
theorem writes_instance (id : String) {r : Row .inst} (hr : (s.table .inst).get id = some r)
    {j : Instance Json Json} (h : SameInstance j (decode r))
    (hname : j.name = .str (Instance.name r) ∨ op.renames = some (.inst, j.id, j.name)) :
    Writes pf op s (k := .inst) j := by
  have hid : j.id = id := h.id.trans (Table.get_eq_some.mp hr).2
  exact .update nofun (show (s.table .inst).get j.id = some r by rw [hid]; exact hr)
    (sameSite_instance h) hname

theorem sound_updateDevices {id : String} {r : Row .inst} (hr : (s.table .inst).get id = some r)
    {j : Instance Json Json} (h : SameInstance j (decode r))
    (hname : j.name = .str (Instance.name r) ∨ op.renames = some (.inst, j.id, j.name))
    {newIds : Json} :
    Handles pf op i (updateDevices pf j newIds) s := by
  refine sound_bind (B := fun _ => True) ?_ ?_
  · refine sound_withLock (fun _ => rfl) (fun _ => rfl) (fun _ => trivial) (fun _ => trivial) ?_
    rintro a s' ⟨-, rfl⟩
    refine sound_lift fun devices _ => sound_quiet (confined_unattachable _ _) fun err _ => ?_
    split
    · trivial
    · refine sound_lift fun old _ => sound_lift fun new _ => ?_
      have hw : Writes pf op { s with usbLock := some i } (k := .inst)
          { j with usbDeviceIds := newIds } :=
        writes_instance (s := { s with usbLock := some i }) (j := { j with usbDeviceIds := newIds })
          id hr ⟨h.id, h.vpcId, h.hostId, h.status⟩ hname
      exact sound_put hw fun _ => trivial
  · rintro (e | ⟨added, removed⟩) - s'
    · trivial
    · dsimp only
      split
      · trivial
      · refine sound_command (.external (.syncUsb _ added removed)) trivial fun synced => ?_
        split <;> trivial

theorem sound_updateLocalInstance {id : String} {body : Option Json} {r : Row .inst}
    (hr : (s.table .inst).get id = some r) {fields : Fields}
    (hf : requestJson body = .ok fields) :
    Handles pf (.updateInstance id body) i (updateLocalInstance pf fields (decode r)) s := by
  unfold updateLocalInstance
  generalize hj : ({ (decode r : Instance Json Json) with
    name := fieldD fields "name" (Instance.name (decode r))
    tags := fieldD fields "tags" (Instance.tags (decode r)) } : Instance Json Json) = j
  have hsame : SameInstance j (decode r) := by
    rw [← hj]
    exact ⟨rfl, rfl, rfl, rfl⟩
  have hname : j.name = .str (Instance.name r) ∨
      (Op.updateInstance id body).renames = some (.inst, j.id, j.name) := by
    have hid : j.id = id := hsame.id.trans (Table.get_eq_some.mp hr).2
    have hn : j.name = fieldD fields "name" (.str (Instance.name r)) := by
      rw [← hj]
      rfl
    rw [hid, hn]
    rcases assigned_name hf (.str (Instance.name r)) with hkeep | hgiven
    · exact Or.inl hkeep
    · exact Or.inr (congrArg (Option.map (Kind.inst, id, ·)) hgiven)
  dsimp only
  split
  · exact sound_updateDevices hr hsame hname
  · exact sound_put (writes_instance id hr hsame hname) fun _ => trivial

theorem sound_updateInstance {id : String} {body : Option Json} (hs : s.AllLocal) :
    Handles pf (.updateInstance id body) i (updateInstance pf peers id body) s := by
  refine sound_get fun found hf => ?_
  cases found with
  | none => exact sound_notFound
  | some o =>
    obtain ⟨r, hr, rfl⟩ := lookup_str hf
    refine sound_lift fun fields hb => ?_
    rw [isRemote_eq_false (hs.hostId_of_get hr)]
    exact sound_updateLocalInstance hr hb

theorem sound_deleteInstance {id : String} (hs : s.AllLocal) :
    Handles pf op i (deleteInstance peers id) s := by
  refine sound_get fun found hf => ?_
  cases found with
  | none => exact sound_notFound
  | some o =>
    obtain ⟨r, hr, rfl⟩ := lookup_str hf
    dsimp only
    rw [isRemote_eq_false (hs.hostId_of_get hr)]
    refine sound_delete trivial fun _ s' => sound_quiet (confined_call _) fun _ _ => ?_
    refine sound_quiet (confined_call _) fun _ _ => sound_quiet (confined_call _) fun _ _ => ?_
    exact sound_quiet (confined_reloadLbsIn _) fun _ _ => trivial

/-! ### Load balancers -/

theorem confined_startLb (b : LoadBalancer Json Json) :
    (startLb b).Confined Cmd.Quiet fun b' => ∃ port, b' = { b with listenPort := port } := by
  refine confined_command (.listByVpc .inst b.vpcId) trivial fun instances => ?_
  cases instances with
  | error e => exact ⟨b.listenPort, rfl⟩
  | ok l =>
    refine confined_command (.external (.startLb b l)) trivial fun port => ?_
    cases port with
    | error e => exact ⟨b.listenPort, rfl⟩
    | ok port => exact ⟨port, rfl⟩

theorem confined_registerLb (b : LoadBalancer Json Json) :
    (registerLb b).Confined Cmd.Quiet fun _ => True := by
  refine Program.confined_tryCatch ?_ fun _ => trivial
  exact Program.confined_bind (confined_call _) fun _ _ => confined_call _

theorem sound_createLb {body : Option Json} : Handles pf (.createLb body) i (createLb body) s := by
  refine sound_lift fun fields _ => sound_lift fun name _ => ?_
  split
  · trivial
  refine sound_findByName fun found hfree => ?_
  split
  · trivial
  next hn =>
    obtain rfl : found = none := by simpa using hn
    refine sound_newId fun id hid => sound_command .nowIso trivial fun now => ?_
    refine sound_quiet (confined_startLb _) ?_
    rintro _ ⟨port, rfl⟩
    refine sound_put (.insert rfl hid hfree nofun rfl ⟨rfl, rfl⟩) fun _ => ?_
    exact sound_quiet (confined_registerLb _) fun _ _ => trivial

theorem sound_editLb {lbId : String} {e : LbRequest} :
    Handles pf (.editLb lbId e) i (e.handle pf lbId) s := by
  rw [e.handle_eq]
  refine sound_withLock (fun _ => rfl) (fun _ => rfl) (fun _ => trivial) (fun _ => trivial) ?_
  rintro a s' ⟨-, rfl⟩
  refine sound_get fun found hf => ?_
  cases found with
  | none => exact sound_notFound
  | some b =>
    obtain ⟨r, hr, hread⟩ := lookup_str hf
    dsimp only
    cases he : e.edit pf lbId b with
    | error refusal => cases refusal <;> trivial
    | ok res =>
      obtain ⟨b', reply⟩ := res
      refine sound_quiet (confined_reloadLb _ _) fun _ _ => ?_
      exact sound_put (.edit rfl hr hread he) fun _ => trivial

theorem sound_deleteLb {lbId : String} : Handles pf op i (deleteLb lbId) s := by
  refine sound_get fun found _ => ?_
  cases found with
  | none => exact sound_notFound
  | some b =>
    dsimp only
    split
    · trivial
    · refine sound_delete trivial fun _ s' => sound_quiet (confined_call _) fun _ _ => ?_
      refine sound_quiet (confined_call _) fun _ _ => ?_
      exact sound_quiet (confined_call _) fun _ _ => trivial

/-! ### All operations -/

/-- **Every command of a local operation is permitted.** -/
theorem sound_handle {op : Op} (hop : op.Local) (hs : s.AllLocal) :
    Handles pf op i (op.handle pf peers) s := by
  cases op with
  | createVpc body => exact sound_createVpc hop
  | updateVpc id body => exact sound_updateVpc hs
  | deleteVpc id => exact sound_deleteVpc hs
  | createSubnet body => exact sound_createSubnet hop
  | updateSubnet id body => exact sound_updateSubnet hs
  | deleteSubnet id => exact sound_deleteSubnet hs
  | createIgw body => exact sound_createIgw
  | updateIgw id body => exact sound_updateIgw hs
  | deleteIgw id => exact sound_deleteResource trivial
  | createRouteTable body => exact sound_createRouteTable
  | updateRouteTable id body => exact sound_updateRouteTable hs
  | deleteRouteTable id => exact sound_deleteResource trivial
  | createInstance body => exact sound_createInstance hop
  | launch l => exact sound_launch hs
  | updateInstance id body => exact sound_updateInstance hs
  | deleteInstance id => exact sound_deleteInstance hs
  | createLb body => exact sound_createLb
  | editLb id e => exact sound_editLb
  | deleteLb id => exact sound_deleteLb

/-! ### What every operation keeps -/

theorem hostId_of_writes (hs : s.AllLocal) {o : Obj k} (h : Writes pf op s o) : o.hostId = none := by
  cases h with
  | insert _ _ _ _ here _ => exact here
  | update _ get same _ => rw [same.hostId, hs.hostId_of_get get]
  | edit _ _ _ _ => rfl
  | launch _ _ _ here => exact here

/-- A store whose resources are all local stays so. -/
theorem State.AllLocal.step {c : Cmd} {a : c.Ans} {s' : State ι} (hs : s.AllLocal)
    (hp : Permitted pf op s c) (hx : exec pf i s c a s') : s'.AllLocal := by
  by_cases hq : c.Quiet
  · rw [exec_quiet hq hx]
    exact hs
  cases c with
  | put k o =>
    rcases exec_put hx with rfl | ⟨r, hr, rfl⟩
    · exact hs
    refine ⟨fun k' x hx' => ?_, hs.launches⟩
    by_cases hk : k' = k
    · subst hk
      rw [State.table_upsert] at hx'
      rcases Table.mem_upsert.mp hx' with rfl | ⟨hx', -⟩
      · rw [Row.hostId_stored, ← (columns_of_encode hr).2.2.2.1]
        exact hostId_of_writes hs hp
      · exact hs.rows k' x hx'
    · rw [State.table_upsert_of_ne s hk] at hx'
      exact hs.rows k' x hx'
  | delete k id =>
    obtain ⟨-, rfl⟩ := hx
    refine ⟨fun k' x hx' => ?_, hs.launches⟩
    by_cases hk : k' = k
    · subst hk
      rw [State.table_delete] at hx'
      obtain ⟨y, hy, rfl | rfl⟩ := Table.exists_of_mem_delete hx'
      · exact hs.rows k' x hy
      · rw [Row.hostId_mark]
        exact hs.rows k' y hy
    · rw [State.table_delete_of_ne s hk] at hx'
      exact hs.rows k' x hx'
  | startLaunch l =>
    obtain rfl := hx
    exact ⟨hs.rows, List.forall_mem_cons.mpr ⟨hp, hs.launches⟩⟩
  | beginLaunch l =>
    obtain ⟨before, after, hl, rfl⟩ := hx
    refine ⟨hs.rows, fun l' hl' => hs.launches l' ?_⟩
    rw [hl]
    exact (List.mem_append.mp hl').elim (List.mem_append_left _)
      fun h => List.mem_append_right _ (List.mem_cons_of_mem _ h)
  | lockUsb => obtain ⟨-, rfl⟩ := hx; exact ⟨hs.rows, hs.launches⟩
  | unlockUsb => obtain rfl := hx; exact ⟨hs.rows, hs.launches⟩
  | lockLb id => obtain ⟨-, rfl⟩ := hx; exact ⟨hs.rows, hs.launches⟩
  | unlockLb id => obtain rfl := hx; exact ⟨hs.rows, hs.launches⟩
  | _ => exact absurd trivial hq

theorem allLocal_empty : (State.empty : State ι).AllLocal :=
  ⟨fun _ => List.forall_mem_nil _, List.forall_mem_nil _⟩

end Api
end CloudCore
