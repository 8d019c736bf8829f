import CloudCore.Api.Soundness

/-!
# Referential integrity of the network

Subnets, internet gateways and route tables name the VPC they are in.  When
operations come one at a time, each of them names a VPC that exists, and a
subnet's addresses are addresses of its VPC, as long as no VPC is deleted under
an internet gateway or a route table, for which `deleteVpc` does not look, and
no subnet is created with a CIDR that is a number, which the check reads and the
stored text no longer says.

## Main definitions

* `ReferentialIntegrity` — the property.
* `Careful` — what an operation must not do.

## Main results

* `referential_integrity` — **it holds in every state that careful operations reach.**
* `orphaned_gateway` — without care it fails.
-/

namespace CloudCore
namespace Api

open Python Relational Db Effect

variable {ι : Type} {pf : Platform} {peers : Peers} {op : Op} {i : ι} {s : State ι} {k : Kind}

/-! ### The property -/

/-- The CIDR `child` has no address outside `parent`. -/
def CidrWithin (parent child : String) : Prop :=
  ∃ p c, ipNetwork (.str parent) = some p ∧ ipNetwork (.str child) = some c ∧
    ∀ v x, c.Holds v x → p.Holds v x

/-- Every resource of a VPC names one that is not deleted, and a subnet's CIDR
is within that of its VPC. -/
structure ReferentialIntegrity (s : State ι) : Prop where
  subnets : ∀ r ∈ (s.table .subnet).live, ∃ v ∈ (s.table .vpc).live,
    Vpc.id v = Subnet.vpcId r ∧ CidrWithin (Vpc.cidrBlock v) (Subnet.cidrBlock r)
  igws : ∀ r ∈ (s.table .igw).live, ∃ v ∈ (s.table .vpc).live, Vpc.id v = InternetGateway.vpcId r
  routeTables : ∀ r ∈ (s.table .routeTable).live, ∃ v ∈ (s.table .vpc).live,
    Vpc.id v = RouteTable.vpcId r

/-- No VPC is deleted that an internet gateway or a route table is in, and no
subnet is written whose CIDR is not a text. -/
def Careful (s : State ι) : Cmd → Prop
  | .delete .vpc id =>
    ∀ k, k = .igw ∨ k = .routeTable → ∀ r ∈ (s.table k).live, r.vpcId ≠ some id
  | .put .subnet o => ∃ t, Subnet.cidrBlock o = .str t
  | _ => True

/-- The operations, with care. -/
def carefulOperations (pf : Platform) (peers : Peers)
    (x : Config Commands Raised Reply Unit (State Unit)) (m : Move Commands Raised Reply Unit) :
    Prop :=
  operations pf peers x m ∧ ∀ i c a, m = .call i c a → Careful x.shared c

/-! ### The invariant -/

/-- The VPC a row names is there and passes the check of `createSubnet`. -/
def Placed (s : State ι) (r : Row k) : Prop :=
  ∀ j, r.vpcId = some j → ∃ v ∈ (s.table .vpc).live, v.id = j ∧
    ∀ c, r.cidrBlock = some c → cidrContained (.str (Vpc.cidrBlock v)) (.str c) = .ok true

/-- The store is local and its network resources are placed. -/
structure Intact (s : State ι) : Prop where
  here : s.AllLocal
  placed : ∀ k : Kind, k.InNetwork → ∀ r ∈ (s.table k).live, Placed s r

theorem cidrWithin_of_contained {parent child : String}
    (h : cidrContained (.str parent) (.str child) = .ok true) : CidrWithin parent child := by
  unfold cidrContained at h
  split at h
  next p c hp hc => exact ⟨p, c, hp, hc, IpNetwork.subnetOf_spec (mapError_eq_ok.mp h)⟩
  next => cases h

theorem Intact.referentialIntegrity (hs : Intact s) : ReferentialIntegrity s where
  subnets r hr := by
    obtain ⟨v, hv, hid, hcidr⟩ := hs.placed .subnet trivial r hr _ rfl
    exact ⟨v, hv, hid, cidrWithin_of_contained (hcidr _ rfl)⟩
  igws r hr := by
    obtain ⟨v, hv, hid, -⟩ := hs.placed .igw trivial r hr _ rfl
    exact ⟨v, hv, hid⟩
  routeTables r hr := by
    obtain ⟨v, hv, hid, -⟩ := hs.placed .routeTable trivial r hr _ rfl
    exact ⟨v, hv, hid⟩

/-- The VPCs of `s` are still there in `s'`, with their CIDRs. -/
def KeepsVpcs (s s' : State ι) : Prop :=
  ∀ v ∈ (s.table .vpc).live, ∃ v' ∈ (s'.table .vpc).live,
    v'.id = v.id ∧ Vpc.cidrBlock v' = Vpc.cidrBlock v

theorem Placed.mono {s' : State ι} (h : KeepsVpcs s s') {r r' : Row k}
    (hv : r'.vpcId = r.vpcId) (hc : r'.cidrBlock = r.cidrBlock) (hr : Placed s r) :
    Placed s' r' := by
  intro j hj
  obtain ⟨v, hv', hid, hcidr⟩ := hr j (hv ▸ hj)
  obtain ⟨w, hw, hwid, hwc⟩ := h v hv'
  refine ⟨w, hw, hwid.trans hid, fun c h => ?_⟩
  rw [hwc]
  exact hcidr c (hc ▸ h)

/-! ### Writes -/

theorem bind_map_str (x : Option String) :
    (x.map Json.str).bind (textColumn pf.renderReal) = x := by
  cases x <;> rfl

/-- An object that is where a row is, is stored there. -/
theorem SameSite.row {o : Obj k} {old r : Row k} (h : SameSite o old)
    (hr : encode pf.renderReal o = some r) :
    r.vpcId = old.vpcId ∧ r.cidrBlock = old.cidrBlock ∧ r.deleted = old.deleted := by
  obtain ⟨-, hvpc, hcidr, -, hdel⟩ := columns_of_encode hr
  rw [h.vpcId, bind_map_str] at hvpc
  rw [h.cidrBlock, bind_map_str] at hcidr
  exact ⟨hvpc.symm, hcidr.symm, by rw [← hdel, h.deleted]⟩

/-- A VPC that is written over keeps its id and its CIDR. -/
theorem keepsVpcs_upsert {o : Obj k} {r : Row k} (hw : Writes pf op s o)
    (hr : encode pf.renderReal o = some r) : KeepsVpcs s (s.upsert r) := by
  intro v hv
  by_cases hk : Kind.vpc = k
  · subst hk
    rw [State.table_upsert]
    by_cases hid : v.id = r.id
    · -- only an update can write over it
      cases hw with
      | insert _ fresh _ _ _ _ =>
        rw [id_of_encode hr] at hid
        exact absurd hid (fresh .vpc v (Table.mem_live.mp hv).1)
      | @update _ _ old _ get same _ =>
        obtain ⟨hold, hkey⟩ := Table.get_eq_some.mp get
        have hvold : v = old := Table.eq_of_key (Table.mem_live.mp hv).1 (Table.mem_live.mp hold).1
          (hid.trans ((id_of_encode hr).trans hkey.symm))
        subst hvold
        obtain ⟨-, hcidr, hdel⟩ := same.row hr
        refine ⟨_, Table.mem_live_upsert.mpr (Or.inl ⟨rfl, ?_⟩), ?_, ?_⟩
        · exact hdel.trans (Table.mem_live.mp hv).2
        · exact (Row.id_stored _ r).trans hid.symm
        · have h := Row.cidrBlock_stored (s.table .vpc) r
          rw [hcidr] at h
          exact Option.some.inj h
    · exact ⟨v, Table.mem_live_upsert.mpr (Or.inr ⟨hv, hid⟩), rfl, rfl⟩
  · rw [State.table_upsert_of_ne s hk]
    exact ⟨v, hv, rfl, rfl⟩

/-- In the network, only a subnet has a CIDR. -/
theorem text_of_careful (hk : k.InNetwork) {o : Obj k} (hc : Careful s (.put k o)) {c : Json}
    (h : o.cidrBlock = some c) : ∃ t, c = .str t := by
  cases k with
  | subnet =>
    obtain ⟨t, ht⟩ := hc
    cases h
    exact ⟨t, ht⟩
  | igw => cases h
  | routeTable => cases h
  | _ => cases hk

theorem placed_of_sited (hk : k.InNetwork) {o : Obj k} {r : Row k}
    (hr : encode pf.renderReal o = some r) (hc : Careful s (.put k o)) (hsite : Sited pf s o) :
    Placed s r := by
  intro j hj
  obtain ⟨-, hvpc, hcidr, -, -⟩ := columns_of_encode hr
  rw [← hvpc, Option.bind_eq_some_iff] at hj
  obtain ⟨v, hv, hvt⟩ := hj
  obtain ⟨vpc, hfound, hcont⟩ := hsite hk v hv
  obtain ⟨t, row, ht, hget, rfl⟩ := State.lookup_eq_some.mp hfound
  obtain rfl : t = j := Option.some.inj (ht.symm.trans hvt)
  obtain ⟨hlive, hkey⟩ := Table.get_eq_some.mp hget
  refine ⟨row, hlive, hkey, fun c h => ?_⟩
  rw [← hcidr, Option.bind_eq_some_iff] at h
  obtain ⟨c', hc', hct⟩ := h
  obtain ⟨t', rfl⟩ := text_of_careful hk hc hc'
  rw [textColumn_str, Option.some.injEq] at hct
  subst hct
  exact hcont _ hc'

/-- What is written into the network is placed. -/
theorem placed_of_writes (hs : Intact s) (hk : k.InNetwork) {o : Obj k} {r : Row k}
    (hr : encode pf.renderReal o = some r) (hc : Careful s (.put k o)) (hw : Writes pf op s o) :
    Placed s r := by
  cases hw with
  | insert _ _ _ site _ _ => exact placed_of_sited hk hr hc site
  | @update _ _ old _ get same _ =>
    obtain ⟨hvpc, hcidr, -⟩ := same.row hr
    exact (hs.placed k hk old (Table.get_eq_some.mp get).1).mono
      (fun v hv => ⟨v, hv, rfl, rfl⟩) hvpc hcidr
  | edit _ _ _ _ => cases hk
  | launch _ _ _ _ => cases hk

theorem intact_upsert (hs : Intact s) {o : Obj k} {r : Row k}
    (hr : encode pf.renderReal o = some r) (hc : Careful s (.put k o)) (hw : Writes pf op s o)
    (here : (s.upsert r).AllLocal) : Intact (s.upsert r) := by
  have hkeep := keepsVpcs_upsert hw hr
  refine ⟨here, fun k' hk' x hx => ?_⟩
  by_cases hkk : k' = k
  · subst hkk
    rw [State.table_upsert] at hx
    rcases Table.mem_live_upsert.mp hx with ⟨rfl, -⟩ | ⟨hx, -⟩
    · exact (placed_of_writes hs hk' hr hc hw).mono hkeep
        (Row.vpcId_stored ..) (Row.cidrBlock_stored ..)
    · exact (hs.placed k' hk' x hx).mono hkeep rfl rfl
  · rw [State.table_upsert_of_ne s hkk] at hx
    exact (hs.placed k' hk' x hx).mono hkeep rfl rfl

/-! ### Deletions -/

/-- No resource of the network is in a VPC that is deleted with care. -/
theorem unused_of_careful {id : String} (hp : Permitted pf op s (.delete .vpc id))
    (hc : Careful s (.delete .vpc id)) (hk : k.InNetwork) {r : Row k}
    (hr : r ∈ (s.table k).live) : r.vpcId ≠ some id := by
  cases k with
  | subnet => exact State.vpcId_ne_of_lookupVpc hp hr rfl
  | igw => exact hc .igw (Or.inl rfl) r hr
  | routeTable => exact hc .routeTable (Or.inr rfl) r hr
  | _ => cases hk

theorem intact_delete {id : String} (hs : Intact s) (hp : Permitted pf op s (.delete k id))
    (hc : Careful s (.delete k id)) (here : (s.delete k id).AllLocal) :
    Intact (s.delete k id) := by
  refine ⟨here, fun k' hk' x hx => ?_⟩
  have hx' : x ∈ (s.table k').live := by
    by_cases hkk : k' = k
    · subst hkk
      rw [State.table_delete] at hx
      exact (Table.mem_live_delete.mp hx).1
    · rwa [State.table_delete_of_ne s hkk] at hx
  intro j hj
  obtain ⟨v, hv, hid, hcidr⟩ := hs.placed k' hk' x hx' j hj
  refine ⟨v, ?_, hid, hcidr⟩
  by_cases hkv : Kind.vpc = k
  · subst hkv
    rw [State.table_delete]
    refine Table.mem_live_delete.mpr ⟨hv, fun h => ?_⟩
    have hj' : j = id := hid.symm.trans h
    exact unused_of_careful hp hc hk' hx' (hj' ▸ hj)
  · rwa [State.table_delete_of_ne s hkv]

/-- **A careful command keeps the network intact.** -/
theorem intact_step {c : Cmd} {a : c.Ans} {s' : State ι} (hs : Intact s) (hp : Permitted pf op s c)
    (hc : Careful s c) (hx : exec pf i s c a s') : Intact s' := by
  have here : s'.AllLocal := hs.here.step hp hx
  rcases exec_tables hx with ht | ⟨k, o, r, rfl, hr, rfl⟩ | ⟨k, id, rfl, rfl⟩
  · refine ⟨here, fun k hk r hr => ?_⟩
    rw [ht] at hr
    exact (hs.placed k hk r hr).mono (fun v hv => ⟨v, by rwa [ht], rfl, rfl⟩) rfl rfl
  · exact intact_upsert hs hr hc hp here
  · exact intact_delete hs hp hc here

/-! ### Runs -/

theorem intact_empty : Intact (State.empty : State ι) := ⟨allLocal_empty, nofun⟩

/-- **Referential integrity holds in every state that careful operations reach.** -/
theorem referential_integrity {y : Config Commands Raised Reply Unit (State Unit)}
    (h : Reaches (exec pf) (carefulOperations pf peers) (.idle .empty) y) :
    ReferentialIntegrity y.shared := by
  refine Intact.referentialIntegrity
    (h.sequential (C := fun _ _ => True) (P := Permitted pf) (D := exec pf ())
      (fun _ _ _ _ _ hx _ => hx) ?_ ?_ intact_empty)
  · rintro x p ⟨⟨op, hop, rfl⟩, -⟩ hx
    exact ⟨op, trivial, sound_handle hop hx.here⟩
  · rintro op x c a s' ⟨-, hc⟩ hx hp - hs
    exact ⟨trivial, intact_step hs hp (hc () c a rfl) hx⟩

/-! ### A run of either kind -/

/-- A subnet of the first VPC. -/
def newSubnet : Op :=
  .createSubnet (bodyOf [("name", "web"), ("vpc_id", "1"), ("cidr_block", "10.0.1.0/24")])

/-- An internet gateway in it. -/
def newIgw : Op := .createIgw (bodyOf [("name", "gw"), ("vpc_id", "1")])

theorem newSubnet_local : newSubnet.Local := by
  intro fields h
  cases h
  rfl

/-- Only careful commands. -/
def carefully : Cmd → Bool
  | .delete .. => false
  | .put .subnet o =>
    match Subnet.cidrBlock o with
    | .str _ => true
    | _ => false
  | _ => true

theorem careful_of_carefully {c : Cmd} (h : carefully c) : Careful s c := by
  cases c with
  | put k o =>
    cases k with
    | subnet =>
      simp only [carefully] at h
      split at h
      next t ht => exact ⟨t, ht⟩
      next => cases h
    | _ => trivial
  | delete k id => cases h
  | _ => trivial

/-- Care is about commands. -/
theorem carefulOperations_start {x : Config Commands Raised Reply Unit (State Unit)} {op : Op}
    (h : op.Local) : carefulOperations pf peers x (.start () (op.handle pf peers)) :=
  ⟨⟨op, h, rfl⟩, fun _ _ _ hcall => by cases hcall⟩

/-- A VPC with a subnet and an internet gateway. -/
@[irreducible] def network : State Unit :=
  stateAfter ["1", "2", "3"] carefully [newVpc "net", newSubnet, newIgw]

theorem reaches_network :
    Reaches (exec plainPlatform) (carefulOperations plainPlatform noPeers) (.idle .empty)
      (.idle network) := by
  unfold network
  refine reaches_foldl_after ?_ (fun x r => ⟨trivial, fun _ _ _ h => by cases h⟩) ?_
    (by decide)
  · intro x c a hc
    refine ⟨trivial, fun i c' a' h => ?_⟩
    cases h
    exact careful_of_carefully hc
  · exact ⟨carefulOperations_start (newVpc_local "net"), carefulOperations_start newSubnet_local,
      carefulOperations_start trivial, trivial⟩

/-- It is reached with care, and is as it should be. -/
theorem referential_integrity_network :
    (network.table .igw).live.length = 1 ∧ ReferentialIntegrity network := by
  have h := referential_integrity reaches_network
  exact ⟨by with_unfolding_all decide, h⟩

/-- The state after a VPC is deleted under an internet gateway. -/
@[irreducible] def orphanState : State Unit :=
  stateAfter ["1", "2"] (fun _ => true) [newVpc "net", newIgw, .deleteVpc "1"]

/-- Deleting a VPC leaves the internet gateway in it without one. -/
theorem orphaned_gateway :
    ¬ ∀ y : Config Commands Raised Reply Unit (State Unit),
      Reaches (exec plainPlatform) (operations plainPlatform noPeers) (.idle .empty) y →
        ReferentialIntegrity y.shared := by
  intro hall
  have hrun : Reaches (exec plainPlatform) (operations plainPlatform noPeers) (.idle .empty)
      (.idle orphanState) := by
    unfold orphanState
    refine reaches_foldl_after (fun _ _ _ _ => trivial) (fun _ _ => trivial) ?_ (by decide)
    exact ⟨⟨newVpc "net", newVpc_local "net", rfl⟩, ⟨newIgw, trivial, rfl⟩,
      ⟨.deleteVpc "1", trivial, rfl⟩, trivial⟩
  have hint : ReferentialIntegrity orphanState := hall _ hrun
  -- the gateway is there, and no VPC is
  have higw : (orphanState.table .igw).live.length = 1 := by with_unfolding_all decide
  have hvpc : (orphanState.table .vpc).live.length = 0 := by with_unfolding_all decide
  obtain ⟨r, hr⟩ := List.exists_mem_of_length_pos (higw ▸ Nat.one_pos)
  obtain ⟨v, hv, -⟩ := hint.igws r hr
  have hnone := List.length_eq_zero_iff.mp hvpc
  exact List.not_mem_nil (hnone ▸ hv)

end Api
end CloudCore
