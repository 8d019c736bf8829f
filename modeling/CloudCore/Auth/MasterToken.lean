import CloudCore.Auth.Authz

/-!
# The master token on the network-facing ports

`_peer_bind_gate` compares the whole `Authorization` header with `Bearer ` and
the token; `authz` takes the prefix off and strips what is left.  So a header
with blanks around the token is refused by neither, on the routes that a
network-facing port serves.

## Main results

* `identify_eq_master` — which token has the master identity.
* `headerToken_eq_iff` — the headers that carry a token: blanks may surround it.
* `master_refused_iff` — **the master token is refused on a network-facing port
  exactly when the route is not served there or no blank surrounds it.**
-/

namespace CloudCore
namespace Auth

open Python

/-! ### Who is the master -/

theorem compareDigest_eq_true {a b : String} :
    compareDigest a b = .ok true ↔ isAscii a = true ∧ isAscii b = true ∧ a = b := by
  unfold compareDigest
  split
  · next h =>
    simp [h]
  · next h =>
    refine ⟨nofun, fun ⟨ha, hb, _⟩ => absurd ⟨ha, hb⟩ h⟩

theorem namedToken_ne_master {srv : Server} {token : String} :
    srv.namedToken token ≠ .ok (some .master) := by
  intro h
  unfold Server.namedToken at h
  split at h
  · cases h
  · next row _ =>
    obtain ⟨b, -, h⟩ := bind_eq_ok.mp h
    split at h
    · have hrow := row.id_hex
      simp only [Except.ok.injEq, Option.some.injEq, Identity.master, Identity.mk.injEq] at h
      rw [h.2.1] at hrow
      exact absurd hrow (by decide)
    · cases h

theorem envToken_scope {scope : Scope} {value token : String} {ident : Identity}
    (h : envToken scope value token = .ok (some ident)) : ident.scope = scope := by
  unfold envToken at h
  split at h
  · cases h
  · obtain ⟨b, -, h⟩ := bind_eq_ok.mp h
    split at h
    · cases h; rfl
    · cases h

theorem clientToken_scope {srv : Server} {token : String} {ident : Identity}
    (h : srv.clientToken token = some ident) : ident.scope = .student := by
  obtain ⟨row, -, rfl⟩ := Option.map_eq_some_iff.mp h
  rfl

/-- The master identity is that of the master token, and no other token's. -/
theorem identify_eq_master {srv : Server} {token : String} :
    srv.identify token = .ok (some .master) ↔
      masterToken srv.env = .ok token ∧ isAscii token = true := by
  constructor
  · intro h
    unfold Server.identify at h
    split at h
    · cases h
    obtain ⟨master, hm, h⟩ := bind_eq_ok.mp h
    obtain ⟨same, hsame, h⟩ := bind_eq_ok.mp h
    cases same with
    | true =>
      obtain ⟨ha, -, rfl⟩ := compareDigest_eq_true.mp hsame
      exact ⟨hm, ha⟩
    | false =>
      -- every other kind of token has another identity
      rw [if_neg Bool.false_ne_true] at h
      obtain ⟨named, hnamed, h⟩ := bind_eq_ok.mp h
      cases named with
      | some ident =>
        cases h
        exact absurd hnamed namedToken_ne_master
      | none =>
        dsimp only at h
        split at h
        · cases h
        obtain ⟨capture, hc, h⟩ := bind_eq_ok.mp h
        cases capture with
        | some ident =>
          cases h
          cases envToken_scope hc
        | none =>
          obtain ⟨labvm, hl, h⟩ := bind_eq_ok.mp h
          cases labvm with
          | some ident =>
            cases h
            cases envToken_scope hl
          | none =>
            simp only [Except.ok.injEq] at h
            cases clientToken_scope h
  · rintro ⟨hm, ha⟩
    have hne := (masterToken_spec hm).1
    have hsame := compareDigest_eq_true.mpr ⟨ha, ha, rfl⟩
    unfold Server.identify
    rw [if_neg hne]
    exact bind_eq_ok.mpr ⟨token, hm, bind_eq_ok.mpr ⟨true, hsame, rfl⟩⟩

/-! ### Which headers carry a token -/

/-- The header is `Bearer ` and the token, with blanks around the token. -/
def Bearing (token header : String) : Prop :=
  ∃ a b, Blank a ∧ Blank b ∧ header = "Bearer " ++ a ++ token ++ b

/-- A header carries a token, itself stripped, exactly with blanks around it. -/
theorem headerToken_eq_iff {token : String} (hne : token ≠ "") (hstrip : strip token = token)
    (authorization : Option String) :
    headerToken authorization = token ↔ Bearing token (authorization.getD "") := by
  unfold headerToken
  dsimp only
  split
  · next hs =>
    obtain ⟨rest, hrest⟩ := startswith_iff.mp hs
    rw [hrest, removeprefix_append, strip_eq_iff hstrip]
    constructor
    · rintro ⟨a, b, ha, hb, rfl⟩
      exact ⟨a, b, ha, hb, by simp only [String.append_assoc]⟩
    · rintro ⟨a, b, ha, hb, h⟩
      refine ⟨a, b, ha, hb, ?_⟩
      simp only [String.append_assoc] at h ⊢
      exact (String.append_right_inj _).mp h
  · next hs =>
    refine ⟨fun h => absurd h.symm hne, ?_⟩
    rintro ⟨a, b, -, -, h⟩
    refine absurd (startswith_iff.mpr ⟨a ++ token ++ b, ?_⟩) hs
    rw [h]
    simp only [String.append_assoc]

/-! ### What the ports serve -/

/-- The ports the request came in on serve its route. -/
def Server.Serves (srv : Server) (req : Request) : Prop :=
  (req.serverPort = toString srv.peerListenerPort → ∃ ep ∈ req.endpoint, ep ∈ peerEndpoints) ∧
    (req.serverPort = toString examplesPort → ∃ ep ∈ req.endpoint, ep ∈ examplesEndpoints)

/-- The request came in on a network-facing port. -/
def Server.NetworkFacing (srv : Server) (req : Request) : Prop :=
  req.serverPort = toString srv.peerListenerPort ∨ req.serverPort = toString examplesPort

theorem bindRefuses_iff {apiToken : String} {endpoints : Endpoints} {req : Request} :
    bindRefuses apiToken endpoints req = true ↔
      req.authorization.getD "" = "Bearer " ++ apiToken ∨
        ¬∃ ep ∈ req.endpoint, ep ∈ endpoints := by
  rw [bindRefuses, decide_eq_true_eq]

/-- `_peer_bind_gate` lets through what the port serves, unless the header is the
master token's exactly. -/
theorem peerBindGate_eq_none {srv : Server} {req : Request} (hport : srv.NetworkFacing req) :
    srv.peerBindGate req = none ↔
      srv.Serves req ∧ req.authorization.getD "" ≠ "Bearer " ++ srv.apiToken := by
  have hgate : srv.peerBindGate req = none ↔
      ¬(req.serverPort = toString srv.peerListenerPort ∧
        bindRefuses srv.apiToken peerEndpoints req = true) ∧
      ¬(req.serverPort = toString examplesPort ∧
        bindRefuses srv.apiToken examplesEndpoints req = true) := by
    unfold Server.peerBindGate
    split
    · next h => exact ⟨nofun, fun hn => absurd h hn.1⟩
    · next h =>
      split
      · next h' => exact ⟨nofun, fun hn => absurd h' hn.2⟩
      · next h' => exact ⟨fun _ => ⟨h, h'⟩, fun _ => rfl⟩
  rw [hgate, bindRefuses_iff, bindRefuses_iff]
  constructor
  · rintro ⟨h₁, h₂⟩
    refine ⟨⟨fun hp => ?_, fun hp => ?_⟩, fun hexact => ?_⟩
    · by_contra hep
      exact h₁ ⟨hp, .inr hep⟩
    · by_contra hep
      exact h₂ ⟨hp, .inr hep⟩
    · rcases hport with hp | hp
      · exact h₁ ⟨hp, .inl hexact⟩
      · exact h₂ ⟨hp, .inl hexact⟩
  · rintro ⟨⟨h₁, h₂⟩, hexact⟩
    refine ⟨fun ⟨hp, h⟩ => ?_, fun ⟨hp, h⟩ => ?_⟩
    · exact h.elim hexact fun hep => hep (h₁ hp)
    · exact h.elim hexact fun hep => hep (h₂ hp)

/-- What it refuses, it refuses with 403. -/
theorem peerBindGate_of_ne_none {srv : Server} {req : Request} (h : srv.peerBindGate req ≠ none) :
    srv.peerBindGate req = some (.abort 403) := by
  unfold Server.peerBindGate at h ⊢
  split
  · rfl
  · next h₁ =>
    rw [if_neg h₁] at h
    split
    · rfl
    · next h₂ => exact absurd (if_neg h₂) h

/-- A route that a network-facing port serves takes no `?token=`. -/
theorem requestToken_of_serves {srv : Server} {req : Request} (hport : srv.NetworkFacing req)
    (hserves : srv.Serves req) : requestToken req = headerToken req.authorization := by
  have hquery : ∀ ep ∈ queryTokenEndpoints, ep ∉ peerEndpoints ∧ ep ∉ examplesEndpoints := by
    decide
  unfold requestToken
  dsimp only
  split
  · next h =>
    obtain ⟨-, -, hrule⟩ := h
    obtain ⟨route, hroute⟩ : ∃ route, req.route = some route := by
      cases hr : req.route with
      | none => rw [hr] at hrule; cases hrule
      | some route => exact ⟨route, rfl⟩
    rw [hroute, Option.any_some, decide_eq_true_eq] at hrule
    obtain ⟨hpeer, hexamples⟩ := hquery _ (route.registered hrule)
    have hep : req.endpoint = some route.endpoint := by
      rw [Request.endpoint, hroute]
      rfl
    rcases hport with hp | hp
    · obtain ⟨ep, he, hmem⟩ := hserves.1 hp
      rw [hep] at he
      cases he
      exact absurd hmem hpeer
    · obtain ⟨ep, he, hmem⟩ := hserves.2 hp
      rw [hep] at he
      cases he
      exact absurd hmem hexamples
  · rfl

/-! ### The gate and the master token -/

/-- If `authz` takes the token of the request for the master token, the bind gate
refuses the request and its route does not run. -/
def Server.RefusesMaster (srv : Server) (req : Request) : Prop :=
  srv.identify (requestToken req) = .ok (some .master) →
    srv.peerBindGate req = some (.abort 403) ∧ srv.handle req ≠ .dispatched

theorem handle_of_refused {srv : Server} {req : Request}
    (h : srv.peerBindGate req = some (.abort 403)) : srv.handle req ≠ .dispatched := by
  unfold Server.handle
  rw [h]
  nofun

/-- **The master token is refused on a network-facing port exactly when** the port
does not serve the route, the header is `Bearer ` and the token the server started
with, or the header does not carry the present master token at all. -/
theorem master_refused_iff {srv : Server} {req : Request} (hport : srv.NetworkFacing req) :
    srv.RefusesMaster req ↔
      ¬srv.Serves req ∨ req.authorization.getD "" = "Bearer " ++ srv.apiToken ∨
        ∀ token, masterToken srv.env = .ok token → isAscii token = true →
          ¬Bearing token (req.authorization.getD "") := by
  constructor
  · intro h
    by_contra hn
    simp only [not_or, not_not, not_forall] at hn
    obtain ⟨hserves, hexact, token, hm, ha, hbear⟩ := hn
    obtain ⟨hne, hstrip⟩ := masterToken_spec hm
    have hheader := (headerToken_eq_iff hne hstrip req.authorization).mpr hbear
    have htoken : requestToken req = token := by
      rw [requestToken_of_serves hport hserves, hheader]
    have hident : srv.identify (requestToken req) = .ok (some .master) := by
      rw [htoken, identify_eq_master]
      exact ⟨hm, ha⟩
    have hnone := (peerBindGate_eq_none hport).mpr ⟨hserves, hexact⟩
    rw [(h hident).1] at hnone
    cases hnone
  · intro h hident
    have hgate : srv.peerBindGate req ≠ none := by
      rw [Ne, peerBindGate_eq_none hport]
      rintro ⟨hserves, hexact⟩
      rcases h with h | h | h
      · exact h hserves
      · exact hexact h
      · obtain ⟨hm, ha⟩ := identify_eq_master.mp hident
        obtain ⟨hne, hstrip⟩ := masterToken_spec hm
        refine h _ hm ha ((headerToken_eq_iff hne hstrip _).mp ?_)
        rw [requestToken_of_serves hport hserves]
    have hrefused := peerBindGate_of_ne_none hgate
    exact ⟨hrefused, handle_of_refused hrefused⟩

/-- A server whose master token is `s3cret`. -/
def exampleServer : Server where
  apiToken := "s3cret"
  env := ⟨fun name => if name = "CLOUDCORE_API_TOKEN" then some "s3cret" else none, none⟩
  apiTokens := []
  peers := []
  clientTokens := []
  peerListenerPort := 8082
  sha256 := id
  now := .ofMicros 0 (by decide)

/-- A request to plan an LFS build, on the examples port. -/
def createBuild (header : String) : Request where
  serverPort := "8083"
  method := .post
  route := some ⟨"/v1/lfs/builds", "lfs.create_build", by decide⟩
  authorization := some header
  queryToken := none

/-- A second blank before the token: the bind gate lets it through, `authz` takes it
for the master token, and the route runs. -/
theorem master_dispatched : ¬∀ (srv : Server) (req : Request), srv.NetworkFacing req →
    srv.RefusesMaster req := by
  intro hclaim
  have h := hclaim exampleServer (createBuild "Bearer  s3cret") (.inr rfl) (by decide)
  have hrun : exampleServer.handle (createBuild "Bearer  s3cret") = .dispatched := by decide
  exact h.2 hrun

/-- With one blank it is refused. -/
theorem master_refused_plain : exampleServer.RefusesMaster (createBuild "Bearer s3cret") :=
  (master_refused_iff (.inr rfl)).mpr (.inr (.inl (by decide)))

end Auth
end CloudCore
