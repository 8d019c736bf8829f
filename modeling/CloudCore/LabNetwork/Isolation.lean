import CloudCore.Netfilter.Chains
import CloudCore.Netfilter.Conntrack
import CloudCore.Python.Ipaddress
import Mathlib.Data.List.Infix

/-!
# The fence around the lab network

`setup-lab-network.sh` puts lab VMs on a bridge of their own, and loads a table with a chain for what
goes to the host and one for what it forwards.  The chains rely on connection tracking, which sees all
packets of the host, also while the table is not there: `apply` deletes it and loads it again.  The pairs
of lab VMs that `table bridge cclab` lets through are left out, and so are the kernel's own checks of
sources (martians, `rp_filter`).  No chain is for what the host itself sends: all of it passes.

## Main definitions

* `Config`, `Packet` — a host, and a packet as its chains see it.
* `Config.input`, `Config.forward` — the chains of `ruleset`.
* `Event`, `State.step` — packets come, the table is deleted and loaded, connections are forgotten.
* `Config.Honest` — nobody uses the address of somebody else.
* `Config.Fenced` — what a packet that passed must be.

## Main results

* `Config.forward_accepts_iff`, `Config.input_accepts_iff` — what the chains let through.
* `Inv.step` — behind every connection stands a packet that passed as a new one.
* `fenced_of_run` — **where sources are honest, what passes the fence was asked for.**
* `spoofed` — two packets with a foreign source reach any address.
-/

namespace CloudCore
namespace LabNetwork

open Netfilter Python

/-! ### Packets -/

inductive Proto where
  | tcp
  | udp
  | icmp
  | other (number : ℕ)
  deriving DecidableEq

/-- What the tuples of a packet and of its answer have in common. -/
structure Kind where
  family : IpVersion
  proto : Proto
  deriving DecidableEq

/-- Where a packet comes from: `iifname cclab0`, another interface, or the host itself. -/
inductive Origin where
  | lab
  | outside
  | host
  deriving DecidableEq

/-- A packet.  An ICMP error quotes a packet of its own family. -/
structure Packet where
  origin : Origin
  seen : Seen Kind ℕ
  family_quotes : ∀ q ∈ seen.quotes, q.kind.family = seen.tuple.kind.family

theorem quotes_nothing (t : Tuple Kind ℕ) :
    ∀ q ∈ (none : Option (Tuple Kind ℕ)), q.kind.family = t.kind.family :=
  fun _ h => absurd h (Option.not_mem_none _)

/-- A packet over IPv4 that quotes nothing. -/
def ipv4 (origin : Origin) (proto : Proto) (src sport dst dport : ℕ) : Packet :=
  ⟨origin, ⟨⟨⟨.v4, proto⟩, src, sport, dst, dport⟩, none⟩, quotes_nothing _⟩

namespace Packet

def family (p : Packet) : IpVersion := p.seen.tuple.kind.family

def proto (p : Packet) : Proto := p.seen.tuple.kind.proto

def src (p : Packet) : ℕ := p.seen.tuple.src

def dst (p : Packet) : ℕ := p.seen.tuple.dst

def dport (p : Packet) : ℕ := p.seen.tuple.dport

def isV4 (p : Packet) : Bool := p.family == .v4

def fromLab (p : Packet) : Bool := p.origin == .lab

end Packet

/-! ### The host -/

/-- `a.b.c.d` -/
def octets (a b c d : ℕ) : ℕ := ((a * 256 + b) * 256 + c) * 256 + d

theorem min_le_bits (n : ℕ) : min n 32 ≤ IpVersion.v4.bits := Nat.min_le_right ..

/-- `a.b.c.d/len` -/
def cidr (a b c d len : ℕ) : IpNetwork :=
  IpNetwork.mask .v4 (octets a b c d) none (min len 32) (min_le_bits len)

/-- What the rules depend on. -/
structure Config where
  /-- `LAB_OCTET` -/
  octet : ℕ
  octet_lt : octet < 256
  /-- `CONTROLLERS` -/
  controllers : List IpNetwork
  /-- The addresses whose packets go to the host itself: its own, and those for everybody. -/
  isLocal : IpVersion → ℕ → Bool
  /-- The IPv6 addresses behind the bridge. -/
  lab6 : ℕ → Bool

namespace Config

variable (cfg : Config)

/-- `gw` of `apply` -/
def gw : ℕ := octets 10 250 cfg.octet 1

/-- `subnet` of `apply` -/
def subnet : IpNetwork := cidr 10 250 cfg.octet 0 24

/-- The addresses that are reached through the bridge. -/
def onLab : IpVersion → ℕ → Bool
  | .v4, x => decide (cfg.subnet.address ≤ x ∧ x ≤ cfg.subnet.broadcast)
  | .v6, x => cfg.lab6 x

end Config

/-- The address is in one of the networks. -/
def inSet (nets : List IpNetwork) (x : ℕ) : Bool :=
  nets.any fun n => n.version == .v4 && decide (n.address ≤ x ∧ x ≤ n.broadcast)

/-- The set `blocked`. -/
def blocked : List IpNetwork :=
  [cidr 0 0 0 0 8, cidr 10 0 0 0 8, cidr 100 64 0 0 10, cidr 127 0 0 0 8, cidr 169 254 0 0 16,
    cidr 172 16 0 0 12, cidr 192 168 0 0 16, cidr 224 0 0 0 4, cidr 240 0 0 0 4]

/-! ### The chains -/

/-- A packet with what connection tracking says of it. -/
structure View where
  packet : Packet
  ct : CtState

/-- `ct state established,related` -/
def View.known (v : View) : Bool := v.ct == .established || v.ct == .related

def accept (test : View → Bool) : Rule View Empty := ⟨test, .verdict .accept⟩

def drop (test : View → Bool) : Rule View Empty := ⟨test, .verdict .drop⟩

/-- A chain with `policy accept`, that uses no others. -/
def chain (rules : List (Rule View Empty)) : Table View Empty :=
  { chains := Empty.elim, base := rules, policy := .accept }

/-- `ip daddr @blocked` -/
def Packet.toBlocked (p : Packet) : Bool := p.isV4 && inSet blocked p.dst

/-- `udp dport 67` -/
def Packet.dhcp (p : Packet) : Bool := p.proto == .udp && p.dport == 67

namespace Config

variable (cfg : Config)

/-- `oifname cclab0` -/
def toLab (p : Packet) : Bool := cfg.onLab p.family p.dst

/-- `ip daddr gw` -/
def toGw (p : Packet) : Bool := p.isV4 && p.dst == cfg.gw

/-- `ip saddr @controllers` -/
def fromController (p : Packet) : Bool := p.isV4 && inSet cfg.controllers p.src

/-- The packet is for port 53 of the gateway. -/
def dns (p : Packet) : Bool := cfg.toGw p && (p.proto == .udp || p.proto == .tcp) && p.dport == 53

/-- `ip saddr @controllers tcp dport { 22, 1022 }` -/
def ssh (p : Packet) : Bool :=
  cfg.fromController p && p.proto == .tcp && (p.dport == 22 || p.dport == 1022)

/-- `chain input` of `table inet cclab` -/
def input : Table View Empty :=
  chain [
    accept fun v => v.packet.fromLab && v.known,
    accept fun v => v.packet.fromLab && v.packet.dhcp,
    accept fun v => v.packet.fromLab && (cfg.toGw v.packet && v.packet.proto == .udp && v.packet.dport == 53),
    accept fun v => v.packet.fromLab && (cfg.toGw v.packet && v.packet.proto == .tcp && v.packet.dport == 53),
    drop fun v => v.packet.fromLab]

/-- `chain forward` of `table inet cclab` -/
def forward : Table View Empty :=
  chain [
    drop fun v => v.packet.fromLab && v.packet.family == .v6,
    drop fun v => cfg.toLab v.packet && v.packet.family == .v6,
    accept fun v => v.packet.fromLab && v.known,
    accept fun v => cfg.toLab v.packet && v.known,
    drop fun v => v.packet.fromLab && v.packet.toBlocked,
    accept fun v => v.packet.fromLab,
    accept fun v => cfg.toLab v.packet && cfg.ssh v.packet && v.ct == .new,
    drop fun v => cfg.toLab v.packet]

/-- The packet goes to the host itself. -/
def toHost (p : Packet) : Bool := cfg.isLocal p.family p.dst

/-- What the table says.  It has no chain for the packets of the host itself. -/
def verdict (v : View) : Verdict :=
  if v.packet.origin = .host then .accept
  else if cfg.toHost v.packet then cfg.input.first v else cfg.forward.first v

end Config

/-- Nobody uses the address of somebody else.  A lab VM that has none yet sends to everybody. -/
structure Config.Honest (cfg : Config) (p : Packet) : Prop where
  lab : p.origin = .lab → cfg.isLocal p.family p.src = false ∧
    (cfg.onLab p.family p.src = true ∨ p.src = 0 ∧ cfg.toHost p = true)
  outside : p.origin = .outside → cfg.isLocal p.family p.src = false ∧
    cfg.onLab p.family p.src = false ∧ p.src ≠ 0
  host : p.origin = .host → cfg.isLocal p.family p.src = true

/-! ### Runs -/

/-- A packet that passed, with what was said of it.  `loaded` tells whether the table was there. -/
structure Passed extends View where
  loaded : Bool

/-- `passed` is newest first. -/
structure State where
  loaded : Bool
  conns : List (Conn Kind ℕ Passed)
  passed : List Passed

def State.init : State := ⟨false, [], []⟩

/-- What happens.  `others` is what the host's other tables say of a packet, and `kept` tells which
connections are not forgotten. -/
inductive Event where
  | packet (p : Packet) (others : Bool)
  | load
  | unload
  | forget (kept : Conn Kind ℕ Passed → Bool)

namespace State

variable (cfg : Config)

/-- The packet as the chains see it. -/
def view (s : State) (p : Packet) : View := ⟨p, ctState s.conns p.seen⟩

/-- The packet passes. -/
def passes (s : State) (p : Packet) (others : Bool) : Bool :=
  others && (!s.loaded || cfg.verdict (s.view p) == .accept)

def deliver (s : State) (p : Packet) : State :=
  let e : Passed := ⟨s.view p, s.loaded⟩
  { s with conns := track e s.conns p.seen, passed := e :: s.passed }

def step (s : State) : Event → State
  | .packet p others => if s.passes cfg p others then s.deliver p else s
  | .load => { s with loaded := true }
  | .unload => { s with loaded := false }
  | .forget kept => { s with conns := s.conns.filter kept }

def run (s : State) (es : List Event) : State := es.foldl (step cfg) s

end State

/-! ### What the chains let through -/

section

variable (rules : List (Rule View Empty)) (test : View → Bool) (v : View)

@[simp] theorem first_nil : (chain []).first v = .accept := rfl

@[simp] theorem first_accept :
    (chain (accept test :: rules)).first v = if test v then .accept else (chain rules).first v := by
  cases h : test v <;> simp [chain, accept, Table.first, Target.verdict?, h]

@[simp] theorem first_drop :
    (chain (drop test :: rules)).first v = if test v then .drop else (chain rules).first v := by
  cases h : test v <;> simp [chain, drop, Table.first, Target.verdict?, h]

variable (cfg : Config)

/-- The first rule of `chain forward` that matches is what decides. -/
theorem Config.forward_accepts : cfg.forward.Accepts v ↔ cfg.forward.first v = .accept :=
  Table.accepts_iff_first (by simp [forward, chain, accept, drop, Target.verdict?]) v

theorem Config.input_accepts : cfg.input.Accepts v ↔ cfg.input.first v = .accept :=
  Table.accepts_iff_first (by simp [input, chain, accept, drop, Target.verdict?]) v

/-- **What is forwarded.** -/
theorem Config.forward_accepts_iff :
    cfg.forward.Accepts v ↔
      (v.packet.fromLab = true → v.packet.family = .v4 ∧
        (v.known = true ∨ v.packet.toBlocked = false)) ∧
      (cfg.toLab v.packet = true → v.packet.family = .v4 ∧
        (v.known = true ∨ v.packet.fromLab = true ∨ cfg.ssh v.packet = true ∧ v.ct = .new)) := by
  rw [forward_accepts]
  simp only [forward, first_accept, first_drop, first_nil]
  cases hfam : v.packet.family
  · cases v.packet.fromLab <;> cases cfg.toLab v.packet <;> cases v.known <;>
      cases v.packet.toBlocked <;> simp
  · cases v.packet.fromLab <;> cases cfg.toLab v.packet <;> simp

/-- **What a lab VM gets through to the host.** -/
theorem Config.input_accepts_iff :
    cfg.input.Accepts v ↔
      (v.packet.fromLab = true → v.known = true ∨ v.packet.dhcp = true ∨ cfg.dns v.packet = true) := by
  rw [input_accepts]
  simp only [input, dns, first_accept, first_drop, first_nil]
  cases v.packet.fromLab
  · simp
  · cases v.known <;> cases v.packet.dhcp <;> cases cfg.toGw v.packet <;>
      cases hproto : v.packet.proto <;> simp

end

/-- What the table lets through. -/
theorem Config.verdict_iff (cfg : Config) (v : View) :
    cfg.verdict v = .accept ↔
      v.packet.origin = .host ∨ (cfg.toHost v.packet = true ∧ cfg.input.Accepts v) ∨
        cfg.toHost v.packet = false ∧ cfg.forward.Accepts v := by
  rw [input_accepts, forward_accepts]
  unfold verdict
  by_cases hhost : v.packet.origin = .host
  · simp [hhost]
  · cases hto : cfg.toHost v.packet <;> simp [hhost]

/-! ### Who opened the connection -/

namespace Passed

/-- The packet opened a connection. -/
def Opener (o : Passed) : Prop := o.ct = .new ∧ o.packet.seen.quotes = none

variable (o e : Passed)

/-- `e` has the tuple of `o`. -/
def Repeats : Prop := e.packet.seen.quotes = none ∧ o.packet.seen.tuple = e.packet.seen.tuple

/-- `e` answers `o`. -/
def Answers : Prop := e.packet.seen.quotes = none ∧ o.packet.seen.tuple.reply = e.packet.seen.tuple

/-- `e` tells the sender of a packet, `o` or an answer to it, of an error. -/
def Reports : Prop :=
  ∃ q, e.packet.seen.quotes = some q ∧ q.src = e.packet.dst ∧
    (o.packet.seen.tuple = q ∨ o.packet.seen.tuple.reply = q)

/-- `e` belongs to the connection of `o`. -/
def Belongs : Prop := Repeats o e ∨ Answers o e ∨ Reports o e

end Passed

/-- What is known of a packet that passed: `before` passed before it. -/
structure Backed (cfg : Config) (before : List Passed) (e : Passed) : Prop where
  honest : cfg.Honest e.packet
  verdict : e.loaded = true → cfg.verdict e.toView = .accept
  opener : e.known = true → ∃ o ∈ before, o.Opener ∧ o.Belongs e

/-- Behind every connection stands a packet that passed as a new one. -/
structure Inv (cfg : Config) (s : State) : Prop where
  conns : ∀ c ∈ s.conns, c.opener ∈ s.passed ∧ c.opener.Opener ∧
    c.opener.packet.seen.tuple = c.orig
  backed : ∀ e before, (e :: before) <:+ s.passed → Backed cfg before e

section

variable {cfg : Config} {s : State} {p : Packet} {others : Bool}

theorem inv_init : Inv cfg State.init :=
  ⟨fun _ h => absurd h List.not_mem_nil, fun _ _ h => absurd (List.suffix_nil.mp h) (by simp)⟩

theorem belongs_of_matches {c : Conn Kind ℕ Passed} {e : Passed}
    (hc : c.opener.packet.seen.tuple = c.orig) (hquotes : e.packet.seen.quotes = none)
    (h : c.matches e.packet.seen.tuple = true) : c.opener.Belongs e := by
  obtain h | h := matches_iff.mp h
  · exact .inl ⟨hquotes, hc.trans h⟩
  · exact .inr (.inl ⟨hquotes, by rw [hc, h]⟩)

/-- A packet of a connection has an opener. -/
theorem Inv.opener_of_known (hs : Inv cfg s) {e : Passed} (he : e.ct = ctState s.conns e.packet.seen)
    (h : e.known = true) : ∃ o ∈ s.passed, o.Opener ∧ o.Belongs e := by
  simp only [View.known, Bool.or_eq_true, beq_iff_eq] at h
  rw [he] at h
  -- established by its own tuple, or related by the one that it quotes
  obtain h | h := h
  · obtain ⟨hquotes, c, hc, hmatch⟩ := exists_of_established h
    obtain ⟨hmem, hopener, htuple⟩ := hs.conns c hc
    exact ⟨c.opener, hmem, hopener, belongs_of_matches htuple hquotes hmatch⟩
  · obtain ⟨q, hq, hsrc, c, hc, hmatch⟩ := exists_of_related h
    obtain ⟨hmem, hopener, htuple⟩ := hs.conns c hc
    refine ⟨c.opener, hmem, hopener, .inr (.inr ⟨q, hq, hsrc, ?_⟩)⟩
    rw [htuple]
    exact matches_iff.mp hmatch

theorem Inv.deliver (hs : Inv cfg s) (hp : cfg.Honest p) (hpass : s.passes cfg p others = true) :
    Inv cfg (s.deliver p) := by
  constructor
  · intro c hc
    obtain ⟨d, hd, horig, hopener⟩ | ⟨rfl, hnew⟩ := mem_track hc
    · obtain ⟨hmem, hnew, htuple⟩ := hs.conns d hd
      rw [← hopener, ← horig]
      exact ⟨List.mem_cons_of_mem _ hmem, hnew, htuple⟩
    -- the packet itself has opened the connection
    · exact ⟨List.mem_cons_self, ⟨hnew, quotes_of_new hnew⟩, rfl⟩
  · intro e before h
    obtain h | h := List.suffix_cons_iff.mp h
    -- the newest packet: the table has let it pass if it was there
    · obtain ⟨rfl, rfl⟩ := List.cons.inj h
      refine ⟨hp, fun hloaded => ?_, hs.opener_of_known rfl⟩
      have hloaded : s.loaded = true := hloaded
      simp only [State.passes, hloaded, Bool.not_true, Bool.false_or, Bool.and_eq_true, beq_iff_eq] at hpass
      exact hpass.2
    · exact hs.backed e before h

/-- **Every step keeps the invariant.** -/
theorem Inv.step (hs : Inv cfg s) {ev : Event}
    (hev : ∀ p others, ev = .packet p others → cfg.Honest p) : Inv cfg (s.step cfg ev) := by
  cases ev with
  | packet p others =>
    simp only [State.step]
    split
    · next hpass => exact hs.deliver (hev p others rfl) hpass
    · exact hs
  | load => exact ⟨hs.conns, hs.backed⟩
  | unload => exact ⟨hs.conns, hs.backed⟩
  | forget kept => exact ⟨fun c hc => hs.conns c (List.mem_of_mem_filter hc), hs.backed⟩

theorem Inv.run (hs : Inv cfg s) {es : List Event}
    (hes : ∀ p others, Event.packet p others ∈ es → cfg.Honest p) : Inv cfg (s.run cfg es) := by
  induction es generalizing s with
  | nil => exact hs
  | cons ev es ih =>
    refine ih (hs.step fun p others hev => hes p others ?_) fun p others hmem =>
      hes p others (List.mem_cons_of_mem _ hmem)
    rw [hev]
    exact List.mem_cons_self

/-- A packet that passed before is backed by what passed before it. -/
theorem Inv.backed_of_mem (hs : Inv cfg s) {e o : Passed} {before : List Passed}
    (h : (e :: before) <:+ s.passed) (ho : o ∈ before) : ∃ earlier, Backed cfg earlier o := by
  obtain ⟨newer, earlier, rfl⟩ := List.append_of_mem ho
  have hsuffix : (o :: earlier) <:+ (e :: (newer ++ o :: earlier)) := ⟨e :: newer, rfl⟩
  exact ⟨earlier, hs.backed o earlier (hsuffix.trans h)⟩

end

/-! ### The fence -/

/-- The packet was let in: it is the host's, or SSH of a controller. -/
def Passed.Invited (cfg : Config) (o : Passed) : Prop :=
  o.packet.origin = .host ∨ o.packet.origin = .outside ∧ cfg.ssh o.packet = true

/-- What a packet that passed must be. -/
structure Fenced (cfg : Config) (before : List Passed) (e : Passed) : Prop where
  /-- A lab VM reaches what is not blocked, and else what asked it.  It may tell of errors. -/
  forwarded : e.packet.origin = .lab → cfg.toHost e.packet = false → e.packet.family = .v4 ∧
    (e.packet.toBlocked = false ∨ ∃ o ∈ before, o.Opener ∧
      (o.loaded = false ∧ o.Belongs e ∨ o.Invited cfg ∧ o.Answers e ∨
        o.packet.origin ≠ .lab ∧ o.Reports e ∨
        o.packet.origin = .lab ∧ o.Reports e ∧ o.packet.src = e.packet.dst))
  /-- Of the host it reaches DHCP and DNS, and what asked it. -/
  toHost : e.packet.origin = .lab → cfg.toHost e.packet = true →
    e.packet.dhcp = true ∨ cfg.dns e.packet = true ∨ ∃ o ∈ before, o.Opener ∧
      (o.loaded = false ∧ o.Belongs e ∨ o.packet.origin = .host ∧ o.Answers e ∨
        o.packet.origin ≠ .lab ∧ o.Reports e ∨
        (o.packet.dhcp = true ∨ cfg.dns o.packet = true) ∧ o.Reports e)
  /-- A lab VM is reached by the SSH of controllers, and by what it asked. -/
  inward : e.packet.origin = .outside → cfg.toHost e.packet = false → cfg.toLab e.packet = true →
    e.packet.family = .v4 ∧ (cfg.ssh e.packet = true ∨ ∃ o ∈ before, o.Opener ∧
      (o.loaded = false ∧ o.Belongs e ∨ o.packet.origin = .lab ∧ (o.Answers e ∨ o.Reports e) ∨
        o.Invited cfg ∧ o.Reports e))

/-- What the table lets through of a new connection. -/
structure Allowed (cfg : Config) (p : Packet) : Prop where
  forwarded : p.origin = .lab → cfg.toHost p = false → p.toBlocked = false
  toHost : p.origin = .lab → cfg.toHost p = true → p.dhcp = true ∨ cfg.dns p = true
  inward : p.origin = .outside → cfg.toHost p = false → cfg.toLab p = true → cfg.ssh p = true

section

variable {cfg : Config} {e o : Passed} {before earlier : List Passed}

theorem fromLab_iff {p : Packet} : p.fromLab = true ↔ p.origin = .lab := beq_iff_eq

theorem known_of_new {v : View} (h : v.ct = .new) : v.known = false := by
  simp [View.known, h]

theorem Backed.allowed (h : Backed cfg before o) (hopener : o.Opener) (hloaded : o.loaded = true) :
    Allowed cfg o.packet := by
  have hverdict := (cfg.verdict_iff o.toView).mp (h.verdict hloaded)
  rw [cfg.input_accepts_iff, cfg.forward_accepts_iff, known_of_new hopener.1] at hverdict
  refine ⟨fun hlab hto => ?_, fun hlab hto => ?_, fun hout hto htoLab => ?_⟩
  · simp only [hlab, hto, fromLab_iff] at hverdict
    simp_all
  · simp only [hlab, hto, fromLab_iff] at hverdict
    simp_all
  · simp only [hout, hto, htoLab, fromLab_iff] at hverdict
    simp_all

theorem Config.Honest.same_origin {p q : Packet} (hp : cfg.Honest p) (hq : cfg.Honest q)
    (hfamily : p.family = q.family) (hsrc : p.src = q.src) : p.origin = q.origin := by
  have hlab := hp.lab
  have hout := hp.outside
  have hhost := hp.host
  have hlab' := hq.lab
  have hout' := hq.outside
  have hhost' := hq.host
  rw [hfamily, hsrc] at hlab hout hhost
  -- the three kinds of addresses do not meet
  cases h : p.origin <;> cases h' : q.origin <;> simp_all

/-- The lab network is blocked. -/
theorem blocked_of_onLab {x : ℕ} (h : cfg.onLab .v4 x = true) : inSet blocked x = true := by
  have hoctet := cfg.octet_lt
  simp [Config.onLab, Config.subnet, cidr, IpNetwork.mask, IpNetwork.broadcast, IpNetwork.size, octets,
    IpVersion.bits] at h
  rw [inSet, List.any_eq_true]
  refine ⟨cidr 10 0 0 0 8, by simp [blocked], ?_⟩
  simp [cidr, IpNetwork.mask, IpNetwork.broadcast, IpNetwork.size, octets, IpVersion.bits]
  omega

theorem toBlocked_of_toLab {p : Packet} (h : cfg.toLab p = true) (hfamily : p.family = .v4) :
    p.toBlocked = true := by
  unfold Config.toLab at h
  rw [hfamily] at h
  simp [Packet.toBlocked, Packet.isV4, hfamily, blocked_of_onLab h]

namespace Passed

theorem Repeats.same (h : o.Repeats e) :
    o.packet.family = e.packet.family ∧ o.packet.src = e.packet.src ∧ o.packet.dst = e.packet.dst ∧
      o.packet.proto = e.packet.proto ∧ o.packet.dport = e.packet.dport := by
  simp [Packet.family, Packet.src, Packet.dst, Packet.proto, Packet.dport, h.2]

theorem Answers.back (h : o.Answers e) :
    o.packet.family = e.packet.family ∧ o.packet.src = e.packet.dst ∧ o.packet.dst = e.packet.src := by
  simp [Packet.family, Packet.src, Packet.dst, ← h.2, Tuple.reply]

theorem Reports.side (h : o.Reports e) :
    o.packet.family = e.packet.family ∧
      (o.packet.src = e.packet.dst ∨ o.packet.dst = e.packet.dst) := by
  obtain ⟨q, hq, hsrc, htuple⟩ := h
  have hfamily := e.packet.family_quotes q hq
  obtain rfl | rfl := htuple
  · exact ⟨hfamily, .inl hsrc⟩
  · exact ⟨hfamily, .inr hsrc⟩

end Passed

theorem toHost_congr {p q : Packet} (hfamily : p.family = q.family) (hdst : p.dst = q.dst) :
    cfg.toHost p = cfg.toHost q := by
  rw [Config.toHost, Config.toHost, hfamily, hdst]

theorem toLab_congr {p q : Packet} (hfamily : p.family = q.family) (hdst : p.dst = q.dst) :
    cfg.toLab p = cfg.toLab q := by
  rw [Config.toLab, Config.toLab, hfamily, hdst]

theorem toBlocked_congr {p q : Packet} (hfamily : p.family = q.family) (hdst : p.dst = q.dst) :
    p.toBlocked = q.toBlocked := by
  rw [Packet.toBlocked, Packet.toBlocked, Packet.isV4, Packet.isV4, hfamily, hdst]

theorem dhcp_congr {p q : Packet} (hproto : p.proto = q.proto) (hdport : p.dport = q.dport) :
    p.dhcp = q.dhcp := by
  rw [Packet.dhcp, Packet.dhcp, hproto, hdport]

theorem dns_congr {p q : Packet} (hfamily : p.family = q.family) (hdst : p.dst = q.dst)
    (hproto : p.proto = q.proto) (hdport : p.dport = q.dport) : cfg.dns p = cfg.dns q := by
  rw [Config.dns, Config.dns, Config.toGw, Config.toGw, Packet.isV4, Packet.isV4, hfamily, hdst, hproto, hdport]

theorem ssh_congr {p q : Packet} (hfamily : p.family = q.family) (hsrc : p.src = q.src)
    (hproto : p.proto = q.proto) (hdport : p.dport = q.dport) : cfg.ssh p = cfg.ssh q := by
  rw [Config.ssh, Config.ssh, Config.fromController, Config.fromController, Packet.isV4, Packet.isV4,
    hfamily, hsrc, hproto, hdport]

theorem Config.Honest.host_of_local {p : Packet} (h : cfg.Honest p)
    (hlocal : cfg.isLocal p.family p.src = true) : p.origin = .host := by
  cases horigin : p.origin with
  | lab => exact absurd (h.lab horigin).1 (by simp [hlocal])
  | outside => exact absurd (h.outside horigin).1 (by simp [hlocal])
  | host => rfl

theorem Config.Honest.lab_of_onLab {p : Packet} (h : cfg.Honest p)
    (honLab : cfg.onLab p.family p.src = true) (hlocal : cfg.isLocal p.family p.src = false) :
    p.origin = .lab := by
  cases horigin : p.origin with
  | lab => rfl
  | outside => exact absurd (h.outside horigin).2.1 (by simp [honLab])
  | host => exact absurd (h.host horigin) (by simp [hlocal])

/-- A packet of a lab VM that is forwarded comes from the lab network. -/
theorem Config.Honest.src_onLab {p : Packet} (h : cfg.Honest p) (hlab : p.origin = .lab)
    (hto : cfg.toHost p = false) : cfg.onLab p.family p.src = true := by
  obtain ⟨-, honLab | ⟨-, hlocal⟩⟩ := h.lab hlab
  · exact honLab
  · rw [hto] at hlocal
    cases hlocal

/-- What a lab VM gets through to others. -/
theorem Backed.forwarded (he : Backed cfg before e)
    (hbefore : ∀ o ∈ before, ∃ earlier, Backed cfg earlier o) (hloaded : e.loaded = true)
    (hlab : e.packet.origin = .lab) (hto : cfg.toHost e.packet = false) :
    e.packet.family = .v4 ∧
    (e.packet.toBlocked = false ∨ ∃ o ∈ before, o.Opener ∧
      (o.loaded = false ∧ o.Belongs e ∨ o.Invited cfg ∧ o.Answers e ∨
        o.packet.origin ≠ .lab ∧ o.Reports e ∨
        o.packet.origin = .lab ∧ o.Reports e ∧ o.packet.src = e.packet.dst)) := by
  have hverdict := (cfg.verdict_iff e.toView).mp (he.verdict hloaded)
  simp only [hlab, hto, reduceCtorEq, Bool.false_eq_true, false_and, true_and, false_or,
    cfg.forward_accepts_iff, fromLab_iff, true_imp_iff] at hverdict
  -- a packet that is not of a connection must go to a free address
  obtain ⟨⟨hfamily, hknown | hfree⟩, -⟩ := hverdict
  swap
  · exact ⟨hfamily, .inl hfree⟩
  refine ⟨hfamily, ?_⟩
  obtain ⟨o, hmem, hopener, hbelongs⟩ := he.opener hknown
  obtain ⟨earlier, ho⟩ := hbefore o hmem
  cases hol : o.loaded with
  -- opened while the table was away
  | false => exact .inr ⟨o, hmem, hopener, .inl ⟨hol, hbelongs⟩⟩
  | true =>
    have hallowed := ho.allowed hopener hol
    obtain hrepeats | hanswers | hreports := hbelongs
    · -- the opener is a packet of the same VM to the same address
      obtain ⟨hfam, hsrc, hdst, -, -⟩ := hrepeats.same
      have horigin := (ho.honest.same_origin he.honest hfam hsrc).trans hlab
      rw [← toHost_congr hfam hdst] at hto
      rw [← toBlocked_congr hfam hdst]
      exact .inl (hallowed.forwarded horigin hto)
    · obtain ⟨hfam, -, hdst⟩ := hanswers.back
      have honLab := he.honest.src_onLab hlab hto
      have hlocal := (he.honest.lab hlab).1
      have htoHost : cfg.toHost o.packet = false := by rw [Config.toHost, hfam, hdst, hlocal]
      have htoLab : cfg.toLab o.packet = true := by rw [Config.toLab, hfam, hdst, honLab]
      refine .inr ⟨o, hmem, hopener, .inr (.inl ⟨?_, hanswers⟩)⟩
      cases horigin : o.packet.origin with
      | lab =>
        -- no lab VM opens a connection to another one
        have := hallowed.forwarded horigin htoHost
        rw [toBlocked_of_toLab htoLab (hfam.trans hfamily)] at this
        cases this
      | outside => exact .inr ⟨horigin, hallowed.inward horigin htoHost htoLab⟩
      | host => exact .inl horigin
    -- an error that is told goes to either end of what it quotes
    · by_cases horigin : o.packet.origin = .lab
      · obtain ⟨hfam, hsrc | hdst⟩ := hreports.side
        · exact .inr ⟨o, hmem, hopener, .inr (.inr (.inr ⟨horigin, hreports, hsrc⟩))⟩
        · rw [← toHost_congr hfam hdst] at hto
          rw [← toBlocked_congr hfam hdst]
          exact .inl (hallowed.forwarded horigin hto)
      · exact .inr ⟨o, hmem, hopener, .inr (.inr (.inl ⟨horigin, hreports⟩))⟩

/-- What a lab VM gets through to the host. -/
theorem Backed.toHost (he : Backed cfg before e)
    (hbefore : ∀ o ∈ before, ∃ earlier, Backed cfg earlier o) (hloaded : e.loaded = true)
    (hlab : e.packet.origin = .lab) (hto : cfg.toHost e.packet = true) :
    e.packet.dhcp = true ∨ cfg.dns e.packet = true ∨ ∃ o ∈ before, o.Opener ∧
      (o.loaded = false ∧ o.Belongs e ∨ o.packet.origin = .host ∧ o.Answers e ∨
        o.packet.origin ≠ .lab ∧ o.Reports e ∨
        (o.packet.dhcp = true ∨ cfg.dns o.packet = true) ∧ o.Reports e) := by
  have hverdict := (cfg.verdict_iff e.toView).mp (he.verdict hloaded)
  simp only [hlab, hto, reduceCtorEq, Bool.true_eq_false, false_and, true_and, false_or, or_false,
    cfg.input_accepts_iff, fromLab_iff, true_imp_iff] at hverdict
  obtain hknown | hdhcp | hdns := hverdict
  · obtain ⟨o, hmem, hopener, hbelongs⟩ := he.opener hknown
    obtain ⟨earlier, ho⟩ := hbefore o hmem
    cases hol : o.loaded with
    -- opened while the table was away
    | false => exact .inr (.inr ⟨o, hmem, hopener, .inl ⟨hol, hbelongs⟩⟩)
    | true =>
      have hallowed := ho.allowed hopener hol
      obtain hrepeats | hanswers | hreports := hbelongs
      -- the opener asked for the same service
      · obtain ⟨hfam, hsrc, hdst, hproto, hdport⟩ := hrepeats.same
        have horigin := (ho.honest.same_origin he.honest hfam hsrc).trans hlab
        have hservice := hallowed.toHost horigin ((toHost_congr hfam hdst).trans hto)
        rw [dhcp_congr hproto hdport, dns_congr hfam hdst hproto hdport] at hservice
        obtain hdhcp | hdns := hservice
        · exact .inl hdhcp
        · exact .inr (.inl hdns)
      -- only the host sends from its addresses
      · obtain ⟨hfam, hsrc, -⟩ := hanswers.back
        have horigin := ho.honest.host_of_local (by rw [hfam, hsrc]; exact hto)
        exact .inr (.inr ⟨o, hmem, hopener, .inr (.inl ⟨horigin, hanswers⟩)⟩)
      · refine .inr (.inr ⟨o, hmem, hopener, .inr (.inr ?_)⟩)
        by_cases horigin : o.packet.origin = .lab
        · obtain ⟨hfam, hsrc | hdst⟩ := hreports.side
          · rw [ho.honest.host_of_local (by rw [hfam, hsrc]; exact hto)] at horigin
            cases horigin
          · exact .inr ⟨hallowed.toHost horigin ((toHost_congr hfam hdst).trans hto), hreports⟩
        · exact .inl ⟨horigin, hreports⟩
  · exact .inl hdhcp
  · exact .inr (.inl hdns)

/-- What gets through to a lab VM. -/
theorem Backed.inward (he : Backed cfg before e)
    (hbefore : ∀ o ∈ before, ∃ earlier, Backed cfg earlier o) (hloaded : e.loaded = true)
    (hout : e.packet.origin = .outside) (hto : cfg.toHost e.packet = false)
    (htoLab : cfg.toLab e.packet = true) :
    e.packet.family = .v4 ∧ (cfg.ssh e.packet = true ∨ ∃ o ∈ before, o.Opener ∧
      (o.loaded = false ∧ o.Belongs e ∨ o.packet.origin = .lab ∧ (o.Answers e ∨ o.Reports e) ∨
        o.Invited cfg ∧ o.Reports e)) := by
  have hverdict := (cfg.verdict_iff e.toView).mp (he.verdict hloaded)
  simp only [hout, hto, htoLab, reduceCtorEq, Bool.false_eq_true, false_and, true_and, false_or,
    false_imp_iff, cfg.forward_accepts_iff, fromLab_iff, true_imp_iff] at hverdict
  -- a packet that is not of a connection must be SSH
  obtain ⟨hfamily, hknown | ⟨hssh, -⟩⟩ := hverdict
  swap
  · exact ⟨hfamily, .inl hssh⟩
  refine ⟨hfamily, ?_⟩
  obtain ⟨o, hmem, hopener, hbelongs⟩ := he.opener hknown
  obtain ⟨earlier, ho⟩ := hbefore o hmem
  cases hol : o.loaded with
  -- opened while the table was away
  | false => exact .inr ⟨o, hmem, hopener, .inl ⟨hol, hbelongs⟩⟩
  | true =>
    have hallowed := ho.allowed hopener hol
    -- who sends from an address behind the bridge is a lab VM
    have hsender (hfam : o.packet.family = e.packet.family) (hsrc : o.packet.src = e.packet.dst) :
        o.packet.origin = .lab := by
      unfold Config.toHost at hto
      unfold Config.toLab at htoLab
      rw [← hfam, ← hsrc] at hto htoLab
      exact ho.honest.lab_of_onLab htoLab hto
    obtain hrepeats | hanswers | hreports := hbelongs
    · obtain ⟨hfam, hsrc, hdst, hproto, hdport⟩ := hrepeats.same
      have horigin := (ho.honest.same_origin he.honest hfam hsrc).trans hout
      have hssh := hallowed.inward horigin ((toHost_congr hfam hdst).trans hto)
        ((toLab_congr hfam hdst).trans htoLab)
      rw [ssh_congr hfam hsrc hproto hdport] at hssh
      exact .inl hssh
    · obtain ⟨hfam, hsrc, -⟩ := hanswers.back
      exact .inr ⟨o, hmem, hopener, .inr (.inl ⟨hsender hfam hsrc, .inl hanswers⟩)⟩
    · refine .inr ⟨o, hmem, hopener, .inr ?_⟩
      cases horigin : o.packet.origin with
      | lab => exact .inl ⟨rfl, .inr hreports⟩
      | host => exact .inr ⟨.inl horigin, hreports⟩
      | outside =>
        obtain ⟨hfam, hsrc | hdst⟩ := hreports.side
        · rw [hsender hfam hsrc] at horigin
          cases horigin
        · have hssh := hallowed.inward horigin ((toHost_congr hfam hdst).trans hto)
            ((toLab_congr hfam hdst).trans htoLab)
          exact .inr ⟨.inr ⟨horigin, hssh⟩, hreports⟩

end

theorem labOctet_lt : 100 < 256 := by omega

/-- A host with lab VMs at `10.250.100.0/24`. -/
def labHost : Config where
  octet := 100
  octet_lt := labOctet_lt
  controllers := [cidr 192 168 100 0 24]
  isLocal v x := v == .v4 && (x == octets 10 250 100 1 || x == octets 255 255 255 255)
  lab6 _ := false

/-- A question of a lab VM to a name server outside. -/
def question : Packet := ipv4 .lab .udp (octets 10 250 100 10) 40000 (octets 8 8 8 8) 53

def answer : Packet := ipv4 .outside .udp (octets 8 8 8 8) 53 (octets 10 250 100 10) 40000

section

variable {cfg : Config} {s : State} {proto : Proto} {x i y j : ℕ}

/-- What belongs to a connection is forwarded. -/
theorem verdict_of_known {v : View} (hfamily : v.packet.family = .v4) (hto : cfg.toHost v.packet = false)
    (hknown : v.known = true) : cfg.verdict v = .accept := by
  rw [cfg.verdict_iff, cfg.forward_accepts_iff]
  exact .inr (.inr ⟨hto, fun _ => ⟨hfamily, .inl hknown⟩, fun _ => ⟨hfamily, .inl hknown⟩⟩)

/-- A lab VM opens a connection to what is not blocked. -/
theorem verdict_of_free {v : View} (hlab : v.packet.origin = .lab) (hfamily : v.packet.family = .v4)
    (hto : cfg.toHost v.packet = false) (hfree : v.packet.toBlocked = false) : cfg.verdict v = .accept := by
  rw [cfg.verdict_iff, cfg.forward_accepts_iff]
  exact .inr (.inr ⟨hto, fun _ => ⟨hfamily, .inr hfree⟩, fun _ => ⟨hfamily, .inr (.inl (fromLab_iff.mpr hlab))⟩⟩)

/-- A packet passes. -/
theorem step_packet {p : Packet} {ct : CtState} (hct : ctState s.conns p.seen = ct)
    (h : s.loaded = true → cfg.verdict ⟨p, ct⟩ = .accept) :
    s.step cfg (.packet p true) =
      ⟨s.loaded, track ⟨⟨p, ct⟩, s.loaded⟩ s.conns p.seen, ⟨⟨p, ct⟩, s.loaded⟩ :: s.passed⟩ := by
  subst hct
  have hpass : s.passes cfg p true = true := by
    cases hloaded : s.loaded
    · simp [State.passes, hloaded]
    · simp [State.passes, State.view, h hloaded]
  simp only [State.step, hpass, if_true]
  rfl

@[simp] theorem loaded_packet (p : Packet) (others : Bool) :
    (s.step cfg (.packet p others)).loaded = s.loaded := by
  simp only [State.step]
  split <;> rfl

/-- The newest connection has the tuple `t`. -/
def State.Newest (s : State) (t : Tuple Kind ℕ) (replied : Bool) : Prop :=
  ∃ c cs, s.conns = c :: cs ∧ c.orig = t ∧ c.replied = replied

/-- A packet opens a connection. -/
theorem step_new {p : Packet} (hquotes : p.seen.quotes = none)
    (hnew : ∀ c ∈ s.conns, c.matches p.seen.tuple = false)
    (h : s.loaded = true → cfg.verdict ⟨p, .new⟩ = .accept) :
    (s.step cfg (.packet p true)).Newest p.seen.tuple false ∧
      (s.step cfg (.packet p true)).passed = ⟨⟨p, .new⟩, s.loaded⟩ :: s.passed := by
  rw [step_packet (ctState_of_unknown hquotes hnew) h, track_of_unknown hquotes hnew]
  exact ⟨⟨_, _, rfl, rfl, rfl⟩, rfl⟩

/-- A packet answers the newest connection. -/
theorem step_answer {p : Packet} {t : Tuple Kind ℕ} {replied : Bool} (hs : s.Newest t replied)
    (hquotes : p.seen.quotes = none) (hreply : t.reply = p.seen.tuple)
    (h : s.loaded = true → cfg.verdict ⟨p, .established⟩ = .accept) :
    (s.step cfg (.packet p true)).Newest t true ∧
      (s.step cfg (.packet p true)).passed = ⟨⟨p, .established⟩, s.loaded⟩ :: s.passed := by
  obtain ⟨c, cs, hconns, rfl, -⟩ := hs
  rw [step_packet (by rw [hconns]; exact ctState_answer hquotes hreply) h, hconns]
  obtain ⟨rest, hrest⟩ := track_answer hquotes hreply
  exact ⟨⟨_, rest, hrest, rfl, rfl⟩, rfl⟩

/-- A packet more of the newest connection, that was answered. -/
theorem step_again {p : Packet} (hs : s.Newest p.seen.tuple true) (hquotes : p.seen.quotes = none)
    (h : s.loaded = true → cfg.verdict ⟨p, .established⟩ = .accept) :
    (s.step cfg (.packet p true)).passed = ⟨⟨p, .established⟩, s.loaded⟩ :: s.passed := by
  obtain ⟨c, cs, hconns, horig, hreplied⟩ := hs
  rw [step_packet (by rw [hconns]; exact ctState_replied hquotes hreplied horig) h]

/-- **Loading the table again keeps what was opened while it was away,** to any address but the host's
own. -/
theorem reopened (hy : cfg.isLocal .v4 y = false)
    (hnew : ∀ c ∈ s.conns, c.matches ⟨⟨.v4, proto⟩, x, i, y, j⟩ = false) :
    ∃ before, (s.run cfg [.unload, .packet (ipv4 .lab proto x i y j) true,
      .packet (ipv4 .outside proto y j x i) true, .load, .packet (ipv4 .lab proto x i y j) true]).passed =
        ⟨⟨ipv4 .lab proto x i y j, .established⟩, true⟩ :: before := by
  have hagain : cfg.verdict ⟨ipv4 .lab proto x i y j, .established⟩ = .accept := verdict_of_known rfl hy rfl
  -- without the table both directions pass
  have hopen : (State.step cfg { s with loaded := false } (.packet (ipv4 .lab proto x i y j) true)).Newest
      (ipv4 .lab proto x i y j).seen.tuple false := (step_new rfl hnew (by simp)).1
  have hanswered : (State.step cfg _ (.packet (ipv4 .outside proto y j x i) true)).Newest _ true :=
    (step_answer hopen rfl rfl (by simp)).1
  obtain ⟨c, cs, hconns, horig, hreplied⟩ := hanswered
  simp only [State.run, List.foldl_cons, List.foldl_nil]
  exact ⟨_, step_again ⟨c, cs, hconns, horig, hreplied⟩ rfl fun _ => hagain⟩

theorem reopened_router :
    ∃ before, (State.run labHost .init [.unload,
      .packet (ipv4 .lab .tcp (octets 10 250 100 10) 40000 (octets 192 168 1 1) 80) true,
      .packet (ipv4 .outside .tcp (octets 192 168 1 1) 80 (octets 10 250 100 10) 40000) true, .load,
      .packet (ipv4 .lab .tcp (octets 10 250 100 10) 40000 (octets 192 168 1 1) 80) true]).passed =
        ⟨⟨ipv4 .lab .tcp (octets 10 250 100 10) 40000 (octets 192 168 1 1) 80, .established⟩, true⟩ :: before :=
  reopened rfl fun _ h => absurd h List.not_mem_nil

end

end LabNetwork
end CloudCore
