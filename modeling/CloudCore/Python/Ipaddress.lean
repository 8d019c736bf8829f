import CloudCore.Python.Json
import Mathlib.Algebra.Order.Group.Nat
import Mathlib.Data.Nat.Bitwise
import Mathlib.Data.Nat.Notation

/-!
# Python's `ipaddress`

`ip_network(value, strict=False)` and `subnet_of`, for the values a JSON body
can hold.  A network is a block of `2 ^ (bits - prefixlen)` consecutive addresses
that starts at a multiple of its size.

## Main definitions

* `IpNetwork` — IPv4 and IPv6 networks.
* `ipNetwork` — `ipaddress.ip_network(value, strict=False)`.
* `IpNetwork.subnetOf` — `child.subnet_of(parent)`.

## Main results

* `IpNetwork.subnetOf_spec` — a subnet has no address outside its parent.
-/

namespace Python

/-- The version of an address. -/
inductive IpVersion where
  | v4
  | v6
  deriving DecidableEq

/-- `_max_prefixlen`. -/
def IpVersion.bits : IpVersion → ℕ
  | .v4 => 32
  | .v6 => 128

/-- A network, by its first address. -/
structure IpNetwork where
  version : IpVersion
  /-- `int(network_address)`. -/
  address : ℕ
  /-- `network_address.scope_id` of an IPv6 network. -/
  scope : Option (List Char)
  prefixlen : ℕ
  prefixlen_le : prefixlen ≤ version.bits
  /-- The host bits are zero. -/
  aligned : 2 ^ (version.bits - prefixlen) ∣ address
  deriving DecidableEq

namespace IpNetwork

/-- The number of addresses. -/
def size (n : IpNetwork) : ℕ := 2 ^ (n.version.bits - n.prefixlen)

/-- `int(broadcast_address)`. -/
def broadcast (n : IpNetwork) : ℕ := n.address + n.size - 1

/-- The network holds the address `x` of version `v`. -/
def Holds (n : IpNetwork) (v : IpVersion) (x : ℕ) : Prop :=
  v = n.version ∧ n.address ≤ x ∧ x ≤ n.broadcast

/-- The network of an address and a prefix length, with the host bits cleared. -/
def mask (v : IpVersion) (value : ℕ) (scope : Option (List Char)) (prefixlen : ℕ)
    (h : prefixlen ≤ v.bits) : IpNetwork :=
  let size := 2 ^ (v.bits - prefixlen)
  { version := v
    address := value / size * size
    -- an address that had host bits is built anew, without its scope
    scope := if value / size * size = value then scope else none
    prefixlen
    prefixlen_le := h
    aligned := Nat.dvd_mul_left .. }

/-- `child.subnet_of(parent)`. -/
def subnetOf (child parent : IpNetwork) : Except Exc Bool :=
  if child.version ≠ parent.version then .error .typeError
  else
    -- addresses of one number and two scopes are neither less nor equal
    .ok ((parent.address < child.address ||
        (parent.address == child.address && parent.scope == child.scope)) &&
      child.broadcast ≤ parent.broadcast)

/-- **A subnet has no address outside its parent.** -/
theorem subnetOf_spec {child parent : IpNetwork} (h : child.subnetOf parent = .ok true) (v : IpVersion)
    (x : ℕ) (hx : child.Holds v x) : parent.Holds v x := by
  unfold subnetOf at h
  split at h
  · cases h
  next hv =>
    simp only [Except.ok.injEq, Bool.and_eq_true, Bool.or_eq_true, decide_eq_true_eq,
      beq_iff_eq] at h
    obtain ⟨hlo, hhi⟩ := h
    obtain ⟨hver, hx1, hx2⟩ := hx
    have hle : parent.address ≤ child.address := by
      rcases hlo with hlo | ⟨hlo, -⟩ <;> omega
    exact ⟨hver.trans (Decidable.not_not.mp hv), hle.trans hx1, hx2.trans hhi⟩

end IpNetwork

/-! ### Reading addresses -/

/-- A run of ASCII digits. -/
def isDigits (l : List Char) : Bool := !l.isEmpty && l.all Char.isDigit

/-- `IPv4Address._parse_octet`. -/
def parseOctet (l : List Char) : Option ℕ :=
  if !isDigits l || l.length > 3 then none
  else if l ≠ ['0'] ∧ l.head? = some '0' then none
  else if value l > 255 then none
  else some (value l)

/-- `IPv4Address._ip_int_from_string`. -/
def ipv4FromString (l : List Char) : Option ℕ :=
  match l.splitOn '.' with
  | [a, b, c, d] => do
    let a ← parseOctet a
    let b ← parseOctet b
    let c ← parseOctet c
    let d ← parseOctet d
    some (((a * 256 + b) * 256 + c) * 256 + d)
  | _ => none

/-- The value of a hexadecimal digit. -/
def hexDigit (c : Char) : Option ℕ :=
  if c.isDigit then some (c.toNat - '0'.toNat)
  else if 'a' ≤ c ∧ c ≤ 'f' then some (c.toNat - 'a'.toNat + 10)
  else if 'A' ≤ c ∧ c ≤ 'F' then some (c.toNat - 'A'.toNat + 10)
  else none

/-- `IPv6Address._parse_hextet`. -/
def parseHextet (l : List Char) : Option ℕ :=
  if l.isEmpty || l.length > 4 then none
  else (l.mapM hexDigit).map (·.foldl (fun n d => n * 16 + d) 0)

/-- Hextets as one number. -/
def joinHextets (parts : List (List Char)) : Option ℕ :=
  (parts.mapM parseHextet).map (·.foldl (fun n d => n * 65536 + d) 0)

/-- A last part in IPv4 notation becomes two hextets. -/
def expandIpv4Suffix (parts : List (List Char)) : Option (List (List Char)) :=
  match parts.getLast? with
  | some l =>
    if l.contains '.' then do
      let n ← ipv4FromString l
      some (parts.dropLast ++ [Nat.toDigits 16 (n / 65536), Nat.toDigits 16 (n % 65536)])
    else some parts
  | none => some parts

/-- The places, ends excepted, of the empty parts. -/
def emptyParts (parts : List (List Char)) : List ℕ :=
  (List.range parts.length).filter fun i =>
    0 < i && i + 1 < parts.length && parts[i]? == some []

/-- The parts on one side of a `::`; an empty one stands for an end of the text
and must be the only one. -/
def sideOfSkip (parts : List (List Char)) (atEnd : Option (List Char)) :
    Option (List (List Char)) :=
  if atEnd = some [] then if parts.length = 1 then some [] else none
  else some parts

/-- `IPv6Address._ip_int_from_string`, its parts given. -/
def ipv6FromParts (parts : List (List Char)) : Option ℕ :=
  if parts.length > 9 then none
  else
    match emptyParts parts with
    | [] =>
      if parts.length = 8 then joinHextets parts else none
    | [i] => do
      let hi ← sideOfSkip (parts.take i) parts.head?
      let lo ← sideOfSkip (parts.drop (i + 1)) parts.getLast?
      if hi.length + lo.length ≥ 8 then none
      else
        let high ← joinHextets hi
        let low ← joinHextets lo
        -- the hextets skipped are zero
        some (high * 65536 ^ (8 - hi.length) + low)
    | _ => none

/-- `IPv6Address._ip_int_from_string`. -/
def ipv6FromString (l : List Char) : Option ℕ := do
  let parts := l.splitOn ':'
  if parts.length < 3 then none
  else
    let parts ← expandIpv4Suffix parts
    ipv6FromParts parts

/-- `IPv6Address._split_scope_id`. -/
def splitScopeId (l : List Char) : Option (List Char × Option (List Char)) :=
  match l.splitOn '%' with
  | [a] => some (a, none)
  | [a, scope] => if scope.isEmpty then none else some (a, some scope)
  | _ => none

/-! ### Reading networks -/

def prefixFromPrefixString (v : IpVersion) (l : List Char) : Option ℕ :=
  if isDigits l && l.length ≤ maxStrDigits && value l ≤ v.bits then some (value l) else none

def countRighthandZeroBits (n bits : ℕ) : ℕ :=
  ((List.range bits).find? fun i => n.testBit i).getD bits

def prefixFromIpInt (ip : ℕ) : Option ℕ :=
  let zeros := countRighthandZeroBits ip 32
  if ip >>> zeros = 2 ^ (32 - zeros) - 1 then some (32 - zeros) else none

/-- `_prefix_from_ip_string`: a netmask, or else a host mask. -/
def prefixFromIpString (l : List Char) : Option ℕ := do
  let ip ← ipv4FromString l
  prefixFromIpInt ip <|> prefixFromIpInt (ip ^^^ (2 ^ 32 - 1))

/-- `_make_netmask`: the prefix length a mask stands for; no mask is a full one. -/
def makeNetmask (v : IpVersion) : Option (List Char) → Option ℕ
  | none => some v.bits
  | some l =>
    match v with
    | .v4 => prefixFromPrefixString .v4 l <|> prefixFromIpString l
    | .v6 => prefixFromPrefixString .v6 l

/-- The network of an address with the mask that follows it. -/
def makeNetwork (v : IpVersion) (value : ℕ) (scope : Option (List Char))
    (mask : Option (List Char)) : Option IpNetwork := do
  let prefixlen ← makeNetmask v mask
  if h : prefixlen ≤ v.bits then some (.mask v value scope prefixlen h) else none

/-- `IPv4Network(addr/mask)`. -/
def ipv4Network (addr : List Char) (mask : Option (List Char)) : Option IpNetwork := do
  let value ← ipv4FromString addr
  makeNetwork .v4 value none mask

/-- `IPv6Network(addr/mask)`. -/
def ipv6Network (addr : List Char) (mask : Option (List Char)) : Option IpNetwork := do
  let (addr, scope) ← splitScopeId addr
  let value ← ipv6FromString addr
  makeNetwork .v6 value scope mask

/-- `ip_network` of a text; `none` where it raises `ValueError`. -/
def ipNetworkOfText (l : List Char) : Option IpNetwork :=
  match l.splitOn '/' with
  | [addr] => ipv4Network addr none <|> ipv6Network addr none
  | [addr, mask] => ipv4Network addr (some mask) <|> ipv6Network addr (some mask)
  | _ => none

/-- `ip_network` of a number: the network of one address. -/
def ipNetworkOfInt (n : ℤ) : Option IpNetwork :=
  if 0 ≤ n ∧ n < 2 ^ 32 then makeNetwork .v4 n.toNat none none
  else if 0 ≤ n ∧ n < 2 ^ 128 then makeNetwork .v6 n.toNat none none
  else none

/-- `ipaddress.ip_network(value, strict=False)`; `none` where it raises `ValueError`. -/
def ipNetwork : Json → Option IpNetwork
  | .str s => ipNetworkOfText s.toList
  | .int n => ipNetworkOfInt n
  | .bool b => ipNetworkOfInt (if b then 1 else 0)
  -- the text `str()` gives for these is no address
  | .null | .float _ | .arr _ | .obj _ => none

example : (ipNetwork (.str "10.0.7.9/16")).map (·.address) = some (10 * 256 ^ 3) := by
  decide

example : (ipNetwork (.str "2001:db8::1/64")).map (·.address) = some (0x20010db8 * 2 ^ 96) := by
  decide

example : (ipNetwork (.str "10.0.0.0/255.255.0.0")).map (·.prefixlen) = some 16 := by
  decide

end Python
