import CloudCore.Formats.Lines
import CloudCore.Peers.References
import CloudCore.Python.Ipaddress

/-!
# The WireGuard configuration

`api/wireguard.py` writes one `[Peer]` block for each approved row with a key and a
subnet.  The key, the endpoint and the subnet are texts that the other host chose;
nothing looks at them before they are written.

## Main definitions

* `peerTransitIp`, `renderConfig` — the text, as the source makes it.
* `clean`, `blocks`, `networks` — how WireGuard reads it.
* `Unambiguous` — a block for each row, no key twice, no network twice.
* `Orderly` — what must hold of the rows; `Vetted` — what must hold of what is written
  to the table.

## Main results

* `blocks_renderConfig` — the blocks are those of the rows if no value breaks its line.
* `unambiguous_iff` — the text is unambiguous exactly if the rows are in order.
* `unambiguous_of_reaches` — **it is so in every run that writes vetted rows only.**
* `everything_captured` — a peer that advertises all addresses.
-/

namespace CloudCore
namespace Peers

open Python Effect Formats
open Auth (PeerStatus)

/-! ### Writing -/

/-- What this host's interface is configured with. -/
structure Interface where
  /-- `network.bridge_subnet_octet`. -/
  octet : ℕ
  octet_le : 1 ≤ octet ∧ octet ≤ 254
  /-- `network.wg_listen_port`. -/
  listenPort : ℕ
  /-- The file of the private key, stripped. -/
  privkey : Line
  privkey_line : '\n' ∉ privkey

/-- The digits that `\d` stands for; those of ASCII are the usual ones. -/
structure Decimal where
  isDecimal : Char → Bool
  ascii : ∀ c, c.toNat < 128 → isDecimal c = c.isDigit

variable (d : Decimal)

/-- The rest of a text after another. -/
def after (p l : Line) : Option Line := if p.isPrefixOf l then some (l.drop p.length) else none

/-- What `(\d+)` matches in `192\.168\.(\d+)\.0/24$`, which may end before a line end. -/
def subnetNumber (subnet : Line) : Option Line :=
  match after (text "192.168.") subnet with
  | none => none
  | some rest =>
    let number := rest.takeWhile d.isDecimal
    let suffix := rest.dropWhile d.isDecimal
    if number ≠ [] ∧ (suffix = text ".0/24" ∨ suffix = text ".0/24\n") then some number
    else none

/-- The address in the transit network. -/
def transitIp (number : Line) : Line := text "10.99." ++ number ++ text ".1"

theorem mem_transitIp {number : Line} {c : Char} (h : c ∈ transitIp number) :
    c ∈ text "10.99." ∨ c ∈ number ∨ c ∈ text ".1" := by
  rcases List.mem_append.mp h with h | h
  · exact (List.mem_append.mp h).imp_right .inl
  · exact .inr (.inr h)

def peerTransitIp (subnet : Line) : Option Line := (subnetNumber d subnet).map transitIp

/-- `my_transit_ip`. -/
def Interface.transitIp (iface : Interface) : Line := Peers.transitIp (Nat.toDigits 10 iface.octet)

/-- A column of a row, `NULL` as the empty text. -/
def columnText (v : Option String) : Line := (v.getD "").toList

def Peer.key (p : Peer) : Line := columnText p.wgPubkey
def Peer.endpoint (p : Peer) : Line := columnText p.wgEndpoint
def Peer.subnet (p : Peer) : Line := columnText p.wgBridgeSubnet

/-- The list `allowed`. -/
def allowedIps (subnet : Line) : List Line :=
  (if subnet = [] then [] else [subnet]) ++
    ((peerTransitIp d subnet).map (· ++ text "/32")).toList

/-- `', '.join(allowed)`. -/
def allowedText (subnet : Line) : Line := (text ", ").intercalate (allowedIps d subnet)

/-- The lines of a block. -/
def blockLines (p : Peer) : List Line :=
  [text "[Peer]", text "PublicKey = " ++ p.key,
      text "AllowedIPs = " ++ allowedText d p.subnet] ++
    (if p.endpoint = [] then [] else [text "Endpoint = " ++ p.endpoint])

/-- What a row adds to the lines. -/
def peerLines (p : Peer) : List Line :=
  if p.status ≠ .approved ∨ p.key = [] then []
  else if allowedIps d p.subnet = [] then []
  else blockLines d p ++ [[]]

def ifaceLines (iface : Interface) : List Line :=
  [text "[Interface]", text "Address = " ++ iface.transitIp ++ text "/16",
    text "ListenPort = " ++ Nat.toDigits 10 iface.listenPort,
    text "PrivateKey = " ++ iface.privkey]

def renderConfig (iface : Interface) (peers : List Peer) : Line :=
  joinLines (ifaceLines iface ++ [[]] ++ peers.flatMap (peerLines d))

/-! ### Reading -/

def isSpace (c : Char) : Bool := c = ' ' || (9 ≤ c.toNat && c.toNat ≤ 13)

/-- A line without its comment and its white space. -/
def clean (l : Line) : Line := (l.takeWhile (· != '#')).filter (!isSpace ·)

/-- A line that begins a block. -/
def isHeader (l : Line) : Bool := l.head? = some '['

/-- The blocks of a text, with what stands before the first. -/
def blocks (l : Line) : List (List Line) := sections isHeader (entries clean l)

/-- Names are read without regard to case. -/
def lower (l : Line) : Line := l.map Char.toLower

def peerBlocks (l : Line) : List (List Line) :=
  (blocks l).filter fun b => (b.head?.map lower) = some (text "[peer]")

/-- The values of a name in a block. -/
def values (name : Line) (b : List Line) : List Line :=
  b.filterMap fun l => if name.isPrefixOf (lower l) then some (l.drop name.length) else none

/-- The keys of a block. -/
def keys (b : List Line) : List Line := values (text "publickey=") b

/-- The parts of a list of networks. -/
def words (l : Line) : List Line := if l = [] then [] else l.splitOn ','

/-- A network in the notation that WireGuard takes, with a length and not a mask. -/
def readNetwork (l : Line) : Option IpNetwork :=
  if (l.dropWhile (· != '/')).all fun c => c = '/' || c.isDigit then ipNetworkOfText l else none

/-- The networks of a block; `none` is no network. -/
def networks (b : List Line) : List (Option IpNetwork) :=
  (values (text "allowedips=") b).flatMap fun l => (words l).map readNetwork

/-- The network `192.168.n.0/24`. -/
def bridge (n : ℕ) : IpNetwork where
  version := .v4
  address := (192 * 256 + 168) * 256 * 256 + n * 256
  scope := none
  prefixlen := 24
  prefixlen_le := by decide
  aligned := ⟨(192 * 256 + 168) * 256 + n, by change _ = 256 * _; omega⟩

/-- The network `10.99.n.1/32`. -/
def transit (n : ℕ) : IpNetwork where
  version := .v4
  address := (10 * 256 + 99) * 256 * 256 + n * 256 + 1
  scope := none
  prefixlen := 32
  prefixlen_le := by decide
  aligned := one_dvd _

/-- Two networks have no address in common. -/
def Apart (a b : IpNetwork) : Prop := ∀ v x, a.Holds v x → ¬b.Holds v x

/-- The rows that are written. -/
def Peer.rendered (p : Peer) : Bool := p.status = .approved && p.key ≠ [] && p.subnet ≠ []

/-- The text is unambiguous. -/
structure Unambiguous (iface : Interface) (peers : List Peer) (config : Line) : Prop where
  /-- A block for each row, which says what its lines say. -/
  rows : blocks config = [] :: (ifaceLines iface).map clean ::
    (peers.filter Peer.rendered).map fun p => (blockLines d p).map clean
  keys : (peerBlocks config).Pairwise fun b b' => ∀ k ∈ keys b, k ∉ keys b'
  apart : (peerBlocks config).Pairwise fun b b' =>
    ∀ m n, some m ∈ networks b → some n ∈ networks b' → Apart m n
  own : ∀ b ∈ peerBlocks config, ∀ m, some m ∈ networks b →
    Apart m (bridge iface.octet) ∧ Apart m (transit iface.octet)
  /-- Each network is a bridge's, or the transit address of a bridge of the block. -/
  bridges : ∀ b ∈ peerBlocks config, ∀ m ∈ networks b, ∃ n < 256,
    m = some (bridge n) ∨ (m = some (transit n) ∧ some (bridge n) ∈ networks b)

/-! ### The condition -/

/-- The bridge subnets that a row advertises, by their third octet. -/
def Peer.announced (p : Peer) : List ℕ :=
  (List.range 256).filter fun n => (words (clean p.subnet)).map readNetwork |>.contains (some (bridge n))

/-- No value has a second line; nothing is written after a line end. -/
def Plain (p : Peer) : Prop :=
  OneLine clean p.key ∧ OneLine clean p.endpoint ∧ OneLine clean p.subnet ∧
    ((subnetNumber d p.subnet).isSome → '\n' ∉ p.subnet)

/-- What is advertised is bridge subnets and their transit addresses. -/
def Proper (p : Peer) : Prop :=
  ∀ w ∈ words (clean p.subnet), ∃ n < 256,
    readNetwork w = some (bridge n) ∨ (readNetwork w = some (transit n) ∧ n ∈ p.announced)

/-- The row alone is in order. -/
structure InOrder (octet : ℕ) (p : Peer) : Prop where
  plain : Plain d p
  proper : Proper p
  own : octet ∉ p.announced

/-- Two rows have neither the key nor a subnet in common. -/
def Unalike (p q : Peer) : Prop :=
  clean p.key ≠ clean q.key ∧ ∀ n ∈ p.announced, n ∉ q.announced

/-- The rows that are written are in order and distinct. -/
structure Orderly (octet : ℕ) (peers : List Peer) : Prop where
  each : ∀ p ∈ peers.filter Peer.rendered, InOrder d octet p
  distinct : (peers.filter Peer.rendered).Pairwise Unalike

/-! ### Cleaning -/

section Clean

theorem clean_append {a : Line} (h : '#' ∉ a) (b : Line) : clean (a ++ b) = clean a ++ clean b := by
  have hall : ∀ c ∈ a, (c != '#') = true := fun c hc => by
    rw [bne_iff_ne]
    exact fun heq => h (heq ▸ hc)
  rw [clean, List.takeWhile_append_of_pos hall, List.filter_append]
  congr 1
  rw [clean, List.takeWhile_eq_self_iff.mpr hall]

theorem clean_append_of_mem {a : Line} (h : '#' ∈ a) (b : Line) : clean (a ++ b) = clean a := by
  have hnot : (a.takeWhile (· != '#')).length ≠ a.length := by
    intro hlen
    have heq : a.takeWhile (· != '#') = a :=
      (List.takeWhile_prefix _).eq_of_length hlen
    exact absurd rfl (bne_iff_ne.mp (List.takeWhile_eq_self_iff.mp heq '#' h))
  rw [clean, List.takeWhile_append, if_neg hnot, clean]

/-- A line that ends, and then nothing. -/
theorem clean_append_newline (a : Line) {b : Line} (h : clean b = []) :
    clean (a ++ '\n' :: b) = clean a := by
  by_cases ha : '#' ∈ a
  · exact clean_append_of_mem ha _
  · rw [clean_append ha, ← List.singleton_append, clean_append (by decide), h]
    simp [clean, isSpace]

theorem clean_joinLines {ls : List Line} (h : ∀ l ∈ ls, clean l = []) (a : Line) :
    clean (joinLines (a :: ls)) = clean a := by
  induction ls generalizing a with
  | nil => simp [joinLines, List.intercalate]
  | cons b ls ih =>
    have hb : clean (joinLines (b :: ls)) = [] := by
      rw [ih (fun l hl => h l (List.mem_cons_of_mem b hl)) b]
      exact h b List.mem_cons_self
    rw [joinLines_cons_cons, clean_append_newline a hb]

/-- What a text of one line says is what its first line says. -/
theorem clean_head {l : Line} (h : OneLine clean l) :
    clean ((lines l).head (lines_ne_nil l)) = clean l := by
  have hjoin : joinLines (lines l) = l := List.intercalate_splitOn _
  rw [← clean_joinLines h, List.cons_head_tail, hjoin]

end Clean

/-! ### The blocks -/

section Blocks

variable {d}

/-- A line with a name is read as one entry exactly if its value has one line. -/
theorem entries_named {p v : Line} (hp : '\n' ∉ p) (hclean : '#' ∉ p) (hne : clean p ≠ []) :
    entries clean (p ++ v) = [clean (p ++ v)] ↔ OneLine clean v := by
  have hpv : ∀ l, clean (p ++ l) ≠ [] := fun l => by
    rw [clean_append hclean]
    exact List.append_ne_nil_of_left_ne_nil hne _
  rw [entries_begin hp hpv]
  constructor
  · intro h
    rw [← filter_eq_nil_iff_oneLine]
    exact (List.cons.inj h).2
  · intro h
    rw [filter_eq_nil_iff_oneLine.mpr h, clean_append hclean, clean_head h, ← clean_append hclean]

/-- A line without line end is read as one entry, or none. -/
theorem entries_line {l : Line} (h : '\n' ∉ l) (hne : clean l ≠ []) :
    entries clean l = [clean l] := by
  rw [entries, lines_of_not_mem h, List.map_singleton]
  exact List.filter_cons_of_pos (decide_eq_true hne)

/-- What a recognized subnet looks like. -/
theorem subnetNumber_eq_some {subnet n : Line} (h : subnetNumber d subnet = some n) :
    n ≠ [] ∧ (∀ c ∈ n, d.isDecimal c = true) ∧
      (subnet = text "192.168." ++ n ++ text ".0/24" ∨
        subnet = text "192.168." ++ n ++ text ".0/24" ++ ['\n']) := by
  unfold subnetNumber at h
  split at h
  · cases h
  next rest hrest =>
    unfold after at hrest
    split at hrest
    · next hpre =>
      obtain ⟨rest', hsubnet⟩ := List.isPrefixOf_iff_prefix.mp hpre
      rw [← hsubnet, List.drop_left, Option.some.injEq] at hrest
      subst hrest
      simp only at h
      split at h
      · next hcond =>
        cases h
        refine ⟨hcond.1, fun c hc => List.mem_takeWhile_imp hc, ?_⟩
        rw [← hsubnet]
        rcases hcond.2 with hsuffix | hsuffix
        · left
          rw [List.append_assoc, ← hsuffix, List.takeWhile_append_dropWhile]
        · right
          have hnewline : text ".0/24" ++ ['\n'] = text ".0/24\n" := by with_unfolding_all decide
          rw [List.append_assoc, List.append_assoc, hnewline, ← hsuffix,
            List.takeWhile_append_dropWhile]
      · cases h
    · cases hrest

@[simp] theorem subnetNumber_nil : subnetNumber d [] = none := by
  cases h : subnetNumber d [] with
  | none => rfl
  | some n =>
    obtain ⟨hne, -, hsubnet⟩ := subnetNumber_eq_some h
    rcases hsubnet with hsubnet | hsubnet
    all_goals simp [hne] at hsubnet

theorem not_mem_number {n : Line} (h : ∀ c ∈ n, d.isDecimal c = true) {c : Char}
    (hc : c.toNat < 128) (hdigit : c.isDigit = false) : c ∉ n := by
  intro hmem
  have hdecimal := h c hmem
  rw [d.ascii c hc, hdigit] at hdecimal
  cases hdecimal

theorem allowedText_of_none {subnet : Line} (h : subnetNumber d subnet = none) :
    allowedText d subnet = subnet := by
  rw [allowedText, allowedIps, peerTransitIp, h]
  by_cases hempty : subnet = []
  · rw [hempty]
    rfl
  · rw [if_neg hempty]
    simp

theorem allowedText_of_some {subnet n : Line} (h : subnetNumber d subnet = some n) :
    allowedText d subnet = subnet ++ text ", " ++ (transitIp n ++ text "/32") := by
  have hne : subnet ≠ [] := by
    rintro rfl
    rw [subnetNumber_nil] at h
    cases h
  rw [allowedText, allowedIps, peerTransitIp, h, if_neg hne]
  simp [List.intercalate]

/-- The list of networks is one line if the subnet is, and is not cut off by a line end. -/
theorem oneLine_allowedText {subnet : Line} : OneLine clean (allowedText d subnet) ↔
    OneLine clean subnet ∧ ((subnetNumber d subnet).isSome → '\n' ∉ subnet) := by
  cases h : subnetNumber d subnet with
  | none =>
    rw [allowedText_of_none h]
    exact ⟨fun hline => ⟨hline, nofun⟩, fun hline => hline.1⟩
  | some n =>
    obtain ⟨-, hdecimal, hsubnet⟩ := subnetNumber_eq_some h
    have hn : '\n' ∉ n := not_mem_number hdecimal (by decide) (by decide)
    have htransit : '\n' ∉ transitIp n := fun hmem =>
      (mem_transitIp hmem).elim (by with_unfolding_all decide) fun hmem =>
        hmem.elim hn (by with_unfolding_all decide)
    have htail : '\n' ∉ transitIp n ++ text "/32" := by
      rw [List.mem_append, not_or]
      exact ⟨htransit, by with_unfolding_all decide⟩
    rw [allowedText_of_some h]
    rcases hsubnet with hsubnet | hsubnet
    · have hnot : '\n' ∉ subnet := by
        rw [hsubnet]
        simp only [List.mem_append, not_or]
        exact ⟨⟨by with_unfolding_all decide, hn⟩, by with_unfolding_all decide⟩
      have hwhole : '\n' ∉ subnet ++ text ", " ++ (transitIp n ++ text "/32") := by
        simp only [List.mem_append, not_or] at htail ⊢
        exact ⟨⟨hnot, by with_unfolding_all decide⟩, htail⟩
      refine ⟨fun _ => ⟨?_, fun _ => hnot⟩, fun _ => ?_⟩
      · rw [OneLine, lines_of_not_mem hnot]
        exact fun _ hl => absurd hl List.not_mem_nil
      · rw [OneLine, lines_of_not_mem hwhole]
        exact fun _ hl => absurd hl List.not_mem_nil
    · have hmem : '\n' ∈ subnet := hsubnet ▸ List.mem_append_right _ (List.mem_singleton_self _)
      refine ⟨fun hline => ?_, fun hline => absurd hmem (hline.2 rfl)⟩
      -- what follows the line end is no comment
      have hbefore : '\n' ∉ text "192.168." ++ n ++ text ".0/24" := by
        simp only [List.mem_append, not_or]
        exact ⟨⟨by with_unfolding_all decide, hn⟩, by with_unfolding_all decide⟩
      have hwhole : subnet ++ text ", " ++ (transitIp n ++ text "/32") =
          (text "192.168." ++ n ++ text ".0/24") ++
            '\n' :: (text ", " ++ (transitIp n ++ text "/32")) := by
        rw [hsubnet, List.append_assoc, List.append_assoc]
        rfl
      have hafter : '\n' ∉ text ", " ++ (transitIp n ++ text "/32") := by
        rw [List.mem_append, not_or]
        exact ⟨by with_unfolding_all decide, htail⟩
      rw [OneLine, hwhole, lines_append, lines_of_not_mem hbefore, lines_of_not_mem hafter] at hline
      have hblank := hline _ (List.mem_singleton_self _)
      rw [clean_append (by with_unfolding_all decide)] at hblank
      exact absurd (List.append_eq_nil_iff.mp hblank).1 (by with_unfolding_all decide)

theorem allowedIps_eq_nil {subnet : Line} : allowedIps d subnet = [] ↔ subnet = [] := by
  constructor
  · intro h
    by_contra hne
    rw [allowedIps, if_neg hne] at h
    exact List.cons_ne_nil _ _ h
  · rintro rfl
    rw [allowedIps, peerTransitIp, subnetNumber_nil]
    rfl

theorem peerLines_eq (p : Peer) :
    peerLines d p = if p.rendered then blockLines d p ++ [[]] else [] := by
  unfold peerLines Peer.rendered
  by_cases hstatus : p.status = .approved <;> by_cases hkey : p.key = [] <;>
    by_cases hsubnet : p.subnet = [] <;> simp [hstatus, hkey, hsubnet, allowedIps_eq_nil]

/-- The names of the lines of a block. -/
theorem exists_name {p : Peer} {l : Line} (h : l ∈ blockLines d p) :
    ∃ name v, l = name ++ v ∧ '\n' ∉ name ∧ '#' ∉ name ∧ clean name ≠ [] := by
  rcases List.mem_append.mp h with h | h
  · simp only [List.mem_cons, List.not_mem_nil, or_false] at h
    rcases h with rfl | rfl | rfl
    · exact ⟨text "[Peer]", [], (List.append_nil _).symm, by with_unfolding_all decide⟩
    · exact ⟨text "PublicKey = ", _, rfl, by with_unfolding_all decide⟩
    · exact ⟨text "AllowedIPs = ", _, rfl, by with_unfolding_all decide⟩
  · split at h
    · cases h
    · rw [List.mem_singleton.mp h]
      exact ⟨text "Endpoint = ", _, rfl, by with_unfolding_all decide⟩

theorem clean_named {name : Line} (h : '#' ∉ name) (hne : clean name ≠ []) (v : Line) :
    clean (name ++ v) ≠ [] := by
  rw [clean_append h]
  exact List.append_ne_nil_of_left_ne_nil hne _

/-- The lines of a block are read one by one exactly if the row is plain. -/
theorem entries_blockLines (p : Peer) :
    (∀ l ∈ blockLines d p, entries clean l = [clean l]) ↔ Plain d p := by
  have hheader : entries clean (text "[Peer]") = [clean (text "[Peer]")] := by with_unfolding_all decide
  have hkey := entries_named (p := text "PublicKey = ") (v := p.key) (by with_unfolding_all decide)
    (by with_unfolding_all decide) (by with_unfolding_all decide)
  have hallowed := entries_named (p := text "AllowedIPs = ") (v := allowedText d p.subnet)
    (by with_unfolding_all decide) (by with_unfolding_all decide) (by with_unfolding_all decide)
  have hendpoint := entries_named (p := text "Endpoint = ") (v := p.endpoint) (by with_unfolding_all decide)
    (by with_unfolding_all decide) (by with_unfolding_all decide)
  have hend : (∀ l ∈ if p.endpoint = [] then [] else [text "Endpoint = " ++ p.endpoint],
      entries clean l = [clean l]) ↔ OneLine clean p.endpoint := by
    split
    · next hempty =>
      rw [hempty]
      exact ⟨fun _ => fun _ hl => absurd hl List.not_mem_nil, fun _ => fun _ hl => absurd hl List.not_mem_nil⟩
    · rw [List.forall_mem_singleton, hendpoint]
  unfold blockLines
  rw [List.forall_mem_append, hend, List.forall_mem_cons, List.forall_mem_cons,
    List.forall_mem_singleton, hkey, hallowed, oneLine_allowedText, Plain]
  constructor
  · rintro ⟨⟨-, hk, hs, hcut⟩, he⟩
    exact ⟨hk, he, hs, hcut⟩
  · rintro ⟨hk, he, hs, hcut⟩
    exact ⟨⟨hheader, hk, hs, hcut⟩, he⟩

theorem not_mem_toDigits {c : Char} (hc : c.isDigit = false) (n : ℕ) : c ∉ Nat.toDigits 10 n := by
  intro h
  rw [Nat.isDigit_of_mem_toDigits (by decide) (by decide) h] at hc
  cases hc

/-- The lines of the interface are lines. -/
theorem entries_ifaceLines {iface : Interface} {l : Line} (h : l ∈ ifaceLines iface) :
    entries clean l = [clean l] := by
  have hoctet : '\n' ∉ iface.transitIp := fun hmem =>
    (mem_transitIp hmem).elim (by with_unfolding_all decide) fun hmem =>
      hmem.elim (not_mem_toDigits (by decide) _) (by with_unfolding_all decide)
  have hnamed : ∀ name v : Line, '\n' ∉ name ∧ '#' ∉ name ∧ clean name ≠ [] → '\n' ∉ v →
      entries clean (name ++ v) = [clean (name ++ v)] := by
    intro name v ⟨hline, hcomment, hne⟩ hv
    refine entries_line ?_ (clean_named hcomment hne v)
    rw [List.mem_append, not_or]
    exact ⟨hline, hv⟩
  simp only [ifaceLines, List.mem_cons, List.not_mem_nil, or_false] at h
  rcases h with rfl | rfl | rfl | rfl
  · with_unfolding_all decide
  · rw [List.append_assoc]
    refine hnamed _ _ (by with_unfolding_all decide) ?_
    rw [List.mem_append, not_or]
    exact ⟨hoctet, by with_unfolding_all decide⟩
  · exact hnamed _ _ (by with_unfolding_all decide) (not_mem_toDigits (by decide) _)
  · exact hnamed _ _ (by with_unfolding_all decide) iface.privkey_line

/-- What is read of the text. -/
theorem entries_renderConfig (iface : Interface) (peers : List Peer) :
    entries clean (renderConfig d iface peers) = (ifaceLines iface).map clean ++
      ((peers.filter Peer.rendered).flatMap (blockLines d)).flatMap (entries clean) := by
  have hpeers : (peers.flatMap (peerLines d)).flatMap (entries clean) =
      ((peers.filter Peer.rendered).flatMap (blockLines d)).flatMap (entries clean) := by
    induction peers with
    | nil => rfl
    | cons p peers ih =>
      have hblank : entries clean [] = [] := rfl
      rw [List.flatMap_cons, List.flatMap_append, ih, peerLines_eq, List.filter_cons]
      split
      · rw [List.flatMap_append, List.flatMap_singleton, hblank, List.append_nil,
          List.flatMap_cons, List.flatMap_append]
      · rfl
  have hiface : (ifaceLines iface ++ [[]]).flatMap (entries clean) =
      (ifaceLines iface).map clean := by
    have hblank : entries clean [] = [] := rfl
    rw [List.flatMap_append, List.flatMap_singleton, hblank, List.append_nil,
      flatMap_eq_map_iff fun l hl => by rw [entries_ifaceLines hl]; exact List.cons_ne_nil _ _]
    exact fun l hl => entries_ifaceLines hl
  have hne : ifaceLines iface ++ [[]] ++ peers.flatMap (peerLines d) ≠ [] := List.cons_ne_nil _ _
  rw [renderConfig, entries_join clean hne, List.flatMap_append, hpeers, hiface]

theorem isHeader_named {name : Line} (h : '#' ∉ name) (hne : clean name ≠ []) (v : Line) :
    isHeader (clean (name ++ v)) = isHeader (clean name) := by
  obtain ⟨c, cs, hname⟩ := List.exists_cons_of_ne_nil hne
  rw [isHeader, clean_append h, hname]
  rfl

/-- A name that begins a line, and no block. -/
def IsName (name : Line) : Prop := '#' ∉ name ∧ clean name ≠ [] ∧ isHeader (clean name) = false

instance (name : Line) : Decidable (IsName name) :=
  inferInstanceAs (Decidable (_ ∧ _ ∧ _))

/-- Only the first line of what is written for the interface or a row is a header. -/
theorem headers_of_block {names : List (Line × Line)} (h : ∀ x ∈ names, IsName x.1) {header : Line}
    (hheader : isHeader (clean header) = true) :
    ∃ l body, (header :: names.map fun x => x.1 ++ x.2).map clean = l :: body ∧
      isHeader l = true ∧ ∀ l' ∈ body, isHeader l' = false := by
  refine ⟨_, _, List.map_cons, hheader, fun l hl => ?_⟩
  obtain ⟨_, hmem, rfl⟩ := List.mem_map.mp hl
  obtain ⟨x, hx, rfl⟩ := List.mem_map.mp hmem
  obtain ⟨hcomment, hne, hnot⟩ := h x hx
  rw [isHeader_named hcomment hne, hnot]

theorem headers_ifaceLines (iface : Interface) :
    ∃ l body, (ifaceLines iface).map clean = l :: body ∧
      isHeader l = true ∧ ∀ l' ∈ body, isHeader l' = false := by
  have hiface : ifaceLines iface = text "[Interface]" :: List.map (fun x : Line × Line => x.1 ++ x.2)
      [(text "Address = ", iface.transitIp ++ text "/16"),
        (text "ListenPort = ", Nat.toDigits 10 iface.listenPort),
        (text "PrivateKey = ", iface.privkey)] := by
    rw [ifaceLines, List.append_assoc]
    rfl
  have haddress : IsName (text "Address = ") := by with_unfolding_all decide
  have hport : IsName (text "ListenPort = ") := by with_unfolding_all decide
  have hkey : IsName (text "PrivateKey = ") := by with_unfolding_all decide
  rw [hiface]
  refine headers_of_block ?_ (by with_unfolding_all decide)
  rw [List.forall_mem_cons, List.forall_mem_cons, List.forall_mem_singleton]
  exact ⟨haddress, hport, hkey⟩

theorem headers_blockLines (p : Peer) :
    ∃ l body, (blockLines d p).map clean = l :: body ∧
      isHeader l = true ∧ ∀ l' ∈ body, isHeader l' = false := by
  have hblock : blockLines d p = text "[Peer]" :: List.map (fun x : Line × Line => x.1 ++ x.2)
      ([(text "PublicKey = ", p.key), (text "AllowedIPs = ", allowedText d p.subnet)] ++
        if p.endpoint = [] then [] else [(text "Endpoint = ", p.endpoint)]) := by
    unfold blockLines
    split <;> rfl
  have hkey : IsName (text "PublicKey = ") := by with_unfolding_all decide
  have hallowed : IsName (text "AllowedIPs = ") := by with_unfolding_all decide
  have hendpoint : IsName (text "Endpoint = ") := by with_unfolding_all decide
  rw [hblock]
  refine headers_of_block ?_ (by with_unfolding_all decide)
  rw [List.forall_mem_append, List.forall_mem_cons, List.forall_mem_singleton]
  refine ⟨⟨hkey, hallowed⟩, fun x hx => ?_⟩
  split at hx
  · cases hx
  · rw [List.mem_singleton.mp hx]
    exact hendpoint

/-- **The blocks are those of the rows exactly if no value breaks its line.** -/
theorem blocks_renderConfig (iface : Interface) (peers : List Peer) :
    blocks (renderConfig d iface peers) = [] :: (ifaceLines iface).map clean ::
        (peers.filter Peer.rendered).map (fun p => (blockLines d p).map clean) ↔
      ∀ p ∈ peers.filter Peer.rendered, Plain d p := by
  generalize hrows : peers.filter Peer.rendered = rows
  -- every line of a block has an entry at least
  have hpos : ∀ l ∈ rows.flatMap (blockLines d), entries clean l ≠ [] := by
    intro l hl
    obtain ⟨p, -, hl⟩ := List.mem_flatMap.mp hl
    obtain ⟨name, v, rfl, hline, hcomment, hne⟩ := exists_name hl
    exact entries_begin_ne_nil hline (clean_named hcomment hne)
  -- so as many entries as lines means one entry for each
  have heach : (rows.flatMap (blockLines d)).flatMap (entries clean) =
      (rows.flatMap (blockLines d)).map clean ↔ ∀ p ∈ rows, Plain d p := by
    rw [flatMap_eq_map_iff hpos]
    constructor
    · intro h p hp
      exact (entries_blockLines p).mp fun l hl => h l (List.mem_flatMap.mpr ⟨p, hp, hl⟩)
    · intro h l hl
      obtain ⟨p, hp, hl⟩ := List.mem_flatMap.mp hl
      exact (entries_blockLines p).mpr (h p hp) l hl
  have hflat : (rows.map fun p => (blockLines d p).map clean).flatten =
      (rows.flatMap (blockLines d)).map clean := by
    rw [← List.flatMap_def, List.map_flatMap]
  rw [← heach, blocks, entries_renderConfig, hrows]
  constructor
  · intro h
    have hflatten := congrArg List.flatten h
    rw [flatten_sections, List.flatten_cons, List.flatten_cons, List.nil_append, hflat] at hflatten
    exact List.append_cancel_left hflatten
  · intro h
    rw [h, ← hflat]
    -- every block begins with the only header in it
    have hheaders : ∀ b ∈ (ifaceLines iface).map clean :: rows.map fun p => (blockLines d p).map clean,
        ∃ l body, b = l :: body ∧ isHeader l = true ∧ ∀ l' ∈ body, isHeader l' = false := by
      rw [List.forall_mem_cons]
      refine ⟨headers_ifaceLines iface, fun b hb => ?_⟩
      obtain ⟨p, -, rfl⟩ := List.mem_map.mp hb
      exact headers_blockLines p
    exact sections_flatten hheaders

end Blocks

/-! ### The values of a block -/

section Values

variable {d}

theorem values_cons_of_name {name a : Line} (h : lower a = name) (v : Line) (b : List Line) :
    values name ((a ++ v) :: b) = v :: values name b := by
  have hpre : name.isPrefixOf (lower (a ++ v)) = true := by
    rw [List.isPrefixOf_iff_prefix, lower, List.map_append, ← lower, h]
    exact List.prefix_append _ _
  have hlength : name.length = a.length := by rw [← h, lower, List.length_map]
  rw [values, List.filterMap_cons, if_pos hpre, List.drop_left' hlength.symm]
  rfl

/-- A line whose name begins otherwise. -/
theorem values_cons_of_ne {name a : Line} (h : (a ≠ [] ∧ name ≠ []) ∧ name.head? ≠ (lower a).head?)
    (v : Line) (b : List Line) :
    values name ((a ++ v) :: b) = values name b := by
  have hpre : name.isPrefixOf (lower (a ++ v)) = false := by
    obtain ⟨c, a, rfl⟩ := List.exists_cons_of_ne_nil h.1.1
    obtain ⟨c', name, rfl⟩ := List.exists_cons_of_ne_nil h.1.2
    rw [List.cons_append, lower, List.map_cons, List.isPrefixOf_cons_cons, Bool.and_eq_false_iff]
    exact .inl (beq_eq_false_iff_ne.mpr fun heq => h.2 (congrArg some heq))
  rw [values, List.filterMap_cons, hpre]
  rfl

/-- A block as it is read. -/
theorem map_clean_blockLines (p : Peer) : (blockLines d p).map clean =
    [text "[Peer]" ++ [], text "PublicKey=" ++ clean p.key,
        text "AllowedIPs=" ++ clean (allowedText d p.subnet)] ++
      (if p.endpoint = [] then [] else [text "Endpoint=" ++ clean p.endpoint]) := by
  have hpeer : clean (text "[Peer]") = text "[Peer]" ++ [] := by with_unfolding_all decide
  have hkey : clean (text "PublicKey = ") = text "PublicKey=" := by with_unfolding_all decide
  have hallowed : clean (text "AllowedIPs = ") = text "AllowedIPs=" := by with_unfolding_all decide
  have hendpoint : clean (text "Endpoint = ") = text "Endpoint=" := by with_unfolding_all decide
  rw [blockLines, List.map_append, List.map_cons, List.map_cons, List.map_singleton, hpeer,
    clean_append (by with_unfolding_all decide), clean_append (by with_unfolding_all decide), hkey, hallowed]
  split
  · rfl
  · rw [List.map_singleton, clean_append (by with_unfolding_all decide), hendpoint]

/-- The key of a block is that of the row. -/
theorem keys_block (p : Peer) : keys ((blockLines d p).map clean) = [clean p.key] := by
  rw [map_clean_blockLines, keys, List.cons_append, List.cons_append, List.cons_append,
    values_cons_of_ne (by with_unfolding_all decide),
    values_cons_of_name (by with_unfolding_all decide),
    values_cons_of_ne (by with_unfolding_all decide), List.nil_append]
  split
  · rfl
  · rw [values_cons_of_ne (by with_unfolding_all decide)]
    rfl

/-- The networks of a block are those of the row. -/
theorem networks_block (p : Peer) : networks ((blockLines d p).map clean) =
    (words (clean (allowedText d p.subnet))).map readNetwork := by
  have hvalues : values (text "allowedips=") ((blockLines d p).map clean) =
      [clean (allowedText d p.subnet)] := by
    rw [map_clean_blockLines, List.cons_append, List.cons_append, List.cons_append,
      values_cons_of_ne (by with_unfolding_all decide),
      values_cons_of_ne (by with_unfolding_all decide),
      values_cons_of_name (by with_unfolding_all decide), List.nil_append]
    split
    · rfl
    · rw [values_cons_of_ne (by with_unfolding_all decide)]
      rfl
  rw [networks, hvalues, List.flatMap_singleton]

/-- The blocks of peers are those of the rows. -/
theorem peerBlocks_of_blocks {iface : Interface} {rows : List Peer} {config : Line}
    (h : blocks config = [] :: (ifaceLines iface).map clean ::
      rows.map fun p => (blockLines d p).map clean) :
    peerBlocks config = rows.map fun p => (blockLines d p).map clean := by
  have hiface : lower (clean (text "[Interface]")) ≠ text "[peer]" := by with_unfolding_all decide
  have hpeer : lower (text "[Peer]" ++ []) = text "[peer]" := by with_unfolding_all decide
  have hrows : ∀ b ∈ rows.map fun p => (blockLines d p).map clean,
      decide (b.head?.map lower = some (text "[peer]")) = true := by
    intro b hb
    obtain ⟨p, -, rfl⟩ := List.mem_map.mp hb
    rw [map_clean_blockLines]
    exact decide_eq_true (congrArg some hpeer)
  rw [peerBlocks, h, List.filter_cons_of_neg (by rintro ⟨⟩), List.filter_cons_of_neg,
    List.filter_eq_self.mpr hrows]
  intro hhead
  exact hiface (Option.some.inj (of_decide_eq_true hhead))

end Values

/-! ### Networks -/

section Networks

variable {d}

theorem holds_bridge {n : ℕ} {v : IpVersion} {x : ℕ} : (bridge n).Holds v x ↔
    v = .v4 ∧ (192 * 256 + 168) * 256 * 256 + n * 256 ≤ x ∧
      x ≤ (192 * 256 + 168) * 256 * 256 + n * 256 + 255 := by
  rfl

theorem holds_transit {n : ℕ} {v : IpVersion} {x : ℕ} : (transit n).Holds v x ↔
    v = .v4 ∧ (10 * 256 + 99) * 256 * 256 + n * 256 + 1 ≤ x ∧
      x ≤ (10 * 256 + 99) * 256 * 256 + n * 256 + 1 := by
  rfl

theorem apart_bridge {m n : ℕ} : Apart (bridge m) (bridge n) ↔ m ≠ n := by
  constructor
  · rintro h rfl
    exact h .v4 _ (holds_bridge.mpr ⟨rfl, le_rfl, by omega⟩) (holds_bridge.mpr ⟨rfl, le_rfl, by omega⟩)
  · intro hne v x hm hn
    rw [holds_bridge] at hm hn
    omega

theorem apart_transit {m n : ℕ} (h : m ≠ n) : Apart (transit m) (transit n) := by
  intro v x hm hn
  rw [holds_transit] at hm hn
  omega

theorem apart_bridge_transit {m n : ℕ} (hn : n < 256) : Apart (bridge m) (transit n) := by
  intro v x hm ht
  rw [holds_bridge] at hm
  rw [holds_transit] at ht
  omega

theorem Apart.symm {a b : IpNetwork} (h : Apart a b) : Apart b a := fun v x hb ha => h v x ha hb

/-- A text that holds none of the characters with a meaning in an address. -/
def Plainly (l : Line) : Prop := '.' ∉ l ∧ '/' ∉ l ∧ '%' ∉ l ∧ ':' ∉ l

instance (l : Line) : Decidable (Plainly l) := inferInstanceAs (Decidable (_ ∧ _ ∧ _ ∧ _))

/-- An IPv4 network whose third octet is a text. -/
theorem readNetwork_octet {a b o c m : Line} {x y z : ℕ} (ho : Plainly o)
    (ha : Plainly a ∧ parseOctet a = some x) (hb : Plainly b ∧ parseOctet b = some y)
    (hc : Plainly c ∧ parseOctet c = some z) (hm : '/' ∉ m ∧ m.all Char.isDigit = true) :
    readNetwork (a ++ '.' :: (b ++ '.' :: (o ++ '.' :: (c ++ '/' :: m)))) =
      (parseOctet o).bind fun k =>
        makeNetwork .v4 (((x * 256 + y) * 256 + k) * 256 + z) none (some m) := by
  obtain ⟨⟨ha1, ha2, ha3, ha4⟩, hax⟩ := ha
  obtain ⟨⟨hb1, hb2, hb3, hb4⟩, hby⟩ := hb
  obtain ⟨⟨hc1, hc2, hc3, hc4⟩, hcz⟩ := hc
  obtain ⟨ho1, ho2, ho3, ho4⟩ := ho
  have haddr : a ++ '.' :: (b ++ '.' :: (o ++ '.' :: (c ++ '/' :: m))) =
      (a ++ '.' :: (b ++ '.' :: (o ++ '.' :: c))) ++ '/' :: m := by simp
  have hslash : '/' ∉ a ++ '.' :: (b ++ '.' :: (o ++ '.' :: c)) := by
    simp [ha2, hb2, ho2, hc2]
  have hpercent : '%' ∉ a ++ '.' :: (b ++ '.' :: (o ++ '.' :: c)) := by
    simp [ha3, hb3, ho3, hc3]
  have hcolon : ':' ∉ a ++ '.' :: (b ++ '.' :: (o ++ '.' :: c)) := by
    simp [ha4, hb4, ho4, hc4]
  -- the address is its four octets
  have hoctets : (a ++ '.' :: (b ++ '.' :: (o ++ '.' :: c))).splitOn '.' = [a, b, o, c] := by
    rw [List.splitOn_append_cons_self, List.splitOn_append_cons_self,
      List.splitOn_append_cons_self, List.splitOn_eq_singleton ha1, List.splitOn_eq_singleton hb1,
      List.splitOn_eq_singleton ho1, List.splitOn_eq_singleton hc1]
    rfl
  generalize hl : a ++ '.' :: (b ++ '.' :: (o ++ '.' :: c)) = addr at *
  have hdrop : (addr ++ '/' :: m).dropWhile (· != '/') = '/' :: m := by
    rw [List.dropWhile_append_of_pos fun c hc => ?_]
    · rfl
    · exact bne_iff_ne.mpr fun heq => hslash (heq ▸ hc)
  have hguard : (('/' :: m).all fun c => c = '/' || c.isDigit) = true := by
    rw [List.all_cons, Bool.and_eq_true]
    exact ⟨rfl, List.all_eq_true.mpr fun c hc => by simp [List.all_eq_true.mp hm.2 c hc]⟩
  have hsplit : (addr ++ '/' :: m).splitOn '/' = [addr, m] := by
    rw [List.splitOn_append_cons_self, List.splitOn_eq_singleton hslash,
      List.splitOn_eq_singleton hm.1]
    rfl
  have hv4 : ipv4FromString addr =
      (parseOctet o).map fun k => ((x * 256 + y) * 256 + k) * 256 + z := by
    rw [ipv4FromString, hoctets]
    cases ho : parseOctet o <;> simp [hax, hby, hcz, ho]
  -- without a colon it is no IPv6
  have hv6 : ipv6Network addr (some m) = none := by
    rw [ipv6Network, splitScopeId, List.splitOn_eq_singleton hpercent]
    simp [ipv6FromString, List.splitOn_eq_singleton hcolon]
  rw [haddr, readNetwork, hdrop, if_pos hguard, ipNetworkOfText, hsplit]
  simp only [hv6, ipv4Network, hv4]
  cases parseOctet o <;> simp

/-- The network of its own first address. -/
theorem mask_address {n : IpNetwork} (h : n.scope = none) :
    IpNetwork.mask n.version n.address none n.prefixlen n.prefixlen_le = n := by
  obtain ⟨v, address, scope, prefixlen, hle, haligned⟩ := n
  subst h
  rw [IpNetwork.mask, IpNetwork.mk.injEq]
  exact ⟨rfl, Nat.div_mul_cancel haligned, ite_self none, rfl⟩

theorem makeNetwork_bridge (k : ℕ) :
    makeNetwork .v4 (((192 * 256 + 168) * 256 + k) * 256 + 0) none (some (text "24")) =
      some (bridge k) := by
  have hmask : makeNetmask .v4 (some (text "24")) = some 24 := by with_unfolding_all decide
  have haddress : ((192 * 256 + 168) * 256 + k) * 256 + 0 = (bridge k).address := by
    change _ = (192 * 256 + 168) * 256 * 256 + k * 256
    omega
  rw [makeNetwork, hmask, haddress]
  simp only [Option.bind_eq_bind, Option.bind_some]
  rw [dif_pos (by decide)]
  exact congrArg some (mask_address (n := bridge k) rfl)

theorem makeNetwork_transit (k : ℕ) :
    makeNetwork .v4 (((10 * 256 + 99) * 256 + k) * 256 + 1) none (some (text "32")) =
      some (transit k) := by
  have hmask : makeNetmask .v4 (some (text "32")) = some 32 := by with_unfolding_all decide
  have haddress : ((10 * 256 + 99) * 256 + k) * 256 + 1 = (transit k).address := by
    change _ = (10 * 256 + 99) * 256 * 256 + k * 256 + 1
    omega
  rw [makeNetwork, hmask, haddress]
  simp only [Option.bind_eq_bind, Option.bind_some]
  rw [dif_pos (by decide)]
  exact congrArg some (mask_address (n := transit k) rfl)

theorem plainly_number {n : Line} (h : ∀ c ∈ n, d.isDecimal c = true) : Plainly n :=
  ⟨not_mem_number h (by decide) (by decide), not_mem_number h (by decide) (by decide),
    not_mem_number h (by decide) (by decide), not_mem_number h (by decide) (by decide)⟩

/-- A recognized subnet is a bridge's, or no network. -/
theorem readNetwork_subnet {n : Line} (h : ∀ c ∈ n, d.isDecimal c = true) :
    readNetwork (text "192.168." ++ n ++ text ".0/24") = (parseOctet n).map bridge := by
  have hparts : text "192.168." ++ n ++ text ".0/24" =
      text "192" ++ '.' :: (text "168" ++ '.' :: (n ++ '.' :: (text "0" ++ '/' :: text "24"))) := by
    have hleft : text "192.168." = text "192" ++ '.' :: (text "168" ++ ['.']) := by with_unfolding_all decide
    have hright : text ".0/24" = '.' :: (text "0" ++ '/' :: text "24") := by with_unfolding_all decide
    simp [hleft, hright]
  have hread := readNetwork_octet (a := text "192") (b := text "168") (c := text "0") (m := text "24")
    (x := 192) (y := 168) (z := 0) (plainly_number h)
    (by with_unfolding_all decide) (by with_unfolding_all decide)
    (by with_unfolding_all decide) (by with_unfolding_all decide)
  rw [hparts, hread]
  cases parseOctet n with
  | none => rfl
  | some k => exact makeNetwork_bridge k

/-- And its transit address is that of the bridge. -/
theorem readNetwork_transitIp {n : Line} (h : ∀ c ∈ n, d.isDecimal c = true) :
    readNetwork (transitIp n ++ text "/32") = (parseOctet n).map transit := by
  have hparts : transitIp n ++ text "/32" =
      text "10" ++ '.' :: (text "99" ++ '.' :: (n ++ '.' :: (text "1" ++ '/' :: text "32"))) := by
    have hleft : text "10.99." = text "10" ++ '.' :: (text "99" ++ ['.']) := by with_unfolding_all decide
    have hright : text ".1" = '.' :: text "1" := by with_unfolding_all decide
    have hmask : text "/32" = '/' :: text "32" := by with_unfolding_all decide
    simp [transitIp, hleft, hright, hmask]
  have hread := readNetwork_octet (a := text "10") (b := text "99") (c := text "1") (m := text "32")
    (x := 10) (y := 99) (z := 1) (plainly_number h)
    (by with_unfolding_all decide) (by with_unfolding_all decide)
    (by with_unfolding_all decide) (by with_unfolding_all decide)
  rw [hparts, hread]
  cases parseOctet n with
  | none => rfl
  | some k => exact makeNetwork_transit k

theorem clean_eq_self {l : Line} (h : ∀ c ∈ l, c ≠ '#' ∧ isSpace c = false) : clean l = l := by
  have hall : ∀ c ∈ l, (c != '#') = true := fun c hc => bne_iff_ne.mpr (h c hc).1
  rw [clean, List.takeWhile_eq_self_iff.mpr hall, List.filter_eq_self]
  exact fun c hc => by rw [(h c hc).2]; rfl

/-- Digits are no white space. -/
theorem number_clean {n : Line} (h : ∀ c ∈ n, d.isDecimal c = true) :
    ∀ c ∈ n, c ≠ '#' ∧ isSpace c = false := by
  intro c hc
  refine ⟨fun heq => not_mem_number h (by decide) (by decide) (heq ▸ hc), ?_⟩
  by_contra hspace
  rw [Bool.not_eq_false, isSpace, Bool.or_eq_true, Bool.and_eq_true, decide_eq_true_eq,
    decide_eq_true_eq, decide_eq_true_eq] at hspace
  have hsmall : c.toNat < 48 := by
    rcases hspace with rfl | hspace
    · decide
    · omega
  have hdigit : c.isDigit = false := by
    rw [Char.isDigit, Bool.and_eq_false_iff]
    left
    rw [decide_eq_false_iff_not, ge_iff_le, UInt32.le_iff_toNat_le]
    exact Nat.not_le.mpr hsmall
  exact not_mem_number h (by omega) hdigit hc

theorem words_pair {a b : Line} (ha : ',' ∉ a) (hb : ',' ∉ b) : words (a ++ ',' :: b) = [a, b] := by
  have hne : a ++ ',' :: b ≠ [] := List.append_ne_nil_of_right_ne_nil _ (List.cons_ne_nil _ _)
  rw [words, if_neg hne, List.splitOn_append_cons_self, List.splitOn_eq_singleton ha,
    List.splitOn_eq_singleton hb]
  rfl

theorem words_single {a : Line} (hne : a ≠ []) (ha : ',' ∉ a) : words a = [a] := by
  rw [words, if_neg hne, List.splitOn_eq_singleton ha]

/-- What the list of a row's networks holds beside those of its subnet. -/
def derived (d : Decimal) (subnet : Line) : List (Option IpNetwork) :=
  match subnetNumber d subnet with
  | none => []
  | some n => [(parseOctet n).map transit]

/-- A subnet that is recognized, and not cut off. -/
theorem subnet_of_plain {p : Peer} {n : Line} (h : Plain d p)
    (hn : subnetNumber d p.subnet = some n) : (∀ c ∈ n, d.isDecimal c = true) ∧
      p.subnet = text "192.168." ++ n ++ text ".0/24" ∧ clean p.subnet = p.subnet ∧
        ',' ∉ p.subnet := by
  obtain ⟨-, hdecimal, hsubnet⟩ := subnetNumber_eq_some hn
  have hwhole : p.subnet = text "192.168." ++ n ++ text ".0/24" := by
    refine hsubnet.resolve_right fun hend => h.2.2.2 (hn ▸ rfl) ?_
    rw [hend]
    exact List.mem_append_right _ (List.mem_singleton_self _)
  have hleft : ∀ c ∈ text "192.168.", c ≠ '#' ∧ isSpace c = false := by with_unfolding_all decide
  have hright : ∀ c ∈ text ".0/24", c ≠ '#' ∧ isSpace c = false := by with_unfolding_all decide
  refine ⟨hdecimal, hwhole, clean_eq_self fun c hc => ?_, ?_⟩
  · rw [hwhole] at hc
    rcases List.mem_append.mp hc with hc | hc
    · exact (List.mem_append.mp hc).elim (hleft c) (number_clean hdecimal c)
    · exact hright c hc
  · rw [hwhole, List.mem_append, List.mem_append, not_or, not_or]
    exact ⟨⟨by with_unfolding_all decide, not_mem_number hdecimal (by decide) (by decide)⟩,
      by with_unfolding_all decide⟩

/-- The list of a row's networks. -/
theorem networks_of_plain {p : Peer} (h : Plain d p) :
    networks ((blockLines d p).map clean) =
      (words (clean p.subnet)).map readNetwork ++ derived d p.subnet := by
  rw [networks_block, derived]
  cases hn : subnetNumber d p.subnet with
  | none => rw [allowedText_of_none hn, List.append_nil]
  | some n =>
    obtain ⟨hdecimal, hwhole, hclean, hcomma⟩ := subnet_of_plain h hn
    have hleft : ∀ c ∈ text "10.99.", c ≠ '#' ∧ isSpace c = false := by with_unfolding_all decide
    have hright : ∀ c ∈ text ".1" ++ text "/32", c ≠ '#' ∧ isSpace c = false := by
      with_unfolding_all decide
    have htransit : clean (transitIp n ++ text "/32") = transitIp n ++ text "/32" := by
      refine clean_eq_self fun c hc => ?_
      rw [transitIp, List.append_assoc, List.append_assoc] at hc
      rcases List.mem_append.mp hc with hc | hc
      · exact hleft c hc
      · exact (List.mem_append.mp hc).elim (number_clean hdecimal c) (hright c)
    -- the transit address is one word
    have hcomma' : ',' ∉ transitIp n ++ text "/32" := by
      rw [List.mem_append, not_or]
      refine ⟨fun hmem => ?_, by with_unfolding_all decide⟩
      exact (mem_transitIp hmem).elim (by with_unfolding_all decide) fun hmem =>
        hmem.elim (not_mem_number hdecimal (by decide) (by decide)) (by with_unfolding_all decide)
    have hcut : clean (text ", ") = [','] := by with_unfolding_all decide
    have hcomment : '#' ∉ p.subnet := by
      rw [hwhole, List.mem_append, List.mem_append, not_or, not_or]
      exact ⟨⟨by with_unfolding_all decide, not_mem_number hdecimal (by decide) (by decide)⟩,
        by with_unfolding_all decide⟩
    have hne : p.subnet ≠ [] := by
      rw [hwhole]
      exact List.append_ne_nil_of_right_ne_nil _ (by with_unfolding_all decide)
    rw [allowedText_of_some hn, List.append_assoc, clean_append hcomment,
      clean_append (by with_unfolding_all decide), hclean, hcut, htransit, List.singleton_append,
      words_pair hcomma hcomma', words_single hne hcomma, List.map_cons, List.map_singleton,
      readNetwork_transitIp hdecimal]
    rfl

theorem mem_announced {p : Peer} {n : ℕ} : n ∈ p.announced ↔
    n < 256 ∧ some (bridge n) ∈ (words (clean p.subnet)).map readNetwork := by
  rw [Peer.announced, List.mem_filter, List.mem_range, List.contains_iff_mem]

theorem bridge_injective {m n : ℕ} (h : bridge m = bridge n) : m = n := by
  have haddress := congrArg IpNetwork.address h
  change _ + m * 256 = _ + n * 256 at haddress
  omega

theorem bridge_ne_transit (m n : ℕ) : bridge m ≠ transit n := fun h =>
  absurd (congrArg IpNetwork.prefixlen h) (by decide : ¬(24 = 32))

/-- What is derived is no bridge, and if the subnet is one, its transit address. -/
theorem derived_eq {p : Peer} (h : Plain d p) {m : Option IpNetwork} (hm : m ∈ derived d p.subnet) :
    ∃ o : Option ℕ, m = o.map transit ∧ (words (clean p.subnet)).map readNetwork = [o.map bridge] := by
  unfold derived at hm
  cases hn : subnetNumber d p.subnet with
  | none =>
    rw [hn] at hm
    cases hm
  | some n =>
    rw [hn] at hm
    obtain ⟨hdecimal, hwhole, hclean, hcomma⟩ := subnet_of_plain h hn
    have hne : p.subnet ≠ [] := by
      rw [hwhole]
      exact List.append_ne_nil_of_right_ne_nil _ (by with_unfolding_all decide)
    refine ⟨parseOctet n, List.mem_singleton.mp hm, ?_⟩
    rw [hclean, words_single hne hcomma, List.map_singleton, ← readNetwork_subnet hdecimal, hwhole]

/-- A bridge of the block is one that is announced. -/
theorem bridge_mem_networks {p : Peer} (h : Plain d p) {n : ℕ} (hn : n < 256) :
    some (bridge n) ∈ networks ((blockLines d p).map clean) ↔ n ∈ p.announced := by
  rw [networks_of_plain h, List.mem_append, mem_announced]
  constructor
  · rintro (hmem | hmem)
    · exact ⟨hn, hmem⟩
    · obtain ⟨o, ho, -⟩ := derived_eq h hmem
      obtain ⟨k, -, hk⟩ := Option.map_eq_some_iff.mp ho.symm
      exact absurd hk.symm (bridge_ne_transit n k)
  · exact fun hmem => .inl hmem.2

/-- The networks of a block are bridges and their transit addresses exactly if what is
advertised is. -/
theorem bridges_iff {p : Peer} (h : Plain d p) :
    (∀ m ∈ networks ((blockLines d p).map clean), ∃ n < 256, m = some (bridge n) ∨
      (m = some (transit n) ∧ some (bridge n) ∈ networks ((blockLines d p).map clean))) ↔
      Proper p := by
  constructor
  · intro hall w hw
    have hmem : readNetwork w ∈ networks ((blockLines d p).map clean) := by
      rw [networks_of_plain h]
      exact List.mem_append_left _ (List.mem_map_of_mem hw)
    obtain ⟨n, hn, hbridge | ⟨htransit, hbridge⟩⟩ := hall _ hmem
    · exact ⟨n, hn, .inl hbridge⟩
    · exact ⟨n, hn, .inr ⟨htransit, (bridge_mem_networks h hn).mp hbridge⟩⟩
  · intro hproper m hm
    have hwords : ∀ m ∈ (words (clean p.subnet)).map readNetwork, ∃ n < 256,
        m = some (bridge n) ∨ (m = some (transit n) ∧ n ∈ p.announced) := by
      intro m hm
      obtain ⟨w, hw, rfl⟩ := List.mem_map.mp hm
      exact hproper w hw
    rw [networks_of_plain h, List.mem_append] at hm
    rcases hm with hm | hm
    · obtain ⟨n, hn, hbridge | ⟨htransit, hbridge⟩⟩ := hwords m hm
      · exact ⟨n, hn, .inl hbridge⟩
      · exact ⟨n, hn, .inr ⟨htransit, (bridge_mem_networks h hn).mpr hbridge⟩⟩
    · obtain ⟨o, rfl, honly⟩ := derived_eq h hm
      have hmem : o.map bridge ∈ (words (clean p.subnet)).map readNetwork := by
        rw [honly]
        exact List.mem_singleton_self _
      obtain ⟨n, hn, hbridge | ⟨htransit, -⟩⟩ := hwords _ hmem
      · -- the subnet is the bridge `n`
        obtain ⟨k, rfl, hk⟩ := Option.map_eq_some_iff.mp hbridge
        rw [bridge_injective hk] at honly ⊢
        refine ⟨n, hn, .inr ⟨Option.map_some .., (bridge_mem_networks h hn).mpr ?_⟩⟩
        refine mem_announced.mpr ⟨hn, ?_⟩
        rw [honly]
        exact List.mem_singleton_self _
      · obtain ⟨k, -, hk⟩ := Option.map_eq_some_iff.mp htransit
        exact absurd hk (bridge_ne_transit k n)

theorem mem_networks {p : Peer} (h : Plain d p) (hproper : Proper p) {m : IpNetwork}
    (hm : some m ∈ networks ((blockLines d p).map clean)) :
    ∃ n < 256, n ∈ p.announced ∧ (m = bridge n ∨ m = transit n) := by
  obtain ⟨n, hn, hbridge | ⟨htransit, hbridge⟩⟩ := (bridges_iff h).mpr hproper _ hm
  · rw [hbridge] at hm
    exact ⟨n, hn, (bridge_mem_networks h hn).mp hm, .inl (Option.some.inj hbridge)⟩
  · exact ⟨n, hn, (bridge_mem_networks h hn).mp hbridge, .inr (Option.some.inj htransit)⟩

/-- Bridges with their transit addresses are apart. -/
theorem apart_of_ne {a b : IpNetwork} {m n : ℕ} (hm : m < 256) (hn : n < 256) (hne : m ≠ n)
    (ha : a = bridge m ∨ a = transit m) (hb : b = bridge n ∨ b = transit n) : Apart a b := by
  rcases ha with rfl | rfl <;> rcases hb with rfl | rfl
  · exact apart_bridge.mpr hne
  · exact apart_bridge_transit hn
  · exact (apart_bridge_transit hm).symm
  · exact apart_transit hne

theorem apart_iff {p q : Peer} (hp : Plain d p) (hq : Plain d q) (hp' : Proper p)
    (hq' : Proper q) : (∀ m n, some m ∈ networks ((blockLines d p).map clean) →
      some n ∈ networks ((blockLines d q).map clean) → Apart m n) ↔
      ∀ n ∈ p.announced, n ∉ q.announced := by
  constructor
  · intro h n hnp hnq
    have hn := (mem_announced.mp hnp).1
    exact apart_bridge.mp (h _ _ ((bridge_mem_networks hp hn).mpr hnp)
      ((bridge_mem_networks hq hn).mpr hnq)) rfl
  · intro h a b ha hb
    obtain ⟨m, hm, hmp, ha⟩ := mem_networks hp hp' ha
    obtain ⟨n, hn, hnq, hb⟩ := mem_networks hq hq' hb
    exact apart_of_ne hm hn (fun heq => h m hmp (heq ▸ hnq)) ha hb

theorem own_iff {p : Peer} (hp : Plain d p) (hp' : Proper p) {octet : ℕ} (hoctet : octet < 256) :
    (∀ m, some m ∈ networks ((blockLines d p).map clean) →
      Apart m (bridge octet) ∧ Apart m (transit octet)) ↔ octet ∉ p.announced := by
  constructor
  · intro h hmem
    exact apart_bridge.mp (h _ ((bridge_mem_networks hp hoctet).mpr hmem)).1 rfl
  · intro h a ha
    obtain ⟨m, hm, hmp, ha⟩ := mem_networks hp hp' ha
    have hne : m ≠ octet := fun heq => h (heq ▸ hmp)
    exact ⟨apart_of_ne hm hoctet hne ha (.inl rfl), apart_of_ne hm hoctet hne ha (.inr rfl)⟩

end Networks

/-! ### When the text is unambiguous -/

section Condition

variable {d}

/-- **The text is unambiguous exactly if the rows are in order.** -/
theorem unambiguous_iff (iface : Interface) (peers : List Peer) :
    Unambiguous d iface peers (renderConfig d iface peers) ↔ Orderly d iface.octet peers := by
  have hoctet : iface.octet < 256 := by
    have := iface.octet_le.2
    omega
  constructor
  · intro h
    have hplain := (blocks_renderConfig iface peers).mp h.rows
    have hblocks := peerBlocks_of_blocks h.rows
    -- the properties of the blocks are those of their rows
    have hproper : ∀ p ∈ peers.filter Peer.rendered, Proper p := fun p hp =>
      (bridges_iff (hplain p hp)).mp (h.bridges _ (hblocks ▸ List.mem_map_of_mem hp))
    have hown : ∀ p ∈ peers.filter Peer.rendered, iface.octet ∉ p.announced := fun p hp =>
      (own_iff (hplain p hp) (hproper p hp) hoctet).mp
        (h.own _ (hblocks ▸ List.mem_map_of_mem hp))
    have hkeys := h.keys
    have hapart := h.apart
    rw [hblocks, List.pairwise_map] at hkeys hapart
    refine ⟨fun p hp => ⟨hplain p hp, hproper p hp, hown p hp⟩, ?_⟩
    refine (hkeys.and hapart).imp_of_mem fun {p q} hp hq hpq => ⟨fun heq => ?_, ?_⟩
    -- rows with the same key have blocks with the same key
    · refine hpq.1 (clean p.key) ?_ ?_
      · rw [keys_block]
        exact List.mem_singleton_self _
      · rw [keys_block, heq]
        exact List.mem_singleton_self _
    · exact (apart_iff (hplain p hp) (hplain q hq) (hproper p hp) (hproper q hq)).mp hpq.2
  · intro h
    have hplain : ∀ p ∈ peers.filter Peer.rendered, Plain d p := fun p hp => (h.each p hp).plain
    have hrows := (blocks_renderConfig iface peers).mpr hplain
    have hblocks := peerBlocks_of_blocks hrows
    refine ⟨hrows, ?_, ?_, ?_, ?_⟩
    · rw [hblocks, List.pairwise_map]
      refine h.distinct.imp fun {p q} hpq k hkp hkq => hpq.1 ?_
      rw [keys_block, List.mem_singleton] at hkp hkq
      exact hkp.symm.trans hkq
    · rw [hblocks, List.pairwise_map]
      exact h.distinct.imp_of_mem fun {p q} hp hq hpq => (apart_iff (hplain p hp) (hplain q hq)
        (h.each p hp).proper (h.each q hq).proper).mpr hpq.2
    · rw [hblocks, List.forall_mem_map]
      exact fun p hp => (own_iff (hplain p hp) (h.each p hp).proper hoctet).mpr (h.each p hp).own
    · rw [hblocks, List.forall_mem_map]
      exact fun p hp => (bridges_iff (hplain p hp)).mpr (h.each p hp).proper

theorem Unalike.symm {p q : Peer} (h : Unalike p q) : Unalike q p :=
  ⟨h.1.symm, fun n hq hp => h.2 n hp hq⟩

variable (d) in
/-- A row fits beside others. -/
def Fits (octet : ℕ) (others : List Peer) (p : Peer) : Prop :=
  p.rendered = true → InOrder d octet p ∧ ∀ q ∈ others, q.rendered = true → Unalike q p

variable (d) in
/-- What is written to the table fits beside the other rows. -/
def Vetted (octet : ℕ) (s : State) : Cmd → Prop
  | .insertPeer p _ => Fits d octet s.peers p
  | .updatePeer id u => ∀ p ∈ s.peers, p.id = id →
    Fits d octet (s.peers.filter (·.id ≠ id)) (u.apply p)
  | _ => True

/-- The invariant: rows are known by their ids, in order, and distinct. -/
structure Vetting (d : Decimal) (octet : ℕ) (peers : List Peer) : Prop where
  ids : (peers.map (·.id)).Nodup
  each : ∀ p ∈ peers, p.rendered = true → InOrder d octet p
  distinct : ∀ p ∈ peers, ∀ q ∈ peers, p.id ≠ q.id → p.rendered = true → q.rendered = true →
    Unalike p q

variable {octet : ℕ} {peers : List Peer}

theorem Vetting.orderly (h : Vetting d octet peers) : Orderly d octet peers := by
  have hids : peers.Pairwise fun p q => p.id ≠ q.id := List.pairwise_map.mp h.ids
  refine ⟨fun p hp => h.each p (List.mem_filter.mp hp).1 (List.mem_filter.mp hp).2, ?_⟩
  refine (hids.filter _).imp_of_mem fun {p q} hp hq hne => ?_
  obtain ⟨hp, hpr⟩ := List.mem_filter.mp hp
  obtain ⟨hq, hqr⟩ := List.mem_filter.mp hq
  exact h.distinct p hp q hq hne hpr hqr

theorem Vetting.insert {p : Peer} (h : Vetting d octet peers) (hfresh : ∀ q ∈ peers, q.id ≠ p.id)
    (hfits : Fits d octet peers p) : Vetting d octet (peers ++ [p]) := by
  refine ⟨nodup_insert h.ids hfresh, fun q hq hr => ?_, fun q hq r hr hne hqr hrr => ?_⟩
  · rcases List.mem_append.mp hq with hq | hq
    · exact h.each q hq hr
    · rw [List.mem_singleton.mp hq] at hr ⊢
      exact (hfits hr).1
  · rcases List.mem_append.mp hq with hq | hq <;> rcases List.mem_append.mp hr with hr | hr
    · exact h.distinct q hq r hr hne hqr hrr
    · rw [List.mem_singleton.mp hr] at hrr ⊢
      exact (hfits hrr).2 q hq hqr
    · rw [List.mem_singleton.mp hq] at hqr ⊢
      exact ((hfits hqr).2 r hr hrr).symm
    · rw [List.mem_singleton.mp hq, List.mem_singleton.mp hr] at hne
      exact absurd rfl hne

theorem Vetting.update {id : String} {u : PeerUpdate} (h : Vetting d octet peers)
    (hfits : ∀ p ∈ peers, p.id = id → Fits d octet (peers.filter (·.id ≠ id)) (u.apply p)) :
    Vetting d octet (setPeer peers id u) := by
  have hothers : ∀ q ∈ peers, q.id ≠ id → q ∈ peers.filter (·.id ≠ id) := fun q hq hne =>
    List.mem_filter.mpr ⟨hq, decide_eq_true hne⟩
  refine ⟨by rw [setPeer_ids]; exact h.ids, fun q hq hr => ?_, fun q hq r hr hne hqr hrr => ?_⟩
  · rcases mem_setPeer hq with ⟨hold, -⟩ | ⟨q, hold, hid, rfl⟩
    · exact h.each q hold hr
    · exact (hfits q hold hid hr).1
  · rcases mem_setPeer hq with ⟨hqold, hqid⟩ | ⟨q, hqold, hqid, rfl⟩ <;>
      rcases mem_setPeer hr with ⟨hrold, hrid⟩ | ⟨r, hrold, hrid, rfl⟩
    · exact h.distinct q hqold r hrold hne hqr hrr
    · exact (hfits r hrold hrid hrr).2 q (hothers q hqold hqid) hqr
    · exact ((hfits q hqold hqid hqr).2 r (hothers r hrold hrid) hrr).symm
    · rw [PeerUpdate.apply_id, PeerUpdate.apply_id] at hne
      exact absurd (hqid.trans hrid.symm) hne

/-- **Vetted writes keep the rows in order.** -/
theorem Vetting.of_exec {s s' : State} {c : Cmd} {a : c.Ans} (h : Vetting d octet s.peers)
    (hx : exec s c a s') (hv : Vetted d octet s c) : Vetting d octet s'.peers := by
  rcases peers_step hx with hsame | ⟨p, r, rfl, hfresh, hadd⟩ | ⟨id, u, rfl, hset⟩
  · rw [hsame]
    exact h
  · rw [hadd]
    exact h.insert hfresh hv
  · rw [hset]
    exact h.update hv

variable {ι : Type} [DecidableEq ι] {pf : Platform}

variable (d) in
/-- What is written in the step is vetted. -/
def WritesVetted (octet : ℕ) (x : Config sig Failure Unit ι State)
    (m : Move sig Failure Unit ι) : Prop :=
  ∀ i c a, m = .call i c a → Vetted d octet x.shared c

/-- **The text is unambiguous in every state of every run that writes vetted rows
only.** -/
theorem unambiguous_of_reaches {iface : Interface} {x : Config sig Failure Unit ι State}
    (h : Reaches (fun _ => exec) (fun x m => Starts pf x m ∧ WritesVetted d iface.octet x m)
      (.idle .empty) x) :
    Unambiguous d iface x.shared.peers (renderConfig d iface x.shared.peers) := by
  have hempty : Vetting d iface.octet [] := ⟨List.nodup_nil,
    fun p hp => absurd hp List.not_mem_nil, fun p hp => absurd hp List.not_mem_nil⟩
  have hvetting : Vetting d iface.octet x.shared.peers := by
    refine h.invariant (I := fun x => Vetting d iface.octet x.shared.peers) ?_ hempty
    intro x m y hx ⟨_, hvetted⟩ hstep
    cases hstep with
    | @call i c k a s ht hexec => exact hx.of_exec hexec (hvetted i c a rfl)
    | start _ => exact hx
    | ret _ => exact hx
    | raise _ => exact hx
    | kill _ => exact hx
  exact (unambiguous_iff iface _).mpr hvetting.orderly

end Condition

/-! ### Two peers -/

/-- The digits of ASCII. -/
def asciiDecimal : Decimal := ⟨Char.isDigit, fun _ _ => rfl⟩

/-- The usual settings. -/
def defaultInterface : Interface := ⟨100, by decide, 51820, text "key", by with_unfolding_all decide⟩

/-- A host asks to be paired, with this key and subnet. -/
def advertise (host key subnet : String) : Operation :=
  .bootstrap "10.0.0.2" (some (.obj [("payload", .obj [("hostname", .str host),
    ("pubkey", .str (host ++ "'s key")), ("peer_port", .int 8445), ("callback_token", .str "y"),
    ("wg_pubkey", .str key), ("wg_bridge_subnet", .str subnet)]),
    ("signature", .str ("signed with " ++ host ++ "'s key"))]))

/-- Its request is approved. -/
def admission (host key subnet request : String) : List (Turn sig Failure Unit Unit) :=
  operate () (advertise host key subnet) 9 ++ operate () (.approve request) 15

theorem start_mem_admission {host key subnet request : String} {i : Unit} {p : Code Unit}
    (h : Turn.start i p ∈ admission host key subnet request) :
    ∃ op : Operation, p = op.code plainPlatform := by
  rcases List.mem_append.mp h with h | h <;> exact ⟨_, start_mem_operate h⟩

/-- The texts of a row. -/
def advertised (p : Peer) : Option String × Option String × Option String :=
  (p.wgPubkey, p.wgEndpoint, p.wgBridgeSubnet)

/-- Two rows, each with a key and a subnet of its own. -/
def ordinary : List (Option String × Option String × Option String) :=
  [(some "k", some "", some "192.168.5.0/24"), (some "l", some "", some "192.168.6.0/24")]

/-- Such a row beside another one. -/
def isOrdinary (others : List Peer) (p : Peer) : Bool :=
  advertised p ∈ ordinary && others.all fun q => advertised q ∈ ordinary && advertised q ≠ advertised p

/-- Writes are answered if they are of this kind. -/
def ordinaryWrite (s : State) : Cmd → Bool
  | .insertPeer p _ => isOrdinary s.peers p
  | .updatePeer id u => s.peers.all fun p =>
    p.id ≠ id || isOrdinary (s.peers.filter (·.id ≠ id)) (u.apply p)
  | _ => true

def respondOrdinary (_ : Unit) (s : State) (c : sig.Cmd) : Option (sig.Ans c × State) :=
  (surroundings (fun _ => (200, .null)) s c).filter fun _ => ordinaryWrite s c

/-- What an ordinary row says. -/
theorem texts_ordinary {p : Peer} (h : advertised p ∈ ordinary) :
    advertised p = (some "k", some "", some "192.168.5.0/24") ∧ p.key = text "k" ∧ p.endpoint = [] ∧
        p.subnet = text "192.168.5.0/24" ∨
      advertised p = (some "l", some "", some "192.168.6.0/24") ∧ p.key = text "l" ∧ p.endpoint = [] ∧
        p.subnet = text "192.168.6.0/24" := by
  unfold ordinary at h
  simp only [List.mem_cons, List.not_mem_nil, or_false] at h
  rcases h with h | h
  · refine .inl ⟨h, ?_⟩
    obtain ⟨hkey, hrest⟩ := Prod.mk.inj h
    obtain ⟨hendpoint, hsubnet⟩ := Prod.mk.inj hrest
    rw [Peer.key, Peer.endpoint, Peer.subnet, hkey, hendpoint, hsubnet]
    with_unfolding_all decide
  · refine .inr ⟨h, ?_⟩
    obtain ⟨hkey, hrest⟩ := Prod.mk.inj h
    obtain ⟨hendpoint, hsubnet⟩ := Prod.mk.inj hrest
    rw [Peer.key, Peer.endpoint, Peer.subnet, hkey, hendpoint, hsubnet]
    with_unfolding_all decide

theorem inOrder_ordinary {p : Peer} (h : advertised p ∈ ordinary) : InOrder asciiDecimal 100 p := by
  rcases texts_ordinary h with ⟨-, hkey, hendpoint, hsubnet⟩ | ⟨-, hkey, hendpoint, hsubnet⟩
  all_goals
    refine ⟨?_, ?_, ?_⟩
    · rw [Plain, hkey, hendpoint, hsubnet]
      unfold OneLine
      with_unfolding_all decide
    · rw [Proper, hsubnet, Peer.announced, hsubnet]
      decide +kernel
    · rw [Peer.announced, hsubnet]
      with_unfolding_all decide

theorem unalike_ordinary {p q : Peer} (hp : advertised p ∈ ordinary) (hq : advertised q ∈ ordinary)
    (hne : advertised q ≠ advertised p) : Unalike q p := by
  rcases texts_ordinary hp with ⟨hsame, hkey, -, hsubnet⟩ | ⟨hsame, hkey, -, hsubnet⟩ <;>
    rcases texts_ordinary hq with ⟨hsame', hkey', -, hsubnet'⟩ | ⟨hsame', hkey', -, hsubnet'⟩
  · exact absurd (hsame'.trans hsame.symm) hne
  · rw [Unalike, Peer.announced, Peer.announced, hkey, hkey', hsubnet, hsubnet']
    with_unfolding_all decide
  · rw [Unalike, Peer.announced, Peer.announced, hkey, hkey', hsubnet, hsubnet']
    with_unfolding_all decide
  · exact absurd (hsame'.trans hsame.symm) hne

theorem fits_ordinary {others : List Peer} {p : Peer} (h : isOrdinary others p = true) :
    Fits asciiDecimal 100 others p := by
  obtain ⟨hp, hothers⟩ := Bool.and_eq_true_iff.mp h
  have hp := of_decide_eq_true hp
  refine fun _ => ⟨inOrder_ordinary hp, fun q hq _ => ?_⟩
  obtain ⟨hq, hne⟩ := Bool.and_eq_true_iff.mp (List.all_eq_true.mp hothers q hq)
  exact unalike_ordinary hp (of_decide_eq_true hq) (of_decide_eq_true hne)

theorem vetted_ordinary {s : State} {c : Cmd} (h : ordinaryWrite s c = true) :
    Vetted asciiDecimal 100 s c := by
  cases c with
  | insertPeer p r => exact fits_ordinary h
  | updatePeer id u =>
    intro p hp hid
    rcases Bool.or_eq_true_iff.mp (List.all_eq_true.mp h p hp) with hne | hfits
    · exact absurd hid (of_decide_eq_true hne)
    · exact fits_ordinary hfits
  | _ => trivial

/-- Two peers, each with a subnet of its own. -/
theorem unambiguous_of_reaches_ordinary : ∃ x : Config sig Failure Unit Unit State,
    (x.shared.peers.filter Peer.rendered).map advertised = ordinary ∧
      Unambiguous asciiDecimal defaultInterface x.shared.peers
        (renderConfig asciiDecimal defaultInterface x.shared.peers) := by
  have hrun : ((Config.play respondOrdinary (admission "there" "k" "192.168.5.0/24" "x" ++
      admission "far" "l" "192.168.6.0/24" "xxx") (.idle .empty)).map fun x =>
        (x.shared.peers.filter Peer.rendered).map advertised) = some ordinary := by
    with_unfolding_all decide
  obtain ⟨x, hx, hrow⟩ := Option.map_eq_some_iff.mp hrun
  have hreach : Reaches (fun _ => exec) (fun x m => Starts plainPlatform x m ∧
      WritesVetted asciiDecimal defaultInterface.octet x m) (.idle .empty) x := by
    refine reaches_of_play ?_ ?_ ?_ hx
    · intro i x c a s h
      obtain ⟨h, hordinary⟩ := Option.filter_eq_some_iff.mp h
      refine ⟨exec_surroundings h, trivial, fun i' c' a' hm => ?_⟩
      cases hm
      exact vetted_ordinary hordinary
    · exact fun i x r => ⟨trivial, fun _ _ _ hm => nomatch hm⟩
    · intro i p hp x
      refine ⟨?_, fun _ _ _ hm => nomatch hm⟩
      exact (List.mem_append.mp hp).elim start_mem_admission start_mem_admission
  exact ⟨x, hrow, unambiguous_of_reaches hreach⟩

/-- A peer that advertises all addresses. -/
theorem everything_captured : ¬∀ x : Config sig Failure Unit Unit State,
    Reaches (fun _ => exec) (Starts plainPlatform) (.idle .empty) x →
      Unambiguous asciiDecimal defaultInterface x.shared.peers
        (renderConfig asciiDecimal defaultInterface x.shared.peers) := by
  intro hall
  have hrun : ((Config.play (respond fun _ => (200, .null)) (admission "there" "k" "0.0.0.0/0" "x")
      (.idle .empty)).map fun x => x.shared.peers.any fun p =>
        p.rendered && p.wgBridgeSubnet = some "0.0.0.0/0") = some true := by
    with_unfolding_all decide
  obtain ⟨x, hx, hany⟩ := Option.map_eq_some_iff.mp hrun
  obtain ⟨p, hp, hrow⟩ := List.any_eq_true.mp hany
  rw [Bool.and_eq_true, decide_eq_true_eq] at hrow
  have horderly := (unambiguous_iff _ _).mp
    (hall x (starts_of_play (fun _ _ => start_mem_admission) hx))
  have hproper := (horderly.each p (List.mem_filter.mpr ⟨hp, hrow.1⟩)).proper
  have hsubnet : p.subnet = text "0.0.0.0/0" := by
    rw [Peer.subnet, hrow.2]
    with_unfolding_all decide
  rw [Proper, hsubnet] at hproper
  obtain ⟨n, hn, hread | ⟨hread, -⟩⟩ := hproper (text "0.0.0.0/0") (by with_unfolding_all decide)
  · have hbits : ((readNetwork (text "0.0.0.0/0")).map (·.prefixlen)) = some 0 := by with_unfolding_all decide
    rw [hread] at hbits
    cases hbits
  · have hbits : ((readNetwork (text "0.0.0.0/0")).map (·.prefixlen)) = some 0 := by with_unfolding_all decide
    rw [hread] at hbits
    cases hbits

end Peers
end CloudCore
