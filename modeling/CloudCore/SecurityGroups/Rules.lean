import CloudCore.Api.Store
import CloudCore.Formats.Lines
import CloudCore.Python.Decimal
import CloudCore.Python.NetworkText

/-!
# Security group rules

The rules of a security group are JSON values.  `_validate_rules` of `api/sg_routes.py`
looks at them when they come in; `api/sg.py` makes commands of them, in two places: word
by word for the host, and as the lines of a shell script for an instance.

## Main definitions

* `validateRules` — the check, with the texts of its errors.
* `iptablesRuleArgs`, `buildIptablesScript` — the two generators.
* `WellFormed` — the words of a command of the expected shape.
* `Harmless` — all commands are well formed, and the script has one line for each.
* `Printable` — the networks of a rule are networks, and its ports print as numbers.

## Main results

* `accepted_of_validateRules` — what the check looks at.
* `harmless_iff` — **a rule list that the check lets through gives well-formed commands if
  and only if its rules are printable.**
* `smuggled` — a network with a command behind it is let through.
-/

namespace CloudCore
namespace SecurityGroups

open Python Formats Api

/-! ### Rules -/

/-- The two programs. -/
inductive Tool where
  | iptables
  | ip6tables
  deriving DecidableEq

def Tool.name : Tool → String
  | .iptables => "iptables"
  | .ip6tables => "ip6tables"

/-- The family of the networks that a program takes. -/
def Tool.family : Tool → IpVersion
  | .iptables => .v4
  | .ip6tables => .v6

/-- `rule.get(key)`. -/
def field (rule : Json) (key : String) : Json := (rule.get? key).getD .null

/-- `rule.get("protocol", "-1")`. -/
def protocol (rule : Json) : Json := (rule.get? "protocol").getD (.str "-1")

/-- `value is None`. -/
def isNone : Json → Bool
  | .null => true
  | _ => false

def validProtocols : List String := ["tcp", "udp", "icmp", "-1"]

/-! ### The check -/

/-- The ports of a rule that is not for all traffic. -/
def validatePorts (rule : Json) : Except Raised (Option String) :=
  let fp := field rule "from_port"
  let tp := field rule "to_port"
  if isNone fp ∨ isNone tp then
    .ok (some "from_port and to_port are required for non-all-traffic rules")
  else do
    let f ← fp.toInt.mapError .exc
    if ¬(0 ≤ f ∧ f ≤ 65535) then .ok (some "port numbers must be 0–65535")
    else do
      let t ← tp.toInt.mapError .exc
      if ¬(0 ≤ t ∧ t ≤ 65535) then .ok (some "port numbers must be 0–65535")
      else if f > t then .ok (some "from_port must be <= to_port")
      else .ok none

/-- One turn of the loop of `_validate_rules`. -/
def validateRule (pf : Platform) (rule : Json) : Except Raised (Option String) :=
  let proto := protocol rule
  let hasCidr := (field rule "cidr").truthy
  let hasCidrV6 := (field rule "cidr_ipv6").truthy
  let hasSg := (field rule "source_sg_id").truthy
  match rule with
  | .obj _ =>
    if ¬proto.hashable then .error (.exc .typeError)
    else if ¬validProtocols.any (proto.eq <| .str ·) then
      .ok (some "protocol must be one of: -1, icmp, tcp, udp")
    else if ¬hasCidr ∧ ¬hasCidrV6 ∧ ¬hasSg then
      .ok (some "each rule must have 'cidr', 'cidr_ipv6', or 'source_sg_id'")
    else if hasSg ∧ (hasCidr ∨ hasCidrV6) then
      .ok (some "a rule cannot specify both 'source_sg_id' and a CIDR")
    else if hasCidrV6 ∧ ipNetwork (field rule "cidr_ipv6") = none then
      .ok (some ("cidr_ipv6 '" ++ pf.str (field rule "cidr_ipv6") ++ "' is not a valid IPv6 CIDR"))
    else if proto.eq (.str "-1") then .ok none
    else validatePorts rule
  | _ => .error .attributeError

def validateRules (pf : Platform) : List Json → Except Raised (Option String)
  | [] => .ok none
  | rule :: rules => do
    match ← validateRule pf rule with
    | some err => .ok (some err)
    | none => validateRules pf rules

/-- What the check has looked at in a rule it accepts. -/
structure Accepted (rule : Json) : Prop where
  protocol : ∃ p ∈ validProtocols, protocol rule = .str p
  network : (field rule "cidr").truthy ∨ (field rule "cidr_ipv6").truthy ∨
    (field rule "source_sg_id").truthy
  ports : SecurityGroups.protocol rule ≠ .str "-1" → ∃ f t : ℤ,
    (field rule "from_port").toInt = .ok f ∧ (field rule "to_port").toInt = .ok t ∧
      isNone (field rule "from_port") = false ∧ isNone (field rule "to_port") = false ∧
      0 ≤ f ∧ f ≤ t ∧ t ≤ 65535

theorem ports_of_validatePorts {rule : Json} (h : validatePorts rule = .ok none) :
    ∃ f t : ℤ, (field rule "from_port").toInt = .ok f ∧ (field rule "to_port").toInt = .ok t ∧
      isNone (field rule "from_port") = false ∧ isNone (field rule "to_port") = false ∧
      0 ≤ f ∧ f ≤ t ∧ t ≤ 65535 := by
  unfold validatePorts at h
  simp only at h
  split at h
  · cases h
  next hnone =>
    simp only [not_or, Bool.not_eq_true] at hnone
    obtain ⟨f, hf, h⟩ := bind_eq_ok.mp h
    split at h
    · cases h
    next hfrange =>
      obtain ⟨t, ht, h⟩ := bind_eq_ok.mp h
      split at h
      · cases h
      next htrange =>
        split at h
        · cases h
        · exact ⟨f, t, mapError_eq_ok.mp hf, mapError_eq_ok.mp ht, hnone.1, hnone.2, by omega,
            by omega, by omega⟩

theorem accepted_of_validateRule {pf : Platform} {rule : Json} (h : validateRule pf rule = .ok none) :
    Accepted rule := by
  unfold validateRule at h
  simp only at h
  split at h
  next fields =>
    split at h
    · cases h
    split at h
    · cases h
    next hproto =>
    split at h
    · cases h
    next hnetwork =>
    split at h
    · cases h
    split at h
    · cases h
    simp only [not_and, Decidable.not_not] at hproto hnetwork
    have hprotocol : ∃ p ∈ validProtocols, protocol (.obj fields) = .str p := by
      obtain ⟨p, hp, heq⟩ := List.any_eq_true.mp hproto
      exact ⟨p, hp, Json.eq_str.mp heq⟩
    refine ⟨hprotocol, ?_, ?_⟩
    · by_contra hno
      simp only [not_or] at hno
      exact hno.2.2 (hnetwork hno.1 hno.2.1)
    · intro hne
      split at h
      next hall => exact absurd (Json.eq_str.mp hall) hne
      next => exact ports_of_validatePorts h
  next => cases h

/-- **What the check has looked at in the rules it accepts.** -/
theorem accepted_of_validateRules {pf : Platform} {rules : List Json}
    (h : validateRules pf rules = .ok none) : ∀ rule ∈ rules, Accepted rule := by
  induction rules with
  | nil => exact fun _ hr => absurd hr List.not_mem_nil
  | cons rule rules ih =>
    obtain ⟨err, herr, h⟩ := bind_eq_ok.mp h
    cases err with
    | some err => cases h
    | none => exact List.forall_mem_cons.mpr ⟨accepted_of_validateRule herr, ih h⟩

/-! ### The generators -/

inductive Direction where
  | ingress
  | egress
  deriving DecidableEq

/-- The option in front of a network. -/
def Direction.flag : Direction → String
  | .ingress => "-s"
  | .egress => "-d"

/-- The fields that hold networks, and the programs that get them. -/
def cidrFields : List (String × Tool) := [("cidr", .iptables), ("cidr_ipv6", .ip6tables)]

/-- `str(fp) if fp == tp else f"{fp}:{tp}"`. -/
def portText (pf : Platform) (rule : Json) : String :=
  let fp := field rule "from_port"
  let tp := field rule "to_port"
  if fp.eq tp then pf.str fp else pf.str fp ++ ":" ++ pf.str tp

def hasPorts (rule : Json) : Bool :=
  !isNone (field rule "from_port") && !isNone (field rule "to_port")

/-- The arguments for one network. -/
def matchArgs (pf : Platform) (rule : Json) (flag : String) (cidr : Json) : List Json :=
  if (protocol rule).eq (.str "-1") then [.str flag, cidr, .str "-j", .str "ACCEPT"]
  else
    [.str "-p", protocol rule, .str flag, cidr] ++
      (if hasPorts rule then [.str "--dport", .str (portText pf rule)] else []) ++
        [.str "-j", .str "ACCEPT"]

def iptablesRuleArgs (pf : Platform) (rule : Json) (direction : Direction) :
    List (Tool × List Json) :=
  let results := cidrFields.filterMap fun (key, cmd) =>
    let cidr := field rule key
    if cidr.truthy then some (cmd, matchArgs pf rule direction.flag cidr) else none
  if results.isEmpty && !(field rule "source_sg_id").truthy then
    [(.iptables, matchArgs pf rule direction.flag (.str "0.0.0.0/0"))]
  else results

/-- The lines that every script begins with. -/
def fixedLines : List Line :=
  ["#!/bin/sh", "iptables -F INPUT", "iptables -F OUTPUT", "iptables -P INPUT DROP",
    "iptables -P OUTPUT ACCEPT",
    "iptables -A INPUT -m state --state ESTABLISHED,RELATED -j ACCEPT",
    "iptables -A INPUT -i lo -j ACCEPT"].map text

def dport (pf : Platform) (rule : Json) : Line :=
  if hasPorts rule then text "--dport " ++ (portText pf rule).toList else []

/-- The lines of one rule. -/
def ruleLines (pf : Platform) (rule : Json) : List Line :=
  let proto := protocol rule
  let all := proto.eq (.str "-1")
  cidrFields.filterMap (fun (key, cmd) =>
    let cidr := field rule key
    if !cidr.truthy then none
    else if all then
      some (text cmd.name ++ text " -A INPUT -s " ++ (pf.str cidr).toList ++ text " -j ACCEPT")
    else
      some (stripBy isSpace (text cmd.name ++ text " -A INPUT -p " ++ (pf.str proto).toList ++
        text " -s " ++ (pf.str cidr).toList ++ text " " ++ dport pf rule ++ text " -j ACCEPT"))) ++
  if !(field rule "cidr").truthy && !(field rule "cidr_ipv6").truthy &&
      !(field rule "source_sg_id").truthy then
    if all then [text "iptables -A INPUT -j ACCEPT"]
    else
      [stripBy isSpace (text "iptables -A INPUT -p " ++ (pf.str proto).toList ++ text " " ++
        dport pf rule ++ text " -j ACCEPT")]
  else []

/-- `_build_iptables_script`; the rules for outgoing traffic are not used. -/
def buildIptablesScript (pf : Platform) (ingress _egress : List Json) : Line :=
  joinLines (fixedLines ++ ingress.flatMap (ruleLines pf))

/-! ### Commands of the expected shape -/

/-- A network of a family, as both programs write it: without a scope. -/
def NetworkText (v : IpVersion) (l : Line) : Prop := (networkOfText v l).isSome ∧ '%' ∉ l

/-- A decimal number up to 65535. -/
def PortText (l : Line) (n : ℕ) : Prop := isDigits l = true ∧ value l = n ∧ n ≤ 65535

/-- A port, or two with the first not above the second. -/
inductive PortsText : Line → Prop
  | one {l : Line} {n : ℕ} : PortText l n → PortsText l
  | range {a b : Line} {m n : ℕ} : PortText a m → PortText b n → m ≤ n → PortsText (a ++ ':' :: b)

/-- The words of a match and its target. -/
inductive WellFormed (v : IpVersion) (flag : String) : List String → Prop
  | all {net : String} : NetworkText v net.toList → WellFormed v flag [flag, net, "-j", "ACCEPT"]
  | protocol {p net : String} : p ∈ ["tcp", "udp", "icmp"] → NetworkText v net.toList →
      WellFormed v flag ["-p", p, flag, net, "-j", "ACCEPT"]
  | ports {p net ports : String} : p ∈ ["tcp", "udp"] → NetworkText v net.toList →
      PortsText ports.toList →
      WellFormed v flag ["-p", p, flag, net, "--dport", ports, "-j", "ACCEPT"]

/-- The words of a line. -/
def words (l : Line) : List Line := (l.splitOn ' ').filter (· ≠ [])

/-- The characters that the shell treats specially, the blank between words apart. -/
def shellSpecials : Line :=
  ['|', '&', ';', '<', '>', '(', ')', '$', '\x60', '\\', '\x22', '\x27', '\t', '\n', '*', '?', '[',
    ']', '#', '~', '=', '%', '!', '\x7b', '\x7d', '^']

/-- A command in the words of the one generator and in the line of the other. -/
def SameCommand (c : Tool × List Json) (l : Line) : Prop :=
  ∃ ws, c.2 = ws.map .str ∧ WellFormed c.1.family Direction.ingress.flag ws ∧
    words l = (c.1.name :: "-A" :: "INPUT" :: ws).map String.toList ∧ ∀ ch ∈ shellSpecials, ch ∉ l

/-- **Every command is well formed, and the script consists of the fixed lines and one line
for each command.** -/
structure Harmless (pf : Platform) (rules : List Json) : Prop where
  commands : ∀ rule ∈ rules, ∀ d, ∀ c ∈ iptablesRuleArgs pf rule d,
    ∃ ws, c.2 = ws.map .str ∧ WellFormed c.1.family d.flag ws
  script : ∀ egress, ∃ ls, lines (buildIptablesScript pf rules egress) = fixedLines ++ ls ∧
    List.Forall₂ SameCommand (rules.flatMap (iptablesRuleArgs pf · .ingress)) ls

/-- A JSON integer, or a string of ASCII digits. -/
def Plain : Json → Prop
  | .int _ => True
  | .str s => isDigits s.toList = true
  | _ => False

/-- The networks of a rule are strings that are networks of their families; if it has any
and is not for all traffic, it is not for `icmp`, and its ports are plain. -/
structure Printable (rule : Json) : Prop where
  network : ∀ f ∈ cidrFields, (field rule f.1).truthy →
    ∃ s, field rule f.1 = .str s ∧ NetworkText f.2.family s.toList
  ports : (∃ f ∈ cidrFields, (field rule f.1).truthy) → protocol rule ≠ .str "-1" →
    protocol rule ≠ .str "icmp" ∧ Plain (field rule "from_port") ∧
      ((field rule "from_port").eq (field rule "to_port") ∨ Plain (field rule "to_port"))

/-! ### Ports -/

section Ports

variable {pf : Platform} (hrepr : ∀ x, ∃ c ∈ (pf.repr (.float x)).toList, c.isDigit = false ∧ c ≠ ':')

theorem toList_str_int (pf : Platform) {n : ℤ} (h : 0 ≤ n) :
    (pf.str (.int n)).toList = Nat.toDigits 10 n.toNat := by
  obtain ⟨k, rfl⟩ := Int.eq_ofNat_of_zero_le h
  exact Nat.toList_repr

/-- A plain number is printed as a decimal number. -/
theorem portText_of_plain {v : Json} {n : ℤ} (hplain : Plain v) (hv : v.toInt = .ok n) (h0 : 0 ≤ n)
    (h1 : n ≤ 65535) : PortText (pf.str v).toList n.toNat := by
  cases v with
  | int m =>
    cases hv
    rw [toList_str_int pf h0]
    exact ⟨isDigits_toDigits _, value_toDigits _, by omega⟩
  | str s =>
    have hvalue := intOfText_of_isDigits hplain hv
    exact ⟨hplain, by rw [hvalue]; rfl, by omega⟩
  | _ => exact hplain.elim

include hrepr in
/-- **What is not plain is printed with a character that is in no port.** -/
theorem plain_or_odd {v : Json} {n : ℤ} (hv : v.toInt = .ok n) :
    Plain v ∨ ∃ c ∈ (pf.str v).toList, c.isDigit = false ∧ c ≠ ':' := by
  cases v with
  | null => cases hv
  | bool b =>
    right
    cases b with
    | false =>
      have hprint : 'F' ∈ "False".toList := by decide
      exact ⟨'F', hprint, by decide, by decide⟩
    | true =>
      have hprint : 'T' ∈ "True".toList := by decide
      exact ⟨'T', hprint, by decide, by decide⟩
  | int m => exact .inl trivial
  | float x => exact .inr (hrepr x)
  | str s =>
    by_cases hdigits : isDigits s.toList = true
    · exact .inl hdigits
    right
    have hne : s.toList ≠ [] := by
      intro hnil
      have hs : s = "" := String.toList_inj.mp hnil
      have hempty : (Json.str "").toInt = .error .valueError := by decide
      rw [hs] at hv
      rw [hempty] at hv
      cases hv
    have hall : ¬s.toList.all Char.isDigit = true := by
      intro hall
      refine hdigits ?_
      rw [isDigits, hall]
      cases hl : s.toList with
      | nil => exact absurd hl hne
      | cons c l => rfl
    rw [Bool.not_eq_true, List.all_eq_false] at hall
    obtain ⟨c, hc, hodd⟩ := hall
    refine ⟨c, hc, Bool.not_eq_true _ ▸ hodd, ?_⟩
    rintro rfl
    exact absurd (isIntChar_of_intOfText hv ':' hc) (by decide)
  | arr a => cases hv
  | obj a => cases hv

theorem char_of_portText {l : Line} {n : ℕ} (h : PortText l n) : ∀ c ∈ l, c.isDigit = true := by
  have hdigits := h.1
  rw [isDigits, Bool.and_eq_true] at hdigits
  exact List.all_eq_true.mp hdigits.2

theorem char_of_portsText {l : Line} (h : PortsText l) : ∀ c ∈ l, c.isDigit = true ∨ c = ':' := by
  cases h with
  | one h => exact fun c hc => .inl (char_of_portText h c hc)
  | range ha hb _ =>
    intro c hc
    rcases List.mem_append.mp hc with hc | hc
    · exact .inl (char_of_portText ha c hc)
    · rcases List.mem_cons.mp hc with hc | hc
      · exact .inr hc
      · exact .inl (char_of_portText hb c hc)

include hrepr in
/-- A number that is part of a port is plain. -/
theorem plain_of_portsText {l : Line} {v : Json} {n : ℤ} (h : PortsText l) (hv : v.toInt = .ok n)
    (hl : ∀ c ∈ (pf.str v).toList, c ∈ l) : Plain v := by
  rcases plain_or_odd hrepr hv with hplain | ⟨c, hc, hdigit, hcolon⟩
  · exact hplain
  · rcases char_of_portsText h c (hl c hc) with h | h
    · rw [hdigit] at h
      cases h
    · exact absurd h hcolon

include hrepr in
/-- **Accepted ports are printed as ports if and only if they are plain.** -/
theorem portsText_iff {rule : Json} {f t : ℤ} (hf : (field rule "from_port").toInt = .ok f)
    (ht : (field rule "to_port").toInt = .ok t) (h0 : 0 ≤ f) (hle : f ≤ t) (h1 : t ≤ 65535) :
    PortsText (portText pf rule).toList ↔ Plain (field rule "from_port") ∧
      ((field rule "from_port").eq (field rule "to_port") ∨ Plain (field rule "to_port")) := by
  unfold portText
  simp only
  by_cases heq : (field rule "from_port").eq (field rule "to_port") = true
  · rw [if_pos heq]
    refine ⟨fun h => ⟨plain_of_portsText hrepr h hf fun _ hc => hc, .inl heq⟩, fun h => ?_⟩
    exact .one (portText_of_plain h.1 hf h0 (hle.trans h1))
  · rw [if_neg heq, String.toList_append, String.toList_append, List.append_assoc]
    constructor
    · intro h
      refine ⟨plain_of_portsText hrepr h hf fun c hc => List.mem_append_left _ hc, .inr ?_⟩
      exact plain_of_portsText hrepr h ht fun c hc =>
        List.mem_append_right _ (List.mem_append_right _ hc)
    · rintro ⟨hf', h | ht'⟩
      · exact absurd h heq
      · exact .range (portText_of_plain hf' hf h0 (hle.trans h1))
          (portText_of_plain ht' ht (h0.trans hle) h1) (by omega)

end Ports

/-! ### Commands -/

section Commands

variable {pf : Platform} {rule : Json}

/-- An accepted rule has a command for each of its networks. -/
theorem iptablesRuleArgs_eq (hrule : Accepted rule) (d : Direction) :
    iptablesRuleArgs pf rule d = cidrFields.filterMap fun f =>
      if (field rule f.1).truthy then some (f.2, matchArgs pf rule d.flag (field rule f.1))
      else none := by
  unfold iptablesRuleArgs
  simp only
  split
  next hnone =>
    exfalso
    rw [Bool.and_eq_true, List.isEmpty_iff, List.filterMap_eq_nil_iff] at hnone
    have hfield (key : String) (cmd : Tool) (hf : (key, cmd) ∈ cidrFields) :
        ¬(field rule key).truthy = true := by
      intro htruthy
      have h := hnone.1 (key, cmd) hf
      simp only [if_pos htruthy] at h
      cases h
    rcases hrule.network with h | h | h
    · exact hfield _ .iptables (by decide) h
    · exact hfield _ .ip6tables (by decide) h
    · rw [h] at hnone
      exact absurd hnone.2 (by decide)
  next => rfl

/-- The arguments of an accepted rule. -/
theorem matchArgs_eq (hrule : Accepted rule) {p : String} (hp : protocol rule = .str p)
    (flag : String) (cidr : Json) : matchArgs pf rule flag cidr =
      if p = "-1" then [.str flag, cidr, .str "-j", .str "ACCEPT"]
      else [.str "-p", .str p, .str flag, cidr, .str "--dport", .str (portText pf rule), .str "-j",
        .str "ACCEPT"] := by
  unfold matchArgs
  by_cases hall : p = "-1"
  · rw [if_pos hall, if_pos (Json.eq_str.mpr (hall ▸ hp))]
  · have hne : protocol rule ≠ .str "-1" := by
      rw [hp]
      exact fun h => hall (Json.str.inj h)
    obtain ⟨f, t, -, -, hf, ht, -⟩ := hrule.ports hne
    rw [if_neg hall, if_neg (fun h => hne (Json.eq_str.mp h)), hp, hasPorts, hf, ht]
    rfl

/-- **The arguments for a network are well formed if and only if the network is one, and the
ports print as ports.** -/
theorem wellFormed_matchArgs_iff
    (hrepr : ∀ x, ∃ c ∈ (pf.repr (.float x)).toList, c.isDigit = false ∧ c ≠ ':')
    (hrule : Accepted rule) {v : IpVersion} {flag : String} {cidr : Json} :
    (∃ ws, matchArgs pf rule flag cidr = ws.map .str ∧ WellFormed v flag ws) ↔
      (∃ s, cidr = .str s ∧ NetworkText v s.toList) ∧ (protocol rule ≠ .str "-1" →
        protocol rule ≠ .str "icmp" ∧ Plain (field rule "from_port") ∧
          ((field rule "from_port").eq (field rule "to_port") ∨ Plain (field rule "to_port"))) := by
  obtain ⟨p, hvalid, hp⟩ := hrule.protocol
  have hinj {q : String} : protocol rule ≠ .str q ↔ p ≠ q := by
    rw [hp, ne_eq, Json.str.injEq]
  rw [matchArgs_eq hrule hp, hinj, hinj]
  by_cases hall : p = "-1"
  · rw [if_pos hall]
    constructor
    · rintro ⟨ws, hws, hwell⟩
      refine ⟨?_, fun h => absurd hall h⟩
      cases hwell with
      | all hnet => exact ⟨_, by simpa using hws, hnet⟩
      | protocol => simp at hws
      | ports => simp at hws
    · rintro ⟨⟨s, rfl, hnet⟩, -⟩
      exact ⟨[flag, s, "-j", "ACCEPT"], rfl, .all hnet⟩
  · rw [if_neg hall]
    obtain ⟨f, t, hf, ht, -, -, h0, hle, h1⟩ := hrule.ports (hinj.mpr hall)
    rw [← portsText_iff hrepr hf ht h0 hle h1]
    constructor
    · rintro ⟨ws, hws, hwell⟩
      cases hwell with
      | all => simp at hws
      | protocol => simp at hws
      | @ports q net ports hq hnet hports =>
        simp only [List.map_cons, List.map_nil, List.cons.injEq, Json.str.injEq, true_and,
          and_true] at hws
        obtain ⟨rfl, hcidr, rfl⟩ := hws
        refine ⟨⟨net, hcidr, hnet⟩, fun _ => ⟨?_, hports⟩⟩
        rintro rfl
        exact absurd hq (by decide)
    · rintro ⟨⟨s, rfl, hnet⟩, h⟩
      obtain ⟨hicmp, hports⟩ := h hall
      refine ⟨["-p", p, flag, s, "--dport", portText pf rule, "-j", "ACCEPT"], rfl,
        .ports ?_ hnet hports⟩
      simp only [validProtocols, List.mem_cons, List.not_mem_nil, or_false] at hvalid ⊢
      tauto

/-- A rule is printable if and only if its commands are well formed. -/
theorem printable_iff
    (hrepr : ∀ x, ∃ c ∈ (pf.repr (.float x)).toList, c.isDigit = false ∧ c ≠ ':')
    (hrule : Accepted rule) (d : Direction) :
    Printable rule ↔ ∀ c ∈ iptablesRuleArgs pf rule d,
      ∃ ws, c.2 = ws.map .str ∧ WellFormed c.1.family d.flag ws := by
  rw [iptablesRuleArgs_eq hrule]
  constructor
  · intro h c hc
    obtain ⟨f, hf, hc⟩ := List.mem_filterMap.mp hc
    obtain ⟨htruthy, hc⟩ := Option.ite_none_right_eq_some.mp hc
    cases hc
    exact (wellFormed_matchArgs_iff hrepr hrule).mpr ⟨h.network f hf htruthy,
      h.ports ⟨f, hf, htruthy⟩⟩
  · intro h
    have hfield {f : String × Tool} (hf : f ∈ cidrFields) (htruthy : (field rule f.1).truthy) :=
      (wellFormed_matchArgs_iff hrepr hrule).mp
        (h _ (List.mem_filterMap.mpr ⟨f, hf, if_pos htruthy⟩))
    exact ⟨fun f hf htruthy => (hfield hf htruthy).1, fun ⟨f, hf, htruthy⟩ => (hfield hf htruthy).2⟩

end Commands

/-! ### The script -/

section Script

/-- Words with blanks between them. -/
def unwords (ws : List String) : Line := [' '].intercalate (ws.map String.toList)

theorem unwords_cons_cons (a b : String) (ws : List String) :
    unwords (a :: b :: ws) = a.toList ++ ' ' :: unwords (b :: ws) := by
  simp [unwords, List.intercalate]

theorem unwords_singleton (a : String) : unwords [a] = a.toList := by
  simp [unwords, List.intercalate]

/-- The characters of options, names, networks and ports. -/
def isWordChar (c : Char) : Bool := isAddressChar c || c.isAlpha || c == '-'

def isWord (l : Line) : Bool := !l.isEmpty && l.all isWordChar

theorem isWord_of_forall {l : Line} (hne : l ≠ []) (h : ∀ c ∈ l, isWordChar c = true) :
    isWord l = true := by
  rw [isWord, Bool.and_eq_true, Bool.not_eq_true', List.isEmpty_eq_false_iff, List.all_eq_true]
  exact ⟨hne, h⟩

theorem isWord_of_networkText {v : IpVersion} {l : Line} (h : NetworkText v l) :
    isWord l = true := by
  obtain ⟨hread, hscope⟩ := h
  refine isWord_of_forall ?_ fun c hc => ?_
  · rintro rfl
    cases v <;> exact absurd hread (by decide)
  · obtain ⟨n, hn⟩ := Option.isSome_iff_exists.mp hread
    rw [isWordChar, isAddressChar_of_networkOfText hn hscope c hc]
    rfl

theorem isWord_of_portsText {l : Line} (h : PortsText l) : isWord l = true := by
  refine isWord_of_forall ?_ fun c hc => ?_
  · rintro rfl
    generalize hl : ([] : Line) = l at h
    cases h with
    | one h =>
      rw [← hl] at h
      exact absurd h.1 (by decide)
    | range => simp at hl
  · have haddress : isAddressChar c = true := by
      rcases char_of_portsText h c hc with h | rfl
      · exact isAddressChar_of_isDigit h
      · decide
    rw [isWordChar, haddress]
    rfl

/-- The words of a well-formed command. -/
theorem isWord_of_wellFormed {v : IpVersion} {ws : List String}
    (h : WellFormed v Direction.ingress.flag ws) : ∀ w ∈ ws, isWord w.toList = true := by
  have hfixed : ∀ w ∈ ["-p", "-s", "--dport", "-j", "ACCEPT", "tcp", "udp", "icmp"],
      isWord w.toList = true := by
    decide
  have hproto {p : String} (hp : p ∈ ["tcp", "udp", "icmp"]) : isWord p.toList = true := by
    refine hfixed p ?_
    simp only [List.mem_cons, List.not_mem_nil, or_false] at hp ⊢
    tauto
  cases h with
  | all hnet =>
    simp only [List.forall_mem_cons]
    exact ⟨hfixed _ (by decide), isWord_of_networkText hnet, hfixed _ (by decide),
      hfixed _ (by decide), nofun⟩
  | protocol hp hnet =>
    simp only [List.forall_mem_cons]
    exact ⟨hfixed _ (by decide), hproto hp, hfixed _ (by decide), isWord_of_networkText hnet,
      hfixed _ (by decide), hfixed _ (by decide), nofun⟩
  | ports hp hnet hports =>
    simp only [List.forall_mem_cons]
    refine ⟨hfixed _ (by decide), hproto ?_, hfixed _ (by decide), isWord_of_networkText hnet,
      hfixed _ (by decide), isWord_of_portsText hports, hfixed _ (by decide), hfixed _ (by decide),
      nofun⟩
    simp only [List.mem_cons, List.not_mem_nil, or_false] at hp ⊢
    tauto

theorem not_mem_of_isWord {l : Line} (h : isWord l = true) {c : Char} (hc : isWordChar c = false) :
    c ∉ l := by
  rw [isWord, Bool.and_eq_true] at h
  intro hmem
  rw [List.all_eq_true.mp h.2 c hmem] at hc
  cases hc

/-- Words are read back. -/
theorem words_unwords {ws : List String} (hne : ws ≠ []) (h : ∀ w ∈ ws, isWord w.toList = true) :
    words (unwords ws) = ws.map String.toList := by
  rw [words, unwords, List.splitOn_intercalate]
  · refine List.filter_eq_self.mpr fun l hl => ?_
    obtain ⟨w, hw, rfl⟩ := List.mem_map.mp hl
    have hword := h w hw
    rw [isWord, Bool.and_eq_true, Bool.not_eq_true', List.isEmpty_eq_false_iff] at hword
    exact decide_eq_true hword.1
  · intro l hl
    obtain ⟨w, hw, rfl⟩ := List.mem_map.mp hl
    exact not_mem_of_isWord (h w hw) (by decide)
  · exact fun hnil => hne (List.map_eq_nil_iff.mp hnil)

theorem not_mem_unwords {ws : List String} (h : ∀ w ∈ ws, isWord w.toList = true) {c : Char}
    (hc : isWordChar c = false) (hblank : c ≠ ' ') : c ∉ unwords ws := by
  induction ws with
  | nil => exact List.not_mem_nil
  | cons a ws ih =>
    have ha := not_mem_of_isWord (h a List.mem_cons_self) hc
    cases ws with
    | nil => rwa [unwords_singleton]
    | cons b ws =>
      rw [unwords_cons_cons, List.mem_append, List.mem_cons, not_or, not_or]
      exact ⟨ha, hblank, ih fun w hw => h w (List.mem_cons_of_mem a hw)⟩

/-- A line of the words of a command is that command. -/
theorem sameCommand_unwords {tool : Tool} {ws : List String}
    (h : WellFormed tool.family Direction.ingress.flag ws) :
    SameCommand (tool, ws.map .str) (unwords (tool.name :: "-A" :: "INPUT" :: ws)) := by
  have hwords : ∀ w ∈ tool.name :: "-A" :: "INPUT" :: ws, isWord w.toList = true := by
    simp only [List.forall_mem_cons]
    refine ⟨?_, ?_, ?_, isWord_of_wellFormed h⟩
    · cases tool <;> decide
    · decide
    · decide
  refine ⟨ws, rfl, h, words_unwords (List.cons_ne_nil _ _) hwords, fun ch hch => ?_⟩
  have hspecial : ∀ ch ∈ shellSpecials, isWordChar ch = false ∧ ch ≠ ' ' := by decide
  exact not_mem_unwords hwords (hspecial ch hch).1 (hspecial ch hch).2

/-- A text without white space at its ends. -/
theorem stripBy_of_ends {p : Char → Bool} {c d : Char} (l : Line) (hc : p c = false)
    (hd : p d = false) : stripBy p (c :: (l ++ [d])) = c :: (l ++ [d]) := by
  rw [stripBy, List.dropWhile_cons, hc]
  simp [hd]

theorem text_eq (s : String) : text s = s.toList := by
  rw [text]

theorem text_accept : text " -j ACCEPT" = ' ' :: ("-j".toList ++ ' ' :: "ACCEPT".toList) := by
  with_unfolding_all decide

/-- The line of a rule for all traffic. -/
theorem line_all (tool : Tool) (s : String) :
    text tool.name ++ text " -A INPUT -s " ++ s.toList ++ text " -j ACCEPT" =
      unwords [tool.name, "-A", "INPUT", "-s", s, "-j", "ACCEPT"] := by
  have hsource : text " -A INPUT -s " =
      ' ' :: ("-A".toList ++ ' ' :: ("INPUT".toList ++ ' ' :: ("-s".toList ++ [' ']))) := by
    with_unfolding_all decide
  rw [hsource, text_accept, text_eq]
  simp only [unwords_cons_cons, unwords_singleton, List.append_assoc, List.cons_append,
    List.nil_append]

/-- The line of a rule with a protocol and ports. -/
theorem line_ports (tool : Tool) (p s ports : String) :
    stripBy isSpace (text tool.name ++ text " -A INPUT -p " ++ p.toList ++ text " -s " ++ s.toList ++
      text " " ++ (text "--dport " ++ ports.toList) ++ text " -j ACCEPT") =
        unwords [tool.name, "-A", "INPUT", "-p", p, "-s", s, "--dport", ports, "-j", "ACCEPT"] := by
  have hprotocol : text " -A INPUT -p " =
      ' ' :: ("-A".toList ++ ' ' :: ("INPUT".toList ++ ' ' :: ("-p".toList ++ [' ']))) := by
    with_unfolding_all decide
  have hsource : text " -s " = ' ' :: ("-s".toList ++ [' ']) := by with_unfolding_all decide
  have hports : text " " ++ text "--dport " = ' ' :: ("--dport".toList ++ [' ']) := by with_unfolding_all decide
  have hline : text tool.name ++ text " -A INPUT -p " ++ p.toList ++ text " -s " ++ s.toList ++
      text " " ++ (text "--dport " ++ ports.toList) ++ text " -j ACCEPT" =
        unwords [tool.name, "-A", "INPUT", "-p", p, "-s", s, "--dport", ports, "-j", "ACCEPT"] := by
    rw [← List.append_assoc (_ ++ text " "), List.append_assoc _ (text " ") (text "--dport "),
      hports, hprotocol, hsource, text_accept, text_eq]
    simp only [unwords_cons_cons, unwords_singleton, List.append_assoc, List.cons_append,
      List.nil_append]
  -- the line begins with the name of the program and ends with the target
  have hname : ∃ l, text tool.name = 'i' :: l := by
    rw [text_eq]
    cases tool
    · exact ⟨"ptables".toList, by decide⟩
    · exact ⟨"p6tables".toList, by decide⟩
  have hend : text " -j ACCEPT" = text " -j ACCEP" ++ ['T'] := by with_unfolding_all decide
  rw [← hline]
  obtain ⟨l, hl⟩ := hname
  rw [hl, hend]
  simp only [List.cons_append, ← List.append_assoc]
  exact stripBy_of_ends _ (by decide) (by decide)

theorem forall₂_filterMap {α β γ : Type} {R : β → γ → Prop} {f : α → Option β} {g : α → Option γ}
    {l : List α} (h : ∀ x ∈ l, (f x = none ∧ g x = none) ∨ ∃ b c, f x = some b ∧ g x = some c ∧ R b c) :
    List.Forall₂ R (l.filterMap f) (l.filterMap g) := by
  induction l with
  | nil => exact .nil
  | cons x l ih =>
    have hrest := ih fun y hy => h y (List.mem_cons_of_mem x hy)
    rcases h x List.mem_cons_self with ⟨hf, hg⟩ | ⟨b, c, hf, hg, hR⟩
    · rwa [List.filterMap_cons_none hf, List.filterMap_cons_none hg]
    · rw [List.filterMap_cons_some hf, List.filterMap_cons_some hg]
      exact .cons hR hrest

theorem forall₂_flatMap {α β γ : Type} {R : β → γ → Prop} {f : α → List β} {g : α → List γ}
    {l : List α} (h : ∀ x ∈ l, List.Forall₂ R (f x) (g x)) :
    List.Forall₂ R (l.flatMap f) (l.flatMap g) := by
  induction l with
  | nil => exact .nil
  | cons x l ih =>
    rw [List.flatMap_cons, List.flatMap_cons]
    exact List.rel_append (h x List.mem_cons_self) (ih fun y hy => h y (List.mem_cons_of_mem x hy))

theorem exists_of_forall₂ {α β : Type} {R : α → β → Prop} {l : List α} {l' : List β}
    (h : List.Forall₂ R l l') : ∀ y ∈ l', ∃ x ∈ l, R x y := by
  induction h with
  | nil => exact nofun
  | cons hR _ ih =>
    refine List.forall_mem_cons.mpr ⟨⟨_, List.mem_cons_self, hR⟩, fun y hy => ?_⟩
    obtain ⟨x, hx, hxy⟩ := ih y hy
    exact ⟨x, List.mem_cons_of_mem _ hx, hxy⟩

variable {pf : Platform}

/-- **The lines of a printable rule are its commands.** -/
theorem sameCommand_ruleLines
    (hrepr : ∀ x, ∃ c ∈ (pf.repr (.float x)).toList, c.isDigit = false ∧ c ≠ ':') {rule : Json}
    (hrule : Accepted rule) (hprint : Printable rule) :
    List.Forall₂ SameCommand (iptablesRuleArgs pf rule .ingress) (ruleLines pf rule) := by
  obtain ⟨p, hvalid, hp⟩ := hrule.protocol
  have hsome : (!(field rule "cidr").truthy && !(field rule "cidr_ipv6").truthy &&
      !(field rule "source_sg_id").truthy) = false := by
    rcases hrule.network with h | h | h <;> simp [h]
  have hcommand {f : String × Tool} {s : String} (hf : f ∈ cidrFields)
      (htruthy : (field rule f.1).truthy = true) (hs : field rule f.1 = .str s) :
      ∃ ws, matchArgs pf rule Direction.ingress.flag (.str s) = ws.map .str ∧
        WellFormed f.2.family Direction.ingress.flag ws := by
    refine (wellFormed_matchArgs_iff hrepr hrule).mpr ⟨?_, hprint.ports ⟨f, hf, htruthy⟩⟩
    rw [← hs]
    exact hprint.network f hf htruthy
  rw [iptablesRuleArgs_eq hrule, ruleLines, hsome]
  simp only [Bool.false_eq_true, if_false, List.append_nil]
  refine forall₂_filterMap fun f hf => ?_
  by_cases htruthy : (field rule f.1).truthy = true
  · right
    obtain ⟨s, hs, hnet⟩ := hprint.network f hf htruthy
    obtain ⟨ws, hws, hwell⟩ := hcommand hf htruthy hs
    have hsame := sameCommand_unwords hwell
    have hargs := @matchArgs_eq pf _ hrule _ hp Direction.ingress.flag (.str s)
    rw [hws] at hargs
    have hnot : ¬(!(field rule f.1).truthy) = true := by rw [htruthy]; decide
    rw [if_pos htruthy, if_neg hnot, hs, hws, hp]
    by_cases hall : p = "-1"
    · rw [if_pos (Json.eq_str.mpr (congrArg Json.str hall))]
      rw [if_pos hall] at hargs
      have hwords : ws = ["-s", s, "-j", "ACCEPT"] :=
        List.map_injective_iff.mpr (fun _ _ => Json.str.inj) hargs
      rw [hwords, ← line_all] at hsame
      rw [hwords]
      exact ⟨_, _, rfl, rfl, hsame⟩
    · rw [if_neg fun h => hall (Json.str.inj (Json.eq_str.mp h))]
      rw [if_neg hall] at hargs
      have hwords : ws = ["-p", p, "-s", s, "--dport", portText pf rule, "-j", "ACCEPT"] :=
        List.map_injective_iff.mpr (fun _ _ => Json.str.inj) hargs
      have hports : hasPorts rule = true := by
        obtain ⟨_, _, -, -, hfrom, hto, -⟩ := hrule.ports fun h => hall (Json.str.inj (hp ▸ h))
        rw [hasPorts, hfrom, hto]
        rfl
      rw [hwords, ← line_ports] at hsame
      rw [hwords, dport, if_pos hports]
      exact ⟨_, _, rfl, rfl, hsame⟩
  · left
    rw [Bool.not_eq_true] at htruthy
    simp [htruthy]

end Script

/-- **A rule list that the check lets through gives well-formed commands if and only if its
rules are printable.** -/
theorem harmless_iff {pf : Platform} {rules : List Json}
    (hrepr : ∀ x, ∃ c ∈ (pf.repr (.float x)).toList, c.isDigit = false ∧ c ≠ ':')
    (h : validateRules pf rules = .ok none) :
    Harmless pf rules ↔ ∀ rule ∈ rules, Printable rule := by
  have haccepted := accepted_of_validateRules h
  constructor
  · intro hharmless rule hrule
    exact (printable_iff hrepr (haccepted rule hrule) .ingress).mpr
      (hharmless.commands rule hrule .ingress)
  · intro hprint
    refine ⟨fun rule hrule d => (printable_iff hrepr (haccepted rule hrule) d).mp
      (hprint rule hrule), fun egress => ⟨rules.flatMap (ruleLines pf), ?_, ?_⟩⟩
    · rw [buildIptablesScript, lines_join (List.append_ne_nil_of_left_ne_nil (by decide) _),
        List.flatMap_congr (g := fun l => [l]), List.flatMap_singleton']
      intro l hl
      refine lines_of_not_mem ?_
      rcases List.mem_append.mp hl with hl | hl
      · have hfixed : ∀ l ∈ fixedLines, '\n' ∉ l := by with_unfolding_all decide
        exact hfixed l hl
      · obtain ⟨rule, hrule, hl⟩ := List.mem_flatMap.mp hl
        obtain ⟨c, -, -, -, -, -, hspecial⟩ := exists_of_forall₂
          (sameCommand_ruleLines hrepr (haccepted rule hrule) (hprint rule hrule)) l hl
        exact hspecial '\n' (by decide)
    · exact forall₂_flatMap fun rule hrule =>
        sameCommand_ruleLines hrepr (haccepted rule hrule) (hprint rule hrule)

/-! ### Two rules -/

/-- A platform on which all doubles print alike. -/
def halves : Platform where
  renderReal _ := "0.5"
  repr _ := "0.5"
  lower := id
  upper := id

theorem odd_halves (x : Double) :
    ∃ c ∈ (halves.repr (.float x)).toList, c.isDigit = false ∧ c ≠ ':' := by
  have hdot : '.' ∈ "0.5".toList := by decide
  exact ⟨'.', hdot, by decide, by decide⟩

theorem ok_of_toOption {ε α : Type} {x : Except ε α} {a : α} (h : x.toOption = some a) :
    x = .ok a := by
  cases x with
  | error e => cases h
  | ok b =>
    cases h
    rfl

/-- Access by `ssh` from a network. -/
def sshRule : Json :=
  .obj [("protocol", .str "tcp"), ("from_port", .int 22), ("to_port", .int 22),
    ("cidr", .str "10.0.0.0/8")]

theorem harmless_iff_ssh : Harmless halves [sshRule] := by
  refine (harmless_iff odd_halves ?_).mpr ?_
  · exact ok_of_toOption (by decide)
  · have hicmp : protocol sshRule ≠ .str "icmp" := fun h => absurd (Json.str.inj h) (by decide)
    refine List.forall_mem_singleton.mpr ⟨?_, fun _ _ => ⟨hicmp, trivial, .inr trivial⟩⟩
    refine List.forall_mem_cons.mpr ⟨fun _ => ⟨"10.0.0.0/8", rfl, ?_, ?_⟩, ?_⟩
    · decide
    · decide
    · exact List.forall_mem_singleton.mpr fun h => absurd h (by decide)

/-- A network with a command behind it. -/
def reboot : Json :=
  .obj [("protocol", .str "-1"), ("cidr", .str "0.0.0.0/0; reboot")]

/-- A command behind a network is let through. -/
theorem smuggled : ¬∀ rules, validateRules halves rules = .ok none → Harmless halves rules := by
  intro hall
  have hcheck : validateRules halves [reboot] = .ok none := ok_of_toOption (by decide)
  have hrule : reboot ∈ [reboot] := List.mem_singleton_self _
  have hprint := (printable_iff odd_halves (accepted_of_validateRules hcheck reboot hrule) .ingress).mpr
    ((hall [reboot] hcheck).commands reboot hrule .ingress)
  obtain ⟨s, hs, hread, -⟩ := hprint.network ("cidr", .iptables) (by decide) (by decide)
  obtain rfl : "0.0.0.0/0; reboot" = s := Json.str.inj hs
  exact absurd hread (by decide)

end SecurityGroups
end CloudCore
