import CloudCore.SecurityGroups.Bridge

/-!
# Calls, one after the other

What `sg.py` leaves on the host, when its calls for all the instances come one after the other: each
instance sends what the rules say that were applied to it last.

## Main definitions

* `Ledger`, `Holds` — the rules that were applied last, and a host that holds them.
* `Documented`, `Canonical` — how the programs read the words of a rule, and rules that they read as Python
  does.
* `Means` — what whoever wrote a rule wants to let out.

## Main results

* `Holds.called` — a call leaves the host with the rules that the ledger says.
* `covers_iff_means` — the commands of a canonical rule cover what it means.
* `passes_iff_of_calls` — **an instance sends exactly what the rules mean that were applied to it last.**
-/

namespace CloudCore
namespace Egress

open Python Formats SecurityGroups Netfilter Effect
open Api (Platform)

/-- Instances have chains and addresses of their own. -/
def Apart (G : Guest → Prop) : Prop :=
  ∀ g g', G g → G g' → g.chain = g'.chain ∨ g.mac = g'.mac → g = g'

/-- The rules that were applied last, for each instance that has any. -/
abbrev Ledger := Guest → Option (List Json)

def Ledger.call (l : Ledger) (x : Guest × Call) : Ledger :=
  Function.update l x.1 (match x.2 with
    | .apply egress => some egress
    | .remove => none)

/-- The host holds the rules of the ledger, and no others. -/
structure Holds (reads : Tool → List String → Option (Packet → Bool)) (pf : Platform) (G : Guest → Prop)
    (l : Ledger) (s : Host) : Prop where
  ipv6 : s .ip6tables = ⟨fun _ => none, []⟩
  nodup : (s .iptables).jumps.Nodup
  jumps : ∀ j ∈ (s .iptables).jumps, ∃ g, G g ∧ (l g).isSome = true ∧ j = g.jump
  there : ∀ g, G g → ∀ egress, l g = some egress → g.jump ∈ (s .iptables).jumps ∧
    (s .iptables).chains g.chain = some (compiled reads pf egress ++ [dropAll])
  gone : ∀ g, G g → l g = none → (s .iptables).chains g.chain = none

section

variable {reads : Tool → List String → Option (Packet → Bool)} {pf : Platform} {G : Guest → Prop} {l : Ledger}
  {g g' : Guest} {s : Host}

theorem Holds.eq_of_chain (h : Holds reads pf G l s) (hG : Apart G) (hg : G g) {j : Jump}
    (hj : j ∈ (s .iptables).jumps) (hchain : j.chain = g.chain) : j = g.jump ∧ (l g).isSome = true := by
  obtain ⟨g', hg', hsome, rfl⟩ := h.jumps j hj
  obtain rfl := hG g' g hg' hg (.inl hchain)
  exact ⟨rfl, hsome⟩

/-- There is a jump for the instance exactly where it has rules. -/
theorem Holds.macJumpExists (h : Holds reads pf G l s) (hG : Apart G) (hg : G g) :
    Egress.macJumpExists g.chain g.mac (s .iptables).jumps = (l g).isSome := by
  cases hl : l g with
  | none =>
    unfold Egress.macJumpExists
    rw [Option.isSome_none, Bool.and_eq_false_iff, List.any_eq_false]
    refine .inl fun j hj hchain => ?_
    have := (h.eq_of_chain hG hg hj (beq_iff_eq.mp hchain)).2
    rw [hl] at this
    cases this
  | some egress =>
    obtain ⟨hj, -⟩ := h.there g hg egress hl
    simp only [Egress.macJumpExists, Option.isSome_some, Bool.and_eq_true, List.any_eq_true]
    exact ⟨⟨g.jump, hj, beq_self_eq_true _⟩, ⟨g.jump, hj, beq_self_eq_true _⟩⟩

theorem not_mem_jumps (h : Holds reads pf G l s) (hG : Apart G) (hg : G g) (hl : l g = none) :
    g.jump ∉ (s .iptables).jumps := by
  intro hj
  have := (h.eq_of_chain hG hg hj rfl).2
  rw [hl] at this
  cases this

/-- What is done for one instance leaves the chains and the jumps of the others alone. -/
theorem Holds.changed (h : Holds reads pf G l s) (hG : Apart G) (hg : G g) {x : Call} {f : Filter}
    (hnodup : f.jumps.Nodup)
    (hjumps : ∀ j, j ≠ g.jump → (j ∈ f.jumps ↔ j ∈ (s .iptables).jumps))
    (hchains : ∀ chain, chain ≠ g.chain → f.chains chain = (s .iptables).chains chain)
    (hthere : ∀ egress, l.call (g, x) g = some egress → g.jump ∈ f.jumps ∧
      f.chains g.chain = some (compiled reads pf egress ++ [dropAll]))
    (hgone : l.call (g, x) g = none → g.jump ∉ f.jumps ∧ f.chains g.chain = none) :
    Holds reads pf G (l.call (g, x)) (Function.update s .iptables f) := by
  have hother {g'} (hne : g' ≠ g) : l.call (g, x) g' = l g' := Function.update_of_ne hne ..
  have hchain {g'} (hg' : G g') (hne : g' ≠ g) : g'.chain ≠ g.chain :=
    fun hchain => hne (hG g' g hg' hg (.inl hchain))
  constructor
  · rw [Function.update_of_ne (by simp), h.ipv6]
  · rwa [Function.update_self]
  · intro j hj
    rw [Function.update_self] at hj
    by_cases hjump : j = g.jump
    · exact ⟨g, hg, Option.isSome_iff_ne_none.mpr fun hnone => (hgone hnone).1 (hjump ▸ hj), hjump⟩
    · obtain ⟨g', hg', hsome, rfl⟩ := h.jumps j ((hjumps j hjump).mp hj)
      have hne : g' ≠ g := fun hne => hjump (by rw [hne])
      exact ⟨g', hg', by rwa [hother hne], rfl⟩
  · intro g' hg' egress hl
    rw [Function.update_self]
    by_cases hne : g' = g
    · subst hne
      exact hthere egress hl
    · rw [hother hne] at hl
      obtain ⟨hj, hrules⟩ := h.there g' hg' egress hl
      have hjump : g'.jump ≠ g.jump := fun hjump => hchain hg' hne (congrArg Jump.chain hjump)
      exact ⟨(hjumps _ hjump).mpr hj, (hchains _ (hchain hg' hne)).trans hrules⟩
  · intro g' hg' hl
    rw [Function.update_self]
    by_cases hne : g' = g
    · subst hne
      exact (hgone hl).2
    · rw [hother hne] at hl
      exact (hchains _ (hchain hg' hne)).trans (h.gone g' hg' hl)

/-- An application. -/
theorem Holds.applied (h : Holds reads pf G l s) (hG : Apart G) (hg : G g) (egress : List Json) :
    Holds reads pf G (l.call (g, .apply egress))
      (Function.update s .iptables (Egress.applied (s .iptables) g (compiled reads pf egress))) := by
  -- the jump is inserted if it is not there
  have hjumps : (Egress.applied (s .iptables) g (compiled reads pf egress)).jumps =
      if (l g).isSome = true then (s .iptables).jumps else g.jump :: (s .iptables).jumps := by
    rw [Egress.applied, h.macJumpExists hG hg]
  refine h.changed hG hg ?_ (fun j hj => ?_) (fun chain hne => Function.update_of_ne hne ..)
    (fun egress' hl => ?_) (fun hl => ?_)
  · rw [hjumps]
    cases hl : l g with
    | none => exact List.nodup_cons.mpr ⟨not_mem_jumps h hG hg hl, h.nodup⟩
    | some old => exact h.nodup
  · rw [hjumps]
    split
    · rfl
    · exact List.mem_cons.trans (or_iff_right hj)
  · rw [Ledger.call, Function.update_self] at hl
    cases hl
    refine ⟨?_, Function.update_self ..⟩
    rw [hjumps]
    cases hl : l g with
    | none => exact List.mem_cons_self
    | some old => exact (h.there g hg old hl).1
  · rw [Ledger.call, Function.update_self] at hl
    cases hl

/-- A removal of rules that are there. -/
theorem Holds.removed (h : Holds reads pf G l s) (hG : Apart G) (hg : G g) :
    Holds reads pf G (l.call (g, .remove)) (Function.update s .iptables (Egress.removed (s .iptables) g)) := by
  refine h.changed hG hg (h.nodup.erase _) (fun j hj => h.nodup.mem_erase_iff.trans (and_iff_right hj))
    (fun chain hne => Function.update_of_ne hne ..) (fun egress hl => ?_) (fun _ => ⟨?_, Function.update_self ..⟩)
  · rw [Ledger.call, Function.update_self] at hl
    cases hl
  · exact fun hj => (h.nodup.mem_erase_iff.mp hj).1 rfl

/-- **A call leaves the host with the rules that the ledger says.** -/
theorem Holds.called (h : Holds reads pf G l s) (hG : Apart G) (hmac : ∀ g, G g → g.mac ≠ "") {x : Guest × Call}
    (hg : G x.1) (hworded : ∀ egress, x.2 = .apply egress → ∀ rule ∈ egress, Worded pf rule) :
    Holds reads pf G (l.call x) (called reads pf s x) := by
  obtain ⟨g, call⟩ := x
  cases call with
  | apply egress =>
    have hrun : Egress.called reads pf s (g, .apply egress) =
        Function.update s .iptables (Egress.applied (s .iptables) g (compiled reads pf egress)) := by
      have hrun : (applyBridge pf g.domain g.id egress).run (answer reads g.mac) s = _ :=
        run_applyBridge (hmac g hg) (hworded egress rfl) (by rw [h.ipv6])
      unfold Egress.called
      simp only [Call.program, hrun]
    rw [hrun]
    exact h.applied hG hg egress
  | remove =>
    cases hl : l g with
    -- nothing to remove: all three commands fail
    | none =>
      have hrun : Egress.called reads pf s (g, .remove) = s := by
        unfold Egress.called
        simp only [Call.program, run_removeBridge_none (hmac g hg) (h.gone g hg hl) (not_mem_jumps h hG hg hl)]
      have hsame : l.call (g, .remove) = l := Function.update_eq_self_iff.mpr hl.symm
      rw [hrun, hsame]
      exact h
    | some egress =>
      obtain ⟨hj, hchain⟩ := h.there g hg egress hl
      -- nothing else leads to the chain, so that it can be deleted
      have hlast : ∀ j ∈ (s .iptables).jumps.erase g.jump, j.chain ≠ g.chain := by
        intro j hj hchain
        obtain ⟨hne, hj⟩ := h.nodup.mem_erase_iff.mp hj
        exact hne (h.eq_of_chain hG hg hj hchain).1
      have hrun : Egress.called reads pf s (g, .remove) =
          Function.update s .iptables (Egress.removed (s .iptables) g) := by
        unfold Egress.called
        simp only [Call.program, run_removeBridge (hmac g hg) (by rw [hchain]; rfl) hj hlast]
      rw [hrun]
      exact h.removed hG hg

theorem Holds.calls (h : Holds reads pf G l s) (hG : Apart G) (hmac : ∀ g, G g → g.mac ≠ "")
    {calls : List (Guest × Call)} (hcalls : ∀ x ∈ calls, G x.1)
    (hworded : ∀ x ∈ calls, ∀ egress, x.2 = .apply egress → ∀ rule ∈ egress, Worded pf rule) :
    Holds reads pf G (calls.foldl Ledger.call l) (calls.foldl (Egress.called reads pf) s) := by
  induction calls generalizing l s with
  | nil => exact h
  | cons x calls ih =>
    refine ih ?_ (fun y hy => hcalls y (List.mem_cons_of_mem _ hy)) fun y hy =>
      hworded y (List.mem_cons_of_mem _ hy)
    exact h.called hG hmac (hcalls x List.mem_cons_self) (hworded x List.mem_cons_self)

/-! ### What the rules cover -/

theorem length_argv {args : List Json} {words : List String} (h : argv args = .ok words) :
    words.length = args.length := by
  induction args generalizing words with
  | nil => cases h; rfl
  | cons arg args ih =>
    cases arg with
    | str s =>
      simp only [argv] at h
      split at h
      · cases h
      · cases hargs : argv args with
        | error e => rw [hargs] at h; cases h
        | ok rest =>
          rw [hargs] at h
          cases h
          simp [ih hargs]
    | _ => cases h

/-- A rule with a target of its own has more than two words. -/
theorem length_of_mem_iptablesRuleArgs {rule : Json} {d : Direction} {x : Tool × List Json}
    (hx : x ∈ iptablesRuleArgs pf rule d) : 2 < x.2.length := by
  have hmatch (cidr : Json) : 2 < (matchArgs pf rule d.flag cidr).length := by
    unfold matchArgs
    split <;> simp
  unfold iptablesRuleArgs at hx
  simp only at hx
  split at hx
  · rw [List.mem_singleton] at hx
    subst hx
    exact hmatch _
  · obtain ⟨f, -, hf⟩ := List.mem_filterMap.mp hx
    split at hf <;> cases hf
    exact hmatch _

/-- So it is read, and not taken for the end of a chain. -/
theorem compile_eq {x : Tool × List Json} (hlong : 2 < x.2.length) (htool : x.1 = .iptables) {words : List String}
    (h : argv x.2 = .ok words) :
    compile reads x = (reads .iptables words).map fun test => ⟨test, .verdict .accept⟩ := by
  have hne : words ≠ dropWords := by
    rintro rfl
    rw [← length_argv h] at hlong
    exact absurd hlong (by simp [dropWords])
  rw [compile, if_pos htool, h]
  exact if_neg hne

theorem exists_of_compile {x : Tool × List Json} (hlong : 2 < x.2.length) {r : Rule Packet String}
    (h : compile reads x = some r) : x.1 = .iptables ∧ ∃ words test, argv x.2 = .ok words ∧
      reads .iptables words = some test ∧ r = ⟨test, .verdict .accept⟩ := by
  have htool : x.1 = .iptables := by
    by_contra hne
    rw [compile, if_neg hne] at h
    cases h
  cases hargs : argv x.2 with
  | error e =>
    rw [compile, if_pos htool, hargs] at h
    cases h
  | ok words =>
    rw [compile_eq hlong htool hargs] at h
    obtain ⟨test, htest, rfl⟩ := Option.map_eq_some_iff.mp h
    exact ⟨htool, words, test, rfl, htest, rfl⟩

/-- The rules of a chain cover what the rules of the list do. -/
theorem covers_iff_compiled {egress : List Json} {p : Packet} (hp : p.family = .v4) :
    (∃ rule ∈ egress, Covers pf reads rule p) ↔ (compiled reads pf egress).any (·.test p) = true := by
  simp only [compiled, List.any_eq_true, List.mem_filterMap, List.mem_flatMap]
  constructor
  -- from a command to the rule in the chain, and back
  · rintro ⟨rule, hrule, x, hx, htool, words, test, hargs, htest, hpass⟩
    rw [hp] at htool
    refine ⟨⟨test, .verdict .accept⟩, ⟨x, ⟨rule, hrule, hx⟩, ?_⟩, hpass⟩
    rw [compile_eq (length_of_mem_iptablesRuleArgs hx) htool hargs, ← show x.1 = .iptables from htool, htest]
    rfl
  · rintro ⟨r, ⟨x, ⟨rule, hrule, hx⟩, hcompile⟩, hpass⟩
    have hlong := length_of_mem_iptablesRuleArgs hx
    obtain ⟨htool, words, test, hargs, htest, rfl⟩ := exists_of_compile hlong hcompile
    exact ⟨rule, hrule, x, hx, by rw [htool, hp]; rfl, words, test, hargs, by rw [htool, htest], hpass⟩

theorem target_of_mem_compiled {egress : List Json} {r : Rule Packet String} (hr : r ∈ compiled reads pf egress) :
    r.target = .verdict .accept := by
  obtain ⟨x, hx, hcompile⟩ := List.mem_filterMap.mp hr
  obtain ⟨rule, -, hx⟩ := List.mem_flatMap.mp hx
  obtain ⟨-, -, -, -, -, rfl⟩ := exists_of_compile (length_of_mem_iptablesRuleArgs hx) hcompile
  rfl

theorem ledger_calls {calls : List (Guest × Call)} {egress : List Json}
    (h : calls.foldl Ledger.call l g = some egress) :
    l g = some egress ∨ ∃ x ∈ calls, x.2 = .apply egress := by
  induction calls generalizing l with
  | nil => exact .inl h
  | cons x calls ih =>
    obtain hl | ⟨y, hy, hyx⟩ := ih h
    · unfold Ledger.call at hl
      by_cases hg : g = x.1
      · subst hg
        rw [Function.update_self] at hl
        split at hl
        next hx => cases hl; exact .inr ⟨x, List.mem_cons_self, hx⟩
        next => cases hl
      · rw [Function.update_of_ne hg] at hl
        exact .inl hl
    · exact .inr ⟨y, List.mem_cons_of_mem _ hy, hyx⟩

/-- What was applied last is in one of the calls. -/
theorem exists_of_ledger {calls : List (Guest × Call)} {egress : List Json}
    (h : calls.foldl Ledger.call (fun _ => none) g = some egress) : ∃ x ∈ calls, x.2 = .apply egress := by
  obtain hl | hx := ledger_calls h
  · cases hl
  · exact hx

/-- A host that CloudCore has not touched. -/
def Host.init : Host := fun _ => ⟨fun _ => none, []⟩

theorem holds_init : Holds reads pf G (fun _ => none) Host.init where
  ipv6 := rfl
  nodup := List.nodup_nil
  jumps j h := absurd h List.not_mem_nil
  there g _ egress h := by cases h
  gone _ _ _ := rfl

/-- After any calls, one after the other, what gets out is what the rules cover that were applied last. -/
theorem passes_iff_covered (hG : Apart G) (hmac : ∀ g, G g → g.mac ≠ "") {calls : List (Guest × Call)}
    (hcalls : ∀ x ∈ calls, G x.1)
    (hworded : ∀ x ∈ calls, ∀ egress, x.2 = .apply egress → ∀ rule ∈ egress, Worded pf rule)
    (otherwise : Packet → Bool) {p : Packet} (hv4 : p.family = .v4) (hg : G g) (hpmac : p.mac = g.mac) :
    (calls.foldl (called reads pf) Host.init).Passes otherwise p ↔
      match calls.foldl Ledger.call (fun _ => none) g with
      | some egress => ∃ rule ∈ egress, Covers pf reads rule p
      | none => otherwise p = true := by
  have hinit : Holds reads pf G (fun _ => none) Host.init := holds_init
  have h := hinit.calls hG hmac hcalls hworded
  generalize calls.foldl (called reads pf) Host.init = s at h ⊢
  generalize calls.foldl Ledger.call (fun _ => none) = l at h ⊢
  -- the jumps of the address are the one of the instance
  have hled : ∀ j ∈ (s .iptables).jumps, j.mac = p.mac → j = g.jump ∧ (l g).isSome = true := by
    intro j hj hjmac
    obtain ⟨g', hg', hsome, rfl⟩ := h.jumps j hj
    obtain rfl := hG g' g hg' hg (.inr (hjmac.trans hpmac))
    exact ⟨rfl, hsome⟩
  unfold Host.Passes
  rw [hv4]
  cases hl : l g with
  -- without rules no jump takes the packet
  | none =>
    have hpast : Walk (s .iptables).chains p ((s .iptables).jumps.map Jump.rule) none := by
      refine walk_past_jumps fun j hj hjmac => ?_
      have := (hled j hj hjmac).2
      rw [hl] at this
      cases this
    exact accepts_rest hpast
  | some egress =>
    obtain ⟨hj, hchain⟩ := h.there g hg egress hl
    simp only
    rw [covers_iff_compiled hv4, Table.accepts_iff (walk_jumps ⟨g.jump, hj, hpmac.symm⟩
      (fun j hj hjmac => congrArg Jump.chain (hled j hj hjmac).1) hchain
      (walk_whitelist (fun r hr => target_of_mem_compiled hr) rfl rfl))]
    simp

end

/-! ### What a rule means -/

/-- The number of a protocol that has ports. -/
def transport : String → Option ℕ
  | "tcp" => some 6
  | "udp" => some 17
  | _ => none

/-- The network holds the address. -/
def within (n : IpNetwork) (x : ℕ) : Bool := decide (n.address ≤ x) && decide (x ≤ n.broadcast)

/-- A decimal number without a zero in front; with one the programs take it for an octal number. -/
def isNumeral (l : Line) : Bool := l == ['0'] || isDigits l && l.head? != some '0'

/-- A network whose mask, if it has one, is a number of bits.  Other masks Python may read as host masks,
the programs take them as they are. -/
def isPlainNetwork (l : Line) : Bool :=
  match l.splitOn '/' with
  | [_] => !l.contains '%'
  | [_, bits] => !l.contains '%' && isNumeral bits
  | _ => false

/-- How the programs read the words of rules for all traffic, and for the ports of a protocol. -/
structure Documented (reads : Tool → List String → Option (Packet → Bool)) : Prop where
  all : ∀ (tool : Tool) (net : String) (n : IpNetwork), networkOfText tool.family net.toList = some n →
    isPlainNetwork net.toList = true → reads tool ["-d", net, "-j", "ACCEPT"] = some fun p => within n p.dst
  port : ∀ (tool : Tool) (proto net port : String) (n : IpNetwork) (k a : ℕ), transport proto = some k →
    networkOfText tool.family net.toList = some n → isPlainNetwork net.toList = true →
    PortText port.toList a → isNumeral port.toList = true →
    reads tool ["-p", proto, "-d", net, "--dport", port, "-j", "ACCEPT"] =
      some fun p => within n p.dst && p.proto == k && p.dport == a
  range : ∀ (tool : Tool) (proto net low high : String) (n : IpNetwork) (k a b : ℕ), transport proto = some k →
    networkOfText tool.family net.toList = some n → isPlainNetwork net.toList = true →
    PortText low.toList a → isNumeral low.toList = true → PortText high.toList b → isNumeral high.toList = true →
    a ≤ b → reads tool ["-p", proto, "-d", net, "--dport", low ++ ":" ++ high, "-j", "ACCEPT"] =
      some fun p => within n p.dst && p.proto == k && (decide (a ≤ p.dport) && decide (p.dport ≤ b))

/-- The networks and numbers of a rule are written as both programs read them. -/
structure Canonical (rule : Json) : Prop extends Printable rule where
  networks : ∀ f ∈ cidrFields, ∀ s, field rule f.1 = .str s → (field rule f.1).truthy = true →
    isPlainNetwork s.toList = true
  numerals : ∀ key ∈ ["from_port", "to_port"], ∀ s, field rule key = .str s → isNumeral s.toList = true

theorem head_toDigits {n : ℕ} (hn : n ≠ 0) : (Nat.toDigits 10 n).head? ≠ some '0' := by
  induction n using Nat.strongRecOn with
  | ind n ih =>
    have hdigit : ∀ k < 10, k ≠ 0 → k.digitChar ≠ '0' := by decide
    rw [Nat.toDigits_eq_if (by decide)]
    split
    next hlt => simpa using hdigit n hlt hn
    next hge =>
      rw [List.head?_append_of_ne_nil _ Nat.toDigits_ne_nil]
      exact ih (n / 10) (by omega) (by omega)

/-- A plain number is printed without a zero in front, if it has none. -/
theorem isNumeral_str {pf : Platform} {v : Json} {n : ℤ} (hplain : Plain v) (hv : v.toInt = .ok n) (h0 : 0 ≤ n)
    (htext : ∀ s, v = .str s → isNumeral s.toList = true) : isNumeral (pf.str v).toList = true := by
  cases v with
  | int m =>
    cases hv
    rw [toList_str_int pf h0, isNumeral, isDigits_toDigits, Bool.true_and, Bool.or_eq_true]
    by_cases hn : n.toNat = 0
    · rw [hn]
      exact .inl rfl
    · exact .inr (bne_iff_ne.mpr (head_toDigits hn))
  | str s => exact htext s rfl
  | _ => exact hplain.elim

/-- The packet has the protocol of the rule, and one of its ports. -/
def MeansPorts (rule : Json) (p : Packet) : Prop :=
  protocol rule = .str "-1" ∨ ∃ proto k low high, protocol rule = .str proto ∧ transport proto = some k ∧
    p.proto = k ∧ (field rule "from_port").toInt = .ok low ∧ (field rule "to_port").toInt = .ok high ∧
    low ≤ p.dport ∧ p.dport ≤ high

/-- What whoever wrote the rule wants to let out. -/
def Means (rule : Json) (p : Packet) : Prop :=
  ∃ f ∈ cidrFields, f.2 = toolOf p.family ∧ (field rule f.1).truthy = true ∧
    (∃ s n, field rule f.1 = .str s ∧ networkOfText f.2.family s.toList = some n ∧ within n p.dst = true) ∧
    MeansPorts rule p

section

variable {reads : Tool → List String → Option (Packet → Bool)} {pf : Platform} {rule : Json} {p : Packet}

theorem argv_words {ws : List String} (h : ∀ w ∈ ws, '\x00' ∉ w.toList) : argv (ws.map .str) = .ok ws := by
  induction ws with
  | nil => rfl
  | cons w ws ih =>
    obtain ⟨hw, hws⟩ := List.forall_mem_cons.mp h
    rw [List.map_cons, argv, if_neg (by simpa using hw), ih hws]
    rfl

/-- Equal numbers are printed as one port, and are one. -/
theorem toInt_eq_of_eq {v w : Json} {m n : ℤ} (hplain : Plain v) (hv : v.toInt = .ok m) (hw : w.toInt = .ok n)
    (heq : v.eq w = true) : m = n := by
  cases v with
  | str s =>
    rw [Json.str_eq.mp heq, hv] at hw
    cases hw
    rfl
  | int k =>
    cases hv
    cases w with
    | bool b =>
      cases hw
      simpa [Json.eq, Json.eqNumber, Json.number?] using heq
    | int l =>
      cases hw
      simpa [Json.eq, Json.eqNumber, Json.number?] using heq
    -- it equals a whole number, so `int` cuts nothing off
    | float x =>
      cases x with
      | fin m e =>
        cases hw
        simp only [Json.eq, Json.eqNumber, Json.number?, beq_iff_eq] at heq
        split
        next he =>
          rw [show (0 - e).toNat = 0 by omega, show (e - 0).toNat = e.toNat by omega] at heq
          simpa using heq
        next he =>
          rw [show (0 - e).toNat = (-e).toNat by omega, show (e - 0).toNat = 0 by omega, pow_zero, mul_one] at heq
          rw [← heq, Int.mul_tdiv_cancel _ (Int.ne_of_gt (Int.pow_pos (by decide)))]
      | nan => cases hw
      | inf b => cases hw
    | null => cases hw
    | str s => exact absurd heq Bool.false_ne_true
    | arr a => cases hw
    | obj a => cases hw
  | _ => exact hplain.elim

variable (pf) in
/-- The words of a canonical rule, and what the programs make of them. -/
theorem reads_of_canonical (hdoc : Documented reads) (hrule : Accepted rule) (hcanon : Canonical rule)
    {f : String × Tool} (hf : f ∈ cidrFields) (htruthy : (field rule f.1).truthy = true) :
    ∃ s n words test, field rule f.1 = .str s ∧ networkOfText f.2.family s.toList = some n ∧
      argv (matchArgs pf rule "-d" (field rule f.1)) = .ok words ∧ reads f.2 words = some test ∧
      ∀ p, test p = true ↔ within n p.dst = true ∧ MeansPorts rule p := by
  obtain ⟨s, hs, hnet⟩ := hcanon.network f hf htruthy
  obtain ⟨n, hn⟩ := Option.isSome_iff_exists.mp hnet.1
  obtain ⟨proto, hvalid, hproto⟩ := hrule.protocol
  have hword {l : Line} (h : isWord l = true) : '\x00' ∉ l := not_mem_of_isWord h (by decide)
  have hplainNet := hcanon.networks f hf s hs htruthy
  have hword_net : '\x00' ∉ s.toList := hword (isWord_of_networkText hnet)
  rw [matchArgs_eq hrule hproto, hs]
  -- for all traffic the words have no ports
  by_cases hall : proto = "-1"
  · subst hall
    rw [if_pos rfl]
    have hwords : ∀ w ∈ ["-d", s, "-j", "ACCEPT"], '\x00' ∉ w.toList := by
      simp only [List.forall_mem_cons]
      exact ⟨hword (by decide), hword_net, hword (by decide), hword (by decide),
        fun _ h => absurd h List.not_mem_nil⟩
    refine ⟨s, n, ["-d", s, "-j", "ACCEPT"], _, rfl, hn, argv_words hwords, hdoc.all f.2 s n hn hplainNet,
      fun p => ?_⟩
    simp [MeansPorts, hproto]
  · rw [if_neg hall]
    have hne : protocol rule ≠ .str "-1" := by rw [hproto]; exact fun h => hall (Json.str.inj h)
    obtain ⟨low, high, hlow, hhigh, -, -, h0, hle, h1⟩ := hrule.ports hne
    obtain ⟨hicmp, hplain, hsecond⟩ := hcanon.ports ⟨f, hf, htruthy⟩ hne
    obtain ⟨k, hk, hword_proto⟩ : ∃ k, transport proto = some k ∧ '\x00' ∉ proto.toList := by
      simp only [validProtocols, List.mem_cons, List.not_mem_nil, or_false] at hvalid
      obtain rfl | rfl | rfl | rfl := hvalid
      · exact ⟨6, rfl, by decide⟩
      · exact ⟨17, rfl, by decide⟩
      · exact absurd hproto hicmp
      · exact absurd rfl hall
    have hmeans (p : Packet) : MeansPorts rule p ↔ p.proto = k ∧ low ≤ p.dport ∧ p.dport ≤ high := by
      simp [MeansPorts, hproto, hall, hk, hlow, hhigh, eq_comm]
    have hwords (hports : PortsText (portText pf rule).toList) :
        argv [.str "-p", .str proto, .str "-d", .str s, .str "--dport", .str (portText pf rule), .str "-j",
          .str "ACCEPT"] = .ok ["-p", proto, "-d", s, "--dport", portText pf rule, "-j", "ACCEPT"] := by
      have hall : ∀ w ∈ ["-p", proto, "-d", s, "--dport", portText pf rule, "-j", "ACCEPT"],
          '\x00' ∉ w.toList := by
        simp only [List.forall_mem_cons]
        exact ⟨hword (by decide), hword_proto, hword (by decide), hword_net, hword (by decide),
          hword (isWord_of_portsText hports), hword (by decide), hword (by decide),
          fun _ h => absurd h List.not_mem_nil⟩
      exact argv_words hall
    have hfirst : PortText (pf.str (field rule "from_port")).toList low.toNat :=
      portText_of_plain hplain hlow h0 (hle.trans h1)
    have hnumeral : isNumeral (pf.str (field rule "from_port")).toList = true :=
      isNumeral_str hplain hlow h0 (hcanon.numerals _ List.mem_cons_self)
    -- one port, or a first and a last one
    by_cases heq : (field rule "from_port").eq (field rule "to_port") = true
    · have htext : portText pf rule = pf.str (field rule "from_port") := if_pos heq
      have hsame : low = high := toInt_eq_of_eq hplain hlow hhigh heq
      refine ⟨s, n, _, _, rfl, hn, hwords (htext ▸ .one hfirst),
        hdoc.port f.2 proto s (portText pf rule) n k low.toNat hk hn hplainNet (htext ▸ hfirst) (htext ▸ hnumeral),
        fun p => ?_⟩
      rw [hmeans]
      simp only [Bool.and_eq_true, beq_iff_eq, and_assoc]
      refine and_congr_right fun _ => and_congr_right fun _ => ?_
      omega
    · have htext : portText pf rule = pf.str (field rule "from_port") ++ ":" ++ pf.str (field rule "to_port") :=
        if_neg heq
      have hlast : PortText (pf.str (field rule "to_port")).toList high.toNat :=
        portText_of_plain (hsecond.resolve_left heq) hhigh (h0.trans hle) h1
      have hports : PortsText (portText pf rule).toList := by
        rw [htext, String.toList_append, String.toList_append, List.append_assoc]
        exact .range hfirst hlast (by omega)
      have hnumeral' : isNumeral (pf.str (field rule "to_port")).toList = true :=
        isNumeral_str (hsecond.resolve_left heq) hhigh (h0.trans hle)
          (hcanon.numerals _ (List.mem_cons_of_mem _ List.mem_cons_self))
      have hread := hdoc.range f.2 proto s _ _ n k _ _ hk hn hplainNet hfirst hnumeral hlast hnumeral' (by omega)
      rw [← htext] at hread
      refine ⟨s, n, _, _, rfl, hn, hwords hports, hread, fun p => ?_⟩
      rw [hmeans]
      simp only [Bool.and_eq_true, beq_iff_eq, decide_eq_true_eq, and_assoc]
      refine and_congr_right fun _ => and_congr_right fun _ => ?_
      omega

/-- **The commands of a canonical rule cover what it means.** -/
theorem covers_iff_means (hdoc : Documented reads) (hrule : Accepted rule) (hcanon : Canonical rule) :
    Covers pf reads rule p ↔ Means rule p := by
  unfold Covers
  rw [iptablesRuleArgs_eq hrule]
  constructor
  · rintro ⟨x, hx, htool, words, test, hwords, htest, hpass⟩
    obtain ⟨f, hf, hx⟩ := List.mem_filterMap.mp hx
    obtain ⟨htruthy, hx⟩ := Option.ite_none_right_eq_some.mp hx
    cases hx
    obtain ⟨s, n, words', test', hs, hn, hwords', htest', hiff⟩ :=
      reads_of_canonical pf hdoc hrule hcanon hf htruthy
    obtain rfl : words' = words := Except.ok.inj (hwords'.symm.trans hwords)
    obtain rfl : test' = test := Option.some.inj (htest'.symm.trans htest)
    obtain ⟨hin, hports⟩ := (hiff p).mp hpass
    exact ⟨f, hf, htool, htruthy, ⟨s, n, hs, hn, hin⟩, hports⟩
  · rintro ⟨f, hf, htool, htruthy, ⟨s, n, hs, hn, hin⟩, hports⟩
    obtain ⟨s', n', words, test, hs', hn', hwords, htest, hiff⟩ :=
      reads_of_canonical pf hdoc hrule hcanon hf htruthy
    obtain rfl : s' = s := Json.str.inj (hs'.symm.trans hs)
    obtain rfl : n' = n := Option.some.inj (hn'.symm.trans hn)
    have hpass := (hiff p).mpr ⟨hin, hports⟩
    exact ⟨_, List.mem_filterMap.mpr ⟨f, hf, if_pos htruthy⟩, htool, words, test, hwords, htest, hpass⟩

theorem worded_of_canonical (hdoc : Documented reads) (hrule : Accepted rule) (hcanon : Canonical rule) :
    Worded pf rule := by
  unfold Worded
  rw [iptablesRuleArgs_eq hrule]
  intro x hx
  obtain ⟨f, hf, hx⟩ := List.mem_filterMap.mp hx
  obtain ⟨htruthy, hx⟩ := Option.ite_none_right_eq_some.mp hx
  cases hx
  obtain ⟨-, -, words, -, -, -, hwords, -⟩ := reads_of_canonical pf hdoc hrule hcanon hf htruthy
  exact ⟨words, hwords⟩

/-- **After any calls, one after the other, an instance sends over IPv4 exactly what the rules mean that
were applied to it last,** and what it likes if there are none. -/
theorem passes_iff_of_calls (hdoc : Documented reads) {G : Guest → Prop} {g : Guest} (hG : Apart G)
    (hmac : ∀ g, G g → g.mac ≠ "") {calls : List (Guest × Call)} (hcalls : ∀ x ∈ calls, G x.1)
    (hrules : ∀ x ∈ calls, ∀ egress, x.2 = .apply egress → ∀ rule ∈ egress, Accepted rule ∧ Canonical rule)
    (otherwise : Packet → Bool) (hv4 : p.family = .v4) (hg : G g) (hpmac : p.mac = g.mac) :
    (calls.foldl (called reads pf) Host.init).Passes otherwise p ↔
      match calls.foldl Ledger.call (fun _ => none) g with
      | some egress => ∃ rule ∈ egress, Means rule p
      | none => otherwise p = true := by
  have hworded : ∀ x ∈ calls, ∀ egress, x.2 = .apply egress → ∀ rule ∈ egress, Worded pf rule := by
    intro x hx egress hegress rule hrule
    obtain ⟨haccepted, hcanon⟩ := hrules x hx egress hegress rule hrule
    exact worded_of_canonical hdoc haccepted hcanon
  rw [passes_iff_covered hG hmac hcalls hworded otherwise hv4 hg hpmac]
  cases hl : calls.foldl Ledger.call (fun _ => none) g with
  | none => rfl
  | some egress =>
    -- what was applied last came from a call, and its rules are canonical
    obtain ⟨x, hx, hegress⟩ := exists_of_ledger hl
    refine exists_congr fun rule => and_congr_right fun hrule => ?_
    obtain ⟨haccepted, hcanon⟩ := hrules x hx egress hegress rule hrule
    exact covers_iff_means hdoc haccepted hcanon

/-! ### A reading of the words -/

/-- `port` or `first:last`. -/
def readPorts (l : Line) : ℕ × ℕ :=
  match l.dropWhile (· ≠ ':') with
  | [] => (value l, value l)
  | _ :: last => (value (l.takeWhile (· ≠ ':')), value last)

/-- The words of well-formed rules. -/
def readWords (tool : Tool) : List String → Option (Packet → Bool)
  | ["-d", net, "-j", "ACCEPT"] =>
    (networkOfText tool.family net.toList).map fun n p => within n p.dst
  | ["-p", proto, "-d", net, "--dport", ports, "-j", "ACCEPT"] => do
    let k ← transport proto
    let n ← networkOfText tool.family net.toList
    let range := readPorts ports.toList
    some fun p => within n p.dst && p.proto == k && (decide (range.1 ≤ p.dport) && decide (p.dport ≤ range.2))
  | _ => none

theorem ne_colon_of_portText {l : Line} {a : ℕ} (h : PortText l a) : ∀ c ∈ l, decide (c ≠ ':') = true := by
  intro c hc
  have hdigit := char_of_portText h c hc
  rw [decide_eq_true_eq]
  rintro rfl
  exact absurd hdigit (by decide)

theorem readPorts_one {l : Line} {a : ℕ} (h : PortText l a) : readPorts l = (a, a) := by
  have hdrop : l.dropWhile (· ≠ ':') = [] := List.dropWhile_eq_nil_iff.mpr (ne_colon_of_portText h)
  unfold readPorts
  rw [hdrop, h.2.1]

theorem readPorts_range {l m : Line} {a b : ℕ} (hl : PortText l a) (hm : PortText m b) :
    readPorts (l ++ ':' :: m) = (a, b) := by
  have hdrop : (l ++ ':' :: m).dropWhile (· ≠ ':') = ':' :: m := by
    rw [List.dropWhile_append_of_pos (ne_colon_of_portText hl)]
    rfl
  have htake : (l ++ ':' :: m).takeWhile (· ≠ ':') = l := by
    rw [List.takeWhile_append_of_pos (ne_colon_of_portText hl)]
    simp
  unfold readPorts
  rw [hdrop, htake, hl.2.1]
  exact congrArg (Prod.mk a) hm.2.1

theorem documented_readWords : Documented readWords where
  all tool net n hn _ := by simp only [readWords, hn, Option.map_some]
  port tool proto net port n k a hk hn _ hport _ := by
    simp only [readWords, hk, hn, readPorts_one hport, Option.bind_eq_bind, Option.bind_some]
    congr 1
    funext p
    congr 1
    rw [Bool.eq_iff_iff]
    simp only [Bool.and_eq_true, decide_eq_true_eq, beq_iff_eq]
    omega
  range tool proto net low high n k a b hk hn _ hlow _ hhigh _ _ := by
    have hports : readPorts (low ++ ":" ++ high).toList = (a, b) := by
      rw [String.toList_append, String.toList_append, List.append_assoc]
      exact readPorts_range hlow hhigh
    simp only [readWords, hk, hn, hports, Option.bind_eq_bind, Option.bind_some]

theorem printable_sshRule : Printable sshRule := by
  refine ⟨List.forall_mem_cons.mpr ⟨fun _ => ⟨"10.0.0.0/8", rfl, by decide, by decide⟩, ?_⟩, fun _ _ => ?_⟩
  · exact List.forall_mem_singleton.mpr fun h => absurd h (by decide)
  · exact ⟨fun h => absurd (Json.str.inj h) (by decide), trivial, .inr trivial⟩

theorem canonical_sshRule : Canonical sshRule where
  toPrintable := printable_sshRule
  networks := by
    refine List.forall_mem_cons.mpr ⟨fun s hs _ => ?_, List.forall_mem_singleton.mpr fun s hs => ?_⟩
    · obtain rfl := Json.str.inj hs
      decide
    · cases hs
  numerals := List.forall_mem_cons.mpr ⟨fun s hs => (by cases hs), List.forall_mem_singleton.mpr fun s hs => (by cases hs)⟩

theorem accepted_sshRule : Accepted sshRule :=
  have hcheck : validateRule halves sshRule = .ok none := ok_of_toOption (by decide)
  accepted_of_validateRule hcheck

def web : Guest := ⟨"cc-web", "0f9d6c1e-52b7-4c1a", "52:54:00:12:34:56"⟩

theorem passes_iff_of_calls_ssh :
    ([(web, Call.apply [sshRule])].foldl (called readWords halves) Host.init).Passes (fun _ => false)
      ⟨.v4, "52:54:00:12:34:56", 10 * 2 ^ 24 + 1, 6, 22⟩ := by
  refine (passes_iff_of_calls documented_readWords (G := (· = web)) (g := web)
    (fun g g' hg hg' _ => hg.trans hg'.symm) (fun g hg => by subst hg; decide)
    (fun x hx => by rw [List.mem_singleton.mp hx]) (fun x hx egress h rule hrule => ?_) _ rfl rfl rfl).mpr ?_
  · rw [List.mem_singleton.mp hx] at h
    cases h
    rw [List.mem_singleton.mp hrule]
    exact ⟨accepted_sshRule, canonical_sshRule⟩
  · simp only [List.foldl_cons, List.foldl_nil, Ledger.call, Function.update_self]
    refine ⟨sshRule, List.mem_singleton_self _, ("cidr", .iptables), List.mem_cons_self, rfl, by decide,
      ⟨"10.0.0.0/8", ⟨.v4, 10 * 2 ^ 24, none, 8, by decide, by decide⟩, rfl, by decide, by decide⟩, ?_⟩
    exact .inr ⟨"tcp", 6, 22, 22, rfl, rfl, rfl, rfl, rfl, by decide, by decide⟩

end

end Egress
end CloudCore
