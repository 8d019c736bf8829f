import CloudCore.Effect.Pool
import CloudCore.Netfilter.Chains
import CloudCore.SecurityGroups.Rules

/-!
# The rules of an instance on the bridge

`sg.py` puts the rules of an instance's groups into a chain of the host, command by command, and sends
to that chain what carries the instance's MAC address.  A launch does so, every change of a group does
so again in a thread of its own, and a deletion takes the chain away.

## Main definitions

* `Change`, `Filter.change` — the commands of `iptables` and `ip6tables`, and what they do.
* `Host.Passes` — what becomes of a forwarded packet.
* `applyBridge`, `removeBridge`, `reapply` — the functions, as programs.
* `Covers` — a rule has a command that accepts a packet.

## Main results

* `walk_jumps`, `accepts_rest` — a packet meets the chain of its address, or the rest of `FORWARD`.
* `run_applyBridge`, `run_removeBridge` — **what a call leaves behind** that nothing interferes with.
-/

namespace CloudCore
namespace Egress

open Python SecurityGroups Netfilter Effect
open Api (Platform)

/-! ### The host's filters -/

/-- A forwarded packet. -/
structure Packet where
  family : IpVersion
  /-- The source address of its frame. -/
  mac : String
  dst : ℕ
  /-- The number of its protocol. -/
  proto : ℕ
  dport : ℕ
  deriving DecidableEq

/-- `-m mac --mac-source MAC -j CHAIN`. -/
structure Jump where
  mac : String
  chain : String
  deriving DecidableEq

def Jump.rule (j : Jump) : Rule Packet String := ⟨fun p => p.mac == j.mac, .jump j.chain⟩

/-- The filter of one family, as far as CloudCore has changed it. -/
structure Filter where
  chains : String → Option (List (Rule Packet String))
  /-- What it has put in front of `FORWARD`. -/
  jumps : List Jump

/-- The commands of both programs. -/
inductive Change where
  /-- `-n --list CHAIN`. -/
  | list (chain : String)
  /-- `-N CHAIN`. -/
  | create (chain : String)
  /-- `-F CHAIN`. -/
  | flush (chain : String)
  /-- `-A CHAIN` and the words of a rule. -/
  | append (chain : String) (words : List String)
  /-- `-I FORWARD 1`. -/
  | insert (j : Jump)
  /-- `-D FORWARD`. -/
  | remove (j : Jump)
  /-- `-X CHAIN`. -/
  | delete (chain : String)
  deriving DecidableEq

/-- `-j DROP`. -/
def dropWords : List String := ["-j", "DROP"]

def dropAll : Rule Packet String := ⟨fun _ => true, .verdict .drop⟩

section

/- What the programs make of the words of a rule with the target `ACCEPT`, if they take them. -/
variable (reads : Tool → List String → Option (Packet → Bool))

def ruleOf (tool : Tool) (words : List String) : Option (Rule Packet String) :=
  if words = dropWords then some dropAll
  else (reads tool words).map fun test => ⟨test, .verdict .accept⟩

namespace Filter

variable (f : Filter)

def put (chain : String) (rules : Option (List (Rule Packet String))) : Filter :=
  { f with chains := Function.update f.chains chain rules }

@[simp] theorem put_self (chain : String) (rules : Option (List (Rule Packet String))) :
    (f.put chain rules).chains chain = rules := Function.update_self ..

theorem put_of_ne {chain other : String} (h : other ≠ chain) (rules : Option (List (Rule Packet String))) :
    (f.put chain rules).chains other = f.chains other := Function.update_of_ne h ..

@[simp] theorem put_put (chain : String) (rules rules' : Option (List (Rule Packet String))) :
    (f.put chain rules).put chain rules' = f.put chain rules' := by
  simp only [put, Function.update_idem]

@[simp] theorem put_jumps (chain : String) (rules : Option (List (Rule Packet String))) :
    (f.put chain rules).jumps = f.jumps := rfl

/-- What a command does, if the tables let it. -/
def change (tool : Tool) : Change → Option Filter
  | .list chain => (f.chains chain).map fun _ => f
  | .create chain =>
    match f.chains chain with
    | none => some (f.put chain (some []))
    | some _ => none
  | .flush chain => (f.chains chain).map fun _ => f.put chain (some [])
  | .append chain words =>
    match f.chains chain, ruleOf reads tool words with
    | some rules, some rule => some (f.put chain (some (rules ++ [rule])))
    | _, _ => none
  | .insert j => (f.chains j.chain).map fun _ => { f with jumps := j :: f.jumps }
  | .remove j => if j ∈ f.jumps then some { f with jumps := f.jumps.erase j } else none
  | .delete chain =>
    match f.chains chain with
    | some [] => if f.jumps.all (·.chain != chain) then some (f.put chain none) else none
    | _ => none

/-- `FORWARD`, the rest of which lets some packets through. -/
def table (otherwise : Packet → Bool) : Table Packet String :=
  ⟨f.chains, f.jumps.map Jump.rule ++ [⟨otherwise, .verdict .accept⟩], .drop⟩

end Filter

/-- The filters of both programs. -/
abbrev Host := Tool → Filter

/-- The program for a family. -/
def toolOf : IpVersion → Tool
  | .v4 => .iptables
  | .v6 => .ip6tables

/-- The packet is forwarded. -/
def Host.Passes (s : Host) (otherwise : Packet → Bool) (p : Packet) : Prop :=
  ((s (toolOf p.family)).table otherwise).Accepts p

/-! ### Commands -/

/-- What the functions read of an instance. -/
structure Inst where
  id : String
  domainName : String
  privateIp : String
  running : Bool
  securityGroupIds : List String
  deriving DecidableEq

/-- The rules of a security group. -/
structure Group where
  ingressRules : List Json
  egressRules : List Json

inductive Cmd where
  /-- The MAC address of a domain's interface on a bridge. -/
  | instanceMac (domain : String)
  | listInstances
  | getGroup (id : String)
  /-- `ssh` to an instance without a bridge. -/
  | applySlirp (id : String)
  | filter (tool : Tool) (change : Change)
  /-- `iptables -n --list FORWARD --line-numbers`. -/
  | listForward

/-- A program says whether it did what it was told. -/
def Cmd.Ans : Cmd → Type
  | .instanceMac _ => Option String
  | .listInstances => List Inst
  | .getGroup _ => Option Group
  | .applySlirp _ => Unit
  | .filter .. => Bool
  | .listForward => List Jump

abbrev sig : Signature := ⟨Cmd, Cmd.Ans⟩

/-- What the functions raise. -/
inductive Raised where
  /-- `iptables -N` failed. -/
  | calledProcessError
  /-- An argument is not a string. -/
  | typeError
  /-- An argument has a NUL. -/
  | valueError
  deriving DecidableEq

abbrev Method := Program sig Raised

/-- What the commands do.  A program may refuse any command; the tables may make it so. -/
def act (_ : ℕ) (s : Host) : (c : Cmd) → c.Ans → Host → Prop
  | .instanceMac _, _, s' | .listInstances, _, s' | .getGroup _, _, s' | .applySlirp _, _, s' => s' = s
  | .filter tool change, ok, s' =>
    (ok = true ∧ ∃ f, (s tool).change reads tool change = some f ∧ s' = Function.update s tool f) ∨
      (ok = false ∧ s' = s)
  | .listForward, jumps, s' => s' = s ∧ (jumps = (s .iptables).jumps ∨ jumps = [])

end

/-! ### The functions -/

section

variable (pf : Platform)

def issue (change : Change) : Method Bool := .call (.filter .iptables change) .ret

def chainName (sgId : String) : String := "CC-SG-" ++ String.ofList (sgId.toList.take 16)

/-- The chain of an instance. -/
def chainOf (domain id : String) : String := chainName (id ++ String.ofList (domain.toList.take 8))

def ensureChain (chain : String) : Method Unit := do
  if ← issue (.list chain) then pure ()
  else if ← issue (.create chain) then pure ()
  else throw .calledProcessError

/-- What `subprocess.run` takes as arguments. -/
def argv : List Json → Except Raised (List String)
  | [] => .ok []
  | .str s :: args =>
    if s.toList.contains '\x00' then .error .valueError
    else (argv args).map (s :: ·)
  | _ :: _ => .error .typeError

/-- `_run([cmd, "-A", chain] + args, check=False)`. -/
def append (chain : String) (x : Tool × List Json) : Method Unit := do
  let words ← .lift (argv x.2)
  .call (.filter x.1 (.append chain words)) fun _ => pure ()

/-- `_mac_jump_exists`, which finds both names somewhere in the list. -/
def macJumpExists (chain mac : String) (jumps : List Jump) : Bool :=
  jumps.any (·.chain == chain) && jumps.any (·.mac == mac)

/-- The commands behind the rules. -/
def endChain (chain mac : String) : Method Unit := do
  let _ ← issue (.append chain dropWords)
  .call .listForward fun jumps =>
    if macJumpExists chain mac jumps then pure ()
    else do
      let _ ← issue (.insert ⟨mac, chain⟩)
      pure ()

/-- The commands behind `_ensure_chain`. -/
def fillChain (chain mac : String) (egress : List Json) : Method Unit :=
  .call (.filter .iptables (.flush chain)) fun _ => do
    Program.forEach (egress.flatMap (iptablesRuleArgs pf · .egress)) (append chain)
    endChain chain mac

def applyBridge (domain sgId : String) (egress : List Json) : Method Unit :=
  .call (.instanceMac domain) fun (mac : Option String) =>
    if mac.getD "" = "" then pure ()
    else do
      ensureChain (chainOf domain sgId)
      fillChain pf (chainOf domain sgId) (mac.getD "") egress

def removeBridge (domain sgId : String) : Method Unit :=
  .call (.instanceMac domain) fun (mac : Option String) => do
    let _ ← (if mac.getD "" = "" then pure true
      else issue (.remove ⟨mac.getD "", chainOf domain sgId⟩) : Method Bool)
    let _ ← issue (.flush (chainOf domain sgId))
    let _ ← issue (.delete (chainOf domain sgId))
    pure ()

/-- `{**rule, "cidr": f"{ip}/32", "source_sg_id": None}`. -/
def sourceRule (rule : Json) (ip : String) : Json :=
  match rule with
  | .obj fields =>
    .obj (("cidr", .str (ip ++ "/32")) :: ("source_sg_id", .null) ::
      fields.filter fun f => f.1 != "cidr" && f.1 != "source_sg_id")
  | other => other

def expandSgReferences : List Json → Method (List Json)
  | [] => pure []
  | rule :: rules =>
    let sgId := field rule "source_sg_id"
    if !sgId.truthy then do
      let rest ← expandSgReferences rules
      pure (rule :: rest)
    else
      .call .listInstances fun (l : List Inst) => do
        let sourceIps := (l.filter fun i => i.securityGroupIds.any (sgId.eq <| .str ·) && i.privateIp != "").map
          (·.privateIp)
        let rest ← expandSgReferences rules
        pure (sourceIps.map (sourceRule rule) ++ rest)

def apply (inst : Inst) (ingress egress : List Json) : Method Unit := do
  let _ ← expandSgReferences ingress
  let egress ← expandSgReferences egress
  if inst.domainName = "" then .call (.applySlirp inst.id) fun _ => pure ()
  else
    .call (.instanceMac inst.domainName) fun (mac : Option String) =>
      if mac.getD "" = "" then .call (.applySlirp inst.id) fun _ => pure ()
      else applyBridge pf inst.domainName inst.id egress

def remove (inst : Inst) : Method Unit :=
  if inst.domainName = "" then pure ()
  else
    .call (.instanceMac inst.domainName) fun (mac : Option String) =>
      if mac.getD "" = "" then pure () else removeBridge inst.domainName inst.id

def mergedRules : List String → Method (List Json × List Json)
  | [] => pure ([], [])
  | id :: ids =>
    .call (.getGroup id) fun (group : Option Group) => do
      let rest ← mergedRules ids
      match group with
      | none => pure rest
      | some g => pure (g.ingressRules ++ rest.1, g.egressRules ++ rest.2)

/-- The turn of `_reapply_to_instances` for one instance. -/
def reapplyTo (sgId : String) (inst : Inst) : Method Unit :=
  if inst.securityGroupIds.contains sgId && inst.running then do
    let rules ← mergedRules inst.securityGroupIds
    apply pf inst rules.1 rules.2
  else pure ()

/-- The thread of `_reapply_to_instances`. -/
def reapply (sgId : String) : Method Unit :=
  .call .listInstances fun (l : List Inst) => Program.forEach l (reapplyTo pf sgId)

/-- What `_launch` does with the groups of a new instance. -/
def launch (inst : Inst) : Method Unit :=
  if inst.securityGroupIds.isEmpty then pure ()
  else (do
    let rules ← mergedRules inst.securityGroupIds
    apply pf inst rules.1 rules.2).tryCatch fun _ => pure ()

end

/-- The words of a rule are strings. -/
def Worded (pf : Platform) (rule : Json) : Prop :=
  ∀ x ∈ iptablesRuleArgs pf rule .egress, ∃ words, argv x.2 = .ok words

/-- The rule has a command that covers the packet. -/
def Covers (pf : Platform) (reads : Tool → List String → Option (Packet → Bool)) (rule : Json) (p : Packet) :
    Prop :=
  ∃ x ∈ iptablesRuleArgs pf rule .egress, x.1 = toolOf p.family ∧
    ∃ words test, argv x.2 = .ok words ∧ reads x.1 words = some test ∧ test p = true

/-! ### What gets out -/

section

variable {chains : String → Option (List (Rule Packet String))} {jumps : List Jump}
  {rest rules : List (Rule Packet String)} {p : Packet} {chain : String}

/-- What has a jump to a chain that decides goes no further. -/
theorem walk_jumps {v : Verdict} (hled : ∃ j ∈ jumps, j.mac = p.mac)
    (hjumps : ∀ j ∈ jumps, j.mac = p.mac → j.chain = chain) (hchain : chains chain = some rules)
    (hwalk : Walk chains p rules (some v)) : Walk chains p (jumps.map Jump.rule ++ rest) (some v) := by
  induction jumps with
  | nil =>
    obtain ⟨j, hj, -⟩ := hled
    cases hj
  | cons j jumps ih =>
    rw [List.map_cons, List.cons_append]
    -- the first jump of the address decides
    by_cases hmac : j.mac = p.mac
    · refine .decided (by simp [Jump.rule, hmac]) rfl ?_ hwalk
      rw [hjumps j List.mem_cons_self hmac, hchain]
    · have hrest := fun j' hj' => hjumps j' (List.mem_cons_of_mem j hj')
      refine .skip (by simpa [Jump.rule] using Ne.symm hmac) (ih ?_ hrest)
      obtain ⟨j', hj', hmac'⟩ := hled
      obtain rfl | hj' := List.mem_cons.mp hj'
      · exact absurd hmac' hmac
      · exact ⟨j', hj', hmac'⟩

/-- What falls off the end of that chain, or has no jump, meets the rest. -/
theorem walk_past_jumps (hchain : ∀ j ∈ jumps, j.mac = p.mac → ∃ rules, chains j.chain = some rules ∧
    Walk chains p rules none) :
    Walk chains p (jumps.map Jump.rule) none := by
  induction jumps with
  | nil => exact .nil
  | cons j jumps ih =>
    have hrest := ih fun j' hj' => hchain j' (List.mem_cons_of_mem j hj')
    -- every jump of the address comes back
    by_cases hmac : j.mac = p.mac
    · obtain ⟨rules, hrules, hwalk⟩ := hchain j List.mem_cons_self hmac
      exact .returned (by simp [Jump.rule, hmac]) rfl hrules hwalk hrest
    · exact .skip (by simpa [Jump.rule] using Ne.symm hmac) hrest

theorem accepts_rest {f : Filter} {otherwise : Packet → Bool} (h : Walk f.chains p (f.jumps.map Jump.rule) none) :
    (f.table otherwise).Accepts p ↔ otherwise p = true := by
  cases hrest : otherwise p with
  | true =>
    have hwalk : Walk f.chains p (f.table otherwise).base (some .accept) := h.append (.verdict hrest rfl)
    rw [Table.accepts_iff hwalk]
    simp
  | false =>
    have hwalk : Walk f.chains p (f.table otherwise).base none := h.append (.skip hrest .nil)
    rw [Table.accepts_iff hwalk]
    simp [Filter.table]

/-- A chain that has an end lets out only what one of its rules accepts. -/
theorem accepts_of_closed (htargets : ∀ r ∈ rules, r = dropAll ∨ r.target = .verdict .accept)
    (hend : dropAll ∈ rules) :
    ∃ v, Walk chains p rules (some v) ∧
      (v = .accept → ∃ r ∈ rules, r.target = .verdict .accept ∧ r.test p = true) := by
  induction rules with
  | nil => cases hend
  | cons r rules ih =>
    -- the first rule that matches accepts the packet or is the end
    by_cases htest : r.test p = true
    · obtain rfl | haccept := htargets r List.mem_cons_self
      · exact ⟨.drop, .verdict htest rfl, fun h => by cases h⟩
      · exact ⟨.accept, .verdict htest haccept, fun _ => ⟨r, List.mem_cons_self, haccept, htest⟩⟩
    · have hne : dropAll ≠ r := by
        rintro rfl
        exact htest rfl
      obtain ⟨v, hwalk, hv⟩ := ih (fun r' hr' => htargets r' (List.mem_cons_of_mem r hr'))
        ((List.mem_cons.mp hend).resolve_left hne)
      refine ⟨v, .skip (by simpa using htest) hwalk, fun h => ?_⟩
      obtain ⟨r', hr', hrest⟩ := hv h
      exact ⟨r', List.mem_cons_of_mem r hr', hrest⟩

end

theorem ruleOf_drop {reads : Tool → List String → Option (Packet → Bool)} {tool : Tool} :
    ruleOf reads tool dropWords = some dropAll := if_pos rfl

/-! ### One call after the other -/

section

variable (reads : Tool → List String → Option (Packet → Bool)) (pf : Platform)

/-- An instance on the bridge. -/
structure Guest where
  domain : String
  id : String
  mac : String
  deriving DecidableEq

def Guest.chain (g : Guest) : String := chainOf g.domain g.id

def Guest.jump (g : Guest) : Jump := ⟨g.mac, g.chain⟩

/-- Calls that reach the bridge. -/
inductive Call where
  | apply (egress : List Json)
  | remove

def Call.program (g : Guest) : Call → Method Unit
  | .apply egress => applyBridge pf g.domain g.id egress
  | .remove => removeBridge g.domain g.id

/-- What a command does where the tables alone may refuse it. -/
def Host.told (s : Host) (tool : Tool) (change : Change) : Bool × Host :=
  match (s tool).change reads tool change with
  | some f => (true, Function.update s tool f)
  | none => (false, s)

/-- The commands as the tables let them be, for a domain with an address. -/
def answer (mac : String) (s : Host) : (c : Cmd) → Option (c.Ans × Host)
  | .instanceMac _ => some (some mac, s)
  | .listInstances => some ([], s)
  | .getGroup _ => some (none, s)
  | .applySlirp _ => some ((), s)
  | .filter tool change => some (s.told reads tool change)
  | .listForward => some ((s .iptables).jumps, s)

/-- The host behind a call. -/
def called (s : Host) (x : Guest × Call) : Host :=
  match (x.2.program pf x.1).run (answer reads x.1.mac) s with
  | some (_, s') => s'
  | none => s

/-- The rule of a command that the host takes. -/
def compile (x : Tool × List Json) : Option (Rule Packet String) :=
  if x.1 = .iptables then (argv x.2).toOption.bind (ruleOf reads .iptables) else none

def compiled (egress : List Json) : List (Rule Packet String) :=
  (egress.flatMap (iptablesRuleArgs pf · .egress)).filterMap (compile reads)

/-- The filter behind an application. -/
def applied (f : Filter) (g : Guest) (rules : List (Rule Packet String)) : Filter where
  chains := Function.update f.chains g.chain (some (rules ++ [dropAll]))
  jumps := if macJumpExists g.chain g.mac f.jumps then f.jumps else g.jump :: f.jumps

/-- The filter behind a removal. -/
def removed (f : Filter) (g : Guest) : Filter where
  chains := Function.update f.chains g.chain none
  jumps := f.jumps.erase g.jump

end

section

variable {reads : Tool → List String → Option (Packet → Bool)} {pf : Platform} {g : Guest} {s : Host} {f : Filter}
  {mac chain : String} {rules : List (Rule Packet String)}

theorem told_of_some {tool : Tool} {change : Change} (h : (s tool).change reads tool change = some f) :
    s.told reads tool change = (true, Function.update s tool f) := by
  unfold Host.told
  rw [h]

theorem told_of_none {tool : Tool} {change : Change} (h : (s tool).change reads tool change = none) :
    s.told reads tool change = (false, s) := by
  unfold Host.told
  rw [h]

theorem run_filter {tool : Tool} {change : Change} {k : Bool → Method Unit} {ok : Bool} {s' : Host}
    (h : s.told reads tool change = (ok, s')) :
    (Program.call (Cmd.filter tool change) k : Method Unit).run (answer reads mac) s =
      (k ok).run (answer reads mac) s' := by
  change (k (s.told reads tool change).1).run (answer reads mac) (s.told reads tool change).2 = _
  rw [h]

theorem run_append_one {x : Tool × List Json} {words : List String} (hwords : argv x.2 = .ok words)
    (h6 : (s .ip6tables).chains chain = none) (hf : s .iptables = f.put chain (some rules)) :
    (append chain x).run (answer reads mac) s =
      some (.ok (), Function.update s .iptables (f.put chain (some (rules ++ (compile reads x).toList)))) := by
  obtain ⟨tool, args⟩ := x
  have hsame : Function.update s .iptables (f.put chain (some rules)) = s := by rw [← hf, Function.update_eq_self]
  have hone {ok : Bool} {s' : Host} (h : s.told reads tool (.append chain words) = (ok, s')) :
      (append chain (tool, args)).run (answer reads mac) s = some (.ok (), s') := by
    unfold append
    rw [hwords]
    exact run_filter h
  cases tool with
  -- no chain has been made for IPv6, so `-A` fails
  | ip6tables =>
    have hcompile : compile reads (.ip6tables, args) = none := rfl
    rw [hone (told_of_none (by simp only [Filter.change, h6])), hcompile]
    simp [hsame]
  | iptables =>
    have hcompile : compile reads (.iptables, args) = ruleOf reads .iptables words := by
      simp [compile, hwords, Except.toOption]
    cases hrule : ruleOf reads .iptables words with
    | none =>
      rw [hone (told_of_none (by simp only [Filter.change, hrule, hf, Filter.put_self])), hcompile, hrule]
      simp [hsame]
    | some rule =>
      rw [hone (told_of_some (f := f.put chain (some (rules ++ [rule])))
        (by simp only [Filter.change, hrule, hf, Filter.put_self, Filter.put_put])), hcompile, hrule]
      rfl

/-- The rules of a list end up behind those that are there. -/
theorem run_append {l : List (Tool × List Json)} (hworded : ∀ x ∈ l, ∃ words, argv x.2 = .ok words)
    (h6 : (s .ip6tables).chains chain = none) (hf : s .iptables = f.put chain (some rules)) :
    (Program.forEach l (append chain)).run (answer reads mac) s =
      some (.ok (), Function.update s .iptables (f.put chain (some (rules ++ l.filterMap (compile reads))))) := by
  induction l generalizing s rules with
  | nil =>
    rw [List.filterMap_nil, List.append_nil, ← hf, Function.update_eq_self]
    rfl
  | cons x l ih =>
    obtain ⟨words, hwords⟩ := hworded x List.mem_cons_self
    have hrest := ih (s := Function.update s .iptables (f.put chain (some (rules ++ (compile reads x).toList))))
      (fun y hy => hworded y (List.mem_cons_of_mem _ hy)) (by rwa [Function.update_of_ne (by simp)])
      (Function.update_self ..)
    -- the first rule, and the others behind it
    change (append chain x >>= fun _ => Program.forEach l (append chain)).run _ _ = _
    rw [Program.run_bind (run_append_one hwords h6 hf), hrest, Function.update_idem, List.append_assoc]
    cases hx : compile reads x <;> simp [hx]

theorem run_endChain {mac : String} (hchain : (s .iptables).chains chain = some rules) :
    (endChain chain mac).run (answer reads mac) s =
      some (.ok (), Function.update s .iptables
        { chains := Function.update (s .iptables).chains chain (some (rules ++ [dropAll]))
          jumps := if macJumpExists chain mac (s .iptables).jumps then (s .iptables).jumps
            else ⟨mac, chain⟩ :: (s .iptables).jumps }) := by
  have hdrop : s.told reads .iptables (.append chain dropWords) =
      (true, Function.update s .iptables ((s .iptables).put chain (some (rules ++ [dropAll])))) :=
    told_of_some (by simp only [Filter.change, hchain, ruleOf_drop])
  refine (run_filter hdrop).trans ?_
  change Program.run _
    (if macJumpExists chain mac (Function.update s .iptables _ .iptables).jumps = true then _ else _) _ = _
  rw [Function.update_self, Filter.put_jumps]
  -- a jump that is there is not inserted again
  split
  · rfl
  · refine (run_filter (told_of_some (f := { (s .iptables).put chain (some (rules ++ [dropAll])) with
      jumps := ⟨mac, chain⟩ :: (s .iptables).jumps }) ?_)).trans ?_
    · rw [Function.update_self]
      simp [Filter.change]
    · rw [Function.update_idem]
      rfl

theorem run_fillChain {egress : List Json} (hworded : ∀ rule ∈ egress, Worded pf rule)
    (h6 : (s .ip6tables).chains g.chain = none) (hchain : (s .iptables).chains g.chain = some rules) :
    (fillChain pf g.chain g.mac egress).run (answer reads g.mac) s =
      some (.ok (), Function.update s .iptables (applied (s .iptables) g (compiled reads pf egress))) := by
  have hflush : s.told reads .iptables (.flush g.chain) =
      (true, Function.update s .iptables ((s .iptables).put g.chain (some []))) :=
    told_of_some (by simp only [Filter.change, hchain, Option.map_some])
  refine (run_filter hflush).trans ?_
  have hall : ∀ x ∈ egress.flatMap (iptablesRuleArgs pf · .egress), ∃ words, argv x.2 = .ok words := by
    intro x hx
    obtain ⟨rule, hrule, hx⟩ := List.mem_flatMap.mp hx
    exact hworded rule hrule x hx
  have hfilled : (Function.update s .iptables ((s .iptables).put g.chain (some (compiled reads pf egress)))
      .iptables).chains g.chain = some (compiled reads pf egress) := by simp
  change (Program.forEach _ _ >>= fun _ => endChain g.chain g.mac).run _ _ = _
  rw [Program.run_bind (run_append (f := s .iptables) hall (by rwa [Function.update_of_ne (by simp)])
    (Function.update_self ..)), Function.update_idem]
  refine (run_endChain hfilled).trans ?_
  rw [Function.update_idem, Function.update_self, Filter.put_jumps]
  simp only [Filter.put, Function.update_idem]
  rfl

/-- **What an application leaves behind**, alone on a host that takes the words of its rules. -/
theorem run_applyBridge {egress : List Json} (hmac : g.mac ≠ "") (hworded : ∀ rule ∈ egress, Worded pf rule)
    (h6 : (s .ip6tables).chains g.chain = none) :
    (applyBridge pf g.domain g.id egress).run (answer reads g.mac) s =
      some (.ok (), Function.update s .iptables (applied (s .iptables) g (compiled reads pf egress))) := by
  change Program.run _ (if g.mac = "" then _ else _) s = _
  rw [if_neg hmac]
  -- `_ensure_chain` finds the chain or makes it
  cases hchain : (s .iptables).chains g.chain with
  | some rules =>
    have hlist : s.told reads .iptables (.list g.chain) = (true, s) := by
      rw [told_of_some (f := s .iptables) (by simp only [Filter.change, hchain, Option.map_some]),
        Function.update_eq_self]
    exact (run_filter hlist).trans (run_fillChain hworded h6 hchain)
  | none =>
    have hlist : s.told reads .iptables (.list g.chain) = (false, s) :=
      told_of_none (by simp only [Filter.change, hchain, Option.map_none])
    have hcreate : s.told reads .iptables (.create g.chain) =
        (true, Function.update s .iptables ((s .iptables).put g.chain (some []))) :=
      told_of_some (by simp only [Filter.change, hchain])
    have hempty : (Function.update s .iptables ((s .iptables).put g.chain (some [])) .iptables).chains g.chain =
        some [] := by rw [Function.update_self, Filter.put_self]
    refine (run_filter hlist).trans ((run_filter hcreate).trans ((run_fillChain hworded ?_ hempty).trans ?_))
    · rwa [Function.update_of_ne (by simp)]
    · rw [Function.update_idem, Function.update_self]
      simp only [applied, Filter.put, Function.update_idem]
      rfl

/-- What a removal leaves behind. -/
theorem run_removeBridge (hmac : g.mac ≠ "") (hsome : ((s .iptables).chains g.chain).isSome = true)
    (hjump : g.jump ∈ (s .iptables).jumps)
    (hlast : ∀ j ∈ (s .iptables).jumps.erase g.jump, j.chain ≠ g.chain) :
    (removeBridge g.domain g.id).run (answer reads g.mac) s =
      some (.ok (), Function.update s .iptables (removed (s .iptables) g)) := by
  obtain ⟨rules, hchain⟩ := Option.isSome_iff_exists.mp hsome
  have hremove : s.told reads .iptables (.remove g.jump) =
      (true, Function.update s .iptables { s .iptables with jumps := (s .iptables).jumps.erase g.jump }) :=
    told_of_some (by simp only [Filter.change, if_pos hjump])
  change Program.run _ ((if g.mac = "" then pure true else issue (.remove g.jump) : Method Bool) >>= _) s = _
  rw [if_neg hmac]
  refine (run_filter hremove).trans ?_
  refine (run_filter (told_of_some (f := { s .iptables with
    chains := Function.update (s .iptables).chains g.chain (some []),
    jumps := (s .iptables).jumps.erase g.jump }) ?_)).trans ?_
  · rw [Function.update_self]
    change ((s .iptables).chains g.chain).map _ = _
    rw [hchain]
    rfl
  refine (run_filter (told_of_some (f := removed (s .iptables) g) ?_)).trans ?_
  · -- the chain is empty by now, and no jump leads to it
    have hall : ((s .iptables).jumps.erase g.jump).all (·.chain != g.chain) = true := by
      simpa [List.all_eq_true] using hlast
    rw [Function.update_self]
    simp only [Filter.change, Guest.chain, Function.update_self]
    rw [← Guest.chain, if_pos hall]
    simp only [Filter.put, removed, Function.update_idem]
  · rw [Function.update_idem, Function.update_idem]
    rfl

/-- And nothing, where there was nothing. -/
theorem run_removeBridge_none (hmac : g.mac ≠ "") (hchain : (s .iptables).chains g.chain = none)
    (hjump : g.jump ∉ (s .iptables).jumps) :
    (removeBridge g.domain g.id).run (answer reads g.mac) s = some (.ok (), s) := by
  change Program.run _ ((if g.mac = "" then pure true else issue (.remove g.jump) : Method Bool) >>= _) s = _
  rw [if_neg hmac]
  refine (run_filter (told_of_none (by simp only [Filter.change, if_neg hjump]))).trans ?_
  refine (run_filter (told_of_none ?_)).trans ((run_filter (told_of_none ?_)).trans rfl)
  · change ((s .iptables).chains g.chain).map _ = _
    rw [hchain]
    rfl
  · change (match (s .iptables).chains g.chain with | some [] => _ | _ => none) = _
    rw [hchain]

end

end Egress
end CloudCore
