import CloudCore.SecurityGroups.BridgeCalls

/-!
# What an instance on the bridge may send

Several threads may be at the chain of one instance: a launch, and one for every change of a group that
the instance is in.  Nothing keeps them apart, and the commands of one fall between those of another.

## Main definitions

* `Setting` — an instance, and what the store and libvirt say of it in the course of a run.
* `Setting.Careful` — a thread that empties the chain goes on to end it.
* `Admitted`, `Applies` — which threads there are, and how their commands are answered.

## Main results

* `Inv.step` — the chain ends what it does not accept, or a thread is about to see to that.
* `covered_of_run` — **whichever threads apply rules and however they take turns, once none of them
  is about to fill the chain, only what some rule of the instance's groups covers gets out.**
* `passes_ipv6` — what goes out over IPv6 is never looked at.
* `opened`, `shut`, `left_open` — everything passes in the middle of an application and behind one that
  raised, and nothing behind two that met.
-/

namespace CloudCore
namespace Egress

open Python SecurityGroups Netfilter Effect
open Api (Platform)

/-! ### An instance, and what is said of it -/

/-- An instance on the bridge, and what the store and libvirt say in the course of a run. -/
structure Setting where
  domain : String
  id : String
  mac : String
  /-- The groups that the instance is ever in. -/
  member : String → Prop
  /-- The rules for outgoing traffic that a group ever has. -/
  granted : String → Json → Prop
  /-- The addresses that members of a group ever have. -/
  holder : Json → String → Prop

namespace Setting

variable (w : Setting) (pf : Platform)

def chain : String := chainOf w.domain w.id

/-- A rule that is ever meant for the instance. -/
inductive Allowed : Json → Prop
  | plain {g : String} {rule : Json} : w.member g → w.granted g rule →
      (field rule "source_sg_id").truthy = false → Allowed rule
  | source {g : String} {rule : Json} {ip : String} : w.member g → w.granted g rule →
      (field rule "source_sg_id").truthy = true → w.holder (field rule "source_sg_id") ip →
      Allowed (sourceRule rule ip)

/-- A row of the store.  Domains tell instances apart, and so do the names of their chains. -/
structure Lists (inst : Inst) : Prop where
  own : inst.domainName = w.domain → inst.id = w.id ∧ ∀ g ∈ inst.securityGroupIds, w.member g
  other : inst.domainName ≠ w.domain → chainOf inst.domainName inst.id ≠ w.chain
  holder : ∀ v : Json, inst.securityGroupIds.any (v.eq <| .str ·) = true → w.holder v inst.privateIp

/-- How commands are answered.  The program takes the rule that ends the chain. -/
def Tells : (c : Cmd) → c.Ans → Prop
  | .instanceMac domain, (mac : Option String) =>
    (domain = w.domain → ∀ x, mac = some x → x = w.mac) ∧ (domain ≠ w.domain → mac ≠ some w.mac)
  | .listInstances, (l : List Inst) => ∀ inst ∈ l, w.Lists inst
  | .getGroup id, (group : Option Group) => ∀ g, group = some g → ∀ rule ∈ g.egressRules, w.granted id rule
  | .filter .iptables (.append chain words), ok => chain = w.chain → words = dropWords → ok = true
  | _, _ => True

/-- What a thread may do to the chain, and to the jumps. -/
def Fair : Cmd → Prop
  | .filter .iptables (.append chain words) => chain = w.chain → words = dropWords ∨
    ∃ rule, w.Allowed rule ∧ ∃ x ∈ iptablesRuleArgs pf rule .egress, x.1 = .iptables ∧ argv x.2 = .ok words
  | .filter .iptables (.insert j) => j.mac = w.mac → j.chain = w.chain
  | _ => True

/-- The chain has lost its end. -/
def Opens : (c : Cmd) → c.Ans → Prop
  | .filter .iptables (.create chain), ok | .filter .iptables (.flush chain), ok => chain = w.chain ∧ ok = true
  | _, _ => False

/-- The command that ends the chain. -/
def ending : Cmd := .filter .iptables (.append w.chain dropWords)

/-- The thread is about to end the chain. -/
def Filling {α : Type} (p : Method α) : Prop := p.Leads (fun _ => True) w.ending fun _ => True

/-- A thread that opens the chain is about to end it. -/
def Careful {α : Type} (A : α → Prop) : Method α → Prop
  | .ret a => A a
  | .raise _ => True
  | .call c k => w.Fair pf c ∧ ∀ a, w.Tells c a → (w.Opens c a → w.Filling (k a)) ∧ Careful A (k a)

end Setting

section

variable {w : Setting} {pf : Platform} {α β : Type} {A : α → Prop} {B : β → Prop}

theorem Setting.Filling.bind {p : Method α} {f : α → Method β} (h : w.Filling p) : w.Filling (p >>= f) :=
  Program.leads_bind (fun _ _ => trivial) h

theorem Setting.Filling.tryCatch {p : Method α} {f : Raised → Method α} (h : w.Filling p) :
    w.Filling (p.tryCatch f) := Program.leads_tryCatch (fun _ _ => trivial) h

theorem careful_bind {p : Method α} {f : α → Method β} (hp : w.Careful pf A p)
    (hf : ∀ a, A a → w.Careful pf B (f a)) : w.Careful pf B (p >>= f) := by
  induction p with
  | ret a => exact hf a hp
  | raise e => trivial
  | call c k ih =>
    refine ⟨hp.1, fun a ha => ?_⟩
    obtain ⟨hopens, hk⟩ := hp.2 a ha
    -- a thread about to end the chain still is, whatever comes behind it
    exact ⟨fun ho => (hopens ho).bind, ih a hk⟩

theorem careful_tryCatch {p : Method α} {f : Raised → Method α} (hp : w.Careful pf A p)
    (hf : ∀ e, w.Careful pf A (f e)) : w.Careful pf A (p.tryCatch f) := by
  induction p with
  | ret a => exact hp
  | raise e => exact hf e
  | call c k ih =>
    refine ⟨hp.1, fun a ha => ?_⟩
    obtain ⟨hopens, hk⟩ := hp.2 a ha
    exact ⟨fun ho => (hopens ho).tryCatch, ih a hk⟩

theorem careful_forEach {l : List β} {body : β → Method Unit}
    (h : ∀ b ∈ l, w.Careful pf (fun _ => True) (body b)) :
    w.Careful pf (fun _ => True) (Program.forEach l body) := by
  induction l with
  | nil => trivial
  | cons b l ih =>
    refine careful_bind (h b List.mem_cons_self) fun _ _ => ?_
    exact ih fun b' hb' => h b' (List.mem_cons_of_mem b hb')

/-- A command that neither adds to the chain nor opens it. -/
theorem careful_call {c : Cmd} {k : c.Ans → Method α} (hfair : w.Fair pf c) (hopens : ∀ a, ¬w.Opens c a)
    (h : ∀ a, w.Tells c a → w.Careful pf A (k a)) : w.Careful pf A (.call c k) :=
  ⟨hfair, fun a ha => ⟨fun ho => absurd ho (hopens a), h a ha⟩⟩

/-! ### The functions are careful -/

/-- Adding rules raises nothing. -/
theorem tame_append {chain : String} {egress : List Json} (h : ∀ rule ∈ egress, Worded pf rule) :
    (Program.forEach (egress.flatMap (iptablesRuleArgs pf · .egress)) (append chain)).Tame
      (fun _ _ => True) fun _ => True := by
  refine Program.tame_forEach fun x hx => ?_
  obtain ⟨rule, hrule, hx⟩ := List.mem_flatMap.mp hx
  obtain ⟨words, hwords⟩ := h rule hrule x hx
  unfold append
  rw [hwords]
  exact Program.tame_call trivial fun _ _ => Program.tame_ret

/-- What is behind the flush ends the chain. -/
theorem filling_fill {mac : String} {egress : List Json} (h : ∀ rule ∈ egress, Worded pf rule) :
    w.Filling (Program.forEach (egress.flatMap (iptablesRuleArgs pf · .egress)) (append w.chain) >>= fun _ =>
      endChain w.chain mac) :=
  (tame_append h).leads (fun _ => trivial) fun _ => .inr ⟨rfl, fun _ => trivial⟩

theorem filling_fillChain {mac : String} {egress : List Json} (h : ∀ rule ∈ egress, Worded pf rule) :
    w.Filling (fillChain pf w.chain mac egress) :=
  .inl ⟨trivial, fun _ => filling_fill h⟩

theorem careful_append {chain : String} {x : Tool × List Json}
    (h : x.1 = .iptables → chain = w.chain → ∃ rule, w.Allowed rule ∧ x ∈ iptablesRuleArgs pf rule .egress) :
    w.Careful pf (fun _ => True) (append chain x) := by
  obtain ⟨tool, args⟩ := x
  unfold append
  cases hwords : argv args with
  | error e => trivial
  | ok words =>
    refine careful_call (c := .filter tool (.append chain words)) ?_ (fun a => ?_) fun _ _ => trivial
    · cases tool with
      -- the words stand in this chain because a rule for the instance has them
      | iptables =>
        intro hchain
        obtain ⟨rule, hrule, hx⟩ := h rfl hchain
        exact .inr ⟨rule, hrule, _, hx, rfl, hwords⟩
      | ip6tables => trivial
    · cases tool <;> exact id

theorem careful_endChain {chain mac : String} (hmac : mac = w.mac → chain = w.chain) :
    w.Careful pf (fun _ => True) (endChain chain mac) := by
  refine careful_call (c := .filter .iptables (.append chain dropWords)) (fun _ => .inl rfl) (fun _ => id)
    fun _ _ => ?_
  refine careful_call (c := .listForward) trivial (fun _ => id) fun jumps _ => ?_
  split
  · trivial
  · exact careful_call (c := .filter .iptables (.insert ⟨mac, chain⟩)) hmac (fun _ => id) fun _ _ => trivial

theorem careful_fillChain {chain mac : String} {egress : List Json}
    (hworded : ∀ rule, w.Allowed rule → Worded pf rule)
    (hown : chain = w.chain → ∀ rule ∈ egress, w.Allowed rule) (hmac : mac = w.mac → chain = w.chain) :
    w.Careful pf (fun _ => True) (fillChain pf chain mac egress) := by
  refine ⟨trivial, fun ok _ => ⟨?_, ?_⟩⟩
  -- behind the flush no rule raises, so the thread gets to the end
  · rintro ⟨rfl, -⟩
    exact filling_fill fun rule hrule => hworded rule (hown rfl rule hrule)
  · refine careful_bind (careful_forEach fun x hx => careful_append fun _ hchain => ?_) fun _ _ =>
      careful_endChain hmac
    obtain ⟨rule, hrule, hx⟩ := List.mem_flatMap.mp hx
    exact ⟨rule, hown hchain rule hrule, hx⟩

theorem careful_applyBridge {domain sgId : String} {egress : List Json}
    (hworded : ∀ rule, w.Allowed rule → Worded pf rule)
    (hown : domain = w.domain → sgId = w.id ∧ ∀ rule ∈ egress, w.Allowed rule)
    (hother : domain ≠ w.domain → chainOf domain sgId ≠ w.chain) :
    w.Careful pf (fun _ => True) (applyBridge pf domain sgId egress) := by
  refine careful_call (c := .instanceMac domain) trivial (fun _ => id) fun mac hmac => ?_
  change w.Careful pf _ (if Option.getD mac "" = "" then _ else _)
  split
  · trivial
  next hne =>
  have hchain : chainOf domain sgId = w.chain → domain = w.domain := fun h => by
    by_contra hdomain
    exact hother hdomain h
  have hfill : w.Careful pf (fun _ => True) (fillChain pf (chainOf domain sgId) (Option.getD mac "") egress) := by
    refine careful_fillChain hworded (fun h => (hown (hchain h)).2) fun h => ?_
    by_contra hdomain
    -- the address is told of this instance's domain only
    have hd : domain ≠ w.domain := fun hd => hdomain (by rw [hd, (hown hd).1]; rfl)
    cases mac with
    | none => exact hne rfl
    | some x => exact hmac.2 hd (congrArg some h)
  refine careful_call (c := .filter .iptables (.list _)) trivial (fun _ => id) fun ok _ => ?_
  cases ok with
  | true => exact hfill
  -- the chain is not there yet: it is created, and so open
  | false =>
    refine ⟨trivial, fun made _ => ?_⟩
    cases made with
    | true =>
      refine ⟨?_, hfill⟩
      rintro ⟨h, -⟩
      change w.Filling (fillChain pf (chainOf domain sgId) (Option.getD mac "") egress)
      rw [h]
      exact filling_fillChain fun rule hrule => hworded rule ((hown (hchain h)).2 rule hrule)
    | false => exact ⟨fun h => (by cases h.2), trivial⟩

theorem careful_removeBridge {domain sgId : String} (h : chainOf domain sgId ≠ w.chain) :
    w.Careful pf (fun _ => True) (removeBridge domain sgId) := by
  refine careful_call (c := .instanceMac domain) trivial (fun _ => id) fun mac _ => ?_
  refine careful_bind (A := fun _ => True) ?_ fun _ _ => ?_
  · split
    · trivial
    · exact careful_call (c := .filter .iptables (.remove _)) trivial (fun _ => id) fun _ _ => trivial
  · refine careful_call (c := .filter .iptables (.flush _)) trivial (fun _ ho => h ho.1) fun _ _ => ?_
    exact careful_call (c := .filter .iptables (.delete _)) trivial (fun _ => id) fun _ _ => trivial

theorem careful_expand {P : Prop} {rules : List Json}
    (h : P → ∀ rule ∈ rules, ∃ g, w.member g ∧ w.granted g rule) :
    w.Careful pf (fun out => P → ∀ rule ∈ out, w.Allowed rule) (expandSgReferences rules) := by
  induction rules with
  | nil => exact fun _ rule hrule => absurd hrule List.not_mem_nil
  | cons rule rules ih =>
    have hrest := ih fun hP rule' hrule' => h hP rule' (List.mem_cons_of_mem _ hrule')
    unfold expandSgReferences
    dsimp only
    split
    next hplain =>
      refine careful_bind hrest fun out hout hP => List.forall_mem_cons.mpr ⟨?_, hout hP⟩
      obtain ⟨g, hg, hgranted⟩ := h hP rule List.mem_cons_self
      exact .plain hg hgranted (by simpa using hplain)
    -- a copy for every member of the group that the rule names
    next hsource =>
      refine careful_call (c := .listInstances) trivial (fun _ => id) fun l hl => ?_
      refine careful_bind hrest fun out hout hP rule' hrule' => ?_
      obtain hrule' | hrule' := List.mem_append.mp hrule'
      · obtain ⟨ip, hip, rfl⟩ := List.mem_map.mp hrule'
        obtain ⟨inst, hinst, rfl⟩ := List.mem_map.mp hip
        obtain ⟨hinst, hsourced⟩ := List.mem_filter.mp hinst
        rw [Bool.and_eq_true] at hsourced
        obtain ⟨g, hg, hgranted⟩ := h hP rule List.mem_cons_self
        exact .source hg hgranted (by simpa using hsource) ((hl inst hinst).holder _ hsourced.1)
      · exact hout hP rule' hrule'

theorem careful_merged {P : Prop} {sgIds : List String} (h : P → ∀ sgId ∈ sgIds, w.member sgId) :
    w.Careful pf (fun out => P → ∀ rule ∈ out.2, ∃ g, w.member g ∧ w.granted g rule) (mergedRules sgIds) := by
  induction sgIds with
  | nil => exact fun _ rule hrule => absurd hrule List.not_mem_nil
  | cons sgId sgIds ih =>
    have hrest := ih fun hP sgId' h' => h hP sgId' (List.mem_cons_of_mem _ h')
    refine careful_call (c := .getGroup sgId) trivial (fun _ => id) fun group hgroup => ?_
    refine careful_bind hrest fun out hout => ?_
    cases group with
    | none => exact hout
    | some g =>
      intro hP rule hrule
      obtain hrule | hrule := List.mem_append.mp hrule
      · exact ⟨sgId, h hP sgId List.mem_cons_self, hgroup g rfl rule hrule⟩
      · exact hout hP rule hrule

theorem careful_apply {inst : Inst} {ingress egress : List Json}
    (hworded : ∀ rule, w.Allowed rule → Worded pf rule) (hinst : w.Lists inst)
    (hrules : inst.domainName = w.domain → ∀ rule ∈ egress, ∃ g, w.member g ∧ w.granted g rule) :
    w.Careful pf (fun _ => True) (apply pf inst ingress egress) := by
  refine careful_bind (careful_expand (P := False) fun h => h.elim) fun _ _ => ?_
  refine careful_bind (careful_expand hrules) fun out hout => ?_
  split
  · exact careful_call (c := .applySlirp _) trivial (fun _ => id) fun _ _ => trivial
  · refine careful_call (c := .instanceMac _) trivial (fun _ => id) fun mac _ => ?_
    change w.Careful pf _ (if Option.getD mac "" = "" then _ else _)
    split
    · exact careful_call (c := .applySlirp _) trivial (fun _ => id) fun _ _ => trivial
    · exact careful_applyBridge hworded (fun h => ⟨(hinst.own h).1, hout h⟩) hinst.other

theorem careful_remove {inst : Inst} (hinst : w.Lists inst) (h : inst.domainName ≠ w.domain) :
    w.Careful pf (fun _ => True) (remove inst) := by
  unfold remove
  split
  · trivial
  · refine careful_call (c := .instanceMac _) trivial (fun _ => id) fun mac _ => ?_
    change w.Careful pf _ (if Option.getD mac "" = "" then _ else _)
    split
    · trivial
    · exact careful_removeBridge (hinst.other h)

theorem careful_applyMerged {inst : Inst} (hworded : ∀ rule, w.Allowed rule → Worded pf rule)
    (hinst : w.Lists inst) :
    w.Careful pf (fun _ => True) (do
      let rules ← mergedRules inst.securityGroupIds
      apply pf inst rules.1 rules.2) :=
  careful_bind (careful_merged fun h => (hinst.own h).2) fun _ hrules => careful_apply hworded hinst hrules

theorem careful_reapply {sgId : String} (hworded : ∀ rule, w.Allowed rule → Worded pf rule) :
    w.Careful pf (fun _ => True) (reapply pf sgId) := by
  refine careful_call (c := .listInstances) trivial (fun _ => id) fun l hl => ?_
  refine careful_forEach fun inst hinst => ?_
  unfold reapplyTo
  split
  · exact careful_applyMerged hworded (hl inst hinst)
  · trivial

theorem careful_launch {inst : Inst} (hworded : ∀ rule, w.Allowed rule → Worded pf rule) (hinst : w.Lists inst) :
    w.Careful pf (fun _ => True) (launch pf inst) := by
  unfold launch
  split
  · trivial
  · exact careful_tryCatch (careful_applyMerged hworded hinst) fun _ => trivial

end

/-! ### Threads in any order -/

abbrev Pool := Config sig Raised Unit ℕ Host

/-- Threads apply rules and take chains away, only not that of the instance.  They are killed where
the chain does not depend on them. -/
def Admitted (w : Setting) (pf : Platform) (x : Pool) : Move sig Raised Unit ℕ → Prop
  | .start _ p => (∃ sgId, p = reapply pf sgId) ∨
    ∃ inst, w.Lists inst ∧ (p = launch pf inst ∨ p = remove inst ∧ inst.domainName ≠ w.domain)
  | .call _ c a => w.Tells c a
  | .finish .. => True
  | .kill i => ∀ p, x.thread i = some p → ¬w.Filling p

section

variable {reads : Tool → List String → Option (Packet → Bool)} {f f' : Filter} {tool : Tool} {change : Change}

/-- What a command does to a chain. -/
theorem chains_of_change (h : f.change reads tool change = some f') (chain : String) :
    f'.chains chain = f.chains chain ∨
      (change = .create chain ∨ change = .flush chain) ∧ f'.chains chain = some [] ∨
      (∃ words rules rule, change = .append chain words ∧ f.chains chain = some rules ∧
        ruleOf reads tool words = some rule ∧ f'.chains chain = some (rules ++ [rule])) ∨
      change = .delete chain ∧ f.jumps.all (·.chain != chain) = true ∧ f'.chains chain = none := by
  have hput {other : String} {rules : Option (List (Rule Packet String))} (hne : other ≠ chain) :
      (f.put other rules).chains chain = f.chains chain := f.put_of_ne hne.symm rules
  cases change with
  | list other =>
    obtain ⟨-, -, rfl⟩ := Option.map_eq_some_iff.mp h
    exact .inl rfl
  | create other =>
    simp only [Filter.change] at h
    split at h <;> cases h
    by_cases hne : other = chain
    · subst hne; simp
    · exact .inl (hput hne)
  | flush other =>
    obtain ⟨-, -, rfl⟩ := Option.map_eq_some_iff.mp h
    by_cases hne : other = chain
    · subst hne; simp
    · exact .inl (hput hne)
  | append other words =>
    simp only [Filter.change] at h
    split at h
    next rules rule hrules hrule =>
      cases h
      by_cases hne : other = chain
      · subst hne
        exact .inr (.inr (.inl ⟨words, rules, rule, rfl, hrules, hrule, f.put_self ..⟩))
      · exact .inl (hput hne)
    next => cases h
  | insert j =>
    obtain ⟨-, -, rfl⟩ := Option.map_eq_some_iff.mp h
    exact .inl rfl
  | remove j =>
    simp only [Filter.change] at h
    split at h <;> cases h
    exact .inl rfl
  | delete other =>
    simp only [Filter.change] at h
    split at h
    next =>
      split at h <;> cases h
      next hall =>
        by_cases hne : other = chain
        · subst hne
          exact .inr (.inr (.inr ⟨rfl, hall, f.put_self ..⟩))
        · exact .inl (hput hne)
    next => cases h

/-- What a command does to the jumps. -/
theorem jumps_of_change (h : f.change reads tool change = some f') :
    f'.jumps = f.jumps ∨
      (∃ j, change = .insert j ∧ (f.chains j.chain).isSome = true ∧ f'.jumps = j :: f.jumps) ∨
      ∃ j, f'.jumps = f.jumps.erase j := by
  cases change with
  | list other =>
    obtain ⟨-, -, rfl⟩ := Option.map_eq_some_iff.mp h
    exact .inl rfl
  | create other =>
    simp only [Filter.change] at h
    split at h <;> cases h
    exact .inl rfl
  | flush other =>
    obtain ⟨-, -, rfl⟩ := Option.map_eq_some_iff.mp h
    exact .inl rfl
  | append other words =>
    simp only [Filter.change] at h
    split at h <;> cases h
    exact .inl rfl
  | insert j =>
    obtain ⟨rules, hrules, rfl⟩ := Option.map_eq_some_iff.mp h
    exact .inr (.inl ⟨j, rfl, by rw [hrules]; rfl, rfl⟩)
  | remove j =>
    simp only [Filter.change] at h
    split at h <;> cases h
    exact .inr (.inr ⟨j, rfl⟩)
  | delete other =>
    simp only [Filter.change] at h
    split at h
    · split at h <;> cases h
      exact .inl rfl
    · cases h

end

/-- The chain has only rules for the instance, and ends what it does not accept or is about to. -/
structure Inv (reads : Tool → List String → Option (Packet → Bool)) (w : Setting) (pf : Platform) (x : Pool) :
    Prop where
  rules : ∀ rules, (x.shared .iptables).chains w.chain = some rules → ∀ r ∈ rules, r = dropAll ∨
    ∃ rule, w.Allowed rule ∧ r.target = .verdict .accept ∧
      ∀ p : Packet, p.family = .v4 → r.test p = true → Covers pf reads rule p
  closed : ∀ rules, (x.shared .iptables).chains w.chain = some rules →
    dropAll ∈ rules ∨ ∃ i p, x.thread i = some p ∧ w.Filling p
  jumps : ∀ j ∈ (x.shared .iptables).jumps, j.mac = w.mac →
    j.chain = w.chain ∧ ((x.shared .iptables).chains w.chain).isSome = true
  careful : ∀ i p, x.thread i = some p → w.Careful pf (fun _ => True) p

section

variable {reads : Tool → List String → Option (Packet → Bool)} {w : Setting} {pf : Platform} {x y : Pool} {i : ℕ}
  {s : Host} {c : Cmd} {a : c.Ans} {k : c.Ans → Method Unit}

theorem Setting.Filling.next (h : w.Filling (.call c k)) (a : c.Ans) : w.Filling (k a) ∨ c = w.ending := by
  rcases h with ⟨-, hk⟩ | ⟨hc, -⟩
  · exact .inl (hk a)
  · exact .inr hc

/-- What is about to be done still is, behind a command that does not do it. -/
theorem exists_filling (ht : x.thread i = some (.call c k)) (hc : c ≠ w.ending)
    (h : ∃ i p, x.thread i = some p ∧ w.Filling p) :
    ∃ j p, (x.set i s (some (k a))).thread j = some p ∧ w.Filling p := by
  obtain ⟨j, p, hj, hp⟩ := h
  -- the thread that moved is nearer to the end, and the others are where they were
  by_cases hji : j = i
  · subst hji
    rw [ht] at hj
    cases hj
    exact ⟨j, k a, Config.set_thread_self .., (hp.next a).resolve_right hc⟩
  · exact ⟨j, p, by rw [Config.set_thread_of_ne x hji, hj], hp⟩

theorem careful_set (h : ∀ i p, x.thread i = some p → w.Careful pf (fun _ => True) p) {p : Method Unit}
    (hp : w.Careful pf (fun _ => True) p) (j : ℕ) (q : Method Unit) (hq : (x.set i s (some p)).thread j = some q) :
    w.Careful pf (fun _ => True) q := by
  by_cases hji : j = i
  · subst hji
    rw [Config.set_thread_self] at hq
    cases hq
    exact hp
  · rw [Config.set_thread_of_ne x hji] at hq
    exact h j q hq

/-- A command that leaves the filter of IPv4 alone. -/
theorem Inv.still (h : Inv reads w pf x) (ht : x.thread i = some (.call c k)) (htells : w.Tells c a)
    (hs : s .iptables = x.shared .iptables) (hc : c ≠ w.ending) : Inv reads w pf (x.set i s (some (k a))) where
  rules := by rw [Config.set_shared, hs]; exact h.rules
  closed := by
    intro rules hrules
    rw [Config.set_shared, hs] at hrules
    exact (h.closed rules hrules).imp_right (exists_filling ht hc)
  jumps := by rw [Config.set_shared, hs]; exact h.jumps
  careful := careful_set h.careful ((h.careful i _ ht).2 a htells).2

/-- Every rule of the chain is for the instance, also one that is new. -/
theorem Inv.rule_of_append (h : Inv reads w pf x) {words : List String} {k : Bool → Method Unit}
    (ht : x.thread i = some (.call (Cmd.filter .iptables (.append w.chain words)) k))
    {rule : Rule Packet String} (hrule : ruleOf reads .iptables words = some rule) :
    rule = dropAll ∨ ∃ r, w.Allowed r ∧ rule.target = .verdict .accept ∧
      ∀ p : Packet, p.family = .v4 → rule.test p = true → Covers pf reads r p := by
  unfold ruleOf at hrule
  split at hrule
  -- the words that end the chain
  next => exact .inl (Option.some.inj hrule).symm
  next hne =>
    obtain ⟨test, htest, rfl⟩ := Option.map_eq_some_iff.mp hrule
    obtain hdrop | ⟨r, hr, arg, harg, htool, hwords⟩ := (h.careful i _ ht).1 rfl
    · exact absurd hdrop hne
    · refine .inr ⟨r, hr, rfl, fun p hp hpass => ⟨arg, harg, ?_, words, test, hwords, ?_, hpass⟩⟩
      · rw [htool, hp]; rfl
      · rw [htool]; exact htest

/-- A command that changes the filter of IPv4. -/
theorem Inv.changed (h : Inv reads w pf x) {change : Change} {k : Bool → Method Unit} {f : Filter}
    (ht : x.thread i = some (.call (Cmd.filter .iptables change) k))
    (htells : w.Tells (Cmd.filter .iptables change) true)
    (hf : (x.shared .iptables).change reads .iptables change = some f) :
    Inv reads w pf (x.set i (Function.update x.shared .iptables f) (some (k true))) := by
  obtain ⟨hfair, hk⟩ := h.careful i _ ht
  obtain ⟨hopens, hcareful⟩ := hk true htells
  have hchains := chains_of_change hf w.chain
  have hshared : (x.set i (Function.update x.shared .iptables f) (some (k true))).shared .iptables = f := by
    rw [Config.set_shared, Function.update_self]
  -- a chain that jumps lead to is not deleted
  have hthere (hsome : ((x.shared .iptables).chains w.chain).isSome = true)
      (hled : ∃ j ∈ (x.shared .iptables).jumps, j.chain = w.chain) : (f.chains w.chain).isSome = true := by
    obtain hsame | ⟨-, hnew⟩ | ⟨-, _, _, -, -, -, hnew⟩ | ⟨-, hall, -⟩ := hchains
    · rw [hsame]; exact hsome
    · rw [hnew]; rfl
    · rw [hnew]; rfl
    · obtain ⟨j, hj, hchain⟩ := hled
      have := List.all_eq_true.mp hall j hj
      simp [hchain] at this
  -- so the jumps of before still lead somewhere
  have hkept : ∀ j ∈ (x.shared .iptables).jumps, j.mac = w.mac →
      j.chain = w.chain ∧ (f.chains w.chain).isSome = true := by
    intro j hj hmac
    obtain ⟨hchain, hsome⟩ := h.jumps j hj hmac
    exact ⟨hchain, hthere hsome ⟨j, hj, hchain⟩⟩
  constructor
  -- only `-A` adds to the chain
  · intro rules hrules r hr
    rw [hshared] at hrules
    obtain hsame | ⟨-, hnew⟩ | ⟨words, old, rule, rfl, hold, hrule, hnew⟩ | ⟨-, -, hnew⟩ := hchains
    · exact h.rules rules (hsame ▸ hrules) r hr
    · rw [hnew] at hrules
      cases hrules
      cases hr
    · rw [hnew] at hrules
      cases hrules
      obtain hr | hr := List.mem_append.mp hr
      · exact h.rules old hold r hr
      · rw [List.mem_singleton] at hr
        subst hr
        exact h.rule_of_append ht hrule
    · rw [hnew] at hrules
      cases hrules
  · intro rules hrules
    rw [hshared] at hrules
    -- the chain gets its end, or whoever was about to end it still is
    by_cases hending : Cmd.filter .iptables change = w.ending
    · cases hending
      simp only [Filter.change, ruleOf_drop] at hf
      split at hf
      next hrule =>
        cases hrule
        cases hf
        rw [Filter.put_self] at hrules
        cases hrules
        exact .inl (List.mem_append_right _ (List.mem_singleton_self _))
      next => cases hf
    · have hstill := exists_filling (s := Function.update x.shared .iptables f) (c := .filter .iptables change)
        (a := (true : Bool)) ht hending
      obtain hsame | ⟨hopened, -⟩ | ⟨words, old, rule, -, hold, -, hnew⟩ | ⟨-, -, hnew⟩ := hchains
      · exact (h.closed rules (hsame ▸ hrules)).imp_right hstill
      -- a thread that opens the chain is the one to end it
      · refine .inr ⟨i, k true, Config.set_thread_self .., hopens ?_⟩
        obtain rfl | rfl := hopened <;> exact ⟨rfl, rfl⟩
      · rw [hnew] at hrules
        cases hrules
        exact (h.closed old hold).imp (List.mem_append_left _) hstill
      · rw [hnew] at hrules
        cases hrules
  -- only `-I` adds a jump, and only to a chain that is there
  · intro j hj hmac
    rw [hshared] at hj ⊢
    obtain hsame | ⟨new, rfl, hsome, hnew⟩ | ⟨gone, hnew⟩ := jumps_of_change hf
    · exact hkept j (hsame ▸ hj) hmac
    · rw [hnew] at hj
      obtain rfl | hj := List.mem_cons.mp hj
      · have hchain := hfair hmac
        refine ⟨hchain, ?_⟩
        rw [hchain] at hsome
        obtain ⟨-, -, rfl⟩ := Option.map_eq_some_iff.mp hf
        exact hsome
      · exact hkept j hj hmac
    · rw [hnew] at hj
      exact hkept j (List.mem_of_mem_erase hj) hmac
  · exact careful_set h.careful hcareful

/-- A thread that begins or ends, and did not have to end the chain. -/
theorem Inv.quiet (h : Inv reads w pf x) (hidle : ∀ q, x.thread i = some q → ¬w.Filling q)
    {p : Option (Method Unit)} (hp : ∀ q, p = some q → w.Careful pf (fun _ => True) q) :
    Inv reads w pf (x.set i x.shared p) where
  rules := h.rules
  closed := by
    intro rules hrules
    refine (h.closed rules hrules).imp_right ?_
    rintro ⟨j, q, hj, hq⟩
    have hji : j ≠ i := fun hji => hidle q (hji ▸ hj) hq
    exact ⟨j, q, by rw [Config.set_thread_of_ne x hji, hj], hq⟩
  jumps := h.jumps
  careful := by
    intro j q hq
    by_cases hji : j = i
    · subst hji
      rw [Config.set_thread_self] at hq
      exact hp q hq
    · rw [Config.set_thread_of_ne x hji] at hq
      exact h.careful j q hq

/-- **A move keeps the chain closed**, or a thread is about to close it. -/
theorem Inv.step (hworded : ∀ rule, w.Allowed rule → Worded pf rule) (h : Inv reads w pf x)
    {m : Move sig Raised Unit ℕ} (hm : Admitted w pf x m) (hstep : Step (act reads) x m y) : Inv reads w pf y := by
  cases hstep with
  | start ht =>
    refine h.quiet (fun q hq => by rw [ht] at hq; cases hq) fun q hq => ?_
    cases hq
    obtain ⟨sgId, rfl⟩ | ⟨inst, hinst, rfl | ⟨rfl, hother⟩⟩ := hm
    · exact careful_reapply hworded
    · exact careful_launch hworded hinst
    · exact careful_remove hinst hother
  | @call i c k a s ht hact =>
    cases c with
    | filter tool change =>
      obtain ⟨hok, f, hf, rfl⟩ | ⟨hok, rfl⟩ := hact
      -- the command has changed the filter
      · cases hok
        cases tool with
        | iptables => exact h.changed ht hm hf
        | ip6tables => exact h.still ht hm (Function.update_of_ne (by simp) ..) (by simp [Setting.ending])
      -- or it has failed, which the end of the chain does not
      · cases hok
        refine h.still ht hm rfl fun hending => ?_
        cases hending
        exact Bool.false_ne_true (hm rfl rfl)
    | listForward => exact h.still ht hm (congrFun hact.1 _) (by simp [Setting.ending])
    | _ => exact h.still ht hm (congrFun hact _) (by simp [Setting.ending])
  | ret ht =>
    exact h.quiet (fun q hq => by rw [ht] at hq; cases hq; exact id) fun q hq => by cases hq
  | raise ht =>
    exact h.quiet (fun q hq => by rw [ht] at hq; cases hq; exact id) fun q hq => by cases hq
  | kill ht => exact h.quiet hm fun q hq => by cases hq

end

section

variable {reads : Tool → List String → Option (Packet → Bool)} {w : Setting} {pf : Platform} {x : Pool} {s : Host}

theorem inv_init (hchain : (s .iptables).chains w.chain = none)
    (hjumps : ∀ j ∈ (s .iptables).jumps, j.mac ≠ w.mac) :
    Inv reads w pf (.idle s) where
  rules rules h := by rw [show (Config.idle s : Pool).shared = s from rfl, hchain] at h; cases h
  closed rules h := by rw [show (Config.idle s : Pool).shared = s from rfl, hchain] at h; cases h
  jumps j hj h := absurd h (hjumps j hj)
  careful i p h := by cases h

end

/-! ### An instance that may use `ssh` -/

/-- The group of the instance lets `ssh` out. -/
def webSetting : Setting where
  domain := web.domain
  id := web.id
  mac := web.mac
  member := (· = "ssh")
  granted id rule := id = "ssh" ∧ rule = sshRule
  holder _ _ := True

def webInst : Inst := ⟨web.id, web.domain, "", true, ["ssh"]⟩

def sshPacket : Packet := ⟨.v4, web.mac, 10 * 2 ^ 24 + 1, 6, 22⟩

/-- A host on which no command fails that the tables allow. -/
def serve (s : Host) : (c : Cmd) → Option (c.Ans × Host)
  | .instanceMac domain => some (if domain = web.domain then some web.mac else none, s)
  | .listInstances => some ([webInst], s)
  | .getGroup id => some (if id = "ssh" then some ⟨[], [sshRule]⟩ else none, s)
  | .applySlirp _ => some ((), s)
  | .filter tool change =>
    match (s tool).change readWords tool change with
    | some f => some (true, Function.update s tool f)
    | none => if change = .append web.chain dropWords then none else some (false, s)
  | .listForward => some ((s .iptables).jumps, s)

theorem worded_web {rule : Json} (h : webSetting.Allowed rule) : Worded halves rule := by
  cases h with
  | plain hg hgranted hplain =>
    obtain ⟨rfl, rfl⟩ := hgranted
    exact worded_of_canonical documented_readWords accepted_sshRule canonical_sshRule
  | source hg hgranted hsource =>
    obtain ⟨rfl, rfl⟩ := hgranted
    exact absurd hsource (by decide)

theorem lists_webInst : webSetting.Lists webInst where
  own _ := ⟨rfl, List.forall_mem_singleton.mpr rfl⟩
  other h := absurd rfl h
  holder _ _ := trivial

theorem act_of_serve {x : Pool} {i : ℕ} {c : Cmd} {a : c.Ans} {s : Host} (h : serve x.shared c = some (a, s)) :
    act readWords i x.shared c a s ∧ Admitted webSetting halves x (.call i c a) := by
  cases c with
  -- only the domain of the instance has its address
  | instanceMac domain =>
    cases h
    have hasked (mac : String) : (if domain = web.domain then some web.mac else none) = some mac ↔
        domain = web.domain ∧ web.mac = mac := by simp
    refine ⟨rfl, fun _ mac hmac => ((hasked mac).mp hmac).2.symm, fun hdomain hmac => ?_⟩
    exact hdomain ((hasked _).mp hmac).1
  | listInstances =>
    cases h
    exact ⟨rfl, List.forall_mem_singleton.mpr lists_webInst⟩
  | getGroup id =>
    cases h
    refine ⟨rfl, fun g hg rule hrule => ?_⟩
    obtain ⟨hid, hg⟩ := Option.ite_none_right_eq_some.mp hg
    cases hg
    exact ⟨hid, List.mem_singleton.mp hrule⟩
  | applySlirp id =>
    cases h
    exact ⟨rfl, trivial⟩
  | filter tool change =>
    have htells {ok : Bool} (hok : change = .append web.chain dropWords → ok = true) :
        webSetting.Tells (.filter tool change) ok := by
      cases tool with
      | iptables =>
        cases change with
        | append chain words =>
          rintro rfl rfl
          exact hok rfl
        | _ => trivial
      | ip6tables => trivial
    change (match (x.shared tool).change readWords tool change with
      | some f => some (true, Function.update x.shared tool f)
      | none => if change = .append web.chain dropWords then none else some (false, x.shared)) = some (a, s) at h
    split at h
    next f hf =>
      cases h
      exact ⟨.inl ⟨rfl, f, hf, rfl⟩, htells fun _ => rfl⟩
    next =>
      split at h
      · cases h
      next hne =>
        cases h
        exact ⟨.inr ⟨rfl, rfl⟩, htells fun hdrop => absurd hdrop hne⟩
  | listForward =>
    cases h
    exact ⟨⟨rfl, .inl rfl⟩, trivial⟩

/-- What a launch leaves behind. -/
theorem run_launch_web : ∃ r s, (launch halves webInst).run serve Host.init = some (r, s) ∧
    (s .iptables).jumps = [web.jump] ∧ ∃ r rules, (s .iptables).chains web.chain = some (r :: rules) ∧
      r.test sshPacket = true ∧ r.target = .verdict .accept := by
  have h : ((launch halves webInst).run serve Host.init).any (fun x =>
      decide ((x.2 .iptables).jumps = [web.jump]) &&
        ((x.2 .iptables).chains web.chain).any fun rules => rules.head?.any fun r =>
          r.test sshPacket && decide (r.target = .verdict .accept)) = true := by decide
  obtain ⟨⟨r, s⟩, hrun, hs⟩ := (Option.any_eq_true ..).mp h
  obtain ⟨hjumps, hchain⟩ := Bool.and_eq_true_iff.mp hs
  obtain ⟨rules, hrules, hhead⟩ := (Option.any_eq_true ..).mp hchain
  obtain ⟨rule, hrule, hpass⟩ := (Option.any_eq_true ..).mp hhead
  obtain ⟨htest, htarget⟩ := Bool.and_eq_true_iff.mp hpass
  obtain ⟨rest, rfl⟩ := List.head?_eq_some_iff.mp hrule
  exact ⟨r, s, hrun, of_decide_eq_true hjumps, rule, rest, hrules, htest, of_decide_eq_true htarget⟩

section

variable {reads : Tool → List String → Option (Packet → Bool)} {pf : Platform} {x : Pool} {s : Host}

/-- No chain is made for IPv6. -/
def Plain : Cmd → Prop
  | .filter .ip6tables (.create _) => False
  | _ => True

theorem plain_append (chain : String) (arg : Tool × List Json) :
    (append chain arg).Confined Plain fun _ => True := by
  unfold append
  cases argv arg.2 with
  | error e => trivial
  | ok words =>
    obtain ⟨tool, args⟩ := arg
    cases tool <;> exact ⟨trivial, fun _ => trivial⟩

theorem plain_applyBridge (domain sgId : String) (egress : List Json) :
    (applyBridge pf domain sgId egress).Confined Plain fun _ => True := by
  have hend (chain mac : String) : (endChain chain mac).Confined Plain fun _ => True := by
    refine ⟨trivial, fun _ => ⟨trivial, fun jumps => ?_⟩⟩
    change Program.Confined _ _ (if macJumpExists chain mac jumps = true then _ else _)
    split
    · trivial
    · exact ⟨trivial, fun _ => trivial⟩
  have hfill (chain mac : String) : (fillChain pf chain mac egress).Confined Plain fun _ => True :=
    ⟨trivial, fun _ => Program.confined_bind (Program.confined_forEach fun arg _ => plain_append chain arg)
      fun _ _ => hend chain mac⟩
  refine ⟨trivial, fun mac => ?_⟩
  change Program.Confined _ _ (if Option.getD mac "" = "" then _ else _)
  split
  · trivial
  · refine ⟨trivial, fun ok => ?_⟩
    cases ok with
    | true => exact hfill _ _
    | false =>
      refine ⟨trivial, fun made => ?_⟩
      cases made with
      | true => exact hfill _ _
      | false => trivial

theorem plain_expand (rules : List Json) : (expandSgReferences rules).Confined Plain fun _ => True := by
  induction rules with
  | nil => trivial
  | cons rule rules ih =>
    unfold expandSgReferences
    dsimp only
    split
    · exact Program.confined_bind ih fun _ _ => trivial
    · exact ⟨trivial, fun l => Program.confined_bind ih fun _ _ => trivial⟩

theorem plain_merged (sgIds : List String) : (mergedRules sgIds).Confined Plain fun _ => True := by
  induction sgIds with
  | nil => trivial
  | cons sgId sgIds ih =>
    refine ⟨trivial, fun group => Program.confined_bind ih fun _ _ => ?_⟩
    cases group <;> trivial

theorem plain_applyMerged (inst : Inst) : Program.Confined Plain (fun _ => True) (do
    let rules ← mergedRules inst.securityGroupIds
    apply pf inst rules.1 rules.2) := by
  refine Program.confined_bind (plain_merged _) fun rules _ => ?_
  refine Program.confined_bind (plain_expand _) fun _ _ => ?_
  refine Program.confined_bind (plain_expand _) fun egress _ => ?_
  split
  · exact ⟨trivial, fun _ => trivial⟩
  · refine ⟨trivial, fun mac => ?_⟩
    change Program.Confined _ _ (if Option.getD mac "" = "" then _ else _)
    split
    · exact ⟨trivial, fun _ => trivial⟩
    · exact plain_applyBridge ..

theorem plain_remove (inst : Inst) : (remove inst).Confined Plain fun _ => True := by
  unfold remove
  split
  · trivial
  · refine ⟨trivial, fun mac => ?_⟩
    change Program.Confined _ _ (if Option.getD mac "" = "" then _ else _)
    split
    · trivial
    · refine ⟨trivial, fun mac => Program.confined_bind (A := fun _ => True) ?_ fun _ _ =>
        ⟨trivial, fun _ => ⟨trivial, fun _ => trivial⟩⟩⟩
      split
      · trivial
      · exact ⟨trivial, fun _ => trivial⟩

/-- The threads that CloudCore starts. -/
def Starts (pf : Platform) (_ : Pool) : Move sig Raised Unit ℕ → Prop
  | .start _ p => (∃ sgId, p = reapply pf sgId) ∨ ∃ inst, p = launch pf inst ∨ p = remove inst
  | _ => True

theorem plain_of_starts {i : ℕ} {p : Method Unit} (h : Starts pf x (.start i p)) :
    p.Confined Plain fun _ => True := by
  obtain ⟨sgId, rfl⟩ | ⟨inst, rfl | rfl⟩ := h
  · refine ⟨trivial, fun l => Program.confined_forEach fun inst _ => ?_⟩
    unfold reapplyTo
    split
    · exact plain_applyMerged inst
    · trivial
  · unfold launch
    split
    · trivial
    · exact Program.confined_tryCatch (plain_applyMerged inst) fun _ => trivial
  · exact plain_remove inst

/-- Without chains there is nothing to change. -/
theorem change_of_empty {tool : Tool} {change : Change} {f : Filter}
    (h : Filter.change reads ⟨fun _ => none, []⟩ tool change = some f) : ∃ chain, change = .create chain := by
  cases change with
  | create chain => exact ⟨chain, rfl⟩
  | _ => simp [Filter.change] at h

/-- **Nothing that goes out over IPv6 is ever held back,** whichever rules there are, whatever happens to the
threads that apply them, and whichever commands fail. -/
theorem passes_ipv6 (h6 : s .ip6tables = ⟨fun _ => none, []⟩) (h : Reaches (act reads) (Starts pf) (.idle s) x)
    {otherwise : Packet → Bool} {p : Packet} (hp : p.family = .v6) :
    x.shared.Passes otherwise p ↔ otherwise p = true := by
  have hinv : x.shared .ip6tables = ⟨fun _ => none, []⟩ ∧
      ∀ i q, x.thread i = some q → q.Confined Plain fun _ => True := by
    -- no thread makes a chain there, and without one no other command does anything
    refine h.invariant (I := fun (x : Pool) => x.shared .ip6tables = ⟨fun _ => none, []⟩ ∧
      ∀ i q, x.thread i = some q → q.Confined Plain fun _ => True) ?_ ⟨h6, fun i q hq => by cases hq⟩
    rintro y m z ⟨hy, hq⟩ hm hstep
    have hset {i : ℕ} {s : Host} {t : Option (Method Unit)}
        (ht : ∀ q, t = some q → q.Confined Plain fun _ => True) :
        ∀ j q, (y.set i s t).thread j = some q → q.Confined Plain fun _ => True := by
      intro j q hj
      by_cases hji : j = i
      · subst hji
        rw [Config.set_thread_self] at hj
        exact ht q hj
      · rw [Config.set_thread_of_ne y hji] at hj
        exact hq j q hj
    cases hstep with
    | start ht => exact ⟨hy, hset fun q hq => by cases hq; exact plain_of_starts hm⟩
    | @call i c k a s ht hact =>
      obtain ⟨hplain, hk⟩ := hq i _ ht
      refine ⟨?_, hset fun q hq => by cases hq; exact hk a⟩
      rw [Config.set_shared]
      cases c with
      | filter tool change =>
        obtain ⟨-, f, hf, rfl⟩ | ⟨-, rfl⟩ := hact
        · cases tool with
          | iptables => rwa [Function.update_of_ne (by simp)]
          | ip6tables =>
            rw [hy] at hf
            obtain ⟨chain, rfl⟩ := change_of_empty hf
            exact hplain.elim
        · exact hy
      | listForward => rw [hact.1]; exact hy
      | _ => rw [show s = y.shared from hact]; exact hy
    | _ => exact ⟨hy, hset fun q hq => by cases hq⟩
  unfold Host.Passes
  rw [hp]
  exact accepts_rest (by rw [show x.shared (toolOf .v6) = _ from hinv.1]; exact .nil)

end

theorem passes_ipv6_web : ∃ x, Reaches (act readWords) (Starts halves) (.idle Host.init) x ∧
    (x.shared .iptables).jumps = [web.jump] ∧
    (x.shared.Passes (fun _ => true) ⟨.v6, web.mac, 1, 6, 22⟩ ↔ true = true) := by
  obtain ⟨r, s, hrun, hjumps, -⟩ := run_launch_web
  have hreaches : Reaches (act readWords) (Starts halves) (.idle Host.init) (.idle s) :=
    Reaches.solo (i := 0) (fun _ _ _ _ h => ⟨(act_of_serve h).1, trivial⟩) (fun _ _ => trivial) _
      (.inr ⟨webInst, .inl rfl⟩) hrun
  exact ⟨_, hreaches, hjumps, passes_ipv6 rfl hreaches rfl⟩

/-! ### What goes wrong -/

section

variable {reads : Tool → List String → Option (Packet → Bool)} {pf : Platform} {g : Guest} {s : Host} {x : Pool}
  {rules : List (Rule Packet String)} {egress egress' : List Json} {i : ℕ}
  {acts : List (Move sig Raised Unit ℕ)}

/-- Threads apply rules to the instance, and no command fails that the tables allow. -/
def Applies (reads : Tool → List String → Option (Packet → Bool)) (pf : Platform) (g : Guest) (x : Pool) :
    Move sig Raised Unit ℕ → Prop
  | .start _ p => ∃ egress, p = applyBridge pf g.domain g.id egress
  | .call _ c a => ∃ s, answer reads g.mac x.shared c = some (a, s)
  | .finish .. => True
  | .kill _ => False

theorem act_of_answer {x : Pool} {c : Cmd} {a : c.Ans} {s : Host}
    (h : answer reads g.mac x.shared c = some (a, s)) :
    act reads i x.shared c a s ∧ Applies reads pf g x (.call i c a) := by
  refine ⟨?_, s, h⟩
  cases c with
  | filter tool change =>
    cases hchange : (x.shared tool).change reads tool change with
    | some f =>
      change some (x.shared.told reads tool change) = _ at h
      rw [told_of_some hchange] at h
      cases h
      exact .inl ⟨rfl, f, hchange, rfl⟩
    | none =>
      change some (x.shared.told reads tool change) = _ at h
      rw [told_of_none hchange] at h
      cases h
      exact .inr ⟨rfl, rfl⟩
  | listForward => cases h; exact ⟨rfl, .inl rfl⟩
  | _ => cases h; rfl

/-- A run of such threads, with their starts and ends. -/
abbrev Applying (reads : Tool → List String → Option (Packet → Bool)) (pf : Platform) (g : Guest) (s : Host)
    (acts : List (Move sig Raised Unit ℕ)) (x : Pool) : Prop :=
  Performs (act reads) (Applies reads pf g) (.idle s) acts x

/-- A thread may issue its next command. -/
theorem applying_call (hx : Applying reads pf g s acts x) {c : Cmd} {k : c.Ans → Method Unit} {a : c.Ans} {s' : Host}
    (ht : x.thread i = some (.call c k)) (h : answer reads g.mac x.shared c = some (a, s')) :
    Applying reads pf g s acts (x.set i s' (some (k a))) :=
  hx.go (fun _ _ _ _ => act_of_answer) ht h

/-- A chain that lets some packets through and ends none of the others. -/
theorem passes_of_accepts {f : Filter} (htargets : ∀ r ∈ rules, r.target = .verdict .accept)
    (hchain : f.chains g.chain = some rules) (hjumps : ∀ j ∈ f.jumps, j.mac = g.mac → j.chain = g.chain)
    (hf : s .iptables = f) {otherwise : Packet → Bool} {p : Packet} (hv4 : p.family = .v4) (hmac : p.mac = g.mac)
    (hpass : otherwise p = true) : s.Passes otherwise p := by
  have hwalk : Walk f.chains p rules _ := walk_accepts htargets
  unfold Host.Passes
  rw [hv4, show s (toolOf .v4) = f from hf]
  -- a rule accepts the packet, or it falls off the end
  split at hwalk
  · by_cases hled : ∃ j ∈ f.jumps, j.mac = p.mac
    · exact (Table.accepts_iff (t := f.table otherwise) (walk_jumps hled (fun j hj h => hjumps j hj (h.trans hmac))
        hchain hwalk)).mpr rfl
    · exact (accepts_rest (walk_past_jumps fun j hj h => absurd ⟨j, hj, h⟩ hled)).mpr hpass
  · refine (accepts_rest (walk_past_jumps fun j hj h => ⟨rules, ?_, hwalk⟩)).mpr hpass
    rw [hjumps j hj (h.trans hmac), hchain]

variable (egress i) in
/-- The thread is started, and stands before the flush. -/
theorem applying_fill (hx : Applying reads pf g s acts x) (hmac : g.mac ≠ "")
    (hchain : (x.shared .iptables).chains g.chain = some rules) (hi : x.thread i = none) :
    Applying reads pf g s (acts ++ [.start i (applyBridge pf g.domain g.id egress)])
      (x.set i x.shared (some (fillChain pf g.chain g.mac egress))) := by
  have hlist : answer reads g.mac x.shared (.filter .iptables (.list g.chain)) = some (true, x.shared) := by
    change some (x.shared.told reads .iptables (.list g.chain)) = _
    rw [told_of_some (f := x.shared .iptables) (by simp only [Filter.change, hchain, Option.map_some]),
      Function.update_eq_self]
  -- `virsh` is asked for the address, and `iptables` for the chain
  have hstart : Applying reads pf g s (acts ++ [.start i (applyBridge pf g.domain g.id egress)])
      (x.set i x.shared (some (applyBridge pf g.domain g.id egress))) :=
    hx.move (m := .start i _) ⟨egress, rfl⟩ (.start hi)
  have hasked : Applying reads pf g s (acts ++ [.start i (applyBridge pf g.domain g.id egress)])
      (x.set i x.shared (some (ensureChain g.chain >>= fun _ => fillChain pf g.chain g.mac egress))) := by
    have hmac' : answer reads g.mac x.shared (.instanceMac g.domain) = some (some g.mac, x.shared) := rfl
    have hgo := applying_call hstart (Config.set_thread_self ..) hmac'
    rw [Config.set_set] at hgo
    change Applying _ _ _ _ _ (x.set i x.shared (some (if g.mac = "" then _ else _))) at hgo
    rwa [if_neg hmac] at hgo
  have hlisted := applying_call hasked (Config.set_thread_self ..) hlist
  rwa [Config.set_set] at hlisted

/-- The host with other rules in the chain. -/
def Host.holding (s : Host) (chain : String) (rules : List (Rule Packet String)) : Host :=
  Function.update s .iptables ((s .iptables).put chain (some rules))

@[simp] theorem holding_iptables (chain : String) :
    s.holding chain rules .iptables = (s .iptables).put chain (some rules) :=
  Function.update_self ..

@[simp] theorem holding_ip6tables (chain : String) : s.holding chain rules .ip6tables = s .ip6tables :=
  Function.update_of_ne (by simp) ..

@[simp] theorem holding_holding (chain : String) (rules' : List (Rule Packet String)) :
    (s.holding chain rules).holding chain rules' = s.holding chain rules' := by
  unfold Host.holding
  rw [Function.update_idem, Function.update_self, Filter.put_put]

variable (egress i) in
/-- The thread is started, and has flushed the chain. -/
theorem applying_flushed (hx : Applying reads pf g s acts x) (hmac : g.mac ≠ "")
    (hchain : (x.shared .iptables).chains g.chain = some rules) (hi : x.thread i = none) :
    Applying reads pf g s (acts ++ [.start i (applyBridge pf g.domain g.id egress)])
      (x.set i (x.shared.holding g.chain [])
        (some (Program.forEach (egress.flatMap (iptablesRuleArgs pf · .egress)) (append g.chain) >>= fun _ =>
          endChain g.chain g.mac))) := by
  have hflush : answer reads g.mac x.shared (.filter .iptables (.flush g.chain)) =
      some (true, x.shared.holding g.chain []) :=
    congrArg some (told_of_some (by simp only [Filter.change, hchain, Option.map_some]))
  have hgo := applying_call (applying_fill egress i hx hmac hchain hi) (Config.set_thread_self ..) hflush
  rwa [Config.set_set] at hgo

/-- The thread has added its rules to those that are there. -/
theorem applying_filled (hx : Applying reads pf g s acts x) (hworded : ∀ rule ∈ egress, Worded pf rule)
    (h6 : (s .ip6tables).chains g.chain = none) (hshared : x.shared = s.holding g.chain rules)
    (hi : x.thread i = some (Program.forEach (egress.flatMap (iptablesRuleArgs pf · .egress)) (append g.chain) >>=
      fun _ => endChain g.chain g.mac)) :
    Applying reads pf g s acts
      (x.set i (s.holding g.chain (rules ++ compiled reads pf egress)) (some (endChain g.chain g.mac))) := by
  refine hx.through (h := answer reads g.mac) (b := ()) (f := fun _ => endChain g.chain g.mac)
    (fun _ _ _ _ => act_of_answer) hi ?_
  have hall : ∀ arg ∈ egress.flatMap (iptablesRuleArgs pf · .egress), ∃ words, argv arg.2 = .ok words := by
    intro arg harg
    obtain ⟨rule, hrule, harg⟩ := List.mem_flatMap.mp harg
    exact hworded rule hrule arg harg
  have hstill : s.holding g.chain rules .iptables = (s .iptables).put g.chain (some rules) := holding_iptables _
  rw [hshared, run_append (f := s .iptables) hall (by rwa [holding_ip6tables]) hstill]
  unfold Host.holding
  rw [Function.update_idem]
  rfl

/-- The thread has ended the chain, which has a jump, and returns. -/
theorem applying_ended (hx : Applying reads pf g s acts x) (hjump : g.jump ∈ (s .iptables).jumps)
    (hshared : x.shared = s.holding g.chain rules) (hi : x.thread i = some (endChain g.chain g.mac)) :
    Applying reads pf g s (acts ++ [.finish i (.ok ())]) (x.set i (s.holding g.chain (rules ++ [dropAll])) none) := by
  have hled : macJumpExists g.chain g.mac (s .iptables).jumps = true := by
    simp only [macJumpExists, Bool.and_eq_true, List.any_eq_true]
    exact ⟨⟨g.jump, hjump, beq_self_eq_true _⟩, ⟨g.jump, hjump, beq_self_eq_true _⟩⟩
  refine hx.finish (h := answer reads g.mac) (r := .ok ()) (fun _ _ _ _ => act_of_answer)
    (fun _ _ => trivial) hi ?_
  have hchain : (s.holding g.chain rules .iptables).chains g.chain = some rules := by simp
  rw [hshared, run_endChain hchain]
  simp [Host.holding, Filter.put, hled]

/-- **In the middle of an application everything passes,** whatever the chain held and whatever it will hold. -/
theorem opened (hmac : g.mac ≠ "") (hchain : (s .iptables).chains g.chain = some rules)
    (hjumps : ∀ j ∈ (s .iptables).jumps, j.mac = g.mac → j.chain = g.chain) (egress : List Json) :
    ∃ x : Pool, Reaches (act reads) (Applies reads pf g) (.idle s) x ∧
      x.thread 0 = some (Program.forEach (egress.flatMap (iptablesRuleArgs pf · .egress)) (append g.chain) >>=
        fun _ => endChain g.chain g.mac) ∧
      ∀ otherwise p, p.family = .v4 → p.mac = g.mac → otherwise p = true → x.shared.Passes otherwise p := by
  refine ⟨_, (applying_flushed egress 0 .refl hmac hchain rfl).reaches, Config.set_thread_self .., ?_⟩
  intro otherwise p hv4 hpmac hpass
  have hnone : ∀ r ∈ ([] : List (Rule Packet String)), r.target = .verdict .accept :=
    fun r hr => absurd hr List.not_mem_nil
  exact passes_of_accepts hnone (Filter.put_self ..) hjumps (holding_iptables _) hv4 hpmac hpass

/-- The host behind an application without rules. -/
def barred : Host :=
  Function.update Host.init .iptables
    ⟨fun chain => if chain = web.chain then some [dropAll] else none, [web.jump]⟩

theorem led_barred : ∀ j ∈ (barred .iptables).jumps, j.mac = web.mac → j.chain = web.chain :=
  List.forall_mem_singleton.mpr fun _ => rfl

/-- An application that lets nothing out lets everything out while it lasts. -/
theorem opened_web : ∃ x : Pool, Reaches (act readWords) (Applies readWords halves web) (.idle barred) x ∧
    x.thread 0 = some (Program.forEach (([] : List Json).flatMap (iptablesRuleArgs halves · .egress))
      (append web.chain) >>= fun _ => endChain web.chain web.mac) ∧
    ∀ otherwise p, p.family = .v4 → p.mac = web.mac → otherwise p = true → x.shared.Passes otherwise p :=
  opened (by decide) rfl led_barred []

/-- A chain that ends everything at once. -/
theorem not_passes_of_drop (hjump : g.jump ∈ (s .iptables).jumps)
    (hjumps : ∀ j ∈ (s .iptables).jumps, j.mac = g.mac → j.chain = g.chain)
    {otherwise : Packet → Bool} {p : Packet} (hv4 : p.family = .v4) (hmac : p.mac = g.mac) :
    ¬(s.holding g.chain (dropAll :: rules)).Passes otherwise p := by
  have hwalk : Walk ((s .iptables).put g.chain (some (dropAll :: rules))).chains p (dropAll :: rules)
      (some .drop) := .verdict rfl rfl
  unfold Host.Passes
  rw [hv4, show s.holding g.chain (dropAll :: rules) (toolOf .v4) = _ from holding_iptables _,
    Table.accepts_iff (walk_jumps ⟨g.jump, hjump, hmac.symm⟩ (fun j hj h => hjumps j hj (h.trans hmac))
      (Filter.put_self ..) hwalk)]
  simp

theorem worded_sshRule : ∀ rule ∈ [sshRule], Worded halves rule :=
  List.forall_mem_singleton.mpr (worded_of_canonical documented_readWords accepted_sshRule canonical_sshRule)

variable (reads) in
/-- The first rule whose words are not strings ends the application. -/
theorem run_append_error (mac : String) {chain : String} {f : Filter} {l : List (Tool × List Json)}
    (hl : ∃ x ∈ l, ∀ words, argv x.2 ≠ .ok words) (hlong : ∀ x ∈ l, 2 < x.2.length)
    (h6 : (s .ip6tables).chains chain = none) (hf : s .iptables = f.put chain (some rules))
    (hrules : ∀ r ∈ rules, r.target = .verdict .accept) :
    ∃ e rules', (Program.forEach l (append chain)).run (answer reads mac) s =
      some (.error e, Function.update s .iptables (f.put chain (some rules'))) ∧
      ∀ r ∈ rules', r.target = .verdict .accept := by
  induction l generalizing s rules with
  | nil =>
    obtain ⟨x, hx, -⟩ := hl
    cases hx
  | cons x l ih =>
    change ∃ e rules', (append chain x >>= fun _ => Program.forEach l (append chain)).run _ _ = _ ∧ _
    cases hwords : argv x.2 with
    -- here it raises, and the chain has what came before
    | error e =>
      refine ⟨e, rules, Program.run_bind_error ?_, hrules⟩
      unfold append
      rw [hwords, ← hf, Function.update_eq_self]
      rfl
    | ok words =>
      have hrest : ∃ y ∈ l, ∀ words, argv y.2 ≠ .ok words := by
        obtain ⟨y, hy, hno⟩ := hl
        obtain rfl | hy := List.mem_cons.mp hy
        · exact absurd hwords (hno words)
        · exact ⟨y, hy, hno⟩
      have hnew : ∀ r ∈ rules ++ (compile reads x).toList, r.target = .verdict .accept := by
        intro r hr
        obtain hr | hr := List.mem_append.mp hr
        · exact hrules r hr
        · obtain ⟨-, -, -, -, -, rfl⟩ := exists_of_compile (hlong x List.mem_cons_self) (Option.mem_toList.mp hr)
          rfl
      obtain ⟨e, rules', hrun, hrules'⟩ := ih
        (s := Function.update s .iptables (f.put chain (some (rules ++ (compile reads x).toList)))) hrest
        (fun y hy => hlong y (List.mem_cons_of_mem _ hy)) (by rwa [Function.update_of_ne (by simp)])
        (Function.update_self ..) hnew
      refine ⟨e, rules', ?_, hrules'⟩
      rw [Program.run_bind (run_append_one hwords h6 hf), hrun, Function.update_idem]

variable (reads) in
/-- **An application that meets a rule whose words are not strings raises, and leaves the instance open.** -/
theorem left_open (hmac : g.mac ≠ "") (hchain : (s .iptables).chains g.chain = some rules)
    (hjumps : ∀ j ∈ (s .iptables).jumps, j.mac = g.mac → j.chain = g.chain)
    (h6 : (s .ip6tables).chains g.chain = none) (hworded : ∃ rule ∈ egress, ¬Worded pf rule) :
    ∃ x e, Performs (act reads) (Applies reads pf g) (.idle s)
        [.start 0 (applyBridge pf g.domain g.id egress), .finish 0 (.error e)] x ∧
      ∀ otherwise p, p.family = .v4 → p.mac = g.mac → otherwise p = true → x.shared.Passes otherwise p := by
  -- the words of one rule are not all strings
  have hodd : ∃ x ∈ egress.flatMap (iptablesRuleArgs pf · .egress), ∀ words, argv x.2 ≠ .ok words := by
    obtain ⟨rule, hrule, hnot⟩ := hworded
    unfold Worded at hnot
    push Not at hnot
    obtain ⟨x, hx, hno⟩ := hnot
    exact ⟨x, List.mem_flatMap.mpr ⟨rule, hrule, hx⟩, hno⟩
  have hlong : ∀ x ∈ egress.flatMap (iptablesRuleArgs pf · .egress), 2 < x.2.length := by
    intro x hx
    obtain ⟨rule, -, hx⟩ := List.mem_flatMap.mp hx
    exact length_of_mem_iptablesRuleArgs hx
  have hnone : ∀ r ∈ ([] : List (Rule Packet String)), r.target = .verdict .accept :=
    fun r hr => absurd hr List.not_mem_nil
  obtain ⟨e, rules', hrun, hrules'⟩ := run_append_error reads g.mac hodd hlong
    (s := s.holding g.chain []) (f := s .iptables) (by rwa [holding_ip6tables]) (holding_iptables _) hnone
  have hflushed : Applying reads pf g s _ _ := applying_flushed egress 0 .refl hmac hchain rfl
  have hraised := hflushed.finish (h := answer reads g.mac) (fun _ _ _ _ => act_of_answer)
    (fun _ _ => trivial) (Config.set_thread_self ..) (Program.run_bind_error hrun)
  refine ⟨_, e, hraised, fun otherwise p hv4 hpmac hpass => ?_⟩
  exact passes_of_accepts hrules' (Filter.put_self ..) hjumps (Function.update_self ..) hv4 hpmac hpass

/-- A network that is a number, which the check of rules lets through. -/
def oddRule : Json := .obj [("protocol", .str "-1"), ("cidr", .int 5)]

theorem not_worded_oddRule : ¬Worded halves oddRule := by
  intro h
  obtain ⟨words, hwords⟩ := h (.iptables, [.str "-d", .int 5, .str "-j", .str "ACCEPT"]) List.mem_cons_self
  cases hwords

theorem left_open_web : validateRules halves [oddRule] = .ok none ∧
    ∃ x e, Performs (act readWords) (Applies readWords halves web) (.idle barred)
        [.start 0 (applyBridge halves web.domain web.id [oddRule]), .finish 0 (.error e)] x ∧
      ∀ otherwise p, p.family = .v4 → p.mac = web.mac → otherwise p = true → x.shared.Passes otherwise p :=
  ⟨ok_of_toOption (by decide), left_open readWords (by decide) rfl led_barred rfl
    ⟨oddRule, List.mem_singleton_self _, not_worded_oddRule⟩⟩

end

end Egress
end CloudCore
