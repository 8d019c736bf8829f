import CloudCore.LlmChat.TerminalSteps
import Mathlib.Data.List.Nodup

/-!
# Previews

A preview connection is joined to the VM of the browser it comes from.  The load balancer adds
the browser's address to the head, after the lines that the browser sent itself.

## Main definitions

* `Isolated` — a browser is joined to a machine of its own.
* `Placed` — the invariant of the addresses.

## Main results

* `isolated_of_reaches` — **previews are isolated**, where the first line names the browser and
  the VM is not torn down.
* `forged` — a browser that sends a line of its own.
-/

namespace CloudCore
namespace Terminal

open Effect Python

/-! ### The load balancer -/

/-- An address is its own first element. -/
def Plain (address : String) : Prop := address ≠ "" ∧ firstElement address.toList = address

/-- The line that the load balancer adds. -/
def forwardedLine (address : String) : List Char := "X-Forwarded-For: ".toList ++ address.toList

/-- A terminal connection through the load balancer. -/
def Request.Forwarded (req : Request) : Prop :=
  Plain req.address ∧ ∃ own, req.forwarded = own ++ [req.address]

/-- A preview connection through it: what the browser sent, its line, and the end of the head. -/
def Visit.Forwarded (visit : Visit) : Prop :=
  Plain visit.address ∧ ∃ own rest, visit.head = own ++ forwardedLine visit.address :: rest

/-- **The first line names the browser.** -/
def Visit.NamedFirst (visit : Visit) : Prop :=
  (extractXff visit.head).getD visit.peer = visit.address

/-! ### The addresses -/

section Addresses

variable {ι : Type}

/-- A VM that boots is not torn down, nor is one that runs. -/
structure Vm.Sane (v : Vm ι) : Prop where
  booting : v.booting = true → v.owned = true ∧ v.tearing = false ∧ v.down = false
  tearing : v.tearing = true → v.owned = true ∧ v.down = false
  live : v.live = true → v.down = false

/-- An address is that of a VM of this service, which has not given it back. -/
structure State.Holds (s : State ι) (r : ℕ) (a : String) : Prop where
  lt : r < s.nextVm
  owned : (s.vms r).owned = true
  up : (s.vms r).down = false
  ip : (s.vms r).ip = .str a

/-- **The invariant of the addresses**: one that is not given back belongs to one VM. -/
structure Placed (cfg : Settings) (s : State ι) : Prop where
  sane : ∀ r < s.nextVm, (s.vms r).Sane
  taken : ∀ r a, s.Holds r a → a ∈ s.inUse ∧ a ∈ cfg.pool
  alone : ∀ r r' a, s.Holds r a → s.Holds r' a → r = r'
  labs : LabsOk cfg.pool s.labs

variable {cfg : Settings} {calm strict routed : Prop} {i : ι} {s s' : State ι}

/-- What a step of a job makes of a VM. -/
theorem sane_of_tick {pool inUse inUse' : List String} {v v' : Vm ι} (h : VmTick pool v inUse v' inUse')
    (hv : v.Sane) : v'.Sane := by
  cases h with
  | alloc hbooting => exact ⟨hv.booting, hv.tearing, hv.live⟩
  | up hbooting => exact ⟨hv.booting, hv.tearing, fun _ => (hv.booting hbooting).2.2⟩
  | booted hbooting => exact ⟨nofun, hv.tearing, hv.live⟩
  | stop => exact ⟨hv.booting, hv.tearing, nofun⟩
  | toreDown htearing =>
    refine ⟨fun hb => ?_, nofun, nofun⟩
    have ht := (hv.booting hb).2.1
    rw [htearing] at ht
    cases ht
  | failed htearing => exact ⟨fun hb => ⟨(hv.booting hb).1, rfl, (hv.booting hb).2.2⟩, nofun, hv.live⟩

/-- No VM gets an address. -/
theorem Placed.congr (h : Placed cfg s) (hsane : ∀ r < s'.nextVm, (s'.vms r).Sane)
    (hholds : ∀ r a, s'.Holds r a → s.Holds r a ∧ (a ∈ s.inUse → a ∈ s'.inUse))
    (hlabs : LabsOk cfg.pool s'.labs) : Placed cfg s' where
  sane := hsane
  taken r a hr := by
    obtain ⟨hin, hpool⟩ := h.taken r a (hholds r a hr).1
    exact ⟨(hholds r a hr).2 hin, hpool⟩
  alone r r' a hr hr' := h.alone r r' a (hholds r a hr).1 (hholds r' a hr').1
  labs := hlabs

/-- The changed VM, and the others. -/
theorem sane_update {r : ℕ} {w : Vm ι} (h : ∀ k < s.nextVm, (s.vms k).Sane) (hw : w.Sane) :
    ∀ k < s.nextVm, (Function.update s.vms r w k).Sane := by
  intro k hk
  by_cases heq : k = r
  · subst heq
    rw [Function.update_self]
    exact hw
  · rw [Function.update_of_ne heq]
    exact h k hk

/-- A VM that has an address, after one of them has changed. -/
theorem holds_update {r k : ℕ} {w : Vm ι} {inUse : List String} {a : String}
    (h : State.Holds { s with vms := Function.update s.vms r w, inUse := inUse } k a) :
    k = r ∧ w.owned = true ∧ w.down = false ∧ w.ip = .str a ∨ k ≠ r ∧ s.Holds k a := by
  obtain ⟨hlt, howned, hup, hip⟩ := h
  by_cases heq : k = r
  · subst heq
    simp only [Function.update_self] at howned hup hip
    exact .inl ⟨rfl, howned, hup, hip⟩
  · simp only [Function.update_of_ne heq] at howned hup hip
    exact .inr ⟨heq, hlt, howned, hup, hip⟩

/-- One VM has changed, but not its address. -/
theorem Placed.update {r : ℕ} {w : Vm ι} (h : Placed cfg s) (hr : r < s.nextVm) (hw : w.Sane)
    (howned : w.owned = (s.vms r).owned) (hdown : w.down = (s.vms r).down)
    (hip : w.ip = (s.vms r).ip) :
    Placed cfg { s with vms := Function.update s.vms r w, inUse := s.inUse } := by
  refine h.congr (sane_update h.sane hw) (fun k a hk => ⟨?_, id⟩) h.labs
  obtain ⟨rfl, hw', hup, ha⟩ | ⟨-, hk⟩ := holds_update hk
  · exact ⟨hr, howned ▸ hw', hdown ▸ hup, hip ▸ ha⟩
  · exact hk

theorem placed_of_vmTick {r : ℕ} {w : Vm ι} {inUse : List String} (hr : r < s.nextVm)
    (ht : VmTick cfg.pool (s.vms r) s.inUse w inUse) (h : Placed cfg s) :
    Placed cfg { s with vms := Function.update s.vms r w, inUse := inUse } := by
  have hsane := sane_of_tick ht (h.sane r hr)
  cases ht with
  | @alloc a hbooting hnull ha =>
    have hfree := List.find?_some ha
    have hpool := List.mem_of_find?_eq_some ha
    have hnew : ∀ k a', s.Holds k a' → a' ≠ a := by
      rintro k a' hk rfl
      exact absurd (h.taken k a' hk).1 (of_decide_eq_true hfree)
    refine ⟨sane_update h.sane hsane, fun k a' hk => ?_, fun k k' a' hk hk' => ?_, h.labs⟩
    · obtain ⟨-, -, -, ha'⟩ | ⟨-, hk⟩ := holds_update hk
      · cases ha'
        exact ⟨List.mem_cons_self, hpool⟩
      · exact ⟨List.mem_cons_of_mem _ (h.taken k a' hk).1, (h.taken k a' hk).2⟩
    · obtain ⟨rfl, -, -, ha'⟩ | ⟨-, hk⟩ := holds_update hk
      · obtain ⟨rfl, -⟩ | ⟨-, hk'⟩ := holds_update hk'
        · rfl
        · cases ha'
          exact absurd rfl (hnew k' _ hk')
      · obtain ⟨-, -, -, ha'⟩ | ⟨-, hk'⟩ := holds_update hk'
        · cases ha'
          exact absurd rfl (hnew k _ hk)
        · exact h.alone k k' a' hk hk'
  | toreDown htearing =>
    refine h.congr (sane_update h.sane hsane) (fun k a hk => ?_) h.labs
    obtain ⟨-, -, hup, -⟩ | ⟨hne, hk⟩ := holds_update hk
    · cases hup
    · refine ⟨hk, fun hin => List.mem_filter.mpr ⟨hin, ?_⟩⟩
      -- the address that is given back is another one's than `k`'s
      rw [Bool.not_eq_true', Bool.eq_false_iff]
      intro heq
      obtain ⟨howned, hup⟩ := (h.sane r hr).tearing htearing
      exact hne (h.alone k r a hk ⟨hr, howned, hup, Json.eq_str.mp heq⟩)
  | up hbooting => exact h.update hr hsane rfl rfl rfl
  | booted hbooting => exact h.update hr hsane rfl rfl rfl
  | stop => exact h.update hr hsane rfl rfl rfl
  | failed htearing => exact h.update hr hsane rfl rfl rfl

variable [DecidableEq ι]

/-- A new VM has no address of this service's. -/
theorem placed_create {owned : Bool} {client lab : String} {ip : Json} (hip : owned = true → ip = .null)
    (h : Placed cfg s) : Placed cfg (s.create i owned client lab ip) := by
  refine h.congr (fun k hk => ?_) (fun k a hk => ⟨?_, id⟩) h.labs
  · by_cases heq : k = s.nextVm
    · subst heq
      simp only [State.create, Function.update_self]
      exact ⟨(by cases ·), (by cases ·), (by cases ·)⟩
    · simp only [State.create, Function.update_of_ne heq]
      exact h.sane k (Nat.lt_of_le_of_ne (Nat.le_of_lt_succ hk) heq)
  · obtain ⟨hlt, howned, hup, ha⟩ := hk
    by_cases heq : k = s.nextVm
    · subst heq
      simp only [State.create, Function.update_self] at howned ha
      rw [hip howned] at ha
      cases ha
    · simp only [State.create, Function.update_of_ne heq] at howned hup ha
      exact ⟨Nat.lt_of_le_of_ne (Nat.le_of_lt_succ hlt) heq, howned, hup, ha⟩

theorem placed_of_guard {c : Cmd} {a : c.Ans} (hx : exec cfg i s c a s')
    (hg : Guard cfg True strict routed i s c) (h : Placed cfg s) : Placed cfg s' := by
  have hsame : ∀ s' : State ι, s'.vms = s.vms → s'.nextVm = s.nextVm → s'.inUse = s.inUse →
      s'.labs = s.labs → Placed cfg s' := by
    rintro s' hvms hnext hin hlabs
    refine h.congr (fun k hk => ?_) (fun k a hk => ?_) (hlabs ▸ h.labs)
    · rw [hvms]
      exact h.sane k (hnext ▸ hk)
    · exact ⟨⟨hnext ▸ hk.lt, hvms ▸ hk.owned, hvms ▸ hk.up, hvms ▸ hk.ip⟩, fun ha => hin ▸ ha⟩
  cases c with
  | tick =>
    cases hx with
    | vm hr ht => exact placed_of_vmTick hr ht h
    | labs hlabs =>
      exact h.congr h.sane (fun k a hk => ⟨⟨hk.lt, hk.owned, hk.up, hk.ip⟩, id⟩) hlabs
  | make address =>
    obtain ⟨-, rfl⟩ := hx
    exact placed_create (fun _ => rfl) h
  | attach address lab ip =>
    obtain ⟨-, rfl⟩ := hx
    exact placed_create (fun howned => absurd howned Bool.false_ne_true) h
  | startBoot r =>
    obtain rfl := hx
    obtain ⟨hr, -, howned, hfresh⟩ := hg
    exact h.update hr ⟨fun _ => ⟨howned, hfresh.tearing, hfresh.down⟩, (h.sane r hr).tearing,
      (h.sane r hr).live⟩ rfl rfl rfl
  | startTeardown r =>
    obtain rfl := hx
    obtain ⟨hr, -, howned, hbefore⟩ := hg
    refine h.update hr ⟨fun hb => ?_, fun _ => ⟨howned, hbefore.down⟩, (h.sane r hr).live⟩ rfl rfl rfl
    exact absurd (hb.symm.trans (hbefore.booting trivial)) nofun
  | setActive ip n =>
    obtain rfl := hx
    unfold State.setActive
    split <;> exact hsame _ rfl rfl rfl rfl
  | connect address r host port => exact exec_connect hx ▸ h
  | acquire | getActive | getVm | booted | vmIp =>
    obtain ⟨-, rfl⟩ := hx
    exact hsame _ rfl rfl rfl rfl
  | toreDown r =>
    obtain ⟨-, -, rfl⟩ := hx
    exact h
  | _ =>
    obtain rfl := hx
    exact hsame _ rfl rfl rfl rfl

end Addresses

/-! ### The lines of a head -/

theorem isForwarded_line (address : String) : isForwarded (forwardedLine address) = true := by
  unfold isForwarded forwardedLine
  rw [List.map_append, List.isPrefixOf_iff_prefix]
  refine ⟨' ' :: address.toList.map Char.toLower, ?_⟩
  have hname : "X-Forwarded-For: ".toList.map Char.toLower = "x-forwarded-for:".toList ++ [' '] := by
    decide
  rw [hname, List.append_assoc]
  rfl

theorem forwardedValue_line (address : String) :
    forwardedValue (forwardedLine address) = ' ' :: address.toList := by
  have hname : "X-Forwarded-For: ".toList = "X-Forwarded-For".toList ++ [':', ' '] := by
    decide
  have hcolon : ∀ c ∈ "X-Forwarded-For".toList, decide (c ≠ ':') = true := by
    decide
  unfold forwardedValue forwardedLine
  rw [hname, List.append_assoc, List.dropWhile_append_of_pos hcolon]
  rfl

theorem firstElement_value {address : String} (h : Plain address) :
    firstElement (stripBy isSpace (' ' :: address.toList)) = address := by
  have hfirst : stripBy isSpace (address.toList.takeWhile (· ≠ ',')) = address.toList := by
    have htext := congrArg String.toList h.2
    rwa [firstElement, String.toList_ofList] at htext
  have hstrip : stripBy isSpace (' ' :: address.toList) = address.toList := by
    have hblank := stripBy_blank_append (p := isSpace) (a := [' ']) (l := address.toList) (b := [])
      (by decide) nofun
    rw [List.append_nil] at hblank
    rw [← List.singleton_append, hblank, ← hfirst, stripBy_stripBy]
  rw [hstrip]
  exact h.2

/-- **A browser that sends no such line is named by the load balancer's.** -/
theorem namedFirst_of_own {visit : Visit} {own rest : List (List Char)} (h : Plain visit.address)
    (hhead : visit.head = own ++ forwardedLine visit.address :: rest)
    (hown : ∀ line ∈ own, isForwarded line = false) : visit.NamedFirst := by
  have hfind : visit.head.find? isForwarded = some (forwardedLine visit.address) := by
    rw [hhead, List.find?_append,
      List.find?_eq_none.mpr fun line hline => by rw [hown line hline]; exact Bool.false_ne_true,
      Option.none_or, List.find?_cons_of_pos (isForwarded_line visit.address)]
  unfold Visit.NamedFirst extractXff
  simp only [hfind, forwardedValue_line, firstElement_value h, if_neg h.1, Option.getD_some]

section Isolation

variable {ι : Type} [DecidableEq ι]

/-- A machine that a session of a browser was opened on, and that is not torn down. -/
def BelongsTo (s : State ι) (address : String) (m : Machine) : Prop :=
  ∃ r < s.nextVm, (s.vms r).client = address ∧ (s.vms r).down = false ∧
    m = if (s.vms r).owned then .own r else .lab (s.vms r).lab

/-- **A browser is joined to a machine of its own.** -/
def Isolated (x : Config sig Failure Unit ι (State ι)) : Move sig Failure Unit ι → Prop
  | .call _ (.connect address _ _ _) (.ok (some m)) => BelongsTo x.shared address m
  | _ => True

/-- Connections through the load balancer, on one event loop. -/
def Balanced (cfg : Settings) (V : Visit → Prop) (x : Config sig Failure Unit ι (State ι))
    (m : Move sig Failure Unit ι) : Prop :=
  Starts cfg Request.Forwarded (fun visit => visit.Forwarded ∧ V visit) x m ∧ Cooperative x m

/-- A VM that was looked up is still there where it is connected to (the map forgets it only after its
teardown); no boot is cancelled. -/
def StillThere (x : Config sig Failure Unit ι (State ι)) : Move sig Failure Unit ι → Prop
  | .call _ (.connect _ r host _) _ => (x.shared.vms r).down = false ∧
      ((x.shared.vms r).owned = false → ∃ a, host = .str a ∧ ((x.shared.vms r).lab, a) ∈ x.shared.labs)
  | .call _ c a => Calm c a
  | _ => True

variable {cfg : Settings} {x y : Config sig Failure Unit ι (State ι)} {m : Move sig Failure Unit ι}

omit [DecidableEq ι] in
/-- What answers at the address of a VM is this VM. -/
theorem belongs_of_answers {s : State ι} {r : ℕ} {address : String} {m : Machine}
    (h : Placed cfg s) (hr : r < s.nextVm) (hup : (s.vms r).down = false)
    (hip : (s.vms r).ip = .str address)
    (hlab : (s.vms r).owned = false → ((s.vms r).lab, address) ∈ s.labs)
    (hm : s.Answers address m) : m = if (s.vms r).owned then .own r else .lab (s.vms r).lab := by
  obtain ⟨hnodup, hpool⟩ := h.labs
  cases howned : (s.vms r).owned with
  | true =>
    have hholds : s.Holds r address := ⟨hr, howned, hup, hip⟩
    cases m with
    | own r' =>
      obtain ⟨hr', howned', hlive, hip'⟩ := hm
      obtain rfl := h.alone r r' address hholds ⟨hr', howned', (h.sane r' hr').live hlive, hip'⟩
      rfl
    | lab id => exact absurd (h.taken r address hholds).2 (hpool _ hm)
  | false =>
    have hmem := hlab howned
    cases m with
    | own r' =>
      obtain ⟨hr', howned', hlive, hip'⟩ := hm
      have hholds : s.Holds r' address := ⟨hr', howned', (h.sane r' hr').live hlive, hip'⟩
      exact absurd (h.taken r' address hholds).2 (hpool _ hmem)
    | lab id =>
      have heq := List.inj_on_of_nodup_map hnodup hmem hm rfl
      exact congrArg Machine.lab (congrArg Prod.fst heq).symm

/-- **Previews are isolated** in every run in which the first line of every head names its browser,
a VM that is connected to is still there, and no boot is cancelled. -/
theorem isolated_of_reaches {labs : List (String × String)} (hlabs : LabsOk cfg.pool labs)
    (h : Reaches (exec cfg) (fun x m => Balanced cfg Visit.NamedFirst x m ∧ StillThere x m)
      (.idle (.init labs)) x)
    (hm : Balanced cfg Visit.NamedFirst x m ∧ StillThere x m) (hstep : Step (exec cfg) x m y) :
    Isolated x m := by
  have hstarts : ∀ (x : Config sig Failure Unit ι (State ι)) m,
      Balanced cfg Visit.NamedFirst x m ∧ StillThere x m → Starts cfg Request.Forwarded
        (fun visit => visit.Forwarded ∧ visit.NamedFirst) x m := fun _ _ hok => hok.1.1
  have hcalms : ∀ (x : Config sig Failure Unit ι (State ι)) i c a,
      Balanced cfg Visit.NamedFirst x (.call i c a) ∧ StillThere x (.call i c a) →
        (True → Calm c a) ∧ (False → Strict c a) := by
    intro x i c a hok
    refine ⟨fun _ => ?_, False.elim⟩
    cases c with
    | connect address r host port => trivial
    | _ => exact hok.2
  have hR : ∀ req : Request, req.Forwarded → Routed True req := fun req hreq _ => by
    obtain ⟨⟨hne, hfirst⟩, own, hown⟩ := hreq
    exact ⟨own, req.address, hown, hne, hfirst⟩
  have hV : ∀ visit : Visit, visit.Forwarded ∧ visit.NamedFirst → Named True visit :=
    fun visit hvisit _ => hvisit.2
  obtain ⟨hverified, hmapped⟩ := verified_of_reaches True cfg False True False.elim hR hV hstarts
    hcalms h
  have hplaced : Placed cfg x.shared :=
    invariant_of_reaches True cfg False True False.elim hR hV hstarts hcalms h
      (fun i s c a s' hx hg _ => placed_of_guard hx hg)
      ⟨nofun, fun r a hr => absurd hr.lt (Nat.not_lt_zero r),
        fun r _ a hr => absurd hr.lt (Nat.not_lt_zero r), hlabs⟩
  cases hstep with
  | @call i c k a s ht hx =>
    cases c with
    | connect address r host port =>
      cases a with
      | error e => trivial
      | ok reached =>
        cases reached with
        | none => trivial
        | some machine =>
          obtain ⟨⟨-, hg⟩, -⟩ := Outline.guar_of_call _ hverified ht ⟨hm, hmapped⟩ hx
          obtain ⟨-, -, hr, hclient, hip⟩ := hg
          obtain ⟨⟨a, rfl, hanswers⟩, -⟩ := hx
          obtain ⟨hup, hlab⟩ := hm.2
          refine ⟨r, hr, hclient trivial, hup, ?_⟩
          refine belongs_of_answers hplaced hr hup hip (fun howned => ?_) hanswers
          obtain ⟨a', ⟨⟩, hmem⟩ := hlab howned
          exact hmem
    | _ => trivial
  | _ => trivial

end Isolation

/-! ### Two runs -/

/-- A browser opens a lab machine. -/
def owner : Request := ⟨"198.51.100.7", ["198.51.100.7"], "10.0.0.2", "a1b2c3", "secret"⟩

/-- It asks for a preview; another browser asks for one in its name. -/
def honest : Visit :=
  ⟨"198.51.100.7", ["GET / HTTP/1.1".toList, forwardedLine "198.51.100.7", [], []], "10.0.0.2", 8000⟩

def forger : Visit :=
  ⟨"203.0.113.9", ["GET / HTTP/1.1".toList, forwardedLine "198.51.100.7",
    forwardedLine "203.0.113.9", [], []], "10.0.0.2", 8000⟩

/-- The answer of the lab service. -/
def labOne : Json := .obj [("session_id", .str "lab-1"), ("ip", .str "172.30.0.250")]

/-- The session is under way, and the preview is about to be connected. -/
def visiting (visit : Visit) : List (Turn sig Failure Unit Handler) :=
  .start .one (terminalHandler ⟨1, []⟩ owner) :: (List.replicate 13 (.go .one) ++
    .start .two (previewHandler visit) :: List.replicate 5 (.go .two))

/-- Where a connection goes. -/
def target : Option Cmd → Option (String × ℕ × Option String)
  | some (.connect address r (.str host) _) => some (address, r, some host)
  | some (.connect address r _ _) => some (address, r, none)
  | _ => none

theorem plain_addresses : Plain "198.51.100.7" ∧ Plain "203.0.113.9" := by
  unfold Plain
  decide

theorem labsOk_one : LabsOk [] [("lab-1", "172.30.0.250")] :=
  ⟨by decide, fun _ _ => List.not_mem_nil⟩

/-- The schedule is a run through the load balancer. -/
theorem reaches_of_visiting {V : Visit → Prop} {visit : Visit} (hvisit : visit.Forwarded ∧ V visit)
    {x : Config sig Failure Unit Handler (State Handler)}
    (hx : Config.playIf (respond ⟨1, []⟩ (.ok labOne)) inTurn (visiting visit)
      (.idle (.init [("lab-1", "172.30.0.250")])) = some x) :
    Reaches (exec ⟨1, []⟩) (fun x m => Balanced ⟨1, []⟩ V x m ∧ StillThere x m)
      (.idle (.init [("lab-1", "172.30.0.250")])) x := by
  refine reaches_of_turns (fun _ _ h => h) (fun x i c a s _ h => ?_) (fun _ _ _ _ => trivial)
    (fun _ _ _ _ => trivial) (fun i p hp => ?_) hx
  · cases c with
    | connect address r host port => cases h
    | booted r =>
      obtain ⟨-, ⟨⟩⟩ := Option.ite_none_right_eq_some.mp h
      exact nofun
    | _ => trivial
  · rcases List.mem_cons.mp hp with hp | hp
    · cases hp
      exact .inl ⟨owner, ⟨plain_addresses.1, [], rfl⟩, rfl⟩
    rcases List.mem_append.mp hp with hp | hp
    · cases List.eq_of_mem_replicate hp
    rcases List.mem_cons.mp hp with hp | hp
    · cases hp
      exact .inr (.inl ⟨visit, hvisit, rfl⟩)
    · cases List.eq_of_mem_replicate hp

/-- A preview for `address` is about to be connected to the machine of the session. -/
structure Joined (address : String) (x : Config sig Failure Unit Handler (State Handler)) : Prop where
  next : target (x.next .two) = some (address, 0, some "172.30.0.250")
  labs : x.shared.labs = [("lab-1", "172.30.0.250")]
  one : x.shared.nextVm = 1
  client : (x.shared.vms 0).client = "198.51.100.7"
  up : (x.shared.vms 0).down = false
  lab : (x.shared.vms 0).lab = "lab-1"
  waits : ∀ j, j ≠ .two → Waits (x.thread j)

instance (address : String) (x : Config sig Failure Unit Handler (State Handler)) :
    Decidable (Joined address x) :=
  decidable_of_iff (target (x.next .two) = some (address, 0, some "172.30.0.250") ∧
      x.shared.labs = [("lab-1", "172.30.0.250")] ∧ x.shared.nextVm = 1 ∧
      (x.shared.vms 0).client = "198.51.100.7" ∧ (x.shared.vms 0).down = false ∧
      (x.shared.vms 0).lab = "lab-1" ∧ ∀ j, j ≠ .two → Waits (x.thread j))
    ⟨fun ⟨h₁, h₂, h₃, h₄, h₅, h₆, h₇⟩ => ⟨h₁, h₂, h₃, h₄, h₅, h₆, h₇⟩,
      fun ⟨h₁, h₂, h₃, h₄, h₅, h₆, h₇⟩ => ⟨h₁, h₂, h₃, h₄, h₅, h₆, h₇⟩⟩

/-- It is connected. -/
def join (address : String) (port : ℤ) : Move sig Failure Unit Handler :=
  .call .two (.connect address 0 (.str "172.30.0.250") port) (.ok (some (.lab "lab-1")))

theorem Joined.step {address : String} {x : Config sig Failure Unit Handler (State Handler)} {V : Visit → Prop}
    (h : Joined address x) :
    ∃ port y, (Balanced ⟨1, []⟩ V x (join address port) ∧ StillThere x (join address port)) ∧
      Step (exec ⟨1, []⟩) x (join address port) y := by
  have htarget := h.next
  have hmem : ("lab-1", "172.30.0.250") ∈ x.shared.labs := by
    rw [h.labs]
    exact List.mem_singleton_self _
  unfold target at htarget
  split at htarget
  · next address' r' host port hnext =>
    cases htarget
    obtain ⟨k, hk⟩ := Config.thread_of_next hnext
    refine ⟨port, _, ⟨⟨trivial, h.waits⟩, h.up, fun _ => ⟨_, rfl, ?_⟩⟩, .call hk ⟨⟨_, rfl, hmem⟩, rfl⟩⟩
    rw [h.lab]
    exact hmem
  · cases htarget
  · cases htarget

/-- The browser that opened the machine sees its preview. -/
theorem isolated_of_reaches_honest : ∃ x : Config sig Failure Unit Handler (State Handler),
    Joined "198.51.100.7" x ∧ BelongsTo x.shared "198.51.100.7" (.lab "lab-1") := by
  have hrun : (Config.playIf (respond ⟨1, []⟩ (.ok labOne)) inTurn (visiting honest)
      (.idle (.init [("lab-1", "172.30.0.250")]))).any (decide <| Joined "198.51.100.7" ·) = true := by
    decide
  obtain ⟨x, hx, hjoined⟩ := (Option.any_eq_true ..).mp hrun
  have hjoined : Joined "198.51.100.7" x := of_decide_eq_true hjoined
  have hhonest : honest.Forwarded ∧ honest.NamedFirst := by
    refine ⟨⟨plain_addresses.1, ["GET / HTTP/1.1".toList], [[], []], rfl⟩, ?_⟩
    unfold Visit.NamedFirst
    decide
  obtain ⟨port, y, hok, hstep⟩ := hjoined.step
  exact ⟨x, hjoined, isolated_of_reaches labsOk_one (reaches_of_visiting hhonest hx) hok hstep⟩

/-- **A browser that sends the address of another one is joined to the machine of that one.** -/
theorem forged : ¬∀ (cfg : Settings) (labs : List (String × String))
    (x y : Config sig Failure Unit Handler (State Handler)) (m : Move sig Failure Unit Handler),
    LabsOk cfg.pool labs →
    Reaches (exec cfg) (Balanced cfg fun _ => True) (.idle (.init labs)) x →
      Balanced cfg (fun _ => True) x m → Step (exec cfg) x m y → Isolated x m := by
  intro hall
  have hrun : (Config.playIf (respond ⟨1, []⟩ (.ok labOne)) inTurn (visiting forger)
      (.idle (.init [("lab-1", "172.30.0.250")]))).any (decide <| Joined "203.0.113.9" ·) = true := by
    decide
  obtain ⟨x, hx, hjoined⟩ := (Option.any_eq_true ..).mp hrun
  have hjoined : Joined "203.0.113.9" x := of_decide_eq_true hjoined
  have hforger : forger.Forwarded ∧ True :=
    ⟨⟨plain_addresses.2, ["GET / HTTP/1.1".toList, forwardedLine "198.51.100.7"], [[], []], rfl⟩,
      trivial⟩
  obtain ⟨port, y, hok, hstep⟩ := hjoined.step
  have hreach := (reaches_of_visiting (V := fun _ => True) hforger hx).mono fun _ _ h => h.1
  obtain ⟨r, hr, hclient, -⟩ := hall ⟨1, []⟩ _ x y _ labsOk_one hreach hok.1 hstep
  rw [hjoined.one] at hr
  obtain rfl : r = 0 := Nat.lt_one_iff.mp hr
  rw [hjoined.client] at hclient
  exact absurd hclient (by decide)

end Terminal
end CloudCore
