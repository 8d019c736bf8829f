import CloudCore.LlmChat.Terminal

/-!
# What a handler of the terminal service knows

A handler relies on the others, and on the jobs of the executor, to leave alone what is its
own: its session, its VM, and under the lock the two maps.  `calm` says that no boot is
cancelled, `strict` that nothing goes wrong between the admission and the outer `try`, nor in
a teardown; what depends on these is known only then.

## Main definitions

* `Rely` — what a handler assumes.
* `Guard` — what is known where a command is issued.
* `Over` — what is left behind.

## Main results

* `outline` — **every handler keeps to its guards**, and leaves nothing behind if it can.
-/

namespace CloudCore
namespace Terminal

open Effect Python
open Effect.Program (attempt tryFinally)

section Knowledge

variable {ι : Type}

/-- What a VM is after the jobs have gone on. -/
structure Vm.Later (v v' : Vm ι) : Prop where
  owned : v'.owned = v.owned
  client : v'.client = v.client
  owner : v'.owner = v.owner
  lab : v'.lab = v.lab
  address : v.ip ≠ .null → v'.ip = v.ip
  booting : v.booting = false → v'.booting = false ∧ v'.ip = v.ip ∧ (v'.live = true → v.live = true)
  tearing : v.tearing = false → v'.tearing = false ∧ v'.down = v.down
  down : v.booting = false → (v.down = true → v.live = false) → v'.down = true → v'.live = false

theorem Vm.Later.refl (v : Vm ι) : v.Later v :=
  ⟨rfl, rfl, rfl, rfl, fun _ => rfl, fun h => ⟨h, rfl, id⟩, fun h => ⟨h, rfl⟩, fun _ h => h⟩

theorem Vm.Later.trans {v v' v'' : Vm ι} (h : v.Later v') (h' : v'.Later v'') : v.Later v'' where
  owned := h'.owned.trans h.owned
  client := h'.client.trans h.client
  owner := h'.owner.trans h.owner
  lab := h'.lab.trans h.lab
  address hip := by
    have hip' := h.address hip
    exact (h'.address (hip' ▸ hip)).trans hip'
  booting hb := by
    obtain ⟨hb', hip, hlive⟩ := h.booting hb
    obtain ⟨hb'', hip', hlive'⟩ := h'.booting hb'
    exact ⟨hb'', hip'.trans hip, fun hl => hlive (hlive' hl)⟩
  tearing ht := by
    obtain ⟨ht', hdown⟩ := h.tearing ht
    obtain ⟨ht'', hdown'⟩ := h'.tearing ht'
    exact ⟨ht'', hdown'.trans hdown⟩
  down hb hdown := h'.down (h.booting hb).1 (h.down hb hdown)

theorem later_of_tick {pool inUse inUse' : List String} {v v' : Vm ι}
    (h : VmTick pool v inUse v' inUse') : v.Later v' := by
  cases h with
  | alloc hbooting hip =>
    refine ⟨rfl, rfl, rfl, rfl, fun hne => absurd hip hne, fun hb => ?_, fun h => ⟨h, rfl⟩,
      fun _ h => h⟩
    rw [hbooting] at hb
    cases hb
  | up hbooting =>
    refine ⟨rfl, rfl, rfl, rfl, fun _ => rfl, fun hb => ?_, fun h => ⟨h, rfl⟩, fun hb => ?_⟩ <;>
    · rw [hbooting] at hb
      cases hb
  | booted hbooting =>
    exact ⟨rfl, rfl, rfl, rfl, fun _ => rfl, fun _ => ⟨rfl, rfl, id⟩, fun h => ⟨h, rfl⟩, fun _ h => h⟩
  -- a VM that stops keeps its address
  | stop =>
    exact ⟨rfl, rfl, rfl, rfl, fun _ => rfl, fun h => ⟨h, rfl, nofun⟩, fun h => ⟨h, rfl⟩,
      fun _ _ _ => rfl⟩
  | toreDown htearing =>
    refine ⟨rfl, rfl, rfl, rfl, fun _ => rfl, fun h => ⟨h, rfl, nofun⟩, fun ht => ?_, fun _ _ _ => rfl⟩
    rw [htearing] at ht
    cases ht
  | failed htearing =>
    exact ⟨rfl, rfl, rfl, rfl, fun _ => rfl, fun h => ⟨h, rfl, id⟩, fun _ => ⟨rfl, rfl⟩, fun _ h => h⟩

/-- What stays of any VM: where it was booted to, and for whom. -/
structure Vm.Stays (v v' : Vm ι) : Prop where
  owned : v'.owned = v.owned
  client : v'.client = v.client
  owner : v'.owner = v.owner
  lab : v'.lab = v.lab
  address : v.ip ≠ .null → v'.ip = v.ip

theorem Vm.Later.stays {v v' : Vm ι} (h : v.Later v') : v.Stays v' :=
  ⟨h.owned, h.client, h.owner, h.lab, h.address⟩

theorem Vm.Stays.trans {v v' v'' : Vm ι} (h : v.Stays v') (h' : v'.Stays v'') : v.Stays v'' where
  owned := h'.owned.trans h.owned
  client := h'.client.trans h.client
  owner := h'.owner.trans h.owner
  lab := h'.lab.trans h.lab
  address hip := by
    have hip' := h.address hip
    exact (h'.address (hip' ▸ hip)).trans hip'

/-- A VM that nothing was done with. -/
structure Vm.Fresh (v : Vm ι) : Prop where
  booting : v.booting = false
  tearing : v.tearing = false
  down : v.down = false
  live : v.live = false
  ip : v.ip = .null

/-- A VM before its teardown; no boot is under way if none was cancelled. -/
structure Vm.Before (calm : Prop) (v : Vm ι) : Prop where
  tearing : v.tearing = false
  down : v.down = false
  booting : calm → v.booting = false

/-- A VM during its teardown. -/
def Vm.During (calm : Prop) (v : Vm ι) : Prop :=
  calm → v.booting = false ∧ (v.down = true → v.live = false)

/-- A VM that is torn down for good. -/
structure Vm.Gone (v : Vm ι) : Prop where
  booting : v.booting = false
  tearing : v.tearing = false
  down : v.down = true
  live : v.live = false

variable {v v' : Vm ι} {calm : Prop}

theorem Vm.Fresh.later (h : v.Fresh) (hv : v.Later v') : v'.Fresh := by
  obtain ⟨hb, hip, hlive⟩ := hv.booting h.booting
  obtain ⟨ht, hdown⟩ := hv.tearing h.tearing
  refine ⟨hb, ht, hdown.trans h.down, ?_, hip.trans h.ip⟩
  cases hl : v'.live with
  | false => rfl
  | true => exact (hlive hl).symm.trans h.live

theorem Vm.Before.later (h : v.Before calm) (hv : v.Later v') : v'.Before calm := by
  obtain ⟨ht, hdown⟩ := hv.tearing h.tearing
  exact ⟨ht, hdown.trans h.down, fun hcalm => (hv.booting (h.booting hcalm)).1⟩

theorem Vm.During.later (h : v.During calm) (hv : v.Later v') : v'.During calm := by
  intro hcalm
  obtain ⟨hb, hdown⟩ := h hcalm
  exact ⟨(hv.booting hb).1, hv.down hb hdown⟩

theorem Vm.Gone.later (h : v.Gone) (hv : v.Later v') : v'.Gone := by
  obtain ⟨hb, -, hlive⟩ := hv.booting h.booting
  obtain ⟨ht, hdown⟩ := hv.tearing h.tearing
  refine ⟨hb, ht, hdown.trans h.down, ?_⟩
  cases hl : v'.live with
  | false => rfl
  | true => exact (hlive hl).symm.trans h.live

theorem Vm.Fresh.before (h : v.Fresh) (calm : Prop) : v.Before calm :=
  ⟨h.tearing, h.down, fun _ => h.booting⟩

variable {i j : ι} {s s' s'' : State ι}

/-- What a handler assumes of the others. -/
structure Rely (i : ι) (s s' : State ι) : Prop where
  holder : s.holder = some i ↔ s'.holder = some i
  entry : s'.entry i = s.entry i
  admitted : s'.admitted i = s.admitted i
  nextVm : s.nextVm ≤ s'.nextVm
  vms : ∀ r < s.nextVm, (s.vms r).owner = some i → (s.vms r).Later (s'.vms r)
  stays : ∀ r < s.nextVm, (s.vms r).Stays (s'.vms r)
  locked : s.holder = some i → s'.active = s.active ∧ s'.clientVm = s.clientVm

/-- Only the jobs have gone on. -/
theorem Rely.of_later (holder : s.holder = some i ↔ s'.holder = some i)
    (entry : s'.entry i = s.entry i) (admitted : s'.admitted i = s.admitted i)
    (nextVm : s.nextVm ≤ s'.nextVm) (vms : ∀ r < s.nextVm, (s.vms r).Later (s'.vms r))
    (locked : s.holder = some i → s'.active = s.active ∧ s'.clientVm = s.clientVm) : Rely i s s' :=
  ⟨holder, entry, admitted, nextVm, fun r hr _ => vms r hr, fun r hr => (vms r hr).stays, locked⟩

theorem Rely.refl (i : ι) (s : State ι) : Rely i s s :=
  .of_later Iff.rfl rfl rfl (Nat.le_refl _) (fun _ _ => .refl _) fun _ => ⟨rfl, rfl⟩

theorem Rely.trans (h : Rely i s s') (h' : Rely i s' s'') : Rely i s s'' where
  holder := h.holder.trans h'.holder
  entry := h'.entry.trans h.entry
  admitted := h'.admitted.trans h.admitted
  nextVm := Nat.le_trans h.nextVm h'.nextVm
  vms r hr howner := by
    have hv := h.vms r hr howner
    exact hv.trans (h'.vms r (Nat.lt_of_lt_of_le hr h.nextVm) (hv.owner.trans howner))
  stays r hr := (h.stays r hr).trans (h'.stays r (Nat.lt_of_lt_of_le hr h.nextVm))
  locked hlock := by
    obtain ⟨ha, hc⟩ := h.locked hlock
    obtain ⟨ha', hc'⟩ := h'.locked (h.holder.mp hlock)
    exact ⟨ha'.trans ha, hc'.trans hc⟩

theorem vms_of_tick {pool : List String} (h : Tick pool s s') (r : ℕ) :
    (s.vms r).Later (s'.vms r) := by
  cases h with
  | @vm r' v inUse hr hv =>
    by_cases heq : r = r'
    · subst heq
      simp only [Function.update_self]
      exact later_of_tick hv
    · simp only [Function.update_of_ne heq]
      exact .refl _
  | labs h => exact .refl _

theorem rely_of_tick {pool : List String} (h : Tick pool s s') (i : ι) : Rely i s s' := by
  have hvms := fun r (_ : r < s.nextVm) => vms_of_tick h r
  cases h with
  | vm _ _ => exact .of_later Iff.rfl rfl rfl (Nat.le_refl _) hvms fun _ => ⟨rfl, rfl⟩
  | labs _ => exact .of_later Iff.rfl rfl rfl (Nat.le_refl _) hvms fun _ => ⟨rfl, rfl⟩

/-! ### Guards -/

/-- No boot is cancelled. -/
def Calm : (c : Cmd) → c.Ans → Prop
  | .booted _, a => a ≠ .error .cancelled
  | _, _ => True

/-- Nothing goes wrong between the admission and the outer `try`, nor in a teardown. -/
def Strict : (c : Cmd) → c.Ans → Prop
  | .attachInfo .., a => ∃ fields, a = .ok (.obj fields) ∧
      ∀ v, (Json.obj fields).get? "session_id" = some v → ∃ session, v = .str session
  | .float _, a | .toreDown _, a => a = .ok ()
  | .send (.cantOpen _), a => a ≠ .error .cancelled
  | _, _ => True

/-- A session without the lock is counted. -/
structure Steady (i : ι) (s : State ι) : Prop where
  admitted : s.admitted i = (s.entry i).map (·.ip)
  counted : ∀ e, s.entry i = some e → e.counted = true

/-- What is known where a handler issues a command. -/
def Guard (cfg : Settings) (calm strict routed : Prop) (i : ι) (s : State ι) : Cmd → Prop
  | .acquire => s.holder ≠ some i
  | .release => s.holder = some i ∧ ∀ e r, s.entry i = some e → e.counted = false →
      e.vm = some r → s.clientVm e.ip ≠ some r ∧ (strict → (s.vms r).owned = true → (s.vms r).Gone)
  | .getActive _ | .getVm _ | .delVm _ => s.holder = some i
  | .setActive ip n => s.holder = some i ∧
      match s.entry i with
      | none => s.admitted i = none ∧ (s.active ip).getD 0 < cfg.maxConcurrent ∧
          n = (s.active ip).getD 0 + 1
      | some e => e.ip = ip ∧ e.counted = true ∧ n = max 0 ((s.active ip).getD 1 - 1)
  | .setVm ip r => s.holder = some i ∧ (∃ e, s.entry i = some e ∧ e.ip = ip ∧ e.vm = some r) ∧
      r < s.nextVm ∧ (routed → (s.vms r).client = ip)
  | .make _ | .attach .. => s.holder ≠ some i ∧
      ∃ e, s.entry i = some e ∧ e.counted = true ∧ e.vm = none
  | .startBoot r => r < s.nextVm ∧ (s.vms r).owner = some i ∧ (s.vms r).owned = true ∧
      (s.vms r).Fresh
  | .startTeardown r => r < s.nextVm ∧ (s.vms r).owner = some i ∧ (s.vms r).owned = true ∧
      (s.vms r).Before calm
  | .connect address r host _ => s.holder ≠ some i ∧ Steady i s ∧ r < s.nextVm ∧
      (routed → (s.vms r).client = address) ∧ (s.vms r).ip = host
  | .send .full => Steady i s
  | .vmIp _ | .float _ => True
  | _ => s.holder ≠ some i ∧ Steady i s

/-- What `_client_vm` tells. -/
def Mapped (routed : Prop) (s : State ι) : Prop :=
  ∀ ip r, s.clientVm ip = some r → r < s.nextVm ∧ (routed → (s.vms r).client = ip)

variable {cfg : Settings} {strict routed : Prop}

/-- The handler's own VM is another one's than the others'. -/
theorem rely_setVm {r : ℕ} {w : Vm ι} (howner : (s.vms r).owner = some i)
    (hw : (s.vms r).Stays w) (hj : j ≠ i) : Rely j s (s.setVm r w) := by
  refine ⟨Iff.rfl, rfl, rfl, Nat.le_refl _, fun r' _ howner' => ?_, fun r' _ => ?_,
    fun _ => ⟨rfl, rfl⟩⟩
  · have hne : r' ≠ r := by
      rintro rfl
      exact hj (Option.some.inj (howner'.symm.trans howner))
    simp only [State.setVm, Function.update_of_ne hne]
    exact .refl _
  · by_cases heq : r' = r
    · subst heq
      simp only [State.setVm, Function.update_self]
      exact hw
    · simp only [State.setVm, Function.update_of_ne heq]
      exact (Vm.Later.refl _).stays

/-- Who does not hold the lock cannot rely on the maps. -/
theorem rely_locked (hlock : s.holder = some i) (hj : j ≠ i) {s' : State ι}
    (hholder : s'.holder = s.holder ∨ s'.holder = none) (hentry : s'.entry j = s.entry j)
    (hadmitted : s'.admitted j = s.admitted j) (hnext : s'.nextVm = s.nextVm) (hvms : s'.vms = s.vms) :
    Rely j s s' := by
  have hne : s.holder ≠ some j := fun h => hj (Option.some.inj (h.symm.trans hlock))
  refine .of_later ⟨fun h => absurd h hne, fun h => ?_⟩ hentry hadmitted (Nat.le_of_eq hnext.symm)
    (fun r _ => ?_) fun h => absurd h hne
  · rcases hholder with heq | heq <;> rw [heq] at h
    · exact h
    · cases h
  · rw [hvms]
    exact .refl _

variable [DecidableEq ι]

theorem rely_create {owned : Bool} {client lab : String} {ip : Json} (hj : j ≠ i) :
    Rely j s (s.create i owned client lab ip) := by
  refine .of_later Iff.rfl (Function.update_of_ne hj ..) rfl (Nat.le_succ _) (fun r hr => ?_)
    fun _ => ⟨rfl, rfl⟩
  simp only [State.create, Function.update_of_ne (Nat.ne_of_lt hr)]
  exact .refl _

theorem exec_connect {address : String} {r : ℕ} {host : Json} {port : ℤ}
    {a : Except Failure (Option Machine)} (hx : exec cfg i s (.connect address r host port) a s') :
    s' = s := by
  cases a with
  | error e => exact hx
  | ok m =>
    cases m with
    | none => exact hx
    | some m => exact hx.2

/-- **What a handler does, the others may rely on.** -/
theorem rely_of_guard {c : Cmd} {a : c.Ans} (hx : exec cfg i s c a s')
    (hg : Guard cfg calm strict routed i s c) (hj : j ≠ i) : Rely j s s' := by
  cases c with
  -- the lock was free, so nobody else relied on it
  | acquire =>
    obtain ⟨hnone, rfl⟩ := hx
    refine .of_later ⟨fun h => ?_, fun h => ?_⟩ rfl rfl (Nat.le_refl _) (fun r _ => .refl _)
      fun h => ?_
    · rw [hnone] at h
      cases h
    · exact absurd (Option.some.inj h).symm hj
    · rw [hnone] at h
      cases h
  | release =>
    obtain rfl := hx
    exact rely_locked hg.1 hj (.inr rfl) (Function.update_of_ne hj ..) rfl rfl rfl
  | setActive ip n =>
    obtain rfl := hx
    unfold State.setActive
    split
    · exact rely_locked hg.1 hj (.inl rfl) (Function.update_of_ne hj ..) (Function.update_of_ne hj ..)
        rfl rfl
    · exact rely_locked hg.1 hj (.inl rfl) (Function.update_of_ne hj ..) rfl rfl rfl
  | setVm ip r =>
    obtain rfl := hx
    exact rely_locked hg.1 hj (.inl rfl) rfl rfl rfl rfl
  | delVm ip =>
    obtain rfl := hx
    exact rely_locked hg hj (.inl rfl) rfl rfl rfl rfl
  -- a VM that is made is new to everybody else
  | make address =>
    obtain ⟨-, rfl⟩ := hx
    exact rely_create hj
  | attach address lab ip =>
    obtain ⟨-, rfl⟩ := hx
    exact rely_create hj
  | startBoot r =>
    obtain rfl := hx
    exact rely_setVm hg.2.1 ⟨rfl, rfl, rfl, rfl, fun _ => rfl⟩ hj
  | startTeardown r =>
    obtain rfl := hx
    exact rely_setVm hg.2.1 ⟨rfl, rfl, rfl, rfl, fun _ => rfl⟩ hj
  | tick => exact rely_of_tick hx j
  | getActive ip => exact hx.2 ▸ .refl j s
  | getVm ip => exact hx.2 ▸ .refl j s
  | booted r => exact hx.2 ▸ .refl j s
  | toreDown r => exact hx.2.2 ▸ .refl j s
  | vmIp r => exact hx.2 ▸ .refl j s
  | connect address vm host port => exact exec_connect hx ▸ .refl j s
  | _ => exact hx ▸ .refl j s

/-! ### What a handler knows of itself -/

/-- The handler's lock and session. -/
structure At (i : ι) (hold : Bool) (e : Option Entry) (s : State ι) : Prop where
  holder : s.holder = some i ↔ hold = true
  entry : s.entry i = e
  admitted : s.admitted i = e.map (·.ip)

/-- Its VM. -/
structure Own (i : ι) (r : ℕ) (owned : Bool) (client : String) (K : Vm ι → Prop) (s : State ι) :
    Prop where
  lt : r < s.nextVm
  owner : (s.vms r).owner = some i
  owned : (s.vms r).owned = owned
  client : (s.vms r).client = client
  known : K (s.vms r)

/-- What is left when it has ended. -/
structure Over (strict : Prop) (i : ι) (s : State ι) : Prop where
  holder : s.holder ≠ some i
  entry : s.admitted i = none → s.entry i = none
  strict : strict → s.entry i = none

/-- Others do not change it. -/
def Stable (i : ι) (P : State ι → Prop) : Prop := ∀ ⦃s s'⦄, P s → Rely i s s' → P s'

/-- The jobs do not change it. -/
def Lasting (K : Vm ι → Prop) : Prop := ∀ ⦃v v'⦄, K v → v.Later v' → K v'

variable {hold owned : Bool} {e : Option Entry} {r : ℕ} {client : String} {K : Vm ι → Prop}

omit [DecidableEq ι] in
theorem At.stable : Stable i (At i hold e) := fun _ _ h hR =>
  ⟨hR.holder.symm.trans h.holder, hR.entry.trans h.entry, hR.admitted.trans h.admitted⟩

omit [DecidableEq ι] in
theorem Own.stable (hK : Lasting K) : Stable i (Own i r owned client K) := fun _ _ h hR => by
  have hv := hR.vms r h.lt h.owner
  exact ⟨Nat.lt_of_lt_of_le h.lt hR.nextVm, hv.owner.trans h.owner, hv.owned.trans h.owned,
    hv.client.trans h.client, hK h.known hv⟩

omit [DecidableEq ι] in
theorem Over.stable : Stable i (Over strict i) := fun _ _ h hR =>
  ⟨fun hl => h.holder (hR.holder.mpr hl), fun hnone => hR.entry.trans (h.entry (hR.admitted ▸ hnone)),
    fun hstrict => hR.entry.trans (h.strict hstrict)⟩

omit [DecidableEq ι] in
theorem Stable.and {P Q : State ι → Prop} (hP : Stable i P) (hQ : Stable i Q) :
    Stable i fun s => P s ∧ Q s := fun _ _ h hR => ⟨hP h.1 hR, hQ h.2 hR⟩

omit [DecidableEq ι] in
theorem At.not_holder (h : At i false e s) : s.holder ≠ some i := fun hl =>
  Bool.noConfusion (h.holder.mp hl)

omit [DecidableEq ι] in
theorem At.steady (h : At i hold e s) (hcounted : ∀ e', e = some e' → e'.counted = true) :
    Steady i s :=
  ⟨by rw [h.admitted, h.entry], fun e' he' => hcounted e' (h.entry.symm.trans he')⟩

omit [DecidableEq ι] in
theorem At.steady_none (h : At i hold none s) : Steady i s := h.steady nofun

omit [DecidableEq ι] in
/-- Without the lock, and without a session that something is due for. -/
theorem At.over (h : At i false e s) (hstrict : strict → e = none) : Over strict i s := by
  refine ⟨h.not_holder, fun hnone => ?_, fun hs => h.entry.trans (hstrict hs)⟩
  rw [h.admitted] at hnone
  exact h.entry.trans (Option.map_eq_none_iff.mp hnone)

omit [DecidableEq ι] in
theorem At.acquire (h : At i false e s) : At i true e { s with holder := some i } :=
  ⟨⟨fun _ => rfl, fun _ => rfl⟩, h.entry, h.admitted⟩

theorem At.release (h : At i true e s) (hcounted : ∀ e', e = some e' → e'.counted = true) :
    At i false e (s.release i) := by
  refine ⟨⟨nofun, nofun⟩, ?_, h.admitted⟩
  simp only [State.release, Function.update_self, h.entry]
  cases e with
  | none => rfl
  | some e => exact Option.filter_some_pos (hcounted e rfl)

omit [DecidableEq ι] in
theorem Own.congr (h : Own i r owned client K s) (hvms : s'.vms = s.vms)
    (hnext : s'.nextVm = s.nextVm) : Own i r owned client K s' := by
  refine ⟨hnext ▸ h.lt, ?_, ?_, ?_, ?_⟩ <;> rw [hvms]
  exacts [h.owner, h.owned, h.client, h.known]

/-! ### The rules -/

/-- What the commands do; a handler that waits for itself would not be noticed otherwise. -/
def Does (cfg : Settings) (i : ι) (s : State ι) : (c : Cmd) → c.Ans → State ι → Prop
  | .acquire, (), s' => (s.holder = none ∨ s.holder = some i) ∧ s' = { s with holder := some i }
  | c, a, s' => exec cfg i s c a s'

theorem does_of_exec {c : Cmd} {a : c.Ans} (hx : exec cfg i s c a s') : Does cfg i s c a s' := by
  cases c with
  | acquire => exact ⟨.inl hx.1, hx.2⟩
  | _ => exact hx

theorem exec_of_does {c : Cmd} {a : c.Ans} (hx : Does cfg i s c a s')
    (hg : Guard cfg calm strict routed i s c) : exec cfg i s c a s' := by
  cases c with
  | acquire => exact ⟨hx.1.resolve_right hg, hx.2⟩
  | _ => exact hx

/-- What they do as far as a run admits it. -/
abbrev Sem (cfg : Settings) (calm strict routed : Prop) (i : ι) (s : State ι) (c : Cmd) (a : c.Ans)
    (s' : State ι) : Prop :=
  Does cfg i s c a s' ∧ (calm → Calm c a) ∧ (strict → Strict c a) ∧ Mapped routed s

/-- The weakest precondition of a handler. -/
abbrev lwp {α : Type} (cfg : Settings) (calm strict routed : Prop) (i : ι) (p : Code α)
    (Q : α → State ι → Prop) (E : Failure → State ι → Prop) (s : State ι) : Prop :=
  Program.wp (F := sig) (Sem cfg calm strict routed i) (Rely i)
    (fun s c _ _ => Guard cfg calm strict routed i s c) p Q E s

variable {α β : Type} {P : State ι → Prop} {Q : α → State ι → Prop} {E : Failure → State ι → Prop}

theorem lwp_bind {p : Code β} {f : β → Code α} {B : β → State ι → Prop}
    (h : lwp cfg calm strict routed i p B E s)
    (hf : ∀ b s, B b s → lwp cfg calm strict routed i (f b) Q E s) :
    lwp cfg calm strict routed i (p >>= f) Q E s :=
  (Program.wp_bind p f).mpr (Program.wp_mono hf (fun _ _ h => h) h)

/-- A handler waits for something that changes nothing. -/
theorem lwp_await {c : Cmd} (hans : c.Ans = Except Failure β)
    (hP : Stable i P) (hexec : ∀ s a s', Does cfg i s c a s' → s' = s)
    (hg : ∀ s, P s → Guard cfg calm strict routed i s c) (h : P s) :
    lwp cfg calm strict routed i (tryStep c hans) (fun _ => P) (fun _ => P) s := by
  intro s₁ hR a s₂ hx
  have h₁ := hP h hR
  obtain rfl := hexec s₁ a s₂ hx.1
  exact ⟨hg s₂ h₁, Program.wp_lift.mpr ⟨fun _ _ => h₁, fun _ _ => h₁⟩⟩

theorem lwp_send {note : Note} (hP : Stable i P)
    (hg : ∀ s, P s → Guard cfg calm strict routed i s (.send note)) (h : P s) :
    lwp cfg calm strict routed i (send note) (fun _ => P) (fun _ => P) s := by
  refine (Program.wp_tryCatch _ _).mpr (Program.wp_mono (fun _ _ h => h) (fun e s' h' => ?_)
    (lwp_await rfl hP (fun _ _ _ hx => hx) hg h))
  change Program.wp _ _ _ (if e = .cancelled then _ else _) _ _ _
  split
  · exact h'
  · exact h'

theorem lwp_release {P' : State ι → Prop} (hP : Stable i P)
    (hg : ∀ s, P s → Guard cfg calm strict routed i s .release)
    (hP' : ∀ s, P s → P' (s.release i)) (h : P s) :
    lwp cfg calm strict routed i (step .release rfl) (fun _ => P') E s := by
  intro s₁ hR a s₂ hx
  have h₁ := hP h hR
  obtain rfl : s₂ = s₁.release i := hx.1
  exact ⟨hg s₁ h₁, hP' s₁ h₁⟩

/-- A region under the lock. -/
theorem lwp_withLock {body : Code α} {B : α → State ι → Prop} {D : Failure → State ι → Prop}
    (hP : Stable i P) (hnot : ∀ s, P s → s.holder ≠ some i)
    (hbody : ∀ s, P s → lwp cfg calm strict routed i body B D { s with holder := some i })
    (hB : ∀ a, Stable i (B a)) (hD : ∀ e, Stable i (D e))
    (hgB : ∀ a s, B a s → Guard cfg calm strict routed i s .release)
    (hgD : ∀ e s, D e s → Guard cfg calm strict routed i s .release)
    (hQ : ∀ a s, B a s → Q a (s.release i)) (hE : ∀ e s, D e s → E e (s.release i)) (h : P s) :
    lwp cfg calm strict routed i (withLock body) Q E s := by
  intro s₁ hR a s₂ hx
  have h₁ := hP h hR
  obtain ⟨⟨-, rfl⟩, -⟩ := hx
  refine ⟨hnot s₁ h₁, (Program.wp_tryFinally _ _).mpr ?_⟩
  refine Program.wp_mono (fun b s₂ hb => ?_) (fun e s₂ he => ?_) (hbody s₁ h₁)
  · exact lwp_release (hB b) (hgB b) (hQ b) hb
  · exact lwp_release (hD e) (hgD e) (hE e) he

/-! ### The handlers -/

omit [DecidableEq ι] in
/-- A session that is counted may release the lock. -/
theorem guard_release (h : At i true e s) (hcounted : ∀ e', e = some e' → e'.counted = true) :
    Guard cfg calm strict routed i s .release := by
  refine ⟨h.holder.mpr rfl, fun e' r he' hnot => ?_⟩
  rw [hcounted e' (h.entry.symm.trans he')] at hnot
  cases hnot

omit [DecidableEq ι] in
theorem Stable.false : Stable i fun _ => False := fun _ _ h _ => h

omit [DecidableEq ι] in
theorem Stable.true : Stable i fun _ => True := fun _ _ _ _ => trivial

/-- The count, read under the lock. -/
theorem lwp_getActive {F : State ι → Prop} (hF : Stable i F) {ip : String} {f : Option ℤ → Code α}
    (hf : ∀ s, At i true e s → F s → lwp cfg calm strict routed i (f (s.active ip)) Q E s)
    (h : At i true e s) (hs : F s) :
    lwp cfg calm strict routed i (step (.getActive ip) rfl >>= f) Q E s := by
  intro s₁ hR n s₂ hx
  have h₁ := At.stable h hR
  obtain ⟨⟨rfl, rfl⟩, -⟩ := hx
  exact ⟨h₁.holder.mpr rfl, hf s₂ h₁ (hF hs hR)⟩

/-- **A handler that is admitted has a session.** -/
theorem lwp_enter {ip : String} (h : At i false none s) :
    lwp cfg calm strict routed i (enter cfg ip)
      (fun b => if b then At i false (some ⟨ip, none, true⟩) else At i false none)
      (fun _ => At i false none) s := by
  have hnone : ∀ e' : Entry, none = some e' → e'.counted = true := nofun
  have hsome : ∀ e', some (⟨ip, none, true⟩ : Entry) = some e' → e'.counted = true := by
    rintro e' ⟨⟩
    rfl
  refine lwp_withLock (B := fun b => if b then At i true (some ⟨ip, none, true⟩) else At i true none)
    (D := fun _ => At i true none) At.stable (fun _ h => h.not_holder) (fun s₁ h₁ => ?_)
    (fun b => ?_) (fun _ => At.stable) (fun b s₁ h₁ => ?_) (fun _ _ h₁ => guard_release h₁ hnone)
    (fun b s₁ h₁ => ?_) (fun _ _ h₁ => h₁.release hnone) h
  · refine lwp_getActive .true (fun s₂ h₂ _ => ?_) h₁.acquire trivial
    change Program.wp _ _ _ (if (s₂.active ip).getD 0 ≥ cfg.maxConcurrent then _ else _) _ _ _
    -- too many sessions: the browser is told, still under the lock
    split
    · exact lwp_bind (lwp_send At.stable (fun s h => h.steady hnone) h₂) fun _ _ h₃ => h₃
    · next hroom =>
      intro s₃ hR a s₄ hx
      have h₃ := At.stable h₂ hR
      -- under the lock the count is the one that was read
      have hactive := (hR.locked (h₂.holder.mpr rfl)).1
      obtain rfl : s₄ = s₃.setActive i ip ((s₂.active ip).getD 0 + 1) := hx.1
      refine ⟨⟨h₃.holder.mpr rfl, ?_⟩, ?_⟩
      · rw [h₃.entry, hactive]
        exact ⟨h₃.admitted, Int.not_le.mp hroom, rfl⟩
      · change At i true (some ⟨ip, none, true⟩) _
        unfold State.setActive
        rw [h₃.entry]
        exact ⟨h₃.holder, Function.update_self .., Function.update_self ..⟩
  · cases b <;> exact At.stable
  · cases b
    · exact guard_release h₁ hnone
    · exact guard_release h₁ hsome
  · cases b
    · exact h₁.release hnone
    · exact h₁.release hsome

/-- **A session is not counted any more**; what does not depend on the count stays. -/
theorem lwp_lower {F : State ι → Prop} (hF : Stable i F)
    (hset : ∀ s ip n, F s → F (s.setActive i ip n)) {ip : String} {vm : Option ℕ}
    (h : At i true (some ⟨ip, vm, true⟩) s ∧ F s) :
    lwp cfg calm strict routed i (lower ip) (fun _ s => At i true (some ⟨ip, vm, false⟩) s ∧ F s)
      (fun _ _ => False) s := by
  refine lwp_getActive hF (fun s₂ h₂ hF₂ => ?_) h.1 h.2
  intro s₃ hR a s₄ hx
  have h₃ := At.stable h₂ hR
  have hactive := (hR.locked (h₂.holder.mpr rfl)).1
  obtain rfl : s₄ = s₃.setActive i ip (max 0 ((s₂.active ip).getD 1 - 1)) := hx.1
  refine ⟨⟨h₃.holder.mpr rfl, ?_⟩, ?_, hset s₃ ip _ (hF hF₂ hR)⟩
  · rw [h₃.entry, hactive]
    exact ⟨rfl, rfl, rfl⟩
  · unfold State.setActive
    rw [h₃.entry]
    exact ⟨h₃.holder, Function.update_self .., h₃.admitted⟩

/-- The release after which a session is over. -/
theorem over_release {ip : String} {vm : Option ℕ} (h : At i true (some ⟨ip, vm, false⟩) s) :
    Over strict i (s.release i) := by
  have hnone : (s.release i).entry i = none := by
    simp only [State.release, Function.update_self, h.entry]
    rfl
  exact ⟨nofun, fun _ => hnone, fun _ => hnone⟩

omit [DecidableEq ι] in
theorem guard_over {ip : String} (h : At i true (some ⟨ip, none, false⟩) s) :
    Guard cfg calm strict routed i s .release := by
  refine ⟨h.holder.mpr rfl, fun e r he _ hr => ?_⟩
  obtain rfl := Option.some.inj (h.entry.symm.trans he)
  cases hr

omit [DecidableEq ι] in
theorem counted_some {ip : String} {vm : Option ℕ} :
    ∀ e', some (⟨ip, vm, true⟩ : Entry) = some e' → e'.counted = true := by
  rintro e' ⟨⟩
  rfl

/-- A session with a VM of its own. -/
def Holding (calm : Prop) (i : ι) (owned : Bool) (client : String) (ip : String) (r : ℕ)
    (s : State ι) : Prop :=
  At i false (some ⟨ip, some r, true⟩) s ∧ Own i r owned client (Vm.Before calm) s

omit [DecidableEq ι] in
theorem Holding.stable {ip : String} : Stable i (Holding calm i owned client ip r) :=
  At.stable.and (Own.stable fun _ _ h hv => h.later hv)

omit [DecidableEq ι] in
theorem Holding.steady {ip : String} (h : Holding calm i owned client ip r s) :
    s.holder ≠ some i ∧ Steady i s :=
  ⟨h.1.not_holder, h.1.steady counted_some⟩

/-- A `MicroVM` is made. -/
theorem own_create {ip lab : String} {address : Json} (h : At i false (some ⟨ip, none, true⟩) s)
    (howner : K ⟨owned, client, some i, lab, address, false, false, false, false⟩) :
    At i false (some ⟨ip, some s.nextVm, true⟩) (s.create i owned client lab address) ∧
      Own i s.nextVm owned client K (s.create i owned client lab address) := by
  refine ⟨⟨h.holder, ?_, h.admitted⟩, Nat.lt_succ_self _, ?_, ?_, ?_, ?_⟩
  · simp only [State.create, Function.update_self, h.entry]
    rfl
  all_goals simp only [State.create, Function.update_self]
  exact howner

/-- The message that the lab machine cannot be opened. -/
theorem lwp_cantOpen {ip : String} {error : Json} (h : At i false (some ⟨ip, none, true⟩) s) :
    lwp cfg calm strict routed i (send (.cantOpen error))
      (fun _ => At i false (some ⟨ip, none, true⟩)) (fun _ => Over strict i) s := by
  intro s₁ hR a s₂ hx
  have h₁ := At.stable h hR
  obtain ⟨rfl, -, hstrict, -⟩ := hx
  refine ⟨⟨h₁.not_holder, h₁.steady counted_some⟩, ?_⟩
  cases a with
  | ok _ => exact h₁
  | error e =>
    change Program.wp _ _ _ (if e = .cancelled then _ else _) _ _ _
    split
    · next heq => exact h₁.over fun hs => absurd (congrArg Except.error heq) (hstrict hs)
    · exact h₁

/-- **Opening a lab machine ends with a session on it, or with nothing.** -/
theorem lwp_openAttached {req : Request} {ip : String} {info : Json}
    (hstr : strict → ∀ v, info.get? "session_id" = some v → ∃ session, v = .str session)
    (h : At i false (some ⟨ip, none, true⟩) s) :
    lwp cfg calm strict routed i (openAttached req ip info)
      (fun vm => match vm with
        | some r => Holding calm i false req.address ip r
        | none => Over strict i)
      (fun _ => Over strict i) s := by
  unfold openAttached
  split
  · refine lwp_bind (lwp_cantOpen h) fun _ s₁ h₁ => ?_
    exact lwp_bind (lwp_withLock At.stable (fun _ h => h.not_holder)
      (fun s h => lwp_lower .true (fun _ _ _ h => h) ⟨h.acquire, trivial⟩)
      (fun _ => At.stable.and .true) (fun _ => .false) (fun _ _ h => guard_over h.1)
      (fun _ _ => False.elim) (fun _ _ h => over_release h.1)
      (fun _ _ => False.elim) h₁) fun _ _ h₂ => h₂
  · next session hsession =>
    -- the handler made the VM, so it is its own
    refine lwp_bind (B := Holding calm i false req.address ip) (fun s₁ hR r s₂ hx => ?_)
      fun r s₂ h₂ => ?_
    · have h₁ := At.stable h hR
      obtain ⟨⟨rfl, rfl⟩, -⟩ := hx
      exact ⟨⟨h₁.not_holder, _, h₁.entry, rfl, rfl⟩, own_create h₁ ⟨rfl, rfl, fun _ => rfl⟩⟩
    · intro s₃ hR a s₄ hx
      have h₃ := Holding.stable h₂ hR
      obtain ⟨rfl, -, hstrict, -⟩ := hx
      refine ⟨trivial, ?_⟩
      cases a with
      | ok _ => exact h₃
      | error e => exact h₃.1.over fun hs => nomatch hstrict hs
  · next v hnot hv =>
    refine h.over fun hs => ?_
    obtain ⟨session, rfl⟩ := hstr hs v hv
    exact absurd rfl (hnot session)

theorem lwp_openLab {req : Request} {ip lab : String} (h : At i false (some ⟨ip, none, true⟩) s) :
    lwp cfg calm strict routed i (openLab req ip lab)
      (fun vm => match vm with
        | some r => Holding calm i false req.address ip r
        | none => Over strict i)
      (fun _ => Over strict i) s := by
  intro s₁ hR a s₂ hx
  have h₁ := At.stable h hR
  obtain ⟨rfl, -, hstrict, -⟩ := hx
  refine ⟨⟨h₁.not_holder, h₁.steady counted_some⟩, ?_⟩
  have hover (hnot : ∀ fields, a ≠ .ok (.obj fields)) : Over strict i s₂ := by
    refine h₁.over fun hs => ?_
    obtain ⟨fields, hfields, -⟩ := hstrict hs
    exact absurd hfields (hnot fields)
  cases a with
  | error e => exact hover nofun
  | ok info =>
    cases info with
    | obj fields =>
      refine lwp_openAttached (fun hs => ?_) h₁
      obtain ⟨_, ⟨⟩, hsession⟩ := hstrict hs
      exact hsession
    | _ => exact hover nofun

omit [DecidableEq ι] in
/-- The state of the VM changes; the handler's session does not. -/
theorem Own.setVm {K' : Vm ι → Prop} {w : Vm ι} (h : Own i r owned client K s)
    (howner : w.owner = (s.vms r).owner) (howned : w.owned = (s.vms r).owned)
    (hclient : w.client = (s.vms r).client) (hK : K' w) :
    Own i r owned client K' (s.setVm r w) := by
  refine ⟨h.lt, ?_, ?_, ?_, ?_⟩ <;> simp only [State.setVm, Function.update_self]
  exacts [howner.trans h.owner, howned.trans h.owned, hclient.trans h.client, hK]

omit [DecidableEq ι] in
theorem guard_send {note : Note} (hnote : note ≠ .full) (h : s.holder ≠ some i ∧ Steady i s) :
    Guard cfg calm strict routed i s (.send note) := by
  cases note with
  | full => exact absurd rfl hnote
  | _ => exact h

/-- A session goes on with its VM after a message. -/
theorem lwp_note (note : Note) {ip : String} (hnote : note ≠ .full) {b : Bool}
    (h : Holding calm i owned client ip r s) :
    lwp cfg calm strict routed i (do let () ← send note; pure b)
      (fun _ => Holding calm i owned client ip r) (fun _ => Holding calm i owned client ip r) s :=
  lwp_bind (lwp_send Holding.stable (fun _ h => guard_send hnote h.steady) h) fun _ _ h => h

/-- **The boot**: however it ends, the VM is not torn down, and nobody tears it down. -/
theorem lwp_bootVm {ip : String}
    (h : At i false (some ⟨ip, some r, true⟩) s ∧ Own i r true client Vm.Fresh s) :
    lwp cfg calm strict routed i (bootVm r) (fun _ => Holding calm i true client ip r)
      (fun _ => Holding calm i true client ip r) s := by
  have hfresh : Stable i fun s => At i false (some ⟨ip, some r, true⟩) s ∧ Own i r true client Vm.Fresh s :=
    At.stable.and (Own.stable fun _ _ h hv => h.later hv)
  refine lwp_bind (Program.wp_mono (fun _ _ h => h)
    (fun _ _ h => ⟨h.1, h.2.lt, h.2.owner, h.2.owned, h.2.client, h.2.known.before calm⟩)
    (lwp_send hfresh (fun s h => ⟨h.1.not_holder, h.1.steady counted_some⟩) h)) fun _ s₁ h₁ => ?_
  intro s₂ hR a s₃ hx
  obtain ⟨hat, hown⟩ := hfresh h₁ hR
  obtain rfl : s₃ = s₂.setVm r { s₂.vms r with booting := true } := hx.1
  refine ⟨⟨hown.lt, hown.owner, hown.owned, hown.known⟩, ?_⟩
  -- from here on the VM is booting
  have hstarted : Holding False i true client ip r (s₂.setVm r { s₂.vms r with booting := true }) :=
    ⟨⟨hat.holder, hat.entry, hat.admitted⟩,
      hown.setVm rfl rfl rfl ⟨hown.known.tearing, hown.known.down, False.elim⟩⟩
  refine (Program.wp_tryCatch _ _).mpr ?_
  intro s₄ hR a s₅ hx
  have h₄ := Holding.stable hstarted hR
  obtain ⟨⟨hended, rfl⟩, hcalm, -⟩ := hx
  refine ⟨h₄.steady, ?_⟩
  have h₅ : Holding calm i true client ip r s₅ :=
    ⟨h₄.1, h₄.2.lt, h₄.2.owner, h₄.2.owned, h₄.2.client, h₄.2.known.tearing, h₄.2.known.down,
      fun hc => hended.resolve_left (hcalm hc)⟩
  cases a with
  | ok _ => exact h₅
  | error e =>
    cases e with
    | capacityError => exact lwp_note .labFull nofun h₅
    | bootError => exact lwp_note .bootFailed nofun h₅
    | exception => exact h₅
    | cancelled => exact h₅

theorem lwp_openShell {ip : String} (h : Holding calm i owned client ip r s) :
    lwp cfg calm strict routed i (openShell r) (fun _ => Holding calm i owned client ip r)
      (fun _ => Holding calm i owned client ip r) s := by
  refine (Program.wp_tryCatch _ _).mpr (Program.wp_mono (fun _ _ h => h) (fun e s₁ h₁ => ?_)
    (lwp_bind (lwp_await rfl Holding.stable (fun _ _ _ hx => hx) (fun _ h => h.steady) h)
      fun _ _ h => h))
  change Program.wp _ _ _ (if e = .cancelled then _ else _) _ _ _
  split
  · exact h₁
  · exact lwp_note .noShell nofun h₁

/-- The session's VM becomes the one of its client. -/
theorem lwp_setVm {ip : String} (hroute : routed → client = ip)
    (h : Holding calm i owned client ip r s) :
    lwp cfg calm strict routed i (withLock (step (.setVm ip r) rfl))
      (fun _ => Holding calm i owned client ip r) (fun _ => Holding calm i owned client ip r) s := by
  have hstable : Stable i fun s => At i true (some ⟨ip, some r, true⟩) s ∧
      Own i r owned client (Vm.Before calm) s :=
    At.stable.and (Own.stable fun _ _ h hv => h.later hv)
  refine lwp_withLock (D := fun _ _ => False) Holding.stable (fun _ h => h.1.not_holder)
    (fun s₁ h₁ => ?_) (fun _ => hstable) (fun _ => .false)
    (fun _ _ h => guard_release h.1 counted_some) (fun _ _ => False.elim)
    (fun _ _ h => ⟨h.1.release counted_some, h.2.congr rfl rfl⟩) (fun _ _ => False.elim) h
  intro s₂ hR a s₃ hx
  obtain ⟨hat, hown⟩ := hstable ⟨h₁.1.acquire, h₁.2.congr rfl rfl⟩ hR
  obtain rfl := hx.1
  refine ⟨⟨hat.holder.mpr rfl, ⟨_, hat.entry, rfl, rfl⟩, hown.lt, fun hr => ?_⟩, ⟨hat.holder, hat.entry, hat.admitted⟩, hown.congr rfl rfl⟩
  exact hown.client.trans (hroute hr)

theorem lwp_connect {ip : String} (hroute : routed → client = ip)
    (h : Holding calm i owned client ip r s) :
    lwp cfg calm strict routed i (connect r ip) (fun _ => Holding calm i owned client ip r)
      (fun _ => Holding calm i owned client ip r) s := by
  refine lwp_bind (lwp_openShell h) fun ready s₁ h₁ => ?_
  cases ready with
  | false => exact h₁
  | true =>
    refine lwp_bind (lwp_setVm hroute h₁) fun _ s₂ h₂ => ?_
    refine lwp_bind (lwp_send Holding.stable (fun _ h => h.steady) h₂) fun _ s₃ h₃ => ?_
    exact lwp_await rfl Holding.stable (fun _ _ _ hx => hx) (fun _ h => h.steady) h₃

/-- **A session on a VM of its own ends with the VM**, which is not torn down yet. -/
theorem lwp_session_owned {ip : String} (hroute : routed → client = ip)
    (h : At i false (some ⟨ip, some r, true⟩) s ∧ Own i r true client Vm.Fresh s) :
    lwp cfg calm strict routed i (session true r ip) (fun _ => Holding calm i true client ip r)
      (fun _ => Holding calm i true client ip r) s := by
  refine lwp_bind (lwp_bootVm h) fun up s₁ h₁ => ?_
  cases up with
  | false => exact h₁
  | true => exact lwp_connect hroute h₁

theorem lwp_session_attached {ip : String} (hroute : routed → client = ip)
    (h : Holding calm i false client ip r s) :
    lwp cfg calm strict routed i (session false r ip) (fun _ => Holding calm i false client ip r)
      (fun _ => Holding calm i false client ip r) s :=
  lwp_bind (lwp_send Holding.stable (fun _ h => h.steady) h) fun _ _ h₁ => lwp_connect hroute h₁

/-- A VM that is torn down, if it should be and can be. -/
def Vm.Left (strict : Prop) (v : Vm ι) : Prop := strict → v.owned = true → v.Gone

omit [DecidableEq ι] in
theorem Vm.Left.lasting : Lasting (Vm.Left strict : Vm ι → Prop) := fun _ _ h hv hs howned =>
  (h hs (hv.owned.symm.trans howned)).later hv

theorem own_setActive {ip : String} {n : ℤ} (h : Own i r owned client K s) :
    Own i r owned client K (s.setActive i ip n) := by
  unfold State.setActive
  split <;> exact h.congr rfl rfl

/-- **After the last region a session is over.** -/
theorem lwp_forget {ip : String} (h : At i false (some ⟨ip, some r, true⟩) s ∧
      Own i r owned client (Vm.Left strict) s) :
    lwp cfg calm strict routed i (forget r ip) (fun _ => Over strict i) (fun _ => Over strict i)
      s := by
  have hown : Stable i (Own i r owned client (Vm.Left strict)) := Own.stable Vm.Left.lasting
  refine lwp_withLock (D := fun _ _ => False) (At.stable.and hown) (fun _ h => h.1.not_holder)
    (B := fun _ s => (At i true (some ⟨ip, some r, false⟩) s ∧ Own i r owned client (Vm.Left strict) s) ∧
      s.clientVm ip ≠ some r) (fun s₁ h₁ => ?_) (fun _ s s' h hR => ?_) (fun _ => .false)
    (fun _ s h => ?_) (fun _ _ => False.elim) (fun _ _ h => over_release h.1.1)
    (fun _ _ => False.elim) h
  · refine lwp_bind (lwp_lower hown (fun _ _ _ => own_setActive)
      ⟨h₁.1.acquire, h₁.2.congr rfl rfl⟩) fun _ s₂ h₂ => ?_
    intro s₃ hR v s₄ hx
    have h₃ := (At.stable.and hown) h₂ hR
    obtain ⟨⟨rfl, rfl⟩, -⟩ := hx
    refine ⟨h₃.1.holder.mpr rfl, ?_⟩
    change Program.wp _ _ _ (if s₄.clientVm ip = some r then _ else _) _ _ _
    -- the map names this VM, and forgets it
    split
    · intro s₅ hR a s₆ hx
      have h₅ := (At.stable.and hown) h₃ hR
      obtain rfl := hx.1
      refine ⟨h₅.1.holder.mpr rfl, ⟨⟨h₅.1.holder, h₅.1.entry, h₅.1.admitted⟩,
        h₅.2.congr rfl rfl⟩, ?_⟩
      simp only [Function.update_self]
      nofun
    · next hne => exact ⟨h₃, hne⟩
  · refine ⟨(At.stable.and hown) h.1 hR, ?_⟩
    -- nobody writes the map while the lock is held
    rw [(hR.locked (h.1.1.holder.mpr rfl)).2]
    exact h.2
  · refine ⟨h.1.1.holder.mpr rfl, fun e r' he _ hr => ?_⟩
    obtain rfl := Option.some.inj (h.1.1.entry.symm.trans he)
    obtain rfl := Option.some.inj hr
    exact ⟨h.2, h.1.2.known⟩

/-- **The clean-up ends a session**, unless the teardown fails. -/
theorem lwp_cleanUp (hcalm : strict → calm) {ip : String} (h : Holding calm i owned client ip r s) :
    lwp cfg calm strict routed i (cleanUp owned r ip) (fun _ => Over strict i)
      (fun _ => Over strict i) s := by
  cases owned with
  -- the VM of a lab is not this handler's to tear down
  | false =>
    refine lwp_forget ⟨h.1, h.2.lt, h.2.owner, h.2.owned, h.2.client, fun _ howned => ?_⟩
    rw [h.2.owned] at howned
    cases howned
  | true =>
    intro s₁ hR a s₂ hx
    have h₁ := Holding.stable h hR
    obtain rfl : s₂ = s₁.setVm r { s₁.vms r with tearing := true } := hx.1
    refine ⟨⟨h₁.2.lt, h₁.2.owner, h₁.2.owned, h₁.2.known⟩, ?_⟩
    have h₂ : At i false (some ⟨ip, some r, true⟩) (s₁.setVm r { s₁.vms r with tearing := true }) ∧
        Own i r true client (Vm.During calm) (s₁.setVm r { s₁.vms r with tearing := true }) := by
      refine ⟨⟨h₁.1.holder, h₁.1.entry, h₁.1.admitted⟩,
        h₁.2.setVm rfl rfl rfl fun hc => ⟨h₁.2.known.booting hc, fun hdown => ?_⟩⟩
      have hdown : (s₁.vms r).down = true := hdown
      rw [h₁.2.known.down] at hdown
      cases hdown
    change lwp cfg calm strict routed i (tryStep (.toreDown r) rfl >>= fun _ => forget r ip) _ _ _
    refine lwp_bind (B := fun _ s => At i false (some ⟨ip, some r, true⟩) s ∧
      Own i r true client (Vm.Left strict) s) ?_ fun _ s₃ h₃ => lwp_forget h₃
    intro s₃ hR a s₄ hx
    obtain ⟨hat, hown⟩ := (At.stable.and (Own.stable fun _ _ h hv => h.later hv)) h₂ hR
    obtain ⟨⟨hended, hdown, rfl⟩, -, hstrict, -⟩ := hx
    refine ⟨⟨hat.not_holder, hat.steady counted_some⟩, ?_⟩
    cases a with
    | error e => exact hat.over fun hs => nomatch hstrict hs
    | ok _ =>
      refine ⟨hat, hown.lt, hown.owner, hown.owned, hown.client, fun hs _ => ?_⟩
      -- the boot is over by now, so the teardown finds all there is
      obtain ⟨hbooting, hlive⟩ := hown.known (hcalm hs)
      exact ⟨hbooting, hended.resolve_left nofun, hdown rfl, hlive (hdown rfl)⟩

/-- The browser is told by the last line, if the load balancer is in front. -/
def Routed (routed : Prop) (req : Request) : Prop :=
  routed → ∃ own xff, req.forwarded = own ++ [xff] ∧ xff ≠ "" ∧ firstElement xff.toList = req.address

/-- The address of a browser, as the service finds it, is an exception or a value. -/
theorem lwp_clientIp {req : Request} (hroute : Routed routed req) (h : P s) :
    lwp cfg calm strict routed i (clientIp req)
      (fun ip s => P s ∧ (routed → req.address = ip)) (fun _ => P) s := by
  have hone : ∀ xff, req.forwarded = [xff] → routed →
      xff ≠ "" ∧ firstElement xff.toList = req.address := by
    intro xff hxff hr
    obtain ⟨own, xff', hown, hne, hfirst⟩ := hroute hr
    have happ : [] ++ [xff] = own ++ [xff'] := hxff.symm.trans hown
    obtain ⟨-, rfl⟩ := List.append_singleton_inj.mp happ
    exact ⟨hne, hfirst⟩
  unfold clientIp
  split
  · next hnil =>
    refine ⟨h, fun hr => ?_⟩
    obtain ⟨own, xff, hown, -⟩ := hroute hr
    exact absurd (hnil.symm.trans hown).symm (List.append_ne_nil_of_right_ne_nil _ nofun)
  · next xff hxff =>
    split
    · next hempty => exact ⟨h, fun hr => absurd hempty (hone xff hxff hr).1⟩
    · exact ⟨h, fun hr => (hone xff hxff hr).2.symm⟩
  · exact h

/-- **A terminal connection leaves nothing behind, if it can.** -/
theorem lwp_terminalHandler (hcalm : strict → calm) {req : Request} (hroute : Routed routed req)
    (h : At i false none s) :
    lwp cfg calm strict routed i (terminalHandler cfg req) (fun _ => Over strict i)
      (fun _ => Over strict i) s := by
  have hover : ∀ s : State ι, At i false none s → Over strict i s := fun _ h => h.over fun _ => rfl
  refine lwp_bind (Program.wp_mono (fun _ _ h => h) (fun _ => hover) (lwp_clientIp hroute h))
    fun ip s₁ h₁ => ?_
  obtain ⟨h₁, hip⟩ := h₁
  refine lwp_bind (Program.wp_mono (fun _ _ h => h) (fun _ => hover) (lwp_enter h₁))
    fun entered s₂ h₂ => ?_
  cases entered with
  | false => exact hover s₂ h₂
  | true =>
    change Program.wp _ _ _ (if labId req.lab = "" then _ else _) _ _ _
    split
    · intro s₃ hR r s₄ hx
      have h₃ := At.stable h₂ hR
      obtain ⟨⟨rfl, rfl⟩, -⟩ := hx
      refine ⟨⟨h₃.not_holder, _, h₃.entry, rfl, rfl⟩, (Program.wp_tryFinally _ _).mpr ?_⟩
      exact Program.wp_mono (fun _ _ => lwp_cleanUp hcalm) (fun _ _ => lwp_cleanUp hcalm)
        (lwp_session_owned hip (own_create h₃ ⟨rfl, rfl, rfl, rfl, rfl⟩))
    · refine lwp_bind (lwp_openLab h₂) fun vm s₃ h₃ => ?_
      cases vm with
      | none => exact h₃
      | some r =>
        refine (Program.wp_tryFinally _ _).mpr ?_
        exact Program.wp_mono (fun _ _ => lwp_cleanUp hcalm) (fun _ _ => lwp_cleanUp hcalm)
          (lwp_session_attached hip h₃)

/-- The VM of a browser. -/
structure Found (routed : Prop) (address : String) (r : ℕ) (s : State ι) : Prop where
  lt : r < s.nextVm
  client : routed → (s.vms r).client = address

omit [DecidableEq ι] in
theorem Found.stable {address : String} : Stable i (Found routed address r) := fun _ _ h hR =>
  ⟨Nat.lt_of_lt_of_le h.lt hR.nextVm, fun hr => (hR.stays r h.lt).client.trans (h.client hr)⟩

omit [DecidableEq ι] in
/-- An address that a VM has is its address for good. -/
theorem Found.stable_ip {address : String} {host : Json} (hhost : host ≠ .null) :
    Stable i fun s => Found routed address r s ∧ (s.vms r).ip = host := fun _ _ h hR =>
  ⟨Found.stable h.1 hR, ((hR.stays r h.1.lt).address (h.2 ▸ hhost)).trans h.2⟩

theorem lwp_getVm {ip : String} (h : At i false none s) :
    lwp cfg calm strict routed i (withLock (step (.getVm ip) rfl) : Code (Option ℕ))
      (fun v s => At i false none s ∧ ∀ r, v = some r → Found routed ip r s)
      (fun _ => At i false none) s := by
  have hnone : ∀ e' : Entry, none = some e' → e'.counted = true := nofun
  have hfound : ∀ v : Option ℕ, Stable i fun s => At i true none s ∧ ∀ r, v = some r →
      Found routed ip r s := fun _ _ _ h hR =>
    ⟨At.stable h.1 hR, fun r hr => Found.stable (h.2 r hr) hR⟩
  refine lwp_withLock (D := fun _ _ => False) At.stable (fun _ h => h.not_holder) (fun s₁ h₁ => ?_)
    hfound (fun _ => .false) (fun _ _ h => guard_release h.1 hnone) (fun _ _ => False.elim)
    (fun _ _ h => ⟨h.1.release hnone, fun r hr => ⟨(h.2 r hr).lt, (h.2 r hr).client⟩⟩)
    (fun _ _ => False.elim) h
  intro s₂ hR v s₃ hx
  have h₂ := At.stable h₁.acquire hR
  obtain ⟨⟨rfl, rfl⟩, -, -, hmapped⟩ := hx
  exact ⟨h₂.holder.mpr rfl, h₂, fun r hr => ⟨(hmapped ip r hr).1, (hmapped ip r hr).2⟩⟩

/-- The lines of a head name its browser. -/
def Named (routed : Prop) (visit : Visit) : Prop :=
  routed → (extractXff visit.head).getD visit.peer = visit.address

/-- A preview connection waits for something. -/
theorem lwp_reply (h : At i false none s) :
    lwp cfg calm strict routed i (tryStep .reply rfl : Code Unit) (fun _ => At i false none)
      (fun _ => At i false none) s :=
  lwp_await rfl At.stable (fun _ _ _ hx => hx) (fun _ h => ⟨h.not_holder, h.steady_none⟩) h

theorem lwp_forward {visit : Visit} (h : At i false none s ∧ Found routed visit.address r s) :
    lwp cfg calm strict routed i (forward visit r) (fun _ => At i false none)
      (fun _ => At i false none) s := by
  intro s₁ hR host s₂ hx
  obtain ⟨hat, hfound⟩ := (At.stable.and Found.stable) h hR
  obtain ⟨⟨rfl, rfl⟩, -⟩ := hx
  refine ⟨trivial, ?_⟩
  change Program.wp _ _ _ (if !(s₂.vms r).ip.truthy then _ else _) _ _ _
  split
  · exact lwp_reply hat
  · next htruthy =>
    -- an address that is truthy is there
    have hhost : (s₂.vms r).ip ≠ .null := by
      intro hnull
      rw [hnull] at htruthy
      exact htruthy rfl
    refine lwp_bind (B := fun _ => At i false none) ?_ fun up s₃ h₃ => ?_
    · refine (Program.wp_tryCatch _ _).mpr ?_
      intro s₃ hR a s₄ hx
      obtain ⟨hat₃, hfound₃, hip⟩ := (At.stable.and (Found.stable_ip hhost)) ⟨hat, hfound, rfl⟩ hR
      obtain rfl := exec_connect hx.1
      refine ⟨⟨hat₃.not_holder, hat₃.steady_none, hfound₃.lt, hfound₃.client, hip⟩, ?_⟩
      cases a with
      | ok _ => exact hat₃
      | error e =>
        change Program.wp _ _ _ (if e = .cancelled then _ else _) _ _ _
        split
        · exact hat₃
        · exact lwp_bind (lwp_reply hat₃) fun _ _ h => h
    · cases up with
      | false => exact h₃
      | true =>
        exact lwp_await rfl At.stable (fun _ _ _ hx => hx)
          (fun _ h => ⟨h.not_holder, h.steady_none⟩) h₃

/-- **A preview connection has no session**; it goes to the VM of its browser. -/
theorem lwp_previewHandler {visit : Visit} (hnamed : Named routed visit) (h : At i false none s) :
    lwp cfg calm strict routed i (previewHandler visit) (fun _ => At i false none)
      (fun _ => At i false none) s := by
  refine lwp_bind (B := fun _ => At i false none) ?_ fun read s₁ h₁ => ?_
  · refine (Program.wp_tryCatch _ _).mpr (Program.wp_mono (fun _ _ h => h) (fun e s₁ h₁ => ?_)
      (lwp_bind (lwp_await rfl At.stable (fun _ _ _ hx => hx)
        (fun _ h => ⟨h.not_holder, h.steady_none⟩) h) fun _ _ h => h))
    change Program.wp _ _ _ (if e = .cancelled then _ else _) _ _ _
    split
    · exact h₁
    · exact h₁
  · cases read with
    | false => exact h₁
    | true =>
      change Program.wp _ _ _ (if isHealthCheck visit.head then _ else _) _ _ _
      split
      · exact lwp_reply h₁
      · refine lwp_bind (Program.wp_mono (fun _ _ h => h) (fun _ _ h => h) (lwp_getVm h₁))
          fun vm s₂ h₂ => ?_
        cases vm with
        | none => exact lwp_reply h₂.1
        | some r =>
          have hfound := h₂.2 r rfl
          exact lwp_forward ⟨h₂.1, hfound.lt, fun hr => (hfound.client hr).trans (hnamed hr)⟩

/-! ### The outline -/

/-- **Every handler keeps to its guards**, and leaves nothing behind if it can. -/
def outline (cfg : Settings) (calm strict routed : Prop) (hcalm : strict → calm)
    {R : Request → Prop} {V : Visit → Prop} (hR : ∀ req, R req → Routed routed req)
    (hV : ∀ visit, V visit → Named routed visit)
    {ok : Config sig Failure Unit ι (State ι) → Move sig Failure Unit ι → Prop}
    (hstarts : ∀ x m, ok x m → Starts cfg R V x m)
    (hcalms : ∀ x i c a, ok x (.call i c a) → (calm → Calm c a) ∧ (strict → Strict c a)) :
    Outline (exec cfg) fun x m => ok x m ∧ Mapped routed x.shared where
  rely := Rely
  guar i s c a s' := Sem cfg calm strict routed i s c a s' ∧ Guard cfg calm strict routed i s c
  idle := Over strict
  post i _ := Over strict i
  fail i _ := Over strict i
  sem := Sem cfg calm strict routed
  sem_of_ok x i c a s hok hx := ⟨does_of_exec hx, (hcalms x i c a hok.1).1, (hcalms x i c a hok.1).2, hok.2⟩
  rely_refl := Rely.refl
  rely_trans _ _ _ _ := Rely.trans
  rely_of_guar i j hj s c a s' hg := rely_of_guard (exec_of_does hg.1.1 hg.2) hg.2 hj
  idle_stable _ _ _ h hs := Over.stable hs h
  post_stable _ _ _ _ h hs := Over.stable hs h
  fail_stable _ _ _ _ h hs := Over.stable hs h
  start x i p hok hover := by
    obtain ⟨hadmitted, hp⟩ := hstarts x _ hok.1
    have hat : At i false none x.shared :=
      ⟨⟨fun h => absurd h hover.holder, nofun⟩, hover.entry hadmitted, hadmitted⟩
    refine Program.wp_executed (F := sig) (G := fun s c _ _ => Guard cfg calm strict routed i s c) ?_
    obtain ⟨req, hreq, rfl⟩ | ⟨visit, hvisit, rfl⟩ | rfl := hp
    · exact lwp_terminalHandler hcalm (hR req hreq) hat
    · have hover : ∀ s : State ι, At i false none s → Over strict i s := fun _ h => h.over fun _ => rfl
      exact Program.wp_mono (fun _ => hover) (fun _ => hover)
        (lwp_previewHandler (hV visit hvisit) hat)
    · intro s₁ hrely a s₂ hx
      have h₁ := At.stable hat hrely
      refine ⟨⟨h₁.not_holder, h₁.steady_none⟩, ?_⟩
      cases hx.1 with
      | vm _ _ => exact At.over ⟨h₁.holder, h₁.entry, h₁.admitted⟩ fun _ => rfl
      | labs _ => exact At.over ⟨h₁.holder, h₁.entry, h₁.admitted⟩ fun _ => rfl
  ret _ _ _ _ h := h
  raise _ _ _ _ h := h
  kill x i p hok := (hstarts x _ hok.1).elim

/-! ### Runs -/

/-- **No command changes what a VM is**, nor forgets one. -/
theorem stays_of_exec {c : Cmd} {a : c.Ans} (hx : exec cfg i s c a s') :
    s.nextVm ≤ s'.nextVm ∧ ∀ r < s.nextVm, (s.vms r).Stays (s'.vms r) := by
  have hself : ∀ v : Vm ι, v.Stays v := fun v => (Vm.Later.refl v).stays
  have hsame : s.nextVm ≤ s.nextVm ∧ ∀ r < s.nextVm, (s.vms r).Stays (s.vms r) :=
    ⟨Nat.le_refl _, fun _ _ => hself _⟩
  -- a VM that is written over stays what it is
  have hset : ∀ (r : ℕ) (w : Vm ι), (s.vms r).Stays w →
      ∀ r' < s.nextVm, (s.vms r').Stays ((s.setVm r w).vms r') := by
    intro r w hw r' _
    by_cases heq : r' = r
    · subst heq
      simp only [State.setVm, Function.update_self]
      exact hw
    · simp only [State.setVm, Function.update_of_ne heq]
      exact hself _
  -- a VM that is made has a number of its own
  have hcreate : ∀ (owned : Bool) (client lab : String) (ip : Json), ∀ r < s.nextVm,
      (s.vms r).Stays ((s.create i owned client lab ip).vms r) := by
    intro owned client lab ip r hr
    simp only [State.create, Function.update_of_ne (Nat.ne_of_lt hr)]
    exact hself _
  cases c with
  | tick => exact ⟨(rely_of_tick hx i).nextVm, (rely_of_tick hx i).stays⟩
  | make address => exact hx.2 ▸ ⟨Nat.le_succ _, hcreate _ _ _ _⟩
  | attach address lab ip => exact hx.2 ▸ ⟨Nat.le_succ _, hcreate _ _ _ _⟩
  | startBoot r =>
    obtain rfl := hx
    exact ⟨Nat.le_refl _, hset r _ ⟨rfl, rfl, rfl, rfl, fun _ => rfl⟩⟩
  | startTeardown r =>
    obtain rfl := hx
    exact ⟨Nat.le_refl _, hset r _ ⟨rfl, rfl, rfl, rfl, fun _ => rfl⟩⟩
  | setActive ip n =>
    obtain rfl := hx
    unfold State.setActive
    split <;> exact hsame
  | connect address r host port => exact exec_connect hx ▸ hsame
  | acquire | getActive | getVm | booted | vmIp =>
    obtain ⟨-, rfl⟩ := hx
    exact hsame
  | toreDown r => exact hx.2.2 ▸ hsame
  | _ => exact hx ▸ hsame

/-- Only `setVm` enters a VM into the map. -/
theorem clientVm_of_exec {c : Cmd} {a : c.Ans} (hx : exec cfg i s c a s') {ip : String} {r : ℕ}
    (hr : s'.clientVm ip = some r) : c = .setVm ip r ∨ s.clientVm ip = some r := by
  cases c with
  | setVm ip' r' =>
    obtain rfl := hx
    by_cases heq : ip = ip'
    · subst heq
      simp only [Function.update_self, Option.some.injEq] at hr
      exact .inl (hr ▸ rfl)
    · simp only [Function.update_of_ne heq] at hr
      exact .inr hr
  | delVm ip' =>
    obtain rfl := hx
    by_cases heq : ip = ip'
    · subst heq
      simp only [Function.update_self, reduceCtorEq] at hr
    · simp only [Function.update_of_ne heq] at hr
      exact .inr hr
  | tick => cases hx with
    | vm _ _ => exact .inr hr
    | labs _ => exact .inr hr
  | setActive ip n =>
    obtain rfl := hx
    unfold State.setActive at hr
    split at hr <;> exact .inr hr
  | connect address r host port => exact .inr (exec_connect hx ▸ hr)
  | acquire | getActive | getVm | booted | vmIp | make | attach =>
    obtain ⟨-, rfl⟩ := hx
    exact .inr hr
  | toreDown r =>
    obtain ⟨-, -, rfl⟩ := hx
    exact .inr hr
  | _ =>
    obtain rfl := hx
    exact .inr hr

theorem mapped_of_guard {c : Cmd} {a : c.Ans} (hx : exec cfg i s c a s')
    (hg : Guard cfg calm strict routed i s c) (h : Mapped routed s) : Mapped routed s' := by
  obtain ⟨hnext, hstays⟩ := stays_of_exec hx
  have hkept : ∀ (ip : String) (r : ℕ), r < s.nextVm → (routed → (s.vms r).client = ip) →
      r < s'.nextVm ∧ (routed → (s'.vms r).client = ip) := fun ip r hlt hclient =>
    ⟨Nat.lt_of_lt_of_le hlt hnext, fun hr => (hstays r hlt).client.trans (hclient hr)⟩
  intro ip r hr
  obtain rfl | hold := clientVm_of_exec hx hr
  · exact hkept ip r hg.2.2.1 hg.2.2.2
  · exact hkept ip r (h ip r hold).1 (h ip r hold).2

/-- Where a handler waits, something may answer it. -/
theorem exists_answer {c : Cmd} (hc : c.Awaits) : ∃ a s', exec cfg i s c a s' := by
  cases c with
  | tick => exact ⟨(), { s with labs := [] }, .labs ⟨List.nodup_nil, nofun⟩⟩
  | booted r => exact ⟨.error .cancelled, s, .inl rfl, rfl⟩
  | toreDown r => exact ⟨.error .cancelled, s, .inl rfl, nofun, rfl⟩
  | connect address r host port => exact ⟨.error .cancelled, s, rfl⟩
  | send | attachInfo | shell | serve | readHead | reply | splice =>
    exact ⟨.error .cancelled, s, rfl⟩
  | _ => exact hc.elim

omit [DecidableEq ι] in
/-- **Where a handler waits**, its session is counted, and it holds the lock only in one place. -/
theorem steady_of_guard {c : Cmd} (hc : c.Awaits) (hg : Guard cfg calm strict routed i s c) :
    Steady i s ∧ (s.holder = some i → c = .send .full) := by
  cases c with
  | send note =>
    cases note with
    | full => exact ⟨hg, fun _ => rfl⟩
    | _ => exact ⟨hg.2, fun h => absurd h hg.1⟩
  | connect address r host port => exact ⟨hg.2.1, fun h => absurd h hg.1⟩
  | attachInfo | booted | shell | serve | toreDown | readHead | reply | splice | tick =>
    exact ⟨hg.2, fun h => absurd h hg.1⟩
  | _ => exact hc.elim

section Invariant

variable {R : Request → Prop} {V : Visit → Prop} {labs : List (String × String)}
  {ok : Config sig Failure Unit ι (State ι) → Move sig Failure Unit ι → Prop}
  (calm cfg strict routed) (hcalm : strict → calm) (hR : ∀ req, R req → Routed routed req)
  (hV : ∀ visit, V visit → Named routed visit) (hstarts : ∀ x m, ok x m → Starts cfg R V x m)
  (hcalms : ∀ x i c a, ok x (.call i c a) → (calm → Calm c a) ∧ (strict → Strict c a))
  {x : Config sig Failure Unit ι (State ι)} (h : Reaches (exec cfg) ok (.idle (.init labs)) x)

include h

/-- What is verified of a run, whatever its answers. -/
theorem verified_of_reaches :
    (outline cfg calm strict routed hcalm hR hV hstarts hcalms).Verified x ∧ Mapped routed x.shared :=
  (outline cfg calm strict routed hcalm hR hV hstarts hcalms).invariant_of_kept
    (fun _ _ _ _ _ hG => mapped_of_guard (exec_of_does hG.1.1 hG.2) hG.2) h
    (fun _ => ⟨nofun, fun _ => rfl, fun _ => rfl⟩) nofun

include hcalm hR hV hstarts hcalms

/-- What the guards keep holds throughout a run. -/
theorem invariant_of_reaches {I : State ι → Prop}
    (hI : ∀ i s c (a : Cmd.Ans c) s', exec cfg i s c a s' → Guard cfg calm strict routed i s c →
      (calm → Calm c a) → I s → I s')
    (h0 : I (.init labs)) : I x.shared := by
  let o := outline cfg calm strict routed hcalm hR hV hstarts hcalms
  have hidle : o.Verified (.idle (.init labs)) := fun _ => ⟨nofun, fun _ => rfl, fun _ => rfl⟩
  have hreach := o.reaches_of_kept
    (fun _ _ _ _ _ hG => mapped_of_guard (exec_of_does hG.1.1 hG.2) hG.2) h hidle nofun
  exact (o.invariant (fun i s c a s' hG => hI i s c a s' (exec_of_does hG.1.1 hG.2) hG.2 hG.1.2.1)
    hreach hidle h0).2

end Invariant

/-- **A handler that waits** is counted, and holds the lock only at one message; a handler that is
about to take the lock does not hold it. -/
theorem steady_of_reaches {R : Request → Prop} {V : Visit → Prop} {labs : List (String × String)}
    {ok : Config sig Failure Unit ι (State ι) → Move sig Failure Unit ι → Prop}
    (hstarts : ∀ x m, ok x m → Starts cfg R V x m) {x : Config sig Failure Unit ι (State ι)}
    (h : Reaches (exec cfg) ok (.idle (.init labs)) x) (i : ι) :
    (Waits (x.thread i) → x.shared.holder = some i → x.next i = some (.send .full)) ∧
      (Waits (x.thread i) → x.thread i ≠ none → Steady i x.shared) ∧
      (x.next i = some .acquire → x.shared.holder ≠ some i) := by
  obtain ⟨hverified, hmapped⟩ := verified_of_reaches False cfg False False False.elim (fun _ _ => False.elim) (fun _ _ => False.elim) hstarts
    (fun _ _ _ _ _ => ⟨False.elim, False.elim⟩) h
  have hi := hverified i
  have hguard : ∀ c k, x.thread i = some (.call c k) → (∃ a s', Does cfg i x.shared c a s') →
      Guard cfg False False False i x.shared c := by
    rintro c k ht ⟨a, s', hx⟩
    rw [ht] at hi
    exact (hi x.shared (.refl i _) a s' ⟨hx, False.elim, False.elim, hmapped⟩).1.2
  have hwaits : ∀ c k, x.thread i = some (.call c k) → c.Awaits →
      Steady i x.shared ∧ (x.shared.holder = some i → c = .send .full) := by
    intro c k ht hc
    have hanswer : ∃ a s', exec cfg i x.shared c a s' := exists_answer hc
    obtain ⟨a, s', hx⟩ := hanswer
    exact steady_of_guard hc (hguard c k ht ⟨a, s', does_of_exec hx⟩)
  refine ⟨fun hw hholder => ?_, fun hw hne => ?_, fun hnext hholder => ?_⟩
  · cases ht : x.thread i with
    | none =>
      rw [ht] at hi
      exact absurd hholder hi.holder
    | some p =>
      rw [ht] at hw
      cases p with
      | call c k =>
        simp only [Config.next, ht]
        rw [(hwaits c k ht hw).2 hholder]
      | _ => exact hw.elim
  · obtain ⟨p, ht⟩ := Option.ne_none_iff_exists'.mp hne
    rw [ht] at hw
    cases p with
    | call c k => exact (hwaits c k ht hw).1
    | _ => exact hw.elim
  · obtain ⟨k, ht⟩ := Config.thread_of_next hnext
    exact hguard .acquire k ht ⟨(), _, .inr hholder, rfl⟩ hholder

end Knowledge

end Terminal
end CloudCore
