import CloudCore.Api.Interference

/-!
# Whether USB devices are exclusive

A device is claimed under the USB lock: the instances are read, and the row is
written if none of them lists the device.  All other writes of a row bring back
a copy read earlier, device list included, without the lock.  As long as such a
write lists no device that the stored row does not list, a device is listed by
at most one instance, and comes back to an instance only by a claim.

## Main definitions

* `Lists`, `Exclusive` — who has a device, and that only one has it.
* `Faithful` — a write outside the lock adds no device.

## Main results

* `judgeDevice_free` — a device that passes the check is free or one's own.
* `usb_exclusive` — **devices are exclusive while writes outside the lock add none.**
* `attached_twice` — a handler brings back a device that has been given away.
-/

namespace CloudCore
namespace Api

open Python Relational Db Effect

/-- The value lists the device. -/
def Holds (v : Json) (u : String) : Prop := ∃ l, items v = .ok l ∧ Json.str u ∈ l

section

variable {ι : Type} {pf : Platform} {peers : Peers} {i : ι} {s s' : State ι}

/-- The instance, not being deleted, lists the device. -/
def Lists (s : State ι) (id u : String) : Prop :=
  ∃ r ∈ (s.table .inst).live, Instance.id r = id ∧ Holds (Instance.usbDeviceIds r) u

/-- No device is listed by two instances. -/
def Exclusive (s : State ι) : Prop := ∀ u id id', Lists s id u → Lists s id' u → id = id'

theorem Exclusive.mono (hs : Exclusive s) (h : ∀ id u, Lists s' id u → Lists s id u) :
    Exclusive s' :=
  fun u id id' hid hid' => hs u id id' (h id u hid) (h id' u hid')

theorem usbDeviceIds_stored (t : Table (Row .inst)) (r : Row .inst) :
    Instance.usbDeviceIds (t.stored r) = Instance.usbDeviceIds r :=
  Table.stored_congr (fun _ _ => rfl) t r

theorem usbDeviceIds_of_encode {o : Instance Json Json} {r : Row .inst}
    (h : encode pf.renderReal (k := .inst) o = some r) :
    Instance.usbDeviceIds r = o.usbDeviceIds := by
  simp only [encode, Option.bind_eq_bind, Option.bind_eq_some_iff] at h
  obtain ⟨_, -, _, -, _, -, _, -, _, -, _, -, h⟩ := h
  cases h
  rfl

/-- **Who has a device after a command** had it before, or has just been written. -/
theorem lists_step {c : Commands.Cmd} {a : Commands.Ans c} (hx : exec pf i s c a s')
    {id u : String} (h : Lists s' id u) :
    Lists s id u ∨ ∃ o : Instance Json Json, c = .put .inst o ∧ id = o.id ∧
      Holds o.usbDeviceIds u := by
  obtain ⟨r, hr, hid, hu⟩ := h
  rcases exec_tables hx with htable | ⟨k, o, r', rfl, hr', rfl⟩ | ⟨k, del, rfl, rfl⟩
  · rw [htable] at hr
    exact Or.inl ⟨r, hr, hid, hu⟩
  · by_cases hk : Kind.inst = k
    · subst hk
      rw [State.table_upsert] at hr
      rcases Table.mem_live_upsert.mp hr with ⟨rfl, -⟩ | ⟨hr, -⟩
      · right
        rw [usbDeviceIds_stored, usbDeviceIds_of_encode hr'] at hu
        exact ⟨o, rfl, hid.symm.trans ((Row.id_stored _ _).trans (id_of_encode hr')), hu⟩
      · exact Or.inl ⟨r, hr, hid, hu⟩
    · rw [State.table_upsert_of_ne _ hk] at hr
      exact Or.inl ⟨r, hr, hid, hu⟩
  · by_cases hk : Kind.inst = k
    · subst hk
      rw [State.table_delete] at hr
      exact Or.inl ⟨r, (Table.mem_live_delete.mp hr).1, hid, hu⟩
    · rw [State.table_delete_of_ne _ hk] at hr
      exact Or.inl ⟨r, hr, hid, hu⟩

/-! ### The check -/

theorem setOf_eq_ok {v : Json} {l : List Json} (h : setOf v = .ok l) : items v = .ok l := by
  obtain ⟨l', hl, h⟩ := bind_eq_ok.mp h
  split at h
  · cases h
    exact hl
  · cases h

/-- The map pairs each device with an instance that lists it. -/
theorem mem_attachedInstanceMap {l : List (Row .inst)} {attached : List (Json × String)}
    (h : attachedInstanceMap (l.map decode) = .ok attached) {u id : String} :
    (Json.str u, id) ∈ attached ↔
      ∃ r ∈ l, Instance.id r = id ∧ Holds (Instance.usbDeviceIds r) u := by
  induction l generalizing attached with
  | nil =>
    cases h
    simp
  | cons r l ih =>
    obtain ⟨ids, hids, h⟩ := bind_eq_ok.mp h
    obtain ⟨rest, hrest, h⟩ := bind_eq_ok.mp h
    cases h
    have hitems : items (Instance.usbDeviceIds r) = .ok ids := setOf_eq_ok hids
    have hhead : Holds (Instance.usbDeviceIds r) u ↔ Json.str u ∈ ids := by
      constructor
      · rintro ⟨l', hl', hu⟩
        rw [hitems] at hl'
        cases hl'
        exact hu
      · exact fun hu => ⟨ids, hitems, hu⟩
    rw [List.mem_append, ih hrest, List.mem_map]
    simp only [List.mem_cons, exists_eq_or_imp, hhead, Prod.mk.injEq]
    constructor
    · rintro (⟨v, hv, rfl, rfl⟩ | hl)
      · exact Or.inl ⟨rfl, hv⟩
      · exact Or.inr hl
    · rintro (⟨rfl, hu⟩ | hl)
      · exact Or.inl ⟨_, hu, rfl, rfl⟩
      · exact Or.inr hl

theorem mem_of_attachedTo {attached : List (Json × String)} {u id : String}
    (h : attachedTo attached u = some id) : (Json.str u, id) ∈ attached := by
  obtain ⟨⟨v, id'⟩, hfind, rfl⟩ := Option.map_eq_some_iff.mp h
  have heq := List.find?_some hfind
  have hv : v = .str u := Json.eq_str.mp heq
  rw [← hv]
  exact List.mem_reverse.mp (List.mem_of_find?_eq_some hfind)

theorem not_mem_of_attachedTo {attached : List (Json × String)} {u id : String}
    (h : attachedTo attached u = none) : (Json.str u, id) ∉ attached := by
  intro hmem
  rw [attachedTo, Option.map_eq_none_iff, List.find?_eq_none] at h
  exact h _ (List.mem_reverse.mpr hmem) (Json.eq_str.mpr rfl)

/-- **A device that passes the check is free or one's own.** -/
theorem judgeDevice_free (hs : Exclusive s) (hids : ∀ id u, Lists s id u → id ≠ "")
    {attached : List (Json × String)} {devices : List UsbDevice} {v : Json}
    {requesting : Option String}
    (hmap : attachedInstanceMap ((s.table .inst).live.map decode) = .ok attached)
    (h : judgeDevice pf attached devices v requesting = .ok none) :
    ∃ u, v = .str u ∧ ∀ id, Lists s id u → some id = requesting := by
  have hlists {u id : String} : (Json.str u, id) ∈ attached ↔ Lists s id u :=
    mem_attachedInstanceMap hmap
  unfold judgeDevice at h
  split at h
  · cases h
  dsimp only at h
  split at h
  · cases h
  next d hfind =>
    have heq := List.find?_some hfind
    have hv : v = .str d.id := Json.eq_str.mp heq
    refine ⟨d.id, hv, ?_⟩
    intro id hid
    split at h
    · cases h
    split at h
    next hnone => exact absurd (hlists.mpr hid) (not_mem_of_attachedTo hnone)
    next owner howner =>
      have hown : Lists s owner d.id := hlists.mp (mem_of_attachedTo howner)
      obtain rfl : id = owner := hs d.id id owner hid hown
      split at h
      next hmine =>
        rcases hmine with hempty | hmine
        · exact absurd hempty (hids _ _ hown)
        · exact hmine
      next => cases h

end

/-! ### The proof outline -/

variable {ι : Type} {pf : Platform} {peers : Peers} {i : ι} {s s' : State ι}

/-- Devices are exclusive, and every instance has an id and is on this host. -/
structure Sane (s : State ι) : Prop where
  exclusive : Exclusive s
  clear : Clear (· = "") s

/-- What a thread knows outside the lock, `held` being false, and under it. -/
structure AtLock (held : Bool) (i : ι) (s : State ι) : Prop where
  sane : Sane s
  lock : s.usbLock = some i ↔ held

/-- The other threads do not touch the lock of a thread, and while it has it no
device gets a new owner. -/
structure UsbRely (i : ι) (s s' : State ι) : Prop where
  sane : Sane s → Sane s'
  lock : s.usbLock = some i ↔ s'.usbLock = some i
  lists : s.usbLock = some i → ∀ id u, Lists s' id u → Lists s id u

structure UsbGuar (i : ι) (s : State ι) (s' : State ι) : Prop where
  sane : Sane s → Sane s'
  lock : ∀ j, j ≠ i → (s.usbLock = some j ↔ s'.usbLock = some j)
  lists : s.usbLock ≠ some i → ∀ id u, Lists s' id u → Lists s id u

/-- A write outside the lock lists no device that the stored row does not list. -/
def Faithful (i : ι) (s : State ι) : Commands.Cmd → Prop
  | .put .inst o => s.usbLock ≠ some i →
      ∀ u, Holds (Instance.usbDeviceIds o) u → Lists s (Instance.id o) u
  | _ => True

/-- Ids are not empty. -/
def Named : (c : Commands.Cmd) → Commands.Ans c → Prop
  | .newId, id => id ≠ ""
  | _, _ => True

/-- The commands as the runs have them. -/
def usbExec (pf : Platform) (i : ι) (s : State ι) (c : Commands.Cmd) (a : Commands.Ans c)
    (s' : State ι) : Prop :=
  exec pf i s c a s' ∧ Faithful i s c ∧ Named c a

theorem told_usbExec {c : Commands.Cmd} {a : Commands.Ans c} (hs : Sane s)
    (hx : usbExec pf i s c a s') : Told (· = "") c a := by
  obtain ⟨hx, -, hnamed⟩ := hx
  refine told_of_clear hs.clear hx ?_
  rintro id rfl ⟨⟩
  exact hnamed

/-- The lock stays as it is. -/
theorem usbLock_step {c : Commands.Cmd} {a : Commands.Ans c} (hx : exec pf i s c a s')
    (hl : c ≠ .lockUsb) (hu : c ≠ .unlockUsb) : s'.usbLock = s.usbLock := by
  by_cases hq : Cmd.Quiet c
  · rw [exec_quiet hq hx]
  cases c with
  | put k o =>
    rcases exec_put hx with rfl | ⟨r, -, rfl⟩
    · rfl
    · rfl
  | delete k id => obtain ⟨-, rfl⟩ := hx; rfl
  | startLaunch l => obtain rfl := hx; rfl
  | beginLaunch l => obtain ⟨_, _, -, rfl⟩ := hx; rfl
  | lockUsb => exact absurd rfl hl
  | unlockUsb => exact absurd rfl hu
  | lockLb id => obtain ⟨-, rfl⟩ := hx; rfl
  | unlockLb id => obtain rfl := hx; rfl
  | _ => exact absurd trivial hq

/-- A command that brings in nothing new and gives no device a new owner. -/
theorem guar_of_lists {c : Commands.Cmd} {a : Commands.Ans c} (hx : exec pf i s c a s')
    (hl : c ≠ .lockUsb) (hu : c ≠ .unlockUsb) (hc : ¬ Brings (· = "") c)
    (h : ∀ id u, Lists s' id u → Lists s id u) : UsbGuar i s s' where
  sane hs := ⟨hs.exclusive.mono h, hs.clear.step hx hc⟩
  lock j _ := by rw [usbLock_step hx hl hu]
  lists _ := h

/-- Outside the lock no command gives a device a new owner. -/
theorem lists_of_faithful {c : Commands.Cmd} {a : Commands.Ans c} (hx : usbExec pf i s c a s')
    (hlock : s.usbLock ≠ some i) : ∀ id u, Lists s' id u → Lists s id u := by
  intro id u h
  rcases lists_step hx.1 h with h | ⟨o, rfl, rfl, hu⟩
  · exact h
  · exact hx.2.1 hlock u hu

theorem lock_ne_of_plain {D : String → Prop} {c : Commands.Cmd} (h : Plain D c) :
    c ≠ .lockUsb ∧ c ≠ .unlockUsb := by
  refine ⟨?_, ?_⟩
  · rintro rfl
    exact h
  · rintro rfl
    exact h

theorem AtLock.stable {held : Bool} (hs : AtLock held i s) (h : UsbRely i s s') :
    AtLock held i s' :=
  ⟨h.sane hs.sane, h.lock.symm.trans hs.lock⟩

/-- What a plain command does outside the lock. -/
theorem keeps_outside : Program.Keeps (usbExec pf i) (UsbRely i) (fun s _ _ s' => UsbGuar i s s')
    (Told (· = "")) (Plain (· = "")) (AtLock false i) where
  stable _ _ h hs := hs.stable h
  told _ _ _ _ hs hx := told_usbExec hs.sane hx
  step s c a s' hs hx hc := by
    obtain ⟨hl, hu⟩ := lock_ne_of_plain hc
    have hfree : s.usbLock ≠ some i := fun h => Bool.false_ne_true (hs.lock.mp h)
    have hG : UsbGuar i s s' :=
      guar_of_lists hx.1 hl hu (not_brings_of_plain hc) (lists_of_faithful hx hfree)
    refine ⟨hG, hG.sane hs.sane, ?_⟩
    rw [usbLock_step hx.1 hl hu]
    exact hs.lock

/-! ### Under the lock -/

/-- The devices are free or the requesting instance's own. -/
def Attachable (requesting : Option String) (devices : List Json) (s : State ι) : Prop :=
  ∀ v ∈ devices, ∃ u, v = .str u ∧ ∀ id, Lists s id u → some id = requesting

theorem Attachable.mono {requesting : Option String} {devices : List Json}
    (h : Attachable requesting devices s) (hlists : ∀ id u, Lists s' id u → Lists s id u) :
    Attachable requesting devices s' := by
  intro v hv
  obtain ⟨u, rfl, hu⟩ := h v hv
  exact ⟨u, rfl, fun id hid => hu id (hlists id u hid)⟩

/-- What looking around does under the lock; `F` is what has been found out so far. -/
theorem keeps_inside {F : State ι → Prop}
    (hF : ∀ s s', (∀ id u, Lists s' id u → Lists s id u) → F s → F s') :
    Program.Keeps (usbExec pf i) (UsbRely i) (fun s _ _ s' => UsbGuar i s s')
      (Told (· = "")) Cmd.Quiet fun s => AtLock true i s ∧ F s where
  stable s s' h hs := ⟨hs.1.stable h, hF s s' (h.lists (hs.1.lock.mpr rfl)) hs.2⟩
  told _ _ _ _ hs hx := told_usbExec hs.1.sane hx
  step s c a s' hs hx hc := by
    obtain rfl : s' = s := exec_quiet hc hx.1
    exact ⟨⟨id, fun _ _ => Iff.rfl, fun _ _ _ => id⟩, hs⟩

/-- The program is verified under the lock. -/
def Inside (pf : Platform) (i : ι) {α : Type} (Q : α → State ι → Prop) (p : Action α)
    (s : State ι) : Prop :=
  p.wp (usbExec pf i) (UsbRely i) (fun s _ _ s' => UsbGuar i s s')
    (fun a s => AtLock true i s ∧ Q a s) (fun _ s => AtLock true i s) s

theorem inside_validateAttachable (requesting : Option String) (v : Json)
    (hs : AtLock true i s) :
    Inside pf i (fun err s => err = none → Attachable requesting [v] s)
      (validateAttachable pf v requesting) s := by
  intro s₁ hR a s₂ hx
  have hs₁ : AtLock true i s₁ := hs.stable hR
  obtain ⟨⟨rfl, rfl⟩, -⟩ := hx
  refine ⟨⟨id, fun _ _ => Iff.rfl, fun _ _ _ => id⟩, ?_⟩
  refine (Program.wp_bind (Program.lift (attachedInstanceMap _)) _).mpr
    (Program.wp_lift.mpr ⟨?_, fun _ _ => hs₁⟩)
  intro attached hmap
  -- no device gets an owner while the devices are looked up
  have hkeep : Program.Keeps (usbExec pf i) (UsbRely i) (fun s _ _ s' => UsbGuar i s s')
      (Told (· = "")) Cmd.Quiet
      fun s => AtLock true i s ∧ ∀ id u, Lists s id u → Lists s₂ id u :=
    keeps_inside fun _ _ hlists h id u hid => h id u (hlists id u hid)
  refine (Program.carried_confined hkeep (confined_call .usbDevices)).wp_bind ?_ (fun _ _ h => h.1)
    ⟨hs₁, fun _ _ h => h⟩
  rintro devices - s₃ ⟨hs₃, hlists⟩
  refine Program.wp_lift.mpr ⟨?_, fun _ _ => hs₃⟩
  rintro err herr
  refine ⟨hs₃, ?_⟩
  rintro rfl
  have hids : ∀ id u, Lists s₂ id u → id ≠ "" := by
    rintro id u ⟨r, hr, rfl, -⟩
    exact (hs₁.sane.clear.live r hr).id
  have hfree := judgeDevice_free hs₁.sane.exclusive hids hmap herr
  refine Attachable.mono (s := s₂) ?_ hlists
  intro w hw
  rw [List.mem_singleton.mp hw]
  exact hfree

theorem inside_unattachable {requesting : Option String} {devices : List Json}
    (hs : AtLock true i s) :
    Inside pf i (fun err s => err = none → Attachable requesting devices s)
      (unattachable pf requesting devices) s := by
  induction devices generalizing s with
  | nil =>
    refine ⟨hs, fun _ v hv => ?_⟩
    cases hv
  | cons v devices ih =>
    refine (Program.wp_bind _ _).mpr (Program.wp_mono ?_ (fun _ _ h => h)
      (inside_validateAttachable requesting v hs))
    rintro err s₁ ⟨hs₁, herr⟩
    cases err with
    | some e => exact ⟨hs₁, fun h => by cases h⟩
    | none =>
      -- this device stays free while the rest of them is checked
      have hkeep : Program.Keeps (usbExec pf i) (UsbRely i) (fun s _ _ s' => UsbGuar i s s')
          (Told (· = "")) Cmd.Quiet fun s => AtLock true i s ∧ Attachable requesting [v] s :=
        keeps_inside fun _ _ hlists h => h.mono hlists
      have hstays := Program.carried_confined hkeep (@confined_unattachable pf requesting devices) s₁
        ⟨hs₁, herr rfl⟩
      refine Program.wp_mono ?_ (fun _ _ h => h.1) (Program.wp_and (ih hs₁) hstays)
      rintro err s₂ ⟨⟨hs₂, hrest⟩, -, -, hfirst⟩
      refine ⟨hs₂, fun hnone => ?_⟩
      intro w hw
      rcases List.mem_cons.mp hw with rfl | hw
      · exact hfirst w (List.mem_singleton_self w)
      · exact hrest hnone w hw

/-- A row may be written under the lock if its devices are free or its own. -/
theorem sane_claim {o : Instance Json Json} {a : Except Raised Unit} (hs : Sane s)
    (ho : Foreign (· = "") o) (hfree : ∀ u id, Holds o.usbDeviceIds u → Lists s id u → id = o.id)
    (hx : exec pf i s (.put .inst o) a s') : Sane s' := by
  refine ⟨?_, hs.clear.step hx (not_not_intro ho)⟩
  intro u id id' hid hid'
  rcases lists_step hx hid with hid | ⟨o₁, ho₁, rfl, hu⟩
  · rcases lists_step hx hid' with hid' | ⟨o₂, ho₂, rfl, hu⟩
    · exact hs.exclusive u id id' hid hid'
    · cases ho₂
      exact hfree u id hu hid
  · cases ho₁
    rcases lists_step hx hid' with hid' | ⟨o₂, ho₂, rfl, -⟩
    · exact (hfree u id' hu hid').symm
    · cases ho₂
      rfl

/-- Claiming the devices of a row that have been checked. -/
theorem inside_put {o : Instance Json Json} {requesting : Option String} {devices : List Json}
    (hitems : items o.usbDeviceIds = .ok devices) (ho : Foreign (· = "") o)
    (hown : ∀ id, some id = requesting → id = o.id) {α : Type} {A : α → Prop}
    {f : Unit → Action α} (hf : ∀ s, AtLock true i s → Inside pf i (fun a _ => A a) (f ()) s)
    (hs : AtLock true i s ∧ Attachable requesting devices s) :
    Inside pf i (fun a _ => A a) (Store.put (k := .inst) o >>= f) s := by
  intro s₁ hR a s₂ hx
  have hs₁ : AtLock true i s₁ := hs.1.stable hR
  have hfree₁ : Attachable requesting devices s₁ := hs.2.mono (hR.lists (hs.1.lock.mpr rfl))
  have hfree : ∀ u id, Holds o.usbDeviceIds u → Lists s₁ id u → id = o.id := by
    rintro u id ⟨l, hl, hu⟩ hid
    rw [hitems] at hl
    cases hl
    obtain ⟨w, hw, hfree⟩ := hfree₁ _ hu
    cases hw
    exact hown id (hfree id hid)
  have hlock : s₂.usbLock = s₁.usbLock := usbLock_step hx.1 (fun h => by cases h) fun h => by cases h
  have hsane : Sane s₁ → Sane s₂ := fun h => sane_claim h ho hfree hx.1
  have hs₂ : AtLock true i s₂ := ⟨hsane hs₁.sane, by rw [hlock]; exact hs₁.lock⟩
  refine ⟨⟨hsane, fun j _ => by rw [hlock], fun hn => absurd (hs₁.lock.mpr rfl) hn⟩, ?_⟩
  refine (Program.wp_bind (Program.lift a) f).mpr (Program.wp_lift.mpr ⟨?_, fun _ _ => hs₂⟩)
  intro _ _
  exact hf s₂ hs₂

theorem inside_insertInstance {name : String} {body : Fields} {users : List User}
    (hs : AtLock true i s) :
    Inside pf i (fun r _ => ∀ j, r = .ok j → Foreign (· = "") j)
      (insertInstance pf name body users) s := by
  refine (Program.wp_bind (Program.lift _) _).mpr (Program.wp_lift.mpr ⟨?_, fun _ _ => hs⟩)
  intro devices hdevices
  refine (Program.wp_bind _ _).mpr (Program.wp_mono ?_ (fun _ _ h => h) (inside_unattachable hs))
  rintro err s₁ ⟨hs₁, herr⟩
  cases err with
  | some e => exact ⟨hs₁, fun _ h => by cases h⟩
  | none =>
    have hkeep : Program.Keeps (usbExec pf i) (UsbRely i) (fun s _ _ s' => UsbGuar i s s')
        (Told (· = "")) Cmd.Quiet fun s => AtLock true i s ∧ Attachable none devices s :=
      keeps_inside fun _ _ hlists h => h.mono hlists
    refine (Program.carried_confined hkeep (confined_call _)).wp_bind ?_ (fun _ _ h => h.1)
      ⟨hs₁, herr rfl⟩
    intro sshUser _ s₂ hs₂
    have hid : (Store.newId).Carried (usbExec pf i) (UsbRely i) (fun s _ _ s' => UsbGuar i s s')
        (fun s => AtLock true i s ∧ Attachable none devices s) fun id => id ≠ "" :=
      Program.carried_call hkeep trivial fun id hid => Program.carried_ret hid
    refine hid.wp_bind ?_ (fun _ _ h => h.1) hs₂
    intro id hid s₃ hs₃
    have hnow : (Store.nowIso).Carried (usbExec pf i) (UsbRely i)
        (fun s _ _ s' => UsbGuar i s s')
        (fun s => AtLock true i s ∧ Attachable none devices s) fun _ => True :=
      Program.carried_call hkeep trivial fun _ _ => Program.carried_ret trivial
    refine hnow.wp_bind ?_ (fun _ _ h => h.1) hs₃
    intro now _ s₄ hs₄
    have hnew : Foreign (· = "") (newInstance name body users sshUser id now) := ⟨hid, rfl⟩
    refine inside_put (A := fun r : Except String (Instance Json Json) =>
      ∀ j, r = .ok j → Foreign (· = "") j) hdevices hnew ?_ ?_ hs₄
    · exact fun _ h => by cases h
    · intro s hs
      refine ⟨hs, ?_⟩
      rintro j ⟨⟩
      exact hnew

theorem inside_claimDevices {o : Instance Json Json} (ho : Foreign (· = "") o) {newIds : Json}
    (hs : AtLock true i s) :
    Inside pf i (fun _ _ => True) (claimDevices pf o newIds) s := by
  refine (Program.wp_bind (Program.lift _) _).mpr (Program.wp_lift.mpr ⟨?_, fun _ _ => hs⟩)
  intro devices hdevices
  refine (Program.wp_bind _ _).mpr (Program.wp_mono ?_ (fun _ _ h => h) (inside_unattachable hs))
  rintro err s₁ ⟨hs₁, herr⟩
  cases err with
  | some e => exact ⟨hs₁, trivial⟩
  | none =>
    refine (Program.wp_bind (Program.lift _) _).mpr (Program.wp_lift.mpr ⟨?_, fun _ _ => hs₁⟩)
    intro old _
    refine (Program.wp_bind (Program.lift _) _).mpr (Program.wp_lift.mpr ⟨?_, fun _ _ => hs₁⟩)
    intro new _
    refine inside_put (o := { o with usbDeviceIds := newIds }) (A := fun _ => True) hdevices
      ⟨ho.id, ho.hostId⟩ ?_ ?_ ⟨hs₁, herr rfl⟩
    · rintro id ⟨⟩
      rfl
    · exact fun s hs => ⟨hs, trivial⟩

/-- Taking and giving back the lock. -/
theorem carried_underLock {α : Type} {A : α → Prop} {body : Action α}
    (hbody : ∀ s, AtLock true i s → Inside pf i (fun a _ => A a) body s) :
    (withUsbLock body).Carried (usbExec pf i) (UsbRely i) (fun s _ _ s' => UsbGuar i s s')
      (AtLock false i) A := by
  refine carried_withUsbLock (K := AtLock true i) ?_ ?_ fun s hs => ?_
  · rintro s s₁ s₂ hR hs ⟨⟨hfree, rfl⟩, -⟩
    have hs₁ : AtLock false i s₁ := hs.stable hR
    refine ⟨⟨fun h => ⟨h.exclusive, h.clear.live, h.clear.launches⟩, ?_, fun _ _ _ h => h⟩, ?_⟩
    · intro j hj
      rw [hfree]
      exact ⟨fun h => absurd h (Option.some_ne_none j).symm, fun h => absurd (Option.some.inj h).symm hj⟩
    · exact ⟨⟨hs₁.sane.exclusive, hs₁.sane.clear.live, hs₁.sane.clear.launches⟩, by simp⟩
  · rintro s s₁ s₂ hR hs ⟨rfl, -⟩
    have hs₁ : AtLock true i s₁ := hs.stable hR
    have hheld : s₁.usbLock = some i := hs₁.lock.mpr rfl
    refine ⟨⟨fun h => ⟨h.exclusive, h.clear.live, h.clear.launches⟩, ?_, ?_⟩, ?_⟩
    · intro j hj
      rw [hheld]
      exact ⟨fun h => absurd (Option.some.inj h).symm hj, fun h => by cases h⟩
    · exact fun hn => absurd hheld hn
    · exact ⟨⟨hs₁.sane.exclusive, hs₁.sane.clear.live, hs₁.sane.clear.launches⟩, by simp⟩
  · exact Program.wp_mono (fun _ _ h => ⟨h.2, h.1⟩) (fun _ _ h => h) (hbody s hs)

theorem usbRegion_locked : UsbRegion (usbExec pf i) (UsbRely i) (fun s _ _ s' => UsbGuar i s s')
    (AtLock false i) (· = "") pf where
  insert _ _ _ := carried_underLock fun _ => inside_insertInstance
  claim _ _ hi := carried_underLock fun _ => inside_claimDevices hi

/-- **Every operation, started outside the lock, ends outside the lock.** -/
theorem carried_usb {op : InstanceOp} (hop : op.Local) :
    (op.handle pf peers).Carried (usbExec pf i) (UsbRely i) (fun s _ _ s' => UsbGuar i s s')
      (AtLock false i) fun _ => True := by
  by_cases hdel : ∃ id, op = .delete id
  · obtain ⟨id, rfl⟩ := hdel
    have hkeep : Program.Keeps (usbExec pf i) (UsbRely i) (fun s _ _ s' => UsbGuar i s s')
        (Told (· = "")) Cmd.Quiet (AtLock false i) :=
      ⟨fun _ _ h hs => hs.stable h, fun _ _ _ _ hs hx => told_usbExec hs.sane hx,
        fun s c a s' hs hx hc => keeps_outside.step s c a s' hs hx (plain_of_quiet hc)⟩
    refine carried_deleteInstance hkeep ?_
    intro s a s' hs hx
    have hfree : s.usbLock ≠ some i := fun h => Bool.false_ne_true (hs.lock.mp h)
    have hG : UsbGuar i s s' := guar_of_lists hx.1 (fun h => by cases h) (fun h => by cases h)
      (fun h => h) (lists_of_faithful hx hfree)
    refine ⟨hG, hG.sane hs.sane, ?_⟩
    rw [usbLock_step hx.1 (fun h => by cases h) fun h => by cases h]
    exact hs.lock
  · exact carried_handle keeps_outside usbRegion_locked hop fun id h => hdel ⟨id, h⟩

/-! ### Runs -/

section Runs

variable [DecidableEq ι]

/-- The requests on instances come at any time; ids are not empty. -/
def usbRequests (pf : Platform) (peers : Peers) (x : Config Commands Raised Reply ι (State ι))
    (m : Move Commands Raised Reply ι) : Prop :=
  instanceRequests pf peers x m ∧ ∀ i c a, m = .call i c a → Named c a

/-- No handler brings back a device the stored row does not list. -/
def usbFaithful (pf : Platform) (peers : Peers) (x : Config Commands Raised Reply ι (State ι))
    (m : Move Commands Raised Reply ι) : Prop :=
  usbRequests pf peers x m ∧ ∀ i c a, m = .call i c a → Faithful i x.shared c

/-- The move does not claim the device for the instance. -/
def Unclaimed (id u : String) (x : Config Commands Raised Reply ι (State ι))
    (m : Move Commands Raised Reply ι) : Prop :=
  ∀ i (o : Instance Json Json) a, m = .call i (.put .inst o) a → x.shared.usbLock = some i →
    o.id = id → ¬ Holds o.usbDeviceIds u

/-- The rely-guarantee proof. -/
def usbOutline (pf : Platform) (peers : Peers) :
    Outline (fun i : ι => exec pf i) (usbFaithful pf peers) where
  rely := UsbRely
  guar i s _ _ s' := UsbGuar i s s'
  idle := AtLock false
  post i _ := AtLock false i
  fail i _ := AtLock false i
  sem := usbExec pf
  sem_of_ok _ _ _ _ _ hok hx := ⟨hx, hok.2 _ _ _ rfl, hok.1.2 _ _ _ rfl⟩
  rely_refl _ _ := ⟨id, Iff.rfl, fun _ _ _ => id⟩
  rely_trans _ _ _ _ h h' := ⟨fun hs => h'.sane (h.sane hs), h.lock.trans h'.lock,
    fun hl id u hu => h.lists hl id u (h'.lists (h.lock.mp hl) id u hu)⟩
  rely_of_guar i j hj s _ _ s' h := by
    refine ⟨h.sane, h.lock j hj, ?_⟩
    intro hl
    refine h.lists ?_
    rw [hl]
    exact fun heq => hj (Option.some.inj heq)
  idle_stable _ _ _ h hs := hs.stable h
  post_stable _ _ _ _ h hs := hs.stable h
  fail_stable _ _ _ _ h hs := hs.stable h
  start x i p hok hs := by
    obtain ⟨op, hop, rfl⟩ := hok.1.1
    exact Program.wp_mono (fun _ _ h => h.2) (fun _ _ h => h) (carried_usb hop x.shared hs)
  ret _ _ _ _ h := h
  raise _ _ _ _ h := h
  kill _ _ _ hok _ _ := hok.1.1.elim

/-- **Devices are exclusive while writes outside the lock add none,** and a device
comes to an instance by a claim only. -/
theorem usb_exclusive {y : Config Commands Raised Reply ι (State ι)}
    (h : Reaches (exec pf) (usbFaithful pf peers) (.idle .empty) y) :
    Exclusive y.shared ∧ ∀ id u z, ¬ Lists y.shared id u →
      Reaches (exec pf) (fun x m => usbFaithful pf peers x m ∧ Unclaimed id u x m) y z →
        ¬ Lists z.shared id u := by
  refine ⟨?_, ?_⟩
  · have hempty : Sane (State.empty : State ι) := by
      refine ⟨?_, ⟨fun _ h => (List.not_mem_nil h).elim, fun _ h => (List.not_mem_nil h).elim⟩⟩
      rintro u id id' ⟨r, hr, -⟩
      exact (List.not_mem_nil hr).elim
    have hidle : (usbOutline pf peers).Verified (.idle (.empty : State ι)) :=
      fun i => ⟨hempty, iff_of_false (fun h => by cases h) Bool.false_ne_true⟩
    exact ((usbOutline pf peers).invariant (I := Sane) (fun _ _ _ _ _ hG => hG.sane) h hidle
      hempty).2.exclusive
  · intro id u z hy hz
    refine hz.invariant (I := fun z => ¬ Lists z.shared id u) ?_ hy
    rintro x m z hx ⟨hok, hunclaimed⟩ hs
    cases hs with
    | @call i c k a s ht hexec =>
      intro hlists
      rcases lists_step hexec hlists with hlists | ⟨o, rfl, rfl, hu⟩
      · exact hx hlists
      · by_cases hlock : x.shared.usbLock = some i
        · exact hunclaimed i o a rfl hlock rfl hu
        · exact hx (hok.2 i _ a rfl hlock u hu)
    | _ => exact hx

end Runs

/-! ### Two runs -/

/-- A device that is plugged in. -/
def adapter : Json := .str "0bda:8812"

theorem named_of_respondEach {ids : List String} (hids : ∀ id ∈ ids, id ≠ "") {i : Bool}
    {s s' : State Bool} {c : Commands.Cmd} {a : Commands.Ans c}
    (h : respondEach ids i s c = some (a, s')) : Named c a := by
  cases c with
  | newId =>
    obtain ⟨id, hfind, heq⟩ := Option.map_eq_some_iff.mp h
    cases heq
    exact hids a (List.mem_of_find?_eq_some hfind)
  | _ => trivial

theorem usbRequests_of_schedule {ids : List String} (hids : ∀ id ∈ ids, id ≠ "")
    {l : List (Turn Commands Raised Reply Bool)}
    {x y : Config Commands Raised Reply Bool (State Bool)}
    (hstart : ∀ i p, Turn.start i p ∈ l →
      ∃ op : InstanceOp, op.Local ∧ p = op.handle plainPlatform noPeers)
    (h : Config.play (respondEach ids) l x = some y) :
    Reaches (exec plainPlatform) (usbRequests plainPlatform noPeers) x y := by
  refine reaches_of_play ?_ (fun _ _ _ => ⟨trivial, fun _ _ _ hm => by cases hm⟩) ?_ h
  · intro i x c a s hx
    refine ⟨exec_of_respondEach hx, trivial, ?_⟩
    rintro _ _ _ ⟨⟩
    exact named_of_respondEach hids hx
  · intro i p hp x
    exact ⟨hstart i p hp, fun _ _ _ hm => by cases hm⟩

/-- The devices in a value. -/
def devices (v : Json) : List String :=
  match items v with
  | .ok l => l.filterMap fun
    | .str u => some u
    | _ => none
  | .error _ => []

theorem holds_iff {v : Json} {u : String} : Holds v u ↔ u ∈ devices v := by
  unfold Holds devices
  cases items v with
  | error e => exact iff_of_false (fun ⟨_, hl, _⟩ => nomatch hl) List.not_mem_nil
  | ok l =>
    rw [List.mem_filterMap]
    constructor
    · rintro ⟨_, ⟨⟩, hu⟩
      exact ⟨.str u, hu, rfl⟩
    · rintro ⟨w, hw, hu⟩
      split at hu
      · cases hu
        exact ⟨l, rfl, hw⟩
      · cases hu

instance (v : Json) (u : String) : Decidable (Holds v u) := decidable_of_iff _ holds_iff.symm

instance (s : State ι) (id u : String) : Decidable (Lists s id u) :=
  inferInstanceAs (Decidable (∃ r ∈ (s.table .inst).live, Instance.id r = id ∧ _))

/-- The commands of a schedule in which an instance is written under the lock, if it may claim devices, or
with no device that it does not have. -/
def respondFaithful (ids : List String) (may : String → Bool) (i : Bool) (s : State Bool)
    (c : Commands.Cmd) : Option (Commands.Ans c × State Bool) :=
  match c with
  | .put .inst o =>
    if if s.usbLock = some i then may (Instance.id o) = true
      else ∀ u ∈ devices (Instance.usbDeviceIds o), Lists s (Instance.id o) u then
        respondEach ids i s (.put .inst o)
    else none
  | c => respondEach ids i s c

theorem faithful_of_respondFaithful {ids : List String} {may : String → Bool} {i : Bool}
    {s s' : State Bool} {c : Commands.Cmd} {a : Commands.Ans c}
    (h : respondFaithful ids may i s c = some (a, s')) :
    respondEach ids i s c = some (a, s') ∧ Faithful i s c ∧
      ∀ o, c = .put .inst o → s.usbLock = some i → may (Instance.id o) = true := by
  unfold respondFaithful at h
  split at h
  next o =>
    rw [Option.ite_none_right_eq_some] at h
    obtain ⟨hcheck, h⟩ := h
    refine ⟨h, fun hlock u hu => ?_, ?_⟩
    · rw [if_neg hlock] at hcheck
      exact hcheck u (holds_iff.mp hu)
    · rintro _ ⟨⟩ hlock
      rwa [if_pos hlock] at hcheck
  next hput =>
    refine ⟨h, ?_, fun o heq => (hput o heq).elim⟩
    unfold Faithful
    split
    next o => exact absurd rfl (hput o)
    next => trivial

/-- Such a schedule is a run in which no other instance claims a device. -/
theorem usbFaithful_of_schedule {ids : List String} (hids : ∀ id ∈ ids, id ≠ "") {may : String → Bool}
    {l : List (Turn Commands Raised Reply Bool)}
    {x y : Config Commands Raised Reply Bool (State Bool)}
    (hstart : ∀ i p, Turn.start i p ∈ l →
      ∃ op : InstanceOp, op.Local ∧ p = op.handle plainPlatform noPeers)
    (h : Config.play (respondFaithful ids may) l x = some y) :
    Reaches (exec plainPlatform) (fun x m => usbFaithful plainPlatform noPeers x m ∧
      ∀ id u, may id = false → Unclaimed id u x m) x y := by
  refine reaches_of_play ?_ ?_ ?_ h
  · intro i x c a s hx
    obtain ⟨hx, hfaithful, hmay⟩ := faithful_of_respondFaithful hx
    refine ⟨exec_of_respondEach hx, ⟨⟨trivial, ?_⟩, ?_⟩, ?_⟩
    · rintro _ _ _ ⟨⟩
      exact named_of_respondEach hids hx
    · rintro _ _ _ ⟨⟩
      exact hfaithful
    · rintro id u hnot _ o _ ⟨⟩ hlock rfl
      exact absurd (hmay o rfl hlock) (Bool.eq_false_iff.mp hnot)
  · exact fun _ _ _ => ⟨⟨⟨trivial, fun _ _ _ hm => by cases hm⟩, fun _ _ _ hm => by cases hm⟩,
      fun _ _ _ _ _ _ hm => by cases hm⟩
  · intro i p hp x
    exact ⟨⟨⟨hstart i p hp, fun _ _ _ hm => by cases hm⟩, fun _ _ _ hm => by cases hm⟩,
      fun _ _ _ _ _ _ hm => by cases hm⟩

/-- Requests that are handled one after the other. -/
def requests (l : List (Bool × InstanceOp × ℕ)) : List (Turn Commands Raised Reply Bool) :=
  l.flatMap fun (i, op, n) => request i op n

theorem start_mem_requests {l : List (Bool × InstanceOp × ℕ)} (hl : ∀ t ∈ l, t.2.1.Local) {i : Bool}
    {p : Handler} (h : Turn.start i p ∈ requests l) :
    ∃ op : InstanceOp, op.Local ∧ p = op.handle plainPlatform noPeers := by
  obtain ⟨t, ht, h⟩ := List.mem_flatMap.mp h
  exact ⟨t.2.1, hl t ht, start_mem_request h⟩

/-- An instance is created with the device. -/
def creation (name : String) : Bool × InstanceOp × ℕ := (false, .create (instanceBody name [adapter]), 12)

/-- The first instance gives the device up. -/
def detachment : Bool × InstanceOp × ℕ :=
  (false, .update "a" (some (.obj [("usb_device_ids", .arr [])])), 5)

/-- A user is added to it. -/
def addition (n : ℕ) : Bool × InstanceOp × ℕ := (true, .addUser "a" (bodyOf [("username", "u")]), n)

theorem local_creation (name : String) : (creation name).2.1.Local := local_instanceBody name [adapter]

/-- A device goes from one instance to another, after a user was added to the first. -/
theorem usb_exclusive_given : ∃ y : Config Commands Raised Reply Bool (State Bool),
    Lists y.shared "b" "0bda:8812" ∧ Exclusive y.shared ∧ ¬ Lists y.shared "a" "0bda:8812" := by
  have hrun : ((Config.play (respondFaithful ["a"] fun _ => true)
      (requests [creation "x", addition 3, detachment]) (.idle .empty)).bind fun x =>
        (Config.play (respondFaithful ["a", "b"] (· != "a")) (requests [creation "y"]) x).map fun y =>
          (x, y)).any (fun (x, y) => decide (¬ Lists x.shared "a" "0bda:8812") &&
            decide (Lists y.shared "b" "0bda:8812")) = true := by
    decide
  obtain ⟨⟨x, y⟩, hplay, hends⟩ := (Option.any_eq_true ..).mp hrun
  obtain ⟨x', hx, hy⟩ := Option.bind_eq_some_iff.mp hplay
  obtain ⟨y', hy, heq⟩ := Option.map_eq_some_iff.mp hy
  cases heq
  obtain ⟨hfree, hgiven⟩ := Bool.and_eq_true_iff.mp hends
  have hlocal : ∀ t ∈ [creation "x", addition 3, detachment], t.2.1.Local := by
    simpa using ⟨local_creation "x", trivial, trivial⟩
  have hlocal' : ∀ t ∈ [creation "y"], t.2.1.Local := by simpa using local_creation "y"
  have hx := usbFaithful_of_schedule (by decide) (fun _ _ h => start_mem_requests hlocal h) hx
  have hy := usbFaithful_of_schedule (by decide) (fun _ _ h => start_mem_requests hlocal' h) hy
  have hx := hx.mono fun _ _ h => h.1
  exact ⟨y, of_decide_eq_true hgiven, (usb_exclusive (hx.trans (hy.mono fun _ _ h => h.1))).1,
    (usb_exclusive hx).2 "a" _ y (of_decide_eq_true hfree) (hy.mono fun _ _ h => ⟨h.1, h.2 "a" _ rfl⟩)⟩

/-- A device is given from one instance to another while a user is added to the first. -/
def givenAway : List (Turn Commands Raised Reply Bool) :=
  requests [creation "x", addition 1, detachment, creation "y"] ++ List.replicate 2 (.go true)

theorem start_mem_givenAway {i : Bool} {p : Handler} (h : Turn.start i p ∈ givenAway) :
    ∃ op : InstanceOp, op.Local ∧ p = op.handle plainPlatform noPeers := by
  rcases List.mem_append.mp h with h | h
  · have hlocal : ∀ t ∈ [creation "x", addition 1, detachment, creation "y"], t.2.1.Local := by
      simpa using ⟨local_creation "x", trivial, trivial, local_creation "y"⟩
    exact start_mem_requests hlocal h
  · cases List.eq_of_mem_replicate h

/-- A handler brings back a device that has been given away. -/
theorem attached_twice :
    ¬ ∀ y : Config Commands Raised Reply Bool (State Bool),
      Reaches (exec plainPlatform) (usbRequests plainPlatform noPeers) (.idle .empty) y →
        Exclusive y.shared := by
  intro hall
  have hrun : (Config.play (respondEach ["a", "b"]) givenAway (.idle .empty)).any
      (fun y => decide (Lists y.shared "a" "0bda:8812" ∧ Lists y.shared "b" "0bda:8812")) = true := by
    decide
  obtain ⟨y, hy, hlisted⟩ := (Option.any_eq_true ..).mp hrun
  obtain ⟨ha, hb⟩ := of_decide_eq_true hlisted
  have hexclusive : Exclusive y.shared :=
    hall y (usbRequests_of_schedule (by decide) (fun _ _ h => start_mem_givenAway h) hy)
  exact absurd (hexclusive _ _ _ ha hb) (by decide)

end Api
end CloudCore
