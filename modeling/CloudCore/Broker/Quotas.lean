import CloudCore.Broker.Untracked

/-!
# The quotas of lab VMs

The broker counts the machines before it calls CloudCore, and inserts the row of
the new one after several such calls.  It holds `_lock` from the count to the
insert, and only `create_lab_vm` inserts; all that the others do to the table in
between is to mark rows deleted, which makes room.

## Main definitions

* `Within` — the rows with `deleted_at` NULL are within the quotas.
* `Kept` — every deleted row is still there, deleted at the same time.
* `Operation` — what the threads run.
* `Lifetime` — the tables the processes of a host leave behind, one after the other.

## Main results

* `guar_of_quiet` — a command other than the insert makes no new live row.
* `quotas_kept` — **whatever the operations running at once and CloudCore's
  answers, the quotas hold, and no row's `deleted_at` is cleared.**
-/

namespace CloudCore
namespace Broker

open Python Effect

/-! ### Counting -/

/-- The rows with `deleted_at` NULL are within the quotas. -/
structure Within (rows : List LabVm) : Prop where
  active : (live rows).length ≤ maxActive
  student : ofPurpose .student (live rows) ≤ maxStudent
  lfsBuild : ofPurpose .lfsBuild (live rows) ≤ maxLfsBuild

/-- There is room for one more machine. -/
structure Room (purpose : Purpose) (rows : List LabVm) : Prop where
  active : (live rows).length < maxActive
  student : purpose = .student → ofPurpose .student (live rows) < maxStudent
  lfsBuild : purpose = .lfsBuild → ofPurpose .lfsBuild (live rows) < maxLfsBuild

/-- No more live rows, of any purpose. -/
structure Fewer (rows rows' : List LabVm) : Prop where
  active : (live rows').length ≤ (live rows).length
  purpose : ∀ p, ofPurpose p (live rows') ≤ ofPurpose p (live rows)

theorem Fewer.refl (rows : List LabVm) : Fewer rows rows := ⟨Nat.le_refl _, fun _ => Nat.le_refl _⟩

theorem Fewer.trans {a b c : List LabVm} (hab : Fewer a b) (hbc : Fewer b c) : Fewer a c :=
  ⟨hbc.active.trans hab.active, fun p => (hbc.purpose p).trans (hab.purpose p)⟩

theorem Within.fewer {rows rows' : List LabVm} (h : Within rows) (hf : Fewer rows rows') :
    Within rows' where
  active := hf.active.trans h.active
  student := (hf.purpose .student).trans h.student
  lfsBuild := (hf.purpose .lfsBuild).trans h.lfsBuild

theorem Room.fewer {p : Purpose} {rows rows' : List LabVm} (h : Room p rows)
    (hf : Fewer rows rows') : Room p rows' where
  active := hf.active.trans_lt h.active
  student hp := (hf.purpose .student).trans_lt (h.student hp)
  lfsBuild hp := (hf.purpose .lfsBuild).trans_lt (h.lfsBuild hp)

/-- What the checks of `create_lab_vm` establish. -/
theorem room_of_refusal {p : Purpose} {rows : List LabVm} (h : refusal p (live rows) = none) :
    Room p rows := by
  unfold refusal at h
  split at h
  · cases h
  · next hactive =>
    split at h
    · cases h
    · next hstudent =>
      split at h
      · cases h
      · next hlfs =>
        refine ⟨Nat.lt_of_not_le hactive, ?_, ?_⟩
        · intro hp
          exact Nat.lt_of_not_le fun hle => hstudent ⟨hp, hle⟩
        · intro hp
          exact Nat.lt_of_not_le fun hle => hlfs ⟨hp, hle⟩

/-- A machine that there is room for keeps the quotas. -/
theorem Within.append {rows : List LabVm} {r : LabVm} (h : Within rows) (hr : Room r.purpose rows) :
    Within (rows ++ [r]) := by
  have hlive : live (rows ++ [r]) = live rows ++ live [r] := List.filter_append ..
  have hlen : (live [r]).length ≤ 1 := List.length_filter_le ..
  -- the new row counts for its own purpose only
  have hcount (p : Purpose) : ofPurpose p (live [r]) ≤ if r.purpose = p then 1 else 0 := by
    split
    · exact (List.countP_le_length).trans hlen
    · next hp =>
      refine (List.countP_eq_zero.mpr ?_).le
      intro r' hr' heq
      rw [List.mem_singleton.mp (List.mem_filter.mp hr').1] at heq
      exact hp (of_decide_eq_true heq)
  have hpurpose (p : Purpose) : ofPurpose p (live (rows ++ [r])) =
      ofPurpose p (live rows) + ofPurpose p (live [r]) := by
    rw [hlive]
    exact List.countP_append ..
  refine ⟨?_, ?_, ?_⟩
  · rw [hlive, List.length_append]
    have hroom := hr.active
    omega
  · rw [hpurpose]
    have hnew := hcount .student
    have hold := h.student
    by_cases hp : r.purpose = .student
    · rw [if_pos hp] at hnew
      have hroom := hr.student hp
      omega
    · rw [if_neg hp] at hnew
      omega
  · rw [hpurpose]
    have hnew := hcount .lfsBuild
    have hold := h.lfsBuild
    by_cases hp : r.purpose = .lfsBuild
    · rw [if_pos hp] at hnew
      have hroom := hr.lfsBuild hp
      omega
    · rw [if_neg hp] at hnew
      omega

/-- Every deleted row is still there, deleted at the same time. -/
def Kept (rows rows' : List LabVm) : Prop :=
  ∀ (n : ℕ) (r : LabVm), rows[n]? = some r → ∃ r', rows'[n]? = some r' ∧ r'.id = r.id ∧
    (r.deletedAt.isSome = true → r'.deletedAt = r.deletedAt)

theorem Kept.refl (rows : List LabVm) : Kept rows rows := fun _ r h => ⟨r, h, rfl, fun _ => rfl⟩

theorem Kept.trans {a b c : List LabVm} (hab : Kept a b) (hbc : Kept b c) : Kept a c := by
  intro n r h
  obtain ⟨r₁, h₁, hid₁, hd₁⟩ := hab n r h
  obtain ⟨r₂, h₂, hid₂, hd₂⟩ := hbc n r₁ h₁
  refine ⟨r₂, h₂, hid₂.trans hid₁, ?_⟩
  intro hr
  rw [hd₂ (by rw [hd₁ hr]; exact hr), hd₁ hr]

/-- The update leaves id and purpose alone, and does not touch `deleted_at` once set. -/
structure Mild (f : LabVm → LabVm) : Prop where
  id : ∀ r, (f r).id = r.id
  purpose : ∀ r, (f r).purpose = r.purpose
  deletedAt : ∀ r, r.deletedAt.isSome = true → (f r).deletedAt = r.deletedAt

theorem mild_touch (now : String) : Mild ({ · with lastTouchAt := now }) :=
  ⟨fun _ => rfl, fun _ => rfl, fun _ _ => rfl⟩

theorem mild_markDeleted (now reason : String) : Mild (markDeleted now reason) := by
  refine ⟨?_, ?_, ?_⟩
  · intro r
    unfold markDeleted
    split <;> rfl
  · intro r
    unfold markDeleted
    split <;> rfl
  · intro r hr
    unfold markDeleted
    rw [if_neg]
    cases hd : r.deletedAt with
    | none => rw [hd] at hr; cases hr
    | some d => exact Bool.false_ne_true

theorem mild_ite {f : LabVm → LabVm} (hf : Mild f) (b : LabVm → Bool) :
    Mild fun r => if b r then f r else r := by
  refine ⟨?_, ?_, ?_⟩
  · intro r
    split
    · exact hf.id r
    · rfl
  · intro r
    split
    · exact hf.purpose r
    · rfl
  · intro r hr
    split
    · exact hf.deletedAt r hr
    · rfl

/-- A mild update makes no row live. -/
theorem Mild.live {f : LabVm → LabVm} (hf : Mild f) {r : LabVm}
    (h : (f r).deletedAt.isNone = true) : r.deletedAt.isNone = true := by
  cases hd : r.deletedAt with
  | none => rfl
  | some d =>
    rw [hf.deletedAt r (by rw [hd]; rfl), hd] at h
    cases h

theorem fewer_map {f : LabVm → LabVm} (hf : Mild f) (rows : List LabVm) :
    Fewer rows (rows.map f) := by
  constructor
  · rw [Broker.live, Broker.live, ← List.countP_eq_length_filter, ← List.countP_eq_length_filter,
      List.countP_map]
    exact List.countP_mono_left fun r _ h => hf.live h
  · intro p
    rw [ofPurpose, ofPurpose, Broker.live, Broker.live, List.countP_filter, List.countP_filter,
      List.countP_map]
    refine List.countP_mono_left fun r _ h => ?_
    simp only [Function.comp, Bool.and_eq_true, hf.purpose] at h ⊢
    exact ⟨h.1, hf.live h.2⟩

theorem kept_map {f : LabVm → LabVm} (hf : Mild f) (rows : List LabVm) :
    Kept rows (rows.map f) := by
  intro n r h
  refine ⟨f r, ?_, hf.id r, hf.deletedAt r⟩
  rw [List.getElem?_map, h, Option.map_some]

theorem mild_setRows {f : LabVm → LabVm} (hf : Mild f) (id : Option String) (rows : List LabVm) :
    Fewer rows (setRows id f rows) ∧ Kept rows (setRows id f rows) :=
  ⟨fewer_map (mild_ite hf _) rows, kept_map (mild_ite hf _) rows⟩

theorem kept_append (rows : List LabVm) (r : LabVm) : Kept rows (rows ++ [r]) := by
  intro n r' h
  refine ⟨r', ?_, rfl, fun _ => rfl⟩
  rw [List.getElem?_append_left (List.getElem?_eq_some_iff.mp h).1, h]

/-! ### Rely and guarantee -/

variable {ι : Type} [DecidableEq ι]

/-- What thread `i` promises of its steps: the lock stays with whoever has it, who
will find no more machines than before; the quotas and the deleted rows are kept. -/
structure Guar (i : ι) (s s' : State ι) : Prop where
  lock : ∀ j, j ≠ i → (s'.lock = some j ↔ s.lock = some j)
  fewer : ∀ j, j ≠ i → s.lock = some j → Fewer s.rows s'.rows
  within : Within s.rows → Within s'.rows
  kept : Kept s.rows s'.rows

/-- What thread `i` assumes of the others' steps. -/
structure Rely (i : ι) (s s' : State ι) : Prop where
  lock : s'.lock = some i ↔ s.lock = some i
  fewer : s.lock = some i → Fewer s.rows s'.rows

omit [DecidableEq ι] in
theorem Guar.of_fewer {i : ι} {s s' : State ι} (hl : s'.lock = s.lock) (hf : Fewer s.rows s'.rows)
    (hk : Kept s.rows s'.rows) : Guar i s s' where
  lock j _ := by rw [hl]
  fewer _ _ _ := hf
  within h := h.fewer hf
  kept := hk

omit [DecidableEq ι] in
theorem Guar.refl (i : ι) (s : State ι) : Guar i s s := .of_fewer rfl (.refl _) (.refl _)

/-- The command neither takes nor releases the lock, and does not insert. -/
def Quiet : Cmd → Prop
  | .lockAcquire | .lockRelease | .insert _ => False
  | _ => True

theorem quiet_of_reads {c : Cmd} (h : Reads c) : Quiet c := by
  cases c with
  | lockAcquire => cases h
  | lockRelease => cases h
  | insert r => cases h
  | _ => trivial

/-- A command other than the insert makes no new live row. -/
theorem quiet_step {i : ι} {s s' : State ι} {c : Cmd} {a : c.Ans} (hc : Quiet c)
    (h : exec i s c a s') : Fewer s.rows s'.rows ∧ Kept s.rows s'.rows ∧ s'.lock = s.lock := by
  by_cases hreads : Reads c
  · rw [exec_reads hreads h]
    exact ⟨.refl _, .refl _, rfl⟩
  · cases c with
    | api method path body =>
      -- only CloudCore's instances change
      have hsame : s'.rows = s.rows ∧ s'.lock = s.lock := by
        unfold exec apiDoes at h
        dsimp only at h
        split at h
        · rcases h with rfl | ⟨id, -, -, rfl⟩
          · exact ⟨rfl, rfl⟩
          · exact ⟨rfl, rfl⟩
        · rcases h with rfl | rfl
          · exact ⟨rfl, rfl⟩
          · exact ⟨rfl, rfl⟩
        · rw [h]
          exact ⟨rfl, rfl⟩
      rw [hsame.1]
      exact ⟨.refl _, .refl _, hsame.2⟩
    | touch id now =>
      cases a with
      | error e =>
        rw [show s' = s from h]
        exact ⟨.refl _, .refl _, rfl⟩
      | ok u =>
        obtain ⟨hfewer, hkept⟩ := mild_setRows (mild_touch now) (some id) s.rows
        cases h
        exact ⟨hfewer, hkept, rfl⟩
    | setDeleted id now reason =>
      cases a with
      | error e =>
        rw [show s' = s from h]
        exact ⟨.refl _, .refl _, rfl⟩
      | ok u =>
        obtain ⟨hfewer, hkept⟩ := mild_setRows (mild_markDeleted now reason) id s.rows
        cases h
        exact ⟨hfewer, hkept, rfl⟩
    | lockAcquire => cases hc
    | lockRelease => cases hc
    | insert r => cases hc
    | _ => exact absurd trivial hreads

theorem guar_of_quiet {i : ι} {s s' : State ι} {c : Cmd} {a : c.Ans} (hc : Quiet c)
    (h : exec i s c a s') : Guar i s s' := by
  obtain ⟨hfewer, hkept, hlock⟩ := quiet_step hc h
  exact .of_fewer hlock hfewer hkept

/-! ### What each thread knows -/

/-- Thread `i` does not have the lock. -/
def Free (i : ι) (s : State ι) : Prop := s.lock ≠ some i

/-- Thread `i` has the lock. -/
def Locked (i : ι) (s : State ι) : Prop := s.lock = some i

/-- Thread `i` has the lock, and there is room for its machine. -/
def Counted (p : Purpose) (i : ι) (s : State ι) : Prop := s.lock = some i ∧ Room p s.rows

/-- The programs of thread `i`, from a state with `J`. -/
abbrev Holds (i : ι) (J : State ι → Prop) {α : Type} (A : α → Prop) (p : Code α) : Prop :=
  p.Carried (F := sig) (exec i) (Rely i) (fun s _ _ s' => Guar i s s') J A

/-- What quiet commands and the other threads keep. -/
abbrev KeptBy (i : ι) (J : State ι → Prop) : Prop :=
  Program.Keeps (F := sig) (exec i) (Rely i) (fun s _ _ s' => Guar i s s') (fun _ _ => True) Quiet J

theorem keeps_free (i : ι) : KeptBy i (Free i) where
  stable _ _ h hs := fun hl => hs (h.lock.mp hl)
  told _ _ _ _ _ _ := trivial
  step s c a s' hs hx hc := by
    refine ⟨guar_of_quiet hc hx, ?_⟩
    rw [Free, (quiet_step hc hx).2.2]
    exact hs

theorem keeps_counted (p : Purpose) (i : ι) : KeptBy i (Counted p i) where
  stable _ _ h hs := ⟨h.lock.mpr hs.1, hs.2.fewer (h.fewer hs.1)⟩
  told _ _ _ _ _ _ := trivial
  step s c a s' hs hx hc := by
    obtain ⟨hfewer, -, hlock⟩ := quiet_step hc hx
    exact ⟨guar_of_quiet hc hx, hlock.trans hs.1, hs.2.fewer hfewer⟩

variable {pf : Platform}

theorem quiet_of_confined {α : Type} {p : Code α} (h : p.Confined Reads fun _ => True) :
    p.Confined Quiet fun _ => True :=
  Program.confined_mono (fun _ => quiet_of_reads) h

theorem quiet_perform {c : Cmd} (h : Quiet c) : (perform c).Confined Quiet fun _ => True :=
  Program.confined_perform (F := sig) h

theorem quiet_call {method : Verb} {path : Path} {body : Option Json} :
    (call method path body).Confined Quiet fun _ => True :=
  Program.confined_bind (quiet_perform (c := .api method path body) trivial) fun _ _ => quiet_of_confined (reads_lift _)

/-- A program that only reads may come anywhere. -/
theorem holds_reads {i : ι} {J : State ι → Prop} (hJ : KeptBy i J) {α : Type} {p : Code α}
    (h : p.Confined Reads fun _ => True) : Holds i J (fun _ => True) p :=
  Program.carried_confined hJ (quiet_of_confined h)

/-! ### Creating -/

/-- The insert of a row that there is room for. -/
theorem wp_insert {i : ι} {p : Purpose} {r : LabVm} (hp : r.purpose = p) {s : State ι}
    (hs : Counted p i s) :
    (attempt (.insert r) rfl : Code Unit).wp (F := sig) (exec i) (Rely i)
      (fun s _ _ s' => Guar i s s') (fun _ => Locked i) (fun _ => Locked i) s := by
  subst hp
  intro s₁ hR a s₂ hx
  obtain ⟨hlock, hroom⟩ := (keeps_counted r.purpose i).stable s s₁ hR hs
  cases a with
  | error e =>
    cases hx
    exact ⟨.of_fewer rfl (.refl _) (.refl _), hlock⟩
  | ok u =>
    obtain ⟨-, rfl⟩ := hx
    refine ⟨⟨fun _ _ => Iff.rfl, ?_, fun hw => hw.append hroom, kept_append _ _⟩, hlock⟩
    -- no other thread has the lock
    intro j hj hlock'
    rw [hlock, Option.some.injEq] at hlock'
    exact absurd hlock'.symm hj

/-- Whatever the creating call answers, the new row has room. -/
theorem wp_recordVm {i : ι} {wish : Wish} {name flavor : String} {peer : Option String}
    {now : DateTime} {resp : Response} {s : State ι} (hs : Counted wish.purpose i s) :
    (recordVm pf wish name flavor peer now resp).wp (F := sig) (exec i) (Rely i)
      (fun s _ _ s' => Guar i s s') (fun _ => Locked i) (fun _ => Locked i) s := by
  have hJ := keeps_counted wish.purpose i
  have hlift {α : Type} (x : Except Failure α) := holds_reads hJ (reads_lift x)
  unfold recordVm
  refine (hlift _).wp_bind ?_ (fun _ _ h => h.1) hs
  intro resp _ s hs
  dsimp only
  split
  · refine (hlift _).wp_bind ?_ (fun _ _ h => h.1) hs
    exact fun _ _ _ hs => hs.1
  · refine (hlift _).wp_bind ?_ (fun _ _ h => h.1) hs
    intro id _ s hs
    refine (hlift _).wp_bind ?_ (fun _ _ h => h.1) hs
    intro expires _ s hs
    refine (hlift _).wp_bind ?_ (fun _ _ h => h.1) hs
    intro key _ s hs
    exact (Program.wp_bind _ _).mpr (wp_insert rfl hs)

/-- From the count on, the new row has room. -/
theorem wp_place {i : ι} {wish : Wish} {peer : Option String} {flavor : String} {s : State ι}
    (hs : Counted wish.purpose i s) :
    (place pf wish peer flavor).wp (F := sig) (exec i) (Rely i) (fun s _ _ s' => Guar i s s')
      (fun _ => Locked i) (fun _ => Locked i) s := by
  have hJ := keeps_counted wish.purpose i
  unfold place
  refine (holds_reads hJ (reads_networkOrProblem peer)).wp_bind ?_ (fun _ _ h => h.1) hs
  intro ids _ s hs
  cases ids with
  | inl problem => exact hs.1
  | inr ids =>
    obtain ⟨vpcId, subnetId⟩ := ids
    refine (holds_reads hJ (reads_perform (c := .uuid) trivial)).wp_bind ?_ (fun _ _ h => h.1) hs
    intro hex _ s hs
    refine (holds_reads hJ (reads_perform (c := .now) trivial)).wp_bind ?_ (fun _ _ h => h.1) hs
    intro now _ s hs
    refine (Program.carried_confined hJ (quiet_perform (c := .api ..) trivial)).wp_bind ?_
      (fun _ _ h => h.1) hs
    intro resp _ s hs
    exact wp_recordVm hs

theorem wp_active {i : ι} {α : Type} {f : List LabVm → Code α} {Q : α → State ι → Prop}
    {E : Failure → State ι → Prop} {s : State ι}
    (h : ∀ s₁, Rely i s s₁ → (f (live s₁.rows)).wp (F := sig) (exec i) (Rely i)
      (fun s _ _ s' => Guar i s s') Q E s₁) :
    (perform .active >>= f).wp (F := sig) (exec i) (Rely i) (fun s _ _ s' => Guar i s s') Q E s := by
  intro s₁ hR rows s₂ hx
  obtain ⟨rfl, rfl⟩ := hx
  exact ⟨.refl i s₂, h s₂ hR⟩

/-- What `create_lab_vm` does with the lock. -/
theorem wp_createLocked {i : ι} {wish : Wish} {remoteAddr : String} {s : State ι}
    (hs : Locked i s) :
    (createLocked pf wish remoteAddr).wp (F := sig) (exec i) (Rely i) (fun s _ _ s' => Guar i s s')
      (fun _ => Locked i) (fun _ => Locked i) s := by
  have hJ := keeps_counted wish.purpose i
  have hlift {α : Type} (x : Except Failure α) := holds_reads hJ (reads_lift x)
  refine wp_active fun s₂ hR => ?_
  have hlock : Locked i s₂ := hR.lock.mpr hs
  cases hrefuse : refusal wish.purpose (live s₂.rows) with
  | some problem => exact hlock
  | none =>
    have hs : Counted wish.purpose i s₂ := ⟨hlock, room_of_refusal hrefuse⟩
    have hhost : Holds i (Counted wish.purpose i) (fun _ => True)
        (attempt (.callerHost remoteAddr) rfl : Code (Option String)) :=
      holds_reads hJ (Program.confined_bind (reads_perform (c := .callerHost remoteAddr) trivial)
        fun _ _ => reads_lift _)
    refine hhost.wp_bind ?_ (fun _ _ h => h.1) hs
    intro host _ s hs
    cases host with
    | none => exact hs.1
    | some host =>
      refine (holds_reads hJ (reads_hostStats _)).wp_bind ?_ (fun _ _ h => h.1) hs
      intro stats _ s hs
      refine (hlift _).wp_bind ?_ (fun _ _ h => h.1) hs
      intro network _ s hs
      split
      · exact hs.1
      · refine (hlift _).wp_bind ?_ (fun _ _ h => h.1) hs
        intro flavor _ s hs
        cases flavor with
        | none => exact hs.1
        | some flavor => exact wp_place hs

/-- **`create_lab_vm` keeps its promise, and ends without the lock.** -/
theorem holds_createLabVm {i : ι} (body : Option Json) (remoteAddr : String) :
    Holds i (Free i) (fun _ => True) (createLabVm pf body remoteAddr) := by
  refine Program.carried_lift fun wish _ => ?_
  cases wish with
  | inl problem => exact Program.carried_ret trivial
  | inr wish =>
    refine Program.carried_bind (B := fun _ => True) ?_ fun r _ => ?_
    · intro s hs s₁ hR _ s₂ hx
      obtain ⟨hlock, rfl⟩ := hx
      refine ⟨⟨?_, fun _ _ _ => .refl _, fun h => h, .refl _⟩, ?_⟩
      · intro j hj
        rw [hlock, Option.some.injEq]
        exact iff_of_false (fun h => hj h.symm) fun h => by cases h
      · -- the lock is released from either end
        have hrelease {Q : State ι → Prop} (hQ : ∀ s, Free i s → Q s) (s : State ι)
            (hs : Locked i s) :
            (perform .lockRelease).wp (F := sig) (exec i) (Rely i) (fun s _ _ s' => Guar i s s')
              (fun _ => Q) (fun _ => Free i) s := by
          intro s₁ hR _ s₂ hx
          have hlock := hR.lock.mpr hs
          cases hx
          refine ⟨⟨?_, fun _ _ _ => .refl _, fun h => h, .refl _⟩, hQ _ fun h => by cases h⟩
          intro j hj
          rw [hlock, Option.some.injEq]
          exact iff_of_false (fun h => by cases h) fun h => hj h.symm
        refine (Program.wp_tryFinally _ _).mpr
          (Program.wp_mono ?_ ?_ (wp_createLocked rfl))
        · exact fun _ s hs => hrelease (fun _ h => ⟨trivial, h⟩) s hs
        · exact fun _ s hs => hrelease (fun _ h => h) s hs
    · cases r with
      | inl problem => exact Program.carried_ret trivial
      | inr id =>
        exact Program.carried_bind (holds_reads (keeps_free i) (reads_describe id))
          fun _ _ => Program.carried_ret trivial

/-! ### The other operations -/

theorem quiet_describe (id : Option String) : (describe id).Confined Quiet fun _ => True :=
  quiet_of_confined (reads_describe id)

theorem quiet_attempt {α : Type} {c : Cmd} (h : c.Ans = Except Failure α) (hc : Quiet c) :
    (attempt c h).Confined Quiet fun _ => True :=
  Program.confined_bind (quiet_perform hc) fun _ _ =>
    quiet_of_confined (reads_lift _)

theorem quiet_find {β : Type} {id : Option String} {f : Option LabVm → Code β}
    (hf : ∀ row, (f row).Confined Quiet fun _ => True) :
    (perform (.find id) >>= f).Confined Quiet fun _ => True :=
  Program.confined_bind (quiet_perform (c := .find id) trivial)
    fun row _ => hf row

theorem quiet_listLabVms (runId : String) : (listLabVms runId).Confined Quiet fun _ => True :=
  Program.confined_bind (quiet_perform (c := .active) trivial)
    fun _ _ => trivial

theorem quiet_getLabVm (id : String) : (getLabVm id).Confined Quiet fun _ => True := by
  refine quiet_find fun row => ?_
  cases row with
  | none => trivial
  | some row => exact Program.confined_bind (quiet_describe _) fun _ _ => trivial

theorem quiet_touchLabVm (id : String) : (touchLabVm id).Confined Quiet fun _ => True := by
  refine quiet_find fun row => ?_
  split
  · trivial
  · refine Program.confined_bind (quiet_perform (c := .now) trivial) fun _ _ => ?_
    refine Program.confined_bind (quiet_attempt _ trivial) fun _ _ => ?_
    exact Program.confined_bind (quiet_describe _) fun _ _ => trivial

theorem quiet_delete (id : Option String) (reason : String) :
    (delete pf id reason).Confined Quiet fun _ => True := by
  have hrest : (call .delete (.inst (id.getD "None")) none >>= fun resp => do
      if resp.1 ∈ [200, 204, 404] then do
        let now : DateTime ← perform .now
        let () ← attempt (.setDeleted id now.isoformat reason) rfl
        pure none
      else do
        let detail ← Program.lift (getKey resp.2 "detail")
        pure (some s!"CloudCore returned {resp.1}: {pf.text detail}") : Code (Option String)).Confined
      Quiet fun _ => True := by
    refine Program.confined_bind quiet_call fun resp _ => ?_
    split
    · refine Program.confined_bind (quiet_perform (c := .now) trivial)
        fun _ _ => ?_
      exact Program.confined_bind (quiet_attempt _ trivial) fun _ _ => trivial
    · exact Program.confined_bind (quiet_of_confined (reads_lift _)) fun _ _ => trivial
  refine quiet_find fun row => ?_
  refine Program.confined_bind (quiet_of_confined (reads_addressOf id row)) fun ip _ => ?_
  dsimp only
  split
  · exact Program.confined_bind (quiet_attempt _ trivial) fun _ _ => hrest
  · exact hrest

theorem quiet_deleteLabVm (id : String) : (deleteLabVm pf id).Confined Quiet fun _ => True := by
  refine quiet_find fun row => ?_
  cases row with
  | none => trivial
  | some row =>
    dsimp only
    split
    · trivial
    · refine Program.confined_bind (quiet_delete _ _) fun why _ => ?_
      cases why <;> trivial

theorem quiet_reapAll (now : DateTime) (rows : List LabVm) :
    (reapAll pf now rows).Confined Quiet fun _ => True := by
  induction rows with
  | nil => trivial
  | cons r rows ih =>
    refine Program.confined_bind (quiet_of_confined (reads_lift _)) fun why _ => ?_
    split
    · exact ih
    · refine Program.confined_bind (quiet_delete _ _) fun _ _ => ?_
      exact Program.confined_bind ih fun _ _ => trivial

theorem quiet_reapOnce : (reapOnce pf).Confined Quiet fun _ => True := by
  refine Program.confined_bind (quiet_perform (c := .now) trivial) fun _ _ => ?_
  exact Program.confined_bind (quiet_perform (c := .active) trivial)
    fun _ _ => quiet_reapAll _ _

/-! ### Runs -/

/-- What the threads run. -/
inductive Operation where
  | create (body : Option Json) (remoteAddr : String)
  | list (runId : String)
  | get (id : String)
  | touch (id : String)
  | delete (id : String)
  | reap

/-- The code of an operation, without its answer. -/
def Operation.code (pf : Platform) : Operation → Code Unit
  | .create body remoteAddr => createLabVm pf body remoteAddr >>= fun _ => pure ()
  | .list runId => listLabVms runId >>= fun _ => pure ()
  | .get id => getLabVm id >>= fun _ => pure ()
  | .touch id => touchLabVm id >>= fun _ => pure ()
  | .delete id => deleteLabVm pf id >>= fun _ => pure ()
  | .reap => reapOnce pf >>= fun _ => pure ()

theorem holds_operation {i : ι} (op : Operation) :
    Holds i (Free i) (fun _ => True) (op.code pf) := by
  have hquiet {α : Type} {p : Code α} (h : p.Confined Quiet fun _ => True) :
      Holds i (Free i) (fun _ => True) (p >>= fun _ => pure ()) :=
    Program.carried_bind (Program.carried_confined (keeps_free i) h) fun _ _ =>
      Program.carried_ret trivial
  cases op with
  | create body remoteAddr =>
    exact Program.carried_bind (holds_createLabVm body remoteAddr) fun _ _ =>
      Program.carried_ret trivial
  | list runId => exact hquiet (quiet_listLabVms runId)
  | get id => exact hquiet (quiet_getLabVm id)
  | touch id => exact hquiet (quiet_touchLabVm id)
  | delete id => exact hquiet (quiet_deleteLabVm id)
  | reap => exact hquiet quiet_reapOnce

/-- The threads start operations of the broker; none is stopped alone. -/
def Starts (pf : Platform) (_ : Config sig Failure Unit ι (State ι)) :
    Move sig Failure Unit ι → Prop
  | .start _ p => ∃ op : Operation, p = op.code pf
  | .kill _ => False
  | _ => True

/-- The rely-guarantee proof. -/
def quotaOutline (pf : Platform) :
    Outline (fun i : ι => exec i) (Starts pf) where
  rely := Rely
  guar i s _ _ s' := Guar i s s'
  idle := Free
  post i _ := Free i
  fail i _ := Free i
  sem := exec
  sem_of_ok _ _ _ _ _ _ hx := hx
  rely_refl _ _ := ⟨Iff.rfl, fun _ => .refl _⟩
  rely_trans _ _ _ _ h h' :=
    ⟨h'.lock.trans h.lock, fun hl => (h.fewer hl).trans (h'.fewer (h.lock.mpr hl))⟩
  rely_of_guar _ j hj _ _ _ _ h := ⟨h.lock j hj, h.fewer j hj⟩
  idle_stable _ _ _ h hs := fun hl => hs (h.lock.mp hl)
  post_stable _ _ _ _ h hs := fun hl => hs (h.lock.mp hl)
  fail_stable _ _ _ _ h hs := fun hl => hs (h.lock.mp hl)
  start x i p hok hs := by
    obtain ⟨op, rfl⟩ := hok
    exact Program.wp_mono (fun _ _ h => h.2) (fun _ _ h => h) (holds_operation op x.shared hs)
  ret _ _ _ _ h := h
  raise _ _ _ _ h := h
  kill _ _ _ hok _ _ := hok.elim

/-- A process starts on the table that is there, with the lock free. -/
def State.boot (rows : List LabVm) (cloud : List String) : State ι where
  rows
  lock := none
  cloud
  created _ := []
  refused _ := []

/-- The moments in the life of the host: a process may end at any of them, and
leave the table to the next one. -/
inductive Lifetime (pf : Platform) : Config sig Failure Unit ι (State ι) → Prop where
  | first : Lifetime pf (.idle (.boot [] []))
  | restart {x} (h : Lifetime pf x) : Lifetime pf (.idle (.boot x.shared.rows x.shared.cloud))
  | run {x y} (h : Lifetime pf x) {m} (hok : Starts pf x m)
      (hs : Step (fun i : ι => exec i) x m y) : Lifetime pf y

theorem within_nil : Within [] := ⟨Nat.zero_le _, Nat.zero_le _, Nat.zero_le _⟩

theorem verified_of_lifetime {x : Config sig Failure Unit ι (State ι)} (h : Lifetime pf x) :
    (quotaOutline pf).Verified x ∧ Within x.shared.rows := by
  have hboot (rows : List LabVm) (cloud : List String) :
      (quotaOutline pf).Verified (.idle (.boot rows cloud : State ι)) := fun i h => by cases h
  induction h with
  | first => exact ⟨hboot [] [], within_nil⟩
  | restart _ ih => exact ⟨hboot _ _, ih.2⟩
  | @run x y _ m hok hs ih =>
    exact (quotaOutline pf).invariant (I := fun s => Within s.rows) (fun _ _ _ _ _ hG => hG.within)
      (.single ⟨m, hok, hs⟩) ih.1 ih.2

/-- **Whatever the operations running at once and CloudCore's answers, the quotas hold,
and no step clears the `deleted_at` of a row.** -/
theorem quotas_kept {x : Config sig Failure Unit ι (State ι)} (h : Lifetime pf x) :
    Within x.shared.rows ∧ ∀ y, Reaches (fun i : ι => exec i) (Starts pf) x y →
      Kept x.shared.rows y.shared.rows := by
  obtain ⟨hverified, hwithin⟩ := verified_of_lifetime h
  refine ⟨hwithin, ?_⟩
  intro y hy
  exact ((quotaOutline pf).invariant (I := fun s => Kept x.shared.rows s.rows)
    (fun _ _ _ _ _ hG hk => hk.trans hG.kept) hy hverified (.refl _)).2

/-! ### Operations one after the other -/

/-- Operations one after the other; CloudCore creates instances of these ids. -/
def inTurn : List (String × Operation) → State Unit → Option (State Unit)
  | [], s => some s
  | (id, op) :: ops, s =>
    ((op.code plainPlatform).run (F := sig) (surroundings id (created id)) s).bind fun e =>
      inTurn ops e.2

theorem reaches_of_inTurn {ops : List (String × Operation)} {s s' : State Unit}
    (h : inTurn ops s = some s') :
    Reaches (fun i : Unit => exec i) (Starts plainPlatform) (.idle s) (.idle s') := by
  induction ops generalizing s with
  | nil => cases h; exact .refl
  | cons e ops ih =>
    obtain ⟨⟨r, s₁⟩, hrun, hrest⟩ := Option.bind_eq_some_iff.mp h
    have hop : Reaches (fun i : Unit => exec i) (Starts plainPlatform) (.idle s) (.idle s₁) :=
      Reaches.solo (i := ()) (fun _ _ _ _ ha => ⟨exec_surroundings ha, trivial⟩) (fun _ _ => trivial) _
        ⟨e.2, rfl⟩ hrun
    exact hop.trans (ih hrest)

theorem Lifetime.reaches {x y : Config sig Failure Unit ι (State ι)} (h : Lifetime pf x)
    (hy : Reaches (fun i : ι => exec i) (Starts pf) x y) : Lifetime pf y := by
  induction hy with
  | refl => exact h
  | tail _ hm ih =>
    obtain ⟨m, hok, hs⟩ := hm
    exact .run ih hok hs

/-- The machines, and which of them are deleted. -/
def machines (s : State Unit) : List (Option String × Bool) :=
  s.rows.map fun r => (r.id, r.deletedAt.isSome)

/-- What a student does: two machines, of which the first is deleted, and a third one; a fourth
is refused. -/
def studentsDay : List (String × Operation) × List (String × Operation) :=
  ([("i1", .create (some studentRequest) "127.0.0.1"),
    ("i2", .create (some studentRequest) "127.0.0.1"), ("", .delete "i1")],
   [("i3", .create (some studentRequest) "127.0.0.1"),
    ("i4", .create (some studentRequest) "127.0.0.1")])

/-- The first machine stays deleted, and the quota is full. -/
theorem quotas_kept_student : ∃ x y : Config sig Failure Unit Unit (State Unit),
    machines x.shared = [(some "i1", true), (some "i2", false)] ∧
      machines y.shared = [(some "i1", true), (some "i2", false), (some "i3", false)] ∧
      Within y.shared.rows ∧ Kept x.shared.rows y.shared.rows := by
  obtain ⟨s, hs, hrows⟩ := Option.map_eq_some_iff.mp (show (inTurn studentsDay.1 quietHost).map
    machines = some [(some "i1", true), (some "i2", false)] by decide)
  obtain ⟨s', hs', hrows'⟩ := Option.map_eq_some_iff.mp (show ((inTurn studentsDay.1
    quietHost).bind (inTurn studentsDay.2)).map machines =
      some [(some "i1", true), (some "i2", false), (some "i3", false)] by decide)
  rw [hs, Option.bind_some] at hs'
  have hx : Lifetime plainPlatform (.idle s) := Lifetime.first.reaches (reaches_of_inTurn hs)
  have hy := reaches_of_inTurn hs'
  exact ⟨.idle s, .idle s', hrows, hrows', (quotas_kept (hx.reaches hy)).1, (quotas_kept hx).2 _ hy⟩

end Broker
end CloudCore
