import CloudCore.Broker.LabVms

/-!
# Machines nobody tracks

`create_lab_vm` has CloudCore create the instance and records it afterwards.  What
happens in between decides whether the reaper will ever see the machine: if the
answer of the creating call is lost, is an error, or does not name the instance,
or if the row is refused, the instance runs on and no row says so.

## Main definitions

* `Covered` — a live row tracks the instance, or it is gone.
* `Answered` — the creating call succeeded and named the instance.

## Main results

* `covered_iff` — **at the end of `create_lab_vm` an instance it has created is
  covered exactly when the creating call was answered and the row was accepted.**
* `lost_answer` — a time-out after the instance was created leaves it untracked.
-/

namespace CloudCore
namespace Broker

open Python Effect

variable {ι : Type}

/-- A live row tracks the instance, or it has been deleted again. -/
def Covered (id : String) (s : State ι) : Prop :=
  (∃ r ∈ s.rows, r.id = some id ∧ r.deletedAt = none) ∨ id ∉ s.cloud

/-- The call succeeded, and its answer names the instance. -/
def Answered (pf : Platform) (id : String) (resp : Response) : Prop :=
  ∃ status v w, readResponse resp = .ok (status, v) ∧ status ∈ [200, 201, 202] ∧
    itemAt v "id" = .ok w ∧ keyColumn pf w = .ok (some id)

/-- The instances a run has created are covered exactly if the call was answered and
the row was accepted. -/
def Told (pf : Platform) (i : ι) (s : State ι) : Prop :=
  ∀ id resp, (id, resp) ∈ s.created i → (Covered id s ↔ Answered pf id resp ∧ s.refused i = [])

/-- The run has not created anything yet. -/
def Fresh (i : ι) (s : State ι) : Prop := s.created i = [] ∧ s.refused i = []

/-- The creating call has been made; if it has created an instance, no row has its id. -/
def Called (i : ι) (resp : Response) (s : State ι) : Prop :=
  s.refused i = [] ∧ (s.created i = [] ∨
    ∃ id, s.created i = [(id, resp)] ∧ id ∈ s.cloud ∧ s.hasKey id = false)

variable {pf : Platform}

theorem told_of_fresh {i : ι} {s : State ι} (h : Fresh i s) : Told pf i s := by
  intro id resp hmem
  rw [h.1] at hmem
  cases hmem

theorem no_row {id : String} {s : State ι} (hkey : s.hasKey id = false) {r : LabVm}
    (hr : r ∈ s.rows) : r.id ≠ some id := by
  rw [State.hasKey, List.any_eq_false] at hkey
  intro hid
  exact hkey r hr (decide_eq_true hid)

theorem not_covered {id : String} {s : State ι} (hcloud : id ∈ s.cloud)
    (hkey : s.hasKey id = false) : ¬ Covered id s := by
  rintro (⟨r, hr, hid, -⟩ | hgone)
  · exact no_row hkey hr hid
  · exact hgone hcloud

/-- An instance whose creation was not answered stays without a row. -/
theorem told_of_called {i : ι} {resp : Response} {s : State ι} (h : Called i resp s)
    (hresp : ∀ id, ¬ Answered pf id resp) : Told pf i s := by
  obtain ⟨-, hnone | ⟨id, hone, hcloud, hkey⟩⟩ := h
  · intro id resp' hmem
    rw [hnone] at hmem
    cases hmem
  · intro id' resp' hmem
    rw [hone, List.mem_singleton, Prod.mk.injEq] at hmem
    obtain ⟨rfl, rfl⟩ := hmem
    exact iff_of_false (not_covered hcloud hkey) fun ⟨hanswered, _⟩ => hresp _ hanswered

variable [DecidableEq ι]

/-- A program that thread `i` runs alone. -/
abbrev Alone (i : ι) {α : Type} (p : Code α) (Q : α → State ι → Prop)
    (E : Failure → State ι → Prop) (s : State ι) : Prop :=
  p.wp (F := sig) (exec i) Eq (fun _ _ _ _ => True) Q E s

/-- A program that only reads keeps whatever holds. -/
theorem alone_reads {i : ι} (J : State ι → Prop) {α : Type} {p : Code α}
    (h : p.Confined Reads fun _ => True) :
    p.Carried (F := sig) (exec i) Eq (fun _ _ _ _ => True) J fun _ => True := by
  refine Program.carried_confined (T := fun _ _ => True) ⟨?_, fun _ _ _ _ _ _ => trivial, ?_⟩ h
  · intro s s' heq hs
    exact heq ▸ hs
  · intro s c a s' hs hx hc
    exact ⟨trivial, (exec_reads hc hx).symm ▸ hs⟩

/-- The insert settles the matter. -/
theorem alone_insert {i : ι} {resp : Response} {r : LabVm} {s : State ι} (h : Called i resp s)
    (hlive : r.deletedAt = none) (hresp : ∀ id, Answered pf id resp ↔ r.id = some id) :
    Alone i (attempt (.insert r) rfl : Code Unit) (fun _ => Told pf i) (fun _ => Told pf i) s := by
  rintro _ rfl a s' hx
  refine ⟨trivial, ?_⟩
  obtain ⟨hrefused, hnone | ⟨id, hone, hcloud, hkey⟩⟩ := h
  · -- nothing was created
    cases a with
    | error e =>
      cases hx
      intro id resp' hmem
      rw [show s.created i = [] from hnone] at hmem
      cases hmem
    | ok u =>
      obtain ⟨-, rfl⟩ := hx
      intro id resp' hmem
      rw [show s.created i = [] from hnone] at hmem
      cases hmem
  · cases a with
    | error e =>
      cases hx
      intro id' resp' hmem
      rw [show s.created i = [(id, resp)] from hone, List.mem_singleton, Prod.mk.injEq] at hmem
      obtain ⟨rfl, rfl⟩ := hmem
      refine iff_of_false (not_covered hcloud hkey) fun ⟨_, hempty⟩ => ?_
      dsimp only at hempty
      rw [Function.update_self] at hempty
      cases hempty
    | ok u =>
      obtain ⟨-, rfl⟩ := hx
      intro id' resp' hmem
      rw [show s.created i = [(id, resp)] from hone, List.mem_singleton, Prod.mk.injEq] at hmem
      obtain ⟨rfl, rfl⟩ := hmem
      rw [hresp]
      constructor
      · rintro (⟨r', hr', hid, -⟩ | hgone)
        · rcases List.mem_append.mp hr' with hr' | hr'
          · exact absurd hid (no_row hkey hr')
          · rw [List.mem_singleton] at hr'
            exact ⟨hr' ▸ hid, hrefused⟩
        · exact absurd hcloud hgone
      · rintro ⟨hid, -⟩
        exact .inl ⟨r, List.mem_append_right _ (List.mem_singleton_self r), hid, hlive⟩

/-- Reading a value that may not be there. -/
theorem alone_lift {i : ι} {α β : Type} {x : Except Failure β} {f : β → Code α}
    {Q : α → State ι → Prop} {E : Failure → State ι → Prop} {s : State ι}
    (hok : ∀ b, x = .ok b → Alone i (f b) Q E s) (herr : ∀ e, x = .error e → E e s) :
    Alone i (Program.lift x >>= f) Q E s :=
  (Program.wp_bind _ _).mpr (Program.wp_lift.mpr ⟨hok, herr⟩)

/-- Whatever the creating call answers, the run goes on rightly. -/
theorem alone_recordVm {i : ι} {resp : Response} {s : State ι} (h : Called i resp s)
    {wish : Wish} {name flavor : String} {peer : Option String} {now : DateTime}
    (hnow : ∃ expires, expiry wish.purpose now = .ok expires) :
    Alone i (recordVm pf wish name flavor peer now resp) (fun _ => Told pf i)
      (fun _ => Told pf i) s := by
  unfold recordVm
  refine alone_lift ?_ ?_
  · intro ⟨status, inst⟩ hread
    dsimp only
    split
    · next hstatus =>
      have hnot (id : String) : ¬ Answered pf id resp := by
        rintro ⟨status', v, w, hread', hstatus', -⟩
        rw [hread, Except.ok.injEq, Prod.mk.injEq] at hread'
        exact hstatus (hread'.1 ▸ hstatus')
      exact alone_lift (fun _ _ => told_of_called h hnot) fun _ _ => told_of_called h hnot
    · next hstatus =>
      rw [not_not] at hstatus
      refine alone_lift ?_ ?_
      · intro v hid
        obtain ⟨expires, hexpires⟩ := hnow
        rw [hexpires]
        refine alone_lift (x := keyColumn pf v) ?_ ?_
        · intro key hkey
          refine (Program.wp_bind _ _).mpr (alone_insert h rfl fun id => ?_)
          constructor
          · rintro ⟨status', v', w, hread', -, hid', hkey'⟩
            rw [hread, Except.ok.injEq, Prod.mk.injEq] at hread'
            rw [← hread'.2, hid, Except.ok.injEq] at hid'
            rw [← hid', hkey, Except.ok.injEq] at hkey'
            exact hkey'
          · intro hrow
            refine ⟨status, inst, v, hread, hstatus, hid, ?_⟩
            rw [hkey]
            exact congrArg Except.ok hrow
        · intro e hkey
          refine told_of_called h fun id => ?_
          rintro ⟨status', v', w, hread', -, hid', hkey'⟩
          rw [hread, Except.ok.injEq, Prod.mk.injEq] at hread'
          rw [← hread'.2, hid, Except.ok.injEq] at hid'
          rw [← hid', hkey] at hkey'
          cases hkey'
      · intro e hid
        refine told_of_called h fun id => ?_
        rintro ⟨status', v', w, hread', -, hid', -⟩
        rw [hread, Except.ok.injEq, Prod.mk.injEq] at hread'
        rw [← hread'.2, hid] at hid'
        cases hid'
  · intro e hread
    refine told_of_called h fun id => ?_
    rintro ⟨status', v', w, hread', -⟩
    rw [hread] at hread'
    cases hread'

/-- Thirty days are the longest a machine may live. -/
theorem expiry_of_month {purpose : Purpose} {now : DateTime}
    (h : (now.add (30 * 24 * hour)).isSome = true) : ∃ t, expiry purpose now = .ok t := by
  have hlife : 0 ≤ (purposes purpose).maxLife ∧ (purposes purpose).maxLife ≤ 30 * 24 * hour := by
    cases purpose <;> decide
  obtain ⟨t, ht⟩ : ∃ t, now.add (purposes purpose).maxLife = some t := by
    generalize 30 * 24 * hour = month at h hlife
    unfold DateTime.add at h ⊢
    split at h
    · next hmonth => exact ⟨_, dif_pos ⟨by omega, by omega⟩⟩
    · cases h
  unfold expiry
  rw [ht]
  exact ⟨t, rfl⟩

theorem alone_place {i : ι} {wish : Wish} {peer : Option String} {flavor : String} {s : State ι}
    (hs : Fresh i s) :
    Alone i (place pf wish peer flavor) (fun _ => Told pf i) (fun _ => Told pf i) s := by
  unfold place
  refine (alone_reads (Fresh i) (reads_networkOrProblem peer)).wp_bind ?_
    (fun _ _ => told_of_fresh) hs
  intro ids _ s hs
  cases ids with
  | inl problem => exact told_of_fresh hs
  | inr ids =>
    obtain ⟨vpcId, subnetId⟩ := ids
    refine (alone_reads (Fresh i) (reads_perform (c := .uuid) trivial)).wp_bind ?_
      (fun _ _ => told_of_fresh) hs
    rintro hex - s hs _ rfl now s' ⟨rfl, hmonth⟩
    refine ⟨trivial, ?_⟩
    rintro _ rfl resp s₂ hx
    refine ⟨trivial, alone_recordVm ?_ (expiry_of_month hmonth)⟩
    rcases hx with rfl | ⟨id, hcloud, hkey, rfl⟩
    · exact ⟨hs.2, .inl hs.1⟩
    · refine ⟨hs.2, .inr ⟨id, ?_, List.mem_cons_self, hkey⟩⟩
      simp only [State.create, Function.update_self, hs.1]

theorem alone_createLocked {i : ι} {wish : Wish} {remoteAddr : String} {s : State ι}
    (hs : Fresh i s) :
    Alone i (createLocked pf wish remoteAddr) (fun _ => Told pf i) (fun _ => Told pf i) s := by
  have hlift {α : Type} (x : Except Failure α) := alone_reads (i := i) (Fresh i) (reads_lift x)
  unfold createLocked
  refine (alone_reads (Fresh i) (reads_perform (c := .active) trivial)).wp_bind ?_
    (fun _ _ => told_of_fresh) hs
  intro active _ s hs
  split
  · exact told_of_fresh hs
  · have hhost : (attempt (.callerHost remoteAddr) rfl : Code (Option String)).Confined Reads
        fun _ => True :=
      Program.confined_bind (reads_perform (c := .callerHost remoteAddr) trivial)
        fun _ _ => reads_lift _
    refine (alone_reads (Fresh i) hhost).wp_bind ?_ (fun _ _ => told_of_fresh) hs
    intro host _ s hs
    cases host with
    | none => exact told_of_fresh hs
    | some host =>
      refine (alone_reads (Fresh i) (reads_hostStats _)).wp_bind ?_ (fun _ _ => told_of_fresh) hs
      intro stats _ s hs
      refine (hlift _).wp_bind ?_ (fun _ _ => told_of_fresh) hs
      intro network _ s hs
      split
      · exact told_of_fresh hs
      · refine (hlift _).wp_bind ?_ (fun _ _ => told_of_fresh) hs
        intro flavor _ s hs
        cases flavor with
        | none => exact told_of_fresh hs
        | some flavor => exact alone_place hs

theorem alone_createLabVm {i : ι} {body : Option Json} {remoteAddr : String} {s : State ι}
    (hs : Fresh i s) :
    Alone i (createLabVm pf body remoteAddr) (fun _ => Told pf i) (fun _ => Told pf i) s := by
  unfold createLabVm
  refine alone_lift ?_ fun _ _ => told_of_fresh hs
  intro wish _
  cases wish with
  | inl problem => exact told_of_fresh hs
  | inr wish =>
    refine (Program.wp_bind _ _).mpr (Program.wp_mono (Q := fun _ => Told pf i) ?_
      (fun _ _ h => h) ?_)
    · intro r s hs
      cases r with
      | inl problem => exact hs
      | inr id =>
        refine (alone_reads (Told pf i) (reads_describe id)).wp_bind ?_ (fun _ _ hs => hs) hs
        exact fun _ _ _ hs => hs
    · -- taking and giving back the lock changes neither the table nor CloudCore
      rintro _ rfl _ s₂ ⟨-, rfl⟩
      refine ⟨trivial, (Program.wp_tryFinally _ _).mpr (Program.wp_mono ?_ ?_
        (alone_createLocked hs))⟩
      · rintro _ s hs _ rfl _ s' rfl
        exact ⟨trivial, hs⟩
      · rintro _ s hs _ rfl _ s' rfl
        exact ⟨trivial, hs⟩

/-- **At the end of `create_lab_vm` an instance it has created is covered exactly when the
creating call was answered and the row was accepted.** -/
theorem covered_iff {i : ι} {body : Option Json} {remoteAddr : String} {s s' : State ι}
    {r : Except Failure Answer} (hs : Fresh i s)
    (h : Program.Ends (F := sig) (exec i) s (createLabVm pf body remoteAddr) r s') :
    ∀ id resp, (id, resp) ∈ s'.created i →
      (Covered id s' ↔ Answered pf id resp ∧ s'.refused i = []) :=
  h.of_wp (alone_createLabVm hs)

/-! ### Two runs -/

/-- The request of a student's machine. -/
def studentRequest : Json :=
  .obj [("purpose", .str "student"), ("run_id", .str "r1"),
    ("public_key", .str "ssh-ed25519 AAAAC3NzaC1lZDI1NTE5AAAAIGr1k0ZpU2hvcnRrZXk")]

/-- An object with one list under `items`, of one resource. -/
def listing (fields : List (String × Json)) : Response :=
  .ok 200 (.json (.obj [("items", .arr [.obj fields])]))

/-- Nine in the evening of 1 March 2026. -/
def evening : DateTime where
  date := ⟨2026, 3, 1, by decide⟩
  time := ⟨21, 0, 0, 0, by decide⟩

/-- CloudCore creates an instance of this id and answers the creating call with `resp`. -/
def answering (id : String) (resp : Response) (s : State Unit) :
    Verb → Path → Option (Response × State Unit)
  | .post, .instances =>
    if id ∉ s.cloud ∧ s.hasKey id = false then some (resp, s.create () id resp) else none
  | .delete, .inst id => some (.ok 204 .empty, { s with cloud := s.cloud.filter (· ≠ id) })
  | .get, .stats => some (.ok 200 (.json (.obj [("lab_network", .bool true)])), s)
  | .get, .vpcs => some (listing [("id", .str "v1"), ("name", .str labVpc)], s)
  | .get, .subnetsOf _ =>
    some (listing [("id", .str "n1"), ("name", .str labSubnet), ("vpc_id", .str "v1")], s)
  | .get, .inst _ => some (.ok 200 (.json (.obj [("status", .str "pending")])), s)
  | _, _ => none

/-- The surroundings of a run for a guest of this host. -/
def surroundings (id : String) (resp : Response) (s : State Unit) :
    (c : Cmd) → Option (c.Ans × State Unit)
  | .lockAcquire => if s.lock = none then some ((), { s with lock := some () }) else none
  | .lockRelease => some ((), { s with lock := none })
  | .now => some (evening, s)
  | .uuid => some ("0123456789abcdef", s)
  | .callerHost _ => some (.ok (some ""), s)
  | .api method path _ => answering id resp s method path
  | .active => some (live s.rows, s)
  | .find id => some (findRow s.rows id, s)
  | .insert r =>
    if r.id.all fun id => !s.hasKey id then some (.ok (), { s with rows := s.rows ++ [r] }) else none
  | .setDeleted id now reason =>
    some (.ok (), { s with rows := setRows id (markDeleted now reason) s.rows })
  | .unpair .. | .touch .. => none

theorem exec_answering {id : String} {resp a : Response} {s s' : State Unit} {method : Verb}
    {path : Path} (h : answering id resp s method path = some (a, s')) :
    apiDoes () s a s' method path := by
  unfold answering at h
  split at h
  · split at h
    · next hnew =>
      cases h
      exact .inr ⟨id, hnew.1, hnew.2, rfl⟩
    · cases h
  · cases h; exact .inr rfl
  · cases h; rfl
  · cases h; rfl
  · cases h; rfl
  · cases h; rfl
  · cases h

theorem exec_surroundings {id : String} {resp : Response} {s s' : State Unit} {c : Cmd} {a : c.Ans}
    (h : surroundings id resp s c = some (a, s')) : exec () s c a s' := by
  cases c with
  | lockAcquire =>
    simp only [surroundings] at h
    split at h
    · next hl => cases h; exact ⟨hl, rfl⟩
    · cases h
  | now => cases h; exact ⟨rfl, by decide⟩
  | api method path body => exact exec_answering h
  | insert r =>
    simp only [surroundings] at h
    split at h
    · next hnew =>
      cases h
      refine ⟨?_, rfl⟩
      intro id hid
      rw [hid] at hnew
      simpa using hnew
    · cases h
  | active => cases h; exact ⟨rfl, rfl⟩
  | find id => cases h; exact ⟨rfl, rfl⟩
  | lockRelease => cases h; rfl
  | uuid => cases h; rfl
  | callerHost ip => cases h; rfl
  | unpair host ip => cases h
  | touch id now => cases h
  | setDeleted id now reason => cases h; rfl

/-- A host of which nobody has asked anything yet. -/
def quietHost : State Unit where
  rows := []
  lock := none
  cloud := []
  created _ := []
  refused _ := []

/-- A run of the request to its end. -/
def studentRun (resp : Response) : Option (Except Failure Answer × State Unit) :=
  (createLabVm plainPlatform (some studentRequest) "127.0.0.1").run (F := sig)
    (surroundings "i1" resp) quietHost

/-- What is left of a run: CloudCore's instances, the keys of the rows, what was created. -/
def leftovers (s : State Unit) : List String × List (Option String) × List String :=
  (s.cloud, s.rows.map (·.id), (s.created ()).map (·.1))

theorem exists_studentRun (resp : Response) (left : List String × List (Option String) × List String)
    (h : (studentRun resp).map (leftovers ·.2) = some left) :
    ∃ r s', Program.Ends (F := sig) (exec ()) quietHost
      (createLabVm plainPlatform (some studentRequest) "127.0.0.1") r s' ∧ leftovers s' = left := by
  obtain ⟨⟨r, s'⟩, hrun, hleft⟩ := Option.map_eq_some_iff.mp h
  exact ⟨r, s', Program.ends_of_run (fun _ _ _ _ => exec_surroundings) hrun, hleft⟩

/-- The creating call times out after CloudCore has acted: the machine runs, and no row
says so. -/
theorem lost_answer : ¬∀ (pf : Platform) (body : Option Json) (remoteAddr : String)
    (s s' : State Unit) (r : Except Failure Answer), Fresh () s →
      Program.Ends (F := sig) (exec ()) s (createLabVm pf body remoteAddr) r s' →
        ∀ id resp, (id, resp) ∈ s'.created () → Covered id s' := by
  intro hclaim
  obtain ⟨r, s', hends, hleft⟩ := exists_studentRun .raised (["i1"], [], ["i1"])
    (by decide)
  simp only [leftovers, Prod.mk.injEq, List.map_eq_nil_iff] at hleft
  obtain ⟨hcloud, hrows, hcreated⟩ := hleft
  obtain ⟨⟨id, resp⟩, hmem, rfl⟩ : ∃ x ∈ s'.created (), x.1 = "i1" := by
    rw [← List.mem_map, hcreated]
    exact List.mem_singleton_self _
  rcases hclaim _ _ _ _ _ _ ⟨rfl, rfl⟩ hends "i1" resp hmem with ⟨r, hr, -⟩ | hgone
  · rw [hrows] at hr
    cases hr
  · rw [hcloud] at hgone
    exact hgone (List.mem_singleton_self _)

/-- The creating call names the instance. -/
def created (id : String) : Response := .ok 202 (.json (.obj [("id", .str id)]))

/-- The creating call is answered: the machine has its row. -/
theorem covered_iff_student : ∃ s' resp, ("i1", resp) ∈ s'.created () ∧
    (Covered "i1" s' ↔ Answered plainPlatform "i1" resp ∧ s'.refused () = []) ∧
      s'.rows.map (·.id) = [some "i1"] := by
  obtain ⟨r, s', hends, hleft⟩ := exists_studentRun
    (created "i1") (["i1"], [some "i1"], ["i1"]) (by decide)
  simp only [leftovers, Prod.mk.injEq] at hleft
  obtain ⟨-, hrows, hcreated⟩ := hleft
  obtain ⟨⟨id, resp⟩, hmem, rfl⟩ : ∃ x ∈ s'.created (), x.1 = "i1" := by
    rw [← List.mem_map, hcreated]
    exact List.mem_singleton_self _
  exact ⟨s', resp, hmem, covered_iff ⟨rfl, rfl⟩ hends "i1" resp hmem, hrows⟩

end Broker
end CloudCore
