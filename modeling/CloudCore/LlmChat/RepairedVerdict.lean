import CloudCore.LlmChat.StepRepair

/-!
# The verdict of a repaired run

Where the lab repaired a step of an answer, `run_advice` also says what the verdict would be after its
repairs, and prints the procedure that worked.  The verdict is that of a twin of the run in which the
repaired steps ended well.

## Main definitions

* `verdict` — the verdict of `_finish_verdict`.
* `shown`, `procedure` — the steps of the procedure, and its text.
* `repairedOf` — `result.repaired`.
* `Mended` — every step ended well, was repaired, or repeats what was repaired.

## Main results

* `matches_procedure_iff` — **the twin has the verdict of the procedure exactly if no step was left out and the repairs
  make no difference to whether something changes.**
* `retry_fails` — with a step left out the repaired verdict is `failed`.
-/

namespace CloudCore
namespace RepairedVerdict

open RunStep

/-- A check of a run, with its defaults filled in. -/
structure Check where
  kind : String
  subject : String
  ok : Bool
  decisive : Bool
  evidence : Bool

/-- A step with its number and its note. -/
structure NotedStep extends Step where
  n : ℕ
  note : String

inductive Verdict where
  | notTestable
  | goalVerified
  | ranClean
  | someRun
  | failed
  deriving DecidableEq

/-! ### The verdict -/

/-- The step did something. -/
def NotedStep.acted (s : NotedStep) : Bool := s.kind ≠ .skip

/-- A decisive check that does not hold. -/
def Check.fails (c : Check) : Bool := !c.ok && c.decisive

/-- A check of what the answer set out to achieve; that a login still works is none. -/
def Check.isGoal (c : Check) : Bool :=
  c.ok && c.decisive && c.evidence && decide (c.kind ∈ ["goal", "login", "http", "cron", "effective"]) &&
    !(c.kind == "login" && occurs "still works" c.subject)

variable (alters : String → Bool)

/-- The step changes the system: it writes a file, or its commands are of those that do. -/
def NotedStep.changed (s : NotedStep) : Bool := decide (s.kind ≠ .run) || alters s.source

/-- The verdict of `_finish_verdict`. -/
def verdict (steps : List NotedStep) (checks : List Check) : Verdict :=
  let acted := steps.filter (·.acted)
  let limits := acted.filter (·.cls = .labLimit)
  let bad := acted.filter fun s => s.cls ≠ .judged .ok ∧ s.cls ≠ .labLimit
  let failed := checks.filter (·.fails)
  let changed := (acted.filter (·.cls = .judged .ok)).any (·.changed alters)
  let goal := checks.filter (·.isGoal)
  if limits ≠ [] ∧ bad = [] ∧ failed = [] then .notTestable
  else if bad = [] ∧ failed = [] ∧ changed = true ∧ goal ≠ [] then .goalVerified
  else if bad = [] ∧ failed = [] ∧ changed = true then .ranClean
  else if bad = [] ∧ failed = [] then .someRun
  else .failed

/-! ### The procedure -/

/-- The commands of a step as it finally worked, with a note of what the lab changed. -/
def NotedStep.worked (s : NotedStep) : String :=
  (if s.repair = "" then "" else "# lab: " ++ s.repair ++ "\n") ++ if s.final = "" then s.source else s.final

/-- The step as the procedure shows it. -/
def shown (s : NotedStep) : Option NotedStep :=
  match s.kind with
  | .run => if s.cls = .judged .ok ∨ s.cls = .repaired then some { s with source := s.worked } else none
  | .skip => none
  | _ => if s.cls = .judged .ok then some s else none

def fence : String := String.ofList [backtick, backtick, backtick]

def quoted (s : String) : String := String.ofList (backtick :: s.toList ++ [backtick])

/-- How a file is written. -/
def how : Kind → String
  | .write => "Create"
  | .append => "Add to the end of"
  | .prepend => "Add at the top of"
  | _ => "Set in"

/-- A step of the procedure, as it is printed. -/
def printed (s : NotedStep) : String :=
  match s.kind with
  | .run => fence ++ "bash\n" ++ s.source ++ "\n" ++ fence
  | .prose => "In " ++ quoted s.target ++ ": " ++ s.note ++ "."
  | kind => how kind ++ " " ++ quoted s.target ++ ":\n" ++ fence ++ "text\n" ++ s.source ++ "\n" ++ fence

def procedure (steps : List NotedStep) : String := "\n\n".intercalate ((steps.filterMap shown).map printed)

/-- A run of the procedure in which every step ends well. -/
def followed (steps : List NotedStep) : List NotedStep :=
  (steps.filterMap shown).map fun s => { s with cls := .judged .ok }

/-! ### The repaired run -/

/-- The step as if it had ended well without a repair. -/
def asFixed (s : NotedStep) : NotedStep := { s with cls := if s.cls = .repaired then .judged .ok else s.cls }

/-- `result.repaired`. -/
structure Repaired where
  verdict : Verdict
  changes : List String
  risky : Bool
  procedure : String

def repairedOf (steps : List NotedStep) (checks : List Check) : Option Repaired :=
  let repaired := steps.filter (·.cls = .repaired)
  if repaired = [] then none
  else some {
    verdict := verdict alters (steps.map asFixed) checks
    changes := repaired.map fun s => "step " ++ toString s.n ++ ": " ++ s.repair
    risky := repaired.any fun s => occurs "[risky]" s.repair
    procedure := procedure steps }

/-- A run step that repeats, with `sudo`, one that the lab ran as root, and is left out. -/
def LeftOut (front : List NotedStep) (s : NotedStep) : Prop :=
  s.cls = .skipped ∧ repeatsRootRepair (front.map (·.toStep)) s.toStep = true

/-- Every step ended well, or it is a run step that was repaired or left out; some were repaired; and no
decisive check failed. -/
structure Mended (steps : List NotedStep) (checks : List Check) : Prop where
  each : ∀ front s back, steps = front ++ s :: back → s.kind ≠ .skip →
    s.cls = .judged .ok ∨ s.kind = .run ∧ (s.cls = .repaired ∨ LeftOut front s)
  repaired : ∃ s ∈ steps, s.cls = .repaired
  passed : ∀ c ∈ checks, c.fails = false

/-- The repaired verdict is that of the procedure, and not `failed`. -/
def Matches (steps : List NotedStep) (checks : List Check) : Prop :=
  ∃ r, repairedOf alters steps checks = some r ∧ r.verdict ≠ .failed ∧
    r.verdict = verdict alters (followed steps) checks

/-- The repairs make no difference to whether something changes: a file is written, or the commands of the
answer change something just if those that worked do. -/
def SameChange (steps : List NotedStep) : Prop :=
  (∃ s ∈ steps, s.kind ≠ .run ∧ s.kind ≠ .skip) ∨
    ((∃ s ∈ steps, s.kind = .run ∧ alters s.source = true) ↔
      ∃ s ∈ steps, s.kind = .run ∧ alters s.worked = true)

/-! ### When all steps ended well -/

variable {alters} {steps : List NotedStep} {checks : List Check}

/-- The verdict of a run without a failure. -/
def goodVerdict (changed goal : Bool) : Verdict :=
  if changed then if goal then .goalVerified else .ranClean else .someRun

theorem goodVerdict_ne_failed (changed goal : Bool) : goodVerdict changed goal ≠ .failed := by
  cases changed <;> cases goal <;> decide

theorem goodVerdict_inj {changed changed' goal : Bool} :
    goodVerdict changed goal = goodVerdict changed' goal ↔ changed = changed' := by
  cases changed <;> cases changed' <;> cases goal <;> decide

theorem filter_fails (h : ∀ c ∈ checks, c.fails = false) : checks.filter (·.fails) = [] :=
  List.filter_eq_nil_iff.mpr fun c hc => by rw [h c hc]; exact Bool.false_ne_true

theorem verdict_of_ok (hsteps : ∀ s ∈ steps, s.kind ≠ .skip → s.cls = .judged .ok)
    (hchecks : ∀ c ∈ checks, c.fails = false) :
    verdict alters steps checks =
      goodVerdict (steps.any fun s => s.acted && s.changed alters) (checks.any (·.isGoal)) := by
  have hacted : ∀ s ∈ steps.filter (·.acted), s.cls = .judged .ok := by
    intro s hs
    obtain ⟨hmem, hkind⟩ := List.mem_filter.mp hs
    exact hsteps s hmem (of_decide_eq_true hkind)
  have hlimits : (steps.filter (·.acted)).filter (·.cls = .labLimit) = [] := by
    refine List.filter_eq_nil_iff.mpr fun s hs hcls => ?_
    rw [decide_eq_true_eq, hacted s hs] at hcls
    cases hcls
  have hbad : (steps.filter (·.acted)).filter (fun s => s.cls ≠ .judged .ok ∧ s.cls ≠ .labLimit) = [] := by
    refine List.filter_eq_nil_iff.mpr fun s hs hcls => ?_
    exact (of_decide_eq_true hcls).1 (hacted s hs)
  have hok : (steps.filter (·.acted)).filter (·.cls = .judged .ok) = steps.filter (·.acted) :=
    List.filter_eq_self.mpr fun s hs => decide_eq_true (hacted s hs)
  have hgoal : checks.filter (·.isGoal) ≠ [] ↔ checks.any (·.isGoal) = true := by
    rw [ne_eq, List.filter_eq_nil_iff, List.any_eq_true]
    push Not
    rfl
  unfold verdict
  simp only [hlimits, hbad, hok, filter_fails hchecks, List.any_filter, hgoal]
  generalize (steps.any fun s => s.acted && s.changed alters) = changed
  generalize checks.any (·.isGoal) = goal
  cases changed <;> cases goal <;> rfl

/-- A step that did not end well. -/
theorem verdict_of_bad {s : NotedStep} (hmem : s ∈ steps) (hkind : s.kind ≠ .skip) (hcls : s.cls ≠ .judged .ok)
    (hlimit : s.cls ≠ .labLimit) : verdict alters steps checks = .failed := by
  have hbad : (steps.filter (·.acted)).filter (fun s => s.cls ≠ .judged .ok ∧ s.cls ≠ .labLimit) ≠ [] := by
    refine List.ne_nil_of_mem (a := s) (List.mem_filter.mpr ⟨List.mem_filter.mpr ⟨hmem, ?_⟩, ?_⟩)
    · exact decide_eq_true hkind
    · exact decide_eq_true ⟨hcls, hlimit⟩
  unfold verdict
  simp only [hbad, false_and, and_false, if_false]

/-! ### The procedure of a mended run -/

theorem exists_any {p : NotedStep → Bool} {q : NotedStep → Prop} (h : ∀ s ∈ steps, p s = true ↔ q s) :
    steps.any p = true ↔ ∃ s ∈ steps, q s := by
  rw [List.any_eq_true]
  exact ⟨fun ⟨s, hs, hp⟩ => ⟨s, hs, (h s hs).mp hp⟩, fun ⟨s, hs, hq⟩ => ⟨s, hs, (h s hs).mpr hq⟩⟩

/-- Every step is a file that was written or a run step that worked. -/
def Worked (steps : List NotedStep) : Prop :=
  ∀ s ∈ steps, s.kind ≠ .skip → s.cls = .judged .ok ∨ s.kind = .run ∧ s.cls = .repaired

theorem Mended.worked (h : Mended steps checks) (hnone : ∀ s ∈ steps, s.kind = .run → s.cls ≠ .skipped) :
    Worked steps := by
  intro s hs hkind
  obtain ⟨front, back, heq⟩ := List.append_of_mem hs
  obtain hok | ⟨hrun, hrepaired | hout⟩ := h.each front s back heq hkind
  · exact .inl hok
  · exact .inr ⟨hrun, hrepaired⟩
  · exact absurd hout.1 (hnone s hs hrun)

theorem Worked.asFixed (h : Worked steps) : ∀ s ∈ steps.map asFixed, s.kind ≠ .skip → s.cls = .judged .ok := by
  intro s hs hkind
  obtain ⟨t, ht, rfl⟩ := List.mem_map.mp hs
  obtain hok | ⟨-, hrepaired⟩ := h t ht hkind
  · have hne : t.cls ≠ .repaired := by rw [hok]; exact nofun
    exact (if_neg hne).trans hok
  · exact if_pos hrepaired

theorem cls_followed {s : NotedStep} (h : s ∈ followed steps) : s.cls = .judged .ok := by
  obtain ⟨t, -, rfl⟩ := List.mem_map.mp h
  rfl

/-- What the procedure shows of a step that worked. -/
theorem shown_of_worked {s : NotedStep} (h : s.kind ≠ .skip → s.cls = .judged .ok ∨ s.kind = .run ∧ s.cls = .repaired) :
    shown s = match s.kind with
      | .skip => none
      | .run => some { s with source := s.worked }
      | _ => some s := by
  unfold shown
  cases hkind : s.kind with
  | skip => rfl
  | run =>
    rw [hkind] at h
    exact if_pos ((h nofun).imp_right And.right)
  | write | append | prepend | edit | prose =>
    rw [hkind] at h
    refine if_pos ((h nofun).resolve_right fun hrun => ?_)
    cases hrun.1

variable (alters) in
/-- A step changes something as the answer has it. -/
theorem acted_changed_iff (s : NotedStep) : (s.acted && s.changed alters) = true ↔
    (s.kind ≠ .run ∧ s.kind ≠ .skip) ∨ s.kind = .run ∧ alters s.source = true := by
  unfold NotedStep.acted NotedStep.changed
  cases s.kind <;> simp

/-- The twin changes something if a file is written, or the commands of the answer do. -/
theorem any_asFixed : ((steps.map asFixed).any fun s => s.acted && s.changed alters) = true ↔
    (∃ s ∈ steps, s.kind ≠ .run ∧ s.kind ≠ .skip) ∨ ∃ s ∈ steps, s.kind = .run ∧ alters s.source = true := by
  rw [List.any_map]
  refine (exists_any fun s _ => acted_changed_iff alters (asFixed s)).trans ?_
  constructor
  · rintro ⟨s, hs, h | h⟩
    · exact .inl ⟨s, hs, h⟩
    · exact .inr ⟨s, hs, h⟩
  · rintro (⟨s, hs, h⟩ | ⟨s, hs, h⟩)
    · exact ⟨s, hs, .inl h⟩
    · exact ⟨s, hs, .inr h⟩

/-- The procedure does if a file is written, or the commands that worked do. -/
theorem any_followed (h : Worked steps) : ((followed steps).any fun s => s.acted && s.changed alters) = true ↔
    (∃ s ∈ steps, s.kind ≠ .run ∧ s.kind ≠ .skip) ∨ ∃ s ∈ steps, s.kind = .run ∧ alters s.worked = true := by
  have hone : ∀ s ∈ steps, (∃ t, shown s = some t ∧
      (({ t with cls := .judged .ok } : NotedStep).acted && ({ t with cls := .judged .ok } : NotedStep).changed alters) = true) ↔
        (s.kind ≠ .run ∧ s.kind ≠ .skip) ∨ s.kind = .run ∧ alters s.worked = true := by
    intro s hs
    rw [shown_of_worked (h s hs)]
    simp only [acted_changed_iff]
    cases hkind : s.kind <;> simp [hkind]
  rw [List.any_eq_true]
  constructor
  · rintro ⟨u, hu, hchanged⟩
    obtain ⟨t, ht, rfl⟩ := List.mem_map.mp hu
    obtain ⟨s, hs, hst⟩ := List.mem_filterMap.mp ht
    obtain hs' | hs' := (hone s hs).mp ⟨t, hst, hchanged⟩
    · exact .inl ⟨s, hs, hs'⟩
    · exact .inr ⟨s, hs, hs'⟩
  · intro hchange
    obtain ⟨s, hs, hs'⟩ : ∃ s ∈ steps, (s.kind ≠ .run ∧ s.kind ≠ .skip) ∨ s.kind = .run ∧ alters s.worked = true := by
      obtain ⟨s, hs, hs'⟩ | ⟨s, hs, hs'⟩ := hchange
      · exact ⟨s, hs, .inl hs'⟩
      · exact ⟨s, hs, .inr hs'⟩
    obtain ⟨t, hst, hchanged⟩ := (hone s hs).mpr hs'
    exact ⟨_, List.mem_map.mpr ⟨t, List.mem_filterMap.mpr ⟨s, hs, hst⟩, rfl⟩, hchanged⟩

variable (alters) in
theorem repairedOf_of_mended (h : Mended steps checks) :
    ∃ r, repairedOf alters steps checks = some r ∧ r.verdict = verdict alters (steps.map asFixed) checks := by
  obtain ⟨s, hs, hcls⟩ := h.repaired
  have hne : steps.filter (·.cls = .repaired) ≠ [] :=
    List.ne_nil_of_mem (List.mem_filter.mpr ⟨hs, decide_eq_true hcls⟩)
  exact ⟨_, if_neg hne, rfl⟩

/-- **The repaired verdict is that of the procedure exactly if no step was left out and the repairs make no
difference to whether something changes.** -/
theorem matches_procedure_iff (h : Mended steps checks) :
    Matches alters steps checks ↔ (∀ s ∈ steps, s.kind = .run → s.cls ≠ .skipped) ∧ SameChange alters steps := by
  obtain ⟨r, hr, hverdict⟩ := repairedOf_of_mended alters h
  have hmatches : Matches alters steps checks ↔
      r.verdict ≠ .failed ∧ r.verdict = verdict alters (followed steps) checks := by
    refine ⟨fun ⟨r', hr', h⟩ => ?_, fun h => ⟨r, hr, h⟩⟩
    cases hr.symm.trans hr'
    exact h
  rw [hmatches, hverdict]
  by_cases hnone : ∀ s ∈ steps, s.kind = .run → s.cls ≠ .skipped
  · have hworked := h.worked hnone
    have hor (a b c : Prop) : (a ∨ b ↔ a ∨ c) ↔ a ∨ (b ↔ c) := by
      by_cases ha : a
      · simp [ha]
      · simp [ha]
    rw [verdict_of_ok hworked.asFixed h.passed, verdict_of_ok (fun s hs _ => cls_followed hs) h.passed,
      goodVerdict_inj, Bool.eq_iff_iff, any_asFixed, any_followed hworked, hor]
    exact ⟨fun hsame => ⟨hnone, hsame.2⟩, fun hsame => ⟨goodVerdict_ne_failed _ _, hsame.2⟩⟩
  · -- a step that is left out counts as a failure of the twin
    have hbad : verdict alters (steps.map asFixed) checks = .failed := by
      push Not at hnone
      obtain ⟨s, hs, hrun, hskipped⟩ := hnone
      have hfixed : (asFixed s).cls = .skipped := by rw [asFixed, hskipped]; rfl
      refine verdict_of_bad (List.mem_map_of_mem hs) ?_ ?_ ?_
      · change s.kind ≠ .skip
        rw [hrun]
        exact nofun
      · rw [hfixed]
        exact nofun
      · rw [hfixed]
        exact nofun
    rw [hbad]
    exact ⟨fun hne => absurd rfl hne.1, fun hsame => absurd hsame.1 hnone⟩

/-! ### Two answers -/

/-- A run step, numbered, that was repaired. -/
def repairedStep (n : ℕ) (source repair final : String) : NotedStep :=
  { Step.of .run source with cls := .repaired, repair := repair, final := final, n := n, note := "" }

/-- Two of the things by which the lab knows a command that changes something. -/
def altering (source : String) : Bool := occurs "apt install " source || occurs "systemctl restart " source

/-- A package, and then its service, that were not named right. -/
def installed : List NotedStep :=
  [repairedStep 1 "apt install ngins" "installed 'nginx' instead of 'ngins'" "apt install nginx",
    { Step.of .run "nginx -t" with exit := some 0, cls := .judged .ok, n := 2, note := "" },
    repairedStep 3 "systemctl restart ngins" "used the unit nginx" "systemctl restart nginx"]

theorem matches_installed : Matches altering installed [] := by
  have hsteps : ∀ s ∈ installed, s.kind = .run ∧ (s.cls = .judged .ok ∨ s.cls = .repaired) :=
    List.forall_mem_cons.mpr ⟨⟨rfl, .inr rfl⟩,
      List.forall_mem_cons.mpr ⟨⟨rfl, .inl rfl⟩, List.forall_mem_singleton.mpr ⟨rfl, .inr rfl⟩⟩⟩
  have hmended : Mended installed [] := by
    refine ⟨fun front s back heq _ => ?_, ⟨_, List.mem_cons_self, rfl⟩, fun c hc => (List.not_mem_nil hc).elim⟩
    obtain ⟨hkind, hcls⟩ := hsteps s (heq ▸ List.mem_append_right front List.mem_cons_self)
    exact hcls.imp_right fun hrepaired => ⟨hkind, .inl hrepaired⟩
  -- the first step installs a package, before the repair and after it
  have hsource : ∃ s ∈ installed, s.kind = .run ∧ altering s.source = true :=
    ⟨_, List.mem_cons_self, rfl, by decide⟩
  have hworked : ∃ s ∈ installed, s.kind = .run ∧ altering s.worked = true :=
    ⟨_, List.mem_cons_self, rfl, by decide⟩
  refine (matches_procedure_iff hmended).mpr ⟨fun s hs _ hskipped => ?_, .inr (iff_of_true hsource hworked)⟩
  obtain ⟨-, hcls | hcls⟩ := hsteps s hs
  · cases hcls.symm.trans hskipped
  · cases hcls.symm.trans hskipped

/-- "userdel bob", which the lab runs as root, and "if that fails, sudo userdel bob". -/
def removal : NotedStep :=
  repairedStep 1 "userdel bob" "ran it as root (the answer left sudo off)" "sudo bash -c 'userdel bob'"

def retry : NotedStep :=
  { Step.of .run "sudo userdel bob" with exit := some 0, cls := .skipped, n := 2, note := "" }

theorem leftOut_retry : LeftOut [removal] retry := by
  have hroot : occurs "ran it as root" removal.repair = true :=
    decide_eq_true ⟨[], " (the answer left sudo off)".toList, by decide⟩
  have hsudo : Python.startswith (Python.strip retry.source) "sudo" = true := by decide
  have hnorm : norm retry.source = norm removal.source := by decide
  refine ⟨rfl, ?_⟩
  have hlast : ((([removal].map (·.toStep)).filter (·.kind = .run)).getLast?) = some removal.toStep := rfl
  rw [repeatsRootRepair, hlast]
  exact decide_eq_true ⟨rfl, hroot, hsudo, hnorm⟩

/-- The retry is left out, so the repaired run fails. -/
theorem retry_fails :
    ¬∀ (alters : String → Bool) (steps : List NotedStep) (checks : List Check), Mended steps checks →
      Matches alters steps checks := by
  intro h
  have hmended : Mended [removal, retry] [] := by
    refine ⟨fun front s back heq _ => ?_, ⟨_, List.mem_cons_self, rfl⟩, fun c hc => (List.not_mem_nil hc).elim⟩
    match front with
    | [] =>
      obtain ⟨rfl, -⟩ := List.cons.inj heq
      exact .inr ⟨rfl, .inl rfl⟩
    | [t] =>
      cases heq
      exact .inr ⟨rfl, .inr leftOut_retry⟩
    | t :: u :: front =>
      have hlength := congrArg List.length heq
      simp only [List.length_cons, List.length_append, List.length_nil] at hlength
      omega
  obtain ⟨r, hr, hne, -⟩ := h (fun _ => true) _ [] hmended
  obtain ⟨r', hr', hverdict⟩ := repairedOf_of_mended (fun _ => true) hmended
  cases hr.symm.trans hr'
  refine hne (hverdict.trans (verdict_of_bad (s := asFixed retry) ?_ nofun nofun nofun))
  exact List.mem_map_of_mem (List.mem_cons_of_mem _ List.mem_cons_self)

end RepairedVerdict
end CloudCore
