import CloudCore.Kiwix.Updates
import Mathlib.Data.List.Basic
import Mathlib.Data.List.Nodup

/-!
# What the updates of the library promise

## Main definitions

* `Inv` — what holds at every moment.
* `Guard` — what is known where a call is made.
* `Synced` — between two candidates the manifest in memory is the one in the file.

## Main results

* `promises_of_reaches` — **the promises are kept in every run that is steady.**
* `lost` — an entry whose update has failed is written with the next one, and its old file is
  lost.
-/

namespace CloudCore
namespace Kiwix

open Effect Python
open Effect.Program (attempt)

variable {H : Host} {s s' s'' : State} {digit : Char → Bool}

/-! ### Names -/

/-- The names that a pass uses for the time being. -/
def Scratch (name : String) : Prop :=
  ".part".toList <:+ name.toList ∨ ".bad".toList <:+ name.toList ∨ ".meta4".toList <:+ name.toList

/-- The name of a file that stays. -/
def Final (name : String) : Prop := Plain name ∧ ¬Scratch name

/-- The name of a release: it has no slash, and ends in `.zim`. -/
def Named (name : String) : Prop :=
  '/' ∉ name.toList ∧ (".zim".toList <:+ name.toList ∨ ".zim\n".toList <:+ name.toList)

theorem not_suffix {a b l : List Char} (ha : a <:+ l) (hne : a.getLast? ≠ b.getLast?) (hnil : a ≠ [])
    (hbnil : b ≠ []) : ¬b <:+ l := by
  intro hb
  obtain ⟨u, rfl⟩ := ha
  obtain ⟨v, hv⟩ := hb
  have hlast : (v ++ b).getLast? = (u ++ a).getLast? := by rw [hv]
  rw [List.getLast?_append_of_ne_nil _ hbnil, List.getLast?_append_of_ne_nil _ hnil] at hlast
  exact hne hlast.symm

theorem Named.final {name : String} (h : Named name) : Final name := by
  obtain ⟨hslash, hzim⟩ := h
  refine ⟨⟨hslash, fun hmem => ?_⟩, ?_⟩
  · simp only [List.mem_cons, List.not_mem_nil, or_false] at hmem
    obtain rfl | rfl | rfl := hmem <;> revert hzim <;> decide
  · obtain h | h := hzim
    · rintro (h' | h' | h')
      all_goals exact not_suffix h (by decide) (by decide) (by decide) h'
    · rintro (h' | h' | h')
      all_goals exact not_suffix h (by decide) (by decide) (by decide) h'

theorem plain_append {name suffix : String} (hname : '/' ∉ name.toList)
    (hsuffix : '/' ∉ suffix.toList) (hlen : 2 < suffix.toList.length) : Plain (name ++ suffix) := by
  refine ⟨?_, fun hmem => ?_⟩
  · rw [String.toList_append, List.mem_append]
    exact not_or.mpr ⟨hname, hsuffix⟩
  · have hlen' : suffix.toList.length ≤ (name ++ suffix).toList.length := by
      rw [String.toList_append, List.length_append]
      exact Nat.le_add_left ..
    simp only [List.mem_cons, List.not_mem_nil, or_false] at hmem
    obtain h | h | h := hmem
    all_goals
      rw [h] at hlen'
      have := hlen.trans_le hlen'
      revert this
      decide

theorem suffix_append_right (name suffix : String) : suffix.toList <:+ (name ++ suffix).toList := by
  rw [String.toList_append]
  exact List.suffix_append ..

/-- A name that leads to no file that stays. -/
def Off (H : Host) (name : String) : Prop := ∀ f, Final f → H.locate name ≠ H.locate f

theorem off_of_scratch {name : String} (hplain : Plain name) (hscratch : Scratch name) :
    Off H name := by
  intro f hf heq
  rw [H.locate_plain name hplain, H.locate_plain f hf.1] at heq
  exact hf.2 (heq ▸ hscratch)

theorem off_partOf {name : String} (h : Named name) : Off H (partOf name) :=
  off_of_scratch (plain_append h.1 (by decide) (by decide))
    (.inl (suffix_append_right ..))

theorem off_badOf {name : String} (h : Named name) : Off H (badOf name) :=
  off_of_scratch (plain_append h.1 (by decide) (by decide))
    (.inr (.inl (suffix_append_right ..)))

theorem slash_withoutSuffix {name : String} (h : '/' ∉ name.toList) :
    '/' ∉ (withoutSuffix name).toList := by
  unfold withoutSuffix
  dsimp only
  split
  · exact h
  · rw [String.toList_ofList, List.mem_reverse]
    intro hmem
    have hmem := (List.dropWhile_sublist _).subset (List.mem_of_mem_drop hmem)
    exact h (List.mem_reverse.mp hmem)

theorem off_metaOf {name : String} (h : Named name) : Off H (metaOf name) :=
  off_of_scratch (plain_append (slash_withoutSuffix h.1) (by decide) (by decide))
    (.inr (.inr (suffix_append_right ..)))

/-! ### The catalog -/

/-- What has a release is the name of one. -/
theorem named_of_release {url : String} (h : release digit (lastPart url) ≠ "") :
    Named (lastPart url) := by
  constructor
  · unfold lastPart
    rw [String.toList_ofList, List.mem_reverse]
    intro hmem
    simpa using List.mem_takeWhile_imp hmem
  · unfold release at h
    split at h
    · next w hw =>
      obtain ⟨before, y, hy, hends⟩ :=
        Re.exists_of_mem_findallFrom (List.mem_of_mem_head? (Option.mem_def.mpr hw))
      obtain ⟨p, hp⟩ := List.exists_mem_of_ne_nil _ hends
      -- behind the date there is `.zim`, and then the end
      obtain ⟨m, hm, hp⟩ := List.mem_flatMap.mp hp
      obtain ⟨m', hm', hp⟩ := List.mem_flatMap.mp hp
      have hrest := (Re.mem_ends_lit.mp hm').1
      have hsuffix := (Re.suffix_of_mem_ends hm).trans hy
      obtain ⟨hend, -⟩ := Re.mem_here.mp hp
      rw [Bool.or_eq_true, List.isEmpty_iff, beq_iff_eq] at hend
      obtain hend | hend := hend
      · left
        rw [hrest, hend, List.append_nil] at hsuffix
        exact hsuffix
      · right
        rw [hrest, hend] at hsuffix
        exact hsuffix
    · exact absurd rfl h

/-- Every release of the catalog has the name of one. -/
def Catalog.Named (catalog : Catalog) : Prop := ∀ k r, catalog k = some r → Kiwix.Named r.filename

theorem named_addLink {latest catalog : Catalog} {link : Link} (hl : latest.Named)
    (h : addLink digit latest link = .ok catalog) : catalog.Named := by
  unfold addLink at h
  dsimp only at h
  split at h
  · exact Except.ok.inj h ▸ hl
  · next hrel =>
    split at h
    · split at h
      · obtain rfl := Except.ok.inj h
        intro k r hr
        by_cases hk : k = stem digit (lastPart (removesuffix link.href ".meta4"))
        · subst hk
          rw [Function.update_self] at hr
          obtain rfl := Option.some.inj hr
          exact named_of_release fun heq => hrel (.inr heq)
        · rw [Function.update_of_ne hk] at hr
          exact hl k r hr
      · cases h
    · exact Except.ok.inj h ▸ hl

theorem named_foldlM {links : List Link} {latest catalog : Catalog} (hl : latest.Named)
    (h : links.foldlM (addLink digit) latest = .ok catalog) : catalog.Named := by
  induction links generalizing latest with
  | nil => exact Except.ok.inj h ▸ hl
  | cons link links ih =>
    rw [List.foldlM_cons] at h
    cases hadd : addLink digit latest link with
    | error e =>
      rw [hadd] at h
      cases h
    | ok next =>
      rw [hadd] at h
      exact ih (named_addLink hl hadd) h

theorem named_fetchCatalog {links : List Link} {catalog : Catalog}
    (h : fetchCatalog digit links = .ok catalog) : catalog.Named :=
  named_foldlM (fun _ _ hr => by cases hr) h

/-! ### The candidates -/

section

variable {reached : ℤ → ℤ → Bool} {catalog : Catalog} {m : Manifest} {c : Candidate}

theorem candidate_index {z : Zim} {i : ℕ} (h : candidate digit reached catalog z i = some c) :
    c.index = i ∧ ∃ k, catalog k = some c.new := by
  unfold candidate at h
  obtain ⟨_, -, h⟩ := Option.bind_eq_some_iff.mp h
  obtain ⟨new, hnew, h⟩ := Option.bind_eq_some_iff.mp h
  split at h
  · obtain rfl := Option.some.inj h
    exact ⟨rfl, _, hnew⟩
  · cases h

/-- A candidate is about an entry, and has the name of a release. -/
theorem mem_findUpdates (hcatalog : catalog.Named) (h : c ∈ findUpdates digit reached m catalog) :
    (∃ z, m.zims[c.index]? = some z) ∧ Named c.new.filename := by
  obtain ⟨⟨z, i⟩, hmem, hc⟩ := List.mem_filterMap.mp h
  obtain ⟨rfl, k, hk⟩ := candidate_index hc
  exact ⟨⟨z, List.mem_zipIdx_iff_getElem?.mp hmem⟩, hcatalog k _ hk⟩

/-- Candidates are about different entries. -/
theorem nodup_findUpdates :
    ((findUpdates digit reached m catalog).map (·.index)).Nodup := by
  have hsub : ((findUpdates digit reached m catalog).map (·.index)).Sublist
      (m.zims.zipIdx.map (·.2)) := by
    unfold findUpdates
    generalize m.zims.zipIdx = l
    induction l with
    | nil => exact List.Sublist.slnil
    | cons p l ih =>
      obtain ⟨z, i⟩ := p
      rw [List.filterMap_cons, List.map_cons]
      split
      · exact ih.cons _
      · next c hc =>
        rw [List.map_cons, (candidate_index hc).1]
        exact ih.cons_cons _
  refine hsub.nodup ?_
  rw [List.zipIdx_map_snd]
  exact List.nodup_range' ..

end

/-! ### The invariant -/

/-- The entries that are no longer the first ones are names of files that stay, and present. -/
def Truthful (H : Host) (first : Manifest) (files : String → Option Bytes) (m : Manifest) : Prop :=
  ∀ (i : ℕ) (z : Zim), m.zims[i]? = some z → first.zims[i]? ≠ some z →
    Final z.filename ∧ z.Present H files

/-- No file that an entry has been moved away from is lost. -/
def Moved (deleted : List Deletion) (old m : Manifest) : Prop :=
  ∀ (i : ℕ) (z z' : Zim), old.zims[i]? = some z → m.zims[i]? = some z' →
    z.filename ≠ z'.filename → Accounted deleted m z.filename

/-- **The invariant.** -/
structure Inv (H : Host) (s : State) : Prop where
  truthful : ∀ m, s.manifest = some m → Truthful H s.first s.files m
  moved : ∀ m, s.manifest = some m → ∀ old ∈ s.history, Moved s.deleted old m
  left : ∀ i ∈ s.failed, s.memory.zims[i]? = s.opened.zims[i]? ∧
    ∀ m : Manifest, s.manifest = some m → m.zims[i]? = s.opened.zims[i]?
  allowed : ∀ d ∈ s.deleted, d.Allowed H

theorem Inv.promises (h : Inv H s) : Promises H s where
  truthful m hm i z hz hne := (h.truthful m hm i z hz hne).2
  accounted := h.moved
  left := h.left
  allowed := h.allowed

/-- What a manifest is like that may be written. -/
structure Writable (H : Host) (s : State) (m : Manifest) : Prop where
  truthful : Truthful H s.first s.files m
  moved : ∀ old ∈ s.history, Moved s.deleted old m
  left : ∀ i ∈ s.failed, m.zims[i]? = s.opened.zims[i]?

/-- What is known where a call is made. -/
def Guard (H : Host) (s : State) : Cmd → Prop
  | .retrieve _ name | .append name | .unlink name => Off H name
  | .aria2c name => s.files (H.locate name) = none
  | .place name => s.files (H.locate name) = none ∧ Off H (partOf name)
  | .setAside name => Off H (badOf name) ∧
      ∀ m, s.manifest = some m → ∀ z ∈ m.zims, H.locate z.filename ≠ H.locate name
  | .edit i _ => i ∉ s.failed
  | .writeUpdate m | .writePruned m => Writable H s m
  | .report i => s.memory.zims[i]? = s.opened.zims[i]? ∧
      ∀ m : Manifest, s.manifest = some m → m.zims[i]? = s.opened.zims[i]?
  | .delete e days =>
      Deletion.Allowed H ⟨e.filename, s.manifest, s.now, days, s.running || s.started⟩
  | _ => True

theorem Truthful.mono {first m : Manifest} {files files' : String → Option Bytes}
    (h : Truthful H first files m)
    (hfiles : ∀ z ∈ m.zims, Final z.filename → z.Present H files →
      files' (H.locate z.filename) = files (H.locate z.filename)) : Truthful H first files' m := by
  intro i z hz hne
  obtain ⟨hf, hp⟩ := h i z hz hne
  have heq := hfiles z (List.mem_of_getElem? hz) hf hp
  obtain ⟨c, hc, hrest⟩ := hp
  exact ⟨hf, c, heq.trans hc, hrest⟩

theorem Moved.mono {deleted deleted' : List Deletion} {old m : Manifest} (h : Moved deleted old m)
    (hdeleted : ∀ d ∈ deleted, d ∈ deleted') : Moved deleted' old m := by
  intro i z z' hz hz' hne
  obtain h | ⟨d, hd, h⟩ := h i z z' hz hz' hne
  · exact .inl h
  · exact .inr ⟨d, hdeleted d hd, h⟩

/-- A change to the files that no entry sees. -/
theorem Inv.files {files' : String → Option Bytes} (h : Inv H s)
    (hfiles : ∀ m, s.manifest = some m → ∀ z ∈ m.zims, Final z.filename → z.Present H s.files →
      files' (H.locate z.filename) = s.files (H.locate z.filename)) :
    Inv H { s with files := files' } :=
  ⟨fun m hm => (h.truthful m hm).mono (hfiles m hm), h.moved, h.left, h.allowed⟩

/-- A change to a file that does not stay. -/
theorem Inv.setFile_off {name : String} {c : Option Bytes} (h : Inv H s) (hoff : Off H name) :
    Inv H (s.setFile (H.locate name) c) :=
  h.files fun _ _ _ _ hf _ => Function.update_of_ne (hoff _ hf).symm ..

/-- A file is put where none was. -/
theorem Inv.setFile_new {name : String} {c : Option Bytes} (h : Inv H s)
    (hnone : s.files (H.locate name) = none) : Inv H (s.setFile (H.locate name) c) := by
  refine h.files fun m _ z _ _ hp => Function.update_of_ne (fun heq => ?_) ..
  obtain ⟨c', hc', -⟩ := hp
  rw [heq, hnone] at hc'
  cases hc'

/-- A file goes that no entry names. -/
theorem Inv.setFile_unnamed {name : String} {c : Option Bytes} (h : Inv H s)
    (hnot : ∀ m, s.manifest = some m → ∀ z ∈ m.zims, H.locate z.filename ≠ H.locate name) :
    Inv H (s.setFile (H.locate name) c) :=
  h.files fun m hm z hz _ _ => Function.update_of_ne (hnot m hm z hz) ..

theorem Inv.setMemory {m : Manifest} (h : Inv H s)
    (hm : ∀ i ∈ s.failed, m.zims[i]? = s.memory.zims[i]?) : Inv H { s with memory := m } :=
  ⟨h.truthful, h.moved, fun i hi => ⟨(hm i hi).trans (h.left i hi).1, (h.left i hi).2⟩, h.allowed⟩

theorem inv_of_wrote {m : Manifest} {a : Except Failure Unit} (hx : Wrote s m a s')
    (hg : Writable H s m) (h : Inv H s) : Inv H s' := by
  cases a with
  | ok _ =>
    obtain rfl := hx
    refine ⟨fun m' hm' => ?_, fun m' hm' old hold => ?_, fun i hi => ?_, h.allowed⟩
    · obtain rfl := Option.some.inj hm'
      exact hg.truthful
    · obtain rfl := Option.some.inj hm'
      obtain rfl | hold := List.mem_cons.mp hold
      · intro i z z' hz hz' hne
        obtain rfl := Option.some.inj (hz.symm.trans hz')
        exact absurd rfl hne
      · exact hg.moved old hold
    · refine ⟨(h.left i hi).1, fun m' hm' => ?_⟩
      obtain rfl := Option.some.inj hm'
      exact hg.left i hi
  | error e =>
    obtain rfl | rfl := hx
    · exact h
    · exact ⟨nofun, nofun, fun i hi => ⟨(h.left i hi).1, nofun⟩, h.allowed⟩

theorem getElem?_edit_ne {m : Manifest} {i j : ℕ} {e : Edit} (h : i ≠ j) :
    (m.edit i e).zims[j]? = m.zims[j]? :=
  List.getElem?_modify_ne e.apply _ h

theorem supersede_zims {m m' : Manifest} {e : Superseded} (h : m.supersede e = some m') :
    m'.zims = m.zims ∧ m'.superseded.toList = m.superseded.toList ++ [e] := by
  unfold Manifest.supersede at h
  split at h
  · next habsent =>
    obtain rfl := Option.some.inj h
    exact ⟨rfl, by rw [habsent]; rfl⟩
  · next l hl =>
    obtain rfl := Option.some.inj h
    exact ⟨rfl, by rw [hl]; rfl⟩
  · cases h

/-- **Every call keeps the invariant**, where its guard holds. -/
theorem inv_of_guard {c : Cmd} {a : c.Ans} (hx : exec H s c a s') (hg : Guard H s c)
    (h : Inv H s) : Inv H s' := by
  cases c with
  | readManifest =>
    cases a with
    | ok m =>
      obtain ⟨-, rfl⟩ := hx
      exact ⟨h.truthful, h.moved, nofun, h.allowed⟩
    | error e => exact hx ▸ h
  | retrieve url name =>
    obtain ⟨c, rfl⟩ := hx
    exact h.setFile_off hg
  | aria2c name =>
    obtain ⟨c, rfl⟩ := hx
    exact h.setFile_new hg
  | append name =>
    obtain ⟨c, rfl⟩ := hx
    exact h.setFile_off hg
  | unlink name =>
    cases a with
    | ok _ =>
      obtain rfl := hx
      exact h.setFile_off hg
    | error e => exact hx ▸ h
  | place name =>
    cases a with
    | ok _ =>
      obtain rfl := hx
      exact (h.setFile_new hg.1).setFile_off hg.2
    | error e => exact hx ▸ h
  | setAside name =>
    cases a with
    | ok _ =>
      obtain rfl := hx
      exact (h.setFile_off hg.1).setFile_unnamed hg.2
    | error e => exact hx ▸ h
  | edit i e =>
    obtain rfl := hx
    refine h.setMemory fun j hj => ?_
    have hne : i ≠ j := fun heq => hg (heq ▸ hj)
    exact getElem?_edit_ne hne
  | supersede e =>
    simp only [exec] at hx
    split at hx
    · next m hm =>
      obtain ⟨-, rfl⟩ := hx
      exact h.setMemory fun i _ => by rw [(supersede_zims hm).1]
    · exact hx.2 ▸ h
  | writeUpdate m | writePruned m => exact inv_of_wrote hx hg h
  | report i =>
    obtain rfl := hx
    refine ⟨h.truthful, h.moved, fun j hj => ?_, h.allowed⟩
    obtain rfl | hj := List.mem_cons.mp hj
    · exact hg
    · exact h.left j hj
  | now =>
    obtain ⟨b, rfl⟩ := hx
    exact ⟨h.truthful, h.moved, h.left, h.allowed⟩
  | vmRunning =>
    cases a with
    | ok b =>
      obtain rfl := hx
      exact ⟨h.truthful, h.moved, h.left, h.allowed⟩
    | error e => exact hx ▸ h
  | delete e days =>
    cases a with
    | ok _ =>
      obtain ⟨b, rfl⟩ := hx
      obtain ⟨-, m, hm, -, hnot⟩ := id hg
      refine ⟨fun m' hm' => (h.truthful m' hm').mono fun z hz _ _ => ?_,
        fun m' hm' old hold => (h.moved m' hm' old hold).mono fun _ => List.mem_cons_of_mem _, h.left,
        fun d hd => ?_⟩
      · obtain rfl := Option.some.inj (hm.symm.trans hm')
        exact Function.update_of_ne (hnot z hz) ..
      · obtain rfl | hd := List.mem_cons.mp hd
        · exact hg
        · exact h.allowed d hd
    | error e =>
      obtain ⟨b, rfl⟩ := hx
      exact ⟨h.truthful, h.moved, h.left, h.allowed⟩
  | keep l =>
    obtain rfl := hx
    exact h.setMemory fun _ _ => rfl
  | memory | «exists» | size | partSize | archiveSize | sha256 =>
    obtain ⟨-, rfl⟩ := hx
    exact h
  | fetchCatalog | diskFree | published | aria2cInstalled | request | libzim | openArchive
  | bookName | uuid | fulltext | merging | git => exact hx ▸ h

/-! ### The rules -/

/-- What the calls do, as far as a run admits it. -/
abbrev Sem (H : Host) (s : State) (c : Cmd) (a : c.Ans) (s' : State) : Prop :=
  exec H s c a s' ∧ Steady H s (.call () c a) ∧ Inv H s

/-- The weakest precondition of a program. -/
abbrev mwp {α : Type} (H : Host) (p : Code α) (Q : α → State → Prop) (E : Failure → State → Prop)
    (s : State) : Prop :=
  Program.wp (F := sig) (Sem H) Eq (fun s c _ _ => Guard H s c) p Q E s

section

variable {α β : Type} {Q : α → State → Prop} {E : Failure → State → Prop} {B : β → State → Prop}

theorem mwp_bind {p : Code β} {f : β → Code α} (h : mwp H p B E s)
    (hf : ∀ b s, B b s → mwp H (f b) Q E s) : mwp H (p >>= f) Q E s :=
  Program.wp_after h hf

theorem mwp_mono {Q' : α → State → Prop} {E' : Failure → State → Prop} {p : Code α}
    (h : mwp H p Q E s) (hQ : ∀ a s, Q a s → Q' a s) (hE : ∀ e s, E e s → E' e s) :
    mwp H p Q' E' s :=
  Program.wp_mono hQ hE h

/-- A call. -/
theorem mwp_step {c : Cmd} (hans : c.Ans = β)
    (h : ∀ a s', Sem H s c a s' → Guard H s c ∧ B (hans ▸ a) s') :
    mwp H (step c hans) B E s := by
  subst hans
  rintro s₁ rfl a s' hx
  exact h a s' hx

/-- A call that may raise. -/
theorem mwp_try {c : Cmd} (hans : c.Ans = Except Failure β)
    (h : ∀ a s', Sem H s c a s' → Guard H s c ∧
      (∀ b, hans ▸ a = Except.ok b → B b s') ∧ ∀ e, hans ▸ a = Except.error e → E e s') :
    mwp H (tryStep c hans) B E s := by
  rintro s₁ rfl a s' hx
  obtain ⟨hg, hok, herr⟩ := h a s' hx
  exact ⟨hg, Program.wp_lift.mpr ⟨hok, herr⟩⟩

/-- The calls that change nothing. -/
def Cmd.neutral : Cmd → Bool
  | .memory | .exists _ | .size _ | .partSize _ | .archiveSize _ | .sha256 _ | .fetchCatalog
  | .diskFree | .published _ | .aria2cInstalled | .request .. | .libzim | .openArchive _
  | .bookName _ | .uuid _ | .fulltext _ | .merging | .git _ => true
  | _ => false

theorem neutral_spec {c : Cmd} {a : c.Ans} (hc : c.neutral = true) (hx : exec H s c a s') :
    s' = s ∧ Guard H s c := by
  cases c with
  | memory | «exists» | size | partSize | archiveSize | sha256 => exact ⟨hx.2, trivial⟩
  | fetchCatalog | diskFree | published | aria2cInstalled | request | libzim | openArchive
  | bookName | uuid | fulltext | merging | git => exact ⟨hx, trivial⟩
  | _ => cases hc

/-- A call that changes nothing. -/
theorem mwp_neutral {c : Cmd} (hans : c.Ans = β) (hc : c.neutral = true) :
    mwp H (step c hans) (fun _ s' => s' = s) E s :=
  mwp_step hans fun _ _ hx => ⟨(neutral_spec hc hx.1).2, (neutral_spec hc hx.1).1⟩

/-- And may raise. -/
theorem mwp_neutral_try {c : Cmd} (hans : c.Ans = Except Failure β) (hc : c.neutral = true) :
    mwp H (tryStep c hans) (fun _ s' => s' = s) (fun _ s' => s' = s) s :=
  mwp_try hans fun _ _ hx => ⟨(neutral_spec hc hx.1).2, fun _ _ => (neutral_spec hc hx.1).1,
    fun _ _ => (neutral_spec hc hx.1).1⟩

theorem mwp_lift {x : Except Failure β} (h : ∀ b, x = .ok b → B b s) (he : ∀ e, E e s) :
    mwp H (Program.lift x) B E s :=
  Program.wp_lift.mpr ⟨h, fun e _ => he e⟩

end

/-! ### The download -/

/-- Only files have changed. -/
def OnlyFiles (s s' : State) : Prop := ∃ files, s' = { s with files }

theorem OnlyFiles.refl (s : State) : OnlyFiles s s := ⟨s.files, rfl⟩

theorem OnlyFiles.trans (h : OnlyFiles s s') (h' : OnlyFiles s' s'') : OnlyFiles s s'' := by
  obtain ⟨f, rfl⟩ := h
  obtain ⟨f', rfl⟩ := h'
  exact ⟨f', rfl⟩

theorem onlyFiles_setFile (path : String) (c : Option Bytes) : OnlyFiles s (s.setFile path c) :=
  ⟨_, rfl⟩

/-- Only files have changed, and there is none of that name. -/
def Missing (H : Host) (name : String) (s s' : State) : Prop :=
  OnlyFiles s s' ∧ s'.files (H.locate name) = none

theorem Missing.setFile {name other : String} {c : Option Bytes} (h : Missing H name s s')
    (hne : H.locate other ≠ H.locate name) :
    Missing H name s (s'.setFile (H.locate other) c) :=
  ⟨h.1.trans (onlyFiles_setFile ..), (Function.update_of_ne hne.symm ..).trans h.2⟩

section

variable {name url : String} {size : ℤ} {have_ : ℕ} {status : ℤ}

/-- A partial download goes. -/
theorem mwp_unlink {other : String} (hoff : Off H other) (hf : Final name)
    (h : Missing H name s s') :
    mwp H (tryStep (.unlink other) rfl) (fun _ s'' => Missing H name s s'')
      (fun _ s'' => Missing H name s s'') s' := by
  refine mwp_try rfl fun a s'' hx => ⟨hoff, ?_⟩
  obtain ⟨hx, -⟩ := hx
  cases a with
  | ok _ =>
    obtain rfl := hx
    exact ⟨fun _ _ => h.setFile (hoff _ hf), fun _ _ => h.setFile (hoff _ hf)⟩
  | error e =>
    obtain rfl := hx
    exact ⟨fun _ _ => h, fun _ _ => h⟩

theorem mwp_receive (hn : Named name) (h : Missing H name s s') :
    mwp H (receive name size have_ status) (fun _ s'' => Missing H name s s'')
      (fun _ s'' => Missing H name s s'') s' := by
  unfold receive
  split
  · exact h
  · refine mwp_bind (B := fun _ s'' => Missing H name s s'') ?_ fun _ s₁ h₁ => ?_
    · unfold restart
      split
      · exact mwp_unlink (off_partOf hn) hn.final h
      · exact h
    · split
      · refine mwp_try rfl fun a s'' hx => ⟨off_partOf hn, ?_⟩
        obtain ⟨⟨c, rfl⟩, -⟩ := hx
        have h₂ := h₁.setFile (c := some ((s₁.files (H.locate (partOf name))).getD [] ++ c))
          (off_partOf (H := H) hn _ hn.final)
        exact ⟨fun _ _ => h₂, fun _ _ => h₂⟩
      · exact h₁

theorem mwp_downloadOnce (hn : Named name) (h : Missing H name s s') :
    mwp H (downloadOnce url name size) (fun _ s'' => Missing H name s s'')
      (fun _ s'' => Missing H name s s'') s' := by
  refine mwp_bind (mwp_mono (mwp_neutral_try rfl rfl) (fun _ _ h => h) fun _ _ heq => heq ▸ h)
    fun n s₁ h₁ => ?_
  subst h₁
  refine mwp_bind (mwp_mono (mwp_neutral_try rfl rfl) (fun _ _ h => h) fun _ _ heq => heq ▸ h)
    fun status s₂ h₂ => ?_
  subst h₂
  exact mwp_receive hn h

/-- Attempts touch the partial download alone. -/
theorem mwp_downloadAll (hn : Named name) (n : ℕ) (h : Missing H name s s') :
    mwp H (downloadAll url name size n) (fun _ s'' => Missing H name s s'')
      (fun _ s'' => Missing H name s s'') s' := by
  induction n generalizing s' with
  | zero => exact h
  | succ n ih =>
    refine Program.wp_caught (mwp_downloadOnce hn h) fun e s₁ h₁ => ?_
    split
    · exact ih h₁
    · exact h₁

/-- **A download touches its file and the partial one.** -/
theorem mwp_download (hn : Named name) (h : s.files (H.locate name) = none) :
    mwp H (download url name size) (fun _ s' => OnlyFiles s s') (fun _ s' => OnlyFiles s s') s := by
  refine mwp_bind (mwp_mono (mwp_downloadAll hn RETRIES ⟨.refl s, h⟩) (fun _ _ h => h) fun _ _ h => h.1)
    fun _ s₁ h₁ => ?_
  refine mwp_try rfl fun a s₂ hx => ⟨⟨h₁.2, off_partOf hn⟩, ?_⟩
  obtain ⟨hx, -⟩ := hx
  cases a with
  | ok _ =>
    obtain rfl := hx
    have h₂ : OnlyFiles s _ :=
      h₁.1.trans ((onlyFiles_setFile (H.locate name) (s₁.files (H.locate (partOf name)))).trans
        (onlyFiles_setFile (H.locate (partOf name)) none))
    exact ⟨fun _ _ => h₂, fun _ _ => h₂⟩
  | error e =>
    obtain rfl := hx
    exact ⟨fun _ _ => h₁.1, fun _ _ => h₁.1⟩

end

theorem mwp_downloadMirrors {new : Release} (hn : Named new.filename)
    (h : s.files (H.locate new.filename) = none) :
    mwp H (downloadMirrors new) (fun _ s' => OnlyFiles s s') (fun _ s' => OnlyFiles s s') s := by
  refine mwp_bind (B := fun _ s' => Missing H new.filename s s') (mwp_try rfl fun a s₁ hx => ?_)
    fun _ s₁ h₁ => ?_
  · obtain ⟨⟨c, rfl⟩, -⟩ := hx
    have h₁ : Missing H new.filename s (s.setFile (H.locate (metaOf new.filename)) c) :=
      Missing.setFile ⟨.refl s, h⟩ (off_metaOf hn _ hn.final)
    exact ⟨off_metaOf hn, fun _ _ => h₁, fun _ _ => h₁.1⟩
  · refine mwp_bind (B := fun _ s' => OnlyFiles s s') (mwp_try rfl fun a s₂ hx => ?_)
      fun code s₂ h₂ => ?_
    · obtain ⟨⟨c, rfl⟩, -⟩ := hx
      have h₂ := h₁.1.trans (onlyFiles_setFile (H.locate new.filename) c)
      exact ⟨h₁.2, fun _ _ => h₂, fun _ _ => h₂⟩
    · refine mwp_bind (B := fun _ s' => OnlyFiles s s') (mwp_try rfl fun a s₃ hx => ?_)
        fun _ s₃ h₃ => ?_
      · refine ⟨off_metaOf hn, ?_⟩
        obtain ⟨hx, -⟩ := hx
        cases a with
        | ok _ =>
          obtain rfl := hx
          have h₃ := h₂.trans (onlyFiles_setFile (H.locate (metaOf new.filename)) none)
          exact ⟨fun _ _ => h₃, fun _ _ => h₃⟩
        | error e =>
          obtain rfl := hx
          exact ⟨fun _ _ => h₂, fun _ _ => h₂⟩
      · split
        · exact h₃
        · exact h₃

/-- However it is fetched, only files change. -/
theorem mwp_fetchFile {new : Release} (hn : Named new.filename)
    (h : s.files (H.locate new.filename) = none) :
    mwp H (fetchFile new) (fun _ s' => OnlyFiles s s') (fun _ s' => OnlyFiles s s') s := by
  unfold fetchFile
  split
  · refine mwp_bind (mwp_neutral rfl rfl) fun installed s₁ h₁ => ?_
    subst h₁
    split
    · exact mwp_downloadMirrors hn h
    · exact mwp_download hn h
  · exact mwp_download hn h

/-! ### One book -/

/-- Between two candidates: the manifest in memory is the one in the file, and the entries of the
candidates to come are as they were read. -/
structure Synced (s : State) (pending : List ℕ) : Prop where
  manifest : s.manifest = some s.memory
  pending : ∀ j ∈ pending, j ∉ s.failed ∧
    ∃ z, s.memory.zims[j]? = some z ∧ s.opened.zims[j]? = some z

theorem Synced.onlyFiles {pending : List ℕ} (h : Synced s pending) (hf : OnlyFiles s s') :
    Synced s' pending := by
  obtain ⟨f, rfl⟩ := hf
  exact ⟨h.manifest, h.pending⟩

/-- The entry of a candidate in memory is that of the new file. -/
structure Pointed (c : Candidate) (n : ℕ) (actual : String) (s s' : State) : Prop where
  rest : s' = { s with memory := s'.memory }
  listing : s'.memory.superseded = s.memory.superseded
  others : ∀ j, j ≠ c.index → s'.memory.zims[j]? = s.memory.zims[j]?
  entry : ∃ z, s'.memory.zims[c.index]? = some z ∧ z.filename = c.new.filename ∧
    z.sizeBytes = some (n : ℤ) ∧ z.sha256 = some actual

/-- What says nothing new about the file. -/
def Edit.Harmless (n : ℕ) : Edit → Prop
  | .release .. => False
  | .size m => m = n
  | _ => True

section

variable {c : Candidate} {n : ℕ} {actual : String} {pending : List ℕ}

theorem Pointed.edit {e : Edit} (h : Pointed c n actual s s') (he : e.Harmless n) :
    Pointed c n actual s { s' with memory := s'.memory.edit c.index e } where
  rest := by rw [h.rest]
  listing := h.listing
  others j hj := (getElem?_edit_ne hj.symm).trans (h.others j hj)
  entry := by
    obtain ⟨z, hz, hname, hsize, hsha⟩ := h.entry
    refine ⟨e.apply z, ?_, ?_⟩
    · show (s'.memory.zims.modify c.index e.apply)[c.index]? = _
      rw [List.getElem?_modify_eq, hz]
      rfl
    · cases e with
      | release => exact he.elim
      | size m =>
        obtain rfl : m = n := he
        exact ⟨hname, rfl, hsha⟩
      | forget | bookName | uuid | fulltext => exact ⟨hname, hsize, hsha⟩

/-- The entry is changed to the new file. -/
theorem pointed_release {z : Zim} (hz : s.memory.zims[c.index]? = some z) :
    Pointed c n actual s { s with
      memory := s.memory.edit c.index (.release c.new.filename c.new.url actual n) } where
  rest := rfl
  listing := rfl
  others _ hj := getElem?_edit_ne hj.symm
  entry := by
    refine ⟨(Edit.release c.new.filename c.new.url actual n).apply z, ?_, rfl, rfl, rfl⟩
    show (s.memory.zims.modify c.index _)[c.index]? = _
    rw [List.getElem?_modify_eq, hz]
    rfl

theorem mwp_edit {e : Edit} {E : Failure → State → Prop} (h : Pointed c n actual s s')
    (he : e.Harmless n) (hi : c.index ∉ s'.failed) :
    mwp H (step (.edit c.index e) rfl) (fun _ s'' => Pointed c n actual s s'') E s' := by
  refine mwp_step rfl fun _ s'' hx => ⟨hi, ?_⟩
  obtain ⟨rfl, -⟩ := hx
  exact h.edit he

/-- A call that changes nothing and is answered in a steady run. -/
theorem mwp_steady {β : Type} {cmd : Cmd} (hans : cmd.Ans = Except Failure β)
    (hc : cmd.neutral = true)
    (hok : ∀ a : cmd.Ans, Steady H s (.call () cmd a) → ∃ b : β, hans ▸ a = Except.ok b) :
    mwp H (tryStep cmd hans) (fun _ s' => s' = s) (fun _ _ => False) s := by
  refine mwp_try hans fun a s' hx => ⟨(neutral_spec hc hx.1).2, fun _ _ => (neutral_spec hc hx.1).1,
    fun e he => ?_⟩
  obtain ⟨b, hb⟩ := hok a hx.2.1
  cases hb.symm.trans he

/-- **In a steady run the metadata are recorded.** -/
theorem mwp_recordMetadata {b : Bytes} (h : Pointed c b.length actual s s')
    (hi : c.index ∉ s.failed) (hfile : s.files (H.locate c.new.filename) = some b) :
    mwp H (recordMetadata c.index c.new.filename)
      (fun _ s'' => Pointed c b.length actual s s'') (fun _ _ => False) s' := by
  -- an edit does not change what has failed
  have hfailed {s' : State} (h : Pointed c b.length actual s s') : c.index ∉ s'.failed := by
    rw [h.rest]
    exact hi
  refine mwp_bind (mwp_neutral rfl rfl) fun installed s₁ h₁ => ?_
  subst h₁
  split
  · refine mwp_bind (mwp_steady rfl rfl fun a ha => ⟨(), ha⟩) fun _ s₁ h₁ => ?_
    subst h₁
    refine mwp_bind (mwp_steady rfl rfl fun a ha => ha) fun book s₁ h₁ => ?_
    subst h₁
    refine mwp_bind (B := fun _ s'' => Pointed c b.length actual s s'') ?_ fun _ s₂ h₂ => ?_
    · cases book with
      | some book => exact mwp_edit h trivial (hfailed h)
      | none => exact h
    refine mwp_bind (mwp_steady rfl rfl fun a ha => ha) fun uuid s₃ h₃ => ?_
    subst h₃
    refine mwp_bind (mwp_edit h₂ trivial (hfailed h₂)) fun _ s₄ h₄ => ?_
    refine mwp_bind (mwp_steady rfl rfl fun a ha => ha) fun fulltext s₅ h₅ => ?_
    subst h₅
    refine mwp_bind (mwp_edit h₄ trivial (hfailed h₄)) fun _ s₆ h₆ => ?_
    refine mwp_bind (B := fun m s'' => m = b.length ∧ Pointed c b.length actual s s'')
      (mwp_try rfl fun a s₇ hx => ⟨trivial, fun m hm => ?_, fun e he => ?_⟩) fun m s₇ h₇ => ?_
    · obtain ⟨⟨hsize, rfl⟩, -⟩ := hx
      obtain ⟨b', hb', rfl⟩ := hsize m hm
      rw [h₆.rest] at hb'
      obtain rfl := Option.some.inj (hfile.symm.trans hb')
      exact ⟨rfl, h₆⟩
    · obtain ⟨m, hm⟩ := hx.2.1
      cases hm.symm.trans he
    · obtain ⟨rfl, h₇⟩ := h₇
      exact mwp_edit h₇ rfl (hfailed h₇)
  · exact h

/-- What is accounted for stays so when another file is listed. -/
theorem Accounted.mono {deleted : List Deletion} {m m' : Manifest} {f : String}
    (h : Accounted deleted m f)
    (hlist : ∀ e ∈ m.superseded.toList, e ∈ m'.superseded.toList) : Accounted deleted m' f := by
  obtain ⟨e, he, hf⟩ | h := h
  · exact .inl ⟨e, hlist e he, hf⟩
  · exact .inr h

/-- **The changed manifest may be written,** with the old file listed. -/
theorem writable_of_pointed {b : Bytes} {m m' : Manifest} {z : Zim} {old : Superseded}
    (hinv : Inv H s) (hmanifest : s.manifest = some m) (hold : m.zims[c.index]? = some z)
    (hname : old.filename = z.filename) (hn : Named c.new.filename) (hi : c.index ∉ s.failed)
    (hfile : s.files (H.locate c.new.filename) = some b)
    (hlist : m'.superseded.toList = m.superseded.toList ++ [old])
    (hothers : ∀ j, j ≠ c.index → m'.zims[j]? = m.zims[j]?)
    (hentry : ∃ z, m'.zims[c.index]? = some z ∧ z.filename = c.new.filename ∧
      z.sizeBytes = some (b.length : ℤ) ∧ z.sha256 = some (H.sha256 b)) : Writable H s m' where
  truthful i w hw hne := by
    by_cases hindex : i = c.index
    · subst hindex
      obtain ⟨w', hw', hfilename, hsize, hsha⟩ := hentry
      obtain rfl := Option.some.inj (hw.symm.trans hw')
      rw [← hfilename] at hn hfile
      exact ⟨hn.final, b, hfile, hsize, hsha⟩
    · exact hinv.truthful m hmanifest i w ((hothers i hindex).symm.trans hw) hne
  moved before hbefore i w w' hw hw' hne := by
    have hgrows : ∀ e ∈ m.superseded.toList, e ∈ m'.superseded.toList := fun e he => by
      rw [hlist]
      exact List.mem_append_left _ he
    by_cases hindex : i = c.index
    · subst hindex
      by_cases heq : w.filename = z.filename
      · -- the entry was there until now
        refine .inl ⟨old, ?_, hname.trans heq.symm⟩
        rw [hlist]
        exact List.mem_append_right _ (List.mem_singleton_self _)
      · exact (hinv.moved m hmanifest before hbefore _ w z hw hold heq).mono hgrows
    · exact (hinv.moved m hmanifest before hbefore i w w' hw ((hothers i hindex).symm.trans hw')
        hne).mono hgrows
  left i hfailed := by
    have hne : i ≠ c.index := fun heq => hi (heq ▸ hfailed)
    rw [hothers i hne]
    exact (hinv.left i hfailed).2 m hmanifest

theorem mwp_listOld {b : Bytes} {z : Zim} (hs : Synced s (c.index :: pending))
    (hp : Pointed c b.length (H.sha256 b) s s') (hz : s.memory.zims[c.index]? = some z)
    (hi : c.index ∉ pending) (hn : Named c.new.filename)
    (hfile : s.files (H.locate c.new.filename) = some b) :
    mwp H (listOld z.filename) (fun _ s'' => Synced s'' pending) (fun _ _ => False) s' := by
  obtain ⟨hfailed, -⟩ := hs.pending _ List.mem_cons_self
  obtain ⟨hrest, hlisting, hothers, hentry⟩ := hp
  generalize s'.memory = m at hrest hlisting hothers hentry
  subst hrest
  refine mwp_bind (B := fun t s'' => ∃ now started, s'' = { s with memory := m, now, started })
    (mwp_step rfl fun t s₁ hx => ⟨trivial, ?_⟩) fun t s₁ h₁ => ?_
  · obtain ⟨⟨started, rfl⟩, -⟩ := hx
    exact ⟨t, started, rfl⟩
  obtain ⟨now, started, rfl⟩ := h₁
  refine mwp_bind (B := fun _ s'' => ∃ m', m.supersede ⟨z.filename, some t⟩ = some m' ∧
    s'' = { s with memory := m', now, started })
    (mwp_try rfl fun a s₂ hx => ⟨trivial, ?_⟩) fun _ s₂ h₂ => ?_
  · obtain ⟨hx, hlist, -⟩ := hx
    simp only [exec] at hx
    split at hx
    · next m' hm' =>
      obtain ⟨rfl, rfl⟩ := hx
      exact ⟨fun _ _ => ⟨m', hm', rfl⟩, nofun⟩
    · next hnone =>
      -- the key holds a list
      refine absurd hnone ?_
      unfold Manifest.supersede
      have hlist : m.superseded ≠ .other := hlist
      cases hsup : m.superseded with
      | absent => exact nofun
      | items l => exact nofun
      | other => exact absurd hsup hlist
  obtain ⟨m', hm', rfl⟩ := h₂
  obtain ⟨hzims, hlist⟩ := supersede_zims hm'
  refine mwp_bind (B := fun r s'' => r = m' ∧ s'' = { s with memory := m', now, started })
    (mwp_step rfl fun r s₃ hx => ⟨trivial, hx.1⟩) fun r s₃ h₃ => ?_
  obtain ⟨rfl, rfl⟩ := h₃
  refine mwp_try rfl fun a s₄ hx => ?_
  obtain ⟨hx, hsteady, hinv⟩ := hx
  refine ⟨writable_of_pointed (z := z) (m := s.memory) hinv hs.manifest hz rfl hn hfailed hfile
    (by rw [hlist, hlisting]) (fun j hj => by rw [hzims]; exact hothers j hj)
    (by rw [hzims]; exact hentry), fun _ _ => ?_, fun e he => ?_⟩
  · obtain rfl : a = .ok () := hsteady
    obtain rfl := hx
    refine ⟨rfl, fun j hj => ?_⟩
    obtain ⟨hj', z', hz', hopened⟩ := hs.pending j (List.mem_cons_of_mem _ hj)
    have hne : j ≠ c.index := fun heq => hi (heq ▸ hj)
    exact ⟨hj', z', by rw [hzims, hothers j hne]; exact hz', hopened⟩
  · obtain rfl : a = .ok () := hsteady
    cases he

/-- **The entry is pointed at the new file, or nothing has changed.** -/
theorem mwp_point {b : Bytes} (hs : Synced s (c.index :: pending)) (hi : c.index ∉ pending)
    (hn : Named c.new.filename) (hfile : s.files (H.locate c.new.filename) = some b) :
    mwp H (point c (H.sha256 b)) (fun _ s' => Synced s' pending)
      (fun _ s' => Synced s' (c.index :: pending)) s := by
  obtain ⟨hfailed, z, hz, -⟩ := hs.pending _ List.mem_cons_self
  refine mwp_bind (B := fun r s' => r = s.memory ∧ s' = s)
    (mwp_step rfl fun r s₁ hx => ⟨trivial, hx.1⟩) fun r s₁ h₁ => ?_
  obtain ⟨rfl, rfl⟩ := h₁
  refine mwp_bind (B := fun n s' => n = b.length ∧ s' = s₁)
    (mwp_try rfl fun a s₂ hx => ⟨trivial, fun n hans => ?_, fun _ _ => ?_⟩) fun n s₂ h₂ => ?_
  · obtain ⟨⟨hsize, rfl⟩, -⟩ := hx
    obtain ⟨b', hb', rfl⟩ := hsize n hans
    obtain rfl := Option.some.inj (hfile.symm.trans hb')
    exact ⟨rfl, rfl⟩
  · obtain ⟨⟨-, rfl⟩, -⟩ := hx
    exact hs
  obtain ⟨rfl, rfl⟩ := h₂
  refine mwp_bind (B := fun _ s' => Pointed c b.length (H.sha256 b) s₂ s')
    (mwp_step rfl fun _ s₃ hx => ⟨hfailed, hx.1 ▸ pointed_release hz⟩) fun _ s₃ h₃ => ?_
  refine mwp_bind (mwp_edit h₃ trivial (by rw [h₃.rest]; exact hfailed)) fun _ s₄ h₄ => ?_
  refine mwp_bind (mwp_mono (mwp_recordMetadata h₄ hfailed hfile) (fun _ _ h => h)
    fun _ _ h => h.elim) fun _ s₅ h₅ => ?_
  have hname : ((s₂.memory.zims[c.index]?.map (·.filename)).getD "") = z.filename := by
    rw [hz]
    rfl
  rw [hname]
  exact mwp_mono (mwp_listOld hs h₅ hz hi hn hfile) (fun _ _ h => h) fun _ _ h => h.elim

/-- A file that is missing is fetched. -/
theorem mwp_ensure {new : Release} {there : Bool} (hn : Named new.filename)
    (h : there = (s.files (H.locate new.filename)).isSome) :
    mwp H (ensure new there) (fun _ s' => OnlyFiles s s') (fun _ s' => OnlyFiles s s') s := by
  unfold ensure
  split
  · exact .refl s
  · next hthere =>
    refine mwp_fetchFile hn ?_
    rw [h, Bool.not_eq_true, Option.isSome_eq_false_iff, Option.isNone_iff_eq_none] at hthere
    exact hthere

/-- **An update points the entry at the new file, or fails and changes no entry.** -/
theorem mwp_replace (hs : Synced s (c.index :: pending)) (hi : c.index ∉ pending)
    (hn : Named c.new.filename) :
    mwp H (replace c) (fun _ s' => Synced s' pending)
      (fun _ s' => Synced s' (c.index :: pending)) s := by
  refine mwp_bind (mwp_mono (mwp_neutral_try rfl rfl) (fun _ _ h => h) fun _ _ heq => heq ▸ hs)
    fun text s₁ h₁ => ?_
  subst h₁
  refine mwp_bind (B := fun _ s' => s' = s₁) (mwp_lift (fun _ _ => rfl) fun _ => hs)
    fun expected s₂ h₂ => ?_
  subst h₂
  refine mwp_bind (B := fun there s' => there = (s₂.files (H.locate c.new.filename)).isSome ∧ s' = s₂)
    (mwp_step rfl fun there s₃ hx => ⟨trivial, hx.1⟩) fun there s₃ h₃ => ?_
  obtain ⟨hthere, rfl⟩ := h₃
  refine mwp_bind (mwp_mono (mwp_ensure hn hthere) (fun _ _ h => h) fun _ _ hf => hs.onlyFiles hf)
    fun _ s₄ h₄ => ?_
  have hs₄ := hs.onlyFiles h₄
  refine mwp_bind (B := fun actual s' => (∃ b, s₄.files (H.locate c.new.filename) = some b ∧
    actual = H.sha256 b) ∧ s' = s₄) (mwp_try rfl fun a s₅ hx => ⟨trivial, ?_⟩) fun actual s₅ h₅ => ?_
  · obtain ⟨⟨hsha, rfl⟩, -⟩ := hx
    exact ⟨fun actual hans => ⟨hsha actual hans, rfl⟩, fun _ _ => hs₄⟩
  obtain ⟨⟨b, hb, rfl⟩, rfl⟩ := h₅
  split
  · refine mwp_bind (B := fun _ s' => Synced s' (c.index :: pending))
      (mwp_try rfl fun a s₆ hx => ?_) fun _ _ h => h
    obtain ⟨hx, hsteady, -⟩ := hx
    refine ⟨⟨off_badOf hn, fun m hm z hz => ?_⟩, ?_⟩
    · obtain rfl := Option.some.inj (hs₄.manifest.symm.trans hm)
      exact hsteady z hz
    · cases a with
      | ok _ =>
        obtain rfl := hx
        exact ⟨fun _ _ => hs₄.onlyFiles ((onlyFiles_setFile ..).trans (onlyFiles_setFile ..)), nofun⟩
      | error e =>
        obtain rfl := hx
        exact ⟨nofun, fun _ _ => hs₄⟩
  · exact mwp_point hs₄ hi hn hb

variable {opts : Options} {r : Report}

/-- One candidate. -/
theorem mwp_consider (hs : Synced s (c.index :: pending)) (hi : c.index ∉ pending)
    (hn : Named c.new.filename) :
    mwp H (consider opts c r) (fun _ s' => Synced s' pending) (fun _ _ => True) s := by
  have hskip : Synced s pending := ⟨hs.manifest, fun j hj => hs.pending j (List.mem_cons_of_mem _ hj)⟩
  unfold consider
  split
  · exact hskip
  · refine mwp_bind (mwp_mono (mwp_neutral_try rfl rfl) (fun _ _ h => h) fun _ _ _ => trivial)
      fun free s₁ h₁ => ?_
    subst h₁
    refine mwp_bind (B := fun _ s' => s' = s₁) (mwp_lift (fun _ _ => rfl) fun _ => trivial)
      fun reserve s₂ h₂ => ?_
    subst h₂
    split
    · exact hskip
    · split
      · exact hskip
      · refine Program.wp_caught (mwp_bind (mwp_replace hs hi hn) fun _ _ h => h) fun e s₃ h₃ => ?_
        refine mwp_bind (B := fun _ s' => Synced s' pending)
          (mwp_step rfl fun _ s₄ hx => ⟨?_, ?_⟩) fun _ _ h => h
        · obtain ⟨-, z, hz, hopened⟩ := h₃.pending _ List.mem_cons_self
          refine ⟨hz.trans hopened.symm, fun m hm => ?_⟩
          obtain rfl := Option.some.inj (h₃.manifest.symm.trans hm)
          exact hz.trans hopened.symm
        · obtain ⟨rfl, -⟩ := hx
          refine ⟨h₃.manifest, fun j hj => ?_⟩
          obtain ⟨hj', hz⟩ := h₃.pending j (List.mem_cons_of_mem _ hj)
          refine ⟨fun hmem => ?_, hz⟩
          obtain rfl | hmem := List.mem_cons.mp hmem
          · exact hi hj
          · exact hj' hmem

/-- **Between two candidates memory and file agree.** -/
theorem mwp_considerAll {cs : List Candidate} (hs : Synced s (cs.map (·.index)))
    (hnodup : (cs.map (·.index)).Nodup) (hn : ∀ c ∈ cs, Named c.new.filename) :
    mwp H (considerAll opts cs r) (fun _ s' => Synced s' []) (fun _ _ => True) s := by
  induction cs generalizing s r with
  | nil => exact hs
  | cons c cs ih =>
    rw [List.map_cons] at hs hnodup
    obtain ⟨hi, hnodup⟩ := List.nodup_cons.mp hnodup
    refine mwp_bind (mwp_consider hs hi (hn c List.mem_cons_self)) fun r s₁ h₁ => ?_
    exact ih h₁ hnodup fun c' hc' => hn c' (List.mem_cons_of_mem _ hc')

end

/-! ### The pruning -/

/-- Some files have been deleted. -/
structure Pruned (s s' : State) : Prop where
  rest : ∃ files started, s' = { s with files, started, deleted := s'.deleted }
  grows : ∀ d ∈ s.deleted, d ∈ s'.deleted

theorem Pruned.refl (s : State) : Pruned s s := ⟨⟨s.files, s.started, rfl⟩, fun _ h => h⟩

theorem Pruned.trans (h : Pruned s s') (h' : Pruned s' s'') : Pruned s s'' := by
  obtain ⟨⟨f, b, hs'⟩, hgrows⟩ := h
  obtain ⟨⟨f', b', hs''⟩, hgrows'⟩ := h'
  refine ⟨⟨f', b', ?_⟩, fun d hd => hgrows' d (hgrows d hd)⟩
  rw [hs'', hs']

theorem eq_of_cutoff {now days cut : ℤ} (h : cutoff now days = .ok cut) : cut = now - days * DAY := by
  unfold cutoff at h
  dsimp only at h
  split at h
  · exact (Except.ok.inj h).symm
  · cases h

section

variable {cut days : ℤ} {dryRun : Bool} {es : List Superseded}

/-- A deletion is allowed. -/
theorem allowed_delete {e : Superseded} {t : ℤ} (hmanifest : s.manifest = some s.memory)
    (hrun : s.running = false) (hcut : cut = s.now - days * DAY)
    (he : e ∈ s.memory.superseded.toList) (hat : e.at? = some t) (hle : t ≤ cut)
    (hnot : s.memory.zims.all (·.filename ≠ e.filename) = true)
    (hsteady : Steady H s (.call () (.delete e days) (.ok ()))) :
    Deletion.Allowed H ⟨e.filename, s.manifest, s.now, days, s.running || s.started⟩ := by
  obtain ⟨hstarted, hnames⟩ := hsteady
  refine ⟨by rw [hrun, hstarted]; rfl, s.memory, hmanifest, ⟨e, he, rfl, t, hat, ?_⟩, fun z hz heq => ?_⟩
  · dsimp only
    omega
  · have hne := List.all_eq_true.mp hnot z hz
    exact of_decide_eq_true hne (hnames z hz heq)

/-- **What is deleted may be deleted, and what is not kept has been deleted.** -/
theorem mwp_pruneAll (hmanifest : s.manifest = some s.memory) (hrun : s.running = false)
    (hcut : cut = s.now - days * DAY) (hes : ∀ e ∈ es, e ∈ s.memory.superseded.toList) :
    mwp H (pruneAll s.memory.zims cut days dryRun es)
      (fun r s' => Pruned s s' ∧ ∀ e ∈ es, e ∈ r.1 ∨ ∃ d ∈ s'.deleted, d.filename = e.filename)
      (fun _ _ => True) s := by
  induction es generalizing s with
  | nil => exact ⟨.refl s, nofun⟩
  | cons e es ih =>
    have htail : ∀ e ∈ es, e ∈ s.memory.superseded.toList := fun e he =>
      hes e (List.mem_cons_of_mem _ he)
    refine mwp_bind (B := fun t s' => e.at? = some t ∧ s' = s) (mwp_lift (fun t ht => ?_) fun _ => trivial)
      fun t s₁ h₁ => ?_
    · split at ht
      · next t' hat => exact ⟨Except.ok.inj ht ▸ hat, rfl⟩
      · cases ht
    obtain ⟨hat, rfl⟩ := h₁
    split
    · next hdelete =>
      refine mwp_bind (B := fun _ s' => Pruned s₁ s' ∧ ∃ d ∈ s'.deleted, d.filename = e.filename)
        (mwp_try rfl fun a s₂ hx => ?_) fun _ s₂ h₂ => ?_
      · obtain ⟨hx, hsteady, -⟩ := hx
        refine ⟨allowed_delete hmanifest hrun hcut (hes e List.mem_cons_self) hat hdelete.1 hdelete.2.1
          hsteady, fun _ hans => ?_, fun _ _ => trivial⟩
        cases a with
        | ok _ =>
          obtain ⟨b, rfl⟩ := hx
          exact ⟨⟨⟨_, b, rfl⟩, fun _ => List.mem_cons_of_mem _⟩, _, List.mem_cons_self, rfl⟩
        | error e => cases hans
      · obtain ⟨hpruned, d, hd, hname⟩ := h₂
        obtain ⟨files, started, hs₂⟩ := hpruned.rest
        have hmemory : s₂.memory = s₁.memory := by rw [hs₂]
        rw [← hmemory]
        refine mwp_bind (ih ?_ ?_ ?_ ?_) fun p s₃ h₃ => ?_
        · rw [hmemory, hs₂]
          exact hmanifest
        · rw [hs₂]
          exact hrun
        · rw [hs₂]
          exact hcut
        · rw [hmemory]
          exact htail
        · obtain ⟨hpruned', hrest⟩ := h₃
          refine ⟨hpruned.trans hpruned', fun e' he' => ?_⟩
          obtain rfl | he' := List.mem_cons.mp he'
          · exact .inr ⟨d, hpruned'.grows d hd, hname⟩
          · exact hrest e' he'
    · refine mwp_bind (ih hmanifest hrun hcut htail) fun p s₂ h₂ => ?_
      refine ⟨h₂.1, fun e' he' => ?_⟩
      obtain rfl | he' := List.mem_cons.mp he'
      · exact .inl List.mem_cons_self
      · obtain h | h := h₂.2 e' he'
        · exact .inl (List.mem_cons_of_mem _ h)
        · exact .inr h

/-- The file holds the manifest as it was before the pruning, and what is no longer listed in
memory has been deleted. -/
structure Trimmed (s : State) : Prop where
  manifest : ∃ m, s.manifest = some m ∧ s.memory.zims = m.zims ∧
    ∀ e ∈ m.superseded.toList,
      e ∈ s.memory.superseded.toList ∨ ∃ d ∈ s.deleted, d.filename = e.filename

theorem Trimmed.writable (h : Trimmed s) (hinv : Inv H s) : Writable H s s.memory := by
  obtain ⟨m, hm, hzims, hlist⟩ := h.manifest
  refine ⟨fun i z hz hne => hinv.truthful m hm i z (hzims ▸ hz) hne, fun old hold i z z' hz hz' hne => ?_,
    fun i hi => hzims ▸ (hinv.left i hi).2 m hm⟩
  obtain ⟨e, he, hname⟩ | hdeleted := hinv.moved m hm old hold i z z' hz (hzims ▸ hz') hne
  · obtain he | ⟨d, hd, hd'⟩ := hlist e he
    · exact .inl ⟨e, he, hname⟩
    · exact .inr ⟨d, hd, hd'.trans hname⟩
  · exact .inr hdeleted

theorem mwp_prune (hs : Synced s []) :
    mwp H (prune days dryRun) (fun _ s' => Trimmed s') (fun _ _ => True) s := by
  have htrimmed : Trimmed s := ⟨s.memory, hs.manifest, rfl, fun e he => .inl he⟩
  refine mwp_bind (B := fun m s' => m = s.memory ∧ s' = s)
    (mwp_step rfl fun m s₁ hx => ⟨trivial, hx.1⟩) fun m s₁ h₁ => ?_
  obtain ⟨rfl, rfl⟩ := h₁
  split
  · exact htrimmed
  refine mwp_bind (B := fun b s' => ∃ started, s' = { s₁ with running := b, started })
    (mwp_try rfl fun a s₂ hx => ⟨trivial, fun b hans => ?_, fun _ _ => trivial⟩) fun b s₂ h₂ => ?_
  · obtain rfl : a = .ok b := hans
    exact ⟨false, hx.1⟩
  obtain ⟨started, rfl⟩ := h₂
  split
  · exact ⟨s₁.memory, hs.manifest, rfl, fun e he => .inl he⟩
  next hrun =>
  rw [Bool.not_eq_true] at hrun
  refine mwp_bind (B := fun t s' => ∃ started, s' = { s₁ with running := b, now := t, started })
    (mwp_step rfl fun t s₃ hx => ⟨trivial, ?_⟩) fun t s₃ h₃ => ?_
  · obtain ⟨⟨started', rfl⟩, -⟩ := hx
    exact ⟨started', rfl⟩
  obtain ⟨started', rfl⟩ := h₃
  refine mwp_bind (B := fun cut s' => cut = t - days * DAY ∧
    s' = { s₁ with running := b, now := t, started := started' })
    (mwp_lift (fun cut hcut => ⟨eq_of_cutoff hcut, rfl⟩) fun _ => trivial) fun cut s₄ h₄ => ?_
  obtain ⟨hcut, rfl⟩ := h₄
  refine mwp_bind (mwp_pruneAll (s := { s₁ with running := b, now := t, started := started' })
    hs.manifest hrun hcut fun e he => he) fun p s₅ h₅ => ?_
  obtain ⟨hpruned, hkeep⟩ := h₅
  obtain ⟨files, started'', hs₅⟩ := hpruned.rest
  refine mwp_bind (B := fun _ s' => Trimmed s') (mwp_step rfl fun _ s₆ hx => ⟨trivial, ?_⟩) fun _ _ h => h
  obtain ⟨rfl, -⟩ := hx
  refine ⟨s₁.memory, ?_, ?_, fun e he => hkeep e he⟩
  · rw [hs₅]
    exact hs.manifest
  · show s₅.memory.zims = _
    rw [hs₅]

theorem mwp_savePruned {pruned : Bool} (h : Trimmed s) :
    mwp H (savePruned pruned) (fun _ _ => True) (fun _ _ => True) s := by
  unfold savePruned
  split
  · refine mwp_bind (B := fun m s' => m = s.memory ∧ s' = s)
      (mwp_step rfl fun m s₁ hx => ⟨trivial, hx.1⟩) fun m s₁ h₁ => ?_
    obtain ⟨rfl, rfl⟩ := h₁
    exact mwp_try rfl fun a s₂ hx => ⟨h.writable hx.2.2, fun _ _ => trivial, fun _ _ => trivial⟩
  · trivial

end

/-! ### A pass -/

variable {opts : Options} {r : Report}

theorem mwp_commitManifest (mode : String) :
    mwp H (commitManifest mode) (fun _ _ => True) (fun _ _ => True) s := by
  -- no call of git changes anything
  have hgit {α β : Type} {f : β → Code α} {c : Cmd} (hans : c.Ans = Except Failure β)
      (hc : c.neutral = true) {s : State}
      (hf : ∀ b, mwp H (f b) (fun _ _ => True) (fun _ _ => True) s) :
      mwp H (tryStep c hans >>= f) (fun _ _ => True) (fun _ _ => True) s :=
    mwp_bind (mwp_mono (mwp_neutral_try hans hc) (fun _ _ h => h) fun _ _ _ => trivial)
      fun b _ h => h ▸ hf b
  unfold commitManifest
  split
  · trivial
  · refine mwp_bind (mwp_neutral rfl rfl) fun merging s₁ h₁ => ?_
    subst h₁
    split
    · trivial
    · refine hgit rfl rfl fun code => ?_
      split
      · trivial
      · refine hgit rfl rfl fun _ => ?_
        split
        · trivial
        · refine hgit rfl rfl fun code => ?_
          split
          · trivial
          · trivial

theorem mwp_finish (hs : Synced s []) :
    mwp H (finish opts r) (fun _ _ => True) (fun _ _ => True) s := by
  refine mwp_bind (B := fun _ s' => s' = s) (mwp_lift (fun _ _ => rfl) fun _ => trivial)
    fun days s₁ h₁ => ?_
  subst h₁
  refine mwp_bind (mwp_prune hs) fun pruned s₂ h₂ => ?_
  refine mwp_bind (mwp_savePruned h₂) fun _ s₃ _ => ?_
  split
  · exact mwp_bind (mwp_commitManifest _) fun _ _ _ => trivial
  · trivial

/-- **One pass.** -/
theorem mwp_run : mwp H (run digit opts) (fun _ _ => True) (fun _ _ => True) s := by
  refine mwp_bind (B := fun m s' => s'.manifest = some m ∧ s'.memory = m ∧ s'.opened = m ∧
    s'.failed = []) (mwp_try rfl fun a s₁ hx => ⟨trivial, fun m hans => ?_, fun _ _ => trivial⟩)
    fun m s₁ h₁ => ?_
  · obtain rfl : a = .ok m := hans
    obtain ⟨⟨hm, rfl⟩, -⟩ := hx
    exact ⟨hm, rfl, rfl, rfl⟩
  obtain ⟨hm, hmemory, hopened, hfailed⟩ := h₁
  refine mwp_bind (mwp_mono (mwp_neutral_try rfl rfl) (fun _ _ h => h) fun _ _ _ => trivial)
    fun links s₂ h₂ => ?_
  subst h₂
  refine mwp_bind (B := fun catalog s' => Catalog.Named catalog ∧ s' = s₂)
    (mwp_lift (fun _ h => ⟨named_fetchCatalog h, rfl⟩) fun _ => trivial) fun catalog s₃ h₃ => ?_
  obtain ⟨hcatalog, rfl⟩ := h₃
  refine mwp_bind (B := fun _ s' => s' = s₃) (mwp_lift (fun _ _ => rfl) fun _ => trivial)
    fun reached s₄ h₄ => ?_
  subst h₄
  refine mwp_bind (mwp_considerAll ⟨hm.trans (congrArg some hmemory.symm), fun j hj => ?_⟩
    nodup_findUpdates fun c hc => (mem_findUpdates hcatalog hc).2) fun r s₅ h₅ => mwp_finish h₅
  obtain ⟨c, hc, rfl⟩ := List.mem_map.mp hj
  obtain ⟨z, hz⟩ := (mem_findUpdates hcatalog hc).1
  refine ⟨by rw [hfailed]; exact List.not_mem_nil, z, ?_, ?_⟩
  · rw [hmemory]
    exact hz
  · rw [hopened]
    exact hz

/-! ### Runs -/

theorem inv_init (m : Manifest) (files : String → Option Bytes) : Inv H (.init m files) where
  truthful m' hm' i z hz hne := by
    obtain rfl := Option.some.inj hm'
    exact absurd hz hne
  moved m' hm' old hold i z z' hz hz' hne := by
    obtain rfl := Option.some.inj hm'
    obtain rfl := List.mem_singleton.mp hold
    obtain rfl := Option.some.inj (hz.symm.trans hz')
    exact absurd rfl hne
  left := nofun
  allowed := nofun

/-- **The promises are kept in every run that is steady.** -/
theorem promises_of_reaches {m : Manifest} {files : String → Option Bytes}
    {x : Config sig Failure (Report × String) Unit State}
    (h : Reaches (fun _ => exec H) (fun x v => Runs digit v ∧ Steady H x.shared v)
      (.idle (.init m files)) x) : Promises H x.shared := by
  have hinv : Inv H x.shared := by
    refine Reaches.sequential (I := Inv H) (C := fun (_ : Unit) _ => True) (P := fun _ => Guard H)
      (D := Sem H) (fun x c a s hok hx hI => ⟨hx, hok.2, hI⟩) (fun x p hok _ => ⟨(), trivial, ?_⟩)
      (fun _ x c a s' _ hsem hg _ hI => ⟨trivial, inv_of_guard hsem.1 hg hI⟩) h (inv_init m files)
    obtain ⟨⟨opts, rfl⟩, -⟩ := hok
    exact mwp_run
  exact hinv.promises

/-! ### Two books -/

/-- The hash of one byte. -/
def host : Host where
  sha256 c := if c = [65] then "559aead08264d5795d3909718cdd05abd49572e84fe55590eef31a88a08fdffd" else ""
  locate name := name
  locate_plain _ _ := rfl

def book (filename : String) : Zim := ⟨filename, some "", none, some 1, none, none, none⟩

/-- The manifest has two books, and nothing has been superseded. -/
def shelf : Manifest := ⟨[book "a_2026-01.zim", book "b_2026-01.zim"], .absent⟩

def library : State := .init shelf fun name =>
  if name = "a_2026-01.zim" ∨ name = "b_2026-01.zim" then some [66] else none

/-- There is a newer release of both; `readable` says whether `libzim` can read that of the first. -/
def respond (readable : Bool) (s : State) : (c : Cmd) → Option (c.Ans × State)
  | .readManifest => s.manifest.map fun m =>
    (.ok m, { s with memory := m, opened := m, failed := [] })
  | .fetchCatalog => some (.ok [⟨"application/x-zim", "https://host/a_2026-02.zim", some 3⟩,
      ⟨"application/x-zim", "https://host/b_2026-02.zim", some 3⟩], s)
  | .memory => some (s.memory, s)
  | .diskFree => some (.ok (2 ^ 40), s)
  | .published _ =>
    some (.ok "559aead08264d5795d3909718cdd05abd49572e84fe55590eef31a88a08fdffd", s)
  | .exists name => some ((s.files name).isSome, s)
  | .size name | .archiveSize name => (s.files name).map fun c => (.ok c.length, s)
  | .partSize name => some (.ok ((s.files (partOf name)).getD []).length, s)
  | .request .. => some (.ok 200, s)
  | .append name =>
    some (.ok (), s.setFile name (some ((s.files name).getD [] ++ [65])))
  | .place name =>
    some (.ok (), (s.setFile name (s.files (partOf name))).setFile (partOf name) none)
  | .sha256 name => (s.files name).map fun c => (.ok (host.sha256 c), s)
  | .edit i e => some ((), { s with memory := s.memory.edit i e })
  | .libzim => some (true, s)
  | .openArchive name =>
    some (if readable || name != "a_2026-02.zim" then .ok () else .error .other, s)
  | .bookName _ => some (.ok none, s)
  | .uuid _ => some (.ok "", s)
  | .fulltext _ => some (.ok true, s)
  | .now => some (0, { s with now := 0, started := false })
  | .supersede e => (s.memory.supersede e).map fun m => (.ok (), { s with memory := m })
  | .writeUpdate m => some (.ok (), { s with manifest := some m, history := m :: s.history })
  | .report i => some ((), { s with failed := i :: s.failed })
  | .vmRunning => some (.ok true, { s with running := true, started := false })
  | _ => none

theorem exec_respond {readable : Bool} {c : Cmd} {a : c.Ans} (h : respond readable s c = some (a, s')) :
    exec host s c a s' := by
  cases c with
  | readManifest =>
    obtain ⟨m, hm, heq⟩ := Option.map_eq_some_iff.mp h
    cases heq
    exact ⟨hm, rfl⟩
  | size name | archiveSize name | sha256 name =>
    obtain ⟨c, hc, heq⟩ := Option.map_eq_some_iff.mp h
    cases heq
    exact ⟨fun _ heq => ⟨c, hc, (Except.ok.inj heq).symm⟩, rfl⟩
  | supersede e =>
    obtain ⟨m, hm, heq⟩ := Option.map_eq_some_iff.mp h
    cases heq
    simp only [exec, hm, and_self]
  | partSize name =>
    cases h
    exact ⟨fun _ heq => (Except.ok.inj heq).symm, rfl⟩
  | now =>
    cases h
    exact ⟨false, rfl⟩
  | append name =>
    cases h
    exact ⟨[65], rfl⟩
  | memory | «exists» => cases h; exact ⟨rfl, rfl⟩
  | fetchCatalog | diskFree | published | request | edit | libzim | openArchive | bookName | uuid
  | fulltext | place | writeUpdate | report | vmRunning => cases h; rfl
  | _ => cases h

theorem steady_respond {c : Cmd} {a : c.Ans} (h : respond true s c = some (a, s')) :
    Steady host s (.call () c a) := by
  cases c with
  | supersede e =>
    obtain ⟨m, hm, -⟩ := Option.map_eq_some_iff.mp h
    intro hother
    unfold Manifest.supersede at hm
    rw [hother] at hm
    cases hm
  | openArchive name =>
    cases h
    rfl
  | bookName | uuid | fulltext =>
    cases h
    exact ⟨_, rfl⟩
  | archiveSize name =>
    obtain ⟨c, -, heq⟩ := Option.map_eq_some_iff.mp h
    cases heq
    exact ⟨_, rfl⟩
  | writeUpdate m =>
    cases h
    rfl
  | setAside | delete | writePruned => cases h
  | _ => trivial

def always : Options := ⟨.ok fun _ _ => true, .ok 0, .ok 14, false, "none"⟩

/-- The first entry has the new file, though its update has failed. -/
def lostFirst (s : State) : Bool :=
  s.manifest.any fun m =>
    (m.zims[0]?).any (·.filename == "a_2026-02.zim") &&
      m.superseded.toList.all (·.filename != "a_2026-01.zim") && s.deleted.isEmpty &&
      s.history.contains shelf

theorem not_promises_of_lostFirst (h : lostFirst s = true) : ¬Promises host s := by
  intro hp
  obtain ⟨m, hm, h⟩ := Option.any_eq_true .. |>.mp h
  simp only [Bool.and_eq_true, List.isEmpty_iff, List.contains_iff_mem] at h
  obtain ⟨⟨⟨hfirst, hlist⟩, hdeleted⟩, hshelf⟩ := h
  obtain ⟨z, hz, hname⟩ := Option.any_eq_true .. |>.mp hfirst
  rw [beq_iff_eq] at hname
  obtain ⟨e, he, heq⟩ | ⟨d, hd, -⟩ := hp.accounted m hm shelf hshelf 0 (book "a_2026-01.zim") z rfl hz
    (by rw [hname]; decide)
  · have hne := List.all_eq_true.mp hlist e he
    rw [heq] at hne
    revert hne
    decide
  · rw [hdeleted] at hd
    cases hd

/-- **An entry whose update has failed is written with the next one,** and its old file is neither
listed nor deleted. -/
theorem lost : ¬∀ (H : Host) (digit : Char → Bool) (m : Manifest) (files : String → Option Bytes)
    (x : Config sig Failure (Report × String) Unit State),
    Reaches (fun _ => exec H) (fun _ v => Runs digit v) (.idle (.init m files)) x →
      Promises H x.shared := by
  intro hall
  have hrun : ((run Char.isDigit always).run (respond false) library).any
      (fun r => lostFirst r.2) = true := by
    decide +kernel
  obtain ⟨⟨r, s⟩, hr, hlost⟩ := Option.any_eq_true .. |>.mp hrun
  have hreach : Reaches (fun _ => exec host) (fun _ v => Runs Char.isDigit v) (.idle library)
      (.idle (α := Report × String) (ι := Unit) s) :=
    Reaches.solo (i := ()) (fun x c a s h => ⟨exec_respond h, trivial⟩) (fun _ _ => trivial) _
      ⟨always, rfl⟩ hr
  exact not_promises_of_lostFirst hlost (hall host Char.isDigit shelf _ _ hreach)

/-- A pass that points both entries at their new files. -/
theorem promises_of_reaches_two : ∃ s : State,
    s.manifest.map (·.zims.map (·.filename)) = some ["a_2026-02.zim", "b_2026-02.zim"] ∧
      Promises host s := by
  have hrun : ((run Char.isDigit always).run (respond true) library).any (fun r =>
      r.2.manifest.map (·.zims.map (·.filename)) == some ["a_2026-02.zim", "b_2026-02.zim"]) =
      true := by
    decide +kernel
  obtain ⟨⟨r, s⟩, hr, hnames⟩ := Option.any_eq_true .. |>.mp hrun
  have hreach : Reaches (fun _ => exec host)
      (fun x v => Runs Char.isDigit v ∧ Steady host x.shared v) (.idle library)
      (.idle (α := Report × String) (ι := Unit) s) :=
    Reaches.solo (i := ()) (fun x c a s h => ⟨exec_respond h, trivial, steady_respond h⟩)
      (fun _ _ => ⟨trivial, trivial⟩) _ ⟨⟨always, rfl⟩, trivial⟩ hr
  exact ⟨s, beq_iff_eq.mp hnames, promises_of_reaches (m := shelf) hreach⟩

end Kiwix
end CloudCore
