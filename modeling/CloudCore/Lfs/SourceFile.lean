import CloudCore.Python.Regex
import Mathlib.Data.List.Nodup
import Mathlib.Data.List.Perm.Basic

/-!
# The tarball of a package

`source_file` of `lfs_worker.py`: the first file of the manifest that begins with the package and
the version, or else the first whose name before the version is nearly the package.

## Main definitions

* `sourceFile` — the file that is unpacked.
* `Right` — in every order of the manifest it is the file of the package, and never another version.
* `Clear` — no file of the manifest is taken for the one asked for.

## Main results

* `right_iff` — the right file is unpacked exactly if the manifest is clear.
-/

namespace CloudCore
namespace Lfs
namespace SourceFile

open Python
open Python.Re (lit opt some1 search)

abbrev Text := List Char

/-- `str.lower` of ASCII text.  Capital letters outside of ASCII, which Python lowers too, stay. -/
def lower (s : Text) : Text := s.map Char.toLower

variable (letter : Char → Bool)

/-- A source file, `<package>-<version>.tar.<ext>`. -/
structure Tarball where
  set : String
  package : Text
  version : Text
  ext : Text
  ext_ne : ext ≠ []
  ext_word : ∀ c ∈ ext, isWord letter c = true

def Tarball.file {letter : Char → Bool} (t : Tarball letter) : Text := t.package ++ '-' :: t.version ++ ".tar.".toList ++ t.ext

/-- A file of the manifest; files that are no sources have any name. -/
inductive File where
  | source (t : Tarball letter)
  | other (name : Text)

def File.name {letter : Char → Bool} : File letter → Text
  | .source t => t.file
  | .other name => name

/-- A task with a package and a version, or one that overrides it. -/
structure Task where
  package : Text
  version : Text
  override : Text
  package_ne : package ≠ []
  version_ne : version ≠ [] ∨ override ≠ []

/-! ### The search -/

/-- `str.split(sep, 1)`, where the text has the separator. -/
def cutAt (sep : Text) : Text → Option (Text × Text)
  | [] => if sep = [] then some ([], []) else none
  | c :: l =>
    if sep.isPrefixOf (c :: l) then some ([], (c :: l).drop sep.length)
    else (cutAt sep l).map fun p => (c :: p.1, p.2)

def Task.ver (task : Task) : Text := if task.override = [] then task.version else task.override

/-- `pkg`: of "libstdc++ from gcc" the second. -/
def Task.pkg (task : Task) : Text :=
  match cutAt " from ".toList (lower task.package) with
  | some (_, package) => stripBy isSpace package
  | none => lower task.package

def flat (s : Text) : Text := s.filter fun c => ('a' ≤ c && c ≤ 'z') || ('0' ≤ c && c ≤ '9')

/-- `\.tar(\.\w+)?$|\.tgz$`. -/
def tarPattern : Re :=
  .alt (.seq (lit ".tar") (.seq (opt (.seq (lit ".") (some1 (isWord letter)))) .atEnd))
    (.seq (lit ".tgz") .atEnd)

/-- The name begins with the package and the version. -/
def Task.begins (task : Task) (name : Text) : Bool :=
  (task.pkg ++ '-' :: task.ver).isPrefixOf name || (task.pkg ++ task.ver).isPrefixOf name ||
    task.pkg == "linux".toList && name == "linux-".toList ++ task.ver ++ ".tar.xz".toList

/-- Before the version the name is the package, or that and at most nine characters. -/
def Task.nearly (task : Task) (name : Text) : Bool :=
  match cutAt task.ver name with
  | none => false
  | some (stem, _) =>
    flat stem ≠ [] && (flat stem == flat task.pkg ||
      (flat task.pkg).isPrefixOf (flat stem) && (flat stem).length - (flat task.pkg).length ≤ 9)

variable {letter}

/-- The files that are looked at. -/
def File.looked? : File letter → Option (Tarball letter)
  | .source t =>
    if t.set ∈ ["books", "blfs-common"] ∨ search letter (tarPattern letter) (lower t.file) = false then none
    else some t
  | .other _ => none

/-- The loop; `best` is the first near name. -/
def search? (task : Task) (best : Option Text) : List (File letter) → Option Text
  | [] => best
  | f :: fs =>
    match f.looked? with
    | none => search? task best fs
    | some t =>
      if task.begins (lower t.file) then some t.file
      else search? task (best.or (if task.nearly (lower t.file) then some t.file else none)) fs

def sourceFile (task : Task) (files : List (File letter)) : Option Text := search? task none files

/-! ### What is promised -/

/-- A source that is no book and none of the common files. -/
def IsSource (files : List (File letter)) (t : Tarball letter) : Prop :=
  File.source t ∈ files ∧ t.set ∉ ["books", "blfs-common"]

/-- The package, but for case and punctuation, and the version. -/
def Matches (task : Task) (t : Tarball letter) : Prop :=
  flat (lower t.package) = flat task.pkg ∧ t.version = task.ver

structure Right (task : Task) (files : List (File letter)) : Prop where
  /-- In every order the file of the package is found. -/
  found (order : List (File letter)) (horder : order.Perm files)
    (h : ∃ t, IsSource files t ∧ Matches task t) :
    ∃ t, IsSource files t ∧ Matches task t ∧ sourceFile task order = some t.file
  /-- No file of another version is returned. -/
  version (order : List (File letter)) (horder : order.Perm files) {t : Tarball letter}
    (ht : File.source t ∈ files) (h : sourceFile task order = some t.file) : t.version = task.ver

/-- A file that may be taken: of the version, and of the package if such a file is listed. -/
def Fine (task : Task) (files : List (File letter)) (t : Tarball letter) : Prop :=
  t.version = task.ver ∧ ((∃ t', IsSource files t' ∧ Matches task t') → Matches task t)

/-- What begins as the file asked for may be taken, or what is nearly so where nothing does; and if the
file is listed, something does. -/
structure Clear (task : Task) (files : List (File letter)) : Prop where
  begins {t : Tarball letter} (ht : IsSource files t) (h : task.begins (lower t.file) = true) :
    Fine task files t
  nearly (hnone : ∀ t, IsSource files t → task.begins (lower t.file) = false) {t : Tarball letter}
    (ht : IsSource files t) (h : task.nearly (lower t.file) = true) : Fine task files t
  listed (h : ∃ t, IsSource files t ∧ Matches task t) :
    ∃ t, IsSource files t ∧ (task.begins (lower t.file) = true ∨ task.nearly (lower t.file) = true)

/-! ### Names of tarballs -/

theorem isWord_toLower {c : Char} (h : isWord letter c = true) : isWord letter c.toLower = true := by
  by_cases hascii : c.toNat < 128
  · have hall : ∀ n < 128, ((Char.ofNat n).isAlphanum || Char.ofNat n == '_') = true →
        (Char.ofNat n).toLower.toNat < 128 ∧
          ((Char.ofNat n).toLower.isAlphanum || (Char.ofNat n).toLower == '_') = true := by decide
    have hlower := hall c.toNat hascii
    rw [Char.ofNat_toNat] at hlower
    rw [isWord, if_pos hascii] at h
    rw [isWord, if_pos (hlower h).1]
    exact (hlower h).2
  · have hsame : c.toLower = c := by
      refine dif_neg fun hupper => hascii ?_
      have hle := UInt32.le_iff_toNat_le.mp hupper.2
      have hz : 'Z'.val.toNat = 90 := rfl
      rw [Char.toNat]
      omega
    rw [hsame]
    exact h

theorem exists_along {q : Char → Bool} {w : Text} (hw : ∀ c ∈ w, q c = true) (before : Option Char) :
    ∃ b, ⟨b, []⟩ ∈ Re.along q before w := by
  induction w generalizing before with
  | nil => exact ⟨before, List.mem_singleton_self _⟩
  | cons c w ih =>
    obtain ⟨b, hb⟩ := ih (fun d hd => hw d (List.mem_cons_of_mem c hd)) (some c)
    refine ⟨b, ?_⟩
    rw [Re.along, if_pos (hw c List.mem_cons_self)]
    exact List.mem_append_left _ hb

/-- The extension is found, whatever stands before it. -/
theorem ends_tarPattern {ext : Text} (hne : ext ≠ []) (hword : ∀ c ∈ ext, isWord letter c = true)
    (before : Option Char) : (tarPattern letter).ends letter ⟨before, ".tar.".toList ++ ext⟩ ≠ [] := by
  obtain ⟨c, w, rfl⟩ := List.exists_cons_of_ne_nil hne
  obtain ⟨hc, hw⟩ := List.forall_mem_cons.mp hword
  obtain ⟨b, hb⟩ := exists_along hw (some c)
  refine List.ne_nil_of_mem (a := ⟨b, []⟩) ?_
  have htar : (lit ".tar").ends letter ⟨before, ".tar.".toList ++ c :: w⟩ = [⟨some 'r', '.' :: c :: w⟩] := rfl
  have hdot : (lit ".").ends letter ⟨some 'r', '.' :: c :: w⟩ = [⟨some '.', c :: w⟩] := rfl
  have hext : ⟨b, []⟩ ∈ (some1 (isWord letter)).ends letter ⟨some '.', c :: w⟩ := by
    refine List.mem_flatMap.mpr ⟨⟨some c, w⟩, ?_, hb⟩
    show _ ∈ (if isWord letter c = true then [(⟨some c, w⟩ : Place)] else [])
    rw [if_pos hc]
    exact List.mem_singleton_self _
  have hsuffix : ⟨b, []⟩ ∈ (Re.seq (lit ".") (some1 (isWord letter))).ends letter ⟨some 'r', '.' :: c :: w⟩ :=
    List.mem_flatMap.mpr ⟨_, hdot ▸ List.mem_singleton_self _, hext⟩
  refine List.mem_append_left _ (List.mem_flatMap.mpr ⟨_, htar ▸ List.mem_singleton_self _, ?_⟩)
  exact List.mem_flatMap.mpr ⟨_, List.mem_append_left _ hsuffix, List.mem_singleton_self _⟩

theorem searchFrom_append {r : Re} {suf : Text} (h : ∀ before, r.ends letter ⟨before, suf⟩ ≠ []) (pre : Text)
    (before : Option Char) : r.searchFrom letter before (pre ++ suf) = true := by
  induction pre generalizing before with
  | nil =>
    have hne := h before
    rw [← List.isEmpty_eq_false_iff] at hne
    cases suf with
    | nil => rw [List.append_nil, Re.searchFrom, hne, Bool.not_false]
    | cons c l => rw [List.nil_append, Re.searchFrom, hne, Bool.not_false, Bool.true_or]
  | cons c pre ih => rw [List.cons_append, Re.searchFrom, ih, Bool.or_true]

theorem search_tarPattern (t : Tarball letter) : search letter (tarPattern letter) (lower t.file) = true := by
  have hfile : lower t.file = lower (t.package ++ '-' :: t.version) ++ (".tar.".toList ++ lower t.ext) := by
    rw [Tarball.file, List.append_assoc, lower, List.map_append, @List.map_append _ _ Char.toLower _ t.ext]
    have htar : ".tar.".toList.map Char.toLower = ".tar.".toList := by decide
    rw [htar]
    rfl
  rw [hfile, search]
  refine searchFrom_append (fun before => ends_tarPattern ?_ ?_ before) _ none
  · exact fun hnil => t.ext_ne (List.map_eq_nil_iff.mp hnil)
  · intro c hc
    obtain ⟨d, hd, rfl⟩ := List.mem_map.mp hc
    exact isWord_toLower (t.ext_word d hd)

/-! ### The search -/

/-- Every source that is no book is looked at. -/
theorem looked?_source (t : Tarball letter) :
    (File.source t).looked? = if t.set ∈ ["books", "blfs-common"] then none else some t := by
  rw [File.looked?, search_tarPattern]
  simp

theorem mem_looked {files : List (File letter)} {t : Tarball letter} :
    t ∈ files.filterMap File.looked? ↔ IsSource files t := by
  rw [List.mem_filterMap, IsSource]
  constructor
  · rintro ⟨f, hf, hlooked⟩
    cases f with
    | source u =>
      rw [looked?_source] at hlooked
      split at hlooked
      · cases hlooked
      · next hset =>
        cases hlooked
        exact ⟨hf, hset⟩
    | other name => cases hlooked
  · rintro ⟨ht, hset⟩
    exact ⟨_, ht, by rw [looked?_source, if_neg hset]⟩

/-- **The first file that begins as the one asked for, or else the first that is nearly it.** -/
theorem search?_eq (task : Task) (files : List (File letter)) (best : Option Text) :
    search? task best files =
      (((files.filterMap File.looked?).find? fun t => task.begins (lower t.file)).map Tarball.file).or
        (best.or (((files.filterMap File.looked?).find? fun t => task.nearly (lower t.file)).map Tarball.file)) := by
  induction files generalizing best with
  | nil => rw [search?]; cases best <;> rfl
  | cons f fs ih =>
    rw [search?]
    cases hlooked : f.looked? with
    | none => rw [List.filterMap_cons_none hlooked, ← ih]
    | some t =>
      rw [List.filterMap_cons_some hlooked, List.find?_cons, List.find?_cons]
      dsimp only
      cases hbegins : task.begins (lower t.file) with
      | true => rfl
      | false =>
        cases hnearly : task.nearly (lower t.file) with
        | true =>
          -- the first near one stays
          rw [if_neg Bool.false_ne_true, if_pos rfl, ih]
          cases best <;> rfl
        | false =>
          rw [if_neg Bool.false_ne_true, if_neg Bool.false_ne_true, Option.or_none, ih]

variable {task : Task} {files : List (File letter)}

/-- A file that is listed may be the first. -/
theorem exists_order {t : Tarball letter} (ht : IsSource files t) :
    ∃ rest, (File.source t :: rest).Perm files ∧
      (File.source t :: rest).filterMap File.looked? = t :: rest.filterMap File.looked? := by
  obtain ⟨a, b, rfl⟩ := List.append_of_mem ht.1
  refine ⟨a ++ b, List.perm_middle.symm, ?_⟩
  exact List.filterMap_cons_some (by rw [looked?_source, if_neg ht.2])

/-- What is returned is a source that begins as the one asked for, or the first near one where none does. -/
theorem sourceFile_cases (task : Task) {order : List (File letter)} (horder : order.Perm files) :
    (∃ t, IsSource files t ∧ task.begins (lower t.file) = true ∧ sourceFile task order = some t.file) ∨
    (∀ t, IsSource files t → task.begins (lower t.file) = false) ∧
      ((∃ t, IsSource files t ∧ task.nearly (lower t.file) = true ∧ sourceFile task order = some t.file) ∨
        (∀ t, IsSource files t → task.nearly (lower t.file) = false) ∧ sourceFile task order = none) := by
  have hmem {t : Tarball letter} : t ∈ order.filterMap File.looked? ↔ IsSource files t :=
    mem_looked.trans (and_congr_left' horder.mem_iff)
  rw [sourceFile, search?_eq, Option.none_or]
  cases hbegins : (order.filterMap File.looked?).find? fun t => task.begins (lower t.file) with
  | some t =>
    exact .inl ⟨t, hmem.mp (List.mem_of_find?_eq_some hbegins), List.find?_some (p := fun t : Tarball letter => task.begins (lower t.file)) hbegins, rfl⟩
  | none =>
    rw [List.find?_eq_none] at hbegins
    refine .inr ⟨fun t ht => Bool.eq_false_iff.mpr (hbegins t (hmem.mpr ht)), ?_⟩
    cases hnearly : (order.filterMap File.looked?).find? fun t => task.nearly (lower t.file) with
    | some t =>
      exact .inl ⟨t, hmem.mp (List.mem_of_find?_eq_some hnearly), List.find?_some (p := fun t : Tarball letter => task.nearly (lower t.file)) hnearly, rfl⟩
    | none =>
      rw [List.find?_eq_none] at hnearly
      exact .inr ⟨fun t ht => Bool.eq_false_iff.mpr (hnearly t (hmem.mpr ht)), rfl⟩

theorem Right.fine {t : Tarball letter} {order : List (File letter)} (h : Right task files)
    (hnames : (files.map File.name).Nodup) (ht : IsSource files t) (horder : order.Perm files)
    (hfile : sourceFile task order = some t.file) : Fine task files t := by
  refine ⟨h.version order horder ht.1 hfile, fun hlisted => ?_⟩
  obtain ⟨u, hu, hmatches, hfile'⟩ := h.found order horder hlisted
  -- of one name there is one file
  have hsame : File.source t = File.source u :=
    List.inj_on_of_nodup_map hnames ht.1 hu.1 (Option.some.inj (hfile.symm.trans hfile'))
  cases hsame
  exact hmatches

/-- **The right file is unpacked, in every order, exactly if the manifest is clear.** -/
theorem right_iff (task : Task) (files : List (File letter)) (hnames : (files.map File.name).Nodup) :
    Right task files ↔ Clear task files := by
  constructor
  · intro h
    refine ⟨fun {t} ht hbegins => ?_, fun hnone t ht hnearly => ?_, fun hlisted => ?_⟩
    · obtain ⟨rest, horder, hfirst⟩ := exists_order ht
      refine h.fine hnames ht horder ?_
      rw [sourceFile, search?_eq, hfirst, List.find?_cons, hbegins]
      rfl
    · obtain ⟨rest, horder, hfirst⟩ := exists_order ht
      rcases sourceFile_cases task horder with ⟨u, hu, hbegins, -⟩ | ⟨-, -⟩
      · cases hbegins.symm.trans (hnone u hu)
      · refine h.fine hnames ht horder ?_
        have hbegins : ((File.source t :: rest).filterMap File.looked?).find?
            (fun t => task.begins (lower t.file)) = none := by
          refine List.find?_eq_none.mpr fun u hu => ?_
          rw [hnone u (mem_looked.mp hu |>.imp_left horder.mem_iff.mp)]
          exact Bool.false_ne_true
        rw [sourceFile, search?_eq, hbegins, hfirst, List.find?_cons, hnearly]
        rfl
    · obtain ⟨t, -, -, hfile⟩ := h.found files (List.Perm.refl _) hlisted
      rcases sourceFile_cases task (List.Perm.refl files) with
        ⟨u, hu, hbegins, -⟩ | ⟨-, ⟨u, hu, hnearly, -⟩ | ⟨-, hnone⟩⟩
      · exact ⟨u, hu, .inl hbegins⟩
      · exact ⟨u, hu, .inr hnearly⟩
      · exact absurd (hfile.symm.trans hnone) (Option.some_ne_none _)
  · intro h
    have hcases (order : List (File letter)) (horder : order.Perm files) :
        (∃ t, IsSource files t ∧ Fine task files t ∧ sourceFile task order = some t.file) ∨
          sourceFile task order = none ∧ ¬∃ t, IsSource files t ∧ Matches task t := by
      rcases sourceFile_cases task horder with
        ⟨t, ht, hbegins, hfile⟩ | ⟨hnone, ⟨t, ht, hnearly, hfile⟩ | ⟨hfar, hfile⟩⟩
      · exact .inl ⟨t, ht, h.begins ht hbegins, hfile⟩
      · exact .inl ⟨t, ht, h.nearly hnone ht hnearly, hfile⟩
      · refine .inr ⟨hfile, fun hlisted => ?_⟩
        obtain ⟨t, ht, hbegins | hnearly⟩ := h.listed hlisted
        · cases hbegins.symm.trans (hnone t ht)
        · cases hnearly.symm.trans (hfar t ht)
    refine ⟨fun order horder hlisted => ?_, fun order horder t ht hfile => ?_⟩
    · rcases hcases order horder with ⟨t, ht, hfine, hfile⟩ | ⟨-, hnot⟩
      · exact ⟨t, ht, hfine.2 hlisted, hfile⟩
      · exact absurd hlisted hnot
    · rcases hcases order horder with ⟨u, hu, hfine, hfile'⟩ | ⟨hnone, -⟩
      · have hsame : File.source t = File.source u :=
          List.inj_on_of_nodup_map hnames ht hu.1 (Option.some.inj (hfile.symm.trans hfile'))
        cases hsame
        exact hfine.1
      · exact absurd (hfile.symm.trans hnone) (Option.some_ne_none _)

/-! ### Some manifests -/

def tarball (package version : String) : Tarball fun _ => false where
  set := "lfs"
  package := package.toList
  version := version.toList
  ext := "xz".toList
  ext_ne := by decide
  ext_word := by decide

/-- "Libstdc++ from GCC" 16.2.0. -/
def libstdcxx : Task := ⟨"Libstdc++ from GCC".toList, "16.2.0".toList, [], by decide, .inl (by decide)⟩

def gcc12 : Task := ⟨"GCC".toList, "1.2".toList, [], by decide, .inl (by decide)⟩

theorem right_libstdcxx :
    Right libstdcxx [.source (tarball "gcc" "16.2.0"), .source (tarball "binutils" "2.47")] := by
  refine (right_iff libstdcxx _ (by decide)).mpr ⟨?_, ?_, ?_⟩
  · rintro t ⟨ht, -⟩ hbegins
    rcases List.mem_cons.mp ht with heq | ht
    · cases heq
      exact ⟨by decide, fun _ => ⟨by decide, by decide⟩⟩
    · cases List.mem_singleton.mp ht
      exact absurd hbegins (by decide)
  · intro hnone
    exact absurd (hnone _ ⟨List.mem_cons_self, by decide⟩) (by decide)
  · exact fun _ => ⟨_, ⟨List.mem_cons_self, by decide⟩, .inl (by decide)⟩

/-- GCC 1.20 is unpacked for GCC 1.2, also where that is listed. -/
theorem not_right : ¬Right gcc12 [.source (tarball "gcc" "1.20")] ∧
    ¬Right gcc12 [.source (tarball "gcc" "1.20"), .source (tarball "gcc" "1.2")] := by
  have hversion : (tarball "gcc" "1.20").version ≠ gcc12.ver := by decide
  constructor
  · intro h
    exact hversion (h.version _ (List.Perm.refl _) List.mem_cons_self (by decide))
  · intro h
    exact hversion (h.version _ (List.Perm.refl _) List.mem_cons_self (by decide))

end SourceFile
end Lfs
end CloudCore
