import CloudCore.Python.Regex

/-!
# What a command may not have in it

The expressions with which `lfs_worker.py` looks for disks, downloads, passwords and system-level
words in a command.

## Main definitions

* `danger`, `download`, `credential`, `system`, `never` — `_DANGER`, `_DOWNLOAD`, `_CREDENTIAL`,
  `_SYSTEM` and `_NEVER`.

## Main results

* `danger_lines`, `download_lines`, `credential_lines`, `system_lines` — each sees two texts, one
  after the other, as it sees them alone.
* `exists_never_word` — **what `_NEVER` finds lies in a word that `_SYSTEM` finds.**
-/

namespace CloudCore
namespace LfsWorker

open Python
open Python.Re (lit oneOf opt some1)

variable (letter : Char → Bool)

/-- `[^\n]*`. -/
def restOfLine : Re := .many (· != '\n')

/-- `r` and then each of `rs`. -/
def inOrder : List Re → Re
  | [] => .eps
  | [r] => r
  | r :: rs => .seq r (inOrder rs)

/-- `mkfs(?:\.\w+)?`. -/
def mkfs : Re := .seq (lit "mkfs") (opt (.seq (lit ".") (some1 (isWord letter))))

def danger : Re :=
  oneOf
    [inOrder [lit "/dev/", oneOf [lit "sda", lit "vda"], .boundary],
      inOrder [.boundary, lit "dd", .boundary, restOfLine, .boundary, lit "of=/dev/",
        .notAhead (lit "sdb")],
      inOrder [.boundary, mkfs letter, .boundary, .notAhead (.seq restOfLine (lit "/dev/sdb")),
        restOfLine, lit "/dev/"],
      inOrder [.boundary, lit "rm", some1 isSpace, lit "-r", opt (lit "f"), some1 isSpace, lit "/",
        .alt (.set isSpace) .atEnd],
      inOrder [.boundary, lit "wipefs", .boundary, .notAhead (.seq restOfLine (lit "/dev/sdb"))]]

def download : Re :=
  inOrder [.boundary, oneOf [lit "wget", lit "curl"], .boundary, restOfLine, .boundary,
    oneOf [.seq (lit "http") (opt (lit "s")), lit "ftp"], lit "://"]

/-- `[/\w.-]`. -/
def isPathChar (c : Char) : Bool := c == '/' || isWord letter c || c == '.' || c == '-'

def credential : Re :=
  oneOf
    [inOrder [.notBehind (isPathChar letter), lit "chpasswd", .boundary],
      inOrder [.notBehind (isPathChar letter), lit "passwd", .boundary, restOfLine,
        oneOf [lit "--stdin", lit "<<"]],
      inOrder [lit "|", .many isSpace, oneOf [lit "passwd", lit "chpasswd"], .boundary],
      inOrder [.boundary, lit "usermod", .boundary, restOfLine, .set isSpace, lit "-p",
        .set isSpace],
      inOrder [.boundary, lit "openssl", some1 isSpace, lit "passwd", .boundary]]

/-- The words of `_NEVER`. -/
def neverNames : List String := ["sudo", "apt-get", "apt", "dnf", "yum"]

/-- The words of `_SYSTEM` before and behind `mkfs`. -/
def systemNames : List String × List String :=
  (["grub-install", "grub-mkconfig", "efibootmgr", "mount", "umount"],
    ["sgdisk", "fdisk", "parted", "mkswap", "swapon"] ++ neverNames ++ ["chroot"])

def never : Re := inOrder [.boundary, oneOf (neverNames.map lit), .boundary]

def system : Re :=
  inOrder [.boundary, oneOf (systemNames.1.map lit ++ mkfs letter :: systemNames.2.map lit),
    .boundary]

/-! ### Two texts -/

variable {letter}

theorem danger_lasting : (danger letter).Lasting letter :=
  .alt (Re.lasting_of_steady rfl)
    (.alt (Re.lasting_of_steady rfl)
      (.alt (Re.lasting_of_steady rfl)
        (.alt
          (.seq rfl (.seq rfl (.seq rfl (.seq rfl (.seq rfl (.seq rfl (.seq rfl
            (Re.lasting_orEnd rfl))))))))
          (Re.lasting_of_steady rfl))))

theorem danger_lines {a b : List Char} (h : (danger letter).search letter (a ++ '\n' :: b) = false) :
    (danger letter).search letter a = false ∧ (danger letter).search letter b = false :=
  Re.search_lines danger_lasting rfl h

theorem download_lines {a b : List Char} (h : download.search letter (a ++ '\n' :: b) = false) :
    download.search letter a = false ∧ download.search letter b = false :=
  Re.search_lines (Re.lasting_of_steady rfl) rfl h

theorem credential_lines {a b : List Char}
    (h : (credential letter).search letter (a ++ '\n' :: b) = false) :
    (credential letter).search letter a = false ∧ (credential letter).search letter b = false :=
  Re.search_lines (Re.lasting_of_steady rfl) rfl h

theorem system_lines (a b : List Char) :
    (system letter).findall letter (a ++ '\n' :: b) =
      (system letter).findall letter a ++ (system letter).findall letter b :=
  Re.findall_lines rfl rfl rfl a b

/-! ### Words that are never used -/

/-- The words of `_SYSTEM` that are written out. -/
def fixedNames : List String := systemNames.1 ++ "mkfs" :: systemNames.2

/-- A match of `_NEVER` is one of its words, and no word goes on before or behind it. -/
theorem mem_ends_never {before : Option Char} {l : List Char} {p : Place}
    (h : p ∈ never.ends letter ⟨before, l⟩) :
    ∃ n ∈ neverNames, ∃ y, l = n.toList ++ y ∧ Re.isBoundary letter ⟨before, l⟩ = true ∧
      Re.isBoundary letter ⟨n.toList.getLast?.or before, y⟩ = true := by
  obtain ⟨m, hm, h⟩ := List.mem_flatMap.mp h
  obtain ⟨hstart, rfl⟩ := Re.mem_here.mp hm
  obtain ⟨m, hm, h⟩ := List.mem_flatMap.mp h
  obtain ⟨hend, rfl⟩ := Re.mem_here.mp h
  obtain ⟨r, hr, hm⟩ := Re.mem_ends_oneOf.mp hm
  obtain ⟨n, hn, rfl⟩ := List.mem_map.mp hr
  obtain ⟨hrest, hbefore⟩ := Re.mem_ends_lit.mp hm
  exact ⟨n, hn, p.rest, hrest, hstart, by rw [← hbefore]; exact hend⟩

/-- A match of `_SYSTEM` is one of its words, or `mkfs` with the name of a file system. -/
theorem mem_ends_system {before : Option Char} {w y : List Char} {p : Place}
    (h : p ∈ (system letter).ends letter ⟨before, w ++ y⟩) (hy : p.rest = y) :
    Re.isBoundary letter ⟨w.getLast?.or before, y⟩ = true ∧
      ((∃ s ∈ fixedNames, w = s.toList) ∨
        ∃ u, u ≠ [] ∧ w = "mkfs.".toList ++ u ∧ ∀ c ∈ u, isWord letter c = true) := by
  obtain ⟨m, hm, h⟩ := List.mem_flatMap.mp h
  obtain ⟨-, rfl⟩ := Re.mem_here.mp hm
  obtain ⟨m, hm, h⟩ := List.mem_flatMap.mp h
  obtain ⟨hend, rfl⟩ := Re.mem_here.mp h
  subst hy
  have hfixed {s : String} (hs : s ∈ fixedNames)
      (hlit : p ∈ (lit s).ends letter ⟨before, w ++ p.rest⟩) :
      Re.isBoundary letter ⟨w.getLast?.or before, p.rest⟩ = true ∧
        ((∃ s ∈ fixedNames, w = s.toList) ∨
          ∃ u, u ≠ [] ∧ w = "mkfs.".toList ++ u ∧ ∀ c ∈ u, isWord letter c = true) := by
    obtain ⟨hrest, hbefore⟩ := Re.mem_ends_lit.mp hlit
    obtain rfl := List.append_cancel_right hrest
    rw [← hbefore]
    exact ⟨hend, .inl ⟨s, hs, rfl⟩⟩
  obtain ⟨r, hr, hm⟩ := Re.mem_ends_oneOf.mp hm
  obtain hr | hr := List.mem_append.mp hr
  · obtain ⟨s, hs, rfl⟩ := List.mem_map.mp hr
    exact hfixed (List.mem_append_left _ hs) hm
  · obtain rfl | hr := List.mem_cons.mp hr
    · obtain ⟨m, hmkfs, hopt⟩ := List.mem_flatMap.mp hm
      obtain hopt | hopt := List.mem_append.mp hopt
      · -- `mkfs` and the name of a file system
        obtain ⟨d, hdot, hrun⟩ := List.mem_flatMap.mp hopt
        obtain ⟨hrest, hbefore⟩ := Re.mem_ends_lit.mp hmkfs
        obtain ⟨hrest', hbefore'⟩ := Re.mem_ends_lit.mp hdot
        obtain ⟨u, hne, hrest'', hu, hbefore''⟩ := Re.mem_ends_some1 hrun
        have hw : w = "mkfs.".toList ++ u := by
          have htext : w ++ p.rest = ("mkfs.".toList ++ u) ++ p.rest := by
            rw [List.append_assoc, ← hrest'']
            exact hrest.trans (by rw [hrest']; rfl)
          exact List.append_cancel_right htext
        have hlast : p.before = w.getLast?.or before := by
          rw [hbefore'', hw, List.getLast?_append_of_ne_nil _ hne]
          cases hl : u.getLast? with
          | none => exact absurd (List.getLast?_eq_none_iff.mp hl) hne
          | some c => rfl
        rw [← hlast]
        exact ⟨hend, .inr ⟨u, hne, hw, hu⟩⟩
      · obtain rfl := List.mem_singleton.mp hopt
        exact hfixed (by decide) hmkfs
    · obtain ⟨s, hs, rfl⟩ := List.mem_map.mp hr
      exact hfixed (List.mem_append_right _ (List.mem_cons_of_mem _ hs)) hm

/-- A character of `\w` in ASCII. -/
def isAsciiWord (c : Char) : Bool := c.isAlphanum || c == '_'

/-- One text begins with the other. -/
def comparable (a b : List Char) : Bool := a.isPrefixOf b || b.isPrefixOf a

theorem comparable_of_append_eq {a b y z : List Char} (h : a ++ y = b ++ z) :
    comparable a b = true := by
  rw [comparable, Bool.or_eq_true, List.isPrefixOf_iff_prefix, List.isPrefixOf_iff_prefix]
  exact List.prefix_or_prefix_of_prefix (List.prefix_append a y) (h ▸ List.prefix_append b z)

/-- A word of `_SYSTEM` that begins like a word of `_NEVER` is one. -/
theorem mem_neverNames_of_comparable :
    ∀ s ∈ fixedNames, ∀ n ∈ neverNames, comparable s.toList n.toList = true → s ∈ neverNames := by
  decide

/-- In no word of `_SYSTEM` a word of `_NEVER` begins after a boundary. -/
theorem not_comparable_drop :
    ∀ s ∈ fixedNames, ∀ k ∈ List.range s.toList.length, k ≠ 0 →
      ((s.toList.take k).getLast?.any isAsciiWord !=
        (s.toList.drop k).head?.any isAsciiWord) = true →
      ∀ n ∈ neverNames, comparable (s.toList.drop k) n.toList = false := by
  decide

theorem search_never_of_mem {n : String} (h : n ∈ neverNames) :
    never.search letter n.toList = true := by
  simp only [neverNames, List.mem_cons, List.not_mem_nil, or_false] at h
  obtain rfl | rfl | rfl | rfl | rfl := h <;> rfl

/-- `mkfs` with the name of a word of `_NEVER`. -/
theorem search_never_mkfs {n : String} (h : n ∈ neverNames) (hne : n ≠ "apt-get") :
    never.search letter ("mkfs.".toList ++ n.toList) = true := by
  simp only [neverNames, List.mem_cons, List.not_mem_nil, or_false] at h
  obtain rfl | rfl | rfl | rfl | rfl := h
  · rfl
  · exact absurd rfl hne
  · rfl
  · rfl
  · rfl

theorem isWord_eq_isAsciiWord {c : Char} (h : c.toNat < 128) : isWord letter c = isAsciiWord c :=
  if_pos h

theorem any_isWord {o : Option Char} (h : ∀ c ∈ o, c.toNat < 128) :
    o.any (isWord letter) = o.any isAsciiWord := by
  cases o with
  | none => rfl
  | some c => exact isWord_eq_isAsciiWord (h c rfl)

theorem ascii_of_mem_names :
    ∀ s ∈ fixedNames ++ neverNames, ∀ c ∈ s.toList, c.toNat < 128 := by
  decide

/-- The run of word characters that a text begins with. -/
theorem takeWhile_run {u y : List Char} (hu : ∀ c ∈ u, isWord letter c = true)
    (hy : y.head?.any (isWord letter) = false) : (u ++ y).takeWhile (isWord letter) = u := by
  rw [List.takeWhile_append_of_pos hu]
  cases y with
  | nil => simp
  | cons c y => rw [List.takeWhile_cons_of_neg (by simpa using hy), List.append_nil]

/-- A boundary behind a word character. -/
theorem not_word_behind {c : Char} {y : List Char} {before : Option Char}
    (hc : before = some c) (hword : isWord letter c = true)
    (h : Re.isBoundary letter ⟨before, y⟩ = true) : y.head?.any (isWord letter) = false := by
  subst hc
  simpa [Re.isBoundary, hword] using h

theorem isAsciiWord_of_mem :
    ∀ n ∈ neverNames, n ≠ "apt-get" → n.toList ≠ [] ∧ ∀ c ∈ n.toList, isAsciiWord c = true := by
  decide

theorem not_mkfs_of_mem :
    ∀ n ∈ neverNames, n.toList ≠ [] ∧ n.toList.head? ≠ some '.' ∧
      comparable "mkfs.".toList n.toList = false := by
  decide

/-- The first run of a word of `_NEVER` is a word of it. -/
theorem run_of_never {n : String} (hn : n ∈ neverNames) {y : List Char} {before : Option Char}
    (h : Re.isBoundary letter ⟨n.toList.getLast?.or before, y⟩ = true) :
    ∃ m ∈ neverNames, m ≠ "apt-get" ∧ (n.toList ++ y).takeWhile (isWord letter) = m.toList := by
  by_cases hapt : n = "apt-get"
  · subst hapt
    exact ⟨"apt", by decide, by decide, rfl⟩
  · obtain ⟨hne, hascii⟩ := isAsciiWord_of_mem n hn hapt
    have hword : ∀ c ∈ n.toList, isWord letter c = true := fun c hc =>
      (isWord_eq_isAsciiWord (ascii_of_mem_names n (List.mem_append_right _ hn) c hc)).trans
        (hascii c hc)
    have hlast := List.getLast?_eq_some_getLast hne
    refine ⟨n, hn, hapt, takeWhile_run hword ?_⟩
    refine not_word_behind (c := n.toList.getLast hne) ?_ (hword _ (List.getLast_mem hne)) h
    rw [hlast]
    rfl

/-- Inside `mkfs.` and a name, a word of `_NEVER` only begins where the name does. -/
theorem run_of_drop {u v r y z : List Char} {n : String} {before : Option Char} (hn : n ∈ neverNames)
    (hrun : ∀ c ∈ r, isWord letter c = true) (hw : "mkfs.".toList ++ r = u ++ v) (hu : u ≠ [])
    (hv : v ≠ []) (htext : n.toList ++ z = v ++ y)
    (hstart : Re.isBoundary letter ⟨u.getLast?.or before, v ++ y⟩ = true)
    (hend : y.head?.any (isWord letter) = false) :
    (n.toList ++ z).takeWhile (isWord letter) = r := by
  have hdone (h : v = r) : (n.toList ++ z).takeWhile (isWord letter) = r := by
    rw [htext, h]
    exact takeWhile_run hrun hend
  obtain ⟨a, rfl, hr⟩ | ⟨c, hmkfs, hvc⟩ := List.append_eq_append_iff.mp hw
  · cases a with
    | nil => exact hdone hr.symm
    | cons d a =>
      -- in the name there is no boundary
      obtain ⟨e, v, rfl⟩ := List.exists_cons_of_ne_nil hv
      have hlast : ("mkfs.".toList ++ d :: a).getLast? =
          some ((d :: a).getLast (List.cons_ne_nil _ _)) := by
        rw [List.getLast?_append_of_ne_nil _ (List.cons_ne_nil _ _)]
        exact List.getLast?_eq_some_getLast _
      have hlastWord : isWord letter ((d :: a).getLast (List.cons_ne_nil _ _)) = true :=
        hrun _ (hr ▸ List.mem_append_left _ (List.getLast_mem _))
      have hheadWord : isWord letter e = true :=
        hrun _ (hr ▸ List.mem_append_right _ List.mem_cons_self)
      have hnot : ((e :: v) ++ y).head?.any (isWord letter) = false :=
        not_word_behind (by rw [hlast]; rfl) hlastWord hstart
      simp [hheadWord] at hnot
  · cases c with
    | nil => exact hdone hvc
    | cons d c =>
      -- nor is there one before the dot, and no word of `_NEVER` begins with it
      have hlen := congrArg List.length hmkfs
      have hu' : u = "mkfs.".toList.take u.length := by rw [hmkfs, List.take_left]
      have hc' : d :: c = "mkfs.".toList.drop u.length := by rw [hmkfs, List.drop_left]
      have hpos : 0 < u.length := List.length_pos_iff.mpr hu
      have hlt : u.length < 5 := by
        simp only [List.length_append, List.length_cons] at hlen
        have : "mkfs.".toList.length = 5 := rfl
        omega
      rw [hvc, hc'] at hstart htext
      rw [hu'] at hstart
      generalize u.length = k at hstart htext hpos hlt
      obtain rfl | rfl | rfl | rfl : k = 1 ∨ k = 2 ∨ k = 3 ∨ k = 4 := by omega
      · cases hstart
      · cases hstart
      · cases hstart
      · have hdot : n.toList.head? = some '.' := by
          have hhead : (n.toList ++ z).head? = n.toList.head? :=
            List.head?_append_of_ne_nil _ (not_mkfs_of_mem n hn).1
          rw [← hhead, htext]
          rfl
        exact absurd hdot (not_mkfs_of_mem n hn).2.1

theorem mem_ends_system_of_never {p p' : Place} (h : p' ∈ never.ends letter p) :
    p' ∈ (system letter).ends letter p := by
  obtain ⟨m, hm, h⟩ := List.mem_flatMap.mp h
  obtain ⟨m', hm', h⟩ := List.mem_flatMap.mp h
  obtain ⟨r, hr, hm'⟩ := Re.mem_ends_oneOf.mp hm'
  refine List.mem_flatMap.mpr ⟨m, hm, List.mem_flatMap.mpr ⟨m', ?_, h⟩⟩
  refine Re.mem_ends_oneOf.mpr ⟨r, ?_, hm'⟩
  obtain ⟨n, hn, rfl⟩ := List.mem_map.mp hr
  refine List.mem_append_right _ (List.mem_cons_of_mem _ (List.mem_map_of_mem ?_))
  exact List.mem_append_left _ (List.mem_append_right _ hn)

/-- **What `_NEVER` finds lies in a word that `_SYSTEM` finds.** -/
theorem exists_never_word {t : List Char} (h : never.search letter t = true) :
    ∃ w ∈ (system letter).findall letter t, never.search letter w = true := by
  obtain ⟨x, y, rfl, p, hp⟩ := Re.searchFrom_iff.mp h
  obtain ⟨n, hn, z, rfl, hstart, hend⟩ := mem_ends_never hp
  obtain ⟨x', w, y', htext, hw, hx, p', hp', hrest⟩ :=
    Re.exists_mem_findallFrom rfl (Nat.zero_le _)
      (List.ne_nil_of_mem (mem_ends_system_of_never hp))
  obtain ⟨hwend, hform⟩ := mem_ends_system hp' hrest
  refine ⟨w, hw, ?_⟩
  obtain rfl | ⟨hbefore, hbehind⟩ := hx
  · -- both begin at one place
    have hsame : w ++ y' = n.toList ++ z := (List.append_cancel_left htext).symm
    obtain ⟨s, hs, rfl⟩ | ⟨u, -, rfl, -⟩ := hform
    · exact search_never_of_mem (mem_neverNames_of_comparable s hs n hn
        (comparable_of_append_eq hsame))
    · have hnm : comparable "mkfs.".toList n.toList = true :=
        comparable_of_append_eq ((List.append_assoc _ _ _).symm.trans hsame)
      rw [(not_mkfs_of_mem n hn).2.2] at hnm
      cases hnm
  · -- the one that `_NEVER` finds begins inside the other
    obtain ⟨u, rfl, hwu⟩ : ∃ u, x = x' ++ u ∧ w ++ y' = u ++ (n.toList ++ z) := by
      obtain ⟨a, hx', -⟩ | ⟨a, hx', ha⟩ := List.append_eq_append_iff.mp htext
      · exact absurd (congrArg List.length hx') (by simp only [List.length_append]; omega)
      · exact ⟨a, hx', ha⟩
    have hu : u ≠ [] := by
      rintro rfl
      simp at hbefore
    obtain ⟨v, rfl, hnv⟩ : ∃ v, w = u ++ v ∧ n.toList ++ z = v ++ y' := by
      obtain ⟨a, hu', -⟩ | ⟨a, hw', ha⟩ := List.append_eq_append_iff.mp hwu
      · exact absurd (congrArg List.length hu') (by
          simp only [List.length_append] at hbehind ⊢
          omega)
      · exact ⟨a, hw', ha⟩
    have hv : v ≠ [] := by
      rintro rfl
      simp at hbehind
    rw [List.getLast?_append_of_ne_nil _ hu, hnv] at hstart
    obtain ⟨s, hs, hsuv⟩ | ⟨r, hr, hsuv, hrun⟩ := hform
    · have hascii : ∀ c ∈ u ++ v, c.toNat < 128 := by
        rw [hsuv]
        exact ascii_of_mem_names s (List.mem_append_left _ hs)
      have hlastU := List.getLast?_eq_some_getLast hu
      have hbound : (u.getLast?.any isAsciiWord != v.head?.any isAsciiWord) = true := by
        have huWord : u.getLast?.any (isWord letter) = u.getLast?.any isAsciiWord :=
          any_isWord fun c hc => hascii c (List.mem_append_left _ (List.mem_of_mem_getLast? hc))
        have hvWord : v.head?.any (isWord letter) = v.head?.any isAsciiWord :=
          any_isWord fun c hc => hascii c (List.mem_append_right _ (List.mem_of_mem_head? hc))
        rw [← huWord, ← hvWord, hlastU]
        rw [Re.isBoundary, hlastU, List.head?_append_of_ne_nil _ hv] at hstart
        exact hstart
      have hk : u.length ∈ List.range s.toList.length := by
        rw [← hsuv, List.length_append, List.mem_range]
        exact Nat.lt_add_of_pos_right (List.length_pos_iff.mpr hv)
      have hnot := not_comparable_drop s hs u.length hk (List.length_pos_iff.mpr hu).ne'
        (by rw [← hsuv, List.take_left, List.drop_left]; exact hbound) n hn
      rw [← hsuv, List.drop_left, comparable_of_append_eq hnv.symm] at hnot
      cases hnot
    · have hlast : ∃ c, (u ++ v).getLast?.or (x'.getLast?.or none) = some c ∧
          isWord letter c = true := by
        refine ⟨r.getLast hr, ?_, hrun _ (List.getLast_mem hr)⟩
        rw [hsuv, List.getLast?_append_of_ne_nil _ hr, List.getLast?_eq_some_getLast hr]
        rfl
      obtain ⟨c, hc, hcword⟩ := hlast
      have hrunEq := run_of_drop hn hrun hsuv.symm hu hv hnv hstart
        (not_word_behind hc hcword hwend)
      obtain ⟨m, hm, hapt, hmrun⟩ := run_of_never hn hend
      rw [hsuv, ← hrunEq, hmrun]
      exact search_never_mkfs hm hapt

end LfsWorker
end CloudCore
