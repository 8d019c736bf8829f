import CloudCore.Formats.Exports
import CloudCore.Nfs.Server

/-!
# What the exports file promises

`_export_line_raw` prints the clients of a share and the options once, after the last of them;
`reload_exports` writes one such line for each share.  The text is read back as `/etc/exports` is.

## Main definitions

* `Host.reloadExports` — the text that is written.
* `Host.listed` — the clients that a share lists.
* `Promised` — each client of the list, and no other, has the options.

## Main results

* `keeps_iff` — the text keeps its promise exactly where each share has one client.
-/

namespace CloudCore
namespace Nfs

open Formats Python
open Formats.Exports (Export exports exportOf client)
open Formats.Haproxy (isBlank isPlain split words IsWord)

/-- `exports_content` of `reload_exports`, with the line end that `echo` adds. -/
def Host.reloadExports (H : Host) (shares : List Share) : Option String :=
  (H.exportLines shares).map fun lines => String.intercalate "\n" lines ++ "\n" ++ "\n"

def promisedOptions : List Line :=
  ["rw".toList, "sync".toList, "no_subtree_check".toList, "no_root_squash".toList]

/-- The clients of a share: those of the VPC, the words of a text, or the items of a list. -/
def Host.listed (H : Host) : Option Json → List Line
  | none => [H.vpc.toList]
  | some (.str t) => if t = "vpc" then [H.vpc.toList] else split t.toList
  | some (.arr items) => items.filterMap fun item => (textOf item).map String.toList
  | some _ => []

/-- A character of a host specification. -/
def isHostChar (c : Char) : Bool := isPlain c && c != '('

def IsHost (w : Line) : Prop := w ≠ [] ∧ ∀ c ∈ w, isHostChar c = true

instance (w : Line) : Decidable (IsHost w) :=
  inferInstanceAs (Decidable (w ≠ [] ∧ ∀ c ∈ w, isHostChar c = true))

/-- The word `vpc`, host specifications in a text, or a list of them. -/
def Clients : Option Json → Prop
  | none => True
  | some (.str t) => ∀ c ∈ t.toList, isHostChar c = true ∨ isBlank c = true
  | some (.arr items) => ∀ item ∈ items, ∃ t, item = .str t ∧ IsHost t.toList
  | some _ => False

/-- A share with a name and clients that can be printed. -/
structure Valid (share : Share) : Prop where
  name : IsWord share.name.toList
  clients : Clients share.clients

/-- The line of a share gives each client of the list, and no other, the options. -/
structure Promised (H : Host) (share : Share) (e : Export) : Prop where
  path : e.path = "/exports/".toList ++ share.name.toList
  options (host : Line) :
    e.optionsOf host = if host ∈ H.listed share.clients then some promisedOptions else none

/-- The text has one line for each share, as promised. -/
def Keeps (H : Host) (shares : List Share) : Prop :=
  ∃ text, H.reloadExports shares = some text ∧ List.Forall₂ (Promised H) shares (exports text.toList)

/-- One client, and nothing after it. -/
def OneClient : Option Json → Prop
  | none => True
  | some (.str t) => t = "vpc" ∨ (split t.toList).length = 1 ∧ Exports.Solid t.toList
  | some (.arr items) => items.length = 1
  | some _ => False

/-! ### The printed line -/

def optionsText : Line := "(rw,sync,no_subtree_check,no_root_squash)".toList

theorem optionsText_ne_nil : optionsText ≠ [] := by decide

theorem optionsText_chars : ∀ c ∈ optionsText,
    isBlank c = false ∧ c ≠ '\n' ∧ c ≠ '#' := by decide

theorem client_optionsText {w : Line} (h : '(' ∉ w) : client (w ++ optionsText) = ⟨w, promisedOptions⟩ := by
  have hall : ∀ c ∈ w, (c != '(') = true := fun c hc => bne_iff_ne.mpr fun heq => h (heq ▸ hc)
  have hstop : optionsText.takeWhile (· != '(') = [] := by decide
  have hstart : optionsText.dropWhile (· != '(') = optionsText := by decide
  have hoptions : ∃ c inner, optionsText = c :: inner ∧
      (inner.takeWhile (· != ')')).splitOn ',' = promisedOptions := ⟨_, _, rfl, by decide⟩
  obtain ⟨c, inner, htext, hinner⟩ := hoptions
  rw [client, List.takeWhile_append_of_pos hall, List.dropWhile_append_of_pos hall, hstop, hstart,
    List.append_nil, htext]
  exact congrArg _ hinner

theorem client_host {w : Line} (h : '(' ∉ w) : client w = ⟨w, []⟩ := by
  have hall : ∀ c ∈ w, (c != '(') = true := fun c hc => bne_iff_ne.mpr fun heq => h (heq ▸ hc)
  rw [client, List.takeWhile_eq_self_iff.mpr hall, List.dropWhile_eq_nil_iff.mpr hall]

theorem isHostChar_ne {c d : Char} (hc : isHostChar c = true) (hd : isHostChar d = false) : c ≠ d := by
  rintro rfl
  cases hc.symm.trans hd

theorem IsHost.not_mem {w : Line} (h : IsHost w) : '(' ∉ w := fun hmem =>
  isHostChar_ne (h.2 _ hmem) (by decide) rfl

variable {H : Host} {share : Share} {shares : List Share}

theorem IsHost.plain {w : Line} (h : IsHost w) : Haproxy.Plain w :=
  fun c hc => (Bool.and_eq_true_iff.mp (h.2 c hc)).1

/-! ### A list of hosts -/

section

variable {ws : List Line}

theorem split_spaced (h : ∀ w ∈ ws, IsHost w) : split (Haproxy.spaced ws) = ws := by
  have hnot : '#' ∉ Haproxy.spaced ws :=
    Haproxy.not_mem_spaced (by decide) fun w hw => (h w hw).plain.not_mem (by decide)
  have hsame : words (Haproxy.spaced ws) = split (Haproxy.spaced ws) := by
    have hall : ∀ c ∈ Haproxy.spaced ws, (c != '#') = true :=
      fun c hc => bne_iff_ne.mpr fun heq => hnot (heq ▸ hc)
    rw [words, List.takeWhile_eq_self_iff.mpr hall]
  rw [← hsame, Haproxy.words_spaced fun w hw => (h w hw).plain]
  exact Haproxy.filter_words fun w hw => ⟨(h w hw).1, (h w hw).plain⟩

theorem solid_spaced (h : ∀ w ∈ ws, IsHost w) (hne : ws ≠ []) : Exports.Solid (Haproxy.spaced ws) := by
  induction ws with
  | nil => exact absurd rfl hne
  | cons w ws ih =>
    have hw := h w List.mem_cons_self
    cases ws with
    | nil =>
      have hone : Haproxy.spaced [w] = w := by simp [Haproxy.spaced, List.intercalate]
      rw [hone]
      exact Exports.solid_of_not_blank hw.1 hw.plain.not_blank
    | cons v ws =>
      have hrest := ih (fun u hu => h u (List.mem_cons_of_mem w hu)) (List.cons_ne_nil v ws)
      have hne' : Haproxy.spaced (v :: ws) ≠ [] := fun hnil => Exports.not_solid_nil (hnil ▸ hrest)
      rw [Haproxy.spaced_cons_cons, List.append_cons, Exports.solid_append hne']
      exact hrest

theorem mem_spaced {c : Char} (h : c ∈ Haproxy.spaced ws) : c = ' ' ∨ ∃ w ∈ ws, c ∈ w := by
  by_contra hnot
  rw [not_or, not_exists] at hnot
  exact Haproxy.not_mem_spaced hnot.1 (fun w hw hc => hnot.2 w ⟨hw, hc⟩) h

end

/-- A list of hosts is one of texts. -/
theorem exists_texts {items : List Json} (h : ∀ item ∈ items, ∃ t, item = .str t ∧ IsHost t.toList) :
    ∃ ts : List String, items = ts.map Json.str ∧ items.mapM textOf = some ts ∧
      ∀ t ∈ ts, IsHost t.toList := by
  induction items with
  | nil => exact ⟨[], rfl, rfl, List.forall_mem_nil _⟩
  | cons item items ih =>
    obtain ⟨⟨t, rfl, ht⟩, hitems⟩ := List.forall_mem_cons.mp h
    obtain ⟨ts, rfl, hmap, hts⟩ := ih hitems
    refine ⟨t :: ts, rfl, ?_, List.forall_mem_cons.mpr ⟨ht, hts⟩⟩
    rw [List.mapM_cons, hmap]
    rfl

/-! ### One share -/

/-- What is printed between the path and the options. -/
theorem exists_spec (hvpc : IsHost H.vpc.toList) (hclients : Clients share.clients) :
    ∃ spec, H.spec share.clients = some spec ∧
      (∀ c ∈ spec.toList, isHostChar c = true ∨ isBlank c = true) ∧
      split spec.toList = H.listed share.clients ∧
      (OneClient share.clients ↔ (split spec.toList).length = 1 ∧ Exports.Solid spec.toList) := by
  have hword {w : Line} (hw : IsHost w) : (∀ c ∈ w, isHostChar c = true ∨ isBlank c = true) ∧
      split w = [w] ∧ Exports.Solid w :=
    ⟨fun c hc => .inl (hw.2 c hc), Exports.split_of_not_blank hw.1 hw.plain.not_blank,
      Exports.solid_of_not_blank hw.1 hw.plain.not_blank⟩
  obtain ⟨hchars, hsplit, hsolid⟩ := hword hvpc
  match hclient : share.clients with
  | none =>
    refine ⟨H.vpc, rfl, hchars, hsplit, fun _ => ⟨?_, hsolid⟩, fun _ => trivial⟩
    rw [hsplit, List.length_singleton]
  | some (.str t) =>
    rw [hclient] at hclients
    by_cases ht : t = "vpc"
    · refine ⟨H.vpc, by rw [Host.spec, if_pos ht], hchars, by rw [hsplit, Host.listed, if_pos ht], ?_⟩
      refine ⟨fun _ => ⟨?_, hsolid⟩, fun _ => .inl ht⟩
      rw [hsplit, List.length_singleton]
    · refine ⟨t, by rw [Host.spec, if_neg ht], hclients, by rw [Host.listed, if_neg ht], ?_⟩
      exact ⟨fun h => h.resolve_left ht, .inr⟩
  | some (.arr items) =>
    rw [hclient] at hclients
    obtain ⟨ts, rfl, hmap, hts⟩ := exists_texts hclients
    have hhosts : ∀ w ∈ ts.map String.toList, IsHost w := List.forall_mem_map.mpr hts
    have hspec : (String.intercalate " " ts).toList = Haproxy.spaced (ts.map String.toList) :=
      String.toList_intercalate
    have hlisted : H.listed (some (.arr (ts.map Json.str))) = ts.map String.toList := by
      rw [Host.listed, List.filterMap_map]
      exact congrFun List.filterMap_eq_map ts
    refine ⟨String.intercalate " " ts, by rw [Host.spec, hmap, Option.map_some], fun c hc => ?_, ?_, ?_⟩
    · rw [hspec] at hc
      rcases mem_spaced hc with rfl | ⟨w, hw, hcw⟩
      · exact .inr rfl
      · exact .inl ((hhosts w hw).2 c hcw)
    · rw [hspec, split_spaced hhosts, hlisted]
    · rw [hspec, split_spaced hhosts, OneClient, List.length_map, List.length_map]
      refine ⟨fun hone => ⟨hone, solid_spaced hhosts ?_⟩, And.left⟩
      rintro hnil
      rw [List.map_eq_nil_iff.mp hnil] at hone
      cases hone
  | some .null | some (.bool _) | some (.int _) | some (.float _) | some (.obj _) =>
    rw [hclient] at hclients
    exact hclients.elim

/-- The printed line, and its words. -/
theorem exists_line (hvpc : IsHost H.vpc.toList) (h : Valid share) : ∃ spec line,
    H.exportLine share = some line ∧ '\n' ∉ line.toList ∧
    words line.toList = ("/exports/".toList ++ share.name.toList) :: split (spec ++ optionsText) ∧
    (∀ c ∈ spec, isHostChar c = true ∨ isBlank c = true) ∧ split spec = H.listed share.clients ∧
    (OneClient share.clients ↔ (split spec).length = 1 ∧ Exports.Solid spec) := by
  obtain ⟨spec, hspec, hchars, hsplit, hone⟩ := exists_spec hvpc h.clients
  have hline : ("/exports/" ++ share.name ++ " " ++ spec ++ "(rw,sync,no_subtree_check,no_root_squash)").toList =
      ("/exports/".toList ++ share.name.toList) ++ ' ' :: (spec.toList ++ optionsText) := by
    rw [String.toList_append, String.toList_append, String.toList_append, String.toList_append,
      List.append_assoc, List.append_assoc]
    rfl
  have hpath : IsWord ("/exports/".toList ++ share.name.toList) :=
    ⟨List.append_ne_nil_of_right_ne_nil _ h.name.1, Haproxy.Plain.append (by decide) h.name.2⟩
  have hrest : ∀ c ∈ spec.toList ++ optionsText, c ≠ '\n' ∧ c ≠ '#' := by
    intro c hc
    rcases List.mem_append.mp hc with hc | hc
    · rcases hchars c hc with hhost | hblank
      · exact ⟨isHostChar_ne hhost (by decide), isHostChar_ne hhost (by decide)⟩
      · refine ⟨?_, ?_⟩ <;> rintro rfl <;> exact absurd hblank (by decide)
    · exact (optionsText_chars c hc).2
  refine ⟨spec.toList, _, by rw [Host.exportLine, hspec, Option.map_some], ?_, ?_, hchars, hsplit, hone⟩
  · rw [hline, List.mem_append, List.mem_cons, not_or, not_or]
    exact ⟨hpath.2.not_mem (by decide), by decide, fun hc => (hrest _ hc).1 rfl⟩
  · have hall : ∀ c ∈ spec.toList ++ optionsText, (c != '#') = true :=
      fun c hc => bne_iff_ne.mpr (hrest c hc).2
    rw [hline, Haproxy.words_append (hpath.2.not_mem (by decide)) rfl, Haproxy.words_word hpath, words,
      List.takeWhile_eq_self_iff.mpr hall, List.singleton_append]

/-- **A share gets what it was promised if it has one client**, and only then. -/
theorem promised_exportOf_iff {spec path : Line} (hpath : path = "/exports/".toList ++ share.name.toList)
    (hchars : ∀ c ∈ spec, isHostChar c = true ∨ isBlank c = true)
    (hsplit : split spec = H.listed share.clients) :
    Promised H share ⟨path, (split (spec ++ optionsText)).map client⟩ ↔
      (split spec).length = 1 ∧ Exports.Solid spec := by
  have hhost {w : Line} (hw : w ∈ split spec) : w ≠ [] ∧ client w = ⟨w, []⟩ := by
    obtain ⟨hne, hsub⟩ := Exports.mem_split hw
    refine ⟨hne, client_host fun hmem => ?_⟩
    rcases hchars _ (hsub _ hmem).1 with hc | hc <;> exact absurd hc (by decide)
  have hblank : ∀ c ∈ optionsText, isBlank c = false := fun c hc => (optionsText_chars c hc).1
  by_cases hsolid : Exports.Solid spec
  · -- the last of the clients has the options, those before it have none
    obtain ⟨ws, w, -, hws, happend⟩ := Exports.split_append_of_solid hblank hsolid
    have hlast : client (w ++ optionsText) = ⟨w, promisedOptions⟩ := by
      refine client_optionsText fun hmem => ?_
      obtain ⟨-, hsub⟩ := Exports.mem_split (hws ▸ List.mem_append_right ws (List.mem_singleton_self w))
      rcases hchars _ (hsub _ hmem).1 with hc | hc <;> exact absurd hc (by decide)
    rw [happend]
    cases ws with
    | nil =>
      refine ⟨fun _ => ⟨by rw [hws]; rfl, hsolid⟩, fun _ => ⟨hpath, fun host => ?_⟩⟩
      rw [← hsplit, hws, List.nil_append, List.map_singleton, hlast, List.nil_append,
        Exports.optionsOf_cons, Exports.optionsOf_nil]
      exact if_congr (eq_comm.trans List.mem_singleton.symm) rfl rfl
    | cons u ws =>
      have hu : u ∈ split spec := hws ▸ List.mem_append_left [w] List.mem_cons_self
      refine ⟨fun h => ?_, fun h => ?_⟩
      · have hoptions := h.options u
        rw [if_pos (hsplit ▸ hu), List.cons_append, List.map_cons, (hhost hu).2, Exports.optionsOf_cons,
          if_pos rfl] at hoptions
        cases hoptions
      · rw [hws, List.cons_append, List.length_cons, List.length_append, List.length_singleton] at h
        omega
  · -- the options stand alone: they are everyone's
    refine ⟨fun h => absurd (h.options []) ?_, fun h => absurd h.2 hsolid⟩
    have hfirst : (split spec).map client = (split spec).map fun w => ⟨w, []⟩ :=
      List.map_congr_left fun w hw => (hhost hw).2
    have hnone : ((split spec).map fun w => (⟨w, []⟩ : Exports.Client)).find? (·.host == []) = none := by
      rw [List.find?_eq_none]
      intro c hc
      obtain ⟨w, hw, rfl⟩ := List.mem_map.mp hc
      exact fun heq => (hhost hw).1 (beq_iff_eq.mp heq)
    have heveryone : client optionsText = ⟨[], promisedOptions⟩ := client_optionsText List.not_mem_nil
    rw [Exports.split_append_of_not_solid optionsText_ne_nil hblank hsolid, List.map_append, hfirst,
      Export.optionsOf, List.find?_append, hnone, List.map_singleton, heveryone,
      if_neg fun hmem => (hhost (hsplit ▸ hmem)).1 rfl]
    exact Option.some_ne_none _

/-! ### The whole text -/

theorem forall₂_iff_forall {α β : Type} {xs : List α} {ys : List β} {P : α → β → Prop} {Q : α → Prop}
    (h : List.Forall₂ (fun x y => P x y ↔ Q x) xs ys) : List.Forall₂ P xs ys ↔ ∀ x ∈ xs, Q x := by
  induction h with
  | nil => exact iff_of_true .nil (List.forall_mem_nil _)
  | cons hxy _ ih => rw [List.forall₂_cons, List.forall_mem_cons, hxy, ih]

/-- The lines, what is read of them, and which keep their promise. -/
theorem exists_lines (hvpc : IsHost H.vpc.toList) (h : ∀ share ∈ shares, Valid share) :
    ∃ lines es, H.exportLines shares = some lines ∧ (∀ l ∈ lines.map String.toList, '\n' ∉ l) ∧
      List.Forall₂ (fun l e => exportOf (words l) = some e) (lines.map String.toList) es ∧
      List.Forall₂ (fun share e => Promised H share e ↔ OneClient share.clients) shares es := by
  induction shares with
  | nil => exact ⟨[], [], rfl, List.forall_mem_nil _, .nil, .nil⟩
  | cons share shares ih =>
    obtain ⟨hshare, hshares⟩ := List.forall_mem_cons.mp h
    obtain ⟨lines, es, hlines, hnewline, hread, hkeep⟩ := ih hshares
    obtain ⟨spec, line, hline, hone, hwords, hchars, hsplit, hclients⟩ := exists_line hvpc hshare
    refine ⟨line :: lines, _ :: es, ?_, List.forall_mem_cons.mpr ⟨hone, hnewline⟩,
      .cons (congrArg exportOf hwords) hread, .cons ?_ hkeep⟩
    · rw [Host.exportLines] at hlines ⊢
      rw [List.mapM_cons, hline, hlines]
      rfl
    · rw [promised_exportOf_iff rfl hchars hsplit, hclients]

/-- **The text keeps its promise exactly where each share has one client.** -/
theorem keeps_iff (H : Host) (shares : List Share) (hvpc : IsHost H.vpc.toList)
    (h : ∀ share ∈ shares, Valid share) : Keeps H shares ↔ ∀ share ∈ shares, OneClient share.clients := by
  obtain ⟨lines, es, hlines, hnewline, hread, hkeep⟩ := exists_lines hvpc h
  have htext : (String.intercalate "\n" lines ++ "\n" ++ "\n").toList =
      joinLines (lines.map String.toList) ++ ['\n'] ++ ['\n'] := by
    rw [String.toList_append, String.toList_append, String.toList_intercalate]
    rfl
  rw [Keeps, Host.reloadExports, hlines, Option.map_some, ← forall₂_iff_forall hkeep,
    ← Exports.exports_joinLines hnewline hread, ← Exports.exports_append_newline,
    ← Exports.exports_append_newline, ← htext]
  exact ⟨fun ⟨text, heq, hall⟩ => Option.some.inj heq ▸ hall, fun hall => ⟨_, rfl, hall⟩⟩

/-- A server with the bridge's addresses. -/
def bridgeHost : Host := ⟨"192.168.100.0/24", fun _ => ""⟩

theorem keeps_oneHost : Keeps bridgeHost
    [⟨"data", some (.str "vpc")⟩, ⟨"backups", some (.arr [.str "10.0.0.5"])⟩] := by
  refine (keeps_iff bridgeHost _ (by decide) ?_).mpr ?_
  · intro share hshare
    rw [List.mem_cons, List.mem_singleton] at hshare
    rcases hshare with rfl | rfl
    · have hword : ∀ c ∈ "vpc".toList, isHostChar c = true ∨ isBlank c = true := by decide
      exact ⟨by decide, hword⟩
    · exact ⟨by decide, List.forall_mem_singleton.mpr ⟨_, rfl, by decide⟩⟩
  · intro share hshare
    rw [List.mem_cons, List.mem_singleton] at hshare
    rcases hshare with rfl | rfl
    · exact .inl rfl
    · rfl

/-- Two hosts: the first has the default options.  No host: everyone has those that are printed. -/
theorem not_keeps_hosts :
    ¬Keeps bridgeHost [⟨"data", some (.arr [.str "10.0.0.5", .str "10.0.0.6"])⟩] ∧
    ¬Keeps bridgeHost [⟨"data", some (.arr [])⟩] := by
  have hread {share : Share} (text : String) (e : Export) (host : Line)
      (hexports : exports text.toList = [e]) (hreload : bridgeHost.reloadExports [share] = some text)
      (hoptions : e.optionsOf host ≠
        if host ∈ bridgeHost.listed share.clients then some promisedOptions else none) :
      ¬Keeps bridgeHost [share] := by
    rintro ⟨text', htext, hall⟩
    obtain rfl := Option.some.inj (hreload.symm.trans htext)
    rw [hexports, List.forall₂_cons] at hall
    exact hoptions (hall.1.options host)
  constructor
  · exact hread "/exports/data 10.0.0.5 10.0.0.6(rw,sync,no_subtree_check,no_root_squash)\n\n"
      ⟨"/exports/data".toList, [⟨"10.0.0.5".toList, []⟩, ⟨"10.0.0.6".toList, promisedOptions⟩]⟩
      "10.0.0.5".toList (by decide) (by decide) (by decide)
  · exact hread "/exports/data (rw,sync,no_subtree_check,no_root_squash)\n\n"
      ⟨"/exports/data".toList, [⟨[], promisedOptions⟩]⟩ [] (by decide) (by decide)
      (by decide)

end Nfs
end CloudCore
