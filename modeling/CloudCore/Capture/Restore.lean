import CloudCore.Python.OrderedDict
import CloudCore.Relational.Replace
import Mathlib.Data.Int.Notation

/-!
# Merging a backup's capture record

`cmd_capture` of `restore-from-backup.py` and the four tables of `db.py` that it merges.  A
row is the list of its values under the names of their columns.

## Main definitions

* `Table`, `Database` — tables with their columns and keys.
* `captureSchema`, `HasSchema` — the four tables and what their rows satisfy.
* `cmdCapture` — the command, on a backup that has been verified or not.
* `Merged` — what is promised.
* `Compatible` — the backup has nothing else under a key of this host.

## Main results

* `merged_iff` — **the merge is pure iff the backup is compatible.**
* `revocation_restored` — a token that was revoked here is valid again.
-/

namespace CloudCore
namespace Restore

open OrderedDict Relational

/-! ### Tables -/

/-- What SQLite stores. -/
inductive Value where
  | null
  | int (n : ℤ)
  | real (bits : UInt64)
  | text (s : String)
  | blob (b : List UInt8)
  deriving DecidableEq

abbrev Row := List (String × Value)

def Row.get (r : Row) (column : String) : Value := (r.lookup column).getD .null

structure Column where
  name : String
  notNull : Bool
  default : Value
  deriving DecidableEq

/-- The columns of a table and its uniqueness constraints. -/
structure TableSchema where
  columns : List Column
  unique : List (List String)
  deriving DecidableEq

structure Table extends TableSchema where
  rows : List Row
  deriving DecidableEq

/-- The tables of `sqlite_master`, by name. -/
abbrev Database := List (String × Table)

/-- Two rows violate a uniqueness constraint; a `NULL` never does. -/
def Clash (unique : List (List String)) (r r' : Row) : Prop :=
  ∃ key ∈ unique, ∀ column ∈ key, r.get column ≠ .null ∧ r.get column = r'.get column

instance (unique : List (List String)) : DecidableRel (Clash unique) := fun r r' =>
  inferInstanceAs (Decidable (∃ key ∈ unique, ∀ column ∈ key,
    r.get column ≠ .null ∧ r.get column = r'.get column))

/-- Two rows have one id. -/
def SameId (r r' : Row) : Prop := r.get "id" ≠ .null ∧ r.get "id" = r'.get "id"

instance : DecidableRel SameId := fun r r' =>
  inferInstanceAs (Decidable (r.get "id" ≠ .null ∧ r.get "id" = r'.get "id"))

theorem Clash.symm {unique : List (List String)} {r r' : Row} (h : Clash unique r r') :
    Clash unique r' r := by
  obtain ⟨key, hkey, h⟩ := h
  exact ⟨key, hkey, fun column hc => ⟨(h column hc).2 ▸ (h column hc).1, (h column hc).2.symm⟩⟩

theorem Clash.of_sameId {unique : List (List String)} (hid : ["id"] ∈ unique) {r r' : Row}
    (h : SameId r r') : Clash unique r r' :=
  ⟨["id"], hid, fun _ hc => List.mem_singleton.mp hc ▸ h⟩

/-! ### The schema -/

/-- `TEXT PRIMARY KEY`, or a column without `NOT NULL`. -/
def nullable (name : String) : Column := ⟨name, false, .null⟩

/-- `NOT NULL`. -/
def required (name : String) : Column := ⟨name, true, .null⟩

/-- `NOT NULL DEFAULT ...`. -/
def defaulted (name : String) (default : Value) : Column := ⟨name, true, default⟩

def llmVerificationExamples : TableSchema where
  columns := [nullable "id", defaulted "source" (.text "llm-chat-coordinator"),
    defaulted "build_id" (.text ""), required "model_filename", required "prompt",
    required "generated_code", defaulted "exec_stdout" (.text ""), defaulted "exec_stderr" (.text ""),
    nullable "exec_exit_code", defaulted "passed" (.int 0), defaulted "fix_explanation" (.text ""),
    defaulted "fixed_code" (.text ""), defaulted "fix_exec_stdout" (.text ""),
    defaulted "fix_exec_stderr" (.text ""), nullable "fix_passed", defaulted "status" (.text "pending"),
    required "created_at", defaulted "language" (.text "python"),
    defaulted "client_token_id" (.text "")]
  unique := [["id"]]

def llmDeployments : TableSchema where
  columns := [nullable "id", required "name", required "example", required "port",
    required "stats_path", required "registered_at"]
  unique := [["id"], ["name"]]

def llmClientTokens : TableSchema where
  columns := [nullable "id", required "label", required "token_sha256", required "created_at",
    nullable "revoked_at", nullable "last_used_at"]
  unique := [["id"], ["token_sha256"]]

def llmClientSubmissions : TableSchema where
  columns := [nullable "id", required "token_id", required "model_filename", required "prompt",
    required "code", required "language", defaulted "client_note" (.text ""),
    defaulted "status" (.text "pending"), defaulted "attempts" (.int 0),
    defaulted "last_error" (.text ""), defaulted "example_id" (.text ""), required "created_at",
    required "updated_at"]
  unique := [["id"]]

/-- `CAPTURE_TABLES`, with what `db.py` says of them. -/
def captureSchema : List (String × TableSchema) :=
  [("llm_verification_examples", llmVerificationExamples), ("llm_deployments", llmDeployments),
    ("llm_client_tokens", llmClientTokens), ("llm_client_submissions", llmClientSubmissions)]

/-- A table that satisfies its schema. -/
structure Conforms (schema : TableSchema) (t : Table) : Prop where
  schema_eq : t.toTableSchema = schema
  names : ∀ r ∈ t.rows, r.map Prod.fst = schema.columns.map (·.name)
  notNull : ∀ r ∈ t.rows, ∀ c ∈ schema.columns, c.notNull = true → r.get c.name ≠ .null
  unique : t.rows.Pairwise fun r r' => ¬Clash schema.unique r' r

/-- The four tables are there, as the schema has them. -/
def HasSchema (db : Database) : Prop :=
  ∀ e ∈ captureSchema, ∃ t, db.lookup e.1 = some t ∧ Conforms e.2 t

/-! ### The command -/

/-- What a column stores; `none` if `NOT NULL` fails and there is no default to put there. -/
def Column.store (c : Column) (v : Value) : Option Value :=
  if c.notNull = true ∧ v = .null then (if c.default = .null then none else some c.default)
  else some v

/-- The row that `INSERT INTO main.t (cols) SELECT cols` makes of one of the backup's. -/
def TableSchema.insertRow (t : TableSchema) (cols : List String) (r : Row) : Option Row :=
  t.columns.mapM fun c =>
    (c.store (if c.name ∈ cols then r.get c.name else c.default)).map fun v => (c.name, v)

/-- The columns both sides have. -/
def sharedColumns (here src : TableSchema) : List String :=
  (src.columns.map (·.name)).filter fun c => c ∈ here.columns.map (·.name)

/-- `INSERT OR REPLACE INTO main.t ... SELECT ... FROM bk.t`. -/
def mergeTable (here src : Table) : Option Table := do
  let new ← src.rows.mapM (here.insertRow (sharedColumns here.toTableSchema src.toTableSchema))
  pure { here with rows := replaceAll (Clash here.unique) here.rows new }

/-- One round of the loop of `cmd_capture`. -/
def captureTable (dryRun : Bool) (bk db : Database) (table : String) : Option Database :=
  match bk.lookup table, db.lookup table with
  | some src, some here =>
    if dryRun then some db else (mergeTable here src).map fun t => modify db table fun _ => t
  | _, _ => some db

/-- `cmd_capture`, with the exit code; `none` if a statement raises, and nothing is written. -/
def cmdCapture (verified dryRun : Bool) (dst bk : Database) : Option (ℕ × Database) :=
  if !verified then some (1, dst)
  else ((captureSchema.map Prod.fst).foldlM (captureTable dryRun bk) dst).map fun db => (0, db)

/-! ### The promise -/

/-- The rows that were here, and those of the backup whose id was not. -/
def PureMerge (here src after : Table) : Prop :=
  after.rows.Perm (here.rows ++ src.rows.filter fun r => ∀ d ∈ here.rows, ¬SameId r d)

/-- The capture record after the command. -/
def Merged (dryRun : Bool) (dst bk after : Database) : Prop :=
  if dryRun then after = dst
  else ∀ e ∈ captureSchema, ∀ here src, dst.lookup e.1 = some here → bk.lookup e.1 = some src →
    ∃ t, after.lookup e.1 = some t ∧ PureMerge here src t

/-- What the backup has under a key of this host is the same row, under the same id. -/
def Compatible (dst bk : Database) : Prop :=
  ∀ e ∈ captureSchema, ∀ here src, dst.lookup e.1 = some here → bk.lookup e.1 = some src →
    ∀ r ∈ src.rows, ∀ d ∈ here.rows, Clash e.2.unique r d → r = d ∧ SameId r d

/-! ### Rows that are inserted -/

theorem mapM_eq_some {α β : Type} {l : List α} {f : α → Option β} {g : α → β}
    (h : ∀ a ∈ l, f a = some (g a)) : l.mapM f = some (l.map g) := by
  induction l with
  | nil => rfl
  | cons a l ih =>
    rw [List.mapM_cons, h a List.mem_cons_self, ih fun b hb => h b (List.mem_cons_of_mem _ hb)]
    rfl

/-- A row is what is read of it column by column. -/
theorem map_get_eq {r : Row} (hr : (r.map Prod.fst).Nodup) {columns : List Column}
    (hnames : r.map Prod.fst = columns.map (·.name)) :
    columns.map (fun c => (c.name, r.get c.name)) = r := by
  calc
    columns.map (fun c => (c.name, r.get c.name)) =
        (columns.map (·.name)).map (fun n => (n, r.get n)) := by rw [List.map_map]; rfl
    _ = r.map (fun e => (e.1, r.get e.1)) := by rw [← hnames, List.map_map]; rfl
    _ = r.map id := List.map_congr_left fun e he => by
      rw [Row.get, lookup_of_mem hr he]
      rfl
    _ = r := List.map_id r

/-- A row of a table is inserted as it is. -/
theorem insertRow_eq {schema : TableSchema} (hnodup : (schema.columns.map (·.name)).Nodup) {r : Row}
    (hnames : r.map Prod.fst = schema.columns.map (·.name))
    (hnull : ∀ c ∈ schema.columns, c.notNull = true → r.get c.name ≠ .null) :
    schema.insertRow (sharedColumns schema schema) r = some r := by
  have hcolumn : ∀ c ∈ schema.columns, ((c.store (if c.name ∈ sharedColumns schema schema then
      r.get c.name else c.default)).map fun v => (c.name, v)) = some (c.name, r.get c.name) := by
    intro c hc
    have hname : c.name ∈ schema.columns.map (·.name) := List.mem_map_of_mem hc
    have hshared : c.name ∈ sharedColumns schema schema :=
      List.mem_filter.mpr ⟨hname, decide_eq_true hname⟩
    rw [if_pos hshared, Column.store, if_neg fun h => hnull c hc h.1 h.2]
    rfl
  rw [TableSchema.insertRow, mapM_eq_some hcolumn, map_get_eq (hnames ▸ hnodup) hnames]

/-- Two tables of one schema are merged. -/
theorem mergeTable_eq {schema : TableSchema} (hnodup : (schema.columns.map (·.name)).Nodup)
    {here src : Table} (hhere : Conforms schema here) (hsrc : Conforms schema src) :
    mergeTable here src =
      some { here with rows := replaceAll (Clash schema.unique) here.rows src.rows } := by
  have hrows : src.rows.mapM (here.insertRow (sharedColumns here.toTableSchema src.toTableSchema)) =
      some src.rows := by
    rw [hhere.schema_eq, hsrc.schema_eq,
      mapM_eq_some fun r hr => insertRow_eq hnodup (hsrc.names r hr) (hsrc.notNull r hr)]
    exact congrArg some (List.map_id _)
  have hunique : here.unique = schema.unique := congrArg TableSchema.unique hhere.schema_eq
  rw [mergeTable, hrows, hunique]
  rfl

/-! ### The loop -/

/-- What a table holds after it was merged. -/
def mergedTable (unique : List (List String)) (here src : Table) : Table :=
  { here with rows := replaceAll (Clash unique) here.rows src.rows }

/-- One round merges its table and leaves the others. -/
theorem captureTable_eq {e : String × TableSchema} (hnodup : (e.2.columns.map (·.name)).Nodup)
    {bk db : Database} {here src : Table} (hhere : db.lookup e.1 = some here)
    (hsrc : bk.lookup e.1 = some src) (hchere : Conforms e.2 here) (hcsrc : Conforms e.2 src) :
    captureTable false bk db e.1 =
      some (modify db e.1 fun _ => mergedTable e.2.unique here src) := by
  rw [captureTable, hsrc, hhere]
  change (mergeTable here src).map _ = _
  rw [mergeTable_eq hnodup hchere hcsrc]
  rfl

/-- The loop merges every table once. -/
theorem foldlM_captureTable {l : List (String × TableSchema)} (hl : (l.map Prod.fst).Nodup)
    (hcolumns : ∀ e ∈ l, (e.2.columns.map (·.name)).Nodup) {bk db : Database}
    (hdb : ∀ e ∈ l, ∃ t, db.lookup e.1 = some t ∧ Conforms e.2 t)
    (hbk : ∀ e ∈ l, ∃ t, bk.lookup e.1 = some t ∧ Conforms e.2 t) :
    ∃ after, (l.map Prod.fst).foldlM (captureTable false bk) db = some after ∧
      (∀ e ∈ l, ∀ here src, db.lookup e.1 = some here → bk.lookup e.1 = some src →
        after.lookup e.1 = some (mergedTable e.2.unique here src)) ∧
      ∀ t, t ∉ l.map Prod.fst → after.lookup t = db.lookup t := by
  induction l generalizing db with
  | nil => exact ⟨db, rfl, nofun, fun _ _ => rfl⟩
  | cons e l ih =>
    rw [List.map_cons, List.nodup_cons] at hl
    obtain ⟨here, hhere, hchere⟩ := hdb e List.mem_cons_self
    obtain ⟨src, hsrc, hcsrc⟩ := hbk e List.mem_cons_self
    have hstep := captureTable_eq (hcolumns e List.mem_cons_self) hhere hsrc hchere hcsrc
    have hother : ∀ t, t ≠ e.1 →
        (modify db e.1 fun _ => mergedTable e.2.unique here src).lookup t = db.lookup t :=
      fun t ht => lookup_modify_of_ne _ _ ht
    have hne : ∀ e' ∈ l, e'.1 ≠ e.1 := fun e' he' heq => hl.1 (heq ▸ List.mem_map_of_mem he')
    have hdb' : ∀ e' ∈ l, ∃ t, (modify db e.1 fun _ => mergedTable e.2.unique here src).lookup e'.1 =
        some t ∧ Conforms e'.2 t := by
      intro e' he'
      rw [hother _ (hne e' he')]
      exact hdb e' (List.mem_cons_of_mem _ he')
    obtain ⟨after, hrun, hmerged, hrest⟩ := ih hl.2
      (fun e' he' => hcolumns e' (List.mem_cons_of_mem _ he')) hdb'
      (fun e' he' => hbk e' (List.mem_cons_of_mem _ he'))
    refine ⟨after, ?_, fun e' he' here' src' hhere' hsrc' => ?_, fun t ht => ?_⟩
    · rw [List.map_cons, List.foldlM_cons, hstep]
      exact hrun
    · rcases List.mem_cons.mp he' with rfl | he'
      · rw [hrest _ hl.1, lookup_modify_self, hhere]
        rw [hhere] at hhere'
        rw [hsrc] at hsrc'
        cases hhere'
        cases hsrc'
        rfl
      · refine hmerged e' he' here' src' ?_ hsrc'
        rw [hother _ (hne e' he')]
        exact hhere'
    · rw [List.map_cons, List.mem_cons, not_or] at ht
      rw [hrest t ht.2, hother t ht.1]

/-- A dry run changes nothing. -/
theorem foldlM_dryRun (bk db : Database) (l : List String) :
    l.foldlM (captureTable true bk) db = some db := by
  induction l with
  | nil => rfl
  | cons t l ih =>
    have hstep : captureTable true bk db t = some db := by
      unfold captureTable
      split <;> rfl
    rw [List.foldlM_cons, hstep]
    exact ih

/-- The merge of one table is pure iff what it replaces is replaced by itself. -/
theorem pureMerge_iff {schema : TableSchema} (hid : ["id"] ∈ schema.unique) {here src : Table}
    (hhere : Conforms schema here) (hsrc : Conforms schema src) :
    PureMerge here src (mergedTable schema.unique here src) ↔
      ∀ r ∈ src.rows, ∀ d ∈ here.rows, Clash schema.unique r d → r = d ∧ SameId r d :=
  replaceAll_perm_iff (fun _ _ => Clash.symm) (fun _ _ => Clash.of_sameId hid) hhere.unique
    hsrc.unique

/-- **The merge is pure iff the backup has nothing else under a key of this host.** -/
theorem merged_iff {dst bk : Database} (hdst : HasSchema dst) (hbk : HasSchema bk) (dryRun : Bool) :
    (∃ after, cmdCapture true dryRun dst bk = some (0, after) ∧ Merged dryRun dst bk after) ↔
      (dryRun = false → Compatible dst bk) := by
  have hnames : (captureSchema.map Prod.fst).Nodup := by decide
  have hcolumns : ∀ e ∈ captureSchema, (e.2.columns.map (·.name)).Nodup := by decide
  have hids : ∀ e ∈ captureSchema, ["id"] ∈ e.2.unique := by decide
  cases dryRun with
  | true =>
    refine ⟨fun _ => nofun, fun _ => ⟨dst, ?_, rfl⟩⟩
    rw [cmdCapture, foldlM_dryRun]
    rfl
  | false =>
    obtain ⟨after, hrun, hmerged, -⟩ := foldlM_captureTable hnames hcolumns hdst hbk
    have hcapture : cmdCapture true false dst bk = some (0, after) := by
      rw [cmdCapture, hrun]
      rfl
    have hiff : Merged false dst bk after ↔ Compatible dst bk := by
      refine forall₂_congr fun e he => forall₂_congr fun here src =>
        forall₂_congr fun hhere hsrc => ?_
      have hafter := hmerged e he here src hhere hsrc
      obtain ⟨here', hhere', hchere⟩ := hdst e he
      obtain ⟨src', hsrc', hcsrc⟩ := hbk e he
      rw [hhere] at hhere'
      rw [hsrc] at hsrc'
      cases hhere'
      cases hsrc'
      rw [← pureMerge_iff (hids e he) hchere hcsrc]
      exact ⟨fun ⟨t, ht, hpure⟩ => by rw [hafter] at ht; cases ht; exact hpure,
        fun hpure => ⟨_, hafter, hpure⟩⟩
    constructor
    · rintro ⟨after', hafter', hpure⟩ -
      rw [hcapture] at hafter'
      cases hafter'
      exact hiff.mp hpure
    · exact fun h => ⟨after, hcapture, hiff.mpr (h rfl)⟩

/-! ### Two merges -/

/-- A database with some tokens and nothing else. -/
def tokensOnly (tokens : List Row) : Database :=
  captureSchema.map fun e => (e.1, ⟨e.2, if e.1 = "llm_client_tokens" then tokens else []⟩)

theorem lookup_tokensOnly (tokens : List Row) {e : String × TableSchema} (he : e ∈ captureSchema) :
    (tokensOnly tokens).lookup e.1 =
      some ⟨e.2, if e.1 = "llm_client_tokens" then tokens else []⟩ := by
  refine lookup_of_mem ?_ (List.mem_map.mpr ⟨e, he, rfl⟩)
  rw [tokensOnly, List.map_map]
  exact (by decide : (captureSchema.map Prod.fst).Nodup)

theorem hasSchema_tokensOnly {tokens : List Row}
    (hnames : ∀ r ∈ tokens, r.map Prod.fst = llmClientTokens.columns.map (·.name))
    (hnull : ∀ r ∈ tokens, ∀ c ∈ llmClientTokens.columns, c.notNull = true → r.get c.name ≠ .null)
    (hunique : tokens.Pairwise fun r r' => ¬Clash llmClientTokens.unique r' r) :
    HasSchema (tokensOnly tokens) := by
  intro e he
  refine ⟨_, lookup_tokensOnly tokens he, ?_⟩
  split
  next htokens =>
    have heq : ∀ e ∈ captureSchema, e.1 = "llm_client_tokens" → e.2 = llmClientTokens := by
      decide
    rw [heq e he htokens]
    exact ⟨rfl, hnames, hnull, hunique⟩
  next => exact ⟨rfl, nofun, nofun, .nil⟩

/-- A row of `llm_client_tokens`. -/
def token (id sha256 : String) (revokedAt : Value) : Row :=
  [("id", .text id), ("label", .text "Sam"), ("token_sha256", .text sha256),
    ("created_at", .text "2026-07-01T09:00:00+00:00"), ("revoked_at", revokedAt),
    ("last_used_at", .null)]

def revoked : Value := .text "2026-07-02T09:00:00+00:00"

/-- Either host has a token the other one does not know. -/
theorem merged_iff_new : ∃ after, cmdCapture true false (tokensOnly [token "a" "1" revoked])
    (tokensOnly [token "b" "2" .null]) = some (0, after) ∧
      Merged false (tokensOnly [token "a" "1" revoked]) (tokensOnly [token "b" "2" .null]) after := by
  refine (merged_iff (hasSchema_tokensOnly (by decide) (by decide)
    (by decide)) (hasSchema_tokensOnly (by decide) (by decide)
    (by decide)) false).mpr ?_
  intro _ e he here src hhere hsrc r hr d hd
  rw [lookup_tokensOnly _ he] at hhere hsrc
  cases hhere
  cases hsrc
  have hnone : ∀ e ∈ captureSchema, ∀ r ∈ (if e.1 = "llm_client_tokens" then [token "b" "2" .null]
      else []), ∀ d ∈ (if e.1 = "llm_client_tokens" then [token "a" "1" revoked] else []),
        ¬Clash e.2.unique r d := by
    decide
  exact fun hc => absurd hc (hnone e he r hr d hd)

/-- **A token that was revoked here after the backup was made is valid again.** -/
theorem revocation_restored : ¬∀ dst bk, HasSchema dst → HasSchema bk → ∀ dryRun,
    ∃ after, cmdCapture true dryRun dst bk = some (0, after) ∧ Merged dryRun dst bk after := by
  intro hall
  have hmerged := hall (tokensOnly [token "a" "1" revoked]) (tokensOnly [token "a" "1" .null])
    (hasSchema_tokensOnly (by decide) (by decide) (by decide))
    (hasSchema_tokensOnly (by decide) (by decide) (by decide)) false
  obtain ⟨after, hrun, hmerged⟩ := hmerged
  have he : ("llm_client_tokens", llmClientTokens) ∈ captureSchema := by decide
  obtain ⟨t, ht, hpure⟩ := hmerged _ he _ _ (lookup_tokensOnly _ he) (lookup_tokensOnly _ he)
  have hgone : (cmdCapture true false (tokensOnly [token "a" "1" revoked])
      (tokensOnly [token "a" "1" .null])).map (fun r =>
        (r.2.lookup "llm_client_tokens").map (·.rows)) = some (some [token "a" "1" .null]) := by
    decide
  rw [hrun, Option.map_some, ht, Option.map_some, Option.some.injEq, Option.some.injEq] at hgone
  have hrow : token "a" "1" revoked ∈ t.rows := hpure.mem_iff.mpr (List.mem_append_left _ (by
    rw [if_pos rfl]
    exact List.mem_singleton_self _))
  rw [hgone] at hrow
  exact absurd hrow (by decide)

end Restore
end CloudCore
