import CloudCore.Effect.Pool
import CloudCore.Python.Isoformat
import CloudCore.Python.Json
import Mathlib.Data.List.Nodup
import Mathlib.Data.List.Perm.Subperm

/-!
# The submissions of an hour

`submit` of `llm_client_capture.py` counts the submissions of a token in the last hour, and inserts one
more.  Every statement takes the lock of the database, and one that writes keeps it until the commit;
between the count and the insert nothing is locked.

## Main definitions

* `State`, `exec` — the table, the lock, and what the statements of a thread do.
* `submit`, `processPending` — the programs of the threads.
* `Rely`, `Fine` — what a thread relies on, and what its programs keep.
* `Undisturbed` — nobody inserts a row of the token between the count and the insert.
* `Kept` — the limit is kept, and every accepted submission has its row.

## Main results

* `Inv.insert` — a row more keeps the limit where fewer have been counted.
* `fine_submit` — what a request knows between its statements.
* `limit_of_reaches` — **the limit is kept where no request of a token comes between.**
* `limit_broken` — requests that all count before one of them inserts.
-/

namespace CloudCore
namespace RateLimit

open Effect Python

/-! ### The database -/

/-- An hour, in microseconds. -/
def hourMicros : ℕ := 3600000000

/-- A row of `llm_client_submissions`; its time is stored as a text. -/
structure Row where
  id : ℕ
  tokenId : String
  createdAt : DateTime
  deriving DecidableEq

/-- An answer of `submit`; an accepted submission is answered with 202. -/
inductive Answer where
  | accepted (row : Row)
  | refused (status : ℕ)

/-- The table, the thread that holds the lock, the clock, and the submissions that were answered with
202.  `seen` is how many rows of the token there were when a thread counted, and `drawn` says who
drew an identifier. -/
structure State (ι : Type) where
  rows : List Row
  lock : Option ι
  clock : DateTime
  accepted : List Row
  seen : ι → ℕ
  drawn : ℕ → Option ι

/-- Nothing is stored. -/
def State.init (ι : Type) (clock : DateTime) : State ι :=
  ⟨[], none, clock, [], fun _ => 0, fun _ => none⟩

/-- The statements, the clock, `uuid4`, and the answer. -/
inductive Cmd where
  | now
  | count (tokenId since : String)
  | uuid4
  | insert (row : Row)
  | update
  | commit
  | respond (a : Answer)

def Cmd.Ans : Cmd → Type
  | .now => DateTime
  | .count .. | .uuid4 => ℕ
  | .insert _ | .update | .commit | .respond _ => Unit

abbrev sig : Signature := ⟨Cmd, Cmd.Ans⟩

abbrev Method := Program sig Exc

variable {ι : Type} [DecidableEq ι]

/-- `WHERE token_id=? AND created_at >= ?`. -/
def Row.since (tokenId since : String) (r : Row) : Bool :=
  r.tokenId = tokenId && decide (since ≤ r.createdAt.isoformat)

/-- A thread may execute a statement. -/
def State.Free (s : State ι) (i : ι) : Prop := s.lock = none ∨ s.lock = some i

/-- What the commands of thread `i` do.  The clock does not go back. -/
def exec (i : ι) (s : State ι) : (c : Cmd) → c.Ans → State ι → Prop
  | .now, t, s' => s.clock.micros ≤ DateTime.micros t ∧ s' = { s with clock := t }
  | .count tokenId since, n, s' =>
    s.Free i ∧ n = s.rows.countP (Row.since tokenId since) ∧
      s' = { s with seen := Function.update s.seen i (s.rows.countP (·.tokenId = tokenId)) }
  | .uuid4, id, s' => s.drawn id = none ∧ s' = { s with drawn := Function.update s.drawn id (some i) }
  | .insert row, _, s' => s.Free i ∧ s' = { s with rows := s.rows ++ [row], lock := some i }
  | .update, _, s' => s.Free i ∧ s' = { s with lock := some i }
  | .commit, _, s' => s' = if s.lock = some i then { s with lock := none } else s
  | .respond (.accepted row), _, s' => s' = { s with accepted := s.accepted ++ [row] }
  | .respond (.refused _), _, s' => s' = s

/-! ### The programs -/

def now : Method DateTime := .perform (F := sig) .now
def count (tokenId since : String) : Method ℕ := .perform (F := sig) (.count tokenId since)
def uuid4 : Method ℕ := .perform (F := sig) .uuid4
def insert (row : Row) : Method Unit := .perform (F := sig) (.insert row)
def update : Method Unit := .perform (F := sig) .update
def commit : Method Unit := .perform (F := sig) .commit
def respond (a : Answer) : Method Unit := .perform (F := sig) (.respond a)

/-- A request: the token that it is sent with, if that is known and not revoked, and the status with
which its body is refused, if it is. -/
structure Request where
  token : Option String
  refusal : Option ℕ

/-- A time less `timedelta(hours=1)`. -/
def hourBefore (t : DateTime) : Option DateTime := t.add (-hourMicros)

theorem micros_hourBefore {t hourAgo : DateTime} (h : hourBefore t = some hourAgo) :
    (hourAgo.micros : ℤ) = t.micros - hourMicros := by
  rw [hourBefore] at h
  rw [DateTime.micros_add h]
  rfl

/-- The end of `submit`, behind the check of the limit. -/
def store (tokenId : String) : Method Unit := do
  let id ← uuid4
  let t ← now
  insert ⟨id, tokenId, t⟩
  update
  commit
  respond (.accepted ⟨id, tokenId, t⟩)

/-- The count of `submit`, where `SUBMISSIONS_PER_HOUR` is `limit`. -/
def submitSince (limit : ℕ) (tokenId since : String) : Method Unit := do
  let recent ← count tokenId since
  if limit ≤ recent then respond (.refused 429) else store tokenId

/-- `submit` from where the body is fine, for the time an hour ago if there is one. -/
def submitFrom (limit : ℕ) (tokenId : String) : Option DateTime → Method Unit
  | none => throw .overflowError
  | some hourAgo => submitSince limit tokenId hourAgo.isoformat

def submit (limit : ℕ) (r : Request) : Method Unit :=
  match r.token, r.refusal with
  | none, _ => respond (.refused 401)
  | some _, some status => respond (.refused status)
  | some tokenId, none => do
    let t ← now
    submitFrom limit tokenId (hourBefore t)

/-- What `process_pending` does to the tables: no update of it touches the token or the time of a
submission, and none removes one. -/
def processPending (updates : ℕ) : Method Unit :=
  Program.forEach (List.replicate updates ()) fun _ => do
    update
    commit

/-- The threads run requests and passes, and each to its end. -/
def Starts (limit : ℕ) (_ : Config sig Exc Unit ι (State ι)) : Move sig Exc Unit ι → Prop
  | .start _ p => (∃ r, p = submit limit r) ∨ ∃ n, p = processPending n
  | .kill _ => False
  | _ => True

/-- Where a thread inserts a row, there are as many rows of the token as when it counted. -/
def Undisturbed (x : Config sig Exc Unit ι (State ι)) : Move sig Exc Unit ι → Prop
  | .call i (.insert row) _ => x.shared.rows.countP (·.tokenId = row.tokenId) = x.shared.seen i
  | _ => True

/-! ### What is promised -/

/-- A submission of the token in the hour that begins at `a`. -/
def Row.within (tokenId : String) (a : ℤ) (r : Row) : Bool :=
  r.tokenId = tokenId && decide (a ≤ r.createdAt.micros ∧ (r.createdAt.micros : ℤ) ≤ a + hourMicros)

/-- In every hour at most `limit` submissions of a token are accepted, and each has exactly one row. -/
def Kept (limit : ℕ) (s : State ι) : Prop :=
  (∀ tokenId a, s.accepted.countP (Row.within tokenId a) ≤ limit) ∧
    ∀ r ∈ s.accepted, s.rows.filter (·.id = r.id) = [r]

/-- Every row has an identifier of its own, every accepted submission has its row, and the limit is
kept by all rows. -/
structure Inv (limit : ℕ) (s : State ι) : Prop where
  drawn : ∀ r ∈ s.rows, s.drawn r.id ≠ none
  nodup_rows : (s.rows.map (·.id)).Nodup
  accepted : ∀ r ∈ s.accepted, r ∈ s.rows
  nodup_accepted : (s.accepted.map (·.id)).Nodup
  limited : ∀ tokenId a, s.rows.countP (Row.within tokenId a) ≤ limit

/-- Where identifiers are distinct a row is the only one with its own. -/
theorem filter_id_eq {rows : List Row} (hnodup : (rows.map (·.id)).Nodup) {r : Row} (hr : r ∈ rows) :
    rows.filter (·.id = r.id) = [r] := by
  induction rows with
  | nil => exact absurd hr List.not_mem_nil
  | cons q rows ih =>
    rw [List.map_cons, List.nodup_cons] at hnodup
    obtain ⟨hq, hnodup⟩ := hnodup
    obtain rfl | hr := List.mem_cons.mp hr
    · have hnone : rows.filter (·.id = r.id) = [] := by
        rw [List.filter_eq_nil_iff]
        intro q hmem heq
        exact hq (List.mem_map.mpr ⟨q, hmem, of_decide_eq_true heq⟩)
      rw [List.filter_cons, if_pos (decide_eq_true rfl), hnone]
    · have hne : ¬decide (q.id = r.id) = true := by
        intro heq
        exact hq (List.mem_map.mpr ⟨r, hr, (of_decide_eq_true heq).symm⟩)
      rw [List.filter_cons, if_neg hne, ih hnodup hr]

omit [DecidableEq ι] in
theorem Inv.kept {limit : ℕ} {s : State ι} (h : Inv limit s) : Kept limit s := by
  constructor
  · intro tokenId a
    have hsub : s.accepted.Subperm s.rows :=
      List.subperm_of_subset (List.Nodup.of_map _ h.nodup_accepted) h.accepted
    exact (hsub.countP_le _).trans (h.limited tokenId a)
  · exact fun r hr => filter_id_eq h.nodup_rows (h.accepted r hr)

variable {limit : ℕ} {s s' : State ι} {i j : ι} {tokenId since : String} {row : Row}

omit [DecidableEq ι] in
theorem Inv.same (h : Inv limit s) (lock : Option ι) (clock : DateTime) (seen : ι → ℕ) :
    Inv limit { s with lock := lock, clock := clock, seen := seen } :=
  ⟨h.drawn, h.nodup_rows, h.accepted, h.nodup_accepted, h.limited⟩

omit [DecidableEq ι] in
/-- **A row more keeps the limit**, where fewer than `limit` rows of its token have been found since an
hour before a time that is not later than its own. -/
theorem Inv.insert (h : Inv limit s) (row : Row) (hdrawn : s.drawn row.id ≠ none)
    (hfresh : ∀ r ∈ s.rows, r.id ≠ row.id)
    {t hourAgo : DateTime} (hago : hourBefore t = some hourAgo)
    (ht : t.micros ≤ row.createdAt.micros)
    (hroom : s.rows.countP (Row.since row.tokenId hourAgo.isoformat) < limit) (lock : Option ι) :
    Inv limit { s with rows := s.rows ++ [row], lock := lock } where
  drawn := List.forall_mem_append.mpr ⟨h.drawn, List.forall_mem_singleton.mpr hdrawn⟩
  nodup_rows := by
    show ((s.rows ++ [row]).map (·.id)).Nodup
    rw [List.map_append, List.map_singleton, List.nodup_append_comm, List.singleton_append, List.nodup_cons]
    refine ⟨fun hmem => ?_, h.nodup_rows⟩
    obtain ⟨r, hr, heq⟩ := List.mem_map.mp hmem
    exact hfresh r hr heq
  accepted := fun r hr => List.mem_append_left _ (h.accepted r hr)
  nodup_accepted := h.nodup_accepted
  limited := by
    intro tokenId a
    show (s.rows ++ [row]).countP (Row.within tokenId a) ≤ limit
    rw [List.countP_append, List.countP_singleton]
    split
    next hwithin =>
      -- the rows of the hour that `row` is in were all counted
      rw [Row.within, Bool.and_eq_true, decide_eq_true_eq, decide_eq_true_eq] at hwithin
      obtain ⟨rfl, -, hlate⟩ := hwithin
      have hmicros := micros_hourBefore hago
      have hle : s.rows.countP (Row.within row.tokenId a) ≤
          s.rows.countP (Row.since row.tokenId hourAgo.isoformat) := by
        refine List.countP_mono_left fun r _ hr => ?_
        rw [Row.within, Bool.and_eq_true, decide_eq_true_eq, decide_eq_true_eq] at hr
        obtain ⟨htoken, hearly, -⟩ := hr
        rw [Row.since, Bool.and_eq_true, decide_eq_true_eq, decide_eq_true_eq, isoformat_le_iff]
        exact ⟨htoken, by omega⟩
      omega
    next => exact h.limited tokenId a

/-! ### Threads -/

/-- What a thread relies on: rows are only added, while it holds the lock none are, what it drew
remains its own, and nobody else inserts or answers with that. -/
structure Rely (i : ι) (s s' : State ι) : Prop where
  rows : s.rows <+: s'.rows
  held : s.lock = some i → s'.rows = s.rows ∧ s'.lock = some i
  released : s.lock ≠ some i → s'.lock ≠ some i
  clock : s.clock.micros ≤ s'.clock.micros
  seen : s'.seen i = s.seen i
  drawn : ∀ id, s'.drawn id = some i ↔ s.drawn id = some i
  new_rows : ∀ r ∈ s'.rows, r ∈ s.rows ∨ s.drawn r.id ≠ some i
  new_accepted : ∀ r ∈ s'.accepted, r ∈ s.accepted ∨ s.drawn r.id ≠ some i

omit [DecidableEq ι] in
theorem Rely.refl (i : ι) (s : State ι) : Rely i s s where
  rows := List.prefix_rfl
  held := fun h => ⟨rfl, h⟩
  released := id
  clock := le_rfl
  seen := rfl
  drawn := fun _ => Iff.rfl
  new_rows := fun _ => .inl
  new_accepted := fun _ => .inl

omit [DecidableEq ι] in
theorem Rely.trans {s₁ s₂ s₃ : State ι} (h : Rely i s₁ s₂) (h' : Rely i s₂ s₃) : Rely i s₁ s₃ where
  rows := h.rows.trans h'.rows
  held := by
    intro hlock
    obtain ⟨hrows, hlock⟩ := h.held hlock
    obtain ⟨hrows', hlock⟩ := h'.held hlock
    exact ⟨hrows'.trans hrows, hlock⟩
  released := fun hlock => h'.released (h.released hlock)
  clock := h.clock.trans h'.clock
  seen := h'.seen.trans h.seen
  drawn := fun id => (h'.drawn id).trans (h.drawn id)
  new_rows := by
    intro r hr
    obtain hr | hr := h'.new_rows r hr
    · exact h.new_rows r hr
    · exact .inr fun hdrawn => hr ((h.drawn _).mpr hdrawn)
  new_accepted := by
    intro r hr
    obtain hr | hr := h'.new_accepted r hr
    · exact h.new_accepted r hr
    · exact .inr fun hdrawn => hr ((h.drawn _).mpr hdrawn)

/-- What a thread has to have drawn for a command. -/
def Owned (i : ι) (s : State ι) : Cmd → Prop
  | .insert row => s.drawn row.id = some i
  | .respond (.accepted row) => s.drawn row.id = some i
  | _ => True

/-- **What a command of one thread does, the others may rely on.** -/
theorem rely_of_exec (hne : j ≠ i) {c : Cmd} {a : c.Ans} (hx : exec i s c a s') (howned : Owned i s c) :
    Rely j s s' := by
  have hother (id : ℕ) (hid : s.drawn id = some i) : s.drawn id ≠ some j := by
    rw [hid]
    exact fun heq => hne (Option.some.inj heq).symm
  have hfree (hs : s.Free i) : s.lock ≠ some j := by
    obtain hnone | hmine := hs
    · rw [hnone]
      exact (Option.some_ne_none j).symm
    · rw [hmine]
      exact fun heq => hne (Option.some.inj heq).symm
  have hself : some i ≠ some j := fun heq => hne (Option.some.inj heq).symm
  have hrefl := Rely.refl j s
  cases c with
  | now =>
    obtain ⟨hclock, rfl⟩ := hx
    exact { hrefl with clock := hclock }
  | count tokenId since =>
    obtain ⟨-, -, rfl⟩ := hx
    exact { hrefl with seen := Function.update_of_ne hne _ _ }
  | uuid4 =>
    obtain ⟨hnone, rfl⟩ := hx
    refine { hrefl with drawn := fun id => ?_ }
    by_cases hid : id = a
    · subst hid
      show Function.update s.drawn id (some i) id = some j ↔ _
      rw [Function.update_self, hnone]
      exact iff_of_false hself (Option.some_ne_none j).symm
    · show Function.update s.drawn a (some i) id = some j ↔ _
      rw [Function.update_of_ne hid]
  | insert row =>
    obtain ⟨hs, rfl⟩ := hx
    have hlock := hfree hs
    refine { hrefl with
      rows := List.prefix_append _ _
      held := fun h => absurd h hlock
      released := fun _ => hself
      new_rows := ?_ }
    intro r hr
    obtain hr | hr := List.mem_append.mp hr
    · exact .inl hr
    · rw [List.mem_singleton.mp hr]
      exact .inr (hother _ howned)
  | update =>
    obtain ⟨hs, rfl⟩ := hx
    have hlock := hfree hs
    exact { hrefl with held := fun h => absurd h hlock, released := fun _ => hself }
  | commit =>
    obtain rfl : s' = _ := hx
    split
    next hmine =>
      have hlock : s.lock ≠ some j := by
        rw [hmine]
        exact hself
      exact { hrefl with held := fun h => absurd h hlock, released := fun _ => (Option.some_ne_none j).symm }
    next => exact hrefl
  | respond answer =>
    cases answer with
    | accepted row =>
      obtain rfl : s' = _ := hx
      refine { hrefl with new_accepted := fun r hr => ?_ }
      obtain hr | hr := List.mem_append.mp hr
      · exact .inl hr
      · rw [List.mem_singleton.mp hr]
        exact .inr (hother _ howned)
    | refused status =>
      obtain rfl : s' = s := hx
      exact hrefl

/-! ### A request -/

/-- What a thread executes, in a state that is in order. -/
def Sem (limit : ℕ) (i : ι) (s : State ι) (c : Cmd) (a : c.Ans) (s' : State ι) : Prop :=
  exec i s c a s' ∧ Inv limit s ∧
    ∀ row, c = .insert row → s.rows.countP (·.tokenId = row.tokenId) = s.seen i

/-- What a thread promises. -/
def Guar (limit : ℕ) (i : ι) (s : State ι) (c : Cmd) (_ : c.Ans) (s' : State ι) : Prop :=
  (∀ j, j ≠ i → Rely j s s') ∧ Inv limit s'

/-- A program of thread `i` is in order, and leaves the lock to others. -/
abbrev Fine (limit : ℕ) (i : ι) (p : Method Unit) (s : State ι) : Prop :=
  p.wp (Sem limit i) (Rely i) (Guar limit i) (fun _ s => s.lock ≠ some i) (fun _ s => s.lock ≠ some i) s

/-- One command. -/
theorem fine_call {c : Cmd} {k : c.Ans → Method Unit}
    (h : ∀ s₁ a s₂, Rely i s s₁ → Sem limit i s₁ c a s₂ →
      Owned i s₁ c ∧ Inv limit s₂ ∧ Fine limit i (k a) s₂) :
    Fine limit i (.call (F := sig) c k) s := by
  intro s₁ hR a s₂ hx
  obtain ⟨howned, hinv, hk⟩ := h s₁ a s₂ hR hx
  exact ⟨⟨fun j hne => rely_of_exec hne hx.1 howned, hinv⟩, hk⟩

/-- The thread has counted `n` rows since `since`, in the rows of that time. -/
def Counted (i : ι) (tokenId since : String) (n : ℕ) (s : State ι) : Prop :=
  ∃ old, old <+: s.rows ∧ old.countP (·.tokenId = tokenId) = s.seen i ∧
    old.countP (Row.since tokenId since) = n

/-- The thread has drawn an identifier, and not used it. -/
structure Fresh (i : ι) (id : ℕ) (s : State ι) : Prop where
  drawn : s.drawn id = some i
  rows : ∀ r ∈ s.rows, r.id ≠ id
  accepted : ∀ r ∈ s.accepted, r.id ≠ id

/-- The thread has inserted a row, and not answered. -/
structure Stored (i : ι) (row : Row) (s : State ι) : Prop where
  drawn : s.drawn row.id = some i
  mem : row ∈ s.rows
  accepted : ∀ r ∈ s.accepted, r.id ≠ row.id

omit [DecidableEq ι] in
theorem Counted.stable {n : ℕ} (h : Counted i tokenId since n s) (hR : Rely i s s') :
    Counted i tokenId since n s' := by
  obtain ⟨old, hold, hseen, hn⟩ := h
  exact ⟨old, hold.trans hR.rows, hseen.trans hR.seen.symm, hn⟩

omit [DecidableEq ι] in
theorem Fresh.stable {id : ℕ} (h : Fresh i id s) (hR : Rely i s s') : Fresh i id s' where
  drawn := (hR.drawn id).mpr h.drawn
  rows := by
    rintro r hr rfl
    obtain hr | hr := hR.new_rows r hr
    · exact h.rows r hr rfl
    · exact hr h.drawn
  accepted := by
    rintro r hr rfl
    obtain hr | hr := hR.new_accepted r hr
    · exact h.accepted r hr rfl
    · exact hr h.drawn

omit [DecidableEq ι] in
theorem Stored.stable (h : Stored i row s) (hR : Rely i s s') : Stored i row s' where
  drawn := (hR.drawn row.id).mpr h.drawn
  mem := hR.rows.subset h.mem
  accepted := by
    intro r hr heq
    obtain hr | hr := hR.new_accepted r hr
    · exact h.accepted r hr heq
    · rw [heq] at hr
      exact hr h.drawn

omit [DecidableEq ι] in
/-- **Where nobody has inserted a row of the token since, the count is still right.** -/
theorem Counted.countP {n : ℕ} (h : Counted i tokenId since n s)
    (hsame : s.rows.countP (·.tokenId = tokenId) = s.seen i) :
    s.rows.countP (Row.since tokenId since) = n := by
  obtain ⟨old, ⟨rest, hrest⟩, hseen, hn⟩ := h
  rw [← hrest, List.countP_append] at hsame ⊢
  have hnone : rest.countP (·.tokenId = tokenId) = 0 := by omega
  have hzero : rest.countP (Row.since tokenId since) = 0 := by
    rw [List.countP_eq_zero] at hnone ⊢
    intro r hr hsince
    exact hnone r hr (Bool.and_eq_true_iff.mp hsince).1
  rw [hn, hzero, Nat.add_zero]

/-- An answer that accepts nothing. -/
theorem fine_refuse (hidle : s.lock ≠ some i) (status : ℕ) : Fine limit i (respond (.refused status)) s := by
  refine fine_call fun s₁ a s₂ hR hx => ?_
  obtain ⟨rfl, hinv, -⟩ : s₂ = s₁ ∧ _ := hx
  exact ⟨trivial, hinv, hR.released hidle⟩

/-- The answer to a submission that is stored. -/
theorem fine_accept (hidle : s.lock ≠ some i) (h : Stored i row s) :
    Fine limit i (respond (.accepted row)) s := by
  refine fine_call fun s₁ a s₂ hR hx => ?_
  obtain ⟨rfl, hinv, -⟩ : s₂ = _ ∧ _ := hx
  have hstored := h.stable hR
  refine ⟨hstored.drawn, ⟨hinv.drawn, hinv.nodup_rows, ?_, ?_, hinv.limited⟩, hR.released hidle⟩
  · exact List.forall_mem_append.mpr ⟨hinv.accepted, List.forall_mem_singleton.mpr hstored.mem⟩
  · show ((s₁.accepted ++ [row]).map (·.id)).Nodup
    rw [List.map_append, List.map_singleton, List.nodup_append_comm, List.singleton_append, List.nodup_cons]
    refine ⟨fun hmem => ?_, hinv.nodup_accepted⟩
    obtain ⟨r, hr, heq⟩ := List.mem_map.mp hmem
    exact hstored.accepted r hr heq

theorem exec_commit_lock (hx : exec i s .commit () s') : s'.lock ≠ some i := by
  obtain rfl : s' = _ := hx
  split
  next => exact (Option.some_ne_none i).symm
  next hlock => exact hlock

theorem Inv.of_commit (hinv : Inv limit s) (hx : exec i s .commit () s') : Inv limit s' := by
  obtain rfl : s' = _ := hx
  split
  next => exact hinv.same none s.clock s.seen
  next => exact hinv

theorem Stored.of_commit (h : Stored i row s) (hx : exec i s .commit () s') : Stored i row s' := by
  obtain rfl : s' = _ := hx
  split
  next => exact ⟨h.drawn, h.mem, h.accepted⟩
  next => exact h

/-- The statements behind the count. -/
theorem fine_store {n : ℕ} {t hourAgo : DateTime} (hago : hourBefore t = some hourAgo)
    (hroom : n < limit) (hidle : s.lock ≠ some i) (hclock : t.micros ≤ s.clock.micros)
    (h : Counted i tokenId hourAgo.isoformat n s) :
    Fine limit i (store tokenId) s := by
  -- `uuid4`
  refine fine_call fun s₁ id s₂ hR hx => ?_
  have hidle := hR.released hidle
  have hclock := hclock.trans hR.clock
  have h := h.stable hR
  obtain ⟨⟨hnone, rfl⟩, hinv, -⟩ := hx
  have hrow : ∀ r ∈ s₁.rows, r.id ≠ id := by
    rintro r hr rfl
    exact hinv.drawn r hr hnone
  have hfresh : Fresh i id { s₁ with drawn := Function.update s₁.drawn id (some i) } :=
    ⟨Function.update_self .., hrow, fun r hr => hrow r (hinv.accepted r hr)⟩
  have hinv : Inv limit { s₁ with drawn := Function.update s₁.drawn id (some i) } := by
    refine ⟨fun r hr => ?_, hinv.nodup_rows, hinv.accepted, hinv.nodup_accepted, hinv.limited⟩
    show Function.update s₁.drawn id (some i) r.id ≠ none
    rw [Function.update_of_ne (hrow r hr)]
    exact hinv.drawn r hr
  refine ⟨trivial, hinv, ?_⟩
  have h : Counted i tokenId hourAgo.isoformat n
      { s₁ with drawn := Function.update s₁.drawn id (some i) } := h
  have hidle : State.lock { s₁ with drawn := Function.update s₁.drawn id (some i) } ≠ some i := hidle
  have hclock : t.micros ≤
      (State.clock { s₁ with drawn := Function.update s₁.drawn id (some i) }).micros := hclock
  generalize { s₁ with drawn := Function.update s₁.drawn id (some i) } = s₂ at *
  -- `now_iso`
  refine fine_call fun s₃ t' s₄ hR hx => ?_
  have hidle := hR.released hidle
  have hclock := hclock.trans hR.clock
  have h := h.stable hR
  have hfresh := hfresh.stable hR
  obtain ⟨⟨hlate, rfl⟩, hinv, -⟩ := hx
  have ht : t.micros ≤ DateTime.micros t' := hclock.trans hlate
  refine ⟨trivial, hinv.same _ _ _, ?_⟩
  have h : Counted i tokenId hourAgo.isoformat n { s₃ with clock := t' } := h
  have hfresh : Fresh i id { s₃ with clock := t' } := ⟨hfresh.drawn, hfresh.rows, hfresh.accepted⟩
  generalize { s₃ with clock := t' } = s₄ at *
  -- `INSERT`
  refine fine_call fun s₅ _ s₆ hR hx => ?_
  have h := h.stable hR
  have hfresh := hfresh.stable hR
  obtain ⟨⟨-, rfl⟩, hinv, hsame⟩ := hx
  have hcount := h.countP (hsame _ rfl)
  have hdrawn : s₅.drawn id ≠ none := by
    rw [hfresh.drawn]
    exact Option.some_ne_none i
  have hinv : Inv limit { s₅ with rows := s₅.rows ++ [⟨id, tokenId, t'⟩], lock := some i } :=
    hinv.insert ⟨id, tokenId, t'⟩ hdrawn hfresh.rows hago ht (hcount.trans_lt hroom) (some i)
  refine ⟨hfresh.drawn, hinv, ?_⟩
  have hstored : Stored i ⟨id, tokenId, t'⟩
      { s₅ with rows := s₅.rows ++ [⟨id, tokenId, t'⟩], lock := some i } :=
    ⟨hfresh.drawn, List.mem_append_right _ List.mem_cons_self, hfresh.accepted⟩
  generalize { s₅ with rows := s₅.rows ++ [Row.mk id tokenId t'], lock := some i } = s₆ at *
  -- `UPDATE`
  refine fine_call fun s₇ _ s₈ hR hx => ?_
  have hstored := hstored.stable hR
  obtain ⟨⟨-, rfl⟩, hinv, -⟩ := hx
  refine ⟨trivial, hinv.same _ _ _, ?_⟩
  have hstored : Stored i ⟨id, tokenId, t'⟩ { s₇ with lock := some i } :=
    ⟨hstored.drawn, hstored.mem, hstored.accepted⟩
  -- `COMMIT`
  refine fine_call fun s₉ _ s' hR hx => ?_
  obtain ⟨hx, hinv, -⟩ := hx
  exact ⟨trivial, hinv.of_commit hx, fine_accept (exec_commit_lock hx) ((hstored.stable hR).of_commit hx)⟩

/-- The count. -/
theorem fine_submitSince {t hourAgo : DateTime} (hago : hourBefore t = some hourAgo)
    (hidle : s.lock ≠ some i) (hclock : t.micros ≤ s.clock.micros) :
    Fine limit i (submitSince limit tokenId hourAgo.isoformat) s := by
  refine fine_call fun s₁ n s₂ hR hx => ?_
  have hidle := hR.released hidle
  have hclock := hclock.trans hR.clock
  obtain ⟨⟨-, rfl, rfl⟩, hinv, -⟩ := hx
  refine ⟨trivial, hinv.same _ _ _, ?_⟩
  change Fine limit i (if limit ≤ _ then _ else _) _
  split
  next => exact fine_refuse (by exact hidle) 429
  next hroom =>
    refine fine_store hago (Nat.lt_of_not_le hroom) (by exact hidle) (by exact hclock)
      ⟨s₁.rows, List.prefix_rfl, ?_, rfl⟩
    show _ = Function.update s₁.seen i _ i
    rw [Function.update_self]

theorem fine_submitFrom {t : DateTime} {o : Option DateTime} (hago : hourBefore t = o)
    (hidle : s.lock ≠ some i) (hclock : t.micros ≤ s.clock.micros) :
    Fine limit i (submitFrom limit tokenId o) s := by
  cases o with
  | none => exact hidle
  | some hourAgo => exact fine_submitSince hago hidle hclock

/-- The first look at the clock. -/
theorem fine_now {f : DateTime → Method Unit} (hidle : s.lock ≠ some i)
    (h : ∀ s t, s.lock ≠ some i → DateTime.micros t ≤ s.clock.micros → Fine limit i (f t) s) :
    Fine limit i (now >>= f) s := by
  refine fine_call fun s₁ t s₂ hR hx => ?_
  have hidle := hR.released hidle
  obtain ⟨⟨-, rfl⟩, hinv, -⟩ := hx
  refine ⟨trivial, hinv.same _ _ _, ?_⟩
  exact h _ t hidle le_rfl

/-- **A request keeps the table in order.** -/
theorem fine_submit (hidle : s.lock ≠ some i) (r : Request) : Fine limit i (submit limit r) s := by
  unfold submit
  split
  · exact fine_refuse hidle 401
  · next status _ _ => exact fine_refuse hidle status
  · exact fine_now hidle fun _ _ hidle hclock => fine_submitFrom rfl hidle hclock

/-- A pass over the submissions leaves them in order. -/
theorem fine_processPending (hidle : s.lock ≠ some i) (n : ℕ) : Fine limit i (processPending n) s := by
  refine Program.wp_forEach (I := fun s : State ι => s.lock ≠ some i) (fun _ _ s hidle => ?_) hidle
  refine fine_call fun s₁ _ s₂ hR hx => ?_
  obtain ⟨⟨-, rfl⟩, hinv, -⟩ := hx
  refine ⟨trivial, hinv.same _ _ _, ?_⟩
  refine fine_call fun s₃ _ s₄ hR hx => ?_
  obtain ⟨hx, hinv, -⟩ := hx
  exact ⟨trivial, hinv.of_commit hx, exec_commit_lock hx⟩

/-! ### Runs -/

/-- The threads keep the table in order, as long as nobody comes between. -/
def outline (limit : ℕ) : Outline (ι := ι) exec
    fun x m => (Starts limit x m ∧ Undisturbed x m) ∧ Inv limit x.shared where
  rely := Rely
  guar := Guar limit
  idle i s := s.lock ≠ some i
  post i _ s := s.lock ≠ some i
  fail i _ s := s.lock ≠ some i
  sem := Sem limit
  sem_of_ok := by
    rintro x i c a s ⟨⟨-, hsame⟩, hinv⟩ hx
    refine ⟨hx, hinv, ?_⟩
    rintro row rfl
    exact hsame
  rely_refl := Rely.refl
  rely_trans _ _ _ _ h h' := h.trans h'
  rely_of_guar _ j hne _ _ _ _ h := h.1 j hne
  idle_stable _ _ _ hR h := hR.released h
  post_stable _ _ _ _ hR h := hR.released h
  fail_stable _ _ _ _ hR h := hR.released h
  start := by
    rintro x i p ⟨⟨hp, -⟩, -⟩ hidle
    obtain ⟨r, rfl⟩ | ⟨n, rfl⟩ := hp
    · exact fine_submit hidle r
    · exact fine_processPending hidle n
  ret _ _ _ _ h := h
  raise _ _ _ _ h := h
  kill _ _ _ hok _ _ := hok.1.1.elim

omit [DecidableEq ι] in
theorem inv_init (limit : ℕ) (clock : DateTime) : Inv limit (State.init ι clock) where
  drawn := fun _ hr => absurd hr List.not_mem_nil
  nodup_rows := List.nodup_nil
  accepted := fun _ hr => absurd hr List.not_mem_nil
  nodup_accepted := List.nodup_nil
  limited := fun _ _ => Nat.zero_le _

/-- **The limit is kept, and every accepted submission has exactly one row**, in every run in which
nobody inserts a row of a token between the count and the insert of another request of it. -/
theorem limit_of_reaches {limit : ℕ} {clock : DateTime} {x : Config sig Exc Unit ι (State ι)}
    (h : Reaches exec (fun x m => Starts limit x m ∧ Undisturbed x m) (.idle (.init ι clock)) x) :
    Kept limit x.shared := by
  have hidle : (outline limit).Verified (.idle (State.init ι clock)) := fun i => (Option.some_ne_none i).symm
  exact ((outline limit).invariant_of_kept (fun _ _ _ _ _ hG _ => hG.2) h hidle
    (inv_init limit clock)).2.kept

/-! ### Schedules -/

/-- The clock stands still, and thread `i` draws `i`. -/
def answerNext (i : ℕ) (s : State ℕ) : (c : Cmd) → Option (c.Ans × State ℕ)
  | .now => some (s.clock, s)
  | .count tokenId since =>
    if s.lock = none then
      some (s.rows.countP (Row.since tokenId since),
        { s with seen := Function.update s.seen i (s.rows.countP (·.tokenId = tokenId)) })
    else none
  | .uuid4 =>
    if s.drawn i = none then some (i, { s with drawn := Function.update s.drawn i (some i) }) else none
  | .insert row =>
    if s.lock = none then some ((), { s with rows := s.rows ++ [row], lock := some i }) else none
  | .update => if s.lock = some i then some ((), s) else none
  | .commit => some ((), if s.lock = some i then { s with lock := none } else s)
  | .respond (.accepted row) => some ((), { s with accepted := s.accepted ++ [row] })
  | .respond (.refused _) => some ((), s)

theorem exec_of_answerNext {i : ℕ} {s s' : State ℕ} {c : Cmd} {a : c.Ans}
    (h : answerNext i s c = some (a, s')) : exec i s c a s' := by
  cases c with
  | now =>
    cases h
    exact ⟨le_rfl, rfl⟩
  | count tokenId since =>
    obtain ⟨hlock, heq⟩ := Option.ite_none_right_eq_some.mp h
    cases heq
    exact ⟨.inl hlock, rfl, rfl⟩
  | uuid4 =>
    obtain ⟨hdrawn, heq⟩ := Option.ite_none_right_eq_some.mp h
    cases heq
    exact ⟨hdrawn, rfl⟩
  | insert row =>
    obtain ⟨hlock, heq⟩ := Option.ite_none_right_eq_some.mp h
    cases heq
    exact ⟨.inl hlock, rfl⟩
  | update =>
    obtain ⟨hlock, heq⟩ := Option.ite_none_right_eq_some.mp h
    cases heq
    refine ⟨.inr hlock, ?_⟩
    rw [← hlock]
  | commit =>
    cases h
    rfl
  | respond answer =>
    cases answer with
    | accepted row =>
      cases h
      rfl
    | refused status =>
      cases h
      rfl

theorem june_valid : (1 ≤ 2026 ∧ 2026 ≤ 9999) ∧ (1 ≤ 6 ∧ 6 ≤ 12) ∧
    1 ≤ 1 ∧ 1 ≤ daysInMonth (isLeap 2026) 6 := by
  decide

theorem noon_valid : 12 < 24 ∧ 0 < 60 ∧ 0 < 60 ∧ 0 < 1000000 := by decide

/-- Noon of a day in June. -/
def noon : DateTime := ⟨⟨2026, 6, 1, june_valid⟩, ⟨12, 0, 0, 0, noon_valid⟩⟩

/-- A request of one student. -/
def studentRequest : Request := ⟨some "student", none⟩

/-- The default of `LLM_CLIENT_SUBMISSIONS_PER_HOUR`. -/
def submissionsPerHour : ℕ := 20

/-- Thread `i` takes some turns. -/
def turns (i n : ℕ) : List (Turn sig Exc Unit ℕ) := List.replicate n (.go i)

/-- Thread `i` starts a request, and takes some turns. -/
def starts (limit i n : ℕ) : List (Turn sig Exc Unit ℕ) :=
  .start i (submit limit studentRequest) :: turns i n

theorem eq_submit_of_mem {l : List ℕ} {limit n i : ℕ} {p : Method Unit}
    (h : Turn.start i p ∈ l.flatMap fun j => starts limit j n) : p = submit limit studentRequest := by
  obtain ⟨j, -, hmem⟩ := List.mem_flatMap.mp h
  obtain heq | hmem := List.mem_cons.mp hmem
  · exact (Turn.start.inj heq).2
  · cases List.eq_of_mem_replicate hmem

/-- A schedule of requests, of which each starts and takes `n` turns, and later perhaps `m` more. -/
theorem starts_of_mem {l l' : List ℕ} {limit n m i : ℕ} {p : Method Unit}
    (h : Turn.start i p ∈ (l.flatMap fun j => starts limit j n) ++ l'.flatMap fun j => turns j m)
    (x : Config sig Exc Unit ℕ (State ℕ)) : Starts limit x (.start i p) := by
  obtain h | h := List.mem_append.mp h
  · exact .inl ⟨studentRequest, eq_submit_of_mem h⟩
  · obtain ⟨j, -, hmem⟩ := List.mem_flatMap.mp h
    cases List.eq_of_mem_replicate hmem

/-- As `answerNext`, but a row is inserted only where nobody has come between. -/
def answerAlone (i : ℕ) (s : State ℕ) : (c : Cmd) → Option (c.Ans × State ℕ)
  | .insert row =>
    if s.rows.countP (·.tokenId = row.tokenId) = s.seen i then answerNext i s (.insert row) else none
  | c => answerNext i s c

theorem answerNext_of_answerAlone {i : ℕ} {s s' : State ℕ} {c : Cmd} {a : c.Ans}
    (h : answerAlone i s c = some (a, s')) : answerNext i s c = some (a, s') := by
  cases c with
  | insert row => exact (Option.ite_none_right_eq_some.mp h).2
  | _ => exact h

/-- Two requests, one after the other. -/
theorem kept_two : ∃ x : Config sig Exc Unit ℕ (State ℕ),
    Reaches exec (fun x m => Starts submissionsPerHour x m ∧ Undisturbed x m) (.idle (.init ℕ noon)) x ∧
      x.shared.accepted.length = 2 ∧ Kept submissionsPerHour x.shared := by
  have hplay : (Config.play answerAlone (([0, 1].flatMap fun j => starts submissionsPerHour j 9) ++
      [].flatMap fun j => turns j 0) (.idle (.init ℕ noon))).any (fun x => x.shared.accepted.length = 2) = true := by
    decide
  obtain ⟨x, hx, htwo⟩ := (Option.any_eq_true ..).mp hplay
  have hreaches : Reaches exec (fun x m => Starts submissionsPerHour x m ∧ Undisturbed x m)
      (.idle (.init ℕ noon)) x := by
    refine reaches_of_play (fun i x c a s h => ⟨exec_of_answerNext (answerNext_of_answerAlone h), trivial, ?_⟩)
      (fun _ _ _ => ⟨trivial, trivial⟩) (fun i p hp x => ⟨starts_of_mem hp x, trivial⟩) hx
    cases c with
    | insert row => exact (Option.ite_none_right_eq_some.mp h).1
    | _ => trivial
  exact ⟨x, hreaches, of_decide_eq_true htwo, limit_of_reaches hreaches⟩

/-- **Twenty-one requests that all count before one of them inserts are all accepted.** -/
theorem limit_broken : ∃ x : Config sig Exc Unit ℕ (State ℕ),
    Reaches exec (Starts submissionsPerHour) (.idle (.init ℕ noon)) x ∧ ¬Kept submissionsPerHour x.shared := by
  have hplay : (Config.play answerNext (((List.range 21).flatMap fun j => starts submissionsPerHour j 2) ++
      (List.range 21).flatMap fun j => turns j 7) (.idle (.init ℕ noon))).any
      (fun x => submissionsPerHour < x.shared.accepted.countP (Row.within "student" noon.micros)) = true := by
    decide +kernel
  obtain ⟨x, hx, hmany⟩ := (Option.any_eq_true ..).mp hplay
  refine ⟨x, reaches_of_play (fun i x c a s h => ⟨exec_of_answerNext h, trivial⟩) (fun _ _ _ => trivial)
    (fun i p hp x => starts_of_mem hp x) hx, fun hkept => ?_⟩
  exact absurd (hkept.1 "student" noon.micros) (Nat.not_le_of_lt (of_decide_eq_true hmany))

end RateLimit
end CloudCore
