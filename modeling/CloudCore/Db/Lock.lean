import CloudCore.Db.Connection

/-!
# The module lock of the serialized connections

What one thread sees of the database is its own connection and whether it has
the lock; no other thread's steps change that.  So each method is verified
alone, over that view, and the pool's outline puts the threads together.

The outline comes in two strengths.  The plain one allows every step to fail.
The strict one is for runs in which nothing raises: there a connection that
writes has the lock, at every moment.

## Main results

* `lock_held_open` — the lock is held between calls only for an open
  transaction, as long as no connection is closed while it holds the lock.
* `writers_exclusive` — **without exceptions, a connection with a write
  transaction has the lock**, so there is at most one.
-/

namespace CloudCore
namespace Db

open Effect

variable {ι : Type} [DecidableEq ι]

/-! ### What a thread sees -/

/-- A thread's connection, and whether the thread has the lock. -/
structure View where
  conn : Option Conn
  mine : Bool

/-- What thread `i` sees. -/
def view (i : ι) (s : State ι) : View := ⟨s.conn i, decide (s.lock = some i)⟩

/-- A step of SQLite or of the connection's life raised. -/
def Cmd.Raised : (c : Cmd) → c.Ans → Prop
  | .connect, .error _ | .close, .error _ | .sqlite _, .error _ => True
  | _, _ => False

/-- The steps of a thread, on its view. -/
def localExec : View → (c : Cmd) → c.Ans → View → Prop
  | v, .hasConn, b, v' => v' = v ∧ b = v.conn.isSome
  | v, .connect, .ok _, v' => v' = { v with conn := some {} }
  | v, .connect, .error _, v' => v' = v
  | v, .drop, _, v' => v' = { v with conn := none }
  | v, .close, .ok _, v' => v' = { v with conn := none }
  | v, .close, .error _, v' => v' = v
  | v, .holdingLock, b, v' => ∃ c, v.conn = some c ∧ v' = v ∧ b = c.holdingLock
  | v, .setHoldingLock b, _, v' =>
      ∃ c, v.conn = some c ∧ v' = { v with conn := some { c with holdingLock := b } }
  | v, .lockAcquire, _, v' => v' = { v with mine := true }
  | v, .lockRelease, _, v' => v' = { v with mine := false }
  | v, .inTransaction, b, v' => ∃ c, v.conn = some c ∧ v' = v ∧ b = c.tx.inTransaction
  | v, .sqlite op, .ok _, v' =>
      ∃ c, v.conn = some c ∧ v' = { v with conn := some { c with tx := op.apply c.tx } }
  | v, .sqlite _, .error _, v' =>
      ∃ c tx, v.conn = some c ∧ v' = { v with conn := some { c with tx := tx } }

@[simp] theorem view_setConn_self (i : ι) (s : State ι) (c : Option Conn) :
    view i (s.setConn i c) = { view i s with conn := c } := by
  simp only [view, State.setConn, Function.update_self]
  rfl

theorem view_setConn_of_ne {i j : ι} (h : j ≠ i) (s : State ι) (c : Option Conn) :
    view j (s.setConn i c) = view j s := by
  simp only [view, State.setConn, Function.update_of_ne h]
  rfl

/-- A step does to the thread's view what `localExec` says. -/
theorem exec_local {i : ι} {s s' : State ι} {c : Cmd} {a : c.Ans} (h : exec i s c a s') :
    localExec (view i s) c a (view i s') := by
  cases c with
  | hasConn => obtain ⟨rfl, rfl⟩ := h; exact ⟨rfl, rfl⟩
  | connect => cases a <;> (simp only [exec] at h; subst h; simp [localExec])
  | drop => simp only [exec] at h; subst h; simp [localExec]
  | close => cases a <;> (simp only [exec] at h; subst h; simp [localExec])
  | holdingLock => obtain ⟨c, hc, rfl, rfl⟩ := h; exact ⟨c, hc, rfl, rfl⟩
  | setHoldingLock b => obtain ⟨c, hc, rfl⟩ := h; exact ⟨c, hc, by simp⟩
  | lockAcquire => obtain ⟨-, rfl⟩ := h; simp [localExec, view]
  | lockRelease => obtain ⟨-, rfl⟩ := h; simp [localExec, view]
  | inTransaction => obtain ⟨c, hc, rfl, rfl⟩ := h; exact ⟨c, hc, rfl, rfl⟩
  | sqlite op =>
    cases a with
    | ok => obtain ⟨c, hc, rfl⟩ := h; exact ⟨c, hc, by simp⟩
    | error => obtain ⟨c, tx, hc, rfl⟩ := h; exact ⟨c, tx, hc, by simp⟩

/-- A step is invisible to the other threads, unless it releases a lock the
thread does not have. -/
theorem view_exec_of_ne {i j : ι} (hj : j ≠ i) {s s' : State ι} {c : Cmd} {a : c.Ans}
    (h : exec i s c a s') (hrel : c = .lockRelease → (view i s).mine = true) :
    view j s = view j s' := by
  cases c with
  | hasConn => obtain ⟨rfl, -⟩ := h; rfl
  | connect => cases a <;> (simp only [exec] at h; subst h; simp [view_setConn_of_ne hj])
  | drop => simp only [exec] at h; subst h; simp [view_setConn_of_ne hj]
  | close => cases a <;> (simp only [exec] at h; subst h; simp [view_setConn_of_ne hj])
  | holdingLock => obtain ⟨c, -, rfl, -⟩ := h; rfl
  | setHoldingLock b => obtain ⟨c, -, rfl⟩ := h; rw [view_setConn_of_ne hj]
  | lockAcquire => obtain ⟨hl, rfl⟩ := h; simp [view, hl, Ne.symm hj]
  | lockRelease =>
    obtain ⟨-, rfl⟩ := h
    have hl : s.lock = some i := by simpa [view] using hrel rfl
    simp [view, hl, Ne.symm hj]
  | inTransaction => obtain ⟨c, -, rfl, -⟩ := h; rfl
  | sqlite op =>
    cases a with
    | ok => obtain ⟨c, -, rfl⟩ := h; rw [view_setConn_of_ne hj]
    | error => obtain ⟨c, tx, -, rfl⟩ := h; rw [view_setConn_of_ne hj]

/-! ### Verifying a method alone -/

/-- A connection that writes has the lock, if `strict`. -/
def Safe (strict : Prop) (v : View) : Prop :=
  strict → ∀ c, v.conn = some c → c.tx.writing = true → v.mine = true

/-- The steps of the runs considered.  In the plain runs a connection that is
closed does not hold the lock; in the strict ones nothing raises. -/
def localSem (strict : Prop) (v : View) (c : Cmd) (a : c.Ans) (v' : View) : Prop :=
  localExec v c a v' ∧
    (¬strict → c = .close → ¬c.Raised a → ∀ k, v.conn = some k → k.holdingLock = false) ∧
    (c.Raised a → ¬strict)

/-- What a method's steps guarantee. -/
def localGuar (strict : Prop) (v : View) (c : Cmd) (_ : c.Ans) (v' : View) : Prop :=
  Safe strict v' ∧ (c = .lockRelease → v.mine = true)

/-- The weakest precondition of a method, on the thread's view. -/
abbrev lwp (strict : Prop) {α : Type} (p : Method α) (Q : α → View → Prop)
    (E : SqliteError → View → Prop) (v : View) : Prop :=
  p.wp (F := sig) (localSem strict) Eq (localGuar strict) Q E v

section Rules

variable {strict : Prop} {α : Type} {Q : α → View → Prop} {E : SqliteError → View → Prop}
  {k : Conn} {m : Bool}

theorem safe_none : Safe strict ⟨none, m⟩ := fun _ _ h => by cases h

theorem safe_mine (c : Option Conn) : Safe strict ⟨c, true⟩ := fun _ _ _ _ => rfl

/-- A flag of the connection is no part of `Safe`. -/
theorem safe_holdingLock (b : Bool) (h : Safe strict ⟨some k, m⟩) :
    Safe strict ⟨some { k with holdingLock := b }, m⟩ := by
  intro hst c hc hw
  cases hc
  exact h hst k rfl hw

theorem safe_idle (h : strict → k.tx.writing = false) : Safe strict ⟨some k, m⟩ := by
  intro hst c hc hw
  cases hc
  rw [h hst] at hw
  cases hw

theorem lwp_holdingLock {Q : Bool → View → Prop} (hs : Safe strict ⟨some k, m⟩)
    (h : Q k.holdingLock ⟨some k, m⟩) : lwp strict holdingLock Q E ⟨some k, m⟩ := by
  refine (Program.wp_call_eq _ _).mpr fun a v' hx => ?_
  obtain ⟨⟨c, hc, rfl, rfl⟩, -, -⟩ := hx
  cases hc
  exact ⟨⟨hs, nofun⟩, h⟩

theorem lwp_inTransaction {Q : Bool → View → Prop} (hs : Safe strict ⟨some k, m⟩)
    (h : Q k.tx.inTransaction ⟨some k, m⟩) : lwp strict inTransaction Q E ⟨some k, m⟩ := by
  refine (Program.wp_call_eq _ _).mpr fun a v' hx => ?_
  obtain ⟨⟨c, hc, rfl, rfl⟩, -, -⟩ := hx
  cases hc
  exact ⟨⟨hs, nofun⟩, h⟩

theorem lwp_setHoldingLock {Q : Unit → View → Prop} (b : Bool) (hs : Safe strict ⟨some k, m⟩)
    (h : Q () ⟨some { k with holdingLock := b }, m⟩) :
    lwp strict (setHoldingLock b) Q E ⟨some k, m⟩ := by
  refine (Program.wp_call_eq _ _).mpr fun a v' hx => ?_
  obtain ⟨⟨c, hc, rfl⟩, -, -⟩ := hx
  cases hc
  exact ⟨⟨safe_holdingLock b hs, nofun⟩, h⟩

theorem lwp_lockAcquire {Q : Unit → View → Prop} (h : Q () ⟨some k, true⟩) :
    lwp strict lockAcquire Q E ⟨some k, m⟩ := by
  refine (Program.wp_call_eq _ _).mpr fun a v' hx => ?_
  obtain ⟨rfl, -, -⟩ := hx
  exact ⟨⟨safe_mine _, nofun⟩, h⟩

theorem lwp_lockRelease {Q : Unit → View → Prop} (hs : Safe strict ⟨some k, false⟩)
    (h : Q () ⟨some k, false⟩) : lwp strict lockRelease Q E ⟨some k, true⟩ := by
  refine (Program.wp_call_eq _ _).mpr fun a v' hx => ?_
  obtain ⟨rfl, -, -⟩ := hx
  exact ⟨⟨hs, fun _ => rfl⟩, h⟩

theorem lwp_hasConn {c : Option Conn} {Q : Bool → View → Prop} (hs : Safe strict ⟨c, m⟩)
    (h : Q c.isSome ⟨c, m⟩) : lwp strict hasConn Q E ⟨c, m⟩ := by
  refine (Program.wp_call_eq _ _).mpr fun a v' hx => ?_
  obtain ⟨⟨rfl, rfl⟩, -, -⟩ := hx
  exact ⟨⟨hs, nofun⟩, h⟩

theorem lwp_connect {Q : Unit → View → Prop} (h : Q () ⟨some {}, m⟩)
    (he : ¬strict → ∀ e, E e ⟨none, m⟩) : lwp strict connect Q E ⟨none, m⟩ := by
  refine (Program.wp_call_eq _ _).mpr fun a v' hx => ?_
  obtain ⟨hx, -, hr⟩ := hx
  cases a with
  | ok a =>
    cases hx
    refine ⟨⟨fun _ c hc hw => ?_, nofun⟩, h⟩
    cases hc
    cases hw
  | error e =>
    cases hx
    exact ⟨⟨safe_none, nofun⟩, he (hr trivial) e⟩

theorem lwp_drop {c : Option Conn} {Q : Unit → View → Prop} (h : Q () ⟨none, m⟩) :
    lwp strict drop Q E ⟨c, m⟩ := by
  refine (Program.wp_call_eq _ _).mpr fun a v' hx => ?_
  obtain ⟨rfl, -, -⟩ := hx
  exact ⟨⟨safe_none, nofun⟩, h⟩

/-- A connection is closed, in the plain runs, only when it does not hold the lock. -/
theorem lwp_close {Q : Unit → View → Prop} (hs : Safe strict ⟨some k, m⟩)
    (h : (¬strict → k.holdingLock = false) → Q () ⟨none, m⟩)
    (he : ¬strict → ∀ e, E e ⟨some k, m⟩) : lwp strict close Q E ⟨some k, m⟩ := by
  refine (Program.wp_call_eq _ _).mpr fun a v' hx => ?_
  obtain ⟨hx, hc, hr⟩ := hx
  cases a with
  | ok a =>
    cases hx
    exact ⟨⟨safe_none, nofun⟩, h fun hn => hc hn rfl nofun k rfl⟩
  | error e =>
    cases hx
    exact ⟨⟨hs, nofun⟩, he (hr trivial) e⟩

/-- One step of SQLite: it succeeds, or, unless `strict`, it raises and leaves any transaction. -/
theorem lwp_sqlite {Q : Unit → View → Prop} (op : SqlOp)
    (hs : Safe strict ⟨some { k with tx := op.apply k.tx }, m⟩)
    (h : Q () ⟨some { k with tx := op.apply k.tx }, m⟩)
    (he : ¬strict → ∀ e tx, E e ⟨some { k with tx := tx }, m⟩) :
    lwp strict (sqlite op) Q E ⟨some k, m⟩ := by
  refine (Program.wp_call_eq _ _).mpr fun a v' hx => ?_
  obtain ⟨hx, -, hr⟩ := hx
  cases a with
  | ok a =>
    obtain ⟨c, hc, rfl⟩ := hx
    cases hc
    exact ⟨⟨hs, nofun⟩, h⟩
  | error e =>
    obtain ⟨c, tx, hc, rfl⟩ := hx
    cases hc
    have hn : ¬strict := hr trivial
    exact ⟨⟨fun hst => absurd hst hn, nofun⟩, he hn e tx⟩

end Rules

/-! ### Inside a serialized body -/

/-- The thread has the lock and its connection knows; if `strict`, only a
transaction is writing. -/
def Held (strict : Prop) (v : View) : Prop :=
  v.mine = true ∧ ∃ k, v.conn = some k ∧ k.holdingLock = true ∧
    (strict → k.tx.writing = true → k.tx.inTransaction = true)

/-- The thread has the lock, and something raised. -/
def Failed (strict : Prop) (v : View) : Prop :=
  ¬strict ∧ v.mine = true ∧ ∃ k, v.conn = some k ∧ k.holdingLock = true

/-- The weakest precondition of a body: it keeps `Held`, or raises in `Failed`. -/
abbrev bodyWp (strict : Prop) {α : Type} (p : Method α) (Q : α → View → Prop) (v : View) : Prop :=
  lwp strict p Q (fun _ => Failed strict) v

section Bodies

variable {strict : Prop} {k : Conn}

/-- A step of SQLite in a body. -/
theorem body_sqlite (op : SqlOp) (hk : k.holdingLock = true) {Q : Unit → View → Prop}
    (h : Q () ⟨some { k with tx := op.apply k.tx }, true⟩) :
    bodyWp strict (sqlite op) Q ⟨some k, true⟩ :=
  lwp_sqlite op (safe_mine _) h fun hn _ _ => ⟨hn, rfl, _, rfl, hk⟩

/-- The body keeps what it started with. -/
def KeepsHeld (strict : Prop) (p : Method Unit) : Prop :=
  ∀ v, Held strict v → bodyWp strict p (fun _ => Held strict) v

theorem keepsHeld_bind {p q : Method Unit} (hp : KeepsHeld strict p) (hq : KeepsHeld strict q) :
    KeepsHeld strict (p >>= fun _ => q) := by
  intro v hv
  rw [bodyWp, lwp, Program.wp_bind]
  exact Program.wp_mono (fun _ v hv => hq v hv) (fun _ _ h => h) (hp v hv)

theorem keepsHeld_step (st : Stmt) : KeepsHeld strict (step st) := by
  rintro ⟨c, m⟩ ⟨rfl, k, rfl, hk, hw⟩
  cases st with
  | query => exact body_sqlite _ hk ⟨rfl, _, rfl, hk, hw⟩
  | dml | ddl =>
    rw [bodyWp, step, lwp, Program.wp_bind]
    -- outside a transaction the write ends with the statement
    have hend : Held strict ⟨some { k with tx := SqlOp.endStmt.apply (SqlOp.write.apply k.tx) },
        true⟩ := ⟨rfl, _, rfl, hk, fun _ h => by simpa [SqlOp.apply] using h⟩
    refine body_sqlite .write hk ?_
    exact body_sqlite (k := { k with tx := SqlOp.write.apply k.tx }) .endStmt hk hend
  | begin => exact body_sqlite _ hk ⟨rfl, _, rfl, hk, fun _ _ => rfl⟩
  | beginImmediate =>
    rw [bodyWp, step, lwp, Program.wp_bind]
    refine body_sqlite .beginTx hk ?_
    exact body_sqlite (k := { k with tx := SqlOp.beginTx.apply k.tx }) .write hk
      ⟨rfl, _, rfl, hk, fun _ _ => rfl⟩
  | commit | rollback =>
    exact body_sqlite _ hk ⟨rfl, _, rfl, hk, fun _ h => by cases h⟩

/-- Look at `in_transaction`, and issue one more step if it is as `p` says. -/
theorem keepsHeld_when {p : Bool → Prop} [DecidablePred p] {op : SqlOp} {q : Method Unit}
    (hop : ∀ t : Tx, (t.writing = true → t.inTransaction = true) →
      (op.apply t).writing = true → (op.apply t).inTransaction = true)
    (hq : KeepsHeld strict q) :
    KeepsHeld strict (inTransaction >>= fun t => if p t then sqlite op >>= fun _ => q else q) := by
  rintro ⟨c, m⟩ ⟨rfl, k, rfl, hk, hw⟩
  rw [bodyWp, lwp, Program.wp_bind]
  refine lwp_inTransaction (safe_mine _) ?_
  split
  · rw [Program.wp_bind]
    exact body_sqlite op hk (hq _ ⟨rfl, _, rfl, hk, fun hst => hop k.tx (hw hst)⟩)
  · exact hq _ ⟨rfl, k, rfl, hk, hw⟩

theorem beginTx_keeps (t : Tx) : (SqlOp.beginTx.apply t).writing = true →
    (SqlOp.beginTx.apply t).inTransaction = true := fun _ => rfl

theorem endTx_keeps (t : Tx) : (SqlOp.endTx.apply t).writing = true →
    (SqlOp.endTx.apply t).inTransaction = true := fun h => by cases h

theorem keepsHeld_superExecute (st : Stmt) : KeepsHeld strict (superExecute st) := by
  unfold superExecute
  split
  · exact keepsHeld_when (fun t _ => beginTx_keeps t) (keepsHeld_step st)
  · exact keepsHeld_step st

theorem keepsHeld_pure : KeepsHeld strict (pure ()) := fun _ hv => hv

theorem keepsHeld_stepMany (n : ℕ) : KeepsHeld strict (stepMany n) := by
  induction n with
  | zero => exact keepsHeld_pure
  | succ n ih => exact keepsHeld_bind (keepsHeld_step .dml) ih

theorem keepsHeld_superExecutemany (n : ℕ) : KeepsHeld strict (superExecutemany n) :=
  keepsHeld_when (fun t _ => beginTx_keeps t) (keepsHeld_stepMany n)

theorem keepsHeld_stepAll (sts : List Stmt) : KeepsHeld strict (stepAll sts) := by
  induction sts with
  | nil => exact keepsHeld_pure
  | cons st sts ih => exact keepsHeld_bind (keepsHeld_step st) ih

theorem keepsHeld_superExecutescript (sts : List Stmt) :
    KeepsHeld strict (superExecutescript sts) :=
  keepsHeld_when (fun t _ => endTx_keeps t) (keepsHeld_stepAll sts)

end Bodies

/-! ### Between two calls -/

/-- What a thread knows between two calls: the connection's flag says whether
it has the lock, and it has the lock for an open transaction only.  If
`strict`, every open transaction has the lock. -/
def Idle (strict : Prop) (v : View) : Prop :=
  (v.conn = none → v.mine = false) ∧
    ∀ k, v.conn = some k → k.holdingLock = v.mine ∧ (v.mine = true → k.tx.inTransaction = true) ∧
      (strict → (k.tx.writing = true → k.tx.inTransaction = true) ∧
        (k.tx.inTransaction = true → v.mine = true))

/-- The same, on an open connection. -/
def Open (strict : Prop) (v : View) : Prop := Idle strict v ∧ v.conn.isSome = true

/-- What a thread knows when a method has raised: the lock is gone. -/
def Raised (strict : Prop) (v : View) : Prop := ¬strict ∧ v.mine = false ∧ Idle strict v

section Methods

variable {strict : Prop} {k : Conn} {m : Bool} {Q : Unit → View → Prop}
  {E : SqliteError → View → Prop}

theorem idle_none : Idle strict ⟨none, false⟩ :=
  ⟨fun _ => rfl, fun _ h => by cases h⟩

theorem open_some (hk : k.holdingLock = m) (ht : m = true → k.tx.inTransaction = true)
    (hs : strict → (k.tx.writing = true → k.tx.inTransaction = true) ∧
      (k.tx.inTransaction = true → m = true)) : Open strict ⟨some k, m⟩ := by
  refine ⟨⟨nofun, fun c hc => ?_⟩, rfl⟩
  cases hc
  exact ⟨hk, ht, hs⟩

/-- A connection without the lock, whose transaction has ended. -/
theorem open_released (hk : k.holdingLock = false)
    (hs : strict → k.tx.writing = false ∧ k.tx.inTransaction = false) :
    Open strict ⟨some k, false⟩ := by
  refine open_some hk nofun fun hst => ?_
  obtain ⟨hw, ht⟩ := hs hst
  exact ⟨fun h => (by rw [hw] at h; cases h), fun h => (by rw [ht] at h; cases h)⟩

theorem safe_of_idle {v : View} (h : Idle strict v) : Safe strict v := by
  intro hst k hk hw
  obtain ⟨-, -, hs⟩ := h.2 k hk
  exact (hs hst).2 ((hs hst).1 hw)

/-- `_acquire`: afterwards the thread has the lock and its connection knows. -/
theorem lwp_acquire (hk : k.holdingLock = m) (hs : Safe strict ⟨some k, m⟩)
    (h : Q () ⟨some { k with holdingLock := true }, true⟩) :
    lwp strict acquire Q E ⟨some k, m⟩ := by
  unfold acquire
  rw [lwp, Program.wp_bind]
  refine lwp_holdingLock hs ?_
  subst hk
  cases hm : k.holdingLock with
  | false =>
    simp only [Bool.not_false, if_true]
    rw [Program.wp_bind]
    exact lwp_lockAcquire (lwp_setHoldingLock true (safe_mine _) h)
  | true =>
    have hkk : { k with holdingLock := true } = k := by rw [← hm]
    rw [hkk] at h
    exact h

/-- `_release_unconditionally`: afterwards the thread does not have the lock. -/
theorem lwp_releaseUnconditionally (hk : k.holdingLock = m) (hs : Safe strict ⟨some k, false⟩)
    (h : Q () ⟨some { k with holdingLock := false }, false⟩) :
    lwp strict releaseUnconditionally Q E ⟨some k, m⟩ := by
  unfold releaseUnconditionally
  rw [lwp, Program.wp_bind]
  subst hk
  cases hm : k.holdingLock with
  | false =>
    refine lwp_holdingLock hs ?_
    have hkk : { k with holdingLock := false } = k := by rw [← hm]
    rw [hkk] at h
    rw [hm]
    exact h
  | true =>
    refine lwp_holdingLock (safe_mine _) ?_
    rw [hm, if_pos rfl, Program.wp_bind]
    exact lwp_setHoldingLock false (safe_mine _)
      (lwp_lockRelease (safe_holdingLock false hs) h)

/-- `_release_if_idle` after a body: the lock stays for an open transaction. -/
theorem lwp_releaseIfIdle {v : View} (hv : Held strict v) :
    lwp strict releaseIfIdle (fun _ => Open strict) E v := by
  obtain ⟨c, m⟩ := v
  obtain ⟨rfl, k, rfl, hk, hw⟩ := hv
  unfold releaseIfIdle
  rw [lwp, Program.wp_bind]
  refine lwp_holdingLock (safe_mine _) ?_
  rw [hk, if_pos rfl, Program.wp_bind]
  refine lwp_inTransaction (safe_mine _) ?_
  cases ht : k.tx.inTransaction with
  | true => exact open_some hk (fun _ => ht) fun hst => ⟨hw hst, fun _ => rfl⟩
  | false =>
    have hq : strict → k.tx.writing = false := by
      intro hst
      by_contra hne
      rw [hw hst (by simpa using hne)] at ht
      cases ht
    simp only [Bool.not_false, if_true]
    rw [Program.wp_bind]
    refine lwp_setHoldingLock false (safe_mine _) (lwp_lockRelease (safe_idle hq) ?_)
    exact open_released rfl fun hst => ⟨hq hst, ht⟩

/-- Between two calls on an open connection, the method does what it should. -/
def KeepsOpen (strict : Prop) (p : Method Unit) : Prop :=
  ∀ v, Open strict v → lwp strict p (fun _ => Open strict) (fun _ => Raised strict) v

/-- `execute`, `executemany`, `executescript`: the lock around a body. -/
theorem keepsOpen_serialized {body : Method Unit} (hb : KeepsHeld strict body) :
    KeepsOpen strict (serialized body) := by
  rintro ⟨c, m⟩ ⟨hi, hopen⟩
  obtain ⟨k, rfl⟩ := Option.isSome_iff_exists.mp hopen
  obtain ⟨hk, -, hs⟩ := hi.2 k rfl
  unfold serialized
  rw [lwp, Program.wp_bind]
  refine lwp_acquire hk (safe_of_idle hi) ?_
  have hheld : Held strict ⟨some { k with holdingLock := true }, true⟩ :=
    ⟨rfl, _, rfl, rfl, fun hst => (hs hst).1⟩
  rw [Program.wp_bind, Program.wp_tryCatch]
  refine Program.wp_mono (fun _ v hv => lwp_releaseIfIdle hv) ?_ (hb _ hheld)
  rintro e ⟨c, m'⟩ ⟨hn, rfl, k', rfl, hk'⟩
  rw [Program.wp_bind]
  refine lwp_releaseUnconditionally hk' (fun hst => absurd hst hn) ?_
  exact ⟨hn, rfl, (open_released rfl fun hst => absurd hst hn).1⟩

/-- `commit` and `rollback`: the transaction ends, or raises, and the lock goes. -/
theorem keepsOpen_end : KeepsOpen strict (superEnd.tryFinally releaseUnconditionally) := by
  rintro ⟨c, m⟩ ⟨hi, hopen⟩
  obtain ⟨k, rfl⟩ := Option.isSome_iff_exists.mp hopen
  obtain ⟨hk, -, hs⟩ := hi.2 k rfl
  rw [lwp, Program.wp_tryFinally]
  unfold superEnd
  rw [Program.wp_bind]
  refine lwp_inTransaction (safe_of_idle hi) ?_
  cases ht : k.tx.inTransaction with
  | true =>
    have hsafe (b : Bool) : Safe strict ⟨some { k with tx := {} }, b⟩ := safe_idle fun _ => rfl
    refine lwp_sqlite .endTx (hsafe m) ?_ ?_
    · exact lwp_releaseUnconditionally hk (hsafe false) (open_released rfl fun _ => ⟨rfl, rfl⟩)
    · intro hn e tx
      refine lwp_releaseUnconditionally hk (fun hst => absurd hst hn) ?_
      exact ⟨hn, rfl, (open_released rfl fun hst => absurd hst hn).1⟩
  | false =>
    have hq : strict → k.tx.writing = false := by
      intro hst
      by_contra hne
      rw [(hs hst).1 (by simpa using hne)] at ht
      cases ht
    refine lwp_releaseUnconditionally hk (safe_idle hq) ?_
    exact open_released rfl fun hst => ⟨hq hst, ht⟩

theorem keepsOpen_bind {p q : Method Unit} (hp : KeepsOpen strict p) (hq : KeepsOpen strict q) :
    KeepsOpen strict (p >>= fun _ => q) := by
  intro v hv
  rw [lwp, Program.wp_bind]
  exact Program.wp_mono (fun _ v hv => hq v hv) (fun _ _ h => h) (hp v hv)

theorem keepsOpen_execute (st : Stmt) : KeepsOpen strict (execute st) :=
  keepsOpen_serialized (keepsHeld_superExecute st)

/-- `get_db`: an open connection, or nothing was opened. -/
theorem lwp_getDb {v : View} (hv : Idle strict v) :
    lwp strict getDb (fun _ => Open strict) (fun _ => Raised strict) v := by
  obtain ⟨c, m⟩ := v
  unfold getDb
  rw [lwp, Program.wp_bind]
  refine lwp_hasConn (safe_of_idle hv) ?_
  cases c with
  | some k => exact ⟨hv, rfl⟩
  | none =>
    have hm : m = false := hv.1 rfl
    subst hm
    simp only [Option.isSome_none, Bool.not_false, if_true]
    unfold newConn
    rw [Program.wp_bind]
    refine lwp_connect ?_ fun hn _ => ⟨hn, rfl, hv⟩
    rw [Program.wp_tryCatch]
    have hopen : Open strict ⟨some {}, false⟩ := open_released rfl fun _ => ⟨rfl, rfl⟩
    refine Program.wp_mono (fun _ _ h => h) ?_
      (keepsOpen_bind (keepsOpen_execute .query) (keepsOpen_execute .query) _ hopen)
    -- a connection whose set-up failed is dropped, without the lock
    rintro e ⟨c, m⟩ ⟨hn, rfl, -⟩
    rw [Program.wp_bind]
    exact lwp_drop ⟨hn, rfl, idle_none⟩

/-- `close_db`, in the plain runs: a connection that is closed does not take the
lock with it. -/
theorem lwp_closeDb {v : View} (hst : ¬strict) (hv : Idle strict v) :
    lwp strict closeDb (fun _ => Idle strict) (fun _ => Idle strict) v := by
  obtain ⟨c, m⟩ := v
  unfold closeDb
  rw [lwp, Program.wp_bind]
  refine lwp_hasConn (safe_of_idle hv) ?_
  cases c with
  | none => exact hv
  | some k =>
    obtain ⟨hk, -, -⟩ := hv.2 k rfl
    refine lwp_close (safe_of_idle hv) (fun hc => ?_) fun _ _ => hv
    have hm : m = false := hk.symm.trans (hc hst)
    subst hm
    exact idle_none

theorem lwp_getDb_bind {p : Method Unit} {v : View} (hp : KeepsOpen strict p)
    (hv : Idle strict v) :
    lwp strict (getDb >>= fun _ => p) (fun _ => Idle strict) (fun _ => Idle strict) v := by
  rw [lwp, Program.wp_bind]
  refine Program.wp_mono (fun _ v hv => ?_) (fun _ _ h => h.2.2) (lwp_getDb hv)
  exact Program.wp_mono (fun _ _ h => h.1) (fun _ _ h => h.2.2) (hp v hv)

/-- **Every call leaves its thread as it found it.** -/
theorem lwp_run {c : Call} {v : View} (hc : strict → c ≠ .closeDb) (hv : Idle strict v) :
    lwp strict c.run (fun _ => Idle strict) (fun _ => Idle strict) v := by
  cases c with
  | execute st => exact lwp_getDb_bind (keepsOpen_execute st) hv
  | executemany n =>
    exact lwp_getDb_bind (keepsOpen_serialized (keepsHeld_superExecutemany n)) hv
  | executescript sts =>
    exact lwp_getDb_bind (keepsOpen_serialized (keepsHeld_superExecutescript sts)) hv
  | commit => exact lwp_getDb_bind keepsOpen_end hv
  | rollback => exact lwp_getDb_bind keepsOpen_end hv
  | closeDb => exact lwp_closeDb (fun hst => hc hst rfl) hv

end Methods

/-! ### The threads together -/

/-- A connection that is closed does not hold the lock. -/
def ClosedReleased (x : Threads ι) : Move sig SqliteError Unit ι → Prop
  | .call i .close (.ok _) => ∀ k, x.shared.conn i = some k → k.holdingLock = false
  | _ => True

/-- No thread calls `close_db`, and nothing raises. -/
def Undisturbed (_ : Threads ι) : Move sig SqliteError Unit ι → Prop
  | .start _ p => ∃ c : Call, c ≠ .closeDb ∧ p = c.run
  | .call _ c a => ¬c.Raised a
  | _ => True

/-- The rely-guarantee proof of the connections: a thread relies on nobody
touching what it sees. -/
def outline (strict : Prop) (ok : Threads ι → Move sig SqliteError Unit ι → Prop)
    (hstart : ∀ x i p, ok x (.start i p) → ∃ c : Call, (strict → c ≠ .closeDb) ∧ p = c.run)
    (hclose : ∀ x i a, ok x (.call i .close a) → ¬strict → ¬Cmd.Raised .close a →
      ∀ k, x.shared.conn i = some k → k.holdingLock = false)
    (hraise : ∀ x i c a, ok x (.call i c a) → c.Raised a → ¬strict)
    (hkill : ∀ x i, ¬ok x (.kill i)) : Outline (ι := ι) exec ok where
  rely i s s' := view i s = view i s'
  guar i s c a s' := (∀ j, j ≠ i → view j s = view j s') ∧
    localGuar strict (view i s) c a (view i s')
  idle i s := Idle strict (view i s)
  post i _ s := Idle strict (view i s)
  fail i _ s := Idle strict (view i s)
  sem i s c a s' := exec i s c a s' ∧ localSem strict (view i s) c a (view i s')
  sem_of_ok x i c a s hok hx := by
    refine ⟨hx, exec_local hx, fun hn hc hr => ?_, hraise x i c a hok⟩
    subst hc
    exact hclose x i a hok hn hr
  rely_refl _ _ := rfl
  rely_trans _ _ _ _ h h' := h.trans h'
  rely_of_guar _ j hj _ _ _ _ h := h.1 j hj
  idle_stable _ _ _ h hi := h ▸ hi
  post_stable _ _ _ _ h hi := h ▸ hi
  fail_stable _ _ _ _ h hi := h ▸ hi
  start x i p hok hi := by
    obtain ⟨c, hc, rfl⟩ := hstart x i p hok
    refine Program.wp_of_view (view i) (fun _ _ h => h) (fun _ _ _ _ h => h.2) ?_
      (lwp_run hc hi)
    intro s c a s' hx hg
    exact ⟨fun j hj => view_exec_of_ne hj hx.1 hg.2, hg⟩
  ret _ _ _ _ h := h
  raise _ _ _ _ h := h
  kill x i _ hok := absurd hok (hkill x i)

/-- Before the first call every thread is idle. -/
theorem outline_init {strict : Prop} {ok : Threads ι → Move sig SqliteError Unit ι → Prop}
    {h₁ h₂ h₃ h₄} : (outline strict ok h₁ h₂ h₃ h₄).Verified (.idle (.init ι)) := by
  intro i
  have hv : view i (State.init ι) = ⟨none, false⟩ := rfl
  change Idle strict (view i (State.init ι))
  rw [hv]
  exact idle_none

/-- **Between calls the lock is held for an open transaction only**, in every run
in which no connection is closed while it holds the lock. -/
theorem lock_held_open {y : Threads ι}
    (h : Reaches exec (fun x m => Calls x m ∧ ClosedReleased x m) (.idle (.init ι)) y)
    (hidle : ∀ i, y.thread i = none) (i : ι) (hi : y.shared.lock = some i) :
    ∃ k, y.shared.conn i = some k ∧ k.tx.inTransaction = true := by
  let o : Outline (ι := ι) exec fun x m => Calls x m ∧ ClosedReleased x m :=
    outline False _ (fun x i p hok => hok.1.imp fun c hc => ⟨False.elim, hc⟩)
      (fun x i a hok _ hr => by
        cases a with
        | ok a => exact hok.2
        | error e => exact absurd trivial hr)
      (fun _ _ _ _ _ _ => id) (fun _ _ hok => hok.1)
  have hv := o.verified_of_reaches h outline_init i
  rw [hidle i] at hv
  obtain ⟨hnone, hsome⟩ : Idle False (view i y.shared) := hv
  have hmine : (view i y.shared).mine = true := decide_eq_true hi
  cases hc : y.shared.conn i with
  | none =>
    have hm := hnone hc
    rw [hmine] at hm
    cases hm
  | some k => exact ⟨k, rfl, (hsome k hc).2.1 hmine⟩

/-- What `succeed` answers is an answer, and nothing raised. -/
theorem exec_of_succeed {i : ι} {s s' : State ι} {c : Cmd} {a : c.Ans}
    (h : succeed i s c = some (a, s')) : exec i s c a s' ∧ ¬c.Raised a := by
  cases c with
  | hasConn => cases h; exact ⟨⟨rfl, rfl⟩, nofun⟩
  | connect | drop | close => cases h; exact ⟨rfl, nofun⟩
  | holdingLock | inTransaction =>
    obtain ⟨k, hk, he⟩ := Option.map_eq_some_iff.mp h
    cases he
    exact ⟨⟨k, hk, rfl, rfl⟩, nofun⟩
  | setHoldingLock b | sqlite op =>
    obtain ⟨k, hk, he⟩ := Option.map_eq_some_iff.mp h
    cases he
    exact ⟨⟨k, hk, rfl⟩, nofun⟩
  | lockAcquire =>
    simp only [succeed] at h
    split at h
    · cases h
    · next hl =>
      cases h
      exact ⟨⟨by simpa using hl, rfl⟩, nofun⟩
  | lockRelease =>
    simp only [succeed] at h
    split at h
    · next hl =>
      cases h
      exact ⟨⟨hl, rfl⟩, nofun⟩
    · cases h

/-- A thread may make a whole call in which nothing raises. -/
theorem reaches_call (i : ι) (c : Call) {r : Except SqliteError Unit} {s s' : State ι}
    (hr : c.run.run (F := sig) (succeed i) s = some (r, s')) :
    Reaches exec Calls (.idle s) (.idle s') :=
  Reaches.solo (i := i) (fun _ _ _ _ hs => ⟨(exec_of_succeed hs).1, trivial⟩)
    (fun _ _ => trivial) c.run ⟨c, rfl⟩ hr

/-- An `INSERT` that is not committed before `close_db` leaves the lock held, with
no connection open: from then on every statement of every thread blocks. -/
theorem lock_left_by_close : ¬∀ y : Threads ℕ, Reaches exec Calls (.idle (.init ℕ)) y →
    (∀ i, y.thread i = none) → y.shared.lock.isSome = true →
    ∃ i k, y.shared.conn i = some k ∧ k.tx.inTransaction = true := by
  intro hclaim
  have hins := reaches_call 0 (.execute .dml) (s := .init ℕ) rfl
  have hclose := hins.trans (reaches_call 0 .closeDb rfl)
  obtain ⟨i, k, hk, -⟩ := hclaim _ hclose (fun _ => rfl) rfl
  by_cases hi : i = 0
  · subst hi
    cases hk
  · simp [Config.idle, State.setConn, State.init] at hk

/-- What `succeed` answers, but for `close`. -/
def succeedOpen (i : ι) (s : State ι) : (c : Cmd) → Option (c.Ans × State ι)
  | .close => none
  | c => succeed i s c

theorem exec_of_succeedOpen {i : ι} {x : Threads ι} {s : State ι} {c : Cmd} {a : c.Ans}
    (h : succeedOpen i x.shared c = some (a, s)) :
    exec i x.shared c a s ∧ Calls x (.call i c a) ∧ ClosedReleased x (.call i c a) := by
  have hs : succeed i x.shared c = some (a, s) := by
    cases c with
    | close => cases h
    | _ => exact h
  refine ⟨(exec_of_succeed hs).1, trivial, ?_⟩
  cases c with
  | close => cases h
  | _ => trivial

/-- An `INSERT` not yet committed: the lock is held, and its connection is in a transaction. -/
theorem lock_held_open_insert :
    ∃ y : Threads ℕ, y.shared.lock = some 0 ∧
      ∃ k, y.shared.conn 0 = some k ∧ k.tx.inTransaction = true := by
  have hins : Reaches exec (fun x m => Calls x m ∧ ClosedReleased x m) (.idle (.init ℕ))
      (.idle _) :=
    Reaches.solo (i := 0) (h := succeedOpen 0) (fun _ _ _ _ => exec_of_succeedOpen)
      (fun _ _ => ⟨trivial, trivial⟩) (Call.execute .dml).run ⟨⟨_, rfl⟩, trivial⟩ rfl
  exact ⟨_, rfl, lock_held_open hins (fun _ => rfl) 0 rfl⟩

/-- **A connection with a write transaction open has the lock, and there is at
most one**, in every run of calls that do not close connections in which
nothing raises. -/
theorem writers_exclusive {y : Threads ι}
    (h : Reaches exec (fun x m => Calls x m ∧ Undisturbed x m) (.idle (.init ι)) y) :
    (∀ i k, y.shared.conn i = some k → k.tx.writing = true → y.shared.lock = some i) ∧
      ∀ i j k k', y.shared.conn i = some k → y.shared.conn j = some k' →
        k.tx.writing = true → k'.tx.writing = true → i = j := by
  let o : Outline (ι := ι) exec fun x m => Calls x m ∧ Undisturbed x m :=
    outline True _ (fun x i p hok => hok.2.imp fun c hc => ⟨fun _ => hc.1, hc.2⟩)
      (fun _ _ _ _ hn _ => absurd trivial hn) (fun _ _ _ _ hok hr => absurd hr hok.2)
      (fun _ _ hok => hok.1)
  have hsafe : ∀ i, Safe True (view i y.shared) := by
    refine (o.invariant (I := fun s => ∀ i, Safe True (view i s)) ?_ h outline_init ?_).2
    · intro i s c a s' hg hs j
      by_cases hj : j = i
      · subst hj; exact hg.2.1
      · rw [← hg.1 j hj]; exact hs j
    · intro i
      exact safe_none
  have hlock : ∀ i k, y.shared.conn i = some k → k.tx.writing = true →
      y.shared.lock = some i :=
    fun i k hk hw => of_decide_eq_true (hsafe i trivial k hk hw)
  refine ⟨hlock, fun i j k k' hk hk' hw hw' => ?_⟩
  have hij := (hlock i k hk hw).symm.trans (hlock j k' hk' hw')
  exact Option.some.inj hij

/-- An `INSERT` not yet committed: its connection writes and has the lock. -/
theorem writers_exclusive_insert :
    ∃ y : Threads ℕ, (∃ k, y.shared.conn 0 = some k ∧ k.tx.writing = true) ∧
      y.shared.lock = some 0 := by
  have hins : Reaches exec (fun x m => Calls x m ∧ Undisturbed x m) (.idle (.init ℕ))
      (.idle _) :=
    Reaches.solo (i := 0) (h := succeed 0)
      (fun x c a s hs => ⟨(exec_of_succeed hs).1, trivial, (exec_of_succeed hs).2⟩)
      (fun _ _ => ⟨trivial, trivial⟩) (Call.execute .dml).run
      ⟨⟨_, rfl⟩, .execute .dml, (by decide), rfl⟩ rfl
  exact ⟨_, ⟨_, rfl, rfl⟩, (writers_exclusive hins).1 0 _ rfl rfl⟩

end Db
end CloudCore
