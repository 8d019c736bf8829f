import CloudCore.Effect.Pool
import Mathlib.Data.Nat.Notation

/-!
# The serialized database connection

`api/db.py`: every thread has its own SQLite connection, and the methods of
`_SerializedConnection` pass through one module-level lock.  A call that opens
a transaction keeps the lock across calls, until the transaction ends.

The methods are programs over the steps other threads can come between: the
lock, the connection's `_holding_lock` flag, and what SQLite does for the
statement.  SQLite's own locking between connections is left out, so nothing
but the module's lock keeps two writers apart.

## Main definitions

* `Tx`, `SqlOp.apply` — SQLite's view of one connection's transaction.
* `Cmd`, `exec` — the atomic steps and what they do.
* `execute`, `executemany`, `executescript`, `commit`, `rollback`, `closeDb` —
  the methods of the connection, under the source's names.
-/

namespace CloudCore
namespace Db

open Effect

/-! ### SQLite's side of a connection -/

/-- The transaction of one connection. -/
structure Tx where
  /-- `sqlite3.Connection.in_transaction`: SQLite is not in autocommit mode. -/
  inTransaction : Bool := false
  /-- The connection has a write transaction open. -/
  writing : Bool := false
  deriving DecidableEq

/-- What SQLite does to the transaction, one step at a time. -/
inductive SqlOp where
  /-- `BEGIN`. -/
  | beginTx
  /-- A statement starts to write. -/
  | write
  /-- A writing statement is finished; in autocommit mode its transaction ends with it. -/
  | endStmt
  /-- `COMMIT` or `ROLLBACK`. -/
  | endTx
  /-- A statement that only reads. -/
  | read
  deriving DecidableEq

/-- The transaction after a step that succeeded. -/
def SqlOp.apply : SqlOp → Tx → Tx
  | .beginTx, t => { t with inTransaction := true }
  | .write, t => { t with writing := true }
  | .endStmt, t => { t with writing := t.writing && t.inTransaction }
  | .endTx, _ => {}
  | .read, t => t

/-- A SQL statement, as far as transactions are concerned. -/
inductive Stmt where
  /-- `SELECT`, `PRAGMA`. -/
  | query
  /-- `INSERT`, `UPDATE`, `DELETE`, `REPLACE`. -/
  | dml
  /-- `CREATE`, `ALTER`, `DROP`. -/
  | ddl
  /-- `BEGIN`, or a `SAVEPOINT` that opens a transaction. -/
  | begin
  /-- `BEGIN IMMEDIATE`, `BEGIN EXCLUSIVE`. -/
  | beginImmediate
  /-- `COMMIT`, or a `RELEASE` that ends the transaction. -/
  | commit
  | rollback
  deriving DecidableEq

/-! ### The state and the steps -/

/-- A thread's open connection. -/
structure Conn where
  /-- `_holding_lock`. -/
  holdingLock : Bool := false
  tx : Tx := {}
  deriving DecidableEq

/-- The module's lock and each thread's connection. -/
structure State (ι : Type) where
  /-- The thread that acquired `_lock`; the lock itself does not record it. -/
  lock : Option ι
  /-- `_local.conn`. -/
  conn : ι → Option Conn

/-- No connection has been opened yet. -/
def State.init (ι : Type) : State ι := ⟨none, fun _ => none⟩

/-- An exception of the `sqlite3` module. -/
inductive SqliteError where
  | error
  deriving DecidableEq

/-- The steps between which another thread may run. -/
inductive Cmd where
  | hasConn
  | connect
  | drop
  | close
  | holdingLock
  | setHoldingLock (b : Bool)
  | lockAcquire
  | lockRelease
  | inTransaction
  | sqlite (op : SqlOp)

/-- The answers: a flag, nothing, or success or an exception. -/
def Cmd.Ans : Cmd → Type
  | .hasConn | .holdingLock | .inTransaction => Bool
  | .connect | .close | .sqlite _ => Except SqliteError Unit
  | .drop | .setHoldingLock _ | .lockAcquire | .lockRelease => Unit

/-- The steps of the connection's methods. -/
abbrev sig : Signature := ⟨Cmd, Cmd.Ans⟩

/-- A method of the connection. -/
abbrev Method := Program sig SqliteError

section Exec

variable {ι : Type} [DecidableEq ι]

/-- Replace thread `i`'s connection. -/
def State.setConn (s : State ι) (i : ι) (c : Option Conn) : State ι :=
  { s with conn := Function.update s.conn i c }

/-- What thread `i`'s steps do.  A step of SQLite may fail and leave the
transaction in any state; closing a connection ends its transaction. -/
def exec (i : ι) (s : State ι) : (c : Cmd) → c.Ans → State ι → Prop
  | .hasConn, b, s' => s' = s ∧ b = (s.conn i).isSome
  | .connect, .ok _, s' => s' = s.setConn i (some {})
  | .connect, .error _, s' => s' = s
  | .drop, _, s' => s' = s.setConn i none
  | .close, .ok _, s' => s' = s.setConn i none
  | .close, .error _, s' => s' = s
  | .holdingLock, b, s' => ∃ c, s.conn i = some c ∧ s' = s ∧ b = c.holdingLock
  | .setHoldingLock b, _, s' =>
      ∃ c, s.conn i = some c ∧ s' = s.setConn i (some { c with holdingLock := b })
  | .lockAcquire, _, s' => s.lock = none ∧ s' = { s with lock := some i }
  | .lockRelease, _, s' => s.lock.isSome ∧ s' = { s with lock := none }
  | .inTransaction, b, s' => ∃ c, s.conn i = some c ∧ s' = s ∧ b = c.tx.inTransaction
  | .sqlite op, .ok _, s' =>
      ∃ c, s.conn i = some c ∧ s' = s.setConn i (some { c with tx := op.apply c.tx })
  | .sqlite _, .error _, s' =>
      ∃ c tx, s.conn i = some c ∧ s' = s.setConn i (some { c with tx := tx })

end Exec

/-- What thread `i`'s steps do when nothing raises; none when the step blocks. -/
def succeed {ι : Type} [DecidableEq ι] (i : ι) (s : State ι) :
    (c : Cmd) → Option (c.Ans × State ι)
  | .hasConn => some ((s.conn i).isSome, s)
  | .connect => some (.ok (), s.setConn i (some {}))
  | .drop => some ((), s.setConn i none)
  | .close => some (.ok (), s.setConn i none)
  | .holdingLock => (s.conn i).map fun c => (c.holdingLock, s)
  | .setHoldingLock b =>
    (s.conn i).map fun c => ((), s.setConn i (some { c with holdingLock := b }))
  | .lockAcquire => if s.lock.isSome then none else some ((), { s with lock := some i })
  | .lockRelease => if s.lock.isSome then some ((), { s with lock := none }) else none
  | .inTransaction => (s.conn i).map fun c => (c.tx.inTransaction, s)
  | .sqlite op => (s.conn i).map fun c => (.ok (), s.setConn i (some { c with tx := op.apply c.tx }))

/-! ### The steps as programs -/

def hasConn : Method Bool := .perform (F := sig) .hasConn
def drop : Method Unit := .perform (F := sig) .drop
def holdingLock : Method Bool := .perform (F := sig) .holdingLock
def setHoldingLock (b : Bool) : Method Unit := .perform (F := sig) (.setHoldingLock b)
def lockAcquire : Method Unit := .perform (F := sig) .lockAcquire
def lockRelease : Method Unit := .perform (F := sig) .lockRelease
def inTransaction : Method Bool := .perform (F := sig) .inTransaction

/-- Raise what a step of SQLite raised. -/
def orRaise : Except SqliteError Unit → Method Unit
  | .ok _ => pure ()
  | .error e => throw e

def connect : Method Unit := .call (F := sig) .connect orRaise
def close : Method Unit := .call (F := sig) .close orRaise
def sqlite (op : SqlOp) : Method Unit := .call (F := sig) (.sqlite op) orRaise

/-! ### Python's `sqlite3.Connection` -/

/-- Execute one statement. -/
def step : Stmt → Method Unit
  | .query => sqlite .read
  | .dml | .ddl => do sqlite .write; sqlite .endStmt
  | .begin => sqlite .beginTx
  | .beginImmediate => do sqlite .beginTx; sqlite .write
  | .commit | .rollback => sqlite .endTx

/-- `super().execute`: a data-changing statement outside a transaction opens one first. -/
def superExecute (st : Stmt) : Method Unit := do
  if st = .dml then
    if !(← inTransaction) then sqlite .beginTx
  step st

/-- Execute the same statement `n` times. -/
def stepMany : ℕ → Method Unit
  | 0 => pure ()
  | n + 1 => do step .dml; stepMany n

/-- `super().executemany` on `n` rows of parameters. -/
def superExecutemany (n : ℕ) : Method Unit := do
  if !(← inTransaction) then sqlite .beginTx
  stepMany n

/-- Execute the statements of a script, without implicit transactions. -/
def stepAll : List Stmt → Method Unit
  | [] => pure ()
  | st :: sts => do step st; stepAll sts

/-- `super().executescript`: commits what is open, then runs the script. -/
def superExecutescript (sts : List Stmt) : Method Unit := do
  if (← inTransaction) then sqlite .endTx
  stepAll sts

/-- `super().commit` and `super().rollback`: nothing outside a transaction. -/
def superEnd : Method Unit := do
  if (← inTransaction) then sqlite .endTx

/-! ### `_SerializedConnection` -/

def acquire : Method Unit := do
  if !(← holdingLock) then
    lockAcquire
    setHoldingLock true

def releaseIfIdle : Method Unit := do
  if (← holdingLock) then
    if !(← inTransaction) then
      setHoldingLock false
      lockRelease

def releaseUnconditionally : Method Unit := do
  if (← holdingLock) then
    setHoldingLock false
    lockRelease

/-- The common body of `execute`, `executemany` and `executescript`: the lock
around the inherited method, kept if a transaction is open afterwards. -/
def serialized (body : Method Unit) : Method Unit := do
  acquire
  body.tryCatch fun e => do
    releaseUnconditionally
    throw e
  releaseIfIdle

def execute (st : Stmt) : Method Unit := serialized (superExecute st)

def executemany (n : ℕ) : Method Unit := serialized (superExecutemany n)

def executescript (sts : List Stmt) : Method Unit := serialized (superExecutescript sts)

def commit : Method Unit := superEnd.tryFinally releaseUnconditionally

def rollback : Method Unit := superEnd.tryFinally releaseUnconditionally

/-- `_new_conn`: a connection whose set-up fails is dropped. -/
def newConn : Method Unit := do
  connect
  Program.tryCatch (do execute .query; execute .query) fun e => do
    drop
    throw e

/-- `get_db`: this thread's connection, opened on its first use. -/
def getDb : Method Unit := do
  if !(← hasConn) then newConn

/-- `close_db`: close this thread's connection, if it has one.  `close` is
SQLite's own: the class does not override it. -/
def closeDb : Method Unit := do
  if (← hasConn) then close

/-! ### Calls -/

/-- What a thread may call. -/
inductive Call where
  | execute (st : Stmt)
  | executemany (n : ℕ)
  | executescript (sts : List Stmt)
  | commit
  | rollback
  | closeDb
  deriving DecidableEq

/-- A call as the modules make it: on the connection `get_db` gives. -/
def Call.run : Call → Method Unit
  | .execute st => do getDb; Db.execute st
  | .executemany n => do getDb; Db.executemany n
  | .executescript sts => do getDb; Db.executescript sts
  | .commit => do getDb; Db.commit
  | .rollback => do getDb; Db.rollback
  | .closeDb => Db.closeDb

/-- The database and what the threads are calling. -/
abbrev Threads (ι : Type) := Config sig SqliteError Unit ι (State ι)

/-- Threads start calls, and no thread is stopped inside one. -/
def Calls {ι : Type} (_ : Threads ι) : Move sig SqliteError Unit ι → Prop
  | .start _ p => ∃ c : Call, p = c.run
  | .kill _ => False
  | _ => True

end Db
end CloudCore
