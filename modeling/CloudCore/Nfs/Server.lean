import CloudCore.Effect.Pool
import CloudCore.Effect.Sequential
import CloudCore.Python.Json
import Mathlib.Logic.Function.Basic

/-!
# An NFS server and its shares

`nfs_routes.py`, `nfs_store.py` and `nfs.py`, for one server, from the row that
`create_nfs_server` stores.  Its launch, the reloads and the teardown run in threads of their
own.  Other columns of the row are left out.

## Main definitions

* `addShare`, `updateShare`, `removeShare`, `getNfsServer`, `deleteNfsServer` — the handlers.
* `launch`, `reload`, `bootMachine`, `tearDown` — what runs in the background.
* `exec` — what the commands do.
* `Careful` — no row is written from a stale copy, and no reload is lost or overtaken.
-/

namespace CloudCore
namespace Nfs

open Effect Python
open Effect.Program (attempt)

/-! ### The data -/

/-- A share; `clients` may be missing where the server was created with it. -/
structure Share where
  name : String
  clients : Option Json

inductive Status where
  | pending
  | running
  | stopped
  | deleted
  | error
  deriving DecidableEq

/-- The row of the server. -/
structure Row where
  status : Status
  privateIp : String
  sshHostPort : ℕ
  domainName : String
  shares : List Share

/-- What a request does to the shares. -/
inductive Change where
  | add (share : Share)
  | update (name : String) (clients : Option Json)
  | remove (name : String)

/-- The first share of a name is changed. -/
def setClients (name : String) (clients : Json) : List Share → List Share
  | [] => []
  | share :: shares =>
    if share.name = name then { share with clients := some clients } :: shares
    else share :: setClients name clients shares

def Change.apply (shares : List Share) : Change → List Share
  | .add share => shares ++ [share]
  | .update name (some clients) => setClients name clients shares
  | .update _ none => shares
  | .remove name => shares.filter (·.name ≠ name)

/-! ### The exports file -/

/-- The address of the clients in the VPC, and `str` of a value that is no text. -/
structure Host where
  vpc : String
  str : Json → String

def textOf : Json → Option String
  | .str t => some t
  | _ => none

/-- `host_spec`; `join` raises on what is no text. -/
def Host.spec (H : Host) : Option Json → Option String
  | none => some H.vpc
  | some (.str t) => some (if t = "vpc" then H.vpc else t)
  | some (.arr items) => (items.mapM textOf).map (String.intercalate " ")
  | some v => some (H.str v)

/-- `_export_line_raw`. -/
def Host.exportLine (H : Host) (share : Share) : Option String :=
  (H.spec share.clients).map fun spec =>
    "/exports/" ++ share.name ++ " " ++ spec ++ "(rw,sync,no_subtree_check,no_root_squash)"

def Host.exportLines (H : Host) (shares : List Share) : Option (List String) :=
  shares.mapM H.exportLine

/-- A line that YAML and both shells leave as it is. -/
def Plain (line : String) : Prop :=
  (∀ c ∈ line.toList, c.isAlphanum = true ∨ c ∈ "/._-,:*@()= ".toList) ∧ ¬": ".toList <:+: line.toList

def Host.Printable (H : Host) (shares : List Share) : Prop :=
  ∃ lines, H.exportLines shares = some lines ∧ ∀ line ∈ lines, Plain line

/-! ### The commands -/

/-- What is started in a thread of its own; a reload has the number of its change. -/
inductive Job where
  | reload (n : ℕ) (shares : List Share)
  | destroy

/-- What a row is stored for; the code does not look at it. -/
inductive Why where
  | launch
  | refresh
  | share (change : Change)

/-- How a request is answered. -/
inductive Reply where
  /-- 200 with the server, or an error. -/
  | other
  /-- 201, 200 or 204: the shares are changed. -/
  | changed (change : Change)
  /-- 204: the server is deleted. -/
  | gone

inductive Cmd where
  /-- `nfs_store.get`. -/
  | get
  /-- `nfs_store.put`; `base` is the row as it was read. -/
  | put (base row : Row) (why : Why)
  /-- `nfs_store.delete`. -/
  | delete
  /-- `Thread(...).start()`. -/
  | spawn (job : Job)
  /-- Such a thread begins. -/
  | take (job : Job)
  /-- The thread of `_launch` begins. -/
  | takeLaunch
  /-- `nfs_compute.create_nfs_server`; whether it worked, and the server after it. -/
  | create (nfs : Row)
  /-- `get_nfs_server_ip`. -/
  | ip (domainName : String)
  /-- `get_nfs_server_status`. -/
  | status (domainName : String)
  /-- The first boot of the machine. -/
  | boot
  /-- `reload_exports`. -/
  | reload (n : ℕ) (shares : List Share)
  /-- `nfs_compute.delete_nfs_server`. -/
  | destroy
  | answer (reply : Reply)

@[reducible] def Cmd.Ans : Cmd → Type
  | .get => Option Row
  | .put .. => ℕ
  | .takeLaunch => Row
  | .create _ => Bool × Row
  | .ip _ => Except Unit String
  | .status _ => Except Unit Status
  | .reload .. | .destroy => Except Unit Unit
  | .delete | .spawn _ | .take _ | .boot | .answer _ => Unit

abbrev sig : Signature := ⟨Cmd, Cmd.Ans⟩

abbrev Code (α : Type) := Program sig Unit α

def step {α : Type} (c : Cmd) (h : c.Ans = α) : Code α := h ▸ Program.perform (F := sig) c

def tryStep {α : Type} (c : Cmd) (h : c.Ans = Except Unit α) : Code α :=
  attempt (F := sig) c h

def answer (reply : Reply) : Code Unit := step (.answer reply) rfl

/-! ### The handlers -/

def ipOf (nfs : Row) : Code String :=
  if nfs.privateIp = "" then tryStep (.ip nfs.domainName) rfl else pure nfs.privateIp

/-- The rest of `get_nfs_server`. -/
def refresh (nfs : Row) : Code Unit :=
  if nfs.domainName ≠ "" then do
    let status : Status ← tryStep (.status nfs.domainName) rfl
    let ip ← ipOf nfs
    let _ : ℕ ← step (.put nfs { nfs with status := status, privateIp := ip } .refresh) rfl
    answer .other
  else answer .other

def getNfsServer : Code Unit := do
  let nfs : Option Row ← step .get rfl
  match nfs with
  | none => answer .other
  | some nfs => refresh nfs

def deleteNfsServer : Code Unit := do
  let nfs : Option Row ← step .get rfl
  match nfs with
  | none => answer .other
  | some _ => do
    let () ← step .delete rfl
    let () ← step (.spawn .destroy) rfl
    answer .gone

/-- The changed shares are stored; a server that is running is told. -/
def store (nfs : Row) (change : Change) : Code Unit := do
  let n : ℕ ← step (.put nfs { nfs with shares := change.apply nfs.shares } (.share change)) rfl
  if nfs.status = .running then do
    let () ← step (.spawn (.reload n (change.apply nfs.shares))) rfl
    answer (.changed change)
  else answer (.changed change)

/-- `request.get_json(force=True) or {}`, and the value of a key; a body that is no object raises. -/
def getKey (body : Json) (key : String) : Except Unit (Option Json) :=
  if body.truthy then
    match body with
    | .obj _ => .ok (body.get? key)
    | _ => .error ()
  else .ok none

/-- `body.get("name", "").strip()`. -/
def nameOf (body : Json) : Except Unit String :=
  match getKey body "name" with
  | .ok none => .ok ""
  | .ok (some (.str name)) => .ok (strip name)
  | .ok (some _) => .error ()
  | .error e => .error e

/-- `body["clients"]`, if `"clients" in body`: a list and a text may be asked that, but have no keys. -/
def givenClients (body : Json) : Except Unit (Option Json) :=
  match body with
  | .arr items => if items.any (·.eq (.str "clients")) then .error () else .ok none
  | .str text => if text.toList.tails.any ("clients".toList.isPrefixOf ·) then .error () else .ok none
  | body => getKey body "clients"

/-- The rest of `add_share`. -/
def insert (nfs : Row) (body : Json) (name : String) : Code Unit :=
  if name = "" then answer .other
  else if nfs.shares.any (·.name = name) then answer .other
  else
    match getKey body "clients" with
    | .error e => throw e
    | .ok clients => store nfs (.add ⟨name, some (clients.getD (.str "vpc"))⟩)

def addShare (body : Json) : Code Unit := do
  let nfs : Option Row ← step .get rfl
  match nfs with
  | none => answer .other
  | some nfs =>
    match nameOf body with
    | .error e => throw e
    | .ok name => insert nfs body name

def updateShare (name : String) (body : Json) : Code Unit := do
  let nfs : Option Row ← step .get rfl
  match nfs with
  | none => answer .other
  | some nfs =>
    if nfs.shares.any (·.name = name) then
      match givenClients body with
      | .error e => throw e
      | .ok clients => store nfs (.update name clients)
    else answer .other

def removeShare (name : String) : Code Unit := do
  let nfs : Option Row ← step .get rfl
  match nfs with
  | none => answer .other
  | some nfs => if nfs.shares.any (·.name = name) then store nfs (.remove name) else answer .other

/-! ### In the background -/

/-- `finally` of `_launch`. -/
def launched (nfs row : Row) : Code Unit := do
  let _ : ℕ ← step (.put nfs row .launch) rfl
  pure ()

def launch : Code Unit := do
  let nfs : Row ← step .takeLaunch rfl
  let created : Bool × Row ← step (.create nfs) rfl
  match created with
  | (true, row) => do
    let ip : Except Unit String ← step (.ip row.domainName) rfl
    match ip with
    | .ok ip => launched nfs { row with privateIp := ip }
    | .error _ => launched nfs { row with status := .error }
  | (false, row) => launched nfs { row with status := .error }

/-- `_reload`, which logs what is raised. -/
def reload (n : ℕ) (shares : List Share) : Code Unit := do
  let () ← step (.take (.reload n shares)) rfl
  let _ : Except Unit Unit ← step (.reload n shares) rfl
  pure ()

/-- `_destroy`. -/
def tearDown : Code Unit := do
  let () ← step (.take .destroy) rfl
  let _ : Except Unit Unit ← step .destroy rfl
  pure ()

/-- The machine's cloud-init, which writes the exports file. -/
def bootMachine : Code Unit := step .boot rfl

/-- What runs. -/
inductive Operation where
  | get
  | delete
  | addShare (body : Json)
  | updateShare (name : String) (body : Json)
  | removeShare (name : String)
  | launch
  | reload (n : ℕ) (shares : List Share)
  | tearDown
  | boot

def Operation.code : Operation → Code Unit
  | .get => getNfsServer
  | .delete => deleteNfsServer
  | .addShare body => Nfs.addShare body
  | .updateShare name body => Nfs.updateShare name body
  | .removeShare name => Nfs.removeShare name
  | .launch => Nfs.launch
  | .reload n shares => Nfs.reload n shares
  | .tearDown => Nfs.tearDown
  | .boot => bootMachine

/-! ### What the commands do -/

/-- The launch, with the server that it was given. -/
inductive Launch (ι : Type) where
  | waiting (nfs : Row)
  | running (i : ι)
  | done

/-- The machine; `source` are the shares that its exports file is, or will be, written from. -/
structure Machine where
  booted : Bool
  exports : List String
  source : List Share

/-- What a thread has still to do about a change, or has begun. -/
inductive Token where
  | job (job : Job)
  | answer (change : Change)

/-- The row, the machine, and the threads to come.  `log` are the changes that were stored and
`answered` those whose requests were answered; `written` is the number of the change that the
exports file is written from. -/
structure State (ι : Type) where
  row : Option Row
  machine : Option Machine
  launch : Launch ι
  jobs : List Job
  held : ι → List Token
  log : List (ι × Change)
  answered : List (ι × Change)
  written : ℕ
  gone : Bool

variable {ι : Type} [DecidableEq ι]

/-- A server that is not deleted. -/
def Row.visible (row : Row) : Bool := row.status ≠ .deleted

/-- `nfs_store.get`. -/
def State.stored (s : State ι) : Option Row := s.row.filter Row.visible

def State.holding (s : State ι) (i : ι) (tokens : List Token) : State ι :=
  { s with held := Function.update s.held i tokens }

/-- What a stored change leaves to be done. -/
def owed (n : ℕ) (base row : Row) (change : Change) : List Token :=
  (if base.status = .running then [.job (.reload n row.shares)] else []) ++ [.answer change]

/-- The book-keeping of `put`. -/
def State.note (s : State ι) (i : ι) (base row : Row) : Why → State ι
  | .launch => { s with launch := .done, written := s.log.length }
  | .refresh => s
  | .share change =>
    { s.holding i (owed (s.log.length + 1) base row change) with log := s.log ++ [(i, change)] }

def exec (H : Host) (i : ι) (s : State ι) : (c : Cmd) → c.Ans → State ι → Prop
  | .get, a, s' => a = s.stored ∧ s' = s
  | .put base row why, n, s' => n = s.log.length + 1 ∧ s' = { s.note i base row why with row := some row }
  | .delete, (), s' => s' = { s with row := s.row.map ({ · with status := .deleted }) }
  | .spawn job, (), s' => s' = { s.holding i (s.held i).tail with jobs := job :: s.jobs }
  | .take job, (), s' => ∃ l r, s.jobs = l ++ job :: r ∧ s' = { s.holding i [.job job] with jobs := l ++ r }
  | .takeLaunch, nfs, s' => s.launch = .waiting nfs ∧ s' = { s with launch := .running i }
  | .create nfs, a, s' => a.2.shares = nfs.shares ∧
      if a.1 then a.2.status = .running ∧ a.2.domainName ≠ "" ∧ (H.exportLines nfs.shares).isSome ∧
        s' = { s with machine := some ⟨false, [], nfs.shares⟩ }
      else s' = s
  | .ip _, _, s' | .status _, _, s' => s' = s
  | .boot, (), s' => ∃ m lines, s.machine = some m ∧ m.booted = false ∧
      (H.Printable m.source → H.exportLines m.source = some lines) ∧
      s' = { s with machine := some ⟨true, lines, m.source⟩ }
  | .reload n shares, .ok (), s' => ∃ m lines, s.machine = some m ∧
      (H.Printable shares → H.exportLines shares = some lines) ∧
      s' = { s.holding i [] with machine := some ⟨m.booted, lines, shares⟩, written := n }
  | .reload _ _, .error (), s' => ∃ lines,
      s' = { s.holding i [] with machine := s.machine.map fun m => ⟨m.booted, lines, m.source⟩ }
  | .destroy, .ok (), s' => s' = { s.holding i [] with machine := none }
  | .destroy, .error (), s' => s' = s.holding i []
  | .answer (.changed change), (), s' =>
      s' = { s.holding i [] with answered := s.answered ++ [(i, change)] }
  | .answer .gone, (), s' => s' = { s with gone := true }
  | .answer .other, (), s' => s' = s

/-! ### Runs -/

/-- The handlers and the background threads run; the API is not killed. -/
def Runs : Move sig Unit Unit ι → Prop
  | .start _ p => ∃ o : Operation, p = o.code
  | .kill _ => False
  | _ => True

/-- A row is stored where the row that was read still has its shares and is not deleted.  After
the launch, shares are changed while the row says running, or without a machine.  A reload
succeeds, after the first boot and after no later one, and what is written can be printed. -/
def Careful (H : Host) (s : State ι) : Move sig Unit Unit ι → Prop
  | .call _ (.put base _ why) _ => (∃ row, s.stored = some row ∧ row.shares = base.shares) ∧
      ∀ change, why = .share change →
        base.status = .running ∨ s.machine = none ∨ s.launch ≠ .done
  | .call _ .boot _ => ∀ m, s.machine = some m → H.Printable m.source
  | .call _ (.reload n shares) a => ∀ m, s.machine = some m →
      m.booted = true ∧ s.written ≤ n ∧ a = .ok () ∧ H.Printable shares
  | _ => True

/-- The server as it was created, with its shares; its launch is to begin. -/
def State.created (nfs : Row) : State ι := ⟨some nfs, none, .waiting nfs, [], fun _ => [], [], [], 0, false⟩

/-- The new row of a server. -/
def newServer (shares : List Share) : Row := ⟨.pending, "", 0, "", shares⟩

/-- No thread is to begin, and the machine has booted. -/
def State.Settled (s : State ι) : Prop :=
  s.jobs = [] ∧ (∀ nfs, s.launch ≠ .waiting nfs) ∧ ∀ m, s.machine = some m → m.booted = true

end Nfs
end CloudCore
