import CloudCore.Effect.Pool
import CloudCore.Effect.Sequential
import CloudCore.Python.Json
import CloudCore.Python.Text

/-!
# The terminal service

`_terminal_handler` and `_preview_conn_handler` of `sandbox_terminal.py`, with the part of
`microvm.py` they use.  The handlers are coroutines on one event loop: a handler moves while
the others are at an `await`.  What runs in the executor goes on while its handler waits, and
also when the handler is cancelled.

## Main definitions

* `terminalHandler`, `previewHandler` — the handlers.
* `State` — the maps under the lock, the VMs and the address pool.
* `exec` — what the commands do.
* `Cooperative` — a handler moves while the others wait.
-/

namespace CloudCore
namespace Terminal

open Effect Python
open Effect.Program (attempt tryFinally)

/-! ### The data -/

/-- What an `await` raises, as far as the handlers tell it apart. -/
inductive Failure where
  | exception
  | cancelled
  | bootError
  | capacityError
  deriving DecidableEq

/-- What is sent to a browser. -/
inductive Note where
  | full
  | cantOpen (error : Json)
  | booting
  | opening
  | labFull
  | bootFailed
  | noShell
  | connected

/-- A terminal connection: the browser's address, the `X-Forwarded-For` lines that reach the
service, the peer, and the query. -/
structure Request where
  address : String
  forwarded : List String
  peer : String
  lab : String
  token : String

/-- A preview connection: the browser's address, the lines of the head, the peer and the port. -/
structure Visit where
  address : String
  head : List (List Char)
  peer : String
  port : ℤ

/-- What answers at an address of the sandbox bridge: a VM of this service, or a lab machine. -/
inductive Machine where
  | own (vm : ℕ)
  | lab (id : String)
  deriving DecidableEq

/-- A `MicroVM`; a lab machine that is attached is not `owned`.  `booting` and `tearing` are the
jobs that run, `down` is the end of a teardown. -/
structure Vm (ι : Type) where
  owned : Bool
  client : String
  owner : Option ι
  lab : String
  ip : Json
  booting : Bool
  live : Bool
  tearing : Bool
  down : Bool

/-- The session of a handler that was admitted: its client, its VM, and whether it is counted. -/
structure Entry where
  ip : String
  vm : Option ℕ
  counted : Bool
  deriving DecidableEq

/-- `_client_lock`, `_client_active` and `_client_vm`; the VMs and the addresses in use; the lab
machines there are.  Then the sessions, and which handlers were admitted. -/
structure State (ι : Type) where
  holder : Option ι
  active : String → Option ℤ
  clientVm : String → Option ℕ
  vms : ℕ → Vm ι
  nextVm : ℕ
  inUse : List String
  labs : List (String × String)
  entry : ι → Option Entry
  admitted : ι → Option String

/-- `TERMINAL_MAX_CONCURRENT`, and the addresses of the pool. -/
structure Settings where
  maxConcurrent : ℤ
  pool : List String

/-! ### The commands -/

inductive Cmd where
  | acquire
  | release
  /-- `_client_active.get(ip)`. -/
  | getActive (ip : String)
  | setActive (ip : String) (n : ℤ)
  /-- `_client_vm.get(ip)`. -/
  | getVm (ip : String)
  | setVm (ip : String) (vm : ℕ)
  | delVm (ip : String)
  /-- `websocket.send`. -/
  | send (note : Note)
  /-- `_lab_attach_info`. -/
  | attachInfo (lab token : String)
  /-- `float(...)`. -/
  | float (v : Json)
  /-- `MicroVM(...)`, for a browser. -/
  | make (address : String)
  /-- `MicroVM.attached`. -/
  | attach (address lab : String) (ip : Json)
  /-- `vm.boot` is submitted. -/
  | startBoot (vm : ℕ)
  /-- It has ended. -/
  | booted (vm : ℕ)
  /-- `_ssh_shell`. -/
  | shell (vm : ℕ)
  /-- The session, from the connected message to its end. -/
  | serve
  /-- `vm.teardown` is submitted. -/
  | startTeardown (vm : ℕ)
  /-- It has ended. -/
  | toreDown (vm : ℕ)
  | readHead
  /-- `vm.ip`. -/
  | vmIp (vm : ℕ)
  /-- `open_connection`, for a browser that was found to be the client of `vm`. -/
  | connect (address : String) (vm : ℕ) (host : Json) (port : ℤ)
  /-- An answer to the browser, and the end. -/
  | reply
  /-- The two pumps. -/
  | splice
  /-- Something else on the host takes a step. -/
  | tick

@[reducible] def Cmd.Ans : Cmd → Type
  | .acquire | .release | .setActive .. | .setVm .. | .delVm _ => Unit
  | .getActive _ => Option ℤ
  | .getVm _ => Option ℕ
  | .send _ | .float _ | .booted _ | .shell _ | .serve | .toreDown _ => Except Failure Unit
  | .readHead | .reply | .splice => Except Failure Unit
  | .attachInfo .. => Except Failure Json
  | .make _ | .attach .. => ℕ
  | .startBoot _ | .startTeardown _ | .tick => Unit
  | .vmIp _ => Json
  | .connect .. => Except Failure (Option Machine)

abbrev sig : Signature := ⟨Cmd, Cmd.Ans⟩

abbrev Code (α : Type) := Program sig Failure α

/-- The commands a handler waits for. -/
def Cmd.Awaits : Cmd → Prop
  | .send _ | .attachInfo .. | .booted _ | .shell _ | .serve | .toreDown _ => True
  | .readHead | .connect .. | .reply | .splice | .tick => True
  | _ => False

instance : DecidablePred Cmd.Awaits := fun c => by
  cases c <;> first | exact .isTrue trivial | exact .isFalse not_false

def step {α : Type} (c : Cmd) (h : c.Ans = α) : Code α := h ▸ Program.perform (F := sig) c

def tryStep {α : Type} (c : Cmd) (h : c.Ans = Except Failure α) : Code α :=
  attempt (F := sig) c h

/-! ### The handlers -/

/-- `value.split(",")[0].strip()`. -/
def firstElement (value : List Char) : String :=
  .ofList (stripBy isSpace (value.takeWhile (· ≠ ',')))

/-- `_client_ip`; a header that comes twice is an error of its own. -/
def clientIp (req : Request) : Code String :=
  match req.forwarded with
  | [] => pure req.peer
  | [xff] => if xff = "" then pure req.peer else pure (firstElement xff.toList)
  | _ => throw .exception

/-- `with _client_lock`. -/
def withLock {α : Type} (body : Code α) : Code α := do
  let () ← step .acquire rfl
  tryFinally body (step .release rfl)

def send (note : Note) : Code Unit :=
  tryCatch (tryStep (.send note) rfl) fun e => if e = .cancelled then throw e else pure ()

/-- `_client_active[ip] = max(0, _client_active.get(ip, 1) - 1)`. -/
def lower (ip : String) : Code Unit := do
  let n : Option ℤ ← step (.getActive ip) rfl
  step (.setActive ip (max 0 (n.getD 1 - 1))) rfl

/-- The first region under the lock; whether the handler goes on. -/
def enter (cfg : Settings) (ip : String) : Code Bool :=
  withLock do
    let active : Option ℤ ← step (.getActive ip) rfl
    if active.getD 0 ≥ cfg.maxConcurrent then do
      let () ← send .full
      pure false
    else do
      let () ← step (.setActive ip (active.getD 0 + 1)) rfl
      pure true

/-- What is made of the answer of the lab service. -/
def openAttached (req : Request) (ip : String) (info : Json) : Code (Option ℕ) :=
  match info.get? "session_id" with
  | none => do
    let () ← send (.cantOpen ((info.get? "error").getD (.str "unknown")))
    let () ← withLock (lower ip)
    pure none
  | some (.str session) => do
    let vm : ℕ ← step (.attach req.address session ((info.get? "ip").getD (.str ""))) rfl
    let () ← tryStep (.float ((info.get? "expires_at").getD (.int 0))) rfl
    pure (some vm)
  | some _ => throw .exception

/-- The lab machine that is attached, if it can be opened. -/
def openLab (req : Request) (ip lab : String) : Code (Option ℕ) := do
  let info : Json ← tryStep (.attachInfo lab req.token) rfl
  match info with
  | .obj fields => openAttached req ip (.obj fields)
  | _ => throw .exception

/-- `vm.boot`, and what is made of its errors; whether it went well. -/
def bootVm (vm : ℕ) : Code Bool := do
  let () ← send .booting
  let () ← step (.startBoot vm) rfl
  tryCatch (do
      let () ← tryStep (.booted vm) rfl
      pure true)
    fun e =>
      match e with
      | .capacityError => do
        let () ← send .labFull
        pure false
      | .bootError => do
        let () ← send .bootFailed
        pure false
      | e => throw e

/-- The shell on the VM; whether there is one. -/
def openShell (vm : ℕ) : Code Bool :=
  tryCatch (do
      let () ← tryStep (.shell vm) rfl
      pure true)
    fun e =>
      if e = .cancelled then throw e
      else do
        let () ← send .noShell
        pure false

/-- The session on a VM that is up. -/
def connect (vm : ℕ) (ip : String) : Code Unit := do
  let ready ← openShell vm
  if ready then do
    let () ← withLock (step (.setVm ip vm) rfl)
    let () ← send .connected
    tryStep .serve rfl
  else pure ()

/-- The outer `try`. -/
def session (owned : Bool) (vm : ℕ) (ip : String) : Code Unit :=
  if owned then do
    let up ← bootVm vm
    if up then connect vm ip else pure ()
  else do
    let () ← send .opening
    connect vm ip

/-- The last region under the lock. -/
def forget (vm : ℕ) (ip : String) : Code Unit :=
  withLock do
    let () ← lower ip
    let v : Option ℕ ← step (.getVm ip) rfl
    if v = some vm then step (.delVm ip) rfl else pure ()

/-- Its `finally`. -/
def cleanUp (owned : Bool) (vm : ℕ) (ip : String) : Code Unit :=
  if owned then do
    let () ← step (.startTeardown vm) rfl
    let () ← tryStep (.toreDown vm) rfl
    forget vm ip
  else forget vm ip

def labId (lab : String) : String :=
  .ofList ((lab.toList.filter fun c => "0123456789abcdef".toList.contains c).take 12)

def terminalHandler (cfg : Settings) (req : Request) : Code Unit := do
  let ip ← clientIp req
  let entered ← enter cfg ip
  if entered then
    if labId req.lab = "" then do
      let vm : ℕ ← step (.make req.address) rfl
      tryFinally (session true vm ip) (cleanUp true vm ip)
    else do
      let vm ← openLab req ip (labId req.lab)
      match vm with
      | some vm => tryFinally (session false vm ip) (cleanUp false vm ip)
      | none => pure ()
  else pure ()

/-- `line.lower().startswith(b"x-forwarded-for:")`. -/
def isForwarded (line : List Char) : Bool :=
  "x-forwarded-for:".toList.isPrefixOf (line.map Char.toLower)

/-- What follows the header's name. -/
def forwardedValue (line : List Char) : List Char := (line.dropWhile (· ≠ ':')).drop 1

def extractXff (head : List (List Char)) : Option String :=
  match head.find? isForwarded with
  | some line =>
    let ip := firstElement (stripBy isSpace (forwardedValue line))
    if ip = "" then none else some ip
  | none => none

/-- `request_line.startswith(b"GET /health ")`. -/
def isHealthCheck (head : List (List Char)) : Bool :=
  "GET /health ".toList.isPrefixOf (head.headD [])

/-- The connection to the VM that was found. -/
def forward (visit : Visit) (vm : ℕ) : Code Unit := do
  let host : Json ← step (.vmIp vm) rfl
  if !host.truthy then tryStep .reply rfl
  else do
    let up ← tryCatch (do
        let _ : Option Machine ← tryStep (.connect visit.address vm host visit.port) rfl
        pure true)
      fun e =>
        if e = .cancelled then throw e
        else do
          let () ← tryStep .reply rfl
          pure false
    if up then tryStep .splice rfl else pure ()

/-- `_preview_conn_handler`. -/
def previewHandler (visit : Visit) : Code Unit := do
  let read ← tryCatch (do
      let () ← tryStep .readHead rfl
      pure true)
    fun e => if e = .cancelled then throw e else pure false
  if read then
    if isHealthCheck visit.head then tryStep .reply rfl
    else do
      let vm : Option ℕ ← withLock (step (.getVm ((extractXff visit.head).getD visit.peer)) rfl)
      match vm with
      | none => tryStep .reply rfl
      | some vm => forward visit vm
  else pure ()

/-! ### What the commands do -/

section Semantics

variable {ι : Type}

/-- What the jobs of a VM do to it and to the addresses in use. -/
inductive VmTick (pool : List String) : Vm ι → List String → Vm ι → List String → Prop where
  /-- The boot takes the first free address. -/
  | alloc {v : Vm ι} {inUse : List String} {a : String} (hbooting : v.booting = true)
      (hip : v.ip = .null) (ha : pool.find? (fun a => a ∉ inUse) = some a) :
      VmTick pool v inUse { v with ip := .str a } (a :: inUse)
  /-- The VM runs. -/
  | up {v : Vm ι} {inUse : List String} {a : String} (hbooting : v.booting = true)
      (hip : v.ip = .str a) : VmTick pool v inUse { v with live := true } inUse
  /-- The boot has ended, one way or the other. -/
  | booted {v : Vm ι} {inUse : List String} (hbooting : v.booting = true) :
      VmTick pool v inUse { v with booting := false } inUse
  /-- The VM stops, by itself or by a teardown. -/
  | stop {v : Vm ι} {inUse : List String} : VmTick pool v inUse { v with live := false } inUse
  /-- The teardown has ended, with the address. -/
  | toreDown {v : Vm ι} {inUse : List String} (htearing : v.tearing = true) :
      VmTick pool v inUse { v with tearing := false, live := false, down := true }
        (inUse.filter fun a => !v.ip.eq (.str a))
  /-- The teardown has failed. -/
  | failed {v : Vm ι} {inUse : List String} (htearing : v.tearing = true) :
      VmTick pool v inUse { v with tearing := false } inUse

/-- Lab machines have addresses of their own, which are not of this pool. -/
def LabsOk (pool : List String) (labs : List (String × String)) : Prop :=
  (labs.map Prod.snd).Nodup ∧ ∀ lab ∈ labs, lab.2 ∉ pool

/-- A step of the executor, or of the service that keeps the lab machines. -/
inductive Tick (pool : List String) : State ι → State ι → Prop where
  | vm {s : State ι} {r : ℕ} {v : Vm ι} {inUse : List String} (hr : r < s.nextVm)
      (h : VmTick pool (s.vms r) s.inUse v inUse) :
      Tick pool s { s with vms := Function.update s.vms r v, inUse := inUse }
  | labs {s : State ι} {labs : List (String × String)} (h : LabsOk pool labs) :
      Tick pool s { s with labs := labs }

/-- What answers at an address. -/
def State.Answers (s : State ι) (address : String) : Machine → Prop
  | .own r => r < s.nextVm ∧ (s.vms r).owned = true ∧ (s.vms r).live = true ∧
      (s.vms r).ip = .str address
  | .lab id => (id, address) ∈ s.labs

variable [DecidableEq ι]

/-- A `MicroVM` is made by the handler `i`. -/
def State.create (s : State ι) (i : ι) (owned : Bool) (client lab : String) (ip : Json) : State ι :=
  { s with
    vms := Function.update s.vms s.nextVm ⟨owned, client, some i, lab, ip, false, false, false, false⟩
    nextVm := s.nextVm + 1
    entry := Function.update s.entry i ((s.entry i).map fun e => { e with vm := some s.nextVm }) }

/-- The count of a client is set; the handler is admitted by that, or not counted any more. -/
def State.setActive (s : State ι) (i : ι) (ip : String) (n : ℤ) : State ι :=
  match s.entry i with
  | none =>
    { s with
      active := Function.update s.active ip (some n)
      entry := Function.update s.entry i (some ⟨ip, none, true⟩)
      admitted := Function.update s.admitted i (some ip) }
  | some e =>
    { s with
      active := Function.update s.active ip (some n)
      entry := Function.update s.entry i (some { e with counted := false }) }

/-- The lock is released; a session that is not counted any more is over. -/
def State.release (s : State ι) (i : ι) : State ι :=
  { s with
    holder := none
    entry := Function.update s.entry i ((s.entry i).filter (·.counted)) }

def State.setVm (s : State ι) (r : ℕ) (v : Vm ι) : State ι :=
  { s with vms := Function.update s.vms r v }

def exec (cfg : Settings) (i : ι) (s : State ι) : (c : Cmd) → c.Ans → State ι → Prop
  | .acquire, (), s' => s.holder = none ∧ s' = { s with holder := some i }
  | .release, (), s' => s' = s.release i
  | .getActive ip, n, s' => n = s.active ip ∧ s' = s
  | .setActive ip n, (), s' => s' = s.setActive i ip n
  | .getVm ip, v, s' => v = s.clientVm ip ∧ s' = s
  | .setVm ip v, (), s' => s' = { s with clientVm := Function.update s.clientVm ip (some v) }
  | .delVm ip, (), s' => s' = { s with clientVm := Function.update s.clientVm ip none }
  | .make address, r, s' => r = s.nextVm ∧ s' = s.create i true address "" .null
  | .attach address lab ip, r, s' => r = s.nextVm ∧ s' = s.create i false address lab ip
  | .startBoot r, (), s' => s' = s.setVm r { s.vms r with booting := true }
  | .booted r, a, s' => (a = .error .cancelled ∨ (s.vms r).booting = false) ∧ s' = s
  | .startTeardown r, (), s' => s' = s.setVm r { s.vms r with tearing := true }
  | .toreDown r, a, s' => (a = .error .cancelled ∨ (s.vms r).tearing = false) ∧
      (a = .ok () → (s.vms r).down = true) ∧ s' = s
  | .vmIp r, ip, s' => ip = (s.vms r).ip ∧ s' = s
  | .connect _ _ host _, .ok (some m), s' => (∃ address, host = .str address ∧ s.Answers address m) ∧
      s' = s
  | .tick, (), s' => Tick cfg.pool s s'
  | _, _, s' => s' = s

/-- The service has started; nothing is in use. -/
def State.init (labs : List (String × String)) : State ι where
  holder := none
  active _ := none
  clientVm _ := none
  vms _ := ⟨false, "", none, "", .null, false, false, false, false⟩
  nextVm := 0
  inUse := []
  labs := labs
  entry _ := none
  admitted _ := none

/-! ### The event loop -/

/-- Between two programs, or at an `await`. -/
def Waits : Option (Code Unit) → Prop
  | none => True
  | some (.call c _) => c.Awaits
  | some _ => False

instance (t : Option (Code Unit)) : Decidable (Waits t) :=
  match t with
  | none => .isTrue trivial
  | some (.call c _) => inferInstanceAs (Decidable c.Awaits)
  | some (.ret _) => .isFalse not_false
  | some (.raise _) => .isFalse not_false

/-- Who makes a move. -/
def mover : Move sig Failure Unit ι → ι
  | .start i _ | .call i _ _ | .finish i _ | .kill i => i

/-- **A handler moves while the others wait.** -/
def Cooperative (x : Config sig Failure Unit ι (State ι)) (m : Move sig Failure Unit ι) : Prop :=
  ∀ j, j ≠ mover m → Waits (x.thread j)

/-- A handler runs a terminal connection, a preview connection, or something else takes a step.
Handlers are not stopped from outside, and have names of their own. -/
def Starts (cfg : Settings) (R : Request → Prop) (V : Visit → Prop)
    (x : Config sig Failure Unit ι (State ι)) : Move sig Failure Unit ι → Prop
  | .start i p => x.shared.admitted i = none ∧
      ((∃ req, R req ∧ p = terminalHandler cfg req) ∨ (∃ visit, V visit ∧ p = previewHandler visit) ∨
        p = step .tick rfl)
  | .kill _ => False
  | _ => True

/-- Connections from anywhere, on one event loop. -/
def Served (cfg : Settings) (x : Config sig Failure Unit ι (State ι))
    (m : Move sig Failure Unit ι) : Prop :=
  Starts cfg (fun _ => True) (fun _ => True) x m ∧ Cooperative x m

end Semantics

/-! ### A service that answers -/

section Answers

variable {ι : Type}

/-- The first job that is under way takes its next step, without a failure. -/
def State.work (pool : List String) (s : State ι) : Option (State ι) :=
  match (List.range s.nextVm).find? fun r => (s.vms r).booting || (s.vms r).tearing with
  | none => none
  | some r =>
    let v := s.vms r
    if v.booting then
      match v.ip with
      | .null => (pool.find? fun a => a ∉ s.inUse).map fun a => { s with
          vms := Function.update s.vms r { v with ip := .str a }
          inUse := a :: s.inUse }
      | .str _ =>
        some (s.setVm r (if v.live then { v with booting := false } else { v with live := true }))
      | _ => none
    else some { s with
      vms := Function.update s.vms r { v with tearing := false, live := false, down := true }
      inUse := s.inUse.filter fun a => !v.ip.eq (.str a) }

theorem tick_of_work {pool : List String} {s s' : State ι} (h : s.work pool = some s') :
    Tick pool s s' := by
  unfold State.work at h
  split at h
  · cases h
  next r hfind =>
    have hr := List.mem_range.mp (List.mem_of_find?_eq_some hfind)
    have hjob := List.find?_some hfind
    simp only [Bool.or_eq_true] at hjob
    dsimp only at h
    split at h
    next hbooting =>
      split at h
      next hip =>
        obtain ⟨a, ha, rfl⟩ := Option.map_eq_some_iff.mp h
        exact .vm hr (.alloc hbooting hip ha)
      next a hip =>
        obtain rfl := Option.some.inj h
        split
        · exact .vm hr (.booted hbooting)
        · exact .vm hr (.up hbooting hip)
      next => cases h
    next hbooting =>
      obtain rfl := Option.some.inj h
      exact .vm hr (.toreDown (hjob.resolve_left hbooting))

variable [DecidableEq ι]

/-- The answers to the handlers, with that of the lab service, where nothing fails; there is nothing to
connect to. -/
def respond (cfg : Settings) (info : Except Failure Json) (i : ι) (s : State ι) :
    (c : Cmd) → Option (c.Ans × State ι)
  | .acquire => if s.holder = none then some ((), { s with holder := some i }) else none
  | .release => some ((), s.release i)
  | .getActive ip => some (s.active ip, s)
  | .setActive ip n => some ((), s.setActive i ip n)
  | .getVm ip => some (s.clientVm ip, s)
  | .setVm ip r => some ((), { s with clientVm := Function.update s.clientVm ip (some r) })
  | .delVm ip => some ((), { s with clientVm := Function.update s.clientVm ip none })
  | .attachInfo _ _ => some (info, s)
  | .make address => some (s.nextVm, s.create i true address "" .null)
  | .attach address lab ip => some (s.nextVm, s.create i false address lab ip)
  | .startBoot r => some ((), s.setVm r { s.vms r with booting := true })
  | .booted r => if (s.vms r).booting = false then some (.ok (), s) else none
  | .startTeardown r => some ((), s.setVm r { s.vms r with tearing := true })
  | .toreDown r =>
    if (s.vms r).tearing = false ∧ (s.vms r).down = true then some (.ok (), s) else none
  | .vmIp r => some ((s.vms r).ip, s)
  | .tick => (s.work cfg.pool).map fun s' => ((), s')
  | .send _ | .float _ | .shell _ | .serve | .readHead | .reply | .splice => some (.ok (), s)
  | .connect .. => none

theorem exec_respond {cfg : Settings} {info : Except Failure Json} {i : ι} {s s' : State ι} {c : Cmd}
    {a : c.Ans} (h : respond cfg info i s c = some (a, s')) : exec cfg i s c a s' := by
  cases c with
  | acquire =>
    obtain ⟨hholder, ⟨⟩⟩ := Option.ite_none_right_eq_some.mp h
    exact ⟨hholder, rfl⟩
  | booted r =>
    obtain ⟨hbooting, ⟨⟩⟩ := Option.ite_none_right_eq_some.mp h
    exact ⟨.inr hbooting, rfl⟩
  | toreDown r =>
    obtain ⟨⟨htearing, hdown⟩, ⟨⟩⟩ := Option.ite_none_right_eq_some.mp h
    exact ⟨.inr htearing, fun _ => hdown, rfl⟩
  | tick =>
    obtain ⟨s'', hs, ⟨⟩⟩ := Option.map_eq_some_iff.mp h
    exact tick_of_work hs
  | getActive | getVm | make | attach | vmIp =>
    cases h
    exact ⟨rfl, rfl⟩
  | connect => cases h
  | _ =>
    cases h
    exact rfl

/-- Who takes a turn. -/
def taker : Turn sig Failure Unit ι → ι
  | .start i _ | .go i => i

/-- Three handlers. -/
inductive Handler
  | one
  | two
  | three
deriving DecidableEq

instance {p : Handler → Prop} [DecidablePred p] : Decidable (∀ i, p i) :=
  decidable_of_iff (p .one ∧ p .two ∧ p .three)
    ⟨fun ⟨h₁, h₂, h₃⟩ i => by cases i <;> assumption, fun h => ⟨h _, h _, h _⟩⟩

/-- A step of the executor. -/
def tick : Code Unit := step .tick rfl

/-- The turns of an event loop of three handlers. -/
def inTurn (x : Config sig Failure Unit Handler (State Handler)) : Turn sig Failure Unit Handler → Bool
  | .start i _ => decide (x.shared.admitted i = none ∧ ∀ j, j ≠ i → Waits (x.thread j))
  | .go i => decide (∀ j, j ≠ i → Waits (x.thread j))

variable {cfg : Settings} {info : Except Failure Json} {R : Request → Prop} {V : Visit → Prop}
  {check : Config sig Failure Unit Handler (State Handler) → Turn sig Failure Unit Handler → Bool}
  {ok : Config sig Failure Unit Handler (State Handler) → Move sig Failure Unit Handler → Prop}

/-- **A schedule of handlers that take turns is a run.** -/
theorem reaches_of_turns (hcheck : ∀ x t, check x t = true → inTurn x t = true)
    (hcall : ∀ x i c a s, check x (.go i) = true → respond cfg info i x.shared c = some (a, s) →
      ok x (.call i c a))
    (hfinish : ∀ x i r, check x (.go i) = true → ok x (.finish i r))
    (hbegin : ∀ x i p, check x (.start i p) = true → ok x (.start i p))
    {l : List (Turn sig Failure Unit Handler)}
    (hl : ∀ i p, Turn.start i p ∈ l → (∃ req, R req ∧ p = terminalHandler cfg req) ∨
      (∃ visit, V visit ∧ p = previewHandler visit) ∨ p = step .tick rfl)
    {x y : Config sig Failure Unit Handler (State Handler)}
    (hx : Config.playIf (respond cfg info) check l x = some y) :
    Reaches (exec cfg) (fun x m => (Starts cfg R V x m ∧ Cooperative x m) ∧ ok x m) x y := by
  have hwaits (x) (i : Handler) (h : inTurn x (.go i) = true) : ∀ j, j ≠ i → Waits (x.thread j) :=
    of_decide_eq_true h
  refine reaches_of_playIf (fun i x c a s hturn h => ?_) (fun i x r hturn => ?_)
    (fun i p hp x hturn => ?_) hx
  · exact ⟨exec_respond h, ⟨trivial, hwaits x i (hcheck x _ hturn)⟩, hcall x i c a s hturn h⟩
  · exact ⟨⟨trivial, hwaits x i (hcheck x _ hturn)⟩, hfinish x i r hturn⟩
  · obtain ⟨hadmitted, hwaits⟩ := of_decide_eq_true (hcheck x _ hturn)
    exact ⟨⟨⟨hadmitted, hl i p hp⟩, hwaits⟩, hbegin x i p hturn⟩

end Answers

end Terminal
end CloudCore
