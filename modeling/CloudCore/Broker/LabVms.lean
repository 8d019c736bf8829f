import CloudCore.Db.Column
import CloudCore.Effect.Pool
import CloudCore.Python.Isoformat

/-!
# The lab-VM broker

`api/lab_vm_broker.py`: the `lab_vms` table, the handlers that create, list, touch
and delete lab VMs, and the reaper.  The broker creates its machines with calls
to CloudCore's own API; what those answer is up to the surroundings.

## Main definitions

* `LabVm` — a row of the table.
* `Cmd` — the statements, remote calls and readings of the broker.
* `createLabVm`, `touchLabVm`, `deleteLabVm`, `reapOnce` — the operations.
* `exec` — what the commands do.

## Main results

* `exec_reads` — reading changes nothing; `reads_describe` and the lemmas after it say
  which parts of the handlers only read.
-/

namespace CloudCore
namespace Broker

open Python Db Effect

/-! ### The table -/

/-- The keys of `PURPOSES`. -/
inductive Purpose where
  | proofTarget
  | proofProber
  | student
  | lfsBuild
  deriving DecidableEq

def Purpose.text : Purpose → String
  | .proofTarget => "proof-target"
  | .proofProber => "proof-prober"
  | .student => "student"
  | .lfsBuild => "lfs-build"

/-- `purpose.split('-')[-1]`. -/
def Purpose.last : Purpose → String
  | .proofTarget => "target"
  | .proofProber => "prober"
  | .student => "student"
  | .lfsBuild => "build"

def Purpose.all : List Purpose := [.proofTarget, .proofProber, .student, .lfsBuild]

/-- A row of `lab_vms`; its key may be `NULL`, as SQLite allows for a text key. -/
structure LabVm where
  id : Option String
  name : String
  purpose : Purpose
  runId : String
  hostId : Option String
  flavor : String
  createdAt : String
  expiresAt : String
  idleMinutes : Option ℕ
  lastTouchAt : String
  deletedAt : Option String := none
  deleteReason : Option String := none
  deriving DecidableEq

/-! ### Commands -/

/-- What the broker raises. -/
inductive Failure where
  /-- `URLError`, `TimeoutError` and the other failures of a connection. -/
  | url
  | runtime (message : String)
  | value
  | attribute
  | key
  | type
  | overflow
  /-- The statement raised. -/
  | sqlite
  deriving DecidableEq

inductive Verb where
  | get
  | post
  | delete
  deriving DecidableEq

/-- The paths of CloudCore's API that the broker calls. -/
inductive Path where
  /-- `/v1/system/stats`. -/
  | stats
  /-- `/v1/peers/{peer_id}/stats`. -/
  | peerStats (peer : String)
  /-- `/v1/vpcs`. -/
  | vpcs
  /-- `/v1/peers/{peer_id}/vpcs`. -/
  | peerVpcs (peer : String)
  /-- `/v1/subnets`. -/
  | subnets
  /-- `/v1/subnets?vpc_id={vpc_id}`. -/
  | subnetsOf (vpcId : String)
  /-- `/v1/peers/{peer_id}/subnets`. -/
  | peerSubnets (peer : String)
  /-- `/v1/instances`. -/
  | instances
  /-- `/v1/instances/{vm_id}`. -/
  | inst (id : String)
  deriving DecidableEq

/-- The bytes of an answer. -/
inductive Body where
  | empty
  | json (value : Json)
  /-- Anything `json.loads` refuses. -/
  | text (s : String)

/-- What `urlopen` does. -/
inductive Response where
  | ok (status : ℕ) (body : Body)
  /-- `HTTPError`. -/
  | httpError (status : ℕ) (body : Body)
  /-- The call timed out, or the connection was refused or dropped. -/
  | raised

/-- The steps of the broker. -/
inductive Cmd where
  /-- `_lock.acquire()`. -/
  | lockAcquire
  /-- `_lock.release()`. -/
  | lockRelease
  | now
  /-- `uuid.uuid4().hex`. -/
  | uuid
  /-- `_caller_host`, which reads the peers. -/
  | callerHost (ip : String)
  /-- `urlopen` of CloudCore's own API. -/
  | api (method : Verb) (path : Path) (body : Option Json)
  /-- `_labnet(host_id, "unpair", ip)`. -/
  | unpair (host : Option String) (ip : Json)
  /-- `SELECT * FROM lab_vms WHERE deleted_at IS NULL`. -/
  | active
  /-- `SELECT * FROM lab_vms WHERE id = ?`. -/
  | find (id : Option String)
  /-- `INSERT INTO lab_vms` and `commit`. -/
  | insert (row : LabVm)
  /-- `UPDATE lab_vms SET last_touch_at = ? WHERE id = ?` and `commit`. -/
  | touch (id : String) (now : String)
  /-- `UPDATE lab_vms SET deleted_at = ?, delete_reason = ? WHERE id = ? AND
  deleted_at IS NULL` and `commit`. -/
  | setDeleted (id : Option String) (now reason : String)

/-- What a step answers. -/
def Cmd.Ans : Cmd → Type
  | .lockAcquire | .lockRelease => Unit
  | .now => DateTime
  | .uuid => String
  -- `""` for this host, a peer's id, or nothing
  | .callerHost _ => Except Failure (Option String)
  | .api .. => Response
  | .unpair .. => Except Failure Bool
  | .active => List LabVm
  | .find _ => Option LabVm
  | .insert _ | .touch .. | .setDeleted .. => Except Failure Unit

def sig : Signature := ⟨Cmd, Cmd.Ans⟩

/-- The code of the broker. -/
abbrev Code (α : Type) := Program sig Failure α

def perform (c : Cmd) : Code c.Ans := Program.perform (F := sig) c

/-- A step that may raise. -/
def attempt {α : Type} (c : Cmd) (h : c.Ans = Except Failure α) : Code α := do
  let r ← perform c
  Program.lift (h ▸ r)

/-- `with _lock:`. -/
def withLock {α : Type} (p : Code α) : Code α := do
  let () ← perform .lockAcquire
  p.tryFinally (perform .lockRelease)

/-! ### Reading JSON -/

/-- What the broker uses of the surroundings that is not a step of it. -/
structure Platform where
  /-- `str` of a value that is not a string. -/
  str : Json → String
  /-- SQLite's rendering of a double. -/
  renderReal : Double → String
  /-- `\w`. -/
  isWord : Char → Bool
  /-- `capacity_gate.affords`. -/
  affords : Json → String → Except Failure Bool

/-- A platform for examples. -/
def plainPlatform : Platform where
  str _ := ""
  renderReal _ := ""
  isWord _ := true
  affords _ _ := .ok true

variable (pf : Platform)

/-- `str(value)`. -/
def Platform.text : Json → String
  | .str s => s
  | v => pf.str v

/-- `value.get(key)`. -/
def getKey (v : Json) (key : String) : Except Failure Json :=
  match v with
  | .obj _ => .ok ((v.get? key).getD .null)
  | _ => .error .attribute

/-- `value[key]`. -/
def itemAt (v : Json) (key : String) : Except Failure Json :=
  match v with
  | .obj _ =>
    match v.get? key with
    | some w => .ok w
    | none => .error .key
  | _ => .error .type

/-- `value or ""`. -/
def orEmpty (v : Json) : Json := if v.truthy then v else .str ""

/-- `next((v for v in values if test(v)), None)`. -/
def firstWhere (test : Json → Except Failure Bool) : List Json → Except Failure (Option Json)
  | [] => .ok none
  | v :: l => do
    if ← test v then .ok (some v) else firstWhere test l

/-- `_items`, and the list a loop over it runs through. -/
def items (payload : Json) : Except Failure (List Json) :=
  match payload with
  | .obj _ =>
    match ((payload.get? "items").getD (.arr [])).iter with
    | some l => .ok l
    | none => .error .type
  | _ => .ok []

/-! ### CloudCore's API -/

/-- What `_call` makes of what `urlopen` does. -/
def readResponse : Response → Except Failure (ℕ × Json)
  | .raised => .error .url
  | .ok status .empty => .ok (status, .obj [])
  | .ok status (.json v) => .ok (status, v)
  | .ok _ (.text _) => .error .value
  | .httpError status .empty => .ok (status, .obj [])
  | .httpError status (.json v) => .ok (status, v)
  | .httpError status (.text s) =>
    .ok (status, .obj [("detail", .str (.ofList (s.toList.take 300)))])

def call (method : Verb) (path : Path) (body : Option Json) : Code (ℕ × Json) := do
  let resp ← perform (.api method path body)
  Program.lift (readResponse resp)

def labVpc : String := "lab-vms"

def labVpcCidr : String := "10.250.0.0/16"

def labSubnet : String := "lab-vms-a"

def labSubnetCidr : String := "10.250.0.0/24"

/-- The tags of the lab VPC and subnet. -/
def networkTags : Json :=
  .obj [("Project", .str "llm-chat"), ("ManagedBy", .str "lab-vm-broker"),
    ("Environment", .str "lab")]

/-- `body["peer_id"] = peer_id`, on a peer. -/
def onPeer (peer : Option String) (fields : List (String × Json)) : Json :=
  .obj (fields ++ (peer.map fun p => ("peer_id", Json.str p)).toList)

/-- A resource found by name, or made by `POST`; `what` it is, in the error. -/
def findOrCreate (what : String) (list create : Path) (test : Json → Except Failure Bool)
    (body : Json) : Code Json := do
  let (_, payload) ← call .get list none
  let found ← Program.lift (items payload >>= firstWhere test)
  match found with
  | some v => pure v
  | none => do
    let (status, v) ← call .post create (some body)
    if status ∈ [200, 201] then pure v
    else do
      let detail ← Program.lift (getKey v "detail")
      throw (.runtime s!"creating the lab {what} failed ({status}): {pf.text detail}")

def ensureNetwork (peer : Option String) : Code (Json × Json) := do
  let vpc ← findOrCreate pf "VPC" (peer.elim .vpcs .peerVpcs) .vpcs
    (fun v => (getKey v "name").map (·.eq (.str labVpc)))
    (onPeer peer [("name", .str labVpc), ("cidr_block", .str labVpcCidr), ("tags", networkTags)])
  -- the URL of this host's subnets names the VPC
  let vpcId ← Program.lift (itemAt vpc "id")
  let subnet ← findOrCreate pf "subnet"
    (peer.elim (.subnetsOf (pf.text vpcId)) .peerSubnets) .subnets
    (fun s => do
      if (← getKey s "name").eq (.str labSubnet) then pure ((← getKey s "vpc_id").eq vpcId)
      else pure false)
    (onPeer peer [("name", .str labSubnet), ("vpc_id", vpcId), ("cidr_block", .str labSubnetCidr),
      ("tags", networkTags)])
  let subnetId ← Program.lift (itemAt subnet "id")
  pure (vpcId, subnetId)

def hostStats (peer : Option String) : Code Json := do
  let (status, stats) ← call .get (peer.elim .stats .peerStats) none
  if status ≠ 200 then pure (.obj [])
  else
    match stats with
    | .obj _ => pure ((stats.get? "stats").getD stats)
    | _ => pure (.obj [])

/-! ### The machines -/

/-- What `PURPOSES` says of a purpose; durations in microseconds. -/
structure Terms where
  /-- Largest first. -/
  flavors : List String
  maxLife : ℤ
  idle : Option ℤ

def hour : ℤ := 3600000000

def purposes : Purpose → Terms
  | .proofTarget => ⟨["standard.large", "standard.medium"], 2 * hour, none⟩
  | .proofProber => ⟨["standard.small", "standard.nano"], 2 * hour, none⟩
  | .student => ⟨["standard.large", "standard.medium"], 4 * hour, some (hour / 2)⟩
  | .lfsBuild =>
    ⟨["standard.2xlarge", "standard.xlarge", "standard.large"], 30 * 24 * hour, some (72 * hour)⟩

def dataDisks : Purpose → Option String
  | .proofTarget | .student => some "2,2"
  | .proofProber => none
  | .lfsBuild => some "50"

def packages : Purpose → List String
  | .proofTarget | .student => ["pamtester", "oathtool"]
  | .proofProber => ["python3-paramiko", "oathtool", "nfs-common", "dnsutils", "curl"]
  | .lfsBuild =>
    ["build-essential", "bison", "gawk", "texinfo", "m4", "python3", "patch", "xz-utils", "bzip2",
      "gzip", "file", "gdisk", "parted", "dosfstools", "rsync", "wget"]

/-- `_CONTROL_SSHD`, line by line. -/
def controlSshd : List String :=
  ["Port 1022", "ListenAddress 0.0.0.0", "HostKey /etc/ssh/ssh_host_ed25519_key",
    "HostKey /etc/ssh/ssh_host_rsa_key", "PermitRootLogin prohibit-password",
    "PasswordAuthentication no", "KbdInteractiveAuthentication no", "UsePAM no",
    "AllowUsers root student labctl", "PidFile /run/sshd-control.pid",
    "Subsystem sftp /usr/lib/openssh/sftp-server", "X11Forwarding no", "PrintMotd no",
    "SetEnv PATH=/usr/local/sbin:/usr/local/bin:/usr/sbin:/usr/bin:/sbin:/bin"]

/-- `_CONTROL_UNIT`, line by line. -/
def controlUnit : List String :=
  ["[Unit]", "Description=Lab control sshd (port 1022)", "After=network.target", "", "[Service]",
    "ExecStartPre=/bin/mkdir -p /run/sshd",
    "ExecStartPre=/usr/sbin/sshd -t -f /etc/ssh/sshd_config_control",
    "ExecStart=/usr/sbin/sshd -D -f /etc/ssh/sshd_config_control", "Restart=always", "",
    "[Install]", "WantedBy=multi-user.target"]

def userData (purpose : Purpose) (pubkey : String) : String :=
  let block := fun l : List String => l.map ("      " ++ ·)
  "\n".intercalate <|
    ["#cloud-config", "package_update: true", "packages:"] ++
    (packages purpose).map ("  - " ++ ·) ++
    ["write_files:", "  - path: /etc/ssh/sshd_config_control", "    permissions: \"0644\"",
      "    content: |"] ++
    block controlSshd ++
    ["  - path: /etc/systemd/system/sshd-control.service", "    permissions: \"0644\"",
      "    content: |"] ++
    block controlUnit ++
    ["  - path: /root/.ssh/authorized_keys", "    permissions: \"0600\"", "    content: |"] ++
    block [pubkey] ++
    ["runcmd:",
      "  # Not locked (\"!\"): sshd without PAM refuses locked accounts even for keys.",
      "  - usermod -p '*' student", "  - usermod -p '*' labctl",
      "  - echo 'student ALL=(ALL) NOPASSWD:ALL' > /etc/sudoers.d/90-student && chmod 440 /etc/sudoers.d/90-student",
      "  - systemctl daemon-reload", "  - systemctl enable --now sshd-control.service",
      "  # Saved while ufw is inactive, so an answer's \"ufw enable\" keeps it.",
      "  - command -v ufw >/dev/null && ufw allow 1022/tcp comment lab-control || true", ""]

def imageId : String := "ubuntu-22.04"

/-- A user of the machine, with sudo and the caller's key. -/
def user (username pubkey : String) : Json :=
  .obj [("username", .str username), ("sudo", .bool true), ("ssh_keys", .arr [.str pubkey])]

/-- The body of the request that creates the machine. -/
def instanceRequest (purpose : Purpose) (runId pubkey name flavor : String)
    (vpcId subnetId : Json) (peer : Option String) : Json :=
  onPeer peer
    [("name", .str name), ("image_id", .str imageId), ("flavor", .str flavor), ("vpc_id", vpcId),
      ("subnet_id", subnetId),
      ("tags", .obj ([("lab_vm", .str "true"), ("network", .str "lab"),
        ("purpose", .str purpose.text), ("run_id", .str runId), ("ManagedBy", .str "lab-vm-broker"),
        ("Project", .str "llm-chat"), ("Environment", .str "lab")] ++
        ((dataDisks purpose).map fun d => ("data_disks", Json.str d)).toList)),
      ("users", .arr [user "labctl" pubkey, user "student" pubkey]),
      ("user_data", .str (userData purpose pubkey))]

/-! ### Answers -/

/-- A machine as `_describe` shows it: its row, and what CloudCore says of it. -/
structure Described where
  row : LabVm
  status : Json
  ip : Json
  sshUser : Option String := none
  host : Option Json := none
  error : Option Json := none

/-- What a handler answers. -/
inductive Answer where
  | problem (status : ℕ) (title detail : String)
  | vm (status : ℕ) (d : Described)
  | vms (rows : List LabVm)
  | noContent

/-- What `_describe` takes from CloudCore's answer. -/
def describeBody (row : LabVm) (status : ℕ) (inst : Json) : Except Failure Described :=
  if status = 200 then do
    let state ← getKey inst "status"
    let ip ← getKey inst "private_ip"
    let host ← getKey inst "host_hostname"
    let error ← getKey inst "error_message"
    .ok
      { row
        status := state
        ip := orEmpty ip
        sshUser := some "labctl"
        host := some (orEmpty host)
        error := some (orEmpty error) }
  else
    .ok
      { row
        status := .str "unknown"
        ip := .str ""
        error := some (.str s!"CloudCore returned {status}") }

def describe (id : Option String) : Code Described := do
  let row : Option LabVm ← perform (.find id)
  match row with
  | none => throw .attribute
  | some row =>
    if row.deletedAt.isSome then pure { row, status := .str "deleted", ip := .str "" }
    else do
      let (status, inst) ← call .get (.inst (id.getD "None")) none
      Program.lift (describeBody row status inst)

/-! ### Creating -/

/-- `_RUN_ID_RE.match`; the end may stand before a last line feed. -/
def matchesRunId (s : String) : Bool :=
  let l := s.toList
  let l := if l.getLast? = some '\n' then l.dropLast else l
  decide (1 ≤ l.length ∧ l.length ≤ 40) && l.all fun c => c.isAlphanum || c == '_' || c == '-'

/-- `_PUBKEY_RE.match` of a stripped text. -/
def matchesPubkey (s : String) : Bool :=
  let kinds := ["ssh-ed25519", "ecdsa-sha2-nistp256", "ssh-rsa"]
  let key := fun l : List Char => decide (40 ≤ l.length ∧ l.length ≤ 800) &&
    l.all fun c => c.isAlphanum || c == '+' || c == '/' || c == '='
  let comment := fun l : List Char => decide (l.length ≤ 64) &&
    l.all fun c => pf.isWord c || c == '@' || c == '.' || c == ':' || c == '-'
  match s.toList.splitOn ' ' with
  | [kind, data] => kinds.contains (String.ofList kind) && key data
  | [kind, data, note] => kinds.contains (String.ofList kind) && key data && comment note
  | _ => false

/-- What the caller of `create_lab_vm` chooses. -/
structure Wish where
  purpose : Purpose
  runId : String
  pubkey : String

/-- `request.get_json(force=True, silent=True) or {}`. -/
def requestBody : Option Json → Json
  | none => .obj []
  | some v => if v.truthy then v else .obj []

/-- The checks of the request, before anything else. -/
def readWish (body : Option Json) : Except Failure (Answer ⊕ Wish) := do
  let body := requestBody body
  let purpose ← getKey body "purpose"
  let runId := pf.text (orEmpty (← getKey body "run_id"))
  let pubkey := strip (pf.text (orEmpty (← getKey body "public_key")))
  if !purpose.hashable then .error .type
  else
    match Purpose.all.find? fun p => purpose.eq (.str p.text) with
    | none => .ok (.inl (.problem 400 "Bad Request"
        "purpose must be one of ['lfs-build', 'proof-prober', 'proof-target', 'student']"))
    | some purpose =>
      if !matchesRunId runId then
        .ok (.inl (.problem 400 "Bad Request" "run_id: 1-40 letters, digits, '-' or '_'"))
      else if !matchesPubkey pf pubkey then
        .ok (.inl (.problem 400 "Bad Request" "public_key must be one OpenSSH public key line"))
      else .ok (.inr { purpose, runId, pubkey })

def maxActive : ℕ := 6

def maxStudent : ℕ := 2

def maxLfsBuild : ℕ := 1

/-- How many of the rows have a purpose. -/
def ofPurpose (purpose : Purpose) (rows : List LabVm) : ℕ := rows.countP (·.purpose = purpose)

/-- The quotas that creating one more machine would exceed. -/
def refusal (purpose : Purpose) (active : List LabVm) : Option Answer :=
  if maxActive ≤ active.length then
    some (.problem 429 "Too Many Lab VMs"
      s!"{active.length} lab VMs already exist (limit {maxActive})")
  else if purpose = .student ∧ maxStudent ≤ ofPurpose .student active then
    some (.problem 429 "Too Many Lab VMs" s!"{maxStudent} student machines already exist")
  else if purpose = .lfsBuild ∧ maxLfsBuild ≤ ofPurpose .lfsBuild active then
    some (.problem 429 "Too Many Lab VMs" "an LFS build machine already exists")
  else none

/-- The largest of the flavors that the host affords. -/
def firstAfforded (stats : Json) : List String → Except Failure (Option String)
  | [] => .ok none
  | f :: l => do
    if ← pf.affords stats f then .ok (some f) else firstAfforded stats l

/-- `_ensure_network`, with its `RuntimeError` caught. -/
def networkOrProblem (peer : Option String) : Code (Answer ⊕ (Json × Json)) :=
  ((ensureNetwork pf peer) >>= fun ids => pure (.inr ids)).tryCatch fun e =>
    match e with
    | .runtime message => pure (.inl (.problem 502 "Lab Network Unavailable" message))
    | e => throw e

/-- A value bound to the text key of `lab_vms`. -/
def keyColumn (value : Json) : Except Failure (Option String) :=
  match textParameter pf.renderReal value with
  | some id => .ok id
  | none => .error .sqlite

/-- `now + max_life`. -/
def expiry (purpose : Purpose) (now : DateTime) : Except Failure DateTime :=
  match now.add (purposes purpose).maxLife with
  | some t => .ok t
  | none => .error .overflow

/-- The row of a new machine. -/
def newRow (wish : Wish) (id : Option String) (name flavor : String) (peer : Option String)
    (now expires : DateTime) : LabVm where
  id
  name
  purpose := wish.purpose
  runId := wish.runId
  hostId := peer
  flavor
  createdAt := now.isoformat
  expiresAt := expires.isoformat
  idleMinutes := (purposes wish.purpose).idle.map fun i => (i / 60000000).toNat
  lastTouchAt := now.isoformat

/-- What `create_lab_vm` makes of the answer to the creating call; the key of the new row. -/
def recordVm (wish : Wish) (name flavor : String) (peer : Option String) (now : DateTime)
    (resp : Response) : Code (Answer ⊕ Option String) := do
  let (status, inst) ← Program.lift (readResponse resp)
  if status ∉ [200, 201, 202] then do
    let detail ← Program.lift (getKey inst "detail")
    pure (.inl (.problem 502 "Create Failed"
      s!"CloudCore refused the instance ({status}): {pf.text detail}"))
  else do
    -- the arguments of the statement are evaluated in this order
    let id ← Program.lift (itemAt inst "id")
    let expires ← Program.lift (expiry wish.purpose now)
    let key ← Program.lift (keyColumn pf id)
    let () ← attempt (.insert (newRow wish key name flavor peer now expires)) rfl
    pure (.inr key)

/-- From the placement to the row, in `with _lock:`. -/
def place (wish : Wish) (peer : Option String) (flavor : String) :
    Code (Answer ⊕ Option String) := do
  match ← networkOrProblem pf peer with
  | .inl problem => pure (.inl problem)
  | .inr (vpcId, subnetId) => do
    let hex : String ← perform .uuid
    let name := s!"labvm-{wish.purpose.last}-{String.ofList (hex.toList.take 8)}"
    let now : DateTime ← perform .now
    let resp : Response ← perform (.api .post .instances
      (some (instanceRequest wish.purpose wish.runId wish.pubkey name flavor vpcId subnetId peer)))
    recordVm pf wish name flavor peer now resp

/-- What `create_lab_vm` does in `with _lock:`. -/
def createLocked (wish : Wish) (remoteAddr : String) : Code (Answer ⊕ Option String) := do
  let active : List LabVm ← perform .active
  match refusal wish.purpose active with
  | some problem => pure (.inl problem)
  | none => do
    let host : Option String ← attempt (.callerHost remoteAddr) rfl
    match host with
    | none => pure (.inl (.problem 403 "Forbidden" "the caller isn't on a CloudCore host's bridge"))
    | some host => do
      let peer := if host = "" then none else some host
      let stats ← hostStats peer
      let network ← Program.lift (getKey stats "lab_network")
      if !network.truthy then
        pure (.inl (.problem 503 "No Lab Network"
          "the caller's host has no isolated lab network (run api/setup-lab-network.sh there)"))
      else do
        match ← Program.lift (firstAfforded pf stats (purposes wish.purpose).flavors) with
        | none => pure (.inl (.problem 503 "No Capacity"
            "the caller's host can't afford a lab VM right now"))
        | some flavor => place pf wish peer flavor

def createLabVm (body : Option Json) (remoteAddr : String) : Code Answer := do
  match ← Program.lift (readWish pf body) with
  | .inl problem => pure problem
  | .inr wish => do
    match ← withLock (createLocked pf wish remoteAddr) with
    | .inl problem => pure problem
    | .inr id => do
      let d ← describe id
      pure (.vm 202 d)

/-! ### The other handlers -/

def noSuchVm : Answer := .problem 404 "Not Found" "no such lab VM"

def listLabVms (runId : String) : Code Answer := do
  let rows : List LabVm ← perform .active
  pure (.vms (rows.filter fun r => runId = "" || r.runId = runId))

def getLabVm (id : String) : Code Answer := do
  let row : Option LabVm ← perform (.find (some id))
  match row with
  | none => pure noSuchVm
  | some _ => do
    let d ← describe (some id)
    pure (.vm 200 d)

def touchLabVm (id : String) : Code Answer := do
  let row : Option LabVm ← perform (.find (some id))
  if row.all (·.deletedAt.isSome) then pure noSuchVm
  else do
    let now : DateTime ← perform .now
    let () ← attempt (.touch id now.isoformat) rfl
    let d ← describe (some id)
    pure (.vm 200 d)

/-- The address of a machine that is to be deleted. -/
def addressOf (id : Option String) : Option LabVm → Code Json
  | none => pure (.str "")
  | some row =>
    if row.deletedAt.isSome then pure (.str "")
    else do
      let d ← describe id
      pure d.ip

/-- `_delete`: nothing, or why it failed. -/
def delete (id : Option String) (reason : String) : Code (Option String) := do
  let row : Option LabVm ← perform (.find id)
  let ip ← addressOf id row
  -- a failure to unpair is logged only
  if ip.truthy then
    let _ : Bool ← attempt (.unpair (row.bind (·.hostId)) ip) rfl
  let (status, body) ← call .delete (.inst (id.getD "None")) none
  if status ∈ [200, 204, 404] then do
    let now : DateTime ← perform .now
    let () ← attempt (.setDeleted id now.isoformat reason) rfl
    pure none
  else do
    let detail ← Program.lift (getKey body "detail")
    pure (some s!"CloudCore returned {status}: {pf.text detail}")

def deleteLabVm (id : String) : Code Answer := do
  let row : Option LabVm ← perform (.find (some id))
  match row with
  | none => pure noSuchVm
  | some row =>
    if row.deletedAt.isSome then pure .noContent
    else do
      match ← delete pf (some id) "requested" with
      | none => pure .noContent
      | some why => pure (.problem 502 "Delete Failed" why)

/-! ### The reaper -/

/-- `now >= datetime.fromisoformat(text) + timedelta(microseconds=us)`. -/
def reachedAfter (now : DateTime) (text : String) (us : ℤ) : Except Failure Bool :=
  match fromisoformat text with
  | none => .error .value
  | some t =>
    match t.offset with
    | none => .error .type
    | some offset =>
      match t.time.add us with
      | none => .error .overflow
      | some time => .ok (decide ((time.micros : ℤ) - offset ≤ now.micros))

/-- Why a machine is to be reaped; the empty text if it is not. -/
def reapReason (now : DateTime) (r : LabVm) : Except Failure String := do
  if ← reachedAfter now r.expiresAt 0 then .ok "lifetime reached"
  else
    match r.idleMinutes with
    | none | some 0 => .ok ""
    | some minutes =>
      if ← reachedAfter now r.lastTouchAt (minutes * 60000000) then .ok "idle limit reached"
      else .ok ""

/-- The loop of `reap_once`. -/
def reapAll (now : DateTime) : List LabVm → Code (List (Option String))
  | [] => pure []
  | r :: rows => do
    let why ← Program.lift (reapReason now r)
    if why = "" then reapAll now rows
    else do
      let failed ← delete pf r.id why
      let rest ← reapAll now rows
      pure (if failed.isSome then rest else r.id :: rest)

/-- `reap_once`: the machines it has deleted. -/
def reapOnce : Code (List (Option String)) := do
  let now : DateTime ← perform .now
  let rows : List LabVm ← perform .active
  reapAll pf now rows

/-! ### What the steps do -/

/-- The table, the lock, and what CloudCore has; and, of each run, the instances
that `POST /v1/instances` created, with what the call answered, and the rows the
database refused. -/
structure State (ι : Type) where
  rows : List LabVm
  lock : Option ι
  cloud : List String
  created : ι → List (String × Response)
  refused : ι → List LabVm

/-- The rows of an id. -/
def State.hasKey {ι : Type} (s : State ι) (id : String) : Bool := s.rows.any (·.id = some id)

/-- `UPDATE lab_vms SET ... WHERE id = ?`; `NULL` is no row's id. -/
def setRows (id : Option String) (f : LabVm → LabVm) (rows : List LabVm) : List LabVm :=
  rows.map fun r => if r.id.isSome && r.id = id then f r else r

/-- The update of `_delete`. -/
def markDeleted (now reason : String) (r : LabVm) : LabVm :=
  if r.deletedAt.isNone then { r with deletedAt := some now, deleteReason := some reason } else r

/-- `SELECT * FROM lab_vms WHERE deleted_at IS NULL`. -/
def live (rows : List LabVm) : List LabVm := rows.filter (·.deletedAt.isNone)

/-- `SELECT * FROM lab_vms WHERE id = ?`. -/
def findRow (rows : List LabVm) (id : Option String) : Option LabVm :=
  rows.find? fun r => r.id.isSome && r.id = id

variable {ι : Type} [DecidableEq ι]

/-- CloudCore has created an instance; its id is new. -/
def State.create (s : State ι) (i : ι) (id : String) (resp : Response) : State ι :=
  { s with
    cloud := id :: s.cloud
    created := Function.update s.created i ((id, resp) :: s.created i) }

/-- What a call to CloudCore's API does to the instances it has. -/
def apiDoes (i : ι) (s : State ι) (resp : Response) (s' : State ι) : Verb → Path → Prop
  | .post, .instances =>
    s' = s ∨ ∃ id, id ∉ s.cloud ∧ s.hasKey id = false ∧ s' = s.create i id resp
  | .delete, .inst id => s' = s ∨ s' = { s with cloud := s.cloud.filter (· ≠ id) }
  | _, _ => s' = s

/-- What a command of thread `i` does.  CloudCore answers as it likes, whether it has
acted or not; the database may refuse to write. -/
def exec (i : ι) (s : State ι) : (c : Cmd) → c.Ans → State ι → Prop
  | .lockAcquire, _, s' => s.lock = none ∧ s' = { s with lock := some i }
  | .lockRelease, _, s' => s' = { s with lock := none }
  -- the clock has not reached the last month of the year 9999
  | .now, now, s' => s' = s ∧ (now.add (30 * 24 * hour)).isSome = true
  | .uuid, _, s' => s' = s
  | .callerHost _, _, s' => s' = s
  | .api method path _, resp, s' => apiDoes i s resp s' method path
  | .unpair .., _, s' => s' = s
  | .active, rows, s' => s' = s ∧ rows = live s.rows
  | .find id, row, s' => s' = s ∧ row = findRow s.rows id
  | .insert r, .ok _, s' =>
    (∀ id, r.id = some id → s.hasKey id = false) ∧ s' = { s with rows := s.rows ++ [r] }
  | .insert r, .error _, s' =>
    s' = { s with refused := Function.update s.refused i (r :: s.refused i) }
  | .touch id now, .ok _, s' =>
    s' = { s with rows := setRows (some id) ({ · with lastTouchAt := now }) s.rows }
  | .setDeleted id now reason, .ok _, s' =>
    s' = { s with rows := setRows id (markDeleted now reason) s.rows }
  | .touch .., .error _, s' | .setDeleted .., .error _, s' => s' = s

/-! ### What the operations issue -/

/-- The call creates or deletes an instance. -/
def changes : Verb → Path → Bool
  | .post, .instances | .delete, .inst _ => true
  | _, _ => false

/-- The command reads, or calls CloudCore for something other than an instance's
life; it changes nothing here. -/
def Reads : Cmd → Prop
  | .now | .uuid | .callerHost _ | .unpair .. | .active | .find _ => True
  | .api method path _ => changes method path = false
  | .lockAcquire | .lockRelease | .insert _ | .touch .. | .setDeleted .. => False

theorem apiDoes_eq {i : ι} {s s' : State ι} {resp : Response} {method : Verb} {path : Path}
    (hc : changes method path = false) (h : apiDoes i s resp s' method path) : s' = s := by
  unfold apiDoes at h
  unfold changes at hc
  split at h
  · cases hc
  · cases hc
  · exact h

theorem exec_reads {i : ι} {s s' : State ι} {c : Cmd} {a : c.Ans} (hc : Reads c)
    (h : exec i s c a s') : s' = s := by
  cases c with
  | lockAcquire => cases hc
  | lockRelease => cases hc
  | now => exact h.1
  | uuid => exact h
  | callerHost ip => exact h
  | api method path body => exact apiDoes_eq hc h
  | unpair host ip => exact h
  | active => exact h.1
  | find id => exact h.1
  | insert r => cases hc
  | touch id now => cases hc
  | setDeleted id now reason => cases hc

variable {pf}

theorem reads_lift {α : Type} (x : Except Failure α) :
    (Program.lift x : Code α).Confined Reads fun _ => True :=
  Program.confined_lift fun _ _ => trivial

theorem reads_perform {c : Cmd} (h : Reads c) : (perform c).Confined Reads fun _ => True :=
  Program.confined_perform (F := sig) h

theorem reads_call {method : Verb} {path : Path} {body : Option Json}
    (h : Reads (.api method path body)) : (call method path body).Confined Reads fun _ => True :=
  Program.confined_bind (reads_perform h) fun _ _ => reads_lift _

theorem reads_describe (id : Option String) : (describe id).Confined Reads fun _ => True := by
  refine Program.confined_bind (reads_perform (c := .find id) trivial) fun row _ => ?_
  cases row with
  | none => trivial
  | some row =>
    dsimp only
    split
    · trivial
    · exact Program.confined_bind (reads_call rfl) fun _ _ => reads_lift _

theorem reads_findOrCreate {what : String} {list create : Path}
    {test : Json → Except Failure Bool} {body : Json}
    (hcreate : create ≠ .instances) :
    (findOrCreate pf what list create test body).Confined Reads fun _ => True := by
  refine Program.confined_bind (reads_call ?_) fun _ _ => ?_
  · rfl
  · refine Program.confined_bind (reads_lift _) fun found _ => ?_
    cases found with
    | some v => trivial
    | none =>
      refine Program.confined_bind (reads_call ?_) fun _ _ => ?_
      · cases create with
        | instances => exact absurd rfl hcreate
        | _ => rfl
      · dsimp only
        split
        · trivial
        · exact Program.confined_bind (reads_lift _) fun _ _ => trivial

theorem reads_networkOrProblem (peer : Option String) :
    (networkOrProblem pf peer).Confined Reads fun _ => True := by
  refine Program.confined_tryCatch
    (Program.confined_bind (A := fun _ => True) ?_ fun _ _ => trivial) fun e => ?_
  · refine Program.confined_bind (reads_findOrCreate fun h => by cases h) fun vpc _ => ?_
    refine Program.confined_bind (reads_lift _) fun vpcId _ => ?_
    refine Program.confined_bind (reads_findOrCreate fun h => by cases h) fun subnet _ => ?_
    exact Program.confined_bind (reads_lift _) fun _ _ => trivial
  · cases e <;> trivial

theorem reads_hostStats (peer : Option String) : (hostStats peer).Confined Reads fun _ => True := by
  refine Program.confined_bind (reads_call rfl) fun resp _ => ?_
  obtain ⟨status, stats⟩ := resp
  dsimp only
  split
  · trivial
  · split <;> trivial

theorem reads_addressOf (id : Option String) (row : Option LabVm) :
    (addressOf id row).Confined Reads fun _ => True := by
  cases row with
  | none => trivial
  | some row =>
    simp only [addressOf]
    split
    · trivial
    · exact Program.confined_bind (reads_describe id) fun _ _ => trivial

end Broker
end CloudCore
