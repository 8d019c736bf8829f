import CloudCore.Formats.Haproxy
import CloudCore.Python.Decimal
import CloudCore.Python.Sorted

/-!
# The HAProxy configuration of a load balancer

`_write_config` of `lb.py`, with the text that it writes.  An instance that is not among those of the
VPC is looked up in the store.

## Main definitions

* `LoadBalancer` — what the configuration depends on.
* `writeConfig` — the code.
* `chosen` — the target group to which the rules of a listener send a request.
-/

namespace CloudCore
namespace Lb

open Formats Formats.Haproxy Python

/-! ### Data -/

structure Instance where
  id : Line
  name : Line
  privateIp : Line
  /-- 0 if there is none. -/
  httpHostPort : ℕ
  running : Bool
  deriving DecidableEq

structure Target where
  instanceId : Line
  /-- 0 if there is none. -/
  port : ℕ
  deriving DecidableEq

/-- A health check that is not empty. -/
structure HealthCheck where
  path : Option Line
  interval : Option ℕ
  healthyThreshold : Option ℕ
  unhealthyThreshold : Option ℕ
  deriving DecidableEq

structure TargetGroup where
  id : Line
  port : Option ℕ
  targets : List Target
  healthCheck : Option HealthCheck
  deriving DecidableEq

/-- The conditions of a rule; what is absent or null is empty. -/
structure Conditions where
  pathPattern : Line
  hostHeader : Line
  deriving DecidableEq

/-- A routing rule; the conditions may be null. -/
structure Rule where
  priority : Option ℤ
  conditions : Option Conditions
  targetGroupId : Line
  deriving DecidableEq

structure Listener where
  id : Line
  port : ℕ
  targetGroupId : Line
  routingRules : List Rule
  deriving DecidableEq

structure Server where
  name : Line
  address : Line
  port : ℕ
  deriving DecidableEq

structure LoadBalancer where
  name : Line
  application : Bool
  backends : List Server
  listeners : List Listener
  healthCheck : Option HealthCheck
  targetGroups : List TargetGroup
  stickySessions : Bool
  cookieName : Line
  deriving DecidableEq

/-- What surrounds the load balancer: the paths of its files, its own port, the instances of the VPC,
and those of the store. -/
structure Surroundings where
  pidPath : Line
  sockPath : Line
  startupPath : Line
  listenPort : ℕ
  vpcInstances : List Instance
  getInstance : Line → Option Instance

variable (env : Surroundings) (lb : LoadBalancer)

/-! ### Backend sections -/

def number (n : ℕ) : Line := Nat.toDigits 10 n

def LoadBalancer.sticky : Bool := lb.stickySessions && lb.application

/-- `inst_map.get`. -/
def findInstance (id : Line) : Option Instance :=
  (env.vpcInstances.find? (·.id = id)).or (env.getInstance id)

def resolveTgServers (tg : TargetGroup) : List Server :=
  tg.targets.filterMap fun t =>
    match findInstance env t.instanceId with
    | none => none
    | some inst =>
      if inst.httpHostPort ≠ 0 then some ⟨inst.name, "127.0.0.1".toList, inst.httpHostPort⟩
      else if inst.privateIp ≠ [] then
        some ⟨inst.name, inst.privateIp, if t.port ≠ 0 then t.port else tg.port.getD 80⟩
      else none

def serversCfg (servers : List Server) (sticky : Bool) : List Line :=
  if servers = [] then [indent ["#".toList, "no".toList, "targets".toList, "registered".toList]]
  else servers.map fun s =>
    indent (["server".toList, s.name, s.address ++ ':' :: number s.port, "check".toList] ++
      if sticky then ["cookie".toList, s.name] else [])

def stickyLines : List Line :=
  if lb.sticky then
    [indent ["cookie".toList, if lb.cookieName = [] then "SERVERID".toList else lb.cookieName,
      "insert".toList, "indirect".toList, "nocache".toList]]
  else []

def healthLines (hc : HealthCheck) (path : Line) : List Line :=
  [indent ["option".toList, "httpchk".toList],
    indent ["http-check".toList, "send".toList, "meth".toList, "GET".toList, "uri".toList, path,
      "ver".toList, "HTTP/1.1".toList, "hdr".toList, "Host".toList, "localhost".toList],
    indent ["default-server".toList, "inter".toList, number (hc.interval.getD 30) ++ ['s'],
      "rise".toList, number (hc.healthyThreshold.getD 2), "fall".toList,
      number (hc.unhealthyThreshold.getD 3)]]

/-- The health check of a target group needs a path. -/
def tgHealthLines (tg : TargetGroup) : List Line :=
  match tg.healthCheck with
  | none => []
  | some hc => if lb.application && hc.path.getD [] ≠ [] then healthLines hc (hc.path.getD []) else []

def lbHealthLines : List Line :=
  match lb.healthCheck with
  | none => []
  | some hc => if lb.application then healthLines hc (hc.path.getD ['/']) else []

def backName (tg : TargetGroup) : Line := "tg-".toList ++ tg.id.take 8 ++ "-back".toList

def ownName : Line := lb.name ++ "-back".toList

/-- A section: its header and its lines. -/
abbrev Block := Line × List Line

def backendBlock (name : Line) (hcLines : List Line) (servers : List Server) : Block :=
  (spaced ["backend".toList, name], indent ["balance".toList, "roundrobin".toList] ::
    (stickyLines lb ++ hcLines ++ serversCfg servers lb.sticky))

def tgBlock (tg : TargetGroup) : Block :=
  backendBlock lb (backName tg) (tgHealthLines lb tg) (resolveTgServers env tg)

/-- The backends that are given, or those that are found. -/
def effectiveBackends : List Server :=
  if lb.backends = [] && lb.application then
    env.vpcInstances.filterMap fun inst =>
      if inst.httpHostPort ≠ 0 then some ⟨inst.name, "127.0.0.1".toList, inst.httpHostPort⟩
      else if inst.running && inst.privateIp ≠ [] then some ⟨inst.name, inst.privateIp, 80⟩
      else none
  else lb.backends

def ownBlock : Block := backendBlock lb (ownName lb) (lbHealthLines lb) (effectiveBackends env lb)

/-! ### Frontend sections -/

/-- `tg_sections.get(id)`, of an id that is not empty. -/
def findTg (id : Line) : Option TargetGroup :=
  if id = [] then none else lb.targetGroups.find? (·.id = id)

/-- `r.get("priority", 999)`. -/
def Rule.prio (r : Rule) : ℤ := r.priority.getD 999

/-- `f"r{idx}p"`, `f"r{idx}h"`. -/
def aclName (idx : ℕ) (kind : Char) : Line := 'r' :: number idx ++ [kind]

def pathLine (idx : ℕ) (pattern : Line) : Line :=
  if pattern.getLast? = some '*' then
    indent ["acl".toList, aclName idx 'p', "path_beg".toList, pattern.dropLast]
  else indent ["acl".toList, aclName idx 'p', "path".toList, pattern]

def hostLine (idx : ℕ) (host : Line) : Line :=
  indent ["acl".toList, aclName idx 'h', "hdr(host)".toList, "-i".toList, host]

def aclLines (idx : ℕ) (c : Conditions) : List Line :=
  (if c.pathPattern = [] then [] else [pathLine idx c.pathPattern]) ++
    if c.hostHeader = [] then [] else [hostLine idx c.hostHeader]

def aclParts (idx : ℕ) (c : Conditions) : List Line :=
  (if c.pathPattern = [] then [] else [aclName idx 'p']) ++
    if c.hostHeader = [] then [] else [aclName idx 'h']

def useLine (idx : ℕ) (c : Conditions) (tg : TargetGroup) : Line :=
  indent (["use_backend".toList, backName tg, "if".toList] ++ aclParts idx c)

/-- A rule of which the target group exists, with its place, conditions and target group; nothing, if
the conditions are null. -/
structure Placed where
  idx : ℕ
  conds : Conditions
  tg : TargetGroup

/-- The rules that are not passed over. -/
def placed : List (Rule × ℕ) → Option (List Placed)
  | [] => some []
  | (r, idx) :: rules =>
    match r.conditions with
    | none => none
    | some c =>
      match findTg lb r.targetGroupId with
      | none => placed rules
      | some tg => (placed rules).map (⟨idx, c, tg⟩ :: ·)

def Placed.hasCondition (p : Placed) : Bool := !(p.conds.pathPattern.isEmpty && p.conds.hostHeader.isEmpty)

def sortedRules (lst : Listener) : List Rule := sortedBy Rule.prio lst.routingRules

/-- `lst["id"].replace("-", "")[:8]`. -/
def short (lst : Listener) : Line := (lst.id.filter (· ≠ '-')).take 8

def frontendHeader (suffix : Line) : Line := spaced ["frontend".toList, lb.name ++ '-' :: suffix]

def bindLine (port : ℕ) : Line := indent ["bind".toList, "127.0.0.1:".toList ++ number port]

/-- The name of the backend of a target group, or of the load balancer's own one. -/
def nameOf : Option TargetGroup → Line
  | none => ownName lb
  | some tg => backName tg

def defaultLine (name : Line) : Line := indent ["default_backend".toList, name]

def listenerBlock (lst : Listener) : Option Block :=
  (placed lb (sortedRules lst).zipIdx).map fun ps =>
    (frontendHeader lb (short lst),
      bindLine lst.port :: (ps.flatMap fun p => aclLines p.idx p.conds) ++
        ((ps.filter Placed.hasCondition).map fun p => useLine p.idx p.conds p.tg) ++
        [defaultLine (nameOf lb (findTg lb lst.targetGroupId))])

def frontBlock : Block :=
  (frontendHeader lb "front".toList, [bindLine env.listenPort, defaultLine (ownName lb)])

/-- The target groups that a listener refers to. -/
def refersTo (lst : Listener) (tg : TargetGroup) : Bool :=
  (lst.routingRules.any fun r =>
    (r.conditions.any fun c => !(c.pathPattern.isEmpty && c.hostHeader.isEmpty)) &&
      findTg lb r.targetGroupId == some tg) || findTg lb lst.targetGroupId == some tg

def referenced : List TargetGroup := lb.targetGroups.filter fun tg => lb.listeners.any (refersTo lb · tg)

/-! ### The text -/

def globalBlock : Block :=
  ("global".toList, [indent ["daemon".toList], indent ["pidfile".toList, env.pidPath],
    indent ["stats".toList, "socket".toList, env.sockPath, "mode".toList, "660".toList, "level".toList,
      "admin".toList],
    indent ["log".toList, "/dev/log".toList, "local0".toList]])

def httpOpts : List Line :=
  if lb.application then
    [indent ["option".toList, [], "forwardfor".toList],
      indent ["option".toList, [], "http-server-close".toList],
      indent ["option".toList, [], "httplog".toList],
      indent ["errorfile".toList, "503".toList, env.startupPath]]
  else [indent ["option".toList, [], "tcplog".toList]]

def defaultsBlock : Block :=
  ("defaults".toList,
    [indent ["mode".toList, if lb.application then "http".toList else "tcp".toList],
      indent ["log".toList, [], [], [], [], "global".toList],
      indent ["timeout".toList, "connect".toList, "5s".toList],
      indent ["timeout".toList, "client".toList, [], "300s".toList],
      indent ["timeout".toList, "server".toList, [], "300s".toList]] ++ httpOpts env lb)

def frontendBlocks : Option (List Block) :=
  if lb.listeners = [] then some [frontBlock env lb] else lb.listeners.mapM (listenerBlock lb)

def allBlocks (fronts : List Block) : List Block :=
  globalBlock env :: defaultsBlock env lb :: fronts ++ ownBlock env lb ::
    (referenced lb).map (tgBlock env lb)

/-- Every section ends with an empty line. -/
def render (blocks : List Block) : Line :=
  joinLines (blocks.map fun b => b.1 :: (b.2 ++ [[]])).flatten

/-- `_write_config`: the text; nothing, if an exception is raised. -/
def writeConfig : Option Line := (frontendBlocks env lb).map fun fronts => render (allBlocks env lb fronts)

/-! ### What the load balancer says -/

def pathMatches (pattern path : Line) : Bool :=
  if pattern.getLast? = some '*' then pattern.dropLast.isPrefixOf path else pattern == path

/-- All conditions hold. -/
def Conditions.hold (c : Conditions) (req : Request) : Bool :=
  (c.pathPattern.isEmpty || pathMatches c.pathPattern req.path) &&
    (c.hostHeader.isEmpty || lower c.hostHeader == lower req.host)

/-- A rule with a condition, all of which hold, and with a target group that exists. -/
def applies (req : Request) (r : Rule) : Bool :=
  (r.conditions.any fun c => !(c.pathPattern.isEmpty && c.hostHeader.isEmpty) && c.hold req) &&
    (findTg lb r.targetGroupId).isSome

/-- The target group for a request by some rules, else that of the listener, else none. -/
def chosenBy (lst : Listener) (rules : List Rule) (req : Request) : Option TargetGroup :=
  match lowest Rule.prio (rules.filter (applies lb req)) with
  | some r => findTg lb r.targetGroupId
  | none => findTg lb lst.targetGroupId

def chosen (lst : Listener) (req : Request) : Option TargetGroup := chosenBy lb lst lst.routingRules req

/-- A rule for all paths. -/
def Rule.isStar (r : Rule) : Bool := r.conditions.any (·.pathPattern == ['*'])

end Lb
end CloudCore
