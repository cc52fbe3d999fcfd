import Mathlib.Data.List.Perm.Basic
import Tinyco.StringUtil

/-! The configuration of a server: `ParseConfig`, the listeners `InitSrv` makes of it and the
service coroutines `WorkerRun` makes of the listeners. -/

namespace Tinyco

/-- A value of jsoncpp. A scalar is given by what `asString` makes of it. -/
inductive Json where
  | null
  | scalar (text : Bytes)
  | array (items : List Json)
  | object (members : List (Bytes × Json))

/-- jsoncpp throws where a value has the wrong type. -/
inductive JsonError where
  | logicError
  deriving DecidableEq, Repr

namespace Json

def isMember (key : Bytes) : Json → Except JsonError Bool
  | .null => .ok false
  | .object members => .ok (members.lookup key).isSome
  | _ => .error .logicError

/-- `operator[]` of a constant value with a key. -/
def get (key : Bytes) : Json → Except JsonError Json
  | .null => .ok .null
  | .object members => .ok ((members.lookup key).getD .null)
  | _ => .error .logicError

/-- `operator[]` of a constant value with an index. -/
def item (i : Nat) : Json → Except JsonError Json
  | .null => .ok .null
  | .array items => .ok (items[i]?.getD .null)
  | _ => .error .logicError

def size : Json → Nat
  | .array items => items.length
  | .object members => members.length
  | _ => 0

def asString : Json → Except JsonError Bytes
  | .null => .ok []
  | .scalar text => .ok text
  | _ => .error .logicError

end Json

inductive ListenerClass where
  | tcpListener | udpListener
  deriving DecidableEq, Repr

/-- `entry` says which entry of which section the listener was made for. -/
structure Listener where
  cls : ListenerClass
  proto : Bytes
  ip : Nat
  port : Nat
  entry : Bytes × Nat
  deriving DecidableEq, Repr

def tcpListener (ip port : Nat) (entry : Bytes × Nat) : Listener :=
  ⟨.tcpListener, bytes "tcp", ip, port, entry⟩

def udpListener (ip port : Nat) (entry : Bytes × Nat) : Listener :=
  ⟨.udpListener, bytes "tcp", ip, port, entry⟩

inductive SrvKind where
  | tcpSrvWork | udpSrvWork
  deriving DecidableEq, Repr

structure SrvCoroutine where
  kind : SrvKind
  listener : Listener
  deriving DecidableEq, Repr

/-- The address `GetEthAddr` reads and whether `Listen` succeeds. -/
structure ListenEnv where
  ethAddr : Bytes → Nat
  listenOk : Listener → Bool

def strtol (s : Bytes) : Int :=
  let digits (t : Bytes) : Int :=
    (t.takeWhile fun c => 48 ≤ c && c ≤ 57).foldl (fun n c => 10 * n + (c.toNat - 48)) 0
  let n := match ltrim s with
    | 45 :: t => -digits t
    | 43 :: t => digits t
    | t => digits t
  max (-2 ^ 63) (min n (2 ^ 63 - 1))

/-- `std::atoi` of the C library, which converts the result of `strtol`. -/
def atoi (s : Bytes) : Int := toInt32 (strtol s)

/-- `ListenItem::Parse`: the address and the `uint16_t` port. `GetEthAddr` never fails. -/
def listenItemParse (env : ListenEnv) (listenConfig : Bytes) : Option (Nat × Nat) :=
  match split listenConfig 58 with
  | [eth, port] => some (env.ethAddr (eth.takeWhile (· ≠ 0)), (atoi port % 2 ^ 16).toNat)
  | _ => none

def parseConfig (parse : Bytes → Option Json) (configData : Bytes) : Except JsonError Bool :=
  match parse configData with
  | none => .ok false
  | some config => do
    -- `&&` does not look for the next member once one test has failed
    if !(← config.isMember (bytes "udp")) then
      if ← config.isMember (bytes "tcp") then
        if !(← config.isMember (bytes "http")) then
          return false
    return true

def listenConfig (sec : Json) (i : Nat) : Except JsonError Bytes := do
  let entry ← sec.item i
  let listen ← entry.get (bytes "listen")
  listen.asString

def initEntries (env : ListenEnv) (proto : Bytes) (sec : Json) (listeners : List Listener) :
    List Nat → Except JsonError (Option (List Listener))
  | [] => .ok (some listeners)
  | i :: is => do
    let text ← listenConfig sec i
    match listenItemParse env text with
    | none => return none
    | some (ip, port) =>
      if proto = bytes "tcp" then
        let l := tcpListener ip port (proto, i)
        if env.listenOk l then initEntries env proto sec (listeners ++ [l]) is else return none
      else if proto = bytes "udp" then
        let l := udpListener ip port (proto, i)
        if env.listenOk l then initEntries env proto sec (listeners ++ [l]) is else return none
      else initEntries env proto sec listeners is

/-- `ServerImpl::InitListener`; no listeners stand for a negative result. -/
def initListener (env : ListenEnv) (proto : Bytes) (config : Json) (listeners : List Listener) :
    Except JsonError (Option (List Listener)) := do
  if ← config.isMember proto then
    let sec ← config.get proto
    initEntries env proto sec listeners (List.range sec.size)
  else return some listeners

def initSrv (env : ListenEnv) (config : Json) : Except JsonError (Option (List Listener)) := do
  match ← initListener env (bytes "tcp") config [] with
  | none => return none
  | some listeners => initListener env (bytes "udp") config listeners

/-- The coroutines `WorkerRun` creates, from the listeners in the order of the set. -/
def workerRun (listeners : List Listener) : List SrvCoroutine :=
  listeners.filterMap fun l =>
    if l.proto = bytes "tcp" then some ⟨.tcpSrvWork, l⟩
    else if l.proto = bytes "udp" then some ⟨.udpSrvWork, l⟩
    else none

namespace Json

def hasMember (config : Json) (key : Bytes) : Bool :=
  match config with
  | .object members => (members.lookup key).isSome
  | _ => false

def entries (config : Json) (key : Bytes) : List Json :=
  match config with
  | .object members =>
    match members.lookup key with
    | some (.array items) => items
    | _ => []
  | _ => []

/-- The coroutines the sections ask for. -/
def wanted (config : Json) : List (SrvKind × Bytes × Nat) :=
  ((List.range (config.entries (bytes "tcp")).length).map fun i =>
    (.tcpSrvWork, bytes "tcp", i)) ++
  (List.range (config.entries (bytes "udp")).length).map fun i => (.udpSrvWork, bytes "udp", i)

end Json

/-- The configuration is accepted if it asks for a service, and what it asks for is run. -/
structure ConfigHonoured (parse : Bytes → Option Json) (env : ListenEnv) (configData : Bytes) :
    Prop where
  accepted : parseConfig parse configData = .ok true ↔ ∃ config, parse configData = some config ∧
    (config.hasMember (bytes "udp") ∨ config.hasMember (bytes "tcp") ∨
      config.hasMember (bytes "http"))
  served : ∀ config listeners order, parse configData = some config →
    parseConfig parse configData = .ok true → initSrv env config = .ok (some listeners) →
    order.Perm listeners →
    ((workerRun order).map fun w => (w.kind, w.listener.entry)).Perm config.wanted

/-- Each entry of a section holds the two parts of a listen address. -/
def Json.SectionListens (config : Json) (key : Bytes) : Prop :=
  ∀ sec, config.get key = .ok sec → ∀ i < sec.size,
    ∃ text, listenConfig sec i = .ok text ∧ (split text 58).length = 2

end Tinyco
