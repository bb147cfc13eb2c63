import Mathlib.Logic.Function.Basic
import Hcl.Config.ServerList

/-!
Configuration of a process: `hcl_internal.{h,cpp}`, `configuration_manager.{h,cpp}`, the
`RPC` object of `rpc_lib.{h,cpp}` and the engine singleton of `singleton.h`.

`HCL::GetInstance(true, …)` and `HCL::ReConfigure(…)` overwrite the fields of the
configuration whose arguments are given, decide whether to read the server list again,
and then build an `RPC` object for the current port. A call ends in one of four ways
(`Outcome`); the state it leaves is the same record in each of them, so that a call that
throws shows what it changed before it threw.
-/

namespace Hcl.Config

/-- `class ConfigurationManager`. -/
structure ConfigurationManager where
  rpcPort : UInt16
  rpcThreads : UInt16
  uri : CharStruct
  memoryAllocated : UInt64
  isServer : Bool
  myServer : UInt16
  numServers : UInt32
  serverOnNode : Bool
  serverListPath : CharStruct
  backedFileDir : CharStruct
deriving DecidableEq

/-- `ConfigurationManager()`: the defaults. -/
def ConfigurationManager.default : ConfigurationManager where
  rpcPort := 9000
  rpcThreads := 1
  uri := ⟨"ofi+tcp://".toList, by decide, by decide⟩
  memoryAllocated := 1024 * 1024 * 128
  isServer := false
  myServer := 0
  numServers := 1
  serverOnNode := true
  serverListPath := CharStruct.empty
  backedFileDir := ⟨"/dev/shm".toList, by decide, by decide⟩

/-- The arguments of `GetInstance` and `ReConfigure`. -/
structure Args where
  port : UInt16 := 0
  numServers : UInt16 := 0
  myServerIdx : Int32 := -1
  memoryAllocated : UInt64 := 0
  isServer : Int16 := -1
  isServerOnNode : Int16 := -1
  backedFileDir : CharStruct := CharStruct.empty
  serverListPath : CharStruct := CharStruct.empty
  uri : CharStruct := CharStruct.empty

/-- What the process finds around it during a call: the environment variable
`HCL_THALLIUM_URI`, the files, and whether an address can be looked up by thallium. -/
structure Env where
  thalliumUri : Option CharStruct
  files : CharStruct → Option (List Char)
  lookup : CharStruct → Bool

inductive Mode where
  | client
  | server
deriving DecidableEq, Repr

/-- A `tl::engine`: it listens on the address given to its constructor, when made as a
server and until it is finalized. -/
structure Engine where
  address : CharStruct
  mode : Mode
  finalized : Bool
deriving DecidableEq

/-- `class RPC`. `thalliumServer` tells whether the pointer is set: it then points to the
one engine of the process. The endpoints are the looked-up addresses. -/
structure RPC where
  isServer : Bool
  myServerIndex : UInt16
  threads : UInt16
  uris : List URI
  thalliumServer : Bool
  thalliumEndpoints : List CharStruct

/-- `class HCL`: the mutex `file_load` and the RPC object of each port. -/
structure HCL where
  fileLoadLocked : Bool
  rpcs : UInt16 → Option RPC

/-- A process: the singletons `HCL_CONF`, `HCL::instance` and the engine's. -/
structure Process where
  conf : ConfigurationManager
  hclInstance : Option HCL
  engine : Option Engine

def Process.start : Process := ⟨.default, none, none⟩

/-- What a call can throw. -/
inductive Thrown where
  | logicError (what : String)
  | outOfRange
  | lookupFailed
deriving DecidableEq, Repr

/-- How a call ends. -/
inductive Outcome where
  | returned
  | threw (what : Thrown)
  | undefined
  | blocked
deriving DecidableEq, Repr

/-! ### The functions -/

/-- `Singleton<tl::engine>::GetInstance(address, mode)`: the arguments matter only if
there is no engine yet. -/
def getEngine (address : CharStruct) (mode : Mode) : Option Engine → Engine
  | none => ⟨address, mode, false⟩
  | some engine => engine

/-- `RPC(_is_server, _my_server_index, _threads, _uris)` with `run` and
`init_engine_and_endpoints`: the object, unless an address cannot be looked up, and the
engine singleton. An index past the end of `uris` is undefined. -/
def RPC.new (env : Env) (isServer : Bool) (myServerIndex threads : UInt16) (uris : List URI)
    (engine : Option Engine) : Option (Engine × Option RPC) :=
  match uris[myServerIndex.toNat]? with
  | none => none
  | some mine =>
      let engine :=
        if isServer then some (getEngine mine.serverUri .server engine) else engine
      let engine := getEngine mine.endpointUri .client engine
      let endpoints := uris.map URI.clientUri
      some (engine,
        if endpoints.all env.lookup then
          some { isServer, myServerIndex, threads, uris, thalliumServer := isServer
                 thalliumEndpoints := endpoints }
        else none)

/-- `~RPC()`, that is `Stop()`: on a server process the engine is finalized; a client's
RPC object has no engine to finalize. -/
def RPC.stop (rpc : RPC) (conf : ConfigurationManager) (engine : Engine) : Option Engine :=
  if conf.isServer then
    if rpc.thalliumServer then some { engine with finalized := true } else none
  else some engine

/-- `CreateRPC`: the new object is built, then it replaces the object of the port. -/
def createRPC (env : Env) (conf : ConfigurationManager) (hcl : HCL) (engine : Option Engine)
    (uris : List URI) : HCL × Option Engine × Outcome :=
  match RPC.new env conf.isServer conf.myServer conf.rpcThreads uris engine with
  | none => (hcl, engine, .undefined)
  | some (engine, none) => (hcl, some engine, .threw .lookupFailed)
  | some (engine, some rpc) =>
      let hcl' := { hcl with rpcs := Function.update hcl.rpcs conf.rpcPort (some rpc) }
      match hcl.rpcs conf.rpcPort with
      | none => (hcl', some engine, .returned)
      | some old =>
          match old.stop conf engine with
          | none => (hcl', some engine, .undefined)
          | some engine => (hcl', some engine, .returned)

/-- The fields that are overwritten because their argument is given. -/
def ConfigurationManager.overwrite (conf : ConfigurationManager) (a : Args) :
    ConfigurationManager where
  rpcPort := if a.port ≠ 0 then a.port else conf.rpcPort
  numServers := if a.numServers ≠ 0 then a.numServers.toUInt32 else conf.numServers
  myServer := if a.myServerIdx.toInt16 ≠ -1 then a.myServerIdx.toInt16.toUInt16 else conf.myServer
  memoryAllocated := if a.memoryAllocated ≠ 0 then a.memoryAllocated else conf.memoryAllocated
  isServer := if a.isServer ≠ -1 then a.isServer == 1 else conf.isServer
  serverOnNode := if a.isServerOnNode ≠ -1 then a.isServerOnNode == 1 else conf.serverOnNode
  backedFileDir := if a.backedFileDir.size ≠ 0 then a.backedFileDir else conf.backedFileDir
  serverListPath := if a.serverListPath.size ≠ 0 then a.serverListPath else conf.serverListPath
  uri := if a.uri.size ≠ 0 then a.uri else conf.uri
  rpcThreads := conf.rpcThreads

/-- A new server list or URI was given. -/
def Args.changesList (a : Args) : Bool := a.serverListPath.size ≠ 0 || a.uri.size ≠ 0

/-- `ConfigureInternal` on the configuration, the `HCL` object and the engine. -/
def configureInternal (env : Env) (initializing : Bool) (a : Args) (conf : ConfigurationManager)
    (hcl : HCL) (engine : Option Engine) :
    ConfigurationManager × HCL × Option Engine × Outcome :=
  let previousPort := conf.rpcPort
  let conf := conf.overwrite a
  if !initializing && previousPort == conf.rpcPort && a.changesList then
    (conf, hcl, engine, .threw (.logicError "To change the server list or URI use a new port"))
  else if initializing || a.changesList || previousPort != conf.rpcPort then
    if hcl.fileLoadLocked then (conf, hcl, engine, .blocked)
    else
      match loadURI conf.rpcPort (env.files conf.serverListPath) conf.uri with
      | .error .overflow => (conf, hcl, engine, .undefined)
      -- the lock is not released on the way out
      | .error .outOfRange =>
          (conf, { hcl with fileLoadLocked := true }, engine, .threw .outOfRange)
      | .ok uris =>
          let size := UInt32.ofNat uris.length
          let conf :=
            if uris.length ≠ conf.numServers.toNat then { conf with numServers := size } else conf
          let (hcl, engine, outcome) := createRPC env conf hcl engine uris
          (conf, hcl, engine, outcome)
  else (conf, hcl, engine, .returned)

/-- `ConfigureInternalEnv`. -/
def configureInternalEnv (env : Env) (conf : ConfigurationManager) : ConfigurationManager :=
  match env.thalliumUri with
  | none => conf
  | some uri => { conf with uri := uri }

/-- The calls a program can make. -/
inductive Call where
  | getInstance (a : Args)
  | reConfigure (a : Args)

/-- One call. `GetInstance(true, …)` builds the instance only if there is none; what the
constructor did to the configuration stays even if it throws. `ReConfigure` needs an
instance. -/
def call (env : Env) (p : Process) : Call → Option (Process × Outcome)
  | .getInstance a =>
      match p.hclInstance with
      | some _ => some (p, .returned)
      | none =>
          let (conf, hcl, engine, outcome) :=
            configureInternal env true a (configureInternalEnv env p.conf) ⟨false, fun _ => none⟩
              p.engine
          some (⟨conf, if outcome = .returned then some hcl else none, engine⟩, outcome)
  | .reConfigure a =>
      match p.hclInstance with
      | none => none
      | some hcl =>
          let (conf, hcl, engine, outcome) := configureInternal env false a p.conf hcl p.engine
          some (⟨conf, some hcl, engine⟩, outcome)

end Hcl.Config
