import Hcl.Lib.Runs
import Hcl.Config.Consistency

/-!
Every configured port is served, as far as it is.

The RPC object of each port takes its engine from `Singleton<tl::engine>::GetInstance`,
whose arguments count only at the first call in the process. A second port therefore gets
the engine of the first, which listens on the first address. A server serves all its ports
as long as every RPC object is built for the address the engine was made for
(`served_of_ownAddress`).
-/

namespace Hcl.Config

open Hcl.Lib

/-- The engine listens on an address. -/
def Engine.Listens (e : Engine) (address : CharStruct) : Prop :=
  e.address = address ∧ e.mode = .server ∧ e.finalized = false

/-- The engine an RPC object holds listens on the address the object was built for. -/
def RPC.Served (rpc : RPC) (engine : Option Engine) : Prop :=
  rpc.thalliumServer = true ∧ ∃ e mine, engine = some e ∧
    rpc.uris[rpc.myServerIndex.toNat]? = some mine ∧ e.Listens mine.serverUri

/-- Every port present in `rpcs` is served. -/
def Process.Served (p : Process) : Prop :=
  ∀ hcl port rpc, p.hclInstance = some hcl → hcl.rpcs port = some rpc → rpc.Served p.engine

/-- A call of a server process that starts it or introduces a new port. A repeated
`GetInstance` does nothing. -/
def Action.Introduces (p : Process) (action : Action) : Prop :=
  match action.call with
  | .getInstance a => p.hclInstance = none →
      ((configureInternalEnv action.env p.conf).overwrite a).isServer = true
  | .reConfigure a => (p.conf.overwrite a).isServer = true ∧
      ∀ hcl, p.hclInstance = some hcl → hcl.rpcs (p.conf.overwrite a).rpcPort = none

/-- The engine, if there is one, was made for the address that the list being read gives
to this server. -/
def Addressed (env : Env) (conf : ConfigurationManager) (a : Args) (engine : Option Engine) : Prop :=
  ∀ uris mine e, listed env conf a = .ok uris →
    uris[(conf.overwrite a).myServer.toNat]? = some mine → engine = some e →
    e.address = mine.serverUri

/-- The condition on a call. -/
def Action.OwnAddress (p : Process) (action : Action) : Prop :=
  match action.call with
  | .getInstance a => p.hclInstance = none →
      Addressed action.env (configureInternalEnv action.env p.conf) a p.engine
  | .reConfigure a => Addressed action.env p.conf a p.engine

/-- The engine, if there is one, was made by a server and is alive. -/
def EngineAlive (engine : Option Engine) : Prop :=
  ∀ e, engine = some e → e.mode = .server ∧ e.finalized = false

/-- The engine a server gets: its own new one, or the one that is there. -/
theorem getEngine_alive {engine : Option Engine} {address : CharStruct} (alive : EngineAlive engine)
    (same : ∀ e, engine = some e → e.address = address) :
    (getEngine address .server engine).Listens address := by
  cases engine with
  | none => exact ⟨rfl, rfl, rfl⟩
  | some e => exact ⟨same e rfl, alive e rfl⟩

/-- Objects that were served by an engine that is kept are still served. -/
theorem RPC.Served.kept {rpc : RPC} {engine engine' : Option Engine} (served : rpc.Served engine)
    (keeps : ∀ e, engine = some e → engine' = some e) : rpc.Served engine' := by
  obtain ⟨set, e, mine, has, found, listens⟩ := served
  exact ⟨set, e, mine, keeps e has, found, listens⟩

/-- What a step does to the engine and the RPC objects when it goes well. -/
structure Serves (hcl : HCL) (engine : Option Engine) : Prop where
  alive : EngineAlive engine
  served : ∀ port rpc, hcl.rpcs port = some rpc → rpc.Served engine

/-- On a server the engine of the new RPC object is the singleton's, made for the first
server address the process ever had. -/
theorem createRPC_of_server {env : Env} {conf : ConfigurationManager} {hcl : HCL}
    {engine : Option Engine} {uris : List URI} {mine : URI} (server : conf.isServer = true)
    (fresh : hcl.rpcs conf.rpcPort = none) (found : uris[conf.myServer.toNat]? = some mine) :
    let listening := getEngine mine.serverUri .server engine
    createRPC env conf hcl engine uris =
      if (uris.map URI.clientUri).all env.lookup then
        ({ hcl with rpcs := Function.update hcl.rpcs conf.rpcPort (some ⟨true, conf.myServer,
            conf.rpcThreads, uris, true, uris.map URI.clientUri⟩) }, some listening, .returned)
      else (hcl, some listening, .threw .lookupFailed) := by
  simp only [createRPC, RPC.new, found, server, if_true]
  split
  · contradiction
  · rename_i made
    split at made
    · cases made
    · rename_i missing
      cases made
      rw [if_neg missing]
      rfl
  · rename_i made
    split at made
    · rename_i looked
      cases made
      rw [if_pos looked, fresh]
      rfl
    · cases made

/-- Building an RPC object on a server whose engine, if any, has the right address, for a
port that has none. -/
theorem createRPC_serves {env : Env} {conf : ConfigurationManager} {hcl : HCL}
    {engine : Option Engine} {uris : List URI} (before : Serves hcl engine)
    (server : conf.isServer = true) (fresh : hcl.rpcs conf.rpcPort = none)
    (address : ∀ mine e, uris[conf.myServer.toNat]? = some mine → engine = some e →
      e.address = mine.serverUri) :
    Serves (createRPC env conf hcl engine uris).1 (createRPC env conf hcl engine uris).2.1 := by
  cases found : uris[conf.myServer.toNat]? with
  | none =>
      simp only [createRPC, RPC.new, found]
      exact before
  | some mine =>
      have listens := getEngine_alive before.alive fun e has => address mine e found has
      have alive : EngineAlive (some (getEngine mine.serverUri .server engine)) := by
        rintro e ⟨⟩
        exact listens.2
      have kept : ∀ port rpc, hcl.rpcs port = some rpc →
          rpc.Served (some (getEngine mine.serverUri .server engine)) := fun port rpc has =>
        (before.served port rpc has).kept (by rintro e rfl; rfl)
      rw [createRPC_of_server server fresh found]
      split
      · refine ⟨alive, ?_⟩
        intro port rpc has
        simp only at has
        by_cases current : port = conf.rpcPort
        · subst current
          rw [Function.update_self] at has
          cases has
          exact ⟨rfl, _, mine, rfl, found, listens⟩
        · rw [Function.update_of_ne current] at has
          exact kept port rpc has
      · exact ⟨alive, kept⟩

/-- **What one call of `ConfigureInternal` preserves** on a server whose port is new. -/
theorem configureInternal_serves {env : Env} (initializing : Bool) {a : Args}
    {conf : ConfigurationManager} {hcl : HCL} {engine : Option Engine} (before : Serves hcl engine)
    (server : (conf.overwrite a).isServer = true)
    (fresh : hcl.rpcs (conf.overwrite a).rpcPort = none)
    (address : Addressed env conf a engine) :
    Serves (configureInternal env initializing a conf hcl engine).2.1
      (configureInternal env initializing a conf hcl engine).2.2.1 := by
  unfold configureInternal
  simp only
  split
  · exact before
  · split
    · split
      · exact before
      · split
        · exact before
        · exact ⟨before.alive, before.served⟩
        · rename_i uris loaded
          -- Replacing the number of servers touches none of the fields that are read.
          split <;>
            exact createRPC_serves before server fresh fun mine e => address uris mine e loaded
    · exact before

/-- **In every run of a server process whose calls introduce new ports and meet the
condition, every port present in `rpcs` is served.** -/
theorem served_of_ownAddress {p : Process}
    (reach : Reachable (fun p action q => Action.Introduces p action ∧ Action.OwnAddress p action ∧
      Step p action q) Process.start p) :
    p.Served := by
  have kept : EngineAlive p.engine ∧ p.Served := by
    refine reach.invariant (P := fun p => EngineAlive p.engine ∧ p.Served)
      ⟨fun _ made => (by cases made), fun _ _ _ made => (by cases made)⟩ ?_
    rintro p ⟨env, c⟩ q ⟨alive, served⟩ ⟨introduces, address, outcome, done, -⟩
    cases c with
    | getInstance a =>
        simp only [call] at done
        split at done
        · cases done
          exact ⟨alive, served⟩
        · rename_i fresh
          cases done
          have unserved : Serves ⟨false, fun _ => none⟩ p.engine :=
            ⟨alive, fun _ _ made => (by cases made)⟩
          have after := configureInternal_serves true unserved (introduces fresh) rfl
            (address fresh)
          refine ⟨after.alive, ?_⟩
          intro hcl port rpc made
          simp only at made
          split at made
          · cases made
            exact after.served port rpc
          · cases made
    | reConfigure a =>
        simp only [call] at done
        split at done
        · cases done
        · rename_i hcl current
          cases done
          have after := configureInternal_serves false
            ⟨alive, fun port rpc => served hcl port rpc current⟩ introduces.1
            (introduces.2 hcl current) address
          refine ⟨after.alive, ?_⟩
          intro hcl' port rpc made
          cases made
          exact after.served port rpc
  exact kept.2

/-- A server list with two servers on one host, which can be looked up. -/
def twoServers : Env where
  thalliumUri := none
  files _ := some "h:2".toList
  lookup _ := true

/-- The second server of the list after its start: its address is that of port 9001. -/
def secondServer : Process :=
  match call twoServers Process.start (.getInstance { isServer := 1, myServerIdx := 1 }) with
  | some (p, _) => p
  | none => Process.start

theorem secondServer_made :
    call twoServers Process.start (.getInstance { isServer := 1, myServerIdx := 1 }) =
      some (secondServer, .returned) :=
  rfl

/-- The same process after it became the first server of the list at port 9001. -/
def sameAddress : Process :=
  match call twoServers secondServer (.reConfigure { port := 9001, myServerIdx := 0 }) with
  | some (p, _) => p
  | none => Process.start

theorem sameAddress_made :
    call twoServers secondServer (.reConfigure { port := 9001, myServerIdx := 0 }) =
      some (sameAddress, .returned) :=
  rfl

/-- A server with two ports meets the condition when both lists give it one address. -/
theorem served_of_ownAddress_two_ports :
    Reachable (fun p action q => Action.Introduces p action ∧ Action.OwnAddress p action ∧
      Step p action q) Process.start sameAddress ∧
    (∃ hcl, sameAddress.hclInstance = some hcl ∧ (hcl.rpcs 9000).isSome ∧
      (hcl.rpcs 9001).isSome) ∧ sameAddress.Served := by
  have first : Action.OwnAddress Process.start
      ⟨twoServers, .getInstance { isServer := 1, myServerIdx := 1 }⟩ :=
    fun _ _ _ _ _ _ made => (by cases made)
  have introduces : Action.Introduces secondServer
      ⟨twoServers, .reConfigure { port := 9001, myServerIdx := 0 }⟩ := by
    refine ⟨rfl, ?_⟩
    intro hcl current
    cases current
    rfl
  have second : Action.OwnAddress secondServer
      ⟨twoServers, .reConfigure { port := 9001, myServerIdx := 0 }⟩ := by
    intro uris mine e loaded found made
    cases loaded
    cases found
    cases made
    decide
  have reach : Reachable (fun p action q => Action.Introduces p action ∧ Action.OwnAddress p action ∧
      Step p action q) Process.start sameAddress :=
    .step (i := ⟨twoServers, .reConfigure { port := 9001, myServerIdx := 0 }⟩)
      (.step (i := ⟨twoServers, .getInstance { isServer := 1, myServerIdx := 1 }⟩) .start
        ⟨fun _ => rfl, first, .returned, secondServer_made, by decide, by decide⟩)
      ⟨introduces, second, .returned, sameAddress_made, by decide, by decide⟩
  exact ⟨reach, ⟨_, rfl, rfl, rfl⟩, served_of_ownAddress reach⟩

/-- The RPC object of port 9001 holds the engine that listens on port 9000. -/
theorem not_served_second_port :
    ¬ ∀ p : Process, Reachable (fun p action q => Action.Introduces p action ∧ Step p action q)
      Process.start p → p.Served := by
  intro served
  have introduces : Action.Introduces oneServer ⟨oneHost, .reConfigure { port := 9001 }⟩ := by
    refine ⟨rfl, ?_⟩
    intro hcl current
    cases current
    rfl
  have reach : Reachable (fun p action q => Action.Introduces p action ∧ Step p action q)
      Process.start twoPorts :=
    .step (i := ⟨oneHost, .reConfigure { port := 9001 }⟩)
      (.step (i := ⟨oneHost, .getInstance { isServer := 1 }⟩) .start
        ⟨fun _ => rfl, .returned, oneServer_made, by decide, by decide⟩)
      ⟨introduces, .returned, twoPorts_made, by decide, by decide⟩
  obtain ⟨-, e, mine, has, found, address, -⟩ := served twoPorts reach _ 9001 _ rfl rfl
  cases has
  cases found
  exact absurd address (by decide)

end Hcl.Config
