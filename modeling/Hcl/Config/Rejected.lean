import Hcl.Config.Consistency

/-!
A reconfiguration that is rejected.

`ConfigureInternal` overwrites the fields of the configuration whose arguments are given
before it checks anything. A `ReConfigure` that throws has therefore changed the
configuration, unless every argument given repeats what the configuration holds
(`rejected_unchanged_iff`). The map `rpcs` is never changed by a call that throws.
-/

namespace Hcl.Config

open Hcl.Lib

/-- The fields of the configuration and the RPC objects are what they were. -/
def Unchanged (p q : Process) : Prop :=
  q.conf = p.conf ∧ q.hclInstance.map HCL.rpcs = p.hclInstance.map HCL.rpcs

/-- Every argument that is given repeats the field it is for. -/
structure Args.Repeats (a : Args) (conf : ConfigurationManager) : Prop where
  port : a.port ≠ 0 → a.port = conf.rpcPort
  numServers : a.numServers ≠ 0 → a.numServers.toUInt32 = conf.numServers
  myServer : a.myServerIdx.toInt16 ≠ -1 → a.myServerIdx.toInt16.toUInt16 = conf.myServer
  memoryAllocated : a.memoryAllocated ≠ 0 → a.memoryAllocated = conf.memoryAllocated
  isServer : a.isServer ≠ -1 → (a.isServer == 1) = conf.isServer
  serverOnNode : a.isServerOnNode ≠ -1 → (a.isServerOnNode == 1) = conf.serverOnNode
  backedFileDir : a.backedFileDir.size ≠ 0 → a.backedFileDir = conf.backedFileDir
  serverListPath : a.serverListPath.size ≠ 0 → a.serverListPath = conf.serverListPath
  uri : a.uri.size ≠ 0 → a.uri = conf.uri

theorem overwrite_eq_self_iff {conf : ConfigurationManager} {a : Args} :
    conf.overwrite a = conf ↔ a.Repeats conf := by
  have given : ∀ {A : Type} {c : Prop} [Decidable c] {new old : A},
      (if c then new else old) = old ↔ (c → new = old) := by
    intro A c _ new old
    by_cases h : c <;> simp [h]
  constructor
  · intro same
    have field : ∀ {A : Type} (f : ConfigurationManager → A), f (conf.overwrite a) = f conf :=
      fun f => congrArg f same
    constructor
    · exact given.mp (field (·.rpcPort))
    · exact given.mp (field (·.numServers))
    · exact given.mp (field (·.myServer))
    · exact given.mp (field (·.memoryAllocated))
    · exact given.mp (field (·.isServer))
    · exact given.mp (field (·.serverOnNode))
    · exact given.mp (field (·.backedFileDir))
    · exact given.mp (field (·.serverListPath))
    · exact given.mp (field (·.uri))
  · rintro ⟨port, numServers, myServer, memory, isServer, onNode, dir, path, uri⟩
    simp only [ConfigurationManager.overwrite, given.mpr port, given.mpr numServers,
      given.mpr myServer, given.mpr memory, given.mpr isServer, given.mpr onNode, given.mpr dir,
      given.mpr path, given.mpr uri]

/-- `CreateRPC` changes the map only where it does not throw. -/
theorem createRPC_threw {env : Env} {conf : ConfigurationManager} {hcl : HCL}
    {engine : Option Engine} {uris : List URI} {what : Thrown}
    (threw : (createRPC env conf hcl engine uris).2.2 = .threw what) :
    (createRPC env conf hcl engine uris).1 = hcl := by
  unfold createRPC at threw ⊢
  split
  · rfl
  · rfl
  · rename_i made
    simp only [made] at threw
    split at threw
    · cases threw
    · split at threw <;> cases threw

/-- What a `ReConfigure` that throws leaves: the overwritten configuration where the list
or the URI would have changed on the old port, and otherwise a configuration with another
port; the RPC objects in either case. -/
theorem rejected_cases {env : Env} {p q : Process} {a : Args} {what : Thrown}
    (rejected : call env p (.reConfigure a) = some (q, .threw what)) :
    q.hclInstance.map HCL.rpcs = p.hclInstance.map HCL.rpcs ∧
      (q.conf = p.conf.overwrite a ∨
        (q.conf.rpcPort = (p.conf.overwrite a).rpcPort ∧
          (p.conf.overwrite a).rpcPort ≠ p.conf.rpcPort)) := by
  simp only [call] at rejected
  split at rejected
  · cases rejected
  · rename_i hcl made
    rw [Option.some.injEq, Prod.mk.injEq] at rejected
    obtain ⟨rfl, threw⟩ := rejected
    rw [made, Option.map_some, Option.map_some, Option.some.injEq]
    unfold configureInternal at threw ⊢
    simp only at threw ⊢
    split at threw
    · rename_i refused
      rw [if_pos refused]
      exact ⟨rfl, Or.inl rfl⟩
    · rename_i accepted
      rw [if_neg accepted]
      simp only [reads_iff accepted] at threw ⊢
      split at threw
      · rename_i reads
        have changed : (p.conf.overwrite a).rpcPort ≠ p.conf.rpcPort := by
          rw [readsList, Bool.false_or, bne_iff_ne] at reads
          exact reads.symm
        split at threw
        · cases threw
        · rename_i unlocked
          rw [if_pos reads, if_neg unlocked]
          split at threw
          · cases threw
          · exact ⟨rfl, Or.inl rfl⟩
          · refine ⟨congrArg HCL.rpcs (createRPC_threw threw), Or.inr ⟨?_, changed⟩⟩
            split <;> rfl
      · cases threw

/-- **A rejected reconfiguration changes nothing exactly when every argument that is given
repeats the field it is for**, whatever state the process is in. -/
theorem rejected_unchanged_iff {env : Env} {p q : Process} {a : Args} {what : Thrown}
    (rejected : call env p (.reConfigure a) = some (q, .threw what)) :
    Unchanged p q ↔ a.Repeats p.conf := by
  obtain ⟨rpcs, left⟩ := rejected_cases rejected
  rw [← overwrite_eq_self_iff, Unchanged, and_iff_left rpcs]
  rcases left with overwritten | ⟨port, changed⟩
  · rw [overwritten]
  · refine iff_of_false ?_ ?_
    · intro same
      rw [same] at port
      exact changed port.symm
    · intro same
      rw [same] at changed
      exact changed rfl

/-- A server list or URI on the old port is refused. -/
theorem call_refused {env : Env} {p : Process} {hcl : HCL} {a : Args}
    (made : p.hclInstance = some hcl) (port : (p.conf.overwrite a).rpcPort = p.conf.rpcPort)
    (changes : a.changesList = true) :
    call env p (.reConfigure a) = some (⟨p.conf.overwrite a, some hcl, p.engine⟩,
      .threw (.logicError "To change the server list or URI use a new port")) := by
  simp only [call, made, configureInternal, port, changes, beq_self_eq_true, Bool.not_false,
    Bool.and_true, if_true]

/-- Naming the URI the configuration already has is rejected, and changes nothing. -/
theorem rejected_unchanged_same_uri :
    ∃ q what, call oneHost oneServer (.reConfigure { uri := oneServer.conf.uri }) =
      some (q, .threw what) ∧ Unchanged oneServer q := by
  have made : ∃ hcl, oneServer.hclInstance = some hcl := ⟨_, rfl⟩
  obtain ⟨hcl, made⟩ := made
  have rejected : call oneHost oneServer (.reConfigure { uri := oneServer.conf.uri }) = _ :=
    call_refused made rfl (by decide)
  refine ⟨_, _, rejected, (rejected_unchanged_iff rejected).mpr ?_⟩
  constructor <;> simp [CharStruct.size, CharStruct.empty]

/-- Another URI. -/
def sockets : CharStruct := ⟨"ofi+sockets://".toList, by decide, by decide⟩

/-- Another URI, with a number of servers and a size of memory, is rejected on the old
port, and the configuration has all three. -/
theorem rejected_changes_one_server :
    Reachable Step Process.start oneServer ∧
      ∃ q what, call oneHost oneServer
          (.reConfigure { uri := sockets, numServers := 5, memoryAllocated := 4096 }) =
        some (q, .threw what) ∧ ¬ Unchanged oneServer q ∧ q.conf.uri = sockets ∧
      q.conf.numServers = 5 ∧ q.conf.memoryAllocated = 4096 := by
  have reach : Reachable Step Process.start oneServer :=
    .step (i := ⟨oneHost, .getInstance { isServer := 1 }⟩) .start
      ⟨.returned, oneServer_made, by decide, by decide⟩
  have made : ∃ hcl, oneServer.hclInstance = some hcl := ⟨_, rfl⟩
  obtain ⟨hcl, made⟩ := made
  refine ⟨reach, _, _, call_refused made rfl (by decide), ?_, rfl, rfl, rfl⟩
  rintro ⟨same, -⟩
  have kept : 4096 = oneServer.conf.memoryAllocated :=
    congrArg ConfigurationManager.memoryAllocated same
  exact absurd kept (by decide)

end Hcl.Config
