import Hcl.BlockMap.Progress
import Hcl.ConcurrentUnorderedMap.Network

/-!
A `concurrent_unordered_map` whose servers handle many requests at once.

`Network` lets a server handle its requests one after another. A server has several threads that
handle RPCs, and nothing but the mutexes of the buckets keeps them apart: here every request of a
client runs as a call of the block map of its server, step by step, beside all the others.
Still the servers are one map, and a request gets stuck only at a bucket whose mutex was not a free
one in the memory the server got for its table (`handlers_are_one_map`).
-/

namespace Hcl.ConcurrentUnorderedMap

open Hcl.Lib Hcl.Lib.Atomic

variable {K V : Type}

/-! ### Requests -/

/-- A request, and the object it is made on. -/
structure Call (d : Deployment K) (V : Type) where
  client : ConcurrentUnorderedMap K V
  member : d.Member client
  op : Op K V

/-- The servers of a deployment. -/
abbrev Deployment.Server (d : Deployment K) : Type := { i : UInt16 // i < d.numServers }

/-- The server the RPC of a request goes to. -/
def Call.server {d : Deployment K} (call : Call d V) : d.Server :=
  ⟨call.client.keyInt d.ops call.op.key, by
    rw [Deployment.keyInt_eq_owner call.member]
    exact Deployment.owner_lt _⟩

def Call.table {d : Deployment K} (call : Call d V) : BlockMap.Op K V Unit := call.op.table

variable [Inhabited K] [Inhabited V]

/-! ### The servers with their handlers -/

/-- The tables of the servers, the requests that are being handled, and where. -/
abbrev Handlers (d : Deployment K) (V : Type) := Family d.Server (BlockMap.Calls.State K V Unit) Nat

/-- One step of a client or of a handler. A client is known by the number of its request's thread. -/
def Handlers.Step (d : Deployment K) :
    Handlers d V → Option (Event Nat (Call d V) Bool) → Handlers d V → Prop :=
  Family.Step Call.server fun _ => Renamed Call.table handled (BlockMap.Calls.Step d.ops)

/-- Every server has its table, and nothing has been asked. -/
def Handlers.initial {d : Deployment K} (tables : d.Server → BlockMap K V) : Handlers d V :=
  Family.initial fun i => BlockMap.Calls.initial (tables i)

/-- The single map of the deployment. -/
def Deployment.Spec (d : Deployment K) (m : K → Option V) (call : Call d V) (answer : Bool)
    (m' : K → Option V) : Prop :=
  (m', answer) = applyRequest d.ops m call.op

/-- The maps of the servers together: every key is read where its requests go. -/
def Deployment.Merges (d : Deployment K) (maps : d.Server → K → Option V) (m : K → Option V) : Prop :=
  ∀ k, m k = maps ⟨d.owner k, Deployment.owner_lt k⟩ k

omit [Inhabited K] [Inhabited V] in
/-- What a request leaves at a key depends on its own key and that key only. -/
theorem applyRequest_local {ops : KeyOps K} {m m' : K → Option V} {op : Op K V} {q : K}
    (key : m op.key = m' op.key) (same : m q = m' q) :
    (applyRequest ops m op).1 q = (applyRequest ops m' op).1 q := by
  cases op with
  | insert k v =>
      simp only [applyRequest, Op.key] at key ⊢
      rw [key]
      split
      · exact same
      · simp only [same]
  | find k => exact same
  | erase k => simp only [applyRequest, same]
  | update k v =>
      simp only [applyRequest, Op.key] at key ⊢
      rw [key]
      split
      · simp only [same]
      · exact same

omit [Inhabited K] [Inhabited V] in
/-- A request leaves the other keys. -/
theorem applyRequest_other {ops : KeyOps K} {m : K → Option V} {op : Op K V} {q : K}
    (other : ¬ ops.equal op.key q) : (applyRequest ops m op).1 q = m q := by
  cases op with
  | insert k v =>
      have other : ¬ ops.equal k q := other
      simp only [applyRequest]
      split
      · rfl
      · exact if_neg other
  | find k => rfl
  | erase k => exact if_neg other
  | update k v =>
      have other : ¬ ops.equal k q := other
      simp only [applyRequest]
      split
      · exact if_neg other
      · rfl

omit [Inhabited K] [Inhabited V] in
/-- A request on the map of its server is a request on the single map. -/
theorem Deployment.Merges.request {d : Deployment K} {maps : d.Server → K → Option V} {m : K → Option V}
    (merges : d.Merges maps m) (call : Call d V) :
    (applyRequest d.ops (maps call.server) call.op).2 = (applyRequest d.ops m call.op).2 ∧
      d.Merges (Function.update maps call.server (applyRequest d.ops (maps call.server) call.op).1)
        (applyRequest d.ops m call.op).1 := by
  have home : call.server = ⟨d.owner call.op.key, Deployment.owner_lt _⟩ :=
    Subtype.ext (Deployment.keyInt_eq_owner call.member _)
  have key : m call.op.key = maps call.server call.op.key := by rw [merges, home]
  refine ⟨(applyRequest_congr key).2.symm, fun q => ?_⟩
  by_cases here : (⟨d.owner q, Deployment.owner_lt q⟩ : d.Server) = call.server
  · have same : m q = maps call.server q := by rw [merges, here]
    rw [here, Function.update_self]
    exact applyRequest_local key same
  · have other : ¬ d.ops.equal call.op.key q := by
      intro eq
      apply here
      rw [home]
      exact Subtype.ext (Deployment.owner_congr eq).symm
    rw [Function.update_of_ne here, applyRequest_other other, merges]

/-! ### One map -/

/-- The table a server constructs, with nobody at work on it. -/
theorem exists_table {d : Deployment K} (admitted : d.Admitted) (i : d.Server) :
    ∃ table : BlockMap K V,
      (∀ c : Container, c.isServer = true → c.numServers = d.numServers →
        initializeTables (d.blocks i.1) c d.totalSize d.numServers.toUInt32 i.1.toUInt32 d.emptyKey =
          some (configured c d.totalSize d.numServers.toUInt32 i.1.toUInt32 d.emptyKey (some table))) ∧
      BlockMap.new (d.blocks i.1) (d.sizeOf i.1) (MemoryPool.new 100) d.emptyKey = some table := by
  obtain ⟨s, start⟩ := (Deployment.exists_start_iff (V := V) d).mpr admitted
  obtain ⟨c, server, -, init⟩ := start.initialized i.1 i.2
  obtain ⟨total, size, table, built, -⟩ := (initializeTables_eq_some_iff server).mp init
  refine ⟨table, fun c server _ => ?_, built⟩
  exact (initializeTables_eq_some_iff server).mpr ⟨total, size, table, built, rfl⟩

/-- What holds of a server while its handlers are at work. -/
def Deployment.Served (d : Deployment K) (i : d.Server) (s : BlockMap.Calls.State K V Unit) : Prop :=
  (∃ body, BlockMap.Threads.Good d.ops s.threads body) ∧
    BlockMap.Calls.Guarded d.ops (d.blocks i.1) (d.sizeOf i.1) s.threads

/-- **Handlers that run at once are one map.** For every deployment that can be started, any clients
of it and any number of handlers, in every interleaving of their steps: each request takes effect at
one moment, as on one map over all servers; and from every state that is reached a request whose
bucket has a free mutex can be brought to its answer. -/
theorem handlers_are_one_map (d : Deployment K) (admitted : d.Admitted) :
    ∃ tables : d.Server → BlockMap K V,
      (∀ (i : d.Server) (c : Container), c.isServer = true → c.numServers = d.numServers →
        initializeTables (d.blocks i.1) c d.totalSize d.numServers.toUInt32 i.1.toUInt32 d.emptyKey =
          some (configured c d.totalSize d.numServers.toUInt32 i.1.toUInt32 d.emptyKey
            (some (tables i)))) ∧
      Linearizable (Handlers.Step d) (Handlers.initial tables) d.Spec (fun _ => none) ∧
      ∀ trace f, Run (Handlers.Step d) (Handlers.initial tables) trace f → ∀ t i, f.place t = some i →
        (∀ k, ((f.parts i).work t).awaits = some k →
          (d.blocks i.1).mutexes (d.ops.hash k % d.sizeOf i.1) = .unlocked) →
        ∃ answer f', Run (Handlers.Step d) f [.ret t answer] f' ∧ f'.place t = none := by
  have chunk : (0 : UInt32) < 100 := by decide
  choose tables built made using exists_table (V := V) admitted
  have follows : ∀ i, BlockMap.Calls.Follows d.ops
      (BlockMap.Calls.initial (tables i) : BlockMap.Calls.State K V Unit) (.initial fun _ => none) :=
    fun i => BlockMap.Calls.follows_initial d.ops chunk (made i)
  refine ⟨tables, built, ?_, ?_⟩
  · have sims : ∀ _ : d.Server, Simulates (Renamed Call.table handled (BlockMap.Calls.Step d.ops)) _ _ :=
      fun _ => (BlockMap.Calls.simulates (V := V) d.ops).renamed (Call.table (d := d)) handled
    have together : Linearizable (Handlers.Step d) (Handlers.initial tables)
        (familySpec Call.server fun _ => renamedSpec Call.table handled (BlockMap.Spec d.ops))
        fun _ _ => none :=
      Simulates.family_linearizable sims fun i => ⟨_, follows i, rfl, fun _ => .idle⟩
    refine together.abstract (Q := d.Merges) (fun _ => rfl) ?_
    rintro maps m call answer _ merges ⟨x, ⟨answer', allowed, rfl⟩, rfl⟩
    obtain ⟨rfl, answered⟩ := Prod.mk.inj (applyRequest_of_spec allowed)
    obtain ⟨same, merges'⟩ := merges.request call
    exact ⟨_, Prod.ext rfl (answered.trans same), merges'⟩
  · intro trace f run t i here free
    have keeps : ∀ (i : d.Server) (s : BlockMap.Calls.State K V Unit) e s', d.Served i s →
        Renamed (Call.table (d := d)) handled (BlockMap.Calls.Step d.ops) s e s' → d.Served i s' := by
      rintro i s e s' ⟨good, guarded⟩ taken
      obtain ⟨e', taken, -⟩ := taken.inner
      exact ⟨BlockMap.Calls.good_run good (.one taken), guarded.step taken⟩
    have works : ∀ (i : d.Server) (s : BlockMap.Calls.State K V Unit) e s' t, d.Served i s →
        Renamed (Call.table (d := d)) handled (BlockMap.Calls.Step d.ops) s e s' →
        s.work t ≠ .base .idle ∨ (∃ i, e = some (.call t i)) → (∀ o, e ≠ some (.ret t o)) →
        s'.work t ≠ .base .idle := by
      rintro i s e s' t ⟨good, -⟩ taken before stays
      obtain ⟨e', taken, calls, returns⟩ := taken.inner
      refine taken.busy good (before.imp_right (calls t)) fun o eq => ?_
      obtain ⟨o', eq⟩ := returns t o eq
      exact stays o' eq
    refine Family.completes keeps works ?_ run here ?_
    · intro i
      exact ⟨(follows i).good, .initial (BlockMap.new_laidIn chunk (made i))⟩
    · rintro ⟨good, guarded⟩ busy
      obtain ⟨answer, s', rest, -⟩ := BlockMap.Calls.completes good guarded busy free
      exact ⟨_, s', Renamed.returns rest⟩

/-- Three servers in zeroed memory: a request can be brought to its answer while another waits for
the same bucket. -/
theorem handlers_are_one_map_three_servers :
    threeServers.Admitted ∧ ∃ tables : threeServers.Server → BlockMap Nat String,
      Linearizable (Handlers.Step threeServers) (Handlers.initial tables) threeServers.Spec
        (fun _ => none) ∧
      ∃ (first second : Call threeServers String) (f : Handlers threeServers String),
        first.op = .insert 7 "a" ∧ second.op = .find 7 ∧
        Run (Handlers.Step threeServers) (Handlers.initial tables) [.call 0 first, .call 1 second] f ∧
        ∃ answer f', Run (Handlers.Step threeServers) f [.ret 1 answer] f' := by
  obtain ⟨tables, -, linearizable, ends⟩ :=
    handlers_are_one_map (V := String) threeServers threeServers_admitted
  let client : ConcurrentUnorderedMap Nat String := configured ⟨3, 0, false, false⟩ 5 3 0 0 none
  let first : Call threeServers String := ⟨client, ⟨rfl, rfl⟩, .insert 7 "a"⟩
  let second : Call threeServers String := ⟨client, ⟨rfl, rfl⟩, .find 7⟩
  have run : Run (Handlers.Step threeServers) (Handlers.initial tables) [] _ := .start
  have run := run.visible (.call (t := 0) (i := first) rfl (.call (.callInsert rfl)))
  have idle : ∀ (parts : threeServers.Server → BlockMap.Calls.State Nat String Unit) (s),
      s.work 1 = .base .idle →
      (Function.update parts first.server s second.server).work 1 = .base .idle := by
    intro parts s free
    have same : second.server = first.server := rfl
    rwa [same, Function.update_self]
  have run := run.visible (.call (t := 1) (i := second) rfl (.call (.callLook (idle _ _ rfl) :
    BlockMap.Calls.Step _ _ (some (.call 1 (BlockMap.Calls.Look.find 7).op)) _)))
  obtain ⟨answer, f', rest, -⟩ := ends _ _ run 1 second.server rfl fun _ _ => rfl
  exact ⟨threeServers_admitted, tables, linearizable, first, second, _, rfl, rfl, run, answer, f', rest⟩

end Hcl.ConcurrentUnorderedMap
