import Hcl.Lib.Runs
import Hcl.Lib.Shards
import Hcl.ConcurrentUnorderedMap.Basic

/-!
Clients and servers of a `concurrent_unordered_map`.

A client addresses its request to the server of the key. Requests travel, arrive in
inboxes and are handled one at a time by their server, in any order (`Step`). `history`
lists the handled requests with their answers in the order they were handled.

In every reachable state the tables of the servers are, together, the single map that
`applyRequest` builds along the history, and the answers in the history are the ones it
gives (`Net.Sound`). Requests of different servers commute (`Step.commute`).

A server gets through `initialize_tables` where the table fits into the memory it gets, and handles
a request where that memory has a free mutex for the bucket (`servers_are_one_map_iff`).
-/

namespace Hcl.ConcurrentUnorderedMap

open Hcl.Lib

variable {K V : Type}

/-! ### The single map -/

inductive Op (K V : Type) where
  | insert (k : K) (v : V)
  | find (k : K)
  | erase (k : K)
  | update (k : K) (v : V)

def Op.key : Op K V → K
  | .insert k _ => k
  | .find k => k
  | .erase k => k
  | .update k _ => k

/-- One map, with keys up to `equal`: `Insert` keeps the first value and always answers
true, `Update` overwrites only a present key. -/
def applyRequest (ops : KeyOps K) (m : K → Option V) : Op K V → (K → Option V) × Bool
  | .insert k v => (if (m k).isSome then m else fun q => if ops.equal k q then some v else m q, true)
  | .find k => (m, (m k).isSome)
  | .erase k => (fun q => if ops.equal k q then none else m q, (m k).isSome)
  | .update k v =>
      (if (m k).isSome then fun q => if ops.equal k q then some v else m q else m, (m k).isSome)

/-- The map stores the same for equal keys. -/
def Respects (ops : KeyOps K) (m : K → Option V) : Prop := ∀ {k q}, ops.equal k q → m k = m q

section Single

variable {ops : KeyOps K} {m m' : K → Option V}

/-- A request writes its own key only. -/
theorem applyRequest_eq (respects : Respects ops m) (op : Op K V) :
    (applyRequest ops m op).1 =
      fun q => if ops.equal op.key q then (applyRequest ops m op).1 op.key else m q := by
  have kept : m = fun q => if ops.equal op.key q then m op.key else m q := by
    funext q
    split
    · rename_i same
      exact (respects same).symm
    · rfl
  cases op with
  | insert k v =>
      simp only [applyRequest, Op.key] at kept ⊢
      split
      · exact kept
      · simp only [ops.refl k, if_true]
  | find k => exact kept
  | erase k => simp only [applyRequest, Op.key, ops.refl k, if_true]
  | update k v =>
      simp only [applyRequest, Op.key] at kept ⊢
      split
      · simp only [ops.refl k, if_true]
      · exact kept

/-- A request looks at its own key only. -/
theorem applyRequest_congr {op : Op K V} (same : m op.key = m' op.key) :
    (applyRequest ops m op).1 op.key = (applyRequest ops m' op).1 op.key ∧
      (applyRequest ops m op).2 = (applyRequest ops m' op).2 := by
  cases op with
  | insert k v =>
      simp only [applyRequest, Op.key] at same ⊢
      rw [same]
      split <;> simp [same, ops.refl k]
  | find k => exact ⟨same, congrArg Option.isSome same⟩
  | erase k =>
      simp only [applyRequest, Op.key] at same ⊢
      simp [same, ops.refl k]
  | update k v =>
      simp only [applyRequest, Op.key] at same ⊢
      rw [same]
      split <;> simp [same, ops.refl k]

end Single

/-! ### One server -/

/-- The handler of a request. -/
def handle [Inhabited K] [Inhabited V] (ops : KeyOps K) (o : ConcurrentUnorderedMap K V) :
    Op K V → Option (ConcurrentUnorderedMap K V × Bool)
  | .insert k v => o.localInsert ops k v
  | .find k => o.localFind ops k
  | .erase k => o.localErase ops k
  | .update k v => o.localUpdate ops k v

/-- What a server stores for a key. -/
def view (ops : KeyOps K) (o : ConcurrentUnorderedMap K V) (k : K) : Option V :=
  match o.myTable with
  | some table => table.view ops k
  | none => none

/-- The table of a server is well formed. -/
def TableInv (ops : KeyOps K) (o : ConcurrentUnorderedMap K V) : Prop :=
  ∀ table, o.myTable = some table → ∃ body, BlockMap.Inv ops table body

theorem TableInv.respects {ops : KeyOps K} {o : ConcurrentUnorderedMap K V} (inv : TableInv ops o) :
    Respects ops (o.view ops) := by
  intro k q same
  unfold view
  split
  · rename_i table held
    obtain ⟨body, inv⟩ := inv table held
    exact inv.view_congr same
  · rfl

/-- The call of `my_table` in the handler of a request. -/
def Op.table : Op K V → BlockMap.Op K V Unit
  | .insert k v => .insert k v
  | .find k => .find k
  | .erase k => .erase k
  | .update k v => .update k v

theorem Op.table_key (op : Op K V) : op.table.key = op.key := by
  cases op <;> rfl

/-- What the handler makes of the answer: `LocalInsert` drops it, `LocalFind` compares it with
`NOT_IN_TABLE`. -/
def handled : BlockMap.Answer Unit → Bool
  | .insert _ => true
  | .find pos => if pos ≠ BlockMap.notInTable then true else false
  | .update found => found
  | .updateField found _ => found
  | .erase found => found

/-- The answer of a table, as its handler returns it, is that of the single map. -/
theorem applyRequest_of_spec {ops : KeyOps K} {m m' : K → Option V} {op : Op K V}
    {answer : BlockMap.Answer Unit} (allowed : BlockMap.Spec ops m op.table answer m') :
    (m', handled answer) = applyRequest ops m op := by
  cases op with
  | insert k v =>
      obtain ⟨rfl, rfl⟩ := allowed
      rfl
  | find k =>
      obtain ⟨rfl, pos, rfl, present⟩ := allowed
      simp only [applyRequest, handled, present]
      cases (m' k).isSome <;> rfl
  | erase k =>
      obtain ⟨rfl, rfl⟩ := allowed
      rfl
  | update k v =>
      obtain ⟨rfl, rfl⟩ := allowed
      rfl

section Server

variable [Inhabited K] [Inhabited V] {ops : KeyOps K} {o : ConcurrentUnorderedMap K V}
  {table : BlockMap K V}

/-- A handler is one call of `my_table`. -/
theorem handle_eq_table (has : o.myTable = some table) (op : Op K V) :
    handle ops o op = (BlockMap.step ops table op.table).map fun out =>
      ({ o with myTable := some out.1 }, handled out.2) := by
  cases op with
  | insert k v =>
      simp only [handle, localInsert, has, Op.table, BlockMap.step, Option.bind_eq_bind, Option.bind_some]
      cases table.insert ops k v <;> rfl
  | find k =>
      simp only [handle, localFind, has, Op.table, BlockMap.step, Option.bind_eq_bind, Option.bind_some]
      cases table.find ops k <;> rfl
  | erase k =>
      simp only [handle, localErase, has, Op.table, BlockMap.step, Option.bind_eq_bind, Option.bind_some]
      cases table.erase ops k <;> rfl
  | update k v =>
      simp only [handle, localUpdate, has, Op.table, BlockMap.step, Option.bind_eq_bind, Option.bind_some]
      cases table.update ops k v <;> rfl

/-- A server handles a request whose bucket has a free mutex, as the single map of what it stores
does. The mutexes stay what they are. -/
theorem handle_spec (has : o.myTable = some table) (inv : TableInv ops o) {raw : RawTable} {n : UInt64}
    (laid : BlockMap.LaidIn raw n table) (op : Op K V)
    (free : raw.mutexes (ops.hash op.key % n) = .unlocked) :
    ∃ table', handle ops o op =
        some ({ o with myTable := some table' }, (applyRequest ops (o.view ops) op).2) ∧
      TableInv ops { o with myTable := some table' } ∧ BlockMap.LaidIn raw n table' ∧
      view ops { o with myTable := some table' } = (applyRequest ops (o.view ops) op).1 := by
  have read : o.view ops = table.view ops := by
    funext k
    simp only [view, has]
  have free' : table.Free ops op.table.key := by
    rw [Op.table_key]
    exact (laid.free_iff op.key).mpr free
  obtain ⟨table', answer, m', done, spec, body, stored⟩ :=
    BlockMap.step_simulates table _ op.table ⟨inv table has, rfl⟩ free'
  have same : (m', handled answer) = applyRequest ops (table.view ops) op := applyRequest_of_spec spec
  refine ⟨table', ?_, ?_, (laid.step done).2, ?_⟩
  · rw [handle_eq_table has, done, read, ← same, Option.map_some]
  · rintro _ ⟨⟩
    exact body
  · rw [read, ← same]
    exact stored

/-- A server that handles a request has found the mutex of its bucket free. -/
theorem open_of_handle (has : o.myTable = some table) {raw : RawTable} {n : UInt64}
    (laid : BlockMap.LaidIn raw n table) {op : Op K V} {out} (done : handle ops o op = some out) :
    raw.mutexes (ops.hash op.key % n) = .unlocked := by
  rw [handle_eq_table has] at done
  obtain ⟨_, done, -⟩ := Option.map_eq_some_iff.mp done
  rw [← Op.table_key]
  exact (laid.step done).1

end Server

/-! ### The network -/

/-- What all objects of one container agree on: at least one server, and at least as many
positions as servers. `blocks` is what `malloc` returns for the table of each server. -/
structure Deployment (K : Type) where
  ops : KeyOps K
  totalSize : UInt64
  numServers : UInt16
  emptyKey : K
  blocks : UInt16 → RawTable
  servers : 0 < numServers
  enough : numServers.toNat ≤ totalSize.toNat

/-- A request on its way to the server `target`, from one of the clients. -/
structure Request (K V : Type) where
  client : Nat
  target : UInt16
  op : Op K V

/-- The servers, the requests on their way and in the inboxes, and the requests handled
so far with their answers. -/
structure Net (K V : Type) where
  servers : UInt16 → ConcurrentUnorderedMap K V
  inFlight : List (Request K V)
  inbox : UInt16 → List (Request K V)
  history : List (Op K V × Bool)

inductive Label (K V : Type) where
  | issue (op : Op K V)
  | deliver (target : UInt16) (op : Op K V)
  | process (target : UInt16) (op : Op K V) (answer : Bool)

namespace Deployment

variable (d : Deployment K)

/-- An object of this deployment: a client's or a server's. -/
def Member (c : ConcurrentUnorderedMap K V) : Prop :=
  c.totalSize = d.totalSize ∧ c.numServers = d.numServers

/-- `initialize_tables` has been run on every server with its own rank, and no request
has been issued. -/
structure Start [Inhabited K] [Inhabited V] (s : Net K V) : Prop where
  initialized : ∀ i, i < d.numServers → ∃ c : Container, c.isServer = true ∧
    c.numServers = d.numServers ∧
    initializeTables (d.blocks i) c d.totalSize d.numServers.toUInt32 i.toUInt32 d.emptyKey =
      some (s.servers i)
  absent : ∀ i, ¬ i < d.numServers → (s.servers i).myTable = none
  inFlight : s.inFlight = []
  inbox : ∀ i, s.inbox i = []
  history : s.history = []

/-- One step: a client issues a request, a request arrives, or a server handles one of
the requests of its inbox. -/
inductive Step [Inhabited K] [Inhabited V] : Net K V → Label K V → Net K V → Prop where
  | issue {s : Net K V} {c : ConcurrentUnorderedMap K V} (client : Nat) (op : Op K V) :
      d.Member c →
      Step s (.issue op)
        { s with inFlight := s.inFlight ++ [⟨client, c.keyInt d.ops op.key, op⟩] }
  | deliver {s : Net K V} {before after : List (Request K V)} {r : Request K V} :
      s.inFlight = before ++ r :: after →
      Step s (.deliver r.target r.op)
        { s with
          inFlight := before ++ after
          inbox := Function.update s.inbox r.target (s.inbox r.target ++ [r]) }
  | process {s : Net K V} {i : UInt16} {before after : List (Request K V)} {r : Request K V}
      {o : ConcurrentUnorderedMap K V} {answer : Bool} :
      s.inbox i = before ++ r :: after → handle d.ops (s.servers i) r.op = some (o, answer) →
      Step s (.process i r.op answer)
        { s with
          servers := Function.update s.servers i o
          inbox := Function.update s.inbox i (before ++ after)
          history := s.history ++ [(r.op, answer)] }

/-- The server of a key, as every object of the deployment computes it. -/
def owner (k : K) : UInt16 :=
  (configured (V := Unit) ⟨d.numServers, 0, false, false⟩ d.totalSize d.numServers.toUInt32 0
    d.emptyKey none).keyInt d.ops k

/-- The number of buckets of a server. -/
def sizeOf (i : UInt16) : UInt64 :=
  maxSizeOf (d.totalSize / d.numServers.toUInt32.toUInt64) (d.totalSize % d.numServers.toUInt32.toUInt64)
    i.toUInt32

/-- Every server gets through `initialize_tables`: the assertion on the size holds, and `malloc`
returns enough. -/
def Admitted : Prop :=
  d.totalSize < 18446744073709551615 ∧ ∀ i < d.numServers, (d.sizeOf i).toNat ≤ (d.blocks i).room

/-- The bucket of the key, on its server, has a free mutex. -/
def Open (k : K) : Prop :=
  (d.blocks (d.owner k)).mutexes (d.ops.hash k % d.sizeOf (d.owner k)) = .unlocked

/-- A step that issues no request on a key outside `Q`. -/
def StepOn [Inhabited K] [Inhabited V] (Q : K → Prop) (s : Net K V) (label : Label K V) (t : Net K V) :
    Prop :=
  d.Step s label t ∧ ∀ op, label = .issue op → Q op.key

/-- The single map after the requests of a history, and the answers it gives to them. -/
def single (history : List (Op K V × Bool)) : (K → Option V) × List Bool :=
  answers (applyRequest d.ops) (fun _ => none) (history.map Prod.fst)

end Deployment

/-- What holds of every reachable state. -/
structure Net.Sound (d : Deployment K) (s : Net K V) : Prop where
  held : Held (view d.ops) d.owner (TableInv d.ops) s.servers (d.single s.history).1
  answered : (d.single s.history).2 = s.history.map Prod.snd
  configured : ∀ i, i < d.numServers → ∃ c table, c.isServer = true ∧
    c.numServers = d.numServers ∧ BlockMap.LaidIn (d.blocks i) (d.sizeOf i) table ∧ s.servers i =
      configured c d.totalSize d.numServers.toUInt32 i.toUInt32 d.emptyKey (some table)
  travelling : ∀ r ∈ s.inFlight, r.target = d.owner r.op.key
  arrived : ∀ i, ∀ r ∈ s.inbox i, d.owner r.op.key = i

section Reach

variable [Inhabited K] [Inhabited V] {d : Deployment K} {s t : Net K V}

omit [Inhabited K] [Inhabited V] in
theorem Deployment.keyInt_eq_owner {c : ConcurrentUnorderedMap K V} (member : d.Member c) (k : K) :
    c.keyInt d.ops k = d.owner k := by
  simp only [Deployment.owner, keyInt, serverLocation, member.1, member.2]
  rfl

omit [Inhabited K] [Inhabited V] in
theorem Deployment.owner_lt (k : K) : d.owner k < d.numServers :=
  keyInt_lt d.ops _ d.servers d.enough k

omit [Inhabited K] [Inhabited V] in
theorem Deployment.owner_congr {k q : K} (same : d.ops.equal k q) : d.owner k = d.owner q := by
  simp only [Deployment.owner, keyInt, serverLocation, d.ops.hash_eq same]

theorem Deployment.Start.sound (start : d.Start s) : s.Sound d := by
  have made : ∀ i, i < d.numServers → ∃ c table, c.isServer = true ∧
      c.numServers = d.numServers ∧ BlockMap.Inv d.ops table (fun _ => []) ∧
      BlockMap.LaidIn (d.blocks i) (d.sizeOf i) table ∧ s.servers i =
        configured c d.totalSize d.numServers.toUInt32 i.toUInt32 d.emptyKey (some table) := by
    intro i inside
    obtain ⟨c, server, servers, init⟩ := start.initialized i inside
    obtain ⟨-, -, table, built, eq⟩ := (initializeTables_eq_some_iff server).mp init
    have chunk : (0 : UInt32) < 100 := by decide
    exact ⟨c, table, server, servers, BlockMap.new_inv d.ops chunk built,
      BlockMap.new_laidIn chunk built, eq⟩
  have nothing : ∀ i k, view d.ops (s.servers i) k = none := by
    intro i k
    by_cases inside : i < d.numServers
    · obtain ⟨c, table, -, -, inv, -, eq⟩ := made i inside
      rw [eq]
      show table.view d.ops k = none
      rw [inv.view_eq]
      rfl
    · simp only [view, start.absent i inside]
  refine ⟨⟨fun i k _ => nothing i k, ?_, ?_⟩, ?_, ?_, ?_, ?_⟩
  · rw [start.history]
    exact funext fun k => nothing _ k
  · intro i table has
    by_cases inside : i < d.numServers
    · obtain ⟨c, table', -, -, inv, -, eq⟩ := made i inside
      rw [eq] at has
      obtain ⟨⟩ := has
      exact ⟨_, inv⟩
    · rw [start.absent i inside] at has
      cases has
  · rw [start.history]
    rfl
  · intro i inside
    obtain ⟨c, table, server, servers, -, laid, eq⟩ := made i inside
    exact ⟨c, table, server, servers, laid, eq⟩
  · rw [start.inFlight]
    exact fun r mem => nomatch mem
  · intro i r mem
    rw [start.inbox] at mem
    cases mem

omit [Inhabited K] [Inhabited V] in
/-- The single map stores the same for equal keys. -/
theorem Net.Sound.respects (sound : s.Sound d) : Respects d.ops (d.single s.history).1 := by
  intro k q same
  rw [← sound.held.view_owner k, ← sound.held.view_owner q, Deployment.owner_congr same]
  exact (sound.held.each _).respects same

omit [Inhabited K] [Inhabited V] in
/-- A server that is asked has a table. -/
theorem Net.Sound.has_table (sound : s.Sound d) (k : K) :
    ∃ table, (s.servers (d.owner k)).myTable = some table ∧
      BlockMap.LaidIn (d.blocks (d.owner k)) (d.sizeOf (d.owner k)) table := by
  obtain ⟨c, table, -, -, laid, eq⟩ := sound.configured _ (Deployment.owner_lt k)
  exact ⟨table, by rw [eq]; rfl, laid⟩

/-- A request that is handled is on a key whose bucket has a free mutex. -/
theorem Net.Sound.opened (sound : s.Sound d) (op : Op K V) {out}
    (done : handle d.ops (s.servers (d.owner op.key)) op = some out) : d.Open op.key := by
  obtain ⟨table, has, laid⟩ := sound.has_table op.key
  exact open_of_handle has laid done

/-- Handling one request on a key whose bucket has a free mutex: the servers hold what the single
map becomes, and the answer is the one it gives. -/
theorem Net.Sound.handled (sound : s.Sound d) (op : Op K V) (free : d.Open op.key) :
    ∃ table, handle d.ops (s.servers (d.owner op.key)) op =
        some ({ s.servers (d.owner op.key) with myTable := some table },
          (applyRequest d.ops (d.single s.history).1 op).2) ∧
      BlockMap.LaidIn (d.blocks (d.owner op.key)) (d.sizeOf (d.owner op.key)) table ∧
      Held (view d.ops) d.owner (TableInv d.ops)
        (Function.update s.servers (d.owner op.key)
          { s.servers (d.owner op.key) with myTable := some table })
        (applyRequest d.ops (d.single s.history).1 op).1 := by
  obtain ⟨old, has, laid⟩ := sound.has_table op.key
  have inv := sound.held.each (d.owner op.key)
  obtain ⟨table, done, inv', laid', stored⟩ := handle_spec has inv laid op free
  have here : view d.ops (s.servers (d.owner op.key)) op.key = (d.single s.history).1 op.key :=
    sound.held.view_owner op.key
  have same : (applyRequest d.ops (view d.ops (s.servers (d.owner op.key))) op).1 op.key = _ ∧ _ =
      (applyRequest d.ops (d.single s.history).1 op).2 := applyRequest_congr here
  refine ⟨table, by rw [done, same.2], laid', ?_⟩
  have respects : ∀ q, d.ops.equal op.key q → d.owner q = d.owner op.key := fun q eq =>
    (Deployment.owner_congr eq).symm
  have write : ∀ q, view d.ops { s.servers (d.owner op.key) with myTable := some table } q =
      if d.ops.equal op.key q then (applyRequest d.ops (d.single s.history).1 op).1 op.key
      else view d.ops (s.servers (d.owner op.key)) q := by
    intro q
    rw [stored, applyRequest_eq inv.respects, same.1]
  rw [applyRequest_eq sound.respects]
  exact sound.held.write respects inv' write

/-- **Every step keeps the network sound.** -/
theorem Net.Sound.step (sound : s.Sound d) {label : Label K V} (taken : d.Step s label t) :
    t.Sound d := by
  cases taken with
  | issue client op member =>
      refine ⟨sound.held, sound.answered, sound.configured, ?_, sound.arrived⟩
      intro r mem
      rcases List.mem_append.mp mem with mem | mem
      · exact sound.travelling r mem
      · obtain rfl := List.mem_singleton.mp mem
        exact Deployment.keyInt_eq_owner member _
  | @deliver before after r sent =>
      have from_flight : ∀ q ∈ before ++ after, q ∈ s.inFlight := by
        intro q mem
        rw [sent]
        exact List.mem_append.mpr
          ((List.mem_append.mp mem).imp id fun mem => List.mem_cons_of_mem _ mem)
      refine ⟨sound.held, sound.answered, sound.configured, fun q mem =>
        sound.travelling q (from_flight q mem), ?_⟩
      intro i q mem
      change q ∈ Function.update s.inbox r.target (s.inbox r.target ++ [r]) i at mem
      by_cases here : i = r.target
      · subst here
        rw [Function.update_self] at mem
        rcases List.mem_append.mp mem with mem | mem
        · exact sound.arrived _ q mem
        · obtain rfl := List.mem_singleton.mp mem
          refine (sound.travelling q ?_).symm
          rw [sent]
          exact List.mem_append_right _ List.mem_cons_self
      · rw [Function.update_of_ne here] at mem
        exact sound.arrived i q mem
  | @process i before after r o answer waiting done =>
      have mine : d.owner r.op.key = i := sound.arrived i r (by
        rw [waiting]
        exact List.mem_append_right _ List.mem_cons_self)
      have free : d.Open r.op.key := sound.opened r.op (by rw [mine]; exact done)
      obtain ⟨table, handled, laid, held⟩ := sound.handled r.op free
      rw [mine] at handled laid held
      obtain ⟨rfl, rfl⟩ := Prod.mk.inj (Option.some.inj (done.symm.trans handled))
      have next : d.single (s.history ++ [(r.op, (applyRequest d.ops (d.single s.history).1 r.op).2)]) =
          ((applyRequest d.ops (d.single s.history).1 r.op).1,
            (d.single s.history).2 ++ [(applyRequest d.ops (d.single s.history).1 r.op).2]) := by
        rw [Deployment.single, List.map_append, List.map_singleton, answers_concat]
        rfl
      refine ⟨?_, ?_, ?_, sound.travelling, ?_⟩
      · rw [next]
        exact held
      · rw [next, sound.answered, List.map_append, List.map_singleton]
      · intro j inside
        by_cases here : j = i
        · subst here
          obtain ⟨c, old, server, servers, -, eq⟩ := sound.configured j inside
          refine ⟨c, table, server, servers, laid, (Function.update_self ..).trans ?_⟩
          rw [eq]
          rfl
        · obtain ⟨c, old, server, servers, laid, eq⟩ := sound.configured j inside
          exact ⟨c, old, server, servers, laid, (Function.update_of_ne here _ _).trans eq⟩
      · intro j q mem
        change q ∈ Function.update s.inbox i (before ++ after) j at mem
        by_cases here : j = i
        · subst here
          rw [Function.update_self] at mem
          refine sound.arrived j q ?_
          rw [waiting]
          exact List.mem_append.mpr
            ((List.mem_append.mp mem).imp id fun mem => List.mem_cons_of_mem _ mem)
        · rw [Function.update_of_ne here] at mem
          exact sound.arrived j q mem

theorem Net.Sound.of_reachable (start : d.Start s) (reach : Reachable d.Step s t) : t.Sound d :=
  reach.invariant start.sound fun _ _ _ sound taken => sound.step taken

omit [Inhabited K] [Inhabited V] in
/-- A key is stored only on the server that `serverLocation` names on every object, and
there it is local. -/
theorem Net.Sound.located (sound : s.Sound d) {i : UInt16} {k : K} {v : V}
    (stored : view d.ops (s.servers i) k = some v) :
    (s.servers i).isLocal d.ops k = true ∧
      ∀ c : ConcurrentUnorderedMap K V, d.Member c → c.serverLocation d.ops k = i.toUInt64 := by
  obtain ⟨here, -⟩ := sound.held.placed.merged_of_view stored
  have inside : i < d.numServers := here ▸ Deployment.owner_lt k
  obtain ⟨c, table, server, servers, -, eq⟩ := sound.configured i inside
  constructor
  · rw [eq, ← servers]
    refine isLocal_of_keyInt d.ops server (servers ▸ d.servers) (servers ▸ d.enough) ?_
    exact (Deployment.keyInt_eq_owner ⟨rfl, servers⟩ k).trans here.symm
  · intro c member
    have narrow : (c.keyInt d.ops k).toNat = (c.serverLocation d.ops k).toNat := by
      have serving : 0 < c.numServers := member.2 ▸ d.servers
      have enough : c.numServers.toNat ≤ c.totalSize.toNat := by
        rw [member.1, member.2]
        exact d.enough
      rw [toNat_keyInt d.ops c serving enough, toNat_serverLocation d.ops c serving enough]
    rw [← UInt64.toNat_inj, ← narrow, Deployment.keyInt_eq_owner member, ← here,
      UInt16.toNat_toUInt64]

/-- Handling requests on two servers, in either order: the same answers, the same
servers. -/
theorem Deployment.Step.commute {i j : UInt16} (apart : i ≠ j) {p q : Op K V}
    {a b : Bool} {u : Net K V} (first : d.Step s (.process i p a) t)
    (second : d.Step t (.process j q b) u) :
    ∃ t' u', d.Step s (.process j q b) t' ∧ d.Step t' (.process i p a) u' ∧
      u'.servers = u.servers := by
  cases first with
  | @process _ before after r o _ waiting done =>
    cases second with
    | @process _ before' after' r' o' _ waiting' done' =>
      simp only [Function.update_of_ne apart.symm] at waiting' done'
      have untouched : Function.update s.inbox j (before' ++ after') i = before ++ r :: after :=
        (Function.update_of_ne apart _ _).trans waiting
      have again : handle d.ops (Function.update s.servers j o' i) r.op = some (o, a) :=
        (congrArg (handle d.ops · r.op) (Function.update_of_ne apart _ _)).trans done
      exact ⟨_, _, .process waiting' done', .process untouched again,
        Function.update_comm apart.symm _ _ _⟩

/-- What is promised of a state: a waiting request can be handled; the tables together are the
single map of the history, and so are the answers; every key is stored only where `serverLocation`
sends it, and is local there; and requests handled by different servers give the same answers and
the same map in either order. -/
structure Net.OneMap (d : Deployment K) (t : Net K V) : Prop where
  handled : ∀ i, ∀ r ∈ t.inbox i, ∃ o answer, handle d.ops (t.servers i) r.op = some (o, answer)
  stored : ∀ i k v, view d.ops (t.servers i) k = some v →
    (d.single t.history).1 k = some v ∧ (t.servers i).isLocal d.ops k = true ∧
    ∀ c : ConcurrentUnorderedMap K V, d.Member c → c.serverLocation d.ops k = i.toUInt64
  covered : ∀ k v, (d.single t.history).1 k = some v → ∃ i, view d.ops (t.servers i) k = some v
  answered : t.history.map Prod.snd = (d.single t.history).2
  commutes : ∀ i j p q a b t₁ t₂, i ≠ j → d.Step t (.process i p a) t₁ →
    d.Step t₁ (.process j q b) t₂ → ∃ t₁' t₂', d.Step t (.process j q b) t₁' ∧
      d.Step t₁' (.process i p a) t₂' ∧ (d.single t₂'.history).1 = (d.single t₂.history).1

/-- The deployment can be started, and its servers are one map in every state that requests on keys
of `Q` reach. -/
def Deployment.IsOneMap (d : Deployment K) (V : Type) [Inhabited V] (Q : K → Prop) : Prop :=
  (∃ s : Net K V, d.Start s) ∧
    ∀ s t : Net K V, d.Start s → Reachable (d.StepOn Q) s t → t.OneMap d

/-- The requests under way are on keys of `Q`. -/
def Net.Asks (Q : K → Prop) (s : Net K V) : Prop :=
  (∀ r ∈ s.inFlight, Q r.op.key) ∧ ∀ i, ∀ r ∈ s.inbox i, Q r.op.key

theorem Net.Asks.step {Q : K → Prop} (asks : s.Asks Q) {label : Label K V}
    (taken : d.StepOn Q s label t) : t.Asks Q := by
  obtain ⟨taken, issued⟩ := taken
  obtain ⟨flying, waiting⟩ := asks
  cases taken with
  | issue client op member =>
      refine ⟨fun r mem => ?_, waiting⟩
      rcases List.mem_append.mp mem with mem | mem
      · exact flying r mem
      · obtain rfl := List.mem_singleton.mp mem
        exact issued op rfl
  | @deliver before after r sent =>
      have sub : ∀ q, q = r ∨ q ∈ before ++ after → Q q.op.key := by
        intro q mem
        apply flying q
        rw [sent]
        simp only [List.mem_append, List.mem_cons] at mem ⊢
        tauto
      refine ⟨fun q mem => sub q (.inr mem), fun i q mem => ?_⟩
      change q ∈ Function.update s.inbox r.target (s.inbox r.target ++ [r]) i at mem
      by_cases here : i = r.target
      · rw [here, Function.update_self] at mem
        rcases List.mem_append.mp mem with mem | mem
        · exact waiting _ q mem
        · exact sub q (.inl (List.mem_singleton.mp mem))
      · rw [Function.update_of_ne here] at mem
        exact waiting i q mem
  | @process i before after r o answer held _ =>
      refine ⟨flying, fun j q mem => ?_⟩
      change q ∈ Function.update s.inbox i (before ++ after) j at mem
      by_cases here : j = i
      · rw [here, Function.update_self] at mem
        apply waiting i q
        rw [held]
        simp only [List.mem_append, List.mem_cons] at mem ⊢
        tauto
      · rw [Function.update_of_ne here] at mem
        exact waiting j q mem

/-- A state in which the requests that wait can be handled. -/
theorem Net.Sound.oneMap (sound : s.Sound d) (free : ∀ i, ∀ r ∈ s.inbox i, d.Open r.op.key) :
    s.OneMap d := by
  constructor
  case handled =>
    intro i r waits
    obtain ⟨table, handled, -⟩ := sound.handled r.op (free i r waits)
    rw [sound.arrived i r waits] at handled
    exact ⟨_, _, handled⟩
  case stored =>
    intro i k v stored
    obtain ⟨-, merged⟩ := sound.held.placed.merged_of_view stored
    rw [sound.held.merged_eq] at merged
    exact ⟨merged, sound.located stored⟩
  case covered =>
    intro k v stored
    exact ⟨d.owner k, (sound.held.view_owner k).trans stored⟩
  case answered => exact sound.answered.symm
  case commutes =>
    intro i j p q a b t₁ t₂ apart first second
    obtain ⟨t₁', t₂', first', second', servers⟩ := first.commute apart second
    have left := (sound.step first).step second
    have right := (sound.step first').step second'
    refine ⟨t₁', t₂', first', second', ?_⟩
    rw [← left.held.merged_eq, ← right.held.merged_eq, servers]

/-- **A deployment can be started** exactly if it is admitted. -/
theorem Deployment.exists_start_iff (d : Deployment K) : (∃ s : Net K V, d.Start s) ↔ d.Admitted := by
  have chunk : (0 : UInt32) < 100 := by decide
  constructor
  · rintro ⟨s, start⟩
    have made : ∀ i < d.numServers, d.totalSize < 18446744073709551615 ∧
        (d.sizeOf i).toNat ≤ (d.blocks i).room := by
      intro i inside
      obtain ⟨c, server, -, init⟩ := start.initialized i inside
      obtain ⟨total, -, table, built, -⟩ := (initializeTables_eq_some_iff server).mp init
      obtain ⟨-, admits⟩ := (BlockMap.exists_new_iff _ _ chunk d.emptyKey).mp ⟨table, built⟩
      exact ⟨total.2, admits.1⟩
    exact ⟨(made 0 d.servers).1, fun i inside => (made i inside).2⟩
  · rintro ⟨below, room⟩
    have made : ∀ i : UInt16, i < d.numServers → ∃ table : BlockMap K V,
        initializeTables (d.blocks i) ⟨d.numServers, i, true, true⟩ d.totalSize d.numServers.toUInt32
          i.toUInt32 d.emptyKey = some (configured ⟨d.numServers, i, true, true⟩ d.totalSize
            d.numServers.toUInt32 i.toUInt32 d.emptyKey (some table)) := by
      intro i inside
      obtain ⟨positive, small⟩ := maxSizeOf_bounds d.servers d.enough i.toUInt32
      have fits := UInt64.lt_of_le_of_lt small below
      obtain ⟨table, built⟩ := (BlockMap.exists_new_iff (V := V) (d.blocks i) _ chunk d.emptyKey).mpr
        ⟨positive, room i inside, fits⟩
      have nonzero := UInt64.lt_of_lt_of_le positive small
      exact ⟨table, (initializeTables_eq_some_iff rfl).mpr
        ⟨⟨nonzero, below⟩, ⟨positive, fits⟩, table, built, rfl⟩⟩
    choose table built using made
    refine ⟨⟨fun i => configured ⟨d.numServers, i, true, true⟩ d.totalSize d.numServers.toUInt32
      i.toUInt32 d.emptyKey (if inside : i < d.numServers then some (table i inside) else none), [],
      fun _ => [], []⟩, ⟨?_, ?_, rfl, fun _ => rfl, rfl⟩⟩
    · intro i inside
      refine ⟨_, rfl, rfl, (built i inside).trans ?_⟩
      simp only [inside, dif_pos]
    · intro i outside
      simp only [configured, outside, dif_neg, not_false_iff]

/-- From a new deployment, a request on any key can come to wait on its server. -/
theorem Deployment.Start.waits (start : d.Start s) {Q : K → Prop} (op : Op K V) (asked : Q op.key) :
    ∃ t, Reachable (d.StepOn Q) s t ∧ ∃ r ∈ t.inbox (d.owner op.key), r.op = op := by
  let c : ConcurrentUnorderedMap K V := configured ⟨d.numServers, 0, false, false⟩ d.totalSize
    d.numServers.toUInt32 0 d.emptyKey none
  have member : d.Member c := ⟨rfl, rfl⟩
  let r : Request K V := ⟨0, c.keyInt d.ops op.key, op⟩
  have issued : d.StepOn Q s (.issue op) { s with inFlight := s.inFlight ++ [r] } := by
    refine ⟨.issue 0 op member, ?_⟩
    rintro _ ⟨⟩
    exact asked
  rw [start.inFlight] at issued
  have sent : ({ s with inFlight := [] ++ [r] } : Net K V).inFlight = [] ++ r :: [] := rfl
  have arrived : d.StepOn Q { s with inFlight := [] ++ [r] } (.deliver r.target r.op) _ :=
    ⟨.deliver sent, fun _ contra => nomatch contra⟩
  refine ⟨_, (Reachable.start.step issued).step arrived, r, ?_, rfl⟩
  have target : r.target = d.owner op.key := Deployment.keyInt_eq_owner member op.key
  rw [target]
  show r ∈ Function.update s.inbox (d.owner op.key) _ (d.owner op.key)
  rw [Function.update_self]
  exact List.mem_append_right _ List.mem_cons_self

/-- **The servers are one map, where their mutexes happen to be free.** Whatever the interleaving of
the requests in flight, the servers of a deployment are one map for the requests on keys of `Q` if
and only if every server gets through `initialize_tables` and the bucket of every key of `Q` has a
free mutex. -/
theorem servers_are_one_map_iff (d : Deployment K) (Q : K → Prop) :
    d.IsOneMap V Q ↔ d.Admitted ∧ ∀ k, Q k → d.Open k := by
  constructor
  · rintro ⟨started, oneMap⟩
    refine ⟨d.exists_start_iff.mp started, fun k asked => ?_⟩
    obtain ⟨s, start⟩ := started
    obtain ⟨t, reach, r, waits, eq⟩ := start.waits (.find k) asked
    obtain ⟨o, answer, done⟩ := (oneMap s t start reach).handled _ r waits
    have sound := Net.Sound.of_reachable start (reach.mono fun _ _ _ taken => taken.1)
    rw [eq] at done
    exact sound.opened (.find k) done
  · rintro ⟨admitted, free⟩
    refine ⟨d.exists_start_iff.mpr admitted, fun s t start reach => ?_⟩
    have asks : t.Asks Q := by
      refine reach.invariant ⟨?_, ?_⟩ fun _ _ _ asks taken => asks.step taken
      · rw [start.inFlight]
        exact fun r mem => nomatch mem
      · intro i r mem
        rw [start.inbox] at mem
        cases mem
    have sound := Net.Sound.of_reachable start (reach.mono fun _ _ _ taken => taken.1)
    exact sound.oneMap fun i r waits => free _ (asks.2 i r waits)

end Reach

/-- Three servers for five positions, every number its own hash, in zeroed memory. -/
def threeServers : Deployment Nat where
  ops := KeyOps.ofHash Nat.toUInt64
  totalSize := 5
  numServers := 3
  emptyKey := 0
  blocks _ := ⟨2, fun _ => .unlocked⟩
  servers := by decide
  enough := by decide

theorem threeServers_admitted : threeServers.Admitted := by
  refine ⟨by decide, ?_⟩
  intro i inside
  have small : i.toNat < 3 := UInt16.lt_iff_toNat_lt.mp inside
  obtain rfl | rfl | rfl : i = 0 ∨ i = 1 ∨ i = 2 := by
    simp only [← UInt16.toNat_inj]
    show i.toNat = 0 ∨ i.toNat = 1 ∨ i.toNat = 2
    omega
  all_goals decide

/-- In zeroed memory the three servers are one map for all requests. -/
theorem servers_are_one_map_three_servers : threeServers.IsOneMap String fun _ => True :=
  (servers_are_one_map_iff threeServers _).mpr ⟨threeServers_admitted, fun _ _ => rfl⟩

/-- One server for three positions, with the sentinel key 10, in memory that another object has
used before. -/
def recycledServer : Deployment Nat where
  ops := KeyOps.ofHash Nat.toUInt64
  totalSize := 3
  numServers := 1
  emptyKey := 10
  blocks _ := ⟨3, fun _ => .other⟩
  servers := by decide
  enough := by decide

/-- One server for as many positions as 64 bits can count. -/
def largestServer : Deployment Nat where
  ops := KeyOps.ofHash Nat.toUInt64
  totalSize := 18446744073709551615
  numServers := 1
  emptyKey := 0
  blocks _ := ⟨18446744073709551615, fun _ => .unlocked⟩
  servers := by decide
  enough := by decide

/-- In recycled memory `Insert(0, 7)` arrives at a server that never handles it, and no server gets
through `initialize_tables(UINT64_MAX, 1, 0, 0)`. -/
theorem not_one_map_recycled :
    (∃ s t : Net Nat Nat, recycledServer.Start s ∧
      Reachable (recycledServer.StepOn fun _ => True) s t ∧ ∃ i, ∃ r ∈ t.inbox i,
        r.op = .insert 0 7 ∧ ∀ out, handle recycledServer.ops (t.servers i) r.op ≠ some out) ∧
    ¬ recycledServer.IsOneMap Nat (fun _ => True) ∧
    ¬ largestServer.IsOneMap Nat fun _ => True := by
  have admitted : recycledServer.Admitted := by
    refine ⟨by decide, ?_⟩
    intro i inside
    have first : i = 0 := by
      have small : i.toNat < 1 := UInt16.lt_iff_toNat_lt.mp inside
      rw [← UInt16.toNat_inj]
      show i.toNat = 0
      omega
    rw [first]
    decide
  have shut : ∀ k, ¬ recycledServer.Open k := fun k free => Mutex.noConfusion free
  refine ⟨?_, ?_, ?_⟩
  · obtain ⟨s, start⟩ := (Deployment.exists_start_iff (V := Nat) recycledServer).mpr admitted
    obtain ⟨t, reach, r, waits, eq⟩ := start.waits (Q := fun _ => True) (.insert 0 7) trivial
    refine ⟨s, t, start, reach, _, r, waits, eq, fun out done => ?_⟩
    have sound := Net.Sound.of_reachable start (reach.mono fun _ _ _ taken => taken.1)
    rw [← sound.arrived _ r waits] at done
    exact shut _ (sound.opened r.op done)
  · exact fun oneMap => shut 0 (((servers_are_one_map_iff _ _).mp oneMap).2 0 trivial)
  · exact fun oneMap => absurd ((servers_are_one_map_iff _ _).mp oneMap).1.1 (by decide)

end Hcl.ConcurrentUnorderedMap
