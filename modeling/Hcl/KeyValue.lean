import Hcl.Lib.Runs
import Hcl.Lib.Shards
import Hcl.Container

/-!
The distributed part that `hcl::map` and `hcl::multimap` have in common.

The two classes repeat `Put`, `Get`, `Erase` and `GetAllData` word for word around
different `Local*` bodies. `Bodies` are those bodies; the four operations are
written once over them, and `Map` and `Multimap` give their own.

`Spec` is a single map with last-write-wins `Put`. `Bodies.Lawful` says what the
bodies do to the table of one server; a lawful container is one map over all its
servers (`Bodies.Lawful.isOneMap`).
-/

namespace Hcl.KeyValue

open Hcl.Lib

variable {K V S : Type*}

/-- The `Local*` bodies of a key-value container, over the state `S` of one segment.
`localPut` also answers what it leaves in the variable `data` refers to. -/
structure Bodies (K V S : Type*) where
  localPut : K → V → S → S × (Bool × V)
  localGet : K → S → S × (Bool × V)
  localErase : K → S → S × (Bool × V)
  localGetAllDataInServer : S → List (K × V)

section Operations

variable (B : Bodies K V S) (keyHash : K → UInt64) (c : Container)

/-- `Put`: the new segments, the answer, and what the call leaves in `data`. -/
def Bodies.put (key : K) (data : V) (segments : UInt16 → S) : (UInt16 → S) × (Bool × V) :=
  dispatchWrite c (hashServer (keyHash key) c.numServers) (B.localPut key) data segments

def Bodies.get (key : K) (segments : UInt16 → S) : (UInt16 → S) × (Bool × V) :=
  dispatch c (hashServer (keyHash key) c.numServers) (B.localGet key) segments

def Bodies.erase (key : K) (segments : UInt16 → S) : (UInt16 → S) × (Bool × V) :=
  dispatch c (hashServer (keyHash key) c.numServers) (B.localErase key) segments

def Bodies.getAllData (segments : UInt16 → S) : List (K × V) :=
  collect c B.localGetAllDataInServer segments

end Operations

inductive Op (K V : Type*) where
  | put (key : K) (data : V)
  | get (key : K)
  | erase (key : K)
  | getAllData

inductive Answer (K V : Type*) where
  | put (ok : Bool)
  | get (found : Bool × V)
  | erase (found : Bool × V)
  | getAllData (entries : List (K × V))

/-- One call, made on one object. -/
structure Call (K V : Type*) where
  caller : Container
  op : Op K V

/-- A call by an object of a deployment of `n` servers. -/
def Call.Admitted (n : UInt16) (call : Call K V) : Prop :=
  call.caller.numServers = n ∧ call.caller.myServerIdx < n

/-- The servers process one call. -/
def Bodies.step (B : Bodies K V S) (keyHash : K → UInt64) (segments : UInt16 → S)
    (call : Call K V) : (UInt16 → S) × Answer K V :=
  match call.op with
  | .put key data =>
      let out := B.put keyHash call.caller key data segments
      (out.1, .put out.2.1)
  | .get key =>
      let out := B.get keyHash call.caller key segments
      (out.1, .get out.2)
  | .erase key =>
      let out := B.erase keyHash call.caller key segments
      (out.1, .erase out.2)
  | .getAllData => (segments, .getAllData (B.getAllData call.caller segments))

/-! ### The abstract map -/

/-- A single map, last write wins. `GetAllData` lists every entry once, in any order. -/
def Spec [DecidableEq K] [Inhabited V] (m : K → Option V) (call : Call K V) :
    Answer K V → (K → Option V) → Prop :=
  match call.op with
  | .put key data => fun a m' => a = .put true ∧ m' = fun q => if key = q then some data else m q
  | .get key => fun a m' =>
      a = .get (match m key with | some v => (true, v) | none => (false, default)) ∧ m' = m
  | .erase key => fun a m' =>
      a = .erase ((m key).isSome, default) ∧ m' = fun q => if key = q then none else m q
  | .getAllData => fun a m' => m' = m ∧ ∃ entries, a = .getAllData entries ∧
      (entries.map Prod.fst).Nodup ∧ ∀ k v, (k, v) ∈ entries ↔ m k = some v

/-- The deployment is one map: the answers to any calls by its objects, processed in
any order, are those of a single map, and in the state they lead to every key is
stored on at most one server and in at most one entry there. -/
def Bodies.IsOneMap [DecidableEq K] [Inhabited V] (B : Bodies K V S) (empty : S) (n : UInt16)
    (keyHash : K → UInt64) : Prop :=
  ∀ calls : List (Call K V), (∀ call ∈ calls, call.Admitted n) →
    let out := answers (B.step keyHash) (fun _ => empty) calls
    let keys := fun i => (B.localGetAllDataInServer (out.1 i)).map Prod.fst
    (∃ m, SpecRun Spec (fun _ => none) calls out.2 m) ∧
      (∀ i j k, k ∈ keys i → k ∈ keys j → i = j) ∧ ∀ i, (keys i).Nodup

/-! ### Lawful bodies -/

/-- What the bodies do to one table: `view` is what the table stores for each key and
`inv` holds of every table the bodies can produce. -/
structure Bodies.Lawful [DecidableEq K] [Inhabited V] (B : Bodies K V S) (empty : S)
    (view : S → K → Option V) (inv : S → Prop) : Prop where
  empty_inv : inv empty
  empty_view : ∀ k, view empty k = none
  put_inv : ∀ {k v s}, inv s → inv (B.localPut k v s).1
  put_view : ∀ {k v s}, inv s → ∀ q,
    view (B.localPut k v s).1 q = if k = q then some v else view s q
  put_answer : ∀ {k v s}, (B.localPut k v s).2.1 = true
  get_eq : ∀ {k s}, inv s → B.localGet k s =
    (s, match view s k with | some v => (true, v) | none => (false, default))
  erase_inv : ∀ {k s}, inv s → inv (B.localErase k s).1
  erase_view : ∀ {k s}, inv s → ∀ q,
    view (B.localErase k s).1 q = if k = q then none else view s q
  erase_answer : ∀ {k s}, inv s → (B.localErase k s).2 = ((view s k).isSome, default)
  mem_entries : ∀ {s}, inv s → ∀ k v,
    (k, v) ∈ B.localGetAllDataInServer s ↔ view s k = some v
  nodup_entries : ∀ {s}, inv s → ((B.localGetAllDataInServer s).map Prod.fst).Nodup

section Refinement

variable [DecidableEq K] [Inhabited V] {B : Bodies K V S} {empty : S}
  {view : S → K → Option V} {inv : S → Prop}

/-- The segments of a deployment of `n` servers hold the map `m`. -/
def Holds (view : S → K → Option V) (inv : S → Prop) (n : UInt16) (keyHash : K → UInt64)
    (segments : UInt16 → S) (m : K → Option V) : Prop :=
  Held view (fun k => hashServer (keyHash k) n) inv segments m

/-- One call: the servers answer as the single map does and keep holding it. -/
theorem Bodies.Lawful.step_simulates (lawful : B.Lawful empty view inv) {n : UInt16}
    (servers : 0 < n) {keyHash : K → UInt64} (segments : UInt16 → S) (m : K → Option V)
    (call : Call K V) (held : Holds view inv n keyHash segments m) (admitted : call.Admitted n) :
    ∃ m', Spec m call (B.step keyHash segments call).2 m' ∧
      Holds view inv n keyHash (B.step keyHash segments call).1 m' := by
  obtain ⟨c, op⟩ := call
  obtain ⟨rfl, own⟩ := admitted
  have respects : ∀ key q, key = q →
      hashServer (keyHash q) c.numServers = hashServer (keyHash key) c.numServers :=
    fun _ _ eq => by rw [eq]
  cases op with
  | put key data =>
      obtain ⟨paths, flag⟩ := dispatchWrite_eq c (hashServer (keyHash key) c.numServers)
        (B.localPut key) data segments
      refine ⟨_, ⟨?_, rfl⟩, ?_⟩
      · simp only [Bodies.step, Bodies.put, flag, onServer, lawful.put_answer]
      · simp only [Bodies.step, Bodies.put, paths, onServer]
        exact Held.write held (respects key) (lawful.put_inv (held.each _))
          (lawful.put_view (held.each _))
  | get key =>
      refine ⟨m, ⟨?_, rfl⟩, ?_⟩ <;>
        simp only [Bodies.step, Bodies.get, dispatch_eq, onServer, lawful.get_eq (held.each _)]
      · rw [Held.view_owner held key]
      · rwa [Function.update_eq_self]
  | erase key =>
      refine ⟨_, ⟨?_, rfl⟩, ?_⟩ <;> simp only [Bodies.step, Bodies.erase, dispatch_eq, onServer]
      · rw [lawful.erase_answer (held.each _), Held.view_owner held key]
      · exact Held.write held (respects key) (lawful.erase_inv (held.each _))
          (lawful.erase_view (held.each _))
  | getAllData =>
      have listed : c.myServerIdx ∈ c.serverRange := Container.mem_serverRange.mpr own
      refine ⟨m, ⟨rfl, _, rfl, ?_, fun k v => ?_⟩, held⟩ <;>
        simp only [Bodies.getAllData, collect_eq_gather]
      · refine gather_nodup_keys _ _ held.placed ?_
          (fun i => lawful.nodup_entries (held.each i)) c.serverRange_nodup listed
        intro i e mem
        rw [(lawful.mem_entries (held.each i) e.1 e.2).mp mem]
        rfl
      · rw [← held.merged_eq]
        exact mem_gather _ Prod.mk held.placed (fun i => lawful.mem_entries (held.each i))
          c.serverRange_nodup listed
          fun k => Container.mem_serverRange.mpr (hashServer_lt servers _)

/-- **A lawful container is one map over all its servers.** -/
theorem Bodies.Lawful.isOneMap (lawful : B.Lawful empty view inv) {n : UInt16} (servers : 0 < n)
    (keyHash : K → UInt64) : B.IsOneMap empty n keyHash := by
  intro calls admitted out keys
  have start : Holds view inv n keyHash (fun _ => empty) fun _ => none :=
    ⟨fun _ k _ => lawful.empty_view k, funext lawful.empty_view, fun _ => lawful.empty_inv⟩
  obtain ⟨m, run, held⟩ := answers_of_simulation (lawful.step_simulates servers) start admitted
  have owned : ∀ {i k}, k ∈ keys i → i = hashServer (keyHash k) n := by
    intro i k mem
    obtain ⟨⟨_, v⟩, stored, rfl⟩ := List.mem_map.mp mem
    exact (held.placed.merged_of_view ((lawful.mem_entries (held.each i) _ v).mp stored)).1
  exact ⟨⟨m, run⟩, fun i j k left right => (owned left).trans (owned right).symm,
    fun i => lawful.nodup_entries (held.each i)⟩

end Refinement

end Hcl.KeyValue
