import Mathlib.Data.List.AList
import Hcl.Lib.Runs
import Hcl.Lib.Shards
import Hcl.Container

/-!
`hcl::unordered_map`: one hash map spread over the servers.

The bottom layer follows `unordered_map.cpp`: the `Local*` bodies work on the
table of one segment and on the byte counter of the calling object, and `Put`,
`Get` and `Erase` compute a server index from the hash of the key and run the
body there, directly or by RPC.

`Put` narrows the hash to 16 bits *before* it takes the remainder
(`(uint16_t)keyHash(key) % num_servers`), `Get` and `Erase` after it. So the
cluster is one map exactly when the two remainders agree on every key
(`isOneMap_iff`); with three servers the key of hash 65536 is put on server 0 and
looked up on server 1 (`not_isOneMap_three_servers`).
-/

namespace Hcl.UnorderedMap

open Hcl.Lib

variable {K V : Type*}

/-! ### The table of one server -/

/-- `boost::unordered_map` as a finite map. -/
abbrev HashMap (K V : Type*) := AList fun _ : K => V

/-- What a `Local*` body works on: the table in the segment, and the counter of the
object that runs the body. `size_occupied` is a member of the object, so it is not
shared between processes. -/
structure Local (K V : Type*) where
  myHashMap : HashMap K V
  sizeOccupied : UInt64

section Local

variable [DecidableEq K]

/-- `insert_or_assign`: the new table, and whether the key was inserted. -/
def insertOrAssign (key : K) (value : V) (table : HashMap K V) : HashMap K V × Bool :=
  (table.insert key value, (table.lookup key).isNone)

/-- `LocalPut`. The branch of a server that is not on the node takes the mutex and
then does what the other branch does. The size is computed from `data` after
`GetData` moved out of it. -/
def localPut [MoveOut V] [CalculateSize K] [CalculateSize V] (key : K) (data : V)
    (s : Local K V) : Local K V × Bool :=
  let (value, left) := getData data
  let (table, inserted) := insertOrAssign key value s.myHashMap
  let added := CalculateSize.getSize key + CalculateSize.getSize left
  (⟨table, if inserted then s.sizeOccupied + added else s.sizeOccupied⟩, true)

/-- `LocalGet`. -/
def localGet [Inhabited V] (key : K) (s : Local K V) : Local K V × (Bool × V) :=
  match s.myHashMap.lookup key with
  | some value => (s, (true, value))
  | none => (s, (false, default))

/-- `LocalErase`: the answer carries a default value, never the erased one. -/
def localErase [Inhabited V] [CalculateSize K] [CalculateSize V] (key : K)
    (s : Local K V) : Local K V × (Bool × V) :=
  match s.myHashMap.lookup key with
  | some value =>
      let removed := CalculateSize.getSize key + CalculateSize.getSize value
      (⟨s.myHashMap.erase key, s.sizeOccupied - removed⟩, (true, default))
  | none => (s, (false, default))

end Local

/-! ### The cluster -/

/-- A process: the server of one segment, or a client. -/
inductive Process where
  | server (idx : UInt16)
  | client (id : Nat)
deriving DecidableEq, Repr

/-- The object a call is made on, and the process that holds it. -/
structure Caller extends Container where
  process : Process
deriving DecidableEq, Repr

/-- The tables of all servers and the counters of all processes. -/
structure Cluster (K V : Type*) where
  segment : UInt16 → HashMap K V
  sizeOccupied : Process → UInt64

/-- Before any call every table is empty and every counter zero. -/
def Cluster.init : Cluster K V := ⟨fun _ => ∅, fun _ => 0⟩

/-- Process `p` runs a body on the table of server `i`. -/
def Cluster.access {R : Type*} (i : UInt16) (p : Process) (body : Local K V → Local K V × R)
    (s : Cluster K V) : Cluster K V × R :=
  let out := body ⟨s.segment i, s.sizeOccupied p⟩
  (⟨Function.update s.segment i out.1.myHashMap,
    Function.update s.sizeOccupied p out.1.sizeOccupied⟩, out.2)

/-- The caller runs the body on its own server's table, or an RPC runs it in the
process of server `keyInt`, exactly once. -/
def Cluster.call {R : Type*} (c : Caller) (keyInt : UInt16) (body : Local K V → Local K V × R)
    (s : Cluster K V) : Cluster K V × R :=
  if c.isLocal keyInt then s.access c.myServerIdx c.process body
  else s.access keyInt (.server keyInt) body

/-- Whichever path a call takes, it runs the body once on the table of server
`keyInt`; only the counter it works on depends on the path. -/
theorem Cluster.call_eq {R : Type*} (c : Caller) (keyInt : UInt16)
    (body : Local K V → Local K V × R) (s : Cluster K V) :
    ∃ p, s.call c keyInt body = s.access keyInt p body := by
  unfold Cluster.call
  split
  · rename_i here
    exact ⟨c.process, by rw [Container.eq_myServerIdx_of_isLocal here]⟩
  · exact ⟨_, rfl⟩

/-! ### Put, Get and Erase -/

/-- The server `Put` computes: `(uint16_t)keyHash(key) % num_servers`. The cast binds
tighter than the remainder. -/
def putServer (keyHash : K → UInt64) (numServers : UInt16) (key : K) : UInt16 :=
  (keyHash key).toUInt16 % numServers

/-- The server `Get` computes: `static_cast<uint16_t>(key_hash % num_servers)`. -/
def getServer (keyHash : K → UInt64) (numServers : UInt16) (key : K) : UInt16 :=
  hashServer (keyHash key) numServers

/-- The server `Erase` computes, as `Get` does. -/
def eraseServer (keyHash : K → UInt64) (numServers : UInt16) (key : K) : UInt16 :=
  hashServer (keyHash key) numServers

section Operations

variable [DecidableEq K] [Inhabited V] [MoveOut V] [CalculateSize K] [CalculateSize V]
  (keyHash : K → UInt64)

def put (c : Caller) (key : K) (data : V) (s : Cluster K V) : Cluster K V × Bool :=
  s.call c (putServer keyHash c.numServers key) (localPut key data)

def get (c : Caller) (key : K) (s : Cluster K V) : Cluster K V × (Bool × V) :=
  s.call c (getServer keyHash c.numServers key) (localGet key)

def erase (c : Caller) (key : K) (s : Cluster K V) : Cluster K V × (Bool × V) :=
  s.call c (eraseServer keyHash c.numServers key) (localErase key)

end Operations

inductive Op (K V : Type*) where
  | put (key : K) (data : V)
  | get (key : K)
  | erase (key : K)

inductive Answer (V : Type*) where
  | put (ok : Bool)
  | get (found : Bool × V)
  | erase (found : Bool × V)
deriving DecidableEq, Repr

/-- One call, made by one object. -/
structure Call (K V : Type*) where
  caller : Caller
  op : Op K V

/-- The cluster processes one call. -/
def step [DecidableEq K] [Inhabited V] [MoveOut V] [CalculateSize K] [CalculateSize V]
    (keyHash : K → UInt64) (s : Cluster K V) (call : Call K V) : Cluster K V × Answer V :=
  match call.op with
  | .put key data => let out := put keyHash call.caller key data s; (out.1, .put out.2)
  | .get key => let out := get keyHash call.caller key s; (out.1, .get out.2)
  | .erase key => let out := erase keyHash call.caller key s; (out.1, .erase out.2)

/-! ### The abstract map -/

/-- A single map: `Put` overwrites, `Get` reads, `Erase` removes and says whether the
key was there. -/
def specStep [DecidableEq K] [Inhabited V] (m : K → Option V) (call : Call K V) :
    (K → Option V) × Answer V :=
  match call.op with
  | .put key data => (fun q => if key = q then some data else m q, .put true)
  | .get key => (m, .get (match m key with | some v => (true, v) | none => (false, default)))
  | .erase key => (fun q => if key = q then none else m q, .erase ((m key).isSome, default))

/-- A call by an object of a deployment of `n` servers. -/
def Call.Admitted (n : UInt16) (call : Call K V) : Prop :=
  call.caller.numServers = n ∧ call.caller.myServerIdx < n

section Refinement

variable [DecidableEq K] [Inhabited V] [MoveOut V] [CalculateSize K] [CalculateSize V]

/-- The deployment is one map: whatever calls its objects make and in whatever order
they are processed, every answer is the one a single map gives. -/
def IsOneMap (V : Type*) [Inhabited V] [MoveOut V] [CalculateSize V] (n : UInt16)
    (keyHash : K → UInt64) : Prop :=
  ∀ calls : List (Call K V), (∀ call ∈ calls, call.Admitted n) →
    (answers (step keyHash) Cluster.init calls).2 = (answers specStep (fun _ => none) calls).2

/-- The three operations send every key to the same server. -/
def SameServer (n : UInt16) (keyHash : K → UInt64) : Prop :=
  ∀ key, putServer keyHash n key = getServer keyHash n key ∧
    getServer keyHash n key = eraseServer keyHash n key

/-- What a table stores for a key. -/
def view (table : HashMap K V) (key : K) : Option V := table.lookup key

/-- The cluster holds the map `m`: each key is stored on the server `Get` looks on,
and nowhere else. -/
def Holds (n : UInt16) (keyHash : K → UInt64) (s : Cluster K V) (m : K → Option V) : Prop :=
  Held view (getServer keyHash n) (fun _ => True) s.segment m

omit [Inhabited V] [MoveOut V] [CalculateSize K] [CalculateSize V] in
/-- A body that changes what the table stores for one key, run on the server of that
key, changes the held map at that key. -/
theorem Holds.access {R : Type*} {n : UInt16} {keyHash : K → UInt64} {s : Cluster K V}
    {m : K → Option V} (held : Holds n keyHash s m) {key : K} {p : Process}
    {body : Local K V → Local K V × R} {x : Option V}
    (writes : ∀ l q, view (body l).1.myHashMap q = if key = q then x else view l.myHashMap q) :
    Holds n keyHash (s.access (getServer keyHash n key) p body).1
      fun q => if key = q then x else m q :=
  Held.write held (fun q eq => by rw [eq]) trivial (writes _)

omit [Inhabited V] in
theorem view_localPut (key : K) (data : V) (l : Local K V) (q : K) :
    view (localPut key data l).1.myHashMap q =
      if key = q then some data else view l.myHashMap q := by
  by_cases eq : key = q
  · subst eq
    simp [localPut, view, insertOrAssign, getData]
  · simp [localPut, view, insertOrAssign, getData, eq, AList.lookup_insert_ne (Ne.symm eq)]

omit [MoveOut V] in
theorem view_localErase (key : K) (l : Local K V) (q : K) :
    view (localErase key l).1.myHashMap q = if key = q then none else view l.myHashMap q := by
  unfold localErase
  cases stored : l.myHashMap.lookup key with
  | some value =>
      by_cases eq : key = q
      · subst eq
        simp [view]
      · simp [view, eq, AList.lookup_erase_ne (Ne.symm eq)]
  | none =>
      by_cases eq : key = q
      · subst eq
        simp [view, stored]
      · simp [eq]

/-- One call: where `Put` and `Get` agree on the server of every key, the cluster
answers as the single map does and keeps holding it. -/
theorem step_simulates {n : UInt16} {keyHash : K → UInt64}
    (agree : ∀ key, putServer keyHash n key = getServer keyHash n key)
    (s : Cluster K V) (m : K → Option V) (call : Call K V)
    (held : Holds n keyHash s m) (admitted : call.Admitted n) :
    Holds n keyHash (step keyHash s call).1 (specStep m call).1 ∧
      (step keyHash s call).2 = (specStep m call).2 := by
  obtain ⟨c, op⟩ := call
  obtain ⟨rfl, -⟩ := admitted
  cases op with
  | put key data =>
      obtain ⟨p, path⟩ := s.call_eq c (getServer keyHash c.numServers key) (localPut key data)
      have routed : putServer keyHash c.numServers key = getServer keyHash c.numServers key :=
        agree key
      simp only [step, specStep, put, routed, path]
      exact ⟨held.access (view_localPut key data), rfl⟩
  | get key =>
      obtain ⟨p, path⟩ := s.call_eq c (getServer keyHash c.numServers key) (localGet key)
      have stored : (s.segment (getServer keyHash c.numServers key)).lookup key = m key :=
        held.view_owner key
      simp only [step, specStep, get, path, Cluster.access, localGet, stored]
      -- `localGet` hands its state back, so both updates write what was there.
      cases m key <;> simpa only [Function.update_eq_self, and_true] using held
  | erase key =>
      obtain ⟨p, path⟩ := s.call_eq c (eraseServer keyHash c.numServers key) (localErase key)
      have stored : (s.segment (eraseServer keyHash c.numServers key)).lookup key = m key :=
        held.view_owner key
      simp only [step, specStep, erase, path]
      refine ⟨held.access (view_localErase key), ?_⟩
      simp only [Cluster.access, localErase, stored]
      cases m key <;> rfl

omit [Inhabited V] [MoveOut V] [CalculateSize K] [CalculateSize V] in
theorem holds_init (n : UInt16) (keyHash : K → UInt64) :
    Holds (V := V) n keyHash Cluster.init fun _ => none :=
  ⟨fun _ _ _ => rfl, rfl, fun _ => trivial⟩

/-- An object of a deployment of `n` servers that is on no server's node. -/
def remoteCaller (n : UInt16) : Caller :=
  { numServers := n, myServerIdx := 0, isServer := false, serverOnNode := false,
    process := .client 0 }

/-- A key put on one server and looked up on another is not found. -/
theorem get_after_put_misses {n : UInt16} {keyHash : K → UInt64} {key : K} (data : V)
    (apart : putServer keyHash n key ≠ getServer keyHash n key) :
    (answers (step keyHash) Cluster.init
        [⟨remoteCaller n, .put key data⟩, ⟨remoteCaller n, .get key⟩]).2 =
      [.put true, .get (false, default)] := by
  simp [step, put, get, Cluster.call, Cluster.access, Container.isLocal, remoteCaller,
    Cluster.init, localPut, localGet, Function.update_of_ne apart.symm]

omit [DecidableEq K] [CalculateSize K] in
/-- The routings agree on a key when the low 16 bits of its hash and the whole hash
have the same remainder. -/
theorem putServer_eq_getServer_iff {n : UInt16} (servers : 0 < n) (keyHash : K → UInt64) (key : K) :
    putServer keyHash n key = getServer keyHash n key ↔
      ((keyHash key).toNat % 65536) % n.toNat = (keyHash key).toNat % n.toNat := by
  rw [← UInt16.toNat_inj, getServer, hashServer_toNat servers, putServer, UInt16.toNat_mod,
    UInt64.toNat_toUInt16]

/-- **The cluster is one map exactly when the two routings agree**, that is, when for
every key the low 16 bits of the hash and the whole hash have the same remainder
modulo the number of servers. The same condition decides whether the three
operations use one server. -/
theorem isOneMap_iff {n : UInt16} (servers : 0 < n) (keyHash : K → UInt64) :
    (IsOneMap V n keyHash ↔
        ∀ key, ((keyHash key).toNat % 65536) % n.toNat = (keyHash key).toNat % n.toNat) ∧
      (SameServer n keyHash ↔
        ∀ key, ((keyHash key).toNat % 65536) % n.toNat = (keyHash key).toNat % n.toNat) := by
  simp only [← putServer_eq_getServer_iff servers]
  refine ⟨⟨?_, ?_⟩,
    fun same key => (same key).1, fun agree key => ⟨agree key, rfl⟩⟩
  · intro one key
    by_contra apart
    have admitted : (⟨remoteCaller n, .put key default⟩ : Call K V).Admitted n ∧
        (⟨remoteCaller n, .get key⟩ : Call K V).Admitted n := ⟨⟨rfl, servers⟩, rfl, servers⟩
    have found := one [⟨remoteCaller n, .put key default⟩, ⟨remoteCaller n, .get key⟩]
      (by simpa using admitted)
    -- The cluster misses the key, the single map finds it.
    rw [get_after_put_misses default apart] at found
    simp [specStep] at found
  · intro agree calls admitted
    exact (answers_eq_of_simulation (step_simulates agree) (holds_init n keyHash) admitted).2

end Refinement

/-- With two servers every hash has the same remainder in both routings. -/
theorem isOneMap_iff_two_servers :
    (0 : UInt16) < 2 ∧ IsOneMap UInt64 2 (fun key : UInt64 => key) := by
  refine ⟨by decide, ((isOneMap_iff (by decide) _).1).mpr ?_⟩
  intro key
  exact Nat.mod_mod_of_dvd _ (by decide)

/-- With three servers and the identity hash the key 65536 is put on server 0 and
looked up on server 1. -/
theorem not_isOneMap_three_servers :
    ¬ (IsOneMap UInt64 3 (fun key : UInt64 => key) ∧ SameServer 3 (fun key : UInt64 => key)) := by
  rintro ⟨one, -⟩
  have found := one [⟨remoteCaller 3, .put 65536 7⟩, ⟨remoteCaller 3, .get 65536⟩]
    (by simp [Call.Admitted, remoteCaller])
  revert found
  decide

end Hcl.UnorderedMap
