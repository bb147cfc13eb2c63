import Mathlib.Logic.Function.Basic
import Hcl.BlockMap.MemoryPool

/-!
The block map: `block_map.h`.

A table of fixed size; every bucket is a linked list behind a sentinel node. The
functions below follow the source loop by loop. A loop over a bucket is run for at most
as many rounds as there are allocated nodes: a walk that is longer is in a cycle and
never ends, which is answered with `none`.

The table is memory from `malloc`, and no `std::mutex` is constructed in it. What the
memory happens to hold is a parameter of the constructor (`RawTable`), and a call that
locks a mutex whose bytes are not those of a free one does not return, which is `none` as
well.
-/

namespace Hcl

variable {K V A : Type}

/-- `HashFcn` and `EqualFcn`: an equality on keys and a hash that respects it. -/
structure KeyOps (K : Type) where
  hash : K → UInt64
  equal : K → K → Bool
  refl : ∀ k, equal k k
  symm : ∀ {k q}, equal k q → equal q k
  trans : ∀ {k q r}, equal k q → equal q r → equal k r
  hash_eq : ∀ {k q}, equal k q → hash k = hash q

/-- Of two equal keys neither has the greater hash. -/
theorem KeyOps.not_greater (ops : KeyOps K) {k q : K} (same : ops.equal k q = true) :
    ¬ ops.hash k > ops.hash q := by
  rw [ops.hash_eq same]
  exact UInt64.lt_irrefl _

/-- Any hash, with the equality of the type. -/
def KeyOps.ofHash [DecidableEq K] (hash : K → UInt64) : KeyOps K where
  hash := hash
  equal k q := k == q
  refl k := beq_self_eq_true k
  symm h := beq_iff_eq.mpr (beq_iff_eq.mp h).symm
  trans h h' := beq_iff_eq.mpr ((beq_iff_eq.mp h).trans (beq_iff_eq.mp h'))
  hash_eq h := congrArg hash (beq_iff_eq.mp h)

/-- Numbers that are their own hash. -/
def KeyOps.identity : KeyOps UInt64 := KeyOps.ofHash fun k => k

/-- What the bytes at the place of a `std::mutex` are to `lock()`: a free mutex, or anything on which
the call waits for ever or ends the process. -/
inductive Mutex where
  | unlocked
  | other
deriving DecidableEq

/-- `struct f_node`. -/
structure FNode where
  numNodes : UInt64
  mutexT : Mutex
  head : Nat

/-- What `std::malloc(maxSize * sizeof(fnode_type))` returns: room for a number of buckets (none
for a null pointer, too few where the product has wrapped around), and bytes that were there
before. -/
structure RawTable where
  room : Nat
  mutexes : UInt64 → Mutex

/-- The constructor's assertions on the memory and on the size, where the table is not empty. -/
def RawTable.Admits (raw : RawTable) (n : UInt64) : Prop :=
  n.toNat ≤ raw.room ∧ n < 18446744073709551615

instance (raw : RawTable) (n : UInt64) : Decidable (raw.Admits n) :=
  inferInstanceAs (Decidable (_ ∧ _))

/-- `class BlockMap`, with the pool it points to. -/
structure BlockMap (K V : Type) where
  table : UInt64 → FNode
  maxSize : UInt64
  allocated : UInt64
  removed : UInt64
  pl : MemoryPool K V
  emptyKey : K

namespace BlockMap

/-- `NOT_IN_TABLE`, that is `UINT64_MAX`. -/
def notInTable : UInt64 := 18446744073709551615

/-- `EXISTS`. -/
def retExists : UInt32 := 1

/-- `INSERTED`. -/
def retInserted : UInt32 := 0

section Construct

variable [Inhabited K] [Inhabited V]

/-- One round of the constructor's loop: bucket `i` gets a count and a sentinel. Its mutex stays
what it was. -/
def constructBucket (b : BlockMap K V) (i : Nat) : Option (BlockMap K V) := do
  let (head, pl) ← b.pl.memoryPoolPop
  let pl := (pl.setKey head b.emptyKey).setNext head none
  let bucket := { b.table i.toUInt64 with numNodes := 0, head := head }
  return { b with pl := pl, table := Function.update b.table i.toUInt64 bucket }

/-- The members before the constructor's loop. -/
def unbuilt (raw : RawTable) (n : UInt64) (m : MemoryPool K V) (maxKey : K) : BlockMap K V where
  table i := { numNodes := 0, mutexT := raw.mutexes i, head := 0 }
  maxSize := n
  allocated := 0
  removed := 0
  pl := m
  emptyKey := maxKey

/-- `BlockMap(n, m, maxKey)`, where `malloc` returns `raw`: `none` where an assertion fails or the
loop writes behind the memory. -/
def new (raw : RawTable) (n : UInt64) (m : MemoryPool K V) (maxKey : K) : Option (BlockMap K V) := do
  guard (n > 0)
  guard (n.toNat ≤ raw.room)
  let b ← (List.range n.toNat).foldlM constructBucket (unbuilt raw n m maxKey)
  guard (n < 18446744073709551615)
  return b

end Construct

section Operations

variable (ops : KeyOps K)

/-- `KeyToIndex`. -/
def keyToIndex (b : BlockMap K V) (k : K) : UInt64 := ops.hash k % b.maxSize

/-- `table[pos].mutex_t.lock()`, with nobody else at work. The `unlock()` at the end of a call
leaves the mutex as this found it. -/
def lock (b : BlockMap K V) (pos : UInt64) : Option Unit :=
  match (b.table pos).mutexT with
  | .unlocked => some ()
  | .other => none

/-- The bucket of the key has a free mutex. -/
def Free (b : BlockMap K V) (k : K) : Prop := (b.table (b.keyToIndex ops k)).mutexT = .unlocked

theorem lock_eq_some_iff {b : BlockMap K V} {pos : UInt64} {u : Unit} :
    b.lock pos = some u ↔ (b.table pos).mutexT = .unlocked := by
  unfold lock
  cases (b.table pos).mutexT <;> simp

theorem Free.lock {b : BlockMap K V} {k : K} (free : b.Free ops k) :
    b.lock (b.keyToIndex ops k) = some () :=
  lock_eq_some_iff.mpr free

/-- The first node behind the sentinel of a bucket: `table[pos].head->next`. -/
def first (b : BlockMap K V) (pos : UInt64) : Option Nat := (b.pl.memory (b.table pos).head).next

/-- The loop of `insert`: the last node passed, the node it stopped at, and whether a
node of the key was met. -/
def insertWalk (pl : MemoryPool K V) (k : K) :
    Nat → Nat → Option Nat → Bool → Option (Nat × Option Nat × Bool)
  | _, p, none, found => some (p, none, found)
  | 0, _, some _, _ => none
  | fuel + 1, p, some n, found =>
      let found := if ops.equal (pl.memory n).key k then true else found
      if ops.hash (pl.memory n).key > ops.hash k then some (p, some n, found)
      else insertWalk pl k fuel n (pl.memory n).next found

/-- `insert`. -/
def insert [Inhabited K] [Inhabited V] (b : BlockMap K V) (k : K) (v : V) :
    Option (BlockMap K V × UInt32) := do
  let pos := b.keyToIndex ops k
  b.lock pos
  let (p, n, found) ←
    insertWalk ops b.pl k b.pl.mallocNext (b.table pos).head (b.first pos) false
  if found then return (b, retExists)
  else
    let (newNode, pl) ← b.pl.memoryPoolPop
    let pl := ((pl.setKey newNode k).setValue newNode v).setNext newNode n
    let pl := pl.setNext p (some newNode)
    let bucket := { b.table pos with numNodes := (b.table pos).numNodes + 1 }
    return ({ b with
      allocated := b.allocated + 1, pl := pl, table := Function.update b.table pos bucket },
      retInserted)

theorem insert_free [Inhabited K] [Inhabited V] {b : BlockMap K V} {k : K} {v : V} {out}
    (done : b.insert ops k v = some out) : b.Free ops k := by
  obtain ⟨_, locked, -⟩ := Option.bind_eq_some_iff.mp done
  exact lock_eq_some_iff.mp locked

/-- The loop of `find`, `update`, `get` and `update_field`. At every node of the key the loop
sets `found` and does `onEqual`, which may write to the node and to `s`. -/
def scan {S : Type} (onEqual : Nat → MemoryPool K V → S → MemoryPool K V × S) (k : K) :
    Nat → Option Nat → MemoryPool K V → Bool → S → Option (MemoryPool K V × Bool × S)
  | _, none, pl, found, s => some (pl, found, s)
  | 0, some _, _, _, _ => none
  | fuel + 1, some n, pl, found, s =>
      let out :=
        if ops.equal (pl.memory n).key k then ((onEqual n pl s).1, true, (onEqual n pl s).2)
        else (pl, found, s)
      if ops.hash (out.1.memory n).key > ops.hash k then some out
      else scan onEqual k fuel (out.1.memory n).next out.1 out.2.1 out.2.2

/-- `find`: nothing is written. -/
def find (b : BlockMap K V) (k : K) : Option (BlockMap K V × UInt64) := do
  let pos := b.keyToIndex ops k
  b.lock pos
  let (pl, found, _) ← scan ops (fun _ pl s => (pl, s)) k b.pl.mallocNext (b.first pos) b.pl false ()
  return ({ b with pl := pl }, if found then pos else notInTable)

/-- `update`: `n->value = v`. -/
def update (b : BlockMap K V) (k : K) (v : V) : Option (BlockMap K V × Bool) := do
  let pos := b.keyToIndex ops k
  b.lock pos
  let (pl, found, _) ←
    scan ops (fun n pl s => (pl.setValue n v, s)) k b.pl.mallocNext (b.first pos) b.pl false ()
  return ({ b with pl := pl }, found)

/-- `get`: the loop starts at the sentinel itself. The answer also has what the call leaves
in `*v`. -/
def get (b : BlockMap K V) (k : K) (v : V) : Option (BlockMap K V × Bool × V) := do
  let pos := b.keyToIndex ops k
  b.lock pos
  let (pl, found, v) ←
    scan ops (fun n pl _ => (pl, (pl.memory n).value)) k b.pl.mallocNext (some (b.table pos).head)
      b.pl false v
  return ({ b with pl := pl }, found, v)

/-- `update_field`. The function reads and writes the value and its arguments, so a
second application would see what the first one left. -/
def updateField (b : BlockMap K V) (k : K) (fn : V → A → V × A) (args : A) :
    Option (BlockMap K V × Bool × A) := do
  let pos := b.keyToIndex ops k
  b.lock pos
  let (pl, found, args) ←
    scan ops
      (fun n pl args =>
        let out := fn (pl.memory n).value args
        (pl.setValue n out.1, out.2))
      k b.pl.mallocNext (b.first pos) b.pl false args
  return ({ b with pl := pl }, found, args)

/-- The loop of `erase`: the last node passed and the node it stopped at. -/
def eraseWalk (pl : MemoryPool K V) (k : K) : Nat → Nat → Option Nat → Option (Nat × Option Nat)
  | _, p, none => some (p, none)
  | 0, _, some _ => none
  | fuel + 1, p, some n =>
      if ops.equal (pl.memory n).key k then some (p, some n)
      else if ops.hash (pl.memory n).key > ops.hash k then some (p, some n)
      else eraseWalk pl k fuel n (pl.memory n).next

/-- `erase`. -/
def erase (b : BlockMap K V) (k : K) : Option (BlockMap K V × Bool) := do
  let pos := b.keyToIndex ops k
  b.lock pos
  let (p, n) ← eraseWalk ops b.pl k b.pl.mallocNext (b.table pos).head (b.first pos)
  match n with
  | none => return (b, false)
  | some n =>
      if ops.equal (b.pl.memory n).key k then
        let pl := (b.pl.setNext p (b.pl.memory n).next).memoryPoolPush n
        let bucket := { b.table pos with numNodes := (b.table pos).numNodes - 1 }
        return ({ b with
          removed := b.removed + 1, pl := pl, table := Function.update b.table pos bucket }, true)
      else return (b, false)

theorem erase_free {b : BlockMap K V} {k : K} {out} (done : b.erase ops k = some out) :
    b.Free ops k := by
  obtain ⟨_, locked, -⟩ := Option.bind_eq_some_iff.mp done
  exact lock_eq_some_iff.mp locked

end Operations

/-- `allocated_nodes`. -/
def allocatedNodes (b : BlockMap K V) : UInt64 := b.allocated

/-- `removed_nodes`. -/
def removedNodes (b : BlockMap K V) : UInt64 := b.removed

/-- `count_block_entries`. -/
def countBlockEntries (b : BlockMap K V) : UInt64 :=
  (List.range b.maxSize.toNat).foldl (fun numEntries i => numEntries + (b.table i.toUInt64).numNodes) 0

/-! ### Calls -/

inductive Op (K V A : Type) where
  | insert (k : K) (v : V)
  | find (k : K)
  | update (k : K) (v : V)
  | updateField (k : K) (fn : V → A → V × A) (args : A)
  | erase (k : K)

def Op.key : Op K V A → K
  | .insert k _ => k
  | .find k => k
  | .update k _ => k
  | .updateField k _ _ => k
  | .erase k => k

inductive Answer (A : Type) where
  | insert (ret : UInt32)
  | find (pos : UInt64)
  | update (found : Bool)
  | updateField (found : Bool) (args : A)
  | erase (found : Bool)

/-- One operation on the table. -/
def step [Inhabited K] [Inhabited V] (ops : KeyOps K) (b : BlockMap K V) :
    Op K V A → Option (BlockMap K V × Answer A)
  | .insert k v => do let (b, ret) ← b.insert ops k v; return (b, .insert ret)
  | .find k => do let (b, pos) ← b.find ops k; return (b, .find pos)
  | .update k v => do let (b, found) ← b.update ops k v; return (b, .update found)
  | .updateField k fn args => do
      let (b, found, args) ← b.updateField ops k fn args
      return (b, .updateField found args)
  | .erase k => do let (b, found) ← b.erase ops k; return (b, .erase found)

end BlockMap

end Hcl
