import Mathlib.Logic.Function.Basic
import Mathlib.Data.List.Basic

/-!
The nodes of the skip list and the recycler that hands them out: `skip_list_inl.h`.

Memory maps addresses to nodes; the null pointer is `none`. Reads and writes of a link
check the assertion `layer < height_`, and memory that holds no node reads as a node of
height 0, so a stray access is stuck (`none`) instead of returning something. The same
holds for a guard that is already taken: alone, a thread that waits for it waits forever.

The recycler keeps removed nodes in one queue per height and hands them out again with
their flags cleared, but with the data and the links they had.
-/

namespace Hcl

/-- `SkipListNode<T>`: the three flags, `spinLock_`, the data and the links. -/
@[ext] structure SkipListNode (T : Type) where
  isHead : Bool
  marked : Bool
  fullyLinked : Bool
  height : Nat
  locked : Bool
  data : T
  skip : Nat → Option Nat

/-- `SkipListNode(height, data, isHead = false)`. -/
def SkipListNode.create {T : Type} (height : Nat) (data : T) : SkipListNode T where
  isHead := false
  marked := false
  fullyLinked := false
  height := height
  locked := false
  data := data
  skip _ := none

/-- `ConcurrentSkipList` with its recycler and the memory. `nextAddress` is the first
address the allocator has not handed out yet. -/
@[ext] structure ConcurrentSkipList (T : Type) where
  memory : Nat → SkipListNode T
  nextAddress : Nat
  nodeQueues : Nat → List Nat
  head : Nat
  size : Nat

namespace ConcurrentSkipList

variable {T : Type}

/-! ### Reads and writes of one node -/

/-- A write to the node at `p`. -/
def modify (p : Nat) (f : SkipListNode T → SkipListNode T) (s : ConcurrentSkipList T) :
    ConcurrentSkipList T :=
  { s with memory := Function.update s.memory p (f (s.memory p)) }

section Modify

variable (p : Nat) (f : SkipListNode T → SkipListNode T) (s : ConcurrentSkipList T)

@[simp] theorem modify_self : (s.modify p f).memory p = f (s.memory p) := Function.update_self ..

theorem modify_of_ne {q : Nat} (other : q ≠ p) : (s.modify p f).memory q = s.memory q :=
  Function.update_of_ne other ..

@[simp] theorem modify_head : (s.modify p f).head = s.head := rfl

theorem modify_modify (g : SkipListNode T → SkipListNode T) :
    (s.modify p f).modify p g = s.modify p fun n => g (f n) := by
  simp [modify]

/-- A part of the nodes that the write keeps is kept everywhere. -/
theorem modify_keeps {A : Type*} (part : SkipListNode T → A)
    (keeps : part (f (s.memory p)) = part (s.memory p)) (q : Nat) :
    part ((s.modify p f).memory q) = part (s.memory q) := by
  by_cases here : q = p
  · rw [here, modify_self, keeps]
  · rw [modify_of_ne p f s here]

end Modify

/-- What is read of a node besides its links and its lock. -/
def core (n : SkipListNode T) : Bool × Bool × Nat × T := (n.marked, n.fullyLinked, n.height, n.data)

theorem core_eq {n m : SkipListNode T} (same : core n = core m) :
    n.marked = m.marked ∧ n.fullyLinked = m.fullyLinked ∧ n.height = m.height ∧ n.data = m.data := by
  simpa [core] using same

/-- `p->skip(layer)`. -/
def skip (s : ConcurrentSkipList T) (p layer : Nat) : Option (Option Nat) :=
  if layer < (s.memory p).height then some ((s.memory p).skip layer) else none

theorem skip_eq {s : ConcurrentSkipList T} {p layer : Nat} (inside : layer < (s.memory p).height) :
    s.skip p layer = some ((s.memory p).skip layer) :=
  if_pos inside

/-- The write of `setSkip`. -/
def writeSkip (p layer : Nat) (next : Option Nat) (s : ConcurrentSkipList T) :
    ConcurrentSkipList T :=
  s.modify p fun n => { n with skip := Function.update n.skip layer next }

/-- `p->setSkip(layer, next)`. -/
def setSkip (p layer : Nat) (next : Option Nat) (s : ConcurrentSkipList T) :
    Option (ConcurrentSkipList T) :=
  if layer < (s.memory p).height then some (s.writeSkip p layer next) else none

theorem setSkip_eq {s : ConcurrentSkipList T} {p layer : Nat} {next : Option Nat}
    (inside : layer < (s.memory p).height) :
    s.setSkip p layer next = some (s.writeSkip p layer next) :=
  if_pos inside

/-- `p->acquireGuard()`. -/
def acquireGuard (p : Nat) (s : ConcurrentSkipList T) : Option (ConcurrentSkipList T) :=
  if (s.memory p).locked then none else some (s.modify p fun n => { n with locked := true })

/-- `p->releaseGuard()`. -/
def releaseGuard (p : Nat) (s : ConcurrentSkipList T) : ConcurrentSkipList T :=
  s.modify p fun n => { n with locked := false }

/-- `p->setFullyLinked()`. -/
def setFullyLinked (p : Nat) (s : ConcurrentSkipList T) : ConcurrentSkipList T :=
  s.modify p fun n => { n with fullyLinked := true }

/-- `p->setMarkedForRemoval()`. -/
def setMarkedForRemoval (p : Nat) (s : ConcurrentSkipList T) : ConcurrentSkipList T :=
  s.modify p fun n => { n with marked := true }

/-- `p->storeData(data)`. -/
def storeData (p : Nat) (data : T) (s : ConcurrentSkipList T) : ConcurrentSkipList T :=
  s.modify p fun n => { n with data := data }

/-- `p->copyHead(node)`: the flags, and the links of the layers that `node` has. -/
def copyHead (p node : Nat) (s : ConcurrentSkipList T) : ConcurrentSkipList T :=
  s.modify p fun n =>
    { n with
      isHead := (s.memory node).isHead
      marked := (s.memory node).marked
      fullyLinked := (s.memory node).fullyLinked
      skip := fun i => if i < (s.memory node).height then (s.memory node).skip i else n.skip i }

/-! ### The recycler -/

variable [Inhabited T]

/-- `chunk_size`. -/
def chunkSize : Nat := 100

/-- `node_queues.resize(64)`. -/
def queueCount : Nat := 64

/-- `NodeType::create(alloc_, h, v())`, pushed to the queue of its height. -/
def createQueued (h : Nat) (s : ConcurrentSkipList T) : ConcurrentSkipList T :=
  { s with
    memory := Function.update s.memory s.nextAddress (.create h default)
    nextAddress := s.nextAddress + 1
    nodeQueues := Function.update s.nodeQueues h (s.nodeQueues h ++ [s.nextAddress]) }

/-- The `for` loop of `pop`. -/
def refill (h : Nat) : Nat → ConcurrentSkipList T → ConcurrentSkipList T
  | 0, s => s
  | n + 1, s => refill h n (s.createQueued h)

/-- `node_queues[h]->push(node)`. -/
def enqueue (h node : Nat) (s : ConcurrentSkipList T) : ConcurrentSkipList T :=
  { s with nodeQueues := Function.update s.nodeQueues h (s.nodeQueues h ++ [node]) }

/-- `recycler_.push(h, node)`. -/
def push (h node : Nat) (s : ConcurrentSkipList T) : Option (ConcurrentSkipList T) :=
  if h < queueCount then some (s.enqueue h node) else none

/-- The pop of `node_queues[h]`, with the flags of the node set as `pop` sets them. -/
def dequeue (h : Nat) (isHead : Bool) (s : ConcurrentSkipList T) :
    Option (ConcurrentSkipList T × Nat) :=
  match s.nodeQueues h with
  | [] => none
  | p :: rest =>
      let s := { s with nodeQueues := Function.update s.nodeQueues h rest }
      some (s.modify p fun n =>
        { n with isHead := isHead, marked := false, fullyLinked := false }, p)

/-- The queue that `pop` takes from: an empty one is refilled first. -/
def stocked (h : Nat) (s : ConcurrentSkipList T) : ConcurrentSkipList T :=
  if s.nodeQueues h = [] then refill h chunkSize s else s

/-- `recycler_.pop(h, ishead)`. -/
def pop (h : Nat) (isHead : Bool) (s : ConcurrentSkipList T) :
    Option (ConcurrentSkipList T × Nat) :=
  if h < queueCount then (s.stocked h).dequeue h isHead else none

/-- `NodeType::destroy(alloc, node)`. -/
def destroy (p : Nat) (s : ConcurrentSkipList T) : ConcurrentSkipList T :=
  s.modify p fun _ => .create 0 default

end ConcurrentSkipList

end Hcl
