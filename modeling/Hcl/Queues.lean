import Hcl.Lib.Keyed
import Hcl.Container

/-!
`hcl::queue`, `hcl::priority_queue` and `hcl::vector`: containers whose caller names the
server by its index. The three classes repeat `Push` around their own `LocalPush`.
-/

namespace Hcl

open Hcl.Lib Hcl.Lib.Keyed

variable {V S : Type*}

/-- `Push(data, key_int)` around a `LocalPush`: the new segments, the answer, and what
the call leaves in `data`. -/
def pushTo (localPush : V → S → S × (Bool × V)) (c : Container) (keyInt : UInt16) (data : V)
    (segments : UInt16 → S) : (UInt16 → S) × (Bool × V) :=
  dispatchWrite c keyInt localPush data segments

namespace Queue

/-- `boost::interprocess::deque`, front first. -/
abbrev MyQueue (V : Type*) := List V

/-- `LocalPush`. -/
def localPush [MoveOut V] (data : V) (queue : MyQueue V) : MyQueue V × (Bool × V) :=
  let (value, left) := getData data
  (queue ++ [value], (true, left))

def push [MoveOut V] (c : Container) (keyInt : UInt16) (data : V) (segments : UInt16 → MyQueue V) :
    (UInt16 → MyQueue V) × (Bool × V) :=
  pushTo localPush c keyInt data segments

end Queue

namespace PriorityQueue

/-- `std::priority_queue` as the multiset it is, kept in order; the top is the last
element. -/
structure MyQueue (V : Type*) [LinearOrder V] where
  elements : List V
  nondecreasing : Nondecreasing id elements

def MyQueue.push [LinearOrder V] (value : V) (queue : MyQueue V) : MyQueue V :=
  ⟨insertUpper id value queue.elements, queue.nondecreasing.insertUpper⟩

/-- `LocalPush`. -/
def localPush [LinearOrder V] [MoveOut V] (data : V) (queue : MyQueue V) :
    MyQueue V × (Bool × V) :=
  let (value, left) := getData data
  (queue.push value, (true, left))

def push [LinearOrder V] [MoveOut V] (c : Container) (keyInt : UInt16) (data : V)
    (segments : UInt16 → MyQueue V) : (UInt16 → MyQueue V) × (Bool × V) :=
  pushTo localPush c keyInt data segments

end PriorityQueue

namespace Vector

/-- `boost::interprocess::vector`. -/
abbrev MyVector (V : Type*) := Array V

/-- `LocalPush`. -/
def localPush [MoveOut V] (data : V) (vector : MyVector V) : MyVector V × (Bool × V) :=
  let (value, left) := getData data
  (vector.push value, (true, left))

def push [MoveOut V] (c : Container) (keyInt : UInt16) (data : V)
    (segments : UInt16 → MyVector V) : (UInt16 → MyVector V) × (Bool × V) :=
  pushTo localPush c keyInt data segments

end Vector

end Hcl
