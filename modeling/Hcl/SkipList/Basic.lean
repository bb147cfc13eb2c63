import Hcl.SkipList.Node

/-!
The operations of the skip list: `skip_list.h` and `skip_list_accessor.h`.

The functions compute as the source does when one thread runs alone. `none` is a run that
does not come back with a result: a stray access, a guard that is never released, a wait
for a flag nobody sets, or a loop that used up its bound. The loops over links are bounded
by the number of addresses handed out, the retry loops by `fuel`.

`getHeight` compares one random number with the entries of a table; a draw is the
outcomes of these comparisons. The table of size limits is a parameter.
-/

namespace Hcl.ConcurrentSkipList

variable {T : Type} (lt : T → T → Prop) [DecidableRel lt]

/-! ### Search -/

/-- `greater(data, node)`. -/
def greater (s : ConcurrentSkipList T) (data : T) : Option Nat → Bool
  | none => false
  | some p => lt (s.memory p).data data

/-- `less(data, node)`. -/
def less (s : ConcurrentSkipList T) (data : T) : Option Nat → Bool
  | none => true
  | some p => lt data (s.memory p).data

/-- `while (greater(data, node)) { pred = node; node = node->skip(layer); }`. -/
def advance (s : ConcurrentSkipList T) (data : T) (layer : Nat) :
    Nat → Nat → Option Nat → Option (Nat × Option Nat)
  | _, pred, none => some (pred, none)
  | 0, pred, some p => if greater lt s data (some p) then none else some (pred, some p)
  | fuel + 1, pred, some p =>
      if greater lt s data (some p) then do
        let next ← s.skip p layer
        advance s data layer fuel p next
      else some (pred, some p)

/-- The locals of `findInsertionPoint`; `foundLayer` is `none` for -1. -/
structure InsertionPoint where
  preds : Nat → Option Nat
  succs : Nat → Option Nat
  foundLayer : Option Nat
  foundNode : Option Nat

def InsertionPoint.unset : InsertionPoint := ⟨fun _ => none, fun _ => none, none, none⟩

/-- The body of the loop of `findInsertionPoint` behind the inner loop. -/
def InsertionPoint.record (s : ConcurrentSkipList T) (data : T) (layer pred : Nat)
    (node : Option Nat) (point : InsertionPoint) : InsertionPoint :=
  let found := point.foundLayer.isNone && !less lt s data node
  let foundNode := if found then node else point.foundNode
  { preds := Function.update point.preds layer (some pred)
    succs := Function.update point.succs layer (if foundNode.isSome then foundNode else node)
    foundLayer := if found then some layer else point.foundLayer
    foundNode := foundNode }

/-- `findInsertionPoint(cur, cur_layer, data, preds, succs)` from layer `layers - 1` down. -/
def findInsertionPoint (s : ConcurrentSkipList T) (data : T) :
    Nat → Nat → InsertionPoint → Option InsertionPoint
  | 0, _, point => some point
  | layer + 1, pred, point => do
      let node ← s.skip pred layer
      let (pred, node) ← advance lt s data layer s.nextAddress pred node
      findInsertionPoint s data layer pred (point.record lt s data layer pred node)

/-- `height()`. -/
def height (s : ConcurrentSkipList T) : Nat := (s.memory s.head).height

/-- `findInsertionPointGetMaxLayer(data, preds, succs, &max_layer)`; `max_layer` is
`s.height - 1`. -/
def findInsertionPointGetMaxLayer (s : ConcurrentSkipList T) (data : T) :
    Option InsertionPoint :=
  findInsertionPoint lt s data s.height s.head .unset

/-- `for (; ht > 0 && less(data, node = pred->skip(ht - 1)); --ht)`. -/
def descend (s : ConcurrentSkipList T) (data : T) (pred : Nat) :
    Nat → Option Nat → Option (Nat × Option Nat)
  | 0, node => some (0, node)
  | ht + 1, _ => do
      let node ← s.skip pred ht
      if less lt s data node then descend s data pred ht node else some (ht + 1, node)

/-- The outer loop of `findNodeDownRight`. -/
def findNodeFrom (s : ConcurrentSkipList T) (data : T) :
    Nat → Nat → Nat → Option Nat → Option (Option Nat × Bool)
  | 0, _, _, _ => none
  | fuel + 1, pred, ht, node => do
      let (ht, node) ← descend lt s data pred ht node
      match ht with
      | 0 => some (node, false)
      | ht + 1 =>
          let (pred, node) ← advance lt s data ht s.nextAddress pred node
          if less lt s data node then findNodeFrom s data fuel pred ht node else some (node, true)

/-- `findNodeDownRight(data)`: each round of its loop goes down at least one layer. -/
def findNodeDownRight (s : ConcurrentSkipList T) (data : T) : Option (Option Nat × Bool) :=
  findNodeFrom lt s data (s.height + 1) s.head s.height none

/-- The loop of `findNodeRightDown` from layer `layers - 1` down. -/
def findNodeRightFrom (s : ConcurrentSkipList T) (data : T) :
    Nat → Nat → Option Nat → Option (Option Nat × Bool)
  | 0, _, node => some (node, false)
  | layer + 1, pred, _ => do
      let node ← s.skip pred layer
      let (pred, node) ← advance lt s data layer s.nextAddress pred node
      if less lt s data node then findNodeRightFrom s data layer pred node else some (node, true)

/-- `findNodeRightDown(data)`; its `top` is `s.height - 1`. -/
def findNodeRightDown (s : ConcurrentSkipList T) (data : T) : Option (Option Nat × Bool) :=
  findNodeRightFrom lt s data s.height s.head none

/-- `findNode(data)`. -/
def findNode (s : ConcurrentSkipList T) (data : T) : Option (Option Nat × Bool) :=
  findNodeDownRight lt s data

/-- `find(data)`. -/
def findUnmarked (s : ConcurrentSkipList T) (data : T) : Option (Option Nat) := do
  let (node, found) ← findNode lt s data
  match node with
  | some p => if found && !(s.memory p).marked then some (some p) else some none
  | none => some none

/-! ### Changes under guards -/

/-- The validation of one layer in `lockNodesForChange`. -/
def validLayer (s : ConcurrentSkipList T) (adding : Bool) (layer pred : Nat) (succ : Option Nat) :
    Option Bool :=
  if (s.memory pred).marked then some false
  else do
    let next ← s.skip pred layer
    some (next == succ && (!adding || succ.all fun q => !(s.memory q).marked))

/-- `if (pred != prevPred) guards[layer] = pred->acquireGuard();`. A guard is recorded as
the node it guards. -/
def guardLayer (pred : Nat) (prevPred : Option Nat) (guards : List Nat)
    (s : ConcurrentSkipList T) : Option (ConcurrentSkipList T × List Nat) :=
  if some pred = prevPred then some (s, guards)
  else (s.acquireGuard pred).map fun s => (s, pred :: guards)

/-- `lockNodesForChange(nodeHeight, guards, preds, succs, adding)` with `remaining` layers
to go. -/
def lockNodesForChange (point : InsertionPoint) (adding : Bool) :
    Nat → Nat → Option Nat → List Nat → ConcurrentSkipList T →
      Option (ConcurrentSkipList T × List Nat × Bool)
  | 0, _, _, guards, s => some (s, guards, true)
  | remaining + 1, layer, prevPred, guards, s => do
      let pred ← point.preds layer
      let (s, guards) ← guardLayer pred prevPred guards s
      let valid ← validLayer s adding layer pred (point.succs layer)
      if valid then lockNodesForChange point adding remaining (layer + 1) (some pred) guards s
      else some (s, guards, false)

/-- `for (…) if (guards[i]) preds[i]->releaseGuard();`. -/
def releaseGuards (guards : List Nat) (s : ConcurrentSkipList T) : ConcurrentSkipList T :=
  guards.foldl (fun s p => s.releaseGuard p) s

/-- `newNode->setSkip(k, succs[k]); preds[k]->setSkip(k, newNode);`. -/
def linkLayer (point : InsertionPoint) (newNode k : Nat) (s : ConcurrentSkipList T) :
    Option (ConcurrentSkipList T) := do
  let s ← s.setSkip newNode k (point.succs k)
  let pred ← point.preds k
  s.setSkip pred k (some newNode)

/-- The loop of `linkLayer`, with `remaining` layers to go. -/
def linkLayers (point : InsertionPoint) (newNode : Nat) :
    Nat → Nat → ConcurrentSkipList T → Option (ConcurrentSkipList T)
  | 0, _, s => some s
  | remaining + 1, k, s => do
      let s ← linkLayer point newNode k s
      linkLayers point newNode remaining (k + 1) s

/-- `preds[k]->setSkip(k, nodeToDelete->skip(k))`. -/
def unlinkLayer (point : InsertionPoint) (nodeToDelete k : Nat) (s : ConcurrentSkipList T) :
    Option (ConcurrentSkipList T) := do
  let pred ← point.preds k
  let next ← s.skip nodeToDelete k
  s.setSkip pred k next

/-- The loop of `unlinkLayer`, from layer `nodeHeight - 1` down. -/
def unlinkLayers (point : InsertionPoint) (nodeToDelete : Nat) :
    Nat → ConcurrentSkipList T → Option (ConcurrentSkipList T)
  | 0, s => some s
  | k + 1, s => do
      let s ← unlinkLayer point nodeToDelete k s
      unlinkLayers point nodeToDelete k s

/-- `incrementSize(1)`. -/
def sizeUp (s : ConcurrentSkipList T) : ConcurrentSkipList T := { s with size := s.size + 1 }

/-- `incrementSize(-1)`. -/
def sizeDown (s : ConcurrentSkipList T) : ConcurrentSkipList T := { s with size := s.size - 1 }

/-- `SkipListRandomHeight::getHeight(maxHeight)`: `draw i` is `p < lookupTable_[i]`. -/
def getHeight (draw : Nat → Bool) (maxHeight : Nat) : Nat :=
  match (List.range maxHeight).find? draw with
  | some i => i + 1
  | none => maxHeight

variable [Inhabited T]

/-- The block of `growHeight` under the guard of the old head: the new head takes its place
if it is still the head. -/
def exchangeHead (newHead oldHead : Nat) (s : ConcurrentSkipList T) :
    ConcurrentSkipList T × Bool :=
  let s := s.copyHead newHead oldHead
  if s.head = oldHead then
    ((({ s with head := newHead }).setMarkedForRemoval oldHead).releaseGuard oldHead, true)
  else ((s.destroy newHead).releaseGuard oldHead, false)

/-- `growHeight(height)`. -/
def growHeight (newHeight : Nat) (s : ConcurrentSkipList T) : Option (ConcurrentSkipList T) :=
  let oldHead := s.head
  if newHeight ≤ (s.memory oldHead).height then some s
  else do
    let (s, newHead) ← s.pop newHeight true
    let s ← s.acquireGuard oldHead
    let (s, exchanged) := s.exchangeHead newHead oldHead
    if exchanged then s.push (s.memory oldHead).height oldHead else some s

/-- The end of `addOrGetData`: `growHeight` if the list outgrew its head. -/
def growIfOver (maxHeight : Nat) (sizeLimit : Nat → Nat) (newSize : Nat) (s : ConcurrentSkipList T) :
    Option (ConcurrentSkipList T) :=
  if s.height < maxHeight ∧ sizeLimit s.height < newSize then s.growHeight (s.height + 1) else some s

/-- `addOrGetData(data)`: the node and the new size, or 0 if the node was there. -/
def addOrGetData (maxHeight : Nat) (sizeLimit : Nat → Nat) (data : T) :
    Nat → (Nat → Nat → Bool) → ConcurrentSkipList T → Option (ConcurrentSkipList T × Nat × Nat)
  | 0, _, _ => none
  | fuel + 1, draws, s => do
      let point ← findInsertionPointGetMaxLayer lt s data
      match point.foundLayer with
      | some layer =>
          let nodeFound ← point.succs layer
          if (s.memory nodeFound).marked then addOrGetData maxHeight sizeLimit data fuel draws s
          else if (s.memory nodeFound).fullyLinked then some (s, nodeFound, 0)
          else none
      | none =>
          let nodeHeight := getHeight (draws 0) s.height
          let (s, guards, valid) ← lockNodesForChange point true nodeHeight 0 none [] s
          if valid then
            let (s, newNode) ← s.pop nodeHeight false
            let s := s.storeData newNode data
            let s ← linkLayers point newNode nodeHeight 0 s
            let s := (s.setFullyLinked newNode).sizeUp
            let newSize := s.size
            let s ← (s.releaseGuards guards).growIfOver maxHeight sizeLimit newSize
            some (s, newNode, newSize)
          else
            addOrGetData maxHeight sizeLimit data fuel (fun i => draws (i + 1))
              (s.releaseGuards guards)

/-- `okToDelete(candidate, layer)`. -/
def okToDelete (s : ConcurrentSkipList T) (candidate layer : Nat) : Bool :=
  (s.memory candidate).fullyLinked && (s.memory candidate).height - 1 == layer &&
    !(s.memory candidate).marked

/-- The first round of `remove` behind the search: the node it marked, if any. -/
def markForRemoval (point : InsertionPoint) (s : ConcurrentSkipList T) :
    Option (ConcurrentSkipList T × Option Nat) :=
  match point.foundLayer with
  | none => some (s, none)
  | some layer => do
      let candidate ← point.succs layer
      if !okToDelete s candidate layer then some (s, none)
      else do
        let s ← s.acquireGuard candidate
        if (s.memory candidate).marked then some (s.releaseGuard candidate, none)
        else some ((s.setMarkedForRemoval candidate).releaseGuard candidate, some candidate)

/-- `remove(data)`; `nodeToDelete` is set once the node is marked. -/
def removeFrom (data : T) : Nat → Option Nat → ConcurrentSkipList T →
    Option (ConcurrentSkipList T × Bool)
  | 0, _, _ => none
  | fuel + 1, nodeToDelete, s => do
      let point ← findInsertionPointGetMaxLayer lt s data
      let (s, nodeToDelete) ← match nodeToDelete with
        | some node => some (s, some node)
        | none => markForRemoval point s
      match nodeToDelete with
      | none => some (s, false)
      | some node =>
          let (s, guards, valid) ←
            lockNodesForChange point false (s.memory node).height 0 none [] s
          if valid then
            let s ← unlinkLayers point node (s.memory node).height s
            let s ← (s.sizeDown.releaseGuards guards).push (s.memory node).height node
            some (s, true)
          else removeFrom data fuel (some node) (s.releaseGuards guards)

/-! ### Reading -/

/-- `first()`: the node whose data it points to. -/
def first (s : ConcurrentSkipList T) : Option (Option Nat) := s.skip s.head 0

/-- `do { node = pred->skip(layer); if (node) pred = node; } while (node != nullptr)`. -/
def runRight (s : ConcurrentSkipList T) (layer : Nat) : Nat → Nat → Option Nat
  | 0, _ => none
  | fuel + 1, pred => do
      match ← s.skip pred layer with
      | none => some pred
      | some p => runRight s layer fuel p

/-- The loop of `last` over the layers. -/
def lastFrom (s : ConcurrentSkipList T) : Nat → Nat → Option Nat
  | 0, pred => some pred
  | layer + 1, pred => do
      let pred ← runRight s layer (s.nextAddress + 1) pred
      lastFrom s layer pred

/-- `last()`: the node whose data it points to. -/
def last (s : ConcurrentSkipList T) : Option (Option Nat) := do
  let pred ← lastFrom s s.height s.head
  some (if pred = s.head then none else some pred)

/-- `while (node != nullptr && node->markedForRemoval()) node = node->skip(0);`. -/
def skipMarked (s : ConcurrentSkipList T) : Nat → Option Nat → Option (Option Nat)
  | _, none => some none
  | 0, some p => if (s.memory p).marked then none else some (some p)
  | fuel + 1, some p =>
      if (s.memory p).marked then do
        let node ← s.skip p 0
        skipMarked s fuel node
      else some (some p)

/-- `lower_bound(data)`. -/
def lowerBound (s : ConcurrentSkipList T) (data : T) : Option (Option Nat) := do
  let (node, _) ← findNode lt s data
  skipMarked s s.nextAddress node

/-- `p->next()`. -/
def next (s : ConcurrentSkipList T) (p : Nat) : Option (Option Nat) := do
  let node ← s.skip p 0
  skipMarked s s.nextAddress node

/-- The nodes an iterator passes from `node` on. -/
def iterateFrom (s : ConcurrentSkipList T) : Nat → Option Nat → Option (List Nat)
  | _, none => some []
  | 0, some _ => none
  | fuel + 1, some p => do
      let rest ← iterateFrom s fuel (← s.next p)
      some (p :: rest)

/-- From `begin()` to `end()`. -/
def iterate (s : ConcurrentSkipList T) : Option (List Nat) := do
  let node ← s.next s.head
  iterateFrom s s.nextAddress node

/-- `ConcurrentSkipList(height)` with the queues of its recycler empty. -/
def new (initialHeight : Nat) : Option (ConcurrentSkipList T) := do
  let empty : ConcurrentSkipList T := ⟨fun _ => .create 0 default, 0, fun _ => [], 0, 0⟩
  let (s, head) ← empty.pop initialHeight true
  some { s with head := head }

end Hcl.ConcurrentSkipList
