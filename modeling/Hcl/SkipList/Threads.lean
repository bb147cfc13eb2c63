import Hcl.SkipList.Layers

/-!
Threads that run `add` and `remove` on one skip list.

A thread is where it is in the code, with its local variables (`Local`); `threadStep` is its next
step. One step is one search, one guard taken, one layer validated, one write to a link, one
mark, one push or pop of the recycler, or a run of reads and writes that no other thread can
tell apart from one: guards are released together, and the block of `growHeight` under the
guard of the old head is one step, since nobody reads what it writes before it has that guard
or starts at the new head.

The log, newest event first, records insertions when their last link is written, marks, and
removals when their last link is written; such a removal goes on to return true.
-/

namespace Hcl.ConcurrentSkipList

variable {T : Type}

/-- Why a thread takes guards: to link a node with data `x`, or to unlink the node it has
marked. -/
inductive Change (T : Type) where
  | add (x : T)
  | remove (x : T) (node : Nat)

def Change.adding : Change T → Bool
  | .add _ => true
  | .remove _ _ => false

/-- Where a thread is, and its local variables. -/
inductive Local (T : Type) where
  | idle
  -- `addOrGetData`
  | addSearch (x : T)
  | addFound (x : T) (nodeFound : Nat)
  | addWait (nodeFound : Nat)
  | addPop (x : T) (point : InsertionPoint) (nodeHeight : Nat) (guards : List Nat)
  | addStore (x : T) (point : InsertionPoint) (nodeHeight : Nat) (guards : List Nat) (newNode : Nat)
  | addPrepare (point : InsertionPoint) (nodeHeight : Nat) (guards : List Nat) (newNode k : Nat)
  | addPublish (point : InsertionPoint) (nodeHeight : Nat) (guards : List Nat) (newNode k : Nat)
  | addFinish (guards : List Nat) (newNode : Nat)
  | addSize (guards : List Nat)
  | addCheck (newSize : Nat)
  -- `lockNodesForChange`
  | guard (change : Change T) (point : InsertionPoint) (nodeHeight layer : Nat)
      (prevPred : Option Nat) (guards : List Nat)
  | validate (change : Change T) (point : InsertionPoint) (nodeHeight layer pred : Nat)
      (guards : List Nat)
  | retry (change : Change T) (guards : List Nat)
  -- `growHeight`
  | growLoad (height : Nat)
  | growPop (height oldHead : Nat)
  | growGuard (oldHead newHead : Nat)
  | growExchange (oldHead newHead : Nat)
  | growPush (oldHead : Nat)
  -- `remove`
  | removeSearch (x : T)
  | removeCheck (x : T) (point : InsertionPoint) (layer candidate : Nat)
  | removeGuard (x : T) (point : InsertionPoint) (layer candidate : Nat)
  | removeMark (x : T) (point : InsertionPoint) (layer candidate : Nat)
  | removeAgain (x : T) (nodeToDelete : Nat)
  | removeUnlink (point : InsertionPoint) (nodeHeight : Nat) (guards : List Nat) (nodeToDelete k : Nat)
  | removeSize (guards : List Nat) (nodeToDelete : Nat)
  | removePush (nodeToDelete : Nat)

inductive Event (T : Type) where
  | linked (node : Nat) (x : T)
  | marked (node : Nat)
  | removed (node : Nat)

/-- What the scheduler chooses: an idle thread starts an operation, another one goes on; a
search that finds nothing comes with the draw for the height. -/
inductive Choice (T : Type) where
  | add (x : T)
  | remove (x : T)
  | go (draw : Nat → Bool)

/-- After all layers are valid, or after a round of `lockNodesForChange` failed. -/
def Change.proceed (point : InsertionPoint) (nodeHeight : Nat) (guards : List Nat) :
    Change T → Local T
  | .add x => .addPop x point nodeHeight guards
  | .remove _ node => .removeUnlink point nodeHeight guards node nodeHeight

def Change.restart : Change T → Local T
  | .add x => .addSearch x
  | .remove x node => .removeAgain x node

variable [Inhabited T] (lt : T → T → Prop) [DecidableRel lt] (maxHeight : Nat) (sizeLimit : Nat → Nat)

/-- The next step of a thread in an operation: the list, where the thread is then, and what is
logged. `none` is a thread that cannot go on, because the guard it needs is taken. -/
def goOn (draw : Nat → Bool) (s : ConcurrentSkipList T) :
    Local T → Option (ConcurrentSkipList T × Local T × List (Event T))
  | .idle => none
  | .addSearch x => do
      let point ← findInsertionPointGetMaxLayer lt s x
      match point.foundLayer with
      | some layer =>
          let nodeFound ← point.succs layer
          some (s, .addFound x nodeFound, [])
      | none => some (s, .guard (.add x) point (getHeight draw s.height) 0 none [], [])
  | .addFound x nodeFound =>
      some (s, if (s.memory nodeFound).marked then .addSearch x else .addWait nodeFound, [])
  | .addWait nodeFound =>
      some (s, if (s.memory nodeFound).fullyLinked then .idle else .addWait nodeFound, [])
  | .guard change point nodeHeight layer prevPred guards =>
      if layer < nodeHeight then do
        let pred ← point.preds layer
        let (s, guards) ← guardLayer pred prevPred guards s
        some (s, .validate change point nodeHeight layer pred guards, [])
      else some (s, change.proceed point nodeHeight guards, [])
  | .validate change point nodeHeight layer pred guards => do
      let valid ← validLayer s change.adding layer pred (point.succs layer)
      some (s, if valid then .guard change point nodeHeight (layer + 1) (some pred) guards
        else .retry change guards, [])
  | .retry change guards => some (s.releaseGuards guards, change.restart, [])
  | .addPop x point nodeHeight guards => do
      let (s, newNode) ← s.pop nodeHeight false
      some (s, .addStore x point nodeHeight guards newNode, [])
  | .addStore x point nodeHeight guards newNode =>
      some (s.storeData newNode x, .addPrepare point nodeHeight guards newNode 0, [])
  | .addPrepare point nodeHeight guards newNode k => do
      let s ← s.setSkip newNode k (point.succs k)
      some (s, .addPublish point nodeHeight guards newNode k, [])
  | .addPublish point nodeHeight guards newNode k => do
      let pred ← point.preds k
      let s ← s.setSkip pred k (some newNode)
      if k + 1 < nodeHeight then some (s, .addPrepare point nodeHeight guards newNode (k + 1), [])
      else some (s, .addFinish guards newNode, [.linked newNode (s.keyOf newNode)])
  | .addFinish guards newNode => some (s.setFullyLinked newNode, .addSize guards, [])
  | .addSize guards => some (s.sizeUp.releaseGuards guards, .addCheck s.sizeUp.size, [])
  | .addCheck newSize =>
      some (s, if s.height < maxHeight ∧ sizeLimit s.height < newSize then .growLoad (s.height + 1)
        else .idle, [])
  | .growLoad height =>
      some (s, if height ≤ s.height then .idle else .growPop height s.head, [])
  | .growPop height oldHead => do
      let (s, newHead) ← s.pop height true
      some (s, .growGuard oldHead newHead, [])
  | .growGuard oldHead newHead => do
      let s ← s.acquireGuard oldHead
      some (s, .growExchange oldHead newHead, [])
  | .growExchange oldHead newHead =>
      let (s, exchanged) := s.exchangeHead newHead oldHead
      some (s, if exchanged then .growPush oldHead else .idle, [])
  | .growPush oldHead => do
      let s ← s.push (s.memory oldHead).height oldHead
      some (s, .idle, [])
  | .removeSearch x => do
      let point ← findInsertionPointGetMaxLayer lt s x
      match point.foundLayer with
      | none => some (s, .idle, [])
      | some layer =>
          let candidate ← point.succs layer
          some (s, .removeCheck x point layer candidate, [])
  | .removeCheck x point layer candidate =>
      some (s, if okToDelete s candidate layer then .removeGuard x point layer candidate else .idle, [])
  | .removeGuard x point layer candidate => do
      let s ← s.acquireGuard candidate
      some (s, .removeMark x point layer candidate, [])
  | .removeMark x point _ candidate =>
      if (s.memory candidate).marked then some (s.releaseGuard candidate, .idle, [])
      else
        some ((s.setMarkedForRemoval candidate).releaseGuard candidate,
          .guard (.remove x candidate) point (s.memory candidate).height 0 none [], [.marked candidate])
  | .removeAgain x node => do
      let point ← findInsertionPointGetMaxLayer lt s x
      some (s, .guard (.remove x node) point (s.memory node).height 0 none [], [])
  | .removeUnlink _ _ _ _ 0 => none
  | .removeUnlink point nodeHeight guards node (k + 1) => do
      let s ← unlinkLayer point node k s
      if 0 < k then some (s, .removeUnlink point nodeHeight guards node k, [])
      else some (s, .removeSize guards node, [.removed node])
  | .removeSize guards node => some (s.sizeDown.releaseGuards guards, .removePush node, [])
  | .removePush node => do
      let s ← s.push (s.memory node).height node
      some (s, .idle, [])

/-- A step of a thread: it starts an operation or goes on with one. -/
def threadStep (s : ConcurrentSkipList T) (thread : Local T) : Choice T →
    Option (ConcurrentSkipList T × Local T × List (Event T))
  | .go draw => goOn lt maxHeight sizeLimit draw s thread
  | .add x => match thread with
      | .idle => some (s, .addSearch x, [])
      | _ => none
  | .remove x => match thread with
      | .idle => some (s, .removeSearch x, [])
      | _ => none

/-- The list, the threads and the log. -/
structure Machine (T : Type) where
  list : ConcurrentSkipList T
  threads : Nat → Local T
  log : List (Event T)

/-- The machine after a step of thread `t`. -/
def Machine.after (m : Machine T) (t : Nat) (list : ConcurrentSkipList T) (thread : Local T)
    (events : List (Event T)) : Machine T :=
  ⟨list, Function.update m.threads t thread, events ++ m.log⟩

omit [Inhabited T] in
theorem Machine.after_self (m : Machine T) (t : Nat) : m.after t m.list (m.threads t) [] = m := by
  rw [Machine.after, Function.update_eq_self]
  rfl

/-- One step of one thread. -/
def Machine.step (m : Machine T) (t : Nat) (choice : Choice T) : Option (Machine T) := do
  let (list, thread, events) ← threadStep lt maxHeight sizeLimit m.list (m.threads t) choice
  some (m.after t list thread events)

/-- A step of some thread. -/
def Machine.Steps (m : Machine T) (i : Nat × Choice T) (m' : Machine T) : Prop :=
  m.step lt maxHeight sizeLimit i.1 i.2 = some m'

/-- A new list and no operation. -/
def Machine.start (s : ConcurrentSkipList T) : Machine T := ⟨s, fun _ => .idle, []⟩

/-! ### What the threads hold -/

/-- The nodes a search recorded in the layers below `height`. -/
def InsertionPoint.Names (point : InsertionPoint) (height p : Nat) : Prop :=
  ∃ l < height, point.preds l = some p ∨ point.succs l = some p

/-- The guards of a thread. -/
def Local.held : Local T → List Nat
  | .guard _ _ _ _ _ guards => guards
  | .validate _ _ _ _ _ guards => guards
  | .retry _ guards => guards
  | .addPop _ _ _ guards => guards
  | .addStore _ _ _ guards _ => guards
  | .addPrepare _ _ guards _ _ => guards
  | .addPublish _ _ guards _ _ => guards
  | .addFinish guards _ => guards
  | .addSize guards => guards
  | .growExchange oldHead _ => [oldHead]
  | .removeMark _ _ _ candidate => [candidate]
  | .removeUnlink _ _ guards _ _ => guards
  | .removeSize guards _ => guards
  | _ => []

/-- A thread still has a pointer to the node in a variable by which it will guard, link or
unlink. -/
def Local.Holds : Local T → Nat → Prop
  | .guard _ point nodeHeight _ _ guards, p => point.Names nodeHeight p ∨ p ∈ guards
  | .validate _ point nodeHeight _ _ guards, p => point.Names nodeHeight p ∨ p ∈ guards
  | .retry _ guards, p => p ∈ guards
  | .addPop _ point nodeHeight guards, p => point.Names nodeHeight p ∨ p ∈ guards
  | .addStore _ point nodeHeight guards _, p => point.Names nodeHeight p ∨ p ∈ guards
  | .addPrepare point nodeHeight guards _ _, p => point.Names nodeHeight p ∨ p ∈ guards
  | .addPublish point nodeHeight guards _ _, p => point.Names nodeHeight p ∨ p ∈ guards
  | .addFinish guards _, p => p ∈ guards
  | .addSize guards, p => p ∈ guards
  | .growPop _ oldHead, p => p = oldHead
  | .growGuard oldHead _, p => p = oldHead
  | .growExchange oldHead _, p => p = oldHead
  | .removeCheck _ point layer candidate, p => point.Names (layer + 1) p ∨ p = candidate
  | .removeGuard _ point layer candidate, p => point.Names (layer + 1) p ∨ p = candidate
  | .removeMark _ point layer candidate, p => point.Names (layer + 1) p ∨ p = candidate
  | .removeUnlink point nodeHeight guards _ _, p => point.Names nodeHeight p ∨ p ∈ guards
  | .removeSize guards _, p => p ∈ guards
  | _, _ => False

/-- The node that is the thread's own: not yet linked in all its layers, or marked by it. -/
def Local.own : Local T → Option Nat
  | .guard (.remove _ node) _ _ _ _ _ => some node
  | .validate (.remove _ node) _ _ _ _ _ => some node
  | .retry (.remove _ node) _ => some node
  | .addStore _ _ _ _ newNode => some newNode
  | .addPrepare _ _ _ newNode _ => some newNode
  | .addPublish _ _ _ newNode _ => some newNode
  | .addFinish _ newNode => some newNode
  | .growGuard _ newHead => some newHead
  | .growExchange _ newHead => some newHead
  | .growPush oldHead => some oldHead
  | .removeAgain _ node => some node
  | .removeUnlink _ _ _ node _ => some node
  | .removeSize _ node => some node
  | .removePush node => some node
  | _ => none

/-- The thread is between its first and its last link write. -/
def Local.Linking : Local T → Prop
  | .addPublish _ _ _ _ _ => True
  | .addPrepare _ _ _ _ k => 0 < k
  | .removeUnlink _ nodeHeight _ _ k => k < nodeHeight
  | _ => False

/-- The height of the node a thread is about to pop. -/
def Local.popping : Local T → Option Nat
  | .addPop _ _ nodeHeight _ => some nodeHeight
  | .growPop height _ => some height
  | _ => none

/-- The condition on a step: a node that the recycler hands out is one that no other thread
still has a pointer to. -/
def Machine.Exclusive (m : Machine T) (t : Nat) : Prop :=
  ∀ h p, (m.threads t).popping = some h → (m.list.nodeQueues h).head? = some p →
    ∀ u ≠ t, ¬ (m.threads u).Holds p

/-- A step of some thread that gets no such node from the recycler. -/
def Machine.ExclusiveSteps (m : Machine T) (i : Nat × Choice T) (m' : Machine T) : Prop :=
  m.Exclusive i.1 ∧ m.Steps lt maxHeight sizeLimit i m'

end Hcl.ConcurrentSkipList
