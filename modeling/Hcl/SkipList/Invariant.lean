import Hcl.SkipList.Threads
import Hcl.SkipList.Loops

/-!
The invariant of the threads, and why a step of one thread keeps the part of another.

A thread that has searched knows little about the nodes it saw: each is still linked where it
was seen, or has been marked since (`Ref`). Once it has a node's guard and has found it
unmarked, nobody can mark it or change its links (`Valid`). Its own node, which is not yet
linked in all layers or which it has marked, is changed by nobody else but in the layers where
it is linked. `Local.Inv.stable` derives all of this from three relations between the two
states, one for each kind of node (`Keeps`, `Frozen`, `Apart`).
-/

namespace Hcl.ConcurrentSkipList

open Hcl.Lib

variable {T : Type}

section Definitions

variable (lt : T → T → Prop) (s : ConcurrentSkipList T) (xs : List Nat) (lh : Nat → Nat)

/-- The node is linked or marked. -/
def Live (p : Nat) : Prop := (s.memory p).marked = true ∨ p = s.head ∨ p ∈ xs

/-- A predecessor that a search for `x` saw in layer `l`. -/
def Ref (x : T) (l p : Nat) : Prop :=
  (s.memory p).marked = true ∨ p = s.head ∨ p ∈ xs ∧ l < lh p ∧ lt (s.keyOf p) x

/-- The search for `x` saw a predecessor in layer `l`. -/
def Seen (point : InsertionPoint) (x : T) (l : Nat) : Prop :=
  ∃ p, point.preds l = some p ∧ Ref lt s xs lh x l p

/-- The predecessor of layer `l` is guarded and still next to the successor. -/
def Valid (point : InsertionPoint) (x : T) (guards : List Nat) (l : Nat) : Prop :=
  ∃ p, point.preds l = some p ∧ p ∈ guards ∧ (s.memory p).marked = false ∧
    Adjacent lt s xs lh x l p (point.succs l)

/-- The guards are those of predecessors below `layer`. -/
def InsertionPoint.Guards (point : InsertionPoint) (guards : List Nat) (layer : Nat) : Prop :=
  ∀ p ∈ guards, ∃ l < layer, point.preds l = some p

/-- The successor of layer `l` is above the key. -/
def Above (point : InsertionPoint) (x : T) (l : Nat) : Prop :=
  ∀ r, point.succs l = some r → lt x (s.keyOf r) ∧ Live s xs r

/-- The node that `remove` has marked and not yet begun to unlink. -/
structure Condemned (x : T) (node : Nat) : Prop where
  mem : node ∈ xs
  marked : (s.memory node).marked = true
  whole : lh node = (s.memory node).height
  same : IncompRel lt (s.keyOf node) x

/-- The new node of `addOrGetData`, linked in `k` layers. -/
structure Growing (height node k : Nat) : Prop where
  head : node ≠ s.head
  height : (s.memory node).height = height
  marked : (s.memory node).marked = false
  full : (s.memory node).fullyLinked = false
  list : node ∈ xs ↔ 0 < k
  linked : 0 < k → lh node = k

/-- The data around which a thread takes guards. -/
def Change.key : Change T → T
  | .add x => x
  | .remove _ node => s.keyOf node

/-- What a thread knows of its change while it takes guards. -/
def Change.Ready (nodeHeight : Nat) : Change T → Prop
  | .add _ => 0 < nodeHeight ∧ nodeHeight ≤ s.height
  | .remove x node => Condemned lt s xs lh x node ∧ nodeHeight = (s.memory node).height

/-- The successor a thread expects in layer `l`. -/
def Change.Expects (point : InsertionPoint) (l : Nat) : Change T → Prop
  | .add x => Above lt s xs point x l
  | .remove _ node => point.succs l = some node

/-- What a thread that looks for a node to delete has found. -/
structure Candidate (x : T) (point : InsertionPoint) (layer candidate : Nat) : Prop where
  live : Live s xs candidate
  high : layer < (s.memory candidate).height
  same : IncompRel lt (s.keyOf candidate) x
  seen : ∀ l ≤ layer, Seen lt s xs lh point (s.keyOf candidate) l ∧ point.succs l = some candidate

/-- What is true of each thread, where it is. -/
def Local.Inv : Local T → Prop
  | .guard change point nodeHeight layer prevPred guards =>
      change.Ready lt s xs lh nodeHeight ∧
      (∀ l < nodeHeight, Seen lt s xs lh point (change.key s) l ∧ change.Expects lt s xs point l) ∧
      (∀ l < layer, Valid lt s xs lh point (change.key s) guards l) ∧
      layer ≤ nodeHeight ∧ (∀ p, prevPred = some p → p ∈ guards) ∧ point.Guards guards layer
  | .validate change point nodeHeight layer pred guards =>
      change.Ready lt s xs lh nodeHeight ∧
      (∀ l < nodeHeight, Seen lt s xs lh point (change.key s) l ∧ change.Expects lt s xs point l) ∧
      (∀ l < layer, Valid lt s xs lh point (change.key s) guards l) ∧
      layer < nodeHeight ∧ point.preds layer = some pred ∧ pred ∈ guards ∧
      point.Guards guards (layer + 1)
  | .retry (.remove x node) _ => Condemned lt s xs lh x node
  | .addPop x point nodeHeight guards =>
      (0 < nodeHeight ∧ nodeHeight ≤ s.height) ∧
      (∀ l < nodeHeight, Valid lt s xs lh point x guards l ∧ Above lt s xs point x l) ∧
      point.Guards guards nodeHeight
  | .addStore x point nodeHeight guards newNode =>
      (0 < nodeHeight ∧ nodeHeight ≤ s.height) ∧
      (∀ l < nodeHeight, Valid lt s xs lh point x guards l ∧ Above lt s xs point x l) ∧
      Growing s xs lh nodeHeight newNode 0
  | .addPrepare point nodeHeight guards newNode k =>
      (k < nodeHeight ∧ nodeHeight ≤ s.height) ∧
      (∀ l, k ≤ l → l < nodeHeight → Valid lt s xs lh point (s.keyOf newNode) guards l ∧
        Above lt s xs point (s.keyOf newNode) l) ∧
      Growing s xs lh nodeHeight newNode k
  | .addPublish point nodeHeight guards newNode k =>
      (k < nodeHeight ∧ nodeHeight ≤ s.height) ∧
      (∀ l, k ≤ l → l < nodeHeight → Valid lt s xs lh point (s.keyOf newNode) guards l ∧
        Above lt s xs point (s.keyOf newNode) l) ∧
      Growing s xs lh nodeHeight newNode k ∧ s.links k newNode = point.succs k
  | .addFinish _ newNode => ∃ height, 0 < height ∧ Growing s xs lh height newNode height
  | .growPop height oldHead => Live s xs oldHead ∧ (s.memory oldHead).height < height
  | .growGuard oldHead newHead =>
      Live s xs oldHead ∧ (s.memory oldHead).height < (s.memory newHead).height ∧
      ¬ Live s xs newHead
  | .growExchange oldHead newHead =>
      Live s xs oldHead ∧ (s.memory oldHead).height < (s.memory newHead).height ∧
      ¬ Live s xs newHead
  | .growPush oldHead => (s.memory oldHead).marked = true ∧ oldHead ∉ s.head :: xs
  | .removeCheck x point layer candidate => Candidate lt s xs lh x point layer candidate
  | .removeGuard x point layer candidate =>
      Candidate lt s xs lh x point layer candidate ∧ (s.memory candidate).fullyLinked = true ∧
      (s.memory candidate).height = layer + 1
  | .removeMark x point layer candidate =>
      Candidate lt s xs lh x point layer candidate ∧ (s.memory candidate).fullyLinked = true ∧
      (s.memory candidate).height = layer + 1
  | .removeAgain x node => Condemned lt s xs lh x node
  | .removeUnlink point _ guards node k =>
      (node ∈ xs ∧ (s.memory node).marked = true ∧ 0 < k ∧ lh node = k) ∧
      ∀ l < k, Valid lt s xs lh point (s.keyOf node) guards l ∧ point.succs l = some node
  | .removeSize _ node => (s.memory node).marked = true ∧ node ∉ s.head :: xs
  | .removePush node => (s.memory node).marked = true ∧ node ∉ s.head :: xs
  | _ => True

end Definitions

/-! ### What a step of another thread may do to a node -/

section Stability

variable {lt : T → T → Prop} {s s' : ConcurrentSkipList T} {xs xs' : List Nat} {lh lh' : Nat → Nat}

/-- A node that is linked or marked keeps its data, and stays where it is linked until it is
marked. -/
structure Keeps (s : ConcurrentSkipList T) (xs : List Nat) (lh : Nat → Nat) (s' : ConcurrentSkipList T)
    (xs' : List Nat) (lh' : Nat → Nat) (p : Nat) : Prop where
  data : s'.keyOf p = s.keyOf p
  height : (s'.memory p).height = (s.memory p).height
  full : (s.memory p).fullyLinked = true → (s'.memory p).fullyLinked = true
  marked : (s.memory p).marked = true → (s'.memory p).marked = true
  head : p = s.head → p = s'.head ∨ (s'.memory p).marked = true
  list : p ∈ xs → p ∈ xs' ∨ (s'.memory p).marked = true
  place : ∀ l, p ∈ xs → l < lh p → (p ∈ xs' ∧ l < lh' p) ∨ (s'.memory p).marked = true

/-- A node whose guard the thread has is not marked or relinked. -/
structure Frozen (s : ConcurrentSkipList T) (xs : List Nat) (lh : Nat → Nat) (s' : ConcurrentSkipList T)
    (p : Nat) : Prop where
  marked : (s'.memory p).marked = (s.memory p).marked
  head : p = s.head → p = s'.head
  links : ∀ l, p = s.head ∨ p ∈ xs ∧ l < lh p → s'.links l p = s.links l p

/-- A thread's own node is changed only in the layers in which it is linked. -/
structure Apart (s : ConcurrentSkipList T) (xs : List Nat) (lh : Nat → Nat) (s' : ConcurrentSkipList T)
    (xs' : List Nat) (lh' : Nat → Nat) (p : Nat) : Prop where
  core : core (s'.memory p) = core (s.memory p)
  head : p = s'.head ↔ p = s.head
  list : p ∈ xs' ↔ p ∈ xs
  height : lh' p = lh p
  links : ∀ l, p ≠ s.head → (p ∈ xs → lh p ≤ l) → s'.links l p = s.links l p

theorem Apart.marked {p : Nat} (h : Apart s xs lh s' xs' lh' p) :
    (s'.memory p).marked = (s.memory p).marked := (core_eq h.core).1

theorem Apart.full {p : Nat} (h : Apart s xs lh s' xs' lh' p) :
    (s'.memory p).fullyLinked = (s.memory p).fullyLinked := (core_eq h.core).2.1

theorem Apart.high {p : Nat} (h : Apart s xs lh s' xs' lh' p) :
    (s'.memory p).height = (s.memory p).height := (core_eq h.core).2.2.1

theorem Apart.data {p : Nat} (h : Apart s xs lh s' xs' lh' p) : s'.keyOf p = s.keyOf p :=
  (core_eq h.core).2.2.2

/-- The node differs in its lock only. -/
def SameButLock (s s' : ConcurrentSkipList T) (p : Nat) : Prop :=
  s'.memory p = { s.memory p with locked := (s'.memory p).locked }

section SameButLock

variable {p : Nat}

theorem SameButLock.of_memory (same : s'.memory p = s.memory p) : SameButLock s s' p := by
  rw [SameButLock, same]

variable (same : SameButLock s s' p)
include same

theorem SameButLock.part {A : Type} (part : SkipListNode T → A)
    (keeps : ∀ (n : SkipListNode T) locked, part { n with locked := locked } = part n) :
    part (s'.memory p) = part (s.memory p) := by
  rw [same, keeps]

theorem SameButLock.marked : (s'.memory p).marked = (s.memory p).marked :=
  same.part SkipListNode.marked fun _ _ => rfl

theorem SameButLock.full : (s'.memory p).fullyLinked = (s.memory p).fullyLinked :=
  same.part SkipListNode.fullyLinked fun _ _ => rfl

theorem SameButLock.high : (s'.memory p).height = (s.memory p).height :=
  same.part SkipListNode.height fun _ _ => rfl

theorem SameButLock.keyOf : s'.keyOf p = s.keyOf p := same.part SkipListNode.data fun _ _ => rfl

theorem SameButLock.links (l : Nat) : s'.links l p = s.links l p :=
  congrFun (same.part SkipListNode.skip fun _ _ => rfl) l

theorem SameButLock.keeps (head : p = s.head → p = s'.head ∨ (s'.memory p).marked = true) :
    Keeps s xs lh s' xs lh p where
  data := same.keyOf
  height := same.high
  full := same.full.trans
  marked := same.marked.trans
  head := head
  list := .inl
  place _ mem linked := .inl ⟨mem, linked⟩

theorem SameButLock.frozen (head : p = s.head → p = s'.head) : Frozen s xs lh s' p where
  marked := same.marked
  head := head
  links l _ := same.links l

theorem SameButLock.apart (head : p = s'.head ↔ p = s.head) : Apart s xs lh s' xs lh p where
  core := same.part core fun _ _ => rfl
  head := head
  list := Iff.rfl
  height := rfl
  links l _ _ := same.links l

end SameButLock

/-- A node that is not written keeps everything. -/
theorem Keeps.of_memory {p : Nat} (same : s'.memory p = s.memory p) (head : s'.head = s.head) :
    Keeps s xs lh s' xs lh p :=
  (SameButLock.of_memory same).keeps fun here => .inl (here.trans head.symm)

theorem Frozen.of_memory {p : Nat} (same : s'.memory p = s.memory p) (head : p = s.head → p = s'.head) :
    Frozen s xs lh s' p :=
  (SameButLock.of_memory same).frozen head

theorem Apart.of_memory {p : Nat} (same : s'.memory p = s.memory p) (head : p = s'.head ↔ p = s.head) :
    Apart s xs lh s' xs lh p :=
  (SameButLock.of_memory same).apart head

/-- A write keeps what others rely on if it keeps the data, the height and the flags that are set. -/
theorem Keeps.modify {n p : Nat} {f : SkipListNode T → SkipListNode T}
    (write : p = n → (f (s.memory n)).data = (s.memory n).data ∧
      (f (s.memory n)).height = (s.memory n).height ∧
      ((s.memory n).fullyLinked = true → (f (s.memory n)).fullyLinked = true) ∧
      ((s.memory n).marked = true → (f (s.memory n)).marked = true)) :
    Keeps s xs lh (s.modify n f) xs lh p := by
  by_cases here : p = n
  · obtain ⟨data, height, full, marked⟩ := write here
    rw [here]
    exact ⟨by rw [keyOf, modify_self, data]; rfl, by rw [modify_self, height], by rw [modify_self]; exact full,
      by rw [modify_self]; exact marked, .inl, .inl, fun _ mem linked => .inl ⟨mem, linked⟩⟩
  · exact .of_memory (modify_of_ne n f s here) rfl

theorem Live.stable {p : Nat} (live : Live s xs p) (keeps : Keeps s xs lh s' xs' lh' p) :
    Live s' xs' p := by
  rcases live with marked | head | list
  · exact .inl (keeps.marked marked)
  · exact (keeps.head head).elim (fun head => .inr (.inl head)) .inl
  · exact (keeps.list list).elim (fun list => .inr (.inr list)) .inl

theorem Ref.live {x : T} {l p : Nat} (ref : Ref lt s xs lh x l p) : Live s xs p :=
  ref.imp_right fun place => place.imp_right And.left

theorem Ref.stable {x : T} {l p : Nat} (ref : Ref lt s xs lh x l p)
    (keeps : Keeps s xs lh s' xs' lh' p) : Ref lt s' xs' lh' x l p := by
  rcases ref with marked | head | ⟨list, linked, below⟩
  · exact .inl (keeps.marked marked)
  · exact (keeps.head head).elim (fun head => .inr (.inl head)) .inl
  · rcases keeps.place l list linked with ⟨list, linked⟩ | marked
    · exact .inr (.inr ⟨list, linked, by rwa [keeps.data]⟩)
    · exact .inl marked

variable {point : InsertionPoint} {x : T} {l : Nat}

theorem Seen.stable (seen : Seen lt s xs lh point x l)
    (keeps : ∀ p, point.preds l = some p → Live s xs p → Keeps s xs lh s' xs' lh' p) :
    Seen lt s' xs' lh' point x l := by
  obtain ⟨p, pred, ref⟩ := seen
  exact ⟨p, pred, ref.stable (keeps p pred ref.live)⟩

theorem Above.stable (above : Above lt s xs point x l)
    (keeps : ∀ p, point.succs l = some p → Live s xs p → Keeps s xs lh s' xs' lh' p) :
    Above lt s' xs' point x l := by
  intro r succ
  obtain ⟨higher, live⟩ := above r succ
  have kept := keeps r succ live
  exact ⟨by rwa [kept.data], live.stable kept⟩

theorem Valid.stable {guards : List Nat} (valid : Valid lt s xs lh point x guards l)
    (keeps : ∀ p ∈ guards, Live s xs p → Keeps s xs lh s' xs' lh' p)
    (frozen : ∀ p ∈ guards, Frozen s xs lh s' p)
    (succ : ∀ r, point.succs l = some r → s'.keyOf r = s.keyOf r) :
    Valid lt s' xs' lh' point x guards l := by
  obtain ⟨p, pred, guarded, unmarked, gap⟩ := valid
  have kept := keeps p guarded (.inr (gap.pred.imp_right And.left))
  have still := frozen p guarded
  have unmarked' : (s'.memory p).marked = false := still.marked.trans unmarked
  refine ⟨p, pred, guarded, unmarked', ?_, ?_, ?_⟩
  · rcases gap.pred with head | ⟨list, linked, below⟩
    · exact .inl (still.head head)
    · rcases kept.place l list linked with ⟨list, linked⟩ | marked
      · exact .inr ⟨list, linked, by rwa [kept.data]⟩
      · rw [marked] at unmarked'
        cases unmarked'
  · rw [still.links l (gap.pred.imp_right fun place => ⟨place.1, place.2.1⟩), gap.next]
  · intro r first
    rw [succ r first]
    exact gap.succ r first

theorem Condemned.stable {node : Nat} (condemned : Condemned lt s xs lh x node)
    (apart : Apart s xs lh s' xs' lh' node) : Condemned lt s' xs' lh' x node where
  mem := apart.list.mpr condemned.mem
  marked := apart.marked.trans condemned.marked
  whole := by rw [apart.height, apart.high, condemned.whole]
  same := by rw [apart.data]; exact condemned.same

theorem Growing.stable {height node k : Nat} (growing : Growing s xs lh height node k)
    (apart : Apart s xs lh s' xs' lh' node) : Growing s' xs' lh' height node k where
  head := mt apart.head.mp growing.head
  height := apart.high.trans growing.height
  marked := apart.marked.trans growing.marked
  full := apart.full.trans growing.full
  list := apart.list.trans growing.list
  linked positive := apart.height.trans (growing.linked positive)

theorem Candidate.stable {layer candidate : Nat} (found : Candidate lt s xs lh x point layer candidate)
    (keeps : ∀ p, point.Names (layer + 1) p ∨ p = candidate → Live s xs p → Keeps s xs lh s' xs' lh' p) :
    Candidate lt s' xs' lh' x point layer candidate := by
  have kept := keeps candidate (.inr rfl) found.live
  refine ⟨found.live.stable kept, by rw [kept.height]; exact found.high, by rw [kept.data]; exact found.same,
    fun l le => ⟨?_, (found.seen l le).2⟩⟩
  rw [kept.data]
  exact (found.seen l le).1.stable fun p pred live =>
    keeps p (.inl ⟨l, Nat.lt_succ_of_le le, .inl pred⟩) live

/-- What a thread knows of its change survives. -/
theorem Change.ready_stable {change : Change T} {nodeHeight : Nat} (ready : change.Ready lt s xs lh nodeHeight)
    (height : s.height ≤ s'.height)
    (apart : ∀ x node, change = .remove x node → Apart s xs lh s' xs' lh' node) :
    change.Ready lt s' xs' lh' nodeHeight ∧ change.key s' = change.key s := by
  cases change with
  | add x => exact ⟨⟨ready.1, Nat.le_trans ready.2 height⟩, rfl⟩
  | remove x node =>
      have own := apart x node rfl
      exact ⟨⟨ready.1.stable own, by rw [own.high]; exact ready.2⟩, own.data⟩

/-- What a thread knows of the layers while it takes guards survives. -/
theorem Change.layers_stable {change : Change T} {nodeHeight layer : Nat} {guards : List Nat}
    (seen : ∀ l < nodeHeight, Seen lt s xs lh point (change.key s) l ∧ change.Expects lt s xs point l)
    (valid : ∀ l < layer, Valid lt s xs lh point (change.key s) guards l) (le : layer ≤ nodeHeight)
    (keeps : ∀ p, point.Names nodeHeight p ∨ p ∈ guards → Live s xs p → Keeps s xs lh s' xs' lh' p)
    (frozen : ∀ p ∈ guards, Frozen s xs lh s' p)
    (apart : ∀ x node, change = .remove x node → Apart s xs lh s' xs' lh' node) :
    (∀ l < nodeHeight, Seen lt s' xs' lh' point (change.key s) l ∧ change.Expects lt s' xs' point l) ∧
      ∀ l < layer, Valid lt s' xs' lh' point (change.key s) guards l := by
  refine ⟨fun l low => ⟨(seen l low).1.stable fun p pred => keeps p (.inl ⟨l, low, .inl pred⟩), ?_⟩,
    fun l low => (valid l low).stable (fun p hp => keeps p (.inr hp)) frozen fun r succ => ?_⟩
  · cases change with
    | add x => exact Above.stable (seen l low).2 fun p succ => keeps p (.inl ⟨l, low, .inr succ⟩)
    | remove x node => exact (seen l low).2
  · have inside : l < nodeHeight := by omega
    cases change with
    | add x =>
        exact (keeps r (.inl ⟨l, inside, .inr succ⟩) ((seen l inside).2 r succ).2).data
    | remove x node =>
        obtain rfl := Option.some.inj ((seen l inside).2.symm.trans succ)
        exact (apart x node rfl).data

/-- The layers that a new node still has to be linked in stay valid. -/
theorem gaps_stable {nodeHeight k : Nat} {guards : List Nat}
    (gaps : ∀ l, k ≤ l → l < nodeHeight → Valid lt s xs lh point x guards l ∧ Above lt s xs point x l)
    (keeps : ∀ p, point.Names nodeHeight p ∨ p ∈ guards → Live s xs p → Keeps s xs lh s' xs' lh' p)
    (frozen : ∀ p ∈ guards, Frozen s xs lh s' p) :
    ∀ l, k ≤ l → l < nodeHeight → Valid lt s' xs' lh' point x guards l ∧ Above lt s' xs' point x l := by
  intro l from' low
  obtain ⟨valid, above⟩ := gaps l from' low
  have kept : ∀ r, point.succs l = some r → Live s xs r → Keeps s xs lh s' xs' lh' r := fun r succ =>
    keeps r (.inl ⟨l, low, .inr succ⟩)
  exact ⟨valid.stable (fun p hp => keeps p (.inr hp)) frozen fun r succ => (kept r succ (above r succ).2).data,
    above.stable kept⟩

/-- **What a thread knows survives the steps of the others.** -/
theorem Local.Inv.stable {thread : Local T} (inv : thread.Inv lt s xs lh) (height : s.height ≤ s'.height)
    (keeps : ∀ p, thread.Holds p → Live s xs p → Keeps s xs lh s' xs' lh' p)
    (frozen : ∀ p ∈ thread.held, Frozen s xs lh s' p)
    (apart : ∀ p, thread.own = some p → Apart s xs lh s' xs' lh' p) : thread.Inv lt s' xs' lh' := by
  cases thread with
  | guard change point nodeHeight layer prevPred guards =>
      obtain ⟨ready, seen, valid, le, prev⟩ := inv
      have own : ∀ x node, change = .remove x node → Apart s xs lh s' xs' lh' node := by
        rintro x node rfl
        exact apart node rfl
      obtain ⟨ready', key⟩ := change.ready_stable ready height own
      obtain ⟨seen', valid'⟩ := change.layers_stable seen valid le keeps frozen own
      rw [← key] at seen' valid'
      exact ⟨ready', seen', valid', le, prev⟩
  | validate change point nodeHeight layer pred guards =>
      obtain ⟨ready, seen, valid, low, guarded⟩ := inv
      have own : ∀ x node, change = .remove x node → Apart s xs lh s' xs' lh' node := by
        rintro x node rfl
        exact apart node rfl
      obtain ⟨ready', key⟩ := change.ready_stable ready height own
      obtain ⟨seen', valid'⟩ := change.layers_stable seen valid (Nat.le_of_lt low) keeps frozen own
      rw [← key] at seen' valid'
      exact ⟨ready', seen', valid', low, guarded⟩
  | retry change guards =>
      cases change with
      | add x => trivial
      | remove x node => exact Condemned.stable inv (apart node rfl)
  | addPop x point nodeHeight guards =>
      obtain ⟨low, gaps, named⟩ := inv
      have gaps' := gaps_stable (k := 0) (fun l _ => gaps l) keeps frozen
      exact ⟨⟨low.1, Nat.le_trans low.2 height⟩, fun l => gaps' l (Nat.zero_le l), named⟩
  | addStore x point nodeHeight guards newNode =>
      obtain ⟨low, gaps, growing⟩ := inv
      have gaps' := gaps_stable (k := 0) (fun l _ => gaps l) keeps frozen
      exact ⟨⟨low.1, Nat.le_trans low.2 height⟩, fun l => gaps' l (Nat.zero_le l),
        growing.stable (apart newNode rfl)⟩
  | addPrepare point nodeHeight guards newNode k =>
      obtain ⟨low, gaps, growing⟩ := inv
      have own := apart newNode rfl
      refine ⟨⟨low.1, Nat.le_trans low.2 height⟩, ?_, growing.stable own⟩
      rw [own.data]
      exact gaps_stable gaps keeps frozen
  | addPublish point nodeHeight guards newNode k =>
      obtain ⟨low, gaps, growing, ready⟩ := inv
      have own := apart newNode rfl
      refine ⟨⟨low.1, Nat.le_trans low.2 height⟩, ?_, growing.stable own, ?_⟩
      · rw [own.data]
        exact gaps_stable gaps keeps frozen
      · rw [own.links k growing.head fun mem => Nat.le_of_eq (growing.linked (growing.list.mp mem)), ready]
  | addFinish guards newNode =>
      obtain ⟨high, positive, growing⟩ := inv
      exact ⟨high, positive, growing.stable (apart newNode rfl)⟩
  | growPop high oldHead =>
      have kept := keeps oldHead rfl inv.1
      exact ⟨inv.1.stable kept, by rw [kept.height]; exact inv.2⟩
  | growGuard oldHead newHead | growExchange oldHead newHead =>
      have kept := keeps oldHead rfl inv.1
      have own := apart newHead rfl
      refine ⟨inv.1.stable kept, by rw [kept.height, own.high]; exact inv.2.1, ?_⟩
      rw [Live, own.marked, own.head, own.list]
      exact inv.2.2
  | growPush oldHead =>
      have own := apart oldHead rfl
      simpa only [Local.Inv, own.marked, List.mem_cons, own.head, own.list] using inv
  | removeCheck x point layer candidate => exact Candidate.stable inv keeps
  | removeGuard x point layer candidate =>
      have kept := keeps candidate (.inr rfl) inv.1.live
      exact ⟨inv.1.stable keeps, kept.full inv.2.1, by rw [kept.height]; exact inv.2.2⟩
  | removeMark x point layer candidate =>
      have kept := keeps candidate (.inr rfl) inv.1.live
      exact ⟨inv.1.stable keeps, kept.full inv.2.1, by rw [kept.height]; exact inv.2.2⟩
  | removeAgain x node => exact Condemned.stable inv (apart node rfl)
  | removeUnlink point nodeHeight guards node k =>
      obtain ⟨⟨mem, marked, positive, linked⟩, gaps⟩ := inv
      have own := apart node rfl
      refine ⟨⟨own.list.mpr mem, own.marked.trans marked, positive, own.height.trans linked⟩,
        fun l low => ⟨?_, (gaps l low).2⟩⟩
      rw [own.data]
      refine (gaps l low).1.stable (fun p hp => keeps p (.inr hp)) frozen fun r succ => ?_
      obtain rfl := Option.some.inj ((gaps l low).2.symm.trans succ)
      exact own.data
  | removeSize guards node =>
      have own := apart node rfl
      simpa only [Local.Inv, own.marked, List.mem_cons, own.head, own.list] using inv
  | removePush node =>
      have own := apart node rfl
      simpa only [Local.Inv, own.marked, List.mem_cons, own.head, own.list] using inv
  | idle | addSearch | addFound | addWait | addSize | addCheck | growLoad | removeSearch => trivial

end Stability

end Hcl.ConcurrentSkipList
