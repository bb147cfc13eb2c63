import Hcl.SkipList.Interleaving

/-!
The order in which guards are taken.

`lockNodesForChange` takes its guards from the lowest layer up. In a higher layer the search
stopped at the same node or at one with smaller data, and the head comes before all others; so a
thread that waits for a guard waits for a node that comes before all nodes whose guards it has
(`Precedes`). The other wait is that of `addOrGetData` for a node to be fully linked, and that
node is one whose thread has all its guards.

`Machine.Orderly` is the invariant behind this; like the soundness of the list it needs that the
recycler hands out no node that another thread has a pointer to, which here includes the pointer
to a node found by `addOrGetData`.
-/

namespace Hcl.ConcurrentSkipList

open Hcl.Lib

variable {T : Type}

/-! ### Pointers -/

/-- The node that `addOrGetData` found and wants to be fully linked. -/
def Local.awaits : Local T → Option Nat
  | .addFound _ nodeFound => some nodeFound
  | .addWait nodeFound => some nodeFound
  | _ => none

/-- The new node that `addOrGetData` is about to link, or has linked and not yet said so. -/
def Local.grows : Local T → Option Nat
  | .addStore _ _ _ _ newNode => some newNode
  | .addPrepare _ _ _ newNode _ => some newNode
  | .addPublish _ _ _ newNode _ => some newNode
  | .addFinish _ newNode => some newNode
  | _ => none

/-- The new head that `growHeight` has popped. -/
def Local.raises : Local T → Option Nat
  | .growGuard _ newHead => some newHead
  | .growExchange _ newHead => some newHead
  | _ => none

/-- The recycler has the node first in the queue that the thread is about to pop from. -/
def Machine.HandsOut (m : Machine T) (t p : Nat) : Prop :=
  ∃ h, (m.threads t).popping = some h ∧ (m.list.nodeQueues h).head? = some p

/-- A node that the recycler hands out is one that no other thread has a pointer to. -/
def Machine.Unshared (m : Machine T) (t : Nat) : Prop :=
  ∀ p, m.HandsOut t p → ∀ u ≠ t, ¬ (m.threads u).Holds p ∧ (m.threads u).awaits ≠ some p

theorem Machine.Unshared.exclusive {m : Machine T} {t : Nat} (unshared : m.Unshared t) : m.Exclusive t :=
  fun h p popping first u other => (unshared p ⟨h, popping, first⟩ u other).1

/-- A step of some thread that gets no such node from the recycler. -/
def Machine.UnsharedSteps [Inhabited T] (lt : T → T → Prop) [DecidableRel lt] (maxHeight : Nat)
    (sizeLimit : Nat → Nat) (m : Machine T) (i : Nat × Choice T) (m' : Machine T) : Prop :=
  m.Unshared i.1 ∧ m.Steps lt maxHeight sizeLimit i m'

theorem Local.own_of_grows {thread : Local T} {p : Nat} (grows : thread.grows = some p) :
    thread.own = some p := by
  cases thread with
  | addStore | addPrepare | addPublish | addFinish => exact grows
  | _ => cases grows

/-! ### The order of the guards -/

section Order

variable {lt : T → T → Prop} {s s' : ConcurrentSkipList T} {point : InsertionPoint} {height : Nat}

/-- The node `a` comes before `b` in the list: it is a head, or has smaller data. -/
def Precedes (lt : T → T → Prop) (s : ConcurrentSkipList T) (a b : Nat) : Prop :=
  (s.memory b).isHead = false ∧ ((s.memory a).isHead = true ∨ lt (s.keyOf a) (s.keyOf b))

theorem not_precedes_self [IsStrictWeakOrder T lt] (a : Nat) : ¬ Precedes lt s a a := by
  rintro ⟨plain, isHead | below⟩
  · rw [plain] at isHead
    cases isHead
  · exact irrefl _ below

theorem precedes_trans [IsStrictWeakOrder T lt] {a b c : Nat} (first : Precedes lt s a b)
    (second : Precedes lt s b c) : Precedes lt s a c := by
  refine ⟨second.1, first.2.imp_right fun below => ?_⟩
  rcases second.2 with isHead | below'
  · rw [first.1] at isHead
    cases isHead
  · exact trans_of lt below below'

/-- The node is as it was in what decides its place. -/
def SamePlace (s s' : ConcurrentSkipList T) (p : Nat) : Prop :=
  (s'.memory p).isHead = (s.memory p).isHead ∧ s'.keyOf p = s.keyOf p

theorem Precedes.congr {a b : Nat} (before : Precedes lt s a b) (left : SamePlace s s' a)
    (right : SamePlace s s' b) : Precedes lt s' a b := by
  rw [Precedes, left.1, left.2, right.1, right.2]
  exact before

/-- The predecessors of a higher layer are the same or come before. -/
def InsertionPoint.Descends (lt : T → T → Prop) (s : ConcurrentSkipList T) (point : InsertionPoint)
    (height : Nat) : Prop :=
  ∀ l l' a b, l < l' → l' < height → point.preds l = some b → point.preds l' = some a →
    a = b ∨ Precedes lt s a b

theorem InsertionPoint.Descends.congr (descends : point.Descends lt s height)
    (same : ∀ l < height, ∀ p, point.preds l = some p → SamePlace s s' p) :
    point.Descends lt s' height := by
  intro l l' a b less low pred pred'
  refine (descends l l' a b less low pred pred').imp_right fun before => ?_
  exact before.congr (same l' low a pred') (same l (Nat.lt_trans less low) b pred)

theorem InsertionPoint.Descends.mono {height' : Nat} (descends : point.Descends lt s height)
    (le : height' ≤ height) : point.Descends lt s height' :=
  fun l l' a b less low => descends l l' a b less (Nat.lt_of_lt_of_le low le)

variable [DecidableRel lt] {xs : List Nat} {lh : Nat → Nat} {x : T}

/-- In a higher layer the cut is at the same node or at one that comes before. -/
theorem WellFormed.predAt_descends (h : WellFormed lt s xs lh) (isHead : (s.memory s.head).isHead = true)
    (plain : ∀ p ∈ xs, (s.memory p).isHead = false) {l l' : Nat} (le : l ≤ l') :
    predAt lt s xs lh x l' = predAt lt s xs lh x l ∨
      Precedes lt s (predAt lt s xs lh x l') (predAt lt s xs lh x l) := by
  have mem : predAt lt s xs lh x l' ∈ s.head :: layer lh l (under lt s.keyOf x xs) :=
    mem_layer_of_le le (predAt_mem x l')
  obtain ⟨before, ends⟩ := exists_append_getLastD s.head (layer lh l (under lt s.keyOf x xs))
  change s.head :: _ = before ++ [predAt lt s xs lh x l] at ends
  have ascending : (layer lh l (under lt s.keyOf x xs)).Pairwise fun a b => lt (s.keyOf a) (s.keyOf b) :=
    (h.ascending.filter _).filter _
  have listed : ∀ p ∈ layer lh l (under lt s.keyOf x xs), p ∈ xs := fun p hp =>
    (mem_under.mp (mem_layer.mp hp).1).1
  cases before with
  | nil =>
      obtain ⟨same, empty⟩ := List.cons.inj ends
      rw [empty, List.mem_singleton] at mem
      exact .inl (mem.trans same)
  | cons first before =>
      obtain ⟨rfl, rest⟩ := List.cons.inj ends
      rw [rest] at mem ascending listed
      have last := plain _ (listed _ (List.mem_append_right before List.mem_cons_self))
      rcases List.mem_cons.mp mem with atHead | mem
      · exact .inr ⟨last, .inl (atHead ▸ isHead)⟩
      · rcases List.mem_append.mp mem with mem | mem
        · have below := (List.pairwise_append.mp ascending).2.2 _ mem _ List.mem_cons_self
          exact .inr ⟨last, .inr below⟩
        · exact .inl (List.mem_singleton.mp mem)

/-- What a search has recorded descends. -/
theorem Recorded.descends (h : Layers lt s xs lh) (r : Recorded lt s xs lh x 0 point)
    (isHead : (s.memory s.head).isHead = true) (plain : ∀ p ∈ xs, (s.memory p).isHead = false) :
    point.Descends lt s s.height := by
  intro l l' a b less low pred pred'
  rw [r.preds l (Nat.zero_le l) (Nat.lt_trans less low)] at pred
  rw [r.preds l' (Nat.zero_le l') low] at pred'
  obtain rfl := Option.some.inj pred
  obtain rfl := Option.some.inj pred'
  exact h.predAt_descends isHead plain (Nat.le_of_lt less)

end Order

/-! ### The invariant -/

section Invariant

variable (lt : T → T → Prop) (maxHeight : Nat)

/-- A node of the list is fully linked, or the thread is there that will say so. -/
structure Machine.Completes (m : Machine T) (p : Nat) : Prop where
  allocated : p < m.list.nextAddress
  plain : (m.list.memory p).isHead = false
  linked : (m.list.memory p).fullyLinked = true ∨ ∃ t, (m.threads t).grows = some p

/-- A node that is about to be in the list, is in it, or is waited for. -/
def Machine.Mentions (m : Machine T) (p : Nat) : Prop :=
  (∃ t, (m.threads t).grows = some p) ∨ status m.log p ≠ .absent ∨ ∃ t, (m.threads t).awaits = some p

/-- The predecessors a thread takes guards of descend, and `growHeight` stays below the limit. -/
def Local.Climbs (s : ConcurrentSkipList T) : Local T → Prop
  | .guard _ point nodeHeight layer prevPred _ =>
      point.Descends lt s nodeHeight ∧ ∀ l, layer = l + 1 → prevPred = point.preds l
  | .validate _ point nodeHeight _ _ _ => point.Descends lt s nodeHeight
  | .removeCheck _ point layer _ => point.Descends lt s (layer + 1)
  | .removeGuard _ point layer _ => point.Descends lt s (layer + 1)
  | .removeMark _ point layer _ => point.Descends lt s (layer + 1)
  | .growLoad height => height ≤ maxHeight
  | .growPop height _ => height ≤ maxHeight
  | _ => True

structure Machine.Orderly (m : Machine T) : Prop where
  small : ∀ p, (m.list.memory p).height ≤ maxHeight
  head : (m.list.memory m.list.head).isHead = true
  heads : ∀ t p, (m.threads t).raises = some p → (m.list.memory p).isHead = true
  completes : ∀ p, m.Mentions p → m.Completes p
  locks : ∀ p, (m.list.memory p).locked = true → ∃ t, p ∈ (m.threads t).held
  climbs : ∀ t, (m.threads t).Climbs lt maxHeight m.list

/-! ### One step -/

/-- What a thread reads of a node to know that it is in order. -/
def tag (n : SkipListNode T) : Bool × Bool × T := (n.isHead, n.fullyLinked, n.data)

/-- What a step of thread `t` does to the nodes. -/
structure Effect (m : Machine T) (t : Nat) (xs : List Nat) (s' : ConcurrentSkipList T) (thread' : Local T) :
    Prop where
  next : m.list.nextAddress ≤ s'.nextAddress
  small : ∀ p, (s'.memory p).height = (m.list.memory p).height ∨ (s'.memory p).height ≤ maxHeight
  same : ∀ p < m.list.nextAddress, ¬ m.HandsOut t p → (m.threads t).own ≠ some p →
    tag (s'.memory p) = tag (m.list.memory p)
  place : ∀ p, (m.threads t).own = some p → Live m.list xs p → SamePlace m.list s' p
  plain : ∀ p, (m.threads t).own = some p → (m.list.memory p).isHead = false →
    (s'.memory p).isHead = false ∧ ((m.list.memory p).fullyLinked = true → (s'.memory p).fullyLinked = true)
  locks : ∀ p, (s'.memory p).locked = true →
    p ∈ thread'.held ∨ (m.list.memory p).locked = true ∧ p ∉ (m.threads t).held

/-- Where a step of thread `t` takes it. -/
structure Goes (m : Machine T) (t : Nat) (s' : ConcurrentSkipList T) (thread' : Local T)
    (events : List (Event T)) : Prop where
  head : (s'.memory s'.head).isHead = true
  raises : ∀ p, thread'.raises = some p → (s'.memory p).isHead = true
  begins : ∀ p, thread'.grows = some p →
    (m.threads t).grows = some p ∨ p < s'.nextAddress ∧ (s'.memory p).isHead = false
  ends : ∀ p, (m.threads t).grows = some p → thread'.grows = some p ∨ (s'.memory p).fullyLinked = true
  logs : ∀ p, status (events ++ m.log) p ≠ .absent →
    status m.log p ≠ .absent ∨ (m.threads t).grows = some p
  awaits : ∀ p, thread'.awaits = some p → m.Mentions p
  climbs : thread'.Climbs lt maxHeight s'

end Invariant

section Step

variable {lt : T → T → Prop} {maxHeight : Nat} {m : Machine T} {t : Nat} {xs : List Nat} {lh : Nat → Nat}
  {s' : ConcurrentSkipList T} {thread' : Local T} {events : List (Event T)} {p : Nat}

theorem Machine.after_threads_self : (m.after t s' thread' events).threads t = thread' :=
  Function.update_self ..

theorem Machine.after_threads_of_ne {u : Nat} (other : u ≠ t) :
    (m.after t s' thread' events).threads u = m.threads u := Function.update_of_ne other ..

theorem Machine.mentions_of_none (m : Machine T) {o : Option Nat} (missing : o = none) (p : Nat) (there : o = some p) :
    m.Mentions p := by
  rw [missing] at there
  cases there

theorem tag_eq {n n' : SkipListNode T} (same : tag n = tag n') :
    n.isHead = n'.isHead ∧ n.fullyLinked = n'.fullyLinked ∧ n.data = n'.data := by
  simpa [tag] using same

theorem Local.own_of_raises {thread : Local T} (raises : thread.raises = some p) : thread.own = some p := by
  cases thread with
  | growGuard | growExchange => exact raises
  | _ => cases raises

/-- The predecessors that the order is about. -/
def Local.Sees : Local T → Nat → Prop
  | .guard _ point nodeHeight _ _ _, p => ∃ l < nodeHeight, point.preds l = some p
  | .validate _ point nodeHeight _ _ _, p => ∃ l < nodeHeight, point.preds l = some p
  | .removeCheck _ point layer _, p => ∃ l < layer + 1, point.preds l = some p
  | .removeGuard _ point layer _, p => ∃ l < layer + 1, point.preds l = some p
  | .removeMark _ point layer _, p => ∃ l < layer + 1, point.preds l = some p
  | _, _ => False

theorem Local.Climbs.congr {thread : Local T} {s : ConcurrentSkipList T} (climbs : thread.Climbs lt maxHeight s)
    (same : ∀ p, thread.Sees p → SamePlace s s' p) : thread.Climbs lt maxHeight s' := by
  have descends : ∀ {point : InsertionPoint} {height : Nat}, point.Descends lt s height →
      (∀ p, (∃ l < height, point.preds l = some p) → SamePlace s s' p) → point.Descends lt s' height :=
    fun before same => before.congr fun l low p pred => same p ⟨l, low, pred⟩
  cases thread with
  | guard => exact ⟨descends climbs.1 same, climbs.2⟩
  | validate | removeCheck | removeGuard | removeMark => exact descends climbs same
  | growLoad | growPop => exact climbs
  | _ => trivial

/-- They are linked or marked, and the thread has pointers to them. -/
theorem Local.Inv.sees {thread : Local T} {s : ConcurrentSkipList T} (inv : thread.Inv lt s xs lh)
    (sees : thread.Sees p) : thread.Holds p ∧ Live s xs p := by
  cases thread with
  | guard | validate =>
      obtain ⟨l, low, pred⟩ := sees
      exact ⟨.inl ⟨l, low, .inl pred⟩, (inv.2.1 l low).1.live pred⟩
  | removeCheck =>
      obtain ⟨l, low, pred⟩ := sees
      exact ⟨.inl ⟨l, low, .inl pred⟩, (inv.seen l (Nat.le_of_lt_succ low)).1.live pred⟩
  | removeGuard | removeMark =>
      obtain ⟨l, low, pred⟩ := sees
      exact ⟨.inl ⟨l, low, .inl pred⟩, (inv.1.seen l (Nat.le_of_lt_succ low)).1.live pred⟩
  | _ => exact sees.elim

/-- A node in use is not handed out. -/
theorem Machine.Inv.not_handsOut (inv : m.Inv lt xs lh)
    (used : p ∈ m.list.head :: xs ∨ ∃ u, (m.threads u).own = some p) : ¬ m.HandsOut t p := by
  rintro ⟨h, -, first⟩
  exact (inv.stock.queued h p (List.mem_of_mem_head? first)).2.2 used

/-- A node that the log has as linked or marked is in use. -/
theorem Machine.Inv.used_of_logged (inv : m.Inv lt xs lh) (logged : status m.log p ≠ .absent) :
    p ∈ m.list.head :: xs ∨ ∃ u, (m.threads u).own = some p := by
  by_cases owned : ∃ u, (m.threads u).own = some p
  · exact .inr owned
  · refine .inl (List.mem_cons_of_mem _ (Classical.byContradiction fun out => logged ?_))
    exact (inv.settled p fun u own => owned ⟨u, own⟩).absent out

/-- Neither is one that is mentioned, if the step is unshared. -/
theorem Machine.Inv.mentioned_not_handsOut (inv : m.Inv lt xs lh) (unshared : m.Unshared t)
    (mentions : m.Mentions p) : ¬ m.HandsOut t p := by
  rcases mentions with ⟨u, grows⟩ | logged | ⟨u, awaits⟩
  · exact inv.not_handsOut (.inr ⟨u, Local.own_of_grows grows⟩)
  · exact inv.not_handsOut (inv.used_of_logged logged)
  · intro handed
    by_cases here : u = t
    · obtain ⟨h, popping, -⟩ := handed
      rw [here] at awaits
      cases atPhase : m.threads t <;> rw [atPhase] at awaits popping <;>
        first | cases awaits; done | cases popping
    · exact (unshared p handed u here).2 awaits

/-- A node of the list that a thread owns is growing, or marked. -/
theorem Local.Inv.grows_or_logged {thread : Local T} {s : ConcurrentSkipList T} (inv : thread.Inv lt s xs lh)
    (own : thread.own = some p) (listed : p ∈ xs) (key : T) :
    thread.grows = some p ∨ thread.status key ≠ .absent := by
  cases thread with
  | guard | validate | retry | removeAgain | removeUnlink =>
      right
      intro absent
      cases absent
  | addStore | addPrepare | addPublish | addFinish => exact .inl own
  | growGuard | growExchange =>
      cases own
      exact absurd (.inr (.inr listed)) inv.2.2
  | growPush | removeSize | removePush =>
      cases own
      exact absurd (List.mem_cons_of_mem _ listed) inv.2
  | _ => cases own

/-- A node of the list is mentioned. -/
theorem Machine.Inv.mentions_listed (inv : m.Inv lt xs lh) (listed : p ∈ xs) : m.Mentions p := by
  by_cases owned : ∃ u, (m.threads u).own = some p
  · obtain ⟨u, own⟩ := owned
    rcases (inv.threads u).grows_or_logged own listed (m.list.keyOf p) with grows | logged
    · exact .inl ⟨u, grows⟩
    · exact .inr (.inl (inv.owned u p own ▸ logged))
  · have settled := inv.settled p fun u own => owned ⟨u, own⟩
    refine .inr (.inl ?_)
    rw [(settled.whole listed).2.2]
    intro absent
    cases absent

/-- So it is no head. -/
theorem Machine.Orderly.plain (orderly : m.Orderly lt maxHeight) (inv : m.Inv lt xs lh) :
    ∀ p ∈ xs, (m.list.memory p).isHead = false := fun p listed =>
  (orderly.completes p (inv.mentions_listed listed)).plain

/-- A node that is mentioned stays as it should be. -/
theorem Machine.Completes.stable (completes : m.Completes p) (effect : Effect maxHeight m t xs s' thread')
    (goes : Goes lt maxHeight m t s' thread' events) (free : ¬ m.HandsOut t p) :
    (m.after t s' thread' events).Completes p := by
  obtain ⟨plain', full'⟩ : (s'.memory p).isHead = false ∧
      ((m.list.memory p).fullyLinked = true → (s'.memory p).fullyLinked = true) := by
    by_cases own : (m.threads t).own = some p
    · exact effect.plain p own completes.plain
    · obtain ⟨isHead, full, -⟩ := tag_eq (effect.same p completes.allocated free own)
      exact ⟨isHead.trans completes.plain, full.trans⟩
  refine ⟨Nat.lt_of_lt_of_le completes.allocated effect.next, plain', ?_⟩
  rcases completes.linked with full | ⟨u, grows⟩
  · exact .inl (full' full)
  · by_cases here : u = t
    · rcases goes.ends p (here ▸ grows) with grows' | full
      · refine .inr ⟨t, ?_⟩
        rw [Machine.after_threads_self]
        exact grows'
      · exact .inl full
    · refine .inr ⟨u, ?_⟩
      rw [Machine.after_threads_of_ne here]
      exact grows

/-- What is mentioned after a step was mentioned before, or is a new node. -/
theorem Goes.mentioned (goes : Goes lt maxHeight m t s' thread' events)
    (mentions : (m.after t s' thread' events).Mentions p) : m.Mentions p ∨
      thread'.grows = some p ∧ p < s'.nextAddress ∧ (s'.memory p).isHead = false := by
  rcases mentions with ⟨u, grows⟩ | logged | ⟨u, awaits⟩
  · by_cases here : u = t
    · rw [here, Machine.after_threads_self] at grows
      rcases goes.begins p grows with before | new
      · exact .inl (.inl ⟨t, before⟩)
      · exact .inr ⟨grows, new⟩
    · rw [Machine.after_threads_of_ne here] at grows
      exact .inl (.inl ⟨u, grows⟩)
  · rcases goes.logs p logged with before | grows
    · exact .inl (.inr (.inl before))
    · exact .inl (.inl ⟨t, grows⟩)
  · by_cases here : u = t
    · rw [here, Machine.after_threads_self] at awaits
      exact .inl (goes.awaits p awaits)
    · rw [Machine.after_threads_of_ne here] at awaits
      exact .inl (.inr (.inr ⟨u, awaits⟩))

/-- **A step keeps the order** if its own thread and the nodes are as they should be. -/
theorem Machine.Orderly.next (orderly : m.Orderly lt maxHeight) (inv : m.Inv lt xs lh)
    (unshared : m.Unshared t) (effect : Effect maxHeight m t xs s' thread')
    (goes : Goes lt maxHeight m t s' thread' events) :
    (m.after t s' thread' events).Orderly lt maxHeight := by
  constructor
  · intro p
    rcases effect.small p with same | small
    · exact same ▸ orderly.small p
    · exact small
  · exact goes.head
  · intro u p raises
    by_cases here : u = t
    · rw [here, Machine.after_threads_self] at raises
      exact goes.raises p raises
    · rw [Machine.after_threads_of_ne here] at raises
      have own := Local.own_of_raises raises
      have same := effect.same p (inv.own_allocated own) (inv.not_handsOut (.inr ⟨u, own⟩)) fun mine =>
        here (inv.owners u t p own mine)
      exact (tag_eq same).1.trans (orderly.heads u p raises)
  · intro p mentions
    rcases goes.mentioned mentions with before | ⟨grows, allocated, plain⟩
    · exact (orderly.completes p before).stable effect goes (inv.mentioned_not_handsOut unshared before)
    · exact ⟨allocated, plain, .inr ⟨t, by rw [Machine.after_threads_self]; exact grows⟩⟩
  · intro p locked
    rcases effect.locks p locked with held | ⟨locked, notMine⟩
    · exact ⟨t, by rw [Machine.after_threads_self]; exact held⟩
    · obtain ⟨u, held⟩ := orderly.locks p locked
      have other : u ≠ t := fun here => notMine (here ▸ held)
      exact ⟨u, by rw [Machine.after_threads_of_ne other]; exact held⟩
  · intro u
    by_cases here : u = t
    · rw [here, Machine.after_threads_self]
      exact goes.climbs
    · rw [Machine.after_threads_of_ne here]
      refine (orderly.climbs u).congr fun p sees => ?_
      obtain ⟨pointer, live⟩ := (inv.threads u).sees sees
      by_cases own : (m.threads t).own = some p
      · exact effect.place p own live
      · have same := effect.same p (inv.live_allocated live) (fun handed => (unshared p handed u here).1 pointer) own
        exact ⟨(tag_eq same).1, (tag_eq same).2.2⟩

end Step

end Hcl.ConcurrentSkipList
