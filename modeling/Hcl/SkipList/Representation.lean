import Mathlib.Data.List.Flatten
import Hcl.SkipList.Refinement

/-!
The representation of the skip list and its recycler, with accessors that come and go.

`Representation lt s xs` says in the terms of the memory what a list at rest is: nested
increasing layers, flags and heights of the linked nodes, and queues of nodes that are not
linked. It is what `Quiet` gives. `representation_kept` carries it through every sequence of
accessor creations, copies and destructions and of changes through a live accessor: the
cleanup of `releaseRef` destroys unlinked nodes only, and growing finds a blank new head.
-/

namespace Hcl.ConcurrentSkipList

open Hcl.Lib

variable {T : Type} {lt : T → T → Prop} {maxHeight : Nat} {s s' : ConcurrentSkipList T} {xs : List Nat}

/-! ### The representation -/

/-- The linked nodes that are on layer `l`: those higher than `l`. -/
def onLayer (s : ConcurrentSkipList T) (xs : List Nat) (l : Nat) : List Nat :=
  layer (fun p => (s.memory p).height) l xs

/-- The list at rest, with the linked nodes `xs` in order. -/
structure Representation [Inhabited T] (lt : T → T → Prop) (s : ConcurrentSkipList T) (xs : List Nat) :
    Prop where
  /-- Layer `l` links the nodes higher than `l`, from the head on. -/
  layers : ∀ l < s.height, Chain (s.links l) (some s.head) (s.head :: s.onLayer xs l)
  bottom : s.onLayer xs 0 = xs
  nested : ∀ l, (s.onLayer xs (l + 1)).Sublist (s.onLayer xs l)
  increasing : ∀ l, ((s.onLayer xs l).map s.keyOf).Pairwise lt
  low : ∀ p ∈ xs, (s.memory p).height ≤ s.height
  linked : ∀ p ∈ xs, (s.memory p).fullyLinked = true ∧ (s.memory p).marked = false
  queued : ∀ h, ∀ p ∈ s.nodeQueues h, (s.memory p).height = h ∧ p ∉ xs ∧ p ≠ s.head
  /-- No node is queued twice. -/
  once : ((List.range queueCount).flatMap s.nodeQueues).Nodup
  /-- What `growHeight` pops has no link on its top layer. -/
  newHead : ∀ h s' p, s.height < h → s.pop h true = some (s', p) → s'.links (h - 1) p = none

theorem Stock.once {used : Nat → Prop} (stock : Stock s used) :
    ((List.range queueCount).flatMap s.nodeQueues).Nodup := by
  rw [List.nodup_flatMap]
  refine ⟨fun h _ => stock.distinct h, ?_⟩
  refine List.nodup_range.imp ?_
  intro h k other p here there
  exact other ((stock.queued h p here).1.symm.trans (stock.queued k p there).1)

theorem Quiet.newHead [Inhabited T] (h : Quiet lt maxHeight s xs) {height p : Nat}
    (higher : s.height < height) (pops : s.pop height true = some (s', p)) (l : Nat) :
    s'.links l p = none := by
  obtain ⟨s₁, q, pops', popped, -, -, -⟩ := pop_spec h.stock (pop_small pops) true
  cases pops.symm.trans pops'
  -- A queued node of that height is higher than the head, so its links are null; so are a new one's.
  obtain ⟨n, made, memory⟩ := popped.node
  rw [links, memory]
  rcases made with ⟨rfl, first⟩ | ⟨-, rfl⟩
  · have queued := (h.stock.queued height p (List.mem_of_mem_head? first)).1
    exact h.layers.clean p (by omega) l
  · rfl

theorem Quiet.representation [Inhabited T] (h : Quiet lt maxHeight s xs) : Representation lt s xs where
  layers l below := h.layers.levels.chain l below
  bottom := h.layers.layer_zero
  nested l := by
    apply List.monotone_filter_right
    intro p higher
    exact decide_eq_true (Nat.lt_of_succ_lt (of_decide_eq_true higher))
  increasing l := List.pairwise_map.mpr (h.layers.ascending.filter _)
  low p hp := (h.layers.linked p hp).2.2
  linked p hp := ⟨h.full p hp, h.unmarked p (List.mem_cons_of_mem _ hp)⟩
  queued k p hp := by
    obtain ⟨height, -, free⟩ := h.stock.queued k p hp
    exact ⟨height, fun mem => free (List.mem_cons_of_mem _ mem),
      fun eq => free (eq ▸ List.mem_cons_self)⟩
  once := h.stock.once
  newHead k s' p higher pops := h.newHead higher pops (k - 1)

/-! ### The cleanup of `releaseRef` -/

section Cleanup

variable [Inhabited T]

/-- One round of the inner loop: `pop(n)` and `destroy(alloc_, n)`. -/
def popDestroy (h : Nat) (s : ConcurrentSkipList T) : ConcurrentSkipList T :=
  match s.nodeQueues h with
  | [] => s
  | p :: rest => ({ s with nodeQueues := Function.update s.nodeQueues h rest }).destroy p

/-- `while (!node_queues[h]->empty())`, as many rounds. -/
def drain (h : Nat) : Nat → ConcurrentSkipList T → ConcurrentSkipList T
  | 0, s => s
  | n + 1, s => drain h n (s.popDestroy h)

/-- The loop over the queues. -/
def cleanup (s : ConcurrentSkipList T) : ConcurrentSkipList T :=
  (List.range queueCount).foldl (fun s h => s.drain h (s.nodeQueues h).length) s

/-- A queue is empty after as many rounds as it has nodes. -/
theorem drain_eq_nil (h : Nat) (s : ConcurrentSkipList T) {n : Nat}
    (rounds : (s.nodeQueues h).length = n) : (s.drain h n).nodeQueues h = [] := by
  induction n generalizing s with
  | zero => exact List.length_eq_zero_iff.mp rounds
  | succ n ih =>
      apply ih
      cases queue : s.nodeQueues h with
      | nil =>
          rw [queue] at rounds
          cases rounds
      | cons p rest =>
          rw [queue] at rounds
          simpa [popDestroy, queue, destroy, modify] using rounds

theorem popDestroy_nodeQueues (k h : Nat) (s : ConcurrentSkipList T) :
    (s.popDestroy k).nodeQueues h = if h = k then (s.nodeQueues h).tail else s.nodeQueues h := by
  unfold popDestroy
  by_cases here : h = k
  · subst here
    split <;> simp_all [destroy, modify]
  · split <;> simp [destroy, modify, here]

/-- An empty queue stays empty. -/
theorem drain_nodeQueues {h : Nat} {s : ConcurrentSkipList T} (empty : s.nodeQueues h = [])
    (k n : Nat) : (s.drain k n).nodeQueues h = [] := by
  induction n generalizing s with
  | zero => exact empty
  | succ n ih =>
      apply ih
      rw [popDestroy_nodeQueues, empty]
      split <;> rfl

/-- The cleanup empties every queue, so each of its loops was run to the end. -/
theorem cleanup_nodeQueues (s : ConcurrentSkipList T) {h : Nat} (small : h < queueCount) :
    s.cleanup.nodeQueues h = [] := by
  have all : ∀ (hs : List Nat) (s : ConcurrentSkipList T), s.nodeQueues h = [] ∨ h ∈ hs →
      (hs.foldl (fun s h => s.drain h (s.nodeQueues h).length) s).nodeQueues h = [] := by
    intro hs
    induction hs with
    | nil => exact fun s done => done.resolve_right List.not_mem_nil
    | cons k hs ih =>
        intro s done
        apply ih
        rcases done with empty | mem
        · exact .inl (drain_nodeQueues empty k _)
        · rcases List.mem_cons.mp mem with rfl | later
          · exact .inl (drain_eq_nil h s rfl)
          · exact .inr later
  have listed : h ∈ List.range queueCount := List.mem_range.mpr small
  unfold cleanup
  exact all _ s (.inr listed)

/-- What destroying queued nodes leaves of a list at rest. -/
structure Drained (lt : T → T → Prop) (maxHeight : Nat) (s : ConcurrentSkipList T) (xs : List Nat)
    (s' : ConcurrentSkipList T) : Prop where
  quiet : Quiet lt maxHeight s' xs
  head : s'.head = s.head
  size : s'.size = s.size
  queues : ∀ h, ∀ p ∈ s'.nodeQueues h, p ∈ s.nodeQueues h
  memory : ∀ p, s'.memory p = s.memory p ∨ ∃ h < queueCount, p ∈ s.nodeQueues h

omit [Inhabited T] in
theorem Quiet.drained (h : Quiet lt maxHeight s xs) : Drained lt maxHeight s xs s :=
  ⟨h, rfl, rfl, fun _ _ mem => mem, fun _ => .inl rfl⟩

theorem Drained.popDestroy (d : Drained lt maxHeight s xs s') {h : Nat} (small : h < queueCount) :
    Drained lt maxHeight s xs (s'.popDestroy h) := by
  unfold ConcurrentSkipList.popDestroy
  split
  · exact d
  · rename_i p rest queue
    have quiet := d.quiet
    have front : p ∈ s'.nodeQueues h := queue ▸ List.mem_cons_self
    have outside : p ∉ s'.head :: xs := (quiet.stock.queued h p front).2.2
    have taken := quiet.stock.taken queue
    let s₁ := { s' with nodeQueues := Function.update s'.nodeQueues h rest }
    have layers₁ : Layers lt s₁ xs fun q => (s'.memory q).height :=
      quiet.layers.of_memory rfl rfl (Nat.le_refl _)
    have other : ∀ q ≠ p, (s₁.destroy p).memory q = s'.memory q := fun q ne => modify_of_ne p _ s₁ ne
    have inList : ∀ q ∈ s'.head :: xs, (s₁.destroy p).memory q = s'.memory q := fun q hq =>
      other q (ne_of_mem_of_not_mem hq outside)
    have fewer : ∀ k, ∀ q ∈ (s₁.destroy p).nodeQueues k, q ∈ s'.nodeQueues k := by
      intro k q hq
      change q ∈ Function.update s'.nodeQueues h rest k at hq
      by_cases here : k = h
      · subst here
        rw [Function.update_self] at hq
        rw [queue]
        exact List.mem_cons_of_mem _ hq
      · rwa [Function.update_of_ne here] at hq
    refine ⟨⟨?_, ?_, ?_, ?_, ?_, quiet.size, ?_⟩, d.head, d.size, ?_, ?_⟩
    · have layers₂ : Layers lt (s₁.destroy p) xs fun q => (s'.memory q).height :=
        layers₁.modify_outside outside (Nat.zero_le _)
      exact layers₂.congr_height fun q hq =>
        congrArg SkipListNode.height (inList q (List.mem_cons_of_mem _ hq))
    · constructor
      · intro k q hq
        obtain ⟨height, allocated, free⟩ := taken.queued k q hq
        obtain ⟨unused, ne⟩ := not_or.mp free
        rw [other q ne]
        exact ⟨height, allocated, unused⟩
      · exact taken.distinct
      · exact quiet.stock.allocated
    · intro q hq
      rw [inList q hq]
      exact quiet.unmarked q hq
    · intro q hq
      rw [inList q (List.mem_cons_of_mem _ hq)]
      exact quiet.full q hq
    · intro q
      by_cases here : q = p
      · subst here
        exact congrArg SkipListNode.locked (modify_self q _ s₁)
      · rw [other q here]
        exact quiet.unlocked q
    · show ((s₁.destroy p).memory s'.head).height ≤ maxHeight
      rw [inList _ List.mem_cons_self]
      exact quiet.top
    · exact fun k q hq => d.queues k q (fewer k q hq)
    · intro q
      by_cases here : q = p
      · subst here
        exact .inr ⟨h, small, d.queues h q front⟩
      · rw [other q here]
        exact d.memory q

theorem Drained.drain (d : Drained lt maxHeight s xs s') {h : Nat} (small : h < queueCount) (n : Nat) :
    Drained lt maxHeight s xs (s'.drain h n) := by
  induction n generalizing s' with
  | zero => exact d
  | succ n ih => exact ih (d.popDestroy small)

/-- **The cleanup destroys queued nodes only and leaves the list as it is.** -/
theorem Quiet.cleanup (h : Quiet lt maxHeight s xs) : Drained lt maxHeight s xs s.cleanup := by
  have all : ∀ (hs : List Nat) {s' : ConcurrentSkipList T}, (∀ k ∈ hs, k < queueCount) →
      Drained lt maxHeight s xs s' →
      Drained lt maxHeight s xs (hs.foldl (fun s h => s.drain h (s.nodeQueues h).length) s') := by
    intro hs
    induction hs with
    | nil => exact fun _ d => d
    | cons k hs ih =>
        intro s' small d
        obtain ⟨first, rest⟩ := List.forall_mem_cons.mp small
        exact ih rest (d.drain first _)
  exact all (List.range queueCount) (fun k mem => List.mem_range.mp mem) h.drained

omit [Inhabited T] in
theorem Drained.height (d : Drained lt maxHeight s xs s') (h : Quiet lt maxHeight s xs) :
    s'.height = s.height := by
  show (s'.memory s'.head).height = (s.memory s.head).height
  rw [d.head]
  rcases d.memory s.head with same | ⟨k, -, queued⟩
  · rw [same]
  · exact absurd List.mem_cons_self (h.stock.queued k s.head queued).2.2

end Cleanup

/-! ### Accessors -/

/-- A list and its recycler's counters, with the number of live accessors. `refs` is `refs_`, an
`int32_t` in the source: there are fewer than 2³¹ live accessors. -/
structure Shared (T : Type) where
  list : ConcurrentSkipList T
  refs : Int
  dirty : Bool
  accessors : Nat

/-- What is done with a list by one thread. The changes go through a live accessor. -/
inductive Use (T : Type) where
  | create
  | copy
  | destroy
  | add (x : T) (draws : Nat → Nat → Bool)
  | remove (x : T)
  | popBack

section Uses

variable [Inhabited T]

/-- `ConcurrentSkipList(height)`. The pop of the head makes the recycler dirty. -/
def Shared.new (initialHeight : Nat) : Option (Shared T) := do
  let list ← ConcurrentSkipList.new initialHeight
  some ⟨list, 0, true, 0⟩

/-- `addRef()` by a new accessor. -/
def Shared.addRef (s : Shared T) : Shared T :=
  { s with refs := s.refs + 1, accessors := s.accessors + 1 }

/-- `releaseRef()` runs its cleanup. -/
def Shared.cleans (s : Shared T) : Bool := s.dirty && !decide (s.refs > 1) && decide (s.refs = 1)

/-- `releaseRef()` by an accessor that goes. -/
def Shared.releaseRef (s : Shared T) : Shared T :=
  let s' := { s with refs := s.refs - 1, accessors := s.accessors - 1 }
  if s.cleans then { s' with list := s.list.cleanup, dirty := false } else s'

/-- The nodes that a release destroys. -/
def Shared.destroyed (s : Shared T) : List Nat :=
  if s.cleans then (List.range queueCount).flatMap s.list.nodeQueues else []

/-- A change through an accessor. It pops or pushes a node exactly when it answers `true`, and
`push` and `pop` make the recycler dirty. -/
def Shared.change (lt : T → T → Prop) [DecidableRel lt] (maxHeight : Nat) (sizeLimit : Nat → Nat)
    (fuel : Nat) (op : Op T) (s : Shared T) : Option (Shared T) := do
  let (list, answer) ← step lt maxHeight sizeLimit fuel s.list op
  some { s with
    list
    dirty := match answer with
      | .flag true => true
      | _ => s.dirty }

/-- One use. Without an accessor only `create` is a call. -/
def Shared.use (lt : T → T → Prop) [DecidableRel lt] (maxHeight : Nat) (sizeLimit : Nat → Nat)
    (fuel : Nat) (s : Shared T) : Use T → Option (Shared T)
  | .create => some s.addRef
  | .copy => if s.accessors = 0 then some s else some s.addRef
  | .destroy => if s.accessors = 0 then some s else some s.releaseRef
  | .add x draws =>
      if s.accessors = 0 then some s else s.change lt maxHeight sizeLimit fuel (.add x draws)
  | .remove x => if s.accessors = 0 then some s else s.change lt maxHeight sizeLimit fuel (.remove x)
  | .popBack => if s.accessors = 0 then some s else s.change lt maxHeight sizeLimit fuel .popBack

def Shared.run (lt : T → T → Prop) [DecidableRel lt] (maxHeight : Nat) (sizeLimit : Nat → Nat)
    (fuel : Nat) (s : Shared T) (uses : List (Use T)) : Option (Shared T) :=
  uses.foldlM (Shared.use lt maxHeight sizeLimit fuel) s

/-! ### What a use keeps -/

variable [DecidableRel lt] [IsStrictWeakOrder T lt] (sizeLimit : Nat → Nat) (fuel : Nat)

/-- A list at rest after a change, with a head at least as high. -/
structure Changed (lt : T → T → Prop) (maxHeight : Nat) (s s' : ConcurrentSkipList T) : Prop where
  quiet : ∃ xs, Quiet lt maxHeight s' xs
  height : s.height ≤ s'.height

/-- `add` leaves the list, or ends with `growIfOver` on a list at rest. -/
theorem Quiet.add_changed (h : Quiet lt maxHeight s xs) (small : maxHeight < queueCount) (x : T)
    (draws : Nat → Nat → Bool) :
    ∃ s' answer, step lt maxHeight sizeLimit (fuel + 1) s (.add x draws) = some (s', answer) ∧
      Changed lt maxHeight s s' ∧
      (s' = s ∨ ∃ t ys, Quiet lt maxHeight t ys ∧
        t.growIfOver maxHeight sizeLimit ys.length = some s') := by
  by_cases present : ∃ q ∈ xs, IncompRel lt (s.keyOf q) x
  · obtain ⟨q, hq, same⟩ := present
    have adds := h.add_present sizeLimit fuel draws hq same
    exact ⟨s, .flag false, by simp [step, adds], ⟨⟨xs, h⟩, Nat.le_refl _⟩, .inl rfl⟩
  · have absent : ∀ q ∈ xs, ¬ IncompRel lt (s.keyOf q) x := fun q hq same => present ⟨q, hq, same⟩
    obtain ⟨t, node, adds, quiet, -, height, -⟩ := h.adds small sizeLimit fuel draws absent
    have length := length_insertNode h.layers.ascending x node
    obtain ⟨s', grows, quiet', -, higher⟩ := quiet.growIfOver small sizeLimit (xs.length + 1)
    refine ⟨s', .flag true, by simp [step, adds s' grows], ⟨⟨_, quiet'⟩, height ▸ higher⟩,
      .inr ⟨t, _, quiet, ?_⟩⟩
    rw [length]
    exact grows

theorem Quiet.removeFrom_changed (h : Quiet lt maxHeight s xs) (small : maxHeight < queueCount)
    (x : T) : ∃ s' removed, ConcurrentSkipList.removeFrom lt x (fuel + 1) none s = some (s', removed) ∧
      Changed lt maxHeight s s' := by
  by_cases present : ∃ q ∈ xs, IncompRel lt (s.keyOf q) x
  · obtain ⟨q, hq, same⟩ := present
    obtain ⟨s', removes, quiet, -, height, -⟩ := h.remove_present small fuel hq same
    exact ⟨s', true, removes, ⟨_, quiet⟩, height.ge⟩
  · have absent : ∀ q ∈ xs, ¬ IncompRel lt (s.keyOf q) x := fun q hq same => present ⟨q, hq, same⟩
    exact ⟨s, false, h.remove_absent fuel absent, ⟨xs, h⟩, Nat.le_refl _⟩

theorem Quiet.remove_changed (h : Quiet lt maxHeight s xs) (small : maxHeight < queueCount) (x : T) :
    ∃ s' answer, step lt maxHeight sizeLimit (fuel + 1) s (.remove x) = some (s', answer) ∧
      Changed lt maxHeight s s' := by
  obtain ⟨s', removed, removes, changed⟩ := h.removeFrom_changed fuel small x
  exact ⟨s', .flag removed, by simp [step, removes], changed⟩

theorem Quiet.popBack_changed (h : Quiet lt maxHeight s xs) (small : maxHeight < queueCount) :
    ∃ s' answer, step lt maxHeight sizeLimit (fuel + 1) s .popBack = some (s', answer) ∧
      Changed lt maxHeight s s' := by
  cases last : xs.getLast? with
  | none => exact ⟨s, .flag false, by simp [step, h.layers.last, last], ⟨xs, h⟩, Nat.le_refl _⟩
  | some q =>
      obtain ⟨s', removed, removes, changed⟩ := h.removeFrom_changed fuel small (s.keyOf q)
      exact ⟨s', .flag removed, by simp [step, h.layers.last, last, removes], changed⟩

/-- What a use does to a represented list. -/
structure Kept (lt : T → T → Prop) (maxHeight : Nat) (sizeLimit : Nat → Nat) (s : Shared T)
    (xs : List Nat) (use : Use T) (s' : Shared T) : Prop where
  /-- The head's height never decreases. -/
  height : s.list.height ≤ s'.list.height
  /-- Where an insertion lets the list grow, it is represented. -/
  grows : ∀ x draws, use = .add x draws → s'.list = s.list ∨ ∃ t ys, Representation lt t ys ∧
    t.growIfOver maxHeight sizeLimit ys.length = some s'.list
  /-- What a release destroys is not linked. -/
  unlinked : use = .destroy → ∀ p ∈ s.destroyed, p ∉ xs ∧ p ≠ s.list.head
  /-- And the list is left as it is. -/
  intact : use = .destroy → Representation lt s'.list xs ∧ s'.list.head = s.list.head ∧
    ∀ p ∉ s.destroyed, s'.list.memory p = s.list.memory p

/-- `refs_` counts the accessors, and the list is at rest. -/
structure Shared.Inv (lt : T → T → Prop) (maxHeight : Nat) (s : Shared T) (xs : List Nat) : Prop where
  quiet : Quiet lt maxHeight s.list xs
  refs : s.refs = s.accessors

omit [IsStrictWeakOrder T lt] [DecidableRel lt] in
/-- A use that leaves the list. -/
theorem Shared.Inv.kept_same {s s' : Shared T} (inv : s.Inv lt maxHeight xs) {use : Use T}
    (same : s'.list = s.list) (idle : use = .destroy → s.destroyed = []) :
    Kept lt maxHeight sizeLimit s xs use s' := by
  constructor
  · rw [same]
  · exact fun _ _ _ => .inl same
  · intro eq p mem
    rw [idle eq] at mem
    cases mem
  · intro _
    rw [same]
    exact ⟨inv.quiet.representation, rfl, fun _ _ => rfl⟩

omit [IsStrictWeakOrder T lt] [DecidableRel lt] [Inhabited T] in
theorem Shared.Inv.addRef {s : Shared T} (inv : s.Inv lt maxHeight xs) :
    s.addRef.Inv lt maxHeight xs := by
  constructor
  · exact inv.quiet
  · simp [Shared.addRef, inv.refs]

omit [IsStrictWeakOrder T lt] [DecidableRel lt] in
/-- A release keeps the list, whether or not it cleans up. -/
theorem Shared.Inv.releaseRef {s : Shared T} (inv : s.Inv lt maxHeight xs) (live : s.accessors ≠ 0) :
    s.releaseRef.Inv lt maxHeight xs ∧ Kept lt maxHeight sizeLimit s xs .destroy s.releaseRef := by
  have refs : s.refs - 1 = ((s.accessors - 1 : Nat) : Int) := by
    rw [inv.refs]
    omega
  by_cases cleans : s.cleans = true
  · have drained := inv.quiet.cleanup
    have released : s.releaseRef = ⟨s.list.cleanup, s.refs - 1, false, s.accessors - 1⟩ := by
      simp only [Shared.releaseRef, cleans, if_true]
    have destroyed : s.destroyed = (List.range queueCount).flatMap s.list.nodeQueues := if_pos cleans
    generalize s.list.cleanup = cleaned at drained released
    rw [released]
    refine ⟨⟨drained.quiet, refs⟩, (drained.height inv.quiet).ge, by simp, ?_, ?_⟩
    · intro _ p mem
      rw [destroyed, List.mem_flatMap] at mem
      obtain ⟨h, -, queued⟩ := mem
      exact (inv.quiet.representation.queued h p queued).2
    · intro _
      refine ⟨drained.quiet.representation, drained.head, ?_⟩
      intro p kept
      rcases drained.memory p with same | ⟨h, small, queued⟩
      · exact same
      · rw [destroyed] at kept
        exact absurd (List.mem_flatMap.mpr ⟨h, List.mem_range.mpr small, queued⟩) kept
  · have released : s.releaseRef = ⟨s.list, s.refs - 1, s.dirty, s.accessors - 1⟩ := by
      simp only [Shared.releaseRef, cleans, if_false, Bool.false_eq_true]
    rw [released]
    exact ⟨⟨inv.quiet, refs⟩, inv.kept_same sizeLimit rfl fun _ => if_neg cleans⟩

omit [IsStrictWeakOrder T lt] in
/-- A change keeps the counters. -/
theorem Shared.Inv.change {s : Shared T} (inv : s.Inv lt maxHeight xs) {op : Op T}
    {list : ConcurrentSkipList T} {answer : Answer T}
    (taken : step lt maxHeight sizeLimit (fuel + 1) s.list op = some (list, answer))
    (changed : Changed lt maxHeight s.list list) :
    ∃ s', s.change lt maxHeight sizeLimit (fuel + 1) op = some s' ∧ s'.list = list ∧
      ∃ ys, s'.Inv lt maxHeight ys := by
  obtain ⟨ys, quiet⟩ := changed.quiet
  simp only [Shared.change, taken, Option.bind_eq_bind, Option.bind_some]
  exact ⟨_, rfl, rfl, ys, quiet, inv.refs⟩

/-- **Every use of a represented list** goes through and leaves a represented list. -/
theorem Shared.Inv.use {s : Shared T} (inv : s.Inv lt maxHeight xs) (small : maxHeight < queueCount)
    (use : Use T) : ∃ s', s.use lt maxHeight sizeLimit (fuel + 1) use = some s' ∧
      Kept lt maxHeight sizeLimit s xs use s' ∧ ∃ ys, s'.Inv lt maxHeight ys := by
  -- Without an accessor there is nothing to release.
  have clean : s.accessors = 0 → s.destroyed = [] := by
    intro nobody
    have zero : s.refs = 0 := by rw [inv.refs, nobody]; rfl
    simp [Shared.destroyed, Shared.cleans, zero]
  have still (nobody : s.accessors = 0) : Kept lt maxHeight sizeLimit s xs use s :=
    inv.kept_same sizeLimit rfl fun _ => clean nobody
  have refers (other : use ≠ .destroy) : Kept lt maxHeight sizeLimit s xs use s.addRef :=
    inv.kept_same sizeLimit rfl fun eq => absurd eq other
  cases use with
  | create => exact ⟨s.addRef, rfl, refers (by simp), xs, inv.addRef⟩
  | copy =>
      by_cases nobody : s.accessors = 0
      · exact ⟨s, if_pos nobody, still nobody, xs, inv⟩
      · exact ⟨s.addRef, if_neg nobody, refers (by simp), xs, inv.addRef⟩
  | destroy =>
      by_cases nobody : s.accessors = 0
      · exact ⟨s, if_pos nobody, still nobody, xs, inv⟩
      · obtain ⟨next, kept⟩ := inv.releaseRef sizeLimit nobody
        exact ⟨s.releaseRef, if_neg nobody, kept, xs, next⟩
  | add x draws =>
      by_cases nobody : s.accessors = 0
      · exact ⟨s, if_pos nobody, still nobody, xs, inv⟩
      · obtain ⟨list, answer, taken, changed, grows⟩ := inv.quiet.add_changed sizeLimit fuel small x draws
        obtain ⟨s', done, rfl, ys, next⟩ := inv.change sizeLimit fuel taken changed
        refine ⟨s', (if_neg nobody).trans done, ⟨changed.height, ?_, by simp, by simp⟩, ys, next⟩
        intro _ _ _
        refine grows.imp_right ?_
        rintro ⟨t, zs, quiet, grown⟩
        exact ⟨t, zs, quiet.representation, grown⟩
  | remove x =>
      by_cases nobody : s.accessors = 0
      · exact ⟨s, if_pos nobody, still nobody, xs, inv⟩
      · obtain ⟨list, answer, taken, changed⟩ := inv.quiet.remove_changed sizeLimit fuel small x
        obtain ⟨s', done, rfl, ys, next⟩ := inv.change sizeLimit fuel taken changed
        exact ⟨s', (if_neg nobody).trans done, ⟨changed.height, by simp, by simp, by simp⟩, ys, next⟩
  | popBack =>
      by_cases nobody : s.accessors = 0
      · exact ⟨s, if_pos nobody, still nobody, xs, inv⟩
      · obtain ⟨list, answer, taken, changed⟩ := inv.quiet.popBack_changed sizeLimit fuel small
        obtain ⟨s', done, rfl, ys, next⟩ := inv.change sizeLimit fuel taken changed
        exact ⟨s', (if_neg nobody).trans done, ⟨changed.height, by simp, by simp, by simp⟩, ys, next⟩

theorem Shared.Inv.run {s : Shared T} (inv : s.Inv lt maxHeight xs) (small : maxHeight < queueCount)
    (uses : List (Use T)) : ∃ s', s.run lt maxHeight sizeLimit (fuel + 1) uses = some s' ∧
      ∃ ys, s'.Inv lt maxHeight ys := by
  induction uses generalizing s xs with
  | nil => exact ⟨s, rfl, xs, inv⟩
  | cons use uses ih =>
      obtain ⟨s₁, first, -, ys, next⟩ := inv.use sizeLimit fuel small use
      obtain ⟨s₂, rest, last⟩ := ih next
      refine ⟨s₂, ?_, last⟩
      rw [Shared.run, List.foldlM_cons, first]
      exact rest

/-- **Representation invariant.** After every sequence of uses of a new list, of any initial
height and with any draws and size limits, the list is represented, and so it is after each
further use: the head does not get lower, growing starts from a represented list, and a release
destroys nodes that are not linked and leaves the list as it is. -/
theorem representation_kept (small : maxHeight < queueCount) {initialHeight : Nat}
    (positive : 0 < initialHeight) (low : initialHeight ≤ maxHeight) (uses : List (Use T)) :
    ∃ (s₀ s : Shared T) (xs : List Nat), Shared.new initialHeight = some s₀ ∧
      s₀.run lt maxHeight sizeLimit (fuel + 1) uses = some s ∧ Representation lt s.list xs ∧
      s.refs = s.accessors ∧
      ∀ use, ∃ s', s.use lt maxHeight sizeLimit (fuel + 1) use = some s' ∧
        Kept lt maxHeight sizeLimit s xs use s' := by
  obtain ⟨list, made, quiet⟩ := new_spec lt positive low small
  have start : (⟨list, 0, true, 0⟩ : Shared T).Inv lt maxHeight [] := ⟨quiet, rfl⟩
  obtain ⟨s, runs, xs, inv⟩ := start.run sizeLimit fuel small uses
  refine ⟨⟨list, 0, true, 0⟩, s, xs, ?_, runs, inv.quiet.representation, inv.refs, ?_⟩
  · simp only [Shared.new, made, Option.bind_eq_bind, Option.bind_some]
  · intro use
    obtain ⟨s', taken, kept, -⟩ := inv.use sizeLimit fuel small use
    exact ⟨s', taken, kept⟩

end Uses

/-- A list of height 2 with a key added, removed and added again, and its accessor released. -/
theorem representation_kept_released :
    24 < queueCount ∧ 0 < 2 ∧ 2 ≤ 24 ∧ ∃ (s₀ s : Shared Nat) (xs : List Nat), Shared.new 2 = some s₀ ∧
      s₀.run (· < ·) 24 (fun h => h) 1 [.create, .add 5 fun _ _ => true, .remove 5,
        .add 5 fun _ _ => false, .destroy] = some s ∧ Representation (· < ·) s.list xs := by
  have order : IsStrictWeakOrder Nat (· < ·) := isStrictWeakOrder_of_isOrderConnected
  obtain ⟨s₀, s, xs, made, runs, represented, -⟩ :=
    @representation_kept Nat (· < ·) 24 _ _ order (fun h => h) 0 (by decide) 2 (by decide) (by decide)
      [.create, .add 5 fun _ _ => true, .remove 5, .add 5 fun _ _ => false, .destroy]
  exact ⟨by decide, by decide, by decide, s₀, s, xs, made, runs, represented⟩

end Hcl.ConcurrentSkipList
