import Hcl.SkipList.Layers

/-!
What the recycler hands out.

`Stock s used` says that the queues hold nodes of the right height that are not in use, each
once; who uses a node is left to the user of the recycler. `pop_spec` is all that is needed
of `pop`: it returns a node that was not in use, with its flags cleared, and touches no other
node that was there before.
-/

namespace Hcl.ConcurrentSkipList

open Hcl.Lib

variable {T : Type} {lt : T → T → Prop} {s : ConcurrentSkipList T} {xs : List Nat} {lh : Nat → Nat}
  {used : Nat → Prop} {h p : Nat}

structure Stock (s : ConcurrentSkipList T) (used : Nat → Prop) : Prop where
  queued : ∀ h, ∀ p ∈ s.nodeQueues h, (s.memory p).height = h ∧ p < s.nextAddress ∧ ¬ used p
  distinct : ∀ h, (s.nodeQueues h).Nodup
  allocated : ∀ p, used p → p < s.nextAddress

/-- Writes that keep the heights keep the stock. -/
theorem Stock.congr {s' : ConcurrentSkipList T} {used' : Nat → Prop} (stock : Stock s used)
    (queues : s'.nodeQueues = s.nodeQueues) (next : s'.nextAddress = s.nextAddress)
    (height : ∀ p, (s'.memory p).height = (s.memory p).height) (same : ∀ p, used' p ↔ used p) :
    Stock s' used' where
  queued h p hp := by
    rw [queues] at hp
    rw [height, next, same]
    exact stock.queued h p hp
  distinct h := queues ▸ stock.distinct h
  allocated p hp := next ▸ stock.allocated p ((same p).mp hp)

/-- With fewer nodes in use the stock is as good. -/
theorem Stock.mono {used' : Nat → Prop} (stock : Stock s used) (fewer : ∀ p, used' p → used p) :
    Stock s used' where
  queued h p hp :=
    let ⟨height, allocated, free⟩ := stock.queued h p hp
    ⟨height, allocated, mt (fewer p) free⟩
  distinct := stock.distinct
  allocated p hp := stock.allocated p (fewer p hp)

theorem Stock.modify (stock : Stock s used) (p : Nat) {f : SkipListNode T → SkipListNode T}
    (height : (f (s.memory p)).height = (s.memory p).height) : Stock (s.modify p f) used :=
  stock.congr rfl rfl (modify_keeps p f s SkipListNode.height height) fun _ => Iff.rfl

section Refill

variable [Inhabited T]

/-- What a single new node keeps, the refilled queue keeps. -/
theorem refill_invariant {P : ConcurrentSkipList T → Prop} (h : Nat)
    (step : ∀ s, P s → P (s.createQueued h)) (n : Nat) {s : ConcurrentSkipList T} (start : P s) :
    P (refill h n s) := by
  induction n generalizing s with
  | zero => exact start
  | succ n ih => exact ih (step s start)

theorem stocked_invariant {P : ConcurrentSkipList T → Prop} (h : Nat)
    (step : ∀ s, P s → P (s.createQueued h)) {s : ConcurrentSkipList T} (start : P s) :
    P (s.stocked h) := by
  unfold stocked
  split
  · exact refill_invariant h step _ start
  · exact start

theorem stocked_nonempty (h : Nat) (s : ConcurrentSkipList T) : (s.stocked h).nodeQueues h ≠ [] := by
  unfold stocked
  split
  · have grows : ∀ s : ConcurrentSkipList T, (s.createQueued h).nodeQueues h ≠ [] := fun s => by
      simp [createQueued]
    exact refill_invariant (P := fun s => s.nodeQueues h ≠ []) h (fun s _ => grows s) 99 (grows s)
  · assumption

/-- The new nodes are behind the old ones in memory and as their constructor made them. -/
theorem stocked_memory (h : Nat) (s : ConcurrentSkipList T) :
    s.nextAddress ≤ (s.stocked h).nextAddress ∧ ∀ q, (s.stocked h).memory q = s.memory q ∨
      s.nextAddress ≤ q ∧ (s.stocked h).memory q = .create h default := by
  refine stocked_invariant (P := fun s' => s.nextAddress ≤ s'.nextAddress ∧ ∀ q,
    s'.memory q = s.memory q ∨ s.nextAddress ≤ q ∧ s'.memory q = .create h default) h ?_
    ⟨Nat.le_refl _, fun _ => .inl rfl⟩
  rintro s' ⟨grows, memory⟩
  refine ⟨Nat.le_succ_of_le grows, ?_⟩
  intro q
  by_cases here : q = s'.nextAddress
  · subst here
    exact .inr ⟨grows, Function.update_self ..⟩
  · simp only [createQueued, Function.update_of_ne here]
    exact memory q

/-- A queue that was refilled holds new nodes only. -/
theorem stocked_new {h : Nat} {s : ConcurrentSkipList T} (empty : s.nodeQueues h = []) :
    ∀ p ∈ (s.stocked h).nodeQueues h, s.nextAddress ≤ p ∧ (s.stocked h).memory p = .create h default := by
  have all := stocked_invariant (P := fun s' => s.nextAddress ≤ s'.nextAddress ∧
    ∀ p ∈ s'.nodeQueues h, s.nextAddress ≤ p ∧ p < s'.nextAddress ∧ s'.memory p = .create h default)
    (s := s) h ?_ ⟨Nat.le_refl _, by simp [empty]⟩
  · exact fun p hp => ⟨(all.2 p hp).1, (all.2 p hp).2.2⟩
  · rintro s' ⟨grows, new⟩
    refine ⟨Nat.le_succ_of_le grows, ?_⟩
    intro p hp
    simp only [createQueued, Function.update_self] at hp ⊢
    rcases List.mem_append.mp hp with hp | hp
    · obtain ⟨above, allocated, made⟩ := new p hp
      rw [Function.update_of_ne (Nat.ne_of_lt allocated)]
      exact ⟨above, Nat.lt_succ_of_lt allocated, made⟩
    · obtain rfl := List.mem_singleton.mp hp
      exact ⟨grows, Nat.lt_succ_self _, Function.update_self ..⟩

theorem stocked_head (h : Nat) (s : ConcurrentSkipList T) : (s.stocked h).head = s.head :=
  stocked_invariant (P := fun s' => s'.head = s.head) h (fun _ same => same) rfl

theorem stocked_size (h : Nat) (s : ConcurrentSkipList T) : (s.stocked h).size = s.size :=
  stocked_invariant (P := fun s' => s'.size = s.size) h (fun _ same => same) rfl

theorem Stock.createQueued (stock : Stock s used) (h : Nat) : Stock (s.createQueued h) used where
  queued h' p hp := by
    simp only [ConcurrentSkipList.createQueued] at hp ⊢
    have old : p ∈ s.nodeQueues h' →
        (Function.update s.memory s.nextAddress (.create h default) p).height = h' ∧
          p < s.nextAddress + 1 ∧ ¬ used p := fun hp => by
      obtain ⟨height, allocated, free⟩ := stock.queued h' p hp
      rw [Function.update_of_ne (Nat.ne_of_lt allocated)]
      exact ⟨height, Nat.lt_succ_of_lt allocated, free⟩
    by_cases here : h' = h
    · subst here
      rw [Function.update_self] at hp
      rcases List.mem_append.mp hp with hp | hp
      · exact old hp
      · obtain rfl := List.mem_singleton.mp hp
        rw [Function.update_self]
        exact ⟨rfl, Nat.lt_succ_self _, fun used => Nat.lt_irrefl _ (stock.allocated _ used)⟩
    · rw [Function.update_of_ne here] at hp
      exact old hp
  distinct h' := by
    simp only [ConcurrentSkipList.createQueued]
    by_cases here : h' = h
    · subst here
      rw [Function.update_self]
      refine List.nodup_append.mpr ⟨stock.distinct h', List.nodup_singleton _, ?_⟩
      intro p hp r hr same
      rw [List.mem_singleton.mp hr] at same
      exact Nat.lt_irrefl _ (same ▸ (stock.queued h' p hp).2.1)
    · rw [Function.update_of_ne here]
      exact stock.distinct h'
  allocated p hp := Nat.lt_succ_of_lt (stock.allocated p hp)

theorem Stock.stocked (stock : Stock s used) (h : Nat) : Stock (s.stocked h) used :=
  stocked_invariant (P := fun s => Stock s used) h (fun _ stock => stock.createQueued h) stock

end Refill

/-- Taking the first node of a queue into use. -/
theorem Stock.taken {rest : List Nat} (stock : Stock s used) (queue : s.nodeQueues h = p :: rest) :
    Stock { s with nodeQueues := Function.update s.nodeQueues h rest } fun q => used q ∨ q = p where
  queued h' q hq := by
    have nodup := stock.distinct h
    rw [queue] at nodup
    obtain ⟨height, allocated, -⟩ := stock.queued h p (queue ▸ List.mem_cons_self)
    by_cases here : h' = h
    · subst here
      simp only [Function.update_self] at hq
      obtain ⟨height, allocated, free⟩ := stock.queued h' q (queue ▸ List.mem_cons_of_mem _ hq)
      refine ⟨height, allocated, not_or.mpr ⟨free, ?_⟩⟩
      exact ne_of_mem_of_not_mem hq (List.nodup_cons.mp nodup).1
    · simp only [Function.update_of_ne here] at hq
      obtain ⟨height', allocated, free⟩ := stock.queued h' q hq
      refine ⟨height', allocated, not_or.mpr ⟨free, ?_⟩⟩
      rintro rfl
      exact here (height'.symm.trans height)
  distinct h' := by
    by_cases here : h' = h
    · subst here
      have nodup := stock.distinct h'
      rw [queue] at nodup
      simp only [Function.update_self]
      exact (List.nodup_cons.mp nodup).2
    · simp only [Function.update_of_ne here]
      exact stock.distinct h'
  allocated q hq := by
    rcases hq with hq | rfl
    · exact stock.allocated q hq
    · exact (stock.queued h q (queue ▸ List.mem_cons_self)).2.1

/-- Giving a node back. -/
theorem Stock.enqueue [Inhabited T] (stock : Stock s used) (height : (s.memory p).height = h)
    (inUse : used p) : Stock (s.enqueue h p) fun q => used q ∧ q ≠ p where
  queued h' q hq := by
    by_cases here : h' = h
    · subst here
      simp only [ConcurrentSkipList.enqueue, Function.update_self] at hq
      rcases List.mem_append.mp hq with hq | hq
      · obtain ⟨height, allocated, free⟩ := stock.queued h' q hq
        exact ⟨height, allocated, fun both => free both.1⟩
      · obtain rfl := List.mem_singleton.mp hq
        exact ⟨height, stock.allocated q inUse, fun both => both.2 rfl⟩
    · simp only [ConcurrentSkipList.enqueue, Function.update_of_ne here] at hq
      obtain ⟨height, allocated, free⟩ := stock.queued h' q hq
      exact ⟨height, allocated, fun both => free both.1⟩
  distinct h' := by
    by_cases here : h' = h
    · subst here
      simp only [ConcurrentSkipList.enqueue, Function.update_self]
      refine List.nodup_append.mpr ⟨stock.distinct h', List.nodup_singleton _, ?_⟩
      intro q hq r hr same
      rw [List.mem_singleton.mp hr] at same
      exact (stock.queued h' q hq).2.2 (same ▸ inUse)
    · simp only [ConcurrentSkipList.enqueue, Function.update_of_ne here]
      exact stock.distinct h'
  allocated q hq := stock.allocated q hq.1

/-- The effect of `pop` on the memory. -/
structure Popped [Inhabited T] (h : Nat) (isHead : Bool) (s s' : ConcurrentSkipList T) (p : Nat) :
    Prop where
  head : s'.head = s.head
  size : s'.size = s.size
  grows : s.nextAddress ≤ s'.nextAddress
  other : ∀ q ≠ p, s'.memory q = s.memory q ∨ s.nextAddress ≤ q ∧ s'.memory q = .create h default
  node : ∃ n, (n = s.memory p ∧ (s.nodeQueues h).head? = some p ∨
      s.nextAddress ≤ p ∧ n = .create h default) ∧
    s'.memory p = { n with isHead := isHead, marked := false, fullyLinked := false }
  queue : ∀ q rest, s.nodeQueues h = q :: rest → p = q ∧ s'.nodeQueues = Function.update s.nodeQueues h rest

variable [Inhabited T]

theorem pop_small {isHead : Bool} {out : ConcurrentSkipList T × Nat} (pops : s.pop h isHead = some out) :
    h < queueCount := by
  unfold pop at pops
  split at pops
  · assumption
  · cases pops

/-- **`pop` returns a node of the height that is not in use.** -/
theorem pop_spec (stock : Stock s used) (small : h < queueCount) (isHead : Bool) :
    ∃ s' p, s.pop h isHead = some (s', p) ∧ Popped h isHead s s' p ∧ ¬ used p ∧
      (s'.memory p).height = h ∧ Stock s' fun q => used q ∨ q = p := by
  have stock' := stock.stocked h
  obtain ⟨grows, memory⟩ := stocked_memory h s
  cases queue : (s.stocked h).nodeQueues h with
  | nil => exact absurd queue (stocked_nonempty h s)
  | cons p rest =>
      obtain ⟨height, allocated, free⟩ := stock'.queued h p (queue ▸ List.mem_cons_self)
      let s₁ := { s.stocked h with nodeQueues := Function.update (s.stocked h).nodeQueues h rest }
      let clear : SkipListNode T → SkipListNode T := fun n =>
        { n with isHead := isHead, marked := false, fullyLinked := false }
      have heights : ∀ q, ((s₁.modify p clear).memory q).height = ((s.stocked h).memory q).height :=
        modify_keeps p clear s₁ SkipListNode.height rfl
      refine ⟨s₁.modify p clear, p, ?_, ?_, free, (heights p).trans height,
        (stock'.taken queue).modify p rfl⟩
      · simp only [pop, if_pos small, dequeue, queue]
        rfl
      · refine ⟨stocked_head h s, stocked_size h s, grows, ?_,
          ⟨(s.stocked h).memory p, ?_, modify_self p clear s₁⟩, ?_⟩
        · intro q other
          rw [modify_of_ne p clear s₁ other]
          exact memory q
        · by_cases empty : s.nodeQueues h = []
          · exact .inr (stocked_new empty p (queue ▸ List.mem_cons_self))
          · have same : s.stocked h = s := if_neg empty
            rw [same] at queue ⊢
            exact .inl ⟨rfl, by rw [queue, List.head?_cons]⟩
        · intro q rest' queue'
          have same : s.stocked h = s := if_neg (by rw [queue']; exact List.cons_ne_nil _ _)
          rw [same] at queue
          obtain ⟨rfl, rfl⟩ := List.cons.inj (queue.symm.trans queue')
          refine ⟨rfl, ?_⟩
          show Function.update (s.stocked h).nodeQueues h rest = _
          rw [same]

/-- A node that was there before, other than the one popped, is untouched. -/
theorem Popped.old {isHead : Bool} {s' : ConcurrentSkipList T} (popped : Popped h isHead s s' p) {q : Nat}
    (allocated : q < s.nextAddress) (other : q ≠ p) : s'.memory q = s.memory q :=
  (popped.other q other).resolve_right fun new => Nat.not_le_of_lt allocated new.1

/-- A part of the nodes that a new node has as `create` sets it, and `pop` does not touch. -/
theorem Popped.part {isHead : Bool} {s' : ConcurrentSkipList T} (popped : Popped h isHead s s' p)
    {A : Type} (part : SkipListNode T → A)
    (keeps : ∀ n : SkipListNode T,
      part { n with isHead := isHead, marked := false, fullyLinked := false } = part n) (q : Nat) :
    part (s'.memory q) = part (s.memory q) ∨
      s.nextAddress ≤ q ∧ part (s'.memory q) = part (.create h default) := by
  by_cases here : q = p
  · subst here
    obtain ⟨n, made, memory⟩ := popped.node
    rw [memory, keeps]
    rcases made with ⟨rfl, -⟩ | ⟨new, rfl⟩
    · exact .inl rfl
    · exact .inr ⟨new, rfl⟩
  · rcases popped.other q here with same | ⟨new, same⟩
    · exact .inl (by rw [same])
    · exact .inr ⟨new, by rw [same]⟩

/-- The layers do not notice a `pop`. -/
theorem Layers.popped {isHead : Bool} {s' : ConcurrentSkipList T} (layers : Layers lt s xs lh)
    (popped : Popped h isHead s s' p) (outside : p ∉ s.head :: xs)
    (allocated : s.head < s.nextAddress) : Layers lt s' xs lh := by
  have keeps : ∀ q ∈ s.head :: xs, s'.memory q = s.memory q := by
    intro q hq
    refine popped.old ?_ (ne_of_mem_of_not_mem hq outside)
    rcases List.mem_cons.mp hq with rfl | hq
    · exact allocated
    · exact layers.allocated q hq
  refine layers.congr popped.head (fun q hq => by rw [keeps q hq])
    (fun q hq l => congrArg (fun n => n.skip l) (keeps q hq))
    (fun q hq => congrArg SkipListNode.data (keeps q (List.mem_cons_of_mem _ hq))) popped.grows ?_
  intro q above l
  rcases popped.part (fun n => (n.height, n.skip)) (fun _ => rfl) q with same | ⟨-, new⟩
  · obtain ⟨height, skip⟩ := Prod.mk.inj same
    rw [height] at above
    exact (congrFun skip l).trans (layers.clean q above l)
  · exact congrFun (Prod.mk.inj new).2 l

end Hcl.ConcurrentSkipList
