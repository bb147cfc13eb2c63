import Hcl.SkipList.Loops

/-!
The skip list between the operations of one thread, and what each operation does to it.

`Quiet lt maxHeight s xs` is the invariant: the layers are complete, no node of the list is
marked, no guard is taken, the recycler holds none of the nodes of the list, and the size
is the length of the list. Each operation is described by the list before and after it.
-/

namespace Hcl.ConcurrentSkipList

open Hcl.Lib

variable {T : Type} {lt : T → T → Prop} {maxHeight : Nat} {s : ConcurrentSkipList T} {xs : List Nat}
  {x : T}

/-- The skip list at rest. -/
structure Quiet (lt : T → T → Prop) (maxHeight : Nat) (s : ConcurrentSkipList T) (xs : List Nat) :
    Prop where
  layers : Layers lt s xs fun p => (s.memory p).height
  stock : Stock s fun p => p ∈ s.head :: xs
  unmarked : ∀ p ∈ s.head :: xs, (s.memory p).marked = false
  full : ∀ p ∈ xs, (s.memory p).fullyLinked = true
  unlocked : ∀ p, (s.memory p).locked = false
  size : s.size = xs.length
  top : s.height ≤ maxHeight

/-! ### Reading -/

section Reading

variable (h : Quiet lt maxHeight s xs)
include h

theorem Quiet.first : first s = some xs.head? := by
  rw [ConcurrentSkipList.first, skip_eq h.layers.positive]
  exact congrArg some h.layers.bottom.2.start

theorem Quiet.skipMarked {p : Option Nat} (unmarked : ∀ q, p = some q → q ∈ xs) (fuel : Nat) :
    skipMarked s fuel p = some p := by
  cases p with
  | none => cases fuel <;> rfl
  | some q =>
      have clear := h.unmarked q (List.mem_cons_of_mem _ (unmarked q rfl))
      cases fuel <;> simp [ConcurrentSkipList.skipMarked, clear]

/-- `next` on a node of the list, or on the head. -/
theorem Quiet.next {before after : List Nat} {p : Nat} (split : s.head :: xs = before ++ p :: after) :
    s.next p = some after.head? := by
  have chain := h.layers.bottom
  rw [split] at chain
  have mem : p ∈ s.head :: xs := split ▸ List.mem_append_right _ List.mem_cons_self
  have inside : 0 < (s.memory p).height := by
    refine h.layers.inside h.layers.positive ?_
    rwa [h.layers.layer_zero]
  have link : (s.memory p).skip 0 = after.head? := chain.from_mem.start
  have inList : ∀ q, after.head? = some q → q ∈ xs := by
    intro q first
    exact mem_of_append split (List.mem_of_mem_head? first)
  simp only [ConcurrentSkipList.next, skip_eq inside, link, Option.bind_eq_bind, Option.bind_some,
    h.skipMarked inList]

theorem Quiet.iterateFrom {before after : List Nat} (split : s.head :: xs = before ++ after)
    {fuel : Nat} (enough : after.length ≤ fuel) : iterateFrom s fuel after.head? = some after := by
  induction after generalizing before fuel with
  | nil => cases fuel <;> rfl
  | cons p after ih =>
      cases fuel with
      | zero => exact nomatch enough
      | succ fuel =>
          have rest := ih (by simp [split] : s.head :: xs = (before ++ [p]) ++ after)
            (Nat.le_of_succ_le_succ enough)
          simp only [List.head?_cons, ConcurrentSkipList.iterateFrom, h.next split, Option.bind_eq_bind,
            Option.bind_some, rest]

/-- **Iteration passes every node of the list.** -/
theorem Quiet.iterate : iterate s = some xs := by
  have short := h.layers.length_le h.layers.bottom.2 (List.Subset.refl xs)
  have rest : s.iterateFrom s.nextAddress xs.head? = some xs := 
    h.iterateFrom (show s.head :: xs = [s.head] ++ xs from rfl) short
  have start := h.next (show s.head :: xs = [] ++ s.head :: xs from rfl)
  simp only [ConcurrentSkipList.iterate, start, Option.bind_eq_bind, Option.bind_some, rest]

theorem Quiet.lowerBound [DecidableRel lt] [IsStrictWeakOrder T lt] (x : T) :
    lowerBound lt s x = some (onward lt s.keyOf x xs).head? := by
  obtain ⟨found, search, -⟩ := h.layers.findNode x
  have inList : ∀ q, (onward lt s.keyOf x xs).head? = some q → q ∈ xs := fun q first =>
    (mem_onward.mp (List.mem_of_mem_head? first)).1
  simp only [ConcurrentSkipList.lowerBound, search, Option.bind_eq_bind, Option.bind_some,
    h.skipMarked inList]

end Reading

/-! ### The empty list -/

/-- **A new list is empty.** -/
theorem new_spec [Inhabited T] (lt : T → T → Prop) {initialHeight : Nat} (positive : 0 < initialHeight)
    (low : initialHeight ≤ maxHeight) (small : maxHeight < queueCount) :
    ∃ s : ConcurrentSkipList T, new initialHeight = some s ∧ Quiet lt maxHeight s [] := by
  have stock : Stock (⟨fun _ => .create 0 default, 0, fun _ => [], 0, 0⟩ : ConcurrentSkipList T)
      fun _ => False := ⟨by simp, by simp, by simp⟩
  obtain ⟨s, head, pops, popped, -, height, stock'⟩ :=
    pop_spec stock (by omega : initialHeight < queueCount) true
  have blank : ∀ p, (s.memory p).skip = fun _ => none := fun p => by
    rcases popped.part SkipListNode.skip (fun _ => rfl) p with same | ⟨-, new⟩
    · exact same
    · exact new
  refine ⟨{ s with head := head }, ?_, ?_, ?_, ?_, ?_, ?_, popped.size, ?_⟩
  · simp only [new, pops, Option.bind_eq_bind, Option.bind_some]
  · refine ⟨⟨⟨fun l _ => ⟨rfl, ?_⟩⟩, ?_, List.Pairwise.nil, by simp, by simp⟩, ?_⟩
    · exact congrFun (blank head) l
    · show 0 < (s.memory head).height
      omega
    · exact fun p _ l => congrFun (blank p) l
  · exact stock'.congr rfl rfl (fun _ => rfl) fun p => by simp
  · intro p hp
    obtain rfl := List.mem_singleton.mp hp
    obtain ⟨n, -, cleared⟩ := popped.node
    show (s.memory p).marked = false
    rw [cleared]
  · simp
  · intro p
    rcases popped.part SkipListNode.locked (fun _ => rfl) p with same | ⟨-, new⟩
    · exact same
    · exact new
  · show (s.memory head).height ≤ maxHeight
    omega

/-- The head of a new list has its height, and the flags are as the constructor of the nodes
made them. -/
theorem new_flags [Inhabited T] {initialHeight : Nat} (made : new initialHeight = some s) :
    s.height = initialHeight ∧ ∀ p, (s.memory p).marked = false ∧ (s.memory p).fullyLinked = false := by
  obtain ⟨⟨s₁, head⟩, pops, made⟩ := Option.bind_eq_some_iff.mp made
  obtain rfl := Option.some.inj made
  have stock : Stock (⟨fun _ => .create 0 default, 0, fun _ => [], 0, 0⟩ : ConcurrentSkipList T)
      fun _ => False := ⟨by simp, by simp, by simp⟩
  obtain ⟨s₂, head₂, pops₂, popped, -, height, -⟩ := pop_spec stock (pop_small pops) true
  obtain ⟨rfl, rfl⟩ := Prod.mk.inj (Option.some.inj (pops.symm.trans pops₂))
  refine ⟨height, ?_⟩
  intro p
  show (s₁.memory p).marked = false ∧ (s₁.memory p).fullyLinked = false
  by_cases here : p = head
  · obtain ⟨n, -, node⟩ := popped.node
    rw [here, node]
    exact ⟨rfl, rfl⟩
  · rcases popped.other p here with same | ⟨-, same⟩ <;> rw [same] <;> exact ⟨rfl, rfl⟩

/-! ### Growing -/

section Grow

variable [Inhabited T]

/-- What `exchangeHead` writes when the old head is still the head. -/
theorem exchangeHead_eq (newHead : Nat) (other : newHead ≠ s.head) :
    ∃ s', s.exchangeHead newHead s.head = (s', true) ∧ s'.head = newHead ∧
      s'.nextAddress = s.nextAddress ∧ s'.nodeQueues = s.nodeQueues ∧ s'.size = s.size ∧
      s'.memory s.head = { s.memory s.head with marked := true, locked := false } ∧
      s'.memory newHead = (s.copyHead newHead s.head).memory newHead ∧
      ∀ q, q ≠ s.head → q ≠ newHead → s'.memory q = s.memory q := by
  refine ⟨_, if_pos rfl, rfl, rfl, rfl, rfl, ?_, ?_, ?_⟩
  · rw [releaseGuard, modify_self, setMarkedForRemoval, modify_self]
    show { (s.copyHead newHead s.head).memory s.head with marked := true, locked := false } = _
    rw [copyHead, modify_of_ne newHead _ s other.symm]
  · rw [releaseGuard, modify_of_ne _ _ _ other, setMarkedForRemoval, modify_of_ne _ _ _ other]
  · intro q old new
    rw [releaseGuard, modify_of_ne _ _ _ old, setMarkedForRemoval, modify_of_ne _ _ _ old]
    show (s.copyHead newHead s.head).memory q = _
    exact modify_of_ne newHead _ s new

/-- The layers behind the new head. -/
theorem Layers.exchangeHead {lh : Nat → Nat} {newHead : Nat} (h : Layers lt s xs lh)
    (outside : newHead ∉ s.head :: xs) (higher : s.height < (s.memory newHead).height) :
    Layers lt (s.exchangeHead newHead s.head).1 xs lh := by
  have exchanged := h.exchange (fun mem => outside (List.mem_cons_of_mem _ mem)) higher
  have same : (s.exchangeHead newHead s.head).1 =
      (({ s.copyHead newHead s.head with head := newHead }).setMarkedForRemoval s.head).releaseGuard
        s.head := congrArg Prod.fst (if_pos rfl)
  rw [same]
  exact (exchanged.modify s.head rfl rfl rfl).modify s.head rfl rfl rfl

/-- **`growHeight`** replaces the head and recycles the old one. -/
theorem Quiet.growHeight (h : Quiet lt maxHeight s xs) (small : maxHeight < queueCount)
    (room : s.height < maxHeight) :
    ∃ s', s.growHeight (s.height + 1) = some s' ∧ Quiet lt maxHeight s' xs ∧
      (∀ p ∈ xs, s'.memory p = s.memory p) ∧ s'.height = s.height + 1 := by
  obtain ⟨s₁, newHead, pops, popped, unused, height, stock⟩ :=
    pop_spec h.stock (by omega : s.height + 1 < queueCount) true
  have headUsed : s.head < s.nextAddress := h.stock.allocated _ List.mem_cons_self
  have other : newHead ≠ s.head := fun same => unused (same ▸ List.mem_cons_self)
  have oldHead : s₁.memory s.head = s.memory s.head := popped.old headUsed other.symm
  have inList : ∀ p ∈ xs, s₁.memory p = s.memory p := fun p hp =>
    popped.old (h.layers.allocated p hp) fun same => unused (same ▸ List.mem_cons_of_mem _ hp)
  have layers₁ := h.layers.popped popped unused headUsed
  -- The guard of the old head is free.
  let s₂ := s₁.modify s.head fun n => { n with locked := true }
  have guards : s₁.acquireGuard s.head = some s₂ := by
    simp [acquireGuard, oldHead, h.unlocked, s₂]
  have layers₂ : Layers lt s₂ xs fun p => (s.memory p).height := layers₁.modify s.head rfl rfl rfl
  have head₂ : s₂.head = s.head := popped.head
  have top₂ : s₂.height = s.height := by
    show (s₂.memory s₂.head).height = _
    rw [head₂, modify_self, oldHead]
    rfl
  have new₂ : s₂.memory newHead = s₁.memory newHead := modify_of_ne _ _ _ other
  obtain ⟨s₃, exchanges, head, next, queues, size, atOld, atNew, elsewhere⟩ :=
    exchangeHead_eq (s := s₂) newHead (by rwa [head₂])
  have outside : newHead ∉ s₂.head :: xs := by rwa [head₂]
  have layers₃ := layers₂.exchangeHead outside (by rw [top₂, new₂]; omega)
  rw [exchanges] at layers₃
  rw [head₂] at exchanges atOld atNew elsewhere
  rw [modify_self, oldHead] at atOld
  have inList₃ : ∀ p ∈ xs, s₃.memory p = s.memory p := fun p hp => by
    have old : p ≠ s.head := ne_of_mem_of_not_mem hp h.layers.nodup.1
    rw [elsewhere p old fun same => unused (same ▸ List.mem_cons_of_mem _ hp), modify_of_ne _ _ _ old,
      inList p hp]
  have pushes : s₃.push (s₃.memory s.head).height s.head = some (s₃.enqueue s.height s.head) := by
    rw [atOld]
    exact if_pos (by omega : s.height < queueCount)
  have high : (s₃.memory s₃.head).height = s.height + 1 := by
    rw [head, atNew, copyHead, modify_self, new₂, height]
  refine ⟨s₃.enqueue s.height s.head, ?_, ?_, inList₃, high⟩
  · have grows : ¬ s.height + 1 ≤ (s.memory s.head).height := Nat.not_succ_le_self _
    simp only [ConcurrentSkipList.growHeight, if_neg grows, pops, guards, exchanges, pushes,
      Option.bind_eq_bind, Option.bind_some, if_true]
  · have stock₃ : Stock s₃ fun q => q ∈ s.head :: xs ∨ q = newHead := by
      refine (stock.modify s.head rfl).congr queues next ?_ fun _ => Iff.rfl
      intro q
      by_cases old : q = s.head
      · rw [old, atOld, modify_self, oldHead]
      · by_cases new : q = newHead
        · rw [new, atNew, copyHead, modify_self]
        · rw [elsewhere q old new]
    have height₃ : (s₃.memory s.head).height = s.height := by rw [atOld]; rfl
    have stock₄ := stock₃.enqueue height₃ (.inl List.mem_cons_self)
    refine ⟨?_, ?_, ?_, ?_, ?_, ?_, ?_⟩
    · have layers₄ : Layers lt (s₃.enqueue s.height s.head) xs fun p => (s.memory p).height :=
        layers₃.of_memory rfl rfl (Nat.le_refl _)
      exact layers₄.congr_height fun p hp => congrArg SkipListNode.height (inList₃ p hp)
    · apply stock₄.congr rfl rfl (fun _ => rfl)
      intro q
      show q ∈ s₃.head :: xs ↔ _
      rw [head, List.mem_cons, List.mem_cons]
      constructor
      · rintro (rfl | hq)
        · exact ⟨.inr rfl, other⟩
        · exact ⟨.inl (.inr hq), ne_of_mem_of_not_mem hq h.layers.nodup.1⟩
      · rintro ⟨(same | hq) | same, old⟩
        · exact absurd same old
        · exact .inr hq
        · exact .inl same
    · intro p hp
      change p ∈ s₃.head :: xs at hp
      rw [head] at hp
      rcases List.mem_cons.mp hp with rfl | hp
      · show (s₃.memory p).marked = false
        rw [atNew, copyHead, modify_self, modify_self, oldHead]
        exact h.unmarked _ List.mem_cons_self
      · exact (congrArg SkipListNode.marked (inList₃ p hp)).trans (h.unmarked p (List.mem_cons_of_mem _ hp))
    · exact fun p hp => (congrArg SkipListNode.fullyLinked (inList₃ p hp)).trans (h.full p hp)
    · have unlocked₁ : ∀ p, (s₁.memory p).locked = false := fun p => by
        rcases popped.part SkipListNode.locked (fun _ => rfl) p with same | ⟨-, new⟩
        · exact same.trans (h.unlocked p)
        · exact new
      intro p
      show (s₃.memory p).locked = false
      by_cases old : p = s.head
      · rw [old, atOld]
      · by_cases new : p = newHead
        · rw [new, atNew, copyHead, modify_self, new₂]
          exact unlocked₁ newHead
        · rw [elsewhere p old new, modify_of_ne _ _ _ old]
          exact unlocked₁ p
    · exact size.trans (popped.size.trans h.size)
    · show (s₃.memory s₃.head).height ≤ maxHeight
      rw [high]
      exact room

theorem Quiet.growIfOver (h : Quiet lt maxHeight s xs) (small : maxHeight < queueCount)
    (sizeLimit : Nat → Nat) (newSize : Nat) :
    ∃ s', s.growIfOver maxHeight sizeLimit newSize = some s' ∧ Quiet lt maxHeight s' xs ∧
      (∀ p ∈ xs, s'.memory p = s.memory p) ∧ s.height ≤ s'.height := by
  unfold ConcurrentSkipList.growIfOver
  split
  · rename_i exceeds
    obtain ⟨s', grows, quiet, kept, high⟩ := h.growHeight small exceeds.1
    exact ⟨s', grows, quiet, kept, by omega⟩
  · exact ⟨s, rfl, h, fun _ _ => rfl, Nat.le_refl _⟩

end Grow

/-! ### Insertion -/

theorem getHeight_bounds (draw : Nat → Bool) {m : Nat} (positive : 0 < m) :
    0 < getHeight draw m ∧ getHeight draw m ≤ m := by
  unfold getHeight
  split
  · rename_i i found
    have := List.mem_range.mp (List.mem_of_find?_eq_some found)
    omega
  · exact ⟨positive, Nat.le_refl _⟩

variable [DecidableRel lt] [IsStrictWeakOrder T lt]

/-- A new node in its place. -/
def insertNode (lt : T → T → Prop) [DecidableRel lt] (s : ConcurrentSkipList T) (x : T) (node : Nat)
    (xs : List Nat) : List Nat :=
  under lt s.keyOf x xs ++ node :: onward lt s.keyOf x xs

theorem mem_insertNode (ascending : Ascending lt s.keyOf xs) {node p : Nat} :
    p ∈ insertNode lt s x node xs ↔ p = node ∨ p ∈ xs := by
  have cut := under_append_onward ascending x
  constructor
  · intro hp
    rcases List.mem_append.mp hp with hp | hp
    · exact .inr (cut ▸ List.mem_append_left _ hp)
    · rcases List.mem_cons.mp hp with rfl | hp
      · exact .inl rfl
      · exact .inr (cut ▸ List.mem_append_right _ hp)
  · rintro (rfl | hp)
    · exact List.mem_append_right _ List.mem_cons_self
    · rw [← cut] at hp
      rcases List.mem_append.mp hp with hp | hp
      · exact List.mem_append_left _ hp
      · exact List.mem_append_right _ (List.mem_cons_of_mem _ hp)

theorem length_insertNode (ascending : Ascending lt s.keyOf xs) (x : T) (node : Nat) :
    (insertNode lt s x node xs).length = xs.length + 1 := by
  conv_rhs => rw [← under_append_onward ascending x]
  simp only [insertNode, List.length_append, List.length_cons]
  omega

variable [Inhabited T]

/-- A new node is linked in all its layers; the guards are still held. -/
structure Inserted (lt : T → T → Prop) [DecidableRel lt] (s : ConcurrentSkipList T) (xs : List Nat)
    (x : T) (guards : List Nat) (height node : Nat) (s' : ConcurrentSkipList T) : Prop where
  head : s'.head = s.head
  size : s'.size = s.size
  outside : node ∉ s.head :: xs
  layers : Layers lt s' (insertNode lt s x node xs)
    (Function.update (fun p => (s.memory p).height) node height)
  stock : Stock s' fun p => p ∈ s.head :: xs ∨ p = node
  cores : ∀ p ∈ s.head :: xs, core (s'.memory p) = core (s.memory p)
  queue : ∀ q rest, s.nodeQueues height = q :: rest →
    node = q ∧ s'.nodeQueues = Function.update s.nodeQueues height rest
  node : core (s'.memory node) = (false, false, height, x)
  locked : ∀ p, (s'.memory p).locked = true → p ∈ guards

/-- **Under the guards, `addOrGetData` links a new node with the data.** -/
theorem Quiet.link (h : Quiet lt maxHeight s xs) (small : maxHeight < queueCount)
    {point : InsertionPoint} (r : Recorded lt s xs (fun p => (s.memory p).height) x 0 point)
    (absent : ∀ q ∈ xs, ¬ IncompRel lt (s.keyOf q) x) (guards : List Nat) {height : Nat}
    (positive : 0 < height) (low : height ≤ s.height) :
    ∃ s₁ node s₂, (s.withGuards guards).pop height false = some (s₁, node) ∧
      linkLayers point node height 0 (s₁.storeData node x) = some s₂ ∧
      Inserted lt s xs x guards height node s₂ := by
  have top := h.top
  have headUsed : s.head < s.nextAddress := h.stock.allocated _ List.mem_cons_self
  obtain ⟨s₁, node, pops, popped, unused, high, stock⟩ :=
    pop_spec (h.stock.withLocks fun p => decide (p ∈ guards)) (by omega : height < queueCount) false
  have outside : node ∉ s.head :: xs := unused
  obtain ⟨outHead, outList⟩ := not_or.mp (mt List.mem_cons.mpr outside)
  have layers₁ : Layers lt s₁ xs fun p => (s.memory p).height :=
    (h.layers.withLocks fun p => decide (p ∈ guards)).popped popped outside headUsed
  have head₁ : s₁.head = s.head := popped.head
  have allocated : node < s₁.nextAddress := stock.allocated node (.inr rfl)
  have old₁ : ∀ p ∈ s.head :: xs, s₁.memory p = (s.withGuards guards).memory p := fun p hp =>
    popped.old (h.stock.allocated p hp) (ne_of_mem_of_not_mem hp outside)
  have height₁ : s₁.height = s.height := by
    show (s₁.memory s₁.head).height = _
    rw [head₁, old₁ _ List.mem_cons_self]
    rfl
  -- The data is stored while the node is still outside the list.
  let s₂ := s₁.storeData node x
  have key₂ : s₂.keyOf node = x := congrArg SkipListNode.data (modify_self node _ s₁)
  have old₂ : ∀ p ∈ s.head :: xs, s₂.memory p = (s.withGuards guards).memory p := fun p hp =>
    (modify_of_ne node _ s₁ (ne_of_mem_of_not_mem hp outside)).trans (old₁ p hp)
  have cores₂ : ∀ p ∈ s.head :: xs, core (s₂.memory p) = core (s.memory p) := fun p hp => by
    rw [old₂ p hp]
    rfl
  have keys₂ : ∀ p ∈ xs, s₂.keyOf p = s.keyOf p := fun p hp =>
    (core_eq (cores₂ p (List.mem_cons_of_mem _ hp))).2.2.2
  have high₂ : (s₂.memory node).height = height :=
    (modify_keeps node _ s₁ SkipListNode.height rfl node).trans high
  have outside₁ : node ∉ s₁.head :: xs := by rwa [head₁]
  have layers₂ : Layers lt s₂ xs fun p => (s.memory p).height :=
    layers₁.modify_outside outside₁ (by rw [height₁]; exact high.trans_le low)
  have height₂ : s₂.height = s.height := (modify_keeps node _ s₁ SkipListNode.height rfl _).trans height₁
  have gaps : ∀ l < height, ∃ p, point.preds l = some p ∧
      Adjacent lt s₂ xs (fun p => (s.memory p).height) (s₂.keyOf node) l p (point.succs l) := by
    intro l below
    obtain ⟨p, pred, gap⟩ := r.adjacent h.layers (by omega : l < s.height)
    have inList : p ∈ s.head :: xs := by
      rcases gap.pred with rfl | ⟨hp, -⟩
      · exact List.mem_cons_self
      · exact List.mem_cons_of_mem _ hp
    refine ⟨p, pred, ?_⟩
    rw [key₂]
    refine gap.congr head₁ ?_ (fun hp linked _ => ⟨hp, linked⟩)
      (congrArg (fun n => n.skip l) (old₂ p inList))
    intro q which
    rcases which with rfl | first
    · exact (core_eq (cores₂ q inList)).2.2.2
    · exact keys₂ q (r.succ_mem (by omega) first)
  have distinct : ∀ p ∈ xs, ¬ IncompRel lt (s₂.keyOf p) (s₂.keyOf node) := by
    intro p hp
    rw [keys₂ p hp, key₂]
    exact absent p hp
  obtain ⟨s₃, links, same, layers₃⟩ := linkLayers_spec layers₂ outside₁ allocated high₂ positive
    (by rw [height₂]; exact low) distinct gaps
  have place : under lt s₂.keyOf (s₂.keyOf node) xs ++ node :: onward lt s₂.keyOf (s₂.keyOf node) xs =
      insertNode lt s x node xs := by
    have unders : under lt s₂.keyOf x xs = under lt s.keyOf x xs :=
      List.filter_congr fun p hp => by rw [keys₂ p hp]
    have overs : onward lt s₂.keyOf x xs = onward lt s.keyOf x xs :=
      List.filter_congr fun p hp => by rw [keys₂ p hp]
    rw [key₂, unders, overs, insertNode]
  rw [place] at layers₃
  refine ⟨s₁, node, s₃, pops, links, same.head.trans head₁, same.size.trans popped.size, outside, layers₃,
    ?_, ?_, ?_, ?_, ?_⟩
  · exact (stock.modify node rfl).congr same.nodeQueues same.nextAddress same.height fun _ => Iff.rfl
  · intro p hp
    rw [same.part core (fun _ _ => rfl), cores₂ p hp]
  · intro q rest first
    obtain ⟨taken, queues⟩ := popped.queue q rest first
    exact ⟨taken, same.nodeQueues.trans queues⟩
  · obtain ⟨n, -, cleared⟩ := popped.node
    have unmarked : core (s₂.memory node) = (false, false, (s₁.memory node).height, x) := by
      show core ((s₁.storeData node x).memory node) = _
      rw [storeData, modify_self, core, cleared]
    rw [same.part core (fun _ _ => rfl), unmarked, high]
  · intro p held
    have locks : (s₃.memory p).locked = (s₁.memory p).locked := by
      rw [same.part SkipListNode.locked (fun _ _ => rfl)]
      exact modify_keeps node _ s₁ SkipListNode.locked rfl p
    rw [locks] at held
    rcases popped.part SkipListNode.locked (fun _ => rfl) p with same | ⟨-, new⟩
    · rw [same] at held
      exact of_decide_eq_true held
    · rw [new] at held
      cases held

omit [Inhabited T] in
/-- **Setting the flag, counting the node and releasing the guards ends the insertion.** -/
theorem Inserted.quiet {guards : List Nat} {height node : Nat} {s' : ConcurrentSkipList T}
    (h : Quiet lt maxHeight s xs) (i : Inserted lt s xs x guards height node s') :
    Quiet lt maxHeight ((s'.setFullyLinked node).sizeUp.releaseGuards guards)
      (insertNode lt s x node xs) := by
  have members : ∀ p, p ∈ insertNode lt s x node xs ↔ p = node ∨ p ∈ xs := fun p =>
    mem_insertNode h.layers.ascending
  have nodeMarked : (s'.memory node).marked = false := congrArg Prod.fst i.node
  have nodeHeight : (s'.memory node).height = height := congrArg (fun c => c.2.2.1) i.node
  have cores : ∀ p ∈ s.head :: xs, core ((s'.setFullyLinked node).memory p) = core (s.memory p) :=
    fun p hp => by
      rw [setFullyLinked, modify_of_ne node _ s' (ne_of_mem_of_not_mem hp i.outside), i.cores p hp]
  have heights : ∀ p, ((s'.setFullyLinked node).memory p).height = (s'.memory p).height :=
    modify_keeps node _ s' SkipListNode.height rfl
  rw [releaseGuards_eq]
  refine ⟨?_, ?_, ?_, ?_, ?_, ?_, ?_⟩
  · have layers : Layers lt (s'.setFullyLinked node).sizeUp (insertNode lt s x node xs) _ :=
      Layers.of_memory (s := s'.setFullyLinked node) (i.layers.modify node rfl rfl rfl) rfl rfl
        (Nat.le_refl _)
    apply (layers.withLocks _).congr_height
    intro p hp
    show ((s'.setFullyLinked node).memory p).height = _
    by_cases here : p = node
    · rw [here, Function.update_self, heights, nodeHeight]
    · rw [Function.update_of_ne here]
      exact (core_eq (cores p (List.mem_cons_of_mem _ (((members p).mp hp).resolve_left here)))).2.2.1
  · refine i.stock.congr rfl rfl heights ?_
    intro p
    show p ∈ s'.head :: insertNode lt s x node xs ↔ _
    rw [i.head, List.mem_cons, List.mem_cons, members, or_assoc, or_comm (a := p = node)]
  · intro p hp
    show ((s'.setFullyLinked node).memory p).marked = false
    by_cases here : p = node
    · rw [here, setFullyLinked, modify_self, nodeMarked]
    · have old : p ∈ s.head :: xs := by
        change p ∈ s'.head :: _ at hp
        rw [i.head, List.mem_cons, members] at hp
        exact List.mem_cons.mpr (hp.imp_right (Or.resolve_left · here))
      rw [(core_eq (cores p old)).1]
      exact h.unmarked p old
  · intro p hp
    show ((s'.setFullyLinked node).memory p).fullyLinked = true
    by_cases here : p = node
    · rw [here, setFullyLinked, modify_self]
    · have old := ((members p).mp hp).resolve_left here
      rw [(core_eq (cores p (List.mem_cons_of_mem _ old))).2.1]
      exact h.full p old
  · intro p
    show (((s'.setFullyLinked node).memory p).locked && decide (p ∉ guards)) = false
    have locks : ((s'.setFullyLinked node).memory p).locked = (s'.memory p).locked :=
      modify_keeps node _ s' SkipListNode.locked rfl p
    rw [locks]
    by_cases held : (s'.memory p).locked = true
    · simp [i.locked p held]
    · simp [held]
  · show s'.size + 1 = _
    rw [i.size, h.size, length_insertNode h.layers.ascending]
  · show ((s'.setFullyLinked node).memory s'.head).height ≤ maxHeight
    rw [i.head, (core_eq (cores _ List.mem_cons_self)).2.2.1]
    exact h.top

omit [Inhabited T] in
/-- A search for a key in the list finds its node on the highest layer of the node. -/
theorem Quiet.finds (h : Quiet lt maxHeight s xs) {q : Nat} (hq : q ∈ xs)
    (same : IncompRel lt (s.keyOf q) x) :
    ∃ point l, findInsertionPointGetMaxLayer lt s x = some point ∧
      Recorded lt s xs (fun p => (s.memory p).height) x 0 point ∧ point.foundLayer = some l ∧
      (s.memory q).height = l + 1 ∧ point.succs l = some q := by
  obtain ⟨point, search, r⟩ := h.layers.findInsertionPoint x
  cases found : point.foundLayer with
  | none => exact absurd same (r.absent h.layers found q hq)
  | some l =>
      obtain ⟨q', hq', same', highest, succ⟩ := r.present h.layers found
      obtain rfl := h.layers.ascending.unique hq hq' same same'
      exact ⟨point, l, search, r, found, highest, succ⟩

/-- **`addOrGetData` with an equivalent key in the list** returns its node. -/
theorem Quiet.add_present (h : Quiet lt maxHeight s xs) (sizeLimit : Nat → Nat) (fuel : Nat)
    (draws : Nat → Nat → Bool) {q : Nat} (hq : q ∈ xs) (same : IncompRel lt (s.keyOf q) x) :
    addOrGetData lt maxHeight sizeLimit x (fuel + 1) draws s = some (s, q, 0) := by
  obtain ⟨point, l, search, -, found, -, succ⟩ := h.finds hq same
  simp only [addOrGetData, search, found, succ, Option.bind_eq_bind, Option.bind_some,
    h.unmarked q (List.mem_cons_of_mem _ hq), h.full q hq, Bool.false_eq_true, if_false, if_true]

/-- **`addOrGetData` of a new key** links a node for it, the first of its queue, and then lets
the list grow. -/
theorem Quiet.adds (h : Quiet lt maxHeight s xs) (small : maxHeight < queueCount)
    (sizeLimit : Nat → Nat) (fuel : Nat) (draws : Nat → Nat → Bool)
    (absent : ∀ q ∈ xs, ¬ IncompRel lt (s.keyOf q) x) :
    ∃ s' node,
      (∀ s'', s'.growIfOver maxHeight sizeLimit (xs.length + 1) = some s'' →
        addOrGetData lt maxHeight sizeLimit x (fuel + 1) draws s = some (s'', node, xs.length + 1)) ∧
      Quiet lt maxHeight s' (insertNode lt s x node xs) ∧ node ∉ xs ∧ s'.height = s.height ∧
      (s'.memory node).height = getHeight (draws 0) s.height ∧ s'.keyOf node = x ∧
      (∀ p ∈ xs, s'.keyOf p = s.keyOf p ∧ (s'.memory p).height = (s.memory p).height) ∧
      ∀ q rest, s.nodeQueues (getHeight (draws 0) s.height) = q :: rest → node = q ∧
        s'.nodeQueues = Function.update s.nodeQueues (getHeight (draws 0) s.height) rest := by
  obtain ⟨point, search, r⟩ := h.layers.findInsertionPoint x
  have none_found : point.foundLayer = none := by
    cases found : point.foundLayer with
    | none => rfl
    | some l =>
        obtain ⟨q, hq, same, -⟩ := r.present h.layers found
        exact absurd same (absent q hq)
  obtain ⟨positive, low⟩ := getHeight_bounds (draws 0) h.layers.positive
  obtain ⟨guards, locks⟩ := h.layers.locks r true low h.unlocked (h.unmarked _ List.mem_cons_self)
    (fun p hp _ => h.unmarked p (List.mem_cons_of_mem _ hp))
    (fun _ p hp => h.unmarked p (List.mem_cons_of_mem _ hp))
  obtain ⟨s₁, node, s₂, pops, links, inserted⟩ := h.link small r absent guards positive low
  have size : ((s₂.setFullyLinked node).sizeUp).size = xs.length + 1 := by
    show s₂.size + 1 = _
    rw [inserted.size, h.size]
  have data : ∀ p, ((s₂.setFullyLinked node).memory p).data = (s₂.memory p).data :=
    modify_keeps node _ s₂ SkipListNode.data rfl
  have high : ∀ p, ((s₂.setFullyLinked node).memory p).height = (s₂.memory p).height :=
    modify_keeps node _ s₂ SkipListNode.height rfl
  refine ⟨(s₂.setFullyLinked node).sizeUp.releaseGuards guards, node, fun s'' grows => ?_, inserted.quiet h,
    fun hp => inserted.outside (List.mem_cons_of_mem _ hp), ?_, ?_, ?_, fun p hp => ?_, ?_⟩
  · simp only [addOrGetData, search, none_found, locks, pops, links, size, grows, Option.bind_eq_bind,
      Option.bind_some, if_true]
  all_goals rw [releaseGuards_eq]
  · show ((s₂.setFullyLinked node).memory s₂.head).height = _
    rw [high, inserted.head]
    exact (core_eq (inserted.cores _ List.mem_cons_self)).2.2.1
  · exact (high node).trans (congrArg (fun c => c.2.2.1) inserted.node)
  · exact (data node).trans (congrArg (fun c => c.2.2.2) inserted.node)
  · obtain ⟨-, -, sameHeight, sameData⟩ := core_eq (inserted.cores p (List.mem_cons_of_mem _ hp))
    exact ⟨(data p).trans sameData, (high p).trans sameHeight⟩
  · exact inserted.queue

/-- **`addOrGetData` of a new key.** -/
theorem Quiet.add_absent (h : Quiet lt maxHeight s xs) (small : maxHeight < queueCount)
    (sizeLimit : Nat → Nat) (fuel : Nat) (draws : Nat → Nat → Bool)
    (absent : ∀ q ∈ xs, ¬ IncompRel lt (s.keyOf q) x) :
    ∃ s' node, addOrGetData lt maxHeight sizeLimit x (fuel + 1) draws s =
        some (s', node, xs.length + 1) ∧
      Quiet lt maxHeight s' (insertNode lt s x node xs) ∧ node ∉ xs ∧ s'.keyOf node = x ∧
      ∀ p ∈ xs, s'.keyOf p = s.keyOf p := by
  obtain ⟨s₁, node, adds, quiet₁, outside, -, -, key, keys, -⟩ := h.adds small sizeLimit fuel draws absent
  obtain ⟨s₂, grows, quiet₂, kept, -⟩ := quiet₁.growIfOver small sizeLimit (xs.length + 1)
  have members : ∀ p, p ∈ insertNode lt s x node xs ↔ p = node ∨ p ∈ xs := fun p =>
    mem_insertNode h.layers.ascending
  refine ⟨s₂, node, adds s₂ grows, quiet₂, outside, ?_, ?_⟩
  · rw [keyOf, kept node ((members node).mpr (.inl rfl))]
    exact key
  · intro p hp
    rw [keyOf, kept p ((members p).mpr (.inr hp))]
    exact (keys p hp).1

/-! ### Removal -/

omit [Inhabited T] in
/-- `remove` of a key that is not in the list does nothing. -/
theorem Quiet.remove_absent (h : Quiet lt maxHeight s xs) (fuel : Nat)
    (absent : ∀ q ∈ xs, ¬ IncompRel lt (s.keyOf q) x) :
    removeFrom lt x (fuel + 1) none s = some (s, false) := by
  obtain ⟨point, search, r⟩ := h.layers.findInsertionPoint x
  cases found : point.foundLayer with
  | none =>
      simp only [removeFrom, search, markForRemoval, found, Option.bind_eq_bind, Option.bind_some]
  | some l =>
      obtain ⟨q, hq, same, -⟩ := r.present h.layers found
      exact absurd same (absent q hq)

omit [DecidableRel lt] [IsStrictWeakOrder T lt] [Inhabited T] in
/-- Marking the node that the search found. -/
theorem Quiet.marks (h : Quiet lt maxHeight s xs) {point : InsertionPoint} {l q : Nat} (hq : q ∈ xs)
    (found : point.foundLayer = some l) (succ : point.succs l = some q)
    (highest : (s.memory q).height = l + 1) :
    markForRemoval point s = some (s.setMarkedForRemoval q, some q) := by
  have ok : okToDelete s q l = true := by
    simp [okToDelete, h.full q hq, highest, h.unmarked q (List.mem_cons_of_mem _ hq)]
  have locked : (s.modify q fun n => { n with locked := true }).memory q =
      { s.memory q with locked := true } := modify_self ..
  simp only [markForRemoval, found, succ, ok, acquireGuard, h.unlocked q, locked,
    h.unmarked q (List.mem_cons_of_mem _ hq), Option.bind_eq_bind, Option.bind_some, Bool.not_true,
    Bool.false_eq_true, if_false]
  refine congrArg (fun s => some (s, some q)) (ConcurrentSkipList.ext (funext ?_) rfl rfl rfl rfl)
  intro p
  by_cases here : p = q
  · subst here
    simp [releaseGuard, setMarkedForRemoval, h.unlocked p]
  · simp only [releaseGuard, setMarkedForRemoval, modify_of_ne _ _ _ here]

/-- A node is unlinked from all its layers; the guards are still held. -/
structure Unlinked (lt : T → T → Prop) (s : ConcurrentSkipList T) (xs : List Nat) (guards : List Nat)
    (node : Nat) (s' : ConcurrentSkipList T) : Prop where
  head : s'.head = s.head
  size : s'.size = s.size
  layers : Layers lt s' (xs.erase node) fun p => (s.memory p).height
  stock : Stock s' fun p => p ∈ s.head :: xs
  cores : ∀ p ≠ node, core (s'.memory p) = core (s.memory p)
  height : (s'.memory node).height = (s.memory node).height
  locked : ∀ p, (s'.memory p).locked = true → p ∈ guards
  queues : s'.nodeQueues = s.nodeQueues

omit [Inhabited T] in
/-- **Under the guards, `remove` unlinks the node it marked.** -/
theorem Quiet.unlink (h : Quiet lt maxHeight s xs) {point : InsertionPoint}
    (r : Recorded lt s xs (fun p => (s.memory p).height) x 0 point) {q : Nat} (hq : q ∈ xs)
    (same : IncompRel lt (s.keyOf q) x) :
    ∃ guards s', lockNodesForChange point false (s.memory q).height 0 none [] (s.setMarkedForRemoval q) =
        some ((s.setMarkedForRemoval q).withGuards guards, guards, true) ∧
      unlinkLayers point q (s.memory q).height ((s.setMarkedForRemoval q).withGuards guards) = some s' ∧
      Unlinked lt s xs guards q s' := by
  obtain ⟨positive, -, low⟩ := h.layers.linked q hq
  have outHead : q ≠ s.head := ne_of_mem_of_not_mem hq h.layers.nodup.1
  have keep : ∀ p ≠ q, (s.setMarkedForRemoval q).memory p = s.memory p := fun p other =>
    modify_of_ne q _ s other
  have keys : (s.setMarkedForRemoval q).keyOf = s.keyOf :=
    funext (modify_keeps q _ s SkipListNode.data rfl)
  have top : (s.setMarkedForRemoval q).height = s.height := congrArg SkipListNode.height (keep _ outHead.symm)
  have layers₁ : Layers lt (s.setMarkedForRemoval q) xs fun p => (s.memory p).height :=
    h.layers.modify q rfl rfl rfl
  obtain ⟨guards, locks⟩ := layers₁.locks (r.congr keys rfl top) false (top.symm ▸ low)
    (fun p => (modify_keeps q _ s SkipListNode.locked rfl p).trans (h.unlocked p))
    (by rw [show (s.setMarkedForRemoval q).head = s.head from rfl, keep _ outHead.symm]
        exact h.unmarked _ List.mem_cons_self)
    (fun p hp below => by
      have other : p ≠ q := by
        rintro rfl
        rw [keys] at below
        exact same.1 below
      rw [keep p other]
      exact h.unmarked p (List.mem_cons_of_mem _ hp))
    (fun contra => nomatch contra)
  have layers₂ : Layers lt ((s.setMarkedForRemoval q).withGuards guards) xs fun p => (s.memory p).height :=
    layers₁.withLocks fun p => decide (p ∈ guards)
  have keys₂ : ((s.setMarkedForRemoval q).withGuards guards).keyOf = s.keyOf := keys
  have r₂ := r.congr keys₂ rfl top
  obtain ⟨k, height⟩ : ∃ k, (s.memory q).height = k + 1 := ⟨(s.memory q).height - 1, by omega⟩
  obtain ⟨s', unlinks, sameRest, layers₃⟩ := unlinkLayers_spec layers₂ hq height fun l below =>
    (r₂.adjacent_node layers₂ hq (by rwa [keys₂]) (by omega)).2
  rw [← height] at unlinks
  have heights : ∀ p, (s'.memory p).height = (s.memory p).height := fun p =>
    (sameRest.height p).trans (modify_keeps q _ s SkipListNode.height rfl p)
  refine ⟨guards, s', locks, unlinks, sameRest.head, sameRest.size, ?_, ?_, ?_, heights q,
    ?_, sameRest.nodeQueues⟩
  · apply layers₃.congr_height
    intro p hp
    have other : p ≠ q := fun eq => h.layers.nodup.2.not_mem_erase (eq ▸ hp)
    rw [Function.update_of_ne other]
  · exact h.stock.congr sameRest.nodeQueues sameRest.nextAddress heights fun _ => Iff.rfl
  · intro p other
    rw [sameRest.part core (fun _ _ => rfl), ← keep p other]
    rfl
  · intro p held
    rw [sameRest.part SkipListNode.locked (fun _ _ => rfl)] at held
    exact of_decide_eq_true held

omit [DecidableRel lt] [IsStrictWeakOrder T lt] in
/-- **Counting the node out, releasing the guards and recycling it ends the removal.** -/
theorem Unlinked.quiet (h : Quiet lt maxHeight s xs) {guards : List Nat} {q : Nat} (hq : q ∈ xs)
    {s' : ConcurrentSkipList T} (u : Unlinked lt s xs guards q s') :
    Quiet lt maxHeight ((s'.sizeDown.releaseGuards guards).enqueue (s.memory q).height q) (xs.erase q) := by
  obtain ⟨outHead, nodup⟩ := h.layers.nodup
  have members : ∀ p, p ∈ xs.erase q ↔ p ≠ q ∧ p ∈ xs := fun p => nodup.mem_erase_iff
  have inList : ∀ p, p ∈ s.head :: xs.erase q → p ∈ s.head :: xs ∧ p ≠ q := by
    intro p hp
    rcases List.mem_cons.mp hp with rfl | hp
    · exact ⟨List.mem_cons_self, fun eq => outHead (eq ▸ hq)⟩
    · obtain ⟨other, hp⟩ := (members p).mp hp
      exact ⟨List.mem_cons_of_mem _ hp, other⟩
  rw [releaseGuards_eq]
  refine ⟨?_, ?_, ?_, ?_, ?_, ?_, ?_⟩
  · refine Layers.congr_height ((u.layers.withLocks _).of_memory rfl rfl (Nat.le_refl _)) ?_
    intro p hp
    exact (core_eq (u.cores p ((members p).mp hp).1)).2.2.1
  · have stock : Stock s'.sizeDown fun p => p ∈ s.head :: xs :=
      u.stock.congr rfl rfl (fun _ => rfl) fun _ => Iff.rfl
    have back := (stock.withLocks fun p => (s'.memory p).locked && decide (p ∉ guards)).enqueue
      u.height (List.mem_cons_of_mem _ hq)
    apply back.congr rfl rfl (fun _ => rfl)
    intro p
    show p ∈ s'.head :: xs.erase q ↔ _
    rw [u.head]
    constructor
    · exact fun hp => inList p hp
    · rintro ⟨hp, other⟩
      rcases List.mem_cons.mp hp with rfl | hp
      · exact List.mem_cons_self
      · exact List.mem_cons_of_mem _ ((members p).mpr ⟨other, hp⟩)
  · intro p hp
    change p ∈ s'.head :: xs.erase q at hp
    rw [u.head] at hp
    obtain ⟨hp, other⟩ := inList p hp
    exact (core_eq (u.cores p other)).1.trans (h.unmarked p hp)
  · intro p hp
    obtain ⟨other, hp⟩ := (members p).mp hp
    exact (core_eq (u.cores p other)).2.1.trans (h.full p hp)
  · intro p
    show ((s'.memory p).locked && decide (p ∉ guards)) = false
    by_cases held : (s'.memory p).locked = true
    · simp [u.locked p held]
    · simp [held]
  · show s'.size - 1 = _
    rw [u.size, h.size, List.length_erase_of_mem hq]
  · show (s'.memory s'.head).height ≤ maxHeight
    have other : s.head ≠ q := fun eq => outHead (eq ▸ hq)
    rw [u.head, (core_eq (u.cores s.head other)).2.2.1]
    exact h.top

/-- **`remove` of a key in the list** unlinks its node and recycles it. -/
theorem Quiet.remove_present (h : Quiet lt maxHeight s xs) (small : maxHeight < queueCount) (fuel : Nat)
    {q : Nat} (hq : q ∈ xs) (same : IncompRel lt (s.keyOf q) x) :
    ∃ s', removeFrom lt x (fuel + 1) none s = some (s', true) ∧ Quiet lt maxHeight s' (xs.erase q) ∧
      s'.nodeQueues = (s.enqueue (s.memory q).height q).nodeQueues ∧ s'.height = s.height ∧
      ∀ p ∈ xs.erase q, s'.keyOf p = s.keyOf p ∧ (s'.memory p).height = (s.memory p).height := by
  obtain ⟨point, l, search, r, found, highest, succ⟩ := h.finds hq same
  have marks := h.marks hq found succ highest
  obtain ⟨guards, s', locks, unlinks, unlinked⟩ := h.unlink r hq same
  have high : ((s.setMarkedForRemoval q).memory q).height = (s.memory q).height :=
    modify_keeps q _ s SkipListNode.height rfl q
  have high₂ : (((s.setMarkedForRemoval q).withGuards guards).memory q).height =
      (s.memory q).height := high
  have pushes : (s'.sizeDown.releaseGuards guards).push (s'.memory q).height q =
      some ((s'.sizeDown.releaseGuards guards).enqueue (s.memory q).height q) := by
    have low := (h.layers.linked q hq).2.2
    have top := h.top
    rw [unlinked.height]
    exact if_pos (by omega)
  refine ⟨_, ?_, unlinked.quiet h hq, ?_, ?_, fun p hp => ?_⟩
  · simp only [removeFrom, search, marks, high, locks, high₂, unlinks, pushes, Option.bind_eq_bind,
      Option.bind_some, if_true]
  all_goals rw [releaseGuards_eq]
  · show Function.update s'.nodeQueues _ (s'.nodeQueues _ ++ [q]) = _
    rw [unlinked.queues]
    rfl
  · show (s'.memory s'.head).height = _
    rw [unlinked.head]
    exact (core_eq (unlinked.cores s.head (ne_of_mem_of_not_mem hq h.layers.nodup.1).symm)).2.2.1
  · obtain ⟨-, -, sameHeight, sameData⟩ :=
      core_eq (unlinked.cores p (h.layers.nodup.2.mem_erase_iff.mp hp).1)
    exact ⟨sameData, sameHeight⟩

end Hcl.ConcurrentSkipList
