import Hcl.Lib.Levels
import Hcl.Lib.Sorted
import Hcl.SkipList.Basic

/-!
The layers of the skip list in memory, and what the writes of the source do to them.

`Layers lt s xs lh` says that layer 0 links the nodes `xs` behind the head, that their data
increase, and that layer `l` links those with `l < lh p`. While a node is being linked or
unlinked, `lh p` is smaller than its height; that is why the layers have a height of their
own. Nodes higher than the head have never been used, so all their links are null (`clean`):
a new head starts with empty layers.
-/

namespace Hcl.ConcurrentSkipList

open Hcl.Lib

variable {T : Type} {lt : T → T → Prop} {s : ConcurrentSkipList T} {xs : List Nat} {lh : Nat → Nat}
  {a n k : Nat} {q : Option Nat}

/-- The links of a layer. -/
def links (s : ConcurrentSkipList T) (l p : Nat) : Option Nat := (s.memory p).skip l

/-- The data of a node. -/
def keyOf (s : ConcurrentSkipList T) (p : Nat) : T := (s.memory p).data

/-- Well-formed layers behind a head that is at least as high as every node. -/
structure WellFormed (lt : T → T → Prop) (s : ConcurrentSkipList T) (xs : List Nat)
    (lh : Nat → Nat) : Prop where
  levels : Levels s.links s.head s.height xs lh
  positive : 0 < s.height
  ascending : Ascending lt s.keyOf xs
  linked : ∀ p ∈ xs, 0 < lh p ∧ lh p ≤ (s.memory p).height ∧ (s.memory p).height ≤ s.height
  allocated : ∀ p ∈ xs, p < s.nextAddress

structure Layers (lt : T → T → Prop) (s : ConcurrentSkipList T) (xs : List Nat)
    (lh : Nat → Nat) : Prop extends WellFormed lt s xs lh where
  clean : ∀ p, s.height < (s.memory p).height → ∀ l, s.links l p = none

theorem WellFormed.layer_zero (h : WellFormed lt s xs lh) : layer lh 0 xs = xs :=
  layer_eq_self fun p hp => (h.linked p hp).1

/-- Layer 0 links all the nodes. -/
theorem WellFormed.bottom (h : WellFormed lt s xs lh) : Chain (s.links 0) (some s.head) (s.head :: xs) := by
  have chain := h.levels.chain 0 h.positive
  rwa [h.layer_zero] at chain

theorem WellFormed.nodup (h : WellFormed lt s xs lh) : s.head ∉ xs ∧ xs.Nodup :=
  List.nodup_cons.mp h.bottom.nodup

theorem WellFormed.height_le (h : WellFormed lt s xs lh) {p : Nat} (hp : p ∈ s.head :: xs) :
    (s.memory p).height ≤ s.height := by
  rcases List.mem_cons.mp hp with rfl | hp
  · exact Nat.le_refl _
  · exact (h.linked p hp).2.2

/-- A node of a layer has a link there. -/
theorem WellFormed.inside (h : WellFormed lt s xs lh) {p l : Nat} (below : l < s.height)
    (hp : p ∈ s.head :: layer lh l xs) : l < (s.memory p).height := by
  rcases List.mem_cons.mp hp with rfl | hp
  · exact below
  · obtain ⟨hp, linked⟩ := mem_layer.mp hp
    exact Nat.lt_of_lt_of_le linked (h.linked p hp).2.1

/-- Where the nodes of the list keep their data, heights and links, the layers stay. -/
theorem Layers.congr {s' : ConcurrentSkipList T} (h : Layers lt s xs lh) (head : s'.head = s.head)
    (height : ∀ p ∈ s.head :: xs, (s'.memory p).height = (s.memory p).height)
    (links : ∀ p ∈ s.head :: xs, ∀ l, s'.links l p = s.links l p)
    (keyOf : ∀ p ∈ xs, s'.keyOf p = s.keyOf p) (allocated : s.nextAddress ≤ s'.nextAddress)
    (clean : ∀ p, s.height < (s'.memory p).height → ∀ l, s'.links l p = none) :
    Layers lt s' xs lh := by
  have top : s'.height = s.height := by
    show (s'.memory s'.head).height = _
    rw [head, height s.head List.mem_cons_self]
    rfl
  refine ⟨⟨?_, top ▸ h.positive, ?_, ?_, ?_⟩, top ▸ clean⟩
  · rw [head, top]
    refine h.levels.congr fun l _ p hp => links p ?_ l
    exact List.cons_subset_cons _ (fun _ mem => (mem_layer.mp mem).1) hp
  · refine h.ascending.imp_of_mem fun hp hq below => ?_
    rwa [keyOf _ hp, keyOf _ hq]
  · intro p hp
    rw [height p (List.mem_cons_of_mem _ hp), top]
    exact h.linked p hp
  · exact fun p hp => Nat.lt_of_lt_of_le (h.allocated p hp) allocated

/-- The layers depend on the memory and the head only. -/
theorem Layers.of_memory {s' : ConcurrentSkipList T} (h : Layers lt s xs lh) (head : s'.head = s.head)
    (memory : s'.memory = s.memory) (allocated : s.nextAddress ≤ s'.nextAddress) : Layers lt s' xs lh :=
  h.congr head (fun p _ => by rw [memory]) (fun p _ l => by rw [links, memory]; rfl)
    (fun p _ => by rw [keyOf, memory]; rfl) allocated fun p above l => by
      rw [memory] at above
      rw [links, memory]
      exact h.clean p above l

theorem Layers.congr_height {lh' : Nat → Nat} (h : Layers lt s xs lh) (same : ∀ p ∈ xs, lh' p = lh p) :
    Layers lt s xs lh' where
  levels := h.levels.congr_height same
  positive := h.positive
  ascending := h.ascending
  linked p hp := same p hp ▸ h.linked p hp
  allocated := h.allocated
  clean := h.clean

/-- A write to a node of the list that keeps its data, height and links. -/
theorem Layers.modify (h : Layers lt s xs lh) (p : Nat) {f : SkipListNode T → SkipListNode T}
    (height : (f (s.memory p)).height = (s.memory p).height)
    (skip : (f (s.memory p)).skip = (s.memory p).skip)
    (data : (f (s.memory p)).data = (s.memory p).data) : Layers lt (s.modify p f) xs lh := by
  have keepsHeight := modify_keeps p f s SkipListNode.height height
  have keepsLinks : ∀ q l, (s.modify p f).links l q = s.links l q := fun q l =>
    congrFun (modify_keeps p f s SkipListNode.skip skip q) l
  refine h.congr rfl (fun q _ => keepsHeight q) (fun q _ => keepsLinks q)
    (fun q _ => modify_keeps p f s SkipListNode.data data q) (Nat.le_refl _) ?_
  intro q above l
  rw [keepsHeight] at above
  rw [keepsLinks, h.clean q above]

/-- A write to a node that is not in the list and not higher than the head. -/
theorem Layers.modify_outside (h : Layers lt s xs lh) {p : Nat} (outside : p ∉ s.head :: xs)
    {f : SkipListNode T → SkipListNode T} (low : (f (s.memory p)).height ≤ s.height) :
    Layers lt (s.modify p f) xs lh := by
  have keeps : ∀ q ∈ s.head :: xs, (s.modify p f).memory q = s.memory q := fun q hq =>
    modify_of_ne p f s (ne_of_mem_of_not_mem hq outside)
  refine h.congr rfl (fun q hq => by rw [keeps q hq])
    (fun q hq l => congrArg (fun m => m.skip l) (keeps q hq))
    (fun q hq => congrArg SkipListNode.data (keeps q (List.mem_cons_of_mem _ hq)))
    (Nat.le_refl _) ?_
  intro q above l
  by_cases here : q = p
  · subst here
    rw [modify_self] at above
    exact absurd above (Nat.not_lt_of_le low)
  · rw [modify_of_ne p f s here] at above
    exact (congrArg (fun m => m.skip l) (modify_of_ne p f s here)).trans (h.clean q above l)

/-! ### Links -/

section Writes

variable (p layer : Nat) (next : Option Nat) (s : ConcurrentSkipList T)

@[simp] theorem writeSkip_height (r : Nat) :
    ((s.writeSkip p layer next).memory r).height = (s.memory r).height :=
  modify_keeps p _ s SkipListNode.height rfl r

@[simp] theorem writeSkip_keyOf : (s.writeSkip p layer next).keyOf = s.keyOf :=
  funext fun r => modify_keeps p _ s SkipListNode.data rfl r

/-- A write to one layer changes the links of that layer at one address. -/
theorem writeSkip_links :
    (s.writeSkip p layer next).links =
      Function.update s.links layer (Function.update (s.links layer) p next) := by
  funext l r
  by_cases here : r = p
  · subst here
    by_cases same : l = layer
    · subst same
      simp [links, writeSkip]
    · simp [links, writeSkip, same]
  · simp only [links, writeSkip, modify_of_ne p _ s here]
    by_cases same : l = layer
    · subst same
      rw [Function.update_self, Function.update_of_ne here]
      rfl
    · rw [Function.update_of_ne same]
      rfl

end Writes

/-- A write to a link of the list, from what it does to the levels. -/
theorem Layers.write {xs' : List Nat} {lh' : Nat → Nat} (h : Layers lt s xs lh)
    (ha : a ∈ s.head :: xs)
    (levels : Levels (Function.update s.links k (Function.update (s.links k) a q)) s.head s.height xs' lh')
    (ascending : Ascending lt s.keyOf xs')
    (linked : ∀ p ∈ xs', 0 < lh' p ∧ lh' p ≤ (s.memory p).height ∧ (s.memory p).height ≤ s.height)
    (allocated : ∀ p ∈ xs', p < s.nextAddress) : Layers lt (s.writeSkip a k q) xs' lh' := by
  have top : (s.writeSkip a k q).height = s.height := writeSkip_height ..
  refine ⟨⟨?_, top ▸ h.positive, ?_, ?_, allocated⟩, ?_⟩
  · rw [writeSkip_links, top]
    exact levels
  · rwa [writeSkip_keyOf]
  · intro p hp
    rw [writeSkip_height, top]
    exact linked p hp
  · intro p above l
    rw [writeSkip_height, top] at above
    have other : p ≠ a := fun same => Nat.not_lt_of_le (h.height_le ha) (same ▸ above)
    rw [writeSkip_links]
    by_cases here : l = k
    · rw [here, Function.update_self, Function.update_of_ne other]
      exact h.clean p above k
    · rw [Function.update_of_ne here]
      exact h.clean p above l

/-- Setting a link of a node in a layer in which it is not linked. -/
theorem Layers.prepare (h : Layers lt s xs lh) (outHead : n ≠ s.head) (unlinked : n ∈ xs → lh n ≤ k)
    (low : (s.memory n).height ≤ s.height) : Layers lt (s.writeSkip n k q) xs lh := by
  have top : (s.writeSkip n k q).height = s.height := writeSkip_height ..
  have keeps : ∀ l p, (l = k → p ≠ n) → (s.writeSkip n k q).links l p = s.links l p := by
    intro l p apart
    rw [writeSkip_links]
    by_cases here : l = k
    · rw [here, Function.update_self, Function.update_of_ne (apart here)]
    · rw [Function.update_of_ne here]
  refine ⟨⟨?_, top ▸ h.positive, ?_, ?_, h.allocated⟩, ?_⟩
  · rw [top]
    refine h.levels.congr fun l _ p hp => keeps l p ?_
    rintro rfl rfl
    rcases List.mem_cons.mp hp with same | hp
    · exact outHead same
    · obtain ⟨hp, linked⟩ := mem_layer.mp hp
      exact Nat.not_lt_of_le (unlinked hp) linked
  · rw [writeSkip_keyOf]
    exact h.ascending
  · intro p hp
    rw [writeSkip_height, top]
    exact h.linked p hp
  · intro p above l
    rw [writeSkip_height, top] at above
    rw [keeps l p fun _ same => Nat.not_lt_of_le low (same ▸ above)]
    exact h.clean p above l

section Search

variable [DecidableRel lt]

/-- The last node of layer `k` below `x`, or the head. -/
def predAt (lt : T → T → Prop) [DecidableRel lt] (s : ConcurrentSkipList T) (xs : List Nat)
    (lh : Nat → Nat) (x : T) (k : Nat) : Nat :=
  (layer lh k (under lt s.keyOf x xs)).getLastD s.head

/-- The first node of layer `k` that is not below `x`. -/
def succAt (lt : T → T → Prop) [DecidableRel lt] (s : ConcurrentSkipList T) (xs : List Nat)
    (lh : Nat → Nat) (x : T) (k : Nat) : Option Nat :=
  (layer lh k (onward lt s.keyOf x xs)).head?

theorem predAt_mem (x : T) (l : Nat) :
    predAt lt s xs lh x l ∈ s.head :: layer lh l (under lt s.keyOf x xs) := getLastD_mem ..

theorem predAt_mem_list (x : T) (l : Nat) : predAt lt s xs lh x l ∈ s.head :: xs :=
  List.cons_subset_cons _ (fun _ hp => (mem_under.mp (mem_layer.mp hp).1).1) (predAt_mem x l)

variable [IsStrictWeakOrder T lt]

/-- Every layer is cut at `x` into the nodes below and the others. -/
theorem WellFormed.split (h : WellFormed lt s xs lh) (x : T) (l : Nat) :
    layer lh l xs = layer lh l (under lt s.keyOf x xs) ++ layer lh l (onward lt s.keyOf x xs) := by
  rw [← layer_append, under_append_onward h.ascending]

/-- The two ends of the cut are linked. -/
theorem WellFormed.links_predAt (h : WellFormed lt s xs lh) (x : T) (below : k < s.height) :
    s.links k (predAt lt s xs lh x k) = succAt lt s xs lh x k :=
  h.levels.next below (h.split x k)

/-- `p` and `q` are neighbours in layer `l`, on the two sides of `x`. -/
structure Adjacent (lt : T → T → Prop) (s : ConcurrentSkipList T) (xs : List Nat) (lh : Nat → Nat)
    (x : T) (l p : Nat) (q : Option Nat) : Prop where
  pred : p = s.head ∨ p ∈ xs ∧ l < lh p ∧ lt (s.keyOf p) x
  next : s.links l p = q
  succ : ∀ r, q = some r → ¬ lt (s.keyOf r) x

/-- There is only one place for `x` in a layer. -/
theorem WellFormed.adjacent (h : WellFormed lt s xs lh) {x : T} {l p : Nat} (low : l < s.height)
    (gap : Adjacent lt s xs lh x l p q) :
    p = predAt lt s xs lh x l ∧ q = succAt lt s xs lh x l := by
  have reached : p ∈ s.head :: layer lh l (under lt s.keyOf x xs) := by
    rcases gap.pred with rfl | ⟨hp, linked, below⟩
    · exact List.mem_cons_self
    · exact List.mem_cons_of_mem _ (mem_layer.mpr ⟨mem_under.mpr ⟨hp, below⟩, linked⟩)
  obtain ⟨before, after, split⟩ := List.append_of_mem reached
  have chain := h.levels.chain l low
  rw [h.split x l, ← List.cons_append, split, List.append_assoc, List.cons_append] at chain
  have next := gap.next.symm.trans chain.from_mem.start
  cases after with
  | nil => exact ⟨by rw [predAt, getLastD_of_append split]; rfl, next⟩
  | cons r after =>
      -- A node behind `p` that is still below `x` would be its neighbour.
      have mem : r ∈ layer lh l (under lt s.keyOf x xs) := mem_of_append split List.mem_cons_self
      exact absurd (mem_under.mp (mem_layer.mp mem).1).2 (gap.succ r next)

/-- The nodes around a node of the list, below and above its data. -/
theorem WellFormed.around (h : WellFormed lt s xs lh) (hn : n ∈ xs) :
    ∃ rest, onward lt s.keyOf (s.keyOf n) xs = n :: rest ∧
      under lt s.keyOf (s.keyOf n) xs ++ n :: rest = xs ∧
      n ∉ under lt s.keyOf (s.keyOf n) xs ∧ n ∉ rest := by
  have same : IncompRel lt (s.keyOf n) (s.keyOf n) := ⟨irrefl _, irrefl _⟩
  obtain ⟨rest, first⟩ := onward_eq_cons h.ascending hn same
  have cut := under_append_onward h.ascending (s.keyOf n)
  rw [first] at cut
  have nodup := h.nodup.2
  rw [← cut] at nodup
  obtain ⟨-, right, apart⟩ := List.nodup_append.mp nodup
  exact ⟨rest, first, cut, fun left => apart n left n List.mem_cons_self rfl,
    (List.nodup_cons.mp right).1⟩

/-- **Linking a new node in layer 0**: its link is set before, then its predecessor is
pointed at it. -/
theorem Layers.publish_bottom (h : Layers lt s xs lh) (outside : n ∉ s.head :: xs)
    (positive : 0 < (s.memory n).height) (low : (s.memory n).height ≤ s.height)
    (allocated : n < s.nextAddress) (distinct : ∀ p ∈ xs, ¬ IncompRel lt (s.keyOf p) (s.keyOf n))
    (gap : Adjacent lt s xs lh (s.keyOf n) 0 a q) (ready : s.links 0 n = q) :
    Layers lt (s.writeSkip a 0 (some n))
      (under lt s.keyOf (s.keyOf n) xs ++ n :: onward lt s.keyOf (s.keyOf n) xs)
      (Function.update lh n 1) := by
  obtain ⟨rfl, rfl⟩ := h.adjacent h.positive gap
  obtain ⟨outHead, outList⟩ := not_or.mp (mt List.mem_cons.mpr outside)
  have cut := under_append_onward h.ascending (s.keyOf n)
  have outLeft : n ∉ under lt s.keyOf (s.keyOf n) xs := fun mem => outList (mem_under.mp mem).1
  have outRight : n ∉ onward lt s.keyOf (s.keyOf n) xs := fun mem => outList (mem_onward.mp mem).1
  have members : ∀ p, p ∈ under lt s.keyOf (s.keyOf n) xs ++ n :: onward lt s.keyOf (s.keyOf n) xs →
      p = n ∨ p ∈ xs ∧ p ≠ n := by
    intro p hp
    by_cases here : p = n
    · exact .inl here
    · refine .inr ⟨?_, here⟩
      rw [← cut]
      simpa [here] using hp
  have keeps : ∀ ys : List Nat, n ∉ ys → layer (Function.update lh n 0) 0 ys = layer lh 0 ys :=
    fun ys out => List.filter_congr fun p hp => by
      rw [Function.update_of_ne (ne_of_mem_of_not_mem hp out)]
  have entered := Levels.enter (n := n) (cut.symm ▸ h.levels) outLeft outRight
  have raised := entered.raise h.positive outLeft outRight outHead (Function.update_self ..)
    (by rw [keeps _ outRight]; exact ready)
  rw [Function.update_idem, keeps _ outLeft] at raised
  refine h.write (predAt_mem_list _ _) raised ?_ ?_ ?_
  · refine List.pairwise_append.mpr ⟨h.ascending.filter _, List.pairwise_cons.mpr
      ⟨?_, h.ascending.filter _⟩, ?_⟩
    · intro p hp
      obtain ⟨hp, notBelow⟩ := mem_onward.mp hp
      exact Classical.not_not.mp fun notAbove => distinct p hp ⟨notBelow, notAbove⟩
    · intro p hp r hr
      obtain ⟨hp, below⟩ := mem_under.mp hp
      rcases List.mem_cons.mp hr with rfl | hr
      · exact below
      · obtain ⟨hr, notBelow⟩ := mem_onward.mp hr
        exact (lt_or_lt_of_lt below (s.keyOf r)).resolve_right notBelow
  · intro p hp
    rcases members p hp with rfl | ⟨hp, other⟩
    · rw [Function.update_self]
      exact ⟨Nat.one_pos, positive, low⟩
    · rw [Function.update_of_ne other]
      exact h.linked p hp
  · intro p hp
    rcases members p hp with rfl | ⟨hp, -⟩
    · exact allocated
    · exact h.allocated p hp

/-- **Linking a node in its next layer.** -/
theorem Layers.publish (h : Layers lt s xs lh) (hn : n ∈ xs) (linked : lh n = k)
    (inside : k < (s.memory n).height) (gap : Adjacent lt s xs lh (s.keyOf n) k a q)
    (ready : s.links k n = q) :
    Layers lt (s.writeSkip a k (some n)) xs (Function.update lh n (k + 1)) := by
  have below : k < s.height := Nat.lt_of_lt_of_le inside (h.linked n hn).2.2
  obtain ⟨rfl, rfl⟩ := h.adjacent below gap
  obtain ⟨rest, first, cut, outLeft, outRight⟩ := h.around hn
  have outHead : n ≠ s.head := ne_of_mem_of_not_mem hn h.nodup.1
  have gap : succAt lt s xs lh (s.keyOf n) k = (layer lh k rest).head? := by
    rw [succAt, first, layer_cons_neg (by omega)]
  have raised := Levels.raise (cut.symm ▸ h.levels) below outLeft outRight outHead linked
    (ready.trans gap)
  rw [cut] at raised
  refine h.write (predAt_mem_list _ _) raised h.ascending ?_ h.allocated
  intro p hp
  by_cases here : p = n
  · subst here
    rw [Function.update_self]
    exact ⟨Nat.succ_pos k, inside, (h.linked p hp).2.2⟩
  · rw [Function.update_of_ne here]
    exact h.linked p hp

/-- **Unlinking a node in its highest layer**, which is not the bottom one. -/
theorem Layers.unlink (h : Layers lt s xs lh) (hn : n ∈ xs) (linked : lh n = k + 1) (upper : 0 < k)
    (gap : Adjacent lt s xs lh (s.keyOf n) k a (some n)) :
    Layers lt (s.writeSkip a k (s.links k n)) xs (Function.update lh n k) := by
  have below : k < s.height := by
    have := h.linked n hn
    omega
  obtain ⟨rfl, -⟩ := h.adjacent below gap
  obtain ⟨rest, -, cut, outLeft, outRight⟩ := h.around hn
  have lowered := Levels.lower (cut.symm ▸ h.levels) below outLeft outRight linked
  rw [cut] at lowered
  refine h.write (predAt_mem_list _ _) lowered h.ascending ?_ h.allocated
  intro p hp
  by_cases here : p = n
  · subst here
    rw [Function.update_self]
    have := h.linked p hp
    exact ⟨upper, by omega, this.2.2⟩
  · rw [Function.update_of_ne here]
    exact h.linked p hp

/-- **Unlinking a node in the bottom layer.** -/
theorem Layers.unlink_bottom (h : Layers lt s xs lh) (hn : n ∈ xs) (linked : lh n = 1)
    (gap : Adjacent lt s xs lh (s.keyOf n) 0 a (some n)) :
    Layers lt (s.writeSkip a 0 (s.links 0 n)) (xs.erase n) (Function.update lh n 0) := by
  obtain ⟨rfl, -⟩ := h.adjacent h.positive gap
  obtain ⟨rest, -, cut, outLeft, outRight⟩ := h.around hn
  have lowered := Levels.lower (cut.symm ▸ h.levels) h.positive outLeft outRight linked
  have left := lowered.leave outLeft outRight (Function.update_self ..)
  have erased : xs.erase n = under lt s.keyOf (s.keyOf n) xs ++ rest := by
    conv_lhs => rw [← cut]
    rw [List.erase_append_right _ outLeft, List.erase_cons_head]
  rw [← erased] at left
  refine h.write (predAt_mem_list _ _) left (h.ascending.sublist List.erase_sublist) ?_
    fun p hp => h.allocated p (List.mem_of_mem_erase hp)
  intro p hp
  have other : p ≠ n := fun same => (h.nodup.2.not_mem_erase) (same ▸ hp)
  rw [Function.update_of_ne other]
  exact h.linked p (List.mem_of_mem_erase hp)

end Search

/-! ### The head -/

/-- **A new head takes the place of the old one.** Its upper layers are empty, because a
node higher than the head has never been linked. -/
theorem Layers.exchange {newHead : Nat} (h : Layers lt s xs lh) (outside : newHead ∉ xs)
    (higher : s.height < (s.memory newHead).height) :
    Layers lt { s.copyHead newHead s.head with head := newHead } xs lh := by
  have keeps : ∀ p ≠ newHead, (s.copyHead newHead s.head).memory p = s.memory p := fun p hp =>
    modify_of_ne newHead _ s hp
  have height : ∀ p, ((s.copyHead newHead s.head).memory p).height = (s.memory p).height := fun p => by
    by_cases here : p = newHead
    · rw [here, copyHead, modify_self]
    · rw [keeps p here]
  have ne : ∀ p ∈ xs, p ≠ newHead := fun p hp => ne_of_mem_of_not_mem hp outside
  have copied : ∀ l, (s.copyHead newHead s.head).links l newHead =
      if l < s.height then s.links l s.head else none := fun l => by
    simp only [links, copyHead, modify_self]
    split
    · rename_i low
      exact (if_pos low).symm
    · rename_i high
      exact (h.clean newHead higher l).trans (if_neg high).symm
  have top : ({ s.copyHead newHead s.head with head := newHead } : ConcurrentSkipList T).height =
      (s.memory newHead).height := height newHead
  refine ⟨⟨⟨fun l below => ⟨rfl, ?_⟩⟩, ?_, ?_, ?_, h.allocated⟩, ?_⟩
  · show Chain _ ((s.copyHead newHead s.head).links l newHead) _
    rw [copied]
    split
    · rename_i low
      apply (h.levels.chain l low).2.congr
      intro p hp
      exact congrArg (fun m => m.skip l) (keeps p (ne p (mem_layer.mp hp).1))
    · rename_i high
      rw [layer_eq_nil fun p hp => ?_]
      · exact rfl
      · have := h.linked p hp
        omega
  · rw [top]
    exact Nat.lt_of_le_of_lt (Nat.zero_le _) higher
  · refine h.ascending.imp_of_mem fun hp hq below => ?_
    show lt ((s.copyHead newHead s.head).memory _).data ((s.copyHead newHead s.head).memory _).data
    rw [keeps _ (ne _ hp), keeps _ (ne _ hq)]
    exact below
  · intro p hp
    rw [top]
    change 0 < lh p ∧ lh p ≤ ((s.copyHead newHead s.head).memory p).height ∧
      ((s.copyHead newHead s.head).memory p).height ≤ (s.memory newHead).height
    rw [height]
    have := h.linked p hp
    exact ⟨this.1, this.2.1, by omega⟩
  · intro p above l
    rw [top] at above
    change _ < ((s.copyHead newHead s.head).memory p).height at above
    rw [height] at above
    have away : p ≠ newHead := fun same => Nat.lt_irrefl _ (same ▸ above)
    show ((s.copyHead newHead s.head).memory p).skip l = none
    rw [keeps p away]
    exact h.clean p (Nat.lt_trans higher above) l

end Hcl.ConcurrentSkipList
