import Hcl.SkipList.Layers

/-!
What the searches and walks of the skip list return, on any well-formed layers.

At each layer a search stops at the last node below the key (`predAt`) and the first that is
not (`succAt`). An equivalent node is first met in its highest layer, which is how `remove`
can ask for it there.
-/

namespace Hcl.ConcurrentSkipList

open Hcl.Lib

variable {T : Type} {lt : T → T → Prop} [DecidableRel lt] {s : ConcurrentSkipList T} {xs : List Nat}
  {lh : Nat → Nat} {x : T}

theorem greater_some (x : T) (p : Nat) : greater lt s x (some p) = decide (lt (s.keyOf p) x) := rfl

theorem less_some (x : T) (p : Nat) : less lt s x (some p) = decide (lt x (s.keyOf p)) := rfl

/-! ### Going right -/

/-- The inner loop passes the nodes below the key. -/
theorem advance_spec {l fuel pred : Nat} {node : Option Nat} {before after : List Nat}
    (chain : Chain (s.links l) node (before ++ after))
    (inside : ∀ p ∈ before, l < (s.memory p).height) (below : ∀ p ∈ before, lt (s.keyOf p) x)
    (stop : ∀ p, after.head? = some p → ¬ lt (s.keyOf p) x) (enough : before.length ≤ fuel) :
    advance lt s x l fuel pred node = some (before.getLastD pred, after.head?) := by
  induction before generalizing fuel pred node with
  | nil =>
      obtain rfl := chain.start
      cases first : after.head? with
      | none => simp [advance, first]
      | some p =>
          have stays : greater lt s x (some p) = false := by simpa [greater_some] using stop p first
          cases fuel <;> simp [advance, first, stays]
  | cons p before ih =>
      obtain ⟨rfl, rest⟩ := chain
      have goes : greater lt s x (some p) = true := by
        simpa [greater_some] using below p List.mem_cons_self
      cases fuel with
      | zero => exact nomatch enough
      | succ fuel =>
          simp only [advance, goes, if_true, skip_eq (inside p List.mem_cons_self),
            Option.bind_eq_bind, Option.bind_some]
          rw [List.getLastD_cons]
          exact ih rest (fun q hq => inside q (List.mem_cons_of_mem _ hq))
            (fun q hq => below q (List.mem_cons_of_mem _ hq)) (Nat.le_of_succ_le_succ enough)

omit [DecidableRel lt] in
/-- The chain of a layer behind one of its nodes is no longer than the memory. -/
theorem WellFormed.length_le (h : WellFormed lt s xs lh) {l : Nat} {p : Option Nat} {ys : List Nat}
    (chain : Chain (s.links l) p ys) (sub : ys ⊆ xs) : ys.length ≤ s.nextAddress :=
  chain.length_le fun q hq => h.allocated q (sub hq)

/-- The successor is in the layer and not below the key. -/
theorem succAt_mem {q l : Nat} (first : succAt lt s xs lh x l = some q) :
    q ∈ xs ∧ l < lh q ∧ ¬ lt (s.keyOf q) x := by
  obtain ⟨mem, linked⟩ := mem_layer.mp (List.mem_of_mem_head? first)
  obtain ⟨hq, notBelow⟩ := mem_onward.mp mem
  exact ⟨hq, linked, notBelow⟩

/-- A node linked in a layer is linked in the lower ones. -/
theorem mem_layer_of_le {l m : Nat} {ys : List Nat} {p : Nat} (le : m ≤ l)
    (hp : p ∈ s.head :: layer lh l ys) : p ∈ s.head :: layer lh m ys := by
  refine List.cons_subset_cons _ ?_ hp
  intro q hq
  obtain ⟨hq, linked⟩ := mem_layer.mp hq
  exact mem_layer.mpr ⟨hq, by omega⟩

variable [IsStrictWeakOrder T lt]

/-- From any node of the layer that is below the key, the inner loop ends at the cut. -/
theorem WellFormed.advance (h : WellFormed lt s xs lh) {l pred : Nat} (low : l < s.height)
    (reached : pred ∈ s.head :: layer lh l (under lt s.keyOf x xs)) :
    advance lt s x l s.nextAddress pred (s.links l pred) =
      some (predAt lt s xs lh x l, succAt lt s xs lh x l) := by
  obtain ⟨before, after, split⟩ := List.append_of_mem reached
  have chain := h.levels.chain l low
  rw [h.split x l, ← List.cons_append, split, List.append_assoc, List.cons_append] at chain
  have mem : ∀ p ∈ after, p ∈ layer lh l (under lt s.keyOf x xs) :=
    fun p hp => mem_of_append split hp
  have sub : after ++ layer lh l (onward lt s.keyOf x xs) ⊆ xs := by
    intro p hp
    rcases List.mem_append.mp hp with hp | hp
    · exact (mem_under.mp (mem_layer.mp (mem p hp)).1).1
    · exact (mem_onward.mp (mem_layer.mp hp).1).1
  have short := h.length_le chain.from_mem sub
  rw [List.length_append] at short
  rw [advance_spec chain.from_mem (fun p hp => ?_) (fun p hp => ?_) (fun p first => ?_) (by omega),
    predAt, getLastD_of_append split]
  · rfl
  · refine h.inside low (List.mem_cons_of_mem _ ?_)
    rw [h.split x l]
    exact List.mem_append_left _ (mem p hp)
  · exact (mem_under.mp (mem_layer.mp (mem p hp)).1).2
  · exact (mem_onward.mp (mem_layer.mp (List.mem_of_mem_head? first)).1).2

/-! ### The insertion point -/

section Recorded

omit [IsStrictWeakOrder T lt]

/-- What `findInsertionPoint` has recorded when it has done the layers from `k` on. -/
structure Recorded (lt : T → T → Prop) [DecidableRel lt] (s : ConcurrentSkipList T) (xs : List Nat)
    (lh : Nat → Nat) (x : T) (k : Nat) (point : InsertionPoint) : Prop where
  preds : ∀ l, k ≤ l → l < s.height → point.preds l = some (predAt lt s xs lh x l)
  succs : ∀ l, k ≤ l → l < s.height → point.succs l = succAt lt s xs lh x l
  found : ∀ l, point.foundLayer = some l → ∃ q, point.foundNode = some q ∧ q ∈ xs ∧
    IncompRel lt (s.keyOf q) x ∧ lh q = l + 1 ∧ k ≤ l
  notFound : point.foundLayer = none → point.foundNode = none ∧
    ∀ q ∈ xs, IncompRel lt (s.keyOf q) x → lh q ≤ k

/-- A search that finds nothing found that no node is equivalent to the key. -/
theorem Recorded.absent {point : InsertionPoint} (h : Layers lt s xs lh)
    (r : Recorded lt s xs lh x 0 point) (missing : point.foundLayer = none) :
    ∀ q ∈ xs, ¬ IncompRel lt (s.keyOf q) x := fun q hq same => by
  have := (r.notFound missing).2 q hq same
  have := (h.linked q hq).1
  omega

end Recorded

/-- The successor of a layer is the equivalent node, if that is linked there. -/
theorem WellFormed.succAt_eq_of_incompRel (h : WellFormed lt s xs lh) {q l : Nat} (hq : q ∈ xs)
    (same : IncompRel lt (s.keyOf q) x) (linked : l < lh q) : succAt lt s xs lh x l = some q := by
  obtain ⟨rest, first⟩ := onward_eq_cons h.ascending hq same
  rw [succAt, first, layer_cons_pos linked, List.head?_cons]

section RecordedBelow

omit [IsStrictWeakOrder T lt]

/-- The same for a search that started at layer `m - 1`: it has recorded the layers from `k`
up to there, and it takes no notice of the layers above. -/
structure RecordedBelow (lt : T → T → Prop) [DecidableRel lt] (s : ConcurrentSkipList T)
    (xs : List Nat) (lh : Nat → Nat) (x : T) (m k : Nat) (point : InsertionPoint) : Prop where
  preds : ∀ l, k ≤ l → l < m → point.preds l = some (predAt lt s xs lh x l)
  succs : ∀ l, k ≤ l → l < m → point.succs l = succAt lt s xs lh x l
  found : ∀ l, point.foundLayer = some l → ∃ q, point.foundNode = some q ∧ q ∈ xs ∧
    IncompRel lt (s.keyOf q) x ∧ min (lh q) m = l + 1 ∧ k ≤ l
  notFound : point.foundLayer = none → point.foundNode = none ∧
    ∀ q ∈ xs, IncompRel lt (s.keyOf q) x → min (lh q) m ≤ k

theorem RecordedBelow.start {m : Nat} {point : InsertionPoint} (layer : point.foundLayer = none)
    (node : point.foundNode = none) : RecordedBelow lt s xs lh x m m point := by
  constructor
  · exact fun _ from' low => absurd low (Nat.not_lt_of_le from')
  · exact fun _ from' low => absurd low (Nat.not_lt_of_le from')
  · intro l found
    rw [layer] at found
    cases found
  · exact fun _ => ⟨node, fun _ _ _ => Nat.min_le_right _ _⟩

/-- A search from the top takes notice of all layers. -/
theorem RecordedBelow.recorded {point : InsertionPoint} (h : WellFormed lt s xs lh)
    (r : RecordedBelow lt s xs lh x s.height 0 point) : Recorded lt s xs lh x 0 point := by
  have whole : ∀ q ∈ xs, min (lh q) s.height = lh q := fun q hq =>
    Nat.min_eq_left (Nat.le_trans (h.linked q hq).2.1 (h.linked q hq).2.2)
  constructor
  · exact r.preds
  · exact r.succs
  · intro l found
    obtain ⟨q, node, hq, same, linked, from'⟩ := r.found l found
    exact ⟨q, node, hq, same, whole q hq ▸ linked, from'⟩
  · intro missing
    obtain ⟨node, unfound⟩ := r.notFound missing
    exact ⟨node, fun q hq same => whole q hq ▸ unfound q hq same⟩

end RecordedBelow

/-- One round of the loop. -/
theorem WellFormed.record (h : WellFormed lt s xs lh) {m k : Nat} {point : InsertionPoint}
    (started : k < m) (before : RecordedBelow lt s xs lh x m (k + 1) point) :
    RecordedBelow lt s xs lh x m k
      (point.record lt s x k (predAt lt s xs lh x k) (succAt lt s xs lh x k)) := by
  have preds : ∀ l, k ≤ l → l < m →
      Function.update point.preds k (some (predAt lt s xs lh x k)) l =
        some (predAt lt s xs lh x l) := by
    intro l from' low
    by_cases here : l = k
    · rw [here, Function.update_self]
    · rw [Function.update_of_ne here]
      exact before.preds l (by omega) low
  have succs : ∀ succ, succ = succAt lt s xs lh x k → ∀ l, k ≤ l → l < m →
      Function.update point.succs k succ l = succAt lt s xs lh x l := by
    rintro _ rfl l from' low
    by_cases here : l = k
    · rw [here, Function.update_self]
    · rw [Function.update_of_ne here]
      exact before.succs l (by omega) low
  cases foundLayer : point.foundLayer with
  | some f =>
      -- Found in a higher layer: the node is the successor here too.
      obtain ⟨q, node, hq, same, linked, above⟩ := before.found f foundLayer
      refine ⟨preds, ?_, ?_, ?_⟩ <;>
        simp only [InsertionPoint.record, foundLayer, Option.isNone_some, Bool.false_and,
          Bool.false_eq_true, if_false, node, Option.isSome_some, if_true]
      · exact succs _ (h.succAt_eq_of_incompRel hq same (by omega)).symm
      · rintro l ⟨⟩
        exact ⟨q, rfl, hq, same, linked, by omega⟩
      · exact fun contra => nomatch contra
  | none =>
      obtain ⟨node, none_above⟩ := before.notFound foundLayer
      by_cases stops : less lt s x (succAt lt s xs lh x k) = true
      · refine ⟨preds, ?_, ?_, ?_⟩ <;>
          simp only [InsertionPoint.record, foundLayer, Option.isNone_none, Bool.true_and, stops,
            Bool.not_true, Bool.false_eq_true, if_false, node, Option.isSome_none]
        · exact succs _ rfl
        · exact fun l contra => nomatch contra
        · refine fun _ => ⟨trivial, fun q hq same => Nat.le_of_not_lt fun linked => ?_⟩
          rw [h.succAt_eq_of_incompRel hq same (Nat.lt_of_lt_of_le linked (Nat.min_le_left _ _))]
            at stops
          exact same.2 (by simpa [less_some] using stops)
      · -- Found here: an equivalent node that the search met in no higher layer.
        have stops := Bool.eq_false_iff.mpr stops
        cases first : succAt lt s xs lh x k with
        | none => simp [first, less] at stops
        | some q =>
            obtain ⟨hq, linked, notBelow⟩ := succAt_mem first
            have same : IncompRel lt (s.keyOf q) x := ⟨notBelow, by simpa [first, less_some] using stops⟩
            rw [first] at stops
            refine ⟨preds, ?_, ?_, ?_⟩ <;>
              simp only [InsertionPoint.record, foundLayer, Option.isNone_none, Bool.true_and, stops,
                Bool.not_false, if_true, Option.isSome_some]
            · exact succs _ first.symm
            · rintro l ⟨⟩
              have := none_above q hq same
              exact ⟨q, rfl, hq, same, by omega, Nat.le_refl _⟩
            · exact fun contra => nomatch contra

/-- The loop, from any node of its first layer that is below the key. -/
theorem WellFormed.findInsertionPoint_spec (h : WellFormed lt s xs lh) {m k pred : Nat}
    {point : InsertionPoint} (started : k ≤ m) (low : k ≤ s.height)
    (reached : ∀ l, k = l + 1 → pred ∈ s.head :: layer lh l (under lt s.keyOf x xs))
    (before : RecordedBelow lt s xs lh x m k point) :
    ∃ point', findInsertionPoint lt s x k pred point = some point' ∧
      RecordedBelow lt s xs lh x m 0 point' := by
  induction k generalizing pred point with
  | zero => exact ⟨point, rfl, before⟩
  | succ k ih =>
      have reached := reached k rfl
      have inside : k < (s.memory pred).height := by
        refine h.inside low ?_
        rw [h.split x k, ← List.cons_append]
        exact List.mem_append_left _ reached
      obtain ⟨point', found, recorded⟩ := ih (by omega) (by omega)
        (fun l below => mem_layer_of_le (by omega) (predAt_mem x k)) (h.record started before)
      refine ⟨point', ?_, recorded⟩
      have goes := h.advance low reached
      simp only [links] at goes
      simp only [findInsertionPoint, skip_eq inside, Option.bind_eq_bind, Option.bind_some, goes, found]

/-- **The search of `addOrGetData` and `remove`.** -/
theorem WellFormed.findInsertionPoint (h : WellFormed lt s xs lh) (x : T) :
    ∃ point, findInsertionPointGetMaxLayer lt s x = some point ∧ Recorded lt s xs lh x 0 point := by
  have start : RecordedBelow lt s xs lh x s.height s.height .unset := RecordedBelow.start rfl rfl
  obtain ⟨point, found, recorded⟩ := h.findInsertionPoint_spec (Nat.le_refl _) (Nat.le_refl _)
    (fun _ _ => List.mem_cons_self) start
  exact ⟨point, found, recorded.recorded h⟩

/-- A search that finds a layer has the equivalent node there, and it is the highest layer
of that node. -/
theorem Recorded.present {point : InsertionPoint} {l : Nat} (h : Layers lt s xs lh)
    (r : Recorded lt s xs lh x 0 point) (found : point.foundLayer = some l) :
    ∃ q ∈ xs, IncompRel lt (s.keyOf q) x ∧ lh q = l + 1 ∧ point.succs l = some q := by
  obtain ⟨q, -, hq, same, linked, -⟩ := r.found l found
  have low : l < s.height := by
    have := h.linked q hq
    omega
  refine ⟨q, hq, same, linked, ?_⟩
  rw [r.succs l (Nat.zero_le l) low, h.succAt_eq_of_incompRel hq same (by omega)]

/-- The nodes that a search recorded are neighbours. -/
theorem Recorded.adjacent {point : InsertionPoint} {l : Nat} (h : Layers lt s xs lh)
    (r : Recorded lt s xs lh x 0 point) (low : l < s.height) :
    ∃ p, point.preds l = some p ∧ Adjacent lt s xs lh x l p (point.succs l) := by
  have reached : predAt lt s xs lh x l ∈ s.head :: layer lh l (under lt s.keyOf x xs) :=
    predAt_mem x l
  refine ⟨_, r.preds l (Nat.zero_le l) low, ?_, ?_, ?_⟩
  · rcases List.mem_cons.mp reached with head | mem
    · exact .inl head
    · obtain ⟨mem, linked⟩ := mem_layer.mp mem
      obtain ⟨hp, below⟩ := mem_under.mp mem
      exact .inr ⟨hp, linked, below⟩
  · rw [r.succs l (Nat.zero_le l) low, h.links_predAt x low]
  · intro q first
    rw [r.succs l (Nat.zero_le l) low] at first
    exact (succAt_mem first).2.2

omit [IsStrictWeakOrder T lt] in
/-- Going up the layers, the search returns to no predecessor it has left. -/
theorem WellFormed.predAt_stays (h : WellFormed lt s xs lh) {j l : Nat} (le : j ≤ l) (low : l + 1 < s.height)
    (same : predAt lt s xs lh x (l + 1) = predAt lt s xs lh x j) :
    predAt lt s xs lh x l = predAt lt s xs lh x j := by
  have nodup : (s.head :: layer lh j (under lt s.keyOf x xs)).Nodup :=
    (h.levels.chain j (by omega)).nodup.sublist
      ((List.filter_sublist.filter _).cons_cons _)
  obtain ⟨w, ends⟩ := exists_append_getLastD s.head (layer lh j (under lt s.keyOf x xs))
  have sub : (s.head :: layer lh l (under lt s.keyOf x xs)).Sublist
      (s.head :: layer lh j (under lt s.keyOf x xs)) := by
    refine List.Sublist.cons_cons _ ?_
    apply List.monotone_filter_right _
    intro p linked
    simp only [decide_eq_true_eq] at linked ⊢
    omega
  have mem : predAt lt s xs lh x j ∈ s.head :: layer lh l (under lt s.keyOf x xs) := by
    rw [← same]
    exact mem_layer_of_le (Nat.le_succ l) (predAt_mem x (l + 1))
  change s.head :: _ = w ++ [predAt lt s xs lh x j] at ends
  rw [ends] at sub nodup
  obtain ⟨left, right, split, subLeft, subRight⟩ := List.sublist_append_iff.mp sub
  have apart : predAt lt s xs lh x j ∉ w := fun again =>
    (List.nodup_append.mp nodup).2.2 _ again _ List.mem_cons_self rfl
  rcases List.sublist_singleton.mp subRight with rfl | rfl
  · rw [split, List.append_nil] at mem
    exact absurd (subLeft.subset mem) apart
  · rw [predAt, getLastD_of_append split]
    rfl

/-! ### Finding a node -/

omit [IsStrictWeakOrder T lt] in
theorem WellFormed.succAt_zero (h : WellFormed lt s xs lh) (x : T) :
    succAt lt s xs lh x 0 = (onward lt s.keyOf x xs).head? := by
  rw [succAt, layer_eq_self fun p hp => (h.linked p (mem_onward.mp hp).1).1]

/-- A successor that is above the key rules out equivalent nodes in its layer. -/
theorem WellFormed.none_linked (h : WellFormed lt s xs lh) {l : Nat}
    (above : less lt s x (succAt lt s xs lh x l) = true) :
    ∀ q ∈ xs, IncompRel lt (s.keyOf q) x → lh q ≤ l := by
  refine fun q hq same => Nat.le_of_not_lt fun linked => ?_
  rw [h.succAt_eq_of_incompRel hq same linked] at above
  exact same.2 (by simpa [less_some] using above)

/-- A link above the key is the link across the cut. -/
theorem WellFormed.links_eq_succAt (h : WellFormed lt s xs lh) {l pred : Nat} (low : l < s.height)
    (reached : pred ∈ s.head :: layer lh l (under lt s.keyOf x xs))
    (above : less lt s x (s.links l pred) = true) : s.links l pred = succAt lt s xs lh x l := by
  have stays : ConcurrentSkipList.advance lt s x l s.nextAddress pred (s.links l pred) =
      some (pred, s.links l pred) := by
    cases next : s.links l pred with
    | none => cases s.nextAddress <;> rfl
    | some p =>
        rw [next, less_some, decide_eq_true_eq] at above
        have notBelow : greater lt s x (some p) = false := by
          rw [greater_some, decide_eq_false_iff_not]
          exact fun below => irrefl x (IsTrans.trans _ _ _ above below)
        cases s.nextAddress <;> simp [ConcurrentSkipList.advance, notBelow]
  rw [h.advance low reached] at stays
  exact (Prod.mk.inj (Option.some.inj stays)).2.symm

/-- A successor that is not above the key is the node equivalent to it, which is the first
node of the list that is not below it. -/
theorem WellFormed.succAt_found (h : WellFormed lt s xs lh) {l : Nat}
    (stops : less lt s x (succAt lt s xs lh x l) = false) :
    ∃ q ∈ xs, IncompRel lt (s.keyOf q) x ∧ succAt lt s xs lh x l = some q ∧
      (onward lt s.keyOf x xs).head? = some q := by
  cases first : succAt lt s xs lh x l with
  | none => simp [first, less] at stops
  | some q =>
      obtain ⟨hq, -, notBelow⟩ := succAt_mem first
      have same : IncompRel lt (s.keyOf q) x := ⟨notBelow, by simpa [first, less_some] using stops⟩
      obtain ⟨rest, front⟩ := onward_eq_cons h.ascending hq same
      exact ⟨q, hq, same, rfl, by rw [front, List.head?_cons]⟩

/-- The `for` loop of `findNodeDownRight`. -/
theorem WellFormed.descend (h : WellFormed lt s xs lh) {pred ht : Nat} {node : Option Nat} (low : ht ≤ s.height)
    (reached : pred ∈ s.head :: layer lh ht (under lt s.keyOf x xs))
    (noneAbove : ∀ q ∈ xs, IncompRel lt (s.keyOf q) x → lh q ≤ ht)
    (bottom : ht = 0 → node = (onward lt s.keyOf x xs).head?) :
    ∃ ht' node', descend lt s x pred ht node = some (ht', node') ∧ ht' ≤ ht ∧
      (∀ q ∈ xs, IncompRel lt (s.keyOf q) x → lh q ≤ ht') ∧
      (ht' = 0 → node' = (onward lt s.keyOf x xs).head?) ∧ ∀ l, ht' = l + 1 → node' = s.links l pred := by
  induction ht generalizing node with
  | zero => exact ⟨0, node, rfl, Nat.le_refl _, noneAbove, bottom, fun _ contra => by cases contra⟩
  | succ ht ih =>
      have reached := mem_layer_of_le (Nat.le_succ ht) reached
      have inside : ht < (s.memory pred).height := by
        refine h.inside low ?_
        rw [h.split x ht, ← List.cons_append]
        exact List.mem_append_left _ reached
      by_cases above : less lt s x (s.links ht pred) = true
      · have across := h.links_eq_succAt low reached above
        obtain ⟨ht', node', down, le, rest⟩ := @ih (s.links ht pred) (by omega) reached
          (h.none_linked (across ▸ above)) fun zero => by
            subst zero
            rw [across, h.succAt_zero]
        refine ⟨ht', node', ?_, by omega, rest⟩
        simp only [links] at above down
        simp only [ConcurrentSkipList.descend, skip_eq inside, Option.bind_eq_bind, Option.bind_some,
          above, if_true, down]
      · refine ⟨ht + 1, s.links ht pred, ?_, Nat.le_refl _, noneAbove,
          (fun contra => by cases contra), ?_⟩
        · simp only [links] at above ⊢
          simp only [ConcurrentSkipList.descend, skip_eq inside, Option.bind_eq_bind, Option.bind_some,
            above, if_false, Bool.false_eq_true]
        · rintro l ⟨⟩
          rfl

/-- The outer loop of `findNodeDownRight`. -/
theorem WellFormed.findNodeFrom (h : WellFormed lt s xs lh) {fuel pred ht : Nat} {node : Option Nat}
    (low : ht ≤ s.height) (enough : ht < fuel)
    (reached : pred ∈ s.head :: layer lh ht (under lt s.keyOf x xs))
    (noneAbove : ∀ q ∈ xs, IncompRel lt (s.keyOf q) x → lh q ≤ ht)
    (bottom : ht = 0 → node = (onward lt s.keyOf x xs).head?) :
    ∃ found, findNodeFrom lt s x fuel pred ht node =
        some ((onward lt s.keyOf x xs).head?, found) ∧
      (found = true ↔ ∃ q ∈ xs, IncompRel lt (s.keyOf q) x) := by
  induction fuel generalizing pred ht node with
  | zero => cases enough
  | succ fuel ih =>
      obtain ⟨ht', node', down, le, noneAbove', bottom', next⟩ := h.descend low reached noneAbove bottom
      simp only [ConcurrentSkipList.findNodeFrom, down, Option.bind_eq_bind, Option.bind_some]
      cases ht' with
      | zero =>
          refine ⟨false, by rw [bottom' rfl], ⟨(fun contra => by cases contra), ?_⟩⟩
          rintro ⟨q, hq, same⟩
          have := noneAbove' q hq same
          have := (h.linked q hq).1
          omega
      | succ l =>
          obtain rfl := next l rfl
          have goes := h.advance (x := x) (l := l) (by omega) (mem_layer_of_le (by omega) reached)
          simp only [goes, Option.bind_some]
          by_cases above : less lt s x (succAt lt s xs lh x l) = true
          · simp only [above, if_true]
            apply ih (by omega) (by omega) (predAt_mem x l) (h.none_linked above)
            intro zero
            rw [zero, h.succAt_zero]
          · obtain ⟨q, hq, same, first, front⟩ := h.succAt_found (Bool.eq_false_iff.mpr above)
            simp only [above, if_false, Bool.false_eq_true]
            exact ⟨true, by rw [first, front], fun _ => ⟨q, hq, same⟩, fun _ => rfl⟩

/-- **`findNodeDownRight`** returns the first node that is not below the key, and whether it
is equivalent to it. -/
theorem WellFormed.findNode (h : WellFormed lt s xs lh) (x : T) :
    ∃ found, findNode lt s x = some ((onward lt s.keyOf x xs).head?, found) ∧
      (found = true ↔ ∃ q ∈ xs, IncompRel lt (s.keyOf q) x) :=
  h.findNodeFrom (Nat.le_refl _) (Nat.lt_succ_self _) List.mem_cons_self
    (fun q hq _ => Nat.le_trans (h.linked q hq).2.1 (h.linked q hq).2.2)
    fun zero => absurd h.positive (by omega)

/-- The loop of `findNodeRightDown`. -/
theorem WellFormed.findNodeRightFrom (h : WellFormed lt s xs lh) {k pred : Nat} {node : Option Nat}
    (low : k ≤ s.height) (reached : pred ∈ s.head :: layer lh k (under lt s.keyOf x xs))
    (noneAbove : ∀ q ∈ xs, IncompRel lt (s.keyOf q) x → lh q ≤ k)
    (bottom : k = 0 → node = (onward lt s.keyOf x xs).head?) :
    ∃ found, findNodeRightFrom lt s x k pred node =
        some ((onward lt s.keyOf x xs).head?, found) ∧
      (found = true ↔ ∃ q ∈ xs, IncompRel lt (s.keyOf q) x) := by
  induction k generalizing pred node with
  | zero =>
      refine ⟨false, ?_, (fun contra => nomatch contra), ?_⟩
      · rw [bottom rfl, ConcurrentSkipList.findNodeRightFrom]
      · rintro ⟨q, hq, same⟩
        have := noneAbove q hq same
        have := (h.linked q hq).1
        omega
  | succ k ih =>
      have reached := mem_layer_of_le (Nat.le_succ k) reached
      have inside : k < (s.memory pred).height := by
        apply h.inside low
        rw [h.split x k, ← List.cons_append]
        exact List.mem_append_left _ reached
      have goes := h.advance (x := x) low reached
      simp only [links] at goes
      simp only [ConcurrentSkipList.findNodeRightFrom, skip_eq inside, Option.bind_eq_bind,
        Option.bind_some, goes]
      by_cases above : less lt s x (succAt lt s xs lh x k) = true
      · simp only [above, if_true]
        apply ih (by omega) (predAt_mem x k) (h.none_linked above)
        rintro rfl
        rw [h.succAt_zero]
      · obtain ⟨q, hq, same, first, front⟩ := h.succAt_found (Bool.eq_false_iff.mpr above)
        simp only [above, if_false, Bool.false_eq_true]
        exact ⟨true, by rw [first, front], fun _ => ⟨q, hq, same⟩, fun _ => rfl⟩

/-- **`findNodeRightDown`** returns the same. -/
theorem WellFormed.findNodeRightDown (h : WellFormed lt s xs lh) (x : T) :
    ∃ found, findNodeRightDown lt s x = some ((onward lt s.keyOf x xs).head?, found) ∧
      (found = true ↔ ∃ q ∈ xs, IncompRel lt (s.keyOf q) x) :=
  h.findNodeRightFrom (Nat.le_refl _) List.mem_cons_self
    (fun q hq _ => Nat.le_trans (h.linked q hq).2.1 (h.linked q hq).2.2)
    fun zero => absurd h.positive (by omega)

/-- A linear scan of the bottom layer: the first node that is not below the key. -/
def scan (lt : T → T → Prop) [DecidableRel lt] (s : ConcurrentSkipList T) (xs : List Nat) (x : T) :
    Option Nat :=
  xs.find? fun p => !decide (lt (s.keyOf p) x)

/-- **The two searches agree with a linear scan.** On every well-formed list both come back,
without a stray access, with the first node of the bottom layer that is not below the key,
and both say whether it is equivalent to the key. -/
theorem searches_agree (h : WellFormed lt s xs fun p => (s.memory p).height) (x : T) :
    ∃ found, findNodeDownRight lt s x = some (scan lt s xs x, found) ∧
      findNodeRightDown lt s x = some (scan lt s xs x, found) ∧
      (found = true ↔ ∃ q, scan lt s xs x = some q ∧ IncompRel lt (s.keyOf q) x) := by
  have scanned : (onward lt s.keyOf x xs).head? = scan lt s xs x := List.head?_filter ..
  have equivalent : (∃ q ∈ xs, IncompRel lt (s.keyOf q) x) ↔
      ∃ q, scan lt s xs x = some q ∧ IncompRel lt (s.keyOf q) x := by
    constructor
    · rintro ⟨q, hq, same⟩
      obtain ⟨rest, front⟩ := onward_eq_cons h.ascending hq same
      exact ⟨q, by rw [← scanned, front, List.head?_cons], same⟩
    · rintro ⟨q, first, same⟩
      exact ⟨q, List.mem_of_find?_eq_some first, same⟩
  obtain ⟨found, downRight, iff⟩ := h.findNode x
  obtain ⟨found', rightDown, iff'⟩ := h.findNodeRightDown x
  have same : found' = found := Bool.eq_iff_iff.mpr (iff'.trans iff.symm)
  rw [scanned] at downRight rightDown
  exact ⟨found, downRight, same ▸ rightDown, iff.trans equivalent⟩

/-- Two nodes behind a head of height 2: the first is low, the second is as high as the
head. -/
def twoTowers : ConcurrentSkipList Nat where
  memory
    | 0 => { SkipListNode.create 2 0 with isHead := true, skip := fun l => if l = 0 then some 1 else some 2 }
    | 1 => { SkipListNode.create 1 5 with skip := fun _ => some 2 }
    | 2 => SkipListNode.create 2 7
    | _ => SkipListNode.create 0 0
  nextAddress := 3
  nodeQueues _ := []
  head := 0
  size := 2

theorem twoTowers_wellFormed :
    WellFormed (· < ·) twoTowers [1, 2] fun p => (twoTowers.memory p).height where
  levels := ⟨fun l low => by
    match l, low with
    | 0, _ => exact ⟨rfl, rfl, rfl, rfl⟩
    | 1, _ => exact ⟨rfl, rfl, rfl⟩⟩
  positive := by decide
  ascending := List.pairwise_pair.mpr (by decide)
  linked := by decide
  allocated := by decide

theorem natOrder : IsStrictWeakOrder Nat (· < ·) := isStrictWeakOrder_of_isOrderConnected

/-- Between the two nodes both searches stop at the second. -/
theorem searches_agree_two_towers :
    WellFormed (· < ·) twoTowers [1, 2] (fun p => (twoTowers.memory p).height) ∧
      scan (· < ·) twoTowers [1, 2] 6 = some 2 ∧
      findNodeDownRight (· < ·) twoTowers 6 = findNodeRightDown (· < ·) twoTowers 6 := by
  have := natOrder
  obtain ⟨found, downRight, rightDown, -⟩ := searches_agree twoTowers_wellFormed 6
  exact ⟨twoTowers_wellFormed, by decide, downRight.trans rightDown.symm⟩

theorem WellFormed.find_present (h : WellFormed lt s xs lh) {q : Nat} (hq : q ∈ xs)
    (same : IncompRel lt (s.keyOf q) x) (unmarked : (s.memory q).marked = false) :
    findUnmarked lt s x = some (some q) := by
  obtain ⟨found, search, iff⟩ := h.findNode x
  obtain ⟨rest, front⟩ := onward_eq_cons h.ascending hq same
  rw [front, iff.mpr ⟨q, hq, same⟩] at search
  simp [findUnmarked, search, unmarked]

theorem WellFormed.find_absent (h : WellFormed lt s xs lh) (absent : ∀ q ∈ xs, ¬ IncompRel lt (s.keyOf q) x) :
    findUnmarked lt s x = some none := by
  obtain ⟨found, search, iff⟩ := h.findNode x
  have missing : found = false := Bool.eq_false_iff.mpr fun yes =>
    (iff.mp yes).elim fun q found => absent q found.1 found.2
  simp only [findUnmarked, search, missing, Option.bind_eq_bind, Option.bind_some, Bool.false_and,
    Bool.false_eq_true, if_false]
  split <;> rfl

/-! ### The last node -/

omit [DecidableRel lt] [IsStrictWeakOrder T lt] in
/-- The inner loop of `last` runs to the end of the layer. -/
theorem runRight_spec {l fuel pred : Nat} {ys : List Nat} (chain : Chain (s.links l) (s.links l pred) ys)
    (inside : ∀ p ∈ pred :: ys, l < (s.memory p).height) (enough : ys.length < fuel) :
    runRight s l fuel pred = some (ys.getLastD pred) := by
  induction ys generalizing pred fuel with
  | nil =>
      cases fuel with
      | zero => exact nomatch enough
      | succ fuel =>
          have ends : (s.memory pred).skip l = none := chain
          simp [runRight, skip_eq (inside pred List.mem_cons_self), ends]
  | cons p ys ih =>
      cases fuel with
      | zero => exact nomatch enough
      | succ fuel =>
          have goes : (s.memory pred).skip l = some p := chain.1
          simp only [runRight, skip_eq (inside pred List.mem_cons_self), goes, Option.bind_eq_bind,
            Option.bind_some, List.getLastD_cons]
          exact ih chain.2 (fun q hq => inside q (List.mem_cons_of_mem _ hq))
            (Nat.lt_of_succ_lt_succ enough)

omit [DecidableRel lt] [IsStrictWeakOrder T lt] in
theorem WellFormed.lastFrom (h : WellFormed lt s xs lh) {k : Nat} (low : k ≤ s.height) :
    lastFrom s k ((layer lh k xs).getLastD s.head) = some (xs.getLastD s.head) := by
  induction k with
  | zero => rw [h.layer_zero, ConcurrentSkipList.lastFrom]
  | succ k ih =>
      have reached : (layer lh (k + 1) xs).getLastD s.head ∈ s.head :: layer lh k xs :=
        mem_layer_of_le (Nat.le_succ k) (getLastD_mem ..)
      obtain ⟨before, after, split⟩ := List.append_of_mem reached
      have chain := h.levels.chain k low
      rw [split] at chain
      have members : ∀ p ∈ (layer lh (k + 1) xs).getLastD s.head :: after,
          p ∈ s.head :: layer lh k xs := fun p hp => split ▸ List.mem_append_right _ hp
      have sub : after ⊆ xs := by
        intro p hp
        have later : p ∈ layer lh k xs := mem_of_append split hp
        exact (mem_layer.mp later).1
      have runs := runRight_spec chain.from_mem (fun p hp => h.inside low (members p hp))
        (Nat.lt_succ_of_le (h.length_le chain.from_mem sub))
      simp only [ConcurrentSkipList.lastFrom, runs, Option.bind_eq_bind, Option.bind_some]
      rw [← getLastD_of_append split]
      exact ih (by omega)

omit [DecidableRel lt] [IsStrictWeakOrder T lt] in
/-- **`last`**. -/
theorem WellFormed.last (h : WellFormed lt s xs lh) : last s = some xs.getLast? := by
  have ends := h.lastFrom (Nat.le_refl _)
  rw [layer_eq_nil fun p hp => Nat.le_trans (h.linked p hp).2.1 (h.linked p hp).2.2] at ends
  simp only [ConcurrentSkipList.last, List.getLastD_nil] at ends ⊢
  simp only [ends, Option.bind_eq_bind, Option.bind_some]
  cases hxs : xs.getLast? with
  | none =>
      rw [List.getLast?_eq_none_iff.mp hxs]
      simp
  | some p =>
      have other : p ≠ s.head := ne_of_mem_of_not_mem (List.mem_of_getLast? hxs) h.nodup.1
      rw [List.getLastD_eq_getLast?, hxs]
      simp [other]

end Hcl.ConcurrentSkipList
