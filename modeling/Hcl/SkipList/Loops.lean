import Hcl.SkipList.Search
import Hcl.SkipList.Recycler

/-!
The loops of the skip list under guards, run alone.

On layers at rest, `lockNodesForChange` takes the guards of the predecessors, each once, and
finds every layer valid; the loops of `addOrGetData` and `remove` then link or unlink the
node one layer after the other.
-/

namespace Hcl.ConcurrentSkipList

open Hcl.Lib

variable {T : Type} {lt : T → T → Prop} {s s' : ConcurrentSkipList T} {xs xs' : List Nat}
  {lh lh' : Nat → Nat} {x : T} {point : InsertionPoint} {node : Nat}

/-! ### Guards -/

/-- The list with the guards of some nodes taken, and no others. -/
def withGuards (guards : List Nat) (s : ConcurrentSkipList T) : ConcurrentSkipList T :=
  { s with memory := fun p => { s.memory p with locked := decide (p ∈ guards) } }

theorem withGuards_nil (unlocked : ∀ p, (s.memory p).locked = false) : s.withGuards [] = s := by
  refine ConcurrentSkipList.ext (funext ?_) rfl rfl rfl rfl
  intro p
  exact SkipListNode.ext rfl rfl rfl rfl (by simp [withGuards, unlocked]) rfl rfl

theorem acquireGuard_withGuards {p : Nat} {guards : List Nat} (free : p ∉ guards) :
    (s.withGuards guards).acquireGuard p = some (s.withGuards (p :: guards)) := by
  have unlocked : ((s.withGuards guards).memory p).locked = false := by simpa [withGuards] using free
  simp only [acquireGuard, unlocked, Bool.false_eq_true, if_false, Option.some.injEq]
  refine ConcurrentSkipList.ext (funext ?_) rfl rfl rfl rfl
  intro q
  by_cases here : q = p
  · rw [here, modify_self]
    simp [withGuards]
  · rw [modify_of_ne p _ _ here]
    simp [withGuards, here]

/-- Releasing guards changes nothing but the locks. -/
theorem releaseGuards_eq (guards : List Nat) (s : ConcurrentSkipList T) :
    s.releaseGuards guards = { s with memory := fun p =>
      { s.memory p with locked := (s.memory p).locked && decide (p ∉ guards) } } := by
  induction guards generalizing s with
  | nil => simp [releaseGuards]
  | cons p guards ih =>
      have rest : s.releaseGuards (p :: guards) = (s.releaseGuard p).releaseGuards guards := rfl
      rw [rest, ih]
      refine ConcurrentSkipList.ext (funext ?_) rfl rfl rfl rfl
      intro q
      by_cases here : q = p
      · subst here
        simp [releaseGuard]
      · simp [releaseGuard, modify_of_ne p _ s here, here]

/-- The layers do not depend on the locks. -/
theorem Layers.withLocks (h : Layers lt s xs lh) (locked : Nat → Bool) :
    Layers lt { s with memory := fun p => { s.memory p with locked := locked p } } xs lh :=
  h.congr rfl (fun _ _ => rfl) (fun _ _ _ => rfl) (fun _ _ => rfl) (Nat.le_refl _) h.clean

theorem Stock.withLocks {used : Nat → Prop} (h : Stock s used) (locked : Nat → Bool) :
    Stock { s with memory := fun p => { s.memory p with locked := locked p } } used :=
  h.congr rfl rfl (fun _ => rfl) fun _ => Iff.rfl

/-- A layer whose predecessor and successor are as the search found them. -/
structure Untouched (s : ConcurrentSkipList T) (adding : Bool) (point : InsertionPoint) (l : Nat) :
    Prop where
  pred : ∃ p, point.preds l = some p ∧ l < (s.memory p).height ∧ (s.memory p).marked = false ∧
    s.links l p = point.succs l
  succ : adding = true → ∀ r, point.succs l = some r → (s.memory r).marked = false

/-- **Alone, `lockNodesForChange` succeeds.** The predecessors are taken from right to left, so
the guard it needs is its last one or a free one. -/
theorem lockNodesForChange_spec {adding : Bool} {remaining l : Nat} {prevPred : Option Nat}
    {guards : List Nat} (untouched : ∀ m < l + remaining, Untouched s adding point m)
    (stays : ∀ j m, j ≤ m → m + 1 < l + remaining → point.preds (m + 1) = point.preds j →
      point.preds m = point.preds j)
    (taken : ∀ p ∈ guards, ∃ j < l, point.preds j = some p)
    (prev : ∀ m, l = m + 1 → prevPred = point.preds m) :
    ∃ guards', lockNodesForChange point adding remaining l prevPred guards (s.withGuards guards) =
      some (s.withGuards guards', guards', true) := by
  induction remaining generalizing l prevPred guards with
  | zero => exact ⟨guards, rfl⟩
  | succ remaining ih =>
      obtain ⟨⟨p, pred, inside, unmarked, next⟩, succ⟩ := untouched l (by omega)
      obtain ⟨guards', locks, taken'⟩ : ∃ guards',
          guardLayer p prevPred guards (s.withGuards guards) = some (s.withGuards guards', guards') ∧
            ∀ q ∈ guards', ∃ j < l + 1, point.preds j = some q := by
        by_cases same : some p = prevPred
        · refine ⟨guards, if_pos same, ?_⟩
          intro q hq
          obtain ⟨j, less, found⟩ := taken q hq
          exact ⟨j, by omega, found⟩
        · refine ⟨p :: guards, ?_, ?_⟩
          · have free : p ∉ guards := fun held => by
              obtain ⟨j, less, found⟩ := taken p held
              obtain ⟨m, rfl⟩ : ∃ m, l = m + 1 := ⟨l - 1, by omega⟩
              have again := stays j m (by omega) (by omega) (pred.trans found.symm)
              exact same (by rw [prev m rfl, again, found])
            simp only [guardLayer, if_neg same, acquireGuard_withGuards free, Option.map_some]
          · intro q hq
            rcases List.mem_cons.mp hq with rfl | hq
            · exact ⟨l, by omega, pred⟩
            · obtain ⟨j, less, found⟩ := taken q hq
              exact ⟨j, by omega, found⟩
      have valid : validLayer (s.withGuards guards') adding l p (point.succs l) = some true := by
        have height : l < ((s.withGuards guards').memory p).height := inside
        have marks : ∀ r, ((s.withGuards guards').memory r).marked = (s.memory r).marked := fun _ => rfl
        have skips : ((s.withGuards guards').memory p).skip l = point.succs l := next
        simp only [validLayer, marks, unmarked, Bool.false_eq_true, if_false, skip_eq height, skips,
          Option.bind_eq_bind, Option.bind_some, BEq.rfl, Bool.true_and, Option.some.injEq,
          Bool.or_eq_true, Bool.not_eq_true']
        cases adding with
        | false => exact .inl rfl
        | true =>
            refine .inr ?_
            cases first : point.succs l with
            | none => rfl
            | some r => simp [succ rfl r first]
      have last : ∀ m, l + 1 = m + 1 → some p = point.preds m := by
        rintro m ⟨⟩
        exact pred.symm
      obtain ⟨guards'', rest⟩ := ih (fun m less => untouched m (by omega))
        (fun j m le less => stays j m le (by omega)) taken' last
      refine ⟨guards'', ?_⟩
      simp only [lockNodesForChange, pred, locks, valid, Option.bind_eq_bind, Option.bind_some, if_true,
        rest]

section Locks

variable [DecidableRel lt]

theorem Recorded.succ_mem (r : Recorded lt s xs lh x 0 point) {l q : Nat} (low : l < s.height)
    (first : point.succs l = some q) : q ∈ xs := by
  rw [r.succs l (Nat.zero_le l) low] at first
  exact (succAt_mem first).1

/-- A search stays valid while the data and the head stay. -/
theorem Recorded.congr (r : Recorded lt s xs lh x 0 point) (keyOf : s'.keyOf = s.keyOf)
    (head : s'.head = s.head) (height : s'.height = s.height) : Recorded lt s' xs lh x 0 point := by
  obtain ⟨preds, succs, found, notFound⟩ := r
  refine ⟨?_, ?_, ?_, ?_⟩ <;> simp only [predAt, succAt, keyOf, head, height] at * <;> assumption

/-- After a search, `lockNodesForChange` finds every layer as the search did. -/
theorem Layers.locks [IsStrictWeakOrder T lt] (h : Layers lt s xs lh)
    (r : Recorded lt s xs lh x 0 point) (adding : Bool) {height : Nat} (low : height ≤ s.height)
    (unlocked : ∀ p, (s.memory p).locked = false) (head : (s.memory s.head).marked = false)
    (below : ∀ p ∈ xs, lt (s.keyOf p) x → (s.memory p).marked = false)
    (succs : adding = true → ∀ p ∈ xs, (s.memory p).marked = false) :
    ∃ guards, lockNodesForChange point adding height 0 none [] s =
      some (s.withGuards guards, guards, true) := by
  have untouched : ∀ l < 0 + height, Untouched s adding point l := by
    intro l less
    have low : l < s.height := by omega
    obtain ⟨p, pred, gap⟩ := r.adjacent h low
    refine ⟨⟨p, pred, ?_, ?_, gap.next⟩, fun adds q first => succs adds q (r.succ_mem low first)⟩
    · rw [r.preds l (Nat.zero_le l) low] at pred
      cases pred
      refine h.inside low ?_
      rw [h.split x l, ← List.cons_append]
      exact List.mem_append_left _ (predAt_mem x l)
    · rcases gap.pred with rfl | ⟨hp, -, lower⟩
      · exact head
      · exact below p hp lower
  have stays : ∀ j m, j ≤ m → m + 1 < 0 + height → point.preds (m + 1) = point.preds j →
      point.preds m = point.preds j := by
    intro j m le less same
    rw [r.preds _ (Nat.zero_le _) (by omega), r.preds _ (Nat.zero_le _) (by omega)] at same ⊢
    exact congrArg some (h.predAt_stays le (by omega) (Option.some.inj same))
  have start : ∃ guards, lockNodesForChange point adding height 0 none [] (s.withGuards []) =
      some (s.withGuards guards, guards, true) :=
    lockNodesForChange_spec untouched stays (by simp) fun _ contra => nomatch contra
  rwa [withGuards_nil unlocked] at start

end Locks

/-! ### Links -/

/-- Nothing but links was written. -/
structure SameButLinks (s s' : ConcurrentSkipList T) : Prop where
  head : s'.head = s.head
  nextAddress : s'.nextAddress = s.nextAddress
  nodeQueues : s'.nodeQueues = s.nodeQueues
  size : s'.size = s.size
  node : ∀ q, { s'.memory q with skip := (s.memory q).skip } = s.memory q

theorem SameButLinks.refl (s : ConcurrentSkipList T) : SameButLinks s s := ⟨rfl, rfl, rfl, rfl, fun _ => rfl⟩

theorem SameButLinks.trans {s'' : ConcurrentSkipList T} (h : SameButLinks s s') (h' : SameButLinks s' s'') :
    SameButLinks s s'' where
  head := h'.head.trans h.head
  nextAddress := h'.nextAddress.trans h.nextAddress
  nodeQueues := h'.nodeQueues.trans h.nodeQueues
  size := h'.size.trans h.size
  node q := by rw [← h.node q, ← h'.node q]

theorem SameButLinks.writeSkip (s : ConcurrentSkipList T) (p l : Nat) (q : Option Nat) :
    SameButLinks s (s.writeSkip p l q) := by
  refine ⟨rfl, rfl, rfl, rfl, ?_⟩
  intro r
  by_cases here : r = p
  · rw [here, ConcurrentSkipList.writeSkip, modify_self]
  · rw [ConcurrentSkipList.writeSkip, modify_of_ne p _ s here]

/-- A part of the nodes other than the links is kept. -/
theorem SameButLinks.part (h : SameButLinks s s') {A : Type} (part : SkipListNode T → A)
    (keeps : ∀ (n : SkipListNode T) skip, part { n with skip := skip } = part n) (q : Nat) :
    part (s'.memory q) = part (s.memory q) := by
  have same := keeps (s'.memory q) (s.memory q).skip
  rw [h.node q] at same
  exact same.symm

theorem SameButLinks.keyOf (h : SameButLinks s s') : s'.keyOf = s.keyOf :=
  funext (h.part SkipListNode.data fun _ _ => rfl)

theorem SameButLinks.height (h : SameButLinks s s') (q : Nat) :
    (s'.memory q).height = (s.memory q).height := h.part SkipListNode.height (fun _ _ => rfl) q

/-- Neighbours stay neighbours while their link and the predecessor's place stay. -/
theorem Adjacent.congr {l p : Nat} {q : Option Nat} (gap : Adjacent lt s xs lh x l p q)
    (head : s'.head = s.head) (keyOf : ∀ r, r = p ∨ q = some r → s'.keyOf r = s.keyOf r)
    (pred : p ∈ xs → l < lh p → lt (s.keyOf p) x → p ∈ xs' ∧ l < lh' p)
    (links : s'.links l p = s.links l p) : Adjacent lt s' xs' lh' x l p q where
  pred := by
    rw [head, keyOf p (.inl rfl)]
    rcases gap.pred with same | ⟨hp, linked, below⟩
    · exact .inl same
    · obtain ⟨hp', linked'⟩ := pred hp linked below
      exact .inr ⟨hp', linked', below⟩
  next := links.trans gap.next
  succ r first := by
    rw [keyOf r (.inr first)]
    exact gap.succ r first

theorem Adjacent.inside {l p : Nat} {q : Option Nat} (gap : Adjacent lt s xs lh x l p q)
    (h : Layers lt s xs lh) (low : l < s.height) : l < (s.memory p).height := by
  refine h.inside low ?_
  rcases gap.pred with rfl | ⟨hp, linked, -⟩
  · exact List.mem_cons_self
  · exact List.mem_cons_of_mem _ (mem_layer.mpr ⟨hp, linked⟩)

theorem links_writeSkip_of_ne {p l : Nat} {q : Option Nat} {m r : Nat} (other : m ≠ l ∨ r ≠ p) :
    (s.writeSkip p l q).links m r = s.links m r := by
  rw [writeSkip_links]
  by_cases here : m = l
  · rw [here, Function.update_self, Function.update_of_ne (other.resolve_left (absurd here))]
  · rw [Function.update_of_ne here]

theorem links_writeSkip_self {p l : Nat} {q : Option Nat} : (s.writeSkip p l q).links l p = q := by
  rw [writeSkip_links, Function.update_self, Function.update_self]

variable [IsStrictWeakOrder T lt]

/-- A predecessor of a node's data is another node. -/
theorem Adjacent.ne {l p : Nat} {q : Option Nat} (gap : Adjacent lt s xs lh (s.keyOf node) l p q)
    (outHead : node ≠ s.head) : p ≠ node := by
  rintro rfl
  rcases gap.pred with same | ⟨-, -, below⟩
  · exact outHead same
  · exact irrefl _ below

/-- Around the node that a search found, the recorded nodes are its own neighbours. -/
theorem Recorded.adjacent_node [DecidableRel lt] (h : Layers lt s xs lh)
    (r : Recorded lt s xs lh x 0 point) (hn : node ∈ xs) (same : IncompRel lt (s.keyOf node) x) {l : Nat}
    (linked : l < lh node) :
    point.succs l = some node ∧
      ∃ p, point.preds l = some p ∧ Adjacent lt s xs lh (s.keyOf node) l p (some node) := by
  have low : l < s.height := by
    have := h.linked node hn
    omega
  have succ : point.succs l = some node := by
    rw [r.succs l (Nat.zero_le l) low, h.succAt_eq_of_incompRel hn same linked]
  obtain ⟨p, pred, gap⟩ := r.adjacent h low
  rw [succ] at gap
  refine ⟨succ, p, pred, ?_, gap.next, ?_⟩
  · rcases gap.pred with head | ⟨hp, linked, below⟩
    · exact .inl head
    · exact .inr ⟨hp, linked, lt_of_lt_of_incompRel below same.symm⟩
  · rintro q ⟨⟩
    exact irrefl _

/-- Both writes of a layer, with what they leave for the layers above. -/
theorem linkLayer_eq {k p : Nat} (pred : point.preds k = some p) (inNode : k < (s.memory node).height)
    (inPred : k < (s.memory p).height) :
    linkLayer point node k s =
      some ((s.writeSkip node k (point.succs k)).writeSkip p k (some node)) := by
  have inPred' : k < ((s.writeSkip node k (point.succs k)).memory p).height := by
    rwa [writeSkip_height]
  simp only [linkLayer, setSkip_eq inNode, pred, Option.bind_eq_bind, Option.bind_some,
    setSkip_eq inPred']

variable [DecidableRel lt]

/-- The loop over the layers above the bottom. -/
theorem linkLayers_upper {k remaining : Nat} (h : Layers lt s xs lh) (hn : node ∈ xs)
    (linked : lh node = k) (height : (s.memory node).height = k + remaining)
    (gaps : ∀ l, k ≤ l → l < k + remaining →
      ∃ p, point.preds l = some p ∧ Adjacent lt s xs lh (s.keyOf node) l p (point.succs l)) :
    ∃ s', linkLayers point node remaining k s = some s' ∧ SameButLinks s s' ∧
      Layers lt s' xs (Function.update lh node (k + remaining)) := by
  induction remaining generalizing k s lh with
  | zero =>
      refine ⟨s, rfl, .refl s, ?_⟩
      rw [Nat.add_zero, ← linked, Function.update_eq_self]
      exact h
  | succ remaining ih =>
      have outHead : node ≠ s.head := ne_of_mem_of_not_mem hn h.nodup.1
      have top := (h.linked node hn).2.2
      obtain ⟨p, pred, gap⟩ := gaps k (Nat.le_refl k) (by omega)
      let s₁ := s.writeSkip node k (point.succs k)
      have keyOf : s₁.keyOf = s.keyOf := writeSkip_keyOf ..
      have prepared : Layers lt s₁ xs lh := h.prepare outHead (fun _ => by omega) top
      have gap₁ : Adjacent lt s₁ xs lh (s₁.keyOf node) k p (point.succs k) := by
        rw [keyOf]
        exact gap.congr rfl (fun r _ => congrFun keyOf r) (fun hp linked _ => ⟨hp, linked⟩)
          (links_writeSkip_of_ne (.inr (gap.ne outHead)))
      have inNode : k < (s₁.memory node).height := by
        rw [writeSkip_height]
        omega
      have published := prepared.publish hn linked inNode gap₁ links_writeSkip_self
      have same := (SameButLinks.writeSkip s node k (point.succs k)).trans
        (SameButLinks.writeSkip s₁ p k (some node))
      obtain ⟨s', links, same', layers⟩ := ih published (Function.update_self ..)
        (by rw [same.height]; omega) fun l above below => by
          obtain ⟨r, pred, gap⟩ := gaps l (by omega) (by omega)
          refine ⟨r, pred, ?_⟩
          rw [same.keyOf]
          refine gap.congr rfl (fun r _ => congrFun same.keyOf r) (fun hr linked _ => ⟨hr, ?_⟩) ?_
          · rwa [Function.update_of_ne (gap.ne outHead)]
          · rw [links_writeSkip_of_ne (.inl (by omega)), links_writeSkip_of_ne (.inl (by omega))]
      refine ⟨s', ?_, same.trans same', ?_⟩
      · simp only [linkLayers, linkLayer_eq pred (by omega : k < (s.memory node).height)
          (gap.inside h (by omega)), Option.bind_eq_bind, Option.bind_some]
        exact links
      · rw [Function.update_idem, Nat.succ_add_eq_add_succ] at layers
        exact layers

/-- **The loop that links a new node.** -/
theorem linkLayers_spec {height : Nat} (h : Layers lt s xs lh) (outside : node ∉ s.head :: xs)
    (allocated : node < s.nextAddress) (high : (s.memory node).height = height) (positive : 0 < height)
    (low : height ≤ s.height) (distinct : ∀ p ∈ xs, ¬ IncompRel lt (s.keyOf p) (s.keyOf node))
    (gaps : ∀ l < height,
      ∃ p, point.preds l = some p ∧ Adjacent lt s xs lh (s.keyOf node) l p (point.succs l)) :
    ∃ s', linkLayers point node height 0 s = some s' ∧ SameButLinks s s' ∧
      Layers lt s' (under lt s.keyOf (s.keyOf node) xs ++ node :: onward lt s.keyOf (s.keyOf node) xs)
        (Function.update lh node height) := by
  obtain ⟨outHead, outList⟩ := not_or.mp (mt List.mem_cons.mpr outside)
  obtain ⟨remaining, rfl⟩ : ∃ remaining, height = remaining + 1 := ⟨height - 1, by omega⟩
  obtain ⟨p, pred, gap⟩ := gaps 0 positive
  let s₁ := s.writeSkip node 0 (point.succs 0)
  have keyOf : s₁.keyOf = s.keyOf := writeSkip_keyOf ..
  have prepared : Layers lt s₁ xs lh := h.prepare outHead (fun hn => absurd hn outList) (by omega)
  have gap₁ : Adjacent lt s₁ xs lh (s₁.keyOf node) 0 p (point.succs 0) := by
    rw [keyOf]
    exact gap.congr rfl (fun r _ => congrFun keyOf r) (fun hp linked _ => ⟨hp, linked⟩)
      (links_writeSkip_of_ne (.inr (gap.ne outHead)))
  have top : s₁.height = s.height := writeSkip_height ..
  have published := prepared.publish_bottom outside (by rw [writeSkip_height]; omega)
    (by rw [writeSkip_height, top]; omega) allocated (by rw [keyOf]; exact distinct) gap₁
    links_writeSkip_self
  rw [keyOf] at published
  have same := (SameButLinks.writeSkip s node 0 (point.succs 0)).trans
    (SameButLinks.writeSkip s₁ p 0 (some node))
  obtain ⟨s', links, same', layers⟩ := linkLayers_upper published
    (List.mem_append_right _ List.mem_cons_self) (Function.update_self ..)
    (show _ = 1 + remaining by rw [same.height]; omega) fun l above below => by
      obtain ⟨r, pred, gap⟩ := gaps l (by omega)
      refine ⟨r, pred, ?_⟩
      rw [same.keyOf]
      refine gap.congr rfl (fun r _ => congrFun same.keyOf r) (fun hr linked below => ⟨?_, ?_⟩) ?_
      · exact List.mem_append_left _ (mem_under.mpr ⟨hr, below⟩)
      · rwa [Function.update_of_ne (gap.ne outHead)]
      · rw [links_writeSkip_of_ne (.inl (by omega)), links_writeSkip_of_ne (.inl (by omega))]
  refine ⟨s', ?_, same.trans same', ?_⟩
  · simp only [linkLayers, linkLayer_eq pred (by omega : 0 < (s.memory node).height)
      (gap.inside h h.positive), Option.bind_eq_bind, Option.bind_some]
    exact links
  · rw [Function.update_idem, Nat.add_comm] at layers
    exact layers

theorem unlinkLayer_eq {k p : Nat} (pred : point.preds k = some p) (inNode : k < (s.memory node).height)
    (inPred : k < (s.memory p).height) :
    unlinkLayer point node k s = some (s.writeSkip p k (s.links k node)) := by
  simp only [unlinkLayer, pred, skip_eq inNode, Option.bind_eq_bind, Option.bind_some, setSkip_eq inPred]
  rfl

/-- **The loop that unlinks a node**, from its highest layer down. -/
theorem unlinkLayers_spec {k : Nat} (h : Layers lt s xs lh) (hn : node ∈ xs) (linked : lh node = k + 1)
    (gaps : ∀ l < k + 1,
      ∃ p, point.preds l = some p ∧ Adjacent lt s xs lh (s.keyOf node) l p (some node)) :
    ∃ s', unlinkLayers point node (k + 1) s = some s' ∧ SameButLinks s s' ∧
      Layers lt s' (xs.erase node) (Function.update lh node 0) := by
  induction k generalizing s lh with
  | zero =>
      have heights := h.linked node hn
      obtain ⟨p, pred, gap⟩ := gaps 0 (by omega)
      refine ⟨_, ?_, .writeSkip s p 0 (s.links 0 node), h.unlink_bottom hn linked gap⟩
      simp only [unlinkLayers, unlinkLayer_eq pred (by omega : 0 < (s.memory node).height)
        (gap.inside h (by omega)), Option.bind_eq_bind, Option.bind_some]
  | succ k ih =>
      have outHead : node ≠ s.head := ne_of_mem_of_not_mem hn h.nodup.1
      have heights := h.linked node hn
      obtain ⟨p, pred, gap⟩ := gaps (k + 1) (by omega)
      have same := SameButLinks.writeSkip s p (k + 1) (s.links (k + 1) node)
      obtain ⟨s', links, same', layers⟩ := ih (h.unlink hn linked (Nat.succ_pos k) gap)
        (Function.update_self ..) fun l below => by
          obtain ⟨r, pred, gap⟩ := gaps l (by omega)
          refine ⟨r, pred, ?_⟩
          rw [same.keyOf]
          refine gap.congr rfl (fun r _ => congrFun same.keyOf r) (fun hr linked _ => ⟨hr, ?_⟩)
            (links_writeSkip_of_ne (.inl (by omega)))
          rwa [Function.update_of_ne (gap.ne outHead)]
      refine ⟨s', ?_, same.trans same', ?_⟩
      · rw [unlinkLayers]
        simp only [unlinkLayer_eq pred (by omega : k + 1 < (s.memory node).height)
          (gap.inside h (by omega)), Option.bind_eq_bind, Option.bind_some]
        exact links
      · rwa [Function.update_idem] at layers

end Hcl.ConcurrentSkipList
