import Hcl.SkipList.Steps

/-!
What a thread learns from a search or a validation, and the changes it makes with that: the
guards of `lockNodesForChange`, and the links of a node written one by one.
-/

namespace Hcl.ConcurrentSkipList

open Hcl.Lib

variable {T : Type} {lt : T → T → Prop} {s : ConcurrentSkipList T} {xs xs' : List Nat}
  {lh lh' : Nat → Nat} {x : T} {point : InsertionPoint} {guards : List Nat} {l n : Nat}

/-! ### What a thread learns -/

theorem Adjacent.seen {p : Nat} {q : Option Nat} (gap : Adjacent lt s xs lh x l p q)
    (pred : point.preds l = some p) : Seen lt s xs lh point x l := ⟨p, pred, .inr gap.pred⟩

theorem Seen.live {p : Nat} (seen : Seen lt s xs lh point x l) (pred : point.preds l = some p) :
    Live s xs p := by
  obtain ⟨q, found, ref⟩ := seen
  obtain rfl := Option.some.inj (pred.symm.trans found)
  exact ref.live

/-- A valid layer: the predecessor is unmarked and still points at the successor. -/
theorem Seen.valid {adding : Bool} {pred : Nat} (seen : Seen lt s xs lh point x l)
    (found : point.preds l = some pred) (guarded : pred ∈ guards)
    (valid : validLayer s adding l pred (point.succs l) = some true)
    (succ : ∀ r, point.succs l = some r → ¬ lt (s.keyOf r) x) : Valid lt s xs lh point x guards l := by
  obtain ⟨p, found', ref⟩ := seen
  obtain rfl := Option.some.inj (found.symm.trans found')
  unfold validLayer at valid
  split at valid
  · cases valid
  · rename_i unmarked
    obtain ⟨next, link, agrees⟩ := Option.bind_eq_some_iff.mp valid
    obtain ⟨inside, rfl⟩ : l < (s.memory pred).height ∧ (s.memory pred).skip l = next := by
      unfold skip at link
      split at link
      · rename_i inside
        exact ⟨inside, Option.some.inj link⟩
      · cases link
    have same : (s.memory pred).skip l = point.succs l := by
      simp only [Option.some.injEq, Bool.and_eq_true, beq_iff_eq] at agrees
      exact agrees.1
    exact ⟨pred, found, guarded, Bool.eq_false_iff.mpr unmarked, ref.resolve_left unmarked, same, succ⟩

/-- The predecessor of a valid layer is in the list. -/
theorem Valid.listed {p : Nat} (valid : Valid lt s xs lh point x guards l) (pred : point.preds l = some p) :
    p ∈ s.head :: xs := by
  obtain ⟨q, found, -, -, gap⟩ := valid
  obtain rfl := Option.some.inj (pred.symm.trans found)
  exact List.mem_cons.mpr (gap.pred.imp_right And.left)

section Search

variable [DecidableRel lt] [IsStrictWeakOrder T lt]

/-- So is its successor. -/
theorem Valid.succ_listed {r : Nat} (valid : Valid lt s xs lh point x guards l) (layers : Layers lt s xs lh)
    (low : l < s.height) (succ : point.succs l = some r) : r ∈ xs := by
  obtain ⟨p, -, -, -, gap⟩ := valid
  exact (succAt_mem ((layers.adjacent low gap).2.symm.trans succ)).1

/-- After a search of `addOrGetData` that found nothing. -/
theorem Recorded.guard_add (layers : Layers lt s xs lh) (r : Recorded lt s xs lh x 0 point)
    (missing : point.foundLayer = none) (draw : Nat → Bool) :
    (Local.guard (.add x) point (getHeight draw s.height) 0 none []).Inv lt s xs lh := by
  have absent := r.absent layers missing
  have bounds := getHeight_bounds draw layers.positive
  refine ⟨bounds, ?_, fun l low => absurd low (Nat.not_lt_zero l), Nat.zero_le _,
    (fun p contra => nomatch contra), fun p contra => nomatch contra⟩
  intro l less
  have low : l < s.height := Nat.lt_of_lt_of_le less bounds.2
  obtain ⟨p, pred, gap⟩ := r.adjacent layers low
  refine ⟨gap.seen pred, ?_⟩
  intro q succ
  have listed := r.succ_mem low succ
  exact ⟨Classical.not_not.mp fun notAbove => absent q listed ⟨gap.succ q succ, notAbove⟩, .inr (.inr listed)⟩

/-- After a search of `remove` that found a node. -/
theorem Recorded.candidate {layer candidate : Nat} (layers : Layers lt s xs lh)
    (r : Recorded lt s xs lh x 0 point) (found : point.foundLayer = some layer)
    (succ : point.succs layer = some candidate) : Candidate lt s xs lh x point layer candidate := by
  obtain ⟨q, listed, same, linked, found⟩ := r.present layers found
  obtain rfl := Option.some.inj (succ.symm.trans found)
  refine ⟨.inr (.inr listed), ?_, same, ?_⟩
  · have := (layers.linked candidate listed).2.1
    omega
  · intro l le
    obtain ⟨succ, p, pred, gap⟩ := r.adjacent_node layers listed same (by omega : l < lh candidate)
    exact ⟨gap.seen pred, succ⟩

/-- After a later search of `remove`, which has marked its node. -/
theorem Recorded.guard_remove {node : Nat} (layers : Layers lt s xs lh) (r : Recorded lt s xs lh x 0 point)
    (condemned : Condemned lt s xs lh x node) :
    (Local.guard (.remove x node) point (s.memory node).height 0 none []).Inv lt s xs lh := by
  refine ⟨⟨condemned, rfl⟩, ?_, fun l low => absurd low (Nat.not_lt_zero l), Nat.zero_le _,
    (fun p contra => nomatch contra), fun p contra => nomatch contra⟩
  intro l less
  obtain ⟨succ, p, pred, gap⟩ := r.adjacent_node layers condemned.mem condemned.same
    (condemned.whole ▸ less : l < lh node)
  exact ⟨gap.seen pred, succ⟩

/-- Between a valid predecessor and a successor above the key there is no equivalent node. -/
theorem Valid.distinct (layers : Layers lt s xs lh) (valid : Valid lt s xs lh point x guards 0)
    (above : Above lt s xs point x 0) : ∀ p ∈ xs, ¬ IncompRel lt (s.keyOf p) x := by
  intro p listed same
  obtain ⟨q, -, -, -, gap⟩ := valid
  have next := (layers.adjacent layers.positive gap).2
  rw [layers.succAt_eq_of_incompRel listed same (layers.linked p listed).1] at next
  exact same.2 (above p next).1

end Search

/-! ### Taking guards -/

variable {m : Machine T} {t : Nat}

section Guards

variable {change : Change T} {nodeHeight layer : Nat} {prevPred : Option Nat} {s' : ConcurrentSkipList T}

/-- The guard of one layer. -/
theorem Machine.Inv.guard_layer {pred : Nat} {guards' : List Nat} (inv : m.Inv lt xs lh)
    (here : m.threads t = .guard change point nodeHeight layer prevPred guards) (low : layer < nodeHeight)
    (found : point.preds layer = some pred) (taken : guardLayer pred prevPred guards m.list = some (s', guards')) :
    (m.after t s' (.validate change point nodeHeight layer pred guards') []).Inv lt xs lh := by
  have knows := inv.threads t
  rw [here] at knows
  obtain ⟨ready, seen, valid, -, prev, named⟩ := knows
  have weaker : ∀ more, guards ⊆ more → pred ∈ more → (∀ p ∈ more, p = pred ∨ p ∈ guards) →
      (Local.validate change point nodeHeight layer pred more).Inv lt m.list xs lh := by
    refine fun more sub mem only => ⟨ready, seen, ?_, low, found, mem, ?_⟩
    · intro l less
      obtain ⟨p, pred, guarded, rest⟩ := valid l less
      exact ⟨p, pred, sub guarded, rest⟩
    · intro p hp
      rcases only p hp with rfl | hp
      · exact ⟨layer, Nat.lt_succ_self _, found⟩
      · obtain ⟨l, less, named⟩ := named p hp
        exact ⟨l, Nat.lt_succ_of_lt less, named⟩
  unfold guardLayer at taken
  split at taken
  · rename_i same
    obtain ⟨rfl, rfl⟩ := Prod.mk.inj (Option.some.inj taken)
    refine inv.move (weaker guards (List.Subset.refl _) (prev pred same.symm) fun p hp => .inr hp) ?_ ?_ ?_
    · rw [here]
      cases change <;> rfl
    · rw [here]
      exact fun _ _ _ => rfl
    · rw [here]
      exact List.Subset.refl _
  · obtain ⟨s₁, guard, same⟩ := Option.map_eq_some_iff.mp taken
    obtain ⟨rfl, rfl⟩ := Prod.mk.inj same
    refine inv.acquire guard ((seen layer low).1.live found)
      (weaker _ (List.subset_cons_self _ _) List.mem_cons_self fun p hp => List.mem_cons.mp hp) ?_ ?_ ?_
    · rw [here]
      cases change <;> rfl
    · rw [here]
      exact fun _ _ _ => rfl
    · rw [here]
      exact List.Subset.refl _

/-- All layers are valid. -/
theorem Machine.Inv.guarded (inv : m.Inv lt xs lh)
    (here : m.threads t = .guard change point nodeHeight layer prevPred guards) (done : ¬ layer < nodeHeight) :
    (m.after t m.list (change.proceed point nodeHeight guards) []).Inv lt xs lh := by
  have knows := inv.threads t
  rw [here] at knows
  obtain ⟨ready, seen, valid, le, -, named⟩ := knows
  obtain rfl : layer = nodeHeight := by omega
  cases change with
  | add x =>
      refine inv.move ⟨ready, fun l low => ⟨valid l low, (seen l low).2⟩, named⟩ ?_ (fun _ _ mine => nomatch mine) ?_
      · rw [here]
        rfl
      · rw [here]
        exact List.Subset.refl _
  | remove x node =>
      obtain ⟨condemned, rfl⟩ := ready
      have positive := (inv.layers.linked node condemned.mem).1
      rw [condemned.whole] at positive
      refine inv.move ⟨⟨condemned.mem, condemned.marked, positive, condemned.whole⟩,
        fun l low => ⟨valid l low, (seen l low).2⟩⟩ ?_ ?_ ?_
      · rw [here]
        rfl
      · rw [here]
        exact fun _ _ _ => rfl
      · rw [here]
        exact List.Subset.refl _

/-- The validation of one layer. -/
theorem Machine.Inv.validate_layer [IsStrictWeakOrder T lt] {pred : Nat} {valid : Bool} (inv : m.Inv lt xs lh)
    (here : m.threads t = .validate change point nodeHeight layer pred guards)
    (checked : validLayer m.list change.adding layer pred (point.succs layer) = some valid) :
    (m.after t m.list (if valid then .guard change point nodeHeight (layer + 1) (some pred) guards
      else .retry change guards) []).Inv lt xs lh := by
  have knows := inv.threads t
  rw [here] at knows
  obtain ⟨ready, seen, below, low, found, guarded, named⟩ := knows
  cases valid with
  | true =>
      have succ : ∀ r, point.succs layer = some r → ¬ lt (m.list.keyOf r) (change.key m.list) := by
        intro r succ
        cases change with
        | add x => exact asymm ((seen layer low).2 r succ).1
        | remove x node =>
            obtain rfl := Option.some.inj ((seen layer low).2.symm.trans succ)
            exact irrefl _
      have now := (seen layer low).1.valid found guarded checked succ
      refine inv.move ⟨ready, seen, ?_, low, ?_, named⟩ ?_ ?_ ?_
      · intro l less
        rcases Nat.lt_succ_iff_lt_or_eq.mp less with less | rfl
        · exact below l less
        · exact now
      · rintro p ⟨⟩
        exact guarded
      · rw [here]
        cases change <;> rfl
      · rw [here]
        exact fun _ _ _ => rfl
      · rw [here]
        exact List.Subset.refl _
  | false =>
      refine inv.move ?_ ?_ ?_ ?_
      · cases change with
        | add x => trivial
        | remove x node => exact ready.1
      · rw [here]
        cases change <;> rfl
      · rw [here]
        exact fun _ _ _ => rfl
      · rw [here]
        exact List.Subset.refl _

/-- A failed round. -/
theorem Machine.Inv.restart (inv : m.Inv lt xs lh) (here : m.threads t = .retry change guards) :
    (m.after t (m.list.releaseGuards guards) change.restart []).Inv lt xs lh := by
  have knows := inv.threads t
  have held : (m.threads t).held = guards := by rw [here]; rfl
  rw [here] at knows
  rw [← held]
  refine inv.release ⟨rfl, rfl, rfl, fun _ => .of_memory rfl⟩ (fun _ => rfl) ?_ ?_ ?_ ?_
  · cases change with
    | add x => trivial
    | remove x node => exact knows
  · rw [here]
    cases change <;> rfl
  · rw [here]
    intro p key mine
    cases change with
    | add x => cases mine
    | remove x node => rfl
  · cases change <;> rfl

end Guards

/-! ### Linking and unlinking -/

section Links

variable {a k : Nat} {q : Option Nat}

theorem setSkip_some {s' : ConcurrentSkipList T} (set : s.setSkip a k q = some s') :
    k < (s.memory a).height ∧ s' = s.writeSkip a k q := by
  unfold setSkip at set
  split at set
  · rename_i inside
    exact ⟨inside, (Option.some.inj set).symm⟩
  · cases set

theorem writeSkip_marked (p : Nat) : ((s.writeSkip a k q).memory p).marked = (s.memory p).marked :=
  (SameButLinks.writeSkip s a k q).part SkipListNode.marked (fun _ _ => rfl) p

theorem writeSkip_fullyLinked (p : Nat) :
    ((s.writeSkip a k q).memory p).fullyLinked = (s.memory p).fullyLinked :=
  (SameButLinks.writeSkip s a k q).part SkipListNode.fullyLinked (fun _ _ => rfl) p

/-- A layer stays valid while another link is written. -/
theorem Valid.writeSkip [IsStrictWeakOrder T lt] (valid : Valid lt s xs lh point (s.keyOf n) guards l)
    (outHead : n ≠ s.head) (others : ∀ p ≠ n, (p ∈ xs' ↔ p ∈ xs) ∧ lh' p = lh p)
    (apart : ∀ p ≠ n, l ≠ k ∨ p ≠ a) :
    Valid lt (s.writeSkip a k q) xs' lh' point ((s.writeSkip a k q).keyOf n) guards l := by
  obtain ⟨p, pred, guarded, unmarked, gap⟩ := valid
  have away := gap.ne outHead
  refine ⟨p, pred, guarded, (writeSkip_marked p).trans unmarked, ?_⟩
  rw [writeSkip_keyOf]
  refine gap.congr rfl (fun r _ => congrFun (writeSkip_keyOf ..) r) ?_
    (links_writeSkip_of_ne (apart p away))
  intro listed linked _
  rw [(others p away).1, (others p away).2]
  exact ⟨listed, linked⟩

theorem Above.writeSkip (above : Above lt s xs point (s.keyOf n) l) (sub : xs ⊆ xs') :
    Above lt (s.writeSkip a k q) xs' point ((s.writeSkip a k q).keyOf n) l := by
  intro r succ
  obtain ⟨higher, live⟩ := above r succ
  rw [writeSkip_keyOf]
  refine ⟨higher, ?_⟩
  rw [Live, writeSkip_marked]
  exact live.imp_right (.imp_right (sub ·))

theorem Growing.writeSkip {height j j' : Nat} (growing : Growing s xs lh height n j)
    (list : n ∈ xs' ↔ 0 < j') (linked : 0 < j' → lh' n = j') :
    Growing (s.writeSkip a k q) xs' lh' height n j' where
  head := growing.head
  height := (writeSkip_height ..).trans growing.height
  marked := (writeSkip_marked n).trans growing.marked
  full := (writeSkip_fullyLinked n).trans growing.full
  list := list
  linked := linked

/-- A node that is linked in no layer yet is not live. -/
theorem Growing.dead {height : Nat} (growing : Growing s xs lh height n 0) : ¬ Live s xs n := by
  rintro (marked | head | listed)
  · rw [growing.marked] at marked
    cases marked
  · exact growing.head head
  · exact Nat.lt_irrefl 0 (growing.list.mp listed)

variable {nodeHeight : Nat}

/-- The data of the new node are stored. -/
theorem Machine.Inv.add_store (inv : m.Inv lt xs lh) (here : m.threads t = .addStore x point nodeHeight guards n) :
    (m.after t (m.list.storeData n x) (.addPrepare point nodeHeight guards n 0) []).Inv lt xs lh := by
  have knows := inv.threads t
  have held := inv.guards t
  have own : (m.threads t).own = some n := by rw [here]; rfl
  rw [here] at knows held
  obtain ⟨bounds, gaps, growing⟩ := knows
  have outside : n ∉ m.list.head :: xs := fun mem => growing.dead (.inr (List.mem_cons.mp mem))
  have low : (m.list.memory n).height ≤ m.list.height := growing.height.symm ▸ bounds.2
  have elsewhere : ∀ p, Live m.list xs p → (m.list.storeData n x).memory p = m.list.memory p := fun p live =>
    modify_of_ne n _ m.list fun same => growing.dead (same ▸ live)
  have top : (m.list.storeData n x).height = m.list.height :=
    congrArg SkipListNode.height (elsewhere m.list.head (.inr (.inl rfl)))
  have atNode : (m.list.storeData n x).memory n = { m.list.memory n with data := x } := modify_self ..
  have knows' : (Local.addPrepare point nodeHeight guards n 0).Inv lt (m.list.storeData n x) xs lh := by
    refine ⟨top ▸ bounds, ?_, growing.head, ?_, ?_, ?_, growing.list, growing.linked⟩
    · rw [show (m.list.storeData n x).keyOf n = x from congrArg SkipListNode.data atNode]
      exact gaps_stable (fun l _ => gaps l) (fun p _ live => .of_memory (elsewhere p live) rfl)
        fun p mem => .of_memory (elsewhere p (held p mem).2) id
    · rw [← growing.height, atNode]
    · rw [← growing.marked, atNode]
    · rw [← growing.full, atNode]
  refine inv.write_own own rfl rfl rfl (fun live => absurd live growing.dead)
    (inv.layers.modify_outside outside low) knows' (by rw [here]; rfl) ?_ fun notMine => absurd rfl notMine
  rintro p ⟨⟩
  refine ⟨rfl, (inv.owned t n own).trans ?_⟩
  rw [here]
  rfl

/-- The link of the new node is set in its next layer. -/
theorem Machine.Inv.add_prepare [IsStrictWeakOrder T lt] (inv : m.Inv lt xs lh)
    (here : m.threads t = .addPrepare point nodeHeight guards n k) :
    (m.after t (m.list.writeSkip n k (point.succs k)) (.addPublish point nodeHeight guards n k) []).Inv
      lt xs lh := by
  have knows := inv.threads t
  have own : (m.threads t).own = some n := by rw [here]; rfl
  rw [here] at knows
  obtain ⟨bounds, gaps, growing⟩ := knows
  have low : (m.list.memory n).height ≤ m.list.height := growing.height.symm ▸ bounds.2
  have unlinked : n ∈ xs → lh n ≤ k := fun listed => Nat.le_of_eq (growing.linked (growing.list.mp listed))
  have layers := inv.layers.prepare (q := point.succs k) growing.head unlinked low
  have top : (m.list.writeSkip n k (point.succs k)).height = m.list.height := writeSkip_height ..
  refine inv.write_own own rfl rfl rfl (fun live => ⟨rfl, id, ?_⟩) layers
    ⟨top ▸ bounds, ?_, growing.writeSkip growing.list growing.linked,
      links_writeSkip_self⟩ (by rw [here]; rfl) ?_ fun notMine => absurd rfl notMine
  · intro l linked
    -- The layers in which the node is linked are below `k`.
    have listed : n ∈ xs := by
      rcases live with marked | head | listed
      · rw [growing.marked] at marked
        cases marked
      · exact absurd head growing.head
      · exact listed
    exact Function.update_of_ne (Nat.ne_of_lt (Nat.lt_of_lt_of_le linked (unlinked listed))) ..
  · intro l from' less
    obtain ⟨valid, above⟩ := gaps l from' less
    exact ⟨valid.writeSkip growing.head (fun _ _ => ⟨Iff.rfl, rfl⟩) fun p away => .inr away,
      above.writeSkip (List.Subset.refl _)⟩
  · rintro p ⟨⟩
    refine ⟨rfl, (inv.owned t n own).trans ?_⟩
    rw [here]
    rfl

/-- The new node is fully linked. -/
theorem Machine.Inv.add_finish (inv : m.Inv lt xs lh) (here : m.threads t = .addFinish guards n) :
    (m.after t (m.list.setFullyLinked n) (.addSize guards) []).Inv lt xs lh := by
  have knows := inv.threads t
  have own : (m.threads t).own = some n := by rw [here]; rfl
  have logged := inv.owned t n own
  rw [here] at knows logged
  obtain ⟨height, positive, growing⟩ := knows
  have settled : Settled (m.list.setFullyLinked n) xs lh m.log n := by
    have atNode : (m.list.setFullyLinked n).memory n = { m.list.memory n with fullyLinked := true } :=
      modify_self ..
    refine ⟨fun _ => ⟨?_, ?_, ?_⟩, fun out => absurd (growing.list.mpr positive) out⟩
    · rw [atNode, growing.linked positive, ← growing.height]
    · rw [atNode, ← growing.marked]
    · rw [keyOf, atNode]
      exact logged
  exact inv.write_own own rfl rfl rfl (fun _ => ⟨rfl, fun _ => rfl, fun _ _ => rfl⟩)
    (inv.layers.modify n rfl rfl rfl) trivial (by rw [here]; rfl) (fun p mine => by cases mine) fun _ => settled

variable [IsStrictWeakOrder T lt]

/-- What the thread knows when its node is linked in one more layer. -/
theorem Growing.published {height : Nat} (gaps : ∀ l, k ≤ l → l < height →
      Valid lt s xs lh point (s.keyOf n) guards l ∧ Above lt s xs point (s.keyOf n) l)
    (growing : Growing s xs lh height n k) (bounds : k < height ∧ height ≤ s.height)
    (others : ∀ p ≠ n, (p ∈ xs' ↔ p ∈ xs) ∧ lh' p = lh p) (sub : xs ⊆ xs') (listed : n ∈ xs')
    (linked : lh' n = k + 1) :
    (if k + 1 < height then Local.addPrepare point height guards n (k + 1)
      else .addFinish guards n).Inv lt (s.writeSkip a k q) xs' lh' := by
  have growing' : Growing (s.writeSkip a k q) xs' lh' height n (k + 1) :=
    growing.writeSkip (iff_of_true listed (Nat.succ_pos k)) fun _ => linked
  have top : (s.writeSkip a k q).height = s.height := writeSkip_height ..
  split
  · rename_i more
    refine ⟨⟨more, top ▸ bounds.2⟩, ?_, growing'⟩
    intro l from' less
    obtain ⟨valid, above⟩ := gaps l (by omega) less
    exact ⟨valid.writeSkip growing.head others fun _ _ => .inl (by omega), above.writeSkip sub⟩
  · obtain rfl : height = k + 1 := by omega
    exact ⟨k + 1, Nat.succ_pos k, growing'⟩

/-- The predecessor is pointed at the new node. -/
theorem Machine.Inv.add_publish [DecidableRel lt] (inv : m.Inv lt xs lh)
    (here : m.threads t = .addPublish point nodeHeight guards n k) (found : point.preds k = some a) :
    ∃ xs' lh', (m.after t (m.list.writeSkip a k (some n))
      (if k + 1 < nodeHeight then .addPrepare point nodeHeight guards n (k + 1) else .addFinish guards n)
      (if k + 1 < nodeHeight then [] else [.linked n (m.list.keyOf n)])).Inv lt xs' lh' := by
  have knows := inv.threads t
  have own : (m.threads t).own = some n := by rw [here]; rfl
  have held : (m.threads t).held = guards := by rw [here]; rfl
  have logged := inv.owned t n own
  rw [here] at knows logged
  obtain ⟨bounds, gaps, growing, ready⟩ := knows
  obtain ⟨⟨p, pred, guarded, -, gap⟩, above⟩ := gaps k (Nat.le_refl k) bounds.1
  obtain rfl := Option.some.inj (found.symm.trans pred)
  have inside : k < (m.list.memory n).height := growing.height.symm ▸ bounds.1
  -- The list and the heights after the write; the node enters the list in its first layer.
  obtain ⟨xs', lh', layers, others, sub, listed, linked⟩ : ∃ xs' lh',
      Layers lt (m.list.writeSkip a k (some n)) xs' lh' ∧ (∀ p ≠ n, (p ∈ xs' ↔ p ∈ xs) ∧ lh' p = lh p) ∧
        xs ⊆ xs' ∧ n ∈ xs' ∧ lh' n = k + 1 := by
    cases k with
    | zero =>
        have outside : n ∉ m.list.head :: xs := fun mem => growing.dead (.inr (List.mem_cons.mp mem))
        have distinct := (gaps 0 (Nat.le_refl 0) bounds.1).1.distinct inv.layers above
        have mem : ∀ p, p ∈ insertNode lt m.list (m.list.keyOf n) n xs ↔ p = n ∨ p ∈ xs := fun p =>
          mem_insertNode inv.layers.ascending
        refine ⟨_, _, inv.layers.publish_bottom outside inside (growing.height.symm ▸ bounds.2)
          (inv.own_allocated own) distinct gap ready, fun p away => ⟨?_, Function.update_of_ne away ..⟩,
          fun p listed => (mem p).mpr (.inr listed), (mem n).mpr (.inl rfl), Function.update_self ..⟩
        exact (mem p).trans (or_iff_right away)
    | succ k =>
        have listed := growing.list.mpr (Nat.succ_pos k)
        exact ⟨xs, _, inv.layers.publish listed (growing.linked (Nat.succ_pos k)) inside gap ready,
          fun p away => ⟨Iff.rfl, Function.update_of_ne away ..⟩, List.Subset.refl _, listed,
          Function.update_self ..⟩
  have knows' := growing.published (a := a) (q := some n) gaps bounds others sub listed linked
  have mine : n ∈ xs → n ∈ xs' ∧ lh n ≤ lh' n := fun before => by
    have := growing.linked (growing.list.mp before)
    exact ⟨listed, by omega⟩
  have pred := gap.pred.imp_right fun place => And.intro place.1 place.2.1
  refine ⟨xs', lh', ?_⟩
  split at knows' <;> rename_i more
  · rw [if_pos more, if_pos more]
    exact inv.write_link own (held ▸ guarded) pred others (.inr mine) layers knows' held.symm rfl inv.ordered
      (fun _ contra => nomatch contra) logged
  · rw [if_neg more, if_neg more]
    exact inv.write_link own (held ▸ guarded) pred others (.inr mine) layers knows' held.symm rfl
      ⟨logged, inv.ordered⟩ (fun e mem => by rw [List.mem_singleton.mp mem]; rfl) (if_pos rfl)

/-- The node loses its highest layer. -/
theorem Machine.Inv.remove_unlink [DecidableRel lt] (inv : m.Inv lt xs lh)
    (here : m.threads t = .removeUnlink point nodeHeight guards n (k + 1)) (found : point.preds k = some a) :
    ∃ xs' lh', (m.after t (m.list.writeSkip a k (m.list.links k n))
      (if 0 < k then .removeUnlink point nodeHeight guards n k else .removeSize guards n)
      (if 0 < k then [] else [.removed n])).Inv lt xs' lh' := by
  have knows := inv.threads t
  have own : (m.threads t).own = some n := by rw [here]; rfl
  have held : (m.threads t).held = guards := by rw [here]; rfl
  have logged := inv.owned t n own
  rw [here] at knows logged
  obtain ⟨⟨listed, marked, -, linked⟩, gaps⟩ := knows
  have outHead : n ≠ m.list.head := ne_of_mem_of_not_mem listed inv.layers.nodup.1
  obtain ⟨⟨p, pred, guarded, -, gap⟩, succ⟩ := gaps k (Nat.lt_succ_self k)
  obtain rfl := Option.some.inj (found.symm.trans pred)
  rw [succ] at gap
  have pred := gap.pred.imp_right fun place => And.intro place.1 place.2.1
  by_cases more : 0 < k
  · have others : ∀ p ≠ n, (p ∈ xs ↔ p ∈ xs) ∧ Function.update lh n k p = lh p := fun p away =>
      ⟨Iff.rfl, Function.update_of_ne away ..⟩
    refine ⟨xs, Function.update lh n k, ?_⟩
    rw [if_pos more, if_pos more]
    refine inv.write_link own (held ▸ guarded) pred others (.inl marked)
      (inv.layers.unlink listed linked more gap)
      ⟨⟨listed, (writeSkip_marked n).trans marked, more, Function.update_self ..⟩, ?_⟩ held.symm rfl
      inv.ordered (fun _ contra => nomatch contra) logged
    intro l less
    obtain ⟨valid, succ⟩ := gaps l (Nat.lt_succ_of_lt less)
    exact ⟨valid.writeSkip outHead others fun _ _ => .inl (Nat.ne_of_lt less), succ⟩
  · obtain rfl : k = 0 := by omega
    have nodup := inv.layers.nodup
    refine ⟨xs.erase n, Function.update lh n 0, ?_⟩
    rw [if_neg more, if_neg more]
    refine inv.write_link own (held ▸ guarded) pred
      (fun p away => ⟨List.mem_erase_of_ne away, Function.update_of_ne away ..⟩) (.inl marked)
      (inv.layers.unlink_bottom listed linked gap) ⟨(writeSkip_marked n).trans marked, ?_⟩ held.symm rfl
      ⟨logged, inv.ordered⟩ (fun e mem => by rw [List.mem_singleton.mp mem]; rfl) (if_pos rfl)
    exact fun mem => (List.mem_cons.mp mem).elim outHead nodup.2.not_mem_erase

end Links

end Hcl.ConcurrentSkipList
