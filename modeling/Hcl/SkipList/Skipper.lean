import Hcl.Lib.Runs
import Hcl.SkipList.Search

/-!
The finger search of `skip_list_accessor.h`: `class Skipper`.

A skipper stands before an element of a list that does not change. It keeps one node and one
link per layer, `preds_` and `succs_`, and starts the next search at a layer it guesses from
`hints_`. `++` refreshes only some layers, so the entries of higher layers may lie behind.
What makes them harmless is in `Stands`: the node of every layer has been passed, and the link
of every layer is that node's own. A search from any such node to a key that is not behind
finds what a search from the head finds.

The arrays have no valid entries at or above the height of the head at `init`; an access there
is stuck (`none`), as is one through a null pointer.
-/

namespace Hcl.ConcurrentSkipList

open Hcl.Lib

variable {T : Type}

/-- `class Skipper`. Its accessor holds the list. -/
structure Skipper where
  headHeight : Nat
  succs : Nat → Option Nat
  preds : Nat → Option Nat
  hints : Nat → UInt8

namespace Skipper

/-- `array[i]`. -/
def read {A : Type} (sk : Skipper) (array : Nat → A) (i : Nat) : Option A :=
  if i < sk.headHeight then some (array i) else none

/-- `array[i] = a`. -/
def write {A : Type} (sk : Skipper) (array : Nat → A) (i : Nat) (a : A) : Option (Nat → A) :=
  if i < sk.headHeight then some (Function.update array i a) else none

/-- `preds_[i] = pred; succs_[i] = pred->skip(i);`. -/
def setLayer (s : ConcurrentSkipList T) (i pred : Nat) (sk : Skipper) : Option Skipper := do
  let preds ← sk.write sk.preds i (some pred)
  let next ← s.skip pred i
  let succs ← sk.write sk.succs i next
  return { sk with preds := preds, succs := succs }

/-- The first loop of `init`, for the layers below `n`. -/
def initLayers (s : ConcurrentSkipList T) : Nat → Skipper → Option Skipper
  | 0, sk => some sk
  | n + 1, sk => do
      let sk ← initLayers s n sk
      sk.setLayer s n s.head

/-- The second loop of `init`, for the layers below `n`. -/
def initHints : Nat → Skipper → Option Skipper
  | 0, sk => some sk
  | n + 1, sk => do
      let sk ← initHints n sk
      let hints ← sk.write sk.hints n (n + 1).toUInt8
      return { sk with hints := hints }

/-- `init()`, over whatever the arrays hold; `maxLayer()` is `headHeight - 1`. -/
def init (s : ConcurrentSkipList T) (raw : Skipper) : Option Skipper := do
  let sk ← initLayers s s.height { raw with headHeight := s.height }
  let sk ← initHints (sk.headHeight - 1) sk
  let hints ← sk.write sk.hints (sk.headHeight - 1) (sk.headHeight - 1).toUInt8
  return { sk with hints := hints }

/-- `good()`. -/
def good (sk : Skipper) : Bool := (sk.succs 0).isSome

/-- `curHeight()`. -/
def curHeight (s : ConcurrentSkipList T) (sk : Skipper) : Option Nat := do
  match ← sk.read sk.succs 0 with
  | none => return 0
  | some p => return min sk.headHeight (s.memory p).height

/-- `for (int i = 1; i < height && preds_[0] == succs_[i]; ++i)` with `remaining` layers
to go. -/
def refresh (s : ConcurrentSkipList T) : Nat → Nat → Skipper → Option Skipper
  | 0, _, sk => some sk
  | remaining + 1, i, sk => do
      let first ← sk.read sk.preds 0
      let succ ← sk.read sk.succs i
      if first = succ then
        let pred ← succ
        let sk ← sk.setLayer s i pred
        refresh s remaining (i + 1) sk
      else return sk

/-- `operator++`. -/
def next (s : ConcurrentSkipList T) (sk : Skipper) : Option Skipper := do
  let current ← sk.read sk.succs 0
  let pred ← current
  let sk ← sk.setLayer s 0 pred
  let height ← sk.curHeight s
  sk.refresh s (height - 1) 1

section Search

variable (lt : T → T → Prop) [DecidableRel lt] (s : ConcurrentSkipList T)

/-- `while (greater(data, succs_[lyr]) && lyr < max_layer) ++lyr;` for at most `rounds`
rounds. -/
def climb (data : T) (sk : Skipper) : Nat → Nat → Option Nat
  | 0, _ => none
  | rounds + 1, lyr => do
      let succ ← sk.read sk.succs lyr
      if greater lt s data succ && decide (lyr < sk.headHeight - 1) then climb data sk rounds (lyr + 1)
      else return lyr

/-- `to(data)`. `findInsertionPoint` works on the skipper's own arrays, at `lyr` and the layers
below it. -/
def toData (data : T) (sk : Skipper) : Option (Skipper × Bool) := do
  match ← sk.curHeight s with
  | 0 => return (sk, false)
  | layer + 1 =>
      let hint ← sk.read sk.hints layer
      let lyr ← sk.climb lt s data sk.headHeight hint.toNat
      let hints ← sk.write sk.hints layer lyr.toUInt8
      let start ← sk.read sk.preds lyr
      let pred ← start
      let point ← findInsertionPoint lt s data (lyr + 1) pred ⟨sk.preds, sk.succs, none, none⟩
      let sk := { sk with hints := hints, preds := point.preds, succs := point.succs }
      match point.foundLayer with
      | none => return (sk, false)
      | some _ =>
          let current ← sk.succs 0
          return (sk, !(s.memory current).marked)

end Search

/-! ### Where a skipper stands -/

/-- The skipper has passed the nodes `passed` and stands before `rest`. -/
structure Stands (s : ConcurrentSkipList T) (lh : Nat → Nat) (passed rest : List Nat)
    (sk : Skipper) : Prop where
  height : sk.headHeight = s.height
  current : sk.succs 0 = rest.head?
  layers : ∀ l < s.height, ∃ p, sk.preds l = some p ∧ p ∈ s.head :: layer lh l passed ∧
    sk.succs l = s.links l p
  hints : ∀ l < s.height, (sk.hints l).toNat < s.height

variable {lt : T → T → Prop} {s : ConcurrentSkipList T} {xs passed rest : List Nat} {lh : Nat → Nat}
  {sk : Skipper}

theorem Stands.inside {l : Nat} (stands : sk.Stands s lh passed rest) (below : l < s.height) :
    l < sk.headHeight := by
  rw [stands.height]
  exact below

theorem read_eq {A : Type} {array : Nat → A} {i : Nat} (inside : i < sk.headHeight) :
    sk.read array i = some (array i) := if_pos inside

theorem write_eq {A : Type} {array : Nat → A} {i : Nat} {a : A} (inside : i < sk.headHeight) :
    sk.write array i a = some (Function.update array i a) := if_pos inside

/-- The layer `i` after `setLayer`, and the others. -/
def withLayer (s : ConcurrentSkipList T) (i pred : Nat) (sk : Skipper) : Skipper :=
  { sk with
    preds := Function.update sk.preds i (some pred)
    succs := Function.update sk.succs i (s.links i pred) }

theorem setLayer_eq {i pred : Nat} (inside : i < sk.headHeight) (high : i < (s.memory pred).height) :
    sk.setLayer s i pred = some (sk.withLayer s i pred) := by
  simp only [setLayer, write_eq inside, skip_eq high, Option.bind_eq_bind, Option.bind_some,
    Option.pure_def]
  rfl

/-- What `setLayer` makes of a layer. -/
theorem withLayer_layers {i pred : Nat} (here : pred ∈ s.head :: layer lh i passed) {l : Nat}
    (before : l ≠ i → ∃ p, sk.preds l = some p ∧ p ∈ s.head :: layer lh l passed ∧
      sk.succs l = s.links l p) :
    ∃ p, (sk.withLayer s i pred).preds l = some p ∧ p ∈ s.head :: layer lh l passed ∧
      (sk.withLayer s i pred).succs l = s.links l p := by
  by_cases same : l = i
  · subst same
    exact ⟨pred, Function.update_self .., here, Function.update_self ..⟩
  · obtain ⟨p, pred, hp, link⟩ := before same
    exact ⟨p, (Function.update_of_ne same ..).trans pred, hp,
      (Function.update_of_ne same ..).trans link⟩

/-! ### init -/

theorem initLayers_spec (height : sk.headHeight = s.height) {n : Nat} (low : n ≤ s.height) :
    ∃ sk', initLayers s n sk = some sk' ∧ sk'.headHeight = s.height ∧ sk'.hints = sk.hints ∧
      ∀ l < n, sk'.preds l = some s.head ∧ sk'.succs l = s.links l s.head := by
  induction n with
  | zero => exact ⟨sk, rfl, height, rfl, fun l contra => nomatch contra⟩
  | succ n ih =>
      obtain ⟨sk', filled, height', hints, layers⟩ := ih (by omega)
      have set : sk'.setLayer s n s.head = some (sk'.withLayer s n s.head) :=
        setLayer_eq (by omega) (show n < s.height by omega)
      refine ⟨sk'.withLayer s n s.head, ?_, height', hints, ?_⟩
      · simp only [initLayers, filled, Option.bind_eq_bind, Option.bind_some, set]
      · intro l below
        by_cases same : l = n
        · subst same
          exact ⟨Function.update_self .., Function.update_self ..⟩
        · obtain ⟨pred, succ⟩ := layers l (by omega)
          exact ⟨(Function.update_of_ne same ..).trans pred,
            (Function.update_of_ne same ..).trans succ⟩

/-- A hint is no higher than the layer it was made from. -/
theorem toNat_toUInt8_le (n : Nat) : n.toUInt8.toNat ≤ n := by
  rw [UInt8.toNat_ofNat']
  exact Nat.mod_le ..

theorem initHints_spec {n : Nat} (low : n < sk.headHeight) :
    ∃ sk', initHints n sk = some sk' ∧ sk'.headHeight = sk.headHeight ∧ sk'.preds = sk.preds ∧
      sk'.succs = sk.succs ∧ ∀ l < n, (sk'.hints l).toNat < sk.headHeight := by
  induction n with
  | zero => exact ⟨sk, rfl, rfl, rfl, rfl, fun l contra => nomatch contra⟩
  | succ n ih =>
      obtain ⟨sk', filled, height, preds, succs, hints⟩ := ih (by omega)
      refine ⟨{ sk' with hints := Function.update sk'.hints n (n + 1).toUInt8 }, ?_, height, preds,
        succs, ?_⟩
      · simp only [initHints, filled, Option.bind_eq_bind, Option.bind_some,
          write_eq (show n < sk'.headHeight by omega), Option.pure_def]
      · intro l below
        by_cases same : l = n
        · subst same
          simp only [Function.update_self]
          have := toNat_toUInt8_le (l + 1)
          omega
        · simp only [Function.update_of_ne same]
          exact hints l (by omega)

/-- **A new skipper stands before the whole list.** -/
theorem init_spec (h : WellFormed lt s xs lh) (raw : Skipper) :
    ∃ sk, init s raw = some sk ∧ sk.Stands s lh [] xs := by
  have positive := h.positive
  have height : ({ raw with headHeight := s.height } : Skipper).headHeight = s.height := rfl
  obtain ⟨sk₁, layers, height₁, -, filled⟩ := initLayers_spec height (Nat.le_refl _)
  have below : sk₁.headHeight - 1 < sk₁.headHeight := by omega
  obtain ⟨sk₂, hints, height₂, preds, succs, low⟩ := initHints_spec below
  have last : sk₂.headHeight - 1 < sk₂.headHeight := by omega
  let top := sk₂.headHeight - 1
  refine ⟨{ sk₂ with hints := Function.update sk₂.hints top top.toUInt8 }, ?_, ?_⟩
  · simp only [init, layers, hints, write_eq last, Option.bind_eq_bind, Option.bind_some,
      Option.pure_def, top]
  · constructor
    · exact height₂.trans height₁
    · show sk₂.succs 0 = xs.head?
      rw [succs, (filled 0 positive).2]
      exact h.bottom.2.start
    · intro l below
      obtain ⟨pred, succ⟩ := filled l below
      exact ⟨s.head, (congrFun preds l).trans pred, List.mem_cons_self, (congrFun succs l).trans succ⟩
    · intro l below
      show (Function.update sk₂.hints top top.toUInt8 l).toNat < s.height
      by_cases highest : l = top
      · have := toNat_toUInt8_le top
        rw [highest, Function.update_self]
        omega
      · rw [Function.update_of_ne highest]
        have := low l (by omega)
        omega

/-! ### ++ -/

/-- A link that leads from a node of a layer leads to a node of that layer. -/
theorem mem_layer_of_link (h : WellFormed lt s xs lh) {l p q : Nat} (below : l < s.height)
    (hp : p ∈ s.head :: layer lh l xs) (link : s.links l p = some q) : q ∈ layer lh l xs := by
  obtain ⟨before, after, split⟩ := List.append_of_mem hp
  have chain := h.levels.chain l below
  rw [split] at chain
  have first := chain.from_mem.start.symm.trans link
  exact mem_of_append split (List.mem_of_mem_head? first)

theorem curHeight_spec (stands : sk.Stands s lh passed rest) (positive : 0 < s.height) :
    ∃ height ≤ s.height, sk.curHeight s = some height := by
  have read : sk.read sk.succs 0 = some rest.head? := by
    rw [read_eq (stands.inside positive), stands.current]
  simp only [curHeight, read, Option.bind_eq_bind, Option.bind_some, Option.pure_def]
  cases rest.head? with
  | none => exact ⟨0, Nat.zero_le _, rfl⟩
  | some p => exact ⟨_, stands.height ▸ Nat.min_le_left _ _, rfl⟩

/-- The refreshed layers are those of the node that has just been passed. -/
theorem refresh_spec (h : WellFormed lt s xs lh) {current remaining i : Nat}
    (stands : sk.Stands s lh passed rest) (sub : passed ⊆ xs) (mem : current ∈ passed)
    (first : sk.preds 0 = some current) (above : 1 ≤ i) (below : i + remaining ≤ s.height) :
    ∃ sk', sk.refresh s remaining i = some sk' ∧ sk'.Stands s lh passed rest := by
  induction remaining generalizing i sk with
  | zero => exact ⟨sk, rfl, stands⟩
  | succ remaining ih =>
      have inside : i < s.height := by omega
      obtain ⟨p, -, hp, link⟩ := stands.layers i inside
      have readFirst : sk.read sk.preds 0 = some (some current) := by
        rw [read_eq (stands.inside h.positive), first]
      have readSucc : sk.read sk.succs i = some (sk.succs i) :=
        read_eq (stands.inside inside)
      simp only [refresh, readFirst, readSucc, Option.bind_eq_bind, Option.bind_some,
        Option.pure_def]
      by_cases same : some current = sk.succs i
      · have onLayer : current ∈ layer lh i xs := by
          apply mem_layer_of_link h inside (p := p)
          · exact List.cons_subset_cons _ (fun q hq =>
              mem_layer.mpr ⟨sub (mem_layer.mp hq).1, (mem_layer.mp hq).2⟩) hp
          · rw [← link, ← same]
        have linked := (mem_layer.mp onLayer).2
        have set : sk.setLayer s i current = some (sk.withLayer s i current) :=
          setLayer_eq (stands.inside inside)
            (h.inside inside (List.mem_cons_of_mem _ onLayer))
        rw [if_pos same, ← same]
        simp only [Option.bind_some, set]
        apply ih
        · constructor
          · exact stands.height
          · rw [← stands.current]
            exact Function.update_of_ne (by omega) ..
          · intro l low
            have here : current ∈ s.head :: layer lh i passed :=
              List.mem_cons_of_mem _ (mem_layer.mpr ⟨mem, linked⟩)
            exact withLayer_layers here fun _ => stands.layers l low
          · exact stands.hints
        · rw [← first]
          exact Function.update_of_ne (by omega) ..
        · omega
        · omega
      · rw [if_neg same]
        exact ⟨sk, rfl, stands⟩

/-- **`++` moves to the next element.** -/
theorem next_spec (h : WellFormed lt s xs lh) {current : Nat} (split : xs = passed ++ current :: rest)
    (stands : sk.Stands s lh passed (current :: rest)) :
    ∃ sk', sk.next s = some sk' ∧ sk'.Stands s lh (passed ++ [current]) rest := by
  have zero : 0 < sk.headHeight := stands.inside h.positive
  have listed : current ∈ xs := by
    rw [split]
    exact List.mem_append_right _ List.mem_cons_self
  have linked : ∀ l, l < lh current → l < (s.memory current).height := fun l below =>
    Nat.lt_of_lt_of_le below (h.linked current listed).2.1
  have set : sk.setLayer s 0 current = some (sk.withLayer s 0 current) :=
    setLayer_eq zero (linked 0 (h.linked current listed).1)
  have stands' : (sk.withLayer s 0 current).Stands s lh (passed ++ [current]) rest := by
    constructor
    · exact stands.height
    · show Function.update sk.succs 0 (s.links 0 current) 0 = rest.head?
      rw [Function.update_self]
      have chain := h.bottom
      rw [split, ← List.cons_append] at chain
      exact chain.from_mem.start
    · intro l low
      have here : current ∈ s.head :: layer lh 0 (passed ++ [current]) := by
        apply List.mem_cons_of_mem
        exact mem_layer.mpr ⟨List.mem_append_right _ List.mem_cons_self, (h.linked current listed).1⟩
      apply withLayer_layers here
      · intro _
        obtain ⟨p, pred, hp, link⟩ := stands.layers l low
        refine ⟨p, pred, ?_, link⟩
        rw [layer_append]
        exact List.cons_subset_cons _ (List.subset_append_left _ _) hp
    · exact stands.hints
  obtain ⟨height, low, cur⟩ := curHeight_spec stands' h.positive
  have sub : passed ++ [current] ⊆ xs := by
    intro p hp
    rw [split]
    rcases List.mem_append.mp hp with hp | hp
    · exact List.mem_append_left _ hp
    · exact List.mem_append_right _ (List.mem_singleton.mp hp ▸ List.mem_cons_self)
  have read : sk.read sk.succs 0 = some (some current) := by
    rw [read_eq zero, stands.current]
    rfl
  simp only [next, read, Option.bind_eq_bind, Option.bind_some, set, cur]
  apply refresh_spec h stands' sub (List.mem_append_right _ List.mem_cons_self)
  · show Function.update sk.preds 0 (some current) 0 = some current
    exact Function.update_self ..
  · exact Nat.le_refl 1
  · have := h.positive
    omega

/-! ### to -/

section Search

variable [DecidableRel lt] {x : T}

/-- The layers above the first one of a search keep what they record. -/
theorem findInsertionPoint_above {k pred : Nat} {point point' : InsertionPoint}
    (search : findInsertionPoint lt s x k pred point = some point') {l : Nat} (above : k ≤ l) :
    point'.preds l = point.preds l ∧ point'.succs l = point.succs l := by
  induction k generalizing pred point with
  | zero =>
      cases search
      exact ⟨rfl, rfl⟩
  | succ k ih =>
      simp only [findInsertionPoint, Option.bind_eq_bind, Option.bind_eq_some_iff] at search
      obtain ⟨node, -, ⟨pred', node'⟩, -, search⟩ := search
      obtain ⟨preds, succs⟩ := ih search (by omega)
      have other : l ≠ k := by omega
      exact ⟨preds.trans (Function.update_of_ne other ..), succs.trans (Function.update_of_ne other ..)⟩

/-- The guessed layer is below the head's height. -/
theorem climb_spec {rounds lyr : Nat} (low : lyr < sk.headHeight)
    (enough : sk.headHeight ≤ lyr + rounds) :
    ∃ lyr' < sk.headHeight, sk.climb lt s x rounds lyr = some lyr' := by
  induction rounds generalizing lyr with
  | zero => omega
  | succ rounds ih =>
      simp only [climb, read_eq low, Option.bind_eq_bind, Option.bind_some, Option.pure_def]
      split
      · rename_i goes
        have room : lyr < sk.headHeight - 1 := by
          simp only [Bool.and_eq_true, decide_eq_true_eq] at goes
          exact goes.2
        exact ih (by omega) (by omega)
      · exact ⟨lyr, low, rfl⟩

variable [IsStrictWeakOrder T lt]

/-- What has been passed is below a key that is not less than the current element. -/
theorem passed_sub_under (h : WellFormed lt s xs lh) (split : xs = passed ++ rest) {current : Nat}
    (stands : rest.head? = some current) (ahead : ¬ lt x (s.keyOf current)) :
    passed ⊆ under lt s.keyOf x xs := by
  intro p hp
  have ascending := h.ascending
  rw [split] at ascending
  have before : lt (s.keyOf p) (s.keyOf current) :=
    (List.pairwise_append.mp ascending).2.2 p hp current (List.mem_of_mem_head? stands)
  refine mem_under.mpr ⟨?_, (lt_or_lt_of_lt before x).resolve_right ahead⟩
  rw [split]
  exact List.mem_append_left _ hp

/-- **`to` finds what a search from the head finds.** -/
theorem toData_spec (h : WellFormed lt s xs lh) (unmarked : ∀ p ∈ xs, (s.memory p).marked = false)
    (split : xs = passed ++ rest) (stands : sk.Stands s lh passed rest) {current : Nat}
    (here : rest.head? = some current) (ahead : ¬ lt x (s.keyOf current)) :
    ∃ sk' found, sk.toData lt s x = some (sk', found) ∧
      (found = true ↔ ∃ q ∈ xs, IncompRel lt (s.keyOf q) x) ∧
      sk'.Stands s lh (under lt s.keyOf x xs) (onward lt s.keyOf x xs) := by
  have positive := h.positive
  have passedUnder := passed_sub_under h split here ahead
  have layersUnder : ∀ l, s.head :: layer lh l passed ⊆ s.head :: layer lh l (under lt s.keyOf x xs) :=
    fun l => List.cons_subset_cons _ fun q hq =>
      mem_layer.mpr ⟨passedUnder (mem_layer.mp hq).1, (mem_layer.mp hq).2⟩
  have listed : current ∈ xs := by
    rw [split]
    exact List.mem_append_right _ (List.mem_of_mem_head? here)
  -- The element the skipper stands on has a layer, so there is a hint to start from.
  have cur : sk.curHeight s = some (min s.height (s.memory current).height - 1 + 1) := by
    have tall := (h.linked current listed)
    have read : sk.read sk.succs 0 = some (some current) := by
      rw [read_eq (stands.inside positive), stands.current, here]
    simp only [curHeight, read, Option.bind_eq_bind, Option.bind_some, Option.pure_def, stands.height]
    congr 1
    omega
  generalize topOf : min s.height (s.memory current).height - 1 = top at cur
  have belowTop : top < s.height := by omega
  have low : top < sk.headHeight := stands.inside belowTop
  have hint : (sk.hints top).toNat < sk.headHeight := stands.inside (stands.hints top belowTop)
  have climbed : ∃ lyr < sk.headHeight,
      sk.climb lt s x sk.headHeight (sk.hints top).toNat = some lyr :=
    climb_spec hint (by omega)
  obtain ⟨lyr, below, climbs⟩ := climbed
  have under' : lyr < s.height := stands.height ▸ below
  obtain ⟨p, pred, hp, -⟩ := stands.layers lyr under'
  have reached : ∀ l, lyr + 1 = l + 1 → p ∈ s.head :: layer lh l (under lt s.keyOf x xs) := by
    rintro l ⟨⟩
    exact layersUnder lyr hp
  have start : RecordedBelow lt s xs lh x (lyr + 1) (lyr + 1) ⟨sk.preds, sk.succs, none, none⟩ :=
    RecordedBelow.start rfl rfl
  obtain ⟨point, search, recorded⟩ := h.findInsertionPoint_spec (Nat.le_refl _) under' reached start
  have stands' : ({ sk with
      hints := Function.update sk.hints top lyr.toUInt8
      preds := point.preds
      succs := point.succs } : Skipper).Stands s lh (under lt s.keyOf x xs) (onward lt s.keyOf x xs) := by
    constructor
    · exact stands.height
    · exact (recorded.succs 0 (Nat.le_refl _) (Nat.succ_pos _)).trans (h.succAt_zero x)
    · intro l inside
      by_cases searched : l < lyr + 1
      · exact ⟨_, recorded.preds l (Nat.zero_le _) searched, predAt_mem x l,
          (recorded.succs l (Nat.zero_le _) searched).trans (h.links_predAt x inside).symm⟩
      · -- A layer above the guess keeps a node that has been passed before.
        obtain ⟨preds, succs⟩ := findInsertionPoint_above search (l := l) (by omega)
        obtain ⟨q, pred', hq, link⟩ := stands.layers l inside
        exact ⟨q, preds.trans pred', layersUnder l hq, succs.trans link⟩
    · intro l inside
      show (Function.update sk.hints top lyr.toUInt8 l).toNat < s.height
      by_cases same : l = top
      · have := toNat_toUInt8_le lyr
        rw [same, Function.update_self]
        omega
      · rw [Function.update_of_ne same]
        exact stands.hints l inside
  simp only [toData, cur, Option.bind_eq_bind, Option.bind_some, read_eq low, climbs, write_eq low,
    read_eq below, pred, search, Option.pure_def]
  cases foundLayer : point.foundLayer with
  | none =>
      refine ⟨_, false, rfl, ⟨(fun contra => by cases contra), ?_⟩, stands'⟩
      rintro ⟨q, hq, same⟩
      have := (recorded.notFound foundLayer).2 q hq same
      have := (h.linked q hq).1
      omega
  | some l =>
      obtain ⟨q, -, hq, same, -, -⟩ := recorded.found l foundLayer
      obtain ⟨tail, front⟩ := onward_eq_cons h.ascending hq same
      have succ : point.succs 0 = some q := by
        have := stands'.current
        rwa [front] at this
      rw [succ]
      simp only [Option.bind_some, unmarked q hq, Bool.not_false]
      exact ⟨_, true, rfl, ⟨fun _ => ⟨q, hq, same⟩, fun _ => rfl⟩, stands'⟩

end Search

/-! ### Whole runs -/

inductive Op (T : Type) where
  | toData (x : T)
  | next

/-- `to` may be called with a target that is not less than the current element, `++` while
there is one. -/
def Allowed (lt : T → T → Prop) (s : ConcurrentSkipList T) (sk : Skipper) : Op T → Prop
  | .toData x => ∀ p, sk.succs 0 = some p → ¬ lt x (s.keyOf p)
  | .next => sk.good = true

/-- One operation, and what `to` answers. -/
def step (lt : T → T → Prop) [DecidableRel lt] (s : ConcurrentSkipList T) (sk : Skipper) :
    Op T → Option (Skipper × Bool)
  | .toData x => sk.toData lt s x
  | .next => (sk.next s).map fun sk' => (sk', true)

/-- One allowed operation that comes back. -/
def Step (lt : T → T → Prop) [DecidableRel lt] (s : ConcurrentSkipList T) (sk : Skipper) (op : Op T)
    (sk' : Skipper) : Prop :=
  sk.Allowed lt s op ∧ ∃ answer, sk.step lt s op = some (sk', answer)

/-- The elements that repeated `++` stands on, until there is none. -/
def walk (s : ConcurrentSkipList T) : Nat → Skipper → Option (List Nat)
  | 0, _ => none
  | fuel + 1, sk =>
      match sk.succs 0 with
      | none => some []
      | some p => do
          let sk ← sk.next s
          let visited ← walk s fuel sk
          return p :: visited

/-- What the next operation of a skipper on the list `xs` does. Nothing is stuck, so every
access is in range. -/
structure Agrees (lt : T → T → Prop) [DecidableRel lt] (s : ConcurrentSkipList T) (xs : List Nat)
    (sk : Skipper) : Prop where
  toData : ∀ x, sk.good = true → sk.Allowed lt s (.toData x) → ∃ sk' found,
    sk.toData lt s x = some (sk', found) ∧ (found = true ↔ ∃ q ∈ xs, IncompRel lt (s.keyOf q) x) ∧
    sk'.succs 0 = scan lt s xs x ∧ findNode lt s x = some (sk'.succs 0, found)
  next : ∀ p, sk.succs 0 = some p → p ∈ xs ∧ ∃ sk', sk.next s = some sk' ∧
    sk'.succs 0 = s.links 0 p
  done : ∀ x, sk.good = false → sk.toData lt s x = some (sk, false)

section Runs

/-- From where the skipper stands, repeated `++` visits the rest of the list. -/
theorem walk_spec (h : WellFormed lt s xs lh) {fuel : Nat} (split : xs = passed ++ rest)
    (stands : sk.Stands s lh passed rest) (enough : rest.length < fuel) :
    sk.walk s fuel = some rest := by
  induction rest generalizing fuel passed sk with
  | nil =>
      obtain ⟨fuel, rfl⟩ : ∃ f, fuel = f + 1 := ⟨fuel - 1, by omega⟩
      rw [walk, stands.current]
      rfl
  | cons current rest ih =>
      obtain ⟨fuel, rfl⟩ : ∃ f, fuel = f + 1 := ⟨fuel - 1, by omega⟩
      obtain ⟨sk', moved, stands'⟩ := next_spec h split stands
      have rest' := ih (by simp [split]) stands' (Nat.lt_of_succ_lt_succ enough)
      rw [walk, stands.current]
      simp only [List.head?_cons, moved, Option.bind_eq_bind, Option.bind_some, rest', Option.pure_def]

variable [DecidableRel lt] [IsStrictWeakOrder T lt]

theorem Stands.agrees (h : WellFormed lt s xs lh) (unmarked : ∀ p ∈ xs, (s.memory p).marked = false)
    (split : xs = passed ++ rest) (stands : sk.Stands s lh passed rest) : sk.Agrees lt s xs := by
  constructor
  case toData =>
    intro x good ahead
    obtain ⟨current, here⟩ := Option.isSome_iff_exists.mp good
    obtain ⟨sk', found, moved, iff, stands'⟩ := toData_spec h unmarked split stands
      (stands.current.symm.trans here) (ahead current here)
    obtain ⟨found', plain, iff'⟩ := h.findNode x
    have same : found' = found := Bool.eq_iff_iff.mpr (iff'.trans iff.symm)
    refine ⟨sk', found, moved, iff, ?_, ?_⟩
    · rw [stands'.current]
      exact List.head?_filter ..
    · rw [plain, stands'.current, same]
  case next =>
    intro p here
    obtain ⟨tail, rfl⟩ := List.head?_eq_some_iff.mp (stands.current.symm.trans here)
    obtain ⟨sk', moved, stands'⟩ := next_spec h split stands
    refine ⟨?_, sk', moved, ?_⟩
    · rw [split]
      exact List.mem_append_right _ List.mem_cons_self
    · have chain := h.bottom
      rw [split, ← List.cons_append] at chain
      rw [stands'.current]
      exact chain.from_mem.start.symm
  case done =>
    intro x bad
    have ended : sk.succs 0 = none := Option.not_isSome_iff_eq_none.mp (by rw [← good, bad]; decide)
    have read : sk.read sk.succs 0 = some none := by
      rw [read_eq (stands.inside h.positive), ended]
    simp only [toData, curHeight, read, Option.bind_eq_bind, Option.bind_some, Option.pure_def]

/-- One operation leaves the skipper standing somewhere in the list. -/
theorem Stands.step (h : WellFormed lt s xs lh) (unmarked : ∀ p ∈ xs, (s.memory p).marked = false)
    {op : Op T} {sk' : Skipper} (split : xs = passed ++ rest) (stands : sk.Stands s lh passed rest)
    (taken : Step lt s sk op sk') :
    ∃ passed' rest', xs = passed' ++ rest' ∧ sk'.Stands s lh passed' rest' := by
  obtain ⟨allowed, answer, done⟩ := taken
  cases op with
  | toData x =>
      cases here : rest.head? with
      | none =>
          have bad : sk.good = false := by rw [good, stands.current, here]; rfl
          cases ((stands.agrees h unmarked split).done x bad).symm.trans done
          exact ⟨passed, rest, split, stands⟩
      | some current =>
          obtain ⟨sk'', found, moved, -, stands'⟩ := toData_spec h unmarked split stands here
            (allowed current (stands.current.trans here))
          cases moved.symm.trans done
          exact ⟨_, _, (under_append_onward h.ascending x).symm, stands'⟩
  | next =>
      obtain ⟨current, here⟩ := Option.isSome_iff_exists.mp allowed
      obtain ⟨tail, rfl⟩ := List.head?_eq_some_iff.mp (stands.current.symm.trans here)
      obtain ⟨sk'', moved, stands'⟩ := next_spec h split stands
      rw [Skipper.step, moved] at done
      cases done
      exact ⟨passed ++ [current], tail, by rw [split, List.append_assoc]; rfl, stands'⟩

/-- **Finger search agrees with plain search.** On a well-formed list that does not change,
every skipper is set up, agrees with the plain search after any allowed operations, and
visits the whole list, in order, by `++` alone. -/
theorem skipper_agrees (h : WellFormed lt s xs fun p => (s.memory p).height)
    (unmarked : ∀ p ∈ xs, (s.memory p).marked = false) (raw : Skipper) :
    ∃ sk₀, init s raw = some sk₀ ∧
      (∀ sk, Reachable (Step lt s) sk₀ sk → sk.headHeight = s.height ∧ sk.Agrees lt s xs) ∧
      sk₀.walk s (xs.length + 1) = some xs ∧ Ascending lt s.keyOf xs := by
  obtain ⟨sk₀, made, start⟩ := init_spec h raw
  have walks : sk₀.walk s (xs.length + 1) = some xs :=
    walk_spec h (List.nil_append _).symm start (Nat.lt_succ_self _)
  refine ⟨sk₀, made, ?_, walks, h.ascending⟩
  intro sk reach
  obtain ⟨passed, rest, split, stands⟩ := reach.invariant
    (P := fun sk => ∃ passed rest, xs = passed ++ rest ∧
      sk.Stands s (fun p => (s.memory p).height) passed rest)
    ⟨[], xs, rfl, start⟩
    (fun sk op sk' ⟨passed, rest, split, stands⟩ taken => stands.step h unmarked split taken)
  exact ⟨stands.height, stands.agrees h unmarked split⟩

end Runs

/-- On the two towers, from whatever the arrays hold. -/
theorem skipper_agrees_two_towers :
    WellFormed (· < ·) twoTowers [1, 2] (fun p => (twoTowers.memory p).height) ∧
      ∃ sk₀, init twoTowers ⟨0, fun _ => none, fun _ => none, fun _ => 0⟩ = some sk₀ ∧
        sk₀.Agrees (· < ·) twoTowers [1, 2] ∧ sk₀.walk twoTowers 3 = some [1, 2] := by
  have := natOrder
  obtain ⟨sk₀, made, reach, walks, -⟩ := skipper_agrees twoTowers_wellFormed (by decide)
    ⟨0, fun _ => none, fun _ => none, fun _ => 0⟩
  exact ⟨twoTowers_wellFormed, sk₀, made, (reach sk₀ .start).2, walks⟩

end Skipper

end Hcl.ConcurrentSkipList
