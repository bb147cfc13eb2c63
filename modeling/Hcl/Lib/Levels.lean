import Hcl.Lib.Chain

/-!
The shape of a skip list: nested linked lists behind one head.

`nxt l a` is the link of address `a` in layer `l`. The bottom list is `xs`, and `lh a` is the
number of layers in which `a` is linked, so layer `l` links the addresses of `xs` with
`l < lh a`, in the same order (`Levels`). An address is linked one layer at a time from the
bottom (`Levels.raise`) and unlinked from the top (`Levels.lower`); while it is linked in no
layer it may stand in `xs` or not (`Levels.enter`, `Levels.leave`).
-/

namespace Hcl.Lib

variable {P : Type*} {nxt nxt' : Nat → P → Option P} {head a n : P} {top k : Nat} {xs left right : List P}
  {lh : P → Nat}

/-- The addresses of layer `l`. -/
def layer (lh : P → Nat) (l : Nat) (xs : List P) : List P := xs.filter fun a => l < lh a

@[simp] theorem layer_append (lh : P → Nat) (l : Nat) (xs ys : List P) :
    layer lh l (xs ++ ys) = layer lh l xs ++ layer lh l ys := List.filter_append ..

theorem layer_cons_pos {l : Nat} (linked : l < lh a) (xs : List P) :
    layer lh l (a :: xs) = a :: layer lh l xs := List.filter_cons_of_pos (by simpa using linked)

theorem layer_cons_neg {l : Nat} (unlinked : ¬ l < lh a) (xs : List P) :
    layer lh l (a :: xs) = layer lh l xs := List.filter_cons_of_neg (by simpa using unlinked)

theorem mem_layer {l : Nat} : a ∈ layer lh l xs ↔ a ∈ xs ∧ l < lh a := by
  simp [layer, List.mem_filter]

/-- A layer above every address is empty. -/
theorem layer_eq_nil {l : Nat} (above : ∀ a ∈ xs, lh a ≤ l) : layer lh l xs = [] :=
  List.filter_eq_nil_iff.mpr fun a ha => by simpa using above a ha

theorem layer_eq_self (linked : ∀ a ∈ xs, 0 < lh a) : layer lh 0 xs = xs :=
  List.filter_eq_self.mpr fun a ha => by simpa using linked a ha

/-- The head and the addresses behind it end in the last address, or in the head. -/
theorem exists_append_getLastD (head : P) (l : List P) :
    ∃ w, head :: l = w ++ [l.getLastD head] := by
  refine ⟨(head :: l).dropLast, ?_⟩
  rw [← List.getLast_eq_getLastD]
  exact (List.dropLast_append_getLast (List.cons_ne_nil head l)).symm

theorem getLastD_mem (head : P) (l : List P) : l.getLastD head ∈ head :: l := by
  obtain ⟨w, hw⟩ := exists_append_getLastD head l
  rw [hw]
  exact List.mem_append_right w List.mem_cons_self

/-- Behind any of its addresses a list is part of what follows its first one. -/
theorem mem_of_append {head a b : P} {l before after : List P} (h : head :: l = before ++ a :: after)
    (behind : b ∈ after) : b ∈ l := by
  cases before with
  | nil =>
      rw [(List.cons.inj h).2]
      exact behind
  | cons c before =>
      rw [(List.cons.inj h).2]
      exact List.mem_append_right _ (List.mem_cons_of_mem _ behind)

/-- Behind any of its addresses a list ends where it ends. -/
theorem getLastD_of_append {head a : P} {l before after : List P} (h : head :: l = before ++ a :: after) :
    l.getLastD head = after.getLastD a := by
  have ends := congrArg List.getLast? h
  rw [List.getLast?_append_of_ne_nil before (List.cons_ne_nil a after)] at ends
  simpa [List.getLast?_cons] using ends

/-- The layers below `top` behind `head`. -/
structure Levels (nxt : Nat → P → Option P) (head : P) (top : Nat) (xs : List P) (lh : P → Nat) :
    Prop where
  chain : ∀ l < top, Chain (nxt l) (some head) (head :: layer lh l xs)

/-- Where the links of the linked addresses stay, the layers stay. -/
theorem Levels.congr (h : Levels nxt head top xs lh)
    (agree : ∀ l < top, ∀ a ∈ head :: layer lh l xs, nxt' l a = nxt l a) :
    Levels nxt' head top xs lh :=
  ⟨fun l inside => (h.chain l inside).congr (agree l inside)⟩

/-- The layers depend on the heights of the addresses of the list only. -/
theorem Levels.congr_height {lh' : P → Nat} (h : Levels nxt head top xs lh)
    (same : ∀ a ∈ xs, lh' a = lh a) : Levels nxt head top xs lh' where
  chain l inside := by
    have : layer lh' l xs = layer lh l xs := List.filter_congr fun a ha => by rw [same a ha]
    rw [this]
    exact h.chain l inside

/-- The link of the last address before a gap in a layer. -/
theorem Levels.next (h : Levels nxt head top xs lh) (inside : k < top)
    (split : layer lh k xs = left ++ right) : nxt k (left.getLastD head) = right.head? := by
  have chain := h.chain k inside
  obtain ⟨w, hw⟩ := exists_append_getLastD head left
  rw [split, ← List.cons_append, hw, List.append_assoc] at chain
  exact chain.from_mem.start

/-- Replacing what follows the last address before a gap in layer `k`. -/
theorem Levels.splice {right' : List P} [DecidableEq P] {q : Option P} {lh' : P → Nat} {xs' : List P}
    (h : Levels nxt head top xs lh) (inside : k < top) (split : layer lh k xs = left ++ right)
    (split' : layer lh' k xs' = left ++ right')
    (others : ∀ l ≠ k, layer lh' l xs' = layer lh l xs)
    (tail : Chain (Function.update (nxt k) (left.getLastD head) q) q right') :
    Levels (Function.update nxt k (Function.update (nxt k) (left.getLastD head) q)) head top xs' lh' where
  chain l below := by
    by_cases here : l = k
    · subst here
      have chain := h.chain l below
      obtain ⟨w, hw⟩ := exists_append_getLastD head left
      rw [split, ← List.cons_append, hw, List.append_assoc] at chain
      rw [Function.update_self, split', ← List.cons_append, hw, List.append_assoc]
      refine chain.splice (fun b hb => Function.update_of_ne (chain.ne_around.1 b hb) ..) ?_
      rw [Function.update_self]
      exact tail
    · rw [Function.update_of_ne here, others l here]
      exact h.chain l below

section Writes

variable [DecidableEq P]

/-- The addresses around `n` are the same in every layer, whatever the height of `n`. -/
theorem layer_around (outLeft : n ∉ left) (outRight : n ∉ right) (l m : Nat) :
    layer (Function.update lh n m) l (left ++ n :: right) =
      layer lh l left ++ (if l < m then n :: layer lh l right else layer lh l right) := by
  have keeps : ∀ ys : List P, n ∉ ys → layer (Function.update lh n m) l ys = layer lh l ys :=
    fun ys out => List.filter_congr fun b hb => by
      rw [Function.update_of_ne (ne_of_mem_of_not_mem hb out)]
  rw [layer_append, keeps left outLeft]
  split
  · rename_i linked
    rw [layer_cons_pos (by rwa [Function.update_self]), keeps right outRight]
  · rename_i unlinked
    rw [layer_cons_neg (by rwa [Function.update_self]), keeps right outRight]

/-- Other layers do not notice that `n` gets or loses layer `k`. -/
theorem layer_others (outLeft : n ∉ left) (outRight : n ∉ right) {l m m' : Nat}
    (same : l < m ↔ l < m') :
    layer (Function.update lh n m) l (left ++ n :: right) =
      layer (Function.update lh n m') l (left ++ n :: right) := by
  rw [layer_around outLeft outRight, layer_around outLeft outRight]
  simp only [same]

/-- An address that is linked in no layer may stand anywhere in the list. -/
theorem Levels.enter (h : Levels nxt head top (left ++ right) lh) (outLeft : n ∉ left)
    (outRight : n ∉ right) :
    Levels nxt head top (left ++ n :: right) (Function.update lh n 0) where
  chain l inside := by
    rw [layer_around outLeft outRight, if_neg (Nat.not_lt_zero l), ← layer_append]
    exact h.chain l inside

theorem Levels.leave (h : Levels nxt head top (left ++ n :: right) lh) (outLeft : n ∉ left)
    (outRight : n ∉ right) (unlinked : lh n = 0) : Levels nxt head top (left ++ right) lh where
  chain l inside := by
    have same : layer (Function.update lh n 0) l (left ++ n :: right) = _ :=
      layer_around outLeft outRight l 0
    rw [← unlinked, Function.update_eq_self, unlinked, if_neg (Nat.not_lt_zero l),
      ← layer_append] at same
    rw [← same]
    exact h.chain l inside

/-- Linking `n` in the next layer: `n` points behind the gap, then the address before the
gap is pointed at `n`. -/
theorem Levels.raise (h : Levels nxt head top (left ++ n :: right) lh) (inside : k < top)
    (outLeft : n ∉ left) (outRight : n ∉ right) (outHead : n ≠ head) (linked : lh n = k)
    (ready : nxt k n = (layer lh k right).head?) :
    Levels (Function.update nxt k (Function.update (nxt k) ((layer lh k left).getLastD head) (some n)))
      head top (left ++ n :: right) (Function.update lh n (k + 1)) := by
  have start : lh = Function.update lh n k := by rw [← linked, Function.update_eq_self]
  have split : layer lh k (left ++ n :: right) = layer lh k left ++ layer lh k right := by
    conv_lhs => rw [start]
    rw [layer_around outLeft outRight, if_neg (Nat.lt_irrefl k)]
  have split' : layer (Function.update lh n (k + 1)) k (left ++ n :: right) =
      layer lh k left ++ n :: layer lh k right := by
    rw [layer_around outLeft outRight, if_pos (Nat.lt_succ_self k)]
  refine h.splice inside split split' ?_ ⟨rfl, ?_⟩
  · intro l other
    conv_rhs => rw [start]
    exact layer_others outLeft outRight (by omega)
  · -- Behind the gap nothing changes: the written address is not met again.
    have chain := h.chain k inside
    obtain ⟨w, hw⟩ := exists_append_getLastD head (layer lh k left)
    rw [split, ← List.cons_append, hw, List.append_assoc] at chain
    have before : n ≠ (layer lh k left).getLastD head := by
      intro same
      have := same ▸ getLastD_mem head (layer lh k left)
      rcases List.mem_cons.mp this with eq | mem
      · exact outHead eq
      · exact outLeft (mem_layer.mp mem).1
    rw [Function.update_of_ne before, ready]
    apply (chain.from_mem.start ▸ chain.from_mem).congr
    intro b hb
    exact Function.update_of_ne (chain.ne_around.2 b hb) ..

/-- Unlinking `n` in its highest layer. -/
theorem Levels.lower (h : Levels nxt head top (left ++ n :: right) lh) (inside : k < top)
    (outLeft : n ∉ left) (outRight : n ∉ right) (linked : lh n = k + 1) :
    Levels (Function.update nxt k (Function.update (nxt k) ((layer lh k left).getLastD head) (nxt k n)))
      head top (left ++ n :: right) (Function.update lh n k) := by
  have start : lh = Function.update lh n (k + 1) := by rw [← linked, Function.update_eq_self]
  have split : layer lh k (left ++ n :: right) = layer lh k left ++ n :: layer lh k right := by
    conv_lhs => rw [start]
    rw [layer_around outLeft outRight, if_pos (Nat.lt_succ_self k)]
  have split' : layer (Function.update lh n k) k (left ++ n :: right) =
      layer lh k left ++ layer lh k right := by
    rw [layer_around outLeft outRight, if_neg (Nat.lt_irrefl k)]
  have chain := h.chain k inside
  obtain ⟨w, hw⟩ := exists_append_getLastD head (layer lh k left)
  rw [split, ← List.cons_append, hw, List.append_assoc] at chain
  refine h.splice inside split split' ?_ ?_
  · intro l other
    conv_rhs => rw [start]
    exact layer_others outLeft outRight (by omega)
  · apply (chain_cons.mp chain.from_mem).2.congr
    intro b hb
    exact Function.update_of_ne (chain.ne_around.2 b (List.mem_cons_of_mem _ hb)) ..

end Writes

end Hcl.Lib
