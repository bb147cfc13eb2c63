import Hcl.Lib.Chain
import Hcl.BlockMap.Basic

/-!
What the loops of the block map do on a well-formed bucket.

Each loop stops early at a node of a greater hash. On a bucket that is sorted by hash
and holds no key twice, the nodes behind that point cannot have the key
(`Bucket.beyond`), and at most one node has it at all; so the loop of `insert` finds the
place of a new node, `scan` acts on the one node of the key, and the loop of `erase`
stops before it.
-/

namespace Hcl.BlockMap

open Hcl.Lib

variable {K V : Type} {ops : KeyOps K} {pl : MemoryPool K V} {k : K} {p : Option Nat} {l : List Nat}

/-- The links of the nodes. -/
def links (pl : MemoryPool K V) : Nat → Option Nat := fun a => (pl.memory a).next

/-- The nodes of a bucket from `p` on: linked in this order, sorted by the hashes of
their keys, no key twice. -/
structure Bucket (ops : KeyOps K) (pl : MemoryPool K V) (p : Option Nat) (l : List Nat) : Prop where
  chain : Chain (links pl) p l
  sorted : l.Pairwise fun a b => ops.hash (pl.memory a).key ≤ ops.hash (pl.memory b).key
  distinct : l.Pairwise fun a b => ¬ ops.equal (pl.memory a).key (pl.memory b).key

/-- Node `a` has the key `k`. -/
def hasKey (ops : KeyOps K) (pl : MemoryPool K V) (k : K) (a : Nat) : Bool :=
  ops.equal (pl.memory a).key k

theorem Bucket.tail {a : Nat} (h : Bucket ops pl p (a :: l)) :
    Bucket ops pl (pl.memory a).next l :=
  ⟨h.chain.2, (List.pairwise_cons.mp h.sorted).2, (List.pairwise_cons.mp h.distinct).2⟩

/-- Where keys and links stay, a bucket stays. -/
theorem Bucket.congr {pl' : MemoryPool K V} (h : Bucket ops pl p l)
    (keys : ∀ a ∈ l, (pl'.memory a).key = (pl.memory a).key)
    (next : ∀ a ∈ l, (pl'.memory a).next = (pl.memory a).next) : Bucket ops pl' p l where
  chain := h.chain.congr next
  sorted := h.sorted.imp_of_mem fun ha hb le => by rwa [keys _ ha, keys _ hb]
  distinct := h.distinct.imp_of_mem fun ha hb ne => by rwa [keys _ ha, keys _ hb]

/-- No node has the key from the first node of a greater hash on. -/
theorem Bucket.beyond {a : Nat} (h : Bucket ops pl p (a :: l))
    (greater : ops.hash (pl.memory a).key > ops.hash k) :
    ∀ b ∈ a :: l, ops.hash (pl.memory b).key > ops.hash k ∧ hasKey ops pl k b = false := by
  intro b hb
  have above : ops.hash (pl.memory b).key > ops.hash k := by
    rcases List.mem_cons.mp hb with rfl | hb
    · exact greater
    · exact UInt64.lt_of_lt_of_le greater ((List.pairwise_cons.mp h.sorted).1 b hb)
  exact ⟨above, Bool.eq_false_iff.mpr fun same => ops.not_greater same above⟩

/-- A node of the key is the only one. -/
theorem Bucket.only {a : Nat} (h : Bucket ops pl p (a :: l)) (same : hasKey ops pl k a = true) :
    ∀ b ∈ l, hasKey ops pl k b = false := fun b hb => Bool.eq_false_iff.mpr fun other =>
  (List.pairwise_cons.mp h.distinct).1 b hb (ops.trans same (ops.symm other))

/-! ### The loop of `insert` -/

/-- The loop of `insert` meets a node of the key if there is one, and stops between the
nodes whose hash is not greater and those whose hash is. -/
theorem insertWalk_spec (k : K) (q : Nat) (found : Bool) {fuel : Nat} (h : Bucket ops pl p l)
    (enough : l.length ≤ fuel) :
    ∃ before r right, q :: l = before ++ r :: right ∧
      insertWalk ops pl k fuel q p found =
        some (r, right.head?, found || l.any (hasKey ops pl k)) ∧
      (∀ a ∈ before ++ [r], a = q ∨ ops.hash (pl.memory a).key ≤ ops.hash k) ∧
      ∀ a ∈ right, ops.hash (pl.memory a).key > ops.hash k := by
  induction l generalizing fuel q p found with
  | nil =>
      refine ⟨[], q, [], rfl, ?_, by simp, by simp⟩
      rw [h.chain]
      cases fuel <;> simp [insertWalk]
  | cons a l ih =>
      obtain ⟨fuel, rfl⟩ : ∃ f, fuel = f + 1 :=
        ⟨fuel - 1, by simp only [List.length_cons] at enough; omega⟩
      have met : (if ops.equal (pl.memory a).key k then true else found) =
          (found || hasKey ops pl k a) := by
        unfold hasKey
        cases ops.equal (pl.memory a).key k <;> simp
      rw [h.chain.1, insertWalk]
      simp only [met]
      split
      · rename_i greater
        have beyond := h.beyond greater
        have missed : (a :: l).any (hasKey ops pl k) = false :=
          List.any_eq_false.mpr fun b hb => Bool.eq_false_iff.mp (beyond b hb).2
        refine ⟨[], q, a :: l, rfl, ?_, by simp, fun b hb => (beyond b hb).1⟩
        rw [missed, (beyond a List.mem_cons_self).2]
        rfl
      · rename_i notGreater
        obtain ⟨before, r, right, split, walked, low, high⟩ :=
          ih a (found || hasKey ops pl k a) h.tail (Nat.le_of_succ_le_succ enough)
        refine ⟨q :: before, r, right, by rw [split, List.cons_append], ?_, ?_, high⟩
        · rw [walked, List.any_cons, Bool.or_assoc]
        · intro b hb
          rcases List.mem_cons.mp hb with rfl | hb
          · exact Or.inl rfl
          · refine Or.inr ((low b hb).elim ?_ id)
            intro eq
            rw [eq]
            exact UInt64.not_lt.mp notGreater

/-! ### The loop of `find`, `update` and `update_field` -/

/-- The action leaves the keys and the links of all nodes. -/
def KeepsShape {S : Type} (onEqual : Nat → MemoryPool K V → S → MemoryPool K V × S) : Prop :=
  ∀ n pl s a, ((onEqual n pl s).1.memory a).key = (pl.memory a).key ∧
    ((onEqual n pl s).1.memory a).next = (pl.memory a).next

/-- The loop acts on the node of the key, once, and on nothing else. -/
theorem scan_spec {S : Type} {onEqual : Nat → MemoryPool K V → S → MemoryPool K V × S}
    (keeps : KeepsShape onEqual) {fuel : Nat} {found : Bool} {s : S} (h : Bucket ops pl p l)
    (enough : l.length ≤ fuel) :
    scan ops onEqual k fuel p pl found s =
      match l.find? (hasKey ops pl k) with
      | none => some (pl, found, s)
      | some a => some ((onEqual a pl s).1, true, (onEqual a pl s).2) := by
  induction l generalizing fuel p pl found s with
  | nil =>
      rw [h.chain]
      cases fuel <;> simp [scan]
  | cons a l ih =>
      obtain ⟨fuel, rfl⟩ : ∃ f, fuel = f + 1 :=
        ⟨fuel - 1, by simp only [List.length_cons] at enough; omega⟩
      have enough' : l.length ≤ fuel := Nat.le_of_succ_le_succ enough
      rw [h.chain.1, scan]
      by_cases same : hasKey ops pl k a = true
      · -- The node of the key: the rest of the walk finds no other.
        have act : ops.equal (pl.memory a).key k = true := same
        obtain ⟨key, next⟩ := keeps a pl s a
        have notGreater : ¬ ops.hash (pl.memory a).key > ops.hash k := ops.not_greater act
        have rest : Bucket ops (onEqual a pl s).1 (pl.memory a).next l :=
          h.tail.congr (fun b _ => (keeps a pl s b).1) fun b _ => (keeps a pl s b).2
        have missed : l.find? (hasKey ops (onEqual a pl s).1 k) = none := by
          refine List.find?_eq_none.mpr fun b hb => ?_
          rw [hasKey, (keeps a pl s b).1]
          exact Bool.eq_false_iff.mp (h.only same b hb)
        simp only [act, if_true, key, notGreater, if_false, next]
        rw [ih rest enough', missed, List.find?_cons_of_pos same]
      · have pass : ops.equal (pl.memory a).key k = false := Bool.eq_false_iff.mpr same
        rw [List.find?_cons_of_neg same]
        simp only [pass, Bool.false_eq_true, if_false]
        split
        · rename_i greater
          have missed : l.find? (hasKey ops pl k) = none := List.find?_eq_none.mpr fun b hb =>
            Bool.eq_false_iff.mp (h.beyond greater b (List.mem_cons_of_mem _ hb)).2
          rw [missed]
        · exact ih h.tail enough'

/-! ### The loop of `erase` -/

/-- The loop of `erase` stops before the node of the key, or at a place behind which
there is none. -/
theorem eraseWalk_spec (k : K) (q : Nat) {fuel : Nat} (h : Bucket ops pl p l) (enough : l.length ≤ fuel) :
    ∃ before r right, q :: l = before ++ r :: right ∧
      eraseWalk ops pl k fuel q p = some (r, right.head?) ∧
      ((∃ a rest, right = a :: rest ∧ hasKey ops pl k a = true) ∨
        ((∀ a ∈ l, hasKey ops pl k a = false) ∧ ∀ a ∈ right, hasKey ops pl k a = false)) := by
  induction l generalizing fuel q p with
  | nil =>
      refine ⟨[], q, [], rfl, ?_, Or.inr ⟨by simp, by simp⟩⟩
      rw [h.chain]
      cases fuel <;> simp [eraseWalk]
  | cons a l ih =>
      obtain ⟨fuel, rfl⟩ : ∃ f, fuel = f + 1 :=
        ⟨fuel - 1, by simp only [List.length_cons] at enough; omega⟩
      rw [h.chain.1, eraseWalk]
      split
      · rename_i same
        exact ⟨[], q, a :: l, rfl, rfl, Or.inl ⟨a, l, rfl, same⟩⟩
      · rename_i different
        split
        · rename_i greater
          have absent := fun b hb => (h.beyond greater b hb).2
          exact ⟨[], q, a :: l, rfl, rfl, Or.inr ⟨absent, absent⟩⟩
        · obtain ⟨before, r, right, split, walked, outcome⟩ :=
            ih a h.tail (Nat.le_of_succ_le_succ enough)
          refine ⟨q :: before, r, right, by rw [split, List.cons_append], walked, ?_⟩
          refine outcome.imp_right fun ⟨absent, right⟩ => ⟨?_, right⟩
          intro b hb
          rcases List.mem_cons.mp hb with rfl | hb
          · exact Bool.eq_false_iff.mpr different
          · exact absent b hb

end Hcl.BlockMap
