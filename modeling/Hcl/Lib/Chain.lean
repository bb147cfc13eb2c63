import Mathlib.Logic.Function.Basic
import Mathlib.Data.List.Nodup
import Mathlib.Data.List.Range
import Mathlib.Data.List.Perm.Subperm

/-!
Null-terminated linked lists in a memory.

`nxt a` is the link stored at address `a`. `Chain nxt p l` says that following links
from `p` visits the addresses of `l` and then meets the null link. The list is
determined by the memory (`Chain.unique`) and visits nothing twice (`Chain.nodup`);
`Chain.insertAfter` and `Chain.removeAfter` are the two pointer writes of a linked list.
-/

namespace Hcl.Lib

variable {P : Type*} {nxt nxt' : P → Option P} {p : Option P} {l r : List P} {a b x : P}

/-- Following the links from `p` visits exactly `l` and ends. -/
def Chain (nxt : P → Option P) : Option P → List P → Prop
  | p, [] => p = none
  | p, a :: l => p = some a ∧ Chain nxt (nxt a) l

@[simp] theorem chain_nil : Chain nxt p [] ↔ p = none := Iff.rfl

@[simp] theorem chain_cons : Chain nxt p (a :: l) ↔ p = some a ∧ Chain nxt (nxt a) l := Iff.rfl

/-- A chain starts at the first address it visits. -/
theorem Chain.start (h : Chain nxt p l) : p = l.head? := by
  cases l with
  | nil => exact h
  | cons a l => exact h.1

theorem Chain.unique {l' : List P} (h : Chain nxt p l) (h' : Chain nxt p l') : l = l' := by
  induction l generalizing p l' with
  | nil =>
      cases l' with
      | nil => rfl
      | cons a l' => exact nomatch h.symm.trans h'.1
  | cons a l ih =>
      cases l' with
      | nil => exact nomatch h.1.symm.trans h'
      | cons a' l' =>
          obtain rfl : a = a' := Option.some.inj (h.1.symm.trans h'.1)
          rw [ih h.2 h'.2]

/-- The rest of a chain is a chain. -/
theorem Chain.drop (h : Chain nxt p (l ++ r)) : Chain nxt r.head? r := by
  induction l generalizing p with
  | nil =>
      rw [List.nil_append] at h
      exact h.start ▸ h
  | cons a l ih => exact ih h.2

theorem Chain.from_mem (h : Chain nxt p (l ++ a :: r)) : Chain nxt (nxt a) r :=
  (chain_cons.mp h.drop).2

/-- A chain that ends visits no address twice: from the second visit on it would repeat
the first. -/
theorem Chain.nodup (h : Chain nxt p l) : l.Nodup := by
  induction l generalizing p with
  | nil => exact List.nodup_nil
  | cons a l ih =>
      refine List.nodup_cons.mpr ⟨?_, ih h.2⟩
      intro again
      obtain ⟨before, after, rfl⟩ := List.append_of_mem again
      have repeated := congrArg List.length (h.2.unique h.2.from_mem)
      simp only [List.length_append, List.length_cons] at repeated
      omega

/-- Memories that agree on the addresses of a chain have the same chain. -/
theorem Chain.congr (h : Chain nxt p l) (agree : ∀ a ∈ l, nxt' a = nxt a) : Chain nxt' p l := by
  induction l generalizing p with
  | nil => exact h
  | cons a l ih =>
      refine ⟨h.1, ?_⟩
      rw [agree a List.mem_cons_self]
      exact ih h.2 fun b hb => agree b (List.mem_cons_of_mem _ hb)

/-- Replacing what follows an address: its link is redirected to another chain that
does not pass through the part that stays. -/
theorem Chain.splice {r' : List P} (h : Chain nxt p (l ++ a :: r))
    (kept : ∀ b ∈ l, nxt' b = nxt b) (tail : Chain nxt' (nxt' a) r') :
    Chain nxt' p (l ++ a :: r') := by
  induction l generalizing p with
  | nil => exact ⟨h.1, tail⟩
  | cons b l ih =>
      refine ⟨h.1, ?_⟩
      rw [kept b List.mem_cons_self]
      exact ih h.2 fun c hc => kept c (List.mem_cons_of_mem _ hc)

/-- In a chain, the addresses around a visited one differ from it. -/
theorem Chain.ne_around (h : Chain nxt p (l ++ a :: r)) :
    (∀ b ∈ l, b ≠ a) ∧ ∀ b ∈ r, b ≠ a := by
  obtain ⟨-, right, apart⟩ := List.nodup_append.mp h.nodup
  exact ⟨fun b hb => apart b hb a List.mem_cons_self,
    fun b hb eq => (List.nodup_cons.mp right).1 (eq ▸ hb)⟩

section Writes

variable [DecidableEq P]

/-- Linking a new address `x` behind `a`: first `x` is pointed at what follows `a`,
then `a` at `x`. -/
theorem Chain.insertAfter (h : Chain nxt p (l ++ a :: r)) (fresh : x ∉ l ++ a :: r) :
    Chain (Function.update (Function.update nxt x (nxt a)) a (some x)) p (l ++ a :: x :: r) := by
  simp only [List.mem_append, List.mem_cons, not_or] at fresh
  obtain ⟨outLeft, other, outRight⟩ := fresh
  obtain ⟨left, right⟩ := h.ne_around
  refine h.splice ?_ ?_
  · intro b hb
    rw [Function.update_of_ne (left b hb), Function.update_of_ne (ne_of_mem_of_not_mem hb outLeft)]
  · rw [Function.update_self]
    refine ⟨rfl, ?_⟩
    rw [Function.update_of_ne other, Function.update_self]
    apply h.from_mem.congr
    intro b hb
    rw [Function.update_of_ne (right b hb), Function.update_of_ne (ne_of_mem_of_not_mem hb outRight)]

/-- Unlinking the address behind `a`. -/
theorem Chain.removeAfter (h : Chain nxt p (l ++ a :: x :: r)) :
    Chain (Function.update nxt a (nxt x)) p (l ++ a :: r) := by
  obtain ⟨left, right⟩ := h.ne_around
  refine h.splice (fun b hb => Function.update_of_ne (left b hb) _ _) ?_
  rw [Function.update_self]
  exact (chain_cons.mp h.from_mem).2.congr fun b hb =>
    Function.update_of_ne (right b (List.mem_cons_of_mem _ hb)) _ _

end Writes

/-- A chain through addresses below `n` has at most `n` of them. -/
theorem Chain.length_le {nxt : Nat → Option Nat} {p : Option Nat} {l : List Nat}
    (h : Chain nxt p l) {n : Nat} (bounded : ∀ a ∈ l, a < n) : l.length ≤ n := by
  have inside : l ⊆ List.range n := fun a ha => List.mem_range.mpr (bounded a ha)
  have := (List.subperm_of_subset h.nodup inside).length_le
  rwa [List.length_range] at this

end Hcl.Lib
