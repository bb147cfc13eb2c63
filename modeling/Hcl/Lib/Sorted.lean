import Mathlib.Order.Comparable
import Mathlib.Data.List.Basic

/-!
Lists that increase in a strict weak order, cut at a value.

Of a strictly increasing list the elements below a value come first (`under_append_onward`),
and of the others only the first can be equivalent to the value (`lt_of_mem_rest`).
-/

namespace Hcl.Lib

variable {P K : Type*} {lt : K → K → Prop} {key : P → K} {xs : List P} {x : K}

section Order

variable [IsStrictWeakOrder K lt] {a b c : K}

/-- Of two values in order, a third is above the lower one or below the higher one. -/
theorem lt_or_lt_of_lt (h : lt a c) (b : K) : lt a b ∨ lt b c := by
  by_contra neither
  obtain ⟨notBelow, notAbove⟩ := not_or.mp neither
  have left : ¬ lt a b ∧ ¬ lt b a := ⟨notBelow, fun below => notAbove (IsTrans.trans _ _ _ below h)⟩
  have right : ¬ lt b c ∧ ¬ lt c b := ⟨notAbove, fun above => notBelow (IsTrans.trans _ _ _ h above)⟩
  exact (IsStrictWeakOrder.incomp_trans a b c left right).1 h

theorem lt_of_lt_of_incompRel (h : lt a b) (same : IncompRel lt b c) : lt a c :=
  (lt_or_lt_of_lt h c).resolve_right same.2

end Order

/-- The keys increase along the list. -/
def Ascending (lt : K → K → Prop) (key : P → K) (xs : List P) : Prop :=
  xs.Pairwise fun p q => lt (key p) (key q)

variable [DecidableRel lt]

/-- The elements below `x`. -/
def under (lt : K → K → Prop) [DecidableRel lt] (key : P → K) (x : K) (xs : List P) : List P :=
  xs.filter fun p => lt (key p) x

/-- The elements not below `x`. -/
def onward (lt : K → K → Prop) [DecidableRel lt] (key : P → K) (x : K) (xs : List P) : List P :=
  xs.filter fun p => !decide (lt (key p) x)

theorem mem_under {p : P} : p ∈ under lt key x xs ↔ p ∈ xs ∧ lt (key p) x := by
  simp [under, List.mem_filter]

theorem mem_onward {p : P} : p ∈ onward lt key x xs ↔ p ∈ xs ∧ ¬ lt (key p) x := by
  simp [onward, List.mem_filter]

variable [IsStrictWeakOrder K lt]

/-- The elements below `x` come first. -/
theorem under_append_onward (h : Ascending lt key xs) (x : K) :
    under lt key x xs ++ onward lt key x xs = xs := by
  induction xs with
  | nil => rfl
  | cons p xs ih =>
      obtain ⟨first, rest⟩ := List.pairwise_cons.mp h
      by_cases below : lt (key p) x
      · simp only [under, onward] at ih ⊢
        rw [List.filter_cons_of_pos (by simpa using below),
          List.filter_cons_of_neg (by simpa using below), List.cons_append, ih rest]
      · -- From the first element that is not below `x` on, none is.
        have none_below : ∀ q ∈ xs, ¬ lt (key q) x := fun q hq contra =>
          below (IsTrans.trans _ _ _ (first q hq) contra)
        have noneUnder : under lt key x (p :: xs) = [] :=
          List.filter_eq_nil_iff.mpr fun q hq => by
            rcases List.mem_cons.mp hq with rfl | hq
            · simpa using below
            · simpa using none_below q hq
        have allOnward : onward lt key x (p :: xs) = p :: xs :=
          List.filter_eq_self.mpr fun q hq => by
            rcases List.mem_cons.mp hq with rfl | hq
            · simpa using below
            · simpa using none_below q hq
        rw [noneUnder, allOnward, List.nil_append]

/-- Behind the first element that is not below `x` all are above it. -/
theorem lt_of_mem_rest {q : P} {rest : List P} (h : Ascending lt key xs)
    (first : onward lt key x xs = q :: rest) {p : P} (hp : p ∈ rest) : lt x (key p) := by
  have sub : Ascending lt key (onward lt key x xs) := List.Pairwise.filter _ h
  rw [first] at sub
  have notBelow : ¬ lt (key q) x :=
    (mem_onward.mp (first ▸ List.mem_cons_self : q ∈ onward lt key x xs)).2
  exact (lt_or_lt_of_lt ((List.pairwise_cons.mp sub).1 p hp) x).resolve_left notBelow

/-- An element that is equivalent to `x` is the first one not below it. -/
theorem onward_eq_cons {q : P} (h : Ascending lt key xs) (hq : q ∈ xs)
    (same : IncompRel lt (key q) x) : ∃ rest, onward lt key x xs = q :: rest := by
  have mem : q ∈ onward lt key x xs := mem_onward.mpr ⟨hq, same.1⟩
  cases first : onward lt key x xs with
  | nil =>
      rw [first] at mem
      cases mem
  | cons p rest =>
      rw [first] at mem
      rcases List.mem_cons.mp mem with rfl | later
      · exact ⟨rest, rfl⟩
      · exact absurd (lt_of_mem_rest h first later) same.2

/-- A strictly increasing list holds at most one element equivalent to `x`. -/
theorem Ascending.unique {p q : P} (h : Ascending lt key xs) (hp : p ∈ xs) (hq : q ∈ xs)
    (sameP : IncompRel lt (key p) x) (sameQ : IncompRel lt (key q) x) : p = q := by
  obtain ⟨rest, first⟩ := onward_eq_cons h hp sameP
  obtain ⟨rest', first'⟩ := onward_eq_cons h hq sameQ
  exact (List.cons.inj (first.symm.trans first')).1

end Hcl.Lib
