import Mathlib.Data.List.Nodup
import Mathlib.Data.List.Perm.Basic

/-!
Things that are kept in places.

`contents i` lists what the place `i` holds. The places partition what there is
(`Partition`) when each thing is in one place and occurs there once. Two rules keep a
partition: one thing moves from one place to another (`Partition.move`), and new things
arrive at one place (`Partition.arrive`).
-/

namespace Hcl.Lib

variable {I P : Type*} {contents contents' : I → List P} {all all' : P → Prop} {i j : I} {a : P}

/-- The places hold all there is and nothing else, and nothing is in two places or twice
in one. -/
structure Partition (contents : I → List P) (all : P → Prop) : Prop where
  nodup : ∀ i, (contents i).Nodup
  covers : ∀ a, all a ↔ ∃ i, a ∈ contents i
  apart : ∀ i j a, a ∈ contents i → a ∈ contents j → i = j

theorem Partition.existsUnique (parts : Partition contents all) (there : all a) :
    ∃! i, a ∈ contents i := by
  obtain ⟨i, mem⟩ := (parts.covers a).mp there
  exact ⟨i, mem, fun j mem' => parts.apart j i a mem' mem⟩

/-- What is in one place is not in another. -/
theorem Partition.not_mem (parts : Partition contents all) (other : j ≠ i) (mem : a ∈ contents i) :
    a ∉ contents j :=
  fun mem' => other (parts.apart j i a mem' mem)

/-- `a` moves from `i` to `j`. -/
theorem Partition.move (parts : Partition contents all) (other : j ≠ i)
    (leaves : (contents i).Perm (a :: contents' i)) (enters : (contents' j).Perm (a :: contents j))
    (rest : ∀ l, l ≠ i → l ≠ j → contents' l = contents l) : Partition contents' all := by
  have here : a ∈ contents i := leaves.mem_iff.mpr List.mem_cons_self
  have source : (a :: contents' i).Nodup := leaves.nodup_iff.mp (parts.nodup i)
  have away : a ∉ contents j := parts.not_mem other here
  -- Everything but `a` is where it was.
  have same : ∀ c l, c ≠ a → (c ∈ contents' l ↔ c ∈ contents l) := by
    intro c l ne
    by_cases first : l = i
    · rw [first, leaves.mem_iff, List.mem_cons, or_iff_right ne]
    · by_cases second : l = j
      · rw [second, enters.mem_iff, List.mem_cons, or_iff_right ne]
      · rw [rest l first second]
  have only : ∀ l, a ∈ contents' l ↔ l = j := by
    intro l
    constructor
    · intro mem
      by_contra elsewhere
      by_cases first : l = i
      · exact (List.nodup_cons.mp source).1 (first ▸ mem)
      · rw [rest l first elsewhere] at mem
        exact parts.not_mem first here mem
    · rintro rfl
      exact enters.mem_iff.mpr List.mem_cons_self
  constructor
  · intro l
    by_cases first : l = i
    · rw [first]
      exact (List.nodup_cons.mp source).2
    · by_cases second : l = j
      · rw [second, enters.nodup_iff]
        exact List.nodup_cons.mpr ⟨away, parts.nodup j⟩
      · rw [rest l first second]
        exact parts.nodup l
  · intro c
    rw [parts.covers]
    by_cases eq : c = a
    · subst eq
      exact ⟨fun _ => ⟨j, (only j).mpr rfl⟩, fun _ => ⟨i, here⟩⟩
    · exact exists_congr fun l => (same c l eq).symm
  · intro l l' c mem mem'
    by_cases eq : c = a
    · subst eq
      exact ((only l).mp mem).trans ((only l').mp mem').symm
    · exact parts.apart l l' c ((same c l eq).mp mem) ((same c l' eq).mp mem')

/-- New things arrive at `i`, which was empty. -/
theorem Partition.arrive (parts : Partition contents all) (fresh : ∀ a ∈ contents' i, ¬ all a)
    (nodup : (contents' i).Nodup) (empty : contents i = [])
    (rest : ∀ l, l ≠ i → contents' l = contents l)
    (grown : ∀ a, all' a ↔ all a ∨ a ∈ contents' i) : Partition contents' all' := by
  have only : ∀ l, ∀ c ∈ contents' i, c ∈ contents' l → l = i := by
    intro l c new mem
    by_contra elsewhere
    rw [rest l elsewhere] at mem
    exact fresh c new ((parts.covers c).mpr ⟨l, mem⟩)
  constructor
  · intro l
    by_cases here : l = i
    · rwa [here]
    · rw [rest l here]
      exact parts.nodup l
  · intro c
    rw [grown, parts.covers]
    constructor
    · rintro (⟨l, mem⟩ | new)
      · refine ⟨l, ?_⟩
        rw [rest l]
        · exact mem
        · rintro rfl
          rw [empty] at mem
          cases mem
      · exact ⟨i, new⟩
    · rintro ⟨l, mem⟩
      by_cases here : l = i
      · exact Or.inr (here ▸ mem)
      · rw [rest l here] at mem
        exact Or.inl ⟨l, mem⟩
  · intro l l' c mem mem'
    by_cases here : l = i
    · subst here
      exact (only l' c mem mem').symm
    · by_cases here' : l' = i
      · subst here'
        exact only l c mem' mem
      · rw [rest l here] at mem
        rw [rest l' here'] at mem'
        exact parts.apart l l' c mem mem'

end Hcl.Lib
