import Mathlib.Data.List.Infix

/-!
Computations that may fault, and runs of machines whose steps may.

A machine that keeps an invariant, and whose steps fault exactly when a condition on the state
before the step is not met, runs to the end exactly when every step meets the condition
(`exists_run_iff`), and the invariant holds in every state on the way (`run_invariant`).
-/

namespace Hcl.Lib

theorem ok_bind {E A B : Type} (a : A) (f : A → Except E B) : (Except.ok a >>= f) = f a := rfl

theorem bind_eq_ok_iff {E A B : Type} {x : Except E A} {f : A → Except E B} {b : B} :
    (x >>= f) = .ok b ↔ ∃ a, x = .ok a ∧ f a = .ok b := by
  cases x with
  | error e =>
      constructor
      · intro contra
        cases contra
      · rintro ⟨_, contra, -⟩
        cases contra
  | ok a =>
      constructor
      · intro done
        exact ⟨a, rfl, done⟩
      · rintro ⟨_, ⟨⟩, done⟩
        exact done

section Runs

variable {S I E : Type} {step : S → I → Except E S} {meets : S → I → Prop} {inv : S → Prop}

/-- Every step of a run meets the condition, in the state it is taken from. -/
def AllMeet (step : S → I → Except E S) (meets : S → I → Prop) : S → List I → Prop
  | _, [] => True
  | s, i :: is => meets s i ∧ ∀ s', step s i = .ok s' → AllMeet step meets s' is

/-- What a run reaches, its beginnings reach. -/
theorem run_of_prefix {s last : S} {is js : List I} (front : js <+: is)
    (run : is.foldlM step s = .ok last) : ∃ t, js.foldlM step s = .ok t := by
  obtain ⟨rest, rfl⟩ := front
  rw [List.foldlM_append] at run
  obtain ⟨t, first, -⟩ := bind_eq_ok_iff.mp run
  exact ⟨t, first⟩

theorem run_invariant (kept : ∀ s i t, inv s → step s i = .ok t → inv t) {s t : S} {is : List I}
    (start : inv s) (run : is.foldlM step s = .ok t) : inv t := by
  induction is generalizing s with
  | nil =>
      cases run
      exact start
  | cons i is ih =>
      rw [List.foldlM_cons] at run
      obtain ⟨next, taken, rest⟩ := bind_eq_ok_iff.mp run
      exact ih (kept s i next start taken) rest

/-- A run gets to its end exactly when every step meets the condition. -/
theorem exists_run_iff (kept : ∀ s i t, inv s → step s i = .ok t → inv t)
    (exact : ∀ s i, inv s → ((∃ t, step s i = .ok t) ↔ meets s i)) {s : S} (start : inv s)
    (is : List I) : (∃ t, is.foldlM step s = .ok t) ↔ AllMeet step meets s is := by
  induction is generalizing s with
  | nil => exact ⟨fun _ => trivial, fun _ => ⟨s, rfl⟩⟩
  | cons i is ih =>
      rw [List.foldlM_cons]
      constructor
      · rintro ⟨t, run⟩
        obtain ⟨next, taken, rest⟩ := bind_eq_ok_iff.mp run
        refine ⟨(exact s i start).mp ⟨next, taken⟩, ?_⟩
        intro s' same
        cases taken.symm.trans same
        exact (ih (kept s i next start taken)).mp ⟨t, rest⟩
      · rintro ⟨first, others⟩
        obtain ⟨next, taken⟩ := (exact s i start).mpr first
        obtain ⟨t, rest⟩ := (ih (kept s i next start taken)).mpr (others next taken)
        exact ⟨t, bind_eq_ok_iff.mpr ⟨next, taken, rest⟩⟩

end Runs

end Hcl.Lib
