import Mathlib.Logic.Relation
import Mathlib.Order.WellFounded

/-!
Threads that wait for what others hold.

If every thread takes what it needs in the order of a well-founded relation, nobody waits in a
circle: from any thread the waiting leads, after finitely many others, to one that waits for
nothing (`Waiting.leads_out`).
-/

namespace Hcl.Lib

open Relation

variable {Thread Resource : Type*}

/-- What each thread holds, and what it waits for. -/
structure Waiting (Thread Resource : Type*) where
  Holds : Thread → Resource → Prop
  Wants : Thread → Resource → Prop

/-- One thread waits for what another holds. -/
def Waiting.For (w : Waiting Thread Resource) (t u : Thread) : Prop :=
  ∃ r, w.Wants t r ∧ w.Holds u r

/-- **Who takes resources in order waits, through finitely many threads, for one that waits for
nothing.** -/
theorem Waiting.leads_out (w : Waiting Thread Resource) {before : Resource → Resource → Prop}
    (order : WellFounded before) (held : ∀ t r, w.Wants t r → ∃ u, w.Holds u r)
    (ordered : ∀ t r r', w.Holds t r → w.Wants t r' → before r' r) (t : Thread) :
    ∃ u, ReflTransGen w.For t u ∧ (∀ r, ¬ w.Wants u r) ∧ (u = t ∨ ∃ r, w.Holds u r) := by
  have waits : ∀ r t, w.Wants t r →
      ∃ u, ReflTransGen w.For t u ∧ (∀ r, ¬ w.Wants u r) ∧ ∃ r, w.Holds u r := by
    intro r
    -- What the holder waits for in turn comes before what it holds.
    induction r using order.induction with
    | _ r ih =>
        intro t wants
        obtain ⟨u, holds⟩ := held t r wants
        have first : w.For t u := ⟨r, wants, holds⟩
        by_cases more : ∃ r', w.Wants u r'
        · obtain ⟨r', wants'⟩ := more
          obtain ⟨v, chain, out⟩ := ih r' (ordered u r r' holds wants') u wants'
          exact ⟨v, .head first chain, out⟩
        · exact ⟨u, .single first, fun r' wants' => more ⟨r', wants'⟩, r, holds⟩
  by_cases some : ∃ r, w.Wants t r
  · obtain ⟨r, wants⟩ := some
    obtain ⟨u, chain, free, holds⟩ := waits r t wants
    exact ⟨u, chain, free, .inr holds⟩
  · exact ⟨t, .refl, fun r wants => some ⟨r, wants⟩, .inl rfl⟩

end Hcl.Lib
