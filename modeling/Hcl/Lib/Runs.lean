import Mathlib.Data.List.Basic

/-!
Runs of a state machine and the two rules every refinement below is proved by.

A machine consumes a list of inputs and answers each of them. `answers` runs a
total machine, `answers?` one whose step may get stuck (a fault, a wait that
never ends, an exhausted loop bound). A specification is either a second total
machine or a relation `spec a i o b`: from `a` the input `i` may be answered `o`
and leave `b`.

* `answers_eq_of_simulation`: two total machines related by a simulation give
  the same answers, and the relation holds at the end.
* `answers_of_simulation`: the answers of a total machine that refines a
  relational specification are a run of the specification.
* `answers?_of_simulation`: a possibly stuck machine that refines a relational
  specification never gets stuck, and its answers are a run of the specification.
* `forall_of_answers?`: a run that gets to its end has met what each of its steps
  needs.
* `Reachable.invariant`: an inductive property holds of every reachable state.
-/

namespace Hcl.Lib

variable {S A I O : Type*}

/-! ### Total machines -/

/-- Run a total machine over a list of inputs: the final state and the answers. -/
def answers (step : S → I → S × O) : S → List I → S × List O
  | s, [] => (s, [])
  | s, i :: is =>
      let out := step s i
      let rest := answers step out.1 is
      (rest.1, out.2 :: rest.2)

@[simp] theorem answers_nil (step : S → I → S × O) (s : S) : answers step s [] = (s, []) := rfl

@[simp] theorem answers_cons (step : S → I → S × O) (s : S) (i : I) (is : List I) :
    answers step s (i :: is) =
      ((answers step (step s i).1 is).1, (step s i).2 :: (answers step (step s i).1 is).2) := rfl

/-- One more input at the end of a run. -/
theorem answers_concat (step : S → I → S × O) (s : S) (is : List I) (i : I) :
    answers step s (is ++ [i]) =
      ((step (answers step s is).1 i).1, (answers step s is).2 ++ [(step (answers step s is).1 i).2]) := by
  induction is generalizing s with
  | nil => rfl
  | cons j is ih => simp only [List.cons_append, answers_cons, ih]

/-- Simulation of total machines over the inputs that satisfy `ok`. -/
theorem answers_eq_of_simulation {step : S → I → S × O} {spec : A → I → A × O}
    {R : S → A → Prop} {ok : I → Prop}
    (sim : ∀ s a i, R s a → ok i →
      R (step s i).1 (spec a i).1 ∧ (step s i).2 = (spec a i).2)
    {s : S} {a : A} (start : R s a) {is : List I} (admitted : ∀ i ∈ is, ok i) :
    R (answers step s is).1 (answers spec a is).1 ∧
      (answers step s is).2 = (answers spec a is).2 := by
  induction is generalizing s a with
  | nil => exact ⟨start, rfl⟩
  | cons i is ih =>
      obtain ⟨next, same⟩ := sim s a i start (admitted i List.mem_cons_self)
      obtain ⟨last, tail⟩ := ih next fun j hj => admitted j (List.mem_cons_of_mem _ hj)
      exact ⟨last, by simp only [answers_cons, same, tail]⟩

/-- Runs of a relational specification: inputs, answers and final state. -/
inductive SpecRun (spec : A → I → O → A → Prop) : A → List I → List O → A → Prop where
  | nil {a : A} : SpecRun spec a [] [] a
  | cons {a b c : A} {i : I} {o : O} {is : List I} {os : List O} :
      spec a i o b → SpecRun spec b is os c → SpecRun spec a (i :: is) (o :: os) c

/-- Simulation of a total machine against a relational specification, over the
inputs that satisfy `ok`. -/
theorem answers_of_simulation {step : S → I → S × O} {spec : A → I → O → A → Prop}
    {R : S → A → Prop} {ok : I → Prop}
    (sim : ∀ s a i, R s a → ok i → ∃ b, spec a i (step s i).2 b ∧ R (step s i).1 b)
    {s : S} {a : A} (start : R s a) {is : List I} (admitted : ∀ i ∈ is, ok i) :
    ∃ b, SpecRun spec a is (answers step s is).2 b ∧ R (answers step s is).1 b := by
  induction is generalizing s a with
  | nil => exact ⟨a, .nil, start⟩
  | cons i is ih =>
      obtain ⟨b, allowed, next⟩ := sim s a i start (admitted i List.mem_cons_self)
      obtain ⟨c, run, last⟩ := ih next fun j hj => admitted j (List.mem_cons_of_mem _ hj)
      exact ⟨c, .cons allowed run, last⟩

/-! ### Machines that may get stuck -/

/-- Run a machine whose step may get stuck. -/
def answers? (step : S → I → Option (S × O)) : S → List I → Option (S × List O)
  | s, [] => some (s, [])
  | s, i :: is => do
      let out ← step s i
      let rest ← answers? step out.1 is
      return (rest.1, out.2 :: rest.2)

/-- A machine that answers every admitted input from every related state as the
specification allows runs to the end on every admitted list of inputs. -/
theorem answers?_of_simulation {step : S → I → Option (S × O)} {spec : A → I → O → A → Prop}
    {R : S → A → Prop} {ok : I → Prop}
    (sim : ∀ s a i, R s a → ok i →
      ∃ s' o b, step s i = some (s', o) ∧ spec a i o b ∧ R s' b)
    {s : S} {a : A} (start : R s a) {is : List I} (admitted : ∀ i ∈ is, ok i) :
    ∃ s' os b, answers? step s is = some (s', os) ∧ SpecRun spec a is os b ∧ R s' b := by
  induction is generalizing s a with
  | nil => exact ⟨s, [], a, rfl, .nil, start⟩
  | cons i is ih =>
      obtain ⟨s₁, o, b, first, allowed, next⟩ := sim s a i start (admitted i List.mem_cons_self)
      obtain ⟨s₂, os, c, rest, run, last⟩ := ih next fun j hj =>
        admitted j (List.mem_cons_of_mem _ hj)
      refine ⟨s₂, o :: os, c, ?_, .cons allowed run, last⟩
      simp [answers?, first, rest]

/-- What every step needs of its input, every input of a run that gets to its end has. -/
theorem forall_of_answers? {step : S → I → Option (S × O)} {P : S → Prop} {ok : I → Prop}
    (next : ∀ s i out, P s → step s i = some out → ok i ∧ P out.1)
    {s : S} (start : P s) {is : List I} {out : S × List O} (ran : answers? step s is = some out) :
    ∀ i ∈ is, ok i := by
  induction is generalizing s out with
  | nil => exact fun _ mem => absurd mem List.not_mem_nil
  | cons i is ih =>
      simp only [answers?, Option.bind_eq_bind, Option.bind_eq_some_iff] at ran
      obtain ⟨mid, first, last, rest, -⟩ := ran
      obtain ⟨this, kept⟩ := next s i mid start first
      exact List.forall_mem_cons.mpr ⟨this, ih kept rest⟩

/-! ### Reachable states of a step relation -/

/-- The states a labelled step relation reaches from `start`, by any number of
steps in any order. -/
inductive Reachable (step : S → I → S → Prop) (start : S) : S → Prop where
  | start : Reachable step start start
  | step {s t : S} {i : I} : Reachable step start s → step s i t → Reachable step start t

theorem Reachable.trans {step : S → I → S → Prop} {a b c : S} (first : Reachable step a b)
    (second : Reachable step b c) : Reachable step a c := by
  induction second with
  | start => exact first
  | step _ taken ih => exact .step ih taken

theorem Reachable.mono {step step' : S → I → S → Prop} {a b : S} (weaker : ∀ s i t, step s i t → step' s i t)
    (run : Reachable step a b) : Reachable step' a b := by
  induction run with
  | start => exact .start
  | step _ taken ih => exact .step ih (weaker _ _ _ taken)

/-- The induction rule for safety: a property that holds at the start and is
preserved by every step holds of every reachable state. -/
theorem Reachable.invariant {step : S → I → S → Prop} {start s : S} {P : S → Prop}
    (reach : Reachable step start s) (base : P start)
    (next : ∀ s i t, P s → step s i t → P t) : P s := by
  induction reach with
  | start => exact base
  | step _ taken ih => exact next _ _ _ ih taken

end Hcl.Lib
