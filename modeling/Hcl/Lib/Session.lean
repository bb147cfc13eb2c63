import Mathlib.Data.List.Forall2
import Mathlib.Data.Set.Insert
import Hcl.Lib.Atomic

/-!
Operations that make several calls.

A client's operation is one call of an object, or a collection: a list of calls that only read,
made one after the other, whose answers are put together (`Plan`). Between two calls of a
collection the object may change, so a collection does not take effect at one moment. What can
be said of it is what each of its calls saw: an answer the object could give at some moment
between the beginning of the collection and its end.

`Watched` is the object with that weaker promise: it remembers for every client the values it
has had since the client's operation began, and answers a collection from them.
`follows_watched`: if the calls are linearizable (by a simulation), the operations behave as
those of the watched object.
-/

namespace Hcl.Lib.Session

open Atomic

variable {S A T I O C D : Type*}

/-! ### The watched object -/

/-- The value of the object, where its clients are, and the values each has seen. -/
structure Watched (A T I O C D : Type*) where
  value : A
  status : T → Status (I ⊕ C) (O ⊕ D)
  seen : T → Set A

def Watched.initial (a : A) : Watched A T I O C D := ⟨a, fun _ => .idle, fun _ => {a}⟩

variable [DecidableEq T]

/-- `reads c seen d`: the collection `c` may be answered `d` by a client that has seen the
values `seen`. -/
inductive Watched.Step (spec : A → I → O → A → Prop) (reads : C → Set A → D → Prop)
    (w : Watched A T I O C D) : Option (Event T (I ⊕ C) (O ⊕ D)) → Watched A T I O C D → Prop where
  | call {t : T} {j : I ⊕ C} : w.status t = .idle →
      Step spec reads w (some (.call t j))
        ⟨w.value, Function.update w.status t (.called j), Function.update w.seen t {w.value}⟩
  | effect {t : T} {i : I} {o : O} {b : A} : w.status t = .called (.inl i) → spec w.value i o b →
      Step spec reads w none
        ⟨b, Function.update w.status t (.done (.inl o)), fun u => insert b (w.seen u)⟩
  | read {t : T} {c : C} {d : D} : w.status t = .called (.inr c) → reads c (w.seen t) d →
      Step spec reads w none ⟨w.value, Function.update w.status t (.done (.inr d)), w.seen⟩
  | ret {t : T} {r : O ⊕ D} : w.status t = .done r →
      Step spec reads w (some (.ret t r)) ⟨w.value, Function.update w.status t .idle, w.seen⟩

/-! ### The operations -/

/-- The calls a collection makes, and how their answers are put together. -/
structure Plan (I O C D : Type*) where
  parts : C → List I
  combine : C → List O → D

/-- Where a client is in its operation: before, in or after its one call, or between two
calls or in a call of a collection. -/
inductive Phase (I O C : Type*) where
  | idle
  | one (i : I)
  | oneIn (i : I)
  | oneOut (o : O)
  | all (c : C) (todo : List I) (got : List O)
  | allIn (c : C) (i : I) (todo : List I) (got : List O)

structure State (S T I O C : Type*) where
  inner : S
  phase : T → Phase I O C

def State.initial (s : S) : State S T I O C := ⟨s, fun _ => .idle⟩

/-- The machine `step` is called by clients that follow the plan. -/
inductive Step (plan : Plan I O C D) (step : S → Option (Event T I O) → S → Prop)
    (s : State S T I O C) : Option (Event T (I ⊕ C) (O ⊕ D)) → State S T I O C → Prop where
  | inner {x : S} : step s.inner none x → Step plan step s none ⟨x, s.phase⟩
  | callOne {t : T} {i : I} : s.phase t = .idle →
      Step plan step s (some (.call t (.inl i))) ⟨s.inner, Function.update s.phase t (.one i)⟩
  | enterOne {t : T} {i : I} {x : S} : s.phase t = .one i → step s.inner (some (.call t i)) x →
      Step plan step s none ⟨x, Function.update s.phase t (.oneIn i)⟩
  | leaveOne {t : T} {i : I} {o : O} {x : S} : s.phase t = .oneIn i →
      step s.inner (some (.ret t o)) x →
      Step plan step s none ⟨x, Function.update s.phase t (.oneOut o)⟩
  | retOne {t : T} {o : O} : s.phase t = .oneOut o →
      Step plan step s (some (.ret t (.inl o))) ⟨s.inner, Function.update s.phase t .idle⟩
  | callAll {t : T} {c : C} : s.phase t = .idle →
      Step plan step s (some (.call t (.inr c)))
        ⟨s.inner, Function.update s.phase t (.all c (plan.parts c) [])⟩
  | enter {t : T} {c : C} {i : I} {todo : List I} {got : List O} {x : S} :
      s.phase t = .all c (i :: todo) got → step s.inner (some (.call t i)) x →
      Step plan step s none ⟨x, Function.update s.phase t (.allIn c i todo got)⟩
  | leave {t : T} {c : C} {i : I} {todo : List I} {got : List O} {o : O} {x : S} :
      s.phase t = .allIn c i todo got → step s.inner (some (.ret t o)) x →
      Step plan step s none ⟨x, Function.update s.phase t (.all c todo (got ++ [o]))⟩
  | retAll {t : T} {c : C} {got : List O} : s.phase t = .all c [] got →
      Step plan step s (some (.ret t (.inr (plan.combine c got))))
        ⟨s.inner, Function.update s.phase t .idle⟩

/-! ### The simulation -/

variable {spec : A → I → O → A → Prop} {reads : C → Set A → D → Prop} {plan : Plan I O C D}

/-- The answer `o` to `i` is one the object could give when it had a value that was seen. -/
def Answered (spec : A → I → O → A → Prop) (seen : Set A) (i : I) (o : O) : Prop :=
  ∃ a ∈ seen, ∃ b, spec a i o b

/-- The answers a collection has got so far. -/
def Collected (spec : A → I → O → A → Prop) (plan : Plan I O C D) (seen : Set A) (c : C)
    (todo : List I) (got : List O) : Prop :=
  ∃ before, plan.parts c = before ++ todo ∧ List.Forall₂ (Answered spec seen) before got

/-- A client's phase, its status in the object the calls go to, and its status in the watched
object. -/
def Matches (spec : A → I → O → A → Prop) (plan : Plan I O C D) (seen : Set A) :
    Phase I O C → Status I O → Status (I ⊕ C) (O ⊕ D) → Prop
  | .idle, st, w => st = .idle ∧ w = .idle
  | .one i, st, w => st = .idle ∧ w = .called (.inl i)
  | .oneIn i, st, w => (st = .called i ∧ w = .called (.inl i)) ∨
      ∃ o, st = .done o ∧ w = .done (.inl o)
  | .oneOut o, st, w => st = .idle ∧ w = .done (.inl o)
  | .all c todo got, st, w => st = .idle ∧ w = .called (.inr c) ∧ Collected spec plan seen c todo got
  | .allIn c i todo got, st, w => w = .called (.inr c) ∧ Collected spec plan seen c (i :: todo) got ∧
      (st = .called i ∨ ∃ o, st = .done o ∧ Answered spec seen i o)

omit [DecidableEq T] in
theorem Answered.mono {seen seen' : Set A} (more : seen ⊆ seen') {i : I} {o : O}
    (answered : Answered spec seen i o) : Answered spec seen' i o := by
  obtain ⟨a, mem, b, allowed⟩ := answered
  exact ⟨a, more mem, b, allowed⟩

omit [DecidableEq T] in
theorem Collected.mono {seen seen' : Set A} (more : seen ⊆ seen') {c : C} {todo : List I}
    {got : List O} (collected : Collected spec plan seen c todo got) :
    Collected spec plan seen' c todo got := by
  obtain ⟨before, eq, answers⟩ := collected
  exact ⟨before, eq, answers.imp fun _ _ => Answered.mono more⟩

omit [DecidableEq T] in
theorem Matches.mono {seen seen' : Set A} (more : seen ⊆ seen') {phase : Phase I O C}
    {st : Status I O} {w : Status (I ⊕ C) (O ⊕ D)} (same : Matches spec plan seen phase st w) :
    Matches spec plan seen' phase st w := by
  cases phase with
  | idle | one _ | oneIn _ | oneOut _ => exact same
  | all c todo got => exact ⟨same.1, same.2.1, same.2.2.mono more⟩
  | allIn c i todo got =>
      obtain ⟨called, collected, status⟩ := same
      refine ⟨called, collected.mono more, status.imp_right ?_⟩
      rintro ⟨o, done, answered⟩
      exact ⟨o, done, answered.mono more⟩

/-- The watched object follows the object the calls go to. -/
structure Tracks (spec : A → I → O → A → Prop) (plan : Plan I O C D) (phase : T → Phase I O C)
    (c : Object A T I O) (w : Watched A T I O C D) : Prop where
  value : w.value = c.value
  seen : ∀ t, w.value ∈ w.seen t
  each : ∀ t, Matches spec plan (w.seen t) (phase t) (c.status t) (w.status t)

variable {phase : T → Phase I O C} {c c' : Object A T I O} {w : Watched A T I O C D}

/-- One client moves, the values stay. -/
theorem Tracks.move (tracks : Tracks spec plan phase c w) (t : T) (p : Phase I O C) (st : Status I O)
    (st' : Status (I ⊕ C) (O ⊕ D)) (same : Matches spec plan (w.seen t) p st st') :
    Tracks spec plan (Function.update phase t p) ⟨c.value, Function.update c.status t st⟩
      ⟨w.value, Function.update w.status t st', w.seen⟩ where
  value := tracks.value
  seen := tracks.seen
  each u := by
    by_cases moved : u = t
    · subst moved
      simpa only [Function.update_self] using same
    · simpa only [Function.update_of_ne moved] using tracks.each u

/-- One effect: of a client's one call, or of a call of its collection. -/
theorem Tracks.effect (tracks : Tracks spec plan phase c w) (reads : C → Set A → D → Prop)
    (pure : ∀ k, ∀ i ∈ plan.parts k, ∀ a o b, spec a i o b → b = a) {t : T} {i : I} {o : O} {b : A}
    (called : c.status t = .called i) (allowed : spec c.value i o b) :
    ∃ w', Run (Watched.Step spec reads) w [] w' ∧
      Tracks spec plan phase ⟨b, Function.update c.status t (.done o)⟩ w' := by
  have here := tracks.each t
  rw [called] at here
  cases at' : phase t with
  | idle | one _ | oneOut _ =>
      rw [at'] at here
      cases here.1
  | all k todo got =>
      rw [at'] at here
      cases here.1
  | oneIn j =>
      rw [at'] at here
      rcases here with ⟨eq, status⟩ | ⟨_, contra, -⟩
      · cases eq
        rw [← tracks.value] at allowed
        refine ⟨_, .silent .start (.effect status allowed), rfl, fun u => Set.mem_insert .., fun u => ?_⟩
        have grown := Matches.mono (Set.subset_insert b (w.seen u)) (tracks.each u)
        by_cases moved : u = t
        · subst moved
          simp only [Function.update_self, at']
          exact .inr ⟨o, rfl, rfl⟩
        · simpa only [Function.update_of_ne moved] using grown
      · cases contra
  | allIn k j todo got =>
      rw [at'] at here
      obtain ⟨status, collected, called' | ⟨_, contra, -⟩⟩ := here
      · cases called'
        -- The call only reads: the watched object stays.
        have member : i ∈ plan.parts k := by
          obtain ⟨before, eq, -⟩ := collected
          rw [eq]
          exact List.mem_append_right _ List.mem_cons_self
        cases pure k i member _ _ _ allowed
        refine ⟨w, .start, tracks.value, tracks.seen, fun u => ?_⟩
        by_cases moved : u = t
        · subst moved
          simp only [Function.update_self, at']
          refine ⟨status, collected, .inr ⟨o, rfl, w.value, tracks.seen u, ?_⟩⟩
          rw [tracks.value]
          exact ⟨_, allowed⟩
        · simpa only [Function.update_of_ne moved] using tracks.each u
      · cases contra

/-- Silent steps of the object the calls go to. -/
theorem Tracks.silent (tracks : Tracks spec plan phase c w) (reads : C → Set A → D → Prop)
    (pure : ∀ k, ∀ i ∈ plan.parts k, ∀ a o b, spec a i o b → b = a)
    (run : Run (Object.Step spec) c [] c') :
    ∃ w', Run (Watched.Step spec reads) w [] w' ∧ Tracks spec plan phase c' w' := by
  generalize shape : ([] : List (Event T I O)) = trace at run
  induction run with
  | start => exact ⟨w, .start, tracks⟩
  | silent _ taken ih =>
      obtain ⟨w₁, run, tracks₁⟩ := ih shape
      cases taken with
      | effect called allowed =>
          obtain ⟨w₂, rest, tracks₂⟩ := tracks₁.effect reads pure called allowed
          exact ⟨w₂, run.trans rest, tracks₂⟩
  | visible _ _ _ => simp at shape

/-- A client enters or leaves a call: silent steps, its step and silent steps. -/
theorem Tracks.visible (tracks : Tracks spec plan phase c w) (reads : C → Set A → D → Prop)
    (pure : ∀ k, ∀ i ∈ plan.parts k, ∀ a o b, spec a i o b → b = a) {e : Event T I O}
    (run : Run (Object.Step spec) c [e] c') (phase' : T → Phase I O C)
    (moves : ∀ (c₁ c₂ : Object A T I O) (w₁ : Watched A T I O C D), Tracks spec plan phase c₁ w₁ →
      Object.Step spec c₁ (some e) c₂ → Tracks spec plan phase' c₂ w₁) :
    ∃ w', Run (Watched.Step spec reads) w [] w' ∧ Tracks spec plan phase' c' w' := by
  obtain ⟨c₁, c₂, first, taken, rest⟩ := run.split_one
  obtain ⟨w₁, run₁, tracks₁⟩ := tracks.silent reads pure first
  obtain ⟨w₂, run₂, tracks₂⟩ := (moves c₁ c₂ w₁ tracks₁ taken).silent reads pure rest
  exact ⟨w₂, run₁.trans run₂, tracks₂⟩

section Follows

variable {step : S → Option (Event T I O) → S → Prop} {R : S → Object A T I O → Prop}
  {s s' : State S T I O C}

/-- One step of the clients is followed by the watched object. -/
theorem Tracks.moves_on (sim : Simulates step spec R)
    (pure : ∀ k, ∀ i ∈ plan.parts k, ∀ a o b, spec a i o b → b = a)
    (combines : ∀ k seen got, List.Forall₂ (Answered spec seen) (plan.parts k) got →
      reads k seen (plan.combine k got))
    (related : R s.inner c) (tracks : Tracks spec plan s.phase c w)
    {e : Option (Event T (I ⊕ C) (O ⊕ D))} (taken : Step plan step s e s') :
    ∃ c' w', R s'.inner c' ∧ Run (Watched.Step spec reads) w e.toList w' ∧
      Tracks spec plan s'.phase c' w' := by
  cases taken with
  | inner moves =>
      obtain ⟨c', run, related'⟩ := sim _ _ _ _ related moves
      obtain ⟨w', run', tracks'⟩ := tracks.silent reads pure run
      exact ⟨c', w', related', run', tracks'⟩
  | @callOne t i idle =>
      obtain ⟨inner, outer⟩ : c.status t = .idle ∧ w.status t = .idle := by
        have here := tracks.each t
        rwa [idle] at here
      refine ⟨c, _, related, .one (.call outer), tracks.value, ?_, fun u => ?_⟩
      · intro u
        by_cases moved : u = t
        · subst moved
          simp only [Function.update_self, Set.mem_singleton_iff]
        · simpa only [Function.update_of_ne moved] using tracks.seen u
      · by_cases moved : u = t
        · subst moved
          simp only [Function.update_self]
          exact ⟨inner, rfl⟩
        · simpa only [Function.update_of_ne moved] using tracks.each u
  | @callAll t k idle =>
      obtain ⟨inner, outer⟩ : c.status t = .idle ∧ w.status t = .idle := by
        have here := tracks.each t
        rwa [idle] at here
      refine ⟨c, _, related, .one (.call outer), tracks.value, ?_, fun u => ?_⟩
      · intro u
        by_cases moved : u = t
        · subst moved
          simp only [Function.update_self, Set.mem_singleton_iff]
        · simpa only [Function.update_of_ne moved] using tracks.seen u
      · by_cases moved : u = t
        · subst moved
          simp only [Function.update_self]
          exact ⟨inner, rfl, [], rfl, .nil⟩
        · simpa only [Function.update_of_ne moved] using tracks.each u
  | @retOne t o out =>
      have here := tracks.each t
      rw [out] at here
      refine ⟨c, _, related, .one (.ret here.2), ?_⟩
      have next := tracks.move t .idle .idle .idle ⟨rfl, rfl⟩
      rwa [Function.update_eq_self_iff (f := c.status) |>.mpr here.1.symm] at next
  | @retAll t k got out =>
      have here := tracks.each t
      rw [out] at here
      obtain ⟨inner, outer, before, eq, answers⟩ := here
      rw [List.append_nil] at eq
      subst eq
      have read : Watched.Step spec reads w none _ := .read outer (combines k _ got answers)
      refine ⟨c, _, related, .visible (.silent .start read) (.ret (Function.update_self ..)), ?_⟩
      have next := tracks.move t .idle .idle .idle ⟨rfl, rfl⟩
      simp only [Function.update_idem]
      rwa [Function.update_eq_self_iff (f := c.status) |>.mpr inner.symm] at next
  | @enterOne t i x one enters =>
      obtain ⟨c', run, related'⟩ := sim _ _ _ _ related enters
      obtain ⟨w', run', tracks'⟩ := tracks.visible reads pure run
        (Function.update s.phase t (.oneIn i)) (by
          intro c₁ c₂ w₁ tracks₁ taken
          cases taken with
          | call idle =>
              have here := tracks₁.each t
              rw [one] at here
              have next := tracks₁.move t (.oneIn i) (.called i) (.called (.inl i)) (.inl ⟨rfl, rfl⟩)
              rwa [Function.update_eq_self_iff (f := w₁.status) |>.mpr here.2.symm] at next)
      exact ⟨c', w', related', run', tracks'⟩
  | @leaveOne t i o x inside leaves =>
      obtain ⟨c', run, related'⟩ := sim _ _ _ _ related leaves
      obtain ⟨w', run', tracks'⟩ := tracks.visible reads pure run
        (Function.update s.phase t (.oneOut o)) (by
          intro c₁ c₂ w₁ tracks₁ taken
          cases taken with
          | ret done =>
              have here := tracks₁.each t
              rw [inside, done] at here
              rcases here with ⟨contra, -⟩ | ⟨o', eq, outer⟩
              · cases contra
              · cases eq
                have next := tracks₁.move t (.oneOut o) .idle (.done (.inl o)) ⟨rfl, rfl⟩
                rwa [Function.update_eq_self_iff (f := w₁.status) |>.mpr outer.symm] at next)
      exact ⟨c', w', related', run', tracks'⟩
  | @enter t k i todo got x between enters =>
      obtain ⟨c', run, related'⟩ := sim _ _ _ _ related enters
      obtain ⟨w', run', tracks'⟩ := tracks.visible reads pure run
        (Function.update s.phase t (.allIn k i todo got)) (by
          intro c₁ c₂ w₁ tracks₁ taken
          cases taken with
          | call idle =>
              have here := tracks₁.each t
              rw [between] at here
              have next := tracks₁.move t (.allIn k i todo got) (.called i) (.called (.inr k))
                ⟨rfl, here.2.2, .inl rfl⟩
              rwa [Function.update_eq_self_iff (f := w₁.status) |>.mpr here.2.1.symm] at next)
      exact ⟨c', w', related', run', tracks'⟩
  | @leave t k i todo got o x inside leaves =>
      obtain ⟨c', run, related'⟩ := sim _ _ _ _ related leaves
      obtain ⟨w', run', tracks'⟩ := tracks.visible reads pure run
        (Function.update s.phase t (.all k todo (got ++ [o]))) (by
          intro c₁ c₂ w₁ tracks₁ taken
          cases taken with
          | ret done =>
              have here := tracks₁.each t
              rw [inside, done] at here
              obtain ⟨outer, ⟨before, eq, answers⟩, contra | ⟨o', same, answered⟩⟩ := here
              · cases contra
              · cases same
                have grown : Collected spec plan (w₁.seen t) k todo (got ++ [o]) := by
                  refine ⟨before ++ [i], ?_, List.rel_append answers (.cons answered .nil)⟩
                  rw [eq, List.append_assoc]
                  rfl
                have next := tracks₁.move t (.all k todo (got ++ [o])) .idle (.called (.inr k))
                  ⟨rfl, rfl, grown⟩
                rwa [Function.update_eq_self_iff (f := w₁.status) |>.mpr outer.symm] at next)
      exact ⟨c', w', related', run', tracks'⟩

/-- **Operations of linearizable calls behave as those of the watched object.** -/
theorem follows_watched (sim : Simulates step spec R)
    (pure : ∀ k, ∀ i ∈ plan.parts k, ∀ a o b, spec a i o b → b = a)
    (combines : ∀ k seen got, List.Forall₂ (Answered spec seen) (plan.parts k) got →
      reads k seen (plan.combine k got))
    {x : S} {a : A} (start : R x (.initial a)) {trace : List (Event T (I ⊕ C) (O ⊕ D))}
    (run : Run (Step plan step) (.initial x) trace s) :
    ∃ w, Run (Watched.Step spec reads) (.initial a) trace w := by
  suffices followed : ∃ w c, Run (Watched.Step spec reads) (.initial a) trace w ∧ R s.inner c ∧
      Tracks spec plan s.phase c w by
    obtain ⟨w, c, run, -⟩ := followed
    exact ⟨w, run⟩
  induction run with
  | start =>
      exact ⟨.initial a, .initial a, .start, start, rfl, fun _ => Set.mem_singleton a, fun _ => ⟨rfl, rfl⟩⟩
  | silent _ taken ih =>
      obtain ⟨w, c, run, related, tracks⟩ := ih
      obtain ⟨c', w', related', rest, tracks'⟩ := tracks.moves_on sim pure combines related taken
      have joined := run.trans rest
      rw [Option.toList_none, List.append_nil] at joined
      exact ⟨w', c', joined, related', tracks'⟩
  | visible _ taken ih =>
      obtain ⟨w, c, run, related, tracks⟩ := ih
      obtain ⟨c', w', related', rest, tracks'⟩ := tracks.moves_on sim pure combines related taken
      exact ⟨w', c', run.trans rest, related', tracks'⟩

/-- What the clients do is a run of the machine they call. -/
theorem inner_run {x : S} {trace : List (Event T (I ⊕ C) (O ⊕ D))}
    (run : Run (Step plan step) (.initial x) trace s) : ∃ calls, Run step x calls s.inner := by
  induction run with
  | start => exact ⟨[], .start⟩
  | silent _ taken ih =>
      obtain ⟨calls, run⟩ := ih
      cases taken with
      | inner moves => exact ⟨calls, run.silent moves⟩
      | enterOne _ moves | leaveOne _ moves | enter _ moves | leave _ moves =>
          exact ⟨_, run.visible moves⟩
  | visible _ taken ih =>
      obtain ⟨calls, run⟩ := ih
      cases taken with
      | callOne _ | retOne _ | callAll _ | retAll _ => exact ⟨calls, run⟩

end Follows

end Hcl.Lib.Session
