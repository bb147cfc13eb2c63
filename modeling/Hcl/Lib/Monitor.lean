import Hcl.Lib.Atomic

/-!
Objects behind a mutex.

A `Program` says how an operation runs on an object: where it begins, and what one access
does at each place, which either moves on or answers. In the machine (`Step`) every client
locks the mutex before its first access and unlocks it after its last; between two steps of
one client any steps of the others may come.

* `linearizable`: the machine is linearizable, for the specification that runs every
  operation alone from its first access to its last (`Finishes`).
* `completes`: if the operations end when they run alone, then in every reachable state
  every call that has begun can still be brought to its return.
-/

namespace Hcl.Lib.Monitor

open Atomic

variable {S T I P O : Type*}

/-- How the operations run on the object, one access at a time. -/
structure Program (S I P O : Type*) where
  entry : I → P
  access : P → S → S × (P ⊕ O)

/-- What an operation at a place does alone: its answer and the object it leaves. -/
inductive Finishes (program : Program S I P O) : P → S → O → S → Prop where
  | last {p : P} {x y : S} {o : O} : program.access p x = (y, .inr o) → Finishes program p x o y
  | next {p q : P} {x y z : S} {o : O} : program.access p x = (y, .inl q) →
      Finishes program q y o z → Finishes program p x o z

/-- The specification of a whole operation. -/
def Program.runs (program : Program S I P O) (x : S) (i : I) (o : O) (y : S) : Prop :=
  Finishes program (program.entry i) x o y

/-- Where a client is. -/
inductive Phase (I P O : Type*) where
  | idle
  | waiting (i : I)
  | inside (i : I) (p : P)
  | leaving (o : O)
  | answered (o : O)

/-- The client holds the mutex. -/
def Phase.Holds : Phase I P O → Prop
  | .inside _ _ | .leaving _ => True
  | _ => False

/-- The object, the client that holds its mutex, and where the clients are. -/
structure State (S T I P O : Type*) where
  object : S
  owner : Option T
  phase : T → Phase I P O

/-- Nobody has called yet. -/
def State.initial (x : S) : State S T I P O := ⟨x, none, fun _ => .idle⟩

variable [DecidableEq T]

/-- One step of one client. -/
inductive Step (program : Program S I P O) (s : State S T I P O) :
    Option (Event T I O) → State S T I P O → Prop where
  | call {t : T} {i : I} : s.phase t = .idle →
      Step program s (some (.call t i)) ⟨s.object, s.owner, Function.update s.phase t (.waiting i)⟩
  | lock {t : T} {i : I} : s.phase t = .waiting i → s.owner = none →
      Step program s none
        ⟨s.object, some t, Function.update s.phase t (.inside i (program.entry i))⟩
  | access {t : T} {i : I} {p q : P} {x : S} : s.phase t = .inside i p →
      program.access p s.object = (x, .inl q) →
      Step program s none ⟨x, s.owner, Function.update s.phase t (.inside i q)⟩
  | last {t : T} {i : I} {p : P} {x : S} {o : O} : s.phase t = .inside i p →
      program.access p s.object = (x, .inr o) →
      Step program s none ⟨x, s.owner, Function.update s.phase t (.leaving o)⟩
  | unlock {t : T} {o : O} : s.phase t = .leaving o →
      Step program s none ⟨s.object, none, Function.update s.phase t (.answered o)⟩
  | ret {t : T} {o : O} : s.phase t = .answered o →
      Step program s (some (.ret t o)) ⟨s.object, s.owner, Function.update s.phase t .idle⟩

/-! ### The mutex -/

/-- The owner of the mutex is the client that holds it. -/
def Owned (s : State S T I P O) : Prop := ∀ t, s.owner = some t ↔ (s.phase t).Holds

variable {program : Program S I P O} {s s' : State S T I P O}

omit [DecidableEq T] in
theorem Owned.initial (x : S) : Owned (.initial x : State S T I P O) :=
  fun _ => iff_of_false (fun contra => nomatch contra) id

omit [DecidableEq T] in
/-- Only the owner is inside. -/
theorem Owned.eq_of_holds (owned : Owned s) {t u : T} (first : (s.phase t).Holds)
    (second : (s.phase u).Holds) : t = u := by
  have owner := (owned t).mpr first
  rw [(owned u).mpr second] at owner
  exact (Option.some.inj owner).symm

/-- A client that moves and neither takes nor gives back the mutex. -/
theorem Owned.move (owned : Owned s) {t : T} {phase : Phase I P O} {x : S}
    (same : phase.Holds ↔ (s.phase t).Holds) :
    Owned ⟨x, s.owner, Function.update s.phase t phase⟩ := by
  intro u
  by_cases moved : u = t
  · subst moved
    simp only [Function.update_self]
    rw [same]
    exact owned u
  · simp only [Function.update_of_ne moved]
    exact owned u

/-- One step keeps the owner. -/
theorem Owned.step {e : Option (Event T I O)} (owned : Owned s) (taken : Step program s e s') :
    Owned s' := by
  cases taken with
  | call idle => exact owned.move (by rw [idle]; exact Iff.rfl)
  | access here _ => exact owned.move (by rw [here]; exact Iff.rfl)
  | last here _ => exact owned.move (by rw [here]; exact Iff.rfl)
  | ret done => exact owned.move (by rw [done]; exact Iff.rfl)
  | @lock t i _ free =>
      intro u
      by_cases moved : u = t
      · subst moved
        simp only [Function.update_self]
        exact iff_of_true trivial trivial
      · simp only [Function.update_of_ne moved]
        rw [← owned u, free]
        exact iff_of_false (fun eq => moved (Option.some.inj eq).symm) fun contra => nomatch contra
  | @unlock t o here =>
      have mine : (s.phase t).Holds := by
        rw [here]
        trivial
      intro u
      by_cases moved : u = t
      · subst moved
        simp only [Function.update_self]
        exact iff_of_false (fun contra => nomatch contra) id
      · simp only [Function.update_of_ne moved]
        exact iff_of_false (fun contra => nomatch contra) fun holds => moved (owned.eq_of_holds holds mine)

/-! ### The atomic object -/

/-- A call takes effect with its last access. -/
def Phase.status : Phase I P O → Status I O
  | .idle => .idle
  | .waiting i => .called i
  | .inside i _ => .called i
  | .leaving o => .done o
  | .answered o => .done o

/-- The atomic object the machine behaves as. A client that is inside has brought the value
of the atomic object to the object as it is: what it does from here on, it does from its
entry on that value. -/
structure Follows (program : Program S I P O) (s : State S T I P O) (c : Object S T I O) : Prop where
  owned : Owned s
  status : ∀ t, c.status t = (s.phase t).status
  free : (∀ t i p, s.phase t ≠ .inside i p) → c.value = s.object
  inside : ∀ t i p, s.phase t = .inside i p →
    ∀ o y, Finishes program p s.object o y → program.runs c.value i o y

omit [DecidableEq T] in
theorem Follows.initial (x : S) :
    Follows program (.initial x : State S T I P O) (.initial x : Object S T I O) :=
  ⟨.initial x, fun _ => rfl, fun _ => rfl, fun _ _ _ contra => nomatch contra⟩

/-- The statuses after one client has moved. -/
theorem Follows.status_update {c : Object S T I O} (follows : Follows program s c) (t : T)
    (phase : Phase I P O) {st : Status I O} (same : st = phase.status) (u : T) :
    Function.update c.status t st u = (Function.update s.phase t phase u).status := by
  by_cases moved : u = t
  · subst moved
    rw [Function.update_self, Function.update_self, same]
  · rw [Function.update_of_ne moved, Function.update_of_ne moved, follows.status]

/-- A client that moves while the object stays, and is not inside before or after. -/
theorem Follows.outside {c : Object S T I O} (follows : Follows program s c) (t : T)
    (owner : Option T) (phase : Phase I P O) {st : Status I O} (same : st = phase.status)
    (before : ∀ i p, s.phase t ≠ .inside i p) (after : ∀ i p, phase ≠ .inside i p)
    (owned : Owned ⟨s.object, owner, Function.update s.phase t phase⟩) :
    Follows program ⟨s.object, owner, Function.update s.phase t phase⟩
      ⟨c.value, Function.update c.status t st⟩ where
  owned := owned
  status := follows.status_update t phase same
  free none := by
    apply follows.free
    intro u i p here
    by_cases moved : u = t
    · subst moved
      exact before i p here
    · exact none u i p ((Function.update_of_ne moved ..).trans here)
  inside u i p here := by
    by_cases moved : u = t
    · subst moved
      exact absurd ((Function.update_self ..).symm.trans here) (after i p)
    · exact follows.inside u i p ((Function.update_of_ne moved ..).symm.trans here)

/-- **Every step of the machine is a step of the atomic object or none.** -/
theorem simulates (program : Program S I P O) :
    Simulates (T := T) (Step program) program.runs (Follows program) := by
  intro s c e s' follows taken
  have owned := follows.owned.step taken
  -- A client inside holds the mutex, so no other is inside.
  have alone : ∀ {t i p}, s.phase t = .inside i p → ∀ {u j q}, u ≠ t → s.phase u ≠ .inside j q := by
    intro t i p here u j q other there
    have mine : (s.phase t).Holds := by
      rw [here]
      trivial
    have theirs : (s.phase u).Holds := by
      rw [there]
      trivial
    exact other (follows.owned.eq_of_holds theirs mine)
  cases taken with
  | @call t i idle =>
      have status : c.status t = .idle := by
        rw [follows.status, idle]
        rfl
      refine ⟨_, .one (.call status), follows.outside t s.owner _ rfl ?_ ?_ owned⟩
      · rw [idle]
        exact fun _ _ contra => nomatch contra
      · exact fun _ _ contra => nomatch contra
  | @ret t o done =>
      have status : c.status t = .done o := by
        rw [follows.status, done]
        rfl
      refine ⟨_, .one (.ret status), follows.outside t s.owner _ rfl ?_ ?_ owned⟩
      · rw [done]
        exact fun _ _ contra => nomatch contra
      · exact fun _ _ contra => nomatch contra
  | @unlock t o here =>
      refine ⟨c, .start, ?_⟩
      have next := follows.outside t none (.answered o) rfl
        (by rw [here]; exact fun _ _ contra => nomatch contra) (fun _ _ contra => nomatch contra) owned
      have same : Function.update c.status t (Phase.answered o : Phase I P O).status = c.status := by
        rw [Function.update_eq_self_iff, follows.status, here]
        rfl
      rwa [same] at next
  | @lock t i waits free =>
      have value : c.value = s.object := by
        apply follows.free
        intro u j q there
        have holds : (s.phase u).Holds := by
          rw [there]
          trivial
        rw [← follows.owned u, free] at holds
        cases holds
      refine ⟨c, .start, owned, ?_, ?_, ?_⟩
      · intro u
        have next := follows.status_update t (.inside i (program.entry i)) rfl u
        rwa [Function.update_eq_self_iff.mpr (by rw [follows.status, waits]; rfl)] at next
      · exact fun vacant => absurd (Function.update_self ..) (vacant t i (program.entry i))
      · intro u j q here o y finishes
        by_cases moved : u = t
        · subst moved
          cases (Function.update_self ..).symm.trans here
          rwa [Program.runs, value]
        · have there := (Function.update_of_ne moved ..).symm.trans here
          exact follows.inside u j q there o y finishes
  | @access t i p q x here accessed =>
      refine ⟨c, .start, owned, ?_, ?_, ?_⟩
      · intro u
        have next := follows.status_update t (.inside i q) rfl u
        rwa [Function.update_eq_self_iff.mpr (by rw [follows.status, here]; rfl)] at next
      · exact fun vacant => absurd (Function.update_self ..) (vacant t i q)
      · intro u j r there o y finishes
        by_cases moved : u = t
        · subst moved
          cases (Function.update_self ..).symm.trans there
          exact follows.inside u i p here o y (.next accessed finishes)
        · exact absurd ((Function.update_of_ne moved ..).symm.trans there) (alone here moved)
  | @last t i p x o here accessed =>
      -- The last access is where the call takes effect.
      have status : c.status t = .called i := by
        rw [follows.status, here]
        rfl
      have effect := follows.inside t i p here o x (.last accessed)
      refine ⟨_, .one (.effect status effect), owned, follows.status_update t _ rfl, fun _ => rfl, ?_⟩
      intro u j r there
      by_cases moved : u = t
      · subst moved
        cases (Function.update_self ..).symm.trans there
      · exact absurd ((Function.update_of_ne moved ..).symm.trans there) (alone here moved)

/-- **An object behind a mutex is linearizable.** -/
theorem linearizable (program : Program S I P O) (x : S) :
    Linearizable (T := T) (Step program) (.initial x) program.runs x :=
  (simulates program).linearizable (.initial x)

/-- **Objects behind a mutex each are linearizable together.** -/
theorem family_linearizable {N : Type*} [DecidableEq N] (target : I → N) (program : Program S I P O)
    (x : S) :
    Linearizable (T := T) (Family.Step target fun _ => Step program) (.initial fun _ => .initial x)
      (familySpec target fun _ => program.runs) fun _ => x :=
  Simulates.family_linearizable (fun _ => simulates program) fun _ => .initial x

/-! ### Calls can be completed -/

/-- A client inside can go on to the end of its operation. -/
theorem Finishes.run {p : P} {x y : S} {o : O} (finishes : Finishes program p x o y) {t : T} {i : I}
    (here : s.phase t = .inside i p) (object : s.object = x) :
    Run (Step program) s [] ⟨y, s.owner, Function.update s.phase t (.leaving o)⟩ := by
  induction finishes generalizing s with
  | last accessed => exact .silent .start (.last here (by rwa [object]))
  | @next p q x y z o accessed _ ih =>
      have first : Step program s none ⟨y, s.owner, Function.update s.phase t (.inside i q)⟩ :=
        .access here (by rwa [object])
      have rest := ih (s := ⟨y, s.owner, Function.update s.phase t (.inside i q)⟩)
        (Function.update_self ..) rfl
      simp only [Function.update_idem] at rest
      exact (Run.one first).trans rest

/-- A client inside or leaving can give the mutex back. -/
theorem gives_back (ends : ∀ p x, ∃ o y, Finishes program p x o y) {t : T} (holds : (s.phase t).Holds) :
    ∃ y o, Run (Step program) s [] ⟨y, none, Function.update s.phase t (.answered o)⟩ := by
  cases here : s.phase t with
  | inside i p =>
      obtain ⟨o, y, finishes⟩ := ends p s.object
      have run := (finishes.run here rfl).silent (.unlock (t := t) (Function.update_self ..))
      simp only [Function.update_idem] at run
      exact ⟨y, o, run⟩
  | leaving o => exact ⟨s.object, o, .silent .start (.unlock here)⟩
  | idle | waiting _ | answered _ =>
      rw [here] at holds
      exact holds.elim

/-- **A call that has begun can be brought to its return.** -/
theorem completes (ends : ∀ p x, ∃ o y, Finishes program p x o y) (owned : Owned s) {t : T}
    (busy : s.phase t ≠ .idle) :
    ∃ o s', Run (Step program) s [.ret t o] s' ∧ s'.phase t = .idle := by
  -- Once the call is answered it returns.
  have returns : ∀ {s₁ : State S T I P O} {o}, Run (Step program) s [] s₁ → s₁.phase t = .answered o →
      ∃ o s', Run (Step program) s [.ret t o] s' ∧ s'.phase t = .idle :=
    fun run answered => ⟨_, _, run.visible (.ret answered), Function.update_self ..⟩
  -- Once the mutex is free a waiting client goes in, and comes out again.
  have enters : ∀ {s₁ : State S T I P O} {i}, Run (Step program) s [] s₁ → s₁.owner = none →
      s₁.phase t = .waiting i → ∃ o s', Run (Step program) s [.ret t o] s' ∧ s'.phase t = .idle := by
    intro s₁ i run free waits
    obtain ⟨y, o, rest⟩ := gives_back (t := t) ends
      (s := ⟨s₁.object, some t, Function.update s₁.phase t (.inside i (program.entry i))⟩)
      (by simp only [Function.update_self]; trivial)
    exact returns ((run.silent (.lock waits free)).trans rest) (Function.update_self ..)
  cases here : s.phase t with
  | idle => exact absurd here busy
  | answered o => exact returns .start here
  | inside i p =>
      obtain ⟨y, o, run⟩ := gives_back (t := t) ends (by rw [here]; trivial)
      exact returns run (Function.update_self ..)
  | leaving o =>
      obtain ⟨y, o, run⟩ := gives_back (t := t) ends (by rw [here]; trivial)
      exact returns run (Function.update_self ..)
  | waiting i =>
      cases owner : s.owner with
      | none => exact enters .start owner here
      | some u =>
          have holds := (owned u).mp owner
          obtain ⟨y, o, run⟩ := gives_back ends holds
          have other : t ≠ u := by
            rintro rfl
            rw [here] at holds
            exact holds
          exact enters run rfl ((Function.update_of_ne other ..).trans here)

/-- A call that has begun is under way until it returns. -/
theorem Step.busy {e : Option (Event T I O)} (taken : Step program s e s') {u : T}
    (before : s.phase u ≠ .idle ∨ ∃ i, e = some (.call u i)) (stays : ∀ o, e ≠ some (.ret u o)) :
    s'.phase u ≠ .idle := by
  -- Every step moves one client; it comes to rest only with its return.
  have moves : ∀ {t : T} {phase : Phase I P O}, phase ≠ .idle → (u ≠ t → s.phase u ≠ .idle) →
      Function.update s.phase t phase u ≠ .idle := by
    intro t phase after others
    by_cases moved : u = t
    · subst moved
      rwa [Function.update_self]
    · rw [Function.update_of_ne moved]
      exact others moved
  cases taken with
  | @call t i _ =>
      refine moves (fun contra => nomatch contra) fun other => ?_
      rcases before with busy | ⟨j, eq⟩
      · exact busy
      · cases eq
        exact absurd rfl other
  | @ret t o _ =>
      have other : u ≠ t := by
        rintro rfl
        exact stays o rfl
      rcases before with busy | ⟨j, eq⟩
      · exact fun idle => busy ((Function.update_of_ne other ..).symm.trans idle)
      · cases eq
  | lock _ _ | access _ _ | last _ _ | unlock _ =>
      refine moves (fun contra => nomatch contra) fun _ => ?_
      rcases before with busy | ⟨j, eq⟩
      · exact busy
      · cases eq

section Family

variable {N : Type*} [DecidableEq N] {target : I → N} {f : Family N (State S T I P O) T}

/-- **No call gets stuck.** In every state a run of the objects reaches, a call that has
begun can be brought to its return. -/
theorem family_completes (ends : ∀ p x, ∃ o y, Finishes program p x o y) {x : S}
    {trace : List (Event T I O)}
    (run : Run (Family.Step target fun _ => Step program) (.initial fun _ => .initial x) trace f)
    {t : T} {n : N} (here : f.place t = some n) :
    ∃ o f', Run (Family.Step target fun _ => Step program) f [.ret t o] f' ∧ f'.place t = none := by
  have works : ∀ (_ : N) (s : State S T I P O) e s' t, Owned s → Step program s e s' →
      s.phase t ≠ .idle ∨ (∃ i, e = some (.call t i)) → (∀ o, e ≠ some (.ret t o)) →
      s'.phase t ≠ .idle :=
    fun _ _ _ _ _ _ taken before stays => taken.busy before stays
  refine Family.completes (P := fun _ => Owned) (fun _ _ _ _ owned taken => owned.step taken)
    works (fun _ => .initial x) run here ?_
  intro owned busy
  obtain ⟨o, s', rest, -⟩ := completes ends owned busy
  exact ⟨o, s', rest⟩

end Family

end Hcl.Lib.Monitor
