import Mathlib.Logic.Function.Basic
import Hcl.Lib.Runs

/-!
Threads around one mutex.

A thread is idle or at a place inside a call. To enter a call that takes the mutex the
mutex has to be free; the call holds it until the thread leaves. A call that does not
take it enters at any time. The threads move one at a time, in any order.

The mutex is held by the thread that is inside a call that takes it
(`owns_of_reachable`), so two threads inside such calls are the same (`exclusive`).
-/

namespace Hcl.Lib.Mutex

variable {T C : Type*}

/-- Where each thread is, and who holds the mutex. -/
structure State (T C : Type*) where
  inside : T → Option C
  owner : Option T

/-- All threads idle. -/
def State.idle : State T C := ⟨fun _ => none, none⟩

/-- The calls of the threads: the places a thread may enter at, how it moves on inside a
call, and whether the call at a place takes the mutex. -/
structure Calls (T C : Type*) where
  starts : T → C → Prop
  next : C → C → Prop
  takes : T → C → Bool
  takes_next : ∀ t {c c'}, next c c' → takes t c' = takes t c

inductive Event (T C : Type*) where
  | enter (t : T) (c : C)
  | advance (t : T) (c : C)
  | leave (t : T)

variable [DecidableEq T]

/-- One step of one thread. -/
inductive Step (calls : Calls T C) (s : State T C) : Event T C → State T C → Prop where
  | enter {t : T} {c : C} : s.inside t = none → calls.starts t c →
      (calls.takes t c = true → s.owner = none) →
      Step calls s (.enter t c) ⟨Function.update s.inside t (some c),
        if calls.takes t c then some t else s.owner⟩
  | advance {t : T} {c c' : C} : s.inside t = some c → calls.next c c' →
      Step calls s (.advance t c') ⟨Function.update s.inside t (some c'), s.owner⟩
  | leave {t : T} {c : C} : s.inside t = some c →
      Step calls s (.leave t) ⟨Function.update s.inside t none,
        if calls.takes t c then none else s.owner⟩

/-- The thread is inside a call that takes the mutex. -/
def Owns (calls : Calls T C) (s : State T C) (t : T) : Prop :=
  ∃ c, s.inside t = some c ∧ calls.takes t c = true

variable {calls : Calls T C} {s s' : State T C}

omit [DecidableEq T] in
theorem owns_congr {t : T} (same : s'.inside t = s.inside t) :
    Owns calls s' t ↔ Owns calls s t := by
  rw [Owns, Owns, same]

omit [DecidableEq T] in
theorem owns_iff_of_inside {t : T} {c : C} (here : s.inside t = some c) :
    Owns calls s t ↔ calls.takes t c = true := by
  constructor
  · rintro ⟨c', here', takes⟩
    cases here.symm.trans here'
    exact takes
  · exact fun takes => ⟨c, here, takes⟩

/-- One step keeps the owner the thread that is inside. -/
theorem owns_step {event : Event T C} (owns : ∀ u, s.owner = some u ↔ Owns calls s u)
    (step : Step calls s event s') : ∀ u, s'.owner = some u ↔ Owns calls s' u := by
  -- Every step moves one thread; the others are where they were.
  cases step with
  | @enter t c idle _ free =>
      intro u
      by_cases moved : u = t
      · subst moved
        rw [owns_iff_of_inside (Function.update_self ..)]
        have notOwner : ¬ s.owner = some u := by
          rw [owns u]
          rintro ⟨c', here, -⟩
          cases here.symm.trans idle
        cases takes : calls.takes u c <;> simp [notOwner]
      · rw [owns_congr (Function.update_of_ne moved ..), ← owns u]
        cases takes : calls.takes t c with
        | false => simp
        | true => simp [free takes, Ne.symm moved]
  | @advance t c c' here next =>
      intro u
      by_cases moved : u = t
      · subst moved
        rw [owns_iff_of_inside (Function.update_self ..), calls.takes_next u next,
          ← owns_iff_of_inside here]
        exact owns u
      · rw [owns_congr (Function.update_of_ne moved ..)]
        exact owns u
  | @leave t c here =>
      intro u
      have left : ¬ Owns calls ⟨Function.update s.inside t none,
          if calls.takes t c then none else s.owner⟩ t := by
        rintro ⟨c', here', -⟩
        cases here'.symm.trans (Function.update_self ..)
      have owner := (owns t).trans (owns_iff_of_inside here)
      by_cases moved : u = t
      · subst moved
        refine iff_of_false ?_ left
        cases takes : calls.takes u c <;> simp [owner, takes]
      · rw [owns_congr (Function.update_of_ne moved ..), ← owns u]
        cases takes : calls.takes t c with
        | false => simp
        | true => simp [owner.mpr takes, Ne.symm moved]

/-- In every reachable state the mutex is held by the thread inside a call that takes it. -/
theorem owns_of_reachable (reach : Reachable (Step calls) .idle s) (t : T) :
    s.owner = some t ↔ Owns calls s t := by
  have start : ∀ u, (State.idle : State T C).owner = some u ↔ Owns calls .idle u := by
    intro u
    refine iff_of_false (fun contra => nomatch contra) ?_
    rintro ⟨c, here, -⟩
    cases here
  exact reach.invariant (P := fun s => ∀ u, s.owner = some u ↔ Owns calls s u) start
    (fun _ _ _ owns step => owns_step owns step) t

/-- **Two threads inside calls that take the mutex are the same thread.** -/
theorem exclusive (reach : Reachable (Step calls) .idle s) {t u : T} (first : Owns calls s t)
    (second : Owns calls s u) : t = u := by
  have owner := (owns_of_reachable reach t).mpr first
  rw [(owns_of_reachable reach u).mpr second] at owner
  exact (Option.some.inj owner).symm

/-- A thread that is inside has entered: places keep what holds where calls start and is
kept by moving on. -/
theorem inside_of_reachable {P : T → C → Prop} (starts : ∀ t c, calls.starts t c → P t c)
    (next : ∀ t c c', P t c → calls.next c c' → P t c')
    (reach : Reachable (Step calls) .idle s) : ∀ t c, s.inside t = some c → P t c := by
  refine reach.invariant (P := fun s => ∀ t c, s.inside t = some c → P t c)
    (fun t c contra => nomatch contra) ?_
  intro s _ s' holds step u d here
  cases step with
  | @enter t c _ start _ =>
      by_cases moved : u = t
      · subst moved
        cases here.symm.trans (Function.update_self ..)
        exact starts u d start
      · exact holds u d ((Function.update_of_ne moved ..).symm.trans here)
  | @advance t c c' here' onward =>
      by_cases moved : u = t
      · subst moved
        cases here.symm.trans (Function.update_self ..)
        exact next u c d (holds u c here') onward
      · exact holds u d ((Function.update_of_ne moved ..).symm.trans here)
  | @leave t c _ =>
      by_cases moved : u = t
      · subst moved
        cases here.symm.trans (Function.update_self ..)
      · exact holds u d ((Function.update_of_ne moved ..).symm.trans here)

end Hcl.Lib.Mutex
