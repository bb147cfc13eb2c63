import Mathlib.Logic.Function.Basic
import Hcl.Lib.Runs

/-!
Atomic objects and linearizability.

Clients call an object and get answers; what can be seen of a run are the calls and the
returns, in their order. An `Object` is the object everyone would like to have: between its
call and its return every operation takes effect at one moment, as the specification says.
A machine is `Linearizable` if the calls and returns of each of its runs are also those of a
run of the atomic object.

* `Simulates.linearizable`: it is enough to match every step of the machine by steps of the
  atomic object.
* `Object.effects`: calls that change nothing may take effect together.
* `Linearizable.abstract`: a specification may be replaced by one that simulates it.
* `Simulates.family`: machines side by side, each of which simulates an atomic object, are
  together one machine that simulates the object with all their values.
* `Simulates.renamed`: a machine behind an interface that renames its operations and answers.
* `Family.completes`: where no machine blocks a call for good, all of them together do not.
* `Family.lift`: what one of the machines can do to finish calls, all of them together can.
-/

namespace Hcl.Lib.Atomic

variable {S A B T I O E N : Type*}

/-! ### Runs with visible steps -/

/-- A call begins, or it returns. -/
inductive Event (T I O : Type*) where
  | call (t : T) (i : I)
  | ret (t : T) (o : O)

/-- Runs of a machine some of whose steps can be seen: the visible steps in order, and the
state they lead to. -/
inductive Run (step : S → Option E → S → Prop) (start : S) : List E → S → Prop where
  | start : Run step start [] start
  | silent {trace : List E} {s s' : S} :
      Run step start trace s → step s none s' → Run step start trace s'
  | visible {trace : List E} {e : E} {s s' : S} :
      Run step start trace s → step s (some e) s' → Run step start (trace ++ [e]) s'

section Run

variable {step : S → Option E → S → Prop} {s s' s'' : S} {trace trace' : List E}

theorem Run.one {e : Option E} (taken : step s e s') : Run step s e.toList s' := by
  cases e with
  | none => exact .silent .start taken
  | some e => exact .visible .start taken

theorem Run.trans (first : Run step s trace s') (second : Run step s' trace' s'') :
    Run step s (trace ++ trace') s'' := by
  induction second with
  | start => rwa [List.append_nil]
  | silent _ taken ih => exact .silent ih taken
  | visible _ taken ih =>
      rw [← List.append_assoc]
      exact .visible ih taken

/-- A run with one visible step: silent steps, the visible one, and silent steps. -/
theorem Run.split_one {e : E} (run : Run step s [e] s') :
    ∃ a b, Run step s [] a ∧ step a (some e) b ∧ Run step b [] s' := by
  generalize shape : [e] = trace at run
  induction run with
  | start => cases shape
  | silent _ taken ih =>
      obtain ⟨a, b, first, visible, rest⟩ := ih shape
      exact ⟨a, b, first, visible, rest.silent taken⟩
  | visible first taken _ =>
      have shape : [] ++ [e] = _ := shape
      obtain ⟨rfl, eq⟩ := List.append_inj' shape rfl
      cases eq
      exact ⟨_, _, first, taken, .start⟩

/-- An inductive property holds in every state of a run. -/
theorem Run.invariant {P : List E → S → Prop} (run : Run step s trace s') (base : P [] s)
    (silent : ∀ trace s s', P trace s → step s none s' → P trace s')
    (visible : ∀ trace e s s', P trace s → step s (some e) s' → P (trace ++ [e]) s') :
    P trace s' := by
  induction run with
  | start => exact base
  | silent _ taken ih => exact silent _ _ _ ih taken
  | visible _ taken ih => exact visible _ _ _ _ ih taken

end Run

/-! ### The atomic object -/

/-- Where a client is: its call has taken effect or not. -/
inductive Status (I O : Type*) where
  | idle
  | called (i : I)
  | done (o : O)

/-- The value of the object and where its clients are. -/
structure Object (A T I O : Type*) where
  value : A
  status : T → Status I O

/-- Nobody has called yet. -/
def Object.initial (a : A) : Object A T I O := ⟨a, fun _ => .idle⟩

variable [DecidableEq T]

/-- The steps of the atomic object. `spec a i o b`: from `a` the operation `i` may be
answered `o` and leave `b`. -/
inductive Object.Step (spec : A → I → O → A → Prop) (c : Object A T I O) :
    Option (Event T I O) → Object A T I O → Prop where
  | call {t : T} {i : I} : c.status t = .idle →
      Step spec c (some (.call t i)) ⟨c.value, Function.update c.status t (.called i)⟩
  | effect {t : T} {i : I} {o : O} {b : A} : c.status t = .called i → spec c.value i o b →
      Step spec c none ⟨b, Function.update c.status t (.done o)⟩
  | ret {t : T} {o : O} : c.status t = .done o →
      Step spec c (some (.ret t o)) ⟨c.value, Function.update c.status t .idle⟩

/-- Calls that leave the value as it is may take effect together, at one moment. -/
theorem Object.effects {spec : A → I → O → A → Prop} (c : Object A T I O) (ts : List T) (f : T → Option O)
    (all : ∀ t o, f t = some o → t ∈ ts ∧ ∃ i, c.status t = .called i ∧ spec c.value i o c.value) :
    Run (Object.Step spec) c [] ⟨c.value, fun t => ((f t).map Status.done).getD (c.status t)⟩ := by
  induction ts generalizing c f with
  | nil =>
      have nobody : (fun t => ((f t).map Status.done).getD (c.status t)) = c.status := by
        funext t
        cases decided : f t with
        | none => rfl
        | some o => exact absurd (all t o decided).1 List.not_mem_nil
      rw [nobody]
      exact .start
  | cons a ts ih =>
      cases first : f a with
      | none =>
          apply ih
          intro t o decided
          obtain ⟨mem, rest⟩ := all t o decided
          refine ⟨(List.mem_cons.mp mem).resolve_left ?_, rest⟩
          rintro rfl
          cases first.symm.trans decided
      | some o =>
          obtain ⟨-, i, called, allowed⟩ := all a o first
          have taken : Object.Step spec c none ⟨c.value, Function.update c.status a (.done o)⟩ :=
            .effect called allowed
          have rest := ih ⟨c.value, Function.update c.status a (.done o)⟩ (Function.update f a none) (by
            intro t o' decided
            have other : t ≠ a := by
              rintro rfl
              rw [Function.update_self] at decided
              cases decided
            rw [Function.update_of_ne other] at decided
            obtain ⟨mem, i, called, allowed⟩ := all t o' decided
            refine ⟨(List.mem_cons.mp mem).resolve_left other, i, ?_, allowed⟩
            exact (Function.update_of_ne other ..).trans called)
          have joined := (Run.one taken).trans rest
          have same : (fun t => ((Function.update f a none t).map Status.done).getD
              (Function.update c.status a (.done o) t)) =
                fun t => ((f t).map Status.done).getD (c.status t) := by
            funext t
            by_cases here : t = a
            · rw [here, first, Function.update_self, Function.update_self]
              rfl
            · rw [Function.update_of_ne here, Function.update_of_ne here]
          rw [← same]
          exact joined

/-- Every run of the machine looks like a run of the atomic object. -/
def Linearizable (step : S → Option (Event T I O) → S → Prop) (s : S) (spec : A → I → O → A → Prop)
    (a : A) : Prop :=
  ∀ trace s', Run step s trace s' → ∃ c, Run (Object.Step spec) (.initial a) trace c

/-- Every step of the machine is matched by steps of the atomic object. -/
def Simulates (step : S → Option (Event T I O) → S → Prop) (spec : A → I → O → A → Prop)
    (R : S → Object A T I O → Prop) : Prop :=
  ∀ s c e s', R s c → step s e s' → ∃ c', Run (Object.Step spec) c e.toList c' ∧ R s' c'

variable {step : S → Option (Event T I O) → S → Prop} {spec : A → I → O → A → Prop}
  {R : S → Object A T I O → Prop} {s : S} {a : A}

/-- A run is followed by the atomic object. -/
theorem Simulates.run (sim : Simulates step spec R) {c : Object A T I O} (start : R s c)
    {trace : List (Event T I O)} {s' : S} (run : Run step s trace s') :
    ∃ c', Run (Object.Step spec) c trace c' ∧ R s' c' := by
  induction run with
  | start => exact ⟨c, .start, start⟩
  | silent _ taken ih =>
      obtain ⟨c₁, run, related⟩ := ih
      obtain ⟨c', rest, related'⟩ := sim _ _ _ _ related taken
      refine ⟨c', ?_, related'⟩
      have joined := run.trans rest
      rwa [Option.toList_none, List.append_nil] at joined
  | visible _ taken ih =>
      obtain ⟨c₁, run, related⟩ := ih
      obtain ⟨c', rest, related'⟩ := sim _ _ _ _ related taken
      exact ⟨c', run.trans rest, related'⟩

/-- **The rule for linearizability.** -/
theorem Simulates.linearizable (sim : Simulates step spec R) (start : R s (.initial a)) :
    Linearizable step s spec a := by
  intro trace s' run
  obtain ⟨c, atomic, -⟩ := sim.run start run
  exact ⟨c, atomic⟩

/-- An atomic object follows another whose specification simulates its own. -/
theorem Object.Step.abstract {spec' : B → I → O → B → Prop} {Q : A → B → Prop}
    (sim : ∀ a b i o a', Q a b → spec a i o a' → ∃ b', spec' b i o b' ∧ Q a' b') :
    Simulates (T := T) (Object.Step spec) spec' fun c c' => Q c.value c'.value ∧ c'.status = c.status := by
  rintro ⟨a, status⟩ ⟨b, _⟩ e c' ⟨related, rfl⟩ taken
  cases taken with
  | call idle => exact ⟨_, .one (.call idle), related, rfl⟩
  | ret done => exact ⟨_, .one (.ret done), related, rfl⟩
  | effect called allowed =>
      obtain ⟨b', allowed', related'⟩ := sim _ _ _ _ _ related allowed
      exact ⟨_, .one (.effect called allowed'), related', rfl⟩

/-- A machine that simulates an atomic object simulates the more abstract one. -/
theorem Simulates.abstract {spec' : B → I → O → B → Prop} {Q : A → B → Prop}
    (machine : Simulates step spec R)
    (sim : ∀ a b i o a', Q a b → spec a i o a' → ∃ b', spec' b i o b' ∧ Q a' b') :
    Simulates step spec' fun s c' => ∃ c, R s c ∧ Q c.value c'.value ∧ c'.status = c.status := by
  rintro s c' e s' ⟨c, related, abstracts⟩ taken
  obtain ⟨c₁, run, related₁⟩ := machine s c e s' related taken
  obtain ⟨c₁', run', abstracts₁⟩ := (Object.Step.abstract sim).run abstracts run
  exact ⟨c₁', run', c₁, related₁, abstracts₁⟩

/-- **A specification may be replaced by one that simulates it.** -/
theorem Linearizable.abstract {spec' : B → I → O → B → Prop} {Q : A → B → Prop} {b : B}
    (lin : Linearizable step s spec a) (start : Q a b)
    (sim : ∀ a b i o a', Q a b → spec a i o a' → ∃ b', spec' b i o b' ∧ Q a' b') :
    Linearizable step s spec' b := by
  intro trace s' run
  obtain ⟨c, atomic⟩ := lin trace s' run
  obtain ⟨c', atomic', -⟩ := (Object.Step.abstract sim).run (c := .initial b) ⟨start, rfl⟩ atomic
  exact ⟨c', atomic'⟩

/-! ### Other names for the operations and the answers -/

section Renamed

variable {I' O' : Type*} {f : I' → I} {g : O → O'}

/-- The machine behind an interface: its operations are called by other names, and of its
answers the clients see the image. -/
inductive Renamed (f : I' → I) (g : O → O') (step : S → Option (Event T I O) → S → Prop) (s : S) :
    Option (Event T I' O') → S → Prop where
  | call {t : T} {i : I'} {s' : S} : step s (some (.call t (f i))) s' →
      Renamed f g step s (some (.call t i)) s'
  | silent {s' : S} : step s none s' → Renamed f g step s none s'
  | ret {t : T} {o : O} {s' : S} : step s (some (.ret t o)) s' →
      Renamed f g step s (some (.ret t (g o))) s'

/-- The specification behind the interface. -/
def renamedSpec (f : I' → I) (g : O → O') (spec : A → I → O → A → Prop) (a : A) (i : I') (o : O')
    (b : A) : Prop :=
  ∃ o', spec a (f i) o' b ∧ o = g o'

/-- A status seen through the interface. -/
inductive Status.Seen (f : I' → I) (g : O → O') : Status I O → Status I' O' → Prop where
  | idle : Seen f g .idle .idle
  | called {i : I'} : Seen f g (.called (f i)) (.called i)
  | done {o : O} : Seen f g (.done o) (.done (g o))

/-- An object seen through the interface. -/
structure Object.Seen (f : I' → I) (g : O → O') (c : Object A T I O) (c' : Object A T I' O') : Prop where
  value : c'.value = c.value
  status : ∀ t, (c.status t).Seen f g (c'.status t)

theorem Object.Seen.update {c : Object A T I O} {c' : Object A T I' O'} (seen : c.Seen f g c') (b : A)
    {t : T} {st : Status I O} {st' : Status I' O'} (same : st.Seen f g st') :
    Object.Seen f g ⟨b, Function.update c.status t st⟩ ⟨b, Function.update c'.status t st'⟩ where
  value := rfl
  status u := by
    by_cases moved : u = t
    · subst moved
      simpa only [Function.update_self] using same
    · simpa only [Function.update_of_ne moved] using seen.status u

/-- What the object does silently, the object behind the interface does. -/
theorem Object.Seen.silent {c c₁ : Object A T I O} {c' : Object A T I' O'} (seen : c.Seen f g c')
    (run : Run (Object.Step spec) c [] c₁) :
    ∃ c₁', Run (Object.Step (renamedSpec f g spec)) c' [] c₁' ∧ c₁.Seen f g c₁' := by
  generalize shape : ([] : List (Event T I O)) = trace at run
  induction run with
  | start => exact ⟨c', .start, seen⟩
  | @silent _ d d' _ taken ih =>
      obtain ⟨c₁', run, seen₁⟩ := ih shape
      cases taken with
      | @effect t i o b called allowed =>
          have status := seen₁.status t
          rw [called] at status
          generalize eq : c₁'.status t = st at status
          cases status with
          | called =>
              rw [← seen₁.value] at allowed
              exact ⟨_, run.silent (.effect eq ⟨o, allowed, rfl⟩), seen₁.update b .done⟩
  | visible _ _ _ => simp at shape

/-- **A machine behind an interface is followed by the object behind it.** -/
theorem Simulates.renamed (sim : Simulates step spec R) (f : I' → I) (g : O → O') :
    Simulates (Renamed f g step) (renamedSpec f g spec) fun s c' => ∃ c, R s c ∧ c.Seen f g c' := by
  -- A visible step of the object, between silent ones.
  have visible : ∀ {c c₁ : Object A T I O} {c' : Object A T I' O'} {e} (e'), c.Seen f g c' →
      Run (Object.Step spec) c [e] c₁ →
      (∀ {d d₁ : Object A T I O} {d' : Object A T I' O'}, d.Seen f g d' → Object.Step spec d (some e) d₁ →
        ∃ d₁', Object.Step (renamedSpec f g spec) d' (some e') d₁' ∧ d₁.Seen f g d₁') →
      ∃ c₁', Run (Object.Step (renamedSpec f g spec)) c' [e'] c₁' ∧ c₁.Seen f g c₁' := by
    intro c c₁ c' e e' seen run moves
    obtain ⟨d, d₁, first, taken, rest⟩ := run.split_one
    obtain ⟨d', first', seen'⟩ := seen.silent first
    obtain ⟨d₁', taken', seen₁⟩ := moves seen' taken
    obtain ⟨c₁', rest', seen₂⟩ := seen₁.silent rest
    exact ⟨c₁', (first'.visible taken').trans rest', seen₂⟩
  rintro s c' e s' ⟨c, related, seen⟩ taken
  cases taken with
  | silent taken =>
      obtain ⟨c₁, run, related₁⟩ := sim _ _ _ _ related taken
      obtain ⟨c₁', run', seen₁⟩ := seen.silent run
      exact ⟨c₁', run', c₁, related₁, seen₁⟩
  | @call t i _ taken =>
      obtain ⟨c₁, run, related₁⟩ := sim _ _ _ _ related taken
      obtain ⟨c₁', run', seen₁⟩ := visible (.call t i) seen run (by
        intro d d₁ d' seen taken
        cases taken with
        | call idle =>
            have status := seen.status t
            rw [idle] at status
            generalize eq : d'.status t = st at status
            cases status with
            | idle =>
                have next := seen.update d.value (t := t) (.called (i := i))
                rw [← seen.value] at next ⊢
                exact ⟨_, .call eq, next⟩)
      exact ⟨c₁', run', c₁, related₁, seen₁⟩
  | @ret t o _ taken =>
      obtain ⟨c₁, run, related₁⟩ := sim _ _ _ _ related taken
      obtain ⟨c₁', run', seen₁⟩ := visible (.ret t (g o)) seen run (by
        intro d d₁ d' seen taken
        cases taken with
        | ret done =>
            have status := seen.status t
            rw [done] at status
            generalize eq : d'.status t = st at status
            cases status with
            | done =>
                have next := seen.update d.value (t := t) .idle
                rw [← seen.value] at next ⊢
                exact ⟨_, .ret eq, next⟩)
      exact ⟨c₁', run', c₁, related₁, seen₁⟩

omit [DecidableEq T] in
/-- A step through the interface is a step of the machine: the same client calls or returns. -/
theorem Renamed.inner {s' : S} {e : Option (Event T I' O')} (taken : Renamed f g step s e s') :
    ∃ e', step s e' s' ∧ (∀ t, (∃ i, e = some (.call t i)) → ∃ i, e' = some (.call t i)) ∧
      ∀ t o, e' = some (.ret t o) → ∃ o', e = some (.ret t o') := by
  cases taken with
  | call taken =>
      refine ⟨_, taken, ?_, fun _ _ contra => nomatch contra⟩
      rintro t ⟨i, eq⟩
      cases eq
      exact ⟨_, rfl⟩
  | silent taken =>
      refine ⟨_, taken, ?_, fun _ _ contra => nomatch contra⟩
      rintro t ⟨i, contra⟩
      cases contra
  | ret taken =>
      refine ⟨_, taken, ?_, ?_⟩
      · rintro t ⟨i, contra⟩
        cases contra
      · intro t o eq
        cases eq
        exact ⟨_, rfl⟩

omit [DecidableEq T] in
/-- A client that can return from the machine can return through the interface. -/
theorem Renamed.returns {t : T} {o : O} {s' : S} (run : Run step s [.ret t o] s') :
    Run (Renamed f g step) s [.ret t (g o)] s' := by
  have silent : ∀ {s s' : S}, Run step s [] s' → Run (Renamed f g step) s [] s' := by
    intro s s' run
    generalize shape : ([] : List (Event T I O)) = trace at run
    induction run with
    | start => exact .start
    | silent _ taken ih => exact (ih shape).silent (.silent taken)
    | visible _ _ _ => simp at shape
  obtain ⟨a, b, first, taken, rest⟩ := run.split_one
  exact ((silent first).visible (.ret taken)).trans (silent rest)

end Renamed

/-! ### Machines side by side -/

section Family

variable [DecidableEq N]

/-- A machine for each `n`, and the machine a client is in. -/
structure Family (N S T : Type*) where
  parts : N → S
  place : T → Option N

/-- A client that is in no machine calls the one its operation is for, and returns from the
machine it is in. -/
inductive Family.Step (target : I → N) (step : N → S → Option (Event T I O) → S → Prop)
    (f : Family N S T) : Option (Event T I O) → Family N S T → Prop where
  | call {t : T} {i : I} {s : S} : f.place t = none →
      step (target i) (f.parts (target i)) (some (.call t i)) s →
      Step target step f (some (.call t i))
        ⟨Function.update f.parts (target i) s, Function.update f.place t (some (target i))⟩
  | silent {n : N} {s : S} : step n (f.parts n) none s →
      Step target step f none ⟨Function.update f.parts n s, f.place⟩
  | ret {n : N} {t : T} {o : O} {s : S} : f.place t = some n →
      step n (f.parts n) (some (.ret t o)) s →
      Step target step f (some (.ret t o))
        ⟨Function.update f.parts n s, Function.update f.place t none⟩

/-- An operation on the value it is for. -/
def familySpec (target : I → N) (spec : N → A → I → O → A → Prop) (a : N → A) (i : I) (o : O)
    (b : N → A) : Prop :=
  ∃ x, spec (target i) (a (target i)) i o x ∧ b = Function.update a (target i) x

/-- The objects side by side are the object with all their values. -/
structure Together (target : I → N) (place : T → Option N) (cs : N → Object A T I O)
    (c : Object (N → A) T I O) : Prop where
  value : ∀ n, c.value n = (cs n).value
  outside : ∀ t, place t = none → c.status t = .idle
  inside : ∀ t n, place t = some n → c.status t = (cs n).status t
  apart : ∀ t n, place t ≠ some n → (cs n).status t = .idle
  called : ∀ t n i, (cs n).status t = .called i → target i = n

variable {target : I → N} {specs : N → A → I → O → A → Prop} {place : T → Option N}
  {cs : N → Object A T I O} {c : Object (N → A) T I O}

omit [DecidableEq T] [DecidableEq N] in
theorem Together.initial (a : N → A) :
    Together target (fun _ : T => none) (fun n => (.initial (a n) : Object A T I O)) (.initial a) :=
  ⟨fun _ => rfl, fun _ _ => rfl, fun _ _ _ => rfl, fun _ _ _ => rfl,
    fun _ _ _ contra => nomatch contra⟩

omit [DecidableEq T] [DecidableEq N] in
/-- A client that is at work in an object is in its place. -/
theorem Together.place_eq (joined : Together target place cs c) {t : T} {n : N}
    (busy : (cs n).status t ≠ .idle) : place t = some n := by
  by_contra other
  exact busy (joined.apart t n other)

/-- One client moves in one object, and is in place `p` then. -/
theorem Together.move (joined : Together target place cs c) (n : N) (t : T) (x : A)
    (st : Status I O) {p : Option N} (here : p = none ∧ st = .idle ∨ p = some n)
    (before : place t = none ∨ place t = some n) (called : ∀ i, st = .called i → target i = n) :
    Together target (Function.update place t p)
      (Function.update cs n ⟨x, Function.update (cs n).status t st⟩)
      ⟨Function.update c.value n x, Function.update c.status t st⟩ := by
  have values : ∀ m, (Function.update cs n ⟨x, Function.update (cs n).status t st⟩ m).value =
      Function.update c.value n x m := by
    intro m
    by_cases same : m = n
    · rw [same, Function.update_self, Function.update_self]
    · rw [Function.update_of_ne same, Function.update_of_ne same, joined.value]
  have others : ∀ m u, u ≠ t →
      (Function.update cs n ⟨x, Function.update (cs n).status t st⟩ m).status u = (cs m).status u := by
    intro m u other
    by_cases same : m = n
    · simp only [same, Function.update_self, Function.update_of_ne other]
    · rw [Function.update_of_ne same]
  have mine : ∀ m, (Function.update cs n ⟨x, Function.update (cs n).status t st⟩ m).status t =
      if m = n then st else .idle := by
    intro m
    by_cases same : m = n
    · simp only [same, Function.update_self, if_true]
    · rw [Function.update_of_ne same, if_neg same]
      apply joined.apart
      rcases before with out | out
      · rw [out]
        exact fun contra => nomatch contra
      · rw [out]
        exact fun eq => same (Option.some.inj eq).symm
  constructor
  · exact fun m => (values m).symm
  · intro u out
    by_cases same : u = t
    · subst same
      rw [Function.update_self] at out
      rcases here with ⟨-, idle⟩ | there
      · exact (Function.update_self ..).trans idle
      · rw [there] at out
        cases out
    · rw [Function.update_of_ne same] at out
      exact (Function.update_of_ne same ..).trans (joined.outside u out)
  · intro u m at'
    by_cases same : u = t
    · subst same
      rw [Function.update_self] at at'
      rw [mine]
      rcases here with ⟨out, -⟩ | there
      · rw [out] at at'
        cases at'
      · rw [there] at at'
        cases at'
        exact (Function.update_self ..).trans (if_pos rfl).symm
    · rw [Function.update_of_ne same] at at'
      rw [others m u same]
      exact (Function.update_of_ne same ..).trans (joined.inside u m at')
  · intro u m away
    by_cases same : u = t
    · subst same
      rw [Function.update_self] at away
      rw [mine]
      rcases here with ⟨-, idle⟩ | there
      · rw [idle, ite_self]
      · rw [there] at away
        exact if_neg fun eq => away (by rw [eq])
    · rw [Function.update_of_ne same] at away
      rw [others m u same]
      exact joined.apart u m away
  · intro u m i waits
    by_cases same : u = t
    · subst same
      rw [mine] at waits
      split at waits
      · rename_i eq
        rw [eq]
        exact called i waits
      · cases waits
    · rw [others m u same] at waits
      exact joined.called u m i waits

/-- Where the clients are after events of the object `n`. -/
def moved (n : N) : (T → Option N) → List (Event T I O) → T → Option N
  | place, [] => place
  | place, .call t _ :: rest => moved n (Function.update place t (some n)) rest
  | place, .ret t _ :: rest => moved n (Function.update place t none) rest

omit [DecidableEq N] in
theorem moved_concat (n : N) (place : T → Option N) (trace : List (Event T I O)) (e : Event T I O) :
    moved n place (trace ++ [e]) = moved n (moved n place trace) [e] := by
  induction trace generalizing place with
  | nil => rfl
  | cons d rest ih => cases d <;> exact ih _

omit [DecidableEq N] in
/-- Events of the object `n` bring a client nowhere else. -/
theorem moved_or {n : N} {place : T → Option N} {t : T} (before : place t = none ∨ place t = some n)
    (trace : List (Event T I O)) : moved n place trace t = none ∨ moved n place trace t = some n := by
  induction trace generalizing place with
  | nil => exact before
  | cons d rest ih =>
      cases d with
      | call u i =>
          apply ih
          by_cases same : t = u
          · subst same
            exact .inr (Function.update_self ..)
          · rwa [Function.update_of_ne same]
      | ret u o =>
          apply ih
          by_cases same : t = u
          · subst same
            exact .inl (Function.update_self ..)
          · rwa [Function.update_of_ne same]

/-- The object with all the values follows a run of one of the objects. -/
theorem Together.run (joined : Together target place cs c) {n : N} {trace : List (Event T I O)}
    {d : Object A T I O} (run : Run (Object.Step (specs n)) (cs n) trace d)
    (calls : ∀ t i, .call t i ∈ trace → target i = n ∧ (place t = none ∨ place t = some n)) :
    ∃ c', Run (Object.Step (familySpec target specs)) c trace c' ∧
      Together target (moved n place trace) (Function.update cs n d) c' := by
  induction run with
  | start =>
      refine ⟨c, .start, ?_⟩
      rwa [Function.update_eq_self]
  | @silent trace d d' _ taken ih =>
      obtain ⟨c₁, run, joined₁⟩ := ih calls
      cases taken with
      | @effect t i o x called allowed =>
          have here : (Function.update cs n d n).status t = .called i := by
            rwa [Function.update_self]
          have place := joined₁.place_eq (t := t) (n := n) (by rw [here]; exact fun contra => nomatch contra)
          have status := joined₁.inside t n place
          have value : c₁.value n = d.value := by
            rw [joined₁.value, Function.update_self]
          have goal : target i = n := joined₁.called t n i here
          have effect : familySpec target specs c₁.value i o (Function.update c₁.value (target i) x) := by
            refine ⟨x, ?_, rfl⟩
            rwa [goal, value]
          refine ⟨_, run.silent (.effect (status.trans here) effect), ?_⟩
          have next := joined₁.move n t x (.done o) (.inr place)
            (.inr place) fun _ contra => nomatch contra
          rw [Function.update_eq_self, Function.update_idem, Function.update_self] at next
          rwa [goal]
  | @visible trace e d d' _ taken ih =>
      obtain ⟨c₁, run, joined₁⟩ := ih fun t i mem => calls t i (List.mem_append_left _ mem)
      have value : Function.update c₁.value n d.value = c₁.value := by
        have here := joined₁.value n
        rw [Function.update_self] at here
        rw [← here, Function.update_eq_self]
      rw [moved_concat]
      cases taken with
      | @call t i idle =>
          obtain ⟨goal, before⟩ := calls t i (List.mem_append_right _ (List.mem_singleton.mpr rfl))
          have at' := moved_or before trace
          have status : c₁.status t = .idle := by
            rcases at' with out | here
            · exact joined₁.outside t out
            · rw [joined₁.inside t n here, Function.update_self, idle]
          refine ⟨_, run.visible (.call status), ?_⟩
          have next := joined₁.move n t d.value (.called i) (.inr (rfl : some n = some n))
            at' fun _ eq => by cases eq; exact goal
          rwa [Function.update_idem, Function.update_self, value] at next
      | @ret t o done =>
          have here : (Function.update cs n d n).status t = .done o := by
            rwa [Function.update_self]
          have place := joined₁.place_eq (t := t) (n := n) (by rw [here]; exact fun contra => nomatch contra)
          refine ⟨_, run.visible (.ret ((joined₁.inside t n place).trans here)), ?_⟩
          have next := joined₁.move n t d.value .idle
            (.inl ⟨rfl, rfl⟩) (.inr place) fun _ contra => nomatch contra
          rwa [Function.update_idem, Function.update_self, value] at next

/-- **Machines side by side simulate one object with all their values.** -/
theorem Simulates.family {steps : N → S → Option (Event T I O) → S → Prop}
    {Rs : N → S → Object A T I O → Prop} (sims : ∀ n, Simulates (steps n) (specs n) (Rs n)) :
    Simulates (Family.Step target steps) (familySpec target specs) fun f c =>
      ∃ cs, (∀ n, Rs n (f.parts n) (cs n)) ∧ Together target f.place cs c := by
  rintro f c e f' ⟨cs, related, joined⟩ taken
  -- The machine that moves is followed by its own object; the others stay.
  have each : ∀ {n s d}, Rs n s d → ∀ m, Rs m (Function.update f.parts n s m) (Function.update cs n d m) := by
    intro n s d next m
    by_cases same : m = n
    · subst same
      rwa [Function.update_self, Function.update_self]
    · rw [Function.update_of_ne same, Function.update_of_ne same]
      exact related m
  cases taken with
  | @call t i s out taken =>
      obtain ⟨d, run, next⟩ := sims _ _ _ _ _ (related (target i)) taken
      obtain ⟨c', run', joined'⟩ := joined.run run fun u j mem => by
        cases List.mem_singleton.mp mem
        exact ⟨rfl, .inl out⟩
      exact ⟨c', run', _, each next, joined'⟩
  | @silent n s taken =>
      obtain ⟨d, run, next⟩ := sims _ _ _ _ _ (related n) taken
      obtain ⟨c', run', joined'⟩ := joined.run run fun u j mem => nomatch mem
      exact ⟨c', run', _, each next, joined'⟩
  | @ret n t o s _ taken =>
      obtain ⟨d, run, next⟩ := sims _ _ _ _ _ (related n) taken
      obtain ⟨c', run', joined'⟩ := joined.run run fun u j mem => by
        cases List.mem_singleton.mp mem
      exact ⟨c', run', _, each next, joined'⟩

/-- Nobody is in any of the machines. -/
def Family.initial (parts : N → S) : Family N S T := ⟨parts, fun _ => none⟩

/-- **Machines side by side are linearizable together.** -/
theorem Simulates.family_linearizable {steps : N → S → Option (Event T I O) → S → Prop}
    {Rs : N → S → Object A T I O → Prop} (sims : ∀ n, Simulates (steps n) (specs n) (Rs n))
    {parts : N → S} {values : N → A} (start : ∀ n, Rs n (parts n) (.initial (values n))) :
    Linearizable (Family.Step target steps) (.initial parts) (familySpec target specs) values :=
  (Simulates.family sims).linearizable ⟨_, start, Together.initial values⟩

/-- A run of one machine in which clients that are in it return is a run of all of them. -/
theorem Family.lift (target : I → N) (steps : N → S → Option (Event T I O) → S → Prop)
    {f : Family N S T} {n : N}
    {trace : List (Event T I O)} {s : S} (run : Run (steps n) (f.parts n) trace s)
    (returns : ∀ e ∈ trace, ∃ t o, e = .ret t o)
    (placed : ∀ before t o, before ++ [.ret t o] <+: trace → moved n f.place before t = some n) :
    Run (Family.Step target steps) f trace
      ⟨Function.update f.parts n s, moved n f.place trace⟩ := by
  induction run with
  | start =>
      rw [Function.update_eq_self]
      exact .start
  | @silent trace s s' _ taken ih =>
      have moves : steps n (Function.update f.parts n s n) none s' := by
        rwa [Function.update_self]
      have next : Family.Step target steps ⟨Function.update f.parts n s, moved n f.place trace⟩ none _ :=
        .silent moves
      rw [Function.update_idem] at next
      exact (ih returns placed).silent next
  | @visible trace e s s' _ taken ih =>
      have before := ih (fun e mem => returns e (List.mem_append_left _ mem))
        fun a t o first => placed a t o (first.trans (List.prefix_append _ _))
      obtain ⟨t, o, rfl⟩ := returns e (List.mem_append_right _ (List.mem_singleton.mpr rfl))
      rw [moved_concat]
      have moves : steps n (Function.update f.parts n s n) (some (.ret t o)) s' := by
        rwa [Function.update_self]
      have next : Family.Step target steps ⟨Function.update f.parts n s, moved n f.place trace⟩
          (some (.ret t o)) _ := .ret (placed trace t o (List.prefix_refl _)) moves
      rw [Function.update_idem] at next
      exact before.visible next

/-- Every machine is as it should be, and a client in the place of one is at work there. -/
structure Family.Sound (P : N → S → Prop) (busy : T → S → Prop) (f : Family N S T) : Prop where
  each : ∀ n, P n (f.parts n)
  busy : ∀ t n, f.place t = some n → busy t (f.parts n)

section Progress

variable {P : N → S → Prop} {busy : T → S → Prop} {steps : N → S → Option (Event T I O) → S → Prop}

theorem Family.Sound.kept {f f' : Family N S T} {e : Option (Event T I O)} (sound : f.Sound P busy)
    (keeps : ∀ n s e s', P n s → steps n s e s' → P n s')
    (works : ∀ n s e s' t, P n s → steps n s e s' → busy t s ∨ (∃ i, e = some (.call t i)) →
      (∀ o, e ≠ some (.ret t o)) → busy t s')
    (taken : Family.Step target steps f e f') : f'.Sound P busy := by
  have each : ∀ {n e s}, steps n (f.parts n) e s → ∀ m, P m (Function.update f.parts n s m) := by
    intro n e s taken m
    by_cases same : m = n
    · subst same
      rw [Function.update_self]
      exact keeps m _ _ _ (sound.each m) taken
    · rw [Function.update_of_ne same]
      exact sound.each m
  have works : ∀ {n e s}, steps n (f.parts n) e s → ∀ u m, (m = n → ∀ o, e ≠ some (.ret u o)) →
      (f.place u = some m ∨ m = n ∧ ∃ i, e = some (.call u i)) →
      busy u (Function.update f.parts n s m) := by
    intro n e s taken u m stays before
    by_cases same : m = n
    · subst same
      rw [Function.update_self]
      exact works m _ _ _ u (sound.each m) taken (before.imp (sound.busy u m) And.right) (stays rfl)
    · rw [Function.update_of_ne same]
      rcases before with here | ⟨eq, -⟩
      · exact sound.busy u m here
      · exact absurd eq same
  cases taken with
  | @call t i s out taken =>
      refine ⟨each taken, fun u m here => works taken u m (fun _ _ contra => nomatch contra) ?_⟩
      by_cases moved : u = t
      · subst moved
        cases (Function.update_self ..).symm.trans here
        exact .inr ⟨rfl, i, rfl⟩
      · exact .inl ((Function.update_of_ne moved ..).symm.trans here)
  | @silent n s taken =>
      exact ⟨each taken, fun u m here => works taken u m (fun _ _ contra => nomatch contra) (.inl here)⟩
  | @ret n t o s _ taken =>
      refine ⟨each taken, fun u m here => ?_⟩
      have other : u ≠ t := by
        rintro rfl
        cases (Function.update_self ..).symm.trans here
      refine works taken u m (fun _ p eq => ?_) (.inl ((Function.update_of_ne other ..).symm.trans here))
      cases eq
      exact other rfl

/-- **A call that does not get stuck in its machine does not among them all.** -/
theorem Family.completes (keeps : ∀ n s e s', P n s → steps n s e s' → P n s')
    (works : ∀ n s e s' t, P n s → steps n s e s' → busy t s ∨ (∃ i, e = some (.call t i)) →
      (∀ o, e ≠ some (.ret t o)) → busy t s')
    {parts : N → S} (start : ∀ n, P n (parts n)) {f : Family N S T} {trace : List (Event T I O)}
    (run : Run (Family.Step target steps) (.initial parts) trace f) {t : T} {n : N}
    (here : f.place t = some n)
    (returns : P n (f.parts n) → busy t (f.parts n) → ∃ o s', Run (steps n) (f.parts n) [.ret t o] s') :
    ∃ o f', Run (Family.Step target steps) f [.ret t o] f' ∧ f'.place t = none := by
  have sound : f.Sound P busy := by
    refine run.invariant (P := fun _ f => Family.Sound P busy f) ⟨start, fun _ _ contra => nomatch contra⟩
      ?_ ?_
    · exact fun _ _ _ sound taken => sound.kept keeps works taken
    · exact fun _ _ _ _ sound taken => sound.kept keeps works taken
  obtain ⟨o, s, rest⟩ := returns (sound.each n) (sound.busy t n here)
  have lifted := Family.lift target steps rest (fun e mem => ⟨t, o, List.mem_singleton.mp mem⟩) ?_
  · exact ⟨o, _, lifted, Function.update_self ..⟩
  · intro before u p first
    have short := first.length_le
    cases before with
    | nil =>
        cases (List.cons_prefix_cons.mp first).1
        exact here
    | cons e rest => simp at short

end Progress

/-- The events of the machine `n` in a run of all of them, by where the clients are. -/
def eventsAt (target : I → N) (n : N) : (T → Option N) → List (Event T I O) → List (Event T I O)
  | _, [] => []
  | place, .call t i :: rest =>
      let later := eventsAt target n (Function.update place t (some (target i))) rest
      if target i = n then .call t i :: later else later
  | place, .ret t o :: rest =>
      let later := eventsAt target n (Function.update place t none) rest
      if place t = some n then .ret t o :: later else later

/-- Where the clients are after events of any machines. -/
def placed (target : I → N) : (T → Option N) → List (Event T I O) → T → Option N
  | place, [] => place
  | place, .call t i :: rest => placed target (Function.update place t (some (target i))) rest
  | place, .ret t _ :: rest => placed target (Function.update place t none) rest

omit [DecidableEq N] in
theorem placed_concat (place : T → Option N) (trace : List (Event T I O)) (e : Event T I O) :
    placed target place (trace ++ [e]) = placed target (placed target place trace) [e] := by
  induction trace generalizing place with
  | nil => rfl
  | cons d rest ih => cases d <;> exact ih _

theorem eventsAt_concat (n : N) (place : T → Option N) (trace : List (Event T I O)) (e : Event T I O) :
    eventsAt target n place (trace ++ [e]) =
      eventsAt target n place trace ++ eventsAt target n (placed target place trace) [e] := by
  induction trace generalizing place with
  | nil => rfl
  | cons d rest ih =>
      cases d with
      | call t i =>
          simp only [List.cons_append, eventsAt, placed, ih]
          split <;> rfl
      | ret t o =>
          simp only [List.cons_append, eventsAt, placed, ih]
          split <;> rfl

/-- **A run of all machines is, for each of them, a run of it.** -/
theorem Family.project {steps : N → S → Option (Event T I O) → S → Prop} {parts : N → S}
    {f : Family N S T} {trace : List (Event T I O)}
    (run : Run (Family.Step target steps) (.initial parts) trace f) (n : N) :
    Run (steps n) (parts n) (eventsAt target n (fun _ => none) trace) (f.parts n) := by
  have both : Run (steps n) (parts n) (eventsAt target n (fun _ => none) trace) (f.parts n) ∧
      f.place = placed target (fun _ => none) trace := by
    induction run with
    | start => exact ⟨.start, rfl⟩
    | @silent trace f f' _ taken ih =>
        obtain ⟨run, place⟩ := ih
        cases taken with
        | @silent m s moves =>
            refine ⟨?_, place⟩
            by_cases same : n = m
            · subst same
              simp only [Function.update_self]
              exact run.silent moves
            · simp only [Function.update_of_ne same]
              exact run
    | @visible trace e f f' _ taken ih =>
        obtain ⟨run, place⟩ := ih
        rw [eventsAt_concat, placed_concat, ← place]
        cases taken with
        | @call t i s out moves =>
            refine ⟨?_, rfl⟩
            by_cases same : target i = n
            · subst same
              simp only [eventsAt, if_true, Function.update_self]
              exact run.visible moves
            · simp only [eventsAt, if_neg same, List.append_nil, Function.update_of_ne (Ne.symm same)]
              exact run
        | @ret m t o s here moves =>
            refine ⟨?_, rfl⟩
            by_cases same : m = n
            · subst same
              simp only [eventsAt, if_pos here, Function.update_self]
              exact run.visible moves
            · have elsewhere : f.place t ≠ some n := by
                rw [here]
                exact fun eq => same (Option.some.inj eq)
              simp only [eventsAt, if_neg elsewhere, List.append_nil, Function.update_of_ne (Ne.symm same)]
              exact run
  exact both.1

end Family

end Hcl.Lib.Atomic
