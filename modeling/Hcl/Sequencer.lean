import Mathlib.Algebra.Group.Nat.Defs
import Mathlib.Data.Finset.Card
import Hcl.Lib.Monitor
import Hcl.Container

/-!
`hcl::global_sequence`: a counter on every server, behind the mutex of its segment.

`LocalGetNextSequence` returns `++*value`; a load, a store and the load of the result, all
under the mutex. `GetNextSequence` asks the caller's own server and `GetNextSequenceServer` the
server it names. Whatever the interleaving, the numbers one server gives out are different, and
a number returned before a call begins is less than the one that call gets
(`numbers_are_ordered`), as long as the server is called fewer than 2^64 times.
-/

namespace Hcl.GlobalSequence

open Hcl.Lib Hcl.Lib.Atomic Hcl.Lib.Monitor

/-- The calls of the class, by the object they are made on. -/
inductive Call where
  | getNextSequence (caller : Container)
  | getNextSequenceServer (caller : Container) (server : UInt16)

/-- The server whose counter the call works on. -/
def Call.target : Call → UInt16
  | .getNextSequence caller =>
      if caller.isLocalNode then caller.myServerIdx else caller.myServerIdx
  | .getNextSequenceServer caller server =>
      if caller.isLocal server then caller.myServerIdx else server

/-- The accesses to `*value` in `return ++*value`. -/
inductive Place where
  | load
  | store (loaded : UInt64)
  | result

/-- `LocalGetNextSequence`. -/
def program : Program UInt64 Call Place UInt64 where
  entry _ := .load
  access
    | .load, value => (value, .inl (.store value))
    | .store loaded, _ => (loaded + 1, .inl .result)
    | .result, value => (value, .inr value)

theorem runs_eq {value value' number : UInt64} {call : Call}
    (runs : program.runs value call number value') : number = value + 1 ∧ value' = value + 1 := by
  cases runs with
  | last accessed => cases accessed
  | next accessed rest =>
      cases accessed
      cases rest with
      | last accessed => cases accessed
      | next accessed rest =>
          cases accessed
          cases rest with
          | last accessed =>
              cases accessed
              exact ⟨rfl, rfl⟩
          | next accessed _ => cases accessed

variable {T : Type*} [DecidableEq T]

/-- The servers, each with its counter, and the clients. -/
abbrev Servers (T : Type*) := Family UInt16 (State UInt64 T Call Place UInt64) T

/-- One step of one client. -/
def Servers.Step : Servers T → Option (Event T Call UInt64) → Servers T → Prop :=
  Family.Step Call.target fun _ => Monitor.Step program

/-- `construct_shared_memory` sets every counter to 0. -/
def Servers.initial : Servers T := Family.initial fun _ => State.initial 0

/-! ### The calls and numbers of one server -/

abbrev Trace (T : Type*) := List (Event T Call UInt64)

/-- The numbers returned, in the order of the returns. -/
def numbers (trace : Trace T) : List UInt64 :=
  trace.filterMap fun
    | .call _ _ => none
    | .ret _ number => some number

/-- How many calls have begun. -/
def calls (trace : Trace T) : Nat :=
  trace.countP fun
    | .call _ _ => true
    | .ret _ _ => false

/-- The events at the counter of one server. -/
def atServer (n : UInt16) (trace : Trace T) : Trace T := eventsAt Call.target n (fun _ => none) trace

/-- `x` was returned before a call of `u` began. -/
def Before (trace : Trace T) (x : UInt64) (u : T) : Prop :=
  ∃ a i b, trace = a ++ .call u i :: b ∧ x ∈ numbers a

/-- Every number a client gets is greater than those returned before its call. -/
def Ordered (trace : Trace T) : Prop :=
  ∀ a u y b, trace = a ++ .ret u y :: b → ∀ x, Before a x u → x < y

section Trace

omit [DecidableEq T]

theorem numbers_concat_call (trace : Trace T) (t : T) (i : Call) :
    numbers (trace ++ [.call t i]) = numbers trace := by
  simp [numbers]

theorem numbers_concat_ret (trace : Trace T) (t : T) (x : UInt64) :
    numbers (trace ++ [.ret t x]) = numbers trace ++ [x] := by
  simp [numbers]

theorem calls_concat_call (trace : Trace T) (t : T) (i : Call) :
    calls (trace ++ [.call t i]) = calls trace + 1 := by
  simp [calls]

theorem calls_concat_ret (trace : Trace T) (t : T) (x : UInt64) :
    calls (trace ++ [.ret t x]) = calls trace := by
  simp [calls]

/-- An event of a longer list is the last or one of the list before. -/
theorem concat_cases {E : Type*} {l a b : List E} {d e : E} (eq : l ++ [e] = a ++ d :: b) :
    (a = l ∧ d = e) ∨ ∃ b', l = a ++ d :: b' := by
  rcases List.eq_nil_or_concat' b with rfl | ⟨b', e', rfl⟩
  · obtain ⟨rfl, last⟩ := List.append_inj' eq rfl
    cases last
    exact .inl ⟨rfl, rfl⟩
  · rw [← List.cons_append, ← List.append_assoc] at eq
    obtain ⟨rfl, -⟩ := List.append_inj' eq rfl
    exact .inr ⟨b', rfl⟩

theorem before_concat {trace : Trace T} {e : Event T Call UInt64} {x : UInt64} {u : T}
    (before : Before (trace ++ [e]) x u) :
    Before trace x u ∨ (∃ i, e = .call u i) ∧ x ∈ numbers trace := by
  obtain ⟨a, i, b, eq, mem⟩ := before
  rcases concat_cases eq with ⟨rfl, rfl⟩ | ⟨b', rfl⟩
  · exact .inr ⟨⟨i, rfl⟩, mem⟩
  · exact .inl ⟨a, i, b', rfl, mem⟩

theorem Before.mem_numbers {trace : Trace T} {x : UInt64} {u : T} (before : Before trace x u) :
    x ∈ numbers trace := by
  obtain ⟨a, i, b, rfl, mem⟩ := before
  rw [numbers, List.filterMap_append]
  exact List.mem_append_left _ mem

theorem Ordered.concat {trace : Trace T} {e : Event T Call UInt64} (ordered : Ordered trace)
    (last : ∀ u y, e = .ret u y → ∀ x, Before trace x u → x < y) : Ordered (trace ++ [e]) := by
  intro a u y b eq x before
  rcases concat_cases eq with ⟨rfl, rfl⟩ | ⟨b', rfl⟩
  · exact last u y rfl x before
  · exact ordered a u y b' rfl x before

end Trace

/-! ### The invariant of the atomic counter -/

/-- The numbers returned and those not yet returned are those up to the counter, and each
has one owner. -/
structure Numbered (trace : Trace T) (c : Object UInt64 T Call UInt64) : Prop where
  pending : ∃ waiting : Finset T, (∀ t, t ∈ waiting ↔ ∃ i, c.status t = .called i) ∧
    c.value.toNat + waiting.card = calls trace
  given : ∀ x, (x ∈ numbers trace ∨ ∃ t, c.status t = .done x) ↔ 0 < x ∧ x ≤ c.value
  nodup : (numbers trace).Nodup
  fresh : ∀ t x, c.status t = .done x → x ∉ numbers trace
  apart : ∀ t u x, c.status t = .done x → c.status u = .done x → t = u
  later : ∀ x u y, Before trace x u → c.status u = .done y → x < y
  ordered : Ordered trace

variable {trace : Trace T} {c : Object UInt64 T Call UInt64}

omit [DecidableEq T] in
theorem Numbered.initial : Numbered ([] : Trace T) (.initial 0) where
  pending := ⟨∅, fun t => iff_of_false (Finset.notMem_empty t) (by rintro ⟨_, contra⟩; cases contra), rfl⟩
  given x := by
    refine iff_of_false ?_ fun ⟨pos, small⟩ => absurd pos (UInt64.not_lt.mpr small)
    rintro (mem | ⟨t, contra⟩)
    · cases mem
    · cases contra
  nodup := List.nodup_nil
  fresh _ _ contra := nomatch contra
  apart _ _ _ contra := nomatch contra
  later _ _ _ _ contra := nomatch contra
  ordered a u y b eq := by simp at eq

/-- A client that does not get a number owns none. -/
theorem done_of_update {status : T → Status Call UInt64} {t u : T} {st : Status Call UInt64} {x : UInt64}
    (here : Function.update status t st u = .done x) (other : ∀ y, st ≠ .done y) :
    u ≠ t ∧ status u = .done x := by
  by_cases moved : u = t
  · subst moved
    exact absurd ((Function.update_self ..).symm.trans here) (other x)
  · exact ⟨moved, (Function.update_of_ne moved ..).symm.trans here⟩

theorem Numbered.call (numbered : Numbered trace c) {t : T} {i : Call} (idle : c.status t = .idle) :
    Numbered (trace ++ [.call t i]) ⟨c.value, Function.update c.status t (.called i)⟩ := by
  have owners : ∀ x, (∃ u, Function.update c.status t (.called i) u = .done x) ↔ ∃ u, c.status u = .done x := by
    intro x
    constructor
    · rintro ⟨u, done⟩
      exact ⟨u, (done_of_update done fun _ contra => nomatch contra).2⟩
    · rintro ⟨u, done⟩
      have other : u ≠ t := by
        rintro rfl
        cases idle.symm.trans done
      exact ⟨u, (Function.update_of_ne other ..).trans done⟩
  constructor
  · obtain ⟨waiting, mem, count⟩ := numbered.pending
    have absent : t ∉ waiting := by
      rw [mem, idle]
      rintro ⟨_, contra⟩
      cases contra
    refine ⟨insert t waiting, fun u => ?_, ?_⟩
    · rw [Finset.mem_insert, mem]
      by_cases moved : u = t
      · subst moved
        exact iff_of_true (.inl rfl) ⟨i, Function.update_self ..⟩
      · simp only [Function.update_of_ne moved, moved, false_or]
    · rw [Finset.card_insert_of_notMem absent, calls_concat_call, ← count]
      exact Nat.add_assoc ..|>.symm
  · intro x
    rw [numbers_concat_call, owners, numbered.given]
  · rw [numbers_concat_call]
    exact numbered.nodup
  · intro u x done
    rw [numbers_concat_call]
    exact numbered.fresh u x (done_of_update done fun _ contra => nomatch contra).2
  · intro u v x first second
    exact numbered.apart u v x (done_of_update first fun _ contra => nomatch contra).2
      (done_of_update second fun _ contra => nomatch contra).2
  · intro x u y before done
    obtain ⟨other, done⟩ := done_of_update done fun _ contra => nomatch contra
    rcases before_concat before with before | ⟨⟨j, eq⟩, -⟩
    · exact numbered.later x u y before done
    · cases eq
      exact absurd rfl other
  · exact numbered.ordered.concat fun u y contra => nomatch contra

theorem Numbered.effect (numbered : Numbered trace c) (few : calls trace < 2 ^ 64) {t : T} {i : Call}
    (called : c.status t = .called i) :
    Numbered trace ⟨c.value + 1, Function.update c.status t (.done (c.value + 1))⟩ := by
  obtain ⟨waiting, mem, count⟩ := numbered.pending
  have member : t ∈ waiting := (mem t).mpr ⟨i, called⟩
  have positive : 0 < waiting.card := Finset.card_pos.mpr ⟨t, member⟩
  have next : (c.value + 1).toNat = c.value.toNat + 1 := by
    rw [UInt64.toNat_add, UInt64.toNat_one, Nat.mod_eq_of_lt]
    omega
  have below : ∀ {x}, x ∈ numbers trace ∨ (∃ u, c.status u = .done x) → x < c.value + 1 := by
    intro x given
    have small := UInt64.le_iff_toNat_le.mp ((numbered.given x).mp given).2
    rw [UInt64.lt_iff_toNat_lt, next]
    exact Nat.lt_succ_of_le small
  -- The owner of a number below the new one has not moved.
  have owner : ∀ {u x}, Function.update c.status t (.done (c.value + 1)) u = .done x →
      (u = t ∧ x = c.value + 1) ∨ (u ≠ t ∧ c.status u = .done x) := by
    intro u x done
    by_cases moved : u = t
    · subst moved
      cases (Function.update_self ..).symm.trans done
      exact .inl ⟨rfl, rfl⟩
    · exact .inr ⟨moved, (Function.update_of_ne moved ..).symm.trans done⟩
  constructor
  · refine ⟨waiting.erase t, fun u => ?_, ?_⟩
    · rw [Finset.mem_erase, mem]
      by_cases moved : u = t
      · subst moved
        refine iff_of_false (fun h => h.1 rfl) ?_
        rintro ⟨j, contra⟩
        cases (Function.update_self ..).symm.trans contra
      · simp only [Function.update_of_ne moved, ne_eq, moved, not_false_eq_true, true_and]
    · rw [Finset.card_erase_of_mem member, next]
      omega
  · intro x
    constructor
    · rintro (mem | ⟨u, done⟩)
      · exact ⟨((numbered.given x).mp (.inl mem)).1, UInt64.le_of_lt (below (.inl mem))⟩
      · rcases owner done with ⟨-, rfl⟩ | ⟨-, done⟩
        · refine ⟨?_, UInt64.le_refl _⟩
          rw [UInt64.lt_iff_toNat_lt, next]
          exact Nat.succ_pos _
        · exact ⟨((numbered.given x).mp (.inr ⟨u, done⟩)).1, UInt64.le_of_lt (below (.inr ⟨u, done⟩))⟩
    · rintro ⟨pos, small⟩
      by_cases new : x = c.value + 1
      · exact .inr ⟨t, by rw [new]; exact Function.update_self ..⟩
      · have old : x ≤ c.value := by
          have bound : x.toNat ≤ (c.value + 1).toNat := UInt64.le_iff_toNat_le.mp small
          have different : x.toNat ≠ (c.value + 1).toNat := fun eq => new (UInt64.toNat_inj.mp eq)
          rw [UInt64.le_iff_toNat_le]
          omega
        rcases (numbered.given x).mpr ⟨pos, old⟩ with mem | ⟨u, done⟩
        · exact .inl mem
        · have other : u ≠ t := by
            rintro rfl
            cases called.symm.trans done
          exact .inr ⟨u, (Function.update_of_ne other ..).trans done⟩
  · exact numbered.nodup
  · intro u x done
    rcases owner done with ⟨-, rfl⟩ | ⟨-, done⟩
    · exact fun mem => UInt64.lt_irrefl _ (below (.inl mem))
    · exact numbered.fresh u x done
  · intro u v x first second
    rcases owner first with ⟨rfl, rfl⟩ | ⟨-, mine⟩
    · rcases owner second with ⟨rfl, -⟩ | ⟨-, theirs⟩
      · rfl
      · exact absurd (below (.inr ⟨v, theirs⟩)) (UInt64.lt_irrefl _)
    · rcases owner second with ⟨-, rfl⟩ | ⟨-, theirs⟩
      · exact absurd (below (.inr ⟨u, mine⟩)) (UInt64.lt_irrefl _)
      · exact numbered.apart u v x mine theirs
  · intro x u y before done
    rcases owner done with ⟨-, rfl⟩ | ⟨-, done⟩
    · exact below (.inl before.mem_numbers)
    · exact numbered.later x u y before done
  · exact numbered.ordered

theorem Numbered.ret (numbered : Numbered trace c) {t : T} {number : UInt64}
    (done : c.status t = .done number) :
    Numbered (trace ++ [.ret t number]) ⟨c.value, Function.update c.status t .idle⟩ := by
  have before : ∀ {x u}, Before (trace ++ [.ret t number]) x u → Before trace x u := by
    intro x u before
    rcases before_concat before with before | ⟨⟨j, eq⟩, -⟩
    · exact before
    · cases eq
  constructor
  · obtain ⟨waiting, mem, count⟩ := numbered.pending
    refine ⟨waiting, fun u => ?_, by rw [calls_concat_ret, count]⟩
    rw [mem]
    by_cases moved : u = t
    · subst moved
      simp only [Function.update_self, done]
      exact iff_of_false (by rintro ⟨_, contra⟩; cases contra) (by rintro ⟨_, contra⟩; cases contra)
    · simp only [Function.update_of_ne moved]
  · intro x
    rw [numbers_concat_ret, List.mem_append, List.mem_singleton, ← numbered.given]
    constructor
    · rintro ((mem | rfl) | ⟨u, done⟩)
      · exact .inl mem
      · exact .inr ⟨t, done⟩
      · exact .inr ⟨u, (done_of_update done fun _ contra => nomatch contra).2⟩
    · rintro (mem | ⟨u, owns⟩)
      · exact .inl (.inl mem)
      · by_cases moved : u = t
        · subst moved
          cases done.symm.trans owns
          exact .inl (.inr rfl)
        · exact .inr ⟨u, (Function.update_of_ne moved ..).trans owns⟩
  · rw [numbers_concat_ret]
    exact List.Nodup.append numbered.nodup (List.nodup_singleton _)
      (List.disjoint_singleton.mpr (numbered.fresh t number done))
  · intro u x owns
    obtain ⟨other, owns⟩ := done_of_update owns fun _ contra => nomatch contra
    rw [numbers_concat_ret, List.mem_append, List.mem_singleton, not_or]
    refine ⟨numbered.fresh u x owns, ?_⟩
    rintro rfl
    exact other (numbered.apart u t x owns done)
  · intro u v x first second
    exact numbered.apart u v x (done_of_update first fun _ contra => nomatch contra).2
      (done_of_update second fun _ contra => nomatch contra).2
  · intro x u y earlier owns
    exact numbered.later x u y (before earlier) (done_of_update owns fun _ contra => nomatch contra).2
  · apply numbered.ordered.concat
    intro u y eq x earlier
    cases eq
    exact numbered.later x t number earlier done

/-- Every run of the atomic counter that is short enough is numbered. -/
theorem numbered_of_run (run : Run (Object.Step program.runs) (.initial 0) trace c)
    (few : calls trace < 2 ^ 64) : Numbered trace c := by
  refine run.invariant (P := fun trace c => calls trace < 2 ^ 64 → Numbered trace c)
    (fun _ => .initial) ?_ ?_ few
  · intro trace c c' numbered taken few
    cases taken with
    | effect called runs =>
        obtain ⟨rfl, rfl⟩ := runs_eq runs
        exact (numbered few).effect few called
  · intro trace e c c' numbered taken few
    cases taken with
    | call idle =>
        rw [calls_concat_call] at few
        exact (numbered (Nat.lt_of_succ_lt few)).call idle
    | ret done =>
        rw [calls_concat_ret] at few
        exact (numbered few).ret done

/-! ### The numbers the servers give out -/

/-- **In every interleaving the numbers a server gives out differ and grow with time.** Of the
events at one server that is called fewer than 2^64 times: no number is returned twice, a
number is greater than all those returned before its call began, and when no call is under
way the numbers are those from 1 to the number of calls. -/
theorem numbers_are_ordered {trace : Trace T} {f : Servers T}
    (run : Run Servers.Step Servers.initial trace f) (n : UInt16)
    (few : calls (atServer n trace) < 2 ^ 64) :
    (numbers (atServer n trace)).Nodup ∧ Ordered (atServer n trace) ∧
      ((∀ t, (f.parts n).phase t = .idle) → ∀ x, x ∈ numbers (atServer n trace) ↔
        0 < x ∧ x.toNat ≤ calls (atServer n trace)) := by
  have own := Family.project run n
  obtain ⟨c, atomic, follows⟩ := (simulates program).run (.initial 0) own
  have numbered := numbered_of_run atomic few
  refine ⟨numbered.nodup, numbered.ordered, fun quiet x => ?_⟩
  have idle : ∀ t, c.status t = .idle := by
    intro t
    rw [follows.status, quiet]
    rfl
  have value : c.value.toNat = calls (atServer n trace) := by
    obtain ⟨waiting, mem, count⟩ := numbered.pending
    have nobody : waiting = ∅ := by
      apply Finset.eq_empty_of_forall_notMem
      intro t
      rw [mem, idle]
      rintro ⟨_, contra⟩
      cases contra
    rwa [nobody, Finset.card_empty, Nat.add_zero] at count
  rw [← value, ← UInt64.le_iff_toNat_le, ← numbered.given]
  constructor
  · exact .inl
  · rintro (mem | ⟨t, contra⟩)
    · exact mem
    · cases (idle t).symm.trans contra

/-- A client of server 1, which is on its node. -/
def near : Container := ⟨2, 1, false, true⟩

/-- A client of server 0. -/
def far : Container := ⟨2, 0, false, true⟩

/-- Two clients ask server 1, the second by RPC while the first is inside; it is 2 that the
second gets. -/
theorem numbers_are_ordered_two_clients : ∃ trace f,
    Run Servers.Step (Servers.initial : Servers Bool) trace f ∧
      numbers (atServer 1 trace) = [1, 2] ∧ calls (atServer 1 trace) < 2 ^ 64 ∧
      (numbers (atServer 1 trace)).Nodup ∧ Ordered (atServer 1 trace) := by
  have run : Run Servers.Step (Servers.initial : Servers Bool) [] _ := .start
  have run := run.visible (.call (t := false) (i := .getNextSequence near) rfl (.call rfl))
  have run := run.silent (.silent (n := 1) (.lock (t := false) rfl rfl))
  have run := run.silent (.silent (n := 1) (.access (t := false) rfl rfl))
  have run := run.visible (.call (t := true) (i := .getNextSequenceServer far 1) rfl (.call rfl))
  have run := run.silent (.silent (n := 1) (.access (t := false) rfl rfl))
  have run := run.silent (.silent (n := 1) (.last (t := false) rfl rfl))
  have run := run.silent (.silent (n := 1) (.unlock (t := false) rfl))
  have run := run.silent (.silent (n := 1) (.lock (t := true) rfl rfl))
  have run := run.visible (.ret (n := 1) (t := false) rfl (.ret rfl))
  have run := run.silent (.silent (n := 1) (.access (t := true) rfl rfl))
  have run := run.silent (.silent (n := 1) (.access (t := true) rfl rfl))
  have run := run.silent (.silent (n := 1) (.last (t := true) rfl rfl))
  have run := run.silent (.silent (n := 1) (.unlock (t := true) rfl))
  have run := run.visible (.ret (n := 1) (t := true) rfl (.ret rfl))
  have ordered := numbers_are_ordered run 1 (by decide)
  exact ⟨_, _, run, rfl, by decide, ordered.1, ordered.2.1⟩

end Hcl.GlobalSequence
