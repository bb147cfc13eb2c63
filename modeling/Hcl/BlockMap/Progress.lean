import Hcl.BlockMap.Calls

/-!
The calls of the block map that return.

A thread that has locked a bucket needs no other thread to come to its unlock (`exits`), since
`memory_pool_pop` ends wherever it is. So a thread that waits for a bucket gets it after the one
that holds it has left (`enters`), and the call can be brought to its return. All this is so where
the bucket has a free mutex to begin with; where it has not, the call never returns
(`completes_iff`).
-/

namespace Hcl.BlockMap.Calls

open Hcl.Lib Hcl.Lib.Atomic Hcl.BlockMap.Threads

variable {K V A : Type}

/-! ### A thread inside a bucket -/

section Exits

variable [Inhabited K] [Inhabited V] {ops : KeyOps K} {body : UInt64 → List Nat} {t : Nat} {k : K}

/-- Alone, the thread comes to give back the mutex of the bucket of `k`. -/
def Exits (ops : KeyOps K) (t : Nat) (k : K) (s : Threads.State K V) : Prop :=
  ∃ b' ret, b'.maxSize = s.b.maxSize ∧ Leads ops t s (s.goTo t b' (.unlock k ret))

variable {s : Threads.State K V} {v : V} {p : Nat} {n : Option Nat}

theorem Exits.here {ret : Answer Unit} (here : s.threads t = .unlock k ret) : Exits ops t k s := by
  refine ⟨s.b, ret, rfl, ?_⟩
  have same : s.goTo t s.b (.unlock k ret) = s := by
    rw [← here, Threads.State.goTo, Function.update_eq_self]
  rw [same]
  exact .refl

theorem Exits.step {b₁ : BlockMap K V} {phase : Phase K V}
    (taken : Threads.next ops t s = some (s.goTo t b₁ phase)) (size : b₁.maxSize = s.b.maxSize)
    (rest : (s.goTo t b₁ phase).threads t = phase → Exits ops t k (s.goTo t b₁ phase)) :
    Exits ops t k s := by
  obtain ⟨b', ret, size', leads⟩ := rest (Threads.goTo_threads ..)
  rw [goTo_goTo] at leads
  exact ⟨b', ret, size'.trans size, .step taken leads⟩

/-! The phases of `insert`, from the last one back. -/

theorem exits_insertLink {newNode : Nat} (here : s.threads t = .insertLink k v p n newNode) :
    Exits ops t k s := by
  have taken : Threads.next ops t s = some (s.goTo t (linkNode ops s.b k v p n newNode)
      (.unlock k (.insert retInserted))) := by
    simp only [Threads.next, here]
  exact .step taken rfl .here

theorem exits_insertPop (chunk : 0 < s.b.pl.chunkSize) {point : MemoryPool.Pop}
    (here : s.threads t = .insertPop k v p n point) : Exits ops t k s := by
  obtain ⟨⟨newNode, pl'⟩, ends⟩ := MemoryPool.ends s.b.pl chunk point
  have popped : Leads ops t s _ := .pop here ends
  obtain ⟨b', ret, size, leads⟩ : Exits ops t k _ := exits_insertLink
    (Threads.goTo_threads s t { s.b with pl := pl' } (.insertLink k v p n newNode))
  rw [goTo_goTo] at leads
  exact ⟨b', ret, size, popped.trans leads⟩

theorem exits_insertCount (chunk : 0 < s.b.pl.chunkSize) (here : s.threads t = .insertCount k v p n) :
    Exits ops t k s := by
  have taken : Threads.next ops t s = some (s.goTo t { s.b with allocated := s.b.allocated + 1 }
      (.insertPop k v p n .take)) := by
    simp only [Threads.next, here]
  exact .step taken rfl fun there => exits_insertPop chunk there

theorem exits_insertWalk (good : Good ops s body) (here : s.threads t = .insertWalk k v) :
    Exits ops t k s := by
  have inside := good.inv.index_lt k
  obtain ⟨before, r, right, -, walked, -⟩ := insertWalk_spec k
    (s.b.table (s.b.keyToIndex ops k)).head false (good.inv.bucket _ inside)
    (good.inv.length_le inside)
  cases found : false || (body (s.b.keyToIndex ops k)).any (hasKey ops s.b.pl k) with
  | true =>
      have taken : Threads.next ops t s = some (s.goTo t s.b (.unlock k (.insert retExists))) := by
        simp only [Threads.next, here, walked, found, Option.bind_eq_bind, Option.bind_some, if_true,
          Option.pure_def]
      exact .step taken rfl .here
  | false =>
      have taken : Threads.next ops t s = some (s.goTo t s.b (.insertCount k v r right.head?)) := by
        simp only [Threads.next, here, walked, found, Option.bind_eq_bind, Option.bind_some,
          Bool.false_eq_true, if_false, Option.pure_def]
      exact .step taken rfl fun there => exits_insertCount good.inv.pool.chunk there

/-! The phases of `erase`, from the last one back. -/

theorem exits_eraseRemoved (here : s.threads t = .eraseRemoved k) : Exits ops t k s := by
  have taken : Threads.next ops t s = some (s.goTo t { s.b with removed := s.b.removed + 1 }
      (.unlock k (.erase true))) := by
    simp only [Threads.next, here]
  exact .step taken rfl .here

theorem exits_eraseNumNodes (here : s.threads t = .eraseNumNodes k) : Exits ops t k s := by
  have taken : Threads.next ops t s = some (s.goTo t { s.b with
      table := Function.update s.b.table (s.b.keyToIndex ops k)
        { s.b.table (s.b.keyToIndex ops k) with
          numNodes := (s.b.table (s.b.keyToIndex ops k)).numNodes - 1 } } (.eraseRemoved k)) := by
    simp only [Threads.next, here]
  exact .step taken rfl exits_eraseRemoved

theorem exits_eraseFreeNodes (here : s.threads t = .eraseFreeNodes k) : Exits ops t k s := by
  have taken : Threads.next ops t s = some (s.goTo t
      { s.b with pl := { s.b.pl with freeNodes := s.b.pl.freeNodes + 1 } } (.eraseNumNodes k)) := by
    simp only [Threads.next, here]
  exact .step taken rfl exits_eraseNumNodes

theorem exits_erasePush {m : Nat} (here : s.threads t = .erasePush k m) : Exits ops t k s := by
  have taken : Threads.next ops t s = some (s.goTo t
      { s.b with pl := { s.b.pl with freeQueue := s.b.pl.freeQueue ++ [m] } } (.eraseFreeNodes k)) := by
    simp only [Threads.next, here]
  exact .step taken rfl exits_eraseFreeNodes

theorem exits_eraseUnlink {m : Nat} (here : s.threads t = .eraseUnlink k p m) : Exits ops t k s := by
  have taken : Threads.next ops t s = some (s.goTo t
      { s.b with pl := s.b.pl.setNext p (s.b.pl.memory m).next } (.erasePush k m)) := by
    simp only [Threads.next, here]
  exact .step taken rfl exits_erasePush

theorem exits_eraseWalk (good : Good ops s body) (here : s.threads t = .eraseWalk k) :
    Exits ops t k s := by
  have inside := good.inv.index_lt k
  obtain ⟨before, r, right, -, walked, -⟩ := eraseWalk_spec k
    (s.b.table (s.b.keyToIndex ops k)).head (good.inv.bucket _ inside) (good.inv.length_le inside)
  by_cases found : ∃ m, right.head? = some m ∧ ops.equal (s.b.pl.memory m).key k = true
  · obtain ⟨m, first, same⟩ := found
    have taken : Threads.next ops t s = some (s.goTo t s.b (.eraseUnlink k r m)) := by
      simp only [Threads.next, here, walked, first, same, Option.bind_eq_bind, Option.bind_some, if_true,
        Option.pure_def]
    exact .step taken rfl exits_eraseUnlink
  · have taken : Threads.next ops t s = some (s.goTo t s.b (.unlock k (.erase false))) := by
      simp only [Threads.next, here, walked, Option.bind_eq_bind, Option.bind_some]
      cases first : right.head? with
      | none => rfl
      | some m =>
          have other : ¬ ops.equal (s.b.pl.memory m).key k = true := fun same => found ⟨m, first, same⟩
          simp only [other, Bool.false_eq_true, if_false, Option.pure_def]
    exact .step taken rfl .here

/-- **A thread that has locked a bucket needs no other thread** to give it back. -/
theorem exits (good : Good ops s body) (inside : (s.threads t).inside = some k) : Exits ops t k s := by
  cases here : s.threads t with
  | idle | insertLock _ _ | eraseLock _ =>
      rw [here] at inside
      cases inside
  | insertWalk _ _ =>
      rw [here] at inside
      cases inside
      exact exits_insertWalk good here
  | insertCount _ _ _ _ =>
      rw [here] at inside
      cases inside
      exact exits_insertCount good.inv.pool.chunk here
  | insertPop _ _ _ _ _ =>
      rw [here] at inside
      cases inside
      exact exits_insertPop good.inv.pool.chunk here
  | insertLink _ _ _ _ _ =>
      rw [here] at inside
      cases inside
      exact exits_insertLink here
  | eraseWalk _ =>
      rw [here] at inside
      cases inside
      exact exits_eraseWalk good here
  | eraseUnlink _ _ _ =>
      rw [here] at inside
      cases inside
      exact exits_eraseUnlink here
  | erasePush _ _ =>
      rw [here] at inside
      cases inside
      exact exits_erasePush here
  | eraseFreeNodes _ =>
      rw [here] at inside
      cases inside
      exact exits_eraseFreeNodes here
  | eraseNumNodes _ =>
      rw [here] at inside
      cases inside
      exact exits_eraseNumNodes here
  | eraseRemoved _ =>
      rw [here] at inside
      cases inside
      exact exits_eraseRemoved here
  | unlock _ _ =>
      rw [here] at inside
      cases inside
      exact .here here

end Exits

/-! ### The mutexes -/

/-- The mutexes are what the memory held, and only those that were free have been locked. -/
structure Guarded (ops : KeyOps K) (raw : RawTable) (n : UInt64) (s : Threads.State K V) : Prop where
  laid : LaidIn raw n s.b
  entered : ∀ t k, (s.threads t).inside = some k → raw.mutexes (ops.hash k % n) = .unlocked

section Guarded

variable {ops : KeyOps K} {raw : RawTable} {n : UInt64} {t : Nat} {k : K}

/-- One thread moves. -/
theorem Guarded.move {s : State K V A} (guarded : Guarded ops raw n s.threads) {s' : Threads.State K V}
    {work : Work K V A} (laid : LaidIn raw n s'.b)
    (there : ∀ k, work.phase.inside = some k → raw.mutexes (ops.hash k % n) = .unlocked) :
    Guarded ops raw n (s.goTo t s' work).threads := by
  refine ⟨laid, fun u k inside => ?_⟩
  change ((Function.update s.work t work u).phase).inside = some k at inside
  by_cases moved : u = t
  · rw [moved, Function.update_self] at inside
    exact there k inside
  · rw [Function.update_of_ne moved] at inside
    exact guarded.entered u k inside

variable [Inhabited K] [Inhabited V]

theorem Guarded.next {s s' : Threads.State K V} (guarded : Guarded ops raw n s)
    (taken : Threads.next ops t s = some s') : LaidIn raw n s'.b ∧
      ∀ k, (s'.threads t).inside = some k → raw.mutexes (ops.hash k % n) = .unlocked := by
  obtain ⟨locks, b', phase, rfl, size, mutexes, entered⟩ := next_cases taken
  refine ⟨guarded.laid.congr size mutexes, fun k inside => ?_⟩
  rw [Threads.goTo_threads] at inside
  rcases entered k inside with before | free
  · exact guarded.entered t k before
  · exact (guarded.laid.free_iff k).mp free

variable {s s' : State K V A} {e : Option (Event Nat (Op K V A) (Answer A))}

/-- **Only free mutexes are locked.** -/
theorem Guarded.step (guarded : Guarded ops raw n s.threads) (taken : Step ops s e s') :
    Guarded ops raw n s'.threads := by
  have outside : ∀ {t : Nat} {work : Work K V A}, work.phase.inside = none →
      Guarded ops raw n (s.goTo t s.threads work).threads := by
    intro t work out
    refine guarded.move guarded.laid fun k inside => ?_
    rw [out] at inside
    cases inside
  cases taken with
  | callInsert _ => exact outside rfl
  | callErase _ => exact outside rfl
  | callLook _ => exact outside rfl
  | ret _ => exact outside rfl
  | next _ _ taken =>
      obtain ⟨laid, entered⟩ := guarded.next taken
      exact guarded.move laid entered
  | unlock _ taken =>
      obtain ⟨laid, -⟩ := guarded.next taken
      exact guarded.move laid fun _ inside => nomatch inside
  | lookUnlock _ taken =>
      obtain ⟨laid, -⟩ := guarded.next taken
      exact guarded.move laid fun _ inside => nomatch inside
  | @lookLock t look s₁ here taken =>
      have there : s.threads.threads t = .eraseLock look.key := congrArg Work.phase here
      obtain ⟨laid, entered⟩ := guarded.next taken
      simp only [Threads.next, there, State.lock_eq_some_iff] at taken
      obtain ⟨-, -, rfl⟩ := taken
      refine guarded.move laid fun k inside => entered k ?_
      rw [State.locked, Threads.goTo_threads]
      exact inside
  | @lookWalk t look b' answer here walked =>
      have there : s.threads.threads t = .eraseWalk look.key := congrArg Work.phase here
      have laid := (guarded.laid.step walked).2
      refine guarded.move laid fun k inside => guarded.entered t k ?_
      rw [there]
      exact inside

theorem Guarded.run {trace : List (Event Nat (Op K V A) (Answer A))}
    (guarded : Guarded ops raw n s.threads) (run : Run (Step ops) s trace s') :
    Guarded ops raw n s'.threads :=
  run.invariant (P := fun _ s => Guarded ops raw n s.threads) guarded
    (fun _ _ _ guarded taken => guarded.step taken) fun _ _ _ _ guarded taken => guarded.step taken

omit [Inhabited K] [Inhabited V] in
/-- Nobody is at work on a new table. -/
theorem Guarded.initial {b : BlockMap K V} (laid : LaidIn raw n b) :
    Guarded ops raw n (initial b : State K V A).threads :=
  ⟨laid, fun _ _ inside => nomatch inside⟩

/-- The key whose bucket a thread waits for. -/
def Work.awaits : Work K V A → Option K
  | .base (.insertLock k _) => some k
  | .base (.eraseLock k) => some k
  | .lookLock look => some look.key
  | _ => none

/-- **A thread that waits for a mutex that is not free** waits for ever. -/
theorem Guarded.stuck (guarded : Guarded ops raw n s.threads) (waits : (s.work t).awaits = some k)
    (shut : raw.mutexes (ops.hash k % n) ≠ .unlocked) (taken : Step ops s e s') :
    (s'.work t).awaits = some k ∧ ∀ answer, e ≠ some (.ret t answer) := by
  have others : ∀ {u : Nat} {s₁ : Threads.State K V} {work : Work K V A}, t ≠ u →
      ((s.goTo u s₁ work).work t).awaits = some k := by
    intro u s₁ work other
    have same : (s.goTo u s₁ work).work t = s.work t := Function.update_of_ne other ..
    rw [same]
    exact waits
  have apart : ∀ {u : Nat} {work : Work K V A}, s.work u = work → work.awaits = none → t ≠ u := by
    rintro u work here awaits rfl
    rw [here, awaits] at waits
    cases waits
  have closed : ∀ {k' phase s₁}, some k' = some k → s.threads.lock ops t k' phase ≠ some s₁ := by
    rintro k' phase s₁ ⟨⟩ locked
    obtain ⟨free, -⟩ := (State.lock_eq_some_iff ops).mp locked
    exact shut ((guarded.laid.free_iff k).mp free)
  cases taken with
  | callInsert here => exact ⟨others (apart here rfl), by simp⟩
  | callErase here => exact ⟨others (apart here rfl), by simp⟩
  | callLook here => exact ⟨others (apart here rfl), by simp⟩
  | unlock here _ => exact ⟨others (apart here rfl), by simp⟩
  | lookWalk here _ => exact ⟨others (apart here rfl), by simp⟩
  | lookUnlock here _ => exact ⟨others (apart here rfl), by simp⟩
  | @ret u answer here =>
      have other := apart here rfl
      refine ⟨others other, ?_⟩
      rintro _ ⟨⟩
      exact other rfl
  | @lookLock u look s₁ here taken =>
      by_cases same : t = u
      · subst same
        have there : s.threads.threads t = .eraseLock look.key := congrArg Work.phase here
        rw [here] at waits
        simp only [Threads.next, there] at taken
        exact absurd taken (closed waits)
      · exact ⟨others same, by simp⟩
  | @next u phase s₁ here _ taken =>
      by_cases same : t = u
      · subst same
        have there : s.threads.threads t = phase := congrArg Work.phase here
        rw [here] at waits
        cases phase with
        | insertLock _ _ | eraseLock _ =>
            simp only [Threads.next, there] at taken
            exact absurd taken (closed waits)
        | _ => cases waits
      · exact ⟨others same, by simp⟩

end Guarded

/-! ### The calls that return -/

section Completes

variable [Inhabited K] [Inhabited V] {ops : KeyOps K} {body : UInt64 → List Nat} {s : State K V A}
  {raw : RawTable} {n : UInt64} {t : Nat} {k : K}

/-- What a thread of `insert` and `erase` does alone, it does here, up to giving its mutex back. -/
theorem run_of_leads {s₁ : Threads.State K V} (leads : Leads ops t s.threads s₁)
    (base : s.work t = .base (s.threads.threads t)) (busy : s₁.threads t ≠ .idle) :
    Run (Step ops) s [] (s.goTo t s₁ (.base (s₁.threads t))) := by
  obtain ⟨fuel, ran⟩ := leads
  induction fuel generalizing s with
  | zero =>
      cases ran
      have same : s.goTo t s.threads (.base (s.threads.threads t)) = s := by
        rw [← base, State.goTo, Function.update_eq_self]
        rfl
      rw [same]
      exact .start
  | succ fuel ih =>
      obtain ⟨s₂, taken, rest⟩ := Option.bind_eq_some_iff.mp ran
      -- Behind the unlock there is no step.
      have inside : ∀ k ret, s.threads.threads t ≠ .unlock k ret := by
        intro k ret here
        simp only [Threads.next, here, Option.some.injEq] at taken
        have idle : s₂.threads t = .idle := by
          rw [← taken]
          exact Threads.goTo_threads ..
        cases fuel with
        | zero =>
            cases rest
            exact busy idle
        | succ fuel =>
            simp only [runAlone, Threads.next, idle] at rest
            cases rest
      have step : Step ops s none (s.goTo t s₂ (.base (s₂.threads t))) := .next base inside taken
      have threads : (s.goTo t s₂ (.base (s₂.threads t))).threads = s₂ :=
        goTo_threads_eq s t (next_threads taken)
      have run := ih (s := s.goTo t s₂ (.base (s₂.threads t)))
        (by rw [threads]; exact goTo_work ..) (by rw [threads]; exact rest)
      have same : (s.goTo t s₂ (.base (s₂.threads t))).goTo t s₁ (.base (s₁.threads t)) =
          s.goTo t s₁ (.base (s₁.threads t)) := by
        simp only [State.goTo, Function.update_idem]
      rw [same] at run
      exact (Run.silent .start step).trans run

/-- The mutex of the bucket is free again, and the call has its answer. -/
def State.left (s : State K V A) (ops : KeyOps K) (t : Nat) (k : K) (b' : BlockMap K V)
    (answer : Answer A) : State K V A :=
  ⟨b', Function.update s.locks (s.b.keyToIndex ops k) none, Function.update s.work t (.answered answer)⟩

/-- The last step under the mutex. -/
theorem unlock_step {ret : Answer Unit} (here : s.work t = .base (.unlock k ret)) :
    Step ops s none (s.left ops t k s.b (answerOf ret)) := by
  have there : s.threads.threads t = .unlock k ret := congrArg Work.phase here
  have taken : Threads.next ops t s.threads = some ({ s.threads with
      locks := Function.update s.locks (s.b.keyToIndex ops k) none }.goTo t s.b .idle) := by
    simp only [Threads.next, there]
    rfl
  exact .unlock here taken

theorem lookUnlock_step {answer : Answer A} (here : s.work t = .lookUnlock k answer) :
    Step ops s none (s.left ops t k s.b answer) := by
  have there : s.threads.threads t = .unlock k (.erase false) := congrArg Work.phase here
  have taken : Threads.next ops t s.threads = some ({ s.threads with
      locks := Function.update s.locks (s.b.keyToIndex ops k) none }.goTo t s.b .idle) := by
    simp only [Threads.next, there]
    rfl
  exact .lookUnlock here taken

omit [Inhabited K] [Inhabited V] in
theorem left_goTo {s' : Threads.State K V} {work : Work K V A} {answer : Answer A}
    (locks : s'.locks = s.locks) (size : s'.b.maxSize = s.b.maxSize) :
    (s.goTo t s' work).left ops t k (s.goTo t s' work).b answer = s.left ops t k s'.b answer := by
  have index : s'.b.keyToIndex ops k = s.b.keyToIndex ops k := by rw [keyToIndex, size, keyToIndex]
  simp only [State.left, State.goTo, Function.update_idem, locks, index]

/-- A thread that has locked a bucket comes to the end of its call, while nobody else moves. -/
theorem leaves (good : Good ops s.threads body) (guarded : Guarded ops raw n s.threads)
    (inside : (s.work t).phase.inside = some k) :
    ∃ b' answer, b'.maxSize = s.b.maxSize ∧ Run (Step ops) s [] (s.left ops t k b' answer) := by
  cases here : s.work t with
  | lookLock look | answered answer =>
      rw [here] at inside
      cases inside
  | base phase =>
      have there : s.threads.threads t = phase := congrArg Work.phase here
      obtain ⟨b', ret, size, leads⟩ := exits good inside
      have run := run_of_leads leads (by rw [there]; exact here) (by
        rw [Threads.goTo_threads]
        exact fun contra => nomatch contra)
      rw [Threads.goTo_threads] at run
      have last := run.silent (unlock_step (goTo_work ..))
      have size : (s.threads.goTo t b' (.unlock k ret)).b.maxSize = s.b.maxSize := size
      rw [left_goTo rfl size] at last
      exact ⟨b', answerOf ret, size, last⟩
  | lookWalk look =>
      have free : s.b.Free ops look.op.key := by
        rw [look_key]
        refine (guarded.laid.free_iff look.key).mpr (guarded.entered t look.key ?_)
        exact congrArg (fun work => work.phase.inside) here
      rw [here] at inside
      cases inside
      obtain ⟨b', answer, -, walked, -⟩ := step_simulates s.b _ look.op ⟨⟨body, good.inv⟩, rfl⟩ free
      obtain ⟨memory, eq, -⟩ := look_pool good.inv walked
      have size : b'.maxSize = s.b.maxSize := by
        rw [eq]
        rfl
      have run : Run (Step ops) s [] _ := .silent (.silent .start (.lookWalk here walked))
        (lookUnlock_step (goTo_work ..))
      rw [left_goTo rfl size] at run
      exact ⟨b', answer, size, run⟩
  | lookUnlock k' answer =>
      rw [here] at inside
      cases inside
      exact ⟨s.b, answer, rfl, .silent .start (lookUnlock_step here)⟩

/-- Every state the threads reach is good. -/
theorem good_run {s' : State K V A} {trace : List (Event Nat (Op K V A) (Answer A))}
    (good : ∃ body, Good ops s.threads body) (run : Run (Step ops) s trace s') :
    ∃ body, Good ops s'.threads body := by
  have start : Follows ops s ⟨s.b.view ops, fun t => (s.work t).status⟩ := ⟨good, rfl, fun _ => rfl⟩
  obtain ⟨c', -, follows⟩ := (simulates ops).run start run
  exact follows.good

/-- A thread gets the mutex it waits for, if nobody holds it. -/
theorem lock_step (waits : (s.work t).awaits = some k) (free : s.b.Free ops k)
    (unheld : s.locks (s.b.keyToIndex ops k) = none) :
    ∃ s', Step ops s none s' ∧ (s'.work t).phase.inside = some k := by
  have locks : ∀ phase, s.threads.lock ops t k phase = some (s.threads.locked ops t k phase) :=
    fun _ => (State.lock_eq_some_iff ops).mpr ⟨free, unheld, rfl⟩
  cases here : s.work t with
  | lookLock look =>
      rw [here] at waits
      cases waits
      have there : s.threads.threads t = .eraseLock look.key := congrArg Work.phase here
      have taken : Threads.next ops t s.threads = s.threads.lock ops t look.key (.eraseWalk look.key) := by
        simp only [Threads.next, there]
      refine ⟨_, .lookLock here (taken.trans (locks _)), ?_⟩
      rw [goTo_work]
      rfl
  | lookWalk look | lookUnlock k' answer | answered answer =>
      rw [here] at waits
      cases waits
  | base phase =>
      have there : s.threads.threads t = phase := congrArg Work.phase here
      rw [here] at waits
      cases phase with
      | insertLock k' v =>
          cases waits
          have taken : Threads.next ops t s.threads = s.threads.lock ops t k (.insertWalk k v) := by
            simp only [Threads.next, there]
          refine ⟨_, .next here (by simp) (taken.trans (locks _)), ?_⟩
          rw [goTo_work, State.locked, Threads.goTo_threads]
          rfl
      | eraseLock k' =>
          cases waits
          have taken : Threads.next ops t s.threads = s.threads.lock ops t k (.eraseWalk k) := by
            simp only [Threads.next, there]
          refine ⟨_, .next here (by simp) (taken.trans (locks _)), ?_⟩
          rw [goTo_work, State.locked, Threads.goTo_threads]
          rfl
      | _ => cases waits

/-- A thread that waits gets the mutex, after the thread that holds it has left. -/
theorem enters (good : Good ops s.threads body) (guarded : Guarded ops raw n s.threads)
    (waits : (s.work t).awaits = some k) (free : raw.mutexes (ops.hash k % n) = .unlocked) :
    ∃ s', Run (Step ops) s [] s' ∧ (s'.work t).phase.inside = some k := by
  cases held : s.locks (s.b.keyToIndex ops k) with
  | none =>
      obtain ⟨s', step, inside⟩ := lock_step waits ((guarded.laid.free_iff k).mpr free) held
      exact ⟨s', .silent .start step, inside⟩
  | some u =>
      obtain ⟨k', inside, index⟩ := (good.locked _ u).mp held
      have index : s.b.keyToIndex ops k' = s.b.keyToIndex ops k := index
      obtain ⟨b', answer, size, run⟩ := leaves good guarded inside
      have other : t ≠ u := by
        rintro rfl
        have there : (s.work t).phase.inside = some k' := inside
        cases here : s.work t with
        | base phase => cases phase <;> simp_all [Work.awaits, Work.phase, Phase.inside]
        | lookLock look => simp_all [Work.phase, Phase.inside]
        | lookWalk look | lookUnlock _ _ | answered _ => simp_all [Work.awaits]
      have same : (s.left ops u k' b' answer).work t = s.work t := Function.update_of_ne other ..
      have unheld : (s.left ops u k' b' answer).locks (b'.keyToIndex ops k) = none := by
        rw [keyToIndex, size, ← keyToIndex, ← index]
        exact Function.update_self ..
      have there := ((guarded.run run).laid.free_iff k).mpr free
      obtain ⟨s', step, inside'⟩ := lock_step (by rw [same]; exact waits) there unheld
      exact ⟨s', run.silent step, inside'⟩

/-- A thread that has locked a bucket returns. -/
theorem returns (good : Good ops s.threads body) (guarded : Guarded ops raw n s.threads)
    (inside : (s.work t).phase.inside = some k) :
    ∃ answer s', Run (Step ops) s [.ret t answer] s' ∧ s'.work t = .base .idle := by
  obtain ⟨b', answer, -, run⟩ := leaves good guarded inside
  have answered : (s.left ops t k b' answer).work t = .answered answer := Function.update_self ..
  exact ⟨answer, _, run.visible (.ret answered), goTo_work ..⟩

/-- **No call on a bucket with a free mutex gets stuck**: whatever the other threads are doing, steps
lead to its return. -/
theorem completes (good : ∃ body, Good ops s.threads body) (guarded : Guarded ops raw n s.threads)
    (busy : s.work t ≠ .base .idle)
    (free : ∀ k, (s.work t).awaits = some k → raw.mutexes (ops.hash k % n) = .unlocked) :
    ∃ answer s', Run (Step ops) s [.ret t answer] s' ∧ s'.work t = .base .idle := by
  obtain ⟨body, good⟩ := good
  cases waits : (s.work t).awaits with
  | some k =>
      obtain ⟨s₁, run, inside⟩ := enters good guarded waits (free k waits)
      obtain ⟨body₁, good₁⟩ := good_run ⟨body, good⟩ run
      obtain ⟨answer, s', rest, idle⟩ := returns good₁ (guarded.run run) inside
      exact ⟨answer, s', run.trans rest, idle⟩
  | none =>
      cases inside : (s.work t).phase.inside with
      | some k => exact returns good guarded inside
      | none =>
          cases here : s.work t with
          | answered answer => exact ⟨answer, _, .visible .start (.ret here), goTo_work ..⟩
          | base phase => cases phase <;> simp_all [Work.awaits, Work.phase, Phase.inside]
          | lookLock _ | lookWalk _ | lookUnlock _ _ =>
              simp_all [Work.awaits, Work.phase, Phase.inside]

/-- **A call returns exactly if the bucket it waits for has a free mutex.** -/
theorem completes_iff (good : ∃ body, Good ops s.threads body) (guarded : Guarded ops raw n s.threads)
    (busy : s.work t ≠ .base .idle) :
    (∃ answer s', Run (Step ops) s [.ret t answer] s' ∧ s'.work t = .base .idle) ↔
      ∀ k, (s.work t).awaits = some k → raw.mutexes (ops.hash k % n) = .unlocked := by
  constructor
  · rintro ⟨answer, s', run, -⟩ k waits
    by_contra shut
    -- Every state of the run still waits, and no event of it is a return of the thread.
    have still : (Guarded ops raw n s'.threads ∧ (s'.work t).awaits = some k) ∧
        ∀ answer', Event.ret t answer' ∉ [(Event.ret t answer : Event Nat (Op K V A) (Answer A))] := by
      refine run.invariant (P := fun trace s => (Guarded ops raw n s.threads ∧
        (s.work t).awaits = some k) ∧ ∀ answer', Event.ret t answer' ∉ trace)
        ⟨⟨guarded, waits⟩, fun _ => List.not_mem_nil⟩ ?_ ?_
      · rintro trace s₁ s₂ ⟨⟨guarded, waits⟩, silent⟩ taken
        exact ⟨⟨guarded.step taken, (guarded.stuck waits shut taken).1⟩, silent⟩
      · rintro trace e s₁ s₂ ⟨⟨guarded, waits⟩, silent⟩ taken
        obtain ⟨waits', other⟩ := guarded.stuck waits shut taken
        refine ⟨⟨guarded.step taken, waits'⟩, fun answer' mem => ?_⟩
        rcases List.mem_append.mp mem with mem | mem
        · exact silent answer' mem
        · exact other answer' (congrArg some (List.mem_singleton.mp mem).symm)
    exact still.2 answer List.mem_cons_self
  · exact completes good guarded busy

/-- The table a constructor makes is empty, and nobody is at work. -/
theorem follows_initial (ops : KeyOps K) {csize : UInt32} (chunk : 0 < csize) {maxKey : K}
    {b₀ : BlockMap K V} (made : new raw n (MemoryPool.new csize) maxKey = some b₀) :
    Follows ops (initial b₀ : State K V A) (.initial fun _ => none) := by
  have inv := new_inv ops chunk made
  obtain ⟨rfl, built⟩ := new_built chunk made
  exact ⟨⟨_, good_initial inv built⟩, funext fun q => (inv.view_eq q).symm, fun _ => rfl⟩

/-- A thread comes to rest only with its return. -/
theorem Step.busy {s' : State K V A} {e : Option (Event Nat (Op K V A) (Answer A))}
    (good : ∃ body, Good ops s.threads body) (taken : Step ops s e s') {u : Nat}
    (before : s.work u ≠ .base .idle ∨ ∃ i, e = some (.call u i)) (stays : ∀ o, e ≠ some (.ret u o)) :
    s'.work u ≠ .base .idle := by
  have moves : ∀ {t : Nat} {s₁ : Threads.State K V} {work : Work K V A}, work ≠ .base .idle →
      (u ≠ t → s.work u ≠ .base .idle) → (s.goTo t s₁ work).work u ≠ .base .idle := by
    intro t s₁ work after others
    by_cases moved : u = t
    · subst moved
      rwa [goTo_work]
    · have same : (s.goTo t s₁ work).work u = s.work u := Function.update_of_ne moved ..
      rw [same]
      exact others moved
  have silent : e = none → s.work u ≠ .base .idle := by
    rintro rfl
    rcases before with busy | ⟨i, contra⟩
    · exact busy
    · cases contra
  have others : ∀ {t i}, e = some (.call t i) → u ≠ t → s.work u ≠ .base .idle := by
    rintro t i rfl other
    rcases before with busy | ⟨j, eq⟩
    · exact busy
    · cases eq
      exact absurd rfl other
  cases taken with
  | callInsert _ => exact moves (by simp) (others rfl)
  | callErase _ => exact moves (by simp) (others rfl)
  | callLook _ => exact moves (by simp) (others rfl)
  | unlock _ _ => exact moves (by simp) fun _ => silent rfl
  | lookLock _ _ => exact moves (by simp) fun _ => silent rfl
  | lookWalk _ _ => exact moves (by simp) fun _ => silent rfl
  | lookUnlock _ _ => exact moves (by simp) fun _ => silent rfl
  | @ret t answer here =>
      have other : u ≠ t := by
        rintro rfl
        exact stays answer rfl
      have same : (s.goTo t s.threads (.base .idle)).work u = s.work u := Function.update_of_ne other ..
      rw [same]
      rcases before with busy | ⟨i, contra⟩
      · exact busy
      · cases contra
  | @next t phase s₁ here inside taken =>
      obtain ⟨body, good⟩ := good
      have there : s.threads.threads t = phase := congrArg Work.phase here
      refine moves ?_ fun _ => silent rfl
      intro idle
      have rest : s₁.threads t = .idle := Work.base.inj idle
      -- A step under the mutex leaves the call under way, or done.
      rcases moves_next (A := A) good (fun k ret => by rw [there]; exact inside k ret) taken with
        ⟨-, status⟩ | ⟨op, answer, -, done, -⟩
      · rw [rest, there] at status
        cases phase with
        | idle =>
            simp only [Threads.next, there] at taken
            cases taken
        | _ => cases status
      · rw [rest] at done
        cases done

/-- **The block map under any number of threads.** For every table size, chunk size, hash,
equality and sentinel key, whatever `malloc` returned, and whatever `insert`, `find`, `update`,
`update_field` and `erase` do at once: each call takes effect at one moment between its begin and
its return, on a map whose first write wins; and from every state they reach, a call can be brought
to its return if and only if the bucket it waits for, if it does, has a free mutex. -/
theorem calls_take_effect_once (ops : KeyOps K) {csize : UInt32} (chunk : 0 < csize) {maxKey : K}
    {b₀ : BlockMap K V} (made : new raw n (MemoryPool.new csize) maxKey = some b₀) :
    Linearizable (Step ops) (initial b₀ : State K V A) (Spec ops) (fun _ => none) ∧
    ∀ trace s, Run (Step ops) (initial b₀ : State K V A) trace s → ∀ t, s.work t ≠ .base .idle →
      ((∃ answer s', Run (Step ops) s [.ret t answer] s' ∧ s'.work t = .base .idle) ↔
        ∀ k, (s.work t).awaits = some k → raw.mutexes (ops.hash k % n) = .unlocked) := by
  have start : Follows ops (initial b₀ : State K V A) (.initial fun _ => none) :=
    follows_initial ops chunk made
  have guarded : Guarded ops raw n (initial b₀ : State K V A).threads :=
    .initial (new_laidIn chunk made)
  refine ⟨(simulates ops).linearizable start, ?_⟩
  exact fun trace s run t busy => completes_iff (good_run start.good run) (guarded.run run) busy

end Completes

/-- Two buckets in zeroed memory, chunks of one node, and two threads that wait for one bucket: the
second can return first. -/
theorem calls_take_effect_once_two_threads :
    (0 : UInt32) < 1 ∧ ∃ b₀ : BlockMap Nat String,
      new zeroed 2 (MemoryPool.new 1) 7 = some b₀ ∧
      Linearizable (Step collidingOps) (initial b₀ : State Nat String Unit) (Spec collidingOps)
        (fun _ => none) ∧
      ∃ s : State Nat String Unit,
        Run (Step collidingOps) (initial b₀) [.call 0 (.insert 3 "a"), .call 1 (.find 3)] s ∧
        ∃ answer s', Run (Step collidingOps) s [.ret 1 answer] s' := by
  have chunk : (0 : UInt32) < 1 := by decide
  obtain ⟨b₀, built⟩ := (exists_new_iff (V := String) zeroed 2 chunk 7).mpr (by decide)
  obtain ⟨linearizable, ends⟩ := calls_take_effect_once (A := Unit) collidingOps chunk built
  have run : Run (Step collidingOps) (initial b₀ : State Nat String Unit) [] _ := .start
  have run := run.visible (.callInsert (t := 0) (k := 3) (v := "a") rfl)
  have run := run.visible (.callLook (t := 1) rfl : Step _ _ (some (.call 1 (Look.find 3).op)) _)
  have busy := ends _ _ run 1 (by
    rw [goTo_work]
    exact fun contra => nomatch contra)
  obtain ⟨answer, s', rest, -⟩ := busy.mpr fun _ _ => rfl
  exact ⟨chunk, b₀, built, linearizable, _, run, answer, s', rest⟩

end Hcl.BlockMap.Calls
