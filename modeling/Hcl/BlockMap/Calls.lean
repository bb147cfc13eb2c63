import Hcl.Lib.Atomic
import Hcl.BlockMap.Accounts

/-!
All the calls of the block map, by any number of threads.

`insert` and `erase` take the steps of `Threads.next`; `find`, `update` and `update_field` lock
the bucket of their key, walk it, and unlock. Seen from the nodes and the mutexes, such a walk
is an `erase` that has locked its bucket and finds nothing (`Work.phase`), so the invariant of
the threads holds here too.

Every call takes effect at one moment, on a map whose first write wins (`simulates`). `insert`
takes effect when its loop meets the key, or else with the store that links the new node;
`erase` when its loop does not find the key, or with the store that unlinks the node.
-/

namespace Hcl.BlockMap.Calls

open Hcl.Lib Hcl.Lib.Atomic Hcl.BlockMap.Threads

variable {K V A : Type}

/-! ### The calls -/

/-- The calls that walk a bucket and change no link. -/
inductive Look (K V A : Type) where
  | find (k : K)
  | update (k : K) (v : V)
  | updateField (k : K) (fn : V → A → V × A) (args : A)

def Look.key : Look K V A → K
  | .find k => k
  | .update k _ => k
  | .updateField k _ _ => k

def Look.op : Look K V A → Op K V A
  | .find k => .find k
  | .update k v => .update k v
  | .updateField k fn args => .updateField k fn args

theorem look_key (look : Look K V A) : look.op.key = look.key := by
  cases look <;> rfl

/-- Where a thread is. -/
inductive Work (K V A : Type) where
  /-- Idle, or in `insert` or `erase`. -/
  | base (phase : Phase K V)
  | lookLock (look : Look K V A)
  | lookWalk (look : Look K V A)
  | lookUnlock (k : K) (answer : Answer A)
  /-- The mutex is given back, and the call returns. -/
  | answered (answer : Answer A)

/-- What a call of `insert` or `erase` returns. -/
def answerOf : Answer Unit → Answer A
  | .insert ret => .insert ret
  | .find pos => .find pos
  | .update found => .update found
  | .updateField found _ => .update found
  | .erase found => .erase found

/-- The table with its mutexes and the threads. -/
structure State (K V A : Type) where
  b : BlockMap K V
  locks : UInt64 → Option Nat
  work : Nat → Work K V A

/-- Nobody is at work. -/
def initial (b : BlockMap K V) : State K V A := ⟨b, fun _ => none, fun _ => .base .idle⟩

/-- Where a thread would be if it were in `insert` or `erase`: its node, its mutex. -/
def Work.phase : Work K V A → Phase K V
  | .base phase => phase
  | .lookLock look => .eraseLock look.key
  | .lookWalk look => .eraseWalk look.key
  | .lookUnlock k _ => .unlock k (.erase false)
  | .answered _ => .idle

/-- The threads as those of `insert` and `erase`. -/
def State.threads (s : State K V A) : Threads.State K V := ⟨s.b, s.locks, fun t => (s.work t).phase⟩

def State.goTo (s : State K V A) (t : Nat) (s' : Threads.State K V) (work : Work K V A) : State K V A :=
  ⟨s'.b, s'.locks, Function.update s.work t work⟩

section Steps

variable [Inhabited K] [Inhabited V] (ops : KeyOps K)

/-- One step of one thread. -/
inductive Step (s : State K V A) : Option (Event Nat (Op K V A) (Answer A)) → State K V A → Prop where
  | callInsert {t : Nat} {k : K} {v : V} : s.work t = .base .idle →
      Step s (some (.call t (.insert k v))) (s.goTo t s.threads (.base (.insertLock k v)))
  | callErase {t : Nat} {k : K} : s.work t = .base .idle →
      Step s (some (.call t (.erase k))) (s.goTo t s.threads (.base (.eraseLock k)))
  | callLook {t : Nat} {look : Look K V A} : s.work t = .base .idle →
      Step s (some (.call t look.op)) (s.goTo t s.threads (.lookLock look))
  /-- `insert` or `erase` goes on, up to its last step under the mutex. -/
  | next {t : Nat} {phase : Phase K V} {s' : Threads.State K V} : s.work t = .base phase →
      (∀ k ret, phase ≠ .unlock k ret) → Threads.next ops t s.threads = some s' →
      Step s none (s.goTo t s' (.base (s'.threads t)))
  | unlock {t : Nat} {k : K} {ret : Answer Unit} {s' : Threads.State K V} :
      s.work t = .base (.unlock k ret) → Threads.next ops t s.threads = some s' →
      Step s none (s.goTo t s' (.answered (answerOf ret)))
  | lookLock {t : Nat} {look : Look K V A} {s' : Threads.State K V} : s.work t = .lookLock look →
      Threads.next ops t s.threads = some s' → Step s none (s.goTo t s' (.lookWalk look))
  | lookWalk {t : Nat} {look : Look K V A} {b' : BlockMap K V} {answer : Answer A} :
      s.work t = .lookWalk look → step ops s.b look.op = some (b', answer) →
      Step s none (s.goTo t ⟨b', s.locks, s.threads.threads⟩ (.lookUnlock look.key answer))
  | lookUnlock {t : Nat} {k : K} {answer : Answer A} {s' : Threads.State K V} :
      s.work t = .lookUnlock k answer → Threads.next ops t s.threads = some s' →
      Step s none (s.goTo t s' (.answered answer))
  | ret {t : Nat} {answer : Answer A} : s.work t = .answered answer →
      Step s (some (.ret t answer)) (s.goTo t s.threads (.base .idle))

end Steps

/-! ### The threads of `insert` and `erase` in these -/

section Threads

variable {s : State K V A} {t : Nat}

@[simp] theorem goTo_work (s : State K V A) (t : Nat) (s' : Threads.State K V) (work : Work K V A) :
    (s.goTo t s' work).work t = work :=
  Function.update_self ..

theorem goTo_threads_eq (s : State K V A) (t : Nat) {s' : Threads.State K V} {work : Work K V A}
    (others : s'.threads = Function.update s.threads.threads t work.phase) :
    (s.goTo t s' work).threads = s' := by
  obtain ⟨b, locks, threads⟩ := s'
  simp only at others
  subst others
  simp only [State.goTo, State.threads, Threads.State.mk.injEq, true_and]
  funext u
  by_cases moved : u = t
  · subst moved
    rw [Function.update_self, Function.update_self]
  · rw [Function.update_of_ne moved, Function.update_of_ne moved]

variable [Inhabited K] [Inhabited V] {ops : KeyOps K}

/-- What every step has in common: one thread moves, the mutexes stay what they are, and a bucket
that the thread comes into has a free one. -/
theorem next_cases {t : Nat} {s s' : Threads.State K V} (taken : Threads.next ops t s = some s') :
    ∃ locks b' phase, s' = { s with locks := locks }.goTo t b' phase ∧ b'.maxSize = s.b.maxSize ∧
      (∀ pos, (b'.table pos).mutexT = (s.b.table pos).mutexT) ∧
      ∀ k, phase.inside = some k → (s.threads t).inside = some k ∨ s.b.Free ops k := by
  have stays : ∀ {b' : BlockMap K V} {phase}, s.goTo t b' phase = s' → b'.maxSize = s.b.maxSize →
      (∀ pos, (b'.table pos).mutexT = (s.b.table pos).mutexT) →
      phase.inside = (s.threads t).inside →
      ∃ locks b' phase, s' = { s with locks := locks }.goTo t b' phase ∧ b'.maxSize = s.b.maxSize ∧
        (∀ pos, (b'.table pos).mutexT = (s.b.table pos).mutexT) ∧
        ∀ k, phase.inside = some k → (s.threads t).inside = some k ∨ s.b.Free ops k := by
    intro b' phase eq size mutexes inside
    exact ⟨s.locks, b', phase, eq.symm, size, mutexes, fun k there => .inl (inside ▸ there)⟩
  cases here : s.threads t with
  | idle =>
      simp only [Threads.next, here] at taken
      cases taken
  | insertLock k v | eraseLock k =>
      simp only [Threads.next, here] at taken
      obtain ⟨free, -, rfl⟩ := (State.lock_eq_some_iff ops).mp taken
      refine ⟨_, _, _, rfl, rfl, fun _ => rfl, ?_⟩
      rintro k' ⟨⟩
      exact .inr free
  | insertPop k v p n point =>
      rw [next_pop ops here] at taken
      rw [← here]
      refine stays (Option.some.inj taken) rfl (fun _ => rfl) ?_
      rw [here]
      cases (s.b.pl.popStep point).2 <;> rfl
  | insertWalk k v =>
      simp only [Threads.next, here, Option.bind_eq_bind, Option.bind_eq_some_iff] at taken
      obtain ⟨⟨p, n, found⟩, -, taken⟩ := taken
      rw [← here]
      cases found with
      | true => exact stays (Option.some.inj taken) rfl (fun _ => rfl) (by rw [here]; rfl)
      | false => exact stays (Option.some.inj taken) rfl (fun _ => rfl) (by rw [here]; rfl)
  | eraseWalk k =>
      simp only [Threads.next, here, Option.bind_eq_bind, Option.bind_eq_some_iff] at taken
      obtain ⟨⟨p, n⟩, -, taken⟩ := taken
      rw [← here]
      cases n with
      | none => exact stays (Option.some.inj taken) rfl (fun _ => rfl) (by rw [here]; rfl)
      | some n =>
          simp only at taken
          split at taken
          · exact stays (Option.some.inj taken) rfl (fun _ => rfl) (by rw [here]; rfl)
          · exact stays (Option.some.inj taken) rfl (fun _ => rfl) (by rw [here]; rfl)
  | insertLink k v p n newNode | eraseNumNodes k =>
      simp only [Threads.next, here] at taken
      rw [← here]
      exact stays (Option.some.inj taken) rfl (fun _ => mutexT_update rfl) (by rw [here]; rfl)
  | insertCount k v p n | eraseUnlink k p n | erasePush k n | eraseFreeNodes k | eraseRemoved k =>
      simp only [Threads.next, here] at taken
      rw [← here]
      exact stays (Option.some.inj taken) rfl (fun _ => rfl) (by rw [here]; rfl)
  | unlock k ret =>
      simp only [Threads.next, here, Option.some.injEq] at taken
      subst taken
      refine ⟨_, _, _, rfl, rfl, fun _ => rfl, ?_⟩
      intro k' outside
      cases outside

/-- A step of a thread moves no other. -/
theorem next_threads {t : Nat} {s s' : Threads.State K V} (taken : Threads.next ops t s = some s') :
    s'.threads = Function.update s.threads t (s'.threads t) := by
  obtain ⟨locks, b', phase, rfl, -⟩ := next_cases taken
  rw [Threads.goTo_threads]
  rfl

end Threads

/-! ### When a call takes effect -/

/-- Has the call taken effect? From the store that unlinks its node on, `erase` has. -/
def phaseStatus : Phase K V → Status (Op K V A) (Answer A)
  | .idle => .idle
  | .insertLock k v => .called (.insert k v)
  | .insertWalk k v => .called (.insert k v)
  | .insertCount k v _ _ => .called (.insert k v)
  | .insertPop k v _ _ _ => .called (.insert k v)
  | .insertLink k v _ _ _ => .called (.insert k v)
  | .eraseLock k => .called (.erase k)
  | .eraseWalk k => .called (.erase k)
  | .eraseUnlink k _ _ => .called (.erase k)
  | .erasePush _ _ => .done (.erase true)
  | .eraseFreeNodes _ => .done (.erase true)
  | .eraseNumNodes _ => .done (.erase true)
  | .eraseRemoved _ => .done (.erase true)
  | .unlock _ ret => .done (answerOf ret)

def Work.status : Work K V A → Status (Op K V A) (Answer A)
  | .base phase => phaseStatus phase
  | .lookLock look => .called look.op
  | .lookWalk look => .called look.op
  | .lookUnlock _ answer => .done answer
  | .answered answer => .done answer

section Effects

variable {ops : KeyOps K} {body : UInt64 → List Nat} {s s' : Threads.State K V} {t : Nat} {k : K}

/-- Where the nodes in use stay, the represented map stays. -/
theorem view_kept {b b' : BlockMap K V} (inv : Inv ops b body) (inv' : Inv ops b' body)
    (size : b'.maxSize = b.maxSize) (kept : ∀ a, b.Used body a → b'.pl.memory a = b.pl.memory a) :
    b'.view ops = b.view ops := by
  funext q
  have index : b'.keyToIndex ops q = b.keyToIndex ops q := by rw [keyToIndex, size, keyToIndex]
  rw [inv'.view_eq, inv.view_eq, index]
  exact stored_congr fun a mem => kept a (inv.used_of_mem (inv.index_lt q) mem)

/-- The step keeps the map and the status of its call, or it is where its call takes effect. -/
def Moves (ops : KeyOps K) (s s' : Threads.State K V) (t : Nat) : Prop :=
  s'.b.view ops = s.b.view ops ∧
      (phaseStatus (s'.threads t) : Status (Op K V A) (Answer A)) = phaseStatus (s.threads t) ∨
    ∃ op answer, (phaseStatus (s.threads t) : Status (Op K V A) (Answer A)) = .called op ∧
      (phaseStatus (s'.threads t) : Status (Op K V A) (Answer A)) = .done answer ∧
      Spec ops (s.b.view ops) op answer (s'.b.view ops)

variable [Inhabited K] [Inhabited V]

theorem moves_insertWalk (good : Good ops s body) {v : V} (here : s.threads t = .insertWalk k v)
    (taken : Threads.next ops t s = some s') : Moves (A := A) ops s s' t := by
  have inside := good.inv.index_lt k
  obtain ⟨before, r, right, -, walked, -⟩ := insertWalk_spec k
    (s.b.table (s.b.keyToIndex ops k)).head false (good.inv.bucket _ inside)
    (good.inv.length_le inside)
  rw [Bool.false_or, good.inv.any_eq] at walked
  simp only [Threads.next, here, walked, Option.bind_eq_bind, Option.bind_some] at taken
  split at taken
  · rename_i present
    cases taken
    refine .inr ⟨.insert k v, .insert retExists, by rw [here]; rfl, ?_, ?_, ?_⟩
    · rw [Threads.goTo_threads]
      rfl
    · rw [if_pos present]
    · rw [if_pos present]
      rfl
  · cases taken
    refine .inl ⟨rfl, ?_⟩
    rw [Threads.goTo_threads, here]
    rfl

theorem moves_insertPop (good : Good ops s body) {v : V} {p : Nat} {n : Option Nat}
    {point : MemoryPool.Pop} (here : s.threads t = .insertPop k v p n point)
    (taken : Threads.next ops t s = some s') : Moves (A := A) ops s s' t := by
  rw [next_pop ops here] at taken
  cases taken
  have good' := good.pop here
  refine .inl ⟨view_kept good.inv good'.inv rfl ?_, ?_⟩
  · intro a used
    apply MemoryPool.popStep_kept
    · intro free
      have queued : a ∈ contents s body .free := free
      exact good.parts.not_used queued (by simp) (by simp) used
    · rintro chunk i rfl unfilled rfl
      have pending : chunk + i ∈ contents s body (.pending t) := by
        simp only [contents, here, Phase.pending, List.mem_range'_1]
        omega
      exact good.parts.not_used pending (by simp) (by simp) used
  · rw [Threads.goTo_threads, here]
    cases (s.b.pl.popStep point).2 <;> rfl

theorem moves_insertLink (good : Good ops s body) {v : V} {p : Nat} {n : Option Nat} {newNode : Nat}
    (here : s.threads t = .insertLink k v p n newNode)
    (taken : Threads.next ops t s = some s') : Moves (A := A) ops s s' t := by
  have knows := good.knows_self here rfl
  obtain ⟨before, left, right, split, behind, nodes, rfl, low, high, absent⟩ := knows
  have mine : newNode ∈ (s.threads t).held := by
    rw [here]
    exact List.mem_singleton_self newNode
  have popped := good.parts.popped good.inv.pool.chunk mine
  have linked := (good.inv.link v popped split low high absent behind nodes
    ((s.b.table (s.b.keyToIndex ops k)).numNodes + 1) s.b.allocated).2
  have missing : (s.b.view ops k).isSome = false := by
    rw [← good.inv.any_eq, List.any_eq_false]
    exact absent
  simp only [Threads.next, here] at taken
  cases taken
  refine .inr ⟨.insert k v, .insert retInserted, by rw [here]; rfl, ?_, ?_, ?_⟩
  · rw [Threads.goTo_threads]
    rfl
  · rw [missing]
    rfl
  · rw [missing]
    exact funext linked

theorem moves_eraseWalk (good : Good ops s body) (here : s.threads t = .eraseWalk k)
    (taken : Threads.next ops t s = some s') : Moves (A := A) ops s s' t := by
  have inside := good.inv.index_lt k
  obtain ⟨before, r, right, -, walked, outcome⟩ := eraseWalk_spec k
    (s.b.table (s.b.keyToIndex ops k)).head (good.inv.bucket _ inside) (good.inv.length_le inside)
  simp only [Threads.next, here, walked, Option.bind_eq_bind, Option.bind_some] at taken
  -- Without a node of the key the call takes effect here.
  have missed : (∀ a ∈ body (s.b.keyToIndex ops k), hasKey ops s.b.pl k a = false) →
      Moves (A := A) ops s (s.goTo t s.b (.unlock k (.erase false))) t := by
    intro absent
    have missing : (s.b.view ops k).isSome = false := by
      rw [← good.inv.any_eq, List.any_eq_false]
      exact fun a mem => Bool.eq_false_iff.mp (absent a mem)
    refine .inr ⟨.erase k, .erase false, by rw [here]; rfl, ?_, ?_, ?_⟩
    · rw [Threads.goTo_threads]
      rfl
    · rw [missing]
    · funext q
      split
      · rename_i same
        rw [Option.isSome_eq_false_iff, Option.isNone_iff_eq_none] at missing
        rw [← missing]
        exact (good.inv.view_congr same).symm
      · rfl
  rcases outcome with ⟨a, rest, rfl, has⟩ | ⟨absent, later⟩
  · have same : ops.equal (s.b.pl.memory a).key k = true := has
    simp only [List.head?_cons, same, if_true] at taken
    cases taken
    refine .inl ⟨rfl, ?_⟩
    rw [Threads.goTo_threads, here]
    rfl
  · have moved : s' = s.goTo t s.b (.unlock k (.erase false)) := by
      cases right with
      | nil => exact (Option.some.inj taken).symm
      | cons a rest =>
          have other : ops.equal (s.b.pl.memory a).key k = false := later a List.mem_cons_self
          simp only [List.head?_cons, other, Bool.false_eq_true, if_false] at taken
          exact (Option.some.inj taken).symm
    rw [moved]
    exact missed absent

theorem moves_eraseUnlink (good : Good ops s body) {p n : Nat} (here : s.threads t = .eraseUnlink k p n)
    (taken : Threads.next ops t s = some s') : Moves (A := A) ops s s' t := by
  have knows := good.knows_self here rfl
  obtain ⟨before, left, right, split, behind, nodes, has⟩ := knows
  have mem : n ∈ body (s.b.keyToIndex ops k) := by
    rw [nodes]
    exact List.mem_append_right _ List.mem_cons_self
  have pool : (s.b.pl.setNext p (s.b.pl.memory n).next).Inv fun a => s.b.Used body a ∧ a ≠ n := by
    have before := good.inv.pool
    refine ⟨before.chunk, before.nodup, ?_, before.queued_lt, fun a used => before.used_lt a used.1⟩
    exact fun a waits used => before.unused a waits used.1
  have unlinked := (good.inv.detach split has behind nodes rfl pool
    (s.b.table (s.b.keyToIndex ops k)).numNodes s.b.removed).2
  simp only [Function.update_eq_self] at unlinked
  have present : (s.b.view ops k).isSome = true := by
    rw [← good.inv.any_eq, List.any_eq_true]
    exact ⟨n, mem, has⟩
  simp only [Threads.next, here] at taken
  cases taken
  refine .inr ⟨.erase k, .erase true, by rw [here]; rfl, ?_, ?_, ?_⟩
  · rw [Threads.goTo_threads]
    rfl
  · rw [present]
  · exact funext unlinked

/-- **Every step of `insert` and `erase` under the mutex** keeps the map, or is the one step in
which the call takes effect. -/
theorem moves_next (good : Good ops s body) (inside : ∀ k ret, s.threads t ≠ .unlock k ret)
    (taken : Threads.next ops t s = some s') : Moves (A := A) ops s s' t := by
  have locked : ∀ {k phase}, s.lock ops t k phase = some s' → s'.b = s.b ∧ s'.threads t = phase := by
    intro k phase lock
    obtain ⟨-, -, rfl⟩ := (State.lock_eq_some_iff ops).mp lock
    exact ⟨rfl, Threads.goTo_threads ..⟩
  have counted : ∀ {b' phase}, some (s.goTo t b' phase) = some s' → b'.view ops = s.b.view ops →
      (phaseStatus phase : Status (Op K V A) (Answer A)) = phaseStatus (s.threads t) →
      Moves (A := A) ops s s' t := by
    intro b' phase eq same status
    cases eq
    refine .inl ⟨same, ?_⟩
    rw [Threads.goTo_threads]
    exact status
  cases here : s.threads t with
  | idle =>
      simp only [Threads.next, here] at taken
      cases taken
  | insertLock k v | eraseLock k =>
      simp only [Threads.next, here] at taken
      obtain ⟨same, there⟩ := locked taken
      refine .inl ⟨by rw [same], ?_⟩
      rw [here, there]
      rfl
  | insertWalk k v => exact moves_insertWalk good here taken
  | insertPop k v p n point => exact moves_insertPop good here taken
  | insertLink k v p n newNode => exact moves_insertLink good here taken
  | eraseWalk k => exact moves_eraseWalk good here taken
  | eraseUnlink k p n => exact moves_eraseUnlink good here taken
  | insertCount k v p n | eraseRemoved k =>
      simp only [Threads.next, here] at taken
      exact counted taken rfl (by rw [here]; rfl)
  | erasePush k n =>
      have good' := good.push here
      simp only [Threads.next, here] at taken
      exact counted taken (view_kept good.inv good'.inv rfl fun _ _ => rfl) (by rw [here]; rfl)
  | eraseFreeNodes k =>
      have inv' : Inv ops { s.b with pl := { s.b.pl with freeNodes := s.b.pl.freeNodes + 1 } } body :=
        good.inv.congr rfl (fun _ => rfl) (good.inv.pool.congr rfl rfl rfl) fun _ _ => rfl
      simp only [Threads.next, here] at taken
      exact counted taken (view_kept good.inv inv' rfl fun _ _ => rfl) (by rw [here]; rfl)
  | eraseNumNodes k =>
      have heads := head_update s.b.table (s.b.keyToIndex ops k)
        ((s.b.table (s.b.keyToIndex ops k)).numNodes - 1)
      simp only [Threads.next, here] at taken
      refine counted taken (view_kept good.inv ?_ rfl fun _ _ => rfl) (by rw [here]; rfl)
      exact good.inv.congr rfl heads good.inv.pool fun _ _ => rfl
  | unlock k ret => exact absurd here (inside k ret)

/-- What a walk that changes no link leaves: the pool with other values in its nodes. -/
theorem look_pool {b b' : BlockMap K V} (inv : Inv ops b body) {look : Look K V A} {answer : Answer A}
    (walked : step ops b look.op = some (b', answer)) :
    ∃ memory, b' = { b with pl := { b.pl with memory := memory } } ∧
      ∀ a, (memory a).key = (b.pl.memory a).key := by
  -- The loop leaves the pool as it is, or writes the value of one node.
  have scanned : ∀ {S : Type} (fn : V → S → V × S) {x : S} {out}, scan ops
      (fun n pl s => (pl.setValue n (fn (pl.memory n).value s).1, (fn (pl.memory n).value s).2)) look.key
      b.pl.mallocNext (b.first (b.keyToIndex ops look.key)) b.pl false x = some out →
      ∃ memory, out.1 = { b.pl with memory := memory } ∧ ∀ a, (memory a).key = (b.pl.memory a).key := by
    intro S fn x out eq
    have inside := inv.index_lt look.key
    have keeps : KeepsShape fun n (pl : MemoryPool K V) (s : S) =>
        (pl.setValue n (fn (pl.memory n).value s).1, (fn (pl.memory n).value s).2) :=
      fun _ _ _ _ => ⟨by simp, by simp⟩
    rw [scan_spec keeps (inv.bucket _ inside) (inv.length_le inside)] at eq
    split at eq
    · cases eq
      exact ⟨b.pl.memory, rfl, fun _ => rfl⟩
    · rename_i n _
      cases eq
      exact ⟨_, rfl, fun a => MemoryPool.setValue_key ..⟩
  have free : b.Free ops look.key := look_key look ▸ (step_mutexes walked).1
  cases look with
  | find k =>
      have free : b.Free ops k := free
      simp only [Look.op, step, inv.find_spec free, Option.bind_eq_bind, Option.bind_some, Option.pure_def,
        Option.some.injEq, Prod.mk.injEq] at walked
      exact ⟨b.pl.memory, walked.1.symm, fun _ => rfl⟩
  | update k v =>
      obtain ⟨⟨b₁, found⟩, done, eq⟩ := Option.bind_eq_some_iff.mp walked
      cases eq
      obtain ⟨_, -, done⟩ := Option.bind_eq_some_iff.mp done
      obtain ⟨⟨pl, found', x⟩, scan, eq⟩ := Option.bind_eq_some_iff.mp done
      cases eq
      obtain ⟨memory, same, keys⟩ := scanned (fun _ (s : Unit) => (v, s)) scan
      exact ⟨memory, by rw [← same], keys⟩
  | updateField k fn args =>
      obtain ⟨⟨b₁, found, args'⟩, done, eq⟩ := Option.bind_eq_some_iff.mp walked
      cases eq
      obtain ⟨_, -, done⟩ := Option.bind_eq_some_iff.mp done
      obtain ⟨⟨pl, found', x⟩, scan, eq⟩ := Option.bind_eq_some_iff.mp done
      cases eq
      obtain ⟨memory, same, keys⟩ := scanned fn scan
      exact ⟨memory, by rw [← same], keys⟩

/-- A walk that changes no link answers as the map does. -/
theorem look_spec {b b' : BlockMap K V} (inv : Inv ops b body) {look : Look K V A} {answer : Answer A}
    (walked : step ops b look.op = some (b', answer)) :
    Inv ops b' body ∧ Spec ops (b.view ops) look.op answer (b'.view ops) := by
  obtain ⟨b₁, answer₁, m, done, spec, -, rfl⟩ := step_simulates b _ look.op ⟨⟨body, inv⟩, rfl⟩
    (step_mutexes walked).1
  cases walked.symm.trans done
  refine ⟨?_, spec⟩
  have free : b.Free ops look.key := look_key look ▸ (step_mutexes walked).1
  cases look with
  | find k =>
      have free : b.Free ops k := free
      simp only [Look.op, step, inv.find_spec free, Option.bind_eq_bind, Option.bind_some, Option.pure_def,
        Option.some.injEq, Prod.mk.injEq] at walked
      rw [← walked.1]
      exact inv
  | update k v =>
      have free : b.Free ops k := free
      obtain ⟨b₂, updated, inv', -⟩ := inv.update_spec free v
      simp only [Look.op, step, updated, Option.bind_eq_bind, Option.bind_some, Option.pure_def,
        Option.some.injEq, Prod.mk.injEq] at walked
      rw [← walked.1]
      exact inv'
  | updateField k fn args =>
      have free : b.Free ops k := free
      obtain ⟨b₂, updated, inv', -⟩ := inv.updateField_spec free fn args
      simp only [Look.op, step, updated, Option.bind_eq_bind, Option.bind_some, Option.pure_def,
        Option.some.injEq, Prod.mk.injEq] at walked
      rw [← walked.1]
      exact inv'

/-- To the threads that insert and erase such a walk is an `erase` that finds nothing. -/
theorem good_look (good : Good ops s body) {look : Look K V A} {b' : BlockMap K V} {answer : Answer A}
    (here : s.threads t = .eraseWalk look.key) (walked : step ops s.b look.op = some (b', answer)) :
    Good ops (s.goTo t b' (.unlock look.key (.erase false))) body := by
  have counted := good.counts_self here rfl
  have inv := (look_spec good.inv walked).1
  obtain ⟨memory, rfl, keys⟩ := look_pool good.inv walked
  refine good.goOn here rfl rfl rfl inv ?_ good.chunks ?_ trivial counted rfl
  · exact good.parts.keep rfl (fun _ => rfl) rfl rfl rfl rfl (by rw [here]; rfl) (by rw [here]; rfl)
  · exact fun q _ _ => ⟨rfl, rfl, fun a _ => keys a⟩

end Effects

/-! ### One map -/

/-- The table holds the map, and every call is where its thread is. -/
structure Follows (ops : KeyOps K) (s : State K V A)
    (c : Object (K → Option V) Nat (Op K V A) (Answer A)) : Prop where
  good : ∃ body, Good ops s.threads body
  value : c.value = s.b.view ops
  status : ∀ t, c.status t = (s.work t).status

section Follows

variable {ops : KeyOps K} {s : State K V A} {s' : Threads.State K V} {t : Nat} {work : Work K V A}
  {c : Object (K → Option V) Nat (Op K V A) (Answer A)}

/-- One thread moves. -/
theorem Follows.move (follows : Follows ops s c) (good : ∃ body, Good ops s' body)
    (others : s'.threads = Function.update s.threads.threads t work.phase) {m : K → Option V}
    (value : m = s'.b.view ops) :
    Follows ops (s.goTo t s' work) ⟨m, Function.update c.status t work.status⟩ where
  good := by
    rw [goTo_threads_eq s t others]
    exact good
  value := value
  status u := by
    by_cases moved : u = t
    · subst moved
      rw [goTo_work]
      exact Function.update_self ..
    · have same : (s.goTo t s' work).work u = s.work u := Function.update_of_ne moved ..
      rw [same, ← follows.status]
      exact Function.update_of_ne moved ..

/-- One thread moves, and its call does not take effect. -/
theorem Follows.stay (follows : Follows ops s c) (good : ∃ body, Good ops s' body)
    (others : s'.threads = Function.update s.threads.threads t work.phase)
    (value : s'.b.view ops = s.b.view ops) (status : work.status = (s.work t).status) :
    Follows ops (s.goTo t s' work) c := by
  have next := follows.move good others value.symm
  have same : Function.update c.status t work.status = c.status := by
    rw [Function.update_eq_self_iff, status, follows.status]
  rwa [same, ← follows.value] at next

variable [Inhabited K] [Inhabited V]

/-- **Every step of a thread is a step of the atomic map, or none.** -/
theorem simulates (ops : KeyOps K) :
    Simulates (Step ops) (Spec ops) (Follows (V := V) (A := A) ops) := by
  intro s c e s' follows taken
  obtain ⟨body, good⟩ := follows.good
  have value : c.value = s.threads.b.view ops := follows.value
  have phaseOf : ∀ {t work}, s.work t = work → s.threads.threads t = work.phase :=
    fun here => congrArg Work.phase here
  have statusOf : ∀ {t work}, s.work t = work → c.status t = work.status := by
    intro t work here
    rw [follows.status, here]
  -- A step of a thread that gives its mutex back, or gets one, is outside the map.
  have turn : ∀ {t work work' s'}, s.work t = work → Threads.next ops t s.threads = some s' →
      s'.b = s.b → s'.threads t = work'.phase → work'.status = work.status →
      Follows ops (s.goTo t s' work') c := by
    intro t work work' s' here taken table there status
    refine follows.stay (good.next taken) ?_ (by rw [table]) (by rw [here, status])
    rw [← there]
    exact next_threads taken
  cases taken with
  | @callInsert t k v idle =>
      have good' := good.call (.insert k v) (phaseOf idle)
      exact ⟨_, .one (.call (statusOf idle)), follows.move ⟨body, good'⟩ rfl follows.value⟩
  | @callErase t k idle =>
      have good' := good.call (.erase k) (phaseOf idle)
      exact ⟨_, .one (.call (statusOf idle)), follows.move ⟨body, good'⟩ rfl follows.value⟩
  | @callLook t look idle =>
      have good' := good.call (.erase look.key) (phaseOf idle)
      exact ⟨_, .one (.call (statusOf idle)), follows.move ⟨body, good'⟩ rfl follows.value⟩
  | @next t phase s' here inside taken =>
      have there : s.threads.threads t = phase := phaseOf here
      have moves := moves_next (A := A) good (fun k ret => by rw [there]; exact inside k ret) taken
      have others : s'.threads = Function.update s.threads.threads t (Work.base (A := A)
          (s'.threads t)).phase := next_threads taken
      rcases moves with ⟨same, status⟩ | ⟨op, answer, called, done, effect⟩
      · rw [there] at status
        exact ⟨c, .start, follows.stay (good.next taken) others same (by rw [here]; exact status)⟩
      · rw [there] at called
        rw [← value] at effect
        have moved := follows.move (good.next taken) others rfl
        rw [show (Work.base (A := A) (s'.threads t)).status = .done answer from done] at moved
        exact ⟨_, .one (.effect ((statusOf here).trans called) effect), moved⟩
  | @unlock t k ret s' here taken =>
      refine ⟨c, .start, ?_⟩
      have there := phaseOf here
      have run := taken
      simp only [Threads.next, there, Work.phase] at run
      cases run
      exact turn here taken rfl (Threads.goTo_threads ..) rfl
  | @lookLock t look s' here taken =>
      refine ⟨c, .start, ?_⟩
      have there := phaseOf here
      have run := taken
      simp only [Threads.next, there, Work.phase, State.lock_eq_some_iff] at run
      obtain ⟨-, -, rfl⟩ := run
      exact turn here taken rfl (Threads.goTo_threads ..) rfl
  | @lookWalk t look b' answer here walked =>
      have good' := good_look good (phaseOf here) walked
      have effect := (look_spec good.inv walked).2
      rw [← value] at effect
      exact ⟨_, .one (.effect (statusOf here) effect), follows.move ⟨body, good'⟩ rfl rfl⟩
  | @lookUnlock t k answer s' here taken =>
      refine ⟨c, .start, ?_⟩
      have there := phaseOf here
      have run := taken
      simp only [Threads.next, there, Work.phase] at run
      cases run
      exact turn here taken rfl (Threads.goTo_threads ..) rfl
  | @ret t answer here =>
      have others : s.threads.threads = Function.update s.threads.threads t .idle := by
        rw [eq_comm, Function.update_eq_self_iff, phaseOf here]
        rfl
      exact ⟨_, .one (.ret (statusOf here)), follows.move ⟨body, good⟩ others follows.value⟩

end Follows

end Hcl.BlockMap.Calls
