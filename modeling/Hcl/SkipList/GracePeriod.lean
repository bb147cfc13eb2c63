import Mathlib.Data.Finset.Card
import Mathlib.Data.Finset.Insert
import Mathlib.Data.List.Basic
import Hcl.Lib.Runs

/-!
When the recycler frees a node: `addRef`, `push` and `releaseRef` of `NodeRecycler`, with any
number of threads.

A thread that drops the last reference destroys the nodes in the queues, one by one, under
`lock_`. Neither `addRef` nor `push` takes that lock, so a thread may arrive, unlink a node and
push it while the queues are drained, and lose the node although its accessor has seen it in the
list. As long as nobody pushes onto a queue that the drain has yet to pass, only nodes are
destroyed that no live accessor has seen (`destroys_unseen`).
-/

namespace Hcl.GracePeriod

open Hcl.Lib

/-! ### Threads -/

/-- Where a thread is. `seen` are the nodes that were in the list at some moment since the
thread's accessor was created; threads only take nodes out. -/
inductive Phase where
  | idle
  /-- With an accessor. -/
  | holding (seen : List Nat)
  /-- In `remove`, with a node that is out of the list and not in a queue yet. -/
  | removing (seen : List Nat) (node : Nat)
  /-- In `releaseRef`, behind the test: the decrement is to be made without or with the lock. -/
  | releasing (seen : List Nat) (locked : Bool)
  /-- In the cleanup loop, at queue `i`. -/
  | cleaning (i : Nat)
deriving DecidableEq

/-- What the accessor of a thread has seen, from `addRef` to the decrement. -/
def Phase.seen? : Phase → Option (List Nat)
  | idle => none
  | holding seen => some seen
  | removing seen _ => some seen
  | releasing seen _ => some seen
  | cleaning _ => none

/-- `refs` is `refs_`, an `int32_t` in the source: there are fewer than 2³¹ live accessors. -/
structure State where
  refs : Int
  dirty : Bool
  nodeQueues : Fin 64 → List Nat
  /-- The thread that holds `lock_`. -/
  lock : Option Nat
  /-- The nodes in the list. -/
  linked : List Nat
  threads : Nat → Phase

/-- A list without accessors. A new one has spare nodes in its queues, and `dirty_` set by the
pop of its head; behind a cleanup the queues are empty. -/
def initial (linked : List Nat) (spare : Fin 64 → List Nat) (dirty : Bool) : State :=
  ⟨0, dirty, spare, none, linked, fun _ => .idle⟩

inductive Action where
  | addRef
  | unlink (node : Nat)
  | push
  /-- `if (!dirty_.load() || refs() > 1)`. -/
  | test
  | decrement
  | lockedDecrement
  /-- One round of the cleanup loop: a node is popped and destroyed, or the queue is empty. -/
  | cleanup
deriving DecidableEq

section Steps

variable (height : Nat → Fin 64)

def State.goTo (s : State) (t : Nat) (phase : Phase) : State :=
  { s with threads := Function.update s.threads t phase }

/-- One step of thread `t`, if it can take it. -/
def step (s : State) (t : Nat) : Action → Option State
  | .addRef =>
      match s.threads t with
      | .idle => some ({ s with refs := s.refs + 1 }.goTo t (.holding s.linked))
      | _ => none
  | .unlink node =>
      match s.threads t with
      | .holding seen =>
          if node ∈ s.linked then
            some ({ s with linked := s.linked.filter (· ≠ node) }.goTo t (.removing seen node))
          else none
      | _ => none
  | .push =>
      match s.threads t with
      | .removing seen node =>
          some ({ s with
            nodeQueues := Function.update s.nodeQueues (height node)
              (s.nodeQueues (height node) ++ [node])
            dirty := true }.goTo t (.holding seen))
      | _ => none
  | .test =>
      match s.threads t with
      | .holding seen => some (s.goTo t (.releasing seen (s.dirty && decide (s.refs ≤ 1))))
      | _ => none
  | .decrement =>
      match s.threads t with
      | .releasing _ false => some ({ s with refs := s.refs - 1 }.goTo t .idle)
      | _ => none
  | .lockedDecrement =>
      match s.threads t, s.lock with
      | .releasing _ true, none =>
          -- `ret` is the count before.
          if s.refs = 1 then
            some ({ s with refs := s.refs - 1, lock := some t }.goTo t (.cleaning 0))
          else some ({ s with refs := s.refs - 1 }.goTo t .idle)
      | _, _ => none
  | .cleanup =>
      match s.threads t with
      | .cleaning i =>
          if inside : i < 64 then
            match s.nodeQueues ⟨i, inside⟩ with
            | _ :: rest =>
                some { s with nodeQueues := Function.update s.nodeQueues ⟨i, inside⟩ rest }
            | [] => some (s.goTo t (.cleaning (i + 1)))
          else some ({ s with dirty := false, lock := none }.goTo t .idle)
      | _ => none

/-- The node that the next round of a thread's cleanup loop destroys. -/
def destroys (s : State) (t : Nat) : Option Nat :=
  match s.threads t with
  | .cleaning i => if inside : i < 64 then (s.nodeQueues ⟨i, inside⟩).head? else none
  | _ => none

/-- No push goes to a queue that a cleanup loop has yet to pass. -/
def Meets (s : State) (t : Nat) : Action → Prop
  | .push => ∀ seen node, s.threads t = .removing seen node →
      ∀ u i, s.threads u = .cleaning i → (height node : Nat) < i
  | _ => True

/-- A step that meets the condition. -/
def StepMeets (s : State) (label : Nat × Action) (s' : State) : Prop :=
  step height s label.1 label.2 = some s' ∧ Meets height s label.1 label.2

end Steps

/-! ### The invariant -/

/-- `refs_` is the number of live accessors. -/
def Counted (refs : Int) (threads : Nat → Phase) : Prop :=
  ∃ live : Finset Nat, (∀ t, t ∈ live ↔ (threads t).seen?.isSome) ∧ refs = live.card

/-- No live accessor has seen a node. -/
def Unseen (threads : Nat → Phase) (node : Nat) : Prop :=
  ∀ u seen, (threads u).seen? = some seen → node ∉ seen

structure Inv (s : State) : Prop where
  counted : Counted s.refs s.threads
  queued : ∀ h, ∀ node ∈ s.nodeQueues h, node ∉ s.linked
  inHand : ∀ t seen node, s.threads t = .removing seen node → node ∉ s.linked
  locked : ∀ t i, s.threads t = .cleaning i → s.lock = some t
  /-- What a cleanup loop has yet to destroy is unseen. -/
  unseen : ∀ t i, s.threads t = .cleaning i → ∀ h : Fin 64, i ≤ h →
    ∀ node ∈ s.nodeQueues h, Unseen s.threads node

/-- What a thread's move adds to the count. -/
def Phase.weight (phase : Phase) : Int := if phase.seen?.isSome then 1 else 0

theorem Counted.update {refs : Int} {threads : Nat → Phase} (counted : Counted refs threads)
    (t : Nat) (phase : Phase) :
    Counted (refs + (phase.weight - (threads t).weight)) (Function.update threads t phase) := by
  obtain ⟨live, mem, rfl⟩ := counted
  have others : ∀ u, u ≠ t → (u ∈ live ↔ (Function.update threads t phase u).seen?.isSome) := by
    intro u other
    rw [Function.update_of_ne other]
    exact mem u
  by_cases after : phase.seen?.isSome
  · refine ⟨insert t live, ?_, ?_⟩
    · intro u
      by_cases here : u = t
      · subst here
        simp [after]
      · rw [Finset.mem_insert, ← others u here]
        simp [here]
    · by_cases before : (threads t).seen?.isSome
      · rw [Finset.insert_eq_of_mem ((mem t).mpr before)]
        simp [Phase.weight, after, before]
      · rw [Finset.card_insert_of_notMem (mt (mem t).mp before)]
        simp [Phase.weight, after, before]
  · refine ⟨live.erase t, ?_, ?_⟩
    · intro u
      by_cases here : u = t
      · subst here
        simp [after]
      · rw [Finset.mem_erase, ← others u here]
        simp [here]
    · by_cases before : (threads t).seen?.isSome
      · have here := (mem t).mpr before
        have positive := Finset.card_pos.mpr ⟨t, here⟩
        rw [Finset.card_erase_of_mem here]
        simp only [Phase.weight, after, before, if_true]
        simp
        omega
      · rw [Finset.erase_eq_of_notMem (mt (mem t).mp before)]
        simp [Phase.weight, after, before]

/-- With a count of one, the thread with an accessor is the only one. -/
theorem Counted.alone {threads : Nat → Phase} (counted : Counted 1 threads) {t u : Nat}
    (here : (threads t).seen?.isSome) (there : (threads u).seen?.isSome) : u = t := by
  obtain ⟨live, mem, one⟩ := counted
  have card : live.card ≤ 1 := by omega
  exact Finset.card_le_one.mp card u ((mem u).mpr there) t ((mem t).mpr here)

/-- A node that no accessor had seen, and the new phase of a thread has not, is unseen. -/
theorem Unseen.update {threads : Nat → Phase} {node : Nat} (unseen : Unseen threads node) {t : Nat}
    {phase : Phase} (now : ∀ seen, phase.seen? = some seen → node ∉ seen) :
    Unseen (Function.update threads t phase) node := by
  intro u seen here
  by_cases same : u = t
  · subst same
    rw [Function.update_self] at here
    exact now seen here
  · rw [Function.update_of_ne same] at here
    exact unseen u seen here

/-! ### One step -/

section Step

variable {s s' : State} {t : Nat} {phase : Phase}

/-- A thread moves, not into the cleanup loop, and the lock stays where it is. -/
theorem Inv.move (inv : Inv s) (moved : s'.threads = Function.update s.threads t phase)
    (refs : s'.refs = s.refs + (phase.weight - (s.threads t).weight)) (lock : s'.lock = s.lock)
    (linked : ∀ node ∈ s'.linked, node ∈ s.linked)
    (hand : ∀ seen node, phase = .removing seen node → node ∉ s'.linked)
    (outside : ∀ i, phase ≠ .cleaning i)
    (queued : ∀ h, ∀ node ∈ s'.nodeQueues h, node ∉ s'.linked)
    (unseen : ∀ u i, s.threads u = .cleaning i → ∀ h : Fin 64, i ≤ h →
      ∀ node ∈ s'.nodeQueues h, Unseen s'.threads node) : Inv s' := by
  have elsewhere : ∀ {u i}, s'.threads u = .cleaning i → s.threads u = .cleaning i := by
    intro u i at'
    rw [moved] at at'
    by_cases same : u = t
    · subst same
      rw [Function.update_self] at at'
      exact absurd at' (outside i)
    · rwa [Function.update_of_ne same] at at'
  constructor
  · rw [moved, refs]
    exact inv.counted.update t phase
  · exact queued
  · intro u seen node at'
    rw [moved] at at'
    by_cases same : u = t
    · subst same
      rw [Function.update_self] at at'
      exact hand seen node at'
    · rw [Function.update_of_ne same] at at'
      exact fun mem => inv.inHand u seen node at' (linked node mem)
  · intro u i at'
    rw [lock]
    exact inv.locked u i (elsewhere at')
  · intro u i at'
    exact unseen u i (elsewhere at')

/-- A move that leaves the queues and the list, to a phase that has seen nothing new. -/
theorem Inv.stay (inv : Inv s) (moved : s'.threads = Function.update s.threads t phase)
    (refs : s'.refs = s.refs + (phase.weight - (s.threads t).weight)) (lock : s'.lock = s.lock)
    (linked : s'.linked = s.linked) (queues : s'.nodeQueues = s.nodeQueues)
    (hand : ∀ seen node, phase ≠ .removing seen node) (outside : ∀ i, phase ≠ .cleaning i)
    (nothingNew : ∀ seen, phase.seen? = some seen → (s.threads t).seen? = some seen) : Inv s' := by
  refine inv.move moved refs lock (fun node mem => linked ▸ mem)
    (fun seen node eq => absurd eq (hand seen node)) outside ?_ ?_
  · rw [queues, linked]
    exact inv.queued
  · intro u i at' h behind node mem
    rw [queues] at mem
    rw [moved]
    have before := inv.unseen u i at' h behind node mem
    exact before.update fun seen now => before t seen (nothingNew seen now)

theorem Inv.addRef (inv : Inv s) (idle : s.threads t = .idle) :
    Inv ({ s with refs := s.refs + 1 }.goTo t (.holding s.linked)) := by
  refine inv.move rfl ?_ rfl (fun _ mem => mem) (fun _ _ eq => by cases eq) (fun _ eq => by cases eq)
    inv.queued ?_
  · rw [idle]
    rfl
  · intro u i at' h behind node mem
    refine (inv.unseen u i at' h behind node mem).update ?_
    rintro seen ⟨⟩
    exact inv.queued h node mem

theorem Inv.unlink (inv : Inv s) {seen : List Nat} (holding : s.threads t = .holding seen)
    (node : Nat) :
    Inv ({ s with linked := s.linked.filter (· ≠ node) }.goTo t (.removing seen node)) := by
  refine inv.move rfl ?_ rfl (fun _ mem => List.mem_of_mem_filter mem) ?_ (fun _ eq => by cases eq)
    ?_ ?_
  · rw [holding]
    exact (Int.add_zero _).symm
  · rintro _ _ ⟨⟩ mem
    simpa using (List.mem_filter.mp mem).2
  · intro h other mem linked
    exact inv.queued h other mem (List.mem_of_mem_filter linked)
  · intro u i at' h behind other mem
    have before := inv.unseen u i at' h behind other mem
    refine before.update ?_
    rintro _ ⟨⟩
    exact before t seen (by rw [holding]; rfl)

theorem Inv.push {height : Nat → Fin 64} (inv : Inv s) {seen : List Nat} {node : Nat}
    (removing : s.threads t = .removing seen node)
    (passed : ∀ u i, s.threads u = .cleaning i → (height node : Nat) < i) :
    Inv ({ s with
      nodeQueues := Function.update s.nodeQueues (height node)
        (s.nodeQueues (height node) ++ [node])
      dirty := true }.goTo t (.holding seen)) := by
  have unlinked := inv.inHand t seen node removing
  -- A queue holds what it held, and the node if it is the one of its height.
  have queues : ∀ h other, other ∈ Function.update s.nodeQueues (height node)
      (s.nodeQueues (height node) ++ [node]) h →
        other ∈ s.nodeQueues h ∨ other = node ∧ h = height node := by
    intro h other mem
    by_cases here : h = height node
    · subst here
      rw [Function.update_self, List.mem_append, List.mem_singleton] at mem
      exact mem.imp_right fun eq => ⟨eq, rfl⟩
    · rw [Function.update_of_ne here] at mem
      exact Or.inl mem
  refine inv.move rfl ?_ rfl (fun _ mem => mem) (fun _ _ eq => by cases eq) (fun _ eq => by cases eq)
    ?_ ?_
  · rw [removing]
    exact (Int.add_zero _).symm
  · intro h other mem
    rcases queues h other mem with old | ⟨rfl, -⟩
    · exact inv.queued h other old
    · exact unlinked
  · intro u i at' h behind other mem
    rcases queues h other mem with old | ⟨-, rfl⟩
    · have before := inv.unseen u i at' h behind other old
      refine before.update ?_
      rintro _ ⟨⟩
      exact before t seen (by rw [removing]; rfl)
    · exact absurd (passed u i at') (Nat.not_lt.mpr behind)

theorem Inv.inHand_goTo (inv : Inv s) (hand : ∀ seen node, phase ≠ .removing seen node)
    (u : Nat) (seen : List Nat) (node : Nat)
    (at' : Function.update s.threads t phase u = .removing seen node) : node ∉ s.linked := by
  by_cases same : u = t
  · subst same
    rw [Function.update_self] at at'
    exact absurd at' (hand seen node)
  · rw [Function.update_of_ne same] at at'
    exact inv.inHand u seen node at'

theorem Inv.test (inv : Inv s) {seen : List Nat} (holding : s.threads t = .holding seen)
    (locked : Bool) : Inv (s.goTo t (.releasing seen locked)) := by
  refine inv.stay rfl ?_ rfl rfl rfl (fun _ _ eq => by cases eq) (fun _ eq => by cases eq) ?_
  · rw [holding]
    exact (Int.add_zero _).symm
  · rintro _ ⟨⟩
    rw [holding]
    rfl

theorem Inv.decrement (inv : Inv s) {seen : List Nat} {locked : Bool}
    (releasing : s.threads t = .releasing seen locked) :
    Inv ({ s with refs := s.refs - 1 }.goTo t .idle) := by
  refine inv.stay rfl ?_ rfl rfl rfl (fun _ _ eq => by cases eq) (fun _ eq => by cases eq) ?_
  · rw [releasing]
    rfl
  · rintro _ ⟨⟩

/-- The last reference goes: from here on every node in the queues is unseen. -/
theorem Inv.lastDecrement (inv : Inv s) {seen : List Nat} {locked : Bool}
    (releasing : s.threads t = .releasing seen locked) (free : s.lock = none)
    (last : s.refs = 1) :
    Inv ({ s with refs := s.refs - 1, lock := some t }.goTo t (.cleaning 0)) := by
  have live : (s.threads t).seen?.isSome := by
    rw [releasing]
    rfl
  have nobody : ∀ u, u ≠ t → ¬ (s.threads u).seen?.isSome := fun u other there =>
    other ((last ▸ inv.counted).alone live there)
  have quiet : ∀ u i, u ≠ t → s.threads u ≠ .cleaning i := by
    intro u i _ at'
    rw [inv.locked u i at'] at free
    cases free
  constructor
  · have counted := inv.counted.update t (.cleaning 0)
    rw [releasing] at counted
    exact counted
  · exact inv.queued
  · exact inv.inHand_goTo fun _ _ eq => by cases eq
  · intro u i at'
    by_cases same : u = t
    · subst same
      rfl
    · simp only [State.goTo, Function.update_of_ne same] at at'
      exact absurd at' (quiet u i same)
  · intro u i _ h _ node _ v seen' there
    by_cases same : v = t
    · subst same
      simp [State.goTo, Phase.seen?] at there
    · simp only [State.goTo, Function.update_of_ne same] at there
      exact absurd (Option.isSome_iff_exists.mpr ⟨seen', there⟩) (nobody v same)

theorem Inv.destroy (inv : Inv s) (h : Fin 64) {node : Nat} {rest : List Nat}
    (front : s.nodeQueues h = node :: rest) :
    Inv { s with nodeQueues := Function.update s.nodeQueues h rest } := by
  have queues : ∀ k other, other ∈ Function.update s.nodeQueues h rest k → other ∈ s.nodeQueues k := by
    intro k other mem
    by_cases here : k = h
    · subst here
      rw [Function.update_self] at mem
      rw [front]
      exact List.mem_cons_of_mem _ mem
    · rwa [Function.update_of_ne here] at mem
  constructor
  · exact inv.counted
  · exact fun k other mem => inv.queued k other (queues k other mem)
  · exact inv.inHand
  · exact inv.locked
  · exact fun u i at' k behind other mem => inv.unseen u i at' k behind other (queues k other mem)

/-- The loop goes on to the next queue. -/
theorem Inv.next (inv : Inv s) {i : Nat} (cleaning : s.threads t = .cleaning i) :
    Inv (s.goTo t (.cleaning (i + 1))) := by
  constructor
  · have counted := inv.counted.update t (.cleaning (i + 1))
    rw [cleaning] at counted
    simpa [State.goTo, Phase.weight, Phase.seen?] using counted
  · exact inv.queued
  · exact inv.inHand_goTo fun _ _ eq => by cases eq
  · intro u j at'
    by_cases same : u = t
    · subst same
      exact inv.locked u i cleaning
    · simp only [State.goTo, Function.update_of_ne same] at at'
      exact inv.locked u j at'
  · intro u j at' h behind node mem
    have before : Unseen s.threads node := by
      by_cases same : u = t
      · subst same
        simp only [State.goTo, Function.update_self, Phase.cleaning.injEq] at at'
        exact inv.unseen u i cleaning h (by omega) node mem
      · simp only [State.goTo, Function.update_of_ne same] at at'
        exact inv.unseen u j at' h behind node mem
    exact before.update fun seen now => by cases now

/-- The loop is done. Nobody else is in it. -/
theorem Inv.finish (inv : Inv s) {i : Nat} (cleaning : s.threads t = .cleaning i) :
    Inv ({ s with dirty := false, lock := none }.goTo t .idle) := by
  have nobody : ∀ u j, u ≠ t → s.threads u ≠ .cleaning j := by
    intro u j other at'
    have held := inv.locked u j at'
    rw [inv.locked t i cleaning] at held
    exact other (Option.some.inj held).symm
  constructor
  · have counted := inv.counted.update t .idle
    rw [cleaning] at counted
    simpa [State.goTo, Phase.weight, Phase.seen?] using counted
  · exact inv.queued
  · exact inv.inHand_goTo fun _ _ eq => by cases eq
  · intro u j at'
    by_cases same : u = t
    · subst same
      simp [State.goTo] at at'
    · simp only [State.goTo, Function.update_of_ne same] at at'
      exact absurd at' (nobody u j same)
  · intro u j at'
    by_cases same : u = t
    · subst same
      simp [State.goTo] at at'
    · simp only [State.goTo, Function.update_of_ne same] at at'
      exact absurd at' (nobody u j same)

/-- Every step that meets the condition keeps the invariant. -/
theorem Inv.step {height : Nat → Fin 64} (inv : Inv s) {a : Action}
    (taken : GracePeriod.step height s t a = some s') (meets : Meets height s t a) : Inv s' := by
  cases a with
  | addRef =>
      simp only [GracePeriod.step] at taken
      split at taken
      · cases taken
        exact inv.addRef ‹_›
      · cases taken
  | unlink node =>
      simp only [GracePeriod.step] at taken
      split at taken
      · split at taken
        · cases taken
          exact inv.unlink ‹_› node
        · cases taken
      · cases taken
  | push =>
      simp only [GracePeriod.step] at taken
      split at taken
      · cases taken
        exact inv.push ‹_› (meets _ _ ‹_›)
      · cases taken
  | test =>
      simp only [GracePeriod.step] at taken
      split at taken
      · cases taken
        exact inv.test ‹_› _
      · cases taken
  | decrement =>
      simp only [GracePeriod.step] at taken
      split at taken
      · cases taken
        exact inv.decrement ‹_›
      · cases taken
  | lockedDecrement =>
      simp only [GracePeriod.step] at taken
      split at taken
      · rename_i releasing free
        split at taken
        · cases taken
          exact inv.lastDecrement releasing free ‹_›
        · cases taken
          exact inv.decrement releasing
      · cases taken
  | cleanup =>
      simp only [GracePeriod.step] at taken
      split at taken
      · rename_i i cleaning
        split at taken
        · split at taken
          · cases taken
            exact inv.destroy _ ‹_›
          · cases taken
            exact inv.next cleaning
        · cases taken
          exact inv.finish cleaning
      · cases taken

end Step

theorem inv_initial {linked : List Nat} {spare : Fin 64 → List Nat} (dirty : Bool)
    (apart : ∀ h, ∀ node ∈ spare h, node ∉ linked) : Inv (initial linked spare dirty) := by
  constructor
  · exact ⟨∅, fun t => by simp [initial, Phase.seen?], rfl⟩
  · exact apart
  · intro t seen node at'
    cases at'
  · intro t i at'
    cases at'
  · intro t i at'
    cases at'

/-- **In every run in which nobody pushes onto a queue that a cleanup loop has yet to pass, no
step destroys a node that was in the list at some moment of the lifetime of a live accessor.** -/
theorem destroys_unseen {height : Nat → Fin 64} {linked : List Nat} {spare : Fin 64 → List Nat}
    {dirty : Bool} {s : State} (apart : ∀ h, ∀ node ∈ spare h, node ∉ linked)
    (run : Reachable (StepMeets height) (initial linked spare dirty) s) {t node : Nat}
    (destroyed : destroys s t = some node) : Unseen s.threads node := by
  have inv : Inv s := run.invariant (inv_initial dirty apart) fun s _ s' inv taken =>
    inv.step taken.1 taken.2
  unfold destroys at destroyed
  split at destroyed
  · rename_i i cleaning
    split at destroyed
    · rename_i inside
      exact inv.unseen t i cleaning ⟨i, inside⟩ (Nat.le_refl i) node (List.mem_of_mem_head? destroyed)
    · cases destroyed
  · cases destroyed

/-- Steps of given threads, one after the other. -/
def exec (height : Nat → Fin 64) (s : State) (labels : List (Nat × Action)) : Option State :=
  labels.foldlM (fun s label => step height s label.1 label.2) s

/-- A spare node of height 0. -/
def nineSpare (h : Fin 64) : List Nat := if h = 0 then [9] else []

/-- A thread comes, removes the node 5 and goes. While it drains the queues, in which there is a
spare node too, another one comes and sees the node 7; the node 5 is destroyed next. -/
theorem destroys_unseen_beside :
    ∃ s, (∀ h, ∀ node ∈ nineSpare h, node ∉ [5, 7]) ∧
      Reachable (StepMeets fun _ => 0) (initial [5, 7] nineSpare true) s ∧ destroys s 0 = some 5 ∧
      (s.threads 1).seen? = some [7] ∧ Unseen s.threads 5 := by
  have apart : ∀ h, ∀ node ∈ nineSpare h, node ∉ [5, 7] := by
    intro h node mem
    unfold nineSpare at mem
    split at mem
    · rw [List.mem_singleton.mp mem]
      decide
    · cases mem
  have steps : ∃ s, Reachable (StepMeets fun _ => 0) (initial [5, 7] nineSpare true) s ∧
      destroys s 0 = some 5 ∧ (s.threads 1).seen? = some [7] := by
    refine ⟨_, .step (i := (0, .cleanup)) (.step (i := (1, .addRef)) (.step (i := (0, .lockedDecrement))
      (.step (i := (0, .test)) (.step (i := (0, .push)) (.step (i := (0, .unlink 5))
        (.step (i := (0, .addRef)) .start ⟨rfl, trivial⟩) ⟨rfl, trivial⟩) ⟨rfl, ?_⟩)
        ⟨rfl, trivial⟩) ⟨rfl, trivial⟩) ⟨rfl, trivial⟩) ⟨rfl, trivial⟩, rfl, rfl⟩
    intro seen node _ u i cleaning
    by_cases first : u = 0
    · subst first
      cases cleaning
    · simp [State.goTo, initial, Function.update_of_ne first] at cleaning
  obtain ⟨s, run, destroyed, beside⟩ := steps
  exact ⟨s, apart, run, destroyed, beside, destroys_unseen apart run destroyed⟩

/-- While a thread drains the queues another one comes, removes the node 7, which it has seen
in the list, and pushes it. The node is destroyed next. -/
theorem destroys_seen :
    ∃ s, exec (fun _ => 0) (initial [5, 7] (fun _ => []) false)
        [(0, .addRef), (0, .unlink 5), (0, .push), (0, .test), (0, .lockedDecrement), (1, .addRef),
          (1, .unlink 7), (1, .push), (0, .cleanup)] = some s ∧
      destroys s 0 = some 7 ∧ ¬ Unseen s.threads 7 := by
  refine ⟨_, rfl, rfl, ?_⟩
  intro unseen
  exact unseen 1 [7] rfl List.mem_cons_self

end Hcl.GracePeriod
