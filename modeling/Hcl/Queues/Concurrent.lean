import Mathlib.Data.Multiset.Basic
import Hcl.Lib.Monitor
import Hcl.Queues

/-!
`hcl::queue`, `hcl::priority_queue` and `hcl::vector` called from everywhere at once.

Every `Local*` body takes the mutex of the segment first and holds it to its end, whether the
caller runs it on its own server's segment or a handler thread runs it for an RPC. The bodies
are programs here, one step for each call of the container in the segment; front or top of an
empty container would be `undefined`. For any clients and any interleaving

* a queue is a log with a cursor (`Queue.answers_as_log`): the k-th element popped from a server
  is the k-th pushed to it, none is lost and none comes twice;
* a priority queue is a multiset whose maximum is popped (`PriorityQueue.answers_as_multiset`);
* a vector is a log whose entries keep their index (`Vector.answers_as_indexed_log`).
-/

namespace Hcl

open Hcl.Lib Hcl.Lib.Atomic Hcl.Lib.Monitor Hcl.Lib.Keyed

variable {S A C P O T V : Type*}

/-! ### Calls that name their server -/

/-- A call: the object it is made on, the server it names, and the operation. -/
structure Addressed (C : Type*) where
  caller : Container
  keyInt : UInt16
  op : C

/-- The server whose segment the call works on: the caller's own where `is_local(key_int)`,
else the one the RPC goes to. -/
def Addressed.server (call : Addressed C) : UInt16 :=
  if call.caller.isLocal call.keyInt then call.caller.myServerIdx else call.keyInt

theorem Addressed.server_eq (call : Addressed C) : call.server = call.keyInt := by
  unfold Addressed.server
  split
  · rename_i here
    exact (Container.eq_myServerIdx_of_isLocal here).symm
  · rfl

/-- The servers of a container, each with its segment behind its mutex, and the clients. -/
abbrev Servers (S T C P O : Type*) := Family UInt16 (State S T (Addressed C) P O) T

variable [DecidableEq T]

/-- One step of one client. -/
def Servers.Step (program : Program S (Addressed C) P O) :
    Servers S T C P O → Option (Event T (Addressed C) O) → Servers S T C P O → Prop :=
  Family.Step Addressed.server fun _ => Monitor.Step program

/-- Every segment as `construct_shared_memory` leaves it. -/
def Servers.initial (x : S) : Servers S T C P O :=
  Family.initial fun _ => State.initial x

/-- An operation on the value of the server it names. -/
def onNamed (spec : A → C → O → A → Prop) (a : UInt16 → A) (call : Addressed C) (o : O)
    (b : UInt16 → A) : Prop :=
  ∃ x, spec (a call.keyInt) call.op o x ∧ b = Function.update a call.keyInt x

/-- The servers of a container answer as one value a server would, and no call gets stuck. -/
def Servers.Linearizable (T : Type*) [DecidableEq T] (program : Program S (Addressed C) P O) (x : S)
    (spec : A → C → O → A → Prop) (a : A) : Prop :=
  Atomic.Linearizable (Servers.Step (T := T) program) (.initial x) (onNamed spec) (fun _ => a) ∧
    ∀ trace f, Run (Servers.Step (T := T) program) (.initial x) trace f → ∀ t n, f.place t = some n →
      ∃ o f', Run (Servers.Step program) f [.ret t o] f' ∧ f'.place t = none

/-- Bodies that run alone as the specification says, under the mutex. -/
theorem Servers.linearizable {program : Program S (Addressed C) P O} {spec : A → C → O → A → Prop}
    {Q : S → A → Prop} {x : S} {a : A} (start : Q x a)
    (meets : ∀ x a call o y, Q x a → program.runs x call o y → ∃ b, spec a call.op o b ∧ Q y b)
    (ends : ∀ p x, ∃ o y, Finishes program p x o y) : Servers.Linearizable T program x spec a := by
  constructor
  · refine (family_linearizable (T := T) Addressed.server program x).abstract
      (Q := fun (xs : UInt16 → S) (as : UInt16 → A) => ∀ n, Q (xs n) (as n)) (fun _ => start) ?_
    rintro xs as call o _ related ⟨y, runs, rfl⟩
    rw [Addressed.server_eq] at runs ⊢
    obtain ⟨b, allowed, next⟩ := meets _ _ call o y (related call.keyInt) runs
    refine ⟨_, ⟨b, allowed, rfl⟩, fun n => ?_⟩
    by_cases same : n = call.keyInt
    · subst same
      rwa [Function.update_self, Function.update_self]
    · rw [Function.update_of_ne same, Function.update_of_ne same]
      exact related n
  · intro trace f run t n here
    exact family_completes ends run here

/-! ### The queue -/

namespace Queue

inductive Op (V : Type*) where
  | push (data : V)
  | pop
  | size

inductive Answer (V : Type*) where
  | push (ok : Bool)
  | pop (found : Bool × V)
  | size (value : Nat)
  | undefined

/-- The calls of `my_queue` in the bodies. -/
inductive Place (V : Type*) where
  | pushBack (value : V)
  | sizeOfPop
  | front
  | popFront (value : V)
  | size

/-- `LocalPush`, `LocalPop` and `LocalSize`. -/
def program (V : Type*) [Inhabited V] [MoveOut V] :
    Program (MyQueue V) (Addressed (Op V)) (Place V) (Answer V) where
  entry call := match call.op with
    | .push data => .pushBack (getData data).1
    | .pop => .sizeOfPop
    | .size => .size
  access
    | .pushBack value, queue => (queue ++ [value], .inr (.push true))
    | .sizeOfPop, queue =>
        if queue.length > 0 then (queue, .inl .front) else (queue, .inr (.pop (false, default)))
    | .front, queue => match queue.head? with
        | some value => (queue, .inl (.popFront value))
        | none => (queue, .inr .undefined)
    | .popFront value, queue => (queue.tail, .inr (.pop (true, value)))
    | .size, queue => (queue, .inr (.size queue.length))

/-- Everything pushed to a server, in order, and how much of it has been popped. -/
structure Log (V : Type*) where
  pushed : List V
  popped : Nat

/-- The next element is the first that has not been popped. -/
def Spec [Inhabited V] (log : Log V) : Op V → Answer V → Log V → Prop
  | .push data, a, log' => a = .push true ∧ log' = ⟨log.pushed ++ [data], log.popped⟩
  | .pop, a, log' => match log.pushed[log.popped]? with
      | some value => a = .pop (true, value) ∧ log' = ⟨log.pushed, log.popped + 1⟩
      | none => a = .pop (false, default) ∧ log' = log
  | .size, a, log' => a = .size (log.pushed.length - log.popped) ∧ log' = log

/-- The queue holds what has not been popped. -/
def Holds (queue : MyQueue V) (log : Log V) : Prop :=
  log.popped ≤ log.pushed.length ∧ queue = log.pushed.drop log.popped

variable [Inhabited V] [MoveOut V]

theorem finishes_pop {queue queue' : MyQueue V} {a : Answer V}
    (finishes : Finishes (program V) .sizeOfPop queue a queue') :
    (queue = [] ∧ queue' = [] ∧ a = .pop (false, default)) ∨
      ∃ value, queue = value :: queue' ∧ a = .pop (true, value) := by
  cases queue with
  | nil =>
      cases finishes with
      | last accessed =>
          cases accessed
          exact .inl ⟨rfl, rfl, rfl⟩
      | next accessed _ => cases accessed
  | cons value rest =>
      -- The size is positive, so `front` and `pop_front` follow.
      cases finishes with
      | last accessed => cases accessed
      | next accessed rest =>
          cases accessed
          cases rest with
          | last accessed => cases accessed
          | next accessed rest =>
              cases accessed
              cases rest with
              | last accessed =>
                  cases accessed
                  exact .inr ⟨value, rfl, rfl⟩
              | next accessed _ => cases accessed

/-- A body that runs alone does what the log says. -/
theorem runs_meets (queue : MyQueue V) (log : Log V) (call : Addressed (Op V)) (a : Answer V)
    (queue' : MyQueue V) (holds : Holds queue log) (runs : (program V).runs queue call a queue') :
    ∃ log', Spec log call.op a log' ∧ Holds queue' log' := by
  obtain ⟨within, rfl⟩ := holds
  obtain ⟨caller, keyInt, op⟩ := call
  cases op with
  | push data =>
      cases runs with
      | last accessed =>
          cases accessed
          refine ⟨_, ⟨rfl, rfl⟩, ?_, ?_⟩
          · rw [List.length_append]
            exact Nat.le_add_right_of_le within
          · exact (List.drop_append_of_le_length within).symm
      | next accessed _ => cases accessed
  | size =>
      cases runs with
      | last accessed =>
          cases accessed
          refine ⟨log, ⟨?_, rfl⟩, within, rfl⟩
          rw [List.length_drop]
      | next accessed _ => cases accessed
  | pop =>
      rcases finishes_pop runs with ⟨empty, rfl, rfl⟩ | ⟨value, eq, rfl⟩
      · have exhausted : log.pushed[log.popped]? = none := by
          rw [List.getElem?_eq_none_iff]
          exact List.drop_eq_nil_iff.mp empty
        have allowed : Spec log .pop (.pop (false, default)) log := by
          simp [Spec, exhausted]
        exact ⟨log, allowed, within, empty.symm⟩
      · have next : log.pushed[log.popped]? = some value := by
          rw [← List.head?_drop, eq]
          rfl
        have allowed : Spec log .pop (.pop (true, value)) ⟨log.pushed, log.popped + 1⟩ := by
          simp [Spec, next]
        refine ⟨_, allowed, ?_, ?_⟩
        · obtain ⟨below, -⟩ := List.getElem?_eq_some_iff.mp next
          exact below
        · rw [← List.tail_drop, eq]
          rfl

theorem ends (place : Place V) (queue : MyQueue V) :
    ∃ a queue', Finishes (program V) place queue a queue' := by
  have popFront : ∀ value (queue : MyQueue V), ∃ a queue', Finishes (program V) (.popFront value) queue a queue' :=
    fun value queue => ⟨_, _, .last rfl⟩
  have front : ∀ queue : MyQueue V, ∃ a queue', Finishes (program V) .front queue a queue' := by
    intro queue
    cases queue with
    | nil => exact ⟨_, _, .last rfl⟩
    | cons value rest =>
        obtain ⟨a, queue', finishes⟩ := popFront value (value :: rest)
        exact ⟨a, queue', .next rfl finishes⟩
  cases place with
  | pushBack value => exact ⟨_, _, .last rfl⟩
  | size => exact ⟨_, _, .last rfl⟩
  | popFront value => exact popFront value queue
  | front => exact front queue
  | sizeOfPop =>
      cases queue with
      | nil => exact ⟨_, _, .last rfl⟩
      | cons value rest =>
          obtain ⟨a, queue', finishes⟩ := front (value :: rest)
          exact ⟨a, queue', .next rfl finishes⟩

/-- **A queue is a log with a cursor on every server, in every interleaving.** -/
theorem answers_as_log : Servers.Linearizable T (program V) [] Spec ⟨[], 0⟩ :=
  Servers.linearizable (Q := Holds) ⟨Nat.le_refl 0, rfl⟩ runs_meets ends

end Queue

/-! ### The priority queue -/

namespace PriorityQueue

inductive Op (V : Type*) where
  | push (data : V)
  | pop
  | top
  | size

inductive Answer (V : Type*) where
  | push (ok : Bool)
  | pop (found : Bool × V)
  | top (found : Bool × V)
  | size (value : Nat)
  | undefined

/-- The calls of `queue` in the bodies. -/
inductive Place (V : Type*) where
  | push (value : V)
  | sizeOfPop
  | topOfPop
  | pop (value : V)
  | sizeOfTop
  | top
  | size

/-- `top()`, if there is one. -/
def MyQueue.top? [LinearOrder V] (queue : MyQueue V) : Option V := queue.elements.getLast?

/-- `pop()`. -/
def MyQueue.pop [LinearOrder V] (queue : MyQueue V) : MyQueue V :=
  ⟨queue.elements.dropLast, queue.nondecreasing.sublist (List.dropLast_sublist _)⟩

def MyQueue.size [LinearOrder V] (queue : MyQueue V) : Nat := queue.elements.length

/-- The queue `construct_shared_memory` builds. -/
def MyQueue.empty [LinearOrder V] : MyQueue V := ⟨[], List.Pairwise.nil⟩

/-- `LocalPush`, `LocalPop`, `LocalTop` and `LocalSize`. -/
def program (V : Type*) [LinearOrder V] [Inhabited V] [MoveOut V] :
    Program (MyQueue V) (Addressed (Op V)) (Place V) (Answer V) where
  entry call := match call.op with
    | .push data => .push (getData data).1
    | .pop => .sizeOfPop
    | .top => .sizeOfTop
    | .size => .size
  access
    | .push value, queue => (queue.push value, .inr (.push true))
    | .sizeOfPop, queue =>
        if queue.size > 0 then (queue, .inl .topOfPop) else (queue, .inr (.pop (false, default)))
    | .topOfPop, queue => match queue.top? with
        | some value => (queue, .inl (.pop value))
        | none => (queue, .inr .undefined)
    | .pop value, queue => (queue.pop, .inr (.pop (true, value)))
    | .sizeOfTop, queue =>
        if queue.size > 0 then (queue, .inl .top) else (queue, .inr (.top (false, default)))
    | .top, queue => match queue.top? with
        | some value => (queue, .inr (.top (true, value)))
        | none => (queue, .inr .undefined)
    | .size, queue => (queue, .inr (.size queue.size))

/-- `v` is the greatest element of `m`. -/
def Greatest [LinearOrder V] (m : Multiset V) (v : V) : Prop := v ∈ m ∧ ∀ w ∈ m, w ≤ v

/-- A multiset; the greatest element is popped, one copy of it. -/
def Spec [LinearOrder V] [Inhabited V] (m : Multiset V) : Op V → Answer V → Multiset V → Prop
  | .push data, a, m' => a = .push true ∧ m' = data ::ₘ m
  | .pop, a, m' => (m = 0 ∧ a = .pop (false, default) ∧ m' = 0) ∨
      ∃ v, Greatest m v ∧ a = .pop (true, v) ∧ m = v ::ₘ m'
  | .top, a, m' => m' = m ∧ ((m = 0 ∧ a = .top (false, default)) ∨
      ∃ v, Greatest m v ∧ a = .top (true, v))
  | .size, a, m' => a = .size (Multiset.card m) ∧ m' = m

section Top

variable [LinearOrder V]

/-- A queue is empty, or has a greatest element, which `top` finds and `pop` removes. -/
theorem MyQueue.empty_or_top (queue : MyQueue V) :
    queue = .empty ∨ ∃ v, queue.top? = some v ∧ queue.size > 0 ∧
      Greatest (queue.elements : Multiset V) v ∧
      (queue.elements : Multiset V) = v ::ₘ (queue.pop.elements : Multiset V) := by
  obtain ⟨elements, ordered⟩ := queue
  rcases List.eq_nil_or_concat' elements with rfl | ⟨init, v, rfl⟩
  · exact .inl rfl
  · have last : ∀ w ∈ init, w ≤ v := by
      intro w mem
      exact (List.pairwise_append.mp ordered).2.2 w mem v (List.mem_singleton.mpr rfl)
    refine .inr ⟨v, List.getLast?_concat, ?_, ⟨?_, ?_⟩, ?_⟩
    · show (init ++ [v]).length > 0
      rw [List.length_append]
      exact Nat.succ_pos _
    · rw [Multiset.mem_coe]
      exact List.mem_append_right _ (List.mem_singleton.mpr rfl)
    · intro w mem
      rw [Multiset.mem_coe, List.mem_append, List.mem_singleton] at mem
      rcases mem with before | rfl
      · exact last w before
      · exact le_refl w
    · show ((init ++ [v] : List V) : Multiset V) = v ::ₘ ((init ++ [v]).dropLast : Multiset V)
      rw [List.dropLast_concat, Multiset.cons_coe, Multiset.coe_eq_coe]
      exact List.perm_append_singleton v init

end Top

variable [LinearOrder V] [Inhabited V] [MoveOut V]

/-- A body that runs alone does what the multiset says. -/
theorem runs_meets (queue : MyQueue V) (m : Multiset V) (call : Addressed (Op V)) (a : Answer V)
    (queue' : MyQueue V) (holds : (queue.elements : Multiset V) = m)
    (runs : (program V).runs queue call a queue') :
    ∃ m', Spec m call.op a m' ∧ (queue'.elements : Multiset V) = m' := by
  subst holds
  obtain ⟨caller, keyInt, op⟩ := call
  refine ⟨_, ?_, rfl⟩
  cases op with
  | push data =>
      cases runs with
      | last accessed =>
          cases accessed
          refine ⟨rfl, ?_⟩
          rw [Multiset.cons_coe, Multiset.coe_eq_coe]
          exact insertUpper_perm data queue.elements
      | next accessed _ => cases accessed
  | size =>
      cases runs with
      | last accessed =>
          cases accessed
          exact ⟨rfl, rfl⟩
      | next accessed _ => cases accessed
  | pop =>
      rcases queue.empty_or_top with rfl | ⟨v, top, filled, greatest, popped⟩
      · cases runs with
        | last accessed =>
            cases accessed
            exact .inl ⟨rfl, rfl, rfl⟩
        | next accessed _ => cases accessed
      · cases runs with
        | last accessed => simp [program, filled] at accessed
        | next accessed rest =>
            simp only [program, if_pos filled, Prod.mk.injEq, Sum.inl.injEq] at accessed
            obtain ⟨rfl, rfl⟩ := accessed
            cases rest with
            | last accessed => simp [program, top] at accessed
            | next accessed rest =>
                simp only [program, top, Prod.mk.injEq, Sum.inl.injEq] at accessed
                obtain ⟨rfl, rfl⟩ := accessed
                cases rest with
                | last accessed =>
                    cases accessed
                    exact .inr ⟨v, greatest, rfl, popped⟩
                | next accessed _ => cases accessed
  | top =>
      rcases queue.empty_or_top with rfl | ⟨v, top, filled, greatest, popped⟩
      · cases runs with
        | last accessed =>
            cases accessed
            exact ⟨rfl, .inl ⟨rfl, rfl⟩⟩
        | next accessed _ => cases accessed
      · cases runs with
        | last accessed => simp [program, filled] at accessed
        | next accessed rest =>
            simp only [program, if_pos filled, Prod.mk.injEq, Sum.inl.injEq] at accessed
            obtain ⟨rfl, rfl⟩ := accessed
            cases rest with
            | last accessed =>
                simp only [program, top, Prod.mk.injEq, Sum.inr.injEq] at accessed
                obtain ⟨rfl, rfl⟩ := accessed
                exact ⟨rfl, .inr ⟨v, greatest, rfl⟩⟩
            | next accessed _ => simp [program, top] at accessed

theorem ends (place : Place V) (queue : MyQueue V) :
    ∃ a queue', Finishes (program V) place queue a queue' := by
  have topOfPop : ∀ queue : MyQueue V, ∃ a queue', Finishes (program V) .topOfPop queue a queue' := by
    intro queue
    cases top : queue.top? with
    | none => exact ⟨_, _, .last (by simp only [program, top]; rfl)⟩
    | some value => exact ⟨_, _, .next (by simp only [program, top]; rfl) (.last rfl)⟩
  have topAlone : ∀ queue : MyQueue V, ∃ a queue', Finishes (program V) .top queue a queue' := by
    intro queue
    cases top : queue.top? with
    | none => exact ⟨_, _, .last (by simp only [program, top]; rfl)⟩
    | some value => exact ⟨_, _, .last (by simp only [program, top]; rfl)⟩
  cases place with
  | push value => exact ⟨_, _, .last rfl⟩
  | pop value => exact ⟨_, _, .last rfl⟩
  | size => exact ⟨_, _, .last rfl⟩
  | topOfPop => exact topOfPop queue
  | top => exact topAlone queue
  | sizeOfPop =>
      by_cases some : queue.size > 0
      · obtain ⟨a, queue', finishes⟩ := topOfPop queue
        exact ⟨a, queue', .next (if_pos some) finishes⟩
      · exact ⟨_, _, .last (if_neg some)⟩
  | sizeOfTop =>
      by_cases some : queue.size > 0
      · obtain ⟨a, queue', finishes⟩ := topAlone queue
        exact ⟨a, queue', .next (if_pos some) finishes⟩
      · exact ⟨_, _, .last (if_neg some)⟩

/-- **A priority queue is a multiset on every server, in every interleaving.** -/
theorem answers_as_multiset : Servers.Linearizable T (program V) .empty Spec 0 :=
  Servers.linearizable (Q := fun queue m => (queue.elements : Multiset V) = m) rfl runs_meets ends

end PriorityQueue

/-! ### The vector -/

namespace Vector

inductive Op (V : Type*) where
  | push (data : V)
  | get (index : Nat)
  | size

inductive Answer (V : Type*) where
  | push (ok : Bool)
  | get (found : Bool × V)
  | size (value : Nat)
  | undefined

/-- The calls of `my_vector` in the bodies. -/
inductive Place (V : Type*) where
  | pushBack (value : V)
  | sizeOfGet (index : Nat)
  | atIndex (index : Nat)
  | size

/-- `LocalPush`, `LocalGet` and `LocalSize`. -/
def program (V : Type*) [Inhabited V] [MoveOut V] :
    Program (MyVector V) (Addressed (Op V)) (Place V) (Answer V) where
  entry call := match call.op with
    | .push data => .pushBack (getData data).1
    | .get index => .sizeOfGet index
    | .size => .size
  access
    | .pushBack value, vector => (vector.push value, .inr (.push true))
    | .sizeOfGet index, vector =>
        if vector.size > index then (vector, .inl (.atIndex index))
        else (vector, .inr (.get (false, default)))
    | .atIndex index, vector => match vector[index]? with
        | some value => (vector, .inr (.get (true, value)))
        | none => (vector, .inr .undefined)
    | .size, vector => (vector, .inr (.size vector.size))

/-- A log: what is pushed keeps its index. -/
def Spec [Inhabited V] (log : List V) : Op V → Answer V → List V → Prop
  | .push data, a, log' => a = .push true ∧ log' = log ++ [data]
  | .get index, a, log' => log' = log ∧
      a = .get (match log[index]? with | some value => (true, value) | none => (false, default))
  | .size, a, log' => a = .size log.length ∧ log' = log

variable [Inhabited V] [MoveOut V]

/-- A body that runs alone does what the log says. -/
theorem runs_meets (vector : MyVector V) (log : List V) (call : Addressed (Op V)) (a : Answer V)
    (vector' : MyVector V) (holds : vector.toList = log) (runs : (program V).runs vector call a vector') :
    ∃ log', Spec log call.op a log' ∧ vector'.toList = log' := by
  subst holds
  obtain ⟨caller, keyInt, op⟩ := call
  refine ⟨_, ?_, rfl⟩
  cases op with
  | push data =>
      cases runs with
      | last accessed =>
          cases accessed
          exact ⟨rfl, Array.toList_push⟩
      | next accessed _ => cases accessed
  | size =>
      cases runs with
      | last accessed =>
          cases accessed
          exact ⟨rfl, rfl⟩
      | next accessed _ => cases accessed
  | get index =>
      by_cases within : vector.size > index
      · have value : vector[index]? = some vector[index] := Array.getElem?_eq_getElem within
        cases runs with
        | last accessed => simp [program, within] at accessed
        | next accessed rest =>
            simp only [program, if_pos within, Prod.mk.injEq, Sum.inl.injEq] at accessed
            obtain ⟨rfl, rfl⟩ := accessed
            cases rest with
            | last accessed =>
                simp only [program, value, Prod.mk.injEq, Sum.inr.injEq] at accessed
                obtain ⟨rfl, rfl⟩ := accessed
                refine ⟨rfl, ?_⟩
                rw [Array.getElem?_toList, value]
            | next accessed _ => simp [program, value] at accessed
      · have beyond : vector[index]? = none := Array.getElem?_eq_none (Nat.le_of_not_lt within)
        cases runs with
        | last accessed =>
            simp only [program, if_neg within, Prod.mk.injEq, Sum.inr.injEq] at accessed
            obtain ⟨rfl, rfl⟩ := accessed
            refine ⟨rfl, ?_⟩
            rw [Array.getElem?_toList, beyond]
        | next accessed _ => simp [program, within] at accessed

theorem ends (place : Place V) (vector : MyVector V) :
    ∃ a vector', Finishes (program V) place vector a vector' := by
  have atIndex : ∀ index, ∃ a vector', Finishes (program V) (.atIndex index) vector a vector' := by
    intro index
    cases value : vector[index]? with
    | none => exact ⟨_, _, .last (by simp only [program, value]; rfl)⟩
    | some value' => exact ⟨_, _, .last (by simp only [program, value]; rfl)⟩
  cases place with
  | pushBack value => exact ⟨_, _, .last rfl⟩
  | size => exact ⟨_, _, .last rfl⟩
  | atIndex index => exact atIndex index
  | sizeOfGet index =>
      by_cases within : vector.size > index
      · obtain ⟨a, vector', finishes⟩ := atIndex index
        exact ⟨a, vector', .next (if_pos within) finishes⟩
      · exact ⟨_, _, .last (if_neg within)⟩

/-- **A vector is a log on every server, in every interleaving.** -/
theorem answers_as_indexed_log : Servers.Linearizable T (program V) #[] Spec [] :=
  Servers.linearizable (Q := fun vector log => vector.toList = log) rfl runs_meets ends

end Vector

end Hcl
