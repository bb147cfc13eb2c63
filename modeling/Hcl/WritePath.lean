import Mathlib.Logic.Function.Basic
import Hcl.Map
import Hcl.Multimap
import Hcl.Set
import Hcl.Queues

/-!
The two paths of a write, compared over whole programs.

A program keeps values in variables and passes them, by reference, to a list of writes.
On the direct path `GetData` moves out of the caller's variable; on the RPC path it
moves out of the handler's copy. `run` executes the program with the paths the calling
objects choose and `run … (calls.map Call.byRpc)` with every call sent by RPC. The two
leave the same contents and the same variables exactly when no direct call is given a
variable whose value a move changes (`run_eq_byRpc_iff`).
-/

namespace Hcl.WritePath

variable {A V S : Type*}

/-- A write operation: the object it is called on, its other arguments, the value of the
variable it is given, the segments; it answers the segments, a flag, and the value left
in the variable. -/
abbrev Write (A V S : Type*) :=
  Container → A → V → (UInt16 → S) → (UInt16 → S) × (Bool × V)

/-- One call: the variable is named, so that calls can share it. -/
structure Call (A : Type*) where
  caller : Container
  arg : A
  var : Nat

/-- The same call sent by RPC, whatever its object would choose. -/
def Call.byRpc (call : Call A) : Call A :=
  { call with caller := { call.caller with serverOnNode := false } }

/-- The segments of the servers and the variables of the callers. -/
structure State (V S : Type*) where
  segments : UInt16 → S
  vars : Nat → V

/-- One call of a program. -/
def writeStep (write : Write A V S) (s : State V S) (call : Call A) : State V S :=
  let out := write call.caller call.arg (s.vars call.var) s.segments
  ⟨out.1, Function.update s.vars call.var out.2.2⟩

/-- A program: its calls in order. -/
def run (write : Write A V S) (s : State V S) (calls : List (Call A)) : State V S :=
  calls.foldl (writeStep write) s

/-- What the writes of all containers have in common: a `Local*` body that moves out of
its reference, behind a choice of path by `is_local` on a server index. -/
structure Routed [MoveOut V] (write : Write A V S) (server : UInt16 → A → V → UInt16) : Prop where
  routed : ∃ body : A → V → S → S × (Bool × V),
    (∀ a v s, (body a v s).2.2 = MoveOut.residue v) ∧
    ∀ c a v segments,
      write c a v segments = dispatchWrite c (server c.numServers a v) (body a) v segments

/-- The call takes the direct path when its variable holds `v`. -/
def Call.Direct (server : UInt16 → A → V → UInt16) (call : Call A) (v : V) : Prop :=
  call.caller.isLocal (server call.caller.numServers call.arg v) = true

section Paths

variable [MoveOut V] {write : Write A V S} {server : UInt16 → A → V → UInt16}

/-- What one call leaves in its variable. -/
theorem Routed.left (R : Routed write server) (s : State V S) (call : Call A) :
    (call.Direct server (s.vars call.var) →
      (writeStep write s call).vars =
        Function.update s.vars call.var (MoveOut.residue (s.vars call.var))) ∧
    (¬ call.Direct server (s.vars call.var) → (writeStep write s call).vars = s.vars) := by
  obtain ⟨body, moved, eq⟩ := R.routed
  unfold Call.Direct
  constructor
  · intro direct
    simp only [writeStep, eq, dispatchWrite, direct, if_true, onServer, moved]
  · intro remote
    simp only [writeStep, eq, dispatchWrite, remote, Bool.false_eq_true, if_false,
      Function.update_eq_self]

/-- The segments do not depend on the path. -/
theorem Routed.segments_byRpc (R : Routed write server) (s : State V S) (call : Call A) :
    (writeStep write s call.byRpc).segments = (writeStep write s call).segments := by
  obtain ⟨body, -, eq⟩ := R.routed
  simp only [writeStep, eq, Call.byRpc, (dispatchWrite_eq _ _ _ _ _).1]

omit [MoveOut V] in
theorem not_direct_byRpc (call : Call A) (v : V) : ¬ call.byRpc.Direct server v := by
  simp [Call.Direct, Call.byRpc, Container.isLocal]

theorem Routed.vars_byRpc (R : Routed write server) (s : State V S) (call : Call A) :
    (writeStep write s call.byRpc).vars = s.vars :=
  (R.left s call.byRpc).2 (not_direct_byRpc call _)

/-- By RPC a program leaves its variables alone. -/
theorem Routed.run_byRpc_vars (R : Routed write server) (s : State V S) (calls : List (Call A)) :
    (run write s (calls.map Call.byRpc)).vars = s.vars := by
  induction calls generalizing s with
  | nil => rfl
  | cons call calls ih =>
      show (run write (writeStep write s call.byRpc) (calls.map Call.byRpc)).vars = s.vars
      rw [ih, R.vars_byRpc]

/-- A call that is sent by RPC, or whose variable survives a move, does the same on
both paths. -/
theorem Routed.step_eq_byRpc (R : Routed write server) {s : State V S} {call : Call A}
    (survives : call.Direct server (s.vars call.var) →
      MoveOut.residue (s.vars call.var) = s.vars call.var) :
    writeStep write s call = writeStep write s call.byRpc := by
  have vars : (writeStep write s call).vars = (writeStep write s call.byRpc).vars := by
    rw [R.vars_byRpc]
    by_cases direct : call.Direct server (s.vars call.var)
    · rw [(R.left s call).1 direct, survives direct, Function.update_eq_self]
    · exact (R.left s call).2 direct
  calc writeStep write s call
      = ⟨(writeStep write s call).segments, (writeStep write s call).vars⟩ := rfl
    _ = writeStep write s call.byRpc := by rw [vars, ← R.segments_byRpc]

/-- Once a variable holds something other than `v` because it was moved out of, it never
holds `v` again. -/
theorem Routed.moved_stays (R : Routed write server) {s : State V S} {x : Nat} {v : V}
    (moved : s.vars x ≠ v) (emptied : MoveOut.residue (s.vars x) = s.vars x)
    (calls : List (Call A)) : (run write s calls).vars x ≠ v := by
  induction calls generalizing s with
  | nil => exact moved
  | cons call calls ih =>
      have kept : (writeStep write s call).vars x = s.vars x := by
        by_cases direct : call.Direct server (s.vars call.var)
        · rw [(R.left s call).1 direct]
          by_cases here : x = call.var
          · subst here
            rw [Function.update_self, emptied]
          · rw [Function.update_of_ne here]
        · rw [(R.left s call).2 direct]
      refine ih ?_ ?_
      · rwa [kept]
      · rw [kept, emptied]

/-- A program does the same on the paths its objects choose as by RPC exactly when no
direct call is given a variable whose value a move changes. -/
theorem Routed.run_eq_byRpc_iff (R : Routed write server) (s : State V S) (calls : List (Call A)) :
    run write s calls = run write s (calls.map Call.byRpc) ↔
      ∀ call ∈ calls, call.Direct server (s.vars call.var) →
        MoveOut.residue (s.vars call.var) = s.vars call.var := by
  induction calls generalizing s with
  | nil => simp [run]
  | cons call calls ih =>
      show run write (writeStep write s call) calls =
        run write (writeStep write s call.byRpc) (calls.map Call.byRpc) ↔ _
      by_cases survives : call.Direct server (s.vars call.var) →
          MoveOut.residue (s.vars call.var) = s.vars call.var
      · rw [R.step_eq_byRpc survives, ih, R.vars_byRpc, List.forall_mem_cons]
        exact (and_iff_right survives).symm
      · -- The variable is emptied here and stays so; by RPC it keeps its value.
        obtain ⟨direct, changed⟩ := Classical.not_imp.mp survives
        have now : (writeStep write s call).vars call.var = MoveOut.residue (s.vars call.var) := by
          rw [(R.left s call).1 direct, Function.update_self]
        constructor
        · intro same
          have last : (run write (writeStep write s call) calls).vars call.var =
              s.vars call.var := by
            rw [same, R.run_byRpc_vars, R.vars_byRpc]
          refine absurd last (R.moved_stays ?_ ?_ calls)
          · rwa [now]
          · rw [now, MoveOut.residue_residue]
        · exact fun all => absurd (all call List.mem_cons_self) survives

end Paths

/-! ### The six containers -/

section Containers

variable {K : Type*}

/-- The server `map` and `multimap` put a key on. -/
def keyServer (keyHash : K → UInt64) (numServers : UInt16) (key : K) (_ : V) : UInt16 :=
  hashServer (keyHash key) numServers

/-- `Set.put` in the shape of a `Write`: the key is the variable. -/
def setPut [LinearOrder K] [MoveOut K] (keyHash : K → UInt64) : Write Unit K (Set.MySet K) :=
  fun c _ key segments => Set.put keyHash c key segments

/-- The server `set` puts a key on. The key is the variable, so a moved-out key goes
elsewhere. -/
def setServer (keyHash : K → UInt64) (numServers : UInt16) (_ : Unit) (key : K) : UInt16 :=
  hashServer (keyHash key) numServers

/-- The server `queue`, `priority_queue` and `vector` push to: the one the caller names. -/
def namedServer (_ : UInt16) (keyInt : UInt16) (_ : V) : UInt16 := keyInt

theorem map_routed [LinearOrder K] [Inhabited V] [MoveOut V] (keyHash : K → UInt64) :
    Routed (Map.put (V := V) keyHash) (keyServer keyHash) :=
  ⟨Map.localPut, fun _ _ _ => rfl, fun _ _ _ _ => rfl⟩

theorem multimap_routed [LinearOrder K] [Inhabited V] [MoveOut V] (keyHash : K → UInt64) :
    Routed (Multimap.put (V := V) keyHash) (keyServer keyHash) :=
  ⟨Multimap.localPut, fun _ _ _ => rfl, fun _ _ _ _ => rfl⟩

theorem set_routed [LinearOrder K] [MoveOut K] (keyHash : K → UInt64) :
    Routed (setPut keyHash) (setServer keyHash) :=
  ⟨fun _ => Set.localPut, fun _ _ _ => rfl, fun _ _ _ _ => rfl⟩

theorem queue_routed [MoveOut V] : Routed (Queue.push (V := V)) namedServer :=
  ⟨fun _ => Queue.localPush, fun _ _ _ => rfl, fun _ _ _ _ => rfl⟩

theorem priorityQueue_routed [LinearOrder V] [MoveOut V] :
    Routed (PriorityQueue.push (V := V)) namedServer :=
  ⟨fun _ => PriorityQueue.localPush, fun _ _ _ => rfl, fun _ _ _ _ => rfl⟩

theorem vector_routed [MoveOut V] : Routed (Vector.push (V := V)) namedServer :=
  ⟨fun _ => Vector.localPush, fun _ _ _ => rfl, fun _ _ _ _ => rfl⟩

/-- The paths are interchangeable for a program: it ends with the contents and the
variables it would end with had every call gone by RPC. -/
def Interchangeable (write : Write A V S) (s : State V S) (calls : List (Call A)) : Prop :=
  run write s calls = run write s (calls.map Call.byRpc)

/-- Every call of the program that takes the direct path at the values its variables
start with is given a variable that survives being moved out of. -/
def DirectSurvive [MoveOut V] (server : UInt16 → A → V → UInt16) (vars : Nat → V)
    (calls : List (Call A)) : Prop :=
  ∀ call ∈ calls, call.Direct server (vars call.var) →
    MoveOut.residue (vars call.var) = vars call.var

/-- **For each of the six containers, the direct path and the RPC path of a write are
interchangeable exactly for the programs in which no direct call is given a variable
whose value a move changes.** Only the values of a priority queue need an order. -/
theorem interchangeable_iff {W : Type*} [LinearOrder K] [MoveOut K] [Inhabited V] [MoveOut V]
    [LinearOrder W] [MoveOut W] (keyHash : K → UInt64) :
    (∀ s calls, Interchangeable (Map.put (V := V) keyHash) s calls ↔
      DirectSurvive (keyServer keyHash) s.vars calls) ∧
    (∀ s calls, Interchangeable (Multimap.put (V := V) keyHash) s calls ↔
      DirectSurvive (keyServer keyHash) s.vars calls) ∧
    (∀ s calls, Interchangeable (setPut keyHash) s calls ↔
      DirectSurvive (setServer keyHash) s.vars calls) ∧
    (∀ s calls, Interchangeable (Queue.push (V := V)) s calls ↔
      DirectSurvive namedServer s.vars calls) ∧
    (∀ s calls, Interchangeable (PriorityQueue.push (V := W)) s calls ↔
      DirectSurvive namedServer s.vars calls) ∧
    (∀ s calls, Interchangeable (Vector.push (V := V)) s calls ↔
      DirectSurvive namedServer s.vars calls) :=
  ⟨(map_routed keyHash).run_eq_byRpc_iff, (multimap_routed keyHash).run_eq_byRpc_iff,
    (set_routed keyHash).run_eq_byRpc_iff, queue_routed.run_eq_byRpc_iff,
    priorityQueue_routed.run_eq_byRpc_iff, vector_routed.run_eq_byRpc_iff⟩

end Containers

/-- A client on the node of server 0 pushes one string variable twice. -/
def pushTwice : List (Call UInt16) :=
  let client : Container := ⟨1, 0, false, true⟩
  [⟨client, 0, 0⟩, ⟨client, 0, 0⟩]

/-- The second push finds the variable empty, by RPC it finds the string again. -/
theorem queue_push_twice_not_interchangeable :
    ¬ Interchangeable (Queue.push (V := String)) ⟨fun _ => [], fun _ => "abc"⟩ pushTwice := by
  intro same
  have contents := congrArg (fun s => s.segments 0) same
  revert contents
  decide

end Hcl.WritePath
