import Hcl.Lib.Partition
import Hcl.BlockMap.Threads

/-!
Where the nodes of the pool are while threads insert and erase.

Every node that was ever allocated is in one place: on the active or the free queue, the
sentinel or in the chain of a bucket, in the hands of a thread, or in a chunk that is still
being queued (`contents`). The steps of `memory_pool_pop` keep it so: each moves at most one
node, or allocates a chunk (`Parted.pop`).
-/

namespace Hcl.BlockMap.Threads

open Hcl.Lib

variable {K V : Type}

/-! ### Where the nodes are -/

/-- The places a node can be in. -/
inductive Place where
  | active
  | free
  | sentinel (pos : UInt64)
  | chain (pos : UInt64)
  /-- In the hands of a thread in mid-operation. -/
  | held (t : Nat)
  /-- In a chunk that a thread is still queueing. -/
  | pending (t : Nat)
deriving DecidableEq

/-- The node a thread holds. -/
def Phase.held : Phase K V → List Nat
  | .insertPop _ _ _ _ (.move t) => [t]
  | .insertLink _ _ _ _ newNode => [newNode]
  | .erasePush _ n => [n]
  | _ => []

/-- The nodes of a new chunk that a thread has not queued yet. -/
def Phase.pending : Phase K V → Nat → List Nat
  | .insertPop _ _ _ _ (.fill chunk i), chunkSize => List.range' (chunk + i) (chunkSize - i)
  | _, _ => []

/-- The nodes in each place. -/
def contents (s : State K V) (body : UInt64 → List Nat) : Place → List Nat
  | .active => s.b.pl.activeQueue
  | .free => s.b.pl.freeQueue
  | .sentinel pos => if pos < s.b.maxSize then [(s.b.table pos).head] else []
  | .chain pos => if pos < s.b.maxSize then body pos else []
  | .held t => (s.threads t).held
  | .pending t => (s.threads t).pending s.b.pl.chunkSize.toNat

/-- The nodes ever allocated are partitioned among the places. -/
def Parted (s : State K V) (body : UInt64 → List Nat) : Prop :=
  Partition (contents s body) (· < s.b.pl.mallocNext)

section Places

variable {s : State K V} {body : UInt64 → List Nat}

/-- A node in use is a sentinel or in a chain. -/
theorem used_place {a : Nat} (used : s.b.Used body a) :
    ∃ pos, a ∈ contents s body (.sentinel pos) ∨ a ∈ contents s body (.chain pos) := by
  obtain ⟨pos, inside, mem⟩ := used
  refine ⟨pos, ?_⟩
  simp only [contents, if_pos inside, List.mem_singleton]
  exact List.mem_cons.mp mem

/-- A node in use is in no place outside the table. -/
theorem Parted.not_used (parts : Parted s body) {place : Place} {a : Nat}
    (mem : a ∈ contents s body place) (notSentinel : ∀ pos, place ≠ .sentinel pos)
    (notChain : ∀ pos, place ≠ .chain pos) : ¬ s.b.Used body a := by
  intro used
  obtain ⟨pos, here | here⟩ := used_place used
  · exact notSentinel pos (parts.apart _ _ a mem here)
  · exact notChain pos (parts.apart _ _ a mem here)

/-- The pool hands out no node of the table. -/
theorem Parted.pool (parts : Parted s body) (chunk : 0 < s.b.pl.chunkSize) :
    s.b.pl.Inv (s.b.Used body) := by
  have queued : ∀ a ∈ s.b.pl.queued, a ∈ contents s body .active ∨ a ∈ contents s body .free :=
    fun a ha => List.mem_append.mp ha
  refine ⟨chunk, ?_, ?_, ?_, ?_⟩
  · refine List.nodup_append.mpr ⟨parts.nodup .active, parts.nodup .free, ?_⟩
    intro a ha c hc eq
    subst eq
    cases parts.apart .active .free a ha hc
  · intro a ha
    rcases queued a ha with here | here
    · exact parts.not_used here (by simp) (by simp)
    · exact parts.not_used here (by simp) (by simp)
  · intro a ha
    rcases queued a ha with here | here
    · exact (parts.covers a).mpr ⟨_, here⟩
    · exact (parts.covers a).mpr ⟨_, here⟩
  · intro a used
    obtain ⟨pos, here | here⟩ := used_place used
    · exact (parts.covers a).mpr ⟨_, here⟩
    · exact (parts.covers a).mpr ⟨_, here⟩

/-- A node that a thread holds could have been popped this moment. -/
theorem Parted.popped (parts : Parted s body) (chunk : 0 < s.b.pl.chunkSize) {t n : Nat}
    (mine : n ∈ (s.threads t).held) : s.b.pl.Popped (s.b.Used body) n s.b.pl := by
  have here : n ∈ contents s body (.held t) := mine
  have pool := parts.pool chunk
  refine ⟨parts.not_used here (by simp) (by simp), ?_, fun _ _ => rfl⟩
  refine ⟨chunk, pool.nodup, ?_, pool.queued_lt, ?_⟩
  · rintro a ha (used | rfl)
    · exact pool.unused a ha used
    · rcases List.mem_append.mp ha with queued | queued
      · cases parts.apart .active (.held t) a queued here
      · cases parts.apart .free (.held t) a queued here
  · rintro a (used | rfl)
    · exact pool.used_lt a used
    · exact (parts.covers a).mpr ⟨_, here⟩

end Places

/-! ### The steps on the queues -/

section Moves

variable {s : State K V} {body : UInt64 → List Nat} {t : Nat} {k : K} {v : V} {p : Nat}
  {n : Option Nat}

/-- A place stays as it is, unless the step of the thread is about it. -/
theorem contents_goTo {b' : BlockMap K V} {phase : Phase K V} {body' : UInt64 → List Nat} {l : Place}
    (size : b'.maxSize = s.b.maxSize) (heads : ∀ q, (b'.table q).head = (s.b.table q).head)
    (chunk : b'.pl.chunkSize = s.b.pl.chunkSize)
    (active : l = .active → b'.pl.activeQueue = s.b.pl.activeQueue)
    (free : l = .free → b'.pl.freeQueue = s.b.pl.freeQueue)
    (held : l = .held t → phase.held = (s.threads t).held)
    (pending : l = .pending t → phase.pending s.b.pl.chunkSize.toNat =
      (s.threads t).pending s.b.pl.chunkSize.toNat)
    (chain : ∀ pos, l = .chain pos → body' pos = body pos) :
    contents (s.goTo t b' phase) body' l = contents s body l := by
  cases l with
  | active => exact active rfl
  | free => exact free rfl
  | sentinel pos => simp only [contents, State.goTo, size, heads]
  | chain pos => simp only [contents, State.goTo, size, chain pos rfl]
  | held u =>
      by_cases eq : u = t
      · subst eq
        simp only [contents, State.goTo, Function.update_self, held rfl]
      · simp only [contents, State.goTo, Function.update_of_ne eq]
  | pending u =>
      by_cases eq : u = t
      · subst eq
        simp only [contents, State.goTo, Function.update_self, chunk, pending rfl]
      · simp only [contents, State.goTo, Function.update_of_ne eq, chunk]

/-- The nodes stay where they are. -/
theorem Parted.keep (parts : Parted s body) {b' : BlockMap K V} {phase : Phase K V}
    (size : b'.maxSize = s.b.maxSize) (heads : ∀ q, (b'.table q).head = (s.b.table q).head)
    (chunk : b'.pl.chunkSize = s.b.pl.chunkSize) (malloc : b'.pl.mallocNext = s.b.pl.mallocNext)
    (active : b'.pl.activeQueue = s.b.pl.activeQueue) (free : b'.pl.freeQueue = s.b.pl.freeQueue)
    (held : phase.held = (s.threads t).held)
    (pending : phase.pending s.b.pl.chunkSize.toNat = (s.threads t).pending s.b.pl.chunkSize.toNat) :
    Parted (s.goTo t b' phase) body := by
  have same : contents (s.goTo t b' phase) body = contents s body := funext fun l =>
    contents_goTo size heads chunk (fun _ => active) (fun _ => free) (fun _ => held)
      (fun _ => pending) fun _ _ => rfl
  unfold Parted
  rw [same]
  show Partition (contents s body) (· < b'.pl.mallocNext)
  rw [malloc]
  exact parts

/-- The first active node goes to the thread. -/
theorem Parted.takeActive (parts : Parted s body) {phase : Phase K V} {a : Nat} {rest : List Nat}
    (front : s.b.pl.activeQueue = a :: rest) (empty : (s.threads t).held = [])
    (held : phase.held = [a])
    (pending : phase.pending s.b.pl.chunkSize.toNat = (s.threads t).pending s.b.pl.chunkSize.toNat) :
    Parted (s.goTo t { s.b with pl := { s.b.pl with activeQueue := rest } } phase) body := by
  refine Partition.move (i := .active) (j := .held t) (a := a) parts (by simp) ?_ ?_ ?_
  · simp only [contents, front, State.goTo]
    exact List.Perm.refl _
  · simp only [contents, State.goTo, Function.update_self, held, empty]
    exact List.Perm.refl _
  · intro l notActive notHeld
    exact contents_goTo rfl (fun _ => rfl) rfl (fun eq => absurd eq notActive) (fun _ => rfl)
      (fun eq => absurd eq notHeld) (fun _ => pending) fun _ _ => rfl

variable [Inhabited K] [Inhabited V]

/-- One step of `memory_pool_pop` moves at most one node, or allocates a chunk. -/
theorem Parted.pop (parts : Parted s body) {point : MemoryPool.Pop}
    (here : s.threads t = .insertPop k v p n point) :
    Parted (s.goTo t { s.b with pl := (s.b.pl.popStep point).1 }
      (.popped k v p n (s.b.pl.popStep point).2)) body := by
  cases point with
  | take =>
      cases queue : s.b.pl.activeQueue with
      | cons a rest =>
          simp only [MemoryPool.popStep, queue]
          exact parts.takeActive queue (by rw [here]; rfl) rfl (by rw [here]; rfl)
      | nil =>
          simp only [MemoryPool.popStep, queue]
          exact parts.keep rfl (fun _ => rfl) rfl rfl rfl rfl (by rw [here]; rfl) (by rw [here]; rfl)
  | drain =>
      cases queue : s.b.pl.freeQueue with
      | cons a rest =>
          simp only [MemoryPool.popStep, queue]
          refine Partition.move (i := .free) (j := .held t) (a := a) parts (by simp) ?_ ?_ ?_
          · simp only [contents, queue, State.goTo, MemoryPool.setNext]
            exact List.Perm.refl _
          · simp only [contents, State.goTo, Function.update_self, here]
            exact List.Perm.refl _
          · intro l notFree notHeld
            exact contents_goTo rfl (fun _ => rfl) rfl (fun _ => rfl) (fun eq => absurd eq notFree)
              (fun eq => absurd eq notHeld) (fun _ => by rw [here]; rfl) fun _ _ => rfl
      | nil =>
          simp only [MemoryPool.popStep, queue]
          exact parts.keep rfl (fun _ => rfl) rfl rfl rfl rfl (by rw [here]; rfl) (by rw [here]; rfl)
  | move a =>
      refine Partition.move (i := .held t) (j := .active) (a := a) parts (by simp) ?_ ?_ ?_
      · simp only [contents, State.goTo, Function.update_self, here]
        exact List.Perm.refl _
      · exact List.perm_append_singleton a s.b.pl.activeQueue
      · intro l notHeld notActive
        exact contents_goTo rfl (fun _ => rfl) rfl (fun eq => absurd eq notActive) (fun _ => rfl)
          (fun eq => absurd eq notHeld) (fun _ => by rw [here]; rfl) fun _ _ => rfl
  | reset =>
      exact parts.keep rfl (fun _ => rfl) rfl rfl rfl rfl (by rw [here]; rfl) (by rw [here]; rfl)
  | retry =>
      cases queue : s.b.pl.activeQueue with
      | cons a rest =>
          simp only [MemoryPool.popStep, queue]
          exact parts.takeActive queue (by rw [here]; rfl) rfl (by rw [here]; rfl)
      | nil =>
          simp only [MemoryPool.popStep, queue]
          exact parts.keep rfl (fun _ => rfl) rfl rfl rfl rfl (by rw [here]; rfl) (by rw [here]; rfl)
  | allocate =>
      -- The new chunk lies above everything allocated before, and is the thread's to queue.
      have chunk : contents (s.goTo t { s.b with pl := (s.b.pl.popStep .allocate).1 }
          (.popped k v p n (s.b.pl.popStep .allocate).2)) body (.pending t) =
          List.range' s.b.pl.mallocNext s.b.pl.chunkSize.toNat := by
        simp only [contents, State.goTo, Function.update_self]
        rfl
      refine Partition.arrive (i := .pending t) parts ?_ ?_ ?_ ?_ ?_
      · intro a new
        rw [chunk, List.mem_range'_1] at new
        omega
      · rw [chunk]
        exact List.nodup_range'
      · simp only [contents, here]
        rfl
      · intro l notPending
        exact contents_goTo rfl (fun _ => rfl) rfl (fun _ => rfl) (fun _ => rfl)
          (fun _ => by rw [here]; rfl) (fun eq => absurd eq notPending) fun _ _ => rfl
      · intro a
        rw [chunk, List.mem_range'_1]
        show a < s.b.pl.mallocNext + s.b.pl.chunkSize.toNat ↔ _
        omega
  | fill chunk i =>
      by_cases unfilled : i < s.b.pl.chunkSize.toNat
      · simp only [MemoryPool.popStep, if_pos unfilled]
        refine Partition.move (i := .pending t) (j := .active) (a := chunk + i) parts (by simp) ?_ ?_ ?_
        · obtain ⟨left, eq⟩ : ∃ left, s.b.pl.chunkSize.toNat - i = left + 1 :=
            ⟨s.b.pl.chunkSize.toNat - i - 1, by omega⟩
          have fewer : s.b.pl.chunkSize.toNat - (i + 1) = left := by omega
          simp only [contents, State.goTo, Function.update_self, here, Phase.pending, Phase.popped,
            MemoryPool.fillNode, eq, fewer, List.range'_succ]
          exact List.Perm.refl _
        · exact List.perm_append_singleton (chunk + i) s.b.pl.activeQueue
        · intro l notPending notActive
          exact contents_goTo rfl (fun _ => rfl) rfl (fun eq => absurd eq notActive) (fun _ => rfl)
            (fun _ => by rw [here]; rfl) (fun eq => absurd eq notPending) fun _ _ => rfl
      · simp only [MemoryPool.popStep, if_neg unfilled]
        have full : (s.threads t).pending s.b.pl.chunkSize.toNat = [] := by
          rw [here, Phase.pending, Nat.sub_eq_zero_of_le (Nat.le_of_not_lt unfilled), List.range'_zero]
        exact parts.keep rfl (fun _ => rfl) rfl rfl rfl rfl (by rw [here]; rfl) (by rw [full]; rfl)
  | check =>
      simp only [MemoryPool.popStep]
      split
      · exact parts.keep rfl (fun _ => rfl) rfl rfl rfl rfl (by rw [here]; rfl) (by rw [here]; rfl)
      · exact parts.keep rfl (fun _ => rfl) rfl rfl rfl rfl (by rw [here]; rfl) (by rw [here]; rfl)

end Moves

end Hcl.BlockMap.Threads
