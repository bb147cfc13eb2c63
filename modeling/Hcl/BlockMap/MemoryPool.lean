import Mathlib.Logic.Function.Basic
import Mathlib.Data.List.Nodup
import Mathlib.Data.List.Range

/-!
The memory pool of the block map: `memory_allocation.h`.

Nodes are never returned to the system while the pool lives. A node is on the active
queue, on the free queue, or in use by a table. `memory_pool_pop` takes from the active
queue, refills that queue from the free one when it is empty, and allocates a chunk when
both are. Nodes come back with the key and the value they had.

The invariant `MemoryPool.Inv` speaks of the addresses in use as a predicate, so that a
table can use the two rules `memoryPoolPop_spec` and `Inv.push` without looking at the
queues.
-/

namespace Hcl

variable {K V : Type*}

/-- `struct node`. Addresses are numbers, the null pointer is `none`. -/
structure Node (K V : Type*) where
  key : K
  value : V
  next : Option Nat

/-- The pool and the memory it hands out. `mallocNext` is the first address `malloc` has
not handed out yet. -/
structure MemoryPool (K V : Type*) where
  chunkSize : UInt32
  freeNodes : UInt64
  numChunks : UInt64
  memoryChunks : List Nat
  activeQueue : List Nat
  freeQueue : List Nat
  memory : Nat → Node K V
  mallocNext : Nat

namespace MemoryPool

/-! ### Writes to memory -/

/-- `p->next = next`. -/
def setNext (a : Nat) (next : Option Nat) (pl : MemoryPool K V) : MemoryPool K V :=
  { pl with memory := Function.update pl.memory a { pl.memory a with next := next } }

/-- `p->value = value`. -/
def setValue (a : Nat) (value : V) (pl : MemoryPool K V) : MemoryPool K V :=
  { pl with memory := Function.update pl.memory a { pl.memory a with value := value } }

/-- `new (&(p->key)) KeyT(key)`. -/
def setKey (a : Nat) (key : K) (pl : MemoryPool K V) : MemoryPool K V :=
  { pl with memory := Function.update pl.memory a { pl.memory a with key := key } }

section Memory

variable (a c : Nat) (next : Option Nat) (value : V) (key : K) (pl : MemoryPool K V)

@[simp] theorem setNext_key : ((pl.setNext a next).memory c).key = (pl.memory c).key := by
  by_cases here : c = a <;> simp [setNext, here]

@[simp] theorem setNext_value : ((pl.setNext a next).memory c).value = (pl.memory c).value := by
  by_cases here : c = a <;> simp [setNext, here]

theorem setNext_next : (fun c => ((pl.setNext a next).memory c).next) =
    Function.update (fun c => (pl.memory c).next) a next := by
  funext c
  by_cases here : c = a <;> simp [setNext, here]

@[simp] theorem setValue_key : ((pl.setValue a value).memory c).key = (pl.memory c).key := by
  by_cases here : c = a <;> simp [setValue, here]

@[simp] theorem setValue_next : ((pl.setValue a value).memory c).next = (pl.memory c).next := by
  by_cases here : c = a <;> simp [setValue, here]

theorem setValue_value : ((pl.setValue a value).memory c).value =
    if c = a then value else (pl.memory c).value := by
  by_cases here : c = a <;> simp [setValue, here]

theorem setKey_key : ((pl.setKey a key).memory c).key = if c = a then key else (pl.memory c).key := by
  by_cases here : c = a <;> simp [setKey, here]

@[simp] theorem setKey_value : ((pl.setKey a key).memory c).value = (pl.memory c).value := by
  by_cases here : c = a <;> simp [setKey, here]

@[simp] theorem setKey_next : ((pl.setKey a key).memory c).next = (pl.memory c).next := by
  by_cases here : c = a <;> simp [setKey, here]

end Memory

/-! ### The pool -/

/-- One round of the loop that fills a chunk: the node is constructed and queued. -/
def fillNode [Inhabited K] [Inhabited V] (base : Nat) (pl : MemoryPool K V) (i : Nat) :
    MemoryPool K V :=
  { pl with
    memory := Function.update pl.memory (base + i) ⟨default, default, none⟩
    activeQueue := pl.activeQueue ++ [base + i] }

/-- `malloc` of a chunk and the loop over its nodes. -/
def fillChunk [Inhabited K] [Inhabited V] (pl : MemoryPool K V) : MemoryPool K V :=
  let chunk := pl.mallocNext
  let pl := { pl with mallocNext := chunk + pl.chunkSize.toNat }
  let pl := (List.range pl.chunkSize.toNat).foldl (fillNode chunk) pl
  { pl with memoryChunks := pl.memoryChunks ++ [chunk] }

/-- `memory_pool(csize)`: the first chunk. -/
def new [Inhabited K] [Inhabited V] (csize : UInt32) : MemoryPool K V :=
  let pl := fillChunk
    { chunkSize := csize, freeNodes := 0, numChunks := 0, memoryChunks := [], activeQueue := []
      freeQueue := [], memory := fun _ => ⟨default, default, none⟩, mallocNext := 0 }
  { pl with freeNodes := 0, numChunks := 1 }

/-- `while (free_queue->pop(t))`: every free node is unlinked and queued as active. -/
def drainFree : List Nat → MemoryPool K V → MemoryPool K V
  | [], pl => pl
  | t :: rest, pl =>
      let pl := { pl with freeQueue := rest }.setNext t none
      drainFree rest { pl with activeQueue := pl.activeQueue ++ [t] }

/-- The loop of `memory_pool_pop`, for at most `fuel` rounds. -/
def popLoop [Inhabited K] [Inhabited V] : Nat → MemoryPool K V → Option (Nat × MemoryPool K V)
  | 0, _ => none
  | fuel + 1, pl =>
      match pl.activeQueue with
      | n :: rest => some (n, { pl with activeQueue := rest })
      | [] =>
          let pl := { drainFree pl.freeQueue pl with freeNodes := 0 }
          match pl.activeQueue with
          | n :: rest => some (n, { pl with activeQueue := rest })
          | [] =>
              let pl := fillChunk { pl with numChunks := pl.numChunks + 1 }
              let pl := if pl.freeQueue.isEmpty then { pl with freeNodes := 0 } else pl
              popLoop fuel pl

/-- `memory_pool_pop`. A second round finds the new chunk; if the chunk is empty the
loop never ends. -/
def memoryPoolPop [Inhabited K] [Inhabited V] (pl : MemoryPool K V) :
    Option (Nat × MemoryPool K V) :=
  popLoop 2 pl

/-- `memory_pool_push`. -/
def memoryPoolPush (n : Nat) (pl : MemoryPool K V) : MemoryPool K V :=
  { pl with freeQueue := pl.freeQueue ++ [n], freeNodes := pl.freeNodes + 1 }

/-! ### What the loops do -/

section Loops

variable [Inhabited K] [Inhabited V]

theorem foldl_fillNode (base n : Nat) (pl : MemoryPool K V) :
    (List.range n).foldl (fillNode base) pl =
      { pl with
        memory := fun a => if base ≤ a ∧ a < base + n then ⟨default, default, none⟩ else pl.memory a
        activeQueue := pl.activeQueue ++ (List.range n).map (base + ·) } := by
  induction n with
  | zero =>
      have outside : ∀ a, ¬ (base ≤ a ∧ a < base) := fun a h => by omega
      simp only [List.range_zero, List.foldl_nil, List.map_nil, List.append_nil, Nat.add_zero,
        outside, if_false]
  | succ n ih =>
      have last : (fun a => if base ≤ a ∧ a < base + (n + 1) then ⟨default, default, none⟩
            else pl.memory a) =
          Function.update (fun a => if base ≤ a ∧ a < base + n then ⟨default, default, none⟩
            else pl.memory a) (base + n) ⟨default, default, none⟩ := by
        funext a
        by_cases here : a = base + n
        · subst here
          rw [Function.update_self, if_pos ⟨by omega, by omega⟩]
        · rw [Function.update_of_ne here]
          congr 1
          rw [eq_iff_iff]
          omega
      simp only [List.range_succ, List.foldl_append, ih, List.foldl_cons, List.foldl_nil, fillNode,
        List.map_append, List.map_cons, List.map_nil, List.append_assoc, last]

omit [Inhabited K] [Inhabited V] in
theorem drainFree_eq (free : List Nat) (pl : MemoryPool K V) (queued : pl.freeQueue = free) :
    drainFree free pl =
      { pl with
        memory := fun a => if a ∈ free then { pl.memory a with next := none } else pl.memory a
        activeQueue := pl.activeQueue ++ free
        freeQueue := [] } := by
  induction free generalizing pl with
  | nil =>
      obtain ⟨⟩ := pl
      simp_all [drainFree]
  | cons t rest ih =>
      rw [drainFree, ih]
      · have memory : (fun a => if a ∈ rest
              then { (Function.update pl.memory t { pl.memory t with next := none }) a with next := none }
              else (Function.update pl.memory t { pl.memory t with next := none }) a) =
            fun a => if a ∈ t :: rest then { pl.memory a with next := none } else pl.memory a := by
          funext a
          by_cases here : a = t
          · subst here
            simp
          · simp [here]
        simp only [setNext, memory, List.append_assoc, List.cons_append, List.nil_append]
      · rfl

end Loops

/-! ### The rounds of `memory_pool_pop` -/

/-- The pool with its free nodes moved to the active queue. -/
def drained (pl : MemoryPool K V) : MemoryPool K V :=
  { drainFree pl.freeQueue pl with freeNodes := 0 }

/-- The pool with a new chunk. -/
def refilled [Inhabited K] [Inhabited V] (pl : MemoryPool K V) : MemoryPool K V :=
  let pl := fillChunk { pl with numChunks := pl.numChunks + 1 }
  if pl.freeQueue.isEmpty then { pl with freeNodes := 0 } else pl

theorem drained_eq (pl : MemoryPool K V) :
    pl.drained =
      { pl with
        memory := fun a =>
          if a ∈ pl.freeQueue then { pl.memory a with next := none } else pl.memory a
        activeQueue := pl.activeQueue ++ pl.freeQueue
        freeQueue := []
        freeNodes := 0 } := by
  rw [drained, drainFree_eq _ _ rfl]

/-- Adding a chunk is filling it, up to the count of the free nodes. -/
theorem refilled_eq [Inhabited K] [Inhabited V] (pl : MemoryPool K V) :
    ∃ freeNodes, pl.refilled =
      { fillChunk { pl with numChunks := pl.numChunks + 1 } with freeNodes := freeNodes } := by
  simp only [refilled]
  split
  · exact ⟨0, rfl⟩
  · exact ⟨_, rfl⟩

/-- What a round does: take an active node, or take one after draining, or add a chunk. -/
theorem popLoop_succ [Inhabited K] [Inhabited V] (fuel : Nat) (pl : MemoryPool K V) :
    popLoop (fuel + 1) pl =
      match pl.activeQueue with
      | n :: rest => some (n, { pl with activeQueue := rest })
      | [] =>
          match pl.drained.activeQueue with
          | n :: rest => some (n, { pl.drained with activeQueue := rest })
          | [] => popLoop fuel pl.drained.refilled := by
  rw [popLoop]
  rfl

/-! ### The pool and the addresses in use -/

/-- The nodes that wait in the pool. -/
def queued (pl : MemoryPool K V) : List Nat := pl.activeQueue ++ pl.freeQueue

/-- Nothing waits twice, nothing waits that is in use, and everything in use or waiting
has been allocated. -/
structure Inv (pl : MemoryPool K V) (used : Nat → Prop) : Prop where
  chunk : 0 < pl.chunkSize
  nodup : pl.queued.Nodup
  unused : ∀ a ∈ pl.queued, ¬ used a
  queued_lt : ∀ a ∈ pl.queued, a < pl.mallocNext
  used_lt : ∀ a, used a → a < pl.mallocNext

/-- What a caller of `memory_pool_pop` can rely on: the node was not in use, and nothing
in use changed. -/
structure Popped (pl : MemoryPool K V) (used : Nat → Prop) (n : Nat) (pl' : MemoryPool K V) :
    Prop where
  fresh : ¬ used n
  inv : pl'.Inv fun a => used a ∨ a = n
  frame : ∀ a, used a → pl'.memory a = pl.memory a

section Rules

variable {pl : MemoryPool K V} {used : Nat → Prop} {n : Nat} {rest : List Nat}

/-- Only what waits, the allocation bound and the chunk size matter to the invariant. -/
theorem Inv.congr {pl' : MemoryPool K V} (inv : pl.Inv used) (chunk : pl'.chunkSize = pl.chunkSize)
    (queues : pl'.queued = pl.queued) (next : pl'.mallocNext = pl.mallocNext) : pl'.Inv used where
  chunk := chunk ▸ inv.chunk
  nodup := queues ▸ inv.nodup
  unused := queues ▸ inv.unused
  queued_lt := by rw [queues, next]; exact inv.queued_lt
  used_lt := next ▸ inv.used_lt

theorem Inv.congr_used {used' : Nat → Prop} (inv : pl.Inv used) (same : ∀ a, used' a ↔ used a) :
    pl.Inv used' := by
  rwa [funext fun a => propext (same a)]

theorem Inv.setNext (inv : pl.Inv used) (a : Nat) (next : Option Nat) :
    (pl.setNext a next).Inv used := inv.congr rfl rfl rfl

theorem Inv.setValue (inv : pl.Inv used) (a : Nat) (value : V) :
    (pl.setValue a value).Inv used := inv.congr rfl rfl rfl

theorem Inv.setKey (inv : pl.Inv used) (a : Nat) (key : K) :
    (pl.setKey a key).Inv used := inv.congr rfl rfl rfl

/-- Taking the first active node. -/
theorem Inv.take (inv : pl.Inv used) (front : pl.activeQueue = n :: rest) :
    Popped pl used n { pl with activeQueue := rest } := by
  have queues : pl.queued = n :: (rest ++ pl.freeQueue) := by
    rw [queued, front, List.cons_append]
  have nodup := queues ▸ inv.nodup
  have here : n ∈ pl.queued := queues ▸ List.mem_cons_self
  have rest_queued : ∀ a ∈ rest ++ pl.freeQueue, a ∈ pl.queued := fun a ha =>
    queues ▸ List.mem_cons_of_mem _ ha
  refine ⟨inv.unused n here, ?_, fun _ _ => rfl⟩
  refine ⟨inv.chunk, (List.nodup_cons.mp nodup).2, ?_, fun a ha =>
    inv.queued_lt a (rest_queued a ha), ?_⟩
  · rintro a ha (inUse | rfl)
    · exact inv.unused a (rest_queued a ha) inUse
    · exact (List.nodup_cons.mp nodup).1 ha
  · rintro a (inUse | rfl)
    · exact inv.used_lt a inUse
    · exact inv.queued_lt a here

/-- Moving the free nodes to the active queue touches only nodes that wait. -/
theorem Inv.drain (inv : pl.Inv used) :
    pl.drained.Inv used ∧ ∀ a, used a → pl.drained.memory a = pl.memory a := by
  rw [drained_eq]
  constructor
  · exact inv.congr rfl (List.append_nil _) rfl
  · intro a inUse
    refine if_neg fun waits => inv.unused a ?_ inUse
    exact List.mem_append_right _ waits

/-- Returning a node that was in use. -/
theorem Inv.push (inv : pl.Inv used) (inUse : used n) :
    (pl.memoryPoolPush n).Inv fun a => used a ∧ a ≠ n := by
  have queues : (pl.memoryPoolPush n).queued = pl.queued ++ [n] := by
    simp [memoryPoolPush, queued]
  refine ⟨inv.chunk, ?_, ?_, ?_, fun a h => inv.used_lt a h.1⟩
  · rw [queues, List.nodup_append]
    refine ⟨inv.nodup, List.nodup_singleton n, ?_⟩
    intro a waits b new eq
    rw [eq, List.mem_singleton.mp new] at waits
    exact inv.unused n waits inUse
  · intro a ha
    rw [queues, List.mem_append, List.mem_singleton] at ha
    rcases ha with waits | rfl
    · exact fun h => inv.unused a waits h.1
    · exact fun h => h.2 rfl
  · intro a ha
    rw [queues, List.mem_append, List.mem_singleton] at ha
    rcases ha with waits | rfl
    · exact inv.queued_lt a waits
    · exact inv.used_lt a inUse

variable [Inhabited K] [Inhabited V]

theorem fillChunk_eq (pl : MemoryPool K V) :
    fillChunk pl =
      { pl with
        mallocNext := pl.mallocNext + pl.chunkSize.toNat
        memory := fun a =>
          if pl.mallocNext ≤ a ∧ a < pl.mallocNext + pl.chunkSize.toNat
          then ⟨default, default, none⟩ else pl.memory a
        activeQueue := pl.activeQueue ++ (List.range pl.chunkSize.toNat).map (pl.mallocNext + ·)
        memoryChunks := pl.memoryChunks ++ [pl.mallocNext] } := by
  rw [fillChunk, foldl_fillNode]

/-- A new chunk lies above everything allocated before. -/
theorem Inv.fill (inv : pl.Inv used) :
    (fillChunk pl).Inv used ∧ ∀ a, used a → (fillChunk pl).memory a = pl.memory a := by
  rw [fillChunk_eq]
  have above : ∀ a ∈ (List.range pl.chunkSize.toNat).map (pl.mallocNext + ·),
      pl.mallocNext ≤ a ∧ a < pl.mallocNext + pl.chunkSize.toNat := by
    intro a ha
    obtain ⟨i, hi, rfl⟩ := List.mem_map.mp ha
    have := List.mem_range.mp hi
    omega
  have split : ∀ a, a ∈ pl.activeQueue ++ (List.range pl.chunkSize.toNat).map (pl.mallocNext + ·)
      ++ pl.freeQueue → a ∈ pl.queued ∨
        (pl.mallocNext ≤ a ∧ a < pl.mallocNext + pl.chunkSize.toNat) := by
    intro a ha
    simp only [List.mem_append] at ha
    rcases ha with (ha | ha) | ha
    · exact Or.inl (List.mem_append_left _ ha)
    · exact Or.inr (above a ha)
    · exact Or.inl (List.mem_append_right _ ha)
  constructor
  · refine ⟨inv.chunk, ?_, ?_, ?_, ?_⟩
    · show (pl.activeQueue ++ _ ++ pl.freeQueue).Nodup
      have perm : (pl.activeQueue ++ (List.range pl.chunkSize.toNat).map (pl.mallocNext + ·)
          ++ pl.freeQueue).Perm
          (pl.queued ++ (List.range pl.chunkSize.toNat).map (pl.mallocNext + ·)) := by
        rw [queued, List.append_assoc, List.append_assoc]
        exact List.perm_append_comm.append_left _
      rw [perm.nodup_iff, List.nodup_append]
      refine ⟨inv.nodup, List.nodup_range.map fun i j eq => Nat.add_left_cancel eq, ?_⟩
      intro a waits b new eq
      have := inv.queued_lt a waits
      have := (above b new).1
      omega
    · intro a ha inUse
      rcases split a ha with waits | new
      · exact inv.unused a waits inUse
      · have := inv.used_lt a inUse
        omega
    · intro a ha
      show a < pl.mallocNext + pl.chunkSize.toNat
      rcases split a ha with waits | new
      · have := inv.queued_lt a waits
        omega
      · exact new.2
    · intro a inUse
      show a < pl.mallocNext + pl.chunkSize.toNat
      have := inv.used_lt a inUse
      omega
  · intro a inUse
    have := inv.used_lt a inUse
    exact if_neg fun new => by omega

/-- Adding a chunk. -/
theorem Inv.refill (inv : pl.Inv used) :
    pl.refilled.Inv used ∧ ∀ a, used a → pl.refilled.memory a = pl.memory a := by
  have counted : Inv { pl with numChunks := pl.numChunks + 1 } used := inv.congr rfl rfl rfl
  obtain ⟨filled, kept⟩ := counted.fill
  obtain ⟨freeNodes, eq⟩ := refilled_eq pl
  rw [eq]
  exact ⟨filled.congr rfl rfl rfl, kept⟩

theorem popLoop_of_front (fuel : Nat) (front : pl.activeQueue = n :: rest) :
    popLoop (fuel + 1) pl = some (n, { pl with activeQueue := rest }) := by
  simp only [popLoop, front]

/-- A chunk is not empty. -/
theorem refilled_front (chunk : 0 < pl.chunkSize) : ∃ n rest, pl.refilled.activeQueue = n :: rest := by
  have positive : 0 < pl.chunkSize.toNat := UInt32.lt_iff_toNat_lt.mp chunk
  obtain ⟨freeNodes, eq⟩ := refilled_eq pl
  apply List.exists_cons_of_ne_nil
  intro empty
  have length := congrArg List.length empty
  rw [eq, fillChunk_eq] at length
  simp only [List.length_append, List.length_map, List.length_range, List.length_nil] at length
  omega

/-- **`memory_pool_pop` returns a node that was not in use and leaves every node in use
as it was.** -/
theorem memoryPoolPop_spec (inv : pl.Inv used) :
    ∃ n pl', pl.memoryPoolPop = some (n, pl') ∧ Popped pl used n pl' := by
  rw [memoryPoolPop, popLoop_succ]
  obtain ⟨drained, kept⟩ := inv.drain
  split
  · rename_i n rest front
    exact ⟨n, _, rfl, inv.take front⟩
  · split
    · rename_i n rest front
      have popped := drained.take front
      exact ⟨n, _, rfl, popped.fresh, popped.inv, fun a inUse =>
        (popped.frame a inUse).trans (kept a inUse)⟩
    · -- Both queues are empty, so the next round takes the first node of the new chunk.
      obtain ⟨refilled, keptToo⟩ := drained.refill
      obtain ⟨n, rest, front⟩ := refilled_front drained.chunk
      have popped := refilled.take front
      exact ⟨n, _, popLoop_of_front 0 front, popped.fresh, popped.inv, fun a inUse =>
        (popped.frame a inUse).trans ((keptToo a inUse).trans (kept a inUse))⟩

theorem inv_new {csize : UInt32} (chunk : 0 < csize) :
    (new csize : MemoryPool K V).Inv fun _ => False := by
  have empty : Inv { chunkSize := csize, freeNodes := 0, numChunks := 0, memoryChunks := []
                     activeQueue := [], freeQueue := []
                     memory := fun _ => (⟨default, default, none⟩ : Node K V), mallocNext := 0 }
      fun _ => False :=
    ⟨chunk, List.nodup_nil, fun _ ha => (nomatch ha), fun _ ha => (nomatch ha), fun _ ha => ha.elim⟩
  exact empty.fill.1.congr rfl rfl rfl

end Rules

end MemoryPool

end Hcl
