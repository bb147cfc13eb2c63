import Hcl.BlockMap.Refinement

/-!
`insert` and `erase` of the block map, by any number of threads.

A thread takes one step for every operation on a queue of the pool, for every atomic
counter, and for taking and leaving the mutex of a bucket. What it does to the bucket it has
locked is one step too. `MemoryPool.popStep` are the steps of `memory_pool_pop`; run alone
they do what `memoryPoolPop` does (`Ends.of_popLoop`) and always end (`ends`). A thread that
is alone does in its steps what `BlockMap.insert` and `BlockMap.erase` do in one
(`insert_alone`, `erase_alone`).
-/

namespace Hcl

variable {K V : Type}

namespace MemoryPool

/-! ### The steps of `memory_pool_pop` -/

/-- Where a thread is in `memory_pool_pop`. -/
inductive Pop where
  /-- `while (!active_queue->pop(n))`. -/
  | take
  /-- `while (free_queue->pop(t))`. -/
  | drain
  /-- `active_queue->push(t)`. -/
  | move (t : Nat)
  /-- `free_nodes.store(0)`. -/
  | reset
  /-- `if (active_queue->pop(n)) break`. -/
  | retry
  /-- `malloc` and `num_chunks.fetch_add(1)`. -/
  | allocate
  /-- The loop over the nodes of a new chunk, then `memory_chunks->push(chunk)`. -/
  | fill (chunk i : Nat)
  /-- `if (free_queue->empty()) free_nodes.store(0)`. -/
  | check
deriving DecidableEq

section Steps

variable [Inhabited K] [Inhabited V]

/-- One step of `memory_pool_pop`: it goes on, or it returns a node. -/
def popStep (pl : MemoryPool K V) : Pop → MemoryPool K V × (Pop ⊕ Nat)
  | .take =>
      match pl.activeQueue with
      | n :: rest => ({ pl with activeQueue := rest }, .inr n)
      | [] => (pl, .inl .drain)
  | .drain =>
      match pl.freeQueue with
      | t :: rest => ({ pl with freeQueue := rest }.setNext t none, .inl (.move t))
      | [] => (pl, .inl .reset)
  | .move t => ({ pl with activeQueue := pl.activeQueue ++ [t] }, .inl .drain)
  | .reset => ({ pl with freeNodes := 0 }, .inl .retry)
  | .retry =>
      match pl.activeQueue with
      | n :: rest => ({ pl with activeQueue := rest }, .inr n)
      | [] => (pl, .inl .allocate)
  | .allocate =>
      ({ pl with mallocNext := pl.mallocNext + pl.chunkSize.toNat, numChunks := pl.numChunks + 1 },
        .inl (.fill pl.mallocNext 0))
  | .fill chunk i =>
      if i < pl.chunkSize.toNat then (fillNode chunk pl i, .inl (.fill chunk (i + 1)))
      else ({ pl with memoryChunks := pl.memoryChunks ++ [chunk] }, .inl .check)
  | .check => (if pl.freeQueue.isEmpty then { pl with freeNodes := 0 } else pl, .inl .take)

/-- The chunks are counted, modulo 2^64, and their nodes are all there is. -/
def Chunks (pl : MemoryPool K V) : Prop :=
  ∃ c, pl.mallocNext = pl.chunkSize.toNat * c ∧ pl.numChunks = UInt64.ofNat c

section Facts

variable (pl : MemoryPool K V) (point : Pop)

@[simp] theorem popStep_chunkSize : (pl.popStep point).1.chunkSize = pl.chunkSize := by
  cases point <;> simp only [popStep] <;> split <;> rfl

/-- A step writes to a node it has just taken from the free queue, or to one of a chunk that
is not queued yet. -/
theorem popStep_kept {a : Nat} (notFree : a ∉ pl.freeQueue)
    (notPending : ∀ chunk i, point = .fill chunk i → i < pl.chunkSize.toNat → a ≠ chunk + i) :
    (pl.popStep point).1.memory a = pl.memory a := by
  cases point with
  | drain =>
      cases queue : pl.freeQueue with
      | nil => simp only [popStep, queue]
      | cons t rest =>
          have other : a ≠ t := fun eq => notFree (by rw [queue, eq]; exact List.mem_cons_self)
          simp only [popStep, queue, setNext, Function.update_of_ne other]
  | fill chunk i =>
      by_cases unfilled : i < pl.chunkSize.toNat
      · simp only [popStep, if_pos unfilled, fillNode,
          Function.update_of_ne (notPending chunk i rfl unfilled)]
      · simp only [popStep, if_neg unfilled]
  | take => simp only [popStep]; split <;> rfl
  | retry => simp only [popStep]; split <;> rfl
  | check => simp only [popStep]; split <;> rfl
  | move t => rfl
  | reset => rfl
  | allocate => rfl

theorem popStep_allocated (other : point ≠ .allocate) :
    (pl.popStep point).1.mallocNext = pl.mallocNext ∧ (pl.popStep point).1.numChunks = pl.numChunks := by
  cases point <;> simp only [popStep, and_self] <;> first | split <;> exact ⟨rfl, rfl⟩ | exact absurd rfl other

omit [Inhabited K] [Inhabited V] in
theorem Chunks.congr {pl pl' : MemoryPool K V} (chunks : pl.Chunks)
    (size : pl'.chunkSize = pl.chunkSize) (same : pl'.mallocNext = pl.mallocNext)
    (counted : pl'.numChunks = pl.numChunks) : pl'.Chunks := by
  unfold Chunks
  rw [size, same, counted]
  exact chunks

omit [Inhabited K] [Inhabited V] in
/-- One more chunk. -/
theorem Chunks.more {pl pl' : MemoryPool K V} (chunks : pl.Chunks)
    (size : pl'.chunkSize = pl.chunkSize)
    (grown : pl'.mallocNext = pl.mallocNext + pl.chunkSize.toNat)
    (counted : pl'.numChunks = pl.numChunks + 1) : pl'.Chunks := by
  obtain ⟨c, all, number⟩ := chunks
  refine ⟨c + 1, ?_, ?_⟩
  · rw [grown, size, all, Nat.mul_succ]
  · rw [counted, number, UInt64.ofNat_add]
    rfl

theorem Chunks.popStep {pl : MemoryPool K V} (chunks : pl.Chunks) : (pl.popStep point).1.Chunks := by
  by_cases new : point = .allocate
  · subst new
    exact chunks.more rfl rfl rfl
  · obtain ⟨c, all, number⟩ := chunks
    obtain ⟨sameNodes, sameChunks⟩ := popStep_allocated pl point new
    exact ⟨c, by rw [sameNodes, popStep_chunkSize, all], by rw [sameChunks, number]⟩

end Facts

/-- `memory_pool_pop` from one of its points on, with nobody else at work, for at most
`fuel` steps. -/
def popAlone : Nat → Pop → MemoryPool K V → Option (Nat × MemoryPool K V)
  | 0, _, _ => none
  | fuel + 1, point, pl =>
      match pl.popStep point with
      | (pl, .inl point) => popAlone fuel point pl
      | (pl, .inr n) => some (n, pl)

/-- From this point on `memory_pool_pop`, run alone, returns the node and leaves the pool. -/
def Ends (point : Pop) (pl : MemoryPool K V) (out : Nat × MemoryPool K V) : Prop :=
  ∃ fuel, popAlone fuel point pl = some out

variable {pl pl' : MemoryPool K V} {point point' : Pop} {out : Nat × MemoryPool K V}

theorem Ends.of_step (taken : pl.popStep point = (pl', .inl point')) (rest : Ends point' pl' out) :
    Ends point pl out := by
  obtain ⟨fuel, ran⟩ := rest
  exact ⟨fuel + 1, by simp only [popAlone, taken, ran]⟩

theorem Ends.of_return {n : Nat} (taken : pl.popStep point = (pl', .inr n)) :
    Ends point pl (n, pl') :=
  ⟨1, by simp only [popAlone, taken]⟩

/-! ### Run alone -/

/-- The loop over the free queue empties it. -/
theorem Ends.drain {free : List Nat} (queued : pl.freeQueue = free)
    (rest : Ends .reset (drainFree free pl) out) : Ends .drain pl out := by
  induction free generalizing pl with
  | nil =>
      have last : pl.popStep .drain = (pl, .inl .reset) := by simp only [popStep, queued]
      exact .of_step last rest
  | cons t free ih =>
      have unlinked : pl.popStep .drain =
          ({ pl with freeQueue := free }.setNext t none, .inl (.move t)) := by
        simp only [popStep, queued]
      have moved : Ends .drain { { pl with freeQueue := free }.setNext t none with
          activeQueue := pl.activeQueue ++ [t] } out := ih rfl rest
      exact .of_step unlinked (.of_step rfl moved)

/-- The loop over a new chunk queues the nodes it has not queued yet. -/
theorem Ends.fill {chunk i k : Nat} (left : i + k = pl.chunkSize.toNat)
    (rest : ∀ pl', pl' = (List.range' i k).foldl (fillNode chunk) pl →
      Ends .check { pl' with memoryChunks := pl'.memoryChunks ++ [chunk] } out) :
    Ends (.fill chunk i) pl out := by
  induction k generalizing pl i with
  | zero =>
      have full : ¬ i < pl.chunkSize.toNat := by omega
      apply Ends.of_step _ (rest pl rfl)
      simp only [popStep, if_neg full]
  | succ k ih =>
      have unfilled : i < pl.chunkSize.toNat := by omega
      have filled : Ends (.fill chunk (i + 1)) (fillNode chunk pl i) out := by
        apply ih
        · show i + 1 + k = pl.chunkSize.toNat
          omega
        · intro pl' eq
          exact rest pl' (by rw [eq, List.range'_succ, List.foldl_cons])
      apply Ends.of_step _ filled
      simp only [popStep, if_pos unfilled]

/-- A new chunk is counted and filled. -/
theorem Ends.allocate (rest : Ends .check (fillChunk { pl with numChunks := pl.numChunks + 1 }) out) :
    Ends .allocate pl out := by
  have begun : pl.popStep .allocate = ({ pl with
      mallocNext := pl.mallocNext + pl.chunkSize.toNat, numChunks := pl.numChunks + 1 },
      .inl (.fill pl.mallocNext 0)) := rfl
  apply Ends.of_step begun
  apply Ends.fill (Nat.zero_add _)
  rintro _ rfl
  rw [← List.range_eq_range']
  exact rest

/-- **Run alone, the steps of `memory_pool_pop` do what the whole call does.** -/
theorem Ends.of_popLoop {rounds : Nat} (popped : popLoop rounds pl = some out) :
    Ends .take pl out := by
  induction rounds generalizing pl with
  | zero => cases popped
  | succ rounds ih =>
      rw [popLoop_succ] at popped
      split at popped
      · rename_i n queue front
        cases popped
        exact .of_return (by simp only [popStep, front])
      · rename_i empty
        have begun : pl.popStep .take = (pl, .inl .drain) := by simp only [popStep, empty]
        have reset : (drainFree pl.freeQueue pl).popStep .reset = (pl.drained, .inl .retry) := rfl
        apply Ends.of_step begun
        apply Ends.drain rfl
        apply Ends.of_step reset
        split at popped
        · rename_i n queue front
          cases popped
          exact .of_return (by simp only [popStep, front])
        · rename_i stillEmpty
          have grows : pl.drained.popStep .retry = (pl.drained, .inl .allocate) := by
            simp only [popStep, stillEmpty]
          apply Ends.of_step grows
          apply Ends.allocate
          apply Ends.of_step rfl
          exact ih popped

/-- Where a chunk has nodes, the call returns: its second round finds the new chunk. -/
theorem memoryPoolPop_returns (chunk : 0 < pl.chunkSize) : ∃ out, pl.memoryPoolPop = some out := by
  have same : pl.drained.chunkSize = pl.chunkSize := by rw [drained_eq]
  rw [memoryPoolPop, popLoop_succ]
  split
  · exact ⟨_, rfl⟩
  · split
    · exact ⟨_, rfl⟩
    · obtain ⟨n, rest, front⟩ := refilled_front (same ▸ chunk)
      exact ⟨_, popLoop_of_front 0 front⟩

theorem ends_check (pl : MemoryPool K V) (chunk : 0 < pl.chunkSize) : ∃ out, Ends .check pl out := by
  have same : (if pl.freeQueue.isEmpty then { pl with freeNodes := 0 } else pl).chunkSize =
      pl.chunkSize := by split <;> rfl
  obtain ⟨out, popped⟩ := memoryPoolPop_returns (same ▸ chunk)
  exact ⟨out, .of_step rfl (.of_popLoop popped)⟩

theorem ends_fill (pl : MemoryPool K V) (chunk : 0 < pl.chunkSize) (base : Nat) {i k : Nat}
    (left : pl.chunkSize.toNat - i = k) : ∃ out, Ends (.fill base i) pl out := by
  induction k generalizing pl i with
  | zero =>
      have full : ¬ i < pl.chunkSize.toNat := by omega
      have listed : pl.popStep (.fill base i) =
          ({ pl with memoryChunks := pl.memoryChunks ++ [base] }, .inl .check) := by
        simp only [popStep, if_neg full]
      obtain ⟨out, rest⟩ := ends_check { pl with memoryChunks := pl.memoryChunks ++ [base] } chunk
      exact ⟨out, .of_step listed rest⟩
  | succ k ih =>
      have unfilled : i < pl.chunkSize.toNat := by omega
      have pushed : pl.popStep (.fill base i) = (fillNode base pl i, .inl (.fill base (i + 1))) := by
        simp only [popStep, if_pos unfilled]
      have fewer : (fillNode base pl i).chunkSize.toNat - (i + 1) = k := by
        show pl.chunkSize.toNat - (i + 1) = k
        omega
      obtain ⟨out, rest⟩ := ih (fillNode base pl i) chunk fewer
      exact ⟨out, .of_step pushed rest⟩

theorem ends_allocate (pl : MemoryPool K V) (chunk : 0 < pl.chunkSize) :
    ∃ out, Ends .allocate pl out := by
  obtain ⟨out, rest⟩ := ends_fill { pl with
    mallocNext := pl.mallocNext + pl.chunkSize.toNat, numChunks := pl.numChunks + 1 }
    chunk pl.mallocNext rfl
  exact ⟨out, .of_step rfl rest⟩

theorem ends_retry (pl : MemoryPool K V) (chunk : 0 < pl.chunkSize) : ∃ out, Ends .retry pl out := by
  cases queue : pl.activeQueue with
  | cons n rest =>
      have taken : pl.popStep .retry = ({ pl with activeQueue := rest }, .inr n) := by
        simp only [popStep, queue]
      exact ⟨_, .of_return taken⟩
  | nil =>
      have grows : pl.popStep .retry = (pl, .inl .allocate) := by simp only [popStep, queue]
      obtain ⟨out, rest⟩ := ends_allocate pl chunk
      exact ⟨out, .of_step grows rest⟩

theorem ends_drain (pl : MemoryPool K V) (chunk : 0 < pl.chunkSize) : ∃ out, Ends .drain pl out := by
  have same : pl.drained.chunkSize = pl.chunkSize := by rw [drained_eq]
  obtain ⟨out, rest⟩ := ends_retry pl.drained (same ▸ chunk)
  exact ⟨out, .drain rfl (.of_step rfl rest)⟩

/-- **Run alone, `memory_pool_pop` returns, wherever it is.** -/
theorem ends (pl : MemoryPool K V) (chunk : 0 < pl.chunkSize) (point : Pop) : ∃ out, Ends point pl out := by
  cases point with
  | take =>
      obtain ⟨out, popped⟩ := memoryPoolPop_returns chunk
      exact ⟨out, .of_popLoop popped⟩
  | drain => exact ends_drain pl chunk
  | move t =>
      obtain ⟨out, rest⟩ := ends_drain { pl with activeQueue := pl.activeQueue ++ [t] } chunk
      exact ⟨out, .of_step rfl rest⟩
  | reset =>
      obtain ⟨out, rest⟩ := ends_retry { pl with freeNodes := 0 } chunk
      exact ⟨out, .of_step rfl rest⟩
  | retry => exact ends_retry pl chunk
  | allocate => exact ends_allocate pl chunk
  | fill base i => exact ends_fill pl chunk base rfl
  | check => exact ends_check pl chunk

end Steps

end MemoryPool

namespace BlockMap.Threads

/-! ### Threads -/

/-- Where a thread is. `p` and `n` are the places the loop of the call stopped at. -/
inductive Phase (K V : Type) where
  | idle
  /-- `table[pos].mutex_t.lock()`. -/
  | insertLock (k : K) (v : V)
  /-- The loop over the bucket. -/
  | insertWalk (k : K) (v : V)
  /-- `allocated.fetch_add(1)`. -/
  | insertCount (k : K) (v : V) (p : Nat) (n : Option Nat)
  /-- In `memory_pool_pop`. -/
  | insertPop (k : K) (v : V) (p : Nat) (n : Option Nat) (point : MemoryPool.Pop)
  /-- With a node that is not linked yet. -/
  | insertLink (k : K) (v : V) (p : Nat) (n : Option Nat) (newNode : Nat)
  | eraseLock (k : K)
  | eraseWalk (k : K)
  /-- `p->next = n->next`. -/
  | eraseUnlink (k : K) (p n : Nat)
  /-- `free_queue->push(n)`. -/
  | erasePush (k : K) (n : Nat)
  /-- `free_nodes.fetch_add(1)`. -/
  | eraseFreeNodes (k : K)
  /-- `table[pos].num_nodes--`. -/
  | eraseNumNodes (k : K)
  /-- `removed.fetch_add(1)`. -/
  | eraseRemoved (k : K)
  /-- `table[pos].mutex_t.unlock()`, and the call returns. -/
  | unlock (k : K) (ret : Answer Unit)

/-- The table with its mutexes and the threads. -/
structure State (K V : Type) where
  b : BlockMap K V
  /-- The thread that holds `table[pos].mutex_t`. -/
  locks : UInt64 → Option Nat
  threads : Nat → Phase K V

/-- Nobody is at work. -/
def initial (b : BlockMap K V) : State K V := ⟨b, fun _ => none, fun _ => .idle⟩

def State.goTo (s : State K V) (t : Nat) (b : BlockMap K V) (phase : Phase K V) : State K V :=
  { s with b := b, threads := Function.update s.threads t phase }

section Steps

variable [Inhabited K] [Inhabited V] (ops : KeyOps K)

/-- A thread that waits for the bucket of `k` gets its mutex, if there is one and nobody holds
it. -/
def State.lock (s : State K V) (t : Nat) (k : K) (phase : Phase K V) : Option (State K V) := do
  s.b.lock (s.b.keyToIndex ops k)
  match s.locks (s.b.keyToIndex ops k) with
  | some _ => none
  | none =>
      some ({ s with locks := Function.update s.locks (s.b.keyToIndex ops k) (some t) }.goTo t s.b phase)

/-- The state in which the thread has it. -/
def State.locked (s : State K V) (t : Nat) (k : K) (phase : Phase K V) : State K V :=
  { s with locks := Function.update s.locks (s.b.keyToIndex ops k) (some t) }.goTo t s.b phase

omit [Inhabited K] [Inhabited V] in
theorem State.lock_eq_some_iff {s s' : State K V} {t : Nat} {k : K} {phase : Phase K V} :
    s.lock ops t k phase = some s' ↔
      s.b.Free ops k ∧ s.locks (s.b.keyToIndex ops k) = none ∧ s' = s.locked ops t k phase := by
  simp only [State.lock, Option.bind_eq_bind, Option.bind_eq_some_iff, BlockMap.lock_eq_some_iff]
  cases held : s.locks (s.b.keyToIndex ops k) with
  | none => simp [Free, State.locked, eq_comm]
  | some u => simp

/-- `insert` behind `memory_pool_pop`: the node is constructed, linked and counted. -/
def linkNode (b : BlockMap K V) (k : K) (v : V) (p : Nat) (n : Option Nat) (newNode : Nat) :
    BlockMap K V :=
  let pos := b.keyToIndex ops k
  let pl := ((b.pl.setKey newNode k).setValue newNode v).setNext newNode n
  let pl := pl.setNext p (some newNode)
  let bucket := { b.table pos with numNodes := (b.table pos).numNodes + 1 }
  { b with pl := pl, table := Function.update b.table pos bucket }

/-- The next step of thread `t` in the call it is in, if it can take one. -/
def next (t : Nat) (s : State K V) : Option (State K V) :=
  match s.threads t with
  | .idle => none
  | .insertLock k v => s.lock ops t k (.insertWalk k v)
  | .insertWalk k v => do
      let pos := s.b.keyToIndex ops k
      let (p, n, found) ←
        insertWalk ops s.b.pl k s.b.pl.mallocNext (s.b.table pos).head (s.b.first pos) false
      if found then return s.goTo t s.b (.unlock k (.insert retExists))
      else return s.goTo t s.b (.insertCount k v p n)
  | .insertCount k v p n =>
      some (s.goTo t { s.b with allocated := s.b.allocated + 1 } (.insertPop k v p n .take))
  | .insertPop k v p n point =>
      match s.b.pl.popStep point with
      | (pl, .inl point) => some (s.goTo t { s.b with pl := pl } (.insertPop k v p n point))
      | (pl, .inr newNode) => some (s.goTo t { s.b with pl := pl } (.insertLink k v p n newNode))
  | .insertLink k v p n newNode =>
      some (s.goTo t (linkNode ops s.b k v p n newNode) (.unlock k (.insert retInserted)))
  | .eraseLock k => s.lock ops t k (.eraseWalk k)
  | .eraseWalk k => do
      let pos := s.b.keyToIndex ops k
      let (p, n) ← eraseWalk ops s.b.pl k s.b.pl.mallocNext (s.b.table pos).head (s.b.first pos)
      match n with
      | none => return s.goTo t s.b (.unlock k (.erase false))
      | some n =>
          if ops.equal (s.b.pl.memory n).key k then return s.goTo t s.b (.eraseUnlink k p n)
          else return s.goTo t s.b (.unlock k (.erase false))
  | .eraseUnlink k p n =>
      some (s.goTo t { s.b with pl := s.b.pl.setNext p (s.b.pl.memory n).next } (.erasePush k n))
  | .erasePush k n =>
      some (s.goTo t { s.b with pl := { s.b.pl with freeQueue := s.b.pl.freeQueue ++ [n] } }
        (.eraseFreeNodes k))
  | .eraseFreeNodes k =>
      some (s.goTo t { s.b with pl := { s.b.pl with freeNodes := s.b.pl.freeNodes + 1 } }
        (.eraseNumNodes k))
  | .eraseNumNodes k =>
      let pos := s.b.keyToIndex ops k
      let bucket := { s.b.table pos with numNodes := (s.b.table pos).numNodes - 1 }
      some (s.goTo t { s.b with table := Function.update s.b.table pos bucket } (.eraseRemoved k))
  | .eraseRemoved k =>
      some (s.goTo t { s.b with removed := s.b.removed + 1 } (.unlock k (.erase true)))
  | .unlock k _ =>
      some ({ s with locks := Function.update s.locks (s.b.keyToIndex ops k) none }.goTo t s.b .idle)

/-- What a thread that is idle may begin. -/
inductive Call (K V : Type) where
  | insert (k : K) (v : V)
  | erase (k : K)

def Call.begin : Call K V → Phase K V
  | .insert k v => .insertLock k v
  | .erase k => .eraseLock k

/-- One step of one thread: it begins a call, or goes on with the call it is in. -/
inductive Step : State K V → Nat → State K V → Prop where
  | call {s : State K V} {t : Nat} (c : Call K V) (free : s.threads t = .idle) :
      Step s t (s.goTo t s.b c.begin)
  | next {s s' : State K V} {t : Nat} (taken : next ops t s = some s') : Step s t s'

/-- `fuel` steps of thread `t` with nobody else at work. -/
def runAlone (t : Nat) : Nat → State K V → Option (State K V)
  | 0, s => some s
  | fuel + 1, s => do runAlone t fuel (← next ops t s)

/-! ### A thread alone -/

omit [Inhabited K] [Inhabited V] in
@[simp] theorem goTo_goTo (s : State K V) (t : Nat) (b b' : BlockMap K V) (phase phase' : Phase K V) :
    (s.goTo t b phase).goTo t b' phase' = s.goTo t b' phase' := by
  simp only [State.goTo, Function.update_idem]

omit [Inhabited K] [Inhabited V] in
@[simp] theorem goTo_threads (s : State K V) (t : Nat) (b : BlockMap K V) (phase : Phase K V) :
    (s.goTo t b phase).threads t = phase :=
  Function.update_self ..

/-- The point of `memory_pool_pop` the thread is at next, or the node it got. -/
def Phase.popped (k : K) (v : V) (p : Nat) (n : Option Nat) : MemoryPool.Pop ⊕ Nat → Phase K V
  | .inl point => .insertPop k v p n point
  | .inr newNode => .insertLink k v p n newNode

/-- The step of a thread in `memory_pool_pop`. -/
theorem next_pop {s : State K V} {t : Nat} {k : K} {v : V} {p : Nat} {n : Option Nat}
    {point : MemoryPool.Pop} (here : s.threads t = .insertPop k v p n point) :
    next ops t s = some (s.goTo t { s.b with pl := (s.b.pl.popStep point).1 }
      (.popped k v p n (s.b.pl.popStep point).2)) := by
  simp only [next, here]
  split <;> simp_all [Phase.popped]

/-- Some number of steps of thread `t` lead from `s` to `s'`. -/
def Leads (t : Nat) (s s' : State K V) : Prop := ∃ fuel, runAlone ops t fuel s = some s'

section Alone

variable {ops : KeyOps K} {s s₁ s' : State K V} {t : Nat} {k : K} {v : V} {p : Nat} {n : Option Nat}

theorem Leads.refl : Leads ops t s s := ⟨0, rfl⟩

theorem Leads.step (taken : next ops t s = some s₁) (rest : Leads ops t s₁ s') : Leads ops t s s' := by
  obtain ⟨fuel, ran⟩ := rest
  refine ⟨fuel + 1, ?_⟩
  simp only [runAlone, taken, Option.bind_eq_bind, Option.bind_some, ran]

theorem Leads.trans (first : Leads ops t s s₁) (rest : Leads ops t s₁ s') : Leads ops t s s' := by
  obtain ⟨fuel, ran⟩ := first
  induction fuel generalizing s with
  | zero =>
      cases ran
      exact rest
  | succ fuel ih =>
      cases taken : next ops t s with
      | none =>
          simp only [runAlone, taken, Option.bind_eq_bind, Option.bind_none] at ran
          cases ran
      | some s₂ =>
          simp only [runAlone, taken, Option.bind_eq_bind, Option.bind_some] at ran
          exact .step taken (ih ran)

/-- A thread that runs alone through `memory_pool_pop` gets the node. -/
theorem Leads.pop {point : MemoryPool.Pop} {newNode : Nat} {pl' : MemoryPool K V}
    (here : s.threads t = .insertPop k v p n point) (ends : MemoryPool.Ends point s.b.pl (newNode, pl')) :
    Leads ops t s (s.goTo t { s.b with pl := pl' } (.insertLink k v p n newNode)) := by
  obtain ⟨fuel, ran⟩ := ends
  induction fuel generalizing s point with
  | zero => cases ran
  | succ fuel ih =>
      have step := next_pop ops here
      rw [MemoryPool.popAlone] at ran
      split at ran
      · rename_i pl point' taken
        rw [taken] at step
        have there := goTo_threads s t { s.b with pl := pl } (.insertPop k v p n point')
        have rest := ih there ran
        rw [goTo_goTo] at rest
        exact .step step rest
      · rename_i pl m taken
        rw [taken] at step
        cases ran
        exact .step step .refl

/-- `insert` behind the lock. -/
theorem Leads.insert {b' : BlockMap K V} {ret : UInt32} (here : s.threads t = .insertWalk k v)
    (done : s.b.insert ops k v = some (b', ret)) :
    Leads ops t s (s.goTo t b' (.unlock k (.insert ret))) := by
  have free := insert_free ops done
  cases walk : insertWalk ops s.b.pl k s.b.pl.mallocNext (s.b.table (s.b.keyToIndex ops k)).head
      (s.b.first (s.b.keyToIndex ops k)) false with
  | none =>
      simp only [BlockMap.insert, free.lock, walk, Option.bind_eq_bind, Option.bind_none] at done
      cases done
  | some out =>
      obtain ⟨p, n, found⟩ := out
      simp only [BlockMap.insert, free.lock, walk, Option.bind_eq_bind, Option.bind_some] at done
      cases found with
      | true =>
          cases done
          have walked : next ops t s = some (s.goTo t s.b (.unlock k (.insert retExists))) := by
            simp only [next, here, walk, Option.bind_eq_bind, Option.bind_some, if_true, Option.pure_def]
          exact .step walked .refl
      | false =>
          have walked : next ops t s = some (s.goTo t s.b (.insertCount k v p n)) := by
            simp only [next, here, walk, Option.bind_eq_bind, Option.bind_some, Bool.false_eq_true,
              if_false, Option.pure_def]
          have counted : next ops t (s.goTo t s.b (.insertCount k v p n)) =
              some (s.goTo t { s.b with allocated := s.b.allocated + 1 } (.insertPop k v p n .take)) := by
            simp only [next, goTo_threads, goTo_goTo]
            rfl
          cases pop : s.b.pl.memoryPoolPop with
          | none =>
              simp only [pop, Bool.false_eq_true, if_false, Option.bind_none] at done
              cases done
          | some out =>
              obtain ⟨newNode, pl'⟩ := out
              simp only [pop, Bool.false_eq_true, if_false, Option.bind_some] at done
              cases done
              have popped : Leads ops t
                  (s.goTo t { s.b with allocated := s.b.allocated + 1 } (.insertPop k v p n .take)) _ :=
                .pop (goTo_threads ..) (.of_popLoop pop)
              have linked : next ops t (s.goTo t
                  { s.b with allocated := s.b.allocated + 1, pl := pl' } (.insertLink k v p n newNode)) =
                  some (s.goTo t (linkNode ops { s.b with allocated := s.b.allocated + 1, pl := pl' }
                    k v p n newNode) (.unlock k (.insert retInserted))) := by
                simp only [next, goTo_threads, goTo_goTo]
                rfl
              rw [goTo_goTo] at popped
              exact .step walked (.step counted (popped.trans (.step linked .refl)))

/-- **Run alone, the steps of `insert` do what the whole call does.** -/
theorem insert_alone {b' : BlockMap K V} {ret : UInt32} (here : s.threads t = .insertLock k v)
    (free : s.locks (s.b.keyToIndex ops k) = none) (done : s.b.insert ops k v = some (b', ret)) :
    ∃ s', Leads ops t s s' ∧ s'.b = b' ∧ s'.threads t = .unlock k (.insert ret) := by
  have locked : next ops t s = some (s.locked ops t k (.insertWalk k v)) := by
    simp only [next, here]
    exact (State.lock_eq_some_iff ops).mpr ⟨insert_free ops done, free, rfl⟩
  exact ⟨_, .step locked (.insert (goTo_threads ..) done), rfl, goTo_threads ..⟩

/-- `erase` behind its loop, with the node of the key found. -/
theorem Leads.unlink (s : State K V) (t : Nat) (k : K) (p n : Nat) :
    Leads ops t (s.goTo t s.b (.eraseUnlink k p n)) (s.goTo t
      { s.b with
        removed := s.b.removed + 1
        pl := (s.b.pl.setNext p (s.b.pl.memory n).next).memoryPoolPush n
        table := Function.update s.b.table (s.b.keyToIndex ops k)
          { s.b.table (s.b.keyToIndex ops k) with
            numNodes := (s.b.table (s.b.keyToIndex ops k)).numNodes - 1 } }
      (.unlock k (.erase true))) := by
  -- Unlinked, pushed, counted as free, taken off the bucket's count, and counted as removed.
  apply Leads.step
  · simp only [next, goTo_threads, goTo_goTo]
    rfl
  apply Leads.step
  · simp only [next, goTo_threads, goTo_goTo]
    rfl
  apply Leads.step
  · simp only [next, goTo_threads, goTo_goTo]
    rfl
  apply Leads.step
  · simp only [next, goTo_threads, goTo_goTo]
    rfl
  apply Leads.step
  · simp only [next, goTo_threads, goTo_goTo]
    rfl
  exact .refl

/-- `erase` behind the lock. -/
theorem Leads.erase {b' : BlockMap K V} {found : Bool} (here : s.threads t = .eraseWalk k)
    (done : s.b.erase ops k = some (b', found)) :
    Leads ops t s (s.goTo t b' (.unlock k (.erase found))) := by
  have free := erase_free ops done
  cases walk : eraseWalk ops s.b.pl k s.b.pl.mallocNext (s.b.table (s.b.keyToIndex ops k)).head
      (s.b.first (s.b.keyToIndex ops k)) with
  | none =>
      simp only [BlockMap.erase, free.lock, walk, Option.bind_eq_bind, Option.bind_none] at done
      cases done
  | some out =>
      obtain ⟨p, n⟩ := out
      simp only [BlockMap.erase, free.lock, walk, Option.bind_eq_bind, Option.bind_some] at done
      cases n with
      | none =>
          cases done
          have walked : next ops t s = some (s.goTo t s.b (.unlock k (.erase false))) := by
            simp only [next, here, walk, Option.bind_eq_bind, Option.bind_some, Option.pure_def]
          exact .step walked .refl
      | some n =>
          by_cases same : ops.equal (s.b.pl.memory n).key k = true
          · simp only [same, if_true] at done
            cases done
            have walked : next ops t s = some (s.goTo t s.b (.eraseUnlink k p n)) := by
              simp only [next, here, walk, same, Option.bind_eq_bind, Option.bind_some, if_true,
                Option.pure_def]
            exact .step walked (.unlink s t k p n)
          · simp only [same, Bool.false_eq_true, if_false] at done
            cases done
            have walked : next ops t s = some (s.goTo t s.b (.unlock k (.erase false))) := by
              simp only [next, here, walk, same, Option.bind_eq_bind, Option.bind_some,
                Bool.false_eq_true, if_false, Option.pure_def]
            exact .step walked .refl

/-- **Run alone, the steps of `erase` do what the whole call does.** -/
theorem erase_alone {b' : BlockMap K V} {found : Bool} (here : s.threads t = .eraseLock k)
    (free : s.locks (s.b.keyToIndex ops k) = none) (done : s.b.erase ops k = some (b', found)) :
    ∃ s', Leads ops t s s' ∧ s'.b = b' ∧ s'.threads t = .unlock k (.erase found) := by
  have locked : next ops t s = some (s.locked ops t k (.eraseWalk k)) := by
    simp only [next, here]
    exact (State.lock_eq_some_iff ops).mpr ⟨erase_free ops done, free, rfl⟩
  exact ⟨_, .step locked (.erase (goTo_threads ..) done), rfl, goTo_threads ..⟩

end Alone

end Steps

end BlockMap.Threads

end Hcl
