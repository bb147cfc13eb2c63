import Hcl.BlockMap.Conservation

/-!
The nodes of the pool and the counters of the table, in every run of `insert` and `erase`.

A table starts with every node on the active queue or as a sentinel (`good_initial`). From
there every reachable state is `Good`; when no thread is in a call, no counter is ahead of
the chains, and what they count are the keys (`Good.quiescent`). `nodes_conserved` puts the
results together.
-/

namespace Hcl

open Hcl.Lib

variable {K V : Type}

/-! ### Construction -/

namespace MemoryPool

/-- Every node that was allocated waits or is in use. -/
def Covered (pl : MemoryPool K V) (used : Nat → Prop) : Prop :=
  ∀ a, a < pl.mallocNext → a ∈ pl.queued ∨ used a

section Covered

variable {pl pl' : MemoryPool K V} {used : Nat → Prop} {n : Nat}

theorem Covered.take {rest : List Nat} (covered : pl.Covered used)
    (front : pl.activeQueue = n :: rest) :
    Covered { pl with activeQueue := rest } fun a => used a ∨ a = n := by
  intro a below
  rcases covered a below with waits | inUse
  · rw [queued, front, List.cons_append, List.mem_cons] at waits
    rcases waits with eq | waits
    · exact Or.inr (Or.inr eq)
    · exact Or.inl waits
  · exact Or.inr (Or.inl inUse)

theorem Covered.drain (covered : pl.Covered used) : pl.drained.Covered used := by
  rw [drained_eq]
  intro a below
  refine (covered a below).imp_left fun waits => ?_
  simpa [queued] using waits

variable [Inhabited K] [Inhabited V]

theorem Covered.refill (covered : pl.Covered used) : pl.refilled.Covered used := by
  obtain ⟨freeNodes, eq⟩ := refilled_eq pl
  rw [eq, fillChunk_eq]
  intro a below
  by_cases old : a < pl.mallocNext
  · refine (covered a old).imp_left fun waits => ?_
    rw [queued, List.mem_append] at waits
    simp only [queued, List.mem_append]
    tauto
  · have offset : pl.mallocNext + (a - pl.mallocNext) = a := by omega
    have new : a ∈ (List.range pl.chunkSize.toNat).map (pl.mallocNext + ·) := by
      refine List.mem_map.mpr ⟨a - pl.mallocNext, List.mem_range.mpr ?_, offset⟩
      change a < pl.mallocNext + pl.chunkSize.toNat at below
      omega
    exact Or.inl (List.mem_append_left _ (List.mem_append_right _ new))

theorem Chunks.refill (chunks : pl.Chunks) : pl.refilled.Chunks := by
  obtain ⟨freeNodes, eq⟩ := refilled_eq pl
  rw [eq, fillChunk_eq]
  exact chunks.more rfl rfl rfl

/-- A whole call of `memory_pool_pop` loses no node. -/
theorem Covered.popLoop {rounds : Nat} (covered : pl.Covered used) (chunks : pl.Chunks)
    (popped : popLoop rounds pl = some (n, pl')) :
    (pl'.Covered fun a => used a ∨ a = n) ∧ pl'.Chunks := by
  induction rounds generalizing pl with
  | zero => cases popped
  | succ rounds ih =>
      have drainedToo : pl.drained.Chunks := by
        rw [drained_eq]
        exact chunks
      rw [popLoop_succ] at popped
      split at popped
      · rename_i front
        cases popped
        exact ⟨covered.take front, chunks⟩
      · split at popped
        · rename_i front
          cases popped
          exact ⟨covered.drain.take front, drainedToo⟩
        · exact ih covered.drain.refill drainedToo.refill popped

end Covered

end MemoryPool

namespace BlockMap

variable [Inhabited K] [Inhabited V]

/-- What `i` rounds of the constructor leave besides the sentinels: every other node is queued,
and nothing has been counted. -/
structure Built (b : BlockMap K V) (i : Nat) : Prop where
  covered : b.pl.Covered fun a => ∃ pos : UInt64, pos.toNat < i ∧ a = (b.table pos).head
  chunks : b.pl.Chunks
  allocated : b.allocated = 0
  removed : b.removed = 0
  numNodes : ∀ pos : UInt64, pos.toNat < i → (b.table pos).numNodes = 0

theorem built_start (raw : RawTable) (n : UInt64) (csize : UInt32) (maxKey : K) :
    Built (V := V) (unbuilt raw n (MemoryPool.new csize) maxKey) 0 := by
  constructor
  · intro a below
    simp only [unbuilt, MemoryPool.new, MemoryPool.fillChunk_eq, Nat.zero_add] at below ⊢
    left
    simpa [MemoryPool.queued] using below
  · refine ⟨1, ?_, rfl⟩
    simp only [unbuilt, MemoryPool.new, MemoryPool.fillChunk_eq, Nat.zero_add, Nat.mul_one]
  · rfl
  · rfl
  · intro pos below
    omega

theorem Built.next {b b' : BlockMap K V} {i : Nat} (h : Built b i) (small : i < UInt64.size)
    (done : b.constructBucket i = some b') : Built b' (i + 1) := by
  cases pop : b.pl.memoryPoolPop with
  | none =>
      simp only [constructBucket, pop, Option.bind_eq_bind, Option.bind_none] at done
      cases done
  | some out =>
      obtain ⟨head, pl'⟩ := out
      obtain ⟨covered, chunks⟩ := h.covered.popLoop h.chunks pop
      simp only [constructBucket, pop, Option.bind_eq_bind, Option.bind_some, Option.pure_def,
        Option.some.injEq] at done
      subst done
      have index : (i.toUInt64).toNat = i := UInt64.toNat_ofNat_of_lt' small
      have other : ∀ {pos : UInt64}, pos.toNat < i → pos ≠ i.toUInt64 := by
        rintro pos below rfl
        omega
      constructor
      · intro a below
        rcases covered a below with waits | ⟨pos, earlier, rfl⟩ | rfl
        · exact Or.inl waits
        · refine Or.inr ⟨pos, by omega, ?_⟩
          simp only [Function.update_of_ne (other earlier)]
        · refine Or.inr ⟨i.toUInt64, by omega, ?_⟩
          simp only [Function.update_self]
      · exact chunks
      · exact h.allocated
      · exact h.removed
      · intro pos below
        by_cases here : pos = i.toUInt64
        · simp only [here, Function.update_self]
        · have earlier : pos.toNat < i := by
            have : pos.toNat ≠ i := fun eq => here (UInt64.toNat_inj.mp (eq.trans index.symm))
            omega
          simp only [Function.update_of_ne here]
          exact h.numNodes pos earlier

/-- The constructor leaves its table built. -/
theorem new_built {raw : RawTable} {n : UInt64} {csize : UInt32} (chunk : 0 < csize) {maxKey : K}
    {b : BlockMap K V} (made : new raw n (MemoryPool.new csize) maxKey = some b) :
    b.maxSize = n ∧ Built b n.toNat := by
  obtain ⟨sentinels, built⟩ := new_rounds chunk made (P := fun i b => Built b i)
    (built_start raw n csize maxKey)
    fun i b b' below _ done built => built.next (Nat.lt_trans below n.toNat_lt) done
  exact ⟨sentinels.size, built⟩

namespace Threads

variable {ops : KeyOps K} {b : BlockMap K V} {s : State K V} {body : UInt64 → List Nat}

omit [Inhabited K] [Inhabited V] in
/-- At first a node is queued or a sentinel. -/
theorem mem_initial {l : Place} {a : Nat} : a ∈ contents (initial b) (fun _ => []) l ↔
    (l = .active ∧ a ∈ b.pl.activeQueue) ∨ (l = .free ∧ a ∈ b.pl.freeQueue) ∨
      ∃ pos, l = .sentinel pos ∧ pos < b.maxSize ∧ a ∈ b.block (fun _ => []) pos := by
  cases l with
  | sentinel pos =>
      simp only [contents, reduceCtorEq, false_and, false_or, Place.sentinel.injEq]
      split
      · rename_i inside
        constructor
        · exact fun mem => ⟨pos, rfl, inside, mem⟩
        · rintro ⟨_, rfl, -, mem⟩
          exact mem
      · rename_i outside
        constructor
        · intro mem
          cases mem
        · rintro ⟨_, rfl, inside, -⟩
          exact absurd inside outside
  | chain pos => simp [contents, ite_self]
  | _ => simp [contents, initial, Phase.held, Phase.pending]

omit [Inhabited K] [Inhabited V] in
theorem parted_initial (inv : Inv ops b fun _ => []) (covered : b.pl.Covered (b.Used fun _ => [])) :
    Parted (initial b) fun _ => [] := by
  have active : ∀ {a}, a ∈ b.pl.activeQueue → a ∈ b.pl.queued := List.mem_append_left _
  have free : ∀ {a}, a ∈ b.pl.freeQueue → a ∈ b.pl.queued := List.mem_append_right _
  obtain ⟨nodupActive, nodupFree, apart⟩ := List.nodup_append.mp inv.pool.nodup
  constructor
  · intro l
    cases l with
    | active => exact nodupActive
    | free => exact nodupFree
    | sentinel pos =>
        simp only [contents]
        split
        · exact List.nodup_singleton _
        · exact List.nodup_nil
    | chain pos =>
        simp only [contents, ite_self]
        exact List.nodup_nil
    | held t => exact List.nodup_nil
    | pending t => exact List.nodup_nil
  · intro a
    simp only [mem_initial]
    constructor
    · intro below
      rcases covered a below with waits | ⟨pos, inside, mem⟩
      · rcases List.mem_append.mp waits with mem | mem
        · exact ⟨.active, Or.inl ⟨rfl, mem⟩⟩
        · exact ⟨.free, Or.inr (Or.inl ⟨rfl, mem⟩)⟩
      · exact ⟨.sentinel pos, Or.inr (Or.inr ⟨pos, rfl, inside, mem⟩)⟩
    · rintro ⟨l, ⟨-, mem⟩ | ⟨-, mem⟩ | ⟨pos, -, inside, mem⟩⟩
      · exact inv.pool.queued_lt a (active mem)
      · exact inv.pool.queued_lt a (free mem)
      · exact inv.pool.used_lt a ⟨pos, inside, mem⟩
  · intro l l' a
    simp only [mem_initial]
    rintro (⟨rfl, mem⟩ | ⟨rfl, mem⟩ | ⟨pos, rfl, inside, mem⟩)
      (⟨rfl, mem'⟩ | ⟨rfl, mem'⟩ | ⟨pos', rfl, inside', mem'⟩)
    · rfl
    · exact absurd rfl (apart a mem a mem')
    · exact absurd ⟨pos', inside', mem'⟩ (inv.pool.unused a (active mem))
    · exact absurd rfl (apart a mem' a mem)
    · rfl
    · exact absurd ⟨pos', inside', mem'⟩ (inv.pool.unused a (free mem))
    · exact absurd ⟨pos, inside, mem⟩ (inv.pool.unused a (active mem'))
    · exact absurd ⟨pos, inside, mem⟩ (inv.pool.unused a (free mem'))
    · rw [inv.apart pos pos' inside inside' a mem mem']

omit [Inhabited K] [Inhabited V] in
/-- **A new table is good.** -/
theorem good_initial (inv : Inv ops b fun _ => []) (built : Built b b.maxSize.toNat) :
    Good ops (initial b) fun _ => [] := by
  have covered : b.pl.Covered (b.Used fun _ => []) := by
    intro a below
    refine (built.covered a below).imp_right ?_
    rintro ⟨pos, inside, rfl⟩
    exact ⟨pos, UInt64.lt_iff_toNat_lt.mpr inside, List.mem_cons_self⟩
  refine ⟨inv, parted_initial inv covered, built.chunks, ?_, ?_, ?_, ?_⟩
  · intro pos t
    constructor
    · intro held
      cases held
    · rintro ⟨k, inside, -⟩
      cases inside
  · intro t k inside
    cases inside
  · intro pos inside
    exact built.numNodes pos (UInt64.lt_iff_toNat_lt.mp inside)
  · have nothing : (sumTable b.maxSize fun pos => (b.table pos).numNodes + 0) = sumTable b.maxSize fun _ => 0 :=
      sumTable_congr fun pos inside => by
        rw [built.numNodes pos (UInt64.lt_iff_toNat_lt.mp inside), UInt64.add_zero]
    have zero : (sumTable b.maxSize fun _ => 0) = 0 := Finset.sum_const_zero
    show b.allocated = b.removed + sumTable b.maxSize fun pos => (b.table pos).numNodes + 0
    rw [nothing, zero, built.allocated, built.removed, UInt64.add_zero]

/-! ### Nobody at work -/

/-- The keys of the table, bucket by bucket. -/
def keys (b : BlockMap K V) (body : UInt64 → List Nat) : List K :=
  (List.range b.maxSize.toNat).flatMap fun i => (body i.toUInt64).map fun a => (b.pl.memory a).key

section Quiescent

omit [Inhabited K] [Inhabited V]

theorem mem_keys {q : K} :
    q ∈ keys b body ↔ ∃ pos, pos < b.maxSize ∧ ∃ a ∈ body pos, (b.pl.memory a).key = q := by
  simp only [keys, List.mem_flatMap, List.mem_range, List.mem_map]
  constructor
  · rintro ⟨i, small, found⟩
    exact ⟨i.toUInt64, (index_lt small).2, found⟩
  · rintro ⟨pos, inside, found⟩
    refine ⟨pos.toNat, UInt64.lt_iff_toNat_lt.mp inside, ?_⟩
    have back : pos.toNat.toUInt64 = pos := UInt64.ofNat_toNat
    rwa [back]

/-- No key is listed twice. -/
theorem keys_distinct (inv : Inv ops b body) : (keys b body).Pairwise fun q r => ¬ ops.equal q r := by
  refine List.pairwise_flatMap.mpr ⟨?_, ?_⟩
  · intro i hi
    exact List.pairwise_map.mpr (inv.bucket _ (index_lt (List.mem_range.mp hi)).2).distinct
  · refine List.nodup_range.imp_of_mem ?_
    intro i j hi hj other q hq r hr same
    obtain ⟨a, ha, rfl⟩ := List.mem_map.mp hq
    obtain ⟨c, hc, rfl⟩ := List.mem_map.mp hr
    obtain ⟨backI, insideI⟩ := index_lt (List.mem_range.mp hi)
    obtain ⟨backJ, insideJ⟩ := index_lt (List.mem_range.mp hj)
    -- Equal keys have one index, and a node is in the bucket of its key.
    have placed := inv.placed _ insideI a ha
    rw [keyToIndex, ops.hash_eq same] at placed
    have index : i.toUInt64 = j.toUInt64 := placed.symm.trans (inv.placed _ insideJ c hc)
    apply other
    rw [← backI, index, backJ]

/-- The keys are those the table stores. -/
theorem isSome_view_iff (inv : Inv ops b body) (k : K) :
    (b.view ops k).isSome ↔ ∃ q ∈ keys b body, ops.equal q k := by
  rw [← inv.any_eq, List.any_eq_true]
  constructor
  · rintro ⟨a, mem, has⟩
    exact ⟨_, mem_keys.mpr ⟨_, inv.index_lt k, a, mem, rfl⟩, has⟩
  · rintro ⟨q, found, same⟩
    obtain ⟨pos, inside, a, mem, rfl⟩ := mem_keys.mp found
    have placed := inv.placed pos inside a mem
    rw [keyToIndex, ops.hash_eq same] at placed
    refine ⟨a, ?_, same⟩
    rw [keyToIndex, placed]
    exact mem

theorem length_keys : UInt64.ofNat (keys b body).length =
    sumTable b.maxSize fun pos => UInt64.ofNat (body pos).length := by
  unfold keys sumTable
  induction b.maxSize.toNat with
  | zero => rfl
  | succ n ih =>
      rw [List.range_succ, List.flatMap_append, List.length_append, UInt64.ofNat_add, ih,
        Finset.sum_range_succ, List.flatMap_singleton, List.length_map]

theorem countBlockEntries_eq :
    b.countBlockEntries = sumTable b.maxSize fun pos => (b.table pos).numNodes := by
  unfold countBlockEntries sumTable
  induction b.maxSize.toNat with
  | zero => rfl
  | succ n ih =>
      rw [List.range_succ, List.foldl_append, ih, Finset.sum_range_succ, List.foldl_cons,
        List.foldl_nil]

/-- Nobody is in a call. -/
def Quiescent (s : State K V) : Prop := ∀ t, s.threads t = .idle

/-- **When nobody is in a call, the counters count the keys.** -/
theorem Good.quiescent (good : Good ops s body) (quiet : Quiescent s) :
    s.b.allocatedNodes - s.b.removedNodes = s.b.countBlockEntries ∧
      s.b.countBlockEntries = UInt64.ofNat (keys s.b body).length := by
  have holder : ∀ pos, s.holder pos = .idle := by
    intro pos
    unfold State.holder
    split
    · exact quiet _
    · rfl
  constructor
  · have total := good.total
    simp only [holder, Phase.owed, UInt64.add_zero] at total
    rw [allocatedNodes, removedNodes, total, countBlockEntries_eq, UInt64.add_comm,
      UInt64.add_sub_cancel]
  · rw [countBlockEntries_eq, length_keys]
    apply sumTable_congr
    intro pos inside
    rw [good.counts pos inside, holder]
    exact UInt64.add_zero _

end Quiescent

/-! ### Whole runs -/

/-- **Every state the threads can reach is good.** -/
theorem good_of_reachable (start : Good ops (initial b) body)
    (reach : Reachable (Step ops) (initial b) s) : ∃ body, Good ops s body := by
  refine reach.invariant (P := fun s => ∃ body, Good ops s body) ⟨body, start⟩ ?_
  rintro s t s' ⟨body, good⟩ taken
  cases taken with
  | call c free => exact ⟨body, good.call c free⟩
  | next taken => exact good.next taken

/-- What is promised of a state: with `body` the nodes of each bucket. -/
structure Conserved (ops : KeyOps K) (s : State K V) (body : UInt64 → List Nat) : Prop where
  chains : ∀ pos, pos < s.b.maxSize → Chain (links s.b.pl) (s.b.first pos) (body pos)
  chunks : s.b.pl.Chunks
  parts : Parted s body
  onePlace : ∀ a, a < s.b.pl.mallocNext → ∃! place, a ∈ contents s body place
  unlinked : ∀ t k v p n newNode, s.threads t = .insertLink k v p n newNode →
    ∀ pos, pos < s.b.maxSize → newNode ∉ s.b.block body pos
  returns : ∀ t k v p n point, s.threads t = .insertPop k v p n point →
    ∃ fuel s' newNode, runAlone ops t fuel s = some s' ∧ s'.threads t = .insertLink k v p n newNode
  counters : Quiescent s → s.b.allocatedNodes - s.b.removedNodes = s.b.countBlockEntries ∧
    ∃ keys : List K, keys.Pairwise (fun q r => ¬ ops.equal q r) ∧
      (∀ k, (s.b.view ops k).isSome ↔ ∃ q ∈ keys, ops.equal q k) ∧
      s.b.countBlockEntries = UInt64.ofNat keys.length

theorem Good.conserved (good : Good ops s body) : Conserved ops s body := by
  constructor
  · exact fun pos inside => (good.inv.bucket pos inside).chain
  · exact good.chunks
  · exact good.parts
  · exact fun a there => good.parts.existsUnique there
  · intro t k v p n newNode here pos inside mem
    have mine : newNode ∈ (s.threads t).held := by
      rw [here]
      exact List.mem_singleton_self newNode
    exact (good.parts.popped good.inv.pool.chunk mine).fresh ⟨pos, inside, mem⟩
  · intro t k v p n point here
    obtain ⟨⟨newNode, pl'⟩, ends⟩ := MemoryPool.ends s.b.pl good.inv.pool.chunk point
    obtain ⟨fuel, ran⟩ := Leads.pop here ends
    exact ⟨fuel, _, newNode, ran, goTo_threads ..⟩
  · intro quiet
    obtain ⟨counters, counted⟩ := good.quiescent quiet
    exact ⟨counters, keys s.b body, keys_distinct good.inv, isSome_view_iff good.inv, counted⟩

/-- **No node of the pool is lost or in two places.** For every table size, chunk size, hash,
equality and sentinel key and whatever `malloc` returns: the constructor returns if its assertions
hold, and then in every state that any number of threads reach by `insert` and `erase` the nodes of
all chunks are partitioned among the queues, the chains, the sentinels and the hands of the threads;
a node that `memory_pool_pop` returns is in no chain, and run alone it returns; and when nobody is
in a call, the counters count the distinct keys. -/
theorem nodes_conserved (ops : KeyOps K) (raw : RawTable) (n : UInt64) {csize : UInt32}
    (chunk : 0 < csize) (maxKey : K) :
    ((∃ b₀ : BlockMap K V, new raw n (MemoryPool.new csize) maxKey = some b₀) ↔
      0 < n ∧ raw.Admits n) ∧
    ∀ b₀ : BlockMap K V, new raw n (MemoryPool.new csize) maxKey = some b₀ →
      ∀ s, Reachable (Step ops) (initial b₀) s → ∃ body, Conserved ops s body := by
  refine ⟨exists_new_iff raw n chunk maxKey, ?_⟩
  intro b₀ made s reach
  obtain ⟨rfl, built⟩ := new_built chunk made
  obtain ⟨body, good⟩ := good_of_reachable (good_initial (new_inv ops chunk made) built) reach
  exact ⟨body, good.conserved⟩

/-- Two buckets in zeroed memory, chunks of one node, and two threads that wait for one bucket. -/
theorem nodes_conserved_two_threads :
    (0 : UInt32) < 1 ∧ ∃ b₀ : BlockMap Nat String,
      new zeroed 2 (MemoryPool.new 1) 7 = some b₀ ∧
      ∃ s, Reachable (Step collidingOps) (initial b₀) s ∧
        s.threads 0 = .insertLock 3 "a" ∧ s.threads 1 = .eraseLock 3 ∧
        ∃ body, Conserved collidingOps s body := by
  have chunk : (0 : UInt32) < 1 := by decide
  have admits : (0 : UInt64) < 2 ∧ zeroed.Admits 2 := by decide
  obtain ⟨returns, conserved⟩ := nodes_conserved (V := String) collidingOps zeroed 2 chunk 7
  obtain ⟨b₀, built⟩ := returns.mpr admits
  have reach : Reachable (Step collidingOps) (initial b₀)
      (((initial b₀).goTo 0 b₀ (.insertLock 3 "a")).goTo 1 b₀ (.eraseLock 3)) :=
    .step (.step .start (.call (.insert 3 "a") rfl)) (.call (.erase 3) rfl)
  exact ⟨chunk, b₀, built, _, reach, rfl, rfl, conserved b₀ built _ reach⟩

end Threads

end BlockMap

end Hcl
