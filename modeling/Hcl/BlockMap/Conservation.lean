import Mathlib.Data.UInt
import Mathlib.Algebra.BigOperators.Group.Finset.Basic
import Mathlib.Tactic.Abel
import Hcl.BlockMap.Places

/-!
What holds in every state while threads insert and erase.

`Good` says that the table is well formed and its nodes are where they should be, what a
thread knows of the bucket it has locked, and how far the counters of the table and of each
bucket are ahead of the chains. `Good.goOn` is the rule for a step in a locked bucket and
`Good.relock` the one for taking and leaving a mutex; `Good.next` puts the steps together.
-/

namespace Hcl.BlockMap.Threads

open Hcl.Lib

variable {K V : Type} {ops : KeyOps K} {b' : BlockMap K V} {body : UInt64 → List Nat}

/-! ### What the threads know and owe -/

/-- The loop of `insert` has stopped between `p` and `n`: no node has the key, and this is
its place in the order. -/
def InsertsAt (ops : KeyOps K) (pl : MemoryPool K V) (head : Nat) (l : List Nat) (k : K) (p : Nat)
    (n : Option Nat) : Prop :=
  ∃ before left right, head :: l = before ++ p :: right ∧ before ++ [p] = head :: left ∧
    l = left ++ right ∧ n = right.head? ∧ (∀ a ∈ left, ops.hash (pl.memory a).key ≤ ops.hash k) ∧
    (∀ a ∈ right, ops.hash (pl.memory a).key > ops.hash k) ∧
    ∀ a ∈ l, ¬ ops.equal (pl.memory a).key k

/-- The loop of `erase` has stopped at the node `n` of the key, behind `p`. -/
def ErasesAt (ops : KeyOps K) (pl : MemoryPool K V) (head : Nat) (l : List Nat) (k : K) (p n : Nat) :
    Prop :=
  ∃ before left right, head :: l = before ++ p :: n :: right ∧ before ++ [p] = head :: left ∧
    l = left ++ n :: right ∧ hasKey ops pl k n = true

/-- What a thread knows of the bucket it has locked. -/
def Phase.Knows (ops : KeyOps K) (pl : MemoryPool K V) (head : Nat) (l : List Nat) :
    Phase K V → Prop
  | .insertCount k _ p n => InsertsAt ops pl head l k p n
  | .insertPop k _ p n _ => InsertsAt ops pl head l k p n
  | .insertLink k _ p n _ => InsertsAt ops pl head l k p n
  | .eraseUnlink k p n => ErasesAt ops pl head l k p n
  | _ => True

/-- The key whose bucket a thread has locked. -/
def Phase.inside : Phase K V → Option K
  | .idle => none
  | .insertLock _ _ => none
  | .eraseLock _ => none
  | .insertWalk k _ => some k
  | .insertCount k _ _ _ => some k
  | .insertPop k _ _ _ _ => some k
  | .insertLink k _ _ _ _ => some k
  | .eraseWalk k => some k
  | .eraseUnlink k _ _ => some k
  | .erasePush k _ => some k
  | .eraseFreeNodes k => some k
  | .eraseNumNodes k => some k
  | .eraseRemoved k => some k
  | .unlock k _ => some k

/-- By how much `num_nodes` of the bucket is ahead of its chain. -/
def Phase.ahead : Phase K V → UInt64
  | .erasePush _ _ => 1
  | .eraseFreeNodes _ => 1
  | .eraseNumNodes _ => 1
  | _ => 0

/-- By how much the two counters of the table are ahead of `num_nodes` of the bucket. -/
def Phase.owed : Phase K V → UInt64
  | .insertPop _ _ _ _ _ => 1
  | .insertLink _ _ _ _ _ => 1
  | .eraseRemoved _ => 1
  | _ => 0

/-- The phase of the thread that holds the mutex of a bucket. -/
def State.holder (s : State K V) (pos : UInt64) : Phase K V :=
  match s.locks pos with
  | some t => s.threads t
  | none => .idle

/-- The sum over the buckets. -/
def sumTable (size : UInt64) (f : UInt64 → UInt64) : UInt64 :=
  ∑ i ∈ Finset.range size.toNat, f i.toUInt64

/-- What holds whatever the threads do. -/
structure Good (ops : KeyOps K) (s : State K V) (body : UInt64 → List Nat) : Prop where
  inv : Inv ops s.b body
  parts : Parted s body
  chunks : s.b.pl.Chunks
  locked : ∀ pos t, s.locks pos = some t ↔
    ∃ k, (s.threads t).inside = some k ∧ s.b.keyToIndex ops k = pos
  knows : ∀ t k, (s.threads t).inside = some k →
    (s.threads t).Knows ops s.b.pl (s.b.table (s.b.keyToIndex ops k)).head
      (body (s.b.keyToIndex ops k))
  counts : ∀ pos, pos < s.b.maxSize →
    (s.b.table pos).numNodes = UInt64.ofNat (body pos).length + (s.holder pos).ahead
  total : s.b.allocated = s.b.removed +
    sumTable s.b.maxSize fun pos => (s.b.table pos).numNodes + (s.holder pos).owed

/-- The buckets by number. -/
theorem index_lt {size : UInt64} {i : Nat} (small : i < size.toNat) :
    i.toUInt64.toNat = i ∧ i.toUInt64 < size := by
  have back : i.toUInt64.toNat = i := UInt64.toNat_ofNat_of_lt' (Nat.lt_trans small size.toNat_lt)
  exact ⟨back, by rw [UInt64.lt_iff_toNat_lt, back]; exact small⟩

theorem sumTable_congr {size : UInt64} {f g : UInt64 → UInt64} (same : ∀ q, q < size → f q = g q) :
    sumTable size f = sumTable size g :=
  Finset.sum_congr rfl fun _ hi => same _ (index_lt (Finset.mem_range.mp hi)).2

/-- A sum over the buckets of which one changes. -/
theorem sumTable_change {size pos : UInt64} {f g : UInt64 → UInt64} (inside : pos < size)
    (same : ∀ q, q < size → q ≠ pos → g q = f q) :
    sumTable size g + f pos = sumTable size f + g pos := by
  have mem : pos.toNat ∈ Finset.range size.toNat :=
    Finset.mem_range.mpr (UInt64.lt_iff_toNat_lt.mp inside)
  have index : pos.toNat.toUInt64 = pos := UInt64.ofNat_toNat
  have rest : ∑ i ∈ (Finset.range size.toNat).erase pos.toNat, g i.toUInt64 =
      ∑ i ∈ (Finset.range size.toNat).erase pos.toNat, f i.toUInt64 := by
    apply Finset.sum_congr rfl
    intro i hi
    obtain ⟨other, below⟩ := Finset.mem_erase.mp hi
    obtain ⟨back, inside⟩ := index_lt (Finset.mem_range.mp below)
    exact same _ inside fun eq => other (by rw [← eq, back])
  unfold sumTable
  rw [← Finset.add_sum_erase _ _ mem, ← Finset.add_sum_erase _ (fun i => f i.toUInt64) mem, rest, index]
  abel

theorem Phase.Knows.congr {pl pl' : MemoryPool K V} {head : Nat} {l : List Nat} {phase : Phase K V}
    (knows : phase.Knows ops pl head l)
    (keys : ∀ a ∈ l, (pl'.memory a).key = (pl.memory a).key) : phase.Knows ops pl' head l := by
  have inserts : ∀ {k p n}, InsertsAt ops pl head l k p n → InsertsAt ops pl' head l k p n := by
    rintro k p n ⟨before, left, right, split, behind, rfl, rfl, low, high, absent⟩
    refine ⟨before, left, right, split, behind, rfl, rfl, ?_, ?_, ?_⟩
    · intro a ha
      rw [keys a (List.mem_append_left _ ha)]
      exact low a ha
    · intro a ha
      rw [keys a (List.mem_append_right _ ha)]
      exact high a ha
    · intro a ha
      rw [keys a ha]
      exact absent a ha
  cases phase with
  | insertCount k v p n => exact inserts knows
  | insertPop k v p n point => exact inserts knows
  | insertLink k v p n newNode => exact inserts knows
  | eraseUnlink k p n =>
      obtain ⟨before, left, right, split, behind, rfl, has⟩ := knows
      refine ⟨before, left, right, split, behind, rfl, ?_⟩
      rw [hasKey, keys n (List.mem_append_right _ List.mem_cons_self)]
      exact has
  | _ => trivial

section Steps

variable {s : State K V} {t : Nat} {k : K} {body' : UInt64 → List Nat} {now phase : Phase K V}

/-- A thread outside the buckets holds no mutex. -/
theorem Good.not_locked (good : Good ops s body) (outside : (s.threads t).inside = none) {q : UInt64} :
    s.locks q ≠ some t := by
  intro held
  obtain ⟨k, inside, -⟩ := (good.locked q t).mp held
  rw [outside] at inside
  cases inside

/-- Another bucket is locked by another thread, if at all. -/
theorem Good.holder_ne (good : Good ops s body) (here : s.threads t = now)
    (locked : now.inside = some k) {q : UInt64} (other : q ≠ s.b.keyToIndex ops k) :
    s.locks q ≠ some t := by
  intro held
  obtain ⟨k', inside, index⟩ := (good.locked q t).mp held
  rw [here, locked, Option.some.injEq] at inside
  rw [← inside] at index
  exact other index.symm

/-- Where the thread holds no mutex, before and after, the holder stays. -/
theorem holder_goTo {locks : UInt64 → Option Nat} {q : UInt64} (same : locks q = s.locks q)
    (notMine : s.locks q ≠ some t) :
    ({ s with locks := locks }.goTo t b' phase).holder q = s.holder q := by
  cases held : s.locks q with
  | none => simp only [State.holder, State.goTo, same, held]
  | some u =>
      have different : u ≠ t := fun eq => notMine (by rw [held, eq])
      simp only [State.holder, State.goTo, same, held, Function.update_of_ne different]

theorem Good.mine (good : Good ops s body) (here : s.threads t = now) (locked : now.inside = some k) :
    s.locks (s.b.keyToIndex ops k) = some t :=
  (good.locked _ t).mpr ⟨k, here ▸ locked, rfl⟩

theorem Good.holder_self (good : Good ops s body) (here : s.threads t = now)
    (locked : now.inside = some k) : s.holder (s.b.keyToIndex ops k) = now := by
  simp only [State.holder, good.mine here locked, here]

theorem Good.counts_self (good : Good ops s body) (here : s.threads t = now)
    (locked : now.inside = some k) :
    (s.b.table (s.b.keyToIndex ops k)).numNodes =
      UInt64.ofNat (body (s.b.keyToIndex ops k)).length + now.ahead := by
  rw [good.counts _ (good.inv.index_lt k), good.holder_self here locked]

theorem Good.knows_self (good : Good ops s body) (here : s.threads t = now)
    (locked : now.inside = some k) :
    now.Knows ops s.b.pl (s.b.table (s.b.keyToIndex ops k)).head (body (s.b.keyToIndex ops k)) := by
  subst here
  exact good.knows t k locked

theorem counters_change {allocated removed allocated' removed' sum sum' owed owed' : UInt64}
    (before : allocated = removed + sum) (change : sum' + owed = sum + owed')
    (total : allocated' + removed + owed = allocated + removed' + owed') :
    allocated' = removed' + sum' := by
  grind

/-- The rule for a step of a thread in the bucket it has locked: the other buckets stay, and
the counters of the table change by what the thread owes less. -/
theorem Good.goOn (good : Good ops s body) (here : s.threads t = now) (locked : now.inside = some k)
    (there : phase.inside = some k) (size : b'.maxSize = s.b.maxSize) (inv : Inv ops b' body')
    (parts : Parted (s.goTo t b' phase) body') (chunks : b'.pl.Chunks)
    (others : ∀ q, q < s.b.maxSize → q ≠ s.b.keyToIndex ops k → b'.table q = s.b.table q ∧
      body' q = body q ∧ ∀ a ∈ body q, (b'.pl.memory a).key = (s.b.pl.memory a).key)
    (knows : phase.Knows ops b'.pl (b'.table (s.b.keyToIndex ops k)).head
      (body' (s.b.keyToIndex ops k)))
    (counts : (b'.table (s.b.keyToIndex ops k)).numNodes =
      UInt64.ofNat (body' (s.b.keyToIndex ops k)).length + phase.ahead)
    (total : b'.allocated + s.b.removed +
        ((s.b.table (s.b.keyToIndex ops k)).numNodes + now.owed) =
      s.b.allocated + b'.removed + ((b'.table (s.b.keyToIndex ops k)).numNodes + phase.owed)) :
    Good ops (s.goTo t b' phase) body' := by
  have inside := good.inv.index_lt k
  have index : ∀ q, b'.keyToIndex ops q = s.b.keyToIndex ops q := fun q => by
    rw [keyToIndex, size, keyToIndex]
  have mine := good.mine here locked
  have holder : (s.goTo t b' phase).holder (s.b.keyToIndex ops k) = phase := by
    simp only [State.holder, State.goTo, mine, Function.update_self]
  have holders : ∀ q, q ≠ s.b.keyToIndex ops k → (s.goTo t b' phase).holder q = s.holder q :=
    fun q other => holder_goTo rfl (good.holder_ne here locked other)
  constructor
  · exact inv
  · exact parts
  · exact chunks
  · intro q u
    show s.locks q = some u ↔ _
    simp only [State.goTo, index]
    rw [good.locked]
    by_cases eq : u = t
    · rw [eq, Function.update_self, here, locked, there]
    · rw [Function.update_of_ne eq]
  · intro u k' inside'
    simp only [State.goTo, index] at inside' ⊢
    by_cases eq : u = t
    · subst eq
      rw [Function.update_self, there, Option.some.injEq] at inside'
      rw [Function.update_self, ← inside']
      exact knows
    · rw [Function.update_of_ne eq] at inside' ⊢
      have other : s.b.keyToIndex ops k' ≠ s.b.keyToIndex ops k := by
        intro same
        have theirs := (good.locked _ u).mpr ⟨k', inside', same⟩
        rw [mine] at theirs
        exact eq (Option.some.inj theirs).symm
      obtain ⟨table, nodes, keys⟩ := others _ (good.inv.index_lt k') other
      rw [table, nodes]
      exact (good.knows u k' inside').congr keys
  · intro q hq
    by_cases eq : q = s.b.keyToIndex ops k
    · rw [eq, holder]
      exact counts
    · obtain ⟨table, nodes, -⟩ := others q (size ▸ hq) eq
      rw [holders q eq]
      show (b'.table q).numNodes = _
      rw [table, nodes]
      exact good.counts q (size ▸ hq)
  · have change := sumTable_change
      (f := fun q => (s.b.table q).numNodes + (s.holder q).owed)
      (g := fun q => (b'.table q).numNodes + ((s.goTo t b' phase).holder q).owed) inside (by
        intro q hq other
        simp only [(others q hq other).1, holders q other])
    have before := good.total
    simp only [holder, good.holder_self here locked] at change
    show b'.allocated = b'.removed + sumTable b'.maxSize _
    rw [size]
    exact counters_change before change total

/-- A step that moves no node and writes to none. -/
theorem Good.quiet (good : Good ops s body) (here : s.threads t = now) (locked : now.inside = some k)
    (there : phase.inside = some k) (size : b'.maxSize = s.b.maxSize) {freeNodes : UInt64}
    (pool : b'.pl = { s.b.pl with freeNodes := freeNodes })
    (others : ∀ q, q ≠ s.b.keyToIndex ops k → b'.table q = s.b.table q)
    (head : (b'.table (s.b.keyToIndex ops k)).head = (s.b.table (s.b.keyToIndex ops k)).head)
    (held : phase.held = now.held)
    (pending : phase.pending s.b.pl.chunkSize.toNat = now.pending s.b.pl.chunkSize.toNat)
    (knows : phase.Knows ops s.b.pl (s.b.table (s.b.keyToIndex ops k)).head
      (body (s.b.keyToIndex ops k)))
    (counts : (b'.table (s.b.keyToIndex ops k)).numNodes =
      UInt64.ofNat (body (s.b.keyToIndex ops k)).length + phase.ahead)
    (total : b'.allocated + s.b.removed +
        ((s.b.table (s.b.keyToIndex ops k)).numNodes + now.owed) =
      s.b.allocated + b'.removed + ((b'.table (s.b.keyToIndex ops k)).numNodes + phase.owed)) :
    Good ops (s.goTo t b' phase) body := by
  have heads : ∀ q, (b'.table q).head = (s.b.table q).head := by
    intro q
    by_cases eq : q = s.b.keyToIndex ops k
    · rw [eq, head]
    · rw [others q eq]
  have memory : b'.pl.memory = s.b.pl.memory := by rw [pool]
  have inv : Inv ops b' body := by
    refine good.inv.congr size heads ?_ fun a _ => by rw [memory]
    rw [pool]
    exact good.inv.pool.congr rfl rfl rfl
  have parts : Parted (s.goTo t b' phase) body :=
    good.parts.keep size heads (by rw [pool]) (by rw [pool]) (by rw [pool]) (by rw [pool])
      (here ▸ held) (here ▸ pending)
  have chunks : b'.pl.Chunks := by
    rw [pool]
    exact good.chunks
  refine good.goOn here locked there size inv parts chunks ?_ ?_ counts total
  · intro q _ other
    exact ⟨others q other, rfl, fun a _ => by rw [memory]⟩
  · rw [head]
    exact knows.congr fun a _ => by rw [memory]

variable {v : V} {p : Nat} {n : Option Nat}

/-- A step of `memory_pool_pop`. -/
theorem Good.pop [Inhabited K] [Inhabited V] (good : Good ops s body) {point : MemoryPool.Pop}
    (here : s.threads t = .insertPop k v p n point) :
    Good ops (s.goTo t { s.b with pl := (s.b.pl.popStep point).1 }
      (.popped k v p n (s.b.pl.popStep point).2)) body := by
  have parts := good.parts.pop here
  have kept : ∀ a, s.b.Used body a → (s.b.pl.popStep point).1.memory a = s.b.pl.memory a := by
    intro a used
    apply MemoryPool.popStep_kept
    · intro free
      have queued : a ∈ contents s body .free := free
      exact good.parts.not_used queued (by simp) (by simp) used
    · rintro chunk i rfl unfilled rfl
      have pending : chunk + i ∈ contents s body (.pending t) := by
        simp only [contents, here, Phase.pending, List.mem_range'_1]
        omega
      exact good.parts.not_used pending (by simp) (by simp) used
  have pool := parts.pool (by
    show 0 < (s.b.pl.popStep point).1.chunkSize
    rw [MemoryPool.popStep_chunkSize]
    exact good.inv.pool.chunk)
  have inv : Inv ops { s.b with pl := (s.b.pl.popStep point).1 } body :=
    good.inv.congr rfl (fun _ => rfl) pool kept
  have knows : InsertsAt ops s.b.pl (s.b.table (s.b.keyToIndex ops k)).head
      (body (s.b.keyToIndex ops k)) k p n :=
    good.knows_self here rfl
  have counted := good.counts_self here rfl
  refine good.goOn here rfl ?_ rfl inv parts (MemoryPool.Chunks.popStep point good.chunks) ?_ ?_ ?_ ?_
  · cases (s.b.pl.popStep point).2 <;> rfl
  · intro q hq _
    exact ⟨rfl, rfl, fun a ha => by rw [kept a (good.inv.used_of_mem hq ha)]⟩
  · have still : (Phase.popped k v p n (s.b.pl.popStep point).2).Knows ops s.b.pl
        (s.b.table (s.b.keyToIndex ops k)).head (body (s.b.keyToIndex ops k)) := by
      cases (s.b.pl.popStep point).2 <;> exact knows
    exact still.congr fun a ha => by rw [kept a (good.inv.used_of_mem (good.inv.index_lt k) ha)]
  · cases (s.b.pl.popStep point).2 <;> exact counted
  · cases (s.b.pl.popStep point).2 <;> rfl

/-- The node a thread got from the pool is linked into the bucket. -/
theorem Good.link (good : Good ops s body) {newNode : Nat}
    (here : s.threads t = .insertLink k v p n newNode) :
    ∃ body', Good ops (s.goTo t (linkNode ops s.b k v p n newNode)
      (.unlock k (.insert retInserted))) body' := by
  have inside := good.inv.index_lt k
  have knows := good.knows_self here rfl
  have counted := good.counts_self here rfl
  obtain ⟨before, left, right, split, behind, nodes, rfl, low, high, absent⟩ := knows
  have mine : newNode ∈ (s.threads t).held := by
    rw [here]
    exact List.mem_singleton_self newNode
  have popped := good.parts.popped good.inv.pool.chunk mine
  have linked : Inv ops (linkNode ops s.b k v p right.head? newNode)
      (Function.update body (s.b.keyToIndex ops k) (left ++ newNode :: right)) :=
    (good.inv.link v popped split low high absent behind nodes
      ((s.b.table (s.b.keyToIndex ops k)).numNodes + 1) s.b.allocated).1
  have pool : (linkNode ops s.b k v p right.head? newNode).pl =
      { s.b.pl with memory := (linkNode ops s.b k v p right.head? newNode).pl.memory } := rfl
  have chunks : (linkNode ops s.b k v p right.head? newNode).pl.Chunks :=
    good.chunks.congr (by rw [pool]) (by rw [pool]) (by rw [pool])
  have heads := head_update s.b.table (s.b.keyToIndex ops k)
    ((s.b.table (s.b.keyToIndex ops k)).numNodes + 1)
  refine ⟨Function.update body (s.b.keyToIndex ops k) (left ++ newNode :: right), ?_⟩
  refine good.goOn here rfl rfl rfl linked ?_ chunks ?_ trivial ?_ ?_
  · have malloc : (linkNode ops s.b k v p right.head? newNode).pl.mallocNext = s.b.pl.mallocNext := by
      rw [pool]
    show Partition _ (· < (linkNode ops s.b k v p right.head? newNode).pl.mallocNext)
    rw [malloc]
    refine Partition.move (i := .held t) (j := .chain (s.b.keyToIndex ops k)) (a := newNode)
      good.parts (by simp) ?_ ?_ ?_
    · simp only [contents, here, State.goTo, Function.update_self]
      exact List.Perm.refl _
    · have same : contents s body (.chain (s.b.keyToIndex ops k)) = left ++ right := by
        simp only [contents, if_pos inside, nodes]
      rw [same]
      simp only [contents, State.goTo, linkNode, if_pos inside, Function.update_self]
      exact List.perm_middle
    · intro l notHeld notChain
      refine contents_goTo rfl heads (by rw [pool]) (fun _ => by rw [pool]) (fun _ => by rw [pool])
        (fun eq => absurd eq notHeld) (fun _ => by rw [here]; rfl) ?_
      rintro pos rfl
      exact Function.update_of_ne (fun eq => notChain (by rw [eq])) _ _
  · intro q hq other
    refine ⟨Function.update_of_ne other _ _, Function.update_of_ne other _ _, ?_⟩
    intro a ha
    have notNew : a ≠ newNode := fun eq => popped.fresh (eq ▸ good.inv.used_of_mem hq ha)
    simp only [linkNode, MemoryPool.setNext_key, MemoryPool.setValue_key, MemoryPool.setKey_key,
      if_neg notNew]
  · simp only [linkNode, Function.update_self, counted, nodes, List.length_append, List.length_cons,
      Phase.ahead, UInt64.ofNat_add, UInt64.add_zero, ← UInt64.add_assoc]
    rfl
  · simp only [linkNode, Function.update_self, Phase.owed, UInt64.add_zero]

/-- The node of the key is taken out of the bucket. -/
theorem Good.unlink (good : Good ops s body) {m : Nat} (here : s.threads t = .eraseUnlink k p m) :
    ∃ body', Good ops (s.goTo t { s.b with pl := s.b.pl.setNext p (s.b.pl.memory m).next }
      (.erasePush k m)) body' := by
  have inside := good.inv.index_lt k
  have knows := good.knows_self here rfl
  have counted := good.counts_self here rfl
  obtain ⟨before, left, right, split, behind, nodes, has⟩ := knows
  have mem : m ∈ body (s.b.keyToIndex ops k) := by
    rw [nodes]
    exact List.mem_append_right _ List.mem_cons_self
  have pool : (s.b.pl.setNext p (s.b.pl.memory m).next).Inv fun a => s.b.Used body a ∧ a ≠ m := by
    have before := good.inv.pool
    refine ⟨before.chunk, before.nodup, ?_, before.queued_lt, fun a used => before.used_lt a used.1⟩
    exact fun a waits used => before.unused a waits used.1
  have unlinked := (good.inv.detach split has behind nodes rfl pool
    (s.b.table (s.b.keyToIndex ops k)).numNodes s.b.removed).1
  simp only [Function.update_eq_self] at unlinked
  refine ⟨Function.update body (s.b.keyToIndex ops k) (left ++ right), ?_⟩
  refine good.goOn here rfl rfl rfl unlinked ?_ good.chunks ?_ trivial ?_ ?_
  · refine Partition.move (i := .chain (s.b.keyToIndex ops k)) (j := .held t) (a := m)
      good.parts (by simp) ?_ ?_ ?_
    · have same : contents s body (.chain (s.b.keyToIndex ops k)) = left ++ m :: right := by
        simp only [contents, if_pos inside, nodes]
      rw [same]
      simp only [contents, State.goTo, if_pos inside, Function.update_self]
      exact List.perm_middle
    · simp only [contents, here, State.goTo, Function.update_self]
      exact List.Perm.refl _
    · intro l notChain notHeld
      refine contents_goTo rfl (fun _ => rfl) rfl (fun _ => rfl) (fun _ => rfl)
        (fun eq => absurd eq notHeld) (fun _ => by rw [here]; rfl) ?_
      rintro pos rfl
      exact Function.update_of_ne (fun eq => notChain (by rw [eq])) _ _
  · intro q hq other
    refine ⟨rfl, Function.update_of_ne other _ _, ?_⟩
    exact fun a _ => MemoryPool.setNext_key ..
  · simp only [Function.update_self, counted, nodes, List.length_append, List.length_cons, Phase.ahead,
      UInt64.ofNat_add, UInt64.add_zero, ← UInt64.add_assoc]
    rfl
  · rfl

/-- The node of the key goes to the free queue. -/
theorem Good.push (good : Good ops s body) {m : Nat} (here : s.threads t = .erasePush k m) :
    Good ops (s.goTo t { s.b with pl := { s.b.pl with freeQueue := s.b.pl.freeQueue ++ [m] } }
      (.eraseFreeNodes k)) body := by
  have counted := good.counts_self here rfl
  have parts : Parted (s.goTo t
      { s.b with pl := { s.b.pl with freeQueue := s.b.pl.freeQueue ++ [m] } }
      (.eraseFreeNodes k)) body := by
    refine Partition.move (i := .held t) (j := .free) (a := m) good.parts (by simp) ?_ ?_ ?_
    · simp only [contents, here, State.goTo, Function.update_self]
      exact List.Perm.refl _
    · exact List.perm_append_singleton m s.b.pl.freeQueue
    · intro l notHeld notFree
      exact contents_goTo rfl (fun _ => rfl) rfl (fun _ => rfl) (fun eq => absurd eq notFree)
        (fun eq => absurd eq notHeld) (fun _ => by rw [here]; rfl) fun _ _ => rfl
  have inv : Inv ops { s.b with pl := { s.b.pl with freeQueue := s.b.pl.freeQueue ++ [m] } } body :=
    good.inv.congr rfl (fun _ => rfl) (parts.pool good.inv.pool.chunk) fun _ _ => rfl
  refine good.goOn here rfl rfl rfl inv parts good.chunks ?_ trivial counted ?_
  · exact fun q _ _ => ⟨rfl, rfl, fun _ _ => rfl⟩
  · rfl

/-- A thread begins a call, gets a mutex or gives it back: nothing else changes. -/
theorem Good.relock (good : Good ops s body) {locks : UInt64 → Option Nat}
    (free : (s.threads t).held = [] ∧ (s.threads t).pending s.b.pl.chunkSize.toNat = [])
    (still : phase.held = [] ∧ phase.pending s.b.pl.chunkSize.toNat = [])
    (knows : ∀ head l, phase.Knows ops s.b.pl head l)
    (locked : ∀ q u, locks q = some u ↔ ∃ k, (Function.update s.threads t phase u).inside = some k ∧
      s.b.keyToIndex ops k = q)
    (debts : ∀ q, (({ s with locks := locks }.goTo t s.b phase).holder q).ahead = (s.holder q).ahead ∧
      (({ s with locks := locks }.goTo t s.b phase).holder q).owed = (s.holder q).owed) :
    Good ops ({ s with locks := locks }.goTo t s.b phase) body := by
  have parts : Parted (s.goTo t s.b phase) body :=
    good.parts.keep rfl (fun _ => rfl) rfl rfl rfl rfl (still.1.trans free.1.symm)
      (still.2.trans free.2.symm)
  refine ⟨good.inv, parts, good.chunks, locked, ?_, ?_, ?_⟩
  · intro u k inside
    by_cases eq : u = t
    · subst eq
      simp only [State.goTo, Function.update_self]
      exact knows _ _
    · simp only [State.goTo, Function.update_of_ne eq] at inside ⊢
      exact good.knows u k inside
  · intro q hq
    rw [(debts q).1]
    exact good.counts q hq
  · simp only [debts]
    exact good.total

/-- A thread gets the mutex of a bucket. -/
theorem Good.lock (good : Good ops s body) {s' : State K V}
    (taken : s.lock ops t k phase = some s') (outside : (s.threads t).inside = none)
    (free : (s.threads t).held = [] ∧ (s.threads t).pending s.b.pl.chunkSize.toNat = [])
    (there : phase.inside = some k)
    (still : phase.held = [] ∧ phase.pending s.b.pl.chunkSize.toNat = [])
    (knows : ∀ head l, phase.Knows ops s.b.pl head l) (debts : phase.ahead = 0 ∧ phase.owed = 0) :
    Good ops s' body := by
  obtain ⟨-, unlocked, rfl⟩ := (State.lock_eq_some_iff ops).mp taken
  refine good.relock free still knows ?_ ?_
  · intro q u
    by_cases eq : u = t
    · subst eq
      rw [Function.update_self, there]
      by_cases here : q = s.b.keyToIndex ops k
      · rw [here, Function.update_self]
        exact ⟨fun _ => ⟨k, rfl, rfl⟩, fun _ => rfl⟩
      · rw [Function.update_of_ne here]
        constructor
        · exact fun held => absurd held (good.not_locked outside)
        · rintro ⟨k', inside, index⟩
          cases inside
          exact absurd index.symm here
    · rw [Function.update_of_ne eq, ← good.locked]
      by_cases here : q = s.b.keyToIndex ops k
      · rw [here, Function.update_self, unlocked]
        constructor
        · intro same
          exact absurd (Option.some.inj same).symm eq
        · intro held
          cases held
      · rw [Function.update_of_ne here]
  · intro q
    by_cases here : q = s.b.keyToIndex ops k
    · subst here
      simp only [State.holder, State.goTo, Function.update_self, unlocked]
      exact debts
    · rw [holder_goTo (Function.update_of_ne here _ _) (good.not_locked outside)]
      exact ⟨rfl, rfl⟩

/-- A thread leaves the bucket it has locked. -/
theorem Good.unlock (good : Good ops s body) {ret : Answer Unit} (here : s.threads t = .unlock k ret) :
    Good ops ({ s with locks := Function.update s.locks (s.b.keyToIndex ops k) none }.goTo t s.b .idle)
      body := by
  have mine := good.mine here rfl
  refine good.relock (by rw [here]; exact ⟨rfl, rfl⟩) ⟨rfl, rfl⟩ (fun _ _ => trivial) ?_ ?_
  · intro q u
    by_cases eq : u = t
    · subst eq
      rw [Function.update_self]
      constructor
      · intro held
        by_cases same : q = s.b.keyToIndex ops k
        · rw [same, Function.update_self] at held
          cases held
        · rw [Function.update_of_ne same] at held
          exact absurd held (good.holder_ne here rfl same)
      · rintro ⟨k', inside, -⟩
        cases inside
    · rw [Function.update_of_ne eq, ← good.locked]
      by_cases same : q = s.b.keyToIndex ops k
      · rw [same, Function.update_self, mine]
        constructor
        · intro held
          cases held
        · intro held
          exact absurd (Option.some.inj held).symm eq
      · rw [Function.update_of_ne same]
  · intro q
    by_cases same : q = s.b.keyToIndex ops k
    · subst same
      simp only [State.holder, State.goTo, Function.update_self, mine, here]
      exact ⟨rfl, rfl⟩
    · rw [holder_goTo (Function.update_of_ne same _ _) (good.holder_ne here rfl same)]
      exact ⟨rfl, rfl⟩

/-- A thread begins a call. -/
theorem Good.call (good : Good ops s body) (c : Call K V) (idle : s.threads t = .idle) :
    Good ops (s.goTo t s.b c.begin) body := by
  have outside : (s.threads t).inside = none := by rw [idle]; rfl
  have outside' : c.begin.inside = none := by cases c <;> rfl
  refine good.relock (by rw [idle]; exact ⟨rfl, rfl⟩) ?_ ?_ ?_ ?_
  · cases c <;> exact ⟨rfl, rfl⟩
  · cases c <;> exact fun _ _ => trivial
  · intro q u
    rw [good.locked]
    by_cases eq : u = t
    · rw [eq, Function.update_self, outside, outside']
    · rw [Function.update_of_ne eq]
  · intro q
    rw [holder_goTo rfl (good.not_locked outside)]
    exact ⟨rfl, rfl⟩

section Walks

variable [Inhabited K] [Inhabited V] {s' : State K V}

/-- The loop of `insert` finds the key, or the place for it. -/
theorem Good.insertWalk (good : Good ops s body) (here : s.threads t = .insertWalk k v)
    (taken : next ops t s = some s') : Good ops s' body := by
  have inside := good.inv.index_lt k
  have counted := good.counts_self here rfl
  obtain ⟨before, r, right, split, walked, low, high⟩ := insertWalk_spec k
    (s.b.table (s.b.keyToIndex ops k)).head false (good.inv.bucket _ inside)
    (good.inv.length_le inside)
  obtain ⟨left, behind, nodes⟩ := split_behind split
  rw [Bool.false_or] at walked
  simp only [next, here, walked, Option.bind_eq_bind, Option.bind_some] at taken
  split at taken
  · cases taken
    exact good.quiet here rfl rfl rfl rfl (fun _ _ => rfl) rfl rfl rfl trivial counted rfl
  · rename_i notFound
    cases taken
    have absent : ∀ a ∈ body (s.b.keyToIndex ops k), ¬ ops.equal (s.b.pl.memory a).key k :=
      fun a ha same => notFound (List.any_eq_true.mpr ⟨a, ha, same⟩)
    have lowLeft : ∀ a ∈ left, ops.hash (s.b.pl.memory a).key ≤ ops.hash k := by
      intro a ha
      apply (low a (behind ▸ List.mem_cons_of_mem _ ha)).resolve_left
      intro eq
      exact good.inv.sentinel _ inside (eq ▸ nodes ▸ List.mem_append_left _ ha)
    have knows : InsertsAt ops s.b.pl (s.b.table (s.b.keyToIndex ops k)).head
        (body (s.b.keyToIndex ops k)) k r right.head? :=
      ⟨before, left, right, split, behind, nodes, rfl, lowLeft, high, absent⟩
    exact good.quiet here rfl rfl rfl rfl (fun _ _ => rfl) rfl rfl rfl knows counted rfl

/-- The loop of `erase` stops at the node of the key, or the key is not there. -/
theorem Good.eraseWalk (good : Good ops s body) (here : s.threads t = .eraseWalk k)
    (taken : next ops t s = some s') : Good ops s' body := by
  have inside := good.inv.index_lt k
  have counted := good.counts_self here rfl
  obtain ⟨before, r, right, split, walked, -⟩ := eraseWalk_spec k
    (s.b.table (s.b.keyToIndex ops k)).head (good.inv.bucket _ inside) (good.inv.length_le inside)
  have left : Good ops (s.goTo t s.b (.unlock k (.erase false))) body :=
    good.quiet here rfl rfl rfl rfl (fun _ _ => rfl) rfl rfl rfl trivial counted rfl
  simp only [next, here, walked, Option.bind_eq_bind, Option.bind_some] at taken
  cases right with
  | nil =>
      cases taken
      exact left
  | cons m rest =>
      simp only [List.head?_cons] at taken
      split at taken
      · rename_i same
        cases taken
        obtain ⟨left, behind, nodes⟩ := split_behind split
        have knows : ErasesAt ops s.b.pl (s.b.table (s.b.keyToIndex ops k)).head
            (body (s.b.keyToIndex ops k)) k r m :=
          ⟨before, left, rest, split, behind, nodes, same⟩
        exact good.quiet here rfl rfl rfl rfl (fun _ _ => rfl) rfl rfl rfl knows counted rfl
      · cases taken
        exact left

/-- **Every step of a call keeps the invariant.** -/
theorem Good.next (good : Good ops s body) (taken : next ops t s = some s') :
    ∃ body', Good ops s' body' := by
  cases here : s.threads t with
  | idle =>
      simp only [Threads.next, here] at taken
      cases taken
  | insertLock k v =>
      simp only [Threads.next, here] at taken
      exact ⟨body, good.lock taken (by rw [here]; rfl) (by rw [here]; exact ⟨rfl, rfl⟩) rfl ⟨rfl, rfl⟩
        (fun _ _ => trivial) ⟨rfl, rfl⟩⟩
  | insertWalk k v => exact ⟨body, good.insertWalk here taken⟩
  | insertCount k v p n =>
      have counted := good.counts_self here rfl
      have knows := good.knows_self here rfl
      simp only [Threads.next, here] at taken
      cases taken
      refine ⟨body, good.quiet here rfl rfl rfl rfl (fun _ _ => rfl) rfl rfl rfl knows counted ?_⟩
      simp only [Phase.owed]
      abel
  | insertPop k v p n point =>
      rw [next_pop ops here] at taken
      cases taken
      exact ⟨body, good.pop here⟩
  | insertLink k v p n newNode =>
      simp only [Threads.next, here] at taken
      cases taken
      exact good.link here
  | eraseLock k =>
      simp only [Threads.next, here] at taken
      exact ⟨body, good.lock taken (by rw [here]; rfl) (by rw [here]; exact ⟨rfl, rfl⟩) rfl ⟨rfl, rfl⟩
        (fun _ _ => trivial) ⟨rfl, rfl⟩⟩
  | eraseWalk k => exact ⟨body, good.eraseWalk here taken⟩
  | eraseUnlink k p n =>
      simp only [Threads.next, here] at taken
      cases taken
      exact good.unlink here
  | erasePush k n =>
      simp only [Threads.next, here] at taken
      cases taken
      exact ⟨body, good.push here⟩
  | eraseFreeNodes k =>
      have counted := good.counts_self here rfl
      simp only [Threads.next, here] at taken
      cases taken
      exact ⟨body, good.quiet here rfl rfl rfl rfl (fun _ _ => rfl) rfl rfl rfl trivial counted rfl⟩
  | eraseNumNodes k =>
      have counted := good.counts_self here rfl
      simp only [Threads.next, here] at taken
      cases taken
      refine ⟨body, good.quiet here rfl rfl rfl rfl
        (fun q other => Function.update_of_ne other _ _) ?_ rfl rfl trivial ?_ ?_⟩
      · simp only [Function.update_self]
      · simp only [Function.update_self, counted, Phase.ahead, UInt64.add_sub_cancel, UInt64.add_zero]
      · simp only [Function.update_self, Phase.owed, UInt64.sub_add_cancel, UInt64.add_zero]
  | eraseRemoved k =>
      have counted := good.counts_self here rfl
      simp only [Threads.next, here] at taken
      cases taken
      refine ⟨body, good.quiet here rfl rfl rfl rfl (fun _ _ => rfl) rfl rfl rfl trivial counted ?_⟩
      simp only [Phase.owed]
      abel
  | unlock k ret =>
      simp only [Threads.next, here] at taken
      cases taken
      exact ⟨body, good.unlock here⟩

end Walks

end Steps

end Hcl.BlockMap.Threads
