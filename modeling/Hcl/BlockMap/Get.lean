import Hcl.BlockMap.Refinement

/-!
`BlockMap::get`.

`get` is the one loop that starts at the sentinel of a bucket and not behind it, so the
key the sentinels carry, which the caller of the constructor chose, takes part in the
comparison: a sentinel of a greater hash ends the loop before the first node, and a
sentinel of an equal key counts as found. The sentinels carry that key for good
(`SentinelKeys`), so where the mutex of its bucket is free `get` agrees with `find` and with
the represented map at a key exactly when the key is present and its hash is not below the
sentinel's, or absent and not equal to the sentinel's key (`getAgrees_iff`).
-/

namespace Hcl.BlockMap

open Hcl.Lib

variable {K V A : Type} {ops : KeyOps K} {b b' : BlockMap K V} {body : UInt64 → List Nat} {key : K}

/-- Every sentinel carries the key. -/
def SentinelKeys (b : BlockMap K V) (key : K) : Prop :=
  ∀ pos, pos < b.maxSize → (b.pl.memory (b.table pos).head).key = key

/-- An operation that keeps the sentinels and their keys. -/
theorem SentinelKeys.of_heads (keys : SentinelKeys b key) (size : b'.maxSize = b.maxSize)
    (heads : ∀ pos, (b'.table pos).head = (b.table pos).head)
    (kept : ∀ pos, pos < b.maxSize →
      (b'.pl.memory (b.table pos).head).key = (b.pl.memory (b.table pos).head).key) :
    SentinelKeys b' key := by
  intro pos inside
  rw [size] at inside
  rw [heads, kept pos inside]
  exact keys pos inside

/-! ### The operations keep the keys of the sentinels -/

/-- The loop changes no key. -/
theorem scan_keys {S : Type} {onEqual : Nat → MemoryPool K V → S → MemoryPool K V × S}
    (keeps : KeepsShape onEqual) {k : K} {fuel : Nat} {p : Option Nat} {pl pl' : MemoryPool K V}
    {found found' : Bool} {s s' : S}
    (done : scan ops onEqual k fuel p pl found s = some (pl', found', s')) (a : Nat) :
    (pl'.memory a).key = (pl.memory a).key := by
  induction fuel generalizing p pl found s with
  | zero =>
      cases p with
      | none =>
          cases done
          rfl
      | some n => cases done
  | succ fuel ih =>
      cases p with
      | none =>
          cases done
          rfl
      | some n =>
          rw [scan] at done
          by_cases same : ops.equal (pl.memory n).key k = true
          · have acted := (keeps n pl s a).1
            simp only [same, if_true] at done
            split at done
            · cases done
              exact acted
            · exact (ih done).trans acted
          · simp only [same, Bool.false_eq_true, if_false] at done
            split at done
            · cases done
              rfl
            · exact ih done

theorem SentinelKeys.insert [Inhabited K] [Inhabited V] (inv : Inv ops b body)
    (keys : SentinelKeys b key) {k : K} {v : V} {ret : UInt32}
    (done : b.insert ops k v = some (b', ret)) : SentinelKeys b' key := by
  simp only [BlockMap.insert, Option.bind_eq_bind, Option.bind_eq_some_iff] at done
  obtain ⟨-, -, ⟨p, n, found⟩, -, done⟩ := done
  cases found with
  | true =>
      cases done
      exact keys
  | false =>
      obtain ⟨node, pl', pop, popped⟩ := MemoryPool.memoryPoolPop_spec inv.pool
      simp only [Bool.false_eq_true, if_false, pop, Option.bind_some, Option.pure_def,
        Option.some.injEq, Prod.mk.injEq] at done
      obtain ⟨rfl, -⟩ := done
      refine keys.of_heads ?_ ?_ ?_
      · rfl
      · exact fun q => head_update ..
      · intro pos inside
        have used : b.Used body (b.table pos).head := ⟨pos, inside, List.mem_cons_self⟩
        have other : (b.table pos).head ≠ node := fun same => popped.fresh (same ▸ used)
        simp only [MemoryPool.setNext_key, MemoryPool.setValue_key, MemoryPool.setKey_key,
          if_neg other]
        rw [popped.frame _ used]

theorem SentinelKeys.erase (keys : SentinelKeys b key) {k : K} {found : Bool}
    (done : b.erase ops k = some (b', found)) : SentinelKeys b' key := by
  simp only [BlockMap.erase, Option.bind_eq_bind, Option.bind_eq_some_iff] at done
  obtain ⟨-, -, ⟨p, n⟩, -, done⟩ := done
  cases n with
  | none =>
      cases done
      exact keys
  | some n =>
      simp only at done
      split at done
      · cases done
        refine keys.of_heads ?_ ?_ ?_
        · rfl
        · exact fun q => head_update ..
        · intro pos _
          exact MemoryPool.setNext_key ..
      · cases done
        exact keys

/-- One operation. -/
theorem SentinelKeys.step [Inhabited K] [Inhabited V] (inv : Inv ops b body)
    (keys : SentinelKeys b key) {op : Op K V A} {answer : Answer A}
    (done : step ops b op = some (b', answer)) : SentinelKeys b' key := by
  have scanned : ∀ {S : Type} {onEqual : Nat → MemoryPool K V → S → MemoryPool K V × S}
      (_ : KeepsShape onEqual) {k : K} {p : Option Nat} {s : S} {out : MemoryPool K V × Bool × S},
      scan ops onEqual k b.pl.mallocNext p b.pl false s = some out →
        SentinelKeys { b with pl := out.1 } key := by
    intro S onEqual keeps k p s out done
    refine keys.of_heads ?_ ?_ ?_
    · rfl
    · exact fun _ => rfl
    · exact fun pos _ => scan_keys keeps done _
  cases op with
  | insert k v =>
      simp only [BlockMap.step, Option.bind_eq_bind, Option.bind_eq_some_iff] at done
      obtain ⟨⟨b₁, ret⟩, inserted, done⟩ := done
      cases done
      exact keys.insert inv inserted
  | find k =>
      simp only [BlockMap.step, find, Option.bind_eq_bind, Option.bind_eq_some_iff] at done
      obtain ⟨_, ⟨-, -, out, walked, made⟩, done⟩ := done
      cases made
      cases done
      exact scanned (fun _ _ _ _ => ⟨rfl, rfl⟩) walked
  | update k v =>
      simp only [BlockMap.step, update, Option.bind_eq_bind, Option.bind_eq_some_iff] at done
      obtain ⟨_, ⟨-, -, out, walked, made⟩, done⟩ := done
      cases made
      cases done
      exact scanned (fun _ _ _ _ => ⟨by simp, by simp⟩) walked
  | updateField k fn args =>
      simp only [BlockMap.step, updateField, Option.bind_eq_bind, Option.bind_eq_some_iff] at done
      obtain ⟨_, ⟨-, -, out, walked, made⟩, done⟩ := done
      cases made
      cases done
      exact scanned (fun _ _ _ _ => ⟨by simp, by simp⟩) walked
  | erase k =>
      simp only [BlockMap.step, Option.bind_eq_bind, Option.bind_eq_some_iff] at done
      obtain ⟨⟨b₁, found⟩, erased, done⟩ := done
      cases done
      exact keys.erase erased

/-- The constructor gives every sentinel the key it is called with. -/
theorem new_sentinelKeys [Inhabited K] [Inhabited V] {raw : RawTable} {n : UInt64} {csize : UInt32}
    (chunk : 0 < csize) {maxKey : K} {b : BlockMap K V}
    (built : new raw n (MemoryPool.new csize) maxKey = some b) : SentinelKeys b maxKey := by
  obtain ⟨sentinels, -, keys⟩ := new_rounds chunk built
    (P := fun i (b : BlockMap K V) => b.emptyKey = maxKey ∧
      ∀ pos : UInt64, pos.toNat < i → (b.pl.memory (b.table pos).head).key = maxKey)
    ⟨rfl, fun _ below => absurd below (Nat.not_lt_zero _)⟩ (by
      rintro i b b' _ sentinels done ⟨empty, keys⟩
      obtain ⟨head, pl', pop, popped⟩ := MemoryPool.memoryPoolPop_spec sentinels.pool
      simp only [constructBucket, pop, Option.bind_eq_bind, Option.bind_some, Option.pure_def,
        Option.some.injEq] at done
      subst done
      refine ⟨empty, ?_⟩
      intro pos below
      by_cases here : pos = i.toUInt64
      · simp only [here, Function.update_self, MemoryPool.setNext_key, MemoryPool.setKey_key, if_true]
        exact empty
      · have earlier : pos.toNat < i := by
          refine Nat.lt_of_le_of_ne (Nat.le_of_lt_succ below) ?_
          rintro rfl
          exact here UInt64.ofNat_toNat.symm
        have other : (b.table pos).head ≠ head := fun same => popped.fresh ⟨pos, earlier, same.symm⟩
        simp only [Function.update_of_ne here, MemoryPool.setNext_key, MemoryPool.setKey_key,
          if_neg other, popped.frame _ ⟨pos, earlier, rfl⟩]
        exact keys pos earlier)
  intro pos inside
  rw [sentinels.size] at inside
  exact keys pos (UInt64.lt_iff_toNat_lt.mp inside)

/-! ### get -/

/-- What `get` answers: nothing where the sentinel has a greater hash; else the value of
the key, if the table has it; else the value of the sentinel, if its key is equal. -/
theorem Inv.get_spec (inv : Inv ops b body) (keys : SentinelKeys b key) {k : K} (free : b.Free ops k)
    (v : V) :
    b.get ops k v = some (b,
      if ops.hash key > ops.hash k then (false, v)
      else
        match b.view ops k with
        | some value => (true, value)
        | none =>
            if ops.equal key k then (true, (b.pl.memory (b.table (b.keyToIndex ops k)).head).value)
            else (false, v)) := by
  have inside := inv.index_lt k
  have keeps : KeepsShape fun n (pl : MemoryPool K V) (_ : V) => (pl, (pl.memory n).value) :=
    fun _ _ _ _ => ⟨rfl, rfl⟩
  -- The sentinel and the nodes behind it are among the allocated ones.
  have enough : (body (b.keyToIndex ops k)).length + 1 ≤ b.pl.mallocNext :=
    (inv.block_chain inside).length_le fun a mem => inv.pool.used_lt a ⟨_, inside, mem⟩
  obtain ⟨fuel, rounds⟩ : ∃ fuel, b.pl.mallocNext = fuel + 1 := ⟨b.pl.mallocNext - 1, by omega⟩
  have behind : (body (b.keyToIndex ops k)).length ≤ fuel := by omega
  have linked : (b.pl.memory (b.table (b.keyToIndex ops k)).head).next =
      b.first (b.keyToIndex ops k) := rfl
  simp only [get, free.lock, Option.bind_eq_bind, Option.bind_some]
  rw [rounds, scan, keys _ inside, inv.view_eq k, stored]
  by_cases greater : ops.hash key > ops.hash k
  · have different : ops.equal key k = false :=
      Bool.eq_false_iff.mpr fun same => ops.not_greater same greater
    simp only [different, Bool.false_eq_true, if_false, keys _ inside, greater, if_true]
    rfl
  · cases same : ops.equal key k <;>
      cases found : (body (b.keyToIndex ops k)).find? (hasKey ops b.pl k) <;>
      simp only [Bool.false_eq_true, if_false, if_true, keys _ inside, greater, linked,
        scan_spec keeps (inv.bucket _ inside) behind, found, Option.bind_some, Option.pure_def,
        Option.map_some, Option.map_none]

/-- At a key, `get` agrees with `find`, with the represented map, and leaves `*v` where the
key is absent. -/
def GetAgrees (ops : KeyOps K) (b : BlockMap K V) (m : K → Option V) (k : K) (v : V) : Prop :=
  ∃ found v' pos, b.get ops k v = some (b, found, v') ∧ b.find ops k = some (b, pos) ∧
    (found = true ↔ pos ≠ notInTable) ∧ (found = true → m k = some v') ∧ (m k = none → v' = v)

/-- The condition: a key that is present has a hash that is not below the sentinel's, and a
key that is absent is not the sentinel's. -/
def Clear (ops : KeyOps K) (key : K) (m : K → Option V) (k : K) : Prop :=
  (∀ value, m k = some value → ops.hash key ≤ ops.hash k) ∧ (m k = none → ops.equal key k = false)

theorem Inv.find_ne_notInTable_iff (inv : Inv ops b body) (k : K) :
    (if (b.view ops k).isSome then b.keyToIndex ops k else notInTable) ≠ notInTable ↔
      (b.view ops k).isSome = true := by
  by_cases present : (b.view ops k).isSome = true
  · rw [if_pos present]
    exact ⟨fun _ => present, fun _ => inv.index_ne_notInTable k⟩
  · rw [if_neg present]
    exact ⟨fun other => absurd rfl other, fun contra => absurd contra present⟩

/-- Where the mutex of the bucket is not free, `get` does not return. -/
theorem GetAgrees.free {m : K → Option V} {k : K} {v : V} (agrees : b.GetAgrees ops m k v) :
    b.Free ops k := by
  obtain ⟨found, v', pos, read, -⟩ := agrees
  simp only [get, Option.bind_eq_bind, Option.bind_eq_some_iff] at read
  obtain ⟨_, locked, -⟩ := read
  exact lock_eq_some_iff.mp locked

/-- Agreement, once it is known what `get` answers. -/
theorem Inv.getAgrees_of_get (inv : Inv ops b body) {k : K} (free : b.Free ops k) {v v' : V}
    {found : Bool} (read : b.get ops k v = some (b, found, v')) :
    b.GetAgrees ops (b.view ops) k v ↔ (found = true ↔ (b.view ops k).isSome = true) ∧
      (found = true → b.view ops k = some v') ∧ (b.view ops k = none → v' = v) := by
  rw [← inv.find_ne_notInTable_iff k]
  constructor
  · rintro ⟨found', w, pos, read', looked, agrees⟩
    cases read.symm.trans read'
    cases looked.symm.trans (inv.find_spec free)
    exact agrees
  · exact fun agrees => ⟨found, v', _, read, inv.find_spec free, agrees⟩

/-- One state. -/
theorem Inv.getAgrees_iff_clear (inv : Inv ops b body) (keys : SentinelKeys b key) {k : K}
    (free : b.Free ops k) (v : V) :
    b.GetAgrees ops (b.view ops) k v ↔ Clear ops key (b.view ops) k := by
  have read := inv.get_spec keys free v
  rw [Clear]
  by_cases greater : ops.hash key > ops.hash k
  · have notLe : ¬ ops.hash key ≤ ops.hash k := UInt64.not_le.mpr greater
    have different : ops.equal key k = false :=
      Bool.eq_false_iff.mpr fun same => ops.not_greater same greater
    rw [if_pos greater] at read
    rw [inv.getAgrees_of_get free read]
    cases b.view ops k <;> simp [notLe, different]
  · have le : ops.hash key ≤ ops.hash k := UInt64.not_lt.mp greater
    rw [if_neg greater] at read
    cases viewed : b.view ops k with
    | some value =>
        simp only [viewed] at read
        rw [inv.getAgrees_of_get free read, viewed]
        simp [le]
    | none =>
        simp only [viewed] at read
        cases same : ops.equal key k with
        | true =>
            rw [if_pos same] at read
            rw [inv.getAgrees_of_get free read, viewed]
            simp
        | false =>
            rw [if_neg (Bool.eq_false_iff.mp same)] at read
            rw [inv.getAgrees_of_get free read, viewed]
            simp

section Runs

variable [Inhabited K] [Inhabited V]

/-- **`get` agrees with `find` and with the last write at a key, in every state that operations on
the empty table reach, exactly when the bucket of the key has a free mutex and the key is clear of
the sentinels.** -/
theorem getAgrees_iff (ops : KeyOps K) {raw : RawTable} {n : UInt64} {csize : UInt32}
    (chunk : 0 < csize) {maxKey : K} {b₀ b : BlockMap K V}
    (built : new raw n (MemoryPool.new csize) maxKey = some b₀) {calls : List (Op K V A)}
    {answers : List (Answer A)} (ran : answers? (BlockMap.step ops) b₀ calls = some (b, answers)) :
    ∃ m, SpecRun (Spec ops) (fun _ => none) calls answers m ∧
      ∀ k v, b.GetAgrees ops m k v ↔
        raw.mutexes (ops.hash k % n) = .unlocked ∧ Clear ops maxKey m k := by
  have inv := new_inv ops chunk built
  have laid := new_laidIn chunk built
  have start : Represents ops b₀ (fun _ => none) ∧ LaidIn raw n b₀ ∧ SentinelKeys b₀ maxKey :=
    ⟨⟨⟨_, inv⟩, funext fun q => by rw [inv.view_eq]; rfl⟩, laid, new_sentinelKeys chunk built⟩
  obtain ⟨b', answers', m, ran', spec, ⟨⟨body, inv'⟩, rfl⟩, laid', keys'⟩ := answers?_of_simulation
    (R := fun b m => Represents ops b m ∧ LaidIn raw n b ∧ SentinelKeys b maxKey)
    (fun b m (op : Op K V A) ⟨represents, laid, keys⟩
        (free : raw.mutexes (ops.hash op.key % n) = _) => by
      obtain ⟨b', a, m', done, spec, represents'⟩ :=
        step_simulates b m op represents ((laid.free_iff op.key).mpr free)
      obtain ⟨⟨body, inv⟩, -⟩ := represents
      exact ⟨b', a, m', done, spec, represents', (laid.step done).2, keys.step inv done⟩)
    start (laid.answered ran)
  cases ran.symm.trans ran'
  refine ⟨_, spec, fun k v => ?_⟩
  rw [← laid'.free_iff]
  constructor
  · intro agrees
    exact ⟨agrees.free, (inv'.getAgrees_iff_clear keys' agrees.free v).mp agrees⟩
  · rintro ⟨free, clear⟩
    exact (inv'.getAgrees_iff_clear keys' free v).mpr clear

end Runs

/-- Zeroed memory for one bucket. -/
def zeroedOne : RawTable := ⟨1, fun _ => .unlocked⟩

/-- One bucket, the sentinel key 10, and the key 12 in the table: its hash is not below the
sentinel's. -/
theorem getAgrees_iff_above_sentinel :
    (0 : UInt32) < 1 ∧ ∃ b₀ b : BlockMap UInt64 UInt64, ∃ answers,
      new zeroedOne 1 (MemoryPool.new 1) 10 = some b₀ ∧
      answers? (O := Answer Unit) (BlockMap.step KeyOps.identity) b₀ [.insert 12 7] =
        some (b, answers) ∧
      ∃ m, SpecRun (Spec KeyOps.identity) (fun _ => none) [.insert 12 7] answers m ∧
        b.GetAgrees KeyOps.identity m 12 0 := by
  have chunk : (0 : UInt32) < 1 := by decide
  obtain ⟨b₀, b, answers, built, ran⟩ : ∃ b₀ b : BlockMap UInt64 UInt64, ∃ answers,
      new zeroedOne 1 (MemoryPool.new 1) 10 = some b₀ ∧
      answers? (O := Answer Unit) (BlockMap.step KeyOps.identity) b₀ [.insert 12 7] =
        some (b, answers) := ⟨_, _, _, rfl, rfl⟩
  obtain ⟨m, spec, agrees⟩ := getAgrees_iff KeyOps.identity chunk built ran
  refine ⟨chunk, b₀, b, answers, built, ran, m, spec, (agrees 12 0).mpr ⟨rfl, ?_, ?_⟩⟩
  · exact fun _ _ => by decide
  · exact fun _ => by decide

/-- With the sentinel key 10, the key 3 in the table is found by `find` and not by `get`,
and the absent key 10 is found by `get` and not by `find`. -/
theorem not_getAgrees_below_sentinel :
    ∃ b₀ b : BlockMap UInt64 UInt64, ∃ answers m,
      new zeroedOne 1 (MemoryPool.new 1) 10 = some b₀ ∧
      answers? (O := Answer Unit) (BlockMap.step KeyOps.identity) b₀ [.insert 3 7] =
        some (b, answers) ∧
      SpecRun (Spec KeyOps.identity) (fun _ => none) [.insert 3 7] answers m ∧
      (b.get KeyOps.identity 3 0).map Prod.snd = some (false, 0) ∧
      (b.find KeyOps.identity 3).map Prod.snd = some 0 ∧
      ¬ b.GetAgrees KeyOps.identity m 3 0 ∧ ¬ b.GetAgrees KeyOps.identity m 10 5 := by
  refine ⟨_, _, _, _, rfl, rfl, .cons ⟨rfl, rfl⟩ .nil, rfl, rfl, ?_, ?_⟩
  · rintro ⟨found, v', pos, read, looked, agrees, -⟩
    cases congrArg (Option.map fun out => out.2.1) read
    cases congrArg (Option.map Prod.snd) looked
    exact absurd (agrees.mpr (by decide)) (by decide)
  · rintro ⟨found, v', pos, read, looked, agrees, -⟩
    cases congrArg (Option.map fun out => out.2.1) read
    cases congrArg (Option.map Prod.snd) looked
    exact absurd rfl (agrees.mp rfl)

end Hcl.BlockMap
