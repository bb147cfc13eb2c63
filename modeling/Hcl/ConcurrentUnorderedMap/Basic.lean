import Mathlib.Data.Option.Basic
import Mathlib.Tactic.Ring
import Hcl.Container
import Hcl.BlockMap.Refinement

/-!
`hcl::concurrent_unordered_map`: one block map per server, after
`concurrent/unordered_map/unordered_map.{h,cpp}`.

The positions `0 .. totalSize - 1` are split into one interval per server; the first
`totalSize % num_servers` intervals are one position longer. A client computes the
server of a key from the position of its hash (`serverLocation`), a server computes its
own interval from its rank (`initializeTables`), and the two computations agree
(`isLocal_of_keyInt`).
-/

namespace Hcl

/-- `class concurrent_unordered_map`. A client has no table. -/
structure ConcurrentUnorderedMap (K V : Type) extends Container where
  totalSize : UInt64
  maxSize : UInt64
  minRange : UInt64
  maxRange : UInt64
  nservers : UInt32
  serverid : UInt32
  emptyKey : K
  myTable : Option (BlockMap K V)

namespace ConcurrentUnorderedMap

variable {K V : Type}

/-- `isLocal(k)`. -/
def isLocal (ops : KeyOps K) (c : ConcurrentUnorderedMap K V) (k : K) : Bool :=
  let pos := ops.hash k % c.totalSize
  c.isServer && decide (pos ≥ c.minRange) && decide (pos < c.maxRange)

/-- `serverLocation(k)`; an `id` that is never assigned is `(uint64_t)-1`. -/
def serverLocation (ops : KeyOps K) (c : ConcurrentUnorderedMap K V) (k : K) : UInt64 :=
  let numServers := c.numServers.toUInt64
  let localSize := c.totalSize / numServers
  let rem := c.totalSize % numServers
  let v := ops.hash k % c.totalSize
  let offset := rem * (localSize + 1)
  if v < c.totalSize then
    if v < offset then v / (localSize + 1) else rem + (v - offset) / localSize
  else 18446744073709551615

/-- The first position of a server: the computation of `min_range`. -/
def minRangeOf (localSize rem : UInt64) (serverid : UInt32) : UInt64 :=
  if serverid.toUInt64 < rem then serverid.toUInt64 * (localSize + 1)
  else rem * (localSize + 1) + (serverid.toUInt64 - rem) * localSize

/-- The number of positions of a server: the computation of `maxSize`. -/
def maxSizeOf (localSize rem : UInt64) (serverid : UInt32) : UInt64 :=
  if serverid.toUInt64 < rem then localSize + 1 else localSize

/-- The fields `initialize_tables(n, np, rank, maxKey)` computes, around a table. -/
def configured (c : Container) (n : UInt64) (np rank : UInt32) (maxKey : K)
    (table : Option (BlockMap K V)) : ConcurrentUnorderedMap K V :=
  let localSize := n / np.toUInt64
  let rem := n % np.toUInt64
  let maxSize := maxSizeOf localSize rem rank
  let minRange := minRangeOf localSize rem rank
  { c with
    totalSize := n, nservers := np, serverid := rank, emptyKey := maxKey, maxSize := maxSize
    minRange := minRange, maxRange := minRange + maxSize, myTable := table }

/-- `initialize_tables(n, np, rank, maxKey)` on an object, with its assertions. Only a server gets
a pool and a table, and the table lies in the memory `raw`. -/
def initializeTables [Inhabited K] [Inhabited V] (raw : RawTable) (c : Container) (n : UInt64)
    (np rank : UInt32) (maxKey : K) : Option (ConcurrentUnorderedMap K V) := do
  guard (n > 0 ∧ n < 18446744073709551615)
  let o := configured c n np rank maxKey none
  guard (o.maxSize > 0 ∧ o.maxSize < 18446744073709551615)
  if c.isServer then
    let table ← BlockMap.new raw o.maxSize (MemoryPool.new 100) maxKey
    return { o with myTable := some table }
  else return o

section Handlers

variable (ops : KeyOps K) (c : ConcurrentUnorderedMap K V)

/-- `LocalInsert`: what the table answers is dropped. -/
def localInsert [Inhabited K] [Inhabited V] (k : K) (v : V) :
    Option (ConcurrentUnorderedMap K V × Bool) := do
  let (table, _) ← (← c.myTable).insert ops k v
  return ({ c with myTable := some table }, true)

/-- `LocalFind`. -/
def localFind (k : K) : Option (ConcurrentUnorderedMap K V × Bool) := do
  let (table, pos) ← (← c.myTable).find ops k
  return ({ c with myTable := some table }, if pos ≠ BlockMap.notInTable then true else false)

/-- `LocalErase`. -/
def localErase (k : K) : Option (ConcurrentUnorderedMap K V × Bool) := do
  let (table, found) ← (← c.myTable).erase ops k
  return ({ c with myTable := some table }, found)

/-- `LocalUpdate`. -/
def localUpdate (k : K) (v : V) : Option (ConcurrentUnorderedMap K V × Bool) := do
  let (table, found) ← (← c.myTable).update ops k v
  return ({ c with myTable := some table }, found)

end Handlers

/-! ### The partition of the positions -/

section Partition

/-- The server of a position, in unbounded arithmetic. -/
def location (total servers v : Nat) : Nat :=
  let size := total / servers
  let rem := total % servers
  if v < rem * (size + 1) then v / (size + 1) else rem + (v - rem * (size + 1)) / size

/-- The first position of a server, in unbounded arithmetic. -/
def firstOf (total servers id : Nat) : Nat :=
  let size := total / servers
  let rem := total % servers
  if id < rem then id * (size + 1) else rem * (size + 1) + (id - rem) * size

/-- The number of positions of a server, in unbounded arithmetic. -/
def countOf (total servers id : Nat) : Nat :=
  if id < total % servers then total / servers + 1 else total / servers

variable {total servers v : Nat}

theorem offset_add (total servers : Nat) (serving : 0 < servers) :
    total % servers * (total / servers + 1) + (servers - total % servers) * (total / servers) =
      total := by
  have less := (Nat.mod_lt total serving).le
  calc total % servers * (total / servers + 1) + (servers - total % servers) * (total / servers)
      = total % servers + (total % servers + (servers - total % servers)) * (total / servers) := by ring
    _ = total % servers + servers * (total / servers) := by rw [Nat.add_sub_cancel' less]
    _ = total := Nat.mod_add_div total servers

/-- **A position lies in the interval of its server.** -/
theorem location_spec (serving : 0 < servers) (enough : servers ≤ total) (inside : v < total) :
    location total servers v < servers ∧ firstOf total servers (location total servers v) ≤ v ∧
      v < firstOf total servers (location total servers v) +
        countOf total servers (location total servers v) := by
  have sum := offset_add total servers serving
  have less := Nat.mod_lt total serving
  have size : 0 < total / servers := Nat.div_pos enough serving
  unfold location
  simp only
  split
  · rename_i low
    have id : v / (total / servers + 1) < total % servers :=
      (Nat.div_lt_iff_lt_mul (Nat.succ_pos _)).mpr low
    refine ⟨id.trans less, ?_, ?_⟩
    · rw [firstOf, if_pos id]
      exact Nat.div_mul_le_self _ _
    · rw [firstOf, if_pos id, countOf, if_pos id]
      exact Nat.lt_div_mul_add (Nat.succ_pos _)
  · rename_i high
    have rest : v - total % servers * (total / servers + 1) <
        (servers - total % servers) * (total / servers) := by omega
    have id := (Nat.div_lt_iff_lt_mul size).mpr rest
    have above : ¬ total % servers +
        (v - total % servers * (total / servers + 1)) / (total / servers) < total % servers :=
      Nat.not_lt.mpr (Nat.le_add_right _ _)
    refine ⟨?_, ?_, ?_⟩
    · exact (Nat.add_lt_add_left id _).trans_eq (Nat.add_sub_cancel' less.le)
    · rw [firstOf, if_neg above, Nat.add_sub_cancel_left]
      have := Nat.div_mul_le_self (v - total % servers * (total / servers + 1)) (total / servers)
      omega
    · rw [firstOf, if_neg above, countOf, if_neg above, Nat.add_sub_cancel_left]
      have := Nat.lt_div_mul_add (a := v - total % servers * (total / servers + 1)) size
      omega

/-- The interval of a server lies within the positions. -/
theorem firstOf_add_countOf_le (total : Nat) (serving : 0 < servers) {id : Nat} (server : id < servers) :
    firstOf total servers id + countOf total servers id ≤ total := by
  have sum := offset_add total servers serving
  unfold firstOf countOf
  simp only
  split
  · rename_i low
    have : (id + 1) * (total / servers + 1) ≤ total % servers * (total / servers + 1) :=
      Nat.mul_le_mul_right _ low
    rw [Nat.succ_mul] at this
    omega
  · rename_i high
    have : (id - total % servers + 1) * (total / servers) ≤
        (servers - total % servers) * (total / servers) := Nat.mul_le_mul_right _ (by omega)
    rw [Nat.succ_mul] at this
    omega

/-- Where the remainder is not zero there are two servers, so one more than the size of
an interval still fits into 64 bits. -/
theorem size_lt_of_mod_pos (serving : 0 < servers) (bound : total < 2 ^ 64)
    (rem : 0 < total % servers) : total / servers + 1 < 2 ^ 64 := by
  have two : 2 ≤ servers := by
    by_contra small
    obtain rfl : servers = 1 := by omega
    rw [Nat.mod_one] at rem
    omega
  have : total / servers ≤ total / 2 := Nat.div_le_div_left two (by decide)
  omega

end Partition

/-! ### The machine arithmetic does not wrap around -/

section Machine

variable {total : UInt64} {n : UInt64}

theorem toNat_size_succ (serving : 0 < n.toNat) (rem : 0 < total.toNat % n.toNat) :
    (total / n + 1).toNat = total.toNat / n.toNat + 1 := by
  rw [UInt64.toNat_add, UInt64.toNat_div, UInt64.toNat_one]
  exact Nat.mod_eq_of_lt (size_lt_of_mod_pos serving total.toNat_lt rem)

theorem toNat_offset (total : UInt64) (serving : 0 < n.toNat) :
    (total % n * (total / n + 1)).toNat = total.toNat % n.toNat * (total.toNat / n.toNat + 1) := by
  have sum := offset_add total.toNat n.toNat serving
  have bound := total.toNat_lt
  rw [UInt64.toNat_mul, UInt64.toNat_mod]
  rcases Nat.eq_zero_or_pos (total.toNat % n.toNat) with zero | pos
  · rw [zero, Nat.zero_mul, Nat.zero_mul, Nat.zero_mod]
  · rw [toNat_size_succ serving pos]
    exact Nat.mod_eq_of_lt (by omega)

theorem toNat_maxSizeOf (serving : 0 < n.toNat) (id : UInt32) :
    (maxSizeOf (total / n) (total % n) id).toNat = countOf total.toNat n.toNat id.toNat := by
  unfold maxSizeOf countOf
  simp only [UInt64.lt_iff_toNat_lt, UInt64.toNat_mod, UInt32.toNat_toUInt64]
  split
  · rename_i low
    exact toNat_size_succ serving (by omega)
  · exact UInt64.toNat_div _ _

theorem toNat_minRangeOf (serving : 0 < n.toNat) {id : UInt32} (server : id.toNat < n.toNat) :
    (minRangeOf (total / n) (total % n) id).toNat = firstOf total.toNat n.toNat id.toNat := by
  have fits : firstOf total.toNat n.toNat id.toNat ≤ total.toNat := by
    have := firstOf_add_countOf_le total.toNat serving server
    omega
  have bound := total.toNat_lt
  unfold minRangeOf firstOf at *
  simp only [UInt64.lt_iff_toNat_lt, UInt64.toNat_mod, UInt32.toNat_toUInt64] at *
  split at fits
  · rename_i low
    rw [if_pos low, if_pos low, UInt64.toNat_mul, UInt32.toNat_toUInt64,
      toNat_size_succ serving (by omega)]
    exact Nat.mod_eq_of_lt (by omega)
  · rename_i high
    have le : total % n ≤ id.toUInt64 := by
      rw [UInt64.le_iff_toNat_le, UInt64.toNat_mod, UInt32.toNat_toUInt64]
      omega
    have product : ((id.toUInt64 - total % n) * (total / n)).toNat =
        (id.toNat - total.toNat % n.toNat) * (total.toNat / n.toNat) := by
      rw [UInt64.toNat_mul, UInt64.toNat_sub_of_le _ _ le, UInt64.toNat_mod, UInt64.toNat_div,
        UInt32.toNat_toUInt64]
      exact Nat.mod_eq_of_lt (by omega)
    rw [if_neg high, if_neg high, UInt64.toNat_add, toNat_offset total serving, product]
    exact Nat.mod_eq_of_lt (by omega)

variable (ops : KeyOps K) (c : ConcurrentUnorderedMap K V)

/-- `serverLocation` computes the server of the position of the hash. -/
theorem toNat_serverLocation (serving : 0 < c.numServers) (enough : c.numServers.toNat ≤ c.totalSize.toNat)
    (k : K) : (c.serverLocation ops k).toNat =
      location c.totalSize.toNat c.numServers.toNat ((ops.hash k).toNat % c.totalSize.toNat) := by
  have servers : 0 < c.numServers.toUInt64.toNat := by
    rw [UInt16.toNat_toUInt64]
    exact UInt16.lt_iff_toNat_lt.mp serving
  have pos : (0 : UInt64) < c.totalSize := by
    rw [UInt64.lt_iff_toNat_lt, UInt64.toNat_zero]
    rw [UInt16.toNat_toUInt64] at servers
    omega
  have inside := UInt64.mod_lt (ops.hash k) pos
  have offset := toNat_offset c.totalSize servers
  have spec := (location_spec (v := (ops.hash k % c.totalSize).toNat) servers
    (by rwa [UInt16.toNat_toUInt64]) (UInt64.lt_iff_toNat_lt.mp inside)).1
  have small := c.numServers.toNat_lt
  unfold serverLocation
  simp only [inside, if_true]
  rw [← UInt64.toNat_mod, ← UInt16.toNat_toUInt64 c.numServers]
  unfold location at *
  simp only at spec
  by_cases low : ops.hash k % c.totalSize <
      c.totalSize % c.numServers.toUInt64 * (c.totalSize / c.numServers.toUInt64 + 1)
  · have low' := UInt64.lt_iff_toNat_lt.mp low
    rw [offset] at low'
    have rem : 0 < c.totalSize.toNat % c.numServers.toUInt64.toNat := by
      by_contra zero
      rw [Nat.eq_zero_of_not_pos zero, Nat.zero_mul] at low'
      exact Nat.not_lt_zero _ low'
    simp only [if_pos low, if_pos low', UInt64.toNat_div, toNat_size_succ servers rem]
  · have low' := mt UInt64.lt_iff_toNat_lt.mpr low
    rw [offset] at low'
    have le := UInt64.not_lt.mp low
    rw [if_neg low'] at spec
    rw [if_neg low, if_neg low', UInt64.toNat_add, UInt64.toNat_div, UInt64.toNat_sub_of_le _ _ le,
      offset, UInt64.toNat_mod c.totalSize, UInt64.toNat_div]
    rw [UInt16.toNat_toUInt64] at spec ⊢
    exact Nat.mod_eq_of_lt (by omega)

/-- The server a client addresses, narrowed to the index of an RPC. -/
def keyInt (k : K) : UInt16 := (c.serverLocation ops k).toUInt16

theorem location_lt (serving : 0 < c.numServers) (enough : c.numServers.toNat ≤ c.totalSize.toNat)
    (k : K) : location c.totalSize.toNat c.numServers.toNat
      ((ops.hash k).toNat % c.totalSize.toNat) < c.numServers.toNat := by
  have servers := UInt16.lt_iff_toNat_lt.mp serving
  have total : 0 < c.totalSize.toNat := by
    rw [UInt16.toNat_zero] at servers
    omega
  exact (location_spec servers enough (Nat.mod_lt (ops.hash k).toNat total)).1

theorem toNat_keyInt (serving : 0 < c.numServers) (enough : c.numServers.toNat ≤ c.totalSize.toNat)
    (k : K) : (c.keyInt ops k).toNat =
      location c.totalSize.toNat c.numServers.toNat ((ops.hash k).toNat % c.totalSize.toNat) := by
  have below := location_lt ops c serving enough k
  have small := c.numServers.toNat_lt
  rw [keyInt, UInt64.toNat_toUInt16, toNat_serverLocation ops c serving enough]
  exact Nat.mod_eq_of_lt (by omega)

theorem keyInt_lt (serving : 0 < c.numServers) (enough : c.numServers.toNat ≤ c.totalSize.toNat)
    (k : K) : c.keyInt ops k < c.numServers := by
  rw [UInt16.lt_iff_toNat_lt, toNat_keyInt ops c serving enough]
  exact location_lt ops c serving enough k

end Machine

/-! ### A server and the keys it owns -/

section Server

variable [Inhabited K] [Inhabited V]

/-- What `initialize_tables` on a server needs and what it leaves. -/
theorem initializeTables_eq_some_iff {raw : RawTable} {c : Container} (server : c.isServer = true)
    {n : UInt64} {np rank : UInt32} {maxKey : K} {o : ConcurrentUnorderedMap K V} :
    let size := maxSizeOf (n / np.toUInt64) (n % np.toUInt64) rank
    initializeTables raw c n np rank maxKey = some o ↔
      (0 < n ∧ n < 18446744073709551615) ∧ (0 < size ∧ size < 18446744073709551615) ∧
      ∃ table, BlockMap.new raw size (MemoryPool.new 100) maxKey = some table ∧
        o = configured c n np rank maxKey (some table) := by
  simp only [initializeTables, server, if_true, Option.bind_eq_bind, Option.bind_eq_some_iff,
    Option.guard_eq_some', Option.pure_def, Option.some.injEq]
  constructor
  · rintro ⟨-, total, -, size, table, built, rfl⟩
    exact ⟨total, size, table, built, rfl⟩
  · rintro ⟨total, size, table, built, rfl⟩
    exact ⟨(), total, (), size, table, built, rfl⟩

omit [Inhabited K] [Inhabited V] in
/-- With as many positions as servers the interval of a server is not empty, and it is not larger
than the whole. -/
theorem maxSizeOf_bounds {n : UInt64} {servers : UInt16} (serving : 0 < servers)
    (enough : servers.toNat ≤ n.toNat) (rank : UInt32) :
    let size := maxSizeOf (n / servers.toUInt32.toUInt64) (n % servers.toUInt32.toUInt64) rank
    0 < size ∧ size ≤ n := by
  have np : servers.toUInt32.toUInt64.toNat = servers.toNat := by
    rw [UInt32.toNat_toUInt64, UInt16.toNat_toUInt32]
  have positive : 0 < servers.toNat := UInt16.lt_iff_toNat_lt.mp serving
  have nonempty : 0 < n.toNat / servers.toNat := Nat.div_pos enough positive
  intro size
  have count : size.toNat = countOf n.toNat servers.toNat rank.toNat := by
    rw [toNat_maxSizeOf (by rwa [np]), np]
  rw [UInt64.lt_iff_toNat_lt, UInt64.le_iff_toNat_le, count, UInt64.toNat_zero]
  unfold countOf
  constructor
  · split <;> omega
  · split
    · rename_i larger
      have sum := Nat.mod_add_div n.toNat servers.toNat
      have within : n.toNat / servers.toNat ≤ servers.toNat * (n.toNat / servers.toNat) :=
        Nat.le_mul_of_pos_left _ positive
      omega
    · exact Nat.div_le_self _ _

omit [Inhabited K] [Inhabited V] in
/-- The interval of a server, in unbounded arithmetic. -/
theorem toNat_ranges {c : Container} {n : UInt64} {rank : UInt16} (server : rank < c.numServers)
    (maxKey : K) (table : Option (BlockMap K V)) :
    let o := configured c n c.numServers.toUInt32 rank.toUInt32 maxKey table
    o.minRange.toNat = firstOf n.toNat c.numServers.toNat rank.toNat ∧
      o.maxRange.toNat = firstOf n.toNat c.numServers.toNat rank.toNat +
        countOf n.toNat c.numServers.toNat rank.toNat := by
  have np : c.numServers.toUInt32.toUInt64.toNat = c.numServers.toNat := by
    rw [UInt32.toNat_toUInt64, UInt16.toNat_toUInt32]
  have id : rank.toUInt32.toNat = rank.toNat := UInt16.toNat_toUInt32 _
  have below : rank.toNat < c.numServers.toNat := UInt16.lt_iff_toNat_lt.mp server
  have positive : 0 < c.numServers.toNat := by omega
  have first : (minRangeOf (n / c.numServers.toUInt32.toUInt64)
      (n % c.numServers.toUInt32.toUInt64) rank.toUInt32).toNat =
        firstOf n.toNat c.numServers.toNat rank.toNat := by
    rw [toNat_minRangeOf (by rwa [np]) (by rwa [np, id]), np, id]
  have count : (maxSizeOf (n / c.numServers.toUInt32.toUInt64)
      (n % c.numServers.toUInt32.toUInt64) rank.toUInt32).toNat =
        countOf n.toNat c.numServers.toNat rank.toNat := by
    rw [toNat_maxSizeOf (by rwa [np]), np, id]
  have fits := firstOf_add_countOf_le n.toNat positive below
  refine ⟨first, ?_⟩
  simp only [configured]
  rw [UInt64.toNat_add, first, count]
  exact Nat.mod_eq_of_lt (Nat.lt_of_le_of_lt fits n.toNat_lt)

omit [Inhabited K] [Inhabited V] in
/-- On the server that `serverLocation` names, `isLocal` holds. -/
theorem isLocal_of_keyInt (ops : KeyOps K) {c : Container} (server : c.isServer = true) {n : UInt64}
    (servers : 0 < c.numServers) (enough : c.numServers.toNat ≤ n.toNat) {rank : UInt16}
    {maxKey : K} {table : Option (BlockMap K V)} {k : K}
    (here : (configured c n c.numServers.toUInt32 rank.toUInt32 maxKey table).keyInt ops k = rank) :
    (configured c n c.numServers.toUInt32 rank.toUInt32 maxKey table).isLocal ops k = true := by
  let o := configured c n c.numServers.toUInt32 rank.toUInt32 maxKey table
  have below : rank < c.numServers := here ▸ keyInt_lt ops o servers enough k
  have located : rank.toNat =
      location n.toNat c.numServers.toNat ((ops.hash k).toNat % n.toNat) :=
    (congrArg UInt16.toNat here).symm.trans (toNat_keyInt ops o servers enough k)
  have positive := UInt16.lt_iff_toNat_lt.mp servers
  have total : 0 < n.toNat := Nat.lt_of_lt_of_le positive enough
  obtain ⟨-, low, high⟩ := location_spec positive enough (Nat.mod_lt (ops.hash k).toNat total)
  rw [← located] at low high
  obtain ⟨min, max⟩ := toNat_ranges (n := n) below maxKey table
  have pos : (ops.hash k % o.totalSize).toNat = (ops.hash k).toNat % n.toNat := UInt64.toNat_mod _ _
  have inRange : o.minRange ≤ ops.hash k % o.totalSize ∧ ops.hash k % o.totalSize < o.maxRange := by
    rw [UInt64.le_iff_toNat_le, UInt64.lt_iff_toNat_lt, pos, min, max]
    exact ⟨low, high⟩
  have isServer : o.isServer = true := server
  show (o.isServer && decide (ops.hash k % o.totalSize ≥ o.minRange) &&
    decide (ops.hash k % o.totalSize < o.maxRange)) = true
  rw [isServer, decide_eq_true inRange.1, decide_eq_true inRange.2]
  rfl

end Server

end ConcurrentUnorderedMap

end Hcl
