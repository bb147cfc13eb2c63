import Hcl.Lib.Checked
import Hcl.ConcurrentUnorderedMap.Basic

/-!
The intervals of the servers partition the positions.

The two computations of the source, that of a server's interval and that of a key's server,
are written once more with checked arithmetic (`rangesChecked`, `serverLocationChecked`,
`isLocalChecked`). That they answer the machine's results says that nothing on the way
wrapped around or divided by zero. `isPartition` collects what they give together.
-/

namespace Hcl.ConcurrentUnorderedMap

open Hcl.Lib

variable {K V : Type}

/-! ### The intervals, in unbounded arithmetic -/

section Intervals

variable {total servers id v : Nat}

/-- No interval is empty. -/
theorem countOf_pos (serving : 0 < servers) (enough : servers ≤ total) (id : Nat) :
    0 < countOf total servers id := by
  have size : 0 < total / servers := Nat.div_pos enough serving
  unfold countOf
  split <;> omega

/-- **The server of a position is the only one whose interval has it.** -/
theorem location_eq (low : firstOf total servers id ≤ v)
    (high : v < firstOf total servers id + countOf total servers id) :
    location total servers v = id := by
  unfold firstOf countOf at *
  unfold location
  simp only at low high ⊢
  split at low
  · rename_i larger
    simp only [if_pos larger] at high
    have inside : v < total % servers * (total / servers + 1) := by
      have : (id + 1) * (total / servers + 1) ≤ total % servers * (total / servers + 1) :=
        Nat.mul_le_mul_right _ larger
      rw [Nat.succ_mul] at this
      omega
    rw [if_pos inside]
    exact Nat.div_eq_of_lt_le low (by rwa [Nat.succ_mul])
  · rename_i smaller
    simp only [if_neg smaller] at high
    have behind : ¬ v < total % servers * (total / servers + 1) := by omega
    rw [if_neg behind]
    have place : (v - total % servers * (total / servers + 1)) / (total / servers) =
        id - total % servers := by
      apply Nat.div_eq_of_lt_le
      · omega
      · rw [Nat.succ_mul]
        omega
    rw [place]
    omega

/-- A position lies in the interval of a server exactly if that is its server. -/
theorem location_eq_iff (serving : 0 < servers) (enough : servers ≤ total) (inside : v < total) :
    location total servers v = id ↔
      firstOf total servers id ≤ v ∧ v < firstOf total servers id + countOf total servers id := by
  constructor
  · rintro rfl
    exact (location_spec serving enough inside).2
  · rintro ⟨low, high⟩
    exact location_eq low high

end Intervals

/-! ### Checked arithmetic -/

/-- `min_range` and `max_range` as `initialize_tables(n, np, rank, _)` computes them. -/
def rangesChecked (n : UInt64) (np rank : UInt32) : Option (UInt64 × UInt64) := do
  let localSize ← Checked.div n np.toUInt64
  let rem ← Checked.mod n np.toUInt64
  let maxSize ← if rank.toUInt64 < rem then Checked.add localSize 1 else some localSize
  let minRange ←
    if rank.toUInt64 < rem then do
      let larger ← Checked.add localSize 1
      Checked.mul rank.toUInt64 larger
    else do
      let larger ← Checked.add localSize 1
      let offset ← Checked.mul rem larger
      let behind ← Checked.sub rank.toUInt64 rem
      let rest ← Checked.mul behind localSize
      Checked.add offset rest
  let maxRange ← Checked.add minRange maxSize
  return (minRange, maxRange)

/-- `serverLocation(k)`. -/
def serverLocationChecked (ops : KeyOps K) (c : ConcurrentUnorderedMap K V) (k : K) :
    Option UInt64 := do
  let localSize ← Checked.div c.totalSize c.numServers.toUInt64
  let rem ← Checked.mod c.totalSize c.numServers.toUInt64
  let v ← Checked.mod (ops.hash k) c.totalSize
  let larger ← Checked.add localSize 1
  let offset ← Checked.mul rem larger
  if v < c.totalSize then
    if v < offset then Checked.div v larger
    else do
      let behind ← Checked.sub v offset
      let index ← Checked.div behind localSize
      Checked.add rem index
  else return 18446744073709551615

/-- `isLocal(k)`. -/
def isLocalChecked (ops : KeyOps K) (c : ConcurrentUnorderedMap K V) (k : K) : Option Bool := do
  let pos ← Checked.mod (ops.hash k) c.totalSize
  return c.isServer && decide (pos ≥ c.minRange) && decide (pos < c.maxRange)

section Machine

variable {total n : UInt64}

/-- The larger interval size fits, also for one server. -/
theorem size_fits (below : total.toNat < 2 ^ 64 - 1) :
    (total / n).toNat + (1 : UInt64).toNat < 2 ^ 64 := by
  have le : total.toNat / n.toNat ≤ total.toNat := Nat.div_le_self _ _
  rw [UInt64.toNat_div, UInt64.toNat_one]
  omega

theorem toNat_larger (below : total.toNat < 2 ^ 64 - 1) :
    (total / n + 1).toNat = total.toNat / n.toNat + 1 := by
  have fits : (total / n).toNat + (1 : UInt64).toNat < 2 ^ 64 := size_fits below
  rw [UInt64.toNat_div, UInt64.toNat_one] at fits
  rw [UInt64.toNat_add, UInt64.toNat_div, UInt64.toNat_one]
  exact Nat.mod_eq_of_lt fits

theorem offset_fits (serving : 0 < n.toNat) (below : total.toNat < 2 ^ 64 - 1) :
    (total % n).toNat * (total / n + 1).toNat < 2 ^ 64 := by
  have sum := offset_add total.toNat n.toNat serving
  rw [toNat_larger below, UInt64.toNat_mod]
  omega

theorem rangesChecked_eq {np rank : UInt32} (serving : 0 < np.toNat)
    (below : total.toNat < 2 ^ 64 - 1) (server : rank.toNat < np.toNat) :
    rangesChecked total np rank =
      let minRange := minRangeOf (total / np.toUInt64) (total % np.toUInt64) rank
      some
        (minRange, minRange + maxSizeOf (total / np.toUInt64) (total % np.toUInt64) rank) := by
  have np64 : np.toUInt64.toNat = np.toNat := UInt32.toNat_toUInt64 _
  have positive : 0 < np.toUInt64.toNat := by rwa [np64]
  have nonzero := Checked.ne_zero_of_toNat_pos positive
  have rankBelow : rank.toNat < np.toUInt64.toNat := by rwa [np64]
  have first : (minRangeOf (total / np.toUInt64) (total % np.toUInt64) rank).toNat =
      firstOf total.toNat np.toUInt64.toNat rank.toNat := toNat_minRangeOf positive rankBelow
  have count : (maxSizeOf (total / np.toUInt64) (total % np.toUInt64) rank).toNat =
      countOf total.toNat np.toUInt64.toNat rank.toNat := toNat_maxSizeOf positive rank
  have inside := firstOf_add_countOf_le total.toNat positive rankBelow
  have sumFits : (minRangeOf (total / np.toUInt64) (total % np.toUInt64) rank).toNat +
      (maxSizeOf (total / np.toUInt64) (total % np.toUInt64) rank).toNat < 2 ^ 64 := by
    rw [first, count]
    omega
  have max := Checked.add_eq sumFits
  unfold minRangeOf maxSizeOf at *
  unfold rangesChecked
  rw [Checked.div_eq nonzero, Checked.mod_eq nonzero]
  simp only [Option.bind_eq_bind, Option.bind_some, Option.pure_def,
    Checked.add_eq (size_fits (n := np.toUInt64) below)]
  by_cases larger : rank.toUInt64 < total % np.toUInt64
  · simp only [if_pos larger] at max ⊢
    -- The rank is below the remainder, so its product is below the offset.
    have product : rank.toUInt64.toNat * (total / np.toUInt64 + 1).toNat < 2 ^ 64 :=
      Nat.lt_of_le_of_lt (Nat.mul_le_mul_right _ (UInt64.lt_iff_toNat_lt.mp larger).le)
        (offset_fits positive below)
    rw [Checked.mul_eq product, Option.bind_some, max, Option.bind_some]
  · simp only [if_neg larger] at max first ⊢
    have le := UInt64.not_lt.mp larger
    have behind : (rank.toUInt64 - total % np.toUInt64).toNat =
        rank.toNat - total.toNat % np.toUInt64.toNat := by
      rw [UInt64.toNat_sub_of_le _ _ le, UInt64.toNat_mod, UInt32.toNat_toUInt64]
    have notLess : ¬ rank.toNat < total.toNat % np.toUInt64.toNat := by
      rw [← UInt64.toNat_mod, ← UInt32.toNat_toUInt64 rank]
      exact Nat.not_lt.mpr (UInt64.le_iff_toNat_le.mp le)
    rw [firstOf, countOf] at inside
    simp only [if_neg notLess] at inside
    have within := Nat.le_trans (Nat.le_add_right _ _) inside
    have restFits : (rank.toUInt64 - total % np.toUInt64).toNat * (total / np.toUInt64).toNat <
        2 ^ 64 := by
      rw [behind, UInt64.toNat_div]
      exact Nat.lt_of_le_of_lt (Nat.le_trans (Nat.le_add_left _ _) within) total.toNat_lt
    have offset := toNat_offset total positive
    have rest : ((rank.toUInt64 - total % np.toUInt64) * (total / np.toUInt64)).toNat =
        (rank.toNat - total.toNat % np.toUInt64.toNat) * (total.toNat / np.toUInt64.toNat) := by
      rw [UInt64.toNat_mul, Nat.mod_eq_of_lt restFits, behind, UInt64.toNat_div]
    have bothFit : (total % np.toUInt64 * (total / np.toUInt64 + 1)).toNat +
        ((rank.toUInt64 - total % np.toUInt64) * (total / np.toUInt64)).toNat < 2 ^ 64 := by
      rw [offset, rest]
      exact Nat.lt_of_le_of_lt within total.toNat_lt
    rw [Checked.mul_eq (offset_fits positive below), Option.bind_some, Checked.sub_eq le,
      Option.bind_some, Checked.mul_eq restFits, Option.bind_some, Checked.add_eq bothFit,
      Option.bind_some, max, Option.bind_some]

theorem serverLocationChecked_eq (ops : KeyOps K) (c : ConcurrentUnorderedMap K V)
    (serving : 0 < c.numServers) (enough : c.numServers.toNat ≤ c.totalSize.toNat)
    (below : c.totalSize.toNat < 2 ^ 64 - 1) (k : K) :
    c.serverLocationChecked ops k = some (c.serverLocation ops k) := by
  have np : c.numServers.toUInt64.toNat = c.numServers.toNat := UInt16.toNat_toUInt64 _
  have positive : 0 < c.numServers.toUInt64.toNat := by
    rw [np]
    exact UInt16.lt_iff_toNat_lt.mp serving
  have totalPos : 0 < c.totalSize.toNat := by omega
  have size : 0 < (c.totalSize / c.numServers.toUInt64).toNat := by
    rw [UInt64.toNat_div]
    exact Nat.div_pos (by rwa [np]) positive
  have larger : 0 < (c.totalSize / c.numServers.toUInt64 + 1).toNat := by
    rw [toNat_larger below]
    exact Nat.succ_pos _
  unfold serverLocation serverLocationChecked
  rw [Checked.div_eq (Checked.ne_zero_of_toNat_pos positive),
    Checked.mod_eq (Checked.ne_zero_of_toNat_pos positive),
    Checked.mod_eq (Checked.ne_zero_of_toNat_pos totalPos)]
  simp only [Option.bind_eq_bind, Option.bind_some, Option.pure_def,
    Checked.add_eq (size_fits (n := c.numServers.toUInt64) below),
    Checked.mul_eq (offset_fits positive below)]
  split
  · split
    · exact Checked.div_eq (Checked.ne_zero_of_toNat_pos larger)
    · rename_i behind
      have le := UInt64.not_lt.mp behind
      rw [Checked.sub_eq le, Option.bind_some, Checked.div_eq (Checked.ne_zero_of_toNat_pos size),
        Option.bind_some]
      apply Checked.add_eq
      -- In unbounded arithmetic the sum is the server of the position.
      have inside : (ops.hash k % c.totalSize).toNat < c.totalSize.toNat := by
        rw [UInt64.toNat_mod]
        exact Nat.mod_lt _ totalPos
      have located := (location_spec positive (by rwa [np]) inside).1
      have high := mt UInt64.lt_iff_toNat_lt.mpr behind
      rw [toNat_offset c.totalSize positive] at high
      rw [location, if_neg high, np] at located
      rw [UInt64.toNat_mod c.totalSize, UInt64.toNat_div, UInt64.toNat_sub_of_le _ _ le,
        toNat_offset c.totalSize positive, UInt64.toNat_div, np]
      exact Nat.lt_trans located (Nat.lt_trans c.numServers.toNat_lt (by decide))
  · rfl

end Machine

/-! ### The partition -/

/-- The tables of a deployment with `total` positions and `n` servers: what their intervals
and the two computations have to do with each other. `serverLocation` may run on any object
`q` of the deployment, a server's or a client's. -/
structure IsPartition (ops : KeyOps K) (total : UInt64) (n : UInt16)
    (o : UInt16 → ConcurrentUnorderedMap K V) : Prop where
  nonempty : ∀ s < n, (o s).minRange < (o s).maxRange
  disjoint : ∀ s < n, ∀ s' < n, ∀ pos, (o s).minRange ≤ pos → pos < (o s).maxRange →
    (o s').minRange ≤ pos → pos < (o s').maxRange → s = s'
  covers : ∀ pos, pos < total ↔ ∃ s < n, (o s).minRange ≤ pos ∧ pos < (o s).maxRange
  located : ∀ q : ConcurrentUnorderedMap K V, q.totalSize = total → q.numServers = n → ∀ k,
    q.serverLocation ops k < n.toUInt64 ∧ ∀ s < n, q.serverLocation ops k = s.toUInt64 ↔
      (o s).minRange ≤ ops.hash k % total ∧ ops.hash k % total < (o s).maxRange
  isLocal : ∀ q : ConcurrentUnorderedMap K V, q.totalSize = total → q.numServers = n → ∀ k,
    ∀ s < n, (o s).isLocal ops k = true ↔ q.serverLocation ops k = s.toUInt64
  /-- The 16-bit cast loses nothing. -/
  narrowed : ∀ q : ConcurrentUnorderedMap K V, q.totalSize = total → q.numServers = n → ∀ k,
    (q.keyInt ops k).toUInt64 = q.serverLocation ops k
  /-- Nothing wraps around, nothing is divided by zero. -/
  rangesExact : ∀ s < n,
    rangesChecked total n.toUInt32 s.toUInt32 = some ((o s).minRange, (o s).maxRange)
  locationExact : ∀ q : ConcurrentUnorderedMap K V, q.totalSize = total → q.numServers = n → ∀ k,
    q.serverLocationChecked ops k = some (q.serverLocation ops k)
  isLocalExact : ∀ s < n, ∀ k, (o s).isLocalChecked ops k = some ((o s).isLocal ops k)

section Partition

variable {total : UInt64} {n : UInt16}

/-- A position is in the interval that a server computed exactly if it is in its interval in
unbounded arithmetic. -/
theorem mem_interval_iff {c : Container} (deployed : c.numServers = n) {s : UInt16} (server : s < n)
    (maxKey : K) (table : Option (BlockMap K V)) (pos : UInt64) :
    ((configured c total n.toUInt32 s.toUInt32 maxKey table).minRange ≤ pos ∧
        pos < (configured c total n.toUInt32 s.toUInt32 maxKey table).maxRange) ↔
      firstOf total.toNat n.toNat s.toNat ≤ pos.toNat ∧ pos.toNat <
        firstOf total.toNat n.toNat s.toNat + countOf total.toNat n.toNat s.toNat := by
  subst deployed
  obtain ⟨min, max⟩ := toNat_ranges (n := total) server maxKey table
  rw [UInt64.le_iff_toNat_le, UInt64.lt_iff_toNat_lt, min, max]

/-- The server that an object computes, in unbounded arithmetic. -/
theorem serverLocation_eq_iff (ops : KeyOps K) (q : ConcurrentUnorderedMap K V)
    (serving : 0 < q.numServers) (enough : q.numServers.toNat ≤ q.totalSize.toNat) (k : K) (s : UInt16) :
    q.serverLocation ops k = s.toUInt64 ↔
      location q.totalSize.toNat q.numServers.toNat ((ops.hash k).toNat % q.totalSize.toNat) =
        s.toNat := by
  rw [← UInt64.toNat_inj, toNat_serverLocation ops q serving enough, UInt16.toNat_toUInt64]

/-- What the servers of a deployment compute, around any tables, is a partition. -/
theorem configured_isPartition (ops : KeyOps K) (servers : 1 ≤ n.toNat)
    (enough : n.toNat ≤ total.toNat) (below : total.toNat < 2 ^ 64 - 1) {c : UInt16 → Container}
    (deployed : ∀ s < n, (c s).numServers = n ∧ (c s).isServer = true) (maxKey : K)
    (tables : UInt16 → Option (BlockMap K V)) :
    IsPartition ops total n
      fun s => configured (c s) total n.toUInt32 s.toUInt32 maxKey (tables s) := by
  have totalPos : 0 < total.toNat := by omega
  have inside : ∀ k, (ops.hash k).toNat % total.toNat < total.toNat := fun k => Nat.mod_lt _ totalPos
  have interval : ∀ s < n, ∀ pos : UInt64,
      ((configured (c s) total n.toUInt32 s.toUInt32 maxKey (tables s)).minRange ≤ pos ∧
          pos < (configured (c s) total n.toUInt32 s.toUInt32 maxKey (tables s)).maxRange ↔ _) :=
    fun s server pos => mem_interval_iff (deployed s server).1 server maxKey (tables s) pos
  have located : ∀ q : ConcurrentUnorderedMap K V, q.totalSize = total → q.numServers = n → ∀ k,
      ∀ s < n, q.serverLocation ops k = s.toUInt64 ↔
        (configured (c s) total n.toUInt32 s.toUInt32 maxKey (tables s)).minRange ≤
            ops.hash k % total ∧
          ops.hash k % total <
            (configured (c s) total n.toUInt32 s.toUInt32 maxKey (tables s)).maxRange := by
    rintro q rfl rfl k s server
    rw [interval s server, serverLocation_eq_iff ops q servers enough, UInt64.toNat_mod]
    exact location_eq_iff servers enough (inside k)
  constructor
  case nonempty =>
    intro s server
    obtain ⟨hn, -⟩ := deployed s server
    obtain ⟨min, max⟩ := toNat_ranges (c := c s) (n := total) (by rwa [hn]) maxKey (tables s)
    have count := countOf_pos servers enough s.toNat
    rw [hn] at min max
    rw [UInt64.lt_iff_toNat_lt, min, max]
    omega
  case disjoint =>
    intro s server s' server' pos low high low' high'
    have left := (interval s server pos).mp ⟨low, high⟩
    have right := (interval s' server' pos).mp ⟨low', high'⟩
    exact UInt16.toNat_inj.mp ((location_eq left.1 left.2).symm.trans (location_eq right.1 right.2))
  case covers =>
    intro pos
    constructor
    · intro within
      have within := UInt64.lt_iff_toNat_lt.mp within
      obtain ⟨server, place⟩ := location_spec servers enough within
      have small : location total.toNat n.toNat pos.toNat < 2 ^ 16 := Nat.lt_trans server n.toNat_lt
      have id : (UInt16.ofNat (location total.toNat n.toNat pos.toNat)).toNat =
          location total.toNat n.toNat pos.toNat := UInt16.toNat_ofNat_of_lt' small
      have server : UInt16.ofNat (location total.toNat n.toNat pos.toNat) < n := by
        rwa [UInt16.lt_iff_toNat_lt, id]
      refine ⟨_, server, (interval _ server pos).mpr ?_⟩
      rwa [id]
    · rintro ⟨s, server, place⟩
      obtain ⟨-, high⟩ := (interval s server pos).mp place
      have fits := firstOf_add_countOf_le total.toNat servers (UInt16.lt_iff_toNat_lt.mp server)
      exact UInt64.lt_iff_toNat_lt.mpr (Nat.lt_of_lt_of_le high fits)
  case located =>
    intro q ht hn k
    refine ⟨?_, located q ht hn k⟩
    subst ht hn
    rw [UInt64.lt_iff_toNat_lt, toNat_serverLocation ops q servers enough, UInt16.toNat_toUInt64]
    exact (location_spec servers enough (inside k)).1
  case isLocal =>
    intro q ht hn k s server
    obtain ⟨-, isServer⟩ := deployed s server
    have isServer : (configured (c s) total n.toUInt32 s.toUInt32 maxKey (tables s)).isServer = true :=
      isServer
    rw [located q ht hn k s server, ConcurrentUnorderedMap.isLocal, isServer, Bool.true_and,
      Bool.and_eq_true, decide_eq_true_iff, decide_eq_true_iff]
    rfl
  case narrowed =>
    rintro q rfl rfl k
    rw [← UInt64.toNat_inj, UInt16.toNat_toUInt64, toNat_keyInt ops q servers enough,
      toNat_serverLocation ops q servers enough]
  case rangesExact =>
    intro s server
    have np : n.toUInt32.toNat = n.toNat := UInt16.toNat_toUInt32 _
    have rank : s.toUInt32.toNat = s.toNat := UInt16.toNat_toUInt32 _
    apply rangesChecked_eq (by rw [np]; exact servers) below
    rw [rank, np]
    exact UInt16.lt_iff_toNat_lt.mp server
  case locationExact =>
    rintro q rfl rfl k
    exact serverLocationChecked_eq ops q servers enough below k
  case isLocalExact =>
    intro s server k
    have nonzero : total ≠ 0 := Checked.ne_zero_of_toNat_pos totalPos
    have mod : Checked.mod (ops.hash k)
        (configured (c s) total n.toUInt32 s.toUInt32 maxKey (tables s)).totalSize =
          some (ops.hash k % total) := Checked.mod_eq nonzero
    unfold isLocalChecked
    rw [mod]
    rfl

/-- **Range partition.** What `initialize_tables` computes on the servers and what `serverLocation`
and `isLocal` compute from it are one partition of the positions, without a wrap-around on the way.
On every server its assertions hold, and it returns wherever the memory is enough for the table. -/
theorem isPartition [Inhabited K] [Inhabited V] (ops : KeyOps K) (servers : 1 ≤ n.toNat)
    (enough : n.toNat ≤ total.toNat) (below : total.toNat < 2 ^ 64 - 1) (c : UInt16 → Container)
    (deployed : ∀ s < n, (c s).numServers = n ∧ (c s).isServer = true) (maxKey : K) :
    ∃ o : UInt16 → ConcurrentUnorderedMap K V,
      (∀ s < n, ∀ raw : RawTable, (o s).maxSize.toNat ≤ raw.room → ∃ table : BlockMap K V,
        initializeTables raw (c s) total n.toUInt32 s.toUInt32 maxKey =
          some { o s with myTable := some table }) ∧
      IsPartition ops total n o := by
  refine ⟨fun s => configured (c s) total n.toUInt32 s.toUInt32 maxKey none, ?_, ?_⟩
  · intro s server raw room
    have serving : 0 < n := UInt16.lt_iff_toNat_lt.mpr servers
    obtain ⟨positive, small⟩ := maxSizeOf_bounds serving enough s.toUInt32
    have top : total < 18446744073709551615 := UInt64.lt_iff_toNat_lt.mpr below
    have nonzero : 0 < total := UInt64.lt_of_lt_of_le positive small
    have fits := UInt64.lt_of_le_of_lt small top
    have chunk : (0 : UInt32) < 100 := by decide
    obtain ⟨table, built⟩ := (BlockMap.exists_new_iff (V := V) raw _ chunk maxKey).mpr
      ⟨positive, room, fits⟩
    exact ⟨table, (initializeTables_eq_some_iff (deployed s server).2).mpr
      ⟨⟨nonzero, top⟩, ⟨positive, fits⟩, table, built, rfl⟩⟩
  · exact configured_isPartition ops servers enough below deployed maxKey fun _ => none

end Partition

/-- Ten positions on three servers: the first interval is one longer. -/
theorem isPartition_three_servers :
    1 ≤ (3 : UInt16).toNat ∧ (3 : UInt16).toNat ≤ (10 : UInt64).toNat ∧
      ∃ o : UInt16 → ConcurrentUnorderedMap UInt64 UInt64,
        (∀ s < 3, ∀ raw : RawTable, (o s).maxSize.toNat ≤ raw.room →
          ∃ table : BlockMap UInt64 UInt64,
            initializeTables raw ⟨3, s, true, true⟩ 10 (3 : UInt16).toUInt32 s.toUInt32 0 =
              some { o s with myTable := some table }) ∧
        IsPartition KeyOps.identity 10 3 o :=
  ⟨by decide, by decide, isPartition KeyOps.identity (by decide) (by decide) (by decide)
    (fun s => ⟨3, s, true, true⟩) (fun _ _ => ⟨rfl, rfl⟩) 0⟩

end Hcl.ConcurrentUnorderedMap
