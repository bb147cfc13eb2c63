import Mathlib.Algebra.Order.Ring.Int
import Mathlib.Data.Nat.Log
import Mathlib.Order.Bounds.Basic
import Hcl.Lib.Checked
import Hcl.Container
import Hcl.SkipList.Quiet

/-!
`hcl::concurrent_skiplist`: one skip list per server, after
`concurrent/skiplist/skiplist.h`. The list of one server is `ConcurrentSkipList`.

The server of a key is read off the upper bits of its hash: with `n` servers the number of
bits is the logarithm of the least power of two that is not below `n`, and indices past the
last server are clamped to it. For one server the number of bits is zero, and the mask is
shifted by 64, which is undefined. From two servers on the hashes are cut into `n` blocks in
order (`isPrefixPartition_iff`).
-/

namespace Hcl

/-- `class concurrent_skiplist`. A client has no list. -/
structure ConcurrentSkiplist (T : Type) extends Container where
  nservers : UInt32
  serverid : UInt32
  nbits : UInt64
  s : Option (ConcurrentSkipList T)

namespace ConcurrentSkiplist

open Hcl.Lib

variable {T : Type}

/-- `while (c < n) c = 2 * c;` for at most `rounds` rounds, with the range of `int`. -/
def powerOfTwoLoop (n : Int) : Nat → Int → Option Int
  | 0, c => if c < n then none else some c
  | rounds + 1, c =>
      if c < n then
        if 2 * c < 2 ^ 31 then powerOfTwoLoop n rounds (2 * c) else none
      else some c

/-- `power_of_two(n)`. After 31 doublings `c` is out of the range of `int`. -/
def powerOfTwo (n : Int32) : Option UInt64 :=
  (powerOfTwoLoop n.toInt 31 1).map fun c => UInt64.ofInt c

/-- The fields and the list that `initialize_sets(np, rank)` sets up. `log2` is taken of a
power of two. -/
def initializeSets [Inhabited T] (c : Container) (np rank : UInt32) :
    Option (ConcurrentSkiplist T) := do
  let nservers2 ← powerOfTwo np.toInt32
  let o : ConcurrentSkiplist T :=
    { c with nservers := np, serverid := rank, nbits := nservers2.log2, s := none }
  if c.isServer then
    let s ← ConcurrentSkipList.new 2
    return { o with s := some s }
  else return o

/-- What `serverLocation` computes from a hash. A shift by 64 or more is undefined. -/
def locate (o : ConcurrentSkiplist T) (hashval : UInt64) : Option UInt64 := do
  let mask ← Checked.shiftLeft 18446744073709551615 (64 - o.nbits)
  let id ← Checked.shiftRight (hashval &&& mask) (64 - o.nbits)
  return if id ≥ o.nservers.toUInt64 then (o.nservers - 1).toUInt64 else id

/-- `serverLocation(k)`. -/
def serverLocation (hash : T → UInt64) (o : ConcurrentSkiplist T) (k : T) : Option UInt64 :=
  o.locate (hash k)

/-- `isLocal(k)`. -/
def isLocal (hash : T → UInt64) (o : ConcurrentSkiplist T) (k : T) : Option Bool :=
  if o.isServer then do
    let id ← o.serverLocation hash k
    return id == o.serverid.toUInt64
  else some false

/-! ### The number of bits -/

/-- The loop stops at the first power of two that is not below `n`. -/
theorem powerOfTwoLoop_spec {n rounds e : Nat} (from' : e ≤ Nat.clog 2 n)
    (enough : Nat.clog 2 n ≤ e + rounds) (small : Nat.clog 2 n ≤ 30) :
    powerOfTwoLoop n rounds ((2 : Int) ^ e) = some ((2 : Int) ^ Nat.clog 2 n) := by
  have doubles : ∀ e, ((2 : Int) ^ e < n ↔ e < Nat.clog 2 n) := by
    intro e
    rw [Nat.lt_clog_iff_pow_lt Nat.one_lt_two]
    exact_mod_cast Iff.rfl
  induction rounds generalizing e with
  | zero =>
      have last : e = Nat.clog 2 n := by omega
      have stops : ¬ (2 : Int) ^ e < n := by
        rw [doubles]
        omega
      rw [powerOfTwoLoop, if_neg stops, last]
  | succ rounds ih =>
      rw [powerOfTwoLoop]
      by_cases goes : (2 : Int) ^ e < n
      · have below := (doubles e).mp goes
        have fits : 2 * (2 : Int) ^ e < 2 ^ 31 := by
          rw [← pow_succ']
          exact pow_lt_pow_right₀ (by decide) (by omega)
        rw [if_pos goes, if_pos fits, ← pow_succ']
        exact ih below (by omega)
      · have last : e = Nat.clog 2 n := by
          rw [doubles] at goes
          omega
        rw [if_neg goes, last]

/-- **`power_of_two` terminates and returns the least power of two that is not below `n`.** -/
theorem powerOfTwo_spec {np : UInt32} (small : np.toNat ≤ 65535) :
    ∃ p, powerOfTwo np.toInt32 = some p ∧ p.toNat = 2 ^ Nat.clog 2 np.toNat := by
  have bits : Nat.clog 2 np.toNat ≤ 16 := Nat.clog_le_of_le_pow (Nat.le_trans small (by decide))
  have int : np.toInt32.toInt = np.toNat := by
    apply BitVec.toInt_eq_toNat_of_lt
    show 2 * np.toNat < 2 ^ 32
    omega
  have loop : powerOfTwoLoop np.toNat 31 (2 ^ 0) = _ :=
    powerOfTwoLoop_spec (Nat.zero_le _) (by omega) (by omega)
  rw [pow_zero] at loop
  refine ⟨UInt64.ofInt ((2 : Int) ^ Nat.clog 2 np.toNat), ?_, ?_⟩
  · rw [powerOfTwo, int, loop, Option.map_some]
  · have cast : (2 : Int) ^ Nat.clog 2 np.toNat = ((2 ^ Nat.clog 2 np.toNat : Nat) : Int) := by
      push_cast
      rfl
    have fits : 2 ^ Nat.clog 2 np.toNat < 2 ^ 64 := Nat.pow_lt_pow_right Nat.one_lt_two (by omega)
    rw [cast, UInt64.ofInt, Int.emod_eq_of_lt (Int.natCast_nonneg _) (by exact_mod_cast fits),
      Int.toNat_natCast]
    exact UInt64.toNat_ofNat_of_lt' fits

/-- The number of bits for `n` servers. -/
theorem initializeSets_spec [Inhabited T] (c : Container) {np : UInt32} (small : np.toNat ≤ 65535)
    (rank : UInt32) : ∃ o : ConcurrentSkiplist T, initializeSets c np rank = some o ∧
      o.nservers = np ∧ o.nbits.toNat = Nat.clog 2 np.toNat := by
  obtain ⟨p, power, value⟩ := powerOfTwo_spec small
  have bits : p.log2.toNat = Nat.clog 2 np.toNat := by
    show p.toNat.log2 = _
    rw [value, Nat.log2_two_pow]
  unfold initializeSets
  rw [power]
  simp only [Option.bind_eq_bind, Option.bind_some, Option.pure_def]
  split
  · obtain ⟨s, made, -⟩ := ConcurrentSkipList.new_spec (fun _ _ : T => False) Nat.two_pos
      (Nat.le_refl 2) (by decide)
    rw [made]
    exact ⟨_, rfl, rfl, bits⟩
  · exact ⟨_, rfl, rfl, bits⟩

/-! ### The server of a hash -/

/-- Masking the upper bits before shifting them down changes nothing. -/
theorem toNat_masked (h : UInt64) {m : Nat} (small : m < 64) :
    (h.toNat &&& (2 ^ 64 - 1) <<< m % 2 ^ 64) >>> m = h.toNat / 2 ^ m := by
  rw [← Nat.shiftRight_eq_div_pow]
  apply Nat.eq_of_testBit_eq
  intro i
  simp only [Nat.testBit_shiftRight, Nat.testBit_and, Nat.testBit_mod_two_pow,
    Nat.testBit_shiftLeft, Nat.testBit_two_pow_sub_one]
  by_cases inside : m + i < 64
  · have low : i < 64 := by omega
    simp [inside, low]
  · have out : h.toNat.testBit (m + i) = false := by
      apply Nat.testBit_lt_two_pow
      exact Nat.lt_of_lt_of_le h.toNat_lt (Nat.pow_le_pow_right (by decide) (by omega))
    simp [out]

variable {o : ConcurrentSkiplist T}

/-- From one bit on, `serverLocation` is the block of the hash, clamped to the last server. -/
theorem locate_spec (servers : 1 ≤ o.nservers.toNat) (bits : 1 ≤ o.nbits.toNat)
    (few : o.nbits.toNat ≤ 64) (h : UInt64) :
    ∃ id, o.locate h = some id ∧
      id.toNat = min (h.toNat / 2 ^ (64 - o.nbits.toNat)) (o.nservers.toNat - 1) := by
  have count : (64 - o.nbits).toNat = 64 - o.nbits.toNat := by
    rw [UInt64.toNat_sub_of_le]
    · rfl
    · exact UInt64.le_iff_toNat_le.mpr few
  have small : 64 - o.nbits < 64 := by
    rw [UInt64.lt_iff_toNat_lt, count]
    show 64 - o.nbits.toNat < 64
    omega
  have block : ((h &&& (18446744073709551615 <<< (64 - o.nbits))) >>> (64 - o.nbits)).toNat =
      h.toNat / 2 ^ (64 - o.nbits.toNat) := by
    rw [UInt64.toNat_shiftRight, UInt64.toNat_and, UInt64.toNat_shiftLeft, count,
      Nat.mod_eq_of_lt (by omega : 64 - o.nbits.toNat < 64)]
    exact toNat_masked h (by omega)
  have last : (o.nservers - 1).toUInt64.toNat = o.nservers.toNat - 1 := by
    rw [UInt32.toNat_toUInt64, UInt32.toNat_sub_of_le]
    · rfl
    · exact UInt32.le_iff_toNat_le.mpr servers
  unfold locate
  rw [Checked.shiftLeft_eq small, Option.bind_eq_bind, Option.bind_some,
    Checked.shiftRight_eq small, Option.bind_some]
  refine ⟨_, rfl, ?_⟩
  split
  · rename_i past
    have past := UInt64.le_iff_toNat_le.mp past
    rw [block, UInt32.toNat_toUInt64] at past
    rw [last]
    omega
  · rename_i within
    have within := mt UInt64.le_iff_toNat_le.mpr within
    rw [block, UInt32.toNat_toUInt64] at within
    rw [block]
    omega

/-- With no bits the mask is shifted by 64. -/
theorem locate_eq_none (single : o.nbits = 0) (h : UInt64) : o.locate h = none := by
  have large : ¬ 64 - o.nbits < 64 := by
    rw [single]
    decide
  rw [locate, Checked.shiftLeft_eq_none large]
  rfl

/-- What the servers make of the hashes: every hash has a server, computed with shifts by
less than the width, greater hashes have no smaller servers, and no server is left out. -/
structure IsPrefixPartition (n : UInt32) (o : ConcurrentSkiplist T) : Prop where
  defined : ∀ h, ∃ id, o.locate h = some id ∧ id < n.toUInt64
  monotone : ∀ h₁ h₂ id₁ id₂, h₁ ≤ h₂ → o.locate h₁ = some id₁ → o.locate h₂ = some id₂ → id₁ ≤ id₂
  reaches : ∀ s < n, ∃ h, o.locate h = some s.toUInt64

theorem isPrefixPartition (servers : 2 ≤ o.nservers.toNat) (small : o.nservers.toNat ≤ 65535)
    (nbits : o.nbits.toNat = Nat.clog 2 o.nservers.toNat) : IsPrefixPartition o.nservers o := by
  have bits : 1 ≤ o.nbits.toNat := by
    rw [nbits]
    exact Nat.clog_pos Nat.one_lt_two servers
  have few : o.nbits.toNat ≤ 16 := by
    rw [nbits]
    exact Nat.clog_le_of_le_pow (Nat.le_trans small (by decide))
  have located := locate_spec (o := o) (by omega) bits (by omega)
  constructor
  case defined =>
    intro h
    obtain ⟨id, found, value⟩ := located h
    refine ⟨id, found, ?_⟩
    rw [UInt64.lt_iff_toNat_lt, value, UInt32.toNat_toUInt64]
    omega
  case monotone =>
    intro h₁ h₂ id₁ id₂ le found₁ found₂
    obtain ⟨_, found, value₁⟩ := located h₁
    obtain rfl := Option.some.inj (found.symm.trans found₁)
    obtain ⟨_, found, value₂⟩ := located h₂
    obtain rfl := Option.some.inj (found.symm.trans found₂)
    have blocks : h₁.toNat / 2 ^ (64 - o.nbits.toNat) ≤ h₂.toNat / 2 ^ (64 - o.nbits.toNat) :=
      Nat.div_le_div_right (UInt64.le_iff_toNat_le.mp le)
    rw [UInt64.le_iff_toNat_le, value₁, value₂]
    omega
  case reaches =>
    intro s below
    have below := UInt32.lt_iff_toNat_lt.mp below
    -- The first hash of the block `s`.
    have room : s.toNat * 2 ^ (64 - o.nbits.toNat) < 2 ^ 64 := by
      have width : o.nservers.toNat ≤ 2 ^ o.nbits.toNat := by
        rw [nbits]
        exact Nat.le_pow_clog Nat.one_lt_two _
      calc s.toNat * 2 ^ (64 - o.nbits.toNat)
          < 2 ^ o.nbits.toNat * 2 ^ (64 - o.nbits.toNat) :=
            Nat.mul_lt_mul_of_pos_right (Nat.lt_of_lt_of_le below width) (Nat.two_pow_pos _)
        _ = 2 ^ 64 := by
            rw [← Nat.pow_add]
            congr 1
            omega
    obtain ⟨id, found, value⟩ := located (UInt64.ofNat (s.toNat * 2 ^ (64 - o.nbits.toNat)))
    refine ⟨_, found.trans (congrArg some (UInt64.toNat_inj.mp ?_))⟩
    rw [value, UInt64.toNat_ofNat_of_lt' room, Nat.mul_div_cancel _ (Nat.two_pow_pos _),
      UInt32.toNat_toUInt64]
    omega

/-- **Prefix partition.** For every number of servers that fits into 16 bits `power_of_two`
returns the least power of two that is not below it, `initialize_sets` returns, and what
`serverLocation` then makes of the hashes is a partition exactly if there are at least two
servers. -/
theorem isPrefixPartition_iff [Inhabited T] (c : Container) {np : UInt32} (servers : 1 ≤ np.toNat)
    (small : np.toNat ≤ 65535) (rank : UInt32) :
    (∃ p, powerOfTwo np.toInt32 = some p ∧
        IsLeast {q | np.toNat ≤ q ∧ ∃ e, q = 2 ^ e} p.toNat) ∧
      ∃ o : ConcurrentSkiplist T, initializeSets c np rank = some o ∧
        (IsPrefixPartition np o ↔ np ≠ 1) := by
  constructor
  · obtain ⟨p, power, value⟩ := powerOfTwo_spec small
    refine ⟨p, power, ?_⟩
    rw [value]
    constructor
    · exact ⟨Nat.le_pow_clog Nat.one_lt_two _, _, rfl⟩
    · rintro _ ⟨above, e, rfl⟩
      exact Nat.pow_le_pow_right Nat.two_pos (Nat.clog_le_of_le_pow above)
  · obtain ⟨o, made, rfl, nbits⟩ := initializeSets_spec (T := T) c small rank
    refine ⟨o, made, ?_⟩
    constructor
    · intro partition one
      have single : o.nbits = 0 := by
        apply UInt64.toNat_inj.mp
        rw [nbits, one]
        rfl
      obtain ⟨id, found, -⟩ := partition.defined 0
      rw [locate_eq_none single] at found
      cases found
    · intro several
      have two : 2 ≤ o.nservers.toNat := by
        have : o.nservers.toNat ≠ 1 := fun one => several (UInt32.toNat_inj.mp one)
        omega
      exact isPrefixPartition two small nbits

/-- Three servers: two bits, and the last of the four blocks is clamped. -/
theorem isPrefixPartition_iff_three_servers :
    1 ≤ (3 : UInt32).toNat ∧ (3 : UInt32).toNat ≤ 65535 ∧
      ∃ o : ConcurrentSkiplist UInt64, initializeSets ⟨3, 0, false, false⟩ 3 0 = some o ∧
        IsPrefixPartition 3 o := by
  have one : 1 ≤ (3 : UInt32).toNat := by decide
  have small : (3 : UInt32).toNat ≤ 65535 := by decide
  obtain ⟨-, o, made, iff⟩ := isPrefixPartition_iff (T := UInt64) ⟨3, 0, false, false⟩ one small 0
  exact ⟨one, small, o, made, iff.mpr (by decide)⟩

/-- With one server no hash has a defined server. -/
theorem not_isPrefixPartition_one_server :
    ∃ o : ConcurrentSkiplist UInt64, initializeSets ⟨1, 0, false, false⟩ 1 0 = some o ∧
      ¬ IsPrefixPartition 1 o ∧ o.locate 0 = none := by
  refine ⟨_, rfl, ?_, rfl⟩
  intro partition
  obtain ⟨id, found, -⟩ := partition.defined 0
  cases found

end ConcurrentSkiplist

end Hcl
