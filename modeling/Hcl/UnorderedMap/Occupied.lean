import Mathlib.Algebra.BigOperators.Group.List.Basic
import Mathlib.Algebra.Order.Ring.Nat
import Mathlib.Data.List.Induction
import Hcl.UnorderedMap

/-!
The counter `size_occupied` of one process.

`LocalPut` adds to the counter when it inserts and leaves it alone when it
overwrites; what it adds is computed from the argument after `GetData` moved out of
it. `LocalErase` subtracts the size of what is stored. So the counter is the size of
the stored entries along a run exactly when every overwrite keeps the size of the
value, moving out of a value that is inserted keeps its size, and the sum fits into
the counter (`accurate_iff`).
-/

namespace Hcl.UnorderedMap

variable {K V : Type*} [CalculateSize K] [CalculateSize V]

/-- `CalculateSize(key) + CalculateSize(value)` of an entry, not reduced to 64 bits. -/
def entrySize (key : K) (value : V) : Nat :=
  (CalculateSize.getSize key).toNat + (CalculateSize.getSize value).toNat

/-- The size of all stored entries. -/
def occupied (table : HashMap K V) : Nat :=
  (table.entries.map fun e => entrySize e.1 e.2).sum

/-- The object of a process that has not been used yet. -/
def Local.empty : Local K V := ⟨∅, 0⟩

section Runs

variable [DecidableEq K] [Inhabited V] [MoveOut V]

/-- One call of a `Local*` body. -/
def localStep (s : Local K V) : Op K V → Local K V
  | .put key data => (localPut key data s).1
  | .get key => (localGet key s).1
  | .erase key => (localErase key s).1

/-- The object after calls made one after the other. -/
def after (calls : List (Op K V)) : Local K V := calls.foldl localStep Local.empty

/-- The counter is the occupied size. -/
structure Local.Accurate (s : Local K V) : Prop where
  total : s.sizeOccupied.toNat = occupied s.myHashMap
  empty : s.myHashMap = ∅ → s.sizeOccupied = 0
  noWrap : ∀ key value, s.myHashMap.lookup key = some value →
    entrySize key value ≤ s.sizeOccupied.toNat

/-- What a call has to meet for the counter to stay accurate: a value that overwrites
another has its size, and a value that is inserted has the same size after it was moved
out of, and fits. -/
def Local.Meets (s : Local K V) : Op K V → Prop
  | .put key data =>
      (∀ old, s.myHashMap.lookup key = some old →
          CalculateSize.getSize data = CalculateSize.getSize old) ∧
        (s.myHashMap.lookup key = none →
          CalculateSize.getSize (MoveOut.residue data) = CalculateSize.getSize data ∧
            occupied s.myHashMap + entrySize key data < 2 ^ 64)
  | .get _ => True
  | .erase _ => True

/-! ### The sum over the entries -/

omit [Inhabited V] [MoveOut V] in
theorem occupied_insert (key : K) (value : V) (table : HashMap K V) :
    occupied (table.insert key value) = entrySize key value + occupied (table.erase key) := by
  rw [occupied, AList.entries_insert, List.map_cons, List.sum_cons]
  rfl

omit [CalculateSize K] [CalculateSize V] [Inhabited V] [MoveOut V] in
theorem erase_of_lookup_eq_none {key : K} {table : HashMap K V} (absent : table.lookup key = none) :
    table.erase key = table := by
  apply AList.ext
  exact List.kerase_of_notMem_keys (AList.lookup_eq_none.mp absent)

omit [Inhabited V] [MoveOut V] in
theorem occupied_of_lookup {key : K} {value : V} {table : HashMap K V}
    (stored : table.lookup key = some value) :
    occupied table = entrySize key value + occupied (table.erase key) := by
  have present : key ∈ table.keys := by
    rw [← AList.mem_keys, ← AList.lookup_isSome, stored]
    rfl
  obtain ⟨value', before, behind, -, split, erased⟩ := List.exists_of_kerase present
  have same : value' = value := by
    have mem : (⟨key, value'⟩ : Sigma fun _ : K => V) ∈ table.entries := by
      rw [split]
      exact List.mem_append_right _ List.mem_cons_self
    exact Option.some.inj ((AList.mem_lookup_iff.mpr mem).symm.trans stored)
  show (table.entries.map _).sum = _ + ((table.entries.kerase key).map _).sum
  rw [erased, split, same]
  simp only [List.map_append, List.map_cons, List.sum_append, List.sum_cons]
  omega

/-! ### One call -/

omit [Inhabited V] [MoveOut V] in
/-- The other two facts follow from the sum. -/
theorem accurate_iff_total {s : Local K V} :
    s.Accurate ↔ s.sizeOccupied.toNat = occupied s.myHashMap := by
  constructor
  · exact Local.Accurate.total
  · intro total
    constructor
    · exact total
    · intro empty
      rw [empty] at total
      exact UInt64.toNat_inj.mp total
    · intro key value stored
      rw [total, occupied_of_lookup stored]
      exact Nat.le_add_right _ _

omit [Inhabited V] in
/-- From an accurate counter, `LocalPut` leaves an accurate one exactly when it meets its
condition. -/
theorem accurate_localPut_iff {s : Local K V} (accurate : s.Accurate) (key : K) (data : V) :
    (localPut key data s).1.Accurate ↔ s.Meets (.put key data) := by
  have total := accurate.total
  rw [accurate_iff_total]
  cases stored : s.myHashMap.lookup key with
  | some old =>
      have sizes : occupied s.myHashMap = entrySize key old + occupied (s.myHashMap.erase key) :=
        occupied_of_lookup stored
      simp only [localPut, getData, insertOrAssign, occupied_insert, Local.Meets, stored, total, sizes,
        Option.isNone_some, Bool.false_eq_true, if_false, entrySize, ← UInt64.toNat_inj,
        Option.some.injEq, forall_eq', reduceCtorEq, false_implies, and_true]
      omega
  | none =>
      simp only [localPut, getData, insertOrAssign, occupied_insert, Local.Meets, stored, total,
        erase_of_lookup_eq_none stored, Option.isNone_none, if_true, UInt64.toNat_add, entrySize,
        ← UInt64.toNat_inj, reduceCtorEq, false_implies, implies_true, true_and, forall_const]
      have left := (CalculateSize.getSize (MoveOut.residue data)).toNat_lt
      have whole := (CalculateSize.getSize data).toNat_lt
      omega

omit [MoveOut V] in
theorem accurate_localErase {s : Local K V} (accurate : s.Accurate) (key : K) :
    (localErase key s).1.Accurate := by
  unfold localErase
  cases stored : s.myHashMap.lookup key with
  | none => exact accurate
  | some value =>
      have total := accurate.total
      have fits := accurate.noWrap key value stored
      have small := s.sizeOccupied.toNat_lt
      rw [occupied_of_lookup stored] at total
      rw [accurate_iff_total]
      show (s.sizeOccupied - _).toNat = occupied (s.myHashMap.erase key)
      simp only [entrySize] at total fits
      have removed : (CalculateSize.getSize key + CalculateSize.getSize value).toNat =
          (CalculateSize.getSize key).toNat + (CalculateSize.getSize value).toNat := by
        rw [UInt64.toNat_add]
        exact Nat.mod_eq_of_lt (by omega)
      rw [UInt64.toNat_sub_of_le _ _ (by rw [UInt64.le_iff_toNat_le, removed]; exact fits), removed]
      omega

omit [CalculateSize K] [CalculateSize V] [MoveOut V] in
theorem localGet_fst (key : K) (s : Local K V) : (localGet key s).1 = s := by
  unfold localGet
  split <;> rfl

/-- One call. -/
theorem accurate_localStep_iff {s : Local K V} (accurate : s.Accurate) (call : Op K V) :
    (localStep s call).Accurate ↔ s.Meets call := by
  cases call with
  | put key data => exact accurate_localPut_iff accurate key data
  | get key =>
      rw [localStep, localGet_fst]
      exact ⟨fun _ => trivial, fun _ => accurate⟩
  | erase key => exact ⟨fun _ => trivial, fun _ => accurate_localErase accurate key⟩

/-! ### Whole runs -/

omit [Inhabited V] [MoveOut V] in
theorem accurate_empty : (Local.empty : Local K V).Accurate := by
  rw [accurate_iff_total]
  rfl

/-- **The counter is the occupied size in every state of a run exactly when every call of
the run meets its condition in the state before it.** -/
theorem accurate_iff (calls : List (Op K V)) :
    (∀ done, done <+: calls → (after done).Accurate) ↔
      ∀ done call, done ++ [call] <+: calls → (after done).Meets call := by
  have next : ∀ (done : List (Op K V)) call, after (done ++ [call]) = localStep (after done) call := by
    intro done call
    rw [after, List.foldl_append]
    rfl
  constructor
  · intro accurate done call run
    have before := accurate done ((List.prefix_append done [call]).trans run)
    rw [← accurate_localStep_iff before, ← next]
    exact accurate _ run
  · intro meets done
    -- By induction on the calls made so far, the last one taken off.
    induction done using List.reverseRecOn with
    | nil => exact fun _ => accurate_empty
    | append_singleton done call ih =>
        intro run
        have before := ih ((List.prefix_append done [call]).trans run)
        rw [next, accurate_localStep_iff before]
        exact meets done call run

end Runs

/-- A string is put, and what is added to the counter is the size of the empty string that
moving out of it left: the counter is three short. Erasing the string then wraps it. -/
theorem not_accurate_string_put :
    ¬ (after [Op.put (1 : UInt64) "abc"]).Accurate ∧
      (after [Op.put (1 : UInt64) "abc"]).sizeOccupied = 9 ∧
      occupied (after [Op.put (1 : UInt64) "abc"]).myHashMap = 12 ∧
      (after [Op.put (1 : UInt64) "abc", .erase 1]).sizeOccupied = 18446744073709551613 := by
  rw [accurate_iff_total]
  decide +kernel

end Hcl.UnorderedMap
