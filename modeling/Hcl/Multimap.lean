import Hcl.Lib.Keyed
import Hcl.KeyValue

/-!
`hcl::multimap`: the table of a segment is a `boost::interprocess::multimap`, which
may hold several entries of one key. `LocalPut` erases one entry of the key before
it inserts, so a table that starts without repeated keys never gets any
(`OnePerKey`); `MyMap` itself allows them.

`LocalContainsInServer` returns the only entry of a multimap of one entry whatever
its key is; everywhere else it returns related entries only, and for keys related by
equality all of them (`answersRelated_iff`).
-/

namespace Hcl.Multimap

open Hcl.Lib Hcl.Lib.Keyed

variable {K V : Type*} [LinearOrder K]

/-- The ordered multimap of one segment. -/
structure MyMap (K V : Type*) [LinearOrder K] where
  entries : List (K × V)
  nondecreasing : Nondecreasing Prod.fst entries

def MyMap.empty : MyMap K V := ⟨[], List.Pairwise.nil⟩

/-- `find`, as the value the iterator points at. -/
def MyMap.find (key : K) (m : MyMap K V) : Option V :=
  (lookup Prod.fst key m.entries).map Prod.snd

/-- `erase(find(key))`: the single entry the iterator points at. -/
def MyMap.eraseFound (key : K) (m : MyMap K V) : MyMap K V :=
  ⟨eraseFirst Prod.fst key m.entries, m.nondecreasing.eraseFirst⟩

/-- `erase(key)`: every entry of the key, and how many they were. -/
def MyMap.erase (key : K) (m : MyMap K V) : MyMap K V × Nat :=
  (⟨eraseKey Prod.fst key m.entries, m.nondecreasing.eraseKey⟩,
    m.entries.length - (eraseKey Prod.fst key m.entries).length)

/-- `insert(pair)`: behind the entries of the same key. -/
def MyMap.insert (key : K) (value : V) (m : MyMap K V) : MyMap K V :=
  ⟨insertUpper Prod.fst (key, value) m.entries, m.nondecreasing.insertUpper⟩

/-- `LocalPut`. -/
def localPut [MoveOut V] (key : K) (data : V) (m : MyMap K V) : MyMap K V × (Bool × V) :=
  let m := if (m.find key).isSome then m.eraseFound key else m
  let (value, left) := getData data
  (m.insert key value, (true, left))

/-- `LocalGet`. -/
def localGet [Inhabited V] (key : K) (m : MyMap K V) : MyMap K V × (Bool × V) :=
  match m.find key with
  | some value => (m, (true, value))
  | none => (m, (false, default))

/-- `LocalErase`. -/
def localErase [Inhabited V] (key : K) (m : MyMap K V) : MyMap K V × (Bool × V) :=
  let (m', s) := m.erase key
  (m', (decide (s > 0), default))

/-- `LocalGetAllDataInServer`: from `begin()` to `end()`. -/
def localGetAllDataInServer (m : MyMap K V) : List (K × V) := m.entries

/-- `LocalContainsInServer`, by the size of the multimap, for the `Contains` of the key
type. `none` would be an end iterator dereferenced. -/
def localContainsInServer (contains : K → K → Bool) (key : K) (m : MyMap K V) :
    Option (List (K × V)) :=
  match m.entries.length with
  | 0 => some []
  | 1 => m.entries[0]?.map fun e => [e]
  | _ =>
      scanFrom (fun e => contains key e.1) (fun e => !(contains key e.1 || contains e.1 key))
        m.entries (lowerBound Prod.fst key m.entries)

def bodies (K V : Type*) [LinearOrder K] [Inhabited V] [MoveOut V] :
    KeyValue.Bodies K V (MyMap K V) where
  localPut := localPut
  localGet := localGet
  localErase := localErase
  localGetAllDataInServer := localGetAllDataInServer

section Operations

variable [Inhabited V] [MoveOut V] (keyHash : K → UInt64) (c : Container)

/-- `Put`: the new segments, the answer, and what the call leaves in `data`. -/
def put (key : K) (data : V) (segments : UInt16 → MyMap K V) :
    (UInt16 → MyMap K V) × (Bool × V) :=
  (bodies K V).put keyHash c key data segments

def get (key : K) (segments : UInt16 → MyMap K V) : (UInt16 → MyMap K V) × (Bool × V) :=
  (bodies K V).get keyHash c key segments

def erase (key : K) (segments : UInt16 → MyMap K V) : (UInt16 → MyMap K V) × (Bool × V) :=
  (bodies K V).erase keyHash c key segments

def getAllData (segments : UInt16 → MyMap K V) : List (K × V) := (bodies K V).getAllData c segments

end Operations

/-! ### One entry per key -/

/-- No key has two entries. -/
def MyMap.OnePerKey (m : MyMap K V) : Prop := (m.entries.map Prod.fst).Nodup

/-- After its first step `LocalPut` holds no entry of the key, whether it erased one
or found none; that is where one entry per key is needed. -/
theorem entries_before_insert {m : MyMap K V} (once : m.OnePerKey) (k : K) :
    (if (m.find k).isSome then m.eraseFound k else m).entries = eraseKey Prod.fst k m.entries := by
  split
  · exact eraseFirst_eq_eraseKey once
  · rename_i absent
    rw [MyMap.find, Option.isSome_map, lookup_isSome_iff, List.mem_map, not_exists] at absent
    have kept : ∀ e ∈ m.entries, decide (e.1 ≠ k) = true := fun e he =>
      decide_eq_true fun eq => absent e ⟨he, eq⟩
    exact (List.filter_eq_self.mpr kept).symm

theorem absent_after_erase (k : K) (l : List (K × V)) :
    ∀ d ∈ eraseKey Prod.fst k l, d.1 ≠ k := fun _ hd => (mem_eraseKey.mp hd).2

theorem onePerKey_localPut [MoveOut V] {m : MyMap K V} (once : m.OnePerKey) (k : K) (v : V) :
    (localPut k v m).1.OnePerKey := by
  show ((insertUpper Prod.fst (k, v) _).map Prod.fst).Nodup
  rw [entries_before_insert once]
  exact nodup_keys_insertUpper (nodup_keys_eraseKey once) (absent_after_erase k _)

theorem find_localPut [MoveOut V] {m : MyMap K V} (once : m.OnePerKey) (k : K) (v : V) (q : K) :
    (localPut k v m).1.find q = if k = q then some v else m.find q := by
  have nodup : ((insertUpper Prod.fst (k, v) (eraseKey Prod.fst k m.entries)).map Prod.fst).Nodup :=
    nodup_keys_insertUpper (nodup_keys_eraseKey once) (absent_after_erase k _)
  have looked : lookup Prod.fst q (insertUpper Prod.fst (k, v) (eraseKey Prod.fst k m.entries)) =
      if k = q then some (k, v) else lookup Prod.fst q m.entries := by
    refine lookup_congr once nodup ?_ ?_
    · rintro d ⟨⟩
      rfl
    · intro d
      rw [mem_insertUpper, mem_eraseKey, Option.some.injEq, eq_comm]
  show (lookup Prod.fst q (insertUpper Prod.fst (k, v) _)).map Prod.snd = _
  rw [entries_before_insert once, looked]
  split <;> rfl

theorem lawful [Inhabited V] [MoveOut V] :
    (bodies K V).Lawful MyMap.empty (fun m k => m.find k) MyMap.OnePerKey where
  empty_inv := List.nodup_nil
  empty_view _ := rfl
  put_inv once := onePerKey_localPut once _ _
  put_view once := find_localPut once _ _
  put_answer := rfl
  get_eq {k m} _ := by
    show localGet k m = _
    unfold localGet
    cases m.find k <;> rfl
  erase_inv once := nodup_keys_eraseKey once
  erase_view {k m} once q := by
    show ((lookup Prod.fst q (eraseKey Prod.fst k m.entries)).map Prod.snd) = _
    rw [lookup_eraseKey once]
    split <;> rfl
  erase_answer _ := Prod.ext (decide_eraseKey_count Prod.snd) rfl
  mem_entries once _ _ := (lookup_snd_eq_some_iff once).symm
  nodup_entries once := once

/-! ### Related entries -/

/-- Every entry of the answer is stored and related to the key. -/
def MyMap.AnswersRelated (m : MyMap K V) (contains : K → K → Bool) (key : K) : Prop :=
  ∃ answer, localContainsInServer contains key m = some answer ∧
    ∀ e ∈ answer, e ∈ m.entries ∧ (contains key e.1 = true ∨ contains e.1 key = true)

/-- Where `Contains` is equality, the answer is the entries of the key, each once. -/
def MyMap.AnswersEqual (m : MyMap K V) (key : K) : Prop :=
  ∃ answer, localContainsInServer (fun a b => decide (a = b)) key m = some answer ∧
    answer.Perm (m.entries.filter fun e => decide (e.1 = key))

/-- The only entry is the answer to every query. -/
theorem localContainsInServer_singleton {m : MyMap K V} {e : K × V} (only : m.entries = [e])
    (contains : K → K → Bool) (key : K) : localContainsInServer contains key m = some [e] := by
  rw [localContainsInServer, only]
  rfl

/-- With no entry or several, the answer is the scan. -/
theorem localContainsInServer_eq_scanFrom {m : MyMap K V} (several : ∀ e, m.entries ≠ [e])
    (contains : K → K → Bool) (key : K) : localContainsInServer contains key m =
      scanFrom (fun e => contains key e.1) (fun e => !(contains key e.1 || contains e.1 key))
        m.entries (lowerBound Prod.fst key m.entries) := by
  unfold localContainsInServer
  split
  · rename_i empty
    rw [List.eq_nil_of_length_eq_zero empty]
    rfl
  · rename_i one
    obtain ⟨e, only⟩ := List.length_eq_one_iff.mp one
    exact absurd only (several e)
  · rfl

theorem answersRelated_of_several {m : MyMap K V} (several : ∀ e, m.entries ≠ [e])
    (contains : K → K → Bool) (key : K) : m.AnswersRelated contains key := by
  rw [MyMap.AnswersRelated, localContainsInServer_eq_scanFrom several]
  rcases Nat.eq_or_lt_of_le (lowerBound_le Prod.fst key m.entries) with atEnd | inside
  · exact ⟨[], if_pos atEnd, fun e contra => nomatch contra⟩
  · obtain ⟨it, -, -, scanned⟩ := scanFrom_eq (fun e : K × V => contains key e.1)
      (fun e => !(contains key e.1 || contains e.1 key)) inside
    refine ⟨_, scanned, ?_⟩
    intro e he
    constructor
    · exact List.mem_of_mem_drop ((List.takeWhile_sublist _).subset he)
    · have goes := List.mem_takeWhile_imp he
      simpa using goes

theorem answersEqual_of_several {m : MyMap K V} (several : ∀ e, m.entries ≠ [e]) (key : K) :
    m.AnswersEqual key := by
  rw [MyMap.AnswersEqual, localContainsInServer_eq_scanFrom several]
  refine ⟨_, scanFrom_lowerBound ?_, ?_⟩
  · intro e _ smaller
    exact decide_eq_false smaller.ne'
  · apply List.Perm.of_eq
    -- Behind the lower bound no key is smaller, so the first that differs is greater.
    have goes : ∀ e ∈ m.entries.drop (lowerBound Prod.fst key m.entries),
        (!!(decide (key = e.1) || decide (e.1 = key))) = decide (e.1 ≤ key) := by
      intro e he
      rw [drop_lowerBound m.nondecreasing, List.mem_filter, decide_eq_true_iff] at he
      simp only [Bool.not_not, eq_comm, Bool.or_self]
      exact decide_eq_decide.mpr ⟨fun same => same.ge, fun le => he.2.antisymm le⟩
    rw [takeWhile_congr goes, takeWhile_drop_lowerBound m.nondecreasing]
    apply List.filter_congr
    intro e _
    rw [← Bool.decide_and]
    exact decide_eq_decide.mpr ⟨fun h => h.2.antisymm h.1, fun same => ⟨same.ge, same.le⟩⟩

/-- **A query returns related entries only, and for equality all of them, exactly when the
multimap does not have one entry only, or that entry is related to the key.** -/
theorem answersRelated_iff (key : K) (m : MyMap K V) :
    (∀ contains, m.AnswersRelated contains key ↔ ∀ e, m.entries = [e] →
        contains key e.1 = true ∨ contains e.1 key = true) ∧
      (m.AnswersEqual key ↔ ∀ e, m.entries = [e] → e.1 = key) := by
  by_cases one : ∃ e, m.entries = [e]
  · obtain ⟨e, only⟩ := one
    have each : ∀ P : K × V → Prop, (∀ d, m.entries = [d] → P d) ↔ P e := by
      intro P
      rw [only]
      constructor
      · exact fun h => h e rfl
      · rintro h d ⟨⟩
        exact h
    constructor
    · intro contains
      rw [each, MyMap.AnswersRelated, localContainsInServer_singleton only]
      constructor
      · rintro ⟨_, ⟨⟩, related⟩
        exact (related e List.mem_cons_self).2
      · intro related
        refine ⟨[e], rfl, ?_⟩
        intro d hd
        cases List.mem_singleton.mp hd
        exact ⟨only ▸ hd, related⟩
    · rw [each, MyMap.AnswersEqual, localContainsInServer_singleton only, only]
      constructor
      · rintro ⟨_, ⟨⟩, perm⟩
        have stored := perm.mem_iff.mp List.mem_cons_self
        exact of_decide_eq_true (List.mem_filter.mp stored).2
      · intro same
        refine ⟨[e], rfl, ?_⟩
        rw [List.filter_cons, if_pos (decide_eq_true same)]
        exact List.Perm.refl _
  · have several := not_exists.mp one
    constructor
    · intro contains
      exact ⟨fun _ e only => absurd only (several e),
        fun _ => answersRelated_of_several several contains key⟩
    · exact ⟨fun _ e only => absurd only (several e), fun _ => answersEqual_of_several several key⟩

/-- The multimap with the one key 5. -/
def onlyFive : MyMap Nat Nat := ⟨[(5, 50)], List.pairwise_singleton _ _⟩

/-- The query for 7, by equality, is answered with the entry of 5. -/
theorem not_answersRelated_only_five :
    ¬ onlyFive.AnswersRelated (fun a b => decide (a = b)) 7 ∧ ¬ onlyFive.AnswersEqual 7 ∧
      localContainsInServer (fun a b => decide (a = b)) 7 onlyFive = some [(5, 50)] := by
  refine ⟨?_, ?_, rfl⟩
  · rintro ⟨_, ⟨⟩, related⟩
    exact absurd (related (5, 50) List.mem_cons_self).2 (by decide)
  · rintro ⟨_, ⟨⟩, perm⟩
    exact absurd perm.length_eq (by decide)

end Hcl.Multimap
