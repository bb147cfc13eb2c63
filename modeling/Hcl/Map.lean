import Hcl.Lib.Keyed
import Hcl.KeyValue

/-!
`hcl::map`: the table of a segment is a `boost::interprocess::map`, a list of
entries with strictly increasing keys. The bodies follow `map.cpp`.

`LocalContainsInServer` has a branch of its own for a map of one entry, which is not
the range query the other branches are (`answersRange_iff`).
-/

namespace Hcl.Map

open Hcl.Lib Hcl.Lib.Keyed

variable {K V : Type*} [LinearOrder K]

/-- The ordered map of one segment. -/
structure MyMap (K V : Type*) [LinearOrder K] where
  entries : List (K × V)
  increasing : Increasing Prod.fst entries

/-- The map `construct_shared_memory` builds. -/
def MyMap.empty : MyMap K V := ⟨[], List.Pairwise.nil⟩

def MyMap.insertOrAssign (key : K) (value : V) (m : MyMap K V) : MyMap K V :=
  ⟨upsert Prod.fst (key, value) m.entries, m.increasing.upsert⟩

/-- `erase(key)`: the map and how many entries were erased. -/
def MyMap.erase (key : K) (m : MyMap K V) : MyMap K V × Nat :=
  (⟨eraseKey Prod.fst key m.entries, m.increasing.eraseKey⟩,
    m.entries.length - (eraseKey Prod.fst key m.entries).length)

/-- `find`, as the value the iterator points at. -/
def MyMap.find (key : K) (m : MyMap K V) : Option V :=
  (lookup Prod.fst key m.entries).map Prod.snd

/-- `LocalPut`. -/
def localPut [MoveOut V] (key : K) (data : V) (m : MyMap K V) : MyMap K V × (Bool × V) :=
  let (value, left) := getData data
  (m.insertOrAssign key value, (true, left))

/-- `LocalGet`. -/
def localGet [Inhabited V] (key : K) (m : MyMap K V) : MyMap K V × (Bool × V) :=
  match m.find key with
  | some value => (m, (true, value))
  | none => (m, (false, default))

/-- `LocalErase`. -/
def localErase [Inhabited V] (key : K) (m : MyMap K V) : MyMap K V × (Bool × V) :=
  let (m', s) := m.erase key
  (m', (decide (s > 0), default))

/-- `LocalGetAllDataInServer`: from `begin()` to `end()`. -/
def localGetAllDataInServer (m : MyMap K V) : List (K × V) := m.entries

/-- `LocalContainsInServer`, by the size of the map. `none` would be an end iterator
dereferenced. -/
def localContainsInServer (keyStart keyEnd : K) (m : MyMap K V) : Option (List (K × V)) :=
  match m.entries.length with
  | 0 => some []
  | 1 => m.entries[0]?.map fun e => if e.1 > keyStart then [e] else []
  | _ =>
      scanFrom (fun e => !decide (keyStart > e.1)) (fun e => decide (e.1 > keyEnd)) m.entries
        (lowerBound Prod.fst keyStart m.entries)

def bodies (K V : Type*) [LinearOrder K] [Inhabited V] [MoveOut V] :
    KeyValue.Bodies K V (MyMap K V) where
  localPut := localPut
  localGet := localGet
  localErase := localErase
  localGetAllDataInServer := localGetAllDataInServer

section Operations

variable [Inhabited V] [MoveOut V] (keyHash : K → UInt64) (c : Container)

/-- `Put`: the new segments, the answer, and what the call leaves in `data`. -/
def put (key : K) (data : V) (segments : UInt16 → MyMap K V) :
    (UInt16 → MyMap K V) × (Bool × V) :=
  (bodies K V).put keyHash c key data segments

def get (key : K) (segments : UInt16 → MyMap K V) : (UInt16 → MyMap K V) × (Bool × V) :=
  (bodies K V).get keyHash c key segments

def erase (key : K) (segments : UInt16 → MyMap K V) : (UInt16 → MyMap K V) × (Bool × V) :=
  (bodies K V).erase keyHash c key segments

def getAllData (segments : UInt16 → MyMap K V) : List (K × V) := (bodies K V).getAllData c segments

end Operations

theorem lawful [Inhabited V] [MoveOut V] :
    (bodies K V).Lawful MyMap.empty (fun m k => m.find k) fun _ => True where
  empty_inv := trivial
  empty_view _ := rfl
  put_inv _ := trivial
  put_view {k v m} _ q := by
    show ((lookup Prod.fst q (upsert Prod.fst (k, v) m.entries)).map Prod.snd) = _
    rw [lookup_upsert m.increasing]
    split <;> rfl
  put_answer := rfl
  get_eq {k m} _ := by
    show localGet k m = _
    unfold localGet
    cases m.find k <;> rfl
  erase_inv _ := trivial
  erase_view {k m} _ q := by
    show ((lookup Prod.fst q (eraseKey Prod.fst k m.entries)).map Prod.snd) = _
    rw [lookup_eraseKey m.increasing.nodup_keys]
    split <;> rfl
  erase_answer _ := Prod.ext (decide_eraseKey_count Prod.snd) rfl
  mem_entries {m} _ _ _ := (lookup_snd_eq_some_iff m.increasing.nodup_keys).symm
  nodup_entries {m} _ := m.increasing.nodup_keys

/-! ### Range queries -/

/-- The answer is the range: its entries in increasing order, each once. -/
def MyMap.AnswersRange (m : MyMap K V) (keyStart keyEnd : K) : Prop :=
  ∃ answer, localContainsInServer keyStart keyEnd m = some answer ∧ Increasing Prod.fst answer ∧
    ∀ e, e ∈ answer ↔ e ∈ m.entries ∧ keyStart ≤ e.1 ∧ e.1 ≤ keyEnd

/-- The only entry is compared with `key_start` alone, and has to be above it. -/
theorem localContainsInServer_singleton {m : MyMap K V} {e : K × V} (only : m.entries = [e])
    (keyStart keyEnd : K) : localContainsInServer keyStart keyEnd m =
      some (if e.1 > keyStart then [e] else []) := by
  rw [localContainsInServer, only]
  rfl

/-- With no entry or several, the answer is the range. -/
theorem localContainsInServer_eq_filter {m : MyMap K V} (several : ∀ e, m.entries ≠ [e])
    (keyStart keyEnd : K) : localContainsInServer keyStart keyEnd m =
      some (m.entries.filter fun e => decide (keyStart ≤ e.1) && decide (e.1 ≤ keyEnd)) := by
  unfold localContainsInServer
  split
  · rename_i empty
    rw [List.eq_nil_of_length_eq_zero empty]
    rfl
  · rename_i one
    obtain ⟨e, only⟩ := List.length_eq_one_iff.mp one
    exact absurd only (several e)
  · have within : (fun e : K × V => !decide (e.1 > keyEnd)) = fun e => decide (e.1 ≤ keyEnd) := by
      funext e
      rw [← decide_not]
      simp only [gt_iff_lt, not_lt]
    rw [scanFrom_lowerBound, within, takeWhile_drop_lowerBound m.increasing.nondecreasing]
    intro e _ smaller
    simpa using smaller

theorem localContainsInServer_isSome (keyStart keyEnd : K) (m : MyMap K V) :
    (localContainsInServer keyStart keyEnd m).isSome := by
  by_cases one : ∃ e, m.entries = [e]
  · obtain ⟨e, only⟩ := one
    rw [localContainsInServer_singleton only]
    rfl
  · rw [localContainsInServer_eq_filter (not_exists.mp one)]
    rfl

theorem answersRange_of_several {m : MyMap K V} (several : ∀ e, m.entries ≠ [e])
    (keyStart keyEnd : K) : m.AnswersRange keyStart keyEnd := by
  refine ⟨_, localContainsInServer_eq_filter several keyStart keyEnd,
    m.increasing.sublist List.filter_sublist, ?_⟩
  intro e
  simp

theorem answersRange_singleton_iff {m : MyMap K V} {e : K × V} (only : m.entries = [e])
    (keyStart keyEnd : K) : m.AnswersRange keyStart keyEnd ↔
      (keyStart < e.1 ↔ keyStart ≤ e.1 ∧ e.1 ≤ keyEnd) := by
  have answer := localContainsInServer_singleton only keyStart keyEnd
  constructor
  · rintro ⟨answer', answered, -, range⟩
    cases answered.symm.trans answer
    have here := range e
    simpa [only] using here
  · intro agrees
    refine ⟨_, answer, ?_, ?_⟩
    · split
      · exact List.pairwise_singleton _ _
      · exact List.Pairwise.nil
    · intro d
      rw [only, List.mem_singleton]
      by_cases above : e.1 > keyStart
      · rw [if_pos above, List.mem_singleton]
        constructor
        · rintro rfl
          exact ⟨rfl, agrees.mp above⟩
        · exact fun h => h.1
      · rw [if_neg above]
        constructor
        · exact fun contra => nomatch contra
        · rintro ⟨rfl, within⟩
          exact absurd (agrees.mpr within) above

/-- **The range query dereferences no end iterator, and is exact unless the map has one
entry only, whose key is the start of a range that is not empty, or is above both ends.** -/
theorem answersRange_iff (keyStart keyEnd : K) (m : MyMap K V) :
    (localContainsInServer keyStart keyEnd m).isSome ∧
      (m.AnswersRange keyStart keyEnd ↔ ∀ e, m.entries = [e] →
        ¬ (e.1 = keyStart ∧ keyStart ≤ keyEnd) ∧ ¬ (keyStart < e.1 ∧ keyEnd < e.1)) := by
  refine ⟨localContainsInServer_isSome keyStart keyEnd m, ?_⟩
  by_cases one : ∃ e, m.entries = [e]
  · obtain ⟨e, only⟩ := one
    rw [answersRange_singleton_iff only]
    constructor
    · intro agrees d only'
      cases only.symm.trans only'
      constructor
      · rintro ⟨start, ordered⟩
        exact absurd (agrees.mpr ⟨start.ge, start.trans_le ordered⟩) start.not_gt
      · rintro ⟨above, beyond⟩
        exact absurd (agrees.mp above).2 (not_le.mpr beyond)
    · intro condition
      obtain ⟨notStart, notBeyond⟩ := condition e only
      constructor
      · exact fun above => ⟨above.le, not_lt.mp fun beyond => notBeyond ⟨above, beyond⟩⟩
      · rintro ⟨start, within⟩
        exact lt_of_le_of_ne start fun same => notStart ⟨same.symm, same.trans_le within⟩
  · have several := not_exists.mp one
    exact ⟨fun _ e only => absurd only (several e),
      fun _ => answersRange_of_several several keyStart keyEnd⟩

/-- The map with the one key 5. -/
def onlyFive : MyMap Nat Nat := ⟨[(5, 50)], List.pairwise_singleton _ _⟩

/-- The range from 5 to 5 misses the key 5, and the range from 0 to 3 has it. -/
theorem not_answersRange_only_five :
    ¬ onlyFive.AnswersRange 5 5 ∧ localContainsInServer 5 5 onlyFive = some [] ∧
      ¬ onlyFive.AnswersRange 0 3 ∧ localContainsInServer 0 3 onlyFive = some [(5, 50)] := by
  refine ⟨?_, rfl, ?_, rfl⟩
  · rw [answersRange_singleton_iff rfl]
    decide
  · rw [answersRange_singleton_iff rfl]
    decide

end Hcl.Map
