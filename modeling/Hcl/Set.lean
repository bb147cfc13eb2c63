import Mathlib.Data.Finset.Basic
import Mathlib.Data.Finset.Dedup
import Mathlib.Data.Finset.Lattice.Lemmas
import Hcl.Lib.Keyed
import Hcl.Lib.Runs
import Hcl.Lib.Shards
import Hcl.Container

/-!
`hcl::set`: one ordered set spread over the servers, after `set.cpp`.

`Put`, `Get`, `Erase` and `GetAllData` make the servers one set (`isOneSet`).
`Contains` asks every server for its keys between two bounds. A server that holds
exactly one key compares it with the lower bound only, so the answer depends on how
the keys are spread: it is exact when every stored key above the upper bound, but
not below the lower one, has another key on its server (`contains_exact_iff`).
-/

namespace Hcl.Set

open Hcl.Lib Hcl.Lib.Keyed

variable {K : Type*} [LinearOrder K]

/-! ### The set of one server -/

/-- `boost::interprocess::set`: strictly increasing keys. -/
structure MySet (K : Type*) [LinearOrder K] where
  entries : List K
  increasing : Increasing id entries

def MySet.empty : MySet K := ⟨[], List.Pairwise.nil⟩

/-- `insert(value)` leaves an element that is already there. -/
def MySet.insert (value : K) (s : MySet K) : MySet K :=
  if (lookup id value s.entries).isSome then s
  else ⟨upsert id value s.entries, s.increasing.upsert⟩

/-- `erase(key)`: the set and how many keys were erased. -/
def MySet.erase (key : K) (s : MySet K) : MySet K × Nat :=
  (⟨eraseKey id key s.entries, s.increasing.eraseKey⟩,
    s.entries.length - (eraseKey id key s.entries).length)

/-- `LocalPut`. The key itself is moved out of. -/
def localPut [MoveOut K] (key : K) (s : MySet K) : MySet K × (Bool × K) :=
  let (value, left) := getData key
  (s.insert value, (true, left))

/-- `LocalGet`. -/
def localGet (key : K) (s : MySet K) : MySet K × Bool :=
  if (lookup id key s.entries).isSome then (s, true) else (s, false)

/-- `LocalErase`. -/
def localErase (key : K) (s : MySet K) : MySet K × Bool :=
  let (s', count) := s.erase key
  (s', decide (count > 0))

/-- `LocalGetAllDataInServer`: from `begin()` to `end()`. -/
def localGetAllDataInServer (s : MySet K) : List K := s.entries

/-- The iterator `LocalContainsInServer` starts from, for a `lower_bound` that is not
`end()`: one step back, unless at `begin()`, and forward again if that was too far. -/
def rangeStart (keyStart : K) (entries : List K) : Nat :=
  match Keyed.lowerBound id keyStart entries with
  | 0 => 0
  | previous + 1 =>
      match entries[previous]? with
      | some k => if keyStart > k then previous + 1 else previous
      | none => previous

/-- `LocalContainsInServer`. Iterators are positions in the list of keys. -/
def localContainsInServer (keyStart keyEnd : K) (s : MySet K) : List K :=
  match s.entries with
  | [] => []
  | [k] => if k ≥ keyStart then [k] else []
  | entries =>
      if Keyed.lowerBound id keyStart entries = entries.length then []
      else (entries.drop (rangeStart keyStart entries)).takeWhile fun k => !decide (k > keyEnd)

/-! ### The distributed operations -/

section Operations

variable (keyHash : K → UInt64) (c : Container)

/-- `Put`: the new segments, the answer, and what the call leaves in `key`. -/
def put [MoveOut K] (key : K) (segments : UInt16 → MySet K) :
    (UInt16 → MySet K) × (Bool × K) :=
  dispatchWrite c (hashServer (keyHash key) c.numServers) localPut key segments

def get (key : K) (segments : UInt16 → MySet K) : (UInt16 → MySet K) × Bool :=
  dispatch c (hashServer (keyHash key) c.numServers) (localGet key) segments

def erase (key : K) (segments : UInt16 → MySet K) : (UInt16 → MySet K) × Bool :=
  dispatch c (hashServer (keyHash key) c.numServers) (localErase key) segments

def getAllData (segments : UInt16 → MySet K) : List K :=
  collect c localGetAllDataInServer segments

def contains (keyStart keyEnd : K) (segments : UInt16 → MySet K) : List K :=
  collect c (localContainsInServer keyStart keyEnd) segments

end Operations

inductive Op (K : Type*) where
  | put (key : K)
  | get (key : K)
  | erase (key : K)
  | getAllData

inductive Answer (K : Type*) where
  | put (ok : Bool)
  | get (found : Bool)
  | erase (found : Bool)
  | getAllData (keys : List K)

/-- One call, made on one object. -/
structure Call (K : Type*) where
  caller : Container
  op : Op K

def Call.Admitted (n : UInt16) (call : Call K) : Prop :=
  call.caller.numServers = n ∧ call.caller.myServerIdx < n

/-- The servers process one call. -/
def step [MoveOut K] (keyHash : K → UInt64) (segments : UInt16 → MySet K) (call : Call K) :
    (UInt16 → MySet K) × Answer K :=
  match call.op with
  | .put key =>
      let out := put keyHash call.caller key segments
      (out.1, .put out.2.1)
  | .get key =>
      let out := get keyHash call.caller key segments
      (out.1, .get out.2)
  | .erase key =>
      let out := erase keyHash call.caller key segments
      (out.1, .erase out.2)
  | .getAllData => (segments, .getAllData (getAllData call.caller segments))

/-! ### One set over all servers -/

/-- A single set. `GetAllData` lists every key once, in any order. -/
def Spec (S : Finset K) (call : Call K) : Answer K → Finset K → Prop :=
  match call.op with
  | .put key => fun a S' => a = .put true ∧ S' = insert key S
  | .get key => fun a S' => a = .get (decide (key ∈ S)) ∧ S' = S
  | .erase key => fun a S' => a = .erase (decide (key ∈ S)) ∧ S' = S.erase key
  | .getAllData => fun a S' => S' = S ∧ ∃ keys, a = .getAllData keys ∧ keys.Nodup ∧
      ∀ k, k ∈ keys ↔ k ∈ S

/-- The deployment is one set: the answers to any calls by its objects, processed in
any order, are those of a single set, and in the state they lead to every key is
stored on at most one server, once. -/
def IsOneSet [MoveOut K] (n : UInt16) (keyHash : K → UInt64) : Prop :=
  ∀ calls : List (Call K), (∀ call ∈ calls, call.Admitted n) →
    let out := answers (step keyHash) (fun _ => MySet.empty) calls
    let keys := fun i => localGetAllDataInServer (out.1 i)
    (∃ S, SpecRun Spec ∅ calls out.2 S) ∧
      (∀ i j k, k ∈ keys i → k ∈ keys j → i = j) ∧ ∀ i, (keys i).Nodup

/-- What a table stores for a key: `()` when it is present. -/
def view (s : MySet K) (k : K) : Option Unit := (lookup id k s.entries).map fun _ => ()

/-- The segments of a deployment of `n` servers hold the set `S`. -/
def Holds (n : UInt16) (keyHash : K → UInt64) (segments : UInt16 → MySet K) (S : Finset K) : Prop :=
  Held view (fun k => hashServer (keyHash k) n) (fun _ => True) segments
    fun k => if k ∈ S then some () else none

theorem stored_iff {S : Finset K} {k : K} : (if k ∈ S then some () else none) = some () ↔ k ∈ S := by
  simp

theorem lookup_isSome_iff_mem {k : K} {l : List K} : (lookup id k l).isSome ↔ k ∈ l := by
  rw [lookup_isSome_iff, List.map_id]

theorem view_eq_some_iff {s : MySet K} {k : K} : view s k = some () ↔ k ∈ s.entries := by
  rw [view, ← lookup_isSome_iff_mem]
  cases lookup id k s.entries <;> simp

theorem MySet.nodup (s : MySet K) : s.entries.Nodup := by
  have := s.increasing.nodup_keys
  rwa [List.map_id] at this

theorem mem_insert {value k : K} {s : MySet K} :
    k ∈ (s.insert value).entries ↔ k = value ∨ k ∈ s.entries := by
  unfold MySet.insert
  split
  · rename_i present
    have mem := lookup_isSome_iff_mem.mp present
    exact ⟨Or.inr, fun h => h.elim (fun eq => eq ▸ mem) id⟩
  · rename_i absent
    have notMem := fun h => absent (lookup_isSome_iff_mem.mpr h)
    show k ∈ upsert id value s.entries ↔ _
    rw [mem_upsert s.increasing]
    exact or_congr_right ⟨fun h => h.1, fun h => ⟨h, fun (eq : k = value) => notMem (eq ▸ h)⟩⟩

theorem view_insert (value : K) (s : MySet K) (q : K) :
    view (s.insert value) q = if value = q then some () else view s q := by
  ext u
  cases u
  rw [view_eq_some_iff, mem_insert]
  split
  · rename_i eq
    simp [eq]
  · rename_i ne
    rw [view_eq_some_iff]
    exact ⟨fun h => h.resolve_left fun eq => ne eq.symm, Or.inr⟩

theorem view_localErase (key : K) (s : MySet K) (q : K) :
    view (localErase key s).1 q = if key = q then none else view s q := by
  show (lookup id q (eraseKey id key s.entries)).map _ = _
  rw [lookup_eraseKey s.increasing.nodup_keys]
  split <;> rfl

theorem localErase_answer (key : K) (s : MySet K) :
    (localErase key s).2 = (view s key).isSome :=
  decide_eraseKey_count _

theorem localGet_eq (key : K) (s : MySet K) : localGet key s = (s, (view s key).isSome) := by
  unfold localGet view
  split <;> simp_all

/-- Reading the held set on the server of a key. -/
theorem Holds.view_isSome {n : UInt16} {keyHash : K → UInt64} {segments : UInt16 → MySet K}
    {S : Finset K} (held : Holds n keyHash segments S) (key : K) :
    (view (segments (hashServer (keyHash key) n)) key).isSome = decide (key ∈ S) := by
  rw [Held.view_owner held key]
  split <;> simp_all

/-- Putting a key on its server adds it to the held set. -/
theorem Holds.insert {n : UInt16} {keyHash : K → UInt64} {segments : UInt16 → MySet K}
    {S : Finset K} (held : Holds n keyHash segments S) (key : K) :
    Holds n keyHash (Function.update segments (hashServer (keyHash key) n)
      ((segments (hashServer (keyHash key) n)).insert key)) (insert key S) := by
  have written := Held.write (k := key) held (fun q (eq : key = q) => by rw [eq]) trivial (view_insert key _)
  refine ⟨written.placed, written.merged_eq.trans (funext ?_), written.each⟩
  intro q
  simp only [Finset.mem_insert, eq_comm (a := q)]
  by_cases eq : key = q <;> simp [eq]

/-- One call: the servers answer as the single set does and keep holding it. -/
theorem step_simulates [MoveOut K] {n : UInt16} (servers : 0 < n) {keyHash : K → UInt64}
    (segments : UInt16 → MySet K) (S : Finset K) (call : Call K)
    (held : Holds n keyHash segments S) (admitted : call.Admitted n) :
    ∃ S', Spec S call (step keyHash segments call).2 S' ∧
      Holds n keyHash (step keyHash segments call).1 S' := by
  obtain ⟨c, op⟩ := call
  obtain ⟨rfl, own⟩ := admitted
  cases op with
  | put key =>
      obtain ⟨paths, flag⟩ := dispatchWrite_eq c (hashServer (keyHash key) c.numServers)
        localPut key segments
      refine ⟨_, ⟨?_, rfl⟩, ?_⟩
      · simp only [step, put, flag, onServer, localPut, getData]
      · simp only [step, put, paths, onServer]
        exact held.insert key
  | get key =>
      refine ⟨S, ⟨?_, rfl⟩, ?_⟩ <;>
        simp only [step, get, dispatch_eq, onServer, localGet_eq, held.view_isSome,
          Function.update_eq_self]
      exact held
  | erase key =>
      refine ⟨_, ⟨?_, rfl⟩, ?_⟩ <;> simp only [step, erase, dispatch_eq, onServer]
      · rw [localErase_answer, held.view_isSome]
      · have written := Held.write (k := key) held (fun q (eq : key = q) => by rw [eq]) trivial
          (view_localErase key _)
        refine ⟨written.placed, written.merged_eq.trans (funext ?_), written.each⟩
        intro q
        simp only [Finset.mem_erase, ne_eq, eq_comm (a := q)]
        by_cases eq : key = q <;> simp [eq]
  | getAllData =>
      have listed : c.myServerIdx ∈ c.serverRange := Container.mem_serverRange.mpr own
      refine ⟨S, ⟨rfl, _, rfl, ?_, fun k => ?_⟩, held⟩ <;>
        simp only [getAllData, collect_eq_gather]
      · have once := gather_nodup_keys localGetAllDataInServer id held.placed
          (fun i e mem => by rw [id, view_eq_some_iff.mpr mem]; rfl)
          (fun i => (segments i).increasing.nodup_keys) c.serverRange_nodup listed
        rwa [List.map_id] at once
      · rw [mem_gather localGetAllDataInServer (fun k (_ : Unit) => k) (v := ()) held.placed
          (fun i k _ => view_eq_some_iff.symm) c.serverRange_nodup listed
          (fun k => Container.mem_serverRange.mpr (hashServer_lt servers _)), held.merged_eq]
        exact stored_iff

theorem holds_empty (n : UInt16) (keyHash : K → UInt64) :
    Holds n keyHash (fun _ => MySet.empty) ∅ :=
  ⟨fun _ _ _ => rfl, rfl, fun _ => trivial⟩

/-- On segments that hold a set, a key is stored on the server of its hash only. -/
theorem Holds.mem_entries {n : UInt16} {keyHash : K → UInt64} {segments : UInt16 → MySet K}
    {S : Finset K} (held : Holds n keyHash segments S) {i : UInt16} {k : K} :
    k ∈ (segments i).entries ↔ k ∈ S ∧ i = hashServer (keyHash k) n := by
  constructor
  · intro mem
    obtain ⟨here, stored⟩ := held.placed.merged_of_view (view_eq_some_iff.mpr mem)
    rw [held.merged_eq] at stored
    exact ⟨stored_iff.mp stored, here⟩
  · rintro ⟨mem, rfl⟩
    rw [← view_eq_some_iff, Held.view_owner held k, if_pos mem]

/-- `Put`, `Get`, `Erase` and `GetAllData` make the servers one set. -/
theorem isOneSet [MoveOut K] {n : UInt16} (servers : 0 < n) (keyHash : K → UInt64) :
    IsOneSet n keyHash := by
  intro calls admitted out keys
  obtain ⟨S, run, held⟩ := answers_of_simulation (step_simulates servers) (holds_empty n keyHash)
    admitted
  refine ⟨⟨S, run⟩, ?_, fun i => (out.1 i).nodup⟩
  intro i j k left right
  exact ((held.mem_entries.mp left).2).trans (held.mem_entries.mp right).2.symm

/-! ### Contains -/

/-- The key before the lower bound is smaller than `key_start`, so the step back is
always undone. -/
theorem rangeStart_eq (keyStart : K) (entries : List K) :
    rangeStart keyStart entries = Keyed.lowerBound id keyStart entries := by
  unfold rangeStart
  cases bound : Keyed.lowerBound id keyStart entries with
  | zero => rfl
  | succ previous =>
      have before : previous < Keyed.lowerBound id keyStart entries := by omega
      have inside : previous < entries.length :=
        before.trans_le (List.takeWhile_sublist _).length_le
      have found := List.getElem?_eq_getElem inside
      have smaller : keyStart > entries[previous] := lt_of_lt_lowerBound before _ found
      simp only [found, if_pos smaller]

/-- From the lower bound to the first key above `key_end`: the keys of the range. -/
theorem takeWhile_drop_eq_filter (keyStart keyEnd : K) {entries : List K}
    (increasing : Increasing id entries) :
    (entries.drop (rangeStart keyStart entries)).takeWhile (fun k => !decide (k > keyEnd)) =
      entries.filter fun k => decide (keyStart ≤ k) && decide (k ≤ keyEnd) := by
  have negated : (fun k => !decide (k > keyEnd)) = fun k => decide (id k ≤ keyEnd) := by
    funext k
    rw [← decide_not]
    simp only [gt_iff_lt, not_lt, id]
  rw [rangeStart_eq, negated, takeWhile_drop_lowerBound increasing.nondecreasing]
  rfl

/-- What one server answers: its keys in the range, and its only key also when that
key is above the range. -/
theorem mem_localContainsInServer {keyStart keyEnd k : K} {s : MySet K} :
    k ∈ localContainsInServer keyStart keyEnd s ↔
      k ∈ s.entries ∧ keyStart ≤ k ∧ (k ≤ keyEnd ∨ s.entries = [k]) := by
  obtain ⟨entries, increasing⟩ := s
  unfold localContainsInServer
  match entries, increasing with
  | [], _ => simp
  | [only], _ =>
      by_cases above : only ≥ keyStart
      · simp only [above, if_true, List.mem_singleton]
        constructor
        · rintro rfl
          exact ⟨rfl, above, Or.inr rfl⟩
        · exact fun h => h.1
      · simp only [above, if_false, List.not_mem_nil, List.mem_singleton, false_iff]
        rintro ⟨rfl, start, -⟩
        exact above start
  | first :: second :: rest, increasing =>
      have several : first :: second :: rest ≠ [k] := fun eq => nomatch eq
      have filtered := takeWhile_drop_eq_filter keyStart keyEnd increasing
      simp only [several, or_false]
      split
      · rename_i atEnd
        have dropped := drop_lowerBound (k := keyStart) increasing.nondecreasing
        rw [List.drop_eq_nil_of_le atEnd.ge] at dropped
        constructor
        · exact fun h => nomatch h
        · rintro ⟨mem, start, -⟩
          exact absurd (List.filter_eq_nil_iff.mp dropped.symm k mem) (by simpa using start)
      · rw [filtered, List.mem_filter]
        simp

theorem nodup_localContainsInServer (keyStart keyEnd : K) (s : MySet K) :
    (localContainsInServer keyStart keyEnd s).Nodup := by
  have nodup := s.nodup
  unfold localContainsInServer
  split
  · exact List.nodup_nil
  · split
    · exact List.nodup_singleton _
    · exact List.nodup_nil
  · split
    · exact List.nodup_nil
    · exact nodup.sublist ((List.takeWhile_sublist _).trans (List.drop_sublist _ _))

/-- `Contains` on segments that hold `S`: the keys of the range, and every key above
it that is alone on its server. -/
theorem mem_contains {n : UInt16} (servers : 0 < n) {keyHash : K → UInt64}
    {segments : UInt16 → MySet K} {S : Finset K} (held : Holds n keyHash segments S)
    {c : Container} (deployed : c.numServers = n) (own : c.myServerIdx < n)
    (keyStart keyEnd k : K) :
    k ∈ contains c keyStart keyEnd segments ↔ k ∈ S ∧ keyStart ≤ k ∧
      (k ≤ keyEnd ∨ (segments (hashServer (keyHash k) n)).entries = [k]) := by
  subst deployed
  have listed : c.myServerIdx ∈ c.serverRange := Container.mem_serverRange.mpr own
  rw [contains, collect_eq_gather, (gather_perm _ _ c.serverRange_nodup listed).mem_iff,
    List.mem_flatMap]
  constructor
  · rintro ⟨i, -, answered⟩
    obtain ⟨stored, start, within⟩ := mem_localContainsInServer.mp answered
    obtain ⟨mem, rfl⟩ := held.mem_entries.mp stored
    exact ⟨mem, start, within⟩
  · rintro ⟨mem, start, within⟩
    exact ⟨_, Container.mem_serverRange.mpr (hashServer_lt servers _),
      mem_localContainsInServer.mpr ⟨held.mem_entries.mpr ⟨mem, rfl⟩, start, within⟩⟩

theorem nodup_contains {n : UInt16} {keyHash : K → UInt64} {segments : UInt16 → MySet K}
    {S : Finset K} (held : Holds n keyHash segments S) {c : Container}
    (own : c.myServerIdx < c.numServers) (keyStart keyEnd : K) :
    (contains c keyStart keyEnd segments).Nodup := by
  have listed : c.myServerIdx ∈ c.serverRange := Container.mem_serverRange.mpr own
  have once := gather_nodup_keys (localContainsInServer keyStart keyEnd) id held.placed
    (fun i e answered => by
      rw [id, view_eq_some_iff.mpr (mem_localContainsInServer.mp answered).1]
      rfl)
    (fun i => by simpa only [List.map_id] using nodup_localContainsInServer keyStart keyEnd _)
    c.serverRange_nodup listed
  rwa [List.map_id, ← collect_eq_gather] at once

/-- A key is alone on its server when no other key of the set hashes there. -/
theorem entries_eq_singleton_iff {n : UInt16} {keyHash : K → UInt64}
    {segments : UInt16 → MySet K} {S : Finset K} (held : Holds n keyHash segments S) {k : K}
    (mem : k ∈ S) :
    (segments (hashServer (keyHash k) n)).entries = [k] ↔
      ¬ ∃ q ∈ S, q ≠ k ∧ hashServer (keyHash q) n = hashServer (keyHash k) n := by
  constructor
  · rintro alone ⟨q, inSet, other, together⟩
    have stored : q ∈ (segments (hashServer (keyHash k) n)).entries :=
      held.mem_entries.mpr ⟨inSet, together.symm⟩
    rw [alone, List.mem_singleton] at stored
    exact other stored
  · intro lonely
    have all : ∀ q ∈ (segments (hashServer (keyHash k) n)).entries, q = k := by
      intro q stored
      by_contra other
      obtain ⟨inSet, here⟩ := held.mem_entries.mp stored
      exact lonely ⟨q, inSet, other, here.symm⟩
    have nodup := (segments (hashServer (keyHash k) n)).nodup
    have here : k ∈ (segments (hashServer (keyHash k) n)).entries :=
      held.mem_entries.mpr ⟨mem, rfl⟩
    rw [List.eq_replicate_of_mem all] at nodup here ⊢
    have once := List.nodup_replicate.mp nodup
    have present := List.length_pos_of_mem here
    rw [List.length_replicate] at present
    rw [Nat.le_antisymm once present]
    rfl

/-! ### Deployments of a set of keys -/

/-- A number of servers and a hash, the keys put so far and by whom, and the object
that asks. -/
structure Deployment (K : Type*) where
  numServers : UInt16
  keyHash : K → UInt64
  puts : List (Container × K)
  client : Container

namespace Deployment

/-- The segments after the puts. -/
def segments [MoveOut K] (d : Deployment K) : UInt16 → MySet K :=
  (answers (step d.keyHash) (fun _ => MySet.empty) (d.puts.map fun p => ⟨p.1, .put p.2⟩)).1

/-- What `Contains` answers to the client. -/
def answer [MoveOut K] (d : Deployment K) (keyStart keyEnd : K) : List K :=
  contains d.client keyStart keyEnd d.segments

/-- The server a key is put on. -/
def server (d : Deployment K) (k : K) : UInt16 := hashServer (d.keyHash k) d.numServers

/-- The deployment has at least one server, its objects are objects of that
deployment, and the keys put are those of `S`. -/
structure Stores (d : Deployment K) (S : Finset K) : Prop where
  servers : 0 < d.numServers
  callers : ∀ p ∈ d.puts, p.1.numServers = d.numServers ∧ p.1.myServerIdx < d.numServers
  client : d.client.numServers = d.numServers ∧ d.client.myServerIdx < d.numServers
  keys : ∀ k, k ∈ S ↔ k ∈ d.puts.map Prod.snd

/-- The answer is the range: exactly the keys from `keyStart` to `keyEnd`, each once. -/
def Exact [MoveOut K] (d : Deployment K) (S : Finset K) (keyStart keyEnd : K) : Prop :=
  (d.answer keyStart keyEnd).Nodup ∧
    ∀ k, k ∈ d.answer keyStart keyEnd ↔ k ∈ S ∧ keyStart ≤ k ∧ k ≤ keyEnd

/-- No key above the range, and not below its start, is alone on its server. -/
def NoneAlone (d : Deployment K) (S : Finset K) (keyStart keyEnd : K) : Prop :=
  ∀ k ∈ S, keyStart ≤ k → keyEnd < k → ∃ q ∈ S, q ≠ k ∧ d.server q = d.server k

/-- Puts one after the other add their keys to the held set. -/
theorem holds_puts [MoveOut K] {n : UInt16} (servers : 0 < n) {keyHash : K → UInt64}
    {puts : List (Container × K)}
    (callers : ∀ p ∈ puts, p.1.numServers = n ∧ p.1.myServerIdx < n)
    {segments : UInt16 → MySet K} {S : Finset K} (held : Holds n keyHash segments S) :
    Holds n keyHash (answers (step keyHash) segments (puts.map fun p => ⟨p.1, .put p.2⟩)).1
      (S ∪ (puts.map Prod.snd).toFinset) := by
  induction puts generalizing segments S with
  | nil => simpa using held
  | cons p puts ih =>
      obtain ⟨S', ⟨-, rfl⟩, next⟩ := step_simulates servers segments S ⟨p.1, .put p.2⟩ held
        (callers p List.mem_cons_self)
      have rest := ih (fun q hq => callers q (List.mem_cons_of_mem _ hq)) next
      rwa [Finset.insert_union, ← Finset.union_insert, ← List.toFinset_cons,
        ← List.map_cons (f := Prod.snd)] at rest

theorem Stores.holds [MoveOut K] {d : Deployment K} {S : Finset K} (stores : d.Stores S) :
    Holds d.numServers d.keyHash d.segments S := by
  have held := holds_puts stores.servers stores.callers (holds_empty d.numServers d.keyHash)
  have keys : ∅ ∪ (d.puts.map Prod.snd).toFinset = S := by
    ext k
    rw [Finset.empty_union, List.mem_toFinset, stores.keys]
  rwa [keys] at held

/-- One deployment answers a range exactly when no key above it is alone. -/
theorem Stores.exact_iff [MoveOut K] {d : Deployment K} {S : Finset K} (stores : d.Stores S)
    (keyStart keyEnd : K) : d.Exact S keyStart keyEnd ↔ d.NoneAlone S keyStart keyEnd := by
  have mem := mem_contains stores.servers stores.holds stores.client.1 stores.client.2
    keyStart keyEnd
  have own : d.client.myServerIdx < d.client.numServers := stores.client.1 ▸ stores.client.2
  constructor
  · rintro ⟨-, range⟩ k inSet start beyond
    by_contra alone
    have answered : k ∈ d.answer keyStart keyEnd :=
      (mem k).mpr ⟨inSet, start, Or.inr ((entries_eq_singleton_iff stores.holds inSet).mpr alone)⟩
    exact absurd ((range k).mp answered).2.2 (not_le.mpr beyond)
  · intro noneAlone
    refine ⟨nodup_contains stores.holds own keyStart keyEnd, fun k => (mem k).trans ?_⟩
    refine and_congr_right fun inSet => and_congr_right fun start => ?_
    constructor
    · rintro (within | alone)
      · exact within
      · by_contra beyond
        exact (entries_eq_singleton_iff stores.holds inSet).mp alone
          (noneAlone k inSet start (not_le.mp beyond))
    · exact Or.inl

end Deployment

/-- **Two deployments of one set of keys give the range, each key once and the same keys
up to order, exactly when in neither of them a key above the range, and not below its
start, is alone on its server.** -/
theorem contains_exact_iff [MoveOut K] {S : Finset K} {d₁ d₂ : Deployment K}
    (stores₁ : d₁.Stores S) (stores₂ : d₂.Stores S) (keyStart keyEnd : K) :
    ((d₁.answer keyStart keyEnd).Perm (d₂.answer keyStart keyEnd) ∧
        d₁.Exact S keyStart keyEnd ∧ d₂.Exact S keyStart keyEnd) ↔
      d₁.NoneAlone S keyStart keyEnd ∧ d₂.NoneAlone S keyStart keyEnd := by
  rw [stores₁.exact_iff, stores₂.exact_iff]
  refine ⟨fun h => h.2, fun noneAlone => ⟨?_, noneAlone⟩⟩
  obtain ⟨once₁, range₁⟩ := (stores₁.exact_iff keyStart keyEnd).mpr noneAlone.1
  obtain ⟨once₂, range₂⟩ := (stores₂.exact_iff keyStart keyEnd).mpr noneAlone.2
  exact (List.perm_ext_iff_of_nodup once₁ once₂).mpr fun k => (range₁ k).trans (range₂ k).symm

/-- The keys 1 and 5 put on one server, or on two, by an object that is on no node. -/
def oneAndFive (numServers : UInt16) : Deployment Nat :=
  let c : Container := ⟨numServers, 0, false, false⟩
  ⟨numServers, fun k => (k / 5).toUInt64, [(c, 1), (c, 5)], c⟩

theorem oneAndFive_stores {n : UInt16} (servers : 0 < n) : (oneAndFive n).Stores {1, 5} where
  servers := servers
  callers := by simp [oneAndFive, servers]
  client := ⟨rfl, servers⟩
  keys := by simp [oneAndFive]

/-- On one server the two keys are together, and the range from 0 to 3 is answered
exactly. -/
theorem contains_exact_one_server :
    (oneAndFive 1).Stores {1, 5} ∧ (oneAndFive 1).Exact {1, 5} 0 3 := by
  have stores := oneAndFive_stores (n := 1) (by decide)
  refine ⟨stores, ((contains_exact_iff stores stores 0 3).mpr ⟨?_, ?_⟩).2.1⟩ <;>
    · intro k _ _ _
      by_cases same : k = 1
      · exact ⟨5, by simp, by omega, by simp [Deployment.server, hashServer, oneAndFive]⟩
      · exact ⟨1, by simp, by omega, by simp [Deployment.server, hashServer, oneAndFive]⟩

/-- With two servers the key 5 is alone on the second one, and the range from 0 to 3
is answered with it. -/
theorem contains_above_range_two_servers :
    (oneAndFive 1).Stores {1, 5} ∧ (oneAndFive 2).Stores {1, 5} ∧
      ¬ ((oneAndFive 1).answer 0 3).Perm ((oneAndFive 2).answer 0 3) ∧
      5 ∈ (oneAndFive 2).answer 0 3 := by
  refine ⟨oneAndFive_stores (by decide), oneAndFive_stores (by decide), ?_, ?_⟩ <;> decide

end Hcl.Set
