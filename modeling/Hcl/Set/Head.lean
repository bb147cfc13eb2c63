import Hcl.Set

/-!
The ordered head of `hcl::set`: `SeekFirst`, `SeekFirstN`, `PopFirst` and `Size` of one
server, after `set.cpp`.

An operation addressed to server `s` runs its `Local*` body directly when `s` is the
caller's own server on its node, and otherwise calls a handler by name. `bind_functions`
binds one handler for each operation but `SeekFirstN`, whose line is commented out. The
remote branch of `SeekFirstN` also returns a `pair<bool, KeyType>` where the function
returns a `pair<bool, vector<KeyType>>`, so a set can be asked for its first keys at all
only if `KeyType` converts to `std::vector<KeyType>`. So `SeekFirst`, `PopFirst` and
`Size` describe one ordered drain for every client (`popFirsts_eq`), and all four do
exactly for such a key type and the clients local to the server (`headAgrees_iff`).
-/

namespace Hcl.Set

open Hcl.Lib Hcl.Lib.Keyed

variable {K : Type*} [LinearOrder K]

/-! ### The bodies on one server -/

/-- `erase(begin())`. -/
def MySet.eraseBegin (s : MySet K) : MySet K := ⟨s.entries.tail, s.increasing.tail⟩

/-- `LocalSeekFirst`. -/
def localSeekFirst [Inhabited K] (s : MySet K) : MySet K × (Bool × K) :=
  match s.entries with
  | [] => (s, (false, default))
  | value :: _ => (s, (true, value))

/-- The loop of `LocalSeekFirstN`: the keys from the iterator on, the counter `i` and
the keys pushed so far. -/
def seekFirstNLoop (n : UInt32) : List K → UInt32 → List K → UInt32 × List K
  | [], i, keys => (i, keys)
  | key :: rest, i, keys =>
      if i < n then seekFirstNLoop n rest (i + 1) (keys ++ [key]) else (i, keys)

/-- `LocalSeekFirstN`. -/
def localSeekFirstN (n : UInt32) (s : MySet K) : MySet K × (Bool × List K) :=
  let (i, keys) := seekFirstNLoop n s.entries 0 []
  (s, (decide (i > 0), keys))

/-- `LocalPopFirst`. -/
def localPopFirst [Inhabited K] (s : MySet K) : MySet K × (Bool × K) :=
  match s.entries with
  | [] => (s, (false, default))
  | value :: _ => (s.eraseBegin, (true, value))

/-- `LocalSize`. -/
def localSize (s : MySet K) : MySet K × Nat := (s, s.entries.length)

/-! ### The operations of a client -/

/-- The names `bind_functions` binds, after the prefix. -/
def bindFunctions : List String :=
  ["_Put", "_Get", "_Erase", "_GetAllData", "_Contains", "_SeekFirst", "_PopFirst",
    -- `_SeekFirstN` is commented out.
    "_Size"]

/-- Why a client gets no answer. -/
inductive CallError where
  /-- The function is ill-formed for the key type: a program that calls it does not
  compile. -/
  | illFormed
  /-- A call to a name the server did not bind. -/
  | notBound (name : String)
deriving DecidableEq

/-- An operation addressed to server `keyInt`: the body itself on the caller's own
server, the handler bound to `name` elsewhere. Every bound handler responds with its
body. -/
def headCall {R : Type*} (c : Container) (keyInt : UInt16) (name : String)
    (body : MySet K → MySet K × R) (segments : UInt16 → MySet K) :
    Except CallError ((UInt16 → MySet K) × R) :=
  if c.isLocal keyInt then .ok (onServer c.myServerIdx body segments)
  else if name ∈ bindFunctions then .ok (onServer keyInt body segments)
  else .error (.notBound name)

section Operations

variable (c : Container) (keyInt : UInt16)

def seekFirst [Inhabited K] (segments : UInt16 → MySet K) :
    Except CallError ((UInt16 → MySet K) × (Bool × K)) :=
  headCall c keyInt "_SeekFirst" localSeekFirst segments

/-- `SeekFirstN`. The `pair<bool, KeyType>` of the remote branch is returned as a
`pair<bool, vector<KeyType>>`: `isConvertible` says that `KeyType` converts implicitly to
`std::vector<KeyType>`, and both branches are ill-formed for a key type that does not. A
key type that does gets no reply to convert, since the name is not bound. -/
def seekFirstN (isConvertible : Bool) (n : UInt32) (segments : UInt16 → MySet K) :
    Except CallError ((UInt16 → MySet K) × (Bool × List K)) :=
  if isConvertible then headCall c keyInt "_SeekFirstN" (localSeekFirstN n) segments
  else .error .illFormed

def popFirst [Inhabited K] (segments : UInt16 → MySet K) :
    Except CallError ((UInt16 → MySet K) × (Bool × K)) :=
  headCall c keyInt "_PopFirst" localPopFirst segments

def size (segments : UInt16 → MySet K) : Except CallError ((UInt16 → MySet K) × Nat) :=
  headCall c keyInt "_Size" localSize segments

/-- `m` calls of `PopFirst`, one after the other. -/
def popFirsts [Inhabited K] : Nat → (UInt16 → MySet K) →
    Except CallError ((UInt16 → MySet K) × List (Bool × K))
  | 0, segments => .ok (segments, [])
  | m + 1, segments => do
      let (popped, answer) ← popFirst c keyInt segments
      let (left, answers) ← popFirsts m popped
      return (left, answer :: answers)

end Operations

/-! ### What each body answers -/

omit [LinearOrder K] in
/-- The loop stops at the end of the set or when the counter reaches `n`. -/
theorem seekFirstNLoop_eq (n : UInt32) (rest : List K) (i : UInt32) (keys : List K) (within : i ≤ n) :
    seekFirstNLoop n rest i keys =
      (i + UInt32.ofNat (rest.take (n.toNat - i.toNat)).length,
        keys ++ rest.take (n.toNat - i.toNat)) := by
  induction rest generalizing i keys with
  | nil => simp [seekFirstNLoop]
  | cons key rest ih =>
      unfold seekFirstNLoop
      split
      · rename_i more
        have below : i.toNat < n.toNat := UInt32.lt_iff_toNat_lt.mp more
        have bound := n.toNat_lt
        have next : (i + 1).toNat = i.toNat + 1 := by
          rw [UInt32.toNat_add]
          exact Nat.mod_eq_of_lt (by simp only [UInt32.toNat_one]; omega)
        have left : n.toNat - i.toNat = (n.toNat - (i + 1).toNat) + 1 := by omega
        rw [ih (i + 1) (keys ++ [key]) (UInt32.le_iff_toNat_le.mpr (by omega)), left,
          List.take_succ_cons, List.length_cons, List.append_assoc, List.singleton_append,
          UInt32.ofNat_add, UInt32.add_assoc, UInt32.add_comm 1]
        rfl
      · rename_i stop
        have done : n.toNat - i.toNat = 0 := by
          have := UInt32.le_iff_toNat_le.mp (UInt32.not_lt.mp stop)
          omega
        simp [done]

/-- `LocalSeekFirstN` answers the first `n` keys. -/
theorem localSeekFirstN_eq (n : UInt32) (s : MySet K) :
    localSeekFirstN n s =
      (s, (decide (0 < min n.toNat s.entries.length), s.entries.take n.toNat)) := by
  have small : (s.entries.take n.toNat).length < UInt32.size :=
    (List.length_take_le _ _).trans_lt n.toNat_lt
  have loop := seekFirstNLoop_eq n s.entries 0 [] (UInt32.zero_le)
  simp only [UInt32.toNat_zero, Nat.sub_zero, List.nil_append, UInt32.zero_add] at loop
  have flag : UInt32.ofNat (s.entries.take n.toNat).length > 0 ↔
      0 < min n.toNat s.entries.length := by
    rw [gt_iff_lt, UInt32.lt_iff_toNat_lt, UInt32.toNat_ofNat_of_lt' small, List.length_take]
    rfl
  simp only [localSeekFirstN, loop, flag]

theorem localSeekFirst_eq [Inhabited K] (s : MySet K) :
    localSeekFirst s = (s, (localPopFirst s).2) := by
  unfold localSeekFirst localPopFirst
  split <;> rfl

theorem localPopFirst_entries [Inhabited K] (s : MySet K) :
    (localPopFirst s).1.entries = s.entries.tail := by
  unfold localPopFirst
  split
  · rename_i empty
    rw [empty]
    rfl
  · rfl

/-! ### The drain -/

theorem headCall_eq {R : Type*} (c : Container) (keyInt : UInt16) {name : String}
    (bound : name ∈ bindFunctions) (body : MySet K → MySet K × R) (segments : UInt16 → MySet K) :
    headCall c keyInt name body segments = .ok (onServer keyInt body segments) := by
  unfold headCall
  split
  · rename_i here
    rw [← Container.eq_myServerIdx_of_isLocal here]
  · rfl

/-- A call to a name that is not bound is answered to local clients only. -/
theorem headCall_of_notBound {R : Type*} {c : Container} {keyInt : UInt16} {name : String}
    (unbound : name ∉ bindFunctions) {body : MySet K → MySet K × R}
    {segments : UInt16 → MySet K} :
    headCall c keyInt name body segments =
      if c.isLocal keyInt then .ok (onServer keyInt body segments) else .error (.notBound name) := by
  unfold headCall
  split
  · rename_i here
    rw [← Container.eq_myServerIdx_of_isLocal here]
  · rfl

section Drain

variable [Inhabited K] (c : Container) (s : UInt16) (segments : UInt16 → MySet K)

theorem seekFirst_eq : seekFirst c s segments = .ok (segments, (localPopFirst (segments s)).2) := by
  rw [seekFirst, headCall_eq c s (by decide), onServer, localSeekFirst_eq,
    Function.update_eq_self]

omit [Inhabited K] in
theorem size_eq : size c s segments = .ok (segments, (segments s).entries.length) := by
  rw [size, headCall_eq c s (by decide), onServer, localSize, Function.update_eq_self]

omit [Inhabited K] in
theorem seekFirstN_eq (n : UInt32) (near : c.isLocal s = true) :
    seekFirstN c s true n segments =
      .ok (segments, (decide (0 < min n.toNat (segments s).entries.length),
        (segments s).entries.take n.toNat)) := by
  rw [seekFirstN, if_pos rfl, headCall_of_notBound (by decide), if_pos near, onServer,
    localSeekFirstN_eq, Function.update_eq_self]

omit [Inhabited K] in
/-- `SeekFirstN` answers only local clients, and only for a convertible key type. -/
theorem of_seekFirstN {isConvertible : Bool} {n : UInt32}
    {after : (UInt16 → MySet K) × (Bool × List K)}
    (answered : seekFirstN c s isConvertible n segments = .ok after) :
    isConvertible = true ∧ c.isLocal s = true := by
  cases isConvertible with
  | false => cases answered
  | true =>
      refine ⟨rfl, ?_⟩
      by_contra remote
      rw [seekFirstN, if_pos rfl, headCall_of_notBound (by decide), if_neg remote] at answered
      cases answered

theorem popFirst_eq :
    popFirst c s segments = .ok (onServer s localPopFirst segments) :=
  headCall_eq c s (by decide) localPopFirst segments

/-- For every client, `m` calls of `PopFirst` answer the first `m` keys in order, and
`(false, KeyType())` from then on. -/
theorem popFirsts_eq (m : Nat) : ∃ left,
    popFirsts c s m segments = .ok (left, ((segments s).entries.take m).map (Prod.mk true) ++
      List.replicate (m - (segments s).entries.length) (false, default)) := by
  -- Each call pops one key or finds the set empty and leaves it so.
  induction m generalizing segments with
  | zero => exact ⟨segments, by simp [popFirsts]⟩
  | succ m ih =>
      obtain ⟨left, rest⟩ := ih (onServer s localPopFirst segments).1
      refine ⟨left, ?_⟩
      simp only [onServer, Function.update_self, localPopFirst_entries] at rest
      rw [popFirsts, popFirst_eq]
      simp only [onServer, bind, Except.bind, rest, pure, Except.pure]
      cases entries : (segments s).entries with
      | nil => simp [localPopFirst, entries, List.replicate_succ]
      | cons key keys => simp [localPopFirst, entries]

end Drain

/-! ### The four operations together -/

/-- The head operations of client `c` on server `s` describe one ordered drain of the
keys stored there. -/
structure HeadAgrees [Inhabited K] (isConvertible : Bool) (c : Container) (s : UInt16)
    (n : UInt32) (segments : UInt16 → MySet K) : Prop where
  /-- `SeekFirstN` answers what so many calls of `PopFirst` would, and changes nothing. -/
  seeksN : ∃ count keys left, size c s segments = .ok (segments, count) ∧
    seekFirstN c s isConvertible n segments =
      .ok (segments, (decide (0 < min n.toNat count), keys)) ∧
    popFirsts c s (min n.toNat count) segments = .ok (left, keys.map (Prod.mk true))
  /-- `SeekFirst` answers what the next `PopFirst` would, and changes nothing. -/
  seeks : ∃ answer left, seekFirst c s segments = .ok (segments, answer) ∧
    popFirst c s segments = .ok (left, answer)
  /-- `PopFirst` answers every key once, in increasing order, and then the default. -/
  drains : ∃ keys, Increasing id keys ∧
    (∀ k, k ∈ keys ↔ k ∈ localGetAllDataInServer (segments s)) ∧
    ∀ more, ∃ left, popFirsts c s (keys.length + more) segments =
      .ok (left, keys.map (Prod.mk true) ++ List.replicate more (false, default))
  /-- `Size` drops by one with each key popped, and changes nothing. -/
  shrinks : ∀ key left, popFirst c s segments = .ok (left, (true, key)) →
    ∃ count, size c s segments = .ok (segments, count + 1) ∧ size c s left = .ok (left, count)

/-- **On every contents, the head operations of a client agree with each other exactly
when the key type converts to a vector of keys and the client is local to the server.** -/
theorem headAgrees_iff [Inhabited K] (isConvertible : Bool) (c : Container) (s : UInt16)
    (n : UInt32) (segments : UInt16 → MySet K) :
    HeadAgrees isConvertible c s n segments ↔ isConvertible = true ∧ c.isLocal s = true := by
  constructor
  · intro agrees
    obtain ⟨count, keys, left, -, answered, -⟩ := agrees.seeksN
    exact of_seekFirstN c s segments answered
  · rintro ⟨rfl, near⟩
    constructor
    · obtain ⟨left, drained⟩ :=
        popFirsts_eq c s segments (min n.toNat (segments s).entries.length)
      refine ⟨_, _, left, size_eq c s segments, seekFirstN_eq c s segments n near, ?_⟩
      have full : min n.toNat (segments s).entries.length - (segments s).entries.length = 0 := by
        omega
      rw [drained, full, List.replicate_zero, List.append_nil, ← List.take_eq_take_min]
    · exact ⟨_, _, seekFirst_eq c s segments, popFirst_eq c s segments⟩
    · refine ⟨(segments s).entries, (segments s).increasing, fun k => Iff.rfl, fun more => ?_⟩
      obtain ⟨left, drained⟩ := popFirsts_eq c s segments ((segments s).entries.length + more)
      refine ⟨left, ?_⟩
      rw [drained, List.take_of_length_le (Nat.le_add_right _ _), Nat.add_sub_cancel_left]
    · intro key left popped
      rw [popFirst_eq, onServer] at popped
      obtain ⟨rfl, answer⟩ := Prod.mk.inj (Except.ok.inj popped)
      cases entries : (segments s).entries with
      | nil => simp [localPopFirst, entries] at answer
      | cons first rest =>
          refine ⟨rest.length, ?_, ?_⟩
          · rw [size_eq, entries, List.length_cons]
          · rw [size_eq, Function.update_self, localPopFirst_entries, entries, List.tail_cons]

/-- The server itself asks its set, which stores the key 7, for the first key: the call is
ill-formed for a key type that does not convert to a vector of keys. For one that does, a
client on another node gets no answer. -/
theorem not_headAgrees_scalar :
    (¬ HeadAgrees false (⟨1, 0, true, true⟩ : Container) 0 1
        (fun _ => (MySet.empty : MySet Nat).insert 7) ∧
      seekFirstN (⟨1, 0, true, true⟩ : Container) 0 false 1
        (fun _ => (MySet.empty : MySet Nat).insert 7) = .error .illFormed) ∧
    (¬ HeadAgrees true (⟨1, 0, false, false⟩ : Container) 0 1
        (fun _ => (MySet.empty : MySet Nat).insert 7) ∧
      seekFirstN (⟨1, 0, false, false⟩ : Container) 0 true 1
        (fun _ => (MySet.empty : MySet Nat).insert 7) = .error (.notBound "_SeekFirstN")) := by
  refine ⟨⟨?_, rfl⟩, ⟨?_, rfl⟩⟩
  · intro agrees
    obtain ⟨count, keys, left, -, answered, -⟩ := agrees.seeksN
    cases (of_seekFirstN _ _ _ answered).1
  · intro agrees
    obtain ⟨count, keys, left, -, answered, -⟩ := agrees.seeksN
    cases (of_seekFirstN _ _ _ answered).2

end Hcl.Set
