import Mathlib.Data.List.AList
import Mathlib.Logic.Function.Basic
import Hcl.Lib.Runs
import Hcl.Lib.Shards

/-!
`hcl::container`: what every distributed container shares.

A container is one object per process. Its data live in the shared-memory
segment of a server; `numServers` servers are addressed by 16-bit indices. A
process reaches the segment of server `i` either directly, when `i` is its own
server and runs on its node (`isLocal`), or by an RPC that runs the same `Local*`
body in the server's process.

`getData` is `container::GetData` with the default allocator: it moves out of the
reference it is given, so it answers both the value and what is left behind.
-/

namespace Hcl

/-- The fields of `hcl::container` that decide where a call goes. `num_servers` is
an `int` that the constructor fills from a `uint16_t`. -/
structure Container where
  numServers : UInt16
  myServerIdx : UInt16
  isServer : Bool
  serverOnNode : Bool
deriving DecidableEq, Repr

namespace Container

/-- `is_local(key_int)`. -/
def isLocal (c : Container) (keyInt : UInt16) : Bool :=
  keyInt == c.myServerIdx && c.serverOnNode

/-- `is_local()`. -/
def isLocalNode (c : Container) : Bool := c.serverOnNode

theorem eq_myServerIdx_of_isLocal {c : Container} {keyInt : UInt16}
    (h : c.isLocal keyInt = true) : keyInt = c.myServerIdx := by
  simp only [isLocal, Bool.and_eq_true, beq_iff_eq] at h
  exact h.1

/-- The servers in the order of `for (int i = 0; i < num_servers; ++i)`, each index
narrowed to the `uint16_t` that `RPC::call` takes. -/
def serverRange (c : Container) : List UInt16 :=
  (List.range c.numServers.toNat).map UInt16.ofNat

theorem mem_serverRange {c : Container} {i : UInt16} : i ∈ c.serverRange ↔ i < c.numServers := by
  rw [serverRange, List.mem_map, UInt16.lt_iff_toNat_lt]
  constructor
  · rintro ⟨j, hj, rfl⟩
    have below := List.mem_range.mp hj
    have small : j < 2 ^ 16 := Nat.lt_trans below c.numServers.toNat_lt
    rwa [UInt16.toNat_ofNat_of_lt' small]
  · intro h
    exact ⟨i.toNat, List.mem_range.mpr h, UInt16.ofNat_toNat⟩

theorem serverRange_nodup (c : Container) : c.serverRange.Nodup := by
  refine List.Nodup.map_on ?_ List.nodup_range
  intro i hi j hj eq
  have small : ∀ {k}, k ∈ List.range c.numServers.toNat → k < 2 ^ 16 := fun hk =>
    Nat.lt_trans (List.mem_range.mp hk) c.numServers.toNat_lt
  have := congrArg UInt16.toNat eq
  rwa [UInt16.toNat_ofNat_of_lt' (small hi), UInt16.toNat_ofNat_of_lt' (small hj)] at this

end Container

/-! ### Routing a key by its hash -/

/-- `static_cast<uint16_t>(key_hash % num_servers)`: the whole 64-bit hash is
reduced before it is narrowed. -/
def hashServer (hash : UInt64) (numServers : UInt16) : UInt16 :=
  (hash % numServers.toUInt64).toUInt16

theorem hashServer_toNat {numServers : UInt16} (serving : 0 < numServers) (hash : UInt64) :
    (hashServer hash numServers).toNat = hash.toNat % numServers.toNat := by
  rw [hashServer, UInt64.toNat_toUInt16, UInt64.toNat_mod, UInt16.toNat_toUInt64]
  have pos : 0 < numServers.toNat := UInt16.lt_iff_toNat_lt.mp serving
  exact Nat.mod_eq_of_lt (Nat.lt_trans (Nat.mod_lt _ pos) numServers.toNat_lt)

theorem hashServer_lt {numServers : UInt16} (serving : 0 < numServers) (hash : UInt64) :
    hashServer hash numServers < numServers := by
  rw [UInt16.lt_iff_toNat_lt, hashServer_toNat serving]
  exact Nat.mod_lt _ (UInt16.lt_iff_toNat_lt.mp serving)

/-! ### Moving out of an argument -/

/-- What moving out of a variable leaves in it. Moving out of a `std::string` or a
`std::vector` empties it; a trivially copyable value is left as it was. -/
class MoveOut (V : Type*) where
  residue : V → V
  residue_residue : ∀ v, residue (residue v) = residue v

instance : MoveOut String := ⟨fun _ => "", fun _ => rfl⟩

instance {α : Type*} : MoveOut (List α) := ⟨fun _ => [], fun _ => rfl⟩

instance : MoveOut Nat := ⟨id, fun _ => rfl⟩

instance : MoveOut UInt64 := ⟨id, fun _ => rfl⟩

/-- `GetData` with `Allocator = nullptr_t` is `return std::move(data)`: the value it
returns, and what is left in the variable `data` refers to. -/
def getData {V : Type*} [MoveOut V] (data : V) : V × V := (data, MoveOut.residue data)

/-- `CalculateSize<T>().GetSize`. -/
class CalculateSize (T : Type*) where
  getSize : T → UInt64

/-- `sizeof` of a 64-bit integer. -/
instance : CalculateSize UInt64 := ⟨fun _ => 8⟩

/-- `strlen(value.c_str()) + 1`: the bytes before the first NUL, and the terminator. -/
instance : CalculateSize String :=
  ⟨fun value => UInt64.ofNat ((value.toUTF8.toList.takeWhile (· ≠ 0)).length + 1)⟩

/-! ### The segments of the servers -/

section Segments

variable {S R : Type*}

/-- Run a `Local*` body on the segment of server `i`. -/
def onServer (i : UInt16) (body : S → S × R) (segments : UInt16 → S) : (UInt16 → S) × R :=
  (Function.update segments i (body (segments i)).1, (body (segments i)).2)

/-- An operation addressed to server `keyInt`: the caller runs the body on its own
server's segment, or an RPC runs the handler, which is the same body, on the
segment of server `keyInt`, exactly once. -/
def dispatch (c : Container) (keyInt : UInt16) (body : S → S × R) (segments : UInt16 → S) :
    (UInt16 → S) × R :=
  if c.isLocal keyInt then onServer c.myServerIdx body segments
  else onServer keyInt body segments

/-- Both paths of a routed operation work on the segment of the same server. -/
theorem dispatch_eq (c : Container) (keyInt : UInt16) (body : S → S × R) (segments : UInt16 → S) :
    dispatch c keyInt body segments = onServer keyInt body segments := by
  unfold dispatch
  split
  · rename_i here
    rw [← Container.eq_myServerIdx_of_isLocal here]
  · rfl

/-- A write whose last argument is a variable of the caller, passed by reference. The
body answers a flag and what it leaves in that variable. The direct path hands the
body the caller's own variable; an RPC hands it a copy. -/
def dispatchWrite {V : Type*} (c : Container) (keyInt : UInt16) (body : V → S → S × (Bool × V))
    (data : V) (segments : UInt16 → S) : (UInt16 → S) × (Bool × V) :=
  if c.isLocal keyInt then onServer c.myServerIdx (body data) segments
  else
    let out := onServer keyInt (body data) segments
    (out.1, (out.2.1, data))

/-- Both paths of a write leave the same segments and the same flag. -/
theorem dispatchWrite_eq {V : Type*} (c : Container) (keyInt : UInt16)
    (body : V → S → S × (Bool × V)) (data : V) (segments : UInt16 → S) :
    (dispatchWrite c keyInt body data segments).1 = (onServer keyInt (body data) segments).1 ∧
      (dispatchWrite c keyInt body data segments).2.1 =
        (onServer keyInt (body data) segments).2.1 := by
  unfold dispatchWrite
  split
  · rename_i here
    rw [← Container.eq_myServerIdx_of_isLocal here]
    exact ⟨rfl, rfl⟩
  · exact ⟨rfl, rfl⟩

/-- Read every server: the caller's own server first, directly if it is on the node
and by RPC otherwise, then every other server by RPC. The loop of `GetAllData` and
of `Contains`. -/
def collect {E : Type*} (c : Container) (body : S → List E) (segments : UInt16 → S) : List E :=
  let rpc := fun i => body (segments i)
  let own := if c.isLocalNode then body (segments c.myServerIdx) else rpc c.myServerIdx
  own ++ (c.serverRange.filter fun i => decide (i ≠ c.myServerIdx)).flatMap rpc

theorem collect_eq_gather {E : Type*} (c : Container) (body : S → List E)
    (segments : UInt16 → S) :
    collect c body segments = Lib.gather body segments c.serverRange c.myServerIdx := by
  unfold collect Lib.gather
  split <;> rfl

end Segments

end Hcl
