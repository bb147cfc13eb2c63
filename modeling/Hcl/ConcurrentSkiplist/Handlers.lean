import Hcl.ConcurrentSkiplist
import Hcl.SkipList.Linearization

/-!
A `concurrent_skiplist` whose servers handle many requests at once.

`Insert` and `Erase` of any object of the container go to the server that `serverLocation` names,
and every request runs there as a call of `add` or `remove`, step by step beside the others. The
servers are one set over all keys (`handlers_are_one_set`), since equivalent keys have one
server.
-/

namespace Hcl.ConcurrentSkiplist

open Hcl.Lib Hcl.Lib.Atomic

variable {T : Type} {lt : T → T → Prop}

/-- What all objects of one container agree on: at least two servers, and a hash that tells no
equivalent keys apart. -/
structure Deployment (lt : T → T → Prop) where
  hash : T → UInt64
  numServers : UInt16
  several : 1 < numServers
  respects : ∀ a b, IncompRel lt a b → hash a = hash b

/-- `static_cast<uint16_t>(serverLocation(key))`. -/
def keyInt (hash : T → UInt64) (o : ConcurrentSkiplist T) (k : T) : Option UInt16 :=
  (o.serverLocation hash k).map UInt64.toUInt16

/-- The key of a request. -/
def key : ConcurrentSkipList.Call T → T
  | .add x => x
  | .remove x => x

variable {d : Deployment lt}

/-- The servers of a deployment. -/
abbrev Deployment.Server (d : Deployment lt) : Type := { i : UInt16 // i < d.numServers }

/-- The block of the hash of a key, clamped to the last server. -/
def Deployment.block (d : Deployment lt) (k : T) : Nat :=
  min ((d.hash k).toNat / 2 ^ (64 - Nat.clog 2 d.numServers.toNat)) (d.numServers.toNat - 1)

theorem Deployment.block_lt (d : Deployment lt) (k : T) : d.block k < d.numServers.toNat := by
  have several := UInt16.lt_iff_toNat_lt.mp d.several
  rw [block]
  omega

def Deployment.owner (d : Deployment lt) (k : T) : d.Server :=
  ⟨UInt16.ofNat (d.block k), by
    rw [UInt16.lt_iff_toNat_lt, UInt16.toNat_ofNat_of_lt' (Nat.lt_trans (d.block_lt k) d.numServers.toNat_lt)]
    exact d.block_lt k⟩

/-- Equivalent keys have one server. -/
theorem Deployment.owner_congr {a b : T} (same : IncompRel lt a b) : d.owner a = d.owner b := by
  apply Subtype.ext
  simp only [owner, block, d.respects a b same]

variable [Inhabited T]

/-- **Every object of the container sends a key to the same server.** -/
theorem Deployment.keyInt_eq {c : Container} {rank : UInt32} {o : ConcurrentSkiplist T}
    (made : initializeSets c d.numServers.toUInt32 rank = some o) (k : T) :
    o.keyInt d.hash k = some (d.owner k).1 := by
  have size : d.numServers.toUInt32.toNat = d.numServers.toNat := d.numServers.toNat_toUInt32
  have small := d.numServers.toNat_lt
  have several := UInt16.lt_iff_toNat_lt.mp d.several
  have fits : d.numServers.toUInt32.toNat ≤ 65535 := by
    rw [size]
    omega
  obtain ⟨o', made', servers, bits⟩ := initializeSets_spec (T := T) c fits rank
  obtain rfl := Option.some.inj (made.symm.trans made')
  rw [size] at bits
  have positive : 1 ≤ Nat.clog 2 d.numServers.toNat := Nat.clog_pos Nat.one_lt_two several
  have few : Nat.clog 2 d.numServers.toNat ≤ 16 := Nat.clog_le_of_le_pow (by omega)
  obtain ⟨id, found, value⟩ := locate_spec (o := o) (by rw [servers, size]; omega) (by rw [bits]; exact positive)
    (by rw [bits]; omega) (d.hash k)
  rw [keyInt, serverLocation, found, Option.map_some, Option.some.injEq, ← UInt16.toNat_inj, UInt64.toNat_toUInt16,
    value, bits, servers, size]
  have below := d.block_lt k
  rw [Deployment.owner, UInt16.toNat_ofNat_of_lt' (Nat.lt_trans below small)]
  exact Nat.mod_eq_of_lt (Nat.lt_trans below small)

/-! ### Requests -/

/-- A request, and the object it is made on. -/
structure Request (d : Deployment lt) where
  client : ConcurrentSkiplist T
  member : ∃ c rank, initializeSets c d.numServers.toUInt32 rank = some client
  call : ConcurrentSkipList.Call T

theorem Request.keyInt_eq (r : Request d) :
    r.client.keyInt d.hash (key r.call) = some (d.owner (key r.call)).1 := by
  obtain ⟨c, rank, made⟩ := r.member
  exact Deployment.keyInt_eq made _

/-- The server the RPC of a request goes to. -/
def Request.server (r : Request d) : d.Server :=
  ⟨(r.client.keyInt d.hash (key r.call)).get (by rw [r.keyInt_eq]; rfl), by
    simp only [r.keyInt_eq, Option.get_some]
    exact (d.owner (key r.call)).2⟩

theorem Request.server_eq (r : Request d) : r.server = d.owner (key r.call) := by
  apply Subtype.ext
  simp only [server, r.keyInt_eq, Option.get_some]

/-- The lists of the servers, the requests that are being handled, and where. -/
abbrev Handlers (d : Deployment lt) := Family d.Server (ConcurrentSkipList.Machine T) Nat

/-- One step of a client or of a handler. `LocalInsert` returns the flag of `insert`, and
`LocalErase` what `remove` returns. -/
def Handlers.Step [DecidableRel lt] (d : Deployment lt) (maxHeight : Nat) (sizeLimit : Nat → Nat) :
    Handlers d → Option (Event Nat (Request d) Bool) → Handlers d → Prop :=
  Family.Step Request.server fun _ => Renamed Request.call id
    (ConcurrentSkipList.Machine.CallStep lt maxHeight sizeLimit)

/-- Every server has its list, and nothing has been asked. -/
def Handlers.initial (lists : d.Server → ConcurrentSkipList T) : Handlers d :=
  Family.initial fun i => .start (lists i)

/-- The single set of the deployment. -/
def Deployment.Spec (d : Deployment lt) (a : Set T) (r : Request d) : Bool → Set T → Prop :=
  ConcurrentSkipList.SetSpec lt a r.call

/-! ### One set -/

/-- The sets of the servers together; every server has keys of its own. -/
structure Deployment.Merges (d : Deployment lt) (sets : d.Server → Set T) (a : Set T) : Prop where
  mem : ∀ x, x ∈ a ↔ x ∈ sets (d.owner x)
  home : ∀ i, ∀ x ∈ sets i, d.owner x = i

section Merges

omit [Inhabited T]

variable {sets : d.Server → Set T} {a : Set T} (merges : d.Merges sets a)
include merges

/-- A key is in the set if it is in that of its server. -/
theorem Deployment.Merges.member (x : T) :
    ConcurrentSkipList.Member lt a x ↔ ConcurrentSkipList.Member lt (sets (d.owner x)) x := by
  constructor
  · rintro ⟨y, mem, same⟩
    refine ⟨y, ?_, same⟩
    rw [← Deployment.owner_congr same]
    exact (merges.mem y).mp mem
  · rintro ⟨y, mem, same⟩
    refine ⟨y, ?_, same⟩
    rw [merges.mem, Deployment.owner_congr same]
    exact mem

theorem Deployment.Merges.update {x : T} {b a' : Set T} (home : ∀ y ∈ b, d.owner y = d.owner x)
    (here : ∀ y, d.owner y = d.owner x → (y ∈ a' ↔ y ∈ b))
    (elsewhere : ∀ y, d.owner y ≠ d.owner x → (y ∈ a' ↔ y ∈ a)) :
    d.Merges (Function.update sets (d.owner x) b) a' := by
  constructor
  · intro y
    by_cases same : d.owner y = d.owner x
    · rw [here y same, same, Function.update_self]
    · rw [elsewhere y same, Function.update_of_ne same, merges.mem]
  · intro i y mem
    by_cases same : i = d.owner x
    · rw [same, Function.update_self] at mem
      rw [same]
      exact home y mem
    · rw [Function.update_of_ne same] at mem
      exact merges.home i y mem

/-- A request on the set of its server is a request on the single set. -/
theorem Deployment.Merges.request {call : ConcurrentSkipList.Call T} {answer : Bool} {b : Set T}
    (allowed : ConcurrentSkipList.SetSpec lt (sets (d.owner (key call))) call answer b) :
    ∃ a', ConcurrentSkipList.SetSpec lt a call answer a' ∧
      d.Merges (Function.update sets (d.owner (key call)) b) a' := by
  have same : ∀ x, d.Merges (Function.update sets (d.owner x) (sets (d.owner x))) a := by
    intro x
    rw [Function.update_eq_self]
    exact merges
  cases call with
  | add x =>
      rcases allowed with ⟨present, rfl, rfl⟩ | ⟨absent, rfl, rfl⟩
      · exact ⟨a, .inl ⟨(merges.member x).mpr present, rfl, rfl⟩, same x⟩
      · refine ⟨insert x a, .inr ⟨mt (merges.member x).mp absent, rfl, rfl⟩, merges.update ?_ ?_ ?_⟩
        · rintro y (rfl | mem)
          · rfl
          · exact merges.home _ y mem
        · intro y here
          rw [Set.mem_insert_iff, Set.mem_insert_iff, merges.mem, here]
        · intro y away
          rw [Set.mem_insert_iff, or_iff_right]
          rintro rfl
          exact away rfl
  | remove x =>
      rcases allowed with ⟨present, rfl, rfl⟩ | ⟨absent, rfl, rfl⟩
      · refine ⟨_, .inl ⟨(merges.member x).mpr present, rfl, rfl⟩, merges.update ?_ ?_ ?_⟩
        · exact fun y mem => merges.home _ y mem.1
        · intro y here
          rw [Set.mem_ofPred_eq, Set.mem_ofPred_eq, merges.mem, here]
        · intro y away
          rw [Set.mem_ofPred_eq, and_iff_left]
          exact fun equal => away (Deployment.owner_congr equal)
      · exact ⟨a, .inr ⟨mt (merges.member x).mp absent, rfl, rfl⟩, same x⟩

end Merges

/-- A server constructs a list of height 2. -/
theorem initializeSets_list {np : UInt32} (small : np.toNat ≤ 65535) {c : Container} (server : c.isServer = true)
    {s : ConcurrentSkipList T} (made : ConcurrentSkipList.new 2 = some s) (rank : UInt32) :
    ∃ o, initializeSets c np rank = some o ∧ o.s = some s := by
  obtain ⟨p, power, -⟩ := powerOfTwo_spec small
  simp only [initializeSets, power, server, made, Option.bind_eq_bind, Option.bind_some, Option.pure_def, if_true]
  exact ⟨_, rfl, rfl⟩

variable [DecidableRel lt] [IsStrictWeakOrder T lt]

/-- **Handlers that run at once are one set.** For every deployment, any objects of it and any
number of handlers, in every interleaving of their steps in which no recycler hands out a node
that another handler of the server has a pointer to: all objects send a key to the same server,
and each `Insert` and `Erase` takes effect at one moment, as on one set over all servers. -/
theorem handlers_are_one_set (d : Deployment lt) {maxHeight : Nat} (low : 2 ≤ maxHeight) (sizeLimit : Nat → Nat) :
    ∃ lists : d.Server → ConcurrentSkipList T,
      (∀ (i : d.Server) (c : Container), c.isServer = true →
        ∃ o, initializeSets c d.numServers.toUInt32 i.1.toUInt32 = some o ∧ o.s = some (lists i)) ∧
      (∀ (c : Container) (rank : UInt32) (o : ConcurrentSkiplist T),
        initializeSets c d.numServers.toUInt32 rank = some o →
          ∀ k, o.keyInt d.hash k = some (d.owner k).1) ∧
      Linearizable (Handlers.Step d maxHeight sizeLimit) (Handlers.initial lists) d.Spec ∅ := by
  obtain ⟨s, made, -⟩ := ConcurrentSkipList.new_spec lt Nat.two_pos (Nat.le_refl 2) (by decide)
  have small : d.numServers.toUInt32.toNat ≤ 65535 := by
    rw [d.numServers.toNat_toUInt32]
    exact Nat.le_of_lt_succ d.numServers.toNat_lt
  refine ⟨fun _ => s, fun i c server => initializeSets_list small server made _,
    fun _ _ _ object => Deployment.keyInt_eq object, ?_⟩
  have sims : ∀ _ : d.Server, Simulates
      (Renamed (Request.call (d := d)) id (ConcurrentSkipList.Machine.CallStep lt maxHeight sizeLimit)) _ _ :=
    fun _ => ConcurrentSkipList.simulates_calls.renamed Request.call id
  have together : Linearizable (Handlers.Step d maxHeight sizeLimit) (Handlers.initial fun _ => s)
      (familySpec Request.server fun _ => renamedSpec Request.call id (ConcurrentSkipList.SetSpec lt)) fun _ => ∅ :=
    Simulates.family_linearizable sims fun _ =>
      ⟨_, ConcurrentSkipList.new_follows Nat.two_pos low made, rfl, fun _ => .idle⟩
  refine together.abstract (Q := d.Merges) ⟨fun _ => Iff.rfl, fun i x mem => by cases mem⟩ ?_
  rintro sets a r answer _ merges ⟨b, ⟨_, allowed, rfl⟩, rfl⟩
  rw [r.server_eq] at allowed ⊢
  exact merges.request allowed

/-- Three servers and numbers that are their own hashes. -/
def threeServers : Deployment (· < · : Nat → Nat → Prop) where
  hash k := UInt64.ofNat k
  numServers := 3
  several := by decide
  respects a b same := by
    rw [Nat.le_antisymm (Nat.not_lt.mp same.2) (Nat.not_lt.mp same.1)]

/-- A client of three servers begins to insert 5, and another one, on a server, is too early to
erase it. -/
theorem handlers_are_one_set_three_servers :
    2 ≤ 24 ∧ ∃ (lists : threeServers.Server → ConcurrentSkipList Nat) (r q : Request threeServers),
      r.call = .add 5 ∧ q.call = .remove 5 ∧
      (∃ f, Run (Handlers.Step threeServers 24 fun h => h) (Handlers.initial lists)
        [.call 0 r, .call 1 q, .ret 1 false] f) ∧
      ∃ c, Run (Object.Step threeServers.Spec) (.initial ∅) [.call 0 r, .call 1 q, .ret 1 false] c := by
  have := ConcurrentSkipList.natOrder
  have small : (3 : UInt32).toNat ≤ 65535 := by decide
  obtain ⟨lists, stored, -, linearizable⟩ :=
    handlers_are_one_set threeServers (by decide : 2 ≤ 24) fun h => h
  obtain ⟨o, made, -⟩ := initializeSets_spec (T := Nat) ⟨3, 0, false, false⟩ small 0
  obtain ⟨o', made', -⟩ := initializeSets_spec (T := Nat) ⟨3, 1, true, true⟩ small 1
  let r : Request threeServers := ⟨o, ⟨_, _, made⟩, .add 5⟩
  let q : Request threeServers := ⟨o', ⟨_, _, made'⟩, .remove 5⟩
  have same : q.server = r.server := by
    rw [q.server_eq, r.server_eq]
    rfl
  -- The list of the server they go to is new.
  obtain ⟨s, new, quiet⟩ := ConcurrentSkipList.new_spec (T := Nat) (· < ·) (by decide : 0 < 2)
    (by decide : 2 ≤ 24) (by decide)
  obtain ⟨there, object, list⟩ := stored r.server ⟨3, 1, true, true⟩ rfl
  obtain ⟨there', object', list'⟩ := initializeSets_list (T := Nat) small (c := ⟨3, 1, true, true⟩) rfl new
    r.server.1.toUInt32
  obtain rfl := Option.some.inj (object.symm.trans object')
  have listed : lists r.server = s := Option.some.inj (list.symm.trans list')
  let m₁ := (ConcurrentSkipList.Machine.start s).after 0 s (.addSearch 5) []
  let m₂ := m₁.after 1 s (.removeSearch 5) []
  let f₀ : Handlers threeServers := Handlers.initial lists
  let f₁ : Handlers threeServers :=
    ⟨Function.update f₀.parts r.server m₁, Function.update f₀.place 0 (some r.server)⟩
  let f₂ : Handlers threeServers :=
    ⟨Function.update f₁.parts q.server m₂, Function.update f₁.place 1 (some q.server)⟩
  have part₀ : f₀.parts r.server = .start s := by
    show ConcurrentSkipList.Machine.start (lists r.server) = _
    rw [listed]
  have part₁ : f₁.parts q.server = m₁ := by
    rw [same]
    exact Function.update_self ..
  have part₂ : f₂.parts q.server = m₂ := Function.update_self ..
  have run₁ : Run (Handlers.Step threeServers 24 fun h => h) f₀ [.call 0 r] f₁ :=
    .visible .start (.call rfl (.call (.add (by rw [part₀]; rfl))))
  have run₂ : Run (Handlers.Step threeServers 24 fun h => h) f₀ [.call 0 r, .call 1 q] f₂ :=
    .visible run₁ (.call rfl (.call (.remove (by rw [part₁]; rfl))))
  have placed : f₂.place 1 = some q.server := by
    show Function.update f₁.place 1 (some q.server) 1 = _
    rw [Function.update_self]
  have misses : ConcurrentSkipList.Machine.CallStep (· < ·) 24 (fun h => h) (f₂.parts q.server)
      (some (.ret 1 false)) (m₂.after 1 s .idle []) := by
    rw [part₂]
    exact .misses quiet ConcurrentSkipList.Machine.after_threads_self
  have run₃ : Run (Handlers.Step threeServers 24 fun h => h) f₀ [.call 0 r, .call 1 q, .ret 1 false] _ :=
    .visible run₂ (.ret placed (.ret misses))
  exact ⟨by decide, lists, r, q, rfl, rfl, ⟨_, run₃⟩, linearizable _ _ run₃⟩

end Hcl.ConcurrentSkiplist
