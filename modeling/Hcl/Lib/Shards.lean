import Mathlib.Logic.Function.Basic
import Mathlib.Data.List.Perm.Basic
import Mathlib.Data.List.Nodup

/-!
One map kept in many shards.

`shards i` is the state of shard `i` and `view s k` what a shard in state `s`
stores for the key `k`. `owner k` is the shard a key belongs to. The shards are
`Placed` when every key is stored on its owner only; then they are, together, the
single map `merged`. `Held` adds an invariant of each shard, and `Held.write` is the
rule the containers use: writing one key on its owner is writing that key in the held
map.

`gather` reads all the entries: those of one shard first, then those of every
other shard. On placed shards it lists each stored entry exactly once
(`gather_nodup_keys`, `mem_gather`).
-/

namespace Hcl.Lib

variable {N K V S : Type*}

/-! ### Placement -/

/-- Every key is stored on the shard that owns it, and nowhere else. -/
def Placed (view : S → K → Option V) (owner : K → N) (shards : N → S) : Prop :=
  ∀ i k, i ≠ owner k → view (shards i) k = none

/-- The single map the shards hold together: each key is read on its owner. -/
def merged (view : S → K → Option V) (owner : K → N) (shards : N → S) : K → Option V :=
  fun k => view (shards (owner k)) k

/-- On placed shards, what any shard stores is what the single map stores. -/
theorem Placed.merged_of_view {view : S → K → Option V} {owner : K → N} {shards : N → S}
    (placed : Placed view owner shards) {i : N} {k : K} {v : V}
    (stored : view (shards i) k = some v) :
    i = owner k ∧ merged view owner shards k = some v := by
  have here : i = owner k := by
    by_contra elsewhere
    rw [placed i k elsewhere] at stored
    cases stored
  exact ⟨here, by rw [merged, ← here, stored]⟩

/-- The shards hold the map `m`: they are placed, they are `m` together, and each
shard satisfies the invariant of its own data structure. -/
structure Held (view : S → K → Option V) (owner : K → N) (inv : S → Prop) (shards : N → S)
    (m : K → Option V) : Prop where
  placed : Placed view owner shards
  merged_eq : merged view owner shards = m
  each : ∀ i, inv (shards i)

/-- What the owner of a key stores for it is what the held map says. -/
theorem Held.view_owner {view : S → K → Option V} {owner : K → N} {inv : S → Prop}
    {shards : N → S} {m : K → Option V} (held : Held view owner inv shards m) (k : K) :
    view (shards (owner k)) k = m k := by
  rw [← held.merged_eq, merged]

section Write

variable [DecidableEq N] {same : K → Prop} [DecidablePred same]
  {view : S → K → Option V} {owner : K → N} {shards : N → S} {k : K} {s : S} {x : Option V}

/-- Writing a key on its owner keeps the shards placed, provided the keys that count as
the `same` have one owner. -/
theorem Placed.write (placed : Placed view owner shards)
    (respects : ∀ q, same q → owner q = owner k)
    (written : ∀ q, view s q = if same q then x else view (shards (owner k)) q) :
    Placed view owner (Function.update shards (owner k) s) := by
  intro i q elsewhere
  by_cases here : i = owner k
  · subst here
    have distinct : ¬ same q := fun eq => elsewhere (respects q eq).symm
    rw [Function.update_self, written, if_neg distinct, placed _ q elsewhere]
  · rw [Function.update_of_ne here, placed i q elsewhere]

/-- Writing a key on its owner is writing it in the single map. -/
theorem merged_write (respects : ∀ q, same q → owner q = owner k)
    (written : ∀ q, view s q = if same q then x else view (shards (owner k)) q) (q : K) :
    merged view owner (Function.update shards (owner k) s) q =
      if same q then x else merged view owner shards q := by
  unfold merged
  by_cases here : owner q = owner k
  · rw [here, Function.update_self, written]
  · have distinct : ¬ same q := fun eq => here (respects q eq)
    rw [Function.update_of_ne here, if_neg distinct]

/-- The write rule: a write on the owner of `k` that keeps the invariant of a shard
and changes what it stores for the keys that count as the `same` as `k` changes the held
map there. -/
theorem Held.write {inv : S → Prop} {m : K → Option V} (held : Held view owner inv shards m)
    (respects : ∀ q, same q → owner q = owner k) (kept : inv s)
    (written : ∀ q, view s q = if same q then x else view (shards (owner k)) q) :
    Held view owner inv (Function.update shards (owner k) s)
      fun q => if same q then x else m q where
  placed := held.placed.write respects written
  merged_eq := by
    rw [← held.merged_eq]
    exact funext (merged_write respects written)
  each i := by
    by_cases here : i = owner k
    · subst here
      rwa [Function.update_self]
    · rw [Function.update_of_ne here]
      exact held.each i

end Write

/-! ### Reading everything -/

section Gather

variable [DecidableEq N] {E : Type*}

/-- The entries of shard `mine`, then those of every other shard of `all`. -/
def gather (entries : S → List E) (shards : N → S) (all : List N) (mine : N) : List E :=
  entries (shards mine) ++
    (all.filter fun i => decide (i ≠ mine)).flatMap fun i => entries (shards i)

/-- Reading one shard out of turn only reorders the answer. -/
theorem gather_perm (entries : S → List E) (shards : N → S) {all : List N} (nodup : all.Nodup)
    {mine : N} (listed : mine ∈ all) :
    (gather entries shards all mine).Perm (all.flatMap fun i => entries (shards i)) := by
  have split : (mine :: all.filter fun i => decide (i ≠ mine)).Perm all := by
    have erased : all.filter (fun i => decide (i ≠ mine)) = all.erase mine := by
      rw [nodup.erase_eq_filter]
      exact List.filter_congr fun i _ => by rw [Bool.eq_iff_iff, decide_eq_true_iff, bne_iff_ne]
    rw [erased]
    exact (List.perm_cons_erase listed).symm
  exact split.flatMap_right fun i => entries (shards i)

variable {view : S → K → Option V} {owner : K → N} {shards : N → S}
  {all : List N} {mine : N}

/-- `gather` lists exactly the entries of the single map; `entry k v` is the entry
that stores `v` for `k`. -/
theorem mem_gather (entries : S → List E) (entry : K → V → E) (placed : Placed view owner shards)
    (listing : ∀ i k v, entry k v ∈ entries (shards i) ↔ view (shards i) k = some v)
    (nodup : all.Nodup) (listed : mine ∈ all) (owners : ∀ k, owner k ∈ all) {k : K} {v : V} :
    entry k v ∈ gather entries shards all mine ↔ merged view owner shards k = some v := by
  rw [(gather_perm entries shards nodup listed).mem_iff, List.mem_flatMap]
  constructor
  · rintro ⟨i, -, mem⟩
    exact (placed.merged_of_view ((listing i k v).mp mem)).2
  · intro stored
    exact ⟨owner k, owners k, (listing _ k v).mpr stored⟩

/-- `gather` lists no key twice: not within a shard, and not on two shards. -/
theorem gather_nodup_keys (entries : S → List E) (key : E → K) (placed : Placed view owner shards)
    (keyed : ∀ i, ∀ e ∈ entries (shards i), (view (shards i) (key e)).isSome)
    (once : ∀ i, ((entries (shards i)).map key).Nodup)
    (nodup : all.Nodup) (listed : mine ∈ all) :
    ((gather entries shards all mine).map key).Nodup := by
  rw [((gather_perm entries shards nodup listed).map key).nodup_iff, List.map_flatMap,
    List.nodup_flatMap]
  refine ⟨fun i _ => once i, nodup.imp ?_⟩
  intro i j distinct
  have owned : ∀ {i k}, k ∈ (entries (shards i)).map key → i = owner k := by
    intro i k mem
    obtain ⟨e, he, rfl⟩ := List.mem_map.mp mem
    obtain ⟨v, stored⟩ := Option.isSome_iff_exists.mp (keyed i e he)
    exact (placed.merged_of_view stored).1
  exact fun k left right => distinct ((owned left).trans (owned right).symm)

end Gather

end Hcl.Lib
