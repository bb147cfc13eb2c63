import Hcl.Lib.Atomic
import Hcl.SkipList.GuardSteps

/-!
`add` and `remove` as calls of an atomic set.

The set is what the fully linked nodes hold that are not marked. A call of `add` that links a
node takes effect when it says that the node is fully linked, and a call of `remove` that marks
one takes effect with the mark. The calls that return false take effect when they see that
they will, or when another thread decides it for them: whoever waits for a node to be fully linked
has lost as soon as it is, and whoever is about to mark a node has lost as soon as it is marked.

`Machine.Stands` says, for each place in the code, whether the call has taken effect.
-/

namespace Hcl.ConcurrentSkipList

open Hcl.Lib

variable {T : Type}

/-- What the clients of the list can see. -/
inductive Call (T : Type) where
  | add (x : T)
  | remove (x : T)

/-- What an operation returns that ends here: `addOrGetData(data).second`, `remove(data)`. -/
def Local.answer : Local T → Bool
  | .addCheck newSize => newSize != 0
  -- `growHeight` is called if `newSize` is above the size limit.
  | .growLoad _ => true
  | .growExchange _ _ => true
  | .growPush _ => true
  | .removePush _ => true
  | _ => false

/-- A step of some thread that gets no node from the recycler that another one has a pointer to,
and what of it can be seen. -/
inductive Machine.CallStep [Inhabited T] (lt : T → T → Prop) [DecidableRel lt] (maxHeight : Nat)
    (sizeLimit : Nat → Nat) (m : Machine T) : Option (Atomic.Event Nat (Call T) Bool) → Machine T → Prop where
  | add {t : Nat} {x : T} {m' : Machine T} : m.step lt maxHeight sizeLimit t (.add x) = some m' →
      CallStep lt maxHeight sizeLimit m (some (.call t (.add x))) m'
  | remove {t : Nat} {x : T} {m' : Machine T} : m.step lt maxHeight sizeLimit t (.remove x) = some m' →
      CallStep lt maxHeight sizeLimit m (some (.call t (.remove x))) m'
  | goes {t : Nat} {draw : Nat → Bool} {m' : Machine T} : m.Unshared t →
      m.step lt maxHeight sizeLimit t (.go draw) = some m' → m'.threads t ≠ .idle →
      CallStep lt maxHeight sizeLimit m none m'
  | returns {t : Nat} {draw : Nat → Bool} {m' : Machine T} : m.Unshared t →
      m.step lt maxHeight sizeLimit t (.go draw) = some m' → m'.threads t = .idle →
      CallStep lt maxHeight sizeLimit m (some (.ret t (m.threads t).answer)) m'

/-! ### The set -/

section Spec

variable (lt : T → T → Prop)

/-- The set has a key equivalent to `x`. -/
def Member (a : Set T) (x : T) : Prop := ∃ y ∈ a, IncompRel lt y x

/-- What a call may answer, and the set it leaves. -/
def SetSpec (a : Set T) : Call T → Bool → Set T → Prop
  | .add x, answer, b => Member lt a x ∧ answer = false ∧ b = a ∨
      ¬ Member lt a x ∧ answer = true ∧ b = insert x a
  | .remove x, answer, b => Member lt a x ∧ answer = true ∧ b = {y ∈ a | ¬ IncompRel lt y x} ∨
      ¬ Member lt a x ∧ answer = false ∧ b = a

end Spec

/-- The set that the list is for its clients: the keys of the linked nodes that no thread is
still linking. -/
def Machine.keys (m : Machine T) : Set T :=
  {x | ∃ p, status m.log p = .linked x ∧ ∀ t, (m.threads t).own ≠ some p}

/-- The new node that `addOrGetData` has linked in the bottom layer and not yet said so. -/
def Local.published : Local T → Option Nat
  | .addPrepare _ _ _ newNode (_ + 1) => some newNode
  | .addPublish _ _ _ newNode (_ + 1) => some newNode
  | .addFinish _ newNode => some newNode
  | _ => none

/-- The node is linked in the bottom layer, or marked. -/
def Machine.Shows (m : Machine T) (p : Nat) : Prop :=
  (m.list.memory p).marked = true ∨ (∃ x, status m.log p = .linked x) ∨
    ∃ t, (m.threads t).published = some p

/-- Where the call of a thread stands: whether it has taken effect, and with which answer. -/
def Machine.Stands (lt : T → T → Prop) (m : Machine T) :
    Local T → Atomic.Status (Call T) Bool → Prop
  | .idle, c => c = .idle
  | .addSearch x, c => c = .called (.add x)
  | .addFound x n, c => c = .called (.add x) ∧ m.Shows n ∧ IncompRel lt (m.list.keyOf n) x
  | .addWait n, c => c = .done false ∨ ∃ x, c = .called (.add x) ∧ IncompRel lt (m.list.keyOf n) x ∧
      ∃ t, (m.threads t).published = some n
  | .guard (.add x) _ _ _ _ _, c => c = .called (.add x)
  | .validate (.add x) _ _ _ _ _, c => c = .called (.add x)
  | .retry (.add x) _, c => c = .called (.add x)
  | .addPop x _ _ _, c => c = .called (.add x)
  | .addStore x _ _ _ _, c => c = .called (.add x)
  | .addPrepare _ _ _ n _, c => c = .called (.add (m.list.keyOf n))
  | .addPublish _ _ _ n _, c => c = .called (.add (m.list.keyOf n))
  | .addFinish _ n, c => c = .called (.add (m.list.keyOf n))
  | .addCheck newSize, c => c = .done true ∧ 0 < newSize
  | .removeSearch x, c => c = .called (.remove x)
  | .removeCheck x _ layer n, c =>
      c = .called (.remove x) ∧ (m.list.memory n).height = layer + 1 ∧
        status m.log n = .linked (m.list.keyOf n) ∨
      c = .done false ∧ ((m.list.memory n).marked = true ∨ (m.list.memory n).height ≠ layer + 1)
  | .removeGuard x _ _ n, c =>
      c = .called (.remove x) ∧ status m.log n = .linked (m.list.keyOf n) ∨
      c = .done false ∧ (m.list.memory n).marked = true
  | .removeMark x _ _ n, c =>
      c = .called (.remove x) ∧ status m.log n = .linked (m.list.keyOf n) ∨
      c = .done false ∧ (m.list.memory n).marked = true
  | _, c => c = .done true

/-- The machine follows the atomic set. -/
structure Machine.Follows (lt : T → T → Prop) (maxHeight : Nat) (m : Machine T)
    (c : Atomic.Object (Set T) Nat (Call T) Bool) : Prop where
  consistent : m.Consistent lt
  orderly : m.Orderly lt maxHeight
  few : ∃ n, ∀ t, n ≤ t → m.threads t = .idle
  value : c.value = m.keys
  stands : ∀ t, m.Stands lt (m.threads t) (c.status t)

/-! ### What the log says of a node -/

section Nodes

variable {lt : T → T → Prop} {m : Machine T} {t p : Nat} {xs : List Nat} {lh : Nat → Nat} {x : T}

theorem Local.own_of_listed {thread : Local T} (inv : thread.Inv lt m.list xs lh) (own : thread.own = some p)
    (listed : p ∈ xs) : (m.list.memory p).marked = true ∨ thread.published = some p := by
  cases thread with
  | guard change | validate change =>
      cases change with
      | add => cases own
      | remove =>
          cases own
          exact .inl inv.1.1.marked
  | retry change =>
      cases change with
      | add => cases own
      | remove =>
          cases own
          exact .inl (Condemned.marked inv)
  | addStore =>
      cases own
      exact absurd (inv.2.2.list.mp listed) (Nat.lt_irrefl 0)
  | addPrepare _ _ _ _ k =>
      cases own
      cases k with
      | zero => exact absurd (inv.2.2.list.mp listed) (Nat.lt_irrefl 0)
      | succ k => exact .inr rfl
  | addPublish _ _ _ _ k =>
      cases own
      cases k with
      | zero => exact absurd (inv.2.2.1.list.mp listed) (Nat.lt_irrefl 0)
      | succ k => exact .inr rfl
  | addFinish => exact .inr own
  | growGuard | growExchange =>
      cases own
      exact absurd (.inr (.inr listed)) inv.2.2
  | growPush | removeSize | removePush =>
      cases own
      exact absurd (List.mem_cons_of_mem _ listed) inv.2
  | removeAgain =>
      cases own
      exact .inl (Condemned.marked inv)
  | removeUnlink =>
      cases own
      exact .inl inv.1.2.1
  | _ => cases own

/-- A new node that is linked in the bottom layer is in the list, and not fully linked. -/
theorem Local.listed_of_published {thread : Local T} (inv : thread.Inv lt m.list xs lh)
    (published : thread.published = some p) : p ∈ xs ∧ (m.list.memory p).fullyLinked = false := by
  cases thread with
  | addPrepare _ _ _ _ k =>
      cases k with
      | zero => cases published
      | succ k =>
          cases published
          exact ⟨inv.2.2.list.mpr (Nat.succ_pos k), inv.2.2.full⟩
  | addPublish _ _ _ _ k =>
      cases k with
      | zero => cases published
      | succ k =>
          cases published
          exact ⟨inv.2.2.1.list.mpr (Nat.succ_pos k), inv.2.2.1.full⟩
  | addFinish =>
      cases published
      obtain ⟨height, positive, growing⟩ := inv
      exact ⟨growing.list.mpr positive, growing.full⟩
  | _ => cases published

variable (inv : m.Inv lt xs lh)
include inv

/-- A node that the log has as linked is in the list and not marked. -/
theorem Machine.Inv.of_linked (linked : status m.log p = .linked x) :
    p ∈ xs ∧ (m.list.memory p).marked = false ∧ m.list.keyOf p = x := by
  by_cases owned : ∃ t, (m.threads t).own = some p
  · obtain ⟨t, own⟩ := owned
    obtain ⟨⟨guards, here⟩, key⟩ := Local.own_linked own ((inv.owned t p own).symm.trans linked)
    have knows := inv.threads t
    rw [here] at knows
    obtain ⟨height, positive, growing⟩ := knows
    exact ⟨growing.list.mpr positive, growing.marked, key⟩
  · obtain ⟨whole, absent⟩ := inv.settled p fun t own => owned ⟨t, own⟩
    by_cases listed : p ∈ xs
    · obtain ⟨-, unmarked, logged⟩ := whole listed
      exact ⟨listed, unmarked, Status.linked.inj (logged.symm.trans linked)⟩
    · cases (absent listed).symm.trans linked

theorem Machine.Inv.shows_of_listed (listed : p ∈ xs) : m.Shows p := by
  by_cases owned : ∃ t, (m.threads t).own = some p
  · obtain ⟨t, own⟩ := owned
    rcases Local.own_of_listed (inv.threads t) own listed with marked | published
    · exact .inl marked
    · exact .inr (.inr ⟨t, published⟩)
  · have settled := inv.settled p fun t own => owned ⟨t, own⟩
    exact .inr (.inl ⟨_, (settled.whole listed).2.2⟩)

theorem Machine.Inv.live_of_shows (shows : m.Shows p) : Live m.list xs p := by
  rcases shows with marked | ⟨x, linked⟩ | ⟨t, published⟩
  · exact .inl marked
  · exact .inr (.inr (inv.of_linked linked).1)
  · exact .inr (.inr (Local.listed_of_published (inv.threads t) published).1)

/-- The set in terms of the list. -/
theorem Machine.Inv.mem_keys : x ∈ m.keys ↔ ∃ p ∈ xs, (∀ t, (m.threads t).own ≠ some p) ∧ m.list.keyOf p = x := by
  constructor
  · rintro ⟨p, linked, free⟩
    obtain ⟨listed, -, key⟩ := inv.of_linked linked
    exact ⟨p, listed, free, key⟩
  · rintro ⟨p, listed, free, rfl⟩
    exact ⟨p, ((inv.settled p free).whole listed).2.2, free⟩

theorem Machine.Inv.member_iff :
    Member lt m.keys x ↔ ∃ p ∈ xs, (∀ t, (m.threads t).own ≠ some p) ∧ IncompRel lt (m.list.keyOf p) x := by
  constructor
  · rintro ⟨y, mem, same⟩
    obtain ⟨p, listed, free, rfl⟩ := inv.mem_keys.mp mem
    exact ⟨p, listed, free, same⟩
  · rintro ⟨p, listed, free, same⟩
    exact ⟨_, inv.mem_keys.mpr ⟨p, listed, free, rfl⟩, same⟩

/-- A linked node is fully linked if and only if it is nobody's. -/
theorem Machine.Inv.full_iff {maxHeight : Nat} (orderly : m.Orderly lt maxHeight)
    (linked : status m.log p = .linked x) :
    (m.list.memory p).fullyLinked = true ↔ ∀ t, (m.threads t).own ≠ some p := by
  obtain ⟨listed, unmarked, -⟩ := inv.of_linked linked
  constructor
  · exact inv.unowned listed unmarked
  · intro free
    have logged : status m.log p ≠ .absent := by
      rw [linked]
      intro contra
      cases contra
    rcases (orderly.completes p (.inr (.inl logged))).linked with full | ⟨t, grows⟩
    · exact full
    · exact absurd (Local.own_of_grows grows) (free t)

end Nodes

end Hcl.ConcurrentSkipList
