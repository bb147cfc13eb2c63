import Hcl.SkipList.Invariant
import Hcl.SkipList.Log

/-!
The invariant of the machine, and what a step has to show to keep it.

A step of thread `t` is described by the list after it and by its `Frame`: what the other
threads need of the nodes they have pointers to, guards of, or own. `Machine.Inv.next` puts the
two together; the modules that follow show a frame for every kind of step.
-/

namespace Hcl.ConcurrentSkipList

open Hcl.Lib

variable {T : Type} {lt : T → T → Prop}

/-- Where the log has the node that a thread owns, if `key` are its data. -/
def Local.status (key : T) : Local T → Status T
  | .guard _ _ _ _ _ _ => .marked
  | .validate _ _ _ _ _ _ => .marked
  | .retry _ _ => .marked
  | .removeAgain _ _ => .marked
  | .removeUnlink _ _ _ _ _ => .marked
  | .addFinish _ _ => .linked key
  | _ => .absent

/-- A node that no thread owns is linked in all its layers and not marked, or it is in none. -/
structure Settled (s : ConcurrentSkipList T) (xs : List Nat) (lh : Nat → Nat) (log : List (Event T))
    (p : Nat) : Prop where
  whole : p ∈ xs → lh p = (s.memory p).height ∧ (s.memory p).marked = false ∧
    status log p = .linked (s.keyOf p)
  absent : p ∉ xs → status log p = .absent

/-- Another thread owns the node. -/
def Machine.OwnedBeside (m : Machine T) (t p : Nat) : Prop := ∃ u ≠ t, (m.threads u).own = some p

/-- The nodes in use: the list, the node of thread `t` and those of the others. -/
def Machine.InUse (m : Machine T) (t : Nat) (list : List Nat) (own : Option Nat) (p : Nat) : Prop :=
  p ∈ list ∨ own = some p ∨ m.OwnedBeside t p

structure Machine.Inv (lt : T → T → Prop) (m : Machine T) (xs : List Nat) (lh : Nat → Nat) : Prop where
  layers : Layers lt m.list xs lh
  head : (m.list.memory m.list.head).marked = false ∧ (m.list.memory m.list.head).fullyLinked = false
  fresh : ∀ p, m.list.nextAddress ≤ p →
    (m.list.memory p).marked = false ∧ (m.list.memory p).locked = false
  stock : Stock m.list fun p => p ∈ m.list.head :: xs ∨ ∃ t, (m.threads t).own = some p
  threads : ∀ t, (m.threads t).Inv lt m.list xs lh
  guards : ∀ t, ∀ p ∈ (m.threads t).held, (m.list.memory p).locked = true ∧ Live m.list xs p
  exclusive : ∀ t u p, p ∈ (m.threads t).held → p ∈ (m.threads u).held → t = u
  owners : ∀ t u p, (m.threads t).own = some p → (m.threads u).own = some p → t = u
  ordered : Ordered m.log
  owned : ∀ t p, (m.threads t).own = some p → status m.log p = (m.threads t).status (m.list.keyOf p)
  settled : ∀ p, (∀ t, (m.threads t).own ≠ some p) → Settled m.list xs lh m.log p

/-! ### What the invariant says of a node -/

section Nodes

variable {s : ConcurrentSkipList T} {xs : List Nat} {lh : Nat → Nat} {m : Machine T} {t p : Nat}

/-- A guard is a pointer. -/
theorem Local.holds_of_held {thread : Local T} (held : p ∈ thread.held) : thread.Holds p := by
  cases thread with
  | guard | validate | addPop | addStore | addPrepare | addPublish | removeUnlink => exact .inr held
  | retry | addFinish | addSize | removeSize => exact held
  | growExchange => exact List.mem_singleton.mp held
  | removeMark => exact .inr (List.mem_singleton.mp held)
  | _ => exact nomatch held

/-- An own node is not the head, and not both unmarked and fully linked in the list. -/
theorem Local.Inv.own_spec {thread : Local T} (layers : Layers lt s xs lh) (inv : thread.Inv lt s xs lh)
    (own : thread.own = some p) : p ≠ s.head ∧
      (p ∈ xs → (s.memory p).marked = true ∨ (s.memory p).fullyLinked = false) := by
  have listed : ∀ q ∈ xs, (s.memory q).marked = true → q ≠ s.head ∧
      (q ∈ xs → (s.memory q).marked = true ∨ (s.memory q).fullyLinked = false) := fun q hq marked =>
    ⟨ne_of_mem_of_not_mem hq layers.nodup.1, fun _ => .inl marked⟩
  have outside : ∀ q, ¬ Live s xs q → q ≠ s.head ∧
      (q ∈ xs → (s.memory q).marked = true ∨ (s.memory q).fullyLinked = false) := fun q dead =>
    ⟨fun same => dead (.inr (.inl same)), fun mem => absurd (.inr (.inr mem)) dead⟩
  have gone : ∀ q, q ∉ s.head :: xs → q ≠ s.head ∧
      (q ∈ xs → (s.memory q).marked = true ∨ (s.memory q).fullyLinked = false) := fun q out =>
    ⟨fun same => out (same ▸ List.mem_cons_self), fun mem => absurd (List.mem_cons_of_mem _ mem) out⟩
  cases thread with
  | guard change | validate change | retry change =>
      cases change with
      | add => exact nomatch own
      | remove x node =>
          cases own
          first
          | exact listed _ inv.1.1.mem inv.1.1.marked
          | exact listed _ inv.mem inv.marked
  | addStore => cases own; exact ⟨inv.2.2.head, fun _ => .inr inv.2.2.full⟩
  | addPrepare => cases own; exact ⟨inv.2.2.head, fun _ => .inr inv.2.2.full⟩
  | addPublish => cases own; exact ⟨inv.2.2.1.head, fun _ => .inr inv.2.2.1.full⟩
  | addFinish =>
      obtain ⟨height, -, growing⟩ := inv
      cases own
      exact ⟨growing.head, fun _ => .inr growing.full⟩
  | growGuard => cases own; exact outside _ inv.2.2
  | growExchange => cases own; exact outside _ inv.2.2
  | growPush => cases own; exact gone _ inv.2
  | removeAgain => cases own; exact listed _ inv.mem inv.marked
  | removeUnlink => cases own; exact listed _ inv.1.1 inv.1.2.1
  | removeSize => cases own; exact gone _ inv.2
  | removePush => cases own; exact gone _ inv.2
  | _ => exact nomatch own

variable (inv : m.Inv lt xs lh)
include inv

theorem Machine.Inv.listed_allocated (listed : p ∈ m.list.head :: xs) : p < m.list.nextAddress :=
  inv.stock.allocated p (.inl listed)

theorem Machine.Inv.live_allocated (live : Live m.list xs p) : p < m.list.nextAddress := by
  rcases live with marked | listed
  · apply Nat.lt_of_not_le
    intro new
    rw [(inv.fresh p new).1] at marked
    cases marked
  · exact inv.listed_allocated (List.mem_cons.mpr listed)

theorem Machine.Inv.own_ne_head (own : (m.threads t).own = some p) : p ≠ m.list.head :=
  ((inv.threads t).own_spec inv.layers own).1

/-- A fully linked node that is not marked is nobody's. -/
theorem Machine.Inv.unowned (listed : p ∈ xs) (unmarked : (m.list.memory p).marked = false)
    (full : (m.list.memory p).fullyLinked = true) (t : Nat) : (m.threads t).own ≠ some p := fun own => by
  rcases ((inv.threads t).own_spec inv.layers own).2 listed with marked | partly
  · rw [unmarked] at marked
    cases marked
  · rw [full] at partly
    cases partly

/-- The stock, seen from one thread. -/
theorem Machine.Inv.stock_beside (t : Nat) :
    Stock m.list (m.InUse t (m.list.head :: xs) (m.threads t).own) := by
  refine inv.stock.congr rfl rfl (fun _ => rfl) fun p => or_congr Iff.rfl ⟨?_, fun ⟨u, own⟩ => ?_⟩
  · rintro (own | ⟨u, -, own⟩)
    · exact ⟨t, own⟩
    · exact ⟨u, own⟩
  · by_cases here : u = t
    · exact .inl (here ▸ own)
    · exact .inr ⟨u, here, own⟩

end Nodes

/-! ### One step -/

/-- What the threads other than `t` need of a step of `t`. -/
structure Frame (m : Machine T) (t : Nat) (xs : List Nat) (lh : Nat → Nat) (s' : ConcurrentSkipList T)
    (xs' : List Nat) (lh' : Nat → Nat) : Prop where
  height : m.list.height ≤ s'.height
  keeps : ∀ u ≠ t, ∀ p, (m.threads u).Holds p → Live m.list xs p → Keeps m.list xs lh s' xs' lh' p
  frozen : ∀ u ≠ t, ∀ p ∈ (m.threads u).held, Frozen m.list xs lh s' p ∧ (s'.memory p).locked = true
  apart : ∀ u ≠ t, ∀ p, (m.threads u).own = some p → Apart m.list xs lh s' xs' lh' p

/-- What thread `t` has to show of itself after its step. -/
structure Arrives (lt : T → T → Prop) (m : Machine T) (t : Nat) (s' : ConcurrentSkipList T)
    (thread' : Local T) (log' : List (Event T)) (xs' : List Nat) (lh' : Nat → Nat) : Prop where
  inv : thread'.Inv lt s' xs' lh'
  guards : ∀ p ∈ thread'.held, (s'.memory p).locked = true ∧ Live s' xs' p ∧
    ∀ u ≠ t, p ∉ (m.threads u).held
  owner : ∀ p, thread'.own = some p → ¬ m.OwnedBeside t p ∧ status log' p = thread'.status (s'.keyOf p)

variable {m : Machine T} {t : Nat} {xs xs' : List Nat} {lh lh' : Nat → Nat} {s' : ConcurrentSkipList T}
  {thread' : Local T} {events : List (Event T)}

/-- What at most one thread has, at most one has after a step in which `t` takes nothing that
another has. -/
theorem Machine.unique_after (has : Local T → Prop) (alone : has thread' → ∀ u ≠ t, ¬ has (m.threads u))
    (unique : ∀ u v, has (m.threads u) → has (m.threads v) → u = v) {u v : Nat}
    (hu : has ((m.after t s' thread' events).threads u))
    (hv : has ((m.after t s' thread' events).threads v)) : u = v := by
  have self : (m.after t s' thread' events).threads t = thread' := Function.update_self ..
  have beside : ∀ u ≠ t, (m.after t s' thread' events).threads u = m.threads u := fun u other =>
    Function.update_of_ne other ..
  by_cases hereU : u = t <;> by_cases hereV : v = t
  · rw [hereU, hereV]
  · rw [hereU, self] at hu
    rw [beside v hereV] at hv
    exact absurd hv (alone hu v hereV)
  · rw [beside u hereU] at hu
    rw [hereV, self] at hv
    exact absurd hu (alone hv u hereU)
  · rw [beside u hereU] at hu
    rw [beside v hereV] at hv
    exact unique u v hu hv

/-- **A step keeps the invariant** if the list, its own thread and the frame are as they
should be. -/
theorem Machine.Inv.next (inv : m.Inv lt xs lh) (frame : Frame m t xs lh s' xs' lh')
    (arrives : Arrives lt m t s' thread' (events ++ m.log) xs' lh') (layers : Layers lt s' xs' lh')
    (head : (s'.memory s'.head).marked = false ∧ (s'.memory s'.head).fullyLinked = false)
    (fresh : ∀ p, s'.nextAddress ≤ p → (s'.memory p).marked = false ∧ (s'.memory p).locked = false)
    (stock : Stock s' (m.InUse t (s'.head :: xs') thread'.own)) (ordered : Ordered (events ++ m.log))
    (others : ∀ p, m.OwnedBeside t p → status (events ++ m.log) p = status m.log p)
    (settled : ∀ p, ¬ m.OwnedBeside t p → thread'.own ≠ some p →
      Settled s' xs' lh' (events ++ m.log) p) :
    (m.after t s' thread' events).Inv lt xs' lh' := by
  have self : (m.after t s' thread' events).threads t = thread' := Function.update_self ..
  have beside : ∀ u ≠ t, (m.after t s' thread' events).threads u = m.threads u := fun u other =>
    Function.update_of_ne other ..
  refine ⟨layers, head, fresh, ?_, ?_, ?_, ?_,
    ?_, ordered, ?_, ?_⟩
  · refine stock.congr rfl rfl (fun _ => rfl) fun p => or_congr Iff.rfl ⟨fun ⟨u, own⟩ => ?_, ?_⟩
    · by_cases here : u = t
      · rw [here, self] at own
        exact .inl own
      · rw [beside u here] at own
        exact .inr ⟨u, here, own⟩
    · rintro (own | ⟨u, here, own⟩)
      · exact ⟨t, by rw [self]; exact own⟩
      · exact ⟨u, by rw [beside u here]; exact own⟩
  · intro u
    by_cases here : u = t
    · rw [here, self]
      exact arrives.inv
    · rw [beside u here]
      exact (inv.threads u).stable frame.height (frame.keeps u here)
        (fun p held => (frame.frozen u here p held).1) (frame.apart u here)
  · intro u p held
    by_cases here : u = t
    · rw [here, self] at held
      exact ⟨(arrives.guards p held).1, (arrives.guards p held).2.1⟩
    · rw [beside u here] at held
      have live := (inv.guards u p held).2
      exact ⟨(frame.frozen u here p held).2,
        live.stable (frame.keeps u here p (Local.holds_of_held held) live)⟩
  · intro u v p hu hv
    exact Machine.unique_after (p ∈ ·.held) (fun held => (arrives.guards p held).2.2)
      (fun u v => inv.exclusive u v p) hu hv
  · intro u v p hu hv
    exact Machine.unique_after (·.own = some p)
      (fun own u here other => (arrives.owner p own).1 ⟨u, here, other⟩)
      (fun u v => inv.owners u v p) hu hv
  · intro u p own
    by_cases here : u = t
    · rw [here, self] at own ⊢
      exact (arrives.owner p own).2
    · rw [beside u here] at own ⊢
      show status (events ++ m.log) p = (m.threads u).status (s'.keyOf p)
      rw [others p ⟨u, here, own⟩, (frame.apart u here p own).data]
      exact inv.owned u p own
  · intro p unowned
    refine settled p (fun ⟨u, here, own⟩ => unowned u ?_) fun own => unowned t ?_
    · rw [beside u here]
      exact own
    · rw [self]
      exact own

end Hcl.ConcurrentSkipList
