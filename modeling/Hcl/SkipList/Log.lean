import Hcl.SkipList.Threads

/-!
The life of a node in the log: linked, marked, removed, and then perhaps linked again.

`status log p` is where the node is in this cycle; a log is `Ordered` if every event finds its
node in the status before it. In such a log an insertion that was not marked since is the
current one (`status_of_unmarked`), and it is removed at most once before the node is linked
again (`removed_once`).
-/

namespace Hcl.ConcurrentSkipList

variable {T : Type}

inductive Status (T : Type) where
  | absent
  | linked (x : T)
  | marked

/-- The status of a node; the newest event comes first. -/
def status : List (Event T) → Nat → Status T
  | [], _ => .absent
  | .linked node x :: log, p => if p = node then .linked x else status log p
  | .marked node :: log, p => if p = node then .marked else status log p
  | .removed node :: log, p => if p = node then .absent else status log p

def Ordered : List (Event T) → Prop
  | [] => True
  | .linked node _ :: log => status log node = .absent ∧ Ordered log
  | .marked node :: log => (∃ x, status log node = .linked x) ∧ Ordered log
  | .removed node :: log => status log node = .marked ∧ Ordered log

/-- The node an event is about. -/
def Event.node : Event T → Nat
  | .linked node _ => node
  | .marked node => node
  | .removed node => node

theorem status_of_ne {e : Event T} {log : List (Event T)} {p : Nat} (other : p ≠ e.node) :
    status (e :: log) p = status log p := by
  cases e <;> exact if_neg other

theorem status_append_of_ne {events log : List (Event T)} {p : Nat} (other : ∀ e ∈ events, p ≠ e.node) :
    status (events ++ log) p = status log p := by
  induction events with
  | nil => rfl
  | cons e events ih =>
      rw [List.cons_append, status_of_ne (other e List.mem_cons_self)]
      exact ih fun e' mem => other e' (List.mem_cons_of_mem _ mem)

theorem Ordered.tail {e : Event T} {log : List (Event T)} (h : Ordered (e :: log)) : Ordered log := by
  cases e <;> exact h.2

/-- **An insertion whose node was not marked since is the current one.** -/
theorem status_of_unmarked {later earlier : List (Event T)} {p : Nat} {x : T}
    (h : Ordered (later ++ .linked p x :: earlier)) (unmarked : .marked p ∉ later) :
    status (later ++ .linked p x :: earlier) p = .linked x := by
  induction later with
  | nil => exact if_pos rfl
  | cons e later ih =>
      have before := ih h.tail fun mem => unmarked (List.mem_cons_of_mem _ mem)
      rw [List.cons_append] at h ⊢
      by_cases other : p = e.node
      · -- The node is linked: the only event it can be in is a mark.
        cases e with
        | linked node y =>
            obtain rfl : p = node := other
            exact nomatch h.1.symm.trans before
        | marked node =>
            obtain rfl : p = node := other
            exact absurd List.mem_cons_self unmarked
        | removed node =>
            obtain rfl : p = node := other
            exact nomatch h.1.symm.trans before
      · rw [status_of_ne other, before]

/-- The event is a removal of the node. -/
def Event.removes (p : Nat) : Event T → Bool
  | .removed node => node == p
  | _ => false

/-- **An insertion is removed at most once.** -/
theorem removed_once {later earlier : List (Event T)} {p : Nat} {x : T}
    (h : Ordered (later ++ .linked p x :: earlier)) (last : ∀ y, .linked p y ∉ later) :
    later.countP (Event.removes p) ≤ 1 := by
  suffices both : later.countP (Event.removes p) ≤ 1 ∧ (later.countP (Event.removes p) = 1 →
      status (later ++ .linked p x :: earlier) p = .absent) from both.1
  induction later with
  | nil => exact ⟨Nat.zero_le 1, fun contra => nomatch contra⟩
  | cons e later ih =>
      obtain ⟨once, after⟩ := ih h.tail fun y mem => last y (List.mem_cons_of_mem _ mem)
      rw [List.cons_append] at h ⊢
      by_cases other : p = e.node
      · cases e with
        | linked node y =>
            obtain rfl : p = node := other
            exact absurd List.mem_cons_self (last y)
        | marked node =>
            obtain rfl : p = node := other
            have none_before : later.countP (Event.removes p) ≠ 1 := fun one => by
              obtain ⟨y, linked⟩ := h.1
              exact nomatch linked.symm.trans (after one)
            rw [List.countP_cons_of_neg (by simp [Event.removes])]
            exact ⟨once, fun one => absurd one none_before⟩
        | removed node =>
            obtain rfl : p = node := other
            have none_before : later.countP (Event.removes p) = 0 := by
              have : later.countP (Event.removes p) ≠ 1 := fun one => nomatch h.1.symm.trans (after one)
              omega
            rw [List.countP_cons_of_pos (by simp [Event.removes]), none_before]
            exact ⟨Nat.le_refl _, fun _ => if_pos rfl⟩
      · have differs : ¬ e.removes p = true := by
          cases e with
          | removed node => simpa [Event.removes] using fun same : node = p => other same.symm
          | _ => simp [Event.removes]
        rw [List.countP_cons_of_neg differs, status_of_ne other]
        exact ⟨once, after⟩

end Hcl.ConcurrentSkipList
