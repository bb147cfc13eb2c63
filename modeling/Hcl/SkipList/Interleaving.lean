import Hcl.SkipList.Alone
import Hcl.SkipList.Changes

/-!
Every interleaving of `add` and `remove` whose pops are exclusive keeps the skip list sound.

Each phase of a thread is one case, with the step it takes from there. The induction over runs
is at the end.
-/

namespace Hcl.ConcurrentSkipList

open Hcl.Lib

variable {T : Type} {lt : T → T → Prop} {xs : List Nat} {lh : Nat → Nat} {x : T} {point : InsertionPoint}
  {guards : List Nat} {n : Nat} {m : Machine T} {t : Nat}

/-! ### The phases -/

/-- The invariant holds, for some list. -/
def Machine.Consistent (lt : T → T → Prop) (m : Machine T) : Prop := ∃ xs lh, m.Inv lt xs lh

/-- A step of a thread that owns nothing and has no guard then. -/
theorem Machine.Inv.wander {thread' : Local T} (inv : m.Inv lt xs lh) (knows : thread'.Inv lt m.list xs lh)
    (own : (m.threads t).own = none) (own' : thread'.own = none) (held : thread'.held = []) :
    (m.after t m.list thread' []).Consistent lt := by
  refine ⟨xs, lh, inv.move knows (own'.trans own.symm) ?_ ?_⟩
  · intro p _ mine
    rw [own'] at mine
    cases mine
  · rw [held]
    exact List.nil_subset _

/-- The end of `addOrGetData` under guards. -/
theorem Machine.Inv.at_addSize (inv : m.Inv lt xs lh) (here : m.threads t = .addSize guards) :
    (m.after t (m.list.sizeUp.releaseGuards guards) (.addCheck m.list.sizeUp.size) []).Consistent lt := by
  have held : (m.threads t).held = guards := by rw [here]; rfl
  rw [← held]
  exact ⟨xs, lh, inv.release ⟨rfl, rfl, rfl, fun _ => .of_memory rfl⟩ (fun _ => rfl) trivial (by rw [here]; rfl)
    (fun _ _ mine => nomatch mine) rfl⟩

/-- The end of `remove` under guards. -/
theorem Machine.Inv.at_removeSize {node : Nat} (inv : m.Inv lt xs lh)
    (here : m.threads t = .removeSize guards node) :
    (m.after t (m.list.sizeDown.releaseGuards guards) (.removePush node) []).Consistent lt := by
  have knows := inv.threads t
  have held : (m.threads t).held = guards := by rw [here]; rfl
  rw [here] at knows
  rw [← held]
  exact ⟨xs, lh, inv.release ⟨rfl, rfl, rfl, fun _ => .of_memory rfl⟩ (fun _ => rfl) knows (by rw [here]; rfl)
    (fun _ _ _ => by rw [here]; rfl) rfl⟩

/-- The last step of `remove` and of `growHeight`. -/
theorem Machine.Inv.give_back [Inhabited T] {node : Nat} {s' : ConcurrentSkipList T} (inv : m.Inv lt xs lh)
    (own : (m.threads t).own = some node)
    (outside : node ∉ m.list.head :: xs) (absent : ∀ key, (m.threads t).status key = .absent)
    (pushes : m.list.push (m.list.memory node).height node = some s') :
    (m.after t s' .idle []).Consistent lt := by
  unfold ConcurrentSkipList.push at pushes
  split at pushes
  · obtain rfl := Option.some.inj pushes
    exact ⟨xs, lh, inv.push own outside absent trivial rfl rfl⟩
  · cases pushes

section Phases

variable [Inhabited T] [DecidableRel lt] {maxHeight : Nat} {sizeLimit : Nat → Nat}
  {draw : Nat → Bool} {s' : ConcurrentSkipList T} {thread' : Local T} {events : List (Event T)}
  {nodeHeight layer candidate : Nat} (inv : m.Inv lt xs lh)
include inv

/-! #### `addOrGetData` -/

theorem Machine.Inv.at_addSearch [IsStrictWeakOrder T lt] (here : m.threads t = .addSearch x)
    (taken : goOn lt maxHeight sizeLimit draw m.list (.addSearch x) = some (s', thread', events)) :
    (m.after t s' thread' events).Consistent lt := by
  obtain ⟨point, search, recorded⟩ := inv.layers.findInsertionPoint x
  simp only [goOn, search, Option.bind_eq_bind, Option.bind_some] at taken
  cases found : point.foundLayer with
  | none =>
      simp only [found, Option.some.injEq, Prod.mk.injEq] at taken
      obtain ⟨rfl, rfl, rfl⟩ := taken
      exact inv.wander (recorded.guard_add inv.layers found draw) (by rw [here]; rfl) rfl rfl
  | some layer =>
      obtain ⟨q, -, -, -, succ⟩ := recorded.present inv.layers found
      simp only [found, succ, Option.bind_some, Option.some.injEq, Prod.mk.injEq] at taken
      obtain ⟨rfl, rfl, rfl⟩ := taken
      exact inv.wander trivial (by rw [here]; rfl) rfl rfl

theorem Machine.Inv.at_addFound {node : Nat} (here : m.threads t = .addFound x node)
    (taken : goOn lt maxHeight sizeLimit draw m.list (.addFound x node) = some (s', thread', events)) :
    (m.after t s' thread' events).Consistent lt := by
  simp only [goOn, Option.some.injEq, Prod.mk.injEq] at taken
  obtain ⟨rfl, rfl, rfl⟩ := taken
  split <;> exact inv.wander trivial (by rw [here]; rfl) rfl rfl

theorem Machine.Inv.at_addWait {node : Nat} (here : m.threads t = .addWait node)
    (taken : goOn lt maxHeight sizeLimit draw m.list (.addWait node) = some (s', thread', events)) :
    (m.after t s' thread' events).Consistent lt := by
  simp only [goOn, Option.some.injEq, Prod.mk.injEq] at taken
  obtain ⟨rfl, rfl, rfl⟩ := taken
  split <;> exact inv.wander trivial (by rw [here]; rfl) rfl rfl

theorem Machine.Inv.at_guard {change : Change T} {prevPred : Option Nat}
    (here : m.threads t = .guard change point nodeHeight layer prevPred guards)
    (taken : goOn lt maxHeight sizeLimit draw m.list (.guard change point nodeHeight layer prevPred guards) =
      some (s', thread', events)) : (m.after t s' thread' events).Consistent lt := by
  simp only [goOn] at taken
  split at taken
  · rename_i low
    obtain ⟨pred, found, taken⟩ := Option.bind_eq_some_iff.mp taken
    obtain ⟨⟨s₁, guards'⟩, locks, taken⟩ := Option.bind_eq_some_iff.mp taken
    obtain ⟨rfl, rfl, rfl⟩ : s₁ = s' ∧ _ = thread' ∧ _ = events := by
      simpa only [Option.some.injEq, Prod.mk.injEq] using taken
    exact ⟨xs, lh, inv.guard_layer here low found locks⟩
  · rename_i done
    obtain ⟨rfl, rfl, rfl⟩ : _ = s' ∧ _ = thread' ∧ _ = events := by
      simpa only [Option.some.injEq, Prod.mk.injEq] using taken
    exact ⟨xs, lh, inv.guarded here done⟩

theorem Machine.Inv.at_validate [IsStrictWeakOrder T lt] {change : Change T} {pred : Nat}
    (here : m.threads t = .validate change point nodeHeight layer pred guards)
    (taken : goOn lt maxHeight sizeLimit draw m.list (.validate change point nodeHeight layer pred guards) =
      some (s', thread', events)) : (m.after t s' thread' events).Consistent lt := by
  simp only [goOn] at taken
  obtain ⟨valid, checked, taken⟩ := Option.bind_eq_some_iff.mp taken
  obtain ⟨rfl, rfl, rfl⟩ : _ = s' ∧ _ = thread' ∧ _ = events := by
    simpa only [Option.some.injEq, Prod.mk.injEq] using taken
  exact ⟨xs, lh, inv.validate_layer here checked⟩

theorem Machine.Inv.at_addPop [IsStrictWeakOrder T lt] (exclusive : m.Exclusive t)
    (here : m.threads t = .addPop x point nodeHeight guards)
    (taken : goOn lt maxHeight sizeLimit draw m.list (.addPop x point nodeHeight guards) =
      some (s', thread', events)) : (m.after t s' thread' events).Consistent lt := by
  simp only [goOn] at taken
  obtain ⟨⟨s₁, n⟩, pops, taken⟩ := Option.bind_eq_some_iff.mp taken
  obtain ⟨rfl, rfl, rfl⟩ : s₁ = s' ∧ _ = thread' ∧ _ = events := by
    simpa only [Option.some.injEq, Prod.mk.injEq] using taken
  have knows := inv.threads t
  have held := inv.guards t
  rw [here] at knows held
  obtain ⟨bounds, gaps, named⟩ := knows
  -- The thread's own pointers are to nodes of the list.
  have inList : ∀ p, (m.threads t).Holds p → p ∈ m.list.head :: xs := by
    rw [here]
    rintro p (⟨l, low, pred | succ⟩ | guarded)
    · exact (gaps l low).1.listed pred
    · exact List.mem_cons_of_mem _
        ((gaps l low).1.succ_listed inv.layers (Nat.lt_of_lt_of_le low bounds.2) succ)
    · obtain ⟨l, low, pred⟩ := named p guarded
      exact (gaps l low).1.listed pred
  have handed := inv.hands_out pops exclusive (by rw [here]; rfl) fun p pointer _ queued =>
    (inv.stock.queued nodeHeight p queued).2.2 (.inl (inList p pointer))
  have memory : ∀ p, (m.threads t).Holds p → s₁.memory p = m.list.memory p := fun p pointer =>
    handed.memory t p pointer (.inr (List.mem_cons.mp (inList p pointer)))
  rw [here] at memory
  have top : s₁.height = m.list.height := by
    rw [height, handed.popped.head]
    exact congrArg SkipListNode.height (handed.popped.old (inv.listed_allocated List.mem_cons_self)
      fun same => handed.outside (same ▸ List.mem_cons_self))
  refine ⟨xs, lh, inv.pop handed (by rw [here]; rfl) ⟨top ▸ bounds, ?_, ?_⟩ (by rw [here]; rfl) rfl fun _ => rfl⟩
  · have gaps' := gaps_stable (k := 0) (fun l _ => gaps l)
      (fun p pointer _ => .of_memory (memory p pointer) handed.popped.head)
      fun p mem => .of_memory (memory p (.inr mem)) fun here => here.trans handed.popped.head.symm
    exact fun l => gaps' l (Nat.zero_le l)
  · refine ⟨?_, handed.height, handed.cleared.1, handed.cleared.2, ?_, fun contra => by cases contra⟩
    · rw [handed.popped.head]
      exact fun same => handed.outside (same ▸ List.mem_cons_self)
    · exact iff_of_false (fun mem => handed.outside (List.mem_cons_of_mem _ mem)) (Nat.lt_irrefl 0)

theorem Machine.Inv.at_addPublish [IsStrictWeakOrder T lt] {k : Nat}
    (here : m.threads t = .addPublish point nodeHeight guards n k)
    (taken : goOn lt maxHeight sizeLimit draw m.list (.addPublish point nodeHeight guards n k) =
      some (s', thread', events)) : (m.after t s' thread' events).Consistent lt := by
  simp only [goOn] at taken
  obtain ⟨a, found, taken⟩ := Option.bind_eq_some_iff.mp taken
  obtain ⟨s₁, set, taken⟩ := Option.bind_eq_some_iff.mp taken
  obtain ⟨-, rfl⟩ := setSkip_some set
  have published := inv.add_publish here found
  split at taken <;> rename_i more
  · obtain ⟨rfl, rfl, rfl⟩ : _ = s' ∧ _ = thread' ∧ _ = events := by
      simpa only [Option.some.injEq, Prod.mk.injEq] using taken
    rwa [if_pos more, if_pos more] at published
  · obtain ⟨rfl, rfl, rfl⟩ : _ = s' ∧ _ = thread' ∧ _ = events := by
      simpa only [Option.some.injEq, Prod.mk.injEq, writeSkip_keyOf] using taken
    rwa [if_neg more, if_neg more] at published

/-! #### `growHeight` -/

theorem Machine.Inv.at_growLoad {high : Nat} (here : m.threads t = .growLoad high)
    (taken : goOn lt maxHeight sizeLimit draw m.list (.growLoad high) = some (s', thread', events)) :
    (m.after t s' thread' events).Consistent lt := by
  simp only [goOn, Option.some.injEq, Prod.mk.injEq] at taken
  obtain ⟨rfl, rfl, rfl⟩ := taken
  split
  · exact inv.wander trivial (by rw [here]; rfl) rfl rfl
  · rename_i higher
    exact inv.wander ⟨.inr (.inl rfl), Nat.lt_of_not_le higher⟩ (by rw [here]; rfl) rfl rfl

theorem Machine.Inv.at_growPop {high oldHead : Nat} (exclusive : m.Exclusive t)
    (here : m.threads t = .growPop high oldHead)
    (taken : goOn lt maxHeight sizeLimit draw m.list (.growPop high oldHead) =
      some (s', thread', events)) : (m.after t s' thread' events).Consistent lt := by
  simp only [goOn] at taken
  obtain ⟨⟨s₁, newHead⟩, pops, taken⟩ := Option.bind_eq_some_iff.mp taken
  obtain ⟨rfl, rfl, rfl⟩ : s₁ = s' ∧ _ = thread' ∧ _ = events := by
    simpa only [Option.some.injEq, Prod.mk.injEq] using taken
  have knows := inv.threads t
  rw [here] at knows
  obtain ⟨live, lower⟩ := knows
  have handed := inv.hands_out pops exclusive (by rw [here]; rfl) fun p pointer _ queued => by
    rw [here] at pointer
    obtain rfl : p = oldHead := pointer
    have := (inv.stock.queued high p queued).1
    omega
  have same : s₁.memory oldHead = m.list.memory oldHead := handed.memory t oldHead (by rw [here]; rfl) live
  have kept : Keeps m.list xs lh s₁ xs lh oldHead := .of_memory same handed.popped.head
  refine ⟨xs, lh, inv.pop handed (by rw [here]; rfl) ⟨?_, ?_, ?_⟩ (by rw [here]; rfl) rfl fun _ => rfl⟩
  · exact live.stable kept
  · rw [same, handed.height]
    exact lower
  · rintro (marked | listed)
    · rw [handed.cleared.1] at marked
      cases marked
    · rw [handed.popped.head] at listed
      exact handed.outside (List.mem_cons.mpr listed)

theorem Machine.Inv.at_growGuard {oldHead newHead : Nat} (here : m.threads t = .growGuard oldHead newHead)
    (taken : goOn lt maxHeight sizeLimit draw m.list (.growGuard oldHead newHead) =
      some (s', thread', events)) : (m.after t s' thread' events).Consistent lt := by
  simp only [goOn] at taken
  obtain ⟨s₁, guard, taken⟩ := Option.bind_eq_some_iff.mp taken
  obtain ⟨rfl, rfl, rfl⟩ : s₁ = s' ∧ _ = thread' ∧ _ = events := by
    simpa only [Option.some.injEq, Prod.mk.injEq] using taken
  have knows := inv.threads t
  rw [here] at knows
  exact ⟨xs, lh, inv.acquire guard knows.1 knows (by rw [here]; rfl) (fun _ _ _ => by rw [here]; rfl)
    (by rw [here]; exact List.Subset.refl _)⟩

theorem Machine.Inv.at_growExchange {oldHead newHead : Nat} (here : m.threads t = .growExchange oldHead newHead)
    (taken : goOn lt maxHeight sizeLimit draw m.list (.growExchange oldHead newHead) =
      some (s', thread', events)) : (m.after t s' thread' events).Consistent lt := by
  have knows := inv.threads t
  have own : (m.threads t).own = some newHead := by rw [here]; rfl
  have held : (m.threads t).held = [oldHead] := by rw [here]; rfl
  have absent : ∀ key, (m.threads t).status key = .absent := fun key => by rw [here]; rfl
  rw [here] at knows
  obtain ⟨live, lower, dead⟩ := knows
  simp only [goOn, Option.some.injEq, Prod.mk.injEq] at taken
  obtain ⟨rfl, rfl, rfl⟩ := taken
  by_cases first : m.list.head = oldHead
  · subst first
    have exchanged : (m.list.exchangeHead newHead m.list.head).2 = true := congrArg Prod.snd (if_pos rfl)
    rw [if_pos exchanged]
    exact ⟨xs, lh, inv.exchange own held dead lower absent⟩
  · have discarded : (m.list.exchangeHead newHead oldHead).2 = false := congrArg Prod.snd (if_neg first)
    rw [if_neg (Bool.eq_false_iff.mp discarded)]
    exact ⟨xs, lh, inv.discard own held dead first absent⟩

/-! #### `remove` -/

theorem Machine.Inv.at_removeSearch [IsStrictWeakOrder T lt] (here : m.threads t = .removeSearch x)
    (taken : goOn lt maxHeight sizeLimit draw m.list (.removeSearch x) = some (s', thread', events)) :
    (m.after t s' thread' events).Consistent lt := by
  obtain ⟨point, search, recorded⟩ := inv.layers.findInsertionPoint x
  simp only [goOn, search, Option.bind_eq_bind, Option.bind_some] at taken
  cases found : point.foundLayer with
  | none =>
      simp only [found, Option.some.injEq, Prod.mk.injEq] at taken
      obtain ⟨rfl, rfl, rfl⟩ := taken
      exact inv.wander trivial (by rw [here]; rfl) rfl rfl
  | some layer =>
      obtain ⟨q, -, -, -, succ⟩ := recorded.present inv.layers found
      simp only [found, succ, Option.bind_some, Option.some.injEq, Prod.mk.injEq] at taken
      obtain ⟨rfl, rfl, rfl⟩ := taken
      exact inv.wander (recorded.candidate inv.layers found succ) (by rw [here]; rfl) rfl rfl

theorem Machine.Inv.at_removeCheck (here : m.threads t = .removeCheck x point layer candidate)
    (taken : goOn lt maxHeight sizeLimit draw m.list (.removeCheck x point layer candidate) =
      some (s', thread', events)) : (m.after t s' thread' events).Consistent lt := by
  have knows := inv.threads t
  rw [here] at knows
  have high := Candidate.high knows
  simp only [goOn, Option.some.injEq, Prod.mk.injEq] at taken
  obtain ⟨rfl, rfl, rfl⟩ := taken
  split
  · rename_i ok
    simp only [okToDelete, Bool.and_eq_true, beq_iff_eq] at ok
    exact inv.wander ⟨knows, ok.1.1, by omega⟩ (by rw [here]; rfl) rfl rfl
  · exact inv.wander trivial (by rw [here]; rfl) rfl rfl

theorem Machine.Inv.at_removeGuard (here : m.threads t = .removeGuard x point layer candidate)
    (taken : goOn lt maxHeight sizeLimit draw m.list (.removeGuard x point layer candidate) =
      some (s', thread', events)) : (m.after t s' thread' events).Consistent lt := by
  simp only [goOn] at taken
  obtain ⟨s₁, guard, taken⟩ := Option.bind_eq_some_iff.mp taken
  obtain ⟨rfl, rfl, rfl⟩ : s₁ = s' ∧ _ = thread' ∧ _ = events := by
    simpa only [Option.some.injEq, Prod.mk.injEq] using taken
  have knows := inv.threads t
  rw [here] at knows
  exact ⟨xs, lh, inv.acquire guard knows.1.live knows (by rw [here]; rfl) (fun _ _ mine => by cases mine)
    (by rw [here]; exact List.Subset.refl _)⟩

theorem Machine.Inv.at_removeMark (here : m.threads t = .removeMark x point layer candidate)
    (taken : goOn lt maxHeight sizeLimit draw m.list (.removeMark x point layer candidate) =
      some (s', thread', events)) : (m.after t s' thread' events).Consistent lt := by
  have knows := inv.threads t
  have held : (m.threads t).held = [candidate] := by rw [here]; rfl
  rw [here] at knows
  obtain ⟨found, full, height⟩ := knows
  simp only [goOn] at taken
  split at taken
  · -- Somebody else has marked it.
    obtain ⟨rfl, rfl, rfl⟩ : _ = s' ∧ _ = thread' ∧ _ = events := by
      simpa only [Option.some.injEq, Prod.mk.injEq] using taken
    have released : (m.after t (m.list.releaseGuards (m.threads t).held) .idle []).Inv lt xs lh :=
      inv.release ⟨rfl, rfl, rfl, fun _ => .of_memory rfl⟩ (fun _ => rfl) trivial (by rw [here]; rfl)
        (fun _ _ mine => by cases mine) rfl
    rw [held] at released
    exact ⟨xs, lh, released⟩
  · rename_i unmarked
    obtain ⟨rfl, rfl, rfl⟩ : _ = s' ∧ _ = thread' ∧ _ = events := by
      simpa only [Option.some.injEq, Prod.mk.injEq] using taken
    have unmarked := Bool.eq_false_iff.mpr unmarked
    have listed : candidate ∈ xs := by
      rcases found.live with marked | rfl | listed
      · rw [unmarked] at marked
        cases marked
      · rw [inv.head.2] at full
        cases full
      · exact listed
    have whole := ((inv.settled candidate (inv.unowned listed unmarked full)).whole listed).1
    rw [setMarkedForRemoval, releaseGuard, modify_modify]
    have kept : ∀ p, Keeps m.list xs lh
        (m.list.modify candidate fun n => { n with marked := true, locked := false }) xs lh p := fun p =>
      .modify fun _ => ⟨rfl, rfl, id, fun _ => rfl⟩
    have key := (kept candidate).data
    refine ⟨xs, lh, inv.mark held (by rw [here]; rfl) listed unmarked full ⟨⟨⟨listed, ?_, ?_, ?_⟩, ?_⟩, ?_,
      fun l low => absurd low (Nat.not_lt_zero l), Nat.zero_le _, (fun p contra => by cases contra),
      fun p contra => by cases contra⟩ rfl rfl fun _ => rfl⟩
    · rw [modify_self]
    · rw [(kept candidate).height, whole]
    · rw [key]
      exact found.same
    · rw [(kept candidate).height]
    · intro l less
      obtain ⟨seen, succ⟩ := found.seen l (by omega)
      refine ⟨?_, succ⟩
      rw [Change.key, key]
      exact seen.stable fun p _ _ => kept p

theorem Machine.Inv.at_removeAgain [IsStrictWeakOrder T lt] {node : Nat} (here : m.threads t = .removeAgain x node)
    (taken : goOn lt maxHeight sizeLimit draw m.list (.removeAgain x node) =
      some (s', thread', events)) : (m.after t s' thread' events).Consistent lt := by
  obtain ⟨point, search, recorded⟩ := inv.layers.findInsertionPoint x
  have knows := inv.threads t
  rw [here] at knows
  simp only [goOn, search, Option.bind_eq_bind, Option.bind_some, Option.some.injEq, Prod.mk.injEq] at taken
  obtain ⟨rfl, rfl, rfl⟩ := taken
  exact ⟨xs, lh, inv.move (recorded.guard_remove inv.layers knows) (by rw [here]; rfl)
    (fun _ _ _ => by rw [here]; rfl) (List.nil_subset _)⟩

theorem Machine.Inv.at_removeUnlink [IsStrictWeakOrder T lt] {k : Nat}
    (here : m.threads t = .removeUnlink point nodeHeight guards n (k + 1))
    (taken : goOn lt maxHeight sizeLimit draw m.list (.removeUnlink point nodeHeight guards n (k + 1)) =
      some (s', thread', events)) : (m.after t s' thread' events).Consistent lt := by
  simp only [goOn] at taken
  obtain ⟨s₁, unlinks, taken⟩ := Option.bind_eq_some_iff.mp taken
  obtain ⟨a, found, unlinks⟩ := Option.bind_eq_some_iff.mp unlinks
  obtain ⟨next, link, set⟩ := Option.bind_eq_some_iff.mp unlinks
  obtain rfl : m.list.links k n = next := by
    unfold skip at link
    split at link
    · exact Option.some.inj link
    · cases link
  obtain ⟨-, rfl⟩ := setSkip_some set
  have unlinked := inv.remove_unlink here found
  split at taken <;> rename_i more <;>
    obtain ⟨rfl, rfl, rfl⟩ : _ = s' ∧ _ = thread' ∧ _ = events := by
      simpa only [Option.some.injEq, Prod.mk.injEq] using taken
  · rwa [if_pos more, if_pos more] at unlinked
  · rwa [if_neg more, if_neg more] at unlinked

/-- **Going on keeps the invariant.** -/
theorem Machine.Inv.goOn [IsStrictWeakOrder T lt] (exclusive : m.Exclusive t)
    (taken : goOn lt maxHeight sizeLimit draw m.list (m.threads t) = some (s', thread', events)) :
    (m.after t s' thread' events).Consistent lt := by
  cases here : m.threads t with
  | idle =>
      rw [here] at taken
      cases taken
  | addSearch x => exact inv.at_addSearch here (here ▸ taken)
  | addFound x node => exact inv.at_addFound here (here ▸ taken)
  | addWait node => exact inv.at_addWait here (here ▸ taken)
  | guard => exact inv.at_guard here (here ▸ taken)
  | validate => exact inv.at_validate here (here ▸ taken)
  | addPop => exact inv.at_addPop exclusive here (here ▸ taken)
  | addPublish => exact inv.at_addPublish here (here ▸ taken)
  | growLoad => exact inv.at_growLoad here (here ▸ taken)
  | growPop => exact inv.at_growPop exclusive here (here ▸ taken)
  | growGuard => exact inv.at_growGuard here (here ▸ taken)
  | growExchange => exact inv.at_growExchange here (here ▸ taken)
  | removeSearch => exact inv.at_removeSearch here (here ▸ taken)
  | removeCheck => exact inv.at_removeCheck here (here ▸ taken)
  | removeGuard => exact inv.at_removeGuard here (here ▸ taken)
  | removeMark => exact inv.at_removeMark here (here ▸ taken)
  | removeAgain => exact inv.at_removeAgain here (here ▸ taken)
  | addPrepare point nodeHeight guards n k =>
      simp only [here, ConcurrentSkipList.goOn] at taken
      obtain ⟨s₁, set, taken⟩ := Option.bind_eq_some_iff.mp taken
      obtain ⟨-, rfl⟩ := setSkip_some set
      obtain ⟨rfl, rfl, rfl⟩ : _ = s' ∧ _ = thread' ∧ _ = events := by
        simpa only [Option.some.injEq, Prod.mk.injEq] using taken
      exact ⟨xs, lh, inv.add_prepare here⟩
  | removeUnlink point nodeHeight guards n k =>
      rw [here] at taken
      cases k with
      | zero => cases taken
      | succ k => exact inv.at_removeUnlink here taken
  | growPush node | removePush node =>
      simp only [here, ConcurrentSkipList.goOn] at taken
      obtain ⟨s₁, pushes, taken⟩ := Option.bind_eq_some_iff.mp taken
      obtain ⟨rfl, rfl, rfl⟩ : s₁ = s' ∧ _ = thread' ∧ _ = events := by
        simpa only [Option.some.injEq, Prod.mk.injEq] using taken
      have knows := inv.threads t
      rw [here] at knows
      exact inv.give_back (by rw [here]; rfl) knows.2 (fun _ => by rw [here]; rfl) pushes
  | addStore | addFinish | addSize | removeSize | retry | addCheck =>
      simp only [here, ConcurrentSkipList.goOn, Option.some.injEq, Prod.mk.injEq] at taken
      obtain ⟨rfl, rfl, rfl⟩ := taken
      first
      | exact ⟨xs, lh, inv.add_store here⟩
      | exact ⟨xs, lh, inv.add_finish here⟩
      | exact inv.at_addSize here
      | exact inv.at_removeSize here
      | exact ⟨xs, lh, inv.restart here⟩
      | split <;> exact inv.wander trivial (by rw [here]; rfl) rfl rfl

/-- **Every exclusive step keeps the invariant.** -/
theorem Machine.Inv.step [IsStrictWeakOrder T lt] {choice : Choice T} {m' : Machine T}
    (exclusive : m.Exclusive t) (stepped : m.step lt maxHeight sizeLimit t choice = some m') :
    m'.Consistent lt := by
  obtain ⟨⟨s', thread', events⟩, taken, rest⟩ := Option.bind_eq_some_iff.mp stepped
  obtain rfl := Option.some.inj rest
  cases choice with
  | go draw => exact inv.goOn exclusive taken
  | add x | remove x =>
      simp only [threadStep] at taken
      split at taken
      · rename_i idle
        obtain ⟨rfl, rfl, rfl⟩ : _ = s' ∧ _ = thread' ∧ _ = events := by
          simpa only [Option.some.injEq, Prod.mk.injEq] using taken
        exact inv.wander trivial (by rw [idle]; rfl) rfl rfl
      · cases taken

end Phases

/-! ### Runs -/

/-- What the list promises in one state. The bottom layer is strictly increasing and has no
node that is in the recycler; an insertion that was not marked since is found; between two
insertions of a node it is removed at most once. -/
structure Machine.Sound (lt : T → T → Prop) [DecidableRel lt] (m : Machine T) : Prop where
  list : ∃ xs, Chain (m.list.links 0) (some m.list.head) (m.list.head :: xs) ∧
    Ascending lt m.list.keyOf xs ∧ ∀ p ∈ xs, ∀ h, p ∉ m.list.nodeQueues h
  found : ∀ later earlier p x, m.log = later ++ .linked p x :: earlier → .marked p ∉ later →
    findUnmarked lt m.list x = some (some p)
  once : ∀ later earlier p x, m.log = later ++ .linked p x :: earlier → (∀ y, .linked p y ∉ later) →
    later.countP (Event.removes p) ≤ 1

/-- The only own node that the log has as linked is one that is just linked. -/
theorem Local.own_linked {thread : Local T} {p : Nat} {key : T} (own : thread.own = some p)
    (linked : thread.status key = .linked x) : (∃ guards, thread = .addFinish guards p) ∧ key = x := by
  cases thread with
  | addFinish guards node =>
      cases own
      exact ⟨⟨guards, rfl⟩, Status.linked.inj linked⟩
  | _ => cases linked

variable [DecidableRel lt] [IsStrictWeakOrder T lt]

theorem Machine.Inv.sound (inv : m.Inv lt xs lh) : m.Sound lt := by
  refine ⟨⟨xs, inv.layers.bottom, inv.layers.ascending, ?_⟩,
    ?_, ?_⟩
  · intro p listed h queued
    exact (inv.stock.queued h p queued).2.2 (.inl (List.mem_cons_of_mem _ listed))
  · intro later earlier p x log unmarked
    have linked : status m.log p = .linked x := by
      rw [log]
      exact status_of_unmarked (log ▸ inv.ordered) unmarked
    obtain ⟨listed, unmarked, rfl⟩ : p ∈ xs ∧ (m.list.memory p).marked = false ∧ m.list.keyOf p = x := by
      by_cases owned : ∃ t, (m.threads t).own = some p
      · obtain ⟨t, own⟩ := owned
        obtain ⟨⟨guards, here⟩, key⟩ := Local.own_linked own ((inv.owned t p own).symm.trans linked)
        have knows := inv.threads t
        rw [here] at knows
        obtain ⟨height, positive, growing⟩ := knows
        exact ⟨growing.list.mpr positive, growing.marked, key⟩
      · obtain ⟨whole, absent⟩ := inv.settled p fun t own => owned ⟨t, own⟩
        by_cases listed : p ∈ xs
        · obtain ⟨-, unmarked, logged⟩ := whole listed
          exact ⟨listed, unmarked, Status.linked.inj (logged.symm.trans linked)⟩
        · exact nomatch (absent listed).symm.trans linked
    exact inv.layers.find_present listed ⟨irrefl _, irrefl _⟩ unmarked
  · intro later earlier p x log last
    exact removed_once (log ▸ inv.ordered) last

variable [Inhabited T]

omit [DecidableRel lt] [IsStrictWeakOrder T lt] in
/-- A new list, before any thread runs. -/
theorem new_consistent {initialHeight : Nat} {s : ConcurrentSkipList T} (positive : 0 < initialHeight)
    (made : new initialHeight = some s) : (Machine.start s).Consistent lt := by
  obtain ⟨_, pops, _⟩ := Option.bind_eq_some_iff.mp made
  obtain ⟨s₁, made', quiet⟩ := new_spec lt positive (Nat.le_refl _) (pop_small pops)
  obtain rfl := Option.some.inj (made.symm.trans made')
  have flags := (new_flags made).2
  refine ⟨[], _, quiet.layers, flags s.head, fun p _ => ⟨(flags p).1, quiet.unlocked p⟩, ?_, fun _ => trivial,
    (fun _ _ contra => nomatch contra), (fun _ _ _ contra => nomatch contra),
    (fun _ _ _ contra => nomatch contra), trivial, (fun _ _ contra => nomatch contra),
    fun p _ => ⟨(fun contra => nomatch contra), fun _ => rfl⟩⟩
  refine quiet.stock.congr rfl rfl (fun _ => rfl) fun p => or_iff_left ?_
  rintro ⟨t, contra⟩
  exact nomatch contra

/-- **Interleaved operations keep the list sound while pops are exclusive.** -/
theorem sound_of_exclusive_pops {maxHeight initialHeight : Nat} {sizeLimit : Nat → Nat}
    {s : ConcurrentSkipList T} (positive : 0 < initialHeight) (made : new initialHeight = some s)
    (run : Reachable (Machine.ExclusiveSteps lt maxHeight sizeLimit) (Machine.start s) m) : m.Sound lt := by
  obtain ⟨xs, lh, inv⟩ : m.Consistent lt := by
    apply run.invariant (new_consistent positive made)
    intro m i m' consistent taken
    obtain ⟨xs, lh, inv⟩ := consistent
    exact inv.step taken.1 taken.2
  exact inv.sound

/-- Thread 1 stands in its `add` of 5, between the nodes of 3 and 7, while thread 0 uses the node
of 9, which it removed before, for 6. -/
theorem sound_of_exclusive_pops_reused_node :
    ∃ (s : ConcurrentSkipList Nat) (m m' : Machine Nat) (c : Nat), 0 < 2 ∧ new 2 = some s ∧
      Reachable (Machine.ExclusiveSteps (· < ·) 24 sizeLimitTable) (Machine.start s) m ∧
      Reachable (Machine.ExclusiveSteps (· < ·) 24 sizeLimitTable) m m' ∧
      findUnmarked (· < ·) m.list 9 = some (some c) ∧ findUnmarked (· < ·) m'.list 6 = some (some c) ∧
      (∃ p, (m'.threads 1).Holds p) ∧ m'.Sound (· < ·) := by
  have := natOrder
  obtain ⟨s, made, calm₀⟩ := exists_calm
  obtain ⟨m₁, a, run₁, calm₁, -, keyA₁, -⟩ := calm₀.add (x := 3) rfl
    (by simp) (by simp) (fun _ _ => trivial)
  rw [show insertNode (· < ·) (Machine.start s).list 3 a [] = [a] from rfl] at calm₁
  obtain ⟨m₂, b, run₂, calm₂, outB, keyB₂, keys₂, -⟩ := calm₁.add (x := 7) rfl
    (by simp [keyA₁]) (by simp) (fun _ _ => trivial)
  have keyA₂ : m₂.list.keyOf a = 3 := (keys₂ a List.mem_cons_self).trans keyA₁
  rw [show insertNode (· < ·) m₁.list 7 b [a] = [a, b] by
    simp [insertNode, under, onward, keyA₁]] at calm₂
  obtain ⟨m₃, c, run₃, calm₃, outC, keyC₃, keys₃, -⟩ := calm₂.add (x := 9) rfl
    (by simp [keyA₂, keyB₂]) (by simp) (fun _ _ => trivial)
  rw [show insertNode (· < ·) m₂.list 9 c [a, b] = [a, b, c] by
    simp [insertNode, under, onward, keyA₂, keyB₂]] at calm₃
  -- The first machine: the node `c` has the key 9.
  have found₃ : findUnmarked (· < ·) m₃.list 9 = some (some c) :=
    calm₃.quiet.layers.find_present (by simp) (by rw [keyC₃]) (calm₃.quiet.unmarked c (by simp))
  obtain ⟨m₄, run₄, calm₄, queue₄, keys₄⟩ := calm₃.remove (a := c) rfl (by simp) fun _ => True
  have erased : [a, b, c].erase c = [a, b] := by
    have otherA : a ≠ c := fun same => outC (by simp [same])
    have otherB : b ≠ c := fun same => outC (by simp [same])
    simp [otherA, otherB]
  rw [erased] at calm₄ keys₄
  have keyA₄ : m₄.list.keyOf a = 3 := by
    rw [keys₄ a (by simp), keys₃ a (by simp), keyA₂]
  have keyB₄ : m₄.list.keyOf b = 7 := by
    rw [keys₄ b (by simp), keys₃ b (by simp), keyB₂]
  obtain ⟨m₅, point, run₅, list₅, calm₅, pred, succ⟩ := calm₄.search (x := 5) rfl
    (by rw [keyA₄]; decide) (by rw [keyB₄]; decide) fun _ => True
  -- From here on thread 1 has pointers to `a` and `b`, and the recycler hands out others.
  have holds : ∀ u ≠ 0, ∀ p, p ∉ [a, b] →
      ¬ (Function.update (fun _ => Local.idle) 1 (.guard (.add 5) point 1 0 none []) u).Holds p := by
    intro u other p outside
    by_cases here : u = 1
    · subst here
      rw [Function.update_self]
      rintro (⟨l, low, named⟩ | held)
      · obtain rfl : l = 0 := by omega
        rw [pred, succ] at named
        simp only [Option.some.injEq] at named
        exact outside (by simp [named.imp Eq.symm Eq.symm])
      · cases held
    · rw [Function.update_of_ne here]
      exact fun held => held
  have queue₅ : m₅.list.nodeQueues 1 = m₃.list.nodeQueues 1 ++ c :: [] := by rw [list₅, queue₄]
  obtain ⟨m₆, rest, run₆, calm₆, keys₆, queue₆⟩ := calm₅.turn (x := 9) rfl
    (by rw [list₅]; simp [keyA₄, keyB₄]) (by simp) (fun _ outside => outside) queue₅
  have keyA₆ : m₆.list.keyOf a = 3 := by rw [keys₆ a (by simp), list₅, keyA₄]
  have keyB₆ : m₆.list.keyOf b = 7 := by rw [keys₆ b (by simp), list₅, keyB₄]
  obtain ⟨m₇, d, run₇, calm₇, -, keyD₇, -, queue₇⟩ := calm₆.add (x := 6) rfl
    (by simp [keyA₆, keyB₆]) (by simp) (fun _ outside => outside)
  obtain ⟨rfl, -⟩ := queue₇ c rest queue₆
  have listed : d ∈ insertNode (· < ·) m₆.list 6 d [a, b] :=
    (mem_insertNode calm₆.quiet.layers.ascending).mpr (.inl rfl)
  have found₇ : findUnmarked (· < ·) m₇.list 6 = some (some d) :=
    calm₇.quiet.layers.find_present listed (by rw [keyD₇])
      (calm₇.quiet.unmarked d (List.mem_cons_of_mem _ listed))
  have before := ((Machine.exclusive_of_idle (fun _ => rfl) run₁).trans
    (Machine.exclusive_of_idle (congrFun calm₁.threads) run₂)).trans
    (Machine.exclusive_of_idle (congrFun calm₂.threads) run₃)
  have after := (((Machine.exclusive_of_idle (congrFun calm₃.threads) run₄).trans
    (Machine.exclusive_of_idle (congrFun calm₄.threads) run₅)).trans
    (Machine.exclusive_of_free (by rw [calm₅.threads]; exact holds) run₆)).trans
    (Machine.exclusive_of_free (by rw [calm₆.threads]; exact holds) run₇)
  refine ⟨s, m₃, m₇, d, by decide, made, before, after, found₃, found₇, ⟨a, ?_⟩,
    sound_of_exclusive_pops (by decide) made (before.trans after)⟩
  rw [calm₇.threads, Function.update_self]
  exact .inl ⟨0, by decide, .inl pred⟩

end Hcl.ConcurrentSkipList
