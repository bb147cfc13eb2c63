import Hcl.SkipList.Interleaving

/-!
Where the nodes of the skip list are while threads add and remove.

A node that was created is the head, or linked, or in the hands of one thread, or in a queue of
the recycler, or destroyed; only `growHeight` destroys one, when another thread was first. The
soundness of the list says that it is in no two of these places; `Machine.Accounted` adds that
it is in one.

A destroyed node reads as one of height 0, which no constructed node has.
-/

namespace Hcl.ConcurrentSkipList

open Hcl.Lib

variable {T : Type} {lt : T → T → Prop} {m : Machine T} {t : Nat} {xs : List Nat} {lh : Nat → Nat}
  {s s' : ConcurrentSkipList T} {thread' : Local T} {events : List (Event T)}

structure Machine.Accounted (m : Machine T) : Prop where
  queues : ∀ h, ∀ p ∈ m.list.nodeQueues h, 0 < h ∧ h < queueCount
  tall : ∀ t p, (m.threads t).own = some p → 0 < (m.list.memory p).height
  placed : ∀ p < m.list.nextAddress, p = m.list.head ∨ status m.log p ≠ .absent ∨
    (∃ t, (m.threads t).own = some p) ∨ (∃ h, p ∈ m.list.nodeQueues h) ∨ (m.list.memory p).height = 0

/-! ### One step -/

/-- What a step of thread `t` does with the nodes it takes, leaves or gives away. -/
structure HandsOn (m : Machine T) (t : Nat) (s' : ConcurrentSkipList T) (thread' : Local T)
    (events : List (Event T)) : Prop where
  queues : ∀ h, ∀ p ∈ s'.nodeQueues h, 0 < h ∧ h < queueCount
  height : ∀ p < m.list.nextAddress, (m.threads t).own ≠ some p →
    (s'.memory p).height = (m.list.memory p).height
  tall : ∀ p, thread'.own = some p → 0 < (s'.memory p).height
  head : m.list.head = s'.head ∨ thread'.own = some m.list.head
  logged : ∀ p, status m.log p ≠ .absent → status (events ++ m.log) p ≠ .absent ∨ thread'.own = some p
  owned : ∀ p, (m.threads t).own = some p → thread'.own = some p ∨ status (events ++ m.log) p ≠ .absent ∨
    p = s'.head ∨ (∃ h, p ∈ s'.nodeQueues h) ∨ (s'.memory p).height = 0
  queued : ∀ h, ∀ p ∈ m.list.nodeQueues h, p ∈ s'.nodeQueues h ∨ thread'.own = some p
  made : ∀ p, m.list.nextAddress ≤ p → p < s'.nextAddress →
    (∃ h, p ∈ s'.nodeQueues h) ∨ thread'.own = some p

/-- **A step keeps the account** if it says what it does with its nodes. -/
theorem Machine.Accounted.next (accounted : m.Accounted) (inv : m.Inv lt xs lh)
    (hands : HandsOn m t s' thread' events) : (m.after t s' thread' events).Accounted := by
  have self : (m.after t s' thread' events).threads t = thread' := Function.update_self ..
  have beside : ∀ u ≠ t, (m.after t s' thread' events).threads u = m.threads u := fun u other =>
    Function.update_of_ne other ..
  have mine : ∀ p, thread'.own = some p → ∃ u, ((m.after t s' thread' events).threads u).own = some p :=
    fun p own => ⟨t, by rw [self]; exact own⟩
  constructor
  · exact hands.queues
  · intro u p own
    by_cases here : u = t
    · rw [here, self] at own
      exact hands.tall p own
    · rw [beside u here] at own
      have other : (m.threads t).own ≠ some p := fun mine => here (inv.owners u t p own mine)
      show 0 < (s'.memory p).height
      rw [hands.height p (inv.own_allocated own) other]
      exact accounted.tall u p own
  · intro p allocated
    by_cases old : p < m.list.nextAddress
    · by_cases here : (m.threads t).own = some p
      · rcases hands.owned p here with own | logged | head | queued | destroyed
        · exact .inr (.inr (.inl (mine p own)))
        · exact .inr (.inl logged)
        · exact .inl head
        · exact .inr (.inr (.inr (.inl queued)))
        · exact .inr (.inr (.inr (.inr destroyed)))
      · rcases accounted.placed p old with rfl | logged | ⟨u, own⟩ | ⟨h, queued⟩ | destroyed
        · exact hands.head.imp_right fun own => .inr (.inl (mine _ own))
        · exact .inr ((hands.logged p logged).imp_right fun own => .inl (mine p own))
        · have other : u ≠ t := fun same => here (same ▸ own)
          exact .inr (.inr (.inl ⟨u, by rw [beside u other]; exact own⟩))
        · rcases hands.queued h p queued with stays | own
          · exact .inr (.inr (.inr (.inl ⟨h, stays⟩)))
          · exact .inr (.inr (.inl (mine p own)))
        · exact .inr (.inr (.inr (.inr ((hands.height p old here).trans destroyed))))
    · rcases hands.made p (Nat.le_of_not_lt old) allocated with queued | own
      · exact .inr (.inr (.inr (.inl queued)))
      · exact .inr (.inr (.inl (mine p own)))

/-! ### The kinds of steps -/

/-- A step that only changes whose the node of thread `t` is. -/
theorem SameStock.hands (same : SameStock m.list s') (accounted : m.Accounted)
    (own : ∀ p, thread'.own = some p → (m.threads t).own = some p ∨ 0 < (m.list.memory p).height)
    (left : ∀ p, (m.threads t).own = some p → thread'.own = some p ∨ status (events ++ m.log) p ≠ .absent)
    (logged : ∀ p, status m.log p ≠ .absent → status (events ++ m.log) p ≠ .absent ∨ thread'.own = some p) :
    HandsOn m t s' thread' events := by
  constructor
  · rw [same.queues]
    exact accounted.queues
  · exact fun p _ _ => same.height p
  · intro p mine
    rw [same.height]
    exact (own p mine).elim (accounted.tall t p) id
  · exact .inl same.head.symm
  · exact logged
  · exact fun p mine => (left p mine).imp_right .inl
  · intro h p queued
    rw [same.queues]
    exact .inl queued
  · intro p new old
    rw [same.next] at old
    exact absurd old (Nat.not_lt_of_le new)

/-- A step after which thread `t` owns what it did. -/
theorem SameStock.keeps (same : SameStock m.list s') (accounted : m.Accounted)
    (own : thread'.own = (m.threads t).own) : HandsOn m t s' thread' [] :=
  same.hands accounted (fun _ mine => .inl (own.symm.trans mine)) (fun _ mine => .inl (own.trans mine))
    fun _ logged => .inl logged

section Recycler

variable [Inhabited T]

/-- What `pop` does to the queues. -/
theorem pop_queues {h n : Nat} {isHead : Bool} (pops : s.pop h isHead = some (s', n)) :
    (∀ k, ∀ p ∈ s.nodeQueues k, p ∈ s'.nodeQueues k ∨ p = n) ∧
      (∀ p, s.nextAddress ≤ p → p < s'.nextAddress → p ∈ s'.nodeQueues h ∨ p = n) ∧
      ∀ k, ∀ p ∈ s'.nodeQueues k, p ∈ s.nodeQueues k ∨ k = h := by
  obtain ⟨old, new, only⟩ := stocked_invariant (s := s) (P := fun s₁ : ConcurrentSkipList T =>
    (∀ k, ∀ p ∈ s.nodeQueues k, p ∈ s₁.nodeQueues k) ∧
      (∀ p, s.nextAddress ≤ p → p < s₁.nextAddress → p ∈ s₁.nodeQueues h) ∧
      ∀ k, ∀ p ∈ s₁.nodeQueues k, p ∈ s.nodeQueues k ∨ k = h) h
    (by
      rintro s₁ ⟨old, new, only⟩
      simp only [createQueued]
      refine ⟨?_, ?_, ?_⟩
      · intro k p queued
        by_cases here : k = h
        · subst here
          rw [Function.update_self]
          exact List.mem_append_left _ (old k p queued)
        · rw [Function.update_of_ne here]
          exact old k p queued
      · intro p from' below
        rw [Function.update_self]
        by_cases last : p = s₁.nextAddress
        · exact List.mem_append_right _ (last ▸ List.mem_cons_self)
        · exact List.mem_append_left _ (new p from' (by omega))
      · intro k p queued
        by_cases here : k = h
        · exact .inr here
        · rw [Function.update_of_ne here] at queued
          exact only k p queued)
    ⟨fun _ _ queued => queued, fun p from' below => absurd below (Nat.not_lt_of_le from'),
      fun _ _ queued => .inl queued⟩
  unfold pop at pops
  split at pops
  · unfold dequeue at pops
    split at pops
    · cases pops
    · rename_i q rest queue
      obtain ⟨rfl, rfl⟩ := Prod.mk.inj (Option.some.inj pops)
      have front : ∀ k p, p ∈ (s.stocked h).nodeQueues k →
          p ∈ Function.update (s.stocked h).nodeQueues h rest k ∨ p = q := by
        intro k p queued
        by_cases here : k = h
        · subst here
          rw [queue] at queued
          rw [Function.update_self]
          exact (List.mem_cons.mp queued).symm
        · rw [Function.update_of_ne here]
          exact .inl queued
      refine ⟨fun k p queued => front k p (old k p queued), fun p from' below => front h p (new p from' below), ?_⟩
      intro k p queued
      by_cases here : k = h
      · exact .inr here
      · change p ∈ Function.update (s.stocked h).nodeQueues h rest k at queued
        rw [Function.update_of_ne here] at queued
        exact only k p queued
  · cases pops

/-- **A node is popped.** -/
theorem Machine.Accounted.pop {h n : Nat} {isHead : Bool} (accounted : m.Accounted) (inv : m.Inv lt xs lh)
    (pops : m.list.pop h isHead = some (s', n)) (positive : 0 < h) (unowned : (m.threads t).own = none)
    (own : thread'.own = some n) : (m.after t s' thread' []).Accounted := by
  have small := pop_small pops
  obtain ⟨s₁, n₁, pops', popped, -, height, -⟩ := pop_spec (inv.stock_beside t) small isHead
  obtain ⟨rfl, rfl⟩ := Prod.mk.inj (Option.some.inj (pops.symm.trans pops'))
  obtain ⟨old, new, only⟩ := pop_queues pops
  refine accounted.next inv ⟨?_, ?_, ?_, .inl popped.head.symm, fun _ logged => .inl logged, ?_, ?_, ?_⟩
  · intro k p queued
    rcases only k p queued with before | rfl
    · exact accounted.queues k p before
    · exact ⟨positive, small⟩
  · intro p allocated _
    exact (popped.part SkipListNode.height (fun _ => rfl) p).resolve_right fun made =>
      Nat.not_le_of_lt allocated made.1
  · intro p mine
    obtain rfl := Option.some.inj (own.symm.trans mine)
    rw [height]
    exact positive
  · intro p mine
    rw [unowned] at mine
    cases mine
  · intro k p queued
    rcases old k p queued with stays | rfl
    · exact .inl stays
    · exact .inr own
  · intro p from' below
    rcases new p from' below with queued | rfl
    · exact .inl ⟨h, queued⟩
    · exact .inr own

omit [Inhabited T] in
/-- **A node is pushed.** -/
theorem Machine.Accounted.push {n : Nat} (accounted : m.Accounted) (inv : m.Inv lt xs lh)
    (own : (m.threads t).own = some n) (pushes : m.list.push (m.list.memory n).height n = some s') :
    (m.after t s' .idle []).Accounted := by
  unfold ConcurrentSkipList.push at pushes
  split at pushes
  · rename_i small
    obtain rfl := Option.some.inj pushes
    have keeps : ∀ k, ∀ p ∈ m.list.nodeQueues k,
        p ∈ (m.list.enqueue (m.list.memory n).height n).nodeQueues k := by
      intro k p queued
      by_cases here : k = (m.list.memory n).height
      · subst here
        simp only [enqueue, Function.update_self]
        exact List.mem_append_left _ queued
      · simpa only [enqueue, Function.update_of_ne here] using queued
    refine accounted.next inv ⟨?_, fun _ _ _ => rfl, ?_, .inl rfl, fun _ logged => .inl logged, ?_, ?_, ?_⟩
    · intro k p queued
      by_cases here : k = (m.list.memory n).height
      · subst here
        exact ⟨accounted.tall t n own, small⟩
      · simp only [enqueue, Function.update_of_ne here] at queued
        exact accounted.queues k p queued
    · intro p mine
      cases mine
    · intro p mine
      obtain rfl := Option.some.inj (own.symm.trans mine)
      refine .inr (.inr (.inr (.inl ⟨(m.list.memory n).height, ?_⟩)))
      simp only [enqueue, Function.update_self]
      exact List.mem_append_right _ List.mem_cons_self
    · exact fun k p queued => .inl (keeps k p queued)
    · exact fun p new old => absurd old (Nat.not_lt_of_le new)
  · cases pushes

/-- **The head is exchanged**, or the new head is destroyed. -/
theorem Machine.Accounted.exchange {oldHead newHead : Nat} (accounted : m.Accounted) (inv : m.Inv lt xs lh)
    (here : m.threads t = .growExchange oldHead newHead) :
    (m.after t (m.list.exchangeHead newHead oldHead).1
      (if (m.list.exchangeHead newHead oldHead).2 then .growPush oldHead else .idle) []).Accounted := by
  have knows := inv.threads t
  have own : (m.threads t).own = some newHead := by rw [here]; rfl
  rw [here] at knows
  obtain ⟨live, -, dead⟩ := knows
  have other : newHead ≠ oldHead := fun same => dead (same ▸ live)
  by_cases first : m.list.head = oldHead
  · subst first
    obtain ⟨s', exchanges, head, next, queues, -, atOld, -, elsewhere⟩ := exchangeHead_eq newHead other
    rw [exchanges]
    refine accounted.next inv ⟨?_, ?_, ?_, .inr rfl, fun _ logged => .inl logged, ?_, ?_, ?_⟩
    · rw [queues]
      exact accounted.queues
    · intro p _ notMine
      by_cases old : p = m.list.head
      · rw [old, atOld]
      · rw [elsewhere p old fun new => notMine (new ▸ own)]
    · intro p mine
      obtain rfl := Option.some.inj mine
      rw [atOld]
      exact inv.layers.positive
    · intro p mine
      obtain rfl := Option.some.inj (own.symm.trans mine)
      exact .inr (.inr (.inl head.symm))
    · intro k p queued
      rw [queues]
      exact .inl queued
    · intro p new old
      rw [next] at old
      exact absurd old (Nat.not_lt_of_le new)
  · obtain ⟨s', exchanges, head, next, queues, atNew, atOld, elsewhere⟩ := exchangeHead_late newHead first other
    rw [exchanges]
    refine accounted.next inv ⟨?_, ?_, ?_, .inl head.symm, fun _ logged => .inl logged, ?_, ?_, ?_⟩
    · rw [queues]
      exact accounted.queues
    · intro p _ notMine
      by_cases old : p = oldHead
      · rw [old, atOld]
      · rw [elsewhere p old fun new => notMine (new ▸ own)]
    · intro p mine
      cases mine
    · intro p mine
      obtain rfl := Option.some.inj (own.symm.trans mine)
      refine .inr (.inr (.inr (.inr ?_)))
      rw [atNew]
      rfl
    · intro k p queued
      rw [queues]
      exact .inl queued
    · intro p new old
      rw [next] at old
      exact absurd old (Nat.not_lt_of_le new)

end Recycler

/-! ### The phases -/

section Phases

variable [Inhabited T] [DecidableRel lt] {maxHeight : Nat} {sizeLimit : Nat → Nat} {draw : Nat → Bool}
  (accounted : m.Accounted) (inv : m.Inv lt xs lh)
include accounted inv

omit [Inhabited T] [DecidableRel lt] in
/-- A step of a thread that keeps what it owns. -/
theorem Machine.Accounted.keep (same : SameStock m.list s') (own : thread'.own = (m.threads t).own) :
    (m.after t s' thread' []).Accounted :=
  accounted.next inv (same.keeps accounted own)

/-- The mark of `remove`: the node is the thread's from then on. -/
theorem Machine.Accounted.at_removeMark {x : T} {point : InsertionPoint} {layer candidate : Nat}
    (here : m.threads t = .removeMark x point layer candidate)
    (taken : goOn lt maxHeight sizeLimit draw m.list (.removeMark x point layer candidate) =
      some (s', thread', events)) : (m.after t s' thread' events).Accounted := by
  have knows := inv.threads t
  rw [here] at knows
  simp only [goOn] at taken
  split at taken
  · obtain ⟨rfl, rfl, rfl⟩ : _ = s' ∧ _ = thread' ∧ _ = events := by
      simpa only [Option.some.injEq, Prod.mk.injEq] using taken
    exact accounted.keep inv (.modify candidate rfl) (by rw [here]; rfl)
  · obtain ⟨rfl, rfl, rfl⟩ : _ = s' ∧ _ = thread' ∧ _ = events := by
      simpa only [Option.some.injEq, Prod.mk.injEq] using taken
    have high := knows.1.high
    have same : SameStock m.list ((m.list.setMarkedForRemoval candidate).releaseGuard candidate) := by
      rw [setMarkedForRemoval, releaseGuard, modify_modify]
      exact .modify candidate rfl
    refine accounted.next inv (same.hands accounted ?_ ?_ ?_)
    · intro p mine
      obtain rfl := Option.some.inj mine
      exact .inr (Nat.zero_lt_of_lt high)
    · intro p mine
      rw [here] at mine
      cases mine
    · intro p logged
      by_cases marks : p = candidate
      · exact .inr (congrArg some marks.symm)
      · exact .inl (by rwa [List.singleton_append, status_of_ne marks])

/-- The last link of a new node: the log has it as linked. -/
theorem Machine.Accounted.at_addPublish {point : InsertionPoint} {nodeHeight n k : Nat} {guards : List Nat}
    (here : m.threads t = .addPublish point nodeHeight guards n k)
    (taken : goOn lt maxHeight sizeLimit draw m.list (.addPublish point nodeHeight guards n k) =
      some (s', thread', events)) : (m.after t s' thread' events).Accounted := by
  simp only [goOn] at taken
  obtain ⟨a, -, taken⟩ := Option.bind_eq_some_iff.mp taken
  obtain ⟨s₁, set, taken⟩ := Option.bind_eq_some_iff.mp taken
  have same := SameStock.setSkip set
  split at taken
  · obtain ⟨rfl, rfl, rfl⟩ : _ = s' ∧ _ = thread' ∧ _ = events := by
      simpa only [Option.some.injEq, Prod.mk.injEq] using taken
    exact accounted.keep inv same (by rw [here]; rfl)
  · obtain ⟨rfl, rfl, rfl⟩ : _ = s' ∧ _ = thread' ∧ _ = events := by
      simpa only [Option.some.injEq, Prod.mk.injEq] using taken
    have own : (m.threads t).own = some n := by rw [here]; rfl
    refine accounted.next inv (same.hands accounted (fun p mine => .inl (own.trans mine))
      (fun p mine => .inl (own.symm.trans mine)) ?_)
    intro p logged
    by_cases links : p = n
    · exact .inr (congrArg some links.symm)
    · exact .inl (by rwa [List.singleton_append, status_of_ne links])

/-- The last link of a removed node: the thread still has it. -/
theorem Machine.Accounted.at_removeUnlink {point : InsertionPoint} {nodeHeight n k : Nat} {guards : List Nat}
    (here : m.threads t = .removeUnlink point nodeHeight guards n (k + 1))
    (taken : goOn lt maxHeight sizeLimit draw m.list (.removeUnlink point nodeHeight guards n (k + 1)) =
      some (s', thread', events)) : (m.after t s' thread' events).Accounted := by
  simp only [goOn] at taken
  obtain ⟨s₁, unlinks, taken⟩ := Option.bind_eq_some_iff.mp taken
  obtain ⟨a, -, unlinks⟩ := Option.bind_eq_some_iff.mp unlinks
  obtain ⟨next, -, set⟩ := Option.bind_eq_some_iff.mp unlinks
  have same := SameStock.setSkip set
  split at taken
  · obtain ⟨rfl, rfl, rfl⟩ : _ = s' ∧ _ = thread' ∧ _ = events := by
      simpa only [Option.some.injEq, Prod.mk.injEq] using taken
    exact accounted.keep inv same (by rw [here]; rfl)
  · obtain ⟨rfl, rfl, rfl⟩ : _ = s' ∧ _ = thread' ∧ _ = events := by
      simpa only [Option.some.injEq, Prod.mk.injEq] using taken
    have own : (m.threads t).own = some n := by rw [here]; rfl
    refine accounted.next inv (same.hands accounted (fun p mine => .inl (own.trans mine))
      (fun p mine => .inl (own.symm.trans mine)) ?_)
    intro p logged
    by_cases removes : p = n
    · exact .inr (congrArg some removes.symm)
    · exact .inl (by rwa [List.singleton_append, status_of_ne removes])

/-- **Going on keeps the account.** -/
theorem Machine.Accounted.goOn
    (taken : goOn lt maxHeight sizeLimit draw m.list (m.threads t) = some (s', thread', events)) :
    (m.after t s' thread' events).Accounted := by
  have knows := inv.threads t
  cases here : m.threads t with
  | idle =>
      rw [here] at taken
      cases taken
  | addSearch x | removeSearch x =>
      simp only [here, ConcurrentSkipList.goOn] at taken
      obtain ⟨point, -, taken⟩ := Option.bind_eq_some_iff.mp taken
      split at taken
      all_goals
        first
        | obtain ⟨node, -, taken⟩ := Option.bind_eq_some_iff.mp taken
          obtain ⟨rfl, rfl, rfl⟩ : _ = s' ∧ _ = thread' ∧ _ = events := by
            simpa only [Option.some.injEq, Prod.mk.injEq] using taken
          exact accounted.keep inv (.refl _) (by rw [here]; rfl)
        | obtain ⟨rfl, rfl, rfl⟩ : _ = s' ∧ _ = thread' ∧ _ = events := by
            simpa only [Option.some.injEq, Prod.mk.injEq] using taken
          exact accounted.keep inv (.refl _) (by rw [here]; rfl)
  | removeAgain x node =>
      simp only [here, ConcurrentSkipList.goOn] at taken
      obtain ⟨point, -, taken⟩ := Option.bind_eq_some_iff.mp taken
      obtain ⟨rfl, rfl, rfl⟩ : _ = s' ∧ _ = thread' ∧ _ = events := by
        simpa only [Option.some.injEq, Prod.mk.injEq] using taken
      exact accounted.keep inv (.refl _) (by rw [here]; rfl)
  | addFound | addWait | addCheck | growLoad | removeCheck =>
      simp only [here, ConcurrentSkipList.goOn, Option.some.injEq, Prod.mk.injEq] at taken
      obtain ⟨rfl, rfl, rfl⟩ := taken
      exact accounted.keep inv (.refl _) (by rw [here]; split <;> rfl)
  | guard change point nodeHeight layer prevPred guards =>
      simp only [here, ConcurrentSkipList.goOn] at taken
      split at taken
      · obtain ⟨pred, -, taken⟩ := Option.bind_eq_some_iff.mp taken
        obtain ⟨⟨s₁, guards'⟩, locks, taken⟩ := Option.bind_eq_some_iff.mp taken
        obtain ⟨rfl, rfl, rfl⟩ : s₁ = s' ∧ _ = thread' ∧ _ = events := by
          simpa only [Option.some.injEq, Prod.mk.injEq] using taken
        have own : (Local.validate change point nodeHeight layer pred guards').own = (m.threads t).own := by
          rw [here]
          cases change <;> rfl
        unfold guardLayer at locks
        split at locks
        · obtain ⟨rfl, rfl⟩ := Prod.mk.inj (Option.some.inj locks)
          exact accounted.keep inv (.refl _) own
        · obtain ⟨s₂, guard, same⟩ := Option.map_eq_some_iff.mp locks
          obtain ⟨rfl, rfl⟩ := Prod.mk.inj same
          exact accounted.keep inv (.acquire guard) own
      · obtain ⟨rfl, rfl, rfl⟩ : _ = s' ∧ _ = thread' ∧ _ = events := by
          simpa only [Option.some.injEq, Prod.mk.injEq] using taken
        exact accounted.keep inv (.refl _) (by rw [here]; cases change <;> rfl)
  | validate change point nodeHeight layer pred guards =>
      simp only [here, ConcurrentSkipList.goOn] at taken
      obtain ⟨valid, -, taken⟩ := Option.bind_eq_some_iff.mp taken
      obtain ⟨rfl, rfl, rfl⟩ : _ = s' ∧ _ = thread' ∧ _ = events := by
        simpa only [Option.some.injEq, Prod.mk.injEq] using taken
      exact accounted.keep inv (.refl _) (by rw [here]; cases valid <;> cases change <;> rfl)
  | retry change guards =>
      simp only [here, ConcurrentSkipList.goOn, Option.some.injEq, Prod.mk.injEq] at taken
      obtain ⟨rfl, rfl, rfl⟩ := taken
      exact accounted.keep inv ((SameStock.refl _).release guards) (by rw [here]; cases change <;> rfl)
  | addSize guards =>
      simp only [here, ConcurrentSkipList.goOn, Option.some.injEq, Prod.mk.injEq] at taken
      obtain ⟨rfl, rfl, rfl⟩ := taken
      have same : SameStock m.list m.list.sizeUp := ⟨rfl, rfl, rfl, fun _ => rfl⟩
      exact accounted.keep inv (same.release guards) (by rw [here]; rfl)
  | removeSize guards =>
      simp only [here, ConcurrentSkipList.goOn, Option.some.injEq, Prod.mk.injEq] at taken
      obtain ⟨rfl, rfl, rfl⟩ := taken
      have same : SameStock m.list m.list.sizeDown := ⟨rfl, rfl, rfl, fun _ => rfl⟩
      exact accounted.keep inv (same.release guards) (by rw [here]; rfl)
  | addStore =>
      simp only [here, ConcurrentSkipList.goOn, Option.some.injEq, Prod.mk.injEq] at taken
      obtain ⟨rfl, rfl, rfl⟩ := taken
      exact accounted.keep inv (.modify _ rfl) (by rw [here]; rfl)
  | addPrepare =>
      simp only [here, ConcurrentSkipList.goOn] at taken
      obtain ⟨s₁, set, taken⟩ := Option.bind_eq_some_iff.mp taken
      obtain ⟨rfl, rfl, rfl⟩ : s₁ = s' ∧ _ = thread' ∧ _ = events := by
        simpa only [Option.some.injEq, Prod.mk.injEq] using taken
      exact accounted.keep inv (.setSkip set) (by rw [here]; rfl)
  | growGuard | removeGuard =>
      simp only [here, ConcurrentSkipList.goOn] at taken
      obtain ⟨s₁, guard, taken⟩ := Option.bind_eq_some_iff.mp taken
      obtain ⟨rfl, rfl, rfl⟩ : s₁ = s' ∧ _ = thread' ∧ _ = events := by
        simpa only [Option.some.injEq, Prod.mk.injEq] using taken
      exact accounted.keep inv (.acquire guard) (by rw [here]; rfl)
  | addFinish guards n =>
      simp only [here, ConcurrentSkipList.goOn, Option.some.injEq, Prod.mk.injEq] at taken
      obtain ⟨rfl, rfl, rfl⟩ := taken
      -- The node is left in the list.
      have same : SameStock m.list (m.list.setFullyLinked n) := .modify n rfl
      refine accounted.next inv (same.hands accounted (fun p mine => ?_) ?_ fun _ logged => .inl logged)
      · cases mine
      · intro p own
        have linked := inv.owned t p own
        rw [here] at linked
        right
        intro absent
        cases linked.symm.trans absent
  | addPublish => exact accounted.at_addPublish inv here (here ▸ taken)
  | removeMark => exact accounted.at_removeMark inv here (here ▸ taken)
  | removeUnlink point nodeHeight guards n k =>
      rw [here] at taken
      cases k with
      | zero => cases taken
      | succ k => exact accounted.at_removeUnlink inv here taken
  | addPop x point nodeHeight guards =>
      rw [here] at knows
      simp only [here, ConcurrentSkipList.goOn] at taken
      obtain ⟨⟨s₁, n⟩, pops, taken⟩ := Option.bind_eq_some_iff.mp taken
      obtain ⟨rfl, rfl, rfl⟩ : s₁ = s' ∧ _ = thread' ∧ _ = events := by
        simpa only [Option.some.injEq, Prod.mk.injEq] using taken
      exact accounted.pop inv pops knows.1.1 (by rw [here]; rfl) rfl
  | growPop height oldHead =>
      rw [here] at knows
      simp only [here, ConcurrentSkipList.goOn] at taken
      obtain ⟨⟨s₁, n⟩, pops, taken⟩ := Option.bind_eq_some_iff.mp taken
      obtain ⟨rfl, rfl, rfl⟩ : s₁ = s' ∧ _ = thread' ∧ _ = events := by
        simpa only [Option.some.injEq, Prod.mk.injEq] using taken
      exact accounted.pop inv pops (Nat.zero_lt_of_lt knows.2) (by rw [here]; rfl) rfl
  | growExchange =>
      simp only [here, ConcurrentSkipList.goOn, Option.some.injEq, Prod.mk.injEq] at taken
      obtain ⟨rfl, rfl, rfl⟩ := taken
      exact accounted.exchange inv here
  | growPush | removePush =>
      simp only [here, ConcurrentSkipList.goOn] at taken
      obtain ⟨s₁, pushes, taken⟩ := Option.bind_eq_some_iff.mp taken
      obtain ⟨rfl, rfl, rfl⟩ : s₁ = s' ∧ _ = thread' ∧ _ = events := by
        simpa only [Option.some.injEq, Prod.mk.injEq] using taken
      exact accounted.push inv (by rw [here]; rfl) pushes

/-- **Every step keeps the account.** -/
theorem Machine.Accounted.step {choice : Choice T} {m' : Machine T}
    (stepped : m.step lt maxHeight sizeLimit t choice = some m') : m'.Accounted := by
  obtain ⟨⟨s', thread', events⟩, taken, rest⟩ := Option.bind_eq_some_iff.mp stepped
  obtain rfl := Option.some.inj rest
  cases choice with
  | go draw => exact accounted.goOn inv taken
  | add x | remove x =>
      simp only [threadStep] at taken
      split at taken
      · rename_i idle
        obtain ⟨rfl, rfl, rfl⟩ : _ = s' ∧ _ = thread' ∧ _ = events := by
          simpa only [Option.some.injEq, Prod.mk.injEq] using taken
        exact accounted.keep inv (.refl _) (by rw [idle]; rfl)
      · cases taken

end Phases

/-- A new list, before any thread runs. -/
theorem new_accounted [Inhabited T] {initialHeight : Nat} (positive : 0 < initialHeight)
    (made : new initialHeight = some s) : (Machine.start s).Accounted := by
  obtain ⟨⟨s₁, head⟩, pops, rest⟩ := Option.bind_eq_some_iff.mp made
  obtain rfl := Option.some.inj rest
  obtain ⟨-, new, only⟩ := pop_queues pops
  constructor
  · intro h p queued
    rcases only h p queued with before | rfl
    · cases before
    · exact ⟨positive, pop_small pops⟩
  · intro t p own
    cases own
  · intro p allocated
    rcases new p (Nat.zero_le p) allocated with queued | here
    · exact .inr (.inr (.inr (.inl ⟨_, queued⟩)))
    · exact .inl here

end Hcl.ConcurrentSkipList
