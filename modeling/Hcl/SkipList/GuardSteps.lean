import Hcl.SkipList.GuardOrder

/-!
Every step of a thread keeps the order of the guards.

Most steps write nothing the order depends on (`Unmoved`). The others write to a node of their
own thread: the new node of `addOrGetData`, or the new head of `growHeight`.
-/

namespace Hcl.ConcurrentSkipList

open Hcl.Lib

variable {T : Type} {lt : T → T → Prop} {maxHeight : Nat} {m : Machine T} {t : Nat} {xs : List Nat}
  {lh : Nat → Nat} {s s' : ConcurrentSkipList T} {thread' : Local T} {events : List (Event T)}

/-! ### Steps that touch no data and no flag -/

/-- Nothing is written that decides a place, a height or whether a node is linked. -/
structure Unmoved (s s' : ConcurrentSkipList T) : Prop where
  head : s'.head = s.head
  next : s'.nextAddress = s.nextAddress
  node : ∀ p, tag (s'.memory p) = tag (s.memory p)
  height : ∀ p, (s'.memory p).height = (s.memory p).height

theorem Unmoved.refl (s : ConcurrentSkipList T) : Unmoved s s :=
  ⟨rfl, rfl, fun _ => rfl, fun _ => rfl⟩

theorem Unmoved.modify (p : Nat) {f : SkipListNode T → SkipListNode T}
    (node : tag (f (s.memory p)) = tag (s.memory p))
    (height : (f (s.memory p)).height = (s.memory p).height) : Unmoved s (s.modify p f) :=
  ⟨rfl, rfl, modify_keeps p f s tag node, modify_keeps p f s SkipListNode.height height⟩

theorem Unmoved.release (same : Unmoved s s') (guards : List Nat) :
    Unmoved s (s'.releaseGuards guards) := by
  rw [releaseGuards_eq]
  exact ⟨same.head, same.next, same.node, same.height⟩

theorem Unmoved.place (same : Unmoved s s') (p : Nat) : SamePlace s s' p :=
  ⟨(tag_eq (same.node p)).1, (tag_eq (same.node p)).2.2⟩

theorem Unmoved.effect (same : Unmoved m.list s') (locks : ∀ p, (s'.memory p).locked = true →
      p ∈ thread'.held ∨ (m.list.memory p).locked = true ∧ p ∉ (m.threads t).held) :
    Effect maxHeight m t xs s' thread' where
  next := Nat.le_of_eq same.next.symm
  small p := .inl (same.height p)
  same p _ _ _ := same.node p
  place p _ _ := same.place p
  plain p _ plain := ⟨(tag_eq (same.node p)).1.trans plain, (tag_eq (same.node p)).2.1.trans⟩
  locks := locks

theorem Unmoved.head_isHead (same : Unmoved m.list s') (orderly : m.Orderly lt maxHeight) :
    (s'.memory s'.head).isHead = true := by
  rw [same.head, (tag_eq (same.node _)).1]
  exact orderly.head

/-- A step of a thread that has no new node, before and after. -/
theorem Unmoved.goes (same : Unmoved m.list s') (orderly : m.Orderly lt maxHeight)
    (before : (m.threads t).grows = none) (grows : thread'.grows = none) (raises : thread'.raises = none)
    (awaits : ∀ p, thread'.awaits = some p → m.Mentions p)
    (logs : ∀ p, status (events ++ m.log) p ≠ .absent → status m.log p ≠ .absent)
    (climbs : thread'.Climbs lt maxHeight m.list) : Goes lt maxHeight m t s' thread' events := by
  constructor
  · exact same.head_isHead orderly
  · intro p raised
    rw [raises] at raised
    cases raised
  · intro p grown
    rw [grows] at grown
    cases grown
  · intro p grown
    rw [before] at grown
    cases grown
  · exact fun p logged => .inl (logs p logged)
  · exact awaits
  · exact climbs.congr fun p _ => same.place p

/-- A step of a thread whose new node stays its new node. -/
theorem Unmoved.goes_growing {n : Nat} (same : Unmoved m.list s') (orderly : m.Orderly lt maxHeight)
    (before : (m.threads t).grows = some n) (grows : thread'.grows = some n) (raises : thread'.raises = none)
    (awaits : thread'.awaits = none) (about : ∀ e ∈ events, e.node = n)
    (climbs : thread'.Climbs lt maxHeight s') : Goes lt maxHeight m t s' thread' events := by
  constructor
  · exact same.head_isHead orderly
  · intro p raised
    rw [raises] at raised
    cases raised
  · intro p grown
    exact .inl (before.trans (grows.symm.trans grown))
  · intro p grown
    exact .inl (grows.trans (before.symm.trans grown))
  · intro p logged
    by_cases here : p = n
    · exact .inr (here ▸ before)
    · rw [status_append_of_ne fun e mem same => here (same.trans (about e mem))] at logged
      exact .inl logged
  · intro p awaited
    rw [awaits] at awaited
    cases awaited
  · exact climbs

/-! ### The phases -/

section Phases

variable {thread : Local T} (orderly : m.Orderly lt maxHeight) (inv : m.Inv lt xs lh) (unshared : m.Unshared t)
include orderly inv unshared

/-- A step that takes and releases no guard. -/
theorem Machine.Orderly.quiet (here : m.threads t = thread) (same : Unmoved m.list s')
    (locks : ∀ p, (s'.memory p).locked = (m.list.memory p).locked) (held : thread.held ⊆ thread'.held)
    (goes : Goes lt maxHeight m t s' thread' events) :
    (m.after t s' thread' events).Orderly lt maxHeight := by
  refine orderly.next inv unshared (same.effect fun p locked => ?_) goes
  rw [locks] at locked
  by_cases mine : p ∈ (m.threads t).held
  · rw [here] at mine
    exact .inl (held mine)
  · exact .inr ⟨locked, mine⟩

/-- A step of the thread alone. -/
theorem Machine.Orderly.still (here : m.threads t = thread) (before : thread.grows = none)
    (held : thread.held ⊆ thread'.held) (grows : thread'.grows = none) (raises : thread'.raises = none)
    (awaits : ∀ p, thread'.awaits = some p → m.Mentions p) (climbs : thread'.Climbs lt maxHeight m.list) :
    (m.after t m.list thread' []).Orderly lt maxHeight := by
  have same := Unmoved.refl m.list
  have before' : (m.threads t).grows = none := here ▸ before
  exact orderly.quiet inv unshared here same (fun _ => rfl) held
    (same.goes orderly before' grows raises awaits (fun _ logged => logged) climbs)

/-- A guard is taken. -/
theorem Machine.Orderly.acquire {n : Nat} (here : m.threads t = thread)
    (guard : m.list.acquireGuard n = some s') (held : n :: thread.held ⊆ thread'.held)
    (before : thread.grows = none) (grows : thread'.grows = none)
    (raises : thread'.raises = thread.raises)
    (awaits : thread'.awaits = none) (climbs : thread'.Climbs lt maxHeight m.list) :
    (m.after t s' thread' []).Orderly lt maxHeight := by
  have written : m.list.modify n (fun node => { node with locked := true }) = s' := by
    unfold acquireGuard at guard
    split at guard
    · cases guard
    · exact Option.some.inj guard
  subst written
  rw [← here] at held before raises
  have same : Unmoved m.list (m.list.modify n fun node => { node with locked := true }) := .modify n rfl rfl
  refine orderly.next inv unshared (same.effect fun p locked => ?_) ?_
  · by_cases atNode : p = n
    · exact .inl (held (atNode ▸ List.mem_cons_self))
    · rw [modify_of_ne n _ m.list atNode] at locked
      by_cases mine : p ∈ (m.threads t).held
      · exact .inl (held (List.mem_cons_of_mem _ mine))
      · exact .inr ⟨locked, mine⟩
  · constructor
    · exact same.head_isHead orderly
    · intro p raised
      rw [(tag_eq (same.node p)).1]
      exact orderly.heads t p (raises.symm.trans raised)
    · intro p grown
      rw [grows] at grown
      cases grown
    · intro p grown
      rw [before] at grown
      cases grown
    · exact fun p logged => .inl logged
    · intro p awaited
      rw [awaits] at awaited
      cases awaited
    · exact climbs.congr fun p _ => same.place p

/-- All guards of the thread are released. -/
theorem Machine.Orderly.release (here : m.threads t = thread) (same : Unmoved m.list s)
    (locks : ∀ p, (s.memory p).locked = (m.list.memory p).locked) (before : thread.grows = none)
    (grows : thread'.grows = none) (raises : thread'.raises = none) (awaits : thread'.awaits = none)
    (logs : ∀ p, status (events ++ m.log) p ≠ .absent → status m.log p ≠ .absent)
    (climbs : thread'.Climbs lt maxHeight m.list) :
    (m.after t (s.releaseGuards thread.held) thread' events).Orderly lt maxHeight := by
  have same' := same.release thread.held
  have before' : (m.threads t).grows = none := here ▸ before
  refine orderly.next inv unshared (same'.effect fun p locked => .inr ?_) (same'.goes orderly before' grows raises
    (fun p awaited => by rw [awaits] at awaited; cases awaited) logs climbs)
  rw [releaseGuards_eq] at locked
  rw [here]
  simpa only [locks, Bool.and_eq_true, decide_eq_true_eq] using locked

/-- A write to a link. -/
theorem Machine.Orderly.write_link {a k : Nat} {q : Option Nat} (here : m.threads t = thread)
    (held : thread.held = thread'.held) (goes : Unmoved m.list (m.list.writeSkip a k q) →
      Goes lt maxHeight m t (m.list.writeSkip a k q) thread' events) :
    (m.after t (m.list.writeSkip a k q) thread' events).Orderly lt maxHeight := by
  have same : Unmoved m.list (m.list.writeSkip a k q) := .modify a rfl rfl
  exact orderly.quiet inv unshared here same (modify_keeps a _ m.list SkipListNode.locked rfl)
    (held ▸ List.Subset.refl _) (goes same)

/-- A write to the thread's own new node. -/
theorem Machine.Orderly.write_own {n : Nat} {f : SkipListNode T → SkipListNode T}
    (here : m.threads t = thread) (grows : thread.grows = some n) (height : (f (m.list.memory n)).height = (m.list.memory n).height)
    (locked : (f (m.list.memory n)).locked = (m.list.memory n).locked)
    (place : Live m.list xs n → SamePlace m.list (m.list.modify n f) n)
    (isHead : (f (m.list.memory n)).isHead = (m.list.memory n).isHead)
    (full : (m.list.memory n).fullyLinked = true → (f (m.list.memory n)).fullyLinked = true)
    (held : thread.held = thread'.held)
    (stays : thread'.grows = some n ∨ thread'.grows = none ∧ (f (m.list.memory n)).fullyLinked = true)
    (raises : thread'.raises = none) (awaits : thread'.awaits = none)
    (climbs : thread'.Climbs lt maxHeight (m.list.modify n f)) :
    (m.after t (m.list.modify n f) thread' []).Orderly lt maxHeight := by
  rw [← here] at grows held
  have own := Local.own_of_grows grows
  have only : ∀ p, (m.threads t).own = some p → p = n := fun p mine =>
    (Option.some.inj (own.symm.trans mine)).symm
  refine orderly.next inv unshared ⟨Nat.le_refl _, ?_, ?_, ?_, ?_, ?_⟩ ⟨?_, ?_, ?_, ?_, ?_, ?_, climbs⟩
  · exact fun p => .inl (modify_keeps n f m.list SkipListNode.height height p)
  · intro p _ _ other
    rw [modify_of_ne n f m.list fun same : p = n => other (same ▸ own)]
  · intro p mine live
    obtain rfl := only p mine
    exact place live
  · intro p mine plain
    obtain rfl := only p mine
    rw [modify_self]
    exact ⟨isHead.trans plain, full⟩
  · intro p taken
    rw [modify_keeps n f m.list SkipListNode.locked locked] at taken
    by_cases mine : p ∈ (m.threads t).held
    · exact .inl (held ▸ mine)
    · exact .inr ⟨taken, mine⟩
  · rw [modify_head, modify_keeps n f m.list SkipListNode.isHead isHead]
    exact orderly.head
  · intro p raised
    rw [raises] at raised
    cases raised
  · intro p grown
    rcases stays with stays | ⟨gone, -⟩
    · exact .inl (grows.trans (stays.symm.trans grown))
    · rw [gone] at grown
      cases grown
  · intro p grown
    obtain rfl := only p (Local.own_of_grows grown)
    exact stays.imp_right fun done => by rw [modify_self]; exact done.2
  · exact fun p logged => .inl logged
  · intro p awaited
    rw [awaits] at awaited
    cases awaited

/-- **A node is popped.** -/
theorem Machine.Orderly.pop [Inhabited T] {h n : Nat} {isHead : Bool} (here : m.threads t = thread)
    (pops : m.list.pop h isHead = some (s', n)) (popping : thread.popping = some h)
    (low : h ≤ maxHeight) (unowned : thread.own = none) (held : thread.held = thread'.held)
    (begins : thread'.grows = if isHead then none else some n)
    (raises : thread'.raises = if isHead then some n else none) (awaits : thread'.awaits = none)
    (climbs : thread'.Climbs lt maxHeight s') : (m.after t s' thread' []).Orderly lt maxHeight := by
  rw [← here] at popping unowned held
  obtain ⟨s₁, n₁, pops', popped, -, -, stock⟩ := pop_spec (inv.stock_beside t) (pop_small pops) isHead
  obtain ⟨rfl, rfl⟩ := Prod.mk.inj (Option.some.inj (pops.symm.trans pops'))
  have made : (s'.memory n).isHead = isHead := by
    obtain ⟨node, -, made⟩ := popped.node
    rw [made]
  have old : ∀ p < m.list.nextAddress, ¬ m.HandsOut t p → s'.memory p = m.list.memory p := by
    intro p allocated kept
    refine popped.old allocated ?_
    rintro rfl
    obtain ⟨node, ⟨-, first⟩ | ⟨new, -⟩, -⟩ := popped.node
    · exact kept ⟨h, popping, first⟩
    · exact Nat.not_le_of_lt allocated new
  refine orderly.next inv unshared ⟨popped.grows, ?_, ?_, ?_, ?_, ?_⟩ ⟨?_, ?_, ?_, ?_, ?_, ?_, climbs⟩
  · intro p
    refine (popped.part SkipListNode.height (fun _ => rfl) p).imp_right fun new => ?_
    rw [new.2]
    exact low
  · intro p allocated kept _
    rw [old p allocated kept]
  · intro p mine
    rw [unowned] at mine
    cases mine
  · intro p mine
    rw [unowned] at mine
    cases mine
  · intro p locked
    rcases popped.part SkipListNode.locked (fun _ => rfl) p with same | ⟨-, new⟩
    · rw [same] at locked
      by_cases mine : p ∈ (m.threads t).held
      · exact .inl (held ▸ mine)
      · exact .inr ⟨locked, mine⟩
    · rw [new] at locked
      cases locked
  · have inUse : m.list.head ∈ m.list.head :: xs := List.mem_cons_self
    rw [popped.head, old _ (inv.listed_allocated inUse) (inv.not_handsOut (.inl inUse))]
    exact orderly.head
  · intro p raised
    rw [raises] at raised
    cases isHead with
    | true =>
        obtain rfl := Option.some.inj raised
        exact made
    | false => cases raised
  · intro p grown
    rw [begins] at grown
    cases isHead with
    | true => cases grown
    | false =>
        obtain rfl := Option.some.inj grown
        exact .inr ⟨stock.allocated n (.inr rfl), made⟩
  · intro p grown
    rw [Local.own_of_grows grown] at unowned
    cases unowned
  · exact fun p logged => .inl logged
  · intro p awaited
    rw [awaits] at awaited
    cases awaited

/-- **The head is exchanged**, or another thread was first. -/
theorem Machine.Orderly.exchange [Inhabited T] {oldHead newHead : Nat}
    (here : m.threads t = .growExchange oldHead newHead) :
    (m.after t (m.list.exchangeHead newHead oldHead).1
      (if (m.list.exchangeHead newHead oldHead).2 then .growPush oldHead else .idle) []).Orderly lt maxHeight := by
  have knows := inv.threads t
  have own : (m.threads t).own = some newHead := by rw [here]; rfl
  have held : (m.threads t).held = [oldHead] := by rw [here]; rfl
  have isHead := orderly.heads t newHead (by rw [here]; rfl)
  rw [here] at knows
  obtain ⟨live, -, dead⟩ := knows
  have other : newHead ≠ oldHead := fun same => dead (same ▸ live)
  have only : ∀ p, (m.threads t).own = some p → p = newHead := fun p mine =>
    (Option.some.inj (own.symm.trans mine)).symm
  have notGrowing : (m.threads t).grows = none := by rw [here]; rfl
  -- What is to be shown of the list after the exchange.
  have leaves : ∀ s' thread', m.list.nextAddress ≤ s'.nextAddress →
      (∀ p ≠ newHead, tag (s'.memory p) = tag (m.list.memory p) ∧
        (s'.memory p).height = (m.list.memory p).height) →
      (s'.memory newHead).height = (m.list.memory newHead).height ∨ (s'.memory newHead).height ≤ maxHeight →
      (∀ p, (s'.memory p).locked = true → (m.list.memory p).locked = true ∧ p ≠ oldHead) →
      (s'.memory s'.head).isHead = true → thread'.raises = none → thread'.grows = none → thread'.awaits = none →
      thread'.Climbs lt maxHeight s' → (m.after t s' thread' []).Orderly lt maxHeight := by
    intro s' thread' next elsewhere height locks head raises grows awaits climbs
    refine orderly.next inv unshared ⟨next, ?_, ?_, ?_, ?_, ?_⟩ ⟨head, ?_, ?_, ?_, ?_, ?_, climbs⟩
    · intro p
      by_cases new : p = newHead
      · exact new ▸ height
      · exact .inl (elsewhere p new).2
    · exact fun p _ _ notMine => (elsewhere p fun new => notMine (new ▸ own)).1
    · exact fun p mine live' => absurd (only p mine ▸ live') dead
    · intro p mine plain
      rw [only p mine, isHead] at plain
      cases plain
    · intro p locked
      rw [held, List.mem_singleton]
      exact .inr (locks p locked)
    · intro p raised
      rw [raises] at raised
      cases raised
    · intro p grown
      rw [grows] at grown
      cases grown
    · intro p grown
      rw [notGrowing] at grown
      cases grown
    · exact fun p logged => .inl logged
    · intro p awaited
      rw [awaits] at awaited
      cases awaited
  by_cases first : m.list.head = oldHead
  · subst first
    obtain ⟨s', exchanges, head, next, -, -, atOld, atNew, elsewhere⟩ := exchangeHead_eq newHead other
    rw [exchanges]
    have copied : tag (s'.memory newHead) = (true, (m.list.memory m.list.head).fullyLinked,
        (m.list.memory newHead).data) ∧ (s'.memory newHead).height = (m.list.memory newHead).height ∧
        (s'.memory newHead).locked = (m.list.memory newHead).locked := by
      rw [atNew, copyHead, modify_self, tag, orderly.head]
      exact ⟨rfl, rfl, rfl⟩
    refine leaves s' _ (Nat.le_of_eq next.symm) ?_ (.inl copied.2.1) ?_ ?_ rfl rfl rfl trivial
    · intro p new
      by_cases old : p = m.list.head
      · rw [old, atOld]
        exact ⟨rfl, rfl⟩
      · rw [elsewhere p old new]
        exact ⟨rfl, rfl⟩
    · intro p locked
      by_cases old : p = m.list.head
      · rw [old, atOld] at locked
        cases locked
      · refine ⟨?_, old⟩
        by_cases new : p = newHead
        · rwa [new, copied.2.2, ← new] at locked
        · rwa [elsewhere p old new] at locked
    · rw [head]
      exact (Prod.mk.inj copied.1).1
  · obtain ⟨s', exchanges, head, next, -, atNew, atOld, elsewhere⟩ := exchangeHead_late newHead first other
    rw [exchanges]
    refine leaves s' _ (Nat.le_of_eq next.symm) ?_ (.inr ?_) ?_ ?_ rfl rfl rfl trivial
    · intro p new
      by_cases old : p = oldHead
      · rw [old, atOld]
        exact ⟨rfl, rfl⟩
      · rw [elsewhere p old new]
        exact ⟨rfl, rfl⟩
    · rw [atNew]
      exact Nat.zero_le _
    · intro p locked
      by_cases old : p = oldHead
      · rw [old, atOld] at locked
        cases locked
      · refine ⟨?_, old⟩
        by_cases new : p = newHead
        · rw [new, atNew] at locked
          cases locked
        · rwa [elsewhere p old new] at locked
    · rw [head, elsewhere _ first fun new => dead (.inr (.inl new.symm))]
      exact orderly.head

/-! #### Searches and guards -/

variable [Inhabited T] [DecidableRel lt] {sizeLimit : Nat → Nat} {draw : Nat → Bool} {x : T}
  {point : InsertionPoint} {nodeHeight layer candidate : Nat} {guards : List Nat}

omit [Inhabited T] unshared in
/-- What a search records descends. -/
theorem Machine.Orderly.descends (recorded : Recorded lt m.list xs lh x 0 point) :
    point.Descends lt m.list m.list.height :=
  recorded.descends inv.layers orderly.head (orderly.plain inv)

theorem Machine.Orderly.at_addSearch [IsStrictWeakOrder T lt] (here : m.threads t = .addSearch x)
    (taken : goOn lt maxHeight sizeLimit draw m.list (.addSearch x) = some (s', thread', events)) :
    (m.after t s' thread' events).Orderly lt maxHeight := by
  obtain ⟨point, search, recorded⟩ := inv.layers.findInsertionPoint x
  have descends := orderly.descends inv recorded
  simp only [goOn, search, Option.bind_eq_bind, Option.bind_some] at taken
  cases found : point.foundLayer with
  | none =>
      simp only [found, Option.some.injEq, Prod.mk.injEq] at taken
      obtain ⟨rfl, rfl, rfl⟩ := taken
      have low := (getHeight_bounds draw inv.layers.positive).2
      exact orderly.still inv unshared here rfl (List.Subset.refl _) rfl rfl
        (m.mentions_of_none rfl) ⟨descends.mono low, fun l contra => absurd contra.symm (Nat.succ_ne_zero l)⟩
  | some layer =>
      obtain ⟨q, listed, -, -, succ⟩ := recorded.present inv.layers found
      simp only [found, succ, Option.bind_some, Option.some.injEq, Prod.mk.injEq] at taken
      obtain ⟨rfl, rfl, rfl⟩ := taken
      refine orderly.still inv unshared here rfl (List.Subset.refl _) rfl rfl ?_ trivial
      rintro p ⟨⟩
      exact inv.mentions_listed listed

theorem Machine.Orderly.at_removeSearch [IsStrictWeakOrder T lt] (here : m.threads t = .removeSearch x)
    (taken : goOn lt maxHeight sizeLimit draw m.list (.removeSearch x) = some (s', thread', events)) :
    (m.after t s' thread' events).Orderly lt maxHeight := by
  obtain ⟨point, search, recorded⟩ := inv.layers.findInsertionPoint x
  have descends := orderly.descends inv recorded
  simp only [goOn, search, Option.bind_eq_bind, Option.bind_some] at taken
  cases found : point.foundLayer with
  | none =>
      simp only [found, Option.some.injEq, Prod.mk.injEq] at taken
      obtain ⟨rfl, rfl, rfl⟩ := taken
      exact orderly.still inv unshared here rfl (List.nil_subset _) rfl rfl (m.mentions_of_none rfl) trivial
  | some layer =>
      obtain ⟨q, listed, -, linked, succ⟩ := recorded.present inv.layers found
      simp only [found, succ, Option.bind_some, Option.some.injEq, Prod.mk.injEq] at taken
      obtain ⟨rfl, rfl, rfl⟩ := taken
      have low : layer + 1 ≤ m.list.height := by
        have := inv.layers.linked q listed
        omega
      exact orderly.still inv unshared here rfl (List.nil_subset _) rfl rfl (m.mentions_of_none rfl) (descends.mono low)

theorem Machine.Orderly.at_removeAgain [IsStrictWeakOrder T lt] {node : Nat} (here : m.threads t = .removeAgain x node)
    (taken : goOn lt maxHeight sizeLimit draw m.list (.removeAgain x node) = some (s', thread', events)) :
    (m.after t s' thread' events).Orderly lt maxHeight := by
  obtain ⟨point, search, recorded⟩ := inv.layers.findInsertionPoint x
  have descends := orderly.descends inv recorded
  have knows := inv.threads t
  rw [here] at knows
  have low := (inv.layers.linked node (Condemned.mem knows)).2.2
  simp only [goOn, search, Option.bind_eq_bind, Option.bind_some, Option.some.injEq, Prod.mk.injEq] at taken
  obtain ⟨rfl, rfl, rfl⟩ := taken
  exact orderly.still inv unshared here rfl (List.Subset.refl _) rfl rfl
    (m.mentions_of_none rfl) ⟨descends.mono low, fun l contra => absurd contra.symm (Nat.succ_ne_zero l)⟩

theorem Machine.Orderly.at_guard {change : Change T} {prevPred : Option Nat}
    (here : m.threads t = .guard change point nodeHeight layer prevPred guards)
    (taken : goOn lt maxHeight sizeLimit draw m.list (.guard change point nodeHeight layer prevPred guards) =
      some (s', thread', events)) : (m.after t s' thread' events).Orderly lt maxHeight := by
  have climbs := orderly.climbs t
  rw [here] at climbs
  simp only [goOn] at taken
  split at taken
  · obtain ⟨pred, -, taken⟩ := Option.bind_eq_some_iff.mp taken
    obtain ⟨⟨s₁, guards'⟩, locks, taken⟩ := Option.bind_eq_some_iff.mp taken
    obtain ⟨rfl, rfl, rfl⟩ : s₁ = s' ∧ _ = thread' ∧ _ = events := by
      simpa only [Option.some.injEq, Prod.mk.injEq] using taken
    unfold guardLayer at locks
    split at locks
    · obtain ⟨rfl, rfl⟩ := Prod.mk.inj (Option.some.inj locks)
      exact orderly.still inv unshared here rfl (List.Subset.refl _) rfl rfl
        (m.mentions_of_none rfl) climbs.1
    · obtain ⟨s₂, guard, same⟩ := Option.map_eq_some_iff.mp locks
      obtain ⟨rfl, rfl⟩ := Prod.mk.inj same
      exact orderly.acquire inv unshared here guard (List.Subset.refl _) rfl rfl rfl rfl climbs.1
  · obtain ⟨rfl, rfl, rfl⟩ : _ = s' ∧ _ = thread' ∧ _ = events := by
      simpa only [Option.some.injEq, Prod.mk.injEq] using taken
    cases change with
    | add | remove =>
        exact orderly.still inv unshared here rfl (List.Subset.refl _) rfl rfl
          (m.mentions_of_none rfl) trivial

theorem Machine.Orderly.at_validate {change : Change T} {pred : Nat}
    (here : m.threads t = .validate change point nodeHeight layer pred guards)
    (taken : goOn lt maxHeight sizeLimit draw m.list (.validate change point nodeHeight layer pred guards) =
      some (s', thread', events)) : (m.after t s' thread' events).Orderly lt maxHeight := by
  have climbs := orderly.climbs t
  have knows := inv.threads t
  rw [here] at climbs knows
  obtain ⟨-, -, -, -, found, -⟩ := knows
  simp only [goOn] at taken
  obtain ⟨valid, -, taken⟩ := Option.bind_eq_some_iff.mp taken
  obtain ⟨rfl, rfl, rfl⟩ : _ = s' ∧ _ = thread' ∧ _ = events := by
    simpa only [Option.some.injEq, Prod.mk.injEq] using taken
  cases valid with
  | true =>
      refine orderly.still inv unshared here rfl (List.Subset.refl _) rfl rfl
        (m.mentions_of_none rfl) ⟨climbs, ?_⟩
      intro l same
      rw [← Nat.succ.inj same, found]
  | false =>
      exact orderly.still inv unshared here rfl (List.Subset.refl _) rfl rfl
        (m.mentions_of_none rfl) trivial

theorem Machine.Orderly.at_removeMark (here : m.threads t = .removeMark x point layer candidate)
    (ordered : Ordered (events ++ m.log))
    (taken : goOn lt maxHeight sizeLimit draw m.list (.removeMark x point layer candidate) =
      some (s', thread', events)) : (m.after t s' thread' events).Orderly lt maxHeight := by
  have climbs := orderly.climbs t
  have knows := inv.threads t
  rw [here] at climbs knows
  simp only [goOn] at taken
  split at taken
  · obtain ⟨rfl, rfl, rfl⟩ : _ = s' ∧ _ = thread' ∧ _ = events := by
      simpa only [Option.some.injEq, Prod.mk.injEq] using taken
    exact orderly.release inv unshared here (.refl m.list) (fun _ => rfl) rfl rfl rfl rfl (fun _ logged => logged)
      trivial
  · obtain ⟨rfl, rfl, rfl⟩ : _ = s' ∧ _ = thread' ∧ _ = events := by
      simpa only [Option.some.injEq, Prod.mk.injEq] using taken
    have same : Unmoved m.list (m.list.setMarkedForRemoval candidate) := .modify candidate rfl rfl
    have logs : ∀ p, status ([.marked candidate] ++ m.log) p ≠ .absent → status m.log p ≠ .absent := by
      intro p logged
      by_cases marks : p = candidate
      · obtain ⟨key, linked⟩ : ∃ key, status m.log candidate = .linked key := ordered.1
        rw [marks, linked]
        intro absent
        cases absent
      · rwa [List.singleton_append, status_of_ne marks] at logged
    have descends : point.Descends lt m.list (m.list.memory candidate).height := knows.2.2 ▸ climbs
    exact orderly.release inv unshared here same (modify_keeps candidate _ m.list SkipListNode.locked rfl)
      rfl rfl rfl rfl logs ⟨descends, fun l contra => absurd contra.symm (Nat.succ_ne_zero l)⟩

/-! #### All phases -/

/-- **Going on keeps the order.** -/
theorem Machine.Orderly.goOn [IsStrictWeakOrder T lt] (ordered : Ordered (events ++ m.log))
    (taken : goOn lt maxHeight sizeLimit draw m.list (m.threads t) = some (s', thread', events)) :
    (m.after t s' thread' events).Orderly lt maxHeight := by
  have knows := inv.threads t
  have climbs := orderly.climbs t
  cases here : m.threads t with
  | idle =>
      rw [here] at taken
      cases taken
  | addSearch => exact orderly.at_addSearch inv unshared here (here ▸ taken)
  | removeSearch => exact orderly.at_removeSearch inv unshared here (here ▸ taken)
  | removeAgain => exact orderly.at_removeAgain inv unshared here (here ▸ taken)
  | guard => exact orderly.at_guard inv unshared here (here ▸ taken)
  | validate => exact orderly.at_validate inv unshared here (here ▸ taken)
  | removeMark => exact orderly.at_removeMark inv unshared here ordered (here ▸ taken)
  | growExchange =>
      simp only [here, ConcurrentSkipList.goOn, Option.some.injEq, Prod.mk.injEq] at taken
      obtain ⟨rfl, rfl, rfl⟩ := taken
      exact orderly.exchange inv unshared here
  | addFound x node =>
      simp only [here, ConcurrentSkipList.goOn, Option.some.injEq, Prod.mk.injEq] at taken
      obtain ⟨rfl, rfl, rfl⟩ := taken
      have found : m.Mentions node := .inr (.inr ⟨t, by rw [here]; rfl⟩)
      split
      · exact orderly.still inv unshared here rfl (List.Subset.refl _) rfl rfl
          (m.mentions_of_none rfl) trivial
      · refine orderly.still inv unshared here rfl (List.Subset.refl _) rfl rfl ?_
          trivial
        rintro p ⟨⟩
        exact found
  | addWait node =>
      simp only [here, ConcurrentSkipList.goOn, Option.some.injEq, Prod.mk.injEq] at taken
      obtain ⟨rfl, rfl, rfl⟩ := taken
      have found : m.Mentions node := .inr (.inr ⟨t, by rw [here]; rfl⟩)
      split
      · exact orderly.still inv unshared here rfl (List.Subset.refl _) rfl rfl
          (m.mentions_of_none rfl) trivial
      · refine orderly.still inv unshared here rfl (List.Subset.refl _) rfl rfl ?_
          trivial
        rintro p ⟨⟩
        exact found
  | addCheck newSize =>
      simp only [here, ConcurrentSkipList.goOn, Option.some.injEq, Prod.mk.injEq] at taken
      obtain ⟨rfl, rfl, rfl⟩ := taken
      split
      · rename_i outgrown
        exact orderly.still inv unshared here rfl (List.Subset.refl _) rfl rfl
          (m.mentions_of_none rfl) outgrown.1
      · exact orderly.still inv unshared here rfl (List.Subset.refl _) rfl rfl
          (m.mentions_of_none rfl) trivial
  | growLoad height =>
      rw [here] at climbs
      simp only [here, ConcurrentSkipList.goOn, Option.some.injEq, Prod.mk.injEq] at taken
      obtain ⟨rfl, rfl, rfl⟩ := taken
      split
      · exact orderly.still inv unshared here rfl (List.Subset.refl _) rfl rfl
          (m.mentions_of_none rfl) trivial
      · exact orderly.still inv unshared here rfl (List.Subset.refl _) rfl rfl
          (m.mentions_of_none rfl) climbs
  | removeCheck =>
      rw [here] at climbs
      simp only [here, ConcurrentSkipList.goOn, Option.some.injEq, Prod.mk.injEq] at taken
      obtain ⟨rfl, rfl, rfl⟩ := taken
      split
      · exact orderly.still inv unshared here rfl (List.Subset.refl _) rfl rfl
          (m.mentions_of_none rfl) climbs
      · exact orderly.still inv unshared here rfl (List.Subset.refl _) rfl rfl
          (m.mentions_of_none rfl) trivial
  | growGuard oldHead newHead =>
      simp only [here, ConcurrentSkipList.goOn] at taken
      obtain ⟨s₁, guard, taken⟩ := Option.bind_eq_some_iff.mp taken
      obtain ⟨rfl, rfl, rfl⟩ : s₁ = s' ∧ _ = thread' ∧ _ = events := by
        simpa only [Option.some.injEq, Prod.mk.injEq] using taken
      exact orderly.acquire inv unshared here guard (List.Subset.refl _) rfl rfl rfl rfl trivial
  | removeGuard x point layer candidate =>
      rw [here] at climbs
      simp only [here, ConcurrentSkipList.goOn] at taken
      obtain ⟨s₁, guard, taken⟩ := Option.bind_eq_some_iff.mp taken
      obtain ⟨rfl, rfl, rfl⟩ : s₁ = s' ∧ _ = thread' ∧ _ = events := by
        simpa only [Option.some.injEq, Prod.mk.injEq] using taken
      exact orderly.acquire inv unshared here guard (List.Subset.refl _) rfl rfl rfl rfl climbs
  | addPop x point nodeHeight guards =>
      rw [here] at knows
      simp only [here, ConcurrentSkipList.goOn] at taken
      obtain ⟨⟨s₁, n⟩, pops, taken⟩ := Option.bind_eq_some_iff.mp taken
      obtain ⟨rfl, rfl, rfl⟩ : s₁ = s' ∧ _ = thread' ∧ _ = events := by
        simpa only [Option.some.injEq, Prod.mk.injEq] using taken
      exact orderly.pop inv unshared here pops rfl (Nat.le_trans knows.1.2 (orderly.small m.list.head)) rfl rfl
        rfl rfl rfl trivial
  | growPop height oldHead =>
      rw [here] at climbs
      simp only [here, ConcurrentSkipList.goOn] at taken
      obtain ⟨⟨s₁, n⟩, pops, taken⟩ := Option.bind_eq_some_iff.mp taken
      obtain ⟨rfl, rfl, rfl⟩ : s₁ = s' ∧ _ = thread' ∧ _ = events := by
        simpa only [Option.some.injEq, Prod.mk.injEq] using taken
      exact orderly.pop inv unshared here pops rfl climbs rfl rfl rfl rfl rfl trivial
  | addStore x point nodeHeight guards n =>
      rw [here] at knows
      simp only [here, ConcurrentSkipList.goOn, Option.some.injEq, Prod.mk.injEq] at taken
      obtain ⟨rfl, rfl, rfl⟩ := taken
      exact orderly.write_own inv unshared here rfl rfl rfl
        (fun live => absurd live (Growing.dead knows.2.2)) rfl id rfl (.inl rfl) rfl rfl trivial
  | addFinish guards n =>
      simp only [here, ConcurrentSkipList.goOn, Option.some.injEq, Prod.mk.injEq] at taken
      obtain ⟨rfl, rfl, rfl⟩ := taken
      refine orderly.write_own inv unshared here rfl rfl rfl (fun _ => ?_) rfl (fun _ => rfl) rfl
        (.inr ⟨rfl, rfl⟩) rfl rfl trivial
      exact ⟨by rw [modify_self], modify_keeps n _ m.list SkipListNode.data rfl n⟩
  | addPrepare point nodeHeight guards n k =>
      simp only [here, ConcurrentSkipList.goOn] at taken
      obtain ⟨s₁, set, taken⟩ := Option.bind_eq_some_iff.mp taken
      obtain ⟨-, rfl⟩ := setSkip_some set
      obtain ⟨rfl, rfl, rfl⟩ : _ = s' ∧ _ = thread' ∧ _ = events := by
        simpa only [Option.some.injEq, Prod.mk.injEq] using taken
      exact orderly.write_link inv unshared here rfl fun same => (same.goes_growing orderly (by rw [here]; rfl) rfl rfl
        rfl (List.forall_mem_nil _) trivial)
  | addPublish point nodeHeight guards n k =>
      simp only [here, ConcurrentSkipList.goOn] at taken
      obtain ⟨a, -, taken⟩ := Option.bind_eq_some_iff.mp taken
      obtain ⟨s₁, set, taken⟩ := Option.bind_eq_some_iff.mp taken
      obtain ⟨-, rfl⟩ := setSkip_some set
      split at taken
      · obtain ⟨rfl, rfl, rfl⟩ : _ = s' ∧ _ = thread' ∧ _ = events := by
          simpa only [Option.some.injEq, Prod.mk.injEq] using taken
        exact orderly.write_link inv unshared here rfl fun same => (same.goes_growing orderly (by rw [here]; rfl) rfl
          rfl rfl (List.forall_mem_nil _) trivial)
      · obtain ⟨rfl, rfl, rfl⟩ : _ = s' ∧ _ = thread' ∧ _ = events := by
          simpa only [Option.some.injEq, Prod.mk.injEq] using taken
        refine orderly.write_link inv unshared here rfl fun same => (same.goes_growing orderly (by rw [here]; rfl) rfl
          rfl rfl ?_ trivial)
        intro e mem
        rw [List.mem_singleton.mp mem]
        rfl
  | removeUnlink point nodeHeight guards n k =>
      rw [here] at taken
      cases k with
      | zero => cases taken
      | succ k =>
          simp only [ConcurrentSkipList.goOn] at taken
          obtain ⟨s₁, unlinks, taken⟩ := Option.bind_eq_some_iff.mp taken
          obtain ⟨a, -, unlinks⟩ := Option.bind_eq_some_iff.mp unlinks
          obtain ⟨next, -, set⟩ := Option.bind_eq_some_iff.mp unlinks
          obtain ⟨-, rfl⟩ := setSkip_some set
          split at taken
          · obtain ⟨rfl, rfl, rfl⟩ : _ = s' ∧ _ = thread' ∧ _ = events := by
              simpa only [Option.some.injEq, Prod.mk.injEq] using taken
            exact orderly.write_link inv unshared here rfl fun same => (same.goes orderly (by rw [here]; rfl) rfl rfl
              (m.mentions_of_none rfl) (fun _ logged => logged) trivial)
          · obtain ⟨rfl, rfl, rfl⟩ : _ = s' ∧ _ = thread' ∧ _ = events := by
              simpa only [Option.some.injEq, Prod.mk.injEq] using taken
            refine orderly.write_link inv unshared here rfl fun same => (same.goes orderly (by rw [here]; rfl) rfl rfl
              (m.mentions_of_none rfl) ?_ trivial)
            intro p logged
            by_cases removes : p = n
            · exact absurd (if_pos removes) logged
            · rwa [List.singleton_append, status_of_ne removes] at logged
  | retry change guards =>
      simp only [here, ConcurrentSkipList.goOn, Option.some.injEq, Prod.mk.injEq] at taken
      obtain ⟨rfl, rfl, rfl⟩ := taken
      cases change with
      | add | remove =>
          exact orderly.release inv unshared here (.refl m.list) (fun _ => rfl) rfl rfl rfl rfl
            (fun _ logged => logged) trivial
  | addSize | removeSize =>
      simp only [here, ConcurrentSkipList.goOn, Option.some.injEq, Prod.mk.injEq] at taken
      obtain ⟨rfl, rfl, rfl⟩ := taken
      exact orderly.release inv unshared here ⟨rfl, rfl, fun _ => rfl, fun _ => rfl⟩ (fun _ => rfl) rfl rfl rfl rfl
        (fun _ logged => logged) trivial
  | growPush | removePush =>
      simp only [here, ConcurrentSkipList.goOn] at taken
      obtain ⟨s₁, pushes, taken⟩ := Option.bind_eq_some_iff.mp taken
      obtain ⟨rfl, rfl, rfl⟩ : s₁ = s' ∧ _ = thread' ∧ _ = events := by
        simpa only [Option.some.injEq, Prod.mk.injEq] using taken
      unfold push at pushes
      split at pushes
      · obtain rfl := Option.some.inj pushes
        exact orderly.quiet inv unshared here ⟨rfl, rfl, fun _ => rfl, fun _ => rfl⟩ (fun _ => rfl)
          (List.Subset.refl _) (Unmoved.goes ⟨rfl, rfl, fun _ => rfl, fun _ => rfl⟩ orderly (by rw [here]; rfl) rfl rfl
            (m.mentions_of_none rfl) (fun _ logged => logged) trivial)
      · cases pushes

/-- **Every unshared step keeps the order.** -/
theorem Machine.Orderly.step [IsStrictWeakOrder T lt] {choice : Choice T} {m' : Machine T}
    (stepped : m.step lt maxHeight sizeLimit t choice = some m') : m'.Orderly lt maxHeight := by
  obtain ⟨xs', lh', inv'⟩ := inv.step unshared.exclusive stepped
  obtain ⟨⟨s', thread', events⟩, taken, rest⟩ := Option.bind_eq_some_iff.mp stepped
  obtain rfl := Option.some.inj rest
  cases choice with
  | go draw => exact orderly.goOn inv unshared inv'.ordered taken
  | add x | remove x =>
      simp only [threadStep] at taken
      split at taken
      · rename_i idle
        obtain ⟨rfl, rfl, rfl⟩ : _ = s' ∧ _ = thread' ∧ _ = events := by
          simpa only [Option.some.injEq, Prod.mk.injEq] using taken
        exact orderly.still inv unshared idle rfl (List.Subset.refl _) rfl rfl (m.mentions_of_none rfl) trivial
      · cases taken

end Phases

/-- A new list, before any thread runs. -/
theorem new_orderly [Inhabited T] {initialHeight : Nat} (low : initialHeight ≤ maxHeight)
    (positive : 0 < initialHeight) (made : new initialHeight = some s) :
    (Machine.start s).Orderly lt maxHeight := by
  obtain ⟨⟨s₁, head⟩, pops, rest⟩ := Option.bind_eq_some_iff.mp made
  obtain ⟨s₂, made', quiet⟩ := new_spec lt positive (Nat.le_refl _) (pop_small pops)
  obtain rfl := Option.some.inj (made.symm.trans made')
  obtain rfl := Option.some.inj rest
  have stock : Stock (⟨fun _ => .create 0 default, 0, fun _ => [], 0, 0⟩ : ConcurrentSkipList T)
      fun _ => False := ⟨by simp, by simp, by simp⟩
  obtain ⟨s₂, head₂, pops₂, popped, -⟩ := pop_spec stock (pop_small pops) true
  obtain ⟨rfl, rfl⟩ := Prod.mk.inj (Option.some.inj (pops.symm.trans pops₂))
  constructor
  · intro p
    rcases popped.part SkipListNode.height (fun _ => rfl) p with same | ⟨-, new⟩
    · rw [Machine.start, same]
      exact Nat.zero_le _
    · rw [Machine.start, new]
      exact low
  · obtain ⟨node, -, made⟩ := popped.node
    rw [Machine.start, made]
  · intro t p contra
    cases contra
  · rintro p (⟨t, contra⟩ | logged | ⟨t, contra⟩)
    · cases contra
    · exact absurd rfl logged
    · cases contra
  · intro p locked
    have unlocked := quiet.unlocked p
    rw [Machine.start] at locked
    rw [locked] at unlocked
    cases unlocked
  · exact fun _ => trivial

end Hcl.ConcurrentSkipList
