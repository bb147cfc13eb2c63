import Hcl.SkipList.Safety
import Hcl.SkipList.Quiet

/-!
The kinds of steps a thread takes, each with the invariant after it.

A step that takes or releases guards changes nothing else (`Machine.Inv.relock`). A write to the
node a thread owns is seen by nobody who relies on it (`Machine.Inv.write_own`), and neither is a
write to a link of a node whose guard the thread has (`Machine.Inv.write_link`). The other kinds
are the mark of `remove`, the exchange of the head, and what goes in and out of the recycler.
-/

namespace Hcl.ConcurrentSkipList

open Hcl.Lib

variable {T : Type} {lt : T → T → Prop} {m : Machine T} {t : Nat} {xs xs' : List Nat}
  {lh lh' : Nat → Nat} {s s' : ConcurrentSkipList T} {thread' : Local T} {n : Nat}

/-! ### Guards -/

/-- The lists differ in the locks and the size only. -/
structure Relocked (s s' : ConcurrentSkipList T) : Prop where
  head : s'.head = s.head
  nextAddress : s'.nextAddress = s.nextAddress
  nodeQueues : s'.nodeQueues = s.nodeQueues
  node : ∀ p, SameButLock s s' p

theorem Relocked.height (same : Relocked s s') : s'.height = s.height := by
  rw [ConcurrentSkipList.height, same.head]
  exact (same.node _).high

theorem Layers.relocked (layers : Layers lt s xs lh) (same : Relocked s s') : Layers lt s' xs lh :=
  layers.congr same.head (fun p _ => (same.node p).high) (fun p _ l => (same.node p).links l)
    (fun p _ => (same.node p).keyOf) (Nat.le_of_eq same.nextAddress.symm) fun p above l => by
      rw [(same.node p).high] at above
      rw [(same.node p).links, layers.clean p above l]

/-- **A step that takes or releases guards.** What the thread knows then, it knows already
before. -/
theorem Machine.Inv.relock (inv : m.Inv lt xs lh) (same : Relocked m.list s')
    (knows : thread'.Inv lt m.list xs lh) (own : thread'.own = (m.threads t).own)
    (status : ∀ p key, thread'.own = some p → thread'.status key = (m.threads t).status key)
    (guards : ∀ p ∈ thread'.held, (s'.memory p).locked = true ∧ Live m.list xs p ∧
      ∀ u ≠ t, p ∉ (m.threads u).held)
    (locked : ∀ u ≠ t, ∀ p ∈ (m.threads u).held, (s'.memory p).locked = true)
    (fresh : ∀ p, m.list.nextAddress ≤ p → (s'.memory p).locked = false) :
    (m.after t s' thread' []).Inv lt xs lh := by
  have kept : ∀ p, Keeps m.list xs lh s' xs lh p := fun p =>
    (same.node p).keeps fun here => .inl (here.trans same.head.symm)
  have frozen : ∀ p, Frozen m.list xs lh s' p := fun p =>
    (same.node p).frozen fun here => here.trans same.head.symm
  have apart : ∀ p, Apart m.list xs lh s' xs lh p := fun p => (same.node p).apart (by rw [same.head])
  have frame : Frame m t xs lh s' xs lh := ⟨Nat.le_of_eq same.height.symm, fun _ _ p _ _ => kept p,
    fun u other p held => ⟨frozen p, locked u other p held⟩, fun _ _ p _ => apart p⟩
  have knows' : thread'.Inv lt s' xs lh :=
    knows.stable frame.height (fun p _ _ => kept p) (fun p _ => frozen p) fun p _ => apart p
  refine inv.next frame ⟨knows', ?_, fun p mine => ⟨?_, ?_⟩⟩
    (inv.layers.relocked same) ?_ ?_ ?_ inv.ordered (fun _ _ => rfl) ?_
  · intro p held
    obtain ⟨locked, live, beside⟩ := guards p held
    exact ⟨locked, live.stable (kept p), beside⟩
  · rintro ⟨u, other, theirs⟩
    exact other (inv.owners u t p theirs (own ▸ mine))
  · rw [(same.node p).keyOf, status p _ mine]
    exact inv.owned t p (own ▸ mine)
  · rw [same.head, (same.node _).marked, (same.node _).full]
    exact inv.head
  · intro p new
    rw [same.nextAddress] at new
    exact ⟨(same.node p).marked.trans (inv.fresh p new).1, fresh p new⟩
  · rw [own, same.head]
    exact (inv.stock_beside t).congr same.nodeQueues same.nextAddress (fun p => (same.node p).high)
      fun _ => Iff.rfl
  · intro p beside mine
    obtain ⟨whole, absent⟩ := inv.settled p fun u theirs => by
      by_cases here : u = t
      · exact mine (own.trans (here ▸ theirs))
      · exact beside ⟨u, here, theirs⟩
    refine ⟨?_, absent⟩
    intro listed
    rw [(same.node p).high, (same.node p).marked, (same.node p).keyOf]
    exact whole listed

/-- A step of the thread alone. -/
theorem Machine.Inv.move (inv : m.Inv lt xs lh) (knows : thread'.Inv lt m.list xs lh)
    (own : thread'.own = (m.threads t).own)
    (status : ∀ p key, thread'.own = some p → thread'.status key = (m.threads t).status key)
    (held : thread'.held ⊆ (m.threads t).held) : (m.after t m.list thread' []).Inv lt xs lh := by
  refine inv.relock ⟨rfl, rfl, rfl, fun _ => .of_memory rfl⟩ knows own status ?_
    (fun u _ p theirs => (inv.guards u p theirs).1) fun p new => (inv.fresh p new).2
  intro p mine
  obtain ⟨locked, live⟩ := inv.guards t p (held mine)
  exact ⟨locked, live, fun u other theirs => other (inv.exclusive u t p theirs (held mine))⟩

/-- A guard is taken. -/
theorem Machine.Inv.acquire {p : Nat} (inv : m.Inv lt xs lh) (guard : m.list.acquireGuard p = some s')
    (live : Live m.list xs p) (knows : thread'.Inv lt m.list xs lh)
    (own : thread'.own = (m.threads t).own)
    (status : ∀ p key, thread'.own = some p → thread'.status key = (m.threads t).status key)
    (held : thread'.held ⊆ p :: (m.threads t).held) : (m.after t s' thread' []).Inv lt xs lh := by
  obtain ⟨free, rfl⟩ : (m.list.memory p).locked = false ∧
      m.list.modify p (fun n => { n with locked := true }) = s' := by
    unfold acquireGuard at guard
    split at guard
    · cases guard
    · rename_i free
      exact ⟨Bool.eq_false_iff.mpr free, Option.some.inj guard⟩
  have unheld : ∀ u, p ∉ (m.threads u).held := fun u theirs => by
    rw [(inv.guards u p theirs).1] at free
    cases free
  have elsewhere : ∀ q ≠ p, (m.list.modify p fun n => { n with locked := true }).memory q = m.list.memory q :=
    fun q other => modify_of_ne p _ m.list other
  refine inv.relock ⟨rfl, rfl, rfl, ?_⟩ knows own status ?_ ?_
    ?_
  · intro q
    by_cases here : q = p
    · rw [here, SameButLock, modify_self]
    · exact .of_memory (elsewhere q here)
  · intro q mine
    rcases List.mem_cons.mp (held mine) with rfl | mine
    · exact ⟨by rw [modify_self], live, fun u _ => unheld u⟩
    · obtain ⟨locked, live⟩ := inv.guards t q mine
      refine ⟨?_, live, fun u other theirs => other (inv.exclusive u t q theirs mine)⟩
      rw [elsewhere q fun same => unheld t (same ▸ mine), locked]
  · intro u other q theirs
    rw [elsewhere q fun same => unheld u (same ▸ theirs)]
    exact (inv.guards u q theirs).1
  · intro q new
    rw [elsewhere q fun same => Nat.not_le_of_lt (inv.live_allocated live) (same ▸ new)]
    exact (inv.fresh q new).2

/-- All guards of the thread are released. -/
theorem Machine.Inv.release (inv : m.Inv lt xs lh) (same : Relocked m.list s)
    (locks : ∀ p, (s.memory p).locked = (m.list.memory p).locked) (knows : thread'.Inv lt m.list xs lh)
    (own : thread'.own = (m.threads t).own)
    (status : ∀ p key, thread'.own = some p → thread'.status key = (m.threads t).status key)
    (held : thread'.held = []) :
    (m.after t (s.releaseGuards (m.threads t).held) thread' []).Inv lt xs lh := by
  rw [releaseGuards_eq]
  refine inv.relock ⟨same.head, same.nextAddress, same.nodeQueues, ?_⟩ knows own status
    ?_ ?_ ?_
  · intro p
    have node := same.node p
    exact SkipListNode.ext (node.part SkipListNode.isHead fun _ _ => rfl) node.marked node.full node.high rfl
      node.keyOf (node.part SkipListNode.skip fun _ _ => rfl)
  · intro p mine
    rw [held] at mine
    exact nomatch mine
  · intro u other p theirs
    have mine : p ∉ (m.threads t).held := fun mine => other (inv.exclusive u t p theirs mine)
    simp only [locks, (inv.guards u p theirs).1, mine, not_false_eq_true, decide_true, Bool.and_self]
  · intro p new
    simp only [locks, (inv.fresh p new).2, Bool.false_and]

/-! ### Writes -/

/-- A node that neither `t` nor another thread owns, before the step. -/
theorem Machine.Inv.settled_beside (inv : m.Inv lt xs lh) {p : Nat} (beside : ¬ m.OwnedBeside t p)
    (mine : (m.threads t).own ≠ some p) : Settled m.list xs lh m.log p :=
  inv.settled p fun u theirs => by
    by_cases here : u = t
    · exact mine (here ▸ theirs)
    · exact beside ⟨u, here, theirs⟩

/-- The node of a thread is nobody else's. -/
theorem Machine.Inv.not_beside (inv : m.Inv lt xs lh) (own : (m.threads t).own = some n) :
    ¬ m.OwnedBeside t n := fun ⟨u, other, theirs⟩ => other (inv.owners u t n theirs own)

theorem Machine.Inv.own_allocated (inv : m.Inv lt xs lh) (own : (m.threads t).own = some n) :
    n < m.list.nextAddress := inv.stock.allocated n (.inr ⟨t, own⟩)

/-- **A write to the own node** that leaves alone what others rely on if it is linked. -/
theorem Machine.Inv.write_own {f : SkipListNode T → SkipListNode T} (inv : m.Inv lt xs lh)
    (own : (m.threads t).own = some n)
    (height : (f (m.list.memory n)).height = (m.list.memory n).height)
    (locked : (f (m.list.memory n)).locked = (m.list.memory n).locked)
    (marked : (f (m.list.memory n)).marked = (m.list.memory n).marked)
    (linked : Live m.list xs n → (f (m.list.memory n)).data = (m.list.memory n).data ∧
      ((m.list.memory n).fullyLinked = true → (f (m.list.memory n)).fullyLinked = true) ∧
      ∀ l < lh n, (f (m.list.memory n)).skip l = (m.list.memory n).skip l)
    (layers : Layers lt (m.list.modify n f) xs lh) (knows : thread'.Inv lt (m.list.modify n f) xs lh)
    (held : thread'.held = (m.threads t).held)
    (owner : ∀ p, thread'.own = some p → p = n ∧
      status m.log n = thread'.status ((m.list.modify n f).keyOf n))
    (left : thread'.own ≠ some n → Settled (m.list.modify n f) xs lh m.log n) :
    (m.after t (m.list.modify n f) thread' []).Inv lt xs lh := by
  have elsewhere : ∀ p ≠ n, (m.list.modify n f).memory p = m.list.memory p := fun p other =>
    modify_of_ne n f m.list other
  have notHead : m.list.head ≠ n := (inv.own_ne_head own).symm
  have kept : ∀ p, Live m.list xs p → Keeps m.list xs lh (m.list.modify n f) xs lh p := fun p live =>
    .modify fun here => ⟨(linked (here ▸ live)).1, height, (linked (here ▸ live)).2.1, marked.trans⟩
  have locks : ∀ p, ((m.list.modify n f).memory p).locked = (m.list.memory p).locked :=
    modify_keeps n f m.list SkipListNode.locked locked
  have frame : Frame m t xs lh (m.list.modify n f) xs lh := by
    refine ⟨?_, fun _ _ p _ => kept p, ?_, ?_⟩
    · show _ ≤ ((m.list.modify n f).memory m.list.head).height
      rw [elsewhere _ notHead]
      rfl
    · intro u other p theirs
      obtain ⟨taken, live⟩ := inv.guards u p theirs
      refine ⟨?_, (locks p).trans taken⟩
      by_cases here : p = n
      · subst here
        refine ⟨by rw [modify_self, marked], id, ?_⟩
        intro l place
        rw [links, modify_self]
        exact (linked live).2.2 l (place.resolve_left notHead.symm).2
      · exact .of_memory (elsewhere p here) id
    · intro u other p theirs
      refine .of_memory (elsewhere p ?_) Iff.rfl
      rintro rfl
      exact inv.not_beside own ⟨u, other, theirs⟩
  refine inv.next frame ⟨knows, ?_, ?_⟩ layers ?_ ?_ ?_ inv.ordered
    (fun _ _ => rfl) ?_
  · intro p mine
    rw [held] at mine
    obtain ⟨taken, live⟩ := inv.guards t p mine
    exact ⟨(locks p).trans taken, live.stable (kept p live),
      fun u other theirs => other (inv.exclusive u t p theirs mine)⟩
  · intro p mine
    obtain ⟨rfl, logged⟩ := owner p mine
    exact ⟨inv.not_beside own, logged⟩
  · rw [modify_head, elsewhere _ notHead]
    exact inv.head
  · intro p new
    rw [elsewhere p fun here => Nat.not_le_of_lt (inv.own_allocated own) (here ▸ new)]
    exact inv.fresh p new
  · refine ((inv.stock_beside t).modify n height).mono fun p used => used.imp_right (.imp_left ?_)
    intro mine
    rw [own, (owner p mine).1]
  · intro p beside mine
    by_cases here : p = n
    · exact here ▸ left (here ▸ mine)
    · obtain ⟨whole, absent⟩ := inv.settled_beside (t := t) beside fun other =>
        here (Option.some.inj (own.symm.trans other)).symm
      refine ⟨?_, absent⟩
      intro listed
      rw [keyOf, elsewhere p here]
      exact whole listed

/-- **A write to a link of a guarded node**, by which the own node gets or loses a layer. -/
theorem Machine.Inv.write_link {events : List (Event T)} {a k : Nat} {q : Option Nat}
    (inv : m.Inv lt xs lh) (own : (m.threads t).own = some n) (guarded : a ∈ (m.threads t).held)
    (pred : a = m.list.head ∨ a ∈ xs ∧ k < lh a) (others : ∀ p ≠ n, (p ∈ xs' ↔ p ∈ xs) ∧ lh' p = lh p)
    (mine : (m.list.memory n).marked = true ∨ (n ∈ xs → n ∈ xs' ∧ lh n ≤ lh' n))
    (layers : Layers lt (m.list.writeSkip a k q) xs' lh')
    (knows : thread'.Inv lt (m.list.writeSkip a k q) xs' lh') (held : thread'.held = (m.threads t).held)
    (own' : thread'.own = some n) (ordered : Ordered (events ++ m.log)) (about : ∀ e ∈ events, e.node = n)
    (logged : status (events ++ m.log) n = thread'.status (m.list.keyOf n)) :
    (m.after t (m.list.writeSkip a k q) thread' events).Inv lt xs' lh' := by
  have same := SameButLinks.writeSkip m.list a k q
  have marks := same.part SkipListNode.marked fun _ _ => rfl
  have fulls := same.part SkipListNode.fullyLinked fun _ _ => rfl
  have locks := same.part SkipListNode.locked fun _ _ => rfl
  have kept : ∀ p, Keeps m.list xs lh (m.list.writeSkip a k q) xs' lh' p := by
    intro p
    refine ⟨congrFun same.keyOf p, same.height p, (fulls p).trans, (marks p).trans, .inl, ?_,
      ?_⟩
    · intro listed
      by_cases here : p = n
      · subst here
        exact mine.symm.imp (fun stays => (stays listed).1) ((marks p).trans ·)
      · exact .inl ((others p here).1.mpr listed)
    · intro l listed linked
      by_cases here : p = n
      · subst here
        exact mine.symm.imp
          (fun stays => ⟨(stays listed).1, Nat.lt_of_lt_of_le linked (stays listed).2⟩) ((marks p).trans ·)
      · exact .inl ⟨(others p here).1.mpr listed, by rwa [(others p here).2]⟩
  have frame : Frame m t xs lh (m.list.writeSkip a k q) xs' lh' := by
    refine ⟨Nat.le_of_eq (writeSkip_height ..).symm, fun _ _ p _ _ => kept p, ?_,
      ?_⟩
    · intro u other p theirs
      refine ⟨⟨marks p, id, fun l _ => links_writeSkip_of_ne (.inr ?_)⟩, (locks p).trans (inv.guards u p theirs).1⟩
      rintro rfl
      exact other (inv.exclusive u t p theirs guarded)
    · intro u other p theirs
      have notMine : p ≠ n := by
        rintro rfl
        exact inv.not_beside own ⟨u, other, theirs⟩
      refine ⟨same.part core (fun _ _ => rfl) p, Iff.rfl, (others p notMine).1, (others p notMine).2,
        fun l notHead above => links_writeSkip_of_ne ?_⟩
      by_cases here : p = a
      · subst here
        obtain ⟨listed, linked⟩ := pred.resolve_left notHead
        have := above listed
        exact .inl (by omega)
      · exact .inr here
  refine inv.next frame ⟨knows, ?_, ?_⟩ layers ?_ ?_ ?_ ordered
    (fun p beside => status_append_of_ne ?_)
    ?_
  · intro p taken
    rw [held] at taken
    obtain ⟨locked, live⟩ := inv.guards t p taken
    exact ⟨(locks p).trans locked, live.stable (kept p),
      fun u other theirs => other (inv.exclusive u t p theirs taken)⟩
  · intro p found
    obtain rfl := Option.some.inj (own'.symm.trans found)
    rw [same.keyOf]
    exact ⟨inv.not_beside own, logged⟩
  · rw [marks, fulls]
    exact inv.head
  · intro p new
    rw [marks, locks]
    exact inv.fresh p new
  · refine (inv.stock_beside t).congr rfl rfl same.height ?_
    intro p
    by_cases here : p = n
    · exact iff_of_true (.inr (.inl (here ▸ own'))) (.inr (.inl (here ▸ own)))
    · refine or_congr ?_ (or_congr (by rw [own, own']) Iff.rfl)
      rw [List.mem_cons, List.mem_cons, (others p here).1]
      rfl
  · intro e mem here
    rw [here, about e mem] at beside
    exact inv.not_beside own beside
  · intro p beside notMine
    have here : p ≠ n := fun here => notMine (here ▸ own')
    obtain ⟨whole, absent⟩ := inv.settled_beside (t := t) beside fun other =>
      here (Option.some.inj (own.symm.trans other)).symm
    have unlogged : status (events ++ m.log) p = status m.log p :=
      status_append_of_ne fun e mem => (about e mem).symm ▸ here
    refine ⟨?_, ?_⟩
    · intro listed
      rw [unlogged, (others p here).2, same.height, marks, same.keyOf]
      exact whole ((others p here).1.mp listed)
    · intro out
      rw [unlogged]
      exact absent (mt (others p here).1.mpr out)

/-- **The mark of `remove`**, with the guard of the node released. -/
theorem Machine.Inv.mark {c : Nat} (inv : m.Inv lt xs lh) (held : (m.threads t).held = [c])
    (ownsNone : (m.threads t).own = none) (listed : c ∈ xs) (unmarked : (m.list.memory c).marked = false)
    (full : (m.list.memory c).fullyLinked = true)
    (knows : thread'.Inv lt (m.list.modify c fun n => { n with marked := true, locked := false }) xs lh)
    (held' : thread'.held = []) (own' : thread'.own = some c) (status' : ∀ key, thread'.status key = .marked) :
    (m.after t (m.list.modify c fun n => { n with marked := true, locked := false }) thread'
      [.marked c]).Inv lt xs lh := by
  have unowned := inv.unowned listed unmarked full
  have elsewhere : ∀ p ≠ c, (m.list.modify c fun n => { n with marked := true, locked := false }).memory p =
      m.list.memory p := fun p other => modify_of_ne c _ m.list other
  have notHead : m.list.head ≠ c := (ne_of_mem_of_not_mem listed inv.layers.nodup.1).symm
  have frame : Frame m t xs lh (m.list.modify c fun n => { n with marked := true, locked := false }) xs lh := by
    refine ⟨?_, fun _ _ p _ _ => .modify fun _ => ⟨rfl, rfl, id, fun _ => rfl⟩, ?_,
      fun u _ p theirs => .of_memory (elsewhere p fun here => unowned u (here ▸ theirs)) Iff.rfl⟩
    · show _ ≤ ((m.list.modify c _).memory m.list.head).height
      rw [elsewhere _ notHead]
      rfl
    · intro u other p theirs
      have away : p ≠ c := by
        rintro rfl
        exact other (inv.exclusive u t p theirs (held ▸ List.mem_cons_self))
      rw [elsewhere p away]
      exact ⟨.of_memory (elsewhere p away) id, (inv.guards u p theirs).1⟩
  refine inv.next frame ⟨knows, ?_, ?_⟩ (inv.layers.modify c rfl rfl rfl) ?_
    ?_ ?_ ⟨⟨_, ((inv.settled c unowned).whole listed).2.2⟩, inv.ordered⟩
    (fun p ⟨u, _, theirs⟩ => status_of_ne fun here : p = c => unowned u (here ▸ theirs))
    ?_
  · intro p mine
    rw [held'] at mine
    exact nomatch mine
  · intro p mine
    obtain rfl := Option.some.inj (own'.symm.trans mine)
    exact ⟨fun ⟨u, _, theirs⟩ => unowned u theirs, (if_pos rfl).trans (status' _).symm⟩
  · rw [modify_head, elsewhere _ notHead]
    exact inv.head
  · intro p new
    rw [elsewhere p fun here => Nat.not_le_of_lt (inv.layers.allocated c listed) (here ▸ new)]
    exact inv.fresh p new
  · apply ((inv.stock_beside t).modify c rfl).mono
    intro p used
    rcases used with inList | mine | beside
    · exact .inl inList
    · exact .inl (List.mem_cons_of_mem _ (Option.some.inj (own'.symm.trans mine) ▸ listed))
    · exact .inr (.inr beside)
  · intro p beside mine
    have away : p ≠ c := fun here => mine (here ▸ own')
    obtain ⟨whole, absent⟩ := inv.settled_beside (t := t) beside (by rw [ownsNone]; exact nofun)
    have unlogged : status ([.marked c] ++ m.log) p = status m.log p := status_of_ne away
    refine ⟨?_, ?_⟩
    · intro listed
      rw [unlogged, keyOf, elsewhere p away]
      exact whole listed
    · intro out
      rw [unlogged]
      exact absent out

/-! ### The recycler -/

section Recycler

variable [Inhabited T] {h : Nat} {isHead : Bool}

/-- A node that the recycler handed out, and that nobody but the thread has. -/
structure HandedOut (m : Machine T) (t : Nat) (xs : List Nat) (h : Nat) (isHead : Bool)
    (s' : ConcurrentSkipList T) (n : Nat) : Prop where
  popped : Popped h isHead m.list s' n
  outside : n ∉ m.list.head :: xs
  unowned : ∀ u, (m.threads u).own ≠ some n
  height : (s'.memory n).height = h
  stock : Stock s' fun q => m.InUse t (m.list.head :: xs) (m.threads t).own q ∨ q = n
  memory : ∀ u p, (m.threads u).Holds p → Live m.list xs p → s'.memory p = m.list.memory p

theorem HandedOut.cleared (handed : HandedOut m t xs h isHead s' n) :
    (s'.memory n).marked = false ∧ (s'.memory n).fullyLinked = false := by
  obtain ⟨node, -, made⟩ := handed.popped.node
  rw [made]
  exact ⟨rfl, rfl⟩

/-- The node is one that no thread has a pointer to, if the step is exclusive. -/
theorem Machine.Inv.hands_out (inv : m.Inv lt xs lh) (pops : m.list.pop h isHead = some (s', n))
    (exclusive : m.Exclusive t) (popping : (m.threads t).popping = some h)
    (mine : ∀ p, (m.threads t).Holds p → Live m.list xs p → p ∉ m.list.nodeQueues h) :
    HandedOut m t xs h isHead s' n := by
  obtain ⟨s₁, n₁, pops', popped, free, height, stock⟩ := pop_spec (inv.stock_beside t) (pop_small pops) isHead
  obtain ⟨rfl, rfl⟩ := Prod.mk.inj (Option.some.inj (pops.symm.trans pops'))
  refine ⟨popped, fun listed => free (.inl listed), ?_, height, stock, ?_⟩
  · intro u theirs
    by_cases here : u = t
    · exact free (.inr (.inl (here ▸ theirs)))
    · exact free (.inr (.inr ⟨u, here, theirs⟩))
  · intro u p pointer live
    refine popped.old (inv.live_allocated live) ?_
    rintro rfl
    obtain ⟨node, ⟨-, first⟩ | ⟨new, -⟩, -⟩ := popped.node
    · by_cases here : u = t
      · exact mine p (here ▸ pointer) live (List.mem_of_mem_head? first)
      · exact exclusive h p popping first u here pointer
    · exact Nat.not_le_of_lt (inv.live_allocated live) new

/-- **A node is popped.** -/
theorem Machine.Inv.pop (inv : m.Inv lt xs lh) (handed : HandedOut m t xs h isHead s' n)
    (ownsNone : (m.threads t).own = none) (knows : thread'.Inv lt s' xs lh)
    (held : thread'.held = (m.threads t).held) (own' : thread'.own = some n)
    (status' : ∀ key, thread'.status key = .absent) : (m.after t s' thread' []).Inv lt xs lh := by
  have popped := handed.popped
  have outHead : m.list.head ≠ n := fun same => handed.outside (same ▸ List.mem_cons_self)
  have outList : n ∉ xs := fun listed => handed.outside (List.mem_cons_of_mem _ listed)
  have head : s'.memory m.list.head = m.list.memory m.list.head :=
    popped.old (inv.listed_allocated List.mem_cons_self) outHead
  have atGuard : ∀ u, ∀ p ∈ (m.threads u).held, s'.memory p = m.list.memory p := fun u p theirs =>
    handed.memory u p (Local.holds_of_held theirs) (inv.guards u p theirs).2
  have frame : Frame m t xs lh s' xs lh := by
    refine ⟨?_, fun u _ p pointer live => .of_memory (handed.memory u p pointer live) popped.head,
      fun u _ p theirs => ⟨.of_memory (atGuard u p theirs) fun here => here.trans popped.head.symm, ?_⟩,
      fun u _ p theirs => .of_memory (popped.old (inv.own_allocated theirs) ?_) (by rw [popped.head])⟩
    · rw [height, height, popped.head, head]
    · rw [atGuard u p theirs]
      exact (inv.guards u p theirs).1
    · rintro rfl
      exact handed.unowned u theirs
  refine inv.next frame ⟨knows, ?_, ?_⟩
    (inv.layers.popped popped handed.outside (inv.listed_allocated List.mem_cons_self)) ?_ ?_ ?_
    inv.ordered (fun _ _ => rfl) ?_
  · intro p mine
    rw [held] at mine
    rw [atGuard t p mine]
    obtain ⟨locked, live⟩ := inv.guards t p mine
    have kept : Keeps m.list xs lh s' xs lh p := .of_memory (atGuard t p mine) popped.head
    exact ⟨locked, live.stable kept,
      fun u other theirs => other (inv.exclusive u t p theirs mine)⟩
  · intro p mine
    obtain rfl := Option.some.inj (own'.symm.trans mine)
    exact ⟨fun ⟨u, _, theirs⟩ => handed.unowned u theirs,
      ((inv.settled n handed.unowned).absent outList).trans (status' _).symm⟩
  · rw [popped.head, head]
    exact inv.head
  · intro p new
    have away : p ≠ n := fun here => Nat.not_le_of_lt (handed.stock.allocated n (.inr rfl)) (here ▸ new)
    rcases popped.other p away with same | ⟨-, made⟩
    · rw [same]
      exact inv.fresh p (Nat.le_trans popped.grows new)
    · rw [made]
      exact ⟨rfl, rfl⟩
  · apply handed.stock.mono
    intro p used
    rw [popped.head] at used
    rcases used with listed | mine | beside
    · exact .inl (.inl listed)
    · exact .inr (Option.some.inj (own'.symm.trans mine)).symm
    · exact .inl (.inr (.inr beside))
  · intro p beside mine
    obtain ⟨whole, absent⟩ := inv.settled_beside (t := t) beside (by rw [ownsNone]; exact nofun)
    refine ⟨?_, absent⟩
    intro listed
    have away : p ≠ n := fun here => outList (here ▸ listed)
    rw [keyOf, popped.old (inv.layers.allocated p listed) away]
    exact whole listed

/-- **A node is pushed.** -/
theorem Machine.Inv.push (inv : m.Inv lt xs lh) (own : (m.threads t).own = some n)
    (outside : n ∉ m.list.head :: xs) (absent : ∀ key, (m.threads t).status key = .absent)
    (knows : thread'.Inv lt m.list xs lh) (held : thread'.held = []) (own' : thread'.own = none) :
    (m.after t (m.list.enqueue (m.list.memory n).height n) thread' []).Inv lt xs lh := by
  have frame : Frame m t xs lh (m.list.enqueue (m.list.memory n).height n) xs lh :=
    ⟨Nat.le_refl _, fun _ _ _ _ _ => .of_memory rfl rfl,
      fun u _ p theirs => ⟨.of_memory rfl id, (inv.guards u p theirs).1⟩, fun _ _ _ _ => .of_memory rfl Iff.rfl⟩
  have knows' : thread'.Inv lt (m.list.enqueue (m.list.memory n).height n) xs lh :=
    knows.stable frame.height (fun _ _ _ => .of_memory rfl rfl) (fun _ _ => .of_memory rfl id)
      fun _ _ => .of_memory rfl Iff.rfl
  refine inv.next frame ⟨knows', ?_, ?_⟩
    (inv.layers.of_memory rfl rfl (Nat.le_refl _)) inv.head inv.fresh ?_ inv.ordered (fun _ _ => rfl)
    ?_
  · intro p mine
    rw [held] at mine
    exact nomatch mine
  · intro p mine
    rw [own'] at mine
    exact nomatch mine
  · apply ((inv.stock_beside t).enqueue rfl (.inr (.inl own))).mono
    intro p used
    rcases used with listed | mine | beside
    · exact ⟨.inl listed, ne_of_mem_of_not_mem listed outside⟩
    · rw [own'] at mine
      exact nomatch mine
    · refine ⟨.inr (.inr beside), ?_⟩
      rintro rfl
      exact inv.not_beside own beside
  · intro p beside mine
    by_cases here : p = n
    · subst here
      exact ⟨fun listed => absurd (List.mem_cons_of_mem _ listed) outside,
        fun _ => (inv.owned t p own).trans (absent _)⟩
    · obtain ⟨whole, absent⟩ := inv.settled_beside (t := t) beside fun other =>
        here (Option.some.inj (own.symm.trans other)).symm
      exact ⟨whole, absent⟩

/-! ### The head -/

/-- **The new head takes the place of the old one**, whose guard is released. -/
theorem Machine.Inv.exchange {newHead : Nat} (inv : m.Inv lt xs lh) (own : (m.threads t).own = some newHead)
    (held : (m.threads t).held = [m.list.head]) (dead : ¬ Live m.list xs newHead)
    (higher : m.list.height < (m.list.memory newHead).height)
    (absent : ∀ key, (m.threads t).status key = .absent) :
    (m.after t (m.list.exchangeHead newHead m.list.head).1 (.growPush m.list.head) []).Inv lt xs lh := by
  have notOld : newHead ≠ m.list.head := fun same => dead (.inr (.inl same))
  have outside : newHead ∉ m.list.head :: xs := fun listed => dead (.inr (List.mem_cons.mp listed))
  have layers := inv.layers.exchangeHead outside higher
  obtain ⟨s', exchanges, head, next, queues, -, atOld, atNew, elsewhere⟩ := exchangeHead_eq newHead notOld
  rw [exchanges] at layers ⊢
  have copied : s'.memory newHead = { m.list.memory newHead with
      isHead := (m.list.memory m.list.head).isHead
      marked := (m.list.memory m.list.head).marked
      fullyLinked := (m.list.memory m.list.head).fullyLinked
      skip := (s'.memory newHead).skip } := by
    rw [atNew, copyHead, modify_self]
  have top : s'.height = (m.list.memory newHead).height := by
    rw [ConcurrentSkipList.height, head, copied]
  have notLive : ∀ p, Live m.list xs p → p ≠ newHead := fun p live same => dead (same ▸ live)
  have atGuard : ∀ u ≠ t, ∀ p ∈ (m.threads u).held, p ≠ m.list.head ∧ s'.memory p = m.list.memory p := by
    intro u other p theirs
    have away : p ≠ m.list.head := by
      rintro rfl
      exact other (inv.exclusive u t _ theirs (held ▸ List.mem_cons_self))
    exact ⟨away, elsewhere p away (notLive p (inv.guards u p theirs).2)⟩
  have frame : Frame m t xs lh s' xs lh := by
    refine ⟨top ▸ Nat.le_of_lt higher, ?_, ?_, ?_⟩
    · intro u _ p _ live
      by_cases here : p = m.list.head
      · subst here
        exact ⟨by rw [keyOf, atOld]; rfl, by rw [atOld], by rw [atOld]; exact id, fun _ => by rw [atOld],
          fun _ => .inr (by rw [atOld]), .inl, fun _ mem linked => .inl ⟨mem, linked⟩⟩
      · exact (SameButLock.of_memory (elsewhere p here (notLive p live))).keeps fun atHead => absurd atHead here
    · intro u other p theirs
      obtain ⟨away, same⟩ := atGuard u other p theirs
      rw [same]
      exact ⟨.of_memory same fun here => absurd here away, (inv.guards u p theirs).1⟩
    · intro u other p theirs
      have away := inv.own_ne_head theirs
      have notMine : p ≠ newHead := by
        rintro rfl
        exact inv.not_beside own ⟨u, other, theirs⟩
      exact .of_memory (elsewhere p away notMine) (by rw [head]; exact iff_of_false notMine away)
  have headAllocated := inv.listed_allocated (p := m.list.head) List.mem_cons_self
  refine inv.next frame ⟨⟨?_, ?_⟩, (fun p mine => by cases mine), ?_⟩ layers ?_ ?_ ?_
    inv.ordered (fun _ _ => rfl) ?_
  · rw [atOld]
  · rw [head]
    exact fun mem => (List.mem_cons.mp mem).elim (fun same => notOld same.symm) inv.layers.nodup.1
  · intro p mine
    cases mine
    constructor
    · rintro ⟨u, -, theirs⟩
      exact inv.own_ne_head theirs rfl
    · exact (inv.settled _ fun u theirs => inv.own_ne_head theirs rfl).absent inv.layers.nodup.1
  · rw [head, copied]
    exact inv.head
  · intro p new
    rw [next] at new
    rw [elsewhere p (fun here => Nat.not_le_of_lt headAllocated (here ▸ new))
      fun here => Nat.not_le_of_lt (inv.own_allocated own) (here ▸ new)]
    exact inv.fresh p new
  · refine (inv.stock_beside t).congr queues next ?_ ?_
    · intro p
      by_cases old : p = m.list.head
      · rw [old, atOld]
      · by_cases new : p = newHead
        · rw [new, copied]
        · rw [elsewhere p old new]
    · intro p
      -- Old head and new head change places.
      rw [InUse, InUse, head, own, List.mem_cons, List.mem_cons, Local.own, Option.some.injEq, Option.some.injEq]
      constructor
      · rintro ((here | listed) | here | beside)
        exacts [.inr (.inl here.symm), .inl (.inr listed), .inl (.inl here.symm), .inr (.inr beside)]
      · rintro ((here | listed) | here | beside)
        exacts [.inr (.inl here.symm), .inl (.inr listed), .inl (.inl here.symm), .inr (.inr beside)]
  · intro p beside mine
    have away : p ≠ m.list.head := fun same => mine (congrArg some same.symm)
    by_cases here : p = newHead
    · subst here
      exact ⟨fun listed => absurd (List.mem_cons_of_mem _ listed) outside,
        fun _ => (inv.owned t p own).trans (absent _)⟩
    · obtain ⟨whole, absent⟩ := inv.settled_beside (t := t) beside fun other =>
        here (Option.some.inj (own.symm.trans other)).symm
      refine ⟨?_, absent⟩
      intro listed
      rw [keyOf, elsewhere p away here]
      exact whole listed

/-- What `exchangeHead` writes when the old head is not the head any more. -/
theorem exchangeHead_late (newHead : Nat) {oldHead : Nat} (late : s.head ≠ oldHead) (other : newHead ≠ oldHead) :
    ∃ s', s.exchangeHead newHead oldHead = (s', false) ∧ s'.head = s.head ∧
      s'.nextAddress = s.nextAddress ∧ s'.nodeQueues = s.nodeQueues ∧
      s'.memory newHead = .create 0 default ∧
      s'.memory oldHead = { s.memory oldHead with locked := false } ∧
      ∀ q, q ≠ oldHead → q ≠ newHead → s'.memory q = s.memory q := by
  refine ⟨_, if_neg late, rfl, rfl, rfl, ?_, ?_, ?_⟩
  · rw [releaseGuard, modify_of_ne _ _ _ other, destroy, modify_self]
  · rw [releaseGuard, modify_self, destroy, modify_of_ne _ _ _ other.symm, copyHead,
      modify_of_ne _ _ _ other.symm]
  · intro q old new
    rw [releaseGuard, modify_of_ne _ _ _ old, destroy, modify_of_ne _ _ _ new, copyHead,
      modify_of_ne _ _ _ new]

/-- **Another thread was first**: the new head is destroyed, the guard released. -/
theorem Machine.Inv.discard {newHead oldHead : Nat} (inv : m.Inv lt xs lh)
    (own : (m.threads t).own = some newHead) (held : (m.threads t).held = [oldHead])
    (dead : ¬ Live m.list xs newHead) (late : m.list.head ≠ oldHead)
    (absent : ∀ key, (m.threads t).status key = .absent) :
    (m.after t (m.list.exchangeHead newHead oldHead).1 .idle []).Inv lt xs lh := by
  have liveOld : Live m.list xs oldHead := (inv.guards t oldHead (held ▸ List.mem_cons_self)).2
  have notLive : ∀ p, Live m.list xs p → p ≠ newHead := fun p live same => dead (same ▸ live)
  obtain ⟨s', exchanges, head, next, queues, atNew, atOld, elsewhere⟩ :=
    exchangeHead_late newHead late (notLive oldHead liveOld).symm
  rw [exchanges]
  have node : ∀ p ≠ newHead, SameButLock m.list s' p := by
    intro p away
    by_cases here : p = oldHead
    · rw [here, SameButLock, atOld]
    · exact .of_memory (elsewhere p here away)
  have listed : ∀ p ∈ m.list.head :: xs, p ≠ newHead := fun p mem =>
    notLive p (.inr (List.mem_cons.mp mem))
  have theirs_ne : ∀ u ≠ t, ∀ p, (m.threads u).own = some p → p ≠ newHead := by
    rintro u other p theirs rfl
    exact inv.not_beside own ⟨u, other, theirs⟩
  have frame : Frame m t xs lh s' xs lh := by
    refine ⟨?_, fun u _ p _ live => (node p (notLive p live)).keeps fun here => .inl (here.trans head.symm),
      ?_, fun u other p theirs => (node p (theirs_ne u other p theirs)).apart (by rw [head])⟩
    · rw [ConcurrentSkipList.height, ConcurrentSkipList.height, head, (node _ (listed _ List.mem_cons_self)).high]
    · intro u other p theirs
      obtain ⟨locked, live⟩ := inv.guards u p theirs
      have away : p ≠ oldHead := by
        rintro rfl
        exact other (inv.exclusive u t p theirs (held ▸ List.mem_cons_self))
      have same := elsewhere p away (notLive p live)
      rw [same]
      exact ⟨.of_memory same fun here => here.trans head.symm, locked⟩
  have layers : Layers lt s' xs lh := by
    refine inv.layers.congr head (fun p mem => (node p (listed p mem)).high)
      (fun p mem l => (node p (listed p mem)).links l)
      (fun p mem => (node p (listed p (List.mem_cons_of_mem _ mem))).keyOf) (Nat.le_of_eq next.symm)
      fun p above l => ?_
    have away : p ≠ newHead := by
      rintro rfl
      rw [atNew] at above
      cases above
    rw [(node p away).high] at above
    rw [(node p away).links, inv.layers.clean p above l]
  refine inv.next frame ⟨trivial, (fun p mine => by cases mine), (fun p mine => by cases mine)⟩ layers ?_
    ?_ ?_ inv.ordered (fun _ _ => rfl) ?_
  · have same := node _ (listed _ List.mem_cons_self)
    rw [head, same.marked, same.full]
    exact inv.head
  · intro p new
    rw [next] at new
    rw [elsewhere p (fun here => Nat.not_le_of_lt (inv.live_allocated liveOld) (here ▸ new))
      fun here => Nat.not_le_of_lt (inv.own_allocated own) (here ▸ new)]
    exact inv.fresh p new
  · -- The new head is in no queue: its height may change.
    have stock := inv.stock_beside t
    have fewer : ∀ p, m.InUse t (s'.head :: xs) none p → m.InUse t (m.list.head :: xs) (m.threads t).own p := by
      rintro p (mem | mine | beside)
      · exact .inl (head ▸ mem)
      · cases mine
      · exact .inr (.inr beside)
    refine ⟨?_, fun h => queues ▸ stock.distinct h, fun p used => next ▸ stock.allocated p (fewer p used)⟩
    intro h p mem
    rw [queues] at mem
    obtain ⟨height, allocated, free⟩ := stock.queued h p mem
    have away : p ≠ newHead := fun here => free (.inr (.inl (here ▸ own)))
    exact ⟨(node p away).high.trans height, next ▸ allocated, mt (fewer p) free⟩
  · intro p beside _
    by_cases here : p = newHead
    · subst here
      exact ⟨fun mem => absurd rfl (listed p (List.mem_cons_of_mem _ mem)),
        fun _ => (inv.owned t p own).trans (absent _)⟩
    · obtain ⟨whole, absent⟩ := inv.settled_beside (t := t) beside fun other =>
        here (Option.some.inj (own.symm.trans other)).symm
      refine ⟨?_, absent⟩
      intro mem
      rw [(node p here).high, (node p here).marked, (node p here).keyOf]
      exact whole mem

end Recycler

end Hcl.ConcurrentSkipList
