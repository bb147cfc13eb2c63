import Hcl.SkipList.Calls

/-!
Steps of a thread, and the atomic set that follows.

`Beside` describes the steps that leave the calls of the other threads where they are. The two
that do not are the one that says that a new node is fully linked, and the one that marks a node:
they decide the calls of the threads that wait for the node or were about to mark it.
-/

namespace Hcl.ConcurrentSkipList

open Hcl.Lib

variable {T : Type} {lt : T → T → Prop} {maxHeight : Nat} {m : Machine T} {t : Nat} {xs : List Nat}
  {lh : Nat → Nat} {s s' : ConcurrentSkipList T} {thread' : Local T} {events : List (Event T)}

/-! ### What a step leaves of a node -/

structure Spared (s s' : ConcurrentSkipList T) (p : Nat) : Prop where
  data : s'.keyOf p = s.keyOf p
  height : (s'.memory p).height = (s.memory p).height
  marked : (s.memory p).marked = true → (s'.memory p).marked = true

theorem Spared.of_core {p : Nat} (same : core (s'.memory p) = core (s.memory p)) : Spared s s' p := by
  obtain ⟨marked, -, height, data⟩ := core_eq same
  exact ⟨data, height, marked.trans⟩

/-- The new node that a step may write to as a whole. -/
def Local.scratch : Local T → Option Nat
  | .addStore _ _ _ _ newNode => some newNode
  | .growExchange _ newHead => some newHead
  | _ => none

/-- The node that `remove` has found. -/
def Local.candidate : Local T → Option Nat
  | .removeCheck _ _ _ candidate => some candidate
  | .removeGuard _ _ _ candidate => some candidate
  | .removeMark _ _ _ candidate => some candidate
  | _ => none

theorem Local.own_of_scratch {thread : Local T} {p : Nat} (scratch : thread.scratch = some p) :
    thread.own = some p := by
  cases thread with
  | addStore | growExchange => exact scratch
  | _ => cases scratch

theorem Local.not_live_of_scratch {thread : Local T} {p : Nat} (inv : thread.Inv lt s xs lh)
    (scratch : thread.scratch = some p) : ¬ Live s xs p := by
  cases thread with
  | addStore =>
      cases scratch
      rintro (marked | head | listed)
      · rw [inv.2.2.marked] at marked
        cases marked
      · exact inv.2.2.head head
      · exact absurd (inv.2.2.list.mp listed) (Nat.lt_irrefl 0)
  | growExchange =>
      cases scratch
      exact inv.2.2
  | _ => cases scratch

/-! ### Calls of the other threads -/

/-- The nodes on which it depends where a call stands. -/
def Machine.Regards (m : Machine T) (thread : Local T) (p : Nat) : Prop :=
  thread.awaits = some p ∧ m.Shows p ∨ thread.candidate = some p ∨ thread.grows = some p

/-- What a step of `t` leaves of all nodes but its own new one and the one it is handed, it leaves
of those on which the calls of the others depend. -/
theorem Machine.Inv.spared_beside {u : Nat} (inv : m.Inv lt xs lh) (unshared : m.Unshared t) (other : u ≠ t)
    (kept : ∀ p < m.list.nextAddress, ¬ m.HandsOut t p → (m.threads t).scratch ≠ some p → Spared m.list s' p)
    (p : Nat) (regards : m.Regards (m.threads u) p) : Spared m.list s' p := by
  have live : Live m.list xs p → ¬ m.HandsOut t p → Spared m.list s' p := fun live kept' =>
    kept p (inv.live_allocated live) kept' fun scratch =>
      Local.not_live_of_scratch (inv.threads t) scratch live
  rcases regards with ⟨awaits, shown⟩ | candidate | grows
  · exact live (inv.live_of_shows shown) fun handed => (unshared p handed u other).2 awaits
  · have knows := inv.threads u
    refine live ?_ fun handed => (unshared p handed u other).1 ?_
    · cases here : m.threads u with
      | removeCheck =>
          rw [here] at candidate knows
          cases candidate
          exact Candidate.live knows
      | removeGuard | removeMark =>
          rw [here] at candidate knows
          cases candidate
          exact knows.1.live
      | _ =>
          rw [here] at candidate
          cases candidate
    · cases here : m.threads u with
      | removeCheck | removeGuard | removeMark =>
          rw [here] at candidate
          cases candidate
          exact .inr rfl
      | _ =>
          rw [here] at candidate
          cases candidate
  · have own := Local.own_of_grows grows
    refine kept p (inv.own_allocated own) (inv.not_handsOut (.inr ⟨u, own⟩)) fun scratch => other ?_
    exact inv.owners u t p own (Local.own_of_scratch scratch)

/-- A call stands where it stood if the nodes it depends on do. -/
theorem Machine.Stands.stable {m' : Machine T} {thread : Local T} {c : Atomic.Status (Call T) Bool}
    (stands : m.Stands lt thread c)
    (kept : ∀ p, m.Regards thread p → Spared m.list m'.list p)
    (shows : ∀ p, m.Shows p → thread.awaits = some p → m'.Shows p)
    (waits : ∀ p, thread = .addWait p → (∃ t, (m.threads t).published = some p) →
      ∃ t, (m'.threads t).published = some p)
    (linked : ∀ p x, thread.candidate = some p → status m.log p = .linked x → status m'.log p = .linked x) :
    m'.Stands lt thread c := by
  cases thread with
  | addFound x n =>
      obtain ⟨called, shown, same⟩ := stands
      refine ⟨called, shows n shown rfl, ?_⟩
      rw [(kept n (.inl ⟨rfl, shown⟩)).data]
      exact same
  | addWait n =>
      rcases stands with done | ⟨x, called, same, published⟩
      · exact .inl done
      · refine .inr ⟨x, called, ?_, waits n rfl published⟩
        rw [(kept n (.inl ⟨rfl, .inr (.inr published)⟩)).data]
        exact same
  | addPrepare _ _ _ n _ | addPublish _ _ _ n _ | addFinish _ n =>
      have key := (kept n (.inr (.inr rfl))).data
      simp only [Machine.Stands, key] at stands ⊢
      exact stands
  | guard change | validate change | retry change => cases change <;> exact stands
  | removeCheck x point layer n =>
      have keeps := kept n (.inr (.inl rfl))
      rcases stands with ⟨called, height, logged⟩ | ⟨done, lost⟩
      · refine .inl ⟨called, keeps.height.trans height, ?_⟩
        rw [keeps.data]
        exact linked n _ rfl logged
      · refine .inr ⟨done, lost.imp keeps.marked fun other => ?_⟩
        rw [keeps.height]
        exact other
  | removeGuard x point layer n | removeMark x point layer n =>
      have keeps := kept n (.inr (.inl rfl))
      rcases stands with ⟨called, logged⟩ | ⟨done, marked⟩
      · refine .inl ⟨called, ?_⟩
        rw [keeps.data]
        exact linked n _ rfl logged
      · exact .inr ⟨done, keeps.marked marked⟩
  | _ => exact stands

/-- A step of thread `t` that decides no call of another thread. -/
structure Beside (m : Machine T) (t : Nat) (s' : ConcurrentSkipList T) (thread' : Local T)
    (events : List (Event T)) : Prop where
  kept : ∀ p < m.list.nextAddress, ¬ m.HandsOut t p → (m.threads t).scratch ≠ some p → Spared m.list s' p
  events : ∀ e ∈ events, (m.threads t).own = some e.node ∧ thread'.own = some e.node ∧
    ∀ x, status m.log e.node ≠ .linked x
  own : ∀ p x, thread'.own = some p → status m.log p = .linked x → (m.threads t).own = some p
  left : ∀ p x, (m.threads t).own = some p → status m.log p = .linked x → thread'.own = some p
  published : ∀ p, (m.threads t).published = some p → thread'.published = some p

/-- A linked node stays so. -/
theorem Beside.linked (beside : Beside m t s' thread' events) {p : Nat} {x : T}
    (linked : status m.log p = .linked x) : status (events ++ m.log) p = .linked x := by
  rw [status_append_of_ne, linked]
  intro e mem same
  exact (beside.events e mem).2.2 x (same ▸ linked)

theorem Beside.keys (beside : Beside m t s' thread' events) : (m.after t s' thread' events).keys = m.keys := by
  have self : (m.after t s' thread' events).threads t = thread' := Machine.after_threads_self
  have others : ∀ u ≠ t, (m.after t s' thread' events).threads u = m.threads u := fun u other =>
    Machine.after_threads_of_ne other
  ext x
  constructor
  · rintro ⟨p, linked, free⟩
    have mine : thread'.own ≠ some p := self ▸ free t
    have apart : ∀ e ∈ events, p ≠ e.node := by
      rintro e mem rfl
      exact mine (beside.events e mem).2.1
    have before : status m.log p = .linked x := (status_append_of_ne apart).symm.trans linked
    refine ⟨p, before, fun u own => ?_⟩
    by_cases here : u = t
    · rw [here] at own
      exact mine (beside.left p x own before)
    · exact free u (others u here ▸ own)
  · rintro ⟨p, linked, free⟩
    refine ⟨p, beside.linked linked, fun u own => ?_⟩
    by_cases here : u = t
    · rw [here, self] at own
      exact free t (beside.own p x own linked)
    · exact free u (others u here ▸ own)

/-- What shows stays so. -/
theorem Beside.shows (beside : Beside m t s' thread' events) {p : Nat}
    (shows : m.Shows p) (kept : Spared m.list s' p) : (m.after t s' thread' events).Shows p := by
  rcases shows with marked | ⟨x, linked⟩ | ⟨u, published⟩
  · exact .inl (kept.marked marked)
  · exact .inr (.inl ⟨x, beside.linked linked⟩)
  · refine .inr (.inr ⟨u, ?_⟩)
    by_cases here : u = t
    · rw [here, Machine.after_threads_self]
      exact beside.published p (here ▸ published)
    · rw [Machine.after_threads_of_ne here]
      exact published

/-- The calls of the other threads stand where they stood. -/
theorem Beside.stands (beside : Beside m t s' thread' events) (inv : m.Inv lt xs lh) (unshared : m.Unshared t)
    {u : Nat} (other : u ≠ t) {c : Atomic.Status (Call T) Bool} (stands : m.Stands lt (m.threads u) c) :
    (m.after t s' thread' events).Stands lt ((m.after t s' thread' events).threads u) c := by
  have kept := inv.spared_beside unshared other beside.kept
  rw [Machine.after_threads_of_ne other]
  refine stands.stable kept ?_ ?_ fun p x _ linked => beside.linked linked
  · exact fun p shown awaits => beside.shows shown (kept p (.inl ⟨awaits, shown⟩))
  · rintro p - ⟨v, published⟩
    refine ⟨v, ?_⟩
    by_cases here : v = t
    · rw [here, Machine.after_threads_self]
      exact beside.published p (here ▸ published)
    · rw [Machine.after_threads_of_ne here]
      exact published

/-! ### The set -/

/-- The set after a node is said to be fully linked. -/
theorem Machine.Inv.keys_finish {guards : List Nat} {n : Nat} (inv : m.Inv lt xs lh)
    (here : m.threads t = .addFinish guards n) :
    (m.after t s' (.addSize guards) []).keys = insert (m.list.keyOf n) m.keys := by
  have own : (m.threads t).own = some n := by rw [here]; rfl
  have linked : status m.log n = .linked (m.list.keyOf n) := by rw [inv.owned t n own, here]; rfl
  have self : (m.after t s' (.addSize guards) []).threads t = .addSize guards := Machine.after_threads_self
  have others : ∀ u ≠ t, (m.after t s' (.addSize guards) []).threads u = m.threads u := fun u other =>
    Machine.after_threads_of_ne other
  ext x
  constructor
  · rintro ⟨p, logged, free⟩
    have logged : status m.log p = .linked x := logged
    by_cases new : p = n
    · rw [new, linked] at logged
      exact .inl (Status.linked.inj logged).symm
    · refine .inr ⟨p, logged, fun u mine => ?_⟩
      by_cases same : u = t
      · rw [same, own] at mine
        exact new (Option.some.inj mine).symm
      · exact free u (others u same ▸ mine)
  · rintro (rfl | ⟨p, logged, free⟩)
    · refine ⟨n, linked, fun u mine => ?_⟩
      by_cases same : u = t
      · rw [same, self] at mine
        cases mine
      · rw [others u same] at mine
        exact same (inv.owners u t n mine own)
    · refine ⟨p, logged, fun u mine => ?_⟩
      by_cases same : u = t
      · rw [same, self] at mine
        cases mine
      · rw [others u same] at mine
        exact free u mine

/-- The set after a node is marked. -/
theorem Machine.Inv.keys_mark [IsStrictWeakOrder T lt] [DecidableRel lt] {x : T} {point : InsertionPoint}
    {layer n : Nat} (inv : m.Inv lt xs lh) (here : m.threads t = .removeMark x point layer n)
    (linked : status m.log n = .linked (m.list.keyOf n)) (same : IncompRel lt (m.list.keyOf n) x)
    (owns : thread'.own = some n) :
    (m.after t s' thread' [.marked n]).keys = {y ∈ m.keys | ¬ IncompRel lt y x} := by
  have self : (m.after t s' thread' [.marked n]).threads t = thread' := Machine.after_threads_self
  have others : ∀ u ≠ t, (m.after t s' thread' [.marked n]).threads u = m.threads u := fun u other =>
    Machine.after_threads_of_ne other
  have log : (m.after t s' thread' [.marked n]).log = .marked n :: m.log := rfl
  have listed := (inv.of_linked linked).1
  ext y
  constructor
  · rintro ⟨p, logged, free⟩
    have other : p ≠ n := by
      rintro rfl
      exact free t (by rw [self]; exact owns)
    rw [log, status_of_ne (e := .marked n) other] at logged
    obtain ⟨mem, -, key⟩ := inv.of_linked logged
    refine ⟨⟨p, logged, fun u mine => ?_⟩, fun equal => other ?_⟩
    · by_cases mine' : u = t
      · rw [mine', here] at mine
        cases mine
      · exact free u (others u mine' ▸ mine)
    · rw [← key] at equal
      exact inv.layers.ascending.unique mem listed equal same
  · rintro ⟨⟨p, logged, free⟩, apart⟩
    have other : p ≠ n := by
      rintro rfl
      rw [← (inv.of_linked logged).2.2] at apart
      exact apart same
    refine ⟨p, ?_, fun u mine => ?_⟩
    · rw [log, status_of_ne (e := .marked n) other]
      exact logged
    · by_cases mine' : u = t
      · rw [mine', self, owns] at mine
        exact other (Option.some.inj mine).symm
      · exact free u (others u mine' ▸ mine)

/-! ### Steps that decide no other call -/

/-- Thread `t` takes a step, and the atomic set follows: its call has taken effect by the time it
returns, with the answer it returns. -/
def Machine.Matched (lt : T → T → Prop) (m : Machine T) (t : Nat)
    (c : Atomic.Object (Set T) Nat (Call T) Bool) (thread' : Local T) (m' : Machine T) : Prop :=
  ∃ c', Atomic.Run (Atomic.Object.Step (SetSpec lt)) c [] c' ∧ c'.value = m'.keys ∧
    (∀ u ≠ t, m'.Stands lt (m'.threads u) (c'.status u)) ∧
    (thread' = .idle → c'.status t = .done (m.threads t).answer) ∧
    (thread' ≠ .idle → m'.Stands lt thread' (c'.status t))

section Matching

variable {c : Atomic.Object (Set T) Nat (Call T) Bool} (follows : m.Follows lt maxHeight c)
  (inv : m.Inv lt xs lh) (unshared : m.Unshared t)
include follows inv unshared

/-- A step after which the thread's own call stands where it stood. -/
theorem Beside.matched (beside : Beside m t s' thread' events)
    (ends : thread' = .idle → c.status t = .done (m.threads t).answer)
    (stands : thread' ≠ .idle → (m.after t s' thread' events).Stands lt thread' (c.status t)) :
    m.Matched lt t c thread' (m.after t s' thread' events) := by
  refine ⟨c, .start, ?_, ?_, ends, stands⟩
  · rw [beside.keys]
    exact follows.value
  · exact fun u other => beside.stands inv unshared other (follows.stands u)

/-- A step with which the thread's own call takes effect and changes nothing. -/
theorem Beside.matched_effect (beside : Beside m t s' thread' events) {call : Call T} {answer : Bool}
    (called : c.status t = .called call) (allowed : SetSpec lt m.keys call answer m.keys)
    (ends : thread' = .idle → answer = (m.threads t).answer)
    (stands : thread' ≠ .idle → (m.after t s' thread' events).Stands lt thread' (.done answer)) :
    m.Matched lt t c thread' (m.after t s' thread' events) := by
  rw [← follows.value] at allowed
  refine ⟨⟨c.value, Function.update c.status t (.done answer)⟩, .silent .start (.effect called allowed), ?_,
    ?_, ?_, ?_⟩
  · rw [beside.keys]
    exact follows.value
  · intro u other
    dsimp only
    rw [Function.update_of_ne other]
    exact beside.stands inv unshared other (follows.stands u)
  · intro idle
    rw [← ends idle]
    exact Function.update_self ..
  · intro busy
    dsimp only
    rw [Function.update_self]
    exact stands busy

/-! ### The steps that decide calls of others -/

omit inv unshared in
open Classical in
/-- A step with which the call of `t` takes effect, and after it those that have lost. -/
theorem Machine.Follows.decides {m' : Machine T} {call : Call T} (called : c.status t = .called call)
    (allowed : SetSpec lt m.keys call true m'.keys) (lost : Nat → Prop)
    (losers : ∀ u, lost u → u ≠ t ∧ m.threads u ≠ .idle ∧
      (∃ call, c.status u = .called call ∧ SetSpec lt m'.keys call false m'.keys) ∧
      m'.Stands lt (m'.threads u) (.done false))
    (stands : ∀ u ≠ t, ¬ lost u → m'.Stands lt (m'.threads u) (c.status u))
    (busy : thread' ≠ .idle) (mine : m'.Stands lt thread' (.done true)) : m.Matched lt t c thread' m' := by
  let decided : Nat → Option Bool := fun u => if lost u then some false else none
  rw [← follows.value] at allowed
  have first : Atomic.Object.Step (SetSpec lt) c none ⟨m'.keys, Function.update c.status t (.done true)⟩ :=
    .effect called allowed
  obtain ⟨bound, idle⟩ := follows.few
  have rest : Atomic.Run (Atomic.Object.Step (SetSpec lt)) ⟨m'.keys, Function.update c.status t (.done true)⟩ [] _ :=
    Atomic.Object.effects _ (List.range bound) decided (by
      intro u answer found
      have lost : lost u ∧ answer = false := by
        simp only [decided] at found
        split at found
        · exact ⟨by assumption, (Option.some.inj found).symm⟩
        · cases found
      obtain ⟨lost, rfl⟩ := lost
      obtain ⟨other, busy, ⟨call, called, allowed⟩, -⟩ := losers u lost
      refine ⟨List.mem_range.mpr (Nat.lt_of_not_le fun late => busy (idle u late)), call, ?_, allowed⟩
      exact (Function.update_of_ne other ..).trans called)
  refine ⟨_, (Atomic.Run.one first).trans rest, rfl, ?_, fun contra => absurd contra busy, fun _ => ?_⟩
  · intro u other
    dsimp only [decided]
    rw [Function.update_of_ne other]
    by_cases gone : lost u
    · rw [if_pos gone]
      exact (losers u gone).2.2.2
    · rw [if_neg gone]
      exact stands u other gone
  · have kept : ¬ lost t := fun lost => (losers t lost).1 rfl
    dsimp only [decided]
    rw [if_neg kept, Function.update_self]
    exact mine

omit unshared in
/-- **Saying that a node is fully linked** adds its key to the set, and decides the calls that wait
for it. -/
theorem Machine.Follows.matched_finish [IsStrictWeakOrder T lt] [DecidableRel lt] {guards : List Nat} {n : Nat}
    (here : m.threads t = .addFinish guards n) :
    m.Matched lt t c (.addSize guards) (m.after t (m.list.setFullyLinked n) (.addSize guards) []) := by
  have own : (m.threads t).own = some n := by rw [here]; rfl
  have linked : status m.log n = .linked (m.list.keyOf n) := by rw [inv.owned t n own, here]; rfl
  have listed := (inv.of_linked linked).1
  have called : c.status t = .called (.add (m.list.keyOf n)) := by
    have stands := follows.stands t
    rwa [here] at stands
  have keys : (m.after t (m.list.setFullyLinked n) (.addSize guards) []).keys = insert (m.list.keyOf n) m.keys :=
    inv.keys_finish here
  have absent : ¬ Member lt m.keys (m.list.keyOf n) := by
    rw [inv.member_iff]
    rintro ⟨p, mem, free, same⟩
    obtain rfl := inv.layers.ascending.unique mem listed same ⟨irrefl _, irrefl _⟩
    exact free t own
  have kept : ∀ p, Spared m.list (m.list.setFullyLinked n) p := by
    intro p
    refine ⟨modify_keeps n _ m.list SkipListNode.data ?_ p, modify_keeps n _ m.list SkipListNode.height ?_ p,
      (modify_keeps n _ m.list SkipListNode.marked ?_ p).trans⟩ <;> rfl
  apply follows.decides called (.inr ⟨absent, rfl, keys⟩) fun u =>
    m.threads u = .addWait n ∧ c.status u ≠ .done false
  · rintro u ⟨waits, undecided⟩
    have stands := follows.stands u
    rw [waits] at stands
    obtain ⟨x, called, same, -⟩ := stands.resolve_left undecided
    have other : u ≠ t := by
      rintro rfl
      cases here.symm.trans waits
    refine ⟨other, ?_, ⟨.add x, called, .inl ⟨⟨m.list.keyOf n, ?_, same⟩, rfl, rfl⟩⟩, ?_⟩
    · rw [waits]
      intro idle
      cases idle
    · rw [keys]
      exact .inl rfl
    · rw [Machine.after_threads_of_ne other, waits]
      exact .inl rfl
  · intro u other kept'
    have stands := follows.stands u
    rw [Machine.after_threads_of_ne other]
    by_cases waits : m.threads u = .addWait n
    · -- The call was decided before.
      have done : c.status u = .done false := by
        by_contra undecided
        exact kept' ⟨waits, undecided⟩
      rw [waits, done]
      exact .inl rfl
    refine stands.stable (fun p _ => kept p) ?_ ?_ fun _ _ _ logged => logged
    · rintro p (marked | logged | ⟨v, published⟩) -
      · exact .inl ((kept p).marked marked)
      · exact .inr (.inl logged)
      · by_cases mine : v = t
        · rw [mine, here] at published
          obtain rfl := Option.some.inj published
          exact .inr (.inl ⟨_, linked⟩)
        · exact .inr (.inr ⟨v, by rw [Machine.after_threads_of_ne mine]; exact published⟩)
    · rintro p waits' ⟨v, published⟩
      refine ⟨v, ?_⟩
      by_cases mine : v = t
      · rw [mine, here] at published
        obtain rfl := Option.some.inj published
        exact absurd waits' waits
      · rw [Machine.after_threads_of_ne mine]
        exact published
  · intro contra
    cases contra
  · rfl

omit unshared in
/-- **Marking a node** takes its key from the set, and decides the calls that were about to mark
it. -/
theorem Machine.Follows.matched_mark [IsStrictWeakOrder T lt] [DecidableRel lt] {x : T} {point : InsertionPoint}
    {layer n : Nat} (here : m.threads t = .removeMark x point layer n)
    (unmarked : (m.list.memory n).marked = false) (owns : thread'.own = some n)
    (kept : ∀ p, Spared m.list s' p) (marks : (s'.memory n).marked = true) (busy : thread' ≠ .idle)
    (mine : (m.after t s' thread' [.marked n]).Stands lt thread' (.done true)) :
    m.Matched lt t c thread' (m.after t s' thread' [.marked n]) := by
  have knows := inv.threads t
  rw [here] at knows
  obtain ⟨found, full, -⟩ := knows
  have stands := follows.stands t
  rw [here] at stands
  obtain ⟨called, linked⟩ := stands.resolve_right fun lost => by
    rw [unmarked] at lost
    cases lost.2
  have listed := (inv.of_linked linked).1
  have keys : (m.after t s' thread' [.marked n]).keys = {y ∈ m.keys | ¬ IncompRel lt y x} :=
    inv.keys_mark here linked found.same owns
  have present : Member lt m.keys x := by
    rw [inv.member_iff]
    exact ⟨n, listed, (inv.full_iff follows.orderly linked).mp full, found.same⟩
  have log : (m.after t s' thread' [.marked n]).log = .marked n :: m.log := rfl
  have gone : ∀ u ≠ t, (m.threads u).candidate = some n → (m.after t s' thread' [.marked n]).Stands lt
      ((m.after t s' thread' [.marked n]).threads u) (.done false) := by
    intro u other candidate
    rw [Machine.after_threads_of_ne other]
    cases place : m.threads u with
    | removeCheck =>
        rw [place] at candidate
        cases candidate
        exact .inr ⟨rfl, .inl marks⟩
    | removeGuard | removeMark =>
        rw [place] at candidate
        cases candidate
        exact .inr ⟨rfl, marks⟩
    | _ =>
        rw [place] at candidate
        cases candidate
  apply follows.decides called (.inl ⟨present, rfl, keys⟩) fun u =>
    u ≠ t ∧ (m.threads u).candidate = some n ∧ c.status u ≠ .done false
  · rintro u ⟨other, candidate, undecided⟩
    have stands := follows.stands u
    -- Whoever has found the node looks for an equivalent key, and the set has none now.
    have absent : ∀ y, IncompRel lt (m.list.keyOf n) y →
        ¬ Member lt (m.after t s' thread' [.marked n]).keys y := by
      rintro y same ⟨z, mem, same'⟩
      rw [keys] at mem
      obtain ⟨p, mem', -, rfl⟩ := inv.mem_keys.mp mem.1
      obtain rfl := inv.layers.ascending.unique mem' listed same' same
      exact mem.2 found.same
    have knows := inv.threads u
    refine ⟨other, ?_, ?_, gone u other candidate⟩
    · intro idle
      rw [idle] at candidate
      cases candidate
    · cases place : m.threads u with
      | removeCheck y =>
          rw [place] at candidate stands knows
          cases candidate
          obtain ⟨called, -⟩ := stands.resolve_right fun lost => undecided lost.1
          exact ⟨.remove y, called, .inr ⟨absent y (Candidate.same knows), rfl, rfl⟩⟩
      | removeGuard y | removeMark y =>
          rw [place] at candidate stands knows
          cases candidate
          obtain ⟨called, -⟩ := stands.resolve_right fun lost => undecided lost.1
          exact ⟨.remove y, called, .inr ⟨absent y knows.1.same, rfl, rfl⟩⟩
      | _ =>
          rw [place] at candidate
          cases candidate
  · intro u other kept'
    by_cases candidate : (m.threads u).candidate = some n
    · have done : c.status u = .done false := by
        by_contra undecided
        exact kept' ⟨other, candidate, undecided⟩
      rw [done]
      exact gone u other candidate
    have stands := follows.stands u
    rw [Machine.after_threads_of_ne other]
    have beside : ∀ p v, (m.threads v).published = some p →
        ((m.after t s' thread' [.marked n]).threads v).published = some p := by
      intro p v published
      have away : v ≠ t := by
        rintro rfl
        rw [here] at published
        cases published
      rw [Machine.after_threads_of_ne away]
      exact published
    refine stands.stable (fun p _ => kept p) ?_ ?_ ?_
    · rintro p (marked | ⟨y, logged⟩ | ⟨v, published⟩) -
      · exact .inl ((kept p).marked marked)
      · by_cases same : p = n
        · exact .inl (same ▸ marks)
        · refine .inr (.inl ⟨y, ?_⟩)
          rw [log, status_of_ne (e := .marked n) same]
          exact logged
      · exact .inr (.inr ⟨v, beside p v published⟩)
    · rintro p - ⟨v, published⟩
      exact ⟨v, beside p v published⟩
    · intro p y found' logged
      have same : p ≠ n := fun same => candidate (same ▸ found')
      rw [log, status_of_ne (e := .marked n) same]
      exact logged
  · exact busy
  · exact mine

end Matching

end Hcl.ConcurrentSkipList
