import Hcl.SkipList.Matching

/-!
`add` and `remove` are linearizable.

Every step of a thread is matched by the atomic set, so what the clients of the list see of any
interleaving is what they could see of a set whose operations happen one after the other
(`calls_are_atomic`).
-/

namespace Hcl.ConcurrentSkipList

open Hcl.Lib

variable {T : Type} {lt : T → T → Prop} {maxHeight : Nat} {m : Machine T} {t : Nat} {xs : List Nat}
  {lh : Nat → Nat} {s s' : ConcurrentSkipList T} {thread thread' : Local T} {events : List (Event T)}

/-! ### Writes that leave the nodes as they are -/

/-- No flag, height or key is written. -/
def SameCore (s s' : ConcurrentSkipList T) : Prop := ∀ p, core (s'.memory p) = core (s.memory p)

theorem SameCore.refl (s : ConcurrentSkipList T) : SameCore s s := fun _ => rfl

theorem SameCore.acquire {p : Nat} (guard : s.acquireGuard p = some s') : SameCore s s' := by
  unfold acquireGuard at guard
  split at guard
  · cases guard
  · obtain rfl := Option.some.inj guard
    exact modify_keeps p _ s core rfl

theorem SameCore.release (same : SameCore s s') (guards : List Nat) : SameCore s (s'.releaseGuards guards) := by
  rw [releaseGuards_eq]
  exact same

theorem SameCore.setSkip {p k : Nat} {q : Option Nat} (set : s.setSkip p k q = some s') : SameCore s s' := by
  obtain ⟨-, rfl⟩ := setSkip_some set
  exact modify_keeps p _ s core rfl

theorem SameCore.push {h p : Nat} (pushes : s.push h p = some s') : SameCore s s' := by
  unfold ConcurrentSkipList.push at pushes
  split at pushes
  · obtain rfl := Option.some.inj pushes
    exact .refl s
  · cases pushes

/-- A step that writes no flag, height or key decides no call of another thread. -/
theorem SameCore.beside (same : SameCore m.list s') (inv : m.Inv lt xs lh) (here : m.threads t = thread)
    (unfinished : ∀ key x, thread.status key ≠ .linked x)
    (about : ∀ e ∈ events, thread.own = some e.node ∧ thread'.own = some e.node)
    (own : ∀ p, thread'.own = some p → thread.own = some p)
    (published : ∀ p, thread.published = some p → thread'.published = some p) :
    Beside m t s' thread' events := by
  subst here
  have absent : ∀ p x, (m.threads t).own = some p → status m.log p ≠ .linked x := by
    intro p x mine
    rw [inv.owned t p mine]
    exact unfinished _ x
  constructor
  · exact fun p _ _ _ => .of_core (same p)
  · exact fun e mem => ⟨(about e mem).1, (about e mem).2, fun x => absent _ x (about e mem).1⟩
  · exact fun p x mine _ => own p mine
  · exact fun p x mine linked => absurd linked (absent p x mine)
  · exact published

theorem Local.unfinished_of_published (quiet : thread.published = none) (key x : T) :
    thread.status key ≠ .linked x := by
  cases thread with
  | addFinish => cases quiet
  | _ =>
      intro contra
      cases contra

theorem SameCore.beside_quiet (same : SameCore m.list s') (inv : m.Inv lt xs lh) (here : m.threads t = thread)
    (quiet : thread.published = none) (own : ∀ p, thread'.own = some p → thread.own = some p) :
    Beside m t s' thread' [] := by
  refine same.beside inv here (Local.unfinished_of_published quiet) (List.forall_mem_nil _) own fun p contra => ?_
  rw [quiet] at contra
  cases contra

/-! ### The phases -/

section Phases

variable [Inhabited T] [DecidableRel lt] {sizeLimit : Nat → Nat} {draw : Nat → Bool} {x : T}
  {point : InsertionPoint} {layer n : Nat} {c : Atomic.Object (Set T) Nat (Call T) Bool}
  (follows : m.Follows lt maxHeight c) (inv : m.Inv lt xs lh) (unshared : m.Unshared t)
include follows inv unshared

omit [Inhabited T] [DecidableRel lt] in
/-- A step after which the call stands where it stood. -/
theorem Machine.Follows.goes (here : m.threads t = thread) (quiet : thread.published = none)
    (same : SameCore m.list s') (own : ∀ p, thread'.own = some p → thread.own = some p) (busy : thread' ≠ .idle)
    (stands : (m.after t s' thread' []).Stands lt thread' (c.status t)) :
    m.Matched lt t c thread' (m.after t s' thread' []) :=
  (same.beside_quiet inv here quiet own).matched follows inv unshared (fun idle => absurd idle busy) fun _ => stands

omit [Inhabited T] [DecidableRel lt] in
/-- A step with which the call returns. -/
theorem Machine.Follows.ends (here : m.threads t = thread) (quiet : thread.published = none)
    (same : SameCore m.list s') (done : c.status t = .done thread.answer) :
    m.Matched lt t c .idle (m.after t s' .idle []) := by
  refine (same.beside_quiet inv here quiet fun p mine => by cases mine).matched follows inv unshared
    (fun _ => here ▸ done) fun busy => absurd rfl busy

omit [Inhabited T] [DecidableRel lt] in
/-- A step with which the call takes effect: it will return false. -/
theorem Machine.Follows.fails (here : m.threads t = thread) (quiet : thread.published = none)
    (own : ∀ p, thread'.own = some p → thread.own = some p) {call : Call T} (called : c.status t = .called call)
    (allowed : SetSpec lt m.keys call false m.keys) (ends : thread' = .idle → thread.answer = false)
    (stands : thread' ≠ .idle → (m.after t m.list thread' []).Stands lt thread' (.done false)) :
    m.Matched lt t c thread' (m.after t m.list thread' []) := by
  have beside := (SameCore.refl m.list).beside_quiet inv here quiet own
  refine beside.matched_effect follows inv unshared called allowed (fun idle => ?_) stands
  rw [here]
  exact (ends idle).symm

/-! #### `addOrGetData` -/

theorem Machine.Follows.at_addSearch [IsStrictWeakOrder T lt] (here : m.threads t = .addSearch x)
    (taken : goOn lt maxHeight sizeLimit draw m.list (.addSearch x) = some (s', thread', events)) :
    m.Matched lt t c thread' (m.after t s' thread' events) := by
  have stands := follows.stands t
  rw [here] at stands
  obtain ⟨point, search, recorded⟩ := inv.layers.findInsertionPoint x
  simp only [goOn, search, Option.bind_eq_bind, Option.bind_some] at taken
  cases found : point.foundLayer with
  | none =>
      simp only [found, Option.some.injEq, Prod.mk.injEq] at taken
      obtain ⟨rfl, rfl, rfl⟩ := taken
      exact follows.goes inv unshared here rfl (.refl _) (fun _ mine => mine) (by simp) stands
  | some layer =>
      obtain ⟨n, listed, same, -, succ⟩ := recorded.present inv.layers found
      simp only [found, succ, Option.bind_some, Option.some.injEq, Prod.mk.injEq] at taken
      obtain ⟨rfl, rfl, rfl⟩ := taken
      have beside : Beside m t m.list (.addFound x n) [] :=
        (SameCore.refl m.list).beside_quiet inv here rfl fun _ mine => mine
      have shows := beside.shows (inv.shows_of_listed listed) (.of_core rfl)
      exact follows.goes inv unshared here rfl (.refl _) (fun _ mine => mine) (by simp) ⟨stands, shows, same⟩

theorem Machine.Follows.at_addFound (here : m.threads t = .addFound x n)
    (taken : goOn lt maxHeight sizeLimit draw m.list (.addFound x n) = some (s', thread', events)) :
    m.Matched lt t c thread' (m.after t s' thread' events) := by
  have stands := follows.stands t
  rw [here] at stands
  obtain ⟨called, shows, same⟩ := stands
  simp only [goOn, Option.some.injEq, Prod.mk.injEq] at taken
  obtain ⟨rfl, rfl, rfl⟩ := taken
  split
  · exact follows.goes inv unshared here rfl (.refl _) (fun _ mine => mine) (by simp) called
  rename_i unmarked
  -- The node is about to be fully linked, or it is and its key is in the set.
  have pending : (∃ u, (m.threads u).published = some n) →
      m.Matched lt t c (.addWait n) (m.after t m.list (.addWait n) []) := by
    rintro ⟨u, published⟩
    have other : u ≠ t := by
      rintro rfl
      rw [here] at published
      cases published
    refine follows.goes inv unshared here rfl (.refl _) (fun _ mine => mine) (by simp)
      (.inr ⟨x, called, same, u, ?_⟩)
    rw [Machine.after_threads_of_ne other]
    exact published
  rcases shows with marked | ⟨y, linked⟩ | published
  · exact absurd marked unmarked
  · obtain ⟨listed, -, -⟩ := inv.of_linked linked
    by_cases owned : ∃ u, (m.threads u).own = some n
    · obtain ⟨u, own⟩ := owned
      obtain ⟨⟨guards, finishes⟩, -⟩ := Local.own_linked own ((inv.owned u n own).symm.trans linked)
      exact pending ⟨u, by rw [finishes]; rfl⟩
    · have present : Member lt m.keys x :=
        inv.member_iff.mpr ⟨n, listed, fun u own => owned ⟨u, own⟩, same⟩
      exact follows.fails inv unshared here rfl (fun _ mine => mine) called (.inl ⟨present, rfl, rfl⟩)
        (fun _ => rfl) fun _ => .inl rfl
  · exact pending published

theorem Machine.Follows.at_addWait (here : m.threads t = .addWait n)
    (taken : goOn lt maxHeight sizeLimit draw m.list (.addWait n) = some (s', thread', events)) :
    m.Matched lt t c thread' (m.after t s' thread' events) := by
  have stands := follows.stands t
  rw [here] at stands
  simp only [goOn, Option.some.injEq, Prod.mk.injEq] at taken
  obtain ⟨rfl, rfl, rfl⟩ := taken
  split
  · rename_i full
    have done : c.status t = .done false := by
      rcases stands with done | ⟨x, -, -, u, published⟩
      · exact done
      · rw [(Local.listed_of_published (inv.threads u) published).2] at full
        cases full
    exact follows.ends inv unshared here rfl (.refl _) done
  · refine follows.goes inv unshared here rfl (.refl _) (fun _ mine => mine) (by simp) ?_
    have same : m.after t m.list (.addWait n) [] = m := by
      rw [← here]
      exact m.after_self t
    rw [same]
    exact stands

omit follows unshared [DecidableRel lt] in
/-- A node that is popped is in no set. -/
theorem Machine.Inv.beside_pop {h : Nat} {isHead : Bool} (here : m.threads t = thread)
    (pops : m.list.pop h isHead = some (s', n)) (popping : thread.popping = some h) (own : thread'.own = some n) :
    Beside m t s' thread' [] := by
  subst here
  obtain ⟨s₁, n₁, pops', popped, unused, -, -⟩ := pop_spec (inv.stock_beside t) (pop_small pops) isHead
  obtain ⟨rfl, rfl⟩ := Prod.mk.inj (Option.some.inj (pops.symm.trans pops'))
  have fresh : ∀ x, status m.log n ≠ .linked x := fun x linked =>
    unused (.inl (List.mem_cons_of_mem _ (inv.of_linked linked).1))
  have nothing : (m.threads t).own = none ∧ (m.threads t).published = none := by
    cases place : m.threads t with
    | addPop | growPop => exact ⟨rfl, rfl⟩
    | _ =>
        rw [place] at popping
        cases popping
  constructor
  · intro p allocated kept _
    apply Spared.of_core
    rw [popped.old allocated]
    rintro rfl
    obtain ⟨node, ⟨-, first⟩ | ⟨new, -⟩, -⟩ := popped.node
    · exact kept ⟨h, popping, first⟩
    · exact Nat.not_le_of_lt allocated new
  · exact List.forall_mem_nil _
  · intro p x mine linked
    obtain rfl := Option.some.inj (own.symm.trans mine)
    exact absurd linked (fresh x)
  · intro p x mine
    rw [nothing.1] at mine
    cases mine
  · intro p mine
    rw [nothing.2] at mine
    cases mine

theorem Machine.Follows.at_addStore {nodeHeight : Nat} {guards : List Nat}
    (here : m.threads t = .addStore x point nodeHeight guards n)
    (taken : goOn lt maxHeight sizeLimit draw m.list (.addStore x point nodeHeight guards n) =
      some (s', thread', events)) : m.Matched lt t c thread' (m.after t s' thread' events) := by
  have stands := follows.stands t
  rw [here] at stands
  simp only [goOn, Option.some.injEq, Prod.mk.injEq] at taken
  obtain ⟨rfl, rfl, rfl⟩ := taken
  have own : (m.threads t).own = some n := by rw [here]; rfl
  have beside : Beside m t (m.list.storeData n x) (.addPrepare point nodeHeight guards n 0) [] := by
    constructor
    · intro p _ _ other
      have away : p ≠ n := by
        rintro rfl
        exact other (by rw [here]; rfl)
      apply Spared.of_core
      rw [storeData, modify_of_ne n _ _ away]
    · exact List.forall_mem_nil _
    · exact fun p _ mine _ => own.trans mine
    · exact fun p _ mine _ => own.symm.trans mine
    · intro p published
      rw [here] at published
      cases published
  have key : (m.list.storeData n x).keyOf n = x := by
    rw [keyOf, storeData, modify_self]
  refine beside.matched follows inv unshared (fun contra => by cases contra) fun _ => ?_
  rw [Machine.Stands]
  exact stands.trans (by rw [show (m.after t (m.list.storeData n x) (.addPrepare point nodeHeight guards n 0)
    []).list.keyOf n = x from key])

theorem Machine.Follows.at_addPrepare {nodeHeight k : Nat} {guards : List Nat}
    (here : m.threads t = .addPrepare point nodeHeight guards n k)
    (taken : goOn lt maxHeight sizeLimit draw m.list (.addPrepare point nodeHeight guards n k) =
      some (s', thread', events)) : m.Matched lt t c thread' (m.after t s' thread' events) := by
  have stands := follows.stands t
  rw [here] at stands
  simp only [goOn] at taken
  obtain ⟨s₁, set, taken⟩ := Option.bind_eq_some_iff.mp taken
  obtain ⟨rfl, rfl, rfl⟩ : s₁ = s' ∧ _ = thread' ∧ _ = events := by
    simpa only [Option.some.injEq, Prod.mk.injEq] using taken
  have same := SameCore.setSkip set
  have beside : Beside m t s₁ (.addPublish point nodeHeight guards n k) [] := by
    refine same.beside inv here ?_ (List.forall_mem_nil _) (fun _ mine => mine) ?_
    · intro _ _ contra
      cases contra
    · cases k <;> exact fun _ published => published
  refine beside.matched follows inv unshared (fun contra => by cases contra) fun _ => ?_
  have key : s₁.keyOf n = m.list.keyOf n := (core_eq (same n)).2.2.2
  simpa only [Machine.Stands, Machine.after, key] using stands

theorem Machine.Follows.at_addPublish {nodeHeight k : Nat} {guards : List Nat}
    (here : m.threads t = .addPublish point nodeHeight guards n k)
    (taken : goOn lt maxHeight sizeLimit draw m.list (.addPublish point nodeHeight guards n k) =
      some (s', thread', events)) : m.Matched lt t c thread' (m.after t s' thread' events) := by
  have stands := follows.stands t
  rw [here] at stands
  simp only [goOn] at taken
  obtain ⟨a, -, taken⟩ := Option.bind_eq_some_iff.mp taken
  obtain ⟨s₁, set, taken⟩ := Option.bind_eq_some_iff.mp taken
  have same := SameCore.setSkip set
  have key : s₁.keyOf n = m.list.keyOf n := (core_eq (same n)).2.2.2
  have published : ∀ p, (Local.addPublish point nodeHeight guards n k : Local T).published = some p →
      some n = some p := by
    cases k with
    | zero =>
        intro p contra
        cases contra
    | succ k => exact fun _ published => published
  split at taken
  · obtain ⟨rfl, rfl, rfl⟩ : s₁ = s' ∧ _ = thread' ∧ _ = events := by
      simpa only [Option.some.injEq, Prod.mk.injEq] using taken
    have beside : Beside m t s₁ (.addPrepare point nodeHeight guards n (k + 1)) [] := by
      refine same.beside inv here ?_ (List.forall_mem_nil _) (fun _ mine => mine) published
      intro _ _ contra
      cases contra
    refine beside.matched follows inv unshared (fun contra => by cases contra) fun _ => ?_
    simpa only [Machine.Stands, Machine.after, key] using stands
  · obtain ⟨rfl, rfl, rfl⟩ : s₁ = s' ∧ _ = thread' ∧ _ = events := by
      simpa only [Option.some.injEq, Prod.mk.injEq] using taken
    have beside : Beside m t s₁ (.addFinish guards n) [.linked n (s₁.keyOf n)] := by
      refine same.beside inv here ?_ ?_ (fun _ mine => mine) published
      · intro _ _ contra
        cases contra
      · intro e mem
        rw [List.mem_singleton.mp mem]
        exact ⟨rfl, rfl⟩
    refine beside.matched follows inv unshared (fun contra => by cases contra) fun _ => ?_
    simpa only [Machine.Stands, Machine.after, key] using stands

/-! #### `growHeight` -/

theorem Machine.Follows.at_growExchange {oldHead newHead : Nat} (here : m.threads t = .growExchange oldHead newHead)
    (taken : goOn lt maxHeight sizeLimit draw m.list (.growExchange oldHead newHead) = some (s', thread', events)) :
    m.Matched lt t c thread' (m.after t s' thread' events) := by
  have stands := follows.stands t
  rw [here] at stands
  have knows := inv.threads t
  rw [here] at knows
  obtain ⟨live, -, dead⟩ := knows
  have other : newHead ≠ oldHead := fun same => dead (same ▸ live)
  have own : (m.threads t).own = some newHead := by rw [here]; rfl
  have fresh : ∀ p x, (m.threads t).own = some p → status m.log p ≠ .linked x := by
    intro p x mine linked
    obtain rfl := Option.some.inj (own.symm.trans mine)
    exact dead (.inr (.inr (inv.of_linked linked).1))
  have quiet : ∀ p, (m.threads t).published ≠ some p := by
    intro p published
    rw [here] at published
    cases published
  have scratch : ∀ p, (m.threads t).scratch ≠ some p → p ≠ newHead := by
    rintro p unlike rfl
    exact unlike (by rw [here]; rfl)
  simp only [goOn, Option.some.injEq, Prod.mk.injEq] at taken
  obtain ⟨rfl, rfl, rfl⟩ := taken
  by_cases first : m.list.head = oldHead
  · subst first
    obtain ⟨s', exchanges, -, -, -, -, atOld, -, elsewhere⟩ := exchangeHead_eq newHead other
    rw [exchanges]
    have beside : Beside m t s' (.growPush m.list.head) [] := by
      refine ⟨?_, List.forall_mem_nil _, ?_, fun p x mine linked => absurd linked (fresh p x mine),
        fun p published => absurd published (quiet p)⟩
      · intro p _ _ unlike
        by_cases old : p = m.list.head
        · subst old
          exact ⟨by rw [keyOf, atOld, keyOf], by rw [atOld], fun _ => by rw [atOld]⟩
        · exact .of_core (by rw [elsewhere p old (scratch p unlike)])
      · intro p x mine linked
        obtain rfl := Option.some.inj mine
        exact absurd (inv.of_linked linked).1 inv.layers.nodup.1
    exact beside.matched follows inv unshared (fun contra => by cases contra) fun _ => stands
  · obtain ⟨s', exchanges, -, -, -, -, atOld, elsewhere⟩ := exchangeHead_late newHead first other
    rw [exchanges]
    have beside : Beside m t s' .idle [] := by
      refine ⟨?_, List.forall_mem_nil _, (fun p x mine => by cases mine),
        fun p x mine linked => absurd linked (fresh p x mine), fun p published => absurd published (quiet p)⟩
      intro p _ _ unlike
      by_cases old : p = oldHead
      · subst old
        exact .of_core (by rw [atOld]; rfl)
      · exact .of_core (by rw [elsewhere p old (scratch p unlike)])
    exact beside.matched follows inv unshared (fun _ => by rw [here]; exact stands) fun busy => absurd rfl busy

/-! #### `remove` -/

omit follows unshared [Inhabited T] [DecidableRel lt] in
/-- A node that is linked in all its layers and not marked is one that the log has as linked. -/
theorem Machine.Inv.linked_of_whole (listed : n ∈ xs) (unmarked : (m.list.memory n).marked = false)
    (whole : lh n = (m.list.memory n).height) : status m.log n = .linked (m.list.keyOf n) := by
  by_cases owned : ∃ u, (m.threads u).own = some n
  · obtain ⟨u, own⟩ := owned
    have knows := inv.threads u
    have published := (Local.own_of_listed knows own listed).resolve_left fun marked => by
      rw [unmarked] at marked
      cases marked
    rw [inv.owned u n own]
    -- Before the last link is written the node is not linked in its top layer.
    cases place : m.threads u with
    | addPrepare _ _ _ _ k | addPublish _ _ _ _ k =>
        rw [place] at knows published
        cases k with
        | zero => cases published
        | succ k =>
            cases published
            obtain ⟨⟨below, -⟩, -, growing⟩ := knows
            first
            | have linked := growing.linked (Nat.succ_pos k)
              have height := growing.height
              omega
            | have linked := growing.1.linked (Nat.succ_pos k)
              have height := growing.1.height
              omega
    | addFinish => rfl
    | _ =>
        rw [place] at published
        cases published
  · exact ((inv.settled n fun u own => owned ⟨u, own⟩).whole listed).2.2

theorem Machine.Follows.at_removeSearch [IsStrictWeakOrder T lt] (here : m.threads t = .removeSearch x)
    (taken : goOn lt maxHeight sizeLimit draw m.list (.removeSearch x) = some (s', thread', events)) :
    m.Matched lt t c thread' (m.after t s' thread' events) := by
  have stands := follows.stands t
  rw [here] at stands
  obtain ⟨point, search, recorded⟩ := inv.layers.findInsertionPoint x
  simp only [goOn, search, Option.bind_eq_bind, Option.bind_some] at taken
  cases found : point.foundLayer with
  | none =>
      simp only [found, Option.some.injEq, Prod.mk.injEq] at taken
      obtain ⟨rfl, rfl, rfl⟩ := taken
      have absent : ¬ Member lt m.keys x := by
        rw [inv.member_iff]
        rintro ⟨p, listed, -, same⟩
        exact recorded.absent inv.layers found p listed same
      exact follows.fails inv unshared here rfl (fun _ mine => mine) stands (.inr ⟨absent, rfl, rfl⟩)
        (fun _ => rfl) fun busy => absurd rfl busy
  | some layer =>
      obtain ⟨n, listed, same, linked, succ⟩ := recorded.present inv.layers found
      simp only [found, succ, Option.bind_some, Option.some.injEq, Prod.mk.injEq] at taken
      obtain ⟨rfl, rfl, rfl⟩ := taken
      by_cases lost : (m.list.memory n).marked = true ∨ (m.list.memory n).height ≠ layer + 1
      · -- The node is not yet linked in all its layers, or no longer.
        have absent : ¬ Member lt m.keys x := by
          rw [inv.member_iff]
          rintro ⟨p, listed', free, same'⟩
          obtain rfl := inv.layers.ascending.unique listed' listed same' same
          obtain ⟨whole, unmarked, -⟩ := (inv.settled p free).whole listed
          rcases lost with marked | high
          · rw [unmarked] at marked
            cases marked
          · exact high (whole.symm.trans linked)
        exact follows.fails inv unshared here rfl (fun _ mine => mine) stands (.inr ⟨absent, rfl, rfl⟩)
          (fun contra => by cases contra) fun _ => .inr ⟨rfl, lost⟩
      · rw [not_or, Bool.not_eq_true, not_not] at lost
        have logged := inv.linked_of_whole listed lost.1 (linked.trans lost.2.symm)
        exact follows.goes inv unshared here rfl (.refl _) (fun _ mine => mine) (by simp)
          (.inl ⟨stands, lost.2, logged⟩)

theorem Machine.Follows.at_removeCheck [IsStrictWeakOrder T lt] (here : m.threads t = .removeCheck x point layer n)
    (taken : goOn lt maxHeight sizeLimit draw m.list (.removeCheck x point layer n) = some (s', thread', events)) :
    m.Matched lt t c thread' (m.after t s' thread' events) := by
  have stands := follows.stands t
  rw [here] at stands
  have knows := inv.threads t
  rw [here] at knows
  have high := Candidate.high knows
  simp only [goOn, Option.some.injEq, Prod.mk.injEq] at taken
  obtain ⟨rfl, rfl, rfl⟩ := taken
  split
  · rename_i ok
    simp only [okToDelete, Bool.and_eq_true, beq_iff_eq, Bool.not_eq_true'] at ok
    rcases stands with ⟨called, -, linked⟩ | ⟨-, lost⟩
    · exact follows.goes inv unshared here rfl (.refl _) (fun _ mine => mine) (by simp) (.inl ⟨called, linked⟩)
    · rcases lost with marked | other
      · rw [ok.2] at marked
        cases marked
      · exact absurd (by omega) other
  · rename_i not
    rcases stands with ⟨called, height, linked⟩ | ⟨done, -⟩
    · -- The node is linked in all its layers, and whoever links it has yet to say so.
      have unmarked := (inv.of_linked linked).2.1
      have partly : ¬ (m.list.memory n).fullyLinked = true := by
        intro full
        apply not
        simp only [okToDelete, full, unmarked, height, Nat.add_sub_cancel, beq_self_eq_true, Bool.not_false,
          Bool.and_self]
      have absent : ¬ Member lt m.keys x := by
        rw [inv.member_iff]
        rintro ⟨p, listed, free, same⟩
        obtain rfl := inv.layers.ascending.unique listed (inv.of_linked linked).1 same (Candidate.same knows)
        exact partly ((inv.full_iff follows.orderly linked).mpr free)
      exact follows.fails inv unshared here rfl (fun _ mine => mine) called (.inr ⟨absent, rfl, rfl⟩)
        (fun _ => rfl) fun busy => absurd rfl busy
    · exact follows.ends inv unshared here rfl (.refl _) done

theorem Machine.Follows.at_removeMark [IsStrictWeakOrder T lt] (here : m.threads t = .removeMark x point layer n)
    (taken : goOn lt maxHeight sizeLimit draw m.list (.removeMark x point layer n) = some (s', thread', events)) :
    m.Matched lt t c thread' (m.after t s' thread' events) := by
  have stands := follows.stands t
  rw [here] at stands
  simp only [goOn] at taken
  split at taken
  · rename_i marked
    obtain ⟨rfl, rfl, rfl⟩ : _ = s' ∧ _ = thread' ∧ _ = events := by
      simpa only [Option.some.injEq, Prod.mk.injEq] using taken
    have done : c.status t = .done false := by
      rcases stands with ⟨-, linked⟩ | ⟨done, -⟩
      · rw [(inv.of_linked linked).2.1] at marked
        cases marked
      · exact done
    exact follows.ends inv unshared here rfl (modify_keeps n _ m.list core rfl) done
  · rename_i unmarked
    obtain ⟨rfl, rfl, rfl⟩ : _ = s' ∧ _ = thread' ∧ _ = events := by
      simpa only [Option.some.injEq, Prod.mk.injEq] using taken
    rw [setMarkedForRemoval, releaseGuard, modify_modify]
    refine follows.matched_mark inv here (Bool.eq_false_iff.mpr unmarked) rfl ?_ ?_ (by simp) rfl
    · intro p
      refine ⟨modify_keeps n _ m.list SkipListNode.data ?_ p, modify_keeps n _ m.list SkipListNode.height ?_ p, ?_⟩
      · rfl
      · rfl
      · intro marked
        by_cases same : p = n
        · rw [same, modify_self]
        · rw [modify_of_ne n _ _ same]
          exact marked
    · rw [modify_self]

/-- **Going on is matched by the atomic set.** -/
theorem Machine.Follows.goOn [IsStrictWeakOrder T lt]
    (taken : goOn lt maxHeight sizeLimit draw m.list (m.threads t) = some (s', thread', events)) :
    m.Matched lt t c thread' (m.after t s' thread' events) := by
  have stands := follows.stands t
  cases here : m.threads t with
  | idle =>
      rw [here] at taken
      cases taken
  | addSearch => exact follows.at_addSearch inv unshared here (here ▸ taken)
  | addFound => exact follows.at_addFound inv unshared here (here ▸ taken)
  | addWait => exact follows.at_addWait inv unshared here (here ▸ taken)
  | addStore => exact follows.at_addStore inv unshared here (here ▸ taken)
  | addPrepare => exact follows.at_addPrepare inv unshared here (here ▸ taken)
  | addPublish => exact follows.at_addPublish inv unshared here (here ▸ taken)
  | growExchange => exact follows.at_growExchange inv unshared here (here ▸ taken)
  | removeSearch => exact follows.at_removeSearch inv unshared here (here ▸ taken)
  | removeCheck => exact follows.at_removeCheck inv unshared here (here ▸ taken)
  | removeMark => exact follows.at_removeMark inv unshared here (here ▸ taken)
  | addFinish =>
      simp only [here, ConcurrentSkipList.goOn, Option.some.injEq, Prod.mk.injEq] at taken
      obtain ⟨rfl, rfl, rfl⟩ := taken
      exact follows.matched_finish inv here
  | guard change point nodeHeight layer prevPred guards =>
      rw [here] at stands
      simp only [here, ConcurrentSkipList.goOn] at taken
      split at taken
      · obtain ⟨pred, -, taken⟩ := Option.bind_eq_some_iff.mp taken
        obtain ⟨⟨s₁, guards'⟩, locks, taken⟩ := Option.bind_eq_some_iff.mp taken
        obtain ⟨rfl, rfl, rfl⟩ : s₁ = s' ∧ _ = thread' ∧ _ = events := by
          simpa only [Option.some.injEq, Prod.mk.injEq] using taken
        have same : SameCore m.list s₁ := by
          unfold guardLayer at locks
          split at locks
          · obtain ⟨rfl, -⟩ := Prod.mk.inj (Option.some.inj locks)
            exact .refl _
          · obtain ⟨s₂, guard, written⟩ := Option.map_eq_some_iff.mp locks
            obtain ⟨rfl, -⟩ := Prod.mk.inj written
            exact .acquire guard
        cases change <;>
          exact follows.goes inv unshared here rfl same (fun _ mine => mine) (by simp) stands
      · obtain ⟨rfl, rfl, rfl⟩ : _ = s' ∧ _ = thread' ∧ _ = events := by
          simpa only [Option.some.injEq, Prod.mk.injEq] using taken
        cases change <;>
          exact follows.goes inv unshared here rfl (.refl _) (fun _ mine => mine) (by simp [Change.proceed]) stands
  | validate change point nodeHeight layer pred guards =>
      rw [here] at stands
      simp only [here, ConcurrentSkipList.goOn] at taken
      obtain ⟨valid, -, taken⟩ := Option.bind_eq_some_iff.mp taken
      obtain ⟨rfl, rfl, rfl⟩ : _ = s' ∧ _ = thread' ∧ _ = events := by
        simpa only [Option.some.injEq, Prod.mk.injEq] using taken
      cases valid <;> cases change <;>
        exact follows.goes inv unshared here rfl (.refl _) (fun _ mine => mine) (by simp) stands
  | retry change guards =>
      rw [here] at stands
      simp only [here, ConcurrentSkipList.goOn, Option.some.injEq, Prod.mk.injEq] at taken
      obtain ⟨rfl, rfl, rfl⟩ := taken
      have same := (SameCore.refl m.list).release guards
      cases change <;>
        exact follows.goes inv unshared here rfl same (fun _ mine => mine) (by simp [Change.restart]) stands
  | addPop x point nodeHeight guards | growPop height oldHead =>
      rw [here] at stands
      simp only [here, ConcurrentSkipList.goOn] at taken
      obtain ⟨⟨s₁, n⟩, pops, taken⟩ := Option.bind_eq_some_iff.mp taken
      obtain ⟨rfl, rfl, rfl⟩ : s₁ = s' ∧ _ = thread' ∧ _ = events := by
        simpa only [Option.some.injEq, Prod.mk.injEq] using taken
      exact (inv.beside_pop here pops rfl rfl).matched follows inv unshared (fun contra => by cases contra)
        fun _ => stands
  | addSize guards =>
      rw [here] at stands
      simp only [here, ConcurrentSkipList.goOn, Option.some.injEq, Prod.mk.injEq] at taken
      obtain ⟨rfl, rfl, rfl⟩ := taken
      have same : SameCore m.list m.list.sizeUp := .refl m.list
      exact follows.goes inv unshared here rfl (same.release guards) (fun _ mine => mine) (by simp)
        ⟨stands, Nat.succ_pos _⟩
  | addCheck newSize =>
      rw [here] at stands
      obtain ⟨done, positive⟩ := stands
      simp only [here, ConcurrentSkipList.goOn, Option.some.injEq, Prod.mk.injEq] at taken
      obtain ⟨rfl, rfl, rfl⟩ := taken
      split
      · exact follows.goes inv unshared here rfl (.refl _) (fun _ mine => mine) (by simp) done
      · refine follows.ends inv unshared here rfl (.refl _) ?_
        rw [done, Local.answer, bne_iff_ne.mpr (Nat.ne_of_gt positive)]
  | growLoad height =>
      rw [here] at stands
      simp only [here, ConcurrentSkipList.goOn, Option.some.injEq, Prod.mk.injEq] at taken
      obtain ⟨rfl, rfl, rfl⟩ := taken
      split
      · exact follows.ends inv unshared here rfl (.refl _) stands
      · exact follows.goes inv unshared here rfl (.refl _) (fun _ mine => mine) (by simp) stands
  | growGuard =>
      rw [here] at stands
      simp only [here, ConcurrentSkipList.goOn] at taken
      obtain ⟨s₁, guard, taken⟩ := Option.bind_eq_some_iff.mp taken
      obtain ⟨rfl, rfl, rfl⟩ : s₁ = s' ∧ _ = thread' ∧ _ = events := by
        simpa only [Option.some.injEq, Prod.mk.injEq] using taken
      exact follows.goes inv unshared here rfl (.acquire guard) (fun _ mine => mine) (by simp) stands
  | removeGuard x point layer n =>
      rw [here] at stands
      simp only [here, ConcurrentSkipList.goOn] at taken
      obtain ⟨s₁, guard, taken⟩ := Option.bind_eq_some_iff.mp taken
      obtain ⟨rfl, rfl, rfl⟩ : s₁ = s' ∧ _ = thread' ∧ _ = events := by
        simpa only [Option.some.injEq, Prod.mk.injEq] using taken
      have same := SameCore.acquire guard
      obtain ⟨marked, -, -, data⟩ := core_eq (same n)
      have key : s₁.keyOf n = m.list.keyOf n := data
      refine follows.goes inv unshared here rfl same (fun _ mine => mine) (by simp) ?_
      simpa only [Machine.Stands, Machine.after, key, marked, List.nil_append] using stands
  | growPush | removePush =>
      rw [here] at stands
      simp only [here, ConcurrentSkipList.goOn] at taken
      obtain ⟨s₁, pushes, taken⟩ := Option.bind_eq_some_iff.mp taken
      obtain ⟨rfl, rfl, rfl⟩ : s₁ = s' ∧ _ = thread' ∧ _ = events := by
        simpa only [Option.some.injEq, Prod.mk.injEq] using taken
      exact follows.ends inv unshared here rfl (.push pushes) stands
  | removeAgain x node =>
      rw [here] at stands
      simp only [here, ConcurrentSkipList.goOn] at taken
      obtain ⟨point, -, taken⟩ := Option.bind_eq_some_iff.mp taken
      obtain ⟨rfl, rfl, rfl⟩ : _ = s' ∧ _ = thread' ∧ _ = events := by
        simpa only [Option.some.injEq, Prod.mk.injEq] using taken
      exact follows.goes inv unshared here rfl (.refl _) (fun _ mine => mine) (by simp) stands
  | removeSize guards node =>
      rw [here] at stands
      simp only [here, ConcurrentSkipList.goOn, Option.some.injEq, Prod.mk.injEq] at taken
      obtain ⟨rfl, rfl, rfl⟩ := taken
      have same : SameCore m.list m.list.sizeDown := .refl m.list
      exact follows.goes inv unshared here rfl (same.release guards) (fun _ mine => mine) (by simp) stands
  | removeUnlink point nodeHeight guards node k =>
      rw [here] at stands
      cases k with
      | zero =>
          rw [here] at taken
          cases taken
      | succ k =>
          simp only [here, ConcurrentSkipList.goOn] at taken
          obtain ⟨s₁, unlinks, taken⟩ := Option.bind_eq_some_iff.mp taken
          obtain ⟨a, -, unlinks⟩ := Option.bind_eq_some_iff.mp unlinks
          obtain ⟨next, -, set⟩ := Option.bind_eq_some_iff.mp unlinks
          split at taken
          · obtain ⟨rfl, rfl, rfl⟩ : s₁ = s' ∧ _ = thread' ∧ _ = events := by
              simpa only [Option.some.injEq, Prod.mk.injEq] using taken
            exact follows.goes inv unshared here rfl (.setSkip set) (fun _ mine => mine) (by simp) stands
          · obtain ⟨rfl, rfl, rfl⟩ : s₁ = s' ∧ _ = thread' ∧ _ = events := by
              simpa only [Option.some.injEq, Prod.mk.injEq] using taken
            have beside : Beside m t s₁ (.removeSize guards node) [.removed node] := by
              refine (SameCore.setSkip set).beside inv here ?_ ?_ (fun _ mine => mine) ?_
              · exact Local.unfinished_of_published rfl
              · intro e mem
                rw [List.mem_singleton.mp mem]
                exact ⟨rfl, rfl⟩
              · intro p contra
                cases contra
            exact beside.matched follows inv unshared (fun contra => by cases contra) fun _ => stands

end Phases

/-! ### Runs -/

section Runs

variable [Inhabited T] [DecidableRel lt] [IsStrictWeakOrder T lt] {sizeLimit : Nat → Nat} {draw : Nat → Bool}
  {c : Atomic.Object (Set T) Nat (Call T) Bool} {m' : Machine T}

omit [Inhabited T] [DecidableRel lt] [IsStrictWeakOrder T lt] in
theorem Machine.few_after (few : ∃ n, ∀ u, n ≤ u → m.threads u = .idle) :
    ∃ n, ∀ u, n ≤ u → (m.after t s' thread' events).threads u = .idle := by
  obtain ⟨n, idle⟩ := few
  refine ⟨max n (t + 1), fun u late => ?_⟩
  rw [Machine.after_threads_of_ne (by omega)]
  exact idle u (by omega)

omit [Inhabited T] [DecidableRel lt] [IsStrictWeakOrder T lt] in
/-- Threads that are not about to pop are handed nothing. -/
theorem Machine.unshared_of_popping (nothing : (m.threads t).popping = none) : m.Unshared t := by
  rintro p ⟨h, popping, -⟩
  rw [nothing] at popping
  cases popping

/-- A call begins. -/
theorem Machine.Follows.call (follows : m.Follows lt maxHeight c) {call : Call T} {choice : Choice T}
    (idle : m.threads t = .idle) (stepped : m.step lt maxHeight sizeLimit t choice = some m')
    (begins : m' = m.after t m.list thread' []) (own : thread'.own = none)
    (stands : m'.Stands lt thread' (.called call)) :
    ∃ c', Atomic.Run (Atomic.Object.Step (SetSpec lt)) c [.call t call] c' ∧ m'.Follows lt maxHeight c' := by
  obtain ⟨xs, lh, inv⟩ := follows.consistent
  have unshared : m.Unshared t := Machine.unshared_of_popping (by rw [idle]; rfl)
  have consistent := inv.step unshared.exclusive stepped
  have orderly := follows.orderly.step inv unshared stepped
  have status : c.status t = .idle := by
    have stands := follows.stands t
    rwa [idle] at stands
  subst begins
  have beside : Beside m t m.list thread' [] := by
    refine (SameCore.refl m.list).beside_quiet inv idle rfl fun p mine => ?_
    rw [own] at mine
    cases mine
  refine ⟨_, .visible .start (.call status), consistent, orderly, Machine.few_after follows.few, ?_, ?_⟩
  · rw [beside.keys]
    exact follows.value
  · intro u
    dsimp only
    by_cases here : u = t
    · rw [here, Function.update_self, Machine.after_threads_self]
      exact stands
    · rw [Function.update_of_ne here]
      exact beside.stands inv unshared here (follows.stands u)

/-- **Every step is matched by the atomic set.** -/
theorem simulates_calls :
    Atomic.Simulates (Machine.CallStep lt maxHeight sizeLimit) (SetSpec lt) (Machine.Follows lt maxHeight) := by
  intro m c e m' follows taken
  obtain ⟨xs, lh, inv⟩ := follows.consistent
  cases taken with
  | @add t x _ stepped | @remove t x _ stepped =>
      obtain ⟨⟨s', thread', events⟩, taken, rest⟩ := Option.bind_eq_some_iff.mp stepped
      obtain rfl := Option.some.inj rest
      simp only [threadStep] at taken
      split at taken
      · rename_i idle
        obtain ⟨rfl, rfl, rfl⟩ : _ = s' ∧ _ = thread' ∧ _ = events := by
          simpa only [Option.some.injEq, Prod.mk.injEq] using taken
        exact follows.call idle stepped rfl rfl rfl
      · cases taken
  | @goes t draw _ unshared stepped busy =>
      have consistent := inv.step unshared.exclusive stepped
      have orderly := follows.orderly.step inv unshared stepped
      obtain ⟨⟨s', thread', events⟩, taken, rest⟩ := Option.bind_eq_some_iff.mp stepped
      obtain rfl := Option.some.inj rest
      obtain ⟨c', run, value, others, -, stands⟩ := follows.goOn inv unshared taken
      rw [Machine.after_threads_self] at busy
      refine ⟨c', run, consistent, orderly, Machine.few_after follows.few, value, fun u => ?_⟩
      by_cases here : u = t
      · rw [here, Machine.after_threads_self]
        exact stands busy
      · exact others u here
  | @returns t draw _ unshared stepped ended =>
      have consistent := inv.step unshared.exclusive stepped
      have orderly := follows.orderly.step inv unshared stepped
      obtain ⟨⟨s', thread', events⟩, taken, rest⟩ := Option.bind_eq_some_iff.mp stepped
      obtain rfl := Option.some.inj rest
      obtain ⟨c', run, value, others, ends, -⟩ := follows.goOn inv unshared taken
      have idle := ended
      rw [Machine.after_threads_self] at idle
      refine ⟨_, .visible run (.ret (ends idle)), consistent, orderly, Machine.few_after follows.few, value,
        fun u => ?_⟩
      dsimp only
      by_cases here : u = t
      · rw [here, ended, Function.update_self]
        rfl
      · rw [Function.update_of_ne here]
        exact others u here

omit [DecidableRel lt] [IsStrictWeakOrder T lt] in
/-- A new list holds no key. -/
theorem new_follows {initialHeight : Nat} (positive : 0 < initialHeight) (low : initialHeight ≤ maxHeight)
    (made : new initialHeight = some s) : (Machine.start s).Follows lt maxHeight (.initial ∅) := by
  refine ⟨new_consistent positive made, new_orderly low positive made, ⟨0, fun _ _ => rfl⟩, ?_, fun _ => rfl⟩
  ext x
  constructor
  · intro mem
    cases mem
  · rintro ⟨p, logged, -⟩
    cases logged

/-- **`add` and `remove` are linearizable.** Whatever threads do with a new list of any height,
with any draws and size limits, as long as the recycler hands out no node that another thread has
a pointer to: each call takes effect at one moment between its begin and its return, as on a set. -/
theorem calls_are_atomic {initialHeight : Nat} (positive : 0 < initialHeight) (low : initialHeight ≤ maxHeight)
    (made : new initialHeight = some s) :
    Atomic.Linearizable (Machine.CallStep lt maxHeight sizeLimit) (Machine.start s) (SetSpec lt) ∅ :=
  simulates_calls.linearizable (new_follows positive low made)

/-- A `remove` that searches a list without keys returns false. -/
theorem Machine.CallStep.misses {x : T} {top : Nat} (quiet : Quiet lt top m.list [])
    (here : m.threads t = .removeSearch x) :
    CallStep lt maxHeight sizeLimit m (some (.ret t false)) (m.after t m.list .idle []) := by
  obtain ⟨point, search, recorded⟩ := quiet.layers.findInsertionPoint x
  have missing : point.foundLayer = none := by
    cases found : point.foundLayer with
    | none => rfl
    | some layer =>
        obtain ⟨q, listed, -⟩ := recorded.present quiet.layers found
        cases listed
  have unshared : m.Unshared t := Machine.unshared_of_popping (by rw [here]; rfl)
  have stepped : m.step lt maxHeight sizeLimit t (.go fun _ => true) = some (m.after t m.list .idle []) := by
    simp only [Machine.step, threadStep, here, goOn, search, missing, Option.bind_eq_bind, Option.bind_some]
  have returns := Machine.CallStep.returns unshared stepped Machine.after_threads_self
  rw [here] at returns
  exact returns

end Runs

/-- One thread begins to add 5 to a new list, and another one is too early to remove it. -/
theorem calls_are_atomic_two_threads :
    ∃ (s : ConcurrentSkipList Nat) (m : Machine Nat), 0 < 2 ∧ 2 ≤ 24 ∧ new 2 = some s ∧
      Atomic.Run (Machine.CallStep (· < ·) 24 fun h => h) (Machine.start s)
        [.call 0 (.add 5), .call 1 (.remove 5), .ret 1 false] m ∧
      ∃ c, Atomic.Run (Atomic.Object.Step (SetSpec (· < ·))) (.initial ∅)
        [.call 0 (.add 5), .call 1 (.remove 5), .ret 1 false] c := by
  have := natOrder
  obtain ⟨s, made, quiet⟩ := new_spec (T := Nat) (· < ·) (by decide : 0 < 2) (by decide : 2 ≤ 24) (by decide)
  let m₁ := (Machine.start s).after 0 s (.addSearch 5) []
  let m₂ := m₁.after 1 s (.removeSearch 5) []
  have run₁ : Atomic.Run (Machine.CallStep (· < ·) 24 fun h => h) (Machine.start s) [.call 0 (.add 5)] m₁ :=
    .visible .start (.add rfl)
  have run₂ : Atomic.Run (Machine.CallStep (· < ·) 24 fun h => h) (Machine.start s)
      [.call 0 (.add 5), .call 1 (.remove 5)] m₂ := .visible run₁ (.remove rfl)
  have run₃ : Atomic.Run (Machine.CallStep (· < ·) 24 fun h => h) (Machine.start s)
      [.call 0 (.add 5), .call 1 (.remove 5), .ret 1 false] (m₂.after 1 s .idle []) :=
    .visible run₂ (.misses quiet Machine.after_threads_self)
  exact ⟨s, _, by decide, by decide, made, run₃, calls_are_atomic (by decide) (by decide) made _ _ run₃⟩

end Hcl.ConcurrentSkipList
