import Hcl.Lib.Runs
import Hcl.SkipList.Quiet
import Hcl.SkipList.Threads

/-!
A thread that runs while the others stand still computes what the operations compute alone.

`Alone` says that the steps of one thread lead from a list and a place in the code to another;
each loop of the source is one lemma. `Machine.runs_add` and `Machine.runs_remove` are the whole
operations, if one round of their retry loop is enough. The nodes that a thread gets from the
recycler on the way were in a queue when it started, or are new (`Spare`), so a run is exclusive
if the other threads have no pointer to such a node (`Machine.exclusive_of_free`).
-/

namespace Hcl.ConcurrentSkipList

open Hcl.Lib

variable {T : Type} [Inhabited T] {lt : T → T → Prop} [DecidableRel lt] {maxHeight : Nat}
  {sizeLimit : Nat → Nat} {m : Machine T} {t : Nat} {s s' s'' : ConcurrentSkipList T}
  {thread thread' thread'' : Local T} {point : InsertionPoint} {guards guards' : List Nat} {x : T}
  {nodeHeight node k : Nat} {Free : Nat → Prop}

/-- The steps of one thread in which the recycler hands out nodes of a kind. -/
def Machine.StepsOf (lt : T → T → Prop) [DecidableRel lt] (maxHeight : Nat) (sizeLimit : Nat → Nat)
    (Free : Nat → Prop) (t : Nat) (m : Machine T) (i : Nat × Choice T) (m' : Machine T) : Prop :=
  i.1 = t ∧ (∀ h p, (m.threads t).popping = some h → (m.list.nodeQueues h).head? = some p → Free p) ∧
    m.Steps lt maxHeight sizeLimit i m'

/-- Steps of thread `t` lead from `s` and `thread` to `s'` and `thread'`. -/
def Alone (lt : T → T → Prop) [DecidableRel lt] (maxHeight : Nat) (sizeLimit : Nat → Nat)
    (Free : Nat → Prop) (m : Machine T) (t : Nat) (s : ConcurrentSkipList T) (thread : Local T)
    (s' : ConcurrentSkipList T) (thread' : Local T) : Prop :=
  ∀ events, ∃ events', Reachable (Machine.StepsOf lt maxHeight sizeLimit Free t)
    (m.after t s thread events) (m.after t s' thread' events')

theorem Alone.trans (first : Alone lt maxHeight sizeLimit Free m t s thread s' thread')
    (second : Alone lt maxHeight sizeLimit Free m t s' thread' s'' thread'') :
    Alone lt maxHeight sizeLimit Free m t s thread s'' thread'' := by
  intro events
  obtain ⟨events', run⟩ := first events
  obtain ⟨events'', run'⟩ := second events'
  exact ⟨events'', run.trans run'⟩

/-- One step. -/
theorem Alone.step (draw : Nat → Bool) (events : List (Event T))
    (free : ∀ h p, thread.popping = some h → (s.nodeQueues h).head? = some p → Free p)
    (goes : goOn lt maxHeight sizeLimit draw s thread = some (s', thread', events)) :
    Alone lt maxHeight sizeLimit Free m t s thread s' thread' := by
  intro before
  have here : (m.after t s thread before).threads t = thread := Function.update_self ..
  refine ⟨events ++ before, .step (i := (t, .go draw)) .start ⟨rfl, by rwa [here], ?_⟩⟩
  simp only [Machine.Steps, Machine.step, threadStep, here]
  rw [show (m.after t s thread before).list = s from rfl, goes]
  simp only [Option.bind_eq_bind, Option.bind_some, Machine.after, Function.update_idem, List.append_assoc]

/-- One step that gets no node from the recycler. -/
theorem Alone.go (draw : Nat → Bool) (events : List (Event T)) (pops : thread.popping = none)
    (goes : goOn lt maxHeight sizeLimit draw s thread = some (s', thread', events)) :
    Alone lt maxHeight sizeLimit Free m t s thread s' thread' :=
  .step draw events (fun _ _ popping _ => nomatch pops.symm.trans popping) goes

/-! ### The spare nodes -/

/-- What the recycler can hand out: a node in a queue, or one that is not created yet. -/
def Spare (s : ConcurrentSkipList T) (p : Nat) : Prop := (∃ h, p ∈ s.nodeQueues h) ∨ s.nextAddress ≤ p

section SameStock

omit [Inhabited T]

/-- Nothing is created, destroyed, popped or pushed. -/
structure SameStock (s s' : ConcurrentSkipList T) : Prop where
  head : s'.head = s.head
  next : s'.nextAddress = s.nextAddress
  queues : s'.nodeQueues = s.nodeQueues
  height : ∀ p, (s'.memory p).height = (s.memory p).height

theorem SameStock.refl (s : ConcurrentSkipList T) : SameStock s s := ⟨rfl, rfl, rfl, fun _ => rfl⟩

theorem SameStock.trans (first : SameStock s s') (second : SameStock s' s'') : SameStock s s'' :=
  ⟨second.head.trans first.head, second.next.trans first.next, second.queues.trans first.queues,
    fun p => (second.height p).trans (first.height p)⟩

theorem SameStock.modify (p : Nat) {f : SkipListNode T → SkipListNode T}
    (height : (f (s.memory p)).height = (s.memory p).height) : SameStock s (s.modify p f) :=
  ⟨rfl, rfl, rfl, modify_keeps p f s SkipListNode.height height⟩

theorem SameStock.acquire {p : Nat} (guard : s.acquireGuard p = some s') : SameStock s s' := by
  unfold acquireGuard at guard
  split at guard
  · cases guard
  · obtain rfl := Option.some.inj guard
    exact .modify p rfl

theorem SameStock.release (same : SameStock s s') (guards : List Nat) :
    SameStock s (s'.releaseGuards guards) := by
  rw [releaseGuards_eq]
  exact ⟨same.head, same.next, same.queues, same.height⟩

theorem SameStock.setSkip {p k : Nat} {q : Option Nat} (set : s.setSkip p k q = some s') : SameStock s s' := by
  unfold ConcurrentSkipList.setSkip at set
  split at set
  · cases set
    exact .modify p rfl
  · cases set

/-- `lockNodesForChange` takes guards and nothing else. -/
theorem SameStock.locks {adding valid : Bool} {remaining layer : Nat} {prevPred : Option Nat}
    (locks : lockNodesForChange point adding remaining layer prevPred guards s = some (s', guards', valid)) :
    SameStock s s' := by
  induction remaining generalizing layer prevPred guards s with
  | zero =>
      cases locks
      exact .refl _
  | succ remaining ih =>
      obtain ⟨pred, -, locks⟩ := Option.bind_eq_some_iff.mp locks
      obtain ⟨⟨s₁, guards₁⟩, guard, locks⟩ := Option.bind_eq_some_iff.mp locks
      obtain ⟨ok, -, locks⟩ := Option.bind_eq_some_iff.mp locks
      have first : SameStock s s₁ := by
        unfold guardLayer at guard
        split at guard
        · cases guard
          exact .refl _
        · obtain ⟨s₂, acquires, same⟩ := Option.map_eq_some_iff.mp guard
          cases same
          exact .acquire acquires
      cases ok with
      | true => exact first.trans (ih locks)
      | false =>
          cases locks
          exact first

theorem SameStock.links {remaining : Nat} (links : linkLayers point node remaining k s = some s') :
    SameStock s s' := by
  induction remaining generalizing k s with
  | zero =>
      cases links
      exact .refl _
  | succ remaining ih =>
      obtain ⟨s₁, link, rest⟩ := Option.bind_eq_some_iff.mp links
      obtain ⟨s₂, prepares, link⟩ := Option.bind_eq_some_iff.mp link
      obtain ⟨pred, -, publishes⟩ := Option.bind_eq_some_iff.mp link
      exact ((setSkip prepares).trans (setSkip publishes)).trans (ih rest)

theorem SameStock.spare (same : SameStock s s') {p : Nat} (spare : s'.Spare p) : s.Spare p := by
  unfold Spare at spare ⊢
  rwa [same.queues, same.next] at spare

end SameStock

/-- What is spare after a `pop` was spare before. -/
theorem spare_of_pop {h p q : Nat} {isHead : Bool} (pops : s.pop h isHead = some (s', p))
    (spare : s'.Spare q) : s.Spare q := by
  unfold pop at pops
  split at pops
  · have stocked : ∀ q, (s.stocked h).Spare q → s.Spare q := by
      apply stocked_invariant (P := fun s' => ∀ q, s'.Spare q → s.Spare q)
      · rintro s' before q (⟨k, queued⟩ | new)
        · by_cases here : k = h
          · subst here
            simp only [createQueued, Function.update_self, List.mem_append, List.mem_singleton] at queued
            rcases queued with old | rfl
            · exact before q (.inl ⟨k, old⟩)
            · exact before _ (.inr (Nat.le_refl _))
          · simp only [createQueued, Function.update_of_ne here] at queued
            exact before q (.inl ⟨k, queued⟩)
        · exact before q (.inr (Nat.le_of_succ_le new))
      · exact fun _ spare => spare
    apply stocked
    unfold dequeue at pops
    split at pops
    · cases pops
    · rename_i rest queue
      cases pops
      rcases spare with ⟨k, queued⟩ | new
      · refine .inl ⟨k, ?_⟩
        by_cases here : k = h
        · subst here
          rw [queue]
          simp only [modify, Function.update_self] at queued
          exact List.mem_cons_of_mem _ queued
        · simpa only [modify, Function.update_of_ne here] using queued
      · exact .inr new
  · cases pops

/-! ### The loops of the source -/

/-- `lockNodesForChange`. -/
theorem Alone.locks {change : Change T} {remaining layer : Nat} {prevPred : Option Nat} {valid : Bool}
    (height : nodeHeight = layer + remaining)
    (locks : lockNodesForChange point change.adding remaining layer prevPred guards s =
      some (s', guards', valid)) :
    Alone lt maxHeight sizeLimit Free m t s (.guard change point nodeHeight layer prevPred guards) s'
      (if valid then change.proceed point nodeHeight guards' else .retry change guards') := by
  induction remaining generalizing layer prevPred guards s with
  | zero =>
      cases locks
      exact .go (fun _ => true) [] rfl (if_neg (by omega))
  | succ remaining ih =>
      obtain ⟨pred, found, locks⟩ := Option.bind_eq_some_iff.mp locks
      obtain ⟨⟨s₁, guards₁⟩, guard, locks⟩ := Option.bind_eq_some_iff.mp locks
      obtain ⟨ok, checked, locks⟩ := Option.bind_eq_some_iff.mp locks
      have low : layer < nodeHeight := by omega
      have guarding : Alone lt maxHeight sizeLimit Free m t s (.guard change point nodeHeight layer prevPred guards)
          s₁ (.validate change point nodeHeight layer pred guards₁) :=
        .go (fun _ => true) [] rfl (by
          simp only [goOn, if_pos low, found, guard, Option.bind_eq_bind, Option.bind_some])
      have validating : Alone lt maxHeight sizeLimit Free m t s₁
          (.validate change point nodeHeight layer pred guards₁) s₁
          (if ok then .guard change point nodeHeight (layer + 1) (some pred) guards₁
            else .retry change guards₁) :=
        .go (fun _ => true) [] rfl (by simp only [goOn, checked, Option.bind_eq_bind, Option.bind_some])
      refine (guarding.trans validating).trans ?_
      cases ok with
      | true => exact ih (by omega) locks
      | false =>
          cases locks
          exact fun events => ⟨events, .start⟩

/-- Both writes of a layer. -/
theorem Alone.link (link : linkLayer point node k s = some s') :
    Alone lt maxHeight sizeLimit Free m t s (.addPrepare point nodeHeight guards node k) s'
      (if k + 1 < nodeHeight then .addPrepare point nodeHeight guards node (k + 1)
        else .addFinish guards node) := by
  obtain ⟨s₁, prepares, link⟩ := Option.bind_eq_some_iff.mp link
  obtain ⟨pred, found, publishes⟩ := Option.bind_eq_some_iff.mp link
  have preparing : Alone lt maxHeight sizeLimit Free m t s (.addPrepare point nodeHeight guards node k) s₁
      (.addPublish point nodeHeight guards node k) :=
    .go (fun _ => true) [] rfl (by simp only [goOn, prepares, Option.bind_eq_bind, Option.bind_some])
  refine preparing.trans ?_
  split <;> rename_i more
  · refine .go (fun _ => true) [] rfl ?_
    simp only [goOn, found, publishes, Option.bind_eq_bind, Option.bind_some, if_pos more]
  · refine .go (fun _ => true) [.linked node (s'.keyOf node)] rfl ?_
    simp only [goOn, found, publishes, Option.bind_eq_bind, Option.bind_some, if_neg more]

/-- The loop that links a new node. -/
theorem Alone.links {remaining : Nat} (height : nodeHeight = k + (remaining + 1))
    (links : linkLayers point node (remaining + 1) k s = some s') :
    Alone lt maxHeight sizeLimit Free m t s (.addPrepare point nodeHeight guards node k) s'
      (.addFinish guards node) := by
  induction remaining generalizing k s with
  | zero =>
      obtain ⟨s₁, link, rest⟩ := Option.bind_eq_some_iff.mp links
      cases rest
      have linking : Alone lt maxHeight sizeLimit Free m t s (.addPrepare point nodeHeight guards node k) s' _ :=
        .link link
      rwa [if_neg (by omega)] at linking
  | succ remaining ih =>
      obtain ⟨s₁, link, rest⟩ := Option.bind_eq_some_iff.mp links
      have linking : Alone lt maxHeight sizeLimit Free m t s (.addPrepare point nodeHeight guards node k) s₁ _ :=
        .link link
      rw [if_pos (by omega)] at linking
      exact linking.trans (ih (by omega) rest)

/-- The loop that unlinks a node. -/
theorem Alone.unlinks (unlinks : unlinkLayers point node (k + 1) s = some s') :
    Alone lt maxHeight sizeLimit Free m t s (.removeUnlink point nodeHeight guards node (k + 1)) s'
      (.removeSize guards node) := by
  induction k generalizing s with
  | zero =>
      obtain ⟨s₁, unlink, rest⟩ := Option.bind_eq_some_iff.mp unlinks
      cases rest
      exact .go (fun _ => true) [.removed node] rfl (by
        simp only [goOn, unlink, Option.bind_eq_bind, Option.bind_some, Nat.lt_irrefl, if_false])
  | succ k ih =>
      obtain ⟨s₁, unlink, rest⟩ := Option.bind_eq_some_iff.mp unlinks
      have unlinking : Alone lt maxHeight sizeLimit Free m t s
          (.removeUnlink point nodeHeight guards node (k + 1 + 1)) s₁
          (.removeUnlink point nodeHeight guards node (k + 1)) :=
        .go (fun _ => true) [] rfl (by
          simp only [goOn, unlink, Option.bind_eq_bind, Option.bind_some, Nat.succ_pos, if_true])
      exact unlinking.trans (ih rest)

/-- `growHeight`. -/
theorem Alone.growHeight {height : Nat} (free : ∀ p, s.Spare p → Free p)
    (grows : s.growHeight height = some s') :
    Alone lt maxHeight sizeLimit Free m t s (.growLoad height) s' .idle := by
  simp only [ConcurrentSkipList.growHeight] at grows
  split at grows <;> rename_i enough
  · cases grows
    have enough : height ≤ s.height := enough
    exact .go (fun _ => true) [] rfl (by simp only [goOn, if_pos enough])
  · obtain ⟨⟨s₁, newHead⟩, pops, grows⟩ := Option.bind_eq_some_iff.mp grows
    obtain ⟨s₂, guard, grows⟩ := Option.bind_eq_some_iff.mp grows
    have enough : ¬ height ≤ s.height := enough
    have loading : Alone lt maxHeight sizeLimit Free m t s (.growLoad height) s (.growPop height s.head) :=
      .go (fun _ => true) [] rfl (by simp only [goOn, if_neg enough])
    have popping : Alone lt maxHeight sizeLimit Free m t s (.growPop height s.head) s₁ (.growGuard s.head newHead) :=
      .step (fun _ => true) [] (fun h p _ first => free p (.inl ⟨h, List.mem_of_mem_head? first⟩))
        (by simp only [goOn, pops, Option.bind_eq_bind, Option.bind_some])
    have guarding : Alone lt maxHeight sizeLimit Free m t s₁ (.growGuard s.head newHead) s₂
        (.growExchange s.head newHead) :=
      .go (fun _ => true) [] rfl (by simp only [goOn, guard, Option.bind_eq_bind, Option.bind_some])
    have exchanging : Alone lt maxHeight sizeLimit Free m t s₂ (.growExchange s.head newHead)
        (s₂.exchangeHead newHead s.head).1
        (if (s₂.exchangeHead newHead s.head).2 then .growPush s.head else .idle) :=
      .go (fun _ => true) [] rfl rfl
    refine ((loading.trans popping).trans guarding).trans (exchanging.trans ?_)
    split at grows <;> rename_i exchanged
    · rw [if_pos exchanged]
      exact .go (fun _ => true) [] rfl (by simp only [goOn, grows, Option.bind_eq_bind, Option.bind_some])
    · cases grows
      rw [if_neg exchanged]
      exact fun events => ⟨events, .start⟩

/-- The end of `addOrGetData`. -/
theorem Alone.grow {newSize : Nat} (free : ∀ p, s.Spare p → Free p)
    (grows : s.growIfOver maxHeight sizeLimit newSize = some s') :
    Alone lt maxHeight sizeLimit Free m t s (.addCheck newSize) s' .idle := by
  unfold growIfOver at grows
  split at grows <;> rename_i exceeds
  · have checking : Alone lt maxHeight sizeLimit Free m t s (.addCheck newSize) s (.growLoad (s.height + 1)) :=
      .go (fun _ => true) [] rfl (by simp only [goOn, if_pos exceeds])
    exact checking.trans (.growHeight free grows)
  · cases grows
    exact .go (fun _ => true) [] rfl (by simp only [goOn, if_neg exceeds])

/-- `addOrGetData`, if its first round succeeds. -/
theorem Alone.add {draws : Nat → Nat → Bool} {out : Nat × Nat} (positive : 0 < s.height)
    (free : ∀ p, s.Spare p → Free p)
    (adds : addOrGetData lt maxHeight sizeLimit x 1 draws s = some (s', out)) :
    Alone lt maxHeight sizeLimit Free m t s (.addSearch x) s' .idle := by
  obtain ⟨point, search, adds⟩ := Option.bind_eq_some_iff.mp adds
  cases found : point.foundLayer with
  | some layer =>
      simp only [found] at adds
      obtain ⟨nodeFound, succ, adds⟩ := Option.bind_eq_some_iff.mp adds
      have searching : Alone lt maxHeight sizeLimit Free m t s (.addSearch x) s (.addFound x nodeFound) :=
        .go (fun _ => true) [] rfl (by
          simp only [goOn, search, found, succ, Option.bind_eq_bind, Option.bind_some])
      split at adds
      · cases adds
      · rename_i unmarked
        split at adds
        · rename_i full
          cases adds
          have checking : Alone lt maxHeight sizeLimit Free m t s (.addFound x nodeFound) s (.addWait nodeFound) :=
            .go (fun _ => true) [] rfl (by simp only [goOn, if_neg unmarked])
          exact (searching.trans checking).trans
            (.go (fun _ => true) [] rfl (by simp only [goOn, if_pos full]))
        · cases adds
  | none =>
      simp only [found] at adds
      obtain ⟨⟨s₁, guards, valid⟩, locks, adds⟩ := Option.bind_eq_some_iff.mp adds
      have searching : Alone lt maxHeight sizeLimit Free m t s (.addSearch x) s
          (.guard (.add x) point (getHeight (draws 0) s.height) 0 none []) :=
        .go (draws 0) [] rfl (by simp only [goOn, search, found, Option.bind_eq_bind, Option.bind_some])
      have locking : Alone lt maxHeight sizeLimit Free m t s
          (.guard (.add x) point (getHeight (draws 0) s.height) 0 none []) s₁ _ :=
        .locks (Nat.zero_add _).symm locks
      cases valid with
      | false => cases adds
      | true =>
          obtain ⟨⟨s₂, node⟩, pops, adds⟩ := Option.bind_eq_some_iff.mp adds
          obtain ⟨s₃, links, adds⟩ := Option.bind_eq_some_iff.mp adds
          obtain ⟨s₄, grows, adds⟩ := Option.bind_eq_some_iff.mp adds
          cases adds
          obtain ⟨remaining, high⟩ : ∃ remaining, getHeight (draws 0) s.height = remaining + 1 :=
            ⟨getHeight (draws 0) s.height - 1, by have := getHeight_bounds (draws 0) positive; omega⟩
          rw [high] at links searching locking pops
          -- What the recycler has when the node is popped, and when the list grows, was spare before.
          have free₁ : ∀ p, s₁.Spare p → Free p := fun p spare =>
            free p ((SameStock.locks locks).spare spare)
          have stored : SameStock s₂ (s₂.storeData node x) := .modify node rfl
          have full : SameStock s₃ (s₃.setFullyLinked node) := .modify node rfl
          have counted : SameStock s₃ (s₃.setFullyLinked node).sizeUp :=
            full.trans ⟨rfl, rfl, rfl, fun _ => rfl⟩
          have linked : SameStock s₂ ((s₃.setFullyLinked node).sizeUp.releaseGuards guards) :=
            ((stored.trans (.links links)).trans counted).release guards
          have free₃ : ∀ p, ((s₃.setFullyLinked node).sizeUp.releaseGuards guards).Spare p → Free p :=
            fun p spare => free₁ p (spare_of_pop pops (linked.spare spare))
          have popping : Alone lt maxHeight sizeLimit Free m t s₁ (.addPop x point (remaining + 1) guards) s₂
              (.addStore x point (remaining + 1) guards node) :=
            .step (fun _ => true) [] (fun h p _ first => free₁ p (.inl ⟨h, List.mem_of_mem_head? first⟩))
              (by simp only [goOn, pops, Option.bind_eq_bind, Option.bind_some])
          have storing : Alone lt maxHeight sizeLimit Free m t s₂ (.addStore x point (remaining + 1) guards node)
              (s₂.storeData node x) (.addPrepare point (remaining + 1) guards node 0) :=
            .go (fun _ => true) [] rfl rfl
          have finishing : Alone lt maxHeight sizeLimit Free m t s₃ (.addFinish guards node)
              (s₃.setFullyLinked node) (.addSize guards) := .go (fun _ => true) [] rfl rfl
          have counting : Alone lt maxHeight sizeLimit Free m t (s₃.setFullyLinked node) (.addSize guards)
              ((s₃.setFullyLinked node).sizeUp.releaseGuards guards)
              (.addCheck (s₃.setFullyLinked node).sizeUp.size) := .go (fun _ => true) [] rfl rfl
          exact (((((searching.trans locking).trans popping).trans storing).trans
            (.links (Nat.zero_add _).symm links)).trans finishing).trans (counting.trans (.grow free₃ grows))

/-- The part of `remove` behind the mark, if its first round succeeds. -/
theorem Alone.remove_marked {removed : Bool} (high : nodeHeight = (s.memory node).height)
    (positive : 0 < nodeHeight)
    (removes : ((lockNodesForChange point false (s.memory node).height 0 none [] s).bind fun out =>
      if out.2.2 = true then
        (unlinkLayers point node (out.1.memory node).height out.1).bind fun s =>
          (push (s.memory node).height node (releaseGuards out.2.1 s.sizeDown)).bind fun s => some (s, true)
      else none) = some (s', removed)) :
    Alone lt maxHeight sizeLimit Free m t s (.guard (.remove x node) point nodeHeight 0 none []) s' .idle := by
  obtain ⟨⟨s₁, guards, valid⟩, locks, removes⟩ := Option.bind_eq_some_iff.mp removes
  rw [← high] at locks
  have locking : Alone lt maxHeight sizeLimit Free m t s (.guard (.remove x node) point nodeHeight 0 none []) s₁ _ :=
    .locks (Nat.zero_add _).symm locks
  cases valid with
  | false => cases removes
  | true =>
      obtain ⟨s₂, unlinks, removes⟩ := Option.bind_eq_some_iff.mp removes
      obtain ⟨s₃, pushes, removes⟩ := Option.bind_eq_some_iff.mp removes
      cases removes
      obtain ⟨k, rfl⟩ : ∃ k, nodeHeight = k + 1 := ⟨nodeHeight - 1, by omega⟩
      rw [(SameStock.locks locks).height, ← high] at unlinks
      have counting : Alone lt maxHeight sizeLimit Free m t s₂ (.removeSize guards node)
          (s₂.sizeDown.releaseGuards guards) (.removePush node) := .go (fun _ => true) [] rfl rfl
      have same : ((s₂.sizeDown.releaseGuards guards).memory node).height = (s₂.memory node).height := by
        rw [releaseGuards_eq]
        rfl
      have pushing : Alone lt maxHeight sizeLimit Free m t (s₂.sizeDown.releaseGuards guards) (.removePush node) s'
          .idle :=
        .go (fun _ => true) [] rfl (by simp only [goOn, same, pushes, Option.bind_eq_bind, Option.bind_some])
      exact (locking.trans (.unlinks unlinks)).trans (counting.trans pushing)

/-- `remove`, if its first round succeeds. -/
theorem Alone.remove [IsStrictWeakOrder T lt] {xs : List Nat} {lh : Nat → Nat} {removed : Bool}
    (layers : Layers lt s xs lh) (removes : removeFrom lt x 1 none s = some (s', removed)) :
    Alone lt maxHeight sizeLimit Free m t s (.removeSearch x) s' .idle := by
  obtain ⟨point, search, recorded⟩ := layers.findInsertionPoint x
  simp only [removeFrom, search, Option.bind_eq_bind, Option.bind_some] at removes
  cases found : point.foundLayer with
  | none =>
      simp only [markForRemoval, found, Option.bind_some, Option.some.injEq, Prod.mk.injEq] at removes
      obtain ⟨rfl, -⟩ := removes
      exact .go (fun _ => true) [] rfl (by simp only [goOn, search, found, Option.bind_eq_bind, Option.bind_some])
  | some layer =>
      obtain ⟨q, listed, -, -, succ⟩ := recorded.present layers found
      have searching : Alone lt maxHeight sizeLimit Free m t s (.removeSearch x) s (.removeCheck x point layer q) :=
        .go (fun _ => true) [] rfl (by
          simp only [goOn, search, found, succ, Option.bind_eq_bind, Option.bind_some])
      simp only [markForRemoval, found, succ, Option.bind_eq_bind, Option.bind_some] at removes
      by_cases ok : okToDelete s q layer = true
      · have checking : Alone lt maxHeight sizeLimit Free m t s (.removeCheck x point layer q) s
            (.removeGuard x point layer q) := .go (fun _ => true) [] rfl (by simp only [goOn, if_pos ok])
        simp only [ok, Bool.not_true, Bool.false_eq_true, if_false] at removes
        obtain ⟨⟨s₁, marked⟩, marks, removes⟩ := Option.bind_eq_some_iff.mp removes
        obtain ⟨s₂, guard, marks⟩ := Option.bind_eq_some_iff.mp marks
        have guarding : Alone lt maxHeight sizeLimit Free m t s (.removeGuard x point layer q) s₂
            (.removeMark x point layer q) :=
          .go (fun _ => true) [] rfl (by simp only [goOn, guard, Option.bind_eq_bind, Option.bind_some])
        have before := (searching.trans checking).trans guarding
        split at marks <;> rename_i wasMarked
        · cases marks
          cases removes
          exact before.trans (.go (fun _ => true) [] rfl (by simp only [goOn, if_pos wasMarked]))
        · cases marks
          have marking : Alone lt maxHeight sizeLimit Free m t s₂ (.removeMark x point layer q)
              ((s₂.setMarkedForRemoval q).releaseGuard q) (.guard (.remove x q) point (s₂.memory q).height 0 none []) :=
            .go (fun _ => true) [.marked q] rfl (by simp only [goOn, if_neg wasMarked])
          refine before.trans (marking.trans (.remove_marked ?_ ?_ removes))
          · exact ((modify_keeps q _ _ SkipListNode.height rfl q).trans
              (modify_keeps q _ s₂ SkipListNode.height rfl q)).symm
          · rw [(SameStock.acquire guard).height]
            have := layers.linked q listed
            omega
      · have checking : Alone lt maxHeight sizeLimit Free m t s (.removeCheck x point layer q) s .idle :=
          .go (fun _ => true) [] rfl (by simp only [goOn, if_neg ok])
        simp only [ok, Bool.not_false, if_true, Option.bind_some, Option.some.injEq, Prod.mk.injEq] at removes
        obtain ⟨rfl, -⟩ := removes
        exact searching.trans checking

/-! ### Whole operations -/

/-- A thread that is idle before and after, with the list it leaves. -/
theorem Alone.operation (choice : Choice T) (idle : m.threads t = .idle)
    (starts : threadStep lt maxHeight sizeLimit m.list .idle choice = some (m.list, thread, []))
    (run : Alone lt maxHeight sizeLimit Free m t m.list thread s' .idle) :
    ∃ log, Reachable (Machine.StepsOf lt maxHeight sizeLimit Free t) m ⟨s', m.threads, log⟩ := by
  obtain ⟨events, run⟩ := run []
  have started : Machine.Steps lt maxHeight sizeLimit m (t, choice) (m.after t m.list thread []) := by
    simp only [Machine.Steps, Machine.step, idle, starts, Option.bind_eq_bind, Option.bind_some]
  have pops : ∀ h p, (m.threads t).popping = some h → (m.list.nodeQueues h).head? = some p → Free p := by
    intro h p popping
    rw [idle] at popping
    cases popping
  refine ⟨events ++ m.log, (Reachable.step (i := (t, choice)) .start ⟨rfl, pops, started⟩).trans ?_⟩
  have same : m.after t s' .idle events = ⟨s', m.threads, events ++ m.log⟩ := by
    rw [Machine.after, ← idle, Function.update_eq_self]
  exact same ▸ run

/-- **A thread that runs `add` alone** leaves the list as `addOrGetData` does. -/
theorem Machine.runs_add {draws : Nat → Nat → Bool} {out : Nat × Nat} (idle : m.threads t = .idle)
    (positive : 0 < m.list.height) (free : ∀ p, m.list.Spare p → Free p)
    (adds : addOrGetData lt maxHeight sizeLimit x 1 draws m.list = some (s', out)) :
    ∃ log, Reachable (Machine.StepsOf lt maxHeight sizeLimit Free t) m ⟨s', m.threads, log⟩ :=
  Alone.operation (.add x) idle rfl (.add positive free adds)

/-- **A thread that runs `remove` alone** leaves the list as `remove` does. -/
theorem Machine.runs_remove [IsStrictWeakOrder T lt] {xs : List Nat} {lh : Nat → Nat} {removed : Bool}
    (idle : m.threads t = .idle) (layers : Layers lt m.list xs lh)
    (removes : removeFrom lt x 1 none m.list = some (s', removed)) :
    ∃ log, Reachable (Machine.StepsOf lt maxHeight sizeLimit Free t) m ⟨s', m.threads, log⟩ :=
  Alone.operation (.remove x) idle rfl (.remove layers removes)

/-- The other threads stay where they are, so every step is exclusive if none of them has a
pointer to a node of the kind. -/
theorem Machine.exclusive_of_free {m' : Machine T}
    (apart : ∀ u ≠ t, ∀ p, Free p → ¬ (m.threads u).Holds p)
    (run : Reachable (Machine.StepsOf lt maxHeight sizeLimit Free t) m m') :
    Reachable (Machine.ExclusiveSteps lt maxHeight sizeLimit) m m' := by
  suffices both : Reachable (Machine.ExclusiveSteps lt maxHeight sizeLimit) m m' ∧
      ∀ u ≠ t, m'.threads u = m.threads u from both.1
  induction run with
  | start => exact ⟨.start, fun _ _ => rfl⟩
  | @step m₁ m₂ i _ taken ih =>
      obtain ⟨rfl, free, taken⟩ := taken
      obtain ⟨run, others⟩ := ih
      refine ⟨.step run ⟨?_, taken⟩, ?_⟩
      · intro h p popping first u other holds
        rw [others u other] at holds
        exact apart u other p (free h p popping first) holds
      · intro u other
        obtain ⟨⟨s', thread', events⟩, -, rest⟩ := Option.bind_eq_some_iff.mp taken
        obtain rfl := Option.some.inj rest
        exact (Function.update_of_ne other ..).trans (others u other)

/-- While the other threads are idle, every step is exclusive. -/
theorem Machine.exclusive_of_idle {m' : Machine T} (idle : ∀ u, m.threads u = .idle)
    (run : Reachable (Machine.StepsOf lt maxHeight sizeLimit Free t) m m') :
    Reachable (Machine.ExclusiveSteps lt maxHeight sizeLimit) m m' := by
  refine Machine.exclusive_of_free ?_ run
  intro u _ p _ holds
  rw [idle u] at holds
  exact holds

/-! ### A list between the operations of one thread -/

/-- `sizeLimitTable_` for the heights of a list with `MAX_HEIGHT` 24: the powers of `exp(1)`,
rounded down. -/
def sizeLimitTable (height : Nat) : Nat :=
  [1, 2, 7, 20, 54, 148, 403, 1096, 2980, 8103, 22026, 59874, 162754, 442413, 1202604, 3269017, 8886110,
    24154952, 65659969, 178482300, 485165195, 1318815734, 3584912846, 9744803446].getD height 0

/-- A list of height 2 whose nodes have height 1, between the operations of thread 0. -/
structure Calm (m : Machine Nat) (threads : Nat → Local Nat) (xs : List Nat) : Prop where
  threads : m.threads = threads
  quiet : Quiet (· < ·) 24 m.list xs
  height : m.list.height = 2
  low : ∀ p ∈ xs, (m.list.memory p).height = 1

section Calm

variable {m : Machine Nat} {threads : Nat → Local Nat} {xs : List Nat} {a b : Nat}

/-- A new list. -/
theorem exists_calm : ∃ s, new 2 = some s ∧ Calm (Machine.start s) (fun _ => .idle) [] := by
  have := natOrder
  obtain ⟨s, made, quiet⟩ := new_spec (T := Nat) (· < ·) (by decide : 0 < 2) (by decide : 2 ≤ 24) (by decide)
  exact ⟨s, made, rfl, quiet, (new_flags made).1, by simp⟩

/-- Thread 0 adds a key, in the first node of the queue. -/
theorem Calm.add (calm : Calm m threads xs) (idle : threads 0 = .idle) {x : Nat}
    (absent : ∀ q ∈ xs, m.list.keyOf q ≠ x) (few : xs.length < 7) (free : ∀ p ∉ xs, Free p) :
    ∃ m' node, Reachable (Machine.StepsOf (· < ·) 24 sizeLimitTable Free 0) m m' ∧
      Calm m' threads (insertNode (· < ·) m.list x node xs) ∧ node ∉ xs ∧ m'.list.keyOf node = x ∧
      (∀ p ∈ xs, m'.list.keyOf p = m.list.keyOf p) ∧
      ∀ q rest, m.list.nodeQueues 1 = q :: rest → node = q ∧ m'.list.nodeQueues 1 = rest := by
  have := natOrder
  have one : getHeight (fun _ => true) m.list.height = 1 := by rw [calm.height]; rfl
  obtain ⟨s', node, adds, quiet, outside, height, high, key, kept, queue⟩ :=
    calm.quiet.adds (by decide) sizeLimitTable 0 (fun _ _ => true) fun q hq same =>
      absent q hq (Nat.le_antisymm (Nat.le_of_not_lt same.2) (Nat.le_of_not_lt same.1))
  rw [one] at high queue
  have enough : ¬ (s'.height < 24 ∧ sizeLimitTable s'.height < xs.length + 1) := by
    rw [height, calm.height]
    have : sizeLimitTable 2 = 7 := rfl
    omega
  have spare : ∀ p, m.list.Spare p → Free p := by
    rintro p (⟨h, queued⟩ | new)
    · exact free p fun listed =>
        (calm.quiet.stock.queued h p queued).2.2 (List.mem_cons_of_mem _ listed)
    · exact free p fun listed =>
        Nat.not_lt_of_le new (calm.quiet.stock.allocated p (List.mem_cons_of_mem _ listed))
  obtain ⟨log, run⟩ := Machine.runs_add (m := m) (t := 0) (by rw [calm.threads, idle])
    calm.quiet.layers.positive spare (adds s' (if_neg enough))
  refine ⟨⟨s', m.threads, log⟩, node, run, ⟨calm.threads, quiet, height.trans calm.height, ?_⟩,
    outside, key, fun p hp => (kept p hp).1, ?_⟩
  · intro p hp
    rcases (mem_insertNode calm.quiet.layers.ascending).mp hp with rfl | hp
    · exact high
    · exact (kept p hp).2.trans (calm.low p hp)
  · intro q rest first
    obtain ⟨taken, queues⟩ := queue q rest first
    exact ⟨taken, by rw [queues, Function.update_self]⟩

/-- Thread 0 removes a key, and its node goes to the end of the queue. -/
theorem Calm.remove (calm : Calm m threads xs) (idle : threads 0 = .idle) (listed : a ∈ xs)
    (Free : Nat → Prop) :
    ∃ m', Reachable (Machine.StepsOf (· < ·) 24 sizeLimitTable Free 0) m m' ∧
      Calm m' threads (xs.erase a) ∧ m'.list.nodeQueues 1 = m.list.nodeQueues 1 ++ [a] ∧
      ∀ p ∈ xs.erase a, m'.list.keyOf p = m.list.keyOf p := by
  have := natOrder
  obtain ⟨s', removes, quiet, queues, height, kept⟩ :=
    calm.quiet.remove_present (x := m.list.keyOf a) (by decide) 0 listed ⟨irrefl _, irrefl _⟩
  obtain ⟨log, run⟩ : ∃ log, Reachable (Machine.StepsOf (· < ·) 24 sizeLimitTable Free 0) m
      ⟨s', m.threads, log⟩ :=
    Machine.runs_remove (by rw [calm.threads, idle]) calm.quiet.layers removes
  refine ⟨⟨s', m.threads, log⟩, run, ⟨calm.threads, quiet, height.trans calm.height, ?_⟩, ?_,
    fun p hp => (kept p hp).1⟩
  · intro p hp
    exact (kept p hp).2.trans (calm.low p (List.mem_of_mem_erase hp))
  · show s'.nodeQueues 1 = _
    rw [queues, calm.low a listed]
    show Function.update m.list.nodeQueues 1 (m.list.nodeQueues 1 ++ [a]) 1 = _
    rw [Function.update_self]

/-- Thread 0 turns the queue, with a key above all others, until the node `a` is at its front. -/
theorem Calm.turn (idle : threads 0 = .idle) {ys zs : List Nat} (calm : Calm m threads xs) {x : Nat}
    (keys : ∀ q ∈ xs, m.list.keyOf q < x) (few : xs.length < 7) (free : ∀ p ∉ xs, Free p)
    (queue : m.list.nodeQueues 1 = ys ++ a :: zs) :
    ∃ m' rest, Reachable (Machine.StepsOf (· < ·) 24 sizeLimitTable Free 0) m m' ∧
      Calm m' threads xs ∧ (∀ q ∈ xs, m'.list.keyOf q = m.list.keyOf q) ∧
      m'.list.nodeQueues 1 = a :: rest := by
  induction ys generalizing m zs with
  | nil => exact ⟨m, zs, .start, calm, fun _ _ => rfl, queue⟩
  | cons y ys ih =>
      obtain ⟨m₁, node, run₁, calm₁, outside, -, keys₁, queue₁⟩ := calm.add (x := x) idle
        (fun q hq => Nat.ne_of_lt (keys q hq)) few free
      obtain ⟨rfl, queue₁⟩ := queue₁ y (ys ++ a :: zs) queue
      have order : insertNode (· < ·) m.list x node xs = xs ++ [node] := by
        have all : under (· < ·) m.list.keyOf x xs = xs :=
          List.filter_eq_self.mpr fun q hq => decide_eq_true (keys q hq)
        have rest : onward (· < ·) m.list.keyOf x xs = [] :=
          List.filter_eq_nil_iff.mpr fun q hq => by simp [keys q hq]
        rw [insertNode, all, rest]
      rw [order] at calm₁
      obtain ⟨m₂, run₂, calm₂, queue₂, keys₂⟩ := calm₁.remove idle (a := node) (by simp) Free
      have erased : (xs ++ [node]).erase node = xs := by
        rw [List.erase_append_right _ outside, List.erase_cons_head, List.append_nil]
      rw [erased] at calm₂ keys₂
      have kept : ∀ q ∈ xs, m₂.list.keyOf q = m.list.keyOf q := fun q hq =>
        (keys₂ q hq).trans (keys₁ q hq)
      have queue₃ : m₂.list.nodeQueues 1 = ys ++ a :: (zs ++ [node]) := by
        rw [queue₂, queue₁, List.append_assoc, List.cons_append]
      obtain ⟨m₃, rest, run₃, calm₃, keys₃, queue₃⟩ := ih calm₂
        (fun q hq => by rw [kept q hq]; exact keys q hq) queue₃
      exact ⟨m₃, rest, (run₁.trans run₂).trans run₃, calm₃,
        fun q hq => (keys₃ q hq).trans (kept q hq), queue₃⟩

/-- Thread 1 searches for a key between those of two nodes. -/
theorem Calm.search (calm : Calm m threads [a, b]) (idle : threads 1 = .idle) {x : Nat}
    (keyA : m.list.keyOf a < x) (keyB : x < m.list.keyOf b) (Free : Nat → Prop) :
    ∃ m' point, Reachable (Machine.StepsOf (· < ·) 24 sizeLimitTable Free 1) m m' ∧
      m'.list = m.list ∧
      Calm m' (Function.update threads 1 (.guard (.add x) point 1 0 none [])) [a, b] ∧
      point.preds 0 = some a ∧ point.succs 0 = some b := by
  have := natOrder
  obtain ⟨point, search, recorded⟩ := calm.quiet.layers.findInsertionPoint x
  have missing : point.foundLayer = none := by
    cases found : point.foundLayer with
    | none => rfl
    | some layer =>
        obtain ⟨q, listed, same, -⟩ := recorded.present calm.quiet.layers found
        have : q = a ∨ q = b := by simpa using listed
        rcases this with rfl | rfl
        · exact absurd keyA same.1
        · exact absurd keyB same.2
  have lowA := calm.low a (by simp)
  have lowB := calm.low b (by simp)
  have positive := calm.quiet.layers.positive
  have free : ∀ h p, (m.threads 1).popping = some h → (m.list.nodeQueues h).head? = some p → Free p := by
    intro h p popping
    rw [calm.threads, idle] at popping
    cases popping
  have starting : Machine.StepsOf (· < ·) 24 sizeLimitTable Free 1 m (1, .add x)
      (m.after 1 m.list (.addSearch x) []) := by
    refine ⟨rfl, free, ?_⟩
    simp only [Machine.Steps, Machine.step, calm.threads, idle, threadStep, Option.bind_eq_bind, Option.bind_some]
  have searching : Alone (· < ·) 24 sizeLimitTable Free m 1 m.list (.addSearch x) m.list
      (.guard (.add x) point 1 0 none []) := by
    refine .go (fun _ => true) [] rfl ?_
    simp only [goOn, search, missing, Option.bind_eq_bind, Option.bind_some, calm.height]
    rfl
  obtain ⟨events, run⟩ := searching []
  refine ⟨_, point, (Reachable.step .start starting).trans run, rfl,
    ⟨?_, calm.quiet, calm.height, calm.low⟩, ?_, ?_⟩
  · rw [Machine.after, calm.threads]
  · rw [recorded.preds 0 (Nat.le_refl 0) positive]
    simp [predAt, under, layer, keyA, Nat.lt_asymm keyB, lowA]
  · rw [recorded.succs 0 (Nat.le_refl 0) positive]
    simp [succAt, onward, layer, keyA, Nat.lt_asymm keyB, lowB]

end Calm

end Hcl.ConcurrentSkipList
