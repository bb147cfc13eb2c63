import Hcl.SkipList.Conservation
import Hcl.SkipList.Representation

/-!
The end of a skip list: the last accessor lets go, and `~ConcurrentSkipList` follows.

`releaseRef` destroys what is in the queues of the recycler, and the destructor what it meets on
the bottom layer, the head first; `~NodeRecycler` has nothing left to destroy. With the account
of `Machine.Accounted` these are all the nodes that were ever created and not destroyed before,
each of them once (`nodes_destroyed_once`).

`current->skip(0)` of a destroyed node has no value, so a destructor that came to a node twice
would not get through.
-/

namespace Hcl.ConcurrentSkipList

open Hcl.Lib

variable {T : Type} {lt : T → T → Prop} {m : Machine T} {xs : List Nat} {lh : Nat → Nat}
  {s s' : ConcurrentSkipList T} {p q : Nat}

/-! ### The places of a node -/

inductive Place where
  | head
  | linked
  | owned (t : Nat)
  | queued (h : Nat)
  | destroyed

/-- Where a node is. A node that a thread is linking or unlinking is that thread's. -/
def Machine.At (m : Machine T) (p : Nat) : Place → Prop
  | .head => p = m.list.head
  | .linked => (∃ xs, Chain (m.list.links 0) (some m.list.head) (m.list.head :: xs) ∧ p ∈ xs) ∧
      ∀ t, (m.threads t).own ≠ some p
  | .owned t => (m.threads t).own = some p
  | .queued h => p ∈ m.list.nodeQueues h
  | .destroyed => (m.list.memory p).height = 0

section Places

variable (inv : m.Inv lt xs lh) (accounted : m.Accounted)
include inv

theorem Machine.Inv.at_linked (linked : m.At p .linked) : p ∈ xs ∧ ∀ t, (m.threads t).own ≠ some p := by
  obtain ⟨⟨ys, chain, listed⟩, free⟩ := linked
  have same : m.list.head :: ys = m.list.head :: xs := chain.unique inv.layers.bottom
  rw [(List.cons.inj same).2] at listed
  exact ⟨listed, free⟩

include accounted

/-- Only what was created has a place in the list, at a thread or in a queue. -/
theorem Machine.Accounted.tall_of_at {place : Place} (here : m.At p place) (whole : place ≠ .destroyed) :
    0 < (m.list.memory p).height := by
  cases place with
  | head =>
      rw [show p = m.list.head from here]
      exact inv.layers.positive
  | linked =>
      obtain ⟨positive, low, -⟩ := inv.layers.linked p (inv.at_linked here).1
      exact Nat.lt_of_lt_of_le positive low
  | owned t => exact accounted.tall t p here
  | queued h =>
      rw [(inv.stock.queued h p here).1]
      exact (accounted.queues h p here).1
  | destroyed => exact absurd rfl whole

/-- A node in a queue is in no other place. -/
theorem Machine.Accounted.of_queued {place : Place} {h : Nat} (queued : p ∈ m.list.nodeQueues h)
    (here : m.At p place) : place = .queued h := by
  obtain ⟨height, -, unused⟩ := inv.stock.queued h p queued
  cases place with
  | head => exact absurd (.inl (List.mem_cons.mpr (.inl here))) unused
  | linked => exact absurd (.inl (List.mem_cons_of_mem _ (inv.at_linked here).1)) unused
  | owned t => exact absurd (.inr ⟨t, here⟩) unused
  | queued k => rw [← height, (inv.stock.queued k p here).1]
  | destroyed =>
      have positive := (accounted.queues h p queued).1
      rw [← height, show (m.list.memory p).height = 0 from here] at positive
      cases positive

/-- **A node is in one place at most.** -/
theorem Machine.Accounted.place_unique {first second : Place} (here : m.At p first)
    (there : m.At p second) : first = second := by
  by_cases gone : (m.list.memory p).height = 0
  · have only : ∀ {place : Place}, m.At p place → place = .destroyed := by
      intro place at_
      by_contra whole
      exact absurd gone (Nat.ne_of_gt (accounted.tall_of_at inv at_ whole))
    rw [only here, only there]
  cases first with
  | destroyed => exact absurd here gone
  | queued h => exact (accounted.of_queued inv here there).symm
  | head =>
      cases second with
      | head => rfl
      | linked =>
          have listed := (inv.at_linked there).1
          rw [show p = m.list.head from here] at listed
          exact absurd listed inv.layers.nodup.1
      | owned t => exact absurd here (inv.own_ne_head there)
      | queued h => exact accounted.of_queued inv there here
      | destroyed => exact absurd there gone
  | linked =>
      cases second with
      | head =>
          have listed := (inv.at_linked here).1
          rw [show p = m.list.head from there] at listed
          exact absurd listed inv.layers.nodup.1
      | linked => rfl
      | owned t => exact absurd there ((inv.at_linked here).2 t)
      | queued h => exact accounted.of_queued inv there here
      | destroyed => exact absurd there gone
  | owned t =>
      cases second with
      | head => exact absurd there (inv.own_ne_head here)
      | linked => exact absurd here ((inv.at_linked there).2 t)
      | owned u => rw [inv.owners t u p here there]
      | queued h => exact accounted.of_queued inv there here
      | destroyed => exact absurd there gone

/-- **A node that was created is in one place.** -/
theorem Machine.Accounted.exists_place (created : p < m.list.nextAddress) : ∃ place, m.At p place := by
  by_cases owned : ∃ t, (m.threads t).own = some p
  · obtain ⟨t, own⟩ := owned
    exact ⟨.owned t, own⟩
  have free : ∀ t, (m.threads t).own ≠ some p := fun t own => owned ⟨t, own⟩
  rcases accounted.placed p created with head | logged | ⟨t, own⟩ | ⟨h, queued⟩ | destroyed
  · exact ⟨.head, head⟩
  · have listed : p ∈ xs := by
      by_contra out
      exact logged ((inv.settled p free).absent out)
    exact ⟨.linked, ⟨xs, inv.layers.bottom, listed⟩, free⟩
  · exact absurd own (free t)
  · exact ⟨.queued h, queued⟩
  · exact ⟨.destroyed, destroyed⟩

/-- **Without threads the queues and the bottom layer hold every node**, each of them once. -/
theorem Machine.Accounted.at_rest (idle : ∀ t, m.threads t = .idle) :
    ((List.range queueCount).flatMap m.list.nodeQueues ++ m.list.head :: xs).Nodup ∧
    ∀ p, p ∈ (List.range queueCount).flatMap m.list.nodeQueues ++ m.list.head :: xs ↔
      p < m.list.nextAddress ∧ 0 < (m.list.memory p).height := by
  have free : ∀ p t, (m.threads t).own ≠ some p := by
    intro p t own
    rw [idle t] at own
    cases own
  have unlisted : ∀ h, ∀ p ∈ m.list.nodeQueues h, p ∉ m.list.head :: xs := fun h p queued listed =>
    (inv.stock.queued h p queued).2.2 (.inl listed)
  constructor
  · rw [List.nodup_append]
    refine ⟨inv.stock.once, inv.layers.bottom.nodup, ?_⟩
    intro p queued q listed same
    obtain ⟨h, -, mem⟩ := List.mem_flatMap.mp queued
    exact unlisted h p mem (same ▸ listed)
  · intro p
    rw [List.mem_append, List.mem_flatMap]
    constructor
    · rintro (⟨h, -, queued⟩ | listed)
      · have here : m.At p (.queued h) := queued
        exact ⟨(inv.stock.queued h p queued).2.1, accounted.tall_of_at inv here (by simp)⟩
      · refine ⟨inv.listed_allocated listed, ?_⟩
        rcases List.mem_cons.mp listed with head | mem
        · have here : m.At p .head := head
          exact accounted.tall_of_at inv here (by simp)
        · have here : m.At p .linked := ⟨⟨xs, inv.layers.bottom, mem⟩, free p⟩
          exact accounted.tall_of_at inv here (by simp)
    · rintro ⟨created, tall⟩
      obtain ⟨place, here⟩ := accounted.exists_place inv created
      cases place with
      | head => exact .inr (List.mem_cons.mpr (.inl here))
      | linked => exact .inr (List.mem_cons_of_mem _ (inv.at_linked here).1)
      | owned t => exact absurd here (free p t)
      | queued h => exact .inl ⟨h, List.mem_range.mpr (accounted.queues h p here).2, here⟩
      | destroyed => exact absurd here (Nat.ne_of_gt tall)

end Places

/-! ### The cleanup -/

section Cleanup

variable [Inhabited T]

/-- Some nodes of the queues of `s` were destroyed. -/
structure Emptying (s s' : ConcurrentSkipList T) : Prop where
  head : s'.head = s.head
  next : s'.nextAddress = s.nextAddress
  queues : ∀ h, ∀ p ∈ s'.nodeQueues h, p ∈ s.nodeQueues h
  memory : ∀ p, (s'.memory p = s.memory p ∧ ∀ h, p ∈ s.nodeQueues h → p ∈ s'.nodeQueues h) ∨
    ((s'.memory p).height = 0 ∧ ∃ h, p ∈ s.nodeQueues h)

theorem Emptying.popDestroy (e : Emptying s s') (h : Nat) : Emptying s (s'.popDestroy h) := by
  unfold ConcurrentSkipList.popDestroy
  split
  · exact e
  rename_i p rest queue
  have queued : p ∈ s'.nodeQueues h := queue ▸ List.mem_cons_self
  constructor
  · exact e.head
  · exact e.next
  · intro k q mem
    apply e.queues
    by_cases here : k = h
    · subst here
      rw [queue]
      have left : q ∈ Function.update s'.nodeQueues k rest k := mem
      rw [Function.update_self] at left
      exact List.mem_cons_of_mem _ left
    · have left : q ∈ Function.update s'.nodeQueues h rest k := mem
      rwa [Function.update_of_ne here] at left
  · intro q
    by_cases here : q = p
    · subst here
      right
      refine ⟨?_, h, e.queues h q queued⟩
      rw [destroy, modify_self]
      rfl
    · rw [destroy, modify_of_ne p _ _ here]
      refine (e.memory q).imp_left fun kept => ⟨kept.1, fun k mem => ?_⟩
      have before := kept.2 k mem
      show q ∈ Function.update s'.nodeQueues h rest k
      by_cases there : k = h
      · subst there
        rw [Function.update_self]
        rw [queue] at before
        exact (List.mem_cons.mp before).resolve_left here
      · rwa [Function.update_of_ne there]

theorem Emptying.drain (e : Emptying s s') (h n : Nat) : Emptying s (s'.drain h n) := by
  induction n generalizing s' with
  | zero => exact e
  | succ n ih => exact ih (e.popDestroy h)

/-- The cleanup destroys nodes of the queues only. -/
theorem emptying_cleanup (s : ConcurrentSkipList T) : Emptying s s.cleanup := by
  have all : ∀ (hs : List Nat) {s' : ConcurrentSkipList T}, Emptying s s' →
      Emptying s (hs.foldl (fun s h => s.drain h (s.nodeQueues h).length) s') := by
    intro hs
    induction hs with
    | nil => exact fun e => e
    | cons k hs ih => exact fun e => ih (e.drain k _)
  apply all
  exact ⟨rfl, rfl, fun _ _ mem => mem, fun _ => .inl ⟨rfl, fun _ mem => mem⟩⟩

/-! ### The destructor -/

/-- The loop of `~ConcurrentSkipList`, from `current` on, with the nodes it destroys. -/
def destroyFrom : Nat → Option Nat → ConcurrentSkipList T → Option (List Nat × ConcurrentSkipList T)
  | _, none, s => some ([], s)
  | 0, some _, _ => none
  | fuel + 1, some current, s => do
      let tmp ← s.skip current 0
      let (later, s') ← destroyFrom fuel tmp (s.destroy current)
      some (current :: later, s')

/-- `~ConcurrentSkipList()`. A bottom layer that ends has no more nodes than were created. -/
def destruct (s : ConcurrentSkipList T) : Option (List Nat × ConcurrentSkipList T) :=
  destroyFrom s.nextAddress (some s.head) s

/-- **The loop destroys the nodes of a chain**, in its order, and nothing else. -/
theorem destroyFrom_chain {fuel : Nat} {current : Option Nat} {ps : List Nat}
    (chain : Chain (s.links 0) current ps) (tall : ∀ p ∈ ps, 0 < (s.memory p).height)
    (enough : ps.length ≤ fuel) : ∃ s', destroyFrom fuel current s = some (ps, s') ∧
      s'.nodeQueues = s.nodeQueues ∧ (∀ p ∈ ps, (s'.memory p).height = 0) ∧
      ∀ p ∉ ps, s'.memory p = s.memory p := by
  induction ps generalizing fuel current s with
  | nil =>
      rw [show current = none from chain]
      exact ⟨s, by cases fuel <;> rfl, rfl, List.forall_mem_nil _, fun _ _ => rfl⟩
  | cons a ps ih =>
      obtain ⟨fuel, rfl⟩ : ∃ n, fuel = n + 1 := Nat.exists_eq_succ_of_ne_zero (by
        rintro rfl
        cases enough)
      have apart : a ∉ ps := (List.nodup_cons.mp chain.nodup).1
      obtain ⟨start, onward⟩ := chain
      have beside : ∀ p ∈ ps, (s.destroy a).memory p = s.memory p := fun p mem =>
        modify_of_ne a _ _ (ne_of_mem_of_not_mem mem apart)
      -- The link was read before the node is gone; those of the later nodes are still there.
      have rest : Chain ((s.destroy a).links 0) (s.links 0 a) ps :=
        onward.congr fun p mem => by rw [links, beside p mem, links]
      obtain ⟨s', loop, queues, gone, kept⟩ := ih rest
        (fun p mem => by rw [beside p mem]; exact tall p (List.mem_cons_of_mem _ mem))
        (Nat.le_of_succ_le_succ enough)
      refine ⟨s', ?_, queues, ?_, ?_⟩
      · rw [start, destroyFrom, skip_eq (tall a List.mem_cons_self), Option.bind_eq_bind, Option.bind_some]
        change (destroyFrom fuel (s.links 0 a) (s.destroy a)).bind _ = _
        rw [loop]
        rfl
      · intro p mem
        rcases List.mem_cons.mp mem with rfl | later
        · rw [kept p apart, destroy, modify_self]
          rfl
        · exact gone p later
      · intro p out
        have other : p ≠ a := fun same => out (List.mem_cons.mpr (.inl same))
        have later : p ∉ ps := fun mem => out (List.mem_cons_of_mem _ mem)
        rw [kept p later, destroy, modify_of_ne a _ _ other]

end Cleanup

/-! ### The end -/

section End

variable [Inhabited T]

/-- **The cleanup and the destructor destroy every node.** -/
theorem Machine.Accounted.destruct (inv : m.Inv lt xs lh) (accounted : m.Accounted)
    (idle : ∀ t, m.threads t = .idle) : ∃ s', m.list.cleanup.destruct = some (m.list.head :: xs, s') ∧
      (∀ h, s'.nodeQueues h = []) ∧ ∀ p < m.list.nextAddress, (s'.memory p).height = 0 := by
  have cleaned := emptying_cleanup m.list
  have all := (accounted.at_rest inv idle).2
  -- A linked node is in no queue, so the cleanup leaves it as it is.
  have kept : ∀ p ∈ m.list.head :: xs, m.list.cleanup.memory p = m.list.memory p := by
    intro p listed
    rcases cleaned.memory p with ⟨same, -⟩ | ⟨-, h, queued⟩
    · exact same
    · exact absurd (.inl listed) (inv.stock.queued h p queued).2.2
  have chain : Chain (m.list.cleanup.links 0) (some m.list.cleanup.head) (m.list.head :: xs) := by
    rw [cleaned.head]
    exact inv.layers.bottom.congr fun p listed => by rw [links, kept p listed, links]
  have short : (m.list.head :: xs).length ≤ m.list.cleanup.nextAddress := by
    rw [cleaned.next]
    exact inv.layers.bottom.length_le fun p listed => inv.listed_allocated listed
  obtain ⟨s', loop, queues, gone, rest⟩ := destroyFrom_chain chain (by
    intro p listed
    rw [kept p listed]
    exact ((all p).mp (List.mem_append_right _ listed)).2) short
  refine ⟨s', loop, ?_, ?_⟩
  · intro h
    rw [queues]
    by_cases small : h < queueCount
    · exact cleanup_nodeQueues m.list small
    · rw [List.eq_nil_iff_forall_not_mem]
      intro p queued
      exact small (accounted.queues h p (cleaned.queues h p queued)).2
  · intro p created
    by_cases listed : p ∈ m.list.head :: xs
    · exact gone p listed
    rw [rest p listed]
    rcases cleaned.memory p with ⟨same, stays⟩ | ⟨destroyed, -⟩
    · rw [same]
      by_contra tall
      rcases List.mem_append.mp ((all p).mpr ⟨created, Nat.pos_of_ne_zero tall⟩) with queued | here
      · obtain ⟨h, small, mem⟩ := List.mem_flatMap.mp queued
        have left := stays h mem
        rw [cleanup_nodeQueues m.list (List.mem_range.mp small)] at left
        cases left
      · exact listed here
    · exact destroyed

variable [DecidableRel lt] [IsStrictWeakOrder T lt]

/-- **Every node is in one place, and is destroyed once.** While threads add and remove, a node
that was created is the head, or linked, or in the hands of one thread, or in one queue, or
destroyed; when they are through, the release of the last accessor and the destructor of the list
destroy all that are left, and none of them twice. -/
theorem nodes_destroyed_once {maxHeight initialHeight : Nat} {sizeLimit : Nat → Nat}
    (positive : 0 < initialHeight) (made : new initialHeight = some s)
    (run : Reachable (Machine.ExclusiveSteps lt maxHeight sizeLimit) (Machine.start s) m) :
    (∀ p < m.list.nextAddress, ∃! place, m.At p place) ∧
    ((∀ t, m.threads t = .idle) → ∃ xs s', Chain (m.list.links 0) (some m.list.head) (m.list.head :: xs) ∧
      m.list.cleanup.destruct = some (m.list.head :: xs, s') ∧
      ((List.range queueCount).flatMap m.list.nodeQueues ++ m.list.head :: xs).Nodup ∧
      (∀ p, p ∈ (List.range queueCount).flatMap m.list.nodeQueues ++ m.list.head :: xs ↔
        p < m.list.nextAddress ∧ 0 < (m.list.memory p).height) ∧
      (∀ h, s'.nodeQueues h = []) ∧ ∀ p < m.list.nextAddress, (s'.memory p).height = 0) := by
  obtain ⟨⟨xs, lh, inv⟩, accounted⟩ : m.Consistent lt ∧ m.Accounted := by
    apply run.invariant (P := fun m => m.Consistent lt ∧ m.Accounted)
    · exact ⟨new_consistent positive made, new_accounted positive made⟩
    · intro m i m' ⟨⟨xs, lh, inv⟩, accounted⟩ taken
      exact ⟨inv.step taken.1 taken.2, accounted.step inv taken.2⟩
  constructor
  · intro p created
    obtain ⟨place, here⟩ := accounted.exists_place inv created
    exact ⟨place, here, fun _ there => accounted.place_unique inv there here⟩
  · intro idle
    obtain ⟨s', loop, queues, gone⟩ := accounted.destruct inv idle
    obtain ⟨once, all⟩ := accounted.at_rest inv idle
    exact ⟨xs, s', inv.layers.bottom, loop, once, all, queues, gone⟩

end End

/-- One thread adds 5 and 7 to a new list and removes 5 again; then the list comes to its end. -/
theorem nodes_destroyed_once_add_remove :
    ∃ (s : ConcurrentSkipList Nat) (m : Machine Nat) (a b : Nat), 0 < 2 ∧ new 2 = some s ∧
      Reachable (Machine.ExclusiveSteps (· < ·) 24 sizeLimitTable) (Machine.start s) m ∧
      (∀ t, m.threads t = .idle) ∧ m.At a (.queued 1) ∧ m.At b .linked ∧
      ∃ s', m.list.cleanup.destruct = some ([m.list.head, b], s') ∧ (s'.memory a).height = 0 ∧
        (s'.memory b).height = 0 := by
  have := natOrder
  obtain ⟨s, made, calm₀⟩ := exists_calm
  obtain ⟨m₁, a, run₁, calm₁, -, keyA₁, -⟩ := calm₀.add (x := 5) rfl (by simp) (by simp)
    fun _ _ => trivial
  have order₁ : insertNode (· < ·) (Machine.start s).list 5 a [] = [a] := rfl
  rw [order₁] at calm₁
  obtain ⟨m₂, b, run₂, calm₂, -⟩ := calm₁.add (x := 7) rfl (by simp [keyA₁]) (by simp)
    fun _ _ => trivial
  have order₂ : insertNode (· < ·) m₁.list 7 b [a] = [a, b] := by simp [insertNode, under, onward, keyA₁]
  rw [order₂] at calm₂
  obtain ⟨m, run₃, calm, queue, -⟩ := calm₂.remove (a := a) rfl (by simp) fun _ => True
  rw [List.erase_cons_head] at calm
  have run := ((Machine.exclusive_of_idle (fun _ => rfl) run₁).trans
    (Machine.exclusive_of_idle (congrFun calm₁.threads) run₂)).trans
    (Machine.exclusive_of_idle (congrFun calm₂.threads) run₃)
  have idle : ∀ t, m.threads t = .idle := fun t => congrFun calm.threads t
  have chain : Chain (m.list.links 0) (some m.list.head) [m.list.head, b] := calm.quiet.layers.bottom
  have queued : a ∈ m.list.nodeQueues 1 := by simp [queue]
  have linked : m.At b .linked := by
    refine ⟨⟨[b], chain, List.mem_singleton.mpr rfl⟩, ?_⟩
    intro t own
    rw [idle t] at own
    cases own
  obtain ⟨-, ends⟩ := nodes_destroyed_once (by decide) made run
  obtain ⟨xs, s', bottom, destroys, -, all, -, gone⟩ := ends idle
  obtain rfl : xs = [b] := (List.cons.inj (bottom.unique chain)).2
  have createdA : a < m.list.nextAddress := ((all a).mp
    (List.mem_append_left _ (List.mem_flatMap.mpr ⟨1, by decide, queued⟩))).1
  have createdB : b < m.list.nextAddress := ((all b).mp (by simp)).1
  exact ⟨s, m, a, b, by decide, made, run, idle, queued, linked, s', destroys, gone a createdA,
    gone b createdB⟩

end Hcl.ConcurrentSkipList
