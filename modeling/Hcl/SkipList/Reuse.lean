import Hcl.SkipList.Interleaving

/-!
A node that is reused between a search and its validation.

Thread 1 searches for 5 between the nodes of 3 and 7. Before it goes on, thread 0 removes 3,
puts another key in and out until the recycler hands out the node of 3 again, and adds 6 in
that node. The validation of thread 1 compares the mark and the successor, finds both as they
were, and links 5 behind 6.
-/

namespace Hcl.ConcurrentSkipList

open Hcl.Lib

variable {m : Machine Nat} {threads : Nat → Local Nat} {xs : List Nat} {a b : Nat}

/-- Thread 1 goes on, with a search that is out of date: the node `a` has the key 6 now. -/
theorem Calm.race {point : InsertionPoint} (calm : Calm m threads [a, b])
    (here : threads 1 = .guard (.add 5) point 1 0 none []) (pred : point.preds 0 = some a)
    (succ : point.succs 0 = some b) :
    ∃ m' guards node, Reachable (Machine.Steps (· < ·) 24 sizeLimitTable) m m' ∧
      m'.threads = Function.update threads 1 (.addFinish guards node) ∧
      m'.list.links 0 m'.list.head = some a ∧ m'.list.links 0 a = some node ∧
      m'.list.keyOf a = m.list.keyOf a ∧ m'.list.keyOf node = 5 := by
  have := natOrder
  have listed : a ∈ m.list.head :: [a, b] := by simp
  have other : m.list.head ≠ a := fun same => calm.quiet.layers.nodup.1 (same ▸ List.mem_cons_self)
  obtain ⟨-, first, second, -⟩ := calm.quiet.layers.bottom
  -- The validation finds the mark and the successor as they were.
  obtain ⟨guards, locks⟩ : ∃ guards, lockNodesForChange point true 1 0 none [] m.list =
      some (m.list.withGuards guards, guards, true) := by
    have spec : ∃ guards, lockNodesForChange point true 1 0 none [] (m.list.withGuards []) =
        some (m.list.withGuards guards, guards, true) := by
      refine lockNodesForChange_spec ?_ (fun j l _ low => by omega)
        (fun p contra => nomatch contra) fun l contra => nomatch contra
      intro l low
      obtain rfl : l = 0 := by omega
      refine ⟨⟨a, pred, ?_, calm.quiet.unmarked a listed, second.trans succ.symm⟩, ?_⟩
      · rw [calm.low a (by simp)]
        decide
      · intro _ r found
        obtain rfl := Option.some.inj (succ.symm.trans found)
        exact calm.quiet.unmarked b (by simp)
    rwa [withGuards_nil calm.quiet.unlocked] at spec
  obtain ⟨s₁, node, pops, popped, unused, high, -⟩ :=
    pop_spec (calm.quiet.stock.withLocks fun p => decide (p ∈ guards)) (by decide : 1 < queueCount) false
  have kept : ∀ p ∈ m.list.head :: [a, b], (s₁.storeData node 5).memory p =
      (m.list.withGuards guards).memory p := fun p hp =>
    (modify_of_ne node _ s₁ (ne_of_mem_of_not_mem hp unused)).trans
      (popped.old (calm.quiet.stock.allocated p hp) (ne_of_mem_of_not_mem hp unused))
  have inNode : 0 < ((s₁.storeData node 5).memory node).height := by
    have same : ((s₁.storeData node 5).memory node).height = (s₁.memory node).height :=
      modify_keeps node _ s₁ SkipListNode.height rfl node
    rw [same, high]
    decide
  have inPred : 0 < ((s₁.storeData node 5).memory a).height := by
    rw [kept a listed]
    show 0 < (m.list.memory a).height
    rw [calm.low a (by simp)]
    decide
  obtain ⟨s₂, links, atHead, atPred, keyPred, keyNode⟩ : ∃ s₂,
      linkLayer point node 0 (s₁.storeData node 5) = some s₂ ∧ s₂.links 0 s₂.head = some a ∧
        s₂.links 0 a = some node ∧ s₂.keyOf a = m.list.keyOf a ∧ s₂.keyOf node = 5 := by
    refine ⟨_, linkLayer_eq pred inNode inPred, ?_, links_writeSkip_self, ?_, ?_⟩
    · have outside : m.list.head ≠ node := ne_of_mem_of_not_mem List.mem_cons_self unused
      show links _ 0 s₁.head = _
      rw [popped.head]
      show links _ 0 m.list.head = _
      rw [links_writeSkip_of_ne (.inr other), links_writeSkip_of_ne (.inr outside), links,
        kept _ List.mem_cons_self]
      exact first
    · rw [writeSkip_keyOf, writeSkip_keyOf, keyOf, kept a listed]
      rfl
    · rw [writeSkip_keyOf, writeSkip_keyOf]
      exact congrArg SkipListNode.data (modify_self node _ s₁)
  have locking : Alone (· < ·) 24 sizeLimitTable (fun _ => True) m 1 m.list (.guard (.add 5) point 1 0 none [])
      (m.list.withGuards guards) _ := .locks (Nat.zero_add 1).symm locks
  have popping : Alone (· < ·) 24 sizeLimitTable (fun _ => True) m 1 (m.list.withGuards guards) (.addPop 5 point 1 guards) s₁
      (.addStore 5 point 1 guards node) := by
    refine .step (fun _ => true) [] (fun _ _ _ _ => trivial) ?_
    show ((m.list.withGuards guards).pop 1 false).bind _ = _
    rw [show (m.list.withGuards guards).pop 1 false = some (s₁, node) from pops]
    rfl
  have storing : Alone (· < ·) 24 sizeLimitTable (fun _ => True) m 1 s₁ (.addStore 5 point 1 guards node)
      (s₁.storeData node 5) (.addPrepare point 1 guards node 0) := .go (fun _ => true) [] rfl rfl
  have linking : Alone (· < ·) 24 sizeLimitTable (fun _ => True) m 1 (s₁.storeData node 5) (.addPrepare point 1 guards node 0)
      s₂ _ := .link links
  obtain ⟨events, run⟩ := ((locking.trans popping).trans (storing.trans linking)) []
  rw [← here, ← calm.threads, Machine.after_self] at run
  refine ⟨_, guards, node, run.mono fun _ _ _ taken => taken.2.2, ?_, atHead, atPred, keyPred, keyNode⟩
  rw [Machine.after, calm.threads]
  rfl

/-- **A reused node breaks the order of the list.** No thread is between link writes, and the
keys behind the head are 6 and then 5. -/
theorem reuse_breaks_order :
    ∃ (s : ConcurrentSkipList Nat) (m : Machine Nat), new 2 = some s ∧
      Reachable (Machine.Steps (· < ·) 24 sizeLimitTable) (Machine.start s) m ∧
      (∀ t, ¬ (m.threads t).Linking) ∧ ¬ m.Sound (· < ·) ∧
      ¬ ∃ xs, Chain (m.list.links 0) (some m.list.head) (m.list.head :: xs) ∧
        Ascending (· < ·) m.list.keyOf xs := by
  have := natOrder
  obtain ⟨s, made, start⟩ := exists_calm
  have all : ∀ {m m' : Machine Nat} {t : Nat},
      Reachable (Machine.StepsOf (· < ·) 24 sizeLimitTable (fun _ => True) t) m m' →
      Reachable (Machine.Steps (· < ·) 24 sizeLimitTable) m m' := fun run =>
    run.mono fun _ _ _ taken => taken.2.2
  obtain ⟨m₁, a, run₁, calm₁, -, keyA₁, -⟩ := start.add (x := 3) rfl (by simp) (by simp)
    fun _ _ => trivial
  have order₁ : insertNode (· < ·) (Machine.start s).list 3 a [] = [a] := rfl
  rw [order₁] at calm₁
  obtain ⟨m₂, b, run₂, calm₂, outside, keyB₂, keys₂, -⟩ := calm₁.add (x := 7) rfl (by simp [keyA₁])
    (by simp) fun _ _ => trivial
  have order₂ : insertNode (· < ·) m₁.list 7 b [a] = [a, b] := by simp [insertNode, under, onward, keyA₁]
  rw [order₂] at calm₂
  have other : a ≠ b := fun same => outside (same ▸ List.mem_cons_self)
  have keyA₂ : m₂.list.keyOf a = 3 := (keys₂ a List.mem_cons_self).trans keyA₁
  obtain ⟨m₃, point, run₃, list₃, calm₃, pred, succ⟩ := calm₂.search (x := 5) rfl
    (by rw [keyA₂]; decide) (by rw [keyB₂]; decide) fun _ => True
  obtain ⟨m₄, run₄, calm₄, queue₄, keys₄⟩ := calm₃.remove (a := a) rfl List.mem_cons_self
    fun _ => True
  rw [List.erase_cons_head] at calm₄ keys₄
  have keyB₄ : m₄.list.keyOf b = 7 := by
    rw [keys₄ b List.mem_cons_self, list₃, keyB₂]
  obtain ⟨m₅, rest, run₅, calm₅, keys₅, queue₅⟩ := calm₄.turn (x := 9) rfl (by simp [keyB₄])
    (by simp) (fun _ _ => trivial) queue₄
  have keyB₅ : m₅.list.keyOf b = 7 := (keys₅ b List.mem_cons_self).trans keyB₄
  obtain ⟨m₆, node, run₆, calm₆, -, keyA₆, -, queue₆⟩ := calm₅.add (x := 6) rfl (by simp [keyB₅])
    (by simp) fun _ _ => trivial
  obtain ⟨rfl, -⟩ := queue₆ a rest queue₅
  have order₆ : insertNode (· < ·) m₅.list 6 node [b] = [node, b] := by
    simp [insertNode, under, onward, keyB₅]
  rw [order₆] at calm₆
  obtain ⟨m₇, guards, last, run₇, threads, first, second, keyA₇, keyC⟩ :=
    calm₆.race (Function.update_self ..) pred succ
  have unordered : ¬ ∃ xs, Chain (m₇.list.links 0) (some m₇.list.head) (m₇.list.head :: xs) ∧
      Ascending (· < ·) m₇.list.keyOf xs := by
    rintro ⟨xs, ⟨-, chain⟩, ascending⟩
    rw [first] at chain
    cases xs with
    | nil => cases chain
    | cons p xs =>
        obtain ⟨same, chain⟩ := chain
        obtain rfl := Option.some.inj same
        rw [second] at chain
        cases xs with
        | nil => cases chain
        | cons q xs =>
            obtain ⟨same, -⟩ := chain
            obtain rfl := Option.some.inj same
            have below := (List.pairwise_cons.mp ascending).1 last List.mem_cons_self
            rw [keyA₇, keyA₆, keyC] at below
            exact absurd below (by decide)
  have before := ((all run₁).trans (all run₂)).trans ((all run₃).trans (all run₄))
  refine ⟨s, m₇, made, before.trans (((all run₅).trans (all run₆)).trans run₇), ?_, ?_, unordered⟩
  · intro t linking
    rw [threads, Function.update_idem] at linking
    by_cases here : t = 1
    · rw [here, Function.update_self] at linking
      exact linking
    · rw [Function.update_of_ne here] at linking
      exact linking
  · intro sound
    obtain ⟨xs, chain, ascending, -⟩ := sound.list
    exact unordered ⟨xs, chain, ascending⟩

end Hcl.ConcurrentSkipList
