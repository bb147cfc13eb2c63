import Hcl.Lib.LockOrder
import Hcl.SkipList.GuardSteps
import Mathlib.Order.WellFoundedSet

/-!
No interleaving of `add` and `remove` gets stuck.

In every state that is reached while the recycler hands out nodes nobody has a pointer to, a
thread that waits for nothing can take its next step: no assertion fails and no link is read
where there is none. A thread that waits, waits through finitely many others for one that does
not.
-/

namespace Hcl.ConcurrentSkipList

open Hcl.Lib Relation

variable {T : Type} {lt : T → T → Prop} {maxHeight : Nat} {m : Machine T} {t : Nat} {xs : List Nat}
  {lh : Nat → Nat} {s : ConcurrentSkipList T}

/-! ### What a thread waits for -/

/-- A guard, or that a node is fully linked. -/
inductive Need where
  | guard (p : Nat)
  | flag (p : Nat)

def Need.node : Need → Nat
  | .guard p => p
  | .flag p => p

/-- What keeps a thread from going on. -/
def Local.Wants (s : ConcurrentSkipList T) : Local T → Need → Prop
  | .guard _ point nodeHeight layer prevPred _, .guard p =>
      layer < nodeHeight ∧ point.preds layer = some p ∧ prevPred ≠ some p ∧ (s.memory p).locked = true
  | .growGuard oldHead _, .guard p => p = oldHead ∧ (s.memory p).locked = true
  | .removeGuard _ _ _ candidate, .guard p => p = candidate ∧ (s.memory p).locked = true
  | .addWait nodeFound, .flag p => p = nodeFound ∧ (s.memory p).fullyLinked = false
  | _, _ => False

/-- What a thread keeps others from. -/
def Local.Withholds : Local T → Need → Prop
  | thread, .guard p => p ∈ thread.held
  | thread, .flag p => thread.grows = some p

def Machine.waiting (m : Machine T) : Waiting Nat Need where
  Holds t := (m.threads t).Withholds
  Wants t := (m.threads t).Wants m.list

/-- The order in which guards are taken, on the nodes there are. -/
def Need.Before (lt : T → T → Prop) (s : ConcurrentSkipList T) : Need → Need → Prop
  | .guard a, .guard b => Precedes lt s a b ∧ a ∈ Set.Iio s.nextAddress ∧ b ∈ Set.Iio s.nextAddress
  | _, _ => False

theorem Need.before_wellFounded [IsStrictWeakOrder T lt] (s : ConcurrentSkipList T) :
    WellFounded (Need.Before lt s) := by
  have strict : IsStrictOrder Nat (Precedes lt s) :=
    { irrefl := not_precedes_self, trans := fun _ _ _ => precedes_trans }
  have nodes : (Set.Iio s.nextAddress).WellFoundedOn (Precedes lt s) := (Set.finite_Iio _).wellFoundedOn
  refine Subrelation.wf ?_ (InvImage.wf Need.node (Set.wellFoundedOn_iff.mp nodes))
  intro a b before
  cases a <;> cases b <;> first | exact before | exact before.elim

section Waits

variable (orderly : m.Orderly lt maxHeight) (inv : m.Inv lt xs lh)
include orderly

/-- Somebody keeps what a thread waits for. -/
theorem Machine.Orderly.kept {r : Need} (wants : m.waiting.Wants t r) : ∃ u, m.waiting.Holds u r := by
  have waits : (m.threads t).Wants m.list r := wants
  cases r with
  | guard p =>
      refine orderly.locks p ?_
      cases here : m.threads t <;> rw [here] at waits <;>
        first | exact waits.2.2.2 | exact waits.2 | exact waits.elim
  | flag p =>
      have found : (m.threads t).awaits = some p ∧ (m.list.memory p).fullyLinked = false := by
        cases here : m.threads t <;> rw [here] at waits <;>
          first | exact ⟨congrArg some waits.1.symm, waits.2⟩ | exact waits.elim
      rcases (orderly.completes p (.inr (.inr ⟨t, found.1⟩))).linked with full | grows
      · rw [found.2] at full
        cases full
      · exact grows

include inv

/-- A thread that has a guard waits for one that comes before. -/
theorem Machine.Orderly.before [IsStrictWeakOrder T lt] {r r' : Need} (holds : m.waiting.Holds t r)
    (wants : m.waiting.Wants t r') : r'.Before lt m.list r := by
  have withholds : (m.threads t).Withholds r := holds
  have waits : (m.threads t).Wants m.list r' := wants
  have knows := inv.threads t
  have climbs := orderly.climbs t
  have allocated : ∀ p, (m.threads t).Sees p → p < m.list.nextAddress := fun p sees =>
    inv.live_allocated (knows.sees sees).2
  cases here : m.threads t with
  | guard change point nodeHeight layer prevPred guards =>
      rw [here] at withholds waits knows climbs allocated
      obtain ⟨-, seen, -, -, -, named⟩ := knows
      obtain ⟨descends, prev⟩ := climbs
      cases r with
      | flag p => cases withholds
      | guard p =>
          cases r' with
          | flag p' => exact waits.elim
          | guard p' =>
              obtain ⟨low, pred', fresh, -⟩ := waits
              obtain ⟨l, less, pred⟩ := named p withholds
              refine ⟨?_, allocated p' ⟨layer, low, pred'⟩, allocated p ⟨l, Nat.lt_trans less low, pred⟩⟩
              -- The guard taken last is that of the layer below; the others come behind it.
              obtain ⟨k, rfl⟩ : ∃ k, layer = k + 1 := Nat.exists_eq_succ_of_ne_zero (Nat.ne_zero_of_lt less)
              obtain ⟨last, predLast, -⟩ := (seen k (Nat.lt_of_succ_lt low)).1
              have first : Precedes lt m.list p' last := by
                refine (descends k (k + 1) p' last (Nat.lt_succ_self k) low predLast pred').resolve_left ?_
                rintro rfl
                exact fresh ((prev k rfl).trans predLast)
              rcases Nat.lt_succ_iff_lt_or_eq.mp less with below | rfl
              · rcases descends l k last p below (Nat.lt_of_succ_lt low) pred predLast with rfl | second
                · exact first
                · exact precedes_trans first second
              · obtain rfl := Option.some.inj (predLast.symm.trans pred)
                exact first
  | growGuard | removeGuard | addWait =>
      rw [here] at withholds
      cases r <;> cases withholds
  | _ =>
      rw [here] at waits
      cases r' <;> exact waits.elim

end Waits

/-! ### Threads that do not wait -/

section Moves

variable [Inhabited T] [DecidableRel lt] [IsStrictWeakOrder T lt] {sizeLimit : Nat → Nat}

omit [Inhabited T] [DecidableRel lt] [IsStrictWeakOrder T lt] in
/-- The predecessor of a valid layer has a link there. -/
theorem Valid.inside {point : InsertionPoint} {x : T} {guards : List Nat} {l : Nat}
    (valid : Valid lt s xs lh point x guards l) (layers : Layers lt s xs lh) (low : l < s.height) :
    ∃ p, point.preds l = some p ∧ l < (s.memory p).height := by
  obtain ⟨p, pred, -, -, gap⟩ := valid
  refine ⟨p, pred, ?_⟩
  rcases gap.pred with rfl | ⟨listed, linked, -⟩
  · exact low
  · exact Nat.lt_of_lt_of_le linked (layers.linked p listed).2.1

omit [Inhabited T] [DecidableRel lt] [IsStrictWeakOrder T lt] in
/-- A layer can be validated: an unmarked predecessor has a link there. -/
theorem Seen.validates {point : InsertionPoint} {x : T} {l pred : Nat} (seen : Seen lt s xs lh point x l)
    (layers : Layers lt s xs lh) (low : l < s.height) (found : point.preds l = some pred) (adding : Bool)
    (succ : Option Nat) : ∃ valid, validLayer s adding l pred succ = some valid := by
  obtain ⟨p, found', ref⟩ := seen
  obtain rfl := Option.some.inj (found.symm.trans found')
  unfold validLayer
  split
  · exact ⟨_, rfl⟩
  · rename_i unmarked
    have inside : l < (s.memory pred).height := by
      rcases ref.resolve_left unmarked with rfl | ⟨listed, linked, -⟩
      · exact low
      · exact Nat.lt_of_lt_of_le linked (layers.linked pred listed).2.1
    rw [skip_eq inside]
    exact ⟨_, rfl⟩

/-- **A thread that waits for nothing can go on.** -/
theorem Machine.Orderly.moves (orderly : m.Orderly lt maxHeight) (inv : m.Inv lt xs lh)
    (limit : maxHeight < queueCount) (busy : m.threads t ≠ .idle) (free : ∀ r, ¬ m.waiting.Wants t r)
    (draw : Nat → Bool) : ∃ m', m.step lt maxHeight sizeLimit t (.go draw) = some m' := by
  have small : ∀ p, (m.list.memory p).height < queueCount := fun p =>
    Nat.lt_of_le_of_lt (orderly.small p) limit
  have knows := inv.threads t
  have climbs := orderly.climbs t
  have free : ∀ r, ¬ (m.threads t).Wants m.list r := free
  suffices ∃ out, ConcurrentSkipList.goOn lt maxHeight sizeLimit draw m.list (m.threads t) = some out by
    obtain ⟨out, taken⟩ := this
    exact ⟨_, by rw [Machine.step, threadStep, taken]; rfl⟩
  cases here : m.threads t with
  | idle => exact absurd here busy
  | addSearch x =>
      obtain ⟨point, search, recorded⟩ := inv.layers.findInsertionPoint x
      simp only [ConcurrentSkipList.goOn, search, Option.bind_eq_bind, Option.bind_some]
      cases found : point.foundLayer with
      | none => exact ⟨_, rfl⟩
      | some layer =>
          obtain ⟨q, -, -, -, succ⟩ := recorded.present inv.layers found
          simp only [succ, Option.bind_some]
          exact ⟨_, rfl⟩
  | removeSearch x =>
      obtain ⟨point, search, recorded⟩ := inv.layers.findInsertionPoint x
      simp only [ConcurrentSkipList.goOn, search, Option.bind_eq_bind, Option.bind_some]
      cases found : point.foundLayer with
      | none => exact ⟨_, rfl⟩
      | some layer =>
          obtain ⟨q, -, -, -, succ⟩ := recorded.present inv.layers found
          simp only [succ, Option.bind_some]
          exact ⟨_, rfl⟩
  | removeAgain x node =>
      obtain ⟨point, search, -⟩ := inv.layers.findInsertionPoint x
      simp only [ConcurrentSkipList.goOn, search, Option.bind_eq_bind, Option.bind_some]
      exact ⟨_, rfl⟩
  | guard change point nodeHeight layer prevPred guards =>
      rw [here] at knows free
      simp only [ConcurrentSkipList.goOn]
      split
      · rename_i low
        obtain ⟨pred, found, -⟩ := (knows.2.1 layer low).1
        rw [found, Option.bind_eq_bind, Option.bind_some]
        unfold guardLayer
        split
        · exact ⟨_, rfl⟩
        · rename_i fresh
          have unlocked : ¬ (m.list.memory pred).locked = true := fun locked =>
            free (.guard pred) ⟨low, found, fun same => fresh same.symm, locked⟩
          rw [acquireGuard, if_neg unlocked]
          exact ⟨_, rfl⟩
      · exact ⟨_, rfl⟩
  | validate change point nodeHeight layer pred guards =>
      rw [here] at knows
      obtain ⟨ready, seen, -, low, found, -⟩ := knows
      have inside : layer < m.list.height := by
        cases change with
        | add x => exact Nat.lt_of_lt_of_le low ready.2
        | remove x node =>
            have := (inv.layers.linked node ready.1.mem).2.2
            have := ready.2
            omega
      obtain ⟨valid, checked⟩ := (seen layer low).1.validates inv.layers inside found change.adding (point.succs layer)
      simp only [ConcurrentSkipList.goOn, checked, Option.bind_eq_bind, Option.bind_some]
      exact ⟨_, rfl⟩
  | addPop x point nodeHeight guards =>
      rw [here] at knows
      have low : nodeHeight < queueCount := Nat.lt_of_le_of_lt knows.1.2 (small m.list.head)
      obtain ⟨s', n, pops, -⟩ := pop_spec (inv.stock_beside t) low false
      simp only [ConcurrentSkipList.goOn, pops, Option.bind_eq_bind, Option.bind_some]
      exact ⟨_, rfl⟩
  | growPop height oldHead =>
      rw [here] at climbs
      obtain ⟨s', n, pops, -⟩ := pop_spec (inv.stock_beside t) (Nat.lt_of_le_of_lt climbs limit) true
      simp only [ConcurrentSkipList.goOn, pops, Option.bind_eq_bind, Option.bind_some]
      exact ⟨_, rfl⟩
  | addPrepare point nodeHeight guards n k =>
      rw [here] at knows
      obtain ⟨⟨low, -⟩, -, growing⟩ := knows
      rw [ConcurrentSkipList.goOn, setSkip_eq (growing.height ▸ low)]
      exact ⟨_, rfl⟩
  | addPublish point nodeHeight guards n k =>
      rw [here] at knows
      obtain ⟨⟨low, le⟩, gaps, -⟩ := knows
      obtain ⟨a, found, inside⟩ := (gaps k (Nat.le_refl k) low).1.inside inv.layers (Nat.lt_of_lt_of_le low le)
      simp only [ConcurrentSkipList.goOn, found, setSkip_eq inside, Option.bind_eq_bind, Option.bind_some]
      split
      · exact ⟨_, rfl⟩
      · exact ⟨_, rfl⟩
  | growGuard oldHead newHead =>
      rw [here] at free
      have unlocked : ¬ (m.list.memory oldHead).locked = true := fun locked => free (.guard oldHead) ⟨rfl, locked⟩
      rw [ConcurrentSkipList.goOn, acquireGuard, if_neg unlocked]
      exact ⟨_, rfl⟩
  | removeGuard x point layer candidate =>
      rw [here] at free
      have unlocked : ¬ (m.list.memory candidate).locked = true := fun locked =>
        free (.guard candidate) ⟨rfl, locked⟩
      rw [ConcurrentSkipList.goOn, acquireGuard, if_neg unlocked]
      exact ⟨_, rfl⟩
  | growPush node | removePush node =>
      rw [ConcurrentSkipList.goOn, push, if_pos (small node)]
      exact ⟨_, rfl⟩
  | removeMark x point layer candidate =>
      simp only [ConcurrentSkipList.goOn]
      split
      · exact ⟨_, rfl⟩
      · exact ⟨_, rfl⟩
  | removeUnlink point nodeHeight guards node k =>
      rw [here] at knows
      obtain ⟨⟨listed, -, positive, linked⟩, gaps⟩ := knows
      obtain ⟨k, rfl⟩ : ∃ j, k = j + 1 := Nat.exists_eq_succ_of_ne_zero (Nat.ne_of_gt positive)
      obtain ⟨-, high, le⟩ := inv.layers.linked node listed
      have low : k < (m.list.memory node).height := by omega
      obtain ⟨a, found, inside⟩ := (gaps k (Nat.lt_succ_self k)).1.inside inv.layers (Nat.lt_of_lt_of_le low le)
      simp only [ConcurrentSkipList.goOn, unlinkLayer, found, skip_eq low, setSkip_eq inside, Option.bind_eq_bind, Option.bind_some]
      split
      · exact ⟨_, rfl⟩
      · exact ⟨_, rfl⟩
  | addFound | addWait | addStore | addFinish | addSize | addCheck | retry | growLoad | growExchange | removeCheck
  | removeSize => exact ⟨_, rfl⟩

end Moves

/-! ### Runs -/

variable [Inhabited T] [DecidableRel lt] [IsStrictWeakOrder T lt] {sizeLimit : Nat → Nat} {initialHeight : Nat}

/-- The thread is in an operation, waits for nothing, and its next step is defined. -/
structure Machine.Moves (lt : T → T → Prop) [DecidableRel lt] (maxHeight : Nat) (sizeLimit : Nat → Nat)
    (m : Machine T) (t : Nat) : Prop where
  busy : m.threads t ≠ .idle
  free : ∀ r, ¬ m.waiting.Wants t r
  step : ∀ draw, ∃ m', m.step lt maxHeight sizeLimit t (.go draw) = some m'

/-- The invariants of a run. -/
theorem orderly_of_unshared_pops (positive : 0 < initialHeight) (low : initialHeight ≤ maxHeight)
    (made : new initialHeight = some s)
    (run : Reachable (Machine.UnsharedSteps lt maxHeight sizeLimit) (Machine.start s) m) :
    m.Consistent lt ∧ m.Orderly lt maxHeight := by
  apply run.invariant ⟨new_consistent positive made, new_orderly low positive made⟩
  rintro m i m' ⟨⟨xs, lh, inv⟩, orderly⟩ ⟨unshared, stepped⟩
  exact ⟨inv.step unshared.exclusive stepped, orderly.step inv unshared stepped⟩

/-- **No thread waits forever for threads that wait for each other**: whoever is in an operation
waits, through finitely many others, for a thread that can take its next step. -/
theorem waits_for_one_that_moves (positive : 0 < initialHeight) (low : initialHeight ≤ maxHeight)
    (limit : maxHeight < queueCount) (made : new initialHeight = some s)
    (run : Reachable (Machine.UnsharedSteps lt maxHeight sizeLimit) (Machine.start s) m)
    (busy : m.threads t ≠ .idle) :
    ∃ u, ReflTransGen m.waiting.For t u ∧ m.Moves lt maxHeight sizeLimit u := by
  obtain ⟨⟨xs, lh, inv⟩, orderly⟩ := orderly_of_unshared_pops positive low made run
  obtain ⟨u, chain, free, holds⟩ := m.waiting.leads_out (Need.before_wellFounded m.list)
    (fun _ _ wants => orderly.kept wants) (fun _ _ _ holds wants => orderly.before inv holds wants) t
  have busy' : m.threads u ≠ .idle := by
    rcases holds with rfl | ⟨r, holds⟩
    · exact busy
    · intro idle
      have withholds : (m.threads u).Withholds r := holds
      rw [idle] at withholds
      cases r <;> cases withholds
  exact ⟨u, chain, busy', free, orderly.moves inv limit busy' free⟩

/-- A thread that adds a key to an empty list is about to take the guard of the head. -/
theorem searches_empty {m : Machine Nat} {t : Nat} {lh : Nat → Nat} (layers : Layers (· < ·) m.list [] lh)
    (idle : m.threads t = .idle) (x : Nat) : ∃ point, point.preds 0 = some m.list.head ∧
      Reachable (Machine.UnsharedSteps (· < ·) 24 fun h => h) m
        (m.after t m.list (.guard (.add x) point 1 0 none []) []) := by
  have := natOrder
  obtain ⟨point, search, recorded⟩ := layers.findInsertionPoint x
  have missing : point.foundLayer = none := by
    cases found : point.foundLayer with
    | none => rfl
    | some layer =>
        obtain ⟨q, listed, -⟩ := recorded.present layers found
        cases listed
  have positive := layers.positive
  have one : getHeight (fun _ => true) m.list.height = 1 := by
    cases high : m.list.height with
    | zero =>
        rw [high] at positive
        cases positive
    | succ h => simp [getHeight, List.range_succ_eq_map]
  refine ⟨point, recorded.preds 0 (Nat.le_refl 0) positive, .step (i := (t, .go fun _ => true)) (.step
    (t := m.after t m.list (.addSearch x) []) (i := (t, .add x)) .start ⟨?_, ?_⟩) ⟨?_, ?_⟩⟩
  · rintro p ⟨h, contra, -⟩
    rw [idle] at contra
    cases contra
  · simp only [Machine.Steps, Machine.step, idle, threadStep, Option.bind_eq_bind, Option.bind_some]
  · rintro p ⟨h, contra, -⟩
    rw [Machine.after_threads_self] at contra
    cases contra
  · rw [Machine.Steps, Machine.step, threadStep, Machine.after_threads_self]
    simp only [goOn, Machine.after, search, missing, one, Option.bind_eq_bind, Option.bind_some,
      Function.update_idem, List.nil_append]

/-- Two threads add to a new list; the second waits for the guard of the head. -/
theorem waits_for_one_that_moves_two_threads :
    ∃ (s : ConcurrentSkipList Nat) (m : Machine Nat), 0 < 2 ∧ 2 ≤ 24 ∧ 24 < queueCount ∧ new 2 = some s ∧
      Reachable (Machine.UnsharedSteps (· < ·) 24 fun h => h) (Machine.start s) m ∧ m.threads 1 ≠ .idle ∧
      m.waiting.Wants 1 (.guard s.head) ∧
      ∃ u, ReflTransGen m.waiting.For 1 u ∧ m.Moves (· < ·) 24 (fun h => h) u := by
  have := natOrder
  obtain ⟨s, made, quiet⟩ := new_spec (T := Nat) (· < ·) (by decide : 0 < 2) (by decide : 2 ≤ 24) (by decide)
  obtain ⟨point, pred, run₁⟩ := searches_empty (m := Machine.start s) (t := 0) quiet.layers rfl 5
  -- The first thread takes the guard of the head.
  let s₁ := s.modify s.head fun n => { n with locked := true }
  let m₁ := (Machine.start s).after 0 s₁ (.validate (.add 5) point 1 0 s.head [s.head]) []
  have run₂ : Reachable (Machine.UnsharedSteps (· < ·) 24 fun h => h) (Machine.start s) m₁ := by
    refine .step (i := (0, .go fun _ => true)) run₁ ⟨?_, ?_⟩
    · rintro p ⟨h, contra, -⟩
      rw [Machine.after_threads_self] at contra
      cases contra
    · have unlocked : ¬ (s.memory s.head).locked = true := by
        rw [quiet.unlocked]
        exact Bool.false_ne_true
      have pred : point.preds 0 = some s.head := pred
      rw [Machine.Steps, Machine.step, threadStep, Machine.after_threads_self]
      simp [goOn, Machine.after, Machine.start, pred, guardLayer, acquireGuard, unlocked, m₁, s₁]
  have layers : Layers (· < ·) s₁ [] fun p => (s.memory p).height := quiet.layers.modify s.head rfl rfl rfl
  obtain ⟨point', pred', run₃⟩ := searches_empty (m := m₁) (t := 1) layers rfl 7
  have run := run₂.trans run₃
  have busy : (m₁.after 1 m₁.list (.guard (.add 7) point' 1 0 none []) []).threads 1 ≠ .idle := by
    rw [Machine.after_threads_self]
    intro idle
    cases idle
  refine ⟨s, _, by decide, by decide, by decide, made, run, busy, ?_,
    waits_for_one_that_moves (by decide) (by decide) (by decide) made run busy⟩
  have locked : (s₁.memory s.head).locked = true := by rw [modify_self]
  exact ⟨Nat.zero_lt_one, pred', Option.some_ne_none _ ∘ Eq.symm, locked⟩

end Hcl.ConcurrentSkipList
