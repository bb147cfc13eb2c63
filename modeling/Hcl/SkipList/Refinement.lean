import Mathlib.Data.Finset.Card
import Mathlib.Data.Finset.Dedup
import Mathlib.Data.Finset.Insert
import Mathlib.Data.Finset.Filter
import Mathlib.Order.RelClasses
import Hcl.Lib.Runs
import Hcl.SkipList.Quiet

/-!
The skip list is a finite set ordered by its comparison.

`Allowed` says what each operation of the accessor may answer on a finite set of pairwise
inequivalent keys, and which set it leaves. `answers_as_finite_set` runs any sequence of operations on a
new list, with any draws, any size limits and any initial height, and gets answers that the
set allows.
-/

namespace Hcl.ConcurrentSkipList

open Hcl.Lib

variable {T : Type}

/-- The operations of `Accessor`. An insertion comes with the draws of its attempts. -/
inductive Op (T : Type) where
  | add (x : T) (draws : Nat → Nat → Bool)
  | insert (x : T) (draws : Nat → Nat → Bool)
  | remove (x : T)
  | erase (x : T)
  | popBack
  | contains (x : T)
  | find (x : T)
  | count (x : T)
  | lowerBound (x : T)
  | first
  | last
  | size
  | empty
  | iterate

inductive Answer (T : Type) where
  | flag (b : Bool)
  | number (n : Nat)
  | element (y : Option T)
  | inserted (y : T) (b : Bool)
  | elements (l : List T)
deriving DecidableEq

/-- One operation. -/
def step [Inhabited T] (lt : T → T → Prop) [DecidableRel lt] (maxHeight : Nat) (sizeLimit : Nat → Nat)
    (fuel : Nat) (s : ConcurrentSkipList T) : Op T → Option (ConcurrentSkipList T × Answer T)
  | .add x draws => do
      let (s, _, newSize) ← addOrGetData lt maxHeight sizeLimit x fuel draws s
      some (s, .flag (newSize != 0))
  | .insert x draws => do
      let (s, node, newSize) ← addOrGetData lt maxHeight sizeLimit x fuel draws s
      some (s, .inserted (s.keyOf node) (newSize != 0))
  | .remove x => do
      let (s, removed) ← removeFrom lt x fuel none s
      some (s, .flag removed)
  | .erase x => do
      let (s, removed) ← removeFrom lt x fuel none s
      some (s, .number removed.toNat)
  | .popBack => do
      match ← s.last with
      | none => some (s, .flag false)
      | some node =>
          let (s, removed) ← removeFrom lt (s.keyOf node) fuel none s
          some (s, .flag removed)
  | .contains x => do
      let node ← findUnmarked lt s x
      some (s, .flag node.isSome)
  | .find x => do
      let node ← findUnmarked lt s x
      some (s, .element (node.map s.keyOf))
  | .count x => do
      let node ← findUnmarked lt s x
      some (s, .number node.isSome.toNat)
  | .lowerBound x => do
      let node ← s.lowerBound lt x
      some (s, .element (node.map s.keyOf))
  | .first => do
      let node ← s.first
      some (s, .element (node.map s.keyOf))
  | .last => do
      let node ← s.last
      some (s, .element (node.map s.keyOf))
  | .size => some (s, .number s.size)
  | .empty => some (s, .flag (s.size == 0))
  | .iterate => do
      let nodes ← s.iterate
      some (s, .elements (nodes.map s.keyOf))

/-! ### The set -/

section Spec

open Classical

variable (lt : T → T → Prop)

/-- The set has a key equivalent to `x`. -/
def Has (A : Finset T) (x : T) : Prop := ∃ y ∈ A, IncompRel lt y x

/-- `y` is the key of the set equivalent to `x`, if there is one. -/
def IsMatch (A : Finset T) (x : T) : Option T → Prop
  | none => ¬ Has lt A x
  | some y => y ∈ A ∧ IncompRel lt y x

/-- `y` is the least of the keys that satisfy `P`, if there is one. -/
def IsLeast (A : Finset T) (P : T → Prop) : Option T → Prop
  | none => ∀ z ∈ A, ¬ P z
  | some y => y ∈ A ∧ P y ∧ ∀ z ∈ A, P z → ¬ lt z y

/-- `y` is the greatest key, if there is one. -/
def IsGreatest (A : Finset T) : Option T → Prop
  | none => A = ∅
  | some y => y ∈ A ∧ ∀ z ∈ A, ¬ lt y z

noncomputable def insertKey (x : T) (A : Finset T) : Finset T := if Has lt A x then A else insert x A

noncomputable def removeKey (x : T) (A : Finset T) : Finset T := A.filter fun y => ¬ IncompRel lt y x

/-- What the operations may answer on a finite set, and the set they leave. -/
def Allowed (A : Finset T) : Op T → Answer T → Finset T → Prop
  | .add x _, .flag b, A' => (b = true ↔ ¬ Has lt A x) ∧ A' = insertKey lt x A
  | .insert x _, .inserted y b, A' =>
      (b = true ↔ ¬ Has lt A x) ∧ A' = insertKey lt x A ∧ IsMatch lt A' x (some y)
  | .remove x, .flag b, A' => (b = true ↔ Has lt A x) ∧ A' = removeKey lt x A
  | .erase x, .number n, A' => n = (if Has lt A x then 1 else 0) ∧ A' = removeKey lt x A
  | .popBack, .flag b, A' => (b = true ↔ A.Nonempty) ∧
      ∃ y, IsGreatest lt A y ∧ A' = y.elim A fun m => removeKey lt m A
  | .contains x, .flag b, A' => (b = true ↔ Has lt A x) ∧ A' = A
  | .find x, .element y, A' => IsMatch lt A x y ∧ A' = A
  | .count x, .number n, A' => n = (if Has lt A x then 1 else 0) ∧ A' = A
  | .lowerBound x, .element y, A' => IsLeast lt A (fun z => ¬ lt z x) y ∧ A' = A
  | .first, .element y, A' => IsLeast lt A (fun _ => True) y ∧ A' = A
  | .last, .element y, A' => IsGreatest lt A y ∧ A' = A
  | .size, .number n, A' => n = A.card ∧ A' = A
  | .empty, .flag b, A' => (b = true ↔ A = ∅) ∧ A' = A
  | .iterate, .elements l, A' => l.Pairwise lt ∧ l.toFinset = A ∧ A' = A
  | _, _, _ => False

/-! ### The simulation -/

variable {lt} {s s' : ConcurrentSkipList T} {xs : List Nat} {x : T} {maxHeight : Nat}

/-- The set that the nodes of a list stand for. -/
noncomputable def keys (s : ConcurrentSkipList T) (xs : List Nat) : Finset T := (xs.map s.keyOf).toFinset

theorem mem_keys {y : T} : y ∈ keys s xs ↔ ∃ p ∈ xs, s.keyOf p = y := by
  simp [keys]

theorem mem_keys_of_mem {p : Nat} (hp : p ∈ xs) : s.keyOf p ∈ keys s xs := mem_keys.mpr ⟨p, hp, rfl⟩

theorem has_keys : Has lt (keys s xs) x ↔ ∃ p ∈ xs, IncompRel lt (s.keyOf p) x := by
  simp [Has, mem_keys]

theorem not_has_keys : ¬ Has lt (keys s xs) x ↔ ∀ p ∈ xs, ¬ IncompRel lt (s.keyOf p) x := by
  rw [has_keys]
  simp

theorem keys_congr (same : ∀ p ∈ xs, s'.keyOf p = s.keyOf p) : keys s' xs = keys s xs := by
  rw [keys, List.map_congr_left same, keys]

theorem removeKey_of_absent {A : Finset T} (absent : ¬ Has lt A x) : removeKey lt x A = A :=
  Finset.filter_eq_self.mpr fun y hy same => absent ⟨y, hy, same⟩

/-- The abstraction relation. -/
def Represents (lt : T → T → Prop) (maxHeight : Nat) (s : ConcurrentSkipList T) (A : Finset T) : Prop :=
  ∃ xs, Quiet lt maxHeight s xs ∧ A = keys s xs

/-- The data of the nodes increase, so no two are equal. -/
theorem Quiet.pairwise (h : Quiet lt maxHeight s xs) : (xs.map s.keyOf).Pairwise lt :=
  List.pairwise_map.mpr h.layers.ascending

variable [IsStrictWeakOrder T lt]

theorem Quiet.card_keys (h : Quiet lt maxHeight s xs) : (keys s xs).card = xs.length := by
  have nodup : (xs.map s.keyOf).Nodup := 
    h.pairwise.imp fun {a b} below (same : a = b) => irrefl b (same ▸ below)
  rw [keys, List.toFinset_card_of_nodup nodup, List.length_map]

theorem Quiet.keys_eq_empty (h : Quiet lt maxHeight s xs) : keys s xs = ∅ ↔ xs = [] := by
  rw [← Finset.card_eq_zero, h.card_keys, List.length_eq_zero_iff]

theorem Quiet.isLeast_first (h : Quiet lt maxHeight s xs) :
    IsLeast lt (keys s xs) (fun _ => True) (xs.head?.map s.keyOf) := by
  cases hxs : xs with
  | nil => simp [IsLeast, keys]
  | cons q rest =>
      refine ⟨mem_keys_of_mem List.mem_cons_self, trivial, ?_⟩
      intro z hz _ below
      have ascending := h.layers.ascending
      rw [hxs] at ascending
      obtain ⟨p, hp, rfl⟩ := mem_keys.mp hz
      rcases List.mem_cons.mp hp with rfl | later
      · exact irrefl _ below
      · exact irrefl _ (IsTrans.trans _ _ _ ((List.pairwise_cons.mp ascending).1 p later) below)

theorem Quiet.isGreatest_last (h : Quiet lt maxHeight s xs) :
    IsGreatest lt (keys s xs) (xs.getLast?.map s.keyOf) := by
  rcases List.eq_nil_or_concat xs with rfl | ⟨front, q, rfl⟩
  · simp [IsGreatest, keys]
  · rw [List.concat_eq_append] at h ⊢
    rw [List.getLast?_concat]
    refine ⟨mem_keys_of_mem (List.mem_append_right _ List.mem_cons_self), ?_⟩
    intro z hz above
    obtain ⟨p, hp, rfl⟩ := mem_keys.mp hz
    rcases List.mem_append.mp hp with earlier | last
    · have below := (List.pairwise_append.mp h.layers.ascending).2.2 p earlier q List.mem_cons_self
      exact irrefl _ (IsTrans.trans _ _ _ above below)
    · rw [List.mem_singleton.mp last] at above
      exact irrefl _ above

variable [DecidableRel lt]

/-- `find` returns the node of the equivalent key, if there is one. -/
theorem Quiet.findUnmarked (h : Quiet lt maxHeight s xs) (x : T) :
    ∃ node, findUnmarked lt s x = some node ∧ IsMatch lt (keys s xs) x (node.map s.keyOf) ∧
      (node.isSome = true ↔ Has lt (keys s xs) x) := by
  by_cases present : Has lt (keys s xs) x
  · obtain ⟨q, hq, same⟩ := has_keys.mp present
    exact ⟨some q, h.layers.find_present hq same (h.unmarked q (List.mem_cons_of_mem _ hq)),
      ⟨mem_keys_of_mem hq, same⟩, by simp [present]⟩
  · exact ⟨none, h.layers.find_absent (not_has_keys.mp present), present, by simp [present]⟩

/-- The first node that is not below `x` has the least such key. -/
theorem Quiet.isLeast_onward (h : Quiet lt maxHeight s xs) (x : T) :
    IsLeast lt (keys s xs) (fun z => ¬ lt z x) ((onward lt s.keyOf x xs).head?.map s.keyOf) := by
  cases first : onward lt s.keyOf x xs with
  | nil =>
      intro z hz notBelow
      obtain ⟨p, hp, rfl⟩ := mem_keys.mp hz
      have mem := mem_onward.mpr ⟨hp, notBelow⟩
      rw [first] at mem
      cases mem
  | cons q rest =>
      obtain ⟨hq, notBelow⟩ := mem_onward.mp (first ▸ List.mem_cons_self : q ∈ onward lt s.keyOf x xs)
      refine ⟨mem_keys_of_mem hq, notBelow, ?_⟩
      intro z hz notBelow' below
      obtain ⟨p, hp, rfl⟩ := mem_keys.mp hz
      have mem := mem_onward.mpr ⟨hp, notBelow'⟩
      have ascending : Ascending lt s.keyOf (onward lt s.keyOf x xs) := h.layers.ascending.filter _
      rw [first] at mem ascending
      rcases List.mem_cons.mp mem with rfl | later
      · exact irrefl _ below
      · exact irrefl _ (IsTrans.trans _ _ _ ((List.pairwise_cons.mp ascending).1 p later) below)

/-- Linking a node adds its key. -/
theorem keys_insertNode {node : Nat} (h : Quiet lt maxHeight s xs)
    (absent : ∀ q ∈ xs, ¬ IncompRel lt (s.keyOf q) x) (key : s'.keyOf node = x)
    (kept : ∀ p ∈ xs, s'.keyOf p = s.keyOf p) :
    keys s' (insertNode lt s x node xs) = insertKey lt x (keys s xs) := by
  rw [insertKey, if_neg (not_has_keys.mpr absent)]
  ext y
  simp only [mem_keys, Finset.mem_insert, mem_insertNode h.layers.ascending]
  constructor
  · rintro ⟨p, rfl | hp, rfl⟩
    · exact .inl key
    · exact .inr ⟨p, hp, (kept p hp).symm⟩
  · rintro (rfl | ⟨p, hp, rfl⟩)
    · exact ⟨node, .inl rfl, key⟩
    · exact ⟨p, .inr hp, kept p hp⟩

/-- Unlinking a node removes its key, and no other is equivalent to it. -/
theorem keys_erase {q : Nat} (h : Quiet lt maxHeight s xs) (hq : q ∈ xs)
    (same : IncompRel lt (s.keyOf q) x) (kept : ∀ p ∈ xs.erase q, s'.keyOf p = s.keyOf p) :
    keys s' (xs.erase q) = removeKey lt x (keys s xs) := by
  rw [keys_congr kept]
  ext y
  simp only [removeKey, Finset.mem_filter, mem_keys, h.layers.nodup.2.mem_erase_iff]
  constructor
  · rintro ⟨p, ⟨other, hp⟩, rfl⟩
    exact ⟨⟨p, hp, rfl⟩, fun too => other (h.layers.ascending.unique hp hq too same)⟩
  · rintro ⟨⟨p, hp, rfl⟩, different⟩
    refine ⟨p, ⟨?_, hp⟩, rfl⟩
    rintro rfl
    exact different same

variable [Inhabited T] (sizeLimit : Nat → Nat) (fuel : Nat)

/-- `addOrGetData` inserts the key if no equivalent one is there, and returns the node of the
equivalent key. -/
theorem Quiet.addOrGetData (h : Quiet lt maxHeight s xs) (small : maxHeight < queueCount) (x : T)
    (draws : Nat → Nat → Bool) :
    ∃ s' node newSize xs', addOrGetData lt maxHeight sizeLimit x (fuel + 1) draws s =
        some (s', node, newSize) ∧ Quiet lt maxHeight s' xs' ∧
      keys s' xs' = insertKey lt x (keys s xs) ∧ ((newSize != 0) = true ↔ ¬ Has lt (keys s xs) x) ∧
      node ∈ xs' ∧ IncompRel lt (s'.keyOf node) x := by
  by_cases present : Has lt (keys s xs) x
  · obtain ⟨q, hq, same⟩ := has_keys.mp present
    exact ⟨s, q, 0, xs, h.add_present sizeLimit fuel draws hq same, h, (if_pos present).symm, by simp [present],
      hq, same⟩
  · have absent := not_has_keys.mp present
    obtain ⟨s', node, adds, quiet, -, key, kept⟩ := h.add_absent small sizeLimit fuel draws absent
    refine ⟨s', node, _, _, adds, quiet, keys_insertNode h absent key kept, by simp [present],
      (mem_insertNode h.layers.ascending).mpr (.inl rfl), ?_⟩
    rw [key]

/-- `remove` removes the equivalent key, if there is one. -/
theorem Quiet.removeFrom (h : Quiet lt maxHeight s xs) (small : maxHeight < queueCount) (x : T) :
    ∃ s' removed xs', removeFrom lt x (fuel + 1) none s = some (s', removed) ∧
      Quiet lt maxHeight s' xs' ∧ keys s' xs' = removeKey lt x (keys s xs) ∧
      (removed = true ↔ Has lt (keys s xs) x) := by
  by_cases present : Has lt (keys s xs) x
  · obtain ⟨q, hq, same⟩ := has_keys.mp present
    obtain ⟨s', removes, quiet, -, -, kept⟩ := h.remove_present small fuel hq same
    exact ⟨s', true, _, removes, quiet, keys_erase h hq same (fun p hp => (kept p hp).1), by simp [present]⟩
  · exact ⟨s, false, xs, h.remove_absent fuel (not_has_keys.mp present), h,
      (removeKey_of_absent present).symm, by simp [present]⟩

/-- **Every operation on a list that represents a set answers as the set allows**, and the
list then represents the set it should. -/
theorem step_allowed (small : maxHeight < queueCount) {A : Finset T}
    (represents : Represents lt maxHeight s A) (op : Op T) :
    ∃ s' answer A', step lt maxHeight sizeLimit (fuel + 1) s op = some (s', answer) ∧
      Allowed lt A op answer A' ∧ Represents lt maxHeight s' A' := by
  obtain ⟨xs, h, rfl⟩ := represents
  cases op with
  | add x draws =>
      obtain ⟨s', node, newSize, xs', adds, quiet, left, new, -⟩ :=
        h.addOrGetData sizeLimit fuel small x draws
      exact ⟨s', .flag (newSize != 0), keys s' xs', by simp [step, adds], ⟨new, left⟩, xs', quiet, rfl⟩
  | insert x draws =>
      obtain ⟨s', node, newSize, xs', adds, quiet, left, new, hn, same⟩ :=
        h.addOrGetData sizeLimit fuel small x draws
      exact ⟨s', .inserted (s'.keyOf node) (newSize != 0), keys s' xs', by simp [step, adds],
        ⟨new, left, mem_keys_of_mem hn, same⟩, xs', quiet, rfl⟩
  | remove x =>
      obtain ⟨s', removed, xs', removes, quiet, left, was⟩ := h.removeFrom fuel small x
      exact ⟨s', .flag removed, keys s' xs', by simp [step, removes], ⟨was, left⟩, xs', quiet, rfl⟩
  | erase x =>
      obtain ⟨s', removed, xs', removes, quiet, left, was⟩ := h.removeFrom fuel small x
      refine ⟨s', .number removed.toNat, keys s' xs', by simp [step, removes], ⟨?_, left⟩, xs', quiet, rfl⟩
      cases removed <;> simp [← was]
  | popBack =>
      cases last : xs.getLast? with
      | none =>
          have none_left := List.getLast?_eq_none_iff.mp last
          refine ⟨s, .flag false, keys s xs, by simp [step, h.layers.last, last], ⟨?_, none, ?_, rfl⟩, xs, h,
            rfl⟩
          · simp [none_left, keys]
          · exact h.keys_eq_empty.mpr none_left
      | some q =>
          obtain ⟨s', removed, xs', removes, quiet, left, was⟩ := h.removeFrom fuel small (s.keyOf q)
          have greatest := h.isGreatest_last
          rw [last] at greatest
          have present : Has lt (keys s xs) (s.keyOf q) :=
            ⟨_, greatest.1, ⟨irrefl _, irrefl _⟩⟩
          refine ⟨s', .flag removed, keys s' xs', by simp [step, h.layers.last, last, removes],
            ⟨?_, some (s.keyOf q), greatest, left⟩, xs', quiet, rfl⟩
          simp only [was, present, true_iff]
          exact ⟨_, greatest.1⟩
  | contains x =>
      obtain ⟨node, finds, -, was⟩ := h.findUnmarked x
      exact ⟨s, .flag node.isSome, keys s xs, by simp [step, finds], ⟨was, rfl⟩, xs, h, rfl⟩
  | find x =>
      obtain ⟨node, finds, found, -⟩ := h.findUnmarked x
      exact ⟨s, .element (node.map s.keyOf), keys s xs, by simp [step, finds], ⟨found, rfl⟩, xs, h, rfl⟩
  | count x =>
      obtain ⟨node, finds, -, was⟩ := h.findUnmarked x
      refine ⟨s, .number node.isSome.toNat, keys s xs, by simp [step, finds], ⟨?_, rfl⟩, xs, h, rfl⟩
      cases node <;> simp [← was]
  | lowerBound x =>
      exact ⟨s, .element ((onward lt s.keyOf x xs).head?.map s.keyOf), keys s xs, by simp [step, h.lowerBound],
        ⟨h.isLeast_onward x, rfl⟩, xs, h, rfl⟩
  | first =>
      exact ⟨s, .element (xs.head?.map s.keyOf), keys s xs, by simp [step, h.first], ⟨h.isLeast_first, rfl⟩,
        xs, h, rfl⟩
  | last =>
      exact ⟨s, .element (xs.getLast?.map s.keyOf), keys s xs, by simp [step, h.layers.last],
        ⟨h.isGreatest_last, rfl⟩, xs, h, rfl⟩
  | size => exact ⟨s, .number s.size, keys s xs, rfl, ⟨h.size.trans h.card_keys.symm, rfl⟩, xs, h, rfl⟩
  | empty =>
      refine ⟨s, .flag (s.size == 0), keys s xs, rfl, ⟨?_, rfl⟩, xs, h, rfl⟩
      rw [h.keys_eq_empty, beq_iff_eq, h.size, List.length_eq_zero_iff]
  | iterate =>
      exact ⟨s, .elements (xs.map s.keyOf), keys s xs, by simp [step, h.iterate], ⟨h.pairwise, rfl, rfl⟩, xs, h,
        rfl⟩

/-- **The skip list is a finite ordered set.** Every sequence of operations on a new list, of any
initial height and with any draws and size limits, runs to its end and answers as the set does. -/
theorem answers_as_finite_set (small : maxHeight < queueCount) {initialHeight : Nat} (positive : 0 < initialHeight)
    (low : initialHeight ≤ maxHeight) (ops : List (Op T)) :
    ∃ (s s' : ConcurrentSkipList T) (answers : List (Answer T)) (A : Finset T),
      new initialHeight = some s ∧
      answers? (step lt maxHeight sizeLimit (fuel + 1)) s ops = some (s', answers) ∧
      SpecRun (Allowed lt) ∅ ops answers A ∧ Represents lt maxHeight s' A := by
  obtain ⟨s, made, quiet⟩ := new_spec lt positive low small
  have start : Represents lt maxHeight s ∅ := ⟨[], quiet, by simp [keys]⟩
  have sim : ∀ (s : ConcurrentSkipList T) (A : Finset T) (op : Op T), Represents lt maxHeight s A →
      True → ∃ s' answer A', step lt maxHeight sizeLimit (fuel + 1) s op = some (s', answer) ∧
        Allowed lt A op answer A' ∧ Represents lt maxHeight s' A' :=
    fun s A op represents _ => step_allowed sizeLimit fuel small represents op
  obtain ⟨s', answers, A, runs, allowed, after⟩ :=
    answers?_of_simulation sim start (fun _ _ => trivial : ∀ op ∈ ops, True)
  exact ⟨s, s', answers, A, made, runs, allowed, after⟩

end Spec

/-- The list of the distributed container, with a key inserted twice, removed and inserted
again. -/
theorem answers_as_finite_set_readded :
    24 < queueCount ∧ 0 < 2 ∧ 2 ≤ 24 ∧
      ∃ (s s' : ConcurrentSkipList Nat) (answers : List (Answer Nat)) (A : Finset Nat),
        new 2 = some s ∧
        answers? (step (· < ·) 24 (fun h => h) 1) s [.add 5 fun _ _ => true, .add 5 fun _ _ => false,
          .remove 5, .add 5 fun _ _ => false, .iterate] = some (s', answers) ∧
        SpecRun (Allowed (· < ·)) ∅ [.add 5 fun _ _ => true, .add 5 fun _ _ => false, .remove 5,
          .add 5 fun _ _ => false, .iterate] answers A ∧ Represents (· < ·) 24 s' A :=
  have order : IsStrictWeakOrder Nat (· < ·) := isStrictWeakOrder_of_isOrderConnected
  ⟨by decide, by decide, by decide, answers_as_finite_set (fun h => h) 0 (by decide) (by decide) (by decide) _⟩

end Hcl.ConcurrentSkipList
