import Mathlib.Algebra.Order.Ring.Int
import Mathlib.Data.List.Perm.Basic
import Mathlib.Data.List.Count
import Hcl.Lib.Faults

/-!
The lifetimes of lists and their accessors: `skip_list_accessor.h`, `create` and
`createInstance` of `skip_list.h`, and the reference count of `NodeRecycler`.

An accessor points to its list twice: by `sl_`, which `refs_` counts, and by `slHolder_`, a
`shared_ptr` that keeps the list alive. Every operation moves both counts, in its own order.
`operator=` gives up its old list before it takes its reference back, so the list may be gone
by then. That happens exactly when nothing else owns the list and the other accessor is on
another one (`counted_iff`).
-/

namespace Hcl.Lifetime

open Hcl.Lib

/-! ### The counts of a list -/

/-- A live list: `refs_` of its recycler and the owner count of its `shared_ptr`s. `refs_` is an
`int32_t` in the source, and follows these numbers while fewer than 2³¹ accessors are live. -/
structure Counts where
  refs : Int
  useCount : Nat
deriving DecidableEq

/-- The live lists, by number. -/
abbrev Lists := Nat → Option Counts

inductive Fault where
  /-- An operation on a list that has been destroyed. -/
  | destroyed (list : Nat)
  /-- `assert(refs() == 0)` in `~NodeRecycler`. -/
  | assertion (list : Nat)
deriving DecidableEq

/-- Change the counts of a live list. -/
def onList (list : Nat) (f : Counts → Counts) (lists : Lists) : Except Fault Lists :=
  match lists list with
  | some c => .ok (Function.update lists list (some (f c)))
  | none => .error (.destroyed list)

/-- `recycler_.addRef()`. -/
def addRef (list : Nat) : Lists → Except Fault Lists :=
  onList list fun c => { c with refs := c.refs + 1 }

/-- `recycler_.releaseRef()`, as far as the count goes: both branches decrement it. -/
def releaseRef (list : Nat) : Lists → Except Fault Lists :=
  onList list fun c => { c with refs := c.refs - 1 }

/-- Copying a `shared_ptr`. -/
def share (list : Nat) : Lists → Except Fault Lists :=
  onList list fun c => { c with useCount := c.useCount + 1 }

/-- Giving up a `shared_ptr`. The last one destroys the list. -/
def unshare (list : Nat) (lists : Lists) : Except Fault Lists :=
  match lists list with
  | none => .error (.destroyed list)
  | some c =>
      if c.useCount = 1 then
        if c.refs = 0 then .ok (Function.update lists list none) else .error (.assertion list)
      else .ok (Function.update lists list (some { c with useCount := c.useCount - 1 }))

/-! ### The operations -/

/-- `class Accessor`. -/
structure Accessor where
  sl : Nat
  slHolder : Nat
deriving DecidableEq

/-- The lists created so far, those of them that are live, the `shared_ptr`s outside
accessors, and the live accessors. -/
structure State where
  created : Nat
  lists : Lists
  pointers : List Nat
  accessors : List Accessor

def initial : State := ⟨0, fun _ => none, [], []⟩

/-- Objects are named by their positions among the live ones. -/
inductive Op where
  | createInstance
  /-- A `shared_ptr` is copied, or goes away. -/
  | copyPointer (p : Nat)
  | dropPointer (p : Nat)
  /-- `Accessor(std::shared_ptr)`, moved into. -/
  | construct (p : Nat)
  /-- The copy constructor. -/
  | copy (a : Nat)
  /-- `a = b`. -/
  | assign (a b : Nat)
  /-- The destructor. -/
  | destroy (a : Nat)
deriving DecidableEq

/-- One operation. A position without an object is no call. -/
def step (s : State) : Op → Except Fault State
  | .createInstance => .ok
      { s with
        created := s.created + 1
        lists := Function.update s.lists s.created (some ⟨0, 1⟩)
        pointers := s.created :: s.pointers }
  | .copyPointer p =>
      match s.pointers[p]? with
      | none => .ok s
      | some list => do
          let lists ← share list s.lists
          return { s with lists, pointers := list :: s.pointers }
  | .dropPointer p =>
      match s.pointers[p]? with
      | none => .ok s
      | some list => do
          let lists ← unshare list s.lists
          return { s with lists, pointers := s.pointers.eraseIdx p }
  | .construct p =>
      match s.pointers[p]? with
      | none => .ok s
      | some list => do
          let lists ← addRef list s.lists
          return { s with
            lists
            pointers := s.pointers.eraseIdx p
            accessors := ⟨list, list⟩ :: s.accessors }
  | .copy i =>
      match s.accessors[i]? with
      | none => .ok s
      | some a => do
          let lists ← share a.slHolder s.lists
          let lists ← addRef a.sl lists
          return { s with lists, accessors := a :: s.accessors }
  | .assign i j =>
      match s.accessors[i]?, s.accessors[j]? with
      | some a, some b =>
          if i = j then .ok s
          else do
            -- `slHolder_ = accessor.slHolder_`: the new pointer is taken, the old one given up.
            let lists ← share b.slHolder s.lists
            let lists ← unshare a.slHolder lists
            let lists ← releaseRef a.sl lists
            let lists ← addRef b.sl lists
            return { s with lists, accessors := s.accessors.set i ⟨b.sl, b.slHolder⟩ }
      | _, _ => .ok s
  | .destroy i =>
      match s.accessors[i]? with
      | none => .ok s
      | some a => do
          let lists ← releaseRef a.sl s.lists
          -- The members go after the body.
          let lists ← unshare a.slHolder lists
          return { s with lists, accessors := s.accessors.eraseIdx i }

def run (s : State) (ops : List Op) : Except Fault State := ops.foldlM step s

/-! ### The invariant -/

/-- The number of accessors whose `sl_` is a list. -/
def refsOf (accessors : List Accessor) (list : Nat) : Nat :=
  accessors.countP fun a => decide (a.sl = list)

/-- The number of owners of a list. -/
def ownersOf (accessors : List Accessor) (pointers : List Nat) (list : Nat) : Nat :=
  accessors.countP (fun a => decide (a.slHolder = list)) + pointers.count list

/-- The lists that have owners, with given counts. -/
def table (refs owners : Nat → Nat) : Lists := fun list =>
  if owners list = 0 then none else some ⟨refs list, owners list⟩

/-- Both counts are right, the lists without owners are gone, and both pointers of an accessor
are to one list. -/
structure Inv (s : State) : Prop where
  lists : s.lists = table (refsOf s.accessors) (ownersOf s.accessors s.pointers)
  same : ∀ a ∈ s.accessors, a.slHolder = a.sl
  fresh : ∀ list, ownersOf s.accessors s.pointers list ≠ 0 → list < s.created

/-- One more of a list. -/
def more (list : Nat) (f : Nat → Nat) : Nat → Nat := fun k => (if list = k then 1 else 0) + f k

section Table

variable {refs owners : Nat → Nat} {list : Nat}

theorem onList_table (live : owners list ≠ 0) (f : Counts → Counts) :
    onList list f (table refs owners) =
      .ok (Function.update (table refs owners) list (some (f ⟨refs list, owners list⟩))) := by
  simp [onList, table, live]

theorem addRef_table (live : owners list ≠ 0) :
    addRef list (table refs owners) = .ok (table (more list refs) owners) := by
  rw [addRef, onList_table live]
  congr 1
  funext k
  by_cases here : k = list
  · subst here
    simp [table, live, more, add_comm]
  · simp [table, more, here, Ne.symm here]

theorem releaseRef_table (live : owners list ≠ 0) :
    releaseRef list (table (more list refs) owners) = .ok (table refs owners) := by
  rw [releaseRef, onList_table live]
  congr 1
  funext k
  by_cases here : k = list
  · subst here
    simp [table, live, more, add_comm]
  · simp [table, more, here, Ne.symm here]

theorem share_table (live : owners list ≠ 0) :
    share list (table refs owners) = .ok (table refs (more list owners)) := by
  rw [share, onList_table live]
  congr 1
  funext k
  by_cases here : k = list
  · subst here
    simp [table, more, add_comm]
  · simp [table, more, here, Ne.symm here]

/-- Giving up an owner is sound when others are left or no reference is. -/
theorem unshare_table (sound : owners list ≠ 0 ∨ refs list = 0) :
    unshare list (table refs (more list owners)) = .ok (table refs owners) := by
  have found : table refs (more list owners) list = some ⟨refs list, 1 + owners list⟩ := by
    simp [table, more]
  have elsewhere : ∀ k, k ≠ list → table refs (more list owners) k = table refs owners k := by
    intro k other
    simp [table, more, other.symm]
  unfold unshare
  rw [found]
  by_cases last : owners list = 0
  · have unreferred : refs list = 0 := sound.resolve_left (not_not_intro last)
    simp only [last, unreferred, Nat.add_zero, if_true, Nat.cast_zero]
    congr 1
    funext k
    by_cases here : k = list
    · subst here
      simp [table, last]
    · rw [Function.update_of_ne here, elsewhere k here]
  · have several : ¬ 1 + owners list = 1 := by omega
    simp only [several, if_false]
    congr 1
    funext k
    by_cases here : k = list
    · subst here
      simp [table, last]
    · rw [Function.update_of_ne here, elsewhere k here]

/-- Giving up the last owner of a list that is referred to fails the assertion. -/
theorem unshare_table_assertion (last : owners list = 0) (referred : refs list ≠ 0) :
    unshare list (table refs (more list owners)) = .error (.assertion list) := by
  simp [unshare, table, more, last, referred]

end Table

/-! ### Counting objects -/

section Objects

variable {a : Accessor} {as bs : List Accessor} {p : Nat} {ps qs : List Nat}

theorem more_comm (x y : Nat) (f : Nat → Nat) : more x (more y f) = more y (more x f) := by
  funext k
  simp only [more]
  omega

theorem more_self_ne_zero (x : Nat) (f : Nat → Nat) : more x f x ≠ 0 := by
  simp [more]

theorem more_ne_zero_iff {x y : Nat} {f : Nat → Nat} : more x f y ≠ 0 ↔ x = y ∨ f y ≠ 0 := by
  by_cases same : x = y <;> simp [more, same]

theorem refsOf_cons (a : Accessor) (as : List Accessor) :
    refsOf (a :: as) = more a.sl (refsOf as) := by
  funext k
  simp only [refsOf, more, List.countP_cons, decide_eq_true_eq]
  omega

theorem ownersOf_cons (a : Accessor) (as : List Accessor) (ps : List Nat) :
    ownersOf (a :: as) ps = more a.slHolder (ownersOf as ps) := by
  funext k
  simp only [ownersOf, more, List.countP_cons, decide_eq_true_eq]
  omega

theorem ownersOf_cons_pointer (as : List Accessor) (p : Nat) (ps : List Nat) :
    ownersOf as (p :: ps) = more p (ownersOf as ps) := by
  funext k
  simp only [ownersOf, more, List.count_cons, beq_iff_eq]
  omega

theorem refsOf_perm (perm : as.Perm bs) : refsOf as = refsOf bs :=
  funext fun _ => perm.countP_eq _

theorem ownersOf_perm (perm : as.Perm bs) (same : ps.Perm qs) : ownersOf as ps = ownersOf bs qs :=
  funext fun list => congrArg₂ (· + ·) (perm.countP_eq _) (same.count_eq list)

theorem ownersOf_ne_zero_iff {list : Nat} :
    ownersOf as ps list ≠ 0 ↔ list ∈ ps ∨ ∃ c ∈ as, c.slHolder = list := by
  rw [ownersOf, ← Nat.pos_iff_ne_zero, Nat.add_pos_iff_pos_or_pos, List.countP_pos_iff,
    List.count_pos_iff, or_comm]
  simp only [decide_eq_true_eq]

/-- A list without owners is one no accessor is on. -/
theorem owned_or_unreferred (ps : List Nat) (same : ∀ a ∈ as, a.slHolder = a.sl) (list : Nat) :
    ownersOf as ps list ≠ 0 ∨ refsOf as list = 0 := by
  by_cases referred : refsOf as list = 0
  · exact Or.inr referred
  · obtain ⟨a, mem, on⟩ := List.countP_pos_iff.mp (Nat.pos_of_ne_zero referred)
    rw [decide_eq_true_eq] at on
    exact Or.inl (ownersOf_ne_zero_iff.mpr (Or.inr ⟨a, mem, (same a mem).trans on⟩))

end Objects

/-- The accessors with one of them in front. -/
theorem perm_eraseIdx {A : Type} {as : List A} {i : Nat} {a : A} (at' : as[i]? = some a) :
    as.Perm (a :: as.eraseIdx i) := by
  obtain ⟨inside, rfl⟩ := List.getElem?_eq_some_iff.mp at'
  exact (List.getElem_cons_eraseIdx_perm inside).symm

theorem set_perm {A : Type} {as : List A} {i : Nat} {a : A} (at' : as[i]? = some a) (b : A) :
    (as.set i b).Perm (b :: as.eraseIdx i) := by
  obtain ⟨inside, -⟩ := List.getElem?_eq_some_iff.mp at'
  exact List.set_perm_cons_eraseIdx inside b

/-! ### One operation -/

/-- The condition: an assignment to an accessor from another one, on another list, leaves an
owner of the list that is given up. -/
def Meets (s : State) : Op → Prop
  | .assign i j => ∀ a b, s.accessors[i]? = some a → s.accessors[j]? = some b →
      i = j ∨ a.sl = b.sl ∨ a.sl ∈ s.pointers ∨
        ∃ k ≠ i, ∃ c, s.accessors[k]? = some c ∧ c.sl = a.sl
  | _ => True

/-- What an operation does from a state with right counts. -/
def Sound (s : State) (op : Op) : Prop := ∃ t, step s op = .ok t ∧ Inv t

namespace Inv

variable {s : State}

/-- The counts with one accessor in front. -/
theorem lists_eq (inv : Inv s) {i : Nat} {a : Accessor} (at' : s.accessors[i]? = some a) :
    s.lists = table (more a.sl (refsOf (s.accessors.eraseIdx i)))
      (more a.sl (ownersOf (s.accessors.eraseIdx i) s.pointers)) := by
  have same := inv.same a (List.mem_of_getElem? at')
  rw [inv.lists, refsOf_perm (perm_eraseIdx at'), refsOf_cons,
    ownersOf_perm (perm_eraseIdx at') (List.Perm.refl _), ownersOf_cons, same]

theorem live (inv : Inv s) {a : Accessor} (mem : a ∈ s.accessors) :
    ownersOf s.accessors s.pointers a.sl ≠ 0 :=
  ownersOf_ne_zero_iff.mpr (Or.inr ⟨a, mem, inv.same a mem⟩)

theorem createInstance (inv : Inv s) : Sound s .createInstance := by
  refine ⟨_, rfl, ?_, inv.same, ?_⟩
  · have unowned : ownersOf s.accessors s.pointers s.created = 0 := by
      by_contra owned
      exact Nat.lt_irrefl _ (inv.fresh _ owned)
    have unreferred : refsOf s.accessors s.created = 0 := by
      rw [refsOf, List.countP_eq_zero]
      intro a mem same
      rw [decide_eq_true_eq] at same
      exact inv.live mem (same ▸ unowned)
    show Function.update s.lists s.created (some ⟨0, 1⟩) = _
    rw [ownersOf_cons_pointer, inv.lists]
    funext k
    by_cases here : k = s.created
    · subst here
      simp [table, more, unowned, unreferred]
    · simp [table, more, here, Ne.symm here]
  · intro list owned
    rw [ownersOf_cons_pointer, more_ne_zero_iff] at owned
    rcases owned with rfl | old
    · exact Nat.lt_succ_self _
    · exact Nat.lt_succ_of_lt (inv.fresh list old)

/-- A state with the same accessors and pointers as another, up to order, and their counts. -/
theorem of_perm (inv : Inv s) {as : List Accessor} {ps : List Nat} {lists : Lists}
    (counts : lists = table (refsOf as) (ownersOf as ps)) (same : ∀ a ∈ as, a.slHolder = a.sl)
    (old : ∀ list, ownersOf as ps list ≠ 0 → ownersOf s.accessors s.pointers list ≠ 0) :
    Inv { s with lists, pointers := ps, accessors := as } :=
  ⟨counts, same, fun list owned => inv.fresh list (old list owned)⟩

theorem copyPointer (inv : Inv s) (p : Nat) : Sound s (.copyPointer p) := by
  cases at' : s.pointers[p]? with
  | none => exact ⟨s, by simp only [step, at'], inv⟩
  | some list =>
      have owned : ownersOf s.accessors s.pointers list ≠ 0 :=
        ownersOf_ne_zero_iff.mpr (Or.inl (List.mem_of_getElem? at'))
      simp only [Sound, step, at', inv.lists, share_table owned, ok_bind]
      refine ⟨_, rfl, inv.of_perm ?_ inv.same ?_⟩
      · rw [ownersOf_cons_pointer]
      · intro k now
        rw [ownersOf_cons_pointer, more_ne_zero_iff] at now
        rcases now with rfl | old
        · exact owned
        · exact old

/-- The owners with one pointer in front. -/
theorem owners_pointer {p list : Nat} (at' : s.pointers[p]? = some list) :
    ownersOf s.accessors s.pointers = more list (ownersOf s.accessors (s.pointers.eraseIdx p)) := by
  rw [← ownersOf_cons_pointer]
  exact ownersOf_perm (List.Perm.refl _) (perm_eraseIdx at')

theorem dropPointer (inv : Inv s) (p : Nat) : Sound s (.dropPointer p) := by
  cases at' : s.pointers[p]? with
  | none => exact ⟨s, by simp only [step, at'], inv⟩
  | some list =>
      have owners := owners_pointer at'
      have sound := owned_or_unreferred (s.pointers.eraseIdx p) inv.same list
      simp only [Sound, step, at', inv.lists, owners, unshare_table sound, ok_bind]
      refine ⟨_, rfl, inv.of_perm rfl inv.same ?_⟩
      intro k now
      rw [owners, more_ne_zero_iff]
      exact Or.inr now

theorem construct (inv : Inv s) (p : Nat) : Sound s (.construct p) := by
  cases at' : s.pointers[p]? with
  | none => exact ⟨s, by simp only [step, at'], inv⟩
  | some list =>
      have owners := owners_pointer at'
      have owned : ownersOf s.accessors s.pointers list ≠ 0 :=
        ownersOf_ne_zero_iff.mpr (Or.inl (List.mem_of_getElem? at'))
      simp only [Sound, step, at', inv.lists, addRef_table owned, ok_bind]
      refine ⟨_, rfl, inv.of_perm ?_ ?_ ?_⟩
      · rw [refsOf_cons, ownersOf_cons, owners]
      · exact List.forall_mem_cons.mpr ⟨rfl, inv.same⟩
      · intro k now
        rw [ownersOf_cons, ← owners] at now
        exact now

theorem copy (inv : Inv s) (i : Nat) : Sound s (.copy i) := by
  cases at' : s.accessors[i]? with
  | none => exact ⟨s, by simp only [step, at'], inv⟩
  | some a =>
      have mem := List.mem_of_getElem? at'
      have owned := inv.live mem
      have still : more a.sl (ownersOf s.accessors s.pointers) a.sl ≠ 0 := more_self_ne_zero _ _
      simp only [Sound, step, at', inv.same a mem, inv.lists, share_table owned, ok_bind,
        addRef_table still]
      refine ⟨_, rfl, inv.of_perm ?_ ?_ ?_⟩
      · rw [refsOf_cons, ownersOf_cons, inv.same a mem]
      · exact List.forall_mem_cons.mpr ⟨inv.same a mem, inv.same⟩
      · intro k now
        rw [ownersOf_cons, inv.same a mem, more_ne_zero_iff] at now
        rcases now with rfl | old
        · exact owned
        · exact old

theorem destroy (inv : Inv s) (i : Nat) : Sound s (.destroy i) := by
  cases at' : s.accessors[i]? with
  | none => exact ⟨s, by simp only [step, at'], inv⟩
  | some a =>
      have mem := List.mem_of_getElem? at'
      have still := more_self_ne_zero a.sl (ownersOf (s.accessors.eraseIdx i) s.pointers)
      have rest : ∀ b ∈ s.accessors.eraseIdx i, b.slHolder = b.sl := fun b there =>
        inv.same b (List.mem_of_mem_eraseIdx there)
      -- The reference goes first, so the last accessor of a list leaves none behind.
      have sound := owned_or_unreferred s.pointers rest a.sl
      simp only [Sound, step, at', inv.same a mem, inv.lists_eq at', releaseRef_table still,
        ok_bind, unshare_table sound]
      refine ⟨_, rfl, inv.of_perm rfl rest ?_⟩
      intro k now
      rw [ownersOf_perm (perm_eraseIdx at') (List.Perm.refl _), ownersOf_cons, more_ne_zero_iff]
      exact Or.inr now

/-- The owners that are left when an accessor turns to another list. -/
theorem owned_iff (inv : Inv s) (i : Nat) {a : Accessor} :
    ownersOf (s.accessors.eraseIdx i) s.pointers a.sl ≠ 0 ↔
      a.sl ∈ s.pointers ∨ ∃ k ≠ i, ∃ c, s.accessors[k]? = some c ∧ c.sl = a.sl := by
  rw [ownersOf_ne_zero_iff]
  refine or_congr_right ?_
  constructor
  · rintro ⟨c, mem, on⟩
    obtain ⟨k, other, at'⟩ := List.mem_eraseIdx_iff_getElem?.mp mem
    exact ⟨k, other, c, at', (inv.same c (List.mem_of_getElem? at')).symm.trans on⟩
  · rintro ⟨k, other, c, at', on⟩
    exact ⟨c, List.mem_eraseIdx_iff_getElem?.mpr ⟨k, other, at'⟩,
      (inv.same c (List.mem_of_getElem? at')).trans on⟩

/-- An assignment between two accessors: sound when an owner of the list that is given up is
left, and a failed assertion otherwise. -/
theorem assign_cases (inv : Inv s) {i j : Nat} {a b : Accessor} (atI : s.accessors[i]? = some a)
    (atJ : s.accessors[j]? = some b) (other : i ≠ j) :
    if a.sl = b.sl ∨ ownersOf (s.accessors.eraseIdx i) s.pointers a.sl ≠ 0 then
      Sound s (.assign i j)
    else step s (.assign i j) = .error (.assertion a.sl) := by
  have memB := List.mem_of_getElem? atJ
  have ownedB := inv.live memB
  rw [ownersOf_perm (perm_eraseIdx atI) (List.Perm.refl _), ownersOf_cons,
    inv.same a (List.mem_of_getElem? atI)] at ownedB
  simp only [Sound, step, atI, atJ, other, if_false, inv.same a (List.mem_of_getElem? atI),
    inv.same b memB, inv.lists_eq atI, share_table ownedB, ok_bind]
  rw [more_comm b.sl a.sl]
  split
  · rename_i left
    have still : more b.sl (ownersOf (s.accessors.eraseIdx i) s.pointers) a.sl ≠ 0 :=
      more_ne_zero_iff.mpr (left.imp_left Eq.symm)
    have now := more_self_ne_zero b.sl (ownersOf (s.accessors.eraseIdx i) s.pointers)
    simp only [unshare_table (Or.inl still), ok_bind, releaseRef_table still, addRef_table now]
    have perm := set_perm atI ⟨b.sl, b.sl⟩
    refine ⟨_, rfl, inv.of_perm ?_ ?_ ?_⟩
    · rw [refsOf_perm perm, ownersOf_perm perm (List.Perm.refl _), refsOf_cons, ownersOf_cons]
    · intro c mem
      rcases List.mem_cons.mp (perm.mem_iff.mp mem) with rfl | old
      · rfl
      · exact inv.same c (List.mem_of_mem_eraseIdx old)
    · intro k owned
      rw [ownersOf_perm perm (List.Perm.refl _), ownersOf_cons, more_ne_zero_iff] at owned
      rcases owned with rfl | old
      · exact inv.live memB
      · rw [ownersOf_perm (perm_eraseIdx atI) (List.Perm.refl _), ownersOf_cons, more_ne_zero_iff]
        exact Or.inr old
  · rename_i alone
    obtain ⟨elsewhere, unowned⟩ := not_or.mp alone
    have last : more b.sl (ownersOf (s.accessors.eraseIdx i) s.pointers) a.sl = 0 := by
      by_contra owned
      rcases more_ne_zero_iff.mp owned with same | left
      · exact elsewhere same.symm
      · exact unowned left
    rw [unshare_table_assertion last (more_self_ne_zero _ _)]
    rfl

/-- A position without an accessor is no call. -/
theorem step_assign_of_none {i j : Nat} (absent : s.accessors[i]? = none ∨ s.accessors[j]? = none) :
    step s (.assign i j) = .ok s := by
  rcases absent with gone | gone
  · simp only [step, gone]
  · simp only [step, gone]
    cases s.accessors[i]? <;> rfl

theorem assign (inv : Inv s) {i j : Nat} (meets : Meets s (.assign i j)) : Sound s (.assign i j) := by
  cases atI : s.accessors[i]? with
  | none => exact ⟨s, step_assign_of_none (Or.inl atI), inv⟩
  | some a =>
      cases atJ : s.accessors[j]? with
      | none => exact ⟨s, step_assign_of_none (Or.inr atJ), inv⟩
      | some b =>
          by_cases self : i = j
          · exact ⟨s, by simp only [step, atJ, self, if_true], inv⟩
          · have cases' := inv.assign_cases atI atJ self
            have left := (meets a b atI atJ).resolve_left self
            rwa [if_pos (left.imp_right (inv.owned_iff i).mpr)] at cases'

theorem meets_of_assign (inv : Inv s) {i j : Nat} {t : State}
    (done : step s (.assign i j) = .ok t) : Meets s (.assign i j) := by
  intro a b atI atJ
  by_contra alone
  obtain ⟨self, alone⟩ := not_or.mp alone
  have cases' := inv.assign_cases atI atJ self
  rw [if_neg (mt (Or.imp_right (inv.owned_iff i).mp) alone), done] at cases'
  cases cases'

/-- An operation that meets the condition keeps the counts right. -/
theorem sound (inv : Inv s) {op : Op} (meets : Meets s op) : Sound s op := by
  cases op with
  | createInstance => exact inv.createInstance
  | copyPointer p => exact inv.copyPointer p
  | dropPointer p => exact inv.dropPointer p
  | construct p => exact inv.construct p
  | copy i => exact inv.copy i
  | assign i j => exact inv.assign meets
  | destroy i => exact inv.destroy i

/-- An operation comes back exactly when it meets the condition. -/
theorem isOk_iff (inv : Inv s) (op : Op) : (∃ t, step s op = .ok t) ↔ Meets s op := by
  constructor
  · rintro ⟨t, done⟩
    cases op with
    | assign i j => exact inv.meets_of_assign done
    | _ => trivial
  · intro meets
    obtain ⟨t, done, -⟩ := inv.sound meets
    exact ⟨t, done⟩

theorem step (inv : Inv s) {op : Op} {t : State} (done : Lifetime.step s op = .ok t) : Inv t := by
  obtain ⟨t', done', next⟩ := inv.sound ((inv.isOk_iff op).mp ⟨t, done⟩)
  cases done.symm.trans done'
  exact next

/-- `refs_` counts the accessors. -/
theorem refs_eq (inv : Inv s) {list : Nat} {c : Counts} (live : s.lists list = some c) :
    c.refs = refsOf s.accessors list := by
  rw [inv.lists, table] at live
  split at live
  · cases live
  · cases live
    rfl

end Inv

theorem inv_initial : Inv initial := by
  constructor
  · rfl
  · intro a mem
    cases mem
  · intro list owned
    exact absurd rfl owned

/-! ### Whole runs -/

/-- Along a run nothing faults: no reference of a destroyed list is taken or released, and none
is left when a list is destroyed. And at every point `refs_` of each live list is the number of
accessors on it. -/
def Counted (ops : List Op) : Prop :=
  ∀ front, front <+: ops → ∃ s, run initial front = .ok s ∧
    ∀ list c, s.lists list = some c → c.refs = refsOf s.accessors list

/-- **References are counted along a run** exactly when each of its assignments is to the
accessor itself, stays on one list, or leaves another owner of the list it gives up. -/
theorem counted_iff (ops : List Op) : Counted ops ↔ AllMeet step Meets initial ops := by
  have kept : ∀ s op t, Inv s → step s op = .ok t → Inv t := fun _ _ _ inv done => inv.step done
  rw [← exists_run_iff kept (fun _ op inv => inv.isOk_iff op) inv_initial]
  constructor
  · intro counted
    obtain ⟨s, done, -⟩ := counted ops (List.prefix_refl ops)
    exact ⟨s, done⟩
  · rintro ⟨last, done⟩ front here
    obtain ⟨s, reached⟩ := run_of_prefix here done
    have inv := run_invariant kept inv_initial reached
    exact ⟨s, reached, fun list c live => inv.refs_eq live⟩

/-- Two lists with one accessor each, and one is assigned to the other: the list that is given
up is destroyed with its reference still taken. -/
theorem not_counted_assign :
    run initial [.createInstance, .construct 0, .createInstance, .construct 0, .assign 0 1] =
        .error (.assertion 1) ∧
      ¬ Counted [.createInstance, .construct 0, .createInstance, .construct 0, .assign 0 1] := by
  have fails : run initial
      [.createInstance, .construct 0, .createInstance, .construct 0, .assign 0 1] =
        .error (.assertion 1) := rfl
  constructor
  · exact fails
  · intro counted
    obtain ⟨s, done, -⟩ := counted _ (List.prefix_refl _)
    rw [fails] at done
    cases done

end Hcl.Lifetime
