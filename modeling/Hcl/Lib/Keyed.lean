import Mathlib.Data.List.Basic
import Mathlib.Data.List.Sort
import Mathlib.Data.List.TakeWhile
import Mathlib.Order.Basic

/-!
Lists of entries ordered by a key: the model of ordered associative containers.

An entry `e` has the key `key e`. `Increasing` lists have strictly increasing keys
(a map or a set), `Nondecreasing` ones may repeat a key (a multimap). `upsert` is
insert-or-assign, `insertUpper` inserts behind the entries of the same key,
`lookup` finds the first entry of a key, `eraseFirst` and `eraseKey` remove one
entry of a key or all of them.

Where no key occurs twice, `lookup` is membership (`lookup_eq_some_iff`), and the
other operations are determined by what they do to membership; the `lookup_*`
lemmas are stated for such lists.
-/

namespace Hcl.Lib.Keyed

variable {K E : Type*} [LinearOrder K] (key : E → K)

/-- Strictly increasing keys. -/
def Increasing (l : List E) : Prop := l.Pairwise fun a b => key a < key b

/-- Keys in order, repetitions allowed. -/
def Nondecreasing (l : List E) : Prop := l.Pairwise fun a b => key a ≤ key b

/-- The first entry of a key. -/
def lookup (k : K) (l : List E) : Option E := l.find? fun e => decide (key e = k)

/-- Insert an entry at its place, or replace the entry that has its key. -/
def upsert (e : E) : List E → List E
  | [] => [e]
  | d :: l =>
      if key e < key d then e :: d :: l
      else if key e = key d then e :: l
      else d :: upsert e l

/-- Insert an entry behind all the entries whose key is not greater. -/
def insertUpper (e : E) : List E → List E
  | [] => [e]
  | d :: l => if key e < key d then e :: d :: l else d :: insertUpper e l

/-- The position of the first entry whose key is not less than `k`: `lower_bound`. -/
def lowerBound (k : K) (l : List E) : Nat := (l.takeWhile fun e => decide (key e < k)).length

/-- Remove every entry of a key. -/
def eraseKey (k : K) (l : List E) : List E := l.filter fun e => decide (key e ≠ k)

/-- Remove the first entry of a key. -/
def eraseFirst (k : K) (l : List E) : List E := l.eraseP fun e => decide (key e = k)

variable {key} {k q : K} {e d : E} {l : List E}

theorem Increasing.nodup_keys (h : Increasing key l) : (l.map key).Nodup :=
  (List.pairwise_map.mpr h).imp fun lt => lt.ne

theorem Increasing.nondecreasing (h : Increasing key l) : Nondecreasing key l :=
  h.imp fun lt => lt.le

/-! ### Membership -/

theorem mem_insertUpper : d ∈ insertUpper key e l ↔ d = e ∨ d ∈ l := by
  induction l with
  | nil => simp [insertUpper]
  | cons c l ih =>
      unfold insertUpper
      split
      · exact List.mem_cons
      · rw [List.mem_cons, ih, List.mem_cons]
        tauto

theorem insertUpper_perm (e : E) (l : List E) : (insertUpper key e l).Perm (e :: l) := by
  induction l with
  | nil => exact List.Perm.refl _
  | cons c l ih =>
      unfold insertUpper
      split
      · exact List.Perm.refl _
      · exact (ih.cons c).trans (List.Perm.swap e c l)

theorem mem_upsert (h : Increasing key l) :
    d ∈ upsert key e l ↔ d = e ∨ (d ∈ l ∧ key d ≠ key e) := by
  induction l with
  | nil => simp [upsert]
  | cons c l ih =>
      obtain ⟨above, rest⟩ := List.pairwise_cons.mp h
      unfold upsert
      split
      · rename_i before
        have distinct : ∀ d ∈ c :: l, key d ≠ key e := by
          intro d hd eq
          rcases List.mem_cons.mp hd with rfl | hd
          · exact before.ne eq.symm
          · exact (before.trans (above d hd)).ne eq.symm
        rw [List.mem_cons]
        exact or_congr_right ⟨fun hd => ⟨hd, distinct d hd⟩, fun hd => hd.1⟩
      · split
        · rename_i same
          have distinct : ∀ d ∈ l, key d ≠ key e := fun d hd eq =>
            (above d hd).ne (same.symm.trans eq.symm)
          rw [List.mem_cons, List.mem_cons]
          constructor
          · rintro (rfl | hd)
            · exact Or.inl rfl
            · exact Or.inr ⟨Or.inr hd, distinct d hd⟩
          · rintro (rfl | ⟨rfl | hd, ne⟩)
            · exact Or.inl rfl
            · exact absurd same.symm ne
            · exact Or.inr hd
        · rename_i different
          rw [List.mem_cons, ih rest, List.mem_cons]
          constructor
          · rintro (rfl | rfl | hd)
            · exact Or.inr ⟨Or.inl rfl, fun eq => different eq.symm⟩
            · exact Or.inl rfl
            · exact Or.inr ⟨Or.inr hd.1, hd.2⟩
          · rintro (rfl | ⟨rfl | hd, ne⟩)
            · exact Or.inr (Or.inl rfl)
            · exact Or.inl rfl
            · exact Or.inr (Or.inr ⟨hd, ne⟩)

theorem mem_eraseKey : d ∈ eraseKey key k l ↔ d ∈ l ∧ key d ≠ k := by
  simp [eraseKey]

/-- Where no key repeats, removing the first entry of a key removes all of them. -/
theorem eraseFirst_eq_eraseKey (nodup : (l.map key).Nodup) :
    eraseFirst key k l = eraseKey key k l := by
  induction l with
  | nil => rfl
  | cons c l ih =>
      obtain ⟨fresh, rest⟩ := List.nodup_cons.mp nodup
      unfold eraseFirst eraseKey at *
      by_cases here : key c = k
      · have gone : l.filter (fun e => decide (key e ≠ k)) = l := by
          refine List.filter_eq_self.mpr fun d hd => decide_eq_true fun eq => fresh ?_
          exact here.trans eq.symm ▸ List.mem_map_of_mem hd
        simp only [List.eraseP_cons, List.filter_cons, here, decide_true, ne_eq, not_true_eq_false,
          decide_false, cond_true, Bool.false_eq_true, if_false]
        exact gone.symm
      · simp only [List.eraseP_cons, List.filter_cons, here, decide_false, ne_eq, not_false_eq_true,
          decide_true, cond_false, if_true]
        rw [ih rest]

/-! ### Order -/

theorem Increasing.upsert (h : Increasing key l) : Increasing key (upsert key e l) := by
  induction l with
  | nil => exact List.pairwise_singleton _ _
  | cons c l ih =>
      obtain ⟨above, rest⟩ := List.pairwise_cons.mp h
      unfold Keyed.upsert
      split
      · rename_i before
        refine List.pairwise_cons.mpr ⟨?_, h⟩
        intro d hd
        rcases List.mem_cons.mp hd with rfl | hd
        · exact before
        · exact before.trans (above d hd)
      · split
        · rename_i same
          exact List.pairwise_cons.mpr ⟨fun d hd => same ▸ above d hd, rest⟩
        · rename_i notBefore different
          refine List.pairwise_cons.mpr ⟨?_, ih rest⟩
          intro d hd
          rcases (mem_upsert rest).mp hd with rfl | hd
          · exact lt_of_le_of_ne (not_lt.mp notBefore) fun eq => different eq.symm
          · exact above d hd.1

theorem Nondecreasing.insertUpper (h : Nondecreasing key l) :
    Nondecreasing key (insertUpper key e l) := by
  induction l with
  | nil => exact List.pairwise_singleton _ _
  | cons c l ih =>
      obtain ⟨above, rest⟩ := List.pairwise_cons.mp h
      unfold Keyed.insertUpper
      split
      · rename_i before
        refine List.pairwise_cons.mpr ⟨?_, h⟩
        intro d hd
        rcases List.mem_cons.mp hd with rfl | hd
        · exact before.le
        · exact before.le.trans (above d hd)
      · rename_i notBefore
        refine List.pairwise_cons.mpr ⟨?_, ih rest⟩
        intro d hd
        rcases mem_insertUpper.mp hd with rfl | hd
        · exact not_lt.mp notBefore
        · exact above d hd

theorem Increasing.eraseKey (h : Increasing key l) : Increasing key (eraseKey key k l) :=
  h.sublist List.filter_sublist

theorem Nondecreasing.eraseKey (h : Nondecreasing key l) : Nondecreasing key (eraseKey key k l) :=
  h.sublist List.filter_sublist

theorem Nondecreasing.eraseFirst (h : Nondecreasing key l) :
    Nondecreasing key (eraseFirst key k l) :=
  h.sublist List.eraseP_sublist

/-! ### Lookup, where no key repeats -/

theorem lookup_eq_some_iff (nodup : (l.map key).Nodup) :
    lookup key k l = some e ↔ e ∈ l ∧ key e = k := by
  induction l with
  | nil => simp [lookup]
  | cons c l ih =>
      obtain ⟨fresh, rest⟩ := List.nodup_cons.mp nodup
      unfold lookup at *
      by_cases here : key c = k
      · rw [List.find?_cons_of_pos (by simp [here]), Option.some.injEq]
        constructor
        · rintro rfl
          exact ⟨List.mem_cons_self, here⟩
        · rintro ⟨mem, eq⟩
          rcases List.mem_cons.mp mem with rfl | mem
          · rfl
          · exact absurd (here.trans eq.symm ▸ List.mem_map_of_mem mem) fresh
      · rw [List.find?_cons_of_neg (by simp [here]), ih rest, List.mem_cons]
        constructor
        · exact fun h => ⟨Or.inr h.1, h.2⟩
        · rintro ⟨rfl | mem, eq⟩
          · exact absurd eq here
          · exact ⟨mem, eq⟩

theorem lookup_isSome_iff : (lookup key k l).isSome ↔ k ∈ l.map key := by
  simp [lookup, List.find?_isSome, List.mem_map]

/-- Lists without repeated keys that hold the same entries but for those of one key
look up the same. -/
theorem lookup_congr {l' : List E} {x : Option E} (nodup : (l.map key).Nodup)
    (nodup' : (l'.map key).Nodup) (keyed : ∀ d, x = some d → key d = k)
    (mem : ∀ d, d ∈ l' ↔ x = some d ∨ (d ∈ l ∧ key d ≠ k)) :
    lookup key q l' = if k = q then x else lookup key q l := by
  ext d
  rw [lookup_eq_some_iff nodup', mem]
  by_cases here : k = q
  · subst here
    rw [if_pos rfl]
    exact ⟨fun ⟨h, eq⟩ => h.resolve_right fun h => h.2 eq, fun h => ⟨Or.inl h, keyed d h⟩⟩
  · rw [if_neg here, lookup_eq_some_iff nodup]
    constructor
    · rintro ⟨h | h, eq⟩
      · exact absurd ((keyed d h).symm.trans eq) here
      · exact ⟨h.1, eq⟩
    · rintro ⟨h, eq⟩
      exact ⟨Or.inr ⟨h, fun same => here (same.symm.trans eq)⟩, eq⟩

theorem lookup_upsert (h : Increasing key l) :
    lookup key q (upsert key e l) = if key e = q then some e else lookup key q l := by
  refine lookup_congr h.nodup_keys h.upsert.nodup_keys ?_ ?_
  · rintro d ⟨⟩
    rfl
  · intro d
    rw [mem_upsert h, Option.some.injEq, eq_comm]

theorem nodup_keys_eraseKey (nodup : (l.map key).Nodup) : ((eraseKey key k l).map key).Nodup :=
  nodup.sublist (List.filter_sublist.map key)

theorem lookup_eraseKey (nodup : (l.map key).Nodup) :
    lookup key q (eraseKey key k l) = if k = q then none else lookup key q l := by
  refine lookup_congr nodup (nodup_keys_eraseKey nodup) (fun d hd => nomatch hd) ?_
  intro d
  rw [mem_eraseKey]
  simp

/-- Some entry is removed exactly when the key is present. -/
theorem eraseKey_count_pos_iff :
    0 < l.length - (eraseKey key k l).length ↔ (lookup key k l).isSome := by
  rw [lookup_isSome_iff, Nat.sub_pos_iff_lt, eraseKey, List.length_filter_lt_length_iff_exists,
    List.mem_map]
  simp

/-- The flag of an erasure: whether a lookup finds something, whatever it returns of it. -/
theorem decide_eraseKey_count {B : Type*} (f : E → B) :
    decide (l.length - (eraseKey key k l).length > 0) = ((lookup key k l).map f).isSome := by
  rw [Bool.eq_iff_iff, decide_eq_true_iff, Option.isSome_map]
  exact eraseKey_count_pos_iff

/-- For entries that are pairs: the value looked up is the one paired with the key. -/
theorem lookup_snd_eq_some_iff {V : Type*} {l : List (K × V)} {v : V}
    (nodup : (l.map Prod.fst).Nodup) :
    (lookup Prod.fst k l).map Prod.snd = some v ↔ (k, v) ∈ l := by
  rw [Option.map_eq_some_iff]
  constructor
  · rintro ⟨⟨_, _⟩, found, rfl⟩
    obtain ⟨mem, rfl⟩ := (lookup_eq_some_iff nodup).mp found
    exact mem
  · intro mem
    exact ⟨(k, v), (lookup_eq_some_iff nodup).mpr ⟨mem, rfl⟩, rfl⟩

/-- Inserting an entry whose key is absent. -/
theorem nodup_keys_insertUpper (nodup : (l.map key).Nodup) (absent : ∀ d ∈ l, key d ≠ key e) :
    ((insertUpper key e l).map key).Nodup := by
  rw [((insertUpper_perm e l).map key).nodup_iff, List.map_cons, List.nodup_cons]
  refine ⟨?_, nodup⟩
  intro mem
  obtain ⟨d, hd, eq⟩ := List.mem_map.mp mem
  exact absent d hd eq

/-! ### Ranges of an ordered list -/

theorem drop_lowerBound (h : Nondecreasing key l) :
    l.drop (lowerBound key k l) = l.filter fun e => decide (k ≤ key e) := by
  induction l with
  | nil => rfl
  | cons c l ih =>
      obtain ⟨above, rest⟩ := List.pairwise_cons.mp h
      unfold lowerBound at *
      rw [List.takeWhile_cons]
      split
      · rename_i before
        have below : ¬ decide (k ≤ key c) = true := by simpa using before
        rw [List.length_cons, List.drop_succ_cons, List.filter_cons, if_neg below, ih rest]
      · rename_i notBefore
        have start : k ≤ key c := by simpa using notBefore
        have all : ∀ e ∈ c :: l, decide (k ≤ key e) = true := by
          intro e he
          rcases List.mem_cons.mp he with rfl | he
          · exact decide_eq_true start
          · exact decide_eq_true (start.trans (above e he))
        rw [List.filter_eq_self.mpr all]
        rfl

theorem lowerBound_le (key : E → K) (k : K) (l : List E) : lowerBound key k l ≤ l.length :=
  (List.takeWhile_sublist _).length_le

/-- The entries before the lower bound are the smaller ones. -/
theorem lt_of_lt_lowerBound {i : Nat} (h : i < lowerBound key k l) (e : E)
    (at_i : l[i]? = some e) : key e < k := by
  have inside : (l.takeWhile fun e => decide (key e < k))[i]? = some e := by
    obtain ⟨tail, split⟩ := List.takeWhile_prefix (fun e => decide (key e < k)) (l := l)
    rw [← at_i]
    conv_rhs => rw [← split]
    exact (List.getElem?_append_left h).symm
  exact of_decide_eq_true
    (List.mem_takeWhile_imp (p := fun e => decide (key e < k)) (List.mem_of_getElem? inside))

theorem takeWhile_le_eq_filter (h : Nondecreasing key l) :
    l.takeWhile (fun e => decide (key e ≤ k)) = l.filter fun e => decide (key e ≤ k) := by
  induction l with
  | nil => rfl
  | cons c l ih =>
      obtain ⟨above, rest⟩ := List.pairwise_cons.mp h
      rw [List.takeWhile_cons]
      split
      · rename_i within
        rw [List.filter_cons, if_pos within, ih rest]
      · rename_i beyond
        have above : ∀ e ∈ c :: l, ¬ decide (key e ≤ k) = true := by
          intro e he le
          rcases List.mem_cons.mp he with rfl | he
          · exact beyond le
          · exact beyond (decide_eq_true ((above e he).trans (of_decide_eq_true le)))
        rw [List.filter_eq_nil_iff.mpr above]

theorem takeWhile_congr {p r : E → Bool} (same : ∀ e ∈ l, p e = r e) :
    l.takeWhile p = l.takeWhile r := by
  induction l with
  | nil => rfl
  | cons c l ih =>
      rw [List.takeWhile_cons, List.takeWhile_cons, same c List.mem_cons_self,
        ih fun e he => same e (List.mem_cons_of_mem _ he)]

/-- The entries from the lower bound of `a` up to `b` are those between the two. -/
theorem takeWhile_drop_lowerBound {a b : K} (h : Nondecreasing key l) :
    (l.drop (lowerBound key a l)).takeWhile (fun e => decide (key e ≤ b)) =
      l.filter fun e => decide (a ≤ key e) && decide (key e ≤ b) := by
  rw [drop_lowerBound h, takeWhile_le_eq_filter (h.sublist List.filter_sublist),
    List.filter_filter]
  exact List.filter_congr fun e _ => Bool.and_comm _ _

/-! ### Scans with an iterator

An iterator is a position; `end()` is the length of the list. To dereference `end()`
is `none`, and so is a loop that does not come to an end. -/

/-- From the iterator on, the entries before `end()` or the first one that stops the loop. -/
def collectFrom (stops : E → Bool) (l : List E) : Nat → Nat → Option (List E)
  | 0, _ => none
  | rounds + 1, it =>
      if it = l.length then some []
      else do
        let e ← l[it]?
        if stops e then return []
        let rest ← collectFrom stops l rounds (it + 1)
        return e :: rest

/-- Unless at `begin()`, one step back to an entry where the iterator stays, or from which
it returns. -/
def stepBack (stays : E → Bool) (l : List E) : Nat → Option Nat
  | 0 => some 0
  | it + 1 => l[it]?.map fun e => if stays e then it else it + 1

/-- The entries collected from a lower bound, which may be `end()`. -/
def scanFrom (stays stops : E → Bool) (l : List E) (bound : Nat) : Option (List E) :=
  if bound = l.length then some []
  else (stepBack stays l bound).bind (collectFrom stops l (l.length + 1))

theorem collectFrom_eq {stops : E → Bool} {rounds it : Nat} (inside : it ≤ l.length)
    (enough : l.length < it + rounds) :
    collectFrom stops l rounds it = some ((l.drop it).takeWhile fun e => !stops e) := by
  induction rounds generalizing it with
  | zero => omega
  | succ rounds ih =>
      unfold collectFrom
      split
      · rename_i atEnd
        rw [atEnd, List.drop_length]
        rfl
      · have here : it < l.length := by omega
        rw [List.getElem?_eq_getElem here, List.drop_eq_getElem_cons here, List.takeWhile_cons]
        simp only [Option.bind_eq_bind, Option.bind_some, Option.pure_def]
        cases stops l[it]
        · rw [ih here (by omega)]
          rfl
        · rfl

/-- A scan from inside the list starts at the lower bound or at the entry before it. -/
theorem scanFrom_eq (stays stops : E → Bool) {bound : Nat} (inside : bound < l.length) :
    ∃ it ≤ bound, stepBack stays l bound = some it ∧
      scanFrom stays stops l bound = some ((l.drop it).takeWhile fun e => !stops e) := by
  have stepped : ∃ it ≤ bound, stepBack stays l bound = some it := by
    cases bound with
    | zero => exact ⟨0, Nat.le_refl 0, rfl⟩
    | succ it =>
        have here : it < l.length := by omega
        simp only [stepBack, List.getElem?_eq_getElem here, Option.map_some]
        split
        · exact ⟨it, Nat.le_succ it, rfl⟩
        · exact ⟨it + 1, Nat.le_refl _, rfl⟩
  obtain ⟨it, before, stepped⟩ := stepped
  refine ⟨it, before, stepped, ?_⟩
  rw [scanFrom, if_neg (Nat.ne_of_lt inside), stepped, Option.bind_some]
  exact collectFrom_eq (by omega) (by omega)

/-- Where the iterator stays on no entry that is smaller than the key, the scan is from the
lower bound. -/
theorem scanFrom_lowerBound {stays stops : E → Bool}
    (returns : ∀ e ∈ l, key e < k → stays e = false) :
    scanFrom stays stops l (lowerBound key k l) =
      some ((l.drop (lowerBound key k l)).takeWhile fun e => !stops e) := by
  rcases Nat.eq_or_lt_of_le (lowerBound_le key k l) with atEnd | inside
  · rw [scanFrom, if_pos atEnd, atEnd, List.drop_length]
    rfl
  · obtain ⟨it, -, stepped, scanned⟩ := scanFrom_eq stays stops inside
    have start : it = lowerBound key k l := by
      cases bound : lowerBound key k l with
      | zero =>
          rw [bound] at stepped
          exact (Option.some.inj stepped).symm
      | succ previous =>
          have here : previous < l.length := by omega
          have smaller : key l[previous] < k :=
            lt_of_lt_lowerBound (by omega) _ (List.getElem?_eq_getElem here)
          rw [bound, stepBack, List.getElem?_eq_getElem here, Option.map_some,
            returns _ (List.getElem_mem here) smaller] at stepped
          exact (Option.some.inj stepped).symm
    rw [scanned, start]

end Hcl.Lib.Keyed
