import Mathlib.Data.List.Find
import Mathlib.Data.Option.Basic
import Hcl.Lib.Runs
import Hcl.BlockMap.Walks

/-!
The block map refines a finite map whose first write wins.

`Inv` is the representation invariant: every bucket is a well-formed `Bucket` behind its
sentinel and holds only keys of its index, no two buckets share a node, and the pool
hands out none of their nodes. `view` reads the map off the table. Each operation has
one lemma that gives its answer and its effect on `view`; `refines_iff` assembles them over
whole runs. A run gets to its end only where the memory that `malloc` returned for the table
is large enough and has a free mutex for the bucket of every key that is used.
-/

namespace Hcl.BlockMap

open Hcl.Lib

variable {K V A : Type}

/-! ### The represented map -/

/-- The sentinel of a bucket and the nodes behind it. -/
def block (b : BlockMap K V) (body : UInt64 → List Nat) (pos : UInt64) : List Nat :=
  (b.table pos).head :: body pos

/-- The addresses the table uses. -/
def Used (b : BlockMap K V) (body : UInt64 → List Nat) (a : Nat) : Prop :=
  ∃ pos, pos < b.maxSize ∧ a ∈ b.block body pos

/-- The representation invariant, with the nodes of each bucket. -/
structure Inv (ops : KeyOps K) (b : BlockMap K V) (body : UInt64 → List Nat) : Prop where
  size : 0 < b.maxSize
  pool : b.pl.Inv (b.Used body)
  apart : ∀ pos pos', pos < b.maxSize → pos' < b.maxSize → ∀ a, a ∈ b.block body pos →
    a ∈ b.block body pos' → pos = pos'
  bucket : ∀ pos, pos < b.maxSize → Bucket ops b.pl (b.first pos) (body pos)
  sentinel : ∀ pos, pos < b.maxSize → (b.table pos).head ∉ body pos
  placed : ∀ pos, pos < b.maxSize → ∀ a ∈ body pos, b.keyToIndex ops (b.pl.memory a).key = pos

/-- What the nodes of a bucket store for a key. -/
def stored (ops : KeyOps K) (pl : MemoryPool K V) (l : List Nat) (k : K) : Option V :=
  (l.find? (hasKey ops pl k)).map fun a => (pl.memory a).value

/-- What the table stores for a key, read through `scan`. -/
def view (ops : KeyOps K) (b : BlockMap K V) (k : K) : Option V :=
  match scan ops (fun n pl _ => (pl, some (pl.memory n).value)) k b.pl.mallocNext
    (b.first (b.keyToIndex ops k)) b.pl false none with
  | some (_, _, value) => value
  | none => none

section Invariant

variable {ops : KeyOps K} {b : BlockMap K V} {body : UInt64 → List Nat}

theorem Inv.index_lt (inv : Inv ops b body) (k : K) : b.keyToIndex ops k < b.maxSize :=
  UInt64.mod_lt _ inv.size

/-- A node of one bucket is not a node of another. -/
theorem Inv.ne_of_mem (inv : Inv ops b body) {q pos : UInt64} {a r : Nat} (hq : q < b.maxSize)
    (inside : pos < b.maxSize) (other : q ≠ pos) (ha : a ∈ b.block body q)
    (hr : r ∈ b.block body pos) : a ≠ r := by
  rintro rfl
  exact other (inv.apart q pos hq inside a ha hr)

/-- An index is below the table size, so it is never the value that means absent. -/
theorem Inv.index_ne_notInTable (inv : Inv ops b body) (k : K) :
    b.keyToIndex ops k ≠ notInTable := by
  intro eq
  have below := UInt64.lt_iff_toNat_lt.mp (inv.index_lt k)
  have bound := b.maxSize.toNat_lt
  have top : notInTable.toNat = 18446744073709551615 := rfl
  rw [eq, top] at below
  omega

theorem Inv.used_of_mem (_ : Inv ops b body) {pos : UInt64} (inside : pos < b.maxSize) {a : Nat}
    (mem : a ∈ body pos) : b.Used body a :=
  ⟨pos, inside, List.mem_cons_of_mem _ mem⟩

/-- There are not more nodes in a bucket than were allocated. -/
theorem Inv.length_le (inv : Inv ops b body) {pos : UInt64} (inside : pos < b.maxSize) :
    (body pos).length ≤ b.pl.mallocNext :=
  (inv.bucket pos inside).chain.length_le fun a mem =>
    inv.pool.used_lt a (inv.used_of_mem inside mem)

theorem Inv.view_eq (inv : Inv ops b body) (k : K) :
    b.view ops k = stored ops b.pl (body (b.keyToIndex ops k)) k := by
  have inside := inv.index_lt k
  have keeps : KeepsShape fun n (pl : MemoryPool K V) (_ : Option V) =>
      (pl, some (pl.memory n).value) := fun _ _ _ _ => ⟨rfl, rfl⟩
  rw [view, scan_spec keeps (inv.bucket _ inside) (inv.length_le inside), stored]
  cases (body (b.keyToIndex ops k)).find? (hasKey ops b.pl k) <;> rfl

/-- Where the nodes in use stay, the table stays. -/
theorem Inv.congr {b' : BlockMap K V} (inv : Inv ops b body) (size : b'.maxSize = b.maxSize)
    (heads : ∀ q, (b'.table q).head = (b.table q).head) (pool : b'.pl.Inv (b.Used body))
    (kept : ∀ a, b.Used body a → b'.pl.memory a = b.pl.memory a) : Inv ops b' body := by
  have blocks : b'.block body = b.block body := funext fun q => by rw [block, heads, block]
  have used : b'.Used body = b.Used body := by
    unfold Used
    rw [size, blocks]
  have index : ∀ k, b'.keyToIndex ops k = b.keyToIndex ops k := fun k => by
    rw [keyToIndex, size, keyToIndex]
  constructor
  · rw [size]
    exact inv.size
  · rw [used]
    exact pool
  · rw [size, blocks]
    exact inv.apart
  · rw [size]
    intro q hq
    have mine : ∀ a ∈ body q, b'.pl.memory a = b.pl.memory a := fun a ha =>
      kept a (inv.used_of_mem hq ha)
    have first : b'.first q = b.first q := by
      rw [BlockMap.first, heads, kept _ ⟨q, hq, List.mem_cons_self⟩, BlockMap.first]
    rw [first]
    exact (inv.bucket q hq).congr (fun a ha => by rw [mine a ha]) fun a ha => by rw [mine a ha]
  · rw [size]
    intro q hq
    rw [heads]
    exact inv.sentinel q hq
  · rw [size]
    intro q hq a ha
    rw [index, kept a (inv.used_of_mem hq ha)]
    exact inv.placed q hq a ha

end Invariant

/-! ### Changing what a bucket stores -/

section Stored

variable {ops : KeyOps K} {pl pl' : MemoryPool K V} {l l' : List Nat} {k q : K}

/-- Where the nodes of a list stay, what they store stays. -/
theorem stored_congr (kept : ∀ a ∈ l, pl'.memory a = pl.memory a) :
    stored ops pl' l q = stored ops pl l q := by
  have found : l.find? (hasKey ops pl' q) = l.find? (hasKey ops pl q) :=
    List.find?_congr fun a ha => by rw [hasKey, kept a ha, hasKey]
  unfold stored
  rw [found]
  cases first : l.find? (hasKey ops pl q) with
  | none => rfl
  | some a => rw [Option.map_some, kept a (List.mem_of_find?_eq_some first), Option.map_some]

/-- Some node of the list holds the key `c` and the value `w`. -/
def Entry (pl : MemoryPool K V) (l : List Nat) (c : K) (w : V) : Prop :=
  ∃ a ∈ l, (pl.memory a).key = c ∧ (pl.memory a).value = w

/-- No two nodes have one key. -/
theorem eq_of_hasKey
    (distinct : l.Pairwise fun a b => ¬ ops.equal (pl.memory a).key (pl.memory b).key) {a b : Nat}
    (ha : a ∈ l) (hb : b ∈ l) (hasA : hasKey ops pl q a) (hasB : hasKey ops pl q b) : a = b := by
  have : Std.Symm fun a b => ¬ ops.equal (pl.memory a).key (pl.memory b).key :=
    ⟨fun _ _ ne eq => ne (ops.symm eq)⟩
  by_contra other
  exact distinct.forall ha hb other (ops.trans hasA (ops.symm hasB))

theorem stored_eq_some_iff
    (distinct : l.Pairwise fun a b => ¬ ops.equal (pl.memory a).key (pl.memory b).key) {w : V} :
    stored ops pl l q = some w ↔ ∃ c, ops.equal c q ∧ Entry pl l c w := by
  unfold stored
  constructor
  · intro found
    obtain ⟨a, first, value⟩ := Option.map_eq_some_iff.mp found
    have same : hasKey ops pl q a := List.find?_some first
    exact ⟨_, same, a, List.mem_of_find?_eq_some first, rfl, value⟩
  · rintro ⟨_, same, a, mem, rfl, rfl⟩
    have isSome : (l.find? (hasKey ops pl q)).isSome := List.find?_isSome.mpr ⟨a, mem, same⟩
    obtain ⟨a', first⟩ := Option.isSome_iff_exists.mp isSome
    have also : hasKey ops pl q a' := List.find?_some first
    rw [first, eq_of_hasKey distinct (List.mem_of_find?_eq_some first) mem also same]
    rfl

/-- A write to one key: the entries of other keys stay, and the entry of the key
becomes `x`. -/
theorem stored_write {x : Option V}
    (distinct : l.Pairwise fun a b => ¬ ops.equal (pl.memory a).key (pl.memory b).key)
    (distinct' : l'.Pairwise fun a b => ¬ ops.equal (pl'.memory a).key (pl'.memory b).key)
    (others : ∀ c w, ¬ ops.equal c k → (Entry pl' l' c w ↔ Entry pl l c w))
    (written : ∀ w, x = some w ↔ ∃ c, ops.equal c k ∧ Entry pl' l' c w) :
    stored ops pl' l' q = if ops.equal k q then x else stored ops pl l q := by
  ext w
  rw [stored_eq_some_iff distinct']
  split
  · rename_i same
    rw [written]
    exact ⟨fun ⟨c, eq, entry⟩ => ⟨c, ops.trans eq (ops.symm same), entry⟩,
      fun ⟨c, eq, entry⟩ => ⟨c, ops.trans eq same, entry⟩⟩
  · rename_i different
    rw [stored_eq_some_iff distinct]
    have apart : ∀ {c}, ops.equal c q → ¬ ops.equal c k := fun eq eq' =>
      different (ops.trans (ops.symm eq') eq)
    exact ⟨fun ⟨c, eq, entry⟩ => ⟨c, eq, (others c w (apart eq)).mp entry⟩,
      fun ⟨c, eq, entry⟩ => ⟨c, eq, (others c w (apart eq)).mpr entry⟩⟩

end Stored

section Write

variable {ops : KeyOps K} {b b' : BlockMap K V} {body : UInt64 → List Nat} {k : K} {pos : UInt64}
  {l' : List Nat} {x : Option V}

/-- The rule for an operation on the key `k`, which works on the bucket `pos` of that
key: it leaves the nodes of the other buckets, the nodes of its own bucket come from
there or from the pool, and what they store changes to `x` at `k`. Then so does the
represented map. -/
theorem Inv.write (inv : Inv ops b body) (home : b.keyToIndex ops k = pos)
    (size : b'.maxSize = b.maxSize) (heads : ∀ q, (b'.table q).head = (b.table q).head)
    (pool : b'.pl.Inv (b'.Used (Function.update body pos l')))
    (frame : ∀ q, q < b.maxSize → q ≠ pos → ∀ a ∈ b.block body q, b'.pl.memory a = b.pl.memory a)
    (nodes : ∀ a ∈ l', a ∈ body pos ∨ ¬ b.Used body a)
    (bucket : Bucket ops b'.pl (b'.first pos) l') (sentinel : (b.table pos).head ∉ l')
    (placed : ∀ a ∈ l', b.keyToIndex ops (b'.pl.memory a).key = pos)
    (others : ∀ c w, ¬ ops.equal c k → (Entry b'.pl l' c w ↔ Entry b.pl (body pos) c w))
    (written : ∀ w, x = some w ↔ ∃ c, ops.equal c k ∧ Entry b'.pl l' c w) :
    Inv ops b' (Function.update body pos l') ∧
      ∀ q, b'.view ops q = if ops.equal k q then x else b.view ops q := by
  have inside : pos < b.maxSize := home ▸ inv.index_lt k
  have index : ∀ q, b'.keyToIndex ops q = b.keyToIndex ops q := fun q => by
    rw [keyToIndex, size, keyToIndex]
  have same : ∀ q, q ≠ pos → Function.update body pos l' q = body q := fun q other =>
    Function.update_of_ne other _ _
  have here : Function.update body pos l' pos = l' := Function.update_self _ _ _
  have first : ∀ q, q < b.maxSize → q ≠ pos → b'.first q = b.first q := fun q hq other => by
    rw [BlockMap.first, heads, frame q hq other _ List.mem_cons_self, BlockMap.first]
  -- A node of the changed bucket is in no other bucket.
  have foreign : ∀ q, q < b.maxSize → q ≠ pos → ∀ a ∈ (b.table pos).head :: l',
      a ∉ b.block body q := by
    intro q hq other a ha mem
    rcases List.mem_cons.mp ha with rfl | ha
    · exact other (inv.apart q pos hq inside _ mem List.mem_cons_self)
    · rcases nodes a ha with old | fresh
      · exact other (inv.apart q pos hq inside a mem (List.mem_cons_of_mem _ old))
      · exact fresh ⟨q, hq, mem⟩
  have blocks : ∀ q, q ≠ pos → b'.block (Function.update body pos l') q = b.block body q :=
    fun q other => by rw [block, heads, same q other, block]
  have changed : b'.block (Function.update body pos l') pos = (b.table pos).head :: l' := by
    rw [block, heads, here]
  have inv' : Inv ops b' (Function.update body pos l') := by
    refine ⟨size ▸ inv.size, pool, ?_, ?_, ?_, ?_⟩
    · rw [size]
      intro q q' hq hq' a mem mem'
      by_cases left : q = pos
      · by_cases right : q' = pos
        · rw [left, right]
        · rw [blocks q' right] at mem'
          rw [left, changed] at mem
          exact absurd mem' (foreign q' hq' right a mem)
      · rw [blocks q left] at mem
        by_cases right : q' = pos
        · rw [right, changed] at mem'
          exact absurd mem (foreign q hq left a mem')
        · rw [blocks q' right] at mem'
          exact inv.apart q q' hq hq' a mem mem'
    · rw [size]
      intro q hq
      by_cases eq : q = pos
      · subst eq
        rwa [here]
      · rw [same q eq, first q hq eq]
        exact (inv.bucket q hq).congr
          (fun a ha => by rw [frame q hq eq a (List.mem_cons_of_mem _ ha)])
          fun a ha => by rw [frame q hq eq a (List.mem_cons_of_mem _ ha)]
    · rw [size]
      intro q hq
      rw [heads]
      by_cases eq : q = pos
      · subst eq
        rwa [here]
      · rw [same q eq]
        exact inv.sentinel q hq
    · rw [size]
      intro q hq a ha
      rw [index]
      by_cases eq : q = pos
      · subst eq
        rw [here] at ha
        exact placed a ha
      · rw [same q eq] at ha
        rw [frame q hq eq a (List.mem_cons_of_mem _ ha)]
        exact inv.placed q hq a ha
  refine ⟨inv', ?_⟩
  intro q
  rw [inv'.view_eq, index, inv.view_eq]
  by_cases eq : b.keyToIndex ops q = pos
  · rw [eq, here]
    exact stored_write (inv.bucket pos inside).distinct bucket.distinct others written
  · have different : ¬ ops.equal k q := fun same => eq (by
      rw [← home, keyToIndex, ← ops.hash_eq same, keyToIndex])
    rw [same _ eq, if_neg different]
    exact stored_congr fun a ha => frame _ (inv.index_lt q) eq a (List.mem_cons_of_mem _ ha)

end Write

/-! ### The operations -/

section Operations

variable {ops : KeyOps K} {b : BlockMap K V} {body : UInt64 → List Nat}

/-- `find` answers the bucket of the key if the table has it and changes nothing. -/
theorem Inv.find_spec (inv : Inv ops b body) {k : K} (free : b.Free ops k) :
    b.find ops k = some (b, if (b.view ops k).isSome then b.keyToIndex ops k else notInTable) := by
  have inside := inv.index_lt k
  have keeps : KeepsShape fun (_ : Nat) (pl : MemoryPool K V) (s : Unit) => (pl, s) :=
    fun _ _ _ _ => ⟨rfl, rfl⟩
  simp only [find, free.lock, Option.bind_eq_bind, Option.bind_some]
  rw [scan_spec keeps (inv.bucket _ inside) (inv.length_le inside), inv.view_eq, stored,
    Option.isSome_map]
  cases (body (b.keyToIndex ops k)).find? (hasKey ops b.pl k) <;> rfl

/-- The scan of `update` and `update_field`: the function is applied once to the value
of the key, if the table has it. -/
theorem Inv.scan_value {S : Type} (inv : Inv ops b body) (k : K) (fn : V → S → V × S) (s : S) :
    ∃ pl', scan ops
        (fun n pl s => (pl.setValue n (fn (pl.memory n).value s).1, (fn (pl.memory n).value s).2)) k
        b.pl.mallocNext (b.first (b.keyToIndex ops k)) b.pl false s =
          some (pl', (b.view ops k).isSome,
            match b.view ops k with | some v => (fn v s).2 | none => s) ∧
      Inv ops { b with pl := pl' } body ∧
      ∀ q, view ops { b with pl := pl' } q =
        match b.view ops k with
        | some v => if ops.equal k q then some (fn v s).1 else b.view ops q
        | none => b.view ops q := by
  have inside := inv.index_lt k
  have bucket := inv.bucket _ inside
  have keeps : KeepsShape fun n (pl : MemoryPool K V) (s : S) =>
      (pl.setValue n (fn (pl.memory n).value s).1, (fn (pl.memory n).value s).2) :=
    fun _ _ _ _ => ⟨by simp, by simp⟩
  rw [scan_spec keeps bucket (inv.length_le inside)]
  have read := inv.view_eq k
  unfold stored at read
  cases found : (body (b.keyToIndex ops k)).find? (hasKey ops b.pl k) with
  | none =>
      rw [found, Option.map_none] at read
      rw [read]
      exact ⟨b.pl, rfl, inv, fun _ => rfl⟩
  | some a =>
      rw [found, Option.map_some] at read
      rw [read]
      have mem := List.mem_of_find?_eq_some found
      have has : hasKey ops b.pl k a := List.find?_some found
      have apart : ∀ q, q < b.maxSize → q ≠ b.keyToIndex ops k → ∀ c ∈ b.block body q, c ≠ a := by
        intro q hq other c hc
        exact inv.ne_of_mem hq inside other hc (List.mem_cons_of_mem _ mem)
      have keys : ∀ w c, ((b.pl.setValue a w).memory c).key = (b.pl.memory c).key := by simp
      have outcome : Inv ops { b with pl := b.pl.setValue a (fn (b.pl.memory a).value s).1 }
            (Function.update body (b.keyToIndex ops k) (body (b.keyToIndex ops k))) ∧
          ∀ q, view ops { b with pl := b.pl.setValue a (fn (b.pl.memory a).value s).1 } q =
            if ops.equal k q then some (fn (b.pl.memory a).value s).1 else b.view ops q := by
        refine inv.write rfl rfl (fun _ => rfl) ?_ ?_ (fun c hc => Or.inl hc) ?_
          (inv.sentinel _ inside) ?_ ?_ ?_
        · rw [Function.update_eq_self]
          exact inv.pool.setValue _ _
        · intro q hq other c hc
          exact Function.update_of_ne (apart q hq other c hc) _ _
        · have same : first { b with pl := b.pl.setValue a (fn (b.pl.memory a).value s).1 }
              (b.keyToIndex ops k) = b.first (b.keyToIndex ops k) := MemoryPool.setValue_next ..
          rw [same]
          exact bucket.congr (fun c _ => keys _ c) fun c _ => MemoryPool.setValue_next ..
        · intro c hc
          rw [keys]
          exact inv.placed _ inside c hc
        · intro c w different
          refine exists_congr fun n => and_congr_right fun hn => ?_
          rw [keys, MemoryPool.setValue_value]
          apply and_congr_right
          intro key
          rw [if_neg fun eq => different ?_]
          rw [← key, eq]
          exact has
        · intro w
          rw [Option.some.injEq]
          constructor
          · rintro rfl
            refine ⟨_, has, a, mem, keys _ a, ?_⟩
            rw [MemoryPool.setValue_value, if_pos rfl]
          · rintro ⟨c, same, n, hn, rfl, value⟩
            rw [keys] at same
            have one : n = a := eq_of_hasKey bucket.distinct hn mem same has
            rwa [MemoryPool.setValue_value, if_pos one] at value
      rw [Function.update_eq_self] at outcome
      exact ⟨_, rfl, outcome⟩

/-- `update` writes the value of a key the table has. -/
theorem Inv.update_spec (inv : Inv ops b body) {k : K} (free : b.Free ops k) (v : V) :
    ∃ b', b.update ops k v = some (b', (b.view ops k).isSome) ∧ Inv ops b' body ∧
      ∀ q, b'.view ops q =
        if (b.view ops k).isSome then if ops.equal k q then some v else b.view ops q
        else b.view ops q := by
  obtain ⟨pl', scanned, inv', read⟩ := inv.scan_value k (fun _ (s : Unit) => (v, s)) ()
  refine ⟨{ b with pl := pl' }, ?_, inv', ?_⟩
  · simp only [update, free.lock, scanned, Option.bind_eq_bind, Option.bind_some, Option.pure_def]
  · intro q
    rw [read]
    cases b.view ops k <;> rfl

/-- `update_field` applies its function to the value of a key the table has, once. -/
theorem Inv.updateField_spec (inv : Inv ops b body) {k : K} (free : b.Free ops k) (fn : V → A → V × A) (args : A) :
    ∃ b', b.updateField ops k fn args = some (b', (b.view ops k).isSome,
        match b.view ops k with | some v => (fn v args).2 | none => args) ∧ Inv ops b' body ∧
      ∀ q, b'.view ops q =
        match b.view ops k with
        | some v => if ops.equal k q then some (fn v args).1 else b.view ops q
        | none => b.view ops q := by
  obtain ⟨pl', scanned, inv', read⟩ := inv.scan_value k fn args
  refine ⟨{ b with pl := pl' }, ?_, inv', read⟩
  simp only [updateField, free.lock, scanned, Option.bind_eq_bind, Option.bind_some, Option.pure_def]

/-- The place between a sentinel and the rest of its bucket, in terms of the bucket. -/
theorem split_behind {q r : Nat} {l before right : List Nat} (split : q :: l = before ++ r :: right) :
    ∃ left, before ++ [r] = q :: left ∧ l = left ++ right := by
  cases before with
  | nil =>
      obtain ⟨rfl, rfl⟩ := List.cons.inj split
      exact ⟨[], rfl, rfl⟩
  | cons c before =>
      obtain ⟨rfl, rfl⟩ := List.cons.inj split
      exact ⟨before ++ [r], rfl, by simp⟩

/-- Counting the nodes of a bucket anew leaves every sentinel. -/
theorem head_update (table : UInt64 → FNode) (pos numNodes q : UInt64) :
    (Function.update table pos { table pos with numNodes := numNodes } q).head = (table q).head := by
  by_cases eq : q = pos
  · rw [eq, Function.update_self]
  · rw [Function.update_of_ne eq]

theorem pairwise_insert {R : Nat → Nat → Prop} {left right : List Nat} {n : Nat}
    (h : (left ++ right).Pairwise R) (before : ∀ a ∈ left, R a n) (after : ∀ a ∈ right, R n a) :
    (left ++ n :: right).Pairwise R := by
  obtain ⟨hl, hr, cross⟩ := List.pairwise_append.mp h
  refine List.pairwise_append.mpr ⟨hl, List.pairwise_cons.mpr ⟨after, hr⟩, ?_⟩
  intro a ha c hc
  rcases List.mem_cons.mp hc with rfl | hc
  · exact before a ha
  · exact cross a ha c hc

/-- The addresses in use, seen from one bucket. -/
theorem used_write {b' : BlockMap K V} (size : b'.maxSize = b.maxSize)
    (heads : ∀ q, (b'.table q).head = (b.table q).head) {pos : UInt64} (inside : pos < b.maxSize)
    (l' : List Nat) (a : Nat) :
    b'.Used (Function.update body pos l') a ↔
      (∃ q, q < b.maxSize ∧ q ≠ pos ∧ a ∈ b.block body q) ∨ a ∈ (b.table pos).head :: l' := by
  have other : ∀ q, q ≠ pos → b'.block (Function.update body pos l') q = b.block body q :=
    fun q ne => by rw [block, heads, Function.update_of_ne ne, block]
  have here : b'.block (Function.update body pos l') pos = (b.table pos).head :: l' := by
    rw [block, heads, Function.update_self]
  unfold Used
  rw [size]
  constructor
  · rintro ⟨q, hq, mem⟩
    by_cases eq : q = pos
    · rw [eq, here] at mem
      exact Or.inr mem
    · rw [other q eq] at mem
      exact Or.inl ⟨q, hq, eq, mem⟩
  · rintro (⟨q, hq, ne, mem⟩ | mem)
    · exact ⟨q, hq, by rwa [other q ne]⟩
    · exact ⟨pos, inside, by rwa [here]⟩

/-- The addresses in use before a write, seen from one bucket. -/
theorem used_iff {pos : UInt64} (inside : pos < b.maxSize) (a : Nat) :
    b.Used body a ↔
      (∃ q, q < b.maxSize ∧ q ≠ pos ∧ a ∈ b.block body q) ∨ a ∈ (b.table pos).head :: body pos := by
  have seen : b.Used (Function.update body pos (body pos)) a ↔ _ :=
    used_write rfl (fun _ => rfl) inside (body pos) a
  rwa [Function.update_eq_self] at seen

/-- The whole bucket as one chain, sentinel first. -/
theorem Inv.block_chain (inv : Inv ops b body) {pos : UInt64} (inside : pos < b.maxSize) :
    Chain (links b.pl) (some (b.table pos).head) ((b.table pos).head :: body pos) :=
  ⟨rfl, (inv.bucket pos inside).chain⟩

/-- The table stores the same for equal keys. -/
theorem Inv.view_congr (inv : Inv ops b body) {k q : K} (same : ops.equal k q) :
    b.view ops k = b.view ops q := by
  have index : b.keyToIndex ops k = b.keyToIndex ops q := by
    rw [keyToIndex, ops.hash_eq same, keyToIndex]
  have has : hasKey ops b.pl k = hasKey ops b.pl q := by
    funext a
    rw [Bool.eq_iff_iff]
    exact ⟨fun eq => ops.trans eq same, fun eq => ops.trans eq (ops.symm same)⟩
  rw [inv.view_eq, inv.view_eq, index, stored, has, stored]

theorem Inv.any_eq (inv : Inv ops b body) (k : K) :
    (body (b.keyToIndex ops k)).any (hasKey ops b.pl k) = (b.view ops k).isSome := by
  rw [inv.view_eq, stored, Option.isSome_map, List.isSome_find?]

section Insert

variable [Inhabited K] [Inhabited V]

omit [Inhabited K] [Inhabited V] in
/-- Linking a node from the pool behind `r`, which is where the loop of `insert`
stopped. -/
theorem Inv.link (inv : Inv ops b body) {k : K} (v : V) {n r : Nat} {left right before : List Nat}
    {pl' : MemoryPool K V} (popped : b.pl.Popped (b.Used body) n pl')
    (split : (b.table (b.keyToIndex ops k)).head :: body (b.keyToIndex ops k) = before ++ r :: right)
    (low : ∀ a ∈ left, ops.hash (b.pl.memory a).key ≤ ops.hash k)
    (high : ∀ a ∈ right, ops.hash (b.pl.memory a).key > ops.hash k)
    (absent : ∀ a ∈ body (b.keyToIndex ops k), ¬ ops.equal (b.pl.memory a).key k)
    (behind : before ++ [r] = (b.table (b.keyToIndex ops k)).head :: left)
    (parts : body (b.keyToIndex ops k) = left ++ right) (numNodes allocated : UInt64) :
    let b' : BlockMap K V := { b with
      allocated := allocated
      pl := (((pl'.setKey n k).setValue n v).setNext n right.head?).setNext r (some n)
      table := Function.update b.table (b.keyToIndex ops k)
        { b.table (b.keyToIndex ops k) with numNodes := numNodes } }
    Inv ops b' (Function.update body (b.keyToIndex ops k) (left ++ n :: right)) ∧
      ∀ q, b'.view ops q = if ops.equal k q then some v else b.view ops q := by
  intro b'
  have inside := inv.index_lt k
  have bucket := inv.bucket _ inside
  have fresh : ∀ a, b.Used body a → a ≠ n := fun a used eq => popped.fresh (eq ▸ used)
  have mine : ∀ a ∈ body (b.keyToIndex ops k), b.Used body a := fun a => inv.used_of_mem inside
  have key : ∀ a, (b'.pl.memory a).key = if a = n then k else (pl'.memory a).key := by
    intro a
    simp only [b', MemoryPool.setNext_key, MemoryPool.setValue_key, MemoryPool.setKey_key]
  have value : ∀ a, (b'.pl.memory a).value = if a = n then v else (pl'.memory a).value := by
    intro a
    simp only [b', MemoryPool.setNext_value, MemoryPool.setValue_value, MemoryPool.setKey_value]
  have oldKey : ∀ a ∈ body (b.keyToIndex ops k), (b'.pl.memory a).key = (b.pl.memory a).key :=
    fun a ha => by rw [key, if_neg (fresh a (mine a ha)), popped.frame a (mine a ha)]
  have oldValue : ∀ a ∈ body (b.keyToIndex ops k),
      (b'.pl.memory a).value = (b.pl.memory a).value :=
    fun a ha => by rw [value, if_neg (fresh a (mine a ha)), popped.frame a (mine a ha)]
  have linked : links b'.pl = Function.update (Function.update (links pl') n right.head?) r (some n) := by
    have base : links ((pl'.setKey n k).setValue n v) = links pl' := by
      funext a
      simp only [links, MemoryPool.setValue_next, MemoryPool.setKey_next]
    rw [← base]
    unfold links
    rw [← MemoryPool.setNext_next, ← MemoryPool.setNext_next]
  -- The pool left the bucket alone, so the two writes link `n` behind `r`.
  have whole : Chain (links pl') (some (b.table (b.keyToIndex ops k)).head) (before ++ r :: right) := by
    rw [← split]
    apply (inv.block_chain inside).congr
    intro a ha
    rw [links, popped.frame a ⟨_, inside, ha⟩, links]
  have outside : n ∉ before ++ r :: right := fun mem =>
    popped.fresh ⟨_, inside, by rwa [block, split]⟩
  have chain : Chain (links b'.pl) (b'.first (b.keyToIndex ops k)) (left ++ n :: right) := by
    have inserted := whole.insertAfter outside
    rw [whole.from_mem.start, ← linked] at inserted
    rw [show before ++ r :: n :: right = (before ++ [r]) ++ n :: right by simp, behind] at inserted
    have first : b'.first (b.keyToIndex ops k) = links b'.pl (b.table (b.keyToIndex ops k)).head := by
      simp only [BlockMap.first, b', Function.update_self, links]
    rw [first]
    exact inserted.2
  have inL : ∀ a ∈ left ++ right, a ∈ body (b.keyToIndex ops k) := fun a ha => parts ▸ ha
  have inLeft := fun a ha => inL a (List.mem_append_left right ha)
  have inRight := fun a ha => inL a (List.mem_append_right left ha)
  have newKey : (b'.pl.memory n).key = k := by rw [key, if_pos rfl]
  have bucket' : Bucket ops b'.pl (b'.first (b.keyToIndex ops k)) (left ++ n :: right) := by
    refine ⟨chain, pairwise_insert ?_ ?_ ?_, pairwise_insert ?_ ?_ ?_⟩
    · rw [← parts]
      exact bucket.sorted.imp_of_mem fun ha hc le => by rwa [oldKey _ ha, oldKey _ hc]
    · intro a ha
      rw [oldKey a (inLeft a ha), newKey]
      exact low a ha
    · intro a ha
      rw [oldKey a (inRight a ha), newKey]
      exact UInt64.le_of_lt (high a ha)
    · rw [← parts]
      exact bucket.distinct.imp_of_mem fun ha hc ne => by rwa [oldKey _ ha, oldKey _ hc]
    · intro a ha
      rw [oldKey a (inLeft a ha), newKey]
      exact absent a (inLeft a ha)
    · intro a ha
      rw [oldKey a (inRight a ha), newKey]
      exact fun eq => absent a (inRight a ha) (ops.symm eq)
  have heads : ∀ q, (b'.table q).head = (b.table q).head := head_update b.table _ numNodes
  have memNew : ∀ a, a ∈ left ++ n :: right ↔ a = n ∨ a ∈ body (b.keyToIndex ops k) := by
    intro a
    rw [parts]
    simp only [List.mem_append, List.mem_cons]
    tauto
  refine inv.write rfl rfl heads ?_ ?_ ?_ bucket' ?_ ?_ ?_ ?_
  · have used : ∀ a, b'.Used (Function.update body (b.keyToIndex ops k) (left ++ n :: right)) a ↔
        b.Used body a ∨ a = n := by
      intro a
      have size : b'.maxSize = b.maxSize := rfl
      rw [used_write size heads inside, used_iff inside, List.mem_cons, memNew, List.mem_cons,
        or_comm (a := a = n), or_assoc, or_assoc]
    exact ((((popped.inv.setKey _ _).setValue _ _).setNext _ _).setNext _ _).congr_used used
  · intro q hq other a ha
    have inUse : b.Used body a := ⟨q, hq, ha⟩
    have notR : a ≠ r := by
      refine inv.ne_of_mem hq inside other ha ?_
      rw [block, split]
      exact List.mem_append_right _ List.mem_cons_self
    have notN := fresh a inUse
    rw [← popped.frame a inUse]
    simp only [b', MemoryPool.setNext, MemoryPool.setValue, MemoryPool.setKey,
      Function.update_of_ne notR, Function.update_of_ne notN]
  · intro a ha
    rcases (memNew a).mp ha with rfl | old
    · exact Or.inr popped.fresh
    · exact Or.inl old
  · intro mem
    rcases (memNew _).mp mem with eq | old
    · exact popped.fresh ⟨_, inside, eq ▸ List.mem_cons_self⟩
    · exact inv.sentinel _ inside old
  · intro a ha
    rcases (memNew a).mp ha with rfl | old
    · rw [newKey]
    · rw [oldKey a old]
      exact inv.placed _ inside a old
  · intro c w different
    constructor
    · rintro ⟨a, ha, rfl, rfl⟩
      rcases (memNew a).mp ha with rfl | old
      · exact absurd (newKey ▸ ops.refl k) different
      · exact ⟨a, old, (oldKey a old).symm, (oldValue a old).symm⟩
    · rintro ⟨a, old, rfl, rfl⟩
      exact ⟨a, (memNew a).mpr (Or.inr old), oldKey a old, oldValue a old⟩
  · intro w
    constructor
    · rintro ⟨⟩
      refine ⟨k, ops.refl k, n, (memNew n).mpr (Or.inl rfl), newKey, ?_⟩
      rw [value, if_pos rfl]
    · rintro ⟨c, same, a, ha, rfl, rfl⟩
      rcases (memNew a).mp ha with rfl | old
      · rw [value, if_pos rfl]
      · rw [oldKey a old] at same
        exact absurd same (absent a old)

/-- `insert` adds a key the table does not have, and leaves a key it has. -/
theorem Inv.insert_spec (inv : Inv ops b body) {k : K} (free : b.Free ops k) (v : V) :
    ∃ b' body', b.insert ops k v =
        some (b', if (b.view ops k).isSome then retExists else retInserted) ∧
      Inv ops b' body' ∧
      ∀ q, b'.view ops q =
        if (b.view ops k).isSome then b.view ops q
        else if ops.equal k q then some v else b.view ops q := by
  have inside := inv.index_lt k
  obtain ⟨before, r, right, split, walked, low, high⟩ := insertWalk_spec k
    (b.table (b.keyToIndex ops k)).head false (inv.bucket _ inside) (inv.length_le inside)
  rw [Bool.false_or, inv.any_eq] at walked
  simp only [insert, free.lock, walked, Option.bind_eq_bind, Option.bind_some]
  by_cases present : (b.view ops k).isSome
  · simp only [present, if_true]
    exact ⟨b, body, rfl, inv, fun _ => rfl⟩
  · obtain ⟨n, pl', pop, popped⟩ := MemoryPool.memoryPoolPop_spec inv.pool
    obtain ⟨left, behind, parts⟩ := split_behind split
    simp only [present, Bool.false_eq_true, if_false, pop, Option.bind_some]
    have absent : ∀ a ∈ body (b.keyToIndex ops k), ¬ ops.equal (b.pl.memory a).key k := by
      rw [← inv.any_eq] at present
      exact fun a ha same => present (List.any_eq_true.mpr ⟨a, ha, same⟩)
    have lowLeft : ∀ a ∈ left, ops.hash (b.pl.memory a).key ≤ ops.hash k := by
      intro a ha
      apply (low a (behind ▸ List.mem_cons_of_mem _ ha)).resolve_left
      intro eq
      exact inv.sentinel _ inside (eq ▸ parts ▸ List.mem_append_left _ ha)
    exact ⟨_, _, rfl, inv.link v popped split lowLeft high absent behind parts _ _⟩

end Insert

/-- Unlinking the node of the key, which is behind `r`. -/
theorem Inv.detach (inv : Inv ops b body) {k : K} {n r : Nat} {left right before : List Nat}
    {pl' : MemoryPool K V}
    (split : (b.table (b.keyToIndex ops k)).head :: body (b.keyToIndex ops k) =
      before ++ r :: n :: right)
    (has : hasKey ops b.pl k n)
    (behind : before ++ [r] = (b.table (b.keyToIndex ops k)).head :: left)
    (parts : body (b.keyToIndex ops k) = left ++ n :: right)
    (memory : pl'.memory = (b.pl.setNext r (b.pl.memory n).next).memory)
    (pool : pl'.Inv fun a => b.Used body a ∧ a ≠ n) (numNodes removed : UInt64) :
    let b' : BlockMap K V := { b with
      removed := removed
      pl := pl'
      table := Function.update b.table (b.keyToIndex ops k)
        { b.table (b.keyToIndex ops k) with numNodes := numNodes } }
    Inv ops b' (Function.update body (b.keyToIndex ops k) (left ++ right)) ∧
      ∀ q, b'.view ops q = if ops.equal k q then none else b.view ops q := by
  intro b'
  have inside := inv.index_lt k
  have bucket := inv.bucket _ inside
  have key : ∀ a, (b'.pl.memory a).key = (b.pl.memory a).key := by
    intro a
    rw [memory, MemoryPool.setNext_key]
  have value : ∀ a, (b'.pl.memory a).value = (b.pl.memory a).value := by
    intro a
    rw [memory, MemoryPool.setNext_value]
  have sub : (left ++ right).Sublist (body (b.keyToIndex ops k)) := by
    rw [parts]
    exact (List.Sublist.refl left).append (List.sublist_cons_self n right)
  have nodup : (left ++ n :: right).Nodup := parts ▸ bucket.chain.nodup
  have memOld : ∀ a, a ∈ body (b.keyToIndex ops k) ↔ a = n ∨ a ∈ left ++ right := by
    intro a
    rw [parts]
    simp only [List.mem_append, List.mem_cons]
    tauto
  have gone : n ∉ left ++ right := (List.nodup_middle.mp nodup).notMem
  have mem : n ∈ body (b.keyToIndex ops k) := (memOld n).mpr (Or.inl rfl)
  have chain : Chain (links b'.pl) (b'.first (b.keyToIndex ops k)) (left ++ right) := by
    have whole := inv.block_chain inside
    rw [split] at whole
    have removed := whole.removeAfter
    have linked : links b'.pl = Function.update (links b.pl) r (links b.pl n) := by
      unfold links
      rw [memory, MemoryPool.setNext_next]
    rw [← linked, show before ++ r :: right = (before ++ [r]) ++ right by simp, behind] at removed
    have first : b'.first (b.keyToIndex ops k) = links b'.pl (b.table (b.keyToIndex ops k)).head := by
      simp only [BlockMap.first, b', Function.update_self, links]
    rw [first]
    exact removed.2
  have heads : ∀ q, (b'.table q).head = (b.table q).head := head_update b.table _ numNodes
  refine inv.write rfl rfl heads ?_ ?_ (fun a ha => Or.inl (sub.subset ha)) ?_ ?_ ?_ ?_ ?_
  · have used : ∀ a, b'.Used (Function.update body (b.keyToIndex ops k) (left ++ right)) a ↔
        b.Used body a ∧ a ≠ n := by
      intro a
      have size : b'.maxSize = b.maxSize := rfl
      rw [used_write size heads inside, used_iff inside, List.mem_cons, List.mem_cons, memOld]
      constructor
      · rintro (⟨q, hq, other, ha⟩ | rfl | ha)
        · refine ⟨Or.inl ⟨q, hq, other, ha⟩, ?_⟩
          exact inv.ne_of_mem hq inside other ha (List.mem_cons_of_mem _ mem)
        · exact ⟨Or.inr (Or.inl rfl), fun eq => inv.sentinel _ inside (eq ▸ mem)⟩
        · exact ⟨Or.inr (Or.inr (Or.inr ha)), ne_of_mem_of_not_mem ha gone⟩
      · rintro ⟨h | h | h | h, other⟩
        · exact Or.inl h
        · exact Or.inr (Or.inl h)
        · exact absurd h other
        · exact Or.inr (Or.inr h)
    exact pool.congr_used used
  · intro q hq other a ha
    have notR : a ≠ r := by
      refine inv.ne_of_mem hq inside other ha ?_
      rw [block, split]
      exact List.mem_append_right _ List.mem_cons_self
    rw [memory]
    exact Function.update_of_ne notR _ _
  · refine ⟨chain, (bucket.sorted.sublist sub).imp fun le => ?_,
      (bucket.distinct.sublist sub).imp fun ne => ?_⟩
    · rwa [key, key]
    · rwa [key, key]
  · exact fun ha => inv.sentinel _ inside (sub.subset ha)
  · intro a ha
    rw [key]
    exact inv.placed _ inside a (sub.subset ha)
  · intro c w different
    constructor
    · rintro ⟨a, ha, rfl, rfl⟩
      exact ⟨a, sub.subset ha, (key a).symm, (value a).symm⟩
    · rintro ⟨a, ha, rfl, rfl⟩
      rcases (memOld a).mp ha with rfl | ha
      · exact absurd has different
      · exact ⟨a, ha, key a, value a⟩
  · intro w
    refine ⟨fun eq => (nomatch eq), ?_⟩
    rintro ⟨c, same, a, ha, rfl, rfl⟩
    rw [key] at same
    exact absurd (eq_of_hasKey bucket.distinct (sub.subset ha) mem same has)
      (ne_of_mem_of_not_mem ha gone)

/-- Unlinking the node of the key and returning it to the pool. -/
theorem Inv.unlink (inv : Inv ops b body) {k : K} {n r : Nat} {left right before : List Nat}
    (split : (b.table (b.keyToIndex ops k)).head :: body (b.keyToIndex ops k) =
      before ++ r :: n :: right)
    (has : hasKey ops b.pl k n)
    (behind : before ++ [r] = (b.table (b.keyToIndex ops k)).head :: left)
    (parts : body (b.keyToIndex ops k) = left ++ n :: right) (numNodes removed : UInt64) :
    let b' : BlockMap K V := { b with
      removed := removed
      pl := (b.pl.setNext r (b.pl.memory n).next).memoryPoolPush n
      table := Function.update b.table (b.keyToIndex ops k)
        { b.table (b.keyToIndex ops k) with numNodes := numNodes } }
    Inv ops b' (Function.update body (b.keyToIndex ops k) (left ++ right)) ∧
      ∀ q, b'.view ops q = if ops.equal k q then none else b.view ops q := by
  have mem : n ∈ body (b.keyToIndex ops k) := by
    rw [parts]
    exact List.mem_append_right _ List.mem_cons_self
  have pool := (inv.pool.setNext r (b.pl.memory n).next).push
    (inv.used_of_mem (inv.index_lt k) mem)
  have memory : ((b.pl.setNext r (b.pl.memory n).next).memoryPoolPush n).memory =
      (b.pl.setNext r (b.pl.memory n).next).memory := rfl
  exact inv.detach split has behind parts memory pool numNodes removed

/-- `erase` removes the key. -/
theorem Inv.erase_spec (inv : Inv ops b body) {k : K} (free : b.Free ops k) :
    ∃ b' body', b.erase ops k = some (b', (b.view ops k).isSome) ∧ Inv ops b' body' ∧
      ∀ q, b'.view ops q = if ops.equal k q then none else b.view ops q := by
  have inside := inv.index_lt k
  obtain ⟨before, r, right, split, walked, outcome⟩ := eraseWalk_spec k
    (b.table (b.keyToIndex ops k)).head (inv.bucket _ inside) (inv.length_le inside)
  simp only [erase, free.lock, walked, Option.bind_eq_bind, Option.bind_some]
  rcases outcome with ⟨n, rest, rfl, has⟩ | ⟨absent, absentRight⟩
  · obtain ⟨left, behind, parts⟩ := split_behind split
    have found : (b.view ops k).isSome = true := by
      rw [← inv.any_eq]
      refine List.any_eq_true.mpr ⟨n, ?_, has⟩
      rw [parts]
      exact List.mem_append_right _ List.mem_cons_self
    have same : ops.equal (b.pl.memory n).key k = true := has
    simp only [List.head?_cons, same, if_true, found]
    exact ⟨_, _, rfl, inv.unlink split has behind parts _ _⟩
  · have missing : (b.view ops k).isSome = false := by
      rw [← inv.any_eq]
      exact List.any_eq_false.mpr fun a ha => Bool.eq_false_iff.mp (absent a ha)
    refine ⟨b, body, ?_, inv, ?_⟩
    · rw [missing]
      cases right with
      | nil => rfl
      | cons n rest =>
          have different : ops.equal (b.pl.memory n).key k = false :=
            absentRight n List.mem_cons_self
          simp only [List.head?_cons, different, Bool.false_eq_true, if_false, Option.pure_def]
    · intro q
      split
      · rename_i same
        rw [← inv.view_congr same]
        exact Option.not_isSome_iff_eq_none.mp (Bool.eq_false_iff.mp missing)
      · rfl

end Operations

/-! ### Construction -/

section Construct

variable [Inhabited K] [Inhabited V]

/-- After `i` rounds of the constructor the first `i` buckets have sentinels of their
own, and nothing else is in use. -/
structure Sentinels (b : BlockMap K V) (n : UInt64) (i : Nat) : Prop where
  size : b.maxSize = n
  pool : b.pl.Inv fun a => ∃ pos : UInt64, pos.toNat < i ∧ a = (b.table pos).head
  apart : ∀ pos pos' : UInt64, pos.toNat < i → pos'.toNat < i →
    (b.table pos).head = (b.table pos').head → pos = pos'
  alone : ∀ pos : UInt64, pos.toNat < i → b.first pos = none

theorem Sentinels.next {b : BlockMap K V} {n : UInt64} {i : Nat} (h : Sentinels b n i)
    (inside : i < n.toNat) : ∃ b', b.constructBucket i = some b' ∧ Sentinels b' n (i + 1) := by
  obtain ⟨head, pl', pop, popped⟩ := MemoryPool.memoryPoolPop_spec h.pool
  have index : (i.toUInt64).toNat = i :=
    UInt64.toNat_ofNat_of_lt' (Nat.lt_trans inside n.toNat_lt)
  have cases : ∀ {pos : UInt64}, pos.toNat < i + 1 → pos = i.toUInt64 ∨ pos.toNat < i := by
    intro pos below
    rcases Nat.lt_succ_iff_lt_or_eq.mp below with earlier | eq
    · exact Or.inr earlier
    · exact Or.inl (UInt64.toNat_inj.mp (eq.trans index.symm))
  have other : ∀ {pos : UInt64}, pos.toNat < i → pos ≠ i.toUInt64 := by
    rintro pos below rfl
    omega
  have fresh : ∀ {pos : UInt64}, pos.toNat < i → (b.table pos).head ≠ head := fun below eq =>
    popped.fresh ⟨_, below, eq.symm⟩
  let b' : BlockMap K V := { b with
    pl := (pl'.setKey head b.emptyKey).setNext head none
    table := Function.update b.table i.toUInt64
      { b.table i.toUInt64 with numNodes := 0, head := head } }
  have newHead : (b'.table i.toUInt64).head = head := by simp only [b', Function.update_self]
  have oldHead : ∀ {pos : UInt64}, pos.toNat < i → (b'.table pos).head = (b.table pos).head :=
    fun earlier => by simp only [b', Function.update_of_ne (other earlier)]
  refine ⟨b', ?_, h.size, ?_, ?_, ?_⟩
  · simp only [constructBucket, pop, Option.bind_eq_bind, Option.bind_some, Option.pure_def, b']
  · apply ((popped.inv.setKey _ _).setNext _ _).congr_used
    intro a
    constructor
    · rintro ⟨pos, below, rfl⟩
      rcases cases below with rfl | earlier
      · exact Or.inr newHead
      · exact Or.inl ⟨pos, earlier, oldHead earlier⟩
    · rintro (⟨pos, earlier, rfl⟩ | rfl)
      · exact ⟨pos, by omega, (oldHead earlier).symm⟩
      · exact ⟨i.toUInt64, by omega, newHead.symm⟩
  · intro pos pos' below below' same
    rcases cases below with rfl | earlier <;> rcases cases below' with rfl | earlier'
    · rfl
    · rw [newHead, oldHead earlier'] at same
      exact absurd same.symm (fresh earlier')
    · rw [newHead, oldHead earlier] at same
      exact absurd same (fresh earlier)
    · rw [oldHead earlier, oldHead earlier'] at same
      exact h.apart pos pos' earlier earlier' same
  · intro pos below
    rcases cases below with rfl | earlier
    · rw [BlockMap.first, newHead]
      simp only [b', MemoryPool.setNext, Function.update_self]
    · have kept := h.alone pos earlier
      rw [BlockMap.first, ← popped.frame _ ⟨pos, earlier, rfl⟩] at kept
      rw [BlockMap.first, oldHead earlier]
      simp only [b', MemoryPool.setNext, MemoryPool.setKey, Function.update_of_ne (fresh earlier)]
      exact kept

/-- The rounds of the constructor, with what else they keep. -/
theorem construct_rounds (raw : RawTable) (n : UInt64) {csize : UInt32} (chunk : 0 < csize) (maxKey : K)
    {P : Nat → BlockMap K V → Prop} (start : P 0 (unbuilt raw n (MemoryPool.new csize) maxKey))
    (next : ∀ i b b', i < n.toNat → Sentinels b n i → b.constructBucket i = some b' → P i b →
      P (i + 1) b') :
    ∃ b : BlockMap K V, (List.range n.toNat).foldlM constructBucket
        (unbuilt raw n (MemoryPool.new csize) maxKey) = some b ∧
      Sentinels b n n.toNat ∧ P n.toNat b := by
  have rounds : ∀ i, i ≤ n.toNat → ∃ b : BlockMap K V, (List.range i).foldlM constructBucket
      (unbuilt raw n (MemoryPool.new csize) maxKey) = some b ∧ Sentinels b n i ∧ P i b := by
    intro i
    induction i with
    | zero =>
        intro _
        refine ⟨_, rfl, ⟨rfl, (MemoryPool.inv_new chunk).congr_used ?_, ?_, ?_⟩, start⟩
        · intro a
          exact ⟨fun ⟨pos, below, _⟩ => absurd below (Nat.not_lt_zero _), False.elim⟩
        · exact fun _ _ below => absurd below (Nat.not_lt_zero _)
        · exact fun _ below => absurd below (Nat.not_lt_zero _)
    | succ i ih =>
        intro below
        obtain ⟨b, built, sentinels, kept⟩ := ih (Nat.le_of_succ_le below)
        obtain ⟨b', done, sentinels'⟩ := sentinels.next below
        refine ⟨b', ?_, sentinels', next i b b' below sentinels done kept⟩
        rw [List.range_succ, List.foldlM_append, built]
        simpa using done
  exact rounds n.toNat (Nat.le_refl _)

variable {raw : RawTable} {n : UInt64} {csize : UInt32} {maxKey : K} {b : BlockMap K V}

theorem new_eq_some_iff {m : MemoryPool K V} :
    new raw n m maxKey = some b ↔ 0 < n ∧ raw.Admits n ∧
      (List.range n.toNat).foldlM constructBucket (unbuilt raw n m maxKey) = some b := by
  simp only [new, Option.bind_eq_bind, Option.bind_eq_some_iff, Option.guard_eq_some', RawTable.Admits]
  constructor
  · rintro ⟨-, size, -, room, b', ran, -, below, made⟩
    cases made
    exact ⟨size, ⟨room, below⟩, ran⟩
  · rintro ⟨size, ⟨room, below⟩, ran⟩
    exact ⟨(), size, (), room, b, ran, (), below, rfl⟩

/-- **The constructor returns** exactly where its assertions hold and the memory is enough. -/
theorem exists_new_iff (raw : RawTable) (n : UInt64) (chunk : 0 < csize) (maxKey : K) :
    (∃ b : BlockMap K V, new raw n (MemoryPool.new csize) maxKey = some b) ↔ 0 < n ∧ raw.Admits n := by
  constructor
  · rintro ⟨b, built⟩
    obtain ⟨size, admits, -⟩ := new_eq_some_iff.mp built
    exact ⟨size, admits⟩
  · rintro ⟨size, admits⟩
    obtain ⟨b, ran, -⟩ := construct_rounds (V := V) raw n chunk maxKey (P := fun _ _ => True) trivial
      fun _ _ _ _ _ _ _ => trivial
    exact ⟨b, new_eq_some_iff.mpr ⟨size, admits, ran⟩⟩

/-- What the rounds of the constructor keep, the table it returns has. -/
theorem new_rounds (chunk : 0 < csize) (built : new raw n (MemoryPool.new csize) maxKey = some b)
    {P : Nat → BlockMap K V → Prop} (start : P 0 (unbuilt raw n (MemoryPool.new csize) maxKey))
    (next : ∀ i b b', i < n.toNat → Sentinels b n i → b.constructBucket i = some b' → P i b →
      P (i + 1) b') :
    Sentinels b n n.toNat ∧ P n.toNat b := by
  obtain ⟨-, -, ran⟩ := new_eq_some_iff.mp built
  obtain ⟨b', ran', kept⟩ := construct_rounds raw n chunk maxKey start next
  cases ran.symm.trans ran'
  exact kept

/-- **The constructor builds an empty table.** -/
theorem new_inv (ops : KeyOps K) (chunk : 0 < csize)
    (built : new raw n (MemoryPool.new csize) maxKey = some b) : Inv ops b fun _ => [] := by
  obtain ⟨sentinels, -⟩ := new_rounds chunk built
    (P := fun _ (_ : BlockMap K V) => True) trivial fun _ _ _ _ _ _ _ => trivial
  obtain ⟨size, -⟩ := new_eq_some_iff.mp built
  have below : ∀ {pos : UInt64}, pos < b.maxSize ↔ pos.toNat < n.toNat := by
    intro pos
    rw [sentinels.size, UInt64.lt_iff_toNat_lt]
  refine ⟨sentinels.size ▸ size, ?_, ?_, ?_, ?_, ?_⟩
  · apply sentinels.pool.congr_used
    intro a
    simp only [Used, block, List.mem_singleton, below]
  · intro pos pos' hp hp' a ha ha'
    rw [block, List.mem_singleton] at ha ha'
    exact sentinels.apart pos pos' (below.mp hp) (below.mp hp') (ha.symm.trans ha')
  · intro pos hp
    exact ⟨sentinels.alone pos (below.mp hp), List.Pairwise.nil, List.Pairwise.nil⟩
  · exact fun _ _ mem => nomatch mem
  · exact fun _ _ _ mem => nomatch mem

end Construct

/-! ### The mutexes -/

/-- The table lies in the memory that `malloc` returned: its mutexes are what was there. -/
structure LaidIn (raw : RawTable) (n : UInt64) (b : BlockMap K V) : Prop where
  size : b.maxSize = n
  mutexes : ∀ pos, (b.table pos).mutexT = raw.mutexes pos

/-- Counting the nodes of a bucket anew leaves every mutex. -/
theorem mutexT_update {table : UInt64 → FNode} {pos q : UInt64} {bucket : FNode}
    (same : bucket.mutexT = (table pos).mutexT) :
    (Function.update table pos bucket q).mutexT = (table q).mutexT := by
  by_cases eq : q = pos
  · rw [eq, Function.update_self, same]
  · rw [Function.update_of_ne eq]

section Mutexes

variable {raw : RawTable} {n : UInt64} {b b' : BlockMap K V} {ops : KeyOps K}

theorem LaidIn.free_iff (laid : LaidIn raw n b) (k : K) :
    b.Free ops k ↔ raw.mutexes (ops.hash k % n) = .unlocked := by
  rw [Free, keyToIndex, laid.mutexes, laid.size]

theorem LaidIn.congr (laid : LaidIn raw n b) (size : b'.maxSize = b.maxSize)
    (mutexes : ∀ pos, (b'.table pos).mutexT = (b.table pos).mutexT) : LaidIn raw n b' := by
  refine ⟨size.trans laid.size, fun pos => ?_⟩
  rw [mutexes, laid.mutexes]

variable [Inhabited K] [Inhabited V]

/-- The constructor constructs no mutex. -/
theorem new_laidIn {csize : UInt32} {maxKey : K} (chunk : 0 < csize)
    (built : new raw n (MemoryPool.new csize) maxKey = some b) : LaidIn raw n b := by
  refine (new_rounds chunk built (P := fun _ b => LaidIn raw n b) ⟨rfl, fun _ => rfl⟩ ?_).2
  intro i b b' _ _ done laid
  simp only [constructBucket, Option.bind_eq_bind, Option.bind_eq_some_iff] at done
  obtain ⟨out, -, done⟩ := done
  cases done
  refine laid.congr ?_ ?_
  · rfl
  · exact fun pos => mutexT_update rfl

/-- **An operation that returns has found the mutex of its bucket free**, and leaves every mutex
as it was. -/
theorem step_mutexes {op : Op K V A} {answer : Answer A} (done : step ops b op = some (b', answer)) :
    b.Free ops op.key ∧ b'.maxSize = b.maxSize ∧
      ∀ pos, (b'.table pos).mutexT = (b.table pos).mutexT := by
  cases op with
  | insert k v =>
      simp only [BlockMap.step, Option.bind_eq_bind, Option.bind_eq_some_iff] at done
      obtain ⟨_, made, done⟩ := done
      cases done
      refine ⟨insert_free ops made, ?_⟩
      simp only [insert, Option.bind_eq_bind, Option.bind_eq_some_iff] at made
      obtain ⟨-, -, ⟨p, q, found⟩, -, made⟩ := made
      cases found with
      | true =>
          cases made
          exact ⟨rfl, fun _ => rfl⟩
      | false =>
          simp only [Bool.false_eq_true, if_false, Option.bind_eq_some_iff] at made
          obtain ⟨out, -, made⟩ := made
          cases made
          exact ⟨rfl, fun _ => mutexT_update rfl⟩
  | find k =>
      simp only [BlockMap.step, find, Option.bind_eq_bind, Option.bind_eq_some_iff] at done
      obtain ⟨_, ⟨_, locked, out, -, made⟩, done⟩ := done
      cases made
      cases done
      exact ⟨lock_eq_some_iff.mp locked, rfl, fun _ => rfl⟩
  | update k v =>
      simp only [BlockMap.step, update, Option.bind_eq_bind, Option.bind_eq_some_iff] at done
      obtain ⟨_, ⟨_, locked, out, -, made⟩, done⟩ := done
      cases made
      cases done
      exact ⟨lock_eq_some_iff.mp locked, rfl, fun _ => rfl⟩
  | updateField k fn args =>
      simp only [BlockMap.step, updateField, Option.bind_eq_bind, Option.bind_eq_some_iff] at done
      obtain ⟨_, ⟨_, locked, out, -, made⟩, done⟩ := done
      cases made
      cases done
      exact ⟨lock_eq_some_iff.mp locked, rfl, fun _ => rfl⟩
  | erase k =>
      simp only [BlockMap.step, Option.bind_eq_bind, Option.bind_eq_some_iff] at done
      obtain ⟨_, made, done⟩ := done
      cases done
      refine ⟨erase_free ops made, ?_⟩
      simp only [erase, Option.bind_eq_bind, Option.bind_eq_some_iff] at made
      obtain ⟨-, -, ⟨p, q⟩, -, made⟩ := made
      cases q with
      | none =>
          cases made
          exact ⟨rfl, fun _ => rfl⟩
      | some q =>
          simp only at made
          split at made
          · cases made
            exact ⟨rfl, fun _ => mutexT_update rfl⟩
          · cases made
            exact ⟨rfl, fun _ => rfl⟩

theorem LaidIn.step (laid : LaidIn raw n b) {op : Op K V A} {answer : Answer A}
    (done : step ops b op = some (b', answer)) :
    raw.mutexes (ops.hash op.key % n) = .unlocked ∧ LaidIn raw n b' := by
  obtain ⟨free, size, mutexes⟩ := step_mutexes done
  exact ⟨(laid.free_iff op.key).mp free, laid.congr size mutexes⟩

/-- A run of operations that gets to its end has found every mutex it came to free. -/
theorem LaidIn.answered (laid : LaidIn raw n b) {calls : List (Op K V A)} {out}
    (ran : answers? (BlockMap.step ops) b calls = some out) :
    ∀ op ∈ calls, raw.mutexes (ops.hash op.key % n) = .unlocked := by
  exact forall_of_answers? (P := LaidIn raw n) (fun b op out laid done => laid.step done) laid ran

end Mutexes

/-! ### The abstract map -/

/-- A finite map whose keys are taken up to `equal`: first write wins. -/
def Spec (ops : KeyOps K) (m : K → Option V) : Op K V A → Answer A → (K → Option V) → Prop
  | .insert k v => fun a m' =>
      a = .insert (if (m k).isSome then retExists else retInserted) ∧
      m' = if (m k).isSome then m else fun q => if ops.equal k q then some v else m q
  | .find k => fun a m' =>
      m' = m ∧ ∃ pos, a = .find pos ∧ (pos ≠ notInTable ↔ (m k).isSome)
  | .update k v => fun a m' =>
      a = .update (m k).isSome ∧
      m' = if (m k).isSome then fun q => if ops.equal k q then some v else m q else m
  | .updateField k fn args =>
      match m k with
      | some v => fun a m' => a = .updateField true (fn v args).2 ∧
          m' = fun q => if ops.equal k q then some (fn v args).1 else m q
      | none => fun a m' => a = .updateField false args ∧ m' = m
  | .erase k => fun a m' =>
      a = .erase (m k).isSome ∧ m' = fun q => if ops.equal k q then none else m q

section Refinement

variable [Inhabited K] [Inhabited V] {ops : KeyOps K}

/-- The table represents the map. -/
def Represents (ops : KeyOps K) (b : BlockMap K V) (m : K → Option V) : Prop :=
  (∃ body, Inv ops b body) ∧ b.view ops = m

/-- One operation whose bucket has a free mutex answers as the map does and keeps representing
it. -/
theorem step_simulates (b : BlockMap K V) (m : K → Option V) (op : Op K V A)
    (represents : Represents ops b m) (free : b.Free ops op.key) :
    ∃ b' a m', step ops b op = some (b', a) ∧ Spec ops m op a m' ∧ Represents ops b' m' := by
  obtain ⟨⟨body, inv⟩, rfl⟩ := represents
  cases op with
  | insert k v =>
      have free : b.Free ops k := free
      obtain ⟨b', body', done, inv', read⟩ := inv.insert_spec free v
      refine ⟨b', _, _, ?_, ⟨rfl, rfl⟩, ⟨body', inv'⟩, funext ?_⟩
      · simp only [step, done, Option.bind_eq_bind, Option.bind_some, Option.pure_def]
      · intro q
        rw [read]
        split <;> rfl
  | find k =>
      have free : b.Free ops k := free
      let pos := if (b.view ops k).isSome then b.keyToIndex ops k else notInTable
      refine ⟨b, .find pos, _, ?_, ⟨rfl, pos, rfl, ?_⟩, ⟨body, inv⟩, rfl⟩
      · simp only [step, inv.find_spec free, Option.bind_eq_bind, Option.bind_some, Option.pure_def,
          pos]
      · by_cases present : (b.view ops k).isSome
        · simp only [pos, present, if_true, iff_true]
          exact inv.index_ne_notInTable k
        · simp [pos, present]
  | update k v =>
      have free : b.Free ops k := free
      obtain ⟨b', done, inv', read⟩ := inv.update_spec free v
      refine ⟨b', _, _, ?_, ⟨rfl, rfl⟩, ⟨body, inv'⟩, funext ?_⟩
      · simp only [step, done, Option.bind_eq_bind, Option.bind_some, Option.pure_def]
      · intro q
        rw [read]
        split <;> rfl
  | updateField k fn args =>
      have free : b.Free ops k := free
      obtain ⟨b', done, inv', read⟩ := inv.updateField_spec free fn args
      simp only [step, done, Option.bind_eq_bind, Option.bind_some, Option.pure_def, Spec]
      cases stored : b.view ops k with
      | some v =>
          refine ⟨b', _, _, rfl, ⟨rfl, rfl⟩, ⟨body, inv'⟩, funext ?_⟩
          intro q
          rw [read, stored]
      | none =>
          refine ⟨b', _, _, rfl, ⟨rfl, rfl⟩, ⟨body, inv'⟩, funext ?_⟩
          intro q
          rw [read, stored]
  | erase k =>
      have free : b.Free ops k := free
      obtain ⟨b', body', done, inv', read⟩ := inv.erase_spec free
      refine ⟨b', _, _, ?_, ⟨rfl, rfl⟩, ⟨body', inv'⟩, funext read⟩
      simp only [step, done, Option.bind_eq_bind, Option.bind_some, Option.pure_def]

/-- The constructor returns, every call of the list returns, the answers are those of a finite map
whose first write wins, and the table at the end holds that map. -/
def Refines (ops : KeyOps K) (raw : RawTable) (n : UInt64) (csize : UInt32) (maxKey : K)
    (calls : List (Op K V A)) : Prop :=
  ∃ b₀ b : BlockMap K V, ∃ answers m,
    new raw n (MemoryPool.new csize) maxKey = some b₀ ∧
    answers? (step ops) b₀ calls = some (b, answers) ∧
    SpecRun (Spec ops) (fun _ => none) calls answers m ∧ b.view ops = m

/-- **The block map refines a finite map with first-write-wins insertion, where its mutexes happen
to be free.** For every table size, chunk size, hash, equality and sentinel key, every list of
operations and whatever `malloc` returns: the operations answer and act as those of the map if and
only if the table fits and every bucket an operation comes to has a free mutex. -/
theorem refines_iff (ops : KeyOps K) (raw : RawTable) {n : UInt64} (size : 0 < n) {csize : UInt32}
    (chunk : 0 < csize) (maxKey : K) (calls : List (Op K V A)) :
    Refines ops raw n csize maxKey calls ↔
      raw.Admits n ∧ ∀ op ∈ calls, raw.mutexes (ops.hash op.key % n) = .unlocked := by
  constructor
  · rintro ⟨b₀, b, answers, m, built, ran, -⟩
    obtain ⟨-, admits⟩ := (exists_new_iff raw n chunk maxKey).mp ⟨b₀, built⟩
    exact ⟨admits, (new_laidIn chunk built).answered ran⟩
  · rintro ⟨admits, free⟩
    obtain ⟨b₀, built⟩ := (exists_new_iff (V := V) raw n chunk maxKey).mpr ⟨size, admits⟩
    have inv := new_inv ops chunk built
    have start : Represents ops b₀ (fun _ => none) ∧ LaidIn raw n b₀ :=
      ⟨⟨⟨_, inv⟩, funext fun q => by rw [inv.view_eq]; rfl⟩, new_laidIn chunk built⟩
    obtain ⟨b, answers, m, ran, spec, represents, -⟩ := answers?_of_simulation
      (R := fun b m => Represents ops b m ∧ LaidIn raw n b)
      (fun b m (op : Op K V A) ⟨represents, laid⟩ (free : raw.mutexes (ops.hash op.key % n) = _) => by
        obtain ⟨b', a, m', done, spec, represents'⟩ :=
          step_simulates b m op represents ((laid.free_iff op.key).mpr free)
        exact ⟨b', a, m', done, spec, represents', (laid.step done).2⟩)
      start free
    exact ⟨b₀, b, answers, m, built, ran, spec, represents.2⟩

end Refinement

/-- Numbers that all hash to zero. -/
def collidingOps : KeyOps Nat := KeyOps.ofHash fun _ => 0

/-- Memory for two buckets that happens to be zero, as it comes from the kernel. -/
def zeroed : RawTable := ⟨2, fun _ => .unlocked⟩

/-- Memory for two buckets that another object has used before. -/
def recycled : RawTable := ⟨2, fun _ => .other⟩

/-- Two buckets in zeroed memory, chunks of one node, and a node that is used again; the sentinel
key 7 is also inserted. -/
theorem refines_colliding :
    (0 : UInt64) < 2 ∧ (0 : UInt32) < 1 ∧
      Refines (V := String) (A := Unit) collidingOps zeroed 2 1 7
        [.insert 7 "a", .insert 9 "b", .erase 7, .insert 7 "c", .find 9] := by
  have size : (0 : UInt64) < 2 := by decide
  have chunk : (0 : UInt32) < 1 := by decide
  have admits : zeroed.Admits 2 := by decide
  exact ⟨size, chunk, (refines_iff collidingOps zeroed size chunk 7 _).mpr ⟨admits, fun _ _ => rfl⟩⟩

/-- In recycled memory the first `insert` does not return. -/
theorem not_refines_recycled :
    ∃ b₀ : BlockMap Nat String, new recycled 2 (MemoryPool.new 1) 7 = some b₀ ∧
      b₀.insert collidingOps 7 "a" = none ∧
      ¬ Refines (A := Unit) collidingOps recycled 2 1 7 [.insert 7 "a"] := by
  have chunk : (0 : UInt32) < 1 := by decide
  have admits : recycled.Admits 2 := by decide
  obtain ⟨b₀, built⟩ := (exists_new_iff (V := String) recycled 2 chunk 7).mpr ⟨by decide, admits⟩
  have laid := new_laidIn chunk built
  have stuck : ∀ out, b₀.insert collidingOps 7 "a" ≠ some out := by
    intro out done
    have taken : step (A := Unit) collidingOps b₀ (.insert 7 "a") = some (out.1, .insert out.2) := by
      simp only [step, done, Option.bind_eq_bind, Option.bind_some, Option.pure_def]
    exact absurd (laid.step taken).1 (by decide)
  refine ⟨b₀, built, Option.eq_none_iff_forall_ne_some.mpr stuck, ?_⟩
  rintro ⟨b, b', answers, m, built', ran, -⟩
  have free := (new_laidIn chunk built').answered ran (.insert 7 "a") List.mem_cons_self
  exact absurd free (by decide)

end Hcl.BlockMap
