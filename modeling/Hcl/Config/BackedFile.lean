import Mathlib.Data.List.Basic
import Hcl.Config.Buffer

/-!
The backing files of shared objects: `container.cpp` and `global_clock.cpp`.

A container puts its name and its server's index into the path of its file, a global clock
its name alone. The index can be read off a container's path, as what stands behind the last
underscore, so two containers never share a file. Two clocks of one name do, and so do a
clock and a container it is named after with the index (`file_ne_iff`).
-/

namespace Hcl.Config

open Hcl.Lib

/-- An object in shared memory, by its name and the index of the server that creates it. -/
inductive SharedObject where
  | container (name : CharStruct) (myServerIdx : UInt16)
  | globalClock (name : List Char) (myServer : UInt16)
deriving DecidableEq

namespace SharedObject

/-- The pair that names an object. -/
def pair : SharedObject → List Char × UInt16
  | container name myServerIdx => (name.chars, myServerIdx)
  | globalClock name myServer => (name, myServer)

/-- `backed_file`. The name of a clock is a `std::string`. -/
def file (dir : CharStruct) : SharedObject → Except Fault CharStruct
  | container name myServerIdx => do
      let path ← (← dir.add "/".toList).add name.chars
      (← path.add "_".toList).add (indexText myServerIdx)
  | globalClock name _ => do (← dir.add "/".toList).add name

/-- The name of the file in its directory. -/
def fileName : SharedObject → List Char
  | container name myServerIdx => name.chars ++ '_' :: indexText myServerIdx
  | globalClock name _ => cString name

/-- Two objects whose names keep their files apart: two containers, two clocks of different
names, or a clock that is not named as the container with its index. -/
def Apart : SharedObject → SharedObject → Prop
  | container _ _, container _ _ => True
  | globalClock n _, globalClock m _ => cString n ≠ cString m
  | container n i, globalClock m _ => cString m ≠ n.chars ++ '_' :: indexText i
  | globalClock m _, container n i => cString m ≠ n.chars ++ '_' :: indexText i

theorem add_eq_ok {a c : CharStruct} {s : List Char} (made : a.add s = .ok c) :
    c.chars = a.chars ++ cString s := by
  rw [← cString_append a.noNul]
  unfold CharStruct.add CharStruct.ofString at made
  dsimp only at made
  split at made
  · cases made
    rfl
  · cases made

/-- The path of an object is its name in the directory. -/
theorem file_chars {dir f : CharStruct} {o : SharedObject} (made : o.file dir = .ok f) :
    f.chars = dir.chars ++ '/' :: o.fileName := by
  have slash : ∀ {path}, dir.add "/".toList = .ok path → path.chars = dir.chars ++ ['/'] :=
    fun added => add_eq_ok added
  cases o with
  | container name index =>
      obtain ⟨root, addedSlash, made⟩ := bind_eq_ok_iff.mp made
      obtain ⟨path, addedName, made⟩ := bind_eq_ok_iff.mp made
      obtain ⟨stem, addedUnderscore, addedIndex⟩ := bind_eq_ok_iff.mp made
      have chars := add_eq_ok addedIndex
      rw [add_eq_ok addedUnderscore, add_eq_ok addedName, slash addedSlash,
        cString_eq_self_iff.mpr name.noNul, CharExpr.cString_indexText] at chars
      simpa [fileName, cString] using chars
  | globalClock name index =>
      obtain ⟨root, addedSlash, addedName⟩ := bind_eq_ok_iff.mp made
      rw [add_eq_ok addedName, slash addedSlash, List.append_assoc]
      rfl

/-- Two objects share a path exactly when they share a name in the directory. -/
theorem file_eq_iff {dir f g : CharStruct} {a b : SharedObject} (madeA : a.file dir = .ok f)
    (madeB : b.file dir = .ok g) : f = g ↔ a.fileName = b.fileName := by
  rw [CharStruct.ext_iff, file_chars madeA, file_chars madeB, List.append_cancel_left_eq,
    List.cons_inj_right]

theorem indexText_injective {i j : UInt16} (same : indexText i = indexText j) : i = j := by
  have read := congrArg (fun digits => Nat.ofDigitChars 10 digits 0) same
  simp only [indexText, Nat.ofDigitChars_ten_toDigits] at read
  exact UInt16.toNat_inj.mp read

/-- A list is cut at the last occurrence of a character in one way. -/
theorem append_cons_inj {c : Char} {x y s t : List Char} (outS : c ∉ s) (outT : c ∉ t)
    (same : x ++ c :: s = y ++ c :: t) : x = y ∧ s = t := by
  rcases List.append_eq_append_iff.mp same with ⟨between, rfl, tail⟩ | ⟨between, rfl, tail⟩
  · cases between with
    | nil =>
        simp only [List.nil_append, List.cons.injEq, true_and] at tail
        exact ⟨(List.append_nil x).symm, tail⟩
    | cons d between =>
        simp only [List.cons_append, List.cons.injEq] at tail
        exact absurd (tail.2 ▸ List.mem_append_right _ List.mem_cons_self) outS
  · cases between with
    | nil =>
        simp only [List.nil_append, List.cons.injEq, true_and] at tail
        exact ⟨List.append_nil y, tail.symm⟩
    | cons d between =>
        simp only [List.cons_append, List.cons.injEq] at tail
        exact absurd (tail.2 ▸ List.mem_append_right _ List.mem_cons_self) outT

/-- The index stands behind the last underscore of a container's file. -/
theorem container_fileName_inj {n m : CharStruct} {i j : UInt16}
    (same : (container n i).fileName = (container m j).fileName) :
    (container n i).pair = (container m j).pair := by
  obtain ⟨names, digits⟩ := append_cons_inj Nat.underscore_not_in_toDigits
    Nat.underscore_not_in_toDigits same
  rw [pair, pair, names, indexText_injective digits]

/-- **Two objects with different names or indices have different files** exactly when their
names keep them apart. -/
theorem file_ne_iff {dir f g : CharStruct} {a b : SharedObject} (different : a.pair ≠ b.pair)
    (madeA : a.file dir = .ok f) (madeB : b.file dir = .ok g) : f ≠ g ↔ a.Apart b := by
  rw [ne_eq, file_eq_iff madeA madeB]
  cases a with
  | container n i =>
      cases b with
      | container m j =>
          constructor
          · intro _
            trivial
          · intro _ same
            exact different (container_fileName_inj same)
      | globalClock m j => exact not_congr eq_comm
  | globalClock n i =>
      cases b with
      | container m j => exact Iff.rfl
      | globalClock m j => exact Iff.rfl

/-- `/tmp`. -/
def tmp : CharStruct := ⟨"/tmp".toList, by decide, by decide⟩

/-- The container `q` of server 1 and the container `q_1` of server 0. -/
def queue : SharedObject := container ⟨"q".toList, by decide, by decide⟩ 1

def numbered : SharedObject := container ⟨"q_1".toList, by decide, by decide⟩ 0

theorem file_ne_underscore :
    ∃ f g, queue.file tmp = .ok f ∧ numbered.file tmp = .ok g ∧ f ≠ g := by
  have madeA : queue.file tmp = .ok ⟨"/tmp/q_1".toList, by decide, by decide⟩ := by decide
  have madeB : numbered.file tmp = .ok ⟨"/tmp/q_1_0".toList, by decide, by decide⟩ := by decide
  have different : queue.pair ≠ numbered.pair := by decide
  exact ⟨_, _, madeA, madeB, (file_ne_iff different madeA madeB).mpr trivial⟩

/-- The clocks `c` of servers 0 and 1 have one file, and so have the container `q` of server 0
and a clock `q_0`. -/
theorem file_eq_clocks :
    (globalClock "c".toList 0).pair ≠ (globalClock "c".toList 1).pair ∧
      (∃ f, (globalClock "c".toList 0).file tmp = .ok f ∧
        (globalClock "c".toList 1).file tmp = .ok f) ∧
      ∃ f, (container ⟨"q".toList, by decide, by decide⟩ 0).file tmp = .ok f ∧
        (globalClock "q_0".toList 0).file tmp = .ok f := by
  refine ⟨by decide, ⟨⟨"/tmp/c".toList, by decide, by decide⟩, by decide, by decide⟩,
    ⟨⟨"/tmp/q_0".toList, by decide, by decide⟩, by decide, by decide⟩⟩

end SharedObject

end Hcl.Config
