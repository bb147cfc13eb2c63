import Hcl.Map
import Hcl.Multimap
import Hcl.Set

/-!
The ordered containers side by side: `hcl::map`, `hcl::multimap` and `hcl::set` are each
one collection over all servers (`oneCollection`).
-/

namespace Hcl.Ordered

variable {K V : Type*} [LinearOrder K] [Inhabited V] [MoveOut K] [MoveOut V]

/-- **One collection over all servers, last write wins.** For any number of servers, any
hash and any calls by any objects, `map` and `multimap` answer as one map and `set` as
one set, and every key is stored on at most one server and in at most one entry. -/
theorem oneCollection {n : UInt16} (servers : 0 < n) (keyHash : K → UInt64) :
    (Map.bodies K V).IsOneMap Map.MyMap.empty n keyHash ∧
      (Multimap.bodies K V).IsOneMap Multimap.MyMap.empty n keyHash ∧
      Set.IsOneSet n keyHash :=
  ⟨Map.lawful.isOneMap servers keyHash, Multimap.lawful.isOneMap servers keyHash,
    Set.isOneSet servers keyHash⟩

/-- Three servers, strings as values, a number as its own hash. -/
theorem oneCollection_three_servers :
    (0 : UInt16) < 3 ∧
      (Multimap.bodies Nat String).IsOneMap Multimap.MyMap.empty 3 Nat.toUInt64 :=
  ⟨by decide, (oneCollection (by decide) _).2.1⟩

end Hcl.Ordered
