import Hcl.Container
import Hcl.Lib.Mutex

/-!
The mutex of `hcl::unordered_map`.

`LocalPut`, `LocalGet` and `LocalErase` take the mutex of the segment only where
`is_server && !server_on_node`; `LocalGetAllDataInServer` always takes it. Several
processes may be attached to one segment: the server, with its RPC handler threads,
and the clients on its node, which open the segment because their `server_on_node` is
set. A write of `myHashMap` never overlaps another access exactly when the server is
off the node and no client is attached, or there is only one thread (`exclusive_iff`).
-/

namespace Hcl.UnorderedMap

open Hcl.Lib Hcl.Lib.Mutex

/-- The bodies that use the table. -/
inductive LocalCall where
  | put
  | get
  | erase
  | getAllDataInServer
deriving DecidableEq, Repr

/-- What a body does with `myHashMap`. -/
inductive Access where
  | insertOrAssign
  | find
  | erase
  | iterate
deriving DecidableEq, Repr

/-- The accesses that change the table. -/
def Access.writes : Access → Bool
  | .insertOrAssign | .erase => true
  | .find | .iterate => false

/-- A place inside a body: the access that is under way. -/
structure Place where
  call : LocalCall
  access : Access
deriving DecidableEq, Repr

/-- The first access of a body. `LocalErase` looks the key up first. -/
def LocalCall.entry : LocalCall → Place
  | .put => ⟨.put, .insertOrAssign⟩
  | .get => ⟨.get, .find⟩
  | .erase => ⟨.erase, .find⟩
  | .getAllDataInServer => ⟨.getAllDataInServer, .iterate⟩

/-- `LocalErase` goes on to erase what it found; where it found nothing it leaves. -/
inductive Place.Next : Place → Place → Prop where
  | found : Next ⟨.erase, .find⟩ ⟨.erase, .erase⟩

/-- Whether a body takes the mutex, by the two flags of the object it runs on. -/
def takesMutex (c : Container) : LocalCall → Bool
  | .put => c.isServer && !c.serverOnNode
  | .get => c.isServer && !c.serverOnNode
  | .erase => c.isServer && !c.serverOnNode
  | .getAllDataInServer => true

/-! ### The threads attached to a segment -/

/-- A handler thread of the server, or a client. -/
inductive Thread where
  | handler (i : Nat)
  | client (i : Nat)
deriving DecidableEq, Repr

/-- The processes attached to the segment of one server. -/
structure Attached where
  numServers : UInt16
  serverIdx : UInt16
  serverOnNode : Bool
  handlers : Nat
  clients : Nat

namespace Attached

variable (d : Attached)

def Has : Thread → Prop
  | .handler i => i < d.handlers
  | .client i => i < d.clients

/-- The object a thread calls on. A client opens the segment only where its
`server_on_node` is set. -/
def object : Thread → Container
  | .handler _ => ⟨d.numServers, d.serverIdx, true, d.serverOnNode⟩
  | .client _ => ⟨d.numServers, d.serverIdx, false, true⟩

/-- The calls of the attached threads. -/
def calls : Calls Thread Place where
  starts t place := d.Has t ∧ ∃ call : LocalCall, place = call.entry
  next := Place.Next
  takes t place := takesMutex (d.object t) place.call
  takes_next _ _ _ next := by
    cases next
    rfl

/-- The states any interleaving of the calls reaches. -/
def Reaches (s : State Thread Place) : Prop := Reachable (Step d.calls) .idle s

end Attached

/-- No thread is inside a write while another is inside any access. -/
def Exclusive (s : State Thread Place) : Prop :=
  ∀ t u p q, t ≠ u → s.inside t = some p → p.access.writes = true → s.inside u ≠ some q

/-- A server off its node, with no client attached, takes the mutex in every call. -/
theorem Attached.exclusive_of_locked {d : Attached} (off : d.serverOnNode = false)
    (alone : d.clients = 0) {s : State Thread Place} (reach : d.Reaches s) : Exclusive s := by
  have takes : ∀ t p, s.inside t = some p → d.calls.takes t p = true := by
    apply inside_of_reachable (P := fun t p => d.calls.takes t p = true) _ _ reach
    · rintro t p ⟨has, call, rfl⟩
      cases t with
      | handler i =>
          show takesMutex ⟨_, _, true, d.serverOnNode⟩ _ = true
          rw [off]
          cases call <;> rfl
      | client i =>
          have below : i < d.clients := has
          omega
    · intro t p q before next
      rw [d.calls.takes_next t next]
      exact before
  intro t u p q different here _ there
  exact different (Mutex.exclusive reach ⟨p, here, takes t p here⟩ ⟨q, there, takes u q there⟩)

/-- One thread alone overlaps with none. -/
theorem Attached.exclusive_of_one {d : Attached} (one : d.handlers + d.clients ≤ 1)
    {s : State Thread Place} (reach : d.Reaches s) : Exclusive s := by
  have attached : ∀ t p, s.inside t = some p → d.Has t := by
    apply inside_of_reachable (P := fun t _ => d.Has t) _ _ reach
    · exact fun t p start => start.1
    · exact fun t p q has _ => has
  intro t u p q different here _ there
  have first := attached t p here
  have second := attached u q there
  apply different
  cases t <;> cases u <;> simp only [Attached.Has] at first second
  · congr 1
    omega
  · omega
  · omega
  · congr 1
    omega

/-- A second thread whose `LocalPut` does not take the mutex enters whatever the first
does. -/
theorem Attached.overlap {d : Attached} {t u : Thread} (different : t ≠ u) (first : d.Has t)
    (second : d.Has u) (unlocked : takesMutex (d.object u) .put = false) :
    ∃ s, d.Reaches s ∧ s.inside t = some LocalCall.put.entry ∧
      s.inside u = some LocalCall.put.entry := by
  have enters : Step d.calls .idle (.enter t LocalCall.put.entry) _ :=
    .enter rfl ⟨first, .put, rfl⟩ fun _ => rfl
  refine ⟨_, .step (.step .start enters) (.enter ?_ ⟨second, .put, rfl⟩ ?_), ?_, Function.update_self ..⟩
  · exact Function.update_of_ne different.symm ..
  · exact fun takes => absurd (unlocked.symm.trans takes) (by decide)
  · show Function.update (Function.update _ t _) u _ t = _
    rw [Function.update_of_ne different, Function.update_self]

theorem not_exclusive_of_puts {s : State Thread Place} {t u : Thread} (different : t ≠ u)
    (first : s.inside t = some LocalCall.put.entry) (second : s.inside u = some LocalCall.put.entry) :
    ¬ Exclusive s :=
  fun exclusive => exclusive t u _ _ different first rfl second

/-- **Writes of the table exclude every other access, in all reachable states, exactly
when the server is off its node and no client is attached, or only one thread is.** -/
theorem exclusive_iff (d : Attached) :
    (∀ s, d.Reaches s → Exclusive s) ↔
      (d.serverOnNode = false ∧ d.clients = 0) ∨ d.handlers + d.clients ≤ 1 := by
  constructor
  · intro always
    by_contra otherwise
    rw [not_or, not_and] at otherwise
    obtain ⟨locked, several⟩ := otherwise
    have overlap : ∃ t u, t ≠ u ∧ d.Has t ∧ d.Has u ∧ takesMutex (d.object u) .put = false := by
      rcases Nat.eq_zero_or_pos d.clients with alone | clients
      · have onNode : d.serverOnNode = true := by
          by_contra off
          exact locked (Bool.eq_false_iff.mpr off) alone
        refine ⟨.handler 1, .handler 0, by decide, ?_, ?_, ?_⟩
        · show 1 < d.handlers
          omega
        · show 0 < d.handlers
          omega
        · show (true && !d.serverOnNode) = false
          rw [onNode]
          rfl
      · rcases Nat.eq_zero_or_pos d.handlers with alone | handlers
        · refine ⟨.client 1, .client 0, by decide, ?_, clients, rfl⟩
          show 1 < d.clients
          omega
        · exact ⟨.handler 0, .client 0, (fun contra => nomatch contra), handlers, clients, rfl⟩
    obtain ⟨t, u, different, first, second, unlocked⟩ := overlap
    obtain ⟨s, reach, here, there⟩ := Attached.overlap different first second unlocked
    exact not_exclusive_of_puts different here there (always s reach)
  · rintro (⟨off, alone⟩ | one) s reach
    · exact Attached.exclusive_of_locked off alone reach
    · exact Attached.exclusive_of_one one reach

/-- A server on its node with one handler thread, and one client. -/
def onNode : Attached := ⟨1, 0, true, 1, 1⟩

/-- Both are inside `insert_or_assign` at once. -/
theorem not_exclusive_on_node : ∃ s, onNode.Reaches s ∧
    s.inside (.handler 0) = some ⟨.put, .insertOrAssign⟩ ∧
    s.inside (.client 0) = some ⟨.put, .insertOrAssign⟩ ∧ ¬ Exclusive s := by
  have different : Thread.handler 0 ≠ Thread.client 0 := by decide
  obtain ⟨s, reach, here, there⟩ := Attached.overlap different (show onNode.Has _ from Nat.one_pos)
    (show onNode.Has _ from Nat.one_pos) rfl
  exact ⟨s, reach, here, there, not_exclusive_of_puts different here there⟩

end Hcl.UnorderedMap
