import Hcl.Lib.Monitor
import Hcl.Lib.Session
import Hcl.Map
import Hcl.Multimap

/-!
`hcl::map` and `hcl::multimap` called from everywhere at once.

`Put`, `Get` and `Erase` work on the table of one server, under the mutex of its segment.
`GetAllData` asks one server after the other, so that the tables may change in between. The
bodies are programs here, one step for each use of the table. For any clients and any
interleaving (`Bodies.Lawful.follows_one_map`)

* `Put`, `Get`, `Erase` and the scan of one server take effect at one moment each, as on a
  single map;
* `GetAllData` lists no key twice, and reports for every key what the map held for it at some
  moment of the call. The moments of two keys need not be the same.
-/

namespace Hcl.KeyValue

open Hcl.Lib Hcl.Lib.Atomic Hcl.Lib.Monitor

variable {K V S P T : Type*}

/-! ### Calls of one server -/

/-- The operations that work on one server. `getAllDataInServer` is `GetAllDataInServer` for
the caller's own server, and the RPC `_GetAllData` for another. -/
inductive ServerOp (K V : Type*) where
  | put (key : K) (data : V)
  | get (key : K)
  | erase (key : K)
  | getAllDataInServer (server : UInt16)

inductive ServerAnswer (K V : Type*) where
  | put (ok : Bool)
  | get (found : Bool × V)
  | erase (found : Bool × V)
  | getAllData (entries : List (K × V))
  | undefined

/-- An object of a deployment of `n` servers. -/
structure Member (n : UInt16) where
  object : Container
  numServers_eq : object.numServers = n
  server_lt : object.myServerIdx < n

/-- A call of one server, made on an object of the deployment. -/
structure ServerCall (K V : Type*) (n : UInt16) where
  caller : Member n
  op : ServerOp K V

/-- The server an operation on a key goes to: the caller's own where `is_local(key_int)`, else
the one the RPC goes to. -/
def serverOf (keyHash : K → UInt64) (c : Container) (key : K) : UInt16 :=
  if c.isLocal (hashServer (keyHash key) c.numServers) then c.myServerIdx
  else hashServer (keyHash key) c.numServers

theorem serverOf_eq (keyHash : K → UInt64) (c : Container) (key : K) :
    serverOf keyHash c key = hashServer (keyHash key) c.numServers := by
  unfold serverOf
  split
  · rename_i here
    exact (Container.eq_myServerIdx_of_isLocal here).symm
  · rfl

def ServerCall.target {n : UInt16} (keyHash : K → UInt64) (call : ServerCall K V n) : UInt16 :=
  match call.op with
  | .put key _ => serverOf keyHash call.caller.object key
  | .get key => serverOf keyHash call.caller.object key
  | .erase key => serverOf keyHash call.caller.object key
  | .getAllDataInServer server => server

/-- What the bodies do to the table of the server a call goes to. -/
def Bodies.apply (B : Bodies K V S) : ServerOp K V → S → S × ServerAnswer K V
  | .put key data, s =>
      let out := B.localPut key data s
      (out.1, .put out.2.1)
  | .get key, s =>
      let out := B.localGet key s
      (out.1, .get out.2)
  | .erase key, s =>
      let out := B.localErase key s
      (out.1, .erase out.2)
  | .getAllDataInServer _, s => (s, .getAllData (B.localGetAllDataInServer s))

/-- A single map; the scan of a server lists the entries of its keys, each once. -/
def ServerSpec [DecidableEq K] [Inhabited V] {n : UInt16} (keyHash : K → UInt64) (m : K → Option V)
    (call : ServerCall K V n) : ServerAnswer K V → (K → Option V) → Prop :=
  match call.op with
  | .put key data => fun a m' => a = .put true ∧ m' = fun q => if key = q then some data else m q
  | .get key => fun a m' =>
      a = .get (match m key with | some v => (true, v) | none => (false, default)) ∧ m' = m
  | .erase key => fun a m' =>
      a = .erase ((m key).isSome, default) ∧ m' = fun q => if key = q then none else m q
  | .getAllDataInServer server => fun a m' => m' = m ∧ ∃ entries, a = .getAllData entries ∧
      (entries.map Prod.fst).Nodup ∧
      ∀ k v, (k, v) ∈ entries ↔ m k = some v ∧ hashServer (keyHash k) n = server

section Lawful

variable [DecidableEq K] [Inhabited V] {B : Bodies K V S} {empty : S} {view : S → K → Option V}
  {inv : S → Prop} {n : UInt16} {keyHash : K → UInt64}

/-- One body on the server of its key: the servers hold the map the single map becomes. -/
theorem Bodies.Lawful.apply_simulates (lawful : B.Lawful empty view inv) (segments : UInt16 → S)
    (m : K → Option V) (held : Holds view inv n keyHash segments m) (call : ServerCall K V n) :
    ∃ m', ServerSpec keyHash m call (B.apply call.op (segments (call.target keyHash))).2 m' ∧
      Holds view inv n keyHash (Function.update segments (call.target keyHash)
        (B.apply call.op (segments (call.target keyHash))).1) m' := by
  obtain ⟨⟨c, rfl, -⟩, op⟩ := call
  have respects : ∀ key q, key = q →
      hashServer (keyHash q) c.numServers = hashServer (keyHash key) c.numServers :=
    fun _ _ eq => by rw [eq]
  cases op with
  | put key data =>
      simp only [ServerCall.target, serverOf_eq, Bodies.apply, lawful.put_answer]
      exact ⟨_, ⟨rfl, rfl⟩, Held.write held (respects key) (lawful.put_inv (held.each _))
        (lawful.put_view (held.each _))⟩
  | get key =>
      simp only [ServerCall.target, serverOf_eq, Bodies.apply, lawful.get_eq (held.each _)]
      refine ⟨m, ⟨?_, rfl⟩, ?_⟩
      · have read := Held.view_owner held key
        cases stored : m key with
        | some v => simp only [read.trans stored]
        | none => simp only [read.trans stored]
      · rwa [Function.update_eq_self]
  | erase key =>
      simp only [ServerCall.target, serverOf_eq, Bodies.apply]
      refine ⟨_, ⟨?_, rfl⟩, Held.write held (respects key) (lawful.erase_inv (held.each _))
        (lawful.erase_view (held.each _))⟩
      rw [lawful.erase_answer (held.each _), Held.view_owner held key]
  | getAllDataInServer server =>
      simp only [ServerCall.target, Bodies.apply, Function.update_eq_self]
      refine ⟨m, ⟨rfl, _, rfl, lawful.nodup_entries (held.each server), fun k v => ?_⟩, held⟩
      rw [lawful.mem_entries (held.each server)]
      constructor
      · intro stored
        obtain ⟨here, merged⟩ := held.placed.merged_of_view stored
        rw [held.merged_eq] at merged
        exact ⟨merged, here.symm⟩
      · rintro ⟨stored, rfl⟩
        rw [← stored]
        exact Held.view_owner held k

/-- A program for the bodies: run alone, it does what they do. -/
structure Bodies.Runs (B : Bodies K V S) (program : Program S (ServerCall K V n) P (ServerAnswer K V)) :
    Prop where
  eq_apply : ∀ x call o y, program.runs x call o y → (y, o) = B.apply call.op x
  ends : ∀ p x, ∃ o y, Finishes program p x o y

variable {program : Program S (ServerCall K V n) P (ServerAnswer K V)} [DecidableEq T]

/-- The servers, their tables behind the mutexes, follow a single map. -/
theorem Bodies.Lawful.simulates (lawful : B.Lawful empty view inv) (runs : B.Runs program) :
    Simulates (T := T) (Family.Step (ServerCall.target keyHash) fun _ => Monitor.Step program)
      (ServerSpec keyHash) fun f c' => ∃ c, (∃ cs, (∀ i, Follows program (f.parts i) (cs i)) ∧
        Together (ServerCall.target keyHash) f.place cs c) ∧
        Holds view inv n keyHash c.value c'.value ∧ c'.status = c.status := by
  refine (Simulates.family fun _ => Monitor.simulates program).abstract ?_
  rintro segments m call o _ held ⟨y, ran, rfl⟩
  have applied := runs.eq_apply _ call o y ran
  obtain ⟨m', allowed, next⟩ := lawful.apply_simulates segments m held call
  rw [← applied] at allowed next
  exact ⟨m', allowed, next⟩

/-! ### GetAllData -/

/-- The servers in the order `GetAllData` asks them: the caller's own first. -/
def Member.servers (c : Member n) : List UInt16 :=
  c.object.myServerIdx :: c.object.serverRange.filter fun i => decide (i ≠ c.object.myServerIdx)

def ServerAnswer.entries : ServerAnswer K V → List (K × V)
  | .getAllData entries => entries
  | _ => []

/-- `GetAllData` appends what the servers answer. -/
def getAllDataPlan (K V : Type*) (n : UInt16) :
    Session.Plan (ServerCall K V n) (ServerAnswer K V) (Member n) (List (K × V)) where
  parts c := c.servers.map fun server => ⟨c, .getAllDataInServer server⟩
  combine _ got := got.flatMap ServerAnswer.entries

/-- A weak snapshot: no key twice, and every key as the map held it at some moment. -/
def WeakSnapshot (_ : Member n) (seen : Set (K → Option V)) (entries : List (K × V)) : Prop :=
  (entries.map Prod.fst).Nodup ∧ ∀ k, ∃ m ∈ seen, ∀ v, (k, v) ∈ entries ↔ m k = some v

theorem Member.servers_nodup (c : Member n) : c.servers.Nodup := by
  refine List.nodup_cons.mpr ⟨?_, c.object.serverRange_nodup.filter _⟩
  rw [List.mem_filter]
  exact fun mem => of_decide_eq_true mem.2 rfl

theorem Member.mem_servers (c : Member n) {i : UInt16} (below : i < n) : i ∈ c.servers := by
  by_cases own : i = c.object.myServerIdx
  · rw [own]
    exact List.mem_cons_self
  · refine List.mem_cons_of_mem _ (List.mem_filter.mpr ⟨?_, decide_eq_true own⟩)
    rw [Container.mem_serverRange, c.numServers_eq]
    exact below

/-- What scans of different servers answer, put together: for the keys of each of them, what
the map held at the moment of its scan. -/
theorem scans_combine {c : Member n} {seen : Set (K → Option V)} {servers : List UInt16}
    {got : List (ServerAnswer K V)}
    (answers : List.Forall₂ (Session.Answered (ServerSpec keyHash) seen)
      (servers.map fun server => (⟨c, .getAllDataInServer server⟩ : ServerCall K V n)) got)
    (nodup : servers.Nodup) :
    ((got.flatMap ServerAnswer.entries).map Prod.fst).Nodup ∧
      (∀ k v, (k, v) ∈ got.flatMap ServerAnswer.entries → hashServer (keyHash k) n ∈ servers) ∧
      ∀ k, hashServer (keyHash k) n ∈ servers →
        ∃ m ∈ seen, ∀ v, (k, v) ∈ got.flatMap ServerAnswer.entries ↔ m k = some v := by
  induction servers generalizing got with
  | nil =>
      cases answers
      refine ⟨List.nodup_nil, ?_, ?_⟩
      · intro k v contra
        cases contra
      · intro k contra
        cases contra
  | cons server rest ih =>
      obtain ⟨fresh, nodup'⟩ := List.nodup_cons.mp nodup
      cases answers with
      | @cons _ o _ got' answered answers' =>
          obtain ⟨m, mem, m', -, entries, rfl, once, listed⟩ := answered
          obtain ⟨onceRest, ownedRest, heldRest⟩ := ih answers' nodup'
          simp only [List.flatMap_cons, ServerAnswer.entries]
          -- A key is either of this server or of one of the rest.
          have apart : ∀ {k v w}, (k, v) ∈ entries → (k, w) ∉ got'.flatMap ServerAnswer.entries := by
            intro k v w first second
            have here := ((listed k v).mp first).2
            rw [← here] at fresh
            exact fresh (ownedRest k w second)
          refine ⟨?_, ?_, ?_⟩
          · rw [List.map_append]
            refine List.Nodup.append once onceRest ?_
            intro k left right
            obtain ⟨⟨_, v⟩, first, rfl⟩ := List.mem_map.mp left
            obtain ⟨⟨_, w⟩, second, eq⟩ := List.mem_map.mp right
            cases eq
            exact apart first second
          · intro k v stored
            rcases List.mem_append.mp stored with first | second
            · rw [((listed k v).mp first).2]
              exact List.mem_cons_self
            · exact List.mem_cons_of_mem _ (ownedRest k v second)
          · intro k owner
            rcases List.mem_cons.mp owner with here | later
            · refine ⟨m, mem, fun v => ?_⟩
              rw [List.mem_append, listed]
              constructor
              · rintro (⟨stored, -⟩ | second)
                · exact stored
                · rw [← here] at fresh
                  exact absurd (ownedRest k v second) fresh
              · exact fun stored => .inl ⟨stored, here⟩
            · obtain ⟨m₁, mem₁, held⟩ := heldRest k later
              refine ⟨m₁, mem₁, fun v => ?_⟩
              rw [List.mem_append, ← held]
              constructor
              · rintro (first | second)
                · have here := ((listed k v).mp first).2
                  rw [here] at later
                  exact absurd later fresh
                · exact second
              · exact .inr

/-- The deployment: the servers, the clients, and where each client is in its operation. -/
abbrev System (S P T : Type*) (K V : Type*) (n : UInt16) :=
  Session.State (Family UInt16 (State S T (ServerCall K V n) P (ServerAnswer K V)) T) T
    (ServerCall K V n) (ServerAnswer K V) (Member n)

/-- One step of one client. -/
def System.Step (program : Program S (ServerCall K V n) P (ServerAnswer K V)) (keyHash : K → UInt64) :
    System S P T K V n →
      Option (Event T (ServerCall K V n ⊕ Member n) (ServerAnswer K V ⊕ List (K × V))) →
      System S P T K V n → Prop :=
  Session.Step (getAllDataPlan K V n)
    (Family.Step (ServerCall.target keyHash) fun _ => Monitor.Step program)

/-- Every table as `construct_shared_memory` leaves it. -/
def System.initial (empty : S) : System S P T K V n :=
  Session.State.initial (Family.initial fun _ => State.initial empty)

/-- The calls and answers of the clients are those of a single map on which `Put`, `Get` and
`Erase` take effect at one moment and `GetAllData` is a weak snapshot, and a call of a server
that has begun can be brought to its return. -/
def FollowsOneMap (T : Type*) [DecidableEq T]
    (program : Program S (ServerCall K V n) P (ServerAnswer K V)) (empty : S) (keyHash : K → UInt64) :
    Prop :=
  ∀ trace (s : System S P T K V n),
    Run (System.Step program keyHash) (System.initial empty) trace s →
      (∃ w, Run (Session.Watched.Step (ServerSpec keyHash) WeakSnapshot)
        (.initial fun _ => none) trace w) ∧
      ∀ t i, s.inner.place t = some i → ∃ o f',
        Run (Family.Step (ServerCall.target keyHash) fun _ => Monitor.Step program) s.inner
          [.ret t o] f' ∧ f'.place t = none

/-- Lawful bodies under the mutexes of their segments are one map. -/
theorem Bodies.Lawful.follows_one_map (lawful : B.Lawful empty view inv) (runs : B.Runs program)
    (servers : 0 < n) : FollowsOneMap T program empty keyHash := by
  intro trace s run
  constructor
  · refine Session.follows_watched (lawful.simulates runs) ?_ ?_ ?_ run
    · intro c call mem m o m' allowed
      obtain ⟨server, -, rfl⟩ := List.mem_map.mp mem
      exact allowed.1
    · intro c seen got answers
      obtain ⟨once, -, held⟩ := scans_combine answers c.servers_nodup
      exact ⟨once, fun k => held k (c.mem_servers (hashServer_lt servers _))⟩
    · have start : Holds view inv n keyHash (fun _ => empty) fun _ => none :=
        ⟨fun _ k _ => lawful.empty_view k, funext lawful.empty_view, fun _ => lawful.empty_inv⟩
      exact ⟨.initial fun _ => empty, ⟨_, fun _ => .initial empty, .initial _⟩, start, rfl⟩
  · intro t i here
    obtain ⟨calls, inner⟩ := Session.inner_run run
    exact family_completes runs.ends inner here

end Lawful

/-! ### The bodies, one use of the table at a time

`LocalGet`, `LocalErase` and `LocalGetAllDataInServer` are the same text in `map.cpp` and
`multimap.cpp`; the two `LocalPut` are not. -/

/-- What the bodies use of a table. -/
structure Table (K V S : Type*) where
  find : K → S → Option V
  erase : K → S → S × Nat
  entries : S → List (K × V)

/-- Where a body is; `Q` are the places of `LocalPut`. An iterator is a position. -/
inductive Place (K V Q : Type*) where
  | put (q : Q)
  | find (key : K)
  | second (key : K)
  | erase (key : K)
  | iterate (position : Nat) (got : List (K × V))

variable {Q : Type*}

/-- The bodies over a table, around a `LocalPut`. -/
def program [Inhabited V] {n : UInt16} (table : Table K V S) (putEntry : K → V → Q)
    (putAccess : Q → S → S × (Q ⊕ Bool)) :
    Program S (ServerCall K V n) (Place K V Q) (ServerAnswer K V) where
  entry call := match call.op with
    | .put key data => .put (putEntry key data)
    | .get key => .find key
    | .erase key => .erase key
    | .getAllDataInServer _ => .iterate 0 []
  access
    | .put q, s => match putAccess q s with
        | (s', .inl q') => (s', .inl (.put q'))
        | (s', .inr ok) => (s', .inr (.put ok))
    | .find key, s =>
        if (table.find key s).isSome then (s, .inl (.second key))
        else (s, .inr (.get (false, default)))
    | .second key, s => match table.find key s with
        | some value => (s, .inr (.get (true, value)))
        | none => (s, .inr .undefined)
    | .erase key, s => ((table.erase key s).1, .inr (.erase (decide ((table.erase key s).2 > 0), default)))
    | .iterate position got, s => match (table.entries s)[position]? with
        | some e => (s, .inl (.iterate (position + 1) (got ++ [e])))
        | none => (s, .inr (.getAllData got))

/-- What a `LocalPut` does alone. -/
inductive PutFinishes (putAccess : Q → S → S × (Q ⊕ Bool)) : Q → S → Bool → S → Prop where
  | last {q : Q} {s s' : S} {ok : Bool} : putAccess q s = (s', .inr ok) → PutFinishes putAccess q s ok s'
  | next {q q' : Q} {s s' s'' : S} {ok : Bool} : putAccess q s = (s', .inl q') →
      PutFinishes putAccess q' s' ok s'' → PutFinishes putAccess q s ok s''

section Program

variable [Inhabited V] {n : UInt16} {table : Table K V S} {putEntry : K → V → Q}
  {putAccess : Q → S → S × (Q ⊕ Bool)}

theorem finishes_put {p : Place K V Q} {s s' : S} {o : ServerAnswer K V}
    (finishes : Finishes (program (n := n) table putEntry putAccess) p s o s') {q : Q}
    (at' : p = .put q) : ∃ ok, o = .put ok ∧ PutFinishes putAccess q s ok s' := by
  induction finishes generalizing q with
  | @last p x y o accessed =>
      subst at'
      simp only [program] at accessed
      split at accessed
      · cases accessed
      · rename_i eq
        cases accessed
        exact ⟨_, rfl, .last eq⟩
  | @next p p' x y z o accessed _ ih =>
      subst at'
      simp only [program] at accessed
      split at accessed
      · rename_i eq
        cases accessed
        obtain ⟨ok, rfl, rest⟩ := ih rfl
        exact ⟨ok, rfl, .next eq rest⟩
      · cases accessed

/-- The loop of `LocalGetAllDataInServer` appends the entries from its iterator on. -/
theorem finishes_iterate {p : Place K V Q} {s s' : S} {o : ServerAnswer K V}
    (finishes : Finishes (program (n := n) table putEntry putAccess) p s o s') {position : Nat}
    {got : List (K × V)} (at' : p = .iterate position got) :
    s' = s ∧ o = .getAllData (got ++ (table.entries s).drop position) := by
  induction finishes generalizing position got with
  | @last p x y o accessed =>
      subst at'
      simp only [program] at accessed
      split at accessed
      · cases accessed
      · rename_i atEnd
        cases accessed
        rw [List.drop_eq_nil_of_le (List.getElem?_eq_none_iff.mp atEnd), List.append_nil]
        exact ⟨rfl, rfl⟩
  | @next p p' x y z o accessed _ ih =>
      subst at'
      simp only [program] at accessed
      split at accessed
      · rename_i e here
        cases accessed
        obtain ⟨same, answer⟩ := ih rfl
        obtain ⟨below, value⟩ := List.getElem?_eq_some_iff.mp here
        rw [answer, List.append_assoc, List.drop_eq_getElem_cons below, value]
        exact ⟨same, rfl⟩
      · cases accessed

theorem finishes_find {key : K} {s s' : S} {o : ServerAnswer K V}
    (finishes : Finishes (program (n := n) table putEntry putAccess) (.find key) s o s') :
    s' = s ∧ o = .get (match table.find key s with | some v => (true, v) | none => (false, default)) := by
  cases found : table.find key s with
  | none =>
      cases finishes with
      | last accessed =>
          simp only [program, found] at accessed
          cases accessed
          exact ⟨rfl, rfl⟩
      | next accessed _ =>
          simp only [program, found] at accessed
          cases accessed
  | some value =>
      cases finishes with
      | last accessed =>
          simp only [program, found] at accessed
          cases accessed
      | next accessed rest =>
          simp only [program, found] at accessed
          cases accessed
          cases rest with
          | last accessed =>
              simp only [program, found] at accessed
              cases accessed
              exact ⟨rfl, rfl⟩
          | next accessed _ =>
              simp only [program, found] at accessed
              cases accessed

theorem iterate_ends (s : S) : ∀ (left position : Nat) (got : List (K × V)),
    (table.entries s).length - position = left →
      ∃ o s', Finishes (program (n := n) table putEntry putAccess) (.iterate position got) s o s' := by
  intro left
  induction left with
  | zero =>
      intro position got exhausted
      have atEnd : (table.entries s)[position]? = none := List.getElem?_eq_none_iff.mpr (by omega)
      exact ⟨_, _, .last (by simp only [program, atEnd]; rfl)⟩
  | succ left ih =>
      intro position got remains
      have below : position < (table.entries s).length := by omega
      have here := List.getElem?_eq_getElem below
      obtain ⟨o, s', rest⟩ := ih (position + 1) (got ++ [(table.entries s)[position]]) (by omega)
      exact ⟨o, s', .next (by simp only [program, here]) rest⟩

theorem put_ends (ends : ∀ q s, ∃ ok s', PutFinishes putAccess q s ok s') (q : Q) (s : S) :
    ∃ o s', Finishes (program (n := n) table putEntry putAccess) (.put q) s o s' := by
  obtain ⟨ok, s', finishes⟩ := ends q s
  refine ⟨.put ok, s', ?_⟩
  induction finishes with
  | last eq => exact .last (by simp only [program, eq])
  | next eq _ ih => exact .next (by simp only [program, eq]) ih

/-- The program of a table runs the bodies of the table. -/
theorem program_runs {B : Bodies K V S}
    (put : ∀ key data s ok s', PutFinishes putAccess (putEntry key data) s ok s' →
      (s', ok) = ((B.localPut key data s).1, (B.localPut key data s).2.1))
    (get : ∀ key s, B.localGet key s =
      (s, match table.find key s with | some v => (true, v) | none => (false, default)))
    (erase : ∀ key s, B.localErase key s =
      ((table.erase key s).1, (decide ((table.erase key s).2 > 0), default)))
    (all : ∀ s, B.localGetAllDataInServer s = table.entries s)
    (ends : ∀ q s, ∃ ok s', PutFinishes putAccess q s ok s') :
    B.Runs (program (n := n) table putEntry putAccess) where
  eq_apply s call o s' runs := by
    obtain ⟨caller, op⟩ := call
    cases op with
    | put key data =>
        obtain ⟨ok, rfl, finishes⟩ := finishes_put runs rfl
        obtain ⟨rfl, rfl⟩ := Prod.mk.inj (put key data s ok s' finishes)
        rfl
    | get key =>
        obtain ⟨rfl, rfl⟩ := finishes_find runs
        simp only [Bodies.apply, get]
    | erase key =>
        cases runs with
        | last accessed =>
            cases accessed
            simp only [Bodies.apply, erase]
        | next accessed _ => cases accessed
    | getAllDataInServer server =>
        obtain ⟨rfl, rfl⟩ := finishes_iterate runs rfl
        simp only [Bodies.apply, all, List.nil_append, List.drop_zero]
  ends p s := by
    have second : ∀ key s, ∃ o s', Finishes (program (n := n) table putEntry putAccess) (.second key) s o s' := by
      intro key s
      cases found : table.find key s with
      | none => exact ⟨_, _, .last (by simp only [program, found]; rfl)⟩
      | some value => exact ⟨_, _, .last (by simp only [program, found]; rfl)⟩
    cases p with
    | put q => exact put_ends ends q s
    | erase key => exact ⟨_, _, .last rfl⟩
    | second key => exact second key s
    | iterate position got => exact iterate_ends s _ position got rfl
    | find key =>
        by_cases found : (table.find key s).isSome
        · obtain ⟨o, s', rest⟩ := second key s
          exact ⟨o, s', .next (if_pos found) rest⟩
        · exact ⟨_, _, .last (if_neg found)⟩

end Program

end Hcl.KeyValue

namespace Hcl.Map

open Hcl.Lib Hcl.Lib.Atomic Hcl.KeyValue

variable {K V T : Type*} [LinearOrder K] [Inhabited V] [MoveOut V] {n : UInt16}

def table (K V : Type*) [LinearOrder K] : Table K V (MyMap K V) where
  find := MyMap.find
  erase := MyMap.erase
  entries := MyMap.entries

/-- `LocalPut` uses the map once: `insert_or_assign(key, value)`. -/
def putAccess (q : K × V) (m : MyMap K V) : MyMap K V × (K × V ⊕ Bool) :=
  (m.insertOrAssign q.1 q.2, .inr true)

/-- The bodies of `map.cpp`. -/
def program (K V : Type*) [LinearOrder K] [Inhabited V] [MoveOut V] (n : UInt16) :
    Monitor.Program (MyMap K V) (ServerCall K V n) (Place K V (K × V)) (ServerAnswer K V) :=
  KeyValue.program (table K V) (fun key data => (key, (getData data).1)) putAccess

theorem runs : (bodies K V).Runs (program K V n) := by
  refine program_runs ?_ ?_ (fun _ _ => rfl) (fun _ => rfl) fun q m => ⟨_, _, .last rfl⟩
  · intro key data m ok m' finishes
    cases finishes with
    | last eq =>
        cases eq
        rfl
    | next eq _ => cases eq
  · intro key m
    show localGet key m = _
    unfold localGet
    simp only [table]
    cases m.find key <;> rfl

end Hcl.Map

namespace Hcl.Multimap

open Hcl.Lib Hcl.Lib.Atomic Hcl.KeyValue

variable {K V T : Type*} [LinearOrder K] [Inhabited V] [MoveOut V] {n : UInt16}

def table (K V : Type*) [LinearOrder K] : Table K V (MyMap K V) where
  find := MyMap.find
  erase := MyMap.erase
  entries := MyMap.entries

/-- The uses of the multimap in `LocalPut`. -/
inductive PutPlace (K V : Type*) where
  | find (key : K) (data : V)
  | eraseFound (key : K) (data : V)
  | insert (key : K) (data : V)

/-- `LocalPut` erases the entry it finds before it inserts. -/
def putAccess (q : PutPlace K V) (m : MyMap K V) : MyMap K V × (PutPlace K V ⊕ Bool) :=
  match q with
  | .find key data =>
      if (m.find key).isSome then (m, .inl (.eraseFound key data)) else (m, .inl (.insert key data))
  | .eraseFound key data => (m.eraseFound key, .inl (.insert key data))
  | .insert key data => (m.insert key (getData data).1, .inr true)

/-- The bodies of `multimap.cpp`. -/
def program (K V : Type*) [LinearOrder K] [Inhabited V] [MoveOut V] (n : UInt16) :
    Monitor.Program (MyMap K V) (ServerCall K V n) (Place K V (PutPlace K V)) (ServerAnswer K V) :=
  KeyValue.program (table K V) PutPlace.find putAccess

omit [Inhabited V] in
theorem putFinishes_insert {key : K} {data : V} {m m' : MyMap K V} {ok : Bool}
    (finishes : PutFinishes putAccess (.insert key data) m ok m') :
    m' = m.insert key data ∧ ok = true := by
  cases finishes with
  | last eq =>
      cases eq
      exact ⟨rfl, rfl⟩
  | next eq _ => cases eq

theorem runs : (bodies K V).Runs (program K V n) := by
  refine program_runs ?_ ?_ (fun _ _ => rfl) (fun _ => rfl) ?_
  · intro key data m ok m' finishes
    by_cases found : (m.find key).isSome
    · cases finishes with
      | last eq => simp [putAccess, found] at eq
      | next eq rest =>
          simp only [putAccess, if_pos found, Prod.mk.injEq, Sum.inl.injEq] at eq
          obtain ⟨rfl, rfl⟩ := eq
          cases rest with
          | last eq => cases eq
          | next eq rest =>
              cases eq
              obtain ⟨rfl, rfl⟩ := putFinishes_insert rest
              simp only [bodies, localPut, if_pos found]
              rfl
    · cases finishes with
      | last eq => simp [putAccess, found] at eq
      | next eq rest =>
          simp only [putAccess, if_neg found, Prod.mk.injEq, Sum.inl.injEq] at eq
          obtain ⟨rfl, rfl⟩ := eq
          obtain ⟨rfl, rfl⟩ := putFinishes_insert rest
          simp only [bodies, localPut, if_neg found]
          rfl
  · intro key m
    show localGet key m = _
    unfold localGet
    simp only [table]
    cases m.find key <;> rfl
  · intro q m
    have insert : ∀ key data (m : MyMap K V), ∃ ok m', PutFinishes putAccess (.insert key data) m ok m' :=
      fun key data m => ⟨_, _, .last rfl⟩
    cases q with
    | insert key data => exact insert key data m
    | eraseFound key data =>
        obtain ⟨ok, m', rest⟩ := insert key data (m.eraseFound key)
        exact ⟨ok, m', .next rfl rest⟩
    | find key data =>
        by_cases found : (m.find key).isSome
        · obtain ⟨ok, m', rest⟩ := insert key data (m.eraseFound key)
          exact ⟨ok, m', .next (if_pos found) (.next rfl rest)⟩
        · obtain ⟨ok, m', rest⟩ := insert key data m
          exact ⟨ok, m', .next (if_neg found) rest⟩

end Hcl.Multimap

namespace Hcl.KeyValue

variable {K V T : Type*} [LinearOrder K] [Inhabited V] [MoveOut V] [DecidableEq T]

/-- **`map` and `multimap` are one map in every interleaving.** For any number of servers, any
hash and any clients, in every order of their steps. -/
theorem maps_in_every_interleaving {n : UInt16} (servers : 0 < n) (keyHash : K → UInt64) :
    FollowsOneMap T (Map.program K V n) .empty keyHash ∧
      FollowsOneMap T (Multimap.program K V n) .empty keyHash :=
  ⟨Map.lawful.follows_one_map Map.runs servers, Multimap.lawful.follows_one_map Multimap.runs servers⟩

/-- Three servers, strings as values, any number of clients. -/
theorem maps_in_every_interleaving_three_servers :
    (0 : UInt16) < 3 ∧ FollowsOneMap Nat (Multimap.program Nat String 3) .empty Nat.toUInt64 :=
  ⟨by decide, (maps_in_every_interleaving (by decide) _).2⟩

end Hcl.KeyValue
