import Mathlib.Algebra.GroupWithZero.Nat
import Hcl.Config.Configure
import Hcl.Config.UriFormat

/-!
The two readers of the server list: `ConfigurationManager::LoadServers` and `HCL::LoadURI`.

Both read the file line by line and repeat the host of a line as often as its count says.
`listedHosts` is what they read. `LoadServers` keeps the hosts; `LoadURI` makes a `URI` of each,
and that constructor may throw or write past its buffers. The readers agree exactly when it
does neither for any host of the file (`readersAgree_iff`).
-/

namespace Hcl.Config

open Hcl.Lib

/-! ### LoadServers -/

/-- One line of the file, with the hosts so far: `SERVER_LIST.emplace_back` for each server. -/
def loadServersLine (serverList : List CharStruct) (line : List Char) :
    Except Fault (List CharStruct) := do
  if line.isEmpty then return serverList
  let (host, count) := splitLine line
  let serverNodeName ← CharStruct.ofString host
  return (List.range count.toInt.toNat).foldl (fun hosts _ => hosts ++ [serverNodeName]) serverList

/-- `LoadServers` on the content of the file, or on a file that cannot be opened: `SERVER_LIST`
and `NUM_SERVERS`. -/
def loadServers (file : Option (List Char)) : Except Fault (List CharStruct × UInt32) := do
  let serverList ←
    match file with
    | none => pure []
    | some content => (getlines [] content).foldlM loadServersLine []
  return (serverList, serverList.length.toUInt32)

/-! ### The hosts of a file -/

/-- The hosts a line stands for. -/
def lineHosts (line : List Char) : List (List Char) :=
  if line.isEmpty then []
  else List.replicate (splitLine line).2.toInt.toNat (cString (splitLine line).1)

/-- The hosts a file lists. -/
def listedHosts (content : List Char) : List (List Char) := (getlines [] content).flatMap lineHosts

theorem splitLine_length_le (line : List Char) : (splitLine line).1.length ≤ line.length := by
  unfold splitLine
  split
  · exact (List.take_prefix _ _).length_le
  · exact Nat.le_refl _

/-- A name that fits its buffer. -/
def FitsName (line : List Char) : Prop := (cString (splitLine line).1).length ≤ 255

theorem fitsName_of_short {line : List Char} (short : line.length < 256) : FitsName line := by
  have cut : (cString (splitLine line).1).length ≤ (splitLine line).1.length :=
    (List.takeWhile_prefix _).length_le
  have host := splitLine_length_le line
  unfold FitsName
  omega

theorem ofString_host {line : List Char} (fits : FitsName line) :
    ∃ name, CharStruct.ofString (splitLine line).1 = .ok name ∧
      name.chars = cString (splitLine line).1 := by
  refine ⟨_, dif_pos fits, rfl⟩

/-! ### What the readers do with the hosts -/

section Readers

variable {port : UInt16} {uri : CharStruct} {names : List CharStruct} {i : UInt16}

/-- `LoadURI` from server `i` on: one `URI` for each name. -/
def Makes (port : UInt16) (uri : CharStruct) : UInt16 → List CharStruct → List URI → Prop
  | _, [], uris => uris = []
  | i, name :: names, uris => ∃ v vs, uris = v :: vs ∧ URI.new i uri name (port + i) = .ok v ∧
      Makes port uri (i + 1) names vs

theorem foldlM_loadServer_iff {made : List URI} {out : List URI × UInt16} :
    names.foldlM (fun out name => loadServer port uri name out 0) (made, i) = .ok out ↔
      ∃ vs, Makes port uri i names vs ∧ out = (made ++ vs, i + names.length.toUInt16) := by
  induction names generalizing made i with
  | nil =>
      constructor
      · rintro ⟨⟩
        exact ⟨[], rfl, by simp⟩
      · rintro ⟨_, rfl, rfl⟩
        simp only [List.append_nil]
        show Except.ok _ = Except.ok _
        simp
  | cons name names ih =>
      rw [List.foldlM_cons, bind_eq_ok_iff]
      have next : i + 1 + names.length.toUInt16 = i + (name :: names).length.toUInt16 := by
        show i + 1 + UInt16.ofNat names.length = i + UInt16.ofNat (names.length + 1)
        rw [UInt16.ofNat_add, UInt16.add_assoc, UInt16.add_comm 1]
        rfl
      constructor
      · rintro ⟨mid, first, rest⟩
        obtain ⟨v, new, done⟩ := bind_eq_ok_iff.mp first
        cases done
        obtain ⟨vs, makes, rfl⟩ := ih.mp rest
        refine ⟨v :: vs, ⟨v, vs, rfl, new, makes⟩, ?_⟩
        rw [List.append_assoc, next]
        rfl
      · rintro ⟨_, ⟨v, vs, rfl, new, makes⟩, rfl⟩
        refine ⟨(made ++ [v], i + 1), bind_eq_ok_iff.mpr ⟨v, new, rfl⟩, ih.mpr ⟨vs, makes, ?_⟩⟩
        rw [List.append_assoc, next]
        rfl

theorem exists_names {lines : List (List Char)} (fit : ∀ line ∈ lines, FitsName line) :
    ∃ names : List CharStruct, names.map CharStruct.chars = lines.flatMap lineHosts := by
  induction lines with
  | nil => exact ⟨[], rfl⟩
  | cons line lines ih =>
      obtain ⟨names, listed⟩ := ih fun l mem => fit l (List.mem_cons_of_mem _ mem)
      obtain ⟨name, -, chars⟩ := ofString_host (fit line List.mem_cons_self)
      rw [List.flatMap_cons, ← listed, lineHosts]
      split
      · exact ⟨names, rfl⟩
      · refine ⟨List.replicate (splitLine line).2.toInt.toNat name ++ names, ?_⟩
        rw [List.map_append, List.map_replicate, chars]

/-- A reader of lines that treats the servers of a line one by one treats the names of all
lines one by one. -/
theorem foldlM_lines {S : Type} {readLine : S → List Char → Except Fault S}
    {readName : S → CharStruct → Except Fault S}
    (reads : ∀ s line, readLine s line = if line.isEmpty then .ok s else
      CharStruct.ofString (splitLine line).1 >>= fun name =>
        (List.replicate (splitLine line).2.toInt.toNat name).foldlM readName s)
    {lines : List (List Char)} (fit : ∀ line ∈ lines, FitsName line)
    (listed : names.map CharStruct.chars = lines.flatMap lineHosts) (s : S) :
    lines.foldlM readLine s = names.foldlM readName s := by
  induction lines generalizing names s with
  | nil =>
      rw [List.map_eq_nil_iff.mp listed]
      rfl
  | cons line lines ih =>
      rw [List.flatMap_cons] at listed
      obtain ⟨front, later, rfl, front', later'⟩ := List.map_eq_append_iff.mp listed
      have rest := ih (fun l mem => fit l (List.mem_cons_of_mem _ mem)) later'
      obtain ⟨name, made, chars⟩ := ofString_host (fit line List.mem_cons_self)
      rw [List.foldlM_cons, reads, List.foldlM_append]
      by_cases blank : line.isEmpty = true
      · rw [lineHosts, if_pos blank] at front'
        rw [if_pos blank, ok_bind, List.map_eq_nil_iff.mp front', rest]
        rfl
      · rw [lineHosts, if_neg blank, ← chars, ← List.map_replicate] at front'
        have same := List.map_injective_iff.mpr (fun a b => CharStruct.ext) front'
        rw [if_neg blank, made, ok_bind, ← same]
        congr 1
        funext s'
        exact rest s'

theorem foldl_append_range {A : Type} (a : A) (n : Nat) (l : List A) :
    (List.range n).foldl (fun l _ => l ++ [a]) l = l ++ List.replicate n a := by
  induction n with
  | zero => simp
  | succ n ih =>
      rw [List.range_succ, List.foldl_append, ih, List.replicate_succ', ← List.append_assoc]
      rfl

theorem foldlM_range {S A : Type} {f : S → A → Except Fault S} {g : S → Nat → Except Fault S} {a : A}
    (same : ∀ s k, g s k = f s a) (n : Nat) (s : S) :
    (List.range n).foldlM g s = (List.replicate n a).foldlM f s := by
  induction n generalizing s with
  | zero => rfl
  | succ n ih =>
      rw [List.range_succ, List.replicate_succ', List.foldlM_append, List.foldlM_append, ih]
      simp only [List.foldlM_cons, List.foldlM_nil, same]

theorem foldlM_emplaceBack (l : List CharStruct) :
    names.foldlM (fun l name => (.ok (l ++ [name]) : Except Fault (List CharStruct))) l =
      .ok (l ++ names) := by
  induction names generalizing l with
  | nil =>
      rw [List.append_nil]
      rfl
  | cons name names ih =>
      rw [List.foldlM_cons, ok_bind, ih, List.append_assoc]
      rfl

theorem loadServersLine_eq (serverList : List CharStruct) (line : List Char) :
    loadServersLine serverList line = if line.isEmpty then .ok serverList else
      CharStruct.ofString (splitLine line).1 >>= fun name =>
        (List.replicate (splitLine line).2.toInt.toNat name).foldlM
          (fun l name => .ok (l ++ [name])) serverList := by
  unfold loadServersLine
  split
  · rfl
  · dsimp only
    congr 1
    funext name
    rw [foldlM_emplaceBack, foldl_append_range]
    rfl

theorem loadLine_eq (out : List URI × UInt16) (line : List Char) :
    loadLine port uri out line = if line.isEmpty then .ok out else
      CharStruct.ofString (splitLine line).1 >>= fun name =>
        (List.replicate (splitLine line).2.toInt.toNat name).foldlM
          (fun out name => loadServer port uri name out 0) out := by
  unfold loadLine
  split
  · rfl
  · dsimp only
    congr 1
    funext name
    have each : ∀ s k, loadServer port uri name s k = loadServer port uri name s 0 := fun s k => rfl
    exact foldlM_range (f := fun out name => loadServer port uri name out 0) each _ _

variable {content : List Char} (fit : ∀ line ∈ getlines [] content, FitsName line)
  (listed : names.map CharStruct.chars = listedHosts content)
include fit listed

theorem loadServers_eq : loadServers (some content) = .ok (names, names.length.toUInt32) := by
  rw [loadServers]
  dsimp only
  rw [foldlM_lines loadServersLine_eq fit listed, foldlM_emplaceBack]
  rfl

theorem loadURI_eq_ok_iff {uris : List URI} :
    loadURI port (some content) uri = .ok uris ↔ Makes port uri 0 names uris := by
  rw [loadURI, foldlM_lines loadLine_eq fit listed, bind_eq_ok_iff]
  constructor
  · rintro ⟨out, folded, done⟩
    obtain ⟨vs, makes, rfl⟩ := foldlM_loadServer_iff.mp folded
    cases done
    exact makes
  · intro makes
    exact ⟨_, foldlM_loadServer_iff.mpr ⟨uris, makes, rfl⟩, rfl⟩

end Readers

/-! ### Agreement -/

/-- The `URI` of a host can be made: the string for the server fits, and the constructor does
not look for an interface past the end of the text. -/
def Printable (uri : CharStruct) (host : List Char) (port : UInt16) : Prop :=
  ∀ p d n, UriFormat uri.chars p d n → (serverText p d host port).length ≤ 255 ∧
    (uri.chars = p ++ "://".toList ++ n → n.length ≤ 2 ∨ p.length + 3 ≤ n.length)

theorem printable_iff {uri name : CharStruct} {i port : UInt16} :
    Printable uri name.chars port ↔ ∃ v, URI.new i uri name port = .ok v := by
  constructor
  · intro printable
    obtain ⟨p, d, n, format⟩ := UriFormat.exists uri.chars
    exact (URI.new_isOk_iff format).mpr (printable p d n format)
  · intro made p d n format
    exact (URI.new_isOk_iff format).mp made

section Makes

variable {port : UInt16} {uri : CharStruct} {names : List CharStruct} {i : UInt16} {uris : List URI}

theorem Makes.ips (makes : Makes port uri i names uris) : uris.map URI.ip = names := by
  induction names generalizing i uris with
  | nil => exact congrArg _ makes
  | cons name names ih =>
      obtain ⟨v, vs, rfl, new, rest⟩ := makes
      obtain ⟨P, D, N, -, made⟩ := URI.new_eq_ok_iff.mp new
      rw [List.map_cons, made.ip, ih rest]

theorem Makes.port_eq (makes : Makes port uri i names uris) {k : Nat} {v : URI}
    (at' : uris[k]? = some v) : v.port = port + (i + UInt16.ofNat k) := by
  induction names generalizing i uris k with
  | nil =>
      cases makes
      cases at'
  | cons name names ih =>
      obtain ⟨w, vs, rfl, new, rest⟩ := makes
      cases k with
      | zero =>
          cases at'
          obtain ⟨P, D, N, -, made⟩ := URI.new_eq_ok_iff.mp new
          rw [made.port]
          simp
      | succ k =>
          rw [List.getElem?_cons_succ] at at'
          rw [ih rest at', UInt16.ofNat_add, UInt16.add_assoc, UInt16.add_comm 1]
          rfl

/-- All addresses can be made exactly when each of them can. -/
theorem exists_makes_iff : (∃ uris, Makes port uri i names uris) ↔
    ∀ k host, (names.map CharStruct.chars)[k]? = some host →
      Printable uri host (port + (i + UInt16.ofNat k)) := by
  induction names generalizing i with
  | nil =>
      constructor
      · rintro - k host ⟨⟩
      · intro _
        exact ⟨[], rfl⟩
  | cons name names ih =>
      have later : ∀ k, i + 1 + UInt16.ofNat k = i + UInt16.ofNat (k + 1) := by
        intro k
        rw [UInt16.ofNat_add, UInt16.add_assoc, UInt16.add_comm 1]
        rfl
      constructor
      · rintro ⟨_, v, vs, rfl, new, rest⟩ k host at'
        cases k with
        | zero =>
            cases at'
            have here := printable_iff.mpr ⟨v, new⟩
            simpa using here
        | succ k =>
            rw [← later]
            exact ih.mp ⟨vs, rest⟩ k host at'
      · intro printable
        have here : Printable uri name.chars (port + i) := by simpa using printable 0 name.chars rfl
        obtain ⟨v, new⟩ := printable_iff.mp here
        have rest : ∃ vs, Makes port uri (i + 1) names vs := by
          apply ih.mpr
          intro k host at'
          rw [later]
          exact printable (k + 1) host at'
        obtain ⟨vs, rest⟩ := rest
        exact ⟨v :: vs, v, vs, rfl, new, rest⟩

end Makes

/-! ### The documented format -/

/-- A line for `m` servers on `host`: `host:m`, or `host` alone for one. -/
inductive EntryLine : List Char → List Char × Nat → Prop where
  | counted (host : List Char) (m : Nat) : EntryLine (host ++ ':' :: Nat.toDigits 10 m) (host, m)
  | alone (host : List Char) : EntryLine host (host, 1)

/-- A file with one line for each entry and blank lines anywhere. The last line may end the
file. -/
inductive Documented : List Char → List (List Char × Nat) → Prop where
  | empty : Documented [] []
  | blank {text : List Char} {entries : List (List Char × Nat)} (rest : Documented text entries) :
      Documented ('\n' :: text) entries
  | entry {line text : List Char} {e : List Char × Nat} {entries : List (List Char × Nat)}
      (here : EntryLine line e) (rest : Documented text entries) :
      Documented (line ++ '\n' :: text) (e :: entries)
  | last {line : List Char} {e : List Char × Nat} (here : EntryLine line e) : Documented line [e]

/-- A host that can be written down, and a count that is an `int`. -/
structure ValidEntry (e : List Char × Nat) : Prop where
  nonempty : e.1 ≠ []
  noColon : ':' ∉ e.1
  noNewline : '\n' ∉ e.1
  short : e.1.length < 256
  positive : 1 ≤ e.2
  small : e.2 < 2147483648

/-- Each host, as often as it has servers. -/
def expand (entries : List (List Char × Nat)) : List (List Char) :=
  entries.flatMap fun e => List.replicate e.2 e.1

theorem digits_toDigits (m : Nat) : digits (Nat.toDigits 10 m) = m := by
  have all : (Nat.toDigits 10 m).takeWhile Char.isDigit = Nat.toDigits 10 m := by
    rw [List.takeWhile_eq_self_iff]
    intro c mem
    exact Nat.isDigit_of_mem_toDigits (by decide) (by decide) mem
  rw [digits, all]
  have := Nat.ofDigitChars_toDigits (b := 10) (n := m) (by decide) (by decide)
  rwa [Nat.ofDigitChars_eq_foldl] at this

theorem atoi_toDigits {m : Nat} (small : m < 2147483648) : (atoi (Nat.toDigits 10 m)).toInt.toNat = m := by
  have value := digits_toDigits m
  have digit : ∀ c ∈ Nat.toDigits 10 m, c.isDigit = true := fun c mem =>
    Nat.isDigit_of_mem_toDigits (by decide) (by decide) mem
  generalize Nat.toDigits 10 m = s at value digit
  have noSpace : s.dropWhile isSpace = s := by
    cases s with
    | nil => rfl
    | cons c s =>
        have here := digit c List.mem_cons_self
        have : isSpace c = false := by
          rw [Bool.eq_false_iff]
          intro space
          simp only [isSpace, Bool.or_eq_true, decide_eq_true_eq] at space
          rcases space with ((((rfl | rfl) | rfl) | rfl) | rfl) | rfl <;> cases here
        rw [List.dropWhile_cons, this]
        rfl
  unfold atoi
  rw [noSpace]
  dsimp only
  split
  · exact absurd (digit '-' List.mem_cons_self) (by decide)
  · exact absurd (digit '+' List.mem_cons_self) (by decide)
  · have clamped : max (-9223372036854775808) (min 9223372036854775807 (digits s : Int)) = m := by
      rw [value]
      omega
    rw [clamped, Int32.toInt_ofInt_of_le (by omega) (by omega)]
    rfl

section Lines

variable {line text : List Char} {e : List Char × Nat}

theorem getlines_newline {acc : List Char} (noNewline : '\n' ∉ line) :
    getlines acc (line ++ '\n' :: text) = (acc.reverse ++ line) :: getlines [] text := by
  induction line generalizing acc with
  | nil => simp [getlines]
  | cons c line ih =>
      obtain ⟨other, noNewline⟩ := not_or.mp (mt List.mem_cons.mpr noNewline)
      rw [List.cons_append, getlines, if_neg (Ne.symm other), ih noNewline]
      simp

theorem getlines_last (acc : List Char) (noNewline : '\n' ∉ line)
    (nonempty : acc.reverse ++ line ≠ []) : getlines acc line = [acc.reverse ++ line] := by
  induction line generalizing acc with
  | nil =>
      rw [List.append_nil, List.reverse_ne_nil_iff] at nonempty
      simp [getlines, nonempty]
  | cons c line ih =>
      obtain ⟨other, noNewline⟩ := not_or.mp (mt List.mem_cons.mpr noNewline)
      rw [getlines, if_neg (Ne.symm other), ih (c :: acc) noNewline (by simp)]
      simp

theorem EntryLine.noNewline (here : EntryLine line e) (valid : ValidEntry e) : '\n' ∉ line := by
  cases here with
  | counted host m =>
      intro mem
      rcases List.mem_append.mp mem with inHost | inCount
      · exact valid.noNewline inHost
      · rcases List.mem_cons.mp inCount with contra | digit
        · cases contra
        · exact absurd (Nat.isDigit_of_mem_toDigits (by decide) (by decide) digit) (by decide)
  | alone host => exact valid.noNewline

theorem EntryLine.splitLine_eq (here : EntryLine line e) (valid : ValidEntry e) :
    (splitLine line).1 = e.1 ∧ (splitLine line).2.toInt.toNat = e.2 := by
  cases here with
  | counted host m =>
      have colon : findSub ":".toList (host ++ ':' :: Nat.toDigits 10 m) = some host.length :=
        findSub_singleton valid.noColon
      simp only [splitLine, colon, List.take_left, true_and]
      rw [← List.drop_drop, List.drop_left]
      exact atoi_toDigits valid.small
  | alone =>
      have colon : findSub ":".toList line = none := findSub_singleton_eq_none valid.noColon
      simp only [splitLine, colon, true_and]
      rfl

theorem EntryLine.nonempty (here : EntryLine line e) (valid : ValidEntry e) : line ≠ [] := by
  cases here with
  | counted host m => simp
  | alone host => exact valid.nonempty

theorem EntryLine.lineHosts_eq (here : EntryLine line e) (valid : ValidEntry e) :
    lineHosts line = List.replicate e.2 (cString e.1) := by
  obtain ⟨host, count⟩ := here.splitLine_eq valid
  rw [lineHosts, if_neg (by simpa using here.nonempty valid), host, count]

theorem EntryLine.fitsName (here : EntryLine line e) (valid : ValidEntry e) : FitsName line := by
  have cut : (cString e.1).length ≤ e.1.length := (List.takeWhile_prefix _).length_le
  have short := valid.short
  rw [FitsName, (here.splitLine_eq valid).1]
  omega

/-- The lines can be read and list the hosts. -/
def Lists (lines hosts : List (List Char)) : Prop :=
  (∀ line ∈ lines, FitsName line) ∧ lines.flatMap lineHosts = hosts

theorem Lists.cons {lines hosts : List (List Char)} (fits : FitsName line) (rest : Lists lines hosts) :
    Lists (line :: lines) (lineHosts line ++ hosts) := by
  constructor
  · intro l mem
    rcases List.mem_cons.mp mem with rfl | mem
    · exact fits
    · exact rest.1 l mem
  · rw [List.flatMap_cons, rest.2]

/-- What both readers take a documented file for. -/
theorem Documented.lists {entries : List (List Char × Nat)} (doc : Documented text entries)
    (valid : ∀ e ∈ entries, ValidEntry e) :
    Lists (getlines [] text) (entries.flatMap fun e => List.replicate e.2 (cString e.1)) := by
  induction doc with
  | empty =>
      constructor
      · intro line mem
        cases mem
      · rfl
  | @blank text entries rest ih =>
      have lines : getlines [] ('\n' :: text) = [] :: getlines [] text :=
        getlines_newline (List.not_mem_nil : '\n' ∉ ([] : List Char))
      have fits : FitsName [] := Nat.zero_le 255
      rw [lines]
      exact (ih valid).cons fits
  | @entry line text e entries here rest ih =>
      have validE := valid e List.mem_cons_self
      rw [getlines_newline (here.noNewline validE), List.flatMap_cons, ← here.lineHosts_eq validE]
      exact (ih fun d mem => valid d (List.mem_cons_of_mem _ mem)).cons (here.fitsName validE)
  | @last line e here =>
      have validE := valid e List.mem_cons_self
      rw [getlines_last [] (here.noNewline validE) (here.nonempty validE), List.flatMap_cons,
        ← here.lineHosts_eq validE]
      refine Lists.cons (here.fitsName validE) ?_
      constructor
      · intro line mem
        cases mem
      · rfl

end Lines

/-! ### Both readers -/

/-- The readers return lists of the same length with the same host at each position. -/
def ReadersAgree (port : UInt16) (uri : CharStruct) (content : List Char) : Prop :=
  ∃ hosts n uris, loadServers (some content) = .ok (hosts, n) ∧
    loadURI port (some content) uri = .ok uris ∧ uris.map URI.ip = hosts

/-- The readers return what the entries stand for: each host as often as its count says, and
where the ports suffice the number of servers and the ports in a row. -/
def ReadsEntries (port : UInt16) (uri : CharStruct) (text : List Char)
    (entries : List (List Char × Nat)) : Prop :=
  ∃ hosts n uris, loadServers (some text) = .ok (hosts, n) ∧ loadURI port (some text) uri = .ok uris ∧
    hosts.map CharStruct.chars = expand entries ∧ uris.map (·.ip.chars) = expand entries ∧
    (port.toNat + (entries.map Prod.snd).sum < 65536 →
      n.toNat = (entries.map Prod.snd).sum ∧
        ∀ k v, uris[k]? = some v → v.port.toNat = port.toNat + k)

/-- Every host of a list can be made into the address of its server. -/
def AllPrintable (port : UInt16) (uri : CharStruct) (hosts : List (List Char)) : Prop :=
  ∀ k host, hosts[k]? = some host → Printable uri host (port + UInt16.ofNat k)

theorem exists_loadURI_iff {port : UInt16} {uri : CharStruct} {content : List Char}
    {names : List CharStruct} (fit : ∀ line ∈ getlines [] content, FitsName line)
    (listed : names.map CharStruct.chars = listedHosts content) :
    (∃ uris, loadURI port (some content) uri = .ok uris) ↔
      AllPrintable port uri (names.map CharStruct.chars) := by
  simp only [loadURI_eq_ok_iff fit listed, exists_makes_iff, UInt16.zero_add]
  rfl

theorem readersAgree_iff {port : UInt16} {uri : CharStruct} {content : List Char}
    (fit : ∀ line ∈ getlines [] content, FitsName line) :
    ReadersAgree port uri content ↔ AllPrintable port uri (listedHosts content) := by
  obtain ⟨names, listed⟩ := exists_names fit
  rw [← listedHosts] at listed
  rw [← listed, ← exists_loadURI_iff fit listed]
  constructor
  · rintro ⟨hosts, n, uris, -, made, -⟩
    exact ⟨uris, made⟩
  · rintro ⟨uris, made⟩
    exact ⟨names, _, uris, loadServers_eq fit listed, made, ((loadURI_eq_ok_iff fit listed).mp made).ips⟩

/-- Hosts survive being C strings exactly when they contain no NUL. -/
theorem flatMap_cString_eq_expand_iff {entries : List (List Char × Nat)}
    (valid : ∀ e ∈ entries, ValidEntry e) :
    (entries.flatMap fun e => List.replicate e.2 (cString e.1)) = expand entries ↔
      ∀ e ∈ entries, '\x00' ∉ e.1 := by
  unfold expand
  induction entries with
  | nil => simp
  | cons e entries ih =>
      have rest := ih fun d mem => valid d (List.mem_cons_of_mem _ mem)
      have positive : e.2 ≠ 0 := by
        have := (valid e List.mem_cons_self).positive
        omega
      rw [List.forall_mem_cons, ← rest, ← cString_eq_self_iff, List.flatMap_cons, List.flatMap_cons]
      constructor
      · intro same
        obtain ⟨first, later⟩ := List.append_inj same (by simp)
        exact ⟨(List.replicate_right_inj positive).mp first, later⟩
      · rintro ⟨first, later⟩
        rw [first, later]

theorem length_expand (entries : List (List Char × Nat)) :
    (expand entries).length = (entries.map Prod.snd).sum := by
  simp [expand, List.length_flatMap]

theorem readsEntries_iff {port : UInt16} {uri : CharStruct} {text : List Char}
    {entries : List (List Char × Nat)} (doc : Documented text entries)
    (valid : ∀ e ∈ entries, ValidEntry e) : ReadsEntries port uri text entries ↔
      (∀ e ∈ entries, '\x00' ∉ e.1) ∧ AllPrintable port uri (expand entries) := by
  obtain ⟨fit, listed⟩ := doc.lists valid
  obtain ⟨names, named⟩ := exists_names fit
  rw [← flatMap_cString_eq_expand_iff valid, ← listed, ← named]
  have servers := loadServers_eq fit named
  constructor
  · rintro ⟨hosts, n, uris, read, made, hosts', -⟩
    cases servers.symm.trans read
    refine ⟨hosts', ?_⟩
    rw [← hosts', ← exists_loadURI_iff fit named]
    exact ⟨uris, made⟩
  · rintro ⟨same, printable⟩
    rw [← same, ← exists_loadURI_iff fit named] at printable
    obtain ⟨uris, made⟩ := printable
    have makes := (loadURI_eq_ok_iff fit named).mp made
    have ips : uris.map (·.ip.chars) = names.map CharStruct.chars := by
      rw [← makes.ips, List.map_map]
      rfl
    refine ⟨names, _, uris, servers, made, same, ips.trans same, ?_⟩
    intro enough
    have total : names.length = (entries.map Prod.snd).sum := by
      rw [← length_expand, ← same, List.length_map]
    have sizes : uris.length = names.length := by
      simpa using congrArg List.length ips
    constructor
    · rw [← total] at enough ⊢
      show names.length % 4294967296 = _
      exact Nat.mod_eq_of_lt (by omega)
    · intro k v at'
      have inside : k < uris.length := (List.getElem?_eq_some_iff.mp at').1
      rw [makes.port_eq at', UInt16.zero_add, UInt16.toNat_add, UInt16.toNat_ofNat']
      omega

/-- **The two readers agree on a file, and read a documented one as its entries, exactly when
every host of the file can be made into the address of its server** and, for the entries, no
host contains a NUL. -/
theorem both_readers_iff (port : UInt16) (uri : CharStruct) :
    (∀ content, (∀ line ∈ getlines [] content, line.length < 256) →
      (ReadersAgree port uri content ↔ AllPrintable port uri (listedHosts content))) ∧
    ∀ text entries, Documented text entries → (∀ e ∈ entries, ValidEntry e) →
      (ReadsEntries port uri text entries ↔
        (∀ e ∈ entries, '\x00' ∉ e.1) ∧ AllPrintable port uri (expand entries)) := by
  constructor
  · intro content short
    exact readersAgree_iff fun line mem => fitsName_of_short (short line mem)
  · intro text entries doc valid
    exact readsEntries_iff doc valid

/-- A file of one server, a URI without a device: `LoadServers` reads the host, `LoadURI`
throws. -/
theorem not_both_readers_no_device :
    (∀ line ∈ getlines [] "a".toList, line.length < 256) ∧
    Documented "a".toList [("a".toList, 1)] ∧ ValidEntry ("a".toList, 1) ∧
    loadServers (some "a".toList) = .ok ([⟨"a".toList, by decide, by decide⟩], 1) ∧
    loadURI 9000 (some "a".toList) eth0 = .error .outOfRange ∧
    ¬ ReadersAgree 9000 eth0 "a".toList ∧
    ¬ ReadsEntries 9000 eth0 "a".toList [("a".toList, 1)] := by
  have thrown : loadURI 9000 (some "a".toList) eth0 = .error .outOfRange := rfl
  refine ⟨by decide, .last (.alone _),
    ⟨by decide, by decide, by decide, by decide, by decide, by decide⟩, rfl, thrown, ?_, ?_⟩
  · rintro ⟨hosts, n, uris, -, made, -⟩
    cases thrown.symm.trans made
  · rintro ⟨hosts, n, uris, -, made, -⟩
    cases thrown.symm.trans made

/-- A file of three servers, read as its entries say. -/
theorem both_readers_three_servers :
    ReadsEntries 9000 ConfigurationManager.default.uri "a:2\n\nb\n".toList
      [("a".toList, 2), ("b".toList, 1)] := by
  have format : UriFormat ConfigurationManager.default.uri.chars "ofi+tcp".toList [] [] :=
    UriFormat.noDevice (p := "ofi+tcp".toList) (n := []) (by decide) (by decide)
  have printable : ∀ (name : CharStruct) (port : UInt16),
      (serverText "ofi+tcp".toList [] name.chars port).length ≤ 255 →
        Printable ConfigurationManager.default.uri name.chars port := fun name port fits =>
    printable_iff.mpr ((URI.new_isOk_iff (i := 0) format).mpr ⟨fits, fun _ => Or.inl (by decide)⟩)
  have doc : Documented "a:2\n\nb\n".toList [("a".toList, 2), ("b".toList, 1)] :=
    .entry (.counted "a".toList 2) (.blank (.entry (.alone "b".toList) .empty))
  refine ((both_readers_iff 9000 ConfigurationManager.default.uri).2 _ _ doc ?_).mpr ⟨?_, ?_⟩
  · intro e mem
    simp only [List.mem_cons, List.not_mem_nil, or_false] at mem
    rcases mem with rfl | rfl
    · exact ⟨by decide, by decide, by decide, by decide, by decide, by decide⟩
    · exact ⟨by decide, by decide, by decide, by decide, by decide, by decide⟩
  · decide
  · intro k host at'
    rcases k with - | - | - | k
    · cases at'
      exact printable ⟨"a".toList, by decide, by decide⟩ _ (by decide)
    · cases at'
      exact printable ⟨"a".toList, by decide, by decide⟩ _ (by decide)
    · cases at'
      exact printable ⟨"b".toList, by decide, by decide⟩ _ (by decide)
    · cases at'

end Hcl.Config
