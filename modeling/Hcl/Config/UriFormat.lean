import Mathlib.Data.List.Infix
import Hcl.Lib.Faults
import Hcl.Config.Uri

/-!
`URI` and the documented format of a user's URI, `<PROTOCOL>://<DEVICE>/<INTERFACE>`.

`UriFormat` reads the format off the text. The constructor agrees with it where a device is
given; where none is, it takes the start of the interface from the wrong string, and it never
stores its index (`parses_iff`). Whether it comes back at all is `URI.new_isOk_iff`.
-/

namespace Hcl.Config

open Hcl.Lib

/-! ### Searching a string -/

section Search

variable {c : Char} {p rest s : List Char}

theorem findSub_singleton (outside : c ∉ p) : findSub [c] (p ++ c :: rest) = some p.length := by
  induction p with
  | nil => simp [findSub]
  | cons d p ih =>
      obtain ⟨other, outside⟩ := not_or.mp (mt List.mem_cons.mpr outside)
      simp [findSub, other, ih outside]

theorem findSub_singleton_eq_none (outside : c ∉ s) : findSub [c] s = none := by
  induction s with
  | nil => rfl
  | cons d s ih =>
      obtain ⟨other, outside⟩ := not_or.mp (mt List.mem_cons.mpr outside)
      simp [findSub, other, ih outside]

theorem findSub_eq_none {pattern : List Char} (absent : ¬ pattern <:+: s) :
    findSub pattern s = none := by
  induction s with
  | nil =>
      have nonempty : pattern ≠ [] := by
        rintro rfl
        exact absent List.nil_infix
      simp [findSub, nonempty]
  | cons d s ih =>
      have notHere : ¬ pattern.isPrefixOf (d :: s) = true := fun here =>
        absent (List.isPrefixOf_iff_prefix.mp here).isInfix
      rw [findSub, if_neg notHere, ih fun later => absent (later.trans (List.suffix_cons d s).isInfix)]
      rfl

/-- The separator starts with a character that does not occur in it again, so no occurrence
straddles the end of a protocol that is free of it. -/
theorem findSub_scheme (free : ¬ "://".toList <:+: p) :
    findSub "://".toList (p ++ "://".toList ++ rest) = some p.length := by
  induction p with
  | nil => rfl
  | cons d p ih =>
      have notHere : ¬ "://".toList.isPrefixOf (d :: p ++ "://".toList ++ rest) = true := by
        intro here
        rcases p with - | ⟨e, - | ⟨f, q⟩⟩
        · simp at here
        · simp at here
        · simp at here
          obtain ⟨rfl, rfl, rfl⟩ := here
          exact free ⟨[], q, rfl⟩
      rw [List.cons_append, List.cons_append] at notHere ⊢
      rw [findSub, if_neg notHere, ih fun later => free (later.trans (List.suffix_cons d p).isInfix)]
      rfl

end Search

/-! ### Putting strings together -/

/-- The characters before the first NUL. -/
def cString (s : List Char) : List Char := s.takeWhile (· ≠ '\x00')

theorem cString_eq_self_iff {s : List Char} : cString s = s ↔ '\x00' ∉ s := by
  rw [cString, List.takeWhile_eq_self_iff]
  constructor
  · intro clean mem
    exact absurd (clean _ mem) (by decide)
  · intro clean c mem
    exact decide_eq_true (ne_of_mem_of_not_mem mem clean)

namespace CharStruct

@[ext] theorem ext {a b : CharStruct} (same : a.chars = b.chars) : a = b := by
  cases a
  cases b
  cases same
  rfl

theorem ofString_eq_ok_iff {s : List Char} (clean : '\x00' ∉ s) {c : CharStruct} :
    ofString s = .ok c ↔ c.chars = s := by
  have whole : s.takeWhile (· ≠ '\x00') = s := cString_eq_self_iff.mpr clean
  unfold ofString
  simp only [whole]
  split
  · rename_i fits
    constructor
    · rintro ⟨⟩
      rfl
    · intro same
      exact congrArg Except.ok (ext same.symm)
  · rename_i long
    constructor
    · intro contra
      cases contra
    · rintro rfl
      exact absurd c.fits long

theorem add_eq_ok_iff {a c : CharStruct} {s : List Char} (clean : '\x00' ∉ s) :
    a.add s = .ok c ↔ c.chars = a.chars ++ s :=
  ofString_eq_ok_iff fun mem => (List.mem_append.mp mem).elim a.noNul clean

/-- A part of a `CharStruct` makes a `CharStruct`. -/
theorem ofString_part {a : CharStruct} {s : List Char} (part : s <:+: a.chars) :
    ∃ c, ofString s = .ok c ∧ c.chars = s := by
  have clean : '\x00' ∉ s := fun mem => a.noNul (part.subset mem)
  exact ⟨⟨s, part.length_le.trans a.fits, clean⟩, (ofString_eq_ok_iff clean).mpr rfl, rfl⟩

end CharStruct

/-! ### The format -/

/-- How a user's URI is to be read: its protocol, its device and its interface. -/
inductive UriFormat : List Char → List Char → List Char → List Char → Prop where
  | bare {u : List Char} (absent : ¬ "://".toList <:+: u) : UriFormat u u [] []
  | noDevice {p n : List Char} (free : ¬ "://".toList <:+: p) (noSlash : '/' ∉ n) :
      UriFormat (p ++ "://".toList ++ n) p [] n
  | device {p d n : List Char} (free : ¬ "://".toList <:+: p) (noSlash : '/' ∉ d) :
      UriFormat (p ++ "://".toList ++ (d ++ '/' :: n)) p d n

/-- A text that contains the separator, cut at its first occurrence. -/
theorem exists_scheme {u : List Char} (present : "://".toList <:+: u) :
    ∃ p rest, u = p ++ "://".toList ++ rest ∧ ¬ "://".toList <:+: p := by
  induction u with
  | nil => exact absurd present (by decide)
  | cons c u ih =>
      by_cases here : "://".toList <+: c :: u
      · obtain ⟨rest, eq⟩ := here
        exact ⟨[], rest, eq.symm, by decide⟩
      · obtain later := (List.infix_cons_iff.mp present).resolve_left here
        obtain ⟨p, rest, rfl, free⟩ := ih later
        refine ⟨c :: p, rest, rfl, ?_⟩
        intro inside
        rcases List.infix_cons_iff.mp inside with front | tail
        · exact here ((front.trans (List.prefix_append _ _)).trans (List.prefix_append _ _))
        · exact free tail

/-- Every text has a format. -/
theorem UriFormat.exists (u : List Char) : ∃ p d n, UriFormat u p d n := by
  by_cases present : "://".toList <:+: u
  · obtain ⟨p, rest, rfl, free⟩ := exists_scheme present
    by_cases slash : '/' ∈ rest
    · obtain ⟨d, n, rfl, noSlash⟩ := List.eq_append_cons_of_mem slash
      exact ⟨p, d, n, .device free noSlash⟩
    · exact ⟨p, [], rest, .noDevice free slash⟩
  · exact ⟨u, [], [], .bare present⟩

/-! ### The parts the constructor finds -/

section Split

variable {uri : CharStruct} {p d n rest : List Char}

theorem substr_eq_drop {s : List Char} {pos len : Nat} (inside : pos ≤ s.length)
    (enough : s.length ≤ pos + len) : substr s pos len = .ok (s.drop pos) := by
  rw [substr, if_neg (Nat.not_lt.mpr inside), List.take_of_length_le]
  rw [List.length_drop]
  omega

theorem splitUri_bare (absent : ¬ "://".toList <:+: uri.chars) :
    splitUri uri = .ok (uri, CharStruct.empty, CharStruct.empty) := by
  simp only [splitUri, findSub_eq_none absent]
  rfl

/-- The part of `splitUri` behind the separator. -/
theorem splitUri_scheme (format : uri.chars = p ++ "://".toList ++ rest)
    (free : ¬ "://".toList <:+: p) {P : CharStruct} (protocol : P.chars = p) :
    splitUri uri = (do
      let (device, interfaceStartPos) ←
        match findSub "/".toList rest with
        | none => pure (CharStruct.empty, p.length + 3)
        | some deviceEndPos => do
            let device ← CharStruct.ofString (rest.take deviceEndPos)
            pure (device, deviceEndPos + 1)
      let interface ←
        if interfaceStartPos < p.length + rest.length + 1 then do
          CharStruct.ofString (← substr rest interfaceStartPos (p.length + rest.length + 1))
        else pure CharStruct.empty
      return (P, device, interface)) := by
  have scheme : findSub "://".toList uri.chars = some p.length := by
    rw [format]
    exact findSub_scheme free
  have size : uri.chars.length = p.length + rest.length + 3 := by
    rw [format]
    simp
    omega
  have front : uri.chars.take p.length = p := by
    rw [format, List.append_assoc, List.take_left]
  have made : CharStruct.ofString p = .ok P := by
    rw [CharStruct.ofString_eq_ok_iff (protocol ▸ P.noNul), protocol]
  have after : substr uri.chars (p.length + 3) uri.chars.length = .ok rest := by
    rw [substr_eq_drop (by omega) (by omega), format]
    congr 1
    exact List.drop_left' (by simp)
  have last : uri.chars.length - 2 = p.length + rest.length + 1 := by omega
  simp only [splitUri, scheme, front, made, after, last]
  rfl

/-- With a device, positions are taken in the string they are used in. -/
theorem splitUri_device (format : uri.chars = p ++ "://".toList ++ (d ++ '/' :: n))
    (free : ¬ "://".toList <:+: p) (noSlash : '/' ∉ d) {P D N : CharStruct} (protocol : P.chars = p)
    (device : D.chars = d) (interface : N.chars = n) : splitUri uri = .ok (P, D, N) := by
  have slash : findSub "/".toList (d ++ '/' :: n) = some d.length := findSub_singleton noSlash
  have madeD : CharStruct.ofString ((d ++ '/' :: n).take d.length) = .ok D := by
    rw [List.take_left, CharStruct.ofString_eq_ok_iff (device ▸ D.noNul), device]
  have madeN : CharStruct.ofString n = .ok N := by
    rw [CharStruct.ofString_eq_ok_iff (interface ▸ N.noNul), interface]
  have size : (d ++ '/' :: n).length = d.length + n.length + 1 := by
    simp
    omega
  have after : substr (d ++ '/' :: n) (d.length + 1) (p.length + (d ++ '/' :: n).length + 1) =
      .ok n := by
    rw [substr_eq_drop (by omega) (by omega), ← List.drop_drop, List.drop_left]
    rfl
  have short : d.length + 1 < p.length + (d ++ '/' :: n).length + 1 := by omega
  rw [splitUri_scheme format free protocol]
  simp only [slash, madeD, ok_bind, pure_bind, if_pos short, after, madeN]
  rfl

/-- Without a device the position of the interface in the whole string is used in the rest. -/
theorem splitUri_noDevice (format : uri.chars = p ++ "://".toList ++ rest)
    (free : ¬ "://".toList <:+: p) (noSlash : '/' ∉ rest) {P : CharStruct} (protocol : P.chars = p) :
    splitUri uri =
      if rest.length ≤ 2 then .ok (P, CharStruct.empty, CharStruct.empty)
      else do
        let interface ← CharStruct.ofString
          (← substr rest (p.length + 3) (p.length + rest.length + 1))
        return (P, CharStruct.empty, interface) := by
  have slash : findSub "/".toList rest = none := findSub_singleton_eq_none noSlash
  rw [splitUri_scheme format free protocol]
  simp only [slash, pure_bind]
  by_cases short : rest.length ≤ 2
  · rw [if_pos short, if_neg (by omega)]
    rfl
  · rw [if_neg short, if_pos (by omega)]

end Split

/-! ### The strings the constructor prints -/

/-- `[device/]`. -/
def devicePart (device : List Char) : List Char :=
  if device.length > 0 then device ++ "/".toList else []

/-- `ip:port`. -/
def addressText (ip : List Char) (port : UInt16) : List Char :=
  ip ++ ":".toList ++ portText port

/-- `protocol://[device/]ip:port`. -/
def serverText (protocol device ip : List Char) (port : UInt16) : List Char :=
  protocol ++ "://".toList ++ devicePart device ++ addressText ip port

/-- `protocol://[device/]interface`. -/
def endpointText (protocol device interface : List Char) : List Char :=
  protocol ++ "://".toList ++ devicePart device ++ interface

/-- What the constructor makes of the three parts. -/
structure URI.Made (uri ip : CharStruct) (port : UInt16) (P D N : CharStruct) (v : URI) : Prop where
  serverIdx : v.serverIdx = 0
  protocol : v.protocol = P
  userUri : v.userUri = uri
  device : v.device = D
  interface : v.interface = N
  clientUri : v.clientUri.chars = P.chars ++ "://".toList ++ addressText ip.chars port
  serverUri : v.serverUri.chars = serverText P.chars D.chars ip.chars port
  endpointUri : v.endpointUri.chars = endpointText P.chars D.chars N.chars
  ip : v.ip = ip
  port : v.port = port

theorem portText_noNul (port : UInt16) : '\x00' ∉ portText port := by
  intro mem
  have digit := Nat.isDigit_of_mem_toDigits (by decide) (by decide) mem
  exact absurd digit (by decide)

theorem addressText_noNul (ip : CharStruct) (port : UInt16) : '\x00' ∉ addressText ip.chars port := by
  simp only [addressText, List.mem_append, not_or]
  exact ⟨⟨ip.noNul, by decide⟩, portText_noNul port⟩

/-- The string before the address or the interface: the protocol and, if there is one, the
device. -/
def withDevice (scheme device : CharStruct) : Except Fault CharStruct :=
  if device.size > 0 then do scheme.add (← device.add "/".toList).chars else pure scheme

theorem withDevice_eq_ok_iff {scheme D c : CharStruct} :
    withDevice scheme D = .ok c ↔ c.chars = scheme.chars ++ devicePart D.chars := by
  unfold withDevice devicePart CharStruct.size
  split
  · rw [bind_eq_ok_iff]
    have clean : '\x00' ∉ D.chars ++ "/".toList := by
      simp only [List.mem_append, not_or]
      exact ⟨D.noNul, by decide⟩
    constructor
    · rintro ⟨e, slashed, done⟩
      rw [CharStruct.add_eq_ok_iff (by decide)] at slashed
      rw [CharStruct.add_eq_ok_iff (slashed ▸ clean), slashed] at done
      exact done
    · intro chars
      obtain ⟨e, made, charsE⟩ := CharStruct.ofString_part (a := c)
        (s := D.chars ++ "/".toList) (chars ▸ List.infix_append_right)
      refine ⟨e, made, ?_⟩
      rw [CharStruct.add_eq_ok_iff (charsE ▸ clean), charsE]
      exact chars
  · rw [List.append_nil]
    constructor
    · rintro ⟨⟩
      rfl
    · intro chars
      exact congrArg Except.ok (CharStruct.ext chars.symm)

theorem URI.new_eq (i : UInt16) (uri ip : CharStruct) (port : UInt16) :
    URI.new i uri ip port = splitUri uri >>= fun parts => do
      let scheme ← parts.1.add "://".toList
      let address ← (← ip.add ":".toList).add (portText port)
      let withDevice ← withDevice scheme parts.2.1
      let serverUri ← withDevice.add address.chars
      let clientUri ← scheme.add address.chars
      let endpointUri ← withDevice.add parts.2.2.chars
      return { serverIdx := 0, protocol := parts.1, userUri := uri, device := parts.2.1
               interface := parts.2.2, ip, clientUri, serverUri, endpointUri, port } := by
  unfold URI.new
  congr 1
  funext ⟨P, D, N⟩
  unfold withDevice
  dsimp only
  split
  · simp only [bind_assoc]
  · rfl

/-- The constructor succeeds exactly when the parts are found and the strings fit. -/
theorem URI.new_eq_ok_iff {i : UInt16} {uri ip : CharStruct} {port : UInt16} {v : URI} :
    URI.new i uri ip port = .ok v ↔
      ∃ P D N, splitUri uri = .ok (P, D, N) ∧ URI.Made uri ip port P D N v := by
  rw [URI.new_eq, bind_eq_ok_iff]
  constructor
  · rintro ⟨⟨P, D, N⟩, split, done⟩
    refine ⟨P, D, N, split, ?_⟩
    obtain ⟨scheme, madeScheme, done⟩ := bind_eq_ok_iff.mp done
    obtain ⟨host, madeHost, done⟩ := bind_eq_ok_iff.mp done
    obtain ⟨address, madeAddress, done⟩ := bind_eq_ok_iff.mp done
    obtain ⟨front, madeFront, done⟩ := bind_eq_ok_iff.mp done
    obtain ⟨serverUri, madeServer, done⟩ := bind_eq_ok_iff.mp done
    obtain ⟨clientUri, madeClient, done⟩ := bind_eq_ok_iff.mp done
    obtain ⟨endpointUri, madeEndpoint, done⟩ := bind_eq_ok_iff.mp done
    cases done
    rw [CharStruct.add_eq_ok_iff (by decide)] at madeScheme madeHost
    rw [CharStruct.add_eq_ok_iff (portText_noNul port), madeHost] at madeAddress
    rw [withDevice_eq_ok_iff, madeScheme] at madeFront
    rw [CharStruct.add_eq_ok_iff address.noNul, madeAddress] at madeServer madeClient
    rw [CharStruct.add_eq_ok_iff N.noNul, madeFront] at madeEndpoint
    rw [madeFront] at madeServer
    rw [madeScheme] at madeClient
    exact ⟨rfl, rfl, rfl, rfl, rfl, madeClient, madeServer, madeEndpoint, rfl, rfl⟩
  · rintro ⟨P, D, N, split, made⟩
    refine ⟨(P, D, N), split, ?_⟩
    -- Each string on the way is a part of the server's.
    have whole := made.serverUri
    unfold serverText at whole
    have partScheme : P.chars ++ "://".toList <:+: v.serverUri.chars :=
      whole ▸ ⟨[], devicePart D.chars ++ addressText ip.chars port, by simp⟩
    have partFront : P.chars ++ "://".toList ++ devicePart D.chars <:+: v.serverUri.chars :=
      whole ▸ ⟨[], addressText ip.chars port, by simp⟩
    have partHost : ip.chars ++ ":".toList <:+: v.serverUri.chars :=
      whole ▸ ⟨P.chars ++ "://".toList ++ devicePart D.chars, portText port, by simp [addressText]⟩
    have partAddress : ip.chars ++ ":".toList ++ portText port <:+: v.serverUri.chars :=
      whole ▸ ⟨P.chars ++ "://".toList ++ devicePart D.chars, [], by simp [addressText]⟩
    obtain ⟨scheme, madeScheme, charsScheme⟩ := CharStruct.ofString_part partScheme
    obtain ⟨front, -, charsFront⟩ := CharStruct.ofString_part partFront
    obtain ⟨host, madeHost, charsHost⟩ := CharStruct.ofString_part partHost
    rw [← charsScheme] at charsFront
    rw [← charsHost] at partAddress
    obtain ⟨address, madeAddress, charsAddress⟩ := CharStruct.ofString_part partAddress
    rw [charsHost] at charsAddress
    have madeServer : front.add address.chars = .ok v.serverUri := by
      rw [CharStruct.add_eq_ok_iff address.noNul, whole, charsFront, charsScheme, charsAddress]
      rfl
    have madeClient : scheme.add address.chars = .ok v.clientUri := by
      rw [CharStruct.add_eq_ok_iff address.noNul, made.clientUri, charsScheme, charsAddress]
      rfl
    have madeEndpoint : front.add N.chars = .ok v.endpointUri := by
      rw [CharStruct.add_eq_ok_iff N.noNul, made.endpointUri, charsFront, charsScheme]
      rfl
    refine bind_eq_ok_iff.mpr ⟨scheme, madeScheme, ?_⟩
    refine bind_eq_ok_iff.mpr ⟨host, madeHost, ?_⟩
    refine bind_eq_ok_iff.mpr ⟨address, madeAddress, ?_⟩
    refine bind_eq_ok_iff.mpr ⟨front, withDevice_eq_ok_iff.mpr charsFront, ?_⟩
    refine bind_eq_ok_iff.mpr ⟨v.serverUri, madeServer, ?_⟩
    refine bind_eq_ok_iff.mpr ⟨v.clientUri, madeClient, ?_⟩
    refine bind_eq_ok_iff.mpr ⟨v.endpointUri, madeEndpoint, ?_⟩
    obtain ⟨serverIdx, protocol, userUri, device, interface, -, -, -, ip, port⟩ := made
    cases v
    cases serverIdx
    cases protocol
    cases userUri
    cases device
    cases interface
    cases ip
    cases port
    rfl

/-! ### Reading a user's URI -/

/-- The interface the constructor finds, in terms of the one that is there. Where no device is
given it skips as many characters of the interface as stand before it. -/
def FindsInterface (u p n found : List Char) : Prop :=
  (u ≠ p ++ "://".toList ++ n ∧ found = n) ∨
    (u = p ++ "://".toList ++ n ∧ ((n.length ≤ 2 ∧ found = []) ∨
      (2 < n.length ∧ p.length + 3 ≤ n.length ∧ found = n.drop (p.length + 3))))

theorem splitUri_noDevice_eq_ok_iff {uri P D N : CharStruct} {p rest : List Char}
    (format : uri.chars = p ++ "://".toList ++ rest) (free : ¬ "://".toList <:+: p)
    (noSlash : '/' ∉ rest) : splitUri uri = .ok (P, D, N) ↔
      P.chars = p ∧ D.chars = [] ∧ FindsInterface uri.chars p rest N.chars := by
  have partP : p <:+: uri.chars := format ▸ ⟨[], "://".toList ++ rest, by simp⟩
  have partN : rest.drop (p.length + 3) <:+: uri.chars :=
    (List.drop_suffix _ _).isInfix.trans (format ▸ ⟨p ++ "://".toList, [], by simp⟩)
  obtain ⟨P', -, protocol⟩ := CharStruct.ofString_part partP
  obtain ⟨N', madeN, interface⟩ := CharStruct.ofString_part partN
  rw [splitUri_noDevice format free noSlash protocol]
  simp only [FindsInterface, format, ne_eq, not_true_eq_false, false_and, true_and, false_or]
  by_cases short : rest.length ≤ 2
  · rw [if_pos short]
    constructor
    · rintro ⟨⟩
      exact ⟨protocol, rfl, Or.inl ⟨short, rfl⟩⟩
    · rintro ⟨charsP, charsD, ⟨-, charsN⟩ | ⟨long, -, -⟩⟩
      · rw [CharStruct.ext (charsP.trans protocol.symm),
          CharStruct.ext (a := D) (b := CharStruct.empty) charsD,
          CharStruct.ext (a := N) (b := CharStruct.empty) charsN]
      · omega
  · rw [if_neg short]
    by_cases inside : p.length + 3 ≤ rest.length
    · rw [substr_eq_drop inside (by omega), ok_bind, madeN, ok_bind]
      constructor
      · rintro ⟨⟩
        exact ⟨protocol, rfl, Or.inr ⟨by omega, inside, interface⟩⟩
      · rintro ⟨charsP, charsD, ⟨contra, -⟩ | ⟨-, -, charsN⟩⟩
        · exact absurd contra short
        · rw [CharStruct.ext (charsP.trans protocol.symm),
            CharStruct.ext (a := D) (b := CharStruct.empty) charsD,
            CharStruct.ext (charsN.trans interface.symm)]
          rfl
    · rw [substr, if_pos (by omega)]
      constructor
      · intro contra
        cases contra
      · rintro ⟨-, -, ⟨contra, -⟩ | ⟨-, contra, -⟩⟩
        · exact absurd contra short
        · exact absurd contra inside

theorem UriFormat.splitUri_eq_ok_iff {uri P D N : CharStruct} {p d n : List Char}
    (format : UriFormat uri.chars p d n) : splitUri uri = .ok (P, D, N) ↔
      P.chars = p ∧ D.chars = d ∧ FindsInterface uri.chars p n N.chars := by
  generalize read : uri.chars = u at format
  cases format with
  | bare absent =>
      have longer : p ≠ p ++ "://".toList ++ [] := by simp
      rw [splitUri_bare (read ▸ absent)]
      simp only [FindsInterface, longer, not_false_eq_true, true_and, false_and, or_false, ne_eq]
      constructor
      · rintro ⟨⟩
        exact ⟨read, rfl, rfl⟩
      · rintro ⟨charsP, charsD, charsN⟩
        rw [CharStruct.ext (read.trans charsP.symm),
          CharStruct.ext (a := D) (b := CharStruct.empty) charsD,
          CharStruct.ext (a := N) (b := CharStruct.empty) charsN]
  | noDevice free noSlash =>
      rw [← read]
      exact splitUri_noDevice_eq_ok_iff read free noSlash
  | device free noSlash =>
      have longer : p ++ "://".toList ++ (d ++ '/' :: n) ≠ p ++ "://".toList ++ n := by
        intro same
        have sizes := congrArg List.length (List.append_cancel_left same)
        simp at sizes
        omega
      simp only [FindsInterface, longer, not_false_eq_true, true_and, false_and, or_false, ne_eq]
      constructor
      · intro split
        have partP : p <:+: uri.chars := read ▸ ⟨[], "://".toList ++ (d ++ '/' :: n), by simp⟩
        have partD : d <:+: uri.chars := read ▸ ⟨p ++ "://".toList, '/' :: n, by simp⟩
        have partN : n <:+: uri.chars := read ▸ ⟨p ++ "://".toList ++ (d ++ ['/']), [], by simp⟩
        obtain ⟨P', -, charsP⟩ := CharStruct.ofString_part partP
        obtain ⟨D', -, charsD⟩ := CharStruct.ofString_part partD
        obtain ⟨N', -, charsN⟩ := CharStruct.ofString_part partN
        cases split.symm.trans (splitUri_device read free noSlash charsP charsD charsN)
        exact ⟨charsP, charsD, charsN⟩
      · rintro ⟨charsP, charsD, charsN⟩
        exact splitUri_device read free noSlash charsP charsD charsN

/-- The reprint of a URI is the URI, unless an empty device is given. -/
theorem UriFormat.endpointText_eq {u p d n : List Char} (format : UriFormat u p d n)
    (present : "://".toList <:+: u) (noEmpty : ¬ p ++ "://".toList ++ "/".toList <+: u) :
    endpointText p d n = u := by
  cases format with
  | bare absent => exact absurd present absent
  | noDevice free noSlash => simp [endpointText, devicePart]
  | device free noSlash =>
      cases d with
      | nil => exact absurd ⟨n, by simp⟩ noEmpty
      | cons c d => simp [endpointText, devicePart]

theorem UriFormat.endpointText_length_le {u p d n : List Char} (format : UriFormat u p d n)
    {ip : List Char} {port : UInt16} (short : u.length ≤ 255)
    (fits : (serverText p d ip port).length ≤ 255) : (endpointText p d n).length ≤ 255 := by
  cases format with
  | bare absent =>
      simp [serverText, endpointText] at fits ⊢
      omega
  | noDevice free noSlash =>
      simp [endpointText, devicePart] at short ⊢
      omega
  | device free noSlash =>
      simp [endpointText, devicePart] at short ⊢
      split
      · simp
        omega
      · simp
        omega

/-- An interface that is found is one at the end of that which is there. -/
theorem FindsInterface.suffix {u p n found : List Char} (finds : FindsInterface u p n found) :
    found <:+ n := by
  rcases finds with ⟨-, rfl⟩ | ⟨-, ⟨-, rfl⟩ | ⟨-, -, rfl⟩⟩
  · exact List.suffix_refl _
  · exact List.nil_suffix
  · exact List.drop_suffix _ _

theorem UriFormat.parts {u p d n : List Char} (format : UriFormat u p d n) :
    p <:+: u ∧ d <:+: u ∧ n <:+: u := by
  cases format with
  | bare absent => exact ⟨List.infix_refl _, List.nil_infix, List.nil_infix⟩
  | noDevice free noSlash =>
      exact ⟨⟨[], "://".toList ++ n, by simp⟩, List.nil_infix, ⟨p ++ "://".toList, [], by simp⟩⟩
  | device free noSlash =>
      exact ⟨⟨[], "://".toList ++ (d ++ '/' :: n), by simp⟩, ⟨p ++ "://".toList, '/' :: n, by simp⟩,
        ⟨p ++ "://".toList ++ (d ++ ['/']), [], by simp⟩⟩

theorem devicePart_noNul (D : CharStruct) : '\x00' ∉ devicePart D.chars := by
  unfold devicePart
  split
  · simp only [List.mem_append, not_or]
    exact ⟨D.noNul, by decide⟩
  · exact List.not_mem_nil

/-- Strings that fit can be made. -/
theorem exists_made (uri ip : CharStruct) (port : UInt16) (P D N : CharStruct)
    (server : (serverText P.chars D.chars ip.chars port).length ≤ 255)
    (endpoint : (endpointText P.chars D.chars N.chars).length ≤ 255) :
    ∃ v, URI.Made uri ip port P D N v := by
  have clientFits : (P.chars ++ "://".toList ++ addressText ip.chars port).length ≤ 255 := by
    simp [serverText] at server ⊢
    omega
  have clean : '\x00' ∉ P.chars ++ "://".toList := by
    simp only [List.mem_append, not_or]
    exact ⟨P.noNul, by decide⟩
  have cleanFront : '\x00' ∉ P.chars ++ "://".toList ++ devicePart D.chars := by
    rw [List.mem_append, not_or]
    exact ⟨clean, devicePart_noNul D⟩
  have cleanClient : '\x00' ∉ P.chars ++ "://".toList ++ addressText ip.chars port := by
    rw [List.mem_append, not_or]
    exact ⟨clean, addressText_noNul ip port⟩
  have cleanServer : '\x00' ∉ serverText P.chars D.chars ip.chars port := by
    rw [serverText, List.mem_append, not_or]
    exact ⟨cleanFront, addressText_noNul ip port⟩
  have cleanEndpoint : '\x00' ∉ endpointText P.chars D.chars N.chars := by
    rw [endpointText, List.mem_append, not_or]
    exact ⟨cleanFront, N.noNul⟩
  exact ⟨⟨0, P, uri, D, N, ip, ⟨_, clientFits, cleanClient⟩, ⟨_, server, cleanServer⟩,
    ⟨_, endpoint, cleanEndpoint⟩, port⟩, rfl, rfl, rfl, rfl, rfl, rfl, rfl, rfl, rfl, rfl⟩

/-- What the constructor makes of a URI whose interface it finds. -/
theorem UriFormat.exists_new {uri ip : CharStruct} {port : UInt16} {p d n found : List Char}
    (format : UriFormat uri.chars p d n) (fits : (serverText p d ip.chars port).length ≤ 255)
    (finds : FindsInterface uri.chars p n found) (i : UInt16) :
    ∃ v P D N, URI.new i uri ip port = .ok v ∧ URI.Made uri ip port P D N v ∧ P.chars = p ∧
      D.chars = d ∧ N.chars = found := by
  obtain ⟨partP, partD, partN⟩ := format.parts
  obtain ⟨P, -, rfl⟩ := CharStruct.ofString_part partP
  obtain ⟨D, -, rfl⟩ := CharStruct.ofString_part partD
  obtain ⟨N, -, rfl⟩ := CharStruct.ofString_part (finds.suffix.isInfix.trans partN)
  have endpoint : (endpointText P.chars D.chars N.chars).length ≤ 255 := by
    have whole := format.endpointText_length_le uri.fits fits
    have shorter := finds.suffix.length_le
    simp only [endpointText, List.length_append] at whole ⊢
    omega
  obtain ⟨v, made⟩ := exists_made uri ip port P D N fits endpoint
  have split := format.splitUri_eq_ok_iff.mpr ⟨rfl, rfl, finds⟩
  exact ⟨v, P, D, N, URI.new_eq_ok_iff.mpr ⟨P, D, N, split, made⟩, made, rfl, rfl, rfl⟩

/-- **The constructor comes back** exactly when the server's string fits, and an interface
without a device is at most two characters long or at least as long as what stands before it. -/
theorem URI.new_isOk_iff {i : UInt16} {uri ip : CharStruct} {port : UInt16} {p d n : List Char}
    (format : UriFormat uri.chars p d n) : (∃ v, URI.new i uri ip port = .ok v) ↔
      (serverText p d ip.chars port).length ≤ 255 ∧
        (uri.chars = p ++ "://".toList ++ n → n.length ≤ 2 ∨ p.length + 3 ≤ n.length) := by
  constructor
  · rintro ⟨v, made⟩
    obtain ⟨P, D, N, split, made⟩ := URI.new_eq_ok_iff.mp made
    obtain ⟨rfl, rfl, interface⟩ := format.splitUri_eq_ok_iff.mp split
    constructor
    · rw [← made.serverUri]
      exact v.serverUri.fits
    · intro noDevice
      rcases interface with ⟨device, -⟩ | ⟨-, ⟨short, -⟩ | ⟨-, inside, -⟩⟩
      · exact absurd noDevice device
      · exact Or.inl short
      · exact Or.inr inside
  · rintro ⟨fits, inside⟩
    have finds : ∃ found, FindsInterface uri.chars p n found := by
      by_cases noDevice : uri.chars = p ++ "://".toList ++ n
      · by_cases short : n.length ≤ 2
        · exact ⟨[], Or.inr ⟨noDevice, Or.inl ⟨short, rfl⟩⟩⟩
        · exact ⟨_, Or.inr ⟨noDevice, Or.inr
            ⟨by omega, (inside noDevice).resolve_left short, rfl⟩⟩⟩
      · exact ⟨n, Or.inl ⟨noDevice, rfl⟩⟩
    obtain ⟨found, finds⟩ := finds
    obtain ⟨v, -, -, -, made, -⟩ := format.exists_new fits finds i
    exact ⟨v, made⟩

/-- The constructor reads a URI with protocol `p`, device `d` and interface `n` as such, keeps
its index, and prints the strings the parts make. -/
def Parses (i : UInt16) (uri ip : CharStruct) (port : UInt16) (p d n : List Char) : Prop :=
  ∃ v, URI.new i uri ip port = .ok v ∧ v.serverIdx = i ∧ v.protocol.chars = p ∧
    v.device.chars = d ∧ v.interface.chars = n ∧ v.endpointUri.chars = endpointText p d n ∧
    ("://".toList <:+: uri.chars → ¬ p ++ "://".toList ++ "/".toList <+: uri.chars →
      v.endpointUri.chars = uri.chars) ∧
    v.serverUri.chars = serverText p d ip.chars port ∧
    v.clientUri.chars = p ++ "://".toList ++ addressText ip.chars port

/-- No interface without a device, in terms of what follows the protocol. -/
theorem UriFormat.noDevice_iff {u p d n : List Char} (format : UriFormat u p d n) :
    (u = p ++ "://".toList ++ n → n = []) ↔
      ∀ rest, u = p ++ "://".toList ++ rest → rest = [] ∨ '/' ∈ rest := by
  constructor
  · intro noDevice rest eq
    cases format with
    | bare absent =>
        have sizes := congrArg List.length eq
        simp at sizes
    | noDevice free noSlash =>
        cases List.append_cancel_left eq
        exact Or.inl (noDevice rfl)
    | device free noSlash =>
        cases List.append_cancel_left eq
        exact Or.inr (List.mem_append_right _ List.mem_cons_self)
  · intro device eq
    refine (device n eq).resolve_right ?_
    cases format with
    | bare absent => exact List.not_mem_nil
    | noDevice free noSlash => exact noSlash
    | device free noSlash =>
        have sizes := congrArg List.length (List.append_cancel_left eq)
        simp at sizes
        omega

/-- **A URI is read as documented** exactly when it stands for server 0 and what follows its
protocol is empty or names a device. -/
theorem parses_iff {i : UInt16} {uri ip : CharStruct} {port : UInt16} {p d n : List Char}
    (format : UriFormat uri.chars p d n) (fits : (serverText p d ip.chars port).length ≤ 255) :
    Parses i uri ip port p d n ↔
      i = 0 ∧ ∀ rest, uri.chars = p ++ "://".toList ++ rest → rest = [] ∨ '/' ∈ rest := by
  rw [← format.noDevice_iff]
  constructor
  · rintro ⟨v, made, index, -, -, charsN, -⟩
    obtain ⟨P, D, N, split, made⟩ := URI.new_eq_ok_iff.mp made
    obtain ⟨-, -, finds⟩ := format.splitUri_eq_ok_iff.mp split
    rw [made.interface] at charsN
    refine ⟨index.symm.trans made.serverIdx, ?_⟩
    intro noDevice
    rcases finds with ⟨device, -⟩ | ⟨-, ⟨-, noName⟩ | ⟨long, -, skipped⟩⟩
    · exact absurd noDevice device
    · exact charsN.symm.trans noName
    · have sizes := congrArg List.length (charsN.symm.trans skipped)
      rw [List.length_drop] at sizes
      omega
  · rintro ⟨rfl, noDevice⟩
    have finds : FindsInterface uri.chars p n n := by
      by_cases here : uri.chars = p ++ "://".toList ++ n
      · refine Or.inr ⟨here, Or.inl ⟨?_, noDevice here⟩⟩
        rw [noDevice here]
        decide
      · exact Or.inl ⟨here, rfl⟩
    obtain ⟨v, P, D, N, made, prints, rfl, rfl, rfl⟩ := format.exists_new fits finds 0
    refine ⟨v, made, prints.serverIdx, congrArg _ prints.protocol, congrArg _ prints.device,
      congrArg _ prints.interface, prints.endpointUri, ?_, prints.serverUri, prints.clientUri⟩
    intro present noEmpty
    rw [prints.endpointUri]
    exact format.endpointText_eq present noEmpty

def nodeOne : CharStruct := ⟨"node1".toList, by decide, by decide⟩

/-- A device and an interface. -/
def eth0Tcp : CharStruct := ⟨"ofi+tcp://eth0/tcp".toList, by decide, by decide⟩

theorem parses_eth0_tcp : UriFormat eth0Tcp.chars "ofi+tcp".toList "eth0".toList "tcp".toList ∧
    (serverText "ofi+tcp".toList "eth0".toList nodeOne.chars 9000).length ≤ 255 ∧
    Parses 0 eth0Tcp nodeOne 9000 "ofi+tcp".toList "eth0".toList "tcp".toList := by
  have format : UriFormat eth0Tcp.chars "ofi+tcp".toList "eth0".toList "tcp".toList :=
    UriFormat.device (p := "ofi+tcp".toList) (d := "eth0".toList) (n := "tcp".toList) (by decide)
      (by decide)
  have fits : (serverText "ofi+tcp".toList "eth0".toList nodeOne.chars 9000).length ≤ 255 := by decide
  refine ⟨format, fits, (parses_iff format fits).mpr ⟨rfl, ?_⟩⟩
  intro rest eq
  have same : "eth0/tcp".toList = rest :=
    List.append_cancel_left (show "ofi+tcp".toList ++ "://".toList ++ "eth0/tcp".toList = _ from eq)
  rw [← same]
  exact Or.inr (by decide)

/-- An interface without a device. -/
def eth0 : CharStruct := ⟨"ofi+tcp://eth0".toList, by decide, by decide⟩

/-- The interface `eth0` is looked for at position 10 of four characters. -/
theorem not_parses_eth0 : UriFormat eth0.chars "ofi+tcp".toList [] "eth0".toList ∧
    (serverText "ofi+tcp".toList [] nodeOne.chars 9000).length ≤ 255 ∧
    URI.new 0 eth0 nodeOne 9000 = .error .outOfRange ∧
    ¬ Parses 0 eth0 nodeOne 9000 "ofi+tcp".toList [] "eth0".toList := by
  have format : UriFormat eth0.chars "ofi+tcp".toList [] "eth0".toList :=
    UriFormat.noDevice (p := "ofi+tcp".toList) (n := "eth0".toList) (by decide) (by decide)
  have thrown : URI.new 0 eth0 nodeOne 9000 = .error .outOfRange := rfl
  refine ⟨format, by decide, thrown, ?_⟩
  rintro ⟨v, made, -⟩
  cases thrown.symm.trans made

end Hcl.Config
