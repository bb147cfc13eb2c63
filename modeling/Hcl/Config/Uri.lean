import Mathlib.Data.List.TakeWhile

/-!
`CharStruct` and `URI`: `data_structures.{h,cpp}`.

A `CharStruct` is a C string in a buffer of 256 bytes. A value here always fits; an
operation whose result does not fit writes past the buffer and is answered with
`Fault.overflow`. Characters stand for bytes.
-/

namespace Hcl.Config

/-- What can go wrong while strings are taken apart and put together. -/
inductive Fault where
  /-- A write past the end of a `CharStruct`: undefined behaviour. -/
  | overflow
  /-- The exception `std::out_of_range`, thrown by `substr`. -/
  | outOfRange
deriving DecidableEq, Repr

/-- `struct CharStruct`: the characters before the terminator. -/
structure CharStruct where
  chars : List Char
  fits : chars.length ≤ 255
  noNul : '\x00' ∉ chars
deriving DecidableEq

namespace CharStruct

/-- `CharStruct(const char *)`, and `CharStruct(std::string)`, which goes through
`c_str()`: the characters up to the first NUL. -/
def ofString (s : List Char) : Except Fault CharStruct :=
  let c := s.takeWhile (· ≠ '\x00')
  if h : c.length ≤ 255 then
    .ok ⟨c, h, fun mem => by simpa using List.mem_takeWhile_imp mem⟩
  else .error .overflow

/-- `CharStruct("")`. -/
def empty : CharStruct := ⟨[], by decide, by decide⟩

/-- `operator+`, and `operator+=` as far as the value is concerned. -/
def add (a : CharStruct) (s : List Char) : Except Fault CharStruct := ofString (a.chars ++ s)

/-- `size()`. -/
def size (a : CharStruct) : Nat := a.chars.length

end CharStruct

/-- `std::string::find(const char *)`: the first position of a pattern. -/
def findSub (pattern : List Char) : List Char → Option Nat
  | [] => if pattern.isEmpty then some 0 else none
  | c :: s =>
      if pattern.isPrefixOf (c :: s) then some 0 else (findSub pattern s).map (· + 1)

/-- `std::string::substr(pos, len)`. -/
def substr (s : List Char) (pos len : Nat) : Except Fault (List Char) :=
  if pos > s.length then .error .outOfRange else .ok ((s.drop pos).take len)

/-- `struct URI`. -/
structure URI where
  serverIdx : UInt16
  protocol : CharStruct
  userUri : CharStruct
  device : CharStruct
  interface : CharStruct
  ip : CharStruct
  clientUri : CharStruct
  serverUri : CharStruct
  endpointUri : CharStruct
  port : UInt16
deriving DecidableEq

/-- The protocol, device and interface of a user's URI. -/
def splitUri (uri : CharStruct) : Except Fault (CharStruct × CharStruct × CharStruct) := do
  let uriStr := uri.chars
  match findSub "://".toList uriStr with
  | none => return (uri, CharStruct.empty, CharStruct.empty)
  | some protocolEndPos =>
      let protocol ← CharStruct.ofString (uriStr.take protocolEndPos)
      let deviceStartPos := protocolEndPos + 3
      let rest ← substr uriStr deviceStartPos uriStr.length
      let (device, interfaceStartPos) ←
        match findSub "/".toList rest with
        | none => pure (CharStruct.empty, deviceStartPos)
        | some deviceEndPos => do
            let device ← CharStruct.ofString (rest.take deviceEndPos)
            pure (device, deviceEndPos + 1)
      let interface ←
        if interfaceStartPos < uriStr.length - 2 then do
          CharStruct.ofString (← substr rest interfaceStartPos (uriStr.length - 2))
        else pure CharStruct.empty
      return (protocol, device, interface)

/-- `std::to_string(port)`. -/
def portText (port : UInt16) : List Char := Nat.toDigits 10 port.toNat

/-- `URI(_server_idx, _uri, _ip, _port)`. The argument `_server_idx` is not stored. -/
def URI.new (_serverIdx : UInt16) (uri ip : CharStruct) (port : UInt16) : Except Fault URI := do
  let (protocol, device, interface) ← splitUri uri
  let scheme ← protocol.add "://".toList
  let address ← (← ip.add ":".toList).add (portText port)
  let withDevice ←
    if device.size > 0 then do scheme.add (← device.add "/".toList).chars else pure scheme
  let serverUri ← withDevice.add address.chars
  let clientUri ← scheme.add address.chars
  let endpointUri ← withDevice.add interface.chars
  return { serverIdx := 0, protocol, userUri := uri, device, interface, ip, clientUri, serverUri
           endpointUri, port }

end Hcl.Config
