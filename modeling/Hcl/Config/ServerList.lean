import Hcl.Config.Uri

/-!
The server list: `HCL::LoadURI`.

The file has one line per host, `host` or `host:count`. Each line stands for `count`
servers, and server `i` of the whole list listens on `port + i`.
-/

namespace Hcl.Config

/-- The lines `getline` reads: split at line feeds, no line after a final one. The
characters of the line read so far come first, in reverse. -/
def getlines : List Char → List Char → List (List Char)
  | line, [] => if line.isEmpty then [] else [line.reverse]
  | line, c :: rest =>
      if c = '\n' then line.reverse :: getlines [] rest else getlines (c :: line) rest

/-- `isspace` in the C locale. -/
def isSpace (c : Char) : Bool :=
  c = ' ' || c = '\t' || c = '\n' || c = '\x0b' || c = '\x0c' || c = '\r'

/-- The value of the digits at the front. -/
def digits (s : List Char) : Nat :=
  (s.takeWhile Char.isDigit).foldl (fun n c => 10 * n + (c.toNat - '0'.toNat)) 0

/-- `atoi`: white space, a sign, digits. The value goes through a `long`, at whose
bounds it stops, and is narrowed to an `int`. -/
def atoi (s : List Char) : Int32 :=
  let value : Int :=
    match s.dropWhile isSpace with
    | '-' :: rest => -(digits rest : Int)
    | '+' :: rest => digits rest
    | rest => digits rest
  Int32.ofInt (max (-9223372036854775808) (min 9223372036854775807 value))

/-- The host and the count of a line. -/
def splitLine (line : List Char) : List Char × Int32 :=
  match findSub ":".toList line with
  | some splitLoc => (line.take splitLoc, atoi (line.drop (splitLoc + 1)))
  | none => (line, 1)

/-- One round of the inner loop: one server of the host. -/
def loadServer (port : UInt16) (uri name : CharStruct) (out : List URI × UInt16) (_ : Nat) :
    Except Fault (List URI × UInt16) := do
  let server ← URI.new out.2 uri name (port + out.2)
  return (out.1 ++ [server], out.2 + 1)

/-- One line of the file, with the addresses made so far and `server_index`. -/
def loadLine (port : UInt16) (uri : CharStruct) (out : List URI × UInt16) (line : List Char) :
    Except Fault (List URI × UInt16) := do
  if line.isEmpty then return out
  let (host, count) := splitLine line
  let name ← CharStruct.ofString host
  (List.range count.toInt.toNat).foldlM (loadServer port uri name) out

/-- `LoadURI` on the content of the file, or on a file that cannot be opened. -/
def loadURI (port : UInt16) (file : Option (List Char)) (uri : CharStruct) :
    Except Fault (List URI) := do
  match file with
  | none => return []
  | some content =>
      let out ← (getlines [] content).foldlM (loadLine port uri) ([], 0)
      return out.1

end Hcl.Config
