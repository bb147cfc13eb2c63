import Hcl.Config.UriFormat

/-!
The bytes of a `CharStruct`: `data_structures.cpp` below the level of `Config.Uri`.

A `CharStruct` is an array of 256 characters in memory. Its operations print into it with
`snprintf` and `strcpy`, and pass the length of what they print for the room there is. Here an
operation works on the memory from the first byte of the array on, and the offsets it writes
are kept. An expression of such operations stays inside its arrays, and its string is that of
its inputs, exactly when every value on the way is at most 255 characters long and written
before it is read, and no NUL stands in the characters that are kept (`safe_iff`).
-/

namespace Hcl.Config

/-- A C string: its characters before the terminator. -/
structure CString where
  chars : List Char
  noNul : '\x00' ∉ chars

/-- `std::to_string(_my_server_idx)`. -/
def indexText (index : UInt16) : List Char := Nat.toDigits 10 index.toNat

/-! ### One object -/

/-- The memory from the first byte of `value` on, and the offsets written so far, those of
the objects the value came from included. -/
structure Buffer where
  memory : List Char
  written : List Nat
deriving DecidableEq

namespace Buffer

/-- `std::string(value)`. -/
def string (b : Buffer) : List Char := cString b.memory

/-- Every byte written is one of `value[256]`. -/
def Inside (b : Buffer) : Prop := ∀ offset ∈ b.written, offset < 256

/-- Characters and a terminator, from the first byte on. -/
def print (s : List Char) (b : Buffer) : Buffer where
  memory := s ++ '\x00' :: b.memory.drop (s.length + 1)
  written := b.written ++ List.range (s.length + 1)

/-- `snprintf(value, size, "%s", s)`. Nothing is written for a size of 0. -/
def snprintf (size : Nat) (s : List Char) (b : Buffer) : Buffer :=
  if size = 0 then b else b.print (s.take (size - 1))

/-- `strcpy(value, s)`. -/
def strcpy (s : List Char) (b : Buffer) : Buffer := b.print s

/-- `CharStruct(const char *)`: the size is `strlen(data_) + 1`. -/
def construct (data : List Char) (b : Buffer) : Buffer := b.snprintf (data.length + 1) data

/-- `CharStruct(std::string)`, by way of `c_str()`. -/
def constructString (data : List Char) (b : Buffer) : Buffer := b.construct (cString data)

/-- `Set(std::string)`: the size is `data_.length() + 1`. -/
def set (data : List Char) (b : Buffer) : Buffer :=
  b.snprintf (data.length + 1) (cString data)

end Buffer

/-! ### Expressions -/

/-- A value built from C strings and `std::string`s. -/
inductive CharExpr where
  | ofCString (data : CString)
  /-- `CharStruct(char *, size_t)`. -/
  | sized (data : CString) (size : Nat)
  | ofString (data : List Char)
  /-- The copy constructor, and the move constructor, which has the same body. -/
  | copy (other : CharExpr)
  /-- `operator=`. -/
  | assign (this other : CharExpr)
  /-- `operator+(const CharStruct &)`. -/
  | add (this o : CharExpr)
  /-- `operator+(std::string &)`. -/
  | addString (this : CharExpr) (o : List Char)
  /-- `operator+=`. -/
  | addAssign (this rhs : CharExpr)

namespace CharExpr

/-- Evaluation. A new object is in memory that holds `fresh` before; a constructor that
delegates, and an operator that goes through a `std::string`, leave nothing else behind. -/
def eval (fresh : CharExpr → List Char) : CharExpr → Buffer
  | ofCString data => Buffer.construct data.chars ⟨fresh (ofCString data), []⟩
  | sized data size => Buffer.snprintf size data.chars ⟨fresh (sized data size), []⟩
  | ofString data => Buffer.constructString data ⟨fresh (ofString data), []⟩
  | copy other =>
      let b := other.eval fresh
      Buffer.construct b.string ⟨fresh (copy other), b.written⟩
  | assign this other =>
      let a := this.eval fresh
      let b := other.eval fresh
      Buffer.strcpy b.string ⟨a.memory, a.written ++ b.written⟩
  | add this o =>
      let a := this.eval fresh
      let b := o.eval fresh
      Buffer.constructString (a.string ++ b.string) ⟨fresh (add this o), a.written ++ b.written⟩
  | addString this o =>
      let a := this.eval fresh
      Buffer.constructString (a.string ++ o) ⟨fresh (addString this o), a.written⟩
  | addAssign this rhs =>
      let a := this.eval fresh
      let b := rhs.eval fresh
      Buffer.set (a.string ++ b.string) ⟨a.memory, a.written ++ b.written⟩

/-- The concatenation of the inputs. -/
def inputs : CharExpr → List Char
  | ofCString data => data.chars
  | sized data size => data.chars.take (size - 1)
  | ofString data => data
  | copy other => other.inputs
  | assign _ other => other.inputs
  | add this o => this.inputs ++ o.inputs
  | addString this o => this.inputs ++ o
  | addAssign this rhs => this.inputs ++ rhs.inputs

/-- Whatever the memory held before, only the bytes of the arrays are written and the string is
the first 255 characters of the inputs. -/
def Safe (e : CharExpr) : Prop :=
  ∀ fresh, (∀ offset ∈ (e.eval fresh).written, offset < 256) ∧
    (e.eval fresh).string = e.inputs.take 255

/-! ### When an expression is safe -/

/-- The string an expression stands for, as long as it may be. -/
def text : CharExpr → List Char
  | ofCString data => data.chars
  | sized data size => data.chars.take (size - 1)
  | ofString data => cString data
  | copy other => other.text
  | assign _ other => other.text
  | add this o => this.text ++ o.text
  | addString this o => this.text ++ cString o
  | addAssign this rhs => this.text ++ rhs.text

/-- A constructor that writes nothing. -/
def isUnwritten : CharExpr → Bool
  | sized _ 0 => true
  | _ => false

/-- Every value on the way is at most 255 characters long, and none is read that no
constructor has written. -/
def Fits : CharExpr → Prop
  | ofCString data => data.chars.length ≤ 255
  | sized data size => 0 < size ∧ (data.chars.take (size - 1)).length ≤ 255
  | ofString data => (cString data).length ≤ 255
  | copy other => other.Fits
  | assign this other => (this.Fits ∨ this.isUnwritten = true) ∧ other.Fits
  | add this o => this.Fits ∧ o.Fits ∧ (this.text ++ o.text).length ≤ 255
  | addString this o => this.Fits ∧ (this.text ++ cString o).length ≤ 255
  | addAssign this rhs => this.Fits ∧ rhs.Fits ∧ (this.text ++ rhs.text).length ≤ 255

end CharExpr

/-! ### What the primitives print -/

section Print

variable {s : List Char}

theorem cString_noNul (s : List Char) : '\x00' ∉ cString s := fun mem => by
  simpa using List.mem_takeWhile_imp mem

/-- What stands before a NUL-free part is read whole. -/
theorem cString_append (clean : '\x00' ∉ s) (t : List Char) : cString (s ++ t) = s ++ cString t := by
  apply List.takeWhile_append_of_pos
  intro c mem
  exact decide_eq_true (ne_of_mem_of_not_mem mem clean)

theorem Buffer.string_noNul (b : Buffer) : '\x00' ∉ b.string := cString_noNul b.memory

theorem Buffer.string_print (clean : '\x00' ∉ s) (b : Buffer) : (b.print s).string = s := by
  rw [Buffer.string, Buffer.print, cString_append clean]
  simp [cString]

theorem Buffer.snprintf_of_room {size : Nat} (room : s.length < size) (b : Buffer) :
    b.snprintf size s = b.print s := by
  have positive : size ≠ 0 := by omega
  rw [Buffer.snprintf, if_neg positive, List.take_of_length_le (by omega)]

theorem Buffer.construct_eq (s : List Char) (b : Buffer) : b.construct s = b.print s :=
  Buffer.snprintf_of_room (Nat.lt_succ_self _) b

theorem Buffer.constructString_eq (s : List Char) (b : Buffer) :
    b.constructString s = b.print (cString s) :=
  Buffer.construct_eq _ b

theorem Buffer.set_eq (s : List Char) (b : Buffer) : b.set s = b.print (cString s) :=
  Buffer.snprintf_of_room (Nat.lt_succ_of_le (List.takeWhile_prefix _).length_le) b

theorem Buffer.inside_nil (memory : List Char) : (Buffer.mk memory []).Inside := by
  intro offset mem
  cases mem

theorem Buffer.inside_append_iff {memory : List Char} {a b : Buffer} :
    (Buffer.mk memory (a.written ++ b.written)).Inside ↔ a.Inside ∧ b.Inside :=
  List.forall_mem_append

/-- A print stays inside when the objects before did and it is at most 255 characters long. -/
theorem Buffer.inside_print_iff {memory : List Char} {written : List Nat} :
    (Buffer.print s ⟨memory, written⟩).Inside ↔
      (Buffer.mk memory written).Inside ∧ s.length ≤ 255 := by
  refine List.forall_mem_append.trans (and_congr_right fun _ => ?_)
  constructor
  · intro inside
    have last := inside s.length (List.mem_range.mpr (Nat.lt_succ_self _))
    omega
  · intro short offset mem
    have := List.mem_range.mp mem
    omega

end Print

namespace CharExpr

/-- What an operation prints, in terms of the objects it reads. -/
theorem eval_copy (fresh : CharExpr → List Char) (a : CharExpr) :
    (copy a).eval fresh =
      Buffer.print (a.eval fresh).string ⟨fresh (copy a), (a.eval fresh).written⟩ :=
  Buffer.construct_eq _ _

theorem eval_assign (fresh : CharExpr → List Char) (a b : CharExpr) :
    (assign a b).eval fresh = Buffer.print (b.eval fresh).string
      ⟨(a.eval fresh).memory, (a.eval fresh).written ++ (b.eval fresh).written⟩ :=
  rfl

theorem eval_of_isUnwritten {fresh : CharExpr → List Char} {e : CharExpr}
    (unwritten : e.isUnwritten = true) : e.eval fresh = ⟨fresh e, []⟩ := by
  cases e with
  | sized data size =>
      cases size with
      | zero => rfl
      | succ size => cases unwritten
  | _ => cases unwritten

theorem eval_add (fresh : CharExpr → List Char) (a b : CharExpr) :
    (add a b).eval fresh = Buffer.print ((a.eval fresh).string ++ (b.eval fresh).string)
      ⟨fresh (add a b), (a.eval fresh).written ++ (b.eval fresh).written⟩ := by
  rw [eval, Buffer.constructString_eq, cString_append (Buffer.string_noNul _),
    cString_eq_self_iff.mpr (Buffer.string_noNul _)]

theorem eval_addString (fresh : CharExpr → List Char) (a : CharExpr) (o : List Char) :
    (addString a o).eval fresh = Buffer.print ((a.eval fresh).string ++ cString o)
      ⟨fresh (addString a o), (a.eval fresh).written⟩ := by
  rw [eval, Buffer.constructString_eq, cString_append (Buffer.string_noNul _)]

theorem eval_addAssign (fresh : CharExpr → List Char) (a b : CharExpr) :
    (addAssign a b).eval fresh = Buffer.print ((a.eval fresh).string ++ (b.eval fresh).string)
      ⟨(a.eval fresh).memory, (a.eval fresh).written ++ (b.eval fresh).written⟩ := by
  rw [eval, Buffer.set_eq, cString_append (Buffer.string_noNul _),
    cString_eq_self_iff.mpr (Buffer.string_noNul _)]

theorem text_noNul (e : CharExpr) : '\x00' ∉ e.text := by
  induction e with
  | ofCString data => exact data.noNul
  | sized data size => exact fun mem => data.noNul (List.mem_of_mem_take mem)
  | ofString data => exact cString_noNul data
  | copy other ih => exact ih
  | assign this other _ ih => exact ih
  | add this o left right =>
      rw [text, List.mem_append, not_or]
      exact ⟨left, right⟩
  | addString this o ih =>
      rw [text, List.mem_append, not_or]
      exact ⟨ih, cString_noNul o⟩
  | addAssign this rhs left right =>
      rw [text, List.mem_append, not_or]
      exact ⟨left, right⟩

theorem Fits.length_text {e : CharExpr} (fits : e.Fits) : e.text.length ≤ 255 := by
  induction e with
  | ofCString data => exact fits
  | sized data size => exact fits.2
  | ofString data => exact fits
  | copy other ih => exact ih fits
  | assign this other _ ih => exact ih fits.2
  | add this o _ _ => exact fits.2.2
  | addString this o _ => exact fits.2
  | addAssign this rhs _ _ => exact fits.2.2

/-- An expression that fits stays inside its arrays and has its text for a string. -/
theorem Fits.eval {e : CharExpr} (fits : e.Fits) (fresh : CharExpr → List Char) :
    (e.eval fresh).Inside ∧ (e.eval fresh).string = e.text := by
  induction e with
  | ofCString data =>
      rw [CharExpr.eval, Buffer.construct_eq, Buffer.inside_print_iff]
      exact ⟨⟨Buffer.inside_nil _, fits⟩, Buffer.string_print data.noNul _⟩
  | sized data size =>
      obtain ⟨positive, short⟩ := fits
      have clean : '\x00' ∉ (sized data size).text := text_noNul _
      rw [CharExpr.eval, Buffer.snprintf, if_neg (by omega), Buffer.inside_print_iff]
      exact ⟨⟨Buffer.inside_nil _, short⟩, Buffer.string_print clean _⟩
  | ofString data =>
      rw [CharExpr.eval, Buffer.constructString_eq, Buffer.inside_print_iff]
      exact ⟨⟨Buffer.inside_nil _, fits⟩, Buffer.string_print (cString_noNul data) _⟩
  | copy other ih =>
      obtain ⟨inside, string⟩ := ih fits
      rw [eval_copy, string, Buffer.inside_print_iff]
      exact ⟨⟨inside, fits.length_text⟩, Buffer.string_print (text_noNul _) _⟩
  | assign this other left right =>
      obtain ⟨before, fits⟩ := fits
      obtain ⟨inside, string⟩ := right fits
      have target : (this.eval fresh).Inside := by
        rcases before with whole | unwritten
        · exact (left whole).1
        · rw [eval_of_isUnwritten unwritten]
          exact Buffer.inside_nil _
      rw [eval_assign, string, Buffer.inside_print_iff, Buffer.inside_append_iff]
      exact ⟨⟨⟨target, inside⟩, fits.length_text⟩, Buffer.string_print (text_noNul _) _⟩
  | add this o left right =>
      obtain ⟨fitsLeft, fitsRight, short⟩ := fits
      obtain ⟨insideLeft, stringLeft⟩ := left fitsLeft
      obtain ⟨insideRight, stringRight⟩ := right fitsRight
      rw [eval_add, stringLeft, stringRight, Buffer.inside_print_iff, Buffer.inside_append_iff]
      exact ⟨⟨⟨insideLeft, insideRight⟩, short⟩, Buffer.string_print (text_noNul (add this o)) _⟩
  | addString this o ih =>
      obtain ⟨fits, short⟩ := fits
      obtain ⟨inside, string⟩ := ih fits
      rw [eval_addString, string, Buffer.inside_print_iff]
      exact ⟨⟨inside, short⟩, Buffer.string_print (text_noNul (addString this o)) _⟩
  | addAssign this rhs left right =>
      obtain ⟨fitsLeft, fitsRight, short⟩ := fits
      obtain ⟨insideLeft, stringLeft⟩ := left fitsLeft
      obtain ⟨insideRight, stringRight⟩ := right fitsRight
      rw [eval_addAssign, stringLeft, stringRight, Buffer.inside_print_iff,
        Buffer.inside_append_iff]
      exact ⟨⟨⟨insideLeft, insideRight⟩, short⟩,
        Buffer.string_print (text_noNul (addAssign this rhs)) _⟩

/-- Memory in which an object that is read before it is written is too long. -/
def flooded (_ : CharExpr) : List Char := List.replicate 256 'a'

theorem string_flooded {e : CharExpr} (unwritten : e.isUnwritten = true) :
    (e.eval flooded).string = List.replicate 256 'a' := by
  rw [eval_of_isUnwritten unwritten]
  apply cString_eq_self_iff.mpr
  intro mem
  exact absurd (List.eq_of_mem_replicate mem) (by decide)

/-- What is read as a string that fits an array has been written. -/
theorem fits_of_read {e : CharExpr} (built : e.Fits ∨ e.isUnwritten = true)
    (short : (e.eval flooded).string.length ≤ 255) :
    e.Fits ∧ (e.eval flooded).string = e.text := by
  rcases built with fits | unwritten
  · exact ⟨fits, (fits.eval flooded).2⟩
  · rw [string_flooded unwritten, List.length_replicate] at short
    omega

/-- An expression that stays inside its arrays, in the worst memory, fits. -/
theorem fits_of_inside {e : CharExpr} (inside : (e.eval flooded).Inside) :
    e.Fits ∨ e.isUnwritten = true := by
  induction e with
  | ofCString data =>
      rw [CharExpr.eval, Buffer.construct_eq, Buffer.inside_print_iff] at inside
      exact Or.inl inside.2
  | sized data size =>
      cases size with
      | zero => exact Or.inr rfl
      | succ size =>
          rw [CharExpr.eval, Buffer.snprintf, if_neg (by omega), Buffer.inside_print_iff] at inside
          exact Or.inl ⟨by omega, inside.2⟩
  | ofString data =>
      rw [CharExpr.eval, Buffer.constructString_eq, Buffer.inside_print_iff] at inside
      exact Or.inl inside.2
  | copy other ih =>
      rw [eval_copy, Buffer.inside_print_iff] at inside
      exact Or.inl (fits_of_read (ih inside.1) inside.2).1
  | assign this other left right =>
      rw [eval_assign, Buffer.inside_print_iff, Buffer.inside_append_iff] at inside
      exact Or.inl ⟨left inside.1.1, (fits_of_read (right inside.1.2) inside.2).1⟩
  | add this o left right =>
      rw [eval_add, Buffer.inside_print_iff, Buffer.inside_append_iff] at inside
      obtain ⟨⟨insideLeft, insideRight⟩, short⟩ := inside
      have sizes := short
      rw [List.length_append] at sizes
      obtain ⟨fitsLeft, stringLeft⟩ := fits_of_read (left insideLeft) (by omega)
      obtain ⟨fitsRight, stringRight⟩ := fits_of_read (right insideRight) (by omega)
      rw [stringLeft, stringRight] at short
      exact Or.inl ⟨fitsLeft, fitsRight, short⟩
  | addString this o ih =>
      rw [eval_addString, Buffer.inside_print_iff] at inside
      obtain ⟨inside, short⟩ := inside
      have sizes := short
      rw [List.length_append] at sizes
      obtain ⟨fits, string⟩ := fits_of_read (ih inside) (by omega)
      rw [string] at short
      exact Or.inl ⟨fits, short⟩
  | addAssign this rhs left right =>
      rw [eval_addAssign, Buffer.inside_print_iff, Buffer.inside_append_iff] at inside
      obtain ⟨⟨insideLeft, insideRight⟩, short⟩ := inside
      have sizes := short
      rw [List.length_append] at sizes
      obtain ⟨fitsLeft, stringLeft⟩ := fits_of_read (left insideLeft) (by omega)
      obtain ⟨fitsRight, stringRight⟩ := fits_of_read (right insideRight) (by omega)
      rw [stringLeft, stringRight] at short
      exact Or.inl ⟨fitsLeft, fitsRight, short⟩

/-! ### Texts and inputs -/

/-- Inputs without a NUL are the text. -/
theorem text_eq_inputs {e : CharExpr} (clean : '\x00' ∉ e.inputs) : e.text = e.inputs := by
  induction e with
  | ofCString data => rfl
  | sized data size => rfl
  | ofString data => exact cString_eq_self_iff.mpr clean
  | copy other ih => exact ih clean
  | assign this other _ ih => exact ih clean
  | add this o left right =>
      rw [inputs, List.mem_append, not_or] at clean
      rw [text, inputs, left clean.1, right clean.2]
  | addString this o ih =>
      rw [inputs, List.mem_append, not_or] at clean
      rw [text, inputs, ih clean.1, cString_eq_self_iff.mpr clean.2]
  | addAssign this rhs left right =>
      rw [inputs, List.mem_append, not_or] at clean
      rw [text, inputs, left clean.1, right clean.2]

/-- What is read of two parts is read of the first, or of the second behind a first part
without a NUL. -/
theorem cString_append_prefix {s t : List Char} {e : CharExpr} (first : cString e.inputs <+: e.text)
    (second : cString s <+: t) : cString (e.inputs ++ s) <+: e.text ++ t := by
  by_cases clean : '\x00' ∈ e.inputs
  · obtain ⟨before, after, split, free⟩ := List.eq_append_cons_of_mem clean
    have same : cString (e.inputs ++ s) = cString e.inputs := by
      rw [split, List.append_assoc, cString_append free, cString_append free]
      rfl
    rw [same]
    exact first.trans (List.prefix_append _ _)
  · rw [cString_append clean, text_eq_inputs clean]
    exact (List.prefix_append_right_inj _).mpr second

/-- The inputs before their first NUL are in the text. -/
theorem cString_inputs_prefix (e : CharExpr) : cString e.inputs <+: e.text := by
  induction e with
  | ofCString data => exact List.takeWhile_prefix _
  | sized data size => exact List.takeWhile_prefix _
  | ofString data => exact List.prefix_refl _
  | copy other ih => exact ih
  | assign this other _ ih => exact ih
  | add this o left right => exact cString_append_prefix left right
  | addString this o ih => exact cString_append_prefix ih (List.prefix_refl _)
  | addAssign this rhs left right => exact cString_append_prefix left right

theorem text_eq_take {e : CharExpr} (fits : e.Fits) (clean : '\x00' ∉ e.inputs.take 255) :
    e.text = e.inputs.take 255 := by
  by_cases long : 255 ≤ e.inputs.length
  · have read : e.inputs.take 255 <+: cString e.inputs := by
      conv_rhs => rw [← List.take_append_drop 255 e.inputs, cString_append clean]
      exact List.prefix_append _ _
    have kept := read.trans e.cString_inputs_prefix
    refine (kept.eq_of_length_le ?_).symm
    rw [List.length_take_of_le long]
    exact fits.length_text
  · have all : e.inputs.take 255 = e.inputs := List.take_of_length_le (by omega)
    rw [all] at clean ⊢
    exact text_eq_inputs clean

/-- An expression is safe exactly when it fits and no NUL stands in what is kept. -/
theorem safe_iff_fits (e : CharExpr) : e.Safe ↔ e.Fits ∧ '\x00' ∉ e.inputs.take 255 := by
  constructor
  · intro safe
    obtain ⟨inside, string⟩ := safe flooded
    have short : (e.eval flooded).string.length ≤ 255 := by
      rw [string]
      exact List.length_take_le _ _
    obtain ⟨fits, -⟩ := fits_of_read (fits_of_inside inside) short
    exact ⟨fits, string ▸ Buffer.string_noNul _⟩
  · rintro ⟨fits, clean⟩ fresh
    obtain ⟨inside, string⟩ := fits.eval fresh
    exact ⟨inside, string.trans (text_eq_take fits clean)⟩

/-! ### The strings of the constructors -/

/-- A `CharStruct` that is given. -/
def ofValue (c : CharStruct) : CharExpr := ofCString ⟨c.chars, c.noNul⟩

theorem noNul_nil : '\x00' ∉ ([] : List Char) := List.not_mem_nil

/-- The string literals of the constructors. -/
def noText : CharExpr := ofCString ⟨[], noNul_nil⟩

def slash : CharExpr := ofCString ⟨"/".toList, by decide⟩

def underscore : CharExpr := ofCString ⟨"_".toList, by decide⟩

def colon : CharExpr := ofCString ⟨":".toList, by decide⟩

def separator : CharExpr := ofCString ⟨"://".toList, by decide⟩

/-- The name of the backing file of a container. -/
def backedFile (backedFileDir name : CharStruct) (myServerIdx : UInt16) : CharExpr :=
  add (add (add (add (ofValue backedFileDir) slash) (ofValue name))
    underscore) (ofString (indexText myServerIdx))

/-- `x = protocol + "://"`, and `x += (device + "/")` when there is a device. -/
def front (protocol device : CharStruct) : CharExpr :=
  let scheme := assign noText (add (ofValue protocol) separator)
  if device.size > 0 then addAssign scheme (add (ofValue device) slash) else scheme

/-- `ip + ":" + std::to_string(port)`. -/
def address (ip : CharStruct) (port : UInt16) : CharExpr :=
  add (add (ofValue ip) colon) (ofString (portText port))

/-- The four strings of a URI, from the parts of the user's URI: `user_uri`, `client_uri`,
`server_uri` and `endpoint_uri`. -/
def uriStrings (uri ip : CharStruct) (port : UInt16) (protocol device interface : CharStruct) :
    List CharExpr :=
  [copy (ofValue uri), addAssign (front protocol CharStruct.empty) (address ip port),
    addAssign (front protocol device) (address ip port),
    addAssign (front protocol device) (ofValue interface)]

theorem fits_ofValue (c : CharStruct) : (ofValue c).Fits := c.fits

theorem text_ofValue (c : CharStruct) : (ofValue c).text = c.chars := rfl

theorem indexText_noNul (index : UInt16) : '\x00' ∉ indexText index := portText_noNul index

theorem cString_portText (port : UInt16) : cString (portText port) = portText port :=
  cString_eq_self_iff.mpr (portText_noNul port)

theorem cString_indexText (index : UInt16) : cString (indexText index) = indexText index :=
  cString_portText index

theorem text_front (P D : CharStruct) :
    (front P D).text = P.chars ++ "://".toList ++ devicePart D.chars := by
  unfold front devicePart CharStruct.size
  split <;> simp [text, ofValue, slash, separator]

theorem fits_front_iff (P D : CharStruct) :
    (front P D).Fits ↔ (P.chars ++ "://".toList ++ devicePart D.chars).length ≤ 255 := by
  have := P.fits
  have := D.fits
  unfold front devicePart CharStruct.size
  split <;> simp [Fits, text, ofValue, noText, slash, separator] <;> omega

theorem text_address (ip : CharStruct) (port : UInt16) :
    (address ip port).text = addressText ip.chars port := by
  simp [address, text, ofValue, colon, addressText, cString_portText]

theorem fits_address_iff (ip : CharStruct) (port : UInt16) :
    (address ip port).Fits ↔ (addressText ip.chars port).length ≤ 255 := by
  have := ip.fits
  simp [address, Fits, text, ofValue, colon, addressText, cString_portText]
  omega

/-- Expressions without `std::string`s that contain a NUL are safe when they fit. -/
theorem safe_iff_of_clean {e : CharExpr} (clean : '\x00' ∉ e.inputs) : e.Safe ↔ e.Fits := by
  rw [safe_iff_fits]
  refine and_iff_left ?_
  intro mem
  exact clean (List.mem_of_mem_take mem)

theorem inputs_noNul_ofValue (c : CharStruct) : '\x00' ∉ (ofValue c).inputs := c.noNul

theorem inputs_noNul_front (P D : CharStruct) : '\x00' ∉ (front P D).inputs := by
  have := P.noNul
  have := D.noNul
  unfold front
  split <;> simp_all [inputs, ofValue, slash, separator]

theorem inputs_noNul_address (ip : CharStruct) (port : UInt16) :
    '\x00' ∉ (address ip port).inputs := by
  have := ip.noNul
  have := portText_noNul port
  simp_all [address, inputs, ofValue, colon]

theorem safe_addAssign_iff {a b : CharExpr} (cleanLeft : '\x00' ∉ a.inputs)
    (cleanRight : '\x00' ∉ b.inputs) :
    (addAssign a b).Safe ↔ a.Fits ∧ b.Fits ∧ (a.text ++ b.text).length ≤ 255 := by
  refine safe_iff_of_clean ?_
  rw [inputs, List.mem_append, not_or]
  exact ⟨cleanLeft, cleanRight⟩

/-- The backing file's name is safe exactly when it fits. -/
theorem backedFile_safe_iff (dir name : CharStruct) (index : UInt16) :
    (backedFile dir name index).Safe ↔
      dir.size + 1 + name.size + 1 + (indexText index).length ≤ 255 := by
  have cleanDir := dir.noNul
  have cleanName := name.noNul
  have cleanIndex := indexText_noNul index
  have clean : '\x00' ∉ (backedFile dir name index).inputs := by
    simp_all [backedFile, inputs, ofValue, slash, underscore]
  have := dir.fits
  have := name.fits
  rw [safe_iff_of_clean clean]
  simp [backedFile, Fits, text, ofValue, slash, underscore, cString_indexText, CharStruct.size]
  omega

/-- The strings of a URI are safe exactly when that of the server fits: the client's is a part of
it, and the endpoint's is as long as the user's URI where that has a separator. -/
theorem uriStrings_safe_iff {uri P D N : CharStruct} (ip : CharStruct) (port : UInt16)
    (split : splitUri uri = .ok (P, D, N)) :
    (∀ e ∈ uriStrings uri ip port P D N, e.Safe) ↔
      (serverText P.chars D.chars ip.chars port).length ≤ 255 := by
  obtain ⟨p, d, n, format⟩ := UriFormat.exists uri.chars
  obtain ⟨rfl, rfl, finds⟩ := format.splitUri_eq_ok_iff.mp split
  simp only [uriStrings, List.forall_mem_cons, List.not_mem_nil, false_implies, implies_true,
    and_true]
  rw [safe_iff_of_clean (e := copy (ofValue uri)) uri.noNul,
    safe_addAssign_iff (inputs_noNul_front _ _) (inputs_noNul_address _ _),
    safe_addAssign_iff (inputs_noNul_front _ _) (inputs_noNul_address _ _),
    safe_addAssign_iff (inputs_noNul_front _ _) (inputs_noNul_ofValue _)]
  simp only [fits_front_iff, fits_address_iff, text_front, text_address, text_ofValue]
  constructor
  · intro safe
    exact safe.2.2.1.2.2
  · intro fits
    have endpoint := format.endpointText_length_le uri.fits fits
    have shorter := finds.suffix.length_le
    have noDevice : (devicePart CharStruct.empty.chars).length = 0 := rfl
    simp only [serverText, endpointText, List.length_append, noDevice] at fits endpoint ⊢
    exact ⟨fits_ofValue uri, ⟨by omega, by omega, by omega⟩, ⟨by omega, by omega, by omega⟩,
      ⟨by omega, fits_ofValue N, by omega⟩⟩

/-- The constructor of `Config.Uri` faults, once the parts are found, exactly when one of the
strings is not safe. -/
theorem new_isOk_iff_safe {uri ip P D N : CharStruct} {port : UInt16} (i : UInt16)
    (split : splitUri uri = .ok (P, D, N)) :
    (∃ v, URI.new i uri ip port = .ok v) ↔ ∀ e ∈ uriStrings uri ip port P D N, e.Safe := by
  rw [uriStrings_safe_iff ip port split]
  obtain ⟨p, d, n, format⟩ := UriFormat.exists uri.chars
  obtain ⟨rfl, rfl, finds⟩ := format.splitUri_eq_ok_iff.mp split
  constructor
  · rintro ⟨v, made⟩
    exact ((URI.new_isOk_iff format).mp ⟨v, made⟩).1
  · intro fits
    obtain ⟨v, -, -, -, made, -⟩ := format.exists_new fits finds i
    exact ⟨v, made⟩

/-- **An expression writes only bytes of its arrays, and its string is the first 255 characters
of its inputs**, exactly when every value on the way is at most 255 characters long and written
before it is read, and those characters contain no NUL. For a backing file that is its length;
for the strings of a URI, that of the server's. -/
theorem safe_iff (e : CharExpr) (dir name : CharStruct) (index : UInt16) (uri ip P D N : CharStruct)
    (port : UInt16) :
    (e.Safe ↔ e.Fits ∧ '\x00' ∉ e.inputs.take 255) ∧
      ((backedFile dir name index).Safe ↔
        dir.size + 1 + name.size + 1 + (indexText index).length ≤ 255) ∧
      (splitUri uri = .ok (P, D, N) →
        ((∀ e ∈ uriStrings uri ip port P D N, e.Safe) ↔
          (serverText P.chars D.chars ip.chars port).length ≤ 255)) := by
  constructor
  · exact safe_iff_fits e
  · constructor
    · exact backedFile_safe_iff dir name index
    · intro split
      exact uriStrings_safe_iff ip port split

/-- The strings for `ofi+tcp://`, the host `node1` and the port 9000. -/
theorem safe_node1 :
    let uri : CharStruct := ⟨"ofi+tcp://".toList, by decide, by decide⟩
    let ip : CharStruct := ⟨"node1".toList, by decide, by decide⟩
    let protocol : CharStruct := ⟨"ofi+tcp".toList, by decide, by decide⟩
    splitUri uri = .ok (protocol, CharStruct.empty, CharStruct.empty) ∧
      ∀ e ∈ uriStrings uri ip 9000 protocol CharStruct.empty CharStruct.empty, e.Safe := by
  have split : splitUri ⟨"ofi+tcp://".toList, by decide, by decide⟩ =
      .ok (⟨"ofi+tcp".toList, by decide, by decide⟩, CharStruct.empty, CharStruct.empty) := by
    decide
  have strings := (safe_iff (.ofValue CharStruct.empty) CharStruct.empty CharStruct.empty 0
    ⟨"ofi+tcp://".toList, by decide, by decide⟩ ⟨"node1".toList, by decide, by decide⟩
    ⟨"ofi+tcp".toList, by decide, by decide⟩ CharStruct.empty CharStruct.empty 9000).2.2 split
  exact ⟨split, strings.mpr (by decide)⟩

theorem replicate_noNul {c : Char} (other : '\x00' ≠ c) (n : Nat) : '\x00' ∉ List.replicate n c :=
  fun mem => other (List.eq_of_mem_replicate mem)

def longText : CString := ⟨List.replicate 256 'a', replicate_noNul (by decide) _⟩

def longDir : CharStruct where
  chars := List.replicate 200 'd'
  fits := List.length_replicate.trans_le (by decide)
  noNul := replicate_noNul (by decide) _

def longName : CharStruct where
  chars := List.replicate 60 'n'
  fits := List.length_replicate.trans_le (by decide)
  noNul := replicate_noNul (by decide) _

/-- A C string of 256 characters, and a directory of 200 with a name of 60: both write behind
the array. -/
theorem not_safe_long_name :
    ¬ (ofCString longText).Safe ∧ ¬ (backedFile longDir longName 0).Safe := by
  constructor
  · intro safe
    have short := ((safe_iff_fits _).mp safe).1
    rw [Fits, longText, List.length_replicate] at short
    omega
  · intro safe
    have short := (backedFile_safe_iff _ _ 0).mp safe
    have dirSize : longDir.size = 200 := List.length_replicate
    have nameSize : longName.size = 60 := List.length_replicate
    omega

end CharExpr

end Hcl.Config
