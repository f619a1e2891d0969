import Sese.Util.Scan

/-!
# Format options

What stands between the braces of a placeholder, `FormatOption`, and how strings are laid out
with it. The contents of a `StringBuilder` are the octets that were appended to it.
-/
namespace Sese.Text

inductive Align
  | left
  | center
  | right
  deriving DecidableEq, Repr

/-- The fields with the values that they are initialised with; `wide` and `float_placeholder` are
below `2 ^ 16`. -/
structure FormatOption where
  align : Align := .left
  wideChar : UInt8 := 32
  wide : ℕ := 0
  floatPlaceholder : ℕ := 0
  extType : UInt8 := 0
  deriving DecidableEq, Repr

/-- `std::strtol` with base 10: the value, and the text that the end pointer is left at. -/
def strtol (s : Bytes) : ℤ × Bytes :=
  let field := s.dropWhile isspace
  match scanInt field.length field with
  | none => (0, s)
  | some (n, rest) => (max (-2 ^ 63) (min n (2 ^ 63 - 1)), rest)

/-- `static_cast<uint16_t>`. -/
def toUInt16 (i : ℤ) : ℕ := (i % 2 ^ 16).toNat

namespace FormatOption

def isAlign (ch : UInt8) : Bool := ch = 60 ∨ ch = 62 ∨ ch = 94

def delectAlign (ch : UInt8) : Align :=
  if ch = 60 then .left else if ch = 62 then .right else .center

/-- The end of `parse`: the extended type. -/
def parseType (opt : FormatOption) : Bytes → Option FormatOption
  | [] => some opt
  | [ch] => some { opt with extType := ch }
  | _ => none

/-- The width and the precision. -/
def parseWide (opt : FormatOption) (rest : Bytes) : Option FormatOption :=
  if rest = [] then some opt
  else
    let (wide, rest) := strtol rest
    let opt := { opt with wide := toUInt16 wide }
    match rest with
    | 46 :: digits =>
      let (placeholder, rest) := strtol digits
      parseType { opt with floatPlaceholder := toUInt16 placeholder } rest
    | rest => parseType opt rest

/-- `none` for `false`. -/
def parse (opt : FormatOption) : Bytes → Option FormatOption
  | 58 :: value =>
    match value with
    | [] => some { opt with align := .left }
    | [ch] =>
      if isAlign ch then parseWide { opt with align := delectAlign ch } []
      else some { opt with extType := ch }
    | ch :: next :: rest =>
      if isAlign ch then parseWide { opt with align := delectAlign ch } (next :: rest)
      else if isAlign next then
        parseWide { opt with wideChar := ch, align := delectAlign next } rest
      else parseWide opt (ch :: next :: rest)
  | _ => none

end FormatOption

def formatOptionStringParse (opt : FormatOption) (optStr : Bytes) : Option FormatOption :=
  match opt.parse optStr with
  | none => none
  | some opt => if opt.extType ≠ 0 ∨ opt.floatPlaceholder ≠ 0 then none else some opt

def formatOptionStringFormat (builder : Bytes) (opt : FormatOption) (value : Bytes) : Bytes :=
  if opt.wide ≤ value.length then builder ++ value
  else
    let diff := opt.wide - value.length
    match opt.align with
    | .left => builder ++ (value ++ List.replicate diff opt.wideChar)
    | .right => builder ++ (List.replicate diff opt.wideChar ++ value)
    | .center =>
      builder ++ (List.replicate (diff / 2) opt.wideChar ++ value ++
        List.replicate (if diff % 2 = 1 then diff / 2 + 1 else diff / 2) opt.wideChar)

end Sese.Text
