/-
  Kompjutr.Common.Json

  The text `JSON.stringify` makes of the flat objects that statements are bound to, and
  how many bytes of UTF-8 it takes.
-/
import Kompjutr.Objects.Serialize

namespace Kompjutr.Json

open Objects (Text text)

/-- A field's value: text, a whole number, or `null`. -/
inductive Value where
  | text (value : Text)
  | number (value : Int)
  | null
  deriving DecidableEq

def hexDigit (digit : Nat) : UInt16 :=
  if digit < 10 then (0x30 + digit).toUInt16 else (0x57 + digit).toUInt16

/-- `\uXXXX`. -/
def unicodeEscape (unit : UInt16) : Text :=
  [0x5c, 0x75, hexDigit (unit.toNat / 0x1000), hexDigit (unit.toNat / 0x100 % 0x10),
    hexDigit (unit.toNat / 0x10 % 0x10), hexDigit (unit.toNat % 0x10)]

/-- The escape of a unit that has one; a lone surrogate is escaped where it stands. -/
def escapeUnit (unit : UInt16) : Text :=
  if unit = 0x22 then [0x5c, 0x22]
  else if unit = 0x5c then [0x5c, 0x5c]
  else if unit = 0x08 then [0x5c, 0x62]
  else if unit = 0x09 then [0x5c, 0x74]
  else if unit = 0x0a then [0x5c, 0x6e]
  else if unit = 0x0c then [0x5c, 0x66]
  else if unit = 0x0d then [0x5c, 0x72]
  else if unit < 0x20 then unicodeEscape unit
  else [unit]

def escape : Text → Text
  | [] => []
  | unit :: rest =>
    if Utf8.isHigh unit then
      match rest with
      | low :: more =>
        if Utf8.isLow low then unit :: low :: escape more
        else unicodeEscape unit ++ escape (low :: more)
      | [] => unicodeEscape unit
    else if Utf8.isLow unit then unicodeEscape unit ++ escape rest
    else escapeUnit unit ++ escape rest

def quoted (value : Text) : Text := [0x22] ++ escape value ++ [0x22]

def Value.stringify : Value → Text
  | .text value => quoted value
  | .number value => Objects.formatNumber value
  | .null => Objects.text "null"

/-- A list of strings. -/
def stringifyArray (values : List Text) : Text :=
  [0x5b] ++ List.intercalate [0x2c] (values.map quoted) ++ [0x5d]

/-- An object, its fields in order. -/
def stringify (fields : List (String × Value)) : Text :=
  [0x7b] ++ List.intercalate [0x2c] (fields.map fun field =>
    quoted (text field.1) ++ [0x3a] ++ field.2.stringify) ++ [0x7d]

-- Reading a list of strings

def isSpace (unit : UInt16) : Bool := unit = 0x20 || unit = 0x09 || unit = 0x0a || unit = 0x0d

def skipSpace (value : Text) : Text := value.dropWhile isSpace

def hexValue (unit : UInt16) : Option Nat :=
  if 0x30 ≤ unit && unit ≤ 0x39 then some (unit.toNat - 0x30)
  else if 0x61 ≤ unit && unit ≤ 0x66 then some (unit.toNat - 0x57)
  else if 0x41 ≤ unit && unit ≤ 0x46 then some (unit.toNat - 0x37)
  else none

/-- The escapes of one letter. -/
def letterEscapes : List (UInt16 × UInt16) :=
  [(0x22, 0x22), (0x5c, 0x5c), (0x2f, 0x2f), (0x62, 0x08), (0x66, 0x0c), (0x6e, 0x0a),
    (0x72, 0x0d), (0x74, 0x09)]

/-- The unit of an escape, read from after its backslash, and what follows. -/
def unescape : Text → Option (UInt16 × Text)
  | [] => none
  | letter :: rest =>
    if letter = 0x75 then
      match rest with
      | a :: b :: c :: d :: rest =>
        match hexValue a, hexValue b, hexValue c, hexValue d with
        | some a, some b, some c, some d =>
          some ((((a * 0x10 + b) * 0x10 + c) * 0x10 + d).toUInt16, rest)
        | _, _, _, _ => none
      | _ => none
    else (letterEscapes.lookup letter).map fun unit => (unit, rest)

/-- A string, read from after its opening quote, and what follows.  No string takes more turns
    than it has units. -/
def parseString : Nat → Text → Option (Text × Text)
  | 0, _ => none
  | _, [] => none
  | fuel + 1, unit :: rest =>
    if unit = 0x22 then some ([], rest)
    else if unit = 0x5c then
      (unescape rest).bind fun escaped =>
        (parseString fuel escaped.2).map fun parsed => (escaped.1 :: parsed.1, parsed.2)
    else if unit < 0x20 then none
    else (parseString fuel rest).map fun parsed => (unit :: parsed.1, parsed.2)

/-- The strings of a list that has at least one, and what follows the list. -/
def parseStrings : Nat → Text → Option (List Text × Text)
  | 0, _ => none
  | fuel + 1, value =>
    match skipSpace value with
    | [] => none
    | quote :: rest =>
      if quote ≠ 0x22 then none
      else
        (parseString (rest.length + 1) rest).bind fun parsed =>
          match skipSpace parsed.2 with
          | [] => none
          | unit :: rest =>
            if unit = 0x5d then some ([parsed.1], rest)
            else if unit = 0x2c then
              (parseStrings fuel rest).map fun more => (parsed.1 :: more.1, more.2)
            else none

/-- `JSON.parse` of a list of strings; anything else has no answer. -/
def parseStringArray (value : Text) : Option (List Text) :=
  match skipSpace value with
  | [] => none
  | bracket :: rest =>
    if bracket ≠ 0x5b then none
    else
      let parsed :=
        match skipSpace rest with
        | [] => none
        | unit :: more => if unit = 0x5d then some ([], more) else parseStrings rest.length rest
      parsed.bind fun parsed => if skipSpace parsed.2 = [] then some parsed.1 else none

/-- The bytes of a text in UTF-8. -/
def utf8ByteLength (value : Text) : Nat := (Utf8.encode value).length

end Kompjutr.Json
