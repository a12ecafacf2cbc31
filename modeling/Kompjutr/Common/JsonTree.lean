/-
  Kompjutr.Common.JsonTree

  `JSON.parse` of any text, and the text that `JSON.stringify` makes of nested objects and lists.

  A number is the exact value that its text denotes.
-/
import Kompjutr.Common.Json

namespace Kompjutr.Json

open Objects (Text text isDigit digitsValue)

/-- What a JSON text denotes. -/
inductive Tree where
  | null
  | bool (value : Bool)
  | number (value : Int)
  /-- A number that is not whole, as it is written. -/
  | fraction (value : Text)
  | string (value : Text)
  | array (elements : List Tree)
  | object (members : List (Text × Tree))

/-- `Reflect.get` of an object that was parsed: of two members of one name the last counts. -/
def Tree.field (name : String) : Tree → Option Tree
  | .object members => (members.reverse.lookup (text name))
  | _ => none

/-- A member of an object, by its name and its value as it is written and as it is read. -/
abbrev Member := String × Text × Tree

-- Writing

/-- A list of values that are written already. -/
def arrayText (values : List Text) : Text := [0x5b] ++ List.intercalate [0x2c] values ++ [0x5d]

/-- An object whose values are written already. -/
def objectText (members : List (String × Text)) : Text :=
  [0x7b] ++ List.intercalate [0x2c] (members.map fun member =>
    quoted (text member.1) ++ [0x3a] ++ member.2) ++ [0x7d]

-- Reading

/-- The whole number `mantissa · 10 ^ exponent`, where it is one. -/
def wholeValue (mantissa exponent : Int) : Option Int :=
  if 0 ≤ exponent then some (mantissa * 10 ^ exponent.toNat)
  else if mantissa % 10 ^ (-exponent).toNat = 0 then some (mantissa / 10 ^ (-exponent).toNat)
  else none

/-- The digits behind a point, and what follows them. -/
def parseFraction (value : Text) : Option (Text × Text) :=
  match value with
  | [] => some ([], [])
  | unit :: rest =>
    if unit = 0x2e then
      let digits := rest.takeWhile isDigit
      if digits = [] then none else some (digits, rest.drop digits.length)
    else some ([], value)

/-- An exponent, and what follows it. -/
def parseExponent (value : Text) : Option (Int × Text) :=
  match value with
  | [] => some (0, [])
  | unit :: rest =>
    if unit = 0x65 || unit = 0x45 then
      let signed : Bool × Text := match rest with
        | [] => (false, [])
        | sign :: more =>
          if sign = 0x2d then (true, more) else if sign = 0x2b then (false, more) else (false, rest)
      let digits := signed.2.takeWhile isDigit
      if digits = [] then none
      else some (if signed.1 then -digitsValue digits else digitsValue digits,
        signed.2.drop digits.length)
    else some (0, value)

/-- Whether a number is negative, and what follows its sign. -/
def numberSign (value : Text) : Bool × Text :=
  match value with
  | [] => (false, [])
  | unit :: rest => if unit = 0x2d then (true, rest) else (false, value)

/-- A number, and what follows it. -/
def parseNumber (value : Text) : Option (Tree × Text) :=
  let signed := numberSign value
  let digits := signed.2.takeWhile isDigit
  if digits = [] || (digits.head? = some 0x30 && digits.length ≠ 1) then none
  else
    (parseFraction (signed.2.drop digits.length)).bind fun fraction =>
    (parseExponent fraction.2).map fun exponent =>
    let magnitude := digitsValue (digits ++ fraction.1)
    let mantissa := if signed.1 then -magnitude else magnitude
    match wholeValue mantissa (exponent.1 - fraction.1.length) with
    | some whole => (.number whole, exponent.2)
    | none => (.fraction (value.take (value.length - exponent.2.length)), exponent.2)

/-- One of the three literals, and what follows it. -/
def parseLiteral (value : Text) : Option (Tree × Text) :=
  if (text "null").isPrefixOf value then some (.null, value.drop 4)
  else if (text "true").isPrefixOf value then some (.bool true, value.drop 4)
  else if (text "false").isPrefixOf value then some (.bool false, value.drop 5)
  else none

mutual

/-- A value, and what follows it.  No value is nested deeper than its text is long. -/
def parseTree : Nat → Text → Option (Tree × Text)
  | 0, _ => none
  | fuel + 1, value =>
    match skipSpace value with
    | [] => none
    | unit :: rest =>
      if unit = 0x22 then (parseString (rest.length + 1) rest).map fun parsed =>
        (.string parsed.1, parsed.2)
      else if unit = 0x5b then
        match skipSpace rest with
        | [] => none
        | next :: more =>
          if next = 0x5d then some (.array [], more)
          else (parseElements fuel rest).map fun parsed => (.array parsed.1, parsed.2)
      else if unit = 0x7b then
        match skipSpace rest with
        | [] => none
        | next :: more =>
          if next = 0x7d then some (.object [], more)
          else (parseMembers fuel rest).map fun parsed => (.object parsed.1, parsed.2)
      else (parseLiteral (unit :: rest)).or (parseNumber (unit :: rest))

/-- The values of a list that has one at least, and what follows the list. -/
def parseElements : Nat → Text → Option (List Tree × Text)
  | 0, _ => none
  | fuel + 1, value =>
    (parseTree fuel value).bind fun parsed =>
      match skipSpace parsed.2 with
      | [] => none
      | unit :: rest =>
        if unit = 0x5d then some ([parsed.1], rest)
        else if unit = 0x2c then
          (parseElements fuel rest).map fun more => (parsed.1 :: more.1, more.2)
        else none

/-- The members of an object that has one at least, and what follows the object. -/
def parseMembers : Nat → Text → Option (List (Text × Tree) × Text)
  | 0, _ => none
  | fuel + 1, value =>
    match skipSpace value with
    | [] => none
    | quote :: rest =>
      if quote ≠ 0x22 then none
      else
        (parseString (rest.length + 1) rest).bind fun name =>
          match skipSpace name.2 with
          | [] => none
          | colon :: rest =>
            if colon ≠ 0x3a then none
            else
              (parseTree fuel rest).bind fun parsed =>
                match skipSpace parsed.2 with
                | [] => none
                | unit :: rest =>
                  if unit = 0x7d then some ([(name.1, parsed.1)], rest)
                  else if unit = 0x2c then
                    (parseMembers fuel rest).map fun more => ((name.1, parsed.1) :: more.1, more.2)
                  else none

end

/-- `JSON.parse`; none where it throws. -/
def parse (value : Text) : Option Tree :=
  (parseTree (2 * value.length) value).bind fun parsed =>
    if skipSpace parsed.2 = [] then some parsed.1 else none

end Kompjutr.Json
