/-
  Kompjutr.Sort.Command

  Key extraction (`shell/commands/sort/keys.ts`) and the order of lines (`shell/commands/sort/sort.ts`).

  Keys are compared in order, then the whole line as bytes unless `-s` or `-u` is given.  Without a
  key the whole line is the one key.
-/
import Kompjutr.Lib.Compare
import Kompjutr.Sort.Compare

namespace Kompjutr.Sort

-- Keys

structure SortKey where
  /-- Zero-based. -/
  startField : Nat
  /-- Zero-based offset into the start field. -/
  startChar : Nat
  /-- Zero-based; none runs the key to the end of the line. -/
  endField : Option Nat
  /-- One-based last byte of the end field; 0 is the end of that field. -/
  endChar : Nat
  options : KeyOptions
  deriving DecidableEq

/-- The bytes of a line from a position up to its end. -/
def between (line : List UInt8) (position stop : Nat) : List UInt8 :=
  (line.drop position).take (stop - position)

def skipBlanks (line : List UInt8) (position stop : Nat) : Nat :=
  position + ((between line position stop).takeWhile isBlank).length

/-- The byte after the field that begins at a position. -/
def fieldEnd (line : List UInt8) (position stop : Nat) (separator : Option UInt8) : Nat :=
  match separator with
  | some u => position + ((between line position stop).takeWhile (· ≠ u)).length
  | none =>
    let cursor := skipBlanks line position stop
    cursor + ((between line cursor stop).takeWhile fun byte => !isBlank byte).length

/-- The first byte of a field some fields behind a position. -/
def fieldStart (line : List UInt8) (stop : Nat) (separator : Option UInt8) : Nat → Nat → Nat
  | 0, position => position
  | fields + 1, position =>
    if position < stop then
      let reached := fieldEnd line position stop separator
      fieldStart line stop separator fields
        (if separator.isSome && reached < stop then reached + 1 else reached)
    else position

def keyStart (line : Span) (key : SortKey) (separator : Option UInt8) : Nat :=
  let field := fieldStart line.bytes line.stop separator key.startField line.start
  let counted := if key.options.blanksAtStart then skipBlanks line.bytes field line.stop else field
  min (counted + key.startChar) line.stop

def keyEnd (line : Span) (key : SortKey) (separator : Option UInt8) : Nat :=
  match key.endField with
  | none => line.stop
  | some endField =>
    let field := fieldStart line.bytes line.stop separator endField line.start
    if key.endChar = 0 then fieldEnd line.bytes field line.stop separator
    else
      let counted := if key.options.blanksAtEnd then skipBlanks line.bytes field line.stop else field
      min (counted + key.endChar) line.stop

def keySpan (line : Span) (key : SortKey) (separator : Option UInt8) : Span :=
  let start := keyStart line key separator
  { bytes := line.bytes, start, stop := max start (keyEnd line key separator) }

-- Lines

/-- The settings that the order of lines depends on. -/
structure SortSettings where
  global : KeyOptions
  keys : List SortKey
  unique : Bool
  stable : Bool
  separator : Option UInt8
  deriving DecidableEq

def skipBlanksOf (line : Span) (skip : Bool) : Span :=
  if skip then { line with start := skipBlanks line.bytes line.start line.stop } else line

def compareKeys (separator : Option UInt8) : List SortKey → Span → Span → Int
  | [], _, _ => 0
  | key :: keys, left, right =>
    let difference := compareSpans (keySpan left key separator) (keySpan right key separator) key.options
    if difference ≠ 0 then if key.options.reverse then -difference else difference
    else compareKeys separator keys left right

def compareWhole (global : KeyOptions) (left right : Span) : Int :=
  let plain := if global.mode = .numeric then comparePlainNumbers left right else none
  let difference := plain.getD (compareSpans (skipBlanksOf left global.blanksAtStart)
    (skipBlanksOf right global.blanksAtStart) global)
  if global.reverse then -difference else difference

abbrev Line := List UInt8

def spanOf (line : Line) : Span := { bytes := line, start := 0, stop := line.length }

/-- `comparator`, on two lines. -/
def comparator (settings : SortSettings) (left right : Line) : Int :=
  let difference :=
    if settings.keys = [] then compareWhole settings.global (spanOf left) (spanOf right)
    else compareKeys settings.separator settings.keys (spanOf left) (spanOf right)
  if difference ≠ 0 || settings.stable || settings.unique then difference
  else
    let bytes := compareBytes left right
    if settings.global.reverse then -bytes else bytes

/-- The lines that differ from the last line kept. -/
def uniqueFrom (equal : Line → Line → Int) : Option Line → List Line → List Line
  | _, [] => []
  | previous, line :: lines =>
    if previous.all fun kept => equal kept line ≠ 0 then line :: uniqueFrom equal (some line) lines
    else uniqueFrom equal previous lines

def uniqueLines (equal : Line → Line → Int) (lines : List Line) : List Line :=
  uniqueFrom equal none lines

/-- The lines that `sort` writes. -/
def sortLines (settings : SortSettings) (lines : List Line) : List Line :=
  let sorted := Compare.sortBy (comparator settings) lines
  if settings.unique then uniqueLines (comparator settings) sorted else sorted

/-- `sort -c`: the number of the first line out of order, behind `count` lines. -/
def findDisorder (settings : SortSettings) (count : Nat) : Option Line → List Line → Option (Nat × Line)
  | _, [] => none
  | previous, line :: lines =>
    if previous.any fun kept =>
        0 < comparator settings kept line || (settings.unique && comparator settings kept line = 0) then
      some (count + 1, line)
    else findDisorder settings (count + 1) (some line) lines

end Kompjutr.Sort
