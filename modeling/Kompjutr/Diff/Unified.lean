/-
  Kompjutr.Diff.Unified

  The hunks of a unified diff (`diff/unified.ts`).
-/
import Kompjutr.Diff.State
import Kompjutr.Objects.Serialize

namespace Kompjutr.Diff

open Objects (Text text formatNumber)

/-- How wide git's function-name buffer is, in characters. -/
def funcNameLimit : Nat := 80

structure UnifiedOptions where
  /-- Context lines around each hunk. -/
  context : Option Nat
  /-- Append the enclosing "function" line to hunk headers. -/
  functionNames : Option Bool
  deriving DecidableEq

def emitRecord (mark : UInt16) (line : Text) : Text :=
  if line.getLast? = some 0x0a then mark :: line
  else mark :: line ++ text "\n\\ No newline at end of file\n"

/-- One side of a header. -/
def headerRange (start count : Int) : Text :=
  if count = 1 then formatNumber start
  else formatNumber (if count = 0 then start - 1 else start) ++ text "," ++ formatNumber count

def hunkHeader (start1 count1 start2 count2 : Int) (functionName : Text) : Text :=
  text "@@ -" ++ headerRange start1 count1 ++ text " +" ++ headerRange start2 count2 ++ text " @@" ++
    (if functionName = [] then [] else text " " ++ functionName) ++ text "\n"

/-- `/[A-Za-z_$]/`. -/
def startsName (unit : UInt16) : Bool :=
  (0x41 ≤ unit && unit ≤ 0x5a) || (0x61 ≤ unit && unit ≤ 0x7a) || unit = 0x5f || unit = 0x24

/-- `text.slice(0, FUNC_NAME_LIMIT).replace(/\s+$/, "")`. -/
def nameOf (line : Text) : Text := (line.take funcNameLimit).rdropWhile Objects.isSpace

/-- The loop of `findFunctionLine`, with at most `n` lines to go. -/
def functionLineLoop (lines : List Text) (step limit : Int) : (n : Nat) → (line : Int) → Option Text
  | 0, _ => none
  | n + 1, line =>
    if line = limit then none
    else
      match readAt lines line with
      | none => none
      | some units =>
        if units.head?.any startsName then some (nameOf units)
        else functionLineLoop lines step limit n (line + step)

/-- It leaves the lines after as many turns as there are lines. -/
def findFunctionLine (lines : List Text) (start limit : Int) : Option Text :=
  let step := if start > limit then -1 else 1
  functionLineLoop lines step limit lines.length start

/-- What one hunk leaves for the name of the next one. -/
structure FunctionSearch where
  previousFunctionSearch : Int
  functionName : Text
  deriving DecidableEq

def nextFunctionSearch (oldLines : List Text) (start1 : Int) (search : FunctionSearch) :
    FunctionSearch where
  previousFunctionSearch := start1 - 1
  functionName := (findFunctionLine oldLines (start1 - 1) search.previousFunctionSearch).getD
    search.functionName

/-- Emit `n` lines from `line` on; reading a line that is not there throws. -/
def emitLoop (mark : UInt16) (lines : List Text) : (n : Nat) → (line : Int) → Option Text
  | 0, _ => some []
  | n + 1, line => do
    let record ← readAt lines line
    let rest ← emitLoop mark lines n (line + 1)
    some (emitRecord mark record ++ rest)

/-- `for (let line = start; line < stop; line++) emitRecord(out, mark, lines[line]!)`. -/
def emitRecords (mark : UInt16) (lines : List Text) (start stop : Int) : Option Text :=
  emitLoop mark lines (stop - start).toNat start

/-- The body of a hunk from line `start2` of the new file, with these changes to come. -/
def emitChanges (oldLines newLines : List Text) (end2 : Int) :
    (start2 : Int) → List ChangeGroup → Option Text
  | start2, [] => emitRecords 0x20 newLines start2 end2
  | start2, change :: changes => do
    let context ← emitRecords 0x20 newLines start2 change.newStart
    let removed ← emitRecords 0x2d oldLines change.oldStart (change.oldStart + change.oldCount)
    let added ← emitRecords 0x2b newLines change.newStart (change.newStart + change.newCount)
    let rest ← emitChanges oldLines newLines end2 (change.newStart + change.newCount) changes
    some (context ++ (removed ++ (added ++ rest)))

/-- The changes that share hunks: those that are no further apart than `maxCommon`. -/
def groupHunks (maxCommon : Int) : List ChangeGroup → List (ChangeGroup × List ChangeGroup)
  | [] => []
  | previous :: changes =>
    match groupHunks maxCommon changes with
    | [] => [(previous, [])]
    | (next, more) :: hunks =>
      if next.oldStart - (previous.oldStart + previous.oldCount) > maxCommon then
        (previous, []) :: (next, more) :: hunks
      else (previous, next :: more) :: hunks

def emitHunk (oldLines newLines : List Text) (context : Int) (functionNames : Bool)
    (search : FunctionSearch) (first : ChangeGroup) (more : List ChangeGroup) :
    Option (Text × FunctionSearch) :=
  let final := more.getLastD first
  let start1 := max (first.oldStart - context) 0
  let start2 := max (first.newStart - context) 0
  let trailing := min context (min ((oldLines.length : Int) - (final.oldStart + final.oldCount))
    ((newLines.length : Int) - (final.newStart + final.newCount)))
  let end1 := final.oldStart + final.oldCount + trailing
  let end2 := final.newStart + final.newCount + trailing
  let search := if functionNames then nextFunctionSearch oldLines start1 search else search
  (emitChanges oldLines newLines end2 start2 (first :: more)).map fun body =>
    (hunkHeader (start1 + 1) (end1 - start1) (start2 + 1) (end2 - start2) search.functionName ++ body,
      search)

def emitHunks (oldLines newLines : List Text) (context : Int) (functionNames : Bool) :
    FunctionSearch → List (ChangeGroup × List ChangeGroup) → Option Text
  | _, [] => some []
  | search, (first, more) :: hunks => do
    let (hunk, search) ← emitHunk oldLines newLines context functionNames search first more
    let rest ← emitHunks oldLines newLines context functionNames search hunks
    some (hunk ++ rest)

/-- The hunks of a unified diff.  There is no answer when a change names lines that are not there:
    reading them throws. -/
def unifiedHunks (oldLines newLines : Lines Text) (changes : List ChangeGroup)
    (options : UnifiedOptions) : Option Text :=
  let context : Int := options.context.getD 3
  let functionNames := options.functionNames.getD true
  let maxCommon := context * 2
  emitHunks oldLines.toList newLines.toList context functionNames
    { previousFunctionSearch := -1, functionName := [] } (groupHunks maxCommon changes)

end Kompjutr.Diff
