/-
  Kompjutr.Diff.Myers

  `diff/myers.ts`: the pipeline of the xdiff port,

    classify -> trim ends -> cleanup records -> Myers split -> compact.

  `diffLines` runs it over strings, `diffByteRecords` over byte records.
-/
import Kompjutr.Diff.Prepare
import Kompjutr.Diff.Search
import Kompjutr.Diff.Compact

namespace Kompjutr.Diff

/-- A fresh side over `lines`. -/
def sideOf (lines : List LineRecord) (classes : List Nat) : Side :=
  { lines, classes, changed := Marks.ofLength lines.length, reference := []
    dstart := 0, dend := lines.length - 1 }

def environmentFor (diagonalCount : Nat) : Environment :=
  { maxCost := max (bogosqrt diagonalCount : Int) maxCostMin
    snakeCount := snakeCnt
    heuristicMinimum := heurMinCost }

/-- `diffClassified`. -/
def diffClassified (fuel : Nat) (oldLines newLines : List LineRecord) (classes : Classes)
    (options : DiffLinesOptions) : Option (Except GitError (List ChangeGroup)) := do
  let (left, right) := trimEnds (sideOf oldLines classes.oldClasses)
    (sideOf newLines classes.newClasses)
  let (left, right) := cleanupRecords left right classes.inNew classes.inOld
  let diagonalCount := left.reference.length + right.reference.length + 3
  let size := 2 * diagonalCount + 2
  let offset : Int := right.reference.length + 2
  let w ← compare (environmentFor diagonalCount) fuel
    { left, right
      forward := Diagonals.ofSize size offset, backward := Diagonals.ofSize size offset }
    0 left.reference.length 0 right.reference.length false
  let indentHeuristic := options.indentHeuristic ≠ some false
  let left ← compact fuel w.left w.right indentHeuristic
  let right ← compact fuel w.right left indentHeuristic
  buildScript fuel left right options.maxChanges

def diffLines (fuel : Nat) (oldLines newLines : List (List UInt16)) (options : DiffLinesOptions) :
    Option (Except GitError (List ChangeGroup)) :=
  diffClassified fuel (oldLines.map .text) (newLines.map .text) (classify oldLines newLines) options

/-- Byte-record variant used by xmerge without decoding arbitrary blob bytes. -/
def diffByteRecords (fuel : Nat) (oldLines newLines : List ByteRecord)
    (options : DiffLinesOptions) : Option (Except GitError (List ChangeGroup)) :=
  diffClassified fuel (oldLines.map .record) (newLines.map .record)
    (classifyBytes oldLines newLines) options

end Kompjutr.Diff
