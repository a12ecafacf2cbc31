/-
  Kompjutr.Patch.Locate

  Where a hunk applies (`shell/commands/patch/locate.ts`).

  A fuzz level takes candidates outwards from the guess, nearest first and forward before backward
  at equal distance.  They come from the index of the file where it fits the retained budget, and
  are all starts otherwise.
-/
import Kompjutr.Patch.FileLines

namespace Kompjutr.Locate

-- Hunks

inductive HunkLineKind where
  | context | removed | added
  deriving DecidableEq

structure HunkLine where
  kind : HunkLineKind
  bytes : List UInt8
  newline : Bool
  deriving DecidableEq

structure Hunk where
  /-- One-based first old line. -/
  oldFirst : Nat
  lines : List HunkLine
  deriving DecidableEq

def isOld (line : HunkLine) : Bool := line.kind = .context || line.kind = .removed

def HunkLine.hash (line : HunkLine) : UInt32 := hashLine line.bytes 0 line.bytes.length line.newline

/-- The old side of a hunk, prepared for searching. -/
structure Pattern where
  oldFirst : Nat
  lines : List HunkLine
  hashes : List UInt32
  prefixLength : Nat
  suffixLength : Nat
  hashes_eq : hashes = lines.map HunkLine.hash

def Pattern.length (pattern : Pattern) : Nat := pattern.lines.length

def Pattern.context (pattern : Pattern) : Nat := max pattern.prefixLength pattern.suffixLength

/-- The constructor. -/
def patternOf (hunk : Hunk) : Pattern :=
  let old := hunk.lines.filter isOld
  let prefixLength := (hunk.lines.takeWhile fun line => line.kind = .context).length
  { oldFirst := hunk.oldFirst, lines := old
    hashes := old.map HunkLine.hash
    prefixLength
    suffixLength := ((hunk.lines.drop prefixLength).reverse.takeWhile
      fun line => line.kind = .context).length
    hashes_eq := rfl }

/-- Byte comparison of an old line with a file line. -/
def Pattern.bytesMatch (pattern : Pattern) (file : FileLines) (line old : Nat) : Bool :=
  (pattern.lines[old]?).any fun hunkLine => file.equals line hunkLine.bytes hunkLine.newline

-- Levels

inductive Found where
  | placed (position : Int) (fuzz : Nat)
  | misordered (position : Int)
  deriving DecidableEq

structure Level where
  fuzz : Nat
  skipPrefix : Nat
  skipSuffix : Nat
  anchorStart : Bool
  anchorEnd : Bool
  deriving DecidableEq

def level (pattern : Pattern) (fuzz : Nat) : Level :=
  let skipPrefix := min pattern.prefixLength (fuzz - (pattern.context - pattern.prefixLength))
  let skipSuffix := min pattern.suffixLength (fuzz - (pattern.context - pattern.suffixLength))
  let leading := pattern.prefixLength - skipPrefix
  let trailing := pattern.suffixLength - skipSuffix
  { fuzz, skipPrefix, skipSuffix
    anchorStart := leading < trailing && pattern.oldFirst = 1
    anchorEnd := trailing < leading }

/-- The old lines that a level compares. -/
def compared (pattern : Pattern) (rules : Level) : List Nat :=
  List.range' rules.skipPrefix (pattern.length - rules.skipSuffix - rules.skipPrefix)

/-- The rules of a level about where a hunk may start. -/
def anchored (file : FileLines) (pattern : Pattern) (position : Int) (rules : Level) : Bool :=
  0 ≤ position && !(rules.anchorStart && position ≠ 0) &&
    !(rules.anchorEnd && position + pattern.length ≠ file.count)

def fits (file : FileLines) (pattern : Pattern) (position : Int) (rules : Level) : Bool :=
  anchored file pattern position rules &&
    ((compared pattern rules).all fun old =>
      !(file.count ≤ position.toNat + old ||
        file.hashes[position.toNat + old]? ≠ pattern.hashes[old]?)) &&
    (compared pattern rules).all fun old => pattern.bytesMatch file (position.toNat + old) old

/-- None stands for `"skip"`. -/
def judge (pattern : Pattern) (position : Int) (rules : Level) (floor : Int) : Option Found :=
  if position + pattern.prefixLength < floor then some (.misordered position)
  else if position + rules.skipPrefix < floor - 1 then none
  else some (.placed position rules.fuzz)

-- Search

/-- The loop of `nearest`; none stands for `"next"`. -/
def nearestFrom (guess lowest last : Int) (decide : Int → Option Found) (forward backward : Int) :
    Option Found :=
  if _h : forward ≤ last ∨ lowest ≤ backward then
    if _hforward : forward ≤ last ∧ (lowest ≤ backward → forward - guess ≤ guess - backward) then
      match decide forward with
      | some found => some found
      | none => nearestFrom guess lowest last decide (forward + 1) backward
    else
      match decide backward with
      | some found => some found
      | none => nearestFrom guess lowest last decide forward (backward - 1)
  else none
termination_by (last + 1 - forward).toNat + (backward + 1 - lowest).toNat
decreasing_by all_goals omega

/-- Every start between two bounds, outwards from the guess. -/
def nearest (guess lowest last : Int) (decide : Int → Option Found) : Option Found :=
  nearestFrom guess lowest last decide (max guess 0) (min (guess - 1) last)

/-- The start that a line implies. -/
def startOf (lines : List Nat) (probe index : Nat) : Int := (lines[index]?.getD 0 : Int) - probe

/-- The binary search of `nearestOf`. -/
def bisect (lines : List Nat) (probe : Nat) (guess : Int) (low high : Nat) : Nat :=
  if _h : low < high then
    let middle := (low + high) / 2
    if startOf lines probe middle < guess then bisect lines probe guess (middle + 1) high
    else bisect lines probe guess low middle
  else low
termination_by high - low
decreasing_by all_goals omega

/-- The loop of `nearestOf`; `behind` counts the lines that are left before the guess. -/
def nearestOfFrom (lines : List Nat) (probe : Nat) (guess : Int) (decide : Int → Option Found)
    (forward behind : Nat) : Option Found :=
  if _h : forward < lines.length ∧ (behind = 0 ∨
      startOf lines probe forward - guess ≤ guess - startOf lines probe (behind - 1)) then
    match decide (startOf lines probe forward) with
    | some found => some found
    | none => nearestOfFrom lines probe guess decide (forward + 1) behind
  else if _hbehind : behind ≠ 0 then
    match decide (startOf lines probe (behind - 1)) with
    | some found => some found
    | none => nearestOfFrom lines probe guess decide forward (behind - 1)
  else none
termination_by lines.length - forward + behind
decreasing_by all_goals omega

/-- The starts that lines imply, outwards from the guess. -/
def nearestOf (lines : List Nat) (probe : Nat) (guess : Int) (decide : Int → Option Found) :
    Option Found :=
  let low := bisect lines probe guess 0 lines.length
  nearestOfFrom lines probe guess decide low low

/-- The old line that is searched for, and how many lines of the file may be it. -/
structure Probe where
  line : Nat
  fewest : Option Nat
  deriving DecidableEq

/-- The rarest of some old lines, or none when the file has no index. -/
def rarest (pattern : Pattern) : Probe → List Nat → FileLines → Nat → Option Probe × FileLines × Nat
  | probe, [], file, available => (some probe, file, available)
  | probe, old :: olds, file, available =>
    match file.occurrences (pattern.hashes[old]?.getD 0) available with
    | (none, file, available) => (none, file, available)
    | (some count, file, available) =>
      rarest pattern
        (if probe.fewest.all (count < ·) then { line := old, fewest := some count } else probe) olds
        file available

/-- One candidate; none stands for `"next"`. -/
def decideAt (file : FileLines) (pattern : Pattern) (guess floor : Int) (rules : Level)
    (position : Int) : Option Found :=
  let last := (file.count : Int) - ((pattern.length : Int) - rules.skipSuffix)
  if !(0 ≤ position && position ≤ last && (guess ≤ position || max floor 0 ≤ position)) ||
      !fits file pattern position rules then none
  else judge pattern position rules floor

/-- Scan one fuzz level outwards from the guess, with the file and the budget behind it. -/
def search (file : FileLines) (pattern : Pattern) (guess floor : Int) (fuzz available : Nat) :
    Option Found × FileLines × Nat :=
  let rules := level pattern fuzz
  let last := (file.count : Int) - ((pattern.length : Int) - rules.skipSuffix)
  let lowest := max floor 0
  let decide := decideAt file pattern guess floor rules
  if rules.anchorStart || rules.anchorEnd then
    (decide (if rules.anchorStart then 0 else (file.count : Int) - pattern.length), file, available)
  else if compared pattern rules = [] then (nearest guess lowest last decide, file, available)
  else
    match rarest pattern { line := rules.skipPrefix, fewest := none } (compared pattern rules) file
        available with
    | (none, file, available) => (nearest guess lowest last decide, file, available)
    | (some probe, file, available) =>
      if probe.fewest = some 0 then (none, file, available)
      else
        match file.positions (pattern.hashes[probe.line]?.getD 0) available with
        | (none, file, available) => (nearest guess lowest last decide, file, available)
        | (some lines, file, available) =>
          (nearestOf lines probe.line guess decide, file, available)

end Kompjutr.Locate
