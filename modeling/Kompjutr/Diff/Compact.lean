/-
  Kompjutr.Diff.Compact

  `diff/myers-compact.ts`: the change compaction pass with the indent
  heuristic, and the walk that turns the marks into change groups.

  A group walker that reports failure leaves its group alone, so the model
  returns `none`; a caller that ignores the answer keeps the old group.
-/
import Kompjutr.Diff.State
import Kompjutr.Lib.Fuel

namespace Kompjutr.Diff

open Kompjutr.Fuel

def maxIndent : Nat := 200

def maxBlanks : Nat := 20

def indentHeuristicMaxSliding : Int := 100

-- Weights from git's diff-slider-tools corpus.  Smaller is a better split.
def startOfFilePenalty : Int := 1

def endOfFilePenalty : Int := 21

def totalBlankWeight : Int := -30

def postBlankWeight : Int := 6

def relativeIndentPenalty : Int := -4

def relativeIndentWithBlankPenalty : Int := 10

def relativeOutdentPenalty : Int := 24

def relativeOutdentWithBlankPenalty : Int := 17

def relativeDedentPenalty : Int := 23

def relativeDedentWithBlankPenalty : Int := 17

def indentWeight : Int := 60

-- Groups

/-- `Group`: the lines `start ..< end`, all marked, between two unmarked ones. -/
structure Group where
  start : Int
  «end» : Int
  deriving DecidableEq

def markedEndLoop (m : Marks) : Nat → Int → Int
  | 0, i => i
  | n + 1, i => if m.get i then markedEndLoop m n (i + 1) else i

/-- `while (changed.get(i)) i++`.  The sentinel ends it within the flags. -/
def markedEnd (m : Marks) (i : Int) : Int := markedEndLoop m m.flags.length i

def markedStartLoop (m : Marks) : Nat → Int → Int
  | 0, i => i
  | n + 1, i => if m.get (i - 1) then markedStartLoop m n (i - 1) else i

/-- `while (changed.get(i - 1)) i--`. -/
def markedStart (m : Marks) (i : Int) : Int := markedStartLoop m m.flags.length i

def groupInit (side : Side) : Group := ⟨0, markedEnd side.changed 0⟩

def groupNext (side : Side) (group : Group) : Option Group :=
  if group.end = side.length then none
  else some ⟨group.end + 1, markedEnd side.changed (group.end + 1)⟩

def groupPrevious (side : Side) (group : Group) : Option Group :=
  if group.start = 0 then none
  else some ⟨markedStart side.changed (group.start - 1), group.start - 1⟩

def groupSlideDown (side : Side) (group : Group) : Option (Side × Group) :=
  if side.length ≤ group.end then none
  else if side.classAt group.start ≠ side.classAt group.end then none
  else
    let changed := (side.changed.set group.start false).set group.end true
    some ({ side with changed }, ⟨group.start + 1, markedEnd changed (group.end + 1)⟩)

def groupSlideUp (side : Side) (group : Group) : Option (Side × Group) :=
  if group.start = 0 then none
  else if side.classAt (group.start - 1) ≠ side.classAt (group.end - 1) then none
  else
    let changed := (side.changed.set (group.start - 1) true).set (group.end - 1) false
    some ({ side with changed }, ⟨markedStart changed (group.start - 1), group.end - 1⟩)

-- Where a split reads best

/-- `isSpace`. -/
def isSpace (char : Nat) : Bool :=
  char = 0x20 || char = 0x09 || char = 0x0a || char = 0x0b || char = 0x0c || char = 0x0d

def indentLoop : List Nat → Nat → Int
  | [], _ => -1
  | char :: rest, indent =>
    if char ≠ 0x20 ∧ char ≠ 0x09 ∧ !isSpace char then indent
    else
      let indent :=
        if char = 0x20 then indent + 1
        else if char = 0x09 then indent + (8 - indent % 8)
        else indent
      if maxIndent ≤ indent then maxIndent else indentLoop rest indent

/-- Indentation in columns, tabs counting to the next multiple of 8; `-1` for a blank line. -/
def indentOf (line : LineRecord) : Int := indentLoop line.units 0

structure Measurement where
  endOfFile : Bool
  indent : Int
  preBlank : Int
  preIndent : Int
  postBlank : Int
  postIndent : Int

/-- Blank lines up to the next text line, and that line's indent. -/
def scanBlanks : List LineRecord → Nat → Int × Int
  | [], blank => (blank, -1)
  | line :: rest, blank =>
    if indentOf line ≠ -1 then (blank, indentOf line)
    else if blank + 1 = maxBlanks then (maxBlanks, 0)
    else scanBlanks rest (blank + 1)

/-- The split lies inside the file at every call, so `side.lines[split]` is there unless
    the split is at its end. -/
def measureSplit (side : Side) (split : Int) : Measurement :=
  let (preBlank, preIndent) := scanBlanks (side.lines.take split.toNat).reverse 0
  let (postBlank, postIndent) := scanBlanks (side.lines.drop (split + 1).toNat) 0
  { endOfFile := side.length ≤ split
    indent := ((readAt side.lines split).map indentOf).getD (-1)
    preBlank, preIndent, postBlank, postIndent }

structure Score where
  effectiveIndent : Int
  penalty : Int

def addSplitScore (m : Measurement) (score : Score) : Score :=
  let penalty := score.penalty
    + (if m.preIndent = -1 ∧ m.preBlank = 0 then startOfFilePenalty else 0)
    + (if m.endOfFile then endOfFilePenalty else 0)
  let postBlank := if m.indent = -1 then 1 + m.postBlank else 0
  let totalBlank := m.preBlank + postBlank
  let penalty := penalty + totalBlankWeight * totalBlank + postBlankWeight * postBlank
  let indent := if m.indent ≠ -1 then m.indent else m.postIndent
  let anyBlanks : Bool := totalBlank ≠ 0
  let effectiveIndent := score.effectiveIndent + indent
  let relative :=
    if indent = -1 ∨ m.preIndent = -1 ∨ indent = m.preIndent then 0
    else if m.preIndent < indent then
      if anyBlanks then relativeIndentWithBlankPenalty else relativeIndentPenalty
    else if m.postIndent ≠ -1 ∧ indent < m.postIndent then
      if anyBlanks then relativeOutdentWithBlankPenalty else relativeOutdentPenalty
    else if anyBlanks then relativeDedentWithBlankPenalty else relativeDedentPenalty
  { effectiveIndent, penalty := penalty + relative }

def compareScores (left right : Score) : Int :=
  let indents : Int :=
    (if right.effectiveIndent < left.effectiveIndent then 1 else 0) -
    (if left.effectiveIndent < right.effectiveIndent then 1 else 0)
  indentWeight * indents + (left.penalty - right.penalty)

/-- The score of a group of `size` lines that ends at `shift`. -/
def shiftScore (side : Side) (size shift : Int) : Score :=
  addSplitScore (measureSplit side (shift - size)) (addSplitScore (measureSplit side shift) ⟨0, 0⟩)

/-- One candidate of the indent heuristic; the later one wins a tie. -/
def betterShift (side : Side) (size : Int) (best : Int × Score) (shift : Int) : Int × Score :=
  let score := shiftScore side size shift
  if best.1 = -1 ∨ compareScores score best.2 ≤ 0 then (shift, score) else best

/-- The shift the indent heuristic settles on. -/
def bestShift (side : Side) (groupEnd size earliestEnd : Int) : Int :=
  let shift := earliestEnd
  let shift := if shift < groupEnd - size - 1 then groupEnd - size - 1 else shift
  let shift :=
    if shift < groupEnd - indentHeuristicMaxSliding then groupEnd - indentHeuristicMaxSliding
    else shift
  ((Int.range shift (groupEnd + 1)).foldl (betterShift side size) (-1, ⟨0, 0⟩)).1

-- Compaction

/-- The variables of `compact`; `other` is read only. -/
structure Slide where
  side : Side
  group : Group
  otherGroup : Group

/-- Slide up by one and step back on the other side; `none` when the group cannot move. -/
def slideUpOne (other : Side) (c : Slide) : Option Slide :=
  (groupSlideUp c.side c.group).map fun (side, group) =>
    { side, group, otherGroup := (groupPrevious other c.otherGroup).getD c.otherGroup }

/-- Slide down by one and step forward on the other side. -/
def slideDownOne (other : Side) (c : Slide) : Option Slide :=
  (groupSlideDown c.side c.group).map fun (side, group) =>
    { side, group, otherGroup := (groupNext other c.otherGroup).getD c.otherGroup }

/-- `while (groupSlideUp(side, group)) groupPrevious(other, otherGroup)`. -/
def slideUpAll (other : Side) (fuel : Nat) (c : Slide) : Option Slide :=
  loop (fun _ c =>
    match slideUpOne other c with
    | some c' => some (.inl c')
    | none => some (.inr c)) fuel c

/-- The group's end if the other side's group is not empty. -/
def matchingEnd (c : Slide) (endMatchingOther : Int) : Int :=
  if c.otherGroup.start < c.otherGroup.end then c.group.end else endMatchingOther

/-- The inner `for (;;)`, which also keeps `endMatchingOther`. -/
def slideDownAll (other : Side) (fuel : Nat) (c : Slide × Int) : Option (Slide × Int) :=
  loop (fun _ c =>
    match slideDownOne other c.1 with
    | some c' => some (.inl (c', matchingEnd c' c.2))
    | none => some (.inr c)) fuel c

/-- What the `do … while` leaves behind. -/
structure Slid where
  slide : Slide
  size : Int
  earliestEnd : Int
  endMatchingOther : Int

/-- `do { … } while (size !== group.end - group.start)`. -/
def slideBothWays (other : Side) (fuel : Nat) (c : Slide) : Option Slid :=
  loop (fun fuel c => do
    let size := c.group.end - c.group.start
    let up ← slideUpAll other fuel c
    let (down, endMatchingOther) ← slideDownAll other fuel (up, matchingEnd up (-1))
    if size = down.group.end - down.group.start then
      some (.inr { slide := down, size, earliestEnd := up.group.end, endMatchingOther })
    else some (.inl down)) fuel c

/-- `{ groupSlideUp(side, group); groupPrevious(other, otherGroup); }`. -/
def forceUpOne (other : Side) (c : Slide) : Slide :=
  let (side, group) := (groupSlideUp c.side c.group).getD (c.side, c.group)
  { side, group, otherGroup := (groupPrevious other c.otherGroup).getD c.otherGroup }

/-- Repeat `forceUpOne` while `again` holds. -/
def forceUpWhile (other : Side) (again : Slide → Bool) (fuel : Nat) (c : Slide) : Option Slide :=
  loop (fun _ c =>
    if again c then some (.inl (forceUpOne other c)) else some (.inr c)) fuel c

/-- Where a group that can slide settles. -/
def settle (other : Side) (indentHeuristic : Bool) (fuel : Nat) (s : Slid) : Option Slide :=
  if s.slide.group.end = s.earliestEnd then some s.slide
  else if s.endMatchingOther ≠ -1 then
    -- Line back up with the other side.
    forceUpWhile other (fun c => c.otherGroup.end = c.otherGroup.start) fuel s.slide
  else if indentHeuristic then
    let best := bestShift s.slide.side s.slide.group.end s.size s.earliestEnd
    forceUpWhile other (fun c => best < c.group.end) fuel s.slide
  else some s.slide

def compactGroup (other : Side) (indentHeuristic : Bool) (fuel : Nat) (c : Slide) :
    Option Slide :=
  if c.group.end ≠ c.group.start then
    (slideBothWays other fuel c).bind (settle other indentHeuristic fuel)
  else some c

/-- `xdl_change_compact`: slide every change group as far as the surrounding equal lines
    allow, then settle it where the diff reads best. -/
def compact (fuel : Nat) (side other : Side) (indentHeuristic : Bool) : Option Side :=
  loop (fun fuel c => do
    let c ← compactGroup other indentHeuristic fuel c
    match groupNext c.side c.group with
    | none => some (.inr c.side)
    | some group =>
      some (.inl { c with
        group, otherGroup := (groupNext other c.otherGroup).getD c.otherGroup }))
    fuel { side, group := groupInit side, otherGroup := groupInit other }

-- The edit script

/-- The error of `buildScript`. -/
def tooManyChanges (maxChanges : Int) : GitError :=
  { code := "E2BIG", message := s!"xdiff change list exceeds {maxChanges}" }

/-- `maxChanges !== undefined && groups.length >= maxChanges`. -/
def atLimit (maxChanges : Option Int) (count : Nat) : Option GitError :=
  maxChanges.bind fun m => if m ≤ count then some (tooManyChanges m) else none

/-- The variables of `buildScript`; `groups` grows at its end, as `push` does. -/
structure Walk where
  i1 : Int
  i2 : Int
  groups : List ChangeGroup

/-- One turn of `buildScript`. -/
def scriptTurn (left right : Side) (maxChanges : Option Int) (w : Walk) :
    Walk ⊕ Except GitError (List ChangeGroup) :=
  if 0 ≤ w.i1 ∨ 0 ≤ w.i2 then
    if left.changed.get (w.i1 - 1) ∨ right.changed.get (w.i2 - 1) then
      match atLimit maxChanges w.groups.length with
      | some e => .inr (.error e)
      | none =>
        let i1 := markedStart left.changed w.i1
        let i2 := markedStart right.changed w.i2
        .inl {
          i1 := i1 - 1
          i2 := i2 - 1
          groups := w.groups ++
            [{ oldStart := i1, oldCount := w.i1 - i1, newStart := i2, newCount := w.i2 - i2 }] }
    else .inl { w with i1 := w.i1 - 1, i2 := w.i2 - 1 }
  else .inr (.ok w.groups.reverse)

/-- `xdl_build_script`: walk backwards collecting the marked runs. -/
def buildScript (fuel : Nat) (left right : Side) (maxChanges : Option Int) :
    Option (Except GitError (List ChangeGroup)) :=
  loop (fun _ w => some (scriptTurn left right maxChanges w)) fuel
    ⟨left.length, right.length, []⟩

end Kompjutr.Diff
