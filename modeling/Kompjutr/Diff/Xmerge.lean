/-
  Kompjutr.Diff.Xmerge

  The three-way merge: `diff/xmerge-regions.ts` (two edit scripts walked into
  regions, and the regions refined), `diff/xmerge-output.ts` (the regions
  written out) and `mergeText` of `diff/xmerge.ts`.

  Region lists are built newest first, since every pass looks at and changes
  the newest region only.  A read outside an array has no answer.
-/
import Kompjutr.Lib.Run
import Kompjutr.Diff.Myers
import Kompjutr.Diff.XmergeInput

namespace Kompjutr.Diff

open Fuel

/-- `MergeRegion.mode`: 0, 1, 2 and 4 of the source. -/
inductive MergeMode where
  | conflict | current | incoming | same
  deriving DecidableEq

structure MergeRegion where
  mode : MergeMode
  baseStart : Int
  baseCount : Int
  currentStart : Int
  currentCount : Int
  incomingStart : Int
  incomingCount : Int
  deriving DecidableEq

/-- The regions so far, newest first, and the conflicts counted along. -/
structure MergeList where
  regions : List MergeRegion
  conflicts : Int
  deriving DecidableEq

/-- `records[index]!`. -/
def recordAt (records : List ByteRecord) (index : Int) : Run GitError ByteRecord :=
  Run.ofOption (readAt records index)

def conflictCount (maxConflicts : Int) : GitError := tooBig "text merge conflict count" maxConflicts

-- Walking the two scripts

/-- The fields of `previous` after a region that ends where `region` does is joined to it. -/
def MergeRegion.extendTo (previous region : MergeRegion) : MergeRegion :=
  { previous with
    baseCount := region.baseStart + region.baseCount - previous.baseStart
    currentCount := region.currentStart + region.currentCount - previous.currentStart
    incomingCount := region.incomingStart + region.incomingCount - previous.incomingStart }

/-- `region` starts at or before the end of `previous`, on either side. -/
def MergeRegion.touches (previous region : MergeRegion) : Bool :=
  region.currentStart ≤ previous.currentStart + previous.currentCount ||
    region.incomingStart ≤ previous.incomingStart + previous.incomingCount

def pushRegion (list : MergeList) (maxConflicts : Int) (region : MergeRegion) :
    Run GitError MergeList :=
  if region.mode = .conflict then
    if list.conflicts ≥ maxConflicts then throw (conflictCount maxConflicts)
    else pure ⟨region :: list.regions, list.conflicts + 1⟩
  else pure ⟨region :: list.regions, list.conflicts⟩

def appendRegion (list : MergeList) (maxConflicts : Int) (region : MergeRegion) :
    Run GitError MergeList :=
  match list.regions with
  | [] => pushRegion list maxConflicts region
  | previous :: older =>
    if previous.touches region then
      if region.mode ≠ previous.mode ∧ previous.mode ≠ .conflict then
        if list.conflicts ≥ maxConflicts then throw (conflictCount maxConflicts)
        else pure ⟨{ previous with mode := .conflict }.extendTo region :: older, list.conflicts + 1⟩
      else pure ⟨previous.extendTo region :: older, list.conflicts⟩
    else pushRegion list maxConflicts region

/-- The comparison loop of `sameChange`, with `n` lines to go. -/
def sameLines (current incoming : List ByteRecord) : Nat → Int → Int → Run GitError Bool
  | 0, _, _ => pure true
  | n + 1, i, j => do
    let left ← recordAt current i
    let right ← recordAt incoming j
    if byteRecordsEqual left right then sameLines current incoming n (i + 1) (j + 1)
    else pure false

def sameChange (left right : ChangeGroup) (current incoming : List ByteRecord) :
    Run GitError Bool :=
  if left.oldStart ≠ right.oldStart ∨ left.oldCount ≠ right.oldCount ∨
      left.newCount ≠ right.newCount then pure false
  else sameLines current incoming left.newCount.toNat left.newStart right.newStart

def overlapRegion (left right : ChangeGroup) : MergeRegion :=
  let offset := left.oldStart - right.oldStart
  let finalOffset := offset + left.oldCount - right.oldCount
  let (baseStart, currentStart, incomingStart) :=
    if offset > 0 then (left.oldStart - offset, left.newStart - offset, right.newStart)
    else (left.oldStart, left.newStart, right.newStart + offset)
  let baseCount := left.oldStart + left.oldCount - baseStart
  let currentCount := left.newStart + left.newCount - currentStart
  let incomingCount := right.newStart + right.newCount - incomingStart
  let (baseCount, currentCount, incomingCount) :=
    if finalOffset < 0 then (baseCount - finalOffset, currentCount - finalOffset, incomingCount)
    else (baseCount, currentCount, incomingCount + finalOffset)
  { mode := .conflict, baseStart, baseCount, currentStart, currentCount, incomingStart
    incomingCount }

/-- A change of `current` only; `shift` takes a base position to incoming's. -/
def currentRegion (change : ChangeGroup) (shift : Int) : MergeRegion :=
  { mode := .current
    baseStart := change.oldStart, baseCount := change.oldCount
    currentStart := change.newStart, currentCount := change.newCount
    incomingStart := shift + change.oldStart, incomingCount := change.oldCount }

/-- A change of `incoming` only; `shift` takes a base position to current's. -/
def incomingRegion (change : ChangeGroup) (shift : Int) : MergeRegion :=
  { mode := .incoming
    baseStart := change.oldStart, baseCount := change.oldCount
    currentStart := shift + change.oldStart, currentCount := change.oldCount
    incomingStart := change.newStart, incomingCount := change.newCount }

/-- The three loops of `buildMergeRegions`.  `n` bounds the turns of the first one: each drops
    at least one change. -/
def mergeChanges (currentLines incomingLines : List ByteRecord) (baseLineCount maxConflicts : Int) :
    Nat → MergeList → List ChangeGroup → List ChangeGroup → Run GitError MergeList
  | n + 1, list, left :: current, right :: incoming => do
    let again := mergeChanges currentLines incomingLines baseLineCount maxConflicts n
    if left.oldStart + left.oldCount < right.oldStart then
      let list ← appendRegion list maxConflicts
        (currentRegion left (right.newStart - right.oldStart))
      again list current (right :: incoming)
    else if right.oldStart + right.oldCount < left.oldStart then
      let list ← appendRegion list maxConflicts
        (incomingRegion right (left.newStart - left.oldStart))
      again list (left :: current) incoming
    else
      let same ← sameChange left right currentLines incomingLines
      let list ←
        if same then pure list else appendRegion list maxConflicts (overlapRegion left right)
      let leftEnd := left.oldStart + left.oldCount
      let rightEnd := right.oldStart + right.oldCount
      again list (if rightEnd ≥ leftEnd then current else left :: current)
        (if leftEnd ≥ rightEnd then incoming else right :: incoming)
  | _, list, current, incoming => do
    let list ← current.foldlM (fun list change => appendRegion list maxConflicts
      (currentRegion change (incomingLines.length - baseLineCount))) list
    incoming.foldlM (fun list change => appendRegion list maxConflicts
      (incomingRegion change (currentLines.length - baseLineCount))) list

def buildMergeRegions (current incoming : List ChangeGroup)
    (currentLines incomingLines : List ByteRecord) (baseLineCount maxConflicts : Int) :
    Run GitError (List MergeRegion) := do
  let list ← mergeChanges currentLines incomingLines baseLineCount maxConflicts
    (current.length + incoming.length) ⟨[], 0⟩ current incoming
  return list.regions.reverse

-- Refining conflicts

def refinedChangeList (maxChanges : Int) : GitError :=
  tooBig "text merge refined change list" maxChanges

/-- `refined.push(region)` of a region that is kept. -/
def keepRegion (maxChanges maxConflicts : Int) (refined : MergeList) (region : MergeRegion) :
    Run GitError MergeList :=
  if refined.regions.length ≥ maxChanges then throw (refinedChangeList maxChanges)
  else pushRegion refined maxConflicts region

/-- The conflict that a change inside `region` leaves. -/
def refinedConflict (region : MergeRegion) (change : ChangeGroup) : MergeRegion :=
  { mode := .conflict
    baseStart := region.baseStart, baseCount := region.baseCount
    currentStart := region.currentStart + change.oldStart, currentCount := change.oldCount
    incomingStart := region.incomingStart + change.newStart, incomingCount := change.newCount }

/-- `records.slice(start, start + count)` for a range inside the array. -/
def recordSlice (records : List ByteRecord) (start count : Int) : List ByteRecord :=
  (records.drop start.toNat).take count.toNat

/-- One turn of `refineConflicts`. -/
def refineRegion (fuel : Nat) (current incoming : List ByteRecord) (maxChanges maxConflicts : Int)
    (indentHeuristic : Bool) (refined : MergeList) (region : MergeRegion) :
    Run GitError MergeList :=
  if region.mode ≠ .conflict ∨ region.currentCount = 0 ∨ region.incomingCount = 0 then
    keepRegion maxChanges maxConflicts refined region
  else do
    let changes ← ExceptT.mk (diffByteRecords fuel
      (recordSlice current region.currentStart region.currentCount)
      (recordSlice incoming region.incomingStart region.incomingCount)
      { indentHeuristic := some indentHeuristic
        maxChanges := some (min (maxChanges - refined.regions.length)
          (maxConflicts - refined.conflicts)) })
    if refined.regions.length + changes.length > maxChanges then
      throw (refinedChangeList maxChanges)
    else if changes = [] then
      if refined.regions.length ≥ maxChanges then throw (refinedChangeList maxChanges)
      else pure { refined with regions := { region with mode := .same } :: refined.regions }
    else
      changes.foldlM (fun refined change =>
        pushRegion refined maxConflicts (refinedConflict region change)) refined

def refineConflicts (fuel : Nat) (regions : List MergeRegion) (current incoming : List ByteRecord)
    (maxChanges maxConflicts : Int) (indentHeuristic : Bool) : Run GitError (List MergeRegion) := do
  let refined ← regions.foldlM
    (refineRegion fuel current incoming maxChanges maxConflicts indentHeuristic) ⟨[], 0⟩
  return refined.regions.reverse

def isAsciiAlnum (byte : UInt8) : Bool :=
  (0x30 ≤ byte && byte ≤ 0x39) || (0x41 ≤ byte && byte ≤ 0x5a) || (0x61 ≤ byte && byte ≤ 0x7a)

/-- `linesContainAsciiAlnum`, with `count` lines to go. -/
def linesContainAsciiAlnum (lines : List ByteRecord) : Nat → Int → Run GitError Bool
  | 0, _ => pure false
  | count + 1, line => do
    let record ← recordAt lines line
    if record.content.any isAsciiAlnum then pure true
    else linesContainAsciiAlnum lines count (line + 1)

/-- One turn of `simplifyConflicts`; the newest region is first. -/
def simplifyRegion (current : List ByteRecord) (simplifyIfNoAlnum : Bool)
    (simplified : List MergeRegion) (region : MergeRegion) : Run GitError (List MergeRegion) :=
  match simplified with
  | [] => pure [region]
  | previous :: older =>
    if previous.mode ≠ .conflict ∨ region.mode ≠ .conflict then
      pure (region :: previous :: older)
    else do
      let begin := previous.currentStart + previous.currentCount
      let stop := region.currentStart
      let keepSeparate ←
        if stop - begin > 3 then
          if !simplifyIfNoAlnum then pure true
          else linesContainAsciiAlnum current (stop - begin).toNat begin
        else pure false
      if keepSeparate then pure (region :: previous :: older)
      else
        pure ({ previous with
          currentCount := region.currentStart + region.currentCount - previous.currentStart
          incomingCount := region.incomingStart + region.incomingCount - previous.incomingStart
          } :: older)

def simplifyConflicts (regions : List MergeRegion) (current : List ByteRecord)
    (simplifyIfNoAlnum : Bool) : Run GitError (List MergeRegion) := do
  let simplified ← regions.foldlM (simplifyRegion current simplifyIfNoAlnum) []
  return simplified.reverse

/-- The first loop of `refineZdiff3`: drop equal first lines.  `n` is `currentCount`. -/
def trimHead (current incoming : List ByteRecord) : Nat → MergeRegion → Run GitError MergeRegion
  | 0, region => pure region
  | n + 1, region =>
    if region.incomingCount > 0 then do
      let left ← recordAt current region.currentStart
      let right ← recordAt incoming region.incomingStart
      if byteRecordsEqual left right then
        trimHead current incoming n { region with
          currentStart := region.currentStart + 1
          incomingStart := region.incomingStart + 1
          currentCount := region.currentCount - 1
          incomingCount := region.incomingCount - 1 }
      else pure region
    else pure region

/-- The second loop of `refineZdiff3`: drop equal last lines.  `n` is `currentCount`. -/
def trimTail (current incoming : List ByteRecord) : Nat → MergeRegion → Run GitError MergeRegion
  | 0, region => pure region
  | n + 1, region =>
    if region.incomingCount > 0 then do
      let left ← recordAt current (region.currentStart + region.currentCount - 1)
      let right ← recordAt incoming (region.incomingStart + region.incomingCount - 1)
      if byteRecordsEqual left right then
        trimTail current incoming n { region with
          currentCount := region.currentCount - 1
          incomingCount := region.incomingCount - 1 }
      else pure region
    else pure region

def zdiff3Region (current incoming : List ByteRecord) (region : MergeRegion) :
    Run GitError MergeRegion :=
  if region.mode ≠ .conflict then pure region
  else do
    let region ← trimHead current incoming region.currentCount.toNat region
    trimTail current incoming region.currentCount.toNat region

def refineZdiff3 (regions : List MergeRegion) (current incoming : List ByteRecord) :
    Run GitError (List MergeRegion) :=
  regions.mapM (zdiff3Region current incoming)

-- Output

/-- `recordsLength`, with `count` records to go. -/
def recordsLength (records : List ByteRecord) : Nat → Int → Int → Run GitError Int
  | 0, _, length => pure length
  | count + 1, index, length => do
    let record ← recordAt records index
    let length ← Run.ofExcept
      (checkedSum [length, ((record.end - record.start : Nat) : Int)] "record bytes")
    recordsLength records count (index + 1) length

def validateConflictRegion (base current incoming : List ByteRecord) (options : ResolvedOptions)
    (region : MergeRegion) : Run GitError Unit :=
  if region.mode ≠ .conflict then pure ()
  else do
    let bytes ← recordsLength current region.currentCount.toNat region.currentStart 0
    let added ← recordsLength incoming region.incomingCount.toNat region.incomingStart 0
    let bytes ← Run.ofExcept (checkedSum [bytes, added] "conflict region")
    let bytes ←
      if options.style ≠ .merge then do
        let added ← recordsLength base region.baseCount.toNat region.baseStart 0
        Run.ofExcept (checkedSum [bytes, added] "conflict region")
      else pure bytes
    if bytes > options.limits.maxConflictBytes then
      throw (tooBig "text merge conflict region" options.limits.maxConflictBytes)
    else pure ()

def validateConflictRegions (regions : List MergeRegion) (base current incoming : List ByteRecord)
    (options : ResolvedOptions) : Run GitError Unit :=
  regions.forM (validateConflictRegion base current incoming options)

/-- The output so far: its size, and its bytes when there is a buffer (`output !== null`). -/
structure Output where
  size : Int
  bytes : Option (List UInt8)
  deriving DecidableEq

/-- Write `data` at the end. -/
def Output.write (out : Output) (data : List UInt8) (options : ResolvedOptions) :
    Run GitError Output := do
  let next ← Run.ofExcept (addSize out.size data.length options.limits.maxOutputBytes)
  return ⟨next, out.bytes.map (· ++ data)⟩

/-- The loop of `copyRecords`, with `count` records to go. -/
def copyLoop (records : List ByteRecord) (options : ResolvedOptions) :
    Nat → Int → Output → Run GitError Output
  | 0, _, out => pure out
  | count + 1, index, out => do
    let record ← recordAt records index
    let out ← out.write record.content options
    copyLoop records options count (index + 1) out

/-- The last byte of a record is a line feed. -/
def ByteRecord.endsLf (record : ByteRecord) : Bool :=
  record.start < record.end && record.bytes[record.end - 1]? = some 0x0a

def writeEol (needsCr : Bool) (options : ResolvedOptions) (out : Output) : Run GitError Output := do
  let out ← if needsCr then out.write [0x0d] options else pure out
  out.write [0x0a] options

def copyRecords (records : List ByteRecord) (start count : Int) (needsCr addNewline : Bool)
    (options : ResolvedOptions) (out : Output) : Run GitError Output := do
  let out ← copyLoop records options count.toNat start out
  if addNewline ∧ count > 0 then
    let record ← recordAt records (start + count - 1)
    if record.endsLf then pure out
    else writeEol needsCr options out
  else pure out

def writeMarker (marker : UInt8) (label : Option (List UInt8)) (needsCr : Bool)
    (options : ResolvedOptions) (out : Output) : Run GitError Output := do
  let out ← out.write (List.replicate options.markerSize.toNat marker) options
  let out ← match label with
    | some label => do
      let out ← out.write [0x20] options
      out.write label options
    | none => pure out
  writeEol needsCr options out

def recordEndsCrlf (record : ByteRecord) : Bool :=
  record.end - record.start > 1 && record.bytes[record.end - 2]? = some 0x0d

/-- `isEolCrlf`: `none` for the source's -1. -/
def isEolCrlf (records : List ByteRecord) (index : Int) : Run GitError (Option Bool) := do
  if index < records.length - 1 then
    return some (recordEndsCrlf (← recordAt records index))
  if records.length = 0 then return none
  let record ← recordAt records index
  if record.endsLf then return some (recordEndsCrlf record)
  if index = 0 then return none
  return some (recordEndsCrlf (← recordAt records (index - 1)))

def isCrNeeded (current incoming base : List ByteRecord) (region : MergeRegion) :
    Run GitError Bool := do
  let lineBefore (start : Int) : Int := if start > 0 then start - 1 else 0
  let needsCr ← isEolCrlf current (lineBefore region.currentStart)
  let needsCr ← if needsCr ≠ some false then isEolCrlf incoming (lineBefore region.incomingStart)
    else pure needsCr
  let needsCr ← if needsCr ≠ some false then isEolCrlf base 0 else pure needsCr
  return needsCr = some true

/-- The body of a conflict: both sides between markers, with the base in the diff3 styles. -/
def writeConflict (base current incoming : List ByteRecord) (options : ResolvedOptions)
    (needsCr : Bool) (region : MergeRegion) (out : Output) : Run GitError Output := do
  let out ← writeMarker 0x3c options.labels.current needsCr options out
  let out ← copyRecords current region.currentStart region.currentCount needsCr true options out
  let out ←
    if options.style ≠ .merge then do
      let out ← writeMarker 0x7c options.labels.base needsCr options out
      copyRecords base region.baseStart region.baseCount needsCr true options out
    else pure out
  let out ← writeMarker 0x3d none needsCr options out
  let out ← copyRecords incoming region.incomingStart region.incomingCount needsCr true options out
  writeMarker 0x3e options.labels.incoming needsCr options out

/-- One turn of `fillMerge`.  The state is the output and `currentLine`. -/
def fillRegion (base current incoming : List ByteRecord) (options : ResolvedOptions)
    (state : Output × Int) (region : MergeRegion) : Run GitError (Output × Int) :=
  if region.mode = .same then pure state
  else do
    let needsCr ← isCrNeeded current incoming base region
    let out ← copyRecords current state.2 (region.currentStart - state.2) false false options state.1
    let out ← match region.mode with
      | .conflict => writeConflict base current incoming options needsCr region out
      | .current =>
        copyRecords current region.currentStart region.currentCount needsCr false options out
      | .incoming =>
        copyRecords incoming region.incomingStart region.incomingCount false false options out
      | .same => pure out
    return (out, region.currentStart + region.currentCount)

def fillMerge (output : Option (List UInt8)) (regions : List MergeRegion)
    (base current incoming : List ByteRecord) (options : ResolvedOptions) : Run GitError Output := do
  let (out, currentLine) ←
    regions.foldlM (fillRegion base current incoming options) (⟨0, output⟩, 0)
  copyRecords current currentLine (current.length - currentLine) false false options out

-- `mergeText`

/-- The regions in the style and refinement the options ask for. -/
def refineRegions (fuel : Nat) (regions : List MergeRegion) (current incoming : List ByteRecord)
    (resolved : ResolvedOptions) : Run GitError (List MergeRegion) :=
  if resolved.style = .zdiff3 then refineZdiff3 regions current incoming
  else if resolved.style = .merge ∧ resolved.refinement ≠ .eager then do
    let regions ← refineConflicts fuel regions current incoming resolved.limits.maxChanges
      resolved.limits.maxConflicts resolved.indentHeuristic
    simplifyConflicts regions current (resolved.refinement = .zealousAlnum)
  else pure regions

/-- `regions.reduce((count, region) => count + (region.mode === 0 ? 1 : 0), 0)`. -/
def countConflicts (regions : List MergeRegion) : Int :=
  regions.countP (·.mode = .conflict)

/-- Both passes of `fillMerge`: the first measures, the second writes. -/
def renderRegions (regions : List MergeRegion) (base current incoming : List ByteRecord)
    (resolved : ResolvedOptions) : Run GitError (List UInt8) := do
  let measured ← fillMerge none regions base current incoming resolved
  let written ← fillMerge (some []) regions base current incoming resolved
  if written.size ≠ measured.size then
    throw { code := "ECORRUPT", message := "text merge output size changed while writing" }
  return written.bytes.getD []

/-- `mergeText` for texts that none of the shortcuts covers. -/
def mergeRecords (fuel : Nat) (baseLines currentLines incomingLines : List ByteRecord)
    (resolved : ResolvedOptions) (memory : TextMergeMemoryEstimate) :
    Run GitError TextMergeResult := do
  let currentChanges ← ExceptT.mk (diffByteRecords fuel baseLines currentLines
    { indentHeuristic := some resolved.indentHeuristic
      maxChanges := some resolved.limits.maxChanges })
  let incomingChanges ← ExceptT.mk (diffByteRecords fuel baseLines incomingLines
    { indentHeuristic := some resolved.indentHeuristic
      maxChanges := some (resolved.limits.maxChanges - currentChanges.length) })
  if currentChanges.length + incomingChanges.length > resolved.limits.maxChanges then
    throw (tooBig "text merge change list" resolved.limits.maxChanges)
  let regions ← buildMergeRegions currentChanges incomingChanges currentLines incomingLines
    baseLines.length resolved.limits.maxConflicts
  let regions ← refineRegions fuel regions currentLines incomingLines resolved
  let conflicts := countConflicts regions
  if conflicts > resolved.limits.maxConflicts then
    throw (conflictCount resolved.limits.maxConflicts)
  validateConflictRegions regions baseLines currentLines incomingLines resolved
  let content ← renderRegions regions baseLines currentLines incomingLines resolved
  if conflicts = 0 then return .clean content memory
  return .conflict content conflicts memory

def mergeText (fuel : Nat) (base current incoming : List UInt8) (options : TextMergeOptions) :
    Run GitError TextMergeResult := do
  let resolved ← Run.ofExcept (resolveOptions options)
  let memory ← Run.ofExcept (estimateResolvedTextMergeMemory base current incoming resolved)
  if isBinary base || isBinary current || isBinary incoming then return .binary memory
  if bytesEqual current incoming then return .clean current memory
  if bytesEqual base current then return .clean incoming memory
  if bytesEqual base incoming then return .clean current memory
  mergeRecords fuel (splitByteRecords base) (splitByteRecords current) (splitByteRecords incoming)
    resolved memory

end Kompjutr.Diff
