/-
  Kompjutr.Diff.Prepare

  `diff/myers-prepare.ts`: equality classes of lines, trimming of the common
  ends, and the record cleanup that decides which lines the search runs over.

  Classification comes in two variants, over strings (one map) and over byte
  records (hash buckets with a byte comparison).  Both number the distinct
  lines in order of first occurrence and count the occurrences on either side.
-/
import Kompjutr.Diff.State

namespace Kompjutr.Diff

def kpdisRun : Nat := 4

def maxEqlimit : Nat := 1024

def simscanWindow : Nat := 100

/-- What the cleanup does with a line: `DISCARD`, `KEEP`, `INVESTIGATE`. -/
inductive Action where
  | discard
  | keep
  | investigate
  deriving DecidableEq

def bogosqrtLoop : Nat → Nat → Nat → Nat
  | 0, _, result => result
  | fuel + 1, remaining, result =>
    if 0 < remaining then bogosqrtLoop fuel (remaining / 4) (result * 2) else result

/-- git's shift-based integer square root.  `value` divisions by four always reach zero. -/
def bogosqrt (value : Nat) : Nat := bogosqrtLoop value value 1

-- Classification

/-- `lines.map(line => …)` where the callback updates the shared tables. -/
def assignClasses {σ α : Type} (idFor : σ → α → Nat × σ) (bump : σ → Nat → σ) :
    σ → List α → List Nat × σ
  | s, [] => ([], s)
  | s, line :: rest =>
    let (id, s1) := idFor s line
    let (ids, s2) := assignClasses idFor bump (bump s1 id) rest
    (id :: ids, s2)

/-- What both classifiers return. -/
structure Classes where
  oldClasses : List Nat
  newClasses : List Nat
  inOld : List Nat
  inNew : List Nat

/-- The tables of `classify`. -/
structure TextTable where
  ids : List (List UInt16 × Nat)
  inOld : List Nat
  inNew : List Nat

namespace TextTable

def idFor (t : TextTable) (line : List UInt16) : Nat × TextTable :=
  match t.ids.lookup line with
  | some existing => (existing, t)
  | none =>
    let id := t.inOld.length
    (id, { ids := t.ids ++ [(line, id)], inOld := t.inOld ++ [0], inNew := t.inNew ++ [0] })

def bumpOld (t : TextTable) (id : Nat) : TextTable := { t with inOld := t.inOld.modify id (· + 1) }

def bumpNew (t : TextTable) (id : Nat) : TextTable := { t with inNew := t.inNew.modify id (· + 1) }

end TextTable

/-- Give every distinct line an id, and count its occurrences on each side. -/
def classify (oldLines newLines : List (List UInt16)) : Classes :=
  let (oldClasses, t1) := assignClasses TextTable.idFor TextTable.bumpOld ⟨[], [], []⟩ oldLines
  let (newClasses, t2) := assignClasses TextTable.idFor TextTable.bumpNew t1 newLines
  { oldClasses, newClasses, inOld := t2.inOld, inNew := t2.inNew }

/-- The bucket key: length and two 32-bit hashes.  The source writes the three numbers
    into one string, separated by colons. -/
def byteRecordHash (record : ByteRecord) : Nat × UInt32 × UInt32 :=
  let step (h : UInt32 × UInt32) (byte : UInt8) : UInt32 × UInt32 :=
    ((h.1 ^^^ byte.toUInt32) * 0x01000193, (h.2 ^^^ byte.toUInt32) * 0x85ebca6b)
  let (left, right) := record.content.foldl step (0x811c9dc5, 0x9e3779b9)
  (record.end - record.start, left, right)

def byteRecordsEqual (left right : ByteRecord) : Bool :=
  let length := left.end - left.start
  right.end - right.start = length &&
    (List.range length).all fun index =>
      left.bytes[left.start + index]? = right.bytes[right.start + index]?

/-- The tables of `classifyBytes`. -/
structure ByteTable where
  buckets : List ((Nat × UInt32 × UInt32) × List Nat)
  representatives : List ByteRecord
  inOld : List Nat
  inNew : List Nat

namespace ByteTable

/-- `representatives[id]` is byte-equal to `line`. -/
def represents (t : ByteTable) (line : ByteRecord) (id : Nat) : Bool :=
  match t.representatives[id]? with
  | some representative => byteRecordsEqual representative line
  | none => false

/-- `bucket.push(id)`, or a new bucket. -/
def addToBucket (buckets : List ((Nat × UInt32 × UInt32) × List Nat))
    (key : Nat × UInt32 × UInt32) (id : Nat) : List ((Nat × UInt32 × UInt32) × List Nat) :=
  match buckets with
  | [] => [(key, [id])]
  | (key', bucket) :: rest =>
    if key' = key then (key', bucket ++ [id]) :: rest else (key', bucket) :: addToBucket rest key id

def idFor (t : ByteTable) (line : ByteRecord) : Nat × ByteTable :=
  let key := byteRecordHash line
  match ((t.buckets.lookup key).getD []).find? (t.represents line) with
  | some id => (id, t)
  | none =>
    let id := t.representatives.length
    (id, {
      buckets := addToBucket t.buckets key id
      representatives := t.representatives ++ [line]
      inOld := t.inOld ++ [0]
      inNew := t.inNew ++ [0] })

def bumpOld (t : ByteTable) (id : Nat) : ByteTable := { t with inOld := t.inOld.modify id (· + 1) }

def bumpNew (t : ByteTable) (id : Nat) : ByteTable := { t with inNew := t.inNew.modify id (· + 1) }

end ByteTable

def classifyBytes (oldLines newLines : List ByteRecord) : Classes :=
  let (oldClasses, t1) :=
    assignClasses ByteTable.idFor ByteTable.bumpOld ⟨[], [], [], []⟩ oldLines
  let (newClasses, t2) := assignClasses ByteTable.idFor ByteTable.bumpNew t1 newLines
  { oldClasses, newClasses, inOld := t2.inOld, inNew := t2.inNew }

-- Common head and tail

/-- The first loop of `trimEnds`, with at most `n` lines to go. -/
def commonHead (left right : Side) : Nat → Int → Int
  | 0, index => index
  | n + 1, index =>
    if left.classAt index = right.classAt index then commonHead left right n (index + 1) else index

/-- The second loop of `trimEnds`. -/
def commonTail (left right : Side) : Nat → Int → Int
  | 0, back => back
  | n + 1, back =>
    if left.classAt (left.length - 1 - back) = right.classAt (right.length - 1 - back) then
      commonTail left right n (back + 1)
    else back

/-- Narrow the problem to the region between the common head and tail. -/
def trimEnds (left right : Side) : Side × Side :=
  let limit := min left.length right.length
  let index := commonHead left right limit.toNat 0
  let tail := limit - index
  let back := commonTail left right tail.toNat 0
  ({ left with dstart := index, dend := left.length - back - 1 },
    { right with dstart := index, dend := right.length - back - 1 })

-- Record cleanup

def actionsFor (side : Side) (offset length : Int) (other : List Nat) : List Action :=
  let limit := min (bogosqrt side.lines.length) maxEqlimit
  (List.range length.toNat).map fun i : Nat =>
    let found := ((side.classAt (i + offset)).bind fun c => other[c]?).getD 0
    if found = 0 then .discard else if found < limit then .keep else .investigate

/-- The two scans of `isMultiMatchNoise`: unmatched and repeated lines up to a kept one. -/
def scanNeighbours : List Action → Nat → Nat → Nat × Nat
  | [], unmatched, repeated => (unmatched, repeated)
  | .discard :: rest, unmatched, repeated => scanNeighbours rest (unmatched + 1) repeated
  | .investigate :: rest, unmatched, repeated => scanNeighbours rest unmatched (repeated + 1)
  | .keep :: _, unmatched, repeated => (unmatched, repeated)

/-- `xdl_clean_mmatch`: is this repeated line surrounded by unmatched ones? -/
def isMultiMatchNoise (actions : List Action) (index : Nat) : Bool :=
  let first := index - simscanWindow
  let last := min (actions.length - 1) (index + simscanWindow)
  let (unmatchedBefore, repeatedBefore) :=
    scanNeighbours ((actions.take index).drop first).reverse 0 1
  if unmatchedBefore = 0 then false
  else
    let (unmatchedAfter, repeatedAfter) :=
      scanNeighbours ((actions.take (last + 1)).drop (index + 1)) 0 1
    if unmatchedAfter = 0 then false
    else
      let unmatched := unmatchedAfter + unmatchedBefore
      let repeated := repeatedAfter + repeatedBefore
      repeated * kpdisRun < repeated + unmatched

/-- Does the line at `i` stay in the search? -/
def keepsLine (actions : List Action) (i : Nat) : Bool :=
  match actions[i]? with
  | some .keep => true
  | some .investigate => !isMultiMatchNoise actions i
  | _ => false

/-- One turn of the loop of `applyActions`. -/
def applyAction (actions : List Action) (offset : Int) (side : Side) (i : Nat) : Side :=
  if keepsLine actions i then { side with reference := side.reference ++ [i + offset] }
  else { side with changed := side.changed.set (i + offset) true }

def applyActions (side : Side) (offset : Int) (actions : List Action) : Side :=
  (List.range actions.length).foldl (applyAction actions offset) { side with reference := [] }

/-- Drop lines that cannot possibly match, so Myers runs over a smaller problem. -/
def cleanupRecords (left right : Side) (inRight inLeft : List Nat) : Side × Side :=
  let offset := left.dstart
  let leftLength := left.dend - offset + 1
  let rightLength := right.dend - offset + 1
  let leftActions := actionsFor left offset leftLength inRight
  let rightActions := actionsFor right offset rightLength inLeft
  (applyActions left offset leftActions, applyActions right offset rightActions)

end Kompjutr.Diff
