/-
  Kompjutr.Ops.TreeBuild

  The build of tree objects from the index (`ops/tree/tree-build-full.ts`), and the measurement of
  the same pass that comes before it.

  Both go through the stage-zero entries once and keep a stack of the directories that are open.
  Here a stack has its innermost directory first; `opened` has their names from the outermost on,
  as the source has them.
-/
import Kompjutr.Index.Table
import Kompjutr.Objects.TreeParser

namespace Kompjutr.Ops

open Objects (Text text isOid TreeEntry ParsedTreeEntry MODE_TREE isTreeMode serializeTree
  parseTreeStream)
open Index (IndexEntry)
open Streams (comparePaths)
open Utf8 (isHigh isLow)

-- tree-build-common.ts

def checkedBytes (total bytes : Nat) (label : String) : Except GitError Nat :=
  if !isSafeInteger bytes || bytes > maxSafeInteger - total then
    .error { code := "E2BIG", message := s!"tree-build {label} size overflows" }
  else .ok (total + bytes)

def requireLimit (value : Int) (label : String) : Except GitError Int :=
  if !isSafeInteger value || value < 0 then
    .error (rangeError s!"invalid tree-build {label} limit")
  else .ok value

/-- `bytes += more` in `utf8Length`. -/
def countBytes (label : String) (bytes more : Nat) : Except GitError Nat :=
  if isSafeInteger ((bytes + more : Nat) : Int) then .ok (bytes + more)
  else .error { code := "E2BIG", message := s!"{label} size overflows" }

/-- The loop of `utf8Length`.  Behind the last unit there is no low surrogate to compare, and no
    comparison with `NaN` holds. -/
def utf8LengthFrom (label : String) (bytes : Nat) : Text → Except GitError Nat
  | [] => .ok bytes
  | unit :: rest =>
    if isHigh unit then
      match rest with
      | [] => countBytes label bytes 4
      | low :: rest =>
        if low < 0xdc00 || low > 0xdfff then
          .error (corrupt s!"{label} is not canonical UTF-16")
        else (countBytes label bytes 4).bind fun bytes => utf8LengthFrom label bytes rest
    else if isLow unit then .error (corrupt s!"{label} is not canonical UTF-16")
    else
      (countBytes label bytes (if unit < 0x80 then 1 else if unit < 0x800 then 2 else 3)).bind
        fun bytes => utf8LengthFrom label bytes rest

def utf8Length (value : Text) (label : String) : Except GitError Nat :=
  utf8LengthFrom label 0 value

def serializedEntryBytes (modeBytes nameBytes : Nat) : Nat := modeBytes + nameBytes + 22

def serializedLeafModeBytes (mode : Nat) : Except GitError Nat :=
  if mode ≠ 0o100644 ∧ mode ≠ 0o100755 ∧ mode ≠ 0o120000 ∧ mode ≠ 0o160000 then
    .error (corrupt "tree-build index mode is invalid")
  else .ok 6

/-- A segment that `validatePathShape` refuses. -/
def isInvalidSegment (segment : Text) : Bool :=
  segment.length = 0 || (segment.length = 1 && segment[0]? = some 0x2e) ||
    (segment.length = 2 && segment[0]? = some 0x2e && segment[1]? = some 0x2e)

/-- The loop of `validatePathShape`, with the units of the segment it is in. -/
def validateSegments (segment : Text) : Text → Except GitError Unit
  | [] => reject (isInvalidSegment segment) (corrupt "tree-build index path is invalid")
  | unit :: rest =>
    if unit ≠ 0x2f then
      if unit = 0 then .error (corrupt "tree-build index path is invalid")
      else validateSegments (segment ++ [unit]) rest
    else
      (reject (isInvalidSegment segment) (corrupt "tree-build index path is invalid")).bind fun _ =>
        validateSegments [] rest

def validatePathShape (path : Text) : Except GitError Unit :=
  if path.length = 0 ∨ path.head? = some 0x2f ∨ path.getLast? = some 0x2f then
    .error (corrupt "tree-build index path is invalid")
  else validateSegments [] path

def validatePath (path : Text) : Except GitError (List Text) :=
  (validatePathShape path).map fun _ => path.splitOn 0x2f

-- preflightTreeBuild

structure TreeBuildPreflightStats where
  leafEntries : Nat
  totalPathBytes : Nat
  treeObjects : Nat
  serializedTreeBytes : Nat
  maxSingleTreeBytes : Nat
  deriving DecidableEq

structure PreflightDirectory where
  serializedBytes : Nat
  entries : Nat
  deriving DecidableEq

/-- The variables of `preflightTreeBuild`. -/
structure Preflight where
  stack : List PreflightDirectory
  opened : List Text
  previousEntry : Option (Text × Nat)
  previousPath : Option Text
  leafEntries : Nat
  totalPathBytes : Nat
  treeObjects : Nat
  serializedTreeBytes : Nat
  maxSingleTreeBytes : Nat
  deriving DecidableEq

/-- How many of the directories that are open lead to the next leaf. -/
def sharedDirectories : List Text → List Text → Nat
  | name :: opened, segment :: segments =>
    if name = segment then sharedDirectories opened segments + 1 else 0
  | _, _ => 0

namespace Preflight

def start : Preflight where
  stack := [{ serializedBytes := 0, entries := 0 }]
  opened := []
  previousEntry := none
  previousPath := none
  leafEntries := 0
  totalPathBytes := 0
  treeObjects := 1
  serializedTreeBytes := 0
  maxSingleTreeBytes := 0

/-- `retainEntry`, in the innermost directory. -/
def retainEntry (maxEntriesPerTree : Int) (bytes : Nat) (state : Preflight) (lost : String) :
    Except GitError Preflight :=
  match state.stack with
  | [] => .error (corrupt lost)
  | directory :: stack =>
    if directory.entries ≥ maxEntriesPerTree then
      .error
        { code := "E2BIG"
          message := s!"tree build exceeds {maxEntriesPerTree} entries in one tree object" }
    else
      .ok { state with
        stack := { serializedBytes := directory.serializedBytes + bytes
                   entries := directory.entries + 1 } :: stack }

/-- One round of `closeTo`. -/
def closeDirectory (state : Preflight) : Except GitError Preflight :=
  match state.stack with
  | [] => .error (corrupt "tree-build preflight stack is empty")
  | finished :: stack =>
    .ok { state with
      stack
      maxSingleTreeBytes := max state.maxSingleTreeBytes finished.serializedBytes
      opened := state.opened.dropLast }

def closeTimes : Nat → Preflight → Except GitError Preflight
  | 0, state => .ok state
  | times + 1, state => state.closeDirectory.bind (closeTimes times)

def closeTo (state : Preflight) (depth : Nat) : Except GitError Preflight :=
  state.closeTimes (state.opened.length - depth)

/-- A directory on the way to a leaf that was not open. -/
def openDirectory (maxEntriesPerTree : Int) (state : Preflight) (name : Text) :
    Except GitError Preflight := do
  let nameBytes ← utf8Length name "tree-build directory name"
  let bytes := serializedEntryBytes 5 nameBytes
  let serializedTreeBytes ← checkedBytes state.serializedTreeBytes bytes "serialized diagnostic"
  let state ← { state with serializedTreeBytes }.retainEntry maxEntriesPerTree bytes
    "tree-build preflight lost its parent"
  let treeObjects ← checkedBytes state.treeObjects 1 "tree-object diagnostic"
  return { state with
    stack := { serializedBytes := 0, entries := 0 } :: state.stack
    opened := state.opened ++ [name]
    treeObjects }

/-- The checks on an entry and the one before it. -/
def checkOrder (state : Preflight) (entry : IndexEntry) : Except GitError Unit :=
  match state.previousEntry with
  | none => .ok ()
  | some (path, stage) =>
    reject (comparePaths path entry.path > 0 ||
        (comparePaths path entry.path = 0 && stage ≥ entry.stage))
      (corrupt "tree-build index entries are not in strict Git order")

/-- The checks on a stage-zero entry and the one before it. -/
def checkPrevious (state : Preflight) (entry : IndexEntry) : Except GitError Unit :=
  match state.previousPath with
  | none => .ok ()
  | some path => do
    reject (comparePaths path entry.path ≥ 0)
      (corrupt "tree-build stage-zero paths are not in strict Git order")
    reject ((path ++ [0x2f]).isPrefixOf entry.path)
      (corrupt "tree-build index contains a file below another file")

/-- An entry in the loop of `preflightTreeBuild`. -/
def step (maxEntriesPerTree : Int) (state : Preflight) (entry : IndexEntry) :
    Except GitError Preflight := do
  reject (entry.stage > 3) (corrupt "tree-build index stage is invalid")
  state.checkOrder entry
  let state := { state with previousEntry := some (entry.path, entry.stage) }
  if entry.stage ≠ 0 then return state
  let pathLength ← utf8Length entry.path "tree-build index path"
  let totalPathBytes ← checkedBytes state.totalPathBytes pathLength "full-path diagnostic"
  state.checkPrevious entry
  reject (!isOid entry.oid) (corrupt "tree-build index oid is invalid")
  let segments ← validatePath entry.path
  let directories := segments.dropLast
  let shared := sharedDirectories state.opened directories
  let state ← { state with totalPathBytes }.closeTo shared
  let state ← (directories.drop shared).foldlM (openDirectory maxEntriesPerTree) state
  match segments.getLast? with
  | none => .error (corrupt "tree-build leaf name is missing")
  | some name =>
    let modeBytes ← serializedLeafModeBytes entry.mode
    let nameBytes ← utf8Length name "tree-build leaf name"
    let leafBytes := serializedEntryBytes modeBytes nameBytes
    let serializedTreeBytes ←
      checkedBytes state.serializedTreeBytes leafBytes "serialized diagnostic"
    let state ← { state with serializedTreeBytes }.retainEntry maxEntriesPerTree leafBytes
      "tree-build preflight lost its leaf parent"
    return { state with
      leafEntries := state.leafEntries + 1
      previousPath := some entry.path }

end Preflight

def preflightTreeBuild (entries : List IndexEntry) (maxEntriesPerTree : Int) :
    Except GitError TreeBuildPreflightStats := do
  let maxEntriesPerTree ← requireLimit maxEntriesPerTree "tree-entry"
  let state ← entries.foldlM (Preflight.step maxEntriesPerTree) .start
  let state ← state.closeTo 0
  match state.stack.getLast? with
  | none => .error (corrupt "tree-build preflight lost its root")
  | some root =>
    return {
      leafEntries := state.leafEntries
      totalPathBytes := state.totalPathBytes
      treeObjects := state.treeObjects
      serializedTreeBytes := state.serializedTreeBytes
      maxSingleTreeBytes := max state.maxSingleTreeBytes root.serializedBytes }

-- buildTreeInBatch

structure OpenDirectory where
  name : Text
  entries : List TreeEntry
  serializedBytes : Nat
  deriving DecidableEq

/-- The variables of `buildTreeInBatch`, and the tree objects that the batch has received. -/
structure Builder where
  stack : List OpenDirectory
  opened : List Text
  written : List (List UInt8)
  deriving DecidableEq

/-- `Number.prototype.toString(8)`. -/
def toString8 (mode : Nat) : Text :=
  (Nat.toDigits 8 mode).map fun digit => UInt16.ofNat digit.toNat

/-- `batch.write("tree", data)`: the id of the object. -/
abbrev BatchWrite := List UInt8 → Except GitError Text

/-- `writeTree`: the id, with what the batch receives. -/
def writeTree (write : BatchWrite) (entries : List TreeEntry) (serializedBytes : Nat) :
    Except GitError (Text × List UInt8) := do
  let data := serializeTree entries
  reject (data.length ≠ serializedBytes) (corrupt "tree-build serialized size is inconsistent")
  let oid ← write data
  return (oid, data)

namespace Builder

def start : Builder where
  stack := [{ name := [], entries := [], serializedBytes := 0 }]
  opened := []
  written := []

/-- `closeTop`. -/
def closeTop (write : BatchWrite) (builder : Builder) : Except GitError Builder :=
  match builder.stack with
  | finished :: parent :: stack => do
    let (oid, data) ← writeTree write finished.entries finished.serializedBytes
    let nameBytes ← utf8Length finished.name "tree-build directory name"
    let serializedBytes ← checkedBytes parent.serializedBytes (serializedEntryBytes 5 nameBytes)
      "serialized object"
    return {
      stack :=
        { parent with
          entries := parent.entries ++ [{ mode := MODE_TREE, name := finished.name, oid }]
          serializedBytes } :: stack
      opened := builder.opened.dropLast
      written := builder.written ++ [data] }
  | _ => .error (corrupt "tree-build execution stack is invalid")

def closeTimes (write : BatchWrite) : Nat → Builder → Except GitError Builder
  | 0, builder => .ok builder
  | times + 1, builder => (builder.closeTop write).bind (closeTimes write times)

/-- A directory on the way to a leaf that was not open. -/
def openDirectory (builder : Builder) (name : Text) : Builder :=
  { builder with
    stack := { name, entries := [], serializedBytes := 0 } :: builder.stack
    opened := builder.opened ++ [name] }

/-- The leaf of an entry, in the innermost directory. -/
def addLeaf (builder : Builder) (name : Option Text) (entry : IndexEntry) :
    Except GitError Builder :=
  match builder.stack, name with
  | parent :: stack, some name => do
    let _ ← serializedLeafModeBytes entry.mode
    reject (!isOid entry.oid) (corrupt "tree-build index oid is invalid")
    let modeBytes ← serializedLeafModeBytes entry.mode
    let nameBytes ← utf8Length name "tree-build entry name"
    let serializedBytes ← checkedBytes parent.serializedBytes
      (serializedEntryBytes modeBytes nameBytes) "serialized object"
    return { builder with
      stack :=
        { parent with
          entries := parent.entries ++ [{ mode := toString8 entry.mode, name, oid := entry.oid }]
          serializedBytes } :: stack }
  | _, _ => .error (corrupt "tree-build execution lost its leaf parent")

/-- An entry in the loop of `buildTreeInBatch`. -/
def step (write : BatchWrite) (builder : Builder) (entry : IndexEntry) :
    Except GitError Builder := do
  if entry.stage ≠ 0 then return builder
  let segments ← validatePath entry.path
  let directories := segments.dropLast
  let shared := sharedDirectories builder.opened directories
  let builder ← builder.closeTimes write (builder.opened.length - shared)
  let builder := (directories.drop shared).foldl openDirectory builder
  builder.addLeaf segments.getLast? entry

end Builder

/-- `buildTreeInBatch`: the id of the root, with the tree objects that were written. -/
def buildTreeInBatch (write : BatchWrite) (entries : List IndexEntry) :
    Except GitError (Text × List (List UInt8)) := do
  let builder ← entries.foldlM (Builder.step write) .start
  let builder ← builder.closeTimes write builder.opened.length
  match builder.stack.getLast? with
  | none => .error (corrupt "tree-build execution lost its root")
  | some root =>
    let (oid, data) ← writeTree write root.entries root.serializedBytes
    return (oid, builder.written ++ [data])

end Kompjutr.Ops
