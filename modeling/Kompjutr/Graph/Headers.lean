/-
  Kompjutr.Graph.Headers

  `StreamingHeaders` and `scanHeaders` of `store/graph/semantic-headers.ts`: the
  byte machine that maintenance and transfer walks read commits and tags with.
  It keeps the first 128 bytes of a line and forgets every line once it ends.
-/
import Kompjutr.Objects.Commit

namespace Kompjutr.Graph

open Objects

def headerLinePrefixBytes : Nat := 128

inductive HeaderKind where
  | commit | tag
  deriving DecidableEq

def HeaderKind.name : HeaderKind → String
  | .commit => "commit"
  | .tag => "tag"

structure HeaderScanResult where
  treeOid : Option Text
  parentOids : List Text
  parentCount : Nat
  tagOid : Option Text
  tagType : Option ObjectType
  deriving DecidableEq

/-- The fields of `StreamingHeaders`. -/
structure StreamingHeaders where
  kind : HeaderKind
  parentStart : Nat
  parentLimit : Nat
  start : List UInt8
  lineLength : Nat
  header : Bool
  previousStructural : Bool
  received : Nat
  treeOid : Option Text
  parentCount : Nat
  parentOids : List Text
  tagOid : Option Text
  tagType : Option ObjectType
  deriving DecidableEq

namespace StreamingHeaders

def create (kind : HeaderKind) (parentStart parentLimit : Nat) : StreamingHeaders :=
  { kind, parentStart, parentLimit, start := [], lineLength := 0, header := true
    previousStructural := false, received := 0, treeOid := none, parentCount := 0
    parentOids := [], tagOid := none, tagType := none }

/-- A byte `#ascii` takes. -/
def isPrintable (b : UInt8) : Bool := 0x20 ≤ b && b ≤ 0x7e

/-- `#ascii` on a part of the line. -/
def readAscii (kind : HeaderKind) (bytes : List UInt8) : Except GitError Text :=
  if bytes.all isPrintable then pure (bytes.map UInt8.toUInt16)
  else throw (corrupt s!"{kind.name} structural header is not ASCII")

/-- The keys the machine looks at. -/
def isStructural (kind : HeaderKind) (key : Text) : Bool :=
  match kind with
  | .commit => key = text "tree" || key = text "parent"
  | .tag => key = text "object" || key = text "type"

def addTree (s : StreamingHeaders) (value : Text) : Except GitError StreamingHeaders :=
  if s.treeOid ≠ none then throw (corrupt "commit has duplicate tree headers")
  else if !isOid value then throw (corrupt "commit has a malformed tree oid")
  else pure { s with treeOid := some value }

def addParent (s : StreamingHeaders) (value : Text) : Except GitError StreamingHeaders :=
  if !isOid value then throw (corrupt "commit has a malformed parent oid")
  else pure { s with
    parentOids :=
      if s.parentCount ≥ s.parentStart ∧ s.parentOids.length < s.parentLimit then
        s.parentOids ++ [value]
      else s.parentOids
    parentCount := s.parentCount + 1 }

def addObject (s : StreamingHeaders) (value : Text) : Except GitError StreamingHeaders :=
  if s.tagOid ≠ none then throw (corrupt "tag has duplicate object headers")
  else if !isOid value then throw (corrupt "tag has a malformed object oid")
  else pure { s with tagOid := some value }

def addType (s : StreamingHeaders) (value : Text) : Except GitError StreamingHeaders :=
  if s.tagType ≠ none then throw (corrupt "tag has duplicate type headers")
  else match ObjectType.ofText value with
    | some type => pure { s with tagType := some type }
    | none => throw (corrupt "tag target type is invalid")

/-- A structural header is taken in. -/
def absorb (s : StreamingHeaders) (key value : Text) : Except GitError StreamingHeaders :=
  if key = text "tree" then s.addTree value
  else if key = text "parent" then s.addParent value
  else if key = text "object" then s.addObject value
  else s.addType value

/-- What `#finishLine` finds in a line. -/
inductive HeaderLine where
  | continuation
  | other
  | structural (key value : Text)
  deriving DecidableEq

/-- The reading half of `#finishLine`, from the kept start of the line and its length. -/
def readLine (kind : HeaderKind) (start : List UInt8) (lineLength : Nat) :
    Except GitError HeaderLine :=
  if start.head? = some 0x20 then pure .continuation
  else
    let space := start.findIdx (· = 0x20)
    if space = start.length ∨ space = 0 then pure .other
    else do
      let key ← readAscii kind (start.take space)
      if !isStructural kind key then return .other
      if lineLength > start.length then
        throw (corrupt s!"{kind.name} structural header is too long")
      let value ← readAscii kind (start.drop (space + 1))
      return .structural key value

/-- `#finishLine`. -/
def finishLine (s : StreamingHeaders) : Except GitError StreamingHeaders := do
  match ← readLine s.kind s.start s.lineLength with
  | .continuation =>
    if s.previousStructural then
      throw (corrupt s!"{s.kind.name} structural header has a continuation")
    return { s with previousStructural := false }
  | .other => return { s with previousStructural := false }
  | .structural key value => absorb { s with previousStructural := true } key value

/-- One byte of `push`. -/
def pushByte (s : StreamingHeaders) (byte : UInt8) : Except GitError StreamingHeaders := do
  let s := { s with received := s.received + 1 }
  if !isSafeInteger s.received then
    throw (corrupt s!"{s.kind.name} object size exceeds the safe integer range")
  if !s.header then return s
  if byte = 0x0a then
    let s ← if s.lineLength = 0 then pure { s with header := false } else s.finishLine
    return { s with start := [], lineLength := 0 }
  return { s with
    start := if s.start.length < headerLinePrefixBytes then s.start ++ [byte] else s.start
    lineLength := s.lineLength + 1 }

def push (s : StreamingHeaders) (chunk : List UInt8) : Except GitError StreamingHeaders :=
  chunk.foldlM pushByte s

def finish (s : StreamingHeaders) (expectedSize : Nat) : Except GitError HeaderScanResult := do
  let s ← if s.header ∧ s.lineLength ≠ 0 then s.finishLine else pure s
  if s.received ≠ expectedSize then
    throw (corrupt
      s!"{s.kind.name} object yielded {s.received} bytes, expected {expectedSize}")
  return { treeOid := s.treeOid, parentOids := s.parentOids, parentCount := s.parentCount
           tagOid := s.tagOid, tagType := s.tagType }

end StreamingHeaders

/-- `scanHeaders` over the chunks a source yields, for an object of the given size. -/
def scanHeaders (kind : HeaderKind) (chunks : List (List UInt8)) (size parentStart parentLimit : Nat) :
    Except GitError HeaderScanResult := do
  let s ← chunks.foldlM StreamingHeaders.push (StreamingHeaders.create kind parentStart parentLimit)
  s.finish size

end Kompjutr.Graph
