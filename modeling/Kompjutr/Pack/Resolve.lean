/-
  Kompjutr.Pack.Resolve

  Delta entries when a pack is indexed and when it is read: `applyDeltaBytes`
  and `applyStoredDelta` of `store/pack/ingest/ingest-inflate.ts`, and the link
  of a delta chain as `#readObjects` of `store/pack/read/read-resolver.ts`
  resolves it.

  Inflation is a parameter: what a compressed payload inflates to, and the
  pieces in which the streaming inflater hands it out.
-/
import Kompjutr.Objects.Commit
import Kompjutr.Pack.Delta

namespace Kompjutr.Pack

open Objects

structure RawObject where
  type : ObjectType
  data : List UInt8
  deriving DecidableEq

/-- A zlib decoder.  `inflate` is what one complete stream yields, with all its input used up;
    `pieces` is the same output as the streaming decoder hands it out when its input comes in
    slices of a given length. -/
structure Zlib where
  inflate : List UInt8 → Option (List UInt8)
  pieces : Nat → List UInt8 → Option (List (List UInt8))
  flatten_pieces : ∀ length input, (pieces length input).map List.flatten = inflate input

def packReadBytes : Nat := 1024 * 1024

def packRangeSliceBytes : Nat := 256 * 1024

-- Ingest

/-- `#validatePoolTarget`. -/
def validatePoolTarget (baseSize targetSize : Nat) : Except GitError Unit := do
  let baseBytes ← chunkFootprint baseSize
  let targetBytes ← chunkFootprint targetSize
  if baseBytes > maxPackDeltaWorkingBytes ∨
      (targetBytes : Int) > maxPackDeltaWorkingBytes - baseBytes then
    throw (corrupt "delta working set exceeds 48 MiB")

/-- The limits ingest gives the incremental parser. -/
def ingestLimits (targetSize : Nat) : DeltaLimits :=
  { expectedTargetSize := some targetSize, maxWorkingBytes := maxPackDeltaWorkingBytes
    maxInstructionBytes := maxPackDeltaWorkingBytes }

/-- The end of both routes: the header is probed in some pieces, the delta is applied in others,
    and the working set is checked once more. -/
def applyProbed (base : List UInt8) (probed chunks : List (List UInt8)) (pool : ChunkPool) :
    Except GitError (List UInt8) := do
  let probe ← probed.foldlM DeltaHeaderProbe.update DeltaHeaderProbe.create
  let (sourceSize, targetSize) ← probe.finish
  if sourceSize ≠ base.length then throw (corrupt "delta base size mismatch")
  validatePoolTarget base.length targetSize
  let target ← DeltaApplier.applyChunks base pool (ingestLimits targetSize) chunks
  if base.length + chunks.flatten.length + target.length > maxPackDeltaWorkingBytes then
    throw (corrupt "delta working set exceeds 48 MiB")
  return target

/-- `#applyBufferedDelta`. -/
def applyBufferedDelta (base delta : List UInt8) (pool : ChunkPool) : Except GitError (List UInt8) :=
  applyProbed base [delta] [delta] pool

/-- `applyStoredDelta`, for a payload that is one compressed range (`ranged`) or is read from the
    pack piece by piece. -/
def applyStoredDelta (zlib : Zlib) (maxBufferedEntry : Nat) (payload : List UInt8)
    (instructionSize : Nat) (label : String) (base : List UInt8) (pool : ChunkPool)
    (ranged : Bool) : Except GitError (List UInt8) :=
  if !isSafeInteger payload.length || !isSafeInteger instructionSize ||
      base.length + instructionSize > maxPackDeltaWorkingBytes then
    throw (corrupt s!"{label} exceeds the bounded working set")
  else if instructionSize > maxBufferedEntry ∨ payload.length > packReadBytes then
    match zlib.pieces packRangeSliceBytes payload,
        zlib.pieces (if ranged then packRangeSliceBytes else packReadBytes) payload with
    | some probed, some chunks =>
      if chunks.flatten.length ≠ instructionSize then
        throw (corrupt s!"{label} size does not match its index metadata")
      else applyProbed base probed chunks pool
    | _, _ => throw (corrupt s!"{label} is not a valid zlib stream")
  else
    match zlib.inflate payload with
    | some delta =>
      if delta.length ≠ instructionSize then
        throw (corrupt s!"{label} size does not match its index metadata")
      else applyBufferedDelta base delta pool
    | none => throw (corrupt s!"{label} is not a valid zlib stream")

-- Reading back

/-- An entry of a pack as its index row has it, with the bytes the row points to. -/
structure PackedEntry where
  oid : Text
  packId : Nat
  offset : Nat
  type : ObjectType
  size : Nat
  entrySize : Nat
  baseOffset : Option Nat
  payload : List UInt8
  deriving DecidableEq

/-- `inflateCompressed`. -/
def inflateEntry (zlib : Zlib) (entry : PackedEntry) : Except GitError (List UInt8) :=
  if !isSafeInteger entry.entrySize || entry.entrySize > maxPackDeltaWorkingBytes then
    throw (corrupt s!"pack entry at {entry.offset} exceeds the bounded inflate limit")
  else
    match zlib.inflate entry.payload with
    | none => throw (corrupt s!"pack entry at {entry.offset} is not a valid zlib stream")
    | some data =>
      if data.length > entry.entrySize then
        throw (corrupt s!"pack entry at {entry.offset} exceeds its indexed size")
      else if data.length ≠ entry.entrySize then
        throw (corrupt s!"pack entry at {entry.offset} size does not match its index metadata")
      else pure data

/-- `materializeBase`, for the object it makes. -/
def materializeBase (zlib : Zlib) (entry : PackedEntry) : Except GitError RawObject := do
  if entry.entrySize ≠ entry.size then
    throw (corrupt s!"pack entry at {entry.offset} has inconsistent size metadata")
  let data ← inflateEntry zlib entry
  return { type := entry.type, data }

/-- One link of a chain: the object of a delta entry, from the object of its base. -/
def resolveLink (zlib : Zlib) (object : RawObject) (entry : PackedEntry) :
    Except GitError RawObject := do
  checkDeltaInflateBudget object.data entry.entrySize
  let delta ← inflateEntry zlib entry
  let targetSize ← validateDeltaWorkingSet object.data delta entry.size
  let data ← applyDelta object.data delta
  if targetSize ≠ data.length then
    throw (corrupt s!"pack entry at {entry.offset} has inconsistent size metadata")
  if data.length ≠ entry.size ∨ object.type ≠ entry.type then
    throw (corrupt s!"pack entry at {entry.offset} has inconsistent type or size")
  return { type := object.type, data }

end Kompjutr.Pack
