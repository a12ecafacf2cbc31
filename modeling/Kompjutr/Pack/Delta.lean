/-
  Kompjutr.Pack.Delta

  Git deltas: the incremental `DeltaApplier` and the buffered `applyDelta` of
  `store/pack/delta.ts`, with `validateDeltaWorkingSet` and `DeltaHeaderProbe`
  of `store/pack/shared-delta.ts` and the chunk accounting of
  `store/pack/chunks.ts`.

  A target under construction is the list of the bytes written so far.  A size
  from 2^53 on stands for the double nearest to it, which is from 2^53 on too.
-/
import Kompjutr.Common.Base
import Kompjutr.Lib.Run

namespace Kompjutr.Pack

-- Chunks

variable {command : UInt8} {rest rest' : List UInt8}

def packChunkBytes : Nat := 64 * 1024

def maxDeltaTarget : Nat := 512 * 1024 * 1024

def maxDeltaWorkingBytes : Nat := 48 * 1024 * 1024

def maxDeltaInstructionBytes : Nat := 48 * 1024 * 1024

def maxPackDeltaWorkingBytes : Nat := 48 * 1024 * 1024

/-- The chunks that hold a number of bytes. -/
def chunkCount (length : Nat) : Nat := (length + packChunkBytes - 1) / packChunkBytes

def chunkFootprint (length : Nat) : Except GitError Nat := do
  if !isSafeInteger length then throw (rangeError "invalid chunked byte length")
  let footprint := chunkCount length * packChunkBytes
  if !isSafeInteger footprint then throw (rangeError "chunked byte length is too large")
  return footprint

/-- What `ChunkPool` counts: its limit, its free chunks and the bytes it has allocated. -/
structure ChunkPool where
  maxAllocatedBytes : Nat
  free : Nat
  allocatedBytes : Nat
  deriving DecidableEq

/-- `new ChunkPool()`. -/
def ChunkPool.create : ChunkPool :=
  { maxAllocatedBytes := maxSafeInteger.toNat, free := 0, allocatedBytes := 0 }

/-- `preflight`, which guards every allocation. -/
def ChunkPool.preflight (pool : ChunkPool) (count : Nat) : Except GitError Unit :=
  let needed := (count - pool.free) * packChunkBytes
  if !isSafeInteger needed || (needed : Int) > pool.maxAllocatedBytes - pool.allocatedBytes then
    throw (rangeError "chunk pool allocation limit exceeded")
  else pure ()

-- The incremental parser

structure DeltaLimits where
  expectedTargetSize : Option Nat
  maxWorkingBytes : Nat
  maxInstructionBytes : Nat
  deriving DecidableEq

inductive DeltaPhase where
  | sourceSize | targetSize | opcode | copy | literal
  deriving DecidableEq

/-- The fields of `DeltaApplier`.  `copyBits` is `#copyBit` with the bits after it. -/
structure DeltaApplier where
  base : List UInt8
  pool : ChunkPool
  limits : DeltaLimits
  phase : DeltaPhase
  sizeValue : Nat
  sizeMultiplier : Nat
  target : List UInt8
  targetSize : Nat
  instructionBytes : Nat
  copyCommand : UInt8
  copyBits : List UInt8
  copyOffset : Nat
  copySize : Nat
  literalRemaining : Nat
  deriving DecidableEq

/-- The bits of a copy command, in the order their bytes follow it. -/
def copyBitOrder : List UInt8 := [0x01, 0x02, 0x04, 0x08, 0x10, 0x20, 0x40]

namespace DeltaApplier

/-- The fields a new parser has. -/
def start (base : List UInt8) (pool : ChunkPool) (limits : DeltaLimits) : DeltaApplier :=
  { base, pool, limits, phase := .sourceSize, sizeValue := 0, sizeMultiplier := 1, target := []
    targetSize := 0, instructionBytes := 0, copyCommand := 0, copyBits := [], copyOffset := 0
    copySize := 0, literalRemaining := 0 }

def create (base : List UInt8) (pool : ChunkPool) (limits : DeltaLimits) :
    Except GitError DeltaApplier :=
  if limits.expectedTargetSize.any (fun size => !isSafeInteger size) ||
      !isSafeInteger limits.maxWorkingBytes || !isSafeInteger limits.maxInstructionBytes then
    throw (rangeError "invalid delta limits")
  else pure (start base pool limits)

def written (s : DeltaApplier) : Nat := s.target.length

/-- `#sizeByte`; the flag says that the size is complete. -/
def sizeByte (s : DeltaApplier) (byte : UInt8) : Except GitError (Bool × DeltaApplier) := do
  let addition := (byte &&& 0x7f).toNat * s.sizeMultiplier
  if !isSafeInteger addition || !isSafeInteger (s.sizeValue + addition) then
    throw (corrupt "delta size is invalid")
  let s := { s with sizeValue := s.sizeValue + addition }
  if byte &&& 0x80 = 0 then return (true, s)
  let s := { s with sizeMultiplier := s.sizeMultiplier * 128 }
  if !isSafeInteger s.sizeMultiplier then throw (corrupt "delta size is invalid")
  return (false, s)

def resetSize (s : DeltaApplier) : DeltaApplier := { s with sizeValue := 0, sizeMultiplier := 1 }

def admitTarget (s : DeltaApplier) (targetSize : Nat) : Except GitError DeltaApplier := do
  if targetSize > maxDeltaTarget then throw (corrupt "delta target too large")
  if s.limits.expectedTargetSize.any (· ≠ targetSize) then
    throw (corrupt "delta target size mismatch")
  let baseBytes ← chunkFootprint s.base.length
  let targetBytes ← chunkFootprint targetSize
  if baseBytes > s.limits.maxWorkingBytes ∨
      (targetBytes : Int) > s.limits.maxWorkingBytes - baseBytes then
    throw (corrupt "delta working set exceeds 48 MiB")
  s.pool.preflight (chunkCount targetSize)
  return { s with targetSize, target := [] }

def copyByte (s : DeltaApplier) (bit byte : UInt8) : DeltaApplier :=
  if bit ≤ 0x08 then
    let multiplier :=
      if bit = 0x01 then 1 else if bit = 0x02 then 0x100 else if bit = 0x04 then 0x10000
      else 0x1000000
    { s with copyOffset := s.copyOffset + byte.toNat * multiplier }
  else
    let multiplier := if bit = 0x10 then 1 else if bit = 0x20 then 0x100 else 0x10000
    { s with copySize := s.copySize + byte.toNat * multiplier }

def applyCopy (s : DeltaApplier) : Except GitError DeltaApplier := do
  let size := if s.copySize = 0 then 0x10000 else s.copySize
  if (s.copyOffset : Int) > s.base.length - size then throw (corrupt "delta copy out of range")
  if (size : Int) > s.targetSize - s.written then throw (corrupt "delta copy overflows target")
  return { s with target := s.target ++ (s.base.drop s.copyOffset).take size }

/-- The bits that are left of a copy command, from the first one that is set. -/
def bitsLeft (s : DeltaApplier) : List UInt8 :=
  s.copyBits.dropWhile fun bit => s.copyCommand &&& bit = 0

/-- In the middle of a copy command: skip the bits that are not set, and copy once none is left. -/
def settleCopy (s : DeltaApplier) : Except GitError DeltaApplier := do
  if s.phase ≠ .copy then return s
  if s.bitsLeft = [] then
    let s ← s.applyCopy
    return { s with phase := .opcode }
  return { s with copyBits := s.bitsLeft }

def opcodeByte (s : DeltaApplier) (command : UInt8) : Except GitError DeltaApplier := do
  if command &&& 0x80 ≠ 0 then
    return { s with
      copyCommand := command, copyBits := copyBitOrder, copyOffset := 0, copySize := 0
      phase := .copy }
  if command = 0 then throw (corrupt "invalid delta opcode 0")
  if (command.toNat : Int) > s.targetSize - s.written then
    throw (corrupt "delta literal overflows target")
  return { s with literalRemaining := command.toNat, phase := .literal }

/-- A byte after `settleCopy`: the next byte of the copy command, or an opcode. -/
def copyStep (s : DeltaApplier) (byte : UInt8) : Except GitError DeltaApplier :=
  match s.phase, s.copyBits with
  | .copy, bit :: bits => pure { s.copyByte bit byte with copyBits := bits }
  | _, _ => s.opcodeByte byte

def literalByte (s : DeltaApplier) (byte : UInt8) : DeltaApplier :=
  { s with
    target := s.target ++ [byte]
    literalRemaining := s.literalRemaining - 1
    phase := if s.literalRemaining - 1 = 0 then .opcode else .literal }

/-- One byte of the loop of `#push`.  A literal is written byte by byte, and a copy command that
    has all its bytes is carried out before the next opcode is read. -/
def pushByte (s : DeltaApplier) (byte : UInt8) : Except GitError DeltaApplier :=
  match s.phase with
  | .sourceSize => do
    let (complete, s) ← s.sizeByte byte
    if !complete then return s
    if s.sizeValue ≠ s.base.length then throw (corrupt "delta base size mismatch")
    return resetSize { s with phase := .targetSize }
  | .targetSize => do
    let (complete, s) ← s.sizeByte byte
    if !complete then return s
    let s ← s.admitTarget s.sizeValue
    return resetSize { s with phase := .opcode }
  | .opcode => s.opcodeByte byte
  | .copy => do
    let s ← s.settleCopy
    s.copyStep byte
  | .literal => pure (s.literalByte byte)

def push (s : DeltaApplier) (input : List UInt8) : Except GitError DeltaApplier := do
  if (input.length : Int) > s.limits.maxInstructionBytes - s.instructionBytes then
    throw (corrupt "delta instruction stream too large")
  let s := { s with instructionBytes := s.instructionBytes + input.length }
  let s ← input.foldlM pushByte s
  s.settleCopy

def finish (s : DeltaApplier) : Except GitError (List UInt8) :=
  if s.phase = .literal then throw (corrupt "delta literal truncated")
  else if s.phase ≠ .opcode then throw (corrupt "delta truncated")
  else if s.written ≠ s.targetSize then throw (corrupt "delta target size mismatch")
  else pure s.target

/-- A delta pushed chunk by chunk. -/
def applyChunks (base : List UInt8) (pool : ChunkPool) (limits : DeltaLimits)
    (chunks : List (List UInt8)) : Except GitError (List UInt8) := do
  let s ← create base pool limits
  let s ← chunks.foldlM push s
  s.finish

end DeltaApplier

-- The buffered pair

/-- `next` of `applyDelta`, on the bytes that are left. -/
def next : List UInt8 → Except GitError (UInt8 × List UInt8)
  | [] => throw (corrupt "delta truncated")
  | byte :: rest => pure (byte, rest)

/-- `varint` of `applyDelta`. -/
def varint (result shift : Nat) : List UInt8 → Except GitError (Nat × List UInt8)
  | [] => throw (corrupt "delta truncated")
  | byte :: rest =>
    let result := result + (byte &&& 0x7f).toNat * 2 ^ shift
    if byte &&& 0x80 ≠ 0 then varint result (shift + 7) rest else pure (result, rest)

/-- `next` where the bit of the command is set. -/
def nextIf (command bit : UInt8) (rest : List UInt8) : Except GitError (Nat × List UInt8) :=
  if command &&& bit ≠ 0 then do
    let (byte, rest) ← next rest
    return (byte.toNat, rest)
  else pure (0, rest)

/-- The offset and the size of a copy command. -/
def readCopy (command : UInt8) (rest : List UInt8) : Except GitError (Nat × Nat × List UInt8) := do
  let (b0, rest) ← nextIf command 0x01 rest
  let (b1, rest) ← nextIf command 0x02 rest
  let (b2, rest) ← nextIf command 0x04 rest
  let (b3, rest) ← nextIf command 0x08 rest
  let offset := (b0 ||| b1 <<< 8 ||| b2 <<< 16) + b3 * 0x1000000
  let (b4, rest) ← nextIf command 0x10 rest
  let (b5, rest) ← nextIf command 0x20 rest
  let (b6, rest) ← nextIf command 0x40 rest
  let size := b4 ||| b5 <<< 8 ||| b6 <<< 16
  return (offset, if size = 0 then 0x10000 else size, rest)

theorem nextIf_length {bit : UInt8} {b : Nat}
    (h : nextIf command bit rest = .ok (b, rest')) : rest'.length ≤ rest.length := by
  unfold nextIf at h
  split at h
  · cases rest with
    | nil => cases h
    | cons byte rest =>
      cases h
      simp
  · cases h
    exact Nat.le_refl _

theorem readCopy_length {offset size : Nat}
    (h : readCopy command rest = .ok (offset, size, rest')) : rest'.length ≤ rest.length := by
  unfold readCopy at h
  obtain ⟨⟨b0, r0⟩, h0, h⟩ := Fuel.bind_eq_ok.1 h
  obtain ⟨⟨b1, r1⟩, h1, h⟩ := Fuel.bind_eq_ok.1 h
  obtain ⟨⟨b2, r2⟩, h2, h⟩ := Fuel.bind_eq_ok.1 h
  obtain ⟨⟨b3, r3⟩, h3, h⟩ := Fuel.bind_eq_ok.1 h
  obtain ⟨⟨b4, r4⟩, h4, h⟩ := Fuel.bind_eq_ok.1 h
  obtain ⟨⟨b5, r5⟩, h5, h⟩ := Fuel.bind_eq_ok.1 h
  obtain ⟨⟨b6, r6⟩, h6, h⟩ := Fuel.bind_eq_ok.1 h
  have hrest : r6 = rest' := (Prod.mk.inj (Prod.mk.inj (Except.ok.inj h)).2).2
  have := nextIf_length h0
  have := nextIf_length h1
  have := nextIf_length h2
  have := nextIf_length h3
  have := nextIf_length h4
  have := nextIf_length h5
  have := nextIf_length h6
  rw [← hrest]
  omega

/-- The loop of `applyDelta`; `out` is what is written. -/
def applyCommands (base : List UInt8) (targetSize : Nat) (out : List UInt8) :
    List UInt8 → Except GitError (List UInt8)
  | [] => pure out
  | command :: rest =>
    if command &&& 0x80 ≠ 0 then
      match _h : readCopy command rest with
      | .error e => throw e
      | .ok (offset, size, rest') =>
        if offset + size > base.length then throw (corrupt "delta copy out of range")
        else if out.length + size > targetSize then throw (corrupt "delta copy overflows target")
        else applyCommands base targetSize (out ++ (base.drop offset).take size) rest'
    else if command ≠ 0 then
      if command.toNat > rest.length then throw (corrupt "delta literal truncated")
      else if out.length + command.toNat > targetSize then
        throw (corrupt "delta literal overflows target")
      else applyCommands base targetSize (out ++ rest.take command.toNat) (rest.drop command.toNat)
    else throw (corrupt "invalid delta opcode 0")
  termination_by rest => rest.length
  decreasing_by
    · exact Nat.lt_succ_of_le (readCopy_length (by assumption))
    · simp only [List.length_drop, List.length_cons]
      omega

def applyDelta (base delta : List UInt8) : Except GitError (List UInt8) := do
  let (sourceSize, rest) ← varint 0 0 delta
  let (targetSize, rest) ← varint 0 0 rest
  if sourceSize ≠ base.length then throw (corrupt "delta base size mismatch")
  if targetSize > maxDeltaTarget then throw (corrupt "delta target too large")
  let out ← applyCommands base targetSize [] rest
  if out.length ≠ targetSize then throw (corrupt "delta target size mismatch")
  return out

/-- `varint` of `validateDeltaWorkingSet`. -/
def boundedVarint (value shift : Nat) : List UInt8 → Except GitError (Nat × List UInt8)
  | [] => throw (corrupt "delta truncated")
  | byte :: rest =>
    let value := value + (byte &&& 0x7f).toNat * 2 ^ shift
    if shift + 7 > 56 then throw (corrupt "delta size is invalid")
    else if byte &&& 0x80 ≠ 0 then boundedVarint value (shift + 7) rest
    else pure (value, rest)

def validateDeltaWorkingSet (base delta : List UInt8) (expectedTargetSize : Nat) :
    Except GitError Nat := do
  let (sourceSize, rest) ← boundedVarint 0 0 delta
  let (targetSize, _) ← boundedVarint 0 0 rest
  if sourceSize ≠ base.length then throw (corrupt "delta base size mismatch")
  if targetSize ≠ expectedTargetSize then throw (corrupt "delta target size mismatch")
  let workingBytes := base.length + delta.length + targetSize
  if !isSafeInteger workingBytes || workingBytes > maxPackDeltaWorkingBytes then
    throw (corrupt "delta working set exceeds 48 MiB")
  return targetSize

def checkDeltaInflateBudget (base : List UInt8) (deltaSize : Nat) : Except GitError Unit :=
  if !isSafeInteger deltaSize || base.length + deltaSize > maxPackDeltaWorkingBytes then
    throw (corrupt "delta input exceeds the bounded working set")
  else pure ()

/-- The buffered pair: the check and then the application. -/
def applyValidated (base delta : List UInt8) (expectedTargetSize : Nat) :
    Except GitError (List UInt8) := do
  let _ ← validateDeltaWorkingSet base delta expectedTargetSize
  applyDelta base delta

-- The header probe

structure DeltaHeaderProbe where
  value : Nat
  shift : Nat
  field : Nat
  sourceSize : Option Nat
  targetSize : Option Nat
  deriving DecidableEq

namespace DeltaHeaderProbe

def create : DeltaHeaderProbe :=
  { value := 0, shift := 0, field := 0, sourceSize := none, targetSize := none }

/-- One byte of `update`; once both sizes are read the rest is ignored. -/
def updateByte (s : DeltaHeaderProbe) (byte : UInt8) : Except GitError DeltaHeaderProbe :=
  if s.targetSize ≠ none then pure s
  else
    let value := s.value + (byte &&& 0x7f).toNat * 2 ^ s.shift
    let shift := s.shift + 7
    if shift > 56 || !isSafeInteger value then throw (corrupt "delta size is invalid")
    else if byte &&& 0x80 ≠ 0 then pure { s with value, shift }
    else if s.field = 0 then
      pure { s with sourceSize := some value, field := s.field + 1, value := 0, shift := 0 }
    else pure { s with targetSize := some value, field := s.field + 1, value := 0, shift := 0 }

def update (s : DeltaHeaderProbe) (bytes : List UInt8) : Except GitError DeltaHeaderProbe :=
  bytes.foldlM updateByte s

/-- The sizes of the source and the target. -/
def finish (s : DeltaHeaderProbe) : Except GitError (Nat × Nat) :=
  match s.sourceSize, s.targetSize with
  | some sourceSize, some targetSize => pure (sourceSize, targetSize)
  | _, _ => throw (corrupt "delta header is truncated")

end DeltaHeaderProbe

end Kompjutr.Pack
