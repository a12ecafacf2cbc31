/-
  Kompjutr.Pack.EntryHeader

  The sizes a pack is written with: `encodeTypeAndSize` of
  `store/pack/writer.ts` and `encodeDeltaHeader` of `store/pack/delta.ts`, and
  `PackReader.entryHeader` of `store/pack/ingest/ingest-reader.ts`, which reads
  the first of them back.  What reads the second is in `Pack.Delta`.

  A size from 2^53 on stands for the double nearest to it, as in `Pack.Delta`.
-/
import Kompjutr.Common.Bytes
import Kompjutr.Lib.Leb128
import Kompjutr.Objects.Commit
import Kompjutr.Pack.DeltaAgree

namespace Kompjutr.Pack

open Bytes Fuel Objects

-- Writing

/-- `TYPE_NUMBER`. -/
def typeNumber : ObjectType → Nat
  | .commit => 1
  | .tree => 2
  | .blob => 3
  | .tag => 4

/-- `NUMBER_TYPE`. -/
def numberType : Nat → Option ObjectType
  | 1 => some .commit
  | 2 => some .tree
  | 3 => some .blob
  | 4 => some .tag
  | _ => none

/-- The loop of `encodeTypeAndSize`, with the byte it has in hand. -/
def encodeRest (first rest : Nat) : List UInt8 :=
  if rest > 0 then UInt8.ofNat (first ||| 0x80) :: encodeRest (rest &&& 0x7f) (rest / 128)
  else [UInt8.ofNat first]
  termination_by rest
  decreasing_by omega

def encodeTypeAndSize (typeNumber size : Nat) : List UInt8 :=
  encodeRest (typeNumber <<< 4 ||| (size &&& 0x0f)) (size / 16)

/-- The inner loop of `encodeDeltaHeader`. -/
def encodeDeltaSize (value : Nat) : List UInt8 :=
  if value / 128 > 0 then
    UInt8.ofNat (value &&& 0x7f ||| 0x80) :: encodeDeltaSize (value / 128)
  else [UInt8.ofNat (value &&& 0x7f)]
  termination_by value
  decreasing_by omega

def encodeDeltaHeader (sourceSize targetSize : Nat) : List UInt8 :=
  [sourceSize, targetSize].flatMap encodeDeltaSize

-- Reading

inductive EntryKind where
  | ofs | ref
  deriving DecidableEq

structure EntryHeader where
  offset : Nat
  dataOff : Nat
  type : Nat
  entrySize : Nat
  kind : Option EntryKind
  baseDelta : Option Nat
  baseOid : Option (List UInt16)
  deriving DecidableEq

/-- `PackReader`; `readRaw` is the read of the stored pack it is given. -/
structure PackReader where
  readRaw : Nat → Nat → Except GitError (List UInt8)
  limit : Nat
  position : Nat

namespace PackReader

def byte (r : PackReader) : Except GitError (UInt8 × PackReader) := do
  if r.position ≥ r.limit then throw (corrupt "pack truncated")
  let bytes ← r.readRaw r.position 1
  -- nothing read counts as a zero in every operation on it
  return (bytes.headD 0, { r with position := r.position + 1 })

def take (r : PackReader) (length : Nat) : Except GitError (List UInt8 × PackReader) := do
  let bytes ← r.readRaw r.position length
  return (bytes, { r with position := r.position + length })

theorem byte_ok {r r' : PackReader} {value : UInt8} :
    r.byte = .ok (value, r') ↔ r.position < r.limit ∧
      (∃ bytes, r.readRaw r.position 1 = .ok bytes ∧ value = bytes.headD 0) ∧
      r' = { r with position := r.position + 1 } := by
  unfold byte
  by_cases hend : r.position ≥ r.limit
  · rw [if_pos hend]
    exact ⟨fun h => (by cases h), fun h => absurd h.1 (by omega)⟩
  · rw [if_neg hend]
    constructor
    · intro h
      obtain ⟨bytes, hread, h⟩ := bind_eq_ok.1 h
      cases h
      exact ⟨by omega, ⟨bytes, hread, rfl⟩, rfl⟩
    · rintro ⟨-, ⟨bytes, hread, rfl⟩, rfl⟩
      exact bind_eq_ok.2 ⟨bytes, hread, rfl⟩

theorem byte_room {r r' : PackReader} {value : UInt8} (h : r.byte = .ok (value, r')) :
    r'.limit - r'.position < r.limit - r.position := by
  obtain ⟨hroom, -, rfl⟩ := byte_ok.1 h
  dsimp only
  omega

/-- The loop over the bytes of the size, after `byte`. -/
def sizeLoop (r : PackReader) (byte : UInt8) (entrySize shift : Nat) :
    Except GitError (Nat × PackReader) :=
  if byte &&& 0x80 ≠ 0 then
    match _h : r.byte with
    | .error e => throw e
    | .ok (byte, r') =>
      sizeLoop r' byte (entrySize + (byte &&& 0x7f).toNat * 2 ^ shift) (shift + 7)
  else pure (entrySize, r)
  termination_by r.limit - r.position
  decreasing_by exact byte_room (by assumption)

/-- The loop over the bytes of the distance to the base, after `byte`. -/
def deltaLoop (r : PackReader) (byte : UInt8) (delta : Nat) : Except GitError (Nat × PackReader) :=
  if byte &&& 0x80 ≠ 0 then
    match _h : r.byte with
    | .error e => throw e
    | .ok (byte, r') => deltaLoop r' byte ((delta + 1) * 128 + (byte &&& 0x7f).toNat)
  else pure (delta, r)
  termination_by r.limit - r.position
  decreasing_by exact byte_room (by assumption)

def entryHeader (r : PackReader) : Except GitError (EntryHeader × PackReader) := do
  let offset := r.position
  let (byte, r) ← r.byte
  let type := byte.toNat >>> 4 &&& 7
  let (entrySize, r) ← r.sizeLoop byte (byte &&& 15).toNat 4
  if type = 6 then
    let (byte, r) ← r.byte
    let (delta, r) ← r.deltaLoop byte (byte &&& 0x7f).toNat
    return ({ offset, dataOff := r.position, type, entrySize, kind := some .ofs
              baseDelta := some delta, baseOid := none }, r)
  else if type = 7 then
    let (base, r) ← r.take 20
    return ({ offset, dataOff := r.position, type, entrySize, kind := some .ref
              baseDelta := none, baseOid := some (toHex base) }, r)
  else
    if numberType type = none then throw (corrupt s!"bad object type {type} at {offset}")
    return ({ offset, dataOff := r.position, type, entrySize, kind := none
              baseDelta := none, baseOid := none }, r)

end PackReader

end Kompjutr.Pack
