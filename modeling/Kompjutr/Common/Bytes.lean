/-
  Kompjutr.Common.Bytes

  The spelling of octets in hexadecimal digits (`common/bytes.ts`).
-/
import Kompjutr.Common.Base
import Mathlib.Data.List.Basic

namespace Kompjutr.Bytes

/-- A `Uint8Array`: the language counts its elements exactly. -/
structure Uint8Array where
  bytes : List UInt8
  length_safe : isSafeInteger bytes.length = true

/-- The unit of a digit: `0` to `9`, then `a` to `f`. -/
def hexUnit (digit : Nat) : UInt16 :=
  UInt16.ofNat (if digit < 10 then 0x30 + digit else 0x57 + digit)

/-- `HEX[byte]`: `byte.toString(16).padStart(2, "0")`. -/
def hexByte (byte : UInt8) : List UInt16 :=
  [hexUnit (byte.toNat / 16), hexUnit (byte.toNat % 16)]

def toHex (bytes : List UInt8) : List UInt16 := bytes.flatMap hexByte

theorem toHex_cons (byte : UInt8) (bytes : List UInt8) :
    toHex (byte :: bytes) =
      hexUnit (byte.toNat / 16) :: hexUnit (byte.toNat % 16) :: toHex bytes := rfl

theorem toNat_hexUnit {digit : Nat} (h : digit < 16) :
    (hexUnit digit).toNat = if digit < 10 then 0x30 + digit else 0x57 + digit := by
  unfold hexUnit
  rw [UInt16.toNat_ofNat']
  split <;> omega

theorem hexUnit_inj {a b : Nat} (ha : a < 16) (hb : b < 16) (h : hexUnit a = hexUnit b) :
    a = b := by
  have hsame := congrArg UInt16.toNat h
  rw [toNat_hexUnit ha, toNat_hexUnit hb] at hsame
  split at hsame <;> split at hsame <;> omega

/-- Different octets are spelled differently. -/
theorem toHex_inj {left right : List UInt8} (h : toHex left = toHex right) : left = right := by
  induction left generalizing right with
  | nil =>
    cases right with
    | nil => rfl
    | cons byte right => cases h
  | cons byte left ih =>
    cases right with
    | nil => cases h
    | cons other right =>
      rw [toHex_cons, toHex_cons] at h
      obtain ⟨hhigh, h⟩ := List.cons.inj h
      obtain ⟨hlow, h⟩ := List.cons.inj h
      have hbyte := byte.toNat_lt
      have hother := other.toNat_lt
      have hdiv := hexUnit_inj (by omega) (by omega) hhigh
      have hmod := hexUnit_inj (by omega) (by omega) hlow
      rw [ih h, UInt8.toNat_inj.1 (show byte.toNat = other.toNat by omega)]

end Kompjutr.Bytes
