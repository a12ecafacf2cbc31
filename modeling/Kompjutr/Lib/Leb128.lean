/-
  Kompjutr.Lib.Leb128

  Base-128 numbers, least significant digit first: every byte carries seven
  bits, and the high bit says that another byte follows.

  `foldlM_encode` is the rule for a decoder that reads byte by byte: it is
  enough to say what the decoder does on one digit, while the number read so
  far stays below a bound of the decoder's own.
-/
import Mathlib.Tactic.Ring
import Kompjutr.Lib.Run

namespace Kompjutr.Leb128

variable {n digit : Nat}

/-- A digit that is not the last one. -/
def more (digit : Nat) : UInt8 := UInt8.ofNat (digit ||| 0x80)

/-- The last digit. -/
def last (digit : Nat) : UInt8 := UInt8.ofNat digit

def encode (n : Nat) : List UInt8 :=
  if n < 128 then [last n] else more (n % 128) :: encode (n / 128)
  termination_by n
  decreasing_by omega

theorem encode_of_lt (h : n < 128) : encode n = [last n] := by
  rw [encode, if_pos h]

theorem encode_of_le (h : 128 ≤ n) : encode n = more (n % 128) :: encode (n / 128) := by
  rw [encode, if_neg (by omega)]

-- Digits

theorem or_0x80 (h : digit < 128) : digit ||| 0x80 = digit + 128 := by
  have hsum : 2 ^ 7 * 1 + digit = 2 ^ 7 * 1 ||| digit := Nat.two_pow_add_eq_or_of_lt h 1
  rw [Nat.or_comm, Nat.add_comm]
  exact hsum.symm

theorem toNat_more (h : digit < 128) : (more digit).toNat = digit + 128 := by
  rw [more, or_0x80 h, UInt8.toNat_ofNat']
  omega

theorem toNat_last (h : digit < 128) : (last digit).toNat = digit := by
  rw [last, UInt8.toNat_ofNat']
  omega

theorem toNat_low (byte : UInt8) : (byte &&& 0x7f).toNat = byte.toNat % 128 := by
  rw [UInt8.toNat_and]
  exact Nat.and_two_pow_sub_one_eq_mod byte.toNat 7

/-- The high bit is clear below 128. -/
theorem high_eq_zero {byte : UInt8} : byte &&& 0x80 = 0 ↔ byte.toNat < 128 := by
  have hall : ∀ n : Fin 256, UInt8.ofNat n &&& 0x80 = 0 ↔ n.val < 128 := by decide +kernel
  have h := hall ⟨byte.toNat, byte.toNat_lt⟩
  rwa [UInt8.ofNat_toNat] at h

theorem more_low (h : digit < 128) : (more digit &&& 0x7f).toNat = digit := by
  rw [toNat_low, toNat_more h]
  omega

theorem more_high (h : digit < 128) : more digit &&& 0x80 ≠ 0 := by
  rw [Ne, high_eq_zero, toNat_more h]
  omega

theorem last_low (h : digit < 128) : (last digit &&& 0x7f).toNat = digit := by
  rw [toNat_low, toNat_last h, Nat.mod_eq_of_lt h]

theorem last_high (h : digit < 128) : last digit &&& 0x80 = 0 := by
  rw [high_eq_zero, toNat_last h]
  exact h

-- Reading a number

theorem split_digit (n value i : Nat) :
    value + n % 128 * 128 ^ i + n / 128 * 128 ^ (i + 1) = value + n * 128 ^ i := by
  have h : n % 128 + 128 * (n / 128) = n := Nat.mod_add_div n 128
  calc value + n % 128 * 128 ^ i + n / 128 * 128 ^ (i + 1)
      = value + (n % 128 + 128 * (n / 128)) * 128 ^ i := by ring
    _ = value + n * 128 ^ i := by rw [h]

/-- One digit before the last leaves room for another. -/
theorem room_of_le {value i bound : Nat} (hn : 128 ≤ n) (h : value + n * 128 ^ i ≤ bound) :
    value + n % 128 * 128 ^ i + 128 ^ (i + 1) ≤ bound := by
  have hone : 1 * 128 ^ (i + 1) ≤ n / 128 * 128 ^ (i + 1) :=
    Nat.mul_le_mul_right _ (by omega)
  have := split_digit n value i
  omega

/-- A number of digits bounds the length. -/
theorem length_encode_le {k : Nat} (hk : 0 < k) (h : n < 128 ^ k) : (encode n).length ≤ k := by
  induction k generalizing n with
  | zero => exact absurd hk (by omega)
  | succ k ih =>
    by_cases hn : n < 128
    · rw [encode_of_lt hn]
      exact Nat.succ_le_succ (Nat.zero_le k)
    · rw [encode_of_le (by omega), List.length_cons]
      have hdiv : n / 128 < 128 ^ k := by
        rw [Nat.div_lt_iff_lt_mul (by omega), ← Nat.pow_succ]
        exact h
      have hpos : 0 < k := by
        rcases Nat.eq_zero_or_pos k with rfl | hpos
        · omega
        · exact hpos
      exact Nat.succ_le_succ (ih hpos hdiv)

/-- The rule of a decoder whose state at a digit is `reading value i`: the value so far, and the place
    of the digit.  `bound` is what the decoder can count to. -/
theorem foldlM_encode {σ ε : Type} {step : σ → UInt8 → Except ε σ} (reading : Nat → Nat → σ)
    (done : Nat → Except ε σ) {bound : Nat}
    (hmore : ∀ value i digit, digit < 128 → value + digit * 128 ^ i + 128 ^ (i + 1) ≤ bound →
      step (reading value i) (more digit) = .ok (reading (value + digit * 128 ^ i) (i + 1)))
    (hlast : ∀ value i digit, digit < 128 → 128 ^ i ≤ bound → value + digit * 128 ^ i ≤ bound →
      step (reading value i) (last digit) = done (value + digit * 128 ^ i))
    (n : Nat) {value i : Nat} (hi : 128 ^ i ≤ bound) (h : value + n * 128 ^ i ≤ bound) :
    (encode n).foldlM step (reading value i) = done (value + n * 128 ^ i) := by
  induction n using Nat.strongRecOn generalizing value i with
  | ind n ih =>
    by_cases hn : n < 128
    · rw [encode_of_lt hn, List.foldlM_cons, hlast value i n hn hi h]
      exact bind_pure _
    · have hroom := room_of_le (by omega) h
      rw [encode_of_le (by omega), List.foldlM_cons,
        hmore value i (n % 128) (Nat.mod_lt n (by omega)) hroom, Fuel.ok_bind,
        ih (n / 128) (by omega) (by omega) (by rw [split_digit]; exact h), split_digit]

end Kompjutr.Leb128
