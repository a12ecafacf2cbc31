/-
  Kompjutr.Common.Streams

  `comparePaths` of `common/streams.ts`: the order of the index, of a tree and of the working
  tree, compared unit by unit.

  Both indices move together, by one unit or by the two units of a pair, so a difference in the
  middle of a pair is looked at from the pair's first unit.
-/
import Kompjutr.Lib.Utf8Order
import Kompjutr.Objects.HeaderLines

namespace Kompjutr.Streams

open Objects (Text)
open Utf8 (isHigh isLow points encode octets)
open List (drop_zero)

variable {rest left right : Text}

variable {u : UInt16}

/-- Unpaired surrogates encode to U+FFFD, which is what `TextEncoder` writes. -/
def replacement : Nat := 0xfffd

/-- The code point at a unit and the units behind it, an unpaired surrogate folded to U+FFFD. -/
def pointAt (unit : UInt16) (rest : Text) : Nat :=
  if unit &&& 0xf800 ≠ 0xd800 then unit.toNat
  else if unit &&& 0xfc00 = 0xd800 then
    match rest with
    | low :: _ =>
      if low &&& 0xfc00 = 0xdc00 then
        0x10000 + (unit.toNat - 0xd800) * 0x400 + (low.toNat - 0xdc00)
      else replacement
    | [] => replacement
  else replacement

/-- The loop of `comparePaths`, with the number of units both sides still skip. -/
def comparePathsFrom : Nat → Text → Text → Int
  | _, [], [] => 0
  | _, [], _ :: _ => -1
  | _, _ :: _, [] => 1
  | skip + 1, _ :: left, _ :: right => comparePathsFrom skip left right
  | 0, leftUnit :: left, rightUnit :: right =>
    if leftUnit = rightUnit ∧ leftUnit &&& 0xf800 ≠ 0xd800 then comparePathsFrom 0 left right
    else
      let leftPoint := pointAt leftUnit left
      let rightPoint := pointAt rightUnit right
      if leftPoint ≠ rightPoint then if leftPoint < rightPoint then -1 else 1
      else comparePathsFrom (if 0x10000 ≤ leftPoint then 1 else 0) left right

def comparePaths (left right : Text) : Int := comparePathsFrom 0 left right

/-- The comparison of SQLite's BINARY collation: `memcmp`, and then the lengths. -/
def memcmp : List UInt8 → List UInt8 → Int
  | [], [] => 0
  | [], _ :: _ => -1
  | _ :: _, [] => 1
  | x :: xs, y :: ys => if x < y then -1 else if y < x then 1 else memcmp xs ys

-- Surrogates by their masks

/-- A mask of `k` bits from bit `j` on. -/
theorem and_mask (n k j : Nat) : n &&& (2 ^ k - 1) * 2 ^ j = n / 2 ^ j % 2 ^ k * 2 ^ j := by
  refine Nat.eq_of_testBit_eq fun i => ?_
  rw [Nat.testBit_and, Nat.testBit_mul_two_pow, Nat.testBit_mul_two_pow, Nat.testBit_mod_two_pow,
    Nat.testBit_two_pow_sub_one, Nat.testBit_div_two_pow]
  by_cases hj : j ≤ i
  · simp [hj, show i - j + j = i by omega, Bool.and_comm]
  · simp [hj]

theorem surrogate_mask (u : UInt16) : u &&& 0xf800 = 0xd800 ↔ (isHigh u || isLow u) = true := by
  have hmask := and_mask u.toNat 5 11
  have hlt := u.toNat_lt
  rw [← UInt16.toNat_inj, UInt16.toNat_and, Bool.or_eq_true, Utf8.isHigh_iff, Utf8.isLow_iff]
  simp only [UInt16.reduceToNat, Nat.reducePow, Nat.reduceSub, Nat.reduceMul] at hmask ⊢
  omega

theorem high_mask (u : UInt16) : u &&& 0xfc00 = 0xd800 ↔ isHigh u = true := by
  have hmask := and_mask u.toNat 6 10
  have hlt := u.toNat_lt
  rw [← UInt16.toNat_inj, UInt16.toNat_and, Utf8.isHigh_iff]
  simp only [UInt16.reduceToNat, Nat.reducePow, Nat.reduceSub, Nat.reduceMul] at hmask ⊢
  omega

theorem low_mask (u : UInt16) : u &&& 0xfc00 = 0xdc00 ↔ isLow u = true := by
  have hmask := and_mask u.toNat 6 10
  have hlt := u.toNat_lt
  rw [← UInt16.toNat_inj, UInt16.toNat_and, Utf8.isLow_iff]
  simp only [UInt16.reduceToNat, Nat.reducePow, Nat.reduceSub, Nat.reduceMul] at hmask ⊢
  omega

theorem pointAt_plain (h : u &&& 0xf800 ≠ 0xd800) (rest : Text) :
    pointAt u rest = u.toNat := if_pos h

theorem pointAt_pair {v : UInt16} (hu : isHigh u = true) (hv : isLow v = true) (rest : Text) :
    pointAt u (v :: rest) = 0x10000 + (u.toNat - 0xd800) * 0x400 + (v.toNat - 0xdc00) := by
  have hsurrogate : u &&& 0xf800 = 0xd800 := (surrogate_mask u).2 (by rw [hu]; rfl)
  unfold pointAt
  rw [if_neg (not_not.2 hsurrogate), if_pos ((high_mask u).2 hu)]
  exact if_pos ((low_mask v).2 hv)

theorem pointAt_unpaired (hu : (isHigh u || isLow u) = true)
    (hrest : ∀ v ∈ rest.head?, (isHigh u && isLow v) = false) : pointAt u rest = 0xfffd := by
  unfold pointAt
  rw [if_neg (not_not.2 ((surrogate_mask u).2 hu))]
  split
  · next hhigh =>
    cases rest with
    | nil => rfl
    | cons v rest =>
      have hnot := hrest v rfl
      rw [(high_mask u).1 hhigh, Bool.true_and] at hnot
      exact if_neg fun hlow => Bool.false_ne_true (hnot.symm.trans ((low_mask v).1 hlow))
  · rfl

/-- A code point of two units has a second one. -/
theorem length_of_pair (h : 0x10000 ≤ pointAt u rest) : 1 ≤ rest.length := by
  cases rest with
  | cons v rest => exact Nat.le_add_left 1 _
  | nil =>
    have hlt := u.toNat_lt
    by_cases hsurrogate : (isHigh u || isLow u) = true
    · rw [pointAt_unpaired hsurrogate (by simp)] at h
      omega
    · rw [pointAt_plain (mt (surrogate_mask u).1 hsurrogate)] at h
      omega

/-- The code points of a text, from its first unit on. -/
theorem points_cons (u : UInt16) (rest : Text) :
    points (u :: rest) =
      pointAt u rest :: points (rest.drop (if 0x10000 ≤ pointAt u rest then 1 else 0)) := by
  have hlt := u.toNat_lt
  by_cases hsurrogate : (isHigh u || isLow u) = true
  · cases rest with
    | nil =>
      rw [pointAt_unpaired hsurrogate (by simp), points, if_pos hsurrogate]
      rfl
    | cons v rest =>
      by_cases hpair : (isHigh u && isLow v) = true
      · obtain ⟨hu, hv⟩ := Bool.and_eq_true_iff.1 hpair
        rw [pointAt_pair hu hv, points, if_pos hpair, if_pos (by omega)]
        rfl
      · have hpoint : pointAt u (v :: rest) = 0xfffd := by
          refine pointAt_unpaired hsurrogate ?_
          rintro _ ⟨⟩
          exact Bool.eq_false_iff.2 hpair
        rw [hpoint, points, if_neg hpair, if_pos hsurrogate]
        rfl
  · rw [pointAt_plain (mt (surrogate_mask u).1 hsurrogate), if_neg (by omega), drop_zero]
    exact Utf8.points_cut [] rest hsurrogate

-- The order

/-- The three-way comparison of an order, lexicographically. -/
def threeWay (left right : List Nat) : Int :=
  if left < right then -1 else if right < left then 1 else 0

theorem threeWay_cons (x y : Nat) (left right : List Nat) : threeWay (x :: left) (y :: right) =
    if x < y then -1 else if y < x then 1 else threeWay left right := by
  unfold threeWay
  simp only [List.cons_lt_cons_iff]
  rcases Nat.lt_trichotomy x y with hlt | rfl | hgt
  · simp [hlt]
  · simp
  · simp [hgt, Nat.lt_asymm hgt, Nat.ne_of_gt hgt]

theorem memcmp_eq (left right : List UInt8) :
    memcmp left right = threeWay (left.map UInt8.toNat) (right.map UInt8.toNat) := by
  induction left generalizing right with
  | nil => cases right <;> simp [memcmp, threeWay]
  | cons x left ih =>
    cases right with
    | nil => simp [memcmp, threeWay]
    | cons y right =>
      rw [List.map_cons, List.map_cons, threeWay_cons, memcmp, ih right]
      simp only [UInt8.lt_iff_toNat_lt]

/-- The comparison compares the code points, after both sides skipped the same units. -/
theorem comparePathsFrom_eq (skip : Nat) (left right : Text) (hleft : skip ≤ left.length)
    (hright : skip ≤ right.length) : comparePathsFrom skip left right =
      threeWay (points (left.drop skip)) (points (right.drop skip)) := by
  fun_induction comparePathsFrom skip left right with
  | case1 skip => simp [threeWay, points]
  | case2 skip v right =>
    obtain rfl : skip = 0 := Nat.le_zero.1 hleft
    rw [drop_zero, drop_zero, points_cons]
    simp [threeWay, points]
  | case3 skip u left =>
    obtain rfl : skip = 0 := Nat.le_zero.1 hright
    rw [drop_zero, drop_zero, points_cons]
    simp [threeWay, points]
  | case4 skip u left v right ih =>
    exact ih (Nat.le_of_succ_le_succ hleft) (Nat.le_of_succ_le_succ hright)
  | case5 u left v right hsame ih =>
    obtain ⟨rfl, hplain⟩ := hsame
    have hlt := u.toNat_lt
    rw [ih (Nat.zero_le _) (Nat.zero_le _), drop_zero, drop_zero, drop_zero,
      drop_zero, points_cons, points_cons, pointAt_plain hplain, pointAt_plain hplain,
      if_neg (by omega), threeWay_cons]
    simp
  | case6 u left v right _ leftPoint rightPoint hne hlt =>
    rw [drop_zero, drop_zero, points_cons, points_cons, threeWay_cons, if_pos hlt]
  | case7 u left v right _ leftPoint rightPoint hne hnlt =>
    have hgt : rightPoint < leftPoint := by omega
    rw [drop_zero, drop_zero, points_cons, points_cons, threeWay_cons, if_neg hnlt,
      if_pos hgt]
  | case8 u left v right _ leftPoint rightPoint heq ih =>
    -- Equal code points span equally many units, so one width covers both.
    have hpoint : pointAt u left = pointAt v right := not_not.1 heq
    have hsecond : (if 0x10000 ≤ pointAt u left then 1 else 0) ≤ left.length := by
      split
      · next hwide => exact length_of_pair hwide
      · exact Nat.zero_le _
    have hsecond' : (if 0x10000 ≤ pointAt u left then 1 else 0) ≤ right.length := by
      split
      · next hwide => exact length_of_pair (hpoint ▸ hwide)
      · exact Nat.zero_le _
    rw [ih hsecond hsecond', drop_zero, drop_zero, points_cons, points_cons v, ← hpoint,
      threeWay_cons, if_neg (Nat.lt_irrefl _), if_neg (Nat.lt_irrefl _)]

theorem comparePaths_eq (left right : Text) :
    comparePaths left right = threeWay (points left) (points right) :=
  comparePathsFrom_eq 0 left right (Nat.zero_le _) (Nat.zero_le _)

theorem threeWay_octets (left right : Text) :
    threeWay (octets left) (octets right) = threeWay (points left) (points right) := by
  unfold threeWay
  simp only [Utf8.octets_lt_iff]

theorem comparePaths_lt : comparePaths left right < 0 ↔ octets left < octets right := by
  rw [comparePaths_eq, ← threeWay_octets]
  unfold threeWay
  split_ifs with hlt hgt <;> simp [hlt]

theorem comparePaths_le : comparePaths left right ≤ 0 ↔ octets left ≤ octets right := by
  rw [comparePaths_eq, ← threeWay_octets]
  unfold threeWay
  split_ifs with hlt hgt
  · simp [le_of_lt hlt]
  · simp [not_le.2 hgt]
  · simp [not_lt.1 hgt]

theorem comparePaths_memcmp : comparePaths left right = memcmp (encode left) (encode right) := by
  rw [memcmp_eq, comparePaths_eq, ← threeWay_octets]
  rfl

/-- `comparePaths` answers what the comparison of the UTF-8 encodings does, so it is a total
    preorder. -/
theorem comparePaths_order :
    (∀ left right, comparePaths left right = memcmp (encode left) (encode right)) ∧
      (∀ left right, comparePaths left right ≤ 0 ∨ comparePaths right left ≤ 0) ∧
      ∀ left middle right, comparePaths left middle ≤ 0 → comparePaths middle right ≤ 0 →
        comparePaths left right ≤ 0 := by
  refine ⟨fun _ _ => comparePaths_memcmp, fun left right => ?_, fun left middle right => ?_⟩
  · rw [comparePaths_le, comparePaths_le]
    exact le_total _ _
  · rw [comparePaths_le, comparePaths_le, comparePaths_le]
    exact le_trans

end Kompjutr.Streams
