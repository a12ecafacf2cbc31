/-
  Kompjutr.Lib.Utf8Encode

  The UTF-8 encoder of the Encoding Standard, from UTF-16 code units: an unpaired
  surrogate is encoded as U+FFFD.

  Decoding what was encoded gives the text with its unpaired surrogates replaced
  (`decode_encode`), which is the text itself when there is none.  A unit that is
  no surrogate cuts a text into parts that are read on their own.
-/
import Kompjutr.Lib.Utf8

namespace Kompjutr.Utf8

open List (cons_append flatMap_cons length_cons mem_cons mem_cons_of_mem mem_cons_self nil_append
  singleton_append)

variable {t : List UInt16} {n : Nat}

variable {u : UInt16} {point byte : Nat}

def isHigh (u : UInt16) : Bool := 0xd800 ≤ u && u ≤ 0xdbff

def isLow (u : UInt16) : Bool := 0xdc00 ≤ u && u ≤ 0xdfff

/-- The code points of a text. -/
def points : List UInt16 → List Nat
  | [] => []
  | [u] => if isHigh u || isLow u then [0xfffd] else [u.toNat]
  | u :: v :: rest =>
    if isHigh u && isLow v then
      (0x10000 + (u.toNat - 0xd800) * 0x400 + (v.toNat - 0xdc00)) :: points rest
    else if isHigh u || isLow u then 0xfffd :: points (v :: rest)
    else u.toNat :: points (v :: rest)

/-- The bytes of a code point. -/
def encodePoint (point : Nat) : List UInt8 :=
  if point < 0x80 then [point.toUInt8]
  else if point < 0x800 then [(0xc0 + point / 0x40).toUInt8, (0x80 + point % 0x40).toUInt8]
  else if point < 0x10000 then
    [(0xe0 + point / 0x1000).toUInt8, (0x80 + point / 0x40 % 0x40).toUInt8,
      (0x80 + point % 0x40).toUInt8]
  else
    [(0xf0 + point / 0x40000).toUInt8, (0x80 + point / 0x1000 % 0x40).toUInt8,
      (0x80 + point / 0x40 % 0x40).toUInt8, (0x80 + point % 0x40).toUInt8]

/-- `TextEncoder.encode`. -/
def encode (t : List UInt16) : List UInt8 := (points t).flatMap encodePoint

/-- `String.prototype.toWellFormed`. -/
def toWellFormed (t : List UInt16) : List UInt16 := (points t).flatMap unitsOf

/-- `String.prototype.isWellFormed`. -/
def WellFormed (t : List UInt16) : Prop := toWellFormed t = t

instance (t : List UInt16) : Decidable (WellFormed t) := inferInstanceAs (Decidable (_ = _))

-- Code points

/-- A code point that is no surrogate. -/
def Scalar (point : Nat) : Prop := point < 0xd800 ∨ (0xe000 ≤ point ∧ point < 0x110000)

theorem isHigh_iff : isHigh u = true ↔ 0xd800 ≤ u.toNat ∧ u.toNat ≤ 0xdbff := by
  simp [isHigh, UInt16.le_iff_toNat_le]

theorem isLow_iff : isLow u = true ↔ 0xdc00 ≤ u.toNat ∧ u.toNat ≤ 0xdfff := by
  simp [isLow, UInt16.le_iff_toNat_le]

theorem scalar_of_not_surrogate (h : ¬ (isHigh u || isLow u) = true) : Scalar u.toNat := by
  rw [Bool.or_eq_true, isHigh_iff, isLow_iff] at h
  have := u.toNat_lt
  unfold Scalar
  omega

theorem scalar_of_mem_points (h : point ∈ points t) : Scalar point := by
  fun_induction points t with
  | case1 => cases h
  | case2 u hsurrogate =>
    rw [List.mem_singleton.1 h]
    exact .inr (by omega)
  | case3 u hplain =>
    rw [List.mem_singleton.1 h]
    exact scalar_of_not_surrogate hplain
  | case4 u v rest hpair ih =>
    rcases mem_cons.1 h with heq | h
    · rw [Bool.and_eq_true, isHigh_iff, isLow_iff] at hpair
      exact .inr (by omega)
    · exact ih h
  | case5 u v rest _ hsurrogate ih =>
    rcases mem_cons.1 h with rfl | h
    · exact .inr (by omega)
    · exact ih h
  | case6 u v rest _ hplain ih =>
    rcases mem_cons.1 h with rfl | h
    · exact scalar_of_not_surrogate hplain
    · exact ih h

-- Decoding what was encoded

theorem toNat_toUInt8 (h : n < 0x100) : n.toUInt8.toNat = n := by
  rw [Nat.toUInt8_eq, UInt8.toNat_ofNat', Nat.mod_eq_of_lt h]

theorem toUInt8_ascii (h : n < 0x80) : n.toUInt8 < 0x80 ∧ n.toUInt8.toUInt16 = n.toUInt16 := by
  rw [UInt8.lt_iff_toNat_lt, ← UInt16.toNat_inj, UInt8.toNat_toUInt16, toNat_toUInt8 (by omega),
    Nat.toUInt16_eq, UInt16.toNat_ofNat', Nat.mod_eq_of_lt (by omega)]
  exact ⟨h, rfl⟩

/-- A byte that continues a sequence. -/
theorem step_continue {needed lower upper : Nat} (hneeded : needed ≠ 0)
    (hlower : lower ≤ byte) (hupper : byte ≤ upper) (hbyte : byte < 0x100) :
    step ⟨needed, lower, upper, point⟩ byte.toUInt8 =
      if needed = 1 then (unitsOf (point * 0x40 + byte % 0x40), start)
      else ([], ⟨needed - 1, 0x80, 0xbf, point * 0x40 + byte % 0x40⟩) := by
  unfold step
  rw [toNat_toUInt8 hbyte, if_neg hneeded, if_neg (by dsimp only; omega)]

theorem step_start (b : UInt8) : step start b = first b := if_pos rfl

theorem first_two (h : 0xc2 ≤ byte ∧ byte ≤ 0xdf) :
    step start byte.toUInt8 = ([], ⟨1, 0x80, 0xbf, byte % 0x20⟩) := by
  have hbyte := toNat_toUInt8 (show byte < 0x100 by omega)
  rw [step_start, first]
  simp only [UInt8.lt_iff_toNat_lt, UInt8.le_iff_toNat_le, UInt8.reduceToNat, hbyte]
  rw [if_neg (by omega), if_pos h]

theorem first_three (h : 0xe0 ≤ byte ∧ byte ≤ 0xef) : step start byte.toUInt8 =
      ([], ⟨2, if byte = 0xe0 then 0xa0 else 0x80, if byte = 0xed then 0x9f else 0xbf,
        byte % 0x10⟩) := by
  have hbyte := toNat_toUInt8 (show byte < 0x100 by omega)
  rw [step_start, first]
  simp only [UInt8.lt_iff_toNat_lt, UInt8.le_iff_toNat_le, ← UInt8.toNat_inj, UInt8.reduceToNat,
    hbyte]
  rw [if_neg (by omega), if_neg (by omega), if_pos h]

theorem first_four (h : 0xf0 ≤ byte ∧ byte ≤ 0xf4) : step start byte.toUInt8 =
      ([], ⟨3, if byte = 0xf0 then 0x90 else 0x80, if byte = 0xf4 then 0x8f else 0xbf,
        byte % 0x08⟩) := by
  have hbyte := toNat_toUInt8 (show byte < 0x100 by omega)
  rw [step_start, first]
  simp only [UInt8.lt_iff_toNat_lt, UInt8.le_iff_toNat_le, ← UInt8.toNat_inj, UInt8.reduceToNat,
    hbyte]
  rw [if_neg (by omega), if_neg (by omega), if_neg (by omega), if_pos h]

theorem decodeFrom_encodePoint (h : Scalar point) (rest : List UInt8) :
    decodeFrom start (encodePoint point ++ rest) = unitsOf point ++ decodeFrom start rest := by
  unfold Scalar at h
  unfold encodePoint
  split_ifs with h1 h2 h3
  · -- one byte
    obtain ⟨hlt, hunit⟩ := toUInt8_ascii h1
    rw [singleton_append, decodeFrom, step_ascii start_ok hlt, unitsOf, if_pos (by omega), hunit]
    rfl
  · -- two bytes
    simp only [cons_append, nil_append, decodeFrom]
    rw [first_two (by omega)]
    dsimp only
    rw [step_continue (by omega) (by omega) (by omega) (by omega), if_pos rfl,
      show (0xc0 + point / 0x40) % 0x20 * 0x40 + (0x80 + point % 0x40) % 0x40 = point by omega]
    rfl
  · -- three bytes
    simp only [cons_append, nil_append, decodeFrom]
    rw [first_three (by omega)]
    dsimp only
    rw [step_continue (by omega) (by split_ifs <;> omega) (by split_ifs <;> omega) (by omega),
      if_neg (by omega)]
    dsimp only
    rw [step_continue (by omega) (by omega) (by omega) (by omega), if_pos rfl,
      show ((0xe0 + point / 0x1000) % 0x10 * 0x40 + (0x80 + point / 0x40 % 0x40) % 0x40) * 0x40 +
        (0x80 + point % 0x40) % 0x40 = point by omega]
    rfl
  · -- four bytes
    simp only [cons_append, nil_append, decodeFrom]
    rw [first_four (by omega)]
    dsimp only
    rw [step_continue (by omega) (by split_ifs <;> omega) (by split_ifs <;> omega) (by omega),
      if_neg (by omega)]
    dsimp only
    rw [step_continue (by omega) (by omega) (by omega) (by omega), if_neg (by omega)]
    dsimp only
    rw [step_continue (by omega) (by omega) (by omega) (by omega), if_pos rfl,
      show (((0xf0 + point / 0x40000) % 0x08 * 0x40 + (0x80 + point / 0x1000 % 0x40) % 0x40) * 0x40 +
        (0x80 + point / 0x40 % 0x40) % 0x40) * 0x40 + (0x80 + point % 0x40) % 0x40 = point by omega]
    rfl

/-- Decoding gives the text back with its unpaired surrogates replaced. -/
theorem decode_encode (t : List UInt16) : decode (encode t) = toWellFormed t := by
  have hall : ∀ list : List Nat, (∀ point ∈ list, Scalar point) →
      decode (list.flatMap encodePoint) = list.flatMap unitsOf := by
    intro list hlist
    induction list with
    | nil => rfl
    | cons point list ih =>
      rw [flatMap_cons, flatMap_cons, decode,
        decodeFrom_encodePoint (hlist point mem_cons_self), ← decode,
        ih fun p hp => hlist p (mem_cons_of_mem _ hp)]
  exact hall _ fun point h => scalar_of_mem_points h

-- Cutting

theorem points_cut (left right : List UInt16) (hu : ¬ (isHigh u || isLow u) = true) :
    points (left ++ u :: right) = points left ++ u.toNat :: points right := by
  have hcons : ∀ rest, points (u :: rest) = u.toNat :: points rest := by
    intro rest
    have hhigh : ¬ isHigh u = true := fun h => hu (by rw [h]; rfl)
    cases rest with
    | nil => exact if_neg hu
    | cons v rest => rw [points, if_neg (by simp [hhigh]), if_neg hu]
  fun_induction points left with
  | case1 => exact hcons right
  | case2 v hsurrogate =>
    have hlow : ¬ isLow u = true := fun h => hu (by rw [h, Bool.or_true])
    rw [singleton_append, points, if_neg (by simp [hlow]), if_pos hsurrogate, hcons]
    rfl
  | case3 v hplain =>
    have hhigh : ¬ isHigh v = true := fun h => hplain (by rw [h]; rfl)
    rw [singleton_append, points, if_neg (by simp [hhigh]), if_neg hplain, hcons]
    rfl
  | case4 v w rest hpair ih =>
    rw [cons_append, cons_append, points, if_pos hpair, ih]
    rfl
  | case5 v w rest hpair hsurrogate ih =>
    rw [cons_append, cons_append, points, if_neg hpair, if_pos hsurrogate,
      ← cons_append, ih]
    rfl
  | case6 v w rest hpair hplain ih =>
    rw [cons_append, cons_append, points, if_neg hpair, if_neg hplain,
      ← cons_append, ih]
    rfl

theorem unitsOf_toNat (u : UInt16) : unitsOf u.toNat = [u] := by
  have := u.toNat_lt
  rw [unitsOf, if_pos (by omega), Nat.toUInt16_eq, UInt16.ofNat_toNat]

/-- A unit that is no surrogate is left as it is, and the sides are read on their own. -/
theorem toWellFormed_cut (left right : List UInt16) (hu : ¬ (isHigh u || isLow u) = true) :
    toWellFormed (left ++ u :: right) = toWellFormed left ++ u :: toWellFormed right := by
  rw [toWellFormed, points_cut left right hu, List.flatMap_append, flatMap_cons, unitsOf_toNat]
  rfl

theorem length_unitsOf_pair (h : 0x10000 ≤ point) : (unitsOf point).length = 2 := by
  rw [unitsOf, if_neg (by omega)]
  rfl

theorem length_toWellFormed (t : List UInt16) : (toWellFormed t).length = t.length := by
  unfold toWellFormed
  fun_induction points t with
  | case1 => rfl
  | case2 u _ => rfl
  | case3 u _ => rw [List.flatMap_singleton, unitsOf_toNat]
  | case4 u v rest _ ih =>
    rw [flatMap_cons, List.length_append, length_unitsOf_pair (by omega), ih, length_cons,
      length_cons]
    omega
  | case5 u v rest _ _ ih =>
    rw [flatMap_cons, List.length_append, ih, length_cons, length_cons]
    exact Nat.add_comm _ _
  | case6 u v rest _ _ ih =>
    rw [flatMap_cons, List.length_append, unitsOf_toNat, ih, length_cons, length_cons]
    exact Nat.add_comm _ _

@[simp] theorem wellFormed_nil : WellFormed [] := rfl

/-- A cut text is well-formed when its sides are. -/
theorem wellFormed_cut (left right : List UInt16) (hu : ¬ (isHigh u || isLow u) = true) :
    WellFormed (left ++ u :: right) ↔ WellFormed left ∧ WellFormed right := by
  unfold WellFormed
  rw [toWellFormed_cut left right hu]
  constructor
  · intro h
    obtain ⟨hleft, hright⟩ := List.append_inj h (length_toWellFormed left)
    exact ⟨hleft, (List.cons.inj hright).2⟩
  · rintro ⟨hleft, hright⟩
    rw [hleft, hright]

/-- A text without surrogates. -/
theorem wellFormed_of_plain (h : ∀ u ∈ t, ¬ (isHigh u || isLow u) = true) : WellFormed t := by
  induction t with
  | nil => rfl
  | cons u t ih =>
    exact (wellFormed_cut [] t (h u mem_cons_self)).2
      ⟨rfl, ih fun v hv => h v (mem_cons_of_mem _ hv)⟩

theorem toNat_toUInt16 (h : n < 0x10000) : n.toUInt16.toNat = n := by
  rw [Nat.toUInt16_eq, UInt16.toNat_ofNat', Nat.mod_eq_of_lt h]

theorem points_unitsOf (h : Scalar point) (rest : List UInt16) :
    points (unitsOf point ++ rest) = point :: points rest := by
  unfold Scalar at h
  unfold unitsOf
  split_ifs with hsmall
  · have hplain : ¬ (isHigh point.toUInt16 || isLow point.toUInt16) = true := by
      rw [Bool.or_eq_true, isHigh_iff, isLow_iff, toNat_toUInt16 hsmall]
      omega
    have hcut := points_cut [] rest hplain
    rw [nil_append, toNat_toUInt16 hsmall] at hcut
    exact hcut
  · have hhigh := toNat_toUInt16 (show 0xd800 + (point - 0x10000) / 0x400 < 0x10000 by omega)
    have hlow := toNat_toUInt16 (show 0xdc00 + (point - 0x10000) % 0x400 < 0x10000 by omega)
    have hpoint : 0x10000 + (0xd800 + (point - 0x10000) / 0x400 - 0xd800) * 0x400 +
        (0xdc00 + (point - 0x10000) % 0x400 - 0xdc00) = point := by omega
    rw [cons_append, singleton_append, points, if_pos, hhigh, hlow, hpoint]
    · rw [Bool.and_eq_true, isHigh_iff, isLow_iff, hhigh, hlow]
      omega

/-- What replaces the unpaired surrogates is well-formed. -/
theorem wellFormed_toWellFormed (t : List UInt16) : WellFormed (toWellFormed t) := by
  have hall : ∀ list : List Nat, (∀ point ∈ list, Scalar point) →
      points (list.flatMap unitsOf) = list := by
    intro list hlist
    induction list with
    | nil => rfl
    | cons point list ih =>
      rw [flatMap_cons, points_unitsOf (hlist point mem_cons_self),
        ih fun p hp => hlist p (mem_cons_of_mem _ hp)]
  unfold WellFormed
  rw [toWellFormed, toWellFormed, hall _ fun point h => scalar_of_mem_points h]

theorem toWellFormed_append {left : List UInt16} (h : ∀ u ∈ left, ¬ (isHigh u || isLow u) = true)
    (right : List UInt16) : toWellFormed (left ++ right) = left ++ toWellFormed right := by
  induction left with
  | nil => rfl
  | cons u left ih =>
    have hcut := toWellFormed_cut [] (left ++ right) (h u mem_cons_self)
    rw [nil_append] at hcut
    rw [cons_append, hcut, ih fun v hv => h v (mem_cons_of_mem _ hv)]
    rfl

/-- A pair of surrogates is one code point, read before the rest. -/
theorem wellFormed_pair {v : UInt16} (hu : isHigh u = true) (hv : isLow v = true)
    (rest : List UInt16) : WellFormed (u :: v :: rest) ↔ WellFormed rest := by
  have hhigh := isHigh_iff.1 hu
  have hlow := isLow_iff.1 hv
  have hunits : unitsOf (0x10000 + (u.toNat - 0xd800) * 0x400 + (v.toNat - 0xdc00)) = [u, v] := by
    have hfirst : 0xd800 + (0x10000 + (u.toNat - 0xd800) * 0x400 + (v.toNat - 0xdc00) - 0x10000) /
        0x400 = u.toNat := by omega
    have hsecond : 0xdc00 + (0x10000 + (u.toNat - 0xd800) * 0x400 + (v.toNat - 0xdc00) - 0x10000) %
        0x400 = v.toNat := by omega
    rw [unitsOf, if_neg (by omega), hfirst, hsecond, Nat.toUInt16_eq, Nat.toUInt16_eq,
      UInt16.ofNat_toNat, UInt16.ofNat_toNat]
  unfold WellFormed toWellFormed
  rw [points, if_pos (by rw [hu, hv]; rfl), flatMap_cons, hunits]
  exact ⟨fun h => (List.cons.inj (List.cons.inj h).2).2, fun h => congrArg (u :: v :: ·) h⟩

/-- An unpaired high surrogate at the end is replaced. -/
theorem not_wellFormed_high (hu : isHigh u = true) : ¬ WellFormed [u] := by
  intro h
  unfold WellFormed toWellFormed at h
  rw [points, if_pos (by rw [hu]; rfl)] at h
  have hunit := congrArg UInt16.toNat (List.cons.inj h).1
  rw [toNat_toUInt16 (by decide)] at hunit
  have := isHigh_iff.1 hu
  omega

end Kompjutr.Utf8
