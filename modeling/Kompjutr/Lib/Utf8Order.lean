/-
  Kompjutr.Lib.Utf8Order

  The byte order of UTF-8 is the order of code points.

  Two code points have encodings that part at a byte, neither running out before it.  A code of
  that kind keeps the lexicographic order when it is spelled out letter by letter
  (`flatMap_lt_iff`).
-/
import Kompjutr.Lib.LexRange
import Kompjutr.Lib.Utf8Encode
import Mathlib.Order.Basic

namespace Kompjutr.LexRange

variable {α β : Type} [LinearOrder α] [LinearOrder β]

/-- `xs` and `ys` part at a letter, where that of `xs` comes first. -/
def Parts (xs ys : List β) : Prop :=
  ∃ p x s y t, xs = p ++ x :: s ∧ ys = p ++ y :: t ∧ x < y

theorem Parts.lt {xs ys : List β} (h : Parts xs ys) (r r' : List β) : xs ++ r < ys ++ r' := by
  obtain ⟨p, x, s, y, t, rfl, rfl, hlt⟩ := h
  rw [List.append_assoc, List.append_assoc, append_lt_append_iff]
  exact List.cons_lt_cons_iff.2 (.inl hlt)

theorem Parts.cons {xs ys : List β} (b : β) (h : Parts xs ys) : Parts (b :: xs) (b :: ys) := by
  obtain ⟨p, x, s, y, t, rfl, rfl, hlt⟩ := h
  exact ⟨b :: p, x, s, y, t, rfl, rfl, hlt⟩

theorem Parts.head {x y : β} (h : x < y) (s t : List β) : Parts (x :: s) (y :: t) :=
  ⟨[], x, s, y, t, rfl, rfl, h⟩

/-- A code that keeps the order of the letters of `S`, and in which no code word goes on from
    another one. -/
structure Ordered (S : α → Prop) (code : α → List β) : Prop where
  nonempty : ∀ a, S a → code a ≠ []
  parts : ∀ a b, S a → S b → a < b → Parts (code a) (code b)

variable {S : α → Prop} {code : α → List β} {xs ys : List α}

section

variable (h : Ordered S code) (hxs : ∀ x ∈ xs, S x) (hys : ∀ y ∈ ys, S y)

include h hxs hys

theorem Ordered.flatMap_lt (hlt : xs < ys) : xs.flatMap code < ys.flatMap code := by
  induction xs generalizing ys with
  | nil =>
    cases ys with
    | nil => exact absurd hlt (lt_irrefl _)
    | cons y ys =>
      have hfirst := h.nonempty y (hys y List.mem_cons_self)
      obtain ⟨b, bs, hb⟩ := List.exists_cons_of_ne_nil hfirst
      rw [List.flatMap_cons, hb]
      exact List.nil_lt_cons _ _
  | cons x xs ih =>
    cases ys with
    | nil => exact absurd hlt (List.not_lt_nil _)
    | cons y ys =>
      rw [List.flatMap_cons, List.flatMap_cons]
      rcases List.cons_lt_cons_iff.1 hlt with hfirst | ⟨rfl, hrest⟩
      · exact (h.parts x y (hxs x List.mem_cons_self) (hys y List.mem_cons_self) hfirst).lt _ _
      · rw [append_lt_append_iff]
        exact ih (fun x' hx => hxs x' (List.mem_cons_of_mem _ hx))
          (fun y' hy => hys y' (List.mem_cons_of_mem _ hy)) hrest

theorem Ordered.flatMap_lt_iff :
    xs.flatMap code < ys.flatMap code ↔ xs < ys := by
  refine ⟨fun hlt => ?_, h.flatMap_lt hxs hys⟩
  rcases lt_trichotomy xs ys with hxy | rfl | hyx
  · exact hxy
  · exact absurd hlt (lt_irrefl _)
  · exact absurd hlt (lt_asymm (h.flatMap_lt hys hxs hyx))

theorem Ordered.flatMap_inj (heq : xs.flatMap code = ys.flatMap code) : xs = ys := by
  rcases lt_trichotomy xs ys with hxy | hxy | hyx
  · exact absurd (h.flatMap_lt hxs hys hxy) (heq ▸ lt_irrefl _)
  · exact hxy
  · exact absurd (h.flatMap_lt hys hxs hyx) (heq ▸ lt_irrefl _)

end

end Kompjutr.LexRange

namespace Kompjutr.Utf8

open LexRange (Parts Ordered)

/-- The bytes of a text, as numbers. -/
def octets (t : List UInt16) : List Nat := (encode t).map UInt8.toNat

/-- The bytes of a code point, as numbers. -/
def octetsOf (point : Nat) : List Nat := (encodePoint point).map UInt8.toNat

theorem octetsOf_eq {point : Nat} (h : Scalar point) : octetsOf point =
    if point < 0x80 then [point]
    else if point < 0x800 then [0xc0 + point / 0x40, 0x80 + point % 0x40]
    else if point < 0x10000 then
      [0xe0 + point / 0x1000, 0x80 + point / 0x40 % 0x40, 0x80 + point % 0x40]
    else
      [0xf0 + point / 0x40000, 0x80 + point / 0x1000 % 0x40, 0x80 + point / 0x40 % 0x40,
        0x80 + point % 0x40] := by
  unfold Scalar at h
  unfold octetsOf encodePoint
  split_ifs
  · rw [List.map_singleton, toNat_toUInt8 (by omega)]
  · simp only [List.map_cons, List.map_nil]
    rw [toNat_toUInt8 (by omega), toNat_toUInt8 (by omega)]
  · simp only [List.map_cons, List.map_nil]
    rw [toNat_toUInt8 (by omega), toNat_toUInt8 (by omega), toNat_toUInt8 (by omega)]
  · simp only [List.map_cons, List.map_nil]
    rw [toNat_toUInt8 (by omega), toNat_toUInt8 (by omega), toNat_toUInt8 (by omega),
      toNat_toUInt8 (by omega)]

/-- Two digits each: the first that differs decides. -/
theorem parts_digits {n : Nat} {a b : Nat} {xs ys : List Nat}
    (hle : a ≤ b) (hrest : a = b → Parts xs ys) : Parts ((n + a) :: xs) ((n + b) :: ys) := by
  rcases Nat.lt_or_eq_of_le hle with hlt | rfl
  · exact .head (by omega) _ _
  · exact (hrest rfl).cons _

theorem octetsOf_ordered : Ordered Scalar octetsOf := by
  refine ⟨fun a ha => ?_, fun a b ha hb hlt => ?_⟩
  · rw [octetsOf_eq ha]
    split_ifs <;> exact List.cons_ne_nil _ _
  · rw [octetsOf_eq ha, octetsOf_eq hb]
    unfold Scalar at ha hb
    split_ifs
    -- A longer encoding starts with a greater byte, and of two equally long ones the first
    -- digit that differs decides.
    any_goals omega
    any_goals
      refine .head ?_ _ _
      omega
    · exact parts_digits (by omega) fun _ => .head (by omega) _ _
    · refine parts_digits (by omega) fun _ => parts_digits (by omega) fun _ => ?_
      exact .head (by omega) _ _
    · refine parts_digits (by omega) fun _ => parts_digits (by omega) fun _ =>
        parts_digits (by omega) fun _ => ?_
      exact .head (by omega) _ _

theorem octets_eq (t : List UInt16) : octets t = (points t).flatMap octetsOf := by
  rw [octets, encode, List.map_flatMap]
  rfl

/-- Byte order is the order of code points. -/
theorem octets_lt_iff {s t : List UInt16} : octets s < octets t ↔ points s < points t := by
  rw [octets_eq, octets_eq]
  exact octetsOf_ordered.flatMap_lt_iff (fun _ h => scalar_of_mem_points h)
    fun _ h => scalar_of_mem_points h

theorem octets_le_iff {s t : List UInt16} : octets s ≤ octets t ↔ points s ≤ points t := by
  rw [← not_lt, ← not_lt, octets_lt_iff]

theorem octets_inj {s t : List UInt16} : octets s = octets t ↔ points s = points t := by
  rw [octets_eq, octets_eq]
  refine ⟨fun h => ?_, fun h => by rw [h]⟩
  exact octetsOf_ordered.flatMap_inj (fun _ h => scalar_of_mem_points h)
    (fun _ h => scalar_of_mem_points h) h

-- Prefixes

/-- A text that spells code points, followed by more. -/
theorem points_spelled {list : List Nat} (h : ∀ point ∈ list, Scalar point) (rest : List UInt16) :
    points (list.flatMap unitsOf ++ rest) = list ++ points rest := by
  induction list with
  | nil => rfl
  | cons point list ih =>
    rw [List.flatMap_cons, List.append_assoc, points_unitsOf (h point List.mem_cons_self),
      ih fun p hp => h p (List.mem_cons_of_mem _ hp), List.cons_append]

/-- A text that spells code points is well-formed. -/
theorem wellFormed_spelled {list : List Nat} (h : ∀ point ∈ list, Scalar point) :
    WellFormed (list.flatMap unitsOf) := by
  have hpoints := points_spelled h []
  rw [List.append_nil, points, List.append_nil] at hpoints
  rw [WellFormed, toWellFormed, hpoints]

variable {left : List UInt16}

theorem points_append (h : WellFormed left) (right : List UInt16) :
    points (left ++ right) = points left ++ points right := by
  have hspelled := @points_spelled (points left)
    (fun point hpoint => scalar_of_mem_points hpoint) right
  rwa [show (points left).flatMap unitsOf = left from h] at hspelled

theorem WellFormed.append {right : List UInt16} (hleft : WellFormed left)
    (hright : WellFormed right) : WellFormed (left ++ right) := by
  rw [WellFormed, toWellFormed, points_append hleft, List.flatMap_append]
  exact congrArg₂ (· ++ ·) hleft hright

theorem encode_append (h : WellFormed left) (right : List UInt16) :
    encode (left ++ right) = encode left ++ encode right := by
  rw [encode, points_append h, List.flatMap_append]
  rfl

/-- ASCII bytes are their own encoding. -/
theorem encode_ascii {bytes : List UInt8} (h : ∀ b ∈ bytes, b < 0x80) :
    encode (bytes.map UInt8.toUInt16) = bytes := by
  induction bytes with
  | nil => rfl
  | cons b bytes ih =>
    rw [List.forall_mem_cons] at h
    have hlt : b.toUInt16.toNat < 0x80 := by
      simpa [UInt8.lt_iff_toNat_lt] using h.1
    have hplain : ¬ (isHigh b.toUInt16 || isLow b.toUInt16) = true := by
      rw [Bool.or_eq_true, isHigh_iff, isLow_iff]
      omega
    have hpoints := points_cut [] (bytes.map UInt8.toUInt16) hplain
    have hbyte : b.toUInt16.toNat.toUInt8 = b := by
      rw [UInt8.toNat_toUInt16, ← UInt8.toNat_inj, toNat_toUInt8 b.toNat_lt]
    rw [List.nil_append, points, List.nil_append] at hpoints
    rw [List.map_cons, encode, hpoints, List.flatMap_cons, encodePoint, if_pos hlt, hbyte]
    exact congrArg _ (ih h.2)

theorem wellFormed_ascii {bytes : List UInt8} (h : ∀ b ∈ bytes, b < 0x80) :
    WellFormed (bytes.map UInt8.toUInt16) := by
  refine wellFormed_of_plain fun u hu => ?_
  obtain ⟨b, hb, rfl⟩ := List.mem_map.1 hu
  have hlt : b.toNat < 0x80 := by simpa [UInt8.lt_iff_toNat_lt] using h b hb
  rw [Bool.or_eq_true, isHigh_iff, isLow_iff, UInt8.toNat_toUInt16]
  omega

/-- A well-formed text starts with another one exactly when its code points do. -/
theorem isPrefix_iff {t : List UInt16} (hleft : WellFormed left) (ht : WellFormed t) :
    left <+: t ↔ points left <+: points t := by
  constructor
  · rintro ⟨rest, rfl⟩
    exact ⟨points rest, (points_append hleft rest).symm⟩
  · rintro ⟨rest, hrest⟩
    refine ⟨rest.flatMap unitsOf, ?_⟩
    have hall : (points left ++ rest).flatMap unitsOf = t := by
      rw [hrest]
      exact ht
    rwa [List.flatMap_append, show (points left).flatMap unitsOf = left from hleft] at hall

/-- The last character of a well-formed text. -/
theorem exists_last {t : List UInt16} (h : WellFormed t) (hne : t ≠ []) :
    ∃ (front : List Nat) (point : Nat), (∀ p ∈ front, Scalar p) ∧ Scalar point ∧
      t = front.flatMap unitsOf ++ unitsOf point := by
  have hpoints : points t ≠ [] := by
    intro hnil
    rw [WellFormed, toWellFormed, hnil] at h
    exact hne h.symm
  have hsplit := List.dropLast_append_getLast hpoints
  have hscalar : ∀ p ∈ points t, Scalar p := fun p hp => scalar_of_mem_points hp
  refine ⟨(points t).dropLast, (points t).getLast hpoints,
    fun p hp => hscalar p (List.dropLast_subset _ hp), hscalar _ (List.getLast_mem hpoints), ?_⟩
  have hback : (points t).flatMap unitsOf = t := h
  rw [← hsplit, List.flatMap_append, List.flatMap_singleton] at hback
  exact hback.symm

end Kompjutr.Utf8
