/-
  Kompjutr.Refs.Config

  Config rows by the prefix of their path (`store/refs/config.ts`): a prefix is turned into a
  range of the byte order, from the prefix itself to `nextPrefix` of it.

  The range holds what starts with the prefix, unless the last unit of the prefix has no
  successor that goes on with the same characters: behind U+D7FF come the surrogates, behind the
  last low surrogate comes U+E000, and behind U+FFFF comes U+0000 (`nextPrefix_range_iff`).
-/
import Kompjutr.Common.Streams
import Mathlib.Data.List.Dedup

namespace Kompjutr.Refs

open Objects (Text text)
open Utf8 (WellFormed Scalar points unitsOf octets isHigh isLow)

variable {lower : Text} {point : Nat} {u last : UInt16}

variable {upper path start : Text}

/-- A row of `git_config`, of one repository. -/
structure ConfigRow where
  path : Text
  seq : Nat
  value : Text
  deriving DecidableEq

/-- `String.fromCharCode(last + 1)` wraps around; on the empty string `last` is no number, and the
    result is U+0000. -/
def nextPrefix (start : Text) : Text :=
  match start.getLast? with
  | some last => start.dropLast ++ [last + 1]
  | none => [0]

/-- `path >= ? AND path < ?`, in the byte order of SQLite. -/
def inRange (lower upper path : Text) : Bool :=
  Streams.comparePaths lower path ≤ 0 && Streams.comparePaths path upper < 0

/-- Distinct config paths under a prefix, in order. -/
def paths (rows : List ConfigRow) (start : Text) : List Text :=
  (((rows.map (·.path)).filter (inRange start (nextPrefix start))).dedup).mergeSort
    fun left right => Streams.comparePaths left right ≤ 0

/-- The units of which the next one does not stand for the next character. -/
def isLastOfRange (unit : UInt16) : Bool := unit = 0xd7ff || unit = 0xdfff || unit = 0xffff

-- The upper bound

theorem inRange_iff : inRange lower upper path = true ↔
    octets lower ≤ octets path ∧ octets path < octets upper := by
  unfold inRange
  rw [Bool.and_eq_true, decide_eq_true_eq, decide_eq_true_eq, Streams.comparePaths_le,
    Streams.comparePaths_lt]

theorem inRange_points : inRange lower upper path = true ↔
    points lower ≤ points path ∧ points path < points upper := by
  rw [inRange_iff, Utf8.octets_le_iff, Utf8.octets_lt_iff]

theorem nextPrefix_snoc (front : Text) (last : UInt16) :
    nextPrefix (front ++ [last]) = front ++ [last + 1] := by
  unfold nextPrefix
  rw [List.getLast?_concat, List.dropLast_concat]

theorem unitsOf_small (h : point < 0x10000) : unitsOf point = [point.toUInt16] :=
  if_pos h

theorem toNat_succ (h : u ≠ 0xffff) : (u + 1).toNat = u.toNat + 1 := by
  have hlt := u.toNat_lt
  rw [ne_eq, ← UInt16.toNat_inj] at h
  simp only [UInt16.reduceToNat] at h
  rw [UInt16.toNat_add]
  simp only [UInt16.reduceToNat]
  omega

theorem isLastOfRange_iff : isLastOfRange u = true ↔
    u.toNat = 0xd7ff ∨ u.toNat = 0xdfff ∨ u.toNat = 0xffff := by
  unfold isLastOfRange
  rw [Bool.or_eq_true, Bool.or_eq_true, decide_eq_true_eq, decide_eq_true_eq, decide_eq_true_eq,
    ← UInt16.toNat_inj, ← UInt16.toNat_inj, ← UInt16.toNat_inj, or_assoc]
  rfl

/-- The last unit of a character that is followed by another one with the same front. -/
theorem unitsOf_succ (h : Scalar point) {front : Text}
    (hunits : unitsOf point = front ++ [last]) (hlast : isLastOfRange last = false) :
    unitsOf (point + 1) = front ++ [last + 1] ∧ Scalar (point + 1) := by
  unfold Scalar at h ⊢
  have hnot := mt isLastOfRange_iff.2 (Bool.eq_false_iff.1 hlast)
  rw [not_or, not_or] at hnot
  obtain ⟨hhigh, hlow, hmax⟩ := hnot
  have hne : last ≠ 0xffff := by
    rintro rfl
    exact hmax rfl
  have hsucc := toNat_succ hne
  unfold unitsOf at hunits ⊢
  split_ifs at hunits with hsmall
  · have hone : front = [] ∧ last = point.toUInt16 := by
      have hlength := congrArg List.length hunits
      rw [List.length_append, List.length_singleton, List.length_singleton] at hlength
      obtain rfl := List.eq_nil_of_length_eq_zero (show front.length = 0 by omega)
      exact ⟨rfl, (List.cons.inj hunits).1.symm⟩
    obtain ⟨rfl, rfl⟩ := hone
    rw [Utf8.toNat_toUInt16 hsmall] at hhigh hlow hmax hsucc
    refine ⟨?_, by omega⟩
    have hunit : (point + 1).toUInt16 = point.toUInt16 + 1 := by
      rw [← UInt16.toNat_inj, hsucc, Utf8.toNat_toUInt16 (by omega)]
    rw [if_pos (by omega), List.nil_append, hunit]
  · have htwo : front = [(0xd800 + (point - 0x10000) / 0x400).toUInt16] ∧
        last = (0xdc00 + (point - 0x10000) % 0x400).toUInt16 := by
      have hsplit : [(0xd800 + (point - 0x10000) / 0x400).toUInt16] ++
          [(0xdc00 + (point - 0x10000) % 0x400).toUInt16] = front ++ [last] := hunits
      obtain ⟨hfront, hback⟩ := List.append_inj' hsplit (by simp only [List.length_singleton])
      exact ⟨hfront.symm, (List.cons.inj hback).1.symm⟩
    obtain ⟨rfl, rfl⟩ := htwo
    have hlast' := Utf8.toNat_toUInt16
      (show 0xdc00 + (point - 0x10000) % 0x400 < 0x10000 by omega)
    rw [hlast'] at hhigh hlow hmax hsucc
    refine ⟨?_, by omega⟩
    have hquot : (point + 1 - 0x10000) / 0x400 = (point - 0x10000) / 0x400 := by omega
    have hrem : 0xdc00 + (point + 1 - 0x10000) % 0x400 = 0xdc00 + (point - 0x10000) % 0x400 + 1 := by
      omega
    have hunit : (0xdc00 + (point - 0x10000) % 0x400 + 1).toUInt16 =
        (0xdc00 + (point - 0x10000) % 0x400).toUInt16 + 1 := by
      rw [← UInt16.toNat_inj, hsucc, Utf8.toNat_toUInt16 (by omega)]
    rw [if_neg (by omega), hquot, hrem, hunit]
    rfl

/-- The range of a well-formed prefix holds what starts with it, where the next unit stands for
    the next character. -/
theorem inRange_nextPrefix (hstart : WellFormed start) (hne : start ≠ [])
    (hlast : ∀ last ∈ start.getLast?, isLastOfRange last = false) (hpath : WellFormed path) :
    inRange start (nextPrefix start) path = true ↔ start <+: path := by
  obtain ⟨front, point, hfront, hpoint, rfl⟩ := Utf8.exists_last hstart hne
  obtain ⟨units, last, hunits⟩ := List.eq_nil_or_concat (unitsOf point) |>.resolve_left
    (Utf8.unitsOf_ne_nil point)
  rw [List.concat_eq_append] at hunits
  have hplain : isLastOfRange last = false := by
    refine hlast last ?_
    rw [hunits, ← List.append_assoc, List.getLast?_concat]
    rfl
  obtain ⟨hsucc, hscalar⟩ := unitsOf_succ hpoint hunits hplain
  have hnext : nextPrefix (front.flatMap unitsOf ++ unitsOf point) =
      front.flatMap unitsOf ++ unitsOf (point + 1) := by
    rw [hunits, ← List.append_assoc, nextPrefix_snoc, List.append_assoc, ← hsucc]
  have hpoints : ∀ p, Scalar p → points (front.flatMap unitsOf ++ unitsOf p) = front ++ [p] := by
    intro p hp
    have hone := Utf8.points_unitsOf hp []
    rw [List.append_nil] at hone
    rw [Utf8.points_spelled hfront, hone]
    rfl
  rw [inRange_points, hnext, hpoints point hpoint, hpoints (point + 1) hscalar,
    Utf8.isPrefix_iff hstart hpath, hpoints point hpoint]
  constructor
  · rintro ⟨hlow, hupper⟩
    have hcover : point ⋖ point + 1 := ⟨Nat.lt_succ_self _, fun c hlt => by omega⟩
    obtain ⟨rest, hrest⟩ := LexRange.exists_of_range hcover hlow hupper
    exact ⟨rest, by rw [hrest, List.append_assoc]; rfl⟩
  · rintro ⟨rest, hrest⟩
    rw [← hrest, List.append_assoc, List.singleton_append]
    exact ⟨LexRange.lower_le _ _, LexRange.lt_upper (Nat.lt_succ_self _) _ _⟩

/-- A bound below the prefix leaves the prefix itself out. -/
theorem not_inRange_self (h : points upper < points start) :
    ¬ inRange start upper start = true := by
  rw [inRange_points]
  exact fun hrange => lt_asymm h hrange.2

/-- Where the next unit does not stand for the next character, the range is wrong about the
    prefix itself or about what starts with the character U+E000 instead of its last one. -/
theorem exists_outside (hstart : WellFormed start)
    (hlast : start.getLast? = some last) (hbad : isLastOfRange last = true) :
    ∃ path, WellFormed path ∧ ¬ (inRange start (nextPrefix start) path = true ↔ start <+: path) := by
  have hne : start ≠ [] := by
    rintro rfl
    cases hlast
  obtain ⟨front, point, hfront, hpoint, rfl⟩ := Utf8.exists_last hstart hne
  have hself : points (front.flatMap unitsOf ++ unitsOf point) = front ++ [point] := by
    have hone := Utf8.points_unitsOf hpoint []
    rw [List.append_nil] at hone
    rw [Utf8.points_spelled hfront, hone]
    rfl
  have hbelow : ∀ units : Text, nextPrefix (front.flatMap unitsOf ++ unitsOf point) =
      front.flatMap unitsOf ++ units → points units < [point] →
      ∃ path, WellFormed path ∧ ¬ (inRange (front.flatMap unitsOf ++ unitsOf point)
        (nextPrefix (front.flatMap unitsOf ++ unitsOf point)) path = true ↔
          front.flatMap unitsOf ++ unitsOf point <+: path) := by
    intro units hnext hlt
    refine ⟨_, hstart, fun hiff => not_inRange_self ?_ (hiff.2 List.prefix_rfl)⟩
    rw [hnext, hself, Utf8.points_spelled hfront, LexRange.append_lt_append_iff]
    exact hlt
  rw [List.getLast?_append_of_ne_nil _ (Utf8.unitsOf_ne_nil point)] at hlast
  rw [isLastOfRange_iff] at hbad
  by_cases hsmall : point < 0x10000
  · have hunits := unitsOf_small hsmall
    rw [hunits, List.getLast?_singleton] at hlast
    cases hlast
    rw [Utf8.toNat_toUInt16 hsmall] at hbad
    rcases hbad with rfl | rfl | rfl
    · -- Behind U+D7FF comes a surrogate on its own, which is encoded as U+FFFD.
      have hscalar : Scalar 0xe000 := .inr (by decide)
      have hother : points (front.flatMap unitsOf ++ unitsOf 0xe000) = front ++ [0xe000] := by
        rw [Utf8.points_spelled hfront]
        rfl
      have hformed : WellFormed (front.flatMap unitsOf ++ unitsOf 0xe000) := by
        have hall := @Utf8.wellFormed_spelled (front ++ [0xe000]) fun p hp =>
          (List.mem_append.1 hp).elim (hfront p) fun hone => List.mem_singleton.1 hone ▸ hscalar
        rwa [List.flatMap_append, List.flatMap_singleton] at hall
      have hnext : nextPrefix (front.flatMap unitsOf ++ unitsOf 0xd7ff) =
          front.flatMap unitsOf ++ [0xd800] := by
        rw [hunits, nextPrefix_snoc]
        rfl
      refine ⟨_, hformed, fun hiff => ?_⟩
      have hstarts := hiff.1 (inRange_points.2 ?_)
      · obtain ⟨rest, hrest⟩ := (Utf8.isPrefix_iff hstart hformed).1 hstarts
        rw [hself, hother, List.append_assoc, List.append_right_inj] at hrest
        cases hrest
      · rw [hnext, hself, hother, Utf8.points_spelled hfront, LexRange.append_le_append_iff,
          LexRange.append_lt_append_iff]
        decide
    · unfold Scalar at hpoint
      omega
    · refine hbelow [0] ?_ (by decide)
      rw [hunits, nextPrefix_snoc]
      rfl
  · have hlarge : unitsOf point = [(0xd800 + (point - 0x10000) / 0x400).toUInt16,
        (0xdc00 + (point - 0x10000) % 0x400).toUInt16] := if_neg hsmall
    obtain ⟨high, hhigh⟩ : ∃ high, high = (0xd800 + (point - 0x10000) / 0x400).toUInt16 := ⟨_, rfl⟩
    rw [← hhigh] at hlarge
    rw [hlarge, List.getLast?_cons_cons, List.getLast?_singleton] at hlast
    have hlow : last.toNat = 0xdc00 + (point - 0x10000) % 0x400 := by
      rw [← Option.some.inj hlast, Utf8.toNat_toUInt16 (by omega)]
    obtain rfl : last = 0xdfff := UInt16.toNat_inj.1 (by
      simp only [UInt16.reduceToNat]
      omega)
    have hsurrogate : isHigh high = true := by
      unfold Scalar at hpoint
      rw [hhigh, Utf8.isHigh_iff, Utf8.toNat_toUInt16 (by omega)]
      omega
    -- The high surrogate loses its low one, and is encoded as U+FFFD.
    refine hbelow [high, 0xe000] ?_ ?_
    · rw [hlarge, Option.some.inj hlast]
      exact (congrArg nextPrefix (List.append_assoc _ [high] [0xdfff]).symm).trans
        ((nextPrefix_snoc _ _).trans (List.append_assoc _ [high] _))
    · rw [points, if_neg (by rw [hsurrogate]; decide), if_pos (by rw [hsurrogate]; rfl)]
      exact List.cons_lt_cons_iff.2 (.inl (by omega))

end Kompjutr.Refs
