/-
  Kompjutr.Fs.PathOrder

  The order of paths (`comparePaths` of `fs/path.ts`), with the primitives that name the
  edge of a subtree.

  Paths are compared by code points.  Everything under a directory stands between the
  directory with a slash and the directory with a `0`, the next character.
-/
import Kompjutr.Fs.ResolvePaths
import Kompjutr.Lib.LexRange

namespace Kompjutr.Fs

open Objects (Text text)

variable {u : UInt16} {a b c : Text}

/-- The code points of a string, as its iterator gives them: a lone surrogate is one of its own. -/
def codePoints : Text → List Nat
  | [] => []
  | [u] => [u.toNat]
  | u :: v :: rest =>
    if Utf8.isHigh u && Utf8.isLow v then
      (0x10000 + (u.toNat - 0xd800) * 0x400 + (v.toNat - 0xdc00)) :: codePoints rest
    else u.toNat :: codePoints (v :: rest)

/-- `comparePaths a b < 0`.  It is also the order SQLite gives TEXT, by UTF-8 bytes. -/
def pathLt (a b : Text) : Prop := codePoints a < codePoints b

/-- `comparePaths a b <= 0`. -/
def pathLe (a b : Text) : Prop := codePoints a ≤ codePoints b

instance (a b : Text) : Decidable (pathLt a b) := inferInstanceAs (Decidable (_ < _))

instance (a b : Text) : Decidable (pathLe a b) := inferInstanceAs (Decidable (_ ≤ _))

/-- The segments that `normalize` keeps. -/
def normalizeParts (parts : List Text) (segment : Text) : List Text :=
  if segment = [] || segment = text "." then parts
  else if segment = text ".." then parts.dropLast
  else parts ++ [segment]

/-- Lexical normalisation. -/
def normalize (path : Text) : Text :=
  if isCanonicalPath path then path
  else
    let absolute := if path.head? = some 0x2f then path else 0x2f :: path
    pathOf ((absolute.splitOn 0x2f).foldl normalizeParts [])

/-- The part before the last slash of a normalised path, or `/`. -/
def dirname (path : Text) : Text :=
  let cut := ((normalize path).reverse.dropWhile (· ≠ 0x2f)).drop 1 |>.reverse
  if cut = [] then [0x2f] else cut

/-- The first path that sorts after everything under `dir`. -/
def subtreeSuccessor (dir : Text) : Text :=
  let normalized := normalize dir
  if normalized = [0x2f] then [0x30] else normalized ++ [0x30]

-- Code points

theorem slash_plain : ¬ (Utf8.isHigh 0x2f || Utf8.isLow 0x2f) = true := by decide

theorem zero_plain : ¬ (Utf8.isHigh 0x30 || Utf8.isLow 0x30) = true := by decide

theorem codePoints_cons (hu : ¬ (Utf8.isHigh u || Utf8.isLow u) = true) (rest : Text) :
    codePoints (u :: rest) = u.toNat :: codePoints rest := by
  have hhigh : ¬ Utf8.isHigh u = true := fun h => hu (by rw [h]; rfl)
  cases rest with
  | nil => rfl
  | cons v rest => rw [codePoints, if_neg (by simp [hhigh])]

/-- A character that is no surrogate is read on its own, and so are the sides of it. -/
theorem codePoints_cut (left right : Text) (hu : ¬ (Utf8.isHigh u || Utf8.isLow u) = true) :
    codePoints (left ++ u :: right) = codePoints left ++ u.toNat :: codePoints right := by
  fun_induction codePoints left with
  | case1 => exact codePoints_cons hu right
  | case2 v =>
    have hlow : ¬ Utf8.isLow u = true := fun h => hu (by rw [h, Bool.or_true])
    rw [List.singleton_append, codePoints, if_neg (by simp [hlow]), codePoints_cons hu]
    rfl
  | case3 v w rest hpair ih =>
    rw [List.cons_append, List.cons_append, codePoints, if_pos hpair, ih]
    rfl
  | case4 v w rest hpair ih =>
    rw [List.cons_append, List.cons_append, codePoints, if_neg hpair, ← List.cons_append, ih]
    rfl

theorem unitsOf_pair {v : UInt16} (hu : Utf8.isHigh u = true) (hv : Utf8.isLow v = true) :
    Utf8.unitsOf (0x10000 + (u.toNat - 0xd800) * 0x400 + (v.toNat - 0xdc00)) = [u, v] := by
  rw [Utf8.isHigh_iff] at hu
  rw [Utf8.isLow_iff] at hv
  have hhigh : 0xd800 + (0x10000 + (u.toNat - 0xd800) * 0x400 + (v.toNat - 0xdc00) - 0x10000) /
      0x400 = u.toNat := by omega
  have hlow : 0xdc00 + (0x10000 + (u.toNat - 0xd800) * 0x400 + (v.toNat - 0xdc00) - 0x10000) %
      0x400 = v.toNat := by omega
  rw [Utf8.unitsOf, if_neg (by omega), hhigh, hlow, Nat.toUInt16_eq, Nat.toUInt16_eq,
    UInt16.ofNat_toNat, UInt16.ofNat_toNat]

/-- A text is what its code points spell. -/
theorem flatMap_codePoints (path : Text) : (codePoints path).flatMap Utf8.unitsOf = path := by
  fun_induction codePoints path with
  | case1 => rfl
  | case2 u => rw [List.flatMap_singleton, Utf8.unitsOf_toNat]
  | case3 u v rest hpair ih =>
    rw [Bool.and_eq_true] at hpair
    rw [List.flatMap_cons, ih, unitsOf_pair hpair.1 hpair.2]
    rfl
  | case4 u v rest hpair ih =>
    rw [List.flatMap_cons, ih, Utf8.unitsOf_toNat]
    rfl

theorem codePoints_injective (h : codePoints a = codePoints b) : a = b := by
  rw [← flatMap_codePoints a, h, flatMap_codePoints]

-- The order

theorem pathLt_irrefl (a : Text) : ¬ pathLt a a := lt_irrefl _

theorem pathLt_trans (hab : pathLt a b) (hbc : pathLt b c) : pathLt a c :=
  lt_trans hab hbc

theorem pathLt_of_le_of_lt (hab : pathLe a b) (hbc : pathLt b c) : pathLt a c :=
  lt_of_le_of_lt hab hbc

theorem pathLt_of_lt_of_le (hab : pathLt a b) (hbc : pathLe b c) : pathLt a c :=
  lt_of_lt_of_le hab hbc

theorem ne_of_pathLt (h : pathLt a b) : a ≠ b := by
  rintro rfl
  exact pathLt_irrefl a h

theorem pathLe_of_lt (h : pathLt a b) : pathLe a b := le_of_lt h

theorem not_pathLt : ¬ pathLt a b ↔ pathLe b a := not_lt

theorem not_pathLe : ¬ pathLe a b ↔ pathLt b a := not_le

theorem pathLe_refl (a : Text) : pathLe a a := le_refl _

theorem pathLe_total (a b : Text) : pathLe a b ∨ pathLe b a := le_total _ _

theorem pathLe_trans (hab : pathLe a b) (hbc : pathLe b c) : pathLe a c :=
  le_trans hab hbc

theorem pathLt_of_le_of_ne (h : pathLe a b) (hne : a ≠ b) : pathLt a b :=
  lt_of_le_of_ne h fun heq => hne (codePoints_injective heq)

/-- A common start does not matter, where a slash follows it. -/
theorem pathLt_below {base base' x y : Text} :
    pathLt (base ++ 0x2f :: x) (base ++ 0x2f :: y) ↔
      pathLt (base' ++ 0x2f :: x) (base' ++ 0x2f :: y) := by
  unfold pathLt
  simp only [codePoints_cut _ _ slash_plain, LexRange.append_lt_append_iff]

/-- What lies under a directory stands between its two edges. -/
theorem under_lower (base rest : Text) : pathLe (base ++ [0x2f]) (base ++ 0x2f :: rest) := by
  unfold pathLe
  rw [codePoints_cut _ _ slash_plain, codePoints_cut _ _ slash_plain]
  exact LexRange.lower_le _ _

theorem under_upper (base rest : Text) : pathLt (base ++ 0x2f :: rest) (base ++ [0x30]) := by
  unfold pathLt
  rw [codePoints_cut _ _ slash_plain, codePoints_cut _ _ zero_plain]
  exact LexRange.lt_upper (by decide) _ _

/-- What stands between the two edges of a directory lies under it. -/
theorem exists_under {base path : Text} (hlow : pathLe (base ++ [0x2f]) path)
    (hupper : pathLt path (base ++ [0x30])) : ∃ rest, path = base ++ 0x2f :: rest := by
  unfold pathLe at hlow
  unfold pathLt at hupper
  rw [codePoints_cut _ _ slash_plain] at hlow
  rw [codePoints_cut _ _ zero_plain] at hupper
  have hcover : (0x2f : Nat) ⋖ 0x30 := ⟨by decide, fun c hlt => by omega⟩
  obtain ⟨points, hpoints⟩ := LexRange.exists_of_range hcover hlow hupper
  refine ⟨points.flatMap Utf8.unitsOf, ?_⟩
  rw [← flatMap_codePoints path, hpoints, List.flatMap_append, flatMap_codePoints,
    List.flatMap_cons]
  rfl

end Kompjutr.Fs
