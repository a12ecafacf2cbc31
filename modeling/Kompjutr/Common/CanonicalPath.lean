/-
  Kompjutr.Common.CanonicalPath

  The scanner of canonical paths (`common/paths.ts`): one pass that follows surrogate pairs and
  segments together.

  A high surrogate that is the last unit is read past: no comparison with the missing unit holds,
  and the loop ends behind the text, with the last segment not looked at
  (`isCanonicalPathSegments_iff`).
-/
import Kompjutr.Common.Streams

namespace Kompjutr.Paths

open Objects (Text text)
open Utf8 (WellFormed isHigh isLow)
open Bool (false_ne_true or_eq_true)

variable {rest : Text} {v : UInt16}

/-- A segment that ends the scan: empty, `.` or `..`. -/
def isDotSegment (segment : Text) : Bool :=
  segment.length = 0 || (segment.length = 1 && segment[0]? = some 0x2e) ||
    (segment.length = 2 && segment[0]? = some 0x2e && segment[1]? = some 0x2e)

/-- The loop of `isCanonicalPathSegments`, with the units of the segment it is in. -/
def isCanonicalPathSegments (segment : Text) : Text → Bool
  | [] => !isDotSegment segment
  | unit :: rest =>
    if unit = 0x2f then
      if isDotSegment segment then false else isCanonicalPathSegments [] rest
    else if unit = 0 then false
    else if isHigh unit then
      match rest with
      | [] => true
      | low :: rest =>
        if low < 0xdc00 || low > 0xdfff then false
        else isCanonicalPathSegments (segment ++ [unit, low]) rest
    else if isLow unit then false
    else isCanonicalPathSegments (segment ++ [unit]) rest

def isCanonicalGitPath (path : Text) : Bool :=
  if path = [] || path.head? = some 0x2f || path.getLast? = some 0x2f then false
  else isCanonicalPathSegments [] path

def isCanonicalAbsolutePath (path : Text) : Bool :=
  if path.length < 2 || path.head? ≠ some 0x2f || path.getLast? = some 0x2f then false
  else isCanonicalPathSegments [] path.tail

/-- What a canonical path of a repository is. -/
structure IsGitPath (path : Text) : Prop where
  wellFormed : WellFormed path
  nonempty : path ≠ []
  relative : path.head? ≠ some 0x2f
  no_nul : 0 ∉ path
  no_trailing_slash : path.getLast? ≠ some 0x2f
  segments : ∀ segment ∈ path.splitOn 0x2f,
    segment ≠ [] ∧ segment ≠ text "." ∧ segment ≠ text ".."

/-- The last unit is a high surrogate. -/
def EndsHigh (path : Text) : Prop := ∃ last, path.getLast? = some last ∧ isHigh last = true

-- The scan

theorem isDotSegment_eq_false {segment : Text} : isDotSegment segment = false ↔
    segment ≠ [] ∧ segment ≠ text "." ∧ segment ≠ text ".." := by
  have hone : text "." = [0x2e] := rfl
  have htwo : text ".." = [0x2e, 0x2e] := rfl
  rw [hone, htwo]
  match segment with
  | [] => simp [isDotSegment]
  | [u] => simp [isDotSegment]
  | [u, v] => simp [isDotSegment]
  | u :: v :: w :: rest => simp [isDotSegment]

theorem isCanonicalPathSegments_slash (segment rest : Text) :
    isCanonicalPathSegments segment (0x2f :: rest) =
      if isDotSegment segment then false else isCanonicalPathSegments [] rest := by
  rw [isCanonicalPathSegments.eq_def]
  rfl

theorem not_wellFormed_unpaired {u : UInt16} (hu : (isHigh u || isLow u) = true)
    (hrest : ∀ v ∈ rest.head?, (isHigh u && isLow v) = false) : ¬ WellFormed (u :: rest) := by
  intro h
  unfold WellFormed Utf8.toWellFormed at h
  rw [Streams.points_cons, Streams.pointAt_unpaired hu hrest, List.flatMap_cons] at h
  have hunit := congrArg UInt16.toNat (List.cons.inj h).1
  rw [Utf8.toNat_toUInt16 (by decide)] at hunit
  rw [or_eq_true, Utf8.isHigh_iff, Utf8.isLow_iff] at hu
  omega

theorem isLow_of_not_outside (h : ¬ (v < 0xdc00 || v > 0xdfff) = true) : isLow v = true := by
  simp only [or_eq_true, decide_eq_true_eq, UInt16.lt_iff_toNat_lt, gt_iff_lt,
    UInt16.reduceToNat] at h
  rw [Utf8.isLow_iff]
  omega

theorem not_isLow_of_outside (h : (v < 0xdc00 || v > 0xdfff) = true) : isLow v = false := by
  simp only [or_eq_true, decide_eq_true_eq, UInt16.lt_iff_toNat_lt, gt_iff_lt,
    UInt16.reduceToNat] at h
  rw [← Bool.not_eq_true, Utf8.isLow_iff]
  omega

/-- What the scan accepts, apart from a text that ends in a high surrogate. -/
theorem isCanonicalPathSegments_iff {segment path : Text} (hsegment : 0x2f ∉ segment)
    (hlast : ¬ EndsHigh path) : isCanonicalPathSegments segment path = true ↔
      WellFormed path ∧ 0 ∉ path ∧ ∀ part ∈ (segment ++ path).splitOn 0x2f,
        part ≠ [] ∧ part ≠ text "." ∧ part ≠ text ".." := by
  have hrest : ∀ {u : UInt16} {rest : Text}, ¬ EndsHigh (u :: rest) → rest ≠ [] →
      ¬ EndsHigh rest := by
    rintro u rest hnot hne ⟨last, hlast, hhigh⟩
    refine hnot ⟨last, ?_, hhigh⟩
    obtain ⟨v, rest, rfl⟩ := List.exists_cons_of_ne_nil hne
    rwa [List.getLast?_cons_cons]
  have hnil : ¬ EndsHigh [] := by
    rintro ⟨last, hlast, -⟩
    cases hlast
  have hdrop : ∀ {u : UInt16} {rest : Text}, ¬ EndsHigh (u :: rest) → ¬ EndsHigh rest := by
    intro u rest hnot
    by_cases hempty : rest = []
    · rw [hempty]
      exact hnil
    · exact hrest hnot hempty
  have hself : ∀ {segment : Text}, 0x2f ∉ segment → segment.splitOn 0x2f = [segment] := by
    intro segment hsegment
    have hone := Objects.splitOn_append_of_not_mem hsegment []
    rwa [List.append_nil, List.splitOn_nil, List.modifyHead_cons, List.append_nil] at hone
  have hslash : ¬ (isHigh 0x2f || isLow 0x2f) = true := by decide
  fun_induction isCanonicalPathSegments segment path with
  | case1 segment =>
    rw [List.append_nil, hself hsegment, Bool.not_eq_true', isDotSegment_eq_false]
    simp
  | case2 segment rest hdot =>
    refine ⟨fun h => absurd h false_ne_true, fun ⟨_, _, hall⟩ => ?_⟩
    rw [List.splitOn_append_cons_self, hself hsegment] at hall
    rw [isDotSegment_eq_false.2 (hall segment List.mem_cons_self)] at hdot
    exact absurd hdot false_ne_true
  | case3 segment rest hdot ih =>
    have hparts := isDotSegment_eq_false.1 (Bool.eq_false_iff.2 hdot)
    refine (ih (by simp) (hdrop hlast)).trans ?_
    rw [List.splitOn_append_cons_self, hself hsegment, List.nil_append,
      List.singleton_append, List.forall_mem_cons, List.mem_cons, not_or]
    have hcut := Utf8.wellFormed_cut [] rest hslash
    rw [List.nil_append] at hcut
    rw [hcut]
    have hnul : (0 : UInt16) ≠ 0x2f := by decide
    exact ⟨fun ⟨h1, h2, h3⟩ => ⟨⟨Utf8.wellFormed_nil, h1⟩, ⟨hnul, h2⟩, hparts, h3⟩,
      fun ⟨⟨_, h1⟩, ⟨_, h2⟩, _, h3⟩ => ⟨h1, h2, h3⟩⟩
  | case4 segment rest => simp
  | case5 segment unit hslash hnul hhigh => exact absurd ⟨unit, rfl, hhigh⟩ hlast
  | case6 segment unit hslash hnul hhigh low rest hlow =>
    refine ⟨fun h => absurd h false_ne_true, fun ⟨hformed, _⟩ => ?_⟩
    refine absurd hformed (not_wellFormed_unpaired (by rw [hhigh]; rfl) ?_)
    rintro _ ⟨⟩
    rw [not_isLow_of_outside hlow, Bool.and_false]
  | case7 segment unit hunit hnul hhigh low rest hlow ih =>
    have hlow' := isLow_of_not_outside hlow
    have hlowSlash : low ≠ 0x2f := by
      rintro rfl
      exact absurd hlow' (by decide)
    have hlowNul : low ≠ 0 := by
      rintro rfl
      exact absurd hlow' (by decide)
    have hpair : 0x2f ∉ segment ++ [unit, low] := by
      simp only [List.mem_append, List.mem_cons, List.not_mem_nil, or_false, not_or]
      exact ⟨hsegment, Ne.symm hunit, Ne.symm hlowSlash⟩
    refine (ih hpair (hdrop (hdrop hlast))).trans ?_
    rw [Utf8.wellFormed_pair hhigh hlow', List.append_assoc,
      List.mem_cons, List.mem_cons, not_or, not_or]
    exact ⟨fun ⟨h1, h2, h3⟩ => ⟨h1, ⟨Ne.symm hnul, Ne.symm hlowNul, h2⟩, h3⟩,
      fun ⟨h1, ⟨_, _, h2⟩, h3⟩ => ⟨h1, h2, h3⟩⟩
  | case8 segment unit rest hunit hnul hhigh hlow =>
    refine ⟨fun h => absurd h false_ne_true, fun ⟨hformed, _⟩ => ?_⟩
    refine absurd hformed (not_wellFormed_unpaired (by rw [hlow, Bool.or_true]) ?_)
    intro v _
    rw [Bool.eq_false_iff.2 hhigh, Bool.false_and]
  | case9 segment unit rest hunit hnul hhigh hlow ih =>
    have hplain : ¬ (isHigh unit || isLow unit) = true := by
      rw [or_eq_true, not_or]
      exact ⟨hhigh, hlow⟩
    have hnext : 0x2f ∉ segment ++ [unit] := by
      rw [List.mem_append, List.mem_singleton, not_or]
      exact ⟨hsegment, Ne.symm hunit⟩
    have hcut := Utf8.wellFormed_cut [] rest hplain
    rw [List.nil_append] at hcut
    refine (ih hnext (hdrop hlast)).trans ?_
    rw [hcut, List.append_assoc, List.singleton_append, List.mem_cons, not_or]
    exact ⟨fun ⟨h1, h2, h3⟩ => ⟨⟨Utf8.wellFormed_nil, h1⟩, ⟨Ne.symm hnul, h2⟩, h3⟩,
      fun ⟨⟨_, h1⟩, ⟨_, h2⟩, h3⟩ => ⟨h1, h2, h3⟩⟩

-- The two callers

theorem isCanonicalGitPath_iff {path : Text} (hlast : ¬ EndsHigh path) :
    isCanonicalGitPath path = true ↔ IsGitPath path := by
  have hscan := @isCanonicalPathSegments_iff [] path List.not_mem_nil hlast
  rw [List.nil_append] at hscan
  unfold isCanonicalGitPath
  split
  · next hguard =>
    refine ⟨fun h => absurd h false_ne_true, fun hpath => ?_⟩
    simp only [or_eq_true, decide_eq_true_eq] at hguard
    obtain (hempty | hhead) | htail := hguard
    · exact absurd hempty hpath.nonempty
    · exact absurd hhead hpath.relative
    · exact absurd htail hpath.no_trailing_slash
  · next hguard =>
    simp only [or_eq_true, decide_eq_true_eq, not_or] at hguard
    obtain ⟨⟨hempty, hhead⟩, htail⟩ := hguard
    rw [hscan]
    exact ⟨fun ⟨h1, h2, h3⟩ => ⟨h1, hempty, hhead, h2, htail, h3⟩,
      fun h => ⟨h.wellFormed, h.no_nul, h.segments⟩⟩

theorem isCanonicalAbsolutePath_cons :
    isCanonicalAbsolutePath (0x2f :: rest) = isCanonicalGitPath rest := by
  cases rest with
  | nil => rfl
  | cons unit rest =>
    unfold isCanonicalAbsolutePath isCanonicalGitPath
    rw [List.getLast?_cons_cons, List.tail_cons]
    by_cases htail : (unit :: rest).getLast? = some 0x2f
    · simp [htail]
    · by_cases hhead : unit = 0x2f
      · -- where the one has a guard, the other finds an empty first segment
        subst hhead
        have hempty : isCanonicalPathSegments [] (0x2f :: rest) = false :=
          isCanonicalPathSegments_slash [] rest
        simp [htail, hempty]
      · simp [htail, hhead]

/-- The scanners accept the canonical paths, apart from a text that ends in a high surrogate. -/
theorem isCanonicalPath_iff {path : Text} (hlast : ¬ EndsHigh path) :
    (isCanonicalGitPath path = true ↔ IsGitPath path) ∧
      (isCanonicalAbsolutePath path = true ↔ ∃ rest, path = 0x2f :: rest ∧ IsGitPath rest) := by
  refine ⟨isCanonicalGitPath_iff hlast, ?_⟩
  match path with
  | [] => simp [isCanonicalAbsolutePath]
  | unit :: rest =>
    by_cases hhead : unit = 0x2f
    · subst hhead
      have hrest : ¬ EndsHigh rest := by
        rintro ⟨last, hrest, hhigh⟩
        refine hlast ⟨last, ?_, hhigh⟩
        obtain ⟨v, rest, rfl⟩ := List.exists_cons_of_ne_nil
          (List.ne_nil_of_mem (List.mem_of_getLast? hrest))
        rwa [List.getLast?_cons_cons]
      rw [isCanonicalAbsolutePath_cons, isCanonicalGitPath_iff hrest]
      constructor
      · intro hpath
        exact ⟨rest, rfl, hpath⟩
      · rintro ⟨_, hsame, hpath⟩
        cases hsame
        exact hpath
    · have hreject : isCanonicalAbsolutePath (unit :: rest) = false := by
        simp [isCanonicalAbsolutePath, hhead]
      rw [hreject]
      constructor
      · intro h
        cases h
      · rintro ⟨_, hsame, -⟩
        exact absurd (List.cons.inj hsame).1 hhead

theorem srcMain_canonical :
    (isCanonicalGitPath (text "src/main.ts") = true ↔ IsGitPath (text "src/main.ts")) ∧
      (isCanonicalAbsolutePath (text "src/main.ts") = true ↔
        ∃ rest, text "src/main.ts" = 0x2f :: rest ∧ IsGitPath rest) := by
  refine isCanonicalPath_iff ?_
  rintro ⟨last, hlast, hhigh⟩
  have hs : (text "src/main.ts").getLast? = some 0x73 := by decide
  rw [hs] at hlast
  cases hlast
  exact absurd hhigh (by decide)

/-- The root is no path to the second scanner, and a high surrogate may end a path of the first. -/
theorem root_and_half_pair :
    isCanonicalAbsolutePath (text "/") = false ∧
      isCanonicalGitPath (text "a" ++ [0xd800]) = true ∧
      ¬ WellFormed (text "a" ++ [0xd800]) := by
  refine ⟨by decide, by decide, ?_⟩
  unfold WellFormed
  decide +kernel

end Kompjutr.Paths
