/-
  Kompjutr.Common.Paths

  The path helpers of `common/paths.ts`.

  A canonical path, of segments that are not empty and do not start with a dot, is
  left as it is by `normalizePath`, and one canonical path lies inside another exactly
  when a slash follows it there.
-/
import Kompjutr.Objects.HeaderLines

namespace Kompjutr.Paths

open Objects (Text text)

variable {rest : Text}

variable {path root : Text}

/-- The part before the last slash. -/
def gitParentPath (path : Text) : Text := ((path.reverse.dropWhile (· ≠ 0x2f)).drop 1).reverse

/-- One segment of `normalizePath`. -/
def addSegment (parts : List Text) (segment : Text) : List Text :=
  if segment = [] || segment = text "." then parts
  else if segment = text ".." then parts.dropLast
  else parts ++ [segment]

def normalizePath (path : Text) : Text :=
  let absolute := if path.head? = some 0x2f then path else 0x2f :: path
  0x2f :: List.intercalate [0x2f] ((absolute.splitOn 0x2f).foldl addSegment [])

def isPathRoot (root path : Text) : Bool :=
  let normalizedRoot := normalizePath root
  let normalizedPath := normalizePath path
  if normalizedRoot = [0x2f] then normalizedPath.head? = some 0x2f
  else normalizedPath = normalizedRoot ||
    (normalizedRoot.isPrefixOf normalizedPath && normalizedPath[normalizedRoot.length]? = some 0x2f)

def isNestedPath (root path : Text) : Bool :=
  let normalizedRoot := normalizePath root
  let normalizedPath := normalizePath path
  normalizedPath ≠ normalizedRoot && isPathRoot normalizedRoot normalizedPath

/-- The loop over the parents of a path, until it is empty.  A parent is shorter, so the length is
    fuel enough. -/
def ancestorsFrom : Nat → Text → List Text
  | 0, _ => []
  | fuel + 1, path =>
    let ancestor := gitParentPath path
    if ancestor = [] then [] else ancestor :: ancestorsFrom fuel ancestor

def gitAncestors (path : Text) : List Text := ancestorsFrom path.length path

-- Canonical paths

/-- A segment that `normalizePath` keeps. -/
def PlainSegment (segment : Text) : Prop := segment ≠ [] ∧ segment.head? ≠ some 0x2e

/-- A path whose segments are all kept. -/
def Canonical (path : Text) : Prop := ∀ segment ∈ path.splitOn 0x2f, PlainSegment segment

theorem addSegment_plain {segment : Text} (h : PlainSegment segment) (parts : List Text) :
    addSegment parts segment = parts ++ [segment] := by
  have hdot : segment ≠ text "." := by
    rintro rfl
    exact h.2 rfl
  have hdots : segment ≠ text ".." := by
    rintro rfl
    exact h.2 rfl
  unfold addSegment
  rw [if_neg (by simp [h.1, hdot]), if_neg hdots]

theorem foldl_addSegment {segments : List Text} (h : ∀ segment ∈ segments, PlainSegment segment)
    (parts : List Text) : segments.foldl addSegment parts = parts ++ segments := by
  induction segments generalizing parts with
  | nil => rw [List.foldl_nil, List.append_nil]
  | cons segment segments ih =>
    rw [List.foldl_cons, addSegment_plain (h segment List.mem_cons_self),
      ih fun s hs => h s (List.mem_cons_of_mem _ hs), List.append_assoc]
    rfl

theorem Canonical.head (h : Canonical path) : path.head? ≠ some 0x2f := by
  intro hslash
  cases path with
  | nil => cases hslash
  | cons unit path =>
    cases hslash
    refine (h [] ?_).1 rfl
    rw [Objects.splitOn_cons_self]
    exact List.mem_cons_self

theorem normalizePath_canonical (h : Canonical path) : normalizePath path = 0x2f :: path := by
  unfold normalizePath
  rw [if_neg h.head]
  dsimp only
  rw [Objects.splitOn_cons_self, List.foldl_cons]
  show 0x2f :: List.intercalate [0x2f] ((path.splitOn 0x2f).foldl addSegment []) = _
  rw [foldl_addSegment h, List.nil_append, List.intercalate_splitOn]

theorem normalizePath_absolute (h : Canonical path) :
    normalizePath (0x2f :: path) = 0x2f :: path := by
  unfold normalizePath
  rw [if_pos (show (0x2f :: path).head? = some 0x2f from rfl)]
  dsimp only
  rw [Objects.splitOn_cons_self, List.foldl_cons]
  show 0x2f :: List.intercalate [0x2f] ((path.splitOn 0x2f).foldl addSegment []) = _
  rw [foldl_addSegment h, List.nil_append, List.intercalate_splitOn]

/-- A canonical path inside another. -/
theorem isNestedPath_append (hroot : Canonical root)
    (hpath : Canonical (root ++ 0x2f :: rest)) : isNestedPath root (root ++ 0x2f :: rest) = true := by
  unfold isNestedPath isPathRoot
  rw [normalizePath_canonical hroot, normalizePath_canonical hpath]
  dsimp only
  rw [normalizePath_absolute hroot, normalizePath_absolute hpath]
  have hne : 0x2f :: (root ++ 0x2f :: rest) ≠ 0x2f :: root := by
    intro heq
    have hlength := congrArg List.length heq
    simp at hlength
  rw [Bool.and_eq_true]
  refine ⟨decide_eq_true hne, ?_⟩
  split
  · rfl
  · rw [Bool.or_eq_true, Bool.and_eq_true]
    refine .inr ⟨List.isPrefixOf_iff_prefix.2 ⟨0x2f :: rest, rfl⟩, decide_eq_true ?_⟩
    rw [← List.cons_append, List.getElem?_append_right (Nat.le_refl _), Nat.sub_self]
    rfl

-- Ancestors

theorem gitParentPath_append {left right : Text} (h : 0x2f ∉ right) :
    gitParentPath (left ++ 0x2f :: right) = left := by
  unfold gitParentPath
  rw [List.reverse_append, List.reverse_cons, List.append_assoc, List.singleton_append,
    List.dropWhile_append_of_pos]
  · rw [List.dropWhile_cons_of_neg (by simp), List.drop_one, List.tail_cons, List.reverse_reverse]
  · intro unit hunit
    exact decide_eq_true fun heq => h (heq ▸ List.mem_reverse.1 hunit)

/-- Whatever a slash follows is an ancestor. -/
theorem mem_ancestorsFrom (h : root ≠ []) (fuel : Nat) (rest : Text)
    (hfuel : rest.length < fuel) : root ∈ ancestorsFrom fuel (root ++ 0x2f :: rest) := by
  induction fuel generalizing rest with
  | zero => exact absurd hfuel (Nat.not_lt_zero _)
  | succ fuel ih =>
    rw [ancestorsFrom]
    by_cases hslash : 0x2f ∈ rest
    · -- the last slash is in the rest: the parent still starts with the root
      obtain ⟨right, left, hsplit, hright⟩ :=
        List.eq_append_cons_of_mem (List.mem_reverse.2 hslash)
      have hrest : rest = left.reverse ++ 0x2f :: right.reverse := by
        rw [← List.reverse_reverse rest, hsplit, List.reverse_append, List.reverse_cons,
          List.append_assoc]
        rfl
      have hparent : gitParentPath (root ++ 0x2f :: rest) = root ++ 0x2f :: left.reverse := by
        rw [hrest, ← List.cons_append, ← List.append_assoc]
        exact gitParentPath_append fun hmem => hright (List.mem_reverse.1 hmem)
      rw [hparent, if_neg (by simp)]
      apply List.mem_cons_of_mem
      apply ih
      have hlength := congrArg List.length hrest
      simp only [List.length_append, List.length_cons] at hlength
      omega
    · rw [gitParentPath_append hslash, if_neg h]
      exact List.mem_cons_self

theorem mem_gitAncestors (h : root ≠ []) : root ∈ gitAncestors (root ++ 0x2f :: rest) := by
  refine mem_ancestorsFrom h _ rest ?_
  rw [List.length_append, List.length_cons]
  omega

end Kompjutr.Paths
