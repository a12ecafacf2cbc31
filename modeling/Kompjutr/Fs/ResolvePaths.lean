/-
  Kompjutr.Fs.ResolvePaths

  Components and paths: a canonical path is built from its components, its prefixes are
  the paths of these one by one, and what has the components of a root first lies under
  it.
-/
import Kompjutr.Fs.Resolve

namespace Kompjutr.Fs

open Objects (Text text)
open List (cons_append cons_ne_nil singleton_append)

variable {rest : Text} {more : List Text}

variable {path : Text} {base : List Text}

-- Components and paths

theorem isPlain_iff {component : Text} :
    isPlain component = true ↔ component ≠ [] ∧ component ≠ text "." ∧ component ≠ text ".." := by
  simp [isPlain, and_assoc]

theorem componentsOf_root : componentsOf [0x2f] = [] := rfl

theorem componentsOf_nil : componentsOf [] = [] := rfl

/-- A first component that is not empty starts right after the slash. -/
theorem componentsOf_slash (h : ∀ part ∈ rest.splitOn 0x2f, part ≠ []) :
    componentsOf (0x2f :: rest) = rest.splitOn 0x2f := by
  cases rest with
  | nil => exact absurd rfl (h [] (by simp))
  | cons u rest =>
    have hu : u ≠ 0x2f := by
      rintro rfl
      exact h [] (by rw [Objects.splitOn_cons_self]; exact List.mem_cons_self) rfl
    have hrooted : List.dropWhile (· = 0x2f) (0x2f :: u :: rest) = u :: rest := by
      rw [List.dropWhile_cons_of_pos (by simp), List.dropWhile_cons_of_neg (by simpa using hu)]
    show (if List.dropWhile (· = 0x2f) (0x2f :: u :: rest) = [] then _ else _) = _
    rw [hrooted, if_neg (cons_ne_nil _ _)]

theorem canonical_cases (h : isCanonicalPath path = true) : path = [0x2f] ∨
      ∃ rest, path = 0x2f :: rest ∧ ∀ part ∈ rest.splitOn 0x2f, isPlain part = true := by
  simp only [isCanonicalPath, Bool.or_eq_true, decide_eq_true_eq, Bool.and_eq_true,
    List.all_eq_true] at h
  refine h.imp_right fun ⟨hhead, hplain⟩ => ?_
  obtain ⟨rest, rfl⟩ := List.head?_eq_some_iff.1 hhead
  exact ⟨rest, rfl, hplain⟩

theorem componentsOf_plain (h : ∀ part ∈ rest.splitOn 0x2f, isPlain part = true) :
    componentsOf (0x2f :: rest) = rest.splitOn 0x2f :=
  componentsOf_slash fun part hpart => (isPlain_iff.1 (h part hpart)).1

/-- The components of a canonical path are plain, and the path is built from them. -/
theorem componentsOf_canonical (h : isCanonicalPath path = true) :
    pathOf (componentsOf path) = path ∧ ∀ part ∈ componentsOf path, isPlain part = true := by
  obtain rfl | ⟨rest, rfl, hplain⟩ := canonical_cases h
  · exact ⟨rfl, by simp [componentsOf_root]⟩
  · rw [componentsOf_plain hplain]
    refine ⟨?_, hplain⟩
    show 0x2f :: List.intercalate [0x2f] (rest.splitOn 0x2f) = _
    rw [List.intercalate_splitOn]

theorem rootDepth_eq (root : Text) : rootDepth root = (componentsOf root).length := by
  unfold rootDepth
  split
  · rename_i hroot
    rw [hroot, componentsOf_root, List.length_nil]
  · rfl

theorem intercalate_append (hbase : base ≠ []) (hmore : more ≠ []) :
    List.intercalate [0x2f] (base ++ more) =
      List.intercalate [0x2f] base ++ 0x2f :: List.intercalate [(0x2f : UInt16)] more := by
  induction base with
  | nil => exact absurd rfl hbase
  | cons part base ih =>
    cases base with
    | nil =>
      rw [singleton_append, List.intercalate_cons_of_ne_nil hmore]
      simp
    | cons next base =>
      rw [cons_append, cons_append, List.intercalate_cons_cons,
        ← cons_append, ih (cons_ne_nil _ _), List.intercalate_cons_cons]
      simp

/-- The path of more components lies below. -/
theorem pathOf_append (hbase : base ≠ []) (hmore : more ≠ []) :
    pathOf (base ++ more) = pathOf base ++ 0x2f :: List.intercalate [(0x2f : UInt16)] more := by
  rw [pathOf, intercalate_append hbase hmore, pathOf, cons_append]

theorem isUnder_pathOf {parts : List Text} (h : base <+: parts) :
    isUnder (pathOf parts) (pathOf base) = true := by
  obtain ⟨more, rfl⟩ := h
  unfold isUnder
  split
  · rfl
  · rename_i hroot
    have hbase : base ≠ [] := by
      rintro rfl
      exact hroot rfl
    by_cases hmore : more = []
    · simp [hmore]
    · rw [pathOf_append hbase hmore, Bool.or_eq_true]
      right
      rw [List.isPrefixOf_iff_prefix]
      exact ⟨List.intercalate [0x2f] more, by simp⟩

/-- The parent of a root is not under it. -/
theorem not_isUnder_parent (hplain : ∀ part ∈ base, isPlain part = true)
    (hne : base ≠ []) : isUnder (pathOf base.dropLast) (pathOf base) = false := by
  obtain ⟨parts, last, rfl⟩ := List.eq_nil_or_concat base |>.resolve_left hne
  rw [List.concat_eq_append] at hplain ⊢
  have hlast : last ≠ [] := (isPlain_iff.1 (hplain last (by simp))).1
  have hlength : (pathOf parts).length < (pathOf (parts ++ [last])).length := by
    by_cases hparts : parts = []
    · subst hparts
      have := List.length_pos_iff.2 hlast
      simpa [pathOf] using this
    · rw [pathOf_append hparts (cons_ne_nil _ _)]
      simp
  rw [List.dropLast_concat]
  unfold isUnder
  rw [if_neg, Bool.or_eq_false_iff]
  · refine ⟨?_, ?_⟩
    · rw [decide_eq_false_iff_not]
      intro heq
      rw [heq] at hlength
      exact Nat.lt_irrefl _ hlength
    · rw [← Bool.not_eq_true, List.isPrefixOf_iff_prefix]
      intro hpre
      have := hpre.length_le
      rw [List.length_append] at this
      omega
  · intro hroot
    rw [hroot, pathOf, List.length_cons] at hlength
    simp at hlength

-- Canonical paths

/-- The path of some parts, and of each longer one on the way through the rest. -/
def prefixPaths : List Text → List Text → List Text
  | base, [] => [pathOf base]
  | base, part :: rest => pathOf base :: prefixPaths (base ++ [part]) rest

/-- Parts that are joined one by one after a text. -/
def joinFrom : Text → List Text → List Text
  | _, [] => []
  | before, [part] => [before ++ part]
  | before, part :: rest => (before ++ part) :: joinFrom (before ++ part ++ [0x2f]) rest

theorem joinFrom_cons (before part next : Text) (rest : List Text) :
    joinFrom before (part :: next :: rest) =
      (before ++ part) :: joinFrom (before ++ part ++ [0x2f]) (next :: rest) := rfl

theorem cutsFrom_eq (before path : Text) :
    cutsFrom before path ++ [before ++ path] = joinFrom before (path.splitOn 0x2f) := by
  induction path generalizing before with
  | nil => simp [cutsFrom, joinFrom]
  | cons u path ih =>
    cases hsplit : path.splitOn 0x2f with
    | nil => exact absurd hsplit (List.splitOn_ne_nil _ _)
    | cons part rest =>
      have htail := ih (before ++ [u])
      rw [hsplit, List.append_assoc, singleton_append] at htail
      by_cases hu : u = 0x2f
      · subst hu
        rw [cutsFrom, if_pos rfl, Objects.splitOn_cons_self, hsplit, joinFrom_cons,
          List.append_nil, cons_append, htail]
      · rw [cutsFrom, if_neg hu, Objects.splitOn_cons_of_ne hu, hsplit, htail]
        cases rest with
        | nil => simp [joinFrom]
        | cons next rest => simp [joinFrom_cons]

theorem joinFrom_below (hbase : base ≠ []) (part : Text) (rest : List Text) :
    joinFrom (pathOf base ++ [0x2f]) (part :: rest) = prefixPaths (base ++ [part]) rest := by
  have hpart : ∀ base : List Text, base ≠ [] → ∀ part,
      pathOf base ++ [0x2f] ++ part = pathOf (base ++ [part]) := by
    intro base hbase part
    rw [pathOf_append hbase (cons_ne_nil _ _)]
    simp
  induction rest generalizing base part with
  | nil => simp [joinFrom, prefixPaths, hpart base hbase]
  | cons next rest ih =>
    rw [joinFrom_cons, hpart base hbase, ih (by simp), prefixPaths]

theorem prefixesOf_canonical (h : isCanonicalPath path = true) :
    prefixesOf path = prefixPaths [] (componentsOf path) := by
  by_cases hroot : path = [0x2f]
  · subst hroot
    rfl
  obtain ⟨rest, rfl, hplain⟩ := (canonical_cases h).resolve_left hroot
  rw [prefixesOf, if_neg hroot, componentsOf_plain hplain]
  have hcuts : cutsFrom [0x2f] rest ++ [0x2f :: rest] = _ := cutsFrom_eq [0x2f] rest
  show [0x2f] :: (cutsFrom [0x2f] rest ++ [0x2f :: rest]) = _
  rw [hcuts]
  cases hsplit : rest.splitOn 0x2f with
  | nil => exact absurd hsplit (List.splitOn_ne_nil _ _)
  | cons part more =>
    rw [prefixPaths, List.nil_append]
    have hpart : pathOf [part] = 0x2f :: part := by simp [pathOf]
    cases more with
    | nil => simp [joinFrom, prefixPaths, pathOf]
    | cons next more =>
      rw [joinFrom_cons, prefixPaths, singleton_append, ← hpart,
        joinFrom_below (cons_ne_nil _ _)]
      rfl

theorem drop_prefixPaths (base more rest : List Text) :
    (prefixPaths base (more ++ rest)).drop more.length = prefixPaths (base ++ more) rest := by
  induction more generalizing base with
  | nil => simp
  | cons part more ih =>
    rw [cons_append, prefixPaths, List.length_cons, List.drop_succ_cons, ih,
      List.append_assoc, singleton_append]

/-- A canonical path below a canonical root has the root's components first. -/
theorem componentsOf_under {root : Text} (hroot : isCanonicalPath root = true)
    (hpath : isCanonicalPath path = true) (h : isUnder path root = true) :
    componentsOf path = componentsOf root ++ componentsOf (path.drop root.length) := by
  unfold isUnder at h
  split at h
  · rename_i hslash
    subst hslash
    obtain ⟨rest, rfl⟩ := List.head?_eq_some_iff.1 (of_decide_eq_true h)
    rw [componentsOf_root, List.nil_append]
    unfold componentsOf
    rw [List.dropWhile_cons_of_pos (by simp)]
    rfl
  · rename_i hslash
    rw [Bool.or_eq_true, decide_eq_true_eq, List.isPrefixOf_iff_prefix] at h
    obtain rfl | ⟨rest, rfl⟩ := h
    · rw [List.drop_length, componentsOf_nil, List.append_nil]
    · rw [List.append_assoc, singleton_append] at hpath ⊢
      rw [List.drop_left]
      obtain ⟨base, rfl, hbase⟩ := (canonical_cases hroot).resolve_left hslash
      rw [cons_append] at hpath ⊢
      obtain hlong | ⟨all, hall, hplain⟩ := canonical_cases hpath
      · simp at hlong
      obtain rfl := List.cons.inj hall |>.2
      rw [componentsOf_plain hplain, componentsOf_plain hbase, List.splitOn_append_cons_self,
        componentsOf_plain fun part hpart => hplain part ?_]
      rw [List.splitOn_append_cons_self]
      exact List.mem_append_right _ hpart

end Kompjutr.Fs
