/-
  Kompjutr.Fs.MountedPaths

  Where the paths of a mounted view lie: a directory's subtree as a range of the path
  order, a mount's rows in real and in virtual space, and mounts and synthetic
  directories beside each other.
-/
import Kompjutr.Fs.Mounted

namespace Kompjutr.Fs.Mounted

open Objects (Text text)
open List (append_assoc append_nil cons_append cons_ne_nil nil_append)

-- Subtrees as ranges

/-- A path as the start of what lies under it. -/
def stem (path : Text) : Text := if path = [0x2f] then [] else path

theorem pathPrefix_eq (mount : Mount) : mount.pathPrefix = stem mount.path := rfl

theorem base_eq (mount : Mount) : mount.base = stem mount.source := rfl

theorem subtreeLower_eq (root : Text) : subtreeLower root = stem root ++ [0x2f] := by
  unfold subtreeLower stem
  split <;> rfl

variable {path : Text}

theorem normalize_canonical (h : isCanonicalPath path = true) : normalize path = path := if_pos h

theorem subtreeSuccessor_eq (h : isCanonicalPath path = true) :
    subtreeSuccessor path = stem path ++ [0x30] := by
  unfold subtreeSuccessor stem
  rw [normalize_canonical h]
  dsimp only
  split <;> rfl

theorem mountLower_eq (mount : Mount) : mountLower mount = stem mount.path ++ [0x2f] := rfl

theorem mountUpper_eq {mount : Mount} (h : isCanonicalPath mount.path = true) :
    mountUpper mount = stem mount.path ++ [0x30] := subtreeSuccessor_eq h

/-- What lies strictly between the edges of a directory. -/
theorem range_iff {base : Text} : pathLt (base ++ [0x2f]) path ∧ pathLt path (base ++ [0x30]) ↔
      ∃ rest, rest ≠ [] ∧ path = base ++ 0x2f :: rest := by
  constructor
  · rintro ⟨hlow, hupper⟩
    obtain ⟨rest, rfl⟩ := exists_under (pathLe_of_lt hlow) hupper
    refine ⟨rest, ?_, rfl⟩
    rintro rfl
    exact pathLt_irrefl _ hlow
  · rintro ⟨rest, hrest, rfl⟩
    refine ⟨?_, under_upper base rest⟩
    refine pathLt_of_le_of_ne (under_lower base rest) fun heq => hrest ?_
    have := List.append_cancel_left heq
    exact (List.cons.inj this).2.symm

-- Canonical paths

theorem canonical_iff {path : Text} :
    isCanonicalPath path = true ↔
      path = [0x2f] ∨ ∃ rest, path = 0x2f :: rest ∧
        ∀ part ∈ rest.splitOn 0x2f, isPlain part = true := by
  constructor
  · exact canonical_cases
  · rintro (rfl | ⟨rest, rfl, hplain⟩)
    · rfl
    · simp only [isCanonicalPath, List.head?_cons, decide_true, List.tail_cons, Bool.true_and,
        Bool.or_eq_true, List.all_eq_true]
      exact .inr hplain

/-- A canonical path other than `/` is its own stem, and starts with a slash. -/
theorem stem_cases (h : isCanonicalPath path = true) :
    stem path = [] ∧ path = [0x2f] ∨ ∃ rest, stem path = 0x2f :: rest ∧ path = 0x2f :: rest ∧
      path ≠ [0x2f] ∧ ∀ part ∈ rest.splitOn 0x2f, isPlain part = true := by
  by_cases hroot : path = [0x2f]
  · exact .inl ⟨if_pos hroot, hroot⟩
  · obtain ⟨rest, hrest, hplain⟩ := (canonical_cases h).resolve_left hroot
    exact .inr ⟨rest, (if_neg hroot).trans hrest, hrest, hroot, hplain⟩

/-- What goes on from a canonical stem is canonical when its components are plain. -/
theorem canonical_below {rest : Text} (h : isCanonicalPath path = true) :
    isCanonicalPath (stem path ++ 0x2f :: rest) = true ↔
      (stem path = [] ∧ rest = []) ∨ ∀ part ∈ rest.splitOn 0x2f, isPlain part = true := by
  obtain ⟨hstem, -⟩ | ⟨base, hstem, -, -, hplain⟩ := stem_cases h
  · rw [hstem, nil_append, canonical_iff]
    constructor
    · rintro (hroot | ⟨rest', hrest', hplain⟩)
      · exact .inl ⟨rfl, (List.cons.inj hroot).2⟩
      · obtain rfl := (List.cons.inj hrest').2
        exact .inr hplain
    · rintro (⟨-, rfl⟩ | hplain)
      · exact .inl rfl
      · exact .inr ⟨rest, rfl, hplain⟩
  · rw [hstem, cons_append, canonical_iff]
    have hsplit : (base ++ 0x2f :: rest).splitOn 0x2f = base.splitOn 0x2f ++ rest.splitOn 0x2f :=
      List.splitOn_append_cons_self _ _
    constructor
    · rintro (hroot | ⟨rest', hrest', hparts⟩)
      · simp at hroot
      · obtain rfl := (List.cons.inj hrest').2
        rw [hsplit] at hparts
        exact .inr fun part hpart => hparts part (List.mem_append_right _ hpart)
    · rintro (⟨hnil, -⟩ | hparts)
      · cases hnil
      · refine .inr ⟨_, rfl, fun part hpart => ?_⟩
        rw [hsplit] at hpart
        rcases List.mem_append.1 hpart with hpart | hpart
        · exact hplain part hpart
        · exact hparts part hpart

/-- The rest of a canonical path may follow any canonical stem. -/
theorem canonical_rebase {path' rest : Text} (h : isCanonicalPath path = true)
    (h' : isCanonicalPath path' = true) (hrest : rest ≠ [])
    (hbelow : isCanonicalPath (stem path ++ 0x2f :: rest) = true) :
    isCanonicalPath (stem path' ++ 0x2f :: rest) = true := by
  refine (canonical_below h').2 (.inr ?_)
  exact ((canonical_below h).1 hbelow).resolve_left fun hnil => hrest hnil.2

/-- A canonical path does not end with a slash. -/
theorem rest_ne_nil {rest : Text} (h : isCanonicalPath path = true) (hpath : path ≠ [0x2f])
    (hbelow : isCanonicalPath (stem path ++ 0x2f :: rest) = true) : rest ≠ [] := by
  rintro rfl
  obtain ⟨hnil, -⟩ | hplain := (canonical_below h).1 hbelow
  · unfold stem at hnil
    rw [if_neg hpath] at hnil
    subst hnil
    cases h
  · exact (isPlain_iff.1 (hplain [] (by simp))).1 rfl

theorem isUnder_iff {directory : Text} (hpath : isCanonicalPath path = true)
    (h : isCanonicalPath directory = true) :
    isUnder path directory = true ↔ ∃ rest, rest ≠ [] ∧ path = stem directory ++ 0x2f :: rest := by
  unfold isUnder
  split
  · rename_i hroot
    rw [stem, if_pos hroot]
    constructor
    · intro hne
      obtain ⟨rest, hrest, -⟩ := (canonical_cases hpath).resolve_left (of_decide_eq_true hne)
      refine ⟨rest, ?_, hrest⟩
      rintro rfl
      exact of_decide_eq_true hne hrest
    · rintro ⟨rest, hrest, rfl⟩
      rw [decide_eq_true_iff]
      intro hnil
      exact hrest (List.cons.inj hnil).2
  · rename_i hroot
    rw [List.isPrefixOf_iff_prefix, stem, if_neg hroot]
    constructor
    · rintro ⟨rest, rfl⟩
      rw [append_assoc, List.singleton_append] at hpath ⊢
      refine ⟨rest, ?_, rfl⟩
      refine rest_ne_nil h hroot ?_
      rwa [stem, if_neg hroot]
    · rintro ⟨rest, -, rfl⟩
      exact ⟨rest, by rw [append_assoc, List.singleton_append]⟩

-- One mount

/-- A mount that the table accepts. -/
def Mount.Ok (mount : Mount) : Prop :=
  isCanonicalPath mount.path = true ∧ isCanonicalPath mount.source = true

section Mount

variable {mount : Mount} {path rest : Text}

theorem stem_eq_nil (h : isCanonicalPath path = true) : stem path = [] ↔ path = [0x2f] := by
  constructor
  · intro hnil
    obtain ⟨-, hroot⟩ | ⟨rest, hstem, -⟩ := stem_cases h
    · exact hroot
    · rw [hnil] at hstem
      cases hstem
  · exact fun hroot => if_pos hroot

theorem virtualOf_below (hrest : rest ≠ []) :
    virtualOf mount (stem mount.source ++ 0x2f :: rest) = stem mount.path ++ 0x2f :: rest := by
  unfold virtualOf
  rw [base_eq, pathPrefix_eq]
  by_cases hbase : stem mount.source = []
  · have hne : (0x2f :: rest : Text) ≠ [0x2f] := fun h => hrest (List.cons.inj h).2
    rw [hbase, nil_append]
    simp [hne]
  · simp [hbase]

theorem virtualOf_source (h : mount.Ok) : virtualOf mount mount.source = mount.path := by
  have hpath : (if stem mount.path = [] then [0x2f] else stem mount.path) = mount.path := by
    unfold stem
    by_cases hroot : mount.path = [0x2f]
    · rw [if_pos hroot, if_pos rfl, hroot]
    · rw [if_neg hroot, if_neg]
      intro hnil
      have := h.1
      rw [hnil] at this
      cases this
  unfold virtualOf
  rw [base_eq, pathPrefix_eq]
  dsimp only
  obtain ⟨hnil, hroot⟩ | ⟨base, hstem, hsource, -⟩ := stem_cases h.2
  · rw [if_pos hnil, if_pos hroot, append_nil, hpath]
  · have hbase : stem mount.source ≠ [] := by
      rw [hstem]
      exact cons_ne_nil _ _
    rw [if_neg hbase, hstem, ← hsource, List.drop_length, append_nil, hpath]

theorem realIn_below (hrest : rest ≠ []) :
    realIn mount (stem mount.path ++ 0x2f :: rest) = stem mount.source ++ 0x2f :: rest := by
  unfold realIn restOf realOf
  rw [base_eq, pathPrefix_eq]
  by_cases hstart : stem mount.path = []
  · have hne : (0x2f :: rest : Text) ≠ [0x2f] := fun h => hrest (List.cons.inj h).2
    rw [hstart, nil_append]
    simp [hne]
  · simp [hstart]

theorem realIn_path (h : mount.Ok) : realIn mount mount.path = mount.source := by
  have hsource : (if stem mount.source = [] then [0x2f] else stem mount.source) = mount.source := by
    unfold stem
    by_cases hroot : mount.source = [0x2f]
    · rw [if_pos hroot, if_pos rfl, hroot]
    · rw [if_neg hroot, if_neg]
      intro hnil
      have := h.2
      rw [hnil] at this
      cases this
  unfold realIn restOf realOf
  rw [base_eq, pathPrefix_eq]
  obtain ⟨hnil, hroot⟩ | ⟨base, hstem, hpath, -⟩ := stem_cases h.1
  · rw [if_pos hnil, if_pos hroot, append_nil, hsource]
  · have hstart : stem mount.path ≠ [] := by
      rw [hstem]
      exact cons_ne_nil _ _
    rw [if_neg hstart, hstem, ← hpath, List.drop_length, append_nil, hsource]

/-- What a mount shows at or below its path. -/
theorem inMount_iff (h : mount.Ok) (hpath : isCanonicalPath path = true) :
    inMount mount path = true ↔
      path = mount.path ∨ ∃ rest, rest ≠ [] ∧ path = stem mount.path ++ 0x2f :: rest := by
  rw [← isUnder_iff hpath h.1]
  unfold inMount isUnder
  rw [pathPrefix_eq]
  by_cases hroot : mount.path = [0x2f]
  · rw [stem, if_pos hroot, if_pos hroot, hroot]
    simp [em]
  · have hstem : stem mount.path = mount.path := if_neg hroot
    have hne : stem mount.path ≠ [] := fun hnil => hroot ((stem_eq_nil h.1).1 hnil)
    rw [if_neg hroot, hstem] at *
    simp [hne]

theorem inSource_iff (h : mount.Ok) (hpath : isCanonicalPath path = true) :
    inSource mount path = true ↔
      path = mount.source ∨ ∃ rest, rest ≠ [] ∧ path = stem mount.source ++ 0x2f :: rest := by
  rw [← isUnder_iff hpath h.2]
  unfold inSource isUnder
  rw [base_eq]
  by_cases hroot : mount.source = [0x2f]
  · rw [stem, if_pos hroot, if_pos hroot, hroot]
    simp [em]
  · have hstem : stem mount.source = mount.source := if_neg hroot
    have hne : stem mount.source ≠ [] := fun hnil => hroot ((stem_eq_nil h.2).1 hnil)
    rw [if_neg hroot, hstem] at *
    simp [hne]

/-- A cursor a page may be resumed with. -/
def ScanCursor.Ok : ScanCursor → Prop
  | .afterSubtree directory => isCanonicalPath directory = true
  | _ => True

theorem pathLe_below {base base' x y : Text} :
    pathLe (base ++ 0x2f :: x) (base ++ 0x2f :: y) ↔
      pathLe (base' ++ 0x2f :: x) (base' ++ 0x2f :: y) := by
  rw [← not_pathLt, ← not_pathLt, @pathLt_below base base']

theorem pathLe_slash (base : Text) : pathLe base (base ++ [0x2f]) := by
  apply pathLe_of_lt
  unfold pathLt
  rw [codePoints_cut _ _ slash_plain]
  exact LexRange.lt_append (cons_ne_nil _ _)

/-- The lower edge of a mount is not past the lower edge of its source. -/
theorem realIn_lower (h : mount.Ok) :
    pathLe (realIn mount (stem mount.path ++ [0x2f])) (stem mount.source ++ [0x2f]) := by
  by_cases hroot : stem mount.path = []
  · have hedge : stem mount.path ++ [0x2f] = mount.path := by
      rw [hroot, (stem_eq_nil h.1).1 hroot]
      rfl
    rw [hedge, realIn_path h]
    unfold stem
    split
    · rename_i hsource
      rw [hsource]
      exact pathLe_refl _
    · exact pathLe_slash _
  · unfold realIn restOf realOf
    rw [pathPrefix_eq, base_eq, if_neg hroot, List.drop_left, if_neg (by simp)]
    exact pathLe_refl _

/-- A row of a mount is past a cursor of the view exactly when it is past the store's. -/
theorem resumeIn_after (h : mount.Ok) (hrest : rest ≠ []) (other : Text) :
    pathLt other (stem mount.path ++ 0x2f :: rest) ↔
      ∃ cursor, resumeIn mount (.after other) = some cursor ∧
        pointVisible (stem mount.source ++ 0x2f :: rest) cursor = true := by
  obtain ⟨hlow, hupper⟩ := range_iff.2 ⟨rest, hrest, rfl⟩
  unfold resumeIn
  rw [mountUpper_eq h.1, mountLower_eq]
  dsimp only
  by_cases hpast : pathLe (stem mount.path ++ [0x30]) other
  · rw [if_pos (by simpa using hpast)]
    refine iff_of_false (fun hlt => ?_) (by rintro ⟨cursor, hcursor, -⟩; cases hcursor)
    exact pathLt_irrefl _ (pathLt_trans hlt (pathLt_of_lt_of_le hupper hpast))
  rw [if_neg (by simpa using hpast)]
  by_cases hbefore : pathLt other (stem mount.path ++ [0x2f])
  · rw [if_pos (by simpa using hbefore)]
    exact iff_of_true (pathLt_trans hbefore hlow) ⟨_, rfl, rfl⟩
  rw [if_neg (by simpa using hbefore)]
  obtain ⟨rest', rfl⟩ := exists_under (not_pathLt.1 hbefore) (not_pathLe.1 hpast)
  have hvisible : ∀ real, (∃ cursor, some (ScanCursor.after real) = some cursor ∧
      pointVisible (stem mount.source ++ 0x2f :: rest) cursor = true) ↔
        pathLt real (stem mount.source ++ 0x2f :: rest) := by
    intro real
    constructor
    · rintro ⟨cursor, hcursor, hpoint⟩
      cases hcursor
      exact of_decide_eq_true hpoint
    · exact fun hlt => ⟨_, rfl, decide_eq_true hlt⟩
  rw [hvisible]
  by_cases hrest' : rest' = []
  · -- the cursor is the lower edge itself
    subst hrest'
    exact iff_of_true hlow (pathLt_of_le_of_lt (realIn_lower h) (range_iff.2 ⟨rest, hrest, rfl⟩).1)
  · rw [realIn_below hrest']
    exact pathLt_below

/-- What does not lie in a mount has its subtree's end outside the mount's range. -/
theorem successor_outside (h : mount.Ok) (hpath : isCanonicalPath path = true)
    (hout : inMount mount path = false)
    (hupper : pathLt (subtreeSuccessor path) (stem mount.path ++ [0x30])) :
    pathLt (subtreeSuccessor path) (stem mount.path ++ [0x2f]) := by
  by_contra hlow
  obtain ⟨rest, hrest⟩ := exists_under (not_pathLt.1 hlow) hupper
  rw [subtreeSuccessor_eq hpath] at hrest
  -- the last character is a `0`, so the rest is not empty and the path itself goes on from the mount
  obtain rfl | ⟨more, last, rfl⟩ := List.eq_nil_or_concat rest
  · have := congrArg List.getLast? hrest
    simp at this
  · have hcut : stem path = stem mount.path ++ 0x2f :: more := by
      rw [List.concat_eq_append, ← cons_append, ← append_assoc] at hrest
      exact (List.append_inj' hrest rfl).1
    have hstem : stem path = path := by
      unfold stem at hcut ⊢
      split
      · rename_i hroot
        rw [if_pos hroot] at hcut
        simp at hcut
      · rfl
    rw [← Bool.not_eq_true, inMount_iff h hpath] at hout
    refine hout ?_
    by_cases hmore : more = []
    · subst hmore
      by_cases hroot : mount.path = [0x2f]
      · left
        rw [← hstem, hcut, hroot]
        rfl
      · refine absurd rfl (rest_ne_nil h.1 hroot ?_)
        rw [← hcut, hstem]
        exact hpath
    · exact .inr ⟨more, hmore, hstem.symm.trans hcut⟩

theorem resumeIn_afterSubtree (h : mount.Ok) (hrest : rest ≠ []) {directory : Text}
    (hdir : isCanonicalPath directory = true) :
    pathLe (subtreeSuccessor directory) (stem mount.path ++ 0x2f :: rest) ↔
      ∃ cursor, resumeIn mount (.afterSubtree directory) = some cursor ∧
        pointVisible (stem mount.source ++ 0x2f :: rest) cursor = true := by
  obtain ⟨hlow, hupper⟩ := range_iff.2 ⟨rest, hrest, rfl⟩
  obtain ⟨-, hreal⟩ := range_iff.2 ⟨rest, hrest, (rfl : stem mount.source ++ 0x2f :: rest = _)⟩
  unfold resumeIn
  rw [mountUpper_eq h.1]
  dsimp only
  by_cases hin : inMount mount directory = true
  · rw [if_pos hin]
    have hvisible : ∀ real, (∃ cursor, some (ScanCursor.afterSubtree real) = some cursor ∧
        pointVisible (stem mount.source ++ 0x2f :: rest) cursor = true) ↔
          pathLe (subtreeSuccessor real) (stem mount.source ++ 0x2f :: rest) := by
      intro real
      constructor
      · rintro ⟨cursor, hcursor, hpoint⟩
        cases hcursor
        exact of_decide_eq_true hpoint
      · exact fun hle => ⟨_, rfl, decide_eq_true hle⟩
    rw [hvisible]
    obtain rfl | ⟨rest', hrest', rfl⟩ := (inMount_iff h hdir).1 hin
    · rw [realIn_path h, subtreeSuccessor_eq h.1, subtreeSuccessor_eq h.2]
      exact iff_of_false (fun hle => pathLt_irrefl _ (pathLt_of_lt_of_le hupper hle))
        fun hle => pathLt_irrefl _ (pathLt_of_lt_of_le hreal hle)
    · have hcanonical := canonical_rebase h.1 h.2 hrest' hdir
      have hstem : ∀ base : Text, stem (base ++ 0x2f :: rest') = base ++ 0x2f :: rest' := by
        intro base
        refine if_neg fun hroot => hrest' ?_
        have := congrArg List.length hroot
        simp only [List.length_append, List.length_cons, List.length_nil] at this
        exact List.length_eq_zero_iff.1 (by omega)
      rw [realIn_below hrest', subtreeSuccessor_eq hdir, subtreeSuccessor_eq hcanonical, hstem,
        hstem, append_assoc, append_assoc, cons_append]
      exact pathLe_below
  · rw [if_neg hin]
    by_cases hpast : pathLe (stem mount.path ++ [0x30]) (subtreeSuccessor directory)
    · rw [if_pos (by simpa using hpast)]
      refine iff_of_false (fun hle => ?_) (by rintro ⟨cursor, hcursor, -⟩; cases hcursor)
      exact pathLt_irrefl _ (pathLt_of_lt_of_le hupper (pathLe_trans hpast hle))
    · rw [if_neg (by simpa using hpast)]
      have hbefore := successor_outside h hdir (Bool.not_eq_true _ ▸ hin) (not_pathLe.1 hpast)
      exact iff_of_true (pathLe_of_lt (pathLt_trans hbefore hlow)) ⟨_, rfl, rfl⟩

/-- A row of a mount is past a cursor of the view exactly when it is past the store's. -/
theorem resumeIn_visible (h : mount.Ok) (hrest : rest ≠ []) {cursor : ScanCursor}
    (hcursor : cursor.Ok) :
    pointVisible (stem mount.path ++ 0x2f :: rest) cursor = true ↔
      ∃ resumed, resumeIn mount cursor = some resumed ∧
        pointVisible (stem mount.source ++ 0x2f :: rest) resumed = true := by
  cases cursor with
  | start => exact iff_of_true rfl ⟨_, rfl, rfl⟩
  | after other =>
    rw [← resumeIn_after h hrest]
    exact decide_eq_true_iff
  | afterSubtree directory =>
    rw [← resumeIn_afterSubtree h hrest hcursor]
    exact decide_eq_true_iff

end Mount

end Kompjutr.Fs.Mounted
