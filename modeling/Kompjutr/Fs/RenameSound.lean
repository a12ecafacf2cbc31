/-
  Kompjutr.Fs.RenameSound

  A rename moves a subtree and nothing else (`renameRaw_moves`).

  The rows under the old path are moved one after another, each to a name that is free: nothing
  stood under the new path, and the two subtrees do not meet (`moveRows_get`, by induction on the
  rows that are left).  The nodes and the chunks change only where the last name of the replaced
  node went.
-/
import Kompjutr.Fs.ReadFilesSound
import Kompjutr.Fs.Rename

namespace Kompjutr.Fs

open Fuel (ok_bind bind_eq_ok)
open Objects (Text text)
open List (append_assoc append_nil cons_ne_nil drop_left drop_one length_append length_cons
  mem_cons mem_cons_of_mem mem_cons_self tail_cons)
open Option (map_eq_some_iff map_id' map_none map_some)
open Bool (and_eq_true)

-- Paths under a path

variable {middle : FsTables} {rows : List (Text × FsPath)}

/-- What stands behind a path in the names at and under it. -/
def IsSuffix (suffix : Text) : Prop := suffix = [] ∨ ∃ rest, suffix = 0x2f :: rest

/-- A name at or under a path. -/
def Within (base path : Text) : Prop := ∃ suffix, IsSuffix suffix ∧ path = base ++ suffix

variable {base other path rest rest' : Text}

theorem inSubtree_iff (h : isCanonicalPath base = true) (hroot : base ≠ [0x2f]) :
    inSubtree base path = true ↔ ∃ rest, path = base ++ 0x2f :: rest := by
  have hupper : subtreeSuccessor base = base ++ [0x30] := by
    rw [subtreeSuccessor, normalize, if_pos h]
    exact if_neg hroot
  rw [inSubtree, hupper, and_eq_true, decide_eq_true_iff, decide_eq_true_iff]
  constructor
  · rintro ⟨hlow, hhigh⟩
    exact exists_under hlow hhigh
  · rintro ⟨rest, rfl⟩
    exact ⟨under_lower base rest, under_upper base rest⟩

/-- The part behind a path, cut by code points. -/
theorem substrFrom_append (base rest : Text) :
    substrFrom (base ++ 0x2f :: rest) (codePointLength base) = 0x2f :: rest := by
  rw [substrFrom, codePointLength, codePoints_cut _ _ slash_plain, drop_left,
    List.flatMap_cons, flatMap_codePoints]
  rfl

/-- Two paths over one name are the same, or one is under the other. -/
theorem under_cases (h : base ++ 0x2f :: rest = other ++ 0x2f :: rest') :
    (base = other ∧ rest = rest') ∨ (∃ middle, base = other ++ 0x2f :: middle ∧
      rest' = middle ++ 0x2f :: rest) ∨
      ∃ middle, other = base ++ 0x2f :: middle ∧ rest = middle ++ 0x2f :: rest' := by
  obtain ⟨more, hother, hrest⟩ | ⟨more, hbase, hrest⟩ := List.append_eq_append_iff.1 h
  · cases more with
    | nil =>
      rw [append_nil] at hother
      exact .inl ⟨hother.symm, (List.cons.inj hrest).2⟩
    | cons u more =>
      obtain ⟨rfl, htail⟩ := List.cons.inj hrest
      exact .inr (.inr ⟨more, hother, htail⟩)
  · cases more with
    | nil =>
      rw [append_nil] at hbase
      exact .inl ⟨hbase, (List.cons.inj hrest).2.symm⟩
    | cons u more =>
      obtain ⟨rfl, htail⟩ := List.cons.inj hrest
      exact .inr (.inl ⟨more, hbase, htail⟩)

/-- The parent of a name under a path is the path, or is under it. -/
theorem parent_within {parent : Text} {inode : Nat} (hbase : base ≠ [])
    (h : checkPath (base ++ 0x2f :: rest) parent inode = true) : Within base parent := by
  have hroot : base ++ 0x2f :: rest ≠ [0x2f] := by
    intro heq
    have hlength := congrArg List.length heq
    have hpos := List.length_pos_of_ne_nil hbase
    simp at hlength
    omega
  unfold checkPath at h
  rw [and_eq_true, if_neg hroot] at h
  have hparent := h.2
  split at hparent
  next =>
    rw [decide_eq_true_iff, List.drop_append_of_le_length (List.length_pos_of_ne_nil hbase)] at hparent
    exact absurd (List.mem_append_right _ mem_cons_self) hparent
  next =>
    rw [and_eq_true, and_eq_true, decide_eq_true_iff, decide_eq_true_iff,
      decide_eq_true_iff] at hparent
    obtain ⟨⟨-, name, hname⟩, hplain⟩ := hparent
    rw [append_assoc, List.singleton_append] at hname
    rw [← hname, ← List.drop_drop, drop_left, drop_one, tail_cons] at hplain
    obtain ⟨rfl, -⟩ | ⟨middle, rfl, -⟩ | ⟨middle, -, rfl⟩ := under_cases hname
    · exact ⟨[], .inl rfl, (append_nil _).symm⟩
    · exact ⟨_, .inr ⟨middle, rfl⟩, rfl⟩
    · exact absurd (List.mem_append_right _ mem_cons_self) hplain

theorem movedName_under (oldPath newPath rest : Text) :
    movedName oldPath newPath (oldPath ++ 0x2f :: rest) = newPath ++ 0x2f :: rest := by
  rw [movedName, substrFrom_append]

theorem movedLink_append {oldPath newPath suffix : Text} (h : IsSuffix suffix) :
    movedLink oldPath newPath (oldPath ++ suffix) = newPath ++ suffix := by
  unfold movedLink
  obtain rfl | ⟨rest, rfl⟩ := h
  · rw [append_nil, append_nil, if_pos rfl]
  · rw [if_neg (fun heq => cons_ne_nil _ _ (List.append_right_eq_self.1 heq)), movedName_under]

-- Rows that move

variable {tables after : FsTables} {oldPath newPath parent : Text} {entry : FsPath}

/-- What moving a name leaves alone. -/
structure SameNodes (tables after : FsTables) : Prop where
  nodes : after.nodes = tables.nodes
  chunks : after.chunks = tables.chunks
  rev : after.rev = tables.rev
  nextInode : after.nextInode = tables.nextInode
  links : ∀ inode, after.linkCount inode = tables.linkCount inode

theorem SameNodes.refl (tables : FsTables) : SameNodes tables tables := ⟨rfl, rfl, rfl, rfl, fun _ => rfl⟩

theorem SameNodes.trans (h : SameNodes tables middle)
    (hafter : SameNodes middle after) : SameNodes tables after where
  nodes := hafter.nodes.trans h.nodes
  chunks := hafter.chunks.trans h.chunks
  rev := hafter.rev.trans h.rev
  nextInode := hafter.nextInode.trans h.nextInode
  links := fun inode => (hafter.links inode).trans (h.links inode)

section

variable (h : movePath tables path newPath parent = .ok after)

include h

theorem movePath_ok :
    ∃ paths, tables.paths.rekey path newPath (fun entry => { entry with parent }) = some paths ∧
      after = { tables with paths } := by
  unfold movePath at h
  split at h
  · cases h
  · split at h
    · cases h
    next paths hpaths => exact ⟨paths, hpaths, (Except.ok.inj h).symm⟩

theorem movePath_same :
    SameNodes tables after := by
  obtain ⟨paths, hpaths, rfl⟩ := movePath_ok h
  exact ⟨rfl, rfl, rfl, rfl, fun inode =>
    KeyTable.countP_rekey (p := fun entry : FsPath => decide (entry.inode = inode)) hpaths fun _ => rfl⟩

theorem movePath_get (hentry : tables.paths.get path = some entry)
    (hfree : tables.paths.get newPath = none)
    (q : Text) :
    after.paths.get q =
      if q = newPath then some { entry with parent } else if q = path then none
      else tables.paths.get q := by
  obtain ⟨paths, hpaths, rfl⟩ := movePath_ok h
  exact KeyTable.get_rekey hpaths hentry hfree q

theorem movePath_none (hnone : tables.paths.get path = none) : after = tables := by
  obtain ⟨paths, hpaths, rfl⟩ := movePath_ok h
  rw [KeyTable.rekey_of_none hnone] at hpaths
  rw [← Option.some.inj hpaths]

end

theorem moveRows_same
    (h : rows.foldlM (moveRow oldPath newPath) tables = .ok after) : SameNodes tables after := by
  induction rows generalizing tables with
  | nil => rw [← Except.ok.inj h]; exact SameNodes.refl tables
  | cons row rows ih =>
    rw [List.foldlM_cons] at h
    obtain ⟨middle, hrow, hrest⟩ := bind_eq_ok.1 h
    exact (movePath_same hrow).trans (ih hrest)

/-- Rows that move to names that are free stand there, and no longer where they stood. -/
theorem moveRows_get (h : rows.foldlM (moveRow oldPath newPath) tables = .ok after)
    (hrows : ∀ row ∈ rows, tables.paths.get row.1 = some row.2)
    (hnodup : (rows.map Prod.fst).Nodup)
    (hfree : ∀ row ∈ rows, tables.paths.get (movedName oldPath newPath row.1) = none)
    (hinj : ∀ row ∈ rows, ∀ moved ∈ rows,
      movedName oldPath newPath row.1 = movedName oldPath newPath moved.1 → row.1 = moved.1) :
    (∀ row ∈ rows, after.paths.get (movedName oldPath newPath row.1) =
        some { row.2 with parent := movedLink oldPath newPath row.2.parent }) ∧
      ∀ q, (∀ row ∈ rows, q ≠ movedName oldPath newPath row.1) →
        after.paths.get q = if q ∈ rows.map Prod.fst then none else tables.paths.get q := by
  induction rows generalizing tables with
  | nil =>
    rw [← Except.ok.inj h]
    exact ⟨fun row hrow => absurd hrow List.not_mem_nil,
      fun q _ => (if_neg List.not_mem_nil).symm⟩
  | cons row rows ih =>
    rw [List.foldlM_cons] at h
    obtain ⟨middle, hrow, hrest⟩ := bind_eq_ok.1 h
    rw [List.map_cons, List.nodup_cons] at hnodup
    have hget := movePath_get hrow (hrows row mem_cons_self) (hfree row mem_cons_self)
    have hother : ∀ moved ∈ rows, moved.1 ≠ row.1 := fun moved hmoved heq =>
      hnodup.1 (heq ▸ List.mem_map_of_mem hmoved)
    have hgoal : ∀ moved ∈ rows, movedName oldPath newPath moved.1 ≠ movedName oldPath newPath row.1 :=
      fun moved hmoved heq => hother moved hmoved
        (hinj moved (mem_cons_of_mem _ hmoved) row mem_cons_self heq)
    have hkept : ∀ moved ∈ rows, moved.1 ≠ movedName oldPath newPath row.1 := by
      intro moved hmoved heq
      have hsome := hrows moved (mem_cons_of_mem _ hmoved)
      rw [heq, hfree row mem_cons_self] at hsome
      cases hsome
    obtain ⟨hmoved, hrestGet⟩ := ih hrest
      (fun moved hmem => by
        rw [hget, if_neg (hkept moved hmem), if_neg (hother moved hmem)]
        exact hrows moved (mem_cons_of_mem _ hmem))
      hnodup.2
      (fun moved hmem => by
        rw [hget, if_neg (hgoal moved hmem), hfree moved (mem_cons_of_mem _ hmem), ite_self])
      (fun moved hmem other hother =>
        hinj moved (mem_cons_of_mem _ hmem) other (mem_cons_of_mem _ hother))
    constructor
    · intro moved hmem
      obtain rfl | hmem := mem_cons.1 hmem
      · rw [hrestGet _ fun other hmem => (hgoal other hmem).symm, if_neg, hget, if_pos rfl]
        intro hkey
        obtain ⟨other, hmem, heq⟩ := List.mem_map.1 hkey
        exact hkept other hmem heq
      · exact hmoved moved hmem
    · intro q hq
      rw [hrestGet q fun other hmem => hq other (mem_cons_of_mem _ hmem), hget,
        if_neg (hq row mem_cons_self), List.map_cons]
      by_cases heq : q = row.1
      · rw [if_pos heq, ite_self, if_pos (heq ▸ mem_cons_self)]
      · rw [if_neg heq]
        refine if_congr ?_ rfl rfl
        rw [mem_cons]
        exact (or_iff_right heq).symm

-- The names

/-- The row of a name that has moved: its node, and its parent moved with it. -/
def movedEntry (oldPath newPath suffix : Text) (entry : FsPath) : FsPath :=
  { entry with
    parent := if suffix = [] then dirname newPath else newPath ++ entry.parent.drop oldPath.length }

theorem movedEntry_under (hparent : Within oldPath entry.parent) (rest : Text) :
    { entry with parent := movedLink oldPath newPath entry.parent } =
      movedEntry oldPath newPath (0x2f :: rest) entry := by
  obtain ⟨suffix, hsuffix, hlink⟩ := hparent
  rw [movedEntry, if_neg (cons_ne_nil _ _), hlink, movedLink_append hsuffix, drop_left]

theorem dropTarget_get (q : Text) :
    (dropTarget tables path).paths.get q = if q = path then none else tables.paths.get q :=
  KeyTable.get_keep_ne q

theorem mem_subtreeRows (hbase : isCanonicalPath base = true) (hroot : base ≠ [0x2f])
    {row : Text × FsPath} :
    row ∈ subtreeRows tables base ↔
      tables.paths.get row.1 = some row.2 ∧ ∃ rest, row.1 = base ++ 0x2f :: rest := by
  rw [subtreeRows, (List.mergeSort_perm _ _).mem_iff, List.mem_filter, inSubtree_iff hbase hroot,
    ← KeyTable.mem_rows]

theorem nodup_subtreeRows : ((subtreeRows tables base).map Prod.fst).Nodup := by
  rw [subtreeRows, ((List.mergeSort_perm _ _).map Prod.fst).nodup_iff]
  exact tables.paths.unique.sublist (List.filter_sublist.map _)

/-- A source and a destination that do not meet. -/
structure Apart (tables : FsTables) (oldPath newPath : Text) : Prop where
  source : isCanonicalPath oldPath = true
  source_root : oldPath ≠ [0x2f]
  differ : oldPath ≠ newPath
  outside : ∀ rest, newPath ≠ oldPath ++ 0x2f :: rest
  childless : ∀ rest, tables.paths.get (newPath ++ 0x2f :: rest) = none
  links : ∀ rest entry, tables.paths.get (oldPath ++ 0x2f :: rest) = some entry →
    Within oldPath entry.parent

theorem Apart.dropped (h : Apart tables oldPath newPath) (rest : Text) :
    (dropTarget tables newPath).paths.get (oldPath ++ 0x2f :: rest) =
      tables.paths.get (oldPath ++ 0x2f :: rest) := by
  rw [dropTarget_get, if_neg (h.outside rest).symm]

/-- No row under the old path stands under the new one. -/
theorem Apart.ne (h : Apart tables oldPath newPath) {rest' : Text}
    (hentry : tables.paths.get (oldPath ++ 0x2f :: rest) = some entry) :
    oldPath ++ 0x2f :: rest' ≠ newPath ++ 0x2f :: rest := by
  intro heq
  obtain ⟨hsame, -⟩ | ⟨middle, hold, -⟩ | ⟨middle, hnew, -⟩ := under_cases heq
  · exact h.differ hsame
  · have hnone := h.childless (middle ++ 0x2f :: rest)
    rw [← List.cons_append, ← append_assoc, ← hold, hentry] at hnone
    cases hnone
  · exact h.outside middle hnew

/-- What stands after the rows under the old path have moved. -/
theorem moveSubtree_get (h : Apart tables oldPath newPath)
    (hrun : moveSubtree (dropTarget tables newPath) oldPath newPath = .ok after) :
    (∀ rest, after.paths.get (newPath ++ 0x2f :: rest) =
        (tables.paths.get (oldPath ++ 0x2f :: rest)).map
          (movedEntry oldPath newPath (0x2f :: rest))) ∧
      (∀ rest, after.paths.get (oldPath ++ 0x2f :: rest) = none) ∧
      ∀ q, (∀ rest, q ≠ oldPath ++ 0x2f :: rest) → (∀ rest, q ≠ newPath ++ 0x2f :: rest) →
        after.paths.get q = if q = newPath then none else tables.paths.get q := by
  have hmem := fun row => @mem_subtreeRows oldPath (dropTarget tables newPath) h.source h.source_root row
  have hchildless : ∀ rest, (dropTarget tables newPath).paths.get (newPath ++ 0x2f :: rest) = none := by
    intro rest
    rw [dropTarget_get, h.childless, ite_self]
  obtain ⟨hmoved, hkept⟩ := moveRows_get hrun (fun row hrow => ((hmem row).1 hrow).1) nodup_subtreeRows
    (fun row hrow => by
      obtain ⟨-, rest, hrest⟩ := (hmem row).1 hrow
      rw [hrest, movedName_under, hchildless])
    (fun row hrow other hother heq => by
      obtain ⟨-, rest, hrest⟩ := (hmem row).1 hrow
      obtain ⟨-, rest', hrest'⟩ := (hmem other).1 hother
      rw [hrest, hrest', movedName_under, movedName_under] at heq
      rw [hrest, hrest', List.append_cancel_left heq])
  -- A name that no row moves to.
  have hget : ∀ q, (∀ rest entry, tables.paths.get (oldPath ++ 0x2f :: rest) = some entry →
      q ≠ newPath ++ 0x2f :: rest) → after.paths.get q =
        if q ∈ (subtreeRows (dropTarget tables newPath) oldPath).map Prod.fst then none
        else (dropTarget tables newPath).paths.get q := by
    intro q hq
    refine hkept q fun row hrow => ?_
    obtain ⟨hentry, rest, hrest⟩ := (hmem row).1 hrow
    rw [hrest, movedName_under]
    rw [hrest, h.dropped] at hentry
    exact hq rest _ hentry
  refine ⟨fun rest => ?_, fun rest => ?_, fun q hold hnew => ?_⟩
  · cases hentry : tables.paths.get (oldPath ++ 0x2f :: rest) with
    | none =>
      rw [hget, hchildless, ite_self, map_none]
      intro rest' entry hentry' heq
      rw [← List.cons.inj (List.append_cancel_left heq) |>.2, hentry] at hentry'
      cases hentry'
    | some entry =>
      have hrow := hmoved (oldPath ++ 0x2f :: rest, entry)
        ((hmem _).2 ⟨(h.dropped rest).trans hentry, rest, rfl⟩)
      rw [movedName_under] at hrow
      rw [hrow, map_some, movedEntry_under (h.links rest entry hentry)]
  · rw [hget _ fun rest' entry hentry => h.ne hentry]
    split
    next => rfl
    next hkey =>
      cases hentry : (dropTarget tables newPath).paths.get (oldPath ++ 0x2f :: rest) with
      | none => rfl
      | some entry =>
        exact absurd (List.mem_map_of_mem ((hmem (_, entry)).2 ⟨hentry, rest, rfl⟩)) hkey
  · rw [hget q fun rest _ _ => hnew rest, if_neg, dropTarget_get]
    intro hkey
    obtain ⟨row, hrow, rfl⟩ := List.mem_map.1 hkey
    obtain ⟨-, rest, hrest⟩ := (hmem row).1 hrow
    exact hold rest hrest

/-- The names after a rename: those at and under the old path are those at and under the new one. -/
structure NamesMoved (tables : FsTables) (oldPath newPath : Text) (after : FsTables) : Prop where
  moved : ∀ suffix, IsSuffix suffix → after.paths.get (newPath ++ suffix) =
    (tables.paths.get (oldPath ++ suffix)).map (movedEntry oldPath newPath suffix)
  gone : ∀ suffix, IsSuffix suffix → after.paths.get (oldPath ++ suffix) = none
  others : ∀ q, ¬ Within oldPath q → ¬ Within newPath q → after.paths.get q = tables.paths.get q

theorem not_within (h : ¬ Within base path) : path ≠ base ∧ ∀ rest, path ≠ base ++ 0x2f :: rest :=
  ⟨fun heq => h ⟨[], .inl rfl, heq.trans (append_nil _).symm⟩,
    fun rest heq => h ⟨_, .inr ⟨rest, rfl⟩, heq⟩⟩

theorem moveNames (h : Apart tables oldPath newPath)
    (hrun : moveSubtree (dropTarget tables newPath) oldPath newPath = .ok middle)
    (hroot : movePath middle oldPath newPath (dirname newPath) = .ok after) :
    NamesMoved tables oldPath newPath after := by
  obtain ⟨hmoved, hgone, hothers⟩ := moveSubtree_get h hrun
  have hunder : ∀ {base other : Text}, base ≠ base ++ 0x2f :: other := fun heq =>
    cons_ne_nil _ _ (List.append_right_eq_self.1 heq.symm)
  have hnew : middle.paths.get newPath = none := by
    rw [hothers newPath h.outside fun _ => hunder, if_pos rfl]
  cases hentry : tables.paths.get oldPath with
  | none =>
    -- Without a source the last statement finds no row.
    have hold : middle.paths.get oldPath = none := by
      by_cases hbelow : ∃ rest, oldPath = newPath ++ 0x2f :: rest
      · obtain ⟨rest, hrest⟩ := hbelow
        have hnone := h.childless (rest ++ 0x2f :: rest)
        rw [← List.cons_append, ← append_assoc, ← hrest] at hnone
        rw [hrest, hmoved, hnone, map_none]
      · rw [hothers oldPath (fun _ => hunder) fun rest heq => hbelow ⟨rest, heq⟩, if_neg h.differ,
          hentry]
    rw [movePath_none hroot hold]
    refine ⟨?_, ?_, fun q hqold hqnew => ?_⟩
    · rintro suffix (rfl | ⟨rest, rfl⟩)
      · rw [append_nil, append_nil, hnew, hentry, map_none]
      · exact hmoved rest
    · rintro suffix (rfl | ⟨rest, rfl⟩)
      · rw [append_nil, hold]
      · exact hgone rest
    · rw [hothers q (not_within hqold).2 (not_within hqnew).2, if_neg (not_within hqnew).1]
  | some entry =>
    have happart : ∀ rest, oldPath ≠ newPath ++ 0x2f :: rest := by
      intro rest heq
      rw [heq, h.childless] at hentry
      cases hentry
    have hold : middle.paths.get oldPath = some entry := by
      rw [hothers oldPath (fun _ => hunder) happart, if_neg h.differ, hentry]
    have hget := movePath_get hroot hold hnew
    refine ⟨?_, ?_, fun q hqold hqnew => ?_⟩
    · rintro suffix (rfl | ⟨rest, rfl⟩)
      · rw [append_nil, append_nil, hget, if_pos rfl, hentry]
        rfl
      · rw [hget, if_neg hunder.symm, if_neg (happart rest).symm, hmoved]
    · rintro suffix (rfl | ⟨rest, rfl⟩)
      · rw [append_nil, hget, if_neg h.differ, if_pos rfl]
      · rw [hget, if_neg (h.outside rest).symm, if_neg hunder.symm, hgone]
    · rw [hget, if_neg (not_within hqnew).1, if_neg (not_within hqold).1,
        hothers q (not_within hqold).2 (not_within hqnew).2, if_neg (not_within hqnew).1]

-- The nodes

variable {inode : Nat}

/-- A node that a path does not name keeps its row and its chunks. -/
theorem dropTarget_other (h : ∀ entry, tables.paths.get path = some entry → entry.inode ≠ inode) :
    (dropTarget tables path).nodes.get inode = tables.nodes.get inode ∧
      ∀ index, (dropTarget tables path).chunks.get (inode, index) = tables.chunks.get (inode, index) := by
  have htarget : some inode ≠ (tables.paths.get path).map FsPath.inode := by
    intro heq
    obtain ⟨entry, hentry, hinode⟩ := map_eq_some_iff.1 heq.symm
    exact h entry hentry hinode
  unfold dropTarget
  dsimp only
  refine ⟨?_, fun index => ?_⟩
  · rw [KeyTable.get_update, KeyTable.get_keep]
    cases tables.nodes.get inode with
    | none => rfl
    | some node => simp [htarget]
  · rw [KeyTable.get_keep]
    cases tables.chunks.get (inode, index) with
    | none => rfl
    | some bytes => simp [htarget]

/-- The names of a node that are counted. -/
theorem dropTarget_links (hentry : tables.paths.get path = some entry) :
    tables.linkCount entry.inode = (dropTarget tables path).linkCount entry.inode + 1 := by
  have hcount := KeyTable.countP_keep (fun row => decide (row.2.inode = entry.inode)) hentry
  rw [if_pos (decide_eq_true rfl)] at hcount
  exact hcount

/-- The node that a path names goes with its last name, and keeps the count of its names else. -/
theorem dropTarget_target (hentry : tables.paths.get path = some entry) :
    (tables.linkCount entry.inode = 1 → (dropTarget tables path).nodes.get entry.inode = none ∧
        ∀ index, (dropTarget tables path).chunks.get (entry.inode, index) = none) ∧
      (1 < tables.linkCount entry.inode →
        (dropTarget tables path).nodes.get entry.inode =
            (tables.nodes.get entry.inode).map (fun node =>
              { node with nlink := tables.linkCount entry.inode - 1, rev := tables.rev }) ∧
          ∀ index, (dropTarget tables path).chunks.get (entry.inode, index) =
            tables.chunks.get (entry.inode, index)) := by
  have hnames : (tables.paths.rows.countP fun row => some row.2.inode = some entry.inode) =
      tables.linkCount entry.inode :=
    List.countP_congr fun row _ => by simp
  unfold dropTarget
  dsimp only
  rw [hentry, map_some, hnames, KeyTable.get_update, KeyTable.get_keep]
  refine ⟨fun hone => ⟨?_, fun index => ?_⟩, fun hmany => ⟨?_, fun index => ?_⟩⟩
  · rw [hone]
    cases tables.nodes.get entry.inode <;> simp
  · rw [KeyTable.get_keep, hone]
    cases tables.chunks.get (entry.inode, index) <;> simp
  · have hne : ¬ 1 = tables.linkCount entry.inode := Nat.ne_of_lt hmany
    cases tables.nodes.get entry.inode <;> simp [hne, hmany]
  · have hne : ¬ 1 = tables.linkCount entry.inode := Nat.ne_of_lt hmany
    rw [KeyTable.get_keep]
    cases tables.chunks.get (entry.inode, index) <;> simp [hne]

/-- A node that is named at or under a path. -/
def NamedWithin (tables : FsTables) (base : Text) (inode : Nat) : Prop :=
  ∃ suffix entry, IsSuffix suffix ∧ tables.paths.get (base ++ suffix) = some entry ∧
    entry.inode = inode

theorem touchSubtree_get (hbase : isCanonicalPath base = true) (hroot : base ≠ [0x2f])
    [Decidable (NamedWithin tables base inode)] :
    (touchSubtree tables base).nodes.get inode = (tables.nodes.get inode).map fun node =>
      if NamedWithin tables base inode then { node with rev := tables.rev } else node := by
  have hnamed : (tables.paths.rows.any fun row =>
      row.2.inode = inode && (row.1 = base || inSubtree base row.1)) = true ↔
        NamedWithin tables base inode := by
    simp only [List.any_eq_true, and_eq_true, Bool.or_eq_true, decide_eq_true_eq,
      inSubtree_iff hbase hroot]
    constructor
    · rintro ⟨⟨name, entry⟩, hrow, hinode, rfl | ⟨rest, rfl⟩⟩
      · exact ⟨[], entry, .inl rfl, by rw [append_nil]; exact KeyTable.mem_rows.1 hrow, hinode⟩
      · exact ⟨_, entry, .inr ⟨rest, rfl⟩, KeyTable.mem_rows.1 hrow, hinode⟩
    · rintro ⟨suffix, entry, rfl | ⟨rest, rfl⟩, hentry, hinode⟩
      · rw [append_nil] at hentry
        exact ⟨(base, entry), KeyTable.mem_rows.2 hentry, hinode, .inl rfl⟩
      · exact ⟨(_, entry), KeyTable.mem_rows.2 hentry, hinode, .inr ⟨rest, rfl⟩⟩
  unfold touchSubtree
  dsimp only
  rw [KeyTable.get_update]
  congr 1
  funext node
  exact if_congr hnamed rfl rfl

-- A file system

/-- What the schema and the operations keep of a file system: every row passes its check, every
    parent is a directory, and a directory has one name. -/
structure FsTables.Tree (tables : FsTables) : Prop where
  checked : ∀ path entry, tables.paths.get path = some entry →
    checkPath path entry.parent entry.inode = true
  root : ∃ inode node, tables.nodeAt [0x2f] = some (inode, node) ∧ node.type = .dir
  parents : ∀ path entry, tables.paths.get path = some entry → path ≠ [0x2f] →
    ∃ inode node, tables.nodeAt entry.parent = some (inode, node) ∧ node.type = .dir
  single : ∀ path other inode node entry, tables.nodeAt path = some (inode, node) → node.type = .dir →
    tables.paths.get other = some entry → entry.inode = inode → path = other

theorem nodeAt_entry {node : FsNode} (h : tables.nodeAt path = some (inode, node)) :
    ∃ entry, tables.paths.get path = some entry ∧ entry.inode = inode := by
  obtain ⟨entry, hentry, hnode⟩ := Option.bind_eq_some_iff.1 h
  obtain ⟨other, -, heq⟩ := map_eq_some_iff.1 hnode
  exact ⟨entry, hentry, (Prod.mk.inj heq).1⟩

theorem parent_shorter (hpath : path ≠ [0x2f]) (h : checkPath path parent inode = true) :
    parent.length < path.length := by
  unfold checkPath at h
  rw [and_eq_true, if_neg hpath] at h
  obtain ⟨hshape, hparent⟩ := h
  simp only [and_eq_true, decide_eq_true_eq] at hshape
  split at hparent
  next hroot =>
    obtain ⟨rest, rfl⟩ := List.head?_eq_some_iff.1 (by tauto : path.head? = some 0x2f)
    rw [hroot]
    cases rest with
    | nil => exact absurd rfl hpath
    | cons u rest => simp
  next =>
    rw [and_eq_true, and_eq_true, decide_eq_true_iff, decide_eq_true_iff] at hparent
    have hle := hparent.1.2.length_le
    rw [length_append] at hle
    exact hle

theorem dirname_cut {name : Text} (h : isCanonicalPath (base ++ 0x2f :: name) = true)
    (hname : 0x2f ∉ name) : dirname (base ++ 0x2f :: name) = if base = [] then [0x2f] else base := by
  have hcut : (base ++ 0x2f :: name).reverse.dropWhile (· ≠ 0x2f) = 0x2f :: base.reverse := by
    rw [List.reverse_append, List.reverse_cons, append_assoc, List.singleton_append,
      List.dropWhile_append_of_pos, List.dropWhile_cons_of_neg (by simp)]
    intro u hu
    rw [List.mem_reverse] at hu
    exact decide_eq_true fun heq => hname (heq ▸ hu)
  rw [dirname, normalize, if_pos h, hcut, drop_one, tail_cons, List.reverse_reverse]

/-- The parent of a row is the directory of its path. -/
theorem dirname_checked (h : isCanonicalPath path = true) (hpath : path ≠ [0x2f])
    (hcheck : checkPath path parent inode = true) : dirname path = parent := by
  unfold checkPath at hcheck
  rw [and_eq_true, if_neg hpath] at hcheck
  have hparent := hcheck.2
  split at hparent
  next hroot =>
    obtain rfl | ⟨rest, rfl, -⟩ := canonical_cases h
    · exact absurd rfl hpath
    · rw [decide_eq_true_iff] at hparent
      rw [hroot]
      exact @dirname_cut [] rest h hparent
  next =>
    rw [and_eq_true, and_eq_true, decide_eq_true_iff, decide_eq_true_iff,
      decide_eq_true_iff] at hparent
    obtain ⟨⟨hne, name, hname⟩, hplain⟩ := hparent
    rw [append_assoc, List.singleton_append] at hname
    rw [← hname, ← List.drop_drop, drop_left, drop_one, tail_cons] at hplain
    rw [← hname] at h ⊢
    rw [dirname_cut h hplain, if_neg hne]

/-- A node with two names has nothing under either. -/
theorem FsTables.Tree.childless (h : tables.Tree) {entry' : FsPath} (hbase : base ≠ [])
    (hentry : tables.paths.get base = some entry) (hother : tables.paths.get other = some entry')
    (hinode : entry'.inode = entry.inode) (hne : base ≠ other) (rest : Text) :
    tables.paths.get (base ++ 0x2f :: rest) = none := by
  induction hn : rest.length using Nat.strongRecOn generalizing rest with
  | ind n ih =>
    subst hn
    cases hchild : tables.paths.get (base ++ 0x2f :: rest) with
    | none => rfl
    | some child =>
      have hroot : base ++ 0x2f :: rest ≠ [0x2f] := by
        intro heq
        have hlength := congrArg List.length heq
        have hpos := List.length_pos_of_ne_nil hbase
        rw [length_append, length_cons, List.length_singleton] at hlength
        omega
      have hcheck := h.checked _ _ hchild
      have hshorter := parent_shorter hroot hcheck
      obtain ⟨i, node, hnode, hdir⟩ := h.parents _ _ hchild hroot
      obtain ⟨found, hfound, hi⟩ := nodeAt_entry hnode
      obtain ⟨suffix, rfl | ⟨middle, rfl⟩, hparent⟩ := parent_within hbase hcheck
      · rw [append_nil] at hparent
        rw [hparent] at hnode hfound
        rw [hentry] at hfound
        cases hfound
        exact absurd (h.single _ _ _ _ _ hnode hdir hother (hinode.trans hi)) hne
      · rw [hparent] at hfound hshorter
        rw [length_append, length_append, length_cons, length_cons] at hshorter
        rw [ih middle.length (by omega) middle rfl] at hfound
        cases hfound

-- The rename

/-- A node that a path does not name. -/
def Spared (tables : FsTables) (path : Text) (inode : Nat) : Prop :=
  ∀ entry, tables.paths.get path = some entry → entry.inode ≠ inode

/-- The store after a rename: the subtree has moved, the node that was replaced has one name less,
    and nothing else has changed but the revision of the nodes that moved. -/
structure Renamed (tables : FsTables) (oldPath newPath : Text) (after : FsTables) : Prop
    extends NamesMoved tables oldPath newPath after where
  links : ∀ rest entry, tables.paths.get (oldPath ++ 0x2f :: rest) = some entry →
    Within oldPath entry.parent
  rev : after.rev = tables.rev + 1
  nextInode : after.nextInode = tables.nextInode
  nodes_moved : ∀ inode, Spared tables newPath inode → NamedWithin tables oldPath inode →
    after.nodes.get inode =
      (tables.nodes.get inode).map fun node => { node with rev := tables.rev + 1 }
  nodes_others : ∀ inode, Spared tables newPath inode → ¬ NamedWithin tables oldPath inode →
    after.nodes.get inode = tables.nodes.get inode
  chunks_others : ∀ inode index, Spared tables newPath inode →
    after.chunks.get (inode, index) = tables.chunks.get (inode, index)
  replaced : ∀ entry, tables.paths.get newPath = some entry →
    tables.linkCount entry.inode = after.linkCount entry.inode + 1
  unlinked : ∀ entry, tables.paths.get newPath = some entry → after.linkCount entry.inode = 0 →
    after.nodes.get entry.inode = none ∧
      ∀ index, after.chunks.get (entry.inode, index) = none
  linked : ∀ entry, tables.paths.get newPath = some entry → 0 < after.linkCount entry.inode →
    after.nodes.get entry.inode = (tables.nodes.get entry.inode).map (fun node =>
      { node with nlink := after.linkCount entry.inode, rev := tables.rev + 1 }) ∧
        ∀ index, after.chunks.get (entry.inode, index) = tables.chunks.get (entry.inode, index)

theorem recordReplaced_ok {replaced : List Text} (h : recordReplaced tables replaced = .ok after) :
    [0x2f] ∉ replaced ∧ after = tables := by
  unfold recordReplaced at h
  split at h
  · cases h
  next hroot => exact ⟨hroot, (Except.ok.inj h).symm⟩

theorem ne_nil_of_canonical (h : isCanonicalPath path = true) : path ≠ [] := by
  rintro rfl
  cases h

/-- The branch for two nodes. -/
theorem replaceTarget_renamed (h : tables.Tree) (hold : isCanonicalPath oldPath = true)
    (hnew : isCanonicalPath newPath = true) (houtside : ∀ rest, newPath ≠ oldPath ++ 0x2f :: rest)
    (hne : oldPath ≠ newPath) (hrun : replaceTarget tables oldPath newPath = .ok after) :
    Renamed tables oldPath newPath after := by
  classical
  unfold replaceTarget at hrun
  split at hrun
  · cases hrun
  next hchild =>
    obtain ⟨middle, hsubtree, hrun⟩ := bind_eq_ok.1 hrun
    obtain ⟨moved, hroot, hrecord⟩ := bind_eq_ok.1 hrun
    obtain ⟨hroots, rfl⟩ := recordReplaced_ok hrecord
    rw [mem_cons, List.mem_singleton, not_or] at hroots
    have hlinks : ∀ rest entry, tables.paths.get (oldPath ++ 0x2f :: rest) = some entry →
        Within oldPath entry.parent := fun rest entry hentry =>
      parent_within (ne_nil_of_canonical hold) (h.checked _ _ hentry)
    have hapart : Apart tables.bumpRev oldPath newPath := by
      refine ⟨hold, (Ne.symm hroots.1), hne, houtside, fun rest => ?_, hlinks⟩
      cases hentry : tables.paths.get (newPath ++ 0x2f :: rest) with
      | none => exact hentry
      | some entry =>
        refine absurd ?_ hchild
        rw [List.any_eq_true]
        exact ⟨(_, entry), KeyTable.mem_rows.2 hentry, (inSubtree_iff hnew (Ne.symm hroots.2)).2 ⟨rest, rfl⟩⟩
    have hnames := moveNames hapart hsubtree hroot
    have hsame := (moveRows_same hsubtree).trans (movePath_same hroot)
    have hnamed : ∀ inode, NamedWithin moved newPath inode ↔ NamedWithin tables oldPath inode := by
      intro inode
      constructor
      · rintro ⟨suffix, entry, hsuffix, hentry, hinode⟩
        rw [hnames.moved suffix hsuffix] at hentry
        obtain ⟨found, hfound, rfl⟩ := map_eq_some_iff.1 hentry
        exact ⟨suffix, found, hsuffix, hfound, hinode⟩
      · rintro ⟨suffix, entry, hsuffix, hentry, hinode⟩
        exact ⟨suffix, _, hsuffix,
          (hnames.moved suffix hsuffix).trans (congrArg (Option.map _) hentry), hinode⟩
    have hnodes : ∀ inode, (touchSubtree moved newPath).nodes.get inode =
        ((dropTarget tables.bumpRev newPath).nodes.get inode).map fun node =>
          if NamedWithin tables oldPath inode then { node with rev := tables.rev + 1 } else node := by
      intro inode
      rw [touchSubtree_get hnew (Ne.symm hroots.2), hsame.nodes, hsame.rev]
      congr 1
      funext node
      exact if_congr (hnamed inode) rfl rfl
    have hchunks : (touchSubtree moved newPath).chunks = (dropTarget tables.bumpRev newPath).chunks :=
      hsame.chunks
    have hcount : ∀ entry, tables.paths.get newPath = some entry →
        tables.linkCount entry.inode = (touchSubtree moved newPath).linkCount entry.inode + 1 :=
      fun entry hentry =>
        (@dropTarget_links newPath tables.bumpRev entry hentry).trans
          (congrArg (· + 1) (hsame.links entry.inode).symm)
    refine ⟨⟨hnames.moved, hnames.gone, hnames.others⟩, hlinks, hsame.rev, hsame.nextInode,
      fun inode hspared hmoves => ?_, fun inode hspared hmoves => ?_, fun inode index hspared => ?_,
      hcount, fun entry hentry hzero => ?_, fun entry hentry hpos => ?_⟩
    · rw [hnodes, (@dropTarget_other newPath tables.bumpRev inode hspared).1]
      simp only [if_pos hmoves]
      rfl
    · rw [hnodes, (@dropTarget_other newPath tables.bumpRev inode hspared).1]
      simp only [if_neg hmoves, map_id']
      rfl
    · rw [hchunks]
      exact (@dropTarget_other newPath tables.bumpRev inode hspared).2 index
    · obtain ⟨hnode, hgone⟩ := (@dropTarget_target newPath tables.bumpRev entry hentry).1
        ((hcount entry hentry).trans (congrArg (· + 1) hzero))
      rw [hnodes, hnode, hchunks]
      exact ⟨rfl, hgone⟩
    · have hmany := hcount entry hentry
      obtain ⟨hnode, hkept⟩ := (@dropTarget_target newPath tables.bumpRev entry hentry).2
        (show 1 < tables.linkCount entry.inode by omega)
      rw [hnodes, hnode, hchunks, Option.map_map]
      refine ⟨?_, hkept⟩
      show Option.map _ (tables.nodes.get entry.inode) = _
      congr 1
      funext node
      have hlinks' : tables.bumpRev.linkCount entry.inode - 1 =
          (touchSubtree moved newPath).linkCount entry.inode := by
        rw [show tables.bumpRev.linkCount entry.inode = tables.linkCount entry.inode from rfl, hmany]
        exact Nat.add_sub_cancel _ _
      rw [Function.comp_apply, hlinks']
      split <;> rfl

/-- The branch for two names of one node: the old one goes. -/
theorem dropName_renamed (h : tables.Tree) (hold : isCanonicalPath oldPath = true)
    (hne : oldPath ≠ newPath) {target : FsPath} (hsource : tables.paths.get oldPath = some entry)
    (htarget : tables.paths.get newPath = some target) (hinode : target.inode = entry.inode)
    (hnew : isCanonicalPath newPath = true) :
    Renamed tables oldPath newPath (dropName tables.bumpRev oldPath entry.inode) := by
  have hget : ∀ q, (dropName tables.bumpRev oldPath entry.inode).paths.get q =
      if q = oldPath then none else tables.paths.get q := KeyTable.get_keep_ne
  have hnodes : ∀ inode, (dropName tables.bumpRev oldPath entry.inode).nodes.get inode =
      (tables.nodes.get inode).map fun node =>
        if inode = entry.inode then
          { node with
            nlink := (dropName tables.bumpRev oldPath entry.inode).linkCount inode
            rev := tables.rev + 1 }
        else node := fun inode => KeyTable.get_update
  have hunderOld := h.childless (ne_nil_of_canonical hold) hsource htarget hinode hne
  have hunderNew := h.childless (ne_nil_of_canonical hnew) htarget hsource hinode.symm hne.symm
  have hcount : tables.linkCount target.inode =
      (dropName tables.bumpRev oldPath entry.inode).linkCount target.inode + 1 := by
    have hkeep := KeyTable.countP_keep (fun row => decide (row.2.inode = target.inode)) hsource
    rw [if_pos (decide_eq_true hinode.symm)] at hkeep
    exact hkeep
  have hpos : 0 < (dropName tables.bumpRev oldPath entry.inode).linkCount target.inode := by
    have hkept := (hget newPath).trans (if_neg hne.symm)
    rw [htarget] at hkept
    exact List.countP_pos_iff.2 ⟨(newPath, target), KeyTable.mem_rows.2 hkept, decide_eq_true rfl⟩
  have hothers : ∀ inode, Spared tables newPath inode → inode ≠ entry.inode :=
    fun inode hspared heq => hspared target htarget (hinode.trans heq.symm)
  have honly : ∀ found, tables.paths.get newPath = some found → found = target :=
    fun found hfound => Option.some.inj (hfound.symm.trans htarget)
  have hroot : newPath ≠ [0x2f] := by
    rintro rfl
    obtain ⟨i, node, hnode, hdir⟩ := h.root
    obtain ⟨found, hfound, hi⟩ := nodeAt_entry hnode
    rw [honly found hfound] at hi
    exact hne (h.single _ _ _ _ _ hnode hdir hsource (hinode.symm.trans hi)).symm
  refine ⟨⟨?_, ?_, fun q hqold _ => ?_⟩, fun rest entry hentry => ?_, rfl, rfl,
    fun inode hspared hmoves => ?_, fun inode hspared _ => ?_, fun inode index _ => rfl,
    fun found hfound => ?_, fun found hfound hzero => ?_, fun found hfound _ => ?_⟩
  · rintro suffix (rfl | ⟨rest, rfl⟩)
    · have hparent := dirname_checked hnew hroot (h.checked _ _ htarget)
      rw [append_nil, append_nil, hget, if_neg hne.symm, htarget, hsource, map_some,
        movedEntry, if_pos rfl, hparent, ← hinode]
    · rw [hget, hunderNew, ite_self, hunderOld, map_none]
  · rintro suffix (rfl | ⟨rest, rfl⟩)
    · rw [append_nil, hget, if_pos rfl]
    · rw [hget, hunderOld, ite_self]
  · rw [hget, if_neg (not_within hqold).1]
  · rw [hunderOld] at hentry
    cases hentry
  · obtain ⟨suffix, found, rfl | ⟨rest, rfl⟩, hfound, rfl⟩ := hmoves
    · rw [append_nil, hsource] at hfound
      exact absurd (congrArg FsPath.inode (Option.some.inj hfound)).symm (hothers _ hspared)
    · rw [hunderOld] at hfound
      cases hfound
  · rw [hnodes]
    simp only [if_neg (hothers inode hspared), map_id']
  · rw [honly found hfound]
    exact hcount
  · rw [honly found hfound] at hzero
    omega
  · rw [honly found hfound, hnodes]
    refine ⟨?_, fun index => rfl⟩
    simp only [if_pos hinode]

/-- A rename that is accepted moves the subtree of its source and nothing else, and one that is
    refused changes nothing. -/
theorem renameRaw_moves (h : tables.Tree) (hold : isCanonicalPath oldPath = true)
    (hnew : isCanonicalPath newPath = true) (houtside : ∀ rest, newPath ≠ oldPath ++ 0x2f :: rest) :
    (oldPath = newPath → renameRaw tables oldPath newPath = .ok tables) ∧
      (∀ after, oldPath ≠ newPath → renameRaw tables oldPath newPath = .ok after →
        Renamed tables oldPath newPath after) ∧
      ∀ error, renameRaw tables oldPath newPath = .error error →
        tables.commit (renameRaw tables oldPath newPath) = tables := by
  refine ⟨fun heq => if_pos heq, fun after hne hrun => ?_, fun error herror => ?_⟩
  · rw [renameRaw, if_neg hne] at hrun
    dsimp only at hrun
    split at hrun
    next inode hsource =>
      obtain ⟨entry, hentry, rfl⟩ := map_eq_some_iff.1 hsource
      split at hrun
      next hsame =>
        obtain ⟨target, htarget, hinode⟩ := map_eq_some_iff.1 hsame.symm
        obtain ⟨-, rfl⟩ := recordReplaced_ok hrun
        exact dropName_renamed h hold hne hentry htarget hinode hnew
      next => exact replaceTarget_renamed h hold hnew houtside hne hrun
    next => exact replaceTarget_renamed h hold hnew houtside hne hrun
  · rw [herror]
    rfl

theorem oneFile_tree : oneFile.Tree := by
  have hpaths : ∀ {name : Text} {entry : FsPath}, oneFile.paths.get name = some entry →
      (name = text "/" ∧ entry = { parent := [], inode := 1 }) ∨
        (name = text "/a" ∧ entry = { parent := text "/", inode := 2 }) := by
    intro name entry hentry
    simpa [oneFile] using KeyTable.mem_rows.2 hentry
  have hroot : oneFile.nodeAt [0x2f] = some (1, directoryNode) := by decide +kernel
  refine ⟨fun name entry hentry => ?_, ⟨1, directoryNode, hroot, rfl⟩, fun name entry hentry hname => ?_,
    fun name other inode node entry hnode hdir hother hinode => ?_⟩
  · obtain ⟨rfl, rfl⟩ | ⟨rfl, rfl⟩ := hpaths hentry
    · decide +kernel
    · decide +kernel
  · obtain ⟨rfl, rfl⟩ | ⟨rfl, rfl⟩ := hpaths hentry
    · exact absurd (by decide +kernel) hname
    · exact ⟨1, directoryNode, hroot, rfl⟩
  · obtain ⟨found, hfound, rfl⟩ := nodeAt_entry hnode
    obtain ⟨rfl, rfl⟩ | ⟨rfl, rfl⟩ := hpaths hfound
    · obtain ⟨rfl, -⟩ | ⟨-, rfl⟩ := hpaths hother
      · rfl
      · cases hinode
    · have hfile : oneFile.nodeAt (text "/a") = some (2, fileNode 2) := by decide +kernel
      rw [hfile] at hnode
      obtain ⟨-, rfl⟩ := Prod.mk.inj (Option.some.inj hnode)
      cases hdir

theorem oneFile_renamed : ∃ after, renameRaw oneFile (text "/a") (text "/b") = .ok after ∧
    Renamed oneFile (text "/a") (text "/b") after := by
  have haccepted : (renameRaw oneFile (text "/a") (text "/b")).isOk = true := by decide +kernel
  cases hrun : renameRaw oneFile (text "/a") (text "/b") with
  | error error =>
    rw [hrun] at haccepted
    cases haccepted
  | ok after =>
    refine ⟨after, rfl, (renameRaw_moves oneFile_tree (by decide +kernel) (by decide +kernel)
      fun rest heq => ?_).2.1 after (by decide +kernel) hrun⟩
    cases (List.cons.inj (List.cons.inj heq).2).1

end Kompjutr.Fs
