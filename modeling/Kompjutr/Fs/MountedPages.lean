/-
  Kompjutr.Fs.MountedPages

  What the pages of `listEntries` give, and with them every page of a mounted view: a
  page is the first rows of the listing behind its cursor, so the pages of a run come to
  the listing of the namespace, each row once.
-/
import Kompjutr.Fs.MountedList

namespace Kompjutr.Fs.Mounted

open Objects (Text text)
open List (append_assoc append_nil cons_ne_nil filter_eq_self length_map mem_flatMap
  take_of_length_le)

-- The loop over the groups

section Loop

variable {view : View} {after : Option ListCursor}

/-- The rows that a group still has past a cursor, as `listAbove` reads them. -/
def restOfGroup (view : View) (after : Option ListCursor) : Group → List ListItem
  | .synthetic directory => (syntheticRest view directory after).getD []
  | .mount mount part =>
    match groupCursor mount part after with
    | none => []
    | some cursor => ((storeRows view.store mount.source (part ≠ .root)).filter
        (listAfter cursor)).map (virtualItem mount)

theorem listGroupsAbove_eq (limit : Nat) (out : List ListItem) (groups : List Group)
    (hout : out.length ≤ limit) :
    ∃ more, listGroupsAbove view after limit out groups =
        pageOf ((out ++ groups.flatMap (restOfGroup view after)).take limit) more ∧
      (more = false → (out ++ groups.flatMap (restOfGroup view after)).length ≤ limit) := by
  induction groups generalizing out with
  | nil =>
    refine ⟨false, ?_, fun _ => by simpa using hout⟩
    rw [List.flatMap_nil, append_nil, take_of_length_le hout]
    rfl
  | cons group groups ih =>
    unfold listGroupsAbove
    dsimp only
    by_cases hwanted : limit - out.length = 0
    · refine ⟨true, ?_, nofun⟩
      rw [if_pos hwanted, List.take_append_of_le_length (by omega), take_of_length_le hout]
    rw [if_neg hwanted, List.flatMap_cons]
    -- a group that fits is taken whole, and one that does not ends the page
    have hfits : ∀ rows : List ListItem, restOfGroup view after group = rows →
        rows.length ≤ limit - out.length →
        ∃ more, listGroupsAbove view after limit (out ++ rows) groups =
            pageOf ((out ++ (restOfGroup view after group ++
              groups.flatMap (restOfGroup view after))).take limit) more ∧
          (more = false → (out ++ (restOfGroup view after group ++
            groups.flatMap (restOfGroup view after))).length ≤ limit) := by
      intro rows hrows hlength
      rw [hrows, ← append_assoc]
      refine ih (out ++ rows) ?_
      rw [List.length_append]
      omega
    have hends : ∀ rows : List ListItem, restOfGroup view after group = rows →
        limit - out.length < rows.length →
        pageOf (out ++ rows.take (limit - out.length)) true =
          pageOf ((out ++ (restOfGroup view after group ++
            groups.flatMap (restOfGroup view after))).take limit) true := by
      intro rows hrows hlength
      rw [hrows, ← append_assoc, List.take_append_of_le_length
        (by rw [List.length_append]; omega), List.take_append, take_of_length_le hout]
    cases group with
    | synthetic directory =>
      dsimp only
      cases hrest : syntheticRest view directory after with
      | none =>
        obtain ⟨more, hpage, hmore⟩ := hfits [] (by rw [restOfGroup, hrest]; rfl) (Nat.zero_le _)
        rw [append_nil] at hpage
        exact ⟨more, hpage, hmore⟩
      | some items =>
        have hrows : restOfGroup view after (.synthetic directory) = items := by
          rw [restOfGroup, hrest]
          rfl
        dsimp only
        by_cases hlong : limit - out.length < items.length
        · exact ⟨true, by rw [if_pos hlong]; exact hends items hrows hlong, nofun⟩
        · rw [if_neg hlong, take_of_length_le (by omega)]
          exact hfits items hrows (by omega)
    | mount mount part =>
      dsimp only
      cases hcursor : groupCursor mount part after with
      | none =>
        obtain ⟨more, hpage, hmore⟩ := hfits [] (by rw [restOfGroup, hcursor]) (Nat.zero_le _)
        rw [append_nil] at hpage
        exact ⟨more, hpage, hmore⟩
      | some cursor =>
        have hrows : restOfGroup view after (.mount mount part) =
            ((storeRows view.store mount.source (part ≠ .root)).filter
              (listAfter cursor)).map (virtualItem mount) := by
          rw [restOfGroup, hcursor]
        obtain ⟨hitems, hnext⟩ := @storeListEntries_eq view.store mount.source cursor
          (limit - out.length) (by omega) (part ≠ .root)
        dsimp only at hitems hnext ⊢
        rw [hitems, List.map_take]
        by_cases hlast : (storeListEntries view.store mount.source cursor (limit - out.length)
            (part ≠ .root)).next = none
        · have hlength := hnext.1 hlast
          rw [if_pos hlast, take_of_length_le (by rw [length_map]; exact hlength)]
          exact hfits _ hrows (by rw [length_map]; exact hlength)
        · refine ⟨true, ?_, nofun⟩
          rw [if_neg hlast]
          refine hends _ hrows ?_
          rw [length_map]
          exact Nat.lt_of_not_le (mt hnext.2 hlast)

end Loop

-- The rest of a group

section Rest

variable {view : View} {root : Text}

theorem storeRows_eq {table : PathTable} (hroot : isCanonicalPath root = true)
    (recursive : Bool) :
    storeRows table root recursive = groupItems table root ++
      if recursive then (dirsUnder table root).flatMap (groupItems table) else [] := by
  rw [storeRows, listGroups_eq hroot, List.flatMap_cons]
  cases recursive <;> rfl

/-- A synthetic group's rows past a cursor at a row of the listing. -/
theorem syntheticRest_eq {directory : Text} {row : ListItem}
    (hrow : row.directory = directory → row ∈ syntheticItems view directory) :
    (syntheticRest view directory (some (cursorAt row))).getD [] =
      (syntheticItems view directory).filter (listAfter (some (cursorAt row))) := by
  have hdirectory : ∀ item ∈ syntheticItems view directory, item.directory = directory :=
    fun item hitem => (mem_syntheticItems.1 hitem).1
  unfold syntheticRest
  dsimp only
  show (if pathLt directory row.directory then _ else if directory = row.directory then _ else
    _ : Option (List ListItem)).getD [] = _
  by_cases hbefore : pathLt directory row.directory
  · rw [if_pos hbefore, Option.getD_none, eq_comm, List.filter_eq_nil_iff]
    intro item hitem
    rw [listAfter_cursorAt, decide_eq_true_iff]
    rintro (hlt | ⟨heq, -⟩)
    · rw [hdirectory item hitem] at hlt
      exact pathLt_irrefl _ (pathLt_trans hbefore hlt)
    · exact ne_of_pathLt hbefore (heq.trans (hdirectory item hitem)).symm
  rw [if_neg hbefore]
  by_cases hsame : directory = row.directory
  · rw [if_pos hsame, Option.getD_some]
    refine List.filter_congr fun item hitem => ?_
    have hmem := hrow hsame.symm
    rw [listAfter_cursorAt, Bool.eq_iff_iff, decide_eq_true_iff]
    have hlt : itemLt row item ↔ pathLt row.path item.path := by
      refine ⟨?_, fun hlt => .inr ⟨hsame.symm.trans (hdirectory item hitem).symm, hlt⟩⟩
      rintro (hlt | ⟨-, hlt⟩)
      · rw [hdirectory item hitem, ← hsame] at hlt
        exact absurd hlt (pathLt_irrefl _)
      · exact hlt
    rw [hlt]
    -- a null row is alone in its group
    obtain ⟨rowDirectory, rowEntry⟩ := row
    obtain ⟨itemDirectory, itemEntry⟩ := item
    cases itemEntry with
    | none =>
      refine iff_of_false ?_ (List.not_lt_nil _)
      cases rowEntry <;> simp [cursorAt]
    | some entry =>
      cases rowEntry with
      | none =>
        obtain ⟨-, hnone⟩ := mem_syntheticItems.1 hmem
        obtain ⟨-, child, hchild, hentry⟩ := mem_syntheticItems.1 hitem
        rw [hnone child hchild] at hentry
        cases hentry
      | some rowEntry => exact decide_eq_true_iff
  · rw [if_neg hsame, Option.getD_some, eq_comm, filter_eq_self]
    intro item hitem
    rw [listAfter_cursorAt, decide_eq_true_iff]
    left
    rw [hdirectory item hitem]
    exact pathLt_of_le_of_ne (not_pathLt.1 hbefore) (Ne.symm hsame)

/-- Behind the source's own group stand the groups under it. -/
theorem skipRoot_eq {table : PathTable} (hroot : isCanonicalPath root = true) :
    (storeRows table root true).filter
        (listAfter (some ⟨root, some (subtreeSuccessor root)⟩)) =
      (dirsUnder table root).flatMap (groupItems table) := by
  rw [storeRows_eq hroot, if_pos rfl, List.filter_append]
  have hroots : (groupItems table root).filter
      (listAfter (some ⟨root, some (subtreeSuccessor root)⟩)) = [] := by
    rw [List.filter_eq_nil_iff]
    intro item hitem hpast
    obtain ⟨hdirectory, hentry⟩ := mem_groupItems.1 hitem
    unfold listAfter at hpast
    simp only [Option.map_some, Option.getD_some, Option.bind_some, Bool.or_eq_true,
      decide_eq_true_eq, Bool.and_eq_true, hdirectory] at hpast
    obtain hlt | ⟨-, hlt⟩ := hpast
    · exact pathLt_irrefl _ hlt
    · cases hsome : item.entry with
      | none =>
        rw [hsome] at hlt
        exact List.not_lt_nil _ hlt
      | some entry =>
        rw [hsome] at hlt hentry
        obtain ⟨row, hrow, hparent, rfl⟩ := hentry
        obtain ⟨hne, hdirname⟩ := (parent_eq_iff hrow hroot).1 hparent
        have hpath := table.canonical row hrow
        obtain ⟨part, hpart⟩ := (dirname_eq_iff hpath hne hroot).1 hdirname
        have hunder := (isUnder_iff_components hpath hroot).2 ⟨[part], cons_ne_nil _ _, hpart⟩
        exact pathLt_irrefl _ (pathLt_trans hlt ((bounds_iff hroot hrow).2 hunder).2)
  have hdirs : ((dirsUnder table root).flatMap (groupItems table)).filter
      (listAfter (some ⟨root, some (subtreeSuccessor root)⟩)) =
        (dirsUnder table root).flatMap (groupItems table) := by
    rw [filter_eq_self]
    intro item hitem
    obtain ⟨directory, hdir, hitem⟩ := mem_flatMap.1 hitem
    obtain ⟨row, hrow, -, hunder, rfl⟩ := mem_dirsUnder.1 hdir
    obtain ⟨rest, hrest, heq⟩ := (isUnder_iff (table.canonical row hrow) hroot).1 hunder
    have hlt : pathLt root item.directory := by
      rw [(mem_groupItems.1 hitem).1, heq]
      exact pathLt_of_below hroot hrest
    unfold listAfter
    simp [hlt]
  rw [hroots, hdirs, List.nil_append]

/-- The store's rows of a part of a mount. -/
def partRows (view : View) (mount : Mount) : Part → List ListItem
  | .root => groupItems view.store mount.source
  | .tree => (dirsUnder view.store mount.source).flatMap (groupItems view.store)
  | .all => groupItems view.store mount.source ++
      (dirsUnder view.store mount.source).flatMap (groupItems view.store)

theorem groupRows_mount (mount : Mount) (part : Part) :
    groupRows view (.mount mount part) = (partRows view mount part).map (virtualItem mount) := by
  cases part <;> simp [groupRows, partsOf, itemList, partRows]

theorem itemIn_of_mem_partRows {mount : Mount} (h : mount.Ok) {part : Part} {item : ListItem}
    (hitem : item ∈ partRows view mount part) : ItemIn mount item := by
  cases part with
  | root => exact itemIn_of_mem_store h (.inl hitem)
  | tree => exact itemIn_of_mem_store h (.inr hitem)
  | all => exact itemIn_of_mem_store h (List.mem_append.1 hitem)

/-- A part that is read from its start is read whole. -/
theorem partRows_whole {mount : Mount} (h : mount.Ok) (part : Part) :
    (storeRows view.store mount.source (part ≠ .root)).filter (listAfter (if part = .tree then
        some ⟨mount.source, some (subtreeSuccessor mount.source)⟩ else none)) =
      partRows view mount part := by
  have hnone : ∀ rows : List ListItem, (∀ item ∈ rows, ItemIn mount item) →
      rows.filter (listAfter none) = rows := by
    intro rows hrows
    rw [filter_eq_self]
    exact fun item hitem => listAfter_none (hrows item hitem).1.1
  cases part with
  | root =>
    refine (hnone _ fun item hitem => ?_).trans ?_
    · rw [storeRows_eq h.2, decide_eq_false (by simp), if_neg Bool.false_ne_true,
        append_nil] at hitem
      exact itemIn_of_mem_store h (.inl hitem)
    · rw [storeRows_eq h.2]
      simp [partRows]
  | tree => exact skipRoot_eq h.2
  | all =>
    refine (hnone _ fun item hitem => ?_).trans ?_
    · rw [storeRows_eq h.2, decide_eq_true (by simp), if_pos rfl] at hitem
      exact itemIn_of_mem_store h (List.mem_append.1 hitem)
    · rw [storeRows_eq h.2]
      simp [partRows]

/-- Past a row of a part, the store's rows are those of the part. -/
theorem partRows_behind {mount : Mount} (h : mount.Ok) {part : Part} {item : ListItem}
    (hitem : item ∈ partRows view mount part) :
    (storeRows view.store mount.source (part ≠ .root)).filter (listAfter (some (cursorAt item))) =
      (partRows view mount part).filter (listAfter (some (cursorAt item))) := by
  rw [storeRows_eq h.2]
  cases part with
  | root => simp [partRows]
  | all => simp [partRows]
  | tree =>
    obtain ⟨directory, hdir, hmem⟩ := mem_flatMap.1 hitem
    obtain ⟨row, hrow, -, hunder, rfl⟩ := mem_dirsUnder.1 hdir
    obtain ⟨rest, hrest, heq⟩ := (isUnder_iff (view.store.canonical row hrow) h.2).1 hunder
    have hbelow : pathLt mount.source item.directory := by
      rw [(mem_groupItems.1 hmem).1, heq]
      exact pathLt_of_below h.2 hrest
    have hroots : (groupItems view.store mount.source).filter
        (listAfter (some (cursorAt item))) = [] := by
      rw [List.filter_eq_nil_iff]
      intro other hother
      have hdirectory := (mem_groupItems.1 hother).1
      rw [listAfter_cursorAt, decide_eq_true_iff]
      rintro (hlt | ⟨heq, -⟩)
      · rw [hdirectory] at hlt
        exact pathLt_irrefl _ (pathLt_trans hbelow hlt)
      · exact ne_of_pathLt hbelow (heq.trans hdirectory).symm
    rw [decide_eq_true (by simp), if_pos rfl, List.filter_append, hroots, List.nil_append]
    rfl

theorem covers_iff {table : MountTable} {mount : Mount} (hmount : mount ∈ table.mounts)
    (hne : mount.path ≠ [0x2f]) {part : Part} {directory : Text}
    (hdir : isCanonicalPath directory = true) :
    covers mount part directory = true ↔
      ∃ item ∈ partsOf (.mount mount part), Within item directory := by
  have hok := MountTable.ok hmount
  have hunder : (mount.path ++ [0x2f]).isPrefixOf directory = true ↔
      Within (.tree mount) directory := by
    show _ ↔ ∃ rest, rest ≠ [] ∧ directory = stem mount.path ++ 0x2f :: rest
    rw [← isUnder_iff hdir hok.1]
    unfold isUnder
    rw [if_neg hne]
  unfold covers
  cases part with
  | root => simp [partsOf, Within]
  | tree => simpa [partsOf] using hunder
  | all =>
    simp only [partsOf, List.mem_cons, List.not_mem_nil, or_false, exists_eq_or_imp,
      exists_eq_left, Bool.or_eq_true, decide_eq_true_eq, hunder]
    exact or_comm

/-- A mount's group past a cursor at a row of the listing. -/
theorem mountRest_eq (hroot : root ∈ view.table.synthetic) {mount : Mount} {part : Part}
    (hgroup : .mount mount part ∈ groupsUnder view.table root true) {row : ListItem}
    (hrow : row ∈ rowsAbove view root true) :
    restOfGroup view (some (cursorAt row)) (.mount mount part) =
      (groupRows view (.mount mount part)).filter (listAfter (some (cursorAt row))) := by
  have hcanonical := canonical_of_synthetic hroot
  obtain ⟨⟨hmount, hmountUnder⟩, -⟩ := mem_groupsUnder.1 hgroup
  have hok := MountTable.ok hmount
  have hne := ne_root_of_isUnder hcanonical hmountUnder
  obtain ⟨rowItem, hlisted, hmem⟩ := mem_rowsAbove.1 hrow
  have hwithin := within_of_mem_itemList (hlisted.ok hroot) hmem
  have hdir := canonical_of_mem_itemList (hlisted.ok hroot) hmem
  have hcovers := @covers_iff view.table mount hmount hne part row.directory hdir
  have hparts : ∀ item ∈ partsOf (.mount mount part), ItemListed view.table root item :=
    fun item hitem => itemListed_iff.2 ⟨_, hgroup, hitem⟩
  have hat : (cursorAt row).directory = row.directory := rfl
  unfold restOfGroup groupCursor
  dsimp only
  rw [hat]
  by_cases hcovered : covers mount part row.directory = true
  · -- the row is one of this group, so the store goes on behind the same row
    obtain ⟨item, hitem, hwithin'⟩ := hcovers.1 hcovered
    obtain rfl := within_unique (hlisted.ok hroot) ((hparts item hitem).ok hroot) hwithin hwithin'
    have hgroupRow : row ∈ groupRows view (.mount mount part) :=
      mem_flatMap.2 ⟨_, hitem, hmem⟩
    rw [groupRows_mount] at hgroupRow ⊢
    obtain ⟨stored, hstored, rfl⟩ := List.mem_map.1 hgroupRow
    have hin := itemIn_of_mem_partRows hok hstored
    rw [if_pos hcovered]
    dsimp only
    rw [realCursor_virtualItem hok hin, partRows_behind hok hstored, List.filter_map]
    congr 1
    refine List.filter_congr fun other hother => ?_
    rw [Function.comp_apply, listAfter_cursorAt, listAfter_cursorAt, decide_eq_decide]
    exact (itemLt_virtualItem hok hin (itemIn_of_mem_partRows hok hother)).symm
  have hout : rowItem ∉ partsOf (.mount mount part) := fun hitem =>
    hcovered (hcovers.2 ⟨rowItem, hitem, hwithin⟩)
  rw [if_neg hcovered]
  by_cases hpast : pathLe (groupKey (.mount mount part)) row.directory
  · -- the row stands behind the whole group
    rw [if_pos hpast, eq_comm, List.filter_eq_nil_iff]
    obtain ⟨rowGroup, hrowGroup, hrowParts⟩ := itemListed_iff.1 hlisted
    have hgroups : Group.mount mount part ≠ rowGroup := by
      rintro rfl
      exact hout hrowParts
    have hkeys : pathLe (groupKey (.mount mount part)) (groupKey rowGroup) := by
      refine (pathLe_total _ _).resolve_right fun hle => ?_
      obtain ⟨head, rest, hhead, hkey, -⟩ := groupKey_head hgroup hcanonical
      have hheadMem : head ∈ partsOf (.mount mount part) := by
        rw [hhead]
        exact List.mem_cons_self
      have hlt := parts_lt hroot hrowGroup hgroup hgroups.symm hle hrowParts hheadMem
      have hitems : rowItem ≠ head := by
        rintro rfl
        exact hout hheadMem
      have hbefore := lt_keyOf (hlisted.ok hroot) ((hparts head hheadMem).ok hroot) hitems
        (pathLe_of_lt hlt) hwithin
      rw [hkey] at hbefore
      exact pathLt_irrefl _ (pathLt_of_lt_of_le hbefore hpast)
    intro other hother
    obtain ⟨item, hitem, hother⟩ := mem_flatMap.1 hother
    have hlt := parts_lt hroot hgroup hrowGroup hgroups hkeys hitem hrowParts
    have hbehind := within_lt ((hparts item hitem).ok hroot) (hlisted.ok hroot) hlt
      (within_of_mem_itemList ((hparts item hitem).ok hroot) hother) hwithin
    rw [listAfter_cursorAt, decide_eq_true_iff]
    exact itemLt_asymm _ _ (.inl hbehind)
  · -- the group stands behind the row
    rw [if_neg hpast]
    dsimp only
    rw [partRows_whole hok, ← groupRows_mount, eq_comm, filter_eq_self]
    intro other hother
    obtain ⟨item, hitem, hother⟩ := mem_flatMap.1 hother
    have hwithin' := within_of_mem_itemList ((hparts item hitem).ok hroot) hother
    rw [listAfter_cursorAt, decide_eq_true_iff]
    exact .inl (pathLt_of_lt_of_le (not_pathLe.1 hpast)
      (pathLe_trans (groupKey_le hgroup hcanonical hitem) (keyOf_le hwithin')))

/-- A cursor that a page may be resumed with: none, or one at a row. -/
def Resumes (rows : List ListItem) (after : Option ListCursor) : Prop :=
  after = none ∨ ∃ row ∈ rows, after = some (cursorAt row)

/-- What the loop reads of the groups is what stands past the cursor. -/
theorem rest_eq (hroot : root ∈ view.table.synthetic) (recursive : Bool)
    {after : Option ListCursor} (hafter : Resumes (rowsAbove view root recursive) after) :
    (groupsUnder view.table root recursive).flatMap (restOfGroup view after) =
      (rowsAbove view root recursive).filter (listAfter after) := by
  have hcanonical := canonical_of_synthetic hroot
  unfold rowsAbove
  rw [List.filter_flatMap]
  refine List.flatMap_congr fun group hgroup => ?_
  obtain rfl | ⟨row, hrow, rfl⟩ := hafter
  · -- from the start every group is read whole
    have hwhole : restOfGroup view none group = groupRows view group := by
      cases group with
      | synthetic directory => simp [restOfGroup, syntheticRest, groupRows, partsOf, itemList]
      | mount mount part =>
        cases recursive with
        | false => simp [groupsUnder] at hgroup
        | true =>
          have hok := MountTable.ok (mem_groupsUnder.1 hgroup).1.1
          rw [groupRows_mount, ← partRows_whole hok]
          rfl
    rw [hwhole, eq_comm, filter_eq_self]
    intro row hrow
    obtain ⟨item, hitem, hrow⟩ := mem_flatMap.1 hrow
    cases recursive with
    | false =>
      simp only [groupsUnder, Bool.not_false, if_true, List.mem_singleton] at hgroup
      subst hgroup
      obtain rfl := List.mem_singleton.1 hitem
      have hself : ItemOk view.table (.synthetic root) := hroot
      exact listAfter_none (canonical_of_mem_itemList hself hrow)
    | true =>
      have hlisted : ItemListed view.table root item := itemListed_iff.2 ⟨group, hgroup, hitem⟩
      exact listAfter_none (canonical_of_mem_itemList (hlisted.ok hroot) hrow)
  · cases recursive with
    | false =>
      simp only [groupsUnder, Bool.not_false, if_true, List.mem_singleton] at hgroup
      subst hgroup
      rw [rowsAbove_single] at hrow
      simpa [restOfGroup, groupRows, partsOf, itemList] using syntheticRest_eq fun _ => hrow
    | true =>
      cases group with
      | mount mount part => exact mountRest_eq hroot hgroup hrow
      | synthetic directory =>
        obtain ⟨rowItem, hlisted, hmem⟩ := mem_rowsAbove.1 hrow
        have hself : ItemListed view.table root (.synthetic directory) :=
          itemListed_iff.2 ⟨_, hgroup, List.mem_singleton_self _⟩
        -- the only item at a synthetic directory is its own
        have hat : row.directory = directory → row ∈ syntheticItems view directory := by
          intro hdirectory
          have hitem := within_unique (hlisted.ok hroot) (hself.ok hroot)
            (within_of_mem_itemList (hlisted.ok hroot) hmem) hdirectory
          rw [hitem] at hmem
          exact hmem
        simpa [restOfGroup, groupRows, partsOf, itemList] using syntheticRest_eq hat

end Rest

-- The rows of the namespace

/-- The entries right under a directory. -/
def IsChild (view : View) (directory : Text) (entry : ScanEntry) : Prop :=
  Shown view entry ∧ entry.path ≠ [0x2f] ∧ dirname entry.path = directory

/-- The directories of a view: the synthetic ones, the mount points, and the directories under the
    mounts' sources. -/
def IsDirectory (view : View) (directory : Text) : Prop :=
  directory ∈ view.table.synthetic ∨ ∃ mount ∈ view.table.mounts, directory = mount.path ∨
    ∃ row ∈ view.store.rows, row.stat.type = .dir ∧ isUnder row.path mount.source = true ∧
      directory = virtualOf mount row.path

/-- A row of a directory's group: one of its entries, or a null row when it has none. -/
def InGroup (view : View) (directory : Text) (item : ListItem) : Prop :=
  item.directory = directory ∧
    match item.entry with
    | some entry => IsChild view directory entry
    | none => ∀ entry, ¬ IsChild view directory entry

/-- The rows of a listing: those of the root's group, and of the groups under it. -/
def Listed (view : View) (recursive : Bool) (root : ViewRoot) (item : ListItem) : Prop :=
  match root with
  | .none path => item = ⟨path, none⟩
  | root => InGroup view item.directory item ∧ (item.directory = rootPath root ∨
      recursive = true ∧ IsDirectory view item.directory ∧
        isUnder item.directory (rootPath root) = true)

section Children

variable {view : View} {mount : Mount} {directory : Text} {entry : ScanEntry} {item : ListItem}

/-- The children of a directory in a mount are the store's rows with that parent. -/
theorem isChild_mount (hmount : mount ∈ view.table.mounts)
    (hdir : isCanonicalPath directory = true) (hin : inSource mount directory = true) :
    IsChild view (virtualOf mount directory) entry ↔
      ∃ row ∈ view.store.rows, row.parent = directory ∧ entry = virtualEntry mount row.entry := by
  have hok := MountTable.ok hmount
  obtain ⟨more, hmore, hvirtual, hparts⟩ := componentsOf_virtualOf hok hdir hin
  constructor
  · rintro ⟨hshown, hne, hdirname⟩
    have hpath := canonical_of_shown hshown
    obtain ⟨part, hpart⟩ := (dirname_eq_iff hpath hne hvirtual).1 hdirname
    rw [hparts, append_assoc] at hpart
    have hinside : inMount mount entry.path = true :=
      (inMount_iff_components hok hpath).2 ⟨_, hpart.symm⟩
    obtain ⟨hsynthetic, -⟩ | ⟨other, hother, row, hrow, hsource, rfl⟩ := hshown
    · rw [not_inMount_of_synthetic hsynthetic hmount] at hinside
      cases hinside
    · have hcanonical := view.store.canonical row hrow
      have hotherIn := (virtualOf_ok (MountTable.ok hother) hcanonical hsource).2
      obtain rfl := MountTable.eq_of_inMount hmount hother hpath hinside hotherIn
      refine ⟨row, hrow, (parent_eq_iff hrow hdir).2 ?_, rfl⟩
      obtain ⟨rowMore, hrowMore, -, hrowParts⟩ := componentsOf_virtualOf hok hcanonical hsource
      have hends : rowMore = more ++ [part] := by
        have : componentsOf mount.path ++ rowMore = componentsOf mount.path ++ (more ++ [part]) :=
          hrowParts.symm.trans hpart
        exact List.append_cancel_left this
      rw [hends, ← append_assoc, ← hmore] at hrowMore
      have hrowRoot : row.path ≠ [0x2f] := by
        intro hroot
        rw [hroot, componentsOf_root] at hrowMore
        simp at hrowMore
      exact ⟨hrowRoot, (dirname_eq_iff hcanonical hrowRoot hdir).2 ⟨part, hrowMore⟩⟩
  · rintro ⟨row, hrow, hparent, rfl⟩
    obtain ⟨hrowRoot, hdirname⟩ := (parent_eq_iff hrow hdir).1 hparent
    have hcanonical := view.store.canonical row hrow
    obtain ⟨part, hpart⟩ := (dirname_eq_iff hcanonical hrowRoot hdir).1 hdirname
    have hunder := (isUnder_iff_components hcanonical hdir).2 ⟨[part], cons_ne_nil _ _, hpart⟩
    have hsource : inSource mount row.path = true := (inSource_iff hok hcanonical).2
      (.inr (below_source hok hdir hin hcanonical hunder))
    obtain ⟨rowMore, hrowMore, hrowVirtual, hrowParts⟩ :=
      componentsOf_virtualOf hok hcanonical hsource
    have hends : rowMore = more ++ [part] := by
      rw [hrowMore, hmore, append_assoc] at hpart
      exact List.append_cancel_left hpart
    rw [hends, ← append_assoc, ← hparts] at hrowParts
    have hvirtualRoot : virtualOf mount row.path ≠ [0x2f] := by
      intro hroot
      rw [hroot, componentsOf_root] at hrowParts
      simp at hrowParts
    exact ⟨.inr ⟨mount, hmount, row, hrow, hsource, rfl⟩, hvirtualRoot,
      (dirname_eq_iff hrowVirtual hvirtualRoot hvirtual).2 ⟨part, hrowParts⟩⟩

theorem mountAt_eq_some {table : MountTable} {path : Text} {mount : Mount} :
    table.mountAt path = some mount ↔ mount ∈ table.mounts ∧ mount.path = path := by
  unfold MountTable.mountAt
  constructor
  · intro hfind
    exact ⟨List.mem_of_find?_eq_some hfind, by simpa using List.find?_some hfind⟩
  · rintro ⟨hmount, rfl⟩
    exact find?_key hmount fun _ hother heq => (MountTable.apart_of_mem hmount hother).2 heq

/-- The children of a synthetic directory are the next components on the way to the mounts. -/
theorem isChild_synthetic (hdirectory : directory ∈ view.table.synthetic) :
    IsChild view directory entry ↔
      ∃ child ∈ view.table.childrenOf directory, childEntry view child = some entry := by
  have hdir := canonical_of_synthetic hdirectory
  simp only [mem_childrenOf, mem_childPairs]
  constructor
  · rintro ⟨hshown, hne, hdirname⟩
    have hpath := canonical_of_shown hshown
    obtain ⟨part, hpart⟩ := (dirname_eq_iff hpath hne hdir).1 hdirname
    obtain ⟨hsynthetic, hstat⟩ | ⟨mount, hmount, row, hrow, hsource, rfl⟩ := hshown
    · obtain ⟨-, ⟨mount, hmount, hunder⟩ | ⟨-, hroot⟩⟩ := mem_synthetic.1 hsynthetic
      · obtain ⟨more, -, hmore⟩ := (isUnder_iff_components (MountTable.ok hmount).1 hpath).1 hunder
        rw [hpart, append_assoc, List.singleton_append] at hmore
        refine ⟨entry.path, ⟨hdir, hpath, mount, hmount, part, more, hpart, hmore⟩, ?_⟩
        have hnone : view.table.mountAt entry.path = none := by
          rw [Option.eq_none_iff_forall_ne_some]
          intro other hother
          obtain ⟨hmem, hotherPath⟩ := mountAt_eq_some.1 hother
          have hin := not_inMount_of_synthetic hsynthetic hmem
          rw [← hotherPath, inMount_self hmem] at hin
          cases hin
        rw [childEntry, hnone, ← hstat]
      · exact absurd hroot hne
    · have hok := MountTable.ok hmount
      have hcanonical := view.store.canonical row hrow
      have hinside := (virtualOf_ok hok hcanonical hsource).2
      have hunder := (isUnder_iff_components hpath hdir).2 ⟨[part], cons_ne_nil _ _, hpart⟩
      have hmountUnder := isUnder_of_synthetic hdirectory hmount hpath hinside hunder
      -- the mount's path lies between the directory and its child, so it is the child
      obtain ⟨more, hmore, hmountParts⟩ := (isUnder_iff_components hok.1 hdir).1 hmountUnder
      obtain ⟨rest, hrest⟩ := (inMount_iff_components hok hpath).1 hinside
      rw [hmountParts, hpart, append_assoc] at hrest
      have hone : more ++ rest = [part] := List.append_cancel_left hrest
      have hmorePart : more = [part] := by
        obtain ⟨first, tail, rfl⟩ := List.exists_cons_of_ne_nil hmore
        rw [List.cons_append] at hone
        obtain ⟨rfl, htail⟩ := List.cons.inj hone
        rw [(List.append_eq_nil_iff.1 htail).1]
      rw [hmorePart] at hmountParts
      have hat : virtualOf mount row.path = mount.path :=
        componentsOf_injective hpath hok.1 (hpart.trans hmountParts.symm)
      have hrowPath : row.path = mount.source := by
        rw [← realIn_virtualOf hok hcanonical hsource, hat, realIn_path hok]
      refine ⟨mount.path, ⟨hdir, hok.1, mount, hmount, part, [], hmountParts, hmountParts⟩, ?_⟩
      rw [childEntry, mountAt_eq_some.2 ⟨hmount, rfl⟩]
      dsimp only
      rw [statRaw_eq_some.2 ⟨row, hrow, hrowPath, rfl⟩, ← hat]
      rfl
  · rintro ⟨child, ⟨-, hchild, mount, hmount, part, rest, hpart, hmountParts⟩, hentry⟩
    have hpath := childEntry_path hentry
    have hchildRoot : child ≠ [0x2f] := by
      rintro rfl
      rw [componentsOf_root] at hpart
      simp at hpart
    have hdirname := (dirname_eq_iff hchild hchildRoot hdir).2 ⟨part, hpart⟩
    rw [← hpath] at hchildRoot hdirname
    refine ⟨?_, hchildRoot, hdirname⟩
    unfold childEntry at hentry
    cases hat : view.table.mountAt child with
    | none =>
      rw [hat] at hentry
      cases hentry
      refine .inl ⟨mem_synthetic.2 ⟨hchild, .inl ⟨mount, hmount, ?_⟩⟩, rfl⟩
      have hok := MountTable.ok hmount
      refine (isUnder_iff_components hok.1 hchild).2 ⟨rest, ?_, ?_⟩
      · rintro rfl
        have hsame := componentsOf_injective hok.1 hchild (hmountParts.trans hpart.symm)
        rw [mountAt_eq_some.2 ⟨hmount, hsame⟩] at hat
        cases hat
      · rw [hmountParts, hpart, append_assoc, List.singleton_append]
    | some other =>
      rw [hat] at hentry
      obtain ⟨hother, hotherPath⟩ := mountAt_eq_some.1 hat
      obtain ⟨stat, hstat, rfl⟩ := Option.map_eq_some_iff.1 hentry
      obtain ⟨row, hrow, hrowPath, rfl⟩ := statRaw_eq_some.1 hstat
      have hok := MountTable.ok hother
      refine .inr ⟨other, hother, row, hrow, ?_, ?_⟩
      · rw [hrowPath]
        exact inSource_self hok
      · rw [virtualEntry, PathRow.entry, hrowPath, virtualOf_source hok, hotherPath]

theorem mem_syntheticItems_iff (hdirectory : directory ∈ view.table.synthetic) :
    item ∈ syntheticItems view directory ↔ InGroup view directory item := by
  rw [mem_syntheticItems, InGroup]
  refine and_congr_right fun _ => ?_
  cases item.entry with
  | some entry => exact (isChild_synthetic hdirectory).symm
  | none =>
    simp only [isChild_synthetic hdirectory, not_exists, not_and]
    constructor
    · intro hnone entry child hchild hsome
      rw [hnone child hchild] at hsome
      cases hsome
    · exact fun hnone child hchild => Option.eq_none_iff_forall_ne_some.2 fun entry =>
        hnone entry child hchild

theorem mem_groupItems_iff (hmount : mount ∈ view.table.mounts)
    (hdir : isCanonicalPath directory = true) (hin : inSource mount directory = true) :
    item ∈ (groupItems view.store directory).map (virtualItem mount) ↔
      InGroup view (virtualOf mount directory) item := by
  rw [List.mem_map, InGroup]
  constructor
  · rintro ⟨stored, hstored, rfl⟩
    obtain ⟨rfl, hentry⟩ := mem_groupItems.1 hstored
    refine ⟨rfl, ?_⟩
    obtain ⟨storedDirectory, storedEntry⟩ := stored
    cases storedEntry with
    | some entry =>
      obtain ⟨row, hrow, hparent, rfl⟩ := hentry
      exact (isChild_mount hmount hdir hin).2 ⟨row, hrow, hparent, rfl⟩
    | none =>
      intro entry hchild
      obtain ⟨row, hrow, hparent, -⟩ := (isChild_mount hmount hdir hin).1 hchild
      exact hentry row hrow hparent
  · obtain ⟨itemDirectory, itemEntry⟩ := item
    rintro ⟨hdirectory, hentry⟩
    dsimp only at hdirectory
    subst hdirectory
    cases itemEntry with
    | some entry =>
      obtain ⟨row, hrow, hparent, rfl⟩ := (isChild_mount hmount hdir hin).1 hentry
      exact ⟨⟨directory, some row.entry⟩, mem_groupItems.2 ⟨rfl, row, hrow, hparent, rfl⟩, rfl⟩
    | none =>
      refine ⟨⟨directory, none⟩, mem_groupItems.2 ⟨rfl, fun row hrow hparent => ?_⟩, rfl⟩
      exact hentry _ ((isChild_mount hmount hdir hin).2 ⟨row, hrow, hparent, rfl⟩)

end Children

end Kompjutr.Fs.Mounted
