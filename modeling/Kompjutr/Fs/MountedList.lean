/-
  Kompjutr.Fs.MountedList

  The pages of `listEntries` through a mounted view.

  The rows are directory groups: the directories of the namespace in path order, each
  with its entries or with one null row.  A cursor names a row by its directory and its
  entry's path, so the rows have a strict order, and a page is the first of them behind
  its cursor.
-/
import Kompjutr.Fs.MountedScan

namespace Kompjutr.Fs.Mounted

open Objects (Text text)
open List (mem_cons mem_filter mem_flatMap mem_map mem_singleton not_lt_nil not_mem_nil
  pairwise_map pairwise_singleton)

variable {item : ListItem}

-- The order of the rows

/-- The path of a row's entry; a null row has the empty one. -/
def ListItem.path (item : ListItem) : Text := (item.entry.map (·.path)).getD []

/-- Whether a row stands behind another. -/
def itemLt (item other : ListItem) : Prop :=
  pathLt item.directory other.directory ∨
    item.directory = other.directory ∧ pathLt item.path other.path

instance (item other : ListItem) : Decidable (itemLt item other) :=
  inferInstanceAs (Decidable (_ ∨ _))

theorem itemLt_asymm (item other : ListItem) (h : itemLt item other) : ¬ itemLt other item := by
  rintro (hback | ⟨hback, hpath⟩)
  · obtain hlt | ⟨heq, -⟩ := h
    · exact pathLt_irrefl _ (pathLt_trans hlt hback)
    · exact ne_of_pathLt hback heq.symm
  · obtain hlt | ⟨-, hlt⟩ := h
    · exact ne_of_pathLt hlt hback.symm
    · exact pathLt_irrefl _ (pathLt_trans hlt hpath)

theorem itemLt_trans {middle other : ListItem} (h : itemLt item middle)
    (h' : itemLt middle other) : itemLt item other := by
  obtain hlt | ⟨heq, hpath⟩ := h
  · obtain hlt' | ⟨heq', -⟩ := h'
    · exact .inl (pathLt_trans hlt hlt')
    · exact .inl (heq' ▸ hlt)
  · obtain hlt' | ⟨heq', hpath'⟩ := h'
    · exact .inl (heq ▸ hlt')
    · exact .inr ⟨heq.trans heq', pathLt_trans hpath hpath'⟩

/-- The rows past a cursor at a row are those behind it. -/
theorem listAfter_cursorAt (item other : ListItem) :
    listAfter (some (cursorAt item)) other = decide (itemLt item other) := by
  rw [Bool.eq_iff_iff, decide_eq_true_iff]
  unfold listAfter cursorAt itemLt ListItem.path
  simp only [Option.map_some, Option.getD_some, Option.bind_some, Bool.or_eq_true,
    decide_eq_true_eq, Bool.and_eq_true]
  exact or_congr_right (and_congr_left fun _ => eq_comm)

theorem listAfter_none (h : isCanonicalPath item.directory = true) :
    listAfter none item = true := by
  have hne : item.directory ≠ [] := by
    intro hnil
    rw [hnil] at h
    cases h
  have hlt : pathLt [] item.directory := by
    refine pathLt_of_le_of_ne (not_pathLt.1 fun hlt => ?_) hne.symm
    unfold pathLt at hlt
    exact not_lt_nil _ hlt
  unfold listAfter
  simp [hlt]

-- The store's rows

section Store

variable {table : PathTable} {root : Text}

/-- The directories strictly under a real directory. -/
def dirsUnder (table : PathTable) (root : Text) : List Text :=
  ((rowsUnder table root false).filter (·.stat.type = .dir)).map PathRow.path

theorem mem_dirsUnder {directory : Text} :
    directory ∈ dirsUnder table root ↔
      ∃ row ∈ table.rows, row.stat.type = .dir ∧ isUnder row.path root = true ∧
        row.path = directory := by
  unfold dirsUnder
  simp only [mem_map, mem_filter, mem_rowsUnder, decide_eq_true_eq]
  constructor
  · rintro ⟨row, ⟨⟨hrow, hunder, -⟩, hdir⟩, heq⟩
    exact ⟨row, hrow, hdir, hunder, heq⟩
  · rintro ⟨row, hrow, hdir, hunder, heq⟩
    exact ⟨row, ⟨⟨hrow, hunder, nofun⟩, hdir⟩, heq⟩

theorem dirsUnder_ordered : (dirsUnder table root).Pairwise fun path other => pathLt path other := by
  unfold dirsUnder rowsUnder
  rw [pairwise_map]
  exact table.ordered.sublist (List.filter_sublist.trans List.filter_sublist)

theorem listGroups_eq (hroot : isCanonicalPath root = true) (recursive : Bool) :
    listGroups table root recursive = root :: if recursive then dirsUnder table root else [] := by
  have hselect : selectPage table (subtreeLower root) (subtreeSuccessor root) none false =
      rowsUnder table root false := by
    unfold selectPage rowsUnder
    refine List.filter_congr fun row hrow => ?_
    have hbounds := bounds_iff hroot hrow
    rw [Bool.eq_iff_iff]
    simpa using hbounds
  rw [listGroups, hselect]
  rfl

/-- Every row of a listing of the store. -/
def storeRows (table : PathTable) (root : Text) (recursive : Bool) : List ListItem :=
  (listGroups table root recursive).flatMap (groupItems table)

theorem mem_groupItems {directory : Text} : item ∈ groupItems table directory ↔
      item.directory = directory ∧
        match item.entry with
        | some entry => ∃ row ∈ table.rows, row.parent = directory ∧ entry = row.entry
        | none => ∀ row ∈ table.rows, row.parent ≠ directory := by
  obtain ⟨itemDirectory, entry⟩ := item
  unfold groupItems
  dsimp only
  split
  · rename_i hnone
    rw [List.filter_eq_nil_iff] at hnone
    simp only [decide_eq_true_eq] at hnone
    rw [mem_singleton]
    cases entry with
    | none => simpa using fun _ => hnone
    | some entry =>
      simp only [ListItem.mk.injEq, reduceCtorEq, and_false, false_iff, not_and, not_exists]
      exact fun _ row hrow hparent => absurd hparent (hnone row hrow)
  · rename_i hsome
    rw [mem_map]
    obtain ⟨first, hfirst⟩ := List.exists_mem_of_ne_nil _ hsome
    rw [mem_filter, decide_eq_true_eq] at hfirst
    cases entry with
    | none =>
      refine iff_of_false (by simp) ?_
      rintro ⟨-, hnone⟩
      exact hnone first hfirst.1 hfirst.2
    | some entry =>
      simp only [mem_filter, decide_eq_true_eq, ListItem.mk.injEq, Option.some.injEq]
      constructor
      · rintro ⟨row, ⟨hrow, hparent⟩, rfl, rfl⟩
        exact ⟨rfl, row, hrow, hparent, rfl⟩
      · rintro ⟨rfl, row, hrow, hparent, rfl⟩
        exact ⟨row, ⟨hrow, hparent⟩, rfl, rfl⟩

theorem groupItems_ordered (directory : Text) : (groupItems table directory).Pairwise itemLt := by
  unfold groupItems
  dsimp only
  split
  · exact pairwise_singleton _ _
  · rw [pairwise_map]
    refine (table.ordered.sublist List.filter_sublist).imp fun {row other} hlt => ?_
    exact .inr ⟨rfl, hlt⟩

/-- Groups in order have rows in order. -/
theorem flatMap_groups_ordered {groups : List Text}
    (h : groups.Pairwise fun path other => pathLt path other) :
    (groups.flatMap (groupItems table)).Pairwise itemLt := by
  rw [List.pairwise_flatMap]
  refine ⟨fun group _ => groupItems_ordered group, h.imp
    fun {group other} hlt item hitem item' hitem' => .inl ?_⟩
  rw [(mem_groupItems.1 hitem).1, (mem_groupItems.1 hitem').1]
  exact hlt

/-- A page of the store, by its rows. -/
theorem storeListEntries_eq (after : Option ListCursor) (limit : Nat) (hlimit : 1 ≤ limit)
    (recursive : Bool) :
    let rows := (storeRows table root recursive).filter (listAfter after)
    (storeListEntries table root after limit recursive).items = rows.take limit ∧
      ((storeListEntries table root after limit recursive).next = none ↔ rows.length ≤ limit) := by
  intro rows
  have hitems : (storeListEntries table root after limit recursive).items = rows.take limit := by
    show (rows.take (limit + 1)).take limit = _
    rw [List.take_take, Nat.min_eq_left (Nat.le_succ _)]
  refine ⟨hitems, ?_⟩
  have hnext : (storeListEntries table root after limit recursive).next =
      if limit < (rows.take (limit + 1)).length then
        ((storeListEntries table root after limit recursive).items).getLast?.map cursorAt
      else none := rfl
  rw [hnext, hitems, List.length_take]
  split
  · rename_i hmore
    refine iff_of_false ?_ (by omega)
    rw [Option.map_eq_none_iff, List.getLast?_eq_none_iff]
    intro hnil
    have := congrArg List.length hnil
    rw [List.length_take, List.length_nil] at this
    omega
  · exact iff_of_true rfl (by omega)

/-- The parent column of a row is the path's parent. -/
theorem parent_eq_iff {row : PathRow} (hrow : row ∈ table.rows) {directory : Text}
    (hdir : isCanonicalPath directory = true) :
    row.parent = directory ↔ row.path ≠ [0x2f] ∧ dirname row.path = directory := by
  rw [table.parents row hrow]
  split
  · rename_i hroot
    refine iff_of_false ?_ fun h => h.1 hroot
    rintro rfl
    cases hdir
  · rename_i hroot
    exact ⟨fun h => ⟨hroot, h⟩, fun h => h.2⟩

end Store

-- Rows of a mount

section Rebase

variable {mount : Mount}

/-- A path is after its directory. -/
theorem pathLt_of_below {path rest : Text} (hpath : isCanonicalPath path = true)
    (hrest : rest ≠ []) : pathLt path (stem path ++ 0x2f :: rest) := by
  refine pathLt_of_le_of_lt ?_ (range_iff.2 ⟨rest, hrest, rfl⟩).1
  obtain ⟨hnil, hroot⟩ | ⟨base, hstem, heq, -⟩ := stem_cases hpath
  · rw [hnil, hroot]
    exact pathLe_refl _
  · rw [hstem, ← heq]
    exact pathLe_slash path

theorem realIn_virtualOf (h : mount.Ok) {path : Text} (hpath : isCanonicalPath path = true)
    (hin : inSource mount path = true) : realIn mount (virtualOf mount path) = path := by
  obtain rfl | ⟨rest, hrest, rfl⟩ := (inSource_iff h hpath).1 hin
  · rw [virtualOf_source h, realIn_path h]
  · rw [virtualOf_below hrest, realIn_below hrest]

/-- Rebasing keeps the order. -/
theorem virtualOf_lt_iff (h : mount.Ok) {path other : Text} (hpath : isCanonicalPath path = true)
    (hin : inSource mount path = true) (hother : isCanonicalPath other = true)
    (hin' : inSource mount other = true) :
    pathLt (virtualOf mount path) (virtualOf mount other) ↔ pathLt path other := by
  have hback : ∀ {base rest : Text}, isCanonicalPath base = true → rest ≠ [] →
      ¬ pathLt (stem base ++ 0x2f :: rest) base := fun hbase hrest hlt =>
    pathLt_irrefl _ (pathLt_trans hlt (pathLt_of_below hbase hrest))
  obtain rfl | ⟨rest, hrest, rfl⟩ := (inSource_iff h hpath).1 hin
  · obtain rfl | ⟨rest', hrest', rfl⟩ := (inSource_iff h hother).1 hin'
    · exact iff_of_false (pathLt_irrefl _) (pathLt_irrefl _)
    · rw [virtualOf_source h, virtualOf_below hrest']
      exact iff_of_true (pathLt_of_below h.1 hrest') (pathLt_of_below h.2 hrest')
  · obtain rfl | ⟨rest', hrest', rfl⟩ := (inSource_iff h hother).1 hin'
    · rw [virtualOf_source h, virtualOf_below hrest]
      exact iff_of_false (hback h.1 hrest) (hback h.2 hrest)
    · rw [virtualOf_below hrest, virtualOf_below hrest']
      exact pathLt_below

/-- A row of the store that lies in a mount's source. -/
def ItemIn (mount : Mount) (item : ListItem) : Prop :=
  (isCanonicalPath item.directory = true ∧ inSource mount item.directory = true) ∧
    ∀ entry, item.entry = some entry →
      isCanonicalPath entry.path = true ∧ inSource mount entry.path = true

theorem itemLt_virtualItem (h : mount.Ok) {other : ListItem} (hitem : ItemIn mount item)
    (hother : ItemIn mount other) :
    itemLt (virtualItem mount item) (virtualItem mount other) ↔ itemLt item other := by
  have hdirectories := virtualOf_lt_iff h hitem.1.1 hitem.1.2 hother.1.1 hother.1.2
  have hsame : virtualOf mount item.directory = virtualOf mount other.directory ↔
      item.directory = other.directory := by
    refine ⟨fun heq => ?_, congrArg _⟩
    have := congrArg (realIn mount) heq
    rwa [realIn_virtualOf h hitem.1.1 hitem.1.2, realIn_virtualOf h hother.1.1 hother.1.2] at this
  have hpaths : pathLt (virtualItem mount item).path (virtualItem mount other).path ↔
      pathLt item.path other.path := by
    obtain ⟨directory, entry⟩ := item
    obtain ⟨directory', entry'⟩ := other
    cases entry' with
    | none =>
      unfold pathLt
      exact iff_of_false (not_lt_nil _) (not_lt_nil _)
    | some entry' =>
      obtain ⟨hpath', hin'⟩ := hother.2 entry' rfl
      cases entry with
      | none =>
        -- the empty path stands before every other
        have hlt : ∀ {path : Text}, isCanonicalPath path = true → pathLt [] path := by
          intro path hpath
          refine pathLt_of_le_of_ne (not_pathLt.1 fun hlt => ?_) ?_
          · unfold pathLt at hlt
            exact not_lt_nil _ hlt
          · rintro rfl
            cases hpath
        exact iff_of_true (hlt (virtualOf_ok h hpath' hin').1) (hlt hpath')
      | some entry =>
        obtain ⟨hpath, hin⟩ := hitem.2 entry rfl
        exact virtualOf_lt_iff h hpath hin hpath' hin'
  unfold itemLt
  rw [hpaths]
  exact or_congr hdirectories (and_congr_left fun _ => hsame)

/-- A view's cursor at a row of a mount is the store's cursor at it. -/
theorem realCursor_virtualItem (h : mount.Ok) (hitem : ItemIn mount item) :
    realCursor mount (cursorAt (virtualItem mount item)) = cursorAt item := by
  obtain ⟨directory, entry⟩ := item
  unfold realCursor cursorAt virtualItem
  dsimp only
  rw [realIn_virtualOf h hitem.1.1 hitem.1.2]
  cases entry with
  | none => rfl
  | some entry =>
    obtain ⟨hpath, hin⟩ := hitem.2 entry rfl
    simp only [Option.map_some, virtualEntry, realIn_virtualOf h hpath hin]

variable {table : PathTable}

/-- The rows of a group in the source lie in the source. -/
theorem itemIn_of_mem_group (h : mount.Ok) {directory : Text}
    (hdir : isCanonicalPath directory = true) (hin : inSource mount directory = true)
    (hitem : item ∈ groupItems table directory) : ItemIn mount item := by
  obtain ⟨rfl, hentry⟩ := mem_groupItems.1 hitem
  refine ⟨⟨hdir, hin⟩, fun entry hsome => ?_⟩
  rw [hsome] at hentry
  obtain ⟨row, hrow, hparent, rfl⟩ := hentry
  obtain ⟨hroot, hdirname⟩ := (parent_eq_iff hrow hdir).1 hparent
  have hpath := table.canonical row hrow
  obtain ⟨part, hpart⟩ := (dirname_eq_iff hpath hroot hdir).1 hdirname
  have hunder := (isUnder_iff_components hpath hdir).2 ⟨[part], List.cons_ne_nil _ _, hpart⟩
  exact ⟨hpath, (inSource_iff h hpath).2 (.inr (below_source h hdir hin hpath hunder))⟩

theorem dirsUnder_ok (h : mount.Ok) {root : Text} (hroot : isCanonicalPath root = true)
    (hin : inSource mount root = true) {directory : Text}
    (hdir : directory ∈ dirsUnder table root) :
    isCanonicalPath directory = true ∧ inSource mount directory = true := by
  obtain ⟨row, hrow, -, hunder, rfl⟩ := mem_dirsUnder.1 hdir
  have hpath := table.canonical row hrow
  exact ⟨hpath, (inSource_iff h hpath).2 (.inr (below_source h hroot hin hpath hunder))⟩

end Rebase

-- Groups above the mounts

section Groups

variable {table : MountTable} {root : Text}

/-- The items whose groups a group lists. -/
def partsOf : Group → List Item
  | .synthetic directory => [.synthetic directory]
  | .mount mount .root => [.mountRoot mount]
  | .mount mount .tree => [.tree mount]
  | .mount mount .all => [.mountRoot mount, .tree mount]

/-- Whether something sorts between a mount's own group and its subtree's groups. -/
def between (table : MountTable) (root : Text) (mount : Mount) : Bool :=
  ((itemsUnder table root).map keyOf).any fun key =>
    pathLt mount.path key && pathLt key (mount.path ++ [0x2f])

/-- The groups of a recursive listing. -/
def GroupUnder (table : MountTable) (root : Text) : Group → Prop
  | .synthetic directory =>
    directory = root ∨ directory ∈ table.synthetic ∧ isUnder directory root = true
  | .mount mount part =>
    (mount ∈ table.mounts ∧ isUnder mount.path root = true) ∧
      if between table root mount then part = .root ∨ part = .tree else part = .all

variable {group : Group}

theorem mem_itemGroups {item : Item} : group ∈ itemGroups ((itemsUnder table root).map keyOf) item ↔
      match item with
      | .synthetic path => group = .synthetic path
      | .tree _ => False
      | .mountRoot mount => ∃ part, group = .mount mount part ∧
          if between table root mount then part = .root ∨ part = .tree else part = .all := by
  unfold itemGroups
  cases item with
  | synthetic path => exact mem_singleton
  | tree mount => exact iff_of_false not_mem_nil id
  | mountRoot mount =>
    dsimp only
    show group ∈ (if between table root mount = true then _ else _) ↔ _
    cases hbetween : between table root mount with
    | true =>
      simp only [if_true, mem_cons, not_mem_nil, or_false]
      constructor
      · rintro (rfl | rfl)
        · exact ⟨.root, rfl, .inl rfl⟩
        · exact ⟨.tree, rfl, .inr rfl⟩
      · rintro ⟨part, rfl, rfl | rfl⟩
        · exact .inl rfl
        · exact .inr rfl
    | false => simp

theorem mem_groupsUnder : group ∈ groupsUnder table root true ↔ GroupUnder table root group := by
  unfold groupsUnder
  rw [Bool.not_true, if_neg Bool.false_ne_true]
  dsimp only
  rw [List.mem_mergeSort, mem_cons, mem_flatMap]
  simp only [mem_itemsUnder, mem_itemGroups]
  constructor
  · rintro (rfl | ⟨item, hitem, hgroup⟩)
    · exact .inl rfl
    · cases item with
      | synthetic path =>
        obtain rfl := hgroup
        exact .inr hitem
      | tree mount => exact hgroup.elim
      | mountRoot mount =>
        obtain ⟨part, rfl, hpart⟩ := hgroup
        exact ⟨hitem, hpart⟩
  · intro hgroup
    cases group with
    | synthetic directory =>
      obtain rfl | hunder := hgroup
      · exact .inl rfl
      · exact .inr ⟨.synthetic directory, hunder, rfl⟩
    | mount mount part => exact .inr ⟨.mountRoot mount, hgroup.1, part, rfl, hgroup.2⟩

/-- An item of a listing: the root's own, or one under it. -/
def ItemListed (table : MountTable) (root : Text) (item : Item) : Prop :=
  item = .synthetic root ∨ ItemUnder table root item

theorem ItemListed.ok {item : Item} (h : ItemListed table root item)
    (hroot : root ∈ table.synthetic) : ItemOk table item := by
  obtain rfl | hunder := h
  · exact hroot
  · exact itemsUnder_ok (canonical_of_synthetic hroot) item (mem_itemsUnder.2 hunder)

/-- Every item has its group. -/
theorem itemListed_iff {item : Item} :
    ItemListed table root item ↔ ∃ group ∈ groupsUnder table root true, item ∈ partsOf group := by
  simp only [mem_groupsUnder]
  constructor
  · rintro (rfl | hunder)
    · exact ⟨.synthetic root, .inl rfl, List.mem_singleton_self _⟩
    · cases item with
      | synthetic path => exact ⟨.synthetic path, .inr hunder, List.mem_singleton_self _⟩
      | mountRoot mount =>
        cases hbetween : between table root mount with
        | true => exact ⟨.mount mount .root, ⟨hunder, by simp [hbetween]⟩, by simp [partsOf]⟩
        | false => exact ⟨.mount mount .all, ⟨hunder, by simp [hbetween]⟩, by simp [partsOf]⟩
      | tree mount =>
        cases hbetween : between table root mount with
        | true => exact ⟨.mount mount .tree, ⟨hunder, by simp [hbetween]⟩, by simp [partsOf]⟩
        | false => exact ⟨.mount mount .all, ⟨hunder, by simp [hbetween]⟩, by simp [partsOf]⟩
  · rintro ⟨group, hgroup, hitem⟩
    cases group with
    | synthetic directory =>
      rw [partsOf, mem_singleton] at hitem
      subst hitem
      exact hgroup.imp_left (congrArg _)
    | mount mount part =>
      right
      cases part <;> simp only [partsOf, mem_cons, not_mem_nil, or_false] at hitem
      · rw [hitem]
        exact hgroup.1
      · rw [hitem]
        exact hgroup.1
      · obtain rfl | rfl := hitem
        · exact hgroup.1
        · exact hgroup.1

/-- No item is in two groups. -/
theorem group_unique {other : Group} (hgroup : group ∈ groupsUnder table root true)
    (hother : other ∈ groupsUnder table root true) {item : Item} (hitem : item ∈ partsOf group)
    (hitem' : item ∈ partsOf other) : group = other := by
  rw [mem_groupsUnder] at hgroup hother
  cases group with
  | synthetic directory =>
    rw [partsOf, mem_singleton] at hitem
    subst hitem
    cases other with
    | synthetic directory' =>
      rw [partsOf, mem_singleton] at hitem'
      rw [Item.synthetic.inj hitem']
    | mount mount part => cases part <;> simp [partsOf] at hitem'
  | mount mount part =>
    cases other with
    | synthetic directory =>
      rw [partsOf, mem_singleton] at hitem'
      subst hitem'
      cases part <;> simp [partsOf] at hitem
    | mount mount' part' =>
      have hmount : mount = mount' := by
        cases part <;> cases part' <;>
          simp only [partsOf, mem_cons, not_mem_nil, or_false] at hitem hitem' <;>
          grind
      subst hmount
      obtain ⟨-, hpart⟩ := hgroup
      obtain ⟨-, hpart'⟩ := hother
      cases hbetween : between table root mount with
      | true =>
        rw [hbetween, if_pos rfl] at hpart hpart'
        obtain rfl | rfl := hpart <;> obtain rfl | rfl := hpart' <;> simp_all [partsOf]
      | false =>
        rw [hbetween, if_neg Bool.false_ne_true] at hpart hpart'
        rw [hpart, hpart']

theorem groupsUnder_nodup (hroot : isCanonicalPath root = true) :
    (groupsUnder table root true).Nodup := by
  unfold groupsUnder
  rw [Bool.not_true, if_neg Bool.false_ne_true]
  dsimp only
  rw [(List.mergeSort_perm _ _).nodup_iff, List.nodup_cons, mem_flatMap]
  simp only [mem_itemsUnder, mem_itemGroups]
  refine ⟨?_, ?_⟩
  · rintro ⟨item, hitem, hgroup⟩
    cases item with
    | synthetic path =>
      obtain rfl := Group.synthetic.inj hgroup
      have := hitem.2
      rw [isUnder_irrefl hroot] at this
      cases this
    | tree mount => exact hgroup
    | mountRoot mount =>
      obtain ⟨part, hgroup, -⟩ := hgroup
      cases hgroup
  · rw [List.nodup_flatMap]
    refine ⟨fun item _ => ?_, (itemsUnder_nodup root).imp fun {item other} hne group hgroup
      hgroup' => hne ?_⟩
    · unfold itemGroups
      cases item with
      | synthetic path => exact List.nodup_singleton _
      | tree mount => exact List.nodup_nil
      | mountRoot mount =>
        dsimp only
        split <;> simp
    · rw [mem_itemGroups] at hgroup hgroup'
      cases item with
      | synthetic path =>
        cases other with
        | synthetic path' => rw [Group.synthetic.inj (hgroup.symm.trans hgroup')]
        | tree mount => exact hgroup'.elim
        | mountRoot mount =>
          obtain ⟨part, hgroup', -⟩ := hgroup'
          cases hgroup.symm.trans hgroup'
      | tree mount => exact hgroup.elim
      | mountRoot mount =>
        obtain ⟨part, hgroup, -⟩ := hgroup
        cases other with
        | synthetic path => cases hgroup.symm.trans hgroup'
        | tree mount => exact hgroup'.elim
        | mountRoot mount' =>
          obtain ⟨part', hgroup', -⟩ := hgroup'
          rw [(Group.mount.inj (hgroup.symm.trans hgroup')).1]

/-- The root stands before all that lies under it. -/
theorem keyOf_root_lt (hroot : isCanonicalPath root = true) {item : Item}
    (h : ItemUnder table root item) : pathLt root (keyOf item) := by
  have hbelow : ∀ {path : Text}, isCanonicalPath path = true → isUnder path root = true →
      pathLt root path := by
    intro path hpath hunder
    obtain ⟨rest, hrest, rfl⟩ := (isUnder_iff hpath hroot).1 hunder
    exact pathLt_of_below hroot hrest
  cases item with
  | synthetic path => exact hbelow (canonical_of_synthetic h.1) h.2
  | mountRoot mount => exact hbelow (MountTable.ok h.1).1 h.2
  | tree mount =>
    refine pathLt_of_lt_of_le (hbelow (MountTable.ok h.1).1 h.2) ?_
    show pathLe mount.path (stem mount.path ++ [0x2f])
    rw [stem, if_neg (ne_root_of_isUnder hroot h.2)]
    exact pathLe_slash _

theorem groupKey_head (h : group ∈ groupsUnder table root true)
    (hroot : isCanonicalPath root = true) :
    ∃ head rest, partsOf group = head :: rest ∧ keyOf head = groupKey group ∧
      ∀ item ∈ rest, ∃ mount, group = .mount mount .all ∧ head = .mountRoot mount ∧
        item = .tree mount := by
  rw [mem_groupsUnder] at h
  cases group with
  | synthetic directory => exact ⟨_, [], rfl, rfl, nofun⟩
  | mount mount part =>
    cases part with
    | root => exact ⟨_, [], rfl, rfl, nofun⟩
    | tree =>
      refine ⟨_, [], rfl, ?_, nofun⟩
      show stem mount.path ++ [0x2f] = mount.path ++ [0x2f]
      rw [stem, if_neg (ne_root_of_isUnder hroot h.1.2)]
    | all =>
      refine ⟨_, [.tree mount], rfl, rfl, fun item hitem => ⟨mount, rfl, rfl, ?_⟩⟩
      exact mem_singleton.1 hitem

/-- The keys of a group are not before its own. -/
theorem groupKey_le (h : group ∈ groupsUnder table root true)
    (hroot : isCanonicalPath root = true) {item : Item} (hitem : item ∈ partsOf group) :
    pathLe (groupKey group) (keyOf item) := by
  obtain ⟨head, rest, hparts, hkey, hrest⟩ := groupKey_head h hroot
  rw [hparts, mem_cons] at hitem
  obtain rfl | hitem := hitem
  · rw [hkey]
    exact pathLe_refl _
  · obtain ⟨mount, rfl, rfl, rfl⟩ := hrest item hitem
    rw [mem_groupsUnder] at h
    show pathLe mount.path (stem mount.path ++ [0x2f])
    rw [stem, if_neg (ne_root_of_isUnder hroot h.1.2)]
    exact pathLe_slash _

/-- No key stands between the parts of a mount that is listed in one. -/
theorem lower_le_keyOf {mount : Mount} (h : Group.mount mount .all ∈ groupsUnder table root true)
    (hroot : isCanonicalPath root = true) {item : Item} (hitem : ItemListed table root item)
    (hlt : pathLt mount.path (keyOf item)) : pathLe (mount.path ++ [0x2f]) (keyOf item) := by
  rw [mem_groupsUnder] at h
  obtain ⟨hmount, hpart⟩ := h
  have hnone : between table root mount = false := by
    rw [← Bool.not_eq_true]
    intro hbetween
    rw [if_pos hbetween] at hpart
    simp at hpart
  obtain rfl | hunder := hitem
  · have hbefore : pathLt root mount.path := @keyOf_root_lt table root hroot (.mountRoot mount) hmount
    exact absurd (pathLt_trans hlt hbefore) (pathLt_irrefl _)
  · rw [← not_pathLt]
    intro hupper
    refine absurd hnone ?_
    rw [Bool.not_eq_false, between, List.any_eq_true]
    exact ⟨keyOf item, List.mem_map_of_mem (mem_itemsUnder.2 hunder), by simp [hlt, hupper]⟩

/-- Groups in order have items in order. -/
theorem parts_lt (hroot : root ∈ table.synthetic) {other : Group}
    (hgroup : group ∈ groupsUnder table root true) (hother : other ∈ groupsUnder table root true)
    (hne : group ≠ other) (hle : pathLe (groupKey group) (groupKey other)) {item item' : Item}
    (hitem : item ∈ partsOf group) (hitem' : item' ∈ partsOf other) :
    pathLt (keyOf item) (keyOf item') := by
  have hcanonical := canonical_of_synthetic hroot
  refine pathLt_of_lt_of_le ?_ (groupKey_le hother hcanonical hitem')
  obtain ⟨head', rest', hparts', hkey', -⟩ := groupKey_head hother hcanonical
  have hhead' : head' ∈ partsOf other := by
    rw [hparts']
    exact List.mem_cons_self
  have hlisted' : ItemListed table root head' := itemListed_iff.2 ⟨other, hother, hhead'⟩
  -- items of different groups have different keys
  have hkeys : ∀ {item : Item}, item ∈ partsOf group → keyOf item ≠ keyOf head' := by
    intro item hitem heq
    have hlisted : ItemListed table root item := itemListed_iff.2 ⟨group, hgroup, hitem⟩
    obtain rfl := keyOf_injective (hlisted.ok hroot) (hlisted'.ok hroot) heq
    exact hne (group_unique hgroup hother hitem hhead')
  rw [← hkey']
  obtain ⟨head, rest, hparts, hkey, hrest⟩ := groupKey_head hgroup hcanonical
  have hhead : head ∈ partsOf group := by
    rw [hparts]
    exact List.mem_cons_self
  have hfirst : pathLt (keyOf head) (keyOf head') := by
    refine pathLt_of_le_of_ne ?_ (hkeys hhead)
    rw [hkey, hkey']
    exact hle
  have hmem := hitem
  rw [hparts, mem_cons] at hmem
  obtain rfl | hmem := hmem
  · exact hfirst
  · obtain ⟨mount, rfl, rfl, rfl⟩ := hrest item hmem
    refine pathLt_of_le_of_ne ?_ (hkeys hitem)
    have hlower := lower_le_keyOf hgroup hcanonical hlisted' hfirst
    show pathLe (stem mount.path ++ [0x2f]) _
    rw [mem_groupsUnder] at hgroup
    rw [stem, if_neg (ne_root_of_isUnder hcanonical hgroup.1.2)]
    exact hlower

end Groups

-- Rows above the mounts

section Rows

variable {view : View} {root : Text}

/-- The rows of an item: of the one group it has, or of all groups under a mount. -/
def itemList (view : View) : Item → List ListItem
  | .synthetic directory => syntheticItems view directory
  | .mountRoot mount => (groupItems view.store mount.source).map (virtualItem mount)
  | .tree mount => ((dirsUnder view.store mount.source).flatMap (groupItems view.store)).map
      (virtualItem mount)

def groupRows (view : View) (group : Group) : List ListItem :=
  (partsOf group).flatMap (itemList view)

theorem childEntry_path {child : Text} {entry : ScanEntry}
    (h : childEntry view child = some entry) : entry.path = child := by
  unfold childEntry at h
  split at h
  · rw [← Option.some.inj h]
  · obtain ⟨stat, -, rfl⟩ := Option.map_eq_some_iff.1 h
    rfl

theorem mem_syntheticItems {directory : Text} : item ∈ syntheticItems view directory ↔
      item.directory = directory ∧
        match item.entry with
        | some entry => ∃ child ∈ view.table.childrenOf directory,
            childEntry view child = some entry
        | none => ∀ child ∈ view.table.childrenOf directory, childEntry view child = none := by
  obtain ⟨itemDirectory, entry⟩ := item
  unfold syntheticItems
  dsimp only
  split
  · rename_i hnone
    rw [List.filterMap_eq_nil_iff] at hnone
    simp only [Option.map_eq_none_iff] at hnone
    rw [mem_singleton]
    cases entry with
    | none => simpa using fun _ => hnone
    | some entry =>
      simp only [ListItem.mk.injEq, reduceCtorEq, and_false, false_iff, not_and, not_exists]
      intro _ child hchild hsome
      rw [hnone child hchild] at hsome
      cases hsome
  · rename_i hsome
    rw [List.mem_filterMap]
    obtain ⟨first, hfirst⟩ := List.exists_mem_of_ne_nil _ hsome
    obtain ⟨firstChild, hmem, hmap⟩ := List.mem_filterMap.1 hfirst
    obtain ⟨firstEntry, hentry, -⟩ := Option.map_eq_some_iff.1 hmap
    simp only [Option.map_eq_some_iff, ListItem.mk.injEq]
    cases entry with
    | none =>
      refine iff_of_false (by simp) ?_
      rintro ⟨-, hnone⟩
      rw [hnone firstChild hmem] at hentry
      cases hentry
    | some entry =>
      constructor
      · rintro ⟨child, hchild, found, hfound, rfl, heq⟩
        cases heq
        exact ⟨rfl, child, hchild, hfound⟩
      · rintro ⟨rfl, child, hchild, hfound⟩
        exact ⟨child, hchild, entry, hfound, rfl, rfl⟩

theorem childrenOf_ordered (table : MountTable) (directory : Text) :
    (table.childrenOf directory).Pairwise fun path other => pathLt path other :=
  sortPaths_ordered (List.nodup_dedup _)

theorem syntheticItems_ordered (directory : Text) :
    (syntheticItems view directory).Pairwise itemLt := by
  unfold syntheticItems
  dsimp only
  split
  · exact pairwise_singleton _ _
  · rw [List.pairwise_filterMap]
    refine (childrenOf_ordered _ _).imp fun {child other} hlt item hitem item' hitem' => ?_
    obtain ⟨entry, hentry, rfl⟩ := Option.map_eq_some_iff.1 hitem
    obtain ⟨entry', hentry', rfl⟩ := Option.map_eq_some_iff.1 hitem'
    refine .inr ⟨rfl, ?_⟩
    show pathLt entry.path entry'.path
    rw [childEntry_path hentry, childEntry_path hentry']
    exact hlt

/-- The store's rows behind an item of a mount, in the source. -/
theorem itemIn_of_mem_store {mount : Mount} (h : mount.Ok)
    (hitem : item ∈ groupItems view.store mount.source ∨
      item ∈ (dirsUnder view.store mount.source).flatMap (groupItems view.store)) :
    ItemIn mount item := by
  obtain hitem | hitem := hitem
  · exact itemIn_of_mem_group h h.2 (inSource_self h) hitem
  · obtain ⟨directory, hdir, hitem⟩ := mem_flatMap.1 hitem
    obtain ⟨hcanonical, hin⟩ := dirsUnder_ok h h.2 (inSource_self h) hdir
    exact itemIn_of_mem_group h hcanonical hin hitem

section

variable {item : Item} (hitem : ItemOk view.table item)

include hitem

theorem itemList_ordered :
    (itemList view item).Pairwise itemLt := by
  cases item with
  | synthetic directory => exact syntheticItems_ordered directory
  | mountRoot mount =>
    have hok := MountTable.ok hitem.1
    rw [itemList, pairwise_map]
    exact (groupItems_ordered mount.source).imp_of_mem fun hrow hother hlt =>
      (itemLt_virtualItem hok (itemIn_of_mem_store hok (.inl hrow))
        (itemIn_of_mem_store hok (.inl hother))).2 hlt
  | tree mount =>
    have hok := MountTable.ok hitem.1
    rw [itemList, pairwise_map]
    exact (flatMap_groups_ordered dirsUnder_ordered).imp_of_mem fun hrow hother hlt =>
      (itemLt_virtualItem hok (itemIn_of_mem_store hok (.inr hrow))
        (itemIn_of_mem_store hok (.inr hother))).2 hlt

/-- The directory of a row is one of its item's paths. -/
theorem within_of_mem_itemList {row : ListItem}
    (h : row ∈ itemList view item) : Within item row.directory := by
  cases item with
  | synthetic directory => exact (mem_syntheticItems.1 h).1
  | mountRoot mount =>
    have hok := MountTable.ok hitem.1
    obtain ⟨item, hmem, rfl⟩ := mem_map.1 h
    show virtualOf mount item.directory = mount.path
    rw [(mem_groupItems.1 hmem).1, virtualOf_source hok]
  | tree mount =>
    have hok := MountTable.ok hitem.1
    obtain ⟨item, hmem, rfl⟩ := mem_map.1 h
    obtain ⟨directory, hdir, hmem⟩ := mem_flatMap.1 hmem
    obtain ⟨row, hrow, -, hunder, rfl⟩ := mem_dirsUnder.1 hdir
    obtain ⟨rest, hrest, heq⟩ := (isUnder_iff (view.store.canonical row hrow) hok.2).1 hunder
    refine ⟨rest, hrest, ?_⟩
    show virtualOf mount item.directory = _
    rw [(mem_groupItems.1 hmem).1, heq, virtualOf_below hrest]

theorem canonical_of_mem_itemList {row : ListItem}
    (h : row ∈ itemList view item) : isCanonicalPath row.directory = true := by
  cases item with
  | synthetic directory =>
    rw [(mem_syntheticItems.1 h).1]
    exact canonical_of_synthetic hitem
  | mountRoot mount =>
    have hok := MountTable.ok hitem.1
    obtain ⟨item, hmem, rfl⟩ := mem_map.1 h
    have hin := itemIn_of_mem_store hok (.inl hmem)
    exact (virtualOf_ok hok hin.1.1 hin.1.2).1
  | tree mount =>
    have hok := MountTable.ok hitem.1
    obtain ⟨item, hmem, rfl⟩ := mem_map.1 h
    have hin := itemIn_of_mem_store hok (.inr hmem)
    exact (virtualOf_ok hok hin.1.1 hin.1.2).1

end

/-- A path belongs to one item. -/
theorem within_unique {table : MountTable} {item other : Item} (hitem : ItemOk table item)
    (hother : ItemOk table other) {path : Text} (h : Within item path) (h' : Within other path) :
    item = other := by
  by_contra hne
  obtain hle | hle := pathLe_total (keyOf item) (keyOf other)
  · exact pathLt_irrefl _ (pathLt_of_lt_of_le (lt_keyOf hitem hother hne hle h) (keyOf_le h'))
  · exact pathLt_irrefl _
      (pathLt_of_lt_of_le (lt_keyOf hother hitem (Ne.symm hne) hle h') (keyOf_le h))

/-- Every row of a recursive listing above the mounts. -/
def rowsAbove (view : View) (root : Text) (recursive : Bool) : List ListItem :=
  (groupsUnder view.table root recursive).flatMap (groupRows view)

theorem mem_rowsAbove {row : ListItem} :
    row ∈ rowsAbove view root true ↔
      ∃ item, ItemListed view.table root item ∧ row ∈ itemList view item := by
  unfold rowsAbove groupRows
  simp only [mem_flatMap, itemListed_iff]
  constructor
  · rintro ⟨group, hgroup, item, hitem, hrow⟩
    exact ⟨item, ⟨group, hgroup, hitem⟩, hrow⟩
  · rintro ⟨item, ⟨group, hgroup, hitem⟩, hrow⟩
    exact ⟨group, hgroup, item, hitem, hrow⟩

theorem rowsAbove_single : rowsAbove view root false = syntheticItems view root := by
  simp [rowsAbove, groupsUnder, groupRows, partsOf, itemList]

theorem rowsAbove_ordered (hroot : root ∈ view.table.synthetic) (recursive : Bool) :
    (rowsAbove view root recursive).Pairwise itemLt := by
  cases recursive with
  | false =>
    rw [rowsAbove_single]
    exact syntheticItems_ordered root
  | true =>
    have hcanonical := canonical_of_synthetic hroot
    have hrows : ∀ {item item' : Item}, ItemListed view.table root item →
        ItemListed view.table root item' → pathLt (keyOf item) (keyOf item') →
        ∀ row ∈ itemList view item, ∀ row' ∈ itemList view item', itemLt row row' := by
      intro item item' hitem hitem' hlt row hrow row' hrow'
      exact .inl (within_lt (hitem.ok hroot) (hitem'.ok hroot) hlt
        (within_of_mem_itemList (hitem.ok hroot) hrow)
        (within_of_mem_itemList (hitem'.ok hroot) hrow'))
    have hsorted : (groupsUnder view.table root true).Pairwise fun group other =>
        pathLe (groupKey group) (groupKey other) := sort_ordered groupKey _
    unfold rowsAbove
    rw [List.pairwise_flatMap]
    refine ⟨fun group hgroup => ?_, (hsorted.and (groupsUnder_nodup hcanonical)).imp_of_mem
      fun {group other} hgroup hother h row hrow row' hrow' => ?_⟩
    · -- within a group only a mount's two parts stand in order
      have hlisted : ∀ item ∈ partsOf group, ItemListed view.table root item := fun item hitem =>
        itemListed_iff.2 ⟨group, hgroup, hitem⟩
      unfold groupRows
      rw [List.pairwise_flatMap]
      refine ⟨fun item hitem => itemList_ordered ((hlisted item hitem).ok hroot), ?_⟩
      cases group with
      | synthetic directory => exact pairwise_singleton _ _
      | mount mount part =>
        cases part with
        | root => exact pairwise_singleton _ _
        | tree => exact pairwise_singleton _ _
        | all =>
          refine List.pairwise_pair.2 ?_
          have hroots := hlisted (.mountRoot mount) (by simp [partsOf])
          have htree := hlisted (.tree mount) (by simp [partsOf])
          refine hrows hroots htree ?_
          refine pathLt_of_le_of_ne ?_ fun heq => ?_
          · exact groupKey_le hgroup hcanonical (by simp [partsOf])
          · cases keyOf_injective (hroots.ok hroot) (htree.ok hroot) heq
    · obtain ⟨item, hitem, hrow⟩ := mem_flatMap.1 hrow
      obtain ⟨item', hitem', hrow'⟩ := mem_flatMap.1 hrow'
      exact hrows (itemListed_iff.2 ⟨group, hgroup, hitem⟩) (itemListed_iff.2 ⟨other, hother, hitem'⟩)
        (parts_lt hroot hgroup hother h.2 h.1 hitem hitem') row hrow row' hrow'

end Rows

end Kompjutr.Fs.Mounted
