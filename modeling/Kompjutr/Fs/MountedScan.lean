/-
  Kompjutr.Fs.MountedScan

  The pages of a scan through a mounted view.

  `Shown` says what the view's namespace holds.  A root has one listing of it, in path
  order.  A page is the first rows of that listing past its cursor, so pages that are
  resumed behind each other give the listing, and one that is resumed past a subtree
  leaves out that subtree and nothing else.
-/
import Kompjutr.Fs.MountedTable
import Kompjutr.Lib.KeyTable
import Kompjutr.Lib.Keyset

namespace Kompjutr.Fs.Mounted

open Objects (Text text)
open List (append_assoc filter_congr filter_filter filter_sublist length_append length_take
  mem_filter mem_map mem_of_mem_take take_of_length_le)

-- The namespace

/-- The entries of a view: the synthetic directories, and each mount's source with its subtree at
    the mount's path. -/
def Shown (view : View) (entry : ScanEntry) : Prop :=
  (entry.path ∈ view.table.synthetic ∧ entry.stat = view.table.syntheticStat entry.path) ∨
    ∃ mount ∈ view.table.mounts, ∃ row ∈ view.store.rows, inSource mount row.path = true ∧
      entry = virtualEntry mount row.entry

/-- A root that a paged call may start from. -/
def RootOk (view : View) : ViewRoot → Prop
  | .mount mount real => mount ∈ view.table.mounts ∧ isCanonicalPath real = true ∧
      inSource mount real = true
  | .above path => path ∈ view.table.synthetic
  | .none path => isCanonicalPath path = true

/-- The virtual path of a root. -/
def rootPath : ViewRoot → Text
  | .mount mount real => virtualOf mount real
  | .above path => path
  | .none path => path

/-- What a scan of a root lists: the entries strictly under it.  For `filesOnly` a mount point
    counts as the directory it stands for. -/
def Scanned (view : View) (root : ViewRoot) (filesOnly : Bool) (entry : ScanEntry) : Prop :=
  (∀ path, root ≠ .none path) ∧ Shown view entry ∧ isUnder entry.path (rootPath root) = true ∧
    (filesOnly = true → entry.stat.type ≠ .dir ∧ ∀ mount ∈ view.table.mounts,
      entry.path ≠ mount.path)

-- Pages of the store

section Store

variable {table : PathTable} {root : Text}

/-- The rows strictly under a real directory. -/
def rowsUnder (table : PathTable) (root : Text) (filesOnly : Bool) : List PathRow :=
  table.rows.filter fun row => isUnder row.path root && (!filesOnly || row.stat.type ≠ .dir)

theorem mem_rowsUnder {row : PathRow} {filesOnly : Bool} :
    row ∈ rowsUnder table root filesOnly ↔
      row ∈ table.rows ∧ isUnder row.path root = true ∧
        (filesOnly = true → row.stat.type ≠ .dir) := by
  unfold rowsUnder
  rw [mem_filter, Bool.and_eq_true]
  cases filesOnly <;> simp

/-- The bounds of a page are the edges of the root's subtree. -/
theorem bounds_iff (hroot : isCanonicalPath root = true) {row : PathRow} (hrow : row ∈ table.rows) :
    pathLt (subtreeLower root) row.path ∧ pathLt row.path (subtreeSuccessor root) ↔
      isUnder row.path root = true := by
  rw [subtreeLower_eq, subtreeSuccessor_eq hroot, range_iff,
    isUnder_iff (table.canonical row hrow) hroot]

/-- The later of two paths is what a row has to be past. -/
theorem max_lt_iff {lower other path : Text} :
    pathLt (if pathLt lower other then other else lower) path ↔
      pathLt lower path ∧ pathLt other path := by
  split
  · rename_i hlt
    exact ⟨fun h => ⟨pathLt_trans hlt h, h⟩, fun h => h.2⟩
  · rename_i hle
    exact ⟨fun h => ⟨h, pathLt_of_le_of_lt (not_pathLt.1 hle) h⟩, fun h => h.1⟩

theorem max_le_iff {lower other path : Text} (hlower : pathLt lower path) :
    pathLe (if pathLt lower other then other else lower) path ↔ pathLe other path := by
  split
  · exact Iff.rfl
  · rename_i hle
    exact iff_of_true (pathLe_of_lt hlower) (pathLe_trans (not_pathLt.1 hle) (pathLe_of_lt hlower))

/-- A page of the store is the first of the rows past the cursor. -/
theorem storeScan_eq (hroot : isCanonicalPath root = true) (cursor : ScanCursor) (filesOnly : Bool)
    (limit : Nat) :
    storeScan table root cursor filesOnly limit =
      (((rowsUnder table root filesOnly).filter fun row =>
        pointVisible row.path cursor).take limit).map PathRow.entry := by
  have hselect : ∀ lower inclusive, (∀ row ∈ table.rows,
      (pathLt lower row.path ∧ pathLt row.path (subtreeSuccessor root)) ∧
        (∀ path, inclusive = some path → pathLe path row.path) ↔
      isUnder row.path root = true ∧ pointVisible row.path cursor = true) →
      selectPage table lower (subtreeSuccessor root) inclusive filesOnly =
        (rowsUnder table root filesOnly).filter fun row => pointVisible row.path cursor := by
    intro lower inclusive hrows
    unfold selectPage rowsUnder
    rw [filter_filter]
    refine filter_congr fun row hrow => ?_
    rw [Bool.eq_iff_iff]
    have hiff := hrows row hrow
    simp only [Bool.and_eq_true, decide_eq_true_eq, Option.all_eq_true_iff_get] at hiff ⊢
    constructor
    · rintro ⟨⟨hrange, hinclusive⟩, hfiles⟩
      have hall : ∀ path, inclusive = some path → pathLe path row.path := by
        rintro path rfl
        exact hinclusive rfl
      obtain ⟨hunder, hvisible⟩ := hiff.1 ⟨hrange, hall⟩
      exact ⟨hvisible, hunder, hfiles⟩
    · rintro ⟨hvisible, hunder, hfiles⟩
      obtain ⟨hrange, hinclusive⟩ := hiff.2 ⟨hunder, hvisible⟩
      exact ⟨⟨hrange, fun h => hinclusive _ (Option.some_get h).symm⟩, hfiles⟩
  unfold storeScan
  cases cursor with
  | start =>
    dsimp only
    rw [hselect _ none fun row hrow => ?_]
    rw [bounds_iff hroot hrow]
    simp [pointVisible]
  | after path =>
    dsimp only
    rw [hselect _ none fun row hrow => ?_]
    rw [max_lt_iff, ← bounds_iff hroot hrow]
    simp only [reduceCtorEq, false_implies, implies_true, and_true, pointVisible, decide_eq_true_eq]
    exact and_right_comm
  | afterSubtree directory =>
    dsimp only
    rw [hselect _ (some _) fun row hrow => ?_]
    rw [bounds_iff hroot hrow]
    refine and_congr_right fun hunder => ?_
    have hlower := ((bounds_iff hroot hrow).2 hunder).1
    simp only [Option.some.injEq, forall_eq', pointVisible, decide_eq_true_eq]
    exact max_le_iff hlower

/-- The metadata of a path is that of its one row. -/
theorem statRaw_eq_some {path : Text} {stat : Stat} :
    statRaw table path = some stat ↔ ∃ row ∈ table.rows, row.path = path ∧ row.stat = stat := by
  unfold statRaw
  rw [Option.map_eq_some_iff]
  constructor
  · rintro ⟨row, hfind, hstat⟩
    exact ⟨row, List.mem_of_find?_eq_some hfind, by simpa using List.find?_some hfind, hstat⟩
  · rintro ⟨row, hrow, rfl, hstat⟩
    -- no two rows have one path
    have hpaths : (table.rows.map (·.path)).Nodup :=
      List.pairwise_map.2 (table.ordered.imp fun hlt => ne_of_pathLt hlt)
    exact ⟨row, find?_key hrow fun _ hother => List.inj_on_of_nodup_map hpaths hother hrow, hstat⟩

end Store

-- A mount's subtree

section Tree

variable {view : View} {mount : Mount} {root : Text} {filesOnly : Bool}

/-- The rows under a real directory of a mount, as the view shows them. -/
def treeRows (view : View) (mount : Mount) (root : Text) (filesOnly : Bool) : List ScanEntry :=
  (rowsUnder view.store root filesOnly).map fun row => virtualEntry mount row.entry

section

variable (h : mount.Ok) (hroot : isCanonicalPath root = true) (hin : inSource mount root = true)

include h hroot hin

/-- What lies under a directory of a source lies under the source. -/
theorem below_source {path : Text} (hpath : isCanonicalPath path = true)
    (hunder : isUnder path root = true) :
    ∃ rest, rest ≠ [] ∧ path = stem mount.source ++ 0x2f :: rest := by
  rw [← isUnder_iff hpath h.2]
  obtain rfl | ⟨rest, hrest, heq⟩ := (inSource_iff h hroot).1 hin
  · exact hunder
  · exact isUnder_trans hpath hroot h.2 hunder (isUnder_canonical hroot h.2 hrest heq)

theorem mem_rowsUnder_below {row : PathRow}
    (hrow : row ∈ rowsUnder view.store root filesOnly) :
    ∃ rest, rest ≠ [] ∧ row.path = stem mount.source ++ 0x2f :: rest := by
  obtain ⟨hmem, hunder, -⟩ := mem_rowsUnder.1 hrow
  exact below_source h hroot hin (view.store.canonical row hmem) hunder

/-- A page of a mount's subtree is the first of its rows past the cursor. -/
theorem treePage_eq {cursor : ScanCursor} (hcursor : cursor.Ok) (limit : Nat) :
    treePage view mount root cursor filesOnly limit =
      ((treeRows view mount root filesOnly).filter fun entry =>
        pointVisible entry.path cursor).take limit := by
  have hvisible : ∀ row ∈ rowsUnder view.store root filesOnly,
      pointVisible (virtualOf mount row.path) cursor = true ↔
        ∃ resumed, resumeIn mount cursor = some resumed ∧
          pointVisible row.path resumed = true := by
    intro row hrow
    obtain ⟨rest, hrest, heq⟩ := mem_rowsUnder_below h hroot hin hrow
    rw [heq, virtualOf_below hrest]
    exact resumeIn_visible h hrest hcursor
  unfold treePage treeRows
  rw [List.filter_map]
  cases hresume : resumeIn mount cursor with
  | none =>
    have hnone : (rowsUnder view.store root filesOnly).filter
        ((fun entry => pointVisible entry.path cursor) ∘
          fun row => virtualEntry mount row.entry) = [] := by
      rw [List.filter_eq_nil_iff]
      intro row hrow hpast
      obtain ⟨resumed, hsome, -⟩ := (hvisible row hrow).1 hpast
      rw [hresume] at hsome
      cases hsome
    rw [hnone, List.map_nil, List.take_nil]
  | some resumed =>
    have hcongr : (rowsUnder view.store root filesOnly).filter
        ((fun entry => pointVisible entry.path cursor) ∘
          fun row => virtualEntry mount row.entry) =
        (rowsUnder view.store root filesOnly).filter fun row => pointVisible row.path resumed := by
      refine filter_congr fun row hrow => ?_
      rw [Bool.eq_iff_iff]
      refine (hvisible row hrow).trans ?_
      rw [hresume]
      exact ⟨fun ⟨_, hsome, hpast⟩ => Option.some.inj hsome ▸ hpast, fun hpast => ⟨_, rfl, hpast⟩⟩
    rw [hcongr, ← List.map_take]
    dsimp only
    rw [storeScan_eq hroot, List.map_map]
    rfl

/-- The rows of a mount's subtree stand in path order. -/
theorem treeRows_ordered :
    (treeRows view mount root filesOnly).Pairwise fun entry other =>
      pathLt entry.path other.path := by
  unfold treeRows
  rw [List.pairwise_map]
  have hrows : (rowsUnder view.store root filesOnly).Pairwise fun row other =>
      pathLt row.path other.path := view.store.ordered.sublist filter_sublist
  refine hrows.imp_of_mem fun {row other} hrow hother hlt => ?_
  obtain ⟨rest, hrest, heq⟩ := mem_rowsUnder_below h hroot hin hrow
  obtain ⟨rest', hrest', heq'⟩ := mem_rowsUnder_below h hroot hin hother
  show pathLt (virtualOf mount row.path) (virtualOf mount other.path)
  rw [heq, heq'] at hlt ⊢
  rw [virtualOf_below hrest, virtualOf_below hrest']
  exact pathLt_below.1 hlt

end

/-- A path of the source and its virtual path end with the same components. -/
theorem componentsOf_virtualOf (h : mount.Ok) {path : Text} (hpath : isCanonicalPath path = true)
    (hin : inSource mount path = true) :
    ∃ more, componentsOf path = componentsOf mount.source ++ more ∧
      isCanonicalPath (virtualOf mount path) = true ∧
      componentsOf (virtualOf mount path) = componentsOf mount.path ++ more := by
  obtain rfl | ⟨rest, hrest, rfl⟩ := (inSource_iff h hpath).1 hin
  · refine ⟨[], by simp, ?_, ?_⟩
    · rw [virtualOf_source h]
      exact h.1
    · rw [virtualOf_source h, List.append_nil]
  · rw [virtualOf_below hrest]
    have hcanonical := canonical_rebase h.2 h.1 hrest hpath
    exact ⟨rest.splitOn 0x2f, componentsOf_below h.2 hrest hpath, hcanonical,
      componentsOf_below h.1 hrest hcanonical⟩

/-- Rebasing keeps what lies under a directory of the source. -/
theorem isUnder_virtualOf (h : mount.Ok) (hroot : isCanonicalPath root = true)
    (hin : inSource mount root = true) {path : Text} (hpath : isCanonicalPath path = true)
    (hsource : inSource mount path = true) :
    isUnder (virtualOf mount path) (virtualOf mount root) = true ↔ isUnder path root = true := by
  obtain ⟨more, hmore, hcanonical, hvirtual⟩ := componentsOf_virtualOf h hroot hin
  obtain ⟨more', hmore', hcanonical', hvirtual'⟩ := componentsOf_virtualOf h hpath hsource
  rw [isUnder_iff_components hpath hroot, isUnder_iff_components hcanonical' hcanonical, hmore,
    hmore', hvirtual, hvirtual']
  simp only [append_assoc, List.append_cancel_left_eq]

end Tree

-- The items above the mounts

section Items

variable {view : View} {filesOnly : Bool}

/-- An item of a table, not at `/`. -/
def ItemOk (table : MountTable) : Item → Prop
  | .synthetic path => path ∈ table.synthetic
  | .mountRoot mount => mount ∈ table.mounts ∧ mount.path ≠ [0x2f]
  | .tree mount => mount ∈ table.mounts ∧ mount.path ≠ [0x2f]

/-- The rows of an item. -/
def itemRows (view : View) (filesOnly : Bool) : Item → List ScanEntry
  | .synthetic path => pointEntry path (some (view.table.syntheticStat path)) .start filesOnly
  | .mountRoot mount => pointEntry mount.path (statRaw view.store mount.source) .start filesOnly
  | .tree mount => treeRows view mount mount.source filesOnly

theorem pointEntry_eq (path : Text) (stat : Option Stat) (cursor : ScanCursor) :
    pointEntry path stat cursor filesOnly =
      (pointEntry path stat .start filesOnly).filter fun entry =>
        pointVisible entry.path cursor := by
  unfold pointEntry
  cases filesOnly with
  | true => rfl
  | false =>
    have hstart : pointVisible path .start = true := rfl
    cases stat with
    | none => cases hvisible : pointVisible path cursor <;> simp [hstart]
    | some stat => cases hvisible : pointVisible path cursor <;> simp [hstart, hvisible]

theorem inSource_self {mount : Mount} (h : mount.Ok) : inSource mount mount.source = true :=
  (inSource_iff h h.2).2 (.inl rfl)

/-- The loop over the items keeps the first of all rows past the cursor. -/
theorem scanItems_eq {cursor : ScanCursor} (hcursor : cursor.Ok) (limit : Nat)
    (out : List ScanEntry) (items : List Item) (hitems : ∀ item ∈ items, ItemOk view.table item)
    (hout : out.length ≤ limit) :
    scanItems view cursor filesOnly limit out items =
      (out ++ (items.flatMap (itemRows view filesOnly)).filter fun entry =>
        pointVisible entry.path cursor).take limit := by
  induction items generalizing out with
  | nil =>
    unfold scanItems
    rw [List.flatMap_nil, List.filter_nil, List.append_nil, take_of_length_le hout]
  | cons item items ih =>
    have hrest : ∀ other ∈ items, ItemOk view.table other := fun other hother =>
      hitems other (List.mem_cons_of_mem _ hother)
    rw [List.flatMap_cons, List.filter_append]
    unfold scanItems
    dsimp only
    by_cases hwanted : limit - out.length = 0
    · rw [if_pos hwanted, List.take_append_of_le_length (by omega), take_of_length_le hout]
    rw [if_neg hwanted]
    -- a point has at most one row
    have hpoint : ∀ path stat, (pointEntry path stat cursor filesOnly).length ≤ 1 := by
      intro path stat
      unfold pointEntry
      split
      · exact Nat.zero_le _
      · cases stat <;> simp
    cases item with
    | synthetic path =>
      dsimp only
      rw [ih _ hrest, pointEntry_eq, append_assoc]
      · rfl
      · have := hpoint path (some (view.table.syntheticStat path))
        rw [length_append]
        omega
    | mountRoot mount =>
      dsimp only
      rw [ih _ hrest, pointEntry_eq, append_assoc]
      · rfl
      · have := hpoint mount.path (statRaw view.store mount.source)
        rw [length_append]
        omega
    | tree mount =>
      have hok := MountTable.ok (hitems (.tree mount) List.mem_cons_self).1
      dsimp only
      rw [treePage_eq hok hok.2 (inSource_self hok) hcursor]
      show _ = (out ++ ((treeRows view mount mount.source filesOnly).filter _ ++ _)).take limit
      generalize (treeRows view mount mount.source filesOnly).filter
        (fun entry => pointVisible entry.path cursor) = rows
      rw [← append_assoc]
      split
      · rename_i hfull
        rw [length_take] at hfull
        rw [List.take_append_of_le_length (by rw [length_append]; omega), List.take_append,
          take_of_length_le hout]
      · rename_i hshort
        rw [length_take] at hshort
        rw [take_of_length_le (by omega), ih _ hrest]
        rw [length_append]
        omega

/-- The paths an item stands for. -/
def Within : Item → Text → Prop
  | .synthetic point, path => path = point
  | .mountRoot mount, path => path = mount.path
  | .tree mount, path => ∃ rest, rest ≠ [] ∧ path = stem mount.path ++ 0x2f :: rest

variable {item : Item}

theorem keyOf_le {path : Text} (h : Within item path) : pathLe (keyOf item) path := by
  cases item with
  | synthetic point => exact h ▸ pathLe_refl _
  | mountRoot mount => exact h ▸ pathLe_refl _
  | tree mount =>
    obtain ⟨rest, -, rfl⟩ := h
    exact under_lower _ _

section Keys

variable {table : MountTable}

/-- The lower edge of a mount is no canonical path. -/
theorem mountLower_not_canonical {mount : Mount} (hmount : mount ∈ table.mounts)
    (hroot : mount.path ≠ [0x2f]) : isCanonicalPath (mountLower mount) ≠ true := by
  intro hcanonical
  exact rest_ne_nil (MountTable.ok hmount).1 hroot hcanonical rfl

theorem inMount_self {mount : Mount} (hmount : mount ∈ table.mounts) :
    inMount mount mount.path = true :=
  (inMount_iff (MountTable.ok hmount) (MountTable.ok hmount).1).2 (.inl rfl)

theorem keyOf_injective {other : Item} (hitem : ItemOk table item)
    (hother : ItemOk table other) (h : keyOf item = keyOf other) : item = other := by
  -- a synthetic directory is no mount's path
  have hpoint : ∀ {path : Text} {mount : Mount}, path ∈ table.synthetic → mount ∈ table.mounts →
      path ≠ mount.path := by
    rintro path mount hpath hmount rfl
    have := not_inMount_of_synthetic hpath hmount
    rw [inMount_self hmount] at this
    cases this
  cases item with
  | synthetic path =>
    cases other with
    | synthetic path' => exact congrArg _ h
    | mountRoot mount => exact absurd h (hpoint hitem hother.1)
    | tree mount =>
      refine absurd (canonical_of_synthetic hitem) ?_
      have : path = mountLower mount := h
      rw [this]
      exact mountLower_not_canonical hother.1 hother.2
  | mountRoot mount =>
    cases other with
    | synthetic path => exact absurd h.symm (hpoint hother hitem.1)
    | mountRoot mount' => rw [(MountTable.apart_of_mem hother.1 hitem.1).2 h]
    | tree mount' =>
      refine absurd (MountTable.ok hitem.1).1 ?_
      have : mount.path = mountLower mount' := h
      rw [this]
      exact mountLower_not_canonical hother.1 hother.2
  | tree mount =>
    cases other with
    | synthetic path =>
      refine absurd (canonical_of_synthetic hother) ?_
      have : mountLower mount = path := h
      rw [← this]
      exact mountLower_not_canonical hitem.1 hitem.2
    | mountRoot mount' =>
      refine absurd (MountTable.ok hother.1).1 ?_
      have : mountLower mount = mount'.path := h
      rw [← this]
      exact mountLower_not_canonical hitem.1 hitem.2
    | tree mount' =>
      have hlower : mountLower mount = mountLower mount' := h
      rw [mountLower_eq, mountLower_eq, stem, stem, if_neg hitem.2, if_neg hother.2] at hlower
      rw [(MountTable.apart_of_mem hother.1 hitem.1).2 (List.append_cancel_right hlower)]

/-- No item's key lies inside a mount's range. -/
theorem keyOf_not_below (hitem : ItemOk table item) {mount : Mount}
    (hmount : mount ∈ table.mounts) {rest : Text} (hrest : rest ≠ []) :
    keyOf item ≠ stem mount.path ++ 0x2f :: rest := by
  have hok := MountTable.ok hmount
  have hbelow : ∀ {other : Mount} {rest : Text}, other ∈ table.mounts → rest ≠ [] →
      other.path ≠ stem mount.path ++ 0x2f :: rest := by
    intro other rest hother hrest heq
    have hunder := isUnder_canonical (MountTable.ok hother).1 hok.1 hrest heq
    rw [(MountTable.apart_of_mem hmount hother).1] at hunder
    cases hunder
  intro hkey
  cases item with
  | synthetic path =>
    have hin := (inMount_iff hok (canonical_of_synthetic hitem)).2 (.inr ⟨rest, hrest, hkey⟩)
    rw [not_inMount_of_synthetic hitem hmount] at hin
    cases hin
  | mountRoot other => exact hbelow hitem.1 hrest hkey
  | tree other =>
    -- the slash that ends the key ends the rest, and the mount's path goes on before it
    have hlower : other.path ++ [0x2f] = stem mount.path ++ 0x2f :: rest := by
      rw [← hkey]
      show _ = stem other.path ++ [0x2f]
      rw [stem, if_neg hitem.2]
    obtain ⟨more, last, hmore⟩ := (List.eq_nil_or_concat rest).resolve_left hrest
    rw [hmore, List.concat_eq_append, ← List.cons_append, ← append_assoc] at hlower
    have hpath := (List.append_inj' hlower rfl).1
    refine hbelow hitem.1 ?_ hpath
    rintro rfl
    by_cases hroot : mount.path = [0x2f]
    · rw [stem, if_pos hroot] at hpath
      exact hitem.2 hpath
    · refine rest_ne_nil hok.1 hroot ?_ rfl
      rw [← hpath]
      exact (MountTable.ok hitem.1).1

/-- What an item stands for lies before every later key. -/
theorem lt_keyOf {other : Item} (hitem : ItemOk table item) (hother : ItemOk table other)
    (hne : item ≠ other) (hle : pathLe (keyOf item) (keyOf other)) {path : Text}
    (h : Within item path) : pathLt path (keyOf other) := by
  have hlt : pathLt (keyOf item) (keyOf other) :=
    pathLt_of_le_of_ne hle fun heq => hne (keyOf_injective hitem hother heq)
  cases item with
  | synthetic point => exact h ▸ hlt
  | mountRoot mount => exact h ▸ hlt
  | tree mount =>
    obtain ⟨rest, -, rfl⟩ := h
    refine pathLt_of_lt_of_le (under_upper _ _) (not_pathLt.1 fun hupper => ?_)
    obtain ⟨rest', hrest', hkey⟩ := range_iff.1 ⟨hlt, hupper⟩
    exact keyOf_not_below hother hitem.1 hrest' hkey

/-- Whether an item lies strictly under a directory. -/
def ItemUnder (table : MountTable) (root : Text) : Item → Prop
  | .synthetic path => path ∈ table.synthetic ∧ isUnder path root = true
  | .mountRoot mount => mount ∈ table.mounts ∧ isUnder mount.path root = true
  | .tree mount => mount ∈ table.mounts ∧ isUnder mount.path root = true

theorem mem_itemsUnder {root : Text} :
    item ∈ itemsUnder table root ↔ ItemUnder table root item := by
  unfold itemsUnder MountTable.syntheticUnder MountTable.mountsUnder
  rw [List.mem_mergeSort, List.mem_append]
  cases item with
  | synthetic path => simp [ItemUnder]
  | mountRoot mount => simp [ItemUnder]
  | tree mount => simp [ItemUnder]

theorem ne_root_of_isUnder {root path : Text} (hroot : isCanonicalPath root = true)
    (h : isUnder path root = true) : path ≠ [0x2f] := by
  rintro rfl
  obtain ⟨more, hmore, hparts⟩ := (isUnder_iff_components rfl hroot).1 h
  rw [componentsOf_root, eq_comm, List.append_eq_nil_iff] at hparts
  exact hmore hparts.2

theorem itemsUnder_ok {root : Text} (hroot : isCanonicalPath root = true) :
    ∀ item ∈ itemsUnder table root, ItemOk table item := by
  intro item hitem
  rw [mem_itemsUnder] at hitem
  cases item with
  | synthetic path => exact hitem.1
  | mountRoot mount => exact ⟨hitem.1, ne_root_of_isUnder hroot hitem.2⟩
  | tree mount => exact ⟨hitem.1, ne_root_of_isUnder hroot hitem.2⟩

theorem synthetic_ordered : table.synthetic.Pairwise fun path other => pathLt path other :=
  sortPaths_ordered (List.nodup_dedup _)

theorem mounts_nodup : table.mounts.Nodup := by
  refine table.separate.imp fun {mount other} h heq => ?_
  subst heq
  simp [apart] at h

theorem itemsUnder_nodup (root : Text) : (itemsUnder table root).Nodup := by
  have hsynthetic : (table.syntheticUnder root).Nodup :=
    (synthetic_ordered.imp fun hlt => ne_of_pathLt hlt).sublist filter_sublist
  have hmounts : (table.mountsUnder root).Nodup := mounts_nodup.sublist filter_sublist
  unfold itemsUnder
  rw [(List.mergeSort_perm _ _).nodup_iff, List.nodup_append]
  refine ⟨hsynthetic.map fun path other h => Item.synthetic.inj h, ?_, ?_⟩
  · rw [List.nodup_flatMap]
    refine ⟨fun mount hmount => by simp, hmounts.imp fun {mount other} hne item hitem hother => ?_⟩
    simp only [List.mem_cons, List.not_mem_nil, or_false] at hitem hother
    obtain rfl | rfl := hitem <;> simp [hne] at hother
  · rintro item hitem other hother rfl
    obtain ⟨path, -, rfl⟩ := mem_map.1 hitem
    simp at hother

/-- The items stand in path order, each before the keys of the later ones. -/
theorem itemsUnder_ordered {root : Text} (hroot : isCanonicalPath root = true) :
    (itemsUnder table root).Pairwise fun item other => pathLt (keyOf item) (keyOf other) := by
  have hle : (itemsUnder table root).Pairwise fun item other =>
      pathLe (keyOf item) (keyOf other) := sort_ordered keyOf _
  refine (hle.and (itemsUnder_nodup root)).imp_of_mem fun {item other} hitem hother h => ?_
  exact pathLt_of_le_of_ne h.1 fun heq =>
    h.2 (keyOf_injective (itemsUnder_ok hroot _ hitem) (itemsUnder_ok hroot _ hother) heq)

/-- Rows of items in order stand in order. -/
theorem within_lt {other : Item} (hitem : ItemOk table item) (hother : ItemOk table other)
    (h : pathLt (keyOf item) (keyOf other)) {path path' : Text} (hpath : Within item path)
    (hpath' : Within other path') : pathLt path path' := by
  refine pathLt_of_lt_of_le ?_ (keyOf_le hpath')
  refine lt_keyOf hitem hother ?_ (pathLe_of_lt h) hpath
  rintro rfl
  exact pathLt_irrefl _ h

end Keys

theorem mem_itemRows {entry : ScanEntry} : entry ∈ itemRows view filesOnly item ↔
      match item with
      | .synthetic path => filesOnly = false ∧ entry = ⟨path, view.table.syntheticStat path⟩
      | .mountRoot mount => filesOnly = false ∧ ∃ row ∈ view.store.rows, row.path = mount.source ∧
          entry = ⟨mount.path, row.stat⟩
      | .tree mount => ∃ row ∈ rowsUnder view.store mount.source filesOnly,
          entry = virtualEntry mount row.entry := by
  have hstart : ∀ path, pointVisible path .start = true := fun _ => rfl
  cases item with
  | synthetic path => cases filesOnly <;> simp [itemRows, pointEntry, hstart]
  | mountRoot mount =>
    have hstat : ∀ stat, statRaw view.store mount.source = some stat ↔
        ∃ row ∈ view.store.rows, row.path = mount.source ∧ row.stat = stat :=
      fun stat => statRaw_eq_some
    cases filesOnly with
    | true => simp [itemRows, pointEntry]
    | false =>
      simp only [itemRows, pointEntry, hstart, Bool.not_true, Bool.or_self, Bool.false_eq_true,
        if_false, Option.mem_toList, Option.map_eq_some_iff, hstat, true_and]
      constructor
      · rintro ⟨stat, ⟨row, hrow, hpath, rfl⟩, rfl⟩
        exact ⟨row, hrow, hpath, rfl⟩
      · rintro ⟨row, hrow, hpath, rfl⟩
        exact ⟨row.stat, ⟨row, hrow, hpath, rfl⟩, rfl⟩
  | tree mount =>
    simp only [itemRows, treeRows, mem_map, eq_comm]

theorem within_of_mem_itemRows (hitem : ItemOk view.table item) {entry : ScanEntry}
    (h : entry ∈ itemRows view filesOnly item) : Within item entry.path := by
  rw [mem_itemRows] at h
  cases item with
  | synthetic path => exact congrArg ScanEntry.path h.2
  | mountRoot mount =>
    obtain ⟨-, row, -, -, rfl⟩ := h
    rfl
  | tree mount =>
    have hok := MountTable.ok hitem.1
    obtain ⟨row, hrow, rfl⟩ := h
    obtain ⟨rest, hrest, heq⟩ := mem_rowsUnder_below hok hok.2 (inSource_self hok) hrow
    refine ⟨rest, hrest, ?_⟩
    show virtualOf mount row.path = _
    rw [heq, virtualOf_below hrest]

end Items

-- The listing of a root

section Listing

variable {view : View} {root : ViewRoot} {filesOnly : Bool}

/-- Everything a scan of a root lists, in the order of its pages. -/
def listing (view : View) (filesOnly : Bool) : ViewRoot → List ScanEntry
  | .none _ => []
  | .mount mount real => treeRows view mount real filesOnly
  | .above path => (itemsUnder view.table path).flatMap (itemRows view filesOnly)

/-- The rest of a listing, from a cursor on. -/
def listingFrom (view : View) (root : ViewRoot) (filesOnly : Bool) (cursor : ScanCursor) :
    List ScanEntry :=
  (listing view filesOnly root).filter fun entry => pointVisible entry.path cursor

/-- A page is the first of the listing past its cursor. -/
theorem scanPage_eq (hroot : RootOk view root) {cursor : ScanCursor} (hcursor : cursor.Ok)
    {limit : Nat} (hlimit : 1 ≤ limit) :
    scanPage view root cursor filesOnly limit =
      .ok ((listingFrom view root filesOnly cursor).take limit) := by
  unfold scanPage listingFrom listing
  rw [if_neg (by omega)]
  cases root with
  | none path => simp
  | mount mount real =>
    obtain ⟨hmount, hreal, hin⟩ := hroot
    dsimp only
    rw [treePage_eq (MountTable.ok hmount) hreal hin hcursor]
  | above path =>
    dsimp only
    rw [scanItems_eq hcursor limit [] _ (itemsUnder_ok (canonical_of_synthetic hroot))
      (Nat.zero_le _), List.nil_append]

/-- The listing stands in path order, so each path comes once. -/
theorem listing_ordered (hroot : RootOk view root) :
    (listing view filesOnly root).Pairwise fun entry other => pathLt entry.path other.path := by
  cases root with
  | none path => exact List.Pairwise.nil
  | mount mount real => exact treeRows_ordered (MountTable.ok hroot.1) hroot.2.1 hroot.2.2
  | above path =>
    have hpath := canonical_of_synthetic hroot
    unfold listing
    dsimp only
    rw [List.pairwise_flatMap]
    refine ⟨fun item hitem => ?_, (itemsUnder_ordered hpath).imp_of_mem
      fun {item other} hitem hother hlt entry hentry entry' hentry' => ?_⟩
    · have hok := itemsUnder_ok hpath item hitem
      have hpoint : ∀ path stat, (pointEntry path stat .start filesOnly).Pairwise
          fun entry other => pathLt entry.path other.path := by
        intro path stat
        unfold pointEntry
        split
        · exact List.Pairwise.nil
        · cases stat <;> simp
      cases item with
      | synthetic path => exact hpoint _ _
      | mountRoot mount => exact hpoint _ _
      | tree mount =>
        have hmount := MountTable.ok hok.1
        exact treeRows_ordered hmount hmount.2 (inSource_self hmount)
    · have hok := itemsUnder_ok hpath item hitem
      have hok' := itemsUnder_ok hpath other hother
      exact within_lt hok hok' hlt (within_of_mem_itemRows hok hentry)
        (within_of_mem_itemRows hok' hentry')

/-- Where a row of a source stands in the view. -/
theorem virtualOf_ok {mount : Mount} (h : mount.Ok) {path : Text}
    (hpath : isCanonicalPath path = true) (hin : inSource mount path = true) :
    isCanonicalPath (virtualOf mount path) = true ∧
      inMount mount (virtualOf mount path) = true := by
  obtain rfl | ⟨rest, hrest, rfl⟩ := (inSource_iff h hpath).1 hin
  · rw [virtualOf_source h]
    exact ⟨h.1, (inMount_iff h h.1).2 (.inl rfl)⟩
  · rw [virtualOf_below hrest]
    have hcanonical := canonical_rebase h.2 h.1 hrest hpath
    exact ⟨hcanonical, (inMount_iff h hcanonical).2 (.inr ⟨rest, hrest, rfl⟩)⟩

/-- A row under a mount's source, with all that the view says of it. -/
theorem scanned_of_row {mount : Mount} (hmount : mount ∈ view.table.mounts) {row : PathRow}
    (hrow : row ∈ rowsUnder view.store mount.source filesOnly) :
    Shown view (virtualEntry mount row.entry) ∧
      isUnder (virtualOf mount row.path) mount.path = true ∧
      (filesOnly = true → row.stat.type ≠ .dir ∧ ∀ other ∈ view.table.mounts,
        virtualOf mount row.path ≠ other.path) := by
  have hok := MountTable.ok hmount
  obtain ⟨hmem, hunder, hfiles⟩ := mem_rowsUnder.1 hrow
  have hpath := view.store.canonical row hmem
  have hin : inSource mount row.path = true :=
    (inSource_iff hok hpath).2 (.inr ((isUnder_iff hpath hok.2).1 hunder))
  have hbelow : isUnder (virtualOf mount row.path) mount.path = true := by
    have := (isUnder_virtualOf hok hok.2 (inSource_self hok) hpath hin).2 hunder
    rwa [virtualOf_source hok] at this
  refine ⟨.inr ⟨mount, hmount, row, hmem, hin, rfl⟩, hbelow, fun hfilesOnly => ⟨hfiles hfilesOnly,
    fun other hother heq => ?_⟩⟩
  rw [heq, (MountTable.apart_of_mem hmount hother).1] at hbelow
  cases hbelow

theorem mem_listing_mount {mount : Mount} {real : Text} (hroot : RootOk view (.mount mount real))
    {entry : ScanEntry} :
    entry ∈ listing view filesOnly (.mount mount real) ↔
      Scanned view (.mount mount real) filesOnly entry := by
  obtain ⟨hmount, hreal, hin⟩ := hroot
  have hok := MountTable.ok hmount
  unfold listing Scanned
  dsimp only [rootPath]
  rw [treeRows, mem_map]
  constructor
  · rintro ⟨row, hrow, rfl⟩
    obtain ⟨hmem, hunder, hfiles⟩ := mem_rowsUnder.1 hrow
    have hpath := view.store.canonical row hmem
    have hbelow := below_source hok hreal hin hpath hunder
    have hsource : inSource mount row.path = true := (inSource_iff hok hpath).2 (.inr hbelow)
    have hrow' : row ∈ rowsUnder view.store mount.source filesOnly :=
      mem_rowsUnder.2 ⟨hmem, (isUnder_iff hpath hok.2).2 hbelow, hfiles⟩
    obtain ⟨hshown, -, hkinds⟩ := scanned_of_row hmount hrow'
    exact ⟨nofun, hshown, (isUnder_virtualOf hok hreal hin hpath hsource).2 hunder, hkinds⟩
  · rintro ⟨-, hshown, hunder, hfiles⟩
    obtain ⟨hcanonical, hinRoot⟩ := virtualOf_ok hok hreal hin
    -- what lies under the root lies in the root's mount
    have hinside : ∀ {path : Text}, isCanonicalPath path = true →
        isUnder path (virtualOf mount real) = true → inMount mount path = true := by
      intro path hpath hbelow
      rw [inMount_iff_components hok hcanonical] at hinRoot
      obtain ⟨more, -, hmore⟩ := (isUnder_iff_components hpath hcanonical).1 hbelow
      exact (inMount_iff_components hok hpath).2 (hinRoot.trans ⟨more, hmore.symm⟩)
    obtain ⟨hsynthetic, -⟩ | ⟨other, hother, row, hmem, hsource, rfl⟩ := hshown
    · have := hinside (canonical_of_synthetic hsynthetic) hunder
      rw [not_inMount_of_synthetic hsynthetic hmount] at this
      cases this
    · have hpath := view.store.canonical row hmem
      obtain ⟨hvirtual, hinOther⟩ := virtualOf_ok (MountTable.ok hother) hpath hsource
      obtain rfl := MountTable.eq_of_inMount hmount hother hvirtual (hinside hvirtual hunder)
        hinOther
      refine ⟨row, mem_rowsUnder.2 ⟨hmem, ?_, fun hfilesOnly => (hfiles hfilesOnly).1⟩, rfl⟩
      exact (isUnder_virtualOf hok hreal hin hpath hsource).1 hunder

theorem mem_listing_above {path : Text} (hroot : RootOk view (.above path)) {entry : ScanEntry} :
    entry ∈ listing view filesOnly (.above path) ↔ Scanned view (.above path) filesOnly entry := by
  have hcanonical := canonical_of_synthetic hroot
  unfold listing Scanned
  dsimp only [rootPath]
  rw [List.mem_flatMap]
  constructor
  · rintro ⟨item, hitem, hentry⟩
    rw [mem_itemsUnder] at hitem
    rw [mem_itemRows] at hentry
    cases item with
    | synthetic point =>
      obtain ⟨rfl, rfl⟩ := hentry
      exact ⟨nofun, .inl ⟨hitem.1, rfl⟩, hitem.2, nofun⟩
    | mountRoot mount =>
      obtain ⟨rfl, row, hrow, hsource, rfl⟩ := hentry
      have hok := MountTable.ok hitem.1
      refine ⟨nofun, .inr ⟨mount, hitem.1, row, hrow, ?_, ?_⟩, hitem.2, nofun⟩
      · rw [hsource]
        exact inSource_self hok
      · rw [virtualEntry, PathRow.entry, hsource, virtualOf_source hok]
    | tree mount =>
      obtain ⟨row, hrow, rfl⟩ := hentry
      have hok := MountTable.ok hitem.1
      obtain ⟨hshown, hunder, hkinds⟩ := scanned_of_row hitem.1 hrow
      refine ⟨nofun, hshown, isUnder_trans ?_ hok.1 hcanonical hunder hitem.2, hkinds⟩
      obtain ⟨rest, hrest, heq⟩ := mem_rowsUnder_below hok hok.2 (inSource_self hok) hrow
      have hpath := view.store.canonical row (mem_rowsUnder.1 hrow).1
      exact (virtualOf_ok hok hpath ((inSource_iff hok hpath).2 (.inr ⟨rest, hrest, heq⟩))).1
  · rintro ⟨-, hshown, hunder, hfiles⟩
    obtain ⟨hsynthetic, hstat⟩ | ⟨mount, hmount, row, hmem, hsource, rfl⟩ := hshown
    · have hfilesOnly : filesOnly = false := by
        rw [← Bool.not_eq_true]
        intro hfilesOnly
        refine (hfiles hfilesOnly).1 ?_
        rw [hstat]
        rfl
      refine ⟨.synthetic entry.path, mem_itemsUnder.2 ⟨hsynthetic, hunder⟩, ?_⟩
      rw [mem_itemRows]
      exact ⟨hfilesOnly, by rw [← hstat]⟩
    · have hok := MountTable.ok hmount
      have hpath := view.store.canonical row hmem
      obtain ⟨hvirtual, hinMount⟩ := virtualOf_ok hok hpath hsource
      have hmountUnder := isUnder_of_synthetic hroot hmount hvirtual hinMount hunder
      obtain heq | hbelow := (inSource_iff hok hpath).1 hsource
      · have hat : virtualOf mount row.path = mount.path := by rw [heq, virtualOf_source hok]
        have hfilesOnly : filesOnly = false := by
          rw [← Bool.not_eq_true]
          exact fun hfilesOnly => (hfiles hfilesOnly).2 mount hmount hat
        refine ⟨.mountRoot mount, mem_itemsUnder.2 ⟨hmount, hmountUnder⟩, ?_⟩
        rw [mem_itemRows]
        exact ⟨hfilesOnly, row, hmem, heq, by rw [virtualEntry, ← hat]; rfl⟩
      · refine ⟨.tree mount, mem_itemsUnder.2 ⟨hmount, hmountUnder⟩, ?_⟩
        rw [mem_itemRows]
        exact ⟨row, mem_rowsUnder.2 ⟨hmem, (isUnder_iff hpath hok.2).2 hbelow,
          fun hfilesOnly => (hfiles hfilesOnly).1⟩, rfl⟩

/-- The listing holds the entries of the namespace under the root. -/
theorem mem_listing (hroot : RootOk view root) {entry : ScanEntry} :
    entry ∈ listing view filesOnly root ↔ Scanned view root filesOnly entry := by
  cases root with
  | none path =>
    refine iff_of_false List.not_mem_nil ?_
    rintro ⟨hroot, -⟩
    exact hroot path rfl
  | mount mount real => exact mem_listing_mount hroot
  | above path => exact mem_listing_above hroot

end Listing

-- Runs of pages

/-- The pages of a scan from a cursor on, with the limit of each.  A page goes on behind the last
    entry of the one before, or past the subtree of a pruned directory that this entry lies in;
    one that is not full is the last.  `pruned` has that entry's path and the directory. -/
inductive ScanRun (view : View) (root : ViewRoot) (filesOnly : Bool) :
    ScanCursor → List Nat → List (Text × Text) → List ScanEntry → Prop
  | last {cursor limit page} (hpage : scanPage view root cursor filesOnly limit = .ok page)
      (hshort : page.length < limit) : ScanRun view root filesOnly cursor [limit] [] page
  | next {cursor limit page entry limits pruned out}
      (hpage : scanPage view root cursor filesOnly limit = .ok page)
      (hlast : page.getLast? = some entry)
      (hrest : ScanRun view root filesOnly (.after entry.path) limits pruned out) :
      ScanRun view root filesOnly cursor (limit :: limits) pruned (page ++ out)
  | prune {cursor limit page entry directory limits pruned out}
      (hpage : scanPage view root cursor filesOnly limit = .ok page)
      (hlast : page.getLast? = some entry)
      (hdir : isCanonicalPath directory = true) (hunder : isUnder entry.path directory = true)
      (hrest : ScanRun view root filesOnly (.afterSubtree directory) limits pruned out) :
      ScanRun view root filesOnly cursor (limit :: limits) ((entry.path, directory) :: pruned)
        (page ++ out)

/-- Whether no prune leaps over a path. -/
def kept (pruned : List (Text × Text)) (path : Text) : Bool :=
  pruned.all fun prune => !(pathLt prune.1 path && isUnder path prune.2)

section Runs

variable {view : View} {root : ViewRoot} {filesOnly : Bool}

theorem limit_pos {cursor : ScanCursor} {limit : Nat} {page : List ScanEntry}
    (h : scanPage view root cursor filesOnly limit = .ok page) : 1 ≤ limit := by
  by_contra hlimit
  unfold scanPage at h
  rw [if_pos (by omega)] at h
  cases h

theorem pathLt_asymm (entry other : ScanEntry) (h : pathLt entry.path other.path) :
    ¬ pathLt other.path entry.path := fun hback => pathLt_irrefl _ (pathLt_trans h hback)

theorem canonical_of_shown {entry : ScanEntry} (h : Shown view entry) :
    isCanonicalPath entry.path = true := by
  obtain ⟨hsynthetic, -⟩ | ⟨mount, hmount, row, hmem, hsource, rfl⟩ := h
  · exact canonical_of_synthetic hsynthetic
  · exact (virtualOf_ok (MountTable.ok hmount) (view.store.canonical row hmem) hsource).1

/-- Between a path under a directory and the end of its subtree everything lies under it. -/
theorem between_iff {directory path other : Text} (hdir : isCanonicalPath directory = true)
    (hunder : ∃ rest, path = stem directory ++ 0x2f :: rest)
    (hother : isCanonicalPath other = true) :
    pathLt path other ∧ ¬ pathLe (subtreeSuccessor directory) other ↔
      pathLt path other ∧ isUnder other directory = true := by
  refine and_congr_right fun hlt => ?_
  obtain ⟨rest, rfl⟩ := hunder
  rw [subtreeSuccessor_eq hdir, not_pathLe, isUnder_iff hother hdir, ← range_iff]
  exact ⟨fun hupper => ⟨pathLt_of_le_of_lt (under_lower _ _) hlt, hupper⟩, fun h => h.2⟩

/-- What lies behind a visible path is visible. -/
theorem pointVisible_mono {cursor : ScanCursor} {path other : Text}
    (h : pointVisible path cursor = true) (hlt : pathLt path other) :
    pointVisible other cursor = true := by
  cases cursor with
  | start => rfl
  | after point => exact decide_eq_true (pathLt_trans (of_decide_eq_true h) hlt)
  | afterSubtree directory =>
    exact decide_eq_true (pathLe_trans (of_decide_eq_true h) (pathLe_of_lt hlt))

theorem listingFrom_ordered (hroot : RootOk view root) (cursor : ScanCursor) :
    (listingFrom view root filesOnly cursor).Pairwise fun entry other =>
      pathLt entry.path other.path :=
  (listing_ordered hroot).sublist filter_sublist

/-- A page and what later pages give of the rest. -/
theorem page_append (hroot : RootOk view root) {cursor resumed : ScanCursor} {limit : Nat}
    {entry : ScanEntry} {pruned : List (Text × Text)}
    (hlast : ((listingFrom view root filesOnly cursor).take limit).getLast? = some entry)
    (hresumed : ∀ path, pointVisible path resumed = true → pathLt entry.path path)
    (hpruned : ∀ prune ∈ pruned, pathLt entry.path prune.1) :
    (listingFrom view root filesOnly cursor).take limit ++
        (listingFrom view root filesOnly resumed).filter (fun row => kept pruned row.path) =
      ((listingFrom view root filesOnly cursor).filter fun row =>
        !decide (pathLt entry.path row.path) || pointVisible row.path resumed).filter
          fun row => kept pruned row.path := by
  have hordered := @listingFrom_ordered view root filesOnly hroot cursor
  have hmem := mem_of_mem_take (List.mem_of_getLast? hlast)
  have hvisible := (mem_filter.1 hmem).2
  -- nothing of the page lies behind a later prune
  have hpage : ((listingFrom view root filesOnly cursor).take limit).filter
      (fun row => kept pruned row.path) = (listingFrom view root filesOnly cursor).take limit := by
    rw [List.filter_eq_self]
    intro row hrow
    rw [kept, List.all_eq_true]
    intro prune hprune
    have hbehind : ¬ pathLt prune.1 row.path := fun hlt =>
      Keyset.not_behind_of_mem_take pathLt_asymm hordered hlast row hrow
        (pathLt_trans (hpruned prune hprune) hlt)
    simp [hbehind]
  have hrest : listingFrom view root filesOnly resumed =
      (listingFrom view root filesOnly cursor).filter fun row =>
        pointVisible row.path resumed := by
    unfold listingFrom
    rw [filter_filter]
    refine filter_congr fun row _ => ?_
    rw [Bool.eq_iff_iff, Bool.and_eq_true]
    exact ⟨fun h => ⟨h, pointVisible_mono hvisible (hresumed _ h)⟩, fun h => h.1⟩
  rw [← Keyset.take_append_filter pathLt_asymm hordered hlast fun row => hresumed row.path,
    List.filter_append, hpage, hrest]

/-- A run of pages gives the rest of the listing but for what it pruned. -/
theorem scanRun_eq (hroot : RootOk view root) {cursor : ScanCursor} {limits : List Nat}
    {pruned : List (Text × Text)} {out : List ScanEntry}
    (h : ScanRun view root filesOnly cursor limits pruned out) (hcursor : cursor.Ok) :
    (∀ prune ∈ pruned, pointVisible prune.1 cursor = true) ∧
      out = (listingFrom view root filesOnly cursor).filter fun row => kept pruned row.path := by
  induction h with
  | last hpage hshort =>
    rw [scanPage_eq hroot hcursor (limit_pos hpage)] at hpage
    cases hpage
    refine ⟨nofun, ?_⟩
    rw [length_take] at hshort
    rw [take_of_length_le (by omega), eq_comm, List.filter_eq_self]
    exact fun row _ => rfl
  | next hpage hlast hrest ih =>
    rw [scanPage_eq hroot hcursor (limit_pos hpage)] at hpage
    cases hpage
    obtain ⟨hpruned, rfl⟩ := ih trivial
    have hbehind := fun prune hprune => of_decide_eq_true (hpruned prune hprune)
    have hmem := mem_of_mem_take (List.mem_of_getLast? hlast)
    refine ⟨fun prune hprune =>
      pointVisible_mono (mem_filter.1 hmem).2 (hbehind prune hprune), ?_⟩
    refine (page_append hroot hlast (fun path => of_decide_eq_true) hbehind).trans ?_
    congr 1
    rw [List.filter_eq_self]
    intro row _
    simp [pointVisible]
  | prune hpage hlast hdir hunder hrest ih =>
    rename_i cursor limit page entry directory limits pruned out
    rw [scanPage_eq hroot hcursor (limit_pos hpage)] at hpage
    cases hpage
    obtain ⟨hpruned, rfl⟩ := ih hdir
    have hmem := mem_of_mem_take (List.mem_of_getLast? hlast)
    obtain ⟨hlisted, hvisible⟩ := mem_filter.1 hmem
    have hshown := ((mem_listing hroot).1 hlisted).2.1
    obtain ⟨rest, -, hpath⟩ := (isUnder_iff (canonical_of_shown hshown) hdir).1 hunder
    have hleap : ∀ path, pathLe (subtreeSuccessor directory) path → pathLt entry.path path := by
      intro path hle
      rw [subtreeSuccessor_eq hdir] at hle
      rw [hpath]
      exact pathLt_of_lt_of_le (under_upper _ _) hle
    have hbehind : ∀ prune ∈ pruned, pathLt entry.path prune.1 := fun prune hprune =>
      hleap _ (of_decide_eq_true (hpruned prune hprune))
    refine ⟨fun prune hprune => ?_, ?_⟩
    · obtain rfl | hprune := List.mem_cons.1 hprune
      · exact hvisible
      · exact pointVisible_mono hvisible (hbehind prune hprune)
    · have hresumed : ∀ path, pointVisible path (.afterSubtree directory) = true →
          pathLt entry.path path := fun path h => hleap path (of_decide_eq_true h)
      refine (page_append hroot hlast hresumed hbehind).trans ?_
      rw [filter_filter]
      refine filter_congr fun row hrow => ?_
      have hrowShown := ((mem_listing hroot).1 (mem_filter.1 hrow).1).2.1
      have hbetween := between_iff hdir ⟨rest, hpath⟩ (canonical_of_shown hrowShown)
      rw [Bool.eq_iff_iff]
      simp only [kept, List.all_cons, Bool.and_eq_true, Bool.or_eq_true, Bool.not_eq_true',
        Bool.and_eq_false_iff, decide_eq_false_iff_not, pointVisible, decide_eq_true_eq]
      rw [and_comm]
      refine and_congr_left fun _ => ?_
      rw [← Bool.not_eq_true, ← not_iff_not]
      simpa only [not_or, not_not] using hbetween

/-- Whatever the limits are, the pages come to an end. -/
theorem scanRun_exists (hroot : RootOk view root) (limits : Nat → Nat)
    (hlimits : ∀ index, 1 ≤ limits index) {cursor : ScanCursor} (hcursor : cursor.Ok) :
    ∃ count out, ScanRun view root filesOnly cursor ((List.range count).map limits) [] out := by
  -- each full page leaves less of the listing
  generalize hlength : (listingFrom view root filesOnly cursor).length = length
  induction length using Nat.strong_induction_on generalizing cursor limits with
  | h length ih =>
    have hpage := @scanPage_eq view root filesOnly hroot cursor hcursor _ (hlimits 0)
    by_cases hshort : (listingFrom view root filesOnly cursor).length < limits 0
    · exact ⟨1, _, ScanRun.last hpage (Nat.lt_of_le_of_lt (List.length_take_le' _ _) hshort)⟩
    · have hne : (listingFrom view root filesOnly cursor).take (limits 0) ≠ [] := by
        intro hnil
        have := congrArg List.length hnil
        rw [length_take, List.length_nil] at this
        have := hlimits 0
        omega
      obtain ⟨entry, hlast⟩ := Option.ne_none_iff_exists'.1 (mt List.getLast?_eq_none_iff.1 hne)
      have hless := Keyset.length_behind_lt pathLt_asymm (listingFrom_ordered hroot cursor) hlast
      have hmem := mem_of_mem_take (List.mem_of_getLast? hlast)
      have hrest : listingFrom view root filesOnly (.after entry.path) =
          (listingFrom view root filesOnly cursor).filter fun row =>
            decide (pathLt entry.path row.path) := by
        unfold listingFrom
        rw [filter_filter]
        refine filter_congr fun row _ => ?_
        rw [Bool.eq_iff_iff, Bool.and_eq_true]
        exact ⟨fun h => ⟨h, pointVisible_mono (mem_filter.1 hmem).2 (of_decide_eq_true h)⟩,
          fun h => h.1⟩
      rw [← hrest, hlength] at hless
      have hafter : (ScanCursor.after entry.path).Ok := trivial
      obtain ⟨count, out, hrun⟩ := ih _ hless (fun index => limits (index + 1))
        (fun index => hlimits (index + 1)) hafter rfl
      refine ⟨count + 1, (listingFrom view root filesOnly cursor).take (limits 0) ++ out, ?_⟩
      rw [List.range_succ_eq_map, List.map_cons, List.map_map]
      exact ScanRun.next hpage hlast hrun

end Runs

end Kompjutr.Fs.Mounted
