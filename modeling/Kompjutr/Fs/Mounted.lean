/-
  Kompjutr.Fs.Mounted

  A mounted view (`fs/mounted/mounts.ts`, `items.ts`, `scan.ts`) over the store's own
  pages (`fs/store/scan.ts`).

  A view shows some real directories at virtual ones, and synthetic directories above
  them.  It has no rows of its own: a page above the mounts walks the synthetic
  directories, the mount roots and the mounts' subtrees in path order and asks the store
  for a page of each subtree.

  The store is `fs_paths` joined with `fs_nodes`, in the order of its primary key.
-/
import Kompjutr.Fs.PathOrder
import Kompjutr.Lib.SortBy
import Mathlib.Data.List.Dedup
import Mathlib.Data.List.Pairwise

namespace Kompjutr.Fs.Mounted

open Objects (Text text)

-- The store

structure Stat where
  type : NodeType
  mode : Nat
  size : Nat
  mtime : Int
  ino : Int
  nlink : Nat
  rev : Nat
  target : Option Text
  contentId : Option (List UInt8)
  deriving DecidableEq

structure ScanEntry where
  path : Text
  stat : Stat
  deriving DecidableEq

/-- A row of `fs_paths`, with what `toEntry` and `toStat` make of its node. -/
structure PathRow where
  path : Text
  parent : Text
  stat : Stat
  deriving DecidableEq

/-- The path table.  The root's parent is empty. -/
structure PathTable where
  rows : List PathRow
  ordered : rows.Pairwise fun row other => pathLt row.path other.path
  canonical : ∀ row ∈ rows, isCanonicalPath row.path = true
  parents : ∀ row ∈ rows, row.parent = if row.path = [0x2f] then [] else dirname row.path

/-- Where a page of a scan starts: `after`, `afterSubtree`, or neither. -/
inductive ScanCursor where
  | start
  | after (path : Text)
  | afterSubtree (directory : Text)
  deriving DecidableEq

/-- `subtreeBounds`, its lower end. -/
def subtreeLower (root : Text) : Text := if root = [0x2f] then [0x2f] else root ++ [0x2f]

def PathRow.entry (row : PathRow) : ScanEntry := ⟨row.path, row.stat⟩

/-- `SELECT_PAGE`, with the conditions of the four statements over it. -/
def selectPage (table : PathTable) (lower upper : Text) (inclusive : Option Text)
    (filesOnly : Bool) : List PathRow :=
  table.rows.filter fun row =>
    pathLt lower row.path && pathLt row.path upper && inclusive.all (pathLe · row.path) &&
      (!filesOnly || row.stat.type ≠ .dir)

/-- One page of everything under `root`, in path byte order. -/
def storeScan (table : PathTable) (root : Text) (cursor : ScanCursor) (filesOnly : Bool)
    (limit : Nat) : List ScanEntry :=
  let lower := subtreeLower root
  let upper := subtreeSuccessor root
  match cursor with
  | .afterSubtree directory =>
    let resume := subtreeSuccessor directory
    let inclusive := if pathLt lower resume then resume else lower
    ((selectPage table lower upper (some inclusive) filesOnly).take limit).map PathRow.entry
  | .after path =>
    let after := if pathLt lower path then path else lower
    ((selectPage table after upper none filesOnly).take limit).map PathRow.entry
  | .start => ((selectPage table lower upper none filesOnly).take limit).map PathRow.entry

/-- The metadata of one path. -/
def statRaw (table : PathTable) (path : Text) : Option Stat :=
  (table.rows.find? (·.path = path)).map PathRow.stat

structure ListItem where
  directory : Text
  entry : Option ScanEntry
  deriving DecidableEq

structure ListCursor where
  directory : Text
  path : Option Text
  deriving DecidableEq

structure ListPage where
  items : List ListItem
  next : Option ListCursor
  deriving DecidableEq

/-- The directories whose groups a listing has. -/
def listGroups (table : PathTable) (root : Text) (recursive : Bool) : List Text :=
  root :: if recursive then
      ((selectPage table (subtreeLower root) (subtreeSuccessor root) none false).filter
        (·.stat.type = .dir)).map PathRow.path
    else []

/-- The rows of a group: its entries, or one null row. -/
def groupItems (table : PathTable) (directory : Text) : List ListItem :=
  let children := table.rows.filter (·.parent = directory)
  if children = [] then [⟨directory, none⟩]
  else children.map fun row => ⟨directory, some row.entry⟩

/-- `LIST_AFTER`. -/
def listAfter (after : Option ListCursor) (item : ListItem) : Bool :=
  let directory := (after.map (·.directory)).getD []
  let path := (after.bind (·.path)).getD []
  pathLt directory item.directory ||
    (item.directory = directory && pathLt path ((item.entry.map (·.path)).getD []))

/-- The cursor at an item. -/
def cursorAt (item : ListItem) : ListCursor := ⟨item.directory, item.entry.map (·.path)⟩

/-- Page directory groups with metadata, including one null row for an empty group. -/
def storeListEntries (table : PathTable) (root : Text) (after : Option ListCursor) (limit : Nat)
    (recursive : Bool) : ListPage :=
  let found := ((((listGroups table root recursive).flatMap (groupItems table)).filter
    (listAfter after)).take (limit + 1))
  let items := found.take limit
  { items, next := if limit < found.length then items.getLast?.map cursorAt else none }

-- The mount table

/-- A mount, of a real directory at a virtual one. -/
structure Mount where
  path : Text
  source : Text
  deriving DecidableEq

def Mount.pathPrefix (mount : Mount) : Text := if mount.path = [0x2f] then [] else mount.path

def Mount.base (mount : Mount) : Text := if mount.source = [0x2f] then [] else mount.source

/-- Whether a path lies strictly under a directory. -/
def isUnder (path directory : Text) : Bool :=
  if directory = [0x2f] then path ≠ [0x2f] else (directory ++ [0x2f]).isPrefixOf path

/-- Whether two mounts may stand beside each other. -/
def apart (mount other : Mount) : Bool :=
  other.path ≠ mount.path && !isUnder other.path mount.path && !isUnder mount.path other.path

/-- The mounts of a view, in path order. -/
structure MountTable where
  mounts : List Mount
  ordered : mounts.Pairwise fun mount other => pathLe mount.path other.path
  canonical : ∀ mount ∈ mounts, isCanonicalPath mount.path = true ∧
    isCanonicalPath mount.source = true
  separate : mounts.Pairwise fun mount other => apart mount other = true

/-- `checkCanonical`. -/
def checkCanonical (path : Text) (what : String) : Except FsError Unit :=
  if ¬ Utf8.WellFormed path then
    .error (filesystemError "EINVAL" (what ++ " is not well-formed UTF-8") path)
  else if !isCanonicalPath path then
    .error (filesystemError "EINVAL" (what ++ " must be an absolute canonical path") path)
  else .ok ()

def checkMount (mount : Mount) : Except FsError Unit :=
  (checkCanonical mount.path "mount path").bind fun _ =>
  checkCanonical mount.source "mount source"

def checkMounts : List Mount → Except FsError Unit
  | [] => .ok ()
  | mount :: mounts => (checkMount mount).bind fun _ => checkMounts mounts

def sortMounts (mounts : List Mount) : List Mount :=
  mounts.mergeSort fun mount other => decide (pathLe mount.path other.path)

/-- The overlaps that the constructor of a mount table reports, in the order of its loops. -/
def overlaps (mounts : List Mount) : List FsError :=
  mounts.zipIdx.flatMap fun mount =>
    (mounts.zipIdx.filter fun other =>
      other.2 ≠ mount.2 &&
        (other.1.path = mount.1.path || isUnder other.1.path mount.1.path)).map fun other =>
      filesystemError "EINVAL" ("mount overlaps '" ++ Objects.shown other.1.path ++ "'")
        mount.1.path

theorem sort_ordered {α : Type} (path : α → Text) (xs : List α) :
    (xs.mergeSort fun x y => decide (pathLe (path x) (path y))).Pairwise fun x y =>
      pathLe (path x) (path y) :=
  @SortBy.pairwise_mergeSort α _ _ (fun x => codePoints (path x)) _ (fun _ _ => decide_eq_true_iff) xs

theorem checkCanonical_eq_ok {path : Text} (what : String) :
    checkCanonical path what = .ok () ↔ Utf8.WellFormed path ∧ isCanonicalPath path = true := by
  unfold checkCanonical
  split_ifs with hformed hpath <;> simp_all

/-- What each mount is checked for. -/
def Mount.Formed (mount : Mount) : Prop :=
  (Utf8.WellFormed mount.path ∧ isCanonicalPath mount.path = true) ∧
    Utf8.WellFormed mount.source ∧ isCanonicalPath mount.source = true

variable {mounts : List Mount}

theorem checkMounts_eq_ok : checkMounts mounts = .ok () ↔ ∀ mount ∈ mounts, mount.Formed := by
  induction mounts with
  | nil => exact iff_of_true rfl nofun
  | cons mount mounts ih =>
    rw [List.forall_mem_cons, ← ih, Mount.Formed, ← checkCanonical_eq_ok "mount path",
      ← checkCanonical_eq_ok "mount source", checkMounts, checkMount]
    cases checkCanonical mount.path "mount path" with
    | error error => simp [Except.bind]
    | ok _ => cases checkCanonical mount.source "mount source" <;> simp [Except.bind]

/-- There is no overlap where the mounts may all stand beside each other. -/
theorem overlaps_eq_nil :
    overlaps mounts = [] ↔ mounts.Pairwise fun mount other => apart mount other = true := by
  have hiff : overlaps mounts = [] ↔ ∀ (k l : Nat) (hk : k < mounts.length)
      (hl : l < mounts.length), l ≠ k →
        ¬ (mounts[l].path = mounts[k].path ∨ isUnder mounts[l].path mounts[k].path = true) := by
    simp only [overlaps, List.flatMap_eq_nil_iff, List.map_eq_nil_iff, List.filter_eq_nil_iff,
      Prod.forall, List.mem_zipIdx_iff_getElem?, List.getElem?_eq_some_iff]
    grind
  rw [hiff, List.pairwise_iff_getElem]
  constructor
  · intro h i j hi hj hij
    have hforward := h i j hi hj (by omega)
    have hback := h j i hj hi (by omega)
    grind [apart]
  · intro h k l hk hl hne
    rcases Nat.lt_or_gt_of_ne hne with hlt | hlt
    · have := h l k hl hk hlt
      grind [apart]
    · have := h k l hk hl hlt
      grind [apart]

/-- The mount table of some mounts: each is checked, and none may lie in another. -/
def mountTable (specs : List Mount) : Except FsError MountTable :=
  match hcheck : checkMounts specs with
  | .error error => .error error
  | .ok _ =>
    match hover : overlaps (sortMounts specs) with
    | error :: _ => .error error
    | [] => .ok
      { mounts := sortMounts specs
        ordered := sort_ordered Mount.path specs
        canonical := fun mount hmount =>
          ((checkMounts_eq_ok.1 hcheck mount (List.mem_mergeSort.1 hmount)).imp And.right And.right)
        separate := overlaps_eq_nil.1 hover }

/-- The parents and children on the way to the mounts. -/
def childPairs (mounts : List Mount) : List (Text × Text) :=
  mounts.flatMap fun mount => (prefixesOf mount.path).zip (prefixesOf mount.path).tail

def sortPaths (paths : List Text) : List Text :=
  paths.mergeSort fun path other => decide (pathLe path other)

namespace MountTable

variable (table : MountTable)

/-- The synthetic directories.  `/` is one unless it is itself a mount. -/
def synthetic : List Text :=
  sortPaths ((childPairs table.mounts).map Prod.fst ++
    if table.mounts = [] then [[0x2f]] else []).dedup

/-- Children of a synthetic directory, as canonical virtual paths in path order. -/
def childrenOf (path : Text) : List Text :=
  sortPaths (((childPairs table.mounts).filter (·.1 = path)).map Prod.snd).dedup

def syntheticUnder (root : Text) : List Text := table.synthetic.filter (isUnder · root)

def mountsUnder (root : Text) : List Mount := table.mounts.filter fun mount => isUnder mount.path root

def mountAt (path : Text) : Option Mount := table.mounts.find? (·.path = path)

/-- `SYNTHETIC_MODE`. -/
def syntheticMode : Nat := 0o040555

/-- A synthetic directory's metadata.  The inode is negative and distinct per directory. -/
def syntheticStat (path : Text) : Stat :=
  { type := .dir, mode := syntheticMode, size := 0, mtime := 0
    ino := ((table.synthetic.idxOf? path).map fun index => -((index : Int) + 1)).getD 0
    nlink := 2, rev := 0, target := none, contentId := none }

end MountTable

/-- The real path behind `rest` of a mount. -/
def realOf (mount : Mount) (rest : Text) : Text :=
  if mount.base ++ rest = [] then [0x2f] else mount.base ++ rest

/-- The virtual path of a real path under a mount's source. -/
def virtualOf (mount : Mount) (real : Text) : Text :=
  let rest := if mount.base = [] then (if real = [0x2f] then [] else real)
    else real.drop mount.base.length
  if mount.pathPrefix ++ rest = [] then [0x2f] else mount.pathPrefix ++ rest

def inSource (mount : Mount) (real : Text) : Bool :=
  mount.base = [] || real = mount.base || (mount.base ++ [0x2f]).isPrefixOf real

def inMount (mount : Mount) (path : Text) : Bool :=
  mount.pathPrefix = [] || path = mount.path || (mount.pathPrefix ++ [0x2f]).isPrefixOf path

def restOf (mount : Mount) (path : Text) : Text :=
  if mount.pathPrefix = [] then (if path = [0x2f] then [] else path)
  else path.drop mount.pathPrefix.length

/-- The real form of a virtual path known to lie in a mount. -/
def realIn (mount : Mount) (path : Text) : Text := realOf mount (restOf mount path)

-- Scanning

/-- A mounted view of a store. -/
structure View where
  table : MountTable
  store : PathTable

/-- The rows above the mounts: points, and one range for each mount. -/
inductive Item where
  | synthetic (path : Text)
  | mountRoot (mount : Mount)
  | tree (mount : Mount)
  deriving DecidableEq

/-- Virtual bounds of everything strictly under a mount. -/
def mountLower (mount : Mount) : Text := mount.pathPrefix ++ [0x2f]

def mountUpper (mount : Mount) : Text := subtreeSuccessor mount.path

def keyOf : Item → Text
  | .synthetic path => path
  | .mountRoot mount => mount.path
  | .tree mount => mountLower mount

/-- Every item strictly under the synthetic directory `root`, in path order. -/
def itemsUnder (table : MountTable) (root : Text) : List Item :=
  ((table.syntheticUnder root).map Item.synthetic ++
      (table.mountsUnder root).flatMap fun mount =>
        [Item.mountRoot mount, Item.tree mount]).mergeSort
    fun item other => decide (pathLe (keyOf item) (keyOf other))

/-- A keyset cursor's effect on one mount's rows, as a cursor of the store; none skips them. -/
def resumeIn (mount : Mount) (cursor : ScanCursor) : Option ScanCursor :=
  match cursor with
  | .afterSubtree directory =>
    if inMount mount directory then some (.afterSubtree (realIn mount directory))
    else if pathLe (mountUpper mount) (subtreeSuccessor directory) then none
    else some .start
  | .start => some .start
  | .after path =>
    if pathLe (mountUpper mount) path then none
    else if pathLt path (mountLower mount) then some .start
    else some (.after (realIn mount path))

/-- Whether a point entry at `path` is past the cursor. -/
def pointVisible (path : Text) : ScanCursor → Bool
  | .start => true
  | .after other => pathLt other path
  | .afterSubtree directory => pathLe (subtreeSuccessor directory) path

def virtualEntry (mount : Mount) (entry : ScanEntry) : ScanEntry :=
  { entry with path := virtualOf mount entry.path }

/-- The entry of a point, when it has one. -/
def pointEntry (path : Text) (stat : Option Stat) (cursor : ScanCursor)
    (filesOnly : Bool) : List ScanEntry :=
  if filesOnly || !pointVisible path cursor then []
  else (stat.map fun stat => ⟨path, stat⟩).toList

/-- A page of a mount's subtree. -/
def treePage (view : View) (mount : Mount) (root : Text) (cursor : ScanCursor) (filesOnly : Bool)
    (limit : Nat) : List ScanEntry :=
  match resumeIn mount cursor with
  | none => []
  | some cursor => (storeScan view.store root cursor filesOnly limit).map (virtualEntry mount)

/-- The loop of `scanAbove`. -/
def scanItems (view : View) (cursor : ScanCursor) (filesOnly : Bool) (limit : Nat) :
    List ScanEntry → List Item → List ScanEntry
  | out, [] => out
  | out, item :: items =>
    let wanted := limit - out.length
    if wanted = 0 then out
    else
      match item with
      | .synthetic path =>
        scanItems view cursor filesOnly limit
          (out ++ pointEntry path (some (view.table.syntheticStat path)) cursor filesOnly) items
      | .mountRoot mount =>
        scanItems view cursor filesOnly limit
          (out ++ pointEntry mount.path (statRaw view.store mount.source) cursor filesOnly)
          items
      | .tree mount =>
        let rows := treePage view mount mount.source cursor filesOnly wanted
        if wanted ≤ rows.length then out ++ rows
        else scanItems view cursor filesOnly limit (out ++ rows) items

/-- A root a paged call starts from. -/
inductive ViewRoot where
  | mount (mount : Mount) (real : Text)
  | above (path : Text)
  /-- Absent, or a root that would leave its mount: it has no rows. -/
  | none (path : Text)
  deriving DecidableEq

/-- Where a virtual path lies. -/
inductive Place where
  | mount (mount : Mount) (rest : Text)
  | synthetic
  | absent
  deriving DecidableEq

/-- Classify a canonical virtual path. -/
def MountTable.place (table : MountTable) (path : Text) : Place :=
  match table.mounts.find? (inMount · path) with
  | some mount => .mount mount (restOf mount path)
  | none => if path ∈ table.synthetic then .synthetic else .absent

def rebaseRealPath (path source target : Text) : Text :=
  let rest := if source = [0x2f] then (if path = [0x2f] then [] else path)
    else path.drop source.length
  if target = [0x2f] then (if rest = [] then [0x2f] else rest) else target ++ rest

/-- A root the caller already resolved through this view. -/
def resolvedRoot (table : MountTable) (root : Text) : ViewRoot :=
  if !isCanonicalPath root then .none (normalize root)
  else
    match table.place root with
    | .synthetic => .above root
    | .absent => .none root
    | .mount mount _ => .mount mount (rebaseRealPath root mount.path mount.source)

/-- One page under a resolved view root. -/
def scanPage (view : View) (root : ViewRoot) (cursor : ScanCursor) (filesOnly : Bool)
    (limit : Nat) : Except String (List ScanEntry) :=
  if limit < 1 then .error s!"scan: limit must be a positive integer, got {limit}"
  else
    match root with
    | .none _ => .ok []
    | .mount mount real => .ok (treePage view mount real cursor filesOnly limit)
    | .above path => .ok (scanItems view cursor filesOnly limit [] (itemsUnder view.table path))

-- Listing

/-- `LIST_PAGE_MAX`. -/
def listPageMax : Nat := 1000

inductive Part where
  | root | tree | all
  deriving DecidableEq

inductive Group where
  | synthetic (directory : Text)
  /-- The mount root's own group, its subtree's groups, or both at once. -/
  | mount (mount : Mount) (part : Part)
  deriving DecidableEq

def groupKey : Group → Text
  | .synthetic directory => directory
  | .mount mount part => if part = .tree then mount.path ++ [0x2f] else mount.path

/-- The groups of one item.  A mount whose root group and subtree groups are adjacent is listed in
    one statement. -/
def itemGroups (keys : List Text) : Item → List Group
  | .synthetic path => [.synthetic path]
  | .tree _ => []
  | .mountRoot mount =>
    let lower := mount.path ++ [0x2f]
    if keys.any fun key => pathLt mount.path key && pathLt key lower then
      [.mount mount .root, .mount mount .tree]
    else [.mount mount .all]

/-- Directory groups under a synthetic root in directory order. -/
def groupsUnder (table : MountTable) (root : Text) (recursive : Bool) : List Group :=
  if !recursive then [.synthetic root]
  else
    let items := itemsUnder table root
    (.synthetic root :: items.flatMap (itemGroups (items.map keyOf))).mergeSort
      fun group other => decide (pathLe (groupKey group) (groupKey other))

def realCursor (mount : Mount) (cursor : ListCursor) : ListCursor :=
  { directory := realIn mount cursor.directory, path := cursor.path.map (realIn mount) }

def virtualItem (mount : Mount) (item : ListItem) : ListItem :=
  { directory := virtualOf mount item.directory, entry := item.entry.map (virtualEntry mount) }

def pageOf (items : List ListItem) (more : Bool) : ListPage :=
  { items, next := if more then items.getLast?.map cursorAt else none }

/-- The entry of a synthetic directory's child. -/
def childEntry (view : View) (child : Text) : Option ScanEntry :=
  match view.table.mountAt child with
  | none => some ⟨child, view.table.syntheticStat child⟩
  | some mount => (statRaw view.store mount.source).map fun stat => ⟨child, stat⟩

def syntheticItems (view : View) (directory : Text) : List ListItem :=
  let items := (view.table.childrenOf directory).filterMap fun child =>
    (childEntry view child).map fun entry => (⟨directory, some entry⟩ : ListItem)
  if items = [] then [⟨directory, none⟩] else items

def covers (mount : Mount) (part : Part) (directory : Text) : Bool :=
  let under := (mount.path ++ [0x2f]).isPrefixOf directory
  match part with
  | .root => directory = mount.path
  | .tree => under
  | .all => under || directory = mount.path

/-- The rows of a synthetic group past a cursor; none when the group lies before it. -/
def syntheticRest (view : View) (directory : Text) (after : Option ListCursor) :
    Option (List ListItem) :=
  match after with
  | none => some (syntheticItems view directory)
  | some cursor =>
    if pathLt directory cursor.directory then none
    else if directory = cursor.directory then
      some ((syntheticItems view directory).filter fun item =>
        match cursor.path, item.entry with
        | some path, some entry => pathLt path entry.path
        | _, _ => false)
    else some (syntheticItems view directory)

/-- The store's cursor for a mount's group; none when the group lies before the view's. -/
def groupCursor (mount : Mount) (part : Part) (after : Option ListCursor) :
    Option (Option ListCursor) :=
  let skipRoot : ListCursor := ⟨mount.source, some (subtreeSuccessor mount.source)⟩
  let whole := if part = .tree then some skipRoot else none
  match after with
  | none => some whole
  | some cursor =>
    if covers mount part cursor.directory then some (some (realCursor mount cursor))
    else if pathLe (groupKey (.mount mount part)) cursor.directory then none
    else some whole

/-- The loop of `listAbove`. -/
def listGroupsAbove (view : View) (after : Option ListCursor) (limit : Nat) :
    List ListItem → List Group → ListPage
  | out, [] => pageOf out false
  | out, group :: groups =>
    let wanted := limit - out.length
    if wanted = 0 then pageOf out true
    else
      match group with
      | .synthetic directory =>
        match syntheticRest view directory after with
        | none => listGroupsAbove view after limit out groups
        | some items =>
          if wanted < items.length then pageOf (out ++ items.take wanted) true
          else listGroupsAbove view after limit (out ++ items.take wanted) groups
      | .mount mount part =>
        match groupCursor mount part after with
        | none => listGroupsAbove view after limit out groups
        | some cursor =>
          let page := storeListEntries view.store mount.source cursor wanted (part ≠ .root)
          if page.next = none then
            listGroupsAbove view after limit (out ++ page.items.map (virtualItem mount)) groups
          else pageOf (out ++ page.items.map (virtualItem mount)) true

/-- The listing of a root inside a mount. -/
def listMount (view : View) (mount : Mount) (real : Text) (after : Option ListCursor)
    (limit : Nat) (recursive : Bool) : ListPage :=
  let page := fun cursor =>
    let page := storeListEntries view.store real cursor limit recursive
    pageOf (page.items.map (virtualItem mount)) (page.next ≠ none)
  match after with
  | none => page none
  | some cursor =>
    if inMount mount cursor.directory then page (some (realCursor mount cursor))
    else if pathLt mount.path cursor.directory then ⟨[], none⟩
    else page none

/-- One `listEntries` page under a resolved view root. -/
def listPage (view : View) (root : ViewRoot) (after : Option ListCursor) (limit : Nat)
    (recursive : Bool) : Except String ListPage :=
  if limit < 1 || listPageMax < limit then
    .error s!"listEntries: limit must be an integer from 1 to {listPageMax}, got {limit}"
  else
    match root with
    | .none path =>
      if after.any fun cursor => pathLe path cursor.directory then .ok ⟨[], none⟩
      else .ok ⟨[⟨path, none⟩], none⟩
    | .mount mount real => .ok (listMount view mount real after limit recursive)
    | .above path =>
      .ok (listGroupsAbove view after limit [] (groupsUnder view.table path recursive))

end Kompjutr.Fs.Mounted
