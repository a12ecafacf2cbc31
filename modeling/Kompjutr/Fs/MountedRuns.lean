/-
  Kompjutr.Fs.MountedRuns

  Whole runs of pages through a mounted view.  Whatever the limits are, the pages of a
  scan and of a listing come to an end, and together they are the namespace under the
  root, in path order and without a repeat.
-/
import Kompjutr.Fs.MountedPages

namespace Kompjutr.Fs.Mounted

open Objects (Text text)
open List (map_flatMap mem_filter mem_flatMap mem_map)

-- The rows of a root

section Rows

variable {view : View} {root : ViewRoot} {recursive : Bool}

/-- Everything a listing of a root gives, in the order of its pages. -/
def listRows (view : View) (recursive : Bool) : ViewRoot → List ListItem
  | .none path => [⟨path, none⟩]
  | .mount mount real => (storeRows view.store real recursive).map (virtualItem mount)
  | .above path => rowsAbove view path recursive

theorem itemIn_of_mem_storeRows {mount : Mount} (h : mount.Ok) {real : Text}
    (hreal : isCanonicalPath real = true) (hin : inSource mount real = true) {item : ListItem}
    (hitem : item ∈ storeRows view.store real recursive) : ItemIn mount item := by
  rw [storeRows_eq hreal, List.mem_append] at hitem
  obtain hitem | hitem := hitem
  · exact itemIn_of_mem_group h hreal hin hitem
  · cases recursive with
    | false => cases hitem
    | true =>
      obtain ⟨directory, hdir, hitem⟩ := mem_flatMap.1 hitem
      obtain ⟨hcanonical, hsource⟩ := dirsUnder_ok h hreal hin hdir
      exact itemIn_of_mem_group h hcanonical hsource hitem

theorem storeRows_ordered {table : PathTable} {real : Text} (hreal : isCanonicalPath real = true) :
    (storeRows table real recursive).Pairwise itemLt := by
  rw [storeRows, listGroups_eq hreal]
  apply flatMap_groups_ordered
  rw [List.pairwise_cons]
  cases recursive with
  | false => exact ⟨fun _ hmem => absurd hmem List.not_mem_nil, List.Pairwise.nil⟩
  | true =>
    refine ⟨fun directory hdir => ?_, dirsUnder_ordered⟩
    obtain ⟨row, hrow, -, hunder, rfl⟩ := mem_dirsUnder.1 hdir
    obtain ⟨rest, hrest, heq⟩ := (isUnder_iff (table.canonical row hrow) hreal).1 hunder
    rw [heq]
    exact pathLt_of_below hreal hrest

theorem listRows_ordered (hroot : RootOk view root) :
    (listRows view recursive root).Pairwise itemLt := by
  cases root with
  | none path => exact List.pairwise_singleton _ _
  | above path => exact rowsAbove_ordered hroot recursive
  | mount mount real =>
    obtain ⟨hmount, hreal, hin⟩ := hroot
    have hok := MountTable.ok hmount
    rw [listRows, List.pairwise_map]
    exact (storeRows_ordered hreal).imp_of_mem fun hrow hother hlt =>
      (itemLt_virtualItem hok (itemIn_of_mem_storeRows hok hreal hin hrow)
        (itemIn_of_mem_storeRows hok hreal hin hother)).2 hlt

variable {item : ListItem}

theorem canonical_of_mem_listRows (hroot : RootOk view root)
    (hitem : item ∈ listRows view recursive root) : isCanonicalPath item.directory = true := by
  cases root with
  | none path =>
    rw [List.mem_singleton.1 hitem]
    exact hroot
  | mount mount real =>
    have hok := MountTable.ok hroot.1
    obtain ⟨stored, hstored, rfl⟩ := mem_map.1 hitem
    have hin := itemIn_of_mem_storeRows hok hroot.2.1 hroot.2.2 hstored
    exact (virtualOf_ok hok hin.1.1 hin.1.2).1
  | above path =>
    have hself : ItemOk view.table (.synthetic path) := hroot
    cases recursive with
    | false =>
      rw [listRows, rowsAbove_single] at hitem
      exact canonical_of_mem_itemList hself hitem
    | true =>
      obtain ⟨listed, hlisted, hmem⟩ := mem_rowsAbove.1 hitem
      exact canonical_of_mem_itemList (hlisted.ok hroot) hmem

theorem mem_listRows_mount {mount : Mount} {real : Text} (hroot : RootOk view (.mount mount real)) :
    item ∈ listRows view recursive (.mount mount real) ↔
      Listed view recursive (.mount mount real) item := by
  obtain ⟨hmount, hreal, hin⟩ := hroot
  have hok := MountTable.ok hmount
  obtain ⟨hvirtual, hinside⟩ := virtualOf_ok hok hreal hin
  unfold listRows Listed
  dsimp only [rootPath]
  rw [storeRows_eq hreal, List.map_append, List.mem_append]
  constructor
  · rintro (hitem | hitem)
    · rw [mem_groupItems_iff hmount hreal hin] at hitem
      exact ⟨hitem.1 ▸ hitem, .inl hitem.1⟩
    · cases recursive with
      | false => cases hitem
      | true =>
        rw [if_pos rfl, map_flatMap, mem_flatMap] at hitem
        obtain ⟨directory, hdir, hitem⟩ := hitem
        obtain ⟨hcanonical, hsource⟩ := dirsUnder_ok hok hreal hin hdir
        rw [mem_groupItems_iff hmount hcanonical hsource] at hitem
        refine ⟨hitem.1 ▸ hitem, .inr ⟨rfl, ?_, ?_⟩⟩
        · obtain ⟨row, hrow, htype, hunder, rfl⟩ := mem_dirsUnder.1 hdir
          refine .inr ⟨mount, hmount, .inr ⟨row, hrow, htype, ?_, hitem.1⟩⟩
          exact (isUnder_iff hcanonical hok.2).2 (below_source hok hreal hin hcanonical hunder)
        · obtain ⟨row, hrow, -, hunder, rfl⟩ := mem_dirsUnder.1 hdir
          rw [hitem.1]
          exact (isUnder_virtualOf hok hreal hin hcanonical hsource).2 hunder
  · rintro ⟨hgroup, hdirectory | ⟨rfl, hdirectory, hunder⟩⟩
    · rw [hdirectory] at hgroup
      exact .inl ((mem_groupItems_iff hmount hreal hin).2 hgroup)
    · -- a directory under the root lies in the root's mount, below the mount point
      have hpoint : ∀ {path : Text}, isCanonicalPath path = true →
          isUnder path (virtualOf mount real) = true → inMount mount path = true ∧
            path ≠ mount.path := by
        intro path hpath hbelow
        obtain ⟨more, hmore, hparts⟩ := (isUnder_iff_components hpath hvirtual).1 hbelow
        obtain ⟨front, hfront⟩ := (inMount_iff_components hok hvirtual).1 hinside
        rw [← hfront, List.append_assoc] at hparts
        refine ⟨(inMount_iff_components hok hpath).2 ⟨_, hparts.symm⟩, ?_⟩
        rintro rfl
        have hnil : front ++ more = [] := List.self_eq_append_right.1 hparts
        exact hmore (List.append_eq_nil_iff.1 hnil).2
      right
      rw [if_pos rfl, map_flatMap, mem_flatMap]
      obtain hsynthetic | ⟨other, hother, hpath | ⟨row, hrow, htype, hsource, hpath⟩⟩ := hdirectory
      · have hin' := (hpoint (canonical_of_synthetic hsynthetic) hunder).1
        rw [not_inMount_of_synthetic hsynthetic hmount] at hin'
        cases hin'
      · rw [hpath] at hunder
        have hotherOk := (MountTable.ok hother).1
        obtain ⟨hin', hne⟩ := hpoint hotherOk hunder
        obtain rfl := MountTable.eq_of_inMount hmount hother hotherOk hin' (inMount_self hother)
        exact absurd rfl hne
      · have hotherOk := MountTable.ok hother
        have hcanonical := view.store.canonical row hrow
        have hsourceIn : inSource other row.path = true :=
          (inSource_iff hotherOk hcanonical).2 (.inr ((isUnder_iff hcanonical hotherOk.2).1 hsource))
        obtain ⟨hrowVirtual, hrowIn⟩ := virtualOf_ok hotherOk hcanonical hsourceIn
        rw [hpath] at hunder hgroup
        obtain rfl := MountTable.eq_of_inMount hmount hother hrowVirtual
          (hpoint hrowVirtual hunder).1 hrowIn
        have hrowUnder := (isUnder_virtualOf hok hreal hin hcanonical hsourceIn).1 hunder
        exact ⟨row.path, mem_dirsUnder.2 ⟨row, hrow, htype, hrowUnder, rfl⟩,
          (mem_groupItems_iff hmount hcanonical hsourceIn).2 hgroup⟩

theorem mem_listRows_above {path : Text} (hroot : RootOk view (.above path)) :
    item ∈ listRows view recursive (.above path) ↔ Listed view recursive (.above path) item := by
  have hpath := canonical_of_synthetic hroot
  have hself : item ∈ syntheticItems view path ↔ InGroup view path item :=
    mem_syntheticItems_iff hroot
  unfold listRows Listed
  dsimp only [rootPath]
  cases recursive with
  | false =>
    rw [rowsAbove_single, hself]
    constructor
    · intro hgroup
      exact ⟨hgroup.1 ▸ hgroup, .inl hgroup.1⟩
    · rintro ⟨hgroup, hdirectory | ⟨hfalse, -⟩⟩
      · rwa [hdirectory] at hgroup
      · cases hfalse
  | true =>
    rw [mem_rowsAbove]
    constructor
    · rintro ⟨listed, rfl | hunder, hmem⟩
      · have hgroup := hself.1 hmem
        exact ⟨hgroup.1 ▸ hgroup, .inl hgroup.1⟩
      · cases listed with
        | synthetic directory =>
          have hgroup := (mem_syntheticItems_iff hunder.1).1 hmem
          refine ⟨hgroup.1 ▸ hgroup, .inr ⟨rfl, ?_⟩⟩
          rw [hgroup.1]
          exact ⟨.inl hunder.1, hunder.2⟩
        | mountRoot mount =>
          have hok := MountTable.ok hunder.1
          have hgroup := (mem_groupItems_iff hunder.1 hok.2 (inSource_self hok)).1 hmem
          rw [virtualOf_source hok] at hgroup
          refine ⟨hgroup.1 ▸ hgroup, .inr ⟨rfl, ?_⟩⟩
          rw [hgroup.1]
          exact ⟨.inr ⟨mount, hunder.1, .inl rfl⟩, hunder.2⟩
        | tree mount =>
          have hok := MountTable.ok hunder.1
          rw [itemList, map_flatMap, mem_flatMap] at hmem
          obtain ⟨directory, hdir, hmem⟩ := hmem
          obtain ⟨hcanonical, hsource⟩ := dirsUnder_ok hok hok.2 (inSource_self hok) hdir
          have hgroup := (mem_groupItems_iff hunder.1 hcanonical hsource).1 hmem
          obtain ⟨row, hrow, htype, hrowUnder, rfl⟩ := mem_dirsUnder.1 hdir
          refine ⟨hgroup.1 ▸ hgroup, .inr ⟨rfl, ?_⟩⟩
          rw [hgroup.1]
          refine ⟨.inr ⟨mount, hunder.1, .inr ⟨row, hrow, htype, hrowUnder, rfl⟩⟩, ?_⟩
          have hbelow := (isUnder_virtualOf hok hok.2 (inSource_self hok) hcanonical hsource).2
            hrowUnder
          rw [virtualOf_source hok] at hbelow
          exact isUnder_trans (virtualOf_ok hok hcanonical hsource).1 hok.1 hpath hbelow hunder.2
    · rintro ⟨hgroup, hdirectory | ⟨-, hdirectory, hunder⟩⟩
      · rw [hdirectory] at hgroup
        exact ⟨.synthetic path, .inl rfl, hself.2 hgroup⟩
      · obtain hsynthetic | ⟨mount, hmount, hpoint | ⟨row, hrow, htype, hsource, hpoint⟩⟩ :=
          hdirectory
        · exact ⟨.synthetic item.directory, .inr ⟨hsynthetic, hunder⟩,
            (mem_syntheticItems_iff hsynthetic).2 hgroup⟩
        · have hok := MountTable.ok hmount
          rw [hpoint] at hunder
          refine ⟨.mountRoot mount, .inr ⟨hmount, hunder⟩, ?_⟩
          refine (mem_groupItems_iff hmount hok.2 (inSource_self hok)).2 ?_
          rw [virtualOf_source hok, ← hpoint]
          exact hgroup
        · have hok := MountTable.ok hmount
          have hcanonical := view.store.canonical row hrow
          have hsourceIn : inSource mount row.path = true :=
            (inSource_iff hok hcanonical).2 (.inr ((isUnder_iff hcanonical hok.2).1 hsource))
          obtain ⟨hvirtual, hinside⟩ := virtualOf_ok hok hcanonical hsourceIn
          rw [hpoint] at hunder hgroup
          have hmountUnder := isUnder_of_synthetic hroot hmount hvirtual hinside hunder
          refine ⟨.tree mount, .inr ⟨hmount, hmountUnder⟩, ?_⟩
          rw [itemList, map_flatMap, mem_flatMap]
          exact ⟨row.path, mem_dirsUnder.2 ⟨row, hrow, htype, hsource, rfl⟩,
            (mem_groupItems_iff hmount hcanonical hsourceIn).2 hgroup⟩

/-- The rows of a listing are those of the namespace. -/
theorem mem_listRows (hroot : RootOk view root) :
    item ∈ listRows view recursive root ↔ Listed view recursive root item := by
  cases root with
  | none path => exact List.mem_singleton
  | mount mount real => exact mem_listRows_mount hroot
  | above path => exact mem_listRows_above hroot

end Rows

-- Roots

-- Pages of a listing

section Pages

variable {view : View} {root : ViewRoot} {recursive : Bool}

section

variable {mount : Mount} {real : Text} (hroot : RootOk view (.mount mount real))
  {after : Option ListCursor} (hafter : Resumes (listRows view recursive (.mount mount real)) after)

include hroot hafter

/-- The rows of a mount past a cursor, in the store and in the view. -/
theorem mountRows_after :
    ((storeRows view.store real recursive).filter
        (listAfter (after.map (realCursor mount)))).map (virtualItem mount) =
      (listRows view recursive (.mount mount real)).filter (listAfter after) := by
  obtain ⟨hmount, hreal, hin⟩ := hroot
  have hok := MountTable.ok hmount
  have hitems := fun item => @itemIn_of_mem_storeRows view recursive mount hok real hreal hin item
  unfold listRows at hafter ⊢
  dsimp only at hafter ⊢
  rw [List.filter_map]
  congr 1
  refine List.filter_congr fun item hitem => ?_
  rw [Function.comp_apply]
  obtain rfl | ⟨row, hrow, rfl⟩ := hafter
  · have hitemIn := hitems item hitem
    rw [Option.map_none, listAfter_none hitemIn.1.1, listAfter_none]
    exact (virtualOf_ok hok hitemIn.1.1 hitemIn.1.2).1
  · obtain ⟨stored, hstored, rfl⟩ := mem_map.1 hrow
    rw [Option.map_some, realCursor_virtualItem hok (hitems stored hstored), listAfter_cursorAt,
      listAfter_cursorAt, decide_eq_decide]
    exact (itemLt_virtualItem hok (hitems stored hstored) (hitems item hitem)).symm

theorem listMount_eq {limit : Nat}
    (hlimit : 1 ≤ limit) :
    ∃ more, listMount view mount real after limit recursive =
        pageOf (((listRows view recursive (.mount mount real)).filter
          (listAfter after)).take limit) more ∧
      (more = false → ((listRows view recursive (.mount mount real)).filter
        (listAfter after)).length ≤ limit) := by
  have hok := MountTable.ok hroot.1
  have hpage : listMount view mount real after limit recursive =
      pageOf ((storeListEntries view.store real (after.map (realCursor mount)) limit
          recursive).items.map (virtualItem mount))
        ((storeListEntries view.store real (after.map (realCursor mount)) limit
          recursive).next ≠ none) := by
    unfold listMount
    obtain rfl | ⟨row, hrow, rfl⟩ := hafter
    · rfl
    · obtain ⟨stored, hstored, rfl⟩ := mem_map.1 hrow
      have hitem := itemIn_of_mem_storeRows hok hroot.2.1 hroot.2.2 hstored
      have hinside := (virtualOf_ok hok hitem.1.1 hitem.1.2).2
      exact if_pos hinside
  obtain ⟨hitems, hnext⟩ := @storeListEntries_eq view.store real (after.map (realCursor mount))
    limit hlimit recursive
  refine ⟨decide ((storeListEntries view.store real (after.map (realCursor mount)) limit
    recursive).next ≠ none), hpage.trans ?_, fun hmore => ?_⟩
  · rw [hitems, List.map_take, mountRows_after hroot hafter]
  · rw [decide_eq_false_iff_not, not_not] at hmore
    have hlength := hnext.1 hmore
    rw [← mountRows_after hroot hafter, List.length_map]
    exact hlength

end

variable {after : Option ListCursor} {limit : Nat}

/-- A page is the first of the rows past its cursor, and only the last has no cursor. -/
theorem listPage_eq (hroot : RootOk view root)
    (hafter : Resumes (listRows view recursive root) after) (hlimit : 1 ≤ limit)
    (hmax : limit ≤ listPageMax) :
    ∃ more, listPage view root after limit recursive =
        .ok (pageOf (((listRows view recursive root).filter (listAfter after)).take limit) more) ∧
      (more = false → ((listRows view recursive root).filter
        (listAfter after)).length ≤ limit) := by
  have hcheck : ¬ (limit < 1 || listPageMax < limit) = true := by
    rw [Bool.or_eq_true, decide_eq_true_eq, decide_eq_true_eq]
    omega
  unfold listPage
  rw [if_neg hcheck]
  cases root with
  | none path =>
    obtain ⟨last, rfl⟩ : ∃ last, limit = last + 1 := ⟨limit - 1, by omega⟩
    refine ⟨false, ?_, fun _ => (List.length_filter_le _ _).trans hlimit⟩
    obtain rfl | ⟨row, hrow, rfl⟩ := hafter
    · have hfirst : listAfter none ⟨path, none⟩ = true := listAfter_none hroot
      simp [listRows, hfirst, pageOf]
    · obtain rfl := List.mem_singleton.1 hrow
      have hdone : listAfter (some ⟨path, none⟩) ⟨path, none⟩ = false := by
        refine (listAfter_cursorAt ⟨path, none⟩ ⟨path, none⟩).trans ?_
        rw [decide_eq_false_iff_not]
        exact fun hlt => itemLt_asymm _ _ hlt hlt
      have hle := pathLe_refl path
      simp [listRows, hdone, pageOf, cursorAt, hle]
  | mount mount real =>
    obtain ⟨more, hpage, hmore⟩ := listMount_eq hroot hafter hlimit
    exact ⟨more, congrArg _ hpage, hmore⟩
  | above path =>
    obtain ⟨more, hpage, hmore⟩ := @listGroupsAbove_eq view after limit []
      (groupsUnder view.table path recursive) (Nat.zero_le _)
    rw [List.nil_append, rest_eq hroot recursive hafter] at hpage hmore
    exact ⟨more, congrArg _ hpage, hmore⟩

/-- The pages of a listing from a cursor on, with the limit of each. -/
inductive ListRun (view : View) (root : ViewRoot) (recursive : Bool) :
    Option ListCursor → List Nat → List ListItem → Prop
  | last {after limit page} (hpage : listPage view root after limit recursive = .ok page)
      (hnext : page.next = none) : ListRun view root recursive after [limit] page.items
  | next {after limit page cursor limits out}
      (hpage : listPage view root after limit recursive = .ok page)
      (hnext : page.next = some cursor)
      (hrest : ListRun view root recursive (some cursor) limits out) :
      ListRun view root recursive after (limit :: limits) (page.items ++ out)

theorem listLimit {page : ListPage} (h : listPage view root after limit recursive = .ok page) :
    1 ≤ limit ∧ limit ≤ listPageMax := by
  unfold listPage at h
  split at h
  · cases h
  · rename_i hcheck
    rw [Bool.or_eq_true, decide_eq_true_eq, decide_eq_true_eq] at hcheck
    omega

/-- The rows behind the last of a page, past the page's cursor. -/
theorem filter_behind (hroot : RootOk view root)
    {last : ListItem} (hafter : Resumes (listRows view recursive root) after)
    (hlast : (((listRows view recursive root).filter (listAfter after)).take limit).getLast? =
      some last) :
    (listRows view recursive root).filter (listAfter (some (cursorAt last))) =
      ((listRows view recursive root).filter (listAfter after)).filter
        fun row => decide (itemLt last row) := by
  have hmem := List.mem_of_mem_take (List.mem_of_getLast? hlast)
  obtain ⟨-, hpast⟩ := mem_filter.1 hmem
  rw [List.filter_filter]
  refine List.filter_congr fun row hrow => ?_
  rw [listAfter_cursorAt, Bool.eq_iff_iff, Bool.and_eq_true]
  refine ⟨fun h => ⟨h, ?_⟩, fun h => h.1⟩
  obtain rfl | ⟨cursor, -, rfl⟩ := hafter
  · exact listAfter_none (canonical_of_mem_listRows hroot hrow)
  · rw [listAfter_cursorAt, decide_eq_true_iff] at hpast ⊢
    exact itemLt_trans hpast (of_decide_eq_true h)

/-- A page's cursor stands at its last row. -/
theorem pageOf_next {items : List ListItem} {more : Bool} {cursor : ListCursor}
    (h : (pageOf items more).next = some cursor) :
    ∃ last, items.getLast? = some last ∧ cursor = cursorAt last := by
  unfold pageOf at h
  dsimp only at h
  split at h
  · obtain ⟨last, hlast, heq⟩ := Option.map_eq_some_iff.1 h
    exact ⟨last, hlast, heq.symm⟩
  · cases h

/-- A page without a cursor is the last. -/
theorem pageOf_last {rows : List ListItem} {more : Bool} (hlimit : 1 ≤ limit)
    (hmore : more = false → rows.length ≤ limit) (h : (pageOf (rows.take limit) more).next = none) :
    rows.length ≤ limit := by
  cases more with
  | false => exact hmore rfl
  | true =>
    unfold pageOf at h
    dsimp only at h
    rw [if_pos rfl, Option.map_eq_none_iff, List.getLast?_eq_none_iff] at h
    have := congrArg List.length h
    rw [List.length_take, List.length_nil] at this
    omega

/-- A run of pages gives every row past its cursor. -/
theorem listRun_eq (hroot : RootOk view root) {limits : List Nat}
    {out : List ListItem} (h : ListRun view root recursive after limits out)
    (hafter : Resumes (listRows view recursive root) after) :
    out = (listRows view recursive root).filter (listAfter after) := by
  induction h with
  | last hpage hnext =>
    obtain ⟨hlimit, hmax⟩ := listLimit hpage
    obtain ⟨more, heq, hmore⟩ := listPage_eq hroot hafter hlimit hmax
    obtain rfl := Except.ok.inj (hpage.symm.trans heq)
    exact List.take_of_length_le (pageOf_last hlimit hmore hnext)
  | next hpage hnext hrest ih =>
    obtain ⟨hlimit, hmax⟩ := listLimit hpage
    obtain ⟨more, heq, hmore⟩ := listPage_eq hroot hafter hlimit hmax
    obtain rfl := Except.ok.inj (hpage.symm.trans heq)
    obtain ⟨last, hlast, rfl⟩ := pageOf_next hnext
    have hmem := List.mem_of_mem_take (List.mem_of_getLast? hlast)
    rw [ih (.inr ⟨last, (mem_filter.1 hmem).1, rfl⟩), filter_behind hroot hafter hlast]
    exact Keyset.take_append_behind itemLt_asymm
      ((listRows_ordered hroot).sublist List.filter_sublist) hlast

/-- Whatever the limits are, the pages come to an end. -/
theorem listRun_exists (hroot : RootOk view root) (limits : Nat → Nat)
    (hlimits : ∀ index, 1 ≤ limits index ∧ limits index ≤ listPageMax)
    (hafter : Resumes (listRows view recursive root) after) :
    ∃ count out, ListRun view root recursive after ((List.range count).map limits) out := by
  -- each page with a cursor leaves less of the rows
  generalize hlength : ((listRows view recursive root).filter (listAfter after)).length = length
  induction length using Nat.strong_induction_on generalizing after limits with
  | h length ih =>
    obtain ⟨more, hpage, -⟩ := listPage_eq hroot hafter (hlimits 0).1 (hlimits 0).2
    generalize hanswer : pageOf (((listRows view recursive root).filter
      (listAfter after)).take (limits 0)) more = page at hpage
    cases hnext : page.next with
    | none => exact ⟨1, page.items, ListRun.last hpage hnext⟩
    | some cursor =>
      subst hanswer
      obtain ⟨last, hlast, rfl⟩ := pageOf_next hnext
      have hmem := List.mem_of_mem_take (List.mem_of_getLast? hlast)
      have hless := Keyset.length_behind_lt itemLt_asymm
        ((listRows_ordered hroot).sublist List.filter_sublist) hlast
      rw [← filter_behind hroot hafter hlast, hlength] at hless
      obtain ⟨count, out, hrun⟩ := ih _ hless (fun index => limits (index + 1))
        (fun index => hlimits (index + 1)) (.inr ⟨last, (mem_filter.1 hmem).1, rfl⟩) rfl
      refine ⟨count + 1, ((listRows view recursive root).filter (listAfter after)).take (limits 0) ++
        out, ?_⟩
      rw [List.range_succ_eq_map, List.map_cons, List.map_map]
      exact ListRun.next hpage hnext hrun

end Pages

-- The namespace, page by page

/-- A view with `/a` of the store at `/m`, and the whole store at `/m-x`. -/
def twoMounts : View where
  table :=
    { mounts := [⟨text "/m", text "/a"⟩, ⟨text "/m-x", text "/"⟩]
      ordered := by decide
      canonical := by decide
      separate := by decide }
  store :=
    { rows := [⟨text "/", [], ⟨.dir, 0, 0, 0, 1, 1, 0, none, none⟩⟩,
        ⟨text "/a", text "/", ⟨.dir, 0, 0, 0, 2, 1, 0, none, none⟩⟩,
        ⟨text "/a/f", text "/a", ⟨.file, 0, 0, 0, 3, 1, 0, none, none⟩⟩]
      ordered := by decide
      canonical := by decide
      parents := by decide }

theorem twoMounts_root : RootOk twoMounts (.above [0x2f]) :=
  mem_synthetic.2 ⟨rfl, .inl ⟨⟨text "/m", text "/a"⟩, List.mem_cons_self, rfl⟩⟩

end Kompjutr.Fs.Mounted
