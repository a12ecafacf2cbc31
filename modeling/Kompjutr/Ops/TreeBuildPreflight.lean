/-
  Kompjutr.Ops.TreeBuildPreflight

  The measurement of an index before its trees are built.

  It goes through the same cursors as the build and has the measures of the forest so far
  (`preflightOf`), where a directory that is open counts in its parent already.  It accepts an index
  exactly when its measures stay within the limits and no entry is directly followed by one below it
  (`preflightTreeBuild_decides`).
-/
import Kompjutr.Ops.TreeBuildWalk

namespace Kompjutr.Ops

open Objects (Text text isOid)
open Index (IndexEntry)
open Streams (comparePaths)
open Forest (Node Cursor Built Limit)
open Utf8 (WellFormed encode)
open List (length_append length_singleton map_append mem_pair)

variable {names : List Text} {blob : Blob}

variable {limit : Int} {name : Text} {cursor : Cursor Text Blob} {front entries : List IndexEntry}
  {entry : IndexEntry}

-- The measures of a cursor

def directoryOf (nodes : List (Node Text Blob)) : PreflightDirectory where
  serializedBytes := treeBytes nodes
  entries := nodes.length

/-- The directories that are open, each with the one that is open in it. -/
def measuredStack (top : List (Node Text Blob)) :
    List (Text × List (Node Text Blob)) → List PreflightDirectory
  | [] => [directoryOf top]
  | (name, nodes) :: below => directoryOf top :: measuredStack (nodes ++ [.dir name []]) below

/-- The octets of the largest tree. -/
def largestTree (closed : List (List (Node Text Blob))) : Nat := (closed.map treeBytes).foldl max 0

/-- The measurement at a cursor, with the fields that do not follow the directories. -/
def preflightOf (base : Preflight) (cursor : Cursor Text Blob) : Preflight :=
  { base with
    stack := measuredStack cursor.top cursor.below
    opened := cursor.opened
    treeObjects := cursor.directories
    serializedTreeBytes := cursor.total nodeBytes
    maxSingleTreeBytes := largestTree cursor.closed }

/-- What a tree may have. -/
def Narrow (limit : Int) (nodes : List (Node Text Blob)) : Prop := nodes.length ≤ limit

theorem narrow_limit (h : 0 ≤ limit) : Limit (Narrow limit) where
  nil := h
  part := by
    intro nodes node hlength
    unfold Narrow at hlength ⊢
    rw [length_append, length_singleton] at hlength
    omega
  outer := by
    intro nodes name children
    unfold Narrow
    rw [length_append, length_append, length_singleton, length_singleton]

/-- The measures at a cursor are within the limits. -/
structure Fits (limit : Int) (cursor : Cursor Text Blob) : Prop where
  narrow : cursor.Bounded (Narrow limit)
  octets : isSafeInteger (cursor.total nodeBytes) = true
  trees : isSafeInteger cursor.directories = true

/-- The result is decided by a condition. -/
def Decides {α : Type} (condition : Prop) (result : Except GitError α) (value : α) : Prop :=
  (condition → result = .ok value) ∧ (¬ condition → ∃ e, result = .error e)

theorem Decides.bind {α β : Type} {condition more : Prop} {result : Except GitError α} {value : α}
    {f : α → Except GitError β} {last : β} (h : Decides condition result value)
    (hle : more → condition) (hf : condition → Decides more (f value) last) :
    Decides more (result.bind f) last := by
  by_cases hcondition : condition
  · rw [h.1 hcondition]
    exact hf hcondition
  · obtain ⟨e, he⟩ := h.2 hcondition
    rw [he]
    exact ⟨fun hmore => absurd (hle hmore) hcondition, fun _ => ⟨e, rfl⟩⟩

theorem safe_of_le {small large : Nat} (hle : small ≤ large)
    (h : isSafeInteger (large : Int) = true) : isSafeInteger (small : Int) = true := by
  rw [isSafeInteger_iff] at h ⊢
  unfold maxSafeInteger at h ⊢
  omega

theorem decides_checkedBytes (total bytes : Nat) (label : String) :
    Decides (isSafeInteger ((total + bytes : Nat) : Int) = true) (checkedBytes total bytes label)
      (total + bytes) :=
  ⟨checkedBytes_ok label, checkedBytes_error label⟩

theorem decides_utf8Length (h : WellFormed name) (label : String) :
    Decides (isSafeInteger ((encode name).length : Int) = true) (utf8Length name label)
      (encode name).length := by
  refine ⟨utf8Length_ok h, fun hnot => ?_⟩
  rw [utf8Length_eq label h, countBytes, Nat.zero_add, if_neg hnot]
  exact ⟨_, rfl⟩

theorem measuredStack_congr {top other : List (Node Text Blob)}
    (h : directoryOf top = directoryOf other) (below : List (Text × List (Node Text Blob))) :
    measuredStack top below = measuredStack other below := by
  cases below with
  | nil => rw [measuredStack, measuredStack, h]
  | cons first below => rw [measuredStack, measuredStack, h]

theorem directoryOf_concat (nodes : List (Node Text Blob)) (node : Node Text Blob) :
    directoryOf (nodes ++ [node]) =
      { serializedBytes := treeBytes nodes + nodeBytes node, entries := nodes.length + 1 } := by
  rw [directoryOf, treeBytes, Forest.size_concat, length_append, length_singleton]

theorem closeDirectory_eq (base : Preflight) (h : cursor.below ≠ []) :
    (preflightOf base cursor).closeDirectory = .ok (preflightOf base cursor.close) := by
  obtain ⟨⟨name, nodes⟩, below, hcons⟩ := List.exists_cons_of_ne_nil h
  have hopened := opened_close cursor
  have htotal := Cursor.total_close nodeBytes_dir cursor
  have hdirectories := Cursor.directories_close cursor
  have hsame : directoryOf (nodes ++ [.dir name []]) = directoryOf (nodes ++ [.dir name cursor.top]) := by
    rw [directoryOf_concat, directoryOf_concat, nodeBytes_dir name cursor.top]
  unfold Preflight.closeDirectory
  rw [preflightOf, hcons, measuredStack, preflightOf, hopened, htotal, hdirectories,
    Cursor.close_cons hcons, measuredStack_congr hsame]
  dsimp only
  rw [largestTree, largestTree, map_append, List.foldl_append]
  rfl

theorem closeTimes_eq (base : Preflight) {times : Nat} (h : times ≤ cursor.below.length) :
    (preflightOf base cursor).closeTimes times =
      .ok (preflightOf base (Cursor.closeTimes times cursor)) := by
  induction times generalizing cursor with
  | zero => rfl
  | succ times ih =>
    have hlength : cursor.close.below.length = cursor.below.length - 1 := by
      have hdrop := Cursor.below_closeTimes 1 cursor
      rw [Cursor.closeTimes, Cursor.closeTimes] at hdrop
      rw [hdrop, List.length_drop]
    rw [Preflight.closeTimes, closeDirectory_eq base (List.ne_nil_of_length_pos (by omega)),
      bind_ok_eq, ih (by omega), Cursor.closeTimes]

theorem closeTo_eq (base : Preflight) (cursor : Cursor Text Blob) (depth : Nat) :
    (preflightOf base cursor).closeTo depth =
      .ok (preflightOf base (Cursor.closeTimes (cursor.opened.length - depth) cursor)) := by
  refine closeTimes_eq base ?_
  rw [← length_opened]
  exact Nat.sub_le _ _

-- One entry

theorem Decides.of_true {α : Type} {condition : Prop} {value : α} (h : condition) :
    Decides condition (.ok value) value :=
  ⟨fun _ => rfl, fun hnot => absurd h hnot⟩

/-- The directories around the innermost one. -/
def measuredAround : List (Text × List (Node Text Blob)) → List PreflightDirectory
  | [] => []
  | (name, nodes) :: below => measuredStack (nodes ++ [.dir name []]) below

theorem measuredStack_eq (top : List (Node Text Blob))
    (below : List (Text × List (Node Text Blob))) :
    measuredStack top below = directoryOf top :: measuredAround below := by
  cases below <;> rfl

theorem decides_retainEntry (limit : Int) {state : Preflight} {top : List (Node Text Blob)}
    {node : Node Text Blob} {stack : List PreflightDirectory}
    (h : state.stack = directoryOf top :: stack) {bytes : Nat} (hbytes : bytes = nodeBytes node)
    (lost : String) :
    Decides (Narrow limit (top ++ [node])) (state.retainEntry limit bytes lost)
      { state with stack := directoryOf (top ++ [node]) :: stack } := by
  have hnarrow : Narrow limit (top ++ [node]) ↔ ¬ ((directoryOf top).entries : Int) ≥ limit := by
    unfold Narrow directoryOf
    rw [length_append, length_singleton]
    dsimp only
    omega
  unfold Preflight.retainEntry
  rw [hnarrow, h]
  dsimp only
  constructor
  · intro hroom
    rw [if_neg hroom, directoryOf_concat, hbytes]
    rfl
  · intro hfull
    rw [if_pos (not_not.1 hfull)]
    exact ⟨_, rfl⟩

section

variable (hlimit : 0 ≤ limit)

include hlimit

theorem fits_enter (cursor : Cursor Text Blob) (name : Text) :
    Fits limit (cursor.enter name) ↔
      (cursor.Bounded (Narrow limit) ∧ Narrow limit (cursor.top ++ [.dir name []])) ∧
        isSafeInteger ((cursor.total nodeBytes + nodeBytes (.dir name []) : Nat) : Int) = true ∧
        isSafeInteger ((cursor.directories + 1 : Nat) : Int) = true := by
  rw [← Cursor.bounded_enter (narrow_limit hlimit), ← Cursor.total_enter,
    ← Cursor.directories_enter cursor name]
  exact ⟨fun h => ⟨h.narrow, h.octets, h.trees⟩, fun h => ⟨h.1, h.2.1, h.2.2⟩⟩

theorem fits_push (cursor : Cursor Text Blob) (name : Text) (blob : Blob) :
    Fits limit (cursor.push name blob) ↔
      (cursor.Bounded (Narrow limit) ∧ Narrow limit (cursor.top ++ [.leaf name blob])) ∧
        isSafeInteger ((cursor.total nodeBytes + nodeBytes (.leaf name blob) : Nat) : Int) = true ∧
        isSafeInteger (cursor.directories : Int) = true := by
  rw [← Cursor.bounded_push (narrow_limit hlimit), ← Cursor.total_push,
    ← Cursor.directories_push cursor name blob]
  exact ⟨fun h => ⟨h.narrow, h.octets, h.trees⟩, fun h => ⟨h.1, h.2.1, h.2.2⟩⟩

theorem fits_closeTimes (times : Nat) (cursor : Cursor Text Blob) :
    Fits limit (Cursor.closeTimes times cursor) ↔ Fits limit cursor := by
  have htotal := Cursor.total_closeTimes nodeBytes_dir times cursor
  have htrees := Cursor.directories_closeTimes times cursor
  have hnarrow := Cursor.bounded_closeTimes (narrow_limit hlimit) times cursor
  constructor
  · intro h
    exact ⟨hnarrow.1 h.narrow, htotal ▸ h.octets, htrees ▸ h.trees⟩
  · intro h
    exact ⟨hnarrow.2 h.narrow, htotal.symm ▸ h.octets, htrees.symm ▸ h.trees⟩

theorem decides_openDirectory (base : Preflight) (hfits : Fits limit cursor)
    (hname : WellFormed name) :
    Decides (Fits limit (cursor.enter name))
      ((preflightOf base cursor).openDirectory limit name)
      (preflightOf base (cursor.enter name)) := by
  have hstack := measuredStack_eq cursor.top cursor.below
  have hbytes : nodeBytes (.dir name []) = serializedEntryBytes 5 (encode name).length := rfl
  rw [fits_enter hlimit]
  unfold Preflight.openDirectory
  refine (decides_utf8Length hname _).bind (fun h => ?_) fun _ => ?_
  · refine safe_of_le ?_ h.2.1
    rw [hbytes, serializedEntryBytes]
    omega
  refine (decides_checkedBytes _ _ _).bind (fun h => h.2.1) fun hoctets => ?_
  refine (@decides_retainEntry limit _ _ (.dir name []) _ hstack _ hbytes.symm _).bind
    (fun h => h.1.2) fun hnarrow => ?_
  refine (decides_checkedBytes _ _ _).bind (fun h => h.2.2) fun htrees => ?_
  have hvalue : preflightOf base (cursor.enter name) =
      { base with
        stack := { serializedBytes := 0, entries := 0 } ::
          directoryOf (cursor.top ++ [.dir name []]) :: measuredAround cursor.below
        opened := cursor.opened ++ [name]
        treeObjects := cursor.directories + 1
        serializedTreeBytes := cursor.total nodeBytes + serializedEntryBytes 5 (encode name).length
        maxSingleTreeBytes := largestTree cursor.closed } := by
    rw [preflightOf, Cursor.opened_enter, Cursor.directories_enter, Cursor.total_enter, hbytes,
      Cursor.enter, measuredStack, measuredStack_eq]
    rfl
  rw [hvalue]
  exact Decides.of_true ⟨⟨hfits.narrow, hnarrow⟩, hoctets, htrees⟩

theorem fits_of_enter (h : Fits limit (cursor.enter name)) : Fits limit cursor := by
  obtain ⟨hnarrow, hoctets, htrees⟩ := (fits_enter hlimit cursor name).1 h
  exact ⟨hnarrow.1, safe_of_le (Nat.le_add_right _ _) hoctets,
    safe_of_le (Nat.le_add_right _ _) htrees⟩

theorem fits_of_enters (h : Fits limit (names.foldl Cursor.enter cursor)) :
    Fits limit cursor := by
  induction names generalizing cursor with
  | nil => exact h
  | cons name names ih => exact fits_of_enter hlimit (ih h)

theorem decides_openDirectories (base : Preflight)
    (hnames : ∀ name ∈ names, WellFormed name)
    (hfits : Fits limit cursor) :
    Decides (Fits limit (names.foldl Cursor.enter cursor))
      (names.foldlM (Preflight.openDirectory limit) (preflightOf base cursor))
      (preflightOf base (names.foldl Cursor.enter cursor)) := by
  induction names generalizing cursor with
  | nil => exact Decides.of_true hfits
  | cons name names ih =>
    rw [List.forall_mem_cons] at hnames
    rw [List.foldlM_cons, List.foldl_cons]
    exact (decides_openDirectory hlimit base hfits hnames.1).bind
      (fun h => fits_of_enters hlimit h) fun hentered => ih hnames.2 hentered

theorem decides_leaf (base : Preflight) (hfits : Fits limit cursor)
    (hname : WellFormed name) (hmode : serializedLeafModeBytes blob.1 = .ok 6) (path : Text) :
    Decides (Fits limit (cursor.push name blob))
      ((serializedLeafModeBytes blob.1).bind fun modeBytes =>
        (utf8Length name "tree-build leaf name").bind fun nameBytes =>
          (checkedBytes (cursor.total nodeBytes) (serializedEntryBytes modeBytes nameBytes)
            "serialized diagnostic").bind fun serializedTreeBytes =>
            ({ preflightOf base cursor with serializedTreeBytes }.retainEntry limit
              (serializedEntryBytes modeBytes nameBytes)
              "tree-build preflight lost its leaf parent").bind fun state =>
                .ok { state with leafEntries := state.leafEntries + 1, previousPath := some path })
      (preflightOf { base with leafEntries := base.leafEntries + 1, previousPath := some path }
        (cursor.push name blob)) := by
  have hstack := measuredStack_eq cursor.top cursor.below
  have hbytes : nodeBytes (.leaf name blob) = serializedEntryBytes 6 (encode name).length := rfl
  rw [fits_push hlimit, hmode, bind_ok_eq]
  refine (decides_utf8Length hname _).bind (fun h => ?_) fun _ => ?_
  · refine safe_of_le ?_ h.2.1
    rw [hbytes, serializedEntryBytes]
    omega
  refine (decides_checkedBytes _ _ _).bind (fun h => h.2.1) fun hoctets => ?_
  refine (@decides_retainEntry limit _ _ (.leaf name blob) _ hstack _ hbytes.symm _).bind
    (fun h => h.1.2) fun hnarrow => ?_
  have hvalue : preflightOf
      { base with leafEntries := base.leafEntries + 1, previousPath := some path }
      (cursor.push name blob) =
        { base with
          leafEntries := base.leafEntries + 1
          previousPath := some path
          stack := directoryOf (cursor.top ++ [.leaf name blob]) :: measuredAround cursor.below
          opened := cursor.opened
          treeObjects := cursor.directories
          serializedTreeBytes :=
            cursor.total nodeBytes + serializedEntryBytes 6 (encode name).length
          maxSingleTreeBytes := largestTree cursor.closed } := by
    rw [preflightOf, Cursor.directories_push, Cursor.total_push, hbytes, Cursor.push,
      measuredStack_eq]
    rfl
  rw [hvalue]
  exact Decides.of_true ⟨⟨hfits.narrow, hnarrow⟩, hoctets, hfits.trees⟩

theorem fits_of_push (h : Fits limit (cursor.push name blob)) : Fits limit cursor := by
  obtain ⟨hnarrow, hoctets, htrees⟩ := (fits_push hlimit cursor name blob).1 h
  exact ⟨hnarrow.1, safe_of_le (Nat.le_add_right _ _) hoctets, htrees⟩

end

-- The entries before

/-- The octets of the paths. -/
def pathBytes (entries : List IndexEntry) : Nat :=
  (entries.map fun entry => (encode entry.path).length).sum

theorem pathBytes_concat (entries : List IndexEntry) (entry : IndexEntry) :
    pathBytes (entries ++ [entry]) = pathBytes entries + (encode entry.path).length := by
  rw [pathBytes, map_append, List.sum_append]
  rfl

/-- The measurement behind entries. -/
def measuredOf (entries : List IndexEntry) : Preflight :=
  preflightOf
    { Preflight.start with
      previousEntry := entries.getLast?.map fun last => (last.path, last.stage)
      previousPath := entries.getLast?.map fun last => last.path
      leafEntries := entries.length
      totalPathBytes := pathBytes entries } (lastCursor entries)

/-- The entries pass: none is directly followed by one below it, and their measures stay within
    the limits. -/
structure Accepted (limit : Int) (entries : List IndexEntry) : Prop where
  apart : entries.IsChain fun a b => ¬ a.path ++ [0x2f] <+: b.path
  paths : isSafeInteger (pathBytes entries) = true
  fits : Fits limit (lastCursor entries)

/-- The entry comes after the last one in front of it. -/
theorem Listing.last_lt
    (h : Listing (front ++ [entry])) {last : IndexEntry} (hlast : last ∈ front.getLast?) :
    comparePaths last.path entry.path < 0 :=
  (List.pairwise_append.1 h.sorted).2.2 last (List.mem_of_getLast? hlast) entry
    (List.mem_singleton.2 rfl)

theorem checkOrder_measuredOf
    (h : Listing (front ++ [entry])) : (measuredOf front).checkOrder entry = .ok () := by
  cases hlast : front.getLast? with
  | none => rw [Preflight.checkOrder, measuredOf, preflightOf, hlast]; rfl
  | some last =>
    have hlt := h.last_lt hlast
    have hguard : (decide (comparePaths last.path entry.path > 0) ||
        (decide (comparePaths last.path entry.path = 0) && decide (last.stage ≥ entry.stage))) =
          false := by
      rw [decide_eq_false (by omega), decide_eq_false (by omega)]
      rfl
    rw [Preflight.checkOrder, measuredOf, preflightOf, hlast]
    show reject _ _ = _
    rw [hguard]
    rfl

theorem decides_checkPrevious (h : Listing (front ++ [entry])) {state : Preflight}
    (hstate : state.previousPath = front.getLast?.map fun last => last.path) :
    Decides (∀ last ∈ front.getLast?, ¬ last.path ++ [0x2f] <+: entry.path)
      (state.checkPrevious entry) () := by
  cases hlast : front.getLast? with
  | none =>
    rw [Preflight.checkPrevious, hstate, hlast]
    exact Decides.of_true fun _ hmem => nomatch hmem
  | some last =>
    have hlt := h.last_lt hlast
    have hguard : decide (comparePaths last.path entry.path ≥ 0) = false :=
      decide_eq_false (by omega)
    rw [Preflight.checkPrevious, hstate, hlast]
    show Decides _ ((reject (decide (comparePaths last.path entry.path ≥ 0)) _).bind fun _ =>
      reject ((last.path ++ [0x2f]).isPrefixOf entry.path) _) ()
    rw [hguard, reject, if_neg Bool.false_ne_true, bind_ok_eq]
    constructor
    · intro hapart
      have hnot : ¬ (last.path ++ [0x2f]).isPrefixOf entry.path = true := fun hbelow =>
        hapart last rfl (List.isPrefixOf_iff_prefix.1 hbelow)
      rw [reject, if_neg hnot]
    · intro hcollide
      have hbelow : (last.path ++ [0x2f]).isPrefixOf entry.path = true := by
        refine List.isPrefixOf_iff_prefix.2 (by_contra fun hnot => hcollide ?_)
        rintro other ⟨⟩
        exact hnot
      rw [reject, if_pos hbelow]
      exact ⟨_, rfl⟩

theorem lastCursor_concat (entries : List IndexEntry) (entry : IndexEntry) :
    lastCursor (entries ++ [entry]) = (lastCursor entries).step (leafEntry entry) := by
  rw [lastCursor, map_append, List.foldl_append]
  rfl

theorem accepted_concat (hlimit : 0 ≤ limit) (entries : List IndexEntry) (entry : IndexEntry) :
    Accepted limit (entries ++ [entry]) ↔
      Accepted limit entries ∧ (∀ last ∈ entries.getLast?, ¬ last.path ++ [0x2f] <+: entry.path) ∧
        isSafeInteger ((pathBytes entries + (encode entry.path).length : Nat) : Int) = true ∧
        Fits limit ((lastCursor entries).step (leafEntry entry)) := by
  rw [← pathBytes_concat, ← lastCursor_concat]
  constructor
  · rintro ⟨hapart, hpaths, hfits⟩
    rw [List.isChain_append] at hapart
    refine ⟨⟨hapart.1, ?_, ?_⟩, fun last hlast => hapart.2.2 last hlast entry rfl, hpaths, hfits⟩
    · rw [pathBytes_concat] at hpaths
      exact safe_of_le (Nat.le_add_right _ _) hpaths
    · rw [lastCursor_concat] at hfits
      have hentered := fits_of_enters hlimit (fits_of_push hlimit hfits)
      exact (fits_closeTimes hlimit _ _).1 hentered
  · rintro ⟨hbefore, hapart, hpaths, hfits⟩
    refine ⟨List.isChain_append.2 ⟨hbefore.apart, List.isChain_singleton _, ?_⟩, hpaths, hfits⟩
    rintro last hlast _ ⟨⟩
    exact hapart last hlast

/-- One entry: the measurement goes on exactly when the entries still pass. -/
theorem decides_step (hlimit : 0 ≤ limit) (h : Listing (front ++ [entry]))
    (hfront : Accepted limit front) :
    Decides (Accepted limit (front ++ [entry])) ((measuredOf front).step limit entry)
      (measuredOf (front ++ [entry])) := by
  have hentry : Listed entry := h.listed entry (List.mem_append_right _ List.mem_cons_self)
  obtain ⟨hdirs, hname⟩ := leafEntry_names hentry
  have hstage : decide (entry.stage > 3) = false := by
    rw [hentry.stage]
    rfl
  have hlast : (entry.path.splitOn 0x2f).getLast? = some (leafEntry entry).name :=
    List.getLast?_eq_some_getLast _
  have hshared : sharedDirectories (measuredOf front).opened (entry.path.splitOn 0x2f).dropLast =
      Forest.common (lastCursor front).opened (leafEntry entry).dirs := sharedDirectories_eq _ _
  obtain ⟨base, hbase⟩ : ∃ base : Preflight, base =
      { Preflight.start with
        previousEntry := some (entry.path, entry.stage)
        previousPath := front.getLast?.map fun last => last.path
        leafEntries := front.length
        totalPathBytes := pathBytes front + (encode entry.path).length } := ⟨_, rfl⟩
  have hstate :
      { measuredOf front with
        previousEntry := some (entry.path, entry.stage)
        totalPathBytes := (measuredOf front).totalPathBytes + (encode entry.path).length } =
          preflightOf base (lastCursor front) := by
    rw [hbase]
    rfl
  rw [accepted_concat hlimit]
  unfold Preflight.step
  dsimp only [bind]
  rw [hstage, checkOrder_measuredOf h, if_neg (not_not.2 hentry.stage), hentry.oid,
    validatePath_eq hentry.path, reject, if_neg Bool.false_ne_true, bind_ok_eq, bind_ok_eq]
  refine (decides_utf8Length hentry.path.wellFormed _).bind
    (fun hnext => safe_of_le (Nat.le_add_left _ _) hnext.2.2.1) fun _ => ?_
  refine (decides_checkedBytes _ _ _).bind (fun hnext => hnext.2.2.1) fun hpaths => ?_
  refine (decides_checkPrevious h rfl).bind (fun hnext => hnext.2.1) fun hapart => ?_
  rw [Bool.not_true, reject, if_neg Bool.false_ne_true, bind_ok_eq, bind_ok_eq, hlast, hstate]
  dsimp only
  rw [hshared, closeTo_eq, bind_ok_eq]
  have hclosed := (fits_closeTimes hlimit ((lastCursor front).opened.length -
    Forest.common (lastCursor front).opened (leafEntry entry).dirs) _).2 hfront.fits
  refine (decides_openDirectories hlimit base (fun name hmem =>
    (hdirs name (List.mem_of_mem_drop hmem)).wellFormed) hclosed).bind
      (fun hnext => fits_of_push hlimit hnext.2.2.2) fun hopened => ?_
  have hleaf := decides_leaf hlimit base hopened hname.wellFormed
    (serializedLeafModeBytes_ok hentry.mode : serializedLeafModeBytes (entry.mode, entry.oid).1 = _)
    entry.path
  have hvalue : measuredOf (front ++ [entry]) = preflightOf
      { base with leafEntries := base.leafEntries + 1, previousPath := some entry.path }
      ((lastCursor front).step (leafEntry entry)) := by
    rw [measuredOf, List.getLast?_concat, lastCursor_concat, pathBytes_concat, length_append,
      hbase]
    rfl
  rw [hvalue]
  exact ⟨fun hnext => hleaf.1 hnext.2.2.2,
    fun hnot => hleaf.2 fun hfits => hnot ⟨hfront, hapart, hpaths, hfits⟩⟩

-- The measurement

theorem accepted_nil (hlimit : 0 ≤ limit) : Accepted limit [] where
  apart := List.isChain_nil
  paths := (by decide : isSafeInteger 0 = true)
  fits :=
    { narrow :=
        { top := hlimit
          below := fun _ hopened => nomatch hopened
          closed := fun _ hnodes => nomatch hnodes }
      octets := (by decide : isSafeInteger 0 = true)
      trees := (by decide : isSafeInteger 1 = true) }

theorem decides_steps (hlimit : 0 ≤ limit) (h : Listing entries) :
    Decides (Accepted limit entries) (entries.foldlM (Preflight.step limit) .start)
      (measuredOf entries) := by
  induction entries using List.reverseRecOn with
  | nil => exact Decides.of_true (accepted_nil hlimit)
  | append_singleton front entry ih =>
    rw [List.foldlM_append]
    refine (ih h.front).bind (fun hnext => ((accepted_concat hlimit _ _).1 hnext).1) fun hfront => ?_
    rw [List.foldlM_cons]
    show Decides _ (((measuredOf front).step limit entry).bind fun state => .ok state) _
    exact (decides_step hlimit h hfront).bind id Decides.of_true

/-- The measures of an index, and of its forest. -/
def statsOf (entries : List IndexEntry) : TreeBuildPreflightStats where
  leafEntries := entries.length
  totalPathBytes := pathBytes entries
  treeObjects := (forestOf entries).closed.length
  serializedTreeBytes := serializedTrees entries
  maxSingleTreeBytes := largestTree (forestOf entries).closed

/-- An index and its trees are within what the measurement lets through. -/
structure Within (limit : Int) (entries : List IndexEntry) : Prop where
  limit_safe : isSafeInteger limit = true
  limit_nonneg : 0 ≤ limit
  paths : isSafeInteger (pathBytes entries) = true
  trees : isSafeInteger (forestOf entries).closed.length = true
  octets : isSafeInteger (serializedTrees entries) = true
  narrow : ∀ nodes ∈ (forestOf entries).closed, nodes.length ≤ limit

theorem directories_lastCursor (entries : List IndexEntry) :
    (lastCursor entries).directories = (forestOf entries).closed.length :=
  (Cursor.directories_finish (lastCursor entries)).symm

theorem fits_lastCursor (hlimit : 0 ≤ limit) (entries : List IndexEntry) :
    Fits limit (lastCursor entries) ↔
      (∀ nodes ∈ (forestOf entries).closed, nodes.length ≤ limit) ∧
        isSafeInteger (serializedTrees entries) = true ∧
        isSafeInteger (forestOf entries).closed.length = true := by
  have hnarrow := Cursor.bounded_finish (narrow_limit hlimit) (lastCursor entries)
  rw [← total_lastCursor, ← directories_lastCursor]
  exact ⟨fun h => ⟨hnarrow.2 h.narrow, h.octets, h.trees⟩, fun h => ⟨hnarrow.1 h.1, h.2.1, h.2.2⟩⟩

theorem closeTo_measuredOf (entries : List IndexEntry) :
    ∃ state, (measuredOf entries).closeTo 0 = .ok state ∧
      state.stack = [directoryOf (forestOf entries).top] ∧
      statsOf entries =
        { leafEntries := state.leafEntries
          totalPathBytes := state.totalPathBytes
          treeObjects := state.treeObjects
          serializedTreeBytes := state.serializedTreeBytes
          maxSingleTreeBytes :=
            max state.maxSingleTreeBytes (directoryOf (forestOf entries).top).serializedBytes } := by
  refine ⟨_, closeTo_eq _ _ 0, ?_, ?_⟩
  · rw [Nat.sub_zero, preflightOf, Cursor.closeTimes_opened]
    rfl
  · have hlargest : largestTree (forestOf entries).closed =
        max (largestTree (Cursor.closeTimes (lastCursor entries).opened.length
          (lastCursor entries)).closed) (treeBytes (forestOf entries).top) := by
      show largestTree (_ ++ [_]) = _
      rw [largestTree, map_append, List.foldl_append]
      rfl
    rw [Nat.sub_zero, statsOf, hlargest, preflightOf, Cursor.total_closeTimes nodeBytes_dir,
      total_lastCursor, Cursor.directories_closeTimes, directories_lastCursor]
    rfl

/-- The measurement accepts an index exactly when no entry is directly followed by one below it,
    and what there is to count stays within the limits. -/
theorem preflightTreeBuild_decides (limit : Int) (h : Listing entries) :
    Decides (entries.IsChain (fun a b => ¬ a.path ++ [0x2f] <+: b.path) ∧ Within limit entries)
      (preflightTreeBuild entries limit) (statsOf entries) := by
  unfold preflightTreeBuild
  by_cases hlimit : isSafeInteger limit = true ∧ 0 ≤ limit
  · have hguard : (!isSafeInteger limit || decide (limit < 0)) = false := by
      rw [hlimit.1, decide_eq_false (not_lt.2 hlimit.2)]
      rfl
    rw [requireLimit, hguard]
    refine (decides_steps hlimit.2 h).bind (fun hnext => ?_) fun haccepted => ?_
    · exact ⟨hnext.1, hnext.2.paths, (fits_lastCursor hlimit.2 entries).2
        ⟨hnext.2.narrow, hnext.2.octets, hnext.2.trees⟩⟩
    · obtain ⟨hnarrow, hoctets, htrees⟩ := (fits_lastCursor hlimit.2 entries).1 haccepted.fits
      obtain ⟨state, hclose, hstack, hstats⟩ := closeTo_measuredOf entries
      dsimp only [bind]
      rw [hclose, bind_ok_eq, hstack, hstats]
      exact Decides.of_true ⟨haccepted.apart,
        ⟨hlimit.1, hlimit.2, haccepted.paths, htrees, hoctets, hnarrow⟩⟩
  · have hguard : (!isSafeInteger limit || decide (limit < 0)) = true := by
      rw [Bool.or_eq_true, Bool.not_eq_true', decide_eq_true_eq]
      by_contra hnot
      rw [not_or, Bool.not_eq_false, not_lt] at hnot
      exact hlimit hnot
    rw [requireLimit, hguard]
    exact ⟨fun hnext => absurd ⟨hnext.2.limit_safe, hnext.2.limit_nonneg⟩ hlimit,
      fun _ => ⟨_, rfl⟩⟩

/-- A tree that is written has the octets of its directory. -/
theorem map_length_treeData (write : BatchWrite) (h : Listing entries) :
    ((forestOf entries).closed.map (treeData write)).map List.length =
      (forestOf entries).closed.map treeBytes := by
  rw [List.map_map]
  refine List.map_congr_left fun nodes hnodes => ?_
  have hbuilt : Built (leavesOf entries) nodes :=
    (map_leaf _).symm ▸ Forest.built (entries.map leafEntry) hnodes
  exact length_treeData write (h.proper hbuilt)

theorem listing_pair : Listing [fileEntry (text "a"), fileEntry (text "b")] where
  listed := by
    intro entry hentry
    rcases mem_pair.1 hentry with rfl | rfl
    · exact ⟨rfl, ⟨by decide, by decide, by decide, by decide, by decide, by decide +kernel⟩,
        Or.inl rfl, by decide⟩
    · exact ⟨rfl, ⟨by decide, by decide, by decide, by decide, by decide, by decide +kernel⟩,
        Or.inl rfl, by decide⟩
  sorted := List.pairwise_pair.2 (by decide +kernel)

end Kompjutr.Ops
