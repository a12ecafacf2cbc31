/-
  Kompjutr.Ops.TreeBuildSound

  The build of trees makes the forest of the index.

  A builder is a cursor in the forest, with each directory that is closed as the tree object it was
  written as (`builderOf`).  Each step of the one is the step of the other, or fails where a write
  does or a size cannot be counted (`Follows`).
-/
import Kompjutr.Lib.ForestSize
import Kompjutr.Objects.TreeRoundTrip
import Kompjutr.Ops.TreeBuildPaths

namespace Kompjutr.Ops

open Objects (Text text ascii isOid TreeEntry RawEntry MODE_TREE serializeEntry serializeTree
  compareTreeEntries oidBytes)
open Index (IndexEntry)
open Forest (Node Cursor Entry Built)
open Utf8 (WellFormed encode octets)
open Fuel (bind_eq_ok foldlM_ok)

variable {oid : Text} {mode bytes times : Nat} {done : List IndexEntry}
  {written : List (List UInt8)} {data : List UInt8}

variable {node : Node Text Blob} {entries : List IndexEntry} {nodes : List (Node Text Blob)}
  {total : Nat} {write : BatchWrite} {cursor : Cursor Text Blob} {entry : IndexEntry}
  {builder next : Builder}

-- Nodes as entries of trees

/-- The id that `write` answers with. -/
def idOf (write : BatchWrite) (data : List UInt8) : Text :=
  match write data with
  | .ok oid => oid
  | .error _ => []

mutual
def treeEntryOf (write : BatchWrite) : Node Text Blob → TreeEntry
  | .leaf name blob => { mode := toString8 blob.1, name, oid := blob.2 }
  | .dir name children =>
    { mode := MODE_TREE, name, oid := idOf write (serializeTree (treeEntriesOf write children)) }

def treeEntriesOf (write : BatchWrite) : List (Node Text Blob) → List TreeEntry
  | [] => []
  | node :: nodes => treeEntryOf write node :: treeEntriesOf write nodes
end

theorem treeEntriesOf_eq (write : BatchWrite) (nodes : List (Node Text Blob)) :
    treeEntriesOf write nodes = nodes.map (treeEntryOf write) := by
  induction nodes with
  | nil => rfl
  | cons node nodes ih => rw [treeEntriesOf, ih, List.map_cons]

/-- The tree object of a directory with the nodes. -/
def treeData (write : BatchWrite) (nodes : List (Node Text Blob)) : List UInt8 :=
  serializeTree (treeEntriesOf write nodes)

/-- The octets that a node takes in the tree object of its directory. -/
def nodeBytes : Node Text Blob → Nat
  | .leaf name _ => serializedEntryBytes 6 (encode name).length
  | .dir name _ => serializedEntryBytes 5 (encode name).length

abbrev treeBytes (nodes : List (Node Text Blob)) : Nat := Forest.size nodeBytes nodes

/-- A node that stands for entries of an index. -/
def Proper : Node Text Blob → Prop
  | .leaf name blob => IsName name ∧ isOid blob.2 = true ∧
      (blob.1 = 0o100644 ∨ blob.1 = 0o100755 ∨ blob.1 = 0o120000 ∨ blob.1 = 0o160000)
  | .dir name _ => IsName name

theorem Proper.name (h : Proper node) : IsName node.name := by
  cases node with
  | leaf name blob => exact h.1
  | dir name children => exact h

/-- The nodes of a forest that is built from a listing. -/
theorem Listing.proper (h : Listing entries) (hbuilt : Built (leavesOf entries) nodes) :
    ∀ node ∈ nodes, Proper node := by
  intro node hnode
  obtain ⟨hfull, -, names, hpart⟩ := hbuilt
  obtain ⟨leaf, hleaf⟩ := List.exists_mem_of_ne_nil _ (hfull node hnode)
  have hlisted : (names ++ leaf.1, leaf.2) ∈ leavesOf entries := by
    refine hpart.subset (List.mem_map.2 ⟨leaf, ?_, rfl⟩)
    obtain ⟨front, back, rfl⟩ := List.append_of_mem hnode
    rw [Forest.leaves_append, Forest.leaves]
    exact List.mem_append_right _ (List.mem_append_left _ hleaf)
  obtain ⟨rest, hpath, -⟩ := Node.leaf_path hleaf
  have hname : IsName node.name := by
    refine h.names _ hlisted _ (List.mem_append_right _ ?_)
    rw [hpath]
    exact List.mem_cons_self
  cases node with
  | dir name children => exact hname
  | leaf name blob =>
    rw [Node.leaves, List.mem_singleton] at hleaf
    subst hleaf
    obtain ⟨entry, hentry, hsame⟩ := List.mem_map.1 hlisted
    obtain rfl : (entry.mode, entry.oid) = blob := congrArg Prod.snd hsame
    exact ⟨hname, (h.listed entry hentry).oid, (h.listed entry hentry).mode⟩

-- The octets of a tree

/-- The entry of a node as it stands in a tree object. -/
def rawOf (write : BatchWrite) : Node Text Blob → RawEntry
  | .leaf name blob =>
    { mode := (toString8 blob.1).map UInt16.toUInt8, name := encode name, oid := oidBytes blob.2 }
  | .dir name children =>
    { mode := ascii "40000", name := encode name
      oid := oidBytes (idOf write (treeData write children)) }

theorem serializeEntry_eq {mode : List UInt8} {name : Text} (hascii : ∀ byte ∈ mode, byte < 0x80)
    (hleading : mode.head? ≠ some 0x30) (hname : WellFormed name) :
    serializeEntry { mode := mode.map UInt8.toUInt16, name, oid } =
      Objects.RawTree.bytes { mode, name := encode name, oid := oidBytes oid } := by
  have hdrop : (mode.map UInt8.toUInt16).dropWhile (· = 0x30) = mode.map UInt8.toUInt16 := by
    cases mode with
    | nil => rfl
    | cons byte mode =>
      have hne : byte.toUInt16 ≠ 0x30 := by
        intro hsame
        refine hleading (congrArg some (UInt8.toNat_inj.1 ?_))
        rw [← UInt8.toNat_toUInt16, hsame]
        rfl
      rw [List.map_cons, List.dropWhile_cons_of_neg (by simpa using hne)]
  have hspace : ∀ byte ∈ mode ++ [0x20], byte < 0x80 := by
    rw [List.forall_mem_append, List.forall_mem_singleton]
    exact ⟨hascii, by decide⟩
  have hfront : mode.map UInt8.toUInt16 ++ 0x20 :: name ++ [0] =
      (mode ++ [0x20]).map UInt8.toUInt16 ++ (name ++ [0]) := by
    rw [List.map_append, List.append_assoc, List.append_assoc]
    rfl
  have hnul : encode [0] = [0] := by decide
  rw [serializeEntry]
  dsimp only
  rw [hdrop, hfront, Utf8.encode_append (Utf8.wellFormed_ascii hspace), Utf8.encode_ascii hspace,
    Utf8.encode_append hname, hnul, Objects.RawTree.bytes]
  simp

/-- The mode of a leaf, in octets. -/
theorem leaf_mode (h : mode = 0o100644 ∨ mode = 0o100755 ∨ mode = 0o120000 ∨ mode = 0o160000) :
    ∃ octets : List UInt8, toString8 mode = octets.map UInt8.toUInt16 ∧
      (toString8 mode).map UInt16.toUInt8 = octets ∧ Objects.CanonicalMode octets ∧
      octets.length = 6 ∧ octets ≠ ascii "40000" ∧ Objects.isTreeMode (toString8 mode) = false := by
  rcases h with rfl | rfl | rfl | rfl
  · exact ⟨ascii "100644", by decide +kernel, by decide +kernel,
      ⟨by decide, by decide, by decide +kernel, by decide⟩, by decide, by decide,
        by decide +kernel⟩
  · exact ⟨ascii "100755", by decide +kernel, by decide +kernel,
      ⟨by decide, by decide, by decide +kernel, by decide⟩, by decide, by decide,
        by decide +kernel⟩
  · exact ⟨ascii "120000", by decide +kernel, by decide +kernel,
      ⟨by decide, by decide, by decide +kernel, by decide⟩, by decide, by decide,
        by decide +kernel⟩
  · exact ⟨ascii "160000", by decide +kernel, by decide +kernel,
      ⟨by decide, by decide, by decide +kernel, by decide⟩, by decide, by decide,
        by decide +kernel⟩

theorem canonicalMode_tree : Objects.CanonicalMode (ascii "40000") :=
  ⟨by decide, by decide, by decide +kernel, by decide⟩

theorem serializeEntry_treeEntryOf (write : BatchWrite) (h : Proper node) :
    serializeEntry (treeEntryOf write node) = Objects.RawTree.bytes (rawOf write node) := by
  cases node with
  | leaf name blob =>
    obtain ⟨hname, -, hmode⟩ := h
    obtain ⟨mode, hunits, hback, hcanonical, -⟩ := leaf_mode hmode
    rw [treeEntryOf, rawOf, hback, hunits]
    exact serializeEntry_eq hcanonical.ascii hcanonical.leading hname.wellFormed
  | dir name children =>
    rw [treeEntryOf, rawOf]
    exact serializeEntry_eq canonicalMode_tree.ascii canonicalMode_tree.leading h.wellFormed

theorem length_oidBytes (oid : Text) : (oidBytes oid).length = 20 := by
  rw [oidBytes, List.length_map, List.length_range]

theorem length_serializeEntry (write : BatchWrite) (h : Proper node) :
    (serializeEntry (treeEntryOf write node)).length = nodeBytes node := by
  rw [serializeEntry_treeEntryOf write h]
  cases node with
  | leaf name blob =>
    obtain ⟨mode, -, hback, -, hlength, -⟩ := leaf_mode h.2.2
    rw [rawOf, hback, nodeBytes, serializedEntryBytes, Objects.RawTree.bytes]
    simp only [List.length_append, List.length_cons, length_oidBytes, hlength]
    omega
  | dir name children =>
    have hlength : (ascii "40000").length = 5 := by decide
    rw [rawOf, nodeBytes, serializedEntryBytes, Objects.RawTree.bytes]
    simp only [List.length_append, List.length_cons, length_oidBytes, hlength]
    omega

/-- The builder counts the octets that are written. -/
theorem length_treeData (write : BatchWrite)
    (h : ∀ node ∈ nodes, Proper node) : (treeData write nodes).length = treeBytes nodes := by
  rw [treeData, serializeTree, treeEntriesOf_eq,
    ((List.mergeSort_perm _ _).flatMap_right serializeEntry).length_eq, List.flatMap_map,
    List.length_flatMap, treeBytes, Forest.size]
  exact congrArg List.sum (List.map_congr_left fun node hnode =>
    length_serializeEntry write (h node hnode))

-- The builder as a cursor

/-- A directory that is open, with the nodes it has so far. -/
def openOf (write : BatchWrite) (name : Text) (nodes : List (Node Text Blob)) : OpenDirectory where
  name
  entries := treeEntriesOf write nodes
  serializedBytes := treeBytes nodes

def stackOf (write : BatchWrite) (top : List (Node Text Blob)) :
    List (Text × List (Node Text Blob)) → List OpenDirectory
  | [] => [openOf write [] top]
  | (name, nodes) :: below => openOf write name top :: stackOf write nodes below

/-- The builder at a cursor. -/
def builderOf (write : BatchWrite) (cursor : Cursor Text Blob) : Builder where
  stack := stackOf write cursor.top cursor.below
  opened := cursor.opened
  written := cursor.closed.map (treeData write)

/-- A step comes to the value, unless a write fails or the sizes at the cursor cannot be counted. -/
def Follows {α : Type} (write : BatchWrite) (cursor : Cursor Text Blob)
    (result : Except GitError α) (value : α) : Prop :=
  result = .ok value ∨ ∃ e, result = .error e ∧
    ((∃ data, write data = .error e) ∨ ¬ isSafeInteger (cursor.total nodeBytes) = true)

theorem Follows.bind {α β : Type} {write : BatchWrite} {cursor next : Cursor Text Blob}
    {result : Except GitError α} {value : α} {f : α → Except GitError β} {last : β}
    (h : Follows write cursor result value)
    (hle : cursor.total nodeBytes ≤ next.total nodeBytes) (hf : Follows write next (f value) last) :
    Follows write next (result.bind f) last := by
  rcases h with rfl | ⟨e, rfl, hreason⟩
  · exact hf
  · refine Or.inr ⟨e, rfl, hreason.imp_right fun hnot => ?_⟩
    rw [isSafeInteger_iff] at hnot ⊢
    unfold maxSafeInteger at hnot ⊢
    omega

theorem length_opened (cursor : Cursor Text Blob) : cursor.opened.length = cursor.below.length := by
  rw [Cursor.opened, List.length_reverse, List.length_map]

theorem sharedDirectories_eq (opened segments : List Text) :
    sharedDirectories opened segments = Forest.common opened segments := by
  induction opened generalizing segments with
  | nil => cases segments <;> rfl
  | cons name opened ih =>
    cases segments with
    | nil => rfl
    | cons segment segments => rw [sharedDirectories, Forest.common, ih]

theorem nodeBytes_dir (name : Text) (children : List (Node Text Blob)) :
    nodeBytes (.dir name children) = nodeBytes (.dir name []) := rfl

theorem checkedBytes_ok (label : String) (h : isSafeInteger ((total + bytes : Nat) : Int) = true) :
    checkedBytes total bytes label = .ok (total + bytes) := by
  rw [isSafeInteger_iff] at h
  have hbytes : isSafeInteger (bytes : Int) = true := by
    rw [isSafeInteger_iff]
    unfold maxSafeInteger at h ⊢
    omega
  have hroom : ¬ (bytes : Int) > maxSafeInteger - total := by
    unfold maxSafeInteger at h ⊢
    omega
  rw [checkedBytes, hbytes, decide_eq_false hroom]
  rfl

theorem checkedBytes_error (label : String)
    (h : ¬ isSafeInteger ((total + bytes : Nat) : Int) = true) :
    ∃ e, checkedBytes total bytes label = .error e := by
  have hguard : (!isSafeInteger (bytes : Int) || decide ((bytes : Int) > maxSafeInteger - total)) =
      true := by
    rw [isSafeInteger_iff] at h
    rw [Bool.or_eq_true, decide_eq_true_eq]
    right
    unfold maxSafeInteger at h ⊢
    omega
  rw [checkedBytes, hguard]
  exact ⟨_, rfl⟩

theorem bind_ok_eq {α β : Type} (value : α) (f : α → Except GitError β) :
    (Except.ok value).bind f = f value := rfl

/-- A name and its size are counted, unless the size at the cursor is too large. -/
theorem follows_count {α : Type} {name : Text}
    (hname : WellFormed name) {modeBytes : Nat} (label label' : String)
    (hle : total + serializedEntryBytes modeBytes (encode name).length ≤ cursor.total nodeBytes)
    {f : Nat → Except GitError α} {value : α}
    (hf : f (total + serializedEntryBytes modeBytes (encode name).length) = .ok value) :
    Follows write cursor
      ((utf8Length name label).bind fun nameBytes =>
        (checkedBytes total (serializedEntryBytes modeBytes nameBytes) label').bind f) value := by
  have hover : ∀ {n : Nat}, n ≤ total + serializedEntryBytes modeBytes (encode name).length →
      ¬ isSafeInteger (n : Int) = true →
      ¬ isSafeInteger (cursor.total nodeBytes : Int) = true := by
    intro n hn hnot
    rw [isSafeInteger_iff] at hnot ⊢
    unfold maxSafeInteger at hnot ⊢
    omega
  rw [utf8Length_eq label hname, countBytes, Nat.zero_add]
  by_cases hlength : isSafeInteger ((encode name).length : Int) = true
  · rw [if_pos hlength]
    rw [bind_ok_eq]
    by_cases hsafe : isSafeInteger
        ((total + serializedEntryBytes modeBytes (encode name).length : Nat) : Int) = true
    · rw [checkedBytes_ok label' hsafe]
      exact Or.inl hf
    · obtain ⟨e, he⟩ := checkedBytes_error label' hsafe
      rw [he]
      exact Or.inr ⟨e, rfl, Or.inr (hover (le_refl _) hsafe)⟩
  · rw [if_neg hlength]
    refine Or.inr ⟨_, rfl, Or.inr (hover ?_ hlength)⟩
    rw [serializedEntryBytes]
    omega

theorem follows_writeTree {α : Type} (hproper : ∀ node ∈ nodes, Proper node)
    {f : Text × List UInt8 → Except GitError α} {value : α}
    (hf : write (treeData write nodes) = .ok (idOf write (treeData write nodes)) →
      Follows write cursor (f (idOf write (treeData write nodes), treeData write nodes)) value) :
    Follows write cursor
      ((writeTree write (treeEntriesOf write nodes) (treeBytes nodes)).bind f) value := by
  have hlength := length_treeData write hproper
  have hsame : (decide ((treeData write nodes).length ≠ treeBytes nodes)) = false :=
    decide_eq_false (not_not.2 hlength)
  show Follows write cursor (Except.bind ((reject (decide ((treeData write nodes).length ≠
    treeBytes nodes)) _).bind fun _ => (write (treeData write nodes)).bind fun oid =>
      .ok (oid, treeData write nodes)) f) value
  rw [hsame]
  show Follows write cursor (Except.bind ((write (treeData write nodes)).bind fun oid =>
    .ok (oid, treeData write nodes)) f) value
  cases hwrite : write (treeData write nodes) with
  | error e => exact Or.inr ⟨e, rfl, Or.inl ⟨_, hwrite⟩⟩
  | ok oid =>
    have hid : idOf write (treeData write nodes) = oid := by rw [idOf, hwrite]
    rw [hid] at hf
    exact hf hwrite

/-- The name of the innermost directory that is open, and the directories around it. -/
def innerName : List (Text × List (Node Text Blob)) → Text
  | [] => []
  | (name, _) :: _ => name

def around (write : BatchWrite) : List (Text × List (Node Text Blob)) → List OpenDirectory
  | [] => []
  | (_, nodes) :: below => stackOf write nodes below

theorem stackOf_eq (write : BatchWrite) (top : List (Node Text Blob))
    (below : List (Text × List (Node Text Blob))) :
    stackOf write top below = openOf write (innerName below) top :: around write below := by
  cases below <;> rfl

theorem treeEntriesOf_concat (write : BatchWrite) (nodes : List (Node Text Blob))
    (node : Node Text Blob) :
    treeEntriesOf write (nodes ++ [node]) = treeEntriesOf write nodes ++ [treeEntryOf write node] := by
  rw [treeEntriesOf_eq, treeEntriesOf_eq, List.map_append]
  rfl

theorem openOf_concat (write : BatchWrite) (name : Text) (nodes : List (Node Text Blob))
    (node : Node Text Blob) :
    openOf write name (nodes ++ [node]) =
      { name
        entries := treeEntriesOf write nodes ++ [treeEntryOf write node]
        serializedBytes := treeBytes nodes + nodeBytes node } := by
  rw [openOf, treeEntriesOf_concat, treeBytes, Forest.size_concat]

theorem builderOf_eq (write : BatchWrite) (cursor : Cursor Text Blob) :
    builderOf write cursor =
      { stack := openOf write (innerName cursor.below) cursor.top :: around write cursor.below
        opened := cursor.opened
        written := cursor.closed.map (treeData write) } := by
  rw [builderOf, stackOf_eq]

theorem opened_close (cursor : Cursor Text Blob) : cursor.close.opened = cursor.opened.dropLast := by
  have htimes := Cursor.opened_closeTimes 1 cursor
  rw [← List.dropLast_eq_take] at htimes
  exact htimes

theorem follows_closeTop {write : BatchWrite} {cursor : Cursor Text Blob}
    (hproper : ∀ node ∈ cursor.top, Proper node) (hnames : ∀ name ∈ cursor.opened, IsName name)
    (hbelow : cursor.below ≠ []) :
    Follows write cursor ((builderOf write cursor).closeTop write)
      (builderOf write cursor.close) := by
  obtain ⟨⟨name, nodes⟩, below, hcons⟩ := List.exists_cons_of_ne_nil hbelow
  have hname : IsName name := by
    refine hnames name (List.mem_reverse.2 ?_)
    rw [hcons]
    exact List.mem_cons_self
  have hopened := opened_close cursor
  have htotal := Cursor.total_close nodeBytes_dir cursor
  have hsize := @Cursor.size_top_le _ _ nodeBytes cursor.close
  rw [htotal] at hsize
  rw [Cursor.close_cons hcons] at hopened hsize ⊢
  rw [Forest.size_concat] at hsize
  have hstack : (builderOf write cursor).stack =
      openOf write name cursor.top :: openOf write (innerName below) nodes :: around write below := by
    rw [builderOf, hcons]
    show stackOf write cursor.top ((name, nodes) :: below) = _
    rw [stackOf, stackOf_eq]
  unfold Builder.closeTop
  rw [hstack]
  refine follows_writeTree hproper fun _ => ?_
  refine follows_count hname.wellFormed _ _ hsize ?_
  refine congrArg Except.ok (Eq.symm ?_)
  rw [builderOf_eq write { top := _, below := _, closed := _ }]
  dsimp only
  rw [openOf_concat, List.map_append, hopened]
  rfl

theorem Builder.follows_closeTimes {write : BatchWrite} {cursor : Cursor Text Blob} {times : Nat}
    (htimes : times ≤ cursor.below.length)
    (hproper : ∀ taken < times, ∀ node ∈ (Cursor.closeTimes taken cursor).top, Proper node)
    (hnames : ∀ name ∈ cursor.opened, IsName name) :
    Follows write cursor (Builder.closeTimes write times (builderOf write cursor))
      (builderOf write (Cursor.closeTimes times cursor)) := by
  induction times generalizing cursor with
  | zero => exact Or.inl rfl
  | succ times ih =>
    have hne : cursor.below ≠ [] := List.ne_nil_of_length_pos (by omega)
    have hfirst := @follows_closeTop write _ (hproper 0 (by omega)) hnames hne
    have hlength : cursor.close.below.length = cursor.below.length - 1 := by
      have hdrop := Cursor.below_closeTimes 1 cursor
      rw [Cursor.closeTimes, Cursor.closeTimes] at hdrop
      rw [hdrop, List.length_drop]
    have hnames' : ∀ name ∈ cursor.close.opened, IsName name := by
      intro name hmem
      rw [opened_close] at hmem
      exact hnames name (List.mem_of_mem_dropLast hmem)
    have hrest := @ih cursor.close (by omega)
      (fun taken htaken => hproper (taken + 1) (by omega)) hnames'
    have htotal := Cursor.total_close nodeBytes_dir cursor
    have hboth := hfirst.bind (le_of_eq htotal.symm) hrest
    rcases hboth with hok | ⟨e, he, hreason⟩
    · exact Or.inl hok
    · exact Or.inr ⟨e, he, htotal ▸ hreason⟩

theorem builderOf_openDirectory (write : BatchWrite) (cursor : Cursor Text Blob) (name : Text) :
    (builderOf write cursor).openDirectory name = builderOf write (cursor.enter name) := by
  rw [Builder.openDirectory, builderOf, builderOf, Cursor.opened_enter, Cursor.enter]
  rfl

theorem builderOf_openDirectories (write : BatchWrite) (cursor : Cursor Text Blob)
    (names : List Text) :
    names.foldl Builder.openDirectory (builderOf write cursor) =
      builderOf write (names.foldl Cursor.enter cursor) := by
  induction names generalizing cursor with
  | nil => rfl
  | cons name names ih => rw [List.foldl_cons, builderOf_openDirectory, ih, List.foldl_cons]

theorem serializedLeafModeBytes_ok (h : mode = 0o100644 ∨ mode = 0o100755 ∨
    mode = 0o120000 ∨ mode = 0o160000) : serializedLeafModeBytes mode = .ok 6 := by
  refine if_neg ?_
  rintro ⟨h1, h2, h3, h4⟩
  rcases h with h | h | h | h
  · exact h1 h
  · exact h2 h
  · exact h3 h
  · exact h4 h

theorem Builder.follows_addLeaf {name : Text} (hentry : Listed entry) (hname : IsName name) :
    Follows write (cursor.push name (entry.mode, entry.oid))
      ((builderOf write cursor).addLeaf (some name) entry)
      (builderOf write (cursor.push name (entry.mode, entry.oid))) := by
  have hsize := @Cursor.size_top_le _ _ nodeBytes
    (cursor.push name (entry.mode, entry.oid))
  rw [Cursor.push, Forest.size_concat] at hsize
  unfold Builder.addLeaf
  rw [builderOf]
  dsimp only
  rw [stackOf_eq, serializedLeafModeBytes_ok hentry.mode, hentry.oid]
  dsimp only [bind]
  rw [bind_ok_eq, Bool.not_true, reject, if_neg Bool.false_ne_true, bind_ok_eq, bind_ok_eq]
  refine follows_count hname.wellFormed _ _ hsize ?_
  refine congrArg Except.ok (Eq.symm ?_)
  rw [builderOf_eq, Cursor.push]
  dsimp only
  rw [openOf_concat]
  rfl

-- The build

/-- The listing that a cursor has gone through. -/
structure Reached (done : List IndexEntry) (cursor : Cursor Text Blob) : Prop
    extends Cursor.Ready cursor where
  gathered : cursor.gathered = leavesOf done
  names : ∀ name ∈ cursor.opened, IsName name

theorem reached_start : Reached [] .start where
  toReady := Cursor.ready_start
  gathered := rfl
  names := fun _ hname => nomatch hname

theorem leafEntry_names (h : Listed entry) :
    (∀ name ∈ (leafEntry entry).dirs, IsName name) ∧ IsName (leafEntry entry).name :=
  ⟨fun _ hname => isName_of_mem h.path (List.mem_of_mem_dropLast hname),
    isName_of_mem h.path (List.getLast_mem _)⟩

theorem Reached.step {done : List IndexEntry} {cursor : Cursor Text Blob}
    (h : Reached done cursor) {entry : IndexEntry} (hentry : Listed entry) :
    Reached (done ++ [entry]) (cursor.step (leafEntry entry)) where
  toReady := h.toReady.step _
  gathered := by
    rw [Cursor.gathered_step, h.gathered, leafEntry_leaf, leavesOf, leavesOf, List.map_append]
    rfl
  names := by
    rw [Cursor.opened_step]
    exact (leafEntry_names hentry).1

/-- The nodes that are there while directories are closed. -/
theorem Reached.proper (h : Reached done cursor) (hdone : Listing done)
    (htimes : times ≤ cursor.below.length) :
    ∀ node ∈ (Cursor.closeTimes times cursor).top, Proper node := by
  have hbuilt := (h.toReady.closeTimes htimes).1.built
  rw [Cursor.gathered_closeTimes, h.gathered] at hbuilt
  exact hdone.proper hbuilt

theorem Builder.follows_step {write : BatchWrite} {done : List IndexEntry}
    {cursor : Cursor Text Blob} (h : Reached done cursor) (hdone : Listing done)
    {entry : IndexEntry} (hentry : Listed entry) :
    Follows write (cursor.step (leafEntry entry)) ((builderOf write cursor).step write entry)
      (builderOf write (cursor.step (leafEntry entry))) := by
  have hle := Forest.common_le_left cursor.opened (leafEntry entry).dirs
  have hlength := length_opened cursor
  have htimes : cursor.opened.length - Forest.common cursor.opened (leafEntry entry).dirs ≤
      cursor.below.length := by omega
  have hlast : (entry.path.splitOn 0x2f).getLast? = some (leafEntry entry).name :=
    List.getLast?_eq_some_getLast _
  have hshared : sharedDirectories (builderOf write cursor).opened
      (entry.path.splitOn 0x2f).dropLast =
        Forest.common cursor.opened (leafEntry entry).dirs := sharedDirectories_eq _ _
  unfold Builder.step
  rw [if_neg (not_not.2 hentry.stage), validatePath_eq hentry.path]
  dsimp only [bind]
  rw [bind_ok_eq, hshared, hlast]
  have hclosed := @Builder.follows_closeTimes write _ _ htimes
    (fun taken htaken => h.proper hdone (by omega)) h.names
  refine hclosed.bind (Cursor.total_le_step nodeBytes_dir cursor _) ?_
  rw [show (entry.path.splitOn 0x2f).dropLast = (leafEntry entry).dirs from rfl,
    builderOf_openDirectories]
  exact Builder.follows_addLeaf hentry (leafEntry_names hentry).2

theorem Listing.front {front back : List IndexEntry} (h : Listing (front ++ back)) :
    Listing front where
  listed := fun entry hentry => h.listed entry (List.mem_append_left _ hentry)
  sorted := (List.pairwise_append.1 h.sorted).1

theorem Builder.follows_steps {write : BatchWrite} {done : List IndexEntry}
    {cursor : Cursor Text Blob} (h : Reached done cursor) {entries : List IndexEntry}
    (hall : Listing (done ++ entries)) :
    Follows write ((entries.map leafEntry).foldl Cursor.step cursor)
      (entries.foldlM (Builder.step write) (builderOf write cursor))
      (builderOf write ((entries.map leafEntry).foldl Cursor.step cursor)) := by
  induction entries generalizing done cursor with
  | nil => exact Or.inl rfl
  | cons entry entries ih =>
    have hentry : Listed entry :=
      hall.listed entry (List.mem_append_right _ List.mem_cons_self)
    have hfirst := @Builder.follows_step write _ _ h hall.front _ hentry
    have hrest := ih (h.step hentry) (by rwa [← List.append_cons])
    rw [List.foldlM_cons, List.map_cons, List.foldl_cons]
    exact hfirst.bind (Cursor.total_le_steps nodeBytes_dir _ _) hrest

theorem Reached.steps (h : Reached done cursor) (hentries : ∀ entry ∈ entries, Listed entry) :
    Reached (done ++ entries) ((entries.map leafEntry).foldl Cursor.step cursor) := by
  induction entries generalizing done cursor with
  | nil => rwa [List.append_nil]
  | cons entry entries ih =>
    rw [List.forall_mem_cons] at hentries
    have hrest := ih (h.step hentries.1) hentries.2
    rwa [← List.append_cons] at hrest

/-- The forest of an index. -/
def forestOf (entries : List IndexEntry) : Cursor Text Blob := Forest.build (entries.map leafEntry)

/-- The cursor behind the last entry. -/
def lastCursor (entries : List IndexEntry) : Cursor Text Blob :=
  (entries.map leafEntry).foldl Cursor.step .start

theorem Listing.reached (h : Listing entries) : Reached entries (lastCursor entries) :=
  reached_start.steps h.listed

/-- The build writes the directories of the forest, the root last. -/
theorem buildTreeInBatch_follows (write : BatchWrite) (h : Listing entries) :
    Follows write (lastCursor entries) (buildTreeInBatch write entries)
      (idOf write (treeData write (forestOf entries).top),
        (forestOf entries).closed.map (treeData write)) := by
  have hreached := h.reached
  have hlength := length_opened (lastCursor entries)
  have hsteps := @Builder.follows_steps write _ _ reached_start _
    (by rwa [List.nil_append] : Listing ([] ++ entries))
  have hclosed := @Builder.follows_closeTimes write _ _ (le_of_eq hlength)
    (fun taken htaken => hreached.proper h (by omega)) hreached.names
  have hbelow := Cursor.closeTimes_opened (lastCursor entries)
  have htop := hreached.proper h (le_of_eq hlength)
  unfold buildTreeInBatch
  refine hsteps.bind (le_refl _) (hclosed.bind (le_refl _) ?_)
  rw [builderOf, hbelow]
  refine follows_writeTree htop fun _ => Or.inl (congrArg Except.ok (Prod.ext ?_ ?_))
  · rfl
  · show ((Cursor.closeTimes _ _).closed.map (treeData write)) ++ [treeData write _] =
      ((Cursor.closeTimes _ _).closed ++ [(Cursor.closeTimes _ _).top]).map (treeData write)
    rw [List.map_append]
    rfl

-- What is written

/-- The batch took each of the objects. -/
def Stored (write : BatchWrite) (written : List (List UInt8)) : Prop :=
  ∀ data ∈ written, ∃ oid, write data = .ok oid

theorem Stored.concat (h : Stored write written) (hdata : ∃ oid, write data = .ok oid) :
    Stored write (written ++ [data]) :=
  List.forall_mem_append.2 ⟨h, List.forall_mem_singleton.2 hdata⟩

theorem writeTree_ok {entries : List TreeEntry} {serializedBytes : Nat}
    (h : writeTree write entries serializedBytes = .ok (oid, data)) :
    write data = .ok oid := by
  obtain ⟨-, -, h⟩ := bind_eq_ok.1 h
  obtain ⟨oid', hwrite, h⟩ := bind_eq_ok.1 h
  cases h
  exact hwrite

theorem Builder.stored_closeTop
    (hstored : Stored write builder.written) (h : builder.closeTop write = .ok next) :
    Stored write next.written := by
  unfold Builder.closeTop at h
  split at h
  · obtain ⟨⟨oid, data⟩, hwrite, h⟩ := bind_eq_ok.1 h
    obtain ⟨nameBytes, -, h⟩ := bind_eq_ok.1 h
    obtain ⟨serializedBytes, -, h⟩ := bind_eq_ok.1 h
    cases h
    exact hstored.concat ⟨oid, writeTree_ok hwrite⟩
  · cases h

theorem Builder.stored_closeTimes
    (hstored : Stored write builder.written) (h : Builder.closeTimes write times builder = .ok next) :
    Stored write next.written := by
  induction times generalizing builder with
  | zero =>
    cases h
    exact hstored
  | succ times ih =>
    obtain ⟨closed, hclose, h⟩ := bind_eq_ok.1 h
    exact ih (Builder.stored_closeTop hstored hclose) h

theorem Builder.written_addLeaf {name : Option Text}
    (h : builder.addLeaf name entry = .ok next) : next.written = builder.written := by
  unfold Builder.addLeaf at h
  split at h
  · obtain ⟨-, -, h⟩ := bind_eq_ok.1 h
    obtain ⟨-, -, h⟩ := bind_eq_ok.1 h
    obtain ⟨modeBytes, -, h⟩ := bind_eq_ok.1 h
    obtain ⟨nameBytes, -, h⟩ := bind_eq_ok.1 h
    obtain ⟨serializedBytes, -, h⟩ := bind_eq_ok.1 h
    cases h
    rfl
  · cases h

theorem Builder.stored_step
    (hstored : Stored write builder.written) (h : builder.step write entry = .ok next) :
    Stored write next.written := by
  have hopen : ∀ (names : List Text) (builder : Builder),
      (names.foldl Builder.openDirectory builder).written = builder.written := by
    intro names
    induction names with
    | nil => exact fun _ => rfl
    | cons name names ih => exact fun builder => ih (builder.openDirectory name)
  unfold Builder.step at h
  split at h
  · cases h
    exact hstored
  · obtain ⟨segments, -, h⟩ := bind_eq_ok.1 h
    obtain ⟨closed, hclose, h⟩ := bind_eq_ok.1 h
    rw [Builder.written_addLeaf h, hopen]
    exact Builder.stored_closeTimes hstored hclose

theorem buildTreeInBatch_stored {root : Text}
    (h : buildTreeInBatch write entries = .ok (root, written)) :
    Stored write written := by
  obtain ⟨builder, hsteps, h⟩ := bind_eq_ok.1 h
  obtain ⟨closed, hclose, h⟩ := bind_eq_ok.1 h
  have hstored : Stored write builder.written :=
    foldlM_ok (fun builder => Stored write builder.written)
      (fun _ _ _ _ hb hstep => Builder.stored_step hb hstep)
      (fun _ hdata => absurd hdata List.not_mem_nil) hsteps
  have hclosed := Builder.stored_closeTimes hstored hclose
  split at h
  · cases h
  · obtain ⟨⟨oid, data⟩, hwrite, h⟩ := bind_eq_ok.1 h
    cases h
    exact hclosed.concat ⟨_, writeTree_ok hwrite⟩

end Kompjutr.Ops
