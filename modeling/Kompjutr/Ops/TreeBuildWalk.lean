/-
  Kompjutr.Ops.TreeBuildWalk

  A tree that was built is walked back to the entries of its index.

  The walk goes through the directories of the forest, each read back from its object, where the
  entries stand in the order of the nodes (`parseTreeStream_treeData`).
-/
import Kompjutr.Ops.TreeBuildSound

namespace Kompjutr.Ops

open Objects (Text text ascii isOid TreeEntry RawEntry ParsedTreeEntry MODE_TREE isTreeMode
  serializeEntry serializeTree compareTreeEntries oidBytes parseTreeStream parsedFrom Canonical)
open Objects.RawTree (IsTree IsEntry)
open Bytes (Uint8Array toHex)
open Index (IndexEntry)
open Forest (Node Cursor Entry Built)
open Utf8 (WellFormed encode octets)
open List (map_cons map_map mem_map mem_singleton pairwise_map)

variable {name : Text}

variable {nodes : List (Node Text Blob)} {node : Node Text Blob}

-- The walk

/-- A `WalkTreeEntry`. -/
structure WalkTreeEntry where
  path : Text
  mode : Text
  oid : Text
  deriving DecidableEq

/-- The entries of a tree, with what is below its subtrees in the place of them. -/
def walkEntries (walk : Text → Option (Except GitError (List WalkTreeEntry))) :
    List ParsedTreeEntry → Option (Except GitError (List WalkTreeEntry))
  | [] => some (.ok [])
  | parsed :: rest =>
    let name := Utf8.decode parsed.nameBytes
    let here :=
      if isTreeMode parsed.entry.mode then
        (walk parsed.entry.oid).map (Except.map (List.map fun inner =>
          { inner with path := name ++ 0x2f :: inner.path }))
      else some (.ok [{ path := name, mode := parsed.entry.mode, oid := parsed.entry.oid }])
    match here with
    | none => none
    | some (.error e) => some (.error e)
    | some (.ok first) => (walkEntries walk rest).map (Except.map (first ++ ·))

/-- The rows of `WALK_TREE_SQL` below a tree, apart from its limits on sizes: the entries that are
    no trees, with the octets of their names, in the order of the objects. -/
def walkTree (read : Text → Option Uint8Array) :
    (fuel : Nat) → (treeOid : Text) → Option (Except GitError (List WalkTreeEntry))
  | 0, _ => none
  | fuel + 1, treeOid =>
    match read treeOid with
    | none => some (.error { code := "ENOENT", message := "object not found" })
    | some data =>
      match parseTreeStream [data.bytes] with
      | .error e => some (.error e)
      | .ok parsed => walkEntries (walkTree read fuel) parsed

/-- What the walk yields for an entry of the index. -/
def walkedEntry (entry : IndexEntry) : WalkTreeEntry where
  path := entry.path
  mode := toString8 entry.mode
  oid := entry.oid

-- The trees that are written

theorem compareTreeEntries_treeEntryOf (write : BatchWrite) {a b : Node Text Blob} (ha : Proper a)
    (hb : Proper b) (h : Forest.sortKey octets 0x2f a < Forest.sortKey octets 0x2f b) :
    compareTreeEntries (treeEntryOf write a) (treeEntryOf write b) < 0 := by
  have hkey : ∀ {node : Node Text Blob}, Proper node →
      octets (if isTreeMode (treeEntryOf write node).mode then
        (treeEntryOf write node).name ++ [0x2f] else (treeEntryOf write node).name) =
          Forest.sortKey octets 0x2f node := by
    intro node hnode
    cases node with
    | leaf name blob =>
      obtain ⟨mode, -, -, -, -, -, htree⟩ := leaf_mode hnode.2.2
      rw [treeEntryOf]
      dsimp only
      rw [htree, if_neg Bool.false_ne_true]
      rfl
    | dir name children =>
      rw [treeEntryOf]
      dsimp only
      rw [if_pos (by decide), octets_cut name [] (by decide) (by decide)]
      rfl
  rw [compareTreeEntries, Streams.comparePaths_lt, hkey ha, hkey hb]
  exact h

/-- The order of the nodes is that of the tree object. -/
theorem treeData_eq (write : BatchWrite) (hproper : ∀ node ∈ nodes, Proper node)
    (hsorted : nodes.Pairwise fun a b =>
      Forest.sortKey octets 0x2f a < Forest.sortKey octets 0x2f b) :
    treeData write nodes = (nodes.map (rawOf write)).flatMap Objects.RawTree.bytes := by
  have horder : (nodes.map (treeEntryOf write)).Pairwise fun a b =>
      decide (compareTreeEntries a b ≤ 0) = true := by
    refine pairwise_map.2 (hsorted.imp_of_mem fun ha hb hlt => decide_eq_true ?_)
    exact le_of_lt (compareTreeEntries_treeEntryOf write (hproper _ ha) (hproper _ hb) hlt)
  rw [treeData, serializeTree, treeEntriesOf_eq, List.mergeSort_of_pairwise horder,
    List.flatMap_map, List.flatMap_map]
  exact List.flatMap_congr fun node hnode => serializeEntry_treeEntryOf write (hproper node hnode)

theorem rawOf_name (write : BatchWrite) (node : Node Text Blob) :
    (rawOf write node).name = encode node.name := by
  cases node <;> rfl

theorem rawOf_mode (write : BatchWrite) (h : Proper node) :
    Objects.CanonicalMode (rawOf write node).mode := by
  cases node with
  | leaf name blob =>
    obtain ⟨mode, -, hback, hcanonical, -⟩ := leaf_mode h.2.2
    rw [rawOf, hback]
    exact hcanonical
  | dir name children => exact canonicalMode_tree

theorem rawOf_oid (write : BatchWrite) (node : Node Text Blob) :
    (rawOf write node).oid.length = 20 := by
  cases node <;> exact length_oidBytes _

theorem not_mem_encode {name : Text} (h : WellFormed name) {unit : UInt16} {byte : UInt8}
    (hsame : byte.toNat = unit.toNat) (hascii : unit.toNat < 0x80) (hnot : unit ∉ name) :
    byte ∉ encode name := by
  intro hmem
  refine hnot (mem_octets h hascii ?_)
  rw [← hsame]
  exact List.mem_map_of_mem hmem

theorem rawOf_isEntry (write : BatchWrite) (h : Proper node) : IsEntry (rawOf write node) where
  mode := (rawOf_mode write h).not_mem
  short := (rawOf_mode write h).short
  name := by
    rw [rawOf_name]
    exact @not_mem_encode _ h.name.wellFormed 0 _ rfl (by decide) h.name.no_nul
  oid := rawOf_oid write node

theorem isTree_treeData (write : BatchWrite) (hproper : ∀ node ∈ nodes, Proper node)
    (hsorted : nodes.Pairwise fun a b =>
      Forest.sortKey octets 0x2f a < Forest.sortKey octets 0x2f b) :
    IsTree (treeData write nodes) (nodes.map (rawOf write)) := by
  refine ⟨treeData_eq write hproper hsorted, fun entry hentry => ?_⟩
  obtain ⟨node, hnode, rfl⟩ := mem_map.1 hentry
  exact rawOf_isEntry write (hproper node hnode)

theorem sortKey_rawOf (write : BatchWrite) (h : Proper node) :
    (Objects.sortKey (rawOf write node)).map UInt8.toNat = Forest.sortKey octets 0x2f node := by
  cases node with
  | leaf name blob =>
    obtain ⟨mode, -, hback, -, -, hne, -⟩ := leaf_mode h.2.2
    rw [rawOf, Objects.sortKey, hback, if_neg hne]
    rfl
  | dir name children =>
    rw [rawOf, Objects.sortKey, if_pos rfl, List.map_append]
    rfl

theorem encode_ne_nil (h : name ≠ []) : encode name ≠ [] := by
  obtain ⟨unit, rest, rfl⟩ := List.exists_cons_of_ne_nil h
  intro hnil
  have hlength := length_encodePoint (Streams.pointAt unit rest)
  rw [encode, Streams.points_cons, List.flatMap_cons] at hnil
  rw [(List.append_eq_nil_iff.1 hnil).1] at hlength
  split_ifs at hlength

theorem encode_inj {left right : Text} (hleft : WellFormed left) (hright : WellFormed right)
    (h : encode left = encode right) : left = right := by
  rw [← hleft, ← hright, ← Utf8.decode_encode, h, Utf8.decode_encode]

/-- The entries of a tree that was written are those that git would write. -/
theorem canonical_treeData (write : BatchWrite) (hproper : ∀ node ∈ nodes, Proper node)
    (hsorted : nodes.Pairwise fun a b =>
      Forest.sortKey octets 0x2f a < Forest.sortKey octets 0x2f b)
    (hdistinct : (nodes.map Node.name).Nodup) : Canonical (nodes.map (rawOf write)) where
  modes := by
    intro entry hentry
    obtain ⟨node, hnode, rfl⟩ := mem_map.1 hentry
    exact rawOf_mode write (hproper node hnode)
  names := by
    intro entry hentry
    obtain ⟨node, hnode, rfl⟩ := mem_map.1 hentry
    have hname := (hproper node hnode).name
    rw [rawOf_name]
    exact ⟨encode_ne_nil hname.nonempty,
      @not_mem_encode _ hname.wellFormed 0 _ rfl (by decide) hname.no_nul,
      @not_mem_encode _ hname.wellFormed 0x2f _ rfl (by decide) hname.no_slash⟩
  utf8 := by
    intro entry hentry
    obtain ⟨node, hnode, rfl⟩ := mem_map.1 hentry
    exact ⟨node.name, (hproper node hnode).name.wellFormed, (rawOf_name write node).symm⟩
  oids := by
    intro entry hentry
    obtain ⟨node, -, rfl⟩ := mem_map.1 hentry
    exact rawOf_oid write node
  order := by
    refine pairwise_map.2 (hsorted.imp_of_mem fun {a b} ha hb hlt => ?_)
    rw [Streams.memcmp_eq, sortKey_rawOf write (hproper a ha), sortKey_rawOf write (hproper b hb),
      Streams.threeWay, if_pos hlt]
    decide
  distinct := by
    rw [map_map]
    refine pairwise_map.2 ((pairwise_map.1 hdistinct).imp_of_mem fun {a b} ha hb hne => ?_)
    intro hsame
    rw [Function.comp_apply, Function.comp_apply, rawOf_name, rawOf_name] at hsame
    exact hne (encode_inj (hproper a ha).name.wellFormed (hproper b hb).name.wellFormed hsame)

-- Reading back

theorem decoded_mode (write : BatchWrite) (h : Proper node) :
    Utf8.textDecode (rawOf write node).mode = (treeEntryOf write node).mode := by
  rw [Objects.textDecode_ascii (rawOf_mode write h).ascii]
  cases node with
  | leaf name blob =>
    obtain ⟨mode, hunits, hback, -⟩ := leaf_mode h.2.2
    rw [rawOf, treeEntryOf, hback, hunits]
  | dir name children => rfl

/-- The ids of the nodes are spelled in twenty octets. -/
def Spelled (write : BatchWrite) (nodes : List (Node Text Blob)) : Prop :=
  ∀ name children, .dir name children ∈ nodes → isOid (idOf write (treeData write children)) = true

theorem toHex_rawOf (write : BatchWrite) (h : Proper node)
    (hid : ∀ name children, node = .dir name children →
      isOid (idOf write (treeData write children)) = true) :
    toHex (rawOf write node).oid = (treeEntryOf write node).oid := by
  cases node with
  | leaf name blob => exact Objects.toHex_oidBytes h.2.1
  | dir name children => exact Objects.toHex_oidBytes (hid name children rfl)

/-- The fields of a parsed entry that the walk looks at. -/
def fields (parsed : ParsedTreeEntry) : Text × List UInt8 × Text :=
  (parsed.entry.mode, parsed.nameBytes, parsed.entry.oid)

theorem parsedFrom_nodes (write : BatchWrite)
    (hproper : ∀ node ∈ nodes, Proper node) (hids : Spelled write nodes) (ordinal size : Nat) :
    ∃ out, parsedFrom ordinal size (nodes.map (rawOf write)) = .ok out ∧
      out.map fields = nodes.map fun node =>
        ((treeEntryOf write node).mode, encode node.name, (treeEntryOf write node).oid) := by
  induction nodes generalizing ordinal size with
  | nil => exact ⟨[], rfl, rfl⟩
  | cons node nodes ih =>
    rw [List.forall_mem_cons] at hproper
    obtain ⟨out, hout, hfields⟩ := ih hproper.2
      (fun name children hmem => hids name children (List.mem_cons_of_mem _ hmem))
      (ordinal + 1) (size + (Objects.RawTree.bytes (rawOf write node)).length)
    have hname := hproper.1.name.wellFormed
    refine ⟨{
      entry := Objects.decoded (rawOf write node)
      nameBytes := (rawOf write node).name
      ordinal
      observedSize := size + (Objects.RawTree.bytes (rawOf write node)).length } :: out, ?_, ?_⟩
    · rw [map_cons, parsedFrom, Objects.decodeEntry_eq hname (rawOf_name write node).symm,
        Except.bind, hout]
      rfl
    · rw [map_cons, map_cons, hfields, fields]
      dsimp only [Objects.decoded]
      rw [decoded_mode write hproper.1, rawOf_name, toHex_rawOf write hproper.1
        fun name children hsame => hids name children (hsame ▸ List.mem_cons_self)]

/-- A tree that was written is parsed to its nodes. -/
theorem parseTreeStream_treeData (write : BatchWrite) (hproper : ∀ node ∈ nodes, Proper node)
    (hsorted : nodes.Pairwise fun a b =>
      Forest.sortKey octets 0x2f a < Forest.sortKey octets 0x2f b)
    (hids : Spelled write nodes) {data : Uint8Array} (hdata : data.bytes = treeData write nodes) :
    ∃ parsed, parseTreeStream [data.bytes] = .ok parsed ∧
      parsed.map fields = nodes.map fun node =>
        ((treeEntryOf write node).mode, encode node.name, (treeEntryOf write node).oid) := by
  obtain ⟨parsed, hparsed, hfields⟩ := parsedFrom_nodes write hproper hids 0 0
  have hflat : [data.bytes].flatten = data.bytes := by
    rw [List.flatten_cons, List.flatten_nil, List.append_nil]
  refine ⟨parsed, (Objects.parseTreeStream_iff (by rw [hflat]; exact data.length_safe)).2
    ⟨nodes.map (rawOf write), ?_, hparsed⟩, hfields⟩
  rw [hflat, hdata]
  exact isTree_treeData write hproper hsorted

/-- The rows of leaves. -/
def rowsOf (leaves : List (List Text × Blob)) : List WalkTreeEntry :=
  leaves.map fun leaf =>
    { path := List.intercalate [0x2f] leaf.1, mode := toString8 leaf.2.1, oid := leaf.2.2 }

theorem rowsOf_dir (name : Text) (children : List (Node Text Blob)) :
    rowsOf (Node.leaves (.dir name children)) = (rowsOf (Forest.leaves children)).map
      fun inner => { inner with path := name ++ 0x2f :: inner.path } := by
  rw [Node.leaves, rowsOf, rowsOf, map_map, map_map]
  refine List.map_congr_left fun leaf hleaf => ?_
  obtain ⟨first, rest, hnames⟩ :=
    List.exists_cons_of_ne_nil (Forest.leaves_ne_nil children leaf hleaf)
  rw [Function.comp_apply, Function.comp_apply, hnames, List.intercalate_cons_cons,
    List.append_assoc]
  rfl

/-- The walk through the entries of a tree, when it comes to the rows below each subtree. -/
theorem walkEntries_nodes (write : BatchWrite)
    {walk : Text → Option (Except GitError (List WalkTreeEntry))}
    (hproper : ∀ node ∈ nodes, Proper node)
    (hwalk : ∀ name children, .dir name children ∈ nodes →
      walk (idOf write (treeData write children)) = some (.ok (rowsOf (Forest.leaves children))))
    {parsed : List ParsedTreeEntry}
    (hparsed : parsed.map fields = nodes.map fun node =>
      ((treeEntryOf write node).mode, encode node.name, (treeEntryOf write node).oid)) :
    walkEntries walk parsed = some (.ok (rowsOf (Forest.leaves nodes))) := by
  induction nodes generalizing parsed with
  | nil =>
    rw [List.map_nil, List.map_eq_nil_iff] at hparsed
    rw [hparsed]
    rfl
  | cons node nodes ih =>
    cases parsed with
    | nil => cases hparsed
    | cons first parsed =>
      rw [map_cons, map_cons] at hparsed
      obtain ⟨hfirst, hrest⟩ := List.cons.inj hparsed
      rw [List.forall_mem_cons] at hproper
      have hname : Utf8.decode first.nameBytes = node.name := by
        rw [show first.nameBytes = encode node.name from congrArg (fun f => f.2.1) hfirst,
          Utf8.decode_encode, hproper.1.name.wellFormed]
      have hmode : first.entry.mode = (treeEntryOf write node).mode := congrArg Prod.fst hfirst
      have hoid : first.entry.oid = (treeEntryOf write node).oid :=
        congrArg (fun f => f.2.2) hfirst
      have hhere : (if isTreeMode first.entry.mode then
          (walk first.entry.oid).map (Except.map (List.map fun inner =>
            { inner with path := Utf8.decode first.nameBytes ++ 0x2f :: inner.path }))
          else some (.ok [{ path := Utf8.decode first.nameBytes, mode := first.entry.mode
                            oid := first.entry.oid }])) = some (.ok (rowsOf node.leaves)) := by
        rw [hname, hmode, hoid]
        cases node with
        | leaf name blob =>
          obtain ⟨mode, -, -, -, -, -, htree⟩ := leaf_mode hproper.1.2.2
          rw [treeEntryOf]
          dsimp only
          rw [htree, if_neg Bool.false_ne_true, Node.leaves, rowsOf, List.map_singleton,
            List.intercalate_singleton]
          rfl
        | dir name children =>
          have hbelow := hwalk name children List.mem_cons_self
          rw [treeEntryOf]
          dsimp only
          rw [if_pos (by decide), show idOf write (serializeTree (treeEntriesOf write children)) =
            idOf write (treeData write children) from rfl, hbelow, rowsOf_dir]
          rfl
      have htail := ih hproper.2 (fun name children hmem =>
        hwalk name children (List.mem_cons_of_mem _ hmem)) hrest
      rw [walkEntries, hhere, htail, Forest.leaves, rowsOf, rowsOf, rowsOf, List.map_append]
      rfl

theorem sizeOf_children {children : List (Node Text Blob)}
    (h : .dir name children ∈ nodes) : sizeOf children < sizeOf nodes := by
  have hmem := List.sizeOf_lt_of_mem h
  rw [Node.dir.sizeOf_spec] at hmem
  omega

/-- Each directory that was written is walked to its leaves. -/
theorem walkTree_closed (write : BatchWrite) {read : Text → Option Uint8Array}
    {closed : List (List (Node Text Blob))}
    (hproper : ∀ nodes ∈ closed, ∀ node ∈ nodes, Proper node)
    (hsorted : ∀ nodes ∈ closed, nodes.Pairwise fun a b =>
      Forest.sortKey octets 0x2f a < Forest.sortKey octets 0x2f b)
    (hinner : ∀ nodes ∈ closed, Forest.Inner nodes closed)
    (hread : ∀ nodes ∈ closed, isOid (idOf write (treeData write nodes)) = true ∧
      ∃ data, read (idOf write (treeData write nodes)) = some data ∧
        data.bytes = treeData write nodes) (h : nodes ∈ closed) :
    ∃ limit, ∀ fuel, limit ≤ fuel →
      walkTree read fuel (idOf write (treeData write nodes)) =
        some (.ok (rowsOf (Forest.leaves nodes))) := by
  induction hsize : sizeOf nodes using Nat.strongRecOn generalizing nodes with
  | ind size ih =>
    subst hsize
    obtain ⟨-, data, hdata, hbytes⟩ := hread nodes h
    have hids : Spelled write nodes := fun name children hmem =>
      (hread children (hinner nodes h name children hmem)).1
    obtain ⟨parsed, hparse, hfields⟩ := parseTreeStream_treeData write (hproper nodes h)
      (hsorted nodes h) hids hbytes
    -- The limits of the subtrees have a common one.
    have hbelow : ∀ part ⊆ nodes, ∃ limit, ∀ fuel, limit ≤ fuel → ∀ name children,
        .dir name children ∈ part → walkTree read fuel (idOf write (treeData write children)) =
          some (.ok (rowsOf (Forest.leaves children))) := by
      intro part hpart
      induction part with
      | nil => exact ⟨0, fun _ _ _ _ hmem => nomatch hmem⟩
      | cons node part ihpart =>
        rw [List.cons_subset] at hpart
        obtain ⟨limit, hlimit⟩ := ihpart hpart.2
        cases node with
        | leaf name blob =>
          refine ⟨limit, fun fuel hfuel name' children hmem => ?_⟩
          exact hlimit fuel hfuel name' children
            ((List.mem_cons.1 hmem).resolve_left fun hsame => nomatch hsame)
        | dir name children =>
          obtain ⟨limit', hlimit'⟩ := ih _ (sizeOf_children hpart.1)
            (hinner nodes h name children hpart.1) rfl
          refine ⟨max limit limit', fun fuel hfuel name' children' hmem => ?_⟩
          rcases List.mem_cons.1 hmem with hsame | hmem
          · cases hsame
            exact hlimit' fuel (le_trans (le_max_right _ _) hfuel)
          · exact hlimit fuel (le_trans (le_max_left _ _) hfuel) name' children' hmem
    obtain ⟨limit, hlimit⟩ := hbelow nodes (List.Subset.refl _)
    refine ⟨limit + 1, fun fuel hfuel => ?_⟩
    obtain ⟨fuel, rfl⟩ : ∃ k, fuel = k + 1 := ⟨fuel - 1, by omega⟩
    rw [walkTree, hdata]
    dsimp only
    rw [hparse]
    exact walkEntries_nodes write (hproper nodes h) (hlimit fuel (by omega)) hfields

theorem rowsOf_leavesOf (entries : List IndexEntry) :
    rowsOf (leavesOf entries) = entries.map walkedEntry := by
  have hjoin : ∀ (first : Text) (rest : List Text),
      List.intercalate [0x2f] (first :: rest) = first ++ rest.flatMap (0x2f :: ·) := by
    intro first rest
    induction rest generalizing first with
    | nil => rw [List.intercalate_singleton, List.flatMap_nil, List.append_nil]
    | cons name rest ih =>
      rw [List.intercalate_cons_cons, ih, List.flatMap_cons, List.append_assoc]
      rfl
  rw [rowsOf, leavesOf, map_map]
  refine List.map_congr_left fun entry _ => ?_
  rw [Function.comp_apply, walkedEntry]
  dsimp only
  cases hsplit : entry.path.splitOn 0x2f with
  | nil => exact absurd hsplit (List.splitOn_ne_nil _ _)
  | cons first rest => rw [hjoin, ← (Objects.splitOn_eq_cons hsplit).1]

/-- The octets of all trees of an index. -/
def serializedTrees (entries : List IndexEntry) : Nat :=
  ((forestOf entries).closed.map treeBytes).sum

theorem total_lastCursor (entries : List IndexEntry) :
    (lastCursor entries).total nodeBytes = serializedTrees entries :=
  (Cursor.total_finish nodeBytes_dir (lastCursor entries)).symm

/-- An entry of an index for a file. -/
def fileEntry (path : Text) : IndexEntry where
  path
  stage := 0
  mode := 0o100644
  oid := List.replicate 40 0x61
  size := none
  mtime := none
  ino := none
  rev := none

theorem listing_readme : Listing [fileEntry (text "readme")] where
  listed := by
    rw [List.forall_mem_singleton]
    exact ⟨rfl, ⟨by decide, by decide, by decide, by decide, by decide, by decide +kernel⟩,
      Or.inl rfl, by decide⟩
  sorted := List.pairwise_singleton _ _

/-- A batch that takes one object. -/
def oneWrite : BatchWrite := fun _ => .ok (List.replicate 40 0x62)

/-- The object of the tree with one file. -/
def readmeTree : Uint8Array where
  bytes := treeData oneWrite (forestOf [fileEntry (text "readme")]).top
  length_safe := by
    have hbuilt : Built (leavesOf [fileEntry (text "readme")])
        (forestOf [fileEntry (text "readme")]).top :=
      (map_leaf _).symm ▸ Forest.built ([fileEntry (text "readme")].map leafEntry)
        (List.mem_append_right _ (mem_singleton.2 rfl))
    rw [length_treeData oneWrite (listing_readme.proper hbuilt)]
    decide +kernel

end Kompjutr.Ops
