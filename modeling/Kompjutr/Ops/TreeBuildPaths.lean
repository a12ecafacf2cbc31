/-
  Kompjutr.Ops.TreeBuildPaths

  The paths of an index as names: the checks of the build on a path, the lengths that it counts, and
  the order of paths as the order of their names with slashes between them.
-/
import Kompjutr.Common.CanonicalPath
import Kompjutr.Lib.ForestOrder
import Kompjutr.Objects.CommitFields
import Kompjutr.Ops.TreeBuild

namespace Kompjutr.Ops

open Objects (Text text isOid)
open Index (IndexEntry)
open Paths (IsGitPath)
open Utf8 (WellFormed encode octets octetsOf points encodePoint isHigh isLow)
open List (append_assoc append_nil cons_append flatMap_cons mem_cons mem_flatMap mem_map
  not_mem_nil splitOn_ne_nil)

variable {path value : Text} {unit : UInt16} {entries : List IndexEntry}

-- The checks on a path

theorem validateSegments_eq {segment : Text} (hsegment : 0x2f ∉ segment) (hnul : 0 ∉ path)
    (hparts : ∀ part ∈ (segment ++ path).splitOn 0x2f, isInvalidSegment part = false) :
    validateSegments segment path = .ok () := by
  induction path generalizing segment with
  | nil =>
    rw [append_nil, List.splitOn_eq_singleton hsegment, List.forall_mem_singleton] at hparts
    rw [validateSegments, hparts]
    rfl
  | cons unit rest ih =>
    rw [mem_cons, not_or] at hnul
    rw [validateSegments]
    by_cases hslash : unit = 0x2f
    · subst hslash
      rw [List.splitOn_append_cons_self, List.splitOn_eq_singleton hsegment,
        List.singleton_append, List.forall_mem_cons] at hparts
      rw [if_neg (not_not.2 rfl), hparts.1]
      exact ih not_mem_nil hnul.2 hparts.2
    · rw [if_pos hslash, if_neg (Ne.symm hnul.1)]
      refine ih ?_ hnul.2 ?_
      · rw [List.mem_append, List.mem_singleton, not_or]
        exact ⟨hsegment, Ne.symm hslash⟩
      · rwa [append_assoc, List.singleton_append]

/-- The build takes the paths of a repository. -/
theorem validatePath_eq (h : IsGitPath path) : validatePath path = .ok (path.splitOn 0x2f) := by
  have hshape : validatePathShape path = .ok () := by
    have hguard : ¬ (path.length = 0 ∨ path.head? = some 0x2f ∨ path.getLast? = some 0x2f) := by
      rw [List.length_eq_zero_iff, not_or, not_or]
      exact ⟨h.nonempty, h.relative, h.no_trailing_slash⟩
    rw [validatePathShape, if_neg hguard]
    refine validateSegments_eq not_mem_nil h.no_nul fun part hpart => ?_
    exact Paths.isDotSegment_eq_false.2 (h.segments part hpart)
  rw [validatePath, hshape]
  rfl

-- Lengths

theorem encode_single (h : ¬ (isHigh unit || isLow unit) = true) (rest : Text) :
    encode (unit :: rest) = encodePoint unit.toNat ++ encode rest := by
  have hpoints := Utf8.points_cut [] rest h
  rw [List.nil_append] at hpoints
  rw [encode, hpoints]
  rfl

theorem encode_cut (left right : Text) (h : ¬ (isHigh unit || isLow unit) = true) :
    encode (left ++ unit :: right) = encode left ++ encodePoint unit.toNat ++ encode right := by
  rw [encode, Utf8.points_cut left right h, List.flatMap_append, flatMap_cons,
    append_assoc]
  rfl

theorem length_encodePoint (point : Nat) : (encodePoint point).length =
    if point < 0x80 then 1 else if point < 0x800 then 2 else if point < 0x10000 then 3 else 4 := by
  unfold encodePoint
  split_ifs <;> rfl

theorem countBytes_bind (label : String) {bytes more rest : Nat}
    {next : Nat → Except GitError Nat}
    (h : isSafeInteger ((bytes + more : Nat) : Int) = true → next (bytes + more) =
      countBytes label (bytes + more) rest) :
    (countBytes label bytes more).bind next = countBytes label bytes (more + rest) := by
  rw [countBytes]
  by_cases hsafe : isSafeInteger ((bytes + more : Nat) : Int) = true
  · rw [if_pos hsafe]
    refine (h hsafe).trans ?_
    rw [countBytes, countBytes, Nat.add_assoc]
  · have hover : ¬ isSafeInteger ((bytes + (more + rest) : Nat) : Int) = true := by
      rw [isSafeInteger_iff] at hsafe ⊢
      unfold maxSafeInteger at hsafe ⊢
      omega
    rw [if_neg hsafe, countBytes, if_neg hover]
    rfl

/-- The length of the encoding, or `E2BIG` when it cannot be counted. -/
theorem utf8LengthFrom_eq (label : String) {bytes : Nat} (h : WellFormed value)
    (hbytes : isSafeInteger bytes = true) :
    utf8LengthFrom label bytes value = countBytes label bytes (encode value).length := by
  fun_induction utf8LengthFrom label bytes value with
  | case1 bytes => exact (if_pos hbytes).symm
  | case2 bytes unit hhigh => exact absurd h (Utf8.not_wellFormed_high hhigh)
  | case3 bytes unit hhigh low rest hlow =>
    refine absurd h (Paths.not_wellFormed_unpaired (by rw [hhigh]; rfl) ?_)
    rintro _ ⟨⟩
    rw [Paths.not_isLow_of_outside hlow, Bool.and_false]
  | case4 bytes unit hhigh low rest hlow ih =>
    have hlow' := Paths.isLow_of_not_outside hlow
    have hlength : (encode (unit :: low :: rest)).length = 4 + (encode rest).length := by
      have hpoint := Streams.points_cons unit (low :: rest)
      rw [Streams.pointAt_pair hhigh hlow', if_pos (by omega)] at hpoint
      rw [encode, hpoint, flatMap_cons, List.length_append, length_encodePoint,
        if_neg (by omega), if_neg (by omega), if_neg (by omega)]
      rfl
    rw [hlength]
    exact countBytes_bind label fun hsafe =>
      ih (bytes + 4) ((Utf8.wellFormed_pair hhigh hlow' rest).1 h) hsafe
  | case5 bytes unit rest hhigh hlow =>
    refine absurd h (Paths.not_wellFormed_unpaired (by rw [hlow, Bool.or_true]) ?_)
    intro v _
    rw [Bool.eq_false_iff.2 hhigh, Bool.false_and]
  | case6 bytes unit rest hhigh hlow ih =>
    have hplain : ¬ (isHigh unit || isLow unit) = true := by
      rw [Bool.or_eq_true, not_or]
      exact ⟨hhigh, hlow⟩
    have hlt := unit.toNat_lt
    have hsame : (if unit < 0x80 then 1 else if unit < 0x800 then 2 else 3) =
        (encodePoint unit.toNat).length := by
      rw [length_encodePoint]
      simp only [UInt16.lt_iff_toNat_lt, UInt16.reduceToNat]
      split_ifs <;> rfl
    have hcut := Utf8.wellFormed_cut [] rest hplain
    rw [List.nil_append] at hcut
    rw [encode_single hplain, List.length_append, ← hsame]
    exact countBytes_bind label fun hsafe => ih _ (hcut.1 h).2 hsafe

theorem utf8Length_eq (label : String) (h : WellFormed value) :
    utf8Length value label = countBytes label 0 (encode value).length :=
  utf8LengthFrom_eq label h rfl

theorem utf8Length_ok {label : String} (h : WellFormed value)
    (hsafe : isSafeInteger (encode value).length = true) :
    utf8Length value label = .ok (encode value).length := by
  rw [utf8Length_eq label h, countBytes, Nat.zero_add, if_pos hsafe]

-- Names and slashes

theorem octets_cut (left right : Text) (h : ¬ (isHigh unit || isLow unit) = true)
    (hascii : unit.toNat < 0x80) :
    octets (left ++ unit :: right) = octets left ++ unit.toNat :: octets right := by
  have hpoint : (encodePoint unit.toNat).map UInt8.toNat = [unit.toNat] := by
    rw [encodePoint, if_pos hascii, List.map_singleton, Utf8.toNat_toUInt8 (by omega)]
  rw [octets, encode_cut left right h, List.map_append, List.map_append, hpoint, append_assoc]
  rfl

/-- The octets of a path are those of its names, with slashes between them. -/
theorem joined_splitOn (path : Text) :
    Forest.joined octets 0x2f (path.splitOn 0x2f) = octets path := by
  have hall : ∀ (first : Text) (rest : List Text),
      Forest.joined octets 0x2f (first :: rest) = octets (first ++ rest.flatMap (0x2f :: ·)) := by
    intro first rest
    induction rest generalizing first with
    | nil => rw [List.flatMap_nil, append_nil]; rfl
    | cons name rest ih =>
      rw [Forest.joined, ih, flatMap_cons, cons_append,
        octets_cut _ _ (by decide) (by decide)]
      rfl
  cases hsplit : path.splitOn 0x2f with
  | nil => exact absurd hsplit (splitOn_ne_nil _ _)
  | cons first rest => rw [hall, ← (Objects.splitOn_eq_cons hsplit).1]

/-- A single octet stands for its own unit only. -/
theorem mem_octets {name : Text} (h : WellFormed name)
    (hascii : unit.toNat < 0x80) (hmem : unit.toNat ∈ octets name) : unit ∈ name := by
  rw [Utf8.octets_eq, mem_flatMap] at hmem
  obtain ⟨point, hpoint, hoctet⟩ := hmem
  have hscalar := Utf8.scalar_of_mem_points hpoint
  have hsame : unit.toNat = point := by
    rw [Utf8.octetsOf_eq hscalar] at hoctet
    split_ifs at hoctet <;> simp only [mem_cons, not_mem_nil, or_false] at hoctet <;>
      omega
  rw [← h, Utf8.toWellFormed, mem_flatMap]
  refine ⟨point, hpoint, ?_⟩
  rw [← hsame, Utf8.unitsOf_toNat]
  exact List.mem_singleton.2 rfl

/-- A name in a path. -/
structure IsName (name : Text) : Prop where
  wellFormed : WellFormed name
  nonempty : name ≠ []
  no_slash : 0x2f ∉ name
  no_nul : 0 ∉ name

theorem octets_keyed : Forest.Keyed octets 0x2f IsName where
  inj := by
    intro name other hname hother hsame
    have hpoints := Utf8.octets_inj.1 hsame
    rw [← hname.wellFormed, ← hother.wellFormed, Utf8.toWellFormed, Utf8.toWellFormed, hpoints]
  sep := fun name hname hmem =>
    hname.no_slash (mem_octets hname.wellFormed (by decide) (hmem : (0x2f : UInt16).toNat ∈ _))

theorem isName_of_mem {path name : Text} (h : IsGitPath path) (hname : name ∈ path.splitOn 0x2f) :
    IsName name := by
  obtain ⟨first, rest, hsplit⟩ := List.exists_cons_of_ne_nil (splitOn_ne_nil 0x2f path)
  obtain ⟨hpath, hparts⟩ := Objects.splitOn_eq_cons hsplit
  rw [hsplit] at hname
  have hunits : ∀ unit ∈ name, unit ∈ path := by
    intro unit hunit
    rw [hpath]
    rcases mem_cons.1 hname with rfl | hname
    · exact List.mem_append_left _ hunit
    · exact List.mem_append_right _
        (mem_flatMap.2 ⟨name, hname, List.mem_cons_of_mem _ hunit⟩)
  refine ⟨?_, (h.segments name (hsplit ▸ hname)).1, hparts name hname,
    fun hnul => h.no_nul (hunits 0 hnul)⟩
  have hformed : ∀ (first : Text) (rest : List Text),
      WellFormed (first ++ rest.flatMap (0x2f :: ·)) → ∀ part ∈ first :: rest, WellFormed part := by
    intro first rest
    induction rest generalizing first with
    | nil =>
      intro hall part hpart
      rw [List.flatMap_nil, append_nil] at hall
      rwa [List.mem_singleton.1 hpart]
    | cons next rest ih =>
      intro hall
      rw [flatMap_cons, cons_append, Utf8.wellFormed_cut _ _ (by decide)] at hall
      exact List.forall_mem_cons.2 ⟨hall.1, ih next hall.2⟩
  exact hformed first rest (hpath ▸ h.wellFormed) name hname

-- Listings

/-- A stage-zero entry of an index. -/
structure Listed (entry : IndexEntry) : Prop where
  stage : entry.stage = 0
  path : IsGitPath entry.path
  mode : entry.mode = 0o100644 ∨ entry.mode = 0o100755 ∨ entry.mode = 0o120000 ∨
    entry.mode = 0o160000
  oid : isOid entry.oid = true

/-- The stage-zero entries of an index, in the order of their paths. -/
structure Listing (entries : List IndexEntry) : Prop where
  listed : ∀ entry ∈ entries, Listed entry
  sorted : entries.Pairwise fun a b => Streams.comparePaths a.path b.path < 0

/-- The mode and the object of a leaf. -/
abbrev Blob := Nat × Text

/-- The entry as the build sees it. -/
def leafEntry (entry : IndexEntry) : Forest.Entry Text Blob where
  dirs := (entry.path.splitOn 0x2f).dropLast
  name := (entry.path.splitOn 0x2f).getLast (splitOn_ne_nil _ _)
  value := (entry.mode, entry.oid)

theorem leafEntry_leaf (entry : IndexEntry) :
    (leafEntry entry).leaf = (entry.path.splitOn 0x2f, entry.mode, entry.oid) := by
  rw [Forest.Entry.leaf, leafEntry]
  dsimp only
  rw [List.dropLast_append_getLast]

/-- The leaves of a listing, with their names. -/
def leavesOf (entries : List IndexEntry) : List (List Text × Blob) :=
  entries.map fun entry => (entry.path.splitOn 0x2f, entry.mode, entry.oid)

theorem map_leaf (entries : List IndexEntry) :
    (entries.map leafEntry).map Forest.Entry.leaf = leavesOf entries := by
  rw [List.map_map]
  exact List.map_congr_left fun entry _ => leafEntry_leaf entry

theorem Listing.names (h : Listing entries) :
    ∀ leaf ∈ leavesOf entries, ∀ name ∈ leaf.1, IsName name := by
  intro leaf hleaf name hname
  obtain ⟨entry, hentry, rfl⟩ := mem_map.1 hleaf
  exact isName_of_mem (h.listed entry hentry).path hname

theorem Listing.joined (h : Listing entries) : (leavesOf entries).Pairwise fun p q =>
      Forest.joined octets 0x2f p.1 < Forest.joined octets 0x2f q.1 := by
  refine List.pairwise_map.2 (h.sorted.imp fun {a b} hlt => ?_)
  dsimp only
  rw [joined_splitOn, joined_splitOn]
  exact Streams.comparePaths_lt.1 hlt

/-- The nodes of a directory are in the order of a tree. -/
theorem Listing.nodes_sorted (h : Listing entries)
    {nodes : List (Forest.Node Text Blob)} (hbuilt : Forest.Built (leavesOf entries) nodes) :
    nodes.Pairwise fun a b => Forest.sortKey octets 0x2f a < Forest.sortKey octets 0x2f b :=
  hbuilt.sorted octets_keyed h.names h.joined

/-- A leaf is below another one when its path goes on behind a slash. -/
theorem collide_iff {other : Text} {blob blob' : Blob} :
    Forest.Collide (path.splitOn 0x2f, blob) (other.splitOn 0x2f, blob') ↔
      path ++ [0x2f] <+: other := by
  constructor
  · rintro ⟨more, hmore, hsplit⟩
    obtain ⟨next, more, rfl⟩ := List.exists_cons_of_ne_nil hmore
    cases hpath : path.splitOn 0x2f with
    | nil => exact absurd hpath (splitOn_ne_nil _ _)
    | cons first rest =>
      dsimp only at hsplit
      rw [hpath, cons_append] at hsplit
      refine ⟨next ++ more.flatMap (0x2f :: ·), ?_⟩
      rw [(Objects.splitOn_eq_cons hpath).1, (Objects.splitOn_eq_cons hsplit).1,
        List.flatMap_append, flatMap_cons]
      simp
  · rintro ⟨rest, rfl⟩
    refine ⟨rest.splitOn 0x2f, splitOn_ne_nil _ _, ?_⟩
    rw [append_assoc, List.singleton_append, List.splitOn_append_cons_self]

theorem listing_apart (h : ∀ a ∈ entries, ∀ b ∈ entries, ¬ a.path ++ [0x2f] <+: b.path) :
    ∀ p ∈ leavesOf entries, ∀ q ∈ leavesOf entries, ¬ Forest.Collide p q := by
  intro p hp q hq hcollide
  obtain ⟨a, ha, rfl⟩ := mem_map.1 hp
  obtain ⟨b, hb, rfl⟩ := mem_map.1 hq
  exact h a ha b hb (collide_iff.1 hcollide)

end Kompjutr.Ops
