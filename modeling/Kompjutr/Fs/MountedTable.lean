/-
  Kompjutr.Fs.MountedTable

  The directories a mount table makes up: a synthetic directory is a proper ancestor of
  a mount, its children are the next components on the way to the mounts, and nothing of
  this lies inside a mount.
-/
import Kompjutr.Fs.MountedPaths

namespace Kompjutr.Fs.Mounted

open Objects (Text text)
open List (append_nil cons_ne_nil mem_append mem_cons tail_cons)

variable {rest : Text}

variable {part directory : Text} {parts base : List Text}

-- Components

theorem not_mem_splitOn {path : Text} (h : part ∈ path.splitOn 0x2f) : (0x2f : UInt16) ∉ part := by
  cases hsplit : path.splitOn 0x2f with
  | nil => exact absurd hsplit (List.splitOn_ne_nil _ _)
  | cons first rest => exact (Objects.splitOn_eq_cons hsplit).2 part (hsplit ▸ h)

/-- A name that may stand between two slashes of a canonical path. -/
def IsName (part : Text) : Prop := isPlain part = true ∧ (0x2f : UInt16) ∉ part

theorem IsName.ne_nil (h : IsName part) : part ≠ [] := (isPlain_iff.1 h.1).1

/-- The components of a canonical path are names. -/
theorem isName_of_mem {path part : Text} (h : isCanonicalPath path = true)
    (hpart : part ∈ componentsOf path) : IsName part := by
  refine ⟨(componentsOf_canonical h).2 part hpart, ?_⟩
  obtain rfl | ⟨rest, rfl, hplain⟩ := canonical_cases h
  · rw [componentsOf_root] at hpart
    cases hpart
  · rw [componentsOf_plain hplain] at hpart
    exact not_mem_splitOn hpart

theorem splitOn_names (h : ∀ part ∈ parts, IsName part) (hne : parts ≠ []) :
    (List.intercalate [0x2f] parts).splitOn 0x2f = parts :=
  List.splitOn_intercalate _ (fun part hpart => (h part hpart).2) hne

theorem canonical_pathOf (h : ∀ part ∈ parts, IsName part) :
    isCanonicalPath (pathOf parts) = true := by
  by_cases hne : parts = []
  · subst hne
    rfl
  · refine canonical_iff.2 (.inr ⟨_, rfl, fun part hpart => ?_⟩)
    rw [splitOn_names h hne] at hpart
    exact (h part hpart).1

theorem componentsOf_pathOf (h : ∀ part ∈ parts, IsName part) :
    componentsOf (pathOf parts) = parts := by
  by_cases hne : parts = []
  · subst hne
    rfl
  · rw [pathOf, componentsOf_plain, splitOn_names h hne]
    intro part hpart
    rw [splitOn_names h hne] at hpart
    exact (h part hpart).1

theorem pathOf_componentsOf {path : Text} (h : isCanonicalPath path = true) :
    pathOf (componentsOf path) = path := (componentsOf_canonical h).1

theorem componentsOf_injective {path other : Text} (h : isCanonicalPath path = true)
    (hother : isCanonicalPath other = true) (heq : componentsOf path = componentsOf other) :
    path = other := by
  rw [← pathOf_componentsOf h, heq, pathOf_componentsOf hother]

/-- The path of more components goes on from the stem. -/
theorem stem_pathOf {more : List Text} (hbase : ∀ part ∈ base, IsName part) (hmore : more ≠ []) :
    stem (pathOf base) ++ 0x2f :: List.intercalate [0x2f] more = pathOf (base ++ more) := by
  by_cases hne : base = []
  · subst hne
    rfl
  · rw [pathOf_append hne hmore, stem, if_neg]
    intro hroot
    have hparts := componentsOf_pathOf hbase
    rw [hroot, componentsOf_root] at hparts
    exact hne hparts.symm

/-- The components of a path go on from those of the directory it lies under. -/
theorem componentsOf_below (h : isCanonicalPath directory = true)
    (hrest : rest ≠ []) (hpath : isCanonicalPath (stem directory ++ 0x2f :: rest) = true) :
    componentsOf (stem directory ++ 0x2f :: rest) =
      componentsOf directory ++ rest.splitOn 0x2f := by
  have hnames := fun part => @isName_of_mem directory part h
  have hplain := ((canonical_below h).1 hpath).resolve_left fun hnil => hrest hnil.2
  have hbelow : stem directory ++ 0x2f :: rest =
      pathOf (componentsOf directory ++ rest.splitOn 0x2f) := by
    rw [← stem_pathOf hnames (List.splitOn_ne_nil _ _), pathOf_componentsOf h,
      List.intercalate_splitOn]
  rw [hbelow, componentsOf_pathOf]
  intro part hpart
  obtain hpart | hpart := mem_append.1 hpart
  · exact hnames part hpart
  · exact ⟨hplain part hpart, not_mem_splitOn hpart⟩

section

variable {path : Text} (hpath : isCanonicalPath path = true) (h : isCanonicalPath directory = true)

include hpath h

/-- Strictly under a directory means more components. -/
theorem isUnder_iff_components :
    isUnder path directory = true ↔
      ∃ more, more ≠ [] ∧ componentsOf path = componentsOf directory ++ more := by
  have hnames := fun part => @isName_of_mem directory part h
  rw [isUnder_iff hpath h]
  constructor
  · rintro ⟨rest, hrest, rfl⟩
    exact ⟨rest.splitOn 0x2f, List.splitOn_ne_nil _ _, componentsOf_below h hrest hpath⟩
  · rintro ⟨more, hmore, hparts⟩
    refine ⟨List.intercalate [0x2f] more, ?_, ?_⟩
    · intro hnil
      obtain ⟨part, rest, rfl⟩ := List.exists_cons_of_ne_nil hmore
      have hpart : IsName part := isName_of_mem hpath (by rw [hparts]; simp)
      cases rest with
      | nil => exact hpart.ne_nil (by simpa using hnil)
      | cons next rest =>
        rw [List.intercalate_cons_cons] at hnil
        simp at hnil
    · rw [← pathOf_componentsOf hpath, hparts, ← stem_pathOf hnames hmore, pathOf_componentsOf h]

theorem isUnder_canonical (hrest : rest ≠ [])
    (heq : path = stem directory ++ 0x2f :: rest) : isUnder path directory = true :=
  (isUnder_iff hpath h).2 ⟨rest, hrest, heq⟩

end

theorem isUnder_irrefl {path : Text} (h : isCanonicalPath path = true) :
    isUnder path path = false := by
  rw [← Bool.not_eq_true, isUnder_iff_components h h]
  rintro ⟨more, hmore, heq⟩
  exact hmore (List.self_eq_append_right.1 heq)

theorem isUnder_trans {path middle : Text} (hpath : isCanonicalPath path = true)
    (hmiddle : isCanonicalPath middle = true) (h : isCanonicalPath directory = true)
    (hlow : isUnder path middle = true) (hhigh : isUnder middle directory = true) :
    isUnder path directory = true := by
  obtain ⟨more, hmore, heq⟩ := (isUnder_iff_components hpath hmiddle).1 hlow
  obtain ⟨between, -, heq'⟩ := (isUnder_iff_components hmiddle h).1 hhigh
  refine (isUnder_iff_components hpath h).2 ⟨between ++ more, ?_, ?_⟩
  · simp [hmore]
  · rw [heq, heq', List.append_assoc]

-- Parents

theorem dirname_below {name : Text} (h : isCanonicalPath directory = true)
    (hname : (0x2f : UInt16) ∉ name)
    (hpath : isCanonicalPath (stem directory ++ 0x2f :: name) = true) :
    dirname (stem directory ++ 0x2f :: name) = directory := by
  have hcut : ((stem directory ++ 0x2f :: name).reverse.dropWhile (· ≠ 0x2f)) =
      0x2f :: (stem directory).reverse := by
    rw [List.reverse_append, List.reverse_cons, List.append_assoc,
      List.dropWhile_append_of_pos, List.singleton_append, List.dropWhile_cons_of_neg (by simp)]
    intro u hu
    rw [List.mem_reverse] at hu
    exact decide_eq_true fun heq => hname (heq ▸ hu)
  unfold dirname
  rw [normalize_canonical hpath, hcut]
  dsimp only
  rw [List.drop_one, tail_cons, List.reverse_reverse]
  obtain ⟨hnil, hroot⟩ | ⟨rest, hstem, heq, -⟩ := stem_cases h
  · rw [if_pos hnil, hroot]
  · rw [hstem, if_neg (cons_ne_nil _ _), heq]

/-- A path but for its last component. -/
theorem dirname_pathOf (h : ∀ name ∈ base ++ [part], IsName name) :
    dirname (pathOf (base ++ [part])) = pathOf base := by
  have hbase : ∀ name ∈ base, IsName name := fun name hname => h name (List.mem_append_left _ hname)
  have hpart := h part (by simp)
  have hcanonical := canonical_pathOf h
  rw [← stem_pathOf hbase (cons_ne_nil _ _), List.intercalate_singleton] at hcanonical ⊢
  exact dirname_below (canonical_pathOf hbase) hpart.2 hcanonical

/-- A path is a child of its parent. -/
theorem dirname_eq_iff {path : Text} (hpath : isCanonicalPath path = true)
    (hroot : path ≠ [0x2f]) (h : isCanonicalPath directory = true) :
    dirname path = directory ↔ ∃ part, componentsOf path = componentsOf directory ++ [part] := by
  have hnames := fun part => @isName_of_mem path part hpath
  have hne : componentsOf path ≠ [] := by
    intro hnil
    rw [← pathOf_componentsOf hpath, hnil] at hroot
    exact hroot rfl
  obtain ⟨base, part, hparts⟩ := (List.eq_nil_or_concat (componentsOf path)).resolve_left hne
  rw [List.concat_eq_append] at hparts
  have hdirname : dirname path = pathOf base := by
    rw [← pathOf_componentsOf hpath, hparts]
    exact dirname_pathOf (hparts ▸ hnames)
  have hbase : ∀ name ∈ base, IsName name := fun name hname =>
    hnames name (by rw [hparts]; exact List.mem_append_left _ hname)
  rw [hdirname]
  constructor
  · rintro rfl
    exact ⟨part, by rw [componentsOf_pathOf hbase, hparts]⟩
  · rintro ⟨last, hlast⟩
    rw [hparts] at hlast
    rw [(List.append_inj' hlast rfl).1, pathOf_componentsOf h]

-- Mounts beside each other

section Table

variable {table : MountTable} {mount other : Mount} {path : Text}

theorem MountTable.ok (hmount : mount ∈ table.mounts) : mount.Ok := table.canonical mount hmount

/-- No mount lies under another, and two have not the same path. -/
theorem MountTable.apart_of_mem (hmount : mount ∈ table.mounts) (hother : other ∈ table.mounts) :
    isUnder other.path mount.path = false ∧ (other.path = mount.path → other = mount) := by
  by_cases heq : mount = other
  · subst heq
    exact ⟨isUnder_irrefl (MountTable.ok hmount).1, fun _ => rfl⟩
  · have hsymm : Std.Symm fun mount other => apart mount other = true :=
      ⟨fun a b hab => by
        simp only [apart, Bool.and_eq_true, decide_eq_true_eq, Bool.not_eq_true'] at hab ⊢
        exact ⟨⟨Ne.symm hab.1.1, hab.2⟩, hab.1.2⟩⟩
    have hapart := table.separate.forall hmount hother heq
    simp only [apart, Bool.and_eq_true, decide_eq_true_eq, Bool.not_eq_true'] at hapart
    exact ⟨hapart.1.2, fun hpath => absurd hpath hapart.1.1⟩

/-- A path in a mount has the mount's components first. -/
theorem inMount_iff_components (h : mount.Ok) (hpath : isCanonicalPath path = true) :
    inMount mount path = true ↔ componentsOf mount.path <+: componentsOf path := by
  rw [inMount_iff h hpath, ← isUnder_iff hpath h.1, isUnder_iff_components hpath h.1]
  constructor
  · rintro (rfl | ⟨more, -, hmore⟩)
    · exact List.prefix_refl _
    · exact ⟨more, hmore.symm⟩
  · rintro ⟨more, hmore⟩
    by_cases hnil : more = []
    · rw [hnil, append_nil] at hmore
      exact .inl (componentsOf_injective hpath h.1 hmore.symm)
    · exact .inr ⟨more, hnil, hmore.symm⟩

/-- What lies in two mounts lies in one. -/
theorem MountTable.eq_of_inMount (hmount : mount ∈ table.mounts) (hother : other ∈ table.mounts)
    (hpath : isCanonicalPath path = true) (hin : inMount mount path = true)
    (hin' : inMount other path = true) : mount = other := by
  have hle : ∀ {m m' : Mount}, m ∈ table.mounts → m' ∈ table.mounts →
      componentsOf m.path <+: componentsOf m'.path → m = m' := by
    rintro m m' hm hm' ⟨more, hmore⟩
    have hapart := MountTable.apart_of_mem hm hm'
    by_cases hnil : more = []
    · rw [hnil, append_nil] at hmore
      exact (hapart.2 (componentsOf_injective (MountTable.ok hm').1 (MountTable.ok hm).1
        hmore.symm)).symm
    · have hunder := (isUnder_iff_components (MountTable.ok hm').1 (MountTable.ok hm).1).2
        ⟨more, hnil, hmore.symm⟩
      rw [hapart.1] at hunder
      cases hunder
  obtain hbelow | hbelow :=
    List.prefix_or_prefix_of_prefix ((inMount_iff_components (MountTable.ok hmount) hpath).1 hin)
      ((inMount_iff_components (MountTable.ok hother) hpath).1 hin')
  · exact hle hmount hother hbelow
  · exact (hle hother hmount hbelow).symm

-- Synthetic directories

theorem mem_zip_prefixPaths {pair : Text × Text} :
    pair ∈ (prefixPaths base parts).zip (prefixPaths base parts).tail ↔
      ∃ before part rest, parts = before ++ part :: rest ∧
        pair = (pathOf (base ++ before), pathOf (base ++ before ++ [part])) := by
  induction parts generalizing base with
  | nil =>
    refine iff_of_false (by simp [prefixPaths]) ?_
    rintro ⟨before, part, rest, hparts, -⟩
    simp at hparts
  | cons first parts ih =>
    have hhead : ∃ tail, prefixPaths (base ++ [first]) parts = pathOf (base ++ [first]) :: tail := by
      cases parts with
      | nil => exact ⟨_, rfl⟩
      | cons next rest => exact ⟨_, rfl⟩
    obtain ⟨tail, htail⟩ := hhead
    have hrest := @ih (base ++ [first])
    rw [htail, tail_cons] at hrest
    rw [prefixPaths, tail_cons, htail, List.zip_cons_cons, mem_cons, hrest]
    constructor
    · rintro (rfl | ⟨before, part, rest, rfl, rfl⟩)
      · exact ⟨[], first, parts, rfl, by simp⟩
      · exact ⟨first :: before, part, rest, rfl, by simp⟩
    · rintro ⟨before, part, rest, hparts, rfl⟩
      cases before with
      | nil =>
        obtain ⟨rfl, rfl⟩ := List.cons.inj hparts
        exact .inl (by simp)
      | cons head before =>
        obtain ⟨rfl, rfl⟩ := List.cons.inj hparts
        exact .inr ⟨before, part, rest, rfl, by simp⟩

/-- The pairs on the way to the mounts: a path, and the path of one more component. -/
theorem mem_childPairs {child : Text} : (directory, child) ∈ childPairs table.mounts ↔
      isCanonicalPath directory = true ∧ isCanonicalPath child = true ∧
        ∃ mount ∈ table.mounts, ∃ part rest,
          componentsOf child = componentsOf directory ++ [part] ∧
          componentsOf mount.path = componentsOf directory ++ part :: rest := by
  unfold childPairs
  rw [List.mem_flatMap]
  constructor
  · rintro ⟨mount, hmount, hpair⟩
    have hok := MountTable.ok hmount
    rw [prefixesOf_canonical hok.1, mem_zip_prefixPaths] at hpair
    obtain ⟨before, part, rest, hparts, hpair⟩ := hpair
    obtain ⟨rfl, rfl⟩ := Prod.mk.inj hpair
    rw [List.nil_append]
    have hnames := fun name => @isName_of_mem mount.path name hok.1
    have hbefore : ∀ name ∈ before, IsName name := fun name hname =>
      hnames name (by rw [hparts]; exact List.mem_append_left _ hname)
    have hlast : ∀ name ∈ before ++ [part], IsName name := by
      intro name hname
      refine hnames name ?_
      rw [hparts]
      simp only [mem_append, mem_cons] at hname ⊢
      obtain hname | hname | hname := hname
      · exact .inl hname
      · exact .inr (.inl hname)
      · cases hname
    refine ⟨canonical_pathOf hbefore, canonical_pathOf hlast, mount, hmount, part, rest, ?_, ?_⟩
    · rw [componentsOf_pathOf hlast, componentsOf_pathOf hbefore]
    · rw [componentsOf_pathOf hbefore, hparts]
  · rintro ⟨hdir, hchild, mount, hmount, part, rest, hparts, hmore⟩
    have hok := MountTable.ok hmount
    refine ⟨mount, hmount, ?_⟩
    rw [prefixesOf_canonical hok.1, mem_zip_prefixPaths]
    refine ⟨componentsOf directory, part, rest, hmore, ?_⟩
    rw [List.nil_append, ← hparts, pathOf_componentsOf hdir, pathOf_componentsOf hchild]

theorem mem_sortPaths {paths : List Text} : path ∈ sortPaths paths ↔ path ∈ paths :=
  List.mem_mergeSort

/-- The synthetic directories are the proper ancestors of the mounts, and `/` without mounts. -/
theorem mem_synthetic :
    path ∈ table.synthetic ↔
      isCanonicalPath path = true ∧
        ((∃ mount ∈ table.mounts, isUnder mount.path path = true) ∨
          (table.mounts = [] ∧ path = [0x2f])) := by
  unfold MountTable.synthetic
  rw [mem_sortPaths, List.mem_dedup, mem_append, List.mem_map]
  constructor
  · rintro (⟨⟨directory, child⟩, hpair, rfl⟩ | hroot)
    · obtain ⟨hdir, -, mount, hmount, part, rest, -, hmore⟩ := mem_childPairs.1 hpair
      refine ⟨hdir, .inl ⟨mount, hmount, ?_⟩⟩
      exact (isUnder_iff_components (MountTable.ok hmount).1 hdir).2
        ⟨part :: rest, cons_ne_nil _ _, hmore⟩
    · split at hroot
      · rename_i hnone
        rw [List.mem_singleton] at hroot
        subst hroot
        exact ⟨rfl, .inr ⟨hnone, rfl⟩⟩
      · cases hroot
  · rintro ⟨hpath, ⟨mount, hmount, hunder⟩ | ⟨hnone, rfl⟩⟩
    · have hok := MountTable.ok hmount
      obtain ⟨more, hmore, hparts⟩ := (isUnder_iff_components hok.1 hpath).1 hunder
      obtain ⟨part, rest, rfl⟩ := List.exists_cons_of_ne_nil hmore
      have hnames : ∀ name ∈ componentsOf path ++ [part], IsName name := by
        intro name hname
        refine isName_of_mem hok.1 ?_
        rw [hparts]
        simp only [mem_append, mem_cons] at hname ⊢
        obtain hname | hname | hname := hname
        · exact .inl hname
        · exact .inr (.inl hname)
        · cases hname
      refine .inl ⟨(path, pathOf (componentsOf path ++ [part])), ?_, rfl⟩
      exact mem_childPairs.2 ⟨hpath, canonical_pathOf hnames, mount, hmount, part, rest,
        componentsOf_pathOf hnames, hparts⟩
    · exact .inr (by simp [hnone])

theorem mem_childrenOf {child : Text} :
    child ∈ table.childrenOf directory ↔ (directory, child) ∈ childPairs table.mounts := by
  unfold MountTable.childrenOf
  rw [mem_sortPaths, List.mem_dedup, List.mem_map]
  constructor
  · rintro ⟨⟨directory', child'⟩, hpair, rfl⟩
    rw [List.mem_filter, decide_eq_true_eq] at hpair
    obtain ⟨hpair, rfl⟩ := hpair
    exact hpair
  · exact fun hpair => ⟨_, List.mem_filter.2 ⟨hpair, decide_eq_true rfl⟩, rfl⟩

theorem canonical_of_synthetic (h : path ∈ table.synthetic) : isCanonicalPath path = true :=
  (mem_synthetic.1 h).1

/-- A synthetic directory lies in no mount. -/
theorem not_inMount_of_synthetic (h : path ∈ table.synthetic) (hmount : mount ∈ table.mounts) :
    inMount mount path = false := by
  have hok := MountTable.ok hmount
  obtain ⟨hpath, ⟨other, hother, hunder⟩ | ⟨hnone, -⟩⟩ := mem_synthetic.1 h
  · rw [← Bool.not_eq_true]
    intro hin
    have hbelow : isUnder other.path mount.path = true := by
      obtain rfl | ⟨rest, hrest, heq⟩ := (inMount_iff hok hpath).1 hin
      · exact hunder
      · exact isUnder_trans (MountTable.ok hother).1 hpath hok.1 hunder
          (isUnder_canonical hpath hok.1 hrest heq)
    rw [(MountTable.apart_of_mem hmount hother).1] at hbelow
    cases hbelow
  · rw [hnone] at hmount
    cases hmount

/-- What a mount shows under a synthetic directory, it shows with its own path. -/
theorem isUnder_of_synthetic (h : directory ∈ table.synthetic)
    (hmount : mount ∈ table.mounts) (hpath : isCanonicalPath path = true)
    (hin : inMount mount path = true) (hunder : isUnder path directory = true) :
    isUnder mount.path directory = true := by
  have hok := MountTable.ok hmount
  have hdir := canonical_of_synthetic h
  have hout := not_inMount_of_synthetic h hmount
  rw [← Bool.not_eq_true, inMount_iff_components hok hdir] at hout
  obtain ⟨more, hmore, hparts⟩ := (isUnder_iff_components hpath hdir).1 hunder
  obtain hbelow | hbelow := List.prefix_or_prefix_of_prefix
    ((inMount_iff_components hok hpath).1 hin) ⟨more, hparts.symm⟩
  · exact absurd hbelow hout
  · obtain ⟨between, hbetween⟩ := hbelow
    refine (isUnder_iff_components hok.1 hdir).2 ⟨between, ?_, hbetween.symm⟩
    rintro rfl
    rw [append_nil] at hbetween
    exact hout ⟨[], by rw [append_nil, hbetween]⟩

/-- Strictly ordered: the paths of a sorted list without repeats. -/
theorem sortPaths_ordered {paths : List Text} (h : paths.Nodup) :
    (sortPaths paths).Pairwise fun path other => pathLt path other := by
  have hnodup : (sortPaths paths).Nodup := (List.mergeSort_perm _ _).nodup_iff.2 h
  exact ((sort_ordered id paths).and hnodup).imp fun hboth => pathLt_of_le_of_ne hboth.1 hboth.2

-- Places

/-- The mounts are formed and may all stand beside each other. -/
structure Standing (specs : List Mount) : Prop where
  formed : ∀ mount ∈ specs, mount.Formed
  separate : specs.Pairwise fun mount other => apart mount other = true

variable {specs : List Mount}

theorem overlaps_sorted : overlaps (sortMounts specs) = [] ↔
    specs.Pairwise fun mount other => apart mount other = true := by
  refine overlaps_eq_nil.trans ((List.mergeSort_perm _ _).pairwise_iff fun h => ?_)
  grind [apart]

theorem mountTable_ok (h : mountTable specs = .ok table) :
    table.mounts.Perm specs ∧ Standing specs := by
  unfold mountTable at h
  split at h
  · cases h
  next hcheck =>
  split at h
  · cases h
  next hover =>
  cases h
  exact ⟨List.mergeSort_perm _ _, checkMounts_eq_ok.1 hcheck, overlaps_sorted.1 hover⟩

theorem mountTable_standing (h : Standing specs) : ∃ table, mountTable specs = .ok table := by
  unfold mountTable
  split
  · next hcheck => exact nomatch hcheck.symm.trans (checkMounts_eq_ok.2 h.formed)
  split
  · next hover => exact nomatch hover.symm.trans (overlaps_sorted.2 h.separate)
  · exact ⟨_, rfl⟩

theorem virtualOf_realIn (h : mount.Ok) (hpath : isCanonicalPath path = true)
    (hin : inMount mount path = true) : virtualOf mount (realIn mount path) = path := by
  obtain rfl | ⟨rest, hrest, rfl⟩ := (inMount_iff h hpath).1 hin
  · rw [realIn_path h, virtualOf_source h]
  · rw [realIn_below hrest, virtualOf_below hrest]

/-- A table is made of mounts that may stand beside each other and of no others.  In it a path lies
in one mount, which shows it under its own path again, or above the mounts, or nowhere. -/
theorem mountTable_places (specs : List Mount) :
    ((∃ table, mountTable specs = .ok table) ↔ Standing specs) ∧
      ∀ table, mountTable specs = .ok table → ∀ path, isCanonicalPath path = true →
        (∀ mount rest, table.place path = .mount mount rest ↔
          mount ∈ specs ∧ inMount mount path = true ∧ rest = restOf mount path ∧
            virtualOf mount (realOf mount rest) = path) ∧
        (table.place path = .synthetic ↔
          (∃ mount ∈ specs, isUnder mount.path path = true) ∨ specs = [] ∧ path = [0x2f]) := by
  refine ⟨⟨fun ⟨_, h⟩ => (mountTable_ok h).2, mountTable_standing⟩, fun table h path hpath => ?_⟩
  have hperm := (mountTable_ok h).1
  have hsynthetic : path ∈ table.synthetic ↔
      (∃ mount ∈ specs, isUnder mount.path path = true) ∨ specs = [] ∧ path = [0x2f] := by
    rw [mem_synthetic, and_iff_right hpath, ← List.perm_nil, ← List.perm_nil,
      hperm.congr_left]
    simp only [hperm.mem_iff]
  rw [← hsynthetic]
  simp only [← hperm.mem_iff]
  unfold MountTable.place
  cases hfind : table.mounts.find? (inMount · path) with
  | none =>
    have hnone := List.find?_eq_none.1 hfind
    refine ⟨fun mount rest => iff_of_false ?_ fun hin => hnone mount hin.1 hin.2.1, ?_⟩
    · split_ifs <;> nofun
    · split_ifs <;> simp_all
  | some found =>
    have hfound := List.mem_of_find?_eq_some hfind
    have hin : inMount found path = true := by simpa using List.find?_some hfind
    constructor
    · intro mount rest
      constructor
      · intro heq
        obtain ⟨rfl, rfl⟩ := Place.mount.inj heq
        exact ⟨hfound, hin, rfl, virtualOf_realIn (MountTable.ok hfound) hpath hin⟩
      · rintro ⟨hmount, hmountIn, rfl, -⟩
        rw [MountTable.eq_of_inMount hfound hmount hpath hin hmountIn]
    · refine iff_of_false nofun fun h => ?_
      rw [not_inMount_of_synthetic h hfound] at hin
      cases hin

end Table

end Kompjutr.Fs.Mounted
