/-
  Kompjutr.Push.PlanSound

  What a plan that was answered says about the old values of its updates.

  The commits of all sources are collected into one graph, and an old value passes when it is
  anywhere in it.  So it is an ancestor of some source, which need not be its own.
-/
import Kompjutr.Commits.Validate
import Kompjutr.Push.Plan

namespace Kompjutr.Push

open Objects (Text text isOid ObjectType Commit)
open Commits (CommitStore parentsWithin walkIndexedOwned noLimits)
open RecursiveUnion (Reaches)
open Fuel (Run bind_eq_ok map_eq_ok foldlM_taken forM_ok mapM_mem mapM_answer)
open Fuel.Run (Gives gives_mk gives_pure gives_bind gives_map gives_ofExcept gives_foldlM)

variable {final : Text} {next : PlannedCommits}

variable {oid : Text} {state : RootResolutionState} {oids : List Text} {root : ResolvedRoot}
  {roots : Roots} {commits : PlannedCommits} {fuel : Nat} {update : PushPlanningUpdate}
  {updates : List PushPlanningUpdate} {collected : Collected}

variable {repo : Repository}

-- Roots

/-- Following the tags from the first object ends at the second, which has this type. -/
inductive Peels (repo : Repository) : Text → Text → ObjectType → Prop
  | object {oid : Text} {info : ObjectInfo} (hinfo : repo.objectInfo oid = .ok info)
      (htype : info.type ≠ .tag) : Peels repo oid oid info.type
  | tag {oid final : Text} {type : ObjectType} {info : ObjectInfo} {target : TagTarget}
      (hinfo : repo.objectInfo oid = .ok info) (htype : info.type = .tag)
      (htag : readTag repo oid = .ok target) (hrest : Peels repo target.object final type) :
      Peels repo oid final type

/-- The tags from an object to the end. -/
inductive TagPath (repo : Repository) : Text → List Text → Text → Prop
  | nil (oid : Text) : TagPath repo oid [] oid
  | cons {oid final : Text} {tags : List Text} {info : ObjectInfo} {target : TagTarget}
      (hinfo : repo.objectInfo oid = .ok info) (htype : info.type = .tag)
      (htag : readTag repo oid = .ok target) (hrest : TagPath repo target.object tags final) :
      TagPath repo oid (oid :: tags) final

theorem TagPath.peels {tags : List Text} {type : ObjectType} (h : TagPath repo oid tags final)
    (hlast : ∃ info, repo.objectInfo final = .ok info ∧ info.type = type) (hnot : type ≠ .tag) :
    Peels repo oid final type := by
  induction h with
  | nil oid =>
    obtain ⟨info, hinfo, rfl⟩ := hlast
    exact .object hinfo hnot
  | cons hinfo htype htag _ ih => exact .tag hinfo htype htag (ih hlast)

/-- The end of the tags has its type. -/
theorem Peels.info {type : ObjectType} (h : Peels repo oid final type) :
    ∃ info, repo.objectInfo final = .ok info ∧ info.type = type := by
  induction h with
  | object hinfo _ => exact ⟨_, hinfo, rfl⟩
  | tag _ _ _ _ ih => exact ih

/-- What is recorded was read. -/
structure Recorded (repo : Repository) (state : RootResolutionState) : Prop where
  types : ∀ found ∈ state.types, ∃ info, repo.objectInfo found.1 = .ok info ∧ info.type = found.2
  tags : ∀ found ∈ state.tags, readTag repo found.1 = .ok found.2

theorem mem_of_lookup {β : Type} {list : List (Text × β)} {key : Text} {value : β}
    (h : list.lookup key = some value) : (key, value) ∈ list := by
  obtain ⟨before, after, rfl, -⟩ := List.lookup_eq_some_iff.1 h
  exact List.mem_append_right _ List.mem_cons_self

theorem Recorded.info (h : Recorded repo state)
    {type : ObjectType} (htype : typeAt state oid = some type) :
    ∃ info, repo.objectInfo oid = .ok info ∧ info.type = type :=
  h.types (oid, type) (mem_of_lookup htype)

theorem Recorded.readTag (h : Recorded repo state)
    {tag : TagTarget} (htag : tagAt state oid = some tag) : readTag repo oid = .ok tag :=
  h.tags (oid, tag) (mem_of_lookup htag)

theorem recordObjects_recorded {next : RootResolutionState}
    (h : Recorded repo state) (hrun : recordObjects repo oids state = .ok next) :
    Recorded repo next := by
  unfold recordObjects at hrun
  obtain ⟨-, -, hrun⟩ := bind_eq_ok.1 hrun
  obtain ⟨types, htypes, hrun⟩ := bind_eq_ok.1 hrun
  obtain ⟨tags, htags, rfl⟩ := map_eq_ok.1 hrun
  constructor
  · intro found hfound
    rcases List.mem_append.1 hfound with hfound | hfound
    · exact h.types found hfound
    · obtain ⟨oid, -, hoid⟩ := mapM_mem htypes hfound
      obtain ⟨info, hinfo, rfl⟩ := map_eq_ok.1 hoid
      exact ⟨info, hinfo, rfl⟩
  · intro found hfound
    rcases List.mem_append.1 hfound with hfound | hfound
    · exact h.tags found hfound
    · obtain ⟨typed, -, htyped⟩ := mapM_mem htags hfound
      obtain ⟨tag, htag, rfl⟩ := map_eq_ok.1 htyped
      exact htag

theorem recordRounds_recorded {rounds : Nat} {frontier : List Text}
    {last : RootResolutionState} (h : Recorded repo state)
    (hrun : recordRounds repo rounds frontier state = .ok last) : Recorded repo last := by
  induction rounds generalizing frontier state with
  | zero =>
    rw [← Except.ok.inj hrun]
    exact h
  | succ rounds ih =>
    unfold recordRounds at hrun
    split at hrun
    · rw [← Except.ok.inj hrun]
      exact h
    obtain ⟨next, hnext, hrun⟩ := bind_eq_ok.1 hrun
    obtain ⟨targets, -, hrun⟩ := bind_eq_ok.1 hrun
    split at hrun
    · cases hrun
    · exact ih (recordObjects_recorded h hnext) hrun

/-- The tags that were followed lead from `start` to the end. -/
theorem followTags_tagPath (h : Recorded repo state)
    {turns : Nat} {tags : List Text} {start : Text} {followed : List Text}
    (hrun : followTags state oid turns tags start = .ok (final, followed)) :
    ∃ more, followed = tags ++ more ∧ TagPath repo start more final := by
  induction turns generalizing tags start with
  | zero =>
    unfold followTags at hrun
    split at hrun
    · cases hrun
      exact ⟨[], (List.append_nil _).symm, .nil _⟩
    · split at hrun <;> cases hrun
  | succ turns ih =>
    unfold followTags at hrun
    split at hrun
    · cases hrun
      exact ⟨[], (List.append_nil _).symm, .nil _⟩
    next htag =>
    split at hrun
    · cases hrun
    cases hread : tagAt state start with
    | none =>
      rw [hread] at hrun
      cases hrun
    | some target =>
      rw [hread] at hrun
      dsimp only at hrun
      split at hrun
      · cases hrun
      split at hrun
      · cases hrun
      obtain ⟨info, hinfo, hsame⟩ := h.info (not_not.1 htag)
      obtain ⟨more, rfl, hpath⟩ := ih hrun
      exact ⟨start :: more, by rw [List.append_assoc]; rfl, .cons hinfo hsame (h.readTag hread) hpath⟩

/-- What is known of the root of an object. -/
structure RootOf (repo : Repository) (oid : Text) (root : ResolvedRoot) : Prop where
  peels : Peels repo oid root.finalOid root.finalType
  direct : root.directType = .commit → root.finalOid = oid ∧ root.finalType = .commit

/-- The root of an object, with its tags. -/
structure TagsOf (repo : Repository) (oid : Text) (root : ResolvedRoot) : Prop where
  path : TagPath repo oid root.tags root.finalOid
  final : ∃ info, repo.objectInfo root.finalOid = .ok info ∧ info.type = root.finalType
  not_tag : root.finalType ≠ .tag

theorem resolveRoot_of (h : Recorded repo state) (hrun : resolveRoot state oid = .ok root) :
    RootOf repo oid root ∧ TagsOf repo oid root := by
  unfold resolveRoot at hrun
  split at hrun
  · cases hrun
  next directType hdirect =>
  obtain ⟨⟨final, tags⟩, hfollow, hrun⟩ := bind_eq_ok.1 hrun
  dsimp only at hrun
  split at hrun
  · cases hrun
  · cases hrun
  next finalType hnot hfinal =>
  rw [← Except.ok.inj hrun]
  obtain ⟨more, hmore, hpath⟩ := followTags_tagPath h hfollow
  rw [List.nil_append] at hmore
  refine ⟨⟨hpath.peels (h.info hfinal) hnot, fun hcommit => ?_⟩, hmore ▸ hpath, h.info hfinal, hnot⟩
  dsimp only at hcommit ⊢
  unfold followTags at hfollow
  rw [hdirect, hcommit, if_pos (by decide)] at hfollow
  cases hfollow
  rw [hdirect, hcommit] at hfinal
  exact ⟨rfl, (Option.some.inj hfinal).symm⟩

theorem resolveRoots_mem
    (h : resolveRoots repo oids = .ok roots) {found : Text × ResolvedRoot} (hfound : found ∈ roots) :
    found.1 ∈ oids ∧ RootOf repo found.1 found.2 ∧ TagsOf repo found.1 found.2 := by
  unfold resolveRoots at h
  obtain ⟨state, hstate, h⟩ := bind_eq_ok.1 h
  have hrecorded : Recorded repo state := by
    refine recordRounds_recorded ?_ hstate
    exact ⟨nofun, nofun⟩
  obtain ⟨oid, hoid, hanswer⟩ := mapM_mem h hfound
  obtain ⟨root, hroot, rfl⟩ := map_eq_ok.1 hanswer
  exact ⟨hoid, resolveRoot_of hrecorded hroot⟩

theorem rootAt_mem (h : rootAt roots oid = .ok root) : (oid, root) ∈ roots := by
  unfold rootAt at h
  split at h
  · cases h
  next found hfound =>
  rw [← Except.ok.inj h]
  exact mem_of_lookup hfound

theorem rootAt_of_resolveRoots (h : resolveRoots repo oids = .ok roots)
    (hroot : rootAt roots oid = .ok root) : RootOf repo oid root :=
  (resolveRoots_mem h (rootAt_mem hroot)).2.1

-- Commit graphs

theorem hasCommit_iff : hasCommit commits oid = true ↔ oid ∈ commits.map PlannedCommit.oid := by
  unfold hasCommit commitAt
  rw [List.find?_isSome, List.mem_map]
  constructor
  · rintro ⟨commit, hmem, heq⟩
    exact ⟨commit, hmem, of_decide_eq_true heq⟩
  · rintro ⟨commit, hmem, heq⟩
    exact ⟨commit, hmem, decide_eq_true heq⟩

theorem collectCommit_oids {item : Text × Commit}
    (h : collectCommit commits item = .ok next) (oid : Text) :
    oid ∈ next.map PlannedCommit.oid ↔ oid ∈ commits.map PlannedCommit.oid ∨ oid = item.1 := by
  unfold collectCommit at h
  split at h
  · next prior hprior =>
    split at h
    · cases h
    rw [← Except.ok.inj h]
    have hmem : item.1 ∈ commits.map PlannedCommit.oid :=
      hasCommit_iff.1 (by rw [hasCommit, hprior]; rfl)
    exact ⟨.inl, fun hor => hor.elim id fun heq => heq ▸ hmem⟩
  · rw [← Except.ok.inj h, List.map_append, List.mem_append, List.map_singleton,
      List.mem_singleton]

section

variable {root : Text} {info : ObjectInfo} (hinfo : repo.objectInfo root = .ok info)
  (htype : info.type = .commit)

include hinfo htype

/-- A commit peels to itself. -/
theorem peel_commit : repo.walk.peel root = .ok root := by
  have htypeOf := repo.typeOf_of_objectInfo hinfo
  rw [htype] at htypeOf
  have hlookup : ∀ target, Merge.typeOf { store := repo.store, tagTarget := target } root =
      .ok .commit := by
    intro target
    rw [Merge.typeOf, htypeOf]
  unfold Repository.walk Merge.Repository.walk Merge.peel Merge.peelFrom
  dsimp only
  rw [hlookup]
  rfl

theorem collectCommitGraph_oids (h : Gives (collectCommitGraph repo fuel commits root) next)
    (oid : Text) :
    oid ∈ next.map PlannedCommit.oid ↔
      oid ∈ commits.map PlannedCommit.oid ∨ Reaches (parentsWithin repo.store) root oid := by
  unfold collectCommitGraph at h
  obtain ⟨⟨items, failed⟩, hwalk, h⟩ := Option.map_eq_some_iff.1 (gives_mk.1 h)
  obtain ⟨collected, hcollected, h⟩ := bind_eq_ok.1 h
  cases failed with
  | some error => cases h
  | none =>
    rw [Except.ok.inj h] at hcollected
    obtain ⟨-, hreaches, -⟩ := Commits.walkIndexedOwned_ok (peel_commit hinfo htype) hwalk
    have hstore : repo.walk.store = repo.store := rfl
    rw [hstore] at hreaches
    rw [← hreaches]
    refine foldlM_taken (fun taken (commits' : PlannedCommits) =>
      oid ∈ commits'.map PlannedCommit.oid ↔
        oid ∈ commits.map PlannedCommit.oid ∨ oid ∈ taken.map Prod.fst) ?_ ?_ hcollected
    · intro taken before item after _ hbefore hstep
      rw [collectCommit_oids hstep, hbefore, List.map_append, List.mem_append, List.map_singleton,
        List.mem_singleton, or_assoc]
    · simp

end

/-- The collected commits are the histories of the roots. -/
theorem collectCommitGraphs_oids {roots : List Text}
    (hroots : ∀ root ∈ roots, ∃ info, repo.objectInfo root = .ok info ∧ info.type = .commit)
    (h : Gives (collectCommitGraphs repo roots fuel) commits) (oid : Text) :
    hasCommit commits oid = true ↔
      ∃ root ∈ roots, Reaches (parentsWithin repo.store) root oid := by
  rw [hasCommit_iff]
  refine gives_foldlM (fun taken (commits : PlannedCommits) =>
    oid ∈ commits.map PlannedCommit.oid ↔
      ∃ root ∈ taken, Reaches (parentsWithin repo.store) root oid) ?_ ?_ h
  · intro taken before root after hroot hbefore hstep
    obtain ⟨info, hinfo, htype⟩ := hroots root hroot
    rw [collectCommitGraph_oids hinfo htype hstep, hbefore]
    simp only [List.mem_append, List.mem_singleton]
    constructor
    · rintro (⟨other, hother, hreaches⟩ | hreaches)
      · exact ⟨other, .inl hother, hreaches⟩
      · exact ⟨root, .inr rfl, hreaches⟩
    · rintro ⟨other, hother | rfl, hreaches⟩
      · exact .inl ⟨other, hother, hreaches⟩
      · exact .inr hreaches
  · simp

-- Namespaces

/-- A ref outside `refs/tags` that exists gets another object without force. -/
structure Guarded (update : PushPlanningUpdate) (oid : Text) : Prop where
  oid_eq : update.oid = some oid
  replaces : replaces update oid = true
  not_tag : isTag update.destination = false

/-- The commits that the old value of an update stands for. -/
def NamesOld (repo : Repository) (update : PushPlanningUpdate) (old : Text) : Prop :=
  old = update.oldOid ∨
    (isBranch update.destination = false ∧ Peels repo update.oldOid old .commit)

/-- The old value of the update is an ancestor of the commit. -/
def HasOld (repo : Repository) (update : PushPlanningUpdate) (source : Text) : Prop :=
  ∃ old, NamesOld repo update old ∧ Reaches (parentsWithin repo.store) source old

theorem replaces_iff : replaces update oid = true ↔
      update.oldOid ≠ zeroOid ∧ update.oldOid ≠ oid ∧ update.force = false := by
  unfold replaces
  simp only [Bool.and_eq_true, decide_eq_true_eq, Bool.not_eq_true', and_assoc]

theorem customBoundary_names {oldOid boundary : Text}
    (h : customBoundary repo oldOid commits = .ok (some boundary)) :
    hasCommit commits boundary = true ∧
      (boundary = oldOid ∨ Peels repo oldOid boundary .commit) := by
  unfold customBoundary at h
  split at h
  · next hcommit =>
    rw [← Option.some.inj (Except.ok.inj h)]
    exact ⟨hcommit, .inl rfl⟩
  · split at h
    · split at h <;> cases h
    · next old hold =>
      obtain ⟨roots, hroots, hroot⟩ := bind_eq_ok.1 hold
      have hof := rootAt_of_resolveRoots hroots hroot
      split at h
      · next hfound =>
        rw [Bool.and_eq_true, decide_eq_true_eq] at hfound
        rw [← Option.some.inj (Except.ok.inj h)]
        have hpeels := hof.peels
        rw [hfound.1] at hpeels
        exact ⟨hfound.2, .inr hpeels⟩
      · cases h

/-- An old value that passes is among the collected commits. -/
theorem namespaceBoundary_names {added : List Text} (hguarded : Guarded update oid)
    (h : namespaceBoundary repo commits update oid root = .ok added) :
    (isBranch update.destination = true ∨ root.finalType = .commit) ∧
      ∃ old, NamesOld repo update old ∧ hasCommit commits old = true := by
  obtain ⟨hexists, hchanges, hforce⟩ := replaces_iff.1 hguarded.replaces
  unfold namespaceBoundary at h
  rw [if_neg hchanges] at h
  by_cases hbranch : isBranch update.destination = true
  · rw [if_pos hbranch, if_pos (by simp [hexists, hforce])] at h
    split at h
    · next hcommit => exact ⟨.inl hbranch, update.oldOid, .inl rfl, hcommit⟩
    · cases h
  · rw [if_neg hbranch, hguarded.not_tag, if_neg Bool.false_ne_true, if_neg hexists,
      if_pos (by simp [hforce])] at h
    split at h
    · cases h
    next hcommit =>
    obtain ⟨boundary, hboundary, h⟩ := bind_eq_ok.1 h
    cases boundary with
    | none => cases h
    | some boundary =>
      obtain ⟨hmem, hnames⟩ := customBoundary_names hboundary
      refine ⟨.inr (not_not.1 hcommit), boundary, ?_, hmem⟩
      exact hnames.imp_right fun hpeels => ⟨by simpa using hbranch, hpeels⟩

/-- An old value is an ancestor of the source of some update. -/
def OfSomeSource (repo : Repository) (updates : List PushPlanningUpdate)
    (update : PushPlanningUpdate) : Prop :=
  ∃ other ∈ updates, ∃ oid source, other.oid = some oid ∧ Peels repo oid source .commit ∧
    HasOld repo update source

/-- An old value is an ancestor of the update's own source. -/
def OfOwnSource (repo : Repository) (update : PushPlanningUpdate) (oid : Text) : Prop :=
  ∃ source, Peels repo oid source .commit ∧ HasOld repo update source

theorem mem_sortTexts {texts : List Text} : oid ∈ sortTexts texts ↔ oid ∈ texts :=
  (List.mergeSort_perm texts _).mem_iff

theorem mem_sortUpdates : update ∈ sortUpdates updates ↔ update ∈ updates :=
  (List.mergeSort_perm updates _).mem_iff

/-- The steps of `collect`, and what they leave. -/
structure Collects (repo : Repository) (updates : List PushPlanningUpdate) (collected : Collected) :
    Prop where
  roots : resolveRoots repo (sortTexts (updates.filterMap PushPlanningUpdate.oid).eraseDups) =
    .ok collected.roots
  kinds : requireNamespaceKinds updates collected.roots = .ok ()
  mem_commits : ∀ oid, hasCommit collected.commits oid = true ↔
    ∃ root ∈ collected.roots, root.2.finalType = .commit ∧
      Reaches (parentsWithin repo.store) root.2.finalOid oid
  rules : requireNamespaceRules repo updates collected.roots collected.commits =
    .ok collected.boundaries

theorem collect_collects
    (h : Gives (collect repo updates fuel) collected) : Collects repo updates collected := by
  unfold collect at h
  obtain ⟨roots, hroots, h⟩ := gives_bind.1 h
  obtain ⟨⟨⟩, hkinds, h⟩ := gives_bind.1 h
  obtain ⟨commits, hcommits, h⟩ := gives_bind.1 h
  obtain ⟨boundaries, hrules, h⟩ := gives_bind.1 h
  rw [← gives_pure.1 h]
  have hroots := gives_ofExcept.1 hroots
  refine { roots := hroots, kinds := gives_ofExcept.1 hkinds, mem_commits := fun oid => ?_
           rules := gives_ofExcept.1 hrules }
  have hmem : ∀ final, final ∈ ((roots.filter fun root => root.2.finalType = .commit).map
      fun root => root.2.finalOid).eraseDups ↔
      ∃ root ∈ roots, root.2.finalType = .commit ∧ root.2.finalOid = final := by
    intro final
    rw [List.mem_eraseDups, List.mem_map]
    simp only [List.mem_filter, decide_eq_true_eq, and_assoc]
  rw [collectCommitGraphs_oids ?_ hcommits]
  · simp only [hmem]
    constructor
    · rintro ⟨final, ⟨root, hroot, htype, rfl⟩, hreaches⟩
      exact ⟨root, hroot, htype, hreaches⟩
    · rintro ⟨root, hroot, htype, hreaches⟩
      exact ⟨root.2.finalOid, ⟨root, hroot, htype, rfl⟩, hreaches⟩
  · intro final hfinal
    obtain ⟨root, hroot, htype, rfl⟩ := (hmem final).1 hfinal
    obtain ⟨info, hinfo, hsame⟩ := (resolveRoots_mem hroots hroot).2.1.peels.info
    exact ⟨info, hinfo, hsame.trans htype⟩

/-- The rule that was checked for an update. -/
theorem Collects.rule
    (h : Collects repo updates collected) (hupdate : update ∈ updates)
    (hoid : update.oid = some oid) :
    ∃ root added, RootOf repo oid root ∧ directCommit update root = .ok () ∧
      namespaceBoundary repo collected.commits update oid root = .ok added := by
  have hrule := foldlM_taken (fun taken (_ : List Text) => ∀ update ∈ taken, ∃ before after,
    requireNamespaceRule repo collected.roots collected.commits before update = .ok after) ?_ ?_
    h.rules
  · obtain ⟨before, after, hstep⟩ := hrule update hupdate
    unfold requireNamespaceRule at hstep
    rw [hoid] at hstep
    obtain ⟨root, hroot, hstep⟩ := bind_eq_ok.1 hstep
    obtain ⟨⟨⟩, hdirect, hstep⟩ := bind_eq_ok.1 hstep
    obtain ⟨added, hadded, -⟩ := map_eq_ok.1 hstep
    exact ⟨root, added, rootAt_of_resolveRoots h.roots hroot, hdirect, hadded⟩
  · intro taken before update after _ htaken hstep other hother
    rcases List.mem_append.1 hother with hother | hother
    · exact htaken other hother
    · rw [List.mem_singleton.1 hother]
      exact ⟨before, after, hstep⟩
  · exact nofun

/-- The source of a guarded update is a commit, and its old value an ancestor of some source. -/
theorem Collects.guarded
    (h : Collects repo updates collected) (hupdate : update ∈ updates)
    (hguarded : Guarded update oid) : OfSomeSource repo updates update := by
  obtain ⟨root, added, -, -, hboundary⟩ := h.rule hupdate hguarded.oid_eq
  obtain ⟨-, old, hnames, hold⟩ := namespaceBoundary_names hguarded hboundary
  obtain ⟨other, hother, htype, hreaches⟩ := (h.mem_commits old).1 hold
  obtain ⟨hoid, hof, -⟩ := resolveRoots_mem h.roots hother
  rw [mem_sortTexts, List.mem_eraseDups, List.mem_filterMap] at hoid
  obtain ⟨source, hsource, hsourceOid⟩ := hoid
  have hpeels := hof.peels
  rw [htype] at hpeels
  exact ⟨source, hsource, other.1, other.2.finalOid, hsourceOid, hpeels, old, hnames, hreaches⟩

/-- No tag that exists gets another object without force. -/
theorem Collects.tag {updates : List PushPlanningUpdate} {collected : Collected}
    (h : Collects repo updates collected) {update : PushPlanningUpdate} (hupdate : update ∈ updates)
    {oid : Text} (hoid : update.oid = some oid) (htag : isTag update.destination = true) :
    replaces update oid = false := by
  have hkind : requireNamespaceKind collected.roots update = .ok () :=
    forM_ok h.kinds hupdate
  unfold requireNamespaceKind at hkind
  rw [hoid] at hkind
  obtain ⟨root, -, hkind⟩ := bind_eq_ok.1 hkind
  obtain ⟨-, -, hkind⟩ := bind_eq_ok.1 hkind
  obtain ⟨⟨⟩, hreject, -⟩ := bind_eq_ok.1 hkind
  rw [reject_eq_ok, htag, Bool.true_and] at hreject
  exact hreject

-- Plans

/-- A plan that was answered collected its updates and planned their objects. -/
theorem planPushUpdates_plan {options : PushPlanOptions} {plan : PushPlan}
    (h : Gives (planPushUpdates repo updates options fuel) (some plan)) :
    ∃ limits collected, normalizedOptions options = .ok limits ∧
      Gives (collect repo (sortUpdates updates) fuel) collected ∧
      Gives (planObjects repo (sortUpdates updates) limits collected fuel) plan := by
  unfold planPushUpdates at h
  have h := gives_mk.1 h
  split at h
  · cases h
  next limits hlimits =>
  obtain ⟨answer, hanswer, hplan⟩ := Option.map_eq_some_iff.1 h
  cases answer with
  | error error => cases hplan
  | ok answer =>
    rw [Except.ok.inj hplan] at hanswer
    have hgives : Gives (planUpdates repo updates limits fuel) (some plan) := hanswer
    unfold planUpdates at hgives
    obtain ⟨⟨⟩, -, hgives⟩ := gives_bind.1 hgives
    dsimp only at hgives
    split at hgives
    · exact absurd (gives_pure.1 hgives) nofun
    obtain ⟨⟨⟩, -, hgives⟩ := gives_bind.1 hgives
    obtain ⟨collected, hcollected, hgives⟩ := gives_bind.1 hgives
    obtain ⟨planned, hplanned, hsome⟩ := gives_map.1 hgives
    rw [Option.some.inj hsome] at hplanned
    exact ⟨limits, collected, hlimits, hcollected, hplanned⟩

/-- Every guarded update keeps its old value in its own history, and no tag is replaced. -/
def KeepsHistory (repo : Repository) (updates : List PushPlanningUpdate) : Prop :=
  (∀ update ∈ updates, ∀ oid, Guarded update oid → OfOwnSource repo update oid) ∧
    ∀ update ∈ updates, ∀ oid, update.oid = some oid → isTag update.destination = true →
      replaces update oid = false

/-- No old value is an ancestor of other sources only. -/
def OwnSourcesFirst (repo : Repository) (updates : List PushPlanningUpdate) : Prop :=
  ∀ update ∈ updates, ∀ oid, Guarded update oid → OfSomeSource repo updates update →
    OfOwnSource repo update oid

def rootOid (digit : UInt16) : Text := List.replicate 39 0x30 ++ [digit]

def emptyTree : Trees.TreeSource :=
  { complete := true, objectSize := 0, entryCount := 0, baseCost := 0, entries := [] }

/-- Two root commits with an empty tree. -/
def rootsRepo : Repository where
  store :=
    { Commits.mergeStore "12" 200 with
      typeOf := fun oid => some (if oid = zeroOid then .tree else .commit) }
  objectInfo := fun oid =>
    .ok { type := if oid = zeroOid then .tree else .commit, size := 200, source := .loose }
  promisedMissing := fun _ => false
  readObject := fun _ => .error (corrupt "object is not readable")
  readTree := fun oid =>
    if oid = zeroOid then .ok emptyTree else .error (corrupt "tree is not readable")
  trees := fun oid => if oid = zeroOid then some emptyTree else none
  typeOf_of_objectInfo := by
    intro oid info h
    rw [← Except.ok.inj h]

def branchUpdate (name : String) (oid oldOid : Text) : PushPlanningUpdate :=
  { source := some oid, destination := text name, oid := some oid, force := false, oldOid }

/-- The first branch moves to the commit with this digit; the second one is new. -/
def twoBranches (digit : UInt16) : List PushPlanningUpdate :=
  [branchUpdate "refs/heads/a" (rootOid digit) (rootOid 0x32),
    branchUpdate "refs/heads/b" (rootOid 0x32) zeroOid]

def remoteHas (oids : List Text) : PushPlanOptions :=
  { maxObjects := none, maxCommits := none, remoteOids := oids }

def commitRoot (oid : Text) : Text × ResolvedRoot :=
  (oid, { directType := .commit, finalOid := oid, finalType := .commit, tags := [] })

def plannedRoot (oid : Text) : PlannedCommit := { oid, tree := zeroOid, parents := [] }

/-- The first branch moves to an unrelated commit, which the remote has; its old value is the
    source of the second one. -/
theorem replaced_plan : Gives (planPushUpdates rootsRepo (twoBranches 0x31)
    (remoteHas [rootOid 0x31]) 20) (some { objects := [], newCommits := 0 }) := by
  let roots := [commitRoot (rootOid 0x31), commitRoot (rootOid 0x32)]
  let commits := [plannedRoot (rootOid 0x31), plannedRoot (rootOid 0x32)]
  let limits : NormalizedPushPlanOptions :=
    { maxObjects := maxPushObjects, maxCommits := maxPushCommits, remoteOids := [rootOid 0x31] }
  have hupdates : sortUpdates (twoBranches 0x31) = twoBranches 0x31 :=
    List.mergeSort_of_pairwise (by decide +kernel)
  have hsources : sortTexts ((twoBranches 0x31).filterMap PushPlanningUpdate.oid).eraseDups =
      [rootOid 0x31, rootOid 0x32] := List.mergeSort_of_pairwise (by decide +kernel)
  have hactive : sortTexts (activeRoots (twoBranches 0x31)).eraseDups =
      [rootOid 0x31, rootOid 0x32] := List.mergeSort_of_pairwise (by decide +kernel)
  have hcollect : Gives (collect rootsRepo (twoBranches 0x31) 20)
      { roots, commits, boundaries := [rootOid 0x32] } := by
    unfold collect
    dsimp only
    rw [hsources]
    refine gives_bind.2 ⟨roots, gives_ofExcept.2 (by decide +kernel), ?_⟩
    refine gives_bind.2 ⟨(), gives_ofExcept.2 (by decide +kernel), ?_⟩
    refine gives_bind.2 ⟨commits, gives_mk.2 (by decide +kernel), ?_⟩
    exact gives_bind.2 ⟨[rootOid 0x32], gives_ofExcept.2 (by decide +kernel), gives_pure.2 rfl⟩
  have hplan : Gives (planObjects rootsRepo (twoBranches 0x31) limits
      { roots, commits, boundaries := [rootOid 0x32] } 20) { objects := [], newCommits := 0 } := by
    unfold planObjects
    dsimp only
    rw [hactive]
    refine gives_bind.2 ⟨[rootOid 0x32, rootOid 0x31], gives_mk.2 (by decide +kernel), ?_⟩
    refine gives_bind.2 ⟨[], gives_ofExcept.2 (by decide +kernel), ?_⟩
    refine gives_bind.2 ⟨(), gives_ofExcept.2 (by decide +kernel), ?_⟩
    refine gives_bind.2 ⟨{ objects := [], trees := rootsRepo.trees }, gives_pure.2 rfl, ?_⟩
    refine gives_bind.2 ⟨{ objects := [], trees := rootsRepo.trees }, rfl, ?_⟩
    refine gives_bind.2 ⟨[], gives_ofExcept.2 (by decide +kernel), ?_⟩
    exact gives_bind.2 ⟨(), gives_ofExcept.2 (by decide +kernel), gives_pure.2 rfl⟩
  have hupdatesPlan : Gives (planUpdates rootsRepo (twoBranches 0x31) limits 20)
      (some { objects := [], newCommits := 0 }) := by
    unfold planUpdates
    refine gives_bind.2 ⟨(), gives_ofExcept.2 (by decide +kernel), ?_⟩
    dsimp only
    rw [hupdates]
    refine gives_bind.2 ⟨(), gives_ofExcept.2 (by decide +kernel), ?_⟩
    exact gives_bind.2 ⟨_, hcollect, gives_map.2 ⟨_, hplan, rfl⟩⟩
  have hlimits : normalizedOptions (remoteHas [rootOid 0x31]) = .ok limits := by decide +kernel
  unfold planPushUpdates
  rw [hlimits]
  exact gives_mk.2 (Option.map_eq_some_iff.2 ⟨_, hupdatesPlan, rfl⟩)

theorem not_keepsHistory : ¬ KeepsHistory rootsRepo (twoBranches 0x31) := by
  rintro ⟨hkeeps, -⟩
  have hguarded : Guarded (branchUpdate "refs/heads/a" (rootOid 0x31) (rootOid 0x32))
      (rootOid 0x31) :=
    { oid_eq := rfl, replaces := by decide +kernel, not_tag := by decide +kernel }
  obtain ⟨source, hpeels, old, hnames, hreaches⟩ := hkeeps _ List.mem_cons_self _ hguarded
  have hold : old = rootOid 0x32 := by
    rcases hnames with hold | ⟨hnot, -⟩
    · exact hold
    · exact absurd hnot (by decide +kernel)
  have hself : ∀ final type, Peels rootsRepo (rootOid 0x31) final type → final = rootOid 0x31 := by
    intro final type h
    cases h with
    | object _ _ => rfl
    | tag hinfo htype _ _ =>
      rw [← Except.ok.inj hinfo] at htype
      exact absurd htype (by decide +kernel)
  rw [hself source _ hpeels, hold] at hreaches
  cases Relation.ReflTransGen.cases_head hreaches with
  | inl heq => exact absurd heq (by decide +kernel)
  | inr hstep =>
    obtain ⟨parent, hparent, -⟩ := hstep
    have hwithin : parent ∈ parentsWithin (Commits.mergeStore "12" 200) (rootOid 0x31) := hparent
    exact absurd (Commits.parentsWithin_merge.1 hwithin).1 (by decide +kernel)

end Kompjutr.Push
