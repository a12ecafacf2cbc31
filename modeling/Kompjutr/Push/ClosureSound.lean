/-
  Kompjutr.Push.ClosureSound

  The objects of a plan: what the changed sources reach and the remote does not, each once.

  A new commit adds what its tree has beyond the tree of its first parent.  The commits have
  no cycle, so by induction over them every object of a new commit's tree is planned, or is
  reached from a commit that the remote has.
-/
import Kompjutr.Lib.Acyclic
import Kompjutr.Push.PlanSound
import Kompjutr.Trees.WalkSound

namespace Kompjutr.Push

open Objects (Text isOid ObjectType Commit)
open Commits (CommitStore parentsWithin walkIndexedOwned noLimits)
open RecursiveUnion (Reaches)
open Trees (TreeObject Projected InTree objectAt completeCommit)
open Fuel (Run bind_eq_ok map_eq_ok foldlM_taken forM_ok mapM_mem mapM_answer)
open Fuel.Run (Gives gives_mk gives_pure gives_bind gives_map gives_ofExcept gives_ofOption
  gives_foldlM)
open List (mem_append mem_cons mem_cons_of_mem mem_cons_self mem_map mem_singleton)

variable {commit : PlannedCommit} {last : ObjectInfo} {oids starts : List Text}

variable {oid final : Text} {root : ResolvedRoot} {tags : List Text} {roots : Roots}
  {commits : PlannedCommits} {fuel : Nat} {planned : PlannedCommit} {state next : Planning}
  {limits : NormalizedPushPlanOptions}

variable {repo : Repository}

-- Reachable objects

/-- The commit that a commit id stands for in the store. -/
def StoredCommit (repo : Repository) (oid : Text) (commit : Commit) : Prop :=
  ∃ entry, repo.store.cachedCommit oid = some entry ∧
    completeCommit repo.store.read entry = .ok commit

/-- What is reached from an object: the target of a tag, the parents and the tree of a commit, the
    entries of a tree that are no gitlinks. -/
inductive Reachable (repo : Repository) (start : Text × ObjectType) : Text × ObjectType → Prop
  | start : Reachable repo start start
  | tag {oid : Text} {target : TagTarget} {info : ObjectInfo} (hreach : Reachable repo start (oid, .tag))
      (htag : readTag repo oid = .ok target) (hinfo : repo.objectInfo target.object = .ok info) :
      Reachable repo start (target.object, info.type)
  | parent {oid parent : Text} {commit : Commit} (hreach : Reachable repo start (oid, .commit))
      (hcommit : StoredCommit repo oid commit) (hparent : parent ∈ commit.parent) :
      Reachable repo start (parent, .commit)
  | tree {oid : Text} {commit : Commit} (hreach : Reachable repo start (oid, .commit))
      (hcommit : StoredCommit repo oid commit) : Reachable repo start (commit.tree, .tree)
  | entry {oid : Text} {source : Trees.TreeSource} {entry : Trees.TreeEntry}
      {object : Text × ObjectType} (hreach : Reachable repo start (oid, .tree))
      (hsource : repo.readTree oid = .ok source) (hentry : entry ∈ source.entries)
      (hobject : objectAt (Trees.sideOf entry) = some object) : Reachable repo start object

variable {object : Text × ObjectType}

theorem Reachable.trans {start middle : Text × ObjectType}
    (h : Reachable repo start middle) (hrest : Reachable repo middle object) :
    Reachable repo start object := by
  induction hrest with
  | start => exact h
  | tag _ htag hinfo ih => exact .tag ih htag hinfo
  | parent _ hcommit hparent ih => exact .parent ih hcommit hparent
  | tree _ hcommit ih => exact .tree ih hcommit
  | entry _ hsource hentry hobject ih => exact .entry ih hsource hentry hobject

/-- What the repository has to be: no commit is its own ancestor, and the rows of its trees are
    those of their objects. -/
structure Complete (repo : Repository) : Prop where
  acyclic : ∀ oid, ¬ Relation.TransGen
    (fun oid parent => ∃ commit, StoredCommit repo oid commit ∧ parent ∈ commit.parent) oid oid
  projected : Projected repo.readTree repo.trees

theorem StoredCommit.unique {commit other : Commit} (h : StoredCommit repo oid commit)
    (hother : StoredCommit repo oid other) : commit = other := by
  obtain ⟨entry, hentry, hcommit⟩ := h
  obtain ⟨same, hsame, hcommit'⟩ := hother
  rw [hentry] at hsame
  rw [← Option.some.inj hsame, hcommit] at hcommit'
  exact Except.ok.inj hcommit'

/-- The sides of a tree's paths, as far as they are objects, are reached from it. -/
theorem reachable_of_inTree {root : Text} {side : Trees.Side} (h : InTree repo.readTree root side) :
    ∀ object, objectAt side = some object → Reachable repo (root, .tree) object := by
  induction h with
  | root =>
    intro object hobject
    rw [← Option.some.inj hobject]
    exact .start
  | entry _ htree hsource hentry ih =>
    intro object hobject
    exact .entry (ih _ (Trees.objectAt_tree htree)) hsource hentry hobject

theorem reachable_of_treeObject {root : Text}
    (h : TreeObject repo.readTree root object) : Reachable repo (root, .tree) object := by
  obtain ⟨side, hside, hobject⟩ := h
  exact reachable_of_inTree hside object hobject

theorem treeObject_root (readTree : Trees.TreeReader) (root : Text) :
    TreeObject readTree root (root, .tree) := ⟨_, .root, rfl⟩

/-- An entry of a tree of the tree. -/
theorem treeObject_entry {root : Text} {source : Trees.TreeSource} {entry : Trees.TreeEntry} (h : TreeObject repo.readTree root (oid, .tree))
    (hsource : repo.readTree oid = .ok source) (hentry : entry ∈ source.entries)
    (hobject : objectAt (Trees.sideOf entry) = some object) :
    TreeObject repo.readTree root object := by
  obtain ⟨side, hside, hat⟩ := h
  have hplain : objectAt { mode := .tree, oid } = some (oid, .tree) := rfl
  obtain ⟨htree, hoid⟩ : Trees.isTreeMode side.mode = true ∧ side.oid = oid :=
    @Trees.tree_of_objectAt { mode := .tree, oid } side rfl (hat.trans hplain.symm)
  rw [← hoid] at hsource
  exact ⟨_, .entry hside htree hsource hentry, hobject⟩

-- Tags

/-- Every tag of the path leads on along it. -/
theorem TagPath.step {oid final : Text} {tags : List Text} (h : TagPath repo oid tags final)
    {tag : Text} (hmem : tag ∈ tags) :
    (∃ info, repo.objectInfo tag = .ok info ∧ info.type = .tag) ∧
      ∃ target, readTag repo tag = .ok target ∧ (target.object ∈ tags ∨ target.object = final) := by
  induction h with
  | nil oid => nomatch hmem
  | @cons oid final tags info target hinfo htype htag hrest ih =>
    rcases mem_cons.1 hmem with rfl | hmem
    · refine ⟨⟨info, hinfo, htype⟩, target, htag, ?_⟩
      cases hrest with
      | nil _ => exact .inr rfl
      | cons _ _ _ _ => exact .inl (mem_cons_of_mem _ mem_cons_self)
    · obtain ⟨hinfo', target', htag', hnext⟩ := ih hmem
      exact ⟨hinfo', target', htag', hnext.imp_left (mem_cons_of_mem _)⟩

theorem TagPath.start (h : TagPath repo oid tags final) : oid ∈ tags ∨ oid = final := by
  cases h with
  | nil _ => exact .inr rfl
  | cons _ _ _ _ => exact .inl mem_cons_self

theorem TagPath.info (h : TagPath repo oid tags final) (hlast : repo.objectInfo final = .ok last) :
    ∃ info, repo.objectInfo oid = .ok info := by
  cases h with
  | nil _ => exact ⟨last, hlast⟩
  | cons hinfo _ _ _ => exact ⟨_, hinfo⟩

/-- The end of the tags is reached from the first object. -/
theorem TagPath.reachable (h : TagPath repo oid tags final)
    {info : ObjectInfo} (hinfo : repo.objectInfo oid = .ok info)
    (hlast : repo.objectInfo final = .ok last) :
    Reachable repo (oid, info.type) (final, last.type) ∧
      ∀ tag ∈ tags, Reachable repo (oid, info.type) (tag, .tag) := by
  have hall : ∀ {start : Text × ObjectType} {oid final : Text} {tags : List Text}
      {info last : ObjectInfo}, TagPath repo oid tags final → repo.objectInfo oid = .ok info →
      repo.objectInfo final = .ok last → Reachable repo start (oid, info.type) →
      Reachable repo start (final, last.type) ∧
        ∀ tag ∈ tags, Reachable repo start (tag, .tag) := by
    intro start oid final tags info last h
    induction h generalizing info with
    | nil oid =>
      intro hinfo hlast hstart
      rw [hinfo] at hlast
      rw [← Except.ok.inj hlast]
      exact ⟨hstart, nofun⟩
    | @cons oid final tags found target hfound htype htag hrest ih =>
      intro hinfo hlast hstart
      rw [hinfo] at hfound
      rw [← Except.ok.inj hfound] at htype
      rw [htype] at hstart
      obtain ⟨next, hnext⟩ := hrest.info hlast
      obtain ⟨hfinal, htags⟩ := ih hnext hlast (.tag hstart htag hnext)
      refine ⟨hfinal, fun tag hmem => ?_⟩
      rcases mem_cons.1 hmem with rfl | hmem
      · exact hstart
      · exact htags tag hmem
  exact hall h hinfo hlast .start

-- Collected commits

/-- The collected commits are stored, each once. -/
structure Gathered (repo : Repository) (commits : PlannedCommits) : Prop where
  nodup : (commits.map PlannedCommit.oid).Nodup
  stored : ∀ planned ∈ commits, ∃ commit, StoredCommit repo planned.oid commit ∧
    planned.tree = commit.tree ∧ planned.parents = commit.parent

theorem collectCommit_gathered {next : PlannedCommits} {item : Text × Commit}
    (h : Gathered repo commits) (hstored : StoredCommit repo item.1 item.2)
    (hstep : collectCommit commits item = .ok next) : Gathered repo next := by
  unfold collectCommit at hstep
  split at hstep
  · split at hstep
    · cases hstep
    · rw [← Except.ok.inj hstep]
      exact h
  · next hnone =>
    rw [← Except.ok.inj hstep]
    have hnew : item.1 ∉ commits.map PlannedCommit.oid := by
      intro hmem
      have hsome := hasCommit_iff.2 hmem
      rw [hasCommit, hnone] at hsome
      cases hsome
    constructor
    · rw [List.map_append, List.map_singleton, ← List.concat_eq_append]
      exact h.nodup.concat hnew
    · exact List.forall_mem_append.2
        ⟨h.stored, List.forall_mem_singleton.2 ⟨item.2, hstored, rfl, rfl⟩⟩

theorem collectCommitGraphs_gathered {roots : List Text}
    (hroots : ∀ root ∈ roots, ∃ info, repo.objectInfo root = .ok info ∧ info.type = .commit)
    (h : Gives (collectCommitGraphs repo roots fuel) commits) : Gathered repo commits := by
  refine gives_foldlM (fun _ (commits : PlannedCommits) => Gathered repo commits) ?_ ?_ h
  · intro taken before root after hroot hbefore hstep
    obtain ⟨info, hinfo, htype⟩ := hroots root hroot
    unfold collectCommitGraph at hstep
    obtain ⟨⟨items, failed⟩, hwalk, hstep⟩ := Option.map_eq_some_iff.1 (gives_mk.1 hstep)
    obtain ⟨collected, hcollected, hstep⟩ := bind_eq_ok.1 hstep
    cases failed with
    | some error => cases hstep
    | none =>
      rw [Except.ok.inj hstep] at hcollected
      obtain ⟨-, -, hstored⟩ := Commits.walkIndexedOwned_ok (peel_commit hinfo htype) hwalk
      exact Fuel.foldlM_ok (Gathered repo)
        (fun commits item next hitem hgathered hnext =>
          collectCommit_gathered hgathered (hstored item hitem) hnext) hbefore hcollected
  · exact { nodup := List.nodup_nil, stored := nofun }

/-- The commit that was collected under an id. -/
theorem Gathered.commitAt (h : Gathered repo commits)
    (hplanned : commitAt commits oid = some planned) :
    planned ∈ commits ∧ planned.oid = oid ∧ ∃ commit, StoredCommit repo oid commit ∧
      planned.tree = commit.tree ∧ planned.parents = commit.parent := by
  unfold Push.commitAt at hplanned
  have hmem := List.mem_of_find?_eq_some hplanned
  have hfound := List.find?_some hplanned
  have hoid : planned.oid = oid := of_decide_eq_true hfound
  obtain ⟨commit, hstored, hsame⟩ := h.stored planned hmem
  rw [hoid] at hstored
  exact ⟨hmem, hoid, commit, hstored, hsame⟩

theorem commitAt_exists (h : hasCommit commits oid = true) :
    ∃ planned, commitAt commits oid = some planned := Option.isSome_iff_exists.1 h

-- Excluded commits

/-- Every commit of an exclusion is reached from one of these. -/
def ReachedFrom (repo : Repository) (starts : List Text) (oid : Text) : Prop :=
  ∃ start ∈ starts, Reachable repo (start, .commit) (oid, .commit)

theorem enqueue_pending {state : Exclusion}
    {P : Text → Prop} (hoid : P oid) (hpending : ∀ other ∈ state.pending, P other) :
    ∀ other ∈ (enqueue commits state oid).pending, P other := by
  unfold enqueue
  split
  · exact hpending
  · intro other hother
    rcases mem_cons.1 hother with rfl | hother
    · exact hoid
    · exact hpending other hother

theorem enqueue_excluded (commits : PlannedCommits) (state : Exclusion) (oid : Text) :
    (enqueue commits state oid).excluded = state.excluded := by
  unfold enqueue
  split <;> rfl

theorem foldl_enqueue {commits : PlannedCommits} {oids : List Text} {state : Exclusion}
    {P : Text → Prop} (hoids : ∀ oid ∈ oids, P oid) (hpending : ∀ other ∈ state.pending, P other) :
    (oids.foldl (enqueue commits) state).excluded = state.excluded ∧
      ∀ other ∈ (oids.foldl (enqueue commits) state).pending, P other := by
  induction oids generalizing state with
  | nil => exact ⟨rfl, hpending⟩
  | cons oid oids ih =>
    obtain ⟨hexcluded, hall⟩ := ih (fun other hother => hoids other (mem_cons_of_mem _ hother))
      (enqueue_pending (hoids oid mem_cons_self) hpending)
    exact ⟨hexcluded.trans (enqueue_excluded commits state oid), hall⟩

theorem excludeLoop_reached (hgathered : Gathered repo commits) {state : Exclusion}
    {excluded : List Text}
    (hexcluded : ∀ oid ∈ state.excluded, ReachedFrom repo starts oid)
    (hpending : ∀ oid ∈ state.pending, ReachedFrom repo starts oid)
    (h : excludeLoop commits fuel state = some excluded) :
    ∀ oid ∈ excluded, ReachedFrom repo starts oid := by
  induction fuel generalizing state with
  | zero => cases h
  | succ fuel ih =>
    unfold excludeLoop at h
    split at h
    · rw [← Option.some.inj h]
      exact hexcluded
    next oid pending hstate =>
    have hrest : ∀ other ∈ pending, ReachedFrom repo starts other :=
      fun other hother => hpending other (hstate ▸ mem_cons_of_mem _ hother)
    have hoid : ReachedFrom repo starts oid := hpending oid (hstate ▸ mem_cons_self)
    split at h
    · exact @ih { state with pending } hexcluded hrest h
    have hadded : ∀ other ∈ oid :: state.excluded, ReachedFrom repo starts other := by
      intro other hother
      rcases mem_cons.1 hother with rfl | hother
      · exact hoid
      · exact hexcluded other hother
    dsimp only at h
    split at h
    · exact ih hadded hrest h
    next planned hplanned =>
    obtain ⟨-, -, commit, hstored, -, hparents⟩ := hgathered.commitAt hplanned
    have hparent : ∀ parent ∈ planned.parents, ReachedFrom repo starts parent := by
      intro parent hparent
      obtain ⟨start, hstart, hreach⟩ := hoid
      exact ⟨start, hstart, .parent hreach hstored (hparents ▸ hparent)⟩
    obtain ⟨hsame, hall⟩ := @foldl_enqueue commits planned.parents
      { excluded := oid :: state.excluded, pending } _ hparent hrest
    exact ih (by rw [hsame]; exact hadded) hall h

/-- An excluded commit is an ancestor of what the remote is known to have. -/
theorem excludedCommits_reached (hgathered : Gathered repo commits) {excluded : List Text}
    (h : excludedCommits commits starts fuel = some excluded) :
    ∀ oid ∈ excluded, ReachedFrom repo starts oid := by
  obtain ⟨hsame, hall⟩ := @foldl_enqueue commits starts { excluded := [], pending := [] }
    (ReachedFrom repo starts) (fun start hstart => ⟨start, hstart, .start⟩)
    nofun
  refine excludeLoop_reached hgathered (by rw [hsame]; exact fun _ h => absurd h List.not_mem_nil)
    hall h

-- Planned objects

/-- A step of planning: it keeps the objects, and what it adds has this property. -/
structure Adds (repo : Repository) (P : Text × ObjectType → Prop) (state next : Planning) : Prop where
  nodup : (state.objects.map Prod.fst).Nodup → (next.objects.map Prod.fst).Nodup
  projected : Projected repo.readTree state.trees → Projected repo.readTree next.trees
  kept : ∀ object ∈ state.objects, object ∈ next.objects
  added : ∀ object ∈ next.objects, object ∈ state.objects ∨ P object

theorem Adds.refl {P : Text × ObjectType → Prop} (state : Planning) : Adds repo P state state :=
  { nodup := id, projected := id, kept := fun _ => id, added := fun _ => .inl }

theorem Adds.trans {P Q : Text × ObjectType → Prop} {middle last : Planning}
    (h : Adds repo P state middle) (hrest : Adds repo Q middle last) :
    Adds repo (fun object => P object ∨ Q object) state last where
  nodup := fun hnodup => hrest.nodup (h.nodup hnodup)
  projected := fun hprojected => hrest.projected (h.projected hprojected)
  kept := fun object hobject => hrest.kept object (h.kept object hobject)
  added := by
    intro object hobject
    rcases hrest.added object hobject with hobject | hobject
    · exact (h.added object hobject).imp_right .inl
    · exact .inr (.inr hobject)

theorem addObject_ok {objects next : PlannedObjects} (h : addObject limits objects object = .ok next) :
    ((objects.map Prod.fst).Nodup → (next.map Prod.fst).Nodup) ∧
      ∀ other, other ∈ next ↔ other ∈ objects ∨ other = object := by
  unfold addObject at h
  split at h
  · next prior hprior =>
    split at h
    · cases h
    next hsame =>
    rw [← Except.ok.inj h]
    have hmem : object ∈ objects := by
      have := mem_of_lookup hprior
      rw [not_not.1 hsame] at this
      exact this
    exact ⟨id, fun other => ⟨.inl, fun hor => hor.elim id fun heq => heq ▸ hmem⟩⟩
  · next hnone =>
    obtain ⟨⟨⟩, -, rfl⟩ := map_eq_ok.1 h
    have hnew : object.1 ∉ objects.map Prod.fst := by
      intro hmem
      obtain ⟨other, hother, heq⟩ := mem_map.1 hmem
      have hlookup := List.lookup_eq_none_iff.1 hnone other hother
      rw [heq] at hlookup
      simp at hlookup
    refine ⟨fun hnodup => ?_, fun other => by rw [mem_append, mem_singleton]⟩
    rw [List.map_append, List.map_singleton]
    refine List.Nodup.append hnodup (List.nodup_singleton _) fun oid hoid hlast => ?_
    rw [mem_singleton.1 hlast] at hoid
    exact hnew hoid

theorem addObjects_ok {limits : NormalizedPushPlanOptions} {added : PlannedObjects}
    {state next : Planning} (h : addObjects limits added state = .ok next) :
    Adds repo (· ∈ added) state next ∧ ∀ object ∈ added, object ∈ next.objects := by
  unfold addObjects at h
  obtain ⟨objects, hobjects, rfl⟩ := map_eq_ok.1 h
  obtain ⟨hnodup, hmem⟩ := foldlM_taken (fun taken (objects : PlannedObjects) =>
    ((state.objects.map Prod.fst).Nodup → (objects.map Prod.fst).Nodup) ∧
      ∀ other, other ∈ objects ↔ other ∈ state.objects ∨ other ∈ taken)
    (fun taken before object after _ hbefore hstep => by
      obtain ⟨hkeys, hafter⟩ := addObject_ok hstep
      refine ⟨fun hnodup => hkeys (hbefore.1 hnodup), fun other => ?_⟩
      rw [hafter, hbefore.2, mem_append, mem_singleton, or_assoc])
    ⟨id, fun other => by simp⟩ hobjects
  refine ⟨{ nodup := hnodup, projected := id, kept := ?_, added := ?_ }, ?_⟩
  · exact fun object hobject => (hmem object).2 (.inl hobject)
  · exact fun object hobject => (hmem object).1 hobject
  · exact fun object hobject => (hmem object).2 (.inr hobject)

theorem addTransition_ok {before : Option Text} {after : Text}
    (hprojected : Projected repo.readTree state.trees)
    (h : Gives (addTransition repo limits before after fuel state) next) :
    Adds repo (TreeObject repo.readTree after) state next ∧
      ∀ object, TreeObject repo.readTree after object → object ∈ next.objects ∨
        ∃ root, before = some root ∧ TreeObject repo.readTree root object := by
  unfold addTransition at h
  obtain ⟨⟨objects, trees⟩, hwalk, h⟩ := gives_bind.1 h
  obtain ⟨hgrown, honly, hall⟩ := Trees.iterateTreeDiffObjects_ok hprojected (gives_mk.1 hwalk)
  obtain ⟨hadds, hmem⟩ := @addObjects_ok repo _ _ _ _ (gives_ofExcept.1 h)
  refine ⟨{ nodup := hadds.nodup, projected := fun _ => hadds.projected hgrown
            kept := hadds.kept, added := ?_ }, ?_⟩
  · exact fun object hobject => (hadds.added object hobject).imp_right (honly object)
  · exact fun object hobject => (hall object hobject).imp_left (hmem object)

/-- An object of a new commit: the commit itself, or one of its tree. -/
def CommitObject (repo : Repository) (commit : PlannedCommit) (object : Text × ObjectType) : Prop :=
  object = (commit.oid, .commit) ∨ TreeObject repo.readTree commit.tree object

theorem addCommitObjects_ok (hprojected : Projected repo.readTree state.trees)
    (h : Gives (addCommitObjects repo limits commits fuel state commit) next) :
    Adds repo (CommitObject repo commit) state next ∧ (commit.oid, .commit) ∈ next.objects ∧
      ∀ object, TreeObject repo.readTree commit.tree object → object ∈ next.objects ∨
        ∃ oid ∈ commit.parents, ∃ parent, commitAt commits oid = some parent ∧
          TreeObject repo.readTree parent.tree object := by
  unfold addCommitObjects at h
  obtain ⟨started, hstarted, h⟩ := gives_bind.1 h
  obtain ⟨hstart, hmem⟩ := @addObjects_ok repo _ _ _ _ (gives_ofExcept.1 hstarted)
  have hcommit := hmem _ (List.mem_singleton_self _)
  have hgrown := hstart.projected hprojected
  have hadds : ∀ {last}, Adds repo (TreeObject repo.readTree commit.tree) started last →
      Adds repo (CommitObject repo commit) state last := by
    intro last hlast
    have htrans := hstart.trans hlast
    refine { nodup := htrans.nodup, projected := htrans.projected, kept := htrans.kept
             added := fun object hobject => (htrans.added object hobject).imp_right ?_ }
    exact Or.imp_left mem_singleton.1
  split at h
  · obtain ⟨hlast, hall⟩ := addTransition_ok hgrown h
    refine ⟨hadds hlast, hlast.kept _ hcommit, fun object hobject => ?_⟩
    rcases hall object hobject with hobject | ⟨root, hnone, -⟩
    · exact .inl hobject
    · cases hnone
  · next firstParent hfirst =>
    split at h
    · exact absurd (gives_ofExcept.1 h) nofun
    next parent hparent =>
    obtain ⟨hlast, hall⟩ := addTransition_ok hgrown h
    refine ⟨hadds hlast, hlast.kept _ hcommit, fun object hobject => ?_⟩
    rcases hall object hobject with hobject | ⟨root, hroot, hbefore⟩
    · exact .inl hobject
    · rw [← Option.some.inj hroot] at hbefore
      exact .inr ⟨firstParent, List.mem_of_head? hfirst, parent, hparent, hbefore⟩

/-- An object of a changed source that is no commit, or one of its tags. -/
def RootObject (repo : Repository) (root : ResolvedRoot) (object : Text × ObjectType) : Prop :=
  (∃ tag ∈ root.tags, object = (tag, .tag)) ∨
    (root.finalType = .tree ∧ TreeObject repo.readTree root.finalOid object) ∨
    (root.finalType = .blob ∧ object = (root.finalOid, .blob))

theorem addRootObjects_ok (hprojected : Projected repo.readTree state.trees)
    (h : Gives (addRootObjects repo limits roots fuel state oid) next) :
    ∃ root, rootAt roots oid = .ok root ∧ Adds repo (RootObject repo root) state next ∧
      ∀ object, RootObject repo root object → object ∈ next.objects := by
  unfold addRootObjects at h
  obtain ⟨root, hroot, h⟩ := gives_bind.1 h
  obtain ⟨tagged, htagged, h⟩ := gives_bind.1 h
  obtain ⟨hstart, hmem⟩ := @addObjects_ok repo _ _ _ _ (gives_ofExcept.1 htagged)
  have hgrown := hstart.projected hprojected
  have htags : ∀ tag ∈ root.tags, (tag, ObjectType.tag) ∈ tagged.objects :=
    fun tag htag => hmem _ (mem_map.2 ⟨tag, htag, rfl⟩)
  have hadds : ∀ {P : Text × ObjectType → Prop} {last}, Adds repo P tagged last →
      (∀ object, P object → RootObject repo root object) →
      Adds repo (RootObject repo root) state last := by
    intro P last hlast himp
    have htrans := hstart.trans hlast
    refine { nodup := htrans.nodup, projected := htrans.projected, kept := htrans.kept
             added := fun object hobject => (htrans.added object hobject).imp_right ?_ }
    rintro (hmapped | hother)
    · obtain ⟨tag, htag, heq⟩ := mem_map.1 hmapped
      exact .inl ⟨tag, htag, heq.symm⟩
    · exact himp object hother
  refine ⟨root, gives_ofExcept.1 hroot, ?_⟩
  split at h
  · next htype =>
    obtain ⟨hlast, hall⟩ := addTransition_ok hgrown h
    refine ⟨hadds hlast fun object hobject => .inr (.inl ⟨htype, hobject⟩), ?_⟩
    rintro object (⟨tag, htag, rfl⟩ | ⟨-, hobject⟩ | ⟨hblob, -⟩)
    · exact hlast.kept _ (htags tag htag)
    · rcases hall object hobject with hobject | ⟨_, hnone, -⟩
      · exact hobject
      · cases hnone
    · rw [htype] at hblob
      cases hblob
  · next htype =>
    obtain ⟨hlast, hall⟩ := @addObjects_ok repo _ _ _ _ (gives_ofExcept.1 h)
    refine ⟨hadds hlast fun object hobject => .inr (.inr ⟨htype, mem_singleton.1 hobject⟩), ?_⟩
    rintro object (⟨tag, htag, rfl⟩ | ⟨htree, -⟩ | ⟨-, rfl⟩)
    · exact hlast.kept _ (htags tag htag)
    · rw [htype] at htree
      cases htree
    · exact hall _ (List.mem_singleton_self _)
  · next hnotTree hnotBlob =>
    rw [← gives_pure.1 h]
    refine ⟨hadds (Adds.refl (P := fun _ => False) tagged) fun _ h => h.elim, ?_⟩
    rintro object (⟨tag, htag, rfl⟩ | ⟨htree, -⟩ | ⟨hblob, -⟩)
    · exact htags tag htag
    · exact absurd htree hnotTree
    · exact absurd hblob hnotBlob

-- Loops

theorem mem_wantedCommits {wanted : PlannedCommits} {excluded : List Text}
    (h : wantedCommits commits excluded limits = .ok wanted)
    (commit : PlannedCommit) : commit ∈ wanted ↔ commit ∈ commits ∧ commit.oid ∉ excluded := by
  unfold wantedCommits at h
  refine foldlM_taken (fun taken (wanted : PlannedCommits) =>
    commit ∈ wanted ↔ commit ∈ taken ∧ commit.oid ∉ excluded) ?_ ?_ h
  · intro taken before other after _ hbefore hstep
    split at hstep
    · next hexcluded =>
      rw [← Except.ok.inj hstep, hbefore, mem_append, mem_singleton]
      constructor
      · exact fun h => ⟨.inl h.1, h.2⟩
      · rintro ⟨htaken | rfl, hnot⟩
        · exact ⟨htaken, hnot⟩
        · exact absurd hexcluded hnot
    · next hwanted =>
      obtain ⟨⟨⟩, -, rfl⟩ := map_eq_ok.1 hstep
      rw [mem_append, hbefore, mem_append, mem_singleton]
      constructor
      · rintro (h | rfl)
        · exact ⟨.inl h.1, h.2⟩
        · exact ⟨.inr rfl, hwanted⟩
      · rintro ⟨htaken | rfl, hnot⟩
        · exact .inl ⟨htaken, hnot⟩
        · exact .inr rfl
  · simp

/-- What the loop over the new commits leaves. -/
structure CommitsPlanned (repo : Repository) (commits wanted : PlannedCommits) (state : Planning) :
    Prop where
  nodup : (state.objects.map Prod.fst).Nodup
  projected : Projected repo.readTree state.trees
  only : ∀ object ∈ state.objects, ∃ commit ∈ wanted, CommitObject repo commit object
  commit : ∀ commit ∈ wanted, (commit.oid, .commit) ∈ state.objects
  tree : ∀ commit ∈ wanted, ∀ object, TreeObject repo.readTree commit.tree object →
    object ∈ state.objects ∨ ∃ oid ∈ commit.parents, ∃ parent, commitAt commits oid = some parent ∧
      TreeObject repo.readTree parent.tree object

theorem planCommits_ok {wanted : PlannedCommits} (hcomplete : Complete repo)
    (h : Gives (wanted.foldlM (addCommitObjects repo limits commits fuel)
      { objects := [], trees := repo.trees }) state) : CommitsPlanned repo commits wanted state := by
  refine gives_foldlM (fun taken state => CommitsPlanned repo commits taken state) ?_ ?_ h
  · intro taken before commit after _ hbefore hstep
    obtain ⟨hadds, hcommit, htree⟩ := addCommitObjects_ok hbefore.projected hstep
    refine { nodup := hadds.nodup hbefore.nodup, projected := hadds.projected hbefore.projected
             only := ?_, commit := ?_, tree := ?_ }
    · intro object hobject
      rcases hadds.added object hobject with hobject | hobject
      · obtain ⟨other, hother, hof⟩ := hbefore.only object hobject
        exact ⟨other, List.mem_append_left _ hother, hof⟩
      · exact ⟨commit, List.mem_append_right _ (List.mem_singleton_self _), hobject⟩
    · intro other hother
      rcases mem_append.1 hother with hother | hother
      · exact hadds.kept _ (hbefore.commit other hother)
      · rw [mem_singleton.1 hother]
        exact hcommit
    · intro other hother object hobject
      rcases mem_append.1 hother with hother | hother
      · exact (hbefore.tree other hother object hobject).imp_left (hadds.kept object)
      · rw [mem_singleton.1 hother] at hobject ⊢
        exact htree object hobject
  · exact { nodup := List.nodup_nil, projected := hcomplete.projected
            only := nofun
            commit := nofun
            tree := nofun }

/-- What the loop over the changed sources leaves. -/
structure RootsPlanned (repo : Repository) (roots : Roots) (start : Planning) (oids : List Text)
    (state : Planning) : Prop where
  nodup : (state.objects.map Prod.fst).Nodup
  projected : Projected repo.readTree state.trees
  kept : ∀ object ∈ start.objects, object ∈ state.objects
  only : ∀ object ∈ state.objects, object ∈ start.objects ∨ ∃ oid ∈ oids, ∃ root,
    rootAt roots oid = .ok root ∧ RootObject repo root object
  root : ∀ oid ∈ oids, ∃ root, rootAt roots oid = .ok root ∧
    ∀ object, RootObject repo root object → object ∈ state.objects

theorem planRoots_ok {start : Planning} (hnodup : (start.objects.map Prod.fst).Nodup)
    (hprojected : Projected repo.readTree start.trees)
    (h : Gives (oids.foldlM (addRootObjects repo limits roots fuel) start) state) :
    RootsPlanned repo roots start oids state := by
  refine gives_foldlM (fun taken state => RootsPlanned repo roots start taken state) ?_ ?_ h
  · intro taken before oid after _ hbefore hstep
    obtain ⟨root, hroot, hadds, hall⟩ := addRootObjects_ok hbefore.projected hstep
    refine { nodup := hadds.nodup hbefore.nodup, projected := hadds.projected hbefore.projected
             kept := fun object hobject => hadds.kept object (hbefore.kept object hobject)
             only := ?_, root := ?_ }
    · intro object hobject
      rcases hadds.added object hobject with hobject | hobject
      · rcases hbefore.only object hobject with hobject | ⟨other, hother, hof⟩
        · exact .inl hobject
        · exact .inr ⟨other, List.mem_append_left _ hother, hof⟩
      · exact .inr ⟨oid, List.mem_append_right _ (List.mem_singleton_self _), root, hroot, hobject⟩
    · intro other hother
      rcases mem_append.1 hother with hother | hother
      · obtain ⟨found, hfound, hmem⟩ := hbefore.root other hother
        exact ⟨found, hfound, fun object hobject => hadds.kept object (hmem object hobject)⟩
      · rw [mem_singleton.1 hother]
        exact ⟨root, hroot, hall⟩
  · exact { nodup := hnodup, projected := hprojected, kept := fun _ => id, only := fun _ => .inl
            root := nofun }

/-- The objects of the plan are those that were added, each with the type it was added with. -/
theorem hydrateObjects_ok {objects : PlannedObjects} {planned : List PushObject}
    (h : hydrateObjects repo objects = .ok planned) :
    planned.map (fun object => (object.oid, object.type)) = objects ∧
      ∀ object ∈ planned, ∃ info, repo.objectInfo object.oid = .ok info ∧
        object.type = info.type := by
  unfold hydrateObjects at h
  replace h := Fuel.after_check h
  have hone : ∀ (object : Text × ObjectType) (found : PushObject),
      hydrateObject repo object = .ok found → (found.oid, found.type) = object ∧
        ∃ info, repo.objectInfo found.oid = .ok info ∧ found.type = info.type := by
    intro object found hfound
    unfold hydrateObject at hfound
    obtain ⟨info, hinfo, hfound⟩ := bind_eq_ok.1 hfound
    split at hfound
    · cases hfound
    next hsame =>
    rw [← Except.ok.inj hfound]
    exact ⟨Prod.ext rfl (not_not.1 hsame), info, hinfo, rfl⟩
  constructor
  · have hmap := Fuel.Forall₂.map_eq (Fuel.mapM_ok h)
      (fun object found hfound => (hone object found hfound).1)
    rw [hmap]
    exact List.map_id _
  · intro object hobject
    obtain ⟨source, -, hsource⟩ := mapM_mem h hobject
    exact (hone source object hsource).2

-- Boundaries

/-- A commit that the remote is known to have: it was advertised, or it is an old value or what an
    old value peels to. -/
structure OnRemote (repo : Repository) (updates : List PushPlanningUpdate) (remoteOids : List Text)
    (oid : Text) : Prop where
  known : oid ∈ remoteOids ∨
    ∃ update ∈ updates, oid = update.oldOid ∨ Peels repo update.oldOid oid .commit
  stored : ∃ commit, StoredCommit repo oid commit

theorem knownBoundary_mem {boundary : Text} (h : boundary ∈ knownBoundary commits oid) :
    boundary = oid ∧ hasCommit commits boundary = true := by
  unfold knownBoundary at h
  split at h
  · next hcommit =>
    rw [mem_singleton.1 h]
    exact ⟨rfl, hcommit⟩
  · nomatch h

theorem namespaceBoundary_mem {update : PushPlanningUpdate} {added : List Text}
    (hroot : RootOf repo oid root)
    (h : namespaceBoundary repo commits update oid root = .ok added) :
    ∀ boundary ∈ added, hasCommit commits boundary = true ∧
      (boundary = update.oldOid ∨ Peels repo update.oldOid boundary .commit) := by
  intro boundary hboundary
  have hold : boundary ∈ knownBoundary commits update.oldOid →
      hasCommit commits boundary = true ∧
        (boundary = update.oldOid ∨ Peels repo update.oldOid boundary .commit) := by
    intro hmem
    obtain ⟨heq, hcommit⟩ := knownBoundary_mem hmem
    exact ⟨hcommit, .inl heq⟩
  unfold namespaceBoundary at h
  split at h
  · next hsame =>
    rw [← Except.ok.inj h] at hboundary
    split at hboundary
    · next htype =>
      obtain ⟨rfl, hcommit⟩ := knownBoundary_mem hboundary
      have hpeels := hroot.peels
      rw [htype, ← hsame] at hpeels
      exact ⟨hcommit, .inr hpeels⟩
    · nomatch hboundary
  split at h
  · split at h
    · split at h
      · next hcommit =>
        rw [← Except.ok.inj h, mem_singleton] at hboundary
        rw [hboundary]
        exact ⟨hcommit, .inl rfl⟩
      · cases h
    · rw [← Except.ok.inj h] at hboundary
      exact hold hboundary
  split at h
  · split at h
    · cases h
    · rw [← Except.ok.inj h] at hboundary
      nomatch hboundary
  split at h
  · rw [← Except.ok.inj h] at hboundary
    nomatch hboundary
  split at h
  · split at h
    · cases h
    obtain ⟨found, hfound, h⟩ := bind_eq_ok.1 h
    cases found with
    | none => cases h
    | some found =>
      rw [← Except.ok.inj h, mem_singleton] at hboundary
      rw [hboundary]
      exact customBoundary_names hfound
  · rw [← Except.ok.inj h] at hboundary
    exact hold hboundary

variable {updates : List PushPlanningUpdate}

theorem Collects.boundaries {collected : Collected} (h : Collects repo updates collected) :
    ∀ boundary ∈ collected.boundaries, hasCommit collected.commits boundary = true ∧
      ∃ update ∈ updates, boundary = update.oldOid ∨ Peels repo update.oldOid boundary .commit := by
  refine Fuel.foldlM_ok (fun (boundaries : List Text) => ∀ boundary ∈ boundaries,
    hasCommit collected.commits boundary = true ∧
      ∃ update ∈ updates, boundary = update.oldOid ∨ Peels repo update.oldOid boundary .commit)
    ?_ ?_ h.rules
  · intro before update after hupdate hbefore hstep boundary hboundary
    unfold requireNamespaceRule at hstep
    split at hstep
    · rw [← Except.ok.inj hstep] at hboundary
      exact hbefore boundary hboundary
    next oid hoid =>
    obtain ⟨root, hroot, hstep⟩ := bind_eq_ok.1 hstep
    replace hstep := Fuel.after_check hstep
    obtain ⟨added, hadded, rfl⟩ := map_eq_ok.1 hstep
    rcases mem_append.1 hboundary with hboundary | hboundary
    · exact hbefore boundary hboundary
    · obtain ⟨hcommit, hold⟩ :=
        namespaceBoundary_mem (rootAt_of_resolveRoots h.roots hroot) hadded boundary hboundary
      exact ⟨hcommit, update, hupdate, hold⟩
  · exact nofun

theorem collect_gathered {collected : Collected}
    (h : Gives (collect repo updates fuel) collected) : Gathered repo collected.commits := by
  unfold collect at h
  obtain ⟨roots, hroots, h⟩ := gives_bind.1 h
  obtain ⟨⟨⟩, -, h⟩ := gives_bind.1 h
  obtain ⟨commits, hcommits, h⟩ := gives_bind.1 h
  obtain ⟨boundaries, -, h⟩ := gives_bind.1 h
  rw [← gives_pure.1 h]
  refine collectCommitGraphs_gathered (fun final hfinal => ?_) hcommits
  rw [List.mem_eraseDups] at hfinal
  obtain ⟨root, hroot, rfl⟩ := mem_map.1 hfinal
  obtain ⟨hmem, htype⟩ := List.mem_filter.1 hroot
  obtain ⟨info, hinfo, hsame⟩ := (resolveRoots_mem (gives_ofExcept.1 hroots) hmem).2.1.peels.info
  exact ⟨info, hinfo, hsame.trans (of_decide_eq_true htype)⟩

-- The closure

/-- What a plan was made from. -/
structure PlanOf (repo : Repository) (updates : List PushPlanningUpdate) (remoteOids : List Text)
    (collected : Collected) (wanted : PlannedCommits) (excluded : List Text)
    (objects : PlannedObjects) (plan : PushPlan) : Prop where
  collects : Collects repo updates collected
  gathered : Gathered repo collected.commits
  excluded_known : ∀ oid ∈ excluded, ∃ start, OnRemote repo updates remoteOids start ∧
    Reachable repo (start, .commit) (oid, .commit)
  wanted_iff : ∀ commit, commit ∈ wanted ↔ commit ∈ collected.commits ∧ commit.oid ∉ excluded
  unshallow : ∀ commit ∈ wanted, commit.oid ∈ repo.store.shallow → commit.parents = []
  nodup : (objects.map Prod.fst).Nodup
  commit : ∀ commit ∈ wanted, (commit.oid, .commit) ∈ objects
  tree : ∀ commit ∈ wanted, ∀ object, TreeObject repo.readTree commit.tree object →
    object ∈ objects ∨ ∃ oid ∈ commit.parents, ∃ parent,
      commitAt collected.commits oid = some parent ∧ TreeObject repo.readTree parent.tree object
  root : ∀ oid ∈ activeRoots updates, ∃ root, rootAt collected.roots oid = .ok root ∧
    ∀ object, RootObject repo root object → object ∈ objects
  only : ∀ object ∈ objects, (∃ commit ∈ wanted, CommitObject repo commit object) ∨
    ∃ oid ∈ activeRoots updates, ∃ root, rootAt collected.roots oid = .ok root ∧
      RootObject repo root object
  planned : plan.objects.map (fun object => (object.oid, object.type)) = objects
  typed : ∀ object ∈ plan.objects, ∃ info, repo.objectInfo object.oid = .ok info ∧
    object.type = info.type

theorem planObjects_planOf {collected : Collected} {plan : PushPlan} (hcomplete : Complete repo)
    (hcollected : Gives (collect repo updates fuel) collected)
    (h : Gives (planObjects repo updates limits collected fuel) plan) :
    ∃ wanted excluded objects,
      PlanOf repo updates limits.remoteOids collected wanted excluded objects plan := by
  have hcollects := collect_collects hcollected
  have hgathered := collect_gathered hcollected
  unfold planObjects at h
  obtain ⟨excluded, hexcluded, h⟩ := gives_bind.1 h
  obtain ⟨wanted, hwanted, h⟩ := gives_bind.1 h
  obtain ⟨⟨⟩, hunshallow, h⟩ := gives_bind.1 h
  obtain ⟨first, hfirst, h⟩ := gives_bind.1 h
  obtain ⟨last, hlast, h⟩ := gives_bind.1 h
  obtain ⟨objects, hobjects, h⟩ := gives_bind.1 h
  obtain ⟨⟨⟩, -, h⟩ := gives_bind.1 h
  rw [← gives_pure.1 h]
  have hcommits := planCommits_ok hcomplete hfirst
  have hroots := planRoots_ok hcommits.nodup hcommits.projected hlast
  obtain ⟨hplanned, htyped⟩ := hydrateObjects_ok (gives_ofExcept.1 hobjects)
  have hactive : ∀ oid, oid ∈ sortTexts (activeRoots updates).eraseDups ↔ oid ∈ activeRoots updates :=
    fun oid => by rw [mem_sortTexts, List.mem_eraseDups]
  refine ⟨wanted, excluded, last.objects,
    { collects := hcollects, gathered := hgathered, excluded_known := ?_
      wanted_iff := mem_wantedCommits (gives_ofExcept.1 hwanted), unshallow := ?_
      nodup := hroots.nodup
      commit := fun commit hcommit => hroots.kept _ (hcommits.commit commit hcommit)
      tree := fun commit hcommit object hobject =>
        (hcommits.tree commit hcommit object hobject).imp_left (hroots.kept object)
      root := fun oid hoid => hroots.root oid ((hactive oid).2 hoid), only := ?_
      planned := hplanned, typed := htyped }⟩
  · intro oid hoid
    obtain ⟨start, hstart, hreach⟩ :=
      excludedCommits_reached hgathered (gives_ofOption.1 hexcluded) oid hoid
    have hknown : hasCommit collected.commits start = true ∧ (start ∈ limits.remoteOids ∨
        ∃ update ∈ updates, start = update.oldOid ∨ Peels repo update.oldOid start .commit) := by
      rcases mem_append.1 hstart with hstart | hstart
      · obtain ⟨hcommit, hold⟩ := hcollects.boundaries start hstart
        exact ⟨hcommit, .inr hold⟩
      · obtain ⟨hremote, hcommit⟩ := List.mem_filter.1 hstart
        exact ⟨hcommit, .inl hremote⟩
    obtain ⟨planned, hplannedCommit⟩ := commitAt_exists hknown.1
    obtain ⟨-, -, commit, hstored, -⟩ := hgathered.commitAt hplannedCommit
    exact ⟨start, { known := hknown.2, stored := ⟨commit, hstored⟩ }, hreach⟩
  · intro commit hcommit hshallow
    have hcheck := forM_ok (gives_ofExcept.1 hunshallow) hcommit
    rw [reject_eq_ok, Bool.and_eq_false_iff, decide_eq_false_iff_not, decide_eq_false_iff_not,
      not_not] at hcheck
    exact hcheck.resolve_left fun hnot => hnot hshallow
  · intro object hobject
    rcases hroots.only object hobject with hobject | ⟨oid, hoid, hroot⟩
    · exact .inl (hcommits.only object hobject)
    · exact .inr ⟨oid, (hactive oid).1 hoid, hroot⟩

section
variable {updates : List PushPlanningUpdate} {remoteOids excluded : List Text}
  {collected : Collected} {wanted : PlannedCommits} {objects : PlannedObjects} {plan : PushPlan}

/-- The remote reaches the object from a commit that it is known to have. -/
def OfRemote (repo : Repository) (updates : List PushPlanningUpdate) (remoteOids : List Text)
    (object : Text × ObjectType) : Prop :=
  ∃ start, OnRemote repo updates remoteOids start ∧ Reachable repo (start, .commit) object

theorem OfRemote.trans {other : Text × ObjectType}
    (h : OfRemote repo updates remoteOids object) (hrest : Reachable repo object other) :
    OfRemote repo updates remoteOids other := by
  obtain ⟨start, hstart, hreach⟩ := h
  exact ⟨start, hstart, hreach.trans hrest⟩

/-- A collected commit is new, or the remote reaches it. -/
theorem PlanOf.commit_covered
    (h : PlanOf repo updates remoteOids collected wanted excluded objects plan)
    (hplanned : planned ∈ collected.commits) :
    planned ∈ wanted ∨ OfRemote repo updates remoteOids (planned.oid, .commit) := by
  by_cases hexcluded : planned.oid ∈ excluded
  · exact .inr (h.excluded_known _ hexcluded)
  · exact .inl ((h.wanted_iff _).2 ⟨hplanned, hexcluded⟩)

/-- What a new commit's tree holds is planned or reached by the remote, by induction over its
    ancestors. -/
theorem PlanOf.tree_covered (hcomplete : Complete repo)
    (h : PlanOf repo updates remoteOids collected wanted excluded objects plan)
    (hcommit : commit ∈ wanted)
    (hobject : TreeObject repo.readTree commit.tree object) :
    object ∈ objects ∨ OfRemote repo updates remoteOids object := by
  have hall := @Acyclic.induction_flip _ _ hcomplete.acyclic (collected.commits.map PlannedCommit.oid)
    (fun oid => ∀ planned ∈ wanted, planned.oid = oid → ∀ object,
      TreeObject repo.readTree planned.tree object →
        object ∈ objects ∨ OfRemote repo updates remoteOids object) ?_
  · exact hall commit.oid (mem_map.2 ⟨commit, ((h.wanted_iff _).1 hcommit).1, rfl⟩)
      commit hcommit rfl object hobject
  · rintro oid - ih planned hplanned rfl object hobject
    rcases h.tree planned hplanned object hobject with hobject | ⟨parentOid, hparent, parent, hat, hbefore⟩
    · exact .inl hobject
    obtain ⟨hmem, rfl, parentCommit, hparentStored, htree, -⟩ := h.gathered.commitAt hat
    rcases h.commit_covered hmem with hwanted | hremote
    · obtain ⟨stored, hstored, -, hparents⟩ :=
        h.gathered.stored planned ((h.wanted_iff _).1 hplanned).1
      refine ih parent.oid (mem_map.2 ⟨parent, hmem, rfl⟩) ?_ parent hwanted rfl object hbefore
      exact .single ⟨stored, hstored, hparents ▸ hparent⟩
    · refine .inr (hremote.trans ?_)
      rw [htree] at hbefore
      exact Reachable.trans (.tree .start hparentStored) (reachable_of_treeObject hbefore)

/-- How an object that a changed source reaches is covered. -/
inductive Covers (repo : Repository) (updates : List PushPlanningUpdate) (remoteOids : List Text)
    (wanted : PlannedCommits) (objects : PlannedObjects) (root : ResolvedRoot) :
    Text × ObjectType → Prop
  | remote {object : Text × ObjectType} (h : OfRemote repo updates remoteOids object) :
      Covers repo updates remoteOids wanted objects root object
  | commit {commit : PlannedCommit} (hcommit : commit ∈ wanted) :
      Covers repo updates remoteOids wanted objects root (commit.oid, .commit)
  | tree {tree : Text} {object : Text × ObjectType}
      (hall : ∀ object, TreeObject repo.readTree tree object →
        object ∈ objects ∨ OfRemote repo updates remoteOids object)
      (hobject : TreeObject repo.readTree tree object) :
      Covers repo updates remoteOids wanted objects root object
  | tag {tag : Text} (htag : tag ∈ root.tags) :
      Covers repo updates remoteOids wanted objects root (tag, .tag)
  | blob (hblob : root.finalType = .blob) :
      Covers repo updates remoteOids wanted objects root (root.finalOid, .blob)

/-- Trees and blobs only. -/
theorem treeObject_type {tree : Text}
    (h : TreeObject repo.readTree tree object) : object.2 = .tree ∨ object.2 = .blob := by
  obtain ⟨side, -, hobject⟩ := h
  unfold objectAt at hobject
  split at hobject
  · cases hobject
  · rw [← Option.some.inj hobject]
    dsimp only
    split
    · exact .inl rfl
    · exact .inr rfl

section

variable (h : PlanOf repo updates remoteOids collected wanted excluded objects plan)

include h

theorem PlanOf.hasCommit_covers (hcommit : hasCommit collected.commits oid = true) :
    Covers repo updates remoteOids wanted objects root (oid, .commit) := by
  obtain ⟨planned, hplanned⟩ := commitAt_exists hcommit
  obtain ⟨hmem, rfl, -⟩ := h.gathered.commitAt hplanned
  rcases h.commit_covered hmem with hwanted | hremote
  · exact .commit hwanted
  · exact .remote hremote

/-- A parent of a new commit was collected, since the commit is no shallow one. -/
theorem PlanOf.hasCommit_parent (hplanned : planned ∈ wanted) {commit : Commit}
    (hstored : StoredCommit repo planned.oid commit) {parent : Text} (hparent : parent ∈ commit.parent) :
    hasCommit collected.commits parent = true := by
  have hmem := ((h.wanted_iff _).1 hplanned).1
  obtain ⟨found, hfound, -, hparents⟩ := h.gathered.stored planned hmem
  rw [hfound.unique hstored] at hparents
  have hshallow : planned.oid ∉ repo.store.shallow := by
    intro hshallow
    have hnone := h.unshallow planned hplanned hshallow
    rw [hparents] at hnone
    rw [hnone] at hparent
    nomatch hparent
  have hwithin : parent ∈ parentsWithin repo.store planned.oid := by
    obtain ⟨entry, hentry, hcommit⟩ := hstored
    rw [parentsWithin, if_neg hshallow, hentry]
    rw [Commits.parent_of_completeCommit hcommit] at hparent
    exact hparent
  obtain ⟨root, hroot, htype, hreaches⟩ := (h.collects.mem_commits planned.oid).1
    (hasCommit_iff.2 (mem_map.2 ⟨planned, hmem, rfl⟩))
  exact (h.collects.mem_commits parent).2 ⟨root, hroot, htype, hreaches.tail hwithin⟩

/-- The end of a changed source's tags is covered. -/
theorem PlanOf.final_covers (hroot : rootAt collected.roots oid = .ok root)
    (hof : TagsOf repo oid root) (hall : ∀ object, RootObject repo root object → object ∈ objects) :
    Covers repo updates remoteOids wanted objects root (root.finalOid, root.finalType) := by
  cases htype : root.finalType with
  | commit =>
    refine h.hasCommit_covers ((h.collects.mem_commits _).2 ?_)
    exact ⟨(oid, root), rootAt_mem hroot, htype, .refl⟩
  | tree =>
    refine .tree (fun object hobject => .inl (hall object (.inr (.inl ⟨htype, hobject⟩)))) ?_
    exact treeObject_root _ _
  | blob => exact .blob htype
  | tag => exact absurd htype hof.not_tag

end

/-- Everything that a changed source reaches is covered, by induction on how it is reached. -/
theorem PlanOf.covers (hcomplete : Complete repo)
    (h : PlanOf repo updates remoteOids collected wanted excluded objects plan)
    (hroot : rootAt collected.roots oid = .ok root)
    (hof : TagsOf repo oid root) (hall : ∀ object, RootObject repo root object → object ∈ objects)
    {info : ObjectInfo} (hinfo : repo.objectInfo oid = .ok info)
    (hreach : Reachable repo (oid, info.type) object) :
    Covers repo updates remoteOids wanted objects root object := by
  have hfinal := h.final_covers hroot hof hall
  have hend : ∀ {info : ObjectInfo}, repo.objectInfo root.finalOid = .ok info →
      Covers repo updates remoteOids wanted objects root (root.finalOid, info.type) := by
    intro info hinfo
    obtain ⟨last, hlast, htype⟩ := hof.final
    rw [hinfo] at hlast
    rw [Except.ok.inj hlast, htype]
    exact hfinal
  have hnext : ∀ {next : Text} {info : ObjectInfo}, next ∈ root.tags ∨ next = root.finalOid →
      repo.objectInfo next = .ok info →
      Covers repo updates remoteOids wanted objects root (next, info.type) := by
    rintro next info (htag | rfl) hinfo
    · obtain ⟨⟨found, hfound, htype⟩, -⟩ := hof.path.step htag
      rw [hinfo] at hfound
      rw [Except.ok.inj hfound, htype]
      exact .tag htag
    · exact hend hinfo
  generalize hstart : (oid, info.type) = start at hreach
  induction hreach with
  | start =>
    rw [← hstart]
    exact hnext hof.path.start hinfo
  | @tag tag target next hreach htag hnextInfo ih =>
    generalize hobject : (tag, ObjectType.tag) = object at ih
    cases ih with
    | remote hremote =>
      rw [← hobject] at hremote
      exact .remote (hremote.trans (.tag .start htag hnextInfo))
    | commit _ => cases hobject
    | tree _ htree =>
      rw [← hobject] at htree
      rcases treeObject_type htree with htype | htype <;> cases htype
    | tag hmem =>
      obtain ⟨rfl, -⟩ := Prod.mk.inj hobject
      obtain ⟨-, found, hfound, hlead⟩ := hof.path.step hmem
      rw [htag] at hfound
      rw [← Except.ok.inj hfound] at hlead
      exact hnext hlead hnextInfo
    | blob _ => cases hobject
  | @parent child parent commit hreach hstored hparent ih =>
    generalize hobject : (child, ObjectType.commit) = object at ih
    cases ih with
    | remote hremote =>
      rw [← hobject] at hremote
      exact .remote (hremote.trans (.parent .start hstored hparent))
    | commit hwanted =>
      obtain ⟨rfl, -⟩ := Prod.mk.inj hobject
      exact h.hasCommit_covers (h.hasCommit_parent hwanted hstored hparent)
    | tree _ htree =>
      rw [← hobject] at htree
      rcases treeObject_type htree with htype | htype <;> cases htype
    | tag _ => cases hobject
    | blob _ => cases hobject
  | @tree child commit hreach hstored ih =>
    generalize hobject : (child, ObjectType.commit) = object at ih
    cases ih with
    | remote hremote =>
      rw [← hobject] at hremote
      exact .remote (hremote.trans (.tree .start hstored))
    | @commit planned hwanted =>
      obtain ⟨rfl, -⟩ := Prod.mk.inj hobject
      obtain ⟨found, hfound, htree, -⟩ := h.gathered.stored planned ((h.wanted_iff _).1 hwanted).1
      rw [hfound.unique hstored] at htree
      refine .tree (fun object hobject => ?_) (treeObject_root _ commit.tree)
      rw [← htree] at hobject
      exact h.tree_covered hcomplete hwanted hobject
    | tree _ htree =>
      rw [← hobject] at htree
      rcases treeObject_type htree with htype | htype <;> cases htype
    | tag _ => cases hobject
    | blob _ => cases hobject
  | @entry tree source entry reached hreach hsource hentry hreached ih =>
    generalize hobject : (tree, ObjectType.tree) = object at ih
    cases ih with
    | remote hremote =>
      rw [← hobject] at hremote
      exact .remote (hremote.trans (.entry .start hsource hentry hreached))
    | commit _ => cases hobject
    | tree hcovered htree =>
      rw [← hobject] at htree
      exact .tree hcovered (treeObject_entry htree hsource hentry hreached)
    | tag _ => cases hobject
    | blob _ => cases hobject

/-- Planned objects come from pushed sources. -/
theorem PlanOf.sound (h : PlanOf repo updates remoteOids collected wanted excluded objects plan) (hobject : object ∈ objects) :
    ∃ update ∈ updates, ∃ oid info, update.oid = some oid ∧ repo.objectInfo oid = .ok info ∧
      Reachable repo (oid, info.type) object := by
  have hsource : ∀ {oid : Text} {root : ResolvedRoot}, (oid, root) ∈ collected.roots →
      ∃ update ∈ updates, ∃ info, update.oid = some oid ∧ repo.objectInfo oid = .ok info ∧
        Reachable repo (oid, info.type) (root.finalOid, root.finalType) ∧
        ∀ tag ∈ root.tags, Reachable repo (oid, info.type) (tag, .tag) := by
    intro oid root hroot
    obtain ⟨hmem, -, hof⟩ := resolveRoots_mem h.collects.roots hroot
    rw [mem_sortTexts, List.mem_eraseDups, List.mem_filterMap] at hmem
    obtain ⟨update, hupdate, hoid⟩ := hmem
    obtain ⟨last, hlast, htype⟩ := hof.final
    obtain ⟨info, hinfo⟩ := hof.path.info hlast
    obtain ⟨hfinal, htags⟩ := hof.path.reachable hinfo hlast
    rw [htype] at hfinal
    exact ⟨update, hupdate, info, hoid, hinfo, hfinal, htags⟩
  rcases h.only object hobject with ⟨planned, hplanned, hof⟩ | ⟨oid, -, root, hroot, hof⟩
  · have hmem := ((h.wanted_iff _).1 hplanned).1
    obtain ⟨root, hroot, htype, hreaches⟩ := (h.collects.mem_commits planned.oid).1
      (hasCommit_iff.2 (mem_map.2 ⟨planned, hmem, rfl⟩))
    obtain ⟨update, hupdate, info, hoid, hinfo, hfinal, -⟩ := hsource hroot
    rw [htype] at hfinal
    refine ⟨update, hupdate, root.1, info, hoid, hinfo, hfinal.trans ?_⟩
    -- the walk follows stored commits
    have hcommit : ∀ oid, Reaches (parentsWithin repo.store) root.2.finalOid oid →
        Reachable repo (root.2.finalOid, .commit) (oid, .commit) := by
      intro oid hreach
      induction hreach with
      | refl => exact .start
      | @tail child parent hbefore hstep ih =>
        obtain ⟨found, hfound⟩ := commitAt_exists
          ((h.collects.mem_commits child).2 ⟨root, hroot, htype, hbefore⟩)
        obtain ⟨-, -, commit, hstored, -⟩ := h.gathered.commitAt hfound
        refine .parent ih hstored ?_
        obtain ⟨entry, hentry, hcomplete⟩ := hstored
        unfold parentsWithin at hstep
        split at hstep
        · nomatch hstep
        · rw [hentry] at hstep
          rw [Commits.parent_of_completeCommit hcomplete]
          exact hstep
    rcases hof with rfl | htree
    · exact hcommit _ hreaches
    · obtain ⟨commit, hstored, hsame, -⟩ := h.gathered.stored planned hmem
      rw [hsame] at htree
      exact Reachable.trans (.tree (hcommit _ hreaches) hstored) (reachable_of_treeObject htree)
  · obtain ⟨update, hupdate, info, hoid, hinfo, hfinal, htags⟩ := hsource (rootAt_mem hroot)
    refine ⟨update, hupdate, oid, info, hoid, hinfo, ?_⟩
    rcases hof with ⟨tag, htag, rfl⟩ | ⟨htree, hobject⟩ | ⟨hblob, rfl⟩
    · exact htags tag htag
    · rw [htree] at hfinal
      exact hfinal.trans (reachable_of_treeObject hobject)
    · rw [hblob] at hfinal
      exact hfinal

end

/-- The objects of a plan are each there once and have their type; they are all that a changed
    source reaches and the remote does not, and nothing that no source reaches. -/
theorem plan_closure {updates : List PushPlanningUpdate} {options : PushPlanOptions} {fuel : Nat}
    {plan : PushPlan} (hcomplete : Complete repo)
    (hplan : Gives (planPushUpdates repo updates options fuel) (some plan)) :
    (plan.objects.map PushObject.oid).Nodup ∧
    (∀ object ∈ plan.objects, ∃ info, repo.objectInfo object.oid = .ok info ∧
      object.type = info.type) ∧
    (∀ update ∈ updates, ∀ oid info object, update.oid = some oid → oid ≠ update.oldOid →
      repo.objectInfo oid = .ok info → Reachable repo (oid, info.type) object →
      (∃ planned ∈ plan.objects, (planned.oid, planned.type) = object) ∨
        ∃ commit, OnRemote repo updates options.remoteOids commit ∧
          Reachable repo (commit, .commit) object) ∧
    ∀ object ∈ plan.objects, ∃ update ∈ updates, ∃ oid info, update.oid = some oid ∧
      repo.objectInfo oid = .ok info ∧ Reachable repo (oid, info.type) (object.oid, object.type) := by
  obtain ⟨limits, collected, hlimits, hcollected, hobjects⟩ := planPushUpdates_plan hplan
  obtain ⟨wanted, excluded, objects, hof⟩ := planObjects_planOf hcomplete hcollected hobjects
  have hremote : limits.remoteOids = options.remoteOids := by
    unfold normalizedOptions at hlimits
    replace hlimits := Fuel.after_check hlimits
    replace hlimits := Fuel.after_check hlimits
    replace hlimits := Fuel.after_check hlimits
    obtain ⟨⟨⟩, -, rfl⟩ := map_eq_ok.1 hlimits
    rfl
  rw [hremote] at hof
  have hmem : ∀ object, object ∈ objects ↔
      ∃ planned ∈ plan.objects, (planned.oid, planned.type) = object := by
    intro object
    rw [← hof.planned, mem_map]
  refine ⟨?_, hof.typed, ?_, ?_⟩
  · have hnodup := hof.nodup
    rw [← hof.planned, List.map_map] at hnodup
    exact hnodup
  · intro update hupdate oid info object hoid hchanged hinfo hreach
    have hactive : oid ∈ activeRoots (sortUpdates updates) := by
      refine List.mem_filterMap.2 ⟨update, mem_sortUpdates.2 hupdate, ?_⟩
      rw [hoid, Option.filter_some, if_pos (decide_eq_true hchanged)]
    obtain ⟨root, hroot, hall⟩ := hof.root oid hactive
    have htags := (resolveRoots_mem hof.collects.roots (rootAt_mem hroot)).2.2
    rw [← hmem]
    have hknown : ∀ {object}, OfRemote repo (sortUpdates updates) options.remoteOids object →
        ∃ commit, OnRemote repo updates options.remoteOids commit ∧
          Reachable repo (commit, .commit) object := by
      rintro object ⟨commit, hcommit, hreach⟩
      refine ⟨commit, { known := ?_, stored := hcommit.stored }, hreach⟩
      refine hcommit.known.imp_right ?_
      rintro ⟨other, hother, hold⟩
      exact ⟨other, mem_sortUpdates.1 hother, hold⟩
    cases hof.covers hcomplete hroot htags hall hinfo hreach with
    | remote h => exact .inr (hknown h)
    | commit hwanted => exact .inl (hof.commit _ hwanted)
    | tree hcovered hobject => exact (hcovered object hobject).imp_right hknown
    | tag htag => exact .inl (hall _ (.inl ⟨_, htag, rfl⟩))
    | blob hblob => exact .inl (hall _ (.inr (.inr ⟨hblob, rfl⟩)))
  · intro object hobject
    obtain ⟨update, hupdate, hsource⟩ := hof.sound ((hmem _).2 ⟨object, hobject, rfl⟩)
    exact ⟨update, mem_sortUpdates.1 hupdate, hsource⟩

-- A new branch

/-- A branch that the remote does not have. -/
def newBranch : List PushPlanningUpdate := [branchUpdate "refs/heads/a" (rootOid 0x31) zeroOid]

def newBranchPlan : PushPlan where
  objects :=
    [{ oid := rootOid 0x31, type := .commit, size := 200, source := .loose },
      { oid := zeroOid, type := .tree, size := 200, source := .loose }]
  newCommits := 1

theorem rootsRepo_complete : Complete rootsRepo where
  acyclic := by
    have hedge : ∀ oid parent, (∃ commit, StoredCommit rootsRepo oid commit ∧
        parent ∈ commit.parent) → oid = Commits.mergeOid ∧ parent ∈ Commits.rootOids "12" := by
      rintro oid parent ⟨commit, ⟨entry, hentry, hcommit⟩, hparent⟩
      rw [Commits.parent_of_completeCommit hcommit] at hparent
      have hshallow : oid ∉ (Commits.mergeStore "12" 200).shallow := List.not_mem_nil
      have hsame : (Commits.mergeStore "12" 200).cachedCommit oid = some entry := hentry
      refine @Commits.parentsWithin_merge "12" 200 oid parent |>.1 ?_
      rw [parentsWithin, if_neg hshallow, hsame]
      exact hparent
    intro oid hcycle
    obtain ⟨_, hfirst, -⟩ := Relation.TransGen.head'_iff.1 hcycle
    obtain ⟨_, -, hlast⟩ := Relation.TransGen.tail'_iff.1 hcycle
    have hroot := (hedge _ _ hlast).2
    rw [(hedge _ _ hfirst).1] at hroot
    exact absurd hroot (by decide +kernel)
  projected := by
    intro oid source hsource _
    by_cases hoid : oid = zeroOid
    · have hrow : rootsRepo.trees oid = some emptyTree := if_pos hoid
      have hread : rootsRepo.readTree oid = .ok emptyTree := if_pos hoid
      rw [hrow] at hsource
      rw [hread, Option.some.inj hsource]
    · have hnone : rootsRepo.trees oid = none := if_neg hoid
      rw [hnone] at hsource
      cases hsource

theorem newBranch_walk : Trees.iterateTreeDiffObjects rootsRepo.readTree rootsRepo.trees none zeroOid
    20 = some (.ok ([(zeroOid, .tree)], rootsRepo.trees)) := by
  let row : Trees.WalkRow :=
    { path := [], pathBytes := 0, sortKey := [], before := none
      after := some { mode := .tree, oid := zeroOid }, beforeAncestry := []
      afterAncestry := [zeroOid], stateBytes := 0, reservedBytes := 0, error := none
      errorCode := .corrupt, errorKind := none, errorOid := none }
  have hrows : Trees.walkTreeDiffRows rootsRepo.trees none (some zeroOid) true 20 = some [row] := by
    have hall : UnionAll.rows (Trees.nextRows rootsRepo.trees) 20
        (Trees.rootRows none (some zeroOid)) = some [{ row with errorCode := .pending }, row] := by
      decide +kernel
    have hanswered : [{ row with errorCode := .pending }, row].filter (Trees.answered true) = [row] := by
      decide +kernel
    unfold Trees.walkTreeDiffRows
    rw [hall, Option.map_some, hanswered, List.mergeSort_singleton]
  unfold Trees.iterateTreeDiffObjects Trees.projectedWalk
  rw [if_neg nofun, hrows]
  rfl

theorem newBranch_plan : Gives (planPushUpdates rootsRepo newBranch (remoteHas []) 20)
    (some newBranchPlan) := by
  let roots := [commitRoot (rootOid 0x31)]
  let commits := [plannedRoot (rootOid 0x31)]
  let limits : NormalizedPushPlanOptions :=
    { maxObjects := maxPushObjects, maxCommits := maxPushCommits, remoteOids := [] }
  have hupdates : sortUpdates newBranch = newBranch := List.mergeSort_singleton _
  have hsources : sortTexts (newBranch.filterMap PushPlanningUpdate.oid).eraseDups =
      [rootOid 0x31] := List.mergeSort_of_pairwise (by decide +kernel)
  have hactive : sortTexts (activeRoots newBranch).eraseDups = [rootOid 0x31] :=
    List.mergeSort_of_pairwise (by decide +kernel)
  have hcollect : Gives (collect rootsRepo newBranch 20) { roots, commits, boundaries := [] } := by
    unfold collect
    dsimp only
    rw [hsources]
    refine gives_bind.2 ⟨roots, gives_ofExcept.2 (by decide +kernel), ?_⟩
    refine gives_bind.2 ⟨(), gives_ofExcept.2 (by decide +kernel), ?_⟩
    refine gives_bind.2 ⟨commits, gives_mk.2 (by decide +kernel), ?_⟩
    exact gives_bind.2 ⟨[], gives_ofExcept.2 (by decide +kernel), gives_pure.2 rfl⟩
  let commit : Planning :=
    { objects := [(rootOid 0x31, .commit)], trees := rootsRepo.trees }
  let tree : Planning :=
    { objects := [(rootOid 0x31, .commit), (zeroOid, .tree)], trees := rootsRepo.trees }
  have hcommit : Gives (addCommitObjects rootsRepo limits commits 20
      { objects := [], trees := rootsRepo.trees } (plannedRoot (rootOid 0x31))) tree := by
    have hself : [(rootOid 0x31, ObjectType.commit)].foldlM (addObject limits) [] =
        .ok commit.objects := by decide +kernel
    refine gives_bind.2 ⟨commit, gives_ofExcept.2 (map_eq_ok.2 ⟨_, hself, rfl⟩), ?_⟩
    refine gives_bind.2 ⟨_, gives_mk.2 newBranch_walk, gives_ofExcept.2 ?_⟩
    have hadded : [(zeroOid, ObjectType.tree)].foldlM (addObject limits) commit.objects =
        .ok tree.objects := by decide +kernel
    exact map_eq_ok.2 ⟨_, hadded, rfl⟩
  have hplan : Gives (planObjects rootsRepo newBranch limits { roots, commits, boundaries := [] } 20)
      newBranchPlan := by
    unfold planObjects
    dsimp only
    rw [hactive]
    refine gives_bind.2 ⟨[], gives_mk.2 (by decide +kernel), ?_⟩
    refine gives_bind.2 ⟨commits, gives_ofExcept.2 (by decide +kernel), ?_⟩
    refine gives_bind.2 ⟨(), gives_ofExcept.2 (by decide +kernel), ?_⟩
    refine gives_bind.2 ⟨tree, gives_bind.2 ⟨tree, hcommit, gives_pure.2 rfl⟩, ?_⟩
    refine gives_bind.2 ⟨tree, rfl, ?_⟩
    refine gives_bind.2 ⟨newBranchPlan.objects, gives_ofExcept.2 (by decide +kernel), ?_⟩
    exact gives_bind.2 ⟨(), gives_ofExcept.2 (by decide +kernel), gives_pure.2 rfl⟩
  have hupdatesPlan : Gives (planUpdates rootsRepo newBranch limits 20) (some newBranchPlan) := by
    unfold planUpdates
    refine gives_bind.2 ⟨(), gives_ofExcept.2 (by decide +kernel), ?_⟩
    dsimp only
    rw [hupdates]
    refine gives_bind.2 ⟨(), gives_ofExcept.2 (by decide +kernel), ?_⟩
    exact gives_bind.2 ⟨_, hcollect, gives_map.2 ⟨_, hplan, rfl⟩⟩
  have hlimits : normalizedOptions (remoteHas []) = .ok limits := by decide +kernel
  unfold planPushUpdates
  rw [hlimits]
  exact gives_mk.2 (Option.map_eq_some_iff.2 ⟨_, hupdatesPlan, rfl⟩)

theorem newBranch_closure :
    Complete rootsRepo ∧
    Gives (planPushUpdates rootsRepo newBranch (remoteHas []) 20) (some newBranchPlan) ∧
    ∀ object, Reachable rootsRepo (rootOid 0x31, .commit) object →
      (∃ planned ∈ newBranchPlan.objects, (planned.oid, planned.type) = object) ∨
        ∃ commit, OnRemote rootsRepo newBranch [] commit ∧
          Reachable rootsRepo (commit, .commit) object := by
  refine ⟨rootsRepo_complete, newBranch_plan, fun object hreach => ?_⟩
  obtain ⟨-, -, hcovers, -⟩ := plan_closure rootsRepo_complete newBranch_plan
  exact hcovers _ mem_cons_self (rootOid 0x31) _ object rfl (by decide +kernel) rfl hreach

end Kompjutr.Push
