/-
  Kompjutr.Rebase.PlanSound

  What a rebase replays (`planRebase_steps`): the first parents from the current commit down
  to the merge base, each a commit with one parent, the oldest first.

  The loop takes what the walk yields only as long as it is the parent it expects, so what it
  took is one line of parents (`Line`).  The walk is the one that collected the current side
  of the graph of the merge base, hence it yields every commit once and as it is stored.
-/
import Kompjutr.Merge.SelectionSound
import Kompjutr.Rebase.Plan

namespace Kompjutr.Rebase

open Objects (Text text shown isOid Commit)
open Commits (CommitStore Walked walkIndexedOwned parentsWithin)
open Fuel (bind_eq_ok)
open Merge (MergeBaseSelection MergeBaseInput MergeBaseKind GraphNodes CommonAncestor Collected Stored
  selectMergeBases reachableGraphOwned bestCommonAncestors andThen andThen_eq_ok)
open Operations (OperationStep)
open RecursiveUnion (Reaches)

variable {steps : List OperationStep} {store : CommitStore} {selection : MergeBaseSelection}

variable {base oid : Text} {items : List (Text × Commit)}

-- First parents

/-- The commits from `oid` down to the base, newest first and without the base. -/
inductive FirstParents (store : CommitStore) (base : Text) : Text → List Text → Prop where
  | base : FirstParents store base base []
  | step {oid first : Text} {commit : Commit} {rest : List Text} : oid ≠ base →
      Stored store (oid, commit) → commit.parent.head? = some first →
      FirstParents store base first rest → FirstParents store base oid (oid :: rest)

/-- What the loop takes of a walk: the line of only parents from `oid` down to the base. -/
inductive Line (base : Text) : Text → List (Text × Commit) → Prop where
  | base : Line base base []
  | step {oid parent : Text} {commit : Commit} {rest : List (Text × Commit)} : oid ≠ base →
      commit.parent = [parent] → Line base parent rest → Line base oid ((oid, commit) :: rest)

/-- The step of a commit with one parent. -/
def stepOf (item : Text × Commit) : OperationStep :=
  pendingStep item.1 (item.2.parent.headD [])

theorem selectLoop_ok {maxSteps : Nat} {failed : Option GitError} {newestFirst : List OperationStep}
    (h : selectLoop base maxSteps failed items newestFirst oid = .ok steps) :
    ∃ taken commit rest, items = taken ++ (base, commit) :: rest ∧ Line base oid taken ∧
      steps = (newestFirst ++ taken.map stepOf).reverse := by
  induction items generalizing newestFirst oid with
  | nil =>
    unfold selectLoop at h
    split at h <;> cases h
  | cons entry items ih =>
    unfold selectLoop at h
    split at h
    · cases h
    next hsame =>
    rw [not_not] at hsame
    split at h
    next hbase =>
      refine ⟨[], entry.2, items, by rw [← hbase]; rfl, ?_, ?_⟩
      · rw [← hsame, hbase]
        exact .base
      · rw [List.map_nil, List.append_nil]
        exact (Except.ok.inj h).symm
    next hbase =>
      split at h
      · cases h
      split at h
      next parent hparent =>
        obtain ⟨taken, commit, rest, rfl, hline, rfl⟩ := ih h
        have hstep : stepOf entry = pendingStep oid parent := by
          rw [stepOf, hsame, hparent]
          rfl
        refine ⟨entry :: taken, commit, rest, rfl, ?_, ?_⟩
        · rw [← hsame]
          exact .step hbase hparent hline
        · rw [List.map_cons, hstep, List.append_assoc]
          rfl
      · cases h

-- Steps

/-- The steps of a plan are the line from the base to the current commit. -/
structure LinearSteps (store : CommitStore) (base current : Text) (steps : List OperationStep) :
    Prop where
  /-- From the current commit down to the base, nothing else and nothing left out. -/
  line : FirstParents store base current (steps.map OperationStep.sourceOid).reverse
  nodup : (steps.map OperationStep.sourceOid).Nodup
  /-- Every commit has one parent, and its step is what its parent and it make. -/
  stored : ∀ step ∈ steps, ∃ commit parent, Stored store (step.sourceOid, commit) ∧
    commit.parent = [parent] ∧ step = pendingStep step.sourceOid parent
  first : ∀ step ∈ steps.head?, step.selectedParentOid = some base
  linked : steps.IsChain fun older newer => newer.selectedParentOid = some older.sourceOid

theorem stepOf_eq {item : Text × Commit} {parent : Text} (h : item.2.parent = [parent]) :
    stepOf item = pendingStep item.1 parent := by
  rw [stepOf, h]
  rfl

theorem map_sourceOid (items : List (Text × Commit)) :
    (items.map stepOf).map OperationStep.sourceOid = items.map Prod.fst := by
  rw [List.map_map]
  rfl

section

variable (h : Line base oid items)

include h

theorem Line.parents :
    ∀ item ∈ items, ∃ parent, item.2.parent = [parent] := by
  induction h with
  | base => exact fun item hitem => nomatch hitem
  | step _ hparent _ ih =>
    intro item hitem
    rcases List.mem_cons.1 hitem with rfl | hitem
    · exact ⟨_, hparent⟩
    · exact ih item hitem

theorem Line.firstParents (hstored : ∀ item ∈ items, Stored store item) :
    FirstParents store base oid (items.map Prod.fst) := by
  induction h with
  | base => exact .base
  | step hne hparent _ ih =>
    exact .step hne (hstored _ List.mem_cons_self) (by rw [hparent]; rfl)
      (ih fun item hitem => hstored item (List.mem_cons_of_mem _ hitem))

/-- Newest first, every step's parent is the source of the step after it. -/
theorem Line.linked :
    (items.map stepOf).IsChain fun newer older => newer.selectedParentOid = some older.sourceOid := by
  induction h with
  | base => exact List.isChain_nil
  | step _ hparent hrest ih =>
    rw [List.map_cons]
    cases hrest with
    | base => exact List.isChain_singleton _
    | step hne hparent' hrest =>
      refine List.isChain_cons_cons.2 ⟨?_, ih⟩
      rw [stepOf_eq hparent]
      rfl

/-- The last one taken is the child of the base. -/
theorem Line.last :
    ∀ step ∈ (items.map stepOf).getLast?, step.selectedParentOid = some base := by
  induction h with
  | base => exact fun step hstep => by cases hstep
  | step _ hparent hrest ih =>
    rw [List.map_cons]
    cases hrest with
    | base =>
      intro step hstep
      rw [← Option.some.inj hstep, stepOf_eq hparent]
      rfl
    | step hne hparent' hrest =>
      intro step hstep
      rw [List.map_cons, List.getLast?_cons_cons] at hstep
      exact ih step hstep

theorem Line.linearSteps (hstored : ∀ item ∈ items, Stored store item)
    (hnodup : (items.map Prod.fst).Nodup) :
    LinearSteps store base oid (items.map stepOf).reverse where
  line := by
    rw [List.map_reverse, List.reverse_reverse, map_sourceOid]
    exact h.firstParents hstored
  nodup := by
    rw [List.map_reverse, List.nodup_reverse, map_sourceOid]
    exact hnodup
  stored := by
    intro step hstep
    obtain ⟨item, hitem, rfl⟩ := List.mem_map.1 (List.mem_reverse.1 hstep)
    obtain ⟨parent, hparent⟩ := h.parents item hitem
    exact ⟨item.2, parent, hstored item hitem, hparent, stepOf_eq hparent⟩
  first := by
    rw [List.head?_reverse]
    exact h.last
  linked := List.isChain_reverse.2 h.linked

end

-- The merge base

/-- A common ancestor of both commits that leads to every other one. -/
structure MergeBaseOf (repo : Merge.Repository) (input : MergeBaseInput) (fuel : Nat) (base : Text) :
    Prop where
  common : CommonAncestor repo.store input base
  best : ∀ nodes, reachableGraphOwned repo input fuel = some (.ok nodes) → Merge.Acyclic nodes →
    ∀ oid, CommonAncestor repo.store input oid → Relation.ReflTransGen (Merge.Edge nodes) base oid

theorem mem_common_of_best {nodes : GraphNodes} {shallow bases : List Text}
    (h : bestCommonAncestors nodes shallow = .ok bases) :
    ∀ base ∈ bases, base ∈ Merge.commonOids nodes := by
  unfold bestCommonAncestors at h
  obtain ⟨counts, -, h⟩ := bind_eq_ok.1 h
  obtain ⟨state, -, h⟩ := bind_eq_ok.1 h
  split at h
  · cases h
  · intro base hbase
    rw [← Except.ok.inj h, List.mem_mergeSort] at hbase
    exact (List.mem_filter.1 hbase).1

theorem requireUniqueBase_ok
    (h : requireUniqueBase selection = .ok base) : selection.bases = [base] := by
  obtain ⟨kind, bases, commits⟩ := selection
  unfold requireUniqueBase at h
  dsimp only at h ⊢
  split at h
  · cases h
  · cases h
  · rw [Except.ok.inj h]
  · cases h

section
variable {repo : Merge.Repository} {input : MergeBaseInput} {limits : Merge.ResolvedLimits}
  {fuel : Nat} {currentItems incomingItems : List (Text × Commit)} {nodes : GraphNodes}

section

variable (h : Collected repo input limits fuel currentItems incomingItems nodes)
  (hgraph : reachableGraphOwned repo input fuel = some (.ok nodes))

include h hgraph

/-- One of the two commits, when the other reaches it. -/
theorem mergeBaseOf_side (hside : base = input.currentOid ∨ base = input.incomingOid)
    (hboth : Merge.sidesAt nodes base = some Merge.both) : MergeBaseOf repo input fuel base where
  common := (h.sidesAt_both base).1 hboth
  best := by
    intro nodes' hgraph' _ oid hoid
    obtain rfl := Except.ok.inj (Option.some.inj (hgraph.symm.trans hgraph'))
    have hreaches : Reaches (parentsWithin repo.store) base oid := by
      rcases hside with rfl | rfl
      · exact hoid.1
      · exact hoid.2
    have hbase : base ∈ Merge.oidsOf nodes := (h.mem_iff base).2 (hside.imp
      (fun heq => by rw [heq]; exact .refl) fun heq => by rw [heq]; exact .refl)
    exact (h.path hbase hreaches).2

/-- The only best common ancestor. -/
theorem mergeBaseOf_best (hbase : bestCommonAncestors nodes repo.store.shallow = .ok [base]) :
    MergeBaseOf repo input fuel base where
  common := (h.mem_commonOids base).1 (mem_common_of_best hbase base List.mem_cons_self)
  best := by
    intro nodes' hgraph' hacyclic oid hoid
    obtain rfl := Except.ok.inj (Option.some.inj (hgraph.symm.trans hgraph'))
    obtain ⟨bases, hbases, hbest⟩ := h.best hacyclic
    obtain rfl := Except.ok.inj (hbase.symm.trans hbases)
    obtain ⟨above, habove, hpath⟩ := hbest.reaches hacyclic ((h.mem_commonOids oid).2 hoid)
    rw [List.mem_singleton.1 habove] at hpath
    exact hpath

/-- What a selection with one base is. -/
theorem selectFrom_unique
    (hselect : Merge.selectFrom nodes repo.store.shallow input limits = .ok selection)
    (hbase : requireUniqueBase selection = .ok base) :
    MergeBaseOf repo input fuel base ∧
      ((selection.kind = .alreadyMerged ∧ base = input.incomingOid) ∨
        (selection.kind = .fastForward ∧ base = input.currentOid) ∨
        (selection.kind = .divergent ∧ base ≠ input.currentOid)) := by
  unfold Merge.selectFrom at hselect
  dsimp only at hselect
  split at hselect
  next hmerged =>
    rw [← Except.ok.inj hselect] at hbase ⊢
    cases hbase
    exact ⟨mergeBaseOf_side h hgraph (.inr rfl) hmerged, .inl ⟨rfl, rfl⟩⟩
  split at hselect
  next hforward =>
    rw [← Except.ok.inj hselect] at hbase ⊢
    cases hbase
    exact ⟨mergeBaseOf_side h hgraph (.inl rfl) hforward, .inr (.inl ⟨rfl, rfl⟩)⟩
  next hnot =>
  split at hselect
  · rw [← Except.ok.inj hselect] at hbase
    cases hbase
  obtain ⟨bases, hbases, hselect⟩ := bind_eq_ok.1 hselect
  split at hselect
  · rw [← Except.ok.inj hselect] at hbase
    cases hbase
  split at hselect
  · cases hselect
  rw [← Except.ok.inj hselect] at hbase ⊢
  rw [show bases = [base] from requireUniqueBase_ok hbase] at hbases
  have hbest := mergeBaseOf_best h hgraph hbases
  refine ⟨hbest, .inr (.inr ⟨rfl, ?_⟩)⟩
  rintro rfl
  exact hnot ((h.sidesAt_both _).2 hbest.common)

end

end

-- Plans

/-- The input of the merge base of a plan. -/
def mergeInput (input : RebasePlanInput) (upstreamOid : Text) (limits : ResolvedLimits) :
    MergeBaseInput :=
  { currentOid := input.currentOid, incomingOid := upstreamOid
    limits := { maxCommits := some limits.maxCommits, maxBases := none } }

theorem resolveLimits_maxCommits {maxCommits : Nat} {limits : Merge.ResolvedLimits}
    (h : Merge.resolveLimits { maxCommits := some maxCommits, maxBases := none } = .ok limits) :
    limits.maxCommits = maxCommits := by
  unfold Merge.resolveLimits at h
  obtain ⟨resolved, hresolved, h⟩ := bind_eq_ok.1 h
  obtain ⟨_, -, rfl⟩ := Fuel.map_eq_ok.1 h
  unfold Merge.boundedLimit at hresolved
  dsimp only at hresolved
  split at hresolved
  · cases hresolved
  · exact (Except.ok.inj hresolved).symm

/-- The steps are selected from the walk that collected the current side. -/
theorem selectSteps_ok {repo : Repository} {input : RebasePlanInput} {upstreamOid : Text}
    {limits : ResolvedLimits} {resolved : Merge.ResolvedLimits} {fuel : Nat}
    {currentItems incomingItems : List (Text × Commit)} {nodes : GraphNodes}
    (hcollected : Collected repo.toRepository (mergeInput input upstreamOid limits) resolved fuel
      currentItems incomingItems nodes)
    (hlimits : resolved.maxCommits = limits.maxCommits)
    (h : selectSteps repo input.currentOid base limits fuel = some (.ok steps)) :
    LinearSteps repo.store base input.currentOid steps ∧
      (base ≠ input.currentOid → steps ≠ []) := by
  have hwalk := hcollected.left.walk
  rw [hlimits] at hwalk
  unfold selectSteps at h
  rw [show walkIndexedOwned repo.walk input.currentOid
    { maxCommits := some limits.maxCommits, maxBytes := none } fuel = some (currentItems, none)
    from hwalk] at h
  obtain ⟨taken, commit, rest, hitems, hline, rfl⟩ := selectLoop_ok (Option.some.inj h)
  have hsub : taken.Sublist currentItems := by
    rw [show currentItems = _ from hitems]
    exact List.sublist_append_left taken _
  have hstored : ∀ item ∈ taken, Stored repo.store item := fun item hitem =>
    hcollected.left.stored item (hsub.subset hitem)
  have hpeel := Merge.peel_of_commit (Merge.checkInput_ok hcollected.check).2.2.2.1
  have hnodup := (Commits.walkIndexedOwned_ok hpeel hcollected.left.walk).1
  refine ⟨hline.linearSteps hstored (hnodup.sublist (hsub.map Prod.fst)), fun hne hnil => ?_⟩
  cases hline with
  | base => exact hne rfl
  | step _ _ _ => simp at hnil

/-- What a plan selects: the merge base of the two commits, and for a replay the line of commits
    from it to the current one.  Where one commit is the base there is nothing to replay. -/
theorem planRebase_steps {repo : Repository} {input : RebasePlanInput} {fuel : Nat}
    {plan : RebasePlan} (h : planRebase repo input fuel = some (.ok plan)) :
    ∃ limits, planInputs repo input = .ok (limits, plan.upstreamOid) ∧
      MergeBaseOf repo.toRepository (mergeInput input plan.upstreamOid limits) fuel plan.baseOid ∧
      (plan.relation = .replay → plan.steps ≠ [] ∧
        LinearSteps repo.store plan.baseOid input.currentOid plan.steps) ∧
      (plan.relation = .fastForward → plan.baseOid = input.currentOid ∧ plan.steps = []) ∧
      (plan.relation = .upToDate → plan.baseOid = plan.upstreamOid ∧ plan.steps = []) := by
  unfold planRebase at h
  obtain ⟨⟨limits, upstreamOid⟩, hinputs, h⟩ := andThen_eq_ok.1 h
  obtain ⟨selection, hselection, h⟩ := andThen_eq_ok.1 h
  obtain ⟨base, hbase, h⟩ := andThen_eq_ok.1 h
  have hbase := Option.some.inj hbase
  change selectMergeBases repo.toRepository (mergeInput input upstreamOid limits) fuel = _
    at hselection
  unfold selectMergeBases at hselection
  obtain ⟨nodes, hgraph, hselection⟩ := andThen_eq_ok.1 hselection
  obtain ⟨resolved, hresolved, hselection⟩ := andThen_eq_ok.1 hselection
  have hresolved := Option.some.inj hresolved
  obtain ⟨limits', currentItems, incomingItems, hcollected⟩ :=
    Merge.reachableGraphOwned_ok hgraph
  obtain rfl := Except.ok.inj
    ((Merge.checkInput_ok hcollected.check).2.2.1.symm.trans hresolved)
  obtain ⟨hbest, hkind⟩ := selectFrom_unique hcollected hgraph (Option.some.inj hselection) hbase
  rcases hkind with ⟨hkind, rfl⟩ | ⟨hkind, rfl⟩ | ⟨hkind, hne⟩
  · rw [hkind] at h
    obtain rfl := Except.ok.inj (Option.some.inj h)
    exact ⟨limits, Option.some.inj hinputs, hbest, nofun, nofun, fun _ => ⟨rfl, rfl⟩⟩
  · rw [hkind] at h
    obtain rfl := Except.ok.inj (Option.some.inj h)
    exact ⟨limits, Option.some.inj hinputs, hbest, nofun, fun _ => ⟨rfl, rfl⟩, nofun⟩
  · rw [hkind] at h
    obtain ⟨answer, hsteps, h⟩ := Option.map_eq_some_iff.1 h
    obtain ⟨steps, rfl, rfl⟩ := Fuel.map_eq_ok.1 h
    obtain ⟨hlinear, hsome⟩ := selectSteps_ok hcollected (resolveLimits_maxCommits hresolved) hsteps
    exact ⟨limits, Option.some.inj hinputs, hbest, fun _ => ⟨hsome hne, hlinear⟩, nofun, nofun⟩

-- Two commits on one

def forkOid : Text := Merge.rootOid 0x30

def forkCommit (oid : Text) : Commit :=
  Commits.commitWith (if oid = forkOid then [] else [forkOid])

/-- A commit with two children. -/
def forkRepo : Repository where
  store :=
    { repoId := 1
      cachedCommit := fun oid =>
        if oid ∈ [Commits.mergeOid, Merge.rootOid 0x31, forkOid] then
          some { repoId := 1, oid, objectSize := 200, commit := .complete (forkCommit oid) }
        else none
      typeOf := fun _ => some .commit
      read := fun _ => none
      shallow := []
      oid_of_cachedCommit := by
        intro oid entry h
        split at h
        · rw [← Option.some.inj h]
        · cases h }
  tagTarget := .ok
  resolveRef := fun _ => .ok none
  has := fun _ => true
  resolvePrefix := fun _ => .ok none
  readAuthenticated := fun _ _ => .ok []

def forkInput (upstream : Text) : RebasePlanInput :=
  { upstream, currentOid := Commits.mergeOid, limits := { maxSteps := none, maxGraphCommits := none } }

/-- A child of the fork is replayed on the other one. -/
theorem planRebase_fork :
    ∃ limits, planInputs forkRepo (forkInput (Merge.rootOid 0x31)) = .ok (limits, Merge.rootOid 0x31) ∧
      LinearSteps forkRepo.store forkOid Commits.mergeOid [pendingStep Commits.mergeOid forkOid] := by
  have hplan : planRebase forkRepo (forkInput (Merge.rootOid 0x31)) 10 = some (.ok
      { relation := .replay, originalHeadOid := Commits.mergeOid, upstreamOid := Merge.rootOid 0x31
        baseOid := forkOid, steps := [pendingStep Commits.mergeOid forkOid], graphCommits := 3 }) := by
    decide +kernel
  obtain ⟨limits, hinputs, -, hreplay, -⟩ := planRebase_steps hplan
  exact ⟨limits, hinputs, (hreplay rfl).2⟩

/-- The upstream is merged already: the current commit lies above it, and is not selected. -/
theorem merged_selects_nothing :
    planRebase forkRepo (forkInput forkOid) 10 = some (.ok
        { relation := .upToDate, originalHeadOid := Commits.mergeOid, upstreamOid := forkOid
          baseOid := forkOid, steps := [], graphCommits := 2 }) ∧
      FirstParents forkRepo.store forkOid Commits.mergeOid [Commits.mergeOid] := by
  have hstored : Stored forkRepo.store (Commits.mergeOid, forkCommit Commits.mergeOid) :=
    ⟨{ repoId := 1, oid := Commits.mergeOid, objectSize := 200
       commit := .complete (forkCommit Commits.mergeOid) }, by decide +kernel, rfl⟩
  have hparent : (forkCommit Commits.mergeOid).parent.head? = some forkOid := by decide +kernel
  exact ⟨by decide +kernel, .step (by decide +kernel) hstored hparent .base⟩

end Kompjutr.Rebase
