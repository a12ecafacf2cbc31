/-
  Kompjutr.Push.Plan

  The plan of a push (`ops/push/push-plan-*.ts`): the checks of its updates, and the objects
  that the remote does not have.

  A plan answers, throws, or finds no answer within its fuel, which the graph and the tree
  walks take.
-/
import Kompjutr.Fs.PathOrder
import Kompjutr.Merge.Base
import Kompjutr.Refs.Name
import Kompjutr.Trees.Walk

namespace Kompjutr.Push

open Objects (Text text shown isOid ObjectType Commit)
open Commits (CommitStore WalkRepository walkIndexedOwned noLimits)
open Trees (TreeTable TreeReader iterateTreeDiffObjects)
open Refs (checkRefText hasCanonicalRefSyntax)
open Fuel (Run)

-- Repository

inductive ObjectSource where
  | loose | pack
  deriving DecidableEq

structure ObjectInfo where
  type : ObjectType
  size : Int
  source : ObjectSource
  deriving DecidableEq

/-- What planning reads of a repository.  Both type lookups read the same rows. -/
structure Repository where
  store : CommitStore
  objectInfo : Text → Except GitError ObjectInfo
  promisedMissing : Text → Bool
  readObject : Text → Except GitError (List UInt8)
  readTree : TreeReader
  trees : TreeTable
  typeOf_of_objectInfo : ∀ {oid : Text} {info : ObjectInfo},
    objectInfo oid = .ok info → store.typeOf oid = some info.type

/-- The target of a tag. -/
structure TagTarget where
  object : Text
  type : ObjectType
  deriving DecidableEq

def readTag (repo : Repository) (oid : Text) : Except GitError TagTarget :=
  (repo.readObject oid).bind fun data =>
  (Objects.parseTag data).map fun tag => { object := tag.object, type := tag.type }

/-- The repository as the commit walks read it. -/
def Repository.walk (repo : Repository) : WalkRepository :=
  Merge.Repository.walk
    { store := repo.store, tagTarget := fun oid => (readTag repo oid).map TagTarget.object }

def promisedError (oids : List Text) : GitError :=
  { code := "EPROMISED"
    message := "promised blob content is not present: " ++ ", ".intercalate (oids.map shown) }

-- Options and updates

/-- `MAX_PUSH_COMMITS`. -/
def maxPushCommits : Int := 512

/-- `MAX_PUSH_OBJECTS`. -/
def maxPushObjects : Int := 100000

/-- `MAX_TAG_DEPTH`. -/
def maxTagDepth : Nat := 16

/-- `MAX_PUSH_UPDATES`. -/
def maxPushUpdates : Nat := 1024

/-- `ZERO_OID`. -/
def zeroOid : Text := List.replicate 40 0x30

structure PushPlanOptions where
  maxObjects : Option Int
  maxCommits : Option Int
  remoteOids : List Text
  deriving DecidableEq

structure NormalizedPushPlanOptions where
  maxObjects : Int
  maxCommits : Int
  remoteOids : List Text
  deriving DecidableEq

def invalid (message : String) : GitError := { code := "EINVAL", message }

def tooBig (message : String) : GitError := { code := "E2BIG", message }

def requireLimit (value maximum : Int) (label : String) : Except GitError Unit :=
  reject (!isSafeInteger value || value < 1 || maximum < value)
    (invalid s!"push {label} limit must be an integer from 1 to {maximum}")

def normalizedOptions (options : PushPlanOptions) : Except GitError NormalizedPushPlanOptions :=
  let maxObjects := options.maxObjects.getD maxPushObjects
  let maxCommits := options.maxCommits.getD maxPushCommits
  (requireLimit maxObjects maxPushObjects "object").bind fun _ =>
  (requireLimit maxCommits maxPushCommits "commit").bind fun _ =>
  (reject (maxPushObjects < options.remoteOids.length)
    (tooBig s!"push remote object list exceeds {maxPushObjects} entries")).bind fun _ =>
  (reject (options.remoteOids.any fun oid => !isOid oid)
    (invalid "push remote object list contains an invalid oid")).map fun _ =>
  { maxObjects, maxCommits, remoteOids := options.remoteOids }

/-- The counts are never negative here. -/
def validatePushPlanBounds (objectCount newCommitCount : Int) (limits : NormalizedPushPlanOptions) :
    Except GitError Unit :=
  (reject (!isSafeInteger objectCount || !isSafeInteger newCommitCount || objectCount < 0 ||
      newCommitCount < 0)
    (invalid "push plan bounds must be safe nonnegative integers")).bind fun _ =>
  (reject (limits.maxObjects < objectCount)
    (tooBig s!"push closure exceeds {limits.maxObjects} objects")).bind fun _ =>
  reject (limits.maxCommits < newCommitCount)
    (tooBig s!"push exceeds {limits.maxCommits} new commits")

/-- A deletion has neither a source nor an object. -/
structure PushPlanningUpdate where
  source : Option Text
  destination : Text
  oid : Option Text
  force : Bool
  oldOid : Text
  deriving DecidableEq

def isRefName (name : Text) : Bool :=
  (checkRefText name none).problem = none && (text "refs/").isPrefixOf name &&
    hasCanonicalRefSyntax name 0

def checkSource (number : Nat) (source oid : Text) : Except GitError Unit :=
  (reject (!isOid oid) (invalid s!"push update {number} has a malformed source")).bind fun _ =>
  if isOid source then
    reject (source ≠ oid) (invalid s!"push update {number} object-id source changed")
  else
    reject (!isRefName source)
      { code := "EINVALIDREF", message := s!"invalid push source {shown source}" }

/-- The checks of one update, with the destinations before it. -/
def checkUpdate (number : Nat) (destinations : List Text) (update : PushPlanningUpdate) :
    Except GitError Unit :=
  (reject (!isRefName update.destination)
    { code := "EINVALIDREF"
      message := s!"invalid push destination {shown update.destination}" }).bind fun _ =>
  (reject (destinations.contains update.destination)
    (invalid s!"duplicate push destination {shown update.destination}")).bind fun _ =>
  (reject (!isOid update.oldOid)
    (invalid s!"push update {number} has an invalid old oid")).bind fun _ =>
  match update.source, update.oid with
  | some source, some oid => checkSource number source oid
  | none, none => reject update.force (invalid s!"push deletion {number} is malformed")
  | _, _ => .error (invalid s!"push deletion {number} is malformed")

def checkUpdates : Nat → List Text → List PushPlanningUpdate → Except GitError Unit
  | _, _, [] => .ok ()
  | index, destinations, update :: updates =>
    (checkUpdate (index + 1) destinations update).bind fun _ =>
    checkUpdates (index + 1) (update.destination :: destinations) updates

def validatePlanningUpdates (updates : List PushPlanningUpdate) : Except GitError Unit :=
  (reject updates.isEmpty (invalid "push update list must not be empty")).bind fun _ =>
  (reject (maxPushUpdates < updates.length)
    (tooBig s!"push update list exceeds {maxPushUpdates} commands")).bind fun _ =>
  checkUpdates 0 [] updates

-- Roots

/-- The types and the tags that were recorded. -/
structure RootResolutionState where
  types : List (Text × ObjectType)
  tags : List (Text × TagTarget)
  deriving DecidableEq

/-- What following the tags from a root found. -/
structure ResolvedRoot where
  directType : ObjectType
  finalOid : Text
  finalType : ObjectType
  tags : List Text
  deriving DecidableEq

def typeAt (state : RootResolutionState) (oid : Text) : Option ObjectType := state.types.lookup oid

def tagAt (state : RootResolutionState) (oid : Text) : Option TagTarget := state.tags.lookup oid

/-- Types come from metadata; only the bodies of tags are read. -/
def recordObjects (repo : Repository) (oids : List Text) (state : RootResolutionState) :
    Except GitError RootResolutionState :=
  let unknown := oids.filter fun oid => (typeAt state oid).isNone
  let promised := unknown.filter repo.promisedMissing
  (reject (!promised.isEmpty) (promisedError promised)).bind fun _ =>
  (unknown.mapM fun oid => (repo.objectInfo oid).map fun info => (oid, info.type)).bind fun types =>
  ((types.filter fun found => found.2 = .tag).mapM fun found =>
    (readTag repo found.1).map fun tag => (found.1, tag)).map fun tags =>
  { types := state.types ++ types, tags := state.tags ++ tags }

/-- The targets of the tags of a frontier that are not yet recorded. -/
def nextFrontier (state : RootResolutionState) (frontier : List Text) : Except GitError (List Text) :=
  (frontier.filter fun oid => typeAt state oid = some .tag).foldlM
    (fun next oid =>
      match tagAt state oid with
      | none => .error (corrupt s!"tag {shown oid} was not read")
      | some tag => .ok (if (typeAt state tag.object).isNone then next ++ [tag.object] else next))
    []

/-- The rounds of `resolveRoots`, with those that are left. -/
def recordRounds (repo : Repository) :
    Nat → List Text → RootResolutionState → Except GitError RootResolutionState
  | 0, _, state => .ok state
  | rounds + 1, frontier, state =>
    if frontier = [] then .ok state
    else
      (recordObjects repo frontier state).bind fun state =>
      (nextFrontier state frontier).bind fun next =>
      if rounds = 0 && next ≠ [] then .error (corrupt "local push tag chain is too deep")
      else recordRounds repo rounds next.eraseDups state

/-- The tags from `oid` to what is no tag; there are no more turns than recorded objects without
    a cycle. -/
def followTags (state : RootResolutionState) (oid : Text) :
    Nat → List Text → Text → Except GitError (Text × List Text)
  | turns, tags, current =>
    if typeAt state current ≠ some .tag then .ok (current, tags)
    else if current ∈ tags then .error (corrupt s!"tag chain from {shown oid} contains a cycle")
    else
      match turns, tagAt state current with
      | 0, _ => .error (corrupt s!"tag chain from {shown oid} contains a cycle")
      | _, none => .error (corrupt s!"tag {shown current} was not read")
      | turns + 1, some tag =>
        match typeAt state tag.object with
        | none => .error (corrupt s!"tag {shown current} references a missing local object")
        | some targetType =>
          if tag.type ≠ targetType then
            let declared := Commits.typeName tag.type
            let targeted := Commits.typeName targetType
            .error (corrupt s!"tag {shown current} declares {declared} but targets {targeted}")
          else followTags state oid turns (tags ++ [current]) tag.object

def resolveRoot (state : RootResolutionState) (oid : Text) : Except GitError ResolvedRoot :=
  match typeAt state oid with
  | none => .error (corrupt s!"local push object {shown oid} disappeared")
  | some directType =>
    (followTags state oid state.types.length [] oid).bind fun followed =>
    match typeAt state followed.1 with
    | none | some .tag => .error (corrupt s!"tag chain from {shown oid} has no concrete target")
    | some finalType => .ok { directType, finalOid := followed.1, finalType, tags := followed.2 }

abbrev Roots := List (Text × ResolvedRoot)

def resolveRoots (repo : Repository) (oids : List Text) : Except GitError Roots :=
  (recordRounds repo (maxTagDepth + 1) oids.eraseDups { types := [], tags := [] }).bind fun state =>
  oids.mapM fun oid => (resolveRoot state oid).map fun root => (oid, root)

def rootAt (roots : Roots) (oid : Text) : Except GitError ResolvedRoot :=
  match roots.lookup oid with
  | none => .error (corrupt s!"push source {shown oid} was not resolved")
  | some root => .ok root

-- Namespaces

def isBranch (destination : Text) : Bool := (text "refs/heads/").isPrefixOf destination

def isTag (destination : Text) : Bool := (text "refs/tags/").isPrefixOf destination

/-- An existing ref gets another value without force. -/
def replaces (update : PushPlanningUpdate) (oid : Text) : Bool :=
  update.oldOid ≠ zeroOid && update.oldOid ≠ oid && !update.force

def directCommit (update : PushPlanningUpdate) (root : ResolvedRoot) : Except GitError Unit :=
  reject (isBranch update.destination && root.directType ≠ .commit)
    { code := "EINVALIDREF"
      message := s!"{shown update.destination} must point directly to a commit" }

def replacedTag (update : PushPlanningUpdate) : GitError :=
  { code := "ETAGFAIL", message := s!"push would replace existing tag {shown update.destination}" }

def nonCommitReplacement (update : PushPlanningUpdate) : GitError :=
  { code := "ENONFASTFORWARD"
    message := s!"{shown update.destination} requires force for a non-commit replacement" }

def notAncestor (update : PushPlanningUpdate) : GitError :=
  { code := "ENONFASTFORWARD"
    message := s!"{shown update.destination} is not an ancestor of its local source" }

def requireNamespaceKind (roots : Roots) (update : PushPlanningUpdate) : Except GitError Unit :=
  match update.oid with
  | none => .ok ()
  | some oid =>
    (rootAt roots oid).bind fun root =>
    (directCommit update root).bind fun _ =>
    (reject (isTag update.destination && replaces update oid) (replacedTag update)).bind fun _ =>
    reject (!isBranch update.destination && !isTag update.destination && replaces update oid &&
        root.finalType ≠ .commit)
      (nonCommitReplacement update)

def requireNamespaceKinds (updates : List PushPlanningUpdate) (roots : Roots) :
    Except GitError Unit :=
  updates.forM (requireNamespaceKind roots)

-- Commit graphs

structure PlannedCommit where
  oid : Text
  tree : Text
  parents : List Text
  deriving DecidableEq

/-- The commits in the order in which they were found. -/
abbrev PlannedCommits := List PlannedCommit

def commitAt (commits : PlannedCommits) (oid : Text) : Option PlannedCommit :=
  commits.find? fun commit => commit.oid = oid

def hasCommit (commits : PlannedCommits) (oid : Text) : Bool := (commitAt commits oid).isSome

def collectCommit (commits : PlannedCommits) (item : Text × Commit) :
    Except GitError PlannedCommits :=
  match commitAt commits item.1 with
  | some prior =>
    if prior.tree ≠ item.2.tree || prior.parents ≠ item.2.parent then
      .error (corrupt s!"commit {shown item.1} changed between push graph walks")
    else .ok commits
  | none => .ok (commits ++ [{ oid := item.1, tree := item.2.tree, parents := item.2.parent }])

/-- The commits of one root; what the walk yielded is collected before its error is seen. -/
def collectCommitGraph (repo : Repository) (fuel : Nat) (commits : PlannedCommits) (root : Text) :
    Run GitError PlannedCommits :=
  ExceptT.mk ((walkIndexedOwned repo.walk root noLimits fuel).map fun walked =>
    (walked.1.foldlM collectCommit commits).bind fun commits =>
    match walked.2 with
    | some error => .error error
    | none => .ok commits)

def collectCommitGraphs (repo : Repository) (roots : List Text) (fuel : Nat) :
    Run GitError PlannedCommits :=
  roots.foldlM (collectCommitGraph repo fuel) []

-- Namespace rules

/-- The commit of an old value outside `refs/heads`, when it is among the collected commits. -/
def customBoundary (repo : Repository) (oldOid : Text) (commits : PlannedCommits) :
    Except GitError (Option Text) :=
  if hasCommit commits oldOid then .ok (some oldOid)
  else
    match (resolveRoots repo [oldOid]).bind fun roots => rootAt roots oldOid with
    | .error error => if error.code = "E2BIG" then .error error else .ok none
    | .ok old =>
      .ok (if old.finalType = .commit && hasCommit commits old.finalOid then some old.finalOid
        else none)

/-- An old value that is among the collected commits. -/
def knownBoundary (commits : PlannedCommits) (oid : Text) : List Text :=
  if hasCommit commits oid then [oid] else []

/-- The boundary that an update adds. -/
def namespaceBoundary (repo : Repository) (commits : PlannedCommits) (update : PushPlanningUpdate)
    (oid : Text) (root : ResolvedRoot) : Except GitError (List Text) :=
  if update.oldOid = oid then
    .ok (if root.finalType = .commit then knownBoundary commits root.finalOid else [])
  else if isBranch update.destination then
    if update.oldOid ≠ zeroOid && !update.force then
      if hasCommit commits update.oldOid then .ok [update.oldOid] else .error (notAncestor update)
    else .ok (knownBoundary commits update.oldOid)
  else if isTag update.destination then
    if update.oldOid ≠ zeroOid && !update.force then .error (replacedTag update) else .ok []
  else if update.oldOid = zeroOid then .ok []
  else if !update.force then
    if root.finalType ≠ .commit then .error (nonCommitReplacement update)
    else
      (customBoundary repo update.oldOid commits).bind fun boundary =>
      match boundary with
      | none => .error (notAncestor update)
      | some boundary => .ok [boundary]
  else .ok (knownBoundary commits update.oldOid)

def requireNamespaceRule (repo : Repository) (roots : Roots) (commits : PlannedCommits)
    (boundaries : List Text) (update : PushPlanningUpdate) : Except GitError (List Text) :=
  match update.oid with
  | none => .ok boundaries
  | some oid =>
    (rootAt roots oid).bind fun root =>
    (directCommit update root).bind fun _ =>
    (namespaceBoundary repo commits update oid root).map fun added => boundaries ++ added

def requireNamespaceRules (repo : Repository) (updates : List PushPlanningUpdate) (roots : Roots)
    (commits : PlannedCommits) : Except GitError (List Text) :=
  updates.foldlM (requireNamespaceRule repo roots commits) []

-- What the remote has

/-- `excluded`, and `pending`, whose top comes first and whose commits are `queued`. -/
structure Exclusion where
  excluded : List Text
  pending : List Text
  deriving DecidableEq

def enqueue (commits : PlannedCommits) (state : Exclusion) (oid : Text) : Exclusion :=
  if oid = zeroOid || !hasCommit commits oid || oid ∈ state.excluded || oid ∈ state.pending then
    state
  else { state with pending := oid :: state.pending }

def excludeLoop (commits : PlannedCommits) : Nat → Exclusion → Option (List Text)
  | 0, _ => none
  | fuel + 1, state =>
    match state.pending with
    | [] => some state.excluded
    | oid :: pending =>
      if oid ∈ state.excluded then excludeLoop commits fuel { state with pending }
      else
        let state : Exclusion := { excluded := oid :: state.excluded, pending }
        match commitAt commits oid with
        | none => excludeLoop commits fuel state
        | some commit => excludeLoop commits fuel (commit.parents.foldl (enqueue commits) state)

def excludedCommits (commits : PlannedCommits) (remoteOids : List Text) (fuel : Nat) :
    Option (List Text) :=
  excludeLoop commits fuel
    (remoteOids.foldl (enqueue commits) { excluded := [], pending := [] })

-- Objects

/-- The objects in the order in which they were added. -/
abbrev PlannedObjects := List (Text × ObjectType)

def addObject (limits : NormalizedPushPlanOptions) (objects : PlannedObjects)
    (object : Text × ObjectType) : Except GitError PlannedObjects :=
  match objects.lookup object.1 with
  | some prior =>
    if prior ≠ object.2 then
      .error (corrupt s!"object {shown object.1} is indexed as both {Commits.typeName prior}         and {Commits.typeName object.2}")
    else .ok objects
  | none =>
    (validatePushPlanBounds (objects.length + 1) 0 limits).map fun _ => objects ++ [object]

structure PushObject where
  oid : Text
  type : ObjectType
  size : Int
  source : ObjectSource
  deriving DecidableEq

def hydrateObject (repo : Repository) (object : Text × ObjectType) : Except GitError PushObject :=
  (repo.objectInfo object.1).bind fun found =>
  if found.type ≠ object.2 then
    .error (corrupt s!"push metadata for {shown object.1} does not match its planned type")
  else .ok { oid := object.1, type := found.type, size := found.size, source := found.source }

/-- The objects with their metadata.  A page that fails makes the plan fail, whichever it is. -/
def hydrateObjects (repo : Repository) (objects : PlannedObjects) :
    Except GitError (List PushObject) :=
  let promised := (objects.map Prod.fst).filter repo.promisedMissing
  (reject (!promised.isEmpty) (promisedError promised)).bind fun _ =>
  objects.mapM (hydrateObject repo)

/-- The objects so far, and the rows of the trees that were parsed for them. -/
structure Planning where
  objects : PlannedObjects
  trees : TreeTable

def addObjects (limits : NormalizedPushPlanOptions) (added : PlannedObjects) (state : Planning) :
    Except GitError Planning :=
  (added.foldlM (addObject limits) state.objects).map fun objects => { state with objects }

/-- The objects of a tree transition. -/
def addTransition (repo : Repository) (limits : NormalizedPushPlanOptions) (before : Option Text)
    (after : Text) (fuel : Nat) (state : Planning) : Run GitError Planning := do
  let walked ← ExceptT.mk (iterateTreeDiffObjects repo.readTree state.trees before after fuel)
  Run.ofExcept (addObjects limits walked.1 { state with trees := walked.2 })

/-- The objects of a new commit: itself, and what its tree adds to its first parent's. -/
def addCommitObjects (repo : Repository) (limits : NormalizedPushPlanOptions)
    (commits : PlannedCommits) (fuel : Nat) (state : Planning) (commit : PlannedCommit) :
    Run GitError Planning := do
  let state ← Run.ofExcept (addObjects limits [(commit.oid, .commit)] state)
  match commit.parents.head? with
  | none => addTransition repo limits none commit.tree fuel state
  | some firstParent =>
    match commitAt commits firstParent with
    | none =>
      Run.ofExcept (.error
        (corrupt s!"push commit {shown commit.oid} has a missing parent {shown firstParent}"))
    | some parent => addTransition repo limits (some parent.tree) commit.tree fuel state

/-- The objects of a changed source that is no commit, and its tags. -/
def addRootObjects (repo : Repository) (limits : NormalizedPushPlanOptions) (roots : Roots)
    (fuel : Nat) (state : Planning) (oid : Text) : Run GitError Planning := do
  let root ← Run.ofExcept (rootAt roots oid)
  let state ← Run.ofExcept (addObjects limits (root.tags.map fun tag => (tag, .tag)) state)
  match root.finalType with
  | .tree => addTransition repo limits none root.finalOid fuel state
  | .blob => Run.ofExcept (addObjects limits [(root.finalOid, .blob)] state)
  | _ => pure state

-- The plan

structure PushPlan where
  objects : List PushObject
  newCommits : Int
  deriving DecidableEq

def sortTexts (texts : List Text) : List Text := texts.mergeSort fun a b => Fs.pathLe a b

def sortUpdates (updates : List PushPlanningUpdate) : List PushPlanningUpdate :=
  updates.mergeSort fun a b => Fs.pathLe a.destination b.destination

/-- One ref is not the source of two objects. -/
def verifySources : List (Text × Text) → List PushPlanningUpdate → Except GitError Unit
  | _, [] => .ok ()
  | verified, update :: updates =>
    match update.source, update.oid with
    | some source, some oid =>
      if isOid source then verifySources verified updates
      else
        match verified.lookup source with
        | some other =>
          if other ≠ oid then
            .error (corrupt s!"local ref {shown source} has conflicting sources")
          else verifySources verified updates
        | none => verifySources ((source, oid) :: verified) updates
    | _, _ => verifySources verified updates

/-- The commits that the remote does not have, as many as the limits allow. -/
def wantedCommits (commits : PlannedCommits) (excluded : List Text)
    (limits : NormalizedPushPlanOptions) : Except GitError PlannedCommits :=
  commits.foldlM
    (fun wanted commit =>
      if commit.oid ∈ excluded then .ok wanted
      else (validatePushPlanBounds 0 (wanted.length + 1) limits).map fun _ => wanted ++ [commit])
    []

def requireUnshallow (shallow : List Text) (wanted : PlannedCommits) : Except GitError Unit :=
  wanted.forM fun commit =>
    reject (commit.oid ∈ shallow && commit.parents ≠ [])
      (corrupt s!"push closure reaches shallow boundary {shown commit.oid}")

/-- The sources that change their destination. -/
def activeRoots (updates : List PushPlanningUpdate) : List Text :=
  updates.filterMap fun update => update.oid.filter fun oid => oid ≠ update.oldOid

/-- The commits of the plan and the roots that they were found from. -/
structure Collected where
  roots : Roots
  commits : PlannedCommits
  boundaries : List Text

/-- The first half of a plan: its roots, its commits and what the remote has of them. -/
def collect (repo : Repository) (updates : List PushPlanningUpdate) (fuel : Nat) :
    Run GitError Collected := do
  let sourceOids := updates.filterMap PushPlanningUpdate.oid
  let roots ← Run.ofExcept (resolveRoots repo (sortTexts sourceOids.eraseDups))
  Run.ofExcept (requireNamespaceKinds updates roots)
  let commitRoots := (roots.filter fun root => root.2.finalType = .commit).map fun root =>
    root.2.finalOid
  let commits ← collectCommitGraphs repo commitRoots.eraseDups fuel
  let boundaries ← Run.ofExcept (requireNamespaceRules repo updates roots commits)
  pure { roots, commits, boundaries }

/-- The second half: the objects of the commits and roots that the remote does not have. -/
def planObjects (repo : Repository) (updates : List PushPlanningUpdate)
    (limits : NormalizedPushPlanOptions) (collected : Collected) (fuel : Nat) :
    Run GitError PushPlan := do
  let known := limits.remoteOids.filter (hasCommit collected.commits)
  let excluded ← Run.ofOption (excludedCommits collected.commits (collected.boundaries ++ known) fuel)
  let wanted ← Run.ofExcept (wantedCommits collected.commits excluded limits)
  Run.ofExcept (requireUnshallow repo.store.shallow wanted)
  let state ← wanted.foldlM (addCommitObjects repo limits collected.commits fuel)
    { objects := [], trees := repo.trees }
  let state ← (sortTexts (activeRoots updates).eraseDups).foldlM
    (addRootObjects repo limits collected.roots fuel) state
  let objects ← Run.ofExcept (hydrateObjects repo state.objects)
  Run.ofExcept (validatePushPlanBounds objects.length wanted.length limits)
  pure { objects, newCommits := wanted.length }

/-- The plan of valid updates; there is none when all of them are deletions. -/
def planUpdates (repo : Repository) (updates : List PushPlanningUpdate)
    (limits : NormalizedPushPlanOptions) (fuel : Nat) : Run GitError (Option PushPlan) := do
  Run.ofExcept (validatePlanningUpdates updates)
  let ordered := sortUpdates updates
  let nonDeletes := ordered.filter fun update => update.oid.isSome
  match nonDeletes with
  | [] => pure none
  | _ =>
    Run.ofExcept (verifySources [] nonDeletes)
    let collected ← collect repo ordered fuel
    some <$> planObjects repo ordered limits collected fuel

/-- Errors that are about the request pass; others say that the local objects are incomplete. -/
def localPushError (error : GitError) : GitError :=
  if ["E2BIG", "EINVAL", "EINVALIDREF", "ENONFASTFORWARD", "ETAGFAIL"].contains error.code then error
  else { code := "EPUSHLOCAL", message := "local push source or closure is incomplete" }

/-- `planUpdateSet`. -/
def planPushUpdates (repo : Repository) (updates : List PushPlanningUpdate)
    (options : PushPlanOptions) (fuel : Nat) : Run GitError (Option PushPlan) :=
  ExceptT.mk (match normalizedOptions options with
    | .error error => some (.error error)
    | .ok limits => (planUpdates repo updates limits fuel).run.map fun answer =>
      answer.mapError localPushError)

end Kompjutr.Push
