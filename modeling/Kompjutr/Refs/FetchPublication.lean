/-
  Kompjutr.Refs.FetchPublication

  Publishing what a remote advertised (`store/fetch/fetch-publication.ts`,
  `fetch-publication-state.ts`, `fetch-publication-revisions.ts`,
  `fetch-publication-preflight.ts`).

  A publication begins with a transaction that takes a snapshot and ends, any number of
  other transactions later, with one that compares the snapshot with what it finds.  A
  token here is what the store remembers of it; that a token is forgotten once it was
  used or disposed of is left out, so that every use of a token is allowed.
-/
import Kompjutr.Refs.Table

namespace Kompjutr.Refs

open Objects (Text text shown isOid)

def maxFetchPublicationInputs : Nat := 100000

/-- The rows of one repository that a publication reads or writes. -/
structure FetchTables where
  tables : RefTables
  shallow : List Text
  shallowRevision : Nat

structure TrackingRefPublication where
  refName : Text
  target : Option Text
  refRevision : Nat
  deriving DecidableEq

structure FetchPublication where
  generation : Nat
  trackingPrefix : Text
  namespaceRevision : Nat
  shallowRevision : Nat
  shallow : List Text
  trackingRefs : List (Text × Text)
  exactRefs : List (Text × Option Text)
  checkoutRevision : Nat
  deriving DecidableEq

def staleFetch (message : String) : GitError := { code := "ESTALEFETCH", message }

def requireFetchTrackingPrefix (value : Text) : Except GitError Text := do
  let invalid := invalidRefValue "fetch tracking prefix must identify refs/remotes/<remote>/"
  reject (!(text "refs/remotes/").isPrefixOf value || value = text "refs/remotes/" ||
    value.getLast? ≠ some 0x2f) invalid
  let _ ← refTextBytes value "fetch tracking prefix"
  reject (!hasCanonicalRefSyntaxWithWildcard value none 0 (value.length - 1)) invalid
  return value

-- Revisions

/-- `readTrackingRefRevision`. -/
def readTrackingRefRevision (tables : RefTables) (refName : Text) : Option Nat :=
  (tables.trackingRevisions.find? (·.1 = refName)).map (·.2)

/-- The row of one namespace. -/
def readFetchNamespace (tables : RefTables) (trackingPrefix : Text) : Option FetchNamespace :=
  tables.fetchNamespaces.find? (·.trackingPrefix = trackingPrefix)

def ensureTrackingRefRevision (tables : RefTables) (refName : Text) :
    Except GitError (RefTables × Nat) :=
  match readTrackingRefRevision tables refName with
  | some revision => .ok (tables, revision)
  | none => do
    reject (maxTrackingRefRevisions ≤ tables.trackingRevisions.length)
      (exhausted "repository tracking revision count exceeds 100,000")
    return ({ tables with trackingRevisions := tables.trackingRevisions ++ [(refName, 0)] }, 0)

/-- `advanceTrackingRefObservations`: every snapshot of a ref of the namespace gets old. -/
def advanceTrackingRefObservations (tables : RefTables) (trackingPrefix : Text) :
    Except GitError RefTables := do
  let matched := fun row : Text × Nat => trackingPrefix.isPrefixOf row.1
  reject (tables.trackingRevisions.any fun row => matched row && maxCount ≤ row.2)
    (exhausted "tracking ref revision is exhausted")
  return { tables with
    trackingRevisions := tables.trackingRevisions.map fun row =>
      if matched row then (row.1, row.2 + 1) else row }

-- One tracking ref

def beginTrackingRefPublication (store : FetchTables) (trackingPrefix refName : Text) :
    Except GitError (FetchTables × TrackingRefPublication) := do
  let checked ← requireFetchTrackingPrefix trackingPrefix
  let name ← requireRefName refName "tracking publication ref" false
  reject (!checked.isPrefixOf name ||
      (name.length = checked.length + 4 && (text "HEAD").isSuffixOf name))
    (invalidRefValue "tracking publication ref is outside its branch namespace")
  let (tables, refRevision) ← ensureTrackingRefRevision store.tables name
  return ({ store with tables }, { refName := name, target := tables.refs.lookup name, refRevision })

/-- The mutation of a tracking publication. -/
def trackingMutation (token : TrackingRefPublication) (target : Option Text) : RefMutation :=
  { puts := (target.map fun target => { name := token.refName, target }).toList
    deletes := if target = none then [token.refName] else []
    head := none
    expected := some { name := token.refName, target := token.target } }

/-- A publication that changes nothing still makes the other snapshots old. -/
def bumpUnchanged (tables : RefTables) (refName : Text) : Except GitError RefTables := do
  let trackingRevisions ← bumpTrackingRefRevisions [refName] tables.trackingRevisions
  let fetchNamespaces ← bumpFetchNamespaceRevisions [refName] tables.fetchNamespaces
  return { tables with trackingRevisions, fetchNamespaces }

def publishTrackingTransaction (tables : RefTables) (owner : HeadOwner)
    (token : TrackingRefPublication) (target : Option Text) (metadata : RefLogMetadata) :
    Except GitError (RefTables × Bool) := do
  let normalized ← normalizeRefMutation (trackingMutation token target)
  let checked ← validateRefLogMetadata metadata
  reject (readTrackingRefRevision tables token.refName ≠ some token.refRevision)
    (staleFetch "the tracking ref changed after observation")
  let (mutated, changed) ← mutateNormalized tables owner normalized checked
  if changed then return (mutated, true)
  else
    let bumped ← bumpUnchanged mutated token.refName
    return (bumped, false)

/-- The error of a conditional update is one of the fetch. -/
def trackingError (token : TrackingRefPublication) (error : GitError) : GitError :=
  if error.code = "ESTALEHEAD" then
    staleFetch s!"tracking ref {shown token.refName} changed after observation"
  else error

def publishTrackingRef (store : FetchTables) (owner : HeadOwner) (token : TrackingRefPublication)
    (target : Option Text) (metadata : RefLogMetadata) : Except GitError (FetchTables × Bool) :=
  match publishTrackingTransaction store.tables owner token target metadata with
  | .error error => .error (trackingError token error)
  | .ok (tables, changed) => .ok ({ store with tables }, changed)

-- A whole namespace

/-- One candidate of `candidateExactRefs`, with those before it. -/
def addCandidate (candidates : List Text) (value : Text) : Except GitError (List Text) := do
  reject (maxFetchPublicationInputs < candidates.length + 1)
    (exhausted "fetch exact candidate count exceeds 100,000")
  let name ← requireRefName value "fetch exact ref candidate" false
  reject (!(text "refs/").isPrefixOf name)
    (invalidRefValue "fetch exact ref candidates must be full refs")
  reject (candidates.contains name)
    (invalidRefValue s!"duplicate fetch exact ref candidate {shown name}")
  return candidates ++ [name]

/-- `iterateRefs`, in the order of the names. -/
def iterateRefs (tables : RefTables) : List (Text × Text) :=
  (tables.refs.entries.map fun entry => (entry.1, entry.2)).mergeSort
    fun left right => comparePaths left.1 right.1 ≠ .gt

/-- The checks of one row of the snapshot; the number of tracking rows so far. -/
def snapshotRow (trackingPrefix : Text) (candidates : List Text) (tracked : Nat)
    (row : Text × Text) : Except GitError Nat := do
  reject (trackingPrefix.isPrefixOf row.1 &&
      maxFetchPublicationInputs ≤ candidates.length + tracked)
    (exhausted "fetch snapshot exceeds its retained input count bound")
  reject (candidates.contains row.1 && !isOid row.2)
    (invalidRefValue s!"fetch exact ref candidate {shown row.1} is symbolic")
  return if trackingPrefix.isPrefixOf row.1 then tracked + 1 else tracked

/-- The loop over the refs, which throws at the row that is one too many. -/
def snapshotRefs (tables : RefTables) (trackingPrefix : Text) (candidates : List Text) :
    Except GitError Nat := do
  let rows := iterateRefs tables
  let tracked ← (rows.take maxReflogStateRows).foldlM (snapshotRow trackingPrefix candidates) 0
  reject (maxReflogStateRows < rows.length)
    (exhausted "repository ref state exceeds its retained row bound")
  return tracked

/-- Either prefix contains the other. -/
def overlaps (left right : Text) : Bool := left.isPrefixOf right || right.isPrefixOf left

/-- The namespaces that overlap are fenced, and the namespace itself is recorded. -/
def fenceNamespaces (rows : List FetchNamespace) (trackingPrefix : Text) (generation : Nat) :
    List FetchNamespace :=
  let fenced := rows.map fun row =>
    if overlaps row.trackingPrefix trackingPrefix then { row with latestGeneration := generation }
    else row
  if rows.any (·.trackingPrefix = trackingPrefix) then fenced
  else fenced ++ [{ trackingPrefix, latestGeneration := generation, revision := 0 }]

/-- The checks of the transaction before it allocates a generation. -/
def checkFetchBegin (store : FetchTables) (trackingPrefix : Text) (candidates : List Text) :
    Except GitError RefTables := do
  reject (maxCount ≤ store.tables.fetchGeneration)
    (exhausted "fetch publication generation is exhausted")
  reject (maxTrackingRefRevisions < store.tables.trackingRevisions.length)
    (corrupt "tracking ref revision count exceeds its bound")
  let tables ← advanceTrackingRefObservations store.tables trackingPrefix
  reject (maxFetchNamespaces < tables.fetchNamespaces.length)
    (exhausted "repository fetch namespace count exceeds 1,024")
  reject (tables.fetchNamespaces.any (tables.fetchGeneration < ·.latestGeneration))
    (corrupt "fetch namespace generation exceeds its repository control")
  reject (readFetchNamespace tables trackingPrefix = none &&
      maxFetchNamespaces ≤ tables.fetchNamespaces.length)
    (exhausted "repository fetch namespace count exceeds 1,024")
  let tracked ← snapshotRefs tables trackingPrefix candidates
  reject (store.shallow ≠ [] &&
      maxFetchPublicationInputs < candidates.length + tracked + store.shallow.length)
    (exhausted "fetch snapshot exceeds its retained input count bound")
  return tables

def beginFetchPublication (store : FetchTables) (trackingPrefix : Text)
    (candidateExactRefs : List Text) : Except GitError (FetchTables × FetchPublication) := do
  let checked ← requireFetchTrackingPrefix trackingPrefix
  let candidates ← candidateExactRefs.foldlM addCandidate []
  let tables ← checkFetchBegin store checked candidates
  let generation := tables.fetchGeneration + 1
  let namespaces := fenceNamespaces tables.fetchNamespaces checked generation
  let tables := { tables with fetchGeneration := generation, fetchNamespaces := namespaces }
  match readFetchNamespace tables checked with
  | none => throw (corrupt "issued fetch namespace is missing")
  | some issued => do
    reject (issued.latestGeneration ≠ generation)
      (corrupt "issued fetch namespace has the wrong generation")
    return ({ store with tables },
      { generation, trackingPrefix := checked, namespaceRevision := issued.revision
        shallowRevision := store.shallowRevision, shallow := store.shallow
        trackingRefs := (iterateRefs tables).filter fun row => checked.isPrefixOf row.1
        exactRefs := candidates.map fun name => (name, tables.refs.lookup name)
        checkoutRevision := tables.checkoutRevision })

-- The plan of a fetch

structure FetchPublicationPlan where
  trackingPuts : List RefRow
  trackingKeep : Option (List Text)
  /-- `none` leaves the remote HEAD alone; `some none` deletes it. -/
  remoteHead : Option (Option Text)
  exactPuts : List RefRow
  shallowAdd : List Text
  shallowRemove : List Text
  deriving DecidableEq

/-- What `normalizeFetchPublication` has collected. -/
structure PlanState where
  puts : RefMap
  deletes : List Text
  keep : List Text
  inputs : Nat

/-- Its `countInput`. -/
def countFetchInput (inputs : Nat) (name : Text) (label : String) (target : Option Text) :
    Except GitError Nat := do
  reject (maxFetchPublicationInputs < inputs + 1)
    (exhausted "fetch publication exceeds its retained input count bound")
  let _ ← refTextBytes name label
  target.forM fun target => do
    let _ ← refTextBytes target "fetch ref target"
  return inputs + 1

def remoteHeadName (token : FetchPublication) : Text := token.trackingPrefix ++ text "HEAD"

def trackingName (token : FetchPublication) (value : Text) (label : String) :
    Except GitError Text := do
  let name ← requireRefName value label false
  reject (!token.trackingPrefix.isPrefixOf name || name = remoteHeadName token)
    (invalidRefValue s!"{label} is outside the issued tracking namespace")
  return name

def addTrackingPut (token : FetchPublication) (state : PlanState) (row : RefRow) :
    Except GitError PlanState := do
  let name ← trackingName token row.name "fetch tracking ref name"
  let target ← requireRawRefTarget row.target s!"target of {shown name}"
  let inputs ← countFetchInput state.inputs name "fetch tracking ref name" (some target)
  return { state with
    puts := state.puts.insert name target, keep := state.keep.insert name, inputs }

def addTrackingKeep (token : FetchPublication) (state : PlanState) (value : Text) :
    Except GitError PlanState := do
  let name ← trackingName token value "advertised tracking ref name"
  let inputs ← countFetchInput state.inputs name "advertised tracking ref name" none
  return { state with keep := state.keep.insert name, inputs }

/-- The tracking refs that the remote does not have any more. -/
def prune (token : FetchPublication) (state : PlanState) : PlanState :=
  { state with deletes := (token.trackingRefs.map (·.1)).filter fun name =>
      name ≠ remoteHeadName token && !state.keep.contains name }

def addTrackingKeeps (token : FetchPublication) (state : PlanState) :
    Option (List Text) → Except GitError PlanState
  | none => .ok state
  | some names => prune token <$> names.foldlM (addTrackingKeep token) state

def addRemoteHead (token : FetchPublication) (state : PlanState) :
    Option (Option Text) → Except GitError PlanState
  | none => .ok state
  | some none => do
    let inputs ← countFetchInput state.inputs (remoteHeadName token) "remote HEAD ref name" none
    return { state with deletes := state.deletes.insert (remoteHeadName token), inputs }
  | some (some head) => do
    let target ← requireRawRefTarget head "remote HEAD target"
    let inputs ← countFetchInput state.inputs (remoteHeadName token) "remote HEAD ref name"
      (some target)
    return { state with puts := state.puts.insert (remoteHeadName token) target, inputs }

def addExactPut (token : FetchPublication) (state : PlanState) (row : RefRow) :
    Except GitError PlanState := do
  let name ← requireRefName row.name "fetch exact ref name" false
  let target ← requireRawRefTarget row.target s!"target of {shown name}"
  reject (!isOid target)
    (invalidRefValue s!"fetch exact ref {shown name} must target an object id")
  reject (!(token.exactRefs.map (·.1)).contains name)
    (invalidRefValue s!"fetch exact ref {shown name} was not included in the issued snapshot")
  reject (decide (name ∈ state.puts) || state.deletes.contains name)
    (invalidRefValue s!"fetch publication contains duplicate destination {shown name}")
  let inputs ← countFetchInput state.inputs name "fetch exact ref name" (some target)
  return { state with puts := state.puts.insert name target, inputs }

def addShallow (state : List Text × Nat) (oid : Text) : Except GitError (List Text × Nat) := do
  reject (!isOid oid) (invalidRefValue "shallow addition must be a full object id")
  let inputs ← countFetchInput state.2 oid "shallow addition" none
  reject (state.1.contains oid) (invalidRefValue s!"duplicate shallow addition {shown oid}")
  return (state.1 ++ [oid], inputs)

def removeShallow (token : FetchPublication) (added : List Text) (state : List Text × Nat)
    (oid : Text) : Except GitError (List Text × Nat) := do
  reject (!isOid oid) (invalidRefValue "shallow deletion must be a full object id")
  let inputs ← countFetchInput state.2 oid "shallow deletion" none
  reject (state.1.contains oid) (invalidRefValue s!"duplicate shallow deletion {shown oid}")
  reject (!token.shallow.contains oid)
    (invalidRefValue s!"shallow deletion {shown oid} was not included in the issued snapshot")
  reject (added.contains oid)
    (invalidRefValue s!"fetch publication both adds and deletes shallow {shown oid}")
  return (state.1 ++ [oid], inputs)

structure NormalizedFetchPublication where
  refs : NormalizedRefMutation
  shallowAdd : List Text
  shallowRemove : List Text

def normalizeFetchPublication (token : FetchPublication) (plan : FetchPublicationPlan) :
    Except GitError NormalizedFetchPublication := do
  let state ← plan.trackingPuts.foldlM (addTrackingPut token)
    { puts := ∅, deletes := [], keep := [], inputs := 0 }
  let state ← addTrackingKeeps token state plan.trackingKeep
  let state ← addRemoteHead token state plan.remoteHead
  let state ← plan.exactPuts.foldlM (addExactPut token) state
  let (shallowAdd, inputs) ← plan.shallowAdd.foldlM addShallow ([], state.inputs)
  let (shallowRemove, _) ← plan.shallowRemove.foldlM (removeShallow token shallowAdd) ([], inputs)
  return { refs := { puts := state.puts, deletes := state.deletes, head := none, expected := none }
           shallowAdd, shallowRemove }

-- The comparison

/-- The exact refs that the publication writes. -/
def selectedExactRefs (token : FetchPublication) (publication : NormalizedRefMutation) :
    List Text :=
  publication.puts.keys.filter fun name => (token.exactRefs.map (·.1)).contains name

def exactChanged (name : Text) : GitError :=
  staleFetch s!"exact ref {shown name} changed after fetch discovery"

/-- Exact branches must not have been attached to a checkout. -/
def checkBranches (tables : RefTables) (token : FetchPublication) (branches : List Text) :
    Except GitError Unit :=
  if branches = [] then .ok ()
  else do
    reject (tables.checkoutRevision ≠ token.checkoutRevision)
      (staleFetch "the repository checkout state changed after fetch preflight")
    (tables.checkouts.filterMap fun row => rawSymbolicTarget row.head).forM fun attached =>
      reject (branches.contains attached)
        (staleFetch s!"branch {shown attached} became attached after fetch preflight")

/-- `map.get(name)` of the snapshot of the exact refs. -/
def FetchPublication.exactTarget (token : FetchPublication) (name : Text) : Option Text :=
  ((token.exactRefs.find? (·.1 = name)).bind (·.2))

/-- `map.get(name)` of the snapshot of the tracking refs. -/
def FetchPublication.trackedTarget (token : FetchPublication) (name : Text) : Option Text :=
  (token.trackingRefs.find? (·.1 = name)).map (·.2)

/-- One ref as it is now, compared with the snapshot. -/
def checkRow (token : FetchPublication) (publication : NormalizedRefMutation)
    (row : Text × Text) : Except GitError Unit := do
  reject (token.trackingPrefix.isPrefixOf row.1 && token.trackedTarget row.1 ≠ some row.2)
    (staleFetch s!"tracking ref {shown row.1} changed after fetch discovery")
  reject ((selectedExactRefs token publication).contains row.1 &&
      token.exactTarget row.1 ≠ some row.2 && publication.puts.lookup row.1 ≠ some row.2)
    (exactChanged row.1)

def preflightFetchPublication (store : FetchTables) (token : FetchPublication)
    (publication : NormalizedRefMutation) (shallowTouched : Bool) : Except GitError Unit := do
  match readFetchNamespace store.tables token.trackingPrefix with
  | none => throw (staleFetch "fetch tracking namespace disappeared")
  | some current => do
    reject (current.latestGeneration ≠ token.generation)
      (staleFetch "a newer fetch has fenced this tracking namespace")
    reject (current.revision ≠ token.namespaceRevision)
      (staleFetch "the tracking namespace changed after fetch discovery")
    reject (shallowTouched && store.shallowRevision ≠ token.shallowRevision)
      (staleFetch "the shallow boundary changed after fetch discovery")
    let selected := selectedExactRefs token publication
    checkBranches store.tables token (selected.filter (text "refs/heads/").isPrefixOf)
    let rows := iterateRefs store.tables
    (rows.take maxReflogStateRows).forM (checkRow token publication)
    reject (maxReflogStateRows < rows.length)
      (exhausted "repository ref state exceeds its retained row bound")
    reject ((rows.filter fun row => token.trackingPrefix.isPrefixOf row.1).length ≠
        token.trackingRefs.length)
      (staleFetch "the tracking ref set changed after fetch discovery")
    selected.forM fun name =>
      reject (token.exactTarget name ≠ none && store.tables.refs.lookup name = none)
        (exactChanged name)

/-- The shallow rows after a publication, and the epoch of its roots. -/
def publishShallow (store : FetchTables) (normalized : NormalizedFetchPublication)
    (token : FetchPublication) (changed : Bool) : Except GitError FetchTables := do
  reject (maxCount ≤ token.shallowRevision) (exhausted "shallow revision is exhausted")
  reject (store.shallowRevision ≠ token.shallowRevision)
    (corrupt "shallow revision changed during synchronous publication")
  reject (!changed && maxCount ≤ store.tables.rootEpoch)
    (exhausted "maintenance root epoch is exhausted")
  let kept := store.shallow.filter fun oid => !normalized.shallowRemove.contains oid
  let added := normalized.shallowAdd.filter fun oid => !kept.contains oid
  let rootEpoch := if changed then store.tables.rootEpoch else store.tables.rootEpoch + 1
  return { tables := { store.tables with rootEpoch }, shallow := kept ++ added,
           shallowRevision := store.shallowRevision + 1 }

def publishFetchRefs (store : FetchTables) (owner : HeadOwner) (token : FetchPublication)
    (plan : FetchPublicationPlan) (metadata : RefLogMetadata) :
    Except GitError (FetchTables × Bool) := do
  let normalized ← normalizeFetchPublication token plan
  let checked ← validateRefLogMetadata metadata
  let shallowTouched := normalized.shallowAdd ≠ [] || normalized.shallowRemove ≠ []
  preflightFetchPublication store token normalized.refs shallowTouched
  let (tables, changed) ← mutateNormalized store.tables owner normalized.refs checked
  if shallowTouched then
    let published ← publishShallow { store with tables } normalized token changed
    return (published, true)
  else return ({ store with tables }, changed)

end Kompjutr.Refs
