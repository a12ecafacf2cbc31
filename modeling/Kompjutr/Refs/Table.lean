/-
  Kompjutr.Refs.Table

  The refs of one repository, its checkouts' HEADs and their history, and the one
  operation that changes them (`store/refs/refs.ts`, `store/refs/ref-mutation.ts`,
  `store/refs/repository-heads.ts`, `store/fetch/fetch-publication-revisions.ts`).

  A mutation runs in a transaction: when it throws, the tables stay as they were.
-/
import Mathlib.Data.List.AList
import Kompjutr.Refs.Log

namespace Kompjutr.Refs

open Objects (Text text shown isOid)

/-- `git_refs`: the raw target of each name. -/
abbrev RefMap := AList fun _ : Text => Text

structure RefRow where
  name : Text
  target : Text
  deriving DecidableEq

structure RefMutationExpected where
  name : Text
  target : Option Text
  deriving DecidableEq

structure RefMutation where
  puts : List RefRow
  deletes : List Text
  head : Option Text
  expected : Option RefMutationExpected
  deriving DecidableEq

-- Order of names

/-- Code points from the first difference on. -/
def comparePoints : List Nat → List Nat → Ordering
  | [], [] => .eq
  | _ :: _, [] => .gt
  | [], _ :: _ => .lt
  | left :: lefts, right :: rights =>
    if left = right then comparePoints lefts rights else if left < right then .lt else .gt

/-- UTF-8 byte order, through the code points. -/
def comparePaths (left right : Text) : Ordering :=
  comparePoints (Utf8.points left) (Utf8.points right)

-- Mutations

def maxRefMutationInputs : Nat := 100000

structure NormalizedRefMutation where
  puts : RefMap
  deletes : List Text
  head : Option Text
  expected : Option RefMutationExpected

def countInput (inputs : Nat) : Except GitError Nat := do
  reject (maxRefMutationInputs < inputs + 1)
    { code := "E2BIG", message := "ref mutation exceeds its retained input count bound" }
  return inputs + 1

/-- One name of `mutation.deletes`: the set so far and the inputs counted. -/
def addDelete (state : List Text × Nat) (value : Text) : Except GitError (List Text × Nat) := do
  let name ← requireRefName value "deleted ref name" false
  let inputs ← countInput state.2
  return (state.1.insert name, inputs)

/-- One row of `mutation.puts`. -/
def addPut (state : RefMap × Nat) (row : RefRow) : Except GitError (RefMap × Nat) := do
  let name ← requireRefName row.name "updated ref name" false
  let target ← requireRawRefTarget row.target "updated ref target"
  let inputs ← countInput state.2
  return (state.1.insert name target, inputs)

def normalizeHead (head : Option Text) (inputs : Nat) : Except GitError Nat :=
  match head with
  | none => pure inputs
  | some head => do
    let _ ← requireRawRefTarget head "HEAD target"
    countInput inputs

def normalizeExpected (puts : RefMap) (deletes : List Text) (inputs : Nat) :
    Option RefMutationExpected → Except GitError Unit
  | none => pure ()
  | some expected => do
    let name ← requireRefName expected.name "conditional ref name" false
    expected.target.forM fun target => do
      let _ ← requireRawRefTarget target "expected ref target"
    let _ ← countInput inputs
    reject (decide (name ∈ puts) = deletes.contains name)
      (invalidRefValue "conditional ref update must include exactly one destination put or delete")

def normalizeRefMutation (mutation : RefMutation) : Except GitError NormalizedRefMutation := do
  let (deletes, inputs) ← mutation.deletes.foldlM addDelete ([], 0)
  let (puts, inputs) ← mutation.puts.foldlM addPut (∅, inputs)
  let inputs ← normalizeHead mutation.head inputs
  normalizeExpected puts deletes inputs mutation.expected
  return { puts, deletes, head := mutation.head, expected := mutation.expected }

-- Tables

structure CheckoutRow where
  id : Nat
  root : Text
  head : Text
  deriving DecidableEq

structure RefLogEvent where
  refName : Text
  ordinal : Nat
  oldRaw : Option Text
  newRaw : Option Text
  oldOid : Option Text
  newOid : Option Text
  actor : Option RefLogActor
  timestamp : Int
  timezoneOffset : Int
  reason : Text
  deriving DecidableEq

structure CheckoutRefLogEvent where
  checkoutId : Nat
  event : RefLogEvent
  deriving DecidableEq

structure FetchNamespace where
  trackingPrefix : Text
  latestGeneration : Nat
  revision : Nat
  deriving DecidableEq

/-- The rows of one repository that a ref mutation reads or writes. -/
structure RefTables where
  refs : RefMap
  /-- In the order of their ids. -/
  checkouts : List CheckoutRow
  reflog : List RefLogEvent
  checkoutReflog : List CheckoutRefLogEvent
  nextOrdinal : Nat
  checkoutRevision : Nat
  trackingRevisions : List (Text × Nat)
  fetchGeneration : Nat
  fetchNamespaces : List FetchNamespace
  rootEpoch : Nat

-- Resolution

/-- The loop of `resolveRawRef` with the hops that are left and the targets seen.  The second
    component is the list of names looked up, in order. -/
def resolveHops (lookup : Text → Except GitError (Option Text)) :
    Nat → List Text → Option Text → Except GitError (Option Text × List Text)
  | 0, _, _ => .ok (none, [])
  | _ + 1, _, none => .ok (none, [])
  | hops + 1, seen, some value =>
    if isOid value then .ok (some value, [])
    else
      match rawSymbolicTarget value with
      | none => .error (corrupt "stored ref target has an invalid shape")
      | some target =>
        if seen.contains target then .ok (none, [])
        else do
          let raw ← lookup target
          let (oid, names) ← resolveHops lookup hops (target :: seen) raw
          return (oid, target :: names)

def resolveRawRef (raw : Option Text) (lookup : Text → Except GitError (Option Text)) :
    Except GitError (Option Text × List Text) :=
  resolveHops lookup 8 [] raw

/-- The object id a raw value stands for in a map of refs. -/
def resolveIn (lookup : Text → Option Text) (raw : Option Text) : Except GitError (Option Text) :=
  Prod.fst <$> resolveRawRef raw fun name => .ok (lookup name)

-- `mutateRefs`

def maxReflogStateRows : Nat := 100000

def maxCheckoutsPerRepository : Nat := 1024

def maxTrackingRefRevisions : Nat := 100000

def maxFetchNamespaces : Nat := 1024

def reflogRetentionSeconds : Int := 90 * 24 * 60 * 60

def reflogRetentionRows : Nat := 1024

/-- Who mutates: one checkout, whose HEAD may move, or the repository. -/
inductive HeadOwner where
  | checkout (id : Nat)
  | repository
  deriving DecidableEq

/-- `readRefMutationRevisionState`. -/
def readRefMutationRevisionState (tables : RefTables) : Except GitError Unit := do
  reject (maxTrackingRefRevisions < tables.trackingRevisions.length)
    (corrupt "tracking ref revision count exceeds its bound")
  reject (decide (tables.fetchGeneration = 0) ≠ decide (tables.fetchNamespaces = []))
    (corrupt "fetch generation and namespace state disagree")

/-- The raw value after the mutation: deletes, then puts. -/
def afterTarget (before : Text → Option Text) (mutation : NormalizedRefMutation) (name : Text) :
    Option Text :=
  match mutation.puts.lookup name with
  | some target => some target
  | none => if mutation.deletes.contains name then none else before name

/-- `findAttachedBranchOwner`: another checkout with the same branch as its HEAD. -/
def findAttachedBranchOwner (tables : RefTables) (id : Nat) (head : Text) : Option CheckoutRow :=
  match rawSymbolicTarget head with
  | none => none
  | some attached =>
    if (text "refs/heads/").isPrefixOf attached then
      tables.checkouts.find? fun row => row.head = head && row.id ≠ id
    else none

def changedNames (before after : Text → Option Text) (mutation : NormalizedRefMutation) :
    List Text :=
  let deleted := mutation.deletes.filter fun name => before name ≠ after name
  deleted ++ mutation.puts.keys.filter fun name => before name ≠ after name && !deleted.contains name

/-- An event without its ordinal. -/
def pendingEvent (before after : Text → Option Text) (metadata : RefLogMetadata) (refName : Text)
    (oldRaw newRaw : Option Text) : Except GitError RefLogEvent := do
  let oldOid ← resolveIn before oldRaw
  let newOid ← resolveIn after newRaw
  return { refName, ordinal := 0, oldRaw, newRaw, oldOid, newOid, actor := metadata.actor
           timestamp := metadata.timestamp, timezoneOffset := metadata.timezoneOffset
           reason := metadata.reason }

/-- The branch a HEAD is attached to was itself changed. -/
def causalHeadChange (changed : List Text) (head : Text) : Bool :=
  match rawSymbolicTarget head with
  | none => false
  | some attached => (text "refs/heads/").isPrefixOf attached && changed.contains attached

/-- The HEAD of a checkout after the mutation. -/
def checkoutNewHead (owner : HeadOwner) (head : Option Text) (checkout : CheckoutRow) : Text :=
  if owner = .checkout checkout.id then head.getD checkout.head else checkout.head

/-- The event of a checkout whose HEAD changed. -/
def pendingHead (before after : Text → Option Text) (metadata : RefLogMetadata)
    (owner : HeadOwner) (head : Option Text) (changed : List Text) (checkout : CheckoutRow) :
    Except GitError (Option CheckoutRefLogEvent) := do
  let newHead := checkoutNewHead owner head checkout
  let event ← pendingEvent before after metadata (text "HEAD") (some checkout.head) (some newHead)
  if checkout.head ≠ newHead || event.oldOid ≠ event.newOid || causalHeadChange changed checkout.head
  then return some { checkoutId := checkout.id, event }
  else return none

/-- Consecutive ordinals, after the last one that was used. -/
def numbered (start : Nat) (events : List RefLogEvent) : List RefLogEvent :=
  events.mapIdx fun index event => { event with ordinal := start + index + 1 }

def numberedHeads (start : Nat) (events : List CheckoutRefLogEvent) : List CheckoutRefLogEvent :=
  events.mapIdx fun index pending =>
    { pending with event := { pending.event with ordinal := start + index + 1 } }

/-- The rows of `git_refs` after the events. -/
def applyEvents (refs : RefMap) (events : List RefLogEvent) : RefMap :=
  let deleted := (events.filter (·.newRaw = none)).foldl (fun refs event => refs.erase event.refName)
    refs
  events.foldl (fun refs event =>
    match event.newRaw with
    | some target => refs.insert event.refName target
    | none => refs) deleted

/-- The ordinal below which an entry is not retained: the last of the newest ones. -/
def retentionFloor (ordinals : List Nat) : Nat :=
  ((ordinals.mergeSort (· ≥ ·))[reflogRetentionRows - 1]?).getD 0

/-- `pruneExpired` and `pruneRetained`. -/
def pruneReflog (cutoff : Int) (touched : List Text) (entries : List RefLogEvent) :
    List RefLogEvent :=
  let entries := entries.filter (cutoff ≤ ·.timestamp)
  entries.filter fun entry => !touched.contains entry.refName ||
    retentionFloor ((entries.filter (·.refName = entry.refName)).map (·.ordinal)) ≤ entry.ordinal

def pruneCheckoutReflog (cutoff : Int) (touched : List Nat) (entries : List CheckoutRefLogEvent) :
    List CheckoutRefLogEvent :=
  let entries := entries.filter (cutoff ≤ ·.event.timestamp)
  entries.filter fun entry => !touched.contains entry.checkoutId ||
    retentionFloor ((entries.filter (·.checkoutId = entry.checkoutId)).map (·.event.ordinal)) ≤
      entry.event.ordinal

def exhausted (message : String) : GitError := { code := "E2BIG", message }

def maxCount : Nat := maxSafeInteger.toNat

/-- `bumpTrackingRefRevisions`. -/
def bumpTrackingRefRevisions (changed : List Text) (rows : List (Text × Nat)) :
    Except GitError (List (Text × Nat)) := do
  reject (rows.any fun row => changed.contains row.1 && maxCount ≤ row.2)
    (exhausted "tracking ref revision is exhausted")
  return rows.map fun row => if changed.contains row.1 then (row.1, row.2 + 1) else row

/-- `bumpFetchNamespaceRevisions`. -/
def bumpFetchNamespaceRevisions (changed : List Text) (rows : List FetchNamespace) :
    Except GitError (List FetchNamespace) :=
  if changed = [] then .ok rows
  else do
    let affected := fun row : FetchNamespace => changed.any row.trackingPrefix.isPrefixOf
    reject (maxFetchNamespaces < rows.length)
      (exhausted "repository fetch namespace count exceeds 1,024")
    reject (rows.any fun row => affected row && row.revision = maxCount)
      (exhausted "fetch namespace revision is exhausted")
    return rows.map fun row =>
      if affected row then { row with revision := row.revision + 1 } else row

/-- Move the HEAD of the owner and advance the checkout revision. -/
def updateHead (tables : RefTables) (id : Nat) (newHead : Text) : Except GitError RefTables := do
  reject (maxCount - tables.checkoutRevision < 1) (exhausted "checkout revision is exhausted")
  return { tables with
    checkouts := tables.checkouts.map fun row =>
      if row.id = id then { row with head := newHead } else row
    checkoutRevision := tables.checkoutRevision + 1 }

/-- The move of a HEAD, where there is one. -/
def moveHead (tables : RefTables) : Option (Nat × Text) → Except GitError RefTables
  | some (id, newHead) => updateHead tables id newHead
  | none => .ok tables

/-- The revisions of the tracking refs, where there are any. -/
def nextTrackingRevisions (tables : RefTables) (changed : List Text) :
    Except GitError (List (Text × Nat)) :=
  if 0 < tables.trackingRevisions.length then
    bumpTrackingRefRevisions changed tables.trackingRevisions
  else .ok tables.trackingRevisions

/-- The revisions of the fetch namespaces, where there are any. -/
def nextFetchNamespaces (tables : RefTables) (changed : List Text) :
    Except GitError (List FetchNamespace) :=
  if tables.fetchNamespaces ≠ [] then bumpFetchNamespaceRevisions changed tables.fetchNamespaces
  else .ok tables.fetchNamespaces

/-- The rows that the events of one mutation leave. -/
def publishEvents (tables : RefTables) (metadata : RefLogMetadata) (changed : List Text)
    (move : Option (Nat × Text)) (direct : List RefLogEvent) (heads : List CheckoutRefLogEvent) :
    Except GitError RefTables := do
  let tables ← moveHead { tables with refs := applyEvents tables.refs direct } move
  let cutoff := max 0 (metadata.timestamp - reflogRetentionSeconds)
  let trackingRevisions ← nextTrackingRevisions tables changed
  let fetchNamespaces ← nextFetchNamespaces tables changed
  reject (maxCount ≤ tables.rootEpoch) (exhausted "maintenance root epoch is exhausted")
  return { tables with
    reflog := pruneReflog cutoff (direct.map (·.refName)) (tables.reflog ++ direct)
    checkoutReflog := pruneCheckoutReflog cutoff (heads.map (·.checkoutId))
      (tables.checkoutReflog ++ heads)
    nextOrdinal := tables.nextOrdinal + direct.length + heads.length
    trackingRevisions, fetchNamespaces, rootEpoch := tables.rootEpoch + 1 }

/-- The checkout that owns the mutation. -/
def selectedCheckout (tables : RefTables) : HeadOwner → Except GitError (Option CheckoutRow)
  | .repository => pure none
  | .checkout id =>
    match tables.checkouts.find? (·.id = id) with
    | some row => pure (some row)
    | none => throw (corrupt "selected checkout disappeared during ref mutation")

/-- The checks before anything is computed. -/
def checkMutation (tables : RefTables) (owner : HeadOwner) (mutation : NormalizedRefMutation) :
    Except GitError Unit := do
  readRefMutationRevisionState tables
  reject (maxCheckoutsPerRepository < tables.checkouts.length)
    (exhausted "repository checkout state exceeds its retained bound")
  let selected ← selectedCheckout tables owner
  reject (owner = .repository && mutation.head ≠ none) (invalidRefValue "HEAD belongs to a checkout")
  reject (maxReflogStateRows < tables.refs.keys.length)
    (exhausted "repository ref state exceeds its retained row bound")
  mutation.expected.forM fun expected =>
    reject (tables.refs.lookup expected.name ≠ expected.target)
      { code := "ESTALEHEAD"
        message := s!"ref {shown expected.name} changed before conditional update" }
  match selected, mutation.head with
  | some checkout, some head =>
    match findAttachedBranchOwner tables checkout.id head with
    | some other =>
      reject (head ≠ checkout.head)
        { code := "EBRANCHINUSE"
          message := s!"branch {shown (head.drop 5)} is already attached to checkout {shown other.root}" }
    | none => pure ()
  | _, _ => pure ()

/-- The HEAD that moves. -/
def headMove (tables : RefTables) (owner : HeadOwner) (head : Option Text) : Option (Nat × Text) :=
  match owner, head with
  | .checkout id, some newHead =>
    if tables.checkouts.any fun row => row.id = id && row.head ≠ newHead then some (id, newHead)
    else none
  | _, _ => none

def mutateNormalized (tables : RefTables) (owner : HeadOwner) (mutation : NormalizedRefMutation)
    (metadata : RefLogMetadata) : Except GitError (RefTables × Bool) := do
  checkMutation tables owner mutation
  let before := fun name => tables.refs.lookup name
  let after := afterTarget before mutation
  let changed := changedNames before after mutation
  let ordered := changed.mergeSort fun left right => comparePaths left right ≠ .gt
  let pendingDirect ← ordered.mapM fun name =>
    pendingEvent before after metadata name (before name) (after name)
  let pendingHeads ← tables.checkouts.mapM
    (pendingHead before after metadata owner mutation.head changed)
  let pendingHeads := pendingHeads.filterMap id
  if pendingDirect.length + pendingHeads.length = 0 then return (tables, false)
  else
    reject (maxCount - tables.nextOrdinal < pendingDirect.length + pendingHeads.length)
      (exhausted "repository reflog ordinal is exhausted")
    let published ← publishEvents tables metadata changed (headMove tables owner mutation.head)
      (numbered tables.nextOrdinal pendingDirect)
      (numberedHeads (tables.nextOrdinal + pendingDirect.length) pendingHeads)
    return (published, true)

def mutateRefs (tables : RefTables) (owner : HeadOwner) (mutation : RefMutation)
    (metadata : RefLogMetadata) : Except GitError (RefTables × Bool) := do
  let normalized ← normalizeRefMutation mutation
  let checked ← validateRefLogMetadata metadata
  mutateNormalized tables owner normalized checked

end Kompjutr.Refs
