/-
  Kompjutr.Operations.Journal

  The journal of merges, replays and rebases (`store/operations/operation-journal-write.ts`,
  `store/schema/operation-schema.ts`): one header a checkout, the steps of its plan and the
  paths that it touched.

  Every transition is one transaction.  A statement that throws rolls the transaction back, so
  that a transition which does not answer has no effect; deleting a header deletes the rows
  that refer to it.
-/
import Kompjutr.Lib.Owned
import Kompjutr.Objects.Commit

namespace Kompjutr.Operations

open Objects (Text text)
open Owned (ownedBy updateOwned deleteOwned)

-- Rows

inductive OperationKind where
  | merge
  | cherryPick
  | revert
  | rebase
  deriving DecidableEq

def OperationKind.name : OperationKind → String
  | .merge => "merge"
  | .cherryPick => "cherry-pick"
  | .revert => "revert"
  | .rebase => "rebase"

inductive Phase where
  | conflicted
  | ready
  | empty
  | running
  deriving DecidableEq

inductive EmptyReason where
  | source
  | result
  deriving DecidableEq

inductive MergeMode where
  | commit
  | noCommit
  deriving DecidableEq

inductive MergeOrigin where
  | merge
  | pull
  deriving DecidableEq

structure SavedIdentity where
  name : Text
  email : Text
  deriving DecidableEq

/-- A row of `git_operation_state`. -/
structure OperationRow where
  checkoutId : Nat
  kind : OperationKind
  originalHeadRef : Text
  originalHeadOid : Text
  phase : Phase
  emptyReason : Option EmptyReason
  currentParentOid : Option Text
  incomingParentOid : Option Text
  upstreamOid : Option Text
  baseOid : Option Text
  mode : Option MergeMode
  mergeOrigin : Option MergeOrigin
  currentStep : Nat
  stepCount : Nat
  currentLabel : Text
  incomingLabel : Text
  message : Text
  author : Option SavedIdentity
  committer : Option SavedIdentity
  touchedCount : Nat
  replayedCount : Nat
  skippedCount : Nat
  deriving DecidableEq

inductive StepOutcome where
  | pending
  | applied
  | skipped
  deriving DecidableEq

structure OperationStep where
  sourceOid : Text
  selectedParentOid : Option Text
  mainline : Option Nat
  outcome : StepOutcome
  resultOid : Option Text
  deriving DecidableEq

/-- A row of `git_operation_steps`. -/
structure StepRow where
  checkoutId : Nat
  ordinal : Nat
  step : OperationStep
  deriving DecidableEq

inductive TouchedPurpose where
  | primary
  | currentRelocation
  | incomingRelocation
  deriving DecidableEq

/-- An index entry at stage 0. -/
structure IndexSnapshot where
  mode : Nat
  oid : Text
  size : Option Nat
  mtime : Option Int
  ino : Option Nat
  rev : Option Nat
  deriving DecidableEq

inductive WorktreeSnapshot where
  | absent
  | file (mode : Nat) (oid : Text) (revision : Nat)
  | symlink (mode : Nat) (oid : Text) (revision : Nat)
  | directory (mode revision : Nat)
  deriving DecidableEq

structure TouchedPath where
  path : Text
  logicalPath : Text
  purpose : TouchedPurpose
  index : Option IndexSnapshot
  worktree : WorktreeSnapshot
  deriving DecidableEq

/-- A row of `git_operation_touched`. -/
structure TouchedRow where
  checkoutId : Nat
  ordinal : Nat
  entry : TouchedPath
  deriving DecidableEq

/-- What an `OperationTouchedSource` iterates over, and the length it declares. -/
structure OperationTouchedSource where
  length : Nat
  entries : List TouchedPath
  deriving DecidableEq

/-- The tables of one repository. -/
structure JournalStore where
  checkouts : List Nat
  operations : List OperationRow
  steps : List StepRow
  touched : List TouchedRow
  rootEpoch : Nat
  deriving DecidableEq

def JournalStore.operationsOf (store : JournalStore) (checkoutId : Nat) : List OperationRow :=
  ownedBy (·.checkoutId) checkoutId store.operations

def JournalStore.stepsOf (store : JournalStore) (checkoutId : Nat) : List StepRow :=
  ownedBy (·.checkoutId) checkoutId store.steps

def JournalStore.touchedOf (store : JournalStore) (checkoutId : Nat) : List TouchedRow :=
  ownedBy (·.checkoutId) checkoutId store.touched

-- Constraints of the schema

def constraintFailed (table : String) : GitError :=
  { code := "SQLITE_CONSTRAINT", message := s!"constraint failed: {table}" }

/-- The alternatives of the header's `CHECK`. -/
def operationCheck (row : OperationRow) : Bool :=
  match row.kind with
  | .merge =>
    (row.phase = .conflicted || row.phase = .ready) && row.emptyReason.isNone &&
      row.currentParentOid.isSome && row.incomingParentOid.isSome && row.upstreamOid.isNone &&
      row.baseOid.isNone && row.mode.isSome && row.mergeOrigin.isSome && row.currentStep = 0 &&
      row.stepCount = 0 && row.replayedCount = 0 && row.skippedCount = 0 &&
      (row.phase ≠ .ready || row.mode = some .noCommit)
  | .cherryPick | .revert =>
    row.currentParentOid.isNone && row.incomingParentOid.isNone && row.upstreamOid.isNone &&
      row.baseOid.isNone && row.mode.isNone && row.mergeOrigin.isNone && row.currentStep = 0 &&
      row.stepCount = 1 && row.replayedCount = 0 && row.skippedCount = 0 &&
      ((row.phase = .conflicted && row.emptyReason.isNone) ||
        (row.phase = .empty && row.emptyReason.isSome))
  | .rebase =>
    (row.phase = .running || row.phase = .conflicted) && row.emptyReason.isNone &&
      row.currentParentOid.isSome && row.incomingParentOid.isNone && row.upstreamOid.isSome &&
      row.baseOid.isSome && row.mode.isNone && row.mergeOrigin.isNone && 1 ≤ row.stepCount &&
      row.currentStep ≤ row.stepCount && row.replayedCount + row.skippedCount = row.currentStep &&
      (row.phase ≠ .conflicted || row.currentStep < row.stepCount)

def stepCheck (step : OperationStep) : Bool :=
  (step.mainline.all fun mainline => 1 ≤ mainline) &&
    ((step.outcome = .applied) == step.resultOid.isSome) &&
    (step.mainline.isNone || step.selectedParentOid.isSome)

-- Statements

def insertOperation (store : JournalStore) (row : OperationRow) :
    Except GitError JournalStore := do
  reject (!store.checkouts.contains row.checkoutId || store.operationsOf row.checkoutId ≠ [] ||
    !operationCheck row) (constraintFailed "git_operation_state")
  return { store with operations := store.operations ++ [row] }

def insertStep (store : JournalStore) (row : StepRow) : Except GitError JournalStore := do
  reject ((store.stepsOf row.checkoutId).any (·.ordinal = row.ordinal) ||
    store.operationsOf row.checkoutId = [] || !stepCheck row.step)
    (constraintFailed "git_operation_steps")
  return { store with steps := store.steps ++ [row] }

def insertTouched (store : JournalStore) (row : TouchedRow) : Except GitError JournalStore := do
  reject (((store.touchedOf row.checkoutId).any fun other =>
      other.ordinal = row.ordinal || other.entry.path = row.entry.path) ||
    store.operationsOf row.checkoutId = []) (constraintFailed "git_operation_touched")
  return { store with touched := store.touched ++ [row] }

def pendingStep (store : JournalStore) (checkoutId ordinal : Nat) : Bool :=
  (store.stepsOf checkoutId).any fun row => row.ordinal = ordinal && row.step.outcome = .pending

/-- `UPDATE git_operation_state ... WHERE checkout_id = ? AND guard RETURNING checkout_id`. -/
def updateOperation (store : JournalStore) (checkoutId : Nat) (guard : OperationRow → Bool)
    (f : OperationRow → OperationRow) (mismatch : GitError) : Except GitError JournalStore :=
  match (store.operationsOf checkoutId).find? guard with
  | none => .error mismatch
  | some row => do
    reject (!operationCheck (f row)) (constraintFailed "git_operation_state")
    return { store with
      operations := updateOwned (·.checkoutId) checkoutId (fun row => if guard row then f row else row)
        store.operations }

def deleteTouched (store : JournalStore) (checkoutId : Nat) : JournalStore :=
  { store with touched := deleteOwned (·.checkoutId) checkoutId store.touched }

def bumpMaintenanceRootEpoch (store : JournalStore) : Except GitError JournalStore := do
  reject (maxSafeInteger.toNat ≤ store.rootEpoch)
    { code := "E2BIG", message := "maintenance root epoch is exhausted" }
  return { store with rootEpoch := store.rootEpoch + 1 }

-- Writing a journal

def maxOperationSteps : Nat := 4096

structure OperationCommon where
  originalHeadRef : Text
  originalHeadOid : Text
  currentLabel : Text
  incomingLabel : Text
  message : Text
  author : Option SavedIdentity
  committer : Option SavedIdentity
  deriving DecidableEq

inductive ReplayKind where
  | cherryPick
  | revert
  deriving DecidableEq

def ReplayKind.kind : ReplayKind → OperationKind
  | .cherryPick => .cherryPick
  | .revert => .revert

/-- `OperationStateMetadata`. -/
inductive OperationState where
  | merge (common : OperationCommon) (phase : Phase) (currentParentOid incomingParentOid : Text)
      (mode : MergeMode) (mergeOrigin : MergeOrigin)
  | replay (kind : ReplayKind) (common : OperationCommon) (phase : Phase)
      (emptyReason : Option EmptyReason) (sourceOid : Text) (selectedParentOid : Option Text)
      (mainline : Option Nat)
  | rebase (common : OperationCommon) (phase : Phase) (upstreamOid baseOid currentParentOid : Text)
      (currentStep : Nat)
  deriving DecidableEq

def OperationState.common : OperationState → OperationCommon
  | .merge common .. => common
  | .replay _ common .. => common
  | .rebase common .. => common

/-- The columns that do not depend on the kind. -/
def headerOf (checkoutId : Nat) (state : OperationState) (kind : OperationKind) (phase : Phase)
    (stepCount touchedCount : Nat) : OperationRow :=
  { checkoutId, kind, phase, stepCount, touchedCount
    originalHeadRef := state.common.originalHeadRef
    originalHeadOid := state.common.originalHeadOid
    currentLabel := state.common.currentLabel
    incomingLabel := state.common.incomingLabel
    message := state.common.message
    author := state.common.author
    committer := state.common.committer
    emptyReason := none, currentParentOid := none, incomingParentOid := none, upstreamOid := none
    baseOid := none, mode := none, mergeOrigin := none
    currentStep := 0, replayedCount := 0, skippedCount := 0 }

/-- The row that `insertOperationHeader` inserts. -/
def operationHeader (checkoutId : Nat) (state : OperationState)
    (stepCount touchedCount replayed skipped : Nat) : OperationRow :=
  match state with
  | .merge _ phase currentParentOid incomingParentOid mode mergeOrigin =>
    { headerOf checkoutId state .merge phase stepCount touchedCount with
      currentParentOid := some currentParentOid
      incomingParentOid := some incomingParentOid
      mode := some mode
      mergeOrigin := some mergeOrigin
      replayedCount := replayed
      skippedCount := skipped }
  | .replay kind _ phase emptyReason _ _ _ =>
    { headerOf checkoutId state kind.kind phase stepCount touchedCount with
      emptyReason
      replayedCount := replayed
      skippedCount := skipped }
  | .rebase _ phase upstreamOid baseOid currentParentOid currentStep =>
    { headerOf checkoutId state .rebase phase stepCount touchedCount with
      upstreamOid := some upstreamOid
      baseOid := some baseOid
      currentParentOid := some currentParentOid
      currentStep
      replayedCount := replayed
      skippedCount := skipped }

/-- The finished steps before the one a rebase starts with. -/
def finishedBefore (state : OperationState) (steps : List OperationStep) (outcome : StepOutcome) :
    Except GitError Nat :=
  match state with
  | .rebase _ _ _ _ _ currentStep => do
    reject (steps.length < currentStep) (corrupt "rebase completed prefix is sparse")
    return (steps.take currentStep).countP (·.outcome = outcome)
  | _ => .ok 0

def operationAlreadyActive : OperationKind → GitError
  | .merge => { code := "EMERGEACTIVE", message := "a merge operation is already active" }
  | kind => { code := "EOPACTIVE", message := s!"a {kind.name} operation is already active" }

def insertOperationSteps (store : JournalStore) (checkoutId : Nat) (steps : List OperationStep) :
    Except GitError JournalStore :=
  steps.zipIdx.foldlM (fun store step =>
    insertStep store { checkoutId, ordinal := step.2, step := step.1 }) store

def replaceTouched (store : JournalStore) (checkoutId : Nat) (touched : OperationTouchedSource) :
    Except GitError JournalStore := do
  let store ← touched.entries.zipIdx.foldlM (fun store entry =>
    insertTouched store { checkoutId, ordinal := entry.2, entry := entry.1 })
    (deleteTouched store checkoutId)
  reject (touched.entries.length ≠ touched.length)
    (corrupt "operation touched count differs from its rows")
  return store

def writeOperationJournal (store : JournalStore) (checkoutId : Nat) (state : OperationState)
    (steps : List OperationStep) (touched : OperationTouchedSource) :
    Except GitError JournalStore := do
  reject (maxOperationSteps < steps.length)
    { code := "E2BIG", message := s!"operation journal exceeds {maxOperationSteps} steps" }
  let replayed ← finishedBefore state steps .applied
  let skipped ← finishedBefore state steps .skipped
  match store.operationsOf checkoutId with
  | active :: _ => throw (operationAlreadyActive active.kind)
  | [] => do
    let store ← insertOperation store
      (operationHeader checkoutId state steps.length touched.length replayed skipped)
    let store ← insertOperationSteps store checkoutId steps
    let store ← replaceTouched store checkoutId touched
    bumpMaintenanceRootEpoch store

/-- The steps of an operation that replays at most one commit. -/
def operationStepsForState : OperationState → List OperationStep
  | .replay _ _ _ _ sourceOid selectedParentOid mainline =>
    [{ sourceOid, selectedParentOid, mainline, outcome := .pending, resultOid := none }]
  | _ => []

def writeOperationState (store : JournalStore) (checkoutId : Nat) (state : OperationState)
    (touched : OperationTouchedSource) : Except GitError JournalStore :=
  match state with
  | .rebase .. => throw (corrupt "rebase creation requires an explicit replay sequence")
  | _ => writeOperationJournal store checkoutId state (operationStepsForState state) touched

-- Transitions of a journal

def operationMismatch (message : String) : GitError := { code := "EOPMISMATCH", message }

def markReplayEmpty (store : JournalStore) (checkoutId : Nat) (kind : ReplayKind)
    (reason : EmptyReason) : Except GitError JournalStore := do
  let store ← updateOperation store checkoutId
    (fun row => row.kind = kind.kind && row.phase = .conflicted && row.currentStep = 0 &&
      pendingStep store checkoutId 0)
    (fun row => { row with phase := .empty, emptyReason := some reason, touchedCount := 0 })
    (operationMismatch s!"{kind.kind.name} operation changed before transition")
  bumpMaintenanceRootEpoch (deleteTouched store checkoutId)

def suspendRebase (store : JournalStore) (checkoutId currentStep : Nat)
    (touched : OperationTouchedSource) : Except GitError JournalStore := do
  reject (touched.length = 0) (corrupt "conflicted rebase lost its touched paths")
  let store ← updateOperation store checkoutId
    (fun row => row.kind = .rebase && row.phase = .running && row.currentStep = currentStep &&
      pendingStep store checkoutId currentStep)
    (fun row => { row with phase := .conflicted, touchedCount := touched.length })
    (operationMismatch "rebase operation changed before suspension")
  let store ← replaceTouched store checkoutId touched
  bumpMaintenanceRootEpoch store

/-- How a step of a rebase ends. -/
inductive AdvanceOutcome where
  | applied
  | skipped
  deriving DecidableEq

def AdvanceOutcome.outcome : AdvanceOutcome → StepOutcome
  | .applied => .applied
  | .skipped => .skipped

/-- `UPDATE git_operation_steps ... WHERE outcome = 'pending' RETURNING ordinal`. -/
def finishStep (store : JournalStore) (checkoutId ordinal : Nat) (outcome : AdvanceOutcome)
    (resultOid : Option Text) : Except GitError JournalStore := do
  reject (!pendingStep store checkoutId ordinal)
    (operationMismatch "rebase step changed before advancement")
  return { store with
    steps := updateOwned (·.checkoutId) checkoutId (fun row =>
      if row.ordinal = ordinal && row.step.outcome = .pending then
        { row with step := { row.step with outcome := outcome.outcome, resultOid } }
      else row) store.steps }

def advanceRebase (store : JournalStore) (checkoutId : Nat) (phase : Phase) (currentStep : Nat)
    (outcome : AdvanceOutcome) (resultOid : Option Text) (currentParentOid : Text)
    (committer : Option SavedIdentity) : Except GitError JournalStore := do
  reject ((outcome = .applied) ≠ resultOid.isSome)
    (corrupt "rebase result does not match its outcome")
  let store ← updateOperation store checkoutId
    (fun row => row.kind = .rebase && row.phase = phase && row.currentStep = currentStep &&
      pendingStep store checkoutId currentStep)
    (fun row => { row with
      phase := .running
      currentStep := row.currentStep + 1
      currentParentOid := some currentParentOid
      committer
      touchedCount := 0
      replayedCount := row.replayedCount + if outcome = .applied then 1 else 0
      skippedCount := row.skippedCount + if outcome = .skipped then 1 else 0 })
    (operationMismatch "rebase operation changed before advancement")
  let store ← finishStep store checkoutId currentStep outcome resultOid
  bumpMaintenanceRootEpoch (deleteTouched store checkoutId)

/-- Whether an operation was there to clear. -/
def clearOperationState (store : JournalStore) (checkoutId : Nat) :
    Except GitError (Bool × JournalStore) :=
  if store.operationsOf checkoutId = [] then .ok (false, store)
  else do
    let store ← bumpMaintenanceRootEpoch { store with
      operations := deleteOwned (·.checkoutId) checkoutId store.operations
      steps := deleteOwned (·.checkoutId) checkoutId store.steps
      touched := deleteOwned (·.checkoutId) checkoutId store.touched }
    return (true, store)

/-- One transition on a checkout. -/
inductive Transition where
  | write (checkoutId : Nat) (state : OperationState) (steps : List OperationStep)
      (touched : OperationTouchedSource)
  | markEmpty (checkoutId : Nat) (kind : ReplayKind) (reason : EmptyReason)
  | suspend (checkoutId currentStep : Nat) (touched : OperationTouchedSource)
  | advance (checkoutId : Nat) (phase : Phase) (currentStep : Nat) (outcome : AdvanceOutcome)
      (resultOid : Option Text) (currentParentOid : Text) (committer : Option SavedIdentity)
  | clear (checkoutId : Nat)
  deriving DecidableEq

/-- Whether the transition changed the journal, and the tables after it. -/
def transition (store : JournalStore) : Transition → Except GitError (Bool × JournalStore)
  | .write checkoutId state steps touched =>
    (fun store => (true, store)) <$> writeOperationJournal store checkoutId state steps touched
  | .markEmpty checkoutId kind reason =>
    (fun store => (true, store)) <$> markReplayEmpty store checkoutId kind reason
  | .suspend checkoutId currentStep touched =>
    (fun store => (true, store)) <$> suspendRebase store checkoutId currentStep touched
  | .advance checkoutId phase currentStep outcome resultOid currentParentOid committer =>
    (fun store => (true, store)) <$>
      advanceRebase store checkoutId phase currentStep outcome resultOid currentParentOid committer
  | .clear checkoutId => clearOperationState store checkoutId

/-- The tables after a transition, which a failed one leaves as they were. -/
def JournalStore.apply (store : JournalStore) (op : Transition) : JournalStore :=
  match transition store op with
  | .ok out => out.2
  | .error _ => store

end Kompjutr.Operations
