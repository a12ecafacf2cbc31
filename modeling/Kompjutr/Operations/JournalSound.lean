/-
  Kompjutr.Operations.JournalSound

  What every run of transitions keeps: a checkout has at most one operation; the finished steps
  of a rebase are the ones before its current step, and its counters agree with its rows; a
  transition whose view is out of date changes nothing, and every other one is seen by the
  collector.
-/
import Kompjutr.Operations.Journal

namespace Kompjutr.Operations

open Objects (Text text)
open Owned
open Fuel (bind_eq_ok ok_bind)
open List (any_eq_true append_nil countP_cons length_map map_map mem_map)

variable {guard : OperationRow → Bool} {f : OperationRow → OperationRow} {other : Nat}
  {operations : List OperationRow} {kind : ReplayKind} {reason : EmptyReason}
  {rows : List TouchedRow} {outcome : AdvanceOutcome} {resultOid : Option Text}
  {currentParentOid : Text} {committer : Option SavedIdentity} {changed : Bool}
  {ops : List Transition}

variable {store next : JournalStore} {row : OperationRow} {start currentStep : Nat}
  {steps : List OperationStep} {entries : List TouchedPath} {touched : OperationTouchedSource}
  {phase : Phase} {state : OperationState} {op : Transition}

-- The invariant

def StepRow.finished (row : StepRow) : Bool := row.step.outcome ≠ .pending

/-- A rebase stands where its finished steps end. -/
structure RebaseOk (row : OperationRow) (steps : List StepRow) : Prop where
  bound : row.currentStep ≤ row.stepCount
  finished : steps.map StepRow.finished =
    List.replicate row.currentStep true ++ List.replicate (row.stepCount - row.currentStep) false
  counted : row.replayedCount + row.skippedCount = row.currentStep

/-- The rows of an operation belong together. -/
structure RowOk (row : OperationRow) (steps : List StepRow) (touched : List TouchedRow) : Prop where
  ordinals : steps.map (·.ordinal) = List.range row.stepCount
  touched : touched.length = row.touchedCount
  rebase : row.kind = .rebase → RebaseOk row steps

/-- A checkout has no operation and no rows of one, or it has one operation. -/
inductive CheckoutOk : List OperationRow → List StepRow → List TouchedRow → Prop
  | idle : CheckoutOk [] [] []
  | active {row : OperationRow} {steps : List StepRow} {touched : List TouchedRow}
      (ok : RowOk row steps touched) : CheckoutOk [row] steps touched

def JournalOk (store : JournalStore) : Prop :=
  ∀ checkoutId, CheckoutOk (store.operationsOf checkoutId) (store.stepsOf checkoutId)
    (store.touchedOf checkoutId)

-- What the statements do

/-- The tables agree for every checkout but one. -/
structure SameElsewhere (checkoutId : Nat) (store next : JournalStore) : Prop where
  operations : ∀ other, other ≠ checkoutId → next.operationsOf other = store.operationsOf other
  steps : ∀ other, other ≠ checkoutId → next.stepsOf other = store.stepsOf other
  touched : ∀ other, other ≠ checkoutId → next.touchedOf other = store.touchedOf other

/-- The invariant has to be looked at in one place only. -/
theorem JournalOk.of_sameElsewhere {checkoutId : Nat}
    (h : JournalOk store) (hsame : SameElsewhere checkoutId store next)
    (hself : CheckoutOk (next.operationsOf checkoutId) (next.stepsOf checkoutId)
      (next.touchedOf checkoutId)) : JournalOk next := by
  intro other
  by_cases hother : other = checkoutId
  · rw [hother]
    exact hself
  · rw [hsame.operations other hother, hsame.steps other hother, hsame.touched other hother]
    exact h other

theorem insertOperation_ok (h : insertOperation store row = .ok next) :
    operationCheck row = true ∧ next = { store with operations := store.operations ++ [row] } := by
  obtain ⟨⟨⟩, hguard, h⟩ := bind_eq_ok.1 h
  rw [reject_eq_ok, Bool.or_eq_false_iff, Bool.not_eq_false'] at hguard
  exact ⟨hguard.2, (Except.ok.inj h).symm⟩

/-- The rows of a plan. -/
def stepRows (checkoutId start : Nat) (steps : List OperationStep) : List StepRow :=
  (steps.zipIdx start).map fun step => { checkoutId, ordinal := step.2, step := step.1 }

theorem stepRows_cons (checkoutId start : Nat) (step : OperationStep) (steps : List OperationStep) :
    stepRows checkoutId start (step :: steps) =
      { checkoutId, ordinal := start, step } :: stepRows checkoutId (start + 1) steps := rfl

theorem insertSteps_ok {checkoutId : Nat} (h : (steps.zipIdx start).foldlM (fun store step =>
      insertStep store { checkoutId, ordinal := step.2, step := step.1 }) store = .ok next) :
    next = { store with steps := store.steps ++ stepRows checkoutId start steps } := by
  induction steps generalizing start store with
  | nil =>
    cases h
    rw [stepRows, List.zipIdx_nil, List.map_nil, append_nil]
  | cons step steps ih =>
    rw [List.zipIdx_cons, List.foldlM_cons] at h
    obtain ⟨between, hfirst, h⟩ := bind_eq_ok.1 h
    replace hfirst := Fuel.after_check hfirst
    cases hfirst
    rw [ih h, stepRows_cons, List.append_assoc, List.singleton_append]

/-- The rows of the paths that an operation touched. -/
def touchedRows (checkoutId start : Nat) (entries : List TouchedPath) : List TouchedRow :=
  (entries.zipIdx start).map fun entry => { checkoutId, ordinal := entry.2, entry := entry.1 }

theorem touchedRows_cons (checkoutId start : Nat) (entry : TouchedPath)
    (entries : List TouchedPath) :
    touchedRows checkoutId start (entry :: entries) =
      { checkoutId, ordinal := start, entry } :: touchedRows checkoutId (start + 1) entries := rfl

theorem insertEntries_ok {checkoutId : Nat} (h : (entries.zipIdx start).foldlM (fun store entry =>
      insertTouched store { checkoutId, ordinal := entry.2, entry := entry.1 }) store = .ok next) :
    next = { store with touched := store.touched ++ touchedRows checkoutId start entries } := by
  induction entries generalizing start store with
  | nil =>
    cases h
    rw [touchedRows, List.zipIdx_nil, List.map_nil, append_nil]
  | cons entry entries ih =>
    rw [List.zipIdx_cons, List.foldlM_cons] at h
    obtain ⟨between, hfirst, h⟩ := bind_eq_ok.1 h
    replace hfirst := Fuel.after_check hfirst
    cases hfirst
    rw [ih h, touchedRows_cons, List.append_assoc, List.singleton_append]

theorem replaceTouched_ok {checkoutId : Nat}
    (h : replaceTouched store checkoutId touched = .ok next) :
    touched.entries.length = touched.length ∧
      next = { store with
        touched := deleteOwned (·.checkoutId) checkoutId store.touched ++
          touchedRows checkoutId 0 touched.entries } := by
  obtain ⟨between, hinsert, h⟩ := bind_eq_ok.1 h
  obtain ⟨⟨⟩, hlength, h⟩ := bind_eq_ok.1 h
  cases h
  rw [reject_eq_ok, decide_eq_false_iff_not, not_not] at hlength
  exact ⟨hlength, insertEntries_ok hinsert⟩

theorem bumpRootEpoch_ok (h : bumpMaintenanceRootEpoch store = .ok next) :
    next = { store with rootEpoch := store.rootEpoch + 1 } := by
  replace h := Fuel.after_check h
  exact (Except.ok.inj h).symm

/-- An update that answers found its row. -/
theorem updateOperation_ok {checkoutId : Nat} {mismatch : GitError}
    (h : updateOperation store checkoutId guard f mismatch = .ok next) :
    (∃ row ∈ store.operationsOf checkoutId, guard row = true ∧ operationCheck (f row) = true) ∧
      next = { store with
        operations := updateOwned (·.checkoutId) checkoutId
          (fun row => if guard row then f row else row) store.operations } := by
  unfold updateOperation at h
  cases hfind : (store.operationsOf checkoutId).find? guard with
  | none =>
    rw [hfind] at h
    cases h
  | some row =>
    rw [hfind] at h
    obtain ⟨⟨⟩, hcheck, h⟩ := bind_eq_ok.1 h
    rw [reject_eq_ok, Bool.not_eq_false'] at hcheck
    exact ⟨⟨row, List.mem_of_find?_eq_some hfind, List.find?_some hfind, hcheck⟩,
      (Except.ok.inj h).symm⟩

/-- The one operation of a checkout after a guarded update. -/
theorem operationsOf_update {store : JournalStore} {checkoutId : Nat} {row : OperationRow}
    {guard : OperationRow → Bool} {f : OperationRow → OperationRow}
    (hf : ∀ row, (f row).checkoutId = row.checkoutId)
    (hrow : store.operationsOf checkoutId = [row]) (hguard : guard row = true) :
    ownedBy (·.checkoutId) checkoutId (updateOwned (·.checkoutId) checkoutId
      (fun row => if guard row then f row else row) store.operations) = [f row] := by
  have hkept : ∀ row, (if guard row then f row else row).checkoutId = row.checkoutId := by
    intro row
    split
    · exact hf row
    · rfl
  rw [ownedBy_update_self hkept]
  change (store.operationsOf checkoutId).map _ = _
  rw [hrow, List.map_singleton, if_pos hguard]

theorem operationsOf_update_other {checkoutId : Nat}
    (hf : ∀ row, (f row).checkoutId = row.checkoutId) (hne : other ≠ checkoutId) :
    ownedBy (·.checkoutId) other (updateOwned (·.checkoutId) checkoutId
      (fun row => if guard row then f row else row) store.operations) =
        store.operationsOf other := by
  refine ownedBy_update_other (fun row => ?_) hne
  split
  · exact hf row
  · rfl

theorem CheckoutOk.steps_of_idle {steps : List StepRow} {touched : List TouchedRow}
    (h : CheckoutOk [] steps touched) : steps = [] := by
  cases h with
  | idle => rfl

theorem CheckoutOk.of_mem {steps : List StepRow}
    {touched : List TouchedRow} (h : CheckoutOk operations steps touched)
    (hrow : row ∈ operations) : operations = [row] ∧ RowOk row steps touched := by
  cases h with
  | idle => cases hrow
  | active ok =>
    obtain rfl := List.mem_singleton.1 hrow
    exact ⟨rfl, ok⟩

/-- The operation that an update found is the only one. -/
theorem JournalOk.operation (h : JournalOk store) {checkoutId : Nat}
    (hrow : row ∈ store.operationsOf checkoutId) :
    store.operationsOf checkoutId = [row] ∧
      RowOk row (store.stepsOf checkoutId) (store.touchedOf checkoutId) :=
  (h checkoutId).of_mem hrow

theorem ne_nil_of_operation (h : operations = [row]) : operations ≠ [] := by
  rw [h]
  exact List.cons_ne_nil _ _

theorem owner_stepRows {checkoutId : Nat} :
    ∀ row ∈ stepRows checkoutId start steps, row.checkoutId = checkoutId := by
  intro row hrow
  obtain ⟨step, -, rfl⟩ := mem_map.1 hrow
  rfl

theorem owner_touchedRows {checkoutId : Nat} :
    ∀ row ∈ touchedRows checkoutId start entries, row.checkoutId = checkoutId := by
  intro row hrow
  obtain ⟨entry, -, rfl⟩ := mem_map.1 hrow
  rfl

-- Clearing and marking

/-- The plan of an operation, which outcomes do not belong to. -/
def JournalStore.planOf (store : JournalStore) (checkoutId : Nat) :
    List (Nat × Text × Option Text × Option Nat) :=
  (store.stepsOf checkoutId).map fun row =>
    (row.ordinal, row.step.sourceOid, row.step.selectedParentOid, row.step.mainline)

/-- A journal without the rows of a checkout. -/
def JournalStore.cleared (store : JournalStore) (checkoutId epoch : Nat) : JournalStore :=
  { store with
    operations := deleteOwned (·.checkoutId) checkoutId store.operations
    steps := deleteOwned (·.checkoutId) checkoutId store.steps
    touched := deleteOwned (·.checkoutId) checkoutId store.touched
    rootEpoch := epoch }

theorem clearOperationState_ok {checkoutId : Nat} {deleted : Bool}
    (h : clearOperationState store checkoutId = .ok (deleted, next)) :
    (deleted = false ∧ store.operationsOf checkoutId = [] ∧ next = store) ∨
      (deleted = true ∧ store.operationsOf checkoutId ≠ [] ∧
        next = store.cleared checkoutId (store.rootEpoch + 1)) := by
  unfold clearOperationState at h
  by_cases hnone : store.operationsOf checkoutId = []
  · rw [if_pos hnone] at h
    obtain ⟨hdeleted, hnext⟩ := Prod.mk.inj (Except.ok.inj h)
    exact .inl ⟨hdeleted.symm, hnone, hnext.symm⟩
  · rw [if_neg hnone] at h
    obtain ⟨between, hbump, h⟩ := bind_eq_ok.1 h
    obtain ⟨hdeleted, hnext⟩ := Prod.mk.inj (Except.ok.inj h)
    refine .inr ⟨hdeleted.symm, hnone, ?_⟩
    rw [← hnext, bumpRootEpoch_ok hbump]
    rfl

theorem sameElsewhere_delete {checkoutId epoch : Nat} :
    SameElsewhere checkoutId store (store.cleared checkoutId epoch) where
  operations _ hne := ownedBy_delete_other hne
  steps _ hne := ownedBy_delete_other hne
  touched _ hne := ownedBy_delete_other hne

theorem JournalOk.clear (h : JournalOk store) (checkoutId epoch : Nat) :
    JournalOk (store.cleared checkoutId epoch) := by
  refine h.of_sameElsewhere sameElsewhere_delete ?_
  rw [JournalStore.operationsOf, JournalStore.stepsOf, JournalStore.touchedOf,
    JournalStore.cleared, ownedBy_delete_self,
    ownedBy_delete_self, ownedBy_delete_self]
  exact .idle

/-- After a transition of its operation a checkout still has one, about the same steps. -/
def Kept (checkoutId : Nat) (store next : JournalStore) : Prop :=
  JournalOk next ∧ SameElsewhere checkoutId store next ∧ next.operationsOf checkoutId ≠ [] ∧
    next.planOf checkoutId = store.planOf checkoutId

/-- A guarded update of the one operation of a checkout, which keeps what its steps are about. -/
theorem JournalOk.updated (hok : JournalOk store) {checkoutId epoch : Nat}
    {guard : OperationRow → Bool} {f : OperationRow → OperationRow} {steps : List StepRow}
    {touched : List TouchedRow}
    (hnext : next = { store with
      operations := updateOwned (·.checkoutId) checkoutId
        (fun row => if guard row then f row else row) store.operations
      steps, touched, rootEpoch := epoch })
    (hguard : ∃ row ∈ store.operationsOf checkoutId, guard row = true)
    (hf : ∀ row, (f row).checkoutId = row.checkoutId)
    (hsteps : ∀ other, other ≠ checkoutId →
      ownedBy (·.checkoutId) other steps = store.stepsOf other)
    (htouched : ∀ other, other ≠ checkoutId →
      ownedBy (·.checkoutId) other touched = store.touchedOf other)
    (hplan : next.planOf checkoutId = store.planOf checkoutId)
    (hself : ∀ row, guard row = true → RowOk row (store.stepsOf checkoutId)
      (store.touchedOf checkoutId) → RowOk (f row) (ownedBy (·.checkoutId) checkoutId steps)
        (ownedBy (·.checkoutId) checkoutId touched)) :
    Kept checkoutId store next := by
  obtain ⟨row, hrow, hguard⟩ := hguard
  obtain ⟨hone, hrowOk⟩ := hok.operation hrow
  have hsame : SameElsewhere checkoutId store next := by
    subst hnext
    exact ⟨fun other hne => operationsOf_update_other hf hne, hsteps, htouched⟩
  have hoperations := operationsOf_update hf hone hguard
  subst hnext
  refine ⟨hok.of_sameElsewhere hsame ?_, hsame, ne_nil_of_operation hoperations, hplan⟩
  rw [JournalStore.operationsOf, hoperations]
  exact .active (hself row hguard hrowOk)

/-- What a replay needs to be marked. -/
def markGuard (store : JournalStore) (checkoutId : Nat) (kind : ReplayKind) (row : OperationRow) :
    Bool :=
  row.kind = kind.kind && row.phase = .conflicted && row.currentStep = 0 &&
    pendingStep store checkoutId 0

theorem markReplayEmpty_ok {checkoutId : Nat}
    (h : markReplayEmpty store checkoutId kind reason = .ok next) :
    (∃ row ∈ store.operationsOf checkoutId, markGuard store checkoutId kind row = true) ∧
      next = { store with
        operations := updateOwned (·.checkoutId) checkoutId (fun row =>
          if markGuard store checkoutId kind row then
            { row with phase := .empty, emptyReason := some reason, touchedCount := 0 }
          else row) store.operations
        touched := deleteOwned (·.checkoutId) checkoutId store.touched
        rootEpoch := store.rootEpoch + 1 } := by
  obtain ⟨between, hupdate, h⟩ := bind_eq_ok.1 h
  obtain ⟨⟨row, hrow, hguard, -⟩, rfl⟩ := updateOperation_ok hupdate
  exact ⟨⟨row, hrow, hguard⟩, bumpRootEpoch_ok h⟩

theorem JournalOk.markReplayEmpty (hok : JournalOk store) {checkoutId : Nat}
    (h : Operations.markReplayEmpty store checkoutId kind reason = .ok next) :
    Kept checkoutId store next := by
  obtain ⟨hguard, hnext⟩ := markReplayEmpty_ok h
  refine hok.updated hnext hguard (fun _ => rfl) (fun _ _ => rfl)
    (fun _ hne => ownedBy_delete_other hne) (hnext ▸ rfl) fun row hguard hrowOk => ?_
  have hkind : row.kind = kind.kind := by
    rw [markGuard] at hguard
    simp only [Bool.and_eq_true, decide_eq_true_eq] at hguard
    exact hguard.1.1.1
  rw [ownedBy_delete_self]
  refine ⟨hrowOk.ordinals, rfl, fun hrebase => ?_⟩
  have hreplay : kind.kind = .rebase := hkind.symm.trans hrebase
  cases kind with
  | cherryPick => cases hreplay
  | revert => cases hreplay

-- Suspending

/-- What a rebase needs for a transition at one of its steps. -/
def stepGuard (store : JournalStore) (checkoutId : Nat) (phase : Phase) (currentStep : Nat)
    (row : OperationRow) : Bool :=
  row.kind = .rebase && row.phase = phase && row.currentStep = currentStep &&
    pendingStep store checkoutId currentStep

theorem stepGuard_iff {checkoutId : Nat}
    (h : stepGuard store checkoutId phase currentStep row = true) :
    row.kind = .rebase ∧ row.phase = phase ∧ row.currentStep = currentStep ∧
      pendingStep store checkoutId currentStep = true := by
  rw [stepGuard] at h
  simp only [Bool.and_eq_true, decide_eq_true_eq] at h
  exact ⟨h.1.1.1, h.1.1.2, h.1.2, h.2⟩

theorem suspendRebase_ok {checkoutId : Nat}
    (h : suspendRebase store checkoutId currentStep touched = .ok next) :
    touched.entries.length = touched.length ∧
      (∃ row ∈ store.operationsOf checkoutId,
        stepGuard store checkoutId .running currentStep row = true) ∧
      next = { store with
        operations := updateOwned (·.checkoutId) checkoutId (fun row =>
          if stepGuard store checkoutId .running currentStep row then
            { row with phase := .conflicted, touchedCount := touched.length }
          else row) store.operations
        touched := deleteOwned (·.checkoutId) checkoutId store.touched ++
          touchedRows checkoutId 0 touched.entries
        rootEpoch := store.rootEpoch + 1 } := by
  replace h := Fuel.after_check h
  obtain ⟨between, hupdate, h⟩ := bind_eq_ok.1 h
  obtain ⟨after, hreplace, h⟩ := bind_eq_ok.1 h
  obtain ⟨⟨row, hrow, hguard, -⟩, rfl⟩ := updateOperation_ok hupdate
  obtain ⟨hlength, rfl⟩ := replaceTouched_ok hreplace
  exact ⟨hlength, ⟨row, hrow, hguard⟩, bumpRootEpoch_ok h⟩

/-- The touched rows of a checkout after they were replaced. -/
theorem touchedOf_replaced {checkoutId : Nat} :
    ownedBy (·.checkoutId) checkoutId (deleteOwned (·.checkoutId) checkoutId rows ++
      touchedRows checkoutId 0 entries) = touchedRows checkoutId 0 entries := by
  rw [ownedBy_append, ownedBy_delete_self, ownedBy_self owner_touchedRows, List.nil_append]

theorem touchedOf_replaced_other {checkoutId : Nat} (hne : other ≠ checkoutId) :
    ownedBy (·.checkoutId) other (deleteOwned (·.checkoutId) checkoutId rows ++
      touchedRows checkoutId 0 entries) = ownedBy (·.checkoutId) other rows := by
  rw [ownedBy_append, ownedBy_delete_other hne, ownedBy_other owner_touchedRows hne, append_nil]

theorem length_touchedRows (checkoutId start : Nat) (entries : List TouchedPath) :
    (touchedRows checkoutId start entries).length = entries.length := by
  rw [touchedRows, length_map, List.length_zipIdx]

theorem JournalOk.suspendRebase (hok : JournalOk store) {checkoutId : Nat}
    (h : Operations.suspendRebase store checkoutId currentStep touched = .ok next) :
    Kept checkoutId store next := by
  obtain ⟨hlength, hguard, hnext⟩ := suspendRebase_ok h
  refine hok.updated hnext hguard (fun _ => rfl) (fun _ _ => rfl)
    (fun _ hne => touchedOf_replaced_other hne) (hnext ▸ rfl) fun row hguard hrowOk => ?_
  rw [touchedOf_replaced]
  have hrebase := hrowOk.rebase (stepGuard_iff hguard).1
  exact ⟨hrowOk.ordinals, (length_touchedRows ..).trans hlength, fun _ =>
    ⟨hrebase.bound, hrebase.finished, hrebase.counted⟩⟩

-- Advancing

/-- The row of a step when it is finished. -/
def StepRow.finish (ordinal : Nat) (outcome : AdvanceOutcome) (resultOid : Option Text)
    (row : StepRow) : StepRow :=
  if row.ordinal = ordinal && row.step.outcome = .pending then
    { row with step := { row.step with outcome := outcome.outcome, resultOid } }
  else row

/-- The header of a rebase one step on. -/
def OperationRow.advance (outcome : AdvanceOutcome) (currentParentOid : Text)
    (committer : Option SavedIdentity) (row : OperationRow) : OperationRow :=
  { row with
    phase := .running
    currentStep := row.currentStep + 1
    currentParentOid := some currentParentOid
    committer
    touchedCount := 0
    replayedCount := row.replayedCount + if outcome = .applied then 1 else 0
    skippedCount := row.skippedCount + if outcome = .skipped then 1 else 0 }

theorem advanceRebase_ok {checkoutId : Nat}
    (h : advanceRebase store checkoutId phase currentStep outcome resultOid currentParentOid
      committer = .ok next) :
    (∃ row ∈ store.operationsOf checkoutId,
      stepGuard store checkoutId phase currentStep row = true) ∧
      next = { store with
        operations := updateOwned (·.checkoutId) checkoutId (fun row =>
          if stepGuard store checkoutId phase currentStep row then
            row.advance outcome currentParentOid committer
          else row) store.operations
        steps := updateOwned (·.checkoutId) checkoutId
          (StepRow.finish currentStep outcome resultOid) store.steps
        touched := deleteOwned (·.checkoutId) checkoutId store.touched
        rootEpoch := store.rootEpoch + 1 } := by
  replace h := Fuel.after_check h
  obtain ⟨between, hupdate, h⟩ := bind_eq_ok.1 h
  obtain ⟨after, hfinish, h⟩ := bind_eq_ok.1 h
  obtain ⟨⟨row, hrow, hguard, -⟩, rfl⟩ := updateOperation_ok hupdate
  replace hfinish := Fuel.after_check hfinish
  cases hfinish
  exact ⟨⟨row, hrow, hguard⟩, bumpRootEpoch_ok h⟩

theorem StepRow.ordinal_finish (ordinal : Nat) (outcome : AdvanceOutcome) (resultOid : Option Text)
    (row : StepRow) : (row.finish ordinal outcome resultOid).ordinal = row.ordinal := by
  unfold StepRow.finish
  split
  · rfl
  · rfl

theorem StepRow.checkoutId_finish (ordinal : Nat) (outcome : AdvanceOutcome)
    (resultOid : Option Text) (row : StepRow) :
    (row.finish ordinal outcome resultOid).checkoutId = row.checkoutId := by
  unfold StepRow.finish
  split
  · rfl
  · rfl

/-- Only the step of that ordinal ends, and it does. -/
theorem StepRow.finished_finish (ordinal : Nat) (outcome : AdvanceOutcome) (resultOid : Option Text)
    (row : StepRow) :
    (row.finish ordinal outcome resultOid).finished =
      (row.finished || decide (row.ordinal = ordinal)) := by
  have hdone : outcome.outcome ≠ .pending := by
    cases outcome with
    | applied => decide
    | skipped => decide
  unfold StepRow.finish
  by_cases hpending : row.step.outcome = .pending
  · by_cases hordinal : row.ordinal = ordinal
    · simp [StepRow.finished, hpending, hordinal, hdone]
    · simp [StepRow.finished, hpending, hordinal]
  · simp [StepRow.finished, hpending]

/-- The flags of a list whose first elements are finished. -/
theorem flags_eq_map_range (current count : Nat) (h : current ≤ count) :
    List.replicate current true ++ List.replicate (count - current) false =
      (List.range count).map fun ordinal => decide (ordinal < current) := by
  refine List.ext_getElem (by simp; omega) fun ordinal hleft hright => ?_
  grind

/-- Every step knows from its ordinal whether it is finished. -/
theorem RebaseOk.finished_iff {steps : List StepRow} (h : RebaseOk row steps)
    (hordinals : steps.map (·.ordinal) = List.range row.stepCount) :
    ∀ step ∈ steps, step.finished = decide (step.ordinal < row.currentStep) := by
  have hflags := h.finished
  rw [flags_eq_map_range _ _ h.bound, ← hordinals, map_map] at hflags
  intro step hstep
  exact List.map_eq_map_iff.1 hflags step hstep

theorem finished_advance {steps : List StepRow} (h : RebaseOk row steps)
    (hordinals : steps.map (·.ordinal) = List.range row.stepCount)
    (hbound : row.currentStep < row.stepCount) (outcome : AdvanceOutcome) (resultOid : Option Text) :
    (steps.map (StepRow.finish row.currentStep outcome resultOid)).map StepRow.finished =
      List.replicate (row.currentStep + 1) true ++
        List.replicate (row.stepCount - (row.currentStep + 1)) false := by
  rw [flags_eq_map_range _ _ hbound, ← hordinals, map_map, map_map]
  refine List.map_congr_left fun step hstep => ?_
  have hfinished := h.finished_iff hordinals step hstep
  have hsucc : (step.ordinal < row.currentStep + 1) ↔
      (step.ordinal < row.currentStep ∨ step.ordinal = row.currentStep) := by
    omega
  rw [Function.comp_apply, StepRow.finished_finish, hfinished, Function.comp_apply,
    decide_eq_decide.2 hsucc, Bool.decide_or]

theorem lt_of_pendingStep {checkoutId ordinal count : Nat}
    (h : pendingStep store checkoutId ordinal = true)
    (hordinals : (store.stepsOf checkoutId).map (·.ordinal) = List.range count) : ordinal < count := by
  rw [pendingStep, any_eq_true] at h
  obtain ⟨step, hstep, hmatch⟩ := h
  rw [Bool.and_eq_true, decide_eq_true_eq] at hmatch
  have hmem : step.ordinal ∈ (store.stepsOf checkoutId).map (·.ordinal) :=
    List.mem_map_of_mem hstep
  rw [hordinals, List.mem_range, hmatch.1] at hmem
  exact hmem

theorem JournalOk.advanceRebase (hok : JournalOk store) {checkoutId : Nat}
    (h : Operations.advanceRebase store checkoutId phase currentStep outcome resultOid
      currentParentOid committer = .ok next) :
    Kept checkoutId store next := by
  obtain ⟨hguard, hnext⟩ := advanceRebase_ok h
  have hsteps : ∀ step : StepRow,
      (step.finish currentStep outcome resultOid).checkoutId = step.checkoutId :=
    StepRow.checkoutId_finish currentStep outcome resultOid
  have hstepsOf : ownedBy (·.checkoutId) checkoutId (updateOwned (·.checkoutId) checkoutId
      (StepRow.finish currentStep outcome resultOid) store.steps) =
        (store.stepsOf checkoutId).map (StepRow.finish currentStep outcome resultOid) :=
    ownedBy_update_self hsteps
  refine hok.updated hnext hguard (fun _ => rfl) (fun other hne => ownedBy_update_other hsteps hne)
    (fun _ hne => ownedBy_delete_other hne) ?_ fun row hguard hrowOk => ?_
  · subst hnext
    rw [JournalStore.planOf, JournalStore.stepsOf, hstepsOf, map_map]
    refine List.map_congr_left fun step _ => ?_
    rw [Function.comp_apply]
    unfold StepRow.finish
    split
    · rfl
    · rfl
  · obtain ⟨hkind, -, rfl, hpending⟩ := stepGuard_iff hguard
    have hrebase := hrowOk.rebase hkind
    have hbound := lt_of_pendingStep hpending hrowOk.ordinals
    rw [ownedBy_delete_self, hstepsOf]
    refine ⟨?_, rfl, fun _ => ⟨hbound, ?_, ?_⟩⟩
    · rw [map_map]
      refine (List.map_congr_left fun step _ => ?_).trans hrowOk.ordinals
      exact StepRow.ordinal_finish ..
    · exact finished_advance hrebase hrowOk.ordinals hbound outcome resultOid
    · -- the step was applied or skipped, and never both
      have hcounted := hrebase.counted
      change row.replayedCount + (if outcome = .applied then 1 else 0) +
        (row.skippedCount + if outcome = .skipped then 1 else 0) = row.currentStep + 1
      cases outcome with
      | applied => simp; omega
      | skipped => simp; omega

-- Writing

theorem writeOperationJournal_ok {checkoutId : Nat}
    (h : writeOperationJournal store checkoutId state steps touched = .ok next) :
    store.operationsOf checkoutId = [] ∧ touched.entries.length = touched.length ∧
      ∃ replayed skipped, finishedBefore state steps .applied = .ok replayed ∧
        finishedBefore state steps .skipped = .ok skipped ∧
        operationCheck (operationHeader checkoutId state steps.length touched.length replayed
          skipped) = true ∧
        next = { store with
          operations := store.operations ++
            [operationHeader checkoutId state steps.length touched.length replayed skipped]
          steps := store.steps ++ stepRows checkoutId 0 steps
          touched := deleteOwned (·.checkoutId) checkoutId store.touched ++
            touchedRows checkoutId 0 touched.entries
          rootEpoch := store.rootEpoch + 1 } := by
  replace h := Fuel.after_check h
  obtain ⟨replayed, hreplayed, h⟩ := bind_eq_ok.1 h
  obtain ⟨skipped, hskipped, h⟩ := bind_eq_ok.1 h
  cases hactive : store.operationsOf checkoutId with
  | cons active rest =>
    rw [hactive] at h
    cases h
  | nil =>
    rw [hactive] at h
    obtain ⟨first, hinsert, h⟩ := bind_eq_ok.1 h
    obtain ⟨second, hsteps, h⟩ := bind_eq_ok.1 h
    obtain ⟨third, hreplace, h⟩ := bind_eq_ok.1 h
    obtain ⟨hcheck, rfl⟩ := insertOperation_ok hinsert
    obtain rfl := insertSteps_ok hsteps
    obtain ⟨hlength, rfl⟩ := replaceTouched_ok hreplace
    exact ⟨rfl, hlength, replayed, skipped, hreplayed, hskipped, hcheck, bumpRootEpoch_ok h⟩

theorem ordinal_stepRows (checkoutId start : Nat) (steps : List OperationStep) :
    (stepRows checkoutId start steps).map (·.ordinal) = List.range' start steps.length := by
  rw [stepRows, map_map]
  exact List.zipIdx_map_snd ..

theorem finished_stepRows (checkoutId start : Nat) (steps : List OperationStep) :
    (stepRows checkoutId start steps).map StepRow.finished =
      steps.map fun step => decide (step.outcome ≠ .pending) := by
  induction steps generalizing start with
  | nil => rfl
  | cons step steps ih =>
    rw [stepRows_cons, List.map_cons, List.map_cons, ih]
    rfl

/-- A finished step was applied or skipped. -/
theorem countP_finished (steps : List OperationStep) :
    steps.countP (·.outcome = .applied) + steps.countP (·.outcome = .skipped) =
      steps.countP (·.outcome ≠ .pending) := by
  induction steps with
  | nil => rfl
  | cons step steps ih =>
    rw [countP_cons, countP_cons, countP_cons, ← ih]
    cases houtcome : step.outcome with
    | pending => simp
    | applied =>
      simp
      omega
    | skipped =>
      simp
      omega

/-- What a rebase that is written says about its steps: nothing after the current one is done. -/
def WritesPending : OperationState → List OperationStep → Prop
  | .rebase _ _ _ _ _ currentStep, steps =>
    ∀ step ∈ steps.drop currentStep, step.outcome = .pending
  | _, _ => True

/-- The steps of a rebase when it is written. -/
theorem rebaseOk_write {checkoutId : Nat}
    {touchedCount replayed skipped : Nat} (hpending : WritesPending state steps)
    (hreplayed : finishedBefore state steps .applied = .ok replayed)
    (hskipped : finishedBefore state steps .skipped = .ok skipped)
    (hcheck : operationCheck
      (operationHeader checkoutId state steps.length touchedCount replayed skipped) = true)
    (hkind : (operationHeader checkoutId state steps.length touchedCount replayed skipped).kind =
      .rebase) :
    RebaseOk (operationHeader checkoutId state steps.length touchedCount replayed skipped)
      (stepRows checkoutId 0 steps) := by
  cases state with
  | merge => cases hkind
  | replay kind =>
    cases kind with
    | cherryPick => cases hkind
    | revert => cases hkind
  | rebase common phase upstreamOid baseOid currentParentOid currentStep =>
    obtain ⟨⟨⟩, hbound, hreplayed⟩ := bind_eq_ok.1 hreplayed
    replace hskipped := Fuel.after_check hskipped
    rw [reject_eq_ok, decide_eq_false_iff_not, Nat.not_lt] at hbound
    have hcounted : replayed + skipped = currentStep := by
      rw [operationCheck, operationHeader] at hcheck
      simp only [headerOf, Bool.and_eq_true, decide_eq_true_eq] at hcheck
      exact hcheck.1.2
    -- the counters add up to the current step only when nothing before it is pending
    have hcounts := countP_finished (steps.take currentStep)
    have htotal : (steps.take currentStep).countP (·.outcome ≠ .pending) =
        (steps.take currentStep).length := by
      have hlength : (steps.take currentStep).length = currentStep := by
        rw [List.length_take]
        omega
      rw [← hcounts, Except.ok.inj hreplayed, Except.ok.inj hskipped, hlength, hcounted]
    have hdone := List.countP_eq_length.1 htotal
    have hbefore : (steps.take currentStep).map (fun step => decide (step.outcome ≠ .pending)) =
        List.replicate currentStep true := by
      refine List.eq_replicate_iff.2 ⟨?_, fun flag hflag => ?_⟩
      · rw [length_map, List.length_take]
        omega
      · obtain ⟨step, hstep, rfl⟩ := mem_map.1 hflag
        exact hdone step hstep
    have hafter : (steps.drop currentStep).map (fun step => decide (step.outcome ≠ .pending)) =
        List.replicate (steps.length - currentStep) false := by
      refine List.eq_replicate_iff.2 ⟨?_, fun flag hflag => ?_⟩
      · rw [length_map, List.length_drop]
      · obtain ⟨step, hstep, rfl⟩ := mem_map.1 hflag
        simpa using hpending step hstep
    refine ⟨hbound, ?_, hcounted⟩
    change (stepRows checkoutId 0 steps).map StepRow.finished =
      List.replicate currentStep true ++ List.replicate (steps.length - currentStep) false
    rw [finished_stepRows, ← hbefore, ← hafter, ← List.map_append, List.take_append_drop]

theorem stepCount_operationHeader (checkoutId : Nat) (state : OperationState)
    (stepCount touchedCount replayed skipped : Nat) :
    (operationHeader checkoutId state stepCount touchedCount replayed skipped).checkoutId =
        checkoutId ∧
      (operationHeader checkoutId state stepCount touchedCount replayed skipped).stepCount =
        stepCount ∧
      (operationHeader checkoutId state stepCount touchedCount replayed skipped).touchedCount =
        touchedCount := by
  cases state with
  | merge => exact ⟨rfl, rfl, rfl⟩
  | replay => exact ⟨rfl, rfl, rfl⟩
  | rebase => exact ⟨rfl, rfl, rfl⟩

theorem JournalOk.writeOperationJournal (hok : JournalOk store)
    {checkoutId : Nat} (hpending : WritesPending state steps)
    (h : Operations.writeOperationJournal store checkoutId state steps touched = .ok next) :
    JournalOk next ∧ SameElsewhere checkoutId store next := by
  obtain ⟨hidle, hlength, replayed, skipped, hreplayed, hskipped, hcheck, rfl⟩ :=
    writeOperationJournal_ok h
  obtain ⟨howner, hstepCount, htouchedCount⟩ :=
    stepCount_operationHeader checkoutId state steps.length touched.length replayed skipped
  have hheader : ∀ row ∈ [operationHeader checkoutId state steps.length touched.length replayed
      skipped], row.checkoutId = checkoutId := by
    intro row hrow
    rw [List.mem_singleton.1 hrow]
    exact howner
  have hsame : SameElsewhere checkoutId store { store with
      operations := store.operations ++
        [operationHeader checkoutId state steps.length touched.length replayed skipped]
      steps := store.steps ++ stepRows checkoutId 0 steps
      touched := deleteOwned (·.checkoutId) checkoutId store.touched ++
        touchedRows checkoutId 0 touched.entries
      rootEpoch := store.rootEpoch + 1 } := by
    refine ⟨fun other hne => ?_, fun other hne => ?_, fun other hne => touchedOf_replaced_other hne⟩
    · rw [JournalStore.operationsOf, ownedBy_append, ownedBy_other hheader hne, append_nil]
      rfl
    · rw [JournalStore.stepsOf, ownedBy_append, ownedBy_other owner_stepRows hne, append_nil]
      rfl
  refine ⟨hok.of_sameElsewhere hsame ?_, hsame⟩
  have hnoSteps : ownedBy (·.checkoutId) checkoutId store.steps = [] := by
    have hself := hok checkoutId
    rw [hidle] at hself
    exact hself.steps_of_idle
  rw [JournalStore.operationsOf, ownedBy_append, ownedBy_self hheader, JournalStore.stepsOf,
    ownedBy_append, ownedBy_self owner_stepRows, JournalStore.touchedOf, touchedOf_replaced, hnoSteps]
  change CheckoutOk (store.operationsOf checkoutId ++ _) _ _
  rw [hidle]
  refine .active ⟨?_, ?_, rebaseOk_write hpending hreplayed hskipped hcheck⟩
  · rw [List.nil_append, ordinal_stepRows, hstepCount, List.range_eq_range']
  · rw [length_touchedRows, hlength, htouchedCount]

-- Runs

def Transition.checkoutId : Transition → Nat
  | .write checkoutId .. => checkoutId
  | .markEmpty checkoutId .. => checkoutId
  | .suspend checkoutId .. => checkoutId
  | .advance checkoutId .. => checkoutId
  | .clear checkoutId => checkoutId

/-- A rebase is written by `rebase` with nothing done from its current step on. -/
def Transition.WritesPending : Transition → Prop
  | .write _ state steps _ => Operations.WritesPending state steps
  | _ => True

/-- Whether the journal still is as the transition expects it. -/
def Transition.current (store : JournalStore) : Transition → Bool
  | .write checkoutId .. => store.operationsOf checkoutId = []
  | .markEmpty checkoutId kind _ => (store.operationsOf checkoutId).any fun row =>
    row.kind = kind.kind && row.phase = .conflicted && row.currentStep = 0
  | .suspend checkoutId currentStep _ => (store.operationsOf checkoutId).any fun row =>
    row.kind = .rebase && row.phase = .running && row.currentStep = currentStep
  | .advance checkoutId phase currentStep .. => (store.operationsOf checkoutId).any fun row =>
    row.kind = .rebase && row.phase = phase && row.currentStep = currentStep
  | .clear checkoutId => store.operationsOf checkoutId ≠ []

/-- A transition that changed the journal found it as it expected, and the collector sees it; one
    that did not change it leaves everything as it was. -/
theorem transition_ok (h : transition store op = .ok (changed, next)) :
    (changed = false ∧ next = store) ∨
      (changed = true ∧ op.current store = true ∧ next.rootEpoch = store.rootEpoch + 1) := by
  cases op with
  | write checkoutId state steps touched =>
    obtain ⟨out, hrun, hout⟩ := Fuel.map_eq_ok.1 h
    obtain ⟨rfl, rfl⟩ := Prod.mk.inj hout
    obtain ⟨hidle, -, replayed, skipped, -, -, -, rfl⟩ := writeOperationJournal_ok hrun
    exact .inr ⟨rfl, decide_eq_true hidle, rfl⟩
  | markEmpty checkoutId kind reason =>
    obtain ⟨out, hrun, hout⟩ := Fuel.map_eq_ok.1 h
    obtain ⟨rfl, rfl⟩ := Prod.mk.inj hout
    obtain ⟨⟨row, hrow, hguard⟩, rfl⟩ := markReplayEmpty_ok hrun
    rw [markGuard, Bool.and_eq_true] at hguard
    exact .inr ⟨rfl, any_eq_true.2 ⟨row, hrow, hguard.1⟩, rfl⟩
  | suspend checkoutId currentStep touched =>
    obtain ⟨out, hrun, hout⟩ := Fuel.map_eq_ok.1 h
    obtain ⟨rfl, rfl⟩ := Prod.mk.inj hout
    obtain ⟨-, ⟨row, hrow, hguard⟩, rfl⟩ := suspendRebase_ok hrun
    rw [stepGuard, Bool.and_eq_true] at hguard
    exact .inr ⟨rfl, any_eq_true.2 ⟨row, hrow, hguard.1⟩, rfl⟩
  | advance checkoutId phase currentStep outcome resultOid currentParentOid committer =>
    obtain ⟨out, hrun, hout⟩ := Fuel.map_eq_ok.1 h
    obtain ⟨rfl, rfl⟩ := Prod.mk.inj hout
    obtain ⟨⟨row, hrow, hguard⟩, rfl⟩ := advanceRebase_ok hrun
    rw [stepGuard, Bool.and_eq_true] at hguard
    exact .inr ⟨rfl, any_eq_true.2 ⟨row, hrow, hguard.1⟩, rfl⟩
  | clear checkoutId =>
    obtain ⟨rfl, -, rfl⟩ | ⟨rfl, hactive, rfl⟩ := clearOperationState_ok h
    · exact .inl ⟨rfl, rfl⟩
    · exact .inr ⟨rfl, decide_eq_true hactive, rfl⟩

theorem transition_stale (hstale : op.current store = false) :
    store.apply op = store ∧ ∀ next, transition store op ≠ .ok (true, next) := by
  have hunchanged : ∀ next, transition store op ≠ .ok (true, next) := by
    intro next h
    obtain ⟨hchanged, -⟩ | ⟨-, hcurrent, -⟩ := transition_ok h
    · cases hchanged
    · rw [hstale] at hcurrent
      cases hcurrent
  refine ⟨?_, hunchanged⟩
  unfold JournalStore.apply
  cases h : transition store op with
  | error e => rfl
  | ok out =>
    obtain ⟨changed, next⟩ := out
    obtain ⟨-, rfl⟩ | ⟨rfl, -, -⟩ := transition_ok h
    · rfl
    · exact absurd h (hunchanged next)

/-- Every transition keeps the invariant, the other checkouts, and the plan of an operation that
    it does not clear. -/
theorem JournalOk.transition (hok : JournalOk store) (hpending : op.WritesPending)
    (h : Operations.transition store op = .ok (changed, next)) :
    JournalOk next ∧ SameElsewhere op.checkoutId store next ∧
      (op = .clear op.checkoutId ∨ store.operationsOf op.checkoutId = [] ∨
        (next.operationsOf op.checkoutId ≠ [] ∧
          next.planOf op.checkoutId = store.planOf op.checkoutId)) := by
  cases op with
  | write checkoutId state steps touched =>
    obtain ⟨out, hrun, hout⟩ := Fuel.map_eq_ok.1 h
    obtain ⟨-, rfl⟩ := Prod.mk.inj hout
    obtain ⟨hnext, hsame⟩ := hok.writeOperationJournal hpending hrun
    exact ⟨hnext, hsame, .inr (.inl (writeOperationJournal_ok hrun).1)⟩
  | markEmpty checkoutId kind reason =>
    obtain ⟨out, hrun, hout⟩ := Fuel.map_eq_ok.1 h
    obtain ⟨-, rfl⟩ := Prod.mk.inj hout
    obtain ⟨hnext, hsame, hkept⟩ := hok.markReplayEmpty hrun
    exact ⟨hnext, hsame, .inr (.inr hkept)⟩
  | suspend checkoutId currentStep touched =>
    obtain ⟨out, hrun, hout⟩ := Fuel.map_eq_ok.1 h
    obtain ⟨-, rfl⟩ := Prod.mk.inj hout
    obtain ⟨hnext, hsame, hkept⟩ := hok.suspendRebase hrun
    exact ⟨hnext, hsame, .inr (.inr hkept)⟩
  | advance checkoutId phase currentStep outcome resultOid currentParentOid committer =>
    obtain ⟨out, hrun, hout⟩ := Fuel.map_eq_ok.1 h
    obtain ⟨-, rfl⟩ := Prod.mk.inj hout
    obtain ⟨hnext, hsame, hkept⟩ := hok.advanceRebase hrun
    exact ⟨hnext, hsame, .inr (.inr hkept)⟩
  | clear checkoutId =>
    obtain ⟨-, -, rfl⟩ | ⟨-, -, rfl⟩ := clearOperationState_ok h
    · exact ⟨hok, ⟨fun _ _ => rfl, fun _ _ => rfl, fun _ _ => rfl⟩, .inl rfl⟩
    · exact ⟨hok.clear checkoutId _, sameElsewhere_delete, .inl rfl⟩

theorem JournalOk.apply (hok : JournalOk store)
    (hpending : op.WritesPending) : JournalOk (store.apply op) := by
  unfold JournalStore.apply
  cases h : Operations.transition store op with
  | error e => exact hok
  | ok out => exact (hok.transition hpending h).1

theorem JournalOk.run (hok : JournalOk store)
    (hpending : ∀ op ∈ ops, op.WritesPending) : JournalOk (ops.foldl JournalStore.apply store) := by
  induction ops generalizing store with
  | nil => exact hok
  | cons op ops ih =>
    exact ih (hok.apply (hpending op List.mem_cons_self))
      fun other hother => hpending other (List.mem_cons_of_mem _ hother)

/-- A plan that is not cleared stays as it is. -/
theorem JournalOk.planOf_apply (hok : JournalOk store)
    {checkoutId : Nat} (hpending : op.WritesPending) (hactive : store.operationsOf checkoutId ≠ [])
    (hclear : op ≠ .clear checkoutId) :
    (store.apply op).operationsOf checkoutId ≠ [] ∧
      (store.apply op).planOf checkoutId = store.planOf checkoutId := by
  unfold JournalStore.apply
  cases h : Operations.transition store op with
  | error e => exact ⟨hactive, rfl⟩
  | ok out =>
    obtain ⟨-, hsame, hself⟩ := hok.transition hpending h
    by_cases howner : checkoutId = op.checkoutId
    · subst howner
      obtain hclears | hidle | hkept := hself
      · exact absurd hclears hclear
      · exact absurd hidle hactive
      · exact hkept
    · dsimp only
      rw [hsame.operations checkoutId howner, JournalStore.planOf, hsame.steps checkoutId howner]
      exact ⟨hactive, rfl⟩

theorem JournalOk.planOf_run (hok : JournalOk store)
    {checkoutId : Nat} (hpending : ∀ op ∈ ops, op.WritesPending)
    (hactive : store.operationsOf checkoutId ≠ []) (hclear : .clear checkoutId ∉ ops) :
    (ops.foldl JournalStore.apply store).planOf checkoutId = store.planOf checkoutId := by
  induction ops generalizing store with
  | nil => rfl
  | cons op ops ih =>
    rw [List.mem_cons, not_or] at hclear
    have hfirst := hpending op List.mem_cons_self
    obtain ⟨hstill, hplan⟩ := hok.planOf_apply hfirst hactive (Ne.symm hclear.1)
    rw [List.foldl_cons, ← hplan]
    exact ih (hok.apply hfirst) (fun other hother => hpending other (List.mem_cons_of_mem _ hother))
      hstill hclear.2

/-- No operation on any checkout. -/
def JournalStore.idle (checkouts : List Nat) (rootEpoch : Nat) : JournalStore :=
  { checkouts, operations := [], steps := [], touched := [], rootEpoch }

theorem journalOk_idle (checkouts : List Nat) (rootEpoch : Nat) :
    JournalOk (JournalStore.idle checkouts rootEpoch) := fun _ => .idle

/-- Whatever the order of the transitions, as long as a rebase is written with nothing done from its
    current step on: every checkout is idle or has one operation whose rows belong together; a
    transition that expects another journal changes nothing, and one that changes it moves the root
    epoch; and a plan is as it was written until it is cleared. -/
theorem journal_run (checkouts : List Nat) (rootEpoch : Nat) (ops : List Transition)
    (hpending : ∀ op ∈ ops, op.WritesPending) :
    JournalOk (ops.foldl JournalStore.apply (.idle checkouts rootEpoch)) ∧
    (∀ op : Transition,
      op.current (ops.foldl JournalStore.apply (.idle checkouts rootEpoch)) = false →
      (ops.foldl JournalStore.apply (.idle checkouts rootEpoch)).apply op =
          ops.foldl JournalStore.apply (.idle checkouts rootEpoch) ∧
        ∀ next, transition (ops.foldl JournalStore.apply (.idle checkouts rootEpoch)) op ≠
          .ok (true, next)) ∧
    (∀ (op : Transition) (next : JournalStore),
      transition (ops.foldl JournalStore.apply (.idle checkouts rootEpoch)) op = .ok (true, next) →
      next.rootEpoch = (ops.foldl JournalStore.apply (.idle checkouts rootEpoch)).rootEpoch + 1) ∧
    ∀ (checkoutId : Nat) (later : List Transition), (∀ op ∈ later, op.WritesPending) →
      (ops.foldl JournalStore.apply (.idle checkouts rootEpoch)).operationsOf checkoutId ≠ [] →
      .clear checkoutId ∉ later →
      (later.foldl JournalStore.apply
        (ops.foldl JournalStore.apply (.idle checkouts rootEpoch))).planOf checkoutId =
          (ops.foldl JournalStore.apply (.idle checkouts rootEpoch)).planOf checkoutId := by
  have hok := (journalOk_idle checkouts rootEpoch).run hpending
  refine ⟨hok, fun op hstale => transition_stale hstale, fun op next h => ?_, ?_⟩
  · obtain ⟨hchanged, -⟩ | ⟨-, -, hepoch⟩ := transition_ok h
    · cases hchanged
    · exact hepoch
  · intro checkoutId later hlater hactive hclear
    exact hok.planOf_run hlater hactive hclear

/-- A rebase of two commits onto `upstreamOid`. -/
def startRebase (outcomes : List StepOutcome) : Transition :=
  .write 1
    (.rebase
      { originalHeadRef := text "refs/heads/main", originalHeadOid := text "a", currentLabel := []
        incomingLabel := [], message := [], author := none, committer := none }
      .running (text "b") (text "c") (text "b") 0)
    (outcomes.map fun outcome =>
      { sourceOid := text "d", selectedParentOid := none, mainline := none, outcome
        resultOid := if outcome = .applied then some (text "e") else none })
    { length := 0, entries := [] }

/-- One step is applied, the other one is skipped after a conflict. -/
def rebaseRun : List Transition :=
  [startRebase [.pending, .pending],
    .advance 1 .running 0 .applied (some (text "e")) (text "e") none,
    .suspend 1 1 { length := 1, entries := [{ path := text "f", logicalPath := text "f"
                                              purpose := .primary, index := none
                                              worktree := .absent }] },
    .advance 1 .conflicted 1 .skipped none (text "e") none]

theorem rebaseRun_ok :
    ((rebaseRun.foldl JournalStore.apply (.idle [1] 0)).operationsOf 1).map
        (fun row => (row.currentStep, row.replayedCount, row.skippedCount)) = [(2, 1, 1)] ∧
      JournalOk (rebaseRun.foldl JournalStore.apply (.idle [1] 0)) := by
  have hpending : ∀ op ∈ rebaseRun, op.WritesPending := by
    intro op hop
    simp only [rebaseRun, List.mem_cons, List.not_mem_nil, or_false] at hop
    obtain rfl | rfl | rfl | rfl := hop
    · simp [startRebase, Transition.WritesPending, WritesPending]
    · trivial
    · trivial
    · trivial
  exact ⟨by decide, (journal_run [1] 0 rebaseRun hpending).1⟩

/-- A rebase that is written with a later step already applied stands before a finished step. -/
theorem appliedRebase_not_counted :
    ∃ row ∈ ([startRebase [.applied]].foldl JournalStore.apply (.idle [1] 0)).operationsOf 1,
      row.kind = .rebase ∧ row.currentStep ≠
        (([startRebase [.applied]].foldl JournalStore.apply (.idle [1] 0)).stepsOf 1).countP
          StepRow.finished := by
  decide

end Kompjutr.Operations
