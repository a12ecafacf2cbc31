/-
  Kompjutr.Rebase.Plan

  The plan of a rebase (`ops/rebase/rebase-plan.ts`): the commits between the merge base and
  the current commit, as long as they are one line.
-/
import Kompjutr.Operations.Journal
import Kompjutr.Rebase.Revision

namespace Kompjutr.Rebase

open Objects (Text text shown isOid Commit)
open Commits (Walked walkIndexedOwned)
open Merge (MergeBaseSelection selectMergeBases maxMergeBaseCommits andThen)
open Operations (OperationStep maxOperationSteps)

inductive RebasePlanRelation where
  | upToDate | fastForward | replay
  deriving DecidableEq

structure RebasePlanLimits where
  maxSteps : Option Nat
  maxGraphCommits : Option Nat
  deriving DecidableEq

structure RebasePlanInput where
  upstream : Text
  currentOid : Text
  limits : RebasePlanLimits
  deriving DecidableEq

structure RebasePlan where
  relation : RebasePlanRelation
  originalHeadOid : Text
  upstreamOid : Text
  baseOid : Text
  steps : List OperationStep
  graphCommits : Nat
  deriving DecidableEq

structure ResolvedLimits where
  maxSteps : Nat
  /-- `graph.maxCommits`. -/
  maxCommits : Nat
  deriving DecidableEq

def boundedLimit (value : Option Nat) (ceiling : Nat) (label : String) : Except GitError Nat :=
  match value with
  | none => pure ceiling
  | some value =>
    if !isSafeInteger value || value < 1 || value > ceiling then
      throw { code := "RangeError", message := s!"invalid rebase {label} limit" }
    else pure value

def resolveLimits (limits : RebasePlanLimits) : Except GitError ResolvedLimits :=
  boundedLimit limits.maxSteps maxOperationSteps "step" >>= fun maxSteps =>
  boundedLimit limits.maxGraphCommits maxMergeBaseCommits "graph commit" >>= fun maxCommits =>
  pure { maxSteps, maxCommits }

def requireUniqueBase (selection : MergeBaseSelection) : Except GitError Text :=
  match selection.kind, selection.bases with
  | .shallow, _ =>
    throw { code := "ESHALLOW"
            message := "cannot determine rebase base across a shallow boundary" }
  | .unrelated, _ =>
    throw { code := "EUNRELATED", message := "refusing to rebase unrelated histories" }
  | _, [base] => pure base
  | _, _ => throw { code := "EUNSUPPORTED", message := "rebase requires one unique merge base" }

def pendingStep (sourceOid selectedParentOid : Text) : OperationStep :=
  { sourceOid, selectedParentOid := some selectedParentOid, mainline := none, outcome := .pending
    resultOid := none }

/-- The loop of `selectSteps` over what the walk yields; `failed` is the error that ends it. -/
def selectLoop (baseOid : Text) (maxSteps : Nat) (failed : Option GitError) :
    List (Text × Commit) → List OperationStep → Text → Except GitError (List OperationStep)
  | [], _, _ =>
    match failed with
    | some error => throw error
    | none => throw (corrupt "rebase linear walk did not reach the selected base")
  | entry :: rest, newestFirst, oid =>
    if entry.1 ≠ oid then
      throw (corrupt "rebase linear walk diverged from the selected parent chain")
    else if entry.1 = baseOid then pure newestFirst.reverse
    else if newestFirst.length ≥ maxSteps then
      throw { code := "E2BIG", message := s!"rebase plan exceeds {maxSteps} steps" }
    else
      match entry.2.parent with
      | [selectedParentOid] =>
        selectLoop baseOid maxSteps failed rest
          (newestFirst ++ [pendingStep oid selectedParentOid]) selectedParentOid
      | _ => throw { code := "EUNSUPPORTED", message := "rebase selected range is not linear" }

def selectSteps (repo : Repository) (currentOid baseOid : Text) (limits : ResolvedLimits)
    (fuel : Nat) : Option (Except GitError (List OperationStep)) :=
  (walkIndexedOwned repo.walk currentOid
    { maxCommits := some limits.maxCommits, maxBytes := none } fuel).map fun walked =>
      selectLoop baseOid limits.maxSteps walked.2 walked.1 [] currentOid

def planLabels : RevisionLabels := { input := "rebase upstream", operation := "rebase" }

/-- What is checked and read before the merge base is selected. -/
def planInputs (repo : Repository) (input : RebasePlanInput) :
    Except GitError (ResolvedLimits × Text) :=
  resolveLimits input.limits >>= fun limits =>
  if !isOid input.currentOid then
    throw { code := "EINVAL", message := "rebase current commit must be a full object id" }
  else
    resolveBoundedCommitRevision repo input.upstream planLabels >>= fun upstreamOid =>
    pure (limits, upstreamOid)

def planRebase (repo : Repository) (input : RebasePlanInput) (fuel : Nat) :
    Option (Except GitError RebasePlan) :=
  andThen (some (planInputs repo input)) fun (limits, upstreamOid) =>
  andThen (selectMergeBases repo.toRepository
    { currentOid := input.currentOid, incomingOid := upstreamOid
      limits := { maxCommits := some limits.maxCommits, maxBases := none } } fuel) fun selection =>
  andThen (some (requireUniqueBase selection)) fun baseOid =>
  let plan (relation : RebasePlanRelation) (steps : List OperationStep) : RebasePlan :=
    { relation, originalHeadOid := input.currentOid, upstreamOid, baseOid, steps
      graphCommits := selection.commits }
  match selection.kind with
  | .alreadyMerged => some (.ok (plan .upToDate []))
  | .fastForward => some (.ok (plan .fastForward []))
  | _ =>
    (selectSteps repo input.currentOid baseOid limits fuel).map fun steps =>
      steps.map (plan .replay)

end Kompjutr.Rebase
