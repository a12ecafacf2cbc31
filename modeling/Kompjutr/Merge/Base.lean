/-
  Kompjutr.Merge.Base

  Best common ancestors of two commits (`ops/merge/merge-base.ts`).

  The histories of both sides are collected into one graph whose nodes know the sides that
  reach them.  A pass from the children to the parents then marks every common ancestor
  that has a common descendant.
-/
import Kompjutr.Commits.Walk
import Mathlib.Data.List.Lex

namespace Kompjutr.Merge

open Objects (Text text shown isOid ObjectType Commit)
open Commits (CommitStore WalkRepository Walked walkIndexedOwned maxLogCommits typeName)

/-- What the selection reads of a repository. -/
structure Repository where
  store : CommitStore
  /-- The object of a tag. -/
  tagTarget : Text → Except GitError Text

def typeOf (repo : Repository) (oid : Text) : Except GitError ObjectType :=
  match repo.store.typeOf oid with
  | some type => .ok type
  | none => .error { code := "ENOTFOUND", message := s!"object not found: {shown oid}" }

/-- The loop of `peel`, with the hops that are left. -/
def peelFrom (repo : Repository) (oid : Text) : Nat → Text → Except GitError Text
  | 0, _ => .error (corrupt s!"tag chain from {shown oid} is too deep")
  | hops + 1, current =>
    (typeOf repo current).bind fun type =>
    if type ≠ .tag then .ok current
    else (repo.tagTarget current).bind fun target => peelFrom repo oid hops target

def peel (repo : Repository) (oid : Text) : Except GitError Text := peelFrom repo oid 16 oid

def Repository.walk (repo : Repository) : WalkRepository := { store := repo.store, peel := peel repo }

-- Limits

/-- `MAX_MERGE_BASE_COMMITS`. -/
def maxMergeBaseCommits : Nat := maxLogCommits

/-- `MAX_MERGE_BASES`. -/
def maxMergeBases : Nat := 64

structure MergeBaseLimits where
  maxCommits : Option Nat
  maxBases : Option Nat
  deriving DecidableEq

structure ResolvedLimits where
  maxCommits : Nat
  maxBases : Nat
  deriving DecidableEq

def boundedLimit (value : Option Nat) (ceiling : Nat) (label : String) : Except GitError Nat :=
  match value with
  | none => .ok ceiling
  | some value =>
    if value < 1 || ceiling < value then
      .error { code := "RangeError", message := s!"invalid merge-base {label} limit" }
    else .ok value

def resolveLimits (limits : MergeBaseLimits) : Except GitError ResolvedLimits :=
  (boundedLimit limits.maxCommits maxMergeBaseCommits "commit").bind fun maxCommits =>
  (boundedLimit limits.maxBases maxMergeBases "base").map fun maxBases => { maxCommits, maxBases }

-- The graph of both sides

/-- `CURRENT`. -/
def current : Nat := 1

/-- `INCOMING`. -/
def incoming : Nat := 2

/-- `BOTH`. -/
def both : Nat := current ||| incoming

structure GraphNode where
  commit : Commit
  sides : Nat
  deriving DecidableEq

/-- The nodes, in the order in which they were added. -/
abbrev GraphNodes := List (Text × GraphNode)

def nodeAt (nodes : GraphNodes) (oid : Text) : Option GraphNode := nodes.lookup oid

/-- `existing.sides |= side`. -/
def addSide (oid : Text) (side : Nat) (nodes : GraphNodes) : GraphNodes :=
  nodes.map fun node =>
    if node.1 = oid then (node.1, { node.2 with sides := node.2.sides ||| side }) else node

def addCommit (side maxCommits : Nat) (nodes : GraphNodes) (item : Text × Commit) :
    Except GitError GraphNodes :=
  match nodeAt nodes item.1 with
  | some existing =>
    if existing.commit.tree ≠ item.2.tree || existing.commit.parent ≠ item.2.parent then
      .error (corrupt "indexed graph returned inconsistent commit identities")
    else .ok (addSide item.1 side nodes)
  | none =>
    if maxCommits ≤ nodes.length then
      .error { code := "E2BIG"
               message := s!"merge-base graph exceeds {maxCommits} unique commits" }
    else .ok (nodes ++ [(item.1, { commit := item.2, sides := side })])

/-- What the walk yielded is added before its error is seen. -/
def addReachable (repo : Repository) (root : Text) (side : Nat) (limits : ResolvedLimits)
    (nodes : GraphNodes) (fuel : Nat) : Option (Except GitError GraphNodes) :=
  (walkIndexedOwned repo.walk root { maxCommits := some limits.maxCommits, maxBytes := none }
    fuel).map fun walked =>
      (walked.1.foldlM (addCommit side limits.maxCommits) nodes).bind fun nodes =>
      match walked.2 with
      | some error => .error error
      | none => .ok nodes

structure MergeBaseInput where
  currentOid : Text
  incomingOid : Text
  limits : MergeBaseLimits
  deriving DecidableEq

def requireCommit (repo : Repository) (oid : Text) : Except GitError Unit :=
  (typeOf repo oid).bind fun type =>
  if type ≠ .commit then .error (corrupt s!"{shown oid} is a {typeName type}, not a commit")
  else .ok ()

def checkInput (repo : Repository) (input : MergeBaseInput) : Except GitError ResolvedLimits :=
  if !isOid input.currentOid || !isOid input.incomingOid then
    .error { code := "EINVAL", message := "merge-base inputs must be full object ids" }
  else
    (resolveLimits input.limits).bind fun limits =>
    (requireCommit repo input.currentOid).bind fun _ =>
    (requireCommit repo input.incomingOid).map fun _ => limits

/-- A step that may run out of fuel after one that did not. -/
def andThen {α β : Type} (first : Option (Except GitError α))
    (next : α → Option (Except GitError β)) : Option (Except GitError β) :=
  first.bind fun answer =>
    match answer with
    | .error error => some (.error error)
    | .ok value => next value

/-- `reachableGraphOwned`. -/
def reachableGraphOwned (repo : Repository) (input : MergeBaseInput) (fuel : Nat) :
    Option (Except GitError GraphNodes) :=
  andThen (some (checkInput repo input)) fun limits =>
  andThen (addReachable repo input.currentOid current limits [] fuel) fun nodes =>
  addReachable repo input.incomingOid incoming limits nodes fuel

-- Best common ancestors

/-- `childCounts`. -/
abbrev ChildCounts := Text → Option Int

def countParent (nodes : GraphNodes) (shallow : List Text) (oid : Text) (counts : ChildCounts)
    (parent : Text) : Except GitError ChildCounts :=
  if (nodeAt nodes parent).isNone then
    if oid ∉ shallow then .error (corrupt "merge-base graph is missing a parent row")
    else .ok counts
  else .ok fun other => if other = parent then some ((counts parent).getD 0 + 1) else counts other

def countChildren (nodes : GraphNodes) (shallow : List Text) : Except GitError ChildCounts :=
  nodes.foldlM
    (fun counts node => node.2.commit.parent.foldlM (countParent nodes shallow node.1) counts)
    fun oid => if (nodeAt nodes oid).isSome then some 0 else none

/-- The state of the pass; the top of `ready` comes first. -/
structure Pass where
  counts : ChildCounts
  ready : List Text
  hasCommonDescendant : List Text
  dominated : List Text
  processed : Nat

def passParent (common : List Text) (propagates : Bool) (state : Pass) (parent : Text) : Pass :=
  match state.counts parent with
  | none => state
  | some children =>
    let remaining := children - 1
    { counts := fun other => if other = parent then some remaining else state.counts other
      ready := if remaining = 0 then parent :: state.ready else state.ready
      hasCommonDescendant :=
        if propagates then parent :: state.hasCommonDescendant else state.hasCommonDescendant
      dominated :=
        if propagates && parent ∈ common then parent :: state.dominated else state.dominated
      processed := state.processed }

/-- No commit becomes ready twice, so the pass takes no more turns than there are nodes. -/
def passLoop (nodes : GraphNodes) (common : List Text) : Nat → Pass → Except GitError Pass
  | 0, state => .ok state
  | turns + 1, state =>
    match state.ready with
    | [] => .ok state
    | oid :: ready =>
      match nodeAt nodes oid with
      | none => .error (corrupt "merge-base graph lost a ready commit")
      | some node =>
        let propagates := oid ∈ common || oid ∈ state.hasCommonDescendant
        passLoop nodes common turns (node.commit.parent.foldl (passParent common propagates)
          { state with ready, processed := state.processed + 1 })

/-- The nodes that both sides reach. -/
def commonOids (nodes : GraphNodes) : List Text :=
  (nodes.filter fun node => node.2.sides = both).map Prod.fst

def bestCommonAncestors (nodes : GraphNodes) (shallow : List Text) :
    Except GitError (List Text) :=
  let common := commonOids nodes
  (countChildren nodes shallow).bind fun counts =>
  let ready := ((nodes.map Prod.fst).filter fun oid => counts oid = some 0).reverse
  (passLoop nodes common nodes.length
    { counts, ready, hasCommonDescendant := [], dominated := [], processed := 0 }).bind fun state =>
  if state.processed ≠ nodes.length then
    .error (corrupt "merge-base graph contains a cycle")
  else .ok ((common.filter fun oid => oid ∉ state.dominated).mergeSort fun left right => left ≤ right)

-- Selection

inductive MergeBaseKind where
  | alreadyMerged | fastForward | divergent | unrelated | shallow
  deriving DecidableEq

structure MergeBaseSelection where
  kind : MergeBaseKind
  bases : List Text
  commits : Nat
  deriving DecidableEq

def sidesAt (nodes : GraphNodes) (oid : Text) : Option Nat := (nodeAt nodes oid).map GraphNode.sides

def selectFrom (nodes : GraphNodes) (shallow : List Text) (input : MergeBaseInput)
    (limits : ResolvedLimits) : Except GitError MergeBaseSelection :=
  let result (kind : MergeBaseKind) (bases : List Text) : MergeBaseSelection :=
    { kind, bases, commits := nodes.length }
  if sidesAt nodes input.incomingOid = some both then
    .ok (result .alreadyMerged [input.incomingOid])
  else if sidesAt nodes input.currentOid = some both then
    .ok (result .fastForward [input.currentOid])
  else if shallow.any fun oid => (sidesAt nodes oid).any (· ≠ both) then .ok (result .shallow [])
  else
    (bestCommonAncestors nodes shallow).bind fun bases =>
    if bases = [] then .ok (result .unrelated [])
    else if limits.maxBases < bases.length then
      .error { code := "E2BIG"
               message := s!"merge-base result exceeds {limits.maxBases} best bases" }
    else .ok (result .divergent bases)

def selectMergeBases (repo : Repository) (input : MergeBaseInput) (fuel : Nat) :
    Option (Except GitError MergeBaseSelection) :=
  andThen (reachableGraphOwned repo input fuel) fun nodes =>
  andThen (some (resolveLimits input.limits)) fun limits =>
  some (selectFrom nodes repo.store.shallow input limits)

end Kompjutr.Merge
