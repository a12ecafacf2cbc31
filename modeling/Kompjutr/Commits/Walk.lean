/-
  Kompjutr.Commits.Walk

  Walking a history in commit-date order (`ops/repository/repository-walk.ts`).

  `walkPrunedOwned` reads a commit when it discovers it; `walkIndexedOwned` first collects
  and validates the whole graph.  Both yield from a heap whose order is the committer's
  time, latest first, and for equal times the order of discovery.

  What a generator has yielded stays with the error that ends it.  A loop has no answer
  when its fuel runs out.
-/
import Kompjutr.Commits.Graph
import Kompjutr.Lib.Heap

namespace Kompjutr.Commits

open Objects (Text text shown isOid ObjectType Commit)
open Trees (CommitCacheEntry CachedCommit completeCommit)

structure WalkNode where
  oid : Text
  entry : CommitCacheEntry
  sequence : Nat
  deriving DecidableEq

def before (left right : WalkNode) : Bool :=
  let leftTime := timestampOf left.entry
  let rightTime := timestampOf right.entry
  if leftTime ≠ rightTime then leftTime > rightTime else left.sequence < right.sequence

structure WalkState where
  /-- In the order of discovery. -/
  seen : List Text
  /-- `CommitHeap`. -/
  queue : List WalkNode
  sequence : Nat
  deriving DecidableEq

def emptyWalk : WalkState := { seen := [], queue := [], sequence := 0 }

/-- What a walk has yielded, and the error that ended it. -/
abbrev Walked (α : Type) := List α × Option GitError

structure WalkRepository where
  store : CommitStore
  peel : Text → Except GitError Text

def typeName : ObjectType → String
  | .commit => "commit"
  | .tree => "tree"
  | .blob => "blob"
  | .tag => "tag"

/-- Every stored commit has a row; a commit object without one is corruption. -/
def readCommitEntryOwned (store : CommitStore) (oid : Text) : Except GitError CommitCacheEntry :=
  match store.cachedCommit oid with
  | some row => .ok row
  | none =>
    match store.typeOf oid with
    | none => .error { code := "ENOTFOUND", message := s!"object not found: {shown oid}" }
    | some .commit => .error (corrupt s!"commit {shown oid} has no parsed row")
    | some type => .error (corrupt s!"{shown oid} is a {typeName type}, not a commit")

-- The loop

/-- A discovered commit enters the queue. -/
def enqueue (state : WalkState) (candidate : Text) (entry : CommitCacheEntry) : WalkState :=
  { seen := state.seen ++ [candidate]
    queue := Heap.push before state.queue { oid := candidate, entry, sequence := state.sequence }
    sequence := state.sequence + 1 }

/-- The loop of both walks: `visit` makes what is yielded, `expand` discovers the parents. -/
def walkLoop {α : Type} (visit : WalkNode → Except GitError α)
    (expand : WalkNode → α → WalkState → Except GitError WalkState) :
    Nat → WalkState → Option (Walked α)
  | 0, _ => none
  | fuel + 1, state =>
    match Heap.pop before state.queue with
    | none => some ([], none)
    | some (next, queue) =>
      match visit next with
      | .error error => some ([], some error)
      | .ok item =>
        match expand next item { state with queue } with
        | .error error => some ([item], some error)
        | .ok state => (walkLoop visit expand fuel state).map fun rest =>
            (item :: rest.1, rest.2)

-- The lazy walk

structure PrunedCommitWalkDecision where
  included : Bool
  parents : List Text
  deriving DecidableEq

structure PrunedCommit where
  oid : Text
  commit : Commit
  decision : PrunedCommitWalkDecision
  deriving DecidableEq

def pushRead (store : CommitStore) (state : WalkState) (candidate : Text) :
    Except GitError WalkState :=
  if candidate ∈ state.seen then .ok state
  else if maxLogCommits ≤ state.seen.length then .error graphLimitError
  else (readCommitEntryOwned store candidate).map fun entry => enqueue state candidate entry

/-- A selected parent is checked before it is pushed. -/
def pushSelected (store : CommitStore) (commit : Commit) (state : WalkState) (parent : Text) :
    Except GitError WalkState :=
  if parent ∉ commit.parent then
    .error (corrupt "pruned commit walk selected a non-parent oid")
  else pushRead store state parent

def walkPrunedOwned (repo : WalkRepository) (oid : Text)
    (select : Text → Commit → PrunedCommitWalkDecision) (fuel : Nat) :
    Option (Walked PrunedCommit) :=
  match (repo.peel oid).bind (pushRead repo.store emptyWalk) with
  | .error error => some ([], some error)
  | .ok state =>
    walkLoop
      (fun next => (completeCommit repo.store.read next.entry).map fun commit =>
        { oid := next.oid, commit, decision := select next.oid commit })
      (fun next item state =>
        if next.oid ∈ repo.store.shallow then .ok state
        else item.decision.parents.foldlM (pushSelected repo.store item.commit) state)
      fuel state

/-- Commits reachable from `oid`, first-parent-first, in commit-date order. -/
def walkOwned (repo : WalkRepository) (oid : Text) (fuel : Nat) : Option (Walked (Text × Commit)) :=
  (walkPrunedOwned repo oid (fun _ commit => { included := true, parents := commit.parent })
    fuel).map fun walked => (walked.1.map fun item => (item.oid, item.commit), walked.2)

-- The indexed walk

/-- `entries.get`. -/
def entryAt (entries : List CommitCacheEntry) (oid : Text) : Option CommitCacheEntry :=
  entries.find? fun entry => entry.oid = oid

def collectEntry (maxCommits : Nat) (entries : List CommitCacheEntry) (entry : CommitCacheEntry) :
    Except GitError (List CommitCacheEntry) :=
  if (entryAt entries entry.oid).isSome then
    .error (corrupt "commit graph yielded a duplicate oid")
  else if maxCommits ≤ entries.length then .error graphLimitError
  else .ok (entries ++ [entry])

/-- A frame of the depth-first search: a commit, and the parent to look at next. -/
structure Frame where
  oid : Text
  parent : Nat
  deriving DecidableEq

/-- The loop of `validateCommitGraph`; the stack's top comes first. -/
def validateLoop (entries : List CommitCacheEntry) (boundary : List Text) (requireComplete : Bool) :
    Nat → List Frame → List Text → List Text → Option (Except GitError (List Text))
  | 0, _, _, _ => none
  | _ + 1, [], _, visited => some (.ok visited)
  | fuel + 1, frame :: stack, visiting, visited =>
    match entryAt entries frame.oid with
    | none => some (.error (corrupt "commit graph is missing a commit row"))
    | some entry =>
      let parents := if frame.oid ∈ boundary then [] else parentsOf entry
      match parents[frame.parent]? with
      | none => validateLoop entries boundary requireComplete fuel stack
          (visiting.erase frame.oid) (visited ++ [frame.oid])
      | some parent =>
        let stack := { frame with parent := frame.parent + 1 } :: stack
        if (entryAt entries parent).isNone then
          if requireComplete then some (.error (corrupt "commit graph is missing a parent row"))
          else validateLoop entries boundary requireComplete fuel stack visiting visited
        else if parent ∈ visiting then some (.error (corrupt "commit graph contains a cycle"))
        else if parent ∈ visited then
          validateLoop entries boundary requireComplete fuel stack visiting visited
        else
          validateLoop entries boundary requireComplete fuel ({ oid := parent, parent := 0 } :: stack)
            (parent :: visiting) visited

def validateCommitGraph (root : Text) (entries : List CommitCacheEntry) (boundary : List Text)
    (requireComplete : Bool) (fuel : Nat) : Option (Except GitError Unit) :=
  (validateLoop entries boundary requireComplete fuel [{ oid := root, parent := 0 }] [root] []).map
    fun visited => visited.bind fun visited =>
      if requireComplete && visited.length ≠ entries.length then
        .error (corrupt "commit graph has unreachable rows")
      else .ok ()

def pushEntry (entries : List CommitCacheEntry) (state : WalkState) (candidate : Text) :
    Except GitError WalkState :=
  if candidate ∈ state.seen then .ok state
  else
    match entryAt entries candidate with
    | none => .error (corrupt "commit graph is missing a parent row")
    | some entry => .ok (enqueue state candidate entry)

def orderedCommitGraph (store : CommitStore) (root : Text) (entries : List CommitCacheEntry)
    (boundary : List Text) (fuel : Nat) : Option (Walked (Text × Commit)) :=
  match pushEntry entries emptyWalk root with
  | .error error => some ([], some error)
  | .ok state =>
    walkLoop
      (fun next => (completeCommit store.read next.entry).map fun commit => (next.oid, commit))
      (fun next _ state =>
        if next.oid ∈ boundary then .ok state
        else (parentsOf next.entry).foldlM (pushEntry entries) state)
      fuel state

/-- The entries that `walkIndexedOwned` preloads. -/
def indexedEntries (store : CommitStore) (root : Text) (limits : CommitGraphLimits) :
    Except GitError (List CommitCacheEntry) :=
  let maxCommits := min (limits.maxCommits.getD maxLogCommits) maxLogCommits
  (readCommitGraphOwned store root limits).bind fun rows =>
  (rows.foldlM (collectEntry maxCommits) []).bind fun entries =>
  if (entryAt entries root).isNone then .error (corrupt "commit graph omitted its root")
  else .ok entries

/-- Fully validated indexed graph walk used by large and unbounded logs. -/
def walkIndexedOwned (repo : WalkRepository) (oid : Text) (limits : CommitGraphLimits)
    (fuel : Nat) : Option (Walked (Text × Commit)) :=
  match repo.peel oid with
  | .error error => some ([], some error)
  | .ok root =>
    match indexedEntries repo.store root limits with
    | .error error => some ([], some error)
    | .ok entries =>
      match validateCommitGraph root entries repo.store.shallow true fuel with
      | none => none
      | some (.error error) => some ([], some error)
      | some (.ok _) => orderedCommitGraph repo.store root entries repo.store.shallow fuel

end Kompjutr.Commits
