/-
  Kompjutr.Commits.Graph

  The indexed commit graph (`store/trees/commits-graph.ts`).

  One recursive statement collects the commits that are reachable from a root without
  going past a shallow boundary, stops after one commit more than the limit, and answers
  either an error for the whole graph or its rows.
-/
import Kompjutr.Trees.CommitCache
import Kompjutr.Lib.RecursiveUnion

namespace Kompjutr.Commits

open Objects (Text text shown isOid ObjectType Commit)
open Trees (CommitCacheEntry CachedCommit commitRowMaxBytes completeCommit)

/-- What the walks read of a repository.  A row is taken as `decodeCommitCacheRow` reads it,
    which gives it the object id it is stored under. -/
structure CommitStore where
  repoId : Int
  cachedCommit : Text → Option CommitCacheEntry
  typeOf : Text → Option ObjectType
  read : Text → Option (List UInt8)
  shallow : List Text
  oid_of_cachedCommit : ∀ {oid : Text} {entry : CommitCacheEntry},
    cachedCommit oid = some entry → entry.oid = oid

def parentsOf (entry : CommitCacheEntry) : List Text := entry.commit.headersOf.parent

def timestampOf (entry : CommitCacheEntry) : Int := entry.commit.headersOf.committer.timestamp

-- The recursive statement

/-- The parents that `reachable` joins to a commit. -/
def parentsWithin (store : CommitStore) (oid : Text) : List Text :=
  if oid ∈ store.shallow then []
  else
    match store.cachedCommit oid with
    | none => []
    | some entry => parentsOf entry

/-- `reachable`, with its `LIMIT`. -/
def reachable (store : CommitStore) (root : Text) (countCap : Nat) : List Text :=
  RecursiveUnion.rows (parentsWithin store) (countCap + 1) [root] [root]

/-- `MAX_LOG_COMMITS`. -/
def maxLogCommits : Nat := 50000

/-- `COMMIT_GRAPH_WALK_BYTES`. -/
def commitGraphWalkBytes : Nat := 64 * 1024 * 1024

/-- The state a commit is charged for. -/
def graphBytes (entry : CommitCacheEntry) : Int :=
  512 + 2 * min entry.objectSize commitRowMaxBytes + 64 * (parentsOf entry).length

def graphLimitError : GitError :=
  { code := "E2BIG", message := "commit graph exceeds the 50000 commit limit" }

/-- `verdict`. -/
def verdict (store : CommitStore) (rows : List Text) (countCap byteCap : Nat) : Option GitError :=
  let entries := rows.filterMap store.cachedCommit
  if countCap < rows.length then some graphLimitError
  else if entries.length < rows.length then
    some (corrupt "commit graph references a commit without a row")
  else if (byteCap : Int) < (entries.map graphBytes).sum then
    some { code := "E2BIG", message := "commit graph exceeds its fixed state capacity" }
  else none

structure CommitGraphLimits where
  maxCommits : Option Nat
  maxBytes : Option Nat
  deriving DecidableEq

/-- No limits of the caller. -/
def noLimits : CommitGraphLimits := { maxCommits := none, maxBytes := none }

def boundedCountLimit (value : Option Nat) (ceiling : Nat) (name : String) :
    Except GitError Nat :=
  let selected := value.getD ceiling
  if selected < 1 then
    .error { code := "RangeError", message := s!"{name} must be a positive safe integer" }
  else .ok (min selected ceiling)

def requireCommitGraphRoot (repoId : Int) (rootOid : Text) : Except GitError Unit :=
  if !isSafeInteger repoId || repoId < 1 then
    .error (corrupt "commit graph has an invalid repository id")
  else if !isOid rootOid then .error (corrupt "commit graph has an invalid root oid")
  else .ok ()

def readCommitGraphOwned (store : CommitStore) (rootOid : Text) (limits : CommitGraphLimits) :
    Except GitError (List CommitCacheEntry) :=
  (requireCommitGraphRoot store.repoId rootOid).bind fun _ =>
  (boundedCountLimit limits.maxCommits maxLogCommits "commit graph count limit").bind
    fun maxCommits =>
  if limits.maxBytes = some 0 then
    .error { code := "RangeError"
             message := "commit graph byte limit must be a positive safe integer" }
  else
    let maxBytes := min (limits.maxBytes.getD commitGraphWalkBytes) commitGraphWalkBytes
    let rows := reachable store rootOid maxCommits
    match verdict store rows maxCommits maxBytes with
    | some error => .error error
    | none => .ok (rows.filterMap store.cachedCommit)

end Kompjutr.Commits
