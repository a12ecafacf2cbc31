/-
  Kompjutr.Trees.CommitCache

  The row of a parsed commit (`store/trees/commits-cache.ts`) and reading it back
  (`ops/repository/repository-walk.ts`).

  Names, e-mails, the message and the signature are stored as the bytes of their text, and
  each column is decoded on its own when the row is read.  A row that would not fit leaves
  the message and the signature out; they are then read from the object.
-/
import Kompjutr.Common.Json

namespace Kompjutr.Trees

open Objects (Text text shown isOid Person Commit parseCommit validateCommitNumbers)
open Utf8 (encode textDecode)

/-- An object to parse.  An array of the language has a safe length. -/
structure CommitCacheSource where
  repoId : Int
  oid : Text
  data : List UInt8
  length_safe : isSafeInteger data.length = true

/-- The fields every row keeps. -/
structure CommitHeaders where
  tree : Text
  parent : List Text
  author : Person
  committer : Person
  deriving DecidableEq

/-- The commit of an entry, with its message or without it (`messageStored`). -/
inductive CachedCommit where
  | complete (commit : Commit)
  | headers (headers : CommitHeaders)
  deriving DecidableEq

structure CommitCacheEntry where
  repoId : Int
  oid : Text
  objectSize : Int
  commit : CachedCommit
  deriving DecidableEq

def headersOf (commit : Commit) : CommitHeaders :=
  { tree := commit.tree, parent := commit.parent, author := commit.author
    committer := commit.committer }

def CachedCommit.headersOf : CachedCommit → CommitHeaders
  | .complete commit => Trees.headersOf commit
  | .headers kept => kept

def CachedCommit.message : CachedCommit → Option Text
  | .complete commit => some commit.message
  | .headers _ => none

def CachedCommit.gpgsig : CachedCommit → Option Text
  | .complete commit => commit.gpgsig
  | .headers _ => none

-- Preparing an entry

/-- `COMMIT_ROW_MAX_BYTES`. -/
def commitRowMaxBytes : Nat := 2000000

/-- `COMMIT_ROW_UNMEASURED_BYTES`. -/
def commitRowUnmeasuredBytes : Nat := commitRowMaxBytes / 6 - 1024

def nullable (value : Option Text) : Json.Value :=
  match value with
  | some value => .text value
  | none => .null

def serializeCommitCache (entry : CommitCacheEntry) : Text :=
  let headers := entry.commit.headersOf
  Json.stringify [("r", .number entry.repoId), ("o", .text entry.oid),
    ("p", .text (Json.stringifyArray headers.parent)), ("t", .text headers.tree),
    ("an", .text headers.author.name), ("ae", .text headers.author.email),
    ("at", .number headers.author.timestamp), ("az", .number headers.author.timezoneOffset),
    ("cn", .text headers.committer.name), ("ce", .text headers.committer.email),
    ("ct", .number headers.committer.timestamp), ("cz", .number headers.committer.timezoneOffset),
    ("m", nullable entry.commit.message), ("g", nullable entry.commit.gpgsig),
    ("s", .number entry.objectSize)]

section Prepare

-- the object id of a commit with these bytes
variable (hashObject : List UInt8 → Text)

def parseAuthenticatedCommit (source : CommitCacheSource) : Except GitError Commit :=
  if !isSafeInteger source.repoId || source.repoId < 1 then
    .error (corrupt "commit cache source has an invalid repository id")
  else if !isOid source.oid then .error (corrupt "commit cache source has an invalid oid")
  else if hashObject source.data ≠ source.oid then
    .error (corrupt s!"commit cache source {shown source.oid} does not match its bytes")
  else
    (parseCommit source.data).bind fun commit =>
    (validateCommitNumbers commit).map fun _ => commit

/-- An entry of the source with this commit. -/
def entryOf (source : CommitCacheSource) (commit : CachedCommit) : CommitCacheEntry :=
  { repoId := source.repoId, oid := source.oid, objectSize := source.data.length, commit }

/-- The row keeps the message: it is short, or the row was measured and fits. -/
def messageStored (source : CommitCacheSource) (commit : Commit) : Bool :=
  let payloadUnits := commit.message.length + (commit.gpgsig.map List.length).getD 0
  payloadUnits ≤ commitRowMaxBytes &&
    (source.data.length ≤ commitRowUnmeasuredBytes ||
      Json.utf8ByteLength (serializeCommitCache (entryOf source (.complete commit))) ≤
        commitRowMaxBytes)

def prepareCommitCache (source : CommitCacheSource) : Except GitError CommitCacheEntry :=
  (parseAuthenticatedCommit hashObject source).bind fun commit =>
  if messageStored source commit then .ok (entryOf source (.complete commit))
  else
    let headers := entryOf source (.headers (headersOf commit))
    if commitRowMaxBytes < Json.utf8ByteLength (serializeCommitCache headers) then
      .error { code := "E2BIG", message := s!"commit {shown source.oid} headers exceed the storable row size" }
    else .ok headers

end Prepare

-- The row

structure CommitCacheRow where
  parents : Text
  tree : Text
  authorName : List UInt8
  authorEmail : List UInt8
  authorTime : Int
  authorTimezone : Int
  committerName : List UInt8
  committerEmail : List UInt8
  committerTime : Int
  committerTimezone : Int
  message : Option (List UInt8)
  gpgsig : Option (List UInt8)
  objectSize : Int
  deriving DecidableEq

/-- The columns that `COMMIT_ROW_JSON_COLUMNS` projects: `CAST(.. AS BLOB)` of a text is its
    bytes. -/
def storedRow (entry : CommitCacheEntry) : CommitCacheRow :=
  let headers := entry.commit.headersOf
  { parents := Json.stringifyArray headers.parent
    tree := headers.tree
    authorName := encode headers.author.name
    authorEmail := encode headers.author.email
    authorTime := headers.author.timestamp
    authorTimezone := headers.author.timezoneOffset
    committerName := encode headers.committer.name
    committerEmail := encode headers.committer.email
    committerTime := headers.committer.timestamp
    committerTimezone := headers.committer.timezoneOffset
    message := entry.commit.message.map encode
    gpgsig := entry.commit.gpgsig.map encode
    objectSize := entry.objectSize }

/-- The integer columns of `COMMIT_CACHE_ROW`; the other types are those of the columns. -/
def checkRow (row : CommitCacheRow) : Except GitError Unit :=
  [("author time", row.authorTime), ("author timezone", row.authorTimezone),
    ("committer time", row.committerTime), ("committer timezone", row.committerTimezone),
    ("object size", row.objectSize)].forM fun (name, value) =>
      if isSafeInteger value then .ok () else .error (corrupt s!"commit cache has invalid {name}")

def parentsField (value : Text) : Except GitError (List Text) :=
  match Json.parseStringArray value with
  | some parents => .ok parents
  | none => .error (corrupt "commit cache has invalid parents")

def decodeCommitCacheRow (repoId : Int) (oid : Text) (row : CommitCacheRow) :
    Except GitError CommitCacheEntry :=
  (checkRow row).bind fun _ =>
  (parentsField row.parents).map fun parent =>
  let author := { name := textDecode row.authorName, email := textDecode row.authorEmail
                  timestamp := row.authorTime, timezoneOffset := row.authorTimezone }
  let committer := { name := textDecode row.committerName, email := textDecode row.committerEmail
                     timestamp := row.committerTime, timezoneOffset := row.committerTimezone }
  { repoId, oid, objectSize := row.objectSize
    commit :=
      match row.message with
      | none => .headers { tree := row.tree, parent, author, committer }
      | some message =>
        .complete { tree := row.tree, parent, author, committer
                    gpgsig := row.gpgsig.map textDecode, message := textDecode message } }

-- Reading a commit

/-- `completeCommit`, with the objects of the store. -/
def completeCommit (read : Text → Option (List UInt8)) (entry : CommitCacheEntry) :
    Except GitError Commit :=
  match entry.commit with
  | .complete commit => .ok commit
  | .headers headers =>
    match read entry.oid with
    | none => .error { code := "ENOTFOUND", message := s!"object not found: {shown entry.oid}" }
    | some data =>
      (parseCommit data).map fun parsed =>
        { tree := headers.tree, parent := headers.parent, author := headers.author
          committer := headers.committer, gpgsig := parsed.gpgsig, message := parsed.message }

/-- `readCommitOwned`, of a commit that has this row. -/
def readCommitOwned (read : Text → Option (List UInt8)) (repoId : Int) (oid : Text)
    (row : CommitCacheRow) : Except GitError Commit :=
  (decodeCommitCacheRow repoId oid row).bind (completeCommit read)

end Kompjutr.Trees
