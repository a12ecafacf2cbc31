/-
  Kompjutr.Ops.Commit

  Recording a commit (`ops/repository/commit.ts`) and writing a detached one
  (`ops/repository/plumbing-commit-tree.ts`).

  An operation gives the fields it recorded and the bytes it wrote for them.  The
  tree of the index, the objects of the store and the revision parser are what the
  repository hands out; of the ref update that follows, only its check of the
  committer is here.
-/
import Kompjutr.Objects.Serialize
import Kompjutr.Refs.Log

namespace Kompjutr.Ops

open Objects (Text text shown isOid isDigit trim ObjectType Person Commit parseCommit serializeCommit
  acceptCommit)
open Refs (RefLogMetadata validateRefLogMetadata unitBytes)
open Utf8 (isHigh isLow)

structure GitIdentity where
  name : Text
  email : Text
  deriving DecidableEq

structure GitContext where
  /-- Milliseconds. -/
  now : Int
  timezoneOffset : Int
  defaultIdentity : Option GitIdentity

structure ResolvedHead where
  ref : Option Text
  oid : Option Text
  deriving DecidableEq

/-- What the operations read.  Every object is stored under an object id, and the tree of
the index is one. -/
structure Repository where
  hasConflicts : Bool
  head : ResolvedHead
  object : Text → Option (ObjectType × List UInt8)
  configGet : String → Option Text
  indexTree : Except GitError Text
  revParse : Text → Except GitError Text
  isOid_of_object : ∀ {oid : Text} {found : ObjectType × List UInt8},
    object oid = some found → isOid oid = true
  isOid_of_indexTree : ∀ {tree : Text}, indexTree = .ok tree → isOid tree = true

structure CommitOptions where
  message : Text
  author : Option GitIdentity
  committer : Option GitIdentity
  amend : Bool
  allowEmpty : Bool
  env : List (String × Text)

structure CommitIdentities where
  author : Person
  committer : Person
  deriving DecidableEq

structure IndexedCommitOptions where
  message : Text
  parent : List Text
  identities : CommitIdentities
  expectedHead : ResolvedHead
  refLogReason : Text

def gitError (code message : String) : GitError := { code, message }

def objectNotFound (oid : Text) : GitError := gitError "ENOTFOUND" s!"object not found: {shown oid}"

def typeName : ObjectType → String
  | .commit => "commit"
  | .tree => "tree"
  | .blob => "blob"
  | .tag => "tag"

-- Identities

/-- A source only wins when it supplies both halves of an identity. -/
def identityOf (name email : Option Text) : Option GitIdentity :=
  match name, email with
  | some name, some email => if name = [] || email = [] then none else some { name, email }
  | _, _ => none

structure IdentitySources where
  authorBeforeConfig : Option GitIdentity
  committerBeforeConfig : Option GitIdentity
  fallback : Option GitIdentity

def identitySources (context : GitContext) (author committer : Option GitIdentity)
    (env : List (String × Text)) (amended : Option Commit) : IdentitySources :=
  let explicitAuthor := identityOf (author.map (·.name)) (author.map (·.email))
  let amendedAuthor :=
    identityOf (amended.map (·.author.name)) (amended.map (·.author.email))
  let environmentAuthor := identityOf (env.lookup "GIT_AUTHOR_NAME") (env.lookup "GIT_AUTHOR_EMAIL")
  let explicitCommitter := identityOf (committer.map (·.name)) (committer.map (·.email))
  let environmentCommitter := identityOf
    (env.lookup "GIT_COMMITTER_NAME" <|> env.lookup "GIT_AUTHOR_NAME")
    (env.lookup "GIT_COMMITTER_EMAIL" <|> env.lookup "GIT_AUTHOR_EMAIL")
  { authorBeforeConfig := explicitAuthor <|> amendedAuthor <|> environmentAuthor
    committerBeforeConfig := explicitCommitter <|> environmentCommitter
    fallback := identityOf (context.defaultIdentity.map (·.name))
      (context.defaultIdentity.map (·.email)) }

def missingIdentityError : GitError := gitError "EIDENTITY"
  "author identity unknown. Pass author, set GIT_AUTHOR_NAME / GIT_AUTHOR_EMAIL, or configure defaultIdentity on the GitClient."

/-- The clock in seconds; the offset is taken as it is. -/
def stampPerson (context : GitContext) (identity : GitIdentity) : Person :=
  { name := identity.name, email := identity.email, timestamp := context.now / 1000
    timezoneOffset := context.timezoneOffset }

def completeIdentity (context : GitContext) (amended : Option Commit) (sources : IdentitySources)
    (config : Option GitIdentity) : Except GitError CommitIdentities :=
  match sources.authorBeforeConfig <|> config <|> sources.fallback with
  | none => throw missingIdentityError
  | some author =>
    let committer :=
      (sources.committerBeforeConfig <|> config <|> sources.fallback).getD author
    let fresh := stampPerson context author
    pure
      { author := match amended with
          | some commit => { fresh with timestamp := commit.author.timestamp
                                        timezoneOffset := commit.author.timezoneOffset }
          | none => fresh
        committer := stampPerson context committer }

def resolveIdentity (context : GitContext) (repo : Repository) (author committer : Option GitIdentity)
    (env : List (String × Text)) (amended : Option Commit) : Except GitError CommitIdentities :=
  completeIdentity context amended (identitySources context author committer env amended)
    (identityOf (repo.configGet "user.name") (repo.configGet "user.email"))

-- Messages

def validatePublishedMessage (message : Text) : Except GitError Unit :=
  reject (trim message = []) (gitError "EMSG" "commit message is required")

/-- git's message cleanup: no CRs, no surrounding blank lines, exactly one trailing newline. -/
def cleanMessage (message : Text) : Text :=
  let message := (message.filter (· ≠ 0x0d)).dropWhile (· = 0x0a)
  (message.reverse.dropWhile (· = 0x0a)).reverse ++ [0x0a]

-- Writing

def maxObjectBytes : Nat := 48 * 1024 * 1024

/-- `batch.write("commit", data)`: the size limit and the checks of the commit row. -/
def writeCommit (data : List UInt8) : Except GitError Unit := do
  reject (maxObjectBytes < data.length) (gitError "E2BIG"
    s!"commit object of {data.length} bytes exceeds the {maxObjectBytes}-byte object limit")
  let _ ← acceptCommit data

def writeSerializedCommit (tree : Text) (parent : List Text) (identities : CommitIdentities)
    (message : Text) : Except GitError (Commit × List UInt8) := do
  let commit : Commit :=
    { tree, parent, author := identities.author, committer := identities.committer
      gpgsig := none, message }
  writeCommit (serializeCommit commit)
  return (commit, serializeCommit commit)

/-- `readAuthenticatedCommitOwned`. -/
def readCommit (repo : Repository) (oid : Text) : Except GitError Commit :=
  match repo.object oid with
  | none => throw (objectNotFound oid)
  | some (.commit, data) => parseCommit data
  | some (type, _) => throw (corrupt s!"{shown oid} is a {typeName type}, not a commit")

-- `commit` and `commitIndex`

def emptyTreeOid : Text := text "4b825dc642cb6eb9a060e54bf8d69288fbee4904"

def readAmended (repo : Repository) : Except GitError Commit :=
  match repo.head.oid with
  | none => throw (gitError "ENOCOMMIT" "cannot amend: HEAD does not point at a commit yet")
  | some oid => readCommit repo oid

/-- The commit that `amend` replaces. -/
def amendedCommit (repo : Repository) (amend : Bool) : Except GitError (Option Commit) :=
  if amend then some <$> readAmended repo else pure none

/-- The tree HEAD records, where HEAD is a commit. -/
def headTree (repo : Repository) (amended : Option Commit) : Except GitError (Option Text) :=
  match amended, repo.head.oid with
  | some commit, _ => pure (some commit.tree)
  | none, none => pure none
  | none, some oid => (fun commit => some commit.tree) <$> readCommit repo oid

def committerRefLogMetadata (committer : Person) (reason : Text) : RefLogMetadata :=
  { actor := some { name := committer.name, email := committer.email }
    timestamp := committer.timestamp
    timezoneOffset := committer.timezoneOffset
    reason }

def commitReason (repo : Repository) (amend : Bool) : Text :=
  if amend then text "commit (amend)"
  else if repo.head.oid = none then text "commit (initial)" else text "commit"

def commit (context : GitContext) (repo : Repository) (options : CommitOptions) :
    Except GitError (Commit × List UInt8) := do
  validatePublishedMessage options.message
  reject repo.hasConflicts (gitError "EUNMERGED" "cannot commit: the index has unmerged paths")
  let amended ← amendedCommit repo options.amend
  let parent := match amended with
    | some commit => commit.parent
    | none => repo.head.oid.toList
  let tree ← headTree repo amended
  let identities ←
    resolveIdentity context repo options.author options.committer options.env amended
  let indexTree ← repo.indexTree
  let written ← writeSerializedCommit indexTree parent identities (cleanMessage options.message)
  reject (amended = none && !options.allowEmpty && indexTree = tree.getD emptyTreeOid)
    (gitError "EEMPTYCOMMIT" "cannot commit: the index tree is unchanged")
  let _ ← validateRefLogMetadata
    (committerRefLogMetadata identities.committer (commitReason repo options.amend))
  return written

def commitIndex (repo : Repository) (options : IndexedCommitOptions) :
    Except GitError (Commit × List UInt8) := do
  validatePublishedMessage options.message
  reject (repo.head ≠ options.expectedHead)
    (gitError "ESTALEHEAD" "HEAD changed while the commit was being prepared")
  let _ ← headTree repo none
  let indexTree ← repo.indexTree
  let written ←
    writeSerializedCommit indexTree options.parent options.identities (cleanMessage options.message)
  let _ ← validateRefLogMetadata
    (committerRefLogMetadata options.identities.committer options.refLogReason)
  return written

-- `commitTree`

def maxCommitTreeParents : Nat := 2

def maxCommitTreeRevisionTraversals : Nat := 8

structure CommitTreeOptions where
  tree : Text
  message : Text
  parent : List Text
  author : Option GitIdentity
  committer : Option GitIdentity
  env : List (String × Text)

def inputOverflows : GitError := gitError "E2BIG" "commit-tree input overflows"

def noncanonical (label : String) : GitError :=
  gitError "EINVAL" s!"commit-tree {label} is not canonical UTF-16"

/-- The loop of `commitTreeTextBytes` from one index on. -/
def commitTreeTextBytesFrom (label : String) (forbidden : UInt16 → Bool) (bytes : Nat) :
    Text → Except GitError Nat
  | [] => .ok bytes
  | unit :: rest =>
    if forbidden unit then
      .error (gitError "EINVAL" s!"commit-tree {label} contains an invalid character")
    else if isHigh unit then
      match rest with
      -- past the end `charCodeAt` gives NaN, and neither comparison holds of it
      | [] => if !isSafeInteger (bytes + 4 : Nat) then .error inputOverflows else .ok (bytes + 4)
      | low :: rest =>
        if !isLow low then .error (noncanonical label)
        else if !isSafeInteger (bytes + 4 : Nat) then .error inputOverflows
        else commitTreeTextBytesFrom label forbidden (bytes + 4) rest
    else if isLow unit then .error (noncanonical label)
    else if !isSafeInteger (bytes + unitBytes unit : Nat) then .error inputOverflows
    else commitTreeTextBytesFrom label forbidden (bytes + unitBytes unit) rest

def commitTreeTextBytes (value : Text) (label : String) (forbidden : UInt16 → Bool) :
    Except GitError Nat :=
  commitTreeTextBytesFrom label forbidden 0 value

def requireCommitTreeInputBytes (left right : Nat) : Except GitError Nat := do
  reject (!isSafeInteger left || !isSafeInteger right)
    (gitError "E2BIG" "commit-tree input byte accounting overflow")
  reject (!isSafeInteger (left + right : Nat)) inputOverflows
  return left + right

def isTraversal (unit : UInt16) : Bool := unit = 0x5e || unit = 0x7e

/-- The digits after an operator; the value stops growing above the limit. -/
def traversalValue (digits : Text) : Nat :=
  digits.foldl (fun value digit =>
    if value ≤ maxCommitTreeRevisionTraversals then value * 10 + (digit.toNat - 0x30) else value) 0

/-- The loop over the operators; each turn consumes one, so the length is fuel enough. -/
def countTraversals (traversals : Nat) : Nat → Text → Nat
  | 0, _ => traversals
  | _ + 1, [] => traversals
  | fuel + 1, operator :: rest =>
    if !isTraversal operator then traversals
    else
      let digits := rest.takeWhile isDigit
      let count :=
        if operator = 0x5e then 1 else if digits = [] then 1 else traversalValue digits
      if maxCommitTreeRevisionTraversals < traversals + count then traversals + count
      else countTraversals (traversals + count) fuel (rest.dropWhile isDigit)

def commitTreeRevisionTraversals (expression : Text) : Nat :=
  let operators := expression.dropWhile (!isTraversal ·)
  countTraversals 0 operators.length operators

def tooManyTraversals : GitError := gitError "E2BIG"
  s!"commit-tree revisions exceed {maxCommitTreeRevisionTraversals} traversal operations"

/-- One parent revision of `checkCommitTreeInput`: the bytes and traversals so far. -/
def checkParentRevision (state : Nat × Nat) (candidate : Text) : Except GitError (Nat × Nat) := do
  reject (candidate = [])
    (gitError "EINVAL" "commit-tree parent revisions must be non-empty strings")
  let candidateBytes ← commitTreeTextBytes candidate "parent revision" fun _ => false
  let bytes ← requireCommitTreeInputBytes state.1 candidateBytes
  let traversals := state.2 + commitTreeRevisionTraversals candidate
  reject (maxCommitTreeRevisionTraversals < traversals) tooManyTraversals
  return (bytes, traversals)

/-- The bytes of an accepted input. -/
def checkCommitTreeInput (options : CommitTreeOptions) : Except GitError Nat := do
  reject (options.tree = []) (gitError "EINVAL" "commit-tree requires a tree revision")
  reject (maxCommitTreeParents < options.parent.length)
    (gitError "E2BIG" s!"commit-tree exceeds {maxCommitTreeParents} parent revisions")
  let treeBytes ← commitTreeTextBytes options.tree "tree revision" fun _ => false
  let messageBytes ← commitTreeTextBytes options.message "message" fun _ => false
  let bytes ← requireCommitTreeInputBytes treeBytes messageBytes
  let (bytes, traversals) ← options.parent.foldlM checkParentRevision
    (bytes, commitTreeRevisionTraversals options.tree)
  reject (maxCommitTreeRevisionTraversals < traversals) tooManyTraversals
  return bytes

/-- The units an identity may not have. -/
def isForbidden (unit : UInt16) : Bool :=
  unit = 0 || unit = 0x0a || unit = 0x0d || unit = 0x3c || unit = 0x3e

def validateIdentityText (value : Text) (label : String) : Except GitError Nat :=
  commitTreeTextBytes value label isForbidden

def validateCommitPerson (person : Person) (label : String) : Except GitError Nat := do
  let name ← validateIdentityText person.name s!"{label} name"
  let email ← validateIdentityText person.email s!"{label} email"
  reject (name = 0 || email = 0)
    (gitError "EINVAL" s!"commit-tree {label} identity is incomplete")
  reject (!isSafeInteger person.timestamp || person.timestamp < 0)
    (gitError "EINVAL" s!"commit-tree {label} timestamp is invalid")
  reject (!isSafeInteger person.timezoneOffset || person.timezoneOffset < -24 * 60 ||
      24 * 60 < person.timezoneOffset)
    (gitError "EINVAL" s!"commit-tree {label} timezone is invalid")
  requireCommitTreeInputBytes name email

def validateCommitIdentities (identities : CommitIdentities) : Except GitError Nat := do
  let author ← validateCommitPerson identities.author "author"
  let committer ← validateCommitPerson identities.committer "committer"
  requireCommitTreeInputBytes author committer

def authenticateCommitTreeObject (repo : Repository) (oid : Text) (expectedType : ObjectType) :
    Except GitError Unit := do
  match repo.object oid with
  | none => throw (objectNotFound oid)
  | some (type, _) =>
    if type ≠ expectedType then
      throw (corrupt s!"{shown oid} is a {typeName type}, not a {typeName expectedType}")
    else if expectedType = .commit then
      let _ ← readCommit repo oid
    else pure ()

/-- One parent: a revision that was seen before is skipped. -/
def resolveParent (repo : Repository) (parent : List Text) (expression : Text) :
    Except GitError (List Text) := do
  let oid ← repo.revParse expression
  if parent.contains oid then return parent
  else
    authenticateCommitTreeObject repo oid .commit
    return parent ++ [oid]

def commitTree (context : GitContext) (repo : Repository) (options : CommitTreeOptions) :
    Except GitError (Commit × List UInt8) := do
  let bytes ← checkCommitTreeInput options
  let tree ← repo.revParse options.tree
  authenticateCommitTreeObject repo tree .tree
  let parent ← options.parent.foldlM (resolveParent repo) []
  let identities ← resolveIdentity context repo options.author options.committer options.env none
  let identityBytes ← validateCommitIdentities identities
  let _ ← requireCommitTreeInputBytes bytes identityBytes
  writeSerializedCommit tree parent identities options.message

end Kompjutr.Ops
