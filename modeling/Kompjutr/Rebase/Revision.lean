/-
  Kompjutr.Rebase.Revision

  Bounded revisions (`ops/replay/replay-revision.ts`): a name, and then parents and ancestors
  of the commit it names.

  What the store answers is taken as it is: `readAuthenticated` gives the data of an object
  whose size and hash are those of its id, or the error of `readReplayCommit` and `peelCommit`.
-/
import Kompjutr.Lib.Utf8Fatal
import Kompjutr.Merge.Base

namespace Kompjutr.Rebase

open Objects (Text text shown isOid isDigit trim indexOf ObjectType Commit)

structure Repository extends Merge.Repository where
  resolveRef : Text → Except GitError (Option Text)
  has : Text → Bool
  resolvePrefix : Text → Except GitError (Option Text)
  readAuthenticated : Text → ObjectType → Except GitError (List UInt8)

/-- `MAX_REPLAY_REVISION_CODE_UNITS`. -/
def maxRevisionCodeUnits : Nat := 1024

/-- `MAX_REPLAY_REVISION_HOPS`. -/
def maxRevisionHops : Nat := 32

/-- `MAX_REPLAY_TAG_HOPS`. -/
def maxTagHops : Nat := 16

structure RevisionLabels where
  input : String
  operation : String
  deriving DecidableEq

def refNotFound (ref : Text) : GitError :=
  { code := "ENOTFOUND", message := s!"unknown revision: {shown ref}" }

def objectNotFound (oid : Text) : GitError :=
  { code := "ENOTFOUND", message := s!"object not found: {shown oid}" }

def requireBoundedRevision (value : Text) (labels : RevisionLabels) : Except GitError Text :=
  if trim value = [] then
    throw { code := "EINVAL", message := s!"{labels.input} revision is required" }
  else if value.length > maxRevisionCodeUnits then
    throw { code := "E2BIG"
            message := s!"{labels.input} revision exceeds {maxRevisionCodeUnits} code units" }
  else pure value

-- Commits and tags

def parseReplayCommit (data : List UInt8) : Except GitError Commit :=
  match Utf8.textDecodeFatal data with
  | none =>
    throw { code := "EUNSUPPORTED", message := "replay does not support non-UTF-8 commit objects" }
  | some decoded =>
    let head :=
      match indexOf [0x0a, 0x0a] decoded with
      | none => decoded
      | some blank => decoded.take blank
    if (head.splitOn 0x0a).any fun line => (text "encoding ").isPrefixOf line then
      throw { code := "EUNSUPPORTED"
              message := "replay does not support commit encoding headers" }
    else Objects.parseCommitText decoded

def readReplayCommit (repo : Repository) (oid : Text) : Except GitError Commit :=
  match repo.store.typeOf oid with
  | none => throw (objectNotFound oid)
  | some .commit => repo.readAuthenticated oid .commit >>= parseReplayCommit
  | some type => throw (corrupt s!"{shown oid} is a {Commits.typeName type}, not a commit")

/-- The loop of `peelCommit`, with the tags it has seen and the hops that are left. -/
def peelFrom (repo : Repository) (start : Text) (seen : List Text) : Nat → Text → Except GitError Text
  | hops, oid =>
    if oid ∈ seen then throw (corrupt s!"tag chain from {shown start} contains a cycle")
    else
      match repo.store.typeOf oid with
      | none => throw (objectNotFound oid)
      | some .tag =>
        repo.readAuthenticated oid .tag >>= fun data =>
        match hops with
        | 0 => throw { code := "E2BIG", message := s!"tag chain exceeds {maxTagHops} hops" }
        | hops + 1 =>
          Objects.parseTag data >>= fun tag => peelFrom repo start (oid :: seen) hops tag.object
      | some _ => pure oid

def peelCommit (repo : Repository) (start : Text) : Except GitError Text :=
  peelFrom repo start [] maxTagHops start

-- Revisions

/-- `/^[0-9a-f]{4,40}$/`. -/
def isAbbreviatedOid (value : Text) : Bool :=
  4 ≤ value.length && value.length ≤ 40 &&
    value.all fun unit => isDigit unit || (0x61 ≤ unit && unit ≤ 0x66)

def resolveBase (repo : Repository) (base : Text) : Except GitError Text := do
  if base = [] then throw (refNotFound base)
  if let some oid ← repo.resolveRef base then return oid
  if isOid base && repo.has base then return base
  if isAbbreviatedOid base then
    if let some oid ← repo.resolvePrefix base then return oid
  throw (refNotFound base)

/-- One digit of `revisionOrdinal`. -/
def ordinalDigit (operation : String) (value : Nat) (unit : UInt16) : Except GitError Nat :=
  let digit := unit.toNat - 0x30
  if value > (maxSafeInteger.toNat - digit) / 10 then
    throw { code := "E2BIG"
            message := s!"{operation} revision ordinal exceeds the safe integer range" }
  else pure (value * 10 + digit)

def revisionOrdinal (digits : Text) (operation : String) : Except GitError Nat :=
  if digits = [] then pure 1 else digits.foldlM (ordinalDigit operation) 0

structure RevisionTraversal where
  hops : Nat
  commits : List Text
  deriving DecidableEq

def tooManyHops (labels : RevisionLabels) : GitError :=
  { code := "E2BIG"
    message := s!"{labels.operation} revision exceeds {maxRevisionHops} parent hops" }

def parent (repo : Repository) (which : Nat) (expression : Text) (labels : RevisionLabels)
    (at_ : Text × RevisionTraversal) : Except GitError (Text × RevisionTraversal) := do
  let (oid, traversal) := at_
  if traversal.hops ≥ maxRevisionHops then throw (tooManyHops labels)
  let commitOid ← peelCommit repo oid
  let commits := commitOid :: traversal.commits
  let commit ← readReplayCommit repo commitOid
  match commit.parent[which - 1]? with
  | none => throw (refNotFound expression)
  | some next =>
    if next ∈ commits then
      throw (corrupt s!"revision {shown expression} traverses a commit cycle")
    return (next, { hops := traversal.hops + 1, commits := next :: commits })

/-- The first parent, so many times. -/
def ancestors (repo : Repository) (expression : Text) (labels : RevisionLabels) :
    Nat → Text × RevisionTraversal → Except GitError (Text × RevisionTraversal)
  | 0, at_ => pure at_
  | hops + 1, at_ =>
    parent repo 1 expression labels at_ >>= fun next =>
      ancestors repo expression labels hops next

/-- One operator of the suffix with its digits. -/
def applyOperator (repo : Repository) (expression : Text) (labels : RevisionLabels)
    (operator : UInt16) (digits : Text) (at_ : Text × RevisionTraversal) :
    Except GitError (Text × RevisionTraversal) := do
  let ordinal ← revisionOrdinal digits labels.operation
  if operator = 0x5e then
    if ordinal = 0 then
      let oid ← peelCommit repo at_.1
      return (oid, at_.2)
    else parent repo ordinal expression labels at_
  else if ordinal > maxRevisionHops - at_.2.hops then throw (tooManyHops labels)
  else ancestors repo expression labels ordinal at_

def isOperator (unit : UInt16) : Bool := unit = 0x5e || unit = 0x7e

def suffixLoop (repo : Repository) (expression : Text) (labels : RevisionLabels)
    (at_ : Text × RevisionTraversal) : Text → Except GitError (Text × RevisionTraversal)
  | [] => pure at_
  | operator :: rest =>
    if !isOperator operator then throw (refNotFound expression)
    else
      applyOperator repo expression labels operator (rest.takeWhile isDigit) at_ >>= fun next =>
        suffixLoop repo expression labels next (rest.dropWhile isDigit)
  termination_by suffix => suffix.length
  decreasing_by exact Nat.lt_succ_of_le (List.dropWhile_sublist _).length_le

def resolveRevision (repo : Repository) (expression : Text) (labels : RevisionLabels) :
    Except GitError Text := do
  let trimmed := trim expression
  if trimmed = [] then throw (refNotFound expression)
  let oid ← resolveBase repo (trimmed.takeWhile fun unit => !isOperator unit)
  let (oid, _) ← suffixLoop repo expression labels (oid, { hops := 0, commits := [] })
    (trimmed.dropWhile fun unit => !isOperator unit)
  peelCommit repo oid

def resolveBoundedCommitRevision (repo : Repository) (value : Text) (labels : RevisionLabels) :
    Except GitError Text :=
  requireBoundedRevision value labels >>= fun expression => resolveRevision repo expression labels

end Kompjutr.Rebase
