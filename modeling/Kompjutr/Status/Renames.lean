/-
  Kompjutr.Status.Renames

  Exact renames (`ops/status/rename-detection.ts`): deleted and added entries with the same
  object are paired, by their basename where that is possible.

  A `Map` is the list of its entries in the order in which they were inserted.
-/
import Kompjutr.Common.Streams

namespace Kompjutr.Status

open Objects (Text text isOid)
open Streams (comparePaths)

/-- `MAX_EXACT_RENAME_CANDIDATES`. -/
def maxExactRenameCandidates : Nat := 10000

structure ExactRenameCandidate where
  path : Text
  mode : Text
  oid : Text
  deriving DecidableEq

structure ExactRename where
  source : ExactRenameCandidate
  destination : ExactRenameCandidate
  similarity : Nat
  deriving DecidableEq

inductive ExactRenameClassification where
  | classified (renames : List ExactRename) (candidateCount : Nat)
  | fallback (candidateCount : Nat)
  deriving DecidableEq

structure RenameBucket where
  sources : List ExactRenameCandidate
  destinations : List ExactRenameCandidate
  deriving DecidableEq

structure BasenameBucket where
  sources : List ExactRenameCandidate
  ordinal : Nat
  deriving DecidableEq

/-- `gitBasename` of `common/paths.ts`. -/
def gitBasename (path : Text) : Text := (path.reverse.takeWhile (· ≠ 0x2f)).reverse

-- Candidates

/-- The loop of `validatePath` looks at every segment and every unit. -/
def validatePath (path : Text) : Except GitError Unit :=
  if (path.splitOn 0x2f).any fun segment =>
      segment = [] || segment = [0x2e] || segment = [0x2e, 0x2e] || segment.contains 0 then
    throw (corrupt "rename candidate path is invalid")
  else pure ()

def modeClass (mode : Text) : Except GitError Text :=
  if mode = text "100644" || mode = text "100755" then pure (text "regular")
  else if mode = text "120000" then pure (text "symlink")
  else throw (corrupt "rename candidate mode is invalid")

def validateCandidate (candidate : ExactRenameCandidate) : Except GitError Unit :=
  validatePath candidate.path >>= fun _ =>
  modeClass candidate.mode >>= fun _ =>
  if !isOid candidate.oid then throw (corrupt "rename candidate object id is invalid") else pure ()

-- Pairing a bucket

/-- The order of both sorts in a bucket. -/
def pathOrder (left right : ExactRenameCandidate) : Bool := comparePaths left.path right.path ≤ 0

def addBasename (byBasename : List (Text × BasenameBucket)) (source : ExactRenameCandidate) :
    List (Text × BasenameBucket) :=
  let basename := gitBasename source.path
  match byBasename.lookup basename with
  | none => byBasename ++ [(basename, { sources := [source], ordinal := 0 })]
  | some _ => byBasename.map fun entry =>
      if entry.1 = basename then (entry.1, { entry.2 with sources := entry.2.sources ++ [source] })
      else entry

/-- Both inner loops: the next source that is not used, and where the search goes on. -/
def nextUnused (used : List Text) (sources : List ExactRenameCandidate) (ordinal : Nat) :
    Option ExactRenameCandidate × Nat :=
  match _h : sources[ordinal]? with
  | none => (none, ordinal)
  | some candidate =>
    if candidate.path ∉ used then (some candidate, ordinal + 1)
    else nextUnused used sources (ordinal + 1)
  termination_by sources.length - ordinal
  decreasing_by
    have := (List.getElem?_eq_some_iff.1 (by assumption)).1
    omega

structure Pairing where
  byBasename : List (Text × BasenameBucket)
  used : List Text
  sourceOrdinal : Nat
  output : List ExactRename

/-- The first inner loop, which leaves its place in the bucket of the basename. -/
def takeMatching (pairing : Pairing) (destination : ExactRenameCandidate) :
    Option ExactRenameCandidate × List (Text × BasenameBucket) :=
  let basename := gitBasename destination.path
  match pairing.byBasename.lookup basename with
  | none => (none, pairing.byBasename)
  | some bucket =>
    let (source, ordinal) := nextUnused pairing.used bucket.sources bucket.ordinal
    (source, pairing.byBasename.map fun entry =>
      if entry.1 = basename then (entry.1, { entry.2 with ordinal }) else entry)

/-- The second inner loop, for what the first has not found. -/
def takeAny (pairing : Pairing) (sources : List ExactRenameCandidate)
    (matched : Option ExactRenameCandidate) : Option ExactRenameCandidate × Nat :=
  match matched with
  | some source => (some source, pairing.sourceOrdinal)
  | none => nextUnused pairing.used sources pairing.sourceOrdinal

/-- The loop over the destinations; it stops where no source is left. -/
def pairLoop (sources : List ExactRenameCandidate) :
    List ExactRenameCandidate → Pairing → List ExactRename
  | [], pairing => pairing.output
  | destination :: destinations, pairing =>
    let (matched, byBasename) := takeMatching pairing destination
    let (found, sourceOrdinal) := takeAny pairing sources matched
    match found with
    | none => pairing.output
    | some source =>
      pairLoop sources destinations
        { byBasename, sourceOrdinal
          used := source.path :: pairing.used
          output := pairing.output ++ [{ source, destination, similarity := 100 }] }

/-- What `pairBucket` adds to its output. -/
def pairBucket (bucket : RenameBucket) : List ExactRename :=
  let sources := bucket.sources.mergeSort pathOrder
  let destinations := bucket.destinations.mergeSort pathOrder
  pairLoop sources destinations
    { byBasename := sources.foldl addBasename [], used := [], sourceOrdinal := 0, output := [] }

-- The classifier

inductive Side where
  | source | destination
  deriving DecidableEq

structure ExactRenameClassifier where
  maxCandidates : Nat
  buckets : List (Text × RenameBucket)
  candidateCount : Nat
  fallback : Bool
  deriving DecidableEq

def boundedCandidateLimit (value : Option Nat) : Except GitError Nat :=
  match value with
  | none => pure maxExactRenameCandidates
  | some value =>
    if !isSafeInteger value || value < 1 || value > maxExactRenameCandidates then
      throw { code := "RangeError", message := "invalid exact-rename candidate limit" }
    else pure value

def RenameBucket.push (bucket : RenameBucket) (side : Side) (candidate : ExactRenameCandidate) :
    RenameBucket :=
  match side with
  | .source => { bucket with sources := bucket.sources ++ [candidate] }
  | .destination => { bucket with destinations := bucket.destinations ++ [candidate] }

namespace ExactRenameClassifier

/-- The constructor; `limit` is `limits?.maxCandidates`. -/
def create (limit : Option Nat) : Except GitError ExactRenameClassifier :=
  boundedCandidateLimit limit >>= fun maxCandidates =>
  pure { maxCandidates, buckets := [], candidateCount := 0, fallback := false }

/-- A candidate goes to the bucket of its key. -/
def addToBucket (buckets : List (Text × RenameBucket)) (key : Text) (side : Side)
    (candidate : ExactRenameCandidate) : List (Text × RenameBucket) :=
  match buckets.lookup key with
  | none => buckets ++ [(key, RenameBucket.push ⟨[], []⟩ side candidate)]
  | some _ => buckets.map fun entry =>
      if entry.1 = key then (entry.1, entry.2.push side candidate) else entry

/-- `#retain`; the flag says that the candidate is retained. -/
def retain (classifier : ExactRenameClassifier) (side : Side) (candidate : ExactRenameCandidate) :
    Except GitError (Bool × ExactRenameClassifier) :=
  if classifier.fallback then pure (false, classifier)
  else
    validateCandidate candidate >>= fun _ =>
    let classifier := { classifier with candidateCount := classifier.candidateCount + 1 }
    if classifier.candidateCount > classifier.maxCandidates then
      pure (false, { classifier with fallback := true })
    else
      modeClass candidate.mode >>= fun modeName =>
      let key := candidate.oid ++ text ":" ++ modeName
      pure (true, { classifier with
        buckets := addToBucket classifier.buckets key side candidate })

def addSource (classifier : ExactRenameClassifier) (candidate : ExactRenameCandidate) :
    Except GitError (Bool × ExactRenameClassifier) := classifier.retain .source candidate

def addDestination (classifier : ExactRenameClassifier) (candidate : ExactRenameCandidate) :
    Except GitError (Bool × ExactRenameClassifier) := classifier.retain .destination candidate

def finish (classifier : ExactRenameClassifier) : ExactRenameClassification :=
  if classifier.fallback then .fallback classifier.candidateCount
  else
    .classified
      ((classifier.buckets.flatMap fun entry => pairBucket entry.2).mergeSort
        fun left right => comparePaths left.destination.path right.destination.path ≤ 0)
      classifier.candidateCount

end ExactRenameClassifier

/-- A call of `addSource` or `addDestination`. -/
structure Insertion where
  side : Side
  candidate : ExactRenameCandidate
  deriving DecidableEq

def Insertion.apply (classifier : ExactRenameClassifier) (insertion : Insertion) :
    Except GitError ExactRenameClassifier :=
  (match insertion.side with
    | .source => classifier.addSource insertion.candidate
    | .destination => classifier.addDestination insertion.candidate) >>= fun answer =>
  pure answer.2

/-- A new classifier, every insertion and `finish`. -/
def classify (limit : Option Nat) (insertions : List Insertion) :
    Except GitError ExactRenameClassification :=
  ExactRenameClassifier.create limit >>= fun classifier =>
  insertions.foldlM Insertion.apply classifier >>= fun classifier =>
  pure classifier.finish

end Kompjutr.Status
