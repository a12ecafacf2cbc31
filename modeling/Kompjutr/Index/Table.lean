/-
  Kompjutr.Index.Table

  The index table (`store/indexes/index-table-store.ts`) with its buffered writes
  (`index-table-helpers.ts`).

  Puts and removes are collected and written a batch at a time.  A batch is two
  statements: one deletes every path that it removes, the other inserts for each path
  and stage the put that comes last, when no remove of the path comes after it.

  The rows of `git_index` have their checkout as owner, those of
  `git_scratch_index_entries` their repository and name.
-/
import Kompjutr.Common.Json

namespace Kompjutr.Index

open Objects (Text text)

structure IndexEntry where
  path : Text
  stage : Nat
  mode : Nat
  oid : Text
  size : Option Nat
  mtime : Option Nat
  ino : Option Nat
  rev : Option Nat
  deriving DecidableEq

/-- What is put or removed: an entry, or every stage of a path. -/
inductive Mutation where
  | put (entry : IndexEntry)
  | remove (path : Text)
  deriving DecidableEq

def Mutation.path : Mutation → Text
  | .put entry => entry.path
  | .remove path => path

def Mutation.isPut : Mutation → Bool
  | .put _ => true
  | .remove _ => false

/-- The columns of a row beside its key. -/
structure Columns where
  mode : Nat
  oid : Text
  size : Option Nat
  mtime : Option Nat
  ino : Option Nat
  rev : Option Nat
  deriving DecidableEq

def IndexEntry.columns (entry : IndexEntry) : Columns :=
  { mode := entry.mode, oid := entry.oid, size := entry.size, mtime := entry.mtime
    ino := entry.ino, rev := entry.rev }

/-- The table: a row for an owner, a path and a stage. -/
abbrev Rows (Owner : Type) := Owner → Text → Nat → Option Columns

-- Serialized mutations

/-- A mutation with the JSON that the statements read it from. -/
structure BufferedIndexMutation where
  item : Mutation
  json : Text
  bytes : Nat
  deriving DecidableEq

def nullable (value : Option Nat) : Json.Value :=
  match value with
  | some value => .number value
  | none => .null

def mutationJson (item : Mutation) (sequence : Nat) : Text :=
  match item with
  | .remove path =>
    Json.stringify [("q", .number sequence), ("k", .text (text "r")), ("p", .text path)]
  | .put entry =>
    Json.stringify [("q", .number sequence), ("k", .text (text "p")), ("p", .text entry.path),
      ("g", .number entry.stage), ("m", .number entry.mode), ("o", .text entry.oid),
      ("s", nullable entry.size), ("t", nullable entry.mtime), ("i", nullable entry.ino),
      ("r", nullable entry.rev)]

def serializeIndexMutation (item : Mutation) (sequence : Nat) : BufferedIndexMutation :=
  let json := mutationJson item sequence
  { item, json, bytes := Json.utf8ByteLength json }

-- The statements

section Statements

variable {Owner : Type} [DecidableEq Owner]

/-- `INSERT .. ON CONFLICT DO UPDATE` of one row. -/
def upsert (owner : Owner) (rows : Rows Owner) (entry : IndexEntry) : Rows Owner :=
  fun other path stage =>
    if other = owner ∧ path = entry.path ∧ stage = entry.stage then some entry.columns
    else rows other path stage

/-- `DELETE .. WHERE path IN (..)`. -/
def deletePaths (owner : Owner) (rows : Rows Owner) (paths : List Text) : Rows Owner :=
  fun other path stage => if other = owner ∧ path ∈ paths then none else rows other path stage

/-- `#clearRows`. -/
def clearRows (owner : Owner) (rows : Rows Owner) : Rows Owner :=
  fun other path stage => if other = owner then none else rows other path stage

/-- The paths that a batch removes. -/
def removedPaths (items : List Mutation) : List Text :=
  (items.filter (!·.isPut)).map Mutation.path

/-- `max(CASE WHEN .. THEN q ELSE -1 END)` over the rows that `partition` takes. -/
def windowMax (partition : Mutation → Bool) (rows : List (Mutation × Nat)) : Int :=
  rows.foldl (fun last row => if partition row.1 then max last row.2 else last) (-1)

/-- The window of `last_remove`. -/
def removesPath (path : Text) : Mutation → Bool
  | .remove other => other = path
  | .put _ => false

/-- The window of `last_put`. -/
def putsKey (path : Text) (stage : Nat) : Mutation → Bool
  | .put entry => entry.path = path && entry.stage = stage
  | .remove _ => false

/-- The rows that the ranked statement inserts, in the order of `q`. -/
def rankedPuts (items : List Mutation) : List IndexEntry :=
  let rows := items.zipIdx
  rows.filterMap fun row =>
    match row.1 with
    | .remove _ => none
    | .put entry =>
      if (row.2 : Int) = windowMax (putsKey entry.path entry.stage) rows &&
          windowMax (removesPath entry.path) rows < row.2 then some entry
      else none

/-- `#applyIndexMutations`. -/
def applyIndexMutations (owner : Owner) (rows : Rows Owner)
    (pending : List BufferedIndexMutation) : Rows Owner :=
  let items := pending.map (·.item)
  let rows := if items.any (!·.isPut) then deletePaths owner rows (removedPaths items) else rows
  if !items.any Mutation.isPut then rows
  else (rankedPuts items).foldl (upsert owner) rows

end Statements

-- The buffer

structure IndexMutationBuffer where
  pending : List BufferedIndexMutation
  bytes : Nat
  deriving DecidableEq

def emptyBuffer : IndexMutationBuffer := { pending := [], bytes := 2 }

section Buffer

variable {σ : Type} (apply : σ → List BufferedIndexMutation → σ)

/-- `flush`, with what `apply` changes. -/
def flush (state : IndexMutationBuffer × σ) : IndexMutationBuffer × σ :=
  if state.1.pending.length = 0 then state else (emptyBuffer, apply state.2 state.1.pending)

/-- `add`.  `flushEvery` is a count, or none for a number that no count reaches; `limit` is
    `INDEX_MUTATION_JSON_FLUSH_BYTES`. -/
def add (flushEvery : Option Nat) (limit : Nat) (state : IndexMutationBuffer × σ)
    (item : Mutation) : IndexMutationBuffer × σ :=
  let mutation := serializeIndexMutation item state.1.pending.length
  let separator := if state.1.pending.length = 0 then 0 else 1
  let full := state.1.pending.length > 0 && state.1.bytes + separator + mutation.bytes > limit
  let state' := if full then flush apply state else state
  let mutation := if full then serializeIndexMutation item 0 else mutation
  let bytes := state'.1.bytes + (if state'.1.pending.length = 0 then 0 else 1) + mutation.bytes
  let pending := state'.1.pending ++ [mutation]
  let added := ({ pending, bytes }, state'.2)
  if flushEvery.any (· ≤ pending.length) || limit ≤ bytes then flush apply added else added

end Buffer

/-- `INDEX_MUTATION_JSON_FLUSH_BYTES`. -/
def indexMutationJsonFlushBytes : Nat := 1500000

/-- `DEFAULT_INDEX_FLUSH`. -/
def defaultIndexFlush : Nat := 512

-- The table's writes

/-- The owner of an index: a checkout, or a scratch index of a repository. -/
inductive OwnedIndexSource where
  | checkout (repoId checkoutId : Nat)
  | scratch (repoId : Nat) (name : Text)
  deriving DecidableEq

/-- A segment that stands for itself. -/
def isSegment (segment : Text) : Bool :=
  segment ≠ [] && segment ≠ text "." && segment ≠ text ".."

/-- `isCanonicalPathSegments`, from a segment that has begun. -/
def segmentsCanonical (segment : Text) : Text → Bool
  | [] => isSegment segment
  | unit :: rest =>
    if unit = 0x2f then isSegment segment && segmentsCanonical [] rest
    else if unit = 0 then false
    else if Utf8.isHigh unit then
      match rest with
      | low :: more => Utf8.isLow low && segmentsCanonical (segment ++ [unit, low]) more
      -- the unit after the last is `NaN`, which no comparison refuses
      | [] => true
    else if Utf8.isLow unit then false
    else segmentsCanonical (segment ++ [unit]) rest

def isCanonicalGitPath (path : Text) : Bool :=
  path ≠ [] && path.head? ≠ some 0x2f && path.getLast? ≠ some 0x2f && segmentsCanonical [] path

/-- `MAX_INDEX_PATH_BYTES`. -/
def maxIndexPathBytes : Nat := 8 * 1024

def requireScratchIndexPath (path : Text) : Except GitError Unit :=
  if !isCanonicalGitPath path then
    .error { code := "EINVAL", message := "scratch index entry has an invalid path" }
  else if maxIndexPathBytes < Json.utf8ByteLength path then
    .error { code := "E2BIG", message := s!"scratch index path exceeds {maxIndexPathBytes} UTF-8 bytes" }
  else .ok ()

def requireScratchIndexEntry (entry : IndexEntry) : Except GitError IndexEntry :=
  (requireScratchIndexPath entry.path).bind fun _ =>
  if !Objects.isOid entry.oid then
    .error { code := "EINVAL", message := "scratch index entry has an invalid object id" }
  else .ok entry

/-- What an entry is checked for before it is put. -/
def checkedEntry (source : OwnedIndexSource) (entry : IndexEntry) : Except GitError IndexEntry :=
  match source with
  | .checkout _ _ => .ok entry
  | .scratch _ _ => requireScratchIndexEntry entry

/-- A call of the sink that `indexApply` gives its body. -/
inductive SinkCall where
  | put (entry : IndexEntry)
  | remove (path : Text)
  | flush
  deriving DecidableEq

abbrev IndexRows := Rows OwnedIndexSource

def sinkCall (source : OwnedIndexSource) (flushEvery : Option Nat) (limit : Nat)
    (state : IndexMutationBuffer × IndexRows) :
    SinkCall → Except GitError (IndexMutationBuffer × IndexRows)
  | .put entry => (checkedEntry source entry).map fun entry =>
      add (applyIndexMutations source) flushEvery limit state (.put entry)
  | .remove path => .ok (add (applyIndexMutations source) flushEvery limit state (.remove path))
  | .flush => .ok (flush (applyIndexMutations source) state)

/-- `indexApply`, for a body that makes these calls. -/
def indexApply (source : OwnedIndexSource) (flushEvery : Option Nat) (limit : Nat)
    (rows : IndexRows) (calls : List SinkCall) : Except GitError IndexRows :=
  (calls.foldlM (sinkCall source flushEvery limit) (emptyBuffer, rows)).map fun state =>
    (flush (applyIndexMutations source) state).2

/-- The flush of `indexReplace`: the first clears the rows.  The state's flag is `first`. -/
def replaceFlush (source : OwnedIndexSource) (state : Bool × IndexRows)
    (pending : List BufferedIndexMutation) : Bool × IndexRows :=
  (false, applyIndexMutations source
    (if state.1 then clearRows source state.2 else state.2) pending)

def replacePut (source : OwnedIndexSource) (flushEvery : Option Nat) (limit : Nat)
    (state : IndexMutationBuffer × (Bool × IndexRows)) (entry : IndexEntry) :
    Except GitError (IndexMutationBuffer × (Bool × IndexRows)) :=
  (checkedEntry source entry).map fun entry =>
    add (replaceFlush source) flushEvery limit state (.put entry)

def indexReplace (source : OwnedIndexSource) (flushEvery : Option Nat) (limit : Nat)
    (rows : IndexRows) (entries : List IndexEntry) : Except GitError IndexRows :=
  (entries.foldlM (replacePut source flushEvery limit) (emptyBuffer, (true, rows))).map fun state =>
    let state := (flush (replaceFlush source) state).2
    if state.1 then clearRows source state.2 else state.2

end Kompjutr.Index
