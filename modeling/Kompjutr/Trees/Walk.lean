/-
  Kompjutr.Trees.Walk

  The objects that a tree transition introduces (`store/trees/tree-walk.ts` and
  `store/trees/tree-closure.ts`).

  One recursive statement walks both trees side by side over the rows that were parsed
  from their objects.  A root without rows is parsed first, and the statement runs again.
-/
import Kompjutr.Lib.UnionAll
import Kompjutr.Objects.Commit
import Mathlib.Data.List.ReduceOption
import Mathlib.Data.List.Lex

namespace Kompjutr.Trees

open Objects (Text text shown isOid ObjectType)

-- Parsed trees

/-- The modes of tree entries; `paddedTree` is `040000`. -/
inductive TreeMode where
  | tree | paddedTree | file | executable | symlink | gitlink
  deriving DecidableEq

def isTreeMode : TreeMode → Bool
  | .tree | .paddedTree => true
  | _ => false

/-- A row of `git_tree_entries`. -/
structure TreeEntry where
  ordinal : Nat
  nameBytes : List UInt8
  mode : TreeMode
  oid : Text
  cumulativeBase : Int
  deriving DecidableEq

/-- A row of `git_tree_sources` with its entries. -/
structure TreeSource where
  complete : Bool
  objectSize : Int
  entryCount : Int
  baseCost : Int
  entries : List TreeEntry
  deriving DecidableEq

abbrev TreeTable := Text → Option TreeSource

/-- Reads a tree object and parses it. -/
abbrev TreeReader := Text → Except GitError TreeSource

def insertSource (table : TreeTable) (row : Text × TreeSource) : TreeTable :=
  fun oid => if oid = row.1 then some row.2 else table oid

/-- `unprojected`. -/
def unprojected (table : TreeTable) (oids : List Text) : List Text :=
  oids.filter fun oid => (table oid).isNone

/-- The subtrees that a projected tree names. -/
def subtreesOf (source : TreeSource) : List Text :=
  if source.complete then
    (source.entries.filter fun entry => isTreeMode entry.mode).map TreeEntry.oid
  else []

/-- The loop of `ensureTreeClosure`, level by level. -/
def projectLevels (readTree : TreeReader) :
    Nat → List Text → List Text → TreeTable → Option (Except GitError TreeTable)
  | _, _, [], table => some (.ok table)
  | 0, _, _ :: _, _ => none
  | fuel + 1, queued, level, table =>
    let pending := unprojected table level
    match pending.mapM fun oid => (readTree oid).map fun source => (oid, source) with
    | .error error => some (.error error)
    | .ok sources =>
      let next := (sources.flatMap fun source => subtreesOf source.2).eraseDups
      projectLevels readTree fuel (queued ++ pending)
        (next.filter fun oid => oid ∉ queued ++ pending) (sources.foldl insertSource table)

def ensureTreeClosure (readTree : TreeReader) (table : TreeTable) (roots : List Text) (fuel : Nat) :
    Option (Except GitError TreeTable) :=
  projectLevels readTree fuel [] roots.eraseDups table

-- Rows of the walk

def treeWalkPathBytes : Nat := 7456512

def treeWalkStateBytes : Int := 64 * 1024 * 1024

def treeWalkQueueBytes : Int := 16 * 1024 * 1024

def treeQueueRowFixedBytes : Int := 64 + 4 * 8 + 96

/-- The mode and the object of one side of a row. -/
structure Side where
  mode : TreeMode
  oid : Text
  deriving DecidableEq

/-- `error_code`; a tree is `pending` until its source has been looked up. -/
inductive WalkCode where
  | pending | corrupt | tooBig
  deriving DecidableEq

inductive WalkErrorKind where
  | missingRoot | missingSource | incompleteSource
  deriving DecidableEq

/-- A row of `walk`.  The ancestries are lists of ids. -/
structure WalkRow where
  path : List UInt8
  pathBytes : Nat
  sortKey : List UInt8
  before : Option Side
  after : Option Side
  beforeAncestry : List Text
  afterAncestry : List Text
  stateBytes : Int
  reservedBytes : Int
  error : Option String
  errorCode : WalkCode
  errorKind : Option WalkErrorKind
  errorOid : Option Text
  deriving DecidableEq

/-- `mode IN ('40000', '040000')`, false for `NULL`. -/
def isTree (side : Option Side) : Bool := side.any fun side => isTreeMode side.mode

/-- Both sides are the same tree. -/
def sameTree (before after : Option Side) : Bool :=
  isTree before && isTree after && before.map Side.oid = after.map Side.oid

/-- The object of a side that is a tree. -/
def treeOf (side : Option Side) : Option Text :=
  side.bind fun side => if isTreeMode side.mode then some side.oid else none

def sideOf (entry : TreeEntry) : Side := { mode := entry.mode, oid := entry.oid }

def invalidRoot (root : Option Text) : Bool := root.any fun oid => !isOid oid

def rootRows (before after : Option Text) : List WalkRow :=
  if before = after then []
  else
    let invalid := invalidRoot before || invalidRoot after
    [{ path := [], pathBytes := 0, sortKey := []
       before := before.map fun oid => { mode := .tree, oid }
       after := after.map fun oid => { mode := .tree, oid }
       beforeAncestry := before.toList, afterAncestry := after.toList
       stateBytes := 0, reservedBytes := 0
       error := if invalid then some "tree oid is invalid" else none
       errorCode := if invalid then .corrupt else .pending
       errorKind := none, errorOid := none }]

-- Pending rows

def completeSource (table : TreeTable) (oid : Text) : Bool := (table oid).any TreeSource.complete

/-- The tree of a side that needs a source and has no complete one. -/
def failing (table : TreeTable) (row : WalkRow) (side : Option Side) : Option Text :=
  if sameTree row.before row.after then none
  else (treeOf side).filter fun oid => !completeSource table oid

def sourceMessage (row : WalkRow) (oid : Text) : String :=
  if row.path = [] then "tree source is invalid; reimport or reclone"
  else s!"tree {shown oid} has no valid v3 parsed source; reimport or reclone"

def sourceKind (table : TreeTable) (row : WalkRow) (oid : Text) : Option WalkErrorKind :=
  if row.path = [] then if (table oid).isNone then some .missingRoot else none
  else if (table oid).isNone then some .missingSource
  else some .incompleteSource

/-- A pending row after its sources were looked up. -/
def lookedUp (table : TreeTable) (row : WalkRow) : WalkRow :=
  match (failing table row row.before).or (failing table row row.after) with
  | none => { row with errorCode := .corrupt }
  | some oid =>
    { row with
      error := some (sourceMessage row oid), errorCode := .corrupt
      errorKind := sourceKind table row oid, errorOid := some oid }

-- Entries of a row

/-- The source that a side contributes to the next rows. -/
def sourceOf (table : TreeTable) (side : Option Side) : Option TreeSource := (treeOf side).bind table

def sourceCost (row : WalkRow) (source : TreeSource) : Int :=
  source.baseCost + source.objectSize + source.entryCount * (row.stateBytes + 51)

def optionalCost (row : WalkRow) (source : Option TreeSource) : Int :=
  (source.map (sourceCost row)).getD 0

/-- What the entries after this one still hold of the queue. -/
def restCost (row : WalkRow) (source : TreeSource) (entry : TreeEntry) : Int :=
  2 * (source.baseCost - entry.cumulativeBase) +
    (source.entryCount - entry.ordinal - 1) * (row.stateBytes + 51 - treeQueueRowFixedBytes - 18)

/-- The bytes that a name adds to the path. -/
def addedBytes (row : WalkRow) (name : List UInt8) : Nat :=
  (if row.path = [] then 0 else 1) + name.length

def childPath (row : WalkRow) (name : List UInt8) : List UInt8 :=
  if row.path = [] then name else row.path ++ 0x2f :: name

/-- `fixed` is the fixed part of a row with as many sides. -/
def childState (row : WalkRow) (name : List UInt8) (fixed : Int) : Int :=
  row.stateBytes + 2 * addedBytes row name + fixed

def childTooBig (row : WalkRow) (name : List UInt8) (fixed : Int) : Bool :=
  treeWalkPathBytes < row.pathBytes + addedBytes row name ||
    treeWalkStateBytes < childState row name fixed

def pathError : String := "tree traversal row exceeds its fixed state capacity"

def cycleError (ancestry : List Text) (side : Option Side) : Option String :=
  (treeOf side).bind fun oid =>
    if oid ∈ ancestry then some s!"tree cycle at {shown oid}" else none

/-- The ancestry of the entries of a side; the root is in it from the start. -/
def childAncestry (row : WalkRow) (ancestry : List Text) (side : Option Side) : List Text :=
  if row.path = [] then ancestry else ancestry ++ (treeOf side).toList

def childCode (row : WalkRow) (name : List UInt8) (fixed : Int) (before after : Option Side) :
    WalkCode :=
  if childTooBig row name fixed then .tooBig
  else if (isTree before || isTree after) && !sameTree before after then .pending
  else .corrupt

/-- The row of an entry of the tree before, with the entry of that name in the tree after. -/
def beforeChild (row : WalkRow) (source : TreeSource) (afterSource : Option TreeSource)
    (entry : TreeEntry) (other : Option TreeEntry) : WalkRow :=
  let before := some (sideOf entry)
  let after := other.map sideOf
  let beforeAncestry := childAncestry row row.beforeAncestry row.before
  let afterAncestry := childAncestry row row.afterAncestry row.after
  let kindsDiffer := other.any fun other => isTreeMode entry.mode != isTreeMode other.mode
  let leaf := !isTreeMode entry.mode || other.any fun other => !isTreeMode other.mode
  { path := childPath row entry.nameBytes
    pathBytes := row.pathBytes + addedBytes row entry.nameBytes
    sortKey := childPath row entry.nameBytes ++ [if leaf then 0x00 else 0x2f]
    before, after, beforeAncestry, afterAncestry
    stateBytes := childState row entry.nameBytes 100
    reservedBytes := row.reservedBytes +
      (if kindsDiffer then sourceCost row source else restCost row source entry) +
      match other with
      | none => optionalCost row afterSource
      | some other =>
        if kindsDiffer then optionalCost row afterSource
        else (afterSource.map fun source => restCost row source other).getD 0
    error :=
      if childTooBig row entry.nameBytes 100 then some pathError
      else (cycleError beforeAncestry before).or (cycleError afterAncestry after)
    errorCode := childCode row entry.nameBytes 100 before after
    errorKind := none, errorOid := none }

/-- The row of an entry that only the tree after has. -/
def afterChild (row : WalkRow) (source : TreeSource) (beforeSource : Option TreeSource)
    (entry : TreeEntry) : WalkRow :=
  let after := some (sideOf entry)
  let afterAncestry := childAncestry row row.afterAncestry row.after
  { path := childPath row entry.nameBytes
    pathBytes := row.pathBytes + addedBytes row entry.nameBytes
    sortKey := childPath row entry.nameBytes ++ [if isTreeMode entry.mode then 0x2f else 0x00]
    before := none, after, beforeAncestry := row.beforeAncestry, afterAncestry
    stateBytes := childState row entry.nameBytes 55
    reservedBytes := row.reservedBytes + restCost row source entry + optionalCost row beforeSource
    error :=
      if childTooBig row entry.nameBytes 55 then some pathError else cycleError afterAncestry after
    errorCode := childCode row entry.nameBytes 55 none after
    errorKind := none, errorOid := none }

/-- The entries of a source with this name. -/
def named (source : Option TreeSource) (name : List UInt8) : List TreeEntry :=
  match source with
  | none => []
  | some source =>
    source.entries.filter fun entry =>
      entry.nameBytes = name && entry.nameBytes.length ≤ treeWalkPathBytes

def queueError (row : WalkRow) : WalkRow :=
  { row with
    error := some "tree traversal queue exceeds 16 MiB", errorCode := .tooBig
    errorKind := none, errorOid := none }

/-- The entries of both sides, or the error that they do not fit into the queue. -/
def entryRows (table : TreeTable) (row : WalkRow) : List WalkRow :=
  let before := sourceOf table row.before
  let after := sourceOf table row.after
  if treeWalkQueueBytes < row.reservedBytes + optionalCost row before + optionalCost row after then
    [queueError row]
  else
    (match before with
      | none => []
      | some source => source.entries.flatMap fun entry =>
        match named after entry.nameBytes with
        | [] => [beforeChild row source after entry none]
        | others => others.map fun other => beforeChild row source after entry (some other)) ++
    match after with
    | none => []
    | some source =>
      (source.entries.filter fun entry => named before entry.nameBytes = []).map
        fun entry => afterChild row source before entry

/-- The rows that a row adds to `walk`. -/
def nextRows (table : TreeTable) (row : WalkRow) : List WalkRow :=
  match row.error, row.errorCode with
  | none, .pending => [lookedUp table row]
  | none, .corrupt =>
    if (isTree row.before || isTree row.after) && !sameTree row.before row.after then
      entryRows table row
    else []
  | _, _ => []

-- The statement and its callers

/-- A row that is not an error is answered when it is a changed leaf, or a changed tree and the
    caller asks for objects. -/
def answered (emitObjects : Bool) (row : WalkRow) : Bool :=
  row.error.isSome ||
    (row.errorCode ≠ .pending &&
      (((row.before.any fun side => !isTreeMode side.mode) ||
          (row.after.any fun side => !isTreeMode side.mode)) && row.before ≠ row.after ||
        emitObjects && isTree row.after && !sameTree row.before row.after))

/-- Errors come first, then the order of the paths. -/
def answersBefore (row other : WalkRow) : Bool :=
  if row.error.isSome = other.error.isSome then row.sortKey ≤ other.sortKey
  else row.error.isSome

/-- `WALK_TREE_DIFF_SQL`.  The rows are sorted at the end, so the order of the queue is free. -/
def walkTreeDiffRows (table : TreeTable) (before after : Option Text) (emitObjects : Bool)
    (fuel : Nat) : Option (List WalkRow) :=
  (UnionAll.rows (nextRows table) fuel (rootRows before after)).map fun rows =>
    (rows.filter (answered emitObjects)).mergeSort answersBefore

def throwTraversalError (row : WalkRow) (label : String) : Except GitError Unit :=
  match row.error with
  | none => .ok ()
  | some message =>
    if row.errorCode = .tooBig then .error { code := "E2BIG", message }
    else
      match row.errorKind with
      | some .missingSource =>
        .error { code := "ENOTFOUND", message := s!"object not found: {shown (row.errorOid.getD [])}" }
      | some .missingRoot => .error (corrupt s!"{label} root is still not projected")
      | some .incompleteSource | none => .error (corrupt message)

def isMissingRoot (row : WalkRow) : Bool :=
  row.error.isSome && row.errorKind = some .missingRoot

/-- `projectedWalk`: the rows, and the table after a root was projected. -/
def projectedWalk (readTree : TreeReader) (table : TreeTable) (before after : Option Text)
    (emitObjects : Bool) (fuel : Nat) : Option (Except GitError (List WalkRow × TreeTable)) :=
  (walkTreeDiffRows table before after emitObjects fuel).bind fun rows =>
    if rows.head?.any isMissingRoot then
      (ensureTreeClosure readTree table (before.toList ++ after.toList) fuel).bind fun closed =>
        match closed with
        | .error error => some (.error error)
        | .ok table =>
          (walkTreeDiffRows table before after emitObjects fuel).map fun rows => .ok (rows, table)
    else some (.ok (rows, table))

/-- The object of a row; gitlinks and deletions have none. -/
def objectOf (row : WalkRow) : Except GitError (Option (Text × ObjectType)) :=
  (throwTraversalError row "tree diff object traversal").map fun _ =>
    match row.after with
    | none => none
    | some side =>
      if side.mode = .gitlink then none
      else some (side.oid, if isTreeMode side.mode then .tree else .blob)

/-- `iterateTreeDiffObjects`. -/
def iterateTreeDiffObjects (readTree : TreeReader) (table : TreeTable) (before : Option Text)
    (after : Text) (fuel : Nat) : Option (Except GitError (List (Text × ObjectType) × TreeTable)) :=
  if before = some after then some (.ok ([], table))
  else
    (projectedWalk readTree table before (some after) true fuel).map fun walked =>
      walked.bind fun walked =>
        (walked.1.mapM objectOf).map fun objects => (objects.reduceOption, walked.2)

end Kompjutr.Trees
