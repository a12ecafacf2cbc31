/-
  Kompjutr.Fs.Resolve

  Path resolution (`fs/store/resolve.ts`, with the path primitives of `fs/path.ts` it
  uses): the only way a caller's path becomes a stored one.

  A walk takes the components of a path in order and follows each symbolic link it
  meets.  The names it may meet until the next link are planned ahead and fetched by one
  query, a canonical path is tried without a walk first, and many paths share their
  first query.  The model keeps the names of each lookup, so that what a walk asks the store can be
  spoken about beside what it answers.
-/
import Kompjutr.Common.Paths
import Kompjutr.Lib.Utf8Encode

namespace Kompjutr.Fs

open Objects (Text text)

structure FsError where
  code : String
  message : Text
  path : Text
  deriving DecidableEq

/-- `filesystemError`, for an error that names a path. -/
def filesystemError (code : String) (message : String) (path : Text) : FsError :=
  { code, message := text code ++ text ": " ++ text message ++ text ", '" ++ path ++ text "'", path }

inductive NodeType where
  | dir | file | symlink
  deriving DecidableEq

structure NodeRow where
  type : NodeType
  linkTarget : Option Text
  deriving DecidableEq

/-- `fs_paths` joined with `fs_nodes`: the node that a stored path names. -/
abbrev Store := Text → Option NodeRow

-- Path primitives

/-- A component that a canonical path may have. -/
def isPlain (component : Text) : Bool :=
  component ≠ [] && component ≠ text "." && component ≠ text ".."

/-- Absolute with no empty, `.`, or `..` component; `/` itself is canonical. -/
def isCanonicalPath (path : Text) : Bool :=
  path = [0x2f] || (path.head? = some 0x2f && (path.tail.splitOn 0x2f).all isPlain)

/-- What stands before each slash of a text, after what was read before. -/
def cutsFrom (before : Text) : Text → List Text
  | [] => []
  | u :: rest =>
    if u = 0x2f then before :: cutsFrom (before ++ [u]) rest else cutsFrom (before ++ [u]) rest

def prefixesOf (path : Text) : List Text :=
  [0x2f] :: if path = [0x2f] then [] else cutsFrom (path.take 1) (path.drop 1) ++ [path]

/-- Preserve separators and dot segments; their order carries type semantics. -/
def componentsOf (path : Text) : List Text :=
  let rooted := path.dropWhile (· = 0x2f)
  if rooted = [] then [] else rooted.splitOn 0x2f

/-- The absolute path of some components; none of them give `/`. -/
def pathOf (parts : List Text) : Text := 0x2f :: List.intercalate [0x2f] parts

def rootDepth (root : Text) : Nat := if root = [0x2f] then 0 else (componentsOf root).length

def isUnder (path root : Text) : Bool :=
  if root = [0x2f] then path.head? = some 0x2f
  else path = root || (root ++ [0x2f]).isPrefixOf path

-- Queries

/-- A computation over the store: the names of each of its lookups, in order, and its value or
    error. -/
structure Asked (α : Type) where
  lookups : List (List Text)
  result : Except FsError α

namespace Asked

def ok {α : Type} (value : α) : Asked α := ⟨[], .ok value⟩

def fail {α : Type} (error : FsError) : Asked α := ⟨[], .error error⟩

def bind {α β : Type} (asked : Asked α) (next : α → Asked β) : Asked β :=
  match asked.result with
  | .error error => ⟨asked.lookups, .error error⟩
  | .ok value => ⟨asked.lookups ++ (next value).lookups, (next value).result⟩

end Asked

/-- Rows by their path. -/
abbrev Nodes := List (Text × NodeRow)

def Nodes.get (nodes : Nodes) (path : Text) : Option NodeRow := nodes.lookup path

/-- `PATH_BATCH_BYTES` keeps every binding below the platform's ceiling. -/
def pathBatchBytes : Nat := 1500000

/-- The length of a text in JSON, quotes included. -/
def jsonStringEncodedBytes (value : Text) : Nat := 2 + go value
where
  go : Text → Nat
    | [] => 0
    | unit :: rest =>
      if unit = 0x22 || unit = 0x5c || unit = 0x08 || unit = 0x09 || unit = 0x0a || unit = 0x0c ||
          unit = 0x0d then 2 + go rest
      else if unit < 0x20 then 6 + go rest
      else if Utf8.isHigh unit then
        match rest with
        | low :: more => if Utf8.isLow low then 4 + go more else 6 + go (low :: more)
        | [] => 6
      else if Utf8.isLow unit then 6 + go rest
      else (if unit < 0x80 then 1 else if unit < 0x800 then 2 else 3) + go rest

def jsonItemBytes (path : Text) : Nat := jsonStringEncodedBytes path + 1

/-- `NODES_ON_SQL`: the rows of the paths of one binding. -/
def nodesQuery (store : Store) (batch : List Text) : Nodes :=
  batch.filterMap fun path => (store path).map (path, ·)

/-- The bindings of `nodesOn`: a path that would pass the limit starts the next one. -/
def nodeBatches : List Text → Nat → List Text → List (List Text)
  | batch, _, [] => if batch = [] then [] else [batch]
  | batch, bytes, path :: paths =>
    if batch ≠ [] && bytes + jsonItemBytes path > pathBatchBytes then
      batch :: nodeBatches [path] (2 + jsonItemBytes path) paths
    else nodeBatches (batch ++ [path]) (bytes + jsonItemBytes path) paths

/-- Fetch every node the ordered walk may inspect. -/
def nodesOn (store : Store) (paths : List Text) : Asked Nodes :=
  ⟨[paths], .ok ((nodeBatches [] 2 paths).flatMap (nodesQuery store))⟩

-- The walk

/-- Where a confined walk would have left its root, or the path it came to. -/
inductive Resolution where
  | real (path : Text)
  | parent (rest : List Text)
  | outside
  deriving DecidableEq

/-- One resolution: a path, optionally confined to `root`. -/
structure Walk where
  path : Text
  root : Option Text
  /-- The root is the top of the namespace, as a chroot's is. -/
  top : Bool

structure Confine where
  depth : Nat
  top : Bool

/-- `MAX_FOLLOWS`. -/
def maxFollows : Nat := 40

def enotdir (path : Text) : FsError := filesystemError "ENOTDIR" "not a directory" path

def eloop (path : Text) : FsError := filesystemError "ELOOP" "too many symbolic links" path

def enoent (path : Text) : FsError := filesystemError "ENOENT" "no such file or directory" path

def malformed (path : Text) : FsError := filesystemError "EINVAL" "path is not well-formed UTF-8" path

/-- A row that `requireDirectory` refuses. -/
def notDirectory (row : Option NodeRow) : Bool := row.any (·.type ≠ .dir)

def isSymlink (row : Option NodeRow) : Bool := row.any (·.type = .symlink)

/-- A member of an insertion-ordered set. -/
def addName (names : List Text) (name : Text) : List Text :=
  if name ∈ names then names else names ++ [name]

/-- The loop of `plannedPaths`. -/
def planFrom (paths : List Text) : List Text → List Text → List Text
  | _, [] => paths
  | parts, component :: pending =>
    let paths := addName paths (pathOf parts)
    if component = [] || component = text "." then planFrom paths parts pending
    else if component = text ".." then
      planFrom (addName paths (pathOf parts.dropLast)) parts.dropLast pending
    else planFrom (addName paths (pathOf (parts ++ [component]))) (parts ++ [component]) pending

/-- Prefixes needed to process one no-symlink batch in source order. -/
def plannedPaths (resolved pending : List Text) : List Text :=
  planFrom [pathOf resolved] resolved pending

/-- Whether the ordered walk of a canonical path must expand a symlink. -/
def followsSymlink (path : Text) (followFinal : Bool) (get : Text → Option NodeRow) :
    List Text → Except FsError Bool
  | parent :: candidate :: more =>
    if notDirectory (get parent) then .error (enotdir path)
    else if isSymlink (get candidate) && (followFinal || more ≠ []) then .ok true
    else followsSymlink path followFinal get (candidate :: more)
  | _ => .ok false

/-- How the loop over the pending components ends. -/
inductive Stop where
  | failed (error : FsError)
  | breached (breach : Resolution)
  | arrived (resolved : List Text)
  /-- At a symbolic link in the directory `resolved`, with the components after it. -/
  | link (resolved : List Text) (target : Text) (rest : List Text)
  deriving DecidableEq

/-- What a component does to a walk. -/
inductive Move where
  | stop (stop : Stop)
  | on (resolved : List Text) (missingPrefix : Option Text)
  deriving DecidableEq

section Loop

variable (get : Text → Option NodeRow) (path : Text) (followFinal : Bool)
  (confine : Option Confine) (callerTail : Nat)

/-- A `..` below an existing prefix.  It is one of the caller's own components when no more than
    `callerTail` components are left with it. -/
def walkUp (resolved rest : List Text) : Move :=
  match confine with
  | none => .on resolved.dropLast none
  | some limit =>
    if resolved.length ≤ limit.depth then
      if limit.top then .on resolved none
      else if callerTail ≤ rest.length then .stop (.breached .outside)
      else .stop (.breached (.parent rest))
    else .on resolved.dropLast none

/-- A name: a symbolic link ends the round, unless it is the last one and is not to be
    followed. -/
def walkDown (resolved : List Text) (missingPrefix : Option Text) (component : Text)
    (rest : List Text) (node : Option NodeRow) : Move :=
  if isSymlink node && (followFinal || rest ≠ []) then
    .stop (.link resolved ((node.bind (·.linkTarget)).getD []) rest)
  else
    .on (resolved ++ [component])
      (if node = none && missingPrefix = none then some (pathOf (resolved ++ [component]))
        else missingPrefix)

/-- One turn of the loop over `pending`. -/
def walkComponent (resolved : List Text) (missingPrefix : Option Text) (component : Text)
    (rest : List Text) : Move :=
  if notDirectory (get (pathOf resolved)) then .stop (.failed (enotdir path))
  else if component = [] || component = text "." then .on resolved missingPrefix
  else if component = text ".." then
    match missingPrefix with
    | some missing => .stop (.failed (enoent missing))
    | none => walkUp confine callerTail resolved rest
  else
    walkDown followFinal resolved missingPrefix component rest
      (get (pathOf (resolved ++ [component])))

def walkPending (resolved : List Text) (missingPrefix : Option Text) : List Text → Stop
  | [] => .arrived resolved
  | component :: rest =>
    match walkComponent get path followFinal confine callerTail resolved missingPrefix component
      rest with
    | .stop stop => stop
    | .on resolved missingPrefix => walkPending resolved missingPrefix rest

end Loop

def isAbsolute (target : Text) : Bool := target.head? = some 0x2f

/-- Whether a target must not be followed. -/
def leavesRoot (confine : Option Confine) (target : Text) : Bool :=
  isAbsolute target && confine.any (!·.top)

/-- Where the components of a target start. -/
def targetStart (confine : Option Confine) (target : Text) (resolved : List Text) : List Text :=
  if isAbsolute target then
    match confine with
    | none => []
    | some limit => resolved.take limit.depth
  else resolved

/-- How a round ends: with the answer, or with a link to follow. -/
inductive RoundEnd where
  | done (result : Except FsError Resolution)
  | next (resolved pending : List Text) (callerTail : Nat)

def RoundEnd.continue (next : List Text → List Text → Nat → Asked Resolution) :
    RoundEnd → Asked Resolution
  | .done result => ⟨[], result⟩
  | .next resolved pending callerTail => next resolved pending callerTail

/-- What the end of the loop over `pending` comes to, with the follows that are left. -/
def roundEnd (path : Text) (confine : Option Confine) (callerTail follows : Nat) : Stop → RoundEnd
  | .failed error => .done (.error error)
  | .breached breach => .done (.ok breach)
  | .arrived resolved => .done (.ok (.real (pathOf resolved)))
  | .link resolved target rest =>
    if follows = 0 then .done (.error (eloop path))
    else if leavesRoot confine target then .done (.ok .outside)
    else
      .next (targetStart confine target resolved) (componentsOf target ++ rest)
        (min callerTail rest.length)

/-- The rows a round of the walk reads: those handed in, or those of its own plan. -/
def roundNodes (store : Store) (initialNodes : Option Nodes) (paths : List Text) : Asked Nodes :=
  match initialNodes with
  | some nodes => .ok nodes
  | none => nodesOn store paths

/-- A round of the outer loop of `resolveComponents`: a lookup, and the loop over `pending`. -/
def resolveRound (store : Store) (path : Text) (followFinal : Bool) (confine : Option Confine)
    (follows : Nat) (next : List Text → List Text → Nat → Asked Resolution)
    (initialNodes : Option Nodes) (resolved pending : List Text) (callerTail : Nat) :
    Asked Resolution :=
  (roundNodes store initialNodes (plannedPaths resolved pending)).bind fun nodes =>
  (roundEnd path confine callerTail follows
    (walkPending nodes.get path followFinal confine callerTail resolved none pending)).continue next

/-- The outer loop, with the follows that are left.  A round without one left has no next. -/
def resolveRounds (store : Store) (path : Text) (followFinal : Bool) (confine : Option Confine) :
    Nat → Option Nodes → List Text → List Text → Nat → Asked Resolution
  | 0 => resolveRound store path followFinal confine 0 fun _ _ _ => .fail (eloop path)
  | follows + 1 =>
    resolveRound store path followFinal confine (follows + 1)
      (resolveRounds store path followFinal confine follows none)

def resolveComponents (store : Store) (path : Text) (start components : List Text)
    (followFinal : Bool) (initialNodes : Option Nodes) (confine : Option Confine) :
    Asked Resolution :=
  resolveRounds store path followFinal confine maxFollows initialNodes start components
    components.length

/-- The prefixes of a canonical path that a walk of it looks up. -/
def walkPrefixes (walk : Walk) : List Text :=
  match walk.root with
  | none => prefixesOf walk.path
  | some root => (prefixesOf walk.path).drop (rootDepth root)

/-- Where a walk starts, the components it takes, and its limit. -/
def walkStart (walk : Walk) : List Text × List Text × Option Confine :=
  match walk.root with
  | none => ([], componentsOf walk.path, none)
  | some root =>
    (componentsOf root, componentsOf (walk.path.drop root.length),
      some { depth := rootDepth root, top := walk.top })

/-- Every path the walk may look up, for the batched planning query. -/
def candidatesOf (walk : Walk) : List Text :=
  if isCanonicalPath walk.path then walkPrefixes walk
  else plannedPaths (walkStart walk).1 (walkStart walk).2.1

/-- Whether a walk starts at or below its root. -/
def startsUnder (walk : Walk) : Bool := walk.root.all (isUnder walk.path)

/-- The walk by components, from where `resolveWalk` starts it. -/
def resolveFrom (store : Store) (walk : Walk) (followFinal : Bool) (nodes : Option Nodes) :
    Asked Resolution :=
  resolveComponents store walk.path (walkStart walk).1 (walkStart walk).2.1 followFinal nodes
    (walkStart walk).2.2

/-- Resolve in component order. -/
def resolveWalk (store : Store) (walk : Walk) (followFinal : Bool) (initialNodes : Option Nodes) :
    Asked Resolution :=
  if ¬ Utf8.WellFormed walk.path then .fail (malformed walk.path)
  else if !startsUnder walk then .ok .outside
  else if isCanonicalPath walk.path then
    (roundNodes store initialNodes (walkPrefixes walk)).bind fun nodes =>
    match followsSymlink walk.path followFinal nodes.get (walkPrefixes walk) with
    | .error error => .fail error
    | .ok false => .ok (.real walk.path)
    | .ok true => resolveFrom store walk followFinal (some nodes)
  else resolveFrom store walk followFinal initialNodes

def confinedOrThrow (resolved : Resolution) (path : Text) : Except FsError Text :=
  match resolved with
  | .real real => .ok real
  | _ => .error (enoent path)

/-- `realpath` and `realpathNoFollow`. -/
def resolve (store : Store) (path : Text) (followFinal : Bool) : Except FsError Text :=
  (resolveWalk store ⟨path, none, false⟩ followFinal none).result.bind (confinedOrThrow · path)

/-- Resolve a path without ever leaving `root`. -/
def resolveWithin (store : Store) (root path : Text) (followFinal top : Bool) : Asked Resolution :=
  resolveWalk store ⟨path, some root, top⟩ followFinal none

/-- One path of a `confinedResolver`, whose every breach reads as an absent path. -/
def confinedResolver (store : Store) (root : Text) (top : Bool) (path : Text)
    (followFinal : Bool) : Except FsError Text :=
  (resolveWithin store root path followFinal top).result.bind (confinedOrThrow · path)

-- Many walks

/-- What `resolveMany` has gathered. -/
structure Gathered where
  out : List Resolution
  group : List Walk
  planned : List Text
  plannedBytes : Nat

/-- The walks of a group, over the rows of its one query. -/
def resolveGroup (store : Store) (followFinal : Bool) (nodes : Nodes) :
    List Walk → Asked (List Resolution)
  | [] => .ok []
  | walk :: walks =>
    (resolveWalk store walk followFinal (some nodes)).bind fun resolved =>
    (resolveGroup store followFinal nodes walks).bind fun rest => .ok (resolved :: rest)

def flush (store : Store) (followFinal : Bool) (gathered : Gathered) : Asked Gathered :=
  if gathered.group = [] then .ok gathered
  else
    (nodesOn store gathered.planned).bind fun nodes =>
    (resolveGroup store followFinal nodes gathered.group).bind fun resolved =>
    .ok { out := gathered.out ++ resolved, group := [], planned := [], plannedBytes := 2 }

/-- A candidate of a walk joins the plan. -/
def planCandidate (plan : List Text × Nat) (candidate : Text) : List Text × Nat :=
  if candidate ∈ plan.1 then plan
  else (plan.1 ++ [candidate], plan.2 + jsonItemBytes candidate)

/-- The bytes that a walk's candidates add to a plan. -/
def addedBytes (planned candidates : List Text) : Nat :=
  ((candidates.filter (· ∉ planned)).map jsonItemBytes).sum

def groupCandidates (walk : Walk) : List Text := if startsUnder walk then candidatesOf walk else []

/-- A walk joins its group. -/
def Gathered.add (gathered : Gathered) (walk : Walk) : Gathered :=
  let plan := (groupCandidates walk).foldl planCandidate (gathered.planned, gathered.plannedBytes)
  { gathered with group := gathered.group ++ [walk], planned := plan.1, plannedBytes := plan.2 }

/-- One walk of `resolveMany`: a group whose plan would pass the limit is resolved first. -/
def gather (store : Store) (followFinal : Bool) (gathered : Gathered) (walk : Walk) :
    Asked Gathered :=
  if ¬ Utf8.WellFormed walk.path then .fail (malformed walk.path)
  else if gathered.group ≠ [] && gathered.plannedBytes +
      addedBytes gathered.planned (groupCandidates walk) > pathBatchBytes then
    (flush store followFinal gathered).bind fun gathered => .ok (gathered.add walk)
  else .ok (gathered.add walk)

def gatherAll (store : Store) (followFinal : Bool) : Gathered → List Walk → Asked Gathered
  | gathered, [] => .ok gathered
  | gathered, walk :: walks =>
    (gather store followFinal gathered walk).bind fun gathered =>
    gatherAll store followFinal gathered walks

def resolveMany (store : Store) (walks : List Walk) (followFinal : Bool) :
    Asked (List Resolution) :=
  (gatherAll store followFinal ⟨[], [], [], 2⟩ walks).bind fun gathered =>
  (flush store followFinal gathered).bind fun gathered => .ok gathered.out

-- A component-by-component walk

/-- The plain walk of a path: every name is looked up in the store when the walk comes to it. -/
def follow (store : Store) (path : Text) (followFinal : Bool) (confine : Option Confine)
    (follows : Nat) (resolved pending : List Text) (callerTail : Nat) :
    Except FsError Resolution :=
  match roundEnd path confine callerTail follows
    (walkPending store path followFinal confine callerTail resolved none pending) with
  | .done result => result
  | .next resolved pending callerTail =>
    match follows with
    | 0 => .error (eloop path)
    | follows + 1 =>
      follow store path followFinal confine follows resolved pending callerTail

/-- A component-by-component walk of one path alone. -/
def plainWalk (store : Store) (walk : Walk) (followFinal : Bool) : Except FsError Resolution :=
  if ¬ Utf8.WellFormed walk.path then .error (malformed walk.path)
  else if !startsUnder walk then .ok .outside
  else
    follow store walk.path followFinal (walkStart walk).2.2 maxFollows (walkStart walk).1
      (walkStart walk).2.1 (walkStart walk).2.1.length

end Kompjutr.Fs
