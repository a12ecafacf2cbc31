/-
  Kompjutr.Refs.ServerPublication

  Publishing the commands of a push (`store/refs/server-publication.ts`): each command
  is resolved to the ref it reaches, checked against its value there, against the
  checkouts and against the names that the push leaves, and those that pass are applied
  in one ref mutation.
-/
import Kompjutr.Common.Paths
import Kompjutr.Refs.Table

namespace Kompjutr.Refs

open Objects (Text text)
open Paths (gitAncestors isNestedPath)

def zeroOid : Text := List.replicate 40 0x30

structure ReceivePackCommand where
  ref : Text
  oldOid : Text
  newOid : Text
  deriving DecidableEq

structure ServerRefStatus where
  ref : Text
  error : Option String
  deriving DecidableEq

structure ResolvedCommand where
  command : ReceivePackCommand
  destination : Text
  current : Option Text
  error : Option String
  deriving DecidableEq

/-- `store.getRef`. -/
def getRef (tables : RefTables) (name : Text) : Except GitError (Option Text) := do
  let checked ← requireRefName name "ref name" false
  return tables.refs.lookup checked

/-- `refs/heads/` and `refs/tags/`. -/
def isServed (destination : Text) : Bool :=
  (text "refs/heads/").isPrefixOf destination || (text "refs/tags/").isPrefixOf destination

/-- Why a command that reaches `destination` fails before anything is compared. -/
def resolutionError (tables : RefTables) (destination : Text) (current : Option Text) :
    Option String :=
  if current = none && tables.refs.lookup destination ≠ none then
    some "symbolic ref cannot be resolved"
  else if !isServed destination then some "symbolic ref target is outside served namespaces"
  else none

/-- The destination is the last name that was looked up. -/
def resolveCommand (tables : RefTables) (command : ReceivePackCommand) :
    Except GitError ResolvedCommand := do
  let raw ← getRef tables command.ref
  let (current, names) ← resolveRawRef raw (getRef tables)
  let destination := names.getLast?.getD command.ref
  return { command, destination, current, error := resolutionError tables destination current }

/-- The names that the HEADs of the checkouts resolve through. -/
def attachedNames (tables : RefTables) : Except GitError (List Text) := do
  let paths ← tables.checkouts.mapM fun checkout =>
    Prod.snd <$> resolveRawRef (some checkout.head) (getRef tables)
  return paths.flatten

/-- The command of a group that names its destination itself. -/
def directOf (group : List ResolvedCommand) : Option ResolvedCommand :=
  group.find? fun entry => entry.command.ref = entry.destination

/-- What `aliasedGroups` does to the entry at an index: with a direct command in its group all
    updates must agree, and without one only the first entry stays. -/
def aliasEntry (resolved : List ResolvedCommand) (index : Nat) (entry : ResolvedCommand) :
    ResolvedCommand :=
  let group := resolved.filter (·.destination = entry.destination)
  match directOf group with
  | some direct =>
    if group.any fun other => other.command.oldOid ≠ direct.command.oldOid ||
        other.command.newOid ≠ direct.command.newOid then
      { entry with error := some "inconsistent aliased update" }
    else entry
  | none =>
    if (resolved.take index).any (·.destination = entry.destination) then
      { entry with error := some "refname conflict" }
    else entry

def aliasedGroups (resolved : List ResolvedCommand) : List ResolvedCommand :=
  resolved.mapIdx (aliasEntry resolved)

/-- The value a command expects. -/
def expectedValue (oldOid : Text) : Option Text := if oldOid = zeroOid then none else some oldOid

/-- Compare-and-set and the protection of attached branches. -/
def checkEntry (attached : List Text) (entry : ResolvedCommand) : ResolvedCommand :=
  if entry.error ≠ none then entry
  else if entry.current ≠ expectedValue entry.command.oldOid then
    { entry with error := some "stale old object id" }
  else if attached.contains entry.destination then
    { entry with error := some "branch is attached to a checkout" }
  else entry

/-- The first entry of a group without an error. -/
def acceptedOf (entries : List ResolvedCommand) (destination : Text) : Option ResolvedCommand :=
  entries.find? fun entry => entry.destination = destination && entry.error = none

/-- The query and the loop of `namespaceConflict`.  SQLite compares names as `comparePaths` does. -/
def namespaceConflict (tables : RefTables) (name : Text) (accepted : List RefRow)
    (deletes : List Text) : Bool :=
  (tables.refs.keys.any fun stored =>
      (gitAncestors name).contains stored && !deletes.contains stored) ||
    (tables.refs.keys.any fun stored =>
      comparePaths stored (name ++ [0x2f]) = .gt && comparePaths stored (name ++ [0x30]) = .lt &&
        !deletes.contains stored) ||
    accepted.any fun put => isNestedPath put.name name || isNestedPath name put.name

/-- The rows to put and the destinations that were refused, after one more group. -/
def publishGroup (tables : RefTables) (entries : List ResolvedCommand) (deletes : List Text)
    (state : List RefRow × List Text) (destination : Text) : List RefRow × List Text :=
  match acceptedOf entries destination with
  | none => state
  | some accepted =>
    if accepted.command.newOid = zeroOid then state
    else if namespaceConflict tables destination state.1 deletes then
      (state.1, destination :: state.2)
    else (state.1 ++ [⟨destination, accepted.command.newOid⟩], state.2)

def refuseEntry (refused : List Text) (entry : ResolvedCommand) : ResolvedCommand :=
  if entry.error = none && refused.contains entry.destination then
    { entry with error := some "ref namespace conflict" }
  else entry

/-- What is put, what is deleted and what every command is answered. -/
structure ServerPlan where
  puts : List RefRow
  deletes : List Text
  entries : List ResolvedCommand

def planServerRefs (tables : RefTables) (resolved : List ResolvedCommand) (attached : List Text) :
    ServerPlan :=
  let checked := (aliasedGroups resolved).map (checkEntry attached)
  let groups := (checked.map (·.destination)).eraseDups
  let deletes := groups.filter fun destination =>
    (acceptedOf checked destination).any fun accepted => accepted.command.newOid = zeroOid
  let ordered := groups.mergeSort fun left right => comparePaths right left ≠ .gt
  let (puts, refused) := ordered.foldl (publishGroup tables checked deletes) ([], [])
  { puts, deletes, entries := checked.map (refuseEntry refused) }

/-- `authenticate` stands for the checks of the objects that the new values reach. -/
def publishServerRefs (tables : RefTables) (commands : List ReceivePackCommand)
    (metadata : RefLogMetadata) (authenticate : List ResolvedCommand → Except GitError Unit) :
    Except GitError (RefTables × List ServerRefStatus) := do
  let resolved ← commands.mapM (resolveCommand tables)
  authenticate resolved
  let attached ← attachedNames tables
  let plan := planServerRefs tables resolved attached
  let statuses := plan.entries.map fun entry => { ref := entry.command.ref, error := entry.error }
  if 0 < plan.puts.length + plan.deletes.length then
    let (published, _) ← mutateRefs tables .repository
      { puts := plan.puts, deletes := plan.deletes, head := none, expected := none } metadata
    return (published, statuses)
  else return (tables, statuses)

end Kompjutr.Refs
