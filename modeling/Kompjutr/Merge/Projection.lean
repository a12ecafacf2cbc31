/-
  Kompjutr.Merge.Projection

  How the logical conflicts of an integration become paths of the index and the worktree
  (`ops/merge/merge-projection.ts`).

  Entries keep their path, except for two kinds of conflict: of a file beside a symlink the file
  moves, and of a file beside a directory the file moves and the directory's entries follow it.
  What moves gets the path of its conflict, the label of its side, and a number where that path is
  reserved.
-/
import Kompjutr.Objects.Tree

namespace Kompjutr.Projection

open Objects (Text text shown MODE_FILE MODE_EXECUTABLE MODE_SYMLINK)
open Utf8 (isHigh isLow)

/-- `MAX_MERGE_RELOCATION_ATTEMPTS`. -/
def maxMergeRelocationAttempts : Nat := 1000

/-- `MAX_MERGE_PATH_BYTES`. -/
def maxMergePathBytes : Nat := 2200

-- Entries

structure IntegrationIdentity where
  mode : Text
  oid : Text
  deriving DecidableEq

structure IntegrationStages where
  base : Option IntegrationIdentity
  current : Option IntegrationIdentity
  incoming : Option IntegrationIdentity
  deriving DecidableEq

inductive Side where
  | current | incoming
  deriving DecidableEq

def Side.other : Side → Side
  | .current => .incoming
  | .incoming => .current

def IntegrationStages.side (stages : IntegrationStages) : Side → Option IntegrationIdentity
  | .current => stages.current
  | .incoming => stages.incoming

inductive ConflictKind where
  | addAdd | modifyDelete | mode | symlink | gitlink | fileDirectory | content | binary
  deriving DecidableEq

variable {Content : Type}

structure CleanEntry (Content : Type) where
  path : Text
  result : Option IntegrationIdentity
  content : Option Content
  deriving DecidableEq

structure ConflictEntry (Content : Type) where
  path : Text
  conflict : ConflictKind
  stages : IntegrationStages
  resultMode : Option Text
  content : Option Content
  deriving DecidableEq

inductive IntegrationEntry (Content : Type) where
  | clean (entry : CleanEntry Content)
  | conflict (entry : ConflictEntry Content)
  deriving DecidableEq

def IntegrationEntry.path : IntegrationEntry Content → Text
  | .clean entry => entry.path
  | .conflict entry => entry.path

inductive MergePathPurpose where
  | primary | currentRelocation | incomingRelocation
  deriving DecidableEq

def relocationOf : Side → MergePathPurpose
  | .current => .currentRelocation
  | .incoming => .incomingRelocation

structure ProjectedMergeEntry (Content : Type) where
  path : Text
  logicalPath : Text
  purpose : MergePathPurpose
  stageZero : Option IntegrationIdentity
  stages : Option IntegrationStages
  worktree : Option IntegrationIdentity
  content : Option Content
  deriving DecidableEq

structure MergeProjectionOptions where
  currentLabel : Text
  incomingLabel : Text
  deriving DecidableEq

def MergeProjectionOptions.label (options : MergeProjectionOptions) : Side → Text
  | .current => options.currentLabel
  | .incoming => options.incomingLabel

/-- The paths that are taken: those of the plan and of earlier relocations, and what is tracked. -/
structure MergeReservations where
  occupied : List Text
  tracked : Text → Bool

def MergeReservations.has (reserved : MergeReservations) (path : Text) : Bool :=
  reserved.occupied.contains path || reserved.tracked path

def MergeReservations.add (reserved : MergeReservations) (path : Text) : MergeReservations :=
  { reserved with occupied := path :: reserved.occupied }

-- Relocations

/-- A label as part of a name.  A high surrogate at the end of a label is joined with the missing
    unit behind it. -/
def safeLabelUnits : Text → Except GitError Text
  | [] => .ok []
  | u :: rest =>
    if u = 0 || u = 0x0a || u = 0x0d then
      .error { code := "EINVAL", message := "merge relocation label contains a control byte" }
    else if isHigh u then
      match rest with
      | [] => .ok (u :: text "undefined")
      | low :: rest =>
        if isLow low then safeLabelUnits rest >>= fun out => .ok (u :: low :: out)
        else
          .error { code := "EINVAL", message := "merge relocation label contains an unpaired surrogate" }
    else if isLow u then
      .error { code := "EINVAL", message := "merge relocation label contains an unpaired surrogate" }
    else safeLabelUnits rest >>= fun out => .ok ((if u = 0x2f then 0x5f else u) :: out)

def safeRelocationLabel (label : Text) : Except GitError Text :=
  if label = [] then .error { code := "EINVAL", message := "merge relocation label is empty" }
  else safeLabelUnits label

def invalidPath (label : String) : GitError := corrupt s!"merge {label} is invalid"

/-- The check of a finished segment. -/
def invalidSegment (segment : Text) : Bool :=
  segment = [] || segment = text "." || segment = text ".."

/-- The loop of `validateMergePath`, with the segment that is being read. -/
def validateUnits (label : String) (segment : Text) (bytes : Nat) : Text → Except GitError Nat
  | [] => if invalidSegment segment then .error (invalidPath label) else .ok bytes
  | u :: rest =>
    let checked := fun counted (next : Except GitError Nat) =>
      if maxMergePathBytes < counted then
        .error { code := "E2BIG", message := s!"merge {label} exceeds {maxMergePathBytes} UTF-8 bytes" }
      else next
    if u = 0 then .error (invalidPath label)
    else if u = 0x2f then
      if invalidSegment segment then .error (invalidPath label)
      else checked (bytes + 1) (validateUnits label [] (bytes + 1) rest)
    else if isHigh u then
      match rest with
      | [] => checked (bytes + 4) (validateUnits label (segment ++ [u]) (bytes + 4) [])
      | low :: rest =>
        if isLow low then
          checked (bytes + 4) (validateUnits label (segment ++ [u, low]) (bytes + 4) rest)
        else .error (corrupt s!"merge {label} is not canonical UTF-16")
    else if isLow u then .error (corrupt s!"merge {label} is not canonical UTF-16")
    else
      let counted := bytes + if u < 0x80 then 1 else if u < 0x800 then 2 else 3
      checked counted (validateUnits label (segment ++ [u]) counted rest)

def validateMergePath (path : Text) (label : String) : Except GitError Nat :=
  if path = [] || path.head? = some 0x2f then .error (invalidPath label)
  else validateUnits label [] 0 path

def numberText (n : Nat) : Text := (Nat.toDigits 10 n).map fun digit => UInt16.ofNat digit.toNat

/-- The path that is tried in one attempt. -/
def relocationCandidate (base : Text) (attempt : Nat) : Text :=
  if attempt = 0 then base else base ++ 0x5f :: numberText (attempt - 1)

/-- The loop of `uniqueRelocation`, from an attempt on with some attempts left. -/
def relocationFrom (logicalPath base : Text) (reserved : MergeReservations) (untracked : Text → Bool)
    (attempt : Nat) : Nat → Except GitError Text
  | 0 =>
    .error { code := "E2BIG"
             message := s!"merge relocation for {shown logicalPath} exceeds {maxMergeRelocationAttempts} attempts" }
  | left + 1 =>
    let candidate := relocationCandidate base attempt
    validateMergePath candidate "relocation path" >>= fun _ =>
    if reserved.has candidate then
      relocationFrom logicalPath base reserved untracked (attempt + 1) left
    else if untracked candidate then
      .error { code := "ECHECKOUTFAIL"
               message := s!"untracked working tree path would be overwritten by merge: {shown candidate}" }
    else .ok candidate

/-- `uniqueRelocation`, with the reservations that it leaves. -/
def uniqueRelocation (logicalPath label : Text) (reserved : MergeReservations)
    (untracked : Text → Bool) : Except GitError (Text × MergeReservations) :=
  safeRelocationLabel label >>= fun safe =>
  relocationFrom logicalPath (logicalPath ++ 0x7e :: safe) reserved untracked 0
    maxMergeRelocationAttempts >>= fun candidate =>
  .ok (candidate, reserved.add candidate)

-- Projection

def selectedWorktree (stages : IntegrationStages) (resultMode : Option Text) :
    Option IntegrationIdentity :=
  match stages.current.orElse fun _ => stages.incoming, resultMode with
  | some selected, some mode => some { mode, oid := selected.oid }
  | selected, _ => selected

def ordinary : IntegrationEntry Content → ProjectedMergeEntry Content
  | .clean entry =>
    { path := entry.path, logicalPath := entry.path, purpose := .primary, stageZero := entry.result
      stages := none, worktree := entry.result, content := entry.content }
  | .conflict entry =>
    { path := entry.path, logicalPath := entry.path, purpose := .primary, stageZero := none
      stages := some entry.stages, worktree := selectedWorktree entry.stages entry.resultMode
      content := entry.content }

def sideStages (entry : ConflictEntry Content) (side : Side) : IntegrationStages :=
  { base := entry.stages.base
    current := if side = .current then entry.stages.current else none
    incoming := if side = .incoming then entry.stages.incoming else none }

inductive MaterializableModeClass where
  | regular | symlink
  deriving DecidableEq

def materializableModeClass : Option IntegrationIdentity → Option MaterializableModeClass
  | none => none
  | some identity =>
    if identity.mode = MODE_FILE ∨ identity.mode = MODE_EXECUTABLE then some .regular
    else if identity.mode = MODE_SYMLINK then some .symlink
    else none

/-- A stage, where its mode is of a class. -/
def ofModeClass (identity : Option IntegrationIdentity) (modeClass : MaterializableModeClass) :
    Option IntegrationIdentity :=
  if materializableModeClass identity = some modeClass then identity else none

def stagesForModeClass (entry : ConflictEntry Content) (modeClass : MaterializableModeClass) :
    IntegrationStages :=
  { base := ofModeClass entry.stages.base modeClass
    current := ofModeClass entry.stages.current modeClass
    incoming := ofModeClass entry.stages.incoming modeClass }

/-- The side with the file, where the other side has a symlink. -/
def distinctMaterializableSides (entry : ConflictEntry Content) : Option Side :=
  if entry.conflict ≠ .addAdd ∧ entry.conflict ≠ .symlink then none
  else
    match materializableModeClass entry.stages.current,
        materializableModeClass entry.stages.incoming with
    | some .regular, some .symlink => some .current
    | some .symlink, some .regular => some .incoming
    | _, _ => none

def projectDistinctMaterializableConflict (entry : ConflictEntry Content) (regularSide : Side)
    (options : MergeProjectionOptions) (reserved : MergeReservations) (untracked : Text → Bool) :
    Except GitError (List (ProjectedMergeEntry Content) × MergeReservations) :=
  match entry.stages.side regularSide, entry.stages.side regularSide.other with
  | some regular, some symlink =>
    uniqueRelocation entry.path (options.label regularSide) reserved untracked >>=
      fun (path, reserved) =>
    .ok ([{ path := entry.path, logicalPath := entry.path, purpose := .primary, stageZero := none
            stages := some (stagesForModeClass entry .symlink), worktree := some symlink
            content := none },
          { path, logicalPath := entry.path, purpose := relocationOf regularSide, stageZero := none
            stages := some (stagesForModeClass entry .regular), worktree := some regular
            content := none }], reserved)
  | _, _ => .error (corrupt s!"distinct-type conflict {shown entry.path} lost one side")

/-- An entry of the directory that stands beside a file. -/
def descendant (entry : ConflictEntry Content) (directorySide : Side) : ProjectedMergeEntry Content :=
  match entry.stages.base, entry.stages.side directorySide, entry.stages.side directorySide.other with
  | none, some identity, none =>
    { path := entry.path, logicalPath := entry.path, purpose := .primary
      stageZero := some identity, stages := none, worktree := some identity, content := none }
  | _, _, _ => ordinary (.conflict entry)

/-- A file/directory conflict whose entries are being read. -/
structure FileGroup where
  path : Text
  directorySide : Side
  deriving DecidableEq

def FileGroup.holds (group : FileGroup) (path : Text) : Bool := (group.path ++ [0x2f]).isPrefixOf path

/-- The root of a file/directory conflict. -/
def projectFileRoot (entry : ConflictEntry Content) (options : MergeProjectionOptions)
    (reserved : MergeReservations) (untracked : Text → Bool) :
    Except GitError (ProjectedMergeEntry Content × MergeReservations × FileGroup) :=
  if entry.stages.current = none ↔ entry.stages.incoming = none then
    .error (corrupt s!"file/directory root {shown entry.path} has no unique file side")
  else
    let fileSide : Side := if entry.stages.current = none then .incoming else .current
    match entry.stages.side fileSide with
    | none => .error (corrupt s!"file/directory root {shown entry.path} lost its file identity")
    | some identity =>
      uniqueRelocation entry.path (options.label fileSide) reserved untracked >>=
        fun (path, reserved) =>
      .ok ({ path, logicalPath := entry.path, purpose := relocationOf fileSide, stageZero := none
             stages := some (sideStages entry fileSide), worktree := some identity
             content := none }, reserved, { path := entry.path, directorySide := fileSide.other })

/-- What the loop carries from entry to entry. -/
structure ProjectionState where
  reserved : MergeReservations
  group : Option FileGroup

/-- An entry that does not belong to a group. -/
def projectAlone (options : MergeProjectionOptions) (untracked : Text → Bool)
    (reserved : MergeReservations) :
    IntegrationEntry Content → Except GitError (List (ProjectedMergeEntry Content) × ProjectionState)
  | .clean entry => .ok ([ordinary (.clean entry)], { reserved, group := none })
  | .conflict entry =>
    match distinctMaterializableSides entry with
    | some regularSide =>
      projectDistinctMaterializableConflict entry regularSide options reserved untracked >>=
        fun (projected, reserved) => .ok (projected, { reserved, group := none })
    | none =>
      if entry.conflict = .fileDirectory then
        projectFileRoot entry options reserved untracked >>= fun (projected, reserved, group) =>
        .ok ([projected], { reserved, group := some group })
      else .ok ([ordinary (.conflict entry)], { reserved, group := none })

/-- An entry below the path of a group. -/
def projectChild (group : FileGroup) :
    IntegrationEntry Content → Except GitError (ProjectedMergeEntry Content)
  | .clean _ => .error (corrupt s!"file/directory group {shown group.path} has a non-conflict child")
  | .conflict entry =>
    if entry.conflict = .fileDirectory then .ok (descendant entry group.directorySide)
    else .error (corrupt s!"file/directory group {shown group.path} has a non-conflict child")

def projectEntry (options : MergeProjectionOptions) (untracked : Text → Bool)
    (state : ProjectionState) (entry : IntegrationEntry Content) :
    Except GitError (List (ProjectedMergeEntry Content) × ProjectionState) :=
  match state.group with
  | some group =>
    if group.holds entry.path then
      projectChild group entry >>= fun projected => .ok ([projected], state)
    else projectAlone options untracked state.reserved entry
  | none => projectAlone options untracked state.reserved entry

def projectFrom (options : MergeProjectionOptions) (untracked : Text → Bool) :
    ProjectionState → List (IntegrationEntry Content) →
      Except GitError (List (ProjectedMergeEntry Content))
  | _, [] => .ok []
  | state, entry :: entries =>
    projectEntry options untracked state entry >>= fun (projected, state) =>
    projectFrom options untracked state entries >>= fun rest => .ok (projected ++ rest)

def projectEntries (entries : List (IntegrationEntry Content)) (options : MergeProjectionOptions)
    (reserved : MergeReservations) (untracked : Text → Bool) :
    Except GitError (List (ProjectedMergeEntry Content)) :=
  projectFrom options untracked { reserved, group := none } entries

/-- What is occupied before a relocation: every path of the plan, and what is tracked. -/
def planReservations (entries : List (IntegrationEntry Content)) (tracked : Text → Bool) :
    MergeReservations := { occupied := entries.map IntegrationEntry.path, tracked }

/-- `projectMergePlanOwned`, up to the storage of the projected plan: it is keyed by path, so a path
    that is projected twice is refused. -/
def projectMergePlanOwned (entries : List (IntegrationEntry Content))
    (options : MergeProjectionOptions) (tracked untracked : Text → Bool) :
    Except GitError (List (ProjectedMergeEntry Content)) :=
  projectEntries entries options (planReservations entries tracked) untracked >>= fun projected =>
  if (projected.map ProjectedMergeEntry.path).Nodup then .ok projected
  else .error (corrupt "merge projection emitted duplicate path")

end Kompjutr.Projection
