/-
  Kompjutr.Refs.Refspec

  Refspecs (`ops/refs/refspec-compile.ts`, `ops/refs/refspec-validation.ts`): what a fetch or a
  push maps the refs of the other side to.

  A `Map` is the list of its entries in the order in which they were inserted, and a `Set` the
  list of its members.
-/
import Kompjutr.Common.Streams
import Kompjutr.Refs.Name

namespace Kompjutr.Refs.Refspecs

open Objects (Text text shown isOid)

/-- `MAX_REFSPEC_MAPPINGS`. -/
def maxRefspecMappings : Nat := 1024

/-- `MAX_REFSPEC_EXPANDED_DESTINATIONS`. -/
def maxRefspecExpandedDestinations : Nat := 1024

-- Checks

def malformed (message : String) : GitError := { code := "EINVAL", message }

def invalidRef (label : String) : GitError :=
  { code := "EINVALIDREF", message := s!"{label} is not a canonical full ref" }

def canonicalRefText (value : Text) (label : String) : Except GitError Unit :=
  if (checkRefText value none).problem ≠ none then throw (invalidRef label) else pure ()

/-- `value.startsWith("refs/")`. -/
def isFull (value : Text) : Bool := (text "refs/").isPrefixOf value

def requireFullRef (value : Text) (label : String) : Except GitError Unit :=
  canonicalRefText value label >>= fun _ =>
  if !isFull value || !hasCanonicalRefSyntax value 0 then throw (invalidRef label) else pure ()

/-- The place of the only asterisk; -1 where there is none, and -2 where there are several. -/
def starIndex (value : Text) : Int :=
  match value.idxOf? 0x2a with
  | none => -1
  | some first => if (value.drop (first + 1)).contains 0x2a then -2 else first

def requirePattern (value : Text) (star : Int) (label : String) : Except GitError Unit :=
  canonicalRefText value label >>= fun _ =>
  if star < 0 then throw (malformed s!"{label} must contain exactly one wildcard")
  else if !isFull value || !hasCanonicalRefSyntaxWithWildcard value (some star.toNat) 0 value.length then
    throw (invalidRef label)
  else pure ()

-- Compiling

/-- `FetchRefspec` and `PushRefspec`; a deletion has no source. -/
structure Refspec where
  source : Option Text
  destination : Text
  force : Option Bool
  deriving DecidableEq

structure CompiledMapping where
  source : Option Text
  destination : Text
  sourceStar : Int
  destinationStar : Int
  oidSource : Bool
  force : Bool
  deriving DecidableEq

inductive Direction where
  | fetch | push
  deriving DecidableEq

def validateMappingCount (refspecs : List Refspec) : Except GitError Unit :=
  if refspecs.length = 0 then throw (malformed "refspec list must not be empty")
  else if refspecs.length > maxRefspecMappings then
    throw { code := "E2BIG", message := s!"refspec list exceeds {maxRefspecMappings} mappings" }
  else pure ()

/-- A mapping of a source that is a ref or a pattern. -/
def requireTransfer (source destination : Text) : Except GitError Unit :=
  if starIndex source = -1 ∧ starIndex destination = -1 then
    requireFullRef source "refspec source" >>= fun _ =>
    requireFullRef destination "refspec destination"
  else if starIndex source < 0 ∨ starIndex destination < 0 then
    throw (malformed "transfer refspecs require exactly one wildcard on each side")
  else
    requirePattern source (starIndex source) "refspec source pattern" >>= fun _ =>
    requirePattern destination (starIndex destination) "refspec destination pattern"

/-- A mapping of an object, or a deletion. -/
def requireObject (destination : Text) : Except GitError Unit :=
  if starIndex destination ≠ -1 then
    throw (malformed "deletion and object-id refspecs cannot contain wildcards")
  else requireFullRef destination "refspec destination"

def compileMapping (source : Option Text) (destination : Text) (force allowOid : Bool) :
    Except GitError CompiledMapping :=
  match source with
  | none =>
    requireObject destination >>= fun _ =>
    pure { source := none, destination, sourceStar := -1
           destinationStar := starIndex destination, oidSource := false, force }
  | some value =>
    if allowOid && isOid value then
      requireObject destination >>= fun _ =>
      pure { source, destination, sourceStar := -1, destinationStar := starIndex destination
             oidSource := true, force }
    else
      requireTransfer value destination >>= fun _ =>
      pure { source, destination, sourceStar := starIndex value
             destinationStar := starIndex destination, oidSource := false, force }

/-- One refspec of the loop of `compile`; the set is `exactDestinations`. -/
def compileOne (direction : Direction) (state : List CompiledMapping × List Text)
    (refspec : Refspec) : Except GitError (List CompiledMapping × List Text) :=
  if direction = .fetch ∧ refspec.source = none then
    throw (malformed "fetch refspec source must be a string")
  else if direction = .push ∧ refspec.source = none ∧ refspec.force ≠ none then
    throw (malformed "deletion refspec cannot set force")
  else
    compileMapping refspec.source refspec.destination (refspec.force.getD false)
      (direction = .push) >>= fun mapping =>
    if mapping.destinationStar < 0 then
      if mapping.destination ∈ state.2 then
        throw (malformed s!"duplicate exact refspec destination {shown mapping.destination}")
      else pure (state.1 ++ [mapping], mapping.destination :: state.2)
    else pure (state.1 ++ [mapping], state.2)

def compile (refspecs : List Refspec) (direction : Direction) :
    Except GitError (List CompiledMapping) :=
  validateMappingCount refspecs >>= fun _ =>
  refspecs.foldlM (compileOne direction) ([], []) >>= fun state =>
  pure state.1

-- The refs of the other side

structure RefspecSourceRef where
  name : Text
  oid : Text
  deriving DecidableEq

/-- The end of the name of a peeled tag. -/
def peeledMark : Text := text "^\x7b\x7d"

/-- Whether a row is `HEAD` or a peeled tag, once its name is checked. -/
def isMetadata (name : Text) : Except GitError Bool :=
  if peeledMark.isSuffixOf name then
    let base := name.take (name.length - 3)
    if !(text "refs/tags/").isPrefixOf base || !hasCanonicalRefSyntax base 0 then
      throw (corrupt s!"invalid peeled refspec source {shown name}")
    else pure true
  else if name = text "HEAD" then pure true
  else if !isFull name || !hasCanonicalRefSyntax name 0 then
    throw (corrupt s!"invalid refspec source {shown name}")
  else pure false

/-- The refs a mapping can take, and the names seen. -/
structure ActualRefs where
  actual : List (Text × Text)
  seen : List Text
  deriving DecidableEq

def addSourceRef (state : ActualRefs) (ref : RefspecSourceRef) : Except GitError ActualRefs :=
  if !isOid ref.oid then throw (corrupt "refspec source set contains a malformed row")
  else if (checkRefText ref.name none).problem ≠ none then
    throw (corrupt s!"invalid refspec source {shown ref.name}")
  else
    isMetadata ref.name >>= fun metadata =>
    if ref.name ∈ state.seen then throw (corrupt s!"duplicate refspec source {shown ref.name}")
    else pure
      { actual := if metadata then state.actual else state.actual ++ [(ref.name, ref.oid)]
        seen := ref.name :: state.seen }

def actualSourceRefs (refs : List RefspecSourceRef) : Except GitError (List (Text × Text)) :=
  refs.foldlM addSourceRef { actual := [], seen := [] } >>= fun state =>
  pure state.actual

-- Wildcards

structure WildcardCapture where
  start : Nat
  stop : Nat
  deriving DecidableEq

def wildcardCapture (source pattern : Text) (star : Nat) : Option WildcardCapture :=
  let suffixUnits := pattern.length - star - 1
  if source.length < star + suffixUnits then none
  else if (List.range star).any fun index => source[index]? ≠ pattern[index]? then none
  else if (List.range suffixUnits).any fun index =>
      source[source.length - suffixUnits + index]? ≠ pattern[star + 1 + index]? then none
  else some { start := star, stop := source.length - suffixUnits }

def substitute (pattern : Text) (star : Nat) (source : Text) (capture : WildcardCapture) : Text :=
  pattern.take star ++ (source.take capture.stop).drop capture.start ++ pattern.drop (star + 1)

-- Expanding

/-- `ExpansionBudget`, the destinations seen and the result. -/
structure Expansion (α : Type) where
  destinations : Nat
  seen : List Text
  result : List α
  deriving DecidableEq

def tooManyDestinations : GitError :=
  { code := "E2BIG"
    message := s!"expanded refspec set exceeds {maxRefspecExpandedDestinations} destinations" }

/-- `expansion.add()`, `destinationGuard` and `result.push`. -/
def Expansion.emit {α : Type} (state : Expansion α) (destination : Text) (entry : α) :
    Except GitError (Expansion α) :=
  if state.destinations ≥ maxRefspecExpandedDestinations then throw tooManyDestinations
  else if destination ∈ state.seen then
    throw (malformed s!"expanded refspecs have duplicate destination {shown destination}")
  else pure
    { destinations := state.destinations + 1, seen := state.seen ++ [destination]
      result := state.result ++ [entry] }

def requireExpandedDestination (value : Text) : Except GitError Unit :=
  if (checkRefText value none).problem ≠ none || !isFull value || !hasCanonicalRefSyntax value 0 then
    throw (invalidRef "expanded refspec destination")
  else pure ()

/-- One source under a pattern; `make` is the entry for a destination. -/
def Expansion.derive {α : Type} (mapping : CompiledMapping) (pattern : Text)
    (make : Text → Text → Text → α) (state : Expansion α) (source : Text × Text) :
    Except GitError (Expansion α) :=
  match wildcardCapture source.1 pattern mapping.sourceStar.toNat with
  | none => pure state
  | some capture =>
    if state.destinations ≥ maxRefspecExpandedDestinations then throw tooManyDestinations
    else
      let destination :=
        substitute mapping.destination mapping.destinationStar.toNat source.1 capture
      requireExpandedDestination destination >>= fun _ =>
      state.emit destination (make source.1 destination source.2)

structure ExpandedFetchRefspec where
  source : Text
  destination : Text
  oid : Text
  force : Bool
  deriving DecidableEq

structure ExpandedPushRefspec where
  source : Option Text
  destination : Text
  oid : Option Text
  force : Bool
  deriving DecidableEq

def refNotFound (side : String) (source : Text) : GitError :=
  { code := "EREFNOTFOUND", message := s!"{side} ref not found: {shown source}" }

/-- One mapping of `FetchCompiler.expand`. -/
def fetchMapping (sources : List (Text × Text)) (state : Expansion ExpandedFetchRefspec)
    (mapping : CompiledMapping) : Except GitError (Expansion ExpandedFetchRefspec) :=
  match mapping.source with
  | none => throw { code := "Error", message := "compiled fetch deletion is impossible" }
  | some source =>
    if mapping.sourceStar < 0 then
      match sources.lookup source with
      | none => throw (refNotFound "remote" source)
      | some oid => state.emit mapping.destination
          { source, destination := mapping.destination, oid, force := mapping.force }
    else
      sources.foldlM (Expansion.derive mapping source fun name destination oid =>
        { source := name, destination, oid, force := mapping.force }) state

/-- `FetchCompiler.expand`. -/
def expandFetch (mappings : List CompiledMapping) (refs : List RefspecSourceRef) :
    Except GitError (List ExpandedFetchRefspec) :=
  actualSourceRefs refs >>= fun sources =>
  mappings.foldlM (fetchMapping sources) { destinations := 0, seen := [], result := [] } >>= fun state =>
  pure (state.result.mergeSort fun left right =>
    Streams.comparePaths left.destination right.destination ≤ 0)

/-- One mapping of `PushCompiler.expand`. -/
def pushMapping (sources : List (Text × Text)) (state : Expansion ExpandedPushRefspec)
    (mapping : CompiledMapping) : Except GitError (Expansion ExpandedPushRefspec) :=
  match mapping.source with
  | none => state.emit mapping.destination
      { source := none, destination := mapping.destination, oid := none, force := false }
  | some source =>
    if mapping.oidSource then
      state.emit mapping.destination
        { source := some source, destination := mapping.destination, oid := some source
          force := mapping.force }
    else if mapping.sourceStar < 0 then
      match sources.lookup source with
      | none => throw (refNotFound "local" source)
      | some oid => state.emit mapping.destination
          { source := some source, destination := mapping.destination, oid := some oid
            force := mapping.force }
    else
      sources.foldlM (Expansion.derive mapping source fun name destination oid =>
        { source := some name, destination, oid := some oid, force := mapping.force }) state

/-- `PushCompiler.expand`. -/
def expandPush (mappings : List CompiledMapping) (refs : List RefspecSourceRef) :
    Except GitError (List ExpandedPushRefspec) :=
  actualSourceRefs refs >>= fun sources =>
  mappings.foldlM (pushMapping sources) { destinations := 0, seen := [], result := [] } >>= fun state =>
  pure (state.result.mergeSort fun left right =>
    Streams.comparePaths left.destination right.destination ≤ 0)

end Kompjutr.Refs.Refspecs
