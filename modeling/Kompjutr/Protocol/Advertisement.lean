/-
  Kompjutr.Protocol.Advertisement

  The refs that a server offers: how it writes them (`protocol/server/advertisement.ts`,
  `protocol/server/validation.ts`) and how a client reads them (`protocol/discovery.ts`).
-/
import Kompjutr.Protocol.PktLine
import Kompjutr.Refs.Table

namespace Kompjutr.Protocol

open Objects (Text text shown isOid indexOf)
open Refs (comparePaths checkRefText hasCanonicalRefSyntax hasCanonicalRefSyntaxWithWildcard)

inductive Service where
  | uploadPack
  | receivePack
  deriving DecidableEq

/-- The name of a service. -/
def Service.name : Service → Text
  | .uploadPack => text "git-upload-pack"
  | .receivePack => text "git-receive-pack"

def zeroOid : Text := List.replicate 40 0x30

-- The server

def maxRefNameBytes : Nat := 1024

def requireServerRef (ref : Text) : Except GitError Unit := do
  let checked := checkRefText ref (some maxRefNameBytes)
  reject (checked.problem = some .tooLong)
    { code := "E2BIG", message := "server ref exceeds stored ref-name capacity" }
  reject (checked.problem ≠ none ||
      !((text "refs/heads/").isPrefixOf ref || (text "refs/tags/").isPrefixOf ref) ||
      !hasCanonicalRefSyntax ref 0)
    { code := "EINVALIDREF", message := "server accepts only canonical heads and tags" }

def requireServerOid (oid : Text) (allowZero : Bool) : Except GitError Unit :=
  reject (!isOid oid || (!allowZero && oid = zeroOid))
    (corrupt "server request contains an invalid SHA-1 object id")

def receiveServerCapabilities : List Text :=
  [text "report-status", text "delete-refs", text "no-thin"]

def uploadServerCapabilities : List Text := [text "multi_ack_detailed", text "side-band-64k"]

structure ServerAdvertisedRef where
  name : Text
  oid : Text
  peeledOid : Option Text
  deriving DecidableEq

/-- The default branch; without an object id it is unborn. -/
structure ServerHead where
  ref : Text
  oid : Option Text
  deriving DecidableEq

@[ext]
structure ServerAdvertisement where
  refs : List ServerAdvertisedRef
  head : Option ServerHead
  deriving DecidableEq

def requireHead (head : ServerHead) : Except GitError Unit := do
  requireServerRef head.ref
  reject (!(text "refs/heads/").isPrefixOf head.ref)
    { code := "EINVALIDREF", message := "server HEAD must target a branch" }
  head.oid.forM fun oid => requireServerOid oid false

def symrefCapability (head : ServerHead) : Text := text "symref=HEAD:" ++ head.ref

/-- The capabilities of a service. -/
def capabilitiesOf (service : Service) (head : Option ServerHead) : List Text :=
  match service with
  | .uploadPack => uploadServerCapabilities ++ (head.map symrefCapability).toList
  | .receivePack => receiveServerCapabilities

/-- `capabilities.join(" ")`. -/
def joined (capabilities : List Text) : Text := (text " ").intercalate capabilities

/-- A row with the capabilities after it when it is the first one. -/
def rowText (capabilities : List Text) (first : Bool) (oid name : Text) : Text :=
  oid ++ text " " ++ name ++ (if first then 0 :: joined capabilities else []) ++ [0x0a]

def peeledSuffix : Text := text "^\x7b\x7d"

/-- The frame of a peeled tag, which only a fetch is told about. -/
def encodePeeled (service : Service) (ref : ServerAdvertisedRef) :
    Except GitError (List (List UInt8)) :=
  match ref.peeledOid with
  | none => .ok []
  | some peeled => do
    reject (!(text "refs/tags/").isPrefixOf ref.name)
      { code := "EINVAL", message := "only advertised tags may have peeled targets" }
    requireServerOid peeled false
    match service with
    | .uploadPack => do
      let frame ← pktText (rowText [] false peeled (ref.name ++ peeledSuffix))
      return [frame]
    | .receivePack => return []

/-- The frames of one ref. -/
def encodeRef (service : Service) (head : Option ServerHead) (first : Bool)
    (previous : Option Text) (ref : ServerAdvertisedRef) : Except GitError (List (List UInt8)) := do
  requireServerRef ref.name
  requireServerOid ref.oid false
  reject (previous.any fun previous => comparePaths previous ref.name ≠ .lt)
    { code := "EINVAL", message := "advertised refs must be unique and ordered by UTF-8 bytes" }
  reject (head.any fun head => ref.name = head.ref && some ref.oid ≠ head.oid)
    { code := "EINVAL", message := "advertised HEAD differs from its branch" }
  let frame ← pktText (rowText (capabilitiesOf service head) first ref.oid ref.name)
  let peeled ← encodePeeled service ref
  return frame :: peeled

/-- The loop over the refs. -/
def encodeRefs (service : Service) (head : Option ServerHead) (first : Bool) :
    Option Text → List ServerAdvertisedRef → Except GitError (List (List UInt8))
  | _, [] => do
    if first then
      let frame ← pktText (rowText (capabilitiesOf service head) true zeroOid
        (text "capabilities" ++ peeledSuffix))
      return [frame]
    else return []
  | previous, ref :: refs => do
    let frames ← encodeRef service head first previous ref
    let rest ← encodeRefs service head false (some ref.name) refs
    return frames ++ rest

/-- The object id of a HEAD that a fetch is told about. -/
def headRow (service : Service) (head : Option ServerHead) : Option Text :=
  match service with
  | .uploadPack => head.bind (·.oid)
  | .receivePack => none

def encodeHead (service : Service) (head : Option ServerHead) :
    Except GitError (List (List UInt8)) :=
  match headRow service head with
  | none => .ok []
  | some oid => do
    let frame ← pktText (rowText (capabilitiesOf service head) true oid (text "HEAD"))
    return [frame]

def encodeAdvertisement (service : Service) (advertisement : ServerAdvertisement) :
    Except GitError (List (List UInt8)) := do
  let head := advertisement.head
  head.forM requireHead
  let header ← pktText (text "# service=" ++ service.name ++ [0x0a])
  let headFrames ← encodeHead service head
  let refFrames ← encodeRefs service head (headRow service head).isNone none advertisement.refs
  return header :: flushPkt :: headFrames ++ refFrames ++ [flushPkt]

-- The client

/-- `MAX_PROTOCOL_NEGOTIATION_ENTRIES`. -/
def maxProtocolNegotiationEntries : Nat := 16384

structure RemoteRef where
  name : Text
  oid : Text
  deriving DecidableEq

structure Advertisement where
  refs : List RemoteRef
  capabilities : List Text
  headRef : Option Text
  deriving DecidableEq

/-- What `parseAdvertisement` has read. -/
structure AdvertisementState where
  refs : List RemoteRef
  capabilities : List Text
  refNames : List Text
  headRef : Option Text
  headOid : Option Text
  first : Bool
  entries : Nat
  deriving DecidableEq

def AdvertisementState.initial : AdvertisementState :=
  { refs := [], capabilities := [], refNames := [], headRef := none, headOid := none, first := true
    entries := 0 }

/-- `decode` of a decoder that is fatal: the bytes are those of the text they decode to. -/
def strictDecode (bytes : List UInt8) : Option Text :=
  let bytes := if Utf8.byteOrderMark.isPrefixOf bytes then bytes.drop 3 else bytes
  if Utf8.encode (Utf8.decode bytes) = bytes then some (Utf8.decode bytes) else none

/-- Without the newline at its end. -/
def chomp (line : Text) : Text := if line.getLast? = some 0x0a then line.dropLast else line

def countEntry (limit : Nat) (state : AdvertisementState) :
    Except GitError AdvertisementState := do
  reject (limit ≤ state.entries)
    { code := "E2BIG", message := "protocol entry count exceeds its bounded limit" }
  return { state with entries := state.entries + 1 }

/-- The HEAD that a capability names, with the one named before it. -/
def capabilityHead (headRef : Option Text) (capability : Text) : Except GitError (Option Text) :=
  if (text "symref=HEAD").isPrefixOf capability then do
    let malformed := corrupt "ref advertisement has a malformed HEAD symref"
    reject (!(text "symref=HEAD:").isPrefixOf capability) malformed
    let symref := capability.drop 12
    reject ((checkRefText symref none).problem ≠ none || !(text "refs/").isPrefixOf symref ||
      !hasCanonicalRefSyntax symref 0) malformed
    reject (headRef.any (· ≠ symref))
      (corrupt "ref advertisement has conflicting HEAD symrefs")
    return some symref
  else .ok headRef

def addCapability (limit : Nat) (state : AdvertisementState) (capability : Text) :
    Except GitError AdvertisementState := do
  let state ← countEntry limit state
  reject (capability.contains 0) (corrupt "ref advertisement has malformed capabilities")
  let headRef ← capabilityHead state.headRef capability
  return { state with
    headRef
    capabilities :=
      if state.capabilities.contains capability then state.capabilities
      else state.capabilities ++ [capability] }

/-- The tokens between spaces. -/
def tokens (line : Text) : List Text := (line.splitOn 0x20).filter (· ≠ [])

/-- The capabilities of the first row, which are taken off it. -/
def takeCapabilities (limit : Nat) (state : AdvertisementState) (line : Text) :
    Except GitError (AdvertisementState × Text) :=
  if state.first then
    match indexOf [0] line with
    | none => .ok ({ state with first := false }, line)
    | some nul => do
      let state ← (tokens (line.drop (nul + 1))).foldlM (addCapability limit)
        { state with first := false }
      return (state, line.take nul)
  else .ok (state, line)

def serviceError (service : Service) (message : Text) : GitError :=
  { code := if service = .receivePack then "EPUSHREJECTED" else "EFETCHFAIL"
    message := shown message }

def advertisedRefName (name : Text) : Bool :=
  if name = text "HEAD" then true
  else if peeledSuffix.isSuffixOf name then
    (text "refs/tags/").isPrefixOf name &&
      hasCanonicalRefSyntaxWithWildcard name none 0 (name.length - 3)
  else (text "refs/").isPrefixOf name && hasCanonicalRefSyntax name 0

/-- A row that is not the one of an empty repository. -/
def addRef (limit : Nat) (state : AdvertisementState) (oid name : Text) :
    Except GitError AdvertisementState := do
  let state ← countEntry limit state
  reject ((checkRefText name none).problem ≠ none || !advertisedRefName name)
    (corrupt s!"ref advertisement has an invalid ref name {shown name}")
  return { state with
    refs := state.refs ++ [{ name, oid }]
    headOid := if name = text "HEAD" then some oid else state.headOid }

/-- The row after the capabilities were taken off. -/
def addRow (service : Service) (limit : Nat) (state : AdvertisementState) (line : Text) :
    Except GitError AdvertisementState := do
  reject ((text "ERR ").isPrefixOf line) (serviceError service (line.drop 4))
  match indexOf [0x20] line with
  | none => throw (corrupt "ref advertisement has a malformed row")
  | some space => do
    let oid := line.take space
    let name := line.drop (space + 1)
    reject (!isOid oid) (corrupt s!"ref advertisement has an invalid oid for {shown name}")
    reject (state.refNames.contains name)
      (corrupt s!"ref advertisement has duplicate row {shown name}")
    let state := { state with refNames := state.refNames ++ [name] }
    -- an empty repository advertises only the capabilities line
    if oid = zeroOid && name = text "capabilities" ++ peeledSuffix then return state
    else addRef limit state oid name

/-- One line of the advertisement. -/
def addLine (service : Service) (limit : Nat) (state : AdvertisementState)
    (payload : List UInt8) : Except GitError AdvertisementState :=
  match strictDecode payload with
  | none => throw (corrupt "ref advertisement contains malformed UTF-8")
  | some line => do
    let (state, line) ← takeCapabilities limit state (chomp line)
    addRow service limit state line

/-- The loop over the frames.  Each frame takes bytes, so that more fuel than there are bytes is
    never used up. -/
def readRows (service : Service) (limit : Nat) :
    Nat → AdvertisementState → ByteReader → Except GitError AdvertisementState
  | 0, _, _ => throw (corrupt "truncated ref advertisement")
  | fuel + 1, state, reader => do
    let (frame, reader) ← readPkt reader
    match frame with
    | none => throw (corrupt "truncated ref advertisement")
    | some .flush => return state
    | some .delim =>
      throw (corrupt "ref advertisement contains an unexpected pkt-line control")
    | some (.line payload) => do
      let state ← addLine service limit state payload
      readRows service limit fuel state reader

def parseAdvertisement (service : Service) (limit : Nat) (reader : ByteReader) :
    Except GitError Advertisement := do
  let state ← readRows service limit (reader.bytes.length + 1) .initial reader
  reject ((state.headRef.bind fun headRef =>
      (state.refs.find? (·.name = headRef)).map (·.oid)).any fun target =>
        state.headOid.any (target ≠ ·))
    (corrupt "advertised HEAD does not match its symref target")
  return { refs := state.refs, capabilities := state.capabilities, headRef := state.headRef }

/-- The text of the header frame. -/
def headerText : Option Pkt → Text
  | some (.line payload) => chomp (Utf8.textDecode payload)
  | _ => []

/-- `discover`, from the body of the response on. -/
def readAdvertisement (service : Service) (limit : Nat) (chunks : List (List UInt8)) :
    Except GitError Advertisement := do
  let (first, reader) ← readPkt (.ofChunks chunks)
  reject (first = none) (corrupt "empty ref advertisement")
  reject ((text "ERR ").isPrefixOf (headerText first))
    (serviceError service ((headerText first).drop 4))
  reject (!(text "# service=").isPrefixOf (headerText first))
    (corrupt "not a smart HTTP ref advertisement")
  let (afterHeader, reader) ← readPkt reader
  reject (afterHeader ≠ some .flush) (corrupt "malformed ref advertisement header")
  parseAdvertisement service limit reader

end Kompjutr.Protocol
