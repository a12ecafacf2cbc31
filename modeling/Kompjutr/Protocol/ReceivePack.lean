/-
  Kompjutr.Protocol.ReceivePack

  A push on the wire: the request that a client writes (`protocol/receive-pack-request.ts`)
  and a server reads (`protocol/server/receive-request.ts`), and the report that the server
  writes (`protocol/server/response.ts`, `ops/server/receive.ts`) and the client reads
  (`protocol/receive-pack-status.ts`).
-/
import Kompjutr.Protocol.Advertisement

namespace Kompjutr.Protocol

open Objects (Text text shown isOid indexOf trim)
open Refs (checkRefText hasCanonicalRefSyntax)

def maxReceivePackCommands : Nat := 1024

def maxPushOptions : Nat := 64

def maxReceivePackStatusPackets : Nat := 16384

structure ReceivePackCommand where
  oldOid : Text
  newOid : Text
  ref : Text
  deriving DecidableEq

-- The request of a client

structure ReceivePackRequest where
  commands : List ReceivePackCommand
  advertised : List Text
  atomic : Bool
  pushOptions : List Text
  /-- The chunks of the pack. -/
  pack : Option (List (List UInt8))
  deriving DecidableEq

structure PreparedRequest where
  commands : List ReceivePackCommand
  commandFrames : List (List UInt8)
  optionFrames : List (List UInt8)
  hasNonDeletion : Bool
  sideband : Bool
  atomic : Bool
  pack : Option (List (List UInt8))
  deriving DecidableEq

def validateCommand (index : Nat) (command : ReceivePackCommand) : Except GitError Unit := do
  reject (!isOid command.oldOid || !isOid command.newOid)
    { code := "EINVAL", message := s!"receive-pack command {index} has an invalid object id" }
  reject ((checkRefText command.ref none).problem ≠ none || !(text "refs/").isPrefixOf command.ref ||
      command.ref.length = 5 || !hasCanonicalRefSyntax command.ref 0)
    { code := "EINVALIDREF"
      message := s!"invalid receive-pack destination {shown command.ref}" }

/-- The loop over the commands, with the destinations before them. -/
def validateCommands : Nat → List Text → List ReceivePackCommand → Except GitError Unit
  | _, _, [] => .ok ()
  | index, destinations, command :: commands => do
    validateCommand index command
    reject (destinations.contains command.ref)
      { code := "EINVAL"
        message := s!"duplicate receive-pack destination {shown command.ref}" }
    validateCommands (index + 1) (destinations ++ [command.ref]) commands

/-- The loop of `pushOptionBytes` from one index on. -/
def pushOptionBytes (index bytes : Nat) : Text → Except GitError Nat
  | [] => .ok bytes
  | unit :: rest =>
    let invalid : GitError :=
      { code := "EINVAL", message := s!"push option {index} contains invalid text" }
    let tooLong : GitError :=
      { code := "E2BIG", message := s!"push option {index} exceeds the pkt-line payload limit" }
    if unit = 0 || unit = 0x0a then .error invalid
    else if Utf8.isHigh unit then
      match rest with
      | [] => .error invalid
      | low :: rest =>
        if !Utf8.isLow low then .error invalid
        else if maxPktPayloadBytes < bytes + 4 then .error tooLong
        else pushOptionBytes index (bytes + 4) rest
    else if Utf8.isLow unit then .error invalid
    else if maxPktPayloadBytes < bytes + Refs.unitBytes unit then .error tooLong
    else pushOptionBytes index (bytes + Refs.unitBytes unit) rest

def validatePushOptions : Nat → List Text → Except GitError Unit
  | _, [] => .ok ()
  | index, option :: options => do
    let _ ← pushOptionBytes index 0 option
    validatePushOptions (index + 1) options

def requireCapability (advertised : List Text) (capability : Text) (needed : Bool) :
    Except GitError Unit :=
  reject (needed && !advertised.contains capability)
    { code := "EUNSUPPORTED"
      message := s!"remote does not support receive-pack {shown capability}" }

/-- The capabilities that a client asks for. -/
def requestedCapabilities (request : ReceivePackRequest) : List Text :=
  [text "report-status"] ++
    (if request.advertised.contains (text "side-band-64k") then [text "side-band-64k"] else []) ++
    (if request.atomic then [text "atomic"] else []) ++
    (if request.pushOptions = [] then [] else [text "push-options"])

/-- What follows the ref of the first command. -/
def commandSuffix (capabilities : List Text) (first : Bool) : Text :=
  if first then 0 :: joined capabilities else []

def commandText (capabilities : List Text) (first : Bool) (command : ReceivePackCommand) : Text :=
  command.oldOid ++ text " " ++ command.newOid ++ text " " ++ command.ref ++
    commandSuffix capabilities first ++ [0x0a]

def commandFrame (capabilities : List Text) (index : Nat) (command : ReceivePackCommand) :
    Except GitError (List UInt8) := do
  let suffix := commandSuffix capabilities (index = 0)
  let refBytes := (checkRefText command.ref none).bytes
  let payloadBytes := 40 + 1 + 40 + 1 + refBytes + (Utf8.encode suffix).length + 1
  reject (maxPktPayloadBytes < payloadBytes)
    { code := "E2BIG"
      message := s!"receive-pack command {index} exceeds the pkt-line payload limit" }
  pktText (commandText capabilities (index = 0) command)

def commandFrames (capabilities : List Text) :
    Nat → List ReceivePackCommand → Except GitError (List (List UInt8))
  | _, [] => .ok []
  | index, command :: commands => do
    let frame ← commandFrame capabilities index command
    let frames ← commandFrames capabilities (index + 1) commands
    return frame :: frames

def prepareRequest (request : ReceivePackRequest) : Except GitError PreparedRequest := do
  reject (request.commands = [])
    { code := "EINVAL", message := "receive-pack requires at least one command" }
  reject (maxReceivePackCommands < request.commands.length)
    { code := "E2BIG"
      message := s!"receive-pack command count exceeds {maxReceivePackCommands}" }
  reject (maxPushOptions < request.pushOptions.length)
    { code := "E2BIG", message := s!"push option count exceeds {maxPushOptions}" }
  validateCommands 0 [] request.commands
  validatePushOptions 0 request.pushOptions
  requireCapability request.advertised (text "report-status") true
  requireCapability request.advertised (text "delete-refs")
    (request.commands.any (·.newOid = zeroOid))
  requireCapability request.advertised (text "atomic") request.atomic
  requireCapability request.advertised (text "push-options") (request.pushOptions ≠ [])
  let capabilities := requestedCapabilities request
  let frames ← commandFrames capabilities 0 request.commands
  let options ← request.pushOptions.mapM pktText
  return {
    commands := request.commands
    commandFrames := frames
    optionFrames := options
    hasNonDeletion := request.commands.any (·.newOid ≠ zeroOid)
    sideband := capabilities.contains (text "side-band-64k")
    atomic := request.atomic
    pack := request.pack }

/-- What follows the commands and the options. -/
def packChunks (prepared : PreparedRequest) : List (List UInt8) :=
  if prepared.hasNonDeletion then prepared.pack.getD [] else []

def requestBody (prepared : PreparedRequest) : List (List UInt8) :=
  prepared.commandFrames ++ [flushPkt] ++
    (if prepared.optionFrames = [] then [] else prepared.optionFrames ++ [flushPkt]) ++
    packChunks prepared

-- The request at the server

/-- A decoder that is fatal and keeps a byte order mark. -/
def serverPacketText : Pkt → Except GitError Text
  | .line payload => do
    let line := Utf8.decode payload
    reject (Utf8.encode line ≠ payload) (corrupt "server request contains malformed UTF-8")
    let line := chomp line
    reject (line.contains 0x0a || line.contains 0x0d)
      (corrupt "server request contains multiple command lines")
    return line
  | _ => .error (corrupt "unexpected server request control packet")

def trimSpaces (line : Text) : Text :=
  ((line.dropWhile (· = 0x20)).reverse.dropWhile (· = 0x20)).reverse

def selectCapability (supported selected : List Text) (token : Text) :
    Except GitError (List Text) := do
  reject (token = [] || selected.contains token)
    (corrupt "server request contains duplicate or malformed capabilities")
  reject (!supported.contains token)
    { code := "EUNSUPPORTED", message := s!"unsupported server capability {shown token}" }
  return selected ++ [token]

def parseCapabilities (line : Text) (supported : List Text) : Except GitError (List Text) :=
  if line = [] then .ok []
  else ((trimSpaces line).splitOn 0x20).foldlM (selectCapability supported) []

structure ServerReceiveRequest where
  commands : List ReceivePackCommand
  reportStatus : Bool
  /-- At the first byte of the pack. -/
  reader : ByteReader
  deriving DecidableEq

/-- The fields of a command. -/
def parseCommand (refs : List Text) (line : Text) : Except GitError ReceivePackCommand :=
  match line.splitOn 0x20 with
  | [oldOid, newOid, ref] => do
    requireServerOid oldOid true
    requireServerOid newOid true
    reject (oldOid = zeroOid && newOid = zeroOid)
      (corrupt "receive command cannot both create and delete a ref")
    requireServerRef ref
    reject (refs.contains ref) (corrupt "duplicate receive destination")
    return { oldOid, newOid, ref }
  | _ => .error (corrupt "malformed receive command")

/-- A line without its capabilities, which only the first one has. -/
def takeReceiveCapabilities (commands : List ReceivePackCommand) (reportStatus : Bool)
    (line : Text) : Except GitError (Bool × Text) :=
  match indexOf [0] line with
  | none => .ok (reportStatus, line)
  | some nul => do
    reject (commands ≠ []) (corrupt "receive capabilities occur after the first command")
    let capabilities ← parseCapabilities (line.drop (nul + 1)) receiveServerCapabilities
    return (capabilities.contains (text "report-status"), line.take nul)

/-- The loop over the commands.  A frame takes bytes, so that the fuel is never used up. -/
def readCommands : Nat → List ReceivePackCommand → Bool → ByteReader →
    Except GitError ServerReceiveRequest
  | 0, _, _, _ => .error (corrupt "receive commands ended before flush")
  | fuel + 1, commands, reportStatus, reader => do
    let (packet, reader) ← readPkt reader
    match packet with
    | none => .error (corrupt "receive commands ended before flush")
    | some .flush => .ok { commands, reportStatus, reader }
    | some packet => do
      reject (commands.length = maxReceivePackCommands)
        { code := "E2BIG", message := "receive commands exceed the bounded publication set" }
      let line ← serverPacketText packet
      let (reportStatus, line) ← takeReceiveCapabilities commands reportStatus line
      let command ← parseCommand (commands.map (·.ref)) line
      readCommands fuel (commands ++ [command]) reportStatus reader

def parseReceivePackRequest (chunks : List (List UInt8)) : Except GitError ServerReceiveRequest :=
  readCommands (chunks.flatten.length + 1) [] false (.ofChunks chunks)

-- The report of the server

structure ServerRefStatus where
  ref : Text
  error : Option Text
  deriving DecidableEq

def requireStatusText (line : Text) : Except GitError Unit :=
  reject (line = [] || line.any fun unit => unit = 0 || unit = 0x0d || unit = 0x0a)
    { code := "EINVAL", message := "receive status must contain a single nonempty line" }

def encodeStatus (status : ServerRefStatus) : Except GitError (List UInt8) := do
  requireServerRef status.ref
  match status.error with
  | none => pktText (text "ok " ++ status.ref ++ [0x0a])
  | some error => do
    requireStatusText error
    pktText (text "ng " ++ status.ref ++ text " " ++ error ++ [0x0a])

def encodeReceiveStatus (unpack : Text) (statuses : List ServerRefStatus) :
    Except GitError (List (List UInt8)) := do
  requireStatusText unpack
  let header ← pktText (text "unpack " ++ unpack ++ [0x0a])
  let frames ← statuses.mapM encodeStatus
  return header :: frames ++ [flushPkt]

/-- The pieces of one chunk on the first band. -/
def bandPieces : Nat → List UInt8 → List (List UInt8)
  | 0, _ => []
  | fuel + 1, chunk =>
    if chunk = [] then []
    else chunk.take (maxPktPayloadBytes - 1) :: bandPieces fuel (chunk.drop (maxPktPayloadBytes - 1))

def encodePackResponse (pack : List (List UInt8)) (sideband : Bool) :
    Except GitError (List (List UInt8)) :=
  if sideband then do
    let frames ← (pack.flatMap fun chunk => bandPieces chunk.length chunk).mapM fun data =>
      pkt (1 :: data)
    return frames ++ [flushPkt]
  else .ok pack

/-- Why `publishServerRefs` refuses a command. -/
inductive Refusal where
  | unresolvedSymbolicRef
  | symbolicTargetOutside
  | inconsistentAlias
  | refnameConflict
  | staleOldOid
  | attachedBranch
  | namespaceConflict
  deriving DecidableEq

def Refusal.message : Refusal → Text
  | .unresolvedSymbolicRef => text "symbolic ref cannot be resolved"
  | .symbolicTargetOutside => text "symbolic ref target is outside served namespaces"
  | .inconsistentAlias => text "inconsistent aliased update"
  | .refnameConflict => text "refname conflict"
  | .staleOldOid => text "stale old object id"
  | .attachedBranch => text "branch is attached to a checkout"
  | .namespaceConflict => text "ref namespace conflict"

/-- How `receivePack` of a server ends when it reports. -/
inductive ReceiveOutcome where
  /-- The pack is sound; each command is published or refused. -/
  | published (refusal : ReceivePackCommand → Option Refusal)
  | unpackFailed

/-- What `receivePack` of a server reports. -/
def ReceiveOutcome.report (commands : List ReceivePackCommand) :
    ReceiveOutcome → Text × List ServerRefStatus
  | .published refusal =>
    (text "ok", commands.map fun command =>
      { ref := command.ref, error := (refusal command).map (·.message) })
  | .unpackFailed =>
    (text "invalid pack or incomplete object closure", commands.map fun command =>
      { ref := command.ref, error := some (text "unpacker error") })

-- The report at the client

structure ResolvedStatusLimits where
  retainedBytes : Option Nat
  inputBytes : Option Nat
  entries : Nat
  lineBytes : Nat
  deriving DecidableEq

/-- `resolvedStatusLimits` without overrides. -/
def ResolvedStatusLimits.default : ResolvedStatusLimits :=
  { retainedBytes := none
    inputBytes := none
    entries := maxReceivePackStatusPackets
    lineBytes := maxPktPayloadBytes }

/-- `StatusWireBudget`. -/
structure StatusWireBudget where
  entries : Nat
  inputBytes : Nat
  deriving DecidableEq

def statusTooLarge (part : String) : GitError :=
  { code := "E2BIG", message := s!"receive-pack {part} exceeds its bounded limit" }

def StatusWireBudget.packet (limits : ResolvedStatusLimits) (budget : StatusWireBudget) :
    Pkt → Except GitError StatusWireBudget
  | .line payload => do
    reject (limits.lineBytes < payload.length) (statusTooLarge "pkt-line text")
    reject (limits.entries ≤ budget.entries) (statusTooLarge "packet count")
    reject (limits.inputBytes.any fun limit => limit - budget.inputBytes < payload.length + 4)
      (statusTooLarge "input")
    return {
      entries := budget.entries + 1
      inputBytes := if limits.inputBytes.isSome then budget.inputBytes + (payload.length + 4)
        else budget.inputBytes }
  | _ => .ok budget

def decodeLine : Pkt → Except GitError Text
  | .line payload => do
    reject (payload = [])
      (corrupt "receive-pack status contains an unexpected pkt-line control")
    reject (payload.getLast? ≠ some 0x0a)
      (corrupt "receive-pack status line is missing its newline")
    match strictDecode payload.dropLast with
    | none => .error (corrupt "receive-pack status contains malformed UTF-8")
    | some line => do
      reject (line.contains 0 || line.contains 0x0d || line.contains 0x0a)
        (corrupt "receive-pack status contains invalid text")
      return line
  | _ => .error (corrupt "receive-pack status contains an unexpected pkt-line control")

inductive ParsedStatusLine where
  | unpack (result : Text)
  | ok (ref : Text)
  | ng (ref reason : Text)
  deriving DecidableEq

def parseStatusLine (line : Text) : Except GitError ParsedStatusLine :=
  if (text "unpack ").isPrefixOf line then do
    reject (line.drop 7 = []) (corrupt "malformed receive-pack unpack status")
    return .unpack (line.drop 7)
  else if (text "ok ").isPrefixOf line then do
    reject (line.drop 3 = [] || (line.drop 3).contains 0x20)
      (corrupt "malformed receive-pack ref status")
    return .ok (line.drop 3)
  else if (text "ng ").isPrefixOf line then
    match indexOf [0x20] (line.drop 3) with
    | none => .error (corrupt "malformed receive-pack rejection")
    | some length => do
      reject (length = 0 || 3 + length = line.length - 1) (corrupt "malformed receive-pack rejection")
      return .ng ((line.drop 3).take length) (line.drop (3 + length + 1))
  else .error (corrupt s!"unexpected receive-pack status: {shown (line.take 64)}")

/-- What `parseStatus` has read; a ref without an error was accepted. -/
structure StatusState where
  unpack : Option Text
  received : List ServerRefStatus
  deriving DecidableEq

def StatusState.addRef (expected : List Text) (state : StatusState) (status : ServerRefStatus) :
    Except GitError StatusState := do
  reject (state.unpack = none) (corrupt "receive-pack ref status precedes unpack status")
  reject (!expected.contains status.ref)
    (corrupt s!"unexpected receive-pack status for {shown status.ref}")
  reject ((state.received.map (·.ref)).contains status.ref)
    (corrupt s!"duplicate receive-pack status for {shown status.ref}")
  return { state with received := state.received ++ [status] }

def StatusState.add (expected : List Text) (state : StatusState) :
    ParsedStatusLine → Except GitError StatusState
  | .unpack result => do
    reject (state.unpack ≠ none) (corrupt "duplicate receive-pack unpack status")
    reject (state.received ≠ []) (corrupt "receive-pack unpack status is out of order")
    return { state with unpack := some result }
  | .ok ref => state.addRef expected { ref, error := none }
  | .ng ref reason => state.addRef expected { ref, error := some reason }

/-- The loop of `parseStatus` up to the flush. -/
def readStatuses (limits : ResolvedStatusLimits) (expected : List Text) :
    Nat → StatusWireBudget → StatusState → ByteReader → Except GitError (StatusState × ByteReader)
  | 0, _, _, _ => .error (corrupt "truncated receive-pack status")
  | fuel + 1, budget, state, reader => do
    let (packet, reader) ← readPkt reader
    match packet with
    | none => .error (corrupt "truncated receive-pack status")
    | some .flush => .ok (state, reader)
    | some packet => do
      let budget ← budget.packet limits packet
      let line ← decodeLine packet
      let status ← parseStatusLine line
      let state ← state.add expected status
      readStatuses limits expected fuel budget state reader

def requireStreamEnd (reader : ByteReader) (context : String) : Except GitError Unit := do
  let (trailing, _) ← readPkt reader
  reject (trailing ≠ none) (corrupt s!"receive-pack {context} has trailing packets")

/-- The message of one progress frame is decoded and handed to the callbacks. -/
def bandPayload (payload : List UInt8) : Except GitError (List (List UInt8)) :=
  match payload with
  | [] => .error (corrupt "receive-pack returned an invalid sideband frame")
  | band :: payload =>
    if band = 1 then .ok (if payload = [] then [] else [payload])
    else if band = 2 then
      match strictDecode payload with
      | none => .error (corrupt "receive-pack progress contains malformed UTF-8")
      | some _ => .ok []
    else if band = 3 then
      match strictDecode payload with
      | none => .error (corrupt "receive-pack fatal message contains malformed UTF-8")
      | some message =>
        .error {
          code := "EPUSHREJECTED"
          message := if trim message = [] then "receive-pack fatal error" else shown (trim message) }
    else .error (corrupt "receive-pack returned an invalid sideband")

/-- The loop of `sidebandBody` up to the flush. -/
def readBands (limits : ResolvedStatusLimits) :
    Nat → StatusWireBudget → ByteReader → Except GitError (List (List UInt8) × ByteReader)
  | 0, _, _ => .error (corrupt "truncated receive-pack sideband")
  | fuel + 1, budget, reader => do
    let (frame, reader) ← readPkt reader
    match frame with
    | none => .error (corrupt "truncated receive-pack sideband")
    | some .flush => .ok ([], reader)
    | some .delim => .error (corrupt "receive-pack returned an invalid sideband frame")
    | some (.line payload) => do
      let budget ← budget.packet limits (.line payload)
      let data ← bandPayload payload
      let (rest, reader) ← readBands limits fuel budget reader
      return (data ++ rest, reader)

/-- The chunks on the first band. -/
def sidebandBody (limits : ResolvedStatusLimits) (chunks : List (List UInt8)) :
    Except GitError (List (List UInt8)) := do
  let (body, reader) ← readBands limits (chunks.flatten.length + 1) { entries := 0, inputBytes := 0 }
    (.ofChunks chunks)
  requireStreamEnd reader "sideband"
  return body

structure ReceivePackStatus where
  unpack : Text
  refs : List ServerRefStatus
  deriving DecidableEq

def resultStringBytes (value : Text) : Nat := 48 + value.length * 2

/-- The bytes that the result is counted as. -/
def logicalResultBytes (unpack : Text) (refs : List ServerRefStatus) : Nat :=
  192 + resultStringBytes unpack + (refs.map fun status =>
    96 + (status.error.map resultStringBytes).getD 0 + resultStringBytes status.ref).sum

/-- The statuses in the order of the commands. -/
def statusesOf (received : List ServerRefStatus) (commands : List ReceivePackCommand) :
    Except GitError (List ServerRefStatus) :=
  commands.mapM fun command =>
    match received.find? (·.ref = command.ref) with
    | none => .error (corrupt s!"receive-pack omitted status for {shown command.ref}")
    | some status => .ok status

/-- The checks of a report that was read to its end. -/
def finishStatus (limits : ResolvedStatusLimits) (commands : List ReceivePackCommand)
    (atomic : Bool) (state : StatusState) : Except GitError ReceivePackStatus :=
  match state.unpack with
  | none => .error (corrupt "receive-pack omitted unpack status")
  | some unpack => do
    let refs ← statusesOf state.received commands
    reject (state.received.length ≠ commands.length)
      (corrupt "receive-pack returned an invalid status count")
    reject (unpack ≠ text "ok" && refs.any (·.error = none))
      (corrupt "receive-pack reported successful refs after unpack failure")
    reject (atomic && refs.any (·.error = none) && refs.any (·.error ≠ none))
      (corrupt "atomic receive-pack returned mixed ref statuses")
    reject (limits.retainedBytes.any fun limit => limit < logicalResultBytes unpack refs)
      { code := "E2BIG", message := "receive-pack result exceeds its bounded retained-state limit" }
    return { unpack, refs }

def parseStatus (limits : ResolvedStatusLimits) (commands : List ReceivePackCommand)
    (atomic : Bool) (chunks : List (List UInt8)) : Except GitError ReceivePackStatus := do
  let (state, reader) ← readStatuses limits (commands.map (·.ref)) (chunks.flatten.length + 1)
    { entries := 0, inputBytes := 0 } { unpack := none, received := [] } (.ofChunks chunks)
  requireStreamEnd reader "status"
  finishStatus limits commands atomic state

/-- `receivePack` of a client, from the body of the response on. -/
def readReport (limits : ResolvedStatusLimits) (prepared : PreparedRequest)
    (chunks : List (List UInt8)) : Except GitError ReceivePackStatus := do
  let body ← if prepared.sideband then sidebandBody limits chunks else .ok chunks
  parseStatus limits prepared.commands prepared.atomic body

end Kompjutr.Protocol
