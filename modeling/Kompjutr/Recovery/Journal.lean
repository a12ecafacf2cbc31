/-
  Kompjutr.Recovery.Journal

  The recovery journal of a disk workspace (`packages/local/src/recovery/journal.ts`): framed
  records that are appended one by one, and the reader that takes a torn tail for the end.

  A frame is the length of its payload, the payload as JSON, and the digest of the payload.  The
  file is its bytes, which a writer only appends to.
-/
import Kompjutr.Common.JsonTree
import Kompjutr.Lib.Utf8Fatal

namespace Kompjutr.Recovery

open Json (Tree Member quoted objectText arrayText utf8ByteLength)
open Objects (Text text formatNumber)

/-- `CHECKSUM_BYTES`. -/
def checksumBytes : Nat := 32

/-- `FRAME_HEADER_BYTES`. -/
def frameHeaderBytes : Nat := 4

/-- `MAX_FRAME_BYTES`. -/
def maxFrameLimit : Nat := 16 * 1024 * 1024

/-- `MAX_JOURNAL_RECORDS`. -/
def maxJournalRecords : Nat := 100000

/-- `MAX_RECOVERY_ACTIONS`. -/
def maxRecoveryActions : Nat := 100000

/-- A `LocalError`. -/
structure LocalError where
  code : String
  message : String
  deriving DecidableEq

def corruptJournal (message : String) : LocalError := { code := "ECORRUPT", message }

def tooBig (message : String) : LocalError := { code := "E2BIG", message }

/-- The digest of the host's crypto module. -/
structure Sha256 where
  digest : List UInt8 → List UInt8
  length_digest : ∀ payload, (digest payload).length = checksumBytes

-- Records

structure InitialRecord where
  transaction : Text
  baseGeneration : Int
  targetGeneration : Int
  deriving DecidableEq

structure ProbeRecord where
  parent : Text
  origin : Text
  destination : Text
  deriving DecidableEq

structure TouchRecord where
  path : Text
  backup : Option Text
  deriving DecidableEq

structure TemporaryRecord where
  parent : Text
  name : Text
  deriving DecidableEq

/-- An `AppendRecord`: a record without its sequence number, which the writer gives it. -/
inductive AppendRecord where
  | initial (record : InitialRecord)
  | probe (record : ProbeRecord)
  | application (touches : List TouchRecord)
  | temporary (record : TemporaryRecord)
  deriving DecidableEq

/-- A `JournalRecord`. -/
structure JournalRecord where
  sequence : Nat
  record : AppendRecord
  deriving DecidableEq

structure RecoveryManifest where
  initial : InitialRecord
  probes : List ProbeRecord
  touches : List TouchRecord
  temporaries : List TemporaryRecord
  deriving DecidableEq

-- The manifest

/-- `requireUnique`. -/
def requireUnique (values : List Text) (label : String) : Except LocalError Unit :=
  if values.Nodup then .ok () else .error (corruptJournal s!"{label} contains duplicates")

/-- `[a-f0-9-]`. -/
def isTokenUnit (unit : UInt16) : Bool :=
  (0x61 ≤ unit && unit ≤ 0x66) || (0x30 ≤ unit && unit ≤ 0x39) || unit = 0x2d

/-- `[a-f0-9-]{16,64}`. -/
def isToken (value : Text) : Bool :=
  16 ≤ value.length && value.length ≤ 64 && value.all isTokenUnit

/-- `[0-9]+`. -/
def isDecimal (value : Text) : Bool := value ≠ [] && value.all Objects.isDigit

/-- What follows a text at the start of a value. -/
def behind (start value : Text) : Option Text :=
  if start.isPrefixOf value then some (value.drop start.length) else none

def checkProbe (probe : ProbeRecord) : Except LocalError Unit :=
  match (behind (text "probe-") probe.origin).filter isToken with
  | none => .error (corruptJournal "recovery probe names do not match")
  | some token =>
    if probe.destination = text ".kompjutr-probe-" ++ token then .ok ()
    else .error (corruptJournal "recovery probe names do not match")

def checkTouch (touch : TouchRecord) : Except LocalError Unit :=
  if touch.path = text "/" then
    .error (corruptJournal "recovery intent targets the workspace root")
  else
    match touch.backup with
    | none => .ok ()
    | some backup =>
      if (behind (text "backup-") backup).any isDecimal then .ok ()
      else .error (corruptJournal "recovery backup name is invalid")

def checkTemporary (transaction : Text) (temporary : TemporaryRecord) : Except LocalError Unit :=
  if (behind (text ".kompjutr-tmp-" ++ transaction ++ text "-") temporary.name).any isDecimal then
    .ok ()
  else .error (corruptJournal "recovery temporary name is invalid")

def validateRecoveryManifest (manifest : RecoveryManifest) : Except LocalError Unit :=
  manifest.probes.forM checkProbe >>= fun _ =>
  manifest.touches.forM checkTouch >>= fun _ =>
  manifest.temporaries.forM (checkTemporary manifest.initial.transaction) >>= fun _ =>
  requireUnique (text "journal" :: (manifest.probes.map ProbeRecord.origin ++
    manifest.touches.filterMap TouchRecord.backup)) "recovery directory names" >>= fun _ =>
  requireUnique (manifest.probes.map fun probe => probe.parent ++ text "/" ++ probe.destination)
    "recovery probe destinations" >>= fun _ =>
  requireUnique (manifest.touches.map TouchRecord.path) "recovery touch paths" >>= fun _ =>
  requireUnique (manifest.temporaries.map fun temporary =>
    temporary.parent ++ text "/" ++ temporary.name) "recovery temporary paths"

-- Decoding

/-- `safeInteger` of a field. -/
def safeInteger (value : Option Tree) : Option Int :=
  match value with
  | some (.number n) => if 0 ≤ n && isSafeInteger n then some n else none
  | _ => none

def requireObject (value : Tree) (label : String) : Except LocalError Unit :=
  match value with
  | .object _ => .ok ()
  | _ => .error (corruptJournal s!"{label} is not an object")

def requireSequence (record : Tree) (expected : Nat) : Except LocalError Nat :=
  if safeInteger (record.field "sequence") = some (expected : Int) then .ok expected
  else .error (corruptJournal "recovery journal sequence is invalid")

/-- `isWellFormed`. -/
def isWellFormed (value : Text) : Bool := Utf8.toWellFormed value = value

def isName (value : Text) : Bool :=
  value ≠ [] && !value.contains 0x2f && !value.contains 0 && isWellFormed value

def requireName (value : Option Tree) (label : String) : Except LocalError Text :=
  match value with
  | some (.string name) =>
    if isName name then .ok name else .error (corruptJournal s!"{label} is invalid")
  | _ => .error (corruptJournal s!"{label} is invalid")

def isPath (value : Text) : Bool :=
  value = text "/" ||
    isWellFormed value && !value.contains 0 && value.head? = some 0x2f &&
      value.getLast? ≠ some 0x2f && (value.splitOn 0x2f).tail.all fun part =>
        part ≠ [] && part ≠ text "." && part ≠ text ".."

def requirePath (value : Option Tree) (label : String) : Except LocalError Text :=
  match value with
  | some (.string path) =>
    if isPath path then .ok path else .error (corruptJournal s!"{label} is invalid")
  | _ => .error (corruptJournal s!"{label} is invalid")

def invalidInitial : LocalError := corruptJournal "recovery journal initial record is invalid"

def decodeInitial (record : Tree) (sequence : Nat) : Except LocalError InitialRecord :=
  match record.field "version", record.field "transaction",
      safeInteger (record.field "baseGeneration"), safeInteger (record.field "targetGeneration") with
  | some (.number version), some (.string transaction), some baseGeneration, some targetGeneration =>
    if sequence ≠ 0 || version ≠ 1 || !isToken transaction ||
        targetGeneration ≠ baseGeneration + 1 then .error invalidInitial
    else .ok { transaction, baseGeneration, targetGeneration }
  | _, _, _, _ => .error invalidInitial

def decodeProbe (record : Tree) : Except LocalError ProbeRecord :=
  requirePath (record.field "parent") "probe parent" >>= fun parent =>
  requireName (record.field "origin") "probe origin" >>= fun origin =>
  requireName (record.field "destination") "probe destination" >>= fun destination =>
  .ok { parent, origin, destination }

def decodeBackup (backup : Option Tree) : Except LocalError (Option Text) :=
  match backup with
  | some .null => .ok none
  | backup => (requireName backup "application backup").map some

def decodeTouch (touch : Tree) : Except LocalError TouchRecord :=
  requireObject touch "application touch" >>= fun _ =>
  requirePath (touch.field "path") "application path" >>= fun path =>
  decodeBackup (touch.field "backup") >>= fun backup =>
  .ok { path, backup }

def decodeTouches (value : Option Tree) : Except LocalError (List TouchRecord) :=
  match value with
  | some (.array touches) =>
    if touches.isEmpty || maxJournalRecords < touches.length then
      .error (corruptJournal "application touch list is invalid")
    else touches.mapM decodeTouch
  | _ => .error (corruptJournal "application touch list is invalid")

def decodeTemporary (record : Tree) : Except LocalError TemporaryRecord :=
  requirePath (record.field "parent") "temporary parent" >>= fun parent =>
  requireName (record.field "name") "temporary name" >>= fun name =>
  .ok { parent, name }

def decodeKind (record : Tree) (sequence : Nat) (kind : Text) : Except LocalError AppendRecord :=
  if kind = text "initial" then (decodeInitial record sequence).map .initial
  else if kind = text "probe" then (decodeProbe record).map .probe
  else if kind = text "application" then (decodeTouches (record.field "touches")).map .application
  else if kind = text "temporary" then (decodeTemporary record).map .temporary
  else .error (corruptJournal "recovery journal record kind is invalid")

def decodeRecord (value : Tree) (expected : Nat) : Except LocalError JournalRecord :=
  requireObject value "recovery journal record" >>= fun _ =>
  requireSequence value expected >>= fun sequence =>
  match value.field "kind" with
  | some (.string kind) =>
    (decodeKind value sequence kind).map fun record => { sequence, record }
  | _ => .error (corruptJournal "recovery journal record kind is invalid")

-- Encoding

/-- A text as it is written and as it is read. -/
def stringMember (name : String) (value : Text) : Member := (name, quoted value, .string value)

def numberMember (name : String) (value : Int) : Member := (name, formatNumber value, .number value)

def objectOf (members : List Member) : Text × Tree :=
  (objectText (members.map fun member => (member.1, member.2.1)),
    .object (members.map fun member => (text member.1, member.2.2)))

def backupMember (backup : Option Text) : Member :=
  match backup with
  | none => ("backup", text "null", .null)
  | some backup => stringMember "backup" backup

/-- A touch, as its JSON text and as the value that it denotes. -/
def touchJson (touch : TouchRecord) : Text × Tree :=
  objectOf [stringMember "path" touch.path, backupMember touch.backup]

def touchesMember (touches : List TouchRecord) : Member :=
  ("touches", arrayText (touches.map fun touch => (touchJson touch).1),
    .array (touches.map fun touch => (touchJson touch).2))

/-- The members of a record in the order of the decoder. -/
def recordMembers (sequence : Nat) : AppendRecord → List Member
  | .initial record =>
    [stringMember "kind" (text "initial"), numberMember "sequence" sequence,
      numberMember "version" 1, stringMember "transaction" record.transaction,
      numberMember "baseGeneration" record.baseGeneration,
      numberMember "targetGeneration" record.targetGeneration]
  | .probe record =>
    [stringMember "kind" (text "probe"), numberMember "sequence" sequence,
      stringMember "parent" record.parent, stringMember "origin" record.origin,
      stringMember "destination" record.destination]
  | .application touches =>
    [stringMember "kind" (text "application"), numberMember "sequence" sequence,
      touchesMember touches]
  | .temporary record =>
    [stringMember "kind" (text "temporary"), numberMember "sequence" sequence,
      stringMember "parent" record.parent, stringMember "name" record.name]

/-- `JSON.stringify` of a record, and the object itself. -/
def recordJson (record : JournalRecord) : Text × Tree :=
  objectOf (recordMembers record.sequence record.record)

/-- `setUint32` with the most significant byte first. -/
def uint32Bytes (n : Nat) : List UInt8 :=
  [(n / 0x1000000).toUInt8, (n / 0x10000 % 0x100).toUInt8, (n / 0x100 % 0x100).toUInt8,
    (n % 0x100).toUInt8]

/-- `getUint32`. -/
def uint32Of (bytes : List UInt8) : Nat := bytes.foldl (fun n byte => n * 0x100 + byte.toNat) 0

def payloadOf (record : JournalRecord) : List UInt8 := Utf8.encode (recordJson record).1

/-- The bytes of a frame. -/
def frameOf (sha256 : Sha256) (payload : List UInt8) : List UInt8 :=
  uint32Bytes payload.length ++ (payload ++ sha256.digest payload)

def encodeFrame (sha256 : Sha256) (record : JournalRecord) (maxFrameBytes : Nat) :
    Except LocalError (List UInt8) :=
  if maxFrameBytes < (payloadOf record).length then
    .error (tooBig "recovery journal frame is too large")
  else .ok (frameOf sha256 (payloadOf record))

-- The writer

structure JournalWriter where
  maxRecords : Nat
  maxActions : Nat
  maxFrameBytes : Nat
  sequence : Nat
  actions : Nat
  file : List UInt8
  deriving DecidableEq

def checkLimit (value : Int) (ceiling : Nat) (label : String) : Except LocalError Nat :=
  if !isSafeInteger value || value < 1 || (ceiling : Int) < value then
    .error { code := "EINVAL", message := s!"recovery journal {label} limit is invalid" }
  else .ok value.toNat

/-- The constructor; the file is a new one. -/
def openJournal (maxRecords maxActions maxFrameBytes : Int) : Except LocalError JournalWriter :=
  checkLimit maxRecords maxJournalRecords "record" >>= fun maxRecords =>
  checkLimit maxActions maxRecoveryActions "action" >>= fun maxActions =>
  checkLimit maxFrameBytes maxFrameLimit "frame" >>= fun maxFrameBytes =>
  .ok { maxRecords, maxActions, maxFrameBytes, sequence := 0, actions := 0, file := [] }

def actionsOf : AppendRecord → Nat
  | .initial _ => 0
  | .application touches => touches.length
  | _ => 1

def JournalWriter.append (sha256 : Sha256) (writer : JournalWriter) (record : AppendRecord) :
    Except LocalError JournalWriter :=
  if writer.maxRecords ≤ writer.sequence then
    .error (tooBig "recovery journal has too many records")
  else
    decodeRecord (recordJson { sequence := writer.sequence, record }).2 writer.sequence >>=
      fun decoded =>
    let actions := actionsOf decoded.record
    if writer.maxActions < writer.actions + actions then
      .error (tooBig "recovery journal has too many actions")
    else
      encodeFrame sha256 decoded writer.maxFrameBytes >>= fun frame =>
      .ok { writer with
            file := writer.file ++ frame, sequence := writer.sequence + 1
            actions := writer.actions + actions }

/-- The chunks that are cut so far, and the one that is being filled. -/
structure Cutting where
  chunks : List (List TouchRecord)
  chunk : List TouchRecord
  payloadBytes : Nat
  deriving DecidableEq

/-- The text of a frame without touches. -/
def emptyFrameText (sequence : Nat) : Text :=
  objectText [("kind", quoted (text "application")), ("touches", arrayText []),
    ("sequence", formatNumber sequence)]

/-- One turn of the loop over the touches. -/
def cutTouch (sequence maxFrameBytes : Nat) (cutting : Cutting) (touch : TouchRecord) :
    Except LocalError Cutting :=
  let touchBytes := utf8ByteLength (touchJson touch).1
  let emptyFrameBytes := utf8ByteLength (emptyFrameText (sequence + cutting.chunks.length))
  let comma := if cutting.chunk = [] then 0 else 1
  if emptyFrameBytes - 2 + cutting.payloadBytes + comma + touchBytes ≤ maxFrameBytes then
    .ok { cutting with
          chunk := cutting.chunk ++ [touch]
          payloadBytes := cutting.payloadBytes + comma + touchBytes }
  else if cutting.chunk = [] then .error (tooBig "recovery journal frame is too large")
  else
    let chunks := cutting.chunks ++ [cutting.chunk]
    let singleFrameBytes :=
      utf8ByteLength (emptyFrameText (sequence + chunks.length)) - 2 + touchBytes
    if maxFrameBytes < singleFrameBytes then
      .error (tooBig "recovery journal frame is too large")
    else .ok { chunks, chunk := [touch], payloadBytes := touchBytes }

/-- The checks of `appendApplication` before it writes, and the chunks that it is going to write. -/
def cutApplication (writer : JournalWriter) (touches : List TouchRecord) :
    Except LocalError (List (List TouchRecord)) :=
  if touches = [] then .error { code := "EINVAL", message := "application intent is empty" }
  else if writer.maxActions < writer.actions + touches.length then
    .error (tooBig "recovery journal has too many actions")
  else
    touches.foldlM (cutTouch writer.sequence writer.maxFrameBytes)
      { chunks := [], chunk := [], payloadBytes := 0 } >>= fun cutting =>
    let chunks := cutting.chunks ++ [cutting.chunk]
    if writer.maxRecords < writer.sequence + chunks.length then
      .error (tooBig "recovery journal has too many records")
    else .ok chunks

/-- The frames of an application, up to the first that is refused. -/
def appendChunks (sha256 : Sha256) (writer : JournalWriter) :
    List (List TouchRecord) → Except LocalError Unit × JournalWriter
  | [] => (.ok (), writer)
  | touches :: chunks =>
    match writer.append sha256 (.application touches) with
    | .error error => (.error error, writer)
    | .ok writer => appendChunks sha256 writer chunks

def JournalWriter.appendApplication (sha256 : Sha256) (writer : JournalWriter)
    (touches : List TouchRecord) : Except LocalError Unit × JournalWriter :=
  match cutApplication writer touches with
  | .error error => (.error error, writer)
  | .ok chunks => appendChunks sha256 writer chunks

-- The reader

/-- The records of a file, from one of them on; a torn tail is the end. -/
def readFrames (sha256 : Sha256) (maxRecords maxActions : Nat) (records : List JournalRecord)
    (actions : Nat) (file : List UInt8) : Except LocalError (List JournalRecord) :=
  if _hfile : file = [] then .ok records
  else if maxRecords ≤ records.length then
    .error (corruptJournal "recovery journal has too many records")
  else if file.length < frameHeaderBytes then .ok records
  else
    let length := uint32Of (file.take frameHeaderBytes)
    let body := file.drop frameHeaderBytes
    if maxFrameLimit < length then .error (corruptJournal "recovery journal frame is too large")
    else if body.length < length + checksumBytes then .ok records
    else
      let payload := body.take length
      if (body.drop length).take checksumBytes ≠ sha256.digest payload then
        .error (corruptJournal "recovery journal frame checksum is invalid")
      else
        match (Utf8.textDecodeFatal payload).bind Json.parse with
        | none => .error (corruptJournal "recovery journal frame payload is invalid")
        | some parsed =>
          match decodeRecord parsed records.length with
          | .error error => .error error
          | .ok record =>
            let added := actionsOf record.record
            if maxActions < actions + added then
              .error (corruptJournal "recovery journal has too many actions")
            else
              readFrames sha256 maxRecords maxActions (records ++ [record]) (actions + added)
                (body.drop (length + checksumBytes))
termination_by file.length
decreasing_by
  rw [List.length_drop, List.length_drop]
  have := List.length_pos_of_ne_nil _hfile
  unfold frameHeaderBytes
  omega

def probeOf : AppendRecord → Option ProbeRecord
  | .probe record => some record
  | _ => none

def touchesOf : AppendRecord → List TouchRecord
  | .application touches => touches
  | _ => []

def temporaryOf : AppendRecord → Option TemporaryRecord
  | .temporary record => some record
  | _ => none

def isInitial : AppendRecord → Bool
  | .initial _ => true
  | _ => false

/-- What `readJournal` makes of the records. -/
def manifestOf (records : List AppendRecord) : Except LocalError (Option RecoveryManifest) :=
  match records with
  | [] => .ok none
  | .initial initial :: rest =>
    if rest.any isInitial then
      .error (corruptJournal "recovery journal repeats its initial record")
    else
      let manifest : RecoveryManifest :=
        { initial, probes := rest.filterMap probeOf, touches := rest.flatMap touchesOf
          temporaries := rest.filterMap temporaryOf }
      validateRecoveryManifest manifest >>= fun _ => .ok (some manifest)
  | _ => .error (corruptJournal "recovery journal has no initial record")

def readJournal (sha256 : Sha256) (maxRecords maxActions : Int) (file : List UInt8) :
    Except LocalError (Option RecoveryManifest) :=
  checkLimit maxRecords maxJournalRecords "record" >>= fun maxRecords =>
  checkLimit maxActions maxRecoveryActions "action" >>= fun maxActions =>
  readFrames sha256 maxRecords maxActions [] 0 file >>= fun records =>
  manifestOf (records.map JournalRecord.record)

end Kompjutr.Recovery
