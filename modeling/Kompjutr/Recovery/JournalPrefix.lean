/-
  Kompjutr.Recovery.JournalPrefix

  Every prefix of a journal is read as what its whole frames say (`readJournal_take`).

  A writer that accepts all its appends leaves a file of frames; the records in them are those of
  the appends in order, and each is one that the reader takes at its place (`Written`).  What the
  reader makes of the first of them is a part of what it makes of all.
-/
import Mathlib.Data.List.Flatten
import Kompjutr.Recovery.JournalSound

namespace Kompjutr.Recovery

open Fuel (bind_eq_ok foldlM_taken forM_ok forM_eq_ok)
open Objects (Text text)

-- Valid manifests

variable {label : String} {u : Unit} {found : Option RecoveryManifest}
  {chunks : List (List TouchRecord)}

/-- What `validateRecoveryManifest` asks of a manifest. -/
structure RecoveryManifest.Valid (manifest : RecoveryManifest) : Prop where
  probes : ∀ probe ∈ manifest.probes, checkProbe probe = .ok ()
  touches : ∀ touch ∈ manifest.touches, checkTouch touch = .ok ()
  temporaries : ∀ temporary ∈ manifest.temporaries,
    checkTemporary manifest.initial.transaction temporary = .ok ()
  names : (text "journal" :: (manifest.probes.map ProbeRecord.origin ++
    manifest.touches.filterMap TouchRecord.backup)).Nodup
  destinations : (manifest.probes.map fun probe =>
    probe.parent ++ text "/" ++ probe.destination).Nodup
  paths : (manifest.touches.map TouchRecord.path).Nodup
  places : (manifest.temporaries.map fun temporary =>
    temporary.parent ++ text "/" ++ temporary.name).Nodup

theorem requireUnique_ok {values : List Text} :
    requireUnique values label = .ok u ↔ values.Nodup := by
  unfold requireUnique
  split
  next h => exact iff_of_true rfl h
  next h => exact iff_of_false (fun heq => nomatch heq) h

theorem validate_ok {manifest : RecoveryManifest} :
    validateRecoveryManifest manifest = .ok u ↔ manifest.Valid := by
  unfold validateRecoveryManifest
  simp only [bind_eq_ok, requireUnique_ok]
  constructor
  · rintro ⟨_, hprobes, _, htouches, _, htemporaries, _, hnames, _, hdestinations, _, hpaths, hplaces⟩
    exact { probes := fun probe hprobe => forM_ok hprobes hprobe
            touches := fun touch htouch => forM_ok htouches htouch
            temporaries := fun temporary ht => forM_ok htemporaries ht
            names := hnames, destinations := hdestinations, paths := hpaths, places := hplaces }
  · intro h
    exact ⟨(), forM_eq_ok h.probes, (), forM_eq_ok h.touches, (), forM_eq_ok h.temporaries,
      (), h.names, (), h.destinations, (), h.paths, h.places⟩

/-- What one manifest holds of another for the same transaction. -/
structure RecoveryManifest.Within (part whole : RecoveryManifest) : Prop where
  initial : part.initial = whole.initial
  probes : List.Sublist part.probes whole.probes
  touches : List.Sublist part.touches whole.touches
  temporaries : List.Sublist part.temporaries whole.temporaries

/-- A part of a valid manifest is valid. -/
theorem RecoveryManifest.Valid.within {part whole : RecoveryManifest} (hvalid : whole.Valid)
    (h : part.Within whole) : part.Valid where
  probes := fun probe hprobe => hvalid.probes probe (h.probes.subset hprobe)
  touches := fun touch htouch => hvalid.touches touch (h.touches.subset htouch)
  temporaries := by
    rw [h.initial]
    exact fun temporary ht => hvalid.temporaries temporary (h.temporaries.subset ht)
  names := hvalid.names.sublist
    (((h.probes.map _).append (h.touches.filterMap _)).cons_cons _)
  destinations := hvalid.destinations.sublist (h.probes.map _)
  paths := hvalid.paths.sublist (h.touches.map _)
  places := hvalid.places.sublist (h.temporaries.map _)

-- The manifest of the first records

theorem manifestOf_initial {initial : InitialRecord} {rest : List AppendRecord} :
    manifestOf (.initial initial :: rest) = .ok found ↔ rest.any isInitial = false ∧
      ∃ manifest : RecoveryManifest, found = some manifest ∧ manifest.Valid ∧
        manifest = { initial, probes := rest.filterMap probeOf, touches := rest.flatMap touchesOf
                     temporaries := rest.filterMap temporaryOf } := by
  unfold manifestOf
  dsimp only
  split
  next hinitial =>
    refine iff_of_false (fun heq => nomatch heq) fun h => ?_
    rw [hinitial] at h
    cases h.1
  next hinitial =>
    rw [Bool.not_eq_true] at hinitial
    rw [bind_eq_ok]
    constructor
    · rintro ⟨_, hvalid, h⟩
      exact ⟨hinitial, _, (Except.ok.inj h).symm, validate_ok.1 hvalid, rfl⟩
    · rintro ⟨-, _, rfl, hvalid, rfl⟩
      exact ⟨(), validate_ok.2 hvalid, rfl⟩

/-- Where all records make a manifest, so do the first of them: none makes none. -/
theorem manifestOf_take {records : List AppendRecord}
    (h : manifestOf records = .ok found) {k : Nat} (hk : k ≤ records.length) :
    ∃ part, manifestOf (records.take k) = .ok part ∧ (part = none ↔ k = 0) := by
  cases k with
  | zero => exact ⟨none, rfl, iff_of_true rfl rfl⟩
  | succ k =>
    cases records with
    | nil => cases hk
    | cons record rest =>
      cases record with
      | initial initial =>
        obtain ⟨hinitial, whole, -, hvalid, rfl⟩ := manifestOf_initial.1 h
        refine ⟨_, manifestOf_initial.2 ⟨?_, _, rfl, hvalid.within ?_, rfl⟩, ?_⟩
        · rw [List.any_eq_false] at hinitial ⊢
          exact fun record hrecord => hinitial record (List.mem_of_mem_take hrecord)
        · have htake := List.take_sublist k rest
          exact { initial := rfl, probes := htake.filterMap _
                  touches := List.Sublist.flatMap htake touchesOf
                  temporaries := htake.filterMap _ }
        · exact iff_of_false (fun heq => nomatch heq) (Nat.succ_ne_zero k)
      | probe record => cases h
      | application touches => cases h
      | temporary record => cases h

-- The writer

/-- A call of the writer. -/
inductive Append where
  | single (record : AppendRecord)
  | application (touches : List TouchRecord)
  deriving DecidableEq

def Append.run (sha256 : Sha256) (writer : JournalWriter) :
    Append → Except LocalError Unit × JournalWriter
  | .single record =>
    match writer.append sha256 record with
    | .error error => (.error error, writer)
    | .ok writer => (.ok (), writer)
  | .application touches => writer.appendApplication sha256 touches

/-- The writer behind calls of which it accepts each. -/
def acceptAll (sha256 : Sha256) (writer : JournalWriter) : List Append → Except LocalError JournalWriter
  | [] => .ok writer
  | call :: calls =>
    match call.run sha256 writer with
    | (.error error, _) => .error error
    | (.ok (), writer) => acceptAll sha256 writer calls

/-- What a journal lists, one at a time. -/
inductive Entry where
  | initial (record : InitialRecord)
  | probe (record : ProbeRecord)
  | touch (record : TouchRecord)
  | temporary (record : TemporaryRecord)
  deriving DecidableEq

def entriesOf : AppendRecord → List Entry
  | .initial record => [.initial record]
  | .probe record => [.probe record]
  | .application touches => touches.map .touch
  | .temporary record => [.temporary record]

def Append.entries : Append → List Entry
  | .single record => entriesOf record
  | .application touches => touches.map .touch

/-- What stands in the file of a writer. -/
structure Written (sha256 : Sha256) (writer : JournalWriter) (records : List JournalRecord) :
    Prop where
  file : writer.file = framesOf sha256 records
  sequence : writer.sequence = records.length
  actions : writer.actions = (records.map fun record => actionsOf record.record).sum
  readable : ∀ i record, records[i]? = some record → Readable i record
  fits : ∀ record ∈ records, (payloadOf record).length ≤ writer.maxFrameBytes
  records_le : records.length ≤ writer.maxRecords
  actions_le : writer.actions ≤ writer.maxActions

/-- The limits stay as they were. -/
structure JournalWriter.Follows (before after : JournalWriter) : Prop where
  maxRecords : after.maxRecords = before.maxRecords
  maxActions : after.maxActions = before.maxActions
  maxFrameBytes : after.maxFrameBytes = before.maxFrameBytes

theorem JournalWriter.Follows.refl (writer : JournalWriter) : writer.Follows writer := ⟨rfl, rfl, rfl⟩

theorem JournalWriter.Follows.trans {first second third : JournalWriter} (h : first.Follows second)
    (h' : second.Follows third) : first.Follows third :=
  ⟨h'.maxRecords.trans h.maxRecords, h'.maxActions.trans h.maxActions,
    h'.maxFrameBytes.trans h.maxFrameBytes⟩

variable {sha256 : Sha256} {writer after : JournalWriter} {records : List JournalRecord}

theorem append_written (hw : Written sha256 writer records)
    (hlimit : writer.maxFrameBytes ≤ maxFrameLimit) {record : AppendRecord}
    (h : writer.append sha256 record = .ok after) :
    Written sha256 after (records ++ [⟨writer.sequence, record⟩]) ∧ writer.Follows after := by
  unfold JournalWriter.append at h
  split at h
  next => cases h
  next hrecords =>
    rw [bind_eq_ok] at h
    obtain ⟨decoded, hdecoded, h⟩ := h
    obtain ⟨rfl, -⟩ := decodeRecord_self hdecoded
    dsimp only at h
    split at h
    next => cases h
    next hactions =>
      rw [bind_eq_ok] at h
      obtain ⟨frame, hframe, h⟩ := h
      unfold encodeFrame at hframe
      split at hframe
      next => cases hframe
      next hfits =>
        cases hframe
        cases h
        have hfits := not_lt.1 hfits
        refine ⟨?_, rfl, rfl, rfl⟩
        exact {
          file := by
            rw [framesOf_append, ← hw.file]
            exact congrArg _ (List.append_nil _).symm
          sequence := by rw [List.length_append, List.length_singleton, ← hw.sequence]
          actions := by
            rw [List.map_append, List.sum_append, ← hw.actions, List.map_singleton,
              List.sum_singleton]
          readable := by
            intro i other hother
            rw [List.getElem?_append] at hother
            split at hother
            next => exact hw.readable i other hother
            next hlt =>
              obtain ⟨hindex, hother⟩ := List.getElem?_eq_some_iff.1 hother
              rw [List.length_singleton] at hindex
              have hsequence := hw.sequence
              obtain rfl : i = writer.sequence := by omega
              rw [List.getElem_singleton] at hother
              obtain rfl := hother
              exact ⟨rfl, hdecoded, hfits.trans hlimit⟩
          fits := List.forall_mem_append.2 ⟨hw.fits, List.forall_mem_singleton.2 hfits⟩
          records_le := by
            rw [List.length_append, List.length_singleton, ← hw.sequence]
            exact not_le.1 hrecords
          actions_le := not_lt.1 hactions }

theorem appendChunks_written (hw : Written sha256 writer records)
    (hlimit : writer.maxFrameBytes ≤ maxFrameLimit)
    (h : appendChunks sha256 writer chunks = (.ok (), after)) :
    ∃ added : List JournalRecord, added.map JournalRecord.record = chunks.map .application ∧
      Written sha256 after (records ++ added) ∧ writer.Follows after := by
  induction chunks generalizing writer records with
  | nil =>
    obtain rfl := (Prod.mk.inj h).2
    refine ⟨[], rfl, ?_, .refl _⟩
    rwa [List.append_nil]
  | cons touches chunks ih =>
    rw [appendChunks] at h
    split at h
    next => cases h
    next next happend =>
      obtain ⟨hnext, hfollows⟩ := append_written hw hlimit happend
      obtain ⟨added, hadded, hafter, hrest⟩ := ih hnext (by rw [hfollows.maxFrameBytes]; exact hlimit) h
      refine ⟨⟨writer.sequence, .application touches⟩ :: added, ?_, ?_, hfollows.trans hrest⟩
      · rw [List.map_cons, List.map_cons, hadded]
      · rwa [List.append_assoc, List.singleton_append] at hafter

/-- The chunks hold the touches in order, each of them once. -/
theorem cutApplication_flatten {touches : List TouchRecord}
    (h : cutApplication writer touches = .ok chunks) : chunks.flatten = touches := by
  unfold cutApplication at h
  split at h
  next => cases h
  next =>
    split at h
    next => cases h
    next =>
      rw [bind_eq_ok] at h
      obtain ⟨cutting, hcutting, h⟩ := h
      dsimp only at h
      split at h
      next => cases h
      next =>
        cases h
        refine foldlM_taken (fun taken (cutting : Cutting) =>
          (cutting.chunks ++ [cutting.chunk]).flatten = taken) ?_ rfl hcutting
        intro taken cutting touch after _ htaken hcut
        rw [List.flatten_append, List.flatten_singleton] at htaken
        unfold cutTouch at hcut
        dsimp only at hcut
        generalize (if cutting.chunk = [] then 0 else 1) = comma at hcut
        split at hcut
        next =>
          cases hcut
          rw [List.flatten_append, List.flatten_singleton, ← List.append_assoc, htaken]
        next =>
          split at hcut
          next => cases hcut
          next =>
            split at hcut
            next => cases hcut
            next =>
              cases hcut
              rw [List.flatten_append, List.flatten_singleton, List.flatten_append,
                List.flatten_singleton, htaken]

theorem run_written {call : Append} (hw : Written sha256 writer records)
    (hlimit : writer.maxFrameBytes ≤ maxFrameLimit) (h : call.run sha256 writer = (.ok (), after)) :
    ∃ added : List JournalRecord,
      added.flatMap (fun record => entriesOf record.record) = call.entries ∧
      Written sha256 after (records ++ added) ∧ writer.Follows after := by
  cases call with
  | single record =>
    unfold Append.run at h
    dsimp only at h
    split at h
    next => cases h
    next next happend =>
      obtain rfl := (Prod.mk.inj h).2
      exact ⟨_, List.flatMap_singleton .., append_written hw hlimit happend⟩
  | application touches =>
    have happlication : writer.appendApplication sha256 touches = (.ok (), after) := h
    unfold JournalWriter.appendApplication at happlication
    split at happlication
    next => cases happlication
    next chunks hcut =>
      obtain ⟨added, hadded, hwritten⟩ := appendChunks_written hw hlimit happlication
      refine ⟨added, ?_, hwritten⟩
      calc added.flatMap (fun record => entriesOf record.record)
          = (added.map JournalRecord.record).flatMap entriesOf := (List.flatMap_map ..).symm
        _ = chunks.flatMap fun touches => touches.map Entry.touch := by
          rw [hadded, List.flatMap_map]
          rfl
        _ = touches.map Entry.touch := by
          rw [← cutApplication_flatten hcut, List.map_flatten, List.flatMap_def]

/-- A run of calls that are all accepted. -/
theorem acceptAll_written {calls : List Append} (hw : Written sha256 writer records)
    (hlimit : writer.maxFrameBytes ≤ maxFrameLimit) (h : acceptAll sha256 writer calls = .ok after) :
    ∃ added : List JournalRecord,
      added.flatMap (fun record => entriesOf record.record) = calls.flatMap Append.entries ∧
      Written sha256 after (records ++ added) ∧ writer.Follows after := by
  induction calls generalizing writer records with
  | nil =>
    cases h
    refine ⟨[], rfl, ?_, .refl _⟩
    rwa [List.append_nil]
  | cons call calls ih =>
    rw [acceptAll] at h
    split at h
    next => cases h
    next next hrun =>
      obtain ⟨first, hfirst, hnext, hfollows⟩ := run_written hw hlimit hrun
      obtain ⟨added, hadded, hafter, hrest⟩ :=
        ih hnext (by rw [hfollows.maxFrameBytes]; exact hlimit) h
      refine ⟨first ++ added, ?_, ?_, hfollows.trans hrest⟩
      · rw [List.flatMap_append, hfirst, hadded, List.flatMap_cons]
      · rwa [List.append_assoc] at hafter

-- The reader of a prefix

theorem checkLimit_ok {value : Int} {ceiling n : Nat} : checkLimit value ceiling label = .ok n ↔
      1 ≤ value ∧ value ≤ ceiling ∧ isSafeInteger value = true ∧ n = value.toNat := by
  unfold checkLimit
  split
  next h =>
    refine iff_of_false (fun heq => nomatch heq) ?_
    rintro ⟨hone, hceiling, hsafe, -⟩
    rw [hsafe] at h
    simp only [Bool.not_true, Bool.false_or, Bool.or_eq_true, decide_eq_true_eq] at h
    omega
  next h =>
    simp only [Bool.or_eq_true, Bool.not_eq_true', decide_eq_true_eq, not_or, not_lt,
      Bool.not_eq_false] at h
    constructor
    · intro heq
      exact ⟨h.1.2, h.2, h.1.1, (Except.ok.inj heq).symm⟩
    · rintro ⟨-, -, -, rfl⟩
      rfl

theorem openJournal_written {maxRecords maxActions maxFrameBytes : Int}
    (h : openJournal maxRecords maxActions maxFrameBytes = .ok writer) :
    Written sha256 writer [] ∧ writer.maxFrameBytes ≤ maxFrameLimit ∧
      (writer.maxRecords : Int) = maxRecords ∧ (writer.maxActions : Int) = maxActions ∧
      (writer.maxFrameBytes : Int) = maxFrameBytes := by
  unfold openJournal at h
  simp only [bind_eq_ok, checkLimit_ok] at h
  obtain ⟨_, ⟨hrecords, -, -, rfl⟩, _, ⟨hactions, -, -, rfl⟩, _, ⟨hframe, hlimit, -, rfl⟩, h⟩ := h
  cases h
  refine ⟨?_, ?_, ?_, ?_, ?_⟩
  · exact { file := rfl, sequence := rfl, actions := rfl
            readable := fun i record h => (nomatch h), fits := fun record h => (nomatch h)
            records_le := Nat.zero_le _, actions_le := Nat.zero_le _ }
  · dsimp only
    omega
  · exact Int.toNat_of_nonneg (by omega)
  · exact Int.toNat_of_nonneg (by omega)
  · exact Int.toNat_of_nonneg (by omega)

/-- The first bytes of a file, read under limits that are no smaller. -/
theorem readJournal_written {readRecords readActions : Int} (hw : Written sha256 writer records)
    (hrecords : 1 ≤ readRecords ∧ (writer.maxRecords : Int) ≤ readRecords ∧
      readRecords ≤ maxJournalRecords)
    (hactions : 1 ≤ readActions ∧ (writer.maxActions : Int) ≤ readActions ∧
      readActions ≤ maxRecoveryActions) (n : Nat) :
    readJournal sha256 readRecords readActions (writer.file.take n) =
      manifestOf ((records.map JournalRecord.record).take (wholeFrames sha256 records n)) := by
  have hsafe : ∀ {value : Int} {ceiling : Nat}, ceiling ≤ 100000 → 1 ≤ value → value ≤ ceiling →
      isSafeInteger value = true := by
    intro value ceiling hceiling hone hvalue
    rw [isSafeInteger_iff, maxSafeInteger]
    omega
  have hle := hw.records_le
  have hactionsLe := hw.actions_le
  rw [hw.actions] at hactionsLe
  have hread := @readFrames_take sha256 readRecords.toNat readActions.toNat [] records 0
    (fun i record h => by
      rw [List.length_nil, Nat.zero_add]
      exact hw.readable i record h)
    (by rw [List.length_nil]; omega) (by omega) n
  unfold readJournal
  rw [checkLimit_ok.2 ⟨hrecords.1, hrecords.2.2, hsafe (by decide) hrecords.1 hrecords.2.2, rfl⟩,
    checkLimit_ok.2 ⟨hactions.1, hactions.2.2, hsafe (by decide) hactions.1 hactions.2.2, rfl⟩,
    Fuel.ok_bind, Fuel.ok_bind, hw.file, hread, Fuel.ok_bind, List.nil_append, List.map_take]

/-- Behind appends that are all accepted, the file holds their entries in order, in frames that fit.
    The reader takes the whole frames of any prefix, as many as there are, and nothing else; where
    the records of the file make a manifest, so do those of each prefix.  An application that is
    refused while it is cut leaves the file as it is. -/
theorem readJournal_take (sha256 : Sha256) {maxRecords maxActions maxFrameBytes : Int}
    {writer after : JournalWriter} {calls : List Append}
    (hopen : openJournal maxRecords maxActions maxFrameBytes = .ok writer)
    (haccept : acceptAll sha256 writer calls = .ok after)
    {readRecords readActions : Int}
    (hrecords : maxRecords ≤ readRecords ∧ readRecords ≤ maxJournalRecords)
    (hactions : maxActions ≤ readActions ∧ readActions ≤ maxRecoveryActions) :
    (∃ records : List JournalRecord,
      after.file = framesOf sha256 records ∧
      records.flatMap (fun record => entriesOf record.record) = calls.flatMap Append.entries ∧
      (∀ record ∈ records, ((payloadOf record).length : Int) ≤ maxFrameBytes) ∧
      ∀ n, ∃ k ≤ records.length,
        (∀ j ≤ records.length,
          framesOf sha256 (records.take j) <+: after.file.take n ↔ j ≤ k) ∧
        readJournal sha256 readRecords readActions (after.file.take n) =
          manifestOf ((records.map JournalRecord.record).take k) ∧
        (k = 0 → readJournal sha256 readRecords readActions (after.file.take n) = .ok none) ∧
        ∀ found, manifestOf (records.map JournalRecord.record) = .ok found →
          ∃ part, readJournal sha256 readRecords readActions (after.file.take n) = .ok part ∧
            (part = none ↔ k = 0)) ∧
    ∀ touches error, cutApplication after touches = .error error →
      after.appendApplication sha256 touches = (.error error, after) := by
  obtain ⟨hstart, hlimit, hr, ha, hf⟩ := @openJournal_written sha256 writer _ _ _ hopen
  obtain ⟨records, hentries, hwritten, hfollows⟩ := acceptAll_written hstart hlimit haccept
  rw [List.nil_append] at hwritten
  have hone : 1 ≤ maxRecords ∧ 1 ≤ maxActions := by
    unfold openJournal at hopen
    simp only [bind_eq_ok, checkLimit_ok] at hopen
    obtain ⟨_, ⟨hrecords, -⟩, _, ⟨hactions, -⟩, -⟩ := hopen
    exact ⟨hrecords, hactions⟩
  refine ⟨⟨records, hwritten.file, hentries, ?_, fun n => ?_⟩, ?_⟩
  · intro record hrecord
    have hfits := hwritten.fits record hrecord
    rw [hfollows.maxFrameBytes] at hfits
    omega
  · have hread := @readJournal_written sha256 after records readRecords readActions hwritten
      (by rw [hfollows.maxRecords]; omega) (by rw [hfollows.maxActions]; omega) n
    refine ⟨_, wholeFrames_le sha256 records n, ?_, hread, ?_, ?_⟩
    · intro j hj
      rw [hwritten.file]
      exact framesOf_prefix_iff hj
    · intro hzero
      rw [hread, hzero]
      rfl
    · intro found hfound
      rw [hread]
      exact manifestOf_take hfound (by rw [List.length_map]; exact wholeFrames_le sha256 records n)
  · intro touches error hcut
    unfold JournalWriter.appendApplication
    rw [hcut]

def initialRecord : InitialRecord :=
  { transaction := text "0123456789abcdef", baseGeneration := 1, targetGeneration := 2 }

def firstTouches : List TouchRecord :=
  [{ path := text "/a", backup := some (text "backup-0") }, { path := text "/b", backup := none }]

/-- SHA-256 on the payloads of the two records. -/
def initialDigest (payload : List UInt8) : List UInt8 :=
  if payload = payloadOf ⟨0, .initial initialRecord⟩ then
    [0x7f, 0x93, 0xdf, 0x43, 0xc2, 0x5e, 0x70, 0xd5, 0x42, 0xe7, 0x71, 0x4f,
      0x4a, 0x47, 0x08, 0xfa, 0xce, 0x21, 0x5a, 0x58, 0x79, 0x11, 0xce, 0x87,
      0xa3, 0x94, 0x1f, 0x42, 0x2b, 0xb7, 0x5e, 0x1f]
  else if payload = payloadOf ⟨1, .application firstTouches⟩ then
    [0xc3, 0x4f, 0x9a, 0xa4, 0x85, 0x53, 0xb2, 0xd1, 0x7a, 0xc0, 0xe9, 0x3c,
      0x94, 0x83, 0x2f, 0x37, 0xb7, 0xcd, 0xd9, 0x26, 0x87, 0x60, 0x36, 0x74,
      0xfc, 0x56, 0x10, 0xb1, 0x13, 0x4e, 0x74, 0x2f]
  else List.replicate checksumBytes 0

theorem length_initialDigest (payload : List UInt8) :
    (initialDigest payload).length = checksumBytes := by
  unfold initialDigest
  split
  next => rfl
  next =>
    split
    next => rfl
    next => exact List.length_replicate

/-- A record that is decoded to itself is accepted under limits that it keeps. -/
theorem append_accepts (sha256 : Sha256) {writer : JournalWriter} {record : AppendRecord}
    {index : Nat} (hsequence : writer.sequence = index) (hrecords : index < writer.maxRecords)
    (hdecoded : decodeRecord (recordJson ⟨index, record⟩).2 index = .ok ⟨index, record⟩)
    (hactions : writer.actions + actionsOf record ≤ writer.maxActions)
    (hfits : (payloadOf ⟨index, record⟩).length ≤ writer.maxFrameBytes) :
    ∃ after, writer.append sha256 record = .ok after ∧
      after.actions = writer.actions + actionsOf record := by
  subst hsequence
  unfold JournalWriter.append
  rw [if_neg (not_le.2 hrecords), hdecoded, Fuel.ok_bind]
  dsimp only
  rw [if_neg (not_lt.2 hactions), encodeFrame, if_neg (not_lt.2 hfits), Fuel.ok_bind]
  exact ⟨_, rfl, rfl⟩

/-- An application behind the first record. -/
theorem acceptAll_application (sha256 : Sha256) {writer : JournalWriter}
    (hopen : openJournal 10 10 1000 = .ok writer) {touches : List TouchRecord}
    (hactions : touches.length ≤ 10)
    (hdecoded : decodeRecord (recordJson ⟨1, .application touches⟩).2 1 =
      .ok ⟨1, .application touches⟩)
    (hfits : (payloadOf ⟨1, .application touches⟩).length ≤ 1000) :
    ∃ after, acceptAll sha256 writer
        [.single (.initial initialRecord), .single (.application touches)] = .ok after ∧
      Written sha256 after [⟨0, .initial initialRecord⟩, ⟨1, .application touches⟩] ∧
      after.maxRecords = 10 ∧ after.maxActions = 10 := by
  obtain ⟨hstart, hlimit, hr, ha, hf⟩ := @openJournal_written sha256 _ _ _ _ hopen
  have hzero : writer.actions = 0 := hstart.actions
  obtain ⟨first, hinitial, hfirstActions⟩ := @append_accepts sha256 writer
    (.initial initialRecord) _ hstart.sequence (by rw [List.length_nil]; omega) (by decide +kernel)
    (by show writer.actions + 0 ≤ _; omega) (by
      have hlength : (payloadOf ⟨0, .initial initialRecord⟩).length ≤ 1000 := by decide +kernel
      exact hlength.trans (by omega))
  obtain ⟨hfirst, hfollows⟩ := append_written hstart hlimit hinitial
  have hrecords := hfollows.maxRecords
  have hmax := hfollows.maxActions
  have hframe := hfollows.maxFrameBytes
  obtain ⟨after, happlication, -⟩ := @append_accepts sha256 first
    (.application touches) _ hfirst.sequence (by
      rw [List.length_append, List.length_singleton, List.length_nil]
      omega) hdecoded (by
      have hsame : actionsOf (.initial initialRecord) = 0 := rfl
      show first.actions + touches.length ≤ _
      omega) (hfits.trans (by omega))
  obtain ⟨hafter, hrest⟩ := append_written hfirst (by rw [hframe]; exact hlimit) happlication
  refine ⟨after, ?_, ?_, ?_, ?_⟩
  · simp only [acceptAll, Append.run, hinitial, happlication]
  · rw [hstart.sequence, hfirst.sequence] at hafter
    exact hafter
  · have hlast := hrest.maxRecords
    omega
  · have hlast := hrest.maxActions
    omega

theorem firstTouches_take : ∃ writer after : JournalWriter,
    openJournal 10 10 1000 = .ok writer ∧
    acceptAll ⟨initialDigest, length_initialDigest⟩ writer
      [.single (.initial initialRecord), .single (.application firstTouches)] = .ok after ∧
    ∃ records : List JournalRecord,
      after.file = framesOf ⟨initialDigest, length_initialDigest⟩ records ∧
      records.flatMap (fun record => entriesOf record.record) =
        .initial initialRecord :: firstTouches.map .touch ∧
      ∀ n, ∃ k ≤ records.length,
        readJournal ⟨initialDigest, length_initialDigest⟩ 10 10 (after.file.take n) =
          manifestOf ((records.map JournalRecord.record).take k) := by
  obtain ⟨writer, hopen⟩ : ∃ writer, openJournal 10 10 1000 = .ok writer := ⟨_, rfl⟩
  obtain ⟨after, haccept, -⟩ := @acceptAll_application ⟨initialDigest, length_initialDigest⟩ _ hopen
    firstTouches (by decide) (by decide +kernel) (by decide +kernel)
  obtain ⟨⟨records, hfile, hentries, -, hread⟩, -⟩ :=
    @readJournal_take ⟨initialDigest, length_initialDigest⟩ _ _ _ _ _ _ hopen haccept 10 10
      ⟨by decide, by decide⟩ ⟨by decide, by decide⟩
  refine ⟨writer, after, hopen, haccept, records, hfile, hentries, fun n => ?_⟩
  obtain ⟨k, hk, -, hpart, -⟩ := hread n
  exact ⟨k, hk, hpart⟩

/-- One path is touched twice: the appends are accepted, and the whole file is corrupt. -/
theorem twiceTouched_corrupt : ¬ ∃ sha256 : Sha256, ∀ (writer after : JournalWriter)
    (calls : List Append) (n : Nat), openJournal 10 10 1000 = .ok writer →
      acceptAll sha256 writer calls = .ok after →
        ∀ error, readJournal sha256 10 10 (after.file.take n) = .error error →
          error.code ≠ "ECORRUPT" := by
  rintro ⟨sha256, h⟩
  obtain ⟨writer, hopen⟩ : ∃ writer, openJournal 10 10 1000 = .ok writer := ⟨_, rfl⟩
  obtain ⟨after, haccept, hwritten, hr, ha⟩ := @acceptAll_application sha256 _ hopen
    [⟨text "/a", none⟩, ⟨text "/a", none⟩] (by decide) (by decide +kernel) (by decide +kernel)
  have hread := @readJournal_written sha256 _ _ 10 10 hwritten
    ⟨by decide, by rw [hr]; decide, by decide⟩ ⟨by decide, by rw [ha]; decide, by decide⟩
    after.file.length
  have hwhole : 2 ≤ wholeFrames sha256 [⟨0, .initial initialRecord⟩,
      ⟨1, .application [⟨text "/a", none⟩, ⟨text "/a", none⟩]⟩] after.file.length := by
    refine (framesOf_prefix_iff (Nat.le_refl 2)).1 ?_
    rw [hwritten.file, List.take_length]
    exact List.prefix_rfl
  have hmanifest : manifestOf [.initial initialRecord,
      .application [⟨text "/a", none⟩, ⟨text "/a", none⟩]] =
      .error (corruptJournal "recovery touch paths contains duplicates") := by decide +kernel
  have hall := List.take_of_length_le (l := [AppendRecord.initial initialRecord,
    .application [⟨text "/a", none⟩, ⟨text "/a", none⟩]]) hwhole
  exact h writer after _ after.file.length hopen haccept _
    ((hread.trans (congrArg manifestOf hall)).trans hmanifest) rfl

end Kompjutr.Recovery
