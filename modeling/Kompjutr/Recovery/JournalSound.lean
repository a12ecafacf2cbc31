/-
  Kompjutr.Recovery.JournalSound

  Every prefix of a journal is read as the manifest of its whole frames (`readJournal_take`): what
  a writer accepts is decoded to the same record, and a torn frame is the end.
-/
import Kompjutr.Common.JsonTreeSound
import Kompjutr.Recovery.Journal

namespace Kompjutr.Recovery

open Fuel (bind_eq_ok)
open Json (Tree Member Reads quoted objectText arrayText)
open Objects (Text text formatNumber)
open Utf8 (WellFormed)
open List (append_assoc length_append map_cons map_map mem_cons mem_map not_mem_nil)

variable {name : Text} {value : Tree} {label : String} {actions : Nat}

variable {members : List Member} {record : JournalRecord} {n : Nat} {records : List JournalRecord}

theorem exceptMap_eq_ok {ε α β : Type} {f : α → β} {value : Except ε α} {result : β} :
    value.map f = .ok result ↔ ∃ found, value = .ok found ∧ f found = result := Fuel.map_eq_ok

-- Fields

theorem lookup_of_mem {members : List (Text × Tree)}
    (hnodup : (members.map Prod.fst).Nodup) (h : (name, value) ∈ members) :
    members.lookup name = some value := by
  induction members with
  | nil => cases h
  | cons member members ih =>
    obtain ⟨other, found⟩ := member
    rw [map_cons, List.nodup_cons] at hnodup
    rcases mem_cons.1 h with heq | hrest
    · obtain ⟨rfl, rfl⟩ := Prod.mk.inj heq
      rw [List.lookup_cons, beq_self_eq_true]
    · have hne : (name == other) = false := by
        rw [beq_eq_false_iff_ne]
        rintro rfl
        exact hnodup.1 (mem_map.2 ⟨_, hrest, rfl⟩)
      rw [List.lookup_cons, hne]
      exact ih hnodup.2 hrest

/-- A member of an object is found by its name. -/
theorem field_objectOf {name : String} {written : Text}
    (hnodup : ((members.map Prod.fst).map text).Nodup) (h : (name, written, value) ∈ members) :
    (objectOf members).2.field name = some value := by
  refine lookup_of_mem ?_ ?_
  · rw [List.map_reverse, List.nodup_reverse, map_map]
    rw [map_map] at hnodup
    exact hnodup
  · rw [List.mem_reverse]
    exact mem_map.2 ⟨_, h, rfl⟩

theorem nodup_recordMembers (sequence : Nat) (record : AppendRecord) :
    (((recordMembers sequence record).map Prod.fst).map text).Nodup := by
  cases record with
  | initial record =>
    show (["kind", "sequence", "version", "transaction", "baseGeneration",
      "targetGeneration"].map text).Nodup
    decide +kernel
  | probe record =>
    show (["kind", "sequence", "parent", "origin", "destination"].map text).Nodup
    decide +kernel
  | application touches =>
    show (["kind", "sequence", "touches"].map text).Nodup
    decide +kernel
  | temporary record =>
    show (["kind", "sequence", "parent", "name"].map text).Nodup
    decide +kernel

theorem field_record {record : JournalRecord} {name : String} {written : Text} {value : Tree}
    (h : (name, written, value) ∈ recordMembers record.sequence record.record) :
    (recordJson record).2.field name = some value :=
  field_objectOf (nodup_recordMembers _ _) h

theorem field_sequence (record : JournalRecord) :
    (recordJson record).2.field "sequence" = some (.number record.sequence) := by
  refine @field_record record _ (formatNumber record.sequence) _ ?_
  cases record.record <;> exact .tail _ (.head _)

theorem requireName_eq {value : Text}
    (h : requireName (some (.string value)) label = .ok name) : name = value := by
  unfold requireName at h
  dsimp only at h
  split at h
  next => exact (Except.ok.inj h).symm
  next => cases h

theorem requirePath_eq {value path : Text}
    (h : requirePath (some (.string value)) label = .ok path) : path = value := by
  unfold requirePath at h
  dsimp only at h
  split at h
  next => exact (Except.ok.inj h).symm
  next => cases h

-- A record is decoded to itself

theorem nodup_touch (touch : TouchRecord) :
    (([stringMember "path" touch.path, backupMember touch.backup].map Prod.fst).map text).Nodup := by
  cases touch.backup with
  | none =>
    show (["path", "backup"].map text).Nodup
    decide +kernel
  | some backup =>
    show (["path", "backup"].map text).Nodup
    decide +kernel

theorem decodeTouch_self {touch decoded : TouchRecord}
    (h : decodeTouch (touchJson touch).2 = .ok decoded) : decoded = touch := by
  have hpath : (touchJson touch).2.field "path" = some (.string touch.path) :=
    field_objectOf (nodup_touch touch) (.head _)
  rw [decodeTouch, bind_eq_ok] at h
  obtain ⟨_, -, h⟩ := h
  rw [hpath, bind_eq_ok] at h
  obtain ⟨path, hpath, h⟩ := h
  obtain rfl := requirePath_eq hpath
  rw [bind_eq_ok] at h
  obtain ⟨backup, hbackup, h⟩ := h
  cases h
  obtain ⟨path, kept⟩ := touch
  cases kept with
  | none =>
    have hfield : (touchJson ⟨path, none⟩).2.field "backup" = some .null :=
      field_objectOf (nodup_touch ⟨path, none⟩) (.tail _ (.head _))
    rw [hfield] at hbackup
    cases hbackup
    rfl
  | some kept =>
    have hfield : (touchJson ⟨path, some kept⟩).2.field "backup" = some (.string kept) :=
      field_objectOf (nodup_touch ⟨path, some kept⟩) (.tail _ (.head _))
    rw [hfield, decodeBackup, exceptMap_eq_ok] at hbackup
    · obtain ⟨name, hname, rfl⟩ := hbackup
      rw [requireName_eq hname]
    · exact fun h => nomatch h

theorem decodeTouches_self {touches decoded : List TouchRecord}
    (h : decodeTouches (some (.array (touches.map fun touch => (touchJson touch).2))) = .ok decoded) :
    decoded = touches ∧ touches ≠ [] := by
  unfold decodeTouches at h
  dsimp only at h
  split at h
  next => cases h
  next hlength =>
    rw [Bool.or_eq_true, not_or, List.isEmpty_iff, List.map_eq_nil_iff] at hlength
    refine ⟨?_, hlength.1⟩
    clear hlength
    induction touches generalizing decoded with
    | nil =>
      obtain rfl : [] = decoded := Except.ok.inj h
      rfl
    | cons touch touches ih =>
      rw [map_cons, List.mapM_cons, bind_eq_ok] at h
      obtain ⟨first, hfirst, h⟩ := h
      rw [bind_eq_ok] at h
      obtain ⟨rest, hrest, h⟩ := h
      cases h
      rw [decodeTouch_self hfirst, ih hrest]

/-- The numbers of a record are safe. -/
def SafeRecord (record : JournalRecord) : Prop :=
  isSafeInteger record.sequence = true ∧
    match record.record with
    | .initial initial =>
      isSafeInteger initial.baseGeneration = true ∧ isSafeInteger initial.targetGeneration = true
    | _ => True

theorem safeInteger_number {value n : Int} (h : safeInteger (some (.number value)) = some n) :
    n = value ∧ isSafeInteger value = true := by
  unfold safeInteger at h
  dsimp only at h
  split at h
  next hsafe =>
    rw [Bool.and_eq_true] at hsafe
    exact ⟨(Option.some.inj h).symm, hsafe.2⟩
  next => cases h

theorem decodeInitial_self {record : InitialRecord} {decoded : InitialRecord} {sequence : Nat}
    (h : decodeInitial (recordJson ⟨sequence, .initial record⟩).2 sequence = .ok decoded) :
    decoded = record ∧ isSafeInteger record.baseGeneration = true ∧
      isSafeInteger record.targetGeneration = true := by
  have hversion : (recordJson ⟨sequence, .initial record⟩).2.field "version" = some (.number 1) :=
    field_record (.tail _ (.tail _ (.head _)))
  have htransaction : (recordJson ⟨sequence, .initial record⟩).2.field "transaction" =
      some (.string record.transaction) := field_record (.tail _ (.tail _ (.tail _ (.head _))))
  have hbase : (recordJson ⟨sequence, .initial record⟩).2.field "baseGeneration" =
      some (.number record.baseGeneration) :=
    field_record (.tail _ (.tail _ (.tail _ (.tail _ (.head _)))))
  have htarget : (recordJson ⟨sequence, .initial record⟩).2.field "targetGeneration" =
      some (.number record.targetGeneration) :=
    field_record (.tail _ (.tail _ (.tail _ (.tail _ (.tail _ (.head _))))))
  rw [decodeInitial, hversion, htransaction, hbase, htarget] at h
  cases hb : safeInteger (some (.number record.baseGeneration)) with
  | none =>
    rw [hb] at h
    cases h
  | some base =>
    cases ht : safeInteger (some (.number record.targetGeneration)) with
    | none =>
      rw [hb, ht] at h
      cases h
    | some target =>
      rw [hb, ht] at h
      obtain ⟨rfl, hsafeBase⟩ := safeInteger_number hb
      obtain ⟨rfl, hsafeTarget⟩ := safeInteger_number ht
      dsimp only at h
      split at h
      next => cases h
      next => exact ⟨(Except.ok.inj h).symm, hsafeBase, hsafeTarget⟩

/-- What is decoded of a record is the record. -/
theorem decodeRecord_self {decoded : JournalRecord}
    (h : decodeRecord (recordJson record).2 record.sequence = .ok decoded) :
    decoded = record ∧ SafeRecord record := by
  obtain ⟨sequence, record⟩ := record
  rw [decodeRecord, bind_eq_ok] at h
  obtain ⟨_, -, h⟩ := h
  rw [bind_eq_ok] at h
  obtain ⟨expected, hsequence, h⟩ := h
  unfold requireSequence at hsequence
  split at hsequence
  next hsafe =>
    cases hsequence
    rw [field_sequence] at hsafe
    have hsafe := (safeInteger_number hsafe).2
    cases record with
    | initial record =>
      have hkind : (recordJson ⟨sequence, .initial record⟩).2.field "kind" =
          some (.string (text "initial")) := field_record (.head _)
      rw [hkind] at h
      dsimp only at h
      rw [exceptMap_eq_ok, decodeKind, if_pos rfl] at h
      obtain ⟨kind, hdecoded, rfl⟩ := h
      obtain ⟨initial, hinitial, rfl⟩ := exceptMap_eq_ok.1 hdecoded
      obtain ⟨rfl, hnumbers⟩ := decodeInitial_self hinitial
      exact ⟨rfl, hsafe, hnumbers⟩
    | probe record =>
      have hkind : (recordJson ⟨sequence, .probe record⟩).2.field "kind" =
          some (.string (text "probe")) := field_record (.head _)
      have hparent : (recordJson ⟨sequence, .probe record⟩).2.field "parent" =
          some (.string record.parent) := field_record (.tail _ (.tail _ (.head _)))
      have horigin : (recordJson ⟨sequence, .probe record⟩).2.field "origin" =
          some (.string record.origin) := field_record (.tail _ (.tail _ (.tail _ (.head _))))
      have hdestination : (recordJson ⟨sequence, .probe record⟩).2.field "destination" =
          some (.string record.destination) :=
        field_record (.tail _ (.tail _ (.tail _ (.tail _ (.head _)))))
      rw [hkind] at h
      dsimp only at h
      rw [exceptMap_eq_ok, decodeKind, if_neg (by decide +kernel), if_pos rfl] at h
      obtain ⟨kind, hdecoded, rfl⟩ := h
      obtain ⟨probe, hprobe, rfl⟩ := exceptMap_eq_ok.1 hdecoded
      rw [decodeProbe, hparent, horigin, hdestination, bind_eq_ok] at hprobe
      obtain ⟨parent, hparent, hprobe⟩ := hprobe
      rw [bind_eq_ok] at hprobe
      obtain ⟨origin, horigin, hprobe⟩ := hprobe
      rw [bind_eq_ok] at hprobe
      obtain ⟨destination, hdestination, hprobe⟩ := hprobe
      cases hprobe
      rw [requirePath_eq hparent, requireName_eq horigin, requireName_eq hdestination]
      exact ⟨rfl, hsafe, trivial⟩
    | application touches =>
      have hkind : (recordJson ⟨sequence, .application touches⟩).2.field "kind" =
          some (.string (text "application")) := field_record (.head _)
      have htouches : (recordJson ⟨sequence, .application touches⟩).2.field "touches" =
          some (.array (touches.map fun touch => (touchJson touch).2)) :=
        field_record (.tail _ (.tail _ (.head _)))
      rw [hkind] at h
      dsimp only at h
      rw [exceptMap_eq_ok, decodeKind, if_neg (by decide +kernel), if_neg (by decide +kernel),
        if_pos rfl] at h
      obtain ⟨kind, hdecoded, rfl⟩ := h
      obtain ⟨decoded, htouch, rfl⟩ := exceptMap_eq_ok.1 hdecoded
      rw [htouches] at htouch
      obtain ⟨rfl, -⟩ := decodeTouches_self htouch
      exact ⟨rfl, hsafe, trivial⟩
    | temporary record =>
      have hkind : (recordJson ⟨sequence, .temporary record⟩).2.field "kind" =
          some (.string (text "temporary")) := field_record (.head _)
      have hparent : (recordJson ⟨sequence, .temporary record⟩).2.field "parent" =
          some (.string record.parent) := field_record (.tail _ (.tail _ (.head _)))
      have hname : (recordJson ⟨sequence, .temporary record⟩).2.field "name" =
          some (.string record.name) := field_record (.tail _ (.tail _ (.tail _ (.head _))))
      rw [hkind] at h
      dsimp only at h
      rw [exceptMap_eq_ok, decodeKind, if_neg (by decide +kernel), if_neg (by decide +kernel),
        if_neg (by decide +kernel), if_pos rfl] at h
      obtain ⟨kind, hdecoded, rfl⟩ := h
      obtain ⟨temporary, htemporary, rfl⟩ := exceptMap_eq_ok.1 hdecoded
      rw [decodeTemporary, hparent, hname, bind_eq_ok] at htemporary
      obtain ⟨parent, hparent, htemporary⟩ := htemporary
      rw [bind_eq_ok] at htemporary
      obtain ⟨name, hname, htemporary⟩ := htemporary
      cases htemporary
      rw [requirePath_eq hparent, requireName_eq hname]
      exact ⟨rfl, hsafe, trivial⟩
  next => cases hsequence

-- A payload is read back

/-- An object whose members are read is read. -/
theorem reads_objectOf (h : ∀ member ∈ members, Reads member.2.1 member.2.2) :
    Reads (objectOf members).1 (objectOf members).2 := Reads.object h

theorem natAbs_safe {n : Int} (h : isSafeInteger n = true) : n.natAbs < 10 ^ 21 := by
  have hbounds := isSafeInteger_iff.1 h
  unfold maxSafeInteger at hbounds
  omega

theorem reads_touch (touch : TouchRecord) : Reads (touchJson touch).1 (touchJson touch).2 := by
  refine reads_objectOf fun member hmember => ?_
  rcases mem_cons.1 hmember with rfl | hmember
  · exact Reads.string touch.path
  · obtain rfl := List.mem_singleton.1 hmember
    cases touch.backup with
    | none => exact Reads.null
    | some backup => exact Reads.string backup

theorem reads_touches (touches : List TouchRecord) :
    Reads (touchesMember touches).2.1 (touchesMember touches).2.2 := by
  have harray := @Reads.array (touches.map touchJson) fun element helement => by
    obtain ⟨touch, -, rfl⟩ := mem_map.1 helement
    exact reads_touch touch
  rw [map_map, map_map] at harray
  exact harray

/-- A record whose numbers are safe is read from its text. -/
theorem reads_record (h : SafeRecord record) :
    Reads (recordJson record).1 (recordJson record).2 := by
  obtain ⟨sequence, record⟩ := record
  obtain ⟨hsequence, hnumbers⟩ := h
  have hsequence := Reads.number (natAbs_safe hsequence)
  refine reads_objectOf fun member hmember => ?_
  cases record with
  | initial record =>
    obtain ⟨hbase, htarget⟩ := hnumbers
    simp only [recordMembers, mem_cons, not_mem_nil, or_false] at hmember
    rcases hmember with rfl | rfl | rfl | rfl | rfl | rfl
    · exact Reads.string _
    · exact hsequence
    · exact Reads.number (by decide)
    · exact Reads.string _
    · exact Reads.number (natAbs_safe hbase)
    · exact Reads.number (natAbs_safe htarget)
  | probe record =>
    simp only [recordMembers, mem_cons, not_mem_nil, or_false] at hmember
    rcases hmember with rfl | rfl | rfl | rfl | rfl
    · exact Reads.string _
    · exact hsequence
    all_goals exact Reads.string _
  | application touches =>
    simp only [recordMembers, mem_cons, not_mem_nil, or_false] at hmember
    rcases hmember with rfl | rfl | rfl
    · exact Reads.string _
    · exact hsequence
    · exact reads_touches touches
  | temporary record =>
    simp only [recordMembers, mem_cons, not_mem_nil, or_false] at hmember
    rcases hmember with rfl | rfl | rfl | rfl
    · exact Reads.string _
    · exact hsequence
    all_goals exact Reads.string _

theorem wellFormed_objectOf (h : ∀ member ∈ members, WellFormed member.2.1) :
    WellFormed (objectOf members).1 := by
  refine Json.wellFormed_objectText fun member hmember => ?_
  obtain ⟨whole, hwhole, rfl⟩ := mem_map.1 hmember
  exact h whole hwhole

theorem wellFormed_touch (touch : TouchRecord) : WellFormed (touchJson touch).1 := by
  refine wellFormed_objectOf fun member hmember => ?_
  rcases mem_cons.1 hmember with rfl | hmember
  · exact Json.wellFormed_quoted touch.path
  · obtain rfl := List.mem_singleton.1 hmember
    cases touch.backup with
    | none =>
      show WellFormed (text "null")
      decide +kernel
    | some backup => exact Json.wellFormed_quoted backup

theorem wellFormed_record (record : JournalRecord) : WellFormed (recordJson record).1 := by
  obtain ⟨sequence, record⟩ := record
  refine wellFormed_objectOf fun member hmember => ?_
  have hstring : ∀ name value, WellFormed (stringMember name value).2.1 :=
    fun _ value => Json.wellFormed_quoted value
  have hnumber : ∀ name value, WellFormed (numberMember name value).2.1 :=
    fun _ value => Json.wellFormed_formatNumber value
  have htouches : ∀ touches, WellFormed (touchesMember touches).2.1 := by
    intro touches
    refine Json.wellFormed_arrayText fun value hvalue => ?_
    obtain ⟨touch, -, rfl⟩ := mem_map.1 hvalue
    exact wellFormed_touch touch
  cases record with
  | initial record =>
    simp only [recordMembers, mem_cons, not_mem_nil, or_false] at hmember
    rcases hmember with rfl | rfl | rfl | rfl | rfl | rfl
    all_goals first | exact hstring _ _ | exact hnumber _ _
  | probe record =>
    simp only [recordMembers, mem_cons, not_mem_nil, or_false] at hmember
    rcases hmember with rfl | rfl | rfl | rfl | rfl
    all_goals first | exact hstring _ _ | exact hnumber _ _
  | application touches =>
    simp only [recordMembers, mem_cons, not_mem_nil, or_false] at hmember
    rcases hmember with rfl | rfl | rfl
    · exact hstring _ _
    · exact hnumber _ _
    · exact htouches touches
  | temporary record =>
    simp only [recordMembers, mem_cons, not_mem_nil, or_false] at hmember
    rcases hmember with rfl | rfl | rfl | rfl
    all_goals first | exact hstring _ _ | exact hnumber _ _

/-- The fatal decoder takes a payload and the parser takes its text. -/
theorem parse_payload (h : SafeRecord record) :
    (Utf8.textDecodeFatal (payloadOf record)).bind Json.parse = some (recordJson record).2 := by
  have hdecoded : Utf8.decodeFatal (payloadOf record) = some (recordJson record).1 :=
    Utf8.decodeFatal_iff.2 ⟨wellFormed_record record, rfl⟩
  have hmark : (recordJson record).1.head? ≠ some 0xfeff := by
    show some (0x7b : UInt16) ≠ some 0xfeff
    decide
  rw [Utf8.textDecodeFatal_eq, hdecoded, Option.map_some, Utf8.dropMark_of_ne hmark]
  exact (reads_record h).parse

-- Frames

@[simp] theorem length_uint32Bytes (n : Nat) : (uint32Bytes n).length = frameHeaderBytes := rfl

theorem uint32Of_uint32Bytes (h : n ≤ maxFrameLimit) : uint32Of (uint32Bytes n) = n := by
  unfold maxFrameLimit at h
  have htop : n / 0x1000000 < 0x100 := by omega
  show (((0 * 0x100 + (n / 0x1000000).toUInt8.toNat) * 0x100 +
    (n / 0x10000 % 0x100).toUInt8.toNat) * 0x100 + (n / 0x100 % 0x100).toUInt8.toNat) * 0x100 +
    (n % 0x100).toUInt8.toNat = n
  rw [Utf8.toNat_toUInt8 htop, Utf8.toNat_toUInt8 (Nat.mod_lt _ (by decide)),
    Utf8.toNat_toUInt8 (Nat.mod_lt _ (by decide)), Utf8.toNat_toUInt8 (Nat.mod_lt _ (by decide))]
  omega

theorem length_frameOf (sha256 : Sha256) (payload : List UInt8) :
    (frameOf sha256 payload).length = frameHeaderBytes + (payload.length + checksumBytes) := by
  rw [frameOf, length_append, length_append, sha256.length_digest, length_uint32Bytes]

/-- The frames of records, one behind the other. -/
def framesOf (sha256 : Sha256) (records : List JournalRecord) : List UInt8 :=
  records.flatMap fun record => frameOf sha256 (payloadOf record)

/-- How many of the records stand in the first bytes of their frames as a whole. -/
def wholeFrames (sha256 : Sha256) : List JournalRecord → Nat → Nat
  | [], _ => 0
  | record :: records, n =>
    let length := (frameOf sha256 (payloadOf record)).length
    if length ≤ n then wholeFrames sha256 records (n - length) + 1 else 0

theorem framesOf_cons (sha256 : Sha256) (record : JournalRecord) (records : List JournalRecord) :
    framesOf sha256 (record :: records) =
      frameOf sha256 (payloadOf record) ++ framesOf sha256 records := List.flatMap_cons

theorem framesOf_append (sha256 : Sha256) (left right : List JournalRecord) :
    framesOf sha256 (left ++ right) = framesOf sha256 left ++ framesOf sha256 right :=
  List.flatMap_append

theorem wholeFrames_le (sha256 : Sha256) (records : List JournalRecord) (n : Nat) :
    wholeFrames sha256 records n ≤ records.length := by
  induction records generalizing n with
  | nil => exact Nat.le_refl 0
  | cons record records ih =>
    rw [wholeFrames]
    split
    next => exact Nat.succ_le_succ (ih _)
    next => exact Nat.zero_le _

/-- The frames that stand in the first bytes as a whole are those that start them. -/
theorem framesOf_prefix_iff {sha256 : Sha256} {k : Nat} (hk : k ≤ records.length) :
    framesOf sha256 (records.take k) <+: (framesOf sha256 records).take n ↔
      k ≤ wholeFrames sha256 records n := by
  induction records generalizing k n with
  | nil =>
    obtain rfl : k = 0 := Nat.le_zero.1 hk
    exact iff_of_true List.nil_prefix (Nat.zero_le _)
  | cons record records ih =>
    cases k with
    | zero => exact iff_of_true List.nil_prefix (Nat.zero_le _)
    | succ k =>
      have hk : k ≤ records.length := Nat.le_of_succ_le_succ hk
      rw [List.take_succ_cons, framesOf_cons, framesOf_cons, wholeFrames]
      split
      next hle =>
        rw [List.take_append, List.take_of_length_le hle, List.prefix_append_right_inj, ih hk]
        exact (Nat.succ_le_succ_iff).symm
      next hlt =>
        constructor
        · intro hstart
          have hlength := hstart.length_le
          rw [length_append, List.length_take] at hlength
          omega
        · exact fun h => nomatch h

-- The reader

/-- A record that the reader takes at its place. -/
structure Readable (index : Nat) (record : JournalRecord) : Prop where
  sequence : record.sequence = index
  decoded : decodeRecord (recordJson record).2 index = .ok record
  fits : (payloadOf record).length ≤ maxFrameLimit

theorem Readable.safe {index : Nat} (h : Readable index record) : SafeRecord record := by
  have hdecoded := h.decoded
  rw [← h.sequence] at hdecoded
  exact (decodeRecord_self hdecoded).2

variable {sha256 : Sha256} {maxRecords maxActions : Nat}

/-- A whole frame is read as its record. -/
theorem readFrames_frame
    (hread : Readable records.length record) (hrecords : records.length < maxRecords)
    (hactions : actions + actionsOf record.record ≤ maxActions) (rest : List UInt8) :
    readFrames sha256 maxRecords maxActions records actions
        (frameOf sha256 (payloadOf record) ++ rest) =
      readFrames sha256 maxRecords maxActions (records ++ [record])
        (actions + actionsOf record.record) rest := by
  have hlength := length_frameOf sha256 (payloadOf record)
  have hheader : (frameOf sha256 (payloadOf record) ++ rest).take frameHeaderBytes =
      uint32Bytes (payloadOf record).length := by
    rw [frameOf, append_assoc]
    exact List.take_left' rfl
  have hbody : (frameOf sha256 (payloadOf record) ++ rest).drop frameHeaderBytes =
      payloadOf record ++ (sha256.digest (payloadOf record) ++ rest) := by
    rw [frameOf, append_assoc, append_assoc]
    exact List.drop_left' rfl
  have hdigest := sha256.length_digest (payloadOf record)
  rw [readFrames]
  rw [dif_neg, if_neg (by omega), if_neg]
  · dsimp only
    rw [hheader, hbody, uint32Of_uint32Bytes hread.fits, if_neg (not_lt.2 hread.fits), if_neg,
      List.take_left, List.drop_left, List.take_left' hdigest, if_neg (not_not.2 rfl),
      parse_payload hread.safe]
    · dsimp only
      rw [hread.decoded]
      dsimp only
      rw [if_neg (not_lt.2 hactions), ← List.drop_drop, List.drop_left, List.drop_left' hdigest]
    · rw [length_append, length_append, hdigest]
      omega
  · rw [length_append]
    omega
  · intro hnil
    have hzero := congrArg List.length hnil
    rw [length_append, hlength, List.length_nil] at hzero
    unfold frameHeaderBytes at hzero
    omega

/-- A torn frame is the end. -/
theorem readFrames_torn {payload : List UInt8}
    (hfits : payload.length ≤ maxFrameLimit) (hrecords : records.length < maxRecords)
    (rest : List UInt8) (hn : n < (frameOf sha256 payload).length) :
    readFrames sha256 maxRecords maxActions records actions
      ((frameOf sha256 payload ++ rest).take n) = .ok records := by
  rw [List.take_append_of_le_length hn.le]
  rw [length_frameOf] at hn
  have hlength : ((frameOf sha256 payload).take n).length = n := by
    rw [List.length_take, length_frameOf]
    omega
  rw [readFrames]
  split
  next => rfl
  next =>
    rw [if_neg (by omega)]
    split
    next => rfl
    next hheader =>
      have hstart : ((frameOf sha256 payload).take n).take frameHeaderBytes =
          uint32Bytes payload.length := by
        rw [List.take_take, Nat.min_eq_left (by omega), frameOf]
        exact List.take_left' rfl
      dsimp only
      rw [hstart, uint32Of_uint32Bytes hfits, if_neg (not_lt.2 hfits), if_pos]
      rw [List.length_drop, hlength]
      omega

/-- Of the first bytes of frames the whole ones are read. -/
theorem readFrames_take {read records : List JournalRecord} {actions : Nat}
    (hread : ∀ i record, records[i]? = some record → Readable (read.length + i) record)
    (hrecords : read.length + records.length ≤ maxRecords)
    (hactions : actions + (records.map fun record => actionsOf record.record).sum ≤ maxActions)
    (n : Nat) :
    readFrames sha256 maxRecords maxActions read actions ((framesOf sha256 records).take n) =
      .ok (read ++ records.take (wholeFrames sha256 records n)) := by
  induction records generalizing read actions n with
  | nil =>
    show readFrames sha256 maxRecords maxActions read actions (List.take n []) = _
    rw [List.take_nil, List.take_nil, List.append_nil, readFrames, dif_pos rfl]
  | cons record records ih =>
    have hfirst : Readable read.length record := hread 0 record rfl
    rw [List.length_cons] at hrecords
    rw [map_cons, List.sum_cons] at hactions
    rw [framesOf_cons, wholeFrames]
    split
    next hle =>
      rw [List.take_append, List.take_of_length_le hle,
        readFrames_frame hfirst (by omega) (by omega), ih]
      · rw [List.take_succ_cons, append_assoc, List.singleton_append]
      · intro i other hother
        have hplace := hread (i + 1) other (by rw [List.getElem?_cons_succ, hother])
        rwa [length_append, List.length_singleton, Nat.add_assoc, Nat.add_comm 1 i]
      · rw [length_append, List.length_singleton]
        omega
      · omega
    next hlt =>
      rw [readFrames_torn hfirst.fits (by omega) _ (not_le.1 hlt), List.take_zero, List.append_nil]

end Kompjutr.Recovery
