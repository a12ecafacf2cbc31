/-
  Kompjutr.Pack.TreeScanner

  `TreeReferenceScanner` (`store/pack/ingest/ingest-references-scan.ts`): the scanner of tree
  chunks at ingest, which keeps the mode as a number and the id as words.

  It follows the structure of the tree as the parser does (`push_simulates`), so both accept the
  same trees, and what it reports are the entries that are no gitlinks.
-/
import Kompjutr.Objects.TreeParser

namespace Kompjutr.Pack

open Objects (Text text ascii RawEntry ObjectType isTreeMode typeForMode MODE_COMMIT
  ParsedTreeEntry parseTreeStream parsedFrom)
open Objects.RawTree (IsTree Part)
open Transducer (run run_append run_of_error run_of_silent run_run run_simulates Simulates)
open Utf8 (textDecode)
open Bytes (Uint8Array)
open List (length_append length_drop length_singleton length_take)

variable {bytes read : List UInt8} {oid : List UInt32}

/-- `modeKey`: the units packed big-endian. -/
def modeKey (mode : Text) : Nat := mode.foldl (fun key unit => key * 256 + unit.toNat) 0

def TREE_MODE_KEY : Nat := modeKey (text "40000")
def PADDED_TREE_MODE_KEY : Nat := modeKey (text "040000")
def GITLINK_MODE_KEY : Nat := modeKey (text "160000")
def SHORT_MODE_BYTES : Nat := 5
def MAX_MODE_BYTES : Nat := 6
def OID_BYTES : Nat := 20

/-- What the sink receives. -/
structure Reference where
  oid : List UInt32
  type : ObjectType
  deriving DecidableEq

inductive ScanState where
  | inMode | inName | inOid
  deriving DecidableEq

/-- The fields of a scanner.  Inside of an id octets are missing. -/
structure TreeReferenceScanner where
  oid : List UInt32
  state : ScanState
  mode : Nat
  modeBytes : Nat
  oidBytes : Nat
  words : oid.length = 5
  reading : state = .inOid → oidBytes < OID_BYTES

/-- `word = (word << 8) | byte` in the word of the octet. -/
def writeByte (oid : List UInt32) (read : Nat) (byte : UInt8) : List UInt32 :=
  oid.modify (read / 4) fun word => word <<< 8 ||| byte.toUInt32

/-- The loop of `#readOid`. -/
def writeBytes (oid : List UInt32) (read : Nat) : List UInt8 → List UInt32
  | [] => oid
  | byte :: rest => writeBytes (writeByte oid read byte) (read + 1) rest

theorem length_writeBytes (oid : List UInt32) (read : Nat) (bytes : List UInt8) :
    (writeBytes oid read bytes).length = oid.length := by
  induction bytes generalizing oid read with
  | nil => rfl
  | cons byte bytes ih => rw [writeBytes, ih, writeByte, List.length_modify]

namespace TreeReferenceScanner

/-- A new scanner. -/
def new : TreeReferenceScanner where
  oid := List.replicate 5 0
  state := .inMode
  mode := 0
  modeBytes := 0
  oidBytes := 0
  words := rfl
  reading := nofun

/-- `reset`: the words stay as they are. -/
def reset (scanner : TreeReferenceScanner) : TreeReferenceScanner :=
  { scanner with state := .inMode, mode := 0, modeBytes := 0, oidBytes := 0, reading := nofun }

/-- `#emit`. -/
def emit (scanner : TreeReferenceScanner) : TreeReferenceScanner × List Reference :=
  ({ scanner with state := .inMode, mode := 0, modeBytes := 0, reading := nofun },
    if scanner.modeBytes = MAX_MODE_BYTES ∧ scanner.mode = GITLINK_MODE_KEY then []
    else
      let subtree :=
        (scanner.modeBytes = SHORT_MODE_BYTES ∧ scanner.mode = TREE_MODE_KEY) ∨
          (scanner.modeBytes = MAX_MODE_BYTES ∧ scanner.mode = PADDED_TREE_MODE_KEY)
      [{ oid := scanner.oid, type := if subtree then .tree else .blob }])

/-- How many octets `#readOid` takes of a chunk. -/
def stop (scanner : TreeReferenceScanner) (chunk : List UInt8) : Nat :=
  min chunk.length (OID_BYTES - scanner.oidBytes)

/-- `#readOid`. -/
def readOid (scanner : TreeReferenceScanner) (chunk : List UInt8) :
    TreeReferenceScanner × List Reference :=
  let oid := writeBytes scanner.oid scanner.oidBytes (chunk.take (scanner.stop chunk))
  let read := scanner.oidBytes + scanner.stop chunk
  have words : oid.length = 5 := (length_writeBytes _ _ _).trans scanner.words
  if hread : read < OID_BYTES then
    ({ scanner with oid, words, oidBytes := read, reading := fun _ => hread }, [])
  else
    emit { scanner with oid, words, oidBytes := read, state := .inMode, reading := nofun }

/-- `push`, on what is left of a chunk. -/
def push (scanner : TreeReferenceScanner) (chunk : List UInt8) :
    Except GitError (TreeReferenceScanner × List Reference) :=
  match chunk with
  | [] => .ok (scanner, [])
  | byte :: rest =>
    match hstate : scanner.state with
    | .inMode =>
      if byte = 0x20 then push { scanner with state := .inName, reading := nofun } rest
      else if scanner.modeBytes = MAX_MODE_BYTES then .error (corrupt "tree mode is too long")
      else
        push { scanner with
          mode := scanner.mode * 256 + byte.toNat
          modeBytes := scanner.modeBytes + 1 } rest
    | .inName =>
      match (byte :: rest).idxOf? 0 with
      | none => .ok (scanner, [])
      | some nul =>
        push { scanner with state := .inOid, oidBytes := 0, reading := fun _ => by decide }
          ((byte :: rest).drop (nul + 1))
    | .inOid =>
      let next := scanner.readOid (byte :: rest)
      (push next.1 ((byte :: rest).drop (scanner.stop (byte :: rest)))).map fun last =>
        (last.1, next.2 ++ last.2)
termination_by chunk.length
decreasing_by
  · exact Nat.lt_succ_self _
  · exact Nat.lt_succ_self _
  · rw [length_drop, List.length_cons]
    omega
  · have hread := scanner.reading hstate
    rw [length_drop, stop, List.length_cons]
    omega

/-- `finish`. -/
def finish (scanner : TreeReferenceScanner) : Except GitError Unit :=
  reject (scanner.state ≠ .inMode || scanner.modeBytes ≠ 0) (corrupt "malformed tree entry")

/-- A tree in chunks, by a scanner that was used before: what it reports. -/
def scan (scanner : TreeReferenceScanner) (chunks : List (List UInt8)) :
    Except GitError (List Reference) :=
  (run push scanner.reset chunks).bind fun last => last.1.finish.map fun _ => last.2

end TreeReferenceScanner

-- Octets packed into numbers

/-- The number that octets stand for, the first one on top. -/
def bigEndian (bytes : List UInt8) : Nat := bytes.foldl (fun n byte => n * 256 + byte.toNat) 0

theorem bigEndian_concat (bytes : List UInt8) (byte : UInt8) :
    bigEndian (bytes ++ [byte]) = bigEndian bytes * 256 + byte.toNat := by
  rw [bigEndian, List.foldl_append]
  rfl

/-- Octets of one length are told apart by their number. -/
theorem bigEndian_inj {left right : List UInt8} (hlength : left.length = right.length)
    (h : bigEndian left = bigEndian right) : left = right := by
  induction left using List.reverseRecOn generalizing right with
  | nil => exact (List.eq_nil_of_length_eq_zero hlength.symm).symm
  | append_singleton left byte ih =>
    obtain rfl | ⟨right, other, rfl⟩ := List.eq_nil_or_concat' right
    · rw [length_append] at hlength
      cases hlength
    · rw [bigEndian_concat, bigEndian_concat] at h
      have hbyte := byte.toNat_lt
      have hother := other.toNat_lt
      rw [length_append, length_append, length_singleton, length_singleton]
        at hlength
      have hleft : left = right := ih (by omega) (by omega)
      have hlast : byte = other := UInt8.toNat_inj.1 (by omega)
      rw [hleft, hlast]

theorem toNat_shift (word : UInt32) (byte : UInt8) :
    (word <<< 8 ||| byte.toUInt32).toNat = (word.toNat * 256 + byte.toNat) % 2 ^ 32 := by
  have hbyte : byte.toNat < 2 ^ 8 := byte.toNat_lt
  have hshift : (word <<< 8).toNat = (word.toNat % 2 ^ 24) <<< 8 := by
    rw [UInt32.toNat_shiftLeft]
    show word.toNat <<< 8 % 2 ^ 32 = _
    rw [Nat.shiftLeft_eq, Nat.shiftLeft_eq]
    omega
  rw [UInt32.toNat_or, hshift, UInt8.toNat_toUInt32, ← Nat.shiftLeft_add_eq_or_of_lt hbyte,
    Nat.shiftLeft_eq]
  omega

theorem shift_mod (n count : Nat) {byte : Nat} (h : byte < 256) :
    (n * 256 + byte) % 256 ^ (count + 1) = n % 256 ^ count * 256 + byte := by
  have hmod := Nat.mod_lt n (Nat.pow_pos (n := count) (show 0 < 256 by decide))
  have hsplit : n * 256 + byte =
      n % 256 ^ count * 256 + byte + 256 ^ (count + 1) * (n / 256 ^ count) := by
    have hdiv := Nat.mod_add_div n (256 ^ count)
    rw [Nat.pow_succ, Nat.mul_right_comm]
    omega
  rw [hsplit, Nat.add_mul_mod_self_left, Nat.mod_eq_of_lt]
  rw [Nat.pow_succ]
  omega

/-- The octets of a word, as far as they were read. -/
def window (word : Nat) (bytes : List UInt8) : List UInt8 := (bytes.drop (4 * word)).take 4

theorem window_concat_self (byte : UInt8) :
    window (bytes.length / 4) (bytes ++ [byte]) = window (bytes.length / 4) bytes ++ [byte] := by
  have hle : 4 * (bytes.length / 4) ≤ bytes.length := by omega
  rw [window, window, List.drop_append_of_le_length hle, List.take_of_length_le,
    List.take_of_length_le]
  · rw [length_drop]
    omega
  · rw [length_append, length_drop, length_singleton]
    omega

theorem window_concat_of_ne {word : Nat} (byte : UInt8)
    (h : word ≠ bytes.length / 4) : window word (bytes ++ [byte]) = window word bytes := by
  rw [window, window]
  by_cases hless : word < bytes.length / 4
  · rw [List.drop_append_of_le_length (by omega), List.take_append_of_le_length]
    rw [length_drop]
    omega
  · rw [List.drop_of_length_le, List.drop_of_length_le (by omega)]
    rw [length_append, length_singleton]
    omega

/-- The words hold what was read, below what was in them before. -/
def Packs (oid : List UInt32) (read : List UInt8) : Prop :=
  ∀ (index : Nat) (word : UInt32), oid[index]? = some word →
    word.toNat % 256 ^ (window index read).length = bigEndian (window index read)

theorem packs_nil (oid : List UInt32) : Packs oid [] := by
  intro index word _
  rw [window, List.drop_nil]
  exact Nat.mod_one _

theorem writeByte_packs (h : Packs oid read)
    (byte : UInt8) : Packs (writeByte oid read.length byte) (read ++ [byte]) := by
  intro index word hword
  rw [writeByte, List.getElem?_modify] at hword
  obtain ⟨old, hold, rfl⟩ := Option.map_eq_some_iff.1 hword
  have hread := h index old hold
  by_cases hsame : read.length / 4 = index
  · subst hsame
    have hfour : (window (read.length / 4) read).length < 4 := by
      rw [window, length_take, length_drop]
      omega
    have hdvd : 256 ^ ((window (read.length / 4) read).length + 1) ∣ 2 ^ 32 :=
      Nat.pow_dvd_pow 256 hfour
    rw [if_pos rfl, window_concat_self, bigEndian_concat, ← hread, length_append,
      length_singleton, toNat_shift, Nat.mod_mod_of_dvd _ hdvd, shift_mod _ _ byte.toNat_lt]
  · rw [if_neg hsame, window_concat_of_ne byte (Ne.symm hsame), hread]

theorem writeBytes_packs (h : Packs oid read)
    (bytes : List UInt8) : Packs (writeBytes oid read.length bytes) (read ++ bytes) := by
  induction bytes generalizing oid read with
  | nil => rwa [List.append_nil]
  | cons byte bytes ih =>
    have hnext := ih (writeByte_packs h byte)
    rwa [length_append, length_singleton, ← List.append_cons] at hnext

/-- The five words of an id. -/
def wordsOf (oid : List UInt8) : List UInt32 :=
  (List.range 5).map fun word => UInt32.ofNat (bigEndian (window word oid))

/-- Twenty octets leave nothing of what was in the words before. -/
theorem eq_wordsOf (h : Packs oid read)
    (hwords : oid.length = 5) (hread : read.length = 20) : oid = wordsOf read := by
  unfold wordsOf
  refine List.ext_getElem (by rw [hwords, List.length_map, List.length_range]) fun word hw _ => ?_
  have hfour : (window word read).length = 4 := by
    rw [window, length_take, length_drop]
    omega
  have hword := h word _ (List.getElem?_eq_getElem hw)
  rw [hfour] at hword
  rw [List.getElem_map, List.getElem_range, ← hword, ← UInt32.toNat_inj, UInt32.toNat_ofNat']
  have hlt := oid[word].toNat_lt
  omega

-- Modes

theorem modeKey_text (bytes : List UInt8) : modeKey (bytes.map UInt8.toUInt16) = bigEndian bytes := by
  rw [modeKey, bigEndian, List.foldl_map]
  rfl

/-- Six octets spell no ASCII text of five units or six but themselves: a byte order mark in front
    leaves three. -/
theorem textDecode_eq_ascii {mode : List UInt8} (hshort : mode.length ≤ 6)
    (hlength : 4 ≤ bytes.length) (hbytes : ∀ byte ∈ bytes, byte < 0x80) :
    textDecode mode = bytes.map UInt8.toUInt16 ↔ mode = bytes := by
  constructor
  · intro h
    rw [textDecode] at h
    split at h
    · next hmark =>
      have hrest := Utf8.eq_of_decode_ascii hbytes h
      have hdrop := congrArg List.length hrest
      rw [length_drop] at hdrop
      omega
    · exact Utf8.eq_of_decode_ascii hbytes h
  · rintro rfl
    have hmark : ¬ Utf8.byteOrderMark.isPrefixOf mode = true := by
      rw [List.isPrefixOf_iff_prefix]
      rintro ⟨rest, rfl⟩
      exact absurd (hbytes 0xef (by simp [Utf8.byteOrderMark])) (by decide)
    rw [textDecode, if_neg hmark, Utf8.decode_ascii hbytes]

/-- The comparison of key and length is one of texts. -/
theorem modeKey_eq_iff {mode bytes : List UInt8} (hshort : mode.length ≤ 6)
    (hlength : 4 ≤ bytes.length) (hbytes : ∀ byte ∈ bytes, byte < 0x80) :
    (mode.length = bytes.length ∧ bigEndian mode = modeKey (bytes.map UInt8.toUInt16)) ↔
      textDecode mode = bytes.map UInt8.toUInt16 := by
  rw [textDecode_eq_ascii hshort hlength hbytes, modeKey_text]
  constructor
  · rintro ⟨hsame, hkey⟩
    exact bigEndian_inj hsame hkey
  · rintro rfl
    exact ⟨rfl, rfl⟩

/-- What is reported of an entry: its id and the type that its mode implies, unless it is a
    gitlink. -/
def references (entry : RawEntry) : List Reference :=
  match typeForMode (textDecode entry.mode) with
  | .commit => []
  | type => [{ oid := wordsOf entry.oid, type }]

namespace TreeReferenceScanner

theorem emit_references {scanner : TreeReferenceScanner} {entry : RawEntry}
    (hshort : entry.mode.length ≤ 6) (hkey : scanner.mode = bigEndian entry.mode)
    (hbytes : scanner.modeBytes = entry.mode.length) (hoid : scanner.oid = wordsOf entry.oid) :
    scanner.emit.2 = references entry := by
  have hlink := @modeKey_eq_iff entry.mode (ascii "160000") hshort (by decide) (by decide +kernel)
  have htree := @modeKey_eq_iff entry.mode (ascii "40000") hshort (by decide) (by decide +kernel)
  have hpadded := @modeKey_eq_iff entry.mode (ascii "040000") hshort (by decide) (by decide +kernel)
  have hgit : (scanner.modeBytes = MAX_MODE_BYTES ∧ scanner.mode = GITLINK_MODE_KEY) ↔
      textDecode entry.mode = MODE_COMMIT := by
    rw [hkey, hbytes]
    exact hlink
  have hsub : ((scanner.modeBytes = SHORT_MODE_BYTES ∧ scanner.mode = TREE_MODE_KEY) ∨
      (scanner.modeBytes = MAX_MODE_BYTES ∧ scanner.mode = PADDED_TREE_MODE_KEY)) ↔
      isTreeMode (textDecode entry.mode) = true := by
    rw [hkey, hbytes, isTreeMode, Bool.or_eq_true, decide_eq_true_eq, decide_eq_true_eq]
    exact or_congr htree hpadded
  have hnot : isTreeMode MODE_COMMIT = false := by decide
  unfold emit references typeForMode
  dsimp only
  by_cases hcommit : textDecode entry.mode = MODE_COMMIT
  · rw [if_pos (hgit.2 hcommit), hcommit, hnot, if_neg Bool.false_ne_true, if_pos rfl]
  · rw [if_neg (mt hgit.1 hcommit), hoid]
    by_cases htype : isTreeMode (textDecode entry.mode) = true
    · rw [if_pos (hsub.2 htype), if_pos htype]
    · rw [if_neg (mt hsub.1 htype), if_neg htype, if_neg hcommit]

-- The scanner and the structure of the tree

/-- The scanner has read a part of an entry. -/
def Reads (part : Part) (scanner : TreeReferenceScanner) : Prop :=
  match part with
  | .inMode mode => scanner.state = .inMode ∧
      scanner.mode = bigEndian mode ∧ scanner.modeBytes = mode.length ∧ mode.length ≤ 6
  | .inName mode _ => scanner.state = .inName ∧
      scanner.mode = bigEndian mode ∧ scanner.modeBytes = mode.length ∧ mode.length ≤ 6
  | .inOid mode _ oid => scanner.state = .inOid ∧
      (scanner.mode = bigEndian mode ∧ scanner.modeBytes = mode.length ∧ mode.length ≤ 6) ∧
        scanner.oidBytes = oid.length ∧ Packs scanner.oid oid

theorem reads_reset (scanner : TreeReferenceScanner) : Reads (.inMode []) scanner.reset :=
  ⟨rfl, rfl, rfl, Nat.zero_le _⟩

theorem finish_eq_ok {part : Part} {scanner : TreeReferenceScanner} (h : Reads part scanner) :
    scanner.finish = .ok () ↔ part = .inMode [] := by
  unfold finish
  rw [reject_eq_ok]
  cases part with
  | inMode mode =>
    obtain ⟨hstate, -, hbytes, -⟩ := h
    rw [hstate, hbytes]
    cases mode with
    | nil => exact ⟨fun _ => rfl, fun _ => rfl⟩
    | cons byte mode => exact ⟨fun h => (nomatch h), fun h => (nomatch h)⟩
  | inName mode name =>
    rw [h.1]
    exact ⟨fun h => (nomatch h), fun h => (nomatch h)⟩
  | inOid mode name oid =>
    rw [h.1]
    exact ⟨fun h => (nomatch h), fun h => (nomatch h)⟩

/-- `#readOid` takes what the structure takes of the id. -/
theorem readOid_reads {mode name oid : List UInt8} {scanner : TreeReferenceScanner}
    (h : Reads (.inOid mode name oid) scanner) {chunk : List UInt8} (hne : chunk ≠ []) :
    ∃ next entries,
      run Objects.RawTree.step (.inOid mode name oid) (chunk.take (scanner.stop chunk)) =
        .ok (next, entries) ∧
      (scanner.readOid chunk).2 = entries.flatMap references ∧
        Reads next (scanner.readOid chunk).1 := by
  obtain ⟨hstate, hmode, hread, hpacks⟩ := h
  have hlength : (chunk.take (scanner.stop chunk)).length = scanner.stop chunk := by
    rw [length_take]
    exact Nat.min_eq_left (Nat.min_le_left ..)
  have hpacked := writeBytes_packs hpacks (chunk.take (scanner.stop chunk))
  rw [← hread] at hpacked
  have hreading := scanner.reading hstate
  have hle : scanner.stop chunk ≤ OID_BYTES - scanner.oidBytes := Nat.min_le_right ..
  have hpos : 0 < scanner.stop chunk :=
    lt_min (List.length_pos_of_ne_nil hne) (Nat.sub_pos_of_lt hreading)
  have htwenty : OID_BYTES = 20 := rfl
  unfold readOid
  dsimp only
  split
  · next hpart =>
    refine ⟨_, [], Objects.RawTree.run_oid_part mode name oid _ (by omega), rfl, ?_⟩
    refine ⟨hstate, hmode, ?_, hpacked⟩
    rw [length_append, hlength]
    exact congrArg (· + scanner.stop chunk) hread
  · next hwhole =>
    have hentry : (oid ++ chunk.take (scanner.stop chunk)).length = 20 := by
      rw [length_append, hlength]
      omega
    refine ⟨_, _, Objects.RawTree.run_oid mode name oid _ ?_ (by omega), ?_, ?_⟩
    · exact List.ne_nil_of_length_pos (by omega)
    · rw [List.flatMap_singleton]
      refine emit_references hmode.2.2 hmode.1 hmode.2.1 ?_
      exact eq_wordsOf hpacked ((length_writeBytes ..).trans scanner.words) hentry
    · exact ⟨rfl, rfl, rfl, Nat.zero_le _⟩

theorem split_at_nul {chunk : List UInt8} {nul : Nat} (h : chunk.idxOf? 0 = some nul) :
    0 ∉ chunk.take nul ∧ chunk = chunk.take nul ++ 0 :: chunk.drop (nul + 1) := by
  obtain ⟨hlt, hget, hbefore⟩ := List.findIdx?_eq_some_iff_getElem.1 h
  constructor
  · intro hmem
    obtain ⟨i, hi, hzero⟩ := List.getElem_of_mem hmem
    rw [length_take] at hi
    rw [List.getElem_take] at hzero
    refine hbefore i (by omega) ?_
    rw [hzero]
    rfl
  · have hzero : chunk[nul] = 0 := eq_of_beq hget
    rw [← hzero, ← List.drop_eq_getElem_cons hlt, List.take_append_drop]

section

variable {part : Part} {scanner : TreeReferenceScanner} (h : Reads part scanner)

include h

theorem Reads.of_inMode (hstate : scanner.state = .inMode) : ∃ mode, part = .inMode mode ∧
      scanner.mode = bigEndian mode ∧ scanner.modeBytes = mode.length ∧ mode.length ≤ 6 := by
  cases part with
  | inMode mode => exact ⟨mode, rfl, h.2⟩
  | inName mode name => cases hstate.symm.trans h.1
  | inOid mode name oid => cases hstate.symm.trans h.1

theorem Reads.of_inName (hstate : scanner.state = .inName) : ∃ mode name, part = .inName mode name ∧
      scanner.mode = bigEndian mode ∧ scanner.modeBytes = mode.length ∧ mode.length ≤ 6 := by
  cases part with
  | inMode mode => cases hstate.symm.trans h.1
  | inName mode name => exact ⟨mode, name, rfl, h.2⟩
  | inOid mode name oid => cases hstate.symm.trans h.1

theorem Reads.of_inOid (hstate : scanner.state = .inOid)
    : ∃ mode name oid, part = .inOid mode name oid := by
  cases part with
  | inMode mode => cases hstate.symm.trans h.1
  | inName mode name => cases hstate.symm.trans h.1
  | inOid mode name oid => exact ⟨mode, name, oid, rfl⟩

end

section Push

variable {scanner : TreeReferenceScanner} {byte : UInt8} {rest : List UInt8}

theorem push_space (h : scanner.state = .inMode) :
    push scanner (0x20 :: rest) =
      push { scanner with state := .inName, reading := nofun } rest := by
  rw [push]
  split
  · rw [if_pos rfl]
  · next hname => cases h.symm.trans hname
  · next hoid => cases h.symm.trans hoid

theorem push_long (h : scanner.state = .inMode) (hspace : byte ≠ 0x20)
    (hlong : scanner.modeBytes = MAX_MODE_BYTES) :
    push scanner (byte :: rest) = .error (corrupt "tree mode is too long") := by
  rw [push]
  split
  · rw [if_neg hspace, if_pos hlong]
  · next hname => cases h.symm.trans hname
  · next hoid => cases h.symm.trans hoid

theorem push_mode (h : scanner.state = .inMode) (hspace : byte ≠ 0x20)
    (hlong : scanner.modeBytes ≠ MAX_MODE_BYTES) :
    push scanner (byte :: rest) =
      push { scanner with
        mode := scanner.mode * 256 + byte.toNat
        modeBytes := scanner.modeBytes + 1 } rest := by
  rw [push]
  split
  · rw [if_neg hspace, if_neg hlong]
  · next hname => cases h.symm.trans hname
  · next hoid => cases h.symm.trans hoid

theorem push_name (h : scanner.state = .inName) (hnul : (byte :: rest).idxOf? 0 = none) :
    push scanner (byte :: rest) = .ok (scanner, []) := by
  rw [push]
  split
  · next hmode => cases h.symm.trans hmode
  · rw [hnul]
  · next hoid => cases h.symm.trans hoid

theorem push_nul (h : scanner.state = .inName) {nul : Nat}
    (hnul : (byte :: rest).idxOf? 0 = some nul) :
    push scanner (byte :: rest) =
      push { scanner with state := .inOid, oidBytes := 0, reading := fun _ => by decide }
        ((byte :: rest).drop (nul + 1)) := by
  rw [push]
  split
  · next hmode => cases h.symm.trans hmode
  · rw [hnul]
  · next hoid => cases h.symm.trans hoid

theorem push_oid (h : scanner.state = .inOid) :
    push scanner (byte :: rest) =
      (push (scanner.readOid (byte :: rest)).1
        ((byte :: rest).drop (scanner.stop (byte :: rest)))).map fun last =>
          (last.1, (scanner.readOid (byte :: rest)).2 ++ last.2) := by
  rw [push]
  split
  · next hmode => cases h.symm.trans hmode
  · next hname => cases h.symm.trans hname
  · rfl

end Push

/-- `push` follows the structure of the tree over a chunk. -/
theorem push_simulates :
    Simulates (run Objects.RawTree.step) push Reads references := by
  have hboth : ∀ (scanner : TreeReferenceScanner) (chunk : List UInt8) (part : Part),
      Reads part scanner →
      (∀ u, run Objects.RawTree.step part chunk = .error u →
        ∃ error, push scanner chunk = .error error) ∧
      ∀ next entries, run Objects.RawTree.step part chunk = .ok (next, entries) →
        ∃ scanner', push scanner chunk = .ok (scanner', entries.flatMap references) ∧
          Reads next scanner' := by
    intro scanner chunk
    induction scanner, chunk using push.induct with
    | case1 scanner =>
      intro part hreads
      refine ⟨fun u hrun => (by cases hrun), fun next entries hrun => ?_⟩
      cases hrun
      exact ⟨scanner, by rw [push]; rfl, hreads⟩
    | case2 scanner rest hstate ih =>
      intro part hreads
      obtain ⟨mode, rfl, hmode⟩ := hreads.of_inMode hstate
      rw [push_space hstate, run_of_silent rest (show Objects.RawTree.step (.inMode mode) 0x20 =
        .ok (.inName mode [], []) from rfl)]
      exact ih _ ⟨rfl, hmode⟩
    | case3 scanner byte rest hstate hspace hlong =>
      intro part hreads
      obtain ⟨mode, rfl, hmode⟩ := hreads.of_inMode hstate
      have hstep : Objects.RawTree.step (.inMode mode) byte = .error () := by
        have hsix : mode.length ≥ 6 := by rw [← hmode.2.1, hlong, MAX_MODE_BYTES]
        rw [Objects.RawTree.step, if_neg hspace, if_pos hsix]
      rw [push_long hstate hspace hlong, run_of_error rest hstep]
      exact ⟨fun u _ => ⟨_, rfl⟩, fun next entries hrun => by cases hrun⟩
    | case4 scanner byte rest hstate hspace hlong ih =>
      intro part hreads
      obtain ⟨mode, rfl, hmode⟩ := hreads.of_inMode hstate
      have hfive : ¬ mode.length ≥ 6 := by
        have hsix := hmode.2.2
        rw [hmode.2.1, MAX_MODE_BYTES] at hlong
        omega
      have hstep : Objects.RawTree.step (.inMode mode) byte = .ok (.inMode (mode ++ [byte]), []) := by
        rw [Objects.RawTree.step, if_neg hspace, if_neg hfive]
      rw [push_mode hstate hspace hlong, run_of_silent rest hstep]
      refine ih _ ⟨hstate, ?_, ?_, ?_⟩
      · rw [bigEndian_concat, ← hmode.1]
      · rw [length_append, ← hmode.2.1, length_singleton]
      · rw [length_append, length_singleton]
        omega
    | case5 scanner byte rest hstate hnul =>
      intro part hreads
      obtain ⟨mode, name, rfl, hmode⟩ := hreads.of_inName hstate
      have hnone : 0 ∉ byte :: rest := List.idxOf?_eq_none_iff.1 hnul
      rw [push_name hstate hnul, Objects.RawTree.run_name mode name _ hnone]
      refine ⟨fun u hrun => (by cases hrun), fun next entries hrun => ?_⟩
      cases hrun
      exact ⟨scanner, rfl, hstate, hmode⟩
    | case6 scanner byte rest hstate nul hnul ih =>
      intro part hreads
      obtain ⟨mode, name, rfl, hmode⟩ := hreads.of_inName hstate
      obtain ⟨hnone, hsplit⟩ := split_at_nul hnul
      have hrun : run Objects.RawTree.step (.inName mode name) (byte :: rest) =
          run Objects.RawTree.step (.inOid mode (name ++ (byte :: rest).take nul) [])
            ((byte :: rest).drop (nul + 1)) := by
        conv => lhs; rw [hsplit]
        rw [Transducer.run_append_silent _ (Objects.RawTree.run_name mode name _ hnone),
          run_of_silent _ (show Objects.RawTree.step
            (.inName mode (name ++ (byte :: rest).take nul)) 0 =
              .ok (.inOid mode (name ++ (byte :: rest).take nul) [], []) from rfl)]
      rw [push_nul hstate hnul, hrun]
      exact ih _ ⟨rfl, hmode, rfl, packs_nil _⟩
    | case7 scanner byte rest hstate next ih =>
      intro part hreads
      obtain ⟨mode, name, oid, rfl⟩ := hreads.of_inOid hstate
      obtain ⟨middle, entries, hread, hrefs, hnext⟩ := readOid_reads hreads (List.cons_ne_nil byte rest)
      have hrest := ih middle hnext
      have hrun : run Objects.RawTree.step (.inOid mode name oid) (byte :: rest) =
          (run Objects.RawTree.step middle ((byte :: rest).drop (scanner.stop (byte :: rest)))).map
            fun last => (last.1, entries ++ last.2) := by
        conv => lhs; rw [← List.take_append_drop (scanner.stop (byte :: rest)) (byte :: rest)]
        rw [run_append, hread]
        rfl
      rw [push_oid hstate, hrun, hrefs]
      refine ⟨fun u hraw => ?_, fun last more hraw => ?_⟩
      · cases hmore : run Objects.RawTree.step middle
            ((byte :: rest).drop (scanner.stop (byte :: rest))) with
        | error u =>
          obtain ⟨error, herror⟩ := hrest.1 u hmore
          exact ⟨error, by rw [herror]; rfl⟩
        | ok result =>
          rw [hmore] at hraw
          cases hraw
      · cases hmore : run Objects.RawTree.step middle
            ((byte :: rest).drop (scanner.stop (byte :: rest))) with
        | error u =>
          rw [hmore] at hraw
          cases hraw
        | ok result =>
          rw [hmore] at hraw
          cases hraw
          obtain ⟨scanner', hpush, hreads'⟩ := hrest.2 _ _ hmore
          refine ⟨scanner', ?_, hreads'⟩
          rw [hpush, List.flatMap_append]
          rfl
  exact ⟨fun hreads hrun => (hboth _ _ _ hreads).1 _ hrun,
    fun hreads hrun => (hboth _ _ _ hreads).2 _ _ hrun⟩

/-- However a tree is divided into chunks, the scanner accepts it and reports its entries, and it
    accepts nothing else. -/
theorem scan_iff (scanner : TreeReferenceScanner) {chunks : List (List UInt8)}
    {refs : List Reference} : scanner.scan chunks = .ok refs ↔
      ∃ entries, IsTree chunks.flatten entries ∧ refs = entries.flatMap references := by
  have hchunks := run_simulates push_simulates
  have hstart := reads_reset scanner
  unfold scan
  cases hraw : run Objects.RawTree.step (.inMode []) chunks.flatten with
  | error u =>
    rw [← run_run] at hraw
    obtain ⟨error, herror⟩ := hchunks.refused hstart hraw
    rw [herror]
    refine ⟨fun h => (nomatch h), fun ⟨entries, htree, _⟩ => ?_⟩
    rw [run_run, Objects.RawTree.run_eq_ok.2 htree] at hraw
    cases hraw
  | ok last =>
    obtain ⟨last, entries⟩ := last
    have hsame : ∀ other, IsTree chunks.flatten other → last = .inMode [] ∧ entries = other := by
      intro other htree
      rw [Objects.RawTree.run_eq_ok.2 htree] at hraw
      cases hraw
      exact ⟨rfl, rfl⟩
    have hrun := hraw
    rw [← run_run] at hrun
    obtain ⟨final, hfinal, hreads⟩ := hchunks.taken hstart hrun
    rw [hfinal]
    show Except.map _ final.finish = _ ↔ _
    constructor
    · intro h
      cases hfinish : final.finish with
      | error error =>
        rw [hfinish] at h
        cases h
      | ok u =>
        rw [hfinish] at h
        cases h
        rw [(finish_eq_ok hreads).1 hfinish] at hraw
        exact ⟨entries, Objects.RawTree.run_eq_ok.1 hraw, rfl⟩
    · rintro ⟨other, htree, rfl⟩
      obtain ⟨hlast, rfl⟩ := hsame other htree
      rw [(finish_eq_ok hreads).2 hlast]
      rfl

end TreeReferenceScanner

/-- The scanner accepts what has the structure of a tree and reports the ids of its entries, and the
    parser accepts the same, names that are not UTF-8 aside. -/
theorem scan_agrees (data : Uint8Array) (scanner : TreeReferenceScanner) :
    (∀ chunks : List (List UInt8), chunks.flatten = data.bytes → ∀ refs,
      scanner.scan chunks = .ok refs ↔
        ∃ entries, IsTree data.bytes entries ∧ refs = entries.flatMap references) ∧
      ∀ chunks : List (List UInt8), chunks.flatten = data.bytes →
        ((∃ parsed, parseTreeStream chunks = .ok parsed) ↔
          ∃ entries, IsTree data.bytes entries ∧
            ∀ entry ∈ entries, ∃ name, Objects.decodeTreeName entry.name = .ok name) := by
  refine ⟨fun chunks hchunks refs => ?_, fun chunks hchunks => ?_⟩
  · rw [← hchunks]
    exact scanner.scan_iff
  · have hsize := data.length_safe
    rw [← hchunks] at hsize ⊢
    constructor
    · rintro ⟨parsed, hparsed⟩
      obtain ⟨entries, htree, hentries⟩ := (Objects.parseTreeStream_iff hsize).1 hparsed
      exact ⟨entries, htree, (Objects.exists_parsedFrom 0 0 entries).1 ⟨parsed, hentries⟩⟩
    · rintro ⟨entries, htree, hnames⟩
      obtain ⟨parsed, hparsed⟩ := (Objects.exists_parsedFrom 0 0 entries).2 hnames
      exact ⟨parsed, (Objects.parseTreeStream_iff hsize).2 ⟨entries, htree, hparsed⟩⟩

/-- A gitlink between a file and a subtree, in two chunks. -/
example : (TreeReferenceScanner.new.push
    (ascii "160000 b" ++ 0 :: List.replicate 20 7 ++ ascii "40000 c" ++ 0 :: List.replicate 20 1)).map
      Prod.snd = .ok [{ oid := List.replicate 5 0x01010101, type := .tree }] := by
  decide +kernel

end Kompjutr.Pack
