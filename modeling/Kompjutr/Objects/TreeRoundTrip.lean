/-
  Kompjutr.Objects.TreeRoundTrip

  Reading a tree object and writing it back (`common/trees.ts`).

  A name that starts with a byte order mark loses it when it is decoded, so the octets come back
  exactly when no name starts with one (`serializeTree_parseTree_iff`).
-/
import Kompjutr.Objects.TreeParser

namespace Kompjutr.Objects

open Bytes (toHex hexUnit hexByte Uint8Array)
open Utf8 (encode textDecode WellFormed byteOrderMark decodeFatal dropMark)
open RawTree (IsTree IsEntry)
open List (drop_drop drop_left forall_mem_cons length_cons map_cons)

variable {oid name : Text} {mode : List UInt8} {entries : List RawEntry} {entry : RawEntry}

-- The digits of an id

/-- The digits of an octet are read back. -/
theorem toElement_hexByte (byte : UInt8) : toElement (parseInt16 (hexByte byte)) = byte := by
  have hall : ∀ n : Fin 256,
      toElement (parseInt16 (hexByte (UInt8.ofNat n))) = UInt8.ofNat n := by decide +kernel
  have hbyte := hall ⟨byte.toNat, byte.toNat_lt⟩
  rwa [UInt8.ofNat_toNat] at hbyte

theorem take_drop_toHex (bytes : List UInt8) {i : Nat} (h : i < bytes.length) :
    ((toHex bytes).drop (i * 2)).take 2 = hexByte bytes[i] := by
  induction bytes generalizing i with
  | nil => cases h
  | cons byte bytes ih =>
    cases i with
    | zero => rfl
    | succ i =>
      rw [Nat.succ_mul, Bytes.toHex_cons, Nat.add_comm, ← drop_drop]
      exact ih (Nat.lt_of_succ_lt_succ h)

/-- An id is written as it was read. -/
theorem oidBytes_toHex {oid : List UInt8} (h : oid.length = 20) : oidBytes (toHex oid) = oid := by
  unfold oidBytes
  refine List.ext_getElem (by rw [List.length_map, List.length_range, h]) fun i hi hi' => ?_
  rw [List.getElem_map, List.getElem_range, take_drop_toHex oid hi', toElement_hexByte]

/-- The units of an id are those of digits. -/
theorem exists_digits (h : isOid oid = true) :
    oid.length = 40 ∧ ∃ digits : List Nat, (∀ digit ∈ digits, digit < 16) ∧
      oid = digits.map Bytes.hexUnit := by
  unfold isOid at h
  rw [Bool.and_eq_true, decide_eq_true_eq, List.all_eq_true] at h
  refine ⟨h.1, ?_⟩
  have hunits := h.2
  clear h
  induction oid with
  | nil => exact ⟨[], fun _ hdigit => (nomatch hdigit), rfl⟩
  | cons unit oid ih =>
    rw [forall_mem_cons] at hunits
    obtain ⟨digits, hdigits, rfl⟩ := ih hunits.2
    have hunit := hunits.1
    simp only [isDigit, Bool.or_eq_true, Bool.and_eq_true, decide_eq_true_eq,
      UInt16.le_iff_toNat_le, UInt16.reduceToNat] at hunit
    obtain ⟨digit, hlt, hsame⟩ : ∃ digit < 16,
        (if digit < 10 then 0x30 + digit else 0x57 + digit) = unit.toNat := by
      by_cases hten : unit.toNat ≤ 0x39
      · exact ⟨unit.toNat - 0x30, by omega, by rw [if_pos (by omega)]; omega⟩
      · exact ⟨unit.toNat - 0x57, by omega, by rw [if_neg (by omega)]; omega⟩
    refine ⟨digit :: digits, forall_mem_cons.2 ⟨hlt, hdigits⟩, ?_⟩
    rw [map_cons, ← UInt16.toNat_inj.1 ((Bytes.toNat_hexUnit hlt).trans hsame)]

/-- An id is the spelling of twenty octets. -/
theorem exists_toHex (h : isOid oid = true) :
    ∃ bytes : List UInt8, bytes.length = 20 ∧ toHex bytes = oid := by
  have hpairs : ∀ (count : Nat) (digits : List Nat), (∀ digit ∈ digits, digit < 16) →
      digits.length = 2 * count →
        ∃ bytes : List UInt8, bytes.length = count ∧ toHex bytes = digits.map Bytes.hexUnit := by
    intro count
    induction count with
    | zero =>
      intro digits _ hlength
      rw [List.length_eq_zero_iff.1 hlength]
      exact ⟨[], rfl, rfl⟩
    | succ count ih =>
      intro digits hdigits hlength
      match digits with
      | [] => cases hlength
      | [_] => cases hlength
      | high :: low :: rest =>
        rw [forall_mem_cons, forall_mem_cons] at hdigits
        obtain ⟨hhigh, hlow, hrest⟩ := hdigits
        rw [length_cons, length_cons] at hlength
        obtain ⟨bytes, hbytes, hspelled⟩ := ih rest hrest (by omega)
        have hbyte : (UInt8.ofNat (high * 16 + low)).toNat = high * 16 + low := by
          rw [UInt8.toNat_ofNat']
          omega
        refine ⟨UInt8.ofNat (high * 16 + low) :: bytes, by rw [length_cons, hbytes], ?_⟩
        rw [Bytes.toHex_cons, hbyte, hspelled, show (high * 16 + low) / 16 = high by omega,
          show (high * 16 + low) % 16 = low by omega]
        rfl
  obtain ⟨hlength, digits, hdigits, rfl⟩ := exists_digits h
  rw [List.length_map] at hlength
  exact hpairs 20 digits hdigits hlength

theorem toHex_oidBytes (h : isOid oid = true) : toHex (oidBytes oid) = oid := by
  obtain ⟨bytes, hlength, rfl⟩ := exists_toHex h
  rw [oidBytes_toHex hlength]

-- Canonical trees

/-- Octal digits without a leading zero. -/
structure CanonicalMode (mode : List UInt8) : Prop where
  nonempty : mode ≠ []
  short : mode.length ≤ 6
  octal : ∀ byte ∈ mode, 0x30 ≤ byte.toNat ∧ byte.toNat ≤ 0x37
  leading : mode.head? ≠ some 0x30

/-- The octets by which an entry is sorted: a subtree stands as if its name ended in a slash. -/
def sortKey (entry : RawEntry) : List UInt8 :=
  if entry.mode = ascii "40000" then entry.name ++ [0x2f] else entry.name

/-- The entries of a tree as git writes it. -/
structure Canonical (entries : List RawEntry) : Prop where
  modes : ∀ entry ∈ entries, CanonicalMode entry.mode
  names : ∀ entry ∈ entries, entry.name ≠ [] ∧ 0 ∉ entry.name ∧ 0x2f ∉ entry.name
  utf8 : ∀ entry ∈ entries, ∃ name, WellFormed name ∧ encode name = entry.name
  oids : ∀ entry ∈ entries, entry.oid.length = 20
  order : entries.Pairwise fun a b => Streams.memcmp (sortKey a) (sortKey b) < 0
  distinct : (entries.map RawEntry.name).Nodup

theorem CanonicalMode.ascii (h : CanonicalMode mode) : ∀ byte ∈ mode, byte < 0x80 := by
  intro byte hbyte
  have hoctal := h.octal byte hbyte
  refine UInt8.lt_iff_toNat_lt.2 ?_
  show byte.toNat < 0x80
  omega

theorem CanonicalMode.not_mem (h : CanonicalMode mode) : 0x20 ∉ mode := by
  intro hspace
  exact absurd (h.octal _ hspace).1 (by decide)

theorem textDecode_ascii {bytes : List UInt8} (h : ∀ byte ∈ bytes, byte < 0x80) :
    textDecode bytes = bytes.map UInt8.toUInt16 := by
  have hmark : ¬ byteOrderMark.isPrefixOf bytes = true := by
    rw [List.isPrefixOf_iff_prefix]
    rintro ⟨rest, rfl⟩
    exact absurd (h 0xef (by simp [byteOrderMark])) (by decide)
  rw [textDecode, if_neg hmark, Utf8.decode_ascii h]

theorem Canonical.isEntry (h : Canonical entries) :
    ∀ entry ∈ entries, IsEntry entry := fun entry hentry =>
  { mode := (h.modes entry hentry).not_mem
    short := (h.modes entry hentry).short
    name := (h.names entry hentry).2.1
    oid := h.oids entry hentry }

-- Reading

theorem takeWhile_until {byte : UInt8} {field : List UInt8} (h : byte ∉ field) (rest : List UInt8) :
    (field ++ byte :: rest).takeWhile (· ≠ byte) = field := by
  rw [List.takeWhile_append_of_pos]
  · rw [List.takeWhile_cons_of_neg (by simp), List.append_nil]
  · intro b hb
    exact decide_eq_true fun hsame => h (hsame ▸ hb)

/-- `parseTree` takes one entry after the other. -/
theorem parseTree_append (h : IsEntry entry) (rest : List UInt8) :
    parseTree (RawTree.bytes entry ++ rest) =
      (decodeEntry entry).bind fun first =>
        (parseTree rest).map fun entries => first :: entries := by
  have hdata : RawTree.bytes entry ++ rest =
      entry.mode ++ 0x20 :: (entry.name ++ 0 :: (entry.oid ++ rest)) := by
    simp [RawTree.bytes]
  have hne : entry.mode ++ 0x20 :: (entry.name ++ 0 :: (entry.oid ++ rest)) ≠ [] := by simp
  have hbehind : (entry.mode ++ 0x20 :: (entry.name ++ 0 :: (entry.oid ++ rest))).drop
      (entry.mode.length + 1) = entry.name ++ 0 :: (entry.oid ++ rest) := by
    rw [← drop_drop, drop_left, List.drop_succ_cons, List.drop_zero]
  have hoid : (entry.name ++ 0 :: (entry.oid ++ rest)).drop (entry.name.length + 1) =
      entry.oid ++ rest := by
    rw [← drop_drop, drop_left, List.drop_succ_cons, List.drop_zero]
  have hrest : (entry.name ++ 0 :: (entry.oid ++ rest)).drop (entry.name.length + 21) = rest := by
    rw [show entry.name.length + 21 = entry.name.length + 1 + entry.oid.length by rw [h.oid],
      ← drop_drop, hoid, drop_left]
  rw [hdata, parseTree, if_neg hne]
  dsimp only
  rw [takeWhile_until h.mode, hbehind, takeWhile_until h.name, hoid, hrest,
    if_neg (by simp), if_neg (by simp [h.oid]), List.take_left' h.oid, decodeEntry]
  cases decodeTreeName entry.name with
  | error error => rfl
  | ok name => rfl

theorem parseTree_nil : parseTree [] = .ok [] := by
  rw [parseTree, if_pos rfl]

/-- The entry that the parsers make of one whose name is UTF-8. -/
def decoded (entry : RawEntry) : TreeEntry where
  mode := textDecode entry.mode
  name := dropMark (Utf8.decode entry.name)
  oid := toHex entry.oid

theorem decodeEntry_eq (hname : WellFormed name)
    (hencode : encode name = entry.name) : decodeEntry entry = .ok (decoded entry) := by
  have hback : Utf8.decode entry.name = name := by rw [← hencode, Utf8.decode_encode, hname]
  rw [decodeEntry, decodeTreeName, Utf8.textDecodeFatal_eq,
    Utf8.decodeFatal_iff.2 ⟨hname, hencode⟩, decoded, hback]
  rfl

theorem parseTree_eq (hentries : ∀ entry ∈ entries, IsEntry entry)
    (hutf8 : ∀ entry ∈ entries, ∃ name, WellFormed name ∧ encode name = entry.name) :
    parseTree (entries.flatMap RawTree.bytes) = .ok (entries.map decoded) := by
  induction entries with
  | nil => exact parseTree_nil
  | cons entry entries ih =>
    rw [forall_mem_cons] at hentries hutf8
    obtain ⟨name, hname, hencode⟩ := hutf8.1
    rw [List.flatMap_cons, parseTree_append hentries.1, decodeEntry_eq hname hencode,
      ih hentries.2 hutf8.2]
    rfl

theorem parsedFrom_eq
    (hutf8 : ∀ entry ∈ entries, ∃ name, WellFormed name ∧ encode name = entry.name)
    (ordinal size : Nat) : ∃ out, parsedFrom ordinal size entries = .ok out ∧
      out.map ParsedTreeEntry.entry = entries.map decoded := by
  induction entries generalizing ordinal size with
  | nil => exact ⟨[], rfl, rfl⟩
  | cons entry entries ih =>
    rw [forall_mem_cons] at hutf8
    obtain ⟨name, hname, hencode⟩ := hutf8.1
    obtain ⟨out, hout, hmap⟩ := ih hutf8.2 (ordinal + 1) (size + (RawTree.bytes entry).length)
    refine ⟨{
      entry := decoded entry
      nameBytes := entry.name
      ordinal
      observedSize := size + (RawTree.bytes entry).length } :: out, ?_, ?_⟩
    · rw [parsedFrom, decodeEntry_eq hname hencode, Except.bind, hout]
      rfl
    · rw [map_cons, map_cons, hmap]

-- Writing

/-- A name without the mark in front of it. -/
def withoutMark (name : List UInt8) : List UInt8 :=
  if byteOrderMark.isPrefixOf name then name.drop 3 else name

theorem encode_dropMark (h : WellFormed name) :
    encode (dropMark name) = withoutMark (encode name) := by
  have hmark := Utf8.byteOrderMark_encode h
  unfold withoutMark
  by_cases hhead : name.head? = some 0xfeff
  · rw [if_pos (hmark.2 hhead)]
    obtain ⟨rest, rfl⟩ := List.head?_eq_some_iff.1 hhead
    rw [Utf8.dropMark_cons, Utf8.encode_mark]
    rfl
  · rw [if_neg (mt hmark.1 hhead), Utf8.dropMark_of_ne hhead]

theorem wellFormed_dropMark (h : WellFormed name) : WellFormed (dropMark name) := by
  unfold dropMark
  split
  · next hhead =>
    obtain ⟨rest, rfl⟩ := List.head?_eq_some_iff.1 hhead
    exact ((Utf8.wellFormed_cut [] rest (by decide)).1 h).2
  · exact h

theorem dropWhile_mode (h : CanonicalMode mode) :
    (mode.map UInt8.toUInt16).dropWhile (· = 0x30) = mode.map UInt8.toUInt16 := by
  cases mode with
  | nil => rfl
  | cons byte mode =>
    have hne : byte.toUInt16 ≠ 0x30 := by
      intro hsame
      refine h.leading (congrArg some (UInt8.toNat_inj.1 ?_))
      rw [← UInt8.toNat_toUInt16, hsame]
      rfl
    rw [map_cons, List.dropWhile_cons_of_neg (by simpa using hne)]

/-- An entry is written with the name that is left of it. -/
theorem serializeEntry_decoded (hmode : CanonicalMode entry.mode)
    (hoid : entry.oid.length = 20) (hname : WellFormed name) (hencode : encode name = entry.name) :
    serializeEntry (decoded entry) =
      RawTree.bytes { entry with name := withoutMark entry.name } := by
  have hback : Utf8.decode entry.name = name := by rw [← hencode, Utf8.decode_encode, hname]
  have hspace : ∀ byte ∈ entry.mode ++ [0x20], byte < 0x80 := by
    intro byte hbyte
    obtain hbyte | hbyte := List.mem_append.1 hbyte
    · exact hmode.ascii byte hbyte
    · rw [List.mem_singleton.1 hbyte]
      decide
  have hfront : entry.mode.map UInt8.toUInt16 ++ 0x20 :: dropMark name ++ [0] =
      (entry.mode ++ [0x20]).map UInt8.toUInt16 ++ (dropMark name ++ [0]) := by
    rw [List.map_append, List.append_assoc, List.append_assoc]
    rfl
  have hnul : encode [0] = [0] := by decide
  rw [serializeEntry, decoded, oidBytes_toHex hoid, textDecode_ascii hmode.ascii,
    dropWhile_mode hmode, hback]
  dsimp only
  rw [hfront, Utf8.encode_append (Utf8.wellFormed_ascii hspace),
    Utf8.encode_ascii hspace, Utf8.encode_append (wellFormed_dropMark hname),
    encode_dropMark hname, hencode, hnul, RawTree.bytes]
  simp


theorem isTreeMode_textDecode (h : CanonicalMode mode) :
    isTreeMode (textDecode mode) = true ↔ mode = ascii "40000" := by
  have hinj : ∀ {left right : List UInt8},
      left.map UInt8.toUInt16 = right.map UInt8.toUInt16 → left = right := fun hsame =>
    List.map_injective_iff.2 (fun a b hab => by
      rw [← UInt8.toNat_inj, ← UInt8.toNat_toUInt16, hab, UInt8.toNat_toUInt16]) hsame
  rw [textDecode_ascii h.ascii, isTreeMode, Bool.or_eq_true, decide_eq_true_eq, decide_eq_true_eq]
  constructor
  · rintro (hsame | hsame)
    · exact hinj hsame
    · rw [hinj hsame] at h
      exact absurd rfl h.leading
  · rintro rfl
    exact .inl rfl

/-- Without a mark in front of the names, `compareTreeEntries` is the order of a tree. -/
theorem compareTreeEntries_decoded {a b : RawEntry} {aName bName : Text}
    (ha : CanonicalMode a.mode) (hb : CanonicalMode b.mode) (haName : WellFormed aName)
    (hbName : WellFormed bName) (haEncode : encode aName = a.name)
    (hbEncode : encode bName = b.name) (haMark : aName.head? ≠ some 0xfeff)
    (hbMark : bName.head? ≠ some 0xfeff) :
    compareTreeEntries (decoded a) (decoded b) = Streams.memcmp (sortKey a) (sortKey b) := by
  have hkey : ∀ {entry : RawEntry} {name : Text}, CanonicalMode entry.mode → WellFormed name →
      encode name = entry.name → name.head? ≠ some 0xfeff →
      encode (if isTreeMode (decoded entry).mode then (decoded entry).name ++ [0x2f]
        else (decoded entry).name) = sortKey entry := by
    intro entry name hmode hname hencode hmark
    have hback : (decoded entry).name = name := by
      rw [decoded, ← hencode, Utf8.decode_encode, hname, Utf8.dropMark_of_ne hmark]
    have hslash : encode [0x2f] = [0x2f] := by decide
    have htree : isTreeMode (decoded entry).mode = true ↔ entry.mode = ascii "40000" :=
      isTreeMode_textDecode hmode
    rw [hback, sortKey]
    by_cases h : entry.mode = ascii "40000"
    · rw [if_pos (htree.2 h), if_pos h, Utf8.encode_append hname, hencode, hslash]
    · rw [if_neg (mt htree.1 h), if_neg h, hencode]
  rw [compareTreeEntries, Streams.comparePaths_memcmp, hkey ha haName haEncode haMark,
    hkey hb hbName hbEncode hbMark]

/-- The octets that are written, in the order of the entries. -/
theorem flatMap_serializeEntry (h : Canonical entries) :
    (entries.map decoded).flatMap serializeEntry =
      entries.flatMap fun entry => RawTree.bytes { entry with name := withoutMark entry.name } := by
  rw [List.flatMap_map]
  refine List.flatMap_congr fun entry hentry => ?_
  obtain ⟨name, hname, hencode⟩ := h.utf8 entry hentry
  exact serializeEntry_decoded (h.modes entry hentry) (h.oids entry hentry) hname hencode

/-- A mark that is dropped is missing in the length. -/
theorem length_withoutMark : (entries.flatMap fun entry =>
        RawTree.bytes { entry with name := withoutMark entry.name }).length ≤
      (entries.flatMap RawTree.bytes).length ∧
    ((entries.flatMap fun entry =>
        RawTree.bytes { entry with name := withoutMark entry.name }).length =
      (entries.flatMap RawTree.bytes).length →
        ∀ entry ∈ entries, ¬ byteOrderMark.isPrefixOf entry.name = true) := by
  induction entries with
  | nil => exact ⟨le_rfl, fun _ _ hentry => nomatch hentry⟩
  | cons entry entries ih =>
    have hlength : ∀ e : RawEntry,
        (RawTree.bytes e).length = e.mode.length + e.name.length + e.oid.length + 2 := by
      intro e
      simp only [RawTree.bytes, List.length_append, length_cons]
      omega
    rw [List.flatMap_cons, List.flatMap_cons, List.length_append, List.length_append, hlength,
      hlength, forall_mem_cons]
    dsimp only
    by_cases hmark : byteOrderMark.isPrefixOf entry.name = true
    · have hthree : 3 ≤ entry.name.length := (List.isPrefixOf_iff_prefix.1 hmark).length_le
      have hdrop : (withoutMark entry.name).length = entry.name.length - 3 := by
        rw [withoutMark, if_pos hmark, List.length_drop]
      have hle := ih.1
      rw [hdrop]
      exact ⟨by omega, fun hsame => by omega⟩
    · have hkeep : withoutMark entry.name = entry.name := if_neg hmark
      have hle := ih.1
      rw [hkeep]
      exact ⟨by omega, fun hsame => ⟨hmark, ih.2 (by omega)⟩⟩

/-- A canonical tree is written as it was read, and its chunks give its entries, exactly when no
    name starts with a byte order mark. -/
theorem serializeTree_parseTree_iff (data : Uint8Array) {entries : List RawEntry}
    (h : Canonical entries) (hdata : data.bytes = entries.flatMap RawTree.bytes) :
    (∃ parsed, parseTree data.bytes = .ok parsed ∧ serializeTree parsed = data.bytes ∧
      ∀ chunks : List (List UInt8), chunks.flatten = data.bytes →
        ∃ out, parseTreeStream chunks = .ok out ∧ out.map ParsedTreeEntry.entry = parsed) ↔
      ∀ entry ∈ entries, ¬ byteOrderMark.isPrefixOf entry.name = true := by
  have hparse : parseTree data.bytes = .ok (entries.map decoded) := by
    rw [hdata]
    exact parseTree_eq h.isEntry h.utf8
  constructor
  · rintro ⟨parsed, hparsed, hback, -⟩
    cases hparse.symm.trans hparsed
    have hperm := (List.mergeSort_perm (entries.map decoded) fun a b =>
      compareTreeEntries a b ≤ 0).flatMap_right serializeEntry
    have hlength := hperm.length_eq
    rw [flatMap_serializeEntry h] at hlength
    refine length_withoutMark.2 ?_
    rw [← hlength, ← hdata, ← hback]
    rfl
  · intro hmark
    refine ⟨entries.map decoded, hparse, ?_, ?_⟩
    · have hsorted : (entries.map decoded).Pairwise fun a b =>
          decide (compareTreeEntries a b ≤ 0) = true := by
        refine List.pairwise_map.2 (h.order.imp_of_mem fun {a b} ha hb hlt => ?_)
        obtain ⟨aName, haName, haEncode⟩ := h.utf8 a ha
        obtain ⟨bName, hbName, hbEncode⟩ := h.utf8 b hb
        have haMark := mt (Utf8.byteOrderMark_encode haName).2 (haEncode ▸ hmark a ha)
        have hbMark := mt (Utf8.byteOrderMark_encode hbName).2 (hbEncode ▸ hmark b hb)
        rw [compareTreeEntries_decoded (h.modes a ha) (h.modes b hb) haName hbName haEncode hbEncode
          haMark hbMark]
        exact decide_eq_true (le_of_lt hlt)
      rw [serializeTree, List.mergeSort_of_pairwise hsorted, flatMap_serializeEntry h, hdata]
      refine List.flatMap_congr fun entry hentry => ?_
      rw [withoutMark, if_neg (hmark entry hentry)]
    · intro chunks hchunks
      obtain ⟨out, hout, hmap⟩ := parsedFrom_eq h.utf8 0 0
      refine ⟨out, (parseTreeStream_iff (hchunks ▸ data.length_safe)).2 ⟨entries, ?_, hout⟩, hmap⟩
      exact ⟨hchunks.trans hdata, h.isEntry⟩

/-- A file with the id of the empty blob. -/
def emptyFile (name : List UInt8) : RawEntry where
  mode := ascii "100644"
  name
  oid := [0xe6, 0x9d, 0xe2, 0x9b, 0xb2, 0xd1, 0xd6, 0x43, 0x4b, 0x8b, 0x29, 0xae, 0x77, 0x5a, 0xd8,
    0xc2, 0xe4, 0x8c, 0x53, 0x91]

theorem canonicalMode_file : CanonicalMode (ascii "100644") :=
  ⟨by decide, by decide, by decide +kernel, by decide⟩

theorem canonical_emptyFile {name : List UInt8} (hne : name ≠ []) (hnul : 0 ∉ name)
    (hslash : 0x2f ∉ name) {t : Text} (ht : WellFormed t) (hencode : encode t = name) :
    Canonical [emptyFile name] where
  modes := List.forall_mem_singleton.2 canonicalMode_file
  names := List.forall_mem_singleton.2 ⟨hne, hnul, hslash⟩
  utf8 := List.forall_mem_singleton.2 ⟨t, ht, hencode⟩
  oids := List.forall_mem_singleton.2 rfl
  order := List.pairwise_singleton _ _
  distinct := List.nodup_singleton _

/-- The tree with a file `a`. -/
def oneFile : Uint8Array where
  bytes := RawTree.bytes (emptyFile (ascii "a"))
  length_safe := by decide

theorem oneFile_roundTrip :
    (∃ parsed, parseTree oneFile.bytes = .ok parsed ∧ serializeTree parsed = oneFile.bytes ∧
      ∀ chunks : List (List UInt8), chunks.flatten = oneFile.bytes →
        ∃ out, parseTreeStream chunks = .ok out ∧ out.map ParsedTreeEntry.entry = parsed) ↔
      ∀ entry ∈ [emptyFile (ascii "a")], ¬ byteOrderMark.isPrefixOf entry.name = true :=
  serializeTree_parseTree_iff oneFile
    (canonical_emptyFile (by decide) (by decide) (by decide) (show WellFormed (text "a") by decide)
      (by decide))
    (List.flatMap_singleton ..).symm

/-- A file whose name starts with U+FEFF is written under the name without it. -/
theorem markedFile_lost :
    Canonical [emptyFile (byteOrderMark ++ ascii "a")] ∧
      ∃ parsed, parseTree (RawTree.bytes (emptyFile (byteOrderMark ++ ascii "a"))) = .ok parsed ∧
        serializeTree parsed ≠ RawTree.bytes (emptyFile (byteOrderMark ++ ascii "a")) := by
  have hcanonical : Canonical [emptyFile (byteOrderMark ++ ascii "a")] :=
    canonical_emptyFile (by decide) (by decide) (by decide)
      (show WellFormed (0xfeff :: text "a") by decide) (by decide)
  have hparse := parseTree_eq hcanonical.isEntry hcanonical.utf8
  rw [List.flatMap_singleton] at hparse
  refine ⟨hcanonical, _, hparse, ?_⟩
  rw [List.map_singleton, serializeTree, List.mergeSort_singleton, List.flatMap_singleton]
  decide +kernel

end Kompjutr.Objects
