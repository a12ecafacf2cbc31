/-
  Kompjutr.Pack.EntryHeaderSound

  Sizes are read as they were written (`sizes_read_back`).  Both writers put
  down base-128 numbers, so each decoder is held to `Leb128.encode`: the entry
  reader by induction on the number, the probe and the delta parser by the rule
  `Leb128.foldlM_encode`.
-/
import Kompjutr.Pack.EntryHeader

namespace Kompjutr.Pack

open Bytes Fuel Leb128 Objects

-- The writers

variable {n rest number : Nat}

theorem low_bits (value : Nat) : value &&& 0x7f = value % 128 :=
  Nat.and_two_pow_sub_one_eq_mod value 7

theorem encodeDeltaSize_eq (value : Nat) : encodeDeltaSize value = encode value := by
  induction value using Nat.strongRecOn with
  | ind value ih =>
    rw [encodeDeltaSize, low_bits]
    by_cases h : value < 128
    · rw [if_neg (by omega), encode_of_lt h, Nat.mod_eq_of_lt h]
      rfl
    · rw [if_pos (by omega), encode_of_le (by omega), ih (value / 128) (by omega)]
      rfl

theorem encodeDeltaHeader_eq (sourceSize targetSize : Nat) :
    encodeDeltaHeader sourceSize targetSize = encode sourceSize ++ encode targetSize := by
  simp only [encodeDeltaHeader, List.flatMap_cons, List.flatMap_nil, List.append_nil,
    encodeDeltaSize_eq]

theorem isSafeInteger_of_le (h : n ≤ maxSafeInteger.toNat) : isSafeInteger (n : Int) = true := by
  rw [isSafeInteger_iff]
  simp only [maxSafeInteger] at h ⊢
  omega

/-- A size that is safe takes eight bytes at the most. -/
theorem length_encode_safe (h : n ≤ maxSafeInteger) : (encode n).length ≤ 8 := by
  apply length_encode_le (by omega)
  simp only [maxSafeInteger] at h
  omega

theorem encodeRest_zero (first : Nat) : encodeRest first 0 = [last first] := by
  rw [encodeRest, if_neg (by omega)]
  rfl

theorem encodeRest_pos (first : Nat) (h : 0 < rest) :
    encodeRest first rest = more first :: encode rest := by
  induction rest using Nat.strongRecOn generalizing first with
  | ind rest ih =>
    rw [encodeRest, if_pos h, low_bits]
    by_cases hrest : rest < 128
    · rw [Nat.div_eq_of_lt hrest, encodeRest_zero, encode_of_lt hrest, Nat.mod_eq_of_lt hrest]
      rfl
    · rw [encode_of_le (by omega), ih (rest / 128) (by omega) _ (by omega)]
      rfl

-- The entry reader

namespace PackReader

/-- The stored pack has these bytes at the position of the reader. -/
structure Ahead (r : PackReader) (bytes : List UInt8) : Prop where
  limit : r.position + bytes.length ≤ r.limit
  reads : ∀ offset length, offset + length ≤ bytes.length →
    r.readRaw (r.position + offset) length = .ok ((bytes.drop offset).take length)

def advance (r : PackReader) (length : Nat) : PackReader :=
  { r with position := r.position + length }

theorem Ahead.byte {r : PackReader} {value : UInt8} {rest : List UInt8}
    (h : r.Ahead (value :: rest)) :
    r.byte = .ok (value, r.advance 1) ∧ (r.advance 1).Ahead rest := by
  have hlimit := h.limit
  rw [List.length_cons] at hlimit
  constructor
  · rw [byte_ok]
    refine ⟨by omega, ⟨[value], ?_, rfl⟩, rfl⟩
    exact h.reads 0 1 (by simp)
  · refine ⟨?_, fun offset length hfit => ?_⟩
    · show r.position + 1 + rest.length ≤ r.limit
      omega
    · have hread := h.reads (offset + 1) length (by rw [List.length_cons]; omega)
      rw [List.drop_succ_cons, Nat.add_comm offset 1, ← Nat.add_assoc] at hread
      exact hread

/-- A reader over a pack in memory. -/
def ofPack (pack : List UInt8) (position : Nat) : PackReader :=
  { readRaw := fun offset length => .ok ((pack.drop offset).take length)
    limit := pack.length
    position }

theorem ofPack_ahead (before bytes rest : List UInt8) :
    (ofPack (before ++ bytes ++ rest) before.length).Ahead bytes := by
  refine ⟨?_, fun offset length hfit => ?_⟩
  · simp only [ofPack, List.length_append]
    omega
  · show Except.ok ((List.drop (before.length + offset) (before ++ bytes ++ rest)).take length) = _
    rw [List.append_assoc, ← List.drop_drop, List.drop_left, List.drop_append_of_le_length (by omega),
      List.take_append_of_le_length (by rw [List.length_drop]; omega)]

theorem sizeLoop_last {r : PackReader} {byte : UInt8} (entrySize shift : Nat)
    (h : byte &&& 0x80 = 0) : r.sizeLoop byte entrySize shift = .ok (entrySize, r) := by
  rw [sizeLoop, if_neg (not_not.2 h)]
  rfl

theorem sizeLoop_more {r r' : PackReader} {byte next : UInt8} (entrySize shift : Nat)
    (h : byte &&& 0x80 ≠ 0) (hnext : r.byte = .ok (next, r')) :
    r.sizeLoop byte entrySize shift =
      r'.sizeLoop next (entrySize + (next &&& 0x7f).toNat * 2 ^ shift) (shift + 7) := by
  rw [sizeLoop, if_pos h]
  split
  · rename_i e herror
    rw [hnext] at herror
    cases herror
  · rename_i value r'' hok
    rw [hnext] at hok
    cases hok
    rfl

/-- What follows a byte with its high bit set is read as the number it was written for. -/
theorem sizeLoop_encode (n : Nat) {r : PackReader} {byte : UInt8} {entrySize shift : Nat}
    (hbyte : byte &&& 0x80 ≠ 0) (h : r.Ahead (encode n)) :
    r.sizeLoop byte entrySize shift =
      .ok (entrySize + n * 2 ^ shift, r.advance (encode n).length) := by
  induction n using Nat.strongRecOn generalizing r byte entrySize shift with
  | ind n ih =>
    by_cases hn : n < 128
    · rw [encode_of_lt hn] at h ⊢
      rw [sizeLoop_more entrySize shift hbyte h.byte.1, sizeLoop_last _ _ (last_high hn),
        last_low hn]
      rfl
    · rw [encode_of_le (by omega)] at h ⊢
      have hdigit : n % 128 < 128 := Nat.mod_lt n (by omega)
      obtain ⟨hread, hahead⟩ := h.byte
      rw [sizeLoop_more entrySize shift hbyte hread, more_low hdigit,
        ih (n / 128) (by omega) (more_high hdigit) hahead]
      have hvalue : entrySize + n % 128 * 2 ^ shift + n / 128 * 2 ^ (shift + 7) =
          entrySize + n * 2 ^ shift := by
        have hn : n % 128 + 128 * (n / 128) = n := Nat.mod_add_div n 128
        calc entrySize + n % 128 * 2 ^ shift + n / 128 * 2 ^ (shift + 7)
            = entrySize + (n % 128 + 128 * (n / 128)) * 2 ^ shift := by ring
          _ = entrySize + n * 2 ^ shift := by rw [hn]
      rw [hvalue, List.length_cons]
      simp only [advance, Nat.add_assoc, Nat.add_comm 1]

/-- The size with the byte that holds its low four bits. -/
theorem sizeLoop_first {r : PackReader} {first : Nat} {byte : UInt8} {tail : List UInt8}
    (hfirst : first < 128) (hcode : encodeRest first rest = byte :: tail)
    (h : r.Ahead tail) :
    byte.toNat % 128 = first ∧ ∀ entrySize shift, r.sizeLoop byte entrySize shift =
      .ok (entrySize + rest * 2 ^ shift, r.advance tail.length) := by
  rcases Nat.eq_zero_or_pos rest with rfl | hrest
  · rw [encodeRest_zero] at hcode
    obtain ⟨rfl, rfl⟩ := List.cons.inj hcode
    rw [toNat_last hfirst, Nat.mod_eq_of_lt hfirst]
    refine ⟨rfl, fun entrySize shift => ?_⟩
    rw [sizeLoop_last _ _ (last_high hfirst), Nat.zero_mul]
    rfl
  · rw [encodeRest_pos first hrest] at hcode
    obtain ⟨rfl, rfl⟩ := List.cons.inj hcode
    rw [toNat_more hfirst]
    exact ⟨by omega, fun entrySize shift => sizeLoop_encode rest (more_high hfirst) h⟩

end PackReader

theorem numberType_typeNumber (type : ObjectType) : numberType (typeNumber type) = some type := by
  cases type <;> rfl

theorem typeNumber_lt (type : ObjectType) : typeNumber type < 6 := by
  cases type <;> decide

theorem encodeRest_ne_nil (first rest : Nat) : encodeRest first rest ≠ [] := by
  rw [encodeRest]
  split <;> simp

/-- The byte in hand at first: the type over the low four bits of the size. -/
theorem first_byte (size : Nat) : number <<< 4 ||| (size &&& 0x0f) = number * 16 + size % 16 := by
  rw [show size &&& 0x0f = size % 16 from Nat.and_two_pow_sub_one_eq_mod size 4,
    Nat.shiftLeft_eq, Nat.mul_comm]
  exact (Nat.two_pow_add_eq_or_of_lt (Nat.mod_lt size (by omega)) number).symm

variable {byte : UInt8}

theorem type_of_first {size : Nat} (h : byte.toNat % 128 = number * 16 + size % 16) :
    byte.toNat >>> 4 &&& 7 = number ∧ (byte &&& 15).toNat = size % 16 := by
  constructor
  · rw [Nat.shiftRight_eq_div_pow]
    refine (Nat.and_two_pow_sub_one_eq_mod _ 3).trans ?_
    omega
  · rw [UInt8.toNat_and]
    refine (Nat.and_two_pow_sub_one_eq_mod _ 4).trans ?_
    omega

/-- An entry of an object type and a size is read with that type and that size, and the reader
    stands behind the bytes they took. -/
theorem entryHeader_read_back (type : ObjectType) (size : Nat) {r : PackReader}
    (h : r.Ahead (encodeTypeAndSize (typeNumber type) size)) :
    r.entryHeader = .ok
      ({ offset := r.position
         dataOff := r.position + (encodeTypeAndSize (typeNumber type) size).length
         type := typeNumber type, entrySize := size, kind := none, baseDelta := none
         baseOid := none },
        r.advance (encodeTypeAndSize (typeNumber type) size).length) := by
  have hnumber := typeNumber_lt type
  obtain ⟨byte, tail, hcode⟩ := List.exists_cons_of_ne_nil
    (encodeRest_ne_nil (typeNumber type <<< 4 ||| (size &&& 0x0f)) (size / 16))
  rw [encodeTypeAndSize, hcode] at h ⊢
  rw [first_byte] at hcode
  obtain ⟨hbyte, hahead⟩ := h.byte
  obtain ⟨hfirst, hloop⟩ := PackReader.sizeLoop_first (by omega) hcode hahead
  obtain ⟨htype, hlow⟩ := type_of_first hfirst
  have hsize : size % 16 + size / 16 * 2 ^ 4 = size := by omega
  unfold PackReader.entryHeader
  dsimp only
  rw [hbyte, ok_bind]
  dsimp only
  rw [hloop, ok_bind, hlow, hsize, htype, if_neg (by omega), if_neg (by omega),
    numberType_typeNumber, if_neg (by simp)]
  simp only [PackReader.advance, List.length_cons, Nat.add_assoc, Nat.add_comm 1]
  rfl

-- The header probe

namespace DeltaHeaderProbe

/-- Reading a size: its value so far, and how many bytes that were. -/
def reading (s : DeltaHeaderProbe) (value i : Nat) : DeltaHeaderProbe :=
  { s with value, shift := 7 * i }

/-- What follows a complete size. -/
def sizeDone (s : DeltaHeaderProbe) (value : Nat) : DeltaHeaderProbe :=
  if s.field = 0 then
    { s with sourceSize := some value, field := s.field + 1, value := 0, shift := 0 }
  else { s with targetSize := some value, field := s.field + 1, value := 0, shift := 0 }

theorem pow_shift (i : Nat) : 2 ^ (7 * i) = 128 ^ i := Nat.pow_mul 2 7 i

/-- Seven more bits of a safe number stay within what the probe shifts by. -/
theorem shift_le {i : Nat} (h : 128 ^ i ≤ maxSafeInteger.toNat) : 7 * i + 7 ≤ 56 := by
  by_contra hlarge
  have hpow : 128 ^ 8 ≤ 128 ^ i := Nat.pow_le_pow_right (by omega) (by omega)
  simp only [maxSafeInteger] at h
  omega

theorem updateByte_size {s : DeltaHeaderProbe} {value i : Nat}
    (hopen : s.targetSize = none) (hi : 128 ^ i ≤ maxSafeInteger.toNat)
    (hvalue : value + (byte &&& 0x7f).toNat * 128 ^ i ≤ maxSafeInteger.toNat) :
    (s.reading value i).updateByte byte = .ok
      (if byte &&& 0x80 ≠ 0 then s.reading (value + (byte &&& 0x7f).toNat * 128 ^ i) (i + 1)
        else s.sizeDone (value + (byte &&& 0x7f).toNat * 128 ^ i)) := by
  have hshift := shift_le hi
  have hsafe : isSafeInteger ((value + (byte &&& 0x7f).toNat * 128 ^ i : Nat) : Int) = true :=
    isSafeInteger_of_le hvalue
  unfold updateByte reading
  dsimp only
  rw [if_neg (by simp [hopen]), pow_shift, hsafe, if_neg (by simp; omega)]
  unfold sizeDone
  split
  · rfl
  · split <;> rfl

/-- A size within the safe integers is read whole. -/
theorem foldlM_encode {s : DeltaHeaderProbe} (hopen : s.targetSize = none) {n : Nat}
    (hn : n ≤ maxSafeInteger) :
    (encode n).foldlM updateByte (s.reading 0 0) = .ok (s.sizeDone n) := by
  have hrule := @Leb128.foldlM_encode _ _ updateByte s.reading (fun value => .ok (s.sizeDone value))
    maxSafeInteger.toNat
    (fun value i digit hdigit hroom => by
      have hpow : 128 ^ (i + 1) = 128 ^ i * 128 := Nat.pow_succ 128 i
      rw [updateByte_size hopen (by omega) (by rw [more_low hdigit]; omega), more_low hdigit,
        if_pos (more_high hdigit)])
    (fun value i digit hdigit hi hroom => by
      rw [updateByte_size hopen hi (by rw [last_low hdigit]; exact hroom), last_low hdigit,
        if_neg (not_not.2 (last_high hdigit))])
    n 0 0 (by decide) (by omega)
  simpa using hrule

theorem foldlM_done {s : DeltaHeaderProbe} (h : s.targetSize ≠ none) (bytes : List UInt8) :
    bytes.foldlM updateByte s = .ok s := by
  induction bytes with
  | nil => rfl
  | cons byte bytes ih =>
    rw [List.foldlM_cons, updateByte, if_pos h]
    exact ih

theorem foldlM_update (chunks : List (List UInt8)) (s : DeltaHeaderProbe) :
    chunks.foldlM update s = chunks.flatten.foldlM updateByte s := by
  induction chunks generalizing s with
  | nil => rfl
  | cons chunk chunks ih =>
    rw [List.foldlM_cons, List.flatten_cons, List.foldlM_append]
    exact bind_congr fun s => ih s

/-- The probe finds both sizes, however the delta is cut and whatever follows them. -/
theorem finish_read_back {sourceSize targetSize : Nat} (hsource : sourceSize ≤ maxSafeInteger)
    (htarget : targetSize ≤ maxSafeInteger) {chunks : List (List UInt8)} {body : List UInt8}
    (hchunks : chunks.flatten = encodeDeltaHeader sourceSize targetSize ++ body) :
    (chunks.foldlM update create >>= finish) = .ok (sourceSize, targetSize) := by
  have hfirst := foldlM_encode (s := create) rfl hsource
  have hsecond := foldlM_encode (s := create.sizeDone sourceSize) rfl htarget
  rw [foldlM_update, hchunks, encodeDeltaHeader_eq, List.append_assoc, List.foldlM_append]
  rw [show create = create.reading 0 0 from rfl, hfirst, ok_bind, List.foldlM_append]
  rw [show create.sizeDone sourceSize = (create.sizeDone sourceSize).reading 0 0 from rfl, hsecond,
    ok_bind, foldlM_done (by simp [sizeDone, create])]
  rfl

end DeltaHeaderProbe

-- The delta parser

namespace DeltaApplier

/-- Reading a size: its value so far, and how many bytes that were. -/
def readingSize (s : DeltaApplier) (value i : Nat) : DeltaApplier :=
  { s with sizeValue := value, sizeMultiplier := 128 ^ i }

section

variable {s : DeltaApplier} {value i digit : Nat}
  (hphase : s.phase = .sourceSize ∨ s.phase = .targetSize) (hdigit : digit < 128)

include hphase hdigit

theorem pushByte_more (hroom : value + digit * 128 ^ i + 128 ^ (i + 1) ≤ maxSafeInteger.toNat) :
    (s.readingSize value i).pushByte (more digit) =
      .ok (s.readingSize (value + digit * 128 ^ i) (i + 1)) := by
  have hnext : (s.readingSize value i).sizeNext (more digit) = value + digit * 128 ^ i := by
    rw [sizeNext, more_low hdigit]
    rfl
  have hmultiplier : isSafeInteger ((128 ^ i * 128 : Nat) : Int) = true := by
    rw [← Nat.pow_succ]
    exact isSafeInteger_of_le ((Nat.le_add_left _ _).trans hroom)
  have hsafe : isSafeInteger ((s.readingSize value i).sizeNext (more digit) : Int) = true := by
    rw [hnext]
    exact isSafeInteger_of_le ((Nat.le_add_right _ _).trans hroom)
  rw [pushByte_size (s := s.readingSize value i) _ hphase, sizeByte_safe hsafe,
    if_neg (more_high hdigit), show (s.readingSize value i).sizeMultiplier = 128 ^ i from rfl,
    if_pos hmultiplier, pure_bind, if_neg (by simp)]
  simp only [sizeMore, readingSize, more_low hdigit, Nat.pow_succ]
  rfl

theorem pushByte_last (hroom : value + digit * 128 ^ i ≤ maxSafeInteger.toNat) :
    (s.readingSize value i).pushByte (last digit) =
      (s.readingSize (value + digit * 128 ^ i) i).sizeDone (value + digit * 128 ^ i) := by
  have hnext : (s.readingSize value i).sizeNext (last digit) = value + digit * 128 ^ i := by
    rw [sizeNext, last_low hdigit]
    rfl
  have hsafe : isSafeInteger ((s.readingSize value i).sizeNext (last digit) : Int) = true := by
    rw [hnext]
    exact isSafeInteger_of_le hroom
  rw [pushByte_size (s := s.readingSize value i) _ hphase, sizeByte_safe hsafe,
    if_pos (last_high hdigit), pure_bind, if_pos rfl, hnext]
  rfl

end

/-- Admitting a target reads the base, the limits and the pool, and writes the target. -/
theorem admitTarget_eq_map {s s' : DeltaApplier} (hbase : s'.base = s.base)
    (hlimits : s'.limits = s.limits) (hpool : s'.pool = s.pool) (size : Nat) :
    s'.admitTarget size =
      (fun _ => { s' with targetSize := size, target := [] }) <$> s.admitTarget size := by
  unfold admitTarget
  rw [hbase, hlimits, hpool]
  split_ifs <;> try rfl
  cases chunkFootprint s.base.length with
  | error e => rfl
  | ok baseBytes =>
    cases chunkFootprint size with
    | error e => rfl
    | ok targetBytes =>
      simp only [ok_bind]
      split_ifs
      · rfl
      · cases s.pool.preflight (chunkCount size) <;> rfl

theorem sizeDone_readingSize (s : DeltaApplier) (value i size : Nat) :
    (s.readingSize value i).sizeDone size = s.sizeDone size := by
  unfold sizeDone
  rw [show (s.readingSize value i).phase = s.phase from rfl,
    show (s.readingSize value i).base = s.base from rfl]
  split
  · rfl
  · rw [@admitTarget_eq_map s (s.readingSize value i) rfl rfl rfl]
    conv_rhs => rw [@admitTarget_eq_map s s rfl rfl rfl]
    cases s.admitTarget size <;> rfl

/-- A size within the safe integers is read whole, and what follows is decided on it. -/
theorem foldlM_pushByte_encode {s : DeltaApplier} (hstart : s.readingSize 0 0 = s)
    (hphase : s.phase = .sourceSize ∨ s.phase = .targetSize) {n : Nat} (hn : n ≤ maxSafeInteger) :
    (encode n).foldlM pushByte s = s.sizeDone n := by
  have hrule := @Leb128.foldlM_encode _ _ pushByte s.readingSize s.sizeDone
    maxSafeInteger.toNat (fun value i digit => pushByte_more hphase)
    (fun value i digit hdigit _ hroom => by
      rw [pushByte_last hphase hdigit hroom, sizeDone_readingSize])
    n 0 0 (by decide) (by omega)
  rw [hstart] at hrule
  simpa using hrule

/-- A whole header, however it is cut: the base is held to the first size, and the target is
    admitted at the second. -/
theorem foldlM_push_header {base : List UInt8} {pool : ChunkPool} {limits : DeltaLimits}
    {sourceSize targetSize : Nat} (hsource : sourceSize ≤ maxSafeInteger)
    (htarget : targetSize ≤ maxSafeInteger) {chunks : List (List UInt8)}
    (hchunks : chunks.flatten = encodeDeltaHeader sourceSize targetSize)
    (hroom : 16 ≤ limits.maxInstructionBytes) :
    chunks.foldlM push (start base pool limits) =
      if sourceSize ≠ base.length then throw (corrupt "delta base size mismatch")
      else (fun s => { s with
          phase := .opcode
          instructionBytes := (encodeDeltaHeader sourceSize targetSize).length }) <$>
        (start base pool limits).admitTarget targetSize := by
  have hlength : (encodeDeltaHeader sourceSize targetSize).length ≤ 16 := by
    rw [encodeDeltaHeader_eq, List.length_append]
    have := length_encode_safe hsource
    have := length_encode_safe htarget
    omega
  have hroom' : (start base pool limits).instructionBytes + chunks.flatten.length ≤
      (start base pool limits).limits.maxInstructionBytes := by
    rw [hchunks]
    show 0 + _ ≤ limits.maxInstructionBytes
    omega
  rw [foldlM_push_eq (settleCopy_of_phase (by simp [start])) hroom', pushed, hchunks]
  show counted (0 + _) <$> _ = _
  rw [Nat.zero_add]
  generalize hcount : (encodeDeltaHeader sourceSize targetSize).length = count
  rw [encodeDeltaHeader_eq, List.foldlM_append,
    foldlM_pushByte_encode (s := start base pool limits) rfl (.inl rfl) hsource, sizeDone,
    if_pos (show (start base pool limits).phase = .sourceSize from rfl)]
  show counted count <$> (((if sourceSize ≠ base.length then _ else _) >>= _) >>= _) = _
  split
  · rfl
  · rw [pure_bind, foldlM_pushByte_encode (s := resetSize
      { start base pool limits with phase := .targetSize }) rfl (.inr rfl) htarget, sizeDone,
      if_neg (by simp [resetSize]),
      admitTarget_eq_map (s := start base pool limits) (by rfl) (by rfl) (by rfl)]
    conv_rhs => rw [@admitTarget_eq_map (start base pool limits)
      (start base pool limits) rfl rfl rfl]
    cases (start base pool limits).admitTarget targetSize <;> rfl

end DeltaApplier

-- Sizes read back

/-- Every type and size a pack is written with is read from it, and so are the sizes of a delta:
    by the probe however the delta is cut, and by the parser, which holds its base to the first
    and admits its target at the second. -/
theorem sizes_read_back :
    (∀ (type : ObjectType) (size : Nat), size ≤ maxSafeInteger → ∀ r : PackReader,
      r.Ahead (encodeTypeAndSize (typeNumber type) size) →
        r.entryHeader = .ok
          ({ offset := r.position
             dataOff := r.position + (encodeTypeAndSize (typeNumber type) size).length
             type := typeNumber type, entrySize := size, kind := none, baseDelta := none
             baseOid := none },
            r.advance (encodeTypeAndSize (typeNumber type) size).length) ∧
        numberType (typeNumber type) = some type) ∧
    ∀ sourceSize targetSize : Nat, sourceSize ≤ maxSafeInteger → targetSize ≤ maxSafeInteger →
      (∀ (chunks : List (List UInt8)) (body : List UInt8),
        chunks.flatten = encodeDeltaHeader sourceSize targetSize ++ body →
          (chunks.foldlM DeltaHeaderProbe.update .create >>= DeltaHeaderProbe.finish) =
            .ok (sourceSize, targetSize)) ∧
      ∀ (base : List UInt8) (pool : ChunkPool) (limits : DeltaLimits) (chunks : List (List UInt8)),
        16 ≤ limits.maxInstructionBytes →
        chunks.flatten = encodeDeltaHeader sourceSize targetSize →
          chunks.foldlM DeltaApplier.push (.start base pool limits) =
            if sourceSize ≠ base.length then throw (corrupt "delta base size mismatch")
            else (fun s => { s with
                phase := .opcode
                instructionBytes := (encodeDeltaHeader sourceSize targetSize).length }) <$>
              (DeltaApplier.start base pool limits).admitTarget targetSize := by
  refine ⟨fun type size _ r h => ⟨entryHeader_read_back type size h, numberType_typeNumber type⟩,
    fun sourceSize targetSize hsource htarget => ⟨fun chunks body hchunks => ?_, ?_⟩⟩
  · exact DeltaHeaderProbe.finish_read_back hsource htarget hchunks
  · intro base pool limits chunks hroom hchunks
    exact DeltaApplier.foldlM_push_header hsource htarget hchunks hroom

/-- The largest size: as an entry between others, and in a delta that comes byte by byte. -/
theorem largest_size_read_back :
    ((PackReader.ofPack ([0x00] ++ encodeTypeAndSize (typeNumber .blob) (2 ^ 53 - 1) ++ [0x78]) 1).entryHeader.map
        fun found => found.1.entrySize) = .ok (2 ^ 53 - 1) ∧
      (((encodeDeltaHeader (2 ^ 53 - 1) 5 ++ [0x01]).map fun byte => [byte]).foldlM
          DeltaHeaderProbe.update .create >>= DeltaHeaderProbe.finish) = .ok (2 ^ 53 - 1, 5) ∧
      ((encodeDeltaHeader 0 5).map fun byte => [byte]).foldlM DeltaApplier.push
          (.start [] .create ⟨none, maxDeltaWorkingBytes, maxDeltaInstructionBytes⟩) =
        (fun s => { s with
            phase := .opcode, instructionBytes := (encodeDeltaHeader 0 5).length }) <$>
          (DeltaApplier.start [] .create
            ⟨none, maxDeltaWorkingBytes, maxDeltaInstructionBytes⟩).admitTarget 5 := by
  have hsingle : ∀ bytes : List UInt8, (bytes.map fun byte => [byte]).flatten = bytes := by
    intro bytes
    induction bytes with
    | nil => rfl
    | cons byte bytes ih => exact congrArg (byte :: ·) ih
  refine ⟨?_, ?_, ?_⟩
  · have hread := (sizes_read_back.1 .blob (2 ^ 53 - 1) (by decide) _
      (PackReader.ofPack_ahead [0x00] _ [0x78])).1
    exact congrArg (Except.map fun found => found.1.entrySize) hread
  · exact (sizes_read_back.2 (2 ^ 53 - 1) 5 (by decide) (by decide)).1 _ [0x01] (hsingle _)
  · exact (sizes_read_back.2 0 5 (by decide) (by decide)).2 [] .create _ _ (by decide) (hsingle _)

/-- A target above 512 MiB is a safe size, but the parser refuses it. -/
theorem large_target_refused :
    ((maxDeltaTarget + 1 : Nat) : Int) ≤ maxSafeInteger ∧
      [encodeDeltaHeader 0 (maxDeltaTarget + 1)].foldlM DeltaApplier.push
          (.start [] .create ⟨none, maxDeltaWorkingBytes, maxDeltaInstructionBytes⟩) =
        .error (corrupt "delta target too large") := by
  refine ⟨by decide, ?_⟩
  rw [DeltaApplier.foldlM_push_header (by decide) (by decide) (List.append_nil _) (by decide)]
  rfl

end Kompjutr.Pack
