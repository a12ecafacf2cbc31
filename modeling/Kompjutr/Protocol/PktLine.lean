/-
  Kompjutr.Protocol.PktLine

  Frames of the wire protocol (`protocol/pktline.ts`, `protocol/stream.ts`): a length of
  four hexadecimal digits that counts itself, and the payload.

  A source hands over its bytes in chunks of any size.  The reader keeps what is left of
  the chunk it was given last; `ByteReader.bytes` is everything that is still to come, and
  the lemmas say that the reader depends on nothing else.
-/
import Kompjutr.Lib.Utf8Encode
import Kompjutr.Objects.Commit

namespace Kompjutr.Protocol

open Objects (Text text ascii)
open Fuel (bind_eq_ok)

variable {payload frame : List UInt8}

variable {length : Nat} {rest : List UInt8}

/-- Four-byte length included. -/
def maxPktFrameBytes : Nat := 65520

def maxPktPayloadBytes : Nat := maxPktFrameBytes - 4

/-- A digit of `toString(16)`. -/
def hexDigit (digit : Nat) : UInt8 :=
  if digit < 10 then (0x30 + digit).toUInt8 else (0x57 + digit).toUInt8

/-- `toString(16).padStart(4, "0")` of a length below `16 ^ 4`. -/
def lengthDigits (length : Nat) : List UInt8 :=
  [hexDigit (length / 4096 % 16), hexDigit (length / 256 % 16), hexDigit (length / 16 % 16),
    hexDigit (length % 16)]

/-- `FLUSH`. -/
def flushPkt : List UInt8 := ascii "0000"

/-- `pkt` of a byte payload. -/
def pkt (payload : List UInt8) : Except GitError (List UInt8) := do
  reject (maxPktPayloadBytes < payload.length)
    { code := "Error", message := "pkt-line payload too long" }
  return lengthDigits (payload.length + 4) ++ payload

/-- `pkt` of a string payload. -/
def pktText (payload : Text) : Except GitError (List UInt8) := pkt (Utf8.encode payload)

inductive Pkt where
  | line (payload : List UInt8)
  | flush
  | delim
  deriving DecidableEq

-- The reader

structure ByteReader where
  /-- What is left of the current chunk. -/
  chunk : List UInt8
  /-- The chunks that were not handed over yet. -/
  source : List (List UInt8)
  deriving DecidableEq

def ByteReader.ofChunks (chunks : List (List UInt8)) : ByteReader := { chunk := [], source := chunks }

/-- Everything that is still to come. -/
def ByteReader.bytes (reader : ByteReader) : List UInt8 := reader.chunk ++ reader.source.flatten

/-- `#advance`: the next chunk that is not empty. -/
def advance : List (List UInt8) → Option ByteReader
  | [] => none
  | chunk :: source => if chunk = [] then advance source else some { chunk, source }

/-- The loop of `#takeExact` over the chunks of a frame. -/
def gather (out : List UInt8) (length : Nat) (chunk : List UInt8) :
    List (List UInt8) → Except GitError (List UInt8 × ByteReader)
  | [] =>
    if length ≤ chunk.length then
      .ok (out ++ chunk.take length, { chunk := chunk.drop length, source := [] })
    else .error (corrupt "truncated pkt-line")
  | next :: source =>
    if length ≤ chunk.length then
      .ok (out ++ chunk.take length, { chunk := chunk.drop length, source := next :: source })
    else gather (out ++ chunk) (length - chunk.length) next source

/-- `#takeExact`; `none` at the end of the stream. -/
def takeExact (reader : ByteReader) (length : Nat) :
    Except GitError (Option (List UInt8) × ByteReader) :=
  if length = 0 then .ok (some [], reader)
  else
    match if reader.chunk = [] then advance reader.source else some reader with
    | none => .ok (none, { chunk := [], source := [] })
    | some reader =>
      (fun out => (some out.1, out.2)) <$> gather [] length reader.chunk reader.source

/-- One digit of `parseLength`. -/
def hexValue (char : UInt8) : Except GitError Nat :=
  if 0x30 ≤ char && char ≤ 0x39 then .ok (char.toNat - 0x30)
  else if 0x61 ≤ char && char ≤ 0x66 then .ok (char.toNat - 0x57)
  else if 0x41 ≤ char && char ≤ 0x46 then .ok (char.toNat - 0x37)
  else .error (corrupt "bad pkt-line length")

def parseLength (header : List UInt8) : Except GitError Nat :=
  header.foldlM (fun value char => do
    let digit ← hexValue char
    return value * 16 + digit) 0

/-- A header that the stream ends in has its own message. -/
def takeHeader (reader : ByteReader) : Except GitError (Option (List UInt8) × ByteReader) :=
  match takeExact reader 4 with
  | .error _ => .error (corrupt "truncated pkt-line length")
  | .ok out => .ok out

/-- The payload of a frame of this length. -/
def readPayload (reader : ByteReader) (length : Nat) :
    Except GitError (Option Pkt × ByteReader) := do
  let (payload, reader) ← takeExact reader (length - 4)
  match payload with
  | none => throw (corrupt "truncated pkt-line")
  | some payload => return (some (.line payload), reader)

/-- The next frame; `none` at the end of the stream. -/
def readPkt (reader : ByteReader) : Except GitError (Option Pkt × ByteReader) := do
  let (header, reader) ← takeHeader reader
  match header with
  | none => return (none, reader)
  | some header => do
    let length ← parseLength header
    if length = 0 then return (some .flush, reader)
    else if length = 1 then return (some .delim, reader)
    else do
      reject (length < 4) (corrupt ("bad pkt-line length " ++ toString length))
      reject (maxPktFrameBytes < length)
        (corrupt ("pkt-line exceeds " ++ toString maxPktFrameBytes ++ " bytes"))
      readPayload reader length

-- Reading depends on the bytes only

theorem advance_bytes {source : List (List UInt8)} :
    (advance source = none ∧ source.flatten = []) ∨
      ∃ reader, advance source = some reader ∧ reader.bytes = source.flatten := by
  induction source with
  | nil => exact .inl ⟨rfl, rfl⟩
  | cons chunk source ih =>
    by_cases hempty : chunk = []
    · rw [advance, if_pos hempty, hempty, List.flatten_cons, List.nil_append]
      exact ih
    · exact .inr ⟨_, if_neg hempty, rfl⟩

theorem gather_bytes {out chunk : List UInt8} {length : Nat} {source : List (List UInt8)}
    (h : length ≤ (chunk ++ source.flatten).length) :
    ∃ reader, gather out length chunk source =
        .ok (out ++ (chunk ++ source.flatten).take length, reader) ∧
      reader.bytes = (chunk ++ source.flatten).drop length := by
  induction source generalizing out length chunk with
  | nil =>
    rw [List.flatten_nil, List.append_nil] at h ⊢
    exact ⟨_, if_pos h, List.append_nil _⟩
  | cons next source ih =>
    by_cases hfits : length ≤ chunk.length
    · refine ⟨{ chunk := chunk.drop length, source := next :: source }, ?_, ?_⟩
      · rw [gather, if_pos hfits, List.take_append_of_le_length hfits]
      · rw [List.drop_append_of_le_length hfits]
        rfl
    · -- the chunk is used up, and what is missing comes from those after it
      have hlong : chunk.length ≤ length := by omega
      rw [List.length_append, List.flatten_cons] at h
      obtain ⟨reader, hgather, hbytes⟩ := @ih (out ++ chunk) next (length - chunk.length) (by omega)
      have htake := @List.take_append _ chunk (next ++ source.flatten) length
      have hdrop := @List.drop_append _ chunk (next ++ source.flatten) length
      rw [List.take_of_length_le hlong] at htake
      rw [List.drop_eq_nil_of_le hlong, List.nil_append] at hdrop
      refine ⟨reader, ?_, ?_⟩
      · rw [gather, if_neg hfits, hgather, List.flatten_cons, htake, List.append_assoc]
      · rw [hbytes, List.flatten_cons, hdrop]

variable {reader : ByteReader}

theorem takeExact_bytes (h : length ≤ reader.bytes.length) :
    ∃ rest, takeExact reader length = .ok (some (reader.bytes.take length), rest) ∧
      rest.bytes = reader.bytes.drop length := by
  by_cases hzero : length = 0
  · refine ⟨reader, ?_, ?_⟩
    · rw [takeExact, if_pos hzero, hzero]
      rfl
    · rw [hzero]
      rfl
  · have hfilled : ∃ filled, (if reader.chunk = [] then advance reader.source else some reader) =
        some filled ∧ filled.bytes = reader.bytes := by
      by_cases hempty : reader.chunk = []
      · have hbytes : reader.bytes = reader.source.flatten := by
          rw [ByteReader.bytes, hempty, List.nil_append]
        rw [if_pos hempty, hbytes]
        obtain ⟨-, hnone⟩ | hsome := @advance_bytes reader.source
        · rw [hbytes, hnone] at h
          exact absurd (Nat.le_zero.1 h) hzero
        · exact hsome
      · exact ⟨reader, if_neg hempty, rfl⟩
    obtain ⟨filled, hfill, hbytes⟩ := hfilled
    rw [← hbytes] at h ⊢
    obtain ⟨rest, hgather, hrest⟩ := @gather_bytes [] filled.chunk length filled.source h
    refine ⟨rest, ?_, hrest⟩
    rw [takeExact, if_neg hzero, hfill]
    dsimp only
    rw [hgather]
    rfl

theorem takeExact_end (hlength : length ≠ 0) (h : reader.bytes = []) :
    takeExact reader length = .ok (none, { chunk := [], source := [] }) := by
  obtain ⟨hchunk, hsource⟩ := List.append_eq_nil_iff.1 h
  rw [takeExact, if_neg hlength, if_pos hchunk]
  obtain ⟨hnone, -⟩ | ⟨filled, hfilled, hbytes⟩ := @advance_bytes reader.source
  · rw [hnone]
  · -- a chunk that was advanced to is not empty
    exfalso
    have hne : ∀ source : List (List UInt8), source.flatten = [] → advance source = none := by
      intro source
      induction source with
      | nil => exact fun _ => rfl
      | cons chunk source ih =>
        intro hflat
        rw [List.flatten_cons, List.append_eq_nil_iff] at hflat
        rw [advance, if_pos hflat.1]
        exact ih hflat.2
    rw [hne _ hsource] at hfilled
    cases hfilled

-- Frames

theorem hexValue_hexDigit {digit : Nat} (h : digit < 16) : hexValue (hexDigit digit) = .ok digit := by
  revert digit
  decide

theorem parseLength_lengthDigits (h : length < 65536) :
    parseLength (lengthDigits length) = .ok length := by
  have hmod : ∀ n, n % 16 < 16 := fun n => Nat.mod_lt n (by decide)
  simp only [parseLength, lengthDigits, List.foldlM_cons, List.foldlM_nil, hexValue_hexDigit (hmod _),
    Fuel.ok_bind]
  refine congrArg Except.ok ?_
  omega

theorem length_lengthDigits (length : Nat) : (lengthDigits length).length = 4 := rfl

theorem pkt_ok (h : pkt payload = .ok frame) :
    payload.length ≤ maxPktPayloadBytes ∧ frame = lengthDigits (payload.length + 4) ++ payload := by
  obtain ⟨⟨⟩, hshort, h⟩ := bind_eq_ok.1 h
  rw [reject_eq_ok, decide_eq_false_iff_not, Nat.not_lt] at hshort
  exact ⟨hshort, (Except.ok.inj h).symm⟩

/-- The header of a frame. -/
theorem takeHeader_bytes {header : List UInt8}
    (hheader : header.length = 4) (h : reader.bytes = header ++ rest) :
    ∃ after, takeHeader reader = .ok (some header, after) ∧ after.bytes = rest := by
  have hlength : 4 ≤ reader.bytes.length := by
    rw [h, List.length_append]
    omega
  obtain ⟨after, htake, hafter⟩ := takeExact_bytes hlength
  refine ⟨after, ?_, ?_⟩
  · rw [takeHeader, htake, h, List.take_left' hheader]
  · rw [hafter, h, List.drop_left' hheader]

/-- A frame that was written is read back, however its bytes are divided. -/
theorem readPkt_line (hframe : pkt payload = .ok frame) (h : reader.bytes = frame ++ rest) :
    ∃ after, readPkt reader = .ok (some (.line payload), after) ∧ after.bytes = rest := by
  obtain ⟨hshort, rfl⟩ := pkt_ok hframe
  have hbound : payload.length + 4 ≤ maxPktFrameBytes := by
    have : maxPktPayloadBytes = maxPktFrameBytes - 4 := rfl
    have : 4 ≤ maxPktFrameBytes := by decide
    omega
  rw [List.append_assoc] at h
  obtain ⟨body, hheader, hbody⟩ := takeHeader_bytes (length_lengthDigits _) h
  have hlength : payload.length ≤ body.bytes.length := by
    rw [hbody, List.length_append]
    omega
  obtain ⟨after, htake, hafter⟩ := takeExact_bytes hlength
  refine ⟨after, ?_, ?_⟩
  · have hsmall : maxPktFrameBytes < 65536 := by decide
    rw [readPkt, hheader, Fuel.ok_bind]
    dsimp only
    rw [parseLength_lengthDigits (by omega), Fuel.ok_bind, if_neg (by omega), if_neg (by omega),
      reject, if_neg (by simp), Fuel.ok_bind, reject, if_neg (by simpa using hbound), Fuel.ok_bind,
      readPayload, Nat.add_sub_cancel, htake, Fuel.ok_bind]
    rw [hbody, List.take_left' rfl]
    rfl
  · rw [hafter, hbody, List.drop_left' rfl]

theorem readPkt_flush (h : reader.bytes = flushPkt ++ rest) :
    ∃ after, readPkt reader = .ok (some .flush, after) ∧ after.bytes = rest := by
  obtain ⟨after, hheader, hafter⟩ := takeHeader_bytes rfl h
  refine ⟨after, ?_, hafter⟩
  have hlength : parseLength flushPkt = .ok 0 := by decide
  rw [readPkt, hheader, Fuel.ok_bind]
  dsimp only
  rw [hlength, Fuel.ok_bind, if_pos rfl]
  rfl

theorem readPkt_end (h : reader.bytes = []) : ∃ after, readPkt reader = .ok (none, after) := by
  refine ⟨{ chunk := [], source := [] }, ?_⟩
  rw [readPkt, takeHeader, takeExact_end (by decide) h]
  rfl

theorem bytes_ofChunks (chunks : List (List UInt8)) :
    (ByteReader.ofChunks chunks).bytes = chunks.flatten := rfl

end Kompjutr.Protocol
