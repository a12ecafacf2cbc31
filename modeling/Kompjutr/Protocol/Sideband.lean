/-
  Kompjutr.Protocol.Sideband

  A stream of packets that was encoded is read back, and the pack that a fetch receives on the
  first band (`sideband` of `protocol/upload-pack.ts`) is the one that the server sent.

  Neither depends on how the bytes are divided into chunks.
-/
import Kompjutr.Protocol.ReceivePackSound

namespace Kompjutr.Protocol

open Objects (Text text ascii shown trim)
open Fuel (bind_eq_ok ok_bind)

variable {rest : List UInt8} {fuel : Nat} {packets : List Pkt}

variable {reader : ByteReader}

-- Packets

/-- `DELIM`. -/
def delimPkt : List UInt8 := ascii "0001"

def encodePacket : Pkt → Except GitError (List UInt8)
  | .line payload => pkt payload
  | .flush => .ok flushPkt
  | .delim => .ok delimPkt

/-- Read packets up to the end of the stream. -/
def readPackets : Nat → ByteReader → Except GitError (List Pkt)
  | 0, _ => .error (corrupt "truncated pkt-line")
  | fuel + 1, reader => do
    let (packet, reader) ← readPkt reader
    match packet with
    | none => return []
    | some packet => do
      let packets ← readPackets fuel reader
      return packet :: packets

theorem readPkt_delim (h : reader.bytes = delimPkt ++ rest) :
    ∃ after, readPkt reader = .ok (some .delim, after) ∧ after.bytes = rest := by
  obtain ⟨after, hheader, hafter⟩ := takeHeader_bytes rfl h
  refine ⟨after, ?_, hafter⟩
  have hlength : parseLength delimPkt = .ok 1 := by decide
  rw [readPkt, hheader, ok_bind]
  dsimp only
  rw [hlength, ok_bind, if_neg (by decide), if_pos rfl]
  rfl

/-- One packet, whatever it is. -/
theorem readPkt_packet {packet : Pkt} {frame : List UInt8}
    (hframe : encodePacket packet = .ok frame) (h : reader.bytes = frame ++ rest) :
    ∃ after, readPkt reader = .ok (some packet, after) ∧ after.bytes = rest := by
  cases packet with
  | line payload => exact readPkt_line hframe h
  | flush =>
    cases hframe
    exact readPkt_flush h
  | delim =>
    cases hframe
    exact readPkt_delim h

theorem readPackets_ok {frames : List (List UInt8)}
    (hframes : List.Forall₂ (fun packet frame => encodePacket packet = .ok frame) packets frames)
    (hfuel : packets.length < fuel) (h : reader.bytes = frames.flatten) :
    readPackets fuel reader = .ok packets := by
  induction hframes generalizing fuel reader with
  | nil =>
    obtain ⟨fuel, rfl⟩ := Nat.exists_eq_add_one.2 (by omega)
    obtain ⟨after, hread⟩ := readPkt_end h
    rw [readPackets, hread, ok_bind]
    rfl
  | cons hframe hframes ih =>
    obtain ⟨fuel, rfl⟩ := Nat.exists_eq_succ_of_ne_zero (Nat.ne_zero_of_lt hfuel)
    rw [List.flatten_cons] at h
    obtain ⟨after, hread, hafter⟩ := readPkt_packet hframe h
    have hrest := ih (Nat.lt_of_succ_lt_succ hfuel) hafter
    rw [readPackets, hread, ok_bind]
    dsimp only
    rw [hrest, ok_bind]
    rfl

/-- Only a payload that is too long cannot be encoded. -/
theorem mapM_encodePacket_error {e : GitError} (h : packets.mapM encodePacket = .error e) :
    ∃ payload, .line payload ∈ packets ∧ maxPktPayloadBytes < payload.length := by
  induction packets with
  | nil => cases h
  | cons packet packets ih =>
    rw [List.mapM_cons] at h
    cases hframe : encodePacket packet with
    | ok frame =>
      rw [hframe, ok_bind] at h
      cases hframes : packets.mapM encodePacket with
      | ok frames =>
        rw [hframes] at h
        cases h
      | error e' =>
        obtain ⟨payload, hmem, hlong⟩ := ih (by rw [hframes] at h; exact hframes.trans h)
        exact ⟨payload, List.mem_cons_of_mem _ hmem, hlong⟩
    | error e' =>
      cases packet with
      | line payload =>
        refine ⟨payload, List.mem_cons_self, ?_⟩
        by_contra hshort
        rw [encodePacket, pkt, reject, if_neg (by simpa using hshort)] at hframe
        cases hframe
      | flush => cases hframe
      | delim => cases hframe

-- The first band of a fetch

/-- What one frame yields.  A message of progress only goes to the callback. -/
def fetchPayload (frame : List UInt8) : Except GitError (List (List UInt8)) :=
  let payload := frame.drop 1
  if frame[0]? = some 1 then .ok (if payload = [] then [] else [payload])
  else if frame[0]? = some 2 then .ok []
  else if frame[0]? = some 3 then
    .error { code := "EFETCHFAIL", message := shown (trim (Utf8.textDecode payload)) }
  else .error (corrupt "sideband response contains an invalid band")

/-- The loop of `sideband`, with the variable `frame`. -/
def sidebandFrom : Nat → Option (List UInt8) → ByteReader →
    Except GitError (List (List UInt8) × ByteReader)
  | 0, _, _ => .error (corrupt "sideband response ended before its flush")
  | fuel + 1, some frame, reader => do
    let data ← fetchPayload frame
    let (rest, reader) ← sidebandFrom fuel none reader
    return (data ++ rest, reader)
  | fuel + 1, none, reader => do
    let (line, reader) ← readPkt reader
    match line with
    | none => .error (corrupt "sideband response ended before its flush")
    | some .flush => return ([], reader)
    | some .delim => sidebandFrom fuel none reader
    | some (.line payload) => sidebandFrom fuel (some payload) reader

/-- `sideband`: the chunks of the pack.  Each round reads bytes or goes over a frame. -/
def sideband (reader : ByteReader) (first : List UInt8) : Except GitError (List (List UInt8)) := do
  let (data, _) ← sidebandFrom (2 * reader.bytes.length + 2) (some first) reader
  return data

theorem fetchPayload_band {data : List UInt8} (h : data ≠ []) :
    fetchPayload (1 :: data) = .ok [data] := by
  have hband : (1 :: data)[0]? = some 1 := rfl
  rw [fetchPayload, if_pos hband]
  exact congrArg Except.ok (if_neg h)

/-- The frames of the first band, up to the flush. -/
theorem sidebandFrom_ok {fuel : Nat} {pieces frames : List (List UInt8)} {reader : ByteReader}
    {rest : List UInt8}
    (hframes : List.Forall₂ (fun data frame => pkt (1 :: data) = .ok frame) pieces frames)
    (hpieces : ∀ piece ∈ pieces, piece ≠ []) (hfuel : 2 * pieces.length < fuel)
    (hbytes : reader.bytes = frames.flatten ++ flushPkt ++ rest) :
    ∃ after, sidebandFrom fuel none reader = .ok (pieces, after) ∧ after.bytes = rest := by
  induction hframes generalizing fuel reader with
  | nil =>
    obtain ⟨fuel, rfl⟩ := Nat.exists_eq_add_one.2 (by omega)
    obtain ⟨after, hread, hafter⟩ := readPkt_flush hbytes
    refine ⟨after, ?_, hafter⟩
    rw [sidebandFrom, hread, ok_bind]
    rfl
  | @cons data frame pieces frames hframe _ ih =>
    rw [List.forall_mem_cons] at hpieces
    rw [List.length_cons] at hfuel
    obtain ⟨fuel, rfl⟩ : ∃ n, fuel = n + 2 := ⟨fuel - 2, by omega⟩
    rw [List.flatten_cons, List.append_assoc, List.append_assoc] at hbytes
    obtain ⟨middle, hread, hmiddle⟩ := readPkt_line hframe hbytes
    rw [← List.append_assoc] at hmiddle
    obtain ⟨after, hrest, hafter⟩ := ih hpieces.2 (by omega : 2 * pieces.length < fuel) hmiddle
    refine ⟨after, ?_, hafter⟩
    rw [sidebandFrom, hread, ok_bind]
    dsimp only
    rw [sidebandFrom, fetchPayload_band hpieces.1, ok_bind, hrest, ok_bind]
    rfl

theorem length_bandPieces {chunk piece : List UInt8}
    (h : piece ∈ bandPieces fuel chunk) : piece.length ≤ maxPktPayloadBytes - 1 := by
  induction fuel generalizing chunk with
  | zero => cases h
  | succ fuel ih =>
    rw [bandPieces] at h
    split at h
    · cases h
    · rcases List.mem_cons.1 h with rfl | h
      · rw [List.length_take]
        exact Nat.min_le_left _ _
      · exact ih h

/-- Every pack can be sent on the first band. -/
theorem encodePackResponse_band (pack : List (List UInt8)) :
    ∃ frames, encodePackResponse pack true = .ok (frames ++ [flushPkt]) ∧
      List.Forall₂ (fun data frame => pkt (1 :: data) = .ok frame)
        (pack.flatMap fun chunk => bandPieces chunk.length chunk) frames := by
  have hall : ∀ pieces : List (List UInt8), (∀ piece ∈ pieces, piece.length ≤ maxPktPayloadBytes - 1) →
      ∃ frames, pieces.mapM (fun data => pkt (1 :: data)) = .ok frames := by
    intro pieces
    induction pieces with
    | nil => exact fun _ => ⟨[], rfl⟩
    | cons data pieces ih =>
      intro hshort
      rw [List.forall_mem_cons] at hshort
      obtain ⟨frames, hframes⟩ := ih hshort.2
      have hfits : ¬ maxPktPayloadBytes < data.length + 1 := by
        have hpos : 0 < maxPktPayloadBytes := by decide
        omega
      have hframe : pkt (1 :: data) = .ok (lengthDigits (data.length + 1 + 4) ++ 1 :: data) := by
        rw [pkt, reject, if_neg (by simpa using hfits)]
        rfl
      refine ⟨(lengthDigits (data.length + 1 + 4) ++ 1 :: data) :: frames, ?_⟩
      rw [List.mapM_cons, hframe, ok_bind, hframes]
      rfl
  obtain ⟨frames, hframes⟩ := hall (pack.flatMap fun chunk => bandPieces chunk.length chunk) (by
    intro piece hmem
    obtain ⟨chunk, -, hmem⟩ := List.mem_flatMap.1 hmem
    exact length_bandPieces hmem)
  refine ⟨frames, ?_, Fuel.mapM_ok hframes⟩
  rw [encodePackResponse, if_pos rfl, hframes]
  rfl

/-- What a stream of packets was encoded to is read back, packet by packet up to its end, and the
    pack that a server sends on the first band is the one that a fetch receives, both however the
    bytes are divided into chunks. -/
theorem packets_received (packets : List Pkt) (pack : List (List UInt8)) :
    (match packets.mapM encodePacket with
      | .ok frames => ∀ chunks : List (List UInt8), chunks.flatten = frames.flatten →
          ∀ fuel, packets.length < fuel → readPackets fuel (.ofChunks chunks) = .ok packets
      | .error _ => ∃ payload, .line payload ∈ packets ∧ maxPktPayloadBytes < payload.length) ∧
    ∃ response, encodePackResponse pack true = .ok response ∧
      ∀ chunks : List (List UInt8), chunks.flatten = response.flatten →
        (∀ fuel, 2 * chunks.flatten.length < fuel → ∃ body after,
          sidebandFrom fuel none (.ofChunks chunks) = .ok (body, after) ∧
            body.flatten = pack.flatten) ∧
        (pack.flatten ≠ [] → ∃ first after body,
          readPkt (.ofChunks chunks) = .ok (some (.line first), after) ∧
            sideband after first = .ok body ∧ body.flatten = pack.flatten) := by
  constructor
  · cases hframes : packets.mapM encodePacket with
    | ok frames =>
      intro chunks hchunks fuel hfuel
      exact readPackets_ok (Fuel.mapM_ok hframes) hfuel hchunks
    | error e => exact mapM_encodePacket_error hframes
  · obtain ⟨frames, hresponse, hframes⟩ := encodePackResponse_band pack
    refine ⟨_, hresponse, fun chunks hchunks => ?_⟩
    have hpieces : ∀ piece ∈ pack.flatMap fun chunk => bandPieces chunk.length chunk, piece ≠ [] := by
      intro piece hmem
      obtain ⟨chunk, -, hmem⟩ := List.mem_flatMap.1 hmem
      exact (bandPieces_ok (Nat.le_refl _)).2 piece hmem
    have hflatten := flatten_bandPieces pack
    have hbytes : (ByteReader.ofChunks chunks).bytes = frames.flatten ++ flushPkt ++ [] := by
      rw [bytes_ofChunks, hchunks]
      simp
    have hcount := length_le_frames hframes
    have htotal : frames.flatten.length ≤ chunks.flatten.length := by
      rw [← bytes_ofChunks chunks, hbytes, List.length_append, List.length_append]
      omega
    generalize (pack.flatMap fun chunk => bandPieces chunk.length chunk) = pieces at *
    constructor
    · intro fuel hfuel
      obtain ⟨after, hread, -⟩ := @sidebandFrom_ok fuel _ _ _ _ hframes hpieces (by omega) hbytes
      exact ⟨pieces, after, hread, hflatten⟩
    · intro hpack
      cases hframes with
      | nil => exact absurd hflatten.symm hpack
      | @cons data frame pieces frames hframe hframes =>
        rw [List.forall_mem_cons] at hpieces
        rw [List.flatten_cons, List.append_assoc, List.append_assoc] at hbytes
        obtain ⟨after, hread, hafter⟩ := readPkt_line hframe hbytes
        rw [← List.append_assoc] at hafter
        have hmore := length_le_frames hframes
        have hlength : frames.flatten.length ≤ after.bytes.length := by
          rw [hafter, List.length_append, List.length_append]
          omega
        obtain ⟨last, hrest, -⟩ := @sidebandFrom_ok (2 * after.bytes.length + 1) _ _ _ _ hframes
          hpieces.2 (by omega) hafter
        refine ⟨1 :: data, after, data :: pieces, hread, ?_, hflatten⟩
        rw [sideband, sidebandFrom, fetchPayload_band hpieces.1, ok_bind, hrest]
        rfl

/-- Three packets, with a chunk that ends in a length and one that is empty. -/
theorem three_packets_received :
    readPackets 4 (.ofChunks [ascii "00", [], ascii "05a", ascii "00010000"]) =
        .ok [.line (ascii "a"), .delim, .flush] ∧
      ∃ body after, sidebandFrom 100 none (.ofChunks [ascii "0007", [1, 0x50], ascii "K0000"]) =
        .ok (body, after) ∧ body.flatten = ascii "PK" := by
  obtain ⟨hpackets, response, hresponse, hpack⟩ :=
    packets_received [.line (ascii "a"), .delim, .flush] [ascii "PK"]
  have hframes : [Pkt.line (ascii "a"), .delim, .flush].mapM encodePacket =
      .ok [ascii "0005a", delimPkt, flushPkt] := by decide
  have hsent : encodePackResponse [ascii "PK"] true = .ok [ascii "0007" ++ 1 :: ascii "PK", flushPkt] := by
    decide
  rw [hframes] at hpackets
  rw [hsent] at hresponse
  cases hresponse
  exact ⟨hpackets _ (by decide) 4 (by decide), (hpack _ (by decide)).1 100 (by decide)⟩

end Kompjutr.Protocol
