/-
  Kompjutr.Pack.ChunkWriter

  `PackChunkWriter` (`store/pack/ingest/ingest-write.ts`): a received pack becomes rows of
  `PACK_CHUNK` octets while its checksum is computed.

  Which octets the checksum covers is known only at the end, so the last twenty are held back
  from the hash; the rows are filled beside it, at their own alignment.
-/
import Kompjutr.Common.Bytes
import Mathlib.Data.List.TakeDrop
import Mathlib.Data.List.Range

namespace Kompjutr.Pack

open Bytes (toHex toHex_inj)
open List (append_assoc append_nil length_append length_drop take_append_drop)

variable {data : List UInt8}

variable {seen : List UInt8} {maxBytes : Option Nat}

/-- The hash of `node:crypto` behind `Sha1`: it takes its input in pieces of any lengths. -/
structure Sha1 where
  State : Type
  createHash : State
  update : State → List UInt8 → State
  digest : State → List UInt8
  update_nil : ∀ state, update state [] = state
  update_append : ∀ state left right,
    update (update state left) right = update state (left ++ right)

/-- `sha1`. -/
def Sha1.sha1 (sha : Sha1) (data : List UInt8) : List UInt8 :=
  sha.digest (sha.update sha.createHash data)

/-- Octets of a `git_pack_data` row. -/
def PACK_CHUNK : Nat := 1024 * 1024

/-- Octets of a received chunk that are taken at once. -/
def SLICE : Nat := 4 * 1024 * 1024

theorem PACK_CHUNK_pos : 0 < PACK_CHUNK := by decide

theorem SLICE_pos : 0 < SLICE := by decide

/-- A `git_pack_data` row of the pack. -/
structure DataRow where
  seq : Nat
  data : List UInt8
  deriving DecidableEq

/-- The part of the buffer that is filled. -/
structure Buffer where
  bytes : List UInt8
  filled_lt : bytes.length < PACK_CHUNK

def Buffer.empty : Buffer where
  bytes := []
  filled_lt := PACK_CHUNK_pos

/-- The rows that are written, with the number of the next one. -/
structure Rows where
  rows : List DataRow
  seq : Nat

/-- `#writeChunk(packId, seq++, data)`. -/
def Rows.writeChunk (rows : Rows) (data : List UInt8) : Rows where
  rows := rows.rows ++ [{ seq := rows.seq, data }]
  seq := rows.seq + 1

/-- What the locals of `writeChunks` are between two slices. -/
structure Writer (sha : Sha1) where
  hash : sha.State
  tail : List UInt8
  total : Nat
  buffer : Buffer
  written : Rows

variable (sha : Sha1)

def Writer.start : Writer sha where
  hash := sha.createHash
  tail := []
  total := 0
  buffer := Buffer.empty
  written := { rows := [], seq := 0 }

variable {sha}

/-- The part of `feed` about the checksum. -/
def hashBehind (hash : sha.State) (tail data : List UInt8) : sha.State × List UInt8 :=
  if data.length ≥ 20 then
    (sha.update (sha.update hash tail) (data.take (data.length - 20)), data.drop (data.length - 20))
  else
    let joined := if tail.length > 0 then tail ++ data else data
    if joined.length > 20 then
      (sha.update hash (joined.take (joined.length - 20)), joined.drop (joined.length - 20))
    else (hash, joined)

/-- The part of `feed` about the rows. -/
def fillRows (buffer : Buffer) (written : Rows) (data : List UInt8) : Buffer × Rows :=
  if data = [] then (buffer, written)
  else
    let take := min (PACK_CHUNK - buffer.bytes.length) data.length
    let filled := buffer.bytes ++ data.take take
    if hfilled : filled.length < PACK_CHUNK then
      fillRows { bytes := filled, filled_lt := hfilled } written (data.drop take)
    else fillRows Buffer.empty (written.writeChunk filled) (data.drop take)
termination_by data.length
decreasing_by
  all_goals
    have hbuffer := buffer.filled_lt
    have hdata := List.length_pos_of_ne_nil ‹data ≠ []›
    rw [length_drop]
    omega

/-- `total > maxBytes`; without a limit of the caller's that is `Infinity`. -/
def exceeds (maxBytes : Option Nat) (total : Nat) : Bool :=
  maxBytes.any fun limit => total > limit

def feed (maxBytes : Option Nat) (writer : Writer sha) (data : List UInt8) :
    Except GitError (Writer sha) :=
  let total := writer.total + data.length
  (reject (exceeds maxBytes total) (corrupt "pack exceeds the maximum accepted size")).map fun _ =>
    let hashed := hashBehind writer.hash writer.tail data
    let filled := fillRows writer.buffer writer.written data
    { hash := hashed.1, tail := hashed.2, total, buffer := filled.1, written := filled.2 }

/-- A received chunk, slice by slice. -/
def feedSlices (maxBytes : Option Nat) (writer : Writer sha) (data : List UInt8) :
    Except GitError (Writer sha) :=
  if data = [] then .ok writer
  else
    (feed maxBytes writer (data.take SLICE)).bind fun next =>
      feedSlices maxBytes next (data.drop SLICE)
termination_by data.length
decreasing_by
  have hdata := List.length_pos_of_ne_nil ‹data ≠ []›
  have hslice := SLICE_pos
  rw [length_drop]
  omega

/-- The row that is not full. -/
def Writer.flush (writer : Writer sha) : Rows :=
  if writer.buffer.bytes.length > 0 then writer.written.writeChunk writer.buffer.bytes
  else writer.written

/-- The end of `writeChunks`, behind the last slice. -/
def finish (writer : Writer sha) : Except GitError (Nat × List DataRow) :=
  (reject (writer.total < 32) (corrupt "pack is too small to be valid")).bind fun _ =>
    (reject (toHex writer.tail ≠ toHex (sha.digest writer.hash))
      (corrupt "pack checksum mismatch")).map fun _ => (writer.total, writer.flush.rows)

variable (sha) in
/-- `writeChunks`: the size of the pack, with the rows that it wrote. -/
def writeChunks (maxBytes : Option Nat) (source : List (List UInt8)) :
    Except GitError (Nat × List DataRow) :=
  (source.foldlM (feedSlices maxBytes) (Writer.start sha)).bind finish

-- What a slice does

/-- The rows and the buffer hold `seen`: full rows, numbered from zero. -/
structure Filled (buffer : Buffer) (written : Rows) (seen : List UInt8) : Prop where
  bytes : written.rows.flatMap DataRow.data ++ buffer.bytes = seen
  seqs : written.rows.map DataRow.seq = List.range written.seq
  full : ∀ row ∈ written.rows, row.data.length = PACK_CHUNK

variable {written : Rows}

theorem seqs_writeChunk (data : List UInt8)
    (h : written.rows.map DataRow.seq = List.range written.seq) :
    (written.writeChunk data).rows.map DataRow.seq =
      List.range (written.writeChunk data).seq := by
  unfold Rows.writeChunk
  rw [List.map_append, h, List.range_succ]
  rfl

theorem flatMap_writeChunk (written : Rows) (data : List UInt8) :
    (written.writeChunk data).rows.flatMap DataRow.data =
      written.rows.flatMap DataRow.data ++ data := by
  unfold Rows.writeChunk
  rw [List.flatMap_append, List.flatMap_singleton]

/-- `fillRows` keeps the alignment of the rows, whatever the alignment of the data. -/
theorem fillRows_filled {buffer : Buffer} (h : Filled buffer written seen) (data : List UInt8) :
    Filled (fillRows buffer written data).1 (fillRows buffer written data).2 (seen ++ data) := by
  fun_induction fillRows buffer written data generalizing seen with
  | case1 buffer written => rwa [append_nil]
  | case2 buffer written data hdata take filled hfilled =>
    rename_i ih
    have hnext : Filled { bytes := buffer.bytes ++ data.take take, filled_lt := hfilled }
        written (seen ++ data.take take) := by
      refine ⟨?_, h.seqs, h.full⟩
      rw [← h.bytes, append_assoc]
    have hrest := ih hnext
    rwa [append_assoc, take_append_drop] at hrest
  | case3 buffer written data hdata take filled hfilled =>
    rename_i ih
    have hlength : filled.length = PACK_CHUNK := by
      have hbuffer := buffer.filled_lt
      have hsum : filled.length = buffer.bytes.length + min take data.length := by
        rw [length_append, List.length_take]
      omega
    have hnext : Filled Buffer.empty (written.writeChunk (buffer.bytes ++ data.take take))
        (seen ++ data.take take) := by
      refine ⟨?_, seqs_writeChunk _ h.seqs, ?_⟩
      · rw [flatMap_writeChunk, ← h.bytes, append_assoc _ buffer.bytes]
        exact append_nil _
      · intro row hrow
        obtain hold | hnew := List.mem_append.1 hrow
        · exact h.full row hold
        · rw [List.mem_singleton.1 hnew]
          exact hlength
    have hrest := ih hnext
    rwa [append_assoc, take_append_drop] at hrest

/-- The hash covers `seen` without its last twenty octets, which are held back. -/
structure Hashed (hash : sha.State) (tail seen : List UInt8) : Prop where
  hash : hash = sha.update sha.createHash (seen.take (seen.length - 20))
  tail : tail = seen.drop (seen.length - 20)

theorem hashBehind_hashed {hash : sha.State} {tail : List UInt8}
    (h : Hashed hash tail seen) (data : List UInt8) :
    Hashed (hashBehind hash tail data).1 (hashBehind hash tail data).2 (seen ++ data) := by
  obtain ⟨rfl, rfl⟩ := h
  have hlength : (seen ++ data).length = seen.length + data.length := length_append
  unfold hashBehind
  split
  · next hlong =>
    -- the whole lookbehind and all but the end of the slice
    have hkeep : (seen ++ data).length - 20 = seen.length + (data.length - 20) := by omega
    refine ⟨?_, ?_⟩
    · rw [sha.update_append, sha.update_append, ← append_assoc, take_append_drop,
        hkeep, List.take_length_add_append]
    · rw [hkeep, List.drop_length_add_append]
  · next hshort =>
    have hjoined : (if (seen.drop (seen.length - 20)).length > 0
        then seen.drop (seen.length - 20) ++ data else data) =
        (seen ++ data).drop (seen.length - 20) := by
      rw [List.drop_append_of_le_length (Nat.sub_le _ _)]
      split
      · rfl
      · next hempty =>
        rw [List.eq_nil_of_length_eq_zero (Nat.eq_zero_of_not_pos hempty), List.nil_append]
    dsimp only
    rw [hjoined, length_drop]
    split
    · next hmore =>
      have hkeep : seen.length - 20 + ((seen ++ data).length - (seen.length - 20) - 20) =
          (seen ++ data).length - 20 := by omega
      refine ⟨?_, ?_⟩
      · have hfront : seen.take (seen.length - 20) = (seen ++ data).take (seen.length - 20) :=
          (List.take_append_of_le_length (Nat.sub_le _ _)).symm
        rw [sha.update_append, hfront, ← List.take_add, hkeep]
      · rw [List.drop_drop, hkeep]
    · next hfew =>
      have hkeep : (seen ++ data).length - 20 = seen.length - 20 := by omega
      refine ⟨?_, ?_⟩
      · rw [hkeep, List.take_append_of_le_length (Nat.sub_le _ _)]
      · rw [hkeep]

/-- What holds between two slices, when `seen` was received. -/
structure Writer.Holds (writer : Writer sha) (seen : List UInt8) : Prop where
  hashed : Hashed writer.hash writer.tail seen
  total : writer.total = seen.length
  filled : Filled writer.buffer writer.written seen

theorem Writer.holds_start : (Writer.start sha).Holds [] where
  hashed := ⟨(sha.update_nil _).symm, rfl⟩
  total := rfl
  filled := ⟨rfl, rfl, fun _ h => nomatch h⟩

theorem exceeds_mono {less more : Nat} (hle : less ≤ more)
    (h : exceeds maxBytes less = true) : exceeds maxBytes more = true := by
  cases maxBytes with
  | none => exact h
  | some limit =>
    have hless : less > limit := of_decide_eq_true h
    exact decide_eq_true (by omega)

theorem exceeds_append (data : List UInt8) (h : exceeds maxBytes (seen ++ data).length = false) :
    exceeds maxBytes seen.length = false := by
  rw [Bool.eq_false_iff] at h ⊢
  refine fun hover => h (exceeds_mono ?_ hover)
  rw [length_append]
  omega

theorem exceeds_eq_false {total : Nat} :
    exceeds maxBytes total = false ↔ ∀ limit ∈ maxBytes, total ≤ limit := by
  cases maxBytes with
  | none => simp [exceeds]
  | some limit => simp [exceeds]

variable {writer : Writer sha}

/-- A slice is taken exactly when the limit allows it. -/
theorem feed_holds (h : writer.Holds seen) (data : List UInt8)
    (hlimit : exceeds maxBytes (seen ++ data).length = false) :
    ∃ next, feed maxBytes writer data = .ok next ∧ next.Holds (seen ++ data) := by
  have htotal : writer.total + data.length = (seen ++ data).length := by
    rw [h.total, length_append]
  have hfeed : feed maxBytes writer data = .ok
      { hash := (hashBehind writer.hash writer.tail data).1
        tail := (hashBehind writer.hash writer.tail data).2
        total := writer.total + data.length
        buffer := (fillRows writer.buffer writer.written data).1
        written := (fillRows writer.buffer writer.written data).2 } := by
    unfold feed
    dsimp only
    rw [htotal, hlimit]
    rfl
  exact ⟨_, hfeed, hashBehind_hashed h.hashed data, htotal, fillRows_filled h.filled data⟩

theorem feed_exceeds (h : writer.Holds seen) (data : List UInt8)
    (hlimit : exceeds maxBytes (seen ++ data).length = true) :
    feed maxBytes writer data = .error (corrupt "pack exceeds the maximum accepted size") := by
  unfold feed
  dsimp only
  rw [h.total, ← length_append, hlimit]
  rfl

theorem feedSlices_holds
    (h : writer.Holds seen) (hlimit : exceeds maxBytes (seen ++ data).length = false) :
    ∃ next, feedSlices maxBytes writer data = .ok next ∧ next.Holds (seen ++ data) := by
  fun_induction feedSlices maxBytes writer data generalizing seen with
  | case1 writer =>
    rw [append_nil]
    exact ⟨writer, rfl, h⟩
  | case2 writer data hdata ih =>
    have hsplit : seen ++ data.take SLICE ++ data.drop SLICE = seen ++ data := by
      rw [append_assoc, take_append_drop]
    rw [← hsplit] at hlimit
    have hslice := exceeds_append _ hlimit
    obtain ⟨next, hfeed, hnext⟩ := feed_holds h (data.take SLICE) hslice
    obtain ⟨last, hrest, hlast⟩ := ih next hnext hlimit
    rw [hsplit] at hlast
    exact ⟨last, by rw [hfeed]; exact hrest, hlast⟩

theorem feedSlices_exceeds (h : writer.Holds seen) (hseen : exceeds maxBytes seen.length = false)
    (hlimit : exceeds maxBytes (seen ++ data).length = true) :
    feedSlices maxBytes writer data =
      .error (corrupt "pack exceeds the maximum accepted size") := by
  fun_induction feedSlices maxBytes writer data generalizing seen with
  | case1 writer =>
    rw [append_nil, hseen] at hlimit
    cases hlimit
  | case2 writer data hdata ih =>
    cases hslice : exceeds maxBytes (seen ++ data.take SLICE).length with
    | true =>
      rw [feed_exceeds h _ hslice]
      rfl
    | false =>
      obtain ⟨next, hfeed, hnext⟩ := feed_holds h (data.take SLICE) hslice
      rw [hfeed]
      refine ih next hnext hslice ?_
      rwa [append_assoc, take_append_drop]

-- Whole streams

theorem foldlM_holds (source : List (List UInt8)) (h : writer.Holds seen)
    (hlimit : exceeds maxBytes (seen ++ source.flatten).length = false) :
    ∃ next, source.foldlM (feedSlices maxBytes) writer = .ok next ∧
      next.Holds (seen ++ source.flatten) := by
  induction source generalizing writer seen with
  | nil =>
    rw [List.flatten_nil, append_nil]
    exact ⟨writer, rfl, h⟩
  | cons data source ih =>
    rw [List.flatten_cons, ← append_assoc] at hlimit ⊢
    obtain ⟨next, hfeed, hnext⟩ := feedSlices_holds h (exceeds_append _ hlimit)
    obtain ⟨last, hrest, hlast⟩ := ih hnext hlimit
    refine ⟨last, ?_, hlast⟩
    rw [List.foldlM_cons, hfeed]
    exact hrest

theorem foldlM_exceeds (source : List (List UInt8)) (h : writer.Holds seen)
    (hseen : exceeds maxBytes seen.length = false)
    (hlimit : exceeds maxBytes (seen ++ source.flatten).length = true) :
    source.foldlM (feedSlices maxBytes) writer =
      .error (corrupt "pack exceeds the maximum accepted size") := by
  induction source generalizing writer seen with
  | nil =>
    rw [List.flatten_nil, append_nil, hseen] at hlimit
    cases hlimit
  | cons data source ih =>
    rw [List.flatten_cons, ← append_assoc] at hlimit
    rw [List.foldlM_cons]
    cases hdata : exceeds maxBytes (seen ++ data).length with
    | true =>
      rw [feedSlices_exceeds h hseen hdata]
      rfl
    | false =>
      obtain ⟨next, hfeed, hnext⟩ := feedSlices_holds h hdata
      rw [hfeed]
      exact ih hnext hdata hlimit

/-- What the rows of a pack are. -/
structure Stores (rows : List DataRow) (bytes : List UInt8) : Prop where
  bytes : rows.flatMap DataRow.data = bytes
  seqs : rows.map DataRow.seq = List.range rows.length
  full : ∀ row ∈ rows.dropLast, row.data.length = PACK_CHUNK

theorem stores_flush (h : writer.Holds seen) : Stores writer.flush.rows seen := by
  have hcount : writer.written.rows.length = writer.written.seq := by
    have hlength := congrArg List.length h.filled.seqs
    rwa [List.length_map, List.length_range] at hlength
  unfold Writer.flush
  split
  · refine ⟨?_, ?_, ?_⟩
    · rw [flatMap_writeChunk]
      exact h.filled.bytes
    · rw [seqs_writeChunk _ h.filled.seqs]
      unfold Rows.writeChunk
      rw [length_append, hcount, List.length_singleton]
    · unfold Rows.writeChunk
      rw [List.dropLast_concat]
      exact h.filled.full
  · next hempty =>
    refine ⟨?_, ?_, fun row hrow => h.filled.full row (List.dropLast_subset _ hrow)⟩
    · have hbytes := h.filled.bytes
      rwa [List.eq_nil_of_length_eq_zero (Nat.eq_zero_of_not_pos hempty), append_nil] at hbytes
    · rw [h.filled.seqs, hcount]

theorem finish_eq_ok (h : writer.Holds seen)
    {result : Nat × List DataRow} : finish writer = .ok result ↔
      (32 ≤ seen.length ∧
          seen.drop (seen.length - 20) = sha.sha1 (seen.take (seen.length - 20))) ∧
        result = (seen.length, writer.flush.rows) := by
  have hsum : sha.digest writer.hash = sha.sha1 (seen.take (seen.length - 20)) := by
    rw [h.hashed.hash]
    rfl
  unfold finish
  rw [h.total, h.hashed.tail, hsum]
  by_cases hsmall : seen.length < 32
  · rw [decide_eq_true hsmall]
    exact ⟨fun hok => (nomatch hok), fun ⟨⟨hmin, _⟩, _⟩ => absurd hmin (by omega)⟩
  · rw [decide_eq_false hsmall]
    by_cases hsame : seen.drop (seen.length - 20) = sha.sha1 (seen.take (seen.length - 20))
    · rw [hsame, decide_eq_false (not_not_intro rfl)]
      constructor
      · intro hok
        cases hok
        exact ⟨⟨by omega, rfl⟩, rfl⟩
      · rintro ⟨-, rfl⟩
        rfl
    · have hhex : toHex (seen.drop (seen.length - 20)) ≠
          toHex (sha.sha1 (seen.take (seen.length - 20))) := fun h => hsame (toHex_inj h)
      rw [decide_eq_true hhex]
      exact ⟨fun hok => (nomatch hok), fun ⟨⟨_, h⟩, _⟩ => absurd h hsame⟩

/-- `writeChunks` accepts exactly the streams with a right checksum, within the limits, and its
    rows are the stream. -/
theorem writeChunks_iff (sha : Sha1) (maxBytes : Option Nat) (source : List (List UInt8)) :
    ((∃ result, writeChunks sha maxBytes source = .ok result) ↔
      (∀ limit ∈ maxBytes, source.flatten.length ≤ limit) ∧ 32 ≤ source.flatten.length ∧
        source.flatten.drop (source.flatten.length - 20) =
          sha.sha1 (source.flatten.take (source.flatten.length - 20))) ∧
      ∀ total rows, writeChunks sha maxBytes source = .ok (total, rows) →
        total = source.flatten.length ∧ Stores rows source.flatten := by
  have hstart := @Writer.holds_start sha
  have hzero : exceeds maxBytes ([] : List UInt8).length = false :=
    exceeds_eq_false.2 fun limit _ => Nat.zero_le limit
  rw [← exceeds_eq_false]
  unfold writeChunks
  cases hlimit : exceeds maxBytes source.flatten.length with
  | true =>
    rw [foldlM_exceeds source hstart hzero hlimit]
    exact ⟨⟨fun ⟨_, hok⟩ => (nomatch hok), fun ⟨hin, _⟩ => (nomatch hin)⟩,
      fun _ _ hok => (nomatch hok)⟩
  | false =>
    obtain ⟨writer, hfold, hwriter⟩ := foldlM_holds source hstart hlimit
    rw [List.nil_append] at hwriter
    rw [hfold]
    refine ⟨⟨?_, ?_⟩, ?_⟩
    · rintro ⟨result, hok⟩
      exact ⟨rfl, ((finish_eq_ok hwriter).1 hok).1⟩
    · rintro ⟨-, hchecks⟩
      exact ⟨_, (finish_eq_ok hwriter).2 ⟨hchecks, rfl⟩⟩
    · intro total rows hok
      cases ((finish_eq_ok hwriter).1 hok).2
      exact ⟨rfl, stores_flush hwriter⟩

/-- The octets of a pack without objects, and their checksum. -/
def emptyPack : List UInt8 :=
  [0x50, 0x41, 0x43, 0x4b, 0x0, 0x0, 0x0, 0x2, 0x0, 0x0, 0x0, 0x0]

def emptyPackSum : List UInt8 :=
  [0x2, 0x9d, 0x8, 0x82, 0x3b, 0xd8, 0xa8, 0xea, 0xb5, 0x10,
    0xad, 0x6a, 0xc7, 0x5c, 0x82, 0x3c, 0xfd, 0x3e, 0xd3, 0x1e]

/-- The hash at that input. -/
def emptyPackSha : Sha1 where
  State := List UInt8
  createHash := []
  update := fun state data => state ++ data
  digest := fun state => if state = emptyPack then emptyPackSum else []
  update_nil := append_nil
  update_append := append_assoc

theorem emptyPack_written :
    ∃ result, writeChunks emptyPackSha none
      [emptyPack.take 5, [], emptyPack.drop 5 ++ emptyPackSum] = .ok result :=
  (writeChunks_iff emptyPackSha none _).1.2 ⟨nofun, by decide, by decide⟩

end Kompjutr.Pack
