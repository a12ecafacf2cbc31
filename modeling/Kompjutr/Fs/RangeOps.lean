/-
  Kompjutr.Fs.RangeOps

  Writing a byte range, resizing (`fs/store/ops.ts`) and streaming into a file
  (`fs/store/stream-write.ts`), on the chunks of the file.

  A write reads the chunks at its two ends only where it does not cover them, and stores each chunk
  it touches whole.  A file that grows past its end gets its gap as zeros first.  The marks of
  changed subtrees are kept in a table that none of these functions reads.
-/
import Kompjutr.Fs.PathOrder
import Kompjutr.Fs.Tables

namespace Kompjutr.Fs

open Chunked (count)
open Objects (Text text)

-- Checks

structure FileRow where
  inode : Nat
  size : Nat
  deriving DecidableEq

def fileAt (tables : FsTables) (path : Text) : Except FsError FileRow :=
  match tables.nodeAt path with
  | none => throw (filesystemError "ENOENT" "no such file or directory" path)
  | some (inode, node) =>
    if node.type = .dir then throw (filesystemError "EISDIR" "illegal operation on a directory" path)
    else if node.type ≠ .file then throw (filesystemError "EINVAL" "not a regular file" path)
    else pure { inode, size := node.size }

/-- The chunk rows that are not of the length of their place. -/
def invalidChunks (tables : FsTables) (inode size : Nat) : Nat :=
  ((tables.chunkRows inode).filter fun row =>
    (row.2.length : Int) ≠ min (chunkSize : Int) (size - row.1.2 * chunkSize)).length

/-- The check of the chunk layout that the writers make. -/
def soundLayout (tables : FsTables) (inode size : Nat) : Bool :=
  isSafeInteger size && (tables.layoutOf inode).describes size && invalidChunks tables inode size = 0

def validateChunkLayout (tables : FsTables) (file : FileRow) (path : Text) : Except FsError Unit :=
  if !soundLayout tables file.inode file.size then
    throw (filesystemError "EIO" s!"corrupt chunks for inode {file.inode}" path)
  else pure ()

-- Chunk statements

/-- The upserts of a statement over some chunks of an inode. -/
def FsTables.upsertChunks (tables : FsTables) (inode : Nat) (rows : List (Nat × List UInt8)) :
    FsTables :=
  { tables with
    chunks := rows.foldl (fun chunks row => chunks.upsert (inode, row.1) row.2) tables.chunks }

/-- `EXTEND_CHUNKS`: a chunk of the grown file is the stored one, cut or filled with zeros. -/
def extendedChunk (tables : FsTables) (inode newSize idx : Nat) : List UInt8 :=
  let wanted := min chunkSize (newSize - idx * chunkSize)
  let existing := (tables.chunks.get (inode, idx)).getD []
  existing.take wanted ++ List.replicate (wanted - existing.length) 0

def extendChunks (tables : FsTables) (file : FileRow) (newSize : Nat) : FsTables :=
  if newSize ≤ file.size then tables
  else
    let firstIdx := file.size / chunkSize
    let lastIdx := count chunkSize newSize - 1
    tables.upsertChunks file.inode
      (((List.range' firstIdx (lastIdx + 1 - firstIdx)).filter fun idx =>
        0 < min chunkSize (newSize - idx * chunkSize)).map fun idx =>
          (idx, extendedChunk tables file.inode newSize idx))

/-- The chunks at the ends of a write that it does not cover. -/
def boundaryChunks (tables : FsTables) (inode firstIdx lastIdx offset stop : Nat) (idx : Nat) :
    Option (List UInt8) :=
  if (offset % chunkSize ≠ 0 ∧ idx = firstIdx) ∨ (stop % chunkSize ≠ 0 ∧ idx = lastIdx) then
    tables.chunks.get (inode, idx)
  else none

/-- A chunk of zeros with the start of what was stored. -/
def seededChunk (previous : Option (List UInt8)) (n : Nat) : List UInt8 :=
  match previous with
  | none => List.replicate n 0
  | some stored => setBytes 0 (stored.take n) (List.replicate n 0)

/-- One chunk of a write. -/
def plannedChunk (existing : Nat → Option (List UInt8)) (bytes : List UInt8)
    (offset oldSize idx : Nat) : List UInt8 :=
  let stop := offset + bytes.length
  let newSize := max oldSize stop
  let chunkStart := idx * chunkSize
  let writeStart := max offset chunkStart
  let writeEnd := min stop (chunkStart + chunkSize)
  let source := (bytes.take (writeEnd - offset)).drop (writeStart - offset)
  if writeStart = chunkStart ∧ writeEnd = chunkStart + chunkSize then source
  else
    setBytes (writeStart - chunkStart) source
      (seededChunk (existing idx) (min chunkSize (newSize - chunkStart)))

def planChunkWrites (existing : Nat → Option (List UInt8)) (bytes : List UInt8)
    (offset oldSize : Nat) : List (Nat × List UInt8) :=
  if bytes.length = 0 then []
  else
    let firstIdx := offset / chunkSize
    let lastIdx := (offset + bytes.length - 1) / chunkSize
    (List.range' firstIdx (lastIdx + 1 - firstIdx)).map fun idx =>
      (idx, plannedChunk existing bytes offset oldSize idx)

/-- `CHUNK_WRITE_BUDGET`. -/
def chunkWriteBudget : Nat := 3 * chunkSize

/-- The rows of the next batch, behind `payloadLength` bytes, and the rows after it. -/
def nextBatch (payloadLength : Nat) :
    List (Nat × List UInt8) → List (Nat × List UInt8) × List (Nat × List UInt8)
  | [] => ([], [])
  | row :: rows =>
    if payloadLength + row.2.length > chunkWriteBudget then ([], row :: rows)
    else
      let (batch, rest) := nextBatch (payloadLength + row.2.length) rows
      (row :: batch, rest)

theorem nextBatch_append (payloadLength : Nat) (rows : List (Nat × List UInt8)) :
    (nextBatch payloadLength rows).1 ++ (nextBatch payloadLength rows).2 = rows := by
  fun_induction nextBatch payloadLength rows with
  | case1 => rfl
  | case2 => rfl
  | case3 _ _ _ _ _ _ heq ih =>
    rw [heq] at ih
    exact congrArg _ ih

/-- The rows of a batch, cut out of its payload: `substr(?, a, n)`. -/
def cutRows (payload : List UInt8) : Nat → List (Nat × List UInt8) → List (Nat × List UInt8)
  | _, [] => []
  | position, row :: rows =>
    (row.1, (payload.drop position).take row.2.length) ::
      cutRows payload (position + row.2.length) rows

/-- `UPSERT_CHUNKS` for the rows of a batch. -/
def upsertBatch (tables : FsTables) (inode : Nat) (batch : List (Nat × List UInt8)) : FsTables :=
  tables.upsertChunks inode (cutRows (batch.flatMap Prod.snd) 0 batch)

/-- The first row of a batch is taken whatever its length. -/
def writeChunkBatches (tables : FsTables) (inode : Nat) : List (Nat × List UInt8) → FsTables
  | [] => tables
  | row :: rows =>
    writeChunkBatches
      (upsertBatch tables inode (row :: (nextBatch row.2.length rows).1)) inode
      (nextBatch row.2.length rows).2
termination_by writes => writes.length
decreasing_by
  have hall := congrArg List.length (nextBatch_append row.2.length rows)
  rw [List.length_append] at hall
  rw [List.length_cons]
  omega

-- A byte range and a length

/-- The node of a file whose content has changed. -/
def FsTables.touchFile (tables : FsTables) (inode size : Nat) (mtime : Int) : FsTables :=
  { tables with
    nodes := tables.nodes.update fun other node =>
      if other = inode then { node with size, mtime, contentId := none, rev := tables.rev }
      else node }

/-- The part of `writeRangeRaw` behind its checks. -/
def writeChunks (tables : FsTables) (file : FileRow) (bytes : List UInt8) (offset : Nat)
    (mtime : Int) : FsTables :=
  let stop := offset + bytes.length
  let extended := if offset > file.size then extendChunks tables file stop else tables
  let existing := boundaryChunks extended file.inode (offset / chunkSize) ((stop - 1) / chunkSize)
    offset stop
  let writes := planChunkWrites existing bytes offset file.size
  (writeChunkBatches extended.bumpRev file.inode writes).touchFile file.inode (max file.size stop) mtime

/-- Write a byte range without reading the rest of the file. -/
def writeRangeRaw (tables : FsTables) (path : Text) (bytes : List UInt8) (offset : Int)
    (mtime : Int) : Except FsError FsTables :=
  if !isSafeInteger offset || offset < 0 || !isSafeInteger (offset + bytes.length) then
    throw (filesystemError "EINVAL" s!"invalid write offset: {offset}" path)
  else
    fileAt tables path >>= fun file =>
    if bytes.length = 0 then pure tables
    else
      (if offset + bytes.length > file.size then validateChunkLayout tables file path
        else pure ()) >>= fun _ =>
      pure (writeChunks tables file bytes offset.toNat mtime)

/-- The chunk rows of a file that is cut. -/
def cutChunks (tables : FsTables) (inode length : Nat) : FsTables :=
  let kept := tables.chunks.keep fun row =>
    row.1.1 ≠ inode || (0 < length && row.1.2 ≤ (length - 1) / chunkSize)
  { tables with
    chunks :=
      if 0 < length ∧ length % chunkSize ≠ 0 then
        kept.update fun key bytes =>
          if key = (inode, (length - 1) / chunkSize) then
            bytes.take (length - (length - 1) / chunkSize * chunkSize)
          else bytes
      else kept }

/-- Resize a file, with one boundary chunk at most. -/
def truncateRaw (tables : FsTables) (path : Text) (length : Int) (mtime : Int) :
    Except FsError FsTables :=
  if !isSafeInteger length || length < 0 then
    throw (filesystemError "EINVAL" s!"invalid truncate length: {length}" path)
  else
    fileAt tables path >>= fun file =>
    (if length < file.size then pure (cutChunks tables.bumpRev file.inode length.toNat)
      else if length > file.size then
        validateChunkLayout tables file path >>= fun _ =>
        pure (extendChunks tables.bumpRev file length.toNat)
      else pure tables.bumpRev) >>= fun resized =>
    pure (resized.touchFile file.inode length.toNat mtime)

end Kompjutr.Fs
