/-
  Kompjutr.Fs.StreamWrite

  Streaming into one file (`fs/store/stream-write.ts`): the bytes of each chunk of the stream go
  behind those that stand, a stored chunk at a time.
-/
import Kompjutr.Fs.RangeOps

namespace Kompjutr.Fs

open Objects (Text text)

/-- `DEFAULT_FILE_MODE`. -/
def defaultFileMode : Nat := 0o644

def existingFile (tables : FsTables) (path : Text) : Except FsError (Option FileRow) :=
  match tables.nodeAt path with
  | none => pure none
  | some (inode, node) =>
    if node.type = .dir then throw (filesystemError "EISDIR" "cannot redirect to a directory" path)
    else if node.type ≠ .file then
      throw (filesystemError "EINVAL" "redirect target is not a regular file" path)
    else if !isSafeInteger inode || inode < 1 || !soundLayout tables inode node.size then
      throw (filesystemError "EIO" "redirect target has corrupt content" path)
    else pure (some { inode, size := node.size })

/-- The row that the parent is read from bears the name that it is asked for. -/
def requireParent (tables : FsTables) (path : Text) : Except FsError Unit :=
  match tables.nodeAt (dirname path) with
  | none => throw (filesystemError "ENOENT" "redirect parent does not exist" path)
  | some (_, node) =>
    if node.type ≠ .dir then
      throw (filesystemError "ENOTDIR" "redirect parent is not a directory" path)
    else pure ()

/-- One statement of the stream: a new chunk, or more of the last one. -/
def writePiece (tables : FsTables) (inode offset : Nat) (piece : List UInt8) :
    Except FsError FsTables :=
  let idx := offset / chunkSize
  let within := offset % chunkSize
  if within = 0 then
    match tables.chunks.insert (inode, idx) piece with
    | none => throw (constraintFailed "fs_chunks.inode, fs_chunks.idx")
    | some chunks => pure { tables with chunks }
  else pure
    { tables with
      chunks := tables.chunks.update fun key bytes =>
        if key = (inode, idx) ∧ bytes.length = within then bytes ++ piece else bytes }

/-- How much of a chunk of the stream one statement takes. -/
def pieceLength (offset : Nat) (chunk : List UInt8) : Nat :=
  min (chunkSize - offset % chunkSize) chunk.length

theorem pieceLength_pos (offset : Nat) {chunk : List UInt8} (h : chunk ≠ []) :
    0 < pieceLength offset chunk := by
  have hmod := Nat.mod_lt offset chunkSize_pos
  have hlength := List.length_pos_of_ne_nil h
  unfold pieceLength
  omega

/-- One chunk of the stream; the offset is the end of the file so far. -/
def streamChunk (path : Text) (inode : Nat) (tables : FsTables) (offset : Nat)
    (chunk : List UInt8) : Except FsError (FsTables × Nat) :=
  if _h : chunk = [] then pure (tables, offset)
  else if !isSafeInteger (offset + pieceLength offset chunk : Nat) then
    throw (filesystemError "EFBIG" "redirect target exceeds the safe file-size limit" path)
  else
    writePiece tables inode offset (chunk.take (pieceLength offset chunk)) >>= fun tables =>
    streamChunk path inode tables (offset + pieceLength offset chunk)
      (chunk.drop (pieceLength offset chunk))
termination_by chunk.length
decreasing_by
  have hpos := pieceLength_pos offset _h
  have hlength := List.length_pos_of_ne_nil _h
  rw [List.length_drop]
  omega

/-- The file that is written: the existing one, emptied unless it is appended to, or a new one. -/
def openTarget (tables : FsTables) (path : Text) (existing : Option FileRow) (append : Bool)
    (mtime : Int) : Except FsError (FsTables × Nat) :=
  match existing with
  | none =>
    let node :=
      { type := .file, mode := defaultFileMode, mtime, size := 0, rev := tables.rev, nlink := 1
        linkTarget := none, contentId := none }
    match tables.nodes.insert tables.nextInode node,
        tables.paths.insert path { parent := dirname path, inode := tables.nextInode } with
    | some nodes, some paths =>
      pure ({ tables with nextInode := tables.nextInode + 1, nodes, paths }, tables.nextInode)
    | none, _ => throw (constraintFailed "fs_nodes.inode")
    | some _, none => throw (constraintFailed "fs_paths.path")
  | some file =>
    if append then pure (tables, file.inode)
    else pure ({ tables with chunks := tables.chunks.keep fun row => row.1.1 ≠ file.inode }, file.inode)

/-- Write one file in one transaction and one revision. -/
def writeFileStream (tables : FsTables) (path : Text) (chunks : List (List UInt8)) (append : Bool)
    (mtime : Int) : Except FsError FsTables :=
  if !isSafeInteger mtime then
    throw { code := "EINVAL", message := text "mtime must be a safe integer", path := [] }
  else
    requireParent tables path >>= fun _ =>
    existingFile tables path >>= fun existing =>
    openTarget tables.bumpRev path existing append mtime >>= fun opened =>
    chunks.foldlM (fun state chunk => streamChunk path opened.2 state.1 state.2 chunk)
      (opened.1, if append then (existing.map FileRow.size).getD 0 else 0) >>= fun written =>
    pure (written.1.touchFile opened.2 written.2 mtime)

end Kompjutr.Fs
