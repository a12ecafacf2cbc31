/-
  Kompjutr.Fs.FlatFile

  A stored file behaves as one flat sequence of bytes (`runOps_flat`).

  The flat operations are those of POSIX: a write at an offset fills the gap before it with zeros,
  a resize cuts or fills, an append goes behind the end, and a read stops there.  Each call on the
  tables answers what the flat operation answers and leaves the file with its bytes
  (`runOp_flat`), from which the run follows by induction on the calls.
-/
import Kompjutr.Fs.ReadFilesSound
import Kompjutr.Fs.ReadRangeSound
import Kompjutr.Fs.StreamWriteSound

namespace Kompjutr.Fs

open Chunked (count slice resize)
open Fuel (ok_bind)
open Objects (Text text)

-- Calls

inductive FileOp where
  | write (bytes : List UInt8) (offset mtime : Int)
  | truncate (length mtime : Int)
  | append (chunks : List (List UInt8)) (mtime : Int)
  | readRange (offset length : Int)
  | readFile
  deriving DecidableEq

/-- The bytes that a call answers, or the code of its error. -/
abbrev Answer := Except String (List UInt8)

/-- A transaction: an error leaves the tables as they were. -/
def transaction (tables : FsTables) (result : Except FsError FsTables) : FsTables × Answer :=
  match result with
  | .ok after => (after, .ok [])
  | .error error => (tables, .error error.code)

/-- A call on a path, and on where it resolves to. -/
def runOp (path real : Text) (tables : FsTables) : FileOp → FsTables × Answer
  | .write bytes offset mtime => transaction tables (writeRangeRaw tables real bytes offset mtime)
  | .truncate length mtime => transaction tables (truncateRaw tables real length mtime)
  | .append chunks mtime => transaction tables (writeFileStream tables real chunks true mtime)
  | .readRange offset length =>
    (tables, (readRange tables path real offset length).mapError ReadError.code)
  | .readFile => (tables, (readFile tables path real).mapError ReadError.code)

/-- Some calls one after another, with their answers. -/
def runOps {σ : Type} (step : σ → FileOp → σ × Answer) : σ → List FileOp → σ × List Answer
  | state, [] => (state, [])
  | state, op :: ops =>
    ((runOps step (step state op).1 ops).1, (step state op).2 :: (runOps step (step state op).1 ops).2)

/-- The same call on the bytes themselves. -/
def flatOp (content : List UInt8) : FileOp → List UInt8 × Answer
  | .write bytes offset _ =>
    if !isSafeInteger offset || offset < 0 || !isSafeInteger (offset + bytes.length) then
      (content, .error "EINVAL")
    -- A write of nothing does not extend the file.
    else if bytes = [] then (content, .ok [])
    else (Chunked.write 0 content offset.toNat bytes, .ok [])
  | .truncate length _ =>
    if !isSafeInteger length || length < 0 then (content, .error "EINVAL")
    else (resize 0 content length.toNat, .ok [])
  | .append chunks mtime =>
    if !isSafeInteger mtime then (content, .error "EINVAL")
    else if !isSafeInteger (content.length + chunks.flatten.length : Nat) then (content, .error "EFBIG")
    else (content ++ chunks.flatten, .ok [])
  | .readRange offset length => (content, .ok (Chunked.read content offset.toNat length.toNat))
  | .readFile => (content, .ok content)

-- The file between two calls

/-- A regular file of the store, in its directory. -/
structure OpenFile (tables : FsTables) (real : Text) (inode : Nat) (content : List UInt8) : Prop where
  holds : tables.Holds real inode content
  inode_pos : 1 ≤ inode
  inode_safe : isSafeInteger inode = true
  size_safe : isSafeInteger content.length = true
  parent : ∃ found, tables.nodeAt (dirname real) = some found ∧ found.2.type = .dir

variable {tables : FsTables} {path real : Text} {inode : Nat} {content : List UInt8}

theorem fileAt_eq (h : tables.Holds real inode content) :
    fileAt tables real = .ok { inode, size := content.length } := by
  obtain ⟨node, hnode, htype, hsize⟩ := h.node
  rw [fileAt, hnode]
  dsimp only
  rw [htype, if_neg (fun heq => nomatch heq), if_neg (not_not.2 rfl), hsize]
  rfl

section

variable (h : OpenFile tables real inode content)

include h

theorem existingFile_eq :
    existingFile tables real = .ok (some { inode, size := content.length }) := by
  obtain ⟨node, hnode, htype, hsize⟩ := h.holds.node
  have hpos : decide (inode < 1) = false := decide_eq_false (Nat.not_lt.2 h.inode_pos)
  rw [existingFile, hnode]
  dsimp only
  rw [htype, if_neg (fun heq => nomatch heq), if_neg (not_not.2 rfl), hsize, h.inode_safe, hpos,
    soundLayout_eq h.holds.stores h.size_safe]
  rfl

theorem requireParent_eq :
    requireParent tables real = .ok () := by
  obtain ⟨found, hfound, htype⟩ := h.parent
  rw [requireParent, hfound]
  exact if_neg (not_not.2 htype)

theorem validateChunkLayout_eq :
    validateChunkLayout tables { inode, size := content.length } real = .ok () := by
  rw [validateChunkLayout, soundLayout_eq h.holds.stores h.size_safe]
  rfl

/-- What a call that succeeds leaves: the nodes and the names, but for the size of the file. -/
theorem OpenFile.touch {after : FsTables}
    {grown : List UInt8} {size : Nat} (mtime : Int) (hnodes : after.nodes = tables.nodes)
    (hpaths : after.paths = tables.paths) (hstores : after.Stores inode grown)
    (hsize : size = grown.length) (hsafe : isSafeInteger size = true) :
    OpenFile (after.touchFile inode size mtime) real inode grown := by
  have hnodeAt : ∀ other, (after.touchFile inode size mtime).nodeAt other =
      (tables.nodeAt other).map fun found =>
        (found.1, if found.1 = inode then
          { found.2 with size, mtime, contentId := none, rev := after.rev } else found.2) := by
    intro other
    unfold FsTables.nodeAt FsTables.touchFile
    dsimp only
    rw [hpaths, hnodes]
    cases tables.paths.get other with
    | none => rfl
    | some entry =>
      rw [Option.bind_some, Option.bind_some, KeyTable.get_update, Option.map_map, Option.map_map]
      rfl
  obtain ⟨node, hnode, htype, -⟩ := h.holds.node
  obtain ⟨found, hfound, hdir⟩ := h.parent
  refine ⟨⟨hstores, ?_⟩, h.inode_pos, h.inode_safe, hsize ▸ hsafe, ?_⟩
  · refine ⟨{ node with size, mtime, contentId := none, rev := after.rev }, ?_, htype, hsize⟩
    rw [hnodeAt, hnode, Option.map_some, if_pos rfl]
  · rw [hnodeAt, hfound, Option.map_some]
    refine ⟨_, rfl, ?_⟩
    dsimp only
    split
    next => exact hdir
    next => exact hdir

end

-- One call

theorem upsertChunks_nodes (rows : List (Nat × List UInt8)) :
    (tables.upsertChunks inode rows).nodes = tables.nodes := rfl

theorem upsertChunks_paths (rows : List (Nat × List UInt8)) :
    (tables.upsertChunks inode rows).paths = tables.paths := rfl

theorem extendChunks_nodes (file : FileRow) (size : Nat) :
    (extendChunks tables file size).nodes = tables.nodes := by
  unfold extendChunks
  split
  next => rfl
  next => exact upsertChunks_nodes _

theorem extendChunks_paths (file : FileRow) (size : Nat) :
    (extendChunks tables file size).paths = tables.paths := by
  unfold extendChunks
  split
  next => rfl
  next => exact upsertChunks_paths _

section

variable (h : OpenFile tables real inode content)

include h

/-- The tables with the chunks of a write, before the node is touched. -/
theorem writeChunks_open {bytes : List UInt8}
    (hbytes : bytes.length ≠ 0) (offset : Nat) (mtime : Int)
    (hsafe : isSafeInteger (offset + bytes.length : Nat) = true) :
    OpenFile (writeChunks tables { inode, size := content.length } bytes offset mtime) real inode
      (Chunked.write 0 content offset bytes) := by
  have hstores := writeChunks_stores h.holds.stores hbytes offset mtime
  have hlength := @Chunked.length_write UInt8 content 0 offset bytes
  refine h.touch mtime ?_ ?_ hstores hlength.symm ?_
  · rw [writeChunkBatches_eq]
    show (if offset > content.length then _ else tables).nodes = _
    split
    next => exact extendChunks_nodes _ _
    next => rfl
  · rw [writeChunkBatches_eq]
    show (if offset > content.length then _ else tables).paths = _
    split
    next => exact extendChunks_paths _ _
    next => rfl
  · rcases Nat.le_total content.length (offset + bytes.length) with hle | hle
    · rw [Nat.max_eq_right hle]
      exact hsafe
    · rw [Nat.max_eq_left hle]
      exact h.size_safe

theorem writeRangeRaw_flat (bytes : List UInt8)
    (offset mtime : Int) :
    ∃ after, runOp path real tables (.write bytes offset mtime) =
        (after, (flatOp content (.write bytes offset mtime)).2) ∧
      OpenFile after real inode (flatOp content (.write bytes offset mtime)).1 := by
  dsimp only [runOp, flatOp]
  rw [writeRangeRaw]
  split
  next => exact ⟨tables, rfl, h⟩
  next hvalid =>
    simp only [Bool.or_eq_true, Bool.not_eq_true', decide_eq_true_eq, not_or,
      Bool.not_eq_false] at hvalid
    obtain ⟨⟨-, hpos⟩, hsafe⟩ := hvalid
    rw [fileAt_eq h.holds, ok_bind]
    by_cases hempty : bytes = []
    · rw [if_pos (List.length_eq_zero_iff.2 hempty), if_pos hempty]
      exact ⟨tables, rfl, h⟩
    have hbytes := mt List.length_eq_zero_iff.1 hempty
    have hcheck : (if offset + bytes.length > (content.length : Int) then
        validateChunkLayout tables { inode, size := content.length } real else pure ()) = .ok () := by
      rw [validateChunkLayout_eq h]
      exact ite_id _
    rw [if_neg hbytes, if_neg hempty, hcheck, ok_bind]
    refine ⟨_, rfl, writeChunks_open h hbytes _ _ ?_⟩
    rw [← hsafe]
    congr 1
    omega

theorem truncateRaw_flat (length mtime : Int) :
    ∃ after, runOp path real tables (.truncate length mtime) =
        (after, (flatOp content (.truncate length mtime)).2) ∧
      OpenFile after real inode (flatOp content (.truncate length mtime)).1 := by
  dsimp only [runOp, flatOp]
  rw [truncateRaw]
  split
  next => exact ⟨tables, rfl, h⟩
  next hvalid =>
    simp only [Bool.or_eq_true, Bool.not_eq_true', decide_eq_true_eq, not_or,
      Bool.not_eq_false] at hvalid
    obtain ⟨hsafe, hpos⟩ := hvalid
    have hlength : (length.toNat : Int) = length := Int.toNat_of_nonneg (Int.not_lt.1 hpos)
    have hresized : isSafeInteger length.toNat = true := hlength.symm ▸ hsafe
    rw [fileAt_eq h.holds, ok_bind]
    dsimp only
    by_cases hcut : length < content.length
    · rw [if_pos hcut]
      exact ⟨_, rfl, h.touch mtime rfl rfl
        (@cutChunks_stores tables.bumpRev inode content h.holds.stores _ (by omega))
        (Chunked.length_resize _).symm hresized⟩
    rw [if_neg hcut]
    by_cases hgrow : length > content.length
    · rw [if_pos hgrow, validateChunkLayout_eq h, ok_bind]
      exact ⟨_, rfl, h.touch mtime (extendChunks_nodes _ _) (extendChunks_paths _ _)
        (@extendChunks_stores tables.bumpRev inode content h.holds.stores _ (by omega))
        (Chunked.length_resize _).symm hresized⟩
    · rw [if_neg hgrow]
      have hsame : resize 0 content length.toNat = content := by
        rw [resize, List.take_of_length_le (by omega), Nat.sub_eq_zero_of_le (by omega),
          List.replicate_zero, List.append_nil]
      exact ⟨_, rfl, h.touch mtime rfl rfl (hsame.symm ▸ h.holds.stores)
        (Chunked.length_resize _).symm hresized⟩

theorem append_flat (chunks : List (List UInt8))
    (mtime : Int) :
    ∃ after, runOp path real tables (.append chunks mtime) =
        (after, (flatOp content (.append chunks mtime)).2) ∧
      OpenFile after real inode (flatOp content (.append chunks mtime)).1 := by
  obtain ⟨hok, hrefused⟩ := @streamChunks_ok tables.bumpRev inode content real h.holds.stores
    h.size_safe chunks
  dsimp only [runOp, flatOp]
  rw [writeFileStream]
  split
  next => exact ⟨tables, rfl, h⟩
  next =>
    rw [requireParent_eq h, ok_bind, existingFile_eq h, ok_bind, openTarget]
    dsimp only
    rw [if_pos rfl, if_pos rfl]
    show ∃ after, transaction tables (chunks.foldlM
      (fun state chunk => streamChunk real inode state.1 state.2 chunk)
        (tables.bumpRev, content.length) >>= _) = _ ∧ _
    by_cases hsafe : isSafeInteger (content.length + chunks.flatten.length : Nat) = true
    · obtain ⟨after, hrun, hstores, hnames⟩ := hok hsafe
      rw [hrun, ok_bind, hsafe]
      refine ⟨_, rfl, h.touch mtime hnames.nodes hnames.paths hstores rfl ?_⟩
      rw [List.length_append]
      exact hsafe
    · rw [Bool.not_eq_true] at hsafe
      obtain ⟨error, hrun, hcode⟩ := hrefused hsafe
      rw [hrun, hsafe]
      refine ⟨tables, ?_, h⟩
      show (tables, Except.error error.code) = _
      rw [hcode]
      rfl

/-- One call answers what it answers on the bytes, and leaves the file with them. -/
theorem runOp_flat (op : FileOp) :
    (runOp path real tables op).2 = (flatOp content op).2 ∧
      OpenFile (runOp path real tables op).1 real inode (flatOp content op).1 := by
  have hanswer : ∀ {result : FsTables × Answer},
      (∃ after, result = (after, (flatOp content op).2) ∧
        OpenFile after real inode (flatOp content op).1) →
      result.2 = (flatOp content op).2 ∧ OpenFile result.1 real inode (flatOp content op).1 := by
    rintro result ⟨after, rfl, hafter⟩
    exact ⟨rfl, hafter⟩
  cases op with
  | write bytes offset mtime => exact hanswer (writeRangeRaw_flat h bytes offset mtime)
  | truncate length mtime => exact hanswer (truncateRaw_flat h length mtime)
  | append chunks mtime => exact hanswer (append_flat h chunks mtime)
  | readRange offset length =>
    refine ⟨?_, h⟩
    dsimp only [runOp, flatOp]
    rw [readRange_eq h.holds]
    rfl
  | readFile =>
    refine ⟨?_, h⟩
    dsimp only [runOp, flatOp]
    rw [readFile_eq h.holds]
    rfl

end

-- A run

/-- Calls on a file answer what the same calls answer on a flat sequence of bytes, and leave the
    file with those bytes in a sound layout. -/
theorem runOps_flat (h : OpenFile tables real inode content) (ops : List FileOp) :
    (runOps (runOp path real) tables ops).2 = (runOps flatOp content ops).2 ∧
      OpenFile (runOps (runOp path real) tables ops).1 real inode (runOps flatOp content ops).1 ∧
      soundLayout (runOps (runOp path real) tables ops).1 inode (runOps flatOp content ops).1.length =
        true := by
  induction ops generalizing tables content with
  | nil => exact ⟨rfl, h, soundLayout_eq h.holds.stores h.size_safe⟩
  | cons op ops ih =>
    obtain ⟨hanswer, hopen⟩ := @runOp_flat tables path real inode content h op
    obtain ⟨hanswers, hrest⟩ := ih hopen
    refine ⟨?_, hrest⟩
    rw [runOps, runOps, hanswer, hanswers]

theorem oneFile_open : OpenFile oneFile (text "/a") 2 [7, 8] where
  holds := ⟨oneFile_stores, fileNode 2, by decide +kernel, rfl, rfl⟩
  inode_pos := by decide
  inode_safe := by decide
  size_safe := by decide
  parent := by
    have hdirname : dirname (text "/a") = text "/" := by decide +kernel
    rw [hdirname]
    exact ⟨(1, directoryNode), by decide +kernel, rfl⟩

theorem oneFile_runOps :
    (runOps (runOp (text "a") (text "/a")) oneFile
      [.write [1] 4 0, .append [[2], []] 0, .truncate 5 0, .readRange 1 9]).2 =
        [.ok [], .ok [], .ok [], .ok [8, 0, 0, 1]] := by
  rw [(runOps_flat oneFile_open _).1]
  decide

end Kompjutr.Fs
