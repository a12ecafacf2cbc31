/-
  Kompjutr.Fs.Tables

  The tables of the store (`fs/schema.ts`): names, nodes, and the chunks of the files.

  A file's bytes stand in chunks of `chunkSize`, the last of which may be shorter
  (`FsTables.Stores`).  Every reader checks a file against the totals of its chunk rows
  (`FsTables.layoutOf`) before it reads them.
-/
import Kompjutr.Fs.Resolve
import Kompjutr.Lib.Chunked
import Kompjutr.Lib.KeyTable

namespace Kompjutr.Fs

open Chunked (count slice)
open Objects (Text text)

/-- `CHUNK_SIZE`. -/
@[irreducible] def chunkSize : Nat := 512 * 1024

/-- `out.set(bytes, at)`, where the bytes fit. -/
def setBytes (position : Nat) (bytes out : List UInt8) : List UInt8 :=
  out.take position ++ bytes ++ out.drop (position + bytes.length)

/-- A row of `fs_nodes`, without its inode. -/
structure FsNode where
  type : NodeType
  mode : Nat
  mtime : Int
  size : Nat
  rev : Nat
  nlink : Nat
  linkTarget : Option Text
  contentId : Option (List UInt8)
  deriving DecidableEq

/-- A row of `fs_paths`, without its path. -/
structure FsPath where
  parent : Text
  inode : Nat
  deriving DecidableEq

/-- The tables, with the two counters of `fs_meta`. -/
structure FsTables where
  rev : Nat
  nextInode : Nat
  nodes : KeyTable Nat FsNode
  paths : KeyTable Text FsPath
  chunks : KeyTable (Nat × Nat) (List UInt8)

/-- `fs_paths p JOIN fs_nodes n ON n.inode = p.inode WHERE p.path = ?`. -/
def FsTables.nodeAt (tables : FsTables) (path : Text) : Option (Nat × FsNode) :=
  (tables.paths.get path).bind fun entry =>
    (tables.nodes.get entry.inode).map fun node => (entry.inode, node)

def FsTables.bumpRev (tables : FsTables) : FsTables := { tables with rev := tables.rev + 1 }

/-- An error of the database; it names no path. -/
def constraintFailed (columns : String) : FsError :=
  { code := "SQLITE_CONSTRAINT", message := text s!"UNIQUE constraint failed: {columns}", path := [] }

/-- The totals of the chunk rows of an inode. -/
structure ChunkLayout where
  chunkCount : Nat
  chunkBytes : Nat
  firstIdx : Option Nat
  lastIdx : Option Nat
  deriving DecidableEq

def FsTables.chunkRows (tables : FsTables) (inode : Nat) : List ((Nat × Nat) × List UInt8) :=
  tables.chunks.rows.filter fun row => row.1.1 = inode

def FsTables.layoutOf (tables : FsTables) (inode : Nat) : ChunkLayout where
  chunkCount := (tables.chunkRows inode).length
  chunkBytes := ((tables.chunkRows inode).map fun row => row.2.length).sum
  firstIdx := ((tables.chunkRows inode).map fun row => row.1.2).min?
  lastIdx := ((tables.chunkRows inode).map fun row => row.1.2).max?

/-- What the readers and the writers ask of the totals of a file of this size. -/
def ChunkLayout.describes (layout : ChunkLayout) (size : Nat) : Bool :=
  layout.chunkCount = count chunkSize size && layout.chunkBytes = size &&
    if count chunkSize size = 0 then layout.firstIdx = none && layout.lastIdx = none
    else layout.firstIdx = some 0 && layout.lastIdx = some (count chunkSize size - 1)

-- What a file holds

/-- The chunk rows of an inode are the chunks of these bytes. -/
def FsTables.Stores (tables : FsTables) (inode : Nat) (content : List UInt8) : Prop :=
  ∀ index, tables.chunks.get (inode, index) =
    if index * chunkSize < content.length then some (slice chunkSize content index) else none

theorem chunkSize_pos : 0 < chunkSize := by
  rw [chunkSize]
  decide

variable {tables : FsTables} {inode : Nat} {content : List UInt8}

/-- The rows of a file, in the order of their chunks. -/
def fileRows (inode : Nat) (content : List UInt8) : List ((Nat × Nat) × List UInt8) :=
  (List.range (count chunkSize content.length)).map fun index =>
    ((inode, index), slice chunkSize content index)

theorem mem_fileRows {row : (Nat × Nat) × List UInt8} :
    row ∈ fileRows inode content ↔ row.1.1 = inode ∧ row.1.2 * chunkSize < content.length ∧
      row.2 = slice chunkSize content row.1.2 := by
  obtain ⟨⟨i, index⟩, bytes⟩ := row
  unfold fileRows
  simp only [List.mem_map, List.mem_range, Chunked.lt_count chunkSize_pos, Prod.mk.injEq]
  constructor
  · rintro ⟨other, hlt, ⟨rfl, rfl⟩, rfl⟩
    exact ⟨rfl, hlt, rfl⟩
  · rintro ⟨rfl, hlt, rfl⟩
    exact ⟨index, hlt, ⟨rfl, rfl⟩, rfl⟩

theorem nodup_fileRows : (fileRows inode content).Nodup := by
  refine List.Nodup.map (fun index other heq => ?_) List.nodup_range
  exact (Prod.mk.inj (Prod.mk.inj heq).1).2

theorem FsTables.Stores.get_iff (h : tables.Stores inode content) {index : Nat}
    {bytes : List UInt8} :
    tables.chunks.get (inode, index) = some bytes ↔
      index * chunkSize < content.length ∧ bytes = slice chunkSize content index := by
  rw [h index]
  split
  next hlt => rw [Option.some.injEq, eq_comm, and_iff_right hlt]
  next hge => exact iff_of_false (fun hsome => nomatch hsome) fun hand => hge hand.1

theorem FsTables.Stores.chunkRows_perm (h : tables.Stores inode content) :
    (tables.chunkRows inode).Perm (fileRows inode content) := by
  refine KeyTable.rows_perm nodup_fileRows fun row => ?_
  obtain ⟨⟨i, index⟩, bytes⟩ := row
  rw [mem_fileRows, decide_eq_true_iff]
  dsimp only
  constructor
  · rintro ⟨rfl, hrow⟩
    exact ⟨h.get_iff.2 hrow, rfl⟩
  · rintro ⟨hget, rfl⟩
    exact ⟨rfl, h.get_iff.1 hget⟩

/-- The totals of a file are those that are asked for. -/
theorem FsTables.Stores.describes (h : tables.Stores inode content) :
    (tables.layoutOf inode).describes content.length = true := by
  have hperm := h.chunkRows_perm
  have hcount : (tables.layoutOf inode).chunkCount = count chunkSize content.length := by
    rw [layoutOf, hperm.length_eq, fileRows, List.length_map, List.length_range]
  have hbytes : (tables.layoutOf inode).chunkBytes = content.length := by
    rw [layoutOf, (hperm.map _).sum_nat, fileRows, List.map_map]
    exact Chunked.sum_lengths chunkSize_pos
  have hindices : ∀ index, index ∈ (tables.chunkRows inode).map (fun row => row.1.2) ↔
      index < count chunkSize content.length := by
    intro index
    rw [(hperm.map _).mem_iff, fileRows, List.map_map]
    simp
  unfold ChunkLayout.describes
  rw [hcount, hbytes, decide_eq_true rfl, decide_eq_true rfl, Bool.true_and, Bool.true_and]
  split
  next hzero =>
    have hempty : (tables.chunkRows inode).map (fun row => row.1.2) = [] := by
      refine List.eq_nil_iff_forall_not_mem.2 fun index hindex => ?_
      have hlt := (hindices index).1 hindex
      omega
    simp [layoutOf, hempty]
  next hpos =>
    have hfirst : (tables.layoutOf inode).firstIdx = some 0 :=
      List.min?_eq_some_iff.2 ⟨(hindices 0).2 (by omega), fun other _ => Nat.zero_le other⟩
    have hlast : (tables.layoutOf inode).lastIdx = some (count chunkSize content.length - 1) := by
      refine List.max?_eq_some_iff.2 ⟨(hindices _).2 (by omega), fun other hother => ?_⟩
      have hlt := (hindices other).1 hother
      omega
    rw [hfirst, hlast, decide_eq_true rfl, decide_eq_true rfl, Bool.true_and]

/-- A path names a regular file with these bytes. -/
structure FsTables.Holds (tables : FsTables) (path : Text) (inode : Nat) (content : List UInt8) :
    Prop where
  stores : tables.Stores inode content
  node : ∃ node, tables.nodeAt path = some (inode, node) ∧ node.type = .file ∧
    node.size = content.length

end Kompjutr.Fs
