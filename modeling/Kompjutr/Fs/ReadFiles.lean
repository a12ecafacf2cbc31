/-
  Kompjutr.Fs.ReadFiles

  Reading files (`fs/store/read.ts`): one file by pages of its chunks, several files in one
  statement, and a list of paths under a byte budget.

  The rows that a page may carry are bounded, so a file is put together from the pages of its
  chunks.  The query for several files resumes behind the last key that it saw.
-/
import Mathlib.Data.List.Pairwise
import Kompjutr.Fs.PathOrder
import Kompjutr.Fs.Tables
import Kompjutr.Lib.Keyset
import Kompjutr.Lib.SortBy
import Mathlib.Data.Prod.Lex

namespace Kompjutr.Fs

open Chunked (count)
open Objects (Text text)

variable {place : Nat → List UInt8 → List UInt8 → List UInt8} {after : Option (Nat × Nat)}
  {inodes : List Nat}

/-- An `Error` of the readers, with its code. -/
structure ReadError where
  code : String
  message : Text
  deriving DecidableEq

def corruptChunks (inode : Nat) (detail : String) : ReadError :=
  { code := "EIO", message := text s!"EIO: corrupt chunks for inode {inode}: {detail}" }

/-- `DEFAULT_READ_BUDGET`. -/
def defaultReadBudget : Nat := 1500000

-- Lookups

/-- A row of the lookups: a node, with the totals of its chunks. -/
structure LookupRow where
  inode : Nat
  type : NodeType
  size : Nat
  layout : ChunkLayout
  deriving DecidableEq

/-- `LOOKUP_ONE_SQL`, and the row that `LOOKUP_MANY_SQL` has for a path of its list. -/
def lookupRow (tables : FsTables) (path : Text) : Option LookupRow :=
  (tables.nodeAt path).map fun found =>
    { inode := found.1, type := found.2.type, size := found.2.size
      layout := tables.layoutOf found.1 }

/-- An inode to assemble, and the length its node says it has. -/
structure Target where
  inode : Nat
  size : Nat
  deriving DecidableEq

def expectedChunkLength (size index : Nat) : Int := min (chunkSize : Int) (size - index * chunkSize)

def validatedTarget (row : LookupRow) : Except ReadError Target :=
  if !row.layout.describes row.size then
    throw (corruptChunks row.inode "metadata does not describe contiguous file content")
  else pure { inode := row.inode, size := row.size }

/-- The rows that one chunk statement may carry. -/
def rowLimitFor (targets : List Target) (budget : Nat) : Nat :=
  if (targets.map Target.size).sum ≤ budget then
    max 1 (targets.map fun target => count chunkSize target.size).sum
  else max 1 (budget / chunkSize)

-- One file

/-- `CHUNK_RANGE_SQL`: the chunks from one index up to another, in order. -/
def chunkRange (tables : FsTables) (inode next stop limit : Nat) : List (Nat × List UInt8) :=
  ((((tables.chunkRows inode).filter fun row => next ≤ row.1.2 && row.1.2 < stop).map fun row =>
    (row.1.2, row.2.take (chunkSize + 1))).mergeSort fun left right => left.1 ≤ right.1).take limit

/-- Where the bytes of a chunk go, and the index that is wanted next. -/
structure RangeState where
  next : Nat
  out : List UInt8
  deriving DecidableEq

/-- One row of a page; `place` puts the bytes of a chunk where they belong. -/
def readRow (target : Target) (place : Nat → List UInt8 → List UInt8 → List UInt8)
    (state : RangeState) (row : Nat × List UInt8) : Except ReadError RangeState :=
  if row.1 ≠ state.next then throw (corruptChunks target.inode s!"missing chunk {state.next}")
  else if (row.2.length : Int) ≠ expectedChunkLength target.size row.1 then
    throw (corruptChunks target.inode s!"invalid chunk {row.1} size")
  else pure { next := row.1 + 1, out := place row.1 row.2 state.out }

variable {target : Target} {state : RangeState}

theorem readRow_next {after : RangeState} {row : Nat × List UInt8}
    (h : readRow target place state row = .ok after) : after.next = state.next + 1 := by
  unfold readRow at h
  split at h
  · cases h
  next hnext =>
    split at h
    · cases h
    · rw [← Except.ok.inj h, not_not.1 hnext]

theorem readRows_next {rows : List (Nat × List UInt8)} {after : RangeState}
    (h : rows.foldlM (readRow target place) state = .ok after) :
    after.next = state.next + rows.length := by
  induction rows generalizing state with
  | nil => rw [← Except.ok.inj h, List.length_nil, Nat.add_zero]
  | cons row rows ih =>
    rw [List.foldlM_cons] at h
    cases hrow : readRow target place state row with
    | error e =>
      rw [hrow] at h
      cases h
    | ok middle =>
      rw [hrow] at h
      rw [ih h, readRow_next hrow, List.length_cons]
      omega

/-- The pages of the chunks up to an index. -/
def readPages (tables : FsTables) (target : Target) (stop limit : Nat)
    (place : Nat → List UInt8 → List UInt8 → List UInt8) (state : RangeState) :
    Except ReadError RangeState :=
  if state.next < stop then
    match chunkRange tables target.inode state.next stop limit with
    | [] => .ok state
    | row :: rows =>
      match _hrows : (row :: rows).foldlM (readRow target place) state with
      | .error error => .error error
      | .ok after => readPages tables target stop limit place after
  else .ok state
termination_by stop - state.next
decreasing_by
  have hnext := readRows_next _hrows
  rw [List.length_cons] at hnext
  omega

def readOne (tables : FsTables) (target : Target) (rowLimit : Nat) :
    Except ReadError (List UInt8) :=
  if target.size = 0 then pure []
  else
    readPages tables target (count chunkSize target.size) rowLimit
      (fun index => setBytes (index * chunkSize))
      { next := 0, out := List.replicate target.size 0 } >>= fun state =>
    if state.next ≠ count chunkSize target.size then
      throw (corruptChunks target.inode s!"missing chunk {state.next}")
    else pure state.out

-- Several files

/-- What `buffers`, `filled`, `nextIndex` and `targetsByInode` hold for an inode. -/
structure Slot where
  size : Nat
  buffer : List UInt8
  filled : Nat
  nextIndex : Nat
  deriving DecidableEq

structure Assembly where
  slots : KeyTable Nat Slot
  outstanding : Nat

def Assembly.start : Assembly :=
  { slots := { rows := [], unique := List.nodup_nil }, outstanding := 0 }

def Assembly.addTarget (assembly : Assembly) (target : Target) : Assembly where
  slots := assembly.slots.upsert target.inode
    { size := target.size, buffer := List.replicate target.size 0, filled := 0, nextIndex := 0 }
  outstanding := assembly.outstanding + if 0 < target.size then 1 else 0

abbrev ChunkRow := (Nat × Nat) × List UInt8

/-- The chunks of some inodes, in the order of their primary key. -/
def sortedChunks (tables : FsTables) (inodes : List Nat) : List ChunkRow :=
  ((tables.chunks.rows.filter fun row => row.1.1 ∈ inodes).map fun row =>
    (row.1, row.2.take (chunkSize + 1))).mergeSort fun left right => toLex left.1 ≤ toLex right.1

/-- `CHUNK_PAGE_SQL`, without its limit. -/
def chunksBehind (tables : FsTables) (inodes : List Nat) (after : Option (Nat × Nat)) :
    List ChunkRow :=
  (sortedChunks tables inodes).filter fun row => after.all fun key => toLex key < toLex row.1

theorem sortedChunks_pairwise (tables : FsTables) (inodes : List Nat) :
    (sortedChunks tables inodes).Pairwise fun row other => toLex row.1 < toLex other.1 := by
  have hkeys : ((sortedChunks tables inodes).map Prod.fst).Nodup := by
    rw [sortedChunks, ((List.mergeSort_perm _ _).map Prod.fst).nodup_iff, List.map_map]
    exact tables.chunks.unique.sublist (List.filter_sublist.map Prod.fst)
  have hle : (sortedChunks tables inodes).Pairwise fun row other => toLex row.1 ≤ toLex other.1 :=
    @SortBy.pairwise_mergeSort ChunkRow _ _ (fun row => toLex row.1) _ (by simp) _
  refine (hle.and (List.pairwise_map.1 hkeys)).imp fun hpair => ?_
  exact lt_of_le_of_ne hpair.1 fun heq => hpair.2 (toLex.injective heq)

variable {last : ChunkRow}

/-- Behind a row that is behind another stand the rows behind both. -/
theorem chunksBehind_some {tables : FsTables} (h : last ∈ chunksBehind tables inodes after) :
    chunksBehind tables inodes (some last.1) =
      (chunksBehind tables inodes after).filter fun row => toLex last.1 < toLex row.1 := by
  unfold chunksBehind
  rw [List.filter_filter]
  refine List.filter_congr fun row hrow => ?_
  rw [chunksBehind, List.mem_filter] at h
  cases after with
  | none => simp
  | some key =>
    have hlast : toLex key < toLex last.1 := by simpa using h.2
    by_cases hbehind : toLex last.1 < toLex row.1
    · simp [hbehind, hlast.trans hbehind]
    · simp [hbehind]

theorem chunksBehind_pairwise (tables : FsTables) (inodes : List Nat) (after : Option (Nat × Nat)) :
    (chunksBehind tables inodes after).Pairwise fun row other => toLex row.1 < toLex other.1 :=
  (sortedChunks_pairwise tables inodes).filter _

theorem length_chunksBehind_lt {tables : FsTables} {limit : Nat}
    (h : ((chunksBehind tables inodes after).take limit).getLast? = some last) :
    (chunksBehind tables inodes (some last.1)).length < (chunksBehind tables inodes after).length := by
  rw [chunksBehind_some (List.mem_of_mem_take (List.mem_of_getLast? h))]
  exact Keyset.length_behind_lt (fun _ _ => lt_asymm) (chunksBehind_pairwise tables inodes after) h

/-- One row of a page. -/
def assembleRow (assembly : Assembly) (row : ChunkRow) : Except ReadError Assembly :=
  match assembly.slots.get row.1.1 with
  | none => pure assembly
  | some slot =>
    if row.1.2 ≠ slot.nextIndex then
      throw (corruptChunks row.1.1 s!"missing chunk {slot.nextIndex}")
    else if (row.2.length : Int) ≠ expectedChunkLength slot.size row.1.2 then
      throw (corruptChunks row.1.1 s!"invalid chunk {row.1.2} size")
    else
      let after := slot.filled + row.2.length
      pure
        { slots := assembly.slots.upsert row.1.1
            { size := slot.size, buffer := setBytes (row.1.2 * chunkSize) row.2 slot.buffer
              filled := after, nextIndex := slot.nextIndex + 1 }
          outstanding := if slot.filled < slot.buffer.length && slot.buffer.length ≤ after then
            assembly.outstanding - 1 else assembly.outstanding }

/-- The pages of the loop, and the last inode that they saw. -/
def assemblePages (tables : FsTables) (inodes : List Nat) (limit : Nat)
    (after : Option (Nat × Nat)) (assembly : Assembly) :
    Except ReadError (Option (Nat × Nat) × Assembly) :=
  if assembly.outstanding = 0 then .ok (after, assembly)
  else
    match _hlast : ((chunksBehind tables inodes after).take limit).getLast? with
    | none => .ok (after, assembly)
    | some last =>
      match ((chunksBehind tables inodes after).take limit).foldlM assembleRow assembly with
      | .error error => .error error
      | .ok assembled =>
        if ((chunksBehind tables inodes after).take limit).length < limit then
          .ok (some last.1, assembled)
        else assemblePages tables inodes limit (some last.1) assembled
termination_by (chunksBehind tables inodes after).length
decreasing_by exact length_chunksBehind_lt (by assumption)

/-- Assemble every target from the chunks; what the map holds for an inode. -/
def readTargets (tables : FsTables) (targets : List Target) (rowLimit : Nat) :
    Except ReadError (Nat → Option (List UInt8)) :=
  match targets with
  | [only] =>
    readOne tables only rowLimit >>= fun bytes =>
    pure fun inode => if inode = only.inode then some bytes else none
  | targets =>
    assemblePages tables (targets.map Target.inode) rowLimit none
      (targets.foldl Assembly.addTarget Assembly.start) >>= fun reached =>
    if 0 < reached.2.outstanding then
      throw (corruptChunks ((reached.1.map Prod.fst).getD 0)
        "file content ended before its recorded size")
    else pure fun inode => (reached.2.slots.get inode).map Slot.buffer

-- One path

def readEnoent (path : Text) : ReadError :=
  { code := "ENOENT", message := text "ENOENT: no such file or directory, '" ++ path ++ text "'" }

def readEisdir (path : Text) : ReadError :=
  { code := "EISDIR"
    message := text "EISDIR: illegal operation on a directory, '" ++ path ++ text "'" }

def lookupFile (tables : FsTables) (path real : Text) : Except ReadError Target :=
  match lookupRow tables real with
  | none => throw (readEnoent path)
  | some row =>
    if row.type = .dir then throw (readEisdir path)
    else if row.type ≠ .file then throw (readEnoent path)
    else validatedTarget row

/-- The whole file; `real` is where the path resolves to. -/
def readFile (tables : FsTables) (path real : Text) : Except ReadError (List UInt8) :=
  lookupFile tables path real >>= fun target =>
  readTargets tables [target] (rowLimitFor [target] defaultReadBudget) >>= fun contents =>
  pure ((contents target.inode).getD [])

/-- The part of a chunk that lies between two offsets goes where it belongs between them. -/
def placeRange (start stop index : Nat) (bytes out : List UInt8) : List UInt8 :=
  let chunkStart := index * chunkSize
  let first := max start chunkStart
  let last := min stop (chunkStart + bytes.length)
  if last > first then
    setBytes (first - start) ((bytes.take (last - chunkStart)).drop (first - chunkStart)) out
  else out

/-- Up to `length` bytes at `offset`; short only at the end of the file. -/
def readRange (tables : FsTables) (path real : Text) (offset length : Int) :
    Except ReadError (List UInt8) :=
  lookupFile tables path real >>= fun target =>
  let start := offset.toNat
  let stop := min target.size (start + length.toNat)
  if stop ≤ start then pure []
  else
    let lastIdx := (stop - 1) / chunkSize
    readPages tables target (lastIdx + 1) (max 1 (defaultReadBudget / chunkSize))
      (placeRange start stop)
      { next := start / chunkSize, out := List.replicate (stop - start) 0 } >>= fun state =>
    if state.next ≠ lastIdx + 1 then
      throw (corruptChunks target.inode s!"missing chunk {state.next}")
    else pure state.out

-- A list of paths

structure ReadOptions where
  budget : Option Nat
  maxBytes : Option Nat
  deferOversized : Bool
  deriving DecidableEq

structure ReadBatch where
  files : List (Text × List UInt8)
  remaining : List Text
  deriving DecidableEq

/-- A key that a `Map` or a `Set` gets; one that stands already keeps its place. -/
def insertNew (keys : List Text) (key : Text) : List Text :=
  if key ∈ keys then keys else keys ++ [key]

/-- The canonical paths, each where it is asked for first. -/
def canonicalOrder (paths : List Text) : List Text := (paths.map normalize).foldl insertNew []

/-- The strings that ask for a canonical path. -/
def callersOf (paths : List Text) (real : Text) : List Text :=
  paths.filter fun path => normalize path = real

/-- `files.set(caller, bytes)`. -/
def setFile (bytes : List UInt8) (files : List (Text × List UInt8)) (caller : Text) :
    List (Text × List UInt8) :=
  if caller ∈ files.map Prod.fst then
    files.map fun file => if file.1 = caller then (caller, bytes) else file
  else files ++ [(caller, bytes)]

/-- A path whose contents are read next. -/
structure Planned where
  real : Text
  target : Target
  deriving DecidableEq

def deliver (paths : List Text) (planned : List Planned) (contents : Nat → Option (List UInt8))
    (files : List (Text × List UInt8)) : List (Text × List UInt8) :=
  planned.foldl (fun files entry =>
    match contents entry.target.inode with
    | none => files
    | some bytes => (callersOf paths entry.real).foldl (setFile bytes) files) files

structure ReadState where
  files : List (Text × List UInt8)
  pending : List Planned
  pendingBytes : Nat
  selectedBytes : Nat
  deriving DecidableEq

section Reading

variable (tables : FsTables) (paths : List Text) (budget : Nat)

def deliverTargets (planned : List Planned) (files : List (Text × List UInt8)) :
    Except ReadError (List (Text × List UInt8)) :=
  readTargets tables (planned.map Planned.target)
    (rowLimitFor (planned.map Planned.target) budget) >>= fun contents =>
  pure (deliver paths planned contents files)

def flushPending (state : ReadState) : Except ReadError ReadState :=
  if state.pending = [] then pure state
  else
    deliverTargets tables paths budget state.pending state.files >>= fun files =>
    pure { state with files, pending := [], pendingBytes := 0 }

/-- The loop over the canonical paths, and those it stopped before. -/
def selectFiles (maxBytes : Nat) (deferOversized : Bool) :
    List Text → ReadState → Except ReadError (ReadState × List Text)
  | [], state => pure (state, [])
  | real :: rest, state =>
    match lookupRow tables real with
    | none => selectFiles maxBytes deferOversized rest state
    | some row =>
      if row.type ≠ .file then selectFiles maxBytes deferOversized rest state
      else
        validatedTarget row >>= fun target =>
        if state.selectedBytes + target.size > maxBytes then
          flushPending tables paths budget state >>= fun state => pure (state, real :: rest)
        else if target.size > budget then
          if deferOversized then
            flushPending tables paths budget state >>= fun state => pure (state, real :: rest)
          else if state.files ≠ [] || state.pending ≠ [] then pure (state, real :: rest)
          else
            deliverTargets tables paths budget [{ real, target }] state.files >>= fun files =>
            selectFiles maxBytes deferOversized rest
              { state with files, selectedBytes := state.selectedBytes + target.size }
        else
          (if state.pendingBytes + target.size > budget then flushPending tables paths budget state
            else pure state) >>= fun state =>
          selectFiles maxBytes deferOversized rest
            { state with
              pending := state.pending ++ [{ real, target }]
              pendingBytes := state.pendingBytes + target.size
              selectedBytes := state.selectedBytes + target.size }

end Reading

/-- Several files in one round trip, under a byte budget. -/
def readFiles (tables : FsTables) (paths : List Text) (options : ReadOptions) :
    Except ReadError ReadBatch :=
  let budget := options.budget.getD defaultReadBudget
  let maxBytes := options.maxBytes.getD maxSafeInteger.toNat
  if budget = 0 then
    throw { code := "Error", message := text "readFiles: budget must be positive" }
  else if (maxBytes : Int) > maxSafeInteger || maxBytes < 1 then
    throw { code := "Error", message := text "readFiles: maxBytes must be a positive safe integer" }
  else
    selectFiles tables paths budget maxBytes options.deferOversized (canonicalOrder paths)
      { files := [], pending := [], pendingBytes := 0, selectedBytes := 0 } >>= fun reached =>
    flushPending tables paths budget reached.1 >>= fun state =>
    pure { files := state.files, remaining := reached.2.flatMap (callersOf paths) }

end Kompjutr.Fs
