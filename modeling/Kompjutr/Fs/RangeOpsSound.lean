/-
  Kompjutr.Fs.RangeOpsSound

  What the writers leave in the chunks of a file, as one flat sequence of bytes
  (`writeChunks_stores`, `truncate_stores`, `extendChunks_stores`).

  Each statement is followed chunk by chunk: a chunk that it stores is the chunk of the new
  sequence at that index, by its length and its bytes (`Chunked.eq_slice`), and one that it leaves
  alone is the same chunk of both sequences.
-/
import Kompjutr.Fs.RangeOps

namespace Kompjutr.Fs

open Chunked (count slice resize)
open Objects (Text text)

variable {grown chunk final : List UInt8} {position c : Nat}

variable {index offset : Nat} {bytes : List UInt8}

variable {tables : FsTables} {inode : Nat} {content : List UInt8}

-- Statements over several chunks

theorem upsertChunks_cons (row : Nat × List UInt8) (rows : List (Nat × List UInt8)) :
    tables.upsertChunks inode (row :: rows) =
      (tables.upsertChunks inode [row]).upsertChunks inode rows := rfl

theorem upsertChunks_append (rows more : List (Nat × List UInt8)) :
    tables.upsertChunks inode (rows ++ more) =
      (tables.upsertChunks inode rows).upsertChunks inode more := by
  unfold FsTables.upsertChunks
  rw [List.foldl_append]

theorem get_upsertChunks (f : Nat → List UInt8) (indices : List Nat) (other index : Nat) :
    (tables.upsertChunks inode (indices.map fun i => (i, f i))).chunks.get (other, index) =
      if other = inode ∧ index ∈ indices then some (f index)
      else tables.chunks.get (other, index) := by
  induction indices generalizing tables with
  | nil => rw [if_neg fun hand => List.not_mem_nil hand.2]; rfl
  | cons i indices ih =>
    have hone : (tables.upsertChunks inode [(i, f i)]).chunks.get (other, index) =
        if (other, index) = (inode, i) then some (f i) else tables.chunks.get (other, index) :=
      KeyTable.get_upsert
    rw [List.map_cons, upsertChunks_cons, ih, hone]
    by_cases hother : other = inode
    · by_cases hmem : index ∈ indices
      · rw [if_pos ⟨hother, hmem⟩, if_pos ⟨hother, List.mem_cons_of_mem _ hmem⟩]
      · rw [if_neg fun hand => hmem hand.2]
        by_cases hindex : index = i
        · rw [if_pos (by rw [hother, hindex]), if_pos ⟨hother, hindex ▸ List.mem_cons_self⟩, hindex]
        · rw [if_neg fun heq => hindex (Prod.mk.inj heq).2,
            if_neg fun hand => (List.mem_cons.1 hand.2).elim hindex hmem]
    · rw [if_neg fun hand => hother hand.1, if_neg fun heq => hother (Prod.mk.inj heq).1,
        if_neg fun hand => hother hand.1]

theorem cutRows_eq (front : List UInt8) (rows : List (Nat × List UInt8)) :
    cutRows (front ++ rows.flatMap Prod.snd) front.length rows = rows := by
  induction rows generalizing front with
  | nil => rfl
  | cons row rows ih =>
    have hrest := ih (front ++ row.2)
    rw [List.append_assoc, List.length_append] at hrest
    rw [cutRows, List.flatMap_cons, List.drop_left, List.take_left, hrest]

/-- The batches are one statement after another, whatever each holds. -/
theorem writeChunkBatches_eq (writes : List (Nat × List UInt8)) :
    writeChunkBatches tables inode writes = tables.upsertChunks inode writes := by
  have hbatch : ∀ (tables : FsTables) batch, upsertBatch tables inode batch =
      tables.upsertChunks inode batch :=
    fun tables batch => congrArg _ (cutRows_eq [] batch)
  induction hn : writes.length using Nat.strongRecOn generalizing writes tables with
  | ind n ih =>
    subst hn
    cases writes with
    | nil => rw [writeChunkBatches]; rfl
    | cons row rows =>
      have hall := nextBatch_append row.2.length rows
      have hlength := congrArg List.length hall
      rw [List.length_append] at hlength
      rw [writeChunkBatches, hbatch, ih _ (by rw [List.length_cons]; omega) _ rfl,
        ← upsertChunks_append, List.cons_append, hall]

-- Growing

/-- Two sequences that agree on the bytes of a chunk agree on the chunk, and on whether it stands. -/
theorem chunk_congr
    (h : ∀ j < chunkSize, content[index * chunkSize + j]? = grown[index * chunkSize + j]?) :
    slice chunkSize content index = slice chunkSize grown index ∧
      (index * chunkSize < content.length ↔ index * chunkSize < grown.length) := by
  constructor
  · refine List.ext_getElem? fun j => ?_
    rw [Chunked.slice_getElem?, Chunked.slice_getElem?]
    split
    next hj => exact h j hj
    next => rfl
  · have hfirst := h 0 chunkSize_pos
    rw [Nat.add_zero] at hfirst
    rw [← not_iff_not, Nat.not_lt, Nat.not_lt, ← List.getElem?_eq_none_iff, hfirst,
      List.getElem?_eq_none_iff]

/-- Some chunks hold new bytes, and the others stay the same. -/
theorem stores_of_get {after : FsTables} {grown : List UInt8} {New : Nat → Prop} [DecidablePred New]
    {f : Nat → List UInt8} (h : tables.Stores inode content)
    (hget : ∀ index, after.chunks.get (inode, index) =
      if New index then some (f index) else tables.chunks.get (inode, index))
    (hstored : ∀ index, New index → index * chunkSize < grown.length ∧
      f index = slice chunkSize grown index)
    (hkept : ∀ index, ¬ New index → ∀ j < chunkSize,
      content[index * chunkSize + j]? = grown[index * chunkSize + j]?) :
    after.Stores inode grown := by
  intro index
  rw [hget]
  split
  next hnew =>
    obtain ⟨hlt, heq⟩ := hstored index hnew
    rw [if_pos hlt, heq]
  next hold =>
    obtain ⟨heq, hiff⟩ := chunk_congr (hkept index hold)
    rw [h index, heq]
    exact if_congr hiff rfl rfl

/-- A statement that stores some chunks of new bytes. -/
theorem upsert_stores {indices : List Nat} {f : Nat → List UInt8} (h : tables.Stores inode content)
    (hstored : ∀ index ∈ indices, index * chunkSize < grown.length ∧
      f index = slice chunkSize grown index)
    (hkept : ∀ index, index ∉ indices → ∀ j < chunkSize,
      content[index * chunkSize + j]? = grown[index * chunkSize + j]?) :
    (tables.upsertChunks inode (indices.map fun index => (index, f index))).Stores inode grown := by
  refine stores_of_get h (fun index => ?_) hstored hkept
  rw [get_upsertChunks]
  exact if_congr (and_iff_right rfl) rfl rfl

theorem stored_getD (h : tables.Stores inode content) (index : Nat) :
    (tables.chunks.get (inode, index)).getD [] = slice chunkSize content index := by
  rw [h index]
  split
  next => rw [Option.getD_some]
  next hge =>
    rw [Option.getD_none, slice, List.drop_of_length_le (Nat.le_of_not_lt hge), List.take_nil]

theorem extendedChunk_eq (h : tables.Stores inode content) {newSize : Nat}
    (hle : content.length ≤ newSize) :
    extendedChunk tables inode newSize index = slice chunkSize (resize 0 content newSize) index := by
  unfold extendedChunk
  dsimp only
  rw [stored_getD h]
  exact Chunked.resize_slice hle

theorem extendChunks_stores (h : tables.Stores inode content) {newSize : Nat}
    (hlt : content.length < newSize) :
    (extendChunks tables { inode, size := content.length } newSize).Stores inode
      (resize 0 content newSize) := by
  have hdiv : content.length / chunkSize * chunkSize ≤ content.length := Nat.div_mul_le_self _ _
  have hindices : ∀ index, index ∈ (List.range' (content.length / chunkSize)
      (count chunkSize newSize - 1 + 1 - content.length / chunkSize)).filter (fun idx =>
        0 < min chunkSize (newSize - idx * chunkSize)) ↔
          content.length / chunkSize ≤ index ∧ index * chunkSize < newSize := by
    intro index
    have hcount := @Chunked.lt_count chunkSize chunkSize_pos newSize index
    have hpos := chunkSize_pos
    rw [List.mem_filter, List.mem_range'_1, decide_eq_true_iff]
    omega
  unfold extendChunks
  dsimp only
  rw [if_neg (by omega)]
  refine upsert_stores h (fun index hindex => ?_) fun index hindex j hj => ?_
  · rw [Chunked.length_resize]
    exact ⟨((hindices index).1 hindex).2, extendedChunk_eq h (by omega)⟩
  · rw [hindices, not_and_or] at hindex
    rw [Chunked.resize_getElem?]
    obtain hbelow | habove := hindex
    · have hmul : (index + 1) * chunkSize ≤ content.length / chunkSize * chunkSize :=
        Nat.mul_le_mul_right _ (by omega)
      rw [Nat.succ_mul] at hmul
      rw [if_pos (by omega), if_pos (by omega)]
    · rw [if_neg (by omega), List.getElem?_eq_none (by omega)]

-- Writing

theorem length_setBytes
    (h : position + bytes.length ≤ chunk.length) : (setBytes position bytes chunk).length = chunk.length := by
  rw [setBytes, List.length_append, List.length_append, List.length_take, List.length_drop]
  omega

theorem setBytes_getElem? (h : position + bytes.length ≤ chunk.length) (j : Nat) :
    (setBytes position bytes chunk)[j]? =
      if position ≤ j ∧ j < position + bytes.length then bytes[j - position]? else chunk[j]? := by
  have hfront : (chunk.take position).length = position := by
    rw [List.length_take]
    omega
  rw [setBytes, List.getElem?_append, List.length_append, hfront, List.getElem?_append, hfront,
    List.getElem?_take, List.getElem?_drop]
  by_cases hlow : j < position
  · rw [if_pos (by omega), if_pos hlow, if_pos hlow, if_neg (by omega)]
  · by_cases hhigh : j < position + bytes.length
    · rw [if_pos hhigh, if_neg hlow, if_pos ⟨by omega, hhigh⟩]
    · rw [if_neg hhigh, if_neg (by omega)]
      congr 1
      omega

/-- Written elements over a chunk that holds the others are the chunk of all of them. -/
theorem setBytes_window {seed : List UInt8} (hlength : offset + bytes.length ≤ final.length)
    (hwritten : ∀ a, offset ≤ a → a < offset + bytes.length → final[a]? = bytes[a - offset]?)
    (hstart : offset < index * c + c) (hstop : index * c < offset + bytes.length)
    (hseedLength : seed.length = min c (final.length - index * c))
    (hseed : ∀ j < seed.length,
      index * c + j < offset ∨ offset + bytes.length ≤ index * c + j →
        seed[j]? = final[index * c + j]?) :
    setBytes (max offset (index * c) - index * c) (Chunked.window c offset index bytes) seed =
      slice c final index := by
  have hwindow := @Chunked.length_window UInt8 c bytes offset index
  have hfits : max offset (index * c) - index * c + (Chunked.window c offset index bytes).length ≤
      seed.length := by
    omega
  apply Chunked.eq_slice
  · rw [length_setBytes hfits, hseedLength]
  · intro j hj
    rw [length_setBytes hfits] at hj
    rw [setBytes_getElem? hfits, hwindow]
    split
    next hinside =>
      rw [Chunked.window_getElem? hwritten (by omega)]
      congr 1
      omega
    next houtside => exact hseed j hj (by omega)

theorem seededChunk_some {stored : List UInt8} {n : Nat} (h : stored.length ≤ n) :
    (seededChunk (some stored) n).length = n ∧ ∀ j < n, (seededChunk (some stored) n)[j]? =
      if j < stored.length then stored[j]? else some 0 := by
  have hfits : 0 + (stored.take n).length ≤ (List.replicate n (0 : UInt8)).length := by
    rw [List.length_take, List.length_replicate]
    omega
  refine ⟨by rw [seededChunk, length_setBytes hfits, List.length_replicate], fun j hj => ?_⟩
  rw [seededChunk, setBytes_getElem? hfits, List.length_take]
  by_cases hlt : j < stored.length
  · rw [if_pos ⟨Nat.zero_le _, by omega⟩, Nat.sub_zero, List.getElem?_take, if_pos hj, if_pos hlt]
  · rw [if_neg (fun hand => by omega), List.getElem?_replicate, if_pos hj, if_neg hlt]

/-- The chunk that a write starts from holds what is stored, and zeros behind it. -/
theorem seededChunk_eq (h : tables.Stores inode content) {index n : Nat}
    (hn : min chunkSize (content.length - index * chunkSize) ≤ n) (hle : n ≤ chunkSize) :
    (seededChunk (tables.chunks.get (inode, index)) n).length = n ∧
      ∀ j < n, (seededChunk (tables.chunks.get (inode, index)) n)[j]? =
        if index * chunkSize + j < content.length then content[index * chunkSize + j]? else some 0 := by
  have hlength := @Chunked.length_slice UInt8 chunkSize content index
  rw [h index]
  split
  next hstored =>
    obtain ⟨htotal, hbytes⟩ := seededChunk_some (hlength.trans_le hn)
    refine ⟨htotal, fun j hj => ?_⟩
    rw [hbytes j hj, hlength, Chunked.slice_getElem?, if_pos (Nat.lt_of_lt_of_le hj hle)]
    refine if_congr ?_ rfl rfl
    generalize chunkSize = c at *
    omega
  next hnone =>
    refine ⟨List.length_replicate, fun j hj => ?_⟩
    rw [seededChunk, List.getElem?_replicate, if_pos hj,
      if_neg fun hlt => hnone (Nat.lt_of_le_of_lt (Nat.le_add_right _ _) hlt)]

/-- A chunk that a write does not cover starts or ends in it. -/
theorem boundary_of_part {stop : Nat} (hstart : offset < index * c + c) (hstop : index * c < stop)
    (hpart : ¬ (max offset (index * c) = index * c ∧ min stop (index * c + c) = index * c + c)) :
    (offset % c ≠ 0 ∧ index = offset / c) ∨ (stop % c ≠ 0 ∧ index = (stop - 1) / c) := by
  by_cases hfirst : index * c < offset
  · left
    have hindex : offset / c = index :=
      Nat.div_eq_of_lt_le (by omega) (by rw [Nat.succ_mul]; omega)
    have hmod := Nat.div_add_mod' offset c
    rw [hindex] at hmod
    exact ⟨by omega, hindex.symm⟩
  · right
    have hindex : (stop - 1) / c = index :=
      Nat.div_eq_of_lt_le (by omega) (by rw [Nat.succ_mul]; omega)
    have hindex' : stop / c = index :=
      Nat.div_eq_of_lt_le (by omega) (by rw [Nat.succ_mul]; omega)
    have hmod := Nat.div_add_mod' stop c
    rw [hindex'] at hmod
    exact ⟨by omega, hindex.symm⟩

/-- A chunk of a write is the chunk of what the file then holds. -/
theorem plannedChunk_eq {base : List UInt8} (h : tables.Stores inode base)
    {oldSize : Nat} (hlength : final.length = max oldSize (offset + bytes.length))
    (hwritten : ∀ a, offset ≤ a → a < offset + bytes.length → final[a]? = bytes[a - offset]?)
    (hbase : ∀ a, a < offset ∨ offset + bytes.length ≤ a → base[a]? = final[a]?)
    (hbaseLength : base.length ≤ final.length)
    (hstart : offset < index * chunkSize + chunkSize)
    (hstop : index * chunkSize < offset + bytes.length) :
    plannedChunk (boundaryChunks tables inode (offset / chunkSize)
      ((offset + bytes.length - 1) / chunkSize) offset (offset + bytes.length)) bytes offset oldSize
        index = slice chunkSize final index := by
  have hfinal : offset + bytes.length ≤ final.length := hlength ▸ Nat.le_max_right _ _
  unfold plannedChunk
  dsimp only
  split
  next hwhole => exact Chunked.window_eq_slice hfinal hwritten hwhole.1 hwhole.2
  next hpart =>
    rw [boundaryChunks, if_pos (boundary_of_part hstart hstop hpart), ← hlength]
    obtain ⟨hseedLength, hseed⟩ := @seededChunk_eq _ _ _ h index
      (min chunkSize (final.length - index * chunkSize))
      (by generalize chunkSize = c at *; omega) (Nat.min_le_left _ _)
    refine setBytes_window hfinal hwritten hstart hstop hseedLength fun j hj houtside => ?_
    rw [hseedLength] at hj
    have hsame := hbase (index * chunkSize + j) houtside
    rw [hseed j hj]
    split
    next => exact hsame
    next hpast =>
      -- the file is no longer than this, so nothing of it is missing here
      rw [List.getElem?_eq_none (Nat.le_of_not_lt hpast)] at hsame
      have hnone := List.getElem?_eq_none_iff.1 hsame.symm
      generalize chunkSize = c at *
      omega

/-- The bytes outside of a write are those of the file before it, with the gap filled. -/
theorem write_outside {a : Nat} (h : a < offset ∨ offset + bytes.length ≤ a) :
    (if offset > content.length then resize 0 content (offset + bytes.length) else content)[a]? =
      (Chunked.write 0 content offset bytes)[a]? := by
  rw [Chunked.write_getElem?]
  by_cases hgap : offset > content.length
  · rw [if_pos hgap, Chunked.resize_getElem?]
    by_cases hlow : a < offset
    · rw [if_pos (by omega), if_pos hlow]
    · rw [if_neg (by omega), if_neg hlow, if_neg (by omega), List.getElem?_eq_none (by omega)]
  · rw [if_neg hgap]
    by_cases hlow : a < offset
    · rw [if_pos hlow, if_pos (by omega)]
    · rw [if_neg hlow, if_neg (by omega)]

/-- A write leaves the file with the bytes at their offset. -/
theorem writeChunks_stores (h : tables.Stores inode content)
    (hbytes : bytes.length ≠ 0) (offset : Nat) (mtime : Int) :
    (writeChunks tables { inode, size := content.length } bytes offset mtime).Stores inode
      (Chunked.write 0 content offset bytes) := by
  have hextended : (if offset > content.length then
      extendChunks tables { inode, size := content.length } (offset + bytes.length) else tables).Stores
        inode (if offset > content.length then resize 0 content (offset + bytes.length) else content) := by
    split
    next hgap => exact extendChunks_stores h (by omega)
    next => exact h
  have hwritten : ∀ a, offset ≤ a → a < offset + bytes.length →
      (Chunked.write 0 content offset bytes)[a]? = bytes[a - offset]? := by
    intro a hlow hhigh
    rw [Chunked.write_getElem?, if_neg (by omega), if_pos hhigh]
  have hlength := @Chunked.length_write UInt8 content 0 offset bytes
  have hbase : (if offset > content.length then resize 0 content (offset + bytes.length) else
      content).length ≤ (Chunked.write 0 content offset bytes).length := by
    split
    next => rw [Chunked.length_resize]; omega
    next => omega
  have htouched := fun index => @Chunked.mem_touched chunkSize chunkSize_pos offset
    (offset + bytes.length) index (by omega)
  suffices hchunks : (FsTables.upsertChunks (if offset > content.length then
      extendChunks tables { inode, size := content.length } (offset + bytes.length) else tables).bumpRev
        inode (planChunkWrites (boundaryChunks (if offset > content.length then
          extendChunks tables { inode, size := content.length } (offset + bytes.length) else tables) inode
            (offset / chunkSize) ((offset + bytes.length - 1) / chunkSize) offset (offset + bytes.length))
              bytes offset content.length)).Stores inode (Chunked.write 0 content offset bytes) by
    unfold writeChunks
    dsimp only
    rw [writeChunkBatches_eq]
    exact hchunks
  rw [planChunkWrites, if_neg hbytes]
  refine upsert_stores hextended (fun index hindex => ?_) fun index hindex j hj => ?_
  · obtain ⟨hstart, hstop⟩ := (htouched index).1 hindex
    exact ⟨by omega, plannedChunk_eq hextended hlength hwritten (fun a => write_outside) hbase hstart
      hstop⟩
  · refine write_outside ?_
    rw [htouched] at hindex
    generalize chunkSize = c at *
    omega

-- Cutting

theorem cutChunks_stores (h : tables.Stores inode content) {length : Nat}
    (hle : length ≤ content.length) :
    (cutChunks tables inode length).Stores inode (resize 0 content length) := by
  have hlast := fun index => @Chunked.le_last chunkSize chunkSize_pos length index
  have hkept : ∀ index, (tables.chunks.keep fun row =>
      row.1.1 ≠ inode || (0 < length && row.1.2 ≤ (length - 1) / chunkSize)).get (inode, index) =
        if index * chunkSize < length then some (slice chunkSize content index) else none := by
    intro index
    rw [KeyTable.get_keep, h index]
    by_cases hlt : index * chunkSize < length
    · rw [if_pos (Nat.lt_of_lt_of_le hlt hle), if_pos hlt]
      have hand := (hlast index).2 hlt
      simp [hand]
    · rw [if_neg hlt]
      have hnot := mt (hlast index).1 hlt
      split
      next => simpa using fun hpos => Nat.lt_of_not_le fun hle => hnot ⟨hpos, hle⟩
      next => rfl
  intro index
  rw [Chunked.length_resize, Chunked.cut_slice hle]
  unfold cutChunks
  dsimp only
  split
  next hpart =>
    rw [KeyTable.get_update, hkept]
    by_cases hlt : index * chunkSize < length
    · rw [if_pos hlt, if_pos hlt, Option.map_some]
      by_cases hindex : index = (length - 1) / chunkSize
      · rw [if_pos (by rw [hindex]), hindex]
      · rw [if_neg fun heq => hindex (Prod.mk.inj heq).2, List.take_of_length_le]
        exact Nat.le_trans (Nat.le_of_eq (Chunked.length_slice index))
          (Nat.le_trans (Nat.min_le_left _ _)
            (Chunked.full_of_ne_last chunkSize_pos hlt (.inr hindex)))
    · rw [if_neg hlt, if_neg hlt, Option.map_none]
  next hwhole =>
    rw [hkept]
    by_cases hlt : index * chunkSize < length
    · have hmod : length % chunkSize = 0 := by
        by_contra hne
        exact hwhole ⟨Nat.lt_of_le_of_lt (Nat.zero_le _) hlt, hne⟩
      rw [if_pos hlt, if_pos hlt, List.take_of_length_le]
      exact Nat.le_trans (Nat.le_of_eq (Chunked.length_slice index))
        (Nat.le_trans (Nat.min_le_left _ _)
          (Chunked.full_of_ne_last chunkSize_pos hlt (.inl hmod)))
    · rw [if_neg hlt, if_neg hlt]

end Kompjutr.Fs
