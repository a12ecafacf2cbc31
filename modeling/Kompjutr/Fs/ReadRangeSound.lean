/-
  Kompjutr.Fs.ReadRangeSound

  Reading a whole file and a range of it (`readFile_eq`, `readRange_eq`).

  A range is built from the chunks that it touches, each of which puts its part in place
  (`placeRange_step`, with `Placed` as the invariant).
-/
import Kompjutr.Fs.RangeOpsSound
import Kompjutr.Fs.ReadOneSound

namespace Kompjutr.Fs

open Chunked (count slice)
open Objects (Text text)

variable {out : List UInt8}

variable {tables : FsTables} {inode : Nat} {content : List UInt8} {start stop : Nat}

/-- The buffer of a range holds the bytes before an offset of the file. -/
structure Placed (content : List UInt8) (start stop reached : Nat) (out : List UInt8) : Prop where
  length : out.length = stop - start
  bytes : ∀ j, j < stop - start → start + j < reached → out[j]? = content[start + j]?

/-- A chunk of the range takes the buffer to the end of the chunk. -/
theorem placeRange_step {index : Nat}
    (h : Placed content start stop (index * chunkSize) out) (hstop : stop ≤ content.length)
    (hlow : start < index * chunkSize + chunkSize) (hhigh : index * chunkSize < stop)
    (hstart : start < stop) :
    Placed content start stop ((index + 1) * chunkSize)
      (placeRange start stop index (slice chunkSize content index) out) := by
  obtain ⟨hlength, hbytes⟩ := h
  have hslice := @Chunked.length_slice UInt8 chunkSize content index
  have hpos := chunkSize_pos
  unfold placeRange
  dsimp only
  rw [Nat.succ_mul]
  generalize chunkSize = c at *
  have hlast : min stop (index * c + (slice c content index).length) = min stop (index * c + c) := by
    omega
  rw [hlast, if_pos (by omega)]
  have hpiece : (((slice c content index).take (min stop (index * c + c) - index * c)).drop
      (max start (index * c) - index * c)).length =
        min stop (index * c + c) - max start (index * c) := by
    rw [List.length_drop, List.length_take]
    omega
  have hfits : max start (index * c) - start +
      (((slice c content index).take (min stop (index * c + c) - index * c)).drop
        (max start (index * c) - index * c)).length ≤ out.length := by
    omega
  refine ⟨(length_setBytes hfits).trans hlength, fun j hj hreached => ?_⟩
  rw [setBytes_getElem? hfits, hpiece]
  split
  next hinside =>
    rw [List.getElem?_drop, List.getElem?_take, if_pos (by omega), Chunked.slice_getElem?,
      if_pos (by omega)]
    congr 1
    omega
  next houtside => exact hbytes j hj (by omega)

theorem placeRange_foldl (hstop : stop ≤ content.length) (hstart : start < stop) {n : Nat}
    (hn : start / chunkSize + n ≤ (stop - 1) / chunkSize + 1) :
    Placed content start stop ((start / chunkSize + n) * chunkSize)
      ((List.range' (start / chunkSize) n).foldl
        (fun out index => placeRange start stop index (slice chunkSize content index) out)
        (List.replicate (stop - start) 0)) := by
  induction n with
  | zero =>
    have hdiv : start / chunkSize * chunkSize ≤ start := Nat.div_mul_le_self _ _
    rw [List.range'_zero, List.foldl_nil, Nat.add_zero]
    exact ⟨List.length_replicate, fun j _ hreached => by omega⟩
  | succ n ih =>
    have htouched := (@Chunked.mem_touched chunkSize chunkSize_pos start _
      (start / chunkSize + n) (Nat.lt_of_le_of_lt (Nat.zero_le _) hstart)).1
        (List.mem_range'_1.2 (by omega))
    rw [List.range'_1_concat, List.foldl_append, List.foldl_cons, List.foldl_nil, ← Nat.add_assoc]
    exact placeRange_step (ih (by omega)) hstop htouched.1 htouched.2 hstart

/-- A full buffer is the range. -/
theorem Placed.eq_read {reached : Nat} (h : Placed content start stop reached out)
    (hreached : stop ≤ reached) :
    out = Chunked.read content start (stop - start) := by
  refine List.ext_getElem? fun j => ?_
  rw [Chunked.read, List.getElem?_take, List.getElem?_drop]
  split
  next hj => exact h.bytes j hj (by omega)
  next hj => exact List.getElem?_eq_none (by rw [h.length]; omega)

variable {path real : Text}

theorem lookupFile_eq (h : tables.Holds real inode content) :
    lookupFile tables path real = .ok { inode, size := content.length } := by
  obtain ⟨node, hnode, htype, hsize⟩ := h.node
  rw [lookupFile, lookupRow, hnode, Option.map_some]
  dsimp only
  rw [htype, if_neg (fun heq => nomatch heq), if_neg (not_not.2 rfl), validatedTarget]
  dsimp only
  rw [hsize, h.stores.describes]
  rfl

theorem readFile_eq (h : tables.Holds real inode content) :
    readFile tables path real = .ok content := by
  have hone : readOne tables { inode, size := content.length }
      (rowLimitFor [{ inode, size := content.length }] defaultReadBudget) = .ok content :=
    readOne_eq h.stores rfl (rowLimitFor_pos _ _)
  rw [readFile, lookupFile_eq h, Fuel.ok_bind, readTargets, hone, Fuel.ok_bind]
  show Except.ok ((if inode = inode then some content else none).getD []) = _
  rw [if_pos rfl, Option.getD_some]

/-- A range is the bytes of the file from its offset on. -/
theorem readRange_eq (h : tables.Holds real inode content) (offset length : Int) :
    readRange tables path real offset length =
      .ok (Chunked.read content offset.toNat length.toNat) := by
  rw [readRange, lookupFile_eq h, Fuel.ok_bind]
  dsimp only
  split
  next hempty =>
    have hnone : Chunked.read content offset.toNat length.toNat = [] := by
      rw [Chunked.read, List.take_eq_nil_iff, List.drop_eq_nil_iff]
      omega
    rw [hnone]
    rfl
  next hstart =>
    generalize hstop : min content.length (offset.toNat + length.toNat) = stop at *
    have hfirst : offset.toNat / chunkSize ≤ (stop - 1) / chunkSize :=
      Nat.div_le_div_right (by omega)
    have hplaced := @placeRange_foldl content offset.toNat stop (by omega) (by omega)
      ((stop - 1) / chunkSize + 1 - offset.toNat / chunkSize) (by omega)
    have hcount : (stop - 1) / chunkSize + 1 ≤ count chunkSize content.length := by
      rw [Chunked.count_eq chunkSize_pos (by omega)]
      exact Nat.succ_le_succ (Nat.div_le_div_right (by omega))
    have hend := Chunked.le_count_mul chunkSize_pos stop
    rw [Chunked.count_eq chunkSize_pos (by omega)] at hend
    rw [Nat.add_sub_cancel' (by omega)] at hplaced
    rw [readPages_eq h.stores rfl (by omega) (by omega) hcount, Fuel.ok_bind,
      if_neg (not_not.2 rfl), hplaced.eq_read hend, Chunked.read, Chunked.read]
    congr 1
    rw [List.take_eq_take_iff, List.length_drop]
    omega

end Kompjutr.Fs
