/-
  Kompjutr.Fs.ReadOneSound

  A file read by pages of its chunks is the file (`readOne_eq`), whatever the pages hold.

  The pages up to an index put every chunk in its place once, in order (`readPages_eq`, by
  induction on the chunks that are left).  Whole chunks put in place build up the file from its
  start (`setBytes_slices`).
-/
import Kompjutr.Fs.ReadFiles

namespace Kompjutr.Fs

open Chunked (count slice)

variable {next stop limit : Nat}

variable {n : Nat}

variable {tables : FsTables} {inode : Nat} {content : List UInt8}

theorem slice_take (index : Nat) :
    (slice chunkSize content index).take (chunkSize + 1) = slice chunkSize content index := by
  refine List.take_of_length_le ?_
  rw [Chunked.length_slice]
  omega

theorem slice_expected {index : Nat} (h : index * chunkSize < content.length) :
    ((slice chunkSize content index).length : Int) = expectedChunkLength content.length index := by
  rw [Chunked.length_slice, expectedChunkLength]
  omega

/-- The chunks at some indices, with their indices. -/
def chunksAt (content : List UInt8) (indices : List Nat) : List (Nat × List UInt8) :=
  indices.map fun index => (index, slice chunkSize content index)

theorem chunksAt_sorted (next n : Nat) :
    (chunksAt content (List.range' next n)).mergeSort (fun left right => left.1 ≤ right.1) =
      chunksAt content (List.range' next n) := by
  apply List.mergeSort_of_pairwise
  rw [chunksAt, List.pairwise_map]
  exact (List.pairwise_lt_range' (s := next) (n := n)).imp fun hlt =>
    decide_eq_true (Nat.le_of_lt hlt)

/-- A page of a range is the first of its chunks. -/
theorem chunkRange_eq (h : tables.Stores inode content) (limit : Nat)
    (hstop : stop ≤ count chunkSize content.length) :
    chunkRange tables inode next stop limit =
      (chunksAt content (List.range' next (stop - next))).take limit := by
  have hindices : ((List.range (count chunkSize content.length)).filter fun index =>
      next ≤ index && index < stop).Perm (List.range' next (stop - next)) := by
    refine (List.perm_ext_iff_of_nodup (List.nodup_range.filter _) List.nodup_range').2 fun index => ?_
    rw [List.mem_filter, List.mem_range, List.mem_range'_1, Bool.and_eq_true, decide_eq_true_iff,
      decide_eq_true_iff]
    omega
  have hrows : (((tables.chunkRows inode).filter fun row => next ≤ row.1.2 && row.1.2 < stop).map
      fun row => (row.1.2, row.2.take (chunkSize + 1))).Perm
        (chunksAt content (List.range' next (stop - next))) := by
    refine ((h.chunkRows_perm.filter _).map _).trans ?_
    rw [fileRows, List.filter_map, List.map_map]
    refine List.Perm.trans (List.Perm.of_eq ?_) (hindices.map _)
    exact List.map_congr_left fun index _ => by rw [Function.comp_apply, slice_take]
  rw [chunkRange, ← chunksAt_sorted]
  congr 1
  refine @SortBy.mergeSort_eq_of_perm _ _ _ Prod.fst _ (by simp) _ _ hrows fun row hrow other hother heq => ?_
  obtain ⟨index, -, rfl⟩ := List.mem_map.1 (hrows.mem_iff.1 hrow)
  obtain ⟨index', -, rfl⟩ := List.mem_map.1 (hrows.mem_iff.1 hother)
  obtain rfl : index = index' := heq
  rfl

variable {target : Target} {place : Nat → List UInt8 → List UInt8 → List UInt8}

/-- The rows of a page, each at the index that is wanted. -/
theorem readRows_eq (htarget : target.size = content.length) {next n : Nat} {out : List UInt8}
    (h : ∀ index, index < next + n → index * chunkSize < content.length) :
    (chunksAt content (List.range' next n)).foldlM (readRow target place) { next, out } =
      .ok { next := next + n
            out := (List.range' next n).foldl
              (fun out index => place index (slice chunkSize content index) out) out } := by
  induction n generalizing next out with
  | zero => rfl
  | succ n ih =>
    have hrow : readRow target place { next, out } (next, slice chunkSize content next) =
        .ok { next := next + 1, out := place next (slice chunkSize content next) out } := by
      rw [readRow, if_neg (not_not.2 rfl), htarget, if_neg (not_not.2 (slice_expected (h next (by omega))))]
      rfl
    rw [List.range'_succ, chunksAt, List.map_cons, List.foldlM_cons, hrow, Fuel.ok_bind,
      List.foldl_cons, Nat.add_comm n 1, ← Nat.add_assoc]
    exact ih fun index hindex => h index (by omega)

theorem take_range' (limit next n : Nat) :
    (List.range' next n).take limit = List.range' next (min limit n) := by
  rcases Nat.le_total n limit with hle | hle
  · rw [List.take_range'_of_length_le hle, Nat.min_eq_right hle]
  · rw [List.take_range'_of_length_ge hle, Nat.min_eq_left hle]

/-- The pages up to an index put each chunk in its place, in order. -/
theorem readPages_eq (h : tables.Stores target.inode content)
    (htarget : target.size = content.length) {out : List UInt8} (hlimit : 0 < limit)
    (hnext : next ≤ stop)
    (hstop : stop ≤ count chunkSize content.length) :
    readPages tables target stop limit place { next, out } =
      .ok { next := stop
            out := (List.range' next (stop - next)).foldl
              (fun out index => place index (slice chunkSize content index) out) out } := by
  induction hleft : stop - next using Nat.strongRecOn generalizing next out with
  | ind left ih =>
    subst hleft
    rw [readPages]
    split
    next hlt =>
      have hpage : chunkRange tables target.inode next stop limit =
          chunksAt content (List.range' next (min limit (stop - next))) := by
        rw [chunkRange_eq h limit hstop, chunksAt, ← List.map_take, take_range']
        rfl
      have hfold := @readRows_eq content target place htarget next (min limit (stop - next)) out
        fun index hindex => (Chunked.lt_count chunkSize_pos).1 (by omega)
      rw [← hpage] at hfold
      split
      next hnil =>
        have hlength := congrArg List.length (hpage.symm.trans hnil)
        rw [chunksAt, List.length_map, List.length_range', List.length_nil] at hlength
        dsimp only at hlt
        omega
      next row rows hcons =>
        have hrows : (row :: rows).foldlM (readRow target place) { next, out } = _ := hcons ▸ hfold
        split
        next error herror => cases herror.symm.trans hrows
        next after hafter =>
          obtain rfl := Except.ok.inj (hafter.symm.trans hrows)
          rw [ih _ (by dsimp only at hlt; omega) (by omega) rfl, ← List.foldl_append]
          congr 3
          rw [List.range'_append_1]
          congr 1
          omega
    next hge =>
      dsimp only at hge
      rw [show stop - next = 0 by omega, show next = stop by omega]
      rfl

/-- The start of a file, and zeros up to its length. -/
def filledTo (content : List UInt8) (n : Nat) : List UInt8 :=
  content.take (n * chunkSize) ++ List.replicate (content.length - n * chunkSize) 0

theorem filledTo_zero : filledTo content 0 = List.replicate content.length 0 := by
  rw [filledTo, Nat.zero_mul, List.take_zero, List.nil_append, Nat.sub_zero]

theorem filledTo_of_le (h : count chunkSize content.length ≤ n) : filledTo content n = content := by
  have hall : content.length ≤ n * chunkSize :=
    Nat.le_trans (Chunked.le_count_mul chunkSize_pos _) (Nat.mul_le_mul_right _ h)
  rw [filledTo, List.take_of_length_le hall, Nat.sub_eq_zero_of_le hall, List.replicate_zero,
    List.append_nil]

theorem length_filledTo (n : Nat) : (filledTo content n).length = content.length := by
  rw [filledTo, List.length_append, List.length_take, List.length_replicate]
  omega

/-- The chunk after the start goes behind it. -/
theorem setBytes_filledTo (h : n * chunkSize < content.length) :
    setBytes (n * chunkSize) (slice chunkSize content n) (filledTo content n) =
      filledTo content (n + 1) := by
  have hfront : (content.take (n * chunkSize)).length = n * chunkSize := by
    rw [List.length_take]
    omega
  have hzeros : (filledTo content n).drop (n * chunkSize + (slice chunkSize content n).length) =
      List.replicate (content.length - (n + 1) * chunkSize) 0 := by
    rw [filledTo, ← List.drop_drop, List.drop_left' hfront, List.drop_replicate,
      Chunked.length_slice, Nat.succ_mul]
    congr 1
    omega
  rw [setBytes, hzeros, filledTo, List.take_left' hfront, filledTo, Nat.succ_mul, List.take_add]
  rfl

/-- All the chunks, put in place one after another, are the file. -/
theorem foldl_setBytes (h : n ≤ count chunkSize content.length) :
    (List.range' 0 n).foldl (fun out index =>
      setBytes (index * chunkSize) (slice chunkSize content index) out)
        (List.replicate content.length 0) = filledTo content n := by
  induction n with
  | zero => exact filledTo_zero.symm
  | succ n ih =>
    rw [List.range'_1_concat, List.foldl_append, ih (by omega), List.foldl_cons, List.foldl_nil,
      Nat.zero_add]
    exact setBytes_filledTo ((Chunked.lt_count chunkSize_pos).1 (by omega))

theorem readOne_eq (h : tables.Stores target.inode content)
    (htarget : target.size = content.length)
    (hlimit : 0 < limit) : readOne tables target limit = .ok content := by
  unfold readOne
  split
  next hzero =>
    rw [htarget, List.length_eq_zero_iff] at hzero
    rw [hzero]
    rfl
  next hpos =>
    rw [htarget, readPages_eq h htarget hlimit (Nat.zero_le _) (Nat.le_refl _), Fuel.ok_bind,
      if_neg (not_not.2 rfl), Nat.sub_zero, foldl_setBytes (Nat.le_refl _),
      filledTo_of_le (Nat.le_refl _)]
    rfl

theorem rowLimitFor_pos (targets : List Target) (budget : Nat) : 0 < rowLimitFor targets budget := by
  unfold rowLimitFor
  split <;> omega

end Kompjutr.Fs
