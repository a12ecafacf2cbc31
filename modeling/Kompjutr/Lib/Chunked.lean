/-
  Kompjutr.Lib.Chunked

  A sequence of bytes cut into chunks of one length, the last of which may be shorter.

  `slice` is the chunk at an index and `count` how many there are.  What a chunk holds is stated
  byte by byte (`slice_getElem?`), so that two ways to make a chunk are compared by their lengths
  and their bytes.
-/
import Mathlib.Data.List.Basic
import Mathlib.Tactic.Ring

namespace Kompjutr.Chunked

open List (getElem?_append getElem?_eq_none getElem?_take length_append length_drop length_take)

variable {length n j : Nat}

variable {α : Type} {c : Nat} {content : List α}

/-- How many chunks a sequence of this length has. -/
def count (c length : Nat) : Nat := (length + c - 1) / c

/-- The chunk at an index. -/
def slice (c : Nat) (content : List α) (index : Nat) : List α := (content.drop (index * c)).take c

theorem lt_count (hc : 0 < c) {length index : Nat} : index < count c length ↔ index * c < length := by
  unfold count
  rw [← Nat.succ_le_iff, Nat.le_div_iff_mul_le hc, Nat.succ_mul]
  omega

theorem count_pos (hc : 0 < c) : 0 < count c length ↔ 0 < length := by
  rw [lt_count hc, Nat.zero_mul]

/-- The index of the last chunk. -/
theorem count_eq (hc : 0 < c) (h : 0 < length) : count c length = (length - 1) / c + 1 := by
  unfold count
  rw [show length + c - 1 = length - 1 + c by omega, Nat.add_div_right _ hc]

theorem length_slice (index : Nat) :
    (slice c content index).length = min c (content.length - index * c) := by
  rw [slice, length_take, length_drop]

theorem slice_getElem? (index j : Nat) :
    (slice c content index)[j]? = if j < c then content[index * c + j]? else none := by
  rw [slice, getElem?_take, List.getElem?_drop]

/-- A chunk is known by its length and its bytes. -/
theorem eq_slice {chunk : List α} {index : Nat}
    (hlength : chunk.length = min c (content.length - index * c))
    (hbytes : ∀ j, j < chunk.length → chunk[j]? = content[index * c + j]?) :
    chunk = slice c content index := by
  refine List.ext_getElem? fun j => ?_
  rw [slice_getElem?]
  by_cases hj : j < chunk.length
  · rw [hbytes j hj, if_pos (by omega)]
  · rw [getElem?_eq_none (by omega)]
    split
    next hjc => rw [getElem?_eq_none (by omega)]
    next => rfl

/-- The first chunks are the start of the sequence. -/
theorem flatten_slices (n : Nat) :
    ((List.range n).map (slice c content)).flatten = content.take (n * c) := by
  induction n with
  | zero => rw [Nat.zero_mul, List.take_zero, List.range_zero, List.map_nil, List.flatten_nil]
  | succ n ih =>
    rw [List.range_succ, List.map_append, List.flatten_append, ih, List.map_singleton,
      List.flatten_singleton, Nat.succ_mul, List.take_add]
    rfl

theorem le_count_mul (hc : 0 < c) (length : Nat) : length ≤ count c length * c := by
  by_contra hlt
  exact absurd ((lt_count hc).2 (Nat.lt_of_not_le hlt)) (lt_irrefl _)

/-- All the chunks are the sequence. -/
theorem flatten_count (hc : 0 < c) :
    ((List.range (count c content.length)).map (slice c content)).flatten = content := by
  rw [flatten_slices, List.take_of_length_le (le_count_mul hc _)]

/-- The lengths of the chunks add up. -/
theorem sum_lengths (hc : 0 < c) :
    ((List.range (count c content.length)).map fun index => (slice c content index).length).sum =
      content.length := by
  conv_rhs => rw [← @flatten_count _ _ content hc, List.length_flatten, List.map_map]
  rfl

-- Flat operations

/-- The sequence cut or filled up to a length. -/
def resize (zero : α) (content : List α) (length : Nat) : List α :=
  content.take length ++ List.replicate (length - content.length) zero

/-- Some elements written at an offset; a gap before it is filled. -/
def write (zero : α) (content : List α) (offset : Nat) (bytes : List α) : List α :=
  (resize zero content offset).take offset ++ bytes ++ content.drop (offset + bytes.length)

/-- Up to `length` elements from an offset on. -/
def read (content : List α) (offset length : Nat) : List α := (content.drop offset).take length

variable {zero : α}

theorem length_resize (n : Nat) : (resize zero content n).length = n := by
  rw [resize, length_append, length_take, List.length_replicate]
  omega

theorem resize_getElem? (n j : Nat) :
    (resize zero content n)[j]? =
      if j < n then if j < content.length then content[j]? else some zero else none := by
  unfold resize
  rw [getElem?_append, length_take, getElem?_take, List.getElem?_replicate]
  split
  next hlt => rw [if_pos (by omega), if_pos (by omega), if_pos (by omega)]
  next hge =>
    by_cases hj : j < n
    · rw [if_pos (by omega), if_pos hj, if_neg (by omega)]
    · rw [if_neg (by omega), if_neg hj]

theorem length_write (offset : Nat) (bytes : List α) :
    (write zero content offset bytes).length = max content.length (offset + bytes.length) := by
  rw [write, length_append, length_append, length_take, length_resize,
    length_drop]
  omega

theorem write_getElem? (offset j : Nat) (bytes : List α) :
    (write zero content offset bytes)[j]? =
      if j < offset then if j < content.length then content[j]? else some zero
      else if j < offset + bytes.length then bytes[j - offset]? else content[j]? := by
  have hfront : ((resize zero content offset).take offset).length = offset := by
    rw [length_take, length_resize, Nat.min_self]
  unfold write
  rw [getElem?_append, length_append, hfront]
  split
  next hlt =>
    rw [getElem?_append, hfront]
    by_cases hj : j < offset
    · rw [if_pos hj, if_pos hj, getElem?_take, if_pos hj, resize_getElem?, if_pos hj]
    · rw [if_neg hj, if_neg hj]
  next hge =>
    rw [if_neg (by omega), List.getElem?_drop]
    congr 1
    omega

-- Chunks that are stored anew

/-- A stored chunk, cut or filled, is the chunk of the resized sequence. -/
theorem resize_slice {index : Nat} (hle : content.length ≤ n) :
    (slice c content index).take (min c (n - index * c)) ++
      List.replicate (min c (n - index * c) - (slice c content index).length) zero =
        slice c (resize zero content n) index := by
  have hlength := @length_slice α c content index
  have htotal : ((slice c content index).take (min c (n - index * c)) ++
      List.replicate (min c (n - index * c) - (slice c content index).length) zero).length =
        min c (n - index * c) := by
    rw [length_append, length_take, List.length_replicate]
    omega
  apply eq_slice
  · rw [length_resize, htotal]
  · intro j hj
    rw [htotal] at hj
    rw [resize_getElem?, if_pos (by omega), getElem?_append, length_take,
      List.getElem?_replicate, getElem?_take, slice_getElem?]
    by_cases hstored : index * c + j < content.length
    · rw [if_pos (by omega), if_pos (by omega), if_pos (by omega), if_pos hstored]
    · rw [if_neg (by omega), if_pos (by omega), if_neg hstored]

/-- A chunk of a sequence that is cut is the chunk, cut. -/
theorem cut_slice {index : Nat} (hle : n ≤ content.length) :
    slice c (resize zero content n) index = (slice c content index).take (n - index * c) := by
  rw [resize, Nat.sub_eq_zero_of_le hle, List.replicate_zero, List.append_nil, slice, slice,
    List.drop_take, List.take_take, List.take_take, Nat.min_comm]

/-- The chunks of a length. -/
theorem le_last (hc : 0 < c) {n index : Nat} : 0 < n ∧ index ≤ (n - 1) / c ↔ index * c < n := by
  have hiff : index ≤ (n - 1) / c ↔ index * c ≤ n - 1 := Nat.le_div_iff_mul_le hc
  omega

/-- Only the last chunk can be short. -/
theorem full_of_ne_last (hc : 0 < c) {index : Nat} (hlt : index * c < n)
    (h : n % c = 0 ∨ index ≠ (n - 1) / c) : c ≤ n - index * c := by
  have hiff : index + 1 ≤ (n - 1) / c ↔ (index + 1) * c ≤ n - 1 := Nat.le_div_iff_mul_le hc
  have hlast := (le_last hc (n := n)).2 hlt
  rw [Nat.succ_mul] at hiff
  obtain hmod | hne := h
  · by_contra hshort
    have hindex : n / c = index := Nat.div_eq_of_lt_le (by omega) (by rw [Nat.succ_mul]; omega)
    have hall := Nat.div_add_mod' n c
    rw [hindex] at hall
    omega
  · omega

/-- A piece behind the end of the sequence extends its last chunk. -/
theorem append_slice {piece : List α} (hfits : content.length % c + piece.length ≤ c) :
    slice c (content ++ piece) (content.length / c) =
      slice c content (content.length / c) ++ piece := by
  have hall := Nat.div_add_mod' content.length c
  rw [slice, slice, List.drop_append_of_le_length (by omega), List.take_of_length_le (l := content.drop _),
    List.take_of_length_le]
  · rw [length_append, length_drop]
    omega
  · rw [length_drop]
    omega

/-- Outside of that chunk nothing changes. -/
theorem append_outside {piece : List α} (hc : 0 < c) (hfits : content.length % c + piece.length ≤ c)
    {index : Nat} (hindex : index ≠ content.length / c) (hj : j < c) :
    (content ++ piece)[index * c + j]? = content[index * c + j]? := by
  have hall := Nat.div_add_mod' content.length c
  rw [getElem?_append]
  split
  next => rfl
  next hge =>
    have hle : content.length / c ≤ index := by
      rw [← Nat.lt_succ_iff, Nat.div_lt_iff_lt_mul hc, Nat.succ_mul]
      omega
    have hmul : (content.length / c + 1) * c ≤ index * c := Nat.mul_le_mul_right _ (by omega)
    rw [Nat.succ_mul] at hmul
    rw [getElem?_eq_none (by omega), getElem?_eq_none (by omega)]

/-- The chunks that some elements from an offset on touch. -/
theorem mem_touched (hc : 0 < c) {offset stop index : Nat} (hstop : 0 < stop) :
    index ∈ List.range' (offset / c) ((stop - 1) / c + 1 - offset / c) ↔
      offset < index * c + c ∧ index * c < stop := by
  have hlow : offset / c < index + 1 ↔ offset < (index + 1) * c := Nat.div_lt_iff_lt_mul hc
  have hhigh : index ≤ (stop - 1) / c ↔ index * c ≤ stop - 1 := Nat.le_div_iff_mul_le hc
  rw [Nat.succ_mul] at hlow
  rw [List.mem_range'_1]
  omega

/-- The part of some written elements that lies in a chunk. -/
def window (c offset index : Nat) (bytes : List α) : List α :=
  (bytes.take (min (offset + bytes.length) (index * c + c) - offset)).drop
    (max offset (index * c) - offset)

section Written

variable {bytes final : List α} {offset index : Nat}

theorem length_window :
    (window c offset index bytes).length =
      min (offset + bytes.length) (index * c + c) - max offset (index * c) := by
  rw [window, length_drop, length_take]
  omega

theorem window_getElem? (hwritten : ∀ a, offset ≤ a → a < offset + bytes.length →
      final[a]? = bytes[a - offset]?)
    (hj : j < min (offset + bytes.length) (index * c + c) - max offset (index * c)) :
    (window c offset index bytes)[j]? = final[max offset (index * c) + j]? := by
  rw [window, List.getElem?_drop, getElem?_take, if_pos (by omega),
    hwritten _ (by omega) (by omega)]
  congr 1
  omega

/-- A chunk that the written elements cover. -/
theorem window_eq_slice (hlength : offset + bytes.length ≤ final.length)
    (hwritten : ∀ a, offset ≤ a → a < offset + bytes.length → final[a]? = bytes[a - offset]?)
    (hstart : max offset (index * c) = index * c)
    (hstop : min (offset + bytes.length) (index * c + c) = index * c + c) :
    window c offset index bytes = slice c final index := by
  apply eq_slice
  · rw [length_window]
    omega
  · intro j hj
    rw [length_window] at hj
    rw [window_getElem? hwritten hj, hstart]

end Written

end Kompjutr.Chunked
