/-
  Kompjutr.Fs.ReadTargetsSound

  Several files read by pages over all their chunks (`readTargets_eq`).

  What the loop holds after some rows is known from how many of them belong to each file
  (`Assembled`): they are the first chunks of it, since the rows come in the order of the key.
  A file that two targets name is counted twice and completed once, so no two targets of one
  inode that is not empty may stand in a batch.
-/
import Kompjutr.Fs.ReadOneSound

namespace Kompjutr.Fs

open Chunked (count slice)
open Fuel (ok_bind)
open List (append_nil mem_filter mem_map)

-- The rows

section Rows

variable {tables : FsTables} {targets : List Target} {contents : Nat → List UInt8}

/-- Each target is a file with these contents. -/
def Filed (tables : FsTables) (contents : Nat → List UInt8) (targets : List Target) : Prop :=
  ∀ target ∈ targets, tables.Stores target.inode (contents target.inode) ∧
    target.size = (contents target.inode).length

theorem Filed.stores (h : Filed tables contents targets) {inode : Nat}
    (hinode : inode ∈ targets.map Target.inode) : tables.Stores inode (contents inode) := by
  obtain ⟨target, htarget, rfl⟩ := mem_map.1 hinode
  exact (h target htarget).1

theorem Filed.mem_sortedChunks (h : Filed tables contents targets) {row : ChunkRow} :
    row ∈ sortedChunks tables (targets.map Target.inode) ↔
      row.1.1 ∈ targets.map Target.inode ∧ row ∈ fileRows row.1.1 (contents row.1.1) := by
  obtain ⟨⟨inode, index⟩, bytes⟩ := row
  rw [sortedChunks, List.mem_mergeSort, mem_fileRows, mem_map]
  dsimp only
  constructor
  · rintro ⟨⟨⟨i, j⟩, stored⟩, hrow, heq⟩
    obtain ⟨hkey, rfl⟩ := Prod.mk.inj heq
    obtain ⟨rfl, rfl⟩ := Prod.mk.inj hkey
    rw [mem_filter, KeyTable.mem_rows, decide_eq_true_iff] at hrow
    dsimp only at hrow
    obtain ⟨hlt, rfl⟩ := (h.stores hrow.2).get_iff.1 hrow.1
    exact ⟨hrow.2, rfl, hlt, slice_take _⟩
  · rintro ⟨hinode, -, hlt, rfl⟩
    refine ⟨((inode, index), slice chunkSize (contents inode) index), ?_, ?_⟩
    · rw [mem_filter, KeyTable.mem_rows, decide_eq_true_iff]
      exact ⟨(h.stores hinode).get_iff.2 ⟨hlt, rfl⟩, hinode⟩
    · rw [slice_take]

theorem fileRows_pairwise (inode : Nat) (content : List UInt8) :
    (fileRows inode content).Pairwise fun row other => toLex row.1 < toLex other.1 := by
  rw [fileRows, List.pairwise_map]
  refine List.pairwise_lt_range.imp fun hlt => ?_
  exact Prod.Lex.toLex_lt_toLex.2 (.inr ⟨rfl, hlt⟩)

/-- The rows of one file stand among the rows in the order of its chunks. -/
theorem Filed.rows_of (h : Filed tables contents targets) {inode : Nat}
    (hinode : inode ∈ targets.map Target.inode) :
    (sortedChunks tables (targets.map Target.inode)).filter (fun row => row.1.1 = inode) =
      fileRows inode (contents inode) := by
  have hsorted := (sortedChunks_pairwise tables (targets.map Target.inode)).filter
    fun row => decide (row.1.1 = inode)
  have hrows := fileRows_pairwise inode (contents inode)
  have hne : ∀ {row other : ChunkRow}, toLex row.1 < toLex other.1 → row ≠ other := by
    rintro row _ hlt rfl
    exact lt_irrefl _ hlt
  refine List.Perm.eq_of_pairwise (fun row other _ _ hlt hgt => absurd (hlt.trans hgt) (lt_irrefl _))
    hsorted hrows ?_
  refine (List.perm_ext_iff_of_nodup (hsorted.imp hne) (hrows.imp hne)).2 fun row => ?_
  rw [mem_filter, h.mem_sortedChunks, decide_eq_true_iff]
  constructor
  · rintro ⟨⟨-, hrow⟩, rfl⟩
    exact hrow
  · intro hrow
    have heq : row.1.1 = inode := (mem_fileRows.1 hrow).1
    rw [heq]
    exact ⟨⟨hinode, hrow⟩, rfl⟩

-- What the loop holds

/-- How many of the rows belong to an inode. -/
def seen (rows : List ChunkRow) (inode : Nat) : Nat :=
  (rows.filter fun row => row.1.1 = inode).length

theorem seen_concat (rows : List ChunkRow) (row : ChunkRow) (inode : Nat) :
    seen (rows ++ [row]) inode = if row.1.1 = inode then seen rows inode + 1 else seen rows inode := by
  rw [seen, List.filter_append, List.length_append]
  split
  next heq => rw [List.filter_cons_of_pos (by simpa using heq)]; rfl
  next hne => rw [List.filter_cons_of_neg (by simpa using hne)]; rfl

/-- The slot of a file of which so many chunks have come. -/
def slotAt (content : List UInt8) (n : Nat) : Slot where
  size := content.length
  buffer := filledTo content n
  filled := min content.length (n * chunkSize)
  nextIndex := n

/-- The inodes of the targets that are not empty. -/
def wantedInodes (targets : List Target) : List Nat :=
  (targets.filter fun target => 0 < target.size).map Target.inode

/-- What the loop holds once these rows have come. -/
structure Assembled (contents : Nat → List UInt8) (targets : List Target) (rows : List ChunkRow)
    (assembly : Assembly) : Prop where
  slots : ∀ inode ∈ targets.map Target.inode,
    assembly.slots.get inode = some (slotAt (contents inode) (seen rows inode))
  outstanding : assembly.outstanding = ((wantedInodes targets).filter fun inode =>
    seen rows inode < count chunkSize (contents inode).length).length

/-- The row that comes next is the next chunk of its file. -/
theorem Filed.next_row (h : Filed tables contents targets) {before after : List ChunkRow}
    {row : ChunkRow}
    (hsplit : sortedChunks tables (targets.map Target.inode) = before ++ row :: after) :
    row.1.1 ∈ targets.map Target.inode ∧ row.1.2 = seen before row.1.1 ∧
      row.1.2 * chunkSize < (contents row.1.1).length ∧
      row.2 = slice chunkSize (contents row.1.1) row.1.2 := by
  have hmem : row ∈ sortedChunks tables (targets.map Target.inode) := by
    rw [hsplit]
    exact List.mem_append_right _ List.mem_cons_self
  obtain ⟨hinode, hrow⟩ := h.mem_sortedChunks.1 hmem
  obtain ⟨-, hlt, hbytes⟩ := mem_fileRows.1 hrow
  refine ⟨hinode, ?_, hlt, hbytes⟩
  have hrows := h.rows_of hinode
  rw [hsplit, List.filter_append, List.filter_cons_of_pos (by simp)] at hrows
  have hget : (fileRows row.1.1 (contents row.1.1))[seen before row.1.1]? = some row := by
    rw [← hrows, seen, List.getElem?_append_right (Nat.le_refl _), Nat.sub_self,
      List.getElem?_cons_zero]
  rw [fileRows, List.getElem?_map, Option.map_eq_some_iff] at hget
  obtain ⟨index, hindex, heq⟩ := hget
  obtain ⟨hbound, hvalue⟩ := List.getElem?_eq_some_iff.1 hindex
  rw [List.getElem_range] at hvalue
  have hrowIndex : index = row.1.2 := congrArg (fun other : ChunkRow => other.1.2) heq
  rw [← hrowIndex, hvalue]

/-- A file counts down once, with its last chunk. -/
theorem length_filter_seen {wanted : List Nat} (hwanted : wanted.Nodup) {rows : List ChunkRow}
    {row : ChunkRow} (hmem : row.1.1 ∈ wanted)
    (hlt : seen rows row.1.1 < count chunkSize (contents row.1.1).length) :
    (wanted.filter fun inode =>
      seen (rows ++ [row]) inode < count chunkSize (contents inode).length).length =
        if seen rows row.1.1 + 1 = count chunkSize (contents row.1.1).length then
          (wanted.filter fun inode =>
            seen rows inode < count chunkSize (contents inode).length).length - 1
        else (wanted.filter fun inode =>
          seen rows inode < count chunkSize (contents inode).length).length := by
  have hopen : row.1.1 ∈ wanted.filter fun inode =>
      seen rows inode < count chunkSize (contents inode).length :=
    mem_filter.2 ⟨hmem, decide_eq_true hlt⟩
  split
  next hlast =>
    rw [← List.length_erase_of_mem hopen, (hwanted.filter _).erase_eq_filter, List.filter_filter]
    refine congrArg List.length (List.filter_congr fun inode _ => ?_)
    rw [seen_concat]
    by_cases heq : row.1.1 = inode
    · subst heq
      simp [hlast]
    · simp [heq, Ne.symm heq]
  next hmore =>
    refine congrArg List.length (List.filter_congr fun inode _ => ?_)
    rw [seen_concat]
    by_cases heq : row.1.1 = inode
    · subst heq
      rw [if_pos rfl, decide_eq_true hlt]
      exact decide_eq_true (by omega)
    · rw [if_neg heq]

section

variable (h : Filed tables contents targets) (hwanted : (wantedInodes targets).Nodup)

include h hwanted

theorem assembleRow_ok {before after : List ChunkRow} {row : ChunkRow} {assembly : Assembly}
    (hsplit : sortedChunks tables (targets.map Target.inode) = before ++ row :: after)
    (hassembled : Assembled contents targets before assembly) :
    ∃ next, assembleRow assembly row = .ok next ∧
      Assembled contents targets (before ++ [row]) next := by
  obtain ⟨hinode, hindex, hlt, hbytes⟩ := h.next_row hsplit
  have hcount : seen before row.1.1 < count chunkSize (contents row.1.1).length := by
    rw [← hindex]
    exact (Chunked.lt_count chunkSize_pos).2 hlt
  have hmem : row.1.1 ∈ wantedInodes targets := by
    obtain ⟨target, htarget, heq⟩ := mem_map.1 hinode
    refine mem_map.2 ⟨target, mem_filter.2 ⟨htarget, decide_eq_true ?_⟩, heq⟩
    rw [(h target htarget).2, heq]
    omega
  have hlength : (row.2.length : Int) = expectedChunkLength (contents row.1.1).length row.1.2 := by
    rw [hbytes]
    exact slice_expected hlt
  have hfilled : min (contents row.1.1).length (seen before row.1.1 * chunkSize) + row.2.length =
      min (contents row.1.1).length ((seen before row.1.1 + 1) * chunkSize) := by
    rw [hbytes, Chunked.length_slice, hindex, Nat.succ_mul]
    rw [hindex] at hlt
    omega
  unfold assembleRow
  rw [hassembled.slots _ hinode]
  dsimp only [slotAt]
  rw [if_neg (not_not.2 hindex), if_neg (not_not.2 hlength), hfilled, length_filledTo, hbytes,
    ← hindex, setBytes_filledTo hlt, hindex]
  refine ⟨_, rfl, ?_, ?_⟩
  · intro inode hmember
    dsimp only
    rw [KeyTable.get_upsert, seen_concat]
    split
    next heq => rw [heq, if_pos rfl]; rfl
    next hne => rw [if_neg (Ne.symm hne)]; exact hassembled.slots inode hmember
  · rw [length_filter_seen hwanted hmem hcount, hassembled.outstanding]
    dsimp only
    have hlast : seen before row.1.1 + 1 = count chunkSize (contents row.1.1).length ↔
        (contents row.1.1).length ≤ (seen before row.1.1 + 1) * chunkSize := by
      have hiff := @Chunked.lt_count chunkSize chunkSize_pos (contents row.1.1).length
        (seen before row.1.1 + 1)
      omega
    congr 1
    rw [eq_iff_iff, hlast, Bool.and_eq_true, decide_eq_true_iff, decide_eq_true_iff]
    rw [hindex] at hlt
    omega

theorem assembleRows_ok {before rows after : List ChunkRow} {assembly : Assembly}
    (hsplit : sortedChunks tables (targets.map Target.inode) = before ++ (rows ++ after))
    (hassembled : Assembled contents targets before assembly) :
    ∃ next, rows.foldlM assembleRow assembly = .ok next ∧
      Assembled contents targets (before ++ rows) next := by
  induction rows generalizing before assembly with
  | nil =>
    rw [append_nil]
    exact ⟨assembly, rfl, hassembled⟩
  | cons row rows ih =>
    obtain ⟨middle, hrow, hmiddle⟩ := assembleRow_ok h hwanted hsplit hassembled
    obtain ⟨next, hnext, hreached⟩ := @ih (before ++ [row]) middle
      (by rw [hsplit, List.append_assoc]; rfl) hmiddle
    refine ⟨next, ?_, ?_⟩
    · rw [List.foldlM_cons, hrow, ok_bind, hnext]
    · rwa [List.append_assoc] at hreached

/-- The pages end with every row, or with nothing outstanding. -/
theorem assemblePages_ok {limit : Nat} (hlimit : 0 < limit) {before : List ChunkRow}
    {key : Option (Nat × Nat)}
    {assembly : Assembly}
    (hsplit : sortedChunks tables (targets.map Target.inode) =
      before ++ chunksBehind tables (targets.map Target.inode) key)
    (hassembled : Assembled contents targets before assembly) :
    ∃ last next reached,
      assemblePages tables (targets.map Target.inode) limit key assembly = .ok (last, next) ∧
        Assembled contents targets reached next ∧
        (next.outstanding = 0 ∨ reached = sortedChunks tables (targets.map Target.inode)) := by
  induction hleft : (chunksBehind tables (targets.map Target.inode) key).length
    using Nat.strongRecOn generalizing before key assembly with
  | ind left ih =>
    subst hleft
    rw [assemblePages]
    split
    next hzero => exact ⟨key, assembly, before, rfl, hassembled, .inl hzero⟩
    next hopen =>
      split
      next hnone =>
        have hempty : chunksBehind tables (targets.map Target.inode) key = [] := by
          rw [List.getLast?_eq_none_iff, List.take_eq_nil_iff] at hnone
          exact hnone.resolve_left (by omega)
        refine ⟨key, assembly, before, rfl, hassembled, .inr ?_⟩
        rw [hsplit, hempty, append_nil]
      next last hlast =>
        obtain ⟨next, hrows, hnext⟩ := @assembleRows_ok tables targets contents h hwanted before
          ((chunksBehind tables (targets.map Target.inode) key).take limit)
          ((chunksBehind tables (targets.map Target.inode) key).drop limit) assembly
          (by rw [hsplit, List.take_append_drop]) hassembled
        rw [hrows]
        dsimp only
        split
        next hshort =>
          refine ⟨some last.1, next, _, rfl, hnext, .inr ?_⟩
          rw [List.length_take] at hshort
          rw [hsplit, List.take_of_length_le (by omega)]
        next hfull =>
          refine ih _ (length_chunksBehind_lt hlast) ?_ hnext rfl
          rw [chunksBehind_some (List.mem_of_mem_take (List.mem_of_getLast? hlast)), hsplit,
            List.append_assoc]
          exact congrArg _ (Keyset.take_append_behind (fun _ _ => lt_asymm)
            (chunksBehind_pairwise tables _ key) hlast).symm

end

/-- The loop starts with no chunk of any target. -/
theorem start_assembled (h : Filed tables contents targets) :
    Assembled contents targets [] (targets.foldl Assembly.addTarget Assembly.start) := by
  suffices hall : ∀ (todo done : List Target) (assembly : Assembly),
      (∀ target ∈ todo, target.size = (contents target.inode).length) →
      (∀ inode ∈ done.map Target.inode, assembly.slots.get inode = some (slotAt (contents inode) 0)) →
      assembly.outstanding = (wantedInodes done).length →
      (∀ inode ∈ (done ++ todo).map Target.inode,
        (todo.foldl Assembly.addTarget assembly).slots.get inode = some (slotAt (contents inode) 0)) ∧
      (todo.foldl Assembly.addTarget assembly).outstanding = (wantedInodes (done ++ todo)).length by
    obtain ⟨hslots, houtstanding⟩ := hall targets [] Assembly.start (fun target htarget => (h target htarget).2)
      (fun inode hinode => nomatch hinode) rfl
    refine ⟨hslots, ?_⟩
    rw [houtstanding, List.nil_append, List.filter_eq_self.2]
    intro inode hinode
    obtain ⟨target, htarget, rfl⟩ := mem_map.1 hinode
    rw [mem_filter, decide_eq_true_iff] at htarget
    rw [decide_eq_true_iff, ← (h target htarget.1).2]
    exact (Chunked.count_pos chunkSize_pos).2 htarget.2
  intro todo
  induction todo with
  | nil =>
    intro done assembly _ hslots houtstanding
    rw [append_nil]
    exact ⟨hslots, houtstanding⟩
  | cons target todo ih =>
    intro done assembly hsizes hslots houtstanding
    rw [List.foldl_cons, List.append_cons]
    apply ih (done ++ [target])
    · exact fun other hother => hsizes other (List.mem_cons_of_mem _ hother)
    · intro inode hinode
      rw [Assembly.addTarget, KeyTable.get_upsert]
      split
      next heq =>
        rw [heq, slotAt, filledTo_zero, hsizes target List.mem_cons_self, Nat.zero_mul, Nat.min_zero]
      next hne =>
        rw [List.map_append, List.mem_append, List.map_singleton, List.mem_singleton] at hinode
        exact hslots inode (hinode.resolve_right hne)
    · rw [Assembly.addTarget, houtstanding, wantedInodes, wantedInodes, List.filter_append,
        List.map_append, List.length_append]
      split
      next hpos => rw [List.filter_cons_of_pos (by simpa using hpos)]; rfl
      next hzero => rw [List.filter_cons_of_neg (by simpa using hzero)]; rfl

/-- The files of a batch are read whole. -/
theorem readTargets_eq (h : Filed tables contents targets) (hwanted : (wantedInodes targets).Nodup)
    {limit : Nat} (hlimit : 0 < limit) :
    ∃ found, readTargets tables targets limit = .ok found ∧
      ∀ target ∈ targets, found target.inode = some (contents target.inode) := by
  unfold readTargets
  split
  next only =>
    obtain ⟨hstores, hsize⟩ := h only (List.mem_singleton_self _)
    rw [readOne_eq hstores hsize hlimit]
    refine ⟨_, rfl, fun target htarget => ?_⟩
    rw [List.mem_singleton.1 htarget]
    exact if_pos rfl
  next =>
    have hall : chunksBehind tables (targets.map Target.inode) none =
        sortedChunks tables (targets.map Target.inode) := List.filter_eq_self.2 fun _ _ => rfl
    obtain ⟨last, next, reached, hpages, hassembled, hend⟩ := @assemblePages_ok tables targets
      contents h hwanted limit hlimit [] none _ hall.symm (start_assembled h)
    have hdone : ∀ target ∈ targets,
        count chunkSize (contents target.inode).length ≤ seen reached target.inode := by
      intro target htarget
      obtain hzero | rfl := hend
      · rw [hassembled.outstanding, List.length_eq_zero_iff, List.filter_eq_nil_iff] at hzero
        by_contra hless
        refine hzero target.inode (mem_map.2 ⟨target, mem_filter.2 ⟨htarget, ?_⟩, rfl⟩)
          (decide_eq_true (by omega))
        rw [decide_eq_true_iff, (h target htarget).2]
        exact (Chunked.count_pos chunkSize_pos).1 (by omega)
      · rw [seen, h.rows_of (List.mem_map_of_mem htarget), fileRows, List.length_map,
          List.length_range]
    have hzero : next.outstanding = 0 := by
      rw [hassembled.outstanding, List.length_eq_zero_iff, List.filter_eq_nil_iff]
      intro inode hinode hless
      obtain ⟨target, htarget, rfl⟩ := mem_map.1 hinode
      have hall := hdone target (List.mem_of_mem_filter htarget)
      rw [decide_eq_true_iff] at hless
      omega
    rw [hpages, ok_bind, if_neg (by rw [hzero]; exact Nat.lt_irrefl 0)]
    refine ⟨_, rfl, fun target htarget => ?_⟩
    rw [hassembled.slots _ (List.mem_map_of_mem htarget)]
    exact congrArg some (filledTo_of_le (hdone target htarget))

end Rows

end Kompjutr.Fs
