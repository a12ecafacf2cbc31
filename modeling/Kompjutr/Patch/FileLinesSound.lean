/-
  Kompjutr.Patch.FileLinesSound

  The index of a file is right: a chain has exactly the lines of its bucket, so a lookup finds every
  line with a hash (`FileLines.positions_spec`), and lines that are equal have equal hashes
  (`FileLines.equals_hash`).
-/
import Kompjutr.Patch.FileLines

namespace Kompjutr.Locate

variable {next : Nat → Option Nat} {start : Option Nat}

variable {lines : List Nat} {line : Nat}

-- Chains

/-- A chain that goes through some lines and ends. -/
def Linked (next : Nat → Option Nat) : Option Nat → List Nat → Prop
  | start, [] => start = none
  | start, line :: lines => start = some line ∧ Linked next (next line) lines

theorem Linked.chain {fuel : Nat}
    (h : Linked next start lines) (hfuel : lines.length ≤ fuel) : chain next fuel start = lines := by
  induction lines generalizing start fuel with
  | nil =>
    obtain rfl : start = none := h
    cases fuel <;> rfl
  | cons line lines ih =>
    obtain ⟨rfl, hrest⟩ := h
    cases fuel with
    | zero => exact absurd hfuel (Nat.not_succ_le_zero _)
    | succ fuel => exact congrArg (line :: ·) (ih hrest (Nat.le_of_succ_le_succ hfuel))

theorem Linked.congr {next' : Nat → Option Nat}
    (h : Linked next start lines) (hsame : ∀ line ∈ lines, next' line = next line) :
    Linked next' start lines := by
  induction lines generalizing start with
  | nil => exact h
  | cons line lines ih =>
    obtain ⟨hstart, hrest⟩ := h
    rw [List.forall_mem_cons] at hsame
    refine ⟨hstart, ?_⟩
    rw [hsame.1]
    exact ih hrest hsame.2

/-- Which lines the buckets hold so far. -/
structure Holds (buckets : HashBuckets) (hashes : List UInt32) (lines : List Nat) : Prop where
  linked : ∀ bucket, Linked buckets.next (buckets.head bucket)
    (lines.filter fun line => buckets.bucket (hashes[line]?.getD 0) = bucket)
  sizes : ∀ bucket, buckets.sizes bucket =
    (lines.filter fun line => buckets.bucket (hashes[line]?.getD 0) = bucket).length

theorem Holds.insert {buckets : HashBuckets} {hashes : List UInt32}
    (h : Holds buckets hashes lines) (hline : line ∉ lines) :
    Holds (buckets.insert hashes line) hashes (line :: lines) := by
  have hbucket : ∀ hash, (buckets.insert hashes line).bucket hash = buckets.bucket hash :=
    fun _ => rfl
  have hkept : ∀ bucket, Linked (buckets.insert hashes line).next (buckets.head bucket)
      (lines.filter fun line => buckets.bucket (hashes[line]?.getD 0) = bucket) := by
    intro bucket
    refine (h.linked bucket).congr fun other hother => Function.update_of_ne ?_ _ _
    rintro rfl
    exact hline (List.mem_of_mem_filter hother)
  constructor
  · intro bucket
    simp only [hbucket]
    by_cases heq : buckets.bucket (hashes[line]?.getD 0) = bucket
    · subst heq
      rw [List.filter_cons, if_pos (decide_eq_true rfl)]
      refine ⟨Function.update_self _ _ _, ?_⟩
      have hnext : (buckets.insert hashes line).next line =
          buckets.head (buckets.bucket (hashes[line]?.getD 0)) := Function.update_self _ _ _
      rw [hnext]
      exact hkept _
    · have hhead : (buckets.insert hashes line).head bucket = buckets.head bucket :=
        Function.update_of_ne (fun h => heq h.symm) _ _
      rw [List.filter_cons_of_neg (by rw [decide_eq_false heq]; exact Bool.false_ne_true), hhead]
      exact hkept bucket
  · intro bucket
    simp only [hbucket]
    by_cases heq : buckets.bucket (hashes[line]?.getD 0) = bucket
    · subst heq
      rw [List.filter_cons, if_pos (decide_eq_true rfl)]
      rw [List.length_cons, ← h.sizes]
      exact Function.update_self _ _ _
    · rw [List.filter_cons_of_neg (by rw [decide_eq_false heq]; exact Bool.false_ne_true), ← h.sizes]
      exact Function.update_of_ne (fun h => heq h.symm) _ _

theorem holds_hashBuckets (hashes : List UInt32) (size : Nat) :
    Holds (hashBuckets hashes size) hashes (List.range hashes.length) := by
  have hfold : ∀ lines : List Nat, lines.Nodup →
      Holds (lines.foldr (fun line buckets => buckets.insert hashes line)
        { head := fun _ => none, sizes := fun _ => 0, next := fun _ => none, mask := size - 1 })
        hashes lines := by
    intro lines hnodup
    induction lines with
    | nil => exact ⟨fun _ => rfl, fun _ => rfl⟩
    | cons line lines ih =>
      rw [List.nodup_cons] at hnodup
      exact (ih hnodup.2).insert hnodup.1
  exact hfold _ List.nodup_range

/-- A lookup finds the lines with a hash, in order. -/
theorem lines_hashBuckets (hashes : List UInt32) (size : Nat) (hash : UInt32) :
    (hashBuckets hashes size).lines hash hashes =
      (List.range hashes.length).filter fun line => hashes[line]? = some hash := by
  have hholds := holds_hashBuckets hashes size
  have hle : ∀ p : Nat → Bool, ((List.range hashes.length).filter p).length ≤ hashes.length :=
    fun p => Nat.le_trans (List.length_filter_le _ _) (Nat.le_of_eq List.length_range)
  have hsame : ∀ line : Nat, decide (hashes[line]? = some hash) = true →
      decide ((hashBuckets hashes size).bucket (hashes[line]?.getD 0) =
        (hashBuckets hashes size).bucket hash) = true := by
    intro line hline
    rw [decide_eq_true_iff] at hline
    rw [hline]
    exact decide_eq_true rfl
  have hfilter : ((List.range hashes.length).filter fun line =>
        (hashBuckets hashes size).bucket (hashes[line]?.getD 0) =
          (hashBuckets hashes size).bucket hash).filter (fun line => hashes[line]? = some hash) =
      (List.range hashes.length).filter fun line => hashes[line]? = some hash := by
    rw [List.filter_filter]
    refine List.filter_congr fun line _ => ?_
    cases hline : decide (hashes[line]? = some hash) with
    | false => exact Bool.false_and _
    | true => rw [hsame line hline, Bool.true_and]
  unfold HashBuckets.lines
  rw [(hholds.linked _).chain (hle _), hfilter]
  refine List.take_of_length_le ?_
  rw [HashBuckets.count, hholds.sizes, ← hfilter]
  exact List.length_filter_le _ _

/-- A count is no less than the number of lines with the hash. -/
theorem count_hashBuckets_pos {hashes : List UInt32} {hash : UInt32} (size : Nat)
    (h : hashes[line]? = some hash) : (hashBuckets hashes size).count hash ≠ 0 := by
  rw [HashBuckets.count, (holds_hashBuckets hashes size).sizes]
  refine Nat.pos_iff_ne_zero.1 (List.length_pos_of_mem (a := line) (List.mem_filter.2 ⟨?_, ?_⟩))
  · exact List.mem_range.2 (List.getElem?_eq_some_iff.1 h).1
  · rw [h]
    exact decide_eq_true rfl

-- The file

namespace FileLines

variable {file file' : FileLines} {available available' : Nat}

theorem hashes_length (file : FileLines) : file.hashes.length = file.count := by
  rw [file.hashes_eq, lineHashes, List.length_map, List.length_range]

theorem start_eq (file : FileLines) (h : line ≤ file.count) :
    file.start line = file.starts[line]?.getD 0 := by
  have hlt : line < file.starts.length := by
    rw [file.starts_length]
    exact Nat.lt_succ_of_le h
  rw [start, Nat.min_eq_left h, List.getElem?_eq_getElem hlt]
  rfl

/-- Where a line ends, without its newline. -/
def stop (file : FileLines) (line : Nat) : Nat :=
  file.start (line + 1) - if file.newline line then 1 else 0

theorem hashes_getElem (file : FileLines) (h : line < file.count) : file.hashes[line]? =
      some (hashLine file.bytes (file.start line) (file.stop line) (file.newline line)) := by
  have hnewline : file.newline line = (decide ((file.starts[line]?.getD 0) <
      (file.starts[line + 1]?.getD 0)) &&
        file.bytes[(file.starts[line + 1]?.getD 0) - 1]? = some NEWLINE) := by
    rw [newline, file.start_eq (Nat.le_of_lt h), file.start_eq h]
  rw [file.hashes_eq, lineHashes, List.getElem?_map, List.getElem?_range h, Option.map_some]
  dsimp only
  rw [← hnewline, stop, file.start_eq (Nat.le_of_lt h), file.start_eq h]
  cases file.newline line <;> rfl

theorem hashLine_congr {bytes source : List UInt8} {start stop : Nat} {newline : Bool}
    (hlength : stop - start = source.length)
    (h : ∀ index < source.length, bytes[start + index]? = source[index]?) :
    hashLine bytes start stop newline = hashLine source 0 source.length newline := by
  unfold hashLine
  rw [hlength, Nat.sub_zero]
  refine List.foldl_ext _ _ _ fun hash index hindex => ?_
  rw [h index (List.mem_range.1 hindex), Nat.zero_add]

/-- A line that holds some bytes has their hash. -/
theorem equals_hash {source : List UInt8} {newline : Bool} (hline : line < file.count)
    (h : file.equals line source newline = true) :
    file.hashes[line]? = some (hashLine source 0 source.length newline) := by
  rw [equals, Bool.and_eq_true, Bool.and_eq_true, decide_eq_true_iff, decide_eq_true_iff,
    List.all_eq_true] at h
  obtain ⟨⟨hnewline, hlength⟩, hbytes⟩ := h
  rw [file.hashes_getElem hline, hnewline]
  refine congrArg some (hashLine_congr hlength fun index hindex => ?_)
  exact of_decide_eq_true (hbytes index (List.mem_range.2 hindex))

/-- Two states of one file: only its index may differ. -/
structure SameLines (file file' : FileLines) : Prop where
  bytes : file'.bytes = file.bytes
  count : file'.count = file.count
  starts : file'.starts = file.starts

theorem SameLines.refl (file : FileLines) : SameLines file file := ⟨rfl, rfl, rfl⟩

theorem SameLines.trans {file'' : FileLines} (h : SameLines file file') (h' : SameLines file' file'') :
    SameLines file file'' :=
  ⟨h'.bytes.trans h.bytes, h'.count.trans h.count, h'.starts.trans h.starts⟩

theorem SameLines.hashes (h : SameLines file file') : file'.hashes = file.hashes := by
  rw [file'.hashes_eq, file.hashes_eq, h.bytes, h.count, h.starts]

theorem bucketIndex_spec :
    SameLines file (file.bucketIndex available).2.1 ∧
      ∀ buckets ∈ (file.bucketIndex available).1, ∃ size, buckets = hashBuckets file.hashes size := by
  unfold bucketIndex
  split
  next buckets hbuckets =>
    refine ⟨SameLines.refl file, fun built hbuilt => ?_⟩
    cases hbuilt
    exact ⟨_, file.buckets_eq _ hbuckets⟩
  next => exact ⟨SameLines.refl file, fun _ hbuilt => nomatch hbuilt⟩
  next =>
    dsimp only
    split
    next => exact ⟨⟨rfl, rfl, rfl⟩, fun _ hbuilt => nomatch hbuilt⟩
    next =>
      refine ⟨⟨rfl, rfl, rfl⟩, fun built hbuilt => ?_⟩
      exact ⟨_, (Option.some.inj hbuilt).symm⟩

/-- A count of zero means that no line has the hash. -/
theorem occurrences_spec {hash : UInt32} :
    SameLines file (file.occurrences hash available).2.1 ∧
      ((file.occurrences hash available).1 = some 0 → ∀ line : Nat, file.hashes[line]? ≠ some hash) := by
  obtain ⟨hsame, hbuckets⟩ := @bucketIndex_spec file available
  refine ⟨hsame, fun hzero line hline => ?_⟩
  obtain ⟨buckets, hbuilt, hcounted⟩ := Option.map_eq_some_iff.1 hzero
  obtain ⟨size, rfl⟩ := hbuckets buckets hbuilt
  exact count_hashBuckets_pos size hline hcounted

/-- The lines that are looked up are all those with the hash, ascending. -/
theorem positions_spec {hash : UInt32} :
    SameLines file (file.positions hash available).2.1 ∧
      ∀ lines ∈ (file.positions hash available).1,
        lines = (List.range file.count).filter fun line => file.hashes[line]? = some hash := by
  have hspec := @bucketIndex_spec file available
  unfold positions
  generalize file.bucketIndex available = index at hspec ⊢
  obtain ⟨built, file', available'⟩ := index
  obtain ⟨hsame, hbuckets⟩ := hspec
  refine ⟨hsame, fun lines hmem => ?_⟩
  dsimp only at hmem hsame
  obtain ⟨buckets, hbuilt, hlines⟩ := Option.bind_eq_some_iff.1 hmem
  obtain ⟨size, rfl⟩ := hbuckets buckets hbuilt
  split at hlines
  next => cases hlines
  next =>
    cases hlines
    rw [hsame.hashes, lines_hashBuckets, file.hashes_length]

end FileLines

end Kompjutr.Locate
