/-
  Kompjutr.Patch.LocateSound

  Both ways to search find the same (`search_eq`): what a level finds is the first start, outwards
  from the guess, whose lines are those of the hunk, byte for byte.
-/
import Kompjutr.Lib.Outward
import Kompjutr.Patch.FileLinesSound
import Kompjutr.Patch.Locate

namespace Kompjutr.Locate

open Outward
open List (all_eq_true findSome?_cons getElem?_eq_getElem mem_map)
open Bool (and_eq_true not_eq_true' or_eq_true)

variable {old behind : Nat} {decide : Int → Option Found}

variable {position : Int} {forward : Nat}

variable {file : FileLines} {pattern : Pattern} {guess floor : Int} {rules : Level} {fuzz : Nat}

-- The reference

/-- The compared lines of a hunk are those of the file, byte for byte. -/
def matchesAt (file : FileLines) (pattern : Pattern) (position : Int) (rules : Level) : Bool :=
  anchored file pattern position rules && (compared pattern rules).all fun old =>
    position.toNat + old < file.count && pattern.bytesMatch file (position.toNat + old) old

def verdictAt (file : FileLines) (pattern : Pattern) (floor : Int) (rules : Level)
    (position : Int) : Option Found :=
  if matchesAt file pattern position rules then judge pattern position rules floor else none

/-- The starts that a level allows. -/
def allowedStarts (file : FileLines) (pattern : Pattern) (guess floor : Int) (rules : Level) :
    List Int :=
  (upTo 0 ((file.count : Int) - ((pattern.length : Int) - rules.skipSuffix))).filter
    fun position => guess ≤ position ∨ max floor 0 ≤ position

/-- Compares bytes at every allowed start, outwards from the guess. -/
def searchBytes (file : FileLines) (pattern : Pattern) (guess floor : Int) (fuzz : Nat) :
    Option Found :=
  (byRank guess (allowedStarts file pattern guess floor (level pattern fuzz))).findSome?
    (verdictAt file pattern floor (level pattern fuzz))

-- Candidates

theorem hashes_of_bytesMatch {line : Nat} (hline : line < file.count)
    (h : pattern.bytesMatch file line old = true) :
    pattern.hashes[old]? ≠ none ∧ file.hashes[line]? = pattern.hashes[old]? := by
  unfold Pattern.bytesMatch at h
  rw [pattern.hashes_eq, List.getElem?_map]
  cases hhunk : pattern.lines[old]? with
  | none =>
    rw [hhunk] at h
    cases h
  | some hunkLine =>
    rw [hhunk, Option.any_some] at h
    exact ⟨Option.some_ne_none _, FileLines.equals_hash hline h⟩

/-- Comparing hashes first rejects nothing that the bytes accept. -/
theorem fits_eq_matchesAt (position : Int) :
    fits file pattern position rules = matchesAt file pattern position rules := by
  unfold fits matchesAt
  rw [Bool.and_assoc]
  refine congrArg _ ?_
  rw [Bool.eq_iff_iff, and_eq_true, all_eq_true, all_eq_true, all_eq_true]
  constructor
  · rintro ⟨hhashes, hbytes⟩ old hold
    have hhash := hhashes old hold
    rw [not_eq_true', Bool.or_eq_false_iff, decide_eq_false_iff_not] at hhash
    rw [and_eq_true, decide_eq_true_iff]
    exact ⟨Nat.lt_of_not_le hhash.1, hbytes old hold⟩
  · intro hall
    refine ⟨fun old hold => ?_, fun old hold => ?_⟩
    · have hline := hall old hold
      rw [and_eq_true, decide_eq_true_iff] at hline
      rw [not_eq_true', Bool.or_eq_false_iff, decide_eq_false_iff_not, decide_eq_false_iff_not,
        not_not]
      exact ⟨Nat.not_le_of_lt hline.1, (hashes_of_bytesMatch hline.1 hline.2).2⟩
    · have hline := hall old hold
      rw [and_eq_true] at hline
      exact hline.2

theorem mem_allowedStarts : position ∈ allowedStarts file pattern guess floor rules ↔ 0 ≤ position ∧
      position ≤ (file.count : Int) - ((pattern.length : Int) - rules.skipSuffix) ∧
      (guess ≤ position ∨ max floor 0 ≤ position) := by
  unfold allowedStarts
  rw [List.mem_filter, mem_upTo, decide_eq_true_iff, and_assoc]

/-- A candidate is decided by its bytes, where it is allowed. -/
theorem decideAt_of_mem (h : position ∈ allowedStarts file pattern guess floor rules) :
    decideAt file pattern guess floor rules position =
      verdictAt file pattern floor rules position := by
  obtain ⟨hzero, hlast, hside⟩ := mem_allowedStarts.1 h
  unfold decideAt verdictAt
  dsimp only
  rw [fits_eq_matchesAt, decide_eq_true hzero, decide_eq_true hlast]
  have hguess : (decide (guess ≤ position) || decide (max floor 0 ≤ position)) = true := by
    rw [or_eq_true, decide_eq_true_iff, decide_eq_true_iff]
    exact hside
  rw [hguess]
  cases matchesAt file pattern position rules <;> rfl

theorem mem_of_decideAt (h : decideAt file pattern guess floor rules position ≠ none) :
    position ∈ allowedStarts file pattern guess floor rules ∧
      matchesAt file pattern position rules = true := by
  have hall : ¬ (!(decide (0 ≤ position) && decide (position ≤
      (file.count : Int) - ((pattern.length : Int) - rules.skipSuffix)) &&
      (decide (guess ≤ position) || decide (max floor 0 ≤ position))) ||
      !fits file pattern position rules) = true := fun hnot => h (if_pos hnot)
  rw [or_eq_true, not_or, not_eq_true', not_eq_true', Bool.not_eq_false,
    Bool.not_eq_false, and_eq_true, and_eq_true, or_eq_true, decide_eq_true_iff,
    decide_eq_true_iff, decide_eq_true_iff, decide_eq_true_iff, fits_eq_matchesAt] at hall
  obtain ⟨⟨⟨hzero, hlast⟩, hside⟩, hmatches⟩ := hall
  exact ⟨mem_allowedStarts.2 ⟨hzero, hlast, hside⟩, hmatches⟩

/-- Any walk outwards that meets the starts that match finds what the bytes find. -/
theorem findSome?_decideAt {walk : List Int}
    (hwalk : walk.Pairwise fun a b => rank guess a < rank guess b)
    (hmeets : ∀ position, decideAt file pattern guess floor (level pattern fuzz) position ≠ none →
      position ∈ walk) :
    walk.findSome? (decideAt file pattern guess floor (level pattern fuzz)) =
      searchBytes file pattern guess floor fuzz := by
  have hnodup : (allowedStarts file pattern guess floor (level pattern fuzz)).Nodup :=
    ((pairwise_upTo _ _).imp fun hlt heq => absurd hlt (by rw [heq]; exact Int.lt_irrefl _)).filter _
  rw [findSome?_ranked hwalk (pairwise_byRank hnodup) fun position hsome =>
    iff_of_true (hmeets position hsome) (mem_byRank.2 (mem_of_decideAt hsome).1)]
  rw [searchBytes, ← List.head?_filterMap, ← List.head?_filterMap,
    List.filterMap_congr fun position hposition => decideAt_of_mem (mem_byRank.1 hposition)]

-- Every start

theorem nearestFrom_eq {lowest last : Int} {forward backward : Int} :
    nearestFrom guess lowest last decide forward backward =
      (outward guess (upTo forward last) (downTo backward lowest)).findSome? decide := by
  induction forward, backward using nearestFrom.induct guess lowest last decide with
  | case1 forward backward h hforward found hfound =>
    rw [nearestFrom, dif_pos h, dif_pos hforward, hfound, upTo_cons hforward.1]
    by_cases hbackward : lowest ≤ backward
    · rw [downTo_cons hbackward, outward_cons_left (hforward.2 hbackward), findSome?_cons, hfound]
    · rw [downTo_nil (Int.not_le.1 hbackward), outward_nil_right, findSome?_cons, hfound]
  | case2 forward backward h hforward hnone ih =>
    rw [nearestFrom, dif_pos h, dif_pos hforward, hnone, upTo_cons hforward.1]
    dsimp only
    rw [ih]
    by_cases hbackward : lowest ≤ backward
    · rw [downTo_cons hbackward, outward_cons_left (hforward.2 hbackward), findSome?_cons, hnone]
    · rw [downTo_nil (Int.not_le.1 hbackward), outward_nil_right, outward_nil_right,
        findSome?_cons, hnone]
  | case3 forward backward h hforward found hfound =>
    have hbackward : lowest ≤ backward := by omega
    rw [nearestFrom, dif_pos h, dif_neg hforward, hfound, downTo_cons hbackward]
    by_cases hlast : forward ≤ last
    · rw [upTo_cons hlast, outward_cons_right (by omega), findSome?_cons, hfound]
    · rw [upTo_nil (Int.not_le.1 hlast), outward_nil_left, findSome?_cons, hfound]
  | case4 forward backward h hforward hnone ih =>
    have hbackward : lowest ≤ backward := by omega
    rw [nearestFrom, dif_pos h, dif_neg hforward, hnone, downTo_cons hbackward]
    dsimp only
    rw [ih]
    by_cases hlast : forward ≤ last
    · rw [upTo_cons hlast, outward_cons_right (by omega), findSome?_cons, hnone]
    · rw [upTo_nil (Int.not_le.1 hlast), outward_nil_left, outward_nil_left, findSome?_cons,
        hnone]
  | case5 forward backward h =>
    rw [nearestFrom, dif_neg h, upTo_nil (by omega), downTo_nil (by omega),
      outward_nil_left]
    rfl

/-- Without an index every start is tried. -/
theorem nearest_eq :
    nearest guess (max floor 0)
        ((file.count : Int) - ((pattern.length : Int) - (level pattern fuzz).skipSuffix))
        (decideAt file pattern guess floor (level pattern fuzz)) =
      searchBytes file pattern guess floor fuzz := by
  rw [nearest, nearestFrom_eq]
  refine findSome?_decideAt (pairwise_outward (pairwise_upTo _ _) (pairwise_downTo _ _)
    (fun position hposition => ?_) fun position hposition => ?_) fun position hsome => ?_
  · have hmem := mem_upTo.1 hposition
    omega
  · have hmem := mem_downTo.1 hposition
    omega
  · obtain ⟨hzero, hlast, hside⟩ := mem_allowedStarts.1 (mem_of_decideAt hsome).1
    rw [mem_outward, mem_upTo, mem_downTo]
    omega

-- The starts of the index

variable {lines : List Nat} {probe : Nat}

theorem startOf_le (hlines : lines.Pairwise (· < ·)) {i j : Nat} (hij : i ≤ j)
    (hj : j < lines.length) : startOf lines probe i ≤ startOf lines probe j := by
  unfold startOf
  rw [getElem?_eq_getElem hj, getElem?_eq_getElem (Nat.lt_of_le_of_lt hij hj)]
  rcases Nat.lt_or_eq_of_le hij with hlt | rfl
  · have hless := List.pairwise_iff_getElem.1 hlines i j (Nat.lt_trans hlt hj) hj hlt
    rw [Option.getD_some, Option.getD_some]
    omega
  · exact Int.le_refl _

/-- The binary search splits the lines at the guess. -/
theorem bisect_spec (hlines : lines.Pairwise (· < ·)) {low high : Nat} (hle : low ≤ high)
    (hhigh : high ≤ lines.length) (hbelow : ∀ i < low, startOf lines probe i < guess)
    (habove : ∀ i, high ≤ i → i < lines.length → guess ≤ startOf lines probe i) :
    bisect lines probe guess low high ≤ lines.length ∧
      (∀ i < bisect lines probe guess low high, startOf lines probe i < guess) ∧
      ∀ i, bisect lines probe guess low high ≤ i → i < lines.length →
        guess ≤ startOf lines probe i := by
  induction low, high using bisect.induct lines probe guess with
  | case1 low high h middle hless ih =>
    rw [bisect, dif_pos h]
    dsimp only
    rw [if_pos hless]
    refine ih (by omega) hhigh (fun i hi => ?_) habove
    exact Int.lt_of_le_of_lt (startOf_le hlines (Nat.le_of_lt_succ hi) (by omega)) hless
  | case2 low high h middle hless ih =>
    rw [bisect, dif_pos h]
    dsimp only
    rw [if_neg hless]
    refine ih (by omega) (by omega) hbelow fun i hi hlt => ?_
    exact Int.le_trans (Int.not_lt.1 hless) (startOf_le hlines hi hlt)
  | case3 low high h =>
    rw [bisect, dif_neg h]
    exact ⟨Nat.le_trans hle hhigh, hbelow, fun i hi hlt => habove i (by omega) hlt⟩

/-- The starts from a line on. -/
def startsAhead (lines : List Nat) (probe forward : Nat) : List Int :=
  (lines.drop forward).map fun line : Nat => (line : Int) - probe

/-- The starts before a line, downwards. -/
def startsBehind (lines : List Nat) (probe behind : Nat) : List Int :=
  (lines.take behind).reverse.map fun line : Nat => (line : Int) - probe

theorem startsAhead_cons (h : forward < lines.length) : startsAhead lines probe forward =
      startOf lines probe forward :: startsAhead lines probe (forward + 1) := by
  unfold startsAhead startOf
  rw [List.drop_eq_getElem_cons h, getElem?_eq_getElem h]
  rfl

theorem startsAhead_nil (h : lines.length ≤ forward) : startsAhead lines probe forward = [] := by
  unfold startsAhead
  rw [List.drop_eq_nil_of_le h]
  rfl

theorem startsBehind_cons (h : behind + 1 ≤ lines.length) : startsBehind lines probe (behind + 1) =
      startOf lines probe behind :: startsBehind lines probe behind := by
  unfold startsBehind startOf
  rw [List.take_succ_eq_append_getElem h, List.reverse_append, getElem?_eq_getElem h]
  rfl

theorem nearestOfFrom_eq (hbehind : behind ≤ lines.length) :
    nearestOfFrom lines probe guess decide forward behind =
      (outward guess (startsAhead lines probe forward) (startsBehind lines probe behind)).findSome?
        decide := by
  induction forward, behind using nearestOfFrom.induct lines probe guess decide with
  | case1 forward behind h found hfound =>
    rw [nearestOfFrom, dif_pos h, hfound, startsAhead_cons h.1]
    cases behind with
    | zero =>
      have hnil : startsBehind lines probe 0 = [] := rfl
      rw [hnil, outward_nil_right, findSome?_cons, hfound]
    | succ behind =>
      have hstep := h.2.resolve_left (Nat.succ_ne_zero behind)
      rw [Nat.add_sub_cancel] at hstep
      rw [startsBehind_cons hbehind, outward_cons_left hstep, findSome?_cons, hfound]
  | case2 forward behind h hnone ih =>
    rw [nearestOfFrom, dif_pos h, hnone, startsAhead_cons h.1]
    dsimp only
    rw [ih hbehind]
    cases behind with
    | zero =>
      have hnil : startsBehind lines probe 0 = [] := rfl
      rw [hnil, outward_nil_right, outward_nil_right, findSome?_cons, hnone]
    | succ behind =>
      have hstep := h.2.resolve_left (Nat.succ_ne_zero behind)
      rw [Nat.add_sub_cancel] at hstep
      rw [startsBehind_cons hbehind, outward_cons_left hstep, findSome?_cons, hnone]
  | case3 forward behind h hsome found hfound =>
    rw [nearestOfFrom, dif_neg h, dif_pos hsome, hfound]
    obtain ⟨behind, rfl⟩ := Nat.exists_eq_succ_of_ne_zero hsome
    rw [Nat.succ_sub_one] at hfound
    rw [startsBehind_cons hbehind]
    by_cases hforward : forward < lines.length
    · have hstep := (not_or.1 fun hor => h ⟨hforward, hor⟩).2
      rw [Nat.succ_sub_one] at hstep
      rw [startsAhead_cons hforward, outward_cons_right hstep, findSome?_cons, hfound]
    · rw [startsAhead_nil (Nat.not_lt.1 hforward), outward_nil_left, findSome?_cons, hfound]
  | case4 forward behind h hsome hnone ih =>
    rw [nearestOfFrom, dif_neg h, dif_pos hsome, hnone]
    dsimp only
    rw [ih (by omega)]
    obtain ⟨behind, rfl⟩ := Nat.exists_eq_succ_of_ne_zero hsome
    rw [Nat.succ_sub_one] at hnone ⊢
    rw [startsBehind_cons hbehind]
    by_cases hforward : forward < lines.length
    · have hstep := (not_or.1 fun hor => h ⟨hforward, hor⟩).2
      rw [Nat.succ_sub_one] at hstep
      rw [startsAhead_cons hforward, outward_cons_right hstep, findSome?_cons, hnone]
    · rw [startsAhead_nil (Nat.not_lt.1 hforward), outward_nil_left, outward_nil_left,
        findSome?_cons, hnone]
  | case5 forward behind h hzero =>
    obtain rfl : behind = 0 := not_not.1 hzero
    have hnil : startsBehind lines probe 0 = [] := rfl
    have hforward : ¬ forward < lines.length := fun hlt => h ⟨hlt, Or.inl rfl⟩
    rw [nearestOfFrom, dif_neg h, dif_neg hzero, startsAhead_nil (Nat.not_lt.1 hforward), hnil,
      outward_nil_left]
    rfl

/-- The walk over the lines of the index goes outwards. -/
theorem pairwise_starts (hlines : lines.Pairwise (· < ·)) :
    (outward guess (startsAhead lines probe (bisect lines probe guess 0 lines.length))
      (startsBehind lines probe (bisect lines probe guess 0 lines.length))).Pairwise
        fun a b => rank guess a < rank guess b := by
  obtain ⟨hle, hbelow, habove⟩ := @bisect_spec guess _ probe hlines _ _
    (Nat.zero_le lines.length) (Nat.le_refl _) (fun i hi => absurd hi (Nat.not_lt_zero i))
    fun i hi hlt => absurd hlt (Nat.not_lt_of_le hi)
  refine pairwise_outward ?_ ?_ (fun position hposition => ?_) fun position hposition => ?_
  · exact (hlines.drop).map _ fun a b hab => by omega
  · exact (List.pairwise_reverse.2 (hlines.take)).map _ fun a b hab => by omega
  · obtain ⟨line, hline, rfl⟩ := mem_map.1 hposition
    obtain ⟨i, hi, rfl⟩ := List.mem_drop_iff_getElem.1 hline
    have hat := habove _ (Nat.le_add_right _ i) (by omega)
    rwa [startOf, getElem?_eq_getElem (by omega)] at hat
  · obtain ⟨line, hline, rfl⟩ := mem_map.1 hposition
    rw [List.mem_reverse] at hline
    obtain ⟨i, hi, rfl⟩ := List.mem_take_iff_getElem.1 hline
    have hat := hbelow i (by omega)
    rwa [startOf, getElem?_eq_getElem (by omega)] at hat

theorem mem_starts {split : Nat} (h : position + probe ∈ lines.map Int.ofNat) :
    position ∈ outward guess (startsAhead lines probe split) (startsBehind lines probe split) := by
  obtain ⟨line, hline, heq⟩ := mem_map.1 h
  have hposition : (line : Int) - probe = position := by
    rw [Int.ofNat_eq_natCast] at heq
    omega
  rw [mem_outward]
  rw [← List.take_append_drop split lines, List.mem_append] at hline
  refine hline.symm.imp (fun hmem => ?_) fun hmem => ?_
  · exact mem_map.2 ⟨line, hmem, hposition⟩
  · exact mem_map.2 ⟨line, List.mem_reverse.2 hmem, hposition⟩

/-- With an index the starts of one compared line are tried. -/
theorem nearestOf_eq (hprobe : probe ∈ compared pattern (level pattern fuzz)) {hash : UInt32}
    (hhash : pattern.hashes[probe]?.getD 0 = hash)
    (hlines : lines = (List.range file.count).filter fun line => file.hashes[line]? = some hash) :
    nearestOf lines probe guess (decideAt file pattern guess floor (level pattern fuzz)) =
      searchBytes file pattern guess floor fuzz := by
  have hsorted : lines.Pairwise (· < ·) := by
    rw [hlines]
    exact List.pairwise_lt_range.filter _
  have hle : bisect lines probe guess 0 lines.length ≤ lines.length :=
    (bisect_spec hsorted (Nat.zero_le _) (Nat.le_refl _)
      (fun i hi => absurd hi (Nat.not_lt_zero i))
      fun i hi hlt => absurd hlt (Nat.not_lt_of_le hi)).1
  rw [nearestOf, nearestOfFrom_eq hle]
  refine findSome?_decideAt (pairwise_starts hsorted) fun position hsome => mem_starts ?_
  obtain ⟨hallowed, hmatches⟩ := mem_of_decideAt hsome
  have hzero := (mem_allowedStarts.1 hallowed).1
  rw [matchesAt, and_eq_true, all_eq_true] at hmatches
  have hline := hmatches.2 probe hprobe
  rw [and_eq_true, decide_eq_true_iff] at hline
  obtain ⟨hne, heq⟩ := hashes_of_bytesMatch hline.1 hline.2
  refine mem_map.2 ⟨position.toNat + probe, ?_, by rw [Int.ofNat_eq_natCast]; omega⟩
  rw [hlines, List.mem_filter]
  refine ⟨List.mem_range.2 hline.1, decide_eq_true ?_⟩
  rw [heq]
  obtain ⟨found, hfound⟩ := Option.ne_none_iff_exists'.1 hne
  rw [hfound, Option.getD_some] at hhash
  rw [hfound, hhash]

-- The rarest line

/-- What the loop over the old lines leaves: one of them, and none that no line of the file has. -/
theorem rarest_spec {olds : List Nat} {start : Probe} {available : Nat} :
    FileLines.SameLines file (rarest pattern start olds file available).2.1 ∧
      ∀ found ∈ (rarest pattern start olds file available).1,
        (found.line = start.line ∨ found.line ∈ olds) ∧
          (found.fewest = some 0 → start.fewest = some 0 ∨ ∃ old ∈ olds, ∀ line : Nat,
            file.hashes[line]? ≠ some (pattern.hashes[old]?.getD 0)) := by
  induction olds generalizing start file available with
  | nil =>
    refine ⟨FileLines.SameLines.refl file, fun found hfound => ?_⟩
    cases hfound
    exact ⟨Or.inl rfl, Or.inl⟩
  | cons old olds ih =>
    have hspec := @FileLines.occurrences_spec file available (pattern.hashes[old]?.getD 0)
    rw [rarest]
    generalize file.occurrences (pattern.hashes[old]?.getD 0) available = answer at hspec ⊢
    obtain ⟨counted, file', available'⟩ := answer
    obtain ⟨hsame, hzero⟩ := hspec
    dsimp only at hsame hzero
    cases counted with
    | none => exact ⟨hsame, fun _ hfound => nomatch hfound⟩
    | some count =>
      obtain ⟨hsame', hrest⟩ := @ih file'
        (if start.fewest.all (count < ·) then { line := old, fewest := some count } else start)
        available'
      refine ⟨hsame.trans hsame', fun found hfound => ?_⟩
      obtain ⟨hline, hfewest⟩ := hrest found hfound
      refine ⟨?_, fun hempty => ?_⟩
      · split at hline
        next => exact Or.inr (List.mem_cons.2 (hline.imp id id))
        next => exact hline.imp id (List.mem_cons_of_mem _)
      · rcases hfewest hempty with hstart | ⟨other, hother, hno⟩
        · split at hstart
          next =>
            rw [Option.some.injEq] at hstart
            subst hstart
            exact Or.inr ⟨old, List.mem_cons_self, hzero rfl⟩
          next => exact Or.inl hstart
        · rw [hsame.hashes] at hno
          exact Or.inr ⟨other, List.mem_cons_of_mem _ hother, hno⟩

/-- Where no line of the file has the hash of a compared line, nothing matches. -/
theorem searchBytes_none (hold : old ∈ compared pattern (level pattern fuzz))
    (hno : ∀ line : Nat, file.hashes[line]? ≠ some (pattern.hashes[old]?.getD 0)) :
    searchBytes file pattern guess floor fuzz = none := by
  refine List.findSome?_eq_none_iff.2 fun position _ => if_neg fun hmatches => ?_
  rw [matchesAt, and_eq_true, all_eq_true] at hmatches
  have hline := hmatches.2 old hold
  rw [and_eq_true, decide_eq_true_iff] at hline
  obtain ⟨hne, heq⟩ := hashes_of_bytesMatch hline.1 hline.2
  obtain ⟨found, hfound⟩ := Option.ne_none_iff_exists'.1 hne
  refine hno (position.toNat + old) ?_
  rw [heq, hfound]
  rfl

-- Search

/-- A hunk that sits against an edge of the file has one start. -/
theorem anchored_eq {start : Int} (hanchor : ∀ position,
    anchored file pattern position (level pattern fuzz) = true → position = start) :
    decideAt file pattern guess floor (level pattern fuzz) start =
      searchBytes file pattern guess floor fuzz := by
  have hsingle := @findSome?_decideAt file pattern guess floor fuzz [start]
    (List.pairwise_singleton _ _) fun position hsome => by
      have hmatches := (mem_of_decideAt hsome).2
      rw [matchesAt, and_eq_true] at hmatches
      exact List.mem_singleton.2 (hanchor position hmatches.1)
  rw [← hsingle, List.findSome?_singleton]

theorem anchorStart_position (hstart : rules.anchorStart = true)
    (h : anchored file pattern position rules = true) : position = 0 := by
  unfold anchored at h
  rw [and_eq_true, and_eq_true, hstart, Bool.true_and, not_eq_true',
    decide_eq_false_iff_not, not_not] at h
  exact h.1.2

theorem anchorEnd_position (hend : rules.anchorEnd = true)
    (h : anchored file pattern position rules = true) :
    position = (file.count : Int) - pattern.length := by
  unfold anchored at h
  rw [and_eq_true, hend, Bool.true_and, not_eq_true', decide_eq_false_iff_not,
    not_not] at h
  omega

/-- Whatever the index holds and the budget has left, a level finds what comparing bytes at every
    allowed start finds, and leaves the lines of the file as they are. -/
theorem search_eq (file : FileLines) (pattern : Pattern) (guess floor : Int) (fuzz available : Nat) :
    (search file pattern guess floor fuzz available).1 =
        searchBytes file pattern guess floor fuzz ∧
      FileLines.SameLines file (search file pattern guess floor fuzz available).2.1 := by
  unfold search
  dsimp only
  split
  next hanchor =>
    refine ⟨?_, FileLines.SameLines.refl file⟩
    cases hstart : (level pattern fuzz).anchorStart with
    | true => exact anchored_eq fun position => anchorStart_position hstart
    | false =>
      rw [hstart, Bool.false_or] at hanchor
      exact anchored_eq fun position => anchorEnd_position hanchor
  next =>
    split
    next => exact ⟨nearest_eq, FileLines.SameLines.refl file⟩
    next hcompared =>
      have hspec := @rarest_spec file pattern (compared pattern (level pattern fuzz))
        { line := (level pattern fuzz).skipPrefix, fewest := none } available
      generalize rarest pattern { line := (level pattern fuzz).skipPrefix, fewest := none }
        (compared pattern (level pattern fuzz)) file available = answer at hspec ⊢
      obtain ⟨answer, file', available'⟩ := answer
      obtain ⟨hsame, hfound⟩ := hspec
      dsimp only at hsame hfound
      cases answer with
      | none => exact ⟨nearest_eq, hsame⟩
      | some found =>
        obtain ⟨hline, hfewest⟩ := hfound found rfl
        have hprobe : found.line ∈ compared pattern (level pattern fuzz) := by
          rcases hline with hline | hline
          · -- The first compared line, where no later one is rarer.
            have hlength := List.length_pos_of_ne_nil hcompared
            rw [compared, List.length_range'] at hlength
            rw [hline, compared, List.mem_range'_1]
            omega
          · exact hline
        dsimp only
        split
        next hzero =>
          obtain ⟨old, hold, hno⟩ := (hfewest hzero).resolve_left (fun h => nomatch h)
          exact ⟨(searchBytes_none hold hno).symm, hsame⟩
        next =>
          have hpositions := @FileLines.positions_spec file' available'
            (pattern.hashes[found.line]?.getD 0)
          generalize file'.positions (pattern.hashes[found.line]?.getD 0) available' = looked
            at hpositions ⊢
          obtain ⟨looked, file'', available''⟩ := looked
          obtain ⟨hsame', hlines⟩ := hpositions
          cases looked with
          | none => exact ⟨nearest_eq, hsame.trans hsame'⟩
          | some lines =>
            refine ⟨nearestOf_eq hprobe rfl ?_, hsame.trans hsame'⟩
            rw [hlines lines rfl, hsame.hashes, hsame.count]

end Kompjutr.Locate
