/-
  Kompjutr.Lib.Outward

  Walking integers outwards from a guess: nearest first, and forward before backward at equal
  distance.

  The walk is the order of a rank (`rank`), so merging an ascending list with a descending one gives
  it (`pairwise_outward`), and a search along it does not depend on candidates that it rejects
  (`findSome?_ranked`).
-/
import Kompjutr.Lib.Compare

namespace Kompjutr.Outward

variable {ahead behind : Int} {positions : List Int}

variable {forward backward : List Int} {position first last : Int}

variable {α : Type} {guess : Int}

/-- Twice the distance, and one more for what is before the guess. -/
def rank (guess position : Int) : Int :=
  if guess ≤ position then 2 * (position - guess) else 2 * (guess - position) + 1

theorem rank_inj {a b : Int} (h : rank guess a = rank guess b) : a = b := by
  unfold rank at h
  split at h <;> split at h <;> omega

/-- Two lists of candidates, the one away from the guess and the other towards it. -/
def outward (guess : Int) (forward backward : List Int) : List Int :=
  List.merge forward backward fun ahead behind => ahead - guess ≤ guess - behind

theorem mem_outward :
    position ∈ outward guess forward backward ↔ position ∈ forward ∨ position ∈ backward :=
  List.mem_merge

/-- One step of a walk. -/
theorem outward_cons_left (h : ahead - guess ≤ guess - behind) :
    outward guess (ahead :: forward) (behind :: backward) =
      ahead :: outward guess forward (behind :: backward) :=
  List.cons_merge_cons_pos _ _ _ (decide_eq_true h)

theorem outward_cons_right (h : ¬ ahead - guess ≤ guess - behind) :
    outward guess (ahead :: forward) (behind :: backward) =
      behind :: outward guess (ahead :: forward) backward :=
  List.cons_merge_cons_neg _ _ _ (by rw [decide_eq_false h]; exact Bool.false_ne_true)

theorem outward_nil_right (forward : List Int) : outward guess forward [] = forward :=
  List.merge_right _

theorem outward_nil_left (backward : List Int) : outward guess [] backward = backward :=
  List.nil_merge _

-- Intervals

/-- The positions from one up to another. -/
def upTo (first last : Int) : List Int :=
  (List.range (last + 1 - first).toNat).map fun n : Nat => first + n

/-- The positions from one down to another. -/
def downTo (first last : Int) : List Int :=
  (List.range (first + 1 - last).toNat).map fun n : Nat => first - n

theorem mem_upTo : position ∈ upTo first last ↔ first ≤ position ∧ position ≤ last := by
  unfold upTo
  rw [List.mem_map]
  constructor
  · rintro ⟨n, hn, rfl⟩
    rw [List.mem_range] at hn
    omega
  · rintro ⟨hfirst, hlast⟩
    exact ⟨(position - first).toNat, List.mem_range.2 (by omega), by omega⟩

theorem mem_downTo : position ∈ downTo first last ↔ last ≤ position ∧ position ≤ first := by
  unfold downTo
  rw [List.mem_map]
  constructor
  · rintro ⟨n, hn, rfl⟩
    rw [List.mem_range] at hn
    omega
  · rintro ⟨hlast, hfirst⟩
    exact ⟨(first - position).toNat, List.mem_range.2 (by omega), by omega⟩

theorem upTo_nil (h : last < first) : upTo first last = [] := by
  unfold upTo
  rw [Int.toNat_of_nonpos (by omega)]
  rfl

theorem downTo_nil (h : first < last) : downTo first last = [] := by
  unfold downTo
  rw [Int.toNat_of_nonpos (by omega)]
  rfl

theorem upTo_cons (h : first ≤ last) : upTo first last = first :: upTo (first + 1) last := by
  unfold upTo
  rw [show (last + 1 - first).toNat = (last + 1 - (first + 1)).toNat + 1 by omega,
    List.range_succ_eq_map, List.map_cons, List.map_map]
  refine congr_arg₂ List.cons (Int.add_zero first) (List.map_congr_left fun n _ => ?_)
  rw [Function.comp_apply, Int.natCast_succ]
  omega

theorem downTo_cons (h : last ≤ first) : downTo first last = first :: downTo (first - 1) last := by
  unfold downTo
  rw [show (first + 1 - last).toNat = (first - 1 + 1 - last).toNat + 1 by omega,
    List.range_succ_eq_map, List.map_cons, List.map_map]
  refine congr_arg₂ List.cons (Int.sub_zero first) (List.map_congr_left fun n _ => ?_)
  rw [Function.comp_apply, Int.natCast_succ]
  omega

theorem pairwise_upTo (first last : Int) : (upTo first last).Pairwise (· < ·) :=
  List.pairwise_lt_range.map _ fun a b hab => by omega

theorem pairwise_downTo (first last : Int) : (downTo first last).Pairwise (· > ·) :=
  List.pairwise_lt_range.map _ fun a b hab => by omega

-- The order of a walk

/-- A walk never comes closer. -/
theorem pairwise_outward (hforward : forward.Pairwise (· < ·))
    (hbackward : backward.Pairwise (· > ·)) (hahead : ∀ position ∈ forward, guess ≤ position)
    (hbehind : ∀ position ∈ backward, position < guess) :
    (outward guess forward backward).Pairwise fun a b => rank guess a < rank guess b := by
  induction forward generalizing backward with
  | nil =>
    rw [outward_nil_left]
    refine hbackward.imp_of_mem fun {a b} ha hb hab => ?_
    have hfirst := hbehind a ha
    have hsecond := hbehind b hb
    unfold rank
    rw [if_neg (by omega), if_neg (by omega)]
    omega
  | cons ahead forward ih =>
    obtain ⟨hlt, hforward⟩ := List.pairwise_cons.1 hforward
    obtain ⟨hguess, hahead⟩ := List.forall_mem_cons.1 hahead
    have hrank : rank guess ahead = 2 * (ahead - guess) := if_pos hguess
    have hfurther : ∀ position ∈ forward, rank guess ahead < rank guess position := by
      intro position hposition
      have hafter := hlt position hposition
      rw [hrank, rank, if_pos (hahead position hposition)]
      omega
    induction backward with
    | nil =>
      rw [outward_nil_right]
      refine List.pairwise_cons.2 ⟨hfurther, ?_⟩
      have hrest := ih hforward List.Pairwise.nil hahead nofun
      rwa [outward_nil_right] at hrest
    | cons behind backward ihb =>
      have hbackward' := hbackward
      obtain ⟨hgt, hrest⟩ := List.pairwise_cons.1 hbackward
      have hbehind' := hbehind
      obtain ⟨hless, hbehinds⟩ := List.forall_mem_cons.1 hbehind
      have hrankb : rank guess behind = 2 * (guess - behind) + 1 := if_neg (by omega)
      have hdeeper : ∀ position ∈ backward, rank guess behind < rank guess position := by
        intro position hposition
        have hbefore := hgt position hposition
        have hunder := hbehinds position hposition
        rw [hrankb, rank, if_neg (by omega)]
        omega
      by_cases hstep : ahead - guess ≤ guess - behind
      · rw [outward_cons_left hstep]
        refine List.pairwise_cons.2 ⟨fun position hposition => ?_,
          ih hforward hbackward' hahead hbehind'⟩
        rcases mem_outward.1 hposition with hposition | hposition
        · exact hfurther position hposition
        · rcases List.mem_cons.1 hposition with rfl | hposition
          · omega
          · have hfar := hdeeper position hposition
            omega
      · rw [outward_cons_right hstep]
        refine List.pairwise_cons.2 ⟨fun position hposition => ?_, ihb hrest hbehinds⟩
        rcases mem_outward.1 hposition with hposition | hposition
        · rcases List.mem_cons.1 hposition with rfl | hposition
          · omega
          · have hfar := hfurther position hposition
            omega
        · exact hdeeper position hposition

/-- The positions of a list, outwards from the guess. -/
def byRank (guess : Int) (positions : List Int) : List Int :=
  Compare.sortBy (fun a b => rank guess a - rank guess b) positions

theorem pairwise_byRank (hnodup : positions.Nodup) :
    (byRank guess positions).Pairwise fun a b => rank guess a < rank guess b := by
  have hperm := @Compare.sortBy_perm _ (fun a b => rank guess a - rank guess b) positions
  have hsorted := @Compare.pairwise_sortBy _ _ positions (Compare.turns_sub (rank guess))
    (Compare.transOn_sub (rank guess))
  refine (hsorted.and (hperm.nodup_iff.2 hnodup)).imp fun ⟨hle, hne⟩ => ?_
  refine Int.lt_iff_le_and_ne.2 ⟨by omega, fun heq => hne (rank_inj heq)⟩

theorem mem_byRank : position ∈ byRank guess positions ↔ position ∈ positions :=
  (Compare.sortBy_perm positions).mem_iff

/-- Two lists in one strict order find the same, where they have the same elements that are not
    rejected. -/
theorem findSome?_ranked {β : Type} {key : α → Int} {f : α → Option β} {xs ys : List α}
    (hx : xs.Pairwise fun a b => key a < key b) (hy : ys.Pairwise fun a b => key a < key b)
    (h : ∀ a, f a ≠ none → (a ∈ xs ↔ a ∈ ys)) : xs.findSome? f = ys.findSome? f := by
  have hkept : ∀ zs : List α, zs.findSome? f = (zs.filter fun a => (f a).isSome).findSome? f := by
    intro zs
    induction zs with
    | nil => rfl
    | cons z zs ih =>
      cases hz : f z with
      | none => rw [List.findSome?_cons_of_isNone (by rw [hz]; rfl), ih,
          List.filter_cons_of_neg (by rw [hz]; exact Bool.false_ne_true)]
      | some found => rw [List.filter_cons_of_pos (by rw [hz]; rfl), List.findSome?_cons, hz,
          List.findSome?_cons, hz]
  have hmem : ∀ a, a ∈ xs.filter (fun a => (f a).isSome) ↔ a ∈ ys.filter fun a => (f a).isSome := by
    intro a
    rw [List.mem_filter, List.mem_filter]
    refine and_congr_left fun hsome => h a ?_
    intro hnone
    rw [hnone] at hsome
    cases hsome
  have hsame : xs.filter (fun a => (f a).isSome) = ys.filter fun a => (f a).isSome := by
    have hxs := hx.filter fun a => (f a).isSome
    have hys := hy.filter fun a => (f a).isSome
    refine @List.Perm.eq_of_pairwise _ (fun a b => key a < key b) _ _
      (fun a b _ _ hab hba => absurd hab (Int.not_lt.2 (Int.le_of_lt hba))) hxs hys ?_
    refine (List.perm_ext_iff_of_nodup ?_ ?_).2 hmem
    · exact hxs.imp fun hlt heq => absurd hlt (by rw [heq]; exact Int.lt_irrefl _)
    · exact hys.imp fun hlt heq => absurd hlt (by rw [heq]; exact Int.lt_irrefl _)
  rw [hkept xs, hkept ys, hsame]

end Kompjutr.Outward
