/-
  Kompjutr.Diff.SearchSound

  `findSplit` always answers, with a point inside its box that is neither of
  its corners (`findSplit_settles`), so both boxes `compare` recurses into are
  strictly smaller.

  The two k-vectors are fronts in the sense of `Lib.Frontier`: the forward one
  on the box, the backward one on its mirror image.  The vectors' sentinels
  (`-1` and `LINE_MAX`) never win against a real neighbour, so one pass of a
  turn is one `Next` step (`Next.of_widened`).  When the corners'
  diagonals differ by an odd number the forward pass checks for a crossing,
  otherwise the backward pass does; `ScanInv` is what a turn preserves in
  either case.
-/
import Kompjutr.Diff.Search
import Kompjutr.Lib.Frontier
import Mathlib.Data.List.Nodup

namespace Kompjutr.Diff

open Kompjutr.Fuel Kompjutr.Frontier
open Int (neg_neg)

variable {f' : Front} {plo phi : Int} {forward backward : Diagonals}

variable {lo hi d cost : Int} {r : Region} {s t : Scan} {env : Environment} {f : Front}

-- The k-vectors

namespace Diagonals

/-- The diagonals `lo .. hi` lie inside the vector. -/
def Covers (v : Diagonals) (lo hi : Int) : Prop :=
  0 ≤ lo + v.offset ∧ hi + v.offset < v.values.length

theorem get_set {v : Diagonals} {lo hi d : Int} (hv : v.Covers lo hi) (hlo : lo ≤ d)
    (hhi : d ≤ hi) (x e : Int) : (v.set d x).get e = if e = d then x else v.get e := by
  obtain ⟨h0, h1⟩ := hv
  have hset : v.set d x = { v with values := v.values.set (d + v.offset).toNat x } :=
    if_pos (by omega)
  rw [hset]
  unfold get readAt
  by_cases hed : e = d
  · subst hed
    have hlt : (e + v.offset).toNat < v.values.length := by omega
    simp [show 0 ≤ e + v.offset by omega, hlt]
  · rw [if_neg hed]
    dsimp only
    split
    · rw [List.getElem?_set_ne (by omega)]
    · rfl

theorem set_covers {v : Diagonals} {lo hi : Int} (hv : v.Covers lo hi) (d x : Int) :
    (v.set d x).Covers lo hi := by
  unfold set
  split
  · exact ⟨hv.1, by simpa using hv.2⟩
  · exact hv

theorem ofSize_covers {size : Nat} {offset lo hi : Int} (hlo : 0 ≤ lo + offset)
    (hhi : hi + offset < size) : (ofSize size offset).Covers lo hi :=
  ⟨hlo, by simpa [ofSize] using hhi⟩

end Diagonals

theorem mem_diagonalsDown {max min d : Int} :
    d ∈ diagonalsDown max min ↔ min ≤ d ∧ d ≤ max ∧ (max - d) % 2 = 0 := by
  simp only [diagonalsDown, List.mem_map, List.mem_range]
  constructor
  · rintro ⟨k, hk, rfl⟩
    omega
  · rintro ⟨h1, h2, h3⟩
    exact ⟨((max - d) / 2).toNat, by omega, by omega⟩

theorem nodup_diagonalsDown (max min : Int) : (diagonalsDown max min).Nodup := by
  refine List.Nodup.map_on ?_ List.nodup_range
  intro a _ b _ hab
  omega

-- Snakes

namespace Region

/-- The box the two searches run in. -/
def box (r : Region) : Box := ⟨r.off1, r.lim1, r.off2, r.lim2⟩

def Same (r : Region) (x y : Int) : Prop := r.sameAt x y = true

/-- The matching relation seen from the far corner. -/
def MirrorSame (r : Region) (x y : Int) : Prop := r.sameAt (-x - 1) (-y - 1) = true

end Region

theorem slideForward_slide (r : Region) (d : Int) (n : Nat) (x : Int) :
    Frontier.Slide r.box r.Same d x (slideForward r d n x) := by
  induction n generalizing x with
  | zero => exact ⟨by simp [slideForward], fun h => by simp [slideForward] at h⟩
  | succ n ih =>
    simp only [slideForward]
    split
    · rename_i hcond
      obtain ⟨h1, h2, hsame⟩ := hcond
      obtain ⟨hle, hslide⟩ := ih (x + 1)
      refine ⟨by omega, fun _ => ?_⟩
      by_cases hmove : x + 1 < slideForward r d n (x + 1)
      · exact hslide hmove
      · have heq : slideForward r d n (x + 1) = x + 1 := by omega
        have e1 : x + 1 - 1 = x := by omega
        rw [heq, e1]
        exact ⟨by simp only [Region.box]; omega, by simp only [Region.box]; omega, hsame⟩
    · exact ⟨by omega, fun h => by omega⟩

/-- The backward snake, read in the mirrored box. -/
theorem slideBackward_slide (r : Region) (d : Int) (n : Nat) (x : Int) :
    Frontier.Slide r.box.mirror r.MirrorSame (-d) (-x) (-slideBackward r d n x) := by
  induction n generalizing x with
  | zero => exact ⟨by simp [slideBackward], fun h => by simp [slideBackward] at h⟩
  | succ n ih =>
    simp only [slideBackward]
    split
    · rename_i hcond
      obtain ⟨h1, h2, hsame⟩ := hcond
      obtain ⟨hle, hslide⟩ := ih (x - 1)
      refine ⟨by omega, fun _ => ?_⟩
      by_cases hmove : -(x - 1) < -slideBackward r d n (x - 1)
      · exact hslide hmove
      · have heq : slideBackward r d n (x - 1) = x - 1 := by omega
        have e1 : -(-(x - 1) - 1) - 1 = x - 1 := by omega
        have e2 : -(-(x - 1) - 1 - -d) - 1 = x - d - 1 := by omega
        simp only [heq, Region.MirrorSame, e1, e2, Region.box, Box.mirror]
        exact ⟨by omega, by omega, hsame⟩
    · exact ⟨by omega, fun h => by omega⟩

-- One pass

theorem forwardReach_congr (h1 : s.forward.get (d - 1) = t.forward.get (d - 1))
    (h2 : s.forward.get (d + 1) = t.forward.get (d + 1)) :
    forwardReach r s d = forwardReach r t d := by
  simp only [forwardReach, forwardEntry, h1, h2]

theorem backwardReach_congr (h1 : s.backward.get (d - 1) = t.backward.get (d - 1))
    (h2 : s.backward.get (d + 1) = t.backward.get (d + 1)) :
    backwardReach r s d = backwardReach r t d := by
  simp only [backwardReach, backwardEntry, h1, h2]

/-- A pass over a vector, with the crossing it stops at. -/
def sweep (reach : Diagonals → Int → Int) (crosses : Int → Int → Prop)
    [∀ d x, Decidable (crosses d x)] : List Int → Diagonals → Diagonals × Option (Int × Int)
  | [], v => (v, none)
  | d :: rest, v =>
    if crosses d (reach v d) then (v.set d (reach v d), some (d, reach v d))
    else sweep reach crosses rest (v.set d (reach v d))

/-- What a pass over `ds` does, in terms of the vector it started from: the diagonals of one
    pass only read their neighbours, which it does not write. -/
theorem sweep_spec (reach : Diagonals → Int → Int) (crosses : Int → Int → Prop)
    [∀ d x, Decidable (crosses d x)] (par : Int) (hlocal : ∀ v w d,
      v.get (d - 1) = w.get (d - 1) → v.get (d + 1) = w.get (d + 1) → reach v d = reach w d) :
    ∀ (ds : List Int) (v : Diagonals), v.Covers lo hi → ds.Nodup →
    (∀ d ∈ ds, lo ≤ d ∧ d ≤ hi ∧ d % 2 = par) →
    ∃ v' found, sweep reach crosses ds v = (v', found) ∧ v'.Covers lo hi ∧
      match found with
      | some (d, x) => d ∈ ds ∧ x = reach v d ∧ crosses d x
      | none => (∀ e, v'.get e = if e ∈ ds then reach v e else v.get e) ∧
          ∀ d ∈ ds, ¬crosses d (reach v d) := by
  intro ds
  induction ds with
  | nil => exact fun v hv _ _ => ⟨v, none, rfl, hv, fun e => by simp, fun d hd => by simp at hd⟩
  | cons d rest ih =>
    intro v hv hnodup hrange
    obtain ⟨hlo, hhi, hpar⟩ := hrange d (by simp)
    obtain ⟨hnotin, hnodup'⟩ := List.nodup_cons.1 hnodup
    have hv' := Diagonals.set_covers hv d (reach v d)
    have hget := Diagonals.get_set hv hlo hhi (reach v d)
    rw [sweep]
    split
    · rename_i hcross
      exact ⟨_, _, rfl, hv', by simp, rfl, hcross⟩
    · rename_i hcross
      obtain ⟨v', found, heq, hcov, hout⟩ :=
        ih _ hv' hnodup' (fun e he => hrange e (by simp [he]))
      have hreach : ∀ e ∈ rest, reach (v.set d (reach v d)) e = reach v e := by
        intro e he
        have hp := (hrange e (by simp [he])).2.2
        refine hlocal _ _ e ?_ ?_
        · rw [hget, if_neg (by omega)]
        · rw [hget, if_neg (by omega)]
      refine ⟨v', found, heq, hcov, ?_⟩
      cases found with
      | some crossing =>
        obtain ⟨he, hx, hcrosses⟩ := hout
        exact ⟨by simp [he], hx.trans (hreach _ he), hcrosses⟩
      | none =>
        obtain ⟨hvals, hapart⟩ := hout
        refine ⟨fun e => ?_, fun e he => ?_⟩
        · rw [hvals e]
          by_cases he : e ∈ rest
          · simp only [he, if_true, List.mem_cons, or_true, hreach e he]
          · simp only [he, if_false, List.mem_cons, or_false, hget]
            split <;> simp_all
        · rcases List.mem_cons.1 he with rfl | he
          · exact hcross
          · rw [← hreach e he]
            exact hapart e he

theorem forwardPass_eq (r : Region) (env : Environment) (ds : List Int) (s : Scan) (saw : Bool) :
    ∃ saw', forwardPass r env ds s saw =
      let out := sweep (fun v d => forwardReach r { s with forward := v } d)
        (fun d x => r.odd ∧ s.backwardMin ≤ d ∧ d ≤ s.backwardMax ∧ s.backward.get d ≤ x) ds
        s.forward
      ({ s with forward := out.1 }, match out.2 with
        | some (d, x) => .inl { i1 := x, i2 := x - d, minimalLow := true, minimalHigh := true }
        | none => .inr saw') := by
  induction ds generalizing s saw with
  | nil => exact ⟨saw, rfl⟩
  | cons d rest ih =>
    simp only [forwardPass, sweep]
    split
    · exact ⟨saw, rfl⟩
    · exact ih { s with forward := s.forward.set d (forwardReach r s d) } _

theorem backwardPass_eq (r : Region) (env : Environment) (ds : List Int) (s : Scan) (saw : Bool) :
    ∃ saw', backwardPass r env ds s saw =
      let out := sweep (fun v d => backwardReach r { s with backward := v } d)
        (fun d x => !r.odd ∧ s.forwardMin ≤ d ∧ d ≤ s.forwardMax ∧ x ≤ s.forward.get d) ds
        s.backward
      ({ s with backward := out.1 }, match out.2 with
        | some (d, x) => .inl { i1 := x, i2 := x - d, minimalLow := true, minimalHigh := true }
        | none => .inr saw') := by
  induction ds generalizing s saw with
  | nil => exact ⟨saw, rfl⟩
  | cons d rest ih =>
    simp only [backwardPass, sweep]
    split
    · exact ⟨saw, rfl⟩
    · exact ih { s with backward := s.backward.set d (backwardReach r s d) } _

-- One pass is one step of a front

namespace Scan

/-- The forward vector as a front. -/
def frontF (s : Scan) : Front := ⟨s.forwardMin, s.forwardMax, s.forward.get⟩

/-- The backward vector as a front of the mirrored box. -/
def frontB (s : Scan) : Front :=
  ⟨-s.backwardMax, -s.backwardMin, fun d => -s.backward.get (-d)⟩

end Scan

/-- A box `findSplit` is called with: not empty, its common ends trimmed. -/
structure RegionOk (r : Region) : Prop where
  off1_nonneg : 0 ≤ r.off1
  off2_nonneg : 0 ≤ r.off2
  off1_lt : r.off1 < r.lim1
  off2_lt : r.off2 < r.lim2
  lim_lt : r.lim1 + r.lim2 < lineMax
  head : ¬ r.Same r.off1 r.off2
  tail : ¬ r.Same (r.lim1 - 1) (r.lim2 - 1)

theorem RegionOk.proper (h : RegionOk r) : r.box.Proper := ⟨h.off1_lt, h.off2_lt⟩

theorem RegionOk.mirror_proper (h : RegionOk r) : r.box.mirror.Proper := by
  have h1 := h.off1_lt
  have h2 := h.off2_lt
  exact ⟨by simp only [Box.mirror, Region.box]; omega, by simp only [Box.mirror, Region.box]; omega⟩

theorem RegionOk.mirror_head (h : RegionOk r) :
    ¬ r.MirrorSame (r.box.mirror.lim1 - 1) (r.box.mirror.lim2 - 1) := by
  have e1 : -(-r.off1 - 1) - 1 = r.off1 := by omega
  have e2 : -(-r.off2 - 1) - 1 = r.off2 := by omega
  simpa only [Region.MirrorSame, Region.Same, Box.mirror, Region.box, e1, e2] using h.head

/-- The vectors reach one diagonal past the box at either end. -/
structure Fits (r : Region) (s : Scan) (lo hi : Int) : Prop where
  lo_le : lo ≤ r.dmin - 1
  le_hi : r.dmax + 1 ≤ hi
  forward : s.forward.Covers lo hi
  backward : s.backward.Covers lo hi

/-- A vector and its range with one more diagonal at either end, or one less at the box's edge. -/
def widen (r : Region) (v : Diagonals) (min max sentinel : Int) : Diagonals × Int × Int :=
  let (v, low) := if r.dmin < min then (v.set (min - 2) sentinel, min - 1) else (v, min + 1)
  if max < r.dmax then (v.set (max + 2) sentinel, low, max + 1) else (v, low, max - 1)

theorem widenForward_eq (r : Region) (s : Scan) : widenForward r s =
    { s with
      forward := (widen r s.forward s.forwardMin s.forwardMax (-1)).1
      forwardMin := (widen r s.forward s.forwardMin s.forwardMax (-1)).2.1
      forwardMax := (widen r s.forward s.forwardMin s.forwardMax (-1)).2.2 } := by
  unfold widenForward widen
  by_cases h1 : r.dmin < s.forwardMin <;> by_cases h2 : s.forwardMax < r.dmax <;>
    simp only [h1, h2, if_true, if_false]

theorem widenBackward_eq (r : Region) (s : Scan) : widenBackward r s =
    { s with
      backward := (widen r s.backward s.backwardMin s.backwardMax lineMax).1
      backwardMin := (widen r s.backward s.backwardMin s.backwardMax lineMax).2.1
      backwardMax := (widen r s.backward s.backwardMin s.backwardMax lineMax).2.2 } := by
  unfold widenBackward widen
  by_cases h1 : r.dmin < s.backwardMin <;> by_cases h2 : s.backwardMax < r.dmax <;>
    simp only [h1, h2, if_true, if_false]

theorem widen_spec {v : Diagonals} (min max sentinel : Int) (hcov : v.Covers lo hi)
    (hlo : lo ≤ r.dmin - 1) (hhi : r.dmax + 1 ≤ hi) (hmin : r.dmin ≤ min) (hmax : max ≤ r.dmax)
    (hle : min ≤ max) :
    ∃ v' low high, widen r v min max sentinel = (v', low, high) ∧ v'.Covers lo hi ∧
      ((r.dmin < min ∧ low = min - 1 ∧ v'.get (low - 1) = sentinel) ∨
        (min ≤ r.dmin ∧ low = min + 1)) ∧
      ((max < r.dmax ∧ high = max + 1 ∧ v'.get (high + 1) = sentinel) ∨
        (r.dmax ≤ max ∧ high = max - 1)) ∧
      ∀ e, min ≤ e → e ≤ max → v'.get e = v.get e := by
  have hget1 := Diagonals.get_set hcov (d := min - 2)
  have hcov1 := Diagonals.set_covers hcov (min - 2) sentinel
  have hget2 := fun v (hv : Diagonals.Covers v lo hi) => Diagonals.get_set hv (d := max + 2)
  unfold widen
  by_cases h1 : r.dmin < min
  · by_cases h2 : max < r.dmax
    · simp only [h1, h2, if_true]
      refine ⟨_, _, _, rfl, Diagonals.set_covers hcov1 _ _, .inl ⟨trivial, rfl, ?_⟩,
        .inl ⟨trivial, rfl, ?_⟩, fun e he1 he2 => ?_⟩
      · rw [hget2 _ hcov1 (by omega) (by omega), if_neg (by omega), hget1 (by omega) (by omega),
          if_pos (by omega)]
      · rw [hget2 _ hcov1 (by omega) (by omega), if_pos (by omega)]
      · rw [hget2 _ hcov1 (by omega) (by omega), if_neg (by omega), hget1 (by omega) (by omega),
          if_neg (by omega)]
    · simp only [h1, h2, if_true, if_false]
      refine ⟨_, _, _, rfl, hcov1, .inl ⟨trivial, rfl, ?_⟩, .inr ⟨by omega, rfl⟩,
        fun e he1 he2 => ?_⟩
      · rw [hget1 (by omega) (by omega), if_pos (by omega)]
      · rw [hget1 (by omega) (by omega), if_neg (by omega)]
  · by_cases h2 : max < r.dmax
    · simp only [h1, h2, if_true, if_false]
      refine ⟨_, _, _, rfl, Diagonals.set_covers hcov _ _, .inr ⟨by omega, rfl⟩,
        .inl ⟨trivial, rfl, ?_⟩, fun e he1 he2 => ?_⟩
      · rw [hget2 _ hcov (by omega) (by omega), if_pos (by omega)]
      · rw [hget2 _ hcov (by omega) (by omega), if_neg (by omega)]
    · simp only [h1, h2, if_false]
      exact ⟨_, _, _, rfl, hcov, .inr ⟨by omega, rfl⟩, .inr ⟨by omega, rfl⟩,
        fun e he1 he2 => rfl⟩

/-- The entry of the backward pass, read in the mirrored box. -/
theorem neg_backwardEntry (t : Scan) (d : Int) : -backwardEntry t (-d) =
    if -t.backward.get (-(d + 1)) ≤ -t.backward.get (-(d - 1)) then -t.backward.get (-(d - 1)) + 1
    else -t.backward.get (-(d + 1)) := by
  rw [show -(d - 1) = -d + 1 by omega, show -(d + 1) = -d - 1 by omega, backwardEntry]
  split_ifs <;> omega

-- The heuristic splits

/-- A split inside the box and at neither corner: both boxes it leaves are smaller. -/
structure Inside (r : Region) (split : Split) : Prop where
  off1_le : r.off1 ≤ split.i1
  le_lim1 : split.i1 ≤ r.lim1
  off2_le : r.off2 ≤ split.i2
  le_lim2 : split.i2 ≤ r.lim2
  not_near : r.off1 + r.off2 < split.i1 + split.i2
  not_far : split.i1 + split.i2 < r.lim1 + r.lim2

theorem snake_inside {r : Region} {env : Environment} (henv : 0 < env.snakeCount)
    (s : Scan) (cost : Int) (ds : List Int) (best : Int) (candidate : Option Split)
    (hc : ∀ split ∈ candidate, Inside r split) :
    (∀ split ∈ forwardSnake r env s cost ds best candidate, Inside r split) ∧
      ∀ split ∈ backwardSnake r env s cost ds best candidate, Inside r split := by
  constructor
  all_goals
    induction ds generalizing best candidate with
    | nil => exact hc
    | cons d rest ih =>
      simp only [forwardSnake, backwardSnake]
      split
      · rename_i hcond
        obtain ⟨-, -, h1, h2, h3, h4, -⟩ := hcond
        refine ih _ _ fun split hsplit => ?_
        cases hsplit
        constructor <;> dsimp only <;> omega
      · exact ih _ _ hc

/-- The point of `best` lies in the box, off both corners; `best` holds its sum. -/
def BestInside (r : Region) (best : Int × Int) : Prop :=
  Inside r { i1 := best.2, i2 := best.1 - best.2, minimalLow := true, minimalHigh := true }

/-- The furthest end is one of those that are compared, as soon as one of them is better. -/
theorem furthest_inside {furthest : List Int → Int × Int → Int × Int} {clip : Int → Int × Int}
    (better : Int × Int → Int × Int → Prop) [DecidableRel better] (hnil : furthest [] = id)
    (hcons : ∀ d ds best, furthest (d :: ds) best = furthest ds
      (if better best (clip d) then ((clip d).1 + (clip d).2, (clip d).1) else best))
    {ds : List Int} {best : Int × Int}
    (hds : ∀ d ∈ ds, BestInside r ((clip d).1 + (clip d).2, (clip d).1))
    (hbest : BestInside r best ∨ (ds ≠ [] ∧ ∀ d ∈ ds, better best (clip d))) :
    BestInside r (furthest ds best) := by
  induction ds generalizing best with
  | nil => simpa [hnil] using hbest
  | cons d rest ih =>
    rw [hcons]
    refine ih (fun e he => hds e (by simp [he])) (.inl ?_)
    rcases hbest with hin | ⟨-, hlt⟩
    · split
      · exact hds d (by simp)
      · exact hin
    · rw [if_pos (hlt d (by simp))]
      exact hds d (by simp)

theorem clipForward_inside (hr : RegionOk r) (hcost : 1 ≤ cost) (hs : s.frontF.Sound r.box cost)
    (hfar : s.frontF.On r.box.far → s.frontF.reach r.box.far < r.lim1) (hd : s.frontF.On d) :
    BestInside r ((clipForward r s d).1 + (clipForward r s d).2, (clipForward r s d).1) := by
  have h1 := hr.off1_lt
  have h2 := hr.off2_lt
  have hg1 := hs.ge1 d hd
  have hg2 := hs.ge2 d hd
  have hsum := hs.sum d hd
  have hdmin := hs.dmin_le
  have hdmax := hs.le_dmax
  obtain ⟨d1, d2, d3⟩ := id hd
  simp only [Scan.frontF, Region.box, Box.dmin, Box.dmax] at hg1 hg2 hsum hdmin hdmax d1 d2 d3
  have hnot : ¬ (d = r.lim1 - r.lim2 ∧ r.lim1 ≤ s.forward.get d) := by
    rintro ⟨rfl, hge⟩
    have := hfar hd
    simp only [Scan.frontF, Box.far, Region.box] at this
    omega
  simp only [clipForward]
  split <;> constructor <;> dsimp only <;> omega

theorem clipBackward_inside (hr : RegionOk r)
    (hcost : 1 ≤ cost) (hs : s.frontB.Sound r.box.mirror cost)
    (hnear : s.frontB.On r.box.mirror.far →
      s.frontB.reach r.box.mirror.far < r.box.mirror.lim1) (hd : s.frontB.On (-d)) :
    BestInside r ((clipBackward r s d).1 + (clipBackward r s d).2, (clipBackward r s d).1) := by
  have h1 := hr.off1_lt
  have h2 := hr.off2_lt
  have hg1 := hs.ge1 _ hd
  have hg2 := hs.ge2 _ hd
  have hsum := hs.sum _ hd
  have hdmin := hs.dmin_le
  have hdmax := hs.le_dmax
  obtain ⟨d1, d2, d3⟩ := id hd
  simp only [Scan.frontB, Region.box, Box.mirror, neg_neg] at hg1 hg2
  simp only [Scan.frontB, Region.box, Box.mirror, Box.dmin, neg_neg] at hsum hdmin
  simp only [Scan.frontB, Region.box, Box.mirror, Box.dmax] at hdmax d1 d2 d3
  have hnot : ¬ (d = r.off1 - r.off2 ∧ s.backward.get d ≤ r.off1) := by
    rintro ⟨rfl, hge⟩
    have e : r.box.mirror.far = -(r.off1 - r.off2) := by
      simp only [Box.far, Box.mirror, Region.box]; omega
    rw [e] at hnear
    have := hnear hd
    simp only [Scan.frontB, Box.mirror, Region.box, neg_neg] at this
    omega
  simp only [clipBackward]
  split <;> constructor <;> dsimp only <;> omega

theorem BestInside.split {best : Int × Int} (h : BestInside r best) (a b : Bool) :
    Inside r { i1 := best.2, i2 := best.1 - best.2, minimalLow := a, minimalHigh := b } :=
  ⟨h.off1_le, h.le_lim1, h.off2_le, h.le_lim2, h.not_near, h.not_far⟩

theorem on_frontF_of_mem (hpar : (s.frontF.hi - s.frontF.lo) % 2 = 0)
    (hd : d ∈ diagonalsDown s.forwardMax s.forwardMin) : s.frontF.On d := by
  rw [mem_diagonalsDown] at hd
  simp only [Scan.frontF, Front.On] at *
  omega

theorem on_frontB_of_mem (hpar : (s.frontB.hi - s.frontB.lo) % 2 = 0)
    (hd : d ∈ diagonalsDown s.backwardMax s.backwardMin) : s.frontB.On (-d) := by
  rw [mem_diagonalsDown] at hd
  simp only [Scan.frontB, Front.On] at *
  omega

theorem furthestSplit_inside (hr : RegionOk r)
    (hcost : 1 ≤ cost) (hF : s.frontF.Sound r.box cost) (hB : s.frontB.Sound r.box.mirror cost)
    (hfar : s.frontF.On r.box.far → s.frontF.reach r.box.far < r.lim1)
    (hnear : s.frontB.On r.box.mirror.far →
      s.frontB.reach r.box.mirror.far < r.box.mirror.lim1) :
    Inside r (furthestSplit r s) := by
  have hforward : BestInside r
      (furthestForward r s (diagonalsDown s.forwardMax s.forwardMin) (-1, -1)) := by
    have hds : ∀ d ∈ diagonalsDown s.forwardMax s.forwardMin, BestInside r
        ((clipForward r s d).1 + (clipForward r s d).2, (clipForward r s d).1) :=
      fun d hd => clipForward_inside hr hcost hF hfar (on_frontF_of_mem hF.parity hd)
    refine furthest_inside (fun best i => best.1 < i.1 + i.2) rfl (fun _ _ _ => rfl) hds
      (.inr ⟨?_, fun d hd => ?_⟩)
    · have hle := hF.lo_le_hi
      simp only [Scan.frontF] at hle
      exact List.ne_nil_of_mem ((mem_diagonalsDown (d := s.forwardMax)).2 (by omega))
    · have := (hds d hd).not_near
      have h1 := hr.off1_nonneg
      have h2 := hr.off2_nonneg
      dsimp only at this ⊢
      omega
  have hbackward : BestInside r
      (furthestBackward r s (diagonalsDown s.backwardMax s.backwardMin) (lineMax, lineMax)) := by
    have hds : ∀ d ∈ diagonalsDown s.backwardMax s.backwardMin, BestInside r
        ((clipBackward r s d).1 + (clipBackward r s d).2, (clipBackward r s d).1) :=
      fun d hd => clipBackward_inside hr hcost hB hnear (on_frontB_of_mem hB.parity hd)
    refine furthest_inside (fun best i => i.1 + i.2 < best.1) rfl (fun _ _ _ => rfl) hds
      (.inr ⟨?_, fun d hd => ?_⟩)
    · have hle := hB.lo_le_hi
      simp only [Scan.frontB] at hle
      exact List.ne_nil_of_mem ((mem_diagonalsDown (d := s.backwardMax)).2 (by omega))
    · have := (hds d hd).not_far
      have h1 := hr.lim_lt
      dsimp only at this ⊢
      omega
  simp only [furthestSplit]
  split
  · exact hforward.split _ _
  · exact hbackward.split _ _

theorem giveUp_inside {needMinimal : Bool} {sawSnake : Bool} (henv : 0 < env.snakeCount)
    (hfurthest : Inside r (furthestSplit r s)) :
    ∀ split ∈ giveUp r needMinimal env s cost sawSnake, Inside r split := by
  have hsnake := fun ds => snake_inside (r := r) henv s cost ds 0 none (by simp)
  intro split hsplit
  unfold giveUp at hsplit
  split at hsplit
  · cases hsplit
  · rcases Option.or_eq_some_iff.1 hsplit with hboth | ⟨-, hmax⟩
    · split at hboth
      · rcases Option.or_eq_some_iff.1 hboth with h | ⟨-, h⟩
        · exact (hsnake _).1 split h
        · exact (hsnake _).2 split h
      · cases hboth
    · split at hmax
      · exact Option.some.inj hmax ▸ hfurthest
      · cases hmax

-- One turn

theorem inside_of_next (hr : RegionOk r)
    (hcost : 1 ≤ cost) (hs : f.Sound r.box (cost - 1)) (hf : f.Fenced r.box plo phi)
    (hnext : Next r.box r.Same f f') (hd : f'.On d) (hlo : plo - 1 ≤ d) (hhi : d ≤ phi + 1)
    {split : Split} (h1 : split.i1 = f'.reach d) (h2 : split.i2 = f'.reach d - d) :
    Inside r split := by
  have hs' := hnext.sound hs hf hr.proper
  have hg1 := hs'.ge1 d hd
  have hg2 := hs'.ge2 d hd
  have hsum := hs'.sum d hd
  have hle1 := hnext.le_lim1 hs hf hd hhi
  have hle2 := hnext.le_lim2 hs hf hr.proper hd hlo
  have hne := hnext.ne_corner hf hr.tail hd
  simp only [Region.box] at hg1 hg2 hsum hle1 hle2 hne
  constructor <;> omega

/-- The same for the backward search, whose fronts live in the mirrored box. -/
theorem inside_of_mirror_next
    (hr : RegionOk r) (hcost : 1 ≤ cost) (hs : f.Sound r.box.mirror (cost - 1))
    (hf : f.Fenced r.box.mirror plo phi) (hnext : Next r.box.mirror r.MirrorSame f f')
    (hd : f'.On (-d)) (hlo : plo - 1 ≤ -d) (hhi : -d ≤ phi + 1)
    {split : Split} (h1 : split.i1 = -f'.reach (-d)) (h2 : split.i2 = -f'.reach (-d) - d) :
    Inside r split := by
  have hs' := hnext.sound hs hf hr.mirror_proper
  have hg1 := hs'.ge1 _ hd
  have hg2 := hs'.ge2 _ hd
  have hsum := hs'.sum _ hd
  have hle1 := hnext.le_lim1 hs hf hd hhi
  have hle2 := hnext.le_lim2 hs hf hr.mirror_proper hd hlo
  have hne := hnext.ne_corner hf hr.mirror_head hd
  simp only [Region.box, Box.mirror] at hg1 hg2 hsum hle1 hle2 hne
  constructor <;> omega

/-- The forward half of a turn: a crossing on a backward diagonal, or the next front. -/
theorem forwardHalf_spec (env : Environment)
    (hr : RegionOk r) (hfit : Fits r s lo hi) (hs : s.frontF.Sound r.box cost) :
    ∃ forward fmin fmax out,
      forwardPass r env
          (diagonalsDown (widenForward r s).forwardMax (widenForward r s).forwardMin)
          (widenForward r s) false =
        ({ s with forward, forwardMin := fmin, forwardMax := fmax }, out) ∧
      forward.Covers lo hi ∧
      match out with
      | .inl split => r.odd = true ∧ ∃ f' d, Next r.box r.Same s.frontF f' ∧ f'.On d ∧
          s.backwardMin ≤ d ∧ d ≤ s.backwardMax ∧
          split.i1 = f'.reach d ∧ split.i2 = f'.reach d - d
      | .inr _ => Next r.box r.Same s.frontF ⟨fmin, fmax, forward.get⟩ ∧
          (r.odd = true → ∀ d, fmin ≤ d → d ≤ fmax → (fmax - d) % 2 = 0 → s.backwardMin ≤ d →
            d ≤ s.backwardMax → forward.get d < s.backward.get d) := by
  have hmin := hs.dmin_le
  have hmax := hs.le_dmax
  have hle := hs.lo_le_hi
  obtain ⟨forward, fmin, fmax, hwiden, hcov, hfmin, hfmax, hget⟩ := widen_spec s.forwardMin
    s.forwardMax (-1) hfit.forward hfit.lo_le hfit.le_hi hmin hmax hle
  rw [widenForward_eq, hwiden]
  dsimp only
  -- the sentinel loses against every real neighbour
  have hnext (f' : Front) (h1 : f'.lo = fmin) (h2 : f'.hi = fmax) (h3 : ∀ d, f'.On d →
      f'.reach d = forwardReach r { s with forward, forwardMin := fmin, forwardMax := fmax } d) :
      Next r.box r.Same s.frontF f' := by
    subst h1 h2
    refine Next.of_widened _ _ hs (Int.lt_of_lt_of_le (by decide) hr.off1_nonneg) hfmin hfmax hget
      fun d hd => ?_
    rw [h3 d hd]
    exact slideForward_slide r d _ _
  have hlo := hfit.lo_le
  have hhi := hfit.le_hi
  have hdmin := hs.dmin_le
  have hdmax := hs.le_dmax
  simp only [Scan.frontF, Region.box, Box.dmin, Box.dmax] at hdmin hdmax
  simp only [Region.dmin, Region.dmax] at hlo hhi hfmin hfmax
  obtain ⟨saw', hpass⟩ := forwardPass_eq r env (diagonalsDown fmax fmin)
    { s with forward, forwardMin := fmin, forwardMax := fmax } false
  obtain ⟨forward', found, hsweep, hcov', hout⟩ := sweep_spec
    (fun v d => forwardReach r { s with forward := v, forwardMin := fmin, forwardMax := fmax } d)
    (fun d x => r.odd ∧ s.backwardMin ≤ d ∧ d ≤ s.backwardMax ∧ s.backward.get d ≤ x) (fmax % 2)
    (fun _ _ _ h1 h2 => forwardReach_congr h1 h2) (diagonalsDown fmax fmin) forward hcov
    (nodup_diagonalsDown _ _)
    (fun d hd => by rw [mem_diagonalsDown] at hd; omega)
  rw [hsweep] at hpass
  -- the front of the values the pass computes, whether or not it gets to store them
  have hnext' := hnext ⟨fmin, fmax, forwardReach r
    { s with forward, forwardMin := fmin, forwardMax := fmax }⟩ rfl rfl (fun _ _ => rfl)
  have hparity := hnext'.parity hs hr.proper
  dsimp only at hparity
  refine ⟨forward', fmin, fmax, _, hpass, hcov', ?_⟩
  cases found with
  | some crossing =>
    obtain ⟨hd, hx, hodd, hb1, hb2, -⟩ := hout
    rw [mem_diagonalsDown] at hd
    have hon : (⟨fmin, fmax, forwardReach r
        { s with forward, forwardMin := fmin, forwardMax := fmax }⟩ : Front).On crossing.1 := by
      simp only [Front.On]
      omega
    exact ⟨hodd, _, crossing.1, hnext', hon, hb1, hb2, hx, congrArg (· - crossing.1) hx⟩
  | none =>
    obtain ⟨hvals, hapart⟩ := hout
    refine ⟨hnext _ rfl rfl fun d hd => ?_, fun hodd d h1 h2 h3 hb1 hb2 => ?_⟩
    · obtain ⟨h1, h2, h3⟩ := hd
      dsimp only at h1 h2 h3 ⊢
      rw [hvals d, if_pos (mem_diagonalsDown.2 ⟨h1, h2, by omega⟩)]
    · have hmem := mem_diagonalsDown.2 ⟨h1, h2, h3⟩
      rw [hvals d, if_pos hmem]
      exact not_le.1 fun hle => hapart d hmem ⟨hodd, hb1, hb2, hle⟩

theorem backwardHalf_spec (env : Environment) (cost : Int)
    (saw : Bool) (hr : RegionOk r) (hfit : Fits r s lo hi)
    (hs : s.frontB.Sound r.box.mirror cost) :
    ∃ backward bmin bmax out,
      backwardPass r env
          (diagonalsDown (widenBackward r s).backwardMax (widenBackward r s).backwardMin)
          (widenBackward r s) saw =
        ({ s with backward, backwardMin := bmin, backwardMax := bmax }, out) ∧
      backward.Covers lo hi ∧
      match out with
      | .inl split => r.odd = false ∧ ∃ f' d, Next r.box.mirror r.MirrorSame s.frontB f' ∧
          f'.On (-d) ∧ s.forwardMin ≤ d ∧ d ≤ s.forwardMax ∧
          split.i1 = -f'.reach (-d) ∧ split.i2 = -f'.reach (-d) - d
      | .inr _ => Next r.box.mirror r.MirrorSame s.frontB
            ⟨-bmax, -bmin, fun d => -backward.get (-d)⟩ ∧
          (r.odd = false → ∀ d, bmin ≤ d → d ≤ bmax → (bmax - d) % 2 = 0 → s.forwardMin ≤ d →
            d ≤ s.forwardMax → s.forward.get d < backward.get d) := by
  have hmin := hs.dmin_le
  have hmax := hs.le_dmax
  have hle := hs.lo_le_hi
  simp only [Scan.frontB, Region.box, Box.mirror, Box.dmin, Box.dmax] at hmin hmax hle
  obtain ⟨backward, bmin, bmax, hwiden, hcov, hbmin, hbmax, hget⟩ := widen_spec s.backwardMin
    s.backwardMax lineMax hfit.backward hfit.lo_le hfit.le_hi
    (by simp only [Region.dmin]; omega) (by simp only [Region.dmax]; omega) (by omega)
  rw [widenBackward_eq, hwiden]
  dsimp only
  have hnext (f' : Front) (h1 : f'.lo = -bmax) (h2 : f'.hi = -bmin) (h3 : ∀ d, f'.On d →
      f'.reach d = -backwardReach r { s with backward, backwardMin := bmin, backwardMax := bmax }
        (-d)) : Next r.box.mirror r.MirrorSame s.frontB f' := by
    have h1' : -(f'.lo - 1) = bmax + 1 := by omega
    have h2' : -(f'.hi + 1) = bmin - 1 := by omega
    have hlow := hr.off2_nonneg
    have hlt := hr.off2_lt
    have hlim := hr.lim_lt
    refine Next.of_widened (fun d => -backward.get (-d)) (-lineMax) hs ?_ ?_ ?_ ?_ ?_
    · simp only [Region.box, Box.mirror]
      omega
    · simp only [Scan.frontB, Box.dmin, Region.box, Box.mirror, Region.dmax, h1'] at hbmax ⊢
      omega
    · simp only [Scan.frontB, Box.dmax, Region.box, Box.mirror, Region.dmin, h2'] at hbmin ⊢
      omega
    · intro e he1 he2
      simp only [Scan.frontB] at he1 he2 ⊢
      rw [hget _ (by omega) (by omega)]
    · intro d hd
      rw [h3 d hd]
      have hslide := slideBackward_slide r (-d)
        (backwardEntry { s with backward, backwardMin := bmin, backwardMax := bmax } (-d) -
          r.off1).toNat
        (backwardEntry { s with backward, backwardMin := bmin, backwardMax := bmax } (-d))
      rwa [neg_neg, neg_backwardEntry] at hslide
  have hlo := hfit.lo_le
  have hhi := hfit.le_hi
  simp only [Region.dmin, Region.dmax] at hlo hhi hbmin hbmax
  obtain ⟨saw', hpass⟩ := backwardPass_eq r env (diagonalsDown bmax bmin)
    { s with backward, backwardMin := bmin, backwardMax := bmax } saw
  obtain ⟨backward', found, hsweep, hcov', hout⟩ := sweep_spec
    (fun v d => backwardReach r { s with backward := v, backwardMin := bmin, backwardMax := bmax } d)
    (fun d x => !r.odd ∧ s.forwardMin ≤ d ∧ d ≤ s.forwardMax ∧ x ≤ s.forward.get d) (bmax % 2)
    (fun _ _ _ h1 h2 => backwardReach_congr h1 h2) (diagonalsDown bmax bmin) backward hcov
    (nodup_diagonalsDown _ _)
    (fun d hd => by rw [mem_diagonalsDown] at hd; omega)
  rw [hsweep] at hpass
  have hnext' := hnext ⟨-bmax, -bmin, fun d => -backwardReach r
    { s with backward, backwardMin := bmin, backwardMax := bmax } (-d)⟩ rfl rfl (fun _ _ => rfl)
  have hparity := hnext'.parity hs hr.mirror_proper
  dsimp only at hparity
  refine ⟨backward', bmin, bmax, _, hpass, hcov', ?_⟩
  cases found with
  | some crossing =>
    obtain ⟨hd, hx, hodd, hb1, hb2, -⟩ := hout
    rw [mem_diagonalsDown] at hd
    have hon : (⟨-bmax, -bmin, fun d => -backwardReach r
        { s with backward, backwardMin := bmin, backwardMax := bmax } (-d)⟩ : Front).On
          (-crossing.1) := by
      simp only [Front.On]
      omega
    refine ⟨by simpa using hodd, _, crossing.1, hnext', hon, hb1, hb2, ?_, ?_⟩
    · simpa only [neg_neg] using hx
    · simpa only [neg_neg] using congrArg (· - crossing.1) hx
  | none =>
    obtain ⟨hvals, hapart⟩ := hout
    refine ⟨hnext _ rfl rfl fun d hd => ?_, fun heven d h1 h2 h3 hb1 hb2 => ?_⟩
    · obtain ⟨h1, h2, h3⟩ := hd
      dsimp only at h1 h2 h3 ⊢
      rw [hvals, if_pos (mem_diagonalsDown.2 ⟨by omega, by omega, by omega⟩)]
    · have hmem := mem_diagonalsDown.2 ⟨h1, h2, h3⟩
      rw [hvals d, if_pos hmem]
      exact not_le.1 fun hle => hapart d hmem ⟨by simpa using heven, hb1, hb2, hle⟩

/-- What holds at the start of turn `cost`.  The forward front is fenced by a window that
    the current backward diagonals exceed by at most one; with an even offset between the
    corners the two fronts of the last turn have been compared and are apart. -/
structure ScanInv (r : Region) (lo hi cost : Int) (s : Scan) : Prop where
  fits : Fits r s lo hi
  soundF : s.frontF.Sound r.box (cost - 1)
  soundB : s.frontB.Sound r.box.mirror (cost - 1)
  fence : ∃ plo phi, s.frontF.Fenced r.box plo phi ∧
    plo - 1 ≤ s.backwardMin ∧ s.backwardMax ≤ phi + 1
  apart : r.odd = false → Apart s.frontF s.frontB

/-- The parities of the two fronts, from the corners' offset and their costs. -/
theorem fronts_parity {g : Front} {c k : Int} (hf : f.Sound r.box c) (hg : g.Sound r.box.mirror k)
    (h : (r.odd = true ∧ (c - k) % 2 = 1) ∨ (r.odd = false ∧ (c - k) % 2 = 0)) :
    (f.lo + g.lo) % 2 = 0 := by
  have h1 := hf.turn
  have h2 := hg.turn
  simp only [Region.box, Box.mirror, Box.near] at h1 h2
  rcases h with ⟨hodd, hcost⟩ | ⟨heven, hcost⟩
  · have hdiff := of_decide_eq_true hodd
    simp only [Region.forwardMid, Region.backwardMid] at hdiff
    omega
  · have hdiff := of_decide_eq_false heven
    simp only [Region.forwardMid, Region.backwardMid] at hdiff
    omega

theorem ScanInv.fencedB (hinv : ScanInv r lo hi cost s) (hr : RegionOk r) (hcost : 1 ≤ cost)
    (heven : r.odd = false) : s.frontB.Fenced r.box.mirror (-s.frontF.hi) (-s.frontF.lo) :=
  mirror_fenced_of_apart hinv.soundF (by omega) hr.mirror_proper
    (fronts_parity hinv.soundF hinv.soundB (.inr ⟨heven, by omega⟩)) (hinv.apart heven)

/-- A front of the next turn. -/
theorem sound_next {b : Box} {same : Int → Int → Prop} {f' : Front} {plo phi : Int}
    (h : Next b same f f') (hf : f.Sound b (cost - 1)) (hfence : f.Fenced b plo phi)
    (hb : b.Proper) : f'.Sound b (cost + 1 - 1) := by
  have hsound := h.sound hf hfence hb
  rwa [Int.sub_add_cancel, ← Int.add_sub_cancel cost 1] at hsound

/-- After the two passes: what the heuristics and the next turn need. -/
structure AfterPasses (r : Region) (lo hi cost : Int) (s : Scan) : Prop where
  inv : ScanInv r lo hi (cost + 1) s
  cost_lt : cost < r.box.extent
  far : s.frontF.On r.box.far → s.frontF.reach r.box.far < r.lim1
  near : s.frontB.On r.box.mirror.far → s.frontB.reach r.box.mirror.far < r.box.mirror.lim1

/-- Odd offset: the forward pass compared the new forward front with the old backward one. -/
theorem afterPasses_odd (hr : RegionOk r)
    (hcost : 1 ≤ cost) (hinv : ScanInv r lo hi cost s) (hodd : r.odd = true)
    (hfit : Fits r t lo hi) (hF : Next r.box r.Same s.frontF t.frontF)
    (hB : Next r.box.mirror r.MirrorSame s.frontB t.frontB)
    (hapart : Apart t.frontF s.frontB) : AfterPasses r lo hi cost t := by
  obtain ⟨plo, phi, hfence, -, -⟩ := hinv.fence
  have hsF := sound_next hF hinv.soundF hfence hr.proper
  have hpar := fronts_parity hsF hinv.soundB (.inl ⟨hodd, by omega⟩)
  have hfenceF := fenced_of_apart hinv.soundB (by omega) hr.proper hpar hapart
  have hfenceB := mirror_fenced_of_apart hsF (by omega) hr.mirror_proper hpar hapart
  have hsB := sound_next hB hinv.soundB hfenceB hr.mirror_proper
  refine ⟨⟨hfit, hsF, hsB, ⟨_, _, hfenceF, ?_, ?_⟩, fun h => by rw [hodd] at h; cases h⟩, ?_,
    hF.lt_at_far hinv.soundF hfence hr.tail, hB.lt_at_far hinv.soundB hfenceB hr.mirror_head⟩
  · have := hB.hi_eq
    simp only [Scan.frontB] at this ⊢
    omega
  · have := hB.lo_eq
    simp only [Scan.frontB] at this ⊢
    omega
  · have := cost_lt_of_apart hsF hinv.soundB (by omega) hr.proper hpar hapart
    omega

/-- Even offset: the backward pass compared the two new fronts. -/
theorem afterPasses_even (hr : RegionOk r)
    (hcost : 1 ≤ cost) (hinv : ScanInv r lo hi cost s) (heven : r.odd = false)
    (hfit : Fits r t lo hi) (hF : Next r.box r.Same s.frontF t.frontF)
    (hB : Next r.box.mirror r.MirrorSame s.frontB t.frontB)
    (hapart : Apart t.frontF t.frontB) : AfterPasses r lo hi cost t := by
  obtain ⟨plo, phi, hfence, -, -⟩ := hinv.fence
  have hfenceB := hinv.fencedB hr hcost heven
  have hsF := sound_next hF hinv.soundF hfence hr.proper
  have hsB := sound_next hB hinv.soundB hfenceB hr.mirror_proper
  have hpar := fronts_parity hsF hsB (.inr ⟨heven, by omega⟩)
  have hfenceF := fenced_of_apart hsB (by omega) hr.proper hpar hapart
  refine ⟨⟨hfit, hsF, hsB, ⟨_, _, hfenceF, ?_, ?_⟩, fun _ => hapart⟩, ?_,
    hF.lt_at_far hinv.soundF hfence hr.tail, hB.lt_at_far hinv.soundB hfenceB hr.mirror_head⟩
  · simp only [Scan.frontB]
    omega
  · simp only [Scan.frontB]
    omega
  · have := cost_lt_of_apart hsF hsB (by omega) hr.proper hpar hapart
    omega

/-- A turn answers a split inside the box, or keeps the invariant; and it cannot go on for
    more turns than the box has rows and columns. -/
theorem splitTurn_spec (needMinimal : Bool) (hr : RegionOk r) (henv : 0 < env.snakeCount)
    (hcost : 1 ≤ cost)
    (hinv : ScanInv r lo hi cost s) :
    ∃ t out, splitTurn r needMinimal env cost s = (t, out) ∧ Fits r t lo hi ∧
      match out with
      | some split => Inside r split
      | none => ScanInv r lo hi (cost + 1) t ∧ cost < r.box.extent := by
  obtain ⟨plo, phi, hfence, hplo, hphi⟩ := hinv.fence
  obtain ⟨forward, fmin, fmax, outF, hpassF, hcovF, hF⟩ :=
    forwardHalf_spec env hr hinv.fits hinv.soundF
  have hfitF : Fits r { s with forward, forwardMin := fmin, forwardMax := fmax } lo hi :=
    ⟨hinv.fits.lo_le, hinv.fits.le_hi, hcovF, hinv.fits.backward⟩
  unfold splitTurn
  simp only [hpassF]
  cases outF with
  | inl split =>
    obtain ⟨-, f', d, hnext, hon, hb1, hb2, h1, h2⟩ := hF
    exact ⟨_, _, rfl, hfitF,
      inside_of_next hr hcost hinv.soundF hfence hnext hon (by omega) (by omega) h1 h2⟩
  | inr saw =>
    obtain ⟨hnextF, hapartF⟩ := hF
    obtain ⟨backward, bmin, bmax, outB, hpassB, hcovB, hB⟩ :=
      backwardHalf_spec env (cost - 1) saw hr hfitF hinv.soundB
    have hfitB : Fits r { s with
        forward, forwardMin := fmin, forwardMax := fmax
        backward, backwardMin := bmin, backwardMax := bmax } lo hi :=
      ⟨hinv.fits.lo_le, hinv.fits.le_hi, hcovF, hcovB⟩
    simp only [hpassB]
    cases outB with
    | inl split =>
      obtain ⟨heven, f', d, hnext, hon, hb1, hb2, h1, h2⟩ := hB
      -- the window of the old forward front, one wider, holds the new forward diagonals
      have hfenceB := hinv.fencedB hr hcost heven
      have hlo := hnextF.lo_eq
      have hhi := hnextF.hi_eq
      dsimp only at hb1 hb2 hlo hhi
      exact ⟨_, _, rfl, hfitB, inside_of_mirror_next hr hcost hinv.soundB hfenceB hnext hon
        (by omega) (by omega) h1 h2⟩
    | inr saw' =>
      obtain ⟨hnextB, hapartB⟩ := hB
      have hafter : AfterPasses r lo hi cost { s with
          forward, forwardMin := fmin, forwardMax := fmax
          backward, backwardMin := bmin, backwardMax := bmax } := by
        have hparF := (hnextF.parity hinv.soundF hr.proper).1
        cases hodd : r.odd with
        | true =>
          refine afterPasses_odd hr hcost hinv hodd hfitB hnextF hnextB fun d hd hg => ?_
          simp only [Front.On, Scan.frontF, Scan.frontB, neg_neg] at hd hg hparF ⊢
          exact hapartF hodd d hd.1 hd.2.1 (by omega) (by omega) (by omega)
        | false =>
          refine afterPasses_even hr hcost hinv hodd hfitB hnextF hnextB fun d hd hg => ?_
          simp only [Front.On, Scan.frontF, Scan.frontB, neg_neg] at hd hg ⊢
          exact hapartB hodd d (by omega) (by omega) (by omega) hd.1 hd.2.1
      refine ⟨_, _, rfl, hfitB, ?_⟩
      split
      · rename_i split hsplit
        have hcost' := Int.add_sub_cancel cost 1
        exact giveUp_inside henv (furthestSplit_inside hr hcost (hcost' ▸ hafter.inv.soundF)
          (hcost' ▸ hafter.inv.soundB) hafter.far hafter.near) split hsplit
      · exact ⟨hafter.inv, hafter.cost_lt⟩

-- The whole search

theorem initialScan_inv (hr : RegionOk r) (hlo : lo ≤ r.dmin - 1) (hhi : r.dmax + 1 ≤ hi)
    (hf : forward.Covers lo hi) (hb : backward.Covers lo hi) :
    ScanInv r lo hi 1 (initialScan r forward backward) := by
  have h1 := hr.off1_lt
  have h2 := hr.off2_lt
  have hlo' := hlo
  have hhi' := hhi
  simp only [Region.dmin, Region.dmax] at hlo' hhi'
  have hgetF : (forward.set r.forwardMid r.off1).get r.forwardMid = r.off1 := by
    rw [Diagonals.get_set hf (by simp only [Region.forwardMid]; omega)
      (by simp only [Region.forwardMid]; omega), if_pos rfl]
  have hgetB : (backward.set r.backwardMid r.lim1).get r.backwardMid = r.lim1 := by
    rw [Diagonals.get_set hb (by simp only [Region.backwardMid]; omega)
      (by simp only [Region.backwardMid]; omega), if_pos rfl]
  have honF : ∀ d, (initialScan r forward backward).frontF.On d → d = r.forwardMid := by
    intro d hd
    simp only [Front.On, Scan.frontF, initialScan] at hd
    omega
  have honB : ∀ d, (initialScan r forward backward).frontB.On d → d = -r.backwardMid := by
    intro d hd
    simp only [Front.On, Scan.frontB, initialScan] at hd
    omega
  have hF : (initialScan r forward backward).frontF.Sound r.box (1 - 1) := by
    constructor <;> (try intro d hd; obtain rfl := honF d hd) <;>
      simp only [Scan.frontF, initialScan, hgetF, Region.box, Box.dmin, Box.dmax, Box.near,
        Region.forwardMid] at * <;> omega
  have hB : (initialScan r forward backward).frontB.Sound r.box.mirror (1 - 1) := by
    constructor <;> (try intro d hd; obtain rfl := honB d hd) <;>
      simp only [Scan.frontB, initialScan, neg_neg, hgetB, Region.box, Box.mirror, Box.dmin,
        Box.dmax, Box.near, Region.backwardMid] at * <;> omega
  have hreach : ∀ d, (initialScan r forward backward).frontF.On d →
      (initialScan r forward backward).frontF.reach d = r.off1 := by
    intro d hd
    rw [honF d hd]
    exact hgetF
  refine ⟨⟨hlo, hhi, Diagonals.set_covers hf _ _, Diagonals.set_covers hb _ _⟩, hF, hB, ?_, ?_⟩
  · -- one wider where the two corners lie on diagonals of different parity
    refine ⟨r.backwardMid - (r.backwardMid - r.forwardMid) % 2,
      r.backwardMid + (r.backwardMid - r.forwardMid) % 2,
      ⟨?_, ?_, ?_, ?_, fun d hd _ _ => ?_⟩, ?_, ?_⟩
    · simp only [Box.far, Region.box, Region.backwardMid]; omega
    · simp only [Box.far, Region.box, Region.backwardMid]; omega
    · simp only [Scan.frontF, initialScan]; omega
    · simp only [Scan.frontF, initialScan]; omega
    · rw [hreach d hd, honF d hd]
      simp only [Region.box, Region.forwardMid]; omega
    · simp only [initialScan]; omega
    · simp only [initialScan]; omega
  · intro _ d hd hg
    rw [hreach d hd, honB _ hg]
    simp only [Scan.frontB, initialScan, neg_neg, hgetB]
    exact h1

/-- `findSplit` terminates, with a split that makes both recursive boxes strictly smaller. -/
theorem findSplit_settles (needMinimal : Bool) (lo hi : Int) (hr : RegionOk r)
    (henv : 0 < env.snakeCount)
    (hlo : lo ≤ r.dmin - 1) (hhi : r.dmax + 1 ≤ hi)
    (hf : forward.Covers lo hi) (hb : backward.Covers lo hi) :
    ∃ split s, Settles (fun fuel => findSplit fuel r forward backward needMinimal env) (split, s) ∧
      Inside r split ∧ s.forward.Covers lo hi ∧ s.backward.Covers lo hi := by
  obtain ⟨⟨split, s⟩, hsettles, hin, hfit⟩ := loop_settles
    (f := splitBody r needMinimal env)
    (fun st => 1 ≤ st.1 ∧ st.1 ≤ r.box.extent ∧ ScanInv r lo hi st.1 st.2)
    (fun out => Inside r out.1 ∧ Fits r out.2 lo hi)
    (fun st => (r.box.extent - st.1).toNat)
    (fun ⟨cost, s⟩ ⟨hcost, hext, hinv⟩ => by
      obtain ⟨t, out, hturn, hfit, hout⟩ :=
        splitTurn_spec needMinimal hr henv hcost hinv
      have hbody : ∀ fuel, splitBody r needMinimal env fuel (cost, s) =
          match out with
          | some split => some (.inr (split, t))
          | none => some (.inl (cost + 1, t)) := by
        intro fuel
        simp only [splitBody, hturn]
        cases out <;> rfl
      cases out with
      | some split => exact .inl ⟨(split, t), Settles.of_const hbody, hout, hfit⟩
      | none =>
        refine .inr ⟨(cost + 1, t), Settles.of_const hbody, ⟨?_, ?_, hout.1⟩, ?_⟩
        · dsimp only at hcost ⊢; omega
        · exact hout.2
        · have := hout.2
          dsimp only at hext ⊢
          omega)
    (1, initialScan r forward backward)
    ⟨Int.le_refl _, by
      have h1 := hr.off1_lt
      have h2 := hr.off2_lt
      simp only [Box.extent, Region.box]; omega, initialScan_inv hr hlo hhi hf hb⟩
  exact ⟨split, s, hsettles, hin, hfit.forward, hfit.backward⟩

end Kompjutr.Diff
