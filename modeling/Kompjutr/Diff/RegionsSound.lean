/-
  Kompjutr.Diff.RegionsSound

  What the regions of the three-way merge say about the three texts.

  `Edits` is an edit script cut at a pair of positions, stated position by
  position, so that a cut can move along the lines two texts share.  `Chain` is
  the invariant of every region list: read in order, the regions and the gaps
  between them cover a prefix of each text; in a gap current and incoming agree,
  and a region that takes one side is one where the other side agrees with the
  base.  `buildMergeRegions` establishes it for the whole texts, and each
  refinement keeps it.
-/
import Kompjutr.Diff.Xmerge
import Kompjutr.Diff.MyersSound

namespace Kompjutr.Diff

open Fuel

section Agree

variable {α : Type} {xs ys zs : List α} {i j l n m d : Int}

/-- The `n` elements from `i` and from `j` on are the same. -/
def Agree (xs ys : List α) (i j n : Int) : Prop :=
  ∀ k, 0 ≤ k → k < n → readAt xs (i + k) = readAt ys (j + k)

namespace Agree

theorem of_le (h : n ≤ 0) : Agree xs ys i j n := fun k h0 h1 => by omega

theorem symm (h : Agree xs ys i j n) : Agree ys xs j i n := fun k h0 h1 => (h k h0 h1).symm

theorem trans (h : Agree xs ys i j n) (h' : Agree ys zs j l n) : Agree xs zs i l n :=
  fun k h0 h1 => (h k h0 h1).trans (h' k h0 h1)

/-- The part of a shared stretch that starts `d` further. -/
theorem sub (h : Agree xs ys i j n) (hd : 0 ≤ d) (hle : d + m ≤ n) :
    Agree xs ys (i + d) (j + d) m := by
  intro k h0 h1
  have hk := h (d + k) (by omega) (by omega)
  rwa [← Int.add_assoc, ← Int.add_assoc] at hk

theorem snoc (h : Agree xs ys i j n) (hlast : readAt xs (i + n) = readAt ys (j + n)) :
    Agree xs ys i j (n + 1) := by
  intro k h0 h1
  by_cases hk : k < n
  · exact h k h0 hk
  · obtain rfl : k = n := by omega
    exact hlast

theorem cons (hhead : readAt xs i = readAt ys j) (h : Agree xs ys (i + 1) (j + 1) n) :
    Agree xs ys i j (n + 1) := by
  intro k h0 h1
  by_cases hk : k = 0
  · simpa [hk] using hhead
  · have hr := h (k - 1) (by omega) (by omega)
    rwa [show i + 1 + (k - 1) = i + k by omega, show j + 1 + (k - 1) = j + k by omega] at hr

end Agree

theorem readAt_map {β : Type} (f : α → β) (xs : List α) (i : Int) :
    readAt (xs.map f) i = (readAt xs i).map f := by
  unfold readAt
  split <;> simp

theorem readAt_slice {a b k : Int} (ha : 0 ≤ a) (hk : 0 ≤ k) (hkb : a + k < b) :
    readAt (slice xs a b) k = readAt xs (a + k) := by
  obtain ⟨a, rfl⟩ := Int.eq_ofNat_of_zero_le ha
  obtain ⟨k, rfl⟩ := Int.eq_ofNat_of_zero_le hk
  rw [readAt_natCast, ← Int.natCast_add, readAt_natCast, slice, List.getElem?_drop,
    Int.toNat_natCast, List.getElem?_take, if_pos (by omega)]

theorem length_slice {a b : Int} (ha : 0 ≤ a) (hab : a ≤ b) (hb : b ≤ xs.length) :
    ((slice xs a b).length : Int) = b - a := by
  simp only [slice, List.length_drop, List.length_take]
  omega

theorem slice_append {a b c : Int} (hab : a ≤ b) (hbc : b ≤ c) :
    slice xs a c = slice xs a b ++ slice xs b c := by
  have hcount : c.toNat - a.toNat = b.toNat - a.toNat + (c.toNat - b.toNat) := by omega
  have hskip : a.toNat + (b.toNat - a.toNat) = b.toNat := by omega
  simp only [slice, List.drop_take]
  rw [hcount, List.take_add, List.drop_drop, hskip]

theorem slice_self (a : Int) : slice xs a a = [] := by
  simp only [slice]
  exact List.drop_eq_nil_of_le (by rw [List.length_take]; omega)

theorem Agree.slice_eq (h : Agree xs ys i j n) (hi : 0 ≤ i) (hj : 0 ≤ j) (hn : 0 ≤ n)
    (hxs : i + n ≤ xs.length) (hys : j + n ≤ ys.length) :
    slice xs i (i + n) = slice ys j (j + n) := by
  have hlx : ((slice xs i (i + n)).length : Int) = n := by
    rw [length_slice hi (by omega) hxs]; omega
  have hly : ((slice ys j (j + n)).length : Int) = n := by
    rw [length_slice hj (by omega) hys]; omega
  apply List.ext_getElem? fun k => ?_
  rw [← readAt_natCast, ← readAt_natCast]
  by_cases hk : (k : Int) < n
  · rw [readAt_slice hi (by omega) (by omega), readAt_slice hj (by omega) (by omega)]
    exact h k (by omega) hk
  · rw [readAt_eq_none (by omega), readAt_eq_none (by omega)]

end Agree

-- Edit scripts cut at a position

section Edits

variable {α : Type} {old new : List α} {x y : Int} {groups : List ChangeGroup}

/-- What remains of an edit script from line `x` of `old` and line `y` of `new` on: before each
    group the texts agree, and no two groups touch. -/
inductive Edits (old new : List α) : Int → Int → List ChangeGroup → Prop
  | done {x y : Int} (hx : 0 ≤ x) (hy : 0 ≤ y) (hle : x ≤ old.length)
      (hlen : (old.length : Int) - x = new.length - y)
      (hagree : Agree old new x y (old.length - x)) : Edits old new x y []
  | group {x y : Int} {g : ChangeGroup} {rest : List ChangeGroup} (hx : 0 ≤ x) (hy : 0 ≤ y)
      (hle : x ≤ g.oldStart) (hshift : g.newStart - y = g.oldStart - x)
      (hagree : Agree old new x y (g.oldStart - x)) (holdCount : 0 ≤ g.oldCount)
      (hnewCount : 0 ≤ g.newCount)
      (hsep : ∀ h ∈ rest.head?, g.oldStart + g.oldCount < h.oldStart)
      (hrest : Edits old new (g.oldStart + g.oldCount) (g.newStart + g.newCount) rest) :
      Edits old new x y (g :: rest)

theorem agree_common {β : Type} (preOld preNew common tailOld tailNew : List β) :
    Agree (preOld ++ (common ++ tailOld)) (preNew ++ (common ++ tailNew)) preOld.length
      preNew.length common.length := by
  intro k h0 h1
  obtain ⟨k, rfl⟩ := Int.eq_ofNat_of_zero_le h0
  have hk : k < common.length := by omega
  have hread : ∀ pre tail : List β,
      readAt (pre ++ (common ++ tail)) (pre.length + k) = common[k]? := by
    intro pre tail
    rw [← Int.natCast_add, readAt_natCast, List.getElem?_append_right (Nat.le_add_right _ _),
      Nat.add_sub_cancel_left, List.getElem?_append_left hk]
  rw [hread, hread]

/-- The differ's scripts are edits of the whole texts. -/
theorem Script.edits (h : Script old new x y groups) : ∀ preOld preNew : List α,
    (preOld.length : Int) = x → (preNew.length : Int) = y →
    Edits (preOld ++ old) (preNew ++ new) x y groups := by
  induction h with
  | done common i j =>
    rintro preOld preNew rfl rfl
    have hagree := agree_common preOld preNew common [] []
    simp only [List.append_nil] at hagree
    refine .done (by omega) (by omega) ?_ ?_ ?_ <;> simp only [List.length_append]
    · omega
    · omega
    · rwa [show ((preOld.length + common.length : Nat) : Int) - preOld.length = common.length by
        omega]
  | @group common deleted inserted old new _ _ _ hne hrest hsep ih =>
    rintro preOld preNew rfl rfl
    have hagree := agree_common preOld preNew common (deleted ++ old) (inserted ++ new)
    refine .group (by omega) (by omega) (by dsimp only; omega) (by dsimp only; omega) ?_
      (by dsimp only; omega) (by dsimp only; omega) (fun g hg => (hsep g hg).1) ?_
    · dsimp only
      rw [show (preOld.length : Int) + common.length - preOld.length = common.length by omega]
      exact hagree
    · have hih := ih (preOld ++ (common ++ deleted)) (preNew ++ (common ++ inserted))
        (by simp only [List.length_append]; omega) (by simp only [List.length_append]; omega)
      simpa only [List.append_assoc] using hih

namespace Edits

theorem bounds (h : Edits old new x y groups) : x ≤ old.length ∧ y ≤ new.length := by
  induction h with
  | done hx hy hle hlen => omega
  | group hx hy hle hshift hagree holdCount hnewCount hsep hrest ih => omega

/-- The distance from an old position to the new one, as the source computes it: from the next
    group, or from the lengths after the last one. -/
def shift (old new : List α) : List ChangeGroup → Int
  | [] => new.length - old.length
  | g :: _ => g.newStart - g.oldStart

theorem shift_eq (h : Edits old new x y groups) : shift old new groups = y - x := by
  cases h with
  | done hx hy hle hlen => simp only [shift]; omega
  | group hx hy hle hshift => simp only [shift]; omega

/-- Up to the next group, or to the end, the texts agree. -/
theorem agree (h : Edits old new x y groups) {n : Int} (hn : x + n ≤ old.length)
    (hgap : ∀ g ∈ groups.head?, x + n ≤ g.oldStart) : Agree old new x y n := by
  cases h with
  | done hx hy hle hlen hagree =>
    simpa using hagree.sub (d := 0) (m := n) (by omega) (by omega)
  | group hx hy hle hshift hagree =>
    have := hgap _ rfl
    simpa using hagree.sub (d := 0) (m := n) (by omega) (by omega)

/-- The cut moves along the lines both texts share. -/
theorem advance (h : Edits old new x y groups) {n : Int} (h0 : 0 ≤ n) (hn : x + n ≤ old.length)
    (hgap : ∀ g ∈ groups.head?, x + n ≤ g.oldStart) :
    Edits old new (x + n) (y + n) groups := by
  cases h with
  | done hx hy hle hlen hagree =>
    exact .done (by omega) (by omega) hn (by omega) (hagree.sub h0 (by omega))
  | group hx hy hle hshift hagree holdCount hnewCount hsep hrest =>
    have := hgap _ rfl
    exact .group (by omega) (by omega) this (by omega) (hagree.sub h0 (by omega)) holdCount
      hnewCount hsep hrest

end Edits

end Edits

-- Region lists

section Chain

variable {α : Type} {tied : Bool} {base current incoming : List α}
  {regions : List MergeRegion} {r p : MergeRegion} {x y z x' y' z' : Int}

/-- What the mode of a region says about its three ranges. -/
def MergeMode.Sound (base current incoming : List α) (x y z x' y' z' : Int) : MergeMode → Prop
  | .conflict => True
  | .current => z' - z = x' - x ∧ Agree base incoming x z (x' - x)
  | .incoming => y' - y = x' - x ∧ Agree base current x y (x' - x)
  | .same => y' - y = z' - z ∧ Agree current incoming y z (y' - y)

/-- `r` covers the lines from `(x, y, z)` to `(x', y', z')`.  Its base range counts only when
    `tied`: refined conflicts of the merge style all carry the base range of their origin. -/
structure Spans (tied : Bool) (base current incoming : List α) (r : MergeRegion)
    (x y z x' y' z' : Int) : Prop where
  base_le : x ≤ x'
  current_le : y ≤ y'
  incoming_le : z ≤ z'
  currentStart_eq : r.currentStart = y
  currentCount_eq : r.currentCount = y' - y
  incomingStart_eq : r.incomingStart = z
  incomingCount_eq : r.incomingCount = z' - z
  base_eq : tied = true → r.baseStart = x ∧ r.baseCount = x' - x
  sound : r.mode.Sound base current incoming x y z x' y' z'

/-- The regions, newest first, with the gaps between them cover the first `x`, `y` and `z` lines.
    In a gap current and incoming agree; both may have dropped base lines there. -/
inductive Chain (tied : Bool) (base current incoming : List α) :
    List MergeRegion → Int → Int → Int → Prop
  | start : Chain tied base current incoming [] 0 0 0
  | gap {regions : List MergeRegion} {x y z x' y' z' : Int}
      (h : Chain tied base current incoming regions x y z) (hx : x ≤ x') (hy : y ≤ y')
      (hz : z' - z = y' - y) (hagree : Agree current incoming y z (y' - y)) :
      Chain tied base current incoming regions x' y' z'
  | region {regions : List MergeRegion} {x y z x' y' z' : Int} (r : MergeRegion)
      (h : Chain tied base current incoming regions x y z)
      (hr : Spans tied base current incoming r x y z x' y' z') :
      Chain tied base current incoming (r :: regions) x' y' z'

namespace Chain

theorem nonneg (h : Chain tied base current incoming regions x y z) : 0 ≤ x ∧ 0 ≤ y ∧ 0 ≤ z := by
  induction h with
  | start => omega
  | gap h hx hy hz hagree ih => omega
  | region r h hr ih =>
    have := hr.base_le
    have := hr.current_le
    have := hr.incoming_le
    omega

/-- The newest region, and the chain it was put on. -/
theorem newest (h : Chain tied base current incoming (p :: regions) x y z) :
    ∃ x0 y0 z0 x1 y1 z1, Chain tied base current incoming regions x0 y0 z0 ∧
      Spans tied base current incoming p x0 y0 z0 x1 y1 z1 ∧ x1 ≤ x ∧ y1 ≤ y ∧ z1 ≤ z := by
  generalize hlist : p :: regions = list at h
  induction h with
  | start => cases hlist
  | gap h hx hy hz hagree ih =>
    obtain ⟨x0, y0, z0, x1, y1, z1, hchain, hspan, h1, h2, h3⟩ := ih hlist
    exact ⟨x0, y0, z0, x1, y1, z1, hchain, hspan, by omega, by omega, by omega⟩
  | region r h hr ih =>
    cases hlist
    exact ⟨_, _, _, _, _, _, h, hr, Int.le_refl _, Int.le_refl _, Int.le_refl _⟩

/-- Every region lies inside the lines covered. -/
theorem inside (h : Chain tied base current incoming regions x y z) : ∀ r ∈ regions,
    ∃ x0 y0 z0 x1 y1 z1, Spans tied base current incoming r x0 y0 z0 x1 y1 z1 ∧
      0 ≤ x0 ∧ 0 ≤ y0 ∧ 0 ≤ z0 ∧ x1 ≤ x ∧ y1 ≤ y ∧ z1 ≤ z := by
  induction h with
  | start => simp
  | gap h hx hy hz hagree ih =>
    intro r hr
    obtain ⟨x0, y0, z0, x1, y1, z1, hspan, h1, h2, h3, h4, h5, h6⟩ := ih r hr
    exact ⟨x0, y0, z0, x1, y1, z1, hspan, h1, h2, h3, by omega, by omega, by omega⟩
  | region p h hp ih =>
    intro r hr
    have hle := hp.base_le
    have hle' := hp.current_le
    have hle'' := hp.incoming_le
    rcases List.mem_cons.1 hr with rfl | hr
    · have := h.nonneg
      exact ⟨_, _, _, _, _, _, hp, by omega, by omega, by omega, Int.le_refl _, Int.le_refl _,
        Int.le_refl _⟩
    · obtain ⟨x0, y0, z0, x1, y1, z1, hspan, h1, h2, h3, h4, h5, h6⟩ := ih r hr
      exact ⟨x0, y0, z0, x1, y1, z1, hspan, h1, h2, h3, by omega, by omega, by omega⟩

end Chain

-- The two sides change places

def MergeMode.swap : MergeMode → MergeMode
  | .conflict => .conflict
  | .current => .incoming
  | .incoming => .current
  | .same => .same

/-- The region of the merge with current and incoming exchanged. -/
def MergeRegion.swap (r : MergeRegion) : MergeRegion :=
  { mode := r.mode.swap, baseStart := r.baseStart, baseCount := r.baseCount
    currentStart := r.incomingStart, currentCount := r.incomingCount
    incomingStart := r.currentStart, incomingCount := r.currentCount }

def MergeList.swap (list : MergeList) : MergeList :=
  ⟨list.regions.map MergeRegion.swap, list.conflicts⟩

@[simp] theorem MergeMode.swap_swap (m : MergeMode) : m.swap.swap = m := by cases m <;> rfl

@[simp] theorem MergeMode.swap_eq_conflict (m : MergeMode) :
    m.swap = .conflict ↔ m = .conflict := by
  cases m <;> simp [MergeMode.swap]

@[simp] theorem MergeMode.swap_inj (m m' : MergeMode) : m.swap = m'.swap ↔ m = m' := by
  cases m <;> cases m' <;> simp [MergeMode.swap]

@[simp] theorem MergeRegion.swap_swap (r : MergeRegion) : r.swap.swap = r := by
  simp [MergeRegion.swap]

@[simp] theorem MergeList.swap_swap (list : MergeList) : list.swap.swap = list := by
  simp [MergeList.swap, Function.comp_def]

theorem Spans.swap (h : Spans tied base current incoming r x y z x' y' z') :
    Spans tied base incoming current r.swap x z y x' z' y' := by
  refine ⟨h.base_le, h.incoming_le, h.current_le, h.incomingStart_eq, h.incomingCount_eq,
    h.currentStart_eq, h.currentCount_eq, h.base_eq, ?_⟩
  have hsound := h.sound
  simp only [MergeRegion.swap]
  cases hmode : r.mode with
  | conflict => trivial
  | current => rwa [hmode] at hsound
  | incoming => rwa [hmode] at hsound
  | same =>
    rw [hmode] at hsound
    simp only [MergeMode.swap, MergeMode.Sound] at hsound ⊢
    rw [← hsound.1]
    exact ⟨rfl, hsound.2.symm⟩

theorem Chain.swap (h : Chain tied base current incoming regions x y z) :
    Chain tied base incoming current (regions.map MergeRegion.swap) x z y := by
  induction h with
  | start => exact .start
  | gap h hx hy hz hagree ih =>
    refine ih.gap hx (by omega) hz.symm ?_
    rw [hz]
    exact hagree.symm
  | region r h hr ih => exact .region r.swap ih hr.swap

end Chain

/-- Appending does not tell the two sides apart. -/
theorem appendRegion_swap (list : MergeList) (maxConflicts : Int) (region : MergeRegion) :
    appendRegion list.swap maxConflicts region.swap =
      MergeList.swap <$> appendRegion list maxConflicts region := by
  obtain ⟨regions, conflicts⟩ := list
  have hpush : pushRegion (MergeList.swap ⟨regions, conflicts⟩) maxConflicts region.swap =
      MergeList.swap <$> pushRegion ⟨regions, conflicts⟩ maxConflicts region := by
    unfold pushRegion
    by_cases hmode : region.mode = .conflict
    · have hswap : region.swap.mode = .conflict := (MergeMode.swap_eq_conflict _).2 hmode
      rw [if_pos hmode, if_pos hswap, apply_ite (MergeList.swap <$> ·)]
      rfl
    · have hswap : region.swap.mode ≠ .conflict := fun h =>
        hmode ((MergeMode.swap_eq_conflict _).1 h)
      rw [if_neg hmode, if_neg hswap]
      rfl
  cases regions with
  | nil => exact hpush
  | cons previous older =>
    have htouch : previous.swap.touches region.swap = previous.touches region := by
      simp only [MergeRegion.touches, MergeRegion.swap]
      exact Bool.or_comm _ _
    simp only [appendRegion, MergeList.swap, List.map_cons, htouch]
    by_cases hjoin : previous.touches region = true
    · simp only [if_pos hjoin, MergeRegion.swap, ne_eq, MergeMode.swap_inj,
        MergeMode.swap_eq_conflict]
      by_cases hmode : ¬region.mode = previous.mode ∧ ¬previous.mode = .conflict
      · by_cases hfull : conflicts ≥ maxConflicts
        · simp only [if_pos hmode, if_pos hfull]
          rfl
        · simp only [if_pos hmode, if_neg hfull]
          rfl
      · simp only [if_neg hmode]
        rfl
    · simp only [if_neg hjoin]
      exact hpush

-- Walking the two scripts

section Merging

variable {α : Type} {base current incoming : List α} {list : MergeList} {maxConflicts : Int}
  {region p : MergeRegion} {older : List MergeRegion} {left right : ChangeGroup}
  {rest other : List ChangeGroup} {x y z u v : Int}

theorem pushRegion_yields (Q : MergeList → Prop)
    (h : ∀ conflicts, Q ⟨region :: list.regions, conflicts⟩) :
    Yields (fun _ => pushRegion list maxConflicts region) Q :=
  Yields.ite (fun _ => Yields.guard fun _ => Yields.pure (h _)) fun _ => Yields.pure (h _)

/-- A region that starts behind everything covered so far is put on top. -/
theorem appendRegion_fresh (Q : MergeList → Prop)
    (hchain : Chain true base current incoming list.regions x y z)
    (hfresh : list.regions = [] ∨ (y < region.currentStart ∧ z < region.incomingStart))
    (h : ∀ conflicts, Q ⟨region :: list.regions, conflicts⟩) :
    Yields (fun _ => appendRegion list maxConflicts region) Q := by
  unfold appendRegion
  cases hregions : list.regions with
  | nil => exact pushRegion_yields Q h
  | cons previous older =>
    rw [hregions] at hchain hfresh
    obtain ⟨x0, y0, z0, x1, y1, z1, -, hspan, -, hy, hz⟩ := hchain.newest
    have hcs := hspan.currentStart_eq
    have hcc := hspan.currentCount_eq
    have his := hspan.incomingStart_eq
    have hic := hspan.incomingCount_eq
    obtain ⟨h1, h2⟩ := hfresh.resolve_left (by simp)
    have htouch : previous.touches region = false := by
      simp only [MergeRegion.touches, Bool.or_eq_false_iff, decide_eq_false_iff_not]
      omega
    simp only [htouch]
    exact pushRegion_yields Q h

/-- A region that touches a conflict is joined to it. -/
theorem appendRegion_joined (Q : MergeList → Prop) (hregions : list.regions = p :: older)
    (hmode : p.mode = .conflict) (htouch : region.currentStart ≤ p.currentStart + p.currentCount)
    (h : ∀ conflicts, Q ⟨p.extendTo region :: older, conflicts⟩) :
    Yields (fun _ => appendRegion list maxConflicts region) Q := by
  unfold appendRegion
  have ht : p.touches region = true := by simp [MergeRegion.touches, htouch]
  simp only [hregions, ht, if_true, hmode, ne_eq, not_true_eq_false, and_false, if_false]
  exact Yields.pure (h _)

/-- `p` is a conflict that may still grow.  It ends with the change `left` of current, and so far
    incoming is read up to `(u, v)` only: a further change of incoming may meet `left`. -/
structure Open (base current incoming : List α) (p : MergeRegion) (older : List MergeRegion)
    (left : ChangeGroup) (rest other : List ChangeGroup) (u v : Int) : Prop where
  older : Chain true base current incoming older p.baseStart p.currentStart p.incomingStart
  mode_eq : p.mode = .conflict
  base_end : p.baseStart + p.baseCount = left.oldStart + left.oldCount
  current_end : p.currentStart + p.currentCount = left.newStart + left.newCount
  incoming_end : p.incomingStart + p.incomingCount = v + (left.oldStart + left.oldCount - u)
  oldCount_nonneg : 0 ≤ left.oldCount
  newCount_nonneg : 0 ≤ left.newCount
  current_edits : Edits base current (left.oldStart + left.oldCount)
    (left.newStart + left.newCount) rest
  rest_sep : ∀ h ∈ rest.head?, left.oldStart + left.oldCount < h.oldStart
  incoming_edits : Edits base incoming u v other
  other_sep : ∀ h ∈ other.head?, u < h.oldStart
  left_le : left.oldStart ≤ u
  le_end : u ≤ left.oldStart + left.oldCount
  base_le : p.baseStart ≤ u
  current_le : p.currentStart ≤ left.newStart + left.newCount
  incoming_le : p.incomingStart ≤ v

/-- The state of the walk: the regions so far and the changes of either side still to come. -/
inductive Merging (base current incoming : List α) :
    List MergeRegion → List ChangeGroup → List ChangeGroup → Prop
  | closed {regions : List MergeRegion} {rest other : List ChangeGroup} {x y z : Int}
      (hchain : Chain true base current incoming regions x y z)
      (hcurrent : Edits base current x y rest) (hincoming : Edits base incoming x z other)
      (hfresh : regions = [] ∨
        ((∀ h ∈ rest.head?, x < h.oldStart) ∧ ∀ h ∈ other.head?, x < h.oldStart)) :
      Merging base current incoming regions rest other
  | openCurrent {p : MergeRegion} {older : List MergeRegion} {left : ChangeGroup}
      {rest other : List ChangeGroup} {u v : Int}
      (h : Open base current incoming p older left rest other u v) :
      Merging base current incoming (p :: older) (left :: rest) other
  | openIncoming {p : MergeRegion} {older : List MergeRegion} {right : ChangeGroup}
      {rest other : List ChangeGroup} {u v : Int}
      (h : Open base incoming current p.swap (older.map MergeRegion.swap) right other rest u v) :
      Merging base current incoming (p :: older) rest (right :: other)

theorem Merging.swap {regions : List MergeRegion}
    (h : Merging base current incoming regions rest other) :
    Merging base incoming current (regions.map MergeRegion.swap) other rest := by
  cases h with
  | closed hchain hcurrent hincoming hfresh =>
    exact .closed hchain.swap hincoming hcurrent
      (hfresh.imp (by rintro rfl; rfl) fun h => ⟨h.2, h.1⟩)
  | @openCurrent p older left rest other u v h =>
    refine .openIncoming (u := u) (v := v) ?_
    simpa [Function.comp_def] using h
  | openIncoming h => exact .openCurrent h

/-- A conflict that meets nothing further of incoming is closed. -/
theorem Open.close (h : Open base current incoming p older left rest other u v)
    (hgap : ∀ g ∈ other.head?, left.oldStart + left.oldCount < g.oldStart) :
    Merging base current incoming (p :: older) rest other := by
  have hb := h.current_edits.bounds
  have h1 := h.base_end
  have h2 := h.current_end
  have h3 := h.incoming_end
  have h4 := h.le_end
  have h5 := h.base_le
  have h6 := h.current_le
  have h7 := h.incoming_le
  have hadvance := h.incoming_edits.advance (n := left.oldStart + left.oldCount - u) (by omega)
    (by omega) fun g hg => by have := hgap g hg; omega
  rw [show u + (left.oldStart + left.oldCount - u) = left.oldStart + left.oldCount by omega]
    at hadvance
  refine .closed (.region p h.older ?_) h.current_edits hadvance (.inr ⟨h.rest_sep, hgap⟩)
  exact ⟨by omega, h.current_le, by omega, rfl, by omega, rfl, by omega,
    fun _ => ⟨rfl, by omega⟩, by rw [h.mode_eq]; trivial⟩

/-- A change of current before which incoming has none, and which none of incoming's touches. -/
theorem current_step (maxConflicts : Int)
    (h : Merging base current incoming list.regions (left :: rest) other)
    (hgap : ∀ g ∈ other.head?, left.oldStart + left.oldCount < g.oldStart) :
    Yields (fun _ => appendRegion list maxConflicts
        (currentRegion left (Edits.shift base incoming other)))
      (fun list => Merging base current incoming list.regions rest other) := by
  generalize hregions : list.regions = regions at h
  cases h with
  | @closed _ _ _ x y z hchain hcurrent hincoming hfresh =>
    rw [← hregions] at hchain hfresh
    rw [hincoming.shift_eq]
    cases hcurrent with
    | group hx hy hle hshift hagree holdCount hnewCount hsep hrest =>
      have hb := hrest.bounds
      apply appendRegion_fresh _ hchain
      · refine hfresh.imp_right fun hfresh => ?_
        have := hfresh.1 left rfl
        simp only [currentRegion]
        omega
      intro conflicts
      have hagree' := hincoming.agree (n := left.oldStart + left.oldCount - x) (by omega)
        fun g hg => by have := hgap g hg; omega
      have hadvance := hincoming.advance (n := left.oldStart + left.oldCount - x) (by omega)
        (by omega) fun g hg => by have := hgap g hg; omega
      rw [show x + (left.oldStart + left.oldCount - x) = left.oldStart + left.oldCount by omega]
        at hadvance
      have hbefore : Chain true base current incoming list.regions left.oldStart left.newStart
          (z + (left.oldStart - x)) := by
        refine hchain.gap hle (by omega) (by omega) ?_
        rw [hshift]
        exact hagree.symm.trans (by simpa using hagree'.sub (d := 0) (by omega) (by omega))
      refine .closed (.region _ hbefore ?_) hrest hadvance (.inr ⟨hsep, hgap⟩)
      refine ⟨by omega, by omega, by omega, rfl, by simp only [currentRegion]; omega,
        by simp only [currentRegion]; omega, by simp only [currentRegion]; omega,
        fun _ => ⟨rfl, by simp only [currentRegion]; omega⟩, by omega, ?_⟩
      have hsub := hagree'.sub (d := left.oldStart - x)
        (m := left.oldStart + left.oldCount - left.oldStart) (by omega) (by omega)
      rwa [show x + (left.oldStart - x) = left.oldStart by omega] at hsub
  | @openCurrent p older _ _ _ u v hopen =>
    -- `left` is part of the conflict already: joining it again changes nothing
    rw [hopen.incoming_edits.shift_eq]
    have h1 := hopen.base_end
    have h2 := hopen.current_end
    have h3 := hopen.incoming_end
    have h4 := hopen.newCount_nonneg
    apply appendRegion_joined _ hregions hopen.mode_eq
    · simp only [currentRegion]
      omega
    intro conflicts
    have hsame : p.extendTo (currentRegion left (v - u)) = p := by
      obtain ⟨mode, bs, bc, cs, cc, is, ic⟩ := p
      simp only [MergeRegion.extendTo, currentRegion, MergeRegion.mk.injEq, true_and] at *
      omega
    rw [hsame]
    exact hopen.close hgap
  | @openIncoming p older right _ _ u v hopen =>
    have h1 := hopen.other_sep left rfl
    have h2 := hopen.left_le
    have h3 := hgap right rfl
    cases hopen.incoming_edits with
    | group hx hy hle hshift hagree holdCount => omega

/-- What holds of appending in the exchanged merge holds of appending here. -/
theorem appendRegion_of_swap {Q : MergeList → Prop}
    (h : Yields (fun _ => appendRegion list.swap maxConflicts region.swap) fun l => Q l.swap) :
    Yields (fun _ => appendRegion list maxConflicts region) Q := by
  rw [appendRegion_swap] at h
  exact h.of_map.mono fun l hl => by rwa [MergeList.swap_swap] at hl

/-- The mirror image of `current_step`. -/
theorem incoming_step (maxConflicts : Int)
    (h : Merging base current incoming list.regions rest (right :: other))
    (hgap : ∀ g ∈ rest.head?, right.oldStart + right.oldCount < g.oldStart) :
    Yields (fun _ => appendRegion list maxConflicts
        (incomingRegion right (Edits.shift base current rest)))
      (fun list => Merging base current incoming list.regions rest other) := by
  apply appendRegion_of_swap
  have hswap : Merging base incoming current list.swap.regions (right :: other) rest := h.swap
  refine (current_step maxConflicts hswap hgap).mono fun l hl => ?_
  simpa [MergeList.swap] using hl.swap

/-- The two sides made the same change. -/
theorem same_step {regions : List MergeRegion}
    (h : Merging base current incoming regions (left :: rest) (right :: other))
    (hstart : left.oldStart = right.oldStart) (hold : left.oldCount = right.oldCount)
    (hnew : left.newCount = right.newCount)
    (hagree : Agree current incoming left.newStart right.newStart left.newCount) :
    Merging base current incoming regions rest other := by
  cases h with
  | @closed _ _ _ x y z hchain hcurrent hincoming hfresh =>
    cases hcurrent with
    | group hx hy hle hshift hagree1 holdCount hnewCount hsep hrest =>
    cases hincoming with
    | group hx' hz hle' hshift' hagree2 holdCount' hnewCount' hsep' hrest' =>
    have hgap : Chain true base current incoming regions left.oldStart left.newStart
        right.newStart := by
      refine hchain.gap hle (by omega) (by omega) ?_
      rw [← hstart] at hagree2
      rw [hshift]
      exact hagree1.symm.trans hagree2
    rw [← hstart, ← hold] at hrest' hsep'
    refine .closed (hgap.gap (by omega) (by omega) (by omega) ?_) hrest hrest'
      (.inr ⟨hsep, hsep'⟩)
    rwa [show left.newStart + left.newCount - left.newStart = left.newCount by omega]
  | openCurrent hopen =>
    have h1 := hopen.other_sep right rfl
    have h2 := hopen.left_le
    omega
  | openIncoming hopen =>
    have h1 := hopen.other_sep left rfl
    have h2 := hopen.left_le
    omega

/-- `overlapRegion` in closed form: from the first start to the last end, and on each side as
    many lines further as the base range is. -/
theorem overlapRegion_eq (left right : ChangeGroup) :
    let start := min left.oldStart right.oldStart
    let stop := max (left.oldStart + left.oldCount) (right.oldStart + right.oldCount)
    overlapRegion left right =
      { mode := .conflict
        baseStart := start
        baseCount := stop - start
        currentStart := left.newStart - (left.oldStart - start)
        currentCount := left.newCount + (left.oldStart - start) +
          (stop - (left.oldStart + left.oldCount))
        incomingStart := right.newStart - (right.oldStart - start)
        incomingCount := right.newCount + (right.oldStart - start) +
          (stop - (right.oldStart + right.oldCount)) } := by
  intro start stop
  simp only [overlapRegion]
  split <;> split <;> simp only [MergeRegion.mk.injEq, true_and] <;> omega

theorem overlapRegion_swap (left right : ChangeGroup) :
    (overlapRegion left right).swap = overlapRegion right left := by
  rw [overlapRegion_eq, overlapRegion_eq]
  simp only [MergeRegion.swap, MergeMode.swap, MergeRegion.mk.injEq, true_and]
  omega

/-- A conflict `p` that has reached the later end of two overlapping changes. -/
structure Grown (base current incoming : List α) (p : MergeRegion) (older : List MergeRegion)
    (left right : ChangeGroup) (rest other : List ChangeGroup) : Prop where
  older : Chain true base current incoming older p.baseStart p.currentStart p.incomingStart
  mode_eq : p.mode = .conflict
  base_end : p.baseStart + p.baseCount =
    max (left.oldStart + left.oldCount) (right.oldStart + right.oldCount)
  current_end : p.currentStart + p.currentCount = left.newStart + left.newCount +
    (p.baseStart + p.baseCount - (left.oldStart + left.oldCount))
  incoming_end : p.incomingStart + p.incomingCount = right.newStart + right.newCount +
    (p.baseStart + p.baseCount - (right.oldStart + right.oldCount))
  left_nonneg : 0 ≤ left.oldCount ∧ 0 ≤ left.newCount
  right_nonneg : 0 ≤ right.oldCount ∧ 0 ≤ right.newCount
  current_edits : Edits base current (left.oldStart + left.oldCount)
    (left.newStart + left.newCount) rest
  rest_sep : ∀ h ∈ rest.head?, left.oldStart + left.oldCount < h.oldStart
  incoming_edits : Edits base incoming (right.oldStart + right.oldCount)
    (right.newStart + right.newCount) other
  other_sep : ∀ h ∈ other.head?, right.oldStart + right.oldCount < h.oldStart
  left_le : left.oldStart ≤ right.oldStart + right.oldCount
  right_le : right.oldStart ≤ left.oldStart + left.oldCount
  base_le : p.baseStart ≤ min (left.oldStart + left.oldCount) (right.oldStart + right.oldCount)
  current_le : p.currentStart ≤ left.newStart + left.newCount
  incoming_le : p.incomingStart ≤ right.newStart + right.newCount

section

variable (h : Grown base current incoming p older left right rest other)

include h

theorem Grown.swap :
    Grown base incoming current p.swap (older.map MergeRegion.swap) right left other rest :=
  ⟨h.older.swap, by simp [MergeRegion.swap, h.mode_eq, MergeMode.swap], by
    rw [Int.max_comm]; exact h.base_end, h.incoming_end, h.current_end, h.right_nonneg,
    h.left_nonneg, h.incoming_edits, h.other_sep, h.current_edits, h.rest_sep, h.right_le,
    h.left_le, by rw [Int.min_comm]; exact h.base_le, h.incoming_le, h.current_le⟩

/-- When current's change ends last, it stays for the next turn. -/
theorem Grown.openCurrent (hlt : right.oldStart + right.oldCount < left.oldStart + left.oldCount) :
    Open base current incoming p older left rest other (right.oldStart + right.oldCount)
      (right.newStart + right.newCount) := by
  have h1 := h.base_end
  have h2 := h.current_end
  have h3 := h.incoming_end
  have h4 := h.base_le
  exact ⟨h.older, h.mode_eq, by omega, by omega, by omega, h.left_nonneg.1, h.left_nonneg.2,
    h.current_edits, h.rest_sep, h.incoming_edits, h.other_sep, h.left_le, by omega, by omega,
    h.current_le, h.incoming_le⟩

theorem Grown.merging :
    Merging base current incoming (p :: older)
      (if right.oldStart + right.oldCount ≥ left.oldStart + left.oldCount then rest
        else left :: rest)
      (if left.oldStart + left.oldCount ≥ right.oldStart + right.oldCount then other
        else right :: other) := by
  rcases Int.lt_trichotomy (right.oldStart + right.oldCount) (left.oldStart + left.oldCount) with
    hlt | heq | hgt
  · rw [if_neg (by omega), if_pos (by omega)]
    exact .openCurrent (h.openCurrent hlt)
  · rw [if_pos (by omega), if_pos (by omega)]
    have h1 := h.base_end
    have h2 := h.current_end
    have h3 := h.incoming_end
    have h4 := h.base_le
    have h5 := h.current_le
    have h6 := h.incoming_le
    have hincoming := h.incoming_edits
    have hother := h.other_sep
    rw [heq] at hincoming hother
    refine .closed (.region p h.older ?_) h.current_edits hincoming (.inr ⟨h.rest_sep, hother⟩)
    exact ⟨by omega, by omega, by omega, rfl, by omega, rfl, by omega,
      fun _ => ⟨rfl, by omega⟩, by rw [h.mode_eq]; trivial⟩
  · rw [if_pos (by omega), if_neg (by omega)]
    exact .openIncoming (h.swap.openCurrent hgt)

end

/-- Two changes that touch, on a conflict that current's change has opened. -/
theorem Open.overlap (h : Open base current incoming p older left rest (right :: other) u v)
    (hle : right.oldStart ≤ left.oldStart + left.oldCount) :
    Grown base current incoming (p.extendTo (overlapRegion left right)) older left right rest
      other := by
  have h1 := h.base_le
  have h2 := h.left_le
  have h3 := h.incoming_le
  have h4 := h.current_le
  have h5 := h.oldCount_nonneg
  have h6 := h.newCount_nonneg
  have h7 := h.le_end
  cases h.incoming_edits with
  | group hx hy hle' hshift hagree holdCount hnewCount hsep hrest =>
  rw [overlapRegion_eq]
  simp only [MergeRegion.extendTo]
  constructor <;> try dsimp only
  case older => exact h.older
  case mode_eq => exact h.mode_eq
  case current_edits => exact h.current_edits
  case rest_sep => exact h.rest_sep
  case incoming_edits => exact hrest
  case other_sep => exact hsep
  all_goals omega

/-- Two changes that touch and differ end up in one conflict. -/
theorem overlap_step (h : Merging base current incoming list.regions (left :: rest) (right :: other))
    (hleft : left.oldStart ≤ right.oldStart + right.oldCount)
    (hright : right.oldStart ≤ left.oldStart + left.oldCount) :
    Yields (fun _ => appendRegion list maxConflicts (overlapRegion left right)) fun list =>
      Merging base current incoming list.regions
        (if right.oldStart + right.oldCount ≥ left.oldStart + left.oldCount then rest
          else left :: rest)
        (if left.oldStart + left.oldCount ≥ right.oldStart + right.oldCount then other
          else right :: other) := by
  generalize hregions : list.regions = regions at h
  cases h with
  | @closed _ _ _ x y z hchain hcurrent hincoming hfresh =>
    rw [← hregions] at hchain hfresh
    cases hcurrent with
    | group hx hy hle hshift hagree holdCount hnewCount hsep hrest =>
    cases hincoming with
    | group hx' hz hle' hshift' hagree' holdCount' hnewCount' hsep' hrest' =>
    rw [overlapRegion_eq]
    apply appendRegion_fresh _ hchain
    · refine hfresh.imp_right fun hfresh => ?_
      have h1 := hfresh.1 left rfl
      have h2 := hfresh.2 right rfl
      dsimp only
      omega
    intro conflicts
    apply Grown.merging
    constructor <;> try dsimp only
    case older =>
      have hsub : ∀ n, n ≤ left.oldStart - x → n ≤ right.oldStart - x →
          Agree current incoming y z n := fun n h1 h2 =>
        (by simpa using hagree.symm.sub (d := 0) (m := n) (by omega) (by omega) :
          Agree current base y x n).trans
        (by simpa using hagree'.sub (d := 0) (m := n) (by omega) (by omega))
      exact hchain.gap (by omega) (by omega) (by omega) (hsub _ (by omega) (by omega))
    case current_edits => exact hrest
    case rest_sep => exact hsep
    case incoming_edits => exact hrest'
    case other_sep => exact hsep'
    all_goals omega
  | @openCurrent p older _ _ _ u v hopen =>
    apply appendRegion_joined _ hregions hopen.mode_eq
    · have h1 := hopen.current_end
      have h2 := hopen.newCount_nonneg
      rw [overlapRegion_eq]
      dsimp only
      have h3 := hopen.left_le
      have h4 := hopen.other_sep right rfl
      omega
    intro conflicts
    exact (hopen.overlap hright).merging
  | @openIncoming p older _ _ _ u v hopen =>
    -- the mirror image of the case above
    apply appendRegion_of_swap
    rw [overlapRegion_swap]
    have hswap : list.swap.regions = p.swap :: older.map MergeRegion.swap := by
      simp [MergeList.swap, hregions]
    apply appendRegion_joined _ hswap hopen.mode_eq
    · have h1 := hopen.current_end
      have h2 := hopen.newCount_nonneg
      rw [overlapRegion_eq]
      dsimp only
      have h3 := hopen.left_le
      have h4 := hopen.other_sep left rfl
      omega
    intro conflicts
    have hgrown := (hopen.overlap hleft).merging.swap
    simpa [MergeList.swap] using hgrown

end Merging

section Records

variable {records baseLines currentLines incomingLines : List ByteRecord}

/-- The lines of a text, as byte strings. -/
abbrev contents (records : List ByteRecord) : List (List UInt8) := records.map ByteRecord.content

theorem recordAt_yields {i : Int} (h0 : 0 ≤ i) (h1 : i < records.length) :
    Yields (fun _ => recordAt records i) fun r => readAt records i = some r := by
  obtain ⟨r, hr⟩ := readAt_isSome h0 h1
  exact Yields.ofOption hr hr

theorem byteRecordsEqual_readAt {i j : Int} {left right : ByteRecord}
    (hleft : readAt currentLines i = some left) (hright : readAt incomingLines j = some right)
    (heq : byteRecordsEqual left right = true) :
    readAt (contents currentLines) i = readAt (contents incomingLines) j := by
  rw [readAt_map, readAt_map, hleft, hright]
  exact congrArg some ((byteRecordsEqual_iff left right).1 heq)

theorem sameLines_yields (n : Nat) {i j : Int} (hi : 0 ≤ i) (hj : 0 ≤ j)
    (hin : i + n ≤ currentLines.length) (hjn : j + n ≤ incomingLines.length) :
    Yields (fun _ => sameLines currentLines incomingLines n i j) fun same =>
      same = true → Agree (contents currentLines) (contents incomingLines) i j n := by
  induction n generalizing i j with
  | zero => exact Yields.pure fun _ => Agree.of_le (by omega)
  | succ n ih =>
    refine (recordAt_yields hi (by omega)).bind fun left hleft => ?_
    refine (recordAt_yields hj (by omega)).bind fun right hright => ?_
    refine Yields.ite (fun heq => ?_) fun _ => Yields.pure (by simp)
    refine (ih (by omega) (by omega) (by omega) (by omega)).mono fun same hsame htrue => ?_
    rw [Int.natCast_succ]
    exact Agree.cons (byteRecordsEqual_readAt hleft hright heq) (hsame htrue)

/-- `sameChange` finds the same change only where the walk is closed. -/
theorem sameChange_yields {regions : List MergeRegion} {left right : ChangeGroup}
    {rest other : List ChangeGroup}
    (h : Merging (contents baseLines) (contents currentLines) (contents incomingLines) regions
      (left :: rest) (right :: other)) :
    Yields (fun _ => sameChange left right currentLines incomingLines) fun same =>
      same = true → left.oldStart = right.oldStart ∧ left.oldCount = right.oldCount ∧
        left.newCount = right.newCount ∧ Agree (contents currentLines) (contents incomingLines)
          left.newStart right.newStart left.newCount := by
  refine Yields.ite (fun _ => Yields.pure (by simp)) fun heq => ?_
  cases h with
  | closed hchain hcurrent hincoming hfresh =>
    cases hcurrent with
    | group hx hy hle hshift hagree holdCount hnewCount hsep hrest =>
    cases hincoming with
    | group hx' hz hle' hshift' hagree' holdCount' hnewCount' hsep' hrest' =>
    have hb := hrest.bounds.2
    have hb' := hrest'.bounds.2
    simp only [contents, List.length_map] at hb hb'
    refine (sameLines_yields _ (by omega) (by omega) (by omega) (by omega)).mono
      fun same hsame htrue => ⟨by omega, by omega, by omega, ?_⟩
    have hres := hsame htrue
    rwa [Int.toNat_of_nonneg hnewCount] at hres
  | openCurrent hopen =>
    have h1 := hopen.other_sep right rfl
    have h2 := hopen.left_le
    omega
  | openIncoming hopen =>
    have h1 := hopen.other_sep left rfl
    have h2 := hopen.left_le
    omega

variable {maxConflicts : Int}

/-- The second loop: current's changes after the last one of incoming. -/
theorem currentTail_yields (rest : List ChangeGroup) {list : MergeList}
    (h : Merging (contents baseLines) (contents currentLines) (contents incomingLines)
      list.regions rest []) :
    Yields (fun _ => rest.foldlM (fun list change => appendRegion list maxConflicts
        (currentRegion change (incomingLines.length - baseLines.length))) list) fun list =>
      Merging (contents baseLines) (contents currentLines) (contents incomingLines)
        list.regions [] [] := by
  induction rest generalizing list with
  | nil => exact Yields.pure h
  | cons left rest ih =>
    have hstep := current_step maxConflicts h (by simp)
    simp only [Edits.shift, contents, List.length_map] at hstep
    simp only [List.foldlM_cons]
    exact hstep.bind fun list hlist => ih hlist

/-- The third loop: incoming's changes after the last one of current. -/
theorem incomingTail_yields (other : List ChangeGroup) {list : MergeList}
    (h : Merging (contents baseLines) (contents currentLines) (contents incomingLines)
      list.regions [] other) :
    Yields (fun _ => other.foldlM (fun list change => appendRegion list maxConflicts
        (incomingRegion change (currentLines.length - baseLines.length))) list) fun list =>
      Merging (contents baseLines) (contents currentLines) (contents incomingLines)
        list.regions [] [] := by
  induction other generalizing list with
  | nil => exact Yields.pure h
  | cons right other ih =>
    have hstep := incoming_step maxConflicts h (by simp)
    simp only [Edits.shift, contents, List.length_map] at hstep
    simp only [List.foldlM_cons]
    exact hstep.bind fun list hlist => ih hlist

theorem mergeChanges_yields (n : Nat) (list : MergeList)
    (current incoming : List ChangeGroup) (hn : current.length + incoming.length ≤ n)
    (h : Merging (contents baseLines) (contents currentLines) (contents incomingLines)
      list.regions current incoming) :
    Yields (fun _ => mergeChanges currentLines incomingLines baseLines.length maxConflicts n list
        current incoming) fun list =>
      Merging (contents baseLines) (contents currentLines) (contents incomingLines)
        list.regions [] [] := by
  induction n generalizing list current incoming with
  | zero =>
    obtain rfl : current = [] := List.eq_nil_of_length_eq_zero (by omega)
    obtain rfl : incoming = [] := List.eq_nil_of_length_eq_zero (by omega)
    exact (currentTail_yields [] h).bind fun list hlist => incomingTail_yields [] hlist
  | succ n ih =>
    cases current with
    | nil =>
      simp only [mergeChanges, List.foldlM_nil, pure_bind]
      exact incomingTail_yields incoming h
    | cons left current =>
    cases incoming with
    | nil =>
      simp only [mergeChanges]
      exact (currentTail_yields _ h).bind fun list hlist => incomingTail_yields [] hlist
    | cons right incoming =>
    simp only [List.length_cons] at hn
    simp only [mergeChanges]
    refine Yields.ite (fun hlt => ?_) fun hge => Yields.ite (fun hlt => ?_) fun hge' => ?_
    · refine (current_step maxConflicts h (by simpa using hlt)).bind fun list hlist => ?_
      exact ih list _ _ (by simp only [List.length_cons]; omega) hlist
    · refine (incoming_step maxConflicts h (by simpa using hlt)).bind fun list hlist => ?_
      exact ih list _ _ (by simp only [List.length_cons]; omega) hlist
    · have hshorter : (if right.oldStart + right.oldCount ≥ left.oldStart + left.oldCount then
            current else left :: current).length +
          (if left.oldStart + left.oldCount ≥ right.oldStart + right.oldCount then incoming
            else right :: incoming).length ≤ n := by
        split <;> split <;> (try simp only [List.length_cons]) <;> omega
      refine (sameChange_yields h).bind fun same hsame => Yields.ite (fun htrue => ?_) fun _ => ?_
      · obtain ⟨hstart, hold, hnew, hagree⟩ := hsame htrue
        rw [if_pos (by omega), if_pos (by omega)] at hshorter ⊢
        exact ih list _ _ hshorter (same_step h hstart hold hnew hagree)
      · refine (overlap_step h (by omega) (by omega)).bind fun list hlist => ?_
        exact ih list _ _ hshorter hlist

theorem Merging.chain {α : Type} {base current incoming : List α} {regions : List MergeRegion}
    (h : Merging base current incoming regions [] []) :
    Chain true base current incoming regions base.length current.length incoming.length := by
  cases h with
  | closed hchain hcurrent hincoming hfresh =>
    cases hcurrent with
    | done hx hy hle hlen hagree =>
    cases hincoming with
    | done hx' hz hle' hlen' hagree' =>
    refine hchain.gap hle (by omega) (by omega) ?_
    rw [← hlen]
    exact hagree.symm.trans hagree'

/-- The regions of two edit scripts of one base cover all three texts. -/
theorem buildMergeRegions_yields {current incoming : List ChangeGroup}
    (hcurrent : Script (contents baseLines) (contents currentLines) 0 0 current)
    (hincoming : Script (contents baseLines) (contents incomingLines) 0 0 incoming) :
    Yields (fun _ => buildMergeRegions current incoming currentLines incomingLines
        baseLines.length maxConflicts) fun regions =>
      Chain true (contents baseLines) (contents currentLines) (contents incomingLines)
        regions.reverse baseLines.length currentLines.length incomingLines.length := by
  have hstart : Merging (contents baseLines) (contents currentLines) (contents incomingLines) []
      current incoming := .closed .start (hcurrent.edits [] [] rfl rfl)
        (hincoming.edits [] [] rfl rfl) (.inl rfl)
  refine (mergeChanges_yields _ ⟨[], 0⟩ current incoming (Nat.le_refl _) hstart).bind
    fun list hlist => Yields.pure ?_
  simpa [contents] using hlist.chain

end Records

end Kompjutr.Diff
