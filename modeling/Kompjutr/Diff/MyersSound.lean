/-
  Kompjutr.Diff.MyersSound

  The whole differ terminates with a correct edit script
  (`diffClassified_settles`, and its two instances).

  The passes before it leave the unmarked lines of both sides equal, class by
  class (`aligned_of_compared`, `compact_settles`); `buildScript` reads the
  groups off the marks.  `Script` is its invariant: a list of groups that edits
  one suffix into another, with every group but the first behind at least one
  common line.  What a reader of the groups relies on is `Correct`.
-/
import Kompjutr.Diff.Myers
import Kompjutr.Diff.CompareSound
import Kompjutr.Diff.CompactSound
import Mathlib.Order.Interval.Finset.Defs
import Mathlib.Data.Int.Interval

namespace Kompjutr.Diff

open Kompjutr.Fuel
open List (length_append length_map map_map mem_filter)

variable {a b : Int} {s t : Side}

-- What a correct list of groups is

section Spec

variable {α : Type}

/-- The elements `[a, b)`. -/
def slice (xs : List α) (a b : Int) : List α := (xs.take b.toNat).drop a.toNat

/-- Walk along `xs` from `pos` and collect what lies outside the ranges `(start, count)`. -/
def outside (xs : List α) : Int → List (Int × Int) → List α
  | pos, [] => xs.drop pos.toNat
  | pos, (start, count) :: rest => slice xs pos start ++ outside xs (start + count) rest

/-- Replace the old range of every group by its new range. -/
def applyGroups (old new : List α) : Int → List ChangeGroup → List α
  | pos, [] => old.drop pos.toNat
  | pos, g :: rest =>
    slice old pos g.oldStart ++ slice new g.newStart (g.newStart + g.newCount) ++
      applyGroups old new (g.oldStart + g.oldCount) rest

/-- A group lies inside both files and is not empty. -/
def InRange (old new : List α) (g : ChangeGroup) : Prop :=
  0 ≤ g.oldStart ∧ 0 ≤ g.oldCount ∧ g.oldStart + g.oldCount ≤ old.length ∧
  0 ≤ g.newStart ∧ 0 ≤ g.newCount ∧ g.newStart + g.newCount ≤ new.length ∧
  0 < g.oldCount + g.newCount

/-- `g` ends before `h` starts, with at least one line between them on either side. -/
def Before (g h : ChangeGroup) : Prop :=
  g.oldStart + g.oldCount < h.oldStart ∧ g.newStart + g.newCount < h.newStart

/-- The groups are in range, sorted, disjoint and not adjacent; the lines outside them are
    the same; and they turn `old` into `new`. -/
structure Correct (old new : List α) (groups : List ChangeGroup) : Prop where
  in_range : ∀ g ∈ groups, InRange old new g
  before : groups.Pairwise Before
  outside_eq : outside old 0 (groups.map fun g => (g.oldStart, g.oldCount)) =
    outside new 0 (groups.map fun g => (g.newStart, g.newCount))
  apply_eq : applyGroups old new 0 groups = new

end Spec

/-- `groups` edits the suffix `old`, at line `i`, into the suffix `new`, at line `j`. -/
inductive Script {α : Type} : List α → List α → Int → Int → List ChangeGroup → Prop
  | done (common : List α) (i j : Int) : Script common common i j []
  | group (common deleted inserted : List α) {old new : List α} {i j : Int}
      {rest : List ChangeGroup} (hne : 0 < deleted.length + inserted.length)
      (hrest : Script old new (i + common.length + deleted.length)
        (j + common.length + inserted.length) rest)
      (hsep : ∀ h ∈ rest.head?, i + common.length + deleted.length < h.oldStart ∧
        j + common.length + inserted.length < h.newStart) :
      Script (common ++ (deleted ++ old)) (common ++ (inserted ++ new)) i j
        (⟨i + common.length, deleted.length, j + common.length, inserted.length⟩ :: rest)

namespace Script

variable {α : Type} {old new : List α} {i j : Int} {groups : List ChangeGroup}

theorem cons (x : α) (h : Script old new (i + 1) (j + 1) groups) :
    Script (x :: old) (x :: new) i j groups := by
  cases h with
  | done common => exact .done _ _ _
  | group common deleted inserted hne hrest hsep =>
    have e1 : i + 1 + (common.length : Int) = i + ((x :: common).length : Int) := by
      simp only [List.length_cons]; omega
    have e2 : j + 1 + (common.length : Int) = j + ((x :: common).length : Int) := by
      simp only [List.length_cons]; omega
    rw [e1, e2] at hrest hsep ⊢
    exact .group (x :: common) deleted inserted hne hrest hsep

/-- Every group starts at or after the suffix does, and inside it. -/
theorem in_suffix (h : Script old new i j groups) : ∀ g ∈ groups,
    i ≤ g.oldStart ∧ 0 ≤ g.oldCount ∧ g.oldStart + g.oldCount ≤ i + old.length ∧
    j ≤ g.newStart ∧ 0 ≤ g.newCount ∧ g.newStart + g.newCount ≤ j + new.length ∧
    0 < g.oldCount + g.newCount := by
  induction h with
  | done => intro g hg; cases hg
  | group common deleted inserted hne hrest hsep ih =>
    intro g hg
    rcases List.mem_cons.1 hg with rfl | hg
    · simp only [length_append]
      omega
    · have := ih g hg
      simp only [length_append]
      omega

theorem pairwise (h : Script old new i j groups) : groups.Pairwise Before := by
  induction h with
  | done => exact List.Pairwise.nil
  | @group common deleted inserted old new i j rest hne hrest hsep ih =>
    refine List.Pairwise.cons (fun h hh => ?_) ih
    cases rest with
    | nil => cases hh
    | cons g rest =>
      have hg := hsep g (by simp)
      rcases List.mem_cons.1 hh with rfl | hh
      · exact hg
      · have hb := (List.pairwise_cons.1 ih).1 h hh
        have hs := hrest.in_suffix g (by simp)
        simp only [Before] at hb ⊢
        omega

end Script

variable {α : Type}

theorem slice_append_left (pre xs : List α) (ha : 0 ≤ a) :
    slice (pre ++ xs) (pre.length + a) (pre.length + b) = slice xs a b := by
  unfold slice
  by_cases hb : 0 ≤ b
  · have e1 : ((pre.length : Int) + b).toNat = pre.length + b.toNat := by omega
    have e2 : ((pre.length : Int) + a).toNat = pre.length + a.toNat := by omega
    rw [e1, e2, List.take_length_add_append, List.drop_length_add_append]
  · have e1 : ((pre.length : Int) + b).toNat ≤ pre.length := by omega
    have e2 : b.toNat = 0 := by omega
    rw [e2, List.drop_eq_nil_of_le (by simp; omega)]
    simp

theorem slice_prefix (pre common xs : List α) :
    slice (pre ++ (common ++ xs)) pre.length (pre.length + common.length) = common := by
  have h := slice_append_left pre (common ++ xs) (a := 0) (b := common.length) (by omega)
  rw [Int.add_zero] at h
  rw [h]
  simp [slice]

section

variable {α : Type} {old new : List α} {i j : Int} {groups : List ChangeGroup}
  (h : Script old new i j groups)

include h

/-- The gaps of both sides are the same lines, and the script turns the old suffix into the new
    one. -/
theorem Script.outside_apply : ∀ preOld preNew : List α,
    i = preOld.length → j = preNew.length →
    outside (preOld ++ old) i (groups.map fun g => (g.oldStart, g.oldCount)) =
      outside (preNew ++ new) j (groups.map fun g => (g.newStart, g.newCount)) ∧
    applyGroups (preOld ++ old) (preNew ++ new) i groups = new := by
  induction h with
  | done common i j =>
    rintro preOld preNew rfl rfl
    exact ⟨by simp [outside], by simp [applyGroups]⟩
  | @group common deleted inserted old new i j rest hne hrest hsep ih =>
    rintro preOld preNew rfl rfl
    obtain ⟨hout, happly⟩ := ih (preOld ++ common ++ deleted) (preNew ++ common ++ inserted)
      (by simp only [length_append]; omega) (by simp only [length_append]; omega)
    have hins := slice_prefix (preNew ++ common) inserted new
    simp only [length_append, List.append_assoc, Int.natCast_add] at hout happly hins
    constructor
    · simp only [List.map_cons, outside, slice_prefix, hout]
    · simp only [applyGroups, slice_prefix, hins, happly, List.append_assoc]

end

variable {groups : List ChangeGroup}

theorem Script.correct {old new : List α}
    (h : Script old new 0 0 groups) : Correct old new groups := by
  refine ⟨fun g hg => ?_, h.pairwise, ?_, ?_⟩
  · have := h.in_suffix g hg
    simp only [InRange]
    omega
  · simpa using (h.outside_apply [] [] rfl rfl).1
  · simpa using (h.outside_apply [] [] rfl rfl).2

-- Reading the groups off the marks

/-- The units of every line. -/
def Side.units (s : Side) : List (List Nat) := s.lines.map LineRecord.units

/-- Lines of one class are equal. -/
theorem units_eq_of_class {left right : Side} {den : Nat → Option (List Nat)}
    (hl : left.Denotes den) (hr : right.Denotes den) {i j : Int} (hi : 0 ≤ i)
    (hi' : i < left.length) (hj : 0 ≤ j) (hclass : left.classAt i = right.classAt j) :
    ∃ u, readAt left.units i = some u ∧ readAt right.units j = some u := by
  have hread : ∀ (s : Side), s.Denotes den → ∀ k : Nat,
      (s.classes[k]?).map den = (s.units[k]?).map some := by
    intro s hs k
    have := congrArg (fun xs => xs[k]?) hs
    simpa [Side.units, Function.comp_def] using this
  obtain ⟨a, rfl⟩ : ∃ a : Nat, i = a := ⟨i.toNat, by omega⟩
  obtain ⟨b, rfl⟩ : ∃ b : Nat, j = b := ⟨j.toNat, by omega⟩
  have ha := hread left hl a
  have hb := hread right hr b
  simp only [Side.classAt, readAt_natCast] at hclass ⊢
  have hlt : a < left.units.length := by
    simp only [Side.units, length_map]
    simp only [Side.length] at hi'
    omega
  refine ⟨left.units[a], List.getElem?_eq_getElem hlt, ?_⟩
  rw [hclass, hb, List.getElem?_eq_getElem hlt] at ha
  cases hy : right.units[b]? with
  | none => simp [hy] at ha
  | some y => simpa [hy] using ha

theorem drop_of_readAt {xs : List α} {i : Int} {x : α} (h : readAt xs i = some x) :
    xs.drop i.toNat = x :: xs.drop (i + 1).toNat := by
  obtain ⟨k, rfl, hk⟩ := getElem?_of_readAt h
  obtain ⟨hlt, rfl⟩ := List.getElem?_eq_some_iff.1 hk
  have e : ((k : Int) + 1).toNat = k + 1 := by omega
  rw [e, Int.toNat_natCast, List.drop_eq_getElem_cons hlt]

theorem drop_split (xs : List α) (ha : 0 ≤ a) (hab : a ≤ b) (hb : b ≤ xs.length) :
    ∃ run : List α, (run.length : Int) = b - a ∧ xs.drop a.toNat = run ++ xs.drop b.toNat := by
  refine ⟨(xs.drop a.toNat).take (b.toNat - a.toNat), ?_, ?_⟩
  · simp only [List.length_take, List.length_drop]
    omega
  · have e : b.toNat = a.toNat + (b.toNat - a.toNat) := by omega
    conv_rhs => rw [e, ← List.drop_drop, Nat.add_sub_cancel_left]
    exact (List.take_append_drop _ _).symm

/-- The state of the walk: the lines before it are still aligned, and the groups collected
    edit the lines behind it.  `gap` is the distance to the first of them. -/
structure WalkInv (left right : Side) (gap i1 i2 : Int) (groups : List ChangeGroup) : Prop where
  i1_nonneg : 0 ≤ i1
  i1_le : i1 ≤ left.length
  i2_nonneg : 0 ≤ i2
  i2_le : i2 ≤ right.length
  kept : left.kept 0 i1 = right.kept 0 i2
  script : Script (left.units.drop i1.toNat) (right.units.drop i2.toNat) i1 i2 groups
  gap_le : ∀ h ∈ groups.head?, i1 + gap ≤ h.oldStart ∧ i2 + gap ≤ h.newStart

section Walk

variable {left right : Side} (den : Nat → Option (List Nat))

/-- Two unmarked lines are passed together. -/
theorem WalkInv.pass (hl : left.Denotes den) (hr : right.Denotes den) {i1 i2 : Int} (h : WalkInv left right 0 i1 i2 groups)
    (h1 : left.changed.get (i1 - 1) = false) (h2 : right.changed.get (i2 - 1) = false) :
    (i1 = 0 ∧ i2 = 0) ∨ WalkInv left right 1 (i1 - 1) (i2 - 1) groups := by
  have a1 := h.i1_nonneg
  have a2 := h.i1_le
  have a3 := h.i2_nonneg
  have a4 := h.i2_le
  have hk := h.kept
  by_cases hz1 : i1 = 0
  · by_cases hz2 : i2 = 0
    · exact .inl ⟨hz1, hz2⟩
    · rw [hz1, right.kept_snoc (by omega), h2] at hk
      simp at hk
  by_cases hz2 : i2 = 0
  · rw [hz2, left.kept_snoc (by omega), h1] at hk
    simp at hk
  rw [left.kept_snoc (by omega), right.kept_snoc (by omega), h1, h2] at hk
  simp only [Bool.false_eq_true, if_false] at hk
  obtain ⟨hk1, hk2⟩ := List.append_inj' hk rfl
  obtain ⟨u, hu1, hu2⟩ := units_eq_of_class hl hr (i := i1 - 1) (j := i2 - 1) (by omega) (by omega)
    (by omega) (List.head_eq_of_cons_eq hk2)
  refine .inr ⟨by omega, by omega, by omega, by omega, hk1, ?_, fun g hg => ?_⟩
  · rw [drop_of_readAt hu1, drop_of_readAt hu2]
    have e1 : i1 - 1 + 1 = i1 := by omega
    have e2 : i2 - 1 + 1 = i2 := by omega
    rw [e1, e2]
    refine Script.cons u ?_
    rw [e1, e2]
    exact h.script
  · have := h.gap_le g hg
    omega

/-- A marked run in front of the walk becomes a group. -/
theorem WalkInv.collect (hleft : left.Ok) (hright : right.Ok) {i1 i2 : Int} (h : WalkInv left right 1 i1 i2 groups)
    (hmark : left.changed.get (i1 - 1) = true ∨ right.changed.get (i2 - 1) = true) :
    WalkInv left right 0 (markedStart left.changed i1) (markedStart right.changed i2)
      (⟨markedStart left.changed i1, i1 - markedStart left.changed i1,
        markedStart right.changed i2, i2 - markedStart right.changed i2⟩ :: groups) ∧
    left.changed.get (markedStart left.changed i1 - 1) = false ∧
    right.changed.get (markedStart right.changed i2 - 1) = false := by
  have a2 := h.i1_le
  have a4 := h.i2_le
  simp only [Side.length] at a2 a4
  obtain ⟨b1, b2, b3, b4⟩ := markedStart_spec hleft.within h.i1_nonneg a2
  obtain ⟨c1, c2, c3, c4⟩ := markedStart_spec hright.within h.i2_nonneg a4
  have hne : markedStart left.changed i1 < i1 ∨ markedStart right.changed i2 < i2 := by
    rcases hmark with hm | hm
    · left
      by_contra hge
      rw [show markedStart left.changed i1 = i1 by omega, hm] at b4
      cases b4
    · right
      by_contra hge
      rw [show markedStart right.changed i2 = i2 by omega, hm] at c4
      cases c4
  generalize markedStart left.changed i1 = j1 at *
  generalize markedStart right.changed i2 = j2 at *
  have hlen1 : (left.units.length : Int) = left.lines.length := by simp [Side.units]
  have hlen2 : (right.units.length : Int) = right.lines.length := by simp [Side.units]
  obtain ⟨deleted, hd, hd'⟩ := drop_split left.units b1 b2 (by omega)
  obtain ⟨inserted, hi, hi'⟩ := drop_split right.units c1 c2 (by omega)
  refine ⟨⟨b1, by simp only [Side.length]; omega, c1, by simp only [Side.length]; omega, ?_, ?_,
    fun g hg => ?_⟩, b4, c4⟩
  · have hk := h.kept
    rw [left.kept_append b1 b2, right.kept_append c1 c2, Side.kept_eq_nil b3,
      Side.kept_eq_nil c3] at hk
    simpa using hk
  · have e1 : j1 + (([] : List (List Nat)).length : Int) = j1 := by simp
    have e2 : j2 + (([] : List (List Nat)).length : Int) = j2 := by simp
    have e3 : j1 + (deleted.length : Int) = i1 := by omega
    have e4 : j2 + (inserted.length : Int) = i2 := by omega
    have hscript : Script (left.units.drop i1.toNat) (right.units.drop i2.toNat)
        (j1 + (([] : List (List Nat)).length : Int) + deleted.length)
        (j2 + (([] : List (List Nat)).length : Int) + inserted.length) groups := by
      rw [e1, e2, e3, e4]
      exact h.script
    have hgroup := Script.group (i := j1) (j := j2) [] deleted inserted (by omega) hscript
      (fun g hg => by
        rw [e1, e2, e3, e4]
        have := h.gap_le g hg
        omega)
    rw [e1, e2, hd, hi, List.nil_append, List.nil_append] at hgroup
    rw [hd', hi']
    exact hgroup
  · simp only [List.head?_cons, Option.mem_def, Option.some.injEq] at hg
    subst hg
    dsimp only
    omega

/-- What the caller gets for `groups` under `maxChanges`. -/
def limitChanges (maxChanges : Option Int) (groups : List ChangeGroup) :
    Except GitError (List ChangeGroup) :=
  match maxChanges with
  | none => .ok groups
  | some m => if m < groups.length ∧ 0 < groups.length then .error (tooManyChanges m) else .ok groups

/-- The unlimited walk ends with a script for the whole file. -/
theorem buildScript_settles (hleft : left.Ok) (hright : right.Ok) (haligned : Aligned left right)
    (hl : left.Denotes den) (hr : right.Denotes den) :
    ∃ groups, Script left.units right.units 0 0 groups ∧
      Settles (fun fuel => buildScript fuel left right none) (.ok groups) := by
  have hlen1 : left.length.toNat = left.units.length := by simp [Side.length, Side.units]
  have hlen2 : right.length.toNat = right.units.length := by simp [Side.length, Side.units]
  obtain ⟨out, hout, groups, rfl, hscript⟩ := loop_settles
    (f := fun _ w => some (scriptTurn left right none w))
    (fun w => WalkInv left right 1 w.i1 w.i2 w.groups.reverse ∨
      (w.i1 = -1 ∧ w.i2 = -1 ∧ Script left.units right.units 0 0 w.groups.reverse))
    (fun out => ∃ groups, out = .ok groups ∧ Script left.units right.units 0 0 groups)
    (fun w => (w.i1 + 1).toNat)
    (fun w hw => by
      rcases hw with hinv | ⟨h1, h2, hscript⟩
      · have a1 := hinv.i1_nonneg
        -- after the marked runs, if any, one unmarked line is passed on either side
        have finish : ∀ (i1 i2 : Int) (groups : List ChangeGroup), i1 ≤ w.i1 →
            WalkInv left right 0 i1 i2 groups.reverse → left.changed.get (i1 - 1) = false →
            right.changed.get (i2 - 1) = false →
            (WalkInv left right 1 (i1 - 1) (i2 - 1) groups.reverse ∨
              (i1 - 1 = -1 ∧ i2 - 1 = -1 ∧ Script left.units right.units 0 0 groups.reverse)) ∧
            (i1 - 1 + 1).toNat < (w.i1 + 1).toNat := by
          intro i1 i2 groups hle hi h1 h2
          have b1 := hi.i1_nonneg
          refine ⟨?_, by omega⟩
          rcases hi.pass den hl hr h1 h2 with ⟨rfl, rfl⟩ | hi'
          · exact .inr ⟨by omega, by omega, by simpa using hi.script⟩
          · exact .inl hi'
        by_cases hmark : left.changed.get (w.i1 - 1) = true ∨ right.changed.get (w.i2 - 1) = true
        · obtain ⟨hi, h1, h2⟩ := hinv.collect hleft hright hmark
          refine .inr ⟨⟨markedStart left.changed w.i1 - 1, markedStart right.changed w.i2 - 1,
            w.groups ++ [⟨markedStart left.changed w.i1, w.i1 - markedStart left.changed w.i1,
              markedStart right.changed w.i2, w.i2 - markedStart right.changed w.i2⟩]⟩,
            Settles.of_const fun _ => ?_, finish _ _ _ ?_ ?_ h1 h2⟩
          · simp [scriptTurn, a1, hmark, atLimit]
          · have a2 := hinv.i1_le
            exact (markedStart_spec hleft.within a1 a2).2.1
          · simpa using hi
        · refine .inr ⟨⟨w.i1 - 1, w.i2 - 1, w.groups⟩, Settles.of_const fun _ => ?_,
            finish w.i1 w.i2 w.groups (Int.le_refl _) ⟨hinv.i1_nonneg, hinv.i1_le, hinv.i2_nonneg,
              hinv.i2_le, hinv.kept, hinv.script, fun g hg => ?_⟩ ?_ ?_⟩
          · simp [scriptTurn, a1, hmark]
          · have := hinv.gap_le g hg
            omega
          · simp only [not_or] at hmark
            simpa using hmark.1
          · simp only [not_or] at hmark
            simpa using hmark.2
      · exact .inl ⟨.ok w.groups.reverse, Settles.of_const fun _ => by simp [scriptTurn, h1, h2],
          w.groups.reverse, rfl, hscript⟩)
    ⟨left.length, right.length, []⟩
    (.inl ⟨by simp [Side.length], Int.le_refl _, by simp [Side.length], Int.le_refl _, haligned, by
      rw [hlen1, hlen2, List.drop_length, List.drop_length]
      exact .done [] _ _, fun g hg => by cases hg⟩)
  exact ⟨groups, hscript, hout⟩

/-- Without marked lines there is nothing to collect. -/
theorem buildScript_unmarked (hleft : ∀ i, left.changed.get i = false)
    (hright : ∀ i, right.changed.get i = false) :
    Settles (fun fuel => buildScript fuel left right none) (.ok []) := by
  obtain ⟨out, hout, rfl⟩ := loop_settles
    (f := fun _ w => some (scriptTurn left right none w)) (fun w => w.groups = [])
    (fun out => out = .ok []) (fun w => (max w.i1 w.i2 + 1).toNat)
    (fun w hw => by
      by_cases hrun : 0 ≤ w.i1 ∨ 0 ≤ w.i2
      · refine .inr ⟨{ w with i1 := w.i1 - 1, i2 := w.i2 - 1 }, Settles.of_const fun _ => ?_, hw,
          by dsimp only; omega⟩
        simp [scriptTurn, hrun, hleft, hright]
      · refine .inl ⟨.ok [], Settles.of_const fun _ => ?_, rfl⟩
        simp [scriptTurn, hrun, hw])
    ⟨left.length, right.length, []⟩ rfl
  exact hout

/-- A limit only cuts the walk off: it fails when the full list would exceed it. -/
theorem scriptLoop_limit (m : Int) (n : Nat) : ∀ (w : Walk) (groups : List ChangeGroup),
    loop (fun _ w => some (scriptTurn left right none w)) n w = some (.ok groups) →
    w.groups.length ≤ groups.length ∧
    Settles (fun fuel => loop (fun _ w => some (scriptTurn left right (some m) w)) fuel w)
      (if m < groups.length ∧ w.groups.length < groups.length then .error (tooManyChanges m)
        else .ok groups) := by
  induction n with
  | zero => intro w groups h; cases h
  | succ n ih =>
    intro w groups h
    simp only [loop] at h
    cases hturn : scriptTurn left right none w with
    | inr out =>
      rw [hturn] at h
      cases h
      unfold scriptTurn at hturn
      split at hturn
      · split at hturn
        · simp [atLimit] at hturn
        · cases hturn
      · rename_i hexit
        obtain ⟨rfl⟩ := hturn
        refine ⟨by simp, loop_settles_inr (Settles.of_const fun _ => ?_)⟩
        simp [scriptTurn, hexit]
    | inl w' =>
      rw [hturn] at h
      obtain ⟨hle, hsettles⟩ := ih w' groups h
      unfold scriptTurn at hturn
      split at hturn
      · rename_i hrun
        split at hturn
        · rename_i hmark
          simp only [atLimit, Option.bind_none, Sum.inl.injEq] at hturn
          have hlen : w'.groups.length = w.groups.length + 1 := by
            rw [← hturn]
            simp
          refine ⟨by omega, ?_⟩
          by_cases hlimit : m ≤ w.groups.length
          · rw [if_pos (by omega)]
            refine loop_settles_inr (Settles.of_const fun _ => ?_)
            simp [scriptTurn, hrun, hmark, atLimit, hlimit]
          · have hcond : (m < groups.length ∧ w.groups.length < groups.length) ↔
                (m < groups.length ∧ w'.groups.length < groups.length) := by omega
            simp only [hcond]
            refine loop_settles_inl (t := w') (Settles.of_const fun _ => ?_) hsettles
            simp [scriptTurn, hrun, hmark, atLimit, hlimit, ← hturn]
        · rename_i hmark
          obtain ⟨rfl⟩ := hturn
          refine ⟨hle, loop_settles_inl (Settles.of_const fun _ => ?_) hsettles⟩
          simp [scriptTurn, hrun, hmark]
      · cases hturn

theorem buildScript_limit (maxChanges : Option Int)
    (h : Settles (fun fuel => buildScript fuel left right none) (.ok groups)) :
    Settles (fun fuel => buildScript fuel left right maxChanges)
      (limitChanges maxChanges groups) := by
  cases maxChanges with
  | none => exact h
  | some m =>
    obtain ⟨n, hn⟩ := h
    have := (scriptLoop_limit m n ⟨left.length, right.length, []⟩ groups (hn n (Nat.le_refl _))).2
    simpa only [limitChanges, buildScript, List.length_nil] using this

end Walk

-- The pipeline

/-- The unmarked reference lines, position by position, are the reference filtered. -/
theorem refKept_all (s : Side) : s.refKept 0 s.reference.length =
    (s.reference.filter fun line => !s.changed.get line).map s.classAt := by
  have hread : (Int.range 0 s.reference.length).map (readAt s.reference) =
      s.reference.map some := by
    refine List.ext_getElem? fun k => ?_
    simp only [Int.range, map_map, List.getElem?_map, Int.sub_zero, Int.toNat_natCast]
    by_cases hk : k < s.reference.length
    · simp [hk, readAt_natCast]
    · simp [hk]
  have hfilter : (Int.range 0 s.reference.length).filter (fun i => !s.refMarked i) =
      (Int.range 0 s.reference.length).filter
        ((fun o : Option Int => !o.any s.changed.get) ∘ readAt s.reference) := rfl
  have hmap : s.refKept 0 s.reference.length =
      (((Int.range 0 s.reference.length).map (readAt s.reference)).filter
        fun o : Option Int => !o.any s.changed.get).map fun o => o.bind s.classAt := by
    rw [List.filter_map, map_map, ← hfilter]
    rfl
  rw [hmap, hread, List.filter_map, map_map]
  rfl

/-- After the search the unmarked lines between the trimmed ends are unmarked reference
    lines. -/
theorem kept_middle (hs : Cleaned s) (h : Remarked s t 0 s.reference.length) :
    t.kept s.dstart (s.dend + 1) = t.refKept 0 s.reference.length := by
  have href := h.reference_eq
  rw [← href, refKept_all, href, hs.reference_eq, List.filter_filter, Side.kept]
  refine congrArg _ (List.filter_congr fun i hi => ?_)
  cases hmark : s.changed.get i with
  | false => simp
  | true =>
    have hnot : i ∉ s.reference := by
      rw [hs.reference_eq, mem_filter]
      simp [hmark]
    simp [h.lines i hnot, hmark]

theorem kept_outside (hs : Cleaned s) (h : Remarked s t 0 s.reference.length)
    (hout : b ≤ s.dstart ∨ s.dend < a) :
    t.kept a b = (Int.range a b).map s.classAt := by
  have hclass : t.classAt = s.classAt := by
    funext i
    rw [h.eq]
    rfl
  rw [Side.kept, List.filter_eq_self.2, hclass]
  intro i hi
  rw [Int.mem_range_iff] at hi
  have hclean := hs.outside i (by omega)
  have hnot : i ∉ s.reference := by
    rw [hs.reference_eq, mem_filter, Int.mem_range_iff]
    omega
  simp [h.lines i hnot, hclean]

/-- The trimmed ends and the aligned middle make an aligned whole. -/
theorem aligned_of_compared {w w' : Work} (htrim : Trimmed w.left w.right)
    (hl : Cleaned w.left) (hr : Cleaned w.right)
    (h : Compared w w' 0 w.left.reference.length 0 w.right.reference.length) :
    Aligned w'.left w'.right := by
  obtain ⟨hstart, h0, hll, hrr, htail, hsame, hsame'⟩ := htrim
  have hlen1 : w'.left.length = w.left.length := by rw [h.left.eq]; rfl
  have hlen2 : w'.right.length = w.right.length := by rw [h.right.eq]; rfl
  have hhead : (Int.range 0 w.left.dstart).map w.left.classAt =
      (Int.range 0 w.right.dstart).map w.right.classAt := by
    rw [← hstart]
    refine List.map_congr_left fun i hi => ?_
    rw [Int.mem_range_iff] at hi
    exact hsame i hi.1 hi.2
  have htail' := map_range_shift hsame'
  rw [show w.left.dend + 1 + (w.left.length - w.left.dend - 1) = w.left.length by omega,
    show w.right.dend + 1 + (w.left.length - w.left.dend - 1) = w.right.length by omega] at htail'
  unfold Aligned
  rw [hlen1, hlen2,
    w'.left.kept_append (a := 0) (b := w.left.dstart) (c := w.left.length) h0 (by omega),
    w'.left.kept_append (a := w.left.dstart) (b := w.left.dend + 1) (c := w.left.length) hll.1 hll.2,
    w'.right.kept_append (a := 0) (b := w.right.dstart) (c := w.right.length) (by omega) (by omega),
    w'.right.kept_append (a := w.right.dstart) (b := w.right.dend + 1) (c := w.right.length) hrr.1
      hrr.2,
    kept_outside hl h.left (a := 0) (.inl (Int.le_refl _)),
    kept_outside hr h.right (a := 0) (.inl (Int.le_refl _)),
    kept_outside hl h.left (a := w.left.dend + 1) (.inr (by omega)),
    kept_outside hr h.right (a := w.right.dend + 1) (.inr (by omega)),
    kept_middle hl h.left, kept_middle hr h.right, hhead, htail', h.aligned]

theorem Cleaned.refOk (h : Cleaned s) (h0 : 0 ≤ s.dstart)
    (hle : s.dend + 1 ≤ s.length) : s.RefOk := by
  refine ⟨h.ok.within, ?_, fun line hline => ?_⟩
  · rw [h.reference_eq]
    refine List.Nodup.filter _ (List.Nodup.map (fun a b hab => ?_) List.nodup_range)
    simpa using hab
  · rw [h.reference_eq, mem_filter, Int.mem_range_iff] at hline
    simp only [Side.length] at hle
    omega

/-- Reference lines are unmarked when the search starts. -/
theorem Cleaned.refMarked (h : Cleaned s) (i : Int) : s.refMarked i = false := by
  unfold Side.refMarked
  cases hread : readAt s.reference i with
  | none => rfl
  | some line =>
    have hmem := mem_of_readAt hread
    rw [h.reference_eq, mem_filter] at hmem
    simpa using hmem.2

theorem length_reference_le (h : s.RefOk) : s.reference.length ≤ s.lines.length := by
  have hsub : s.reference.toFinset ⊆ Finset.Ico (0 : Int) s.lines.length := by
    intro line hline
    rw [List.mem_toFinset] at hline
    exact Finset.mem_Ico.2 (h.in_range line hline)
  have hcard := Finset.card_le_card hsub
  rw [List.toFinset_card_of_nodup h.nodup, Int.card_Ico] at hcard
  omega

/-- The sides the search starts from. -/
theorem prepared (oldLines newLines : List LineRecord) (classes : Classes)
    (hold : classes.oldClasses.length = oldLines.length)
    (hnew : classes.newClasses.length = newLines.length) :
    ∃ left right : Side,
      cleanupRecords (trimEnds (sideOf oldLines classes.oldClasses)
          (sideOf newLines classes.newClasses)).1
        (trimEnds (sideOf oldLines classes.oldClasses) (sideOf newLines classes.newClasses)).2
        classes.inNew classes.inOld = (left, right) ∧
      Cleaned left ∧ Cleaned right ∧ Trimmed left right ∧
      left.lines = oldLines ∧ left.classes = classes.oldClasses ∧
      right.lines = newLines ∧ right.classes = classes.newClasses ∧
      (classes.oldClasses = classes.newClasses →
        left.dend + 1 = left.dstart ∧ right.dend + 1 = right.dstart) := by
  have hsame : classes.oldClasses = classes.newClasses → _ := fun hclasses =>
    @trimEnds_same (sideOf oldLines classes.oldClasses) (sideOf newLines classes.newClasses)
      hclasses (by
        have := congrArg List.length hclasses
        simp only [sideOf]
        omega)
  have htrim := trimEnds_trimmed (sideOf oldLines classes.oldClasses)
    (sideOf newLines classes.newClasses)
  obtain ⟨l, hl⟩ : ∃ l, (trimEnds (sideOf oldLines classes.oldClasses)
    (sideOf newLines classes.newClasses)).1 = l := ⟨_, rfl⟩
  obtain ⟨r, hr⟩ : ∃ r, (trimEnds (sideOf oldLines classes.oldClasses)
    (sideOf newLines classes.newClasses)).2 = r := ⟨_, rfl⟩
  have hlok : l.Ok ∧ (∀ i, l.changed.get i = false) ∧ l.lines = oldLines ∧
      l.classes = classes.oldClasses := by
    rw [← hl]
    exact ⟨⟨hold, Marks.ofLength_within _⟩, Marks.get_ofLength _, rfl, rfl⟩
  have hrok : r.Ok ∧ (∀ i, r.changed.get i = false) ∧ r.lines = newLines ∧
      r.classes = classes.newClasses := by
    rw [← hr]
    exact ⟨⟨hnew, Marks.ofLength_within _⟩, Marks.get_ofLength _, rfl, rfl⟩
  rw [hl, hr] at htrim hsame ⊢
  have hlen : ∀ (s : Side) (offset n : Int) (other : List Nat), 0 ≤ n →
      ((actionsFor s offset n other).length : Int) = n := by
    intro s offset n other hn
    simp [actionsFor]
    omega
  have hl2 := htrim.left_le
  have hr2 := htrim.right_le
  obtain ⟨c1, f1, heq1, hclean1⟩ := applyActions_cleaned hlok.1 hlok.2.1 htrim.dstart_nonneg hl2
    (actionsFor l l.dstart (l.dend - l.dstart + 1) classes.inNew)
    (by rw [hlen _ _ _ _ (by omega)]; omega)
  obtain ⟨c2, f2, heq2, hclean2⟩ := applyActions_cleaned hrok.1 hrok.2.1
    (by rw [← htrim.dstart_eq]; exact htrim.dstart_nonneg) hr2
    (actionsFor r r.dstart (r.dend - r.dstart + 1) classes.inOld)
    (by rw [hlen _ _ _ _ (by omega)]; omega)
  refine ⟨{ l with changed := c1, reference := f1 }, { r with changed := c2, reference := f2 }, ?_,
    hclean1, hclean2, ⟨htrim.dstart_eq, htrim.dstart_nonneg, htrim.left_le, htrim.right_le,
      htrim.tail_eq, htrim.head_same, htrim.tail_same⟩, hlok.2.2.1, hlok.2.2.2, hrok.2.2.1,
    hrok.2.2.2, hsame⟩
  simp only [cleanupRecords, htrim.dstart_eq] at heq1 heq2 ⊢
  rw [heq1, heq2]

/-- The state the search starts from. -/
def startWork (left right : Side) : Work :=
  let size := 2 * (left.reference.length + right.reference.length + 3) + 2
  let offset : Int := right.reference.length + 2
  { left, right
    forward := Diagonals.ofSize size offset, backward := Diagonals.ofSize size offset }

theorem startWork_ok {left right : Side} (hl : Cleaned left) (hr : Cleaned right)
    (hlr : left.RefOk) (hrr : right.RefOk)
    (hbound : (left.lines.length : Int) + right.lines.length < lineMax) :
    WorkOk (startWork left right) 0 left.reference.length 0 right.reference.length := by
  have hn1 := length_reference_le hlr
  have hn2 := length_reference_le hrr
  exact {
    left := hlr
    right := hrr
    off1_nonneg := Int.le_refl _
    off1_le := by omega
    lim1_le := Int.le_refl _
    off2_nonneg := Int.le_refl _
    off2_le := by omega
    lim2_le := Int.le_refl _
    unmarked1 := fun i _ _ => hl.refMarked i
    unmarked2 := fun i _ _ => hr.refMarked i
    forward := Diagonals.ofSize_covers (by simp only [startWork]; omega)
      (by simp only [startWork]; omega)
    backward := Diagonals.ofSize_covers (by simp only [startWork]; omega)
      (by simp only [startWork]; omega)
    bounded := by simp only [startWork]; omega }

/-- `t` is `s` after passes that only mark. -/
structure SameLines (s t : Side) : Prop where
  lines_eq : t.lines = s.lines
  classes_eq : t.classes = s.classes

/-- Where the trimming left nothing, nothing is marked. -/
theorem Cleaned.unmarked (hs : Cleaned s) (h : Remarked s t 0 s.reference.length)
    (hnone : s.dend + 1 = s.dstart) (i : Int) : t.changed.get i = false := by
  have hreference : i ∉ s.reference := by
    rw [hs.reference_eq, mem_filter, Int.mem_range_iff]
    omega
  rw [h.lines i hreference]
  exact hs.outside i (by omega)

/-- The search terminates and aligns the two files. -/
theorem search_settles {left right : Side} (hl : Cleaned left) (hr : Cleaned right)
    (htrim : Trimmed left right)
    (hbound : (left.lines.length : Int) + right.lines.length < lineMax) :
    ∃ w, Settles (fun fuel => compare
        (environmentFor (left.reference.length + right.reference.length + 3)) fuel
        (startWork left right) 0 left.reference.length 0 right.reference.length false) w ∧
      w.left.Ok ∧ w.right.Ok ∧ Aligned w.left w.right ∧
      SameLines left w.left ∧ SameLines right w.right ∧
      (left.dend + 1 = left.dstart → ∀ i, w.left.changed.get i = false) ∧
      (right.dend + 1 = right.dstart → ∀ i, w.right.changed.get i = false) := by
  have hlr := hl.refOk htrim.dstart_nonneg htrim.left_le.2
  have hrr := hr.refOk (by rw [← htrim.dstart_eq]; exact htrim.dstart_nonneg) htrim.right_le.2
  obtain ⟨w, hw, hcmp⟩ := compare_settles
    (environmentFor (left.reference.length + right.reference.length + 3)) (by simp [environmentFor, snakeCnt]) (left.reference.length + right.reference.length + 1)
    (startWork left right) 0 left.reference.length 0 right.reference.length false
    (startWork_ok hl hr hlr hrr hbound) (by omega)
  have hok : ∀ {s t : Side}, Cleaned s → Remarked s t 0 s.reference.length → t.Ok :=
    fun hs h => ⟨by rw [h.eq]; exact hs.ok.classes_length, by
      have := h.within
      rwa [← h.lines_eq] at this⟩
  exact ⟨w, hw, hok hl hcmp.left, hok hr hcmp.right,
    aligned_of_compared (w := startWork left right) htrim hl hr hcmp,
    ⟨by rw [hcmp.left.eq]; rfl, by rw [hcmp.left.eq]; rfl⟩,
    ⟨by rw [hcmp.right.eq]; rfl, by rw [hcmp.right.eq]; rfl⟩,
    hl.unmarked hcmp.left, hr.unmarked hcmp.right⟩

/-- A pass that keeps the unmarked lines marks none where there were none. -/
theorem unmarked_of_kept (ht : t.Ok) (hlength : t.length = s.length)
    (hkept : t.kept 0 s.length = s.kept 0 s.length) (hs : ∀ i, s.changed.get i = false) (i : Int) :
    t.changed.get i = false := by
  by_cases hi : 0 ≤ i ∧ i < s.length
  · have hall : ((Int.range 0 s.length).filter fun i => !t.changed.get i).length =
        (Int.range 0 s.length).length := by
      have hlengths := congrArg List.length hkept
      rw [Side.kept, Side.kept, length_map, length_map] at hlengths
      rw [hlengths, List.filter_eq_self.2]
      intro j _
      rw [hs j]
      rfl
    have hmem := List.length_filter_eq_length_iff.1 hall i (Int.mem_range_iff.2 hi)
    simpa using hmem
  · refine Marks.get_eq_false ht.within ?_
    simp only [Side.length] at hi hlength
    omega

/-- The two compactions keep the alignment. -/
theorem compactBoth_settles {left right : Side} (hl : left.Ok) (hr : right.Ok)
    (haligned : Aligned left right) (indentHeuristic : Bool) :
    ∃ left' right', Settles (fun fuel => compact fuel left right indentHeuristic) left' ∧
      Settles (fun fuel => compact fuel right left' indentHeuristic) right' ∧
      left'.Ok ∧ right'.Ok ∧ Aligned left' right' ∧
      SameLines left left' ∧ SameLines right right' ∧
      ((∀ i, left.changed.get i = false) → ∀ i, left'.changed.get i = false) ∧
      ((∀ i, right.changed.get i = false) → ∀ i, right'.changed.get i = false) := by
  obtain ⟨left', hl', hleq, hlok, hlkept⟩ := compact_settles hl hr haligned indentHeuristic
  have hllen : left'.length = left.length := by rw [hleq]; rfl
  have haligned' : Aligned right left' := by
    unfold Aligned
    rw [hllen, hlkept]
    exact haligned.symm
  obtain ⟨right', hr', hreq, hrok, hrkept⟩ := compact_settles hr hlok haligned' indentHeuristic
  have hrlen : right'.length = right.length := by rw [hreq]; rfl
  refine ⟨left', right', hl', hr', hlok, hrok, ?_, ⟨by rw [hleq], by rw [hleq]⟩,
    ⟨by rw [hreq], by rw [hreq]⟩, unmarked_of_kept hlok hllen hlkept,
    unmarked_of_kept hrok hrlen hrkept⟩
  unfold Aligned
  rw [hrlen, hrkept]
  exact haligned'.symm

/-- The differ terminates on every pair of classified line lists, and its groups are correct; there are
    none when the classes are the same.  A limit decides only whether the caller gets them. -/
theorem diffClassified_settles (oldLines newLines : List LineRecord) (classes : Classes)
    (den : Nat → Option (List Nat)) (indentHeuristic : Option Bool)
    (hold : classes.oldClasses.map den = oldLines.map fun line => some line.units)
    (hnew : classes.newClasses.map den = newLines.map fun line => some line.units)
    (hbound : (oldLines.length : Int) + newLines.length < lineMax) :
    ∃ groups, Script (oldLines.map LineRecord.units) (newLines.map LineRecord.units) 0 0 groups ∧
      (classes.oldClasses = classes.newClasses → groups = []) ∧
      ∀ maxChanges, Settles (fun fuel => diffClassified fuel oldLines newLines classes
        { indentHeuristic, maxChanges }) (limitChanges maxChanges groups) := by
  obtain ⟨left, right, hprep, hcl, hcr, htrim, hll, hlc, hrl, hrc, hsame⟩ := prepared oldLines newLines
    classes (by simpa using congrArg List.length hold) (by simpa using congrArg List.length hnew)
  obtain ⟨w, hw, hlok, hrok, haligned, hlsame, hrsame, hlclean, hrclean⟩ :=
    search_settles hcl hcr htrim (by rw [hll, hrl]; exact hbound)
  obtain ⟨left', right', hl', hr', hlok', hrok', haligned', hlsame', hrsame', hlclean', hrclean'⟩ :=
    compactBoth_settles hlok hrok haligned (decide (indentHeuristic ≠ some false))
  have hlines : left'.lines = oldLines := by rw [hlsame'.lines_eq, hlsame.lines_eq, hll]
  have hrlines : right'.lines = newLines := by rw [hrsame'.lines_eq, hrsame.lines_eq, hrl]
  obtain ⟨groups, hscript, hbuild⟩ := buildScript_settles den hlok' hrok' haligned'
    (by rw [Side.Denotes, hlines, hlsame'.classes_eq, hlsame.classes_eq, hlc]; exact hold)
    (by rw [Side.Denotes, hrlines, hrsame'.classes_eq, hrsame.classes_eq, hrc]; exact hnew)
  rw [Side.units, Side.units, hlines, hrlines] at hscript
  refine ⟨groups, hscript, fun hclasses => ?_, fun maxChanges => ?_⟩
  · obtain ⟨hleft, hright⟩ := hsame hclasses
    have hnone := buildScript_unmarked (hlclean' (hlclean hleft)) (hrclean' (hrclean hright))
    exact Except.ok.inj (hbuild.unique hnone)
  · obtain ⟨n1, hn1⟩ := hw
    obtain ⟨n2, hn2⟩ := hl'
    obtain ⟨n3, hn3⟩ := hr'
    obtain ⟨n4, hn4⟩ := buildScript_limit maxChanges hbuild
    refine ⟨max (max n1 n2) (max n3 n4), fun fuel hfuel => ?_⟩
    have h1 := hn1 fuel (by omega)
    have h2 := hn2 fuel (by omega)
    have h3 := hn3 fuel (by omega)
    have h4 := hn4 fuel (by omega)
    simp only [startWork] at h1
    simp only [diffClassified, hprep, h1, h2, h3, h4, Option.bind_eq_bind, Option.bind_some]

-- Both kinds of lines

/-- A script over injective images of the lines is one over the lines. -/
theorem Script.of_map {β : Type} {f : α → β} (hf : Function.Injective f) {xs ys : List β}
    {i j : Int} (h : Script xs ys i j groups) :
    ∀ old new : List α, old.map f = xs → new.map f = ys → Script old new i j groups := by
  induction h with
  | done common i j =>
    intro old new hold hnew
    have heq : old = new := List.map_injective_iff.2 hf (hold.trans hnew.symm)
    rw [heq]
    exact .done _ _ _
  | group common deleted inserted hne hrest hsep ih =>
    intro old new hold hnew
    obtain ⟨common1, old1, rfl, hc1, hold1⟩ := List.map_eq_append_iff.1 hold
    obtain ⟨deleted1, old2, rfl, hd1, hold2⟩ := List.map_eq_append_iff.1 hold1
    obtain ⟨common2, new1, rfl, hc2, hnew1⟩ := List.map_eq_append_iff.1 hnew
    obtain ⟨inserted1, new2, rfl, hi1, hnew2⟩ := List.map_eq_append_iff.1 hnew1
    have hcommon : common1 = common2 := List.map_injective_iff.2 hf (hc1.trans hc2.symm)
    have hrest' := ih old2 new2 hold2 hnew2
    subst hcommon hc1 hd1 hi1
    simp only [length_map] at hne hrest' hsep ⊢
    exact .group common1 deleted1 inserted1 hne hrest' hsep

theorem diffLines_settles (old new : List (List UInt16)) (options : DiffLinesOptions)
    (hbound : (old.length : Int) + new.length < lineMax) :
    ∃ groups, Script old new 0 0 groups ∧ (old = new → groups = []) ∧
      Settles (fun fuel => diffLines fuel old new options)
        (limitChanges options.maxChanges groups) := by
  obtain ⟨den, hold, hnew, hinj⟩ := classify_denotes old new
  obtain ⟨groups, hscript, hsame, hsettles⟩ := diffClassified_settles (old.map .text) (new.map .text)
    (classify old new) den options.indentHeuristic
    (by simpa [LineRecord.units, Function.comp_def] using hold)
    (by simpa [LineRecord.units, Function.comp_def] using hnew) (by simpa using hbound)
  refine ⟨groups, ?_, fun heq => hsame ?_, hsettles options.maxChanges⟩
  · exact hscript.of_map (List.map_injective_iff.2 fun _ _ => UInt16.toNat_inj.1) old new
      (by simp [LineRecord.units, Function.comp_def]) (by simp [LineRecord.units, Function.comp_def])
  · subst heq
    refine @eq_of_map_den _ den hinj _ _ (old.map (List.map UInt16.toNat)) ?_ ?_
    · rw [hold, map_map]
      rfl
    · rw [hnew, map_map]
      rfl

theorem diffByteRecords_settles (old new : List ByteRecord) (indentHeuristic : Option Bool)
    (hbound : (old.length : Int) + new.length < lineMax) :
    ∃ groups, Script (old.map ByteRecord.content) (new.map ByteRecord.content) 0 0 groups ∧
      (old.map ByteRecord.content = new.map ByteRecord.content → groups = []) ∧
      ∀ maxChanges, Settles (fun fuel => diffByteRecords fuel old new { indentHeuristic, maxChanges })
        (limitChanges maxChanges groups) := by
  obtain ⟨den, hold, hnew, -⟩ := classifyBytes_denotes old new
  obtain ⟨groups, hscript, hsame, hsettles⟩ := diffClassified_settles (old.map .record)
    (new.map .record) (classifyBytes old new) den indentHeuristic
    (by simpa [LineRecord.units, Function.comp_def] using hold)
    (by simpa [LineRecord.units, Function.comp_def] using hnew) (by simpa using hbound)
  refine ⟨groups, ?_, fun heq => hsame (classifyBytes_same heq), hsettles⟩
  have hinj : Function.Injective (List.map UInt8.toNat) :=
    List.map_injective_iff.2 fun a b h => UInt8.toNat_inj.1 h
  exact hscript.of_map hinj _ _ (by simp [LineRecord.units, Function.comp_def])
    (by simp [LineRecord.units, Function.comp_def])

theorem lines_bounded (old new : Lines α) :
    (old.toList.length : Int) + new.toList.length < lineMax := by
  have h1 := old.bounded
  have h2 := new.bounded
  simp only [lineMax]
  omega

/-- Over strings and over byte records, with any options, the differ terminates; the groups it
    computes are in range, sorted, disjoint and not adjacent, the lines outside them are equal
    in order, and replacing their old ranges by their new ranges gives the new file.  Every box
    `findSplit` is called with is split strictly inside. -/
theorem diff_terminates_with_correct_groups (options : DiffLinesOptions) :
    (∀ old new : Lines (List UInt16), ∃ groups, Correct old.toList new.toList groups ∧
      Settles (fun fuel => diffLines fuel old.toList new.toList options)
        (limitChanges options.maxChanges groups)) ∧
    (∀ old new : Lines ByteRecord, ∃ groups,
      Correct (old.toList.map ByteRecord.content) (new.toList.map ByteRecord.content) groups ∧
      Settles (fun fuel => diffByteRecords fuel old.toList new.toList options)
        (limitChanges options.maxChanges groups)) ∧
    (∀ (r : Region) (env : Environment) (needMinimal : Bool) (forward backward : Diagonals),
      RegionOk r → 0 < env.snakeCount →
      forward.Covers (r.dmin - 1) (r.dmax + 1) → backward.Covers (r.dmin - 1) (r.dmax + 1) →
      ∃ split s,
        Settles (fun fuel => findSplit fuel r forward backward needMinimal env) (split, s) ∧
        Inside r split) := by
  refine ⟨fun old new => ?_, fun old new => ?_,
    fun r env needMinimal forward backward hr henv hf hb => ?_⟩
  · obtain ⟨groups, hscript, -, hsettles⟩ :=
      diffLines_settles old.toList new.toList options (lines_bounded old new)
    exact ⟨groups, hscript.correct, hsettles⟩
  · obtain ⟨groups, hscript, -, hsettles⟩ :=
      diffByteRecords_settles old.toList new.toList options.indentHeuristic (lines_bounded old new)
    exact ⟨groups, hscript.correct, hsettles options.maxChanges⟩
  · obtain ⟨split, s, hsettles, hin, -, -⟩ :=
      findSplit_settles needMinimal _ _ hr henv (Int.le_refl _) (Int.le_refl _) hf hb
    exact ⟨split, s, hsettles, hin⟩

end Kompjutr.Diff
