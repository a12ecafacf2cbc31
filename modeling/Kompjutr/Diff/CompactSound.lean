/-
  Kompjutr.Diff.CompactSound

  The compaction pass terminates and keeps the unmarked classes of its side
  (`compact_settles`).

  The walkers of the two sides run in lockstep: a group is identified by the
  number of unmarked lines before it (`Side.rank`), sliding a group changes that
  number by one, and the walker of the other side follows (`Lock`).  A slide
  never makes a group smaller, so the `do … while` ends; in its last round
  nothing is absorbed, so every slide down can be undone exactly
  (`forceUp_slideDown`), which is what ends the two loops that slide back up.
-/
import Kompjutr.Diff.Compact
import Kompjutr.Diff.PrepareSound
import Mathlib.Data.Prod.Lex
import Mathlib.Order.WellFounded
import Mathlib.Data.Nat.Basic

namespace Kompjutr.Diff

open Kompjutr.Fuel

variable {b : Int} {t : Side}

variable {i a : Int} {n : Nat} {m : Marks} {s s' : Side} {g g' : Group}

-- Undoing writes to the marks

namespace Marks

theorem set_comm (m : Marks) {i j : Int} (hi : 0 ≤ i) (hj : 0 ≤ j) (h : i ≠ j) (v w : Bool) :
    (m.set i v).set j w = (m.set j w).set i v := by
  simp only [set, show 0 ≤ i + 1 by omega, show 0 ≤ j + 1 by omega, if_true]
  rw [List.set_comm _ _ (by omega)]

theorem set_set (m : Marks) {i : Int} (hi : 0 ≤ i) (v w : Bool) : (m.set i v).set i w = m.set i w := by
  simp only [set, show 0 ≤ i + 1 by omega, if_true, List.set_set]

theorem set_get (m : Marks) {n : Nat} (hm : m.Within n) {i : Int} (hi : 0 ≤ i) (hn : i < n)
    {v : Bool} (h : m.get i = v) : m.set i v = m := by
  have hlen := hm.length_eq
  have hlt : (i + 1).toNat < m.flags.length := by omega
  have hv : m.flags[(i + 1).toNat] = v := by
    simp only [get, readAt, show 0 ≤ i + 1 by omega, if_true, List.getElem?_eq_getElem hlt] at h
    cases hb : m.flags[(i + 1).toNat] <;> simp_all
  simp only [set, show 0 ≤ i + 1 by omega, if_true]
  rw [← hv, List.set_getElem_self]

end Marks

-- Runs of marked lines

theorem markedEndLoop_spec (hm : m.Within n) (k : Nat) (h0 : 0 ≤ i) (hin : i ≤ n) (hk : n - i < k) :
    i ≤ markedEndLoop m k i ∧ markedEndLoop m k i ≤ n ∧
    (∀ j, i ≤ j → j < markedEndLoop m k i → m.get j = true) ∧
    m.get (markedEndLoop m k i) = false := by
  induction k generalizing i with
  | zero => omega
  | succ k ih =>
    simp only [markedEndLoop]
    split
    · rename_i hget
      have hlt := (hm.get_imp i hget).2
      obtain ⟨h1, h2, h3, h4⟩ := ih (i := i + 1) (by omega) (by omega) (by omega)
      refine ⟨by omega, h2, fun j hj hje => ?_, h4⟩
      by_cases hji : j = i
      · exact hji ▸ hget
      · exact h3 j (by omega) hje
    · rename_i hget
      exact ⟨by omega, hin, fun j h1 h2 => by omega, by simpa using hget⟩

theorem markedEnd_spec (hm : m.Within n) (h0 : 0 ≤ i) (hin : i ≤ n) :
    i ≤ markedEnd m i ∧ markedEnd m i ≤ n ∧
    (∀ j, i ≤ j → j < markedEnd m i → m.get j = true) ∧ m.get (markedEnd m i) = false :=
  markedEndLoop_spec hm _ h0 hin (by have := hm.length_eq; omega)

theorem markedStartLoop_spec (hm : m.Within n) (k : Nat) (h0 : 0 ≤ i) (hk : i < k) :
    0 ≤ markedStartLoop m k i ∧ markedStartLoop m k i ≤ i ∧
    (∀ j, markedStartLoop m k i ≤ j → j < i → m.get j = true) ∧
    m.get (markedStartLoop m k i - 1) = false := by
  induction k generalizing i with
  | zero => omega
  | succ k ih =>
    simp only [markedStartLoop]
    split
    · rename_i hget
      have hlt := (hm.get_imp _ hget).1
      obtain ⟨h1, h2, h3, h4⟩ := ih (i := i - 1) (by omega) (by omega)
      refine ⟨h1, by omega, fun j hj hje => ?_, h4⟩
      by_cases hji : j = i - 1
      · exact hji ▸ hget
      · exact h3 j hj (by omega)
    · rename_i hget
      exact ⟨h0, by omega, fun j h1 h2 => by omega, by simpa using hget⟩

theorem markedStart_spec (hm : m.Within n) (h0 : 0 ≤ i) (hin : i ≤ n) :
    0 ≤ markedStart m i ∧ markedStart m i ≤ i ∧
    (∀ j, markedStart m i ≤ j → j < i → m.get j = true) ∧ m.get (markedStart m i - 1) = false :=
  markedStartLoop_spec hm _ h0 (by have := hm.length_eq; omega)

/-- The run that ends at `i` is determined by its start. -/
theorem markedStart_eq (hm : m.Within n) (h0 : 0 ≤ a)
    (hai : a ≤ i) (hin : i ≤ n) (hrun : ∀ j, a ≤ j → j < i → m.get j = true)
    (hstop : m.get (a - 1) = false) : markedStart m i = a := by
  obtain ⟨h1, h2, h3, h4⟩ := markedStart_spec hm (i := i) (by omega) hin
  by_contra hne
  rcases Int.lt_or_gt_of_ne hne with hlt | hgt
  · rw [h3 (a - 1) (by omega) (by omega)] at hstop
    cases hstop
  · rw [hrun (markedStart m i - 1) (by omega) (by omega)] at h4
    cases h4

-- Groups

namespace Side

/-- Unmarked lines before position `i`. -/
def rank (s : Side) (i : Int) : Nat := (s.kept 0 i).length

/-- Marked lines from position `i` on. -/
def rest (s : Side) (i : Int) : Nat := ((Int.range i s.length).filter s.changed.get).length

/-- `g` is a maximal run of marked lines, possibly empty. -/
structure IsGroup (s : Side) (g : Group) : Prop where
  start_nonneg : 0 ≤ g.start
  start_le : g.start ≤ g.end
  end_le : g.end ≤ s.length
  marked : ∀ i, g.start ≤ i → i < g.end → s.changed.get i = true
  before : s.changed.get (g.start - 1) = false
  after : s.changed.get g.end = false

theorem rank_of_marked (s : Side) {b : Int} (h0 : 0 ≤ a) (hab : a ≤ b)
    (h : ∀ i, a ≤ i → i < b → s.changed.get i = true) : s.rank b = s.rank a := by
  unfold rank
  rw [s.kept_append h0 hab, kept_eq_nil h, List.append_nil]

theorem rank_succ (s : Side) {a : Int} (h0 : 0 ≤ a) (h : s.changed.get a = false) :
    s.rank (a + 1) = s.rank a + 1 := by
  unfold rank
  rw [s.kept_snoc (by omega), show a + 1 - 1 = a by omega, h]
  simp

theorem rest_append (s : Side) {a b : Int} (hab : a ≤ b) (hb : b ≤ s.length) :
    s.rest a = ((Int.range a b).filter s.changed.get).length + s.rest b := by
  unfold rest
  rw [range_append hab hb, List.filter_append, List.length_append]

theorem rest_anti (s : Side) {b : Int} (hab : a ≤ b) (hb : b ≤ s.length) : s.rest b ≤ s.rest a := by
  rw [s.rest_append hab hb]
  omega

theorem rest_congr {s t : Side} (hlen : s.lines = t.lines)
    (h : ∀ i, a ≤ i → s.changed.get i = t.changed.get i) : s.rest a = t.rest a := by
  unfold rest
  have hl : s.length = t.length := by simp only [length, hlen]
  rw [hl]
  refine congrArg _ (List.filter_congr fun i hi => ?_)
  rw [Int.mem_range_iff] at hi
  exact h i hi.1

end Side

theorem groupInit_isGroup (hs : s.Ok) : s.IsGroup (groupInit s) := by
  obtain ⟨h1, h2, h3, h4⟩ := markedEnd_spec hs.within (i := 0) (by omega) (by omega)
  exact ⟨by simp [groupInit], h1, h2, h3, Marks.get_eq_false hs.within (.inl (by
    simp only [groupInit]; omega)), h4⟩

theorem groupNext_spec (hs : s.Ok) (hg : s.IsGroup g) (hend : g.end ≠ s.length) :
    ∃ g', groupNext s g = some g' ∧ s.IsGroup g' ∧ g'.start = g.end + 1 ∧
      s.rank g'.start = s.rank g.start + 1 := by
  have h0 := hg.start_nonneg
  have hle := hg.start_le
  have hlen := hg.end_le
  simp only [Side.length] at hend hlen
  obtain ⟨h1, h2, h3, h4⟩ := markedEnd_spec hs.within (i := g.end + 1) (by omega) (by omega)
  refine ⟨⟨g.end + 1, markedEnd s.changed (g.end + 1)⟩, if_neg hend,
    ⟨by dsimp only; omega, h1, h2, h3, ?_, h4⟩, rfl, ?_⟩
  · rw [show g.end + 1 - 1 = g.end by omega]
    exact hg.after
  · rw [s.rank_succ (by omega) hg.after, s.rank_of_marked h0 hle hg.marked]

theorem groupPrevious_spec (hs : s.Ok) (hg : s.IsGroup g) (hstart : g.start ≠ 0) :
    ∃ g', groupPrevious s g = some g' ∧ s.IsGroup g' ∧ g'.end = g.start - 1 ∧
      s.rank g'.start + 1 = s.rank g.start := by
  have h0 := hg.start_nonneg
  have hle := hg.start_le
  have hlen := hg.end_le
  simp only [Side.length] at hlen
  obtain ⟨h1, h2, h3, h4⟩ := markedStart_spec hs.within (i := g.start - 1) (by omega) (by omega)
  refine ⟨⟨markedStart s.changed (g.start - 1), g.start - 1⟩, if_neg hstart,
    ⟨h1, h2, by simp only [Side.length]; omega, h3, h4, hg.before⟩, rfl, ?_⟩
  have hr := s.rank_succ (a := g.start - 1) (by omega) hg.before
  rw [show g.start - 1 + 1 = g.start by omega] at hr
  rw [hr, s.rank_of_marked h1 h2 h3]

/-- Going forward and back on one side comes to the same group. -/
theorem groupPrevious_of_groupNext (hs : s.Ok) (hg : s.IsGroup g)
    (h : groupNext s g = some g') : groupPrevious s g' = some g := by
  have h0 := hg.start_nonneg
  have hle := hg.start_le
  have hlen := hg.end_le
  simp only [Side.length] at hlen
  unfold groupNext at h
  split at h
  · cases h
  · cases h
    have e : g.end + 1 - 1 = g.end := by omega
    simp only [groupPrevious, e]
    rw [if_neg (by omega), markedStart_eq hs.within h0 hle hlen hg.marked hg.before]

-- One slide

/-- `t` is `s` with the unmarked line `b` after the run `[a, b)` exchanged for line `a`. -/
structure Exchange (s t : Side) (a b : Int) : Prop where
  classes_eq : s.classes = t.classes
  lines_eq : s.lines = t.lines
  lt : a < b
  run : ∀ i, a ≤ i → i < b → s.changed.get i = true
  run' : ∀ i, a < i → i ≤ b → t.changed.get i = true
  unmarked : s.changed.get b = false
  unmarked' : t.changed.get a = false
  same : ∀ i, i < a ∨ b < i → s.changed.get i = t.changed.get i

theorem Exchange.kept_before (h : Exchange s t a b) : s.kept 0 a = t.kept 0 a :=
  Side.kept_congr h.classes_eq fun i _ hi => h.same i (.inl hi)

theorem Exchange.kept {n : Int} (h : Exchange s t a b) (h0 : 0 ≤ a) (hn : b < n)
    (hclass : s.classAt a = s.classAt b) : s.kept 0 n = t.kept 0 n := by
  have hlt := h.lt
  -- the unmarked line moves from one end of the run to the other, with the same class
  have hmid : s.kept a (b + 1) = t.kept a (b + 1) := by
    rw [s.kept_snoc (a := a) (by omega), t.kept_cons (a := a) (by omega),
      show b + 1 - 1 = b by omega, Side.kept_eq_nil h.run,
      Side.kept_eq_nil fun i hi hie => h.run' i (by omega) (by omega), h.unmarked, h.unmarked']
    simp only [Side.classAt, ← h.classes_eq] at hclass ⊢
    simp [hclass]
  have hpost : s.kept (b + 1) n = t.kept (b + 1) n :=
    Side.kept_congr h.classes_eq fun i hi _ => h.same i (.inr (by omega))
  rw [s.kept_append (b := a) (c := n) h0 (by omega),
    s.kept_append (a := a) (b := b + 1) (c := n) (by omega) (by omega), h.kept_before, hmid, hpost,
    t.kept_append (b := a) (c := n) h0 (by omega),
    t.kept_append (a := a) (b := b + 1) (c := n) (by omega) (by omega)]

/-- Past the run nothing changes. -/
theorem Exchange.rest {s t : Side} {a b : Int} (h : Exchange s t a b) :
    s.rest (b + 1) = t.rest (b + 1) :=
  Side.rest_congr h.lines_eq fun i hi => h.same i (.inr (by omega))

theorem Side.rest_unmarked (s : Side) (h : s.changed.get a = false)
    (hlt : a < s.length) : s.rest a = s.rest (a + 1) := by
  rw [s.rest_append (a := a) (b := a + 1) (by omega) (by omega), range_cons (by omega), range_self]
  simp [h]

/-- What one slide of group `g` to `g'` keeps. -/
structure Slides (s s' : Side) (g g' : Group) : Prop where
  eq : s' = { s with changed := s'.changed }
  ok : s'.Ok
  kept : s'.kept 0 s.length = s.kept 0 s.length
  group : s'.IsGroup g'
  size_le : g.end - g.start ≤ g'.end - g'.start
  rest_le : s'.rest g'.end ≤ s.rest g.end

section

variable (hs : s.Ok) (hg : s.IsGroup g) (hne : g.start < g.end)

include hs hg hne

theorem groupSlideDown_spec (h : groupSlideDown s g = some (s', g')) :
    Slides s s' g g' ∧ g.end ≠ s.length ∧ g'.start = g.start + 1 ∧ g.end + 1 ≤ g'.end ∧
      s'.rank g'.start = s.rank g.start + 1 := by
  have h0 := hg.start_nonneg
  unfold groupSlideDown at h
  split at h
  · cases h
  split at h
  · cases h
  rename_i hlt hclass
  have hclass' : s.classAt g.start = s.classAt g.end := by simpa using hclass
  have hlen : g.end < s.lines.length := by simp only [Side.length] at hlt; omega
  have hlen' : g.end < s.length := by omega
  have hw1 := Marks.set_within hs.within h0 (by omega) (v := false)
  have hw2 := Marks.set_within hw1 (i := g.end) (by omega) hlen (v := true)
  have hget : ∀ j, ((s.changed.set g.start false).set g.end true).get j =
      if j = g.end then true else if j = g.start then false else s.changed.get j := by
    intro j
    rw [Marks.get_set _ hw1 (by omega) hlen, Marks.get_set _ hs.within h0 (by omega)]
  obtain ⟨h1, h2, h3, h4⟩ := markedEnd_spec hw2 (i := g.end + 1) (by omega) (by omega)
  dsimp only at h
  generalize (s.changed.set g.start false).set g.end true = changed at *
  cases h
  have hex : Exchange s { s with changed } g.start g.end := {
    classes_eq := rfl
    lines_eq := rfl
    lt := hne
    run := hg.marked
    run' := fun i hi hie => by
      dsimp only
      rw [hget]
      split
      · rfl
      · rw [if_neg (by omega)]
        exact hg.marked i (by omega) (by omega)
    unmarked := hg.after
    unmarked' := by
      dsimp only
      rw [hget, if_neg (by omega), if_pos rfl]
    same := fun i hi => by
      dsimp only
      rw [hget, if_neg (by omega), if_neg (by omega)] }
  have hgroup : ({ s with changed } : Side).IsGroup ⟨g.start + 1, markedEnd changed (g.end + 1)⟩ := {
    start_nonneg := by dsimp only; omega
    start_le := by dsimp only; omega
    end_le := h2
    marked := fun i hi hie => by
      dsimp only at hi hie
      by_cases hin : i ≤ g.end
      · exact hex.run' i (by omega) hin
      · exact h3 i (by omega) hie
    before := by
      rw [show g.start + 1 - 1 = g.start by omega]
      exact hex.unmarked'
    after := h4 }
  refine ⟨⟨rfl, ⟨hs.classes_length, hw2⟩, (hex.kept h0 hlen' hclass').symm, hgroup,
    by dsimp only; omega, ?_⟩, by omega, rfl, h1, ?_⟩
  · calc ({ s with changed } : Side).rest (markedEnd changed (g.end + 1))
        ≤ ({ s with changed } : Side).rest (g.end + 1) := Side.rest_anti _ h1 h2
      _ = s.rest (g.end + 1) := hex.rest.symm
      _ ≤ s.rest g.end := s.rest_anti (by omega) (by omega)
  · rw [Side.rank_succ _ h0 hex.unmarked']
    simp only [Side.rank, hex.kept_before]

theorem groupSlideUp_spec (h : groupSlideUp s g = some (s', g')) :
    Slides s s' g g' ∧ g.start ≠ 0 ∧ g'.end = g.end - 1 ∧ g'.start ≤ g.start - 1 ∧
      s'.rank g'.start + 1 = s.rank g.start := by
  have h0 := hg.start_nonneg
  have hlen := hg.end_le
  have hlen' := hg.end_le
  unfold groupSlideUp at h
  split at h
  · cases h
  split at h
  · cases h
  rename_i hpos hclass
  have hclass' : s.classAt (g.start - 1) = s.classAt (g.end - 1) := by simpa using hclass
  simp only [Side.length] at hlen
  have hw1 := Marks.set_within hs.within (i := g.start - 1) (by omega) (by omega) (v := true)
  have hw2 := Marks.set_within hw1 (i := g.end - 1) (by omega) (by omega) (v := false)
  have hget : ∀ j, ((s.changed.set (g.start - 1) true).set (g.end - 1) false).get j =
      if j = g.end - 1 then false else if j = g.start - 1 then true else s.changed.get j := by
    intro j
    rw [Marks.get_set _ hw1 (by omega) (by omega), Marks.get_set _ hs.within (by omega) (by omega)]
  obtain ⟨h1, h2, h3, h4⟩ := markedStart_spec hw2 (i := g.start - 1) (by omega) (by omega)
  dsimp only at h
  generalize (s.changed.set (g.start - 1) true).set (g.end - 1) false = changed at *
  cases h
  -- seen from the result, the slide is the exchange of a slide down
  have hex : Exchange { s with changed } s (g.start - 1) (g.end - 1) := {
    classes_eq := rfl
    lines_eq := rfl
    lt := by omega
    run := fun i hi hie => by
      dsimp only
      rw [hget, if_neg (by omega)]
      split
      · rfl
      · exact hg.marked i (by omega) (by omega)
    run' := fun i hi hie => hg.marked i (by omega) (by omega)
    unmarked := by
      dsimp only
      rw [hget, if_pos rfl]
    unmarked' := hg.before
    same := fun i hi => by
      dsimp only
      rw [hget, if_neg (by omega), if_neg (by omega)] }
  have hgroup : ({ s with changed } : Side).IsGroup
      ⟨markedStart changed (g.start - 1), g.end - 1⟩ := {
    start_nonneg := h1
    start_le := by dsimp only; omega
    end_le := by simp only [Side.length]; omega
    marked := fun i hi hie => by
      dsimp only at hi hie
      by_cases hin : g.start - 1 ≤ i
      · exact hex.run i hin hie
      · exact h3 i hi (by omega)
    before := h4
    after := hex.unmarked }
  refine ⟨⟨rfl, ⟨hs.classes_length, hw2⟩, hex.kept (by omega) (by omega) hclass', hgroup,
    by dsimp only; omega, ?_⟩, hpos, rfl, h2, ?_⟩
  · refine Nat.le_of_eq ?_
    calc ({ s with changed } : Side).rest (g.end - 1)
        = ({ s with changed } : Side).rest (g.end - 1 + 1) :=
          Side.rest_unmarked _ hex.unmarked (by simp only [Side.length]; omega)
      _ = s.rest (g.end - 1 + 1) := hex.rest
      _ = s.rest g.end := by rw [show g.end - 1 + 1 = g.end by omega]
  · have hr := s.rank_succ (a := g.start - 1) (by omega) hg.before
    rw [show g.start - 1 + 1 = g.start by omega] at hr
    have hr' := Side.rank_of_marked { s with changed } h1 h2 h3
    rw [hr, ← hr']
    simp only [Side.rank, hex.kept_before]

/-- A slide down that absorbs nothing is undone by a slide up. -/
theorem groupSlideUp_of_slideDown (h : groupSlideDown s g = some (s', g'))
    (hsize : g'.end - g'.start = g.end - g.start) : groupSlideUp s' g' = some (s, g) := by
  have h0 := hg.start_nonneg
  obtain ⟨-, -, hstart, -, -⟩ := groupSlideDown_spec hs hg hne h
  unfold groupSlideDown at h
  split at h
  · cases h
  split at h
  · cases h
  rename_i hlt hclass
  cases h
  simp only [Side.length] at hlt
  dsimp only at hsize hstart ⊢
  have hend : markedEnd ((s.changed.set g.start false).set g.end true) (g.end + 1) = g.end + 1 := by
    omega
  have hclass' : s.classAt g.start = s.classAt g.end := by simpa using hclass
  have hback : (((s.changed.set g.start false).set g.end true).set g.start true).set g.end false =
      s.changed := by
    rw [Marks.set_comm _ (i := g.end) (j := g.start) (by omega) h0 (by omega), Marks.set_set _ h0,
      Marks.set_set _ (by omega),
      Marks.set_get s.changed hs.within h0 (by omega) (hg.marked _ (Int.le_refl _) hne),
      Marks.set_get s.changed hs.within (by omega) (by omega) hg.after]
  simp only [groupSlideUp, hend, show g.start + 1 - 1 = g.start by omega,
    show g.end + 1 - 1 = g.end by omega, hback]
  rw [if_neg (by omega), if_neg (by simpa [Side.classAt] using hclass'),
    markedStart_eq hs.within h0 (Int.le_refl _) (by omega) (fun j h1 h2 => by omega) hg.before]

end

-- The two walkers in lockstep

/-- What the whole pass keeps: only the marks of `side` change, its unmarked classes do not,
    and both walkers stand after the same number of unmarked lines. -/
structure Lock (side other : Side) (c : Slide) : Prop where
  eq : c.side = { side with changed := c.side.changed }
  ok : c.side.Ok
  kept : c.side.kept 0 side.length = side.kept 0 side.length
  group : c.side.IsGroup c.group
  otherGroup : other.IsGroup c.otherGroup
  rank_eq : c.side.rank c.group.start = other.rank c.otherGroup.start

namespace Lock

variable {side other : Side} {c c' : Slide}

theorem length_eq (h : Lock side other c) : c.side.length = side.length := by
  rw [h.eq]
  rfl

theorem of_slides (h : Lock side other c) {og' : Group}
    (hs : Slides c.side s' c.group g') (hog : other.IsGroup og')
    (hrank : s'.rank g'.start = other.rank og'.start) : Lock side other ⟨s', g', og'⟩ := by
  refine ⟨?_, hs.ok, ?_, hs.group, hog, hrank⟩
  · have := hs.eq
    rw [h.eq] at this
    exact this
  · have := hs.kept
    rw [h.length_eq] at this
    exact this.trans h.kept

/-- The other walker is at its last group exactly when this one is. -/
theorem end_iff (h : Lock side other c) (hother : other.Ok) (haligned : Aligned side other) :
    c.group.end = side.length ↔ c.otherGroup.end = other.length := by
  have total : ∀ (s : Side) (g : Group), s.Ok → s.IsGroup g →
      (g.end = s.length ↔ s.rank g.start = s.rank s.length) := by
    intro s g hs hg
    have h0 := hg.start_nonneg
    have hle := hg.start_le
    have hend := hg.end_le
    rw [← s.rank_of_marked h0 hle hg.marked]
    refine ⟨fun he => by rw [he], fun he => ?_⟩
    by_contra hne
    have hr := s.rank_succ (by omega) hg.after
    have hmono : s.rank (g.end + 1) ≤ s.rank s.length := by
      unfold Side.rank
      rw [s.kept_append (a := 0) (b := g.end + 1) (c := s.length) (by omega) (by omega),
        List.length_append]
      omega
    omega
  rw [← h.length_eq, total _ _ h.ok h.group, total _ _ hother h.otherGroup, h.rank_eq]
  have hk := congrArg List.length h.kept
  have ha := congrArg List.length haligned
  have hl := h.length_eq
  simp only [Side.rank] at hk ha ⊢
  rw [hl, hk, ha]

theorem start_iff (h : Lock side other c) : c.group.start = 0 ↔ c.otherGroup.start = 0 := by
  have zero : ∀ (s : Side) (g : Group), s.IsGroup g → (g.start = 0 ↔ s.rank g.start = 0) := by
    intro s g hg
    have h0 := hg.start_nonneg
    refine ⟨fun he => by simp [he, Side.rank], fun he => ?_⟩
    by_contra hne
    have hr := s.rank_succ (a := g.start - 1) (by omega) hg.before
    rw [show g.start - 1 + 1 = g.start by omega] at hr
    omega
  rw [zero _ _ h.group, zero _ _ h.otherGroup, h.rank_eq]

end Lock

/-- The size of the group that slides. -/
def Slide.size (c : Slide) : Int := c.group.end - c.group.start

/-- The marked lines the pass has not come to. -/
def Slide.rest (c : Slide) : Nat := c.side.rest c.group.end

section Passes

variable {side other : Side} (hother : other.Ok) (haligned : Aligned side other)

include hother

variable {c : Slide}

theorem slideUpOne_spec {c' : Slide} (h : Lock side other c) (hne : 0 < c.size)
    (hstep : slideUpOne other c = some c') :
    Lock side other c' ∧ c.size ≤ c'.size ∧ c'.rest ≤ c.rest ∧
      c'.group.start < c.group.start := by
  simp only [slideUpOne, Option.map_eq_some_iff] at hstep
  obtain ⟨⟨s', g'⟩, hslide, rfl⟩ := hstep
  have hlt : c.group.start < c.group.end := by simp only [Slide.size] at hne; omega
  obtain ⟨hs, hpos, hend, hstart, hrank⟩ := groupSlideUp_spec h.ok h.group hlt hslide
  obtain ⟨og', hprev, hog, -, hrank'⟩ :=
    groupPrevious_spec hother h.otherGroup (fun he => hpos (h.start_iff.2 he))
  simp only [hprev, Option.getD_some]
  have heq := h.rank_eq
  exact ⟨h.of_slides hs hog (by omega), hs.size_le, hs.rest_le, by omega⟩

include haligned

section

variable {c' : Slide} (h : Lock side other c) (hne : 0 < c.size)
  (hstep : slideDownOne other c = some c')

include h hne hstep

theorem slideDownOne_spec :
    Lock side other c' ∧ c.size ≤ c'.size ∧ c'.rest ≤ c.rest ∧ c.group.end < c'.group.end := by
  simp only [slideDownOne, Option.map_eq_some_iff] at hstep
  obtain ⟨⟨s', g'⟩, hslide, rfl⟩ := hstep
  have hlt : c.group.start < c.group.end := by simp only [Slide.size] at hne; omega
  obtain ⟨hs, hend, hstart, hge, hrank⟩ := groupSlideDown_spec h.ok h.group hlt hslide
  rw [h.length_eq] at hend
  obtain ⟨og', hnext, hog, -, hrank'⟩ :=
    groupNext_spec hother h.otherGroup (fun he => hend ((h.end_iff hother haligned).2 he))
  simp only [hnext, Option.getD_some]
  have heq := h.rank_eq
  exact ⟨h.of_slides hs hog (by omega), hs.size_le, hs.rest_le, by omega⟩

/-- A slide down that absorbs nothing is undone, on both sides, by one forced slide up. -/
theorem forceUp_slideDown (hsize : c'.size = c.size) :
    forceUpOne other c' = c := by
  simp only [slideDownOne, Option.map_eq_some_iff] at hstep
  obtain ⟨⟨s', g'⟩, hslide, rfl⟩ := hstep
  have hlt : c.group.start < c.group.end := by simp only [Slide.size] at hne; omega
  obtain ⟨-, hend, -, -, -⟩ := groupSlideDown_spec h.ok h.group hlt hslide
  have hback := groupSlideUp_of_slideDown h.ok h.group hlt hslide hsize
  rw [h.length_eq] at hend
  obtain ⟨og', hnext, -, -, -⟩ :=
    groupNext_spec hother h.otherGroup (fun he => hend ((h.end_iff hother haligned).2 he))
  have hprev := groupPrevious_of_groupNext hother h.otherGroup hnext
  simp only [forceUpOne, hnext, Option.getD_some, hback, hprev]

end

/-- `b` is reached from `a` by slides down. -/
inductive Ladder (other : Side) (a : Slide) : Slide → Prop
  | refl : Ladder other a a
  | step {b c : Slide} : Ladder other a b → slideDownOne other b = some c → Ladder other a c

theorem Ladder.spec {a b : Slide} (hl : Ladder other a b) (h : Lock side other a)
    (hne : 0 < a.size) :
    Lock side other b ∧ a.size ≤ b.size ∧ b.rest ≤ a.rest ∧ a.group.end ≤ b.group.end := by
  induction hl with
  | refl => exact ⟨h, by omega, Nat.le_refl _, Int.le_refl _⟩
  | step _ hstep ih =>
    obtain ⟨h1, h2, h3, h4⟩ := ih
    obtain ⟨k1, k2, k3, k4⟩ := slideDownOne_spec hother haligned h1 (by omega) hstep
    exact ⟨k1, by omega, by omega, by omega⟩

/-- Sliding back up a ladder of equal sizes meets every rung, so it stops at one where the
    condition fails. -/
theorem forceUpWhile_settles (again : Slide → Bool) {a b : Slide} (hl : Ladder other a b)
    (h : Lock side other a) (hne : 0 < a.size) (hsize : b.size = a.size)
    (hstop : again a = false) :
    ∃ c, Settles (fun fuel => forceUpWhile other again fuel b) c ∧ Lock side other c ∧
      c.rest ≤ a.rest := by
  induction hl with
  | refl =>
    refine ⟨a, loop_settles_inr (Settles.of_const fun fuel => ?_), h, Nat.le_refl _⟩
    simp [hstop]
  | @step b c hl' hstep ih =>
    obtain ⟨h1, h2, h3, -⟩ := hl'.spec hother haligned h hne
    obtain ⟨k1, k2, k3, -⟩ := slideDownOne_spec hother haligned h1 (by omega) hstep
    cases hagain : again c with
    | false =>
      refine ⟨c, loop_settles_inr (Settles.of_const fun fuel => ?_), k1, by omega⟩
      simp [hagain]
    | true =>
      obtain ⟨d, hd, hlock, hrest⟩ := ih (by omega)
      refine ⟨d, loop_settles_inl (t := b) (Settles.of_const fun fuel => ?_) hd, hlock, hrest⟩
      simp [hagain, forceUp_slideDown hother haligned h1 (by omega) hstep (by omega)]

omit haligned in
theorem slideUpAll_settles (h : Lock side other c) (hne : 0 < c.size) :
    ∃ c', Settles (fun fuel => slideUpAll other fuel c) c' ∧ Lock side other c' ∧
      c.size ≤ c'.size ∧ c'.rest ≤ c.rest := by
  refine loop_settles (fun d => Lock side other d ∧ c.size ≤ d.size ∧ d.rest ≤ c.rest)
    (fun d => Lock side other d ∧ c.size ≤ d.size ∧ d.rest ≤ c.rest)
    (fun d => d.group.start.toNat) (fun d ⟨hd, hsize, hrest⟩ => ?_) c
    ⟨h, Int.le_refl _, Nat.le_refl _⟩
  cases hstep : slideUpOne other d with
  | none => exact .inl ⟨d, Settles.of_const fun _ => rfl, hd, hsize, hrest⟩
  | some d' =>
    obtain ⟨h1, h2, h3, h4⟩ := slideUpOne_spec hother hd (by omega) hstep
    have h0 := h1.group.start_nonneg
    exact .inr ⟨d', Settles.of_const fun _ => rfl, ⟨h1, by omega, by omega⟩, by omega⟩

/-- The way down: the last state is on the ladder, and so is one whose other group is not
    empty if `endMatchingOther` was set. -/
theorem slideDownAll_settles (h : Lock side other c) (hne : 0 < c.size) :
    ∃ d, Settles (fun fuel => slideDownAll other fuel (c, matchingEnd c (-1))) d ∧
      Ladder other c d.1 ∧
      (d.2 ≠ -1 → ∃ b, Ladder other c b ∧ Ladder other b d.1 ∧
        b.otherGroup.start < b.otherGroup.end) := by
  let Inv := fun (d : Slide × Int) => Ladder other c d.1 ∧
    (d.2 ≠ -1 → ∃ b, Ladder other c b ∧ Ladder other b d.1 ∧
      b.otherGroup.start < b.otherGroup.end)
  refine loop_settles Inv Inv (fun d => (side.length - d.1.group.end).toNat)
    (fun d ⟨hl, hmatch⟩ => ?_) _ ⟨.refl, fun hset => ⟨c, .refl, .refl, ?_⟩⟩
  · obtain ⟨hd, hsize, -, -⟩ := hl.spec hother haligned h hne
    cases hstep : slideDownOne other d.1 with
    | none => exact .inl ⟨d, Settles.of_const fun _ => rfl, hl, hmatch⟩
    | some d' =>
      obtain ⟨h1, -, -, h4⟩ := slideDownOne_spec hother haligned hd (by omega) hstep
      have hle := h1.group.end_le
      rw [h1.length_eq] at hle
      refine .inr ⟨(d', matchingEnd d' d.2), Settles.of_const fun _ => rfl,
        ⟨hl.step hstep, fun hset => ?_⟩, by dsimp only; omega⟩
      by_cases hempty : d'.otherGroup.start < d'.otherGroup.end
      · exact ⟨d', hl.step hstep, .refl, hempty⟩
      · simp only [matchingEnd, hempty, if_false] at hset
        obtain ⟨b, hb1, hb2, hb3⟩ := hmatch hset
        exact ⟨b, hb1, hb2.step hstep, hb3⟩
  · by_contra hempty
    simp [matchingEnd, hempty] at hset

/-- The state the `do … while` leaves: the last round slid down a ladder of equal sizes from
    the earliest position. -/
structure SlidOk (side other : Side) (c : Slide) (s : Slid) : Prop where
  ladder : ∃ up, Lock side other up ∧ 0 < up.size ∧ s.earliestEnd = up.group.end ∧
    up.rest ≤ c.rest ∧ Ladder other up s.slide ∧ s.slide.size = up.size ∧
    (s.endMatchingOther ≠ -1 → ∃ b, Ladder other up b ∧ Ladder other b s.slide ∧
      b.otherGroup.start < b.otherGroup.end)

/-- The `do … while` ends, since every further round has made the group larger. -/
theorem slideBothWays_settles (h : Lock side other c) (hne : 0 < c.size) :
    ∃ s, Settles (fun fuel => slideBothWays other fuel c) s ∧ SlidOk side other c s ∧
      s.size = s.slide.size := by
  refine loop_settles (fun d => Lock side other d ∧ 0 < d.size ∧ d.rest ≤ c.rest)
    (fun s => SlidOk side other c s ∧ s.size = s.slide.size) (fun d => (side.length - d.size).toNat)
    (fun d ⟨hd, hpos, hrest⟩ => ?_) c ⟨h, hne, Nat.le_refl _⟩
  obtain ⟨up, hup, hlock, hsize, huprest⟩ := slideUpAll_settles hother hd hpos
  obtain ⟨⟨down, em⟩, hdown, hladder, hmatch⟩ :=
    slideDownAll_settles hother haligned hlock (by omega)
  obtain ⟨hlock', hsize', hrest', -⟩ := hladder.spec hother haligned hlock (by omega)
  have hround : Settles (fun fuel => (slideUpAll other fuel d).bind fun up =>
      (slideDownAll other fuel (up, matchingEnd up (-1))).bind fun r =>
        if d.size = r.1.size then
          some (Sum.inr (α := Slide) (Slid.mk r.1 d.size up.group.end r.2))
        else some (.inl r.1))
      (if d.size = down.size then .inr (Slid.mk down d.size up.group.end em) else .inl down) := by
    refine hup.bind (k := fun up fuel => _) (hdown.bind (k := fun r fuel => _) ?_)
    exact Settles.of_const fun _ => by split <;> rfl
  by_cases hsame : d.size = down.size
  · rw [if_pos hsame] at hround
    exact .inl ⟨_, hround, ⟨up, hlock, by omega, rfl, by omega, hladder,
      by dsimp only at *; omega, hmatch⟩, hsame⟩
  · rw [if_neg hsame] at hround
    have hle := hlock'.group.end_le
    have h0 := hlock'.group.start_nonneg
    rw [hlock'.length_eq] at hle
    dsimp only at *
    refine .inr ⟨down, hround, ⟨hlock', by omega, by omega⟩, ?_⟩
    have : down.size ≤ side.length := by simp only [Slide.size]; omega
    omega

omit hother haligned in
/-- The indent heuristic picks one of its candidates. -/
theorem foldl_betterShift_mem (s : Side) (size : Int) (shifts : List Int) (best : Int × Score) :
    (shifts.foldl (betterShift s size) best).1 ∈ shifts ∨
      ((shifts.foldl (betterShift s size) best).1 = best.1 ∧ (shifts = [] ∨ best.1 ≠ -1)) := by
  induction shifts generalizing best with
  | nil => exact .inr ⟨rfl, .inl rfl⟩
  | cons shift rest ih =>
    simp only [List.foldl_cons]
    have hcases := ih (betterShift s size best shift)
    by_cases hb : best.1 = -1 ∨ compareScores (shiftScore s size shift) best.2 ≤ 0
    · have heq : betterShift s size best shift = (shift, shiftScore s size shift) := if_pos hb
      rw [heq] at hcases ⊢
      rcases hcases with hmem | ⟨he, -⟩
      · exact .inl (List.mem_cons_of_mem _ hmem)
      · rw [he]
        exact .inl (by simp)
    · have heq : betterShift s size best shift = best := if_neg hb
      rw [heq] at hcases ⊢
      rcases hcases with hmem | ⟨he, -⟩
      · exact .inl (List.mem_cons_of_mem _ hmem)
      · exact .inr ⟨he, .inr fun h' => hb (.inl h')⟩

omit hother haligned in
theorem bestShift_bounds (s : Side) (groupEnd size earliestEnd : Int) (hsize : 0 ≤ size)
    (hle : earliestEnd ≤ groupEnd) :
    earliestEnd ≤ bestShift s groupEnd size earliestEnd ∧
      bestShift s groupEnd size earliestEnd ≤ groupEnd := by
  obtain ⟨shift, hshift, h1, h2⟩ : ∃ shift, bestShift s groupEnd size earliestEnd =
      ((Int.range shift (groupEnd + 1)).foldl (betterShift s size) (-1, ⟨0, 0⟩)).1 ∧
      earliestEnd ≤ shift ∧ shift ≤ groupEnd := by
    refine ⟨_, rfl, ?_, ?_⟩
    · split <;> split <;> omega
    · simp only [indentHeuristicMaxSliding]
      split <;> split <;> omega
  rw [hshift]
  rcases foldl_betterShift_mem s size (Int.range shift (groupEnd + 1)) (-1, ⟨0, 0⟩) with
    hmem | ⟨-, hnil | hne⟩
  · rw [Int.mem_range_iff] at hmem
    omega
  · rw [range_cons (by omega)] at hnil
    cases hnil
  · exact absurd rfl hne

theorem settle_settles {s : Slid} (indentHeuristic : Bool)
    (hs : SlidOk side other c s) (hsize : s.size = s.slide.size) :
    ∃ c', Settles (fun fuel => settle other indentHeuristic fuel s) c' ∧ Lock side other c' ∧
      c'.rest ≤ c.rest := by
  obtain ⟨up, hlock, hpos, hearliest, hrest, hladder, heq, hmatch⟩ := hs.ladder
  obtain ⟨hlock', hsize', hrest', hend⟩ := hladder.spec hother haligned hlock hpos
  unfold settle
  split
  · exact ⟨s.slide, Settles.of_const fun _ => rfl, hlock', by omega⟩
  split
  · -- some rung has a group to line up with
    rename_i hset
    obtain ⟨b, hb1, hb2, hb3⟩ := hmatch hset
    obtain ⟨k1, k2, k3, -⟩ := hb1.spec hother haligned hlock hpos
    obtain ⟨-, k4, -, -⟩ := hb2.spec hother haligned k1 (by omega)
    obtain ⟨c', hc', hl, hr⟩ := forceUpWhile_settles hother haligned
      (fun c => c.otherGroup.end = c.otherGroup.start) hb2 k1 (by omega) (by omega)
      (by simp only [decide_eq_false_iff_not]; omega)
    exact ⟨c', hc', hl, by omega⟩
  split
  · -- the chosen shift is not above the earliest rung
    obtain ⟨hlo, -⟩ := bestShift_bounds s.slide.side s.slide.group.end s.size s.earliestEnd
      (by omega) (by omega)
    obtain ⟨c', hc', hl, hr⟩ := forceUpWhile_settles hother haligned
      (fun c => bestShift s.slide.side s.slide.group.end s.size s.earliestEnd < c.group.end)
      hladder hlock hpos heq (by simp only [decide_eq_false_iff_not]; omega)
    exact ⟨c', hc', hl, by omega⟩
  · exact ⟨s.slide, Settles.of_const fun _ => rfl, hlock', by omega⟩

theorem compactGroup_settles (indentHeuristic : Bool) (h : Lock side other c) :
    ∃ c', Settles (fun fuel => compactGroup other indentHeuristic fuel c) c' ∧
      Lock side other c' ∧ c'.rest ≤ c.rest ∧ (c.size = 0 → c' = c) := by
  have hle := h.group.start_le
  unfold compactGroup
  by_cases hempty : c.group.end ≠ c.group.start
  · simp only [hempty, ne_eq, not_false_eq_true, if_true]
    have hpos : 0 < c.size := by simp only [Slide.size]; omega
    obtain ⟨s, hs, hok⟩ := slideBothWays_settles hother haligned h hpos
    obtain ⟨c', hc', hl, hr⟩ := settle_settles hother haligned indentHeuristic hok.1 hok.2
    exact ⟨c', hs.bind hc', hl, hr, fun h0 => by omega⟩
  · simp only [hempty, if_false]
    exact ⟨c, Settles.of_const fun _ => rfl, h, Nat.le_refl _, fun _ => rfl⟩

end Passes

/-- The rest behind the next group. -/
theorem rest_groupNext (hg : s.IsGroup g) (hg' : s.IsGroup g') (hstart : g'.start = g.end + 1) :
    s.rest g.end = (g'.end - g'.start).toNat + s.rest g'.end := by
  have h1 := hg'.start_le
  have h2 := hg'.end_le
  rw [s.rest_unmarked hg.after (by omega), ← hstart, s.rest_append h1 h2]
  have hall : (Int.range g'.start g'.end).filter s.changed.get = Int.range g'.start g'.end := by
    refine List.filter_eq_self.2 fun i hi => ?_
    rw [Int.mem_range_iff] at hi
    exact hg'.marked i hi.1 hi.2
  rw [hall, length_range]

/-- `compact` terminates, changes marks only and keeps the unmarked classes. -/
theorem compact_settles {side other : Side} (hside : side.Ok) (hother : other.Ok)
    (haligned : Aligned side other) (indentHeuristic : Bool) :
    ∃ side', Settles (fun fuel => compact fuel side other indentHeuristic) side' ∧
      side' = { side with changed := side'.changed } ∧ side'.Ok ∧
      side'.kept 0 side.length = side.kept 0 side.length := by
  -- a turn on a group either comes to a group behind fewer marked lines, or to an empty one
  let measure (c : Slide) : Nat ×ₗ Nat :=
    toLex (2 * c.rest + min 1 c.size.toNat, (side.length - c.group.end).toNat)
  refine loop_settles (Lock side other)
    (fun s : Side => s = { side with changed := s.changed } ∧ s.Ok ∧
      s.kept 0 side.length = side.kept 0 side.length) measure (fun c h => ?_)
    { side, group := groupInit side, otherGroup := groupInit other }
    ⟨rfl, hside, rfl, groupInit_isGroup hside, groupInit_isGroup hother, by
      simp [groupInit, Side.rank]⟩
  obtain ⟨c', hc', hlock, hrest, hsame⟩ :=
    compactGroup_settles hother haligned indentHeuristic h
  by_cases hend : c'.group.end = c'.side.length
  · refine .inl ⟨c'.side, hc'.bind (k := fun c fuel => _) (Settles.of_const fun _ => ?_),
      hlock.eq, hlock.ok, hlock.kept⟩
    simp [groupNext, hend]
  · obtain ⟨g', hg', hgroup, hstart, hrank⟩ := groupNext_spec hlock.ok hlock.group hend
    have hend' : c'.otherGroup.end ≠ other.length := fun he => hend (by
      rw [hlock.length_eq]
      exact (hlock.end_iff hother haligned).2 he)
    obtain ⟨og', hog', hogroup, -, horank⟩ := groupNext_spec hother hlock.otherGroup hend'
    have heq := hlock.rank_eq
    refine .inr ⟨{ c' with group := g', otherGroup := og' },
      hc'.bind (k := fun c fuel => _) (Settles.of_const fun _ => by simp [hg', hog']),
      ⟨hlock.eq, hlock.ok, hlock.kept, hgroup, hogroup, by dsimp only; omega⟩, ?_⟩
    have hnext := rest_groupNext hlock.group hgroup hstart
    have hge := hgroup.start_le
    have hle := hgroup.end_le
    rw [hlock.length_eq] at hle
    rw [Prod.Lex.toLex_lt_toLex]
    simp only [Slide.rest, Slide.size] at hrest hsame hnext ⊢
    by_cases hpos : 0 < c.group.end - c.group.start
    · left
      omega
    · have hcc := hsame (by have := h.group.start_le; omega)
      subst hcc
      omega

end Kompjutr.Diff
