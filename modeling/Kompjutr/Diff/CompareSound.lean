/-
  Kompjutr.Diff.CompareSound

  The divide and conquer over `findSplit` terminates and aligns its box: after
  `compare`, the search positions of the box that are left unmarked have the
  same classes on both sides (`compare_settles`).  Nothing outside the box
  changes (`Remarked`).

  Which point a box is split at does not matter for this; only that it lies in
  the box and that both parts are smaller.
-/
import Kompjutr.Diff.SearchSound
import Kompjutr.Diff.PrepareSound

namespace Kompjutr.Diff

open Kompjutr.Fuel Kompjutr.Frontier

namespace Side

/-- Is the line at search position `i` marked? -/
def refMarked (s : Side) (i : Int) : Bool := (readAt s.reference i).any s.changed.get

/-- The classes of the unmarked search positions in `[lo, hi)`. -/
def refKept (s : Side) (lo hi : Int) : List (Option Nat) :=
  ((Int.range lo hi).filter fun i => !s.refMarked i).map (hashAt s)

/-- The reference lists distinct lines. -/
structure RefOk (s : Side) : Prop where
  within : s.changed.Within s.lines.length
  nodup : s.reference.Nodup
  in_range : ∀ line ∈ s.reference, 0 ≤ line ∧ line < s.lines.length

theorem refKept_append (s : Side) {a b c : Int} (hab : a ≤ b) (hbc : b ≤ c) :
    s.refKept a c = s.refKept a b ++ s.refKept b c := by
  simp only [refKept, range_append hab hbc, List.filter_append, List.map_append]

@[simp] theorem refKept_self (s : Side) (a : Int) : s.refKept a a = [] := by
  simp [refKept]

theorem refKept_of_unmarked {s : Side} {a b : Int}
    (h : ∀ i, a ≤ i → i < b → s.refMarked i = false) :
    s.refKept a b = (Int.range a b).map (hashAt s) := by
  unfold refKept
  rw [List.filter_eq_self.2]
  intro i hi
  rw [Int.mem_range_iff] at hi
  simp [h i hi.1 hi.2]

theorem refKept_of_marked {s : Side} {a b : Int}
    (h : ∀ i, a ≤ i → i < b → s.refMarked i = true) : s.refKept a b = [] := by
  simp only [refKept, List.map_eq_nil_iff, List.filter_eq_nil_iff]
  intro i hi
  rw [Int.mem_range_iff] at hi
  simp [h i hi.1 hi.2]

end Side

/-- `t` is `s` with other marks on the lines at search positions `[lo, hi)`. -/
structure Remarked (s t : Side) (lo hi : Int) : Prop where
  eq : t = { s with changed := t.changed }
  within : t.changed.Within s.lines.length
  refs : ∀ j, j < lo ∨ hi ≤ j → t.refMarked j = s.refMarked j
  lines : ∀ line, line ∉ s.reference → t.changed.get line = s.changed.get line

namespace Remarked

variable {s t u : Side} {lo hi : Int}

theorem refl (hs : s.RefOk) (lo hi : Int) : Remarked s s lo hi :=
  ⟨rfl, hs.within, fun _ _ => rfl, fun _ _ => rfl⟩

section

variable (h : Remarked s t lo hi)

include h

theorem lines_eq : t.lines = s.lines := by rw [h.eq]

theorem reference_eq : t.reference = s.reference := by rw [h.eq]

theorem hashAt_eq : hashAt t = hashAt s := by
  funext i
  rw [h.eq]
  rfl

theorem refOk (hs : s.RefOk) : t.RefOk := by
  have hw := h.within
  rw [h.eq]
  exact ⟨hw, hs.nodup, hs.in_range⟩

theorem mono {lo' hi' : Int} (hlo : lo' ≤ lo) (hhi : hi ≤ hi') :
    Remarked s t lo' hi' :=
  ⟨h.eq, h.within, fun j hj => h.refs j (by omega), h.lines⟩

theorem trans (h' : Remarked t u lo hi) : Remarked s u lo hi := by
  refine ⟨?_, ?_, fun j hj => ?_, fun line hline => ?_⟩
  · have h1 := h'.eq
    rw [h.eq] at h1
    exact h1
  · have := h'.within
    rwa [h.lines_eq] at this
  · rw [h'.refs j hj, h.refs j hj]
  · rw [h'.lines line (by rwa [h.reference_eq]), h.lines line hline]

/-- Outside the range the unmarked positions are the same. -/
theorem refKept_eq {a b : Int} (hout : b ≤ lo ∨ hi ≤ a) :
    t.refKept a b = s.refKept a b := by
  unfold Side.refKept
  rw [h.hashAt_eq]
  refine congrArg _ (List.filter_congr fun i hi => ?_)
  rw [Int.mem_range_iff] at hi
  rw [h.refs i (by omega)]

end

end Remarked

-- Marking a run of positions

theorem set_refMarked {s : Side} (hs : s.RefOk) {i line : Int}
    (hi : readAt s.reference i = some line) (j : Int) :
    ({ s with changed := s.changed.set line true } : Side).refMarked j =
      if j = i then true else s.refMarked j := by
  obtain ⟨h0, h1⟩ := hs.in_range line (mem_of_readAt hi)
  unfold Side.refMarked
  dsimp only
  by_cases hij : j = i
  · subst hij
    simp [hi, Marks.get_set s.changed hs.within h0 h1]
  · rw [if_neg hij]
    cases hj : readAt s.reference j with
    | none => rfl
    | some line' =>
      simp only [Option.any_some]
      rw [Marks.get_set s.changed hs.within h0 h1, if_neg]
      -- distinct positions hold distinct lines
      rintro rfl
      obtain ⟨k, rfl, hk⟩ := getElem?_of_readAt hi
      obtain ⟨k', rfl, hk'⟩ := getElem?_of_readAt hj
      obtain ⟨hlt, hk1⟩ := List.getElem?_eq_some_iff.1 hk
      obtain ⟨hlt', hk2⟩ := List.getElem?_eq_some_iff.1 hk'
      have := (List.Nodup.getElem_inj_iff hs.nodup).1 (hk1.trans hk2.symm)
      exact hij (by simp [this])

theorem markReferences_spec {s : Side} (hs : s.RefOk) {lo : Int} (h0 : 0 ≤ lo) (n : Nat)
    (hn : lo + n ≤ s.reference.length) :
    Remarked s (markReferences s lo (lo + n)) lo (lo + n) ∧
    ∀ j, lo ≤ j → j < lo + n → (markReferences s lo (lo + n)).refMarked j = true := by
  induction n with
  | zero =>
    have hself : markReferences s lo (lo + (0 : Nat)) = s := by
      simp [markReferences]
    rw [hself]
    exact ⟨Remarked.refl hs _ _, fun j h1 h2 => by omega⟩
  | succ n ih =>
    obtain ⟨hrem, hmarked⟩ := ih (by omega)
    obtain ⟨line, hline⟩ : ∃ line, readAt s.reference (lo + n) = some line :=
      readAt_isSome (by omega) (by omega)
    have hstep : markReferences s lo (lo + (n + 1 : Nat)) =
        { markReferences s lo (lo + n) with
          changed := (markReferences s lo (lo + n)).changed.set line true } := by
      have e : lo + ((n + 1 : Nat) : Int) - 1 = lo + n := by omega
      simp only [markReferences]
      rw [range_snoc (by omega), e, List.foldl_append]
      simp only [List.foldl_cons, List.foldl_nil, hline]
    have hset := set_refMarked (hrem.refOk hs) (i := lo + n)
      (by rw [hrem.reference_eq]; exact hline)
    have hmem : line ∈ s.reference := mem_of_readAt hline
    obtain ⟨hl0, hl1⟩ := hs.in_range line hmem
    rw [hstep]
    refine ⟨⟨?_, ?_, fun j hj => ?_, fun l hl => ?_⟩, fun j h1 h2 => ?_⟩
    · rw [hrem.eq]
    · exact Marks.set_within hrem.within hl0 hl1 true
    · rw [hset j, if_neg (by omega), hrem.refs j (by omega)]
    · dsimp only
      rw [Marks.get_set _ hrem.within hl0 hl1, if_neg, hrem.lines l hl]
      rintro rfl
      exact hl hmem
    · rw [hset j]
      split
      · rfl
      · exact hmarked j h1 (by omega)

-- Trimming the box

theorem skipHead_spec (r : Region) (n : Nat) (low1 low2 : Int) (hn : r.lim1 - low1 ≤ n)
    (h1 : low1 ≤ r.lim1) (h2 : low2 ≤ r.lim2) :
    ∃ k : Int, 0 ≤ k ∧ skipHead r n (low1, low2) = (low1 + k, low2 + k) ∧
      low1 + k ≤ r.lim1 ∧ low2 + k ≤ r.lim2 ∧
      (∀ i, 0 ≤ i → i < k → r.sameAt (low1 + i) (low2 + i) = true) ∧
      (low1 + k < r.lim1 → low2 + k < r.lim2 → r.sameAt (low1 + k) (low2 + k) = false) := by
  induction n generalizing low1 low2 with
  | zero =>
    exact ⟨0, by omega, by simp [skipHead], by omega, by omega, fun i hi hk => by omega,
      fun h => by omega⟩
  | succ n ih =>
    simp only [skipHead]
    split
    · rename_i hcond
      obtain ⟨hlt1, hlt2, hsame⟩ := hcond
      obtain ⟨k, hk0, heq, hk1, hk2, hall, hend⟩ :=
        ih (low1 + 1) (low2 + 1) (by omega) (by omega) (by omega)
      have e1 : low1 + 1 + k = low1 + (1 + k) := by omega
      have e2 : low2 + 1 + k = low2 + (1 + k) := by omega
      rw [e1, e2] at heq hend
      refine ⟨1 + k, by omega, heq, by omega, by omega, fun i hi hik => ?_, hend⟩
      by_cases hi0 : i = 0
      · simpa [hi0] using hsame
      · have := hall (i - 1) (by omega) (by omega)
        rwa [show low1 + 1 + (i - 1) = low1 + i by omega,
          show low2 + 1 + (i - 1) = low2 + i by omega] at this
    · rename_i hcond
      refine ⟨0, by omega, by simp, by omega, by omega, fun i hi hk => by omega,
        fun hlt1 hlt2 => ?_⟩
      by_contra hne
      simp only [Int.add_zero] at hlt1 hlt2 hne
      exact hcond ⟨hlt1, hlt2, by simpa using hne⟩

theorem skipTail_spec (r : Region) (low1 low2 : Int) (n : Nat) (high1 high2 : Int)
    (hn : high1 - low1 ≤ n) (h1 : low1 ≤ high1) (h2 : low2 ≤ high2) :
    ∃ k : Int, 0 ≤ k ∧ skipTail r low1 low2 n (high1, high2) = (high1 - k, high2 - k) ∧
      low1 ≤ high1 - k ∧ low2 ≤ high2 - k ∧
      (∀ i, 0 ≤ i → i < k → r.sameAt (high1 - k + i) (high2 - k + i) = true) ∧
      (low1 < high1 - k → low2 < high2 - k →
        r.sameAt (high1 - k - 1) (high2 - k - 1) = false) := by
  induction n generalizing high1 high2 with
  | zero =>
    exact ⟨0, by omega, by simp [skipTail], by omega, by omega, fun i hi hk => by omega,
      fun h => by omega⟩
  | succ n ih =>
    simp only [skipTail]
    split
    · rename_i hcond
      obtain ⟨hlt1, hlt2, hsame⟩ := hcond
      obtain ⟨k, hk0, heq, hk1, hk2, hall, hend⟩ :=
        ih (high1 - 1) (high2 - 1) (by omega) (by omega) (by omega)
      have e1 : high1 - 1 - k = high1 - (1 + k) := by omega
      have e2 : high2 - 1 - k = high2 - (1 + k) := by omega
      rw [e1, e2] at heq hall hend
      refine ⟨1 + k, by omega, heq, by omega, by omega, fun i hi hik => ?_, hend⟩
      by_cases hlast : i = k
      · rwa [show high1 - (1 + k) + i = high1 - 1 by omega,
          show high2 - (1 + k) + i = high2 - 1 by omega]
      · exact hall i hi (by omega)
    · rename_i hcond
      refine ⟨0, by omega, by simp, by omega, by omega, fun i hi hk => by omega,
        fun hlt1 hlt2 => ?_⟩
      by_contra hne
      simp only [Int.sub_zero] at hlt1 hlt2 hne
      exact hcond ⟨hlt1, hlt2, by simpa using hne⟩

variable {k : Int}

theorem map_range_shift {β : Type} {f g : Int → β} {a b : Int}
    (h : ∀ i, 0 ≤ i → i < k → f (a + i) = g (b + i)) :
    (Int.range a (a + k)).map f = (Int.range b (b + k)).map g := by
  have ha : a + k - a = k := by omega
  have hb : b + k - b = k := by omega
  simp only [Int.range, ha, hb, List.map_map]
  refine List.map_congr_left fun i hi => ?_
  rw [List.mem_range] at hi
  exact h i (by omega) (by omega)

-- The recursion

/-- What `compare` is called with on the box `[off1, lim1) × [off2, lim2)`. -/
structure WorkOk (w : Work) (off1 lim1 off2 lim2 : Int) : Prop where
  left : w.left.RefOk
  right : w.right.RefOk
  off1_nonneg : 0 ≤ off1
  off1_le : off1 ≤ lim1
  lim1_le : lim1 ≤ w.left.reference.length
  off2_nonneg : 0 ≤ off2
  off2_le : off2 ≤ lim2
  lim2_le : lim2 ≤ w.right.reference.length
  unmarked1 : ∀ i, off1 ≤ i → i < lim1 → w.left.refMarked i = false
  unmarked2 : ∀ i, off2 ≤ i → i < lim2 → w.right.refMarked i = false
  forward : w.forward.Covers (-w.right.reference.length - 1) (w.left.reference.length + 1)
  backward : w.backward.Covers (-w.right.reference.length - 1) (w.left.reference.length + 1)
  bounded : (w.left.reference.length : Int) + w.right.reference.length < lineMax

/-- What `compare` leaves behind. -/
structure Compared (w w' : Work) (off1 lim1 off2 lim2 : Int) : Prop where
  left : Remarked w.left w'.left off1 lim1
  right : Remarked w.right w'.right off2 lim2
  forward : w'.forward.Covers (-w.right.reference.length - 1) (w.left.reference.length + 1)
  backward : w'.backward.Covers (-w.right.reference.length - 1) (w.left.reference.length + 1)
  aligned : w'.left.refKept off1 lim1 = w'.right.refKept off2 lim2

variable {w : Work} {off1 lim1 off2 lim2 k' : Int}

/-- Putting the trimmed head and tail back around an aligned middle. -/
theorem Compared.widen {w' : Work} (hw : WorkOk w off1 lim1 off2 lim2) (hk : 0 ≤ k) (hk' : 0 ≤ k')
    (h1 : off1 + k ≤ lim1 - k') (h2 : off2 + k ≤ lim2 - k')
    (hhead : ∀ i, 0 ≤ i → i < k → hashAt w.left (off1 + i) = hashAt w.right (off2 + i))
    (htail : ∀ i, 0 ≤ i → i < k' →
      hashAt w.left (lim1 - k' + i) = hashAt w.right (lim2 - k' + i))
    (h : Compared w w' (off1 + k) (lim1 - k') (off2 + k) (lim2 - k')) :
    Compared w w' off1 lim1 off2 lim2 := by
  refine ⟨h.left.mono (by omega) (by omega), h.right.mono (by omega) (by omega), h.forward,
    h.backward, ?_⟩
  have hhead1 : w'.left.refKept off1 (off1 + k) =
      (Int.range off1 (off1 + k)).map (hashAt w.left) := by
    rw [h.left.refKept_eq (.inl (by omega))]
    exact Side.refKept_of_unmarked fun i hi hlt => hw.unmarked1 i (by omega) (by omega)
  have hhead2 : w'.right.refKept off2 (off2 + k) =
      (Int.range off2 (off2 + k)).map (hashAt w.right) := by
    rw [h.right.refKept_eq (.inl (by omega))]
    exact Side.refKept_of_unmarked fun i hi hlt => hw.unmarked2 i (by omega) (by omega)
  have htail1 : w'.left.refKept (lim1 - k') lim1 =
      (Int.range (lim1 - k') (lim1 - k' + k')).map (hashAt w.left) := by
    rw [h.left.refKept_eq (.inr (by omega)), show lim1 - k' + k' = lim1 by omega]
    exact Side.refKept_of_unmarked fun i hi hlt => hw.unmarked1 i (by omega) (by omega)
  have htail2 : w'.right.refKept (lim2 - k') lim2 =
      (Int.range (lim2 - k') (lim2 - k' + k')).map (hashAt w.right) := by
    rw [h.right.refKept_eq (.inr (by omega)), show lim2 - k' + k' = lim2 by omega]
    exact Side.refKept_of_unmarked fun i hi hlt => hw.unmarked2 i (by omega) (by omega)
  rw [Side.refKept_append w'.left (b := off1 + k) (c := lim1) (by omega) (by omega),
    Side.refKept_append w'.left (a := off1 + k) (b := lim1 - k') (c := lim1) (by omega) (by omega),
    Side.refKept_append w'.right (b := off2 + k) (c := lim2) (by omega) (by omega),
    Side.refKept_append w'.right (a := off2 + k) (b := lim2 - k') (c := lim2) (by omega) (by omega),
    hhead1, hhead2, htail1, htail2, h.aligned, map_range_shift hhead, map_range_shift htail]

variable {i1 i2 : Int}

/-- The two recursive calls align their halves, and the second leaves the first alone. -/
theorem Compared.split {w1 w2 : Work} (hi1 : off1 ≤ i1 ∧ i1 ≤ lim1) (hi2 : off2 ≤ i2 ∧ i2 ≤ lim2)
    (h1 : Compared w w1 off1 i1 off2 i2) (h2 : Compared w1 w2 i1 lim1 i2 lim2) :
    Compared w w2 off1 lim1 off2 lim2 := by
  have hf := h2.forward
  have hb := h2.backward
  rw [h1.left.reference_eq, h1.right.reference_eq] at hf hb
  refine ⟨(h1.left.mono (by omega) (by omega)).trans (h2.left.mono (by omega) (by omega)),
    (h1.right.mono (by omega) (by omega)).trans (h2.right.mono (by omega) (by omega)), hf, hb, ?_⟩
  have hfirst1 := h2.left.refKept_eq (a := off1) (b := i1) (.inl (by omega))
  have hfirst2 := h2.right.refKept_eq (a := off2) (b := i2) (.inl (by omega))
  rw [Side.refKept_append _ hi1.1 hi1.2, Side.refKept_append _ hi2.1 hi2.2, h2.aligned,
    hfirst1, hfirst2, h1.aligned]

theorem WorkOk.trimmed (hw : WorkOk w off1 lim1 off2 lim2) (hk : 0 ≤ k) (hk' : 0 ≤ k')
    (h1 : off1 + k ≤ lim1 - k') (h2 : off2 + k ≤ lim2 - k') :
    WorkOk w (off1 + k) (lim1 - k') (off2 + k) (lim2 - k') := by
  have a1 := hw.off1_nonneg
  have a2 := hw.lim1_le
  have a3 := hw.off2_nonneg
  have a4 := hw.lim2_le
  exact {
    left := hw.left
    right := hw.right
    off1_nonneg := by omega
    off1_le := h1
    lim1_le := by omega
    off2_nonneg := by omega
    off2_le := h2
    lim2_le := by omega
    unmarked1 := fun i hi hlt => hw.unmarked1 i (by omega) (by omega)
    unmarked2 := fun i hi hlt => hw.unmarked2 i (by omega) (by omega)
    forward := hw.forward
    backward := hw.backward
    bounded := hw.bounded }

/-- The first recursive call starts from the k-vectors `findSplit` left. -/
theorem WorkOk.firstHalf {forward backward : Diagonals}
    (hw : WorkOk w off1 lim1 off2 lim2) (hi1 : off1 ≤ i1 ∧ i1 ≤ lim1) (hi2 : off2 ≤ i2 ∧ i2 ≤ lim2)
    (hf : forward.Covers (-w.right.reference.length - 1) (w.left.reference.length + 1))
    (hb : backward.Covers (-w.right.reference.length - 1) (w.left.reference.length + 1)) :
    WorkOk { w with forward, backward } off1 i1 off2 i2 := by
  have a2 := hw.lim1_le
  have a4 := hw.lim2_le
  exact {
    left := hw.left
    right := hw.right
    off1_nonneg := hw.off1_nonneg
    off1_le := hi1.1
    lim1_le := by dsimp only; omega
    off2_nonneg := hw.off2_nonneg
    off2_le := hi2.1
    lim2_le := by dsimp only; omega
    unmarked1 := fun i hi hlt => hw.unmarked1 i hi (by omega)
    unmarked2 := fun i hi hlt => hw.unmarked2 i hi (by omega)
    forward := hf
    backward := hb
    bounded := hw.bounded }

theorem WorkOk.secondHalf {w1 : Work}
    (hw : WorkOk w off1 lim1 off2 lim2) (hi1 : off1 ≤ i1 ∧ i1 ≤ lim1) (hi2 : off2 ≤ i2 ∧ i2 ≤ lim2)
    (h : Compared w w1 off1 i1 off2 i2) : WorkOk w1 i1 lim1 i2 lim2 := by
  have a1 := hw.off1_nonneg
  have a3 := hw.off2_nonneg
  exact {
    left := h.left.refOk hw.left
    right := h.right.refOk hw.right
    off1_nonneg := by omega
    off1_le := hi1.2
    lim1_le := by rw [h.left.reference_eq]; exact hw.lim1_le
    off2_nonneg := by omega
    off2_le := hi2.2
    lim2_le := by rw [h.right.reference_eq]; exact hw.lim2_le
    unmarked1 := fun i hi hlt => by
      rw [h.left.refs i (by omega)]; exact hw.unmarked1 i (by omega) hlt
    unmarked2 := fun i hi hlt => by
      rw [h.right.refs i (by omega)]; exact hw.unmarked2 i (by omega) hlt
    forward := by rw [h.left.reference_eq, h.right.reference_eq]; exact h.forward
    backward := by rw [h.left.reference_eq, h.right.reference_eq]; exact h.backward
    bounded := by rw [h.left.reference_eq, h.right.reference_eq]; exact hw.bounded }

/-- An empty left half: the right one is marked as a whole. -/
theorem compared_of_empty_left (hw : WorkOk w off1 off1 off2 lim2) :
    Compared w { w with right := markReferences w.right off2 lim2 } off1 off1 off2 lim2 := by
  have hle := hw.off2_le
  obtain ⟨n, rfl⟩ : ∃ n : Nat, lim2 = off2 + n := ⟨(lim2 - off2).toNat, by omega⟩
  obtain ⟨hrem, hmarked⟩ := markReferences_spec hw.right hw.off2_nonneg n hw.lim2_le
  exact ⟨Remarked.refl hw.left _ _, hrem, hw.forward, hw.backward, by
    rw [Side.refKept_self, Side.refKept_of_marked hmarked]⟩

theorem compared_of_empty_right (hw : WorkOk w off1 lim1 off2 off2) :
    Compared w { w with left := markReferences w.left off1 lim1 } off1 lim1 off2 off2 := by
  have hle := hw.off1_le
  obtain ⟨n, rfl⟩ : ∃ n : Nat, lim1 = off1 + n := ⟨(lim1 - off1).toNat, by omega⟩
  obtain ⟨hrem, hmarked⟩ := markReferences_spec hw.left hw.off1_nonneg n hw.lim1_le
  exact ⟨hrem, Remarked.refl hw.right _ _, hw.forward, hw.backward, by
    rw [Side.refKept_self, Side.refKept_of_marked hmarked]⟩

/-- `compare` terminates on every box and aligns it. -/
theorem compare_settles (env : Environment) (henv : 0 < env.snakeCount) (n : Nat) :
    ∀ (w : Work) (off1 lim1 off2 lim2 : Int) (needMinimal : Bool),
      WorkOk w off1 lim1 off2 lim2 → (lim1 - off1) + (lim2 - off2) < n →
      ∃ w', Settles (fun fuel => compare env fuel w off1 lim1 off2 lim2 needMinimal) w' ∧
        Compared w w' off1 lim1 off2 lim2 := by
  induction n with
  | zero =>
    intro w off1 lim1 off2 lim2 needMinimal hw hn
    have h1 := hw.off1_le
    have h2 := hw.off2_le
    omega
  | succ n ih =>
    intro w off1 lim1 off2 lim2 needMinimal hw hn
    obtain ⟨k, hk, hhead, hk1, hk2, hsame, hstop⟩ :=
      skipHead_spec ⟨w.left, off1, lim1, w.right, off2, lim2⟩ (lim1 - off1).toNat off1 off2
        (by dsimp only; omega) hw.off1_le hw.off2_le
    obtain ⟨k', hk', htail, hk1', hk2', hsame', hstop'⟩ :=
      skipTail_spec ⟨w.left, off1, lim1, w.right, off2, lim2⟩ (off1 + k) (off2 + k)
        (lim1 - (off1 + k)).toNat lim1 lim2 (by omega) hk1 hk2
    have hw' := hw.trimmed hk hk' hk1' hk2'
    have hwiden : ∀ w', Compared w w' (off1 + k) (lim1 - k') (off2 + k) (lim2 - k') →
        Compared w w' off1 lim1 off2 lim2 := fun w' => Compared.widen hw hk hk' hk1' hk2'
      (fun i h1 h2 => of_decide_eq_true (hsame i h1 h2))
      (fun i h1 h2 => of_decide_eq_true (hsame' i h1 h2))
    by_cases he1 : off1 + k = lim1 - k'
    · refine ⟨{ w with right := markReferences w.right (off2 + k) (lim2 - k') },
        ⟨1, fun fuel hfuel => ?_⟩, hwiden _ ?_⟩
      · obtain ⟨fuel, rfl⟩ : ∃ m, fuel = m + 1 := ⟨fuel - 1, by omega⟩
        show compare env (fuel + 1) w off1 lim1 off2 lim2 needMinimal = _
        simp only [compare, hhead, htail, if_pos he1]
      · rw [← he1] at hw' ⊢
        exact compared_of_empty_left hw'
    by_cases he2 : off2 + k = lim2 - k'
    · refine ⟨{ w with left := markReferences w.left (off1 + k) (lim1 - k') },
        ⟨1, fun fuel hfuel => ?_⟩, hwiden _ ?_⟩
      · obtain ⟨fuel, rfl⟩ : ∃ m, fuel = m + 1 := ⟨fuel - 1, by omega⟩
        show compare env (fuel + 1) w off1 lim1 off2 lim2 needMinimal = _
        simp only [compare, hhead, htail, if_neg he1, if_pos he2]
      · rw [← he2] at hw' ⊢
        exact compared_of_empty_right hw'
    -- both sides are left: split the box and recurse into two smaller ones
    have b1 := hw'.lim1_le
    have b2 := hw'.lim2_le
    have b3 := hw'.off1_nonneg
    have b4 := hw'.off2_nonneg
    have b5 := hw.bounded
    have hregion : RegionOk ⟨w.left, off1 + k, lim1 - k', w.right, off2 + k, lim2 - k'⟩ := {
      off1_nonneg := b3
      off2_nonneg := b4
      off1_lt := by dsimp only; omega
      off2_lt := by dsimp only; omega
      lim_lt := by dsimp only; omega
      head := fun h => Bool.noConfusion ((hstop (by dsimp only; omega) (by dsimp only; omega)).symm.trans h)
      tail := fun h => Bool.noConfusion ((hstop' (by omega) (by omega)).symm.trans h) }
    obtain ⟨split, s, hsplit, hin, hcovF, hcovB⟩ := findSplit_settles needMinimal
      (-w.right.reference.length - 1) (w.left.reference.length + 1) hregion henv
      (by simp only [Region.dmin]; omega) (by simp only [Region.dmax]; omega) hw.forward hw.backward
    have hi1 : off1 + k ≤ split.i1 ∧ split.i1 ≤ lim1 - k' := ⟨hin.off1_le, hin.le_lim1⟩
    have hi2 : off2 + k ≤ split.i2 ∧ split.i2 ≤ lim2 - k' := ⟨hin.off2_le, hin.le_lim2⟩
    have hnear := hin.not_near
    have hfar := hin.not_far
    dsimp only at hnear hfar
    obtain ⟨w1, hset1, hcmp1⟩ := ih { w with forward := s.forward, backward := s.backward }
      (off1 + k) split.i1 (off2 + k) split.i2 split.minimalLow
      (hw'.firstHalf hi1 hi2 hcovF hcovB) (by omega)
    have hcmp1' : Compared w w1 (off1 + k) split.i1 (off2 + k) split.i2 :=
      ⟨hcmp1.left, hcmp1.right, hcmp1.forward, hcmp1.backward, hcmp1.aligned⟩
    obtain ⟨w2, hset2, hcmp2⟩ := ih w1 split.i1 (lim1 - k') split.i2 (lim2 - k') split.minimalHigh
      (hw'.secondHalf hi1 hi2 hcmp1') (by omega)
    refine ⟨w2, ?_, hwiden w2 (Compared.split hi1 hi2 hcmp1' hcmp2)⟩
    obtain ⟨m, hm⟩ := hsplit.bind (k := fun out fuel =>
      (compare env fuel { w with forward := out.2.forward, backward := out.2.backward }
        (off1 + k) out.1.i1 (off2 + k) out.1.i2 out.1.minimalLow).bind fun w =>
      compare env fuel w out.1.i1 (lim1 - k') out.1.i2 (lim2 - k') out.1.minimalHigh)
      (hset1.bind (k := fun w fuel =>
        compare env fuel w split.i1 (lim1 - k') split.i2 (lim2 - k') split.minimalHigh) hset2)
    refine ⟨m + 1, fun fuel hfuel => ?_⟩
    obtain ⟨fuel, rfl⟩ : ∃ m, fuel = m + 1 := ⟨fuel - 1, by omega⟩
    show compare env (fuel + 1) w off1 lim1 off2 lim2 needMinimal = _
    simp only [compare, hhead, htail, if_neg he1, if_neg he2]
    exact hm fuel (by omega)

end Kompjutr.Diff
