/-
  Kompjutr.Diff.RefineSound

  The refinements of the merge keep `Chain`: a conflict that is compared again
  falls apart into smaller conflicts with gaps where both sides agree, close
  conflicts are joined over the gap between them, and the diff3 refinement moves
  equal first and last lines out of a conflict.
-/
import Kompjutr.Diff.RegionsSound

namespace Kompjutr.Diff

open Fuel

section Lists

variable {α : Type} {tied : Bool} {base current incoming : List α}
  {regions : List MergeRegion} {x y z : Int}

/-- A pass over the regions in order, from what it does to one region.  The induction is on the
    chain, whose newest region is the last one the pass meets. -/
theorem Chain.foldlM {σ : Type} {step : Nat → σ → MergeRegion → Run GitError σ} {s : σ}
    {xmax ymax zmax : Int} (Q : σ → Int → Int → Int → Prop)
    (h : Chain tied base current incoming regions x y z) (hxmax : x ≤ xmax) (hymax : y ≤ ymax)
    (hzmax : z ≤ zmax) (hstart : Q s 0 0 0)
    (hgap : ∀ s x y z x' y' z', Q s x y z → x ≤ x' → y ≤ y' → z' - z = y' - y →
      Agree current incoming y z (y' - y) → Q s x' y' z')
    (hregion : ∀ s r x y z x' y' z', Q s x y z → 0 ≤ x → 0 ≤ y → 0 ≤ z →
      Spans tied base current incoming r x y z x' y' z' → x' ≤ xmax → y' ≤ ymax → z' ≤ zmax →
      Yields (fun fuel => step fuel s r) fun s => Q s x' y' z') :
    Yields (fun fuel => regions.reverse.foldlM (step fuel) s) fun s => Q s x y z := by
  induction h with
  | start => exact Yields.pure hstart
  | gap h hx hy hz hagree ih =>
    exact (ih (by omega) (by omega) (by omega)).mono
      fun s hs => hgap s _ _ _ _ _ _ hs hx hy hz hagree
  | region r h hr ih =>
    simp only [List.reverse_cons, List.foldlM_append, List.foldlM_cons, List.foldlM_nil, bind_pure]
    have hnonneg := h.nonneg
    have h1 := hr.base_le
    have h2 := hr.current_le
    have h3 := hr.incoming_le
    refine (ih (by omega) (by omega) (by omega)).bind fun s hs => ?_
    exact hregion s r _ _ _ _ _ _ hs hnonneg.1 hnonneg.2.1 hnonneg.2.2 hr hxmax hymax hzmax

end Lists

section Records

variable {base : List (List UInt8)} {currentLines incomingLines : List ByteRecord}
  {x y z x' y' z' : Int}

/-- What the differ answers under a limit, if it answers: groups that do not depend on the limit. -/
theorem diffByteRecords_groups (old new : List ByteRecord) (indentHeuristic : Option Bool)
    (hbound : (old.length : Int) + new.length < lineMax) :
    ∃ groups, Script (contents old) (contents new) 0 0 groups ∧
      (contents old = contents new → groups = []) ∧ ∀ maxChanges,
        Yields (fun fuel => ExceptT.mk (diffByteRecords fuel old new { indentHeuristic, maxChanges }))
          fun changes => changes = groups := by
  obtain ⟨groups, hscript, hsame, hsettles⟩ :=
    diffByteRecords_settles old new indentHeuristic hbound
  refine ⟨groups, hscript, hsame, fun maxChanges => ⟨_, hsettles maxChanges, fun changes hlimit => ?_⟩⟩
  unfold limitChanges at hlimit
  split at hlimit
  · exact (Except.ok.inj hlimit).symm
  · split at hlimit
    · cases hlimit
    · exact (Except.ok.inj hlimit).symm

theorem diffByteRecords_yields (old new : List ByteRecord) (options : DiffLinesOptions)
    (hbound : (old.length : Int) + new.length < lineMax) :
    Yields (fun fuel => ExceptT.mk (diffByteRecords fuel old new options)) fun groups =>
      Script (contents old) (contents new) 0 0 groups := by
  obtain ⟨groups, hscript, -, hyields⟩ :=
    diffByteRecords_groups old new options.indentHeuristic hbound
  exact (hyields options.maxChanges).mono fun changes hchanges => hchanges ▸ hscript

theorem readAt_recordSlice {records : List ByteRecord} {a n k : Int} (ha : 0 ≤ a) (hk : 0 ≤ k)
    (hkn : k < n) : readAt (contents (recordSlice records a n)) k
      = readAt (contents records) (a + k) := by
  obtain ⟨a, rfl⟩ := Int.eq_ofNat_of_zero_le ha
  obtain ⟨k, rfl⟩ := Int.eq_ofNat_of_zero_le hk
  rw [readAt_map, readAt_map, readAt_natCast, ← Int.natCast_add, readAt_natCast, recordSlice,
    List.getElem?_take, if_pos (by omega), List.getElem?_drop, Int.toNat_natCast]

theorem length_recordSlice (records : List ByteRecord) {a n : Int} (ha : 0 ≤ a) (hn : 0 ≤ n)
    (hle : a + n ≤ records.length) : ((recordSlice records a n).length : Int) = n := by
  simp only [recordSlice, List.length_take, List.length_drop]
  omega

/-- Agreement inside two slices is agreement at the shifted positions. -/
theorem Agree.of_slices {i j k n m : Int} (hy : 0 ≤ y) (hz : 0 ≤ z) (hi : 0 ≤ i) (hj : 0 ≤ j)
    (hn : i + k ≤ n) (hm : j + k ≤ m)
    (h : Agree (contents (recordSlice currentLines y n)) (contents (recordSlice incomingLines z m))
      i j k) : Agree (contents currentLines) (contents incomingLines) (y + i) (z + j) k := by
  intro d h0 h1
  have hd := h d h0 h1
  rw [readAt_recordSlice hy (by omega) (by omega), readAt_recordSlice hz (by omega) (by omega)]
    at hd
  rwa [Int.add_assoc, Int.add_assoc]

/-- The conflicts that the changes inside a region leave, from position `(i, j)` of it on. -/
theorem pushChanges_yields {maxConflicts : Int} {region : MergeRegion} (hy : 0 ≤ y) (hz : 0 ≤ z)
    (hyy : y ≤ y') (hzz : z ≤ z') (hyl : y' ≤ currentLines.length)
    (hzl : z' ≤ incomingLines.length) (hcs : region.currentStart = y)
    (his : region.incomingStart = z) (changes : List ChangeGroup) {i j : Int} {refined : MergeList}
    (hedits : Edits (contents (recordSlice currentLines y (y' - y)))
      (contents (recordSlice incomingLines z (z' - z))) i j changes) (hx : x ≤ x')
    (hchain : Chain false base (contents currentLines) (contents incomingLines) refined.regions x
      (y + i) (z + j)) :
    Yields (fun _ => changes.foldlM (fun refined change =>
        pushRegion refined maxConflicts (refinedConflict region change)) refined) fun refined =>
      Chain false base (contents currentLines) (contents incomingLines) refined.regions x' y' z'
      := by
  have hlenC : ((contents (recordSlice currentLines y (y' - y))).length : Int) = y' - y := by
    rw [List.length_map]
    exact length_recordSlice _ hy (by omega) (by omega)
  have hlenI : ((contents (recordSlice incomingLines z (z' - z))).length : Int) = z' - z := by
    rw [List.length_map]
    exact length_recordSlice _ hz (by omega) (by omega)
  induction changes generalizing i j x refined with
  | nil =>
    cases hedits with
    | done hi hj hle hlen hagree =>
    rw [hlenC] at hle hlen hagree
    rw [hlenI] at hlen
    refine Yields.pure (hchain.gap hx (by omega) (by omega) ?_)
    rw [show y' - (y + i) = y' - y - i by omega]
    exact hagree.of_slices hy hz hi hj (by omega) (by omega)
  | cons g changes ih =>
    cases hedits with
    | group hi hj hle hshift hagree holdCount hnewCount hsep hrest =>
    have hb := hrest.bounds
    rw [hlenC, hlenI] at hb
    have hbefore : Chain false base (contents currentLines) (contents incomingLines)
        refined.regions x (y + g.oldStart) (z + g.newStart) := by
      refine hchain.gap (Int.le_refl _) (by omega) (by omega) ?_
      rw [show y + g.oldStart - (y + i) = g.oldStart - i by omega]
      exact hagree.of_slices hy hz hi hj (by omega) (by omega)
    simp only [List.foldlM_cons]
    refine (pushRegion_yields (fun list => Chain false base (contents currentLines)
      (contents incomingLines) list.regions x' (y + (g.oldStart + g.oldCount))
      (z + (g.newStart + g.newCount))) fun conflicts => .region _ hbefore ?_).bind
        fun list hlist => ih hrest (Int.le_refl _) hlist
    exact ⟨hx, by omega, by omega, by simp only [refinedConflict]; omega,
      by simp only [refinedConflict]; omega, by simp only [refinedConflict]; omega,
      by simp only [refinedConflict]; omega, nofun, trivial⟩

/-- One turn of `refineConflicts`. -/
theorem refineRegion_yields {maxChanges maxConflicts : Int} {indentHeuristic : Bool}
    {refined : MergeList} {r : MergeRegion}
    (hbound : (currentLines.length : Int) + incomingLines.length < lineMax)
    (hchain : Chain false base (contents currentLines) (contents incomingLines) refined.regions
      x y z) (hy : 0 ≤ y) (hz : 0 ≤ z)
    (hr : Spans true base (contents currentLines) (contents incomingLines) r x y z x' y' z')
    (hyl : y' ≤ currentLines.length) (hzl : z' ≤ incomingLines.length) :
    Yields (fun fuel => refineRegion fuel currentLines incomingLines maxChanges maxConflicts
        indentHeuristic refined r) fun refined =>
      Chain false base (contents currentLines) (contents incomingLines) refined.regions x' y' z'
      := by
  have hcle := hr.current_le
  have hile := hr.incoming_le
  have hcs := hr.currentStart_eq
  have hcc := hr.currentCount_eq
  have his := hr.incomingStart_eq
  have hic := hr.incomingCount_eq
  refine Yields.ite (fun _ => Yields.guard fun _ => ?_) fun hconflict => ?_
  · exact pushRegion_yields _ fun _ => .region r hchain
      ⟨hr.base_le, hcle, hile, hcs, hcc, his, hic, nofun, hr.sound⟩
  rw [hcs, hcc, his, hic]
  have hlenC := length_recordSlice currentLines (a := y) (n := y' - y) hy (by omega)
    (by omega)
  have hlenI := length_recordSlice incomingLines (a := z) (n := z' - z) hz (by omega)
    (by omega)
  refine (diffByteRecords_yields _ _ _ (by omega)).bind fun changes hscript => ?_
  have hedits := hscript.edits [] [] rfl rfl
  simp only [List.nil_append] at hedits
  refine Yields.guard fun _ => Yields.ite (fun hnil => Yields.guard fun _ => Yields.pure ?_)
    fun _ => ?_
  · -- nothing differs: the region becomes one both sides share
    subst hnil
    cases hedits with
    | done hi hj hle hlen hagree =>
    rw [List.length_map, hlenC, Int.sub_zero] at hlen hagree
    rw [List.length_map, hlenI, Int.sub_zero] at hlen
    refine .region _ hchain ⟨hr.base_le, hcle, hile, rfl, rfl, rfl, rfl, nofun, hlen, ?_⟩
    have hres := hagree.of_slices hy hz (by omega) (by omega) (by omega) (by omega)
    simpa using hres
  · exact pushChanges_yields hy hz hcle hile hyl hzl hcs his changes hedits hr.base_le
      (by simpa using hchain)

variable {regions : List MergeRegion}

theorem refineConflicts_yields {maxChanges maxConflicts : Int} {indentHeuristic : Bool}
    (hbound : (currentLines.length : Int) + incomingLines.length < lineMax)
    (h : Chain true base (contents currentLines) (contents incomingLines) regions.reverse x
      currentLines.length incomingLines.length) :
    Yields (fun fuel => refineConflicts fuel regions currentLines incomingLines maxChanges
        maxConflicts indentHeuristic) fun regions =>
      Chain false base (contents currentLines) (contents incomingLines) regions.reverse x
        currentLines.length incomingLines.length := by
  have hfold : Yields (fun fuel => regions.reverse.reverse.foldlM (refineRegion fuel currentLines
      incomingLines maxChanges maxConflicts indentHeuristic) ⟨[], 0⟩) fun refined : MergeList =>
      Chain false base (contents currentLines) (contents incomingLines) refined.regions x
        currentLines.length incomingLines.length :=
    h.foldlM (fun (refined : MergeList) x y z => Chain false base (contents currentLines)
        (contents incomingLines) refined.regions x y z)
      (Int.le_refl _) (Int.le_refl _) (Int.le_refl _) .start
      (fun s x y z x' y' z' hs => hs.gap)
      fun s r x y z x' y' z' hs hx hy hz hr hxl hyl hzl =>
        refineRegion_yields hbound hs hy hz hr hyl hzl
  rw [List.reverse_reverse] at hfold
  refine hfold.bind fun refined hrefined => Yields.pure ?_
  rwa [List.reverse_reverse]

-- Joining close conflicts

theorem linesContainAsciiAlnum_yields {records : List ByteRecord} (count : Nat) {line : Int}
    (h0 : 0 ≤ line) (hle : line + count ≤ records.length) :
    Yields (fun _ => linesContainAsciiAlnum records count line) fun _ => True := by
  induction count generalizing line with
  | zero => exact Yields.pure trivial
  | succ count ih =>
    refine (recordAt_yields h0 (by omega)).bind fun record _ => ?_
    exact Yields.ite (fun _ => Yields.pure trivial) fun _ => ih (by omega) (by omega)

/-- One turn of `simplifyConflicts`. -/
theorem simplifyRegion_yields {simplified : List MergeRegion} {simplifyIfNoAlnum : Bool}
    {r : MergeRegion}
    (hchain : Chain false base (contents currentLines) (contents incomingLines) simplified x y z)
    (hr : Spans false base (contents currentLines) (contents incomingLines) r x y z x' y' z')
    (hyl : y' ≤ currentLines.length) :
    Yields (fun _ => simplifyRegion currentLines simplifyIfNoAlnum simplified r) fun simplified =>
      Chain false base (contents currentLines) (contents incomingLines) simplified x' y' z' := by
  have hcs := hr.currentStart_eq
  have hcc := hr.currentCount_eq
  have his := hr.incomingStart_eq
  have hic := hr.incomingCount_eq
  have hcle := hr.current_le
  have hile := hr.incoming_le
  cases simplified with
  | nil => exact Yields.pure (.region r hchain hr)
  | cons previous older =>
    refine Yields.ite (fun _ => Yields.pure (.region r hchain hr)) fun hboth => ?_
    obtain ⟨x0, y0, z0, x1, y1, z1, holder, hprev, hx1, hy1, hz1⟩ := hchain.newest
    have hnonneg := holder.nonneg
    have pcs := hprev.currentStart_eq
    have pcc := hprev.currentCount_eq
    have pis := hprev.incomingStart_eq
    have pic := hprev.incomingCount_eq
    have pcle := hprev.current_le
    have pile := hprev.incoming_le
    have pble := hprev.base_le
    have hmode : previous.mode = .conflict := by
      by_contra hne
      exact hboth (.inl hne)
    have hjoined : Chain false base (contents currentLines) (contents incomingLines)
        ({ previous with
          currentCount := r.currentStart + r.currentCount - previous.currentStart
          incomingCount := r.incomingStart + r.incomingCount - previous.incomingStart } :: older)
        x' y' z' := by
      have hble := hr.base_le
      refine .region _ holder ⟨by omega, by omega, by omega, pcs, by dsimp only; omega, pis,
        by dsimp only; omega, nofun, ?_⟩
      rw [hmode]
      trivial
    have hdecide : ∀ keepSeparate : Bool,
        Yields (fun _ => if keepSeparate = true then
            (pure (r :: previous :: older) : Run GitError (List MergeRegion))
          else pure ({ previous with
            currentCount := r.currentStart + r.currentCount - previous.currentStart
            incomingCount := r.incomingStart + r.incomingCount - previous.incomingStart } :: older))
          fun simplified => Chain false base (contents currentLines) (contents incomingLines)
            simplified x' y' z' := fun keepSeparate =>
      Yields.ite (fun _ => Yields.pure (.region r hchain hr)) fun _ => Yields.pure hjoined
    refine Yields.ite (fun _ => Yields.ite (fun _ => ?_) fun _ => ?_) fun _ => ?_
    · simpa only [pure_bind] using hdecide true
    · exact (linesContainAsciiAlnum_yields _ (by omega) (by omega)).bind
        fun keepSeparate _ => hdecide keepSeparate
    · simpa only [pure_bind] using hdecide false

theorem simplifyConflicts_yields {simplifyIfNoAlnum : Bool}
    (h : Chain false base (contents currentLines) (contents incomingLines) regions.reverse x
      currentLines.length incomingLines.length) :
    Yields (fun _ => simplifyConflicts regions currentLines simplifyIfNoAlnum) fun regions =>
      Chain false base (contents currentLines) (contents incomingLines) regions.reverse x
        currentLines.length incomingLines.length := by
  have hfold : Yields (fun _ => regions.reverse.reverse.foldlM
      (simplifyRegion currentLines simplifyIfNoAlnum) []) fun simplified =>
      Chain false base (contents currentLines) (contents incomingLines) simplified x
        currentLines.length incomingLines.length :=
    h.foldlM (fun simplified x y z => Chain false base (contents currentLines)
        (contents incomingLines) simplified x y z)
      (Int.le_refl _) (Int.le_refl _) (Int.le_refl _) .start
      (fun s x y z x' y' z' hs => hs.gap)
      fun s r x y z x' y' z' hs hx hy hz hr hxl hyl hzl => simplifyRegion_yields hs hr hyl
  rw [List.reverse_reverse] at hfold
  refine hfold.bind fun simplified hsimplified => Yields.pure ?_
  rwa [List.reverse_reverse]

section

variable (n : Nat) {r : MergeRegion} (hr : r.currentCount = n ∧ 0 ≤ r.currentStart ∧
  0 ≤ r.incomingStart ∧ 0 ≤ r.incomingCount ∧
  r.currentStart + r.currentCount ≤ currentLines.length ∧
  r.incomingStart + r.incomingCount ≤ incomingLines.length)

include hr

-- Trimming conflicts

theorem trimHead_yields :
    Yields (fun _ => trimHead currentLines incomingLines n r) fun r' =>
      ∃ d, 0 ≤ d ∧ d ≤ r.currentCount ∧ d ≤ r.incomingCount ∧
        r' = { r with
          currentStart := r.currentStart + d, currentCount := r.currentCount - d
          incomingStart := r.incomingStart + d, incomingCount := r.incomingCount - d } ∧
        Agree (contents currentLines) (contents incomingLines) r.currentStart r.incomingStart d
      := by
  induction n generalizing r with
  | zero => exact Yields.pure ⟨0, by omega, by omega, by omega, by simp, Agree.of_le (by omega)⟩
  | succ n ih =>
    refine Yields.ite (fun hpos => ?_) fun _ => Yields.pure
      ⟨0, by omega, by omega, by omega, by simp, Agree.of_le (by omega)⟩
    refine (recordAt_yields (by omega) (by omega)).bind fun left hleft => ?_
    refine (recordAt_yields (by omega) (by omega)).bind fun right hright => ?_
    refine Yields.ite (fun heq => ?_) fun _ => Yields.pure
      ⟨0, by omega, by omega, by omega, by simp, Agree.of_le (by omega)⟩
    refine (ih (by dsimp only; omega)).mono ?_
    rintro r' ⟨d, hd, hdc, hdi, rfl, hagree⟩
    dsimp only at hdc hdi hagree ⊢
    refine ⟨d + 1, by omega, by omega, by omega, ?_,
      Agree.cons (byteRecordsEqual_readAt hleft hright heq) hagree⟩
    simp only [MergeRegion.mk.injEq, true_and]
    omega

theorem trimTail_yields :
    Yields (fun _ => trimTail currentLines incomingLines n r) fun r' =>
      ∃ d, 0 ≤ d ∧ d ≤ r.currentCount ∧ d ≤ r.incomingCount ∧
        r' = { r with
          currentCount := r.currentCount - d, incomingCount := r.incomingCount - d } ∧
        Agree (contents currentLines) (contents incomingLines)
          (r.currentStart + r.currentCount - d) (r.incomingStart + r.incomingCount - d) d := by
  induction n generalizing r with
  | zero => exact Yields.pure ⟨0, by omega, by omega, by omega, by simp, Agree.of_le (by omega)⟩
  | succ n ih =>
    refine Yields.ite (fun hpos => ?_) fun _ => Yields.pure
      ⟨0, by omega, by omega, by omega, by simp, Agree.of_le (by omega)⟩
    refine (recordAt_yields (by omega) (by omega)).bind fun left hleft => ?_
    refine (recordAt_yields (by omega) (by omega)).bind fun right hright => ?_
    refine Yields.ite (fun heq => ?_) fun _ => Yields.pure
      ⟨0, by omega, by omega, by omega, by simp, Agree.of_le (by omega)⟩
    refine (ih (by dsimp only; omega)).mono ?_
    rintro r' ⟨d, hd, hdc, hdi, rfl, hagree⟩
    dsimp only at hdc hdi hagree ⊢
    refine ⟨d + 1, by omega, by omega, by omega, ?_, ?_⟩
    · simp only [MergeRegion.mk.injEq, true_and]
      omega
    · -- the line just dropped comes after those dropped later
      have hlast := byteRecordsEqual_readAt hleft hright heq
      rw [show r.currentStart + (r.currentCount - 1) - d = r.currentStart + r.currentCount - (d + 1)
        by omega, show r.incomingStart + (r.incomingCount - 1) - d =
          r.incomingStart + r.incomingCount - (d + 1) by omega] at hagree
      apply hagree.snoc
      rwa [show r.currentStart + r.currentCount - (d + 1) + d = r.currentStart + r.currentCount - 1
        by omega, show r.incomingStart + r.incomingCount - (d + 1) + d =
          r.incomingStart + r.incomingCount - 1 by omega]

end

/-- `refineZdiff3` on one region: what it drops is a gap before and a gap after the region. -/
theorem zdiff3Region_yields {r : MergeRegion}
    (hchain : Chain true base (contents currentLines) (contents incomingLines) regions x y z)
    (hr : Spans true base (contents currentLines) (contents incomingLines) r x y z x' y' z')
    (hyl : y' ≤ currentLines.length) (hzl : z' ≤ incomingLines.length) :
    Yields (fun _ => zdiff3Region currentLines incomingLines r) fun r' =>
      Chain true base (contents currentLines) (contents incomingLines) (r' :: regions) x' y' z'
      := by
  have hnonneg := hchain.nonneg
  have hcs := hr.currentStart_eq
  have hcc := hr.currentCount_eq
  have his := hr.incomingStart_eq
  have hic := hr.incomingCount_eq
  have hcle := hr.current_le
  have hile := hr.incoming_le
  refine Yields.ite (fun _ => Yields.pure (.region r hchain hr)) fun hmode => ?_
  have hmode : r.mode = .conflict := by simpa using hmode
  refine (trimHead_yields r.currentCount.toNat (by omega)).bind ?_
  rintro _ ⟨d, hd, hdc, hdi, rfl, hhead⟩
  refine (trimTail_yields (r.currentCount - d).toNat (by dsimp only; omega)).mono ?_
  rintro _ ⟨e, he, hec, hei, rfl, htail⟩
  dsimp only at hec hei htail ⊢
  have hbefore : Chain true base (contents currentLines) (contents incomingLines) regions x
      (y + d) (z + d) := by
    refine hchain.gap (Int.le_refl _) (by omega) (by omega) ?_
    rwa [hcs, his, show d = y + d - y by omega] at hhead
  have hregion : Chain true base (contents currentLines) (contents incomingLines)
      ({ r with
        currentStart := r.currentStart + d, currentCount := r.currentCount - d - e
        incomingStart := r.incomingStart + d, incomingCount := r.incomingCount - d - e } :: regions)
      x' (y' - e) (z' - e) := by
    refine .region _ hbefore ⟨hr.base_le, by omega, by omega, by dsimp only; omega,
      by dsimp only; omega, by dsimp only; omega, by dsimp only; omega, hr.base_eq, ?_⟩
    rw [hmode]
    trivial
  refine hregion.gap (Int.le_refl _) (by omega) (by omega) ?_
  rw [show y' - (y' - e) = e by omega]
  rwa [show r.currentStart + d + (r.currentCount - d) - e = y' - e by omega,
    show r.incomingStart + d + (r.incomingCount - d) - e = z' - e by omega] at htail

theorem refineZdiff3_yields
    (h : Chain true base (contents currentLines) (contents incomingLines) regions.reverse x
      currentLines.length incomingLines.length) :
    Yields (fun _ => refineZdiff3 regions currentLines incomingLines) fun regions =>
      Chain true base (contents currentLines) (contents incomingLines) regions.reverse x
        currentLines.length incomingLines.length := by
  unfold refineZdiff3
  rw [List.mapM_eq_reverse_foldlM_cons]
  have hfold : Yields (fun _ => regions.reverse.reverse.foldlM (fun done r => do
      return (← zdiff3Region currentLines incomingLines r) :: done) []) fun done =>
      Chain true base (contents currentLines) (contents incomingLines) done x
        currentLines.length incomingLines.length :=
    h.foldlM (fun done x y z => Chain true base (contents currentLines)
        (contents incomingLines) done x y z)
      (Int.le_refl _) (Int.le_refl _) (Int.le_refl _) .start
      (fun s x y z x' y' z' hs => hs.gap)
      fun s r x y z x' y' z' hs hx hy hz hr hxl hyl hzl =>
        (zdiff3Region_yields hs hr hyl hzl).bind fun r' hr' => Yields.pure hr'
  rw [List.reverse_reverse] at hfold
  refine Yields.map (hfold.mono fun done hdone => ?_)
  rwa [List.reverse_reverse]

end Records

end Kompjutr.Diff
