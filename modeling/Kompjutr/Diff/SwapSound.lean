/-
  Kompjutr.Diff.SwapSound

  The merge does not tell its two sides apart: with current and incoming exchanged the regions
  are the same with their sides exchanged, the same conflicts resolve to nothing, and a clean
  merge has the same content.

  A conflict is compared again from current to incoming only.  But it goes away just when the
  comparison finds no change, which is when both sides have the same lines.
-/
import Kompjutr.Diff.XmergeSound

namespace Kompjutr.Diff

open Fuel
open Fuel.Run (Gives gives_pure gives_bind gives_map gives_foldlM)
open List (flatMap_append length_cons mem_map mem_singleton_self reverse_cons)

variable {i j baseLineCount maxChanges y' z' x : Int}
  {same indentHeuristic simplifyIfNoAlnum tied : Bool} {taken : List MergeRegion}
  {result other : TextMergeResult} {resolved : ResolvedOptions}

variable {n : Nat} {list : MergeList} {out : List MergeRegion} {maxConflicts y z : Int}
  {currentChanges incomingChanges : List ChangeGroup} {r : MergeRegion} {options : ResolvedOptions}

variable {base current incoming : List ByteRecord}

-- The regions

theorem byteRecordsEqual_comm (left right : ByteRecord) :
    byteRecordsEqual left right = byteRecordsEqual right left := by
  rw [Bool.eq_iff_iff, byteRecordsEqual_iff, byteRecordsEqual_iff, eq_comm]

theorem sameLines_swap (h : Gives (sameLines current incoming n i j) same) :
    Gives (sameLines incoming current n j i) same := by
  induction n generalizing i j with
  | zero => exact h
  | succ n ih =>
    obtain ⟨left, hleft, h⟩ := gives_bind.1 h
    obtain ⟨right, hright, h⟩ := gives_bind.1 h
    refine gives_bind.2 ⟨right, hright, gives_bind.2 ⟨left, hleft, ?_⟩⟩
    rw [byteRecordsEqual_comm]
    split at h
    · next heq =>
      rw [if_pos heq]
      exact ih h
    · next hne =>
      rw [if_neg hne]
      exact h

theorem sameChange_swap {left right : ChangeGroup}
    (h : Gives (sameChange left right current incoming) same) :
    Gives (sameChange right left incoming current) same := by
  unfold sameChange at h ⊢
  split at h
  · next hne =>
    rw [if_pos (hne.imp Ne.symm (Or.imp Ne.symm Ne.symm))]
    exact h
  · next heq =>
    rw [not_or, not_or, not_not, not_not, not_not] at heq
    obtain ⟨hstart, hold, hnew⟩ := heq
    rw [if_neg (by rw [hstart, hold, hnew]; simp), ← hnew]
    exact sameLines_swap h

theorem appendRegion_gives_swap {out : MergeList} {region : MergeRegion}
    (h : Gives (appendRegion list maxConflicts region) out) :
    Gives (appendRegion list.swap maxConflicts region.swap) out.swap := by
  rw [appendRegion_swap]
  exact gives_map.2 ⟨out, h, rfl⟩

/-- The changes of one side after the last one of the other. -/
theorem tail_swap {region : ChangeGroup → MergeRegion} {changes : List ChangeGroup}
    {out : MergeList}
    (h : Gives (changes.foldlM (fun list change =>
      appendRegion list maxConflicts (region change)) list) out) :
    Gives (changes.foldlM (fun list change =>
      appendRegion list maxConflicts (region change).swap) list.swap) out.swap := by
  induction changes generalizing list with
  | nil =>
    rw [← gives_pure.1 h]
    exact gives_pure.2 rfl
  | cons change changes ih =>
    rw [List.foldlM_cons] at h ⊢
    obtain ⟨next, hnext, h⟩ := gives_bind.1 h
    exact gives_bind.2 ⟨next.swap, appendRegion_gives_swap hnext, ih h⟩

theorem mergeChanges_swap {out : MergeList}
    (hn : currentChanges.length + incomingChanges.length ≤ n)
    (hcounts : ∀ change ∈ currentChanges ++ incomingChanges, 0 ≤ change.oldCount)
    (h : Gives (mergeChanges current incoming baseLineCount maxConflicts n list currentChanges
      incomingChanges) out) :
    Gives (mergeChanges incoming current baseLineCount maxConflicts n list.swap incomingChanges
      currentChanges) out.swap := by
  induction n generalizing list currentChanges incomingChanges with
  | zero =>
    obtain rfl : currentChanges = [] := List.eq_nil_of_length_eq_zero (by omega)
    obtain rfl : incomingChanges = [] := List.eq_nil_of_length_eq_zero (by omega)
    rw [← gives_pure.1 h]
    exact gives_pure.2 rfl
  | succ n ih =>
    cases currentChanges with
    | nil =>
      cases incomingChanges with
      | nil =>
        rw [← gives_pure.1 h]
        exact gives_pure.2 rfl
      | cons right incomingChanges =>
        unfold mergeChanges at h ⊢
        rw [List.foldlM_nil, pure_bind] at h
        exact gives_bind.2 ⟨out.swap, tail_swap h, gives_pure.2 rfl⟩
    | cons left currentChanges =>
      cases incomingChanges with
      | nil =>
        unfold mergeChanges at h ⊢
        obtain ⟨next, htail, h⟩ := gives_bind.1 h
        rw [← gives_pure.1 h, List.foldlM_nil, pure_bind]
        exact tail_swap htail
      | cons right incomingChanges =>
        have hleft := hcounts left (by simp)
        have hright := hcounts right (by simp)
        simp only [length_cons] at hn
        unfold mergeChanges at h ⊢
        dsimp only at h ⊢
        have hrests : ∀ change ∈ (if right.oldStart + right.oldCount ≥ left.oldStart + left.oldCount
            then currentChanges else left :: currentChanges) ++
            (if left.oldStart + left.oldCount ≥ right.oldStart + right.oldCount
            then incomingChanges else right :: incomingChanges), 0 ≤ change.oldCount := by
          intro change hchange
          apply hcounts
          split at hchange <;> split at hchange <;> simp_all <;> tauto
        have hrest : (if right.oldStart + right.oldCount ≥ left.oldStart + left.oldCount
            then currentChanges else left :: currentChanges).length +
            (if left.oldStart + left.oldCount ≥ right.oldStart + right.oldCount
            then incomingChanges else right :: incomingChanges).length ≤ n := by
          rw [apply_ite List.length, apply_ite List.length, length_cons, length_cons]
          split <;> split <;> omega
        split at h
        · next hlt =>
          -- Current's change comes first: it is incoming's on the other side.
          obtain ⟨next, hnext, h⟩ := gives_bind.1 h
          rw [if_neg (by omega), if_pos hlt]
          refine gives_bind.2 ⟨next.swap, appendRegion_gives_swap hnext, ih ?_ ?_ h⟩
          · simp only [length_cons]; omega
          · exact fun change hchange => hcounts change (by simp_all)
        · next hnlt =>
          split at h
          · next hlt =>
            obtain ⟨next, hnext, h⟩ := gives_bind.1 h
            rw [if_pos hlt]
            refine gives_bind.2 ⟨next.swap, appendRegion_gives_swap hnext, ih ?_ ?_ h⟩
            · simp only [length_cons]; omega
            · exact fun change hchange => hcounts change (by simp_all; tauto)
          · next hnlt' =>
            rw [if_neg hnlt', if_neg hnlt]
            obtain ⟨same, hsame, h⟩ := gives_bind.1 h
            refine gives_bind.2 ⟨same, sameChange_swap hsame, ?_⟩
            cases same with
            | true => exact ih hrest hrests h
            | false =>
              obtain ⟨next, hnext, h⟩ := gives_bind.1 h
              refine gives_bind.2 ⟨next.swap, ?_, ih hrest hrests h⟩
              rw [← overlapRegion_swap]
              exact appendRegion_gives_swap hnext

variable {regions : List MergeRegion}

/-- The regions of the two edit scripts, with the sides exchanged. -/
theorem buildMergeRegions_swap
    (hcounts : ∀ change ∈ currentChanges ++ incomingChanges, 0 ≤ change.oldCount)
    (h : Gives (buildMergeRegions currentChanges incomingChanges current incoming baseLineCount
      maxConflicts) regions) :
    Gives (buildMergeRegions incomingChanges currentChanges incoming current baseLineCount
      maxConflicts) (regions.map MergeRegion.swap) := by
  obtain ⟨list, hlist, h⟩ := gives_bind.1 h
  rw [← gives_pure.1 h]
  have hswap := mergeChanges_swap (Nat.le_refl _) hcounts hlist
  rw [Nat.add_comm] at hswap
  refine gives_bind.2 ⟨list.swap, hswap, gives_pure.2 ?_⟩
  simp only [MergeList.swap, List.map_reverse]

-- The refinements

/-- A conflict that turned out to be no difference is a region both sides share. -/
def MergeRegion.settled (r : MergeRegion) : MergeRegion :=
  if r.mode = .conflict then { r with mode := .same } else r

/-- The two sides of a conflict have the same lines, and the comparison is made. -/
def Resolves (current incoming : List ByteRecord) (r : MergeRegion) : Prop :=
  r.currentCount ≠ 0 ∧ r.incomingCount ≠ 0 ∧
    contents (recordSlice current r.currentStart r.currentCount) =
      contents (recordSlice incoming r.incomingStart r.incomingCount)

/-- `refined` is `regions` without conflicts if all conflicts resolve; else it has a conflict. -/
structure Refined (resolves : MergeRegion → Prop) (regions refined : List MergeRegion) :
    Prop where
  settled : (∀ r ∈ regions, r.mode = .conflict → resolves r) →
    refined = regions.map MergeRegion.settled
  conflict : (∃ r ∈ regions, r.mode = .conflict ∧ ¬ resolves r) → ∃ r ∈ refined, r.mode = .conflict

theorem settled_of_ne (h : r.mode ≠ .conflict) : r.settled = r := if_neg h

theorem settled_mode (r : MergeRegion) : r.settled.mode ≠ .conflict := by
  unfold MergeRegion.settled
  split
  · nofun
  · assumption

theorem settled_swap (r : MergeRegion) : r.swap.settled = r.settled.swap := by
  have hmode : r.swap.mode = .conflict ↔ r.mode = .conflict := MergeMode.swap_eq_conflict _
  unfold MergeRegion.settled
  by_cases h : r.mode = .conflict
  · rw [if_pos h, if_pos (hmode.2 h)]
    rfl
  · rw [if_neg h, if_neg (mt hmode.1 h)]

theorem resolves_swap (r : MergeRegion) :
    Resolves incoming current r.swap ↔ Resolves current incoming r := by
  unfold Resolves MergeRegion.swap
  rw [← and_assoc, ← and_assoc, and_comm (a := r.incomingCount ≠ 0), eq_comm]

namespace Refined

variable {resolves : MergeRegion → Prop} {regions refined : List MergeRegion}

theorem nil : Refined resolves [] [] := ⟨fun _ => rfl, fun ⟨_, h, _⟩ => nomatch h⟩

/-- Without a conflict, nothing is refined. -/
theorem snoc_settled (h : Refined resolves regions refined) (hr : r.mode = .conflict → resolves r) :
    Refined resolves (regions ++ [r]) (refined ++ [r.settled]) := by
  constructor
  · intro hall
    rw [h.settled fun r' hr' => hall r' (List.mem_append_left _ hr'), List.map_append]
    rfl
  · rintro ⟨r', hmem, hmode, hnot⟩
    rcases List.mem_append.1 hmem with hmem | hmem
    · obtain ⟨c, hc, hconflict⟩ := h.conflict ⟨r', hmem, hmode, hnot⟩
      exact ⟨c, List.mem_append_left _ hc, hconflict⟩
    · obtain rfl := List.mem_singleton.1 hmem
      exact absurd (hr hmode) hnot

theorem snoc_conflict {added : List MergeRegion}
    (hmode : r.mode = .conflict) (hr : ¬ resolves r) (hadded : ∃ c ∈ added, c.mode = .conflict) :
    Refined resolves (regions ++ [r]) (refined ++ added) := by
  constructor
  · intro hall
    exact absurd (hall r (List.mem_append_right _ (mem_singleton_self r)) hmode) hr
  · obtain ⟨c, hc, hconflict⟩ := hadded
    exact fun _ => ⟨c, List.mem_append_right _ hc, hconflict⟩

/-- No conflict is left just when all of them resolve. -/
theorem clean_iff (h : Refined resolves regions refined) :
    countConflicts refined = 0 ↔ ∀ r ∈ regions, r.mode = .conflict → resolves r := by
  have hcount : countConflicts refined = 0 ↔ ∀ r ∈ refined, ¬ r.mode = .conflict := by
    rw [countConflicts, Int.natCast_eq_zero, List.countP_eq_zero]
    simp only [decide_eq_true_eq]
  rw [hcount]
  constructor
  · intro hnone r hr hmode
    by_contra hnot
    obtain ⟨c, hc, hconflict⟩ := h.conflict ⟨r, hr, hmode, hnot⟩
    exact hnone c hc hconflict
  · intro hall r hr
    rw [h.settled hall] at hr
    obtain ⟨r', -, rfl⟩ := mem_map.1 hr
    exact settled_mode r'

end Refined

theorem Refined.trans {resolves : MergeRegion → Prop} {middle refined : List MergeRegion}
    (h : Refined resolves regions middle) (h' : Refined (fun _ => False) middle refined) :
    Refined resolves regions refined := by
  constructor
  · intro hall
    have hmiddle := h.settled hall
    have hnone : ∀ r ∈ middle, r.mode ≠ .conflict := by
      intro r hr
      rw [hmiddle] at hr
      obtain ⟨r', -, rfl⟩ := mem_map.1 hr
      exact settled_mode r'
    rw [h'.settled hnone, List.map_congr_left fun r hr => settled_of_ne (hnone r hr), List.map_id',
      hmiddle]
  · intro hsome
    obtain ⟨c, hc, hconflict⟩ := h.conflict hsome
    exact h'.conflict ⟨c, hc, hconflict, not_false⟩

theorem Refined.congr {resolves resolves' : MergeRegion → Prop}
    {refined : List MergeRegion} (h : Refined resolves regions refined)
    (hiff : ∀ r, resolves r ↔ resolves' r) : Refined resolves' regions refined := by
  obtain rfl : resolves = resolves' := funext fun r => propext (hiff r)
  exact h

theorem length_recordSlice_le (records : List ByteRecord) (start count : Int) :
    (recordSlice records start count).length ≤ records.length := by
  simp only [recordSlice, List.length_take, List.length_drop]
  omega

theorem script_nil {α : Type} {old new : List α} (h : Script old new i j []) : old = new := by
  cases h
  rfl

/-- One turn of `refineConflicts` keeps a region, settles a conflict or leaves a conflict. -/
theorem refineRegion_refined {refined : MergeList}
    (hbound : (current.length : Int) + incoming.length < lineMax)
    (h : Refined (Resolves current incoming) taken refined.regions.reverse) :
    Yields (fun fuel => refineRegion fuel current incoming maxChanges maxConflicts indentHeuristic
      refined r) fun out =>
        Refined (Resolves current incoming) (taken ++ [r]) out.regions.reverse := by
  refine Yields.ite (fun hkept => Yields.guard fun _ => pushRegion_yields _ fun _ => ?_)
    fun hcompared => ?_
  · rw [reverse_cons]
    by_cases hmode : r.mode = .conflict
    · refine .snoc_conflict hmode ?_ ⟨r, mem_singleton_self r, hmode⟩
      rintro ⟨hcurrent, hincoming, -⟩
      exact hkept.elim (absurd hmode) fun hzero => hzero.elim hcurrent hincoming
    · have hnext := h.snoc_settled fun hconflict => absurd hconflict hmode
      rwa [settled_of_ne hmode] at hnext
  simp only [not_or, not_not] at hcompared
  obtain ⟨hmode, hcurrent, hincoming⟩ := hcompared
  have hleft := length_recordSlice_le current r.currentStart r.currentCount
  have hright := length_recordSlice_le incoming r.incomingStart r.incomingCount
  obtain ⟨groups, hscript, hsame, hyields⟩ := diffByteRecords_groups
    (recordSlice current r.currentStart r.currentCount)
    (recordSlice incoming r.incomingStart r.incomingCount) (some indentHeuristic) (by omega)
  refine (hyields _).bind ?_
  rintro _ rfl
  refine Yields.guard fun _ => Yields.ite (fun hnil => Yields.guard fun _ => Yields.pure ?_)
    fun hchanged => ?_
  · -- No change: the two sides have the same lines.
    subst hnil
    have hnext := h.snoc_settled fun _ => ⟨hcurrent, hincoming, script_nil hscript⟩
    rw [MergeRegion.settled, if_pos hmode] at hnext
    rwa [reverse_cons]
  · have hdiffer : ¬ Resolves current incoming r := fun hresolves => hchanged (hsame hresolves.2.2)
    refine (Yields.foldlM_taken [] (fun changes (out : MergeList) => out.regions.reverse =
      refined.regions.reverse ++ changes.map (refinedConflict r)) ?_ (by simp)).mono
      fun out hout => ?_
    · intro changes out change _ hout
      refine pushRegion_yields _ fun _ => ?_
      rw [reverse_cons, hout, List.map_append, List.append_assoc]
      rfl
    · rw [hout]
      obtain ⟨change, hchange⟩ := List.exists_mem_of_ne_nil _ hchanged
      exact .snoc_conflict hmode hdiffer
        ⟨refinedConflict r change, List.mem_map_of_mem hchange, rfl⟩

theorem refineConflicts_refined (hbound : (current.length : Int) + incoming.length < lineMax) :
    Yields (fun fuel => refineConflicts fuel regions current incoming maxChanges maxConflicts
      indentHeuristic) (Refined (Resolves current incoming) regions) := by
  refine (Yields.foldlM_taken [] (fun taken (refined : MergeList) =>
    Refined (Resolves current incoming) taken refined.regions.reverse)
    (fun taken refined r _ h => refineRegion_refined hbound h) Refined.nil).bind
      fun refined hrefined => Yields.pure hrefined

/-- One turn of `simplifyConflicts`: what is no conflict is kept as it is, and joining two
    conflicts leaves one. -/
theorem simplifyRegion_refined {simplified : List MergeRegion}
    (h : Refined (fun _ => False) taken simplified.reverse)
    (hout : Gives (simplifyRegion current simplifyIfNoAlnum simplified r) out) :
    Refined (fun _ => False) (taken ++ [r]) out.reverse := by
  have hkept : Refined (fun _ => False) (taken ++ [r]) (r :: simplified).reverse := by
    rw [reverse_cons]
    by_cases hmode : r.mode = .conflict
    · exact .snoc_conflict hmode not_false ⟨r, mem_singleton_self r, hmode⟩
    · have hnext := h.snoc_settled fun hconflict => absurd hconflict hmode
      rwa [settled_of_ne hmode] at hnext
  cases simplified with
  | nil =>
    rw [← gives_pure.1 hout]
    exact hkept
  | cons previous older =>
    unfold simplifyRegion at hout
    dsimp only at hout
    split at hout
    · rw [← gives_pure.1 hout]
      exact hkept
    · next hboth =>
      simp only [not_or, not_not] at hboth
      obtain ⟨hprevious, hr⟩ := hboth
      have hjoined : ∀ joined : MergeRegion, joined.mode = .conflict →
          Refined (fun _ => False) (taken ++ [r]) (joined :: older).reverse := by
        intro joined hjoined
        rw [reverse_cons]
        exact .snoc_conflict hr not_false ⟨joined, mem_singleton_self _, hjoined⟩
      have hdecided : ∀ {keepSeparate : Bool} {joined : MergeRegion},
          Gives (if keepSeparate = true then
              (pure (r :: previous :: older) : Run GitError (List MergeRegion))
            else pure (joined :: older)) out → joined.mode = .conflict →
          Refined (fun _ => False) (taken ++ [r]) out.reverse := by
        intro keepSeparate joined hout hmode
        split at hout
        · rw [← gives_pure.1 hout]
          exact hkept
        · rw [← gives_pure.1 hout]
          exact hjoined joined hmode
      split at hout
      · split at hout
        · rw [pure_bind] at hout
          exact hdecided hout hprevious
        · obtain ⟨keepSeparate, -, hout⟩ := gives_bind.1 hout
          exact hdecided hout hprevious
      · rw [pure_bind] at hout
        exact hdecided hout hprevious

theorem simplifyConflicts_refined
    (h : Gives (simplifyConflicts regions current simplifyIfNoAlnum) out) :
    Refined (fun _ => False) regions out := by
  obtain ⟨simplified, hfold, h⟩ := gives_bind.1 h
  rw [← gives_pure.1 h]
  exact gives_foldlM (fun taken simplified => Refined (fun _ => False) taken simplified.reverse)
    (fun taken simplified r next _ hinv hstep => simplifyRegion_refined hinv hstep) .nil hfold

theorem trimHead_mode {out : MergeRegion}
    (h : Gives (trimHead current incoming n r) out) : out.mode = r.mode := by
  induction n generalizing r with
  | zero => rw [← gives_pure.1 h]
  | succ n ih =>
    unfold trimHead at h
    split at h
    · obtain ⟨left, -, h⟩ := gives_bind.1 h
      obtain ⟨right, -, h⟩ := gives_bind.1 h
      split at h
      · have hrest := ih h
        exact hrest
      · rw [← gives_pure.1 h]
    · rw [← gives_pure.1 h]

theorem trimTail_mode {out : MergeRegion}
    (h : Gives (trimTail current incoming n r) out) : out.mode = r.mode := by
  induction n generalizing r with
  | zero => rw [← gives_pure.1 h]
  | succ n ih =>
    unfold trimTail at h
    split at h
    · obtain ⟨left, -, h⟩ := gives_bind.1 h
      obtain ⟨right, -, h⟩ := gives_bind.1 h
      split at h
      · have hrest := ih h
        exact hrest
      · rw [← gives_pure.1 h]
    · rw [← gives_pure.1 h]

/-- The diff3 refinement moves the edges of a conflict, which stays one. -/
theorem refineZdiff3_refined (h : Gives (refineZdiff3 regions current incoming) out) :
    Refined (fun _ => False) regions out := by
  unfold refineZdiff3 at h
  rw [List.mapM_eq_reverse_foldlM_cons] at h
  obtain ⟨done, hfold, hout⟩ := gives_map.1 h
  rw [← hout]
  refine gives_foldlM (fun taken done => Refined (fun _ => False) taken done.reverse)
    (fun taken done r next _ hinv hstep => ?_) .nil hfold
  obtain ⟨trimmed, htrimmed, hnext⟩ := gives_bind.1 hstep
  rw [← gives_pure.1 hnext, reverse_cons]
  unfold zdiff3Region at htrimmed
  split at htrimmed
  · next hmode =>
    rw [← gives_pure.1 htrimmed]
    have hkept := hinv.snoc_settled fun hconflict => absurd hconflict hmode
    rwa [settled_of_ne hmode] at hkept
  · next hmode =>
    rw [not_not] at hmode
    obtain ⟨headed, hheaded, htailed⟩ := gives_bind.1 htrimmed
    refine .snoc_conflict hmode not_false ⟨trimmed, mem_singleton_self _, ?_⟩
    rw [trimTail_mode htailed, trimHead_mode hheaded, hmode]

/-- The conflicts that the refinements of these options make go away. -/
def ResolvedBy (options : ResolvedOptions) (current incoming : List ByteRecord) (r : MergeRegion) :
    Prop :=
  options.style = .merge ∧ options.refinement ≠ .eager ∧ Resolves current incoming r

theorem refineRegions_refined
    (h : Chain true (contents base) (contents current) (contents incoming) regions.reverse
      base.length current.length incoming.length)
    (hbound : (current.length : Int) + incoming.length < lineMax) :
    Yields (fun fuel => refineRegions fuel regions current incoming options)
      (Refined (ResolvedBy options current incoming) regions) := by
  refine Yields.ite (fun hstyle => ?_) fun hstyle => Yields.ite (fun hmerge => ?_) fun hmerge => ?_
  · refine ((refineZdiff3_yields h).and_gives fun _ out hout => refineZdiff3_refined hout).mono
      fun out hout => hout.2.congr fun r => ?_
    simp [ResolvedBy, hstyle]
  · refine ((refineConflicts_yields hbound h).and (refineConflicts_refined hbound)).bind ?_
    rintro middle ⟨hchain, hmiddle⟩
    refine ((simplifyConflicts_yields hchain).and_gives fun _ out hout =>
      simplifyConflicts_refined hout).mono fun out hout => (hmiddle.trans hout.2).congr fun r => ?_
    simp [ResolvedBy, hmerge]
  · refine Yields.pure ⟨fun hall => ?_, fun ⟨r, hr, hmode, _⟩ => ⟨r, hr, hmode⟩⟩
    -- Without refinement every conflict stays.
    have hnone : ∀ r ∈ regions, r.mode ≠ .conflict := fun r hr hmode =>
      hmerge ⟨(hall r hr hmode).1, (hall r hr hmode).2.1⟩
    rw [List.map_congr_left fun r hr => settled_of_ne (hnone r hr), List.map_id']

-- The merge

/-- The content of a clean merge. -/
def TextMergeResult.cleanContent : TextMergeResult → Option (List UInt8)
  | .clean content _ => some content
  | _ => none

/-- What the merge of two edit scripts answers: the settled regions written out, or no clean
    content when a conflict of the regions does not resolve. -/
def Outcome (base current incoming : List ByteRecord) (options : ResolvedOptions)
    (currentChanges incomingChanges : List ChangeGroup) (result : TextMergeResult) : Prop :=
  ∃ regions, Gives (buildMergeRegions currentChanges incomingChanges current incoming base.length
      options.limits.maxConflicts) regions ∧
    (((∀ r ∈ regions, r.mode = .conflict → ResolvedBy options current incoming r) ∧
        ∃ content, result.cleanContent = some content ∧
          Gives (renderRegions (regions.map MergeRegion.settled) base current incoming options)
            content ∧
          ∃ tied, (tied = true ∨ options.style = .merge) ∧
            Chain tied (contents base) (contents current) (contents incoming)
              (regions.map MergeRegion.settled).reverse base.length current.length
              incoming.length) ∨
      ((∃ r ∈ regions, r.mode = .conflict ∧ ¬ ResolvedBy options current incoming r) ∧
        result.cleanContent = none))

theorem mergeRecords_outcome {currentChanges incomingChanges :
      List ChangeGroup} (memory : TextMergeMemoryEstimate)
    (hbound : (base.length : Int) + current.length + incoming.length < lineMax)
    (hscript : Script (contents base) (contents current) 0 0 currentChanges)
    (hscript' : Script (contents base) (contents incoming) 0 0 incomingChanges)
    (hcurrent : ∀ maxChanges, Yields (fun fuel => ExceptT.mk (diffByteRecords fuel base current
      { indentHeuristic := some options.indentHeuristic, maxChanges }))
        fun changes => changes = currentChanges)
    (hincoming : ∀ maxChanges, Yields (fun fuel => ExceptT.mk (diffByteRecords fuel base incoming
      { indentHeuristic := some options.indentHeuristic, maxChanges }))
        fun changes => changes = incomingChanges) :
    Yields (fun fuel => mergeRecords fuel base current incoming options memory)
      (Outcome base current incoming options currentChanges incomingChanges) := by
  refine (hcurrent _).bind ?_
  rintro _ rfl
  refine (hincoming _).bind ?_
  rintro _ rfl
  refine Yields.guard fun _ => ?_
  refine ((buildMergeRegions_yields hscript hscript').and_gives fun _ _ h => h).bind ?_
  rintro regions ⟨hregions, hgives⟩
  refine ((refineRegions_yields hregions (by omega)).and
    (refineRegions_refined hregions (by omega))).bind ?_
  rintro refined ⟨⟨tied, htied, hchain⟩, hrefined⟩
  refine Yields.guard fun _ => ?_
  refine (validateConflictRegions_yields hchain htied).bind fun _ _ => ?_
  refine ((renderRegions_yields hchain htied).and_gives fun _ _ h => h).bind ?_
  rintro content ⟨-, hcontent⟩
  refine Yields.ite (fun hzero => Yields.pure ?_) fun hsome => Yields.pure ?_
  · have hall := hrefined.clean_iff.1 hzero
    obtain rfl := hrefined.settled hall
    exact ⟨regions, hgives, .inl ⟨hall, content, rfl, hcontent, tied, htied, hchain⟩⟩
  · have hnot := mt hrefined.clean_iff.2 hsome
    simp only [not_forall] at hnot
    obtain ⟨r, hr, hmode, hdiffer⟩ := hnot
    exact ⟨regions, hgives, .inr ⟨⟨r, hr, hmode, hdiffer⟩, rfl⟩⟩

theorem resolvedBy_swap (r : MergeRegion) :
    ResolvedBy options incoming current r.swap ↔ ResolvedBy options current incoming r := by
  rw [ResolvedBy, ResolvedBy, resolves_swap]

/-- Both orders of the sides have the same outcome. -/
theorem Outcome.swap {currentChanges incomingChanges :   List ChangeGroup}
    (hscript : Script (contents base) (contents current) 0 0 currentChanges)
    (hscript' : Script (contents base) (contents incoming) 0 0 incomingChanges)
    (h : Outcome base current incoming options currentChanges incomingChanges result)
    (h' : Outcome base incoming current options incomingChanges currentChanges other) :
    result.cleanContent = other.cleanContent := by
  obtain ⟨regions, hregions, h⟩ := h
  obtain ⟨regions', hregions', h'⟩ := h'
  have hcounts : ∀ change ∈ currentChanges ++ incomingChanges, 0 ≤ change.oldCount := by
    intro change hchange
    rcases List.mem_append.1 hchange with hchange | hchange
    · exact (hscript.in_suffix change hchange).2.1
    · exact (hscript'.in_suffix change hchange).2.1
  have hswap := buildMergeRegions_swap hcounts hregions
  obtain rfl : regions.map MergeRegion.swap = regions' := by
    exact Except.ok.inj (Option.some.inj (hswap.symm.trans hregions'))
  -- A conflict resolves in one order exactly when it does in the other.
  have hall : (∀ r ∈ regions.map MergeRegion.swap, r.mode = .conflict →
      ResolvedBy options incoming current r) ↔
      ∀ r ∈ regions, r.mode = .conflict → ResolvedBy options current incoming r := by
    simp only [List.forall_mem_map, resolvedBy_swap]
    exact forall₂_congr fun r _ => imp_congr_left (MergeMode.swap_eq_conflict _)
  rcases h with ⟨hresolved, content, hcontent, hrender, tied, htied, hchain⟩ | ⟨hsome, hnone⟩
  · rcases h' with ⟨-, content', hcontent', hrender', -⟩ | ⟨⟨r, hr, hmode, hdiffer⟩, -⟩
    · obtain ⟨segments, data, line, segments', data', line', hleft, hright, hequal⟩ :=
        fill_both hchain htied (Int.le_refl _) (Int.le_refl _) (Int.le_refl _)
      have hsettled : (regions.map MergeRegion.swap).map MergeRegion.settled =
          (regions.map MergeRegion.settled).map MergeRegion.swap := by
        simp only [List.map_map, Function.comp_def, settled_swap]
      rw [hsettled] at hrender'
      rw [List.map_reverse] at hright
      have hfirst := hleft.render.answer (Settles.of_const fun _ => hrender)
      have hsecond := hright.render.answer (Settles.of_const fun _ => hrender')
      rw [hcontent, hcontent', hfirst, hsecond, hequal]
      intro r hr
      obtain ⟨r', -, rfl⟩ := mem_map.1 (List.mem_reverse.1 hr)
      exact settled_mode r'
    · exact absurd (hall.2 hresolved r hr hmode) hdiffer
  · rcases h' with ⟨hresolved', -⟩ | ⟨-, hnone'⟩
    · obtain ⟨r, hr, hmode, hdiffer⟩ := hsome
      exact absurd (hall.1 hresolved' r hr hmode) hdiffer
    · rw [hnone, hnone']

/-- The outcome of `mergeText`, with the shortcuts it takes before it compares lines. -/
def TextOutcome (base current incoming : List UInt8) (resolved : ResolvedOptions)
    (currentChanges incomingChanges : List ChangeGroup) (result : TextMergeResult) : Prop :=
  if (isBinary base || isBinary current || isBinary incoming) = true then
    result.cleanContent = none
  else if current = incoming then result.cleanContent = some current
  else if base = current then result.cleanContent = some incoming
  else if base = incoming then result.cleanContent = some current
  else Outcome (splitByteRecords base) (splitByteRecords current) (splitByteRecords incoming)
    resolved currentChanges incomingChanges result

/-- The edit script from `base` to one side, whatever limit it is computed under. -/
structure EditsOf (base current : List UInt8) (resolved : ResolvedOptions)
    (changes : List ChangeGroup) : Prop where
  script : Script (linesOf base) (linesOf current) 0 0 changes
  yields : ∀ maxChanges, Yields (fun fuel => ExceptT.mk (diffByteRecords fuel
    (splitByteRecords base) (splitByteRecords current)
    { indentHeuristic := some resolved.indentHeuristic, maxChanges }))
      fun answer => answer = changes

theorem editsOf_exists (base current : List UInt8) (resolved : ResolvedOptions)
    (hbound : ((splitByteRecords base).length : Int) + (splitByteRecords current).length < lineMax) :
    ∃ changes, EditsOf base current resolved changes := by
  obtain ⟨changes, hscript, -, hyields⟩ := diffByteRecords_groups (splitByteRecords base)
    (splitByteRecords current) (some resolved.indentHeuristic) hbound
  exact ⟨changes, hscript, hyields⟩

theorem mergeText_outcome {base current incoming : List UInt8} {options : TextMergeOptions}
    (hresolved : resolveOptions options = .ok resolved)
    (hcurrent : EditsOf base current resolved currentChanges)
    (hincoming : EditsOf base incoming resolved incomingChanges) :
    Yields (fun fuel => mergeText fuel base current incoming options)
      (TextOutcome base current incoming resolved currentChanges incomingChanges) := by
  refine (Yields.ofExcept fun _ h => h).bind fun resolved' hresolved' => ?_
  obtain rfl := Except.ok.inj (hresolved.symm.trans hresolved')
  refine (Yields.ofExcept fun _ h => h).bind fun memory hmemory => ?_
  have hmax := resolveOptions_maxLines hresolved
  have hlines := estimate_lines hmemory
  unfold TextOutcome
  refine Yields.ite (fun hbinary => Yields.pure ?_) fun hbinary => ?_
  · rw [if_pos hbinary]
    rfl
  simp only [if_neg hbinary, bytesEqual_iff]
  refine Yields.ite (fun heq => Yields.pure ?_) fun hsides => ?_
  · rw [if_pos heq]
    rfl
  simp only [if_neg hsides]
  refine Yields.ite (fun heq => Yields.pure ?_) fun hkept => ?_
  · rw [if_pos heq]
    rfl
  simp only [if_neg hkept]
  refine Yields.ite (fun heq => Yields.pure ?_) fun hkept' => ?_
  · rw [if_pos heq]
    rfl
  simp only [if_neg hkept']
  exact mergeRecords_outcome memory (by simp only [lineMax]; omega) hcurrent.script
    hincoming.script hcurrent.yields hincoming.yields

theorem TextOutcome.swap {base current incoming : List UInt8}
    (hcurrent : EditsOf base current resolved currentChanges)
    (hincoming : EditsOf base incoming resolved incomingChanges)
    (h : TextOutcome base current incoming resolved currentChanges incomingChanges result)
    (h' : TextOutcome base incoming current resolved incomingChanges currentChanges other) :
    result.cleanContent = other.cleanContent := by
  unfold TextOutcome at h h'
  rw [Bool.or_right_comm] at h'
  split at h
  · next hbinary =>
    rw [if_pos hbinary] at h'
    rw [h, h']
  next hbinary =>
  rw [if_neg hbinary] at h'
  split at h
  · next heq =>
    rw [if_pos heq.symm] at h'
    rw [h, h', heq]
  next hsides =>
  rw [if_neg (Ne.symm hsides)] at h'
  split at h
  · next heq =>
    -- Base is current, so it is not incoming.
    rw [if_neg (fun hother => hsides (heq.symm.trans hother)), if_pos heq] at h'
    rw [h, h']
  next hkept =>
  split at h
  · next heq =>
    rw [if_pos heq] at h'
    rw [h, h']
  · next hkept' =>
    rw [if_neg hkept', if_neg hkept] at h'
    exact Outcome.swap hcurrent.script hincoming.script h h'

/-- Exchanging the sides of a merge keeps whether it is clean, and the content of a clean one. -/
theorem mergeText_swap {base current incoming : List UInt8} {options : TextMergeOptions}
    {result other : TextMergeResult}
    (h : Settles (fun fuel => (mergeText fuel base current incoming options).run) (.ok result))
    (h' : Settles (fun fuel => (mergeText fuel base incoming current options).run) (.ok other)) :
    ((∃ content memory, result = .clean content memory) ↔
        ∃ content memory, other = .clean content memory) ∧
      ∀ content memory content' memory', result = .clean content memory →
        other = .clean content' memory' → content = content' := by
  have hequal : result.cleanContent = other.cleanContent := by
    obtain ⟨fuel, hfuel⟩ := h
    have hgives : Gives (mergeText fuel base current incoming options) result :=
      hfuel fuel (Nat.le_refl _)
    obtain ⟨resolved, hresolved, hgives⟩ := gives_bind.1 hgives
    obtain ⟨memory, hmemory, -⟩ := gives_bind.1 hgives
    rw [Run.gives_ofExcept] at hresolved hmemory
    have hmax := resolveOptions_maxLines hresolved
    have hlines := estimate_lines hmemory
    obtain ⟨currentChanges, hcurrent⟩ := editsOf_exists base current resolved
      (by simp only [lineMax]; omega)
    obtain ⟨incomingChanges, hincoming⟩ := editsOf_exists base incoming resolved
      (by simp only [lineMax]; omega)
    exact TextOutcome.swap hcurrent hincoming
      ((mergeText_outcome hresolved hcurrent hincoming).answer ⟨fuel, hfuel⟩)
      ((mergeText_outcome hresolved hincoming hcurrent).answer h')
  constructor
  · cases result <;> cases other <;> simp_all [TextMergeResult.cleanContent]
  · rintro content memory content' memory' rfl rfl
    exact Option.some.inj hequal

/-- One side changes the first of three lines, the other the last one. -/
theorem threeLines_swap :
    ∃ result other,
      Settles (fun fuel => (mergeText fuel [97, 10, 98, 10, 99, 10] [120, 10, 98, 10, 99, 10]
        [97, 10, 98, 10, 121, 10] {}).run) (.ok result) ∧
      Settles (fun fuel => (mergeText fuel [97, 10, 98, 10, 99, 10] [97, 10, 98, 10, 121, 10]
        [120, 10, 98, 10, 99, 10] {}).run) (.ok other) ∧
      ((∃ content memory, result = .clean content memory) ↔
        ∃ content memory, other = .clean content memory) ∧
      ∀ content memory content' memory', result = .clean content memory →
        other = .clean content' memory' → content = content' := by
  have hmerged : ∀ fuel ≥ 12, (mergeText fuel [97, 10, 98, 10, 99, 10] [120, 10, 98, 10, 99, 10]
      [97, 10, 98, 10, 121, 10] {}).run = some (.ok (.clean [120, 10, 98, 10, 121, 10]
        ⟨18, 9, 864, 1920, 2688, 3584, 474, 4096, 13644⟩)) := by
    intro fuel hfuel
    obtain ⟨rest, rfl⟩ := Nat.exists_eq_add_of_le' hfuel
    rfl
  have hswapped : ∀ fuel ≥ 12, (mergeText fuel [97, 10, 98, 10, 99, 10] [97, 10, 98, 10, 121, 10]
      [120, 10, 98, 10, 99, 10] {}).run = some (.ok (.clean [120, 10, 98, 10, 121, 10]
        ⟨18, 9, 864, 1920, 2688, 3584, 474, 4096, 13644⟩)) := by
    intro fuel hfuel
    obtain ⟨rest, rfl⟩ := Nat.exists_eq_add_of_le' hfuel
    rfl
  exact ⟨_, _, ⟨12, hmerged⟩, ⟨12, hswapped⟩, mergeText_swap ⟨12, hmerged⟩ ⟨12, hswapped⟩⟩

end Kompjutr.Diff
