/-
  Kompjutr.Merge.BaseSound

  `bestCommonAncestors` answers the maximal common ancestors of an acyclic graph.

  The pass takes a commit once all its children are taken.  By then it is known whether a
  common ancestor lies above it, so every mark that it hands to its parents is final.
-/
import Kompjutr.Lib.Acyclic
import Kompjutr.Merge.Base
import Mathlib.Algebra.Order.BigOperators.Group.List

namespace Kompjutr.Merge

open Objects (Text text Commit)
open List (foldlM_cons map_cons mem_append mem_cons mem_cons_self mem_filter mem_map mem_singleton
  nodup_cons not_mem_nil)

variable {parents common : List Text} {propagates : Bool}

variable {oid parent : Text} {count : Text → Int} {shallow done : List Text} {counts : ChildCounts}
  {state : Pass}

variable {nodes : GraphNodes}

def oidsOf (nodes : GraphNodes) : List Text := nodes.map Prod.fst

/-- The parents of a node, none where there is no node. -/
def parentsAt (nodes : GraphNodes) (oid : Text) : List Text :=
  match nodeAt nodes oid with
  | none => []
  | some node => node.commit.parent

/-- An edge of the graph, from a commit to a parent. -/
def Edge (nodes : GraphNodes) (oid parent : Text) : Prop :=
  parent ∈ parentsAt nodes oid ∧ parent ∈ oidsOf nodes

def Acyclic (nodes : GraphNodes) : Prop := ∀ oid, ¬ Relation.TransGen (Edge nodes) oid oid

/-- A common ancestor lies above the commit. -/
def Below (nodes : GraphNodes) (oid : Text) : Prop :=
  ∃ above ∈ commonOids nodes, Relation.TransGen (Edge nodes) above oid

theorem nodeAt_isSome : (nodeAt nodes oid).isSome = true ↔ oid ∈ oidsOf nodes := by
  unfold nodeAt oidsOf
  induction nodes with
  | nil => simp
  | cons node nodes ih =>
    obtain ⟨key, value⟩ := node
    rw [List.lookup_cons, map_cons, mem_cons]
    by_cases heq : oid = key
    · simp [heq]
    · have hne : (oid == key) = false := by simpa using heq
      rw [hne]
      dsimp only
      rw [ih]
      exact ⟨.inr, fun h => h.resolve_left heq⟩

theorem nodeAt_eq_none : nodeAt nodes oid = none ↔ oid ∉ oidsOf nodes := by
  rw [← nodeAt_isSome, Option.not_isSome_iff_eq_none]

theorem mem_of_parent (h : parent ∈ parentsAt nodes oid) : oid ∈ oidsOf nodes := by
  rw [← nodeAt_isSome]
  unfold parentsAt at h
  split at h
  · nomatch h
  · next node hnode => rw [hnode]; rfl

theorem nodeAt_of_mem (hnodup : (oidsOf nodes).Nodup) {node : Text × GraphNode} (h : node ∈ nodes) :
    nodeAt nodes node.1 = some node.2 := by
  unfold nodeAt oidsOf at *
  induction nodes with
  | nil => nomatch h
  | cons first nodes ih =>
    rw [map_cons, nodup_cons] at hnodup
    obtain ⟨key, value⟩ := first
    rcases mem_cons.1 h with rfl | h
    · simp
    · have hne : (node.1 == key) = false := by
        rw [beq_eq_false_iff_ne]
        intro heq
        exact hnodup.1 (mem_map.2 ⟨node, h, heq⟩)
      rw [List.lookup_cons, hne]
      exact ih hnodup.2 h

-- Counts

/-- Counts of the nodes. -/
def counted (nodes : GraphNodes) (count : Text → Int) : ChildCounts :=
  fun oid => if oid ∈ oidsOf nodes then some (count oid) else none

theorem counted_congr {count' : Text → Int} (h : ∀ oid ∈ oidsOf nodes, count oid = count' oid) :
    counted nodes count = counted nodes count' := by
  funext oid
  unfold counted
  split
  · next hmem => rw [h oid hmem]
  · rfl

theorem countParent_counted
    (h : countParent nodes shallow oid (counted nodes count) parent = .ok counts) :
    counts = counted nodes fun other => count other + [parent].count other := by
  unfold countParent at h
  split at h
  · next hnone =>
    have hout : parent ∉ oidsOf nodes := nodeAt_eq_none.1 (Option.isNone_iff_eq_none.1 hnone)
    split at h
    · cases h
    · rw [← Except.ok.inj h]
      refine counted_congr fun other hother => ?_
      have hne : parent ≠ other := fun heq => hout (heq ▸ hother)
      simp [hne]
  · next hsome =>
    have hin : parent ∈ oidsOf nodes := by
      rw [← nodeAt_isSome, Option.isSome_iff_ne_none]
      exact fun hnone => hsome (by rw [hnone]; rfl)
    rw [← Except.ok.inj h]
    funext other
    unfold counted
    by_cases heq : other = parent
    · rw [if_pos heq, heq, if_pos hin, if_pos hin]
      simp
    · rw [if_neg heq]
      have hne : parent ≠ other := Ne.symm heq
      simp [hne]

theorem foldlM_countParent
    (h : parents.foldlM (countParent nodes shallow oid) (counted nodes count) = .ok counts) :
    counts = counted nodes fun other => count other + parents.count other := by
  induction parents generalizing count with
  | nil =>
    rw [← Except.ok.inj h]
    exact counted_congr fun other _ => by simp
  | cons parent parents ih =>
    rw [foldlM_cons] at h
    obtain ⟨next, hnext, hrest⟩ := Fuel.bind_eq_ok.1 h
    rw [countParent_counted hnext] at hrest
    rw [ih hrest]
    refine counted_congr fun other _ => ?_
    have hcount : (parent :: parents).count other = [parent].count other + parents.count other := by
      rw [← List.count_append]
      rfl
    rw [hcount]
    push_cast
    omega

theorem countChildren_ok (h : countChildren nodes shallow = .ok counts) :
    counts = counted nodes fun oid =>
      ((nodes.map fun node => node.2.commit.parent.count oid).sum : Nat) := by
  have hstart : (fun oid => if (nodeAt nodes oid).isSome then some (0 : Int) else none) =
      counted nodes fun _ => 0 := by
    funext oid
    unfold counted
    simp only [nodeAt_isSome]
  have hfold : ∀ (list : GraphNodes) (count : Text → Int) (counts : ChildCounts),
      list.foldlM (fun counts node =>
        node.2.commit.parent.foldlM (countParent nodes shallow node.1) counts)
          (counted nodes count) = .ok counts →
        counts = counted nodes fun oid =>
          count oid + ((list.map fun node => node.2.commit.parent.count oid).sum : Nat) := by
    intro list
    induction list with
    | nil =>
      intro count counts h
      rw [← Except.ok.inj h]
      exact counted_congr fun other _ => by simp
    | cons node list ih =>
      intro count counts h
      rw [foldlM_cons] at h
      obtain ⟨next, hnext, hrest⟩ := Fuel.bind_eq_ok.1 h
      rw [foldlM_countParent hnext] at hrest
      rw [ih _ _ hrest]
      refine counted_congr fun other _ => ?_
      rw [map_cons, List.sum_cons]
      push_cast
      omega
  unfold countChildren at h
  rw [hstart] at h
  rw [hfold nodes _ _ h]
  exact counted_congr fun other _ => by omega

/-- Every parent is a node, or cut off at a shallow commit. -/
def Connected (nodes : GraphNodes) (shallow : List Text) : Prop :=
  ∀ node ∈ nodes, ∀ parent ∈ node.2.commit.parent, parent ∈ oidsOf nodes ∨ node.1 ∈ shallow

theorem countChildren_exists (h : Connected nodes shallow) :
    ∃ counts, countChildren nodes shallow = .ok counts := by
  have hparents : ∀ (node : Text × GraphNode) (parents : List Text) (counts : ChildCounts),
      (∀ parent ∈ parents, parent ∈ oidsOf nodes ∨ node.1 ∈ shallow) →
        ∃ next, parents.foldlM (countParent nodes shallow node.1) counts = .ok next := by
    intro node parents
    induction parents with
    | nil => exact fun counts _ => ⟨counts, rfl⟩
    | cons parent parents ih =>
      intro counts hall
      have hone : ∃ next, countParent nodes shallow node.1 counts parent = .ok next := by
        unfold countParent
        split
        · next hnone =>
          have hout := nodeAt_eq_none.1 (Option.isNone_iff_eq_none.1 hnone)
          have hshallow := (hall parent mem_cons_self).resolve_left hout
          rw [if_neg (not_not.2 hshallow)]
          exact ⟨_, rfl⟩
        · exact ⟨_, rfl⟩
      obtain ⟨next, hnext⟩ := hone
      obtain ⟨last, hlast⟩ := ih next fun other hother => hall other (List.mem_cons_of_mem _ hother)
      exact ⟨last, by rw [foldlM_cons, hnext, Fuel.ok_bind, hlast]⟩
  have hall : ∀ (list : GraphNodes) (counts : ChildCounts), (∀ node ∈ list, node ∈ nodes) →
      ∃ next, list.foldlM (fun counts node =>
        node.2.commit.parent.foldlM (countParent nodes shallow node.1) counts) counts = .ok next := by
    intro list
    induction list with
    | nil => exact fun counts _ => ⟨counts, rfl⟩
    | cons node list ih =>
      intro counts hlist
      obtain ⟨next, hnext⟩ := hparents node node.2.commit.parent counts
        (h node (hlist node mem_cons_self))
      obtain ⟨last, hlast⟩ := ih next fun other hother => hlist other (List.mem_cons_of_mem _ hother)
      exact ⟨last, by rw [foldlM_cons, hnext, Fuel.ok_bind, hlast]⟩
  exact hall nodes _ fun _ hnode => hnode

-- One turn

/-- What passing some parents makes of a state whose counts are `count`. -/
structure Passed (nodes : GraphNodes) (common : List Text) (propagates : Bool) (state : Pass)
    (count : Text → Int) (parents : List Text) (last : Pass) : Prop where
  counts : last.counts = counted nodes fun oid => count oid - parents.count oid
  nodup : last.ready.Nodup
  mem_ready : ∀ oid, oid ∈ last.ready ↔ oid ∈ state.ready ∨
    (oid ∈ oidsOf nodes ∧ oid ∈ parents ∧ count oid = parents.count oid)
  mem_has : ∀ oid, oid ∈ last.hasCommonDescendant ↔ oid ∈ state.hasCommonDescendant ∨
    (propagates = true ∧ oid ∈ oidsOf nodes ∧ oid ∈ parents)
  mem_dominated : ∀ oid, oid ∈ last.dominated ↔ oid ∈ state.dominated ∨
    (propagates = true ∧ oid ∈ oidsOf nodes ∧ oid ∈ parents ∧ oid ∈ common)
  processed : last.processed = state.processed

theorem count_singleton_cases (parent oid : Text) :
    (oid = parent ∧ ([parent].count oid : Int) = 1) ∨
      (oid ≠ parent ∧ ([parent].count oid : Int) = 0) := by
  by_cases heq : oid = parent
  · subst heq
    exact .inl ⟨rfl, by simp⟩
  · have hne : parent ≠ oid := Ne.symm heq
    exact .inr ⟨heq, by simp [hne]⟩

/-- One parent. -/
theorem passed_parent (hcounts : state.counts = counted nodes count)
    (hcount : 1 ≤ count parent) (hready : ∀ oid ∈ state.ready, count oid = 0)
    (hnodup : state.ready.Nodup) :
    Passed nodes common propagates state count [parent]
      (passParent common propagates state parent) := by
  by_cases hin : parent ∈ oidsOf nodes
  · have hat : state.counts parent = some (count parent) := by rw [hcounts, counted, if_pos hin]
    have hfresh : parent ∉ state.ready := by
      intro hmem
      have := hready parent hmem
      omega
    unfold passParent
    rw [hat]
    refine { counts := ?_, nodup := ?_, mem_ready := ?_, mem_has := ?_, mem_dominated := ?_
             processed := rfl }
    · funext oid
      rw [hcounts]
      unfold counted
      dsimp only
      rcases count_singleton_cases parent oid with ⟨rfl, hone⟩ | ⟨hne, hzero⟩
      · rw [if_pos rfl, if_pos hin, hone]
      · rw [if_neg hne, hzero, Int.sub_zero]
    · dsimp only
      split
      · exact nodup_cons.2 ⟨hfresh, hnodup⟩
      · exact hnodup
    · intro oid
      dsimp only
      rcases count_singleton_cases parent oid with ⟨rfl, hone⟩ | ⟨hne, hzero⟩
      · rw [hone]
        split
        · next hlast => simp only [mem_cons, true_or, hin, true_and, true_iff]; omega
        · next hmore =>
          simp only [hfresh, false_or, hin, mem_singleton, true_and, false_iff]
          omega
      · split <;> simp [hne]
    · intro oid
      dsimp only
      cases propagates with
      | false => simp
      | true =>
        simp only [if_true, mem_cons, true_and, not_mem_nil, or_false]
        constructor
        · rintro (rfl | hold)
          · exact .inr ⟨hin, rfl⟩
          · exact .inl hold
        · rintro (hold | ⟨-, rfl⟩)
          · exact .inr hold
          · exact .inl rfl
    · intro oid
      dsimp only
      cases propagates with
      | false => simp
      | true =>
        by_cases hcommon : parent ∈ common
        · simp only [hcommon, decide_true, Bool.and_self, if_true, mem_cons, true_and,
            not_mem_nil, or_false]
          constructor
          · rintro (rfl | hold)
            · exact .inr ⟨hin, rfl, hcommon⟩
            · exact .inl hold
          · rintro (hold | ⟨-, rfl, -⟩)
            · exact .inr hold
            · exact .inl rfl
        · simp only [hcommon, decide_false, Bool.and_false, Bool.false_eq_true, if_false, true_and,
            mem_singleton]
          constructor
          · exact .inl
          · rintro (hold | ⟨-, rfl, hno⟩)
            · exact hold
            · exact absurd hno hcommon
  · have hat : state.counts parent = none := by rw [hcounts, counted, if_neg hin]
    have hout : ∀ oid, ¬ (oid ∈ oidsOf nodes ∧ oid ∈ [parent]) := by
      rintro oid ⟨hoid, hparent⟩
      rw [mem_singleton.1 hparent] at hoid
      exact hin hoid
    unfold passParent
    rw [hat]
    refine { counts := ?_, nodup := hnodup, mem_ready := ?_, mem_has := ?_, mem_dominated := ?_
             processed := rfl }
    · rw [hcounts]
      refine counted_congr fun oid hoid => ?_
      rcases count_singleton_cases parent oid with ⟨rfl, -⟩ | ⟨-, hzero⟩
      · exact absurd hoid hin
      · rw [hzero, Int.sub_zero]
    · intro oid
      exact ⟨.inl, fun h => h.resolve_right fun h => hout oid ⟨h.1, h.2.1⟩⟩
    · intro oid
      exact ⟨.inl, fun h => h.resolve_right fun h => hout oid h.2⟩
    · intro oid
      exact ⟨.inl, fun h => h.resolve_right fun h => hout oid ⟨h.2.1, h.2.2.1⟩⟩

theorem Passed.trans {middle last : Pass}
    (hcount : ∀ oid, ((parent :: parents).count oid : Int) ≤ count oid)
    (hfirst : Passed nodes common propagates state count [parent] middle)
    (hrest : Passed nodes common propagates middle
      (fun oid => count oid - [parent].count oid) parents last) :
    Passed nodes common propagates state count (parent :: parents) last := by
  have hsplit : ∀ oid, ((parent :: parents).count oid : Int) =
      [parent].count oid + parents.count oid := by
    intro oid
    rw [← Int.natCast_add, ← List.count_append]
    rfl
  refine { counts := ?_, nodup := hrest.nodup, mem_ready := ?_, mem_has := ?_, mem_dominated := ?_
           processed := hrest.processed.trans hfirst.processed }
  · rw [hrest.counts]
    refine counted_congr fun oid _ => ?_
    rw [hsplit]
    omega
  · intro oid
    rw [hrest.mem_ready, hfirst.mem_ready, hsplit, mem_singleton, mem_cons]
    have hbound := hcount oid
    rw [hsplit] at hbound
    have hmem : oid ∈ parents ↔ 0 < parents.count oid := List.count_pos_iff.symm
    rcases count_singleton_cases parent oid with ⟨rfl, hone⟩ | ⟨hne, hzero⟩
    · rw [hone] at hbound ⊢
      simp only [true_or, true_and]
      rw [hmem]
      constructor
      · rintro ((hold | ⟨hin, hlast⟩) | ⟨hin, hmore, hlast⟩)
        · exact .inl hold
        · exact .inr ⟨hin, by omega⟩
        · exact .inr ⟨hin, by omega⟩
      · rintro (hold | ⟨hin, hlast⟩)
        · exact .inl (.inl hold)
        · by_cases hmore : 0 < parents.count oid
          · exact .inr ⟨hin, hmore, by omega⟩
          · exact .inl (.inr ⟨hin, by omega⟩)
    · rw [hzero]
      simp only [hne, false_and, and_false, or_false, false_or, Int.sub_zero, Int.zero_add]
  · intro oid
    rw [hrest.mem_has, hfirst.mem_has, mem_singleton, mem_cons]
    tauto
  · intro oid
    rw [hrest.mem_dominated, hfirst.mem_dominated, mem_singleton, mem_cons]
    tauto

/-- The parents of a commit are passed, by induction on them; no count falls below zero. -/
theorem passed_parents {common : List Text} {propagates : Bool} {parents : List Text}
    {state : Pass} {count : Text → Int} (hcounts : state.counts = counted nodes count)
    (hcount : ∀ oid, (parents.count oid : Int) ≤ count oid)
    (hready : ∀ oid ∈ state.ready, count oid = 0) (hnodup : state.ready.Nodup) :
    Passed nodes common propagates state count parents
      (parents.foldl (passParent common propagates) state) := by
  induction parents generalizing state count with
  | nil =>
    refine { counts := ?_, nodup := hnodup, mem_ready := ?_, mem_has := ?_, mem_dominated := ?_
             processed := rfl }
    · rw [List.foldl_nil, hcounts]
      exact counted_congr fun oid _ => by simp
    all_goals intro oid; simp
  | cons parent parents ih =>
    have hsplit : ∀ oid, ((parent :: parents).count oid : Int) =
        [parent].count oid + parents.count oid := by
      intro oid
      rw [← Int.natCast_add, ← List.count_append]
      rfl
    have hone : 1 ≤ count parent := by
      have := hcount parent
      rw [hsplit] at this
      simp at this
      omega
    have hfirst : Passed nodes common propagates state count [parent]
      (passParent common propagates state parent) := passed_parent hcounts hone hready hnodup
    refine Passed.trans hcount hfirst (ih hfirst.counts (fun oid => ?_) (fun oid hoid => ?_)
      hfirst.nodup)
    · have := hcount oid
      rw [hsplit] at this
      omega
    · rcases (hfirst.mem_ready oid).1 hoid with hold | ⟨-, -, hlast⟩
      · have := hcount oid
        rw [hsplit, hready oid hold] at this
        rw [hready oid hold]
        omega
      · omega

-- The pass

/-- The edges to a commit from children that are not done. -/
def pending (nodes : GraphNodes) (done : List Text) (oid : Text) : Nat :=
  (((oidsOf nodes).filter fun child => child ∉ done).map fun child =>
    (parentsAt nodes child).count oid).sum

theorem pending_nil (hnodup : (oidsOf nodes).Nodup) (oid : Text) :
    pending nodes [] oid = (nodes.map fun node => node.2.commit.parent.count oid).sum := by
  have hall : ((oidsOf nodes).filter fun child => child ∉ ([] : List Text)) = oidsOf nodes := by
    rw [List.filter_eq_self]
    simp
  unfold pending
  rw [hall, oidsOf, List.map_map]
  refine congrArg List.sum (List.map_congr_left fun node hnode => ?_)
  simp only [Function.comp, parentsAt, nodeAt_of_mem hnodup hnode]

/-- A commit is done: its edges no longer count. -/
theorem pending_append (hnodup : (oidsOf nodes).Nodup)
    (hoid : oid ∈ oidsOf nodes) (hnew : oid ∉ done) (other : Text) :
    pending nodes done other =
      (parentsAt nodes oid).count other + pending nodes (done ++ [oid]) other := by
  have hperm : ((oidsOf nodes).filter fun child => child ∉ done).Perm
      (oid :: (oidsOf nodes).filter fun child => child ∉ done ++ [oid]) := by
    refine (List.perm_ext_iff_of_nodup (hnodup.filter _) (nodup_cons.2 ⟨?_, hnodup.filter _⟩)).2
      fun child => ?_
    · simp
    · simp only [mem_filter, decide_eq_true_eq, mem_cons, mem_append,
        not_mem_nil, or_false, not_or]
      constructor
      · rintro ⟨hchild, hnot⟩
        by_cases heq : child = oid
        · exact .inl heq
        · exact .inr ⟨hchild, hnot, heq⟩
      · rintro (rfl | ⟨hchild, hnot, -⟩)
        · exact ⟨hoid, hnew⟩
        · exact ⟨hchild, hnot⟩
  unfold pending
  rw [(hperm.map _).sum_eq, map_cons, List.sum_cons]

/-- A child that is not done counts. -/
theorem pending_pos {child : Text} (hchild : child ∈ oidsOf nodes)
    (hnot : child ∉ done) (hparent : oid ∈ parentsAt nodes child) : 0 < pending nodes done oid := by
  have hle : (parentsAt nodes child).count oid ≤ pending nodes done oid := by
    unfold pending
    have hmem : child ∈ (oidsOf nodes).filter fun child => child ∉ done :=
      mem_filter.2 ⟨hchild, decide_eq_true hnot⟩
    exact List.single_le_sum (fun _ _ => Nat.zero_le _) _ (mem_map.2 ⟨child, hmem, rfl⟩)
  exact Nat.lt_of_lt_of_le (List.count_pos_iff.2 hparent) hle

theorem exists_child (h : pending nodes done oid ≠ 0) :
    ∃ child ∈ oidsOf nodes, child ∉ done ∧ oid ∈ parentsAt nodes child := by
  by_contra hnone
  refine h (List.sum_eq_zero fun count hcount => ?_)
  obtain ⟨child, hchild, rfl⟩ := mem_map.1 hcount
  obtain ⟨hin, hnot⟩ := mem_filter.1 hchild
  exact List.count_eq_zero.2 fun hparent =>
    hnone ⟨child, hin, of_decide_eq_true hnot, hparent⟩

/-- The pass between two turns: `done` is what it took. -/
structure Passing (nodes : GraphNodes) (done : List Text) (state : Pass) : Prop where
  nodup : done.Nodup
  done_mem : ∀ oid ∈ done, oid ∈ oidsOf nodes
  counts : state.counts = counted nodes fun oid => (pending nodes done oid : Int)
  ready_nodup : state.ready.Nodup
  mem_ready : ∀ oid, oid ∈ state.ready ↔
    oid ∈ oidsOf nodes ∧ oid ∉ done ∧ pending nodes done oid = 0
  upward : ∀ oid ∈ done, ∀ child, Edge nodes child oid → child ∈ done
  mem_has : ∀ oid, oid ∈ state.hasCommonDescendant ↔ oid ∈ oidsOf nodes ∧
    ∃ child ∈ done, oid ∈ parentsAt nodes child ∧ (child ∈ commonOids nodes ∨ Below nodes child)
  mem_dominated : ∀ oid, oid ∈ state.dominated ↔
    oid ∈ state.hasCommonDescendant ∧ oid ∈ commonOids nodes
  processed : state.processed = done.length

/-- A commit whose children are done is marked when a common ancestor lies above it. -/
theorem Passing.marked (h : Passing nodes done state)
    (hoid : oid ∈ oidsOf nodes) (hchildren : ∀ child, Edge nodes child oid → child ∈ done) :
    oid ∈ state.hasCommonDescendant ↔ Below nodes oid := by
  rw [h.mem_has]
  constructor
  · rintro ⟨-, child, hchild, hparent, hcommon | ⟨above, habove, hpath⟩⟩
    · exact ⟨child, hcommon, .single ⟨hparent, hoid⟩⟩
    · exact ⟨above, habove, hpath.tail ⟨hparent, hoid⟩⟩
  · rintro ⟨above, habove, hpath⟩
    obtain ⟨child, hbefore, hedge⟩ := Relation.TransGen.tail'_iff.1 hpath
    refine ⟨hoid, child, hchildren child hedge, hedge.1, ?_⟩
    rcases Relation.reflTransGen_iff_eq_or_transGen.1 hbefore with rfl | hbefore
    · exact .inl habove
    · exact .inr ⟨above, habove, hbefore⟩

theorem Passing.start (hnodup : (oidsOf nodes).Nodup) (hcounts : counts = counted nodes fun oid =>
      ((nodes.map fun node => node.2.commit.parent.count oid).sum : Nat)) :
    Passing nodes []
      { counts, ready := ((nodes.map Prod.fst).filter fun oid => counts oid = some 0).reverse
        hasCommonDescendant := [], dominated := [], processed := 0 } := by
  have hpending : counts = counted nodes fun oid => (pending nodes [] oid : Int) := by
    rw [hcounts]
    exact counted_congr fun oid _ => by rw [pending_nil hnodup]
  refine { nodup := List.nodup_nil, done_mem := ?_, counts := hpending, ready_nodup := ?_
           mem_ready := ?_, upward := ?_, mem_has := ?_, mem_dominated := ?_, processed := rfl }
  · exact fun oid hoid => nomatch hoid
  · exact List.nodup_reverse.2 (hnodup.filter _)
  · intro oid
    have hsame : oid ∈ nodes.map Prod.fst ↔ oid ∈ oidsOf nodes := Iff.rfl
    rw [List.mem_reverse, mem_filter, decide_eq_true_eq, hpending, hsame]
    constructor
    · rintro ⟨hoid, hzero⟩
      rw [counted, if_pos hoid] at hzero
      exact ⟨hoid, not_mem_nil, by exact_mod_cast Option.some.inj hzero⟩
    · rintro ⟨hoid, -, hzero⟩
      refine ⟨hoid, ?_⟩
      rw [counted, if_pos hoid, hzero]
      rfl
  · exact fun oid hoid => nomatch hoid
  · intro oid
    simp
  · intro oid
    simp

/-- The commit on top is taken. -/
theorem Passing.next (hnodup : (oidsOf nodes).Nodup) {done ready : List Text} {state : Pass}
    {oid : Text} (h : Passing nodes done state) (htop : state.ready = oid :: ready) :
    Passing nodes (done ++ [oid]) ((parentsAt nodes oid).foldl
      (passParent (commonOids nodes)
        (oid ∈ commonOids nodes || oid ∈ state.hasCommonDescendant))
      { state with ready, processed := state.processed + 1 }) := by
  have hmem : oid ∈ state.ready := by rw [htop]; exact mem_cons_self
  obtain ⟨hoid, hnew, hzero⟩ := (h.mem_ready oid).1 hmem
  have hready := h.ready_nodup
  rw [htop, nodup_cons] at hready
  have hrest : ∀ other ∈ ready, other ∈ state.ready :=
    fun other hother => by rw [htop]; exact List.mem_cons_of_mem _ hother
  have hchildren : ∀ child, Edge nodes child oid → child ∈ done := by
    intro child hedge
    by_contra hnot
    have := pending_pos (mem_of_parent hedge.1) hnot hedge.1
    omega
  have hmarked := h.marked hoid hchildren
  have hpending := pending_append hnodup hoid hnew
  have hpassed := @passed_parents nodes (commonOids nodes)
    (oid ∈ commonOids nodes || oid ∈ state.hasCommonDescendant) (parentsAt nodes oid)
    { state with ready, processed := state.processed + 1 }
    (fun other => (pending nodes done other : Int)) h.counts
    (fun other => by rw [hpending other]; omega)
    (fun other hother => by
      exact_mod_cast ((h.mem_ready other).1 (hrest other hother)).2.2) hready.2
  have hpropagates : (oid ∈ commonOids nodes || oid ∈ state.hasCommonDescendant) = true ↔
      (oid ∈ commonOids nodes ∨ Below nodes oid) := by
    rw [Bool.or_eq_true, decide_eq_true_eq, decide_eq_true_eq, hmarked]
  refine { nodup := ?_, done_mem := ?_, counts := ?_, ready_nodup := hpassed.nodup, mem_ready := ?_
           upward := ?_, mem_has := ?_, mem_dominated := ?_, processed := ?_ }
  · rw [← List.concat_eq_append]
    exact h.nodup.concat hnew
  · exact List.forall_mem_append.2 ⟨h.done_mem, List.forall_mem_singleton.2 hoid⟩
  · rw [hpassed.counts]
    refine counted_congr fun other _ => ?_
    rw [hpending other]
    omega
  · intro other
    rw [hpassed.mem_ready, mem_append, mem_singleton, not_or]
    have hother := hpending other
    constructor
    · rintro (hold | ⟨hin, hparent, hlast⟩)
      · obtain ⟨hin, hnot, hnone⟩ := (h.mem_ready other).1 (hrest other hold)
        refine ⟨hin, ⟨hnot, fun heq => ?_⟩, by omega⟩
        rw [heq] at hold
        exact hready.1 hold
      · refine ⟨hin, ⟨fun hdone => hnew (h.upward other hdone oid ⟨hparent, hin⟩), fun heq => ?_⟩,
          by omega⟩
        -- its own parent would still have been pending
        rw [heq] at hparent
        have := pending_pos hoid hnew hparent
        omega
    · rintro ⟨hin, ⟨hnot, hne⟩, hnone⟩
      by_cases hparent : other ∈ parentsAt nodes oid
      · exact .inr ⟨hin, hparent, by omega⟩
      · have hcount := List.count_eq_zero.2 hparent
        have hbefore := (h.mem_ready other).2 ⟨hin, hnot, by omega⟩
        rw [htop] at hbefore
        exact .inl ((mem_cons.1 hbefore).resolve_left hne)
  · intro other hother child hedge
    rcases mem_append.1 hother with hother | hother
    · exact List.mem_append_left _ (h.upward other hother child hedge)
    · rw [mem_singleton.1 hother] at hedge
      exact List.mem_append_left _ (hchildren child hedge)
  · intro other
    rw [hpassed.mem_has, hpropagates, h.mem_has]
    constructor
    · rintro (⟨hin, child, hchild, hparent, hcause⟩ | ⟨hcause, hin, hparent⟩)
      · exact ⟨hin, child, List.mem_append_left _ hchild, hparent, hcause⟩
      · exact ⟨hin, oid, List.mem_append_right _ (List.mem_singleton_self _), hparent, hcause⟩
    · rintro ⟨hin, child, hchild, hparent, hcause⟩
      rcases mem_append.1 hchild with hchild | hchild
      · exact .inl ⟨hin, child, hchild, hparent, hcause⟩
      · rw [mem_singleton.1 hchild] at hparent hcause
        exact .inr ⟨hcause, hin, hparent⟩
  · intro other
    rw [hpassed.mem_dominated, hpassed.mem_has, h.mem_dominated]
    tauto
  · rw [hpassed.processed, h.processed, List.length_append, List.length_singleton]

/-- The pass ends with nothing ready, by induction on its turns. -/
theorem passLoop_ok (hnodup : (oidsOf nodes).Nodup) {turns : Nat}
    (h : Passing nodes done state) (hturns : nodes.length ≤ done.length + turns) :
    ∃ last finished, passLoop nodes (commonOids nodes) turns state = .ok last ∧
      Passing nodes finished last ∧ last.ready = [] := by
  induction turns generalizing done state with
  | zero =>
    refine ⟨state, done, rfl, h, ?_⟩
    have hall : (oidsOf nodes).Perm done := by
      refine ((List.subperm_of_subset h.nodup h.done_mem).perm_of_length_le ?_).symm
      rw [oidsOf, List.length_map]
      exact hturns
    refine List.eq_nil_iff_forall_not_mem.2 fun oid hoid => ?_
    obtain ⟨hin, hnot, -⟩ := (h.mem_ready oid).1 hoid
    exact hnot (hall.mem_iff.1 hin)
  | succ turns ih =>
    cases hready : state.ready with
    | nil =>
      refine ⟨state, done, ?_, h, hready⟩
      rw [passLoop, hready]
    | cons oid ready =>
      have hoid : oid ∈ oidsOf nodes :=
        ((h.mem_ready oid).1 (by rw [hready]; exact mem_cons_self)).1
      obtain ⟨node, hnode⟩ := Option.isSome_iff_exists.1 (nodeAt_isSome.2 hoid)
      have hparents : parentsAt nodes oid = node.commit.parent := by rw [parentsAt, hnode]
      have hnext := h.next hnodup hready
      rw [hparents] at hnext
      rw [passLoop, hready]
      dsimp only
      rw [hnode]
      exact ih hnext (by rw [List.length_append, List.length_singleton]; omega)

-- Maximal common ancestors

/-- In an acyclic graph what holds of a commit once it holds of all its descendants holds of
    every commit. -/
theorem Acyclic.induction (h : Acyclic nodes) {P : Text → Prop}
    (hstep : ∀ oid ∈ oidsOf nodes,
      (∀ above, Relation.TransGen (Edge nodes) above oid → P above) → P oid) :
    ∀ oid ∈ oidsOf nodes, P oid := by
  refine Kompjutr.Acyclic.induction h fun oid hoid ih => hstep oid hoid fun above hpath => ?_
  obtain ⟨child, hedge, -⟩ := Relation.TransGen.head'_iff.1 hpath
  exact ih above (mem_of_parent hedge.1) hpath

/-- Nothing is left over: a commit that is not done has a child that is not done. -/
theorem Passing.all_done (h : Passing nodes done state)
    (hready : state.ready = []) (hacyclic : Acyclic nodes) : ∀ oid ∈ oidsOf nodes, oid ∈ done := by
  refine hacyclic.induction fun oid hoid ih => ?_
  by_contra hnot
  have hpending : pending nodes done oid ≠ 0 := by
    intro hzero
    have hmem := (h.mem_ready oid).2 ⟨hoid, hnot, hzero⟩
    rw [hready] at hmem
    nomatch hmem
  obtain ⟨child, -, hchild, hparent⟩ := exists_child hpending
  exact hchild (ih child (.single ⟨hparent, hoid⟩))

theorem mem_of_common (h : oid ∈ commonOids nodes) : oid ∈ oidsOf nodes := by
  obtain ⟨node, hnode, rfl⟩ := mem_map.1 h
  exact mem_map.2 ⟨node, List.mem_of_mem_filter hnode, rfl⟩

theorem nodup_commonOids (hnodup : (oidsOf nodes).Nodup) : (commonOids nodes).Nodup :=
  hnodup.sublist (List.filter_sublist.map Prod.fst)

/-- The answer: every common ancestor that lies below no other one, once and in order. -/
structure Best (nodes : GraphNodes) (bases : List Text) : Prop where
  sorted : bases.Pairwise (· ≤ ·)
  nodup : bases.Nodup
  mem_iff : ∀ oid, oid ∈ bases ↔ oid ∈ commonOids nodes ∧ ¬ Below nodes oid

/-- Every common ancestor is reached from one of the best. -/
theorem Best.reaches {bases : List Text} (h : Best nodes bases) (hacyclic : Acyclic nodes)
    (hoid : oid ∈ commonOids nodes) :
    ∃ base ∈ bases, Relation.ReflTransGen (Edge nodes) base oid := by
  have hall := hacyclic.induction (P := fun oid => oid ∈ commonOids nodes →
    ∃ base ∈ bases, Relation.ReflTransGen (Edge nodes) base oid) ?_
  · exact hall oid (mem_of_common hoid) hoid
  · intro oid _ ih hcommon
    by_cases hbelow : Below nodes oid
    · obtain ⟨above, habove, hpath⟩ := hbelow
      obtain ⟨base, hbase, hreaches⟩ := ih above hpath habove
      exact ⟨base, hbase, hreaches.trans hpath.to_reflTransGen⟩
    · exact ⟨oid, (h.mem_iff oid).2 ⟨hcommon, hbelow⟩, .refl⟩

theorem bestCommonAncestors_best (hnodup : (oidsOf nodes).Nodup)
    (hconnected : Connected nodes shallow) (hacyclic : Acyclic nodes) :
    ∃ bases, bestCommonAncestors nodes shallow = .ok bases ∧ Best nodes bases := by
  obtain ⟨counts, hcounts⟩ := countChildren_exists hconnected
  obtain ⟨state, done, hloop, hpassing, hready⟩ := passLoop_ok hnodup
    (Passing.start hnodup (countChildren_ok hcounts)) (Nat.le_add_left nodes.length _)
  have hall := hpassing.all_done hready hacyclic
  have hprocessed : state.processed = nodes.length := by
    have hperm : (oidsOf nodes).Perm done :=
      (List.perm_ext_iff_of_nodup hnodup hpassing.nodup).2
        fun oid => ⟨hall oid, hpassing.done_mem oid⟩
    rw [hpassing.processed, ← hperm.length_eq, oidsOf, List.length_map]
  have hdominated : ∀ oid ∈ commonOids nodes, oid ∈ state.dominated ↔ Below nodes oid := by
    intro oid hcommon
    have hoid := mem_of_common hcommon
    rw [hpassing.mem_dominated,
      hpassing.marked hoid fun child hedge => hall child (mem_of_parent hedge.1)]
    exact and_iff_left hcommon
  have hanswer : bestCommonAncestors nodes shallow =
      .ok (((commonOids nodes).filter fun oid => oid ∉ state.dominated).mergeSort
        fun left right => left ≤ right) := by
    unfold bestCommonAncestors
    rw [hcounts]
    dsimp only [Except.bind]
    rw [hloop]
    dsimp only
    rw [if_neg (not_not.2 hprocessed)]
  refine ⟨_, hanswer, { sorted := ?_, nodup := ?_, mem_iff := ?_ }⟩
  · refine (List.pairwise_mergeSort (fun a b c hab hbc => ?_) (fun a b => ?_) _).imp
      of_decide_eq_true
    · exact decide_eq_true (List.le_trans (of_decide_eq_true hab) (of_decide_eq_true hbc))
    · rw [Bool.or_eq_true, decide_eq_true_eq, decide_eq_true_eq]
      exact List.le_total a b
  · exact (List.mergeSort_perm _ _).nodup_iff.2 ((nodup_commonOids hnodup).filter _)
  · intro oid
    rw [(List.mergeSort_perm _ _).mem_iff, mem_filter, decide_eq_true_eq]
    exact and_congr_right fun hcommon => not_congr (hdominated oid hcommon)

end Kompjutr.Merge
