/-
  Kompjutr.Merge.SelectionSound

  Which bases `selectMergeBases` selects, and that it treats both sides alike.

  The graph marks every commit with the sides whose walks yield it.  The walks yield what
  the roots reach, so swapping the sides swaps the marks and leaves everything else.
-/
import Kompjutr.Merge.BaseSound
import Kompjutr.Commits.Validate

namespace Kompjutr.Merge

open Objects (Text text isOid Commit)
open Commits (CommitStore WalkRepository walkIndexedOwned parentsWithin parentsOf)
open Trees (completeCommit)
open RecursiveUnion (Reaches)
open List (length_map lookup_cons mem_cons mem_cons_self mem_map mem_singleton not_mem_nil)

variable {root : Text}

variable {store : CommitStore} {oid : Text} {side maxCommits : Nat} {marks : Text → Nat}
  {items : List (Text × Commit)} {last : GraphNodes}

variable {nodes : GraphNodes}

-- Marks

/-- The nodes are the commits with a mark, each with its mark and its stored commit. -/
structure Marked (store : CommitStore) (maxCommits : Nat) (marks : Text → Nat)
    (nodes : GraphNodes) : Prop where
  nodup : (oidsOf nodes).Nodup
  length_le : nodes.length ≤ maxCommits
  mem_iff : ∀ oid, oid ∈ oidsOf nodes ↔ marks oid ≠ 0
  node : ∀ oid node, nodeAt nodes oid = some node → node.sides = marks oid ∧
    ∃ entry, store.cachedCommit oid = some entry ∧ completeCommit store.read entry = .ok node.commit

theorem oidsOf_addSide (oid : Text) (side : Nat) (nodes : GraphNodes) :
    oidsOf (addSide oid side nodes) = oidsOf nodes := by
  unfold oidsOf addSide
  rw [List.map_map]
  refine List.map_congr_left fun node _ => ?_
  simp only [Function.comp]
  split <;> rfl

theorem nodeAt_addSide (oid : Text) (side : Nat) (nodes : GraphNodes) (other : Text) :
    nodeAt (addSide oid side nodes) other = (nodeAt nodes other).map fun node =>
      if other = oid then { node with sides := node.sides ||| side } else node := by
  unfold nodeAt addSide
  induction nodes with
  | nil => rfl
  | cons node nodes ih =>
    obtain ⟨key, value⟩ := node
    have hkey : (if key = oid then (key, { value with sides := value.sides ||| side })
        else (key, value)) =
        (key, if key = oid then { value with sides := value.sides ||| side } else value) := by
      split <;> rfl
    rw [List.map_cons]
    dsimp only
    rw [hkey, lookup_cons, lookup_cons]
    by_cases heq : other = key
    · rw [heq, beq_self_eq_true]
      rfl
    · have hne : (other == key) = false := beq_eq_false_iff_ne.2 heq
      rw [hne]
      exact ih

theorem nodeAt_append (nodes : GraphNodes) (oid : Text) (node : GraphNode) (other : Text) :
    nodeAt (nodes ++ [(oid, node)]) other =
      (nodeAt nodes other).or (if other = oid then some node else none) := by
  unfold nodeAt
  rw [List.lookup_append, lookup_cons]
  by_cases heq : other = oid
  · rw [heq, beq_self_eq_true, if_pos rfl]
  · have hne : (other == oid) = false := beq_eq_false_iff_ne.2 heq
    rw [hne, if_neg heq]
    rfl

/-- A commit of the walk, as the store has it. -/
def Stored (store : CommitStore) (item : Text × Commit) : Prop :=
  ∃ entry, store.cachedCommit item.1 = some entry ∧ completeCommit store.read entry = .ok item.2

theorem Stored.unique {commit other : Commit}
    (h : Stored store (oid, commit)) (hother : Stored store (oid, other)) : commit = other := by
  obtain ⟨entry, hentry, hcommit⟩ := h
  obtain ⟨same, hsame, hcommit'⟩ := hother
  rw [hentry] at hsame
  rw [← Option.some.inj hsame, hcommit] at hcommit'
  exact Except.ok.inj hcommit'

/-- The marks once a side has added these commits. -/
def marksWith (side : Nat) (oids : List Text) (marks : Text → Nat) : Text → Nat :=
  fun oid => if oid ∈ oids then marks oid ||| side else marks oid

theorem addCommit_marked
    {item : Text × Commit} {next : GraphNodes} (h : Marked store maxCommits marks nodes)
    (hside : side ≠ 0) (hstored : Stored store item)
    (hadd : addCommit side maxCommits nodes item = .ok next) :
    Marked store maxCommits (marksWith side [item.1] marks) next := by
  have hor : ∀ mark : Nat, mark ||| side ≠ 0 := by
    intro mark hzero
    exact hside (Nat.or_eq_zero_iff.1 hzero).2
  unfold addCommit at hadd
  split at hadd
  · next existing hexisting =>
    split at hadd
    · cases hadd
    rw [← Except.ok.inj hadd]
    have hin : item.1 ∈ oidsOf nodes := nodeAt_isSome.1 (by rw [hexisting]; rfl)
    refine { nodup := ?_, length_le := ?_, mem_iff := ?_, node := ?_ }
    · rw [oidsOf_addSide]
      exact h.nodup
    · rw [addSide, length_map]
      exact h.length_le
    · intro oid
      rw [oidsOf_addSide, marksWith]
      by_cases heq : oid = item.1
      · rw [if_pos (mem_singleton.2 heq), heq]
        exact iff_of_true hin (hor _)
      · rw [if_neg fun hmem => heq (mem_singleton.1 hmem)]
        exact h.mem_iff oid
    · intro oid node hnode
      rw [nodeAt_addSide, Option.map_eq_some_iff] at hnode
      obtain ⟨before, hbefore, rfl⟩ := hnode
      obtain ⟨hsides, hcommit⟩ := h.node oid before hbefore
      rw [marksWith]
      by_cases heq : oid = item.1
      · rw [if_pos heq, if_pos (mem_singleton.2 heq), ← hsides]
        exact ⟨rfl, hcommit⟩
      · rw [if_neg heq, if_neg fun hmem => heq (mem_singleton.1 hmem)]
        exact ⟨hsides, hcommit⟩
  · next hnone =>
    split at hadd
    · cases hadd
    next hroom =>
    rw [← Except.ok.inj hadd]
    have hout : item.1 ∉ oidsOf nodes := nodeAt_eq_none.1 hnone
    have hzero : marks item.1 = 0 := by
      by_contra hmark
      exact hout ((h.mem_iff _).2 hmark)
    have hoids : oidsOf (nodes ++ [(item.1, { commit := item.2, sides := side })]) =
        oidsOf nodes ++ [item.1] := List.map_append
    refine { nodup := ?_, length_le := ?_, mem_iff := ?_, node := ?_ }
    · rw [hoids, ← List.concat_eq_append]
      exact h.nodup.concat hout
    · rw [List.length_append, List.length_singleton]
      omega
    · intro oid
      rw [hoids, List.mem_append, marksWith, h.mem_iff]
      by_cases heq : oid = item.1
      · rw [if_pos (mem_singleton.2 heq)]
        exact iff_of_true (.inr (mem_singleton.2 heq)) (hor _)
      · have hnot : oid ∉ [item.1] := fun hmem => heq (mem_singleton.1 hmem)
        rw [if_neg hnot]
        exact or_iff_left hnot
    · intro oid node hnode
      rw [nodeAt_append] at hnode
      rw [marksWith]
      by_cases heq : oid = item.1
      · rw [heq, hnone, Option.none_or, if_pos rfl] at hnode
        rw [if_pos (mem_singleton.2 heq), heq, hzero, Nat.zero_or, ← Option.some.inj hnode]
        exact ⟨rfl, hstored⟩
      · rw [if_neg heq, Option.or_none] at hnode
        rw [if_neg fun hmem => heq (mem_singleton.1 hmem)]
        exact h.node oid node hnode

theorem addCommit_exists {store : CommitStore} {side maxCommits : Nat} {marks : Text → Nat}
    {item : Text × Commit} (h : Marked store maxCommits marks nodes) (hstored : Stored store item)
    (hroom : item.1 ∈ oidsOf nodes ∨ nodes.length < maxCommits) :
    ∃ next, addCommit side maxCommits nodes item = .ok next := by
  unfold addCommit
  split
  · next existing hexisting =>
    have hsame : existing.commit = item.2 :=
      Stored.unique (h.node item.1 existing hexisting).2 hstored
    rw [hsame]
    simp
  · next hnone =>
    have hless := hroom.resolve_left (nodeAt_eq_none.1 hnone)
    rw [if_neg (Nat.not_le.2 hless)]
    exact ⟨_, rfl⟩

theorem marksWith_cons (side : Nat) (oid : Text) (oids : List Text) (marks : Text → Nat) :
    marksWith side oids (marksWith side [oid] marks) = marksWith side (oid :: oids) marks := by
  funext other
  unfold marksWith
  by_cases hfirst : other = oid
  · have hmem : other ∈ oid :: oids := mem_cons.2 (.inl hfirst)
    rw [if_pos (mem_singleton.2 hfirst), if_pos hmem, Nat.or_assoc, Nat.or_self, ite_self]
  · have hsame : other ∈ oid :: oids ↔ other ∈ oids := by
      rw [mem_cons]
      exact or_iff_right hfirst
    rw [if_neg fun hmem => hfirst (mem_singleton.1 hmem)]
    simp only [hsame]

section

variable (h : Marked store maxCommits marks nodes) (hside : side ≠ 0)
  (hstored : ∀ item ∈ items, Stored store item)

include h hside hstored

/-- A side adds what its walk yielded. -/
theorem addCommits_marked (hadd : items.foldlM (addCommit side maxCommits) nodes = .ok last) :
    Marked store maxCommits (marksWith side (items.map Prod.fst) marks) last := by
  induction items generalizing nodes marks with
  | nil =>
    have hmarks : marksWith side [] marks = marks := by
      funext oid
      exact if_neg not_mem_nil
    rw [← Except.ok.inj hadd, List.map_nil, hmarks]
    exact h
  | cons item items ih =>
    rw [List.foldlM_cons] at hadd
    obtain ⟨next, hnext, hrest⟩ := Fuel.bind_eq_ok.1 hadd
    have hmarked := addCommit_marked h hside (hstored item mem_cons_self) hnext
    have hlast := ih hmarked (fun other hother => hstored other (List.mem_cons_of_mem _ hother)) hrest
    rw [marksWith_cons] at hlast
    exact hlast

/-- There is room for what fits into a list of commits that is short enough. -/
theorem addCommits_exists {all : List Text} (hall : all.length ≤ maxCommits)
    (hnodes : ∀ oid ∈ oidsOf nodes, oid ∈ all) (hitems : ∀ item ∈ items, item.1 ∈ all) :
    ∃ last, items.foldlM (addCommit side maxCommits) nodes = .ok last := by
  induction items generalizing nodes marks with
  | nil => exact ⟨nodes, rfl⟩
  | cons item items ih =>
    have hroom : item.1 ∈ oidsOf nodes ∨ nodes.length < maxCommits := by
      by_cases hin : item.1 ∈ oidsOf nodes
      · exact .inl hin
      · right
        have hsub : (item.1 :: oidsOf nodes).Subperm all := by
          refine List.subperm_of_subset (List.nodup_cons.2 ⟨hin, h.nodup⟩) ?_
          exact List.cons_subset.2 ⟨hitems item mem_cons_self, hnodes⟩
        have hlength := hsub.length_le
        rw [List.length_cons, oidsOf, length_map] at hlength
        omega
    have hfirst := hstored item mem_cons_self
    obtain ⟨next, hnext⟩ := @addCommit_exists nodes store side maxCommits marks item h hfirst hroom
    have hmarked := addCommit_marked h hside hfirst hnext
    have hwithin : ∀ oid ∈ oidsOf next, oid ∈ all := by
      intro oid hoid
      have hmark := (hmarked.mem_iff oid).1 hoid
      unfold marksWith at hmark
      split at hmark
      · next heq =>
        rw [mem_singleton.1 heq]
        exact hitems item mem_cons_self
      · exact hnodes oid ((h.mem_iff oid).2 hmark)
    obtain ⟨last, hlast⟩ := ih hmarked
      (fun other hother => hstored other (List.mem_cons_of_mem _ hother)) hwithin
      fun other hother => hitems other (List.mem_cons_of_mem _ hother)
    exact ⟨last, by rw [List.foldlM_cons, hnext, Fuel.ok_bind, hlast]⟩

end

-- The graph of both sides

theorem andThen_eq_ok {α β : Type} {first : Option (Except GitError α)}
    {next : α → Option (Except GitError β)} {value : β} :
    andThen first next = some (.ok value) ↔
      ∃ middle, first = some (.ok middle) ∧ next middle = some (.ok value) := by
  unfold andThen
  cases first with
  | none => simp
  | some answer =>
    cases answer with
    | error error => simp
    | ok middle => simp

variable {repo : Repository}

theorem peel_of_commit (h : requireCommit repo oid = .ok ()) : peel repo oid = .ok oid := by
  unfold requireCommit at h
  obtain ⟨type, htype, hcommit⟩ := Fuel.bind_eq_ok.1 h
  split at hcommit
  · cases hcommit
  next hsame =>
  have hnot : type ≠ .tag := by
    rw [not_not.1 hsame]
    nofun
  unfold peel peelFrom
  rw [htype]
  exact if_pos hnot

/-- The commits of a side, and what the walk yields for it. -/
structure SideOf (repo : Repository) (root : Text) (limits : ResolvedLimits) (fuel : Nat)
    (items : List (Text × Commit)) : Prop where
  walk : walkIndexedOwned repo.walk root { maxCommits := some limits.maxCommits, maxBytes := none }
    fuel = some (items, none)
  mem_iff : ∀ oid, oid ∈ items.map Prod.fst ↔ Reaches (parentsWithin repo.store) root oid
  stored : ∀ item ∈ items, Stored repo.store item

theorem addReachable_ok {limits : ResolvedLimits}
    {fuel : Nat} (hroot : requireCommit repo root = .ok ())
    (h : addReachable repo root side limits nodes fuel = some (.ok last)) :
    ∃ items, SideOf repo root limits fuel items ∧
      items.foldlM (addCommit side limits.maxCommits) nodes = .ok last := by
  unfold addReachable at h
  obtain ⟨⟨items, failed⟩, hwalk, hadd⟩ := Option.map_eq_some_iff.1 h
  obtain ⟨added, hadded, hlast⟩ := Fuel.bind_eq_ok.1 hadd
  cases failed with
  | some error => cases hlast
  | none =>
    rw [Except.ok.inj hlast] at hadded
    have hpeel : repo.walk.peel root = .ok root := peel_of_commit hroot
    have hwalked := Commits.walkIndexedOwned_ok hpeel hwalk
    exact ⟨items, { walk := hwalk, mem_iff := hwalked.2.1, stored := hwalked.2.2 }, hadded⟩

theorem addReachable_of_side {limits : ResolvedLimits} {fuel : Nat}
    (h : SideOf repo root limits fuel items)
    (hadd : items.foldlM (addCommit side limits.maxCommits) nodes = .ok last) :
    addReachable repo root side limits nodes fuel = some (.ok last) := by
  unfold addReachable
  rw [h.walk, Option.map_some, hadd]
  rfl

/-- The marks of both sides. -/
def marksOf (currentOids incomingOids : List Text) : Text → Nat :=
  marksWith incoming incomingOids (marksWith current currentOids fun _ => 0)

theorem marksOf_eq (currentOids incomingOids : List Text) (oid : Text) :
    marksOf currentOids incomingOids oid =
      (if oid ∈ currentOids then 1 else 0) + (if oid ∈ incomingOids then 2 else 0) := by
  unfold marksOf marksWith
  by_cases hcurrent : oid ∈ currentOids <;> by_cases hincoming : oid ∈ incomingOids <;>
    simp only [hcurrent, hincoming, if_true, if_false] <;> rfl

theorem marked_nil (store : CommitStore) (maxCommits : Nat) :
    Marked store maxCommits (fun _ => 0) [] where
  nodup := List.nodup_nil
  length_le := Nat.zero_le _
  mem_iff := fun oid => by simp [oidsOf]
  node := fun oid node hnode => by cases hnode

/-- What the collected graph is: the commits of both walks with their marks. -/
structure Collected (repo : Repository) (input : MergeBaseInput) (limits : ResolvedLimits)
    (fuel : Nat) (currentItems incomingItems : List (Text × Commit)) (nodes : GraphNodes) :
    Prop where
  check : checkInput repo input = .ok limits
  left : SideOf repo input.currentOid limits fuel currentItems
  right : SideOf repo input.incomingOid limits fuel incomingItems
  marked : Marked repo.store limits.maxCommits
    (marksOf (currentItems.map Prod.fst) (incomingItems.map Prod.fst)) nodes

theorem checkInput_ok {input : MergeBaseInput} {limits : ResolvedLimits}
    (h : checkInput repo input = .ok limits) :
    isOid input.currentOid = true ∧ isOid input.incomingOid = true ∧
      resolveLimits input.limits = .ok limits ∧
      requireCommit repo input.currentOid = .ok () ∧
      requireCommit repo input.incomingOid = .ok () := by
  unfold checkInput at h
  split at h
  · cases h
  next hoids =>
  obtain ⟨resolved, hresolved, h⟩ := Fuel.bind_eq_ok.1 h
  obtain ⟨⟨⟩, hcurrent, h⟩ := Fuel.bind_eq_ok.1 h
  obtain ⟨⟨⟩, hincoming, h⟩ := Fuel.map_eq_ok.1 h
  simp only [Bool.or_eq_true, Bool.not_eq_true', not_or, Bool.not_eq_false] at hoids
  rw [h] at hresolved
  exact ⟨hoids.1, hoids.2, hresolved, hcurrent, hincoming⟩

theorem reachableGraphOwned_ok {input : MergeBaseInput} {fuel : Nat}
    (h : reachableGraphOwned repo input fuel = some (.ok nodes)) :
    ∃ limits currentItems incomingItems,
      Collected repo input limits fuel currentItems incomingItems nodes := by
  unfold reachableGraphOwned at h
  obtain ⟨limits, hcheck, h⟩ := andThen_eq_ok.1 h
  obtain ⟨first, hfirst, hsecond⟩ := andThen_eq_ok.1 h
  have hcheck := Option.some.inj hcheck
  obtain ⟨-, -, -, hcurrent, hincoming⟩ := checkInput_ok hcheck
  obtain ⟨currentItems, hleft, haddLeft⟩ := addReachable_ok hcurrent hfirst
  obtain ⟨incomingItems, hright, haddRight⟩ := addReachable_ok hincoming hsecond
  have hmarked := addCommits_marked (marked_nil repo.store limits.maxCommits)
    (by decide : current ≠ 0) hleft.stored haddLeft
  exact ⟨limits, currentItems, incomingItems,
    { check := hcheck, left := hleft, right := hright
      marked := addCommits_marked hmarked (by decide : incoming ≠ 0) hright.stored haddRight }⟩

-- Ancestors

section
variable {repo : Repository} {input : MergeBaseInput} {limits : ResolvedLimits} {fuel : Nat}
  {currentItems incomingItems : List (Text × Commit)}

/-- Both sides reach the commit. -/
def CommonAncestor (store : CommitStore) (input : MergeBaseInput) (oid : Text) : Prop :=
  Reaches (parentsWithin store) input.currentOid oid ∧
    Reaches (parentsWithin store) input.incomingOid oid

theorem Collected.marks_eq (h : Collected repo input limits fuel currentItems incomingItems nodes)
    (oid : Text) :
    (Reaches (parentsWithin repo.store) input.currentOid oid ∧
        Reaches (parentsWithin repo.store) input.incomingOid oid ∧
        marksOf (currentItems.map Prod.fst) (incomingItems.map Prod.fst) oid = 3) ∨
      (Reaches (parentsWithin repo.store) input.currentOid oid ∧
        ¬ Reaches (parentsWithin repo.store) input.incomingOid oid ∧
        marksOf (currentItems.map Prod.fst) (incomingItems.map Prod.fst) oid = 1) ∨
      (¬ Reaches (parentsWithin repo.store) input.currentOid oid ∧
        Reaches (parentsWithin repo.store) input.incomingOid oid ∧
        marksOf (currentItems.map Prod.fst) (incomingItems.map Prod.fst) oid = 2) ∨
      (¬ Reaches (parentsWithin repo.store) input.currentOid oid ∧
        ¬ Reaches (parentsWithin repo.store) input.incomingOid oid ∧
        marksOf (currentItems.map Prod.fst) (incomingItems.map Prod.fst) oid = 0) := by
  rw [← h.left.mem_iff, ← h.right.mem_iff, marksOf_eq]
  by_cases hcurrent : oid ∈ currentItems.map Prod.fst <;>
    by_cases hincoming : oid ∈ incomingItems.map Prod.fst <;>
    simp only [hcurrent, hincoming, if_true, if_false] <;> decide

theorem Collected.mem_iff (h : Collected repo input limits fuel currentItems incomingItems nodes)
    (oid : Text) : oid ∈ oidsOf nodes ↔
      Reaches (parentsWithin repo.store) input.currentOid oid ∨
        Reaches (parentsWithin repo.store) input.incomingOid oid := by
  rw [h.marked.mem_iff]
  have hmarks := h.marks_eq oid
  grind

theorem sidesAt_eq {sides : Nat} :
    sidesAt nodes oid = some sides ↔ ∃ node, nodeAt nodes oid = some node ∧ node.sides = sides := by
  unfold sidesAt
  exact Option.map_eq_some_iff

section

variable (h : Collected repo input limits fuel currentItems incomingItems nodes)

include h

theorem Collected.sidesAt_both (oid : Text) :
    sidesAt nodes oid = some both ↔ CommonAncestor repo.store input oid := by
  rw [sidesAt_eq]
  have hmarks := h.marks_eq oid
  constructor
  · rintro ⟨node, hnode, hsides⟩
    have hmark := (h.marked.node oid node hnode).1
    rw [hsides] at hmark
    rcases hmarks with ⟨hleft, hright, -⟩ | ⟨-, -, hother⟩ | ⟨-, -, hother⟩ | ⟨-, -, hother⟩
    · exact ⟨hleft, hright⟩
    all_goals
      rw [hother] at hmark
      exact absurd hmark (by decide)
  · rintro ⟨hleft, hright⟩
    obtain ⟨node, hnode⟩ := Option.isSome_iff_exists.1
      (nodeAt_isSome.2 ((h.mem_iff oid).2 (.inl hleft)))
    refine ⟨node, hnode, ?_⟩
    rw [(h.marked.node oid node hnode).1]
    rcases hmarks with ⟨-, -, hmark⟩ | ⟨-, hno, -⟩ | ⟨hno, -, -⟩ | ⟨hno, -, -⟩
    · exact hmark
    · exact absurd hright hno
    · exact absurd hleft hno
    · exact absurd hleft hno

theorem Collected.mem_commonOids (oid : Text) :
    oid ∈ commonOids nodes ↔ CommonAncestor repo.store input oid := by
  rw [← h.sidesAt_both, sidesAt_eq]
  unfold commonOids
  rw [mem_map]
  constructor
  · rintro ⟨node, hnode, rfl⟩
    obtain ⟨hmem, hsides⟩ := List.mem_filter.1 hnode
    exact ⟨node.2, nodeAt_of_mem h.marked.nodup hmem, of_decide_eq_true hsides⟩
  · rintro ⟨node, hnode, hsides⟩
    refine ⟨(oid, node), List.mem_filter.2 ⟨?_, decide_eq_true hsides⟩, rfl⟩
    obtain ⟨before, after, heq, -⟩ := List.lookup_eq_some_iff.1 hnode
    rw [heq]
    exact List.mem_append_right _ mem_cons_self

theorem Collected.parentsAt_eq (hoid : oid ∈ oidsOf nodes) :
    ∃ entry, repo.store.cachedCommit oid = some entry ∧ parentsAt nodes oid = parentsOf entry := by
  obtain ⟨node, hnode⟩ := Option.isSome_iff_exists.1 (nodeAt_isSome.2 hoid)
  obtain ⟨-, entry, hentry, hcomplete⟩ := h.marked.node oid node hnode
  refine ⟨entry, hentry, ?_⟩
  rw [parentsAt, hnode]
  exact Commits.parent_of_completeCommit hcomplete

/-- What the walks follow is an edge of the graph. -/
theorem Collected.edge {parent : Text} (hoid : oid ∈ oidsOf nodes)
    (hparent : parent ∈ parentsWithin repo.store oid) :
    Edge nodes oid parent := by
  have hin : parent ∈ oidsOf nodes := by
    rw [h.mem_iff] at hoid ⊢
    exact hoid.imp (·.tail hparent) (·.tail hparent)
  obtain ⟨entry, hentry, hparents⟩ := h.parentsAt_eq hoid
  refine ⟨?_, hin⟩
  rw [hparents]
  unfold parentsWithin at hparent
  split at hparent
  · nomatch hparent
  · rw [hentry] at hparent
    exact hparent

theorem Collected.connected :
    Connected nodes repo.store.shallow := by
  intro node hnode parent hparent
  by_cases hshallow : node.1 ∈ repo.store.shallow
  · exact .inr hshallow
  · have hoid : node.1 ∈ oidsOf nodes := mem_map.2 ⟨node, hnode, rfl⟩
    obtain ⟨entry, hentry, hparents⟩ := h.parentsAt_eq hoid
    have hat : parentsAt nodes node.1 = node.2.commit.parent := by
      rw [parentsAt, nodeAt_of_mem h.marked.nodup hnode]
    rw [← hat, hparents] at hparent
    have hwithin : parent ∈ parentsWithin repo.store node.1 := by
      rw [parentsWithin, if_neg hshallow, hentry]
      exact hparent
    exact .inl (h.edge hoid hwithin).2

theorem Collected.path {from_ : Text} (hfrom : from_ ∈ oidsOf nodes)
    (hreaches : Reaches (parentsWithin repo.store) from_ oid) :
    oid ∈ oidsOf nodes ∧ Relation.ReflTransGen (Edge nodes) from_ oid := by
  induction hreaches with
  | refl => exact ⟨hfrom, .refl⟩
  | tail _ hstep ih =>
    have hedge := h.edge ih.1 hstep
    exact ⟨hedge.2, ih.2.tail hedge⟩

end

-- Swapped sides

def MergeBaseInput.swapped (input : MergeBaseInput) : MergeBaseInput :=
  { input with currentOid := input.incomingOid, incomingOid := input.currentOid }

def MergeBaseKind.swapped : MergeBaseKind → MergeBaseKind
  | .alreadyMerged => .fastForward
  | .fastForward => .alreadyMerged
  | kind => kind

def MergeBaseSelection.swapped (selection : MergeBaseSelection) : MergeBaseSelection :=
  { selection with kind := selection.kind.swapped }

theorem checkInput_swapped (h : checkInput repo input = .ok limits) :
    checkInput repo input.swapped = .ok limits := by
  obtain ⟨hleft, hright, hlimits, hcurrent, hincoming⟩ := checkInput_ok h
  unfold checkInput MergeBaseInput.swapped
  rw [hleft, hright]
  dsimp only
  rw [hlimits]
  dsimp only [Except.bind]
  rw [hincoming]
  dsimp only
  rw [hcurrent]
  rfl

/-- The graph of the swapped sides fits, since it has the same commits. -/
theorem Collected.swapped (h : Collected repo input limits fuel currentItems incomingItems nodes) :
    ∃ nodes', reachableGraphOwned repo input.swapped fuel = some (.ok nodes') ∧
      Collected repo input.swapped limits fuel incomingItems currentItems nodes' := by
  have hlength : (oidsOf nodes).length ≤ limits.maxCommits := by
    rw [oidsOf, length_map]
    exact h.marked.length_le
  have hleft : ∀ item ∈ currentItems, item.1 ∈ oidsOf nodes := by
    intro item hitem
    exact (h.mem_iff _).2 (.inl ((h.left.mem_iff _).1 (mem_map.2 ⟨item, hitem, rfl⟩)))
  have hright : ∀ item ∈ incomingItems, item.1 ∈ oidsOf nodes := by
    intro item hitem
    exact (h.mem_iff _).2 (.inr ((h.right.mem_iff _).1 (mem_map.2 ⟨item, hitem, rfl⟩)))
  have hcurrent : current ≠ 0 := by decide
  have hincoming : incoming ≠ 0 := by decide
  have hnil := marked_nil repo.store limits.maxCommits
  obtain ⟨first, hfirst⟩ := addCommits_exists hnil hcurrent h.right.stored hlength
    (fun oid hoid => absurd hoid not_mem_nil) hright
  have hmarked := addCommits_marked hnil hcurrent h.right.stored hfirst
  have hwithin : ∀ oid ∈ oidsOf first, oid ∈ oidsOf nodes := by
    intro oid hoid
    have hmark := (hmarked.mem_iff oid).1 hoid
    unfold marksWith at hmark
    split at hmark
    · next hmem =>
      obtain ⟨item, hitem, rfl⟩ := mem_map.1 hmem
      exact hright item hitem
    · exact absurd rfl hmark
  obtain ⟨nodes', hnodes'⟩ := addCommits_exists hmarked hincoming h.left.stored hlength hwithin hleft
  have hcheck := checkInput_swapped h.check
  refine ⟨nodes', ?_, { check := hcheck, left := h.right, right := h.left
                        marked := addCommits_marked hmarked hincoming h.left.stored hnodes' }⟩
  unfold reachableGraphOwned
  refine andThen_eq_ok.2 ⟨limits, congrArg some hcheck, andThen_eq_ok.2 ⟨first, ?_, ?_⟩⟩
  · exact addReachable_of_side h.right hfirst
  · exact addReachable_of_side h.left hnodes'

theorem commonAncestor_swapped :
    CommonAncestor store input.swapped oid ↔ CommonAncestor store input oid := And.comm

variable {nodes' : GraphNodes}

section
variable (h : Collected repo input limits fuel currentItems incomingItems nodes)
  (h' : Collected repo input.swapped limits fuel incomingItems currentItems nodes')
include h h'

theorem oidsOf_perm : (oidsOf nodes).Perm (oidsOf nodes') := by
  refine (List.perm_ext_iff_of_nodup h.marked.nodup h'.marked.nodup).2 fun oid => ?_
  rw [h.mem_iff, h'.mem_iff]
  exact Or.comm

theorem length_eq : nodes'.length = nodes.length := by
  have hlength := (oidsOf_perm h h').length_eq
  rw [oidsOf, oidsOf, length_map, length_map] at hlength
  exact hlength.symm

theorem edge_eq : Edge nodes' = Edge nodes := by
  funext oid parent
  have hoids : ∀ oid, oid ∈ oidsOf nodes' ↔ oid ∈ oidsOf nodes :=
    fun oid => (oidsOf_perm h h').mem_iff.symm
  have hparents : parentsAt nodes' oid = parentsAt nodes oid := by
    by_cases hoid : oid ∈ oidsOf nodes
    · obtain ⟨entry, hentry, hparents⟩ := h.parentsAt_eq hoid
      obtain ⟨same, hsame, hparents'⟩ := h'.parentsAt_eq ((hoids oid).2 hoid)
      rw [hentry] at hsame
      rw [hparents, hparents', Option.some.inj hsame]
    · rw [parentsAt, parentsAt, nodeAt_eq_none.2 hoid,
        nodeAt_eq_none.2 fun hmem => hoid ((hoids oid).1 hmem)]
  unfold Edge
  rw [hparents, hoids]

theorem mem_commonOids_swapped (oid : Text) : oid ∈ commonOids nodes' ↔ oid ∈ commonOids nodes := by
  rw [h.mem_commonOids, h'.mem_commonOids, commonAncestor_swapped]

theorem best_swapped {bases : List Text} (hbest : Best nodes bases) : Best nodes' bases where
  sorted := hbest.sorted
  nodup := hbest.nodup
  mem_iff := by
    intro oid
    unfold Below
    rw [edge_eq h h', hbest.mem_iff]
    simp only [mem_commonOids_swapped h h']
    rfl

end

/-- The order of a sorted list without repetition is determined. -/
theorem Best.unique {bases others : List Text} (h : Best nodes bases) (hothers : Best nodes others) :
    bases = others := by
  have hperm : bases.Perm others :=
    (List.perm_ext_iff_of_nodup h.nodup hothers.nodup).2
      fun oid => (h.mem_iff oid).trans (hothers.mem_iff oid).symm
  exact hperm.eq_of_pairwise (fun a b _ _ => List.le_antisymm) h.sorted hothers.sorted

section

variable (h : Collected repo input limits fuel currentItems incomingItems nodes)

include h

/-- Two commits that reach each other are one. -/
theorem Collected.antisymm (hacyclic : Acyclic nodes)
    (hforth : Reaches (parentsWithin repo.store) input.currentOid input.incomingOid)
    (hback : Reaches (parentsWithin repo.store) input.incomingOid input.currentOid) :
    input.currentOid = input.incomingOid := by
  have hcurrent : input.currentOid ∈ oidsOf nodes := (h.mem_iff _).2 (.inl .refl)
  have hincoming : input.incomingOid ∈ oidsOf nodes := (h.mem_iff _).2 (.inr .refl)
  have hdown := (h.path hcurrent hforth).2
  have hup := (h.path hincoming hback).2
  rcases Relation.reflTransGen_iff_eq_or_transGen.1 hdown with heq | hdown
  · exact heq.symm
  · exact absurd (hdown.trans_left hup) (hacyclic _)

theorem Collected.best (hacyclic : Acyclic nodes) :
    ∃ bases, bestCommonAncestors nodes repo.store.shallow = .ok bases ∧ Best nodes bases :=
  bestCommonAncestors_best h.marked.nodup h.connected hacyclic

theorem any_shallow_swapped
    (h' : Collected repo input.swapped limits fuel incomingItems currentItems nodes')
    (shallow : List Text) :
    (shallow.any fun oid => (sidesAt nodes' oid).any (· ≠ both)) =
      shallow.any fun oid => (sidesAt nodes oid).any (· ≠ both) := by
  have hany : ∀ (nodes : GraphNodes) oid, (sidesAt nodes oid).any (· ≠ both) = true ↔
      oid ∈ oidsOf nodes ∧ sidesAt nodes oid ≠ some both := by
    intro nodes oid
    unfold sidesAt
    rw [← nodeAt_isSome]
    cases nodeAt nodes oid with
    | none => simp
    | some node => simp
  congr 1
  funext oid
  rw [Bool.eq_iff_iff, hany, hany, ne_eq, ne_eq, h.sidesAt_both, h'.sidesAt_both,
    commonAncestor_swapped, (oidsOf_perm h h').mem_iff]

theorem selectFrom_swapped
    (h' : Collected repo input.swapped limits fuel incomingItems currentItems nodes')
    (hacyclic : Acyclic nodes) (hne : input.currentOid ≠ input.incomingOid)
    {selection : MergeBaseSelection}
    (hselect : selectFrom nodes repo.store.shallow input limits = .ok selection) :
    selectFrom nodes' repo.store.shallow input.swapped limits = .ok selection.swapped := by
  have hlength := length_eq h h'
  have hsides : ∀ oid, sidesAt nodes' oid = some both ↔ sidesAt nodes oid = some both := by
    intro oid
    rw [h.sidesAt_both, h'.sidesAt_both, commonAncestor_swapped]
  have hcurrent : input.swapped.currentOid = input.incomingOid := rfl
  have hincoming : input.swapped.incomingOid = input.currentOid := rfl
  unfold selectFrom at hselect ⊢
  dsimp only at hselect ⊢
  rw [hcurrent, hincoming]
  by_cases hmerged : sidesAt nodes input.incomingOid = some both
  · have hnot : sidesAt nodes input.currentOid ≠ some both := by
      intro hboth
      exact hne (h.antisymm hacyclic ((h.sidesAt_both _).1 hmerged).1 ((h.sidesAt_both _).1 hboth).2)
    rw [if_pos hmerged] at hselect
    rw [if_neg fun hboth => hnot ((hsides _).1 hboth), if_pos ((hsides _).2 hmerged), hlength,
      ← Except.ok.inj hselect]
    rfl
  rw [if_neg hmerged] at hselect
  by_cases hforward : sidesAt nodes input.currentOid = some both
  · rw [if_pos hforward] at hselect
    rw [if_pos ((hsides _).2 hforward), hlength, ← Except.ok.inj hselect]
    rfl
  rw [if_neg hforward] at hselect
  rw [if_neg fun hboth => hforward ((hsides _).1 hboth),
    if_neg fun hboth => hmerged ((hsides _).1 hboth), any_shallow_swapped h h', hlength]
  by_cases hshallow :
      (repo.store.shallow.any fun oid => (sidesAt nodes oid).any (· ≠ both)) = true
  · rw [if_pos hshallow] at hselect ⊢
    rw [← Except.ok.inj hselect]
    rfl
  rw [if_neg hshallow] at hselect ⊢
  obtain ⟨bases, hbases, hbest⟩ := h.best hacyclic
  obtain ⟨bases', hbases', hbest'⟩ := h'.best (by rw [Acyclic, edge_eq h h']; exact hacyclic)
  rw [hbest'.unique (best_swapped h h' hbest)] at hbases'
  rw [hbases] at hselect
  rw [hbases']
  dsimp only [Except.bind] at hselect ⊢
  by_cases hnone : bases = []
  · rw [if_pos hnone] at hselect ⊢
    rw [← Except.ok.inj hselect]
    rfl
  rw [if_neg hnone] at hselect ⊢
  by_cases hmany : limits.maxBases < bases.length
  · rw [if_pos hmany] at hselect
    cases hselect
  · rw [if_neg hmany] at hselect ⊢
    rw [← Except.ok.inj hselect]
    rfl

end

end

-- Results

/-- The best common ancestors of an acyclic graph are the maximal common ancestors, each once,
    and different commits are treated alike. -/
theorem best_common_ancestors {repo : Repository} {input : MergeBaseInput} {fuel : Nat}
    (hgraph : reachableGraphOwned repo input fuel = some (.ok nodes)) (hacyclic : Acyclic nodes) :
    (∃ bases, bestCommonAncestors nodes repo.store.shallow = .ok bases ∧ bases.Nodup ∧
      (∀ oid, oid ∈ bases ↔ CommonAncestor repo.store input oid ∧
        ¬ ∃ above, CommonAncestor repo.store input above ∧
          Relation.TransGen (Edge nodes) above oid) ∧
      ∀ oid, CommonAncestor repo.store input oid →
        ∃ base ∈ bases, Relation.ReflTransGen (Edge nodes) base oid) ∧
    (input.currentOid ≠ input.incomingOid → ∀ selection,
      selectMergeBases repo input fuel = some (.ok selection) →
        selectMergeBases repo input.swapped fuel = some (.ok selection.swapped)) := by
  obtain ⟨limits, currentItems, incomingItems, hcollected⟩ := reachableGraphOwned_ok hgraph
  constructor
  · obtain ⟨bases, hbases, hbest⟩ := hcollected.best hacyclic
    refine ⟨bases, hbases, hbest.nodup, fun oid => ?_, fun oid hoid => ?_⟩
    · rw [hbest.mem_iff, hcollected.mem_commonOids]
      unfold Below
      simp only [hcollected.mem_commonOids]
    · exact hbest.reaches hacyclic ((hcollected.mem_commonOids oid).2 hoid)
  · intro hne selection hselect
    have hlimits := (checkInput_ok hcollected.check).2.2.1
    obtain ⟨nodes', hgraph', hcollected'⟩ := hcollected.swapped
    unfold selectMergeBases at hselect ⊢
    obtain ⟨same, hsame, hselect⟩ := andThen_eq_ok.1 hselect
    obtain rfl := Except.ok.inj (Option.some.inj (hgraph.symm.trans hsame))
    obtain ⟨resolved, hresolved, hselect⟩ := andThen_eq_ok.1 hselect
    obtain rfl := Except.ok.inj (hlimits.symm.trans (Option.some.inj hresolved))
    have hselected := selectFrom_swapped hcollected hcollected' hacyclic hne
      (Option.some.inj hselect)
    exact andThen_eq_ok.2 ⟨nodes', hgraph', andThen_eq_ok.2
      ⟨limits, congrArg some hlimits, congrArg some hselected⟩⟩

-- A merge and one of its parents

/-- A merge of two root commits. -/
def mergeRepo : Repository where
  store := { Commits.mergeStore "10" 200 with typeOf := fun _ => some .commit }
  tagTarget := .ok

def rootOid (digit : UInt16) : Text := List.replicate 39 0x30 ++ [digit]

def inputOf (currentOid incomingOid : Text) : MergeBaseInput :=
  { currentOid, incomingOid, limits := { maxCommits := none, maxBases := none } }

def mergeNodes : GraphNodes :=
  [(Commits.mergeOid, { commit := Commits.mergeCommit "10" Commits.mergeOid, sides := current }),
    (rootOid 0x31, { commit := Commits.commitWith [], sides := both }),
    (rootOid 0x30, { commit := Commits.commitWith [], sides := current })]

theorem mergeNodes_acyclic : Acyclic mergeNodes := by
  have hedge : ∀ oid parent, Edge mergeNodes oid parent →
      oid = Commits.mergeOid ∧ parent ≠ Commits.mergeOid := by
    rintro oid parent ⟨hparent, -⟩
    have hoid := mem_of_parent hparent
    simp only [mergeNodes, oidsOf, List.map_cons, List.map_nil, mem_cons, not_mem_nil,
      or_false] at hoid
    rcases hoid with rfl | rfl | rfl
    · have hparents : parentsAt mergeNodes Commits.mergeOid = [rootOid 0x31, rootOid 0x30] := by
        decide +kernel
      rw [hparents] at hparent
      refine ⟨rfl, ?_⟩
      rintro rfl
      exact absurd hparent (by decide +kernel)
    · have hnone : parentsAt mergeNodes (rootOid 0x31) = [] := by decide +kernel
      rw [hnone] at hparent
      cases hparent
    · have hnone : parentsAt mergeNodes (rootOid 0x30) = [] := by decide +kernel
      rw [hnone] at hparent
      cases hparent
  intro oid hcycle
  obtain ⟨_, hfirst, -⟩ := Relation.TransGen.head'_iff.1 hcycle
  obtain ⟨_, -, hlast⟩ := Relation.TransGen.tail'_iff.1 hcycle
  exact (hedge _ _ hlast).2 (hedge _ _ hfirst).1

theorem best_common_ancestors_merge :
    reachableGraphOwned mergeRepo (inputOf Commits.mergeOid (rootOid 0x31)) 10 =
        some (.ok mergeNodes) ∧
      (∃ bases, bestCommonAncestors mergeNodes mergeRepo.store.shallow = .ok bases ∧ bases.Nodup) ∧
      selectMergeBases mergeRepo (inputOf (rootOid 0x31) Commits.mergeOid) 10 =
        some (.ok { kind := .fastForward, bases := [rootOid 0x31], commits := 3 }) := by
  have hgraph : reachableGraphOwned mergeRepo (inputOf Commits.mergeOid (rootOid 0x31)) 10 =
      some (.ok mergeNodes) := by decide +kernel
  obtain ⟨⟨bases, hbases, hnodup, -⟩, hswapped⟩ := best_common_ancestors hgraph mergeNodes_acyclic
  refine ⟨hgraph, ⟨bases, hbases, hnodup⟩, ?_⟩
  exact hswapped (by decide +kernel)
    { kind := .alreadyMerged, bases := [rootOid 0x31], commits := 3 } (by decide +kernel)

/-- A commit is already merged into itself, on either side. -/
theorem same_commit_not_exchanged :
    ¬ ∀ (repo : Repository) (input : MergeBaseInput) (fuel : Nat) (nodes : GraphNodes)
        (selection : MergeBaseSelection),
      reachableGraphOwned repo input fuel = some (.ok nodes) → Acyclic nodes →
        selectMergeBases repo input fuel = some (.ok selection) →
          selectMergeBases repo input.swapped fuel = some (.ok selection.swapped) := by
  intro h
  have hgraph : reachableGraphOwned mergeRepo (inputOf (rootOid 0x31) (rootOid 0x31)) 10 =
      some (.ok [(rootOid 0x31, { commit := Commits.commitWith [], sides := both })]) := by
    decide +kernel
  have hacyclic : Acyclic [(rootOid 0x31, { commit := Commits.commitWith [], sides := both })] := by
    intro oid hcycle
    obtain ⟨_, hfirst, -⟩ := Relation.TransGen.head'_iff.1 hcycle
    have hoid := mem_of_parent hfirst.1
    rw [oidsOf, List.map_singleton, mem_singleton] at hoid
    have hparent := hfirst.1
    rw [hoid] at hparent
    exact absurd hparent (by
      have hnone : parentsAt [(rootOid 0x31, { commit := Commits.commitWith [], sides := both })]
        (rootOid 0x31) = [] := by decide +kernel
      rw [hnone]
      exact not_mem_nil)
  have hswapped := h mergeRepo _ 10 _
    { kind := .alreadyMerged, bases := [rootOid 0x31], commits := 1 } hgraph hacyclic
    (by decide +kernel)
  exact absurd hswapped (by decide +kernel)

end Kompjutr.Merge
