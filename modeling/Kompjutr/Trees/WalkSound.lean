/-
  Kompjutr.Trees.WalkSound

  What `iterateTreeDiffObjects` yields: objects of the tree after, and all of them that the
  tree before does not have.

  Every row of the walk pairs an entry of one tree with the entry of the other at its path.
  A path of the tree after is walked as far as the trees differ; where they meet, the rest of
  the path is in the tree before.
-/
import Kompjutr.Trees.Walk

namespace Kompjutr.Trees

open Objects (Text ObjectType)
open Fuel (bind_eq_ok map_eq_ok mapM_mem mapM_answer)
open Option (any_some bind_eq_some_iff bind_some map_eq_some_iff)

variable {last : TreeTable} {oid : Text} {source : TreeSource} {fixed : Int}

variable {side : Option Side} {fuel : Nat} {entry : TreeEntry} {row : WalkRow} {name : List UInt8}
  {before : Option Text} {after : Text} {rows : List WalkRow}

variable {readTree : TreeReader} {table : TreeTable}

-- Parsed trees

/-- Complete rows are the trees that were parsed. -/
def Projected (readTree : TreeReader) (table : TreeTable) : Prop :=
  ∀ oid source, table oid = some source → source.complete = true → readTree oid = .ok source

/-- What a path through parsed trees reaches, gitlinks included. -/
inductive InTree (readTree : TreeReader) (root : Text) : Side → Prop
  | root : InTree readTree root { mode := .tree, oid := root }
  | entry {side : Side} {source : TreeSource} {entry : TreeEntry} (hside : InTree readTree root side)
      (htree : isTreeMode side.mode = true) (hsource : readTree side.oid = .ok source)
      (hentry : entry ∈ source.entries) : InTree readTree root (sideOf entry)

/-- The object of a side; a gitlink has none. -/
def objectAt (side : Side) : Option (Text × ObjectType) :=
  if side.mode = .gitlink then none
  else some (side.oid, if isTreeMode side.mode then .tree else .blob)

/-- The object is reached from the tree. -/
def TreeObject (readTree : TreeReader) (root : Text) (object : Text × ObjectType) : Prop :=
  ∃ side, InTree readTree root side ∧ objectAt side = some object

theorem objectAt_tree {side : Side} (h : isTreeMode side.mode = true) :
    objectAt side = some (side.oid, .tree) := by
  have hnot : side.mode ≠ .gitlink := by
    intro heq
    rw [heq] at h
    cases h
  rw [objectAt, if_neg hnot, if_pos h]

/-- A side with the object of a tree is that tree. -/
theorem tree_of_objectAt {side other : Side} (h : isTreeMode side.mode = true)
    (heq : objectAt other = objectAt side) : isTreeMode other.mode = true ∧ other.oid = side.oid := by
  rw [objectAt_tree h] at heq
  unfold objectAt at heq
  split at heq
  · cases heq
  obtain ⟨hoid, htype⟩ := Prod.mk.inj (Option.some.inj heq)
  refine ⟨?_, hoid⟩
  by_contra hnot
  rw [if_neg hnot] at htype
  cases htype

theorem insertSource_projected {row : Text × TreeSource} (h : Projected readTree table)
    (hrow : readTree row.1 = .ok row.2) : Projected readTree (insertSource table row) := by
  intro oid source hsource hcomplete
  unfold insertSource at hsource
  split at hsource
  · next heq =>
    rw [heq, ← Option.some.inj hsource]
    exact hrow
  · exact h oid source hsource hcomplete

theorem projectLevels_projected {queued level : List Text} (h : Projected readTree table)
    (hrun : projectLevels readTree fuel queued level table = some (.ok last)) :
    Projected readTree last := by
  induction fuel generalizing queued level table with
  | zero =>
    cases level with
    | nil =>
      rw [← Except.ok.inj (Option.some.inj hrun)]
      exact h
    | cons oid level => cases hrun
  | succ fuel ih =>
    cases level with
    | nil =>
      rw [← Except.ok.inj (Option.some.inj hrun)]
      exact h
    | cons oid level =>
      unfold projectLevels at hrun
      dsimp only at hrun
      split at hrun
      · cases hrun
      next sources hsources =>
      refine ih ?_ hrun
      have hread : ∀ row ∈ sources, readTree row.1 = .ok row.2 := by
        intro row hrow
        obtain ⟨oid, -, hanswer⟩ := mapM_mem hsources hrow
        obtain ⟨source, hsource, rfl⟩ := map_eq_ok.1 hanswer
        exact hsource
      clear hsources hrun
      induction sources generalizing table with
      | nil => exact h
      | cons row sources ihs =>
        exact ihs (insertSource_projected h (hread row List.mem_cons_self))
          fun other hother => hread other (List.mem_cons_of_mem _ hother)

-- Rows

/-- The trees that a looked-up row expands have complete rows. -/
def Sourced (table : TreeTable) (row : WalkRow) : Prop :=
  row.error = none → row.errorCode = .corrupt → sameTree row.before row.after = false →
    ∀ oid, treeOf row.before = some oid ∨ treeOf row.after = some oid →
      completeSource table oid = true

/-- What holds of every row of a walk from `before` to `after`. -/
structure Walked (readTree : TreeReader) (table : TreeTable) (before : Option Text) (after : Text)
    (row : WalkRow) : Prop where
  before_mem : ∀ side, row.before = some side → ∃ root, before = some root ∧
    InTree readTree root side
  after_mem : ∀ side, row.after = some side → InTree readTree after side
  tooBig : row.errorCode = .tooBig → row.error.isSome = true
  sourced : Sourced table row

theorem treeOf_eq_some : treeOf side = some oid ↔
      ∃ found, side = some found ∧ isTreeMode found.mode = true ∧ found.oid = oid := by
  unfold treeOf
  cases side with
  | none => simp
  | some side => simp

theorem isTree_eq_true :
    isTree side = true ↔ ∃ found, side = some found ∧ isTreeMode found.mode = true := by
  unfold isTree
  cases side with
  | none => simp
  | some side => simp

theorem treeOf_of_not_isTree (h : isTree side = false) : treeOf side = none := by
  cases side with
  | none => rfl
  | some side =>
    rw [isTree, any_some] at h
    rw [treeOf, bind_some, if_neg (by rw [h]; exact Bool.false_ne_true)]

theorem completeSource_eq_true : completeSource table oid = true ↔
      ∃ source, table oid = some source ∧ source.complete = true := by
  unfold completeSource
  cases table oid with
  | none => simp
  | some source => simp

/-- The entries of a complete tree of a row are reached from where the tree is. -/
theorem inTree_entry {root : Text}
    (hprojected : Projected readTree table) (hsource : sourceOf table side = some source)
    (hcomplete : ∀ oid, treeOf side = some oid → completeSource table oid = true)
    (hside : ∀ found, side = some found → InTree readTree root found)
    (hentry : entry ∈ source.entries) : InTree readTree root (sideOf entry) := by
  obtain ⟨oid, hoid, htable⟩ := bind_eq_some_iff.1 hsource
  obtain ⟨found, hfound, htree, rfl⟩ := treeOf_eq_some.1 hoid
  have hdone := hcomplete found.oid hoid
  rw [completeSource, htable, any_some] at hdone
  exact .entry (hside found hfound) htree (hprojected _ _ htable hdone) hentry

theorem lookedUp_sides (table : TreeTable) (row : WalkRow) :
    (lookedUp table row).before = row.before ∧ (lookedUp table row).after = row.after ∧
      (lookedUp table row).errorCode = .corrupt := by
  unfold lookedUp
  split <;> exact ⟨rfl, rfl, rfl⟩

theorem lookedUp_sourced (table : TreeTable) (row : WalkRow) : Sourced table (lookedUp table row) := by
  intro herror _ hsame oid hoid
  obtain ⟨hbefore, hafter, -⟩ := lookedUp_sides table row
  rw [hbefore, hafter] at hsame hoid
  unfold lookedUp at herror
  split at herror
  · next hnone =>
    have hfailing := Option.or_eq_none_iff.1 hnone
    have hpassed : ∀ side, failing table row side = none → treeOf side = some oid →
        completeSource table oid = true := by
      intro side hside htree
      unfold failing at hside
      rw [hsame, if_neg Bool.false_ne_true, htree] at hside
      by_contra hnot
      rw [Bool.not_eq_true] at hnot
      simp [hnot] at hside
    rcases hoid with hoid | hoid
    · exact hpassed _ hfailing.1 hoid
    · exact hpassed _ hfailing.2 hoid
  · cases herror

/-- The code of a child says what is left to do for it. -/
theorem childCode_sourced {child : WalkRow}
    (hcode : child.errorCode = childCode row name fixed child.before child.after) :
    Sourced table child := by
  intro _ hcorrupt hsame oid hoid
  rw [hcorrupt] at hcode
  unfold childCode at hcode
  split at hcode
  · cases hcode
  split at hcode
  · cases hcode
  next hnot =>
  rw [hsame, Bool.not_false, Bool.and_true, Bool.or_eq_true, not_or] at hnot
  rcases hoid with hoid | hoid
  · rw [treeOf_of_not_isTree (by simpa using hnot.1)] at hoid
    cases hoid
  · rw [treeOf_of_not_isTree (by simpa using hnot.2)] at hoid
    cases hoid

theorem childCode_tooBig
    {before after : Option Side} (h : childCode row name fixed before after = .tooBig) :
    childTooBig row name fixed = true := by
  unfold childCode at h
  split at h
  · next hbig => exact hbig
  · split at h <;> cases h

-- Entries

theorem mem_named {source : Option TreeSource} :
    entry ∈ named source name ↔ ∃ found, source = some found ∧ entry ∈ found.entries ∧
      entry.nameBytes = name ∧ entry.nameBytes.length ≤ treeWalkPathBytes := by
  unfold named
  cases source with
  | none => simp
  | some source => simp [List.mem_filter]

/-- Which rows an expanded row adds. -/
inductive EntryRow (table : TreeTable) (row : WalkRow) : WalkRow → Prop
  | queue : EntryRow table row (queueError row)
  | before {source : TreeSource} {entry : TreeEntry} (hsource : sourceOf table row.before = some source)
      (hentry : entry ∈ source.entries) (hnone : named (sourceOf table row.after) entry.nameBytes = []) :
      EntryRow table row (beforeChild row source (sourceOf table row.after) entry none)
  | both {source : TreeSource} {entry other : TreeEntry}
      (hsource : sourceOf table row.before = some source) (hentry : entry ∈ source.entries)
      (hother : other ∈ named (sourceOf table row.after) entry.nameBytes) :
      EntryRow table row (beforeChild row source (sourceOf table row.after) entry (some other))
  | after {source : TreeSource} {entry : TreeEntry} (hsource : sourceOf table row.after = some source)
      (hentry : entry ∈ source.entries)
      (hnone : named (sourceOf table row.before) entry.nameBytes = []) :
      EntryRow table row (afterChild row source (sourceOf table row.before) entry)

theorem entryRow_of_mem {child : WalkRow} (h : child ∈ entryRows table row) :
    EntryRow table row child := by
  unfold entryRows at h
  dsimp only at h
  split at h
  · rw [List.mem_singleton.1 h]
    exact .queue
  rcases List.mem_append.1 h with h | h
  · split at h
    · nomatch h
    next source hsource =>
    obtain ⟨entry, hentry, h⟩ := List.mem_flatMap.1 h
    split at h
    · next hnone =>
      rw [List.mem_singleton.1 h]
      exact .before hsource hentry hnone
    · obtain ⟨other, hother, rfl⟩ := List.mem_map.1 h
      exact .both hsource hentry hother
  · split at h
    · nomatch h
    next source hsource =>
    obtain ⟨entry, hentry, rfl⟩ := List.mem_map.1 h
    obtain ⟨hentry, hnone⟩ := List.mem_filter.1 hentry
    exact .after hsource hentry (of_decide_eq_true hnone)

/-- Every entry of the tree after has a row, unless they do not fit into the queue. -/
theorem exists_entryRow
    (hsource : sourceOf table row.after = some source) (hentry : entry ∈ source.entries)
    (hfits : queueError row ∉ entryRows table row) :
    ∃ child ∈ entryRows table row, child.after = some (sideOf entry) := by
  unfold entryRows at hfits ⊢
  dsimp only at hfits ⊢
  by_cases hqueue : treeWalkQueueBytes < row.reservedBytes +
      optionalCost row (sourceOf table row.before) + optionalCost row (sourceOf table row.after)
  · rw [if_pos hqueue] at hfits
    exact absurd (List.mem_singleton_self _) hfits
  rw [if_neg hqueue]
  cases hnamed : named (sourceOf table row.before) entry.nameBytes with
  | nil =>
    refine ⟨afterChild row source (sourceOf table row.before) entry, List.mem_append_right _ ?_, rfl⟩
    rw [hsource]
    exact List.mem_map.2 ⟨entry, List.mem_filter.2 ⟨hentry, decide_eq_true hnamed⟩, rfl⟩
  | cons other others =>
    have hother : other ∈ named (sourceOf table row.before) entry.nameBytes := by
      rw [hnamed]
      exact List.mem_cons_self
    obtain ⟨found, hfound, hmem, hname, hlength⟩ := mem_named.1 hother
    -- the entry has the name of an entry before, so it is found from there
    have hback : entry ∈ named (sourceOf table row.after) other.nameBytes :=
      mem_named.2 ⟨source, hsource, hentry, hname.symm, hname ▸ hlength⟩
    refine ⟨beforeChild row found (sourceOf table row.after) other (some entry),
      List.mem_append_left _ ?_, rfl⟩
    rw [hfound]
    refine List.mem_flatMap.2 ⟨other, hmem, ?_⟩
    split
    · next hnone =>
      rw [hnone] at hback
      nomatch hback
    · exact List.mem_map.2 ⟨entry, hback, rfl⟩

theorem Walked.child {child : WalkRow}
    (hprojected : Projected readTree table) (h : Walked readTree table before after row)
    (hready : row.error = none ∧ row.errorCode = .corrupt ∧
      sameTree row.before row.after = false)
    (hchild : EntryRow table row child) : Walked readTree table before after child := by
  obtain ⟨herror, hcode, hsame⟩ := hready
  have hcomplete := h.sourced herror hcode hsame
  have hbefore : ∀ {source entry}, sourceOf table row.before = some source →
      entry ∈ source.entries → ∃ root, before = some root ∧
        InTree readTree root (sideOf entry) := by
    intro source entry hsource hentry
    obtain ⟨oid, hoid, htable⟩ := bind_eq_some_iff.1 hsource
    obtain ⟨found, hfound, -, -⟩ := treeOf_eq_some.1 hoid
    obtain ⟨root, hroot, -⟩ := h.before_mem found hfound
    refine ⟨root, hroot, inTree_entry hprojected hsource (fun oid hoid => hcomplete oid (.inl hoid))
      (fun side hside => ?_) hentry⟩
    obtain ⟨other, hother, hmem⟩ := h.before_mem side hside
    rw [hroot] at hother
    rw [Option.some.inj hother]
    exact hmem
  have hafter : ∀ {source entry}, sourceOf table row.after = some source →
      entry ∈ source.entries → InTree readTree after (sideOf entry) := by
    intro source entry hsource hentry
    exact inTree_entry hprojected hsource (fun oid hoid => hcomplete oid (.inr hoid))
      h.after_mem hentry
  have hbig : ∀ {name fixed before after} {rest : Option String},
      childCode row name fixed before after = .tooBig →
        (if childTooBig row name fixed then some pathError else rest).isSome = true := by
    intro name fixed before after rest hcode
    rw [if_pos (childCode_tooBig hcode)]
    rfl
  cases hchild with
  | queue =>
    exact { before_mem := h.before_mem, after_mem := h.after_mem, tooBig := fun _ => rfl
            sourced := fun herror => nomatch herror }
  | @before source entry hsource hentry _ =>
    refine { before_mem := ?_, after_mem := ?_, tooBig := hbig, sourced := childCode_sourced rfl }
    · rintro side ⟨⟩
      exact hbefore hsource hentry
    · rintro side ⟨⟩
  | @both source entry other hsource hentry hother =>
    refine { before_mem := ?_, after_mem := ?_, tooBig := hbig, sourced := childCode_sourced rfl }
    · rintro side ⟨⟩
      exact hbefore hsource hentry
    · rintro side ⟨⟩
      obtain ⟨found, hfound, hmem, -⟩ := mem_named.1 hother
      exact hafter hfound hmem
  | @after source entry hsource hentry _ =>
    refine { before_mem := ?_, after_mem := ?_, tooBig := hbig, sourced := childCode_sourced rfl }
    · rintro side ⟨⟩
    · rintro side ⟨⟩
      exact hafter hsource hentry

theorem Walked.next {before : Option Text} {after : Text} {row child : WalkRow}
    (hprojected : Projected readTree table) (h : Walked readTree table before after row)
    (hchild : child ∈ nextRows table row) : Walked readTree table before after child := by
  unfold nextRows at hchild
  split at hchild
  · rw [List.mem_singleton.1 hchild]
    obtain ⟨hbefore, hafter, hcode⟩ := lookedUp_sides table row
    exact { before_mem := by rw [hbefore]; exact h.before_mem
            after_mem := by rw [hafter]; exact h.after_mem
            tooBig := fun hbig => by rw [hcode] at hbig; cases hbig
            sourced := lookedUp_sourced table row }
  · next herror hcode =>
    split at hchild
    · next hexpands =>
      rw [Bool.and_eq_true, Bool.not_eq_true'] at hexpands
      exact h.child hprojected ⟨herror, hcode, hexpands.2⟩ (entryRow_of_mem hchild)
    · nomatch hchild
  · nomatch hchild

-- Walks

theorem walked_root
    (h : row ∈ rootRows before (some after)) : Walked readTree table before after row := by
  unfold rootRows at h
  split at h
  · nomatch h
  rw [List.mem_singleton.1 h]
  refine { before_mem := ?_, after_mem := ?_, tooBig := ?_, sourced := ?_ }
  · intro side hside
    obtain ⟨root, hroot, rfl⟩ := map_eq_some_iff.1 hside
    exact ⟨root, hroot, .root⟩
  · rintro side ⟨⟩
    exact .root
  · intro hbig
    dsimp only at hbig
    split at hbig <;> cases hbig
  · intro herror hcode
    dsimp only at herror hcode
    split at herror
    · cases herror
    · next hvalid =>
      rw [if_neg hvalid] at hcode
      cases hcode

/-- The rows of a walk in which none is an error. -/
structure Passed (table : TreeTable) (before : Option Text) (after : Text) (rows : List WalkRow) :
    Prop where
  start : ∀ row ∈ rootRows before (some after), row ∈ rows
  closed : ∀ row ∈ rows, ∀ child ∈ nextRows table row, child ∈ rows
  error : ∀ row ∈ rows, row.error = none

/-- The walk came to the side, or found its object in the tree before. -/
def Covered (readTree : TreeReader) (before : Option Text) (rows : List WalkRow) (side : Side) :
    Prop :=
  (∃ row ∈ rows, row.errorCode = .corrupt ∧ row.after = some side) ∨
    ∃ root other, before = some root ∧ InTree readTree root other ∧ objectAt other = objectAt side

theorem sameTree_eq_true {before after : Option Side} :
    sameTree before after = true ↔ ∃ left right, before = some left ∧ after = some right ∧
      isTreeMode left.mode = true ∧ isTreeMode right.mode = true ∧ left.oid = right.oid := by
  unfold sameTree
  simp only [Bool.and_eq_true, isTree_eq_true, decide_eq_true_eq]
  constructor
  · rintro ⟨⟨⟨left, rfl, hleft⟩, right, rfl, hright⟩, heq⟩
    exact ⟨left, right, rfl, rfl, hleft, hright, Option.some.inj heq⟩
  · rintro ⟨left, right, rfl, rfl, hleft, hright, heq⟩
    exact ⟨⟨⟨left, rfl, hleft⟩, right, rfl, hright⟩, congrArg some heq⟩

/-- A row that was walked becomes ready. -/
theorem Passed.ready (h : Passed table before after rows)
    (hwalked : ∀ row ∈ rows, Walked readTree table before after row)
    (hrow : row ∈ rows) : ∃ ready ∈ rows, ready.errorCode = .corrupt ∧ ready.after = row.after := by
  have herror := h.error row hrow
  cases hcode : row.errorCode with
  | corrupt => exact ⟨row, hrow, hcode, rfl⟩
  | tooBig =>
    have hsome := (hwalked row hrow).tooBig hcode
    rw [herror] at hsome
    cases hsome
  | pending =>
    have hnext : lookedUp table row ∈ nextRows table row := by
      unfold nextRows
      rw [herror, hcode]
      exact List.mem_singleton_self _
    obtain ⟨-, hafter, hready⟩ := lookedUp_sides table row
    exact ⟨lookedUp table row, h.closed row hrow _ hnext, hready, hafter⟩

/-- Every path of the tree after is covered, by induction on the path. -/
theorem Passed.covered (h : Passed table before after rows) (hprojected : Projected readTree table)
    (hwalked : ∀ row ∈ rows, Walked readTree table before after row)
    (hne : before ≠ some after) {side : Side} (hside : InTree readTree after side) :
    Covered readTree before rows side := by
  induction hside with
  | root =>
    obtain ⟨row, hrow, hafter⟩ : ∃ row ∈ rootRows before (some after),
        row.after = some { mode := .tree, oid := after } := by
      unfold rootRows
      rw [if_neg hne]
      exact ⟨_, List.mem_singleton_self _, rfl⟩
    obtain ⟨ready, hready, hcode, hsame⟩ := h.ready hwalked (h.start row hrow)
    exact .inl ⟨ready, hready, hcode, hsame.trans hafter⟩
  | @entry side source entry hside htree hsource hentry ih =>
    rcases ih with ⟨row, hrow, hcode, hafter⟩ | ⟨root, other, hroot, hother, hobject⟩
    · have hrowWalked := hwalked row hrow
      have hafterTree : treeOf row.after = some side.oid := treeOf_eq_some.2 ⟨side, hafter, htree, rfl⟩
      by_cases hsame : sameTree row.before row.after = true
      · obtain ⟨left, right, hleft, hright, hleftTree, -, hoid⟩ := sameTree_eq_true.1 hsame
        rw [hafter] at hright
        rw [← Option.some.inj hright] at hoid
        obtain ⟨root, hroot, hmem⟩ := hrowWalked.before_mem left hleft
        rw [← hoid] at hsource
        exact .inr ⟨root, sideOf entry, hroot, .entry hmem hleftTree hsource hentry, rfl⟩
      · rw [Bool.not_eq_true] at hsame
        have herror := h.error row hrow
        have hcomplete := hrowWalked.sourced herror hcode hsame side.oid (.inr hafterTree)
        obtain ⟨found, hfound, hdone⟩ := completeSource_eq_true.1 hcomplete
        have hfoundSource := hprojected _ _ hfound hdone
        rw [hsource] at hfoundSource
        have hat : sourceOf table row.after = some source := by
          rw [sourceOf, hafterTree, bind_some, hfound, Except.ok.inj hfoundSource]
        have hnext : nextRows table row = entryRows table row := by
          have hexpands : (isTree row.before || isTree row.after) = true := by
            rw [Bool.or_eq_true]
            exact .inr (isTree_eq_true.2 ⟨side, hafter, htree⟩)
          unfold nextRows
          rw [herror, hcode]
          dsimp only
          rw [hexpands, hsame, Bool.not_false, Bool.and_self, if_pos rfl]
        have hfits : queueError row ∉ entryRows table row := by
          intro hqueue
          have hnone := h.error _ (h.closed row hrow _ (hnext ▸ hqueue))
          cases hnone
        obtain ⟨child, hchild, hchildAfter⟩ := exists_entryRow hat hentry hfits
        obtain ⟨ready, hready, hreadyCode, hreadyAfter⟩ :=
          h.ready hwalked (h.closed row hrow child (hnext ▸ hchild))
        exact .inl ⟨ready, hready, hreadyCode, hreadyAfter.trans hchildAfter⟩
    · obtain ⟨hotherTree, hoid⟩ := tree_of_objectAt htree hobject
      rw [← hoid] at hsource
      exact .inr ⟨root, sideOf entry, hroot, .entry hother hotherTree hsource hentry, rfl⟩

-- Objects

theorem objectOf_ok {object : Option (Text × ObjectType)}
    (h : objectOf row = .ok object) : row.error = none ∧ object = row.after.bind objectAt := by
  unfold objectOf at h
  obtain ⟨⟨⟩, hthrow, rfl⟩ := map_eq_ok.1 h
  constructor
  · unfold throwTraversalError at hthrow
    split at hthrow
    · next herror => exact herror
    · split at hthrow
      · cases hthrow
      · split at hthrow <;> cases hthrow
  · cases row.after with
    | none => rfl
    | some side => rfl

/-- A ready row whose sides differ in their objects is answered. -/
theorem answered_of_ready {side : Side} (hcode : row.errorCode = .corrupt)
    (hafter : row.after = some side)
    (hdiffer : ∀ other, row.before = some other → objectAt other ≠ objectAt side) :
    answered true row = true := by
  have hready : decide (row.errorCode ≠ .pending) = true := by
    rw [hcode]
    rfl
  unfold answered
  rw [hready, Bool.true_and, Bool.or_eq_true]
  right
  rw [Bool.or_eq_true]
  by_cases htree : isTreeMode side.mode = true
  · right
    have hsame : sameTree row.before row.after = false := by
      rw [← Bool.not_eq_true]
      intro hsame
      obtain ⟨left, right, hleft, hright, hleftTree, hrightTree, hoid⟩ := sameTree_eq_true.1 hsame
      rw [hafter] at hright
      cases hright
      refine hdiffer left hleft ?_
      rw [objectAt_tree hleftTree, objectAt_tree hrightTree, hoid]
    rw [hsame, isTree_eq_true.2 ⟨side, hafter, htree⟩]
    rfl
  · left
    rw [Bool.and_eq_true, Bool.or_eq_true, decide_eq_true_eq, hafter]
    refine ⟨.inr (by simpa using htree), fun heq => ?_⟩
    exact hdiffer side heq rfl

/-- What one run of the statement answers. -/
theorem walkTreeDiffRows_objects {objects : List (Option (Text × ObjectType))}
    (hprojected : Projected readTree table) (hne : before ≠ some after)
    (hrows : walkTreeDiffRows table before (some after) true fuel = some rows)
    (hobjects : rows.mapM objectOf = .ok objects) :
    (∀ object ∈ objects.reduceOption, TreeObject readTree after object) ∧
      ∀ object, TreeObject readTree after object → object ∈ objects.reduceOption ∨
        ∃ root, before = some root ∧ TreeObject readTree root object := by
  unfold walkTreeDiffRows at hrows
  obtain ⟨all, hall, rfl⟩ := map_eq_some_iff.1 hrows
  obtain ⟨hstart, hclosed⟩ := UnionAll.rows_closed hall
  have hwalked : ∀ row ∈ all, Walked readTree table before after row :=
    UnionAll.rows_induction hall (fun row hrow => walked_root hrow)
      fun row hrow child hchild => hrow.next hprojected hchild
  have hmem : ∀ row, row ∈ (all.filter (answered true)).mergeSort answersBefore ↔
      row ∈ all ∧ answered true row = true := by
    intro row
    rw [(List.mergeSort_perm _ _).mem_iff, List.mem_filter]
  have hpassed : Passed table before after all := by
    refine { start := hstart, closed := hclosed, error := fun row hrow => ?_ }
    by_contra herror
    have hanswered : answered true row = true := by
      unfold answered
      rw [Option.isSome_iff_ne_none.2 herror, Bool.true_or]
    obtain ⟨object, -, hobject⟩ := mapM_answer hobjects ((hmem row).2 ⟨hrow, hanswered⟩)
    exact herror (objectOf_ok hobject).1
  constructor
  · intro object hobject
    obtain ⟨row, hrow, hanswer⟩ := mapM_mem hobjects (List.reduceOption_mem_iff.1 hobject)
    obtain ⟨side, hside, hat⟩ := bind_eq_some_iff.1 (objectOf_ok hanswer).2.symm
    exact ⟨side, (hwalked row ((hmem row).1 hrow).1).after_mem side hside, hat⟩
  · rintro object ⟨side, hside, hat⟩
    rcases hpassed.covered hprojected hwalked hne hside with
      ⟨row, hrow, hcode, hafter⟩ | ⟨root, other, hroot, hother, hsame⟩
    · by_cases hdiffer : ∀ other, row.before = some other → objectAt other ≠ objectAt side
      · have hanswered := answered_of_ready hcode hafter hdiffer
        obtain ⟨answer, hanswer, hobject⟩ := mapM_answer hobjects ((hmem row).2 ⟨hrow, hanswered⟩)
        rw [(objectOf_ok hobject).2, hafter, bind_some, hat] at hanswer
        exact .inl (List.reduceOption_mem_iff.2 hanswer)
      · rw [not_forall] at hdiffer
        obtain ⟨other, hdiffer⟩ := hdiffer
        rw [Classical.not_imp, not_not] at hdiffer
        obtain ⟨root, hroot, hother⟩ := (hwalked row hrow).before_mem other hdiffer.1
        exact .inr ⟨root, hroot, other, hother, hdiffer.2.trans hat⟩
    · exact .inr ⟨root, hroot, other, hother, hsame.trans hat⟩

/-- The objects of a transition are those of the tree after, at least all that the tree before
    does not have. -/
theorem iterateTreeDiffObjects_ok
    {objects : List (Text × ObjectType)} (hprojected : Projected readTree table)
    (h : iterateTreeDiffObjects readTree table before after fuel = some (.ok (objects, last))) :
    Projected readTree last ∧ (∀ object ∈ objects, TreeObject readTree after object) ∧
      ∀ object, TreeObject readTree after object → object ∈ objects ∨
        ∃ root, before = some root ∧ TreeObject readTree root object := by
  unfold iterateTreeDiffObjects at h
  split at h
  · next hsame =>
    obtain ⟨rfl, rfl⟩ := Prod.mk.inj (Except.ok.inj (Option.some.inj h))
    exact ⟨hprojected, nofun,
      fun object hobject => .inr ⟨after, hsame, hobject⟩⟩
  next hne =>
  obtain ⟨walked, hwalked, hobjects⟩ := map_eq_some_iff.1 h
  obtain ⟨⟨rows, grown⟩, rfl, hobjects⟩ := bind_eq_ok.1 hobjects
  obtain ⟨answers, hanswers, heq⟩ := map_eq_ok.1 hobjects
  obtain ⟨rfl, rfl⟩ := Prod.mk.inj heq
  unfold projectedWalk at hwalked
  obtain ⟨firstRows, hfirst, hwalked⟩ := bind_eq_some_iff.1 hwalked
  split at hwalked
  · obtain ⟨closed, hclosed, hwalked⟩ := bind_eq_some_iff.1 hwalked
    cases closed with
    | error error => cases hwalked
    | ok closed =>
      obtain ⟨secondRows, hsecond, hwalked⟩ := map_eq_some_iff.1 hwalked
      cases hwalked
      have hgrown := projectLevels_projected hprojected hclosed
      exact ⟨hgrown, walkTreeDiffRows_objects hgrown hne hsecond hanswers⟩
  · obtain ⟨rfl, rfl⟩ := Prod.mk.inj (Except.ok.inj (Option.some.inj hwalked))
    exact ⟨hprojected, walkTreeDiffRows_objects hprojected hne hfirst hanswers⟩

end Kompjutr.Trees
