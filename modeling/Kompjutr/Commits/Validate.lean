/-
  Kompjutr.Commits.Validate

  The depth-first search of `validateCommitGraph` refuses no acyclic history, and the two
  walks agree on every history within their limits.

  The search keeps its stack a path of parents, so a parent that is still being visited
  would close a cycle.  It ends because a turn either opens a commit that was not open or
  done, or leaves fewer parents to look at.
-/
import Kompjutr.Commits.WalkAgree
import Mathlib.Data.Prod.Lex
import Mathlib.Order.WellFounded

namespace Kompjutr.Commits

open Objects (Text text isOid Commit)
open Trees (CommitCacheEntry completeCommit)
open RecursiveUnion (Reaches fresh)
open List (map_cons mem_append mem_cons not_mem_nil sum_cons)

variable {above : Option Text} {entries : List CommitCacheEntry} {fuel : Nat}

variable {store : CommitStore} {visited history : List Text} {stack : List Frame}
  {root parent : Text} {frame : Frame}

/-- No commit is its own ancestor. -/
def Acyclic (store : CommitStore) (root : Text) : Prop :=
  ∀ oid, Reaches (parentsWithin store) root oid →
    ¬ Relation.TransGen (fun a b => b ∈ parentsWithin store a) oid oid

/-- The parents that a frame has looked at are done, or open right above it. -/
def Looked (store : CommitStore) (visited : List Text) : Option Text → List Frame → Prop
  | _, [] => True
  | above, frame :: stack =>
    (∀ parent ∈ (parentsWithin store frame.oid).take frame.parent,
      parent ∈ visited ∨ some parent = above) ∧ Looked store visited (some frame.oid) stack

theorem Looked.mono {more : List Text} (hmore : ∀ oid ∈ visited, oid ∈ more)
    (h : Looked store visited above stack) : Looked store more above stack := by
  induction stack generalizing above with
  | nil => exact h
  | cons frame stack ih =>
    exact ⟨fun parent hparent => (h.1 parent hparent).imp_left (hmore parent), ih h.2⟩

/-- The state of the search between two turns. -/
structure Searching (store : CommitStore) (root : Text) (stack : List Frame)
    (visited : List Text) : Prop where
  path : (stack.map Frame.oid).IsChain fun above below => above ∈ parentsWithin store below
  reaches : ∀ oid ∈ stack.map Frame.oid ++ visited, Reaches (parentsWithin store) root oid
  nodup : (stack.map Frame.oid ++ visited).Nodup
  closed : ∀ oid ∈ visited, ∀ parent ∈ parentsWithin store oid, parent ∈ visited
  looked : Looked store visited none stack
  root_mem : root ∈ stack.map Frame.oid ++ visited

/-- Every open commit is a descendant of the one on top. -/
theorem descends {top : Text} {below : List Text}
    (h : (top :: below).IsChain fun above below => above ∈ parentsWithin store below) :
    ∀ oid ∈ top :: below, Relation.ReflTransGen (fun a b => b ∈ parentsWithin store a) oid top := by
  induction below generalizing top with
  | nil =>
    intro oid hoid
    rw [List.mem_singleton.1 hoid]
  | cons next below ih =>
    obtain ⟨hstep, hrest⟩ := List.isChain_cons_cons.1 h
    intro oid hoid
    rcases mem_cons.1 hoid with rfl | hoid
    · exact .refl
    · exact (ih hrest oid hoid).tail hstep

-- Turns

theorem Searching.pop (h : Searching store root (frame :: stack) visited)
    (hend : (parentsWithin store frame.oid).length ≤ frame.parent) :
    Searching store root stack (visited ++ [frame.oid]) := by
  have hmem : ∀ oid, oid ∈ stack.map Frame.oid ++ (visited ++ [frame.oid]) ↔
      oid ∈ (frame :: stack).map Frame.oid ++ visited := by
    intro oid
    simp only [map_cons, mem_append, mem_cons, not_mem_nil, or_false]
    tauto
  have hmore : ∀ oid ∈ visited, oid ∈ visited ++ [frame.oid] :=
    fun oid hoid => List.mem_append_left _ hoid
  have hdone : ∀ parent ∈ parentsWithin store frame.oid, parent ∈ visited := by
    intro parent hparent
    rw [← List.take_of_length_le hend] at hparent
    exact (h.looked.1 parent hparent).resolve_right (by simp)
  refine { path := h.path.tail, reaches := fun oid hoid => h.reaches oid ((hmem oid).1 hoid)
           nodup := ?_, closed := ?_, looked := ?_, root_mem := (hmem root).2 h.root_mem }
  · have hperm : (stack.map Frame.oid ++ (visited ++ [frame.oid])).Perm
        ((frame :: stack).map Frame.oid ++ visited) := by
      rw [← List.append_assoc]
      exact List.perm_append_singleton _ _
    exact hperm.nodup_iff.2 h.nodup
  · intro oid hoid parent hparent
    rcases mem_append.1 hoid with hoid | hoid
    · exact hmore _ (h.closed oid hoid parent hparent)
    · rw [List.mem_singleton.1 hoid] at hparent
      exact hmore _ (hdone parent hparent)
  · -- the frame below looked at this commit, which is done now
    have hlooked := h.looked.2
    cases stack with
    | nil => trivial
    | cons below stack =>
      refine ⟨fun parent hparent => .inl ?_, hlooked.2.mono hmore⟩
      rcases hlooked.1 parent hparent with hvisited | habove
      · exact hmore _ hvisited
      · rw [Option.some.inj habove]
        exact List.mem_append_right _ (List.mem_singleton_self _)

/-- The next parent of the frame on top has been looked at. -/
theorem looked_next (h : Looked store visited none (frame :: stack))
    (hparent : (parentsWithin store frame.oid)[frame.parent]? = some parent)
    (hlooked : parent ∈ visited ∨ some parent = above) :
    Looked store visited above ({ frame with parent := frame.parent + 1 } :: stack) := by
  refine ⟨fun other hother => ?_, h.2⟩
  obtain ⟨hlt, hat⟩ := List.getElem?_eq_some_iff.1 hparent
  rw [List.take_add_one, hparent] at hother
  rcases mem_append.1 hother with hother | hother
  · exact .inl ((h.1 other hother).resolve_right (by simp))
  · have heq : other = parent := by simpa using hother
    rw [heq]
    exact hlooked

section

variable (h : Searching store root (frame :: stack) visited)
  (hparent : (parentsWithin store frame.oid)[frame.parent]? = some parent)

include h hparent

theorem Searching.skip (hvisited : parent ∈ visited) :
    Searching store root ({ frame with parent := frame.parent + 1 } :: stack) visited :=
  { h with looked := looked_next h.looked hparent (.inl hvisited) }

theorem Searching.push (hopen : parent ∉ (frame :: stack).map Frame.oid)
    (hvisited : parent ∉ visited) :
    Searching store root
      ({ oid := parent, parent := 0 } :: { frame with parent := frame.parent + 1 } :: stack)
      visited := by
  have hmem := List.mem_of_getElem? hparent
  have hframe : Reaches (parentsWithin store) root frame.oid :=
    h.reaches _ (List.mem_append_left _ List.mem_cons_self)
  refine { path := ?_, reaches := ?_, nodup := ?_, closed := h.closed, looked := ?_, root_mem := ?_ }
  · exact List.isChain_cons_cons.2 ⟨hmem, h.path⟩
  · intro oid hoid
    rcases mem_cons.1 hoid with rfl | hoid
    · exact hframe.tail hmem
    · exact h.reaches oid hoid
  · refine List.nodup_cons.2 ⟨fun hin => ?_, h.nodup⟩
    rcases mem_append.1 hin with hin | hin
    · exact hopen hin
    · exact hvisited hin
  · exact ⟨fun other hother => absurd hother (by simp), looked_next h.looked hparent (.inr rfl)⟩
  · exact List.mem_cons_of_mem _ h.root_mem

end

-- Runs

/-- The commits that are neither open nor done. -/
def unseen (history : List Text) (stack : List Frame) (visited : List Text) : Nat :=
  (history.filter fun oid => oid ∉ stack.map Frame.oid ++ visited).length

/-- The parents that the frames have still to look at, and the frames. -/
def work (store : CommitStore) (stack : List Frame) : Nat :=
  (stack.map fun frame => (parentsWithin store frame.oid).length - frame.parent + 1).sum

theorem unseen_congr {stack' : List Frame} {visited' : List Text}
    (h : ∀ oid, oid ∈ stack'.map Frame.oid ++ visited' ↔ oid ∈ stack.map Frame.oid ++ visited) :
    unseen history stack' visited' = unseen history stack visited := by
  unfold unseen
  simp only [h]

theorem unseen_lt (hmem : frame.oid ∈ history) (hnew : frame.oid ∉ stack.map Frame.oid ++ visited) :
    unseen history (frame :: stack) visited < unseen history stack visited := by
  unfold unseen
  have hsplit : (history.filter fun oid => oid ∉ (frame :: stack).map Frame.oid ++ visited) =
      (history.filter fun oid => oid ∉ stack.map Frame.oid ++ visited).filter
        fun oid => oid ≠ frame.oid := by
    rw [List.filter_filter]
    refine List.filter_congr fun oid _ => ?_
    simp only [map_cons, List.cons_append, mem_cons, not_or, Bool.decide_and, ne_eq]
  rw [hsplit]
  refine List.length_filter_lt_length_iff_exists.2 ⟨frame.oid, List.mem_filter.2 ⟨hmem, ?_⟩, ?_⟩
  · exact decide_eq_true hnew
  · simp

/-- The search ends with every commit done, by induction on what is unseen and then on the
    work that is left. -/
theorem validateLoop_ok
    (hentries : Preloaded store root entries) (hacyclic : Acyclic store root)
    (hhistory : ∀ oid, Reaches (parentsWithin store) root oid →
      oid ∈ history) (measure : Nat ×ₗ Nat)
    (hmeasure : measure = toLex (unseen history stack visited, work store stack))
    (h : Searching store root stack visited) :
    ∃ enough done, Searching store root [] done ∧ ∀ fuel, enough ≤ fuel →
      validateLoop entries store.shallow true fuel stack (stack.map Frame.oid) visited =
        some (.ok done) := by
  induction measure using WellFoundedLT.induction generalizing stack visited with
  | ind measure ih =>
    subst hmeasure
    cases stack with
    | nil =>
      refine ⟨1, visited, h, fun fuel hfuel => ?_⟩
      obtain ⟨fuel, rfl⟩ := Nat.exists_eq_succ_of_ne_zero (Nat.ne_zero_of_lt hfuel)
      rfl
    | cons frame stack =>
      have hreaches : Reaches (parentsWithin store) root frame.oid :=
        h.reaches _ (List.mem_append_left _ List.mem_cons_self)
      obtain ⟨entry, hentry⟩ := hentries.hasRows frame.oid hreaches
      have hat : entryAt entries frame.oid = some entry := by
        rw [hentries.entryAt_eq frame.oid hreaches, hentry]
      have hparents := parentsWithin_eq hentry
      cases hparent : (parentsWithin store frame.oid)[frame.parent]? with
      | none =>
        -- every parent is done
        have hnext := h.pop (List.getElem?_eq_none_iff.1 hparent)
        obtain ⟨enough, done, hdone, hrun⟩ := ih _ (by
          rw [Prod.Lex.toLex_lt_toLex]
          refine .inr ⟨unseen_congr fun oid => ?_, ?_⟩
          · simp only [map_cons, mem_append, mem_cons, not_mem_nil, or_false]
            tauto
          · unfold work
            rw [map_cons, sum_cons]
            omega) rfl hnext
        refine ⟨enough + 1, done, hdone, fun fuel hfuel => ?_⟩
        obtain ⟨fuel, rfl⟩ := Nat.exists_eq_succ_of_ne_zero (Nat.ne_zero_of_lt hfuel)
        rw [hparents] at hparent
        rw [validateLoop, hat]
        dsimp only
        rw [hparent, map_cons, List.erase_cons_head]
        exact hrun fuel (Nat.le_of_succ_le_succ hfuel)
      | some parent =>
        have hmem := List.mem_of_getElem? hparent
        have hreached : Reaches (parentsWithin store) root parent := hreaches.tail hmem
        obtain ⟨row, hrow⟩ := hentries.hasRows parent hreached
        have hfound : ¬ (entryAt entries parent).isNone = true := by
          rw [hentries.entryAt_eq parent hreached, hrow]
          exact Bool.false_ne_true
        have hopen : parent ∉ (frame :: stack).map Frame.oid := by
          -- an open parent would close a cycle
          intro hin
          have hpath := descends h.path parent hin
          exact hacyclic parent hreached (Relation.TransGen.tail' hpath hmem)
        obtain ⟨hlt, -⟩ := List.getElem?_eq_some_iff.1 hparent
        by_cases hvisited : parent ∈ visited
        · have hnext := h.skip hparent hvisited
          obtain ⟨enough, done, hdone, hrun⟩ := ih _ (by
            rw [Prod.Lex.toLex_lt_toLex]
            refine .inr ⟨unseen_congr fun oid => Iff.rfl, ?_⟩
            unfold work
            rw [map_cons, map_cons, sum_cons, sum_cons]
            dsimp only
            omega) rfl hnext
          refine ⟨enough + 1, done, hdone, fun fuel hfuel => ?_⟩
          obtain ⟨fuel, rfl⟩ := Nat.exists_eq_succ_of_ne_zero (Nat.ne_zero_of_lt hfuel)
          rw [hparents] at hparent
          rw [validateLoop, hat]
          dsimp only
          rw [hparent]
          dsimp only
          rw [if_neg hfound, if_neg hopen, if_pos hvisited]
          exact hrun fuel (Nat.le_of_succ_le_succ hfuel)
        · have hnext := h.push hparent hopen hvisited
          obtain ⟨enough, done, hdone, hrun⟩ := ih _ (by
            rw [Prod.Lex.toLex_lt_toLex]
            refine .inl (unseen_lt (hhistory parent hreached) ?_)
            exact fun hin => (mem_append.1 hin).elim hopen hvisited) rfl hnext
          refine ⟨enough + 1, done, hdone, fun fuel hfuel => ?_⟩
          obtain ⟨fuel, rfl⟩ := Nat.exists_eq_succ_of_ne_zero (Nat.ne_zero_of_lt hfuel)
          rw [hparents] at hparent
          rw [validateLoop, hat]
          dsimp only
          rw [hparent]
          dsimp only
          rw [if_neg hfound, if_neg hopen, if_neg hvisited]
          exact hrun fuel (Nat.le_of_succ_le_succ hfuel)

/-- An acyclic history passes. -/
theorem validateCommitGraph_ok (hentries : Preloaded store root entries)
    (hacyclic : Acyclic store root) :
    ∃ enough, ∀ fuel, enough ≤ fuel →
      validateCommitGraph root entries store.shallow true fuel = some (.ok ()) := by
  have hstart : Searching store root [{ oid := root, parent := 0 }] [] :=
    { path := List.isChain_singleton root
      reaches := fun oid hoid => by
        rw [show oid = root by simpa using hoid]
        exact .refl
      nodup := List.nodup_singleton root
      closed := fun oid hoid => nomatch hoid
      looked := ⟨fun parent hparent => absurd hparent (by simp), trivial⟩
      root_mem := List.mem_singleton_self root }
  obtain ⟨enough, done, hdone, hrun⟩ := validateLoop_ok hentries hacyclic
    (fun oid hoid => (hentries.mem_iff oid).2 hoid) _ rfl hstart
  have hmem : ∀ oid, oid ∈ done ↔ oid ∈ entries.map CommitCacheEntry.oid := by
    intro oid
    rw [hentries.mem_iff]
    constructor
    · exact hdone.reaches oid
    · intro hreaches
      induction hreaches with
      | refl => exact hdone.root_mem
      | tail _ hstep ih => exact hdone.closed _ ih _ hstep
  have hlength : done.length = entries.length := by
    have hnodup : done.Nodup := hdone.nodup
    rw [((List.perm_ext_iff_of_nodup hnodup hentries.nodup).2 hmem).length_eq, List.length_map]
  refine ⟨enough, fun fuel hfuel => ?_⟩
  have hloop := hrun fuel hfuel
  unfold validateCommitGraph
  rw [map_cons, List.map_nil] at hloop
  rw [hloop]
  simp [Except.bind, hlength]

-- Both walks

/-- The history of `root`: an acyclic graph whose commits all have a row that can be
    completed. -/
structure History (repo : WalkRepository) (oid root : Text) (history : List Text)
    (commitOf : Text → Commit) : Prop where
  peel : repo.peel oid = .ok root
  root_valid : requireCommitGraphRoot repo.store.repoId root = .ok ()
  nodup : history.Nodup
  mem_iff : ∀ oid, oid ∈ history ↔ Reaches (parentsWithin repo.store) root oid
  complete : Complete repo.store root commitOf
  acyclic : Acyclic repo.store root

/-- The history fits the walks: not too many commits, and not too much state. -/
def WithinLimits (store : CommitStore) (history : List Text) : Prop :=
  history.length ≤ maxLogCommits ∧
    ((history.filterMap store.cachedCommit).map graphBytes).sum ≤ commitGraphWalkBytes

/-- Every reachable commit once, and each the first of those that were discovered and not yet
    yielded. -/
structure CommitDateOrder (store : CommitStore) (root : Text) (oids : List Text) : Prop where
  nodup : oids.Nodup
  mem_iff : ∀ oid, oid ∈ oids ↔ Reaches (parentsWithin store) root oid
  first : ∀ yielded oid rest, oids = yielded ++ oid :: rest → First store root yielded oid

/-- The order in which a history is drained. -/
theorem drain_order (hrows : HasRows store root)
    (hhistory : ∀ oid, Reaches (parentsWithin store) root oid →
      oid ∈ history) (hfuel : history.length < fuel) :
    ∃ nodes, drain store fuel (discover store emptyWalk root) = some nodes ∧
      CommitDateOrder store root (nodes.map WalkNode.oid) := by
  have hbound : history.length < ([] : List Text).length + fuel := by
    rw [List.length_nil]
    omega
  obtain ⟨nodes, hdrain⟩ := (turn_start hrows).drains hrows hhistory hbound
  have hdrained := (turn_start hrows).drained hrows hdrain
  exact ⟨nodes, hdrain,
    { nodup := hdrained.nodup, mem_iff := hdrained.mem_iff, first := hdrained.first }⟩

/-- More fuel does not change what is drained. -/
theorem drain_mono {state : WalkState} {nodes : List WalkNode}
    (h : drain store fuel state = some nodes) : drain store (fuel + 1) state = some nodes := by
  induction fuel generalizing state nodes with
  | zero => cases h
  | succ fuel ih =>
    rw [drain] at h ⊢
    cases hpop : Heap.pop before state.queue with
    | none =>
      rw [hpop] at h
      exact h
    | some popped =>
      obtain ⟨node, queue⟩ := popped
      rw [hpop] at h
      obtain ⟨rest, hrest, rfl⟩ := Option.map_eq_some_iff.1 h
      dsimp only
      rw [ih hrest]
      rfl

/-- What refuses the graph as a whole is all that the indexed walk answers. -/
theorem walkIndexedOwned_error {repo : WalkRepository} {oid : Text}
    {limits : CommitGraphLimits} {error : GitError} (hpeel : repo.peel oid = .ok root)
    (h : indexedEntries repo.store root limits = .error error) (fuel : Nat) :
    walkIndexedOwned repo oid limits fuel = some ([], some error) := by
  unfold walkIndexedOwned
  rw [hpeel]
  dsimp only
  rw [h]

/-- Within the limits both walks yield the same commits, in commit-date order. -/
theorem walks_agree {repo : WalkRepository} {oid root : Text} {history : List Text}
    {commitOf : Text → Commit} (h : History repo oid root history commitOf)
    (hlimits : WithinLimits repo.store history) :
    ∃ enough oids, CommitDateOrder repo.store root oids ∧ ∀ fuel, enough ≤ fuel →
      walkOwned repo oid fuel = some (oids.map fun oid => (oid, commitOf oid), none) ∧
        walkIndexedOwned repo oid noLimits fuel =
          some (oids.map fun oid => (oid, commitOf oid), none) := by
  have hrows := h.complete.hasRows
  have hhistory := fun oid => (h.mem_iff oid).2
  obtain ⟨nodes, hdrain, horder⟩ := drain_order hrows hhistory (Nat.lt_succ_self _)
  obtain ⟨entries, hentries⟩ := indexedEntries_exists h.root_valid hrows h.nodup h.mem_iff
    hlimits.1 hlimits.2
  have hpreloaded := indexedEntries_ok hentries
  obtain ⟨enough, hvalid⟩ := validateCommitGraph_ok hpreloaded h.acyclic
  refine ⟨max enough (history.length + 1), nodes.map WalkNode.oid, horder, fun fuel hfuel => ?_⟩
  have hmore : drain repo.store fuel (discover repo.store emptyWalk root) = some nodes := by
    obtain ⟨extra, rfl⟩ := Nat.exists_eq_add_of_le ((Nat.le_max_right _ _).trans hfuel)
    clear hfuel
    induction extra with
    | zero => exact hdrain
    | succ extra ih => exact drain_mono ih
  have hitems : (nodes.map WalkNode.oid).map (fun oid => (oid, commitOf oid)) =
      nodes.map fun node => (node.oid, commitOf node.oid) := List.map_map
  rw [hitems]
  constructor
  · rw [walkOwned_eq h.peel h.complete hhistory hlimits.1, hmore]
    rfl
  · unfold walkIndexedOwned
    rw [h.peel]
    dsimp only
    rw [hentries]
    dsimp only
    rw [hvalid fuel ((Nat.le_max_left _ _).trans hfuel)]
    dsimp only
    rw [orderedCommitGraph_eq h.complete hpreloaded, hmore]
    rfl

-- A merge of root commits

def mergeOid : Text := List.replicate 40 0x66

/-- Parents that differ in their last digit. -/
def rootOids (digits : String) : List Text :=
  (text digits).map fun digit => List.replicate 39 0x30 ++ [digit]

def commitWith (parent : List Text) : Commit :=
  { tree := List.replicate 40 0x30, parent, author := Objects.nobody, committer := Objects.nobody
    gpgsig := none, message := [] }

def mergeCommit (digits : String) (oid : Text) : Commit :=
  commitWith (if oid = mergeOid then rootOids digits else [])

def mergeStore (digits : String) (objectSize : Int) : CommitStore where
  repoId := 1
  cachedCommit := fun oid =>
    if oid ∈ mergeOid :: rootOids digits then
      some { repoId := 1, oid, objectSize, commit := .complete (mergeCommit digits oid) }
    else none
  typeOf := fun _ => none
  read := fun _ => none
  shallow := []
  oid_of_cachedCommit := by
    intro oid entry h
    split at h
    · rw [← Option.some.inj h]
    · cases h

def mergeRepo (digits : String) (objectSize : Int) : WalkRepository :=
  { store := mergeStore digits objectSize, peel := .ok }

theorem parentsWithin_merge {digits : String} {objectSize : Int} {oid parent : Text} :
    parent ∈ parentsWithin (mergeStore digits objectSize) oid ↔
      oid = mergeOid ∧ parent ∈ rootOids digits := by
  have hshallow : oid ∉ (mergeStore digits objectSize).shallow := not_mem_nil
  rw [parentsWithin, if_neg hshallow]
  by_cases hoid : oid = mergeOid
  · subst hoid
    simp [mergeStore, parentsOf, Trees.CachedCommit.headersOf, Trees.headersOf, mergeCommit,
      commitWith]
  · by_cases hroot : oid ∈ rootOids digits
    · simp [mergeStore, hroot, parentsOf, Trees.CachedCommit.headersOf, Trees.headersOf,
        mergeCommit, commitWith, hoid]
    · simp [mergeStore, hroot, hoid]

theorem history_merge (digits : String) (objectSize : Int)
    (hnodup : (mergeOid :: rootOids digits).Nodup) :
    History (mergeRepo digits objectSize) mergeOid mergeOid (mergeOid :: rootOids digits)
      (mergeCommit digits) := by
  have hmem : ∀ oid, oid ∈ mergeOid :: rootOids digits ↔
      Reaches (parentsWithin (mergeStore digits objectSize)) mergeOid oid := by
    intro oid
    rw [mem_cons]
    constructor
    · rintro (rfl | hoid)
      · exact .refl
      · exact .single (parentsWithin_merge.2 ⟨rfl, hoid⟩)
    · intro hreaches
      cases hreaches with
      | refl => exact .inl rfl
      | tail _ hstep => exact .inr (parentsWithin_merge.1 hstep).2
  have hvalid : requireCommitGraphRoot 1 mergeOid = .ok () := by decide +kernel
  refine { peel := rfl, root_valid := hvalid, nodup := hnodup, mem_iff := hmem
           complete := ?_, acyclic := ?_ }
  · intro oid hoid
    exact ⟨_, if_pos ((hmem oid).2 hoid), rfl⟩
  · intro oid _ hcycle
    obtain ⟨next, hfirst, -⟩ := Relation.TransGen.head'_iff.1 hcycle
    obtain ⟨last, -, hlast⟩ := Relation.TransGen.tail'_iff.1 hcycle
    have hroot := (parentsWithin_merge.1 hlast).2
    rw [(parentsWithin_merge.1 hfirst).1] at hroot
    exact (List.nodup_cons.1 hnodup).1 hroot

/-- Two root commits of one time come in the order of the merge's parents. -/
theorem walks_agree_merge :
    History (mergeRepo "10" 200) mergeOid mergeOid (mergeOid :: rootOids "10") (mergeCommit "10") ∧
      WithinLimits (mergeStore "10" 200) (mergeOid :: rootOids "10") ∧
      ∃ enough oids, CommitDateOrder (mergeStore "10" 200) mergeOid oids ∧ ∀ fuel, enough ≤ fuel →
        walkOwned (mergeRepo "10" 200) mergeOid fuel =
            some (oids.map fun oid => (oid, mergeCommit "10" oid), none) ∧
          walkIndexedOwned (mergeRepo "10" 200) mergeOid noLimits fuel =
            some (oids.map fun oid => (oid, mergeCommit "10" oid), none) := by
  have hhistory := history_merge "10" 200 (by decide +kernel)
  have hlimits : WithinLimits (mergeStore "10" 200) (mergeOid :: rootOids "10") :=
    ⟨by decide +kernel, by decide +kernel⟩
  exact ⟨hhistory, hlimits, walks_agree hhistory hlimits⟩

/-- Sixteen root commits and their merge, with objects so large that the indexed walk refuses
    their state. -/
theorem walks_differ :
    ¬ ∀ (repo : WalkRepository) (oid root : Text) (history : List Text) (commitOf : Text → Commit),
      History repo oid root history commitOf → ∃ enough, ∀ fuel, enough ≤ fuel →
        walkOwned repo oid fuel = walkIndexedOwned repo oid noLimits fuel := by
  intro h
  have hhistory := history_merge "0123456789abcdef" 2000000 (by decide +kernel)
  obtain ⟨enough, hsame⟩ := h _ _ _ _ _ hhistory
  have hrefused : indexedEntries (mergeStore "0123456789abcdef" 2000000) mergeOid noLimits =
      .error { code := "E2BIG", message := "commit graph exceeds its fixed state capacity" } := by
    decide +kernel
  let fuel := max enough 18
  have hwalk := hsame fuel (Nat.le_max_left _ _)
  have hlength : (mergeOid :: rootOids "0123456789abcdef").length < fuel :=
    Nat.lt_of_lt_of_le (by decide) (Nat.le_max_right _ _)
  obtain ⟨nodes, hdrain, -⟩ := drain_order hhistory.complete.hasRows
    (fun oid => (hhistory.mem_iff oid).2) hlength
  rw [walkOwned_eq hhistory.peel hhistory.complete (fun oid => (hhistory.mem_iff oid).2)
    (by decide), hdrain] at hwalk
  have hindexed : walkIndexedOwned (mergeRepo "0123456789abcdef" 2000000) mergeOid noLimits fuel =
      some ([], some { code := "E2BIG"
                       message := "commit graph exceeds its fixed state capacity" }) :=
    walkIndexedOwned_error hhistory.peel hrefused fuel
  rw [hindexed] at hwalk
  exact absurd (congrArg Prod.snd (Option.some.inj hwalk)) nofun

end Kompjutr.Commits
