/-
  Kompjutr.Commits.WalkAgree

  The lazy and the indexed walk yield the same commits, as long as the history is within
  the limits of the walks.

  Both are `drain` with the commits that it finds (`walkLoop_eq_drain`): the lazy walk reads
  a row where the indexed walk looks it up among the rows it preloaded.  What remains of the
  indexed walk is that its depth-first search finds nothing to refuse in an acyclic history.
-/
import Kompjutr.Commits.WalkSound

namespace Kompjutr.Commits

open Objects (Text text isOid Commit)
open Trees (CommitCacheEntry completeCommit)
open RecursiveUnion (Reaches fresh)
open List (foldlM_cons map_cons mem_cons_self nodup_nil)

variable {entry : CommitCacheEntry} {fuel maxCommits countCap : Nat} {parent : Text}
  {repo : WalkRepository} {rows : List CommitCacheEntry} {limits : CommitGraphLimits}

variable {store : CommitStore} {root oid : Text} {commitOf : Text → Commit} {state : WalkState}
  {history : List Text} {entries : List CommitCacheEntry}

/-- Every reachable commit has a row, and the row is completed to this commit. -/
def Complete (store : CommitStore) (root : Text) (commitOf : Text → Commit) : Prop :=
  ∀ oid, Reaches (parentsWithin store) root oid → ∃ entry, store.cachedCommit oid = some entry ∧
    completeCommit store.read entry = .ok (commitOf oid)

theorem Complete.hasRows (h : Complete store root commitOf) : HasRows store root := by
  intro oid hoid
  obtain ⟨entry, hentry, -⟩ := h oid hoid
  exact ⟨entry, hentry⟩

theorem parent_of_completeCommit {read : Text → Option (List UInt8)}
    {commit : Commit} (h : completeCommit read entry = .ok commit) :
    commit.parent = parentsOf entry := by
  unfold completeCommit at h
  unfold parentsOf
  split at h
  · next complete hcomplete =>
    rw [hcomplete, ← Except.ok.inj h]
    rfl
  · next headers hheaders =>
    split at h
    · cases h
    · next data hread =>
      rw [hheaders]
      generalize Objects.parseCommit data = parsed at h
      cases parsed with
      | error e => cases h
      | ok parsed =>
        rw [← Except.ok.inj h]
        rfl

theorem parentsWithin_eq (hentry : store.cachedCommit oid = some entry) :
    parentsWithin store oid = if oid ∈ store.shallow then [] else parentsOf entry := by
  unfold parentsWithin
  rw [hentry]

-- Both loops

/-- A loop that cannot fail is `drain`, by induction on the fuel. -/
theorem walkLoop_eq_drain {α : Type} {store : CommitStore} {root : Text}
    (hrows : HasRows store root) {visit : WalkNode → Except GitError α}
    {expand : WalkNode → α → WalkState → Except GitError WalkState} {item : WalkNode → α}
    (hvisit : ∀ node, Reaches (parentsWithin store) root node.oid →
      store.cachedCommit node.oid = some node.entry → visit node = .ok (item node))
    (hexpand : ∀ node state, Reaches (parentsWithin store) root node.oid →
      store.cachedCommit node.oid = some node.entry → state.seen.Nodup →
      (∀ oid ∈ state.seen, Reaches (parentsWithin store) root oid) →
      expand node (item node) state =
        .ok ((parentsWithin store node.oid).foldl (discover store) state))
    (fuel : Nat) {yielded : List Text} {state : WalkState} (h : Turn store root yielded state) :
    walkLoop visit expand fuel state =
      (drain store fuel state).map fun nodes => (nodes.map item, none) := by
  induction fuel generalizing yielded state with
  | zero => rfl
  | succ fuel ih =>
    rw [walkLoop, drain]
    cases hpop : Heap.pop before state.queue with
    | none => rfl
    | some popped =>
      obtain ⟨node, queue⟩ := popped
      obtain ⟨-, hmem, -⟩ := h.pending.pop hpop
      obtain ⟨hat, -, hcached⟩ := (h.pending.mem_queue node).1 hmem
      have hreaches := h.reaches node.oid (List.mem_of_getElem? hat)
      dsimp only
      rw [hvisit node hreaches hcached]
      dsimp only
      rw [hexpand node { state with queue } hreaches hcached h.pending.nodup h.reaches]
      dsimp only
      rw [ih (h.next hrows hpop), Option.map_map, Option.map_map]
      rfl

/-- A loop that ends without an error has drained the heap, by induction on the fuel. -/
theorem drain_of_walkLoop {α : Type}
    (hrows : HasRows store root) {visit : WalkNode → Except GitError α}
    {expand : WalkNode → α → WalkState → Except GitError WalkState}
    (hexpand : ∀ node item state, Reaches (parentsWithin store) root node.oid →
      store.cachedCommit node.oid = some node.entry → state.seen.Nodup →
      (∀ oid ∈ state.seen, Reaches (parentsWithin store) root oid) →
      expand node item state = .ok
    ((parentsWithin store node.oid).foldl (discover store) state)) {yielded : List Text} (h : Turn store root yielded state)
    {items : List α} (hwalk : walkLoop visit expand fuel state = some (items, none)) :
    ∃ nodes, drain store fuel state = some nodes ∧
      List.Forall₂ (fun node item => visit node = .ok item) nodes items := by
  induction fuel generalizing yielded state items with
  | zero => cases hwalk
  | succ fuel ih =>
    rw [walkLoop] at hwalk
    rw [drain]
    cases hpop : Heap.pop before state.queue with
    | none =>
      rw [hpop] at hwalk
      cases hwalk
      exact ⟨[], rfl, .nil⟩
    | some popped =>
      obtain ⟨node, queue⟩ := popped
      obtain ⟨-, hmem, -⟩ := h.pending.pop hpop
      obtain ⟨hat, -, hcached⟩ := (h.pending.mem_queue node).1 hmem
      have hreaches := h.reaches node.oid (List.mem_of_getElem? hat)
      rw [hpop] at hwalk
      dsimp only at hwalk ⊢
      cases hvisit : visit node with
      | error error =>
        rw [hvisit] at hwalk
        cases (Prod.mk.inj (Option.some.inj hwalk)).2
      | ok item =>
        rw [hvisit] at hwalk
        dsimp only at hwalk
        rw [hexpand node item { state with queue } hreaches hcached h.pending.nodup h.reaches]
          at hwalk
        obtain ⟨⟨rest, error⟩, hrest, heq⟩ := Option.map_eq_some_iff.1 hwalk
        obtain ⟨rfl, rfl⟩ := Prod.mk.inj heq
        obtain ⟨nodes, hdrain, hnodes⟩ := ih (h.next hrows hpop) hrest
        exact ⟨node :: nodes, by rw [hdrain]; rfl, .cons hvisit hnodes⟩

/-- A run of pushes that cannot fail. -/
theorem foldlM_eq_discover
    {push : WalkState → Text → Except GitError WalkState} {parents : List Text}
    (hrows : HasRows store root)
    (hpush : ∀ state parent, parent ∈ parents → state.seen.Nodup →
      (∀ oid ∈ state.seen, Reaches (parentsWithin store) root oid) →
      push state parent = .ok (discover store state parent))
    (hparents : ∀ parent ∈ parents, Reaches (parentsWithin store) root parent)
    (hnodup : state.seen.Nodup)
    (hreaches : ∀ oid ∈ state.seen, Reaches (parentsWithin store) root oid) :
    parents.foldlM push state = .ok (parents.foldl (discover store) state) := by
  induction parents generalizing state with
  | nil => rfl
  | cons parent parents ih =>
    obtain ⟨entry, hentry⟩ := hrows parent (hparents parent mem_cons_self)
    have hnext : (discover store state parent).seen.Nodup ∧
        ∀ oid ∈ (discover store state parent).seen, Reaches (parentsWithin store) root oid := by
      unfold discover
      split
      · exact ⟨hnodup, hreaches⟩
      · next hnew =>
        rw [hentry]
        constructor
        · show (state.seen ++ [parent]).Nodup
          rw [← List.concat_eq_append]
          exact hnodup.concat hnew
        · exact List.forall_mem_append.2
            ⟨hreaches, List.forall_mem_singleton.2 (hparents parent mem_cons_self)⟩
    rw [foldlM_cons, hpush state parent mem_cons_self hnodup hreaches, Fuel.ok_bind,
      ih (fun state other hother => hpush state other (List.mem_cons_of_mem _ hother))
        (fun other hother => hparents other (List.mem_cons_of_mem _ hother)) hnext.1 hnext.2]
    rfl

theorem turn_start (hrows : HasRows store root) :
    Turn store root [] (discover store emptyWalk root) := by
  obtain ⟨entry, hentry⟩ := hrows root .refl
  have hempty : Pending store [] emptyWalk :=
    { nodup := nodup_nil, sequence_eq := rfl
      ordered := fun i child parent _ hchild => by cases hchild
      queue_nodup := nodup_nil
      mem_queue := fun node => by simp [emptyWalk]
      yielded_seen := fun oid hoid => nomatch hoid
      cached := fun oid hoid => nomatch hoid }
  obtain ⟨hpending, hseen⟩ := hempty.discover hentry
  have hseen : (discover store emptyWalk root).seen = [root] := by
    rcases hseen with ⟨hold, -⟩ | ⟨-, hseen⟩
    · nomatch hold
    · exact hseen
  refine { pending := hpending, seen_eq := hseen, nodup := nodup_nil, closed := ?_
           reaches := ?_, root_seen := ?_ }
  · exact fun oid hoid => nomatch hoid
  · intro oid hoid
    rw [hseen, List.mem_singleton] at hoid
    rw [hoid]
    exact .refl
  · rw [hseen]
    exact List.mem_singleton_self root

-- The lazy walk

theorem pushRead_eq_discover (hrows : HasRows store root)
    (hhistory : ∀ oid, Reaches (parentsWithin store) root oid →
      oid ∈ history) (hlimit : history.length ≤ maxLogCommits)
    (hnodup : state.seen.Nodup)
    (hreaches : ∀ oid ∈ state.seen, Reaches (parentsWithin store) root oid)
    (hparent : Reaches (parentsWithin store) root parent) :
    pushRead store state parent = .ok (discover store state parent) := by
  unfold pushRead discover
  by_cases hold : parent ∈ state.seen
  · rw [if_pos hold, if_pos hold]
  · obtain ⟨entry, hentry⟩ := hrows parent hparent
    have hbelow : ¬ maxLogCommits ≤ state.seen.length := by
      have hcons : (parent :: state.seen).Nodup := List.nodup_cons.2 ⟨hold, hnodup⟩
      have hsub : parent :: state.seen ⊆ history := by
        intro oid hoid
        rcases List.mem_cons.1 hoid with rfl | hoid
        · exact hhistory _ hparent
        · exact hhistory oid (hreaches oid hoid)
      have hlength := (List.subperm_of_subset hcons hsub).length_le
      rw [List.length_cons] at hlength
      omega
    rw [if_neg hold, if_neg hold, if_neg hbelow, readCommitEntryOwned, hentry]
    rfl

/-- The lazy walk is `drain` with the commits it finds. -/
theorem walkOwned_eq (hpeel : repo.peel oid = .ok root)
    (hcomplete : Complete repo.store root commitOf)
    (hhistory : ∀ oid, Reaches (parentsWithin repo.store) root oid →
      oid ∈ history) (hlimit : history.length ≤ maxLogCommits) (fuel : Nat) :
    walkOwned repo oid fuel =
      (drain repo.store fuel (discover repo.store emptyWalk root)).map fun nodes =>
        (nodes.map fun node => (node.oid, commitOf node.oid), none) := by
  have hrows := hcomplete.hasRows
  have hstart : (repo.peel oid).bind (pushRead repo.store emptyWalk) =
      .ok (discover repo.store emptyWalk root) := by
    rw [hpeel]
    exact pushRead_eq_discover hrows hhistory hlimit nodup_nil
      (fun _ h => absurd h List.not_mem_nil) .refl
  have hloop := @walkLoop_eq_drain PrunedCommit repo.store root hrows
    (fun next => (completeCommit repo.store.read next.entry).map fun commit =>
      { oid := next.oid, commit, decision := { included := true, parents := commit.parent } })
    (fun next item state =>
      if next.oid ∈ repo.store.shallow then .ok state
      else item.decision.parents.foldlM (pushSelected repo.store item.commit) state)
    (fun node => { oid := node.oid, commit := commitOf node.oid
                   decision := { included := true, parents := (commitOf node.oid).parent } })
    ?_ ?_ fuel [] _ (turn_start hrows)
  · unfold walkOwned walkPrunedOwned
    rw [hstart]
    dsimp only
    rw [hloop, Option.map_map]
    congr 1
    funext nodes
    simp
  · intro node hreaches hcached
    obtain ⟨entry, hentry, hcommit⟩ := hcomplete node.oid hreaches
    rw [hcached] at hentry
    rw [Option.some.inj hentry, hcommit]
    rfl
  · intro node state hreaches hcached hnodup hseen
    obtain ⟨entry, hentry, hcommit⟩ := hcomplete node.oid hreaches
    rw [hcached] at hentry
    have hparents : (commitOf node.oid).parent = parentsOf node.entry := by
      rw [Option.some.inj hentry]
      exact parent_of_completeCommit hcommit
    dsimp only
    rw [parentsWithin_eq hcached]
    by_cases hshallow : node.oid ∈ repo.store.shallow
    · rw [if_pos hshallow, if_pos hshallow]
      rfl
    · rw [if_neg hshallow, if_neg hshallow, hparents]
      have hwithin : parentsWithin repo.store node.oid = parentsOf node.entry := by
        rw [parentsWithin_eq hcached, if_neg hshallow]
      have hreached : ∀ parent ∈ parentsOf node.entry,
          Reaches (parentsWithin repo.store) root parent := by
        intro parent hparent
        rw [← hwithin] at hparent
        exact hreaches.tail hparent
      refine foldlM_eq_discover hrows ?_ hreached hnodup hseen
      intro state parent hparent hnodup hseen
      have hmem : ¬ parent ∉ (commitOf node.oid).parent := by
        rw [hparents]
        exact not_not.2 hparent
      rw [pushSelected, if_neg hmem]
      exact pushRead_eq_discover hrows hhistory hlimit hnodup hseen (hreached parent hparent)

-- The preloaded rows

theorem entryAt_filterMap (store : CommitStore) (rows : List Text) (oid : Text) :
    entryAt (rows.filterMap store.cachedCommit) oid =
      if oid ∈ rows then store.cachedCommit oid else none := by
  induction rows with
  | nil => rfl
  | cons row rows ih =>
    cases hrow : store.cachedCommit row with
    | none =>
      rw [List.filterMap_cons_none hrow, ih]
      by_cases heq : oid = row
      · rw [heq, hrow, ite_self, ite_self]
      · simp [heq]
    | some entry =>
      have hoid := store.oid_of_cachedCommit hrow
      rw [List.filterMap_cons_some hrow, entryAt, List.find?_cons]
      by_cases heq : oid = row
      · subst heq
        rw [decide_eq_true hoid, if_pos mem_cons_self, hrow]
      · have hne : ¬ entry.oid = oid := fun h => heq (h.symm.trans hoid)
        rw [decide_eq_false hne]
        simp only [List.mem_cons, heq, false_or]
        exact ih

theorem map_oid_filterMap {rows : List Text}
    (h : ∀ oid ∈ rows, ∃ entry, store.cachedCommit oid = some entry) :
    (rows.filterMap store.cachedCommit).map CommitCacheEntry.oid = rows := by
  induction rows with
  | nil => rfl
  | cons row rows ih =>
    obtain ⟨entry, hentry⟩ := h row mem_cons_self
    rw [List.filterMap_cons_some hentry, map_cons, store.oid_of_cachedCommit hentry,
      ih fun oid hoid => h oid (List.mem_cons_of_mem _ hoid)]

theorem entryAt_isSome :
    (entryAt entries oid).isSome = true ↔ oid ∈ entries.map CommitCacheEntry.oid := by
  rw [entryAt, List.find?_isSome]
  simp

/-- Rows with different object ids are all collected. -/
theorem foldlM_collectEntry (hnodup : ((entries ++ rows).map CommitCacheEntry.oid).Nodup)
    (hlength : (entries ++ rows).length ≤ maxCommits) :
    rows.foldlM (collectEntry maxCommits) entries = .ok (entries ++ rows) := by
  induction rows generalizing entries with
  | nil => rw [List.append_nil]; rfl
  | cons row rows ih =>
    have hnew : ¬ (entryAt entries row.oid).isSome = true := by
      rw [entryAt_isSome]
      intro hmem
      rw [List.map_append, map_cons] at hnodup
      exact (List.nodup_append.1 hnodup).2.2 _ hmem _ mem_cons_self rfl
    have hbelow : ¬ maxCommits ≤ entries.length := by
      rw [List.length_append, List.length_cons] at hlength
      omega
    have hassoc : entries ++ row :: rows = entries ++ [row] ++ rows := by simp
    rw [hassoc] at hnodup hlength ⊢
    rw [foldlM_cons, collectEntry, if_neg hnew, if_neg hbelow, Fuel.ok_bind]
    exact ih hnodup hlength

theorem collected_eq {out : List CommitCacheEntry}
    (h : rows.foldlM (collectEntry maxCommits) entries = .ok out) : out = entries ++ rows := by
  induction rows generalizing entries with
  | nil => rw [List.append_nil]; exact (Except.ok.inj h).symm
  | cons row rows ih =>
    rw [foldlM_cons] at h
    obtain ⟨next, hnext, hrest⟩ := Fuel.bind_eq_ok.1 h
    unfold collectEntry at hnext
    split at hnext
    · cases hnext
    · split at hnext
      · cases hnext
      · rw [ih hrest, ← Except.ok.inj hnext, List.append_assoc]
        rfl

/-- The rows that the indexed walk preloads: those of the reachable commits, each once. -/
structure Preloaded (store : CommitStore) (root : Text) (entries : List CommitCacheEntry) :
    Prop where
  nodup : (entries.map CommitCacheEntry.oid).Nodup
  mem_iff : ∀ oid, oid ∈ entries.map CommitCacheEntry.oid ↔ Reaches (parentsWithin store) root oid
  entryAt_eq : ∀ oid, Reaches (parentsWithin store) root oid →
    entryAt entries oid = store.cachedCommit oid
  hasRows : HasRows store root

theorem preloaded_of_reachable (hcount : (reachable store root countCap).length ≤ countCap)
    (hrows : ∀ oid ∈ reachable store root countCap, ∃ entry, store.cachedCommit oid = some entry) :
    Preloaded store root ((reachable store root countCap).filterMap store.cachedCommit) := by
  have hmem : ∀ oid, oid ∈ reachable store root countCap ↔
      Reaches (parentsWithin store) root oid :=
    fun oid => RecursiveUnion.mem_rows_iff (Nat.lt_succ_of_le hcount)
  refine { nodup := ?_, mem_iff := fun oid => ?_, entryAt_eq := fun oid hoid => ?_
           hasRows := fun oid hoid => hrows oid ((hmem oid).2 hoid) }
  · rw [map_oid_filterMap hrows]
    exact RecursiveUnion.nodup_rows root _
  · rw [map_oid_filterMap hrows]
    exact hmem oid
  · rw [entryAt_filterMap, if_pos ((hmem oid).2 hoid)]

theorem verdict_eq_none {rows : List Text} {byteCap : Nat}
    (h : verdict store rows countCap byteCap = none) :
    rows.length ≤ countCap ∧ ∀ oid ∈ rows, ∃ entry, store.cachedCommit oid = some entry := by
  unfold verdict at h
  dsimp only at h
  split at h
  · cases h
  · next hcount =>
    split at h
    · cases h
    · next hmissing =>
      refine ⟨Nat.le_of_not_lt hcount, fun oid hoid => Option.ne_none_iff_exists'.1 fun hnone => ?_⟩
      exact hmissing (List.length_filterMap_lt_length_iff_exists.2 ⟨oid, hoid, hnone⟩)

theorem pushEntry_eq_discover (hentries : Preloaded store root entries) (state : WalkState)
    (hparent : Reaches (parentsWithin store) root parent) :
    pushEntry entries state parent = .ok (discover store state parent) := by
  obtain ⟨entry, hentry⟩ := hentries.hasRows parent hparent
  unfold pushEntry discover
  split
  · rfl
  · rw [hentries.entryAt_eq parent hparent, hentry]

/-- What the indexed walk goes over, where it preloads at all. -/
theorem indexedEntries_ok (h : indexedEntries store root limits = .ok entries) :
    Preloaded store root entries := by
  obtain ⟨rows, hrows, h⟩ := Fuel.bind_eq_ok.1 h
  obtain ⟨out, hout, h⟩ := Fuel.bind_eq_ok.1 h
  have hentries : rows = entries := by
    split at h
    · cases h
    · rw [← Except.ok.inj h, collected_eq hout, List.nil_append]
  subst hentries
  obtain ⟨-, -, hrows⟩ := Fuel.bind_eq_ok.1 hrows
  obtain ⟨maxCommits, -, hrows⟩ := Fuel.bind_eq_ok.1 hrows
  split at hrows
  · cases hrows
  · dsimp only at hrows
    split at hrows
    · cases hrows
    · next hverdict =>
      obtain ⟨hcount, hcached⟩ := verdict_eq_none hverdict
      rw [← Except.ok.inj hrows]
      exact preloaded_of_reachable hcount hcached

/-- A history within the limits is preloaded. -/
theorem indexedEntries_exists
    (hroot : requireCommitGraphRoot store.repoId root = .ok ()) (hrows : HasRows store root)
    (hnodup : history.Nodup)
    (hhistory : ∀ oid, oid ∈ history ↔ Reaches (parentsWithin store) root oid)
    (hlimit : history.length ≤ maxLogCommits)
    (hbytes : ((history.filterMap store.cachedCommit).map graphBytes).sum ≤
      commitGraphWalkBytes) :
    ∃ entries, indexedEntries store root noLimits = .ok entries := by
  let rows := reachable store root maxLogCommits
  have hsub : rows ⊆ history := fun oid hoid =>
    (hhistory oid).2 (RecursiveUnion.reaches_of_mem_rows hoid)
  have hcount : rows.length ≤ maxLogCommits :=
    (List.subperm_of_subset (RecursiveUnion.nodup_rows root _) hsub).length_le.trans hlimit
  have hperm : rows.Perm history := by
    refine (List.perm_ext_iff_of_nodup (RecursiveUnion.nodup_rows root _) hnodup).2 fun oid => ?_
    rw [hhistory]
    exact RecursiveUnion.mem_rows_iff (Nat.lt_succ_of_le hcount)
  have hcached : ∀ oid ∈ rows, ∃ entry, store.cachedCommit oid = some entry :=
    fun oid hoid => hrows oid (RecursiveUnion.reaches_of_mem_rows hoid)
  have hsum : ((rows.filterMap store.cachedCommit).map graphBytes).sum ≤
      (commitGraphWalkBytes : Int) := by
    rw [((hperm.filterMap store.cachedCommit).map graphBytes).sum_eq]
    exact hbytes
  have hverdict : verdict store rows maxLogCommits commitGraphWalkBytes = none := by
    have hall : ¬ (rows.filterMap store.cachedCommit).length < rows.length := by
      rw [List.length_filterMap_lt_length_iff_exists]
      rintro ⟨oid, hoid, hnone⟩
      obtain ⟨entry, hentry⟩ := hcached oid hoid
      rw [hnone] at hentry
      cases hentry
    unfold verdict
    rw [if_neg (Nat.not_lt.2 hcount), if_neg hall, if_neg (not_lt.2 hsum)]
  have hgraph : readCommitGraphOwned store root noLimits =
      .ok (rows.filterMap store.cachedCommit) := by
    have hlimits : boundedCountLimit noLimits.maxCommits maxLogCommits "commit graph count limit" =
        .ok maxLogCommits := rfl
    unfold readCommitGraphOwned
    rw [hroot, hlimits]
    simp only [Except.bind, noLimits, reduceCtorEq, if_false, Option.getD_none, min_self]
    rw [hverdict]
  have hpreloaded := preloaded_of_reachable hcount hcached
  have hcollect : (rows.filterMap store.cachedCommit).foldlM (collectEntry maxLogCommits) [] =
      .ok (rows.filterMap store.cachedCommit) :=
    foldlM_collectEntry hpreloaded.nodup ((List.length_filterMap_le _ _).trans hcount)
  have hfound : ¬ (entryAt (rows.filterMap store.cachedCommit) root).isNone = true := by
    obtain ⟨entry, hentry⟩ := hrows root .refl
    rw [hpreloaded.entryAt_eq root .refl, hentry]
    exact Bool.false_ne_true
  refine ⟨rows.filterMap store.cachedCommit, ?_⟩
  unfold indexedEntries
  rw [hgraph]
  show ((rows.filterMap store.cachedCommit).foldlM (collectEntry maxLogCommits) []).bind _ = _
  rw [hcollect]
  exact if_neg hfound

/-- The parents of a node of the indexed walk are discovered. -/
theorem expand_eq_discover (hentries : Preloaded store root entries) {node : WalkNode}
    (hreaches : Reaches (parentsWithin store) root node.oid)
    (hcached : store.cachedCommit node.oid = some node.entry) (hnodup : state.seen.Nodup)
    (hseen : ∀ oid ∈ state.seen, Reaches (parentsWithin store) root oid) :
    (if node.oid ∈ store.shallow then .ok state
      else (parentsOf node.entry).foldlM (pushEntry entries) state : Except GitError WalkState) =
      .ok ((parentsWithin store node.oid).foldl (discover store) state) := by
  rw [parentsWithin_eq hcached]
  by_cases hshallow : node.oid ∈ store.shallow
  · rw [if_pos hshallow, if_pos hshallow]
    rfl
  · have hreached : ∀ parent ∈ parentsOf node.entry, Reaches (parentsWithin store) root parent := by
      intro parent hparent
      have hwithin := parentsWithin_eq hcached
      rw [if_neg hshallow] at hwithin
      rw [← hwithin] at hparent
      exact hreaches.tail hparent
    rw [if_neg hshallow, if_neg hshallow]
    exact foldlM_eq_discover hentries.hasRows (fun state parent hparent _ _ =>
      pushEntry_eq_discover hentries state (hreached parent hparent)) hreached hnodup hseen

/-- The walk over the preloaded rows is `drain` with the commits it finds. -/
theorem orderedCommitGraph_eq (hcomplete : Complete store root commitOf)
    (hentries : Preloaded store root entries) (fuel : Nat) :
    orderedCommitGraph store root entries store.shallow fuel =
      (drain store fuel (discover store emptyWalk root)).map fun nodes =>
        (nodes.map fun node => (node.oid, commitOf node.oid), none) := by
  unfold orderedCommitGraph
  rw [pushEntry_eq_discover hentries emptyWalk .refl]
  refine walkLoop_eq_drain hentries.hasRows ?_ ?_ fuel (turn_start hentries.hasRows)
  · intro node hreaches hcached
    obtain ⟨entry, hentry, hcommit⟩ := hcomplete node.oid hreaches
    rw [hcached] at hentry
    rw [Option.some.inj hentry, hcommit]
    rfl
  · intro node state hreaches hcached hnodup hseen
    exact expand_eq_discover hentries hreaches hcached hnodup hseen

/-- What the indexed walk yields when it ends without an error: every reachable commit once. -/
theorem walkIndexedOwned_ok (hpeel : repo.peel oid = .ok root) {items : List (Text × Commit)}
    (h : walkIndexedOwned repo oid limits fuel = some (items, none)) :
    (items.map Prod.fst).Nodup ∧
      (∀ oid, oid ∈ items.map Prod.fst ↔ Reaches (parentsWithin repo.store) root oid) ∧
      ∀ item ∈ items, ∃ entry, repo.store.cachedCommit item.1 = some entry ∧
        completeCommit repo.store.read entry = .ok item.2 := by
  unfold walkIndexedOwned at h
  rw [hpeel] at h
  dsimp only at h
  cases hindexed : indexedEntries repo.store root limits with
  | error error =>
    rw [hindexed] at h
    exact absurd (Prod.mk.inj (Option.some.inj h)).2 nofun
  | ok entries =>
    have hentries := indexedEntries_ok hindexed
    have hwalk : orderedCommitGraph repo.store root entries repo.store.shallow fuel =
        some (items, none) := by
      rw [hindexed] at h
      dsimp only at h
      split at h
      · cases h
      · exact absurd (Prod.mk.inj (Option.some.inj h)).2 nofun
      · exact h
    unfold orderedCommitGraph at hwalk
    rw [pushEntry_eq_discover hentries emptyWalk .refl] at hwalk
    obtain ⟨nodes, hdrain, hnodes⟩ := drain_of_walkLoop hentries.hasRows
      (fun node item state hreaches hcached hnodup hseen =>
        expand_eq_discover hentries hreaches hcached hnodup hseen)
      (turn_start hentries.hasRows) hwalk
    have hdrained := (turn_start hentries.hasRows).drained hentries.hasRows hdrain
    have hvisit : ∀ (node : WalkNode) (item : Text × Commit),
        ((completeCommit repo.store.read node.entry).map fun commit => (node.oid, commit)) =
          .ok item → item.1 = node.oid ∧ completeCommit repo.store.read node.entry = .ok item.2 := by
      intro node item hitem
      generalize completeCommit repo.store.read node.entry = completed at hitem ⊢
      cases completed with
      | error error => cases hitem
      | ok commit =>
        rw [← Except.ok.inj hitem]
        exact ⟨rfl, rfl⟩
    have hoids : items.map Prod.fst = nodes.map WalkNode.oid := by
      clear hdrain hdrained hwalk h
      induction hnodes with
      | nil => rfl
      | cons hitem _ ih => rw [map_cons, map_cons, ih, (hvisit _ _ hitem).1]
    refine ⟨?_, fun other => ?_, fun item hitem => ?_⟩
    · rw [hoids]
      exact hdrained.nodup
    · rw [hoids]
      exact hdrained.mem_iff other
    · obtain ⟨i, hi, rfl⟩ := List.getElem_of_mem hitem
      have hlength := hnodes.length_eq
      have hpair := hnodes.get (by omega) hi
      obtain ⟨hoid, hcomplete⟩ := hvisit _ _ hpair
      have hcached := hdrained.cached _ (List.get_mem nodes ⟨i, by omega⟩)
      exact ⟨_, by rw [← hcached, ← hoid]; rfl, hcomplete⟩

end Kompjutr.Commits
