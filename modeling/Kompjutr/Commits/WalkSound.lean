/-
  Kompjutr.Commits.WalkSound

  Both walks drain one heap, and the heap gives them the commits in commit-date order.

  `drain` is the loop with nothing that can fail: it takes the first node and discovers the
  parents of its commit.  `Pending` ties the heap to the commits that are discovered and
  not yet taken; the order of a walk is read off it at every turn.
-/
import Kompjutr.Commits.Walk

namespace Kompjutr.Commits

open Objects (Text text isOid Commit)
open Trees (CommitCacheEntry completeCommit)
open RecursiveUnion (Reaches fresh)
open List (append_nil mem_append mem_cons mem_singleton nodup_cons)

variable {node : WalkNode} {history : List Text} {fuel : Nat}

variable {store : CommitStore} {yielded : List Text} {state : WalkState} {root : Text}

theorem before_weak : Heap.Weak before where
  irrefl := by
    intro a
    simp [before]
  asymm := by
    intro a b h
    simp only [before, ne_eq, ite_not, gt_iff_lt] at h ⊢
    split at h
    · next heq =>
      rw [if_pos heq.symm]
      simp only [decide_eq_true_eq, decide_eq_false_iff_not] at h ⊢
      omega
    · next hne =>
      rw [if_neg (Ne.symm hne)]
      simp only [decide_eq_true_eq, decide_eq_false_iff_not] at h ⊢
      omega
  trans := by
    intro a b c hba hcb
    simp only [before, ne_eq, ite_not, gt_iff_lt] at hba hcb ⊢
    split at hba <;> split at hcb <;> split <;>
      simp only [decide_eq_false_iff_not] at hba hcb ⊢ <;> omega

-- Discovery

/-- A commit is discovered: it enters the queue when it is new. -/
def discover (store : CommitStore) (state : WalkState) (candidate : Text) : WalkState :=
  if candidate ∈ state.seen then state
  else
    match store.cachedCommit candidate with
    | none => state
    | some entry => enqueue state candidate entry

/-- The commits that are discovered once these have been yielded. -/
def discovered (store : CommitStore) (root : Text) (yielded : List Text) : List Text :=
  yielded.foldl (fun known oid => known ++ fresh known (parentsWithin store oid)) [root]

/-- The queue holds the commits that are discovered and not yet yielded. -/
structure Pending (store : CommitStore) (yielded : List Text) (state : WalkState) : Prop where
  nodup : state.seen.Nodup
  sequence_eq : state.sequence = state.seen.length
  ordered : Heap.Ordered before state.queue
  queue_nodup : state.queue.Nodup
  mem_queue : ∀ node, node ∈ state.queue ↔ state.seen[node.sequence]? = some node.oid ∧
    node.oid ∉ yielded ∧ store.cachedCommit node.oid = some node.entry
  yielded_seen : ∀ oid ∈ yielded, oid ∈ state.seen
  cached : ∀ oid ∈ state.seen, ∃ entry, store.cachedCommit oid = some entry

theorem Pending.discover
    (h : Pending store yielded state) {candidate : Text} {entry : CommitCacheEntry}
    (hentry : store.cachedCommit candidate = some entry) :
    Pending store yielded (discover store state candidate) ∧
      ((candidate ∈ state.seen ∧ (discover store state candidate).seen = state.seen) ∨
        (candidate ∉ state.seen ∧
          (discover store state candidate).seen = state.seen ++ [candidate])) := by
  unfold Commits.discover
  split
  · next hseen => exact ⟨h, .inl ⟨hseen, rfl⟩⟩
  · next hnew =>
    rw [hentry]
    refine ⟨?_, .inr ⟨hnew, rfl⟩⟩
    have hperm := Heap.push_perm before state.queue
      { oid := candidate, entry, sequence := state.sequence }
    have hfresh : ∀ node ∈ state.queue, node.oid ≠ candidate := by
      rintro node hnode rfl
      exact hnew (List.mem_of_getElem? ((h.mem_queue node).1 hnode).1)
    refine
      { nodup := ?_, sequence_eq := ?_, ordered := Heap.push_ordered before_weak h.ordered _
        queue_nodup := ?_, mem_queue := ?_, yielded_seen := ?_, cached := ?_ }
    · show (state.seen ++ [candidate]).Nodup
      rw [← List.concat_eq_append]
      exact h.nodup.concat hnew
    · simp only [enqueue, List.length_append, List.length_singleton, h.sequence_eq]
    · refine hperm.nodup_iff.2 (nodup_cons.2 ⟨fun hmem => ?_, h.queue_nodup⟩)
      exact hfresh _ hmem rfl
    · intro node
      simp only [enqueue]
      rw [hperm.mem_iff, mem_cons, h.mem_queue, h.sequence_eq]
      constructor
      · rintro (rfl | ⟨hseen, hyielded, hcached⟩)
        · refine ⟨by simp, fun hyielded => hnew (h.yielded_seen _ hyielded), hentry⟩
        · obtain ⟨hlt, -⟩ := List.getElem?_eq_some_iff.1 hseen
          rw [List.getElem?_append_left hlt]
          exact ⟨hseen, hyielded, hcached⟩
      · rintro ⟨hseen, hyielded, hcached⟩
        rcases Nat.lt_trichotomy node.sequence state.seen.length with hlt | heq | hgt
        · rw [List.getElem?_append_left hlt] at hseen
          exact .inr ⟨hseen, hyielded, hcached⟩
        · left
          rw [heq, List.getElem?_append_right (Nat.le_refl _), Nat.sub_self] at hseen
          have hoid : candidate = node.oid := Option.some.inj hseen
          rw [← hoid, hentry] at hcached
          obtain ⟨oid, found, sequence⟩ := node
          dsimp only at heq hoid hcached
          rw [heq, ← hoid, Option.some.inj hcached]
        · obtain ⟨hlt, -⟩ := List.getElem?_eq_some_iff.1 hseen
          rw [List.length_append, List.length_singleton] at hlt
          omega
    · intro oid hoid
      exact List.mem_append_left _ (h.yielded_seen oid hoid)
    · exact List.forall_mem_append.2 ⟨h.cached, List.forall_mem_singleton.2 ⟨entry, hentry⟩⟩

theorem Pending.discoverAll (h : Pending store yielded state) {candidates : List Text}
    (hcached : ∀ oid ∈ candidates, ∃ entry, store.cachedCommit oid = some entry) :
    Pending store yielded (candidates.foldl (Commits.discover store) state) ∧
      (candidates.foldl (Commits.discover store) state).seen =
        state.seen ++ fresh state.seen candidates := by
  rw [← RecursiveUnion.foldl_insert]
  induction candidates generalizing state with
  | nil => exact ⟨h, rfl⟩
  | cons candidate candidates ih =>
    obtain ⟨entry, hentry⟩ := hcached candidate List.mem_cons_self
    obtain ⟨hnext, hseen⟩ := h.discover hentry
    have hrest := ih hnext fun oid hoid => hcached oid (List.mem_cons_of_mem _ hoid)
    rw [List.foldl_cons, List.foldl_cons]
    rcases hseen with ⟨hold, hseen⟩ | ⟨hnew, hseen⟩
    · rw [if_pos hold]
      rw [hseen] at hrest
      exact hrest
    · rw [if_neg hnew]
      rw [hseen] at hrest
      exact hrest

/-- The first node leaves the queue. -/
theorem Pending.pop (h : Pending store yielded state) {queue : List WalkNode}
    (hpop : Heap.pop before state.queue = some (node, queue)) :
    Pending store (yielded ++ [node.oid]) { state with queue } ∧ node ∈ state.queue ∧
      ∀ other ∈ state.queue, before other node = false := by
  obtain ⟨hhead, hperm⟩ := Heap.pop_perm before hpop
  have hmem : node ∈ state.queue := List.mem_of_head? hhead
  obtain ⟨hseen, hyielded, hcached⟩ := (h.mem_queue node).1 hmem
  have hnodup : (node :: queue).Nodup := hperm.nodup_iff.1 h.queue_nodup
  refine ⟨?_, hmem, h.ordered.head before_weak hhead⟩
  refine
    { nodup := h.nodup, sequence_eq := h.sequence_eq
      ordered := Heap.pop_ordered before_weak h.ordered hpop
      queue_nodup := (nodup_cons.1 hnodup).2, mem_queue := ?_, yielded_seen := ?_
      cached := h.cached }
  · intro other
    rw [mem_append, not_or, mem_singleton]
    constructor
    · intro hother
      have hbefore := (h.mem_queue other).1 (hperm.mem_iff.2 (List.mem_cons_of_mem _ hother))
      refine ⟨hbefore.1, ⟨hbefore.2.1, fun heq => ?_⟩, hbefore.2.2⟩
      -- two nodes of one commit have its position and its row
      have hsequence : other.sequence = node.sequence := by
        have hlt := (List.getElem?_eq_some_iff.1 hbefore.1).1
        refine (List.getElem?_inj hlt h.nodup).1 ?_
        rw [hbefore.1, hseen, heq]
      have hentry : other.entry = node.entry := by
        have := hbefore.2.2
        rw [heq, hcached] at this
        exact (Option.some.inj this).symm
      have hsame : other = node := by
        obtain ⟨oid, entry, sequence⟩ := other
        obtain ⟨oid', entry', sequence'⟩ := node
        dsimp only at heq hsequence hentry
        rw [heq, hsequence, hentry]
      rw [hsame] at hother
      exact (nodup_cons.1 hnodup).1 hother
    · rintro ⟨hother, ⟨hnot, hne⟩, hrow⟩
      have hin := hperm.mem_iff.1 ((h.mem_queue other).2 ⟨hother, hnot, hrow⟩)
      rcases mem_cons.1 hin with rfl | hin
      · exact absurd rfl hne
      · exact hin
  · exact List.forall_mem_append.2
      ⟨h.yielded_seen, List.forall_mem_singleton.2 (List.mem_of_getElem? hseen)⟩

-- The order of a walk

/-- The time of a commit's row. -/
def timeAt (store : CommitStore) (oid : Text) : Option Int :=
  (store.cachedCommit oid).map timestampOf

/-- A commit goes before another: it is later, or as late and discovered first. -/
def Precedes (store : CommitStore) (known : List Text) (oid other : Text) : Prop :=
  ∃ time otherTime, timeAt store oid = some time ∧ timeAt store other = some otherTime ∧
    (otherTime < time ∨ (otherTime = time ∧
      ∃ i j : Nat, i < j ∧ known[i]? = some oid ∧ known[j]? = some other))

/-- A commit that is discovered and not yet yielded, and goes before every other that is. -/
def First (store : CommitStore) (root : Text) (yielded : List Text) (oid : Text) : Prop :=
  oid ∈ discovered store root yielded ∧ oid ∉ yielded ∧
    ∀ other ∈ discovered store root yielded, other ∉ yielded → other = oid ∨
      Precedes store (discovered store root yielded) oid other

theorem discovered_append (store : CommitStore) (root : Text) (yielded : List Text) (oid : Text) :
    discovered store root (yielded ++ [oid]) = discovered store root yielded ++
      fresh (discovered store root yielded) (parentsWithin store oid) := by
  rw [discovered, List.foldl_append]
  rfl

/-- The node that the heap gives is the first. -/
theorem Pending.first
    (h : Pending store yielded state) (hseen : state.seen = discovered store root yielded)
    (hnode : node ∈ state.queue)
    (hbest : ∀ other ∈ state.queue, before other node = false) :
    First store root yielded node.oid := by
  obtain ⟨hat, hyielded, hcached⟩ := (h.mem_queue node).1 hnode
  rw [First, ← hseen]
  refine ⟨List.mem_of_getElem? hat, hyielded, fun oid hoid hpending => ?_⟩
  obtain ⟨entry, hentry⟩ := h.cached oid hoid
  obtain ⟨i, hi, hfound⟩ := List.getElem_of_mem hoid
  have hfound : state.seen[i]? = some oid := List.getElem?_eq_some_iff.2 ⟨hi, hfound⟩
  have hother : ({ oid, entry, sequence := i } : WalkNode) ∈ state.queue :=
    (h.mem_queue _).2 ⟨hfound, hpending, hentry⟩
  have horder := hbest _ hother
  simp only [before, ne_eq, ite_not, gt_iff_lt] at horder
  have htime : timeAt store node.oid = some (timestampOf node.entry) := by rw [timeAt, hcached]; rfl
  have htime' : timeAt store oid = some (timestampOf entry) := by rw [timeAt, hentry]; rfl
  split at horder
  · next heq =>
    rw [decide_eq_false_iff_not] at horder
    by_cases hsame : i = node.sequence
    · left
      rw [hsame, hat] at hfound
      exact (Option.some.inj hfound).symm
    · exact .inr ⟨_, _, htime, htime', .inr ⟨heq, node.sequence, i, by omega, hat, hfound⟩⟩
  · next hne =>
    rw [decide_eq_false_iff_not] at horder
    exact .inr ⟨_, _, htime, htime', .inl (by omega)⟩

/-- The loop with nothing that can fail. -/
def drain (store : CommitStore) : Nat → WalkState → Option (List WalkNode)
  | 0, _ => none
  | fuel + 1, state =>
    match Heap.pop before state.queue with
    | none => some []
    | some (node, queue) =>
      (drain store fuel
        ((parentsWithin store node.oid).foldl (discover store) { state with queue })).map
          (node :: ·)

/-- The commits of a walk from `root` after those that were yielded before it. -/
structure Drained (store : CommitStore) (root : Text) (yielded : List Text)
    (nodes : List WalkNode) : Prop where
  nodup : (yielded ++ nodes.map WalkNode.oid).Nodup
  mem_iff : ∀ oid, oid ∈ yielded ++ nodes.map WalkNode.oid ↔
    Reaches (parentsWithin store) root oid
  cached : ∀ node ∈ nodes, store.cachedCommit node.oid = some node.entry
  first : ∀ taken oid rest, nodes.map WalkNode.oid = taken ++ oid :: rest →
    First store root (yielded ++ taken) oid

/-- Between two turns of the loop. -/
structure Turn (store : CommitStore) (root : Text) (yielded : List Text) (state : WalkState) :
    Prop where
  pending : Pending store yielded state
  seen_eq : state.seen = discovered store root yielded
  nodup : yielded.Nodup
  closed : ∀ oid ∈ yielded, ∀ parent ∈ parentsWithin store oid, parent ∈ state.seen
  reaches : ∀ oid ∈ state.seen, Reaches (parentsWithin store) root oid
  root_seen : root ∈ state.seen

/-- Every reachable commit has a row. -/
def HasRows (store : CommitStore) (root : Text) : Prop :=
  ∀ oid, Reaches (parentsWithin store) root oid → ∃ entry, store.cachedCommit oid = some entry

theorem Turn.next {store : CommitStore} {root : Text} (hrows : HasRows store root)
    {yielded : List Text} {state : WalkState} (h : Turn store root yielded state)
    {node : WalkNode} {queue : List WalkNode}
    (hpop : Heap.pop before state.queue = some (node, queue)) :
    Turn store root (yielded ++ [node.oid])
      ((parentsWithin store node.oid).foldl (discover store) { state with queue }) := by
  obtain ⟨hpending, hmem, -⟩ := h.pending.pop hpop
  obtain ⟨hat, hyielded, -⟩ := (h.pending.mem_queue node).1 hmem
  have hreached := h.reaches node.oid (List.mem_of_getElem? hat)
  have hparents : ∀ parent ∈ parentsWithin store node.oid,
      Reaches (parentsWithin store) root parent := fun parent hparent => hreached.tail hparent
  obtain ⟨hnext, hseen⟩ := hpending.discoverAll fun parent hparent =>
    hrows parent (hparents parent hparent)
  dsimp only at hseen
  refine
    { pending := hnext, seen_eq := ?_, nodup := ?_, closed := ?_, reaches := ?_, root_seen := ?_ }
  · rw [hseen, discovered_append, h.seen_eq]
  · rw [← List.concat_eq_append]
    exact h.nodup.concat hyielded
  · intro oid hoid parent hparent
    rw [hseen]
    rcases mem_append.1 hoid with hoid | hoid
    · exact List.mem_append_left _ (h.closed oid hoid parent hparent)
    · rw [mem_singleton.1 hoid] at hparent
      exact RecursiveUnion.mem_known_fresh h.pending.nodup hparent
  · intro oid hoid
    rw [hseen] at hoid
    rcases mem_append.1 hoid with hoid | hoid
    · exact h.reaches oid hoid
    · exact hparents oid (RecursiveUnion.mem_of_mem_fresh h.pending.nodup hoid)
  · rw [hseen]
    exact List.mem_append_left _ h.root_seen

/-- Nothing is left to yield when the queue is empty. -/
theorem Turn.done (h : Turn store root yielded state) (hempty : state.queue = []) :
    Drained store root yielded [] := by
  have hall : ∀ oid ∈ state.seen, oid ∈ yielded := by
    intro oid hoid
    by_contra hnot
    obtain ⟨entry, hentry⟩ := h.pending.cached oid hoid
    obtain ⟨i, hi, hfound⟩ := List.getElem_of_mem hoid
    have hmem : ({ oid, entry, sequence := i } : WalkNode) ∈ state.queue :=
      (h.pending.mem_queue _).2 ⟨List.getElem?_eq_some_iff.2 ⟨hi, hfound⟩, hnot, hentry⟩
    rw [hempty] at hmem
    nomatch hmem
  refine { nodup := ?_, mem_iff := fun oid => ?_, cached := ?_, first := ?_ }
  · rw [List.map_nil, append_nil]
    exact h.nodup
  · rw [List.map_nil, append_nil]
    constructor
    · exact fun hoid => h.reaches oid (h.pending.yielded_seen oid hoid)
    · intro hreaches
      induction hreaches with
      | refl => exact hall root h.root_seen
      | tail _ hstep ih => exact hall _ (h.closed _ ih _ hstep)
  · exact fun node hnode => nomatch hnode
  · intro taken oid rest hsplit
    simp at hsplit

/-- What was yielded is no more than the history. -/
theorem Turn.length_le (h : Turn store root yielded state)
    (hhistory : ∀ oid, Reaches (parentsWithin store) root oid → oid ∈ history) :
    yielded.length ≤ history.length := by
  have hsub : yielded ⊆ history := fun oid hoid =>
    hhistory oid (h.reaches oid (h.pending.yielded_seen oid hoid))
  exact (List.subperm_of_subset h.nodup hsub).length_le

/-- What is drained comes in the order of `First`, by induction on the fuel. -/
theorem Turn.drained (hrows : HasRows store root) {nodes : List WalkNode}
    (h : Turn store root yielded state) (hdrain : drain store fuel state = some nodes) :
    Drained store root yielded nodes := by
  induction fuel generalizing yielded state nodes with
  | zero => cases hdrain
  | succ fuel ih =>
    rw [drain] at hdrain
    split at hdrain
    · next hnone =>
      rw [← Option.some.inj hdrain]
      exact h.done (Heap.pop_eq_none hnone)
    · next node queue hpop =>
      obtain ⟨rest, hrest, rfl⟩ := Option.map_eq_some_iff.1 hdrain
      have hdrained := ih (h.next hrows hpop) hrest
      obtain ⟨-, hmem, hbest⟩ := h.pending.pop hpop
      have hassoc : yielded ++ (node :: rest).map WalkNode.oid =
          yielded ++ [node.oid] ++ rest.map WalkNode.oid := by simp
      refine { nodup := ?_, mem_iff := fun oid => ?_, cached := ?_, first := ?_ }
      · rw [hassoc]
        exact hdrained.nodup
      · rw [hassoc]
        exact hdrained.mem_iff oid
      · intro other hother
        rcases mem_cons.1 hother with rfl | hother
        · exact ((h.pending.mem_queue other).1 hmem).2.2
        · exact hdrained.cached other hother
      · intro taken oid left hsplit
        cases taken with
        | nil =>
          obtain ⟨rfl, -⟩ := List.cons.inj hsplit
          rw [append_nil]
          exact h.pending.first h.seen_eq hmem hbest
        | cons first taken =>
          obtain ⟨rfl, hleft⟩ := List.cons.inj hsplit
          have hfirst := hdrained.first taken oid left hleft
          rw [List.append_assoc] at hfirst
          exact hfirst

/-- A walk ends: `history` bounds how often it turns. -/
theorem Turn.drains (hrows : HasRows store root)
    (hhistory : ∀ oid, Reaches (parentsWithin store) root oid →
      oid ∈ history)
    (h : Turn store root yielded state) (hfuel : history.length < yielded.length + fuel) :
    ∃ nodes, drain store fuel state = some nodes := by
  induction fuel generalizing yielded state with
  | zero =>
    have := h.length_le hhistory
    omega
  | succ fuel ih =>
    rw [drain]
    split
    · exact ⟨[], rfl⟩
    · next node queue hpop =>
      obtain ⟨nodes, hdrain⟩ := ih (h.next hrows hpop)
        (by rw [List.length_append, List.length_singleton]; omega)
      exact ⟨node :: nodes, by rw [hdrain]; rfl⟩

end Kompjutr.Commits
