/-
  Kompjutr.Index.TableSound

  A batch of mutations leaves the table as the mutations one at a time do, so it does not
  matter where the buffer is flushed.

  `applyOne` is the meaning of one mutation.  For a path and a stage only two positions of
  a batch count: the last put of the key and the last remove of the path.
-/
import Kompjutr.Index.Table
import Mathlib.Data.List.Basic

namespace Kompjutr.Index

open Objects (Text text)
open List (foldl_append foldl_cons foldl_nil map_append)

section Batch

variable {Owner : Type} [DecidableEq Owner] {owner : Owner}

/-- One mutation: a put upserts its path and stage, a remove deletes every stage of its path. -/
def applyOne (owner : Owner) (rows : Rows Owner) : Mutation → Rows Owner
  | .put entry => upsert owner rows entry
  | .remove path => deletePaths owner rows [path]

-- One key

/-- What a mutation makes of the row of a path and a stage. -/
def atKey (path : Text) (stage : Nat) (row : Option Columns) : Mutation → Option Columns
  | .put entry => if path = entry.path ∧ stage = entry.stage then some entry.columns else row
  | .remove other => if path = other then none else row

theorem applyOne_apply (rows : Rows Owner) (item : Mutation) (path : Text) (stage : Nat) :
    applyOne owner rows item owner path stage = atKey path stage (rows owner path stage) item := by
  cases item with
  | put entry => simp [applyOne, upsert, atKey]
  | remove other => simp [applyOne, deletePaths, atKey]

theorem applyOne_other (rows : Rows Owner) (item : Mutation) {other : Owner} (h : other ≠ owner) :
    applyOne owner rows item other = rows other := by
  funext path stage
  cases item with
  | put entry => simp [applyOne, upsert, h]
  | remove removed => simp [applyOne, deletePaths, h]

theorem foldl_applyOne_apply (rows : Rows Owner) (items : List Mutation) (path : Text)
    (stage : Nat) :
    items.foldl (applyOne owner) rows owner path stage =
      items.foldl (atKey path stage) (rows owner path stage) := by
  induction items generalizing rows with
  | nil => rfl
  | cons item items ih => rw [foldl_cons, ih, applyOne_apply, foldl_cons]

theorem foldl_applyOne_other (rows : Rows Owner) (items : List Mutation) {other : Owner}
    (h : other ≠ owner) : items.foldl (applyOne owner) rows other = rows other := by
  induction items generalizing rows with
  | nil => rfl
  | cons item items ih => rw [foldl_cons, ih, applyOne_other rows item h]

-- The windows

theorem windowMax_append (partition : Mutation → Bool) (rows : List (Mutation × Nat))
    (row : Mutation × Nat) :
    windowMax partition (rows ++ [row]) =
      if partition row.1 then max (windowMax partition rows) row.2
      else windowMax partition rows := by
  rw [windowMax, foldl_append]
  rfl

/-- The last position of a window lies inside the batch. -/
theorem windowMax_lt (partition : Mutation → Bool) (items : List Mutation) :
    windowMax partition items.zipIdx < items.length := by
  induction items using List.reverseRecOn with
  | nil => exact Int.negSucc_lt_zero 0
  | append_singleton items item ih =>
    rw [List.zipIdx_append, List.zipIdx_singleton, windowMax_append, List.length_append,
      List.length_singleton]
    dsimp only
    split <;> omega

/-- The put of a key that a batch inserts, from the positions of the last put and remove. -/
def selected (path : Text) (stage : Nat) (lastPut lastRemove : Int)
    (rows : List (Mutation × Nat)) : List IndexEntry :=
  rows.filterMap fun row =>
    match row.1 with
    | .remove _ => none
    | .put entry =>
      if putsKey path stage (.put entry) && (row.2 : Int) = lastPut && lastRemove < row.2 then
        some entry
      else none

theorem selected_append (path : Text) (stage : Nat) (lastPut lastRemove : Int)
    (rows : List (Mutation × Nat)) (row : Mutation × Nat) :
    selected path stage lastPut lastRemove (rows ++ [row]) =
      selected path stage lastPut lastRemove rows ++
        selected path stage lastPut lastRemove [row] := List.filterMap_append

/-- Positions past the batch select nothing. -/
theorem selected_eq_nil {path : Text} {stage : Nat} {lastPut lastRemove : Int}
    {rows : List (Mutation × Nat)}
    (h : ∀ row ∈ rows, (row.2 : Int) ≠ lastPut ∨ (row.2 : Int) ≤ lastRemove) :
    selected path stage lastPut lastRemove rows = [] := by
  unfold selected
  rw [List.filterMap_eq_nil_iff]
  rintro ⟨item, q⟩ hrow
  cases item with
  | remove other => rfl
  | put entry =>
    have hq := h _ hrow
    dsimp only at hq ⊢
    rw [if_neg]
    simp only [Bool.and_eq_true, decide_eq_true_eq]
    omega

theorem lt_of_mem_zipIdx {items : List Mutation} {row : Mutation × Nat}
    (h : row ∈ items.zipIdx) : row.2 < items.length := by
  have := (List.mem_zipIdx h).2.1
  omega

/-- The entries that a batch inserts for one key. -/
theorem filter_rankedPuts (items : List Mutation) (path : Text) (stage : Nat) :
    ((rankedPuts items).filter fun entry => putsKey path stage (.put entry)) =
      selected path stage (windowMax (putsKey path stage) items.zipIdx)
        (windowMax (removesPath path) items.zipIdx) items.zipIdx := by
  unfold rankedPuts selected
  dsimp only
  rw [List.filter_filterMap]
  refine List.filterMap_congr fun row _ => ?_
  obtain ⟨item, q⟩ := row
  cases item with
  | remove other => rfl
  | put entry =>
    dsimp only
    by_cases hkey : putsKey path stage (.put entry) = true
    · obtain ⟨rfl, rfl⟩ : entry.path = path ∧ entry.stage = stage := by simpa [putsKey] using hkey
      rw [hkey, Bool.true_and]
      split <;> simp [Option.filter, hkey]
    · rw [Bool.not_eq_true] at hkey
      rw [hkey, Bool.false_and, Bool.false_and, if_neg Bool.false_ne_true]
      split <;> simp [Option.filter, hkey]

theorem putsKey_put {path : Text} {stage : Nat} {entry : IndexEntry} :
    putsKey path stage (.put entry) = true ↔ path = entry.path ∧ stage = entry.stage := by
  rw [putsKey, Bool.and_eq_true, decide_eq_true_eq, decide_eq_true_eq]
  exact and_congr eq_comm eq_comm

/-- The last position of a window after one more mutation. -/
theorem windowMax_concat (partition : Mutation → Bool) (items : List Mutation) (item : Mutation) :
    windowMax partition (items.zipIdx ++ [(item, items.length)]) =
      if partition item then (items.length : Int) else windowMax partition items.zipIdx := by
  rw [windowMax_append]
  have hinside := windowMax_lt partition items
  dsimp only
  split
  · exact max_eq_right (Int.le_of_lt hinside)
  · rfl

theorem removedPaths_concat (items : List Mutation) (item : Mutation) :
    removedPaths (items ++ [item]) =
      removedPaths items ++ if item.isPut then [] else [item.path] := by
  unfold removedPaths
  rw [List.filter_append, map_append]
  cases item <;> rfl

/-- The row of a key after a batch: the last mutation that touches it decides. -/
theorem foldl_atKey (items : List Mutation) (path : Text) (stage : Nat) (row : Option Columns) :
    items.foldl (atKey path stage) row =
      (selected path stage (windowMax (putsKey path stage) items.zipIdx)
        (windowMax (removesPath path) items.zipIdx) items.zipIdx).foldl
          (fun _ entry => some entry.columns)
          (if path ∈ removedPaths items then none else row) := by
  induction items using List.reverseRecOn with
  | nil => rfl
  | append_singleton items item ih =>
    have hzip : (items ++ [item]).zipIdx = items.zipIdx ++ [(item, items.length)] := by
      rw [List.zipIdx_append, List.zipIdx_singleton, Nat.zero_add]
    rw [hzip, windowMax_concat, windowMax_concat, selected_append, foldl_append,
      foldl_append, foldl_cons, foldl_nil, removedPaths_concat]
    cases item with
    | put entry =>
      have hputs : (Mutation.put entry).isPut = true := rfl
      have hkeeps : ¬ removesPath path (.put entry) = true := Bool.false_ne_true
      rw [if_neg hkeeps, if_pos hputs, List.append_nil]
      by_cases hkey : putsKey path stage (.put entry) = true
      · -- the put is the last of its key, and no remove comes after it
        have hearlier : selected path stage (items.length : Int)
            (windowMax (removesPath path) items.zipIdx) items.zipIdx = [] := by
          refine selected_eq_nil fun row hrow => ?_
          have := lt_of_mem_zipIdx hrow
          omega
        have hlast : selected path stage (items.length : Int)
            (windowMax (removesPath path) items.zipIdx) [(.put entry, items.length)] =
              [entry] := by
          simp [selected, hkey, windowMax_lt (removesPath path) items]
        rw [if_pos hkey, hearlier, hlast, foldl_nil, foldl_cons, foldl_nil, atKey,
          if_pos (putsKey_put.mp hkey)]
      · have hlast : ∀ lastPut lastRemove, selected path stage lastPut lastRemove
            [(.put entry, items.length)] = [] := by
          intro lastPut lastRemove
          simp [selected, hkey]
        rw [if_neg hkey, hlast, foldl_nil, atKey, if_neg (mt putsKey_put.mpr hkey), ih]
    | remove other =>
      have hremoves : ¬ (Mutation.remove other).isPut = true := Bool.false_ne_true
      have hnoput : ¬ putsKey path stage (.remove other) = true := Bool.false_ne_true
      have hlast : ∀ lastPut lastRemove, selected path stage lastPut lastRemove
          [(.remove other, items.length)] = [] := fun _ _ => rfl
      rw [if_neg hnoput, if_neg hremoves, hlast, foldl_nil, atKey]
      by_cases hpath : path = other
      · -- nothing that was put before the remove is kept
        have hwindow : removesPath path (.remove other) = true := by simp [removesPath, hpath]
        have hearlier : selected path stage (windowMax (putsKey path stage) items.zipIdx)
            (items.length : Int) items.zipIdx = [] := by
          refine selected_eq_nil fun row hrow => ?_
          have := lt_of_mem_zipIdx hrow
          omega
        have hmem : path ∈ removedPaths items ++ [(Mutation.remove other).path] := by
          simp [hpath, Mutation.path]
        rw [if_pos hwindow, hearlier, foldl_nil, if_pos hpath, if_pos hmem]
      · have hwindow : ¬ removesPath path (.remove other) = true := by
          simp [removesPath, Ne.symm hpath]
        have hmem : path ∈ removedPaths items ++ [(Mutation.remove other).path] ↔
            path ∈ removedPaths items := by
          simp [hpath, Mutation.path]
        rw [if_neg hwindow, if_neg hpath, ih]
        simp only [hmem]

-- A batch

theorem foldl_upsert_apply (rows : Rows Owner) (entries : List IndexEntry) (path : Text)
    (stage : Nat) :
    entries.foldl (upsert owner) rows owner path stage =
      (entries.filter fun entry => putsKey path stage (.put entry)).foldl
        (fun _ entry => some entry.columns) (rows owner path stage) := by
  induction entries generalizing rows with
  | nil => rfl
  | cons entry entries ih =>
    rw [foldl_cons, ih, List.filter_cons]
    by_cases hkey : putsKey path stage (.put entry) = true
    · have := putsKey_put.mp hkey
      rw [if_pos hkey, foldl_cons]
      simp [upsert, this]
    · have := mt putsKey_put.mpr hkey
      rw [if_neg hkey]
      simp [upsert, this]

theorem foldl_upsert_other (rows : Rows Owner) (entries : List IndexEntry) {other : Owner}
    (h : other ≠ owner) : entries.foldl (upsert owner) rows other = rows other := by
  induction entries generalizing rows with
  | nil => rfl
  | cons entry entries ih =>
    rw [foldl_cons, ih]
    funext path stage
    simp [upsert, h]

/-- The branches that skip a statement skip one that does nothing. -/
theorem applyIndexMutations_eq (rows : Rows Owner) (pending : List BufferedIndexMutation) :
    applyIndexMutations owner rows pending =
      (rankedPuts (pending.map (·.item))).foldl (upsert owner)
        (deletePaths owner rows (removedPaths (pending.map (·.item)))) := by
  unfold applyIndexMutations
  dsimp only
  generalize pending.map (·.item) = items
  have hdelete : (if items.any (!·.isPut) then deletePaths owner rows (removedPaths items)
      else rows) = deletePaths owner rows (removedPaths items) := by
    split
    · rfl
    · next hnone =>
      have hempty : removedPaths items = [] := by
        unfold removedPaths
        rw [List.map_eq_nil_iff, List.filter_eq_nil_iff]
        simpa using hnone
      rw [hempty]
      funext other path stage
      simp [deletePaths]
  rw [hdelete]
  split
  · next hnone =>
    have hempty : rankedPuts items = [] := by
      unfold rankedPuts
      rw [List.filterMap_eq_nil_iff]
      rintro ⟨item, q⟩ hrow
      cases item with
      | remove other => rfl
      | put entry =>
        have hmem : Mutation.put entry ∈ items := List.fst_mem_of_mem_zipIdx hrow
        have hno : items.any Mutation.isPut = false := by simpa using hnone
        exact absurd (List.any_eq_false.mp hno _ hmem) (by simp [Mutation.isPut])
    rw [hempty, foldl_nil]
  · rfl

/-- A batch is its mutations one at a time. -/
theorem applyIndexMutations_eq_foldl (rows : Rows Owner) (pending : List BufferedIndexMutation) :
    applyIndexMutations owner rows pending =
      (pending.map (·.item)).foldl (applyOne owner) rows := by
  rw [applyIndexMutations_eq]
  funext other path stage
  by_cases hother : other = owner
  · subst hother
    rw [foldl_upsert_apply, filter_rankedPuts, foldl_applyOne_apply, foldl_atKey]
    simp [deletePaths]
  · rw [foldl_upsert_other _ _ hother, foldl_applyOne_other _ _ hother]
    simp [deletePaths, hother]

end Batch

-- The buffer

section Buffer

variable {σ : Type} {apply : σ → List BufferedIndexMutation → σ} {step : σ → Mutation → σ}

/-- The state once the pending mutations are taken, one at a time. -/
def settled (step : σ → Mutation → σ) (state : IndexMutationBuffer × σ) : σ :=
  (state.1.pending.map (·.item)).foldl step state.2

variable (happly : ∀ (s : σ) (pending : List BufferedIndexMutation), pending ≠ [] →
  apply s pending = (pending.map (·.item)).foldl step s)

include happly

theorem flush_eq (state : IndexMutationBuffer × σ) :
    (flush apply state).1.pending = [] ∧ (flush apply state).2 = settled step state := by
  unfold flush
  split
  · next hempty =>
    have hnil : state.1.pending = [] := List.eq_nil_of_length_eq_zero hempty
    exact ⟨hnil, by rw [settled, hnil, List.map_nil, foldl_nil]⟩
  · next hfull =>
    have hpending : state.1.pending ≠ [] := fun h => hfull (by rw [h, List.length_nil])
    exact ⟨rfl, happly _ _ hpending⟩

theorem settled_flush (state : IndexMutationBuffer × σ) :
    settled step (flush apply state) = settled step state := by
  rw [settled, (flush_eq happly state).1, List.map_nil, foldl_nil, (flush_eq happly state).2]

/-- Wherever `add` flushes, the mutation is taken after all that came before it. -/
theorem settled_add (flushEvery : Option Nat) (limit : Nat) (state : IndexMutationBuffer × σ)
    (item : Mutation) :
    settled step (add apply flushEvery limit state item) = step (settled step state) item := by
  have hconcat : ∀ (buffered : IndexMutationBuffer × σ) (mutation : BufferedIndexMutation) bytes,
      mutation.item = item → settled step buffered = settled step state →
      settled step ({ pending := buffered.1.pending ++ [mutation], bytes }, buffered.2) =
        step (settled step state) item := by
    intro buffered mutation bytes hitem hbuffered
    rw [← hbuffered, settled, settled, map_append, foldl_append, List.map_singleton,
      foldl_cons, foldl_nil, hitem]
  have hflush : ∀ (full : Bool) (buffered : IndexMutationBuffer × σ),
      settled step (if full then flush apply buffered else buffered) = settled step buffered := by
    intro full buffered
    split
    · exact settled_flush happly buffered
    · rfl
  unfold add
  dsimp only
  rw [hflush]
  refine hconcat _ _ _ ?_ (hflush _ _)
  rw [apply_ite BufferedIndexMutation.item]
  exact ite_self _

end Buffer

-- The table's writes

/-- The mutation that a call of the sink asks for. -/
def SinkCall.mutation : SinkCall → Option Mutation
  | .put entry => some (.put entry)
  | .remove path => some (.remove path)
  | .flush => none

/-- The check that a call of the sink makes. -/
def SinkCall.check (source : OwnedIndexSource) : SinkCall → Except GitError Unit
  | .put entry => (checkedEntry source entry).map fun _ => ()
  | .remove _ => .ok ()
  | .flush => .ok ()

theorem checkedEntry_eq {source : OwnedIndexSource} {entry checked : IndexEntry}
    (h : checkedEntry source entry = .ok checked) : checked = entry := by
  cases source with
  | checkout repoId checkoutId => exact (Except.ok.inj h).symm
  | scratch repoId name =>
    obtain ⟨_, _, hoid⟩ := Fuel.bind_eq_ok.mp h
    split at hoid
    · exact absurd hoid nofun
    · exact (Except.ok.inj hoid).symm

/-- A checked entry is put as it was given. -/
theorem checkedEntry_map {α : Type} (source : OwnedIndexSource) (entry : IndexEntry)
    (f : IndexEntry → α) :
    (checkedEntry source entry).map f =
      (checkedEntry source entry).map fun _ => f entry := by
  generalize hchecked : checkedEntry source entry = checked
  cases checked with
  | error e => rfl
  | ok checked => rw [checkedEntry_eq hchecked]; rfl

section

variable (source : OwnedIndexSource) (flushEvery : Option Nat) (limit : Nat)

include source flushEvery limit

theorem settled_sinkCall (state : IndexMutationBuffer × IndexRows) (call : SinkCall) :
    (sinkCall source flushEvery limit state call).map (settled (applyOne source)) =
      (call.check source).map fun _ =>
        call.mutation.toList.foldl (applyOne source) (settled (applyOne source) state) := by
  have happly : ∀ (rows : IndexRows) pending, pending ≠ [] →
      applyIndexMutations source rows pending =
        (pending.map (·.item)).foldl (applyOne source) rows :=
    fun rows pending _ => applyIndexMutations_eq_foldl rows pending
  cases call with
  | put entry =>
    unfold sinkCall SinkCall.check
    dsimp only
    rw [checkedEntry_map]
    generalize checkedEntry source entry = checked
    cases checked with
    | error e => rfl
    | ok checked => exact congrArg Except.ok (settled_add happly flushEvery limit state _)
  | remove path => exact congrArg Except.ok (settled_add happly flushEvery limit state _)
  | flush => exact congrArg Except.ok (settled_flush happly state)

/-- A run of calls, by induction on the calls: the buffered state always settles to the
    mutations taken so far. -/
theorem settled_sinkCalls (calls : List SinkCall) (state : IndexMutationBuffer × IndexRows) :
    (calls.foldlM (sinkCall source flushEvery limit) state).map (settled (applyOne source)) =
      (calls.forM (SinkCall.check source)).map fun _ =>
        (calls.filterMap SinkCall.mutation).foldl (applyOne source)
          (settled (applyOne source) state) := by
  induction calls generalizing state with
  | nil => rfl
  | cons call calls ih =>
    have hcall := settled_sinkCall source flushEvery limit state call
    have hforM : (call :: calls).forM (SinkCall.check source) =
        call.check source >>= fun _ => calls.forM (SinkCall.check source) := rfl
    rw [List.foldlM_cons, hforM]
    generalize hnext : sinkCall source flushEvery limit state call = next at hcall ⊢
    generalize hcheck : call.check source = checked at hcall ⊢
    cases next with
    | error e =>
      cases checked with
      | error e' => exact congrArg Except.error (Except.error.inj hcall)
      | ok _ => exact absurd hcall nofun
    | ok next =>
      cases checked with
      | error e' => exact absurd hcall nofun
      | ok _ =>
        have hsettled := Except.ok.inj hcall
        rw [Fuel.ok_bind, Fuel.ok_bind, ih, hsettled]
        cases hmutation : call.mutation with
        | none => rw [List.filterMap_cons_none hmutation]; rfl
        | some item => rw [List.filterMap_cons_some hmutation]; rfl

theorem indexApply_eq (rows : IndexRows) (calls : List SinkCall) :
    indexApply source flushEvery limit rows calls =
      (calls.forM (SinkCall.check source)).map fun _ =>
        (calls.filterMap SinkCall.mutation).foldl (applyOne source) rows := by
  have hrun := settled_sinkCalls source flushEvery limit calls (emptyBuffer, rows)
  have hflush : (fun state : IndexMutationBuffer × IndexRows =>
      (flush (applyIndexMutations source) state).2) = settled (applyOne source) :=
    funext fun state =>
      (flush_eq (fun rows pending _ => applyIndexMutations_eq_foldl rows pending) state).2
  unfold indexApply
  rw [hflush, hrun]
  rfl

end

-- Replacing an index

/-- One mutation of `indexReplace`: the first clears the rows. -/
def replaceOne (source : OwnedIndexSource) (state : Bool × IndexRows) (item : Mutation) :
    Bool × IndexRows :=
  (false, applyOne source (if state.1 then clearRows source state.2 else state.2) item)

theorem foldl_replaceOne (source : OwnedIndexSource) (rows : IndexRows) (items : List Mutation) :
    items.foldl (replaceOne source) (false, rows) =
      (false, items.foldl (applyOne source) rows) := by
  induction items generalizing rows with
  | nil => rfl
  | cons item items ih =>
    rw [foldl_cons, foldl_cons, ← ih]
    rfl

theorem replaceFlush_eq (source : OwnedIndexSource) (state : Bool × IndexRows)
    (pending : List BufferedIndexMutation) (h : pending ≠ []) :
    replaceFlush source state pending =
      (pending.map (·.item)).foldl (replaceOne source) state := by
  obtain ⟨mutation, pending, rfl⟩ := List.exists_cons_of_ne_nil h
  rw [List.map_cons, foldl_cons]
  unfold replaceFlush
  rw [applyIndexMutations_eq_foldl, List.map_cons, foldl_cons]
  exact (foldl_replaceOne source _ _).symm

/-- The rows that `indexReplace` leaves when it ends in this state. -/
def replaced (source : OwnedIndexSource) (state : Bool × IndexRows) : IndexRows :=
  if state.1 then clearRows source state.2 else state.2

theorem replaced_foldl (source : OwnedIndexSource) (state : Bool × IndexRows)
    (items : List Mutation) :
    replaced source (items.foldl (replaceOne source) state) =
      items.foldl (applyOne source) (replaced source state) := by
  induction items generalizing state with
  | nil => rfl
  | cons item items ih =>
    rw [foldl_cons, ih, foldl_cons]
    rfl

/-- The puts of `indexReplace`, by induction on the entries. -/
theorem settled_replacePuts (source : OwnedIndexSource) (flushEvery : Option Nat) (limit : Nat)
    (entries : List IndexEntry) (state : IndexMutationBuffer × (Bool × IndexRows)) :
    (entries.foldlM (replacePut source flushEvery limit) state).map
        (settled (replaceOne source)) =
      (entries.forM fun entry => SinkCall.check source (.put entry)).map fun _ =>
        (entries.map Mutation.put).foldl (replaceOne source)
          (settled (replaceOne source) state) := by
  induction entries generalizing state with
  | nil => rfl
  | cons entry entries ih =>
    have hforM : ((entry :: entries).forM fun entry => SinkCall.check source (.put entry)) =
        (checkedEntry source entry).map (fun _ => ()) >>= fun _ =>
          entries.forM fun entry => SinkCall.check source (.put entry) := rfl
    have hput : replacePut source flushEvery limit state entry =
        (checkedEntry source entry).map fun _ =>
          add (replaceFlush source) flushEvery limit state (.put entry) := checkedEntry_map ..
    rw [List.foldlM_cons, hforM, hput]
    generalize checkedEntry source entry = checked
    cases checked with
    | error e => rfl
    | ok checked =>
      have hadd := settled_add (replaceFlush_eq source) flushEvery limit state (.put entry)
      refine (ih _).trans ?_
      rw [hadd]
      rfl

/-- The last put of a path and a stage. -/
def lastPut (entries : List IndexEntry) (path : Text) (stage : Nat) : Option IndexEntry :=
  entries.reverse.find? fun entry => putsKey path stage (.put entry)

/-- The row of a key after puts: the last put of the key, or the row from before. -/
theorem foldl_puts (path : Text) (stage : Nat) (row : Option Columns)
    (entries : List IndexEntry) :
    (entries.map Mutation.put).foldl (atKey path stage) row =
      ((lastPut entries path stage).map IndexEntry.columns).or row := by
  induction entries using List.reverseRecOn with
  | nil => rfl
  | append_singleton entries entry ih =>
    unfold lastPut at ih ⊢
    rw [map_append, foldl_append, ih, List.reverse_append, List.reverse_singleton,
      List.singleton_append, List.map_singleton, foldl_cons, foldl_nil, atKey]
    by_cases hkey : putsKey path stage (.put entry) = true
    · rw [if_pos (putsKey_put.mp hkey), List.find?_cons, hkey]
      rfl
    · rw [if_neg (mt putsKey_put.mpr hkey), List.find?_cons, Bool.eq_false_iff.mpr hkey]

theorem indexReplace_eq (source : OwnedIndexSource) (flushEvery : Option Nat) (limit : Nat)
    (rows : IndexRows) (entries : List IndexEntry) :
    indexReplace source flushEvery limit rows entries =
      (entries.forM fun entry => SinkCall.check source (.put entry)).map fun _ =>
        fun other path stage =>
          if other = source then (lastPut entries path stage).map IndexEntry.columns
          else rows other path stage := by
  have hrun := settled_replacePuts source flushEvery limit entries (emptyBuffer, (true, rows))
  have hreplaced : ∀ state : IndexMutationBuffer × (Bool × IndexRows),
      replaced source (flush (replaceFlush source) state).2 =
        replaced source (settled (replaceOne source) state) :=
    fun state => congrArg (replaced source) (flush_eq (replaceFlush_eq source) state).2
  have hmap : indexReplace source flushEvery limit rows entries =
      ((entries.foldlM (replacePut source flushEvery limit) (emptyBuffer, (true, rows))).map
        (settled (replaceOne source))).map (replaced source) := by
    unfold indexReplace
    generalize entries.foldlM (replacePut source flushEvery limit) (emptyBuffer, (true, rows)) = run
    cases run with
    | error e => rfl
    | ok state => exact congrArg Except.ok (hreplaced state)
  rw [hmap, hrun]
  generalize (entries.forM fun entry => SinkCall.check source (.put entry)) = checked
  cases checked with
  | error e => rfl
  | ok _ =>
    refine congrArg Except.ok ?_
    rw [replaced_foldl]
    funext other path stage
    by_cases hother : other = source
    · subst hother
      rw [foldl_applyOne_apply, foldl_puts]
      simp [replaced, settled, emptyBuffer, clearRows]
    · rw [foldl_applyOne_other _ _ hother]
      simp [replaced, settled, emptyBuffer, clearRows, hother]

end Kompjutr.Index
