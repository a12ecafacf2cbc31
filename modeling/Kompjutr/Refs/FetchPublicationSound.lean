/-
  Kompjutr.Refs.FetchPublicationSound

  A publication that succeeds was not overtaken.  The revision of a tracking ref, and the
  generation and revision of a fetch namespace, are version stamps (`Lib.Stamp`): each
  transaction moves forward those of every ref that it changes, and the begin of a fetch
  those of everything its namespace overlaps.
-/
import Kompjutr.Lib.Stamp
import Kompjutr.Refs.FetchPublication
import Kompjutr.Refs.TableSound

namespace Kompjutr.Refs

open Objects (Text text)
open Fuel (bind_eq_ok foldlM_ok forM_ok)
open Stamp (Undisturbed Guards)
open List (append_nil contains_iff_mem mem_filter mem_map)

variable {rows : List FetchNamespace} {move : Option (Nat × Text)}
  {publication : NormalizedRefMutation} {candidates names : List Text} {issued : FetchTables}

variable {changed : List Text} {tables before after : RefTables}
  {name refName trackingPrefix value : Text} {metadata : RefLogMetadata} {owner : HeadOwner}
  {token : FetchPublication} {target : Option Text} {store : FetchTables} {row : FetchNamespace}
  {state next : PlanState} {plan : FetchPublicationPlan} {revision : Nat}

-- What a mutation does to the revisions

/-- `names` covers what changed, and every revision of them was advanced. -/
structure Advanced (before after : RefTables) (names : List Text) : Prop where
  refs : ∀ name, name ∉ names → after.refs.lookup name = before.refs.lookup name
  tracking : after.trackingRevisions = before.trackingRevisions.map fun row =>
    if names.contains row.1 then (row.1, row.2 + 1) else row
  namespaces : after.fetchNamespaces = before.fetchNamespaces.map fun row =>
    if names.any row.trackingPrefix.isPrefixOf then { row with revision := row.revision + 1 }
    else row
  generation : after.fetchGeneration = before.fetchGeneration

theorem advanced_refl (tables : RefTables) : Advanced tables tables [] where
  refs := fun _ _ => rfl
  tracking := (List.map_id' _).symm
  namespaces := (List.map_id' _).symm
  generation := rfl

theorem bumpTrackingRefRevisions_ok {rows bumped : List (Text × Nat)}
    (h : bumpTrackingRefRevisions changed rows = .ok bumped) :
    bumped = rows.map fun row => if changed.contains row.1 then (row.1, row.2 + 1) else row := by
  replace h := Fuel.after_check h
  exact (Except.ok.inj h).symm

theorem bumpFetchNamespaceRevisions_ok {bumped : List FetchNamespace}
    (h : bumpFetchNamespaceRevisions changed rows = .ok bumped) :
    bumped = rows.map fun row =>
      if changed.any row.trackingPrefix.isPrefixOf then { row with revision := row.revision + 1 }
      else row := by
  unfold bumpFetchNamespaceRevisions at h
  split at h
  · next hempty =>
    rw [hempty, ← Except.ok.inj h]
    exact (List.map_id' _).symm
  · replace h := Fuel.after_check h
    replace h := Fuel.after_check h
    exact (Except.ok.inj h).symm

theorem nextTrackingRevisions_ok
    {rows : List (Text × Nat)} (h : nextTrackingRevisions tables changed = .ok rows) :
    rows = tables.trackingRevisions.map fun row =>
      if changed.contains row.1 then (row.1, row.2 + 1) else row := by
  unfold nextTrackingRevisions at h
  split at h
  · exact bumpTrackingRefRevisions_ok h
  · next hnone =>
    have hempty : tables.trackingRevisions = [] := List.length_eq_zero_iff.1 (by omega)
    rw [← Except.ok.inj h, hempty]
    rfl

theorem nextFetchNamespaces_ok (h : nextFetchNamespaces tables changed = .ok rows) :
    rows = tables.fetchNamespaces.map fun row =>
      if changed.any row.trackingPrefix.isPrefixOf then { row with revision := row.revision + 1 }
      else row := by
  unfold nextFetchNamespaces at h
  split at h
  · exact bumpFetchNamespaceRevisions_ok h
  · next hnone =>
    rw [← Except.ok.inj h, of_not_not hnone]
    rfl

/-- The move of a HEAD concerns neither the refs nor the revisions. -/
theorem moveHead_ok {moved : RefTables} (h : moveHead tables move = .ok moved) :
    moved.refs = tables.refs ∧ moved.trackingRevisions = tables.trackingRevisions ∧
      moved.fetchNamespaces = tables.fetchNamespaces ∧
      moved.fetchGeneration = tables.fetchGeneration := by
  cases move with
  | none =>
    cases h
    exact ⟨rfl, rfl, rfl, rfl⟩
  | some target =>
    replace h := Fuel.after_check h
    cases h
    exact ⟨rfl, rfl, rfl, rfl⟩

theorem lookup_applyEvents_of_not_mem {refs : RefMap} {events : List RefLogEvent}
    (h : name ∉ events.map (·.refName)) :
    (applyEvents refs events).lookup name = refs.lookup name := by
  show (events.foldl insertEvent _).lookup name = _
  rw [lookup_foldl_insert_of_not_mem h, lookup_foldl_erase, if_neg]
  intro hfiltered
  obtain ⟨event, hevent, rfl⟩ := mem_map.1 hfiltered
  exact h (List.mem_map_of_mem (mem_filter.1 hevent).1)

theorem publishEvents_advanced {direct : List RefLogEvent}
    {heads : List CheckoutRefLogEvent} (hnames : ∀ name, name ∈ direct.map (·.refName) → name ∈ changed)
    (h : publishEvents before metadata changed move direct heads = .ok after) :
    Advanced before after changed := by
  obtain ⟨moved, hmoved, h⟩ := bind_eq_ok.1 h
  obtain ⟨tracking, htracking, h⟩ := bind_eq_ok.1 h
  obtain ⟨namespaces, hnamespaces, h⟩ := bind_eq_ok.1 h
  replace h := Fuel.after_check h
  cases h
  obtain ⟨hrefs, htrackingRows, hnamespaceRows, hgeneration⟩ := moveHead_ok hmoved
  refine ⟨fun name hname => ?_, ?_, ?_, hgeneration⟩
  · change moved.refs.lookup name = _
    rw [hrefs]
    exact lookup_applyEvents_of_not_mem fun hmem => hname (hnames name hmem)
  · rw [← htrackingRows]
    exact nextTrackingRevisions_ok htracking
  · rw [← hnamespaceRows]
    exact nextFetchNamespaces_ok hnamespaces

variable {changed : Bool}

/-- A mutation advances the revisions of exactly what it changes. -/
theorem mutateNormalized_advanced {mutation : NormalizedRefMutation}
    (h : mutateNormalized before owner mutation metadata = .ok (after, changed)) :
    ∃ names, Advanced before after names ∧ (changed = false → after = before) ∧
      ∀ name ∈ names, before.refs.lookup name ≠
        afterTarget (fun name => before.refs.lookup name) mutation name := by
  replace h := Fuel.after_check h
  obtain ⟨direct, hdirect, h⟩ := bind_eq_ok.1 h
  obtain ⟨entries, -, h⟩ := bind_eq_ok.1 h
  dsimp only at h
  split at h
  · cases h
    exact ⟨[], advanced_refl _, fun _ => rfl, nofun⟩
  · replace h := Fuel.after_check h
    obtain ⟨published, hpublished, h⟩ := bind_eq_ok.1 h
    cases h
    refine ⟨_, publishEvents_advanced ?_ hpublished, fun h => (nomatch h), fun name hname =>
      mem_changedNames.1 hname⟩
    intro name hname
    rw [map_refName_numbered, (pendingDirect_ok hdirect).1] at hname
    exact (List.mergeSort_perm _ _).mem_iff.1 hname

theorem mutateRefs_advanced {mutation : RefMutation}
    (h : mutateRefs before owner mutation metadata = .ok (after, changed)) :
    ∃ names, Advanced before after names := by
  obtain ⟨normalized, -, h⟩ := bind_eq_ok.1 h
  obtain ⟨checked, -, h⟩ := bind_eq_ok.1 h
  obtain ⟨names, hadvanced, -⟩ := mutateNormalized_advanced h
  exact ⟨names, hadvanced⟩

-- The two publications

theorem bumpUnchanged_ok {bumped : RefTables}
    (h : bumpUnchanged tables refName = .ok bumped) : Advanced tables bumped [refName] := by
  obtain ⟨tracking, htracking, h⟩ := bind_eq_ok.1 h
  obtain ⟨namespaces, hnamespaces, h⟩ := bind_eq_ok.1 h
  cases h
  exact ⟨fun _ _ => rfl, bumpTrackingRefRevisions_ok htracking,
    bumpFetchNamespaceRevisions_ok hnamespaces, rfl⟩

/-- The mutation of a tracking publication writes its ref only. -/
theorem applied_trackingMutation {token : TrackingRefPublication}
    {refs : Text → Option Text} (h : name ≠ token.refName) :
    applied refs (trackingMutation token target) name = refs name := by
  cases target with
  | none => exact Function.update_of_ne h _ _
  | some target => exact Function.update_of_ne h _ _

/-- A tracking publication finds the revision of its snapshot. -/
theorem publishTrackingRef_ok {after : FetchTables} {token : TrackingRefPublication}
    (h : publishTrackingRef store owner token target metadata = .ok (after, changed)) :
    readTrackingRefRevision store.tables token.refName = some token.refRevision ∧
      (∃ names, Advanced store.tables after.tables names) ∧
      ∀ name, after.tables.refs.lookup name ≠ store.tables.refs.lookup name →
        name = token.refName := by
  unfold publishTrackingRef at h
  split at h
  · cases h
  · next tables changed' hrun =>
    cases h
    obtain ⟨normalized, hnormalized, hrun⟩ := bind_eq_ok.1 hrun
    obtain ⟨checked, -, hrun⟩ := bind_eq_ok.1 hrun
    obtain ⟨⟨⟩, hrevision, hrun⟩ := bind_eq_ok.1 hrun
    obtain ⟨⟨mutated, moved⟩, hmutate, hrun⟩ := bind_eq_ok.1 hrun
    refine ⟨by simpa using hrevision, ?_⟩
    obtain ⟨names, hadvanced, hsame, hnames⟩ := mutateNormalized_advanced hmutate
    dsimp only at hrun
    split at hrun
    · obtain rfl := (Prod.mk.inj (Except.ok.inj hrun)).1
      refine ⟨⟨names, hadvanced⟩, fun name hchanged => ?_⟩
      by_contra hother
      have hmem : name ∈ names := by
        by_contra hnot
        exact hchanged (hadvanced.refs name hnot)
      refine hnames name hmem ?_
      rw [(normalizeRefMutation_ok hnormalized).after, applied_trackingMutation hother]
    · next hmoved =>
      obtain ⟨bumped, hbumped, hrun⟩ := bind_eq_ok.1 hrun
      obtain rfl := (Prod.mk.inj (Except.ok.inj hrun)).1
      rw [hsame (Bool.eq_false_iff.2 hmoved)] at hbumped
      refine ⟨⟨_, bumpUnchanged_ok hbumped⟩, fun name hchanged => ?_⟩
      by_contra hother
      exact hchanged ((bumpUnchanged_ok hbumped).refs name (by simpa using hother))

/-- The generation and the revision of a namespace. -/
def namespaceStamp (trackingPrefix : Text) (store : FetchTables) : Nat × Nat :=
  ((readFetchNamespace store.tables trackingPrefix).map fun row =>
    (row.latestGeneration, row.revision)).getD (0, 0)

theorem namespaceStamp_of_read (h : readFetchNamespace store.tables trackingPrefix = some row) :
    namespaceStamp trackingPrefix store = (row.latestGeneration, row.revision) := by
  rw [namespaceStamp, h]
  rfl

/-- What a comparison that passes has found. -/
structure Matches (store : FetchTables) (token : FetchPublication)
    (publication : NormalizedRefMutation) : Prop where
  stamp : namespaceStamp token.trackingPrefix store = (token.generation, token.namespaceRevision)
  exact : ∀ name ∈ selectedExactRefs token publication,
    store.tables.refs.lookup name = token.exactTarget name ∨
      store.tables.refs.lookup name = publication.puts.lookup name

theorem mem_iterateRefs {target : Text} :
    (name, target) ∈ iterateRefs tables ↔ tables.refs.lookup name = some target := by
  rw [iterateRefs, (List.mergeSort_perm _ _).mem_iff, mem_map]
  constructor
  · rintro ⟨entry, hentry, heq⟩
    obtain ⟨rfl, rfl⟩ := Prod.mk.inj heq
    exact AList.mem_lookup_iff.2 hentry
  · intro h
    exact ⟨⟨name, target⟩, AList.mem_lookup_iff.1 h, rfl⟩

theorem checkRow_ok {target : Text} (h : checkRow token publication (name, target) = .ok ())
    (hname : name ∈ selectedExactRefs token publication) :
    token.exactTarget name = some target ∨ publication.puts.lookup name = some target := by
  replace h := Fuel.after_check h
  have hchecked := reject_eq_ok.1 h
  by_contra hneither
  obtain ⟨hexact, hput⟩ := not_or.1 hneither
  simp [hname, hexact, hput] at hchecked

theorem preflightFetchPublication_ok {shallowTouched : Bool}
    (h : preflightFetchPublication store token publication shallowTouched = .ok ()) :
    Matches store token publication := by
  unfold preflightFetchPublication at h
  split at h
  · cases h
  · next current hcurrent =>
    obtain ⟨⟨⟩, hgeneration, h⟩ := bind_eq_ok.1 h
    obtain ⟨⟨⟩, hrevision, h⟩ := bind_eq_ok.1 h
    replace h := Fuel.after_check h
    replace h := Fuel.after_check h
    obtain ⟨⟨⟩, hrows, h⟩ := bind_eq_ok.1 h
    obtain ⟨⟨⟩, hbound, h⟩ := bind_eq_ok.1 h
    replace h := Fuel.after_check h
    rw [reject_eq_ok, decide_eq_false_iff_not, not_not] at hgeneration hrevision
    refine ⟨?_, fun name hname => ?_⟩
    · rw [namespaceStamp_of_read hcurrent, hgeneration, hrevision]
    · cases hlookup : store.tables.refs.lookup name with
      | none =>
        -- an exact ref that is gone now was not there when the fetch began
        have hpresent := forM_ok h hname
        rw [reject_eq_ok, hlookup] at hpresent
        left
        by_contra hsome
        simp [Ne.symm hsome] at hpresent
      | some target =>
        have hall : (iterateRefs store.tables).take maxReflogStateRows = iterateRefs store.tables :=
          List.take_of_length_le (by simpa using hbound)
        rw [hall] at hrows
        have hrow := checkRow_ok (forM_ok hrows (mem_iterateRefs.2 hlookup)) hname
        exact hrow.imp Eq.symm Eq.symm

-- What a plan can write

/-- A plan writes its own namespace and the exact refs of its snapshot. -/
structure Within (token : FetchPublication) (puts : RefMap) (deletes : List Text) : Prop where
  puts : ∀ name ∈ puts, token.trackingPrefix <+: name ∨ name ∈ token.exactRefs.map (·.1)
  deletes : ∀ name ∈ deletes, token.trackingPrefix <+: name

theorem Within.insert {puts : RefMap} {deletes : List Text}
    (h : Within token puts deletes) {target : Text}
    (hname : token.trackingPrefix <+: name ∨ name ∈ token.exactRefs.map (·.1)) :
    Within token (puts.insert name target) deletes where
  puts := by
    intro other hother
    obtain rfl | hother := (AList.mem_insert puts).1 hother
    · exact hname
    · exact h.puts other hother
  deletes := h.deletes

theorem remoteHeadName_within (token : FetchPublication) :
    token.trackingPrefix <+: remoteHeadName token := List.prefix_append _ _

theorem trackingName_ok {label : String}
    (h : trackingName token value label = .ok name) : token.trackingPrefix <+: name := by
  obtain ⟨checked, -, h⟩ := bind_eq_ok.1 h
  obtain ⟨⟨⟩, hinside, h⟩ := bind_eq_ok.1 h
  cases h
  have hchecked := (Bool.or_eq_false_iff.1 (reject_eq_ok.1 hinside)).1
  exact List.isPrefixOf_iff_prefix.1 (by simpa using hchecked)

theorem addTrackingPut_ok {row : RefRow} (hstate : Within token state.puts state.deletes)
    (h : addTrackingPut token state row = .ok next) : Within token next.puts next.deletes := by
  obtain ⟨name, hname, h⟩ := bind_eq_ok.1 h
  obtain ⟨target, -, h⟩ := bind_eq_ok.1 h
  obtain ⟨inputs, -, h⟩ := bind_eq_ok.1 h
  cases h
  exact hstate.insert (.inl (trackingName_ok hname))

theorem addTrackingKeep_ok (h : addTrackingKeep token state value = .ok next) :
    next.puts = state.puts ∧ next.deletes = state.deletes := by
  obtain ⟨name, -, h⟩ := bind_eq_ok.1 h
  obtain ⟨inputs, -, h⟩ := bind_eq_ok.1 h
  cases h
  exact ⟨rfl, rfl⟩

theorem prune_within (hissued : ∀ row ∈ token.trackingRefs, token.trackingPrefix <+: row.1)
    (hstate : Within token state.puts state.deletes) :
    Within token (prune token state).puts (prune token state).deletes where
  puts := hstate.puts
  deletes := by
    intro name hname
    obtain ⟨row, hrow, rfl⟩ := mem_map.1 (mem_filter.1 hname).1
    exact hissued row hrow

theorem addTrackingKeeps_ok {keep : Option (List Text)}
    (hissued : ∀ row ∈ token.trackingRefs, token.trackingPrefix <+: row.1)
    (hstate : Within token state.puts state.deletes)
    (h : addTrackingKeeps token state keep = .ok next) : Within token next.puts next.deletes := by
  cases keep with
  | none =>
    cases h
    exact hstate
  | some names =>
    rw [addTrackingKeeps] at h
    cases hfold : names.foldlM (addTrackingKeep token) state with
    | error e =>
      rw [hfold] at h
      cases h
    | ok kept =>
      rw [hfold] at h
      cases h
      apply prune_within hissued
      refine foldlM_ok (fun state => Within token state.puts state.deletes) ?_ hstate hfold
      intro before value after _ hbefore hstep
      obtain ⟨hputs, hdeletes⟩ := addTrackingKeep_ok hstep
      rw [hputs, hdeletes]
      exact hbefore

theorem addRemoteHead_ok
    {remoteHead : Option (Option Text)} (hstate : Within token state.puts state.deletes)
    (h : addRemoteHead token state remoteHead = .ok next) :
    Within token next.puts next.deletes := by
  match remoteHead with
  | none =>
    cases h
    exact hstate
  | some none =>
    obtain ⟨inputs, -, h⟩ := bind_eq_ok.1 h
    cases h
    refine ⟨hstate.puts, fun name hname => ?_⟩
    obtain rfl | hname := List.mem_insert_iff.1 hname
    · exact remoteHeadName_within token
    · exact hstate.deletes name hname
  | some (some head) =>
    obtain ⟨target, -, h⟩ := bind_eq_ok.1 h
    obtain ⟨inputs, -, h⟩ := bind_eq_ok.1 h
    cases h
    exact hstate.insert (.inl (remoteHeadName_within token))

theorem addExactPut_ok {row : RefRow} (hstate : Within token state.puts state.deletes)
    (h : addExactPut token state row = .ok next) : Within token next.puts next.deletes := by
  obtain ⟨name, -, h⟩ := bind_eq_ok.1 h
  obtain ⟨target, -, h⟩ := bind_eq_ok.1 h
  replace h := Fuel.after_check h
  obtain ⟨⟨⟩, hexact, h⟩ := bind_eq_ok.1 h
  replace h := Fuel.after_check h
  obtain ⟨inputs, -, h⟩ := bind_eq_ok.1 h
  cases h
  refine hstate.insert (.inr ?_)
  rw [reject_eq_ok, Bool.not_eq_false', contains_iff_mem] at hexact
  exact hexact

theorem normalizeFetchPublication_ok {normalized : NormalizedFetchPublication}
    (hissued : ∀ row ∈ token.trackingRefs, token.trackingPrefix <+: row.1)
    (h : normalizeFetchPublication token plan = .ok normalized) :
    Within token normalized.refs.puts normalized.refs.deletes := by
  obtain ⟨tracked, htracked, h⟩ := bind_eq_ok.1 h
  obtain ⟨kept, hkept, h⟩ := bind_eq_ok.1 h
  obtain ⟨headed, hheaded, h⟩ := bind_eq_ok.1 h
  obtain ⟨exacted, hexacted, h⟩ := bind_eq_ok.1 h
  obtain ⟨⟨added, inputs⟩, -, h⟩ := bind_eq_ok.1 h
  obtain ⟨⟨removed, inputs'⟩, -, h⟩ := bind_eq_ok.1 h
  cases h
  have hempty : Within token ∅ [] :=
    ⟨fun name hname => absurd hname (AList.notMem_empty name),
      fun name hname => nomatch hname⟩
  have htracked' : Within token tracked.puts tracked.deletes :=
    foldlM_ok (fun state => Within token state.puts state.deletes)
      (fun _ _ _ _ hstate hstep => addTrackingPut_ok hstate hstep) hempty htracked
  have hheaded' := addRemoteHead_ok (addTrackingKeeps_ok hissued htracked' hkept) hheaded
  exact foldlM_ok (fun state => Within token state.puts state.deletes)
    (fun _ _ _ _ hstate hstep => addExactPut_ok hstate hstep) hheaded' hexacted

/-- A fetch publication finds the stamp of its snapshot, and what it changes it found there. -/
theorem publishFetchRefs_ok {after : FetchTables}
    (h : publishFetchRefs store owner token plan metadata = .ok (after, changed)) :
    namespaceStamp token.trackingPrefix store = (token.generation, token.namespaceRevision) ∧
      (∃ names, Advanced store.tables after.tables names) ∧
      ((∀ row ∈ token.trackingRefs, token.trackingPrefix <+: row.1) →
        ∀ name, after.tables.refs.lookup name ≠ store.tables.refs.lookup name →
          token.trackingPrefix <+: name ∨
            (name ∈ token.exactRefs.map (·.1) ∧
              store.tables.refs.lookup name = token.exactTarget name)) := by
  obtain ⟨normalized, hnormalized, h⟩ := bind_eq_ok.1 h
  obtain ⟨checked, -, h⟩ := bind_eq_ok.1 h
  obtain ⟨⟨⟩, hpreflight, h⟩ := bind_eq_ok.1 h
  obtain ⟨⟨tables, moved⟩, hmutate, h⟩ := bind_eq_ok.1 h
  have hmatches := preflightFetchPublication_ok hpreflight
  obtain ⟨names, hadvanced, -, hnames⟩ := mutateNormalized_advanced hmutate
  -- the shallow rows are written apart from the refs and the revisions
  have hafter : ∃ rootEpoch, after.tables = { tables with rootEpoch } := by
    dsimp only at h
    split at h
    · obtain ⟨published, hpublished, h⟩ := bind_eq_ok.1 h
      obtain rfl := (Prod.mk.inj (Except.ok.inj h)).1
      replace hpublished := Fuel.after_check hpublished
      replace hpublished := Fuel.after_check hpublished
      replace hpublished := Fuel.after_check hpublished
      cases hpublished
      exact ⟨_, rfl⟩
    · obtain rfl := (Prod.mk.inj (Except.ok.inj h)).1
      exact ⟨tables.rootEpoch, rfl⟩
  obtain ⟨rootEpoch, hafter⟩ := hafter
  rw [hafter]
  refine ⟨hmatches.stamp, ⟨names, hadvanced.refs, hadvanced.tracking, hadvanced.namespaces,
    hadvanced.generation⟩, fun hissued name hchanged => ?_⟩
  have hwithin := normalizeFetchPublication_ok hissued hnormalized
  have hmem : name ∈ names := by
    by_contra hnot
    exact hchanged (hadvanced.refs name hnot)
  have hwritten := hnames name hmem
  rw [afterTarget] at hwritten
  cases hput : normalized.refs.puts.lookup name with
  | none =>
    rw [hput] at hwritten
    dsimp only at hwritten
    split at hwritten
    · next hdeleted => exact .inl (hwithin.deletes name (contains_iff_mem.1 hdeleted))
    · exact absurd rfl hwritten
  | some target =>
    rw [hput] at hwritten
    have hkey : name ∈ normalized.refs.puts := AList.lookup_isSome.1 (by rw [hput]; rfl)
    obtain hinside | hexact := hwithin.puts name hkey
    · exact .inl hinside
    · right
      have hselected : name ∈ selectedExactRefs token normalized.refs :=
        mem_filter.2 ⟨hkey, contains_iff_mem.2 hexact⟩
      refine ⟨hexact, (hmatches.exact name hselected).resolve_right fun hsame => ?_⟩
      exact hwritten (hsame.trans hput)

-- The two begins

theorem ensureTrackingRefRevision_ok
    (h : ensureTrackingRefRevision tables refName = .ok (after, revision)) :
    readTrackingRefRevision after refName = some revision ∧
      ∃ rows, after = { tables with trackingRevisions := tables.trackingRevisions ++ rows } := by
  unfold ensureTrackingRefRevision at h
  split at h
  · next found hfound =>
    cases h
    exact ⟨hfound, [], by rw [append_nil]⟩
  · next hnone =>
    replace h := Fuel.after_check h
    cases h
    refine ⟨?_, _, rfl⟩
    rw [readTrackingRefRevision, Option.map_eq_none_iff] at hnone
    simp [readTrackingRefRevision, List.find?_append, hnone]

theorem beginTrackingRefPublication_ok {after : FetchTables} {token : TrackingRefPublication}
    (h : beginTrackingRefPublication store trackingPrefix refName = .ok (after, token)) :
    readTrackingRefRevision after.tables token.refName = some token.refRevision ∧
      ∃ rows, after.tables = { store.tables with
        trackingRevisions := store.tables.trackingRevisions ++ rows } := by
  obtain ⟨checked, -, h⟩ := bind_eq_ok.1 h
  obtain ⟨name, -, h⟩ := bind_eq_ok.1 h
  replace h := Fuel.after_check h
  obtain ⟨⟨tables, revision⟩, hensure, h⟩ := bind_eq_ok.1 h
  cases h
  exact ensureTrackingRefRevision_ok hensure

/-- The begin of a fetch makes every snapshot that it overlaps old. -/
structure Began (before after : RefTables) (trackingPrefix : Text) : Prop where
  refs : after.refs = before.refs
  tracking : after.trackingRevisions = before.trackingRevisions.map fun row =>
    if trackingPrefix.isPrefixOf row.1 then (row.1, row.2 + 1) else row
  generation : after.fetchGeneration = before.fetchGeneration + 1
  namespaces : after.fetchNamespaces =
    fenceNamespaces before.fetchNamespaces trackingPrefix after.fetchGeneration
  bounded : ∀ row ∈ before.fetchNamespaces, row.latestGeneration ≤ before.fetchGeneration

theorem advanceTrackingRefObservations_ok
    (h : advanceTrackingRefObservations tables trackingPrefix = .ok after) :
    after = { tables with
      trackingRevisions := tables.trackingRevisions.map fun row =>
        if trackingPrefix.isPrefixOf row.1 then (row.1, row.2 + 1) else row } := by
  replace h := Fuel.after_check h
  exact (Except.ok.inj h).symm

theorem checkFetchBegin_ok (h : checkFetchBegin store trackingPrefix candidates = .ok after) :
    (after = { store.tables with
      trackingRevisions := store.tables.trackingRevisions.map fun row =>
        if trackingPrefix.isPrefixOf row.1 then (row.1, row.2 + 1) else row }) ∧
      ∀ row ∈ after.fetchNamespaces, row.latestGeneration ≤ after.fetchGeneration := by
  replace h := Fuel.after_check h
  replace h := Fuel.after_check h
  obtain ⟨tables, hadvance, h⟩ := bind_eq_ok.1 h
  replace h := Fuel.after_check h
  obtain ⟨⟨⟩, hbounded, h⟩ := bind_eq_ok.1 h
  replace h := Fuel.after_check h
  obtain ⟨tracked, -, h⟩ := bind_eq_ok.1 h
  replace h := Fuel.after_check h
  cases h
  refine ⟨advanceTrackingRefObservations_ok hadvance, fun row hrow => ?_⟩
  rw [reject_eq_ok, List.any_eq_false] at hbounded
  simpa using hbounded row hrow

theorem requireFetchTrackingPrefix_ok {checked : Text}
    (h : requireFetchTrackingPrefix value = .ok checked) : checked = value := by
  replace h := Fuel.after_check h
  obtain ⟨bytes, -, h⟩ := bind_eq_ok.1 h
  replace h := Fuel.after_check h
  exact (Except.ok.inj h).symm

/-- What a token remembers of the store it was issued in. -/
structure Issued (store : FetchTables) (token : FetchPublication) : Prop where
  present : ∃ row, readFetchNamespace store.tables token.trackingPrefix = some row
  stamp : namespaceStamp token.trackingPrefix store = (token.generation, token.namespaceRevision)
  tracked : ∀ row ∈ token.trackingRefs, token.trackingPrefix <+: row.1
  exact : ∀ name ∈ token.exactRefs.map (·.1),
    token.exactTarget name = store.tables.refs.lookup name

/-- The entry of a name in a snapshot. -/
theorem find_snapshot {lookup : Text → Option Text}
    {row : Text × Option Text} (h : row ∈ names.map fun name => (name, lookup name)) :
    ((names.map fun name => (name, lookup name)).find? (·.1 = row.1)).bind (·.2) =
      lookup row.1 := by
  cases hfind : (names.map fun name => (name, lookup name)).find? (·.1 = row.1) with
  | none => exact absurd (List.find?_eq_none.1 hfind row h) (by simp)
  | some found =>
    have hkey : found.1 = row.1 := by simpa using List.find?_some hfind
    obtain ⟨name, -, rfl⟩ := mem_map.1 (List.mem_of_find?_eq_some hfind)
    exact congrArg lookup hkey

theorem beginFetchPublication_ok {after : FetchTables}
    (h : beginFetchPublication store trackingPrefix candidates = .ok (after, token)) :
    token.trackingPrefix = trackingPrefix ∧ Began store.tables after.tables trackingPrefix ∧
      Issued after token := by
  obtain ⟨checked, hchecked, h⟩ := bind_eq_ok.1 h
  obtain ⟨names, -, h⟩ := bind_eq_ok.1 h
  obtain ⟨tables, htables, h⟩ := bind_eq_ok.1 h
  obtain ⟨hadvance, hbounded⟩ := checkFetchBegin_ok htables
  have hsame := requireFetchTrackingPrefix_ok hchecked
  dsimp only at h
  split at h
  · cases h
  · next issued hissued =>
    obtain ⟨⟨⟩, hgeneration, h⟩ := bind_eq_ok.1 h
    cases h
    rw [reject_eq_ok, decide_eq_false_iff_not, not_not] at hgeneration
    refine ⟨hsame, ⟨?_, ?_, ?_, ?_, ?_⟩, ⟨⟨issued, hissued⟩, ?_, ?_, ?_⟩⟩
    · rw [hadvance]
    · rw [hadvance, hsame]
    · rw [hadvance]
    · rw [hadvance, hsame]
    · rw [hadvance] at hbounded
      exact hbounded
    · rw [namespaceStamp_of_read hissued, hgeneration]
    · intro row hrow
      exact List.isPrefixOf_iff_prefix.1 (mem_filter.1 hrow).2
    · intro name hname
      obtain ⟨row, hrow, rfl⟩ := mem_map.1 hname
      exact find_snapshot hrow

-- Transactions in any order

/-- One transaction on the refs of a repository. -/
inductive FetchOp where
  | mutate (owner : HeadOwner) (mutation : RefMutation) (metadata : RefLogMetadata)
  | beginTracking (trackingPrefix refName : Text)
  | publishTracking (owner : HeadOwner) (token : TrackingRefPublication) (target : Option Text)
      (metadata : RefLogMetadata)
  | beginFetch (trackingPrefix : Text) (candidates : List Text)
  | publishFetch (owner : HeadOwner) (token : FetchPublication) (plan : FetchPublicationPlan)
      (metadata : RefLogMetadata)

/-- The store that an operation leaves when it returns. -/
def FetchOp.exec (store : FetchTables) : FetchOp → Except GitError FetchTables
  | .mutate owner mutation metadata =>
    (fun out => { store with tables := out.1 }) <$> mutateRefs store.tables owner mutation metadata
  | .beginTracking trackingPrefix refName =>
    Prod.fst <$> beginTrackingRefPublication store trackingPrefix refName
  | .publishTracking owner token target metadata =>
    Prod.fst <$> publishTrackingRef store owner token target metadata
  | .beginFetch trackingPrefix candidates =>
    Prod.fst <$> beginFetchPublication store trackingPrefix candidates
  | .publishFetch owner token plan metadata =>
    Prod.fst <$> publishFetchRefs store owner token plan metadata

/-- An operation that throws is rolled back. -/
def FetchTables.step (store : FetchTables) (op : FetchOp) : FetchTables :=
  match op.exec store with
  | .ok after => after
  | .error _ => store

/-- What one operation can do to the revisions. -/
inductive Effect (before after : RefTables) : FetchOp → Prop where
  | advanced {op : FetchOp} {names : List Text} (advanced : Advanced before after names)
      (other : ∀ p c, op ≠ .beginFetch p c) : Effect before after op
  | appended {op : FetchOp} {rows : List (Text × Nat)}
      (appended : after = { before with trackingRevisions := before.trackingRevisions ++ rows })
      (other : ∀ p c, op ≠ .beginFetch p c) : Effect before after op
  | began {trackingPrefix : Text} {candidates : List Text}
      (began : Began before after trackingPrefix) :
      Effect before after (.beginFetch trackingPrefix candidates)

variable {op : FetchOp}

theorem exec_effect {after : FetchTables} (h : op.exec store = .ok after) :
    Effect store.tables after.tables op := by
  cases op with
  | mutate owner mutation metadata =>
    obtain ⟨out, hrun, rfl⟩ := Fuel.map_eq_ok.1 h
    obtain ⟨names, hadvanced⟩ := mutateRefs_advanced hrun
    exact .advanced hadvanced fun _ _ h => nomatch h
  | beginTracking trackingPrefix refName =>
    obtain ⟨out, hrun, rfl⟩ := Fuel.map_eq_ok.1 h
    obtain ⟨-, rows, happended⟩ := beginTrackingRefPublication_ok hrun
    exact .appended happended fun _ _ h => nomatch h
  | publishTracking owner token target metadata =>
    obtain ⟨out, hrun, rfl⟩ := Fuel.map_eq_ok.1 h
    obtain ⟨-, ⟨names, hadvanced⟩, -⟩ := publishTrackingRef_ok hrun
    exact .advanced hadvanced fun _ _ h => nomatch h
  | beginFetch trackingPrefix candidates =>
    obtain ⟨out, hrun, rfl⟩ := Fuel.map_eq_ok.1 h
    exact .began (beginFetchPublication_ok hrun).2.1
  | publishFetch owner token plan metadata =>
    obtain ⟨out, hrun, rfl⟩ := Fuel.map_eq_ok.1 h
    obtain ⟨-, ⟨names, hadvanced⟩, -⟩ := publishFetchRefs_ok hrun
    exact .advanced hadvanced fun _ _ h => nomatch h

/-- A step leaves the store alone or does what its operation does. -/
theorem step_effect (store : FetchTables) (op : FetchOp) :
    (store.step op = store ∧ ∃ e, op.exec store = .error e) ∨
      Effect store.tables (store.step op).tables op := by
  unfold FetchTables.step
  cases h : op.exec store with
  | error e => exact .inl ⟨rfl, e, rfl⟩
  | ok after => exact .inr (exec_effect h)

/-- The operation changes a claimed ref, or begins a fetch that overlaps. -/
def Disturbs (Claimed Overlapping : Text → Prop) (store : FetchTables) (op : FetchOp) : Prop :=
  (∃ name, Claimed name ∧
    (store.step op).tables.refs.lookup name ≠ store.tables.refs.lookup name) ∨
  ∃ trackingPrefix candidates out, op = .beginFetch trackingPrefix candidates ∧
    beginFetchPublication store trackingPrefix candidates = .ok out ∧ Overlapping trackingPrefix

/-- An operation that was rolled back disturbs nobody. -/
theorem not_disturbs_of_error {Claimed Overlapping : Text → Prop} {e : GitError}
    (hsame : store.step op = store)
    (herror : op.exec store = .error e) : ¬ Disturbs Claimed Overlapping store op := by
  rintro (⟨name, -, hchanged⟩ | ⟨trackingPrefix, candidates, out, rfl, hbegin, -⟩)
  · rw [hsame] at hchanged
    exact hchanged rfl
  · rw [FetchOp.exec, hbegin] at herror
    cases herror

theorem find?_map_key {α κ : Type} [DecidableEq κ] (key : α → κ) {f : α → α}
    (hkey : ∀ a, key (f a) = key a) (k : κ) (rows : List α) :
    (rows.map f).find? (fun a => key a = k) = (rows.find? fun a => key a = k).map f := by
  rw [List.find?_map]
  simp only [Function.comp_def, hkey]

-- The revision of a tracking ref is a stamp

def refStamp (name : Text) (store : FetchTables) : Nat :=
  (readTrackingRefRevision store.tables name).getD 0

theorem readTrackingRefRevision_map (forward : Text → Bool)
    (hrows : after.trackingRevisions = before.trackingRevisions.map fun row =>
      if forward row.1 then (row.1, row.2 + 1) else row)
    (h : readTrackingRefRevision before name = some revision) :
    readTrackingRefRevision after name =
      some (if forward name then revision + 1 else revision) := by
  have hkey : ∀ row : Text × Nat,
      (if forward row.1 then (row.1, row.2 + 1) else row).1 = row.1 := by
    intro row
    split
    · rfl
    · rfl
  rw [readTrackingRefRevision, Option.map_eq_some_iff] at h
  obtain ⟨row, hfind, hrevision⟩ := h
  have hname : row.1 = name := by simpa using List.find?_some hfind
  rw [readTrackingRefRevision, hrows, find?_map_key Prod.fst hkey, hfind, ← hname, ← hrevision,
    Option.map_some, Option.map_some]
  cases forward row.1 with
  | true => rfl
  | false => rfl

/-- One step keeps the row of a ref, and advances it where the ref is disturbed. -/
theorem refStamp_step (op : FetchOp)
    (h : readTrackingRefRevision store.tables name = some revision) :
    ∃ next, readTrackingRefRevision (store.step op).tables name = some next ∧ revision ≤ next ∧
      (Disturbs (· = name) (· <+: name) store op → revision < next) := by
  obtain ⟨hsame, e, herror⟩ | heffect := step_effect store op
  · refine ⟨revision, by rw [hsame]; exact h, le_refl _, fun hdisturbs => ?_⟩
    exact absurd hdisturbs (not_disturbs_of_error hsame herror)
  generalize hafter : (store.step op).tables = after at heffect
  cases heffect with
  | @advanced _ names advanced other =>
    refine ⟨_, readTrackingRefRevision_map names.contains advanced.tracking h, ?_, ?_⟩
    · split <;> omega
    rintro (⟨other, rfl, hchanged⟩ | ⟨p, c, out, rfl, -⟩)
    · rw [hafter] at hchanged
      have hmem : other ∈ names := by
        by_contra hnot
        exact hchanged (advanced.refs other hnot)
      rw [if_pos (contains_iff_mem.2 hmem)]
      exact Nat.lt_succ_self _
    · exact absurd rfl (other p c)
  | appended appended other =>
    refine ⟨revision, ?_, le_refl _, ?_⟩
    · rw [readTrackingRefRevision, Option.map_eq_some_iff] at h
      obtain ⟨row, hrow, hrevision⟩ := h
      rw [appended, readTrackingRefRevision, List.find?_append, hrow]
      exact congrArg some hrevision
    · rintro (⟨other, rfl, hchanged⟩ | ⟨p, c, out, rfl, -⟩)
      · rw [hafter, appended] at hchanged
        exact absurd rfl hchanged
      · exact absurd rfl (other p c)
  | @began trackingPrefix _ began =>
    refine ⟨_, readTrackingRefRevision_map trackingPrefix.isPrefixOf began.tracking h, ?_, ?_⟩
    · split <;> omega
    rintro (⟨other, rfl, hchanged⟩ | ⟨p, c, out, hop, -, hover⟩)
    · rw [hafter, began.refs] at hchanged
      exact absurd rfl hchanged
    · obtain ⟨rfl, -⟩ := FetchOp.beginFetch.inj hop
      rw [if_pos (List.isPrefixOf_iff_prefix.2 hover)]
      exact Nat.lt_succ_self _

theorem refStamp_guards (name : Text) :
    Guards FetchTables.step (refStamp name)
      (fun store => (readTrackingRefRevision store.tables name).isSome)
      (Disturbs (· = name) (· <+: name)) where
  kept := by
    intro store op hkept
    obtain ⟨revision, hrevision⟩ := Option.isSome_iff_exists.1 hkept
    obtain ⟨next, hnext, -⟩ := refStamp_step op hrevision
    rw [hnext]
    rfl
  le := by
    intro store op hkept
    obtain ⟨revision, hrevision⟩ := Option.isSome_iff_exists.1 hkept
    obtain ⟨next, hnext, hle, -⟩ := refStamp_step op hrevision
    rw [refStamp, refStamp, hrevision, hnext]
    exact hle
  lt := by
    intro store op hkept hdisturbs
    obtain ⟨revision, hrevision⟩ := Option.isSome_iff_exists.1 hkept
    obtain ⟨next, hnext, -, hlt⟩ := refStamp_step op hrevision
    rw [refStamp, refStamp, hrevision, hnext]
    exact hlt hdisturbs

-- The generation and the revision of a namespace are a stamp

theorem readFetchNamespace_map (f : FetchNamespace → FetchNamespace)
    (hkey : ∀ row, (f row).trackingPrefix = row.trackingPrefix)
    (hrows : ∃ rest, after.fetchNamespaces = before.fetchNamespaces.map f ++ rest)
    (h : readFetchNamespace before trackingPrefix = some row) :
    readFetchNamespace after trackingPrefix = some (f row) := by
  obtain ⟨rest, hrows⟩ := hrows
  rw [readFetchNamespace] at h
  rw [readFetchNamespace, hrows, List.find?_append, find?_map_key FetchNamespace.trackingPrefix hkey,
    h]
  rfl

theorem readFetchNamespace_key (h : readFetchNamespace tables trackingPrefix = some row) :
    row.trackingPrefix = trackingPrefix := by
  simpa using List.find?_some h

theorem Advanced.readFetchNamespace (hadvanced : Advanced before after names)
    (h : readFetchNamespace before trackingPrefix = some row) :
    readFetchNamespace after trackingPrefix = some (if names.any trackingPrefix.isPrefixOf then
      { row with revision := row.revision + 1 } else row) := by
  obtain rfl := readFetchNamespace_key h
  refine readFetchNamespace_map (fun row => if names.any row.trackingPrefix.isPrefixOf then
    { row with revision := row.revision + 1 } else row) (fun row => ?_) ⟨[], ?_⟩ h
  · split
    · rfl
    · rfl
  · rw [append_nil]
    exact hadvanced.namespaces

theorem fenceNamespaces_eq (rows : List FetchNamespace) (trackingPrefix : Text)
    (generation : Nat) : ∃ rest, fenceNamespaces rows trackingPrefix generation =
      rows.map (fun row => if overlaps row.trackingPrefix trackingPrefix then
        { row with latestGeneration := generation } else row) ++ rest := by
  unfold fenceNamespaces
  dsimp only
  split
  · exact ⟨[], (append_nil _).symm⟩
  · exact ⟨_, rfl⟩

theorem Began.readFetchNamespace {began : Text} (hbegan : Began before after began)
    (h : readFetchNamespace before trackingPrefix = some row) :
    readFetchNamespace after trackingPrefix = some (if overlaps trackingPrefix began then
      { row with latestGeneration := after.fetchGeneration } else row) := by
  obtain rfl := readFetchNamespace_key h
  refine readFetchNamespace_map (fun row => if overlaps row.trackingPrefix began then
    { row with latestGeneration := after.fetchGeneration } else row) (fun row => ?_) ?_ h
  · split
    · rfl
    · rfl
  · rw [hbegan.namespaces]
    exact fenceNamespaces_eq _ _ _

theorem overlaps_comm (left right : Text) : overlaps left right = overlaps right left :=
  Bool.or_comm _ _

/-- One step keeps the row of a namespace, and advances it where the namespace is disturbed. -/
theorem namespaceStamp_step
    (op : FetchOp) (h : readFetchNamespace store.tables trackingPrefix = some row) :
    ∃ next, readFetchNamespace (store.step op).tables trackingPrefix = some next ∧
      row.latestGeneration ≤ next.latestGeneration ∧ row.revision ≤ next.revision ∧
      (Disturbs (trackingPrefix <+: ·) (overlaps · trackingPrefix) store op →
        row.latestGeneration < next.latestGeneration ∨ row.revision < next.revision) := by
  obtain ⟨hsame, e, herror⟩ | heffect := step_effect store op
  · refine ⟨row, by rw [hsame]; exact h, le_refl _, le_refl _, fun hdisturbs => ?_⟩
    exact absurd hdisturbs (not_disturbs_of_error hsame herror)
  generalize hafter : (store.step op).tables = after at heffect
  cases heffect with
  | @advanced _ names advanced other =>
    refine ⟨_, advanced.readFetchNamespace h, ?_, ?_, ?_⟩
    · split
      · exact le_refl _
      · exact le_refl _
    · split
      · exact Nat.le_succ _
      · exact le_refl _
    · rintro (⟨name, hname, hchanged⟩ | ⟨p, c, out, rfl, -⟩)
      · rw [hafter] at hchanged
        have hmem : name ∈ names := by
          by_contra hnot
          exact hchanged (advanced.refs name hnot)
        have hany : names.any trackingPrefix.isPrefixOf = true :=
          List.any_eq_true.2 ⟨name, hmem, List.isPrefixOf_iff_prefix.2 hname⟩
        right
        rw [if_pos hany]
        exact Nat.lt_succ_self _
      · exact absurd rfl (other p c)
  | appended appended other =>
    refine ⟨row, by rw [appended]; exact h, le_refl _, le_refl _, ?_⟩
    rintro (⟨name, hname, hchanged⟩ | ⟨p, c, out, rfl, -⟩)
    · rw [hafter, appended] at hchanged
      exact absurd rfl hchanged
    · exact absurd rfl (other p c)
  | began began =>
    -- the new generation is above every one that was recorded
    have hlt : row.latestGeneration < after.fetchGeneration := by
      rw [began.generation]
      exact Nat.lt_succ_of_le (began.bounded row (List.mem_of_find?_eq_some h))
    refine ⟨_, began.readFetchNamespace h, ?_, ?_, ?_⟩
    · split
      · exact hlt.le
      · exact le_refl _
    · split
      · exact le_refl _
      · exact le_refl _
    · rintro (⟨name, hname, hchanged⟩ | ⟨p, c, out, hop, -, hover⟩)
      · rw [hafter, began.refs] at hchanged
        exact absurd rfl hchanged
      · obtain ⟨rfl, -⟩ := FetchOp.beginFetch.inj hop
        left
        rw [overlaps_comm, if_pos hover]
        exact hlt

theorem namespaceStamp_guards (trackingPrefix : Text) :
    Guards FetchTables.step (namespaceStamp trackingPrefix)
      (fun store => ∃ row, readFetchNamespace store.tables trackingPrefix = some row)
      (Disturbs (trackingPrefix <+: ·) (overlaps · trackingPrefix)) where
  kept := by
    rintro store op ⟨row, hrow⟩
    obtain ⟨next, hnext, -⟩ := namespaceStamp_step op hrow
    exact ⟨next, hnext⟩
  le := by
    rintro store op ⟨row, hrow⟩
    obtain ⟨next, hnext, hgeneration, hrevision, -⟩ := namespaceStamp_step op hrow
    rw [namespaceStamp_of_read hrow, namespaceStamp_of_read hnext]
    exact ⟨hgeneration, hrevision⟩
  lt := by
    rintro store op ⟨row, hrow⟩ hdisturbs
    obtain ⟨next, hnext, hgeneration, hrevision, hlt⟩ := namespaceStamp_step op hrow
    rw [namespaceStamp_of_read hrow, namespaceStamp_of_read hnext]
    refine Prod.lt_iff.2 ((hlt hdisturbs).imp ?_ ?_)
    · exact fun h => ⟨h, hrevision⟩
    · exact fun h => ⟨hgeneration, h⟩

-- Publications

variable {ops : List FetchOp}

/-- What nobody disturbed is as it was. -/
theorem lookup_of_undisturbed {Claimed Overlapping : Text → Prop}
    (h : Undisturbed FetchTables.step (Disturbs Claimed Overlapping) store ops)
    (hname : Claimed name) :
    (ops.foldl FetchTables.step store).tables.refs.lookup name =
      store.tables.refs.lookup name := by
  induction ops generalizing store with
  | nil => rfl
  | cons op ops ih =>
    obtain ⟨hfirst, hrest⟩ := h
    refine (ih hrest).trans ?_
    by_contra hchanged
    exact hfirst (.inl ⟨name, hname, hchanged⟩)

theorem publishFetchRefs_undisturbed {after : FetchTables} (hissued : Issued issued token)
    (h : publishFetchRefs (ops.foldl FetchTables.step issued) owner token plan metadata =
      .ok (after, changed)) :
    Undisturbed FetchTables.step
      (Disturbs (token.trackingPrefix <+: ·) (overlaps · token.trackingPrefix)) issued ops ∧
    ∀ name, after.tables.refs.lookup name ≠
        (ops.foldl FetchTables.step issued).tables.refs.lookup name →
      (ops.foldl FetchTables.step issued).tables.refs.lookup name =
        issued.tables.refs.lookup name := by
  obtain ⟨hstamp, -, hwritten⟩ := publishFetchRefs_ok h
  have hundisturbed := (namespaceStamp_guards token.trackingPrefix).undisturbed hissued.present
    ops (hstamp.trans hissued.stamp.symm).le
  refine ⟨hundisturbed, fun name hchanged => ?_⟩
  obtain hinside | ⟨hexact, hsame⟩ := hwritten hissued.tracked name hchanged
  · exact lookup_of_undisturbed hundisturbed hinside
  · exact hsame.trans (hissued.exact name hexact)

theorem publishTrackingRef_undisturbed {after : FetchTables} {token : TrackingRefPublication}
    (hissued : readTrackingRefRevision issued.tables token.refName = some token.refRevision)
    (h : publishTrackingRef (ops.foldl FetchTables.step issued) owner token target metadata =
      .ok (after, changed)) :
    Undisturbed FetchTables.step (Disturbs (· = token.refName) (· <+: token.refName)) issued ops ∧
    ∀ name, after.tables.refs.lookup name ≠
        (ops.foldl FetchTables.step issued).tables.refs.lookup name →
      (ops.foldl FetchTables.step issued).tables.refs.lookup name =
        issued.tables.refs.lookup name := by
  obtain ⟨hrevision, -, hwritten⟩ := publishTrackingRef_ok h
  have hundisturbed := (refStamp_guards token.refName).undisturbed
    (Option.isSome_iff_exists.2 ⟨_, hissued⟩) ops
    (by rw [refStamp, refStamp, hrevision, hissued])
  refine ⟨hundisturbed, fun name hchanged => ?_⟩
  exact lookup_of_undisturbed hundisturbed (hwritten name hchanged)

/-- A publication that succeeds has had, since its own begin, no change of a ref that it claims
    and no begin of a fetch that overlaps it, and what it changes is as it found it then; an
    operation that throws changes nothing. -/
theorem publications_exclude (start : FetchTables) (ops : List FetchOp) :
    (∀ trackingPrefix candidates issued token owner plan metadata after changed,
      beginFetchPublication start trackingPrefix candidates = .ok (issued, token) →
      publishFetchRefs (ops.foldl FetchTables.step issued) owner token plan metadata =
        .ok (after, changed) →
      Undisturbed FetchTables.step
        (Disturbs (trackingPrefix <+: ·) (overlaps · trackingPrefix)) issued ops ∧
      ∀ name, after.tables.refs.lookup name ≠
          (ops.foldl FetchTables.step issued).tables.refs.lookup name →
        (ops.foldl FetchTables.step issued).tables.refs.lookup name =
          issued.tables.refs.lookup name) ∧
    (∀ trackingPrefix refName issued token owner target metadata after changed,
      beginTrackingRefPublication start trackingPrefix refName = .ok (issued, token) →
      publishTrackingRef (ops.foldl FetchTables.step issued) owner token target metadata =
        .ok (after, changed) →
      Undisturbed FetchTables.step (Disturbs (· = token.refName) (· <+: token.refName)) issued ops ∧
      ∀ name, after.tables.refs.lookup name ≠
          (ops.foldl FetchTables.step issued).tables.refs.lookup name →
        (ops.foldl FetchTables.step issued).tables.refs.lookup name =
          issued.tables.refs.lookup name) ∧
    ∀ store op error, FetchOp.exec store op = .error error → store.step op = store := by
  refine ⟨?_, ?_, ?_⟩
  · intro trackingPrefix candidates issued token owner plan metadata after changed hbegin hpublish
    obtain ⟨rfl, -, hissued⟩ := beginFetchPublication_ok hbegin
    exact publishFetchRefs_undisturbed hissued hpublish
  · intro trackingPrefix refName issued token owner target metadata after changed hbegin hpublish
    exact publishTrackingRef_undisturbed (beginTrackingRefPublication_ok hbegin).1 hpublish
  · intro store op error herror
    rw [FetchTables.step, herror]

-- The begin of a tracking publication fences nobody

def originPrefix : Text := text "refs/remotes/origin/"

def originMain : Text := text "refs/remotes/origin/main"

/-- One tracking ref, and nothing recorded about it. -/
def originStore : FetchTables :=
  { tables :=
      { refs := (∅ : RefMap).insert originMain firstOid
        checkouts := [], reflog := [], checkoutReflog := [], nextOrdinal := 0, checkoutRevision := 0
        trackingRevisions := [], fetchGeneration := 0, fetchNamespaces := [], rootEpoch := 0 }
    shallow := [], shallowRevision := 0 }

/-- The remote's branch has moved. -/
def originPlan : FetchPublicationPlan :=
  { trackingPuts := [⟨originMain, secondOid⟩], trackingKeep := none, remoteHead := none
    exactPuts := [], shallowAdd := [], shallowRemove := [] }

/-- A fetch begins, and then a publication of one of its refs; the fetch is published. -/
def originRun : Except GitError (FetchTables × Bool) := do
  let (issued, token) ← beginFetchPublication originStore originPrefix []
  let (begun, _) ← beginTrackingRefPublication issued originPrefix originMain
  publishFetchRefs begun .repository token originPlan testMetadata

/-- The operation disturbs, or begins a tracking publication of a claimed ref. -/
def BeginsOver (trackingPrefix : Text) (store : FetchTables) (op : FetchOp) : Prop :=
  Disturbs (trackingPrefix <+: ·) (overlaps · trackingPrefix) store op ∨
    ∃ other refName out, op = .beginTracking other refName ∧
      beginTrackingRefPublication store other refName = .ok out ∧ trackingPrefix <+: refName

/-- The operation between the begin and the publication of the fetch. -/
def originOps : List FetchOp := [.beginTracking originPrefix originMain]

theorem originRun_ok :
    ∃ issued token after changed,
      beginFetchPublication originStore originPrefix [] = .ok (issued, token) ∧
      (∃ begun, beginTrackingRefPublication issued originPrefix originMain = .ok begun) ∧
      publishFetchRefs (originOps.foldl FetchTables.step issued) .repository token
        originPlan testMetadata = .ok (after, changed) := by
  have hok : originRun.isOk = true := by decide +kernel
  cases hrun : originRun with
  | error e =>
    rw [hrun] at hok
    cases hok
  | ok out =>
    obtain ⟨⟨issued, token⟩, hbegin, hrun⟩ := bind_eq_ok.1 hrun
    obtain ⟨⟨begun, snapshot⟩, hbegun, hpublish⟩ := bind_eq_ok.1 hrun
    have hstep : originOps.foldl FetchTables.step issued = begun := by
      rw [originOps, List.foldl_cons, List.foldl_nil, FetchTables.step, FetchOp.exec, hbegun]
      rfl
    refine ⟨issued, token, out.1, out.2, hbegin, ⟨_, hbegun⟩, ?_⟩
    rw [hstep]
    exact hpublish

/-- The fetch of that run was not disturbed. -/
theorem originRun_undisturbed :
    ∃ issued token after changed,
      beginFetchPublication originStore originPrefix [] = .ok (issued, token) ∧
      publishFetchRefs (originOps.foldl FetchTables.step issued) .repository token
        originPlan testMetadata = .ok (after, changed) ∧
      Undisturbed FetchTables.step (Disturbs (originPrefix <+: ·) (overlaps · originPrefix)) issued
        originOps := by
  obtain ⟨issued, token, after, changed, hbegin, -, hpublish⟩ := originRun_ok
  refine ⟨issued, token, after, changed, hbegin, hpublish, ?_⟩
  exact ((publications_exclude originStore originOps).1 originPrefix [] issued token .repository
    originPlan testMetadata after changed hbegin hpublish).1

theorem tracking_begin_fences_nobody :
    ¬ ∀ (start : FetchTables) (ops : List FetchOp) (trackingPrefix : Text) (candidates : List Text)
      (issued : FetchTables) (token : FetchPublication) (owner : HeadOwner)
      (plan : FetchPublicationPlan) (metadata : RefLogMetadata) (after : FetchTables)
      (changed : Bool),
      beginFetchPublication start trackingPrefix candidates = .ok (issued, token) →
      publishFetchRefs (ops.foldl FetchTables.step issued) owner token plan metadata =
        .ok (after, changed) →
      Undisturbed FetchTables.step (BeginsOver trackingPrefix) issued ops := by
  intro hall
  obtain ⟨issued, token, after, changed, hbegin, ⟨begun, hbegun⟩, hpublish⟩ := originRun_ok
  obtain ⟨hfirst, -⟩ := hall originStore originOps originPrefix [] issued token .repository
    originPlan testMetadata after changed hbegin hpublish
  exact hfirst (.inr ⟨originPrefix, originMain, begun, rfl, hbegun, by decide⟩)

end Kompjutr.Refs
