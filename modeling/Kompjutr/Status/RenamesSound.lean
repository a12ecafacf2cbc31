/-
  Kompjutr.Status.RenamesSound

  What is paired (`classify_pairs`): in every bucket as many entries as its smaller side has,
  each at most once, whatever order they were inserted in.

  The pairing of a bucket keeps that every source its searches went past is used
  (`Pairing.Ok`).  It reads its entries in the order of their paths, and the renames are put
  in the order of theirs, so the order of the insertions is lost.
-/
import Mathlib.Data.List.Nodup
import Mathlib.Data.List.Perm.Subperm
import Kompjutr.Lib.SortBy
import Kompjutr.Status.Renames

namespace Kompjutr.Status

open Fuel (bind_eq_ok ok_bind)
open Objects (Text text isOid)
open Streams (comparePaths)
open Utf8 (encode octets)
open List (append_assoc filter_sublist foldlM_cons inj_on_of_nodup_map map_append mem_append
  mem_cons_of_mem mem_cons_self mem_filter mem_map mem_map_of_mem mem_singleton nil_append
  nodup_append nodup_nil)

-- The next unused source

variable {sources : List ExactRenameCandidate} {used : List Text}

theorem nextUnused_none {ordinal : Nat}
    (h : sources[ordinal]? = none) : nextUnused used sources ordinal = (none, ordinal) := by
  rw [nextUnused]
  split
  · rfl
  · next candidate hsome =>
    rw [h] at hsome
    cases hsome

variable {candidate : ExactRenameCandidate}

theorem nextUnused_some {ordinal : Nat} (h : sources[ordinal]? = some candidate) :
    nextUnused used sources ordinal =
      if candidate.path ∉ used then (some candidate, ordinal + 1)
      else nextUnused used sources (ordinal + 1) := by
  rw [nextUnused]
  split
  · next hnone =>
    rw [h] at hnone
    cases hnone
  · next found hsome =>
    rw [h] at hsome
    rw [Option.some.inj hsome]

/-- The sources before an ordinal are used. -/
def Passed (used : List Text) (sources : List ExactRenameCandidate) (ordinal : Nat) : Prop :=
  ∀ source ∈ sources.take ordinal, source.path ∈ used

theorem Passed.mono {more : List Text} {ordinal : Nat}
    (h : Passed used sources ordinal) (hmore : ∀ path ∈ used, path ∈ more) :
    Passed more sources ordinal := fun source hsource => hmore _ (h source hsource)

theorem Passed.next {used : List Text} {sources : List ExactRenameCandidate} {ordinal : Nat}
    {candidate : ExactRenameCandidate} (h : Passed used sources ordinal)
    (hat : sources[ordinal]? = some candidate) (hused : candidate.path ∈ used) :
    Passed used sources (ordinal + 1) := by
  intro source hsource
  rw [List.take_add_one, hat, mem_append] at hsource
  rcases hsource with hsource | hsource
  · exact h source hsource
  · rw [show source = candidate by simpa using hsource]
    exact hused

/-- A search finds an unused source and goes past used ones, or there is no unused one. -/
theorem nextUnused_cases {ordinal : Nat} (hpassed : Passed used sources ordinal) :
    (∃ source next, nextUnused used sources ordinal = (some source, next) ∧ source ∈ sources ∧
        source.path ∉ used ∧ Passed (source.path :: used) sources next) ∨
      ∃ next, nextUnused used sources ordinal = (none, next) ∧
        ∀ source ∈ sources, source.path ∈ used := by
  induction hn : sources.length - ordinal using Nat.strongRecOn generalizing ordinal with
  | ind n ih =>
    cases hat : sources[ordinal]? with
    | none =>
      right
      refine ⟨ordinal, nextUnused_none hat, ?_⟩
      rw [List.getElem?_eq_none_iff] at hat
      rw [Passed, List.take_of_length_le hat] at hpassed
      exact hpassed
    | some candidate =>
      have hlt := (List.getElem?_eq_some_iff.1 hat).1
      rw [nextUnused_some hat]
      by_cases hused : candidate.path ∈ used
      · rw [if_neg (not_not.2 hused)]
        exact ih _ (by omega) (hpassed.next hat hused) rfl
      · rw [if_pos hused]
        left
        refine ⟨candidate, ordinal + 1, rfl, List.mem_of_getElem? hat, hused, ?_⟩
        exact (hpassed.mono fun path hpath => mem_cons_of_mem _ hpath).next hat
          mem_cons_self

-- The buckets of basenames

/-- The buckets of the sources: one for a basename, with sources only. -/
structure Gathered (sources : List ExactRenameCandidate)
    (byBasename : List (Text × BasenameBucket)) : Prop where
  nodup : (byBasename.map Prod.fst).Nodup
  sources : ∀ entry ∈ byBasename, ∀ source ∈ entry.2.sources, source ∈ sources

/-- The sources before the ordinal of a bucket are used. -/
def Searched (used : List Text) (byBasename : List (Text × BasenameBucket)) : Prop :=
  ∀ entry ∈ byBasename, Passed used entry.2.sources entry.2.ordinal

variable {key : Text}

theorem mem_of_lookup {β : Type} {entries : List (Text × β)} {value : β}
    (h : entries.lookup key = some value) : (key, value) ∈ entries := by
  obtain ⟨before, after, rfl, -⟩ := List.lookup_eq_some_iff.1 h
  exact List.mem_append_right _ mem_cons_self

theorem not_mem_of_lookup {β : Type} {entries : List (Text × β)}
    (h : entries.lookup key = none) : key ∉ entries.map Prod.fst := by
  rw [List.lookup_eq_none_iff] at h
  intro hkey
  obtain ⟨entry, hentry, rfl⟩ := mem_map.1 hkey
  exact absurd (h entry hentry) (by simp)

/-- Two entries of one key are one entry. -/
theorem entry_unique {β : Type} {entries : List (Text × β)} (hnodup : (entries.map Prod.fst).Nodup) {value other : β} (h : (key, value) ∈ entries) (hother : (key, other) ∈ entries) :
    value = other :=
  (Prod.mk.inj (inj_on_of_nodup_map hnodup h hother rfl)).2

/-- An update of the entries of a key. -/
theorem map_fst_update {β : Type} (entries : List (Text × β)) (key : Text) (f : β → β) :
    (entries.map fun entry => if entry.1 = key then (entry.1, f entry.2) else entry).map Prod.fst =
      entries.map Prod.fst := by
  rw [List.map_map]
  refine List.map_congr_left fun entry _ => ?_
  simp only [Function.comp]
  split <;> rfl

variable {byBasename : List (Text × BasenameBucket)}

theorem Gathered.addBasename {all : List ExactRenameCandidate} (h : Gathered all byBasename)
    {source : ExactRenameCandidate} (hsource : source ∈ all) :
    Gathered all (addBasename byBasename source) := by
  have hpushed : ∀ sources : List ExactRenameCandidate, (∀ other ∈ sources, other ∈ all) →
      ∀ other ∈ sources ++ [source], other ∈ all := by
    intro sources hall other hother
    rcases mem_append.1 hother with hother | hother
    · exact hall other hother
    · rw [mem_singleton.1 hother]
      exact hsource
  unfold Status.addBasename
  dsimp only
  split
  next hnone =>
    constructor
    · rw [map_append, List.map_singleton, ← List.concat_eq_append]
      exact h.nodup.concat (not_mem_of_lookup hnone)
    · exact List.forall_mem_append.2
        ⟨h.sources, List.forall_mem_singleton.2 (hpushed [] fun other hother => nomatch hother)⟩
  next =>
    constructor
    · rw [map_fst_update byBasename (gitBasename source.path)
        fun bucket => { bucket with sources := bucket.sources ++ [source] }]
      exact h.nodup
    · intro entry hentry
      obtain ⟨old, hold, rfl⟩ := mem_map.1 hentry
      split
      · exact hpushed old.2.sources (h.sources old hold)
      · exact h.sources old hold

theorem searched_addBasename
    (h : ∀ entry ∈ byBasename, entry.2.ordinal = 0) (source : ExactRenameCandidate) :
    ∀ entry ∈ addBasename byBasename source, entry.2.ordinal = 0 := by
  intro entry hentry
  unfold addBasename at hentry
  dsimp only at hentry
  split at hentry
  · rcases mem_append.1 hentry with hentry | hentry
    · exact h entry hentry
    · rw [mem_singleton.1 hentry]
  · obtain ⟨old, hold, rfl⟩ := mem_map.1 hentry
    split <;> exact h old hold

/-- What the first loop of `pairBucket` leaves. -/
theorem gathered_start (sources : List ExactRenameCandidate) :
    Gathered sources (sources.foldl addBasename []) ∧
      Searched [] (sources.foldl addBasename []) := by
  have hall : ∀ (rest : List ExactRenameCandidate) (byBasename : List (Text × BasenameBucket)),
      (∀ source ∈ rest, source ∈ sources) → Gathered sources byBasename →
      (∀ entry ∈ byBasename, entry.2.ordinal = 0) →
      Gathered sources (rest.foldl addBasename byBasename) ∧
        ∀ entry ∈ rest.foldl addBasename byBasename, entry.2.ordinal = 0 := by
    intro rest
    induction rest with
    | nil => exact fun byBasename _ hgathered hzero => ⟨hgathered, hzero⟩
    | cons source rest ih =>
      intro byBasename hrest hgathered hzero
      exact ih _ (fun other hother => hrest other (mem_cons_of_mem _ hother))
        (hgathered.addBasename (hrest source mem_cons_self))
        (searched_addBasename hzero source)
  obtain ⟨hgathered, hzero⟩ := hall sources [] (fun source h => h)
    ⟨nodup_nil, fun entry h => nomatch h⟩
    (fun entry h => nomatch h)
  refine ⟨hgathered, fun entry hentry => ?_⟩
  rw [hzero entry hentry]
  exact fun source hsource => absurd hsource (by simp)

theorem Searched.mono {more : List Text}
    (h : Searched used byBasename) (hmore : ∀ path ∈ used, path ∈ more) : Searched more byBasename :=
  fun entry hentry => (h entry hentry).mono hmore

/-- What the search in the bucket of a basename finds, and that it went past used sources. -/
theorem takeMatching_cases {pairing : Pairing} (hgathered : Gathered sources pairing.byBasename)
    (hsearched : Searched pairing.used pairing.byBasename) (destination : ExactRenameCandidate) :
    ∃ found byBasename, takeMatching pairing destination = (found, byBasename) ∧
      Gathered sources byBasename ∧
      match found with
      | none => Searched pairing.used byBasename
      | some source => source ∈ sources ∧ source.path ∉ pairing.used ∧
          Searched (source.path :: pairing.used) byBasename := by
  unfold takeMatching
  dsimp only
  split
  next => exact ⟨none, _, rfl, hgathered, hsearched⟩
  next bucket hlookup =>
  have hbucket := mem_of_lookup hlookup
  have hmoved : ∀ ordinal, Gathered sources (pairing.byBasename.map fun entry =>
      if entry.1 = gitBasename destination.path then (entry.1, { entry.2 with ordinal })
      else entry) := by
    intro ordinal
    constructor
    · rw [map_fst_update pairing.byBasename (gitBasename destination.path)
        fun bucket => { bucket with ordinal }]
      exact hgathered.nodup
    · intro entry hentry
      obtain ⟨old, hold, rfl⟩ := mem_map.1 hentry
      split <;> exact hgathered.sources old hold
  have hplace : ∀ {used : List Text} {ordinal : Nat}, Searched used pairing.byBasename →
      Passed used bucket.sources ordinal → Searched used (pairing.byBasename.map fun entry =>
        if entry.1 = gitBasename destination.path then (entry.1, { entry.2 with ordinal })
        else entry) := by
    intro used ordinal hbefore hpassed entry hentry
    obtain ⟨⟨name, old⟩, hold, rfl⟩ := mem_map.1 hentry
    split
    next hname =>
      dsimp only at hname
      subst hname
      rw [entry_unique hgathered.nodup hold hbucket]
      exact hpassed
    next => exact hbefore _ hold
  rcases nextUnused_cases (hsearched _ hbucket) with
    ⟨source, next, hfound, hin, hunused, hpassed⟩ | ⟨next, hnone, hall⟩
  · rw [hfound]
    refine ⟨some source, _, rfl, hmoved next, hgathered.sources _ hbucket source hin, hunused, ?_⟩
    exact hplace (hsearched.mono fun path hpath => mem_cons_of_mem _ hpath) hpassed
  · rw [hnone]
    refine ⟨none, _, rfl, hmoved next, hplace hsearched ?_⟩
    exact fun source hsource => hall source (List.mem_of_mem_take hsource)

-- The pairing of a bucket

/-- The loop's invariant: the output uses every source once, and the searches went past used
    sources only. -/
structure Pairing.Ok (sources : List ExactRenameCandidate) (pairing : Pairing) : Prop where
  gathered : Gathered sources pairing.byBasename
  searched : Searched pairing.used pairing.byBasename
  passed : Passed pairing.used sources pairing.sourceOrdinal
  used : ∀ path, path ∈ pairing.used ↔ path ∈ pairing.output.map fun rename => rename.source.path
  nodup : (pairing.output.map fun rename => rename.source.path).Nodup
  source_mem : ∀ rename ∈ pairing.output, rename.source ∈ sources

theorem Pairing.ok_start (sources : List ExactRenameCandidate) :
    Pairing.Ok sources { byBasename := sources.foldl addBasename [], used := [], sourceOrdinal := 0
                         output := [] } where
  gathered := (gathered_start sources).1
  searched := (gathered_start sources).2
  passed := fun source hsource => absurd hsource (by simp)
  used := fun path => by simp
  nodup := nodup_nil
  source_mem := fun rename hrename => nomatch hrename

/-- One more pair. -/
theorem Pairing.Ok.push {pairing : Pairing}
    (h : pairing.Ok sources) {source destination : ExactRenameCandidate} (hin : source ∈ sources)
    (hunused : source.path ∉ pairing.used)
    {sourceOrdinal : Nat} (hgathered : Gathered sources byBasename)
    (hsearched : Searched (source.path :: pairing.used) byBasename)
    (hpassed : Passed (source.path :: pairing.used) sources sourceOrdinal) :
    Pairing.Ok sources
      { byBasename, sourceOrdinal, used := source.path :: pairing.used
        output := pairing.output ++ [{ source, destination, similarity := 100 }] } where
  gathered := hgathered
  searched := hsearched
  passed := hpassed
  used := fun path => by
    rw [List.mem_cons, h.used, map_append, mem_append, or_comm]
    simp
  nodup := by
    rw [map_append, List.map_singleton, ← List.concat_eq_append]
    exact h.nodup.concat (mt (h.used _).2 hunused)
  source_mem := List.forall_mem_append.2 ⟨h.source_mem, List.forall_mem_singleton.2 hin⟩

/-- What the pairing of a bucket is: the first destinations in order, each with a source of its
    own, until one side has run out. -/
structure Pairs (sources destinations : List ExactRenameCandidate) (pairs : List ExactRename) :
    Prop where
  in_order : pairs.map ExactRename.destination <+: destinations
  source_mem : ∀ rename ∈ pairs, rename.source ∈ sources
  nodup : (pairs.map fun rename => rename.source.path).Nodup
  exhausted : pairs.map ExactRename.destination = destinations ∨
    ∀ source ∈ sources, source.path ∈ pairs.map fun rename => rename.source.path

theorem pairLoop_pairs (left : List ExactRenameCandidate)
    {done : List ExactRenameCandidate} {pairing : Pairing} (h : pairing.Ok sources)
    (hdone : pairing.output.map ExactRename.destination = done) :
    Pairs sources (done ++ left) (pairLoop sources left pairing) := by
  induction left generalizing done pairing with
  | nil =>
    rw [List.append_nil]
    exact { in_order := hdone ▸ List.prefix_refl _, source_mem := h.source_mem
            nodup := h.nodup, exhausted := .inl hdone }
  | cons destination left ih =>
    obtain ⟨matched, byBasename, hmatching, hgathered, hmatched⟩ :=
      takeMatching_cases h.gathered h.searched destination
    rw [pairLoop, hmatching]
    dsimp only
    have hgrown : ∀ source : ExactRenameCandidate,
        ∀ path ∈ pairing.used, path ∈ source.path :: pairing.used :=
      fun source path hpath => mem_cons_of_mem _ hpath
    have hpush : ∀ {source : ExactRenameCandidate} {sourceOrdinal : Nat},
        Pairing.Ok sources
          { byBasename, sourceOrdinal, used := source.path :: pairing.used
            output := pairing.output ++ [{ source, destination, similarity := 100 }] } →
        Pairs sources (done ++ destination :: left)
          (pairLoop sources left
            { byBasename, sourceOrdinal, used := source.path :: pairing.used
              output := pairing.output ++ [{ source, destination, similarity := 100 }] }) := by
      intro source sourceOrdinal hok
      have hrest := @ih (done ++ [destination]) _ hok (by rw [map_append, hdone]; rfl)
      rwa [append_assoc] at hrest
    cases matched with
    | some source =>
      obtain ⟨hin, hunused, hsearched⟩ := hmatched
      exact hpush (h.push hin hunused hgathered hsearched (h.passed.mono (hgrown source)))
    | none =>
      rcases nextUnused_cases h.passed with
        ⟨source, next, hfound, hin, hunused, hpassed⟩ | ⟨next, hnone, hall⟩
      · simp only [takeAny, hfound]
        exact hpush (h.push hin hunused hgathered (hmatched.mono (hgrown source)) hpassed)
      · simp only [takeAny, hnone]
        exact { in_order := hdone ▸ List.prefix_append _ _, source_mem := h.source_mem
                nodup := h.nodup, exhausted := .inr fun source hsource =>
                  (h.used _).1 (hall source hsource) }

theorem pairBucket_pairs (bucket : RenameBucket) :
    Pairs (bucket.sources.mergeSort pathOrder) (bucket.destinations.mergeSort pathOrder)
      (pairBucket bucket) := by
  have h := pairLoop_pairs (bucket.destinations.mergeSort pathOrder)
    (Pairing.ok_start (bucket.sources.mergeSort pathOrder)) rfl
  rwa [List.map_nil, nil_append] at h

/-- Both sides of a bucket run out at the smaller one. -/
theorem Pairs.length_eq {destinations : List ExactRenameCandidate} {pairs : List ExactRename}
    (h : Pairs sources destinations pairs)
    (hsources : (sources.map ExactRenameCandidate.path).Nodup) :
    pairs.length = min sources.length destinations.length := by
  have hdestinations : pairs.length ≤ destinations.length := by
    simpa using h.in_order.length_le
  have hwithin : pairs.length ≤ sources.length := by
    have hsub : (pairs.map fun rename => rename.source.path) ⊆
        sources.map ExactRenameCandidate.path := by
      intro path hpath
      obtain ⟨rename, hrename, rfl⟩ := mem_map.1 hpath
      exact mem_map_of_mem (h.source_mem rename hrename)
    simpa using (List.subperm_of_subset h.nodup hsub).length_le
  rcases h.exhausted with hall | hall
  · have hlength := congrArg List.length hall
    rw [List.length_map] at hlength
    omega
  · have hsub : sources.map ExactRenameCandidate.path ⊆
        pairs.map fun rename => rename.source.path := by
      intro path hpath
      obtain ⟨source, hsource, rfl⟩ := mem_map.1 hpath
      exact hall source hsource
    have hlength : sources.length ≤ pairs.length := by
      simpa using (List.subperm_of_subset hsources hsub).length_le
    omega

-- The order of insertion

theorem pathOrder_iff (left right : ExactRenameCandidate) :
    pathOrder left right = true ↔ octets left.path ≤ octets right.path := by
  rw [pathOrder, decide_eq_true_iff, Streams.comparePaths_le]

/-- No two entries have the same path, as it is stored. -/
def DistinctPaths (candidates : List ExactRenameCandidate) : Prop :=
  (candidates.map fun candidate => encode candidate.path).Nodup

theorem encode_of_octets {left right : Text} (h : octets left = octets right) :
    encode left = encode right :=
  (List.map_inj_right fun _ _ => UInt8.toNat_inj.1).1 h

theorem DistinctPaths.eq {candidates : List ExactRenameCandidate} (h : DistinctPaths candidates)
    {left right : ExactRenameCandidate} (hleft : left ∈ candidates) (hright : right ∈ candidates)
    (heq : encode left.path = encode right.path) : left = right :=
  inj_on_of_nodup_map h hleft hright heq

variable {candidates : List ExactRenameCandidate}

theorem DistinctPaths.paths (h : DistinctPaths candidates) :
    (candidates.map ExactRenameCandidate.path).Nodup := by
  apply List.Nodup.of_map encode
  rw [List.map_map]
  exact h

theorem DistinctPaths.sublist {fewer : List ExactRenameCandidate}
    (h : DistinctPaths candidates) (hfewer : fewer.Sublist candidates) : DistinctPaths fewer :=
  List.Nodup.sublist (hfewer.map _) h

theorem DistinctPaths.perm {others : List ExactRenameCandidate}
    (h : DistinctPaths candidates) (hperm : candidates.Perm others) : DistinctPaths others :=
  (hperm.map _).nodup h

/-- A bucket is read in the order of its paths, however it was filled. -/
theorem pairBucket_perm {bucket other : RenameBucket} (hsources : DistinctPaths bucket.sources)
    (hdestinations : DistinctPaths bucket.destinations)
    (hsourcesPerm : bucket.sources.Perm other.sources)
    (hdestinationsPerm : bucket.destinations.Perm other.destinations) :
    pairBucket bucket = pairBucket other := by
  unfold pairBucket
  rw [SortBy.mergeSort_eq_of_perm pathOrder_iff hsourcesPerm fun left hleft right hright heq =>
      hsources.eq hleft hright (encode_of_octets heq),
    SortBy.mergeSort_eq_of_perm pathOrder_iff hdestinationsPerm fun left hleft right hright heq =>
      hdestinations.eq hleft hright (encode_of_octets heq)]

-- The buckets

/-- The key of a bucket. -/
def keyOf (candidate : ExactRenameCandidate) : Text :=
  candidate.oid ++ text ":" ++ (modeClass candidate.mode).toOption.getD []

/-- The entries inserted on a side, in the order of their insertion. -/
def entriesOf (side : Side) (insertions : List Insertion) : List ExactRenameCandidate :=
  (insertions.filter fun insertion => insertion.side = side).map Insertion.candidate

/-- The entries of a bucket. -/
def bucketAt (insertions : List Insertion) (key : Text) : RenameBucket :=
  { sources := (entriesOf .source insertions).filter fun candidate => keyOf candidate = key
    destinations := (entriesOf .destination insertions).filter fun candidate => keyOf candidate = key }

theorem entriesOf_append (side : Side) (insertions : List Insertion) (insertion : Insertion) :
    entriesOf side (insertions ++ [insertion]) =
      entriesOf side insertions ++ if insertion.side = side then [insertion.candidate] else [] := by
  unfold entriesOf
  rw [List.filter_append, map_append]
  by_cases hside : insertion.side = side <;> simp [hside]

theorem bucketAt_append (insertions : List Insertion) (insertion : Insertion) (key : Text) :
    bucketAt (insertions ++ [insertion]) key =
      if keyOf insertion.candidate = key then
        (bucketAt insertions key).push insertion.side insertion.candidate
      else bucketAt insertions key := by
  obtain ⟨side, candidate⟩ := insertion
  unfold bucketAt
  rw [entriesOf_append, entriesOf_append]
  by_cases hkey : keyOf candidate = key <;> cases side <;> simp [hkey, RenameBucket.push]

/-- Every key has one bucket, which holds the entries of that key. -/
structure Filed (insertions : List Insertion) (buckets : List (Text × RenameBucket)) : Prop where
  nodup : (buckets.map Prod.fst).Nodup
  bucket : ∀ entry ∈ buckets, entry.2 = bucketAt insertions entry.1
  key_mem : ∀ insertion ∈ insertions, keyOf insertion.candidate ∈ buckets.map Prod.fst

theorem filed_nil : Filed [] [] where
  nodup := nodup_nil
  bucket := nofun
  key_mem := nofun

section

variable {insertions : List Insertion} {buckets : List (Text × RenameBucket)}
  (h : Filed insertions buckets)

include h

theorem bucketAt_of_not_mem (hkey : key ∉ buckets.map Prod.fst) :
    bucketAt insertions key = ⟨[], []⟩ := by
  have hnone : ∀ side, ((entriesOf side insertions).filter fun candidate => keyOf candidate = key) =
      [] := by
    intro side
    rw [List.filter_eq_nil_iff]
    intro candidate hcandidate
    obtain ⟨insertion, hinsertion, rfl⟩ := mem_map.1 hcandidate
    rw [decide_eq_true_iff]
    rintro rfl
    exact hkey (h.key_mem insertion (mem_filter.1 hinsertion).1)
  unfold bucketAt
  rw [hnone, hnone]

theorem Filed.add (insertion : Insertion) :
    Filed (insertions ++ [insertion])
      (ExactRenameClassifier.addToBucket buckets (keyOf insertion.candidate) insertion.side
        insertion.candidate) := by
  unfold ExactRenameClassifier.addToBucket
  split
  next hnone =>
    have hkey := not_mem_of_lookup hnone
    refine { nodup := ?_, bucket := ?_, key_mem := ?_ }
    · rw [map_append, List.map_singleton, ← List.concat_eq_append]
      exact h.nodup.concat hkey
    · intro entry hentry
      rw [bucketAt_append]
      rcases mem_append.1 hentry with hentry | hentry
      · have hne : keyOf insertion.candidate ≠ entry.1 := by
          intro heq
          rw [heq] at hkey
          exact hkey (mem_map_of_mem hentry)
        rw [if_neg hne, h.bucket entry hentry]
      · rw [mem_singleton.1 hentry, if_pos rfl, bucketAt_of_not_mem h hkey]
    · intro other hother
      rw [map_append, mem_append]
      rcases mem_append.1 hother with hother | hother
      · exact .inl (h.key_mem other hother)
      · rw [mem_singleton.1 hother]
        exact .inr (List.mem_singleton_self _)
  next bucket hsome =>
    have hkeys := map_fst_update buckets (keyOf insertion.candidate)
      fun bucket => bucket.push insertion.side insertion.candidate
    refine { nodup := hkeys ▸ h.nodup, bucket := ?_, key_mem := ?_ }
    · intro entry hentry
      obtain ⟨old, hold, rfl⟩ := mem_map.1 hentry
      rw [bucketAt_append]
      split
      next heq => rw [if_pos heq.symm, h.bucket old hold]
      next hne => rw [if_neg fun heq => hne heq.symm, h.bucket old hold]
    · intro other hother
      rw [hkeys]
      rcases mem_append.1 hother with hother | hother
      · exact h.key_mem other hother
      · rw [mem_singleton.1 hother]
        exact mem_map_of_mem (mem_of_lookup hsome)

end

-- The run of a classifier

/-- A classifier that has taken these insertions. -/
structure Filing (maxCandidates : Nat) (done : List Insertion) (classifier : ExactRenameClassifier) :
    Prop where
  limit : classifier.maxCandidates = maxCandidates
  count : classifier.candidateCount = done.length
  open_ : classifier.fallback = false
  filed : Filed done classifier.buckets

/-- The candidate passes its check. -/
def Insertion.Valid (insertion : Insertion) : Prop :=
  validateCandidate insertion.candidate = .ok ()

theorem modeClass_of_valid {insertion : Insertion} (h : insertion.Valid) :
    ∃ name, modeClass insertion.candidate.mode = .ok name := by
  obtain ⟨-, -, h⟩ := bind_eq_ok.1 h
  obtain ⟨name, hname, -⟩ := bind_eq_ok.1 h
  exact ⟨name, hname⟩

theorem isOid_of_valid {insertion : Insertion} (h : insertion.Valid) :
    isOid insertion.candidate.oid = true := by
  obtain ⟨-, -, h⟩ := bind_eq_ok.1 h
  obtain ⟨-, -, h⟩ := bind_eq_ok.1 h
  split at h
  · cases h
  next hoid => simpa using hoid

theorem apply_eq (classifier : ExactRenameClassifier) (insertion : Insertion) :
    insertion.apply classifier =
      classifier.retain insertion.side insertion.candidate >>= fun answer => pure answer.2 := by
  obtain ⟨side, candidate⟩ := insertion
  cases side <;> rfl

theorem keyOf_eq {name : Text} (h : modeClass candidate.mode = .ok name) :
    keyOf candidate = candidate.oid ++ text ":" ++ name := by
  rw [keyOf, h]
  rfl

variable {classifier : ExactRenameClassifier}

theorem Filing.apply {maxCandidates : Nat} {done : List Insertion} (h : Filing maxCandidates done classifier)
    {insertion : Insertion} (hvalid : insertion.Valid) (hroom : done.length < maxCandidates) :
    ∃ next, insertion.apply classifier = .ok next ∧
      Filing maxCandidates (done ++ [insertion]) next := by
  obtain ⟨name, hname⟩ := modeClass_of_valid hvalid
  have hcount : ¬ classifier.candidateCount + 1 > classifier.maxCandidates := by
    rw [h.count, h.limit]
    omega
  rw [apply_eq, ExactRenameClassifier.retain, if_neg (by rw [h.open_]; nofun),
    show validateCandidate insertion.candidate = .ok () from hvalid, ok_bind,
    if_neg hcount, hname, ok_bind]
  refine ⟨_, rfl, { limit := h.limit, count := ?_, open_ := h.open_, filed := ?_ }⟩
  · rw [List.length_append, ← h.count]
    rfl
  · rw [← keyOf_eq hname]
    exact h.filed.add insertion

/-- Up to the limit every insertion is filed. -/
theorem foldlM_filing {maxCandidates : Nat} (insertions : List Insertion) {done : List Insertion} (h : Filing maxCandidates done classifier)
    (hvalid : ∀ insertion ∈ insertions, insertion.Valid)
    (hroom : (done ++ insertions).length ≤ maxCandidates) :
    ∃ last, insertions.foldlM Insertion.apply classifier = .ok last ∧
      Filing maxCandidates (done ++ insertions) last := by
  induction insertions generalizing done classifier with
  | nil => exact ⟨classifier, rfl, by rwa [List.append_nil]⟩
  | cons insertion insertions ih =>
    rw [List.length_append, List.length_cons] at hroom
    obtain ⟨next, happly, hnext⟩ := h.apply (hvalid insertion mem_cons_self) (by omega)
    obtain ⟨last, hlast, hfiling⟩ := ih hnext
      (fun other hother => hvalid other (mem_cons_of_mem _ hother))
      (by simp only [List.length_append, List.length_cons, List.length_nil]; omega)
    rw [append_assoc] at hfiling
    exact ⟨last, by rw [foldlM_cons, happly, ok_bind, hlast], hfiling⟩

/-- A classifier that fell back ignores what comes. -/
theorem foldlM_fallback (h : classifier.fallback = true)
    (insertions : List Insertion) : insertions.foldlM Insertion.apply classifier = .ok classifier := by
  induction insertions with
  | nil => rfl
  | cons insertion insertions ih =>
    rw [foldlM_cons, apply_eq, ExactRenameClassifier.retain, if_pos h]
    exact ih

variable {insertions : List Insertion}

/-- Above the limit the classifier falls back. -/
theorem foldlM_overflow {maxCandidates : Nat} (h : Filing maxCandidates [] classifier)
    (hvalid : ∀ insertion ∈ insertions, insertion.Valid)
    (hmany : maxCandidates < insertions.length) :
    ∃ last, insertions.foldlM Insertion.apply classifier = .ok last ∧
      last.finish = .fallback (maxCandidates + 1) := by
  obtain ⟨before, insertion, after, rfl, hbefore⟩ : ∃ before insertion after,
      insertions = before ++ insertion :: after ∧ before.length = maxCandidates := by
    refine ⟨insertions.take maxCandidates, insertions[maxCandidates], insertions.drop (maxCandidates + 1),
      ?_, List.length_take_of_le (Nat.le_of_lt hmany)⟩
    rw [List.getElem_cons_drop, List.take_append_drop]
  obtain ⟨full, hfull, hfiling⟩ := foldlM_filing before h
    (fun other hother => hvalid other (List.mem_append_left _ hother))
    (by rw [nil_append, hbefore])
  have hinsertion : insertion.Valid :=
    hvalid insertion (List.mem_append_right _ mem_cons_self)
  have hcount : full.candidateCount + 1 > full.maxCandidates := by
    rw [hfiling.count, hfiling.limit, nil_append, hbefore]
    omega
  have happly : insertion.apply full =
      .ok { full with candidateCount := full.candidateCount + 1, fallback := true } := by
    rw [apply_eq, ExactRenameClassifier.retain, if_neg (by rw [hfiling.open_]; nofun),
      show validateCandidate insertion.candidate = .ok () from hinsertion, ok_bind, if_pos hcount]
    rfl
  refine ⟨_, by rw [List.foldlM_append, hfull, ok_bind, foldlM_cons, happly, ok_bind,
    foldlM_fallback rfl], ?_⟩
  rw [ExactRenameClassifier.finish, if_pos rfl, hfiling.count, nil_append, hbefore]

-- The renames of all buckets

/-- The comparator of the last sort. -/
def renameOrder (left right : ExactRename) : Bool :=
  comparePaths left.destination.path right.destination.path ≤ 0

theorem renameOrder_iff (left right : ExactRename) : renameOrder left right = true ↔
    octets left.destination.path ≤ octets right.destination.path := by
  rw [renameOrder, decide_eq_true_iff, Streams.comparePaths_le]

/-- The renames before the last sort. -/
def allPairs (buckets : List (Text × RenameBucket)) : List ExactRename :=
  buckets.flatMap fun entry => pairBucket entry.2

section
variable {insertions : List Insertion} {buckets : List (Text × RenameBucket)}

theorem mem_bucketAt_sources : candidate ∈ (bucketAt insertions key).sources ↔
      candidate ∈ entriesOf .source insertions ∧ keyOf candidate = key := by
  rw [bucketAt, mem_filter, decide_eq_true_iff]

theorem mem_bucketAt_destinations : candidate ∈ (bucketAt insertions key).destinations ↔
      candidate ∈ entriesOf .destination insertions ∧ keyOf candidate = key := by
  rw [bucketAt, mem_filter, decide_eq_true_iff]

/-- The entries of a pair are entries of its bucket. -/
theorem mem_of_pair {rename : ExactRename} (h : rename ∈ pairBucket (bucketAt insertions key)) :
    rename.source ∈ entriesOf .source insertions ∧ keyOf rename.source = key ∧
      rename.destination ∈ entriesOf .destination insertions ∧ keyOf rename.destination = key := by
  have hpairs := pairBucket_pairs (bucketAt insertions key)
  have hsource := hpairs.source_mem rename h
  have hdestination := hpairs.in_order.subset (mem_map_of_mem h)
  rw [List.mem_mergeSort, mem_bucketAt_sources] at hsource
  rw [List.mem_mergeSort, mem_bucketAt_destinations] at hdestination
  exact ⟨hsource.1, hsource.2, hdestination⟩

theorem Filed.mem_allPairs (h : Filed insertions buckets) {rename : ExactRename} :
    rename ∈ allPairs buckets ↔ rename ∈ pairBucket (bucketAt insertions (keyOf rename.source)) := by
  unfold allPairs
  rw [List.mem_flatMap]
  constructor
  · rintro ⟨entry, hentry, hrename⟩
    rw [h.bucket entry hentry] at hrename
    rwa [(mem_of_pair hrename).2.1]
  · intro hrename
    obtain ⟨insertion, hinsertion, hsource⟩ := mem_map.1 (mem_of_pair hrename).1
    obtain ⟨entry, hentry, hkey⟩ :=
      mem_map.1 (h.key_mem insertion (mem_filter.1 hinsertion).1)
    refine ⟨entry, hentry, ?_⟩
    rw [h.bucket entry hentry, hkey, hsource]
    exact hrename

theorem pairBucket_nodup (bucket : RenameBucket) : (pairBucket bucket).Nodup :=
  (pairBucket_pairs bucket).nodup.of_map _

section

variable (h : Filed insertions buckets)

include h

theorem Filed.nodup_allPairs : (allPairs buckets).Nodup := by
  unfold allPairs
  rw [List.nodup_flatMap]
  refine ⟨fun entry _ => pairBucket_nodup entry.2, ?_⟩
  have hkeys : buckets.Pairwise fun left right => left.1 ≠ right.1 := List.pairwise_map.1 h.nodup
  refine hkeys.imp_of_mem fun {left right} hleft hright hne => ?_
  intro rename hin hin'
  dsimp only at hin hin'
  rw [h.bucket left hleft] at hin
  rw [h.bucket right hright] at hin'
  exact hne ((mem_of_pair hin).2.1.symm.trans (mem_of_pair hin').2.1)

/-- A source has one rename. -/
theorem Filed.source_inj (hsources : DistinctPaths (entriesOf .source insertions))
    {left right : ExactRename}
    (hleft : left ∈ allPairs buckets) (hright : right ∈ allPairs buckets)
    (heq : left.source.path = right.source.path) : left = right := by
  rw [h.mem_allPairs] at hleft hright
  have hsource : left.source = right.source :=
    inj_on_of_nodup_map hsources.paths (mem_of_pair hleft).1 (mem_of_pair hright).1 heq
  rw [← hsource] at hright
  exact inj_on_of_nodup_map (pairBucket_pairs _).nodup hleft hright heq

/-- A destination has one rename. -/
theorem Filed.destination_inj (hdestinations : DistinctPaths (entriesOf .destination insertions))
    {left right : ExactRename}
    (hleft : left ∈ allPairs buckets) (hright : right ∈ allPairs buckets)
    (heq : encode left.destination.path = encode right.destination.path) : left = right := by
  rw [h.mem_allPairs] at hleft hright
  obtain ⟨-, -, hinLeft, hkeyLeft⟩ := mem_of_pair hleft
  obtain ⟨-, -, hinRight, hkeyRight⟩ := mem_of_pair hright
  have hdestination := hdestinations.eq hinLeft hinRight heq
  rw [← hkeyLeft, hdestination] at hleft
  rw [← hkeyRight] at hright
  have hbucket : DistinctPaths (bucketAt insertions (keyOf right.destination)).destinations :=
    hdestinations.sublist filter_sublist
  have hnodup : ((pairBucket (bucketAt insertions (keyOf right.destination))).map
      ExactRename.destination).Nodup := by
    refine (pairBucket_pairs _).in_order.sublist.nodup ?_
    exact (hbucket.perm (List.mergeSort_perm _ _).symm).of_map _
  exact inj_on_of_nodup_map hnodup hleft hright hdestination

/-- Insertions in another order make the same pairs. -/
theorem Filed.perm_allPairs {others : List Insertion}
    {others' : List (Text × RenameBucket)} (hothers : Filed others others')
    (hperm : insertions.Perm others) (hsources : DistinctPaths (entriesOf .source insertions))
    (hdestinations : DistinctPaths (entriesOf .destination insertions)) :
    (allPairs buckets).Perm (allPairs others') := by
  have hentries : ∀ side, (entriesOf side insertions).Perm (entriesOf side others) :=
    fun side => (hperm.filter _).map _
  have hbucket : ∀ key, pairBucket (bucketAt insertions key) = pairBucket (bucketAt others key) :=
    fun key => pairBucket_perm (hsources.sublist filter_sublist)
      (hdestinations.sublist filter_sublist) ((hentries .source).filter _)
      ((hentries .destination).filter _)
  refine (List.perm_ext_iff_of_nodup h.nodup_allPairs hothers.nodup_allPairs).2 fun rename => ?_
  rw [h.mem_allPairs, hothers.mem_allPairs, hbucket]

/-- The pairs of a key are those of its bucket. -/
theorem Filed.length_filter (hsources : DistinctPaths (entriesOf .source insertions)) (key : Text) :
    ((allPairs buckets).filter fun rename => keyOf rename.source = key).length =
      min (bucketAt insertions key).sources.length (bucketAt insertions key).destinations.length := by
  have hperm : ((allPairs buckets).filter fun rename => keyOf rename.source = key).Perm
      (pairBucket (bucketAt insertions key)) := by
    refine (List.perm_ext_iff_of_nodup (h.nodup_allPairs.filter _) (pairBucket_nodup _)).2 ?_
    intro rename
    rw [mem_filter, decide_eq_true_iff, h.mem_allPairs]
    constructor
    · rintro ⟨hrename, rfl⟩
      exact hrename
    · intro hrename
      rw [(mem_of_pair hrename).2.1]
      exact ⟨hrename, rfl⟩
  have hpaths : (((bucketAt insertions key).sources.mergeSort pathOrder).map
      ExactRenameCandidate.path).Nodup := by
    have hbucket : DistinctPaths (bucketAt insertions key).sources :=
      hsources.sublist filter_sublist
    exact (hbucket.perm (List.mergeSort_perm _ _).symm).paths
  rw [hperm.length_eq, (pairBucket_pairs _).length_eq hpaths, List.length_mergeSort,
    List.length_mergeSort]

end

end

-- Results

/-- What a classification says of its entries: a pairing, and the entries left over. -/
structure Renames (insertions : List Insertion) (renames : List ExactRename) : Prop where
  same : ∀ rename ∈ renames, rename.source.oid = rename.destination.oid ∧
    modeClass rename.source.mode = modeClass rename.destination.mode
  sources_nodup : (renames.map ExactRename.source).Nodup
  destinations_nodup : (renames.map ExactRename.destination).Nodup
  /-- Every deleted entry is the source of a rename or a plain delete. -/
  deleted : (entriesOf .source insertions).Perm (renames.map ExactRename.source ++
    (entriesOf .source insertions).filter (· ∉ renames.map ExactRename.source))
  /-- Every added entry is the destination of a rename or a plain add. -/
  added : (entriesOf .destination insertions).Perm (renames.map ExactRename.destination ++
    (entriesOf .destination insertions).filter (· ∉ renames.map ExactRename.destination))
  count : ∀ key, (renames.filter fun rename => keyOf rename.source = key).length =
    min (bucketAt insertions key).sources.length (bucketAt insertions key).destinations.length

/-- A part of a list and what is left of it. -/
theorem perm_append_rest {α : Type} [DecidableEq α] {xs part : List α} (hxs : xs.Nodup)
    (hpart : part.Nodup) (hsub : ∀ x ∈ part, x ∈ xs) :
    xs.Perm (part ++ xs.filter (· ∉ part)) := by
  have hin : (xs.filter (· ∈ part)).Perm part :=
    (List.perm_ext_iff_of_nodup (hxs.filter _) hpart).2 fun x => by simpa using hsub x
  refine (List.filter_append_perm (fun x => decide (x ∈ part)) xs).symm.trans ?_
  simpa using hin.append_right _

/-- Entries of one bucket have one object and compatible modes. -/
theorem same_of_keyOf {left right : ExactRenameCandidate} {leftName rightName : Text}
    (hleft : isOid left.oid = true) (hright : isOid right.oid = true)
    (hleftMode : modeClass left.mode = .ok leftName) (hrightMode : modeClass right.mode = .ok rightName)
    (h : keyOf left = keyOf right) :
    left.oid = right.oid ∧ modeClass left.mode = modeClass right.mode := by
  have hlength : ∀ oid, isOid oid = true → oid.length = 40 := by
    intro oid hoid
    unfold isOid at hoid
    rw [Bool.and_eq_true, decide_eq_true_iff] at hoid
    exact hoid.1
  rw [keyOf_eq hleftMode, keyOf_eq hrightMode, append_assoc, append_assoc] at h
  obtain ⟨hoid, hrest⟩ := List.append_inj h ((hlength _ hleft).trans (hlength _ hright).symm)
  rw [hleftMode, hrightMode, (List.append_inj hrest rfl).2]
  exact ⟨hoid, rfl⟩

theorem exists_of_entriesOf {side : Side} (h : candidate ∈ entriesOf side insertions) :
    ∃ insertion ∈ insertions, insertion.candidate = candidate := by
  obtain ⟨insertion, hinsertion, rfl⟩ := mem_map.1 h
  exact ⟨insertion, (mem_filter.1 hinsertion).1, rfl⟩

theorem Filed.renames {buckets : List (Text × RenameBucket)}
    (h : Filed insertions buckets) (hvalid : ∀ insertion ∈ insertions, insertion.Valid)
    (hsources : DistinctPaths (entriesOf .source insertions))
    (hdestinations : DistinctPaths (entriesOf .destination insertions)) {renames : List ExactRename}
    (hperm : renames.Perm (allPairs buckets)) : Renames insertions renames := by
  have hmem : ∀ rename ∈ renames, rename ∈ pairBucket (bucketAt insertions (keyOf rename.source)) :=
    fun rename hrename => h.mem_allPairs.1 (hperm.mem_iff.1 hrename)
  have hnodup : renames.Nodup := hperm.nodup_iff.2 h.nodup_allPairs
  have hfrom : (renames.map ExactRename.source).Nodup :=
    hnodup.map_on fun left hleft right hright heq => h.source_inj hsources (hperm.mem_iff.1 hleft)
      (hperm.mem_iff.1 hright) (congrArg ExactRenameCandidate.path heq)
  have hto : (renames.map ExactRename.destination).Nodup :=
    hnodup.map_on fun left hleft right hright heq => h.destination_inj hdestinations
      (hperm.mem_iff.1 hleft) (hperm.mem_iff.1 hright)
      (congrArg (fun candidate => encode candidate.path) heq)
  refine { same := ?_, sources_nodup := hfrom, destinations_nodup := hto, deleted := ?_
           added := ?_, count := ?_ }
  · intro rename hrename
    obtain ⟨hsource, -, hdestination, hkey⟩ := mem_of_pair (hmem rename hrename)
    obtain ⟨taken, hfromIn, hfromEq⟩ := exists_of_entriesOf hsource
    obtain ⟨given, htoIn, htoEq⟩ := exists_of_entriesOf hdestination
    obtain ⟨fromName, hfromName⟩ := modeClass_of_valid (hvalid taken hfromIn)
    obtain ⟨toName, htoName⟩ := modeClass_of_valid (hvalid given htoIn)
    have hfromOid := isOid_of_valid (hvalid taken hfromIn)
    have htoOid := isOid_of_valid (hvalid given htoIn)
    rw [hfromEq] at hfromName hfromOid
    rw [htoEq] at htoName htoOid
    exact same_of_keyOf hfromOid htoOid hfromName htoName hkey.symm
  · refine perm_append_rest hsources.of_map hfrom fun candidate hcandidate => ?_
    obtain ⟨rename, hrename, rfl⟩ := mem_map.1 hcandidate
    exact (mem_of_pair (hmem rename hrename)).1
  · refine perm_append_rest hdestinations.of_map hto fun candidate hcandidate => ?_
    obtain ⟨rename, hrename, rfl⟩ := mem_map.1 hcandidate
    exact (mem_of_pair (hmem rename hrename)).2.2.1
  · intro key
    rw [(hperm.filter _).length_eq]
    exact h.length_filter hsources key

theorem filing_start (maxCandidates : Nat) :
    Filing maxCandidates [] { maxCandidates, buckets := [], candidateCount := 0, fallback := false } where
  limit := rfl
  count := rfl
  open_ := rfl
  filed := filed_nil

section

variable {limit : Option Nat} {maxCandidates : Nat} {insertions : List Insertion}
  (hlimit : boundedCandidateLimit limit = .ok maxCandidates)
  (hvalid : ∀ insertion ∈ insertions, insertion.Valid)

include hlimit hvalid

/-- Within the limit, the renames are the pairs of the buckets in the order of their destinations. -/
theorem classify_filed (hroom : insertions.length ≤ maxCandidates) :
    ∃ buckets, Filed insertions buckets ∧ classify limit insertions =
      .ok (.classified ((allPairs buckets).mergeSort renameOrder) insertions.length) := by
  obtain ⟨last, hlast, hfiling⟩ :=
    foldlM_filing insertions (filing_start maxCandidates) hvalid hroom
  refine ⟨last.buckets, hfiling.filed, ?_⟩
  rw [classify, ExactRenameClassifier.create, hlimit, ok_bind, pure_bind, hlast, ok_bind,
    ExactRenameClassifier.finish, if_neg (by rw [hfiling.open_]; nofun), hfiling.count]
  rfl

theorem classify_fallback (hmany : maxCandidates < insertions.length) :
    classify limit insertions = .ok (.fallback (maxCandidates + 1)) := by
  obtain ⟨last, hlast, hfinish⟩ := foldlM_overflow (filing_start maxCandidates) hvalid hmany
  rw [classify, ExactRenameClassifier.create, hlimit, ok_bind, pure_bind, hlast, ok_bind, hfinish]
  rfl

end

/-- Deleted and added entries of distinct paths are paired by their objects, as many as there can
    be, and the same way whatever order they come in; above the limit nothing is paired. -/
theorem classify_pairs {limit : Option Nat} {maxCandidates : Nat} {insertions : List Insertion}
    (hlimit : boundedCandidateLimit limit = .ok maxCandidates)
    (hvalid : ∀ insertion ∈ insertions, insertion.Valid)
    (hsources : DistinctPaths (entriesOf .source insertions))
    (hdestinations : DistinctPaths (entriesOf .destination insertions)) :
    (insertions.length ≤ maxCandidates → ∃ renames,
      classify limit insertions = .ok (.classified renames insertions.length) ∧
        Renames insertions renames) ∧
    (maxCandidates < insertions.length →
      classify limit insertions = .ok (.fallback (maxCandidates + 1))) ∧
    ∀ others, insertions.Perm others → classify limit others = classify limit insertions := by
  refine ⟨fun hroom => ?_, classify_fallback hlimit hvalid, fun others hperm => ?_⟩
  · obtain ⟨buckets, hfiled, hclassify⟩ := classify_filed hlimit hvalid hroom
    exact ⟨_, hclassify,
      hfiled.renames hvalid hsources hdestinations (List.mergeSort_perm _ renameOrder)⟩
  have hvalid' : ∀ insertion ∈ others, insertion.Valid :=
    fun insertion h => hvalid insertion (hperm.mem_iff.2 h)
  have hlength := hperm.length_eq
  by_cases hroom : insertions.length ≤ maxCandidates
  · obtain ⟨buckets, hfiled, hclassify⟩ := classify_filed hlimit hvalid hroom
    obtain ⟨others', hfiled', hclassify'⟩ := classify_filed hlimit hvalid' (hlength ▸ hroom)
    have hsort := SortBy.mergeSort_eq_of_perm renameOrder_iff
      (hfiled.perm_allPairs hfiled' hperm hsources hdestinations)
      fun left hleft right hright heq =>
        hfiled.destination_inj hdestinations hleft hright (encode_of_octets heq)
    rw [hclassify, hclassify', hsort, hlength]
  · rw [classify_fallback hlimit hvalid (by omega), classify_fallback hlimit hvalid' (by omega)]

def regularFile (path : String) : ExactRenameCandidate :=
  { path := text path, mode := text "100644", oid := List.replicate 40 0x61 }

/-- Two files of one object: each is found by its basename, in either order. -/
theorem classify_moved :
    classify none [⟨.source, regularFile "a/x"⟩, ⟨.source, regularFile "a/y"⟩,
        ⟨.destination, regularFile "b/y"⟩] =
      classify none [⟨.destination, regularFile "b/y"⟩, ⟨.source, regularFile "a/y"⟩,
        ⟨.source, regularFile "a/x"⟩] := by
  have hperm : [(⟨.destination, regularFile "b/y"⟩ : Insertion), ⟨.source, regularFile "a/y"⟩,
      ⟨.source, regularFile "a/x"⟩].Perm [⟨.source, regularFile "a/x"⟩, ⟨.source, regularFile "a/y"⟩,
        ⟨.destination, regularFile "b/y"⟩] := by decide +kernel
  have hvalid : ∀ insertion ∈ [(⟨.destination, regularFile "b/y"⟩ : Insertion),
      ⟨.source, regularFile "a/y"⟩, ⟨.source, regularFile "a/x"⟩], insertion.Valid := by
    unfold Insertion.Valid
    decide +kernel
  exact (@classify_pairs none _ _ rfl hvalid (by unfold DistinctPaths; decide +kernel)
    (by unfold DistinctPaths; decide +kernel)).2.2 _ hperm

def deletedTwice : List Insertion :=
  [⟨.source, regularFile "a"⟩, ⟨.source, regularFile "a"⟩, ⟨.destination, regularFile "b"⟩,
    ⟨.destination, regularFile "c"⟩]

/-- A path that is deleted twice is the source of one rename at the most. -/
theorem length_deletedTwice {renames : List ExactRename} {count : Nat}
    (h : classify none deletedTwice = .ok (.classified renames count)) : renames.length ≤ 1 := by
  have hvalid : ∀ insertion ∈ deletedTwice, insertion.Valid := by
    unfold Insertion.Valid
    decide +kernel
  obtain ⟨buckets, hfiled, hclassify⟩ := @classify_filed none _ _ rfl hvalid (by decide)
  rw [hclassify] at h
  obtain ⟨rfl, -⟩ := ExactRenameClassification.classified.inj (Except.ok.inj h)
  have hsource : ∀ rename ∈ allPairs buckets, rename.source = regularFile "a" := by
    intro rename hrename
    have hin := (mem_of_pair (hfiled.mem_allPairs.1 hrename)).1
    simpa [deletedTwice, entriesOf] using hin
  have hsub : (allPairs buckets) ⊆ pairBucket (bucketAt deletedTwice (keyOf (regularFile "a"))) := by
    intro rename hrename
    have hin := hfiled.mem_allPairs.1 hrename
    rwa [hsource rename hrename] at hin
  have hpaths : ((pairBucket (bucketAt deletedTwice (keyOf (regularFile "a")))).map fun rename =>
      rename.source.path) ⊆ [text "a"] := by
    intro path hpath
    obtain ⟨rename, hrename, rfl⟩ := mem_map.1 hpath
    have hin := (mem_of_pair hrename).1
    have heq : rename.source = regularFile "a" := by simpa [deletedTwice, entriesOf] using hin
    rw [heq]
    exact List.mem_singleton_self _
  have hone := (List.subperm_of_subset (pairBucket_pairs _).nodup hpaths).length_le
  have hall := (List.subperm_of_subset hfiled.nodup_allPairs hsub).length_le
  rw [List.length_map, List.length_singleton] at hone
  rw [List.length_mergeSort]
  omega

/-- One pair is possible but the limit is one entry; and of two deleted and two added entries of
    one object only one pair is made where the path of the deleted ones is the same. -/
theorem pairs_missed :
    classify (some 1) [⟨.source, regularFile "a"⟩, ⟨.destination, regularFile "b"⟩] =
        .ok (.fallback 2) ∧
      ((bucketAt deletedTwice (keyOf (regularFile "a"))).sources.length = 2 ∧
        (bucketAt deletedTwice (keyOf (regularFile "a"))).destinations.length = 2 ∧
        ∀ renames count, classify none deletedTwice = .ok (.classified renames count) →
          renames.length ≤ 1) := by
  refine ⟨by decide +kernel, by decide +kernel, by decide +kernel, fun renames count h => ?_⟩
  exact length_deletedTwice h

end Kompjutr.Status
