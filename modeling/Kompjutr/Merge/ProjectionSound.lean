/-
  Kompjutr.Merge.ProjectionSound

  Where the conflicts of an integration are put (`projectEntries_placed`): the physical paths differ,
  a relocation stands beside its logical path and meets no path that is taken, and no stage is lost
  or written twice.
-/
import Kompjutr.Merge.Projection

namespace Kompjutr.Projection

open Fuel (bind_eq_ok)
open Objects (Text text)
open Utf8 (isHigh isLow)
open List (append_assoc append_nil mem_cons mem_map mem_singleton prefix_append)

variable {modeClass : MaterializableModeClass} {group : FileGroup} {state' state : ProjectionState}

variable {label logicalPath path : Text} {identity : Option IntegrationIdentity} {side : Side}

variable {Content : Type} {reserved : MergeReservations} {untracked : Text → Bool}
  {options : MergeProjectionOptions}

-- Relocations

/-- A path in the same directory whose name goes on with a tilde. -/
def Beside (logicalPath path : Text) : Prop :=
  ∃ name : Text, path = logicalPath ++ 0x7e :: name ∧ 0x2f ∉ name

/-- A directory is above a path. -/
def Below (dir path : Text) : Prop := dir ++ [0x2f] <+: path

theorem safeLabelUnits_slash {out : Text} (h : safeLabelUnits label = .ok out) : 0x2f ∉ out := by
  induction label using safeLabelUnits.induct generalizing out with
  | case1 =>
    obtain rfl : [] = out := Except.ok.inj h
    exact List.not_mem_nil
  | case2 u rest hcontrol =>
    rw [safeLabelUnits.eq_def] at h
    dsimp only at h
    rw [if_pos hcontrol] at h
    cases h
  | case3 u hcontrol hhigh =>
    rw [safeLabelUnits, if_neg hcontrol, if_pos hhigh] at h
    obtain rfl : u :: text "undefined" = out := Except.ok.inj h
    rw [mem_cons, not_or]
    refine ⟨?_, by decide +kernel⟩
    rintro rfl
    exact absurd hhigh (by decide)
  | case4 u hcontrol hhigh low rest hlow ih =>
    rw [safeLabelUnits, if_neg hcontrol, if_pos hhigh, if_pos hlow, bind_eq_ok] at h
    obtain ⟨out, hout, heq⟩ := h
    cases heq
    rw [mem_cons, mem_cons, not_or, not_or]
    refine ⟨?_, ?_, ih hout⟩
    · rintro rfl
      exact absurd hhigh (by decide)
    · rintro rfl
      exact absurd hlow (by decide)
  | case5 u hcontrol hhigh low rest hlow =>
    rw [safeLabelUnits, if_neg hcontrol, if_pos hhigh, if_neg hlow] at h
    cases h
  | case6 u rest hcontrol hhigh hlow =>
    rw [safeLabelUnits.eq_def] at h
    dsimp only at h
    rw [if_neg hcontrol, if_neg hhigh, if_pos hlow] at h
    cases h
  | case7 u rest hcontrol hhigh hlow ih =>
    rw [safeLabelUnits.eq_def] at h
    dsimp only at h
    rw [if_neg hcontrol, if_neg hhigh, if_neg hlow, bind_eq_ok] at h
    obtain ⟨out, hout, heq⟩ := h
    cases heq
    rw [mem_cons, not_or]
    refine ⟨?_, ih hout⟩
    split
    next => decide
    next hslash => exact fun heq => hslash heq.symm

theorem numberText_slash (n : Nat) : 0x2f ∉ numberText n := by
  intro hmem
  obtain ⟨digit, hdigit, heq⟩ := mem_map.1 hmem
  have hrange := Nat.isDigit_of_mem_toDigits (by decide) (by decide) hdigit
  simp only [Char.isDigit, Bool.and_eq_true, decide_eq_true_eq, UInt32.le_iff_toNat_le,
    show '0'.val.toNat = 48 from rfl, show '9'.val.toNat = 57 from rfl] at hrange
  have hnat := congrArg UInt16.toNat heq
  rw [UInt16.toNat_ofNat', show UInt16.toNat 0x2f = 47 from rfl] at hnat
  have hval : digit.toNat = digit.val.toNat := rfl
  omega

theorem relocationCandidate_beside {safe : Text} (hsafe : 0x2f ∉ safe) (attempt : Nat) :
    Beside logicalPath (relocationCandidate (logicalPath ++ 0x7e :: safe) attempt) := by
  unfold relocationCandidate
  split
  next => exact ⟨safe, rfl, hsafe⟩
  next =>
    refine ⟨safe ++ 0x5f :: numberText (attempt - 1), by rw [append_assoc]; rfl, ?_⟩
    rw [List.mem_append, mem_cons, not_or, not_or]
    exact ⟨hsafe, by decide, numberText_slash _⟩

/-- The first candidate that is not reserved. -/
theorem relocationFrom_ok {base : Text} {attempt left : Nat}
    (h : relocationFrom logicalPath base reserved untracked attempt left = .ok path) :
    ∃ n, path = relocationCandidate base n ∧ reserved.has path = false ∧ untracked path = false ∧
      ∀ m, attempt ≤ m → m < n → reserved.has (relocationCandidate base m) = true := by
  induction left generalizing attempt with
  | zero => cases h
  | succ left ih =>
    rw [relocationFrom, bind_eq_ok] at h
    obtain ⟨_, -, h⟩ := h
    split at h
    next hhas =>
      obtain ⟨n, hpath, hfree, huntracked, hearlier⟩ := ih h
      refine ⟨n, hpath, hfree, huntracked, fun m hm hn => ?_⟩
      rcases Nat.lt_or_eq_of_le hm with hm | rfl
      · exact hearlier m hm hn
      · exact hhas
    next hhas =>
      split at h
      next => cases h
      next huntracked =>
        cases h
        exact ⟨attempt, rfl, Bool.eq_false_of_not_eq_true hhas,
          Bool.eq_false_of_not_eq_true huntracked, fun m hm hn => absurd hn (Nat.not_lt.2 hm)⟩

theorem uniqueRelocation_ok {reserved' : MergeReservations}
    (h : uniqueRelocation logicalPath label reserved untracked = .ok (path, reserved')) :
    Beside logicalPath path ∧ reserved.has path = false ∧ untracked path = false ∧
      reserved' = reserved.add path := by
  rw [uniqueRelocation, bind_eq_ok] at h
  obtain ⟨safe, hsafe, h⟩ := h
  rw [bind_eq_ok] at h
  obtain ⟨candidate, hcandidate, h⟩ := h
  cases h
  obtain ⟨n, rfl, hfree, huntracked, -⟩ := relocationFrom_ok hcandidate
  unfold safeRelocationLabel at hsafe
  split at hsafe
  next => cases hsafe
  next =>
    exact ⟨relocationCandidate_beside (safeLabelUnits_slash hsafe) n, hfree, huntracked, rfl⟩

theorem Beside.ne (h : Beside logicalPath path) : path ≠ logicalPath := by
  obtain ⟨name, rfl, -⟩ := h
  intro heq
  have hlength := congrArg List.length heq
  rw [List.length_append, List.length_cons] at hlength
  omega

/-- A relocation stays in the directory of its logical path. -/
theorem Beside.below_iff {dir : Text} (h : Beside logicalPath path) :
    Below dir path ↔ Below dir logicalPath := by
  obtain ⟨name, rfl, hname⟩ := h
  constructor
  · intro hbelow
    by_cases hlength : (dir ++ [0x2f]).length ≤ logicalPath.length
    · exact List.prefix_of_prefix_length_le hbelow (prefix_append _ _) hlength
    · -- A longer directory would end in a unit of the name.
      exfalso
      have hlong : logicalPath.length ≤ dir.length := by
        rw [List.length_append, List.length_singleton] at hlength
        omega
      have hpre : logicalPath <+: dir := List.prefix_of_prefix_length_le (prefix_append _ _)
        ((prefix_append dir [0x2f]).trans hbelow) hlong
      obtain ⟨tail, rfl⟩ := hpre
      unfold Below at hbelow
      rw [append_assoc, List.prefix_append_right_inj] at hbelow
      have hmem := hbelow.subset (List.mem_append_right tail (List.mem_singleton_self 0x2f))
      rcases mem_cons.1 hmem with heq | hmem
      · exact absurd heq (by decide)
      · exact hname hmem
  · exact fun hbelow => hbelow.trans (prefix_append _ _)

-- Stages

def IntegrationStages.identities (stages : IntegrationStages) : List IntegrationIdentity :=
  stages.base.toList ++ (stages.current.toList ++ stages.incoming.toList)

/-- The identities that an entry has to place, with its path. -/
def entryIdentities : IntegrationEntry Content → List (Text × IntegrationIdentity)
  | .clean entry => entry.result.toList.map (entry.path, ·)
  | .conflict entry => entry.stages.identities.map (entry.path, ·)

/-- The identities that an entry of the index holds, with its logical path. -/
def placedIdentities (entry : ProjectedMergeEntry Content) : List (Text × IntegrationIdentity) :=
  (entry.stageZero.toList ++ (entry.stages.map IntegrationStages.identities).getD []).map
    (entry.logicalPath, ·)

/-- Beside a symlink and a file there is no base of a third kind: such a conflict is one of
    submodules. -/
def Planned : IntegrationEntry Content → Prop
  | .clean _ => True
  | .conflict entry => distinctMaterializableSides entry ≠ none →
      entry.stages.base = none ∨ materializableModeClass entry.stages.base ≠ none

instance (entry : IntegrationEntry Content) : Decidable (Planned entry) :=
  match entry with
  | .clean _ => inferInstanceAs (Decidable True)
  | .conflict _ => inferInstanceAs (Decidable (_ → _))

theorem ofModeClass_self
    (h : materializableModeClass identity = some modeClass) : ofModeClass identity modeClass = identity :=
  if_pos h

theorem ofModeClass_other
    {other : MaterializableModeClass} (h : materializableModeClass identity = some other)
    (hne : other ≠ modeClass) : ofModeClass identity modeClass = none :=
  if_neg fun heq => hne (Option.some.inj (h.symm.trans heq))

/-- The two classes share the base, the one or the other way. -/
theorem ofModeClass_base (h : identity = none ∨ materializableModeClass identity ≠ none) :
    (ofModeClass identity .symlink).toList ++ (ofModeClass identity .regular).toList =
      identity.toList := by
  cases hclass : materializableModeClass identity with
  | none =>
    obtain rfl := h.resolve_right (not_not.2 hclass)
    rfl
  | some modeClass =>
    cases modeClass with
    | regular =>
      rw [ofModeClass_self hclass, ofModeClass_other hclass (by decide)]
      rfl
    | symlink =>
      rw [ofModeClass_self hclass, ofModeClass_other hclass (by decide)]
      exact append_nil _

section

variable {entry : ConflictEntry Content} (h : distinctMaterializableSides entry = some side)

include h

/-- The classes of the two sides. -/
theorem distinctMaterializableSides_some :
    materializableModeClass (entry.stages.side side) = some .regular ∧
      materializableModeClass (entry.stages.side side.other) = some .symlink := by
  unfold distinctMaterializableSides at h
  split at h
  next => cases h
  next =>
    split at h
    next hcurrent hincoming =>
      cases h
      exact ⟨hcurrent, hincoming⟩
    next hcurrent hincoming =>
      cases h
      exact ⟨hincoming, hcurrent⟩
    next => cases h

/-- The stages of the two classes are those of the conflict. -/
theorem stagesForModeClass_perm
    (hbase : entry.stages.base = none ∨ materializableModeClass entry.stages.base ≠ none) :
    ((stagesForModeClass entry .symlink).identities ++
      (stagesForModeClass entry .regular).identities).Perm entry.stages.identities := by
  obtain ⟨hregular, hsymlink⟩ := distinctMaterializableSides_some h
  unfold IntegrationStages.identities stagesForModeClass
  dsimp only
  rw [← ofModeClass_base hbase]
  cases side with
  | current =>
    have hcurrent : materializableModeClass entry.stages.current = some .regular := hregular
    have hincoming : materializableModeClass entry.stages.incoming = some .symlink := hsymlink
    rw [ofModeClass_self hcurrent, ofModeClass_self hincoming,
      ofModeClass_other hcurrent (by decide), ofModeClass_other hincoming (by decide)]
    -- The symlink goes behind the file.
    rw [Option.toList_none, List.nil_append, append_nil, append_assoc, append_assoc]
    refine List.Perm.append_left _ (List.perm_append_comm.trans ?_)
    rw [append_assoc]
  | incoming =>
    have hincoming : materializableModeClass entry.stages.incoming = some .regular := hregular
    have hcurrent : materializableModeClass entry.stages.current = some .symlink := hsymlink
    rw [ofModeClass_self hcurrent, ofModeClass_self hincoming,
      ofModeClass_other hcurrent (by decide), ofModeClass_other hincoming (by decide)]
    rw [Option.toList_none, List.nil_append, append_nil, append_assoc, append_assoc]
    refine List.Perm.append_left _ ?_
    rw [← append_assoc, ← append_assoc]
    exact List.perm_append_comm.append_right _

end

/-- Where a conflict has one file side, nothing stands on the other. -/
theorem sideStages_eq {entry : ConflictEntry Content}
    (h : entry.stages.side side.other = none) : sideStages entry side = entry.stages := by
  unfold sideStages
  cases side with
  | current =>
    have hother : entry.stages.incoming = none := h
    rw [if_pos rfl, if_neg (by decide), ← hother]
  | incoming =>
    have hother : entry.stages.current = none := h
    rw [if_pos rfl, if_neg (by decide), ← hother]

theorem placedIdentities_ordinary (entry : IntegrationEntry Content) :
    placedIdentities (ordinary entry) = entryIdentities entry := by
  cases entry with
  | clean entry =>
    unfold placedIdentities ordinary entryIdentities
    exact congrArg _ (append_nil _)
  | conflict entry => rfl

theorem ordinary_path (entry : IntegrationEntry Content) :
    (ordinary entry).path = entry.path ∧ (ordinary entry).logicalPath = entry.path ∧
      (ordinary entry).purpose = .primary := by
  cases entry <;> exact ⟨rfl, rfl, rfl⟩

theorem descendant_path (entry : ConflictEntry Content) (side : Side) :
    (descendant entry side).path = entry.path ∧ (descendant entry side).logicalPath = entry.path ∧
      (descendant entry side).purpose = .primary := by
  unfold descendant
  split
  next => exact ⟨rfl, rfl, rfl⟩
  next => exact ordinary_path (.conflict entry)

/-- An entry of one side moves its identity to stage zero. -/
theorem placedIdentities_descendant (entry : ConflictEntry Content) (side : Side) :
    placedIdentities (descendant entry side) = entryIdentities (.conflict entry) := by
  unfold descendant
  split
  next identity hbase hside hother =>
    unfold placedIdentities entryIdentities IntegrationStages.identities
    dsimp only
    rw [hbase]
    cases side with
    | current =>
      have hcurrent : entry.stages.current = some identity := hside
      have hincoming : entry.stages.incoming = none := hother
      rw [hcurrent, hincoming]
      rfl
    | incoming =>
      have hincoming : entry.stages.incoming = some identity := hside
      have hcurrent : entry.stages.current = none := hother
      rw [hcurrent, hincoming]
      rfl
  next => exact placedIdentities_ordinary (.conflict entry)

-- One entry

variable {entry : IntegrationEntry Content} {reserved' : MergeReservations}
  {placed : List (ProjectedMergeEntry Content)}

/-- An entry keeps its path, or stands beside it where nothing else does. -/
def PlacedAt (reserved : MergeReservations) (untracked : Text → Bool) (logicalPath : Text)
    (out : ProjectedMergeEntry Content) : Prop :=
  out.logicalPath = logicalPath ∧
    (out.purpose = .primary → out.path = logicalPath) ∧
    (out.purpose ≠ .primary → Beside logicalPath out.path ∧ reserved.has out.path = false ∧
      untracked out.path = false)

/-- What is projected of one entry. -/
structure EntryPlaced (reserved : MergeReservations) (untracked : Text → Bool)
    (entry : IntegrationEntry Content) (placed : List (ProjectedMergeEntry Content))
    (reserved' : MergeReservations) : Prop where
  places : ∀ out ∈ placed, PlacedAt reserved untracked entry.path out
  reserves : ∀ out ∈ placed, out.purpose ≠ .primary → reserved'.has out.path = true
  grows : ∀ path, reserved.has path = true → reserved'.has path = true
  nodup : (placed.map ProjectedMergeEntry.path).Nodup
  identities : (placed.flatMap placedIdentities).Perm (entryIdentities entry)

theorem MergeReservations.has_add (reserved : MergeReservations) (path : Text) :
    (reserved.add path).has path = true := by
  unfold MergeReservations.has MergeReservations.add
  rw [List.contains_cons, beq_self_eq_true]
  rfl

theorem MergeReservations.has_add_of_has {added : Text} (h : reserved.has path = true) :
    (reserved.add added).has path = true := by
  unfold MergeReservations.has MergeReservations.add at *
  rw [Bool.or_eq_true] at h ⊢
  refine h.imp (fun hoccupied => ?_) id
  rw [List.contains_cons, hoccupied, Bool.or_true]

variable {out : ProjectedMergeEntry Content}

theorem EntryPlaced.kept (hpath : out.path = entry.path)
    (hlogical : out.logicalPath = entry.path) (hpurpose : out.purpose = .primary)
    (hidentities : placedIdentities out = entryIdentities entry) :
    EntryPlaced reserved untracked entry [out] reserved where
  places := by
    intro out' hout
    obtain rfl := mem_singleton.1 hout
    exact ⟨hlogical, fun _ => hpath, fun hne => absurd hpurpose hne⟩
  reserves := by
    intro out' hout hne
    obtain rfl := mem_singleton.1 hout
    exact absurd hpurpose hne
  grows := fun _ h => h
  nodup := List.nodup_singleton _
  identities := by
    rw [List.flatMap_singleton, hidentities]

theorem relocationOf_ne (side : Side) : relocationOf side ≠ .primary := by
  cases side <;> decide

theorem EntryPlaced.moved
    (hlogical : out.logicalPath = entry.path) (hpurpose : out.purpose ≠ .primary)
    (h : uniqueRelocation entry.path label reserved untracked = .ok (out.path, reserved'))
    (hidentities : placedIdentities out = entryIdentities entry) :
    EntryPlaced reserved untracked entry [out] reserved' := by
  obtain ⟨hbeside, hfree, huntracked, rfl⟩ := uniqueRelocation_ok h
  refine { places := ?_, reserves := ?_, grows := fun _ => MergeReservations.has_add_of_has
           nodup := List.nodup_singleton _, identities := ?_ }
  · intro out' hout
    obtain rfl := mem_singleton.1 hout
    exact ⟨hlogical, fun heq => absurd heq hpurpose, fun _ => ⟨hbeside, hfree, huntracked⟩⟩
  · intro out' hout _
    obtain rfl := mem_singleton.1 hout
    exact reserved.has_add _
  · rw [List.flatMap_singleton, hidentities]

theorem EntryPlaced.pair {moved : ProjectedMergeEntry Content}
    (hpath : out.path = entry.path) (hout : out.logicalPath = entry.path)
    (hprimary : out.purpose = .primary) (hlogical : moved.logicalPath = entry.path)
    (hpurpose : moved.purpose ≠ .primary)
    (h : uniqueRelocation entry.path label reserved untracked = .ok (moved.path, reserved'))
    (hidentities : (placedIdentities out ++ placedIdentities moved).Perm (entryIdentities entry)) :
    EntryPlaced reserved untracked entry [out, moved] reserved' := by
  obtain ⟨hbeside, hfree, huntracked, rfl⟩ := uniqueRelocation_ok h
  refine { places := ?_, reserves := ?_, grows := fun _ => MergeReservations.has_add_of_has
           nodup := ?_, identities := ?_ }
  · rw [List.forall_mem_cons, List.forall_mem_singleton]
    exact ⟨⟨hout, fun _ => hpath, fun hne => absurd hprimary hne⟩, hlogical,
      fun heq => absurd heq hpurpose, fun _ => ⟨hbeside, hfree, huntracked⟩⟩
  · rw [List.forall_mem_cons, List.forall_mem_singleton]
    exact ⟨fun hne => absurd hprimary hne, fun _ => reserved.has_add _⟩
  · refine List.nodup_cons.2 ⟨?_, List.nodup_singleton _⟩
    rw [List.map_singleton, mem_singleton, hpath]
    exact hbeside.ne.symm
  · rw [List.flatMap_cons, List.flatMap_singleton]
    exact hidentities

theorem projectDistinct_placed {entry : ConflictEntry Content}
    (hside : distinctMaterializableSides entry = some side)
    (hplanned : Planned (.conflict entry))
    (h : projectDistinctMaterializableConflict entry side options reserved untracked =
      .ok (placed, reserved')) :
    EntryPlaced reserved untracked (.conflict entry) placed reserved' := by
  unfold projectDistinctMaterializableConflict at h
  split at h
  next regular symlink _ _ =>
    rw [bind_eq_ok] at h
    obtain ⟨⟨path, reserved'⟩, hunique, h⟩ := h
    cases h
    refine EntryPlaced.pair rfl rfl rfl rfl (relocationOf_ne side) hunique ?_
    have hperm := stagesForModeClass_perm hside
      (hplanned (by rw [hside]; exact Option.some_ne_none side))
    exact (List.Perm.of_eq (List.map_append.symm)).trans (hperm.map _)
  next => cases h

theorem projectFileRoot_placed {entry : ConflictEntry Content}
    (h : projectFileRoot entry options reserved untracked = .ok (out, reserved', group)) :
    EntryPlaced reserved untracked (.conflict entry) [out] reserved' := by
  unfold projectFileRoot at h
  split at h
  next => cases h
  next hunique =>
    have hother : entry.stages.side
        (if entry.stages.current = none then Side.incoming else Side.current).other = none := by
      by_cases hcurrent : entry.stages.current = none
      · rw [if_pos hcurrent]
        exact hcurrent
      · rw [if_neg hcurrent]
        by_contra hincoming
        exact hunique ⟨fun heq => absurd heq hcurrent, fun heq => absurd heq hincoming⟩
    dsimp only at h
    generalize (if entry.stages.current = none then Side.incoming else Side.current) = fileSide
      at h hother
    cases hidentity : entry.stages.side fileSide with
    | none =>
      rw [hidentity] at h
      cases h
    | some identity =>
      rw [hidentity] at h
      dsimp only at h
      rw [bind_eq_ok] at h
      obtain ⟨⟨path, reserved'⟩, hrelocated, h⟩ := h
      obtain ⟨rfl, heq⟩ := Prod.mk.inj (Except.ok.inj h)
      obtain ⟨rfl, -⟩ := Prod.mk.inj heq
      refine EntryPlaced.moved rfl (relocationOf_ne _) hrelocated ?_
      unfold placedIdentities entryIdentities
      dsimp only
      rw [Option.map_some, Option.getD_some, sideStages_eq hother]
      rfl

theorem projectAlone_placed (hplanned : Planned entry)
    (h : projectAlone options untracked reserved entry = .ok (placed, state')) :
    EntryPlaced reserved untracked entry placed state'.reserved := by
  unfold projectAlone at h
  split at h
  next clean =>
    cases h
    exact EntryPlaced.kept rfl rfl rfl (placedIdentities_ordinary (.clean clean))
  next conflict =>
    split at h
    next side hside =>
      rw [bind_eq_ok] at h
      obtain ⟨⟨projected, reserved'⟩, hprojected, h⟩ := h
      cases h
      exact projectDistinct_placed hside hplanned hprojected
    next =>
      split at h
      next =>
        rw [bind_eq_ok] at h
        obtain ⟨⟨projected, reserved', group⟩, hprojected, h⟩ := h
        cases h
        exact projectFileRoot_placed hprojected
      next =>
        cases h
        exact EntryPlaced.kept rfl rfl rfl rfl

theorem projectChild_placed (h : projectChild group entry = .ok out) :
    EntryPlaced reserved untracked entry [out] reserved := by
  unfold projectChild at h
  split at h
  next => cases h
  next conflict =>
    split at h
    next =>
      cases h
      obtain ⟨hpath, hlogical, hprimary⟩ := descendant_path conflict group.directorySide
      exact EntryPlaced.kept hpath hlogical hprimary (placedIdentities_descendant conflict _)
    next => cases h

theorem projectEntry_placed (hplanned : Planned entry)
    (h : projectEntry options untracked state entry = .ok (placed, state')) :
    EntryPlaced state.reserved untracked entry placed state'.reserved := by
  unfold projectEntry at h
  split at h
  next group _ =>
    split at h
    next =>
      rw [bind_eq_ok] at h
      obtain ⟨projected, hprojected, h⟩ := h
      cases h
      exact projectChild_placed hprojected
    next => exact projectAlone_placed hplanned h
  next => exact projectAlone_placed hplanned h

-- The plan

variable {entries : List (IntegrationEntry Content)} {out : List (ProjectedMergeEntry Content)}

/-- What is projected of a plan. -/
structure PlanPlaced (reserved : MergeReservations) (untracked : Text → Bool)
    (entries : List (IntegrationEntry Content)) (out : List (ProjectedMergeEntry Content)) :
    Prop where
  places : ∀ placed ∈ out, ∃ entry ∈ entries, PlacedAt reserved untracked entry.path placed
  nodup : (out.map ProjectedMergeEntry.path).Nodup
  identities : (out.flatMap placedIdentities).Perm (entries.flatMap entryIdentities)

theorem PlacedAt.mono {placed : ProjectedMergeEntry Content}
    (h : PlacedAt reserved' untracked logicalPath placed)
    (hgrows : ∀ path, reserved.has path = true → reserved'.has path = true) :
    PlacedAt reserved untracked logicalPath placed := by
  obtain ⟨hlogical, hprimary, hmoved⟩ := h
  refine ⟨hlogical, hprimary, fun hne => ?_⟩
  obtain ⟨hbeside, hfree, huntracked⟩ := hmoved hne
  refine ⟨hbeside, ?_, huntracked⟩
  by_contra hhas
  rw [hgrows _ (Bool.eq_true_of_not_eq_false hhas)] at hfree
  cases hfree

/-- The paths of an entry are none of those that are projected behind it. -/
theorem PlacedAt.path_ne {first second : Text} {placed placed' : ProjectedMergeEntry Content}
    (h : PlacedAt reserved untracked first placed) (h' : PlacedAt reserved' untracked second placed')
    (hgrows : ∀ path, reserved.has path = true → reserved'.has path = true)
    (hfirst : reserved.has first = true) (hsecond : reserved.has second = true)
    (hreserves : placed.purpose ≠ .primary → reserved'.has placed.path = true)
    (hne : first ≠ second) : placed.path ≠ placed'.path := by
  obtain ⟨-, hprimary, hmoved⟩ := h
  obtain ⟨-, hprimary', hmoved'⟩ := h'
  intro heq
  by_cases hpurpose' : placed'.purpose = .primary
  · have hpath' := hprimary' hpurpose'
    by_cases hpurpose : placed.purpose = .primary
    · exact hne ((hprimary hpurpose).symm.trans (heq.trans hpath'))
    · have hfree := (hmoved hpurpose).2.1
      rw [heq, hpath', hsecond] at hfree
      cases hfree
  · have hfree := (hmoved' hpurpose').2.1
    rw [← heq] at hfree
    by_cases hpurpose : placed.purpose = .primary
    · rw [hprimary hpurpose, hgrows _ hfirst] at hfree
      cases hfree
    · rw [hreserves hpurpose] at hfree
      cases hfree

theorem projectFrom_placed (hplan : (entries.map IntegrationEntry.path).Nodup)
    (hreserved : ∀ entry ∈ entries, state.reserved.has entry.path = true)
    (hplanned : ∀ entry ∈ entries, Planned entry)
    (h : projectFrom options untracked state entries = .ok out) :
    PlanPlaced state.reserved untracked entries out := by
  induction entries generalizing state out with
  | nil =>
    obtain rfl : [] = out := Except.ok.inj h
    exact ⟨nofun, List.nodup_nil, List.Perm.nil⟩
  | cons entry entries ih =>
    rw [projectFrom, bind_eq_ok] at h
    obtain ⟨⟨placed, state'⟩, hentry, h⟩ := h
    dsimp only at h
    rw [bind_eq_ok] at h
    obtain ⟨rest, hrest, h⟩ := h
    cases h
    rw [List.map_cons, List.nodup_cons] at hplan
    obtain ⟨hpath, hpaths⟩ := hplan
    rw [List.forall_mem_cons] at hreserved hplanned
    have hplaced := projectEntry_placed hplanned.1 hentry
    obtain ⟨hplaces, hnodup, hidentities⟩ := ih hpaths
      (fun other hother => hplaced.grows _ (hreserved.2 other hother)) hplanned.2 hrest
    refine ⟨fun out hout => ?_, ?_, ?_⟩
    · rcases List.mem_append.1 hout with hout | hout
      · exact ⟨entry, List.mem_cons_self, hplaced.places out hout⟩
      · obtain ⟨other, hother, hat⟩ := hplaces out hout
        exact ⟨other, List.mem_cons_of_mem _ hother, hat.mono hplaced.grows⟩
    · rw [List.map_append, List.nodup_append]
      refine ⟨hplaced.nodup, hnodup, fun path hfirst path' hsecond => ?_⟩
      obtain ⟨out, hout, rfl⟩ := mem_map.1 hfirst
      obtain ⟨out', hout', rfl⟩ := mem_map.1 hsecond
      obtain ⟨other, hother, hat⟩ := hplaces out' hout'
      refine (hplaced.places out hout).path_ne hat hplaced.grows hreserved.1 (hreserved.2 other hother)
        (hplaced.reserves out hout) fun heq => hpath ?_
      rw [heq]
      exact List.mem_map_of_mem hother
    · rw [List.flatMap_append, List.flatMap_cons]
      exact hplaced.identities.append hidentities

/-- `projectMergePlanOwned` never refuses what it has projected: the paths differ. -/
theorem projectMergePlanOwned_eq {tracked : Text → Bool}
    (hplan : (entries.map IntegrationEntry.path).Nodup) (hplanned : ∀ entry ∈ entries, Planned entry) :
    projectMergePlanOwned entries options tracked untracked =
      projectEntries entries options (planReservations entries tracked) untracked := by
  unfold projectMergePlanOwned
  cases h : projectEntries entries options (planReservations entries tracked) untracked with
  | error error => rfl
  | ok out =>
    refine if_pos (projectFrom_placed hplan (fun entry hentry => ?_) hplanned h).nodup
    unfold MergeReservations.has planReservations
    rw [Bool.or_eq_true, List.contains_iff_mem]
    exact Or.inl (List.mem_map_of_mem hentry)

-- One conflict

/-- A file on one side and a directory on the other. -/
def fileBesideDirectory : List (IntegrationEntry Unit) :=
  [.conflict { path := text "a", conflict := .fileDirectory, resultMode := none, content := none
               stages := { base := none, current := some { mode := text "100644", oid := text "1" }
                           incoming := none } },
   .conflict { path := text "a/b", conflict := .fileDirectory, resultMode := none, content := none
               stages := { base := none, current := none
                           incoming := some { mode := text "100644", oid := text "2" } } }]

def branchLabels : MergeProjectionOptions :=
  { currentLabel := text "HEAD", incomingLabel := text "topic/x" }

/-- The name `a~HEAD` is tracked, so the file goes to `a~HEAD_0`. -/
def besideTracked : List (ProjectedMergeEntry Unit) :=
  [{ path := text "a~HEAD_0", logicalPath := text "a", purpose := .currentRelocation
     stageZero := none, worktree := some { mode := text "100644", oid := text "1" }, content := none
     stages := some { base := none, current := some { mode := text "100644", oid := text "1" }
                      incoming := none } },
   { path := text "a/b", logicalPath := text "a/b", purpose := .primary, content := none
     stageZero := some { mode := text "100644", oid := text "2" }, stages := none
     worktree := some { mode := text "100644", oid := text "2" } }]

theorem fileBesideDirectory_owned :
    projectMergePlanOwned fileBesideDirectory branchLabels (fun path => path = text "a~HEAD")
      (fun _ => false) = .ok besideTracked :=
  (projectMergePlanOwned_eq (by decide +kernel) (by decide +kernel)).trans (by decide +kernel)

/-- A conflict of two files. -/
def twoFiles : IntegrationEntry Unit :=
  .conflict { path := text "a", conflict := .addAdd, resultMode := none, content := none
              stages := { base := none, current := some { mode := text "100644", oid := text "1" }
                          incoming := some { mode := text "100644", oid := text "2" } } }

end Kompjutr.Projection
