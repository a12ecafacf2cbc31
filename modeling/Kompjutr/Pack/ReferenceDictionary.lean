/-
  Kompjutr.Pack.ReferenceDictionary

  The collector of references against a plain dictionary from ids to what is known of them: a
  sequence of operations ends, fails where the dictionary says that two types are held, and leaves a
  table with the contents of the dictionary (`collector_refines`).
-/
import Kompjutr.Pack.ReferencesSound

namespace Kompjutr.Pack

open Objects (Text text ObjectType shown isOid)
open PackReferenceCollector
open Fuel (forM_ok forM_eq_ok)

variable {oid : Text} {after : PackReferenceCollector} {key : List UInt32}

variable {collector : PackReferenceCollector} {slot : Nat}

/-- What callers do with a collector. -/
inductive Collect where
  /-- `addObject`. -/
  | hold (oid : Text) (type : ObjectType)
  /-- `#expect`, for the ids in commits and tags. -/
  | expect (oid : Text) (type : ObjectType)
  /-- The sink of the tree scanner, which has an id as words. -/
  | expectWords (words : List UInt32) (type : ObjectType)
  deriving DecidableEq

/-- Callers pass parsed ids. -/
def Collect.Valid : Collect → Prop
  | .hold oid _ => isOid oid = true
  | .expect oid _ => isOid oid = true
  | .expectWords words _ => words.length = OID_WORDS

def perform (fuel : Nat) (collector : PackReferenceCollector) :
    Collect → Option (Except GitError PackReferenceCollector)
  | .hold oid type => collector.addObject fuel oid type
  | .expect oid type => (collector.expect fuel (oidWords oid) type).map .ok
  | .expectWords words type => (collector.expect fuel words type).map .ok

def performAll (fuel : Nat) :
    List Collect → PackReferenceCollector → Option (Except GitError PackReferenceCollector)
  | [], collector => some (.ok collector)
  | operation :: rest, collector =>
    match perform fuel collector operation with
    | none => none
    | some (.error e) => some (.error e)
    | some (.ok collector) => performAll fuel rest collector

-- The dictionary

abbrev Dictionary := Text → Entry

namespace Dictionary

def hold (dictionary : Dictionary) (oid : Text) (type : ObjectType) :
    Except GitError Dictionary :=
  match (dictionary oid).held with
  | none => .ok (Function.update dictionary oid { dictionary oid with held := some type })
  | some held =>
    if held = type then .ok dictionary
    else .error (corrupt s!"pack holds {shown oid} as two object types")

def expect (dictionary : Dictionary) (oid : Text) (type : ObjectType) : Dictionary :=
  Function.update dictionary oid
    { dictionary oid with expected := insert type (dictionary oid).expected }

def step (dictionary : Dictionary) : Collect → Except GitError Dictionary
  | .hold oid type => dictionary.hold oid type
  | .expect oid type => .ok (dictionary.expect oid type)
  | .expectWords words type => .ok (dictionary.expect (oidText words) type)

def collectAll : List Collect → Dictionary → Except GitError Dictionary
  | [], dictionary => .ok dictionary
  | operation :: rest, dictionary =>
    match dictionary.step operation with
    | .error e => .error e
    | .ok dictionary => collectAll rest dictionary

end Dictionary

-- What a table says

/-- The entry that a state stands for. -/
def decodeState (state : UInt8) : Entry where
  held := codeType (state &&& TYPE_MASK)
  expected := (expectedTypes state).toFinset

theorem decodeState_encodeEntry (entry : Entry) : decodeState (encodeEntry entry) = entry := by
  have hall : ∀ (held : Option ObjectType) (expected : Finset ObjectType),
      decodeState (encodeEntry ⟨held, expected⟩) = ⟨held, expected⟩ := by decide +kernel
  exact hall entry.held entry.expected

/-- What a collector has of an id. -/
def contents (collector : PackReferenceCollector) (oid : Text) : Entry :=
  ((List.range collector.states.length).find? fun slot =>
    collector.states.getD slot 0 ≠ 0 && collector.oidAt slot = oid).elim Entry.empty fun slot =>
      decodeState (collector.states.getD slot 0)

/-- A collector says what a dictionary says, and has no id twice. -/
structure Represents (collector : PackReferenceCollector) (dictionary : Dictionary) : Prop where
  same : ∀ oid, contents collector oid = dictionary oid
  once : ∀ slot < collector.states.length, ∀ other < collector.states.length,
    collector.states.getD slot 0 ≠ 0 → collector.states.getD other 0 ≠ 0 →
      collector.oidAt slot = collector.oidAt other → slot = other

theorem oidAt_eq (h : Shape collector) (hslot : slot < collector.states.length) :
    collector.oidAt slot = oidText (keyAt collector.keys slot) := by
  have hwords : (List.range OID_WORDS).map (fun word =>
      collector.keys.getD (slot * OID_WORDS + word) 0) = keyAt collector.keys slot := by
    have hlength := length_keyAt h.keys hslot
    refine List.ext_getElem? fun word => ?_
    by_cases hword : word < OID_WORDS
    · have hbound : slot * OID_WORDS + word < collector.keys.length := by
        rw [h.keys]
        simp only [OID_WORDS] at hword ⊢
        omega
      rw [getElem?_keyAt _ _ hword, List.getElem?_map, List.getElem?_range hword,
        Option.map_some, List.getD_eq_getElem?_getD, List.getElem?_eq_getElem hbound]
      rfl
    · rw [List.getElem?_eq_none (by rw [List.length_map, List.length_range]; omega),
        List.getElem?_eq_none (by omega)]
  rw [oidText, ← hwords, List.flatMap_map, oidAt]

/-- The invariant of a run: the table is in order, and has for each key what the dictionary has for
    its id. -/
structure Tracks (collector : PackReferenceCollector) (dictionary : Dictionary) : Prop
    extends Inv collector where
  at_iff : ∀ key, key.length = OID_WORDS → ∀ state,
    collector.At key state ↔ state ≠ 0 ∧ encodeEntry (dictionary (oidText key)) = state
  ids : ∀ oid, dictionary oid ≠ Entry.empty → ∃ key, key.length = OID_WORDS ∧ oidText key = oid

variable {dictionary : Dictionary}

section

variable (h : Tracks collector dictionary)

include h

theorem Tracks.slot_eq (hslot : slot < collector.states.length)
    (htaken : collector.states.getD slot 0 ≠ 0) :
    collector.states.getD slot 0 = encodeEntry (dictionary (collector.oidAt slot)) := by
  have hat : collector.At (keyAt collector.keys slot) (collector.states.getD slot 0) :=
    ⟨slot, hslot, slotKey_eq_some.2 ⟨htaken, rfl⟩, rfl⟩
  have hsame := ((h.at_iff _ (hat.length h.toShape) _).1 hat).2
  rw [oidAt_eq h.toShape hslot, hsame]

theorem Tracks.exists_slot (hoid : dictionary oid ≠ Entry.empty) :
    ∃ slot < collector.states.length, collector.states.getD slot 0 ≠ 0 ∧
      collector.oidAt slot = oid := by
  obtain ⟨key, hkey, rfl⟩ := h.ids oid hoid
  have hstate : encodeEntry (dictionary (oidText key)) ≠ 0 := fun hzero =>
    hoid ((encodeEntry_eq_zero _).1 hzero)
  obtain ⟨slot, hslot, hsame, -⟩ := (h.at_iff key hkey _).2 ⟨hstate, rfl⟩
  have hsame := slotKey_eq_some.1 hsame
  exact ⟨slot, hslot, hsame.1, by rw [oidAt_eq h.toShape hslot, hsame.2]⟩

theorem Tracks.represents : Represents collector dictionary := by
  constructor
  · intro oid
    unfold contents
    cases hfound : (List.range collector.states.length).find? fun slot =>
        collector.states.getD slot 0 ≠ 0 && collector.oidAt slot = oid with
    | none =>
      rw [List.find?_eq_none] at hfound
      by_contra hne
      obtain ⟨slot, hslot, htaken, hsame⟩ := h.exists_slot (Ne.symm hne)
      refine hfound slot (List.mem_range.2 hslot) ?_
      rw [decide_eq_true htaken, decide_eq_true hsame]
      rfl
    | some slot =>
      have hslot := List.mem_range.1 (List.mem_of_find?_eq_some hfound)
      have hfits := List.find?_some hfound
      rw [Bool.and_eq_true, decide_eq_true_eq, decide_eq_true_eq] at hfits
      show decodeState (collector.states.getD slot 0) = _
      rw [h.slot_eq hslot hfits.1, hfits.2, decodeState_encodeEntry]
  · intro slot hslot other hother htaken htaken' hsame
    rw [oidAt_eq h.toShape hslot, oidAt_eq h.toShape hother] at hsame
    exact h.sound.once hslot hother (slotKey_eq_some.2 ⟨htaken, rfl⟩)
      (slotKey_eq_some.2 ⟨htaken', (oidText_inj hsame).symm⟩)

-- Runs

/-- A lookup finds the state of the entry, that of the empty one when there is none. -/
theorem Tracks.state_eq (hkey : key.length = OID_WORDS)
    (hsettled : Settled collector after key slot) :
    after.states.getD slot 0 = encodeEntry (dictionary (oidText key)) := by
  rcases hsettled.state with hat | ⟨hzero, hnone⟩
  · exact ((h.at_iff key hkey _).1 hat).2.symm
  · rw [hzero]
    by_contra hne
    exact hnone _ ((h.at_iff key hkey _).2 ⟨Ne.symm hne, rfl⟩)

/-- An entry that is stored after a lookup. -/
theorem Tracks.store (hkey : key.length = OID_WORDS)
    (hsettled : Settled collector after key slot) {entry : Entry}
    (hentry : entry ≠ Entry.empty) :
    Tracks { after with states := after.states.set slot (encodeEntry entry) }
      (Function.update dictionary (oidText key) entry) := by
  have hstate : encodeEntry entry ≠ 0 := fun hzero => hentry ((encodeEntry_eq_zero _).1 hzero)
  obtain ⟨hinv, hat⟩ := hsettled.store _ hstate
  refine ⟨hinv, fun key' hkey' state' => ?_, fun oid hoid => ?_⟩
  · rw [hat]
    by_cases hsame : key' = key
    · subst hsame
      rw [if_pos rfl, Function.update_self]
      constructor
      · rintro rfl
        exact ⟨hstate, rfl⟩
      · rintro ⟨-, rfl⟩
        rfl
    · rw [if_neg hsame, Function.update_of_ne fun htext => hsame (oidText_inj htext)]
      exact h.at_iff key' hkey' state'
  · by_cases hsame : oid = oidText key
    · exact ⟨key, hkey, hsame.symm⟩
    · rw [Function.update_of_ne hsame] at hoid
      exact h.ids oid hoid

theorem Tracks.expect {words : List UInt32} (hwords : words.length = OID_WORDS)
    (type : ObjectType) :
    ∃ after, (∀ fuel, collector.states.length * 2 ≤ fuel →
        collector.expect fuel words type = some after) ∧
      Tracks after (dictionary.expect (oidText words) type) := by
  obtain ⟨slot, after, hslot, hsettled⟩ := slotOf_spec h.toInv hwords
  have hentry : { dictionary (oidText words) with
      expected := insert type (dictionary (oidText words)).expected } ≠ Entry.empty := fun hempty =>
    Finset.insert_ne_empty _ _ (congrArg Entry.expected hempty)
  refine ⟨_, fun fuel hfuel => ?_, h.store hwords hsettled hentry⟩
  rw [PackReferenceCollector.expect, hslot fuel hfuel, Option.map_some]
  dsimp only
  rw [h.state_eq hwords hsettled, encodeEntry_expect]

theorem Tracks.hold (hoid : isOid oid = true) (type : ObjectType) :
    match dictionary.hold oid type with
    | .error e => ∀ fuel, collector.states.length * 2 ≤ fuel →
        collector.addObject fuel oid type = some (.error e)
    | .ok dictionary => ∃ after, (∀ fuel, collector.states.length * 2 ≤ fuel →
        collector.addObject fuel oid type = some (.ok after)) ∧ Tracks after dictionary := by
  have hlength := length_oidWords oid
  obtain ⟨slot, after, hslot, hsettled⟩ := slotOf_spec h.toInv hlength
  have hstate := h.state_eq hlength hsettled
  have hentry : { dictionary oid with held := some type } ≠ Entry.empty := fun hempty =>
    nomatch congrArg Entry.held hempty
  have hstored := h.store hlength hsettled hentry
  rw [oidText_oidWords hoid] at hstate hstored
  have hadd : ∀ fuel, collector.states.length * 2 ≤ fuel → collector.addObject fuel oid type =
      some (if ∃ held, (dictionary oid).held = some held ∧ held ≠ type then
          .error (corrupt s!"pack holds {shown oid} as two object types")
        else .ok { after with
          states := after.states.set slot (encodeEntry (dictionary oid) ||| typeCode type) }) := by
    intro fuel hfuel
    rw [addObject, hslot fuel hfuel, Option.map_some]
    dsimp only
    rw [hstate]
    exact congrArg some (if_congr (encodeEntry_held _ _) rfl rfl)
  unfold Dictionary.hold
  cases hheld : (dictionary oid).held with
  | none =>
    refine ⟨_, fun fuel hfuel => ?_, hstored⟩
    rw [hadd fuel hfuel, if_neg fun ⟨held, hsome, _⟩ => (nomatch hheld.symm.trans hsome),
      encodeEntry_hold (Or.inl hheld)]
  | some held =>
    dsimp only
    by_cases hsame : held = type
    · subst hsame
      have hentry : { dictionary oid with held := some held } = dictionary oid := by rw [← hheld]
      rw [if_pos rfl]
      rw [hentry, Function.update_eq_self] at hstored
      refine ⟨_, fun fuel hfuel => ?_, hstored⟩
      have hno : ¬ ∃ other, (dictionary oid).held = some other ∧ other ≠ held := by
        rintro ⟨other, hsome, hne⟩
        exact hne (Option.some.inj (hsome.symm.trans hheld))
      rw [hadd fuel hfuel, if_neg hno, encodeEntry_hold (Or.inr hheld), hentry]
    · rw [if_neg hsame]
      intro fuel hfuel
      rw [hadd fuel hfuel, if_pos ⟨held, hheld, hsame⟩]

theorem Tracks.collect {operation : Collect} (hvalid : operation.Valid) :
    match dictionary.step operation with
    | .error e => ∀ fuel, collector.states.length * 2 ≤ fuel →
        perform fuel collector operation = some (.error e)
    | .ok dictionary => ∃ after, (∀ fuel, collector.states.length * 2 ≤ fuel →
        perform fuel collector operation = some (.ok after)) ∧ Tracks after dictionary := by
  cases operation with
  | hold oid type => exact h.hold hvalid type
  | expect oid type =>
    obtain ⟨after, hexpect, htracks⟩ := h.expect (length_oidWords oid) type
    rw [oidText_oidWords hvalid] at htracks
    exact ⟨after, fun fuel hfuel => by rw [perform, hexpect fuel hfuel]; rfl, htracks⟩
  | expectWords words type =>
    obtain ⟨after, hexpect, htracks⟩ := h.expect hvalid type
    exact ⟨after, fun fuel hfuel => by rw [perform, hexpect fuel hfuel]; rfl, htracks⟩

end

theorem Tracks.collectAll {collector : PackReferenceCollector} {dictionary : Dictionary}
    (h : Tracks collector dictionary) {operations : List Collect}
    (hvalid : ∀ operation ∈ operations, operation.Valid) :
    ∃ limit, match Dictionary.collectAll operations dictionary with
      | .error e => ∀ fuel, limit ≤ fuel →
          performAll fuel operations collector = some (.error e)
      | .ok dictionary => ∃ after, (∀ fuel, limit ≤ fuel →
          performAll fuel operations collector = some (.ok after)) ∧
            Tracks after dictionary := by
  induction operations generalizing collector dictionary with
  | nil => exact ⟨0, collector, fun _ _ => rfl, h⟩
  | cons operation rest ih =>
    rw [List.forall_mem_cons] at hvalid
    have hstep := h.collect hvalid.1
    rw [Dictionary.collectAll]
    cases hresult : dictionary.step operation with
    | error e =>
      rw [hresult] at hstep
      refine ⟨collector.states.length * 2, fun fuel hfuel => ?_⟩
      rw [performAll, hstep fuel hfuel]
    | ok next =>
      rw [hresult] at hstep
      obtain ⟨after, hcollect, hnext⟩ := hstep
      obtain ⟨limit, hrest⟩ := ih hnext hvalid.2
      refine ⟨max (collector.states.length * 2) limit, ?_⟩
      dsimp only
      have hrun : ∀ fuel, max (collector.states.length * 2) limit ≤ fuel →
          performAll fuel (operation :: rest) collector =
            performAll fuel rest after := by
        intro fuel hfuel
        rw [performAll, hcollect fuel (le_trans (le_max_left _ _) hfuel)]
      cases hend : Dictionary.collectAll rest next with
      | error e =>
        rw [hend] at hrest
        intro fuel hfuel
        rw [hrun fuel hfuel, hrest fuel (le_trans (le_max_right _ _) hfuel)]
      | ok last =>
        rw [hend] at hrest
        obtain ⟨final, hfinal, htracks⟩ := hrest
        refine ⟨final, fun fuel hfuel => ?_, htracks⟩
        rw [hrun fuel hfuel, hfinal fuel (le_trans (le_max_right _ _) hfuel)]

theorem exists_pow_doubleUntil (entries capacity : Nat) (h : ∃ bits, capacity = 2 ^ bits) :
    ∃ bits, doubleUntil entries capacity = 2 ^ bits := by
  fun_induction doubleUntil entries capacity with
  | case1 =>
    obtain ⟨bits, hzero⟩ := h
    exact absurd hzero.symm (Nat.two_pow_pos bits).ne'
  | case2 capacity _ _ ih =>
    obtain ⟨bits, rfl⟩ := h
    exact ih ⟨bits + 1, (Nat.pow_succ 2 bits).symm⟩
  | case3 => exact h

theorem tracks_new (salt : UInt32) (objectCount : Nat) :
    Tracks (new salt objectCount) fun _ => Entry.empty := by
  obtain ⟨hshape, hnone⟩ := @Shape.free (new salt objectCount) _
    (exists_pow_doubleUntil objectCount MIN_CAPACITY ⟨4, rfl⟩) rfl List.length_replicate rfl
  refine ⟨⟨hshape, (taken_replicate _).symm, ?_⟩, fun key _ state => ?_, fun oid hoid => ?_⟩
  · show 0 * MAX_LOAD_DENOMINATOR ≤ _
    rw [Nat.zero_mul]
    exact Nat.zero_le _
  · refine iff_of_false (hnone key state) ?_
    rintro ⟨hne, hzero⟩
    exact hne (hzero.symm.trans ((encodeEntry_eq_zero _).2 rfl))
  · exact absurd rfl hoid

theorem Tracks.requireTypes (h : Tracks collector dictionary) :
    (∃ e, collector.requireTypes = .error e) ↔ ∃ oid, (dictionary oid).Conflict := by
  have hslot : ∀ slot < collector.states.length,
      (∃ e, collector.requireSlot slot = .error e) ↔
        collector.states.getD slot 0 ≠ 0 ∧ (dictionary (collector.oidAt slot)).Conflict := by
    intro slot hslot
    have hsplit : (∃ e, collector.requireSlot slot = .error e) ↔
        collector.states.getD slot 0 >>> 3 ≠ 0 ∧
          conflicting (collector.states.getD slot 0) ≠ 0 := by
      unfold requireSlot
      dsimp only
      split
      · next hzero => exact iff_of_false (fun ⟨_, he⟩ => nomatch he) fun hne => hne.1 hzero
      · next hne =>
        split
        · next hconflict => exact iff_of_true ⟨_, rfl⟩ ⟨hne, hconflict⟩
        · next hnone => exact iff_of_false (fun ⟨_, he⟩ => nomatch he) fun hsome => hnone hsome.2
    rw [hsplit]
    by_cases hzero : collector.states.getD slot 0 = 0
    · rw [hzero]
      exact iff_of_false (fun hne => hne.1 rfl) fun hne => hne.1 rfl
    · rw [h.slot_eq hslot hzero, conflicting_encodeEntry]
      exact (and_iff_right fun hempty => hzero ((h.slot_eq hslot hzero).trans hempty)).symm
  constructor
  · rintro ⟨e, he⟩
    by_contra hnone
    have hall : ∀ slot ∈ List.range collector.states.length,
        collector.requireSlot slot = .ok () := by
      intro slot hmem
      cases hcheck : collector.requireSlot slot with
      | ok _ => rfl
      | error e => exact absurd ⟨_, ((hslot slot (List.mem_range.1 hmem)).1 ⟨e, hcheck⟩).2⟩ hnone
    rw [PackReferenceCollector.requireTypes, forM_eq_ok hall] at he
    cases he
  · rintro ⟨oid, hconflict⟩
    have hoid : dictionary oid ≠ Entry.empty := by
      intro hempty
      rw [hempty] at hconflict
      obtain ⟨type, htype, -⟩ := hconflict
      exact Finset.notMem_empty type htype
    obtain ⟨slot, hlt, htaken, rfl⟩ := h.exists_slot hoid
    obtain ⟨e, he⟩ := (hslot slot hlt).2 ⟨htaken, hconflict⟩
    cases hcheck : collector.requireTypes with
    | ok _ =>
      have hok := forM_ok hcheck (List.mem_range.2 hlt)
      rw [he] at hok
      cases hok
    | error e => exact ⟨e, rfl⟩

/-- The collector is a dictionary.  Whatever the salt and the size it starts with, and whenever it
    grows: a sequence of operations ends; it fails when one type is held after another; otherwise
    the table has the contents of the dictionary, each id once, and `requireTypes` fails exactly
    when the types of some id conflict. -/
theorem collector_refines (salt : UInt32) (objectCount : Nat) (operations : List Collect)
    (hvalid : ∀ operation ∈ operations, operation.Valid) :
    ∃ limit, match Dictionary.collectAll operations fun _ => Entry.empty with
      | .error e => ∀ fuel, limit ≤ fuel →
          performAll fuel operations (new salt objectCount) = some (.error e)
      | .ok dictionary => ∃ after, (∀ fuel, limit ≤ fuel →
          performAll fuel operations (new salt objectCount) = some (.ok after)) ∧
            Represents after dictionary ∧
            ((∃ e, after.requireTypes = .error e) ↔ ∃ oid, (dictionary oid).Conflict) := by
  obtain ⟨limit, hrun⟩ := (tracks_new salt objectCount).collectAll hvalid
  refine ⟨limit, ?_⟩
  cases hend : Dictionary.collectAll operations fun _ => Entry.empty with
  | error e =>
    rw [hend] at hrun
    exact hrun
  | ok dictionary =>
    rw [hend] at hrun
    obtain ⟨after, hcollect, htracks⟩ := hrun
    exact ⟨after, hcollect, htracks.represents, htracks.requireTypes⟩

/-- The id of forty letters `a`, held and expected as a blob. -/
theorem oneBlob_collected :
    ∃ limit, match Dictionary.collectAll
        [.hold (List.replicate 40 97) .blob, .expect (List.replicate 40 97) .blob]
          fun _ => Entry.empty with
      | .error e => ∀ fuel, limit ≤ fuel → performAll fuel
          [.hold (List.replicate 40 97) .blob, .expect (List.replicate 40 97) .blob] (new 7 1) =
            some (.error e)
      | .ok dictionary => ∃ after, (∀ fuel, limit ≤ fuel → performAll fuel
          [.hold (List.replicate 40 97) .blob, .expect (List.replicate 40 97) .blob] (new 7 1) =
            some (.ok after)) ∧ Represents after dictionary ∧
            ((∃ e, after.requireTypes = .error e) ↔ ∃ oid, (dictionary oid).Conflict) :=
  collector_refines 7 1
    [.hold (List.replicate 40 97) .blob, .expect (List.replicate 40 97) .blob]
    (by
      intro operation hoperation
      rcases List.mem_cons.1 hoperation with rfl | hoperation
      · show isOid _ = true
        decide
      · rw [List.mem_singleton.1 hoperation]
        show isOid _ = true
        decide)

/-- An id that no object of the pack has, expected as a tree and as a blob: no type is held, and
    `requireTypes` fails. -/
theorem unheld_conflict :
    ∃ limit after, (∀ fuel, limit ≤ fuel → performAll fuel
        [.expect (List.replicate 40 97) .tree, .expect (List.replicate 40 97) .blob] (new 7 1) =
          some (.ok after)) ∧
      (∃ e, after.requireTypes = .error e) ∧
      ¬ ∃ oid held, (contents after oid).held = some held ∧
        ∃ type ∈ (contents after oid).expected, type ≠ held := by
  obtain ⟨limit, after, hcollect, htracks⟩ := @Tracks.collectAll _ _ (tracks_new 7 1)
    [.expect (List.replicate 40 97) .tree, .expect (List.replicate 40 97) .blob]
    (by
      intro operation hoperation
      rcases List.mem_cons.1 hoperation with rfl | hoperation
      · show isOid _ = true
        decide
      · rw [List.mem_singleton.1 hoperation]
        show isOid _ = true
        decide)
  have hunheld : ∀ oid, (Dictionary.expect (Dictionary.expect (fun _ => Entry.empty)
      (List.replicate 40 97) .tree) (List.replicate 40 97) .blob oid).held = none := by
    intro oid
    unfold Dictionary.expect
    by_cases hsame : oid = List.replicate 40 97
    · rw [hsame, Function.update_self]
      dsimp only
      rw [Function.update_self]
      rfl
    · rw [Function.update_of_ne hsame, Function.update_of_ne hsame]
      rfl
  refine ⟨limit, after, hcollect, htracks.requireTypes.2 ⟨List.replicate 40 97, ?_⟩, ?_⟩
  · unfold Entry.Conflict
    rw [hunheld]
    refine ⟨.tree, ?_, .blob, ?_, by decide⟩
    · unfold Dictionary.expect
      simp
    · unfold Dictionary.expect
      simp
  · rintro ⟨oid, held, hheld, -⟩
    rw [htracks.represents.same, hunheld] at hheld
    cases hheld

end Kompjutr.Pack
