/-
  Kompjutr.Pack.ReferencesSound

  The collector of references is a dictionary: from each id to the type that the pack holds and the
  types that references expect.

  `Shape` and `Inv` are the invariants of the table, `At` is what it says of a key.  `slotOf_spec`
  is what a lookup with all its growing does; the operations follow from it.
-/
import Kompjutr.Pack.ReferenceSlots

namespace Kompjutr.Pack

open Objects (Text ObjectType shown isOid)
open LinearProbe (Sound seek)

namespace PackReferenceCollector

/-- The key in a slot that is taken. -/
def slotKey (collector : PackReferenceCollector) (slot : Nat) : Option (List UInt32) :=
  if collector.states.getD slot 0 = 0 then none else some (keyAt collector.keys slot)

/-- Where the lookup of a key starts. -/
def home (salt : UInt32) (count : Nat) (key : List UInt32) : Nat :=
  (mixWords salt key 0).toNat % count

/-- The arrays go together, every key stands once, and its lookup reaches it. -/
structure Shape (collector : PackReferenceCollector) : Prop where
  power : ∃ bits, collector.states.length = 2 ^ bits
  mask : collector.mask = collector.states.length - 1
  keys : collector.keys.length = collector.states.length * OID_WORDS
  sound : Sound collector.states.length (home collector.salt collector.states.length)
    collector.slotKey

/-- The slots that are taken. -/
def taken (states : List UInt8) : Nat := states.countP (· ≠ 0)

/-- Between two operations the taken slots are counted, and a quarter of the slots is free. -/
structure Inv (collector : PackReferenceCollector) : Prop extends Shape collector where
  size : collector.size = taken collector.states
  load : collector.size * MAX_LOAD_DENOMINATOR ≤ collector.states.length * MAX_LOAD_NUMERATOR

/-- The table has the key, with the state. -/
def At (collector : PackReferenceCollector) (key : List UInt32) (state : UInt8) : Prop :=
  ∃ slot < collector.states.length, collector.slotKey slot = some key ∧
    collector.states.getD slot 0 = state

variable {collector : PackReferenceCollector}

theorem slotKey_eq_none {slot : Nat} :
    collector.slotKey slot = none ↔ collector.states.getD slot 0 = 0 := by
  unfold slotKey
  split
  · next h => exact ⟨fun _ => h, fun _ => rfl⟩
  · next h => exact ⟨fun hnone => (nomatch hnone), fun hzero => absurd hzero h⟩

variable {key : List UInt32}

theorem slotKey_eq_some {slot : Nat} : collector.slotKey slot = some key ↔
      collector.states.getD slot 0 ≠ 0 ∧ keyAt collector.keys slot = key := by
  unfold slotKey
  split
  · next h => exact ⟨fun hnone => (nomatch hnone), fun hsome => absurd h hsome.1⟩
  · next h => exact ⟨fun hsome => ⟨h, Option.some.inj hsome⟩, fun hsome => congrArg some hsome.2⟩

theorem At.length {state : UInt8}
    (hshape : Shape collector) (h : collector.At key state) : key.length = OID_WORDS := by
  obtain ⟨slot, hslot, hkey, -⟩ := h
  rw [← (slotKey_eq_some.1 hkey).2]
  exact length_keyAt hshape.keys hslot

/-- `& mask` is the remainder. -/
theorem Shape.and_mask (h : Shape collector) (n : Nat) :
    n &&& collector.mask = n % collector.states.length := by
  obtain ⟨bits, hbits⟩ := h.power
  rw [h.mask, hbits, Nat.and_two_pow_sub_one_eq_mod]

theorem Shape.pos (h : Shape collector) : 0 < collector.states.length := by
  obtain ⟨bits, hbits⟩ := h.power
  rw [hbits]
  exact Nat.two_pow_pos bits

theorem home_lt {count : Nat} (h : 0 < count) (salt : UInt32) (key : List UInt32) :
    home salt count key < count := Nat.mod_lt _ h

/-- A table that is not full has a free slot. -/
theorem exists_free {states : List UInt8} (h : taken states < states.length) :
    ∃ slot < states.length, states.getD slot 0 = 0 := by
  by_contra hnone
  push Not at hnone
  have hall : taken states = states.length := by
    rw [taken, List.countP_eq_length]
    intro state hstate
    obtain ⟨slot, hslot, rfl⟩ := List.getElem_of_mem hstate
    have hne := hnone slot hslot
    rw [List.getD_eq_getElem?_getD, List.getElem?_eq_getElem hslot] at hne
    exact decide_eq_true hne
  omega

theorem taken_set {states : List UInt8} {slot : Nat} {state : UInt8} (hslot : slot < states.length)
    (hstate : state ≠ 0) :
    taken (states.set slot state) =
      if states.getD slot 0 = 0 then taken states + 1 else taken states := by
  have hget : states.getD slot 0 = states[slot] := by
    rw [List.getD_eq_getElem?_getD, List.getElem?_eq_getElem hslot]
    rfl
  rw [hget, taken, taken, List.countP_set hslot, if_pos (decide_eq_true hstate)]
  by_cases hold : states[slot] = 0
  · rw [if_pos hold, if_neg (by simpa using hold), Nat.sub_zero]
  · have hpos : 0 < states.countP (· ≠ 0) :=
      List.countP_pos_iff.2 ⟨states[slot], List.getElem_mem hslot, decide_eq_true hold⟩
    rw [if_neg hold, if_pos (decide_eq_true hold)]
    omega

/-- A table with another key, where the lookup of the key ends. -/
theorem Shape.put {collector after : PackReferenceCollector} (h : Shape collector)
    {key : List UInt32} {distance slot : Nat} {state : UInt8} (hkey : key.length = OID_WORDS)
    (hstate : state ≠ 0)
    (hslot : (home collector.salt collector.states.length key + distance) %
      collector.states.length = slot)
    (hbefore : ∀ e < distance, collector.slotKey
      ((home collector.salt collector.states.length key + e) % collector.states.length) ≠ none)
    (habsent : ∀ p < collector.states.length, collector.slotKey p ≠ some key)
    (hfree : collector.slotKey slot = none)
    (hkeys : after.keys = setKey collector.keys slot key)
    (hstates : after.states = collector.states.set slot state)
    (hmask : after.mask = collector.mask) (hsalt : after.salt = collector.salt) :
    Shape after ∧ ∀ key' state',
      after.At key' state' ↔ if key' = key then state' = state else collector.At key' state' := by
  have hlt : slot < collector.states.length := hslot ▸ Nat.mod_lt _ h.pos
  have hlength : after.states.length = collector.states.length := by
    rw [hstates, List.length_set]
  have hself : after.slotKey slot = some key := by
    rw [slotKey_eq_some, hstates, getD_set, if_pos ⟨rfl, hlt⟩, hkeys]
    exact ⟨hstate, keyAt_setKey_self h.keys hlt hkey⟩
  have hother : ∀ p, p ≠ slot → after.states.getD p 0 = collector.states.getD p 0 ∧
      after.slotKey p = collector.slotKey p := by
    intro p hne
    have hget : after.states.getD p 0 = collector.states.getD p 0 := by
      rw [hstates, getD_set, if_neg fun hsame => hne hsame.1.symm]
    refine ⟨hget, ?_⟩
    unfold slotKey
    rw [hget, hkeys, keyAt_setKey_ne h.keys hlt hkey hne]
  constructor
  · refine ⟨hlength ▸ h.power, ?_, ?_, ?_⟩
    · rw [hmask, hlength, h.mask]
    · rw [hkeys, hlength, length_setKey h.keys hlt hkey]
    · rw [hlength, hsalt]
      refine h.sound.put hbefore habsent (hslot ▸ hfree) (hslot ▸ hself) fun p _ hne => ?_
      exact (hother p (hslot ▸ hne)).2
  · intro key' state'
    unfold At
    rw [hlength]
    split
    · next hsame =>
      subst hsame
      constructor
      · rintro ⟨p, hp, hpkey, rfl⟩
        by_cases hpslot : p = slot
        · rw [hpslot, hstates, getD_set, if_pos ⟨rfl, hlt⟩]
        · rw [(hother p hpslot).2] at hpkey
          exact absurd hpkey (habsent p hp)
      · rintro rfl
        exact ⟨slot, hlt, hself, by rw [hstates, getD_set, if_pos ⟨rfl, hlt⟩]⟩
    · next hne =>
      constructor
      · rintro ⟨p, hp, hpkey, rfl⟩
        have hpslot : p ≠ slot := by
          rintro rfl
          exact hne (Option.some.inj (hpkey.symm.trans hself))
        rw [(hother p hpslot).1]
        rw [(hother p hpslot).2] at hpkey
        exact ⟨p, hp, hpkey, rfl⟩
      · rintro ⟨p, hp, hpkey, rfl⟩
        have hpslot : p ≠ slot := by
          rintro rfl
          rw [hfree] at hpkey
          cases hpkey
        exact ⟨p, hp, (hother p hpslot).2.trans hpkey, (hother p hpslot).1⟩

/-- A table with another state for a key that it has. -/
theorem Shape.update {collector after : PackReferenceCollector} (h : Shape collector)
    {key : List UInt32} {slot : Nat} {state : UInt8} (hstate : state ≠ 0)
    (hlt : slot < collector.states.length) (hslot : collector.slotKey slot = some key)
    (hkeys : after.keys = collector.keys) (hstates : after.states = collector.states.set slot state)
    (hmask : after.mask = collector.mask) (hsalt : after.salt = collector.salt) :
    Shape after ∧ ∀ key' state',
      after.At key' state' ↔ if key' = key then state' = state else collector.At key' state' := by
  have hlength : after.states.length = collector.states.length := by
    rw [hstates, List.length_set]
  have hold := slotKey_eq_some.1 hslot
  have hself : after.states.getD slot 0 = state := by
    rw [hstates, getD_set, if_pos ⟨rfl, hlt⟩]
  have hother : ∀ p, p ≠ slot → after.states.getD p 0 = collector.states.getD p 0 := by
    intro p hne
    rw [hstates, getD_set, if_neg fun hsame => hne hsame.1.symm]
  have hslots : after.slotKey = collector.slotKey := by
    funext p
    unfold slotKey
    by_cases hpslot : p = slot
    · rw [hpslot, hself, if_neg hstate, if_neg hold.1, hkeys]
    · rw [hother p hpslot, hkeys]
  constructor
  · refine ⟨hlength ▸ h.power, ?_, ?_, ?_⟩
    · rw [hmask, hlength, h.mask]
    · rw [hkeys, hlength, h.keys]
    · rw [hlength, hsalt, hslots]
      exact h.sound
  · intro key' state'
    unfold At
    rw [hlength, hslots]
    split
    · next hsame =>
      subst hsame
      constructor
      · rintro ⟨p, hp, hpkey, rfl⟩
        rw [h.sound.once hp hlt hpkey hslot, hself]
      · rintro rfl
        exact ⟨slot, hlt, hslot, hself⟩
    · next hne =>
      refine exists_congr fun p => and_congr_right fun _ => and_congr_right fun hpkey => ?_
      have hpslot : p ≠ slot := by
        rintro rfl
        exact hne (Option.some.inj (hpkey.symm.trans hslot))
      rw [hother p hpslot]

-- Lookups

theorem freeSlot_eq {states : List UInt8} {mask : Nat}
    (hmask : ∀ n, n &&& mask = n % states.length) (fuel slot visited : Nat) :
    freeSlot states mask fuel slot =
      (seek states.length (fun p => states.getD p 0 = 0) fuel slot visited).map Prod.fst := by
  induction fuel generalizing slot visited with
  | zero => rfl
  | succ fuel ih =>
    rw [freeSlot, seek]
    by_cases hzero : states.getD slot 0 = 0
    · rw [if_neg (not_not.2 hzero), if_pos (decide_eq_true hzero)]
      rfl
    · rw [if_pos hzero, if_neg (by simpa using hzero), hmask, ih]

/-- What `probeFrom` makes of the slot where the lookup ends. -/
def settle (collector : PackReferenceCollector) (probe : List UInt32) (slot visited : Nat) :
    Nat × PackReferenceCollector :=
  if collector.states.getD slot 0 = 0 then
    (slot, { collector with
      keys := setKey collector.keys slot probe
      size := collector.size + 1
      longestProbe := max collector.longestProbe visited })
  else (slot, { collector with longestProbe := max collector.longestProbe visited })

theorem probeFrom_eq (h : Shape collector) (probe : List UInt32) (fuel slot visited : Nat) :
    collector.probeFrom probe fuel slot visited =
      (seek collector.states.length
        (fun p => collector.states.getD p 0 = 0 || hasKey collector.keys p probe)
        fuel slot visited).map fun found => collector.settle probe found.1 found.2 := by
  induction fuel generalizing slot visited with
  | zero => rfl
  | succ fuel ih =>
    rw [probeFrom, seek]
    by_cases hzero : collector.states.getD slot 0 = 0
    · rw [if_pos hzero, if_pos (by rw [decide_eq_true hzero]; rfl), Option.map_some, settle,
        if_pos hzero]
    · rw [if_neg hzero, decide_eq_false hzero, Bool.false_or]
      by_cases hkey : hasKey collector.keys slot probe = true
      · rw [if_pos hkey, if_pos hkey, Option.map_some, settle, if_neg hzero]
      · rw [if_neg hkey, if_neg hkey, h.and_mask, ih]

/-- A lookup ends, at the key or at a free slot when the key is nowhere. -/
theorem probeFrom_settles (h : Shape collector)
    (hfree : taken collector.states < collector.states.length)
    (hkey : key.length = OID_WORDS) :
    ∃ distance slot, (home collector.salt collector.states.length key + distance) %
        collector.states.length = slot ∧
      (∀ e < distance, collector.slotKey
        ((home collector.salt collector.states.length key + e) % collector.states.length) ≠ none) ∧
      (collector.slotKey slot = some key ∨
        collector.slotKey slot = none ∧
          ∀ p < collector.states.length, collector.slotKey p ≠ some key) ∧
      ∀ fuel, collector.states.length ≤ fuel →
        collector.probeFrom key fuel
          ((mixWords collector.salt key 0).toNat &&& collector.mask) 1 =
            some (collector.settle key slot (1 + distance)) := by
  have hhome := home_lt h.pos collector.salt key
  have hfits : ∀ p < collector.states.length,
      (decide (collector.states.getD p 0 = 0) || hasKey collector.keys p key) = true ↔
        collector.slotKey p = none ∨ collector.slotKey p = some key := by
    intro p hp
    rw [Bool.or_eq_true, decide_eq_true_eq, hasKey_iff h.keys hp hkey, slotKey_eq_none,
      slotKey_eq_some]
    by_cases hzero : collector.states.getD p 0 = 0
    · exact ⟨fun _ => Or.inl hzero, fun _ => Or.inl hzero⟩
    · exact or_congr_right ⟨fun hsame => ⟨hzero, hsame⟩, And.right⟩
  obtain ⟨free, hlt, hzero⟩ := exists_free hfree
  obtain ⟨distance, -, hend, hbefore, hseek⟩ := @LinearProbe.seek_settles _
    (fun p => collector.states.getD p 0 = 0 || hasKey collector.keys p key) _ hhome
    ⟨free, hlt, (hfits free hlt).2 (Or.inl (slotKey_eq_none.2 hzero))⟩
  have hpassed : ∀ e < distance,
      ¬ (collector.slotKey ((home collector.salt collector.states.length key + e) %
          collector.states.length) = none ∨
        collector.slotKey ((home collector.salt collector.states.length key + e) %
          collector.states.length) = some key) := by
    intro e he hor
    have hno := hbefore e he
    rw [(hfits _ (Nat.mod_lt _ h.pos)).2 hor] at hno
    cases hno
  refine ⟨distance, _, rfl, fun e he hnone => hpassed e he (Or.inl hnone), ?_, ?_⟩
  · rcases (hfits _ (Nat.mod_lt _ h.pos)).1 hend with hnone | hsome
    · exact Or.inr ⟨hnone, fun p hp => h.sound.absent hnone
        (fun e he hsame => hpassed e he (Or.inr hsame)) hp⟩
    · exact Or.inl hsome
  · intro fuel hfuel
    rw [probeFrom_eq h, h.and_mask, ← home, hseek fuel 1 hfuel, Option.map_some]

-- Growing

/-- The table that `#grow` has filled from the first `count` slots of the one before. -/
structure Grown (before after : PackReferenceCollector) (count : Nat) : Prop
    extends Shape after where
  length : after.states.length = before.states.length * 2
  salt : after.salt = before.salt
  size : after.size = before.size
  moved : taken after.states = taken (before.states.take count)
  at_iff : ∀ key state, after.At key state ↔
    ∃ p < count, before.slotKey p = some key ∧ before.states.getD p 0 = state

theorem taken_replicate (count : Nat) : taken (List.replicate count 0) = 0 := by
  rw [taken, List.countP_eq_zero]
  intro state hstate
  rw [List.eq_of_mem_replicate hstate]
  decide

theorem getD_replicate (count slot : Nat) : (List.replicate count (0 : UInt8)).getD slot 0 = 0 := by
  rw [List.getD_eq_getElem?_getD, List.getElem?_replicate]
  split <;> rfl

/-- A table with free slots only. -/
theorem Shape.free {collector : PackReferenceCollector} {count : Nat}
    (hpower : ∃ bits, count = 2 ^ bits) (hmask : collector.mask = count - 1)
    (hkeys : collector.keys.length = count * OID_WORDS)
    (hstates : collector.states = List.replicate count 0) :
    Shape collector ∧ ∀ key state, ¬ collector.At key state := by
  have hslots : collector.slotKey = fun _ => none := by
    funext p
    rw [slotKey_eq_none, hstates, getD_replicate]
  have hlength : collector.states.length = count := by rw [hstates, List.length_replicate]
  refine ⟨⟨hlength ▸ hpower, hlength ▸ hmask, hlength ▸ hkeys, ?_⟩, ?_⟩
  · rw [hslots]
    exact Sound.empty _ _
  · rintro key state ⟨p, -, hkey, -⟩
    rw [hslots] at hkey
    cases hkey

theorem Grown.step {before after : PackReferenceCollector} {count : Nat} (hbefore : Shape before)
    (h : Grown before after count) (hcount : count < before.states.length) :
    ∃ next, (∀ fuel, before.states.length * 2 ≤ fuel →
        moveSlot fuel before after count = some next) ∧ Grown before next (count + 1) := by
  have htake : before.states.take (count + 1) =
      before.states.take count ++ [before.states.getD count 0] := by
    rw [List.take_add_one, List.getD_eq_getElem?_getD, List.getElem?_eq_getElem hcount]
    rfl
  by_cases hzero : before.states.getD count 0 = 0
  · refine ⟨after, fun fuel _ => ?_, h.toShape, h.length, h.salt, h.size, ?_, ?_⟩
    · rw [moveSlot]
      exact if_pos hzero
    · rw [h.moved, htake, hzero, taken, taken, List.countP_append]
      rfl
    · intro key state
      rw [h.at_iff]
      constructor
      · rintro ⟨p, hp, hkey⟩
        exact ⟨p, by omega, hkey⟩
      · rintro ⟨p, hp, hkey, hstate⟩
        have hne : p ≠ count := by
          rintro rfl
          exact (slotKey_eq_some.1 hkey).1 hzero
        exact ⟨p, by omega, hkey, hstate⟩
  · have hkey : before.slotKey count = some (keyAt before.keys count) :=
      slotKey_eq_some.2 ⟨hzero, rfl⟩
    have hlength : (keyAt before.keys count).length = OID_WORDS := length_keyAt hbefore.keys hcount
    have hroom : taken after.states < after.states.length := by
      have hle : taken (before.states.take count) ≤ (before.states.take count).length :=
        List.countP_le_length
      rw [List.length_take] at hle
      rw [h.moved, h.length]
      omega
    have hhome := home_lt h.pos after.salt (keyAt before.keys count)
    obtain ⟨distance, -, hend, hpassed, hseek⟩ := @LinearProbe.seek_settles _
      (fun p => after.states.getD p 0 = 0) _ hhome
      (by simpa only [decide_eq_true_eq] using exists_free hroom)
    have hfree := of_decide_eq_true hend
    generalize hslot : (home after.salt after.states.length (keyAt before.keys count) + distance) %
      after.states.length = slot at hfree hseek
    have hlt : slot < after.states.length := hslot ▸ Nat.mod_lt _ h.pos
    have habsent : ∀ p < after.states.length,
        after.slotKey p ≠ some (keyAt before.keys count) := by
      intro p hp hsame
      obtain ⟨q, hq, hother, -⟩ := (h.at_iff _ _).1 ⟨p, hp, hsame, rfl⟩
      have := hbefore.sound.once (by omega) hcount hother hkey
      omega
    have hput := @Shape.put _ { after with
        keys := setKey after.keys slot (keyAt before.keys count)
        states := after.states.set slot (before.states.getD count 0) } h.toShape _ _ _ _
      hlength hzero hslot (fun e he hnone => of_decide_eq_false (hpassed e he)
        (slotKey_eq_none.1 hnone)) habsent (slotKey_eq_none.2 hfree) rfl rfl rfl rfl
    refine ⟨_, fun fuel hfuel => ?_, hput.1, ?_, h.salt, h.size, ?_, ?_⟩
    · rw [moveSlot]
      dsimp only
      rw [if_neg hzero, mixWords_keyAt, h.toShape.and_mask, ← home,
        freeSlot_eq h.toShape.and_mask _ _ 0, hseek fuel 0 (by rw [h.length]; exact hfuel)]
      rfl
    · dsimp only
      rw [List.length_set, h.length]
    · dsimp only
      rw [taken_set hlt hzero, if_pos hfree, h.moved, htake, taken, taken, List.countP_append,
        List.countP_singleton, if_pos (decide_eq_true hzero)]
    · intro key state
      rw [hput.2, h.at_iff]
      constructor
      · split
        · next hsame =>
          rintro rfl
          exact ⟨count, by omega, hsame ▸ hkey, rfl⟩
        · rintro ⟨p, hp, hother⟩
          exact ⟨p, by omega, hother⟩
      · rintro ⟨p, hp, hother, hstate⟩
        by_cases hpcount : p = count
        · subst hpcount
          rw [if_pos (Option.some.inj (hother.symm.trans hkey)), hstate]
        · have hne : key ≠ keyAt before.keys count := by
            rintro rfl
            exact hpcount (hbefore.sound.once (by omega) hcount hother hkey)
          rw [if_neg hne]
          exact ⟨p, by omega, hother, hstate⟩

/-- `#grow` keeps what the table says. -/
theorem grow_spec (h : Shape collector) :
    ∃ after, (∀ fuel, collector.states.length * 2 ≤ fuel → grow fuel collector = some after) ∧
      Grown collector after collector.states.length := by
  obtain ⟨bits, hbits⟩ := h.power
  have hfirst := @Shape.free { collector with
      keys := List.replicate (collector.states.length * 2 * OID_WORDS) 0
      states := List.replicate (collector.states.length * 2) 0
      mask := collector.states.length * 2 - 1 } _
    ⟨bits + 1, by rw [hbits, Nat.pow_succ]⟩ rfl List.length_replicate rfl
  have hrun : ∀ count ≤ collector.states.length, ∃ after,
      (∀ fuel, collector.states.length * 2 ≤ fuel →
        (List.range count).foldlM (moveSlot fuel collector)
          { collector with
            keys := List.replicate (collector.states.length * 2 * OID_WORDS) 0
            states := List.replicate (collector.states.length * 2) 0
            mask := collector.states.length * 2 - 1 } = some after) ∧
      Grown collector after count := by
    intro count hcount
    induction count with
    | zero =>
      refine ⟨_, fun _ _ => rfl, hfirst.1, List.length_replicate, rfl, rfl, ?_, fun key state => ?_⟩
      · exact taken_replicate _
      · exact iff_of_false (hfirst.2 key state) fun ⟨p, hp, _⟩ => Nat.not_lt_zero p hp
    | succ count ih =>
      obtain ⟨after, hfold, hgrown⟩ := ih (by omega)
      obtain ⟨next, hmove, hnext⟩ := hgrown.step h hcount
      refine ⟨next, fun fuel hfuel => ?_, hnext⟩
      rw [List.range_succ, List.foldlM_append, hfold fuel hfuel]
      show (moveSlot fuel collector after count).bind _ = _
      rw [hmove fuel hfuel]
      rfl
  exact hrun _ (le_refl _)

theorem Grown.at_eq {before after : PackReferenceCollector}
    (h : Grown before after before.states.length) (key : List UInt32) (state : UInt8) :
    after.At key state ↔ before.At key state := h.at_iff key state

-- Operations

/-- What `#slotOf` has done, whatever the table was: the slot has the state of the key, and with
    another state in it the table has that for the key, and what it had for the others. -/
structure Settled (before after : PackReferenceCollector) (key : List UInt32) (slot : Nat) :
    Prop where
  state : before.At key (after.states.getD slot 0) ∨
    after.states.getD slot 0 = 0 ∧ ∀ state, ¬ before.At key state
  store : ∀ state ≠ 0,
    Inv { after with states := after.states.set slot state } ∧
    ∀ key' state', At { after with states := after.states.set slot state } key' state' ↔
      if key' = key then state' = state else before.At key' state'

/-- The lookup in a table that has room for another key. -/
theorem probeFrom_spec (h : Shape collector) (hsize : collector.size = taken collector.states)
    (hload : (collector.size + 1) * MAX_LOAD_DENOMINATOR ≤
      collector.states.length * MAX_LOAD_NUMERATOR)
    (hkey : key.length = OID_WORDS) :
    ∃ slot after, (∀ fuel, collector.states.length ≤ fuel →
        collector.probeFrom key fuel
          ((mixWords collector.salt key 0).toNat &&& collector.mask) 1 = some (slot, after)) ∧
      Settled collector after key slot := by
  simp only [MAX_LOAD_NUMERATOR, MAX_LOAD_DENOMINATOR] at hload
  obtain ⟨distance, slot, hslot, hpassed, hend, hprobe⟩ :=
    probeFrom_settles h (by omega) hkey
  have hlt : slot < collector.states.length := hslot ▸ Nat.mod_lt _ h.pos
  rw [settle] at hprobe
  rcases hend with hsome | ⟨hnone, habsent⟩
  · have hold := slotKey_eq_some.1 hsome
    rw [if_neg hold.1] at hprobe
    refine ⟨_, _, hprobe, Or.inl ⟨slot, hlt, hsome, rfl⟩, fun state hstate => ?_⟩
    have hupdate := @Shape.update _ { collector with
        longestProbe := max collector.longestProbe (1 + distance)
        states := collector.states.set slot state } h _ _ _ hstate hlt hsome rfl rfl rfl rfl
    refine ⟨⟨hupdate.1, ?_, ?_⟩, hupdate.2⟩
    · dsimp only
      rw [taken_set hlt hstate, if_neg hold.1, hsize]
    · dsimp only [MAX_LOAD_NUMERATOR, MAX_LOAD_DENOMINATOR]
      rw [List.length_set]
      omega
  · have hzero := slotKey_eq_none.1 hnone
    rw [if_pos hzero] at hprobe
    refine ⟨_, _, hprobe, Or.inr ⟨hzero, ?_⟩, fun state hstate => ?_⟩
    · rintro state ⟨p, hp, hsame, -⟩
      exact habsent p hp hsame
    · have hput := @Shape.put _ { collector with
          keys := setKey collector.keys slot key
          size := collector.size + 1
          longestProbe := max collector.longestProbe (1 + distance)
          states := collector.states.set slot state } h _ _ _ _ hkey hstate hslot hpassed habsent
        hnone rfl rfl rfl rfl
      refine ⟨⟨hput.1, ?_, ?_⟩, hput.2⟩
      · dsimp only
        rw [taken_set hlt hstate, if_pos hzero, hsize]
      · dsimp only [MAX_LOAD_NUMERATOR, MAX_LOAD_DENOMINATOR]
        rw [List.length_set]
        omega

theorem slotOf_spec (h : Inv collector) (hkey : key.length = OID_WORDS) :
    ∃ slot after, (∀ fuel, collector.states.length * 2 ≤ fuel →
        slotOf fuel collector key = some (slot, after)) ∧ Settled collector after key slot := by
  have hload := h.load
  have hpos := h.toShape.pos
  simp only [MAX_LOAD_NUMERATOR, MAX_LOAD_DENOMINATOR] at hload
  by_cases hgrow : (collector.size + 1) * MAX_LOAD_DENOMINATOR >
      collector.states.length * MAX_LOAD_NUMERATOR
  · obtain ⟨grown, hgrown, hsame⟩ := grow_spec h.toShape
    obtain ⟨slot, after, hprobe, hsettled⟩ := probeFrom_spec hsame.toShape
      (by rw [hsame.size, h.size, hsame.moved, List.take_length])
      (by
        rw [hsame.size, hsame.length]
        simp only [MAX_LOAD_NUMERATOR, MAX_LOAD_DENOMINATOR]
        omega) hkey
    refine ⟨slot, after, fun fuel hfuel => ?_, ?_, fun state hstate => ?_⟩
    · rw [slotOf, if_pos hgrow, hgrown fuel hfuel, Option.bind_some]
      exact hprobe fuel (by rw [hsame.length]; exact hfuel)
    · simpa only [hsame.at_eq] using hsettled.state
    · simpa only [hsame.at_eq] using hsettled.store state hstate
  · obtain ⟨slot, after, hprobe, hsettled⟩ :=
      probeFrom_spec h.toShape h.size (not_lt.1 hgrow) hkey
    refine ⟨slot, after, fun fuel hfuel => ?_, hsettled⟩
    rw [slotOf, if_neg hgrow, Option.bind_some]
    exact hprobe fuel (by omega)

end PackReferenceCollector

end Kompjutr.Pack
