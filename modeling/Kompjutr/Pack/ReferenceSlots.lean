/-
  Kompjutr.Pack.ReferenceSlots

  The slots of the collector of references: what a state says of an id, and the words that stand
  for it.
-/
import Kompjutr.Objects.TreeRoundTrip
import Kompjutr.Pack.References
import Mathlib.Data.Fintype.Option
import Mathlib.Data.Fintype.Powerset

namespace Kompjutr.Pack

open Objects (Text ObjectType shown isOid)
open Bytes (hexUnit)
open PackReferenceCollector
open List (length_append length_drop length_map length_take map_append mem_range)

variable {oid : Text} {word : Nat}

variable {digits : List Nat} {keys words : List UInt32} {count slot : Nat}

instance : Fintype ObjectType where
  elems := {.commit, .tree, .blob, .tag}
  complete := by
    intro type
    cases type <;> decide

-- The state of a slot

/-- What is known of an id. -/
structure Entry where
  held : Option ObjectType
  expected : Finset ObjectType
  deriving DecidableEq

def Entry.empty : Entry where
  held := none
  expected := ∅

/-- The types that are known do not go with one another: two that are expected, or one that is
    expected and another that is held. -/
def Entry.Conflict (entry : Entry) : Prop :=
  match entry.held with
  | some held => ∃ type ∈ entry.expected, type ≠ held
  | none => ∃ type ∈ entry.expected, ∃ other ∈ entry.expected, type ≠ other

/-- The state of a slot with the entry. -/
def encodeEntry (entry : Entry) : UInt8 :=
  (entry.held.elim 0 typeCode) |||
    (OBJECT_TYPES.foldl (fun state type =>
      if type ∈ entry.expected then state ||| expectedBit type else state) 0)

instance : DecidablePred Entry.Conflict := fun entry => by
  unfold Entry.Conflict
  cases entry.held with
  | none => infer_instance
  | some held => infer_instance

theorem encodeEntry_eq_zero (entry : Entry) : encodeEntry entry = 0 ↔ entry = Entry.empty := by
  have hall : ∀ (held : Option ObjectType) (expected : Finset ObjectType),
      encodeEntry ⟨held, expected⟩ = 0 ↔ held = none ∧ expected = ∅ := by decide +kernel
  obtain ⟨held, expected⟩ := entry
  rw [hall, Entry.empty, Entry.mk.injEq]

theorem encodeEntry_hold {entry : Entry} {type : ObjectType}
    (h : entry.held = none ∨ entry.held = some type) :
    encodeEntry entry ||| typeCode type = encodeEntry { entry with held := some type } := by
  have hall : ∀ (held : Option ObjectType) (expected : Finset ObjectType) (type : ObjectType),
      held = none ∨ held = some type →
        encodeEntry ⟨held, expected⟩ ||| typeCode type = encodeEntry ⟨some type, expected⟩ := by
    decide +kernel
  exact hall entry.held entry.expected type h

theorem encodeEntry_held (entry : Entry) (type : ObjectType) :
    (encodeEntry entry &&& TYPE_MASK ≠ 0 ∧ encodeEntry entry &&& TYPE_MASK ≠ typeCode type) ↔
      ∃ held, entry.held = some held ∧ held ≠ type := by
  have hall : ∀ (held : Option ObjectType) (expected : Finset ObjectType) (type : ObjectType),
      (encodeEntry ⟨held, expected⟩ &&& TYPE_MASK ≠ 0 ∧
        encodeEntry ⟨held, expected⟩ &&& TYPE_MASK ≠ typeCode type) ↔
          ∃ other, held = some other ∧ other ≠ type := by
    decide +kernel
  exact hall entry.held entry.expected type

theorem encodeEntry_expect (entry : Entry) (type : ObjectType) :
    encodeEntry entry ||| expectedBit type =
      encodeEntry { entry with expected := insert type entry.expected } := by
  have hall : ∀ (held : Option ObjectType) (expected : Finset ObjectType) (type : ObjectType),
      encodeEntry ⟨held, expected⟩ ||| expectedBit type =
        encodeEntry ⟨held, insert type expected⟩ := by
    decide +kernel
  exact hall entry.held entry.expected type

theorem conflicting_encodeEntry (entry : Entry) :
    (encodeEntry entry >>> 3 ≠ 0 ∧
      PackReferenceCollector.conflicting (encodeEntry entry) ≠ 0) ↔ entry.Conflict := by
  have hall : ∀ (held : Option ObjectType) (expected : Finset ObjectType),
      (encodeEntry ⟨held, expected⟩ >>> 3 ≠ 0 ∧
        PackReferenceCollector.conflicting (encodeEntry ⟨held, expected⟩) ≠ 0) ↔
          Entry.Conflict ⟨held, expected⟩ := by
    decide +kernel
  exact hall entry.held entry.expected

-- Ids and their words

/-- The number that hexadecimal digits stand for. -/
def hexNat (digits : List Nat) : Nat := digits.foldl (fun value digit => value * 16 + digit) 0

theorem hexNat_concat (digits : List Nat) (digit : Nat) :
    hexNat (digits ++ [digit]) = hexNat digits * 16 + digit := by
  rw [hexNat, List.foldl_append]
  rfl

/-- The lowest `count` digits of a number. -/
def digitsOf (count value : Nat) : List Nat :=
  (List.range count).map fun i => value / 16 ^ (count - 1 - i) % 16

theorem digitsOf_succ (count value : Nat) :
    digitsOf (count + 1) value = digitsOf count (value / 16) ++ [value % 16] := by
  have hlast : value / 16 ^ (count + 1 - 1 - count) % 16 = value % 16 := by
    rw [Nat.add_sub_cancel, Nat.sub_self, Nat.pow_zero, Nat.div_one]
  rw [digitsOf, digitsOf, List.range_succ, map_append, List.map_singleton, hlast]
  refine congrArg (· ++ [value % 16]) (List.map_congr_left fun i hi => ?_)
  have hi := mem_range.1 hi
  rw [Nat.div_div_eq_div_mul, ← Nat.pow_succ',
    show count + 1 - 1 - i = (count - 1 - i).succ by omega]

theorem hexNat_digitsOf (count value : Nat) :
    hexNat (digitsOf count value) = value % 16 ^ count := by
  induction count generalizing value with
  | zero => rw [Nat.pow_zero, Nat.mod_one]; rfl
  | succ count ih => rw [digitsOf_succ, hexNat_concat, ih, Nat.pow_succ', Nat.mod_mul]; omega

theorem digitsOf_hexNat (h : ∀ digit ∈ digits, digit < 16) :
    digitsOf digits.length (hexNat digits) = digits := by
  induction digits using List.reverseRecOn with
  | nil => rfl
  | append_singleton digits digit ih =>
    rw [List.forall_mem_append, List.forall_mem_singleton] at h
    rw [length_append, List.length_singleton, digitsOf_succ, hexNat_concat,
      show (hexNat digits * 16 + digit) / 16 = hexNat digits by omega, ih h.1,
      show (hexNat digits * 16 + digit) % 16 = digit by omega]

theorem hexNat_lt (h : ∀ digit ∈ digits, digit < 16) : hexNat digits < 16 ^ digits.length := by
  induction digits using List.reverseRecOn with
  | nil => exact Nat.one_pos
  | append_singleton digits digit ih =>
    rw [List.forall_mem_append, List.forall_mem_singleton] at h
    have hlt := ih h.1
    rw [length_append, List.length_singleton, hexNat_concat, Nat.pow_succ]
    omega

theorem wordHex_eq (value : UInt32) : wordHex value = (digitsOf 8 value.toNat).map hexUnit := by
  rw [wordHex, digitsOf, List.map_map]
  rfl

theorem map_hexUnit_inj {left right : List Nat} (hleft : ∀ digit ∈ left, digit < 16)
    (hright : ∀ digit ∈ right, digit < 16) (h : left.map hexUnit = right.map hexUnit) :
    left = right := by
  induction left generalizing right with
  | nil => exact (List.map_eq_nil_iff.1 h.symm).symm
  | cons digit left ih =>
    cases right with
    | nil => cases h
    | cons other right =>
      rw [List.forall_mem_cons] at hleft hright
      obtain ⟨hdigit, hrest⟩ := List.cons.inj h
      rw [Bytes.hexUnit_inj hleft.1 hright.1 hdigit, ih hleft.2 hright.2 hrest]

theorem digitsOf_lt (count value : Nat) : ∀ digit ∈ digitsOf count value, digit < 16 := by
  intro digit hdigit
  obtain ⟨i, -, rfl⟩ := List.mem_map.1 hdigit
  exact Nat.mod_lt _ (by decide)

theorem wordHex_inj {left right : UInt32} (h : wordHex left = wordHex right) : left = right := by
  rw [wordHex_eq, wordHex_eq] at h
  have hdigits : digitsOf 8 left.toNat = digitsOf 8 right.toNat :=
    map_hexUnit_inj (digitsOf_lt 8 _) (digitsOf_lt 8 _) h
  have hsame := congrArg hexNat hdigits
  have hleft := left.toNat_lt
  have hright := right.toNat_lt
  rw [hexNat_digitsOf, hexNat_digitsOf] at hsame
  exact UInt32.toNat_inj.1 (by omega)

/-- The id whose words these are. -/
def oidText (words : List UInt32) : Text := words.flatMap wordHex

theorem length_wordHex (value : UInt32) : (wordHex value).length = 8 := by
  rw [wordHex, length_map, List.length_range]

theorem oidText_inj {left right : List UInt32} (h : oidText left = oidText right) :
    left = right := by
  have hnil : ∀ {word : UInt32} {rest : List UInt32}, oidText (word :: rest) ≠ [] := by
    intro word rest hempty
    have hword := (List.append_eq_nil_iff.1 hempty).1
    have hlength := length_wordHex word
    rw [hword] at hlength
    cases hlength
  induction left generalizing right with
  | nil =>
    cases right with
    | nil => rfl
    | cons word right => exact absurd h.symm hnil
  | cons word left ih =>
    cases right with
    | nil => exact absurd h hnil
    | cons other right =>
      rw [oidText, oidText, List.flatMap_cons, List.flatMap_cons] at h
      obtain ⟨hword, hrest⟩ := List.append_inj h (by rw [length_wordHex, length_wordHex])
      rw [wordHex_inj hword, ih hrest]

/-- Eight digits as `hexWord` reads them. -/
theorem toNat_foldl_hexWord (h : ∀ digit ∈ digits, digit < 16) (hlength : digits.length ≤ 8) :
    ((digits.map hexUnit).foldl (fun (value : UInt32) code =>
      value <<< 4 ||| (if code ≤ 0x39 then code.toUInt32 - 0x30 else code.toUInt32 - 0x57))
        0).toNat = hexNat digits := by
  have hdigit : ∀ digit : Fin 16, (if hexUnit digit ≤ 0x39 then (hexUnit digit).toUInt32 - 0x30
      else (hexUnit digit).toUInt32 - 0x57).toNat = digit := by decide +kernel
  induction digits using List.reverseRecOn with
  | nil => rfl
  | append_singleton digits digit ih =>
    rw [List.forall_mem_append, List.forall_mem_singleton] at h
    rw [length_append, List.length_singleton] at hlength
    have hvalue := ih h.1 (by omega)
    have hlt : hexNat digits < 16 ^ 7 :=
      lt_of_lt_of_le (hexNat_lt h.1) (Nat.pow_le_pow_right (by decide) (by omega))
    have hnew := hdigit ⟨digit, h.2⟩
    dsimp only at hnew
    rw [map_append, List.foldl_append, List.map_singleton, List.foldl_cons, List.foldl_nil,
      UInt32.toNat_or, UInt32.toNat_shiftLeft, hvalue, hnew, hexNat_concat]
    show hexNat digits <<< 4 % 2 ^ 32 ||| digit = _
    have hshift : hexNat digits <<< 4 % 2 ^ 32 = hexNat digits <<< 4 := by
      rw [Nat.shiftLeft_eq]
      omega
    have hsmall : digit < 2 ^ 4 := h.2
    rw [hshift, ← Nat.shiftLeft_add_eq_or_of_lt hsmall, Nat.shiftLeft_eq]

theorem wordHex_hexWord (h : isOid oid = true) (hword : word < 5) :
    wordHex (hexWord oid word) = (oid.drop (word * 8)).take 8 := by
  obtain ⟨hlength, digits, hdigits, rfl⟩ := Objects.exists_digits h
  rw [length_map] at hlength
  have hpart : ∀ digit ∈ (digits.drop (word * 8)).take 8, digit < 16 := fun digit hdigit =>
    hdigits digit (List.mem_of_mem_drop (List.mem_of_mem_take hdigit))
  have height : ((digits.drop (word * 8)).take 8).length = 8 := by
    rw [length_take, length_drop]
    omega
  have hback := digitsOf_hexNat hpart
  rw [height] at hback
  rw [wordHex_eq, hexWord, ← List.map_drop, ← List.map_take,
    toNat_foldl_hexWord hpart (le_of_eq height), hback]

/-- An id is spelled from its words. -/
theorem oidText_oidWords (h : isOid oid = true) : oidText (oidWords oid) = oid := by
  have hpieces : ∀ count, count ≤ 5 →
      ((List.range count).map (hexWord oid)).flatMap wordHex = oid.take (count * 8) := by
    intro count hcount
    induction count with
    | zero => rw [Nat.zero_mul, List.take_zero]; rfl
    | succ count ih =>
      rw [List.range_succ, map_append, List.flatMap_append, ih (by omega), List.map_singleton,
        List.flatMap_singleton, wordHex_hexWord h (by omega), Nat.succ_mul, List.take_add]
  have hlength := (Objects.exists_digits h).1
  rw [oidText, oidWords, OID_WORDS, hpieces 5 (le_refl 5), List.take_of_length_le (by omega)]

theorem length_oidWords (oid : Text) : (oidWords oid).length = OID_WORDS := by
  rw [oidWords, length_map, List.length_range]

-- The arrays of the table

/-- The words in a slot. -/
def keyAt (keys : List UInt32) (slot : Nat) : List UInt32 :=
  (keys.drop (slot * OID_WORDS)).take OID_WORDS

theorem length_keyAt (hkeys : keys.length = count * OID_WORDS) (hslot : slot < count) :
    (keyAt keys slot).length = OID_WORDS := by
  rw [keyAt, length_take, length_drop, hkeys]
  simp only [OID_WORDS]
  omega

theorem getElem?_keyAt (keys : List UInt32) (slot : Nat) (h : word < OID_WORDS) :
    (keyAt keys slot)[word]? = keys[slot * OID_WORDS + word]? := by
  rw [keyAt, List.getElem?_take_of_lt h, List.getElem?_drop]

theorem hasKey_iff {probe : List UInt32}
    (hkeys : keys.length = count * OID_WORDS) (hslot : slot < count)
    (hprobe : probe.length = OID_WORDS) : hasKey keys slot probe = true ↔
      keyAt keys slot = probe := by
  have hlength := length_keyAt hkeys hslot
  unfold hasKey
  rw [List.all_eq_true]
  constructor
  · intro hall
    refine List.ext_getElem? fun word => ?_
    by_cases hword : word < OID_WORDS
    · have hsame := hall word (mem_range.2 hword)
      rw [getElem?_keyAt keys slot hword]
      exact of_decide_eq_true hsame
    · rw [List.getElem?_eq_none (by omega), List.getElem?_eq_none (by omega)]
  · rintro rfl word hword
    rw [getElem?_keyAt keys slot (mem_range.1 hword)]
    exact decide_eq_true rfl

theorem mixWords_keyAt (salt : UInt32) (keys : List UInt32) (slot : Nat) :
    mixWords salt keys (slot * OID_WORDS) = mixWords salt (keyAt keys slot) 0 := by
  have hword : ∀ word ∈ List.range OID_WORDS,
      keys.getD (slot * OID_WORDS + word) 0 = (keyAt keys slot).getD (0 + word) 0 := by
    intro word hword
    rw [List.getD_eq_getElem?_getD, List.getD_eq_getElem?_getD, Nat.zero_add,
      getElem?_keyAt keys slot (mem_range.1 hword)]
  unfold mixWords
  rw [List.foldl_ext _ _ salt fun hash word h => by rw [hword word h]]

section

variable (hkeys : keys.length = count * OID_WORDS) (hslot : slot < count)
  (hwords : words.length = OID_WORDS)

include hkeys hslot hwords

theorem length_setKey : (setKey keys slot words).length = count * OID_WORDS := by
  rw [setKey, length_append, length_append, length_take, length_drop, hkeys,
    hwords]
  simp only [OID_WORDS]
  omega

theorem keyAt_setKey_self : keyAt (setKey keys slot words) slot = words := by
  have hfront : (keys.take (slot * OID_WORDS)).length = slot * OID_WORDS := by
    rw [length_take, hkeys]
    exact Nat.min_eq_left (Nat.mul_le_mul_right _ (le_of_lt hslot))
  rw [keyAt, setKey, List.append_assoc, List.drop_append_of_le_length (le_of_eq hfront.symm),
    List.drop_of_length_le (le_of_eq hfront), List.nil_append,
    List.take_append_of_le_length (le_of_eq hwords.symm), List.take_of_length_le (le_of_eq hwords)]

end

theorem keyAt_setKey_ne {other : Nat}
    (hkeys : keys.length = count * OID_WORDS) (hslot : slot < count)
    (hwords : words.length = OID_WORDS) (hne : other ≠ slot) :
    keyAt (setKey keys slot words) other = keyAt keys other := by
  have hfront : (keys.take (slot * OID_WORDS)).length = slot * OID_WORDS := by
    rw [length_take, hkeys]
    exact Nat.min_eq_left (Nat.mul_le_mul_right _ (le_of_lt hslot))
  refine List.ext_getElem? fun word => ?_
  by_cases hword : word < OID_WORDS
  · rw [getElem?_keyAt _ other hword, getElem?_keyAt _ other hword, setKey, List.append_assoc]
    by_cases hless : other < slot
    · have hbelow : other * OID_WORDS + word < slot * OID_WORDS := by
        simp only [OID_WORDS] at hword ⊢
        omega
      rw [List.getElem?_append_left (by omega), List.getElem?_take_of_lt hbelow]
    · have habove : slot * OID_WORDS + OID_WORDS ≤ other * OID_WORDS + word := by
        simp only [OID_WORDS] at hword ⊢
        omega
      rw [List.getElem?_append_right (by omega), hfront, List.getElem?_append_right (by omega),
        List.getElem?_drop, hwords]
      refine congrArg (fun i => keys[i]?) ?_
      omega
  · have hlong : ∀ keys : List UInt32, (keyAt keys other)[word]? = none := by
      intro keys
      refine List.getElem?_eq_none ?_
      rw [keyAt, length_take]
      omega
    rw [hlong, hlong]

theorem getD_set (states : List UInt8) (slot other : Nat) (state : UInt8) :
    (states.set slot state).getD other 0 =
      if slot = other ∧ slot < states.length then state else states.getD other 0 := by
  grind [List.getD_eq_getElem?_getD]

end Kompjutr.Pack
