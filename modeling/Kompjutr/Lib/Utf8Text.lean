/-
  Kompjutr.Lib.Utf8Text

  What a decoder answers is well-formed text, and a well-formed text comes back from its
  encoding, less a byte order mark at its start.
-/
import Kompjutr.Lib.Utf8Encode

namespace Kompjutr.Utf8

variable {d : Decoder} {t : List UInt16}

-- Decoded text

/-- The states in which whatever completes the sequence is a scalar value. -/
def Decoder.Sound (d : Decoder) : Prop :=
  d.needed = 0 ∨ (0x80 ≤ d.lower ∧ d.upper ≤ 0xbf ∧
    ((d.needed = 1 ∧ (d.point < 0x360 ∨ (0x380 ≤ d.point ∧ d.point < 0x4400))) ∨
      (d.needed = 2 ∧ (d.point ≤ 0xc ∨ (d.point = 0xd ∧ d.upper ≤ 0x9f) ∨
        (0xe ≤ d.point ∧ d.point < 0x110))) ∨
      (d.needed = 3 ∧ (0x90 ≤ d.lower ∨ 1 ≤ d.point) ∧
        (d.point ≤ 3 ∨ (d.point = 4 ∧ d.upper ≤ 0x8f)))))

theorem start_sound : start.Sound := .inl rfl

theorem first_sound (b : UInt8) : (first b).2.Sound := by
  unfold first
  simp only [UInt8.lt_iff_toNat_lt, UInt8.le_iff_toNat_le, ← UInt8.toNat_inj, UInt8.reduceToNat]
  split_ifs <;> dsimp only [Decoder.Sound, start] <;> omega

theorem step_sound (hd : d.Sound) (b : UInt8) : (step d b).2.Sound := by
  unfold step
  split_ifs with h1 h2 h3
  · exact first_sound b
  · exact first_sound b
  · exact start_sound
  · simp only [Decoder.Sound] at hd ⊢
    omega

/-- Units that stand for a run of scalar values. -/
def Whole (t : List UInt16) : Prop :=
  ∃ list : List Nat, (∀ point ∈ list, Scalar point) ∧ t = list.flatMap unitsOf

theorem Whole.nil : Whole [] := ⟨[], nofun, rfl⟩

theorem Whole.append {left right : List UInt16} (hleft : Whole left) (hright : Whole right) :
    Whole (left ++ right) := by
  obtain ⟨list, hlist, rfl⟩ := hleft
  obtain ⟨list', hlist', rfl⟩ := hright
  refine ⟨list ++ list', fun point h => ?_, List.flatMap_append.symm⟩
  rcases List.mem_append.1 h with h | h
  · exact hlist point h
  · exact hlist' point h

theorem Whole.unitsOf {point : Nat} (h : Scalar point) : Whole (unitsOf point) :=
  ⟨[point], fun other hother => by rw [List.mem_singleton.1 hother]; exact h,
    (List.flatMap_singleton ..).symm⟩

theorem Whole.replacement : Whole [0xfffd] := by
  have hscalar : Scalar 0xfffd := .inr ⟨by omega, by omega⟩
  exact Whole.unitsOf hscalar

theorem Whole.wellFormed (h : Whole t) : WellFormed t := by
  obtain ⟨list, hlist, rfl⟩ := h
  have hpoints : points (list.flatMap Utf8.unitsOf) = list := by
    induction list with
    | nil => rfl
    | cons point list ih =>
      rw [List.flatMap_cons, points_unitsOf (hlist point List.mem_cons_self),
        ih fun p hp => hlist p (List.mem_cons_of_mem _ hp)]
  rw [WellFormed, toWellFormed, hpoints]

theorem whole_first (b : UInt8) : Whole (first b).1 := by
  unfold first
  split
  · next hascii =>
    have hlt : b.toNat < 0x80 := by simpa [UInt8.lt_iff_toNat_lt] using hascii
    have hunit : [b.toUInt16] = unitsOf b.toNat := by
      rw [← UInt8.toNat_toUInt16, unitsOf_toNat]
    rw [hunit]
    exact Whole.unitsOf (.inl (by omega))
  -- the first byte of a longer sequence, or one that begins none
  · split
    · exact Whole.nil
    · split
      · exact Whole.nil
      · split
        · exact Whole.nil
        · exact Whole.replacement

theorem whole_step (hd : d.Sound) (b : UInt8) : Whole (step d b).1 := by
  unfold step
  split_ifs with h1 h2 h3
  · exact whole_first b
  · exact Whole.append Whole.replacement (whole_first b)
  · refine Whole.unitsOf ?_
    simp only [Decoder.Sound] at hd
    unfold Scalar
    omega
  · exact Whole.nil

theorem whole_decodeFrom (hd : d.Sound) (bytes : List UInt8) : Whole (decodeFrom d bytes) := by
  induction bytes generalizing d with
  | nil =>
    unfold decodeFrom flush
    split_ifs
    · exact Whole.nil
    · exact Whole.replacement
  | cons b bytes ih => exact Whole.append (whole_step hd b) (ih (step_sound hd b))

theorem wellFormed_textDecode (bytes : List UInt8) : WellFormed (textDecode bytes) :=
  (whole_decodeFrom start_sound _).wellFormed

-- The byte order mark

theorem decode_byteOrderMark (rest : List UInt8) :
    decode (byteOrderMark ++ rest) = 0xfeff :: decode rest := rfl

theorem encode_mark (t : List UInt16) : encode (0xfeff :: t) = byteOrderMark ++ encode t := by
  have hpoints := points_cut [] t (u := 0xfeff) (by decide)
  rw [List.nil_append] at hpoints
  rw [encode, hpoints]
  rfl

/-- Only a text that starts with the mark has an encoding that does. -/
theorem byteOrderMark_encode (h : WellFormed t) :
    byteOrderMark.isPrefixOf (encode t) = true ↔ t.head? = some 0xfeff := by
  rw [List.isPrefixOf_iff_prefix]
  constructor
  · rintro ⟨rest, hrest⟩
    have hdecode : decode (encode t) = t := by rw [decode_encode, h]
    rw [← hrest, decode_byteOrderMark] at hdecode
    rw [← hdecode]
    rfl
  · intro hhead
    obtain ⟨rest, rfl⟩ := List.head?_eq_some_iff.1 hhead
    exact ⟨encode rest, (encode_mark rest).symm⟩

/-- `TextDecoder` gives a well-formed text back exactly when it does not start with the mark. -/
theorem textDecode_encode_iff (h : WellFormed t) :
    textDecode (encode t) = t ↔ t.head? ≠ some 0xfeff := by
  have hmark := byteOrderMark_encode h
  constructor
  · intro hback hhead
    rw [textDecode, if_pos (hmark.2 hhead)] at hback
    obtain ⟨rest, rfl⟩ := List.head?_eq_some_iff.1 hhead
    have hrest : WellFormed rest := ((wellFormed_cut [] rest (by decide)).1 h).2
    have hdrop : (encode (0xfeff :: rest)).drop 3 = encode rest := by
      rw [encode_mark]
      rfl
    rw [hdrop, decode_encode, hrest] at hback
    have hlength := congrArg List.length hback
    rw [List.length_cons] at hlength
    omega
  · intro hhead
    rw [textDecode, if_neg (mt hmark.1 hhead), decode_encode, h]

end Kompjutr.Utf8
