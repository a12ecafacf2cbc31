/-
  Kompjutr.Lib.Utf8Fatal

  The UTF-8 decoder of the Encoding Standard with the error mode "fatal": where the other mode
  writes U+FFFD for what is no sequence, this one gives up.

  It accepts exactly what the encoder writes (`decodeFatal_iff`), each text from one spelling.
-/
import Kompjutr.Lib.Utf8Order
import Kompjutr.Lib.Utf8Text

namespace Kompjutr.Utf8

open List (cons_append nil_append)

variable {needed lower upper : Nat}

variable {b : UInt8} {point : Nat} {bytes : List UInt8} {t : List UInt16}

/-- Bytes that cannot stand first. -/
def noFirst (b : UInt8) : Bool :=
  !(b < 0x80 || (0xc2 ≤ b && b ≤ 0xdf) || (0xe0 ≤ b && b ≤ 0xef) || (0xf0 ≤ b && b ≤ 0xf4))

/-- The byte does not continue what was begun. -/
def broken (d : Decoder) (b : UInt8) : Bool :=
  if d.needed = 0 then noFirst b else b.toNat < d.lower || d.upper < b.toNat

def decodeFatalFrom : Decoder → List UInt8 → Option (List UInt16)
  | d, [] => if d.needed = 0 then some [] else none
  | d, b :: rest =>
    if broken d b then none
    else (decodeFatalFrom (step d b).2 rest).map fun units => (step d b).1 ++ units

def decodeFatal (bytes : List UInt8) : Option (List UInt16) := decodeFatalFrom start bytes

/-- `TextDecoder.decode` of a decoder with `fatal: true`. -/
def textDecodeFatal (bytes : List UInt8) : Option (List UInt16) :=
  decodeFatal (if byteOrderMark.isPrefixOf bytes then bytes.drop 3 else bytes)

-- Continuing a sequence

theorem noFirst_iff : noFirst b = false ↔ b.toNat < 0x80 ∨
    (0xc2 ≤ b.toNat ∧ b.toNat ≤ 0xdf) ∨ (0xe0 ≤ b.toNat ∧ b.toNat ≤ 0xef) ∨
      (0xf0 ≤ b.toNat ∧ b.toNat ≤ 0xf4) := by
  unfold noFirst
  simp only [Bool.not_eq_false', Bool.or_eq_true, Bool.and_eq_true, decide_eq_true_eq,
    UInt8.lt_iff_toNat_lt, UInt8.le_iff_toNat_le, UInt8.reduceToNat, or_assoc]

/-- A byte that continues a sequence, in this mode. -/
theorem decodeFatalFrom_continue (rest : List UInt8)
    (hneeded : needed ≠ 0) (hlower : lower ≤ b.toNat) (hupper : b.toNat ≤ upper) :
    decodeFatalFrom ⟨needed, lower, upper, point⟩ (b :: rest) =
      if needed = 1 then
        (decodeFatalFrom start rest).map fun units =>
          unitsOf (point * 0x40 + b.toNat % 0x40) ++ units
      else decodeFatalFrom ⟨needed - 1, 0x80, 0xbf, point * 0x40 + b.toNat % 0x40⟩ rest := by
  have hbroken : broken ⟨needed, lower, upper, point⟩ b = false := by
    rw [broken, if_neg hneeded, Bool.or_eq_false_iff]
    exact ⟨decide_eq_false (by dsimp only; omega), decide_eq_false (by dsimp only; omega)⟩
  have hstep : step ⟨needed, lower, upper, point⟩ b =
      if needed = 1 then (unitsOf (point * 0x40 + b.toNat % 0x40), start)
      else ([], ⟨needed - 1, 0x80, 0xbf, point * 0x40 + b.toNat % 0x40⟩) := by
    rw [step, if_neg hneeded, if_neg (by dsimp only; omega)]
  rw [decodeFatalFrom, hbroken, if_neg Bool.false_ne_true, hstep]
  split
  · rfl
  · exact Option.map_id'

/-- What has to follow in the middle of a sequence. -/
theorem exists_continue
    (hneeded : needed ≠ 0) (h : decodeFatalFrom ⟨needed, lower, upper, point⟩ bytes = some t) :
    ∃ b rest, bytes = b :: rest ∧ lower ≤ b.toNat ∧ b.toNat ≤ upper := by
  cases bytes with
  | nil =>
    rw [decodeFatalFrom, if_neg hneeded] at h
    cases h
  | cons b rest =>
    refine ⟨b, rest, rfl, ?_⟩
    by_contra hout
    have hbroken : broken ⟨needed, lower, upper, point⟩ b = true := by
      rw [broken, if_neg hneeded, Bool.or_eq_true, decide_eq_true_eq, decide_eq_true_eq]
      dsimp only
      omega
    rw [decodeFatalFrom, hbroken, if_pos rfl] at h
    cases h

theorem decodeFatalFrom_start (hb : noFirst b = false) (rest : List UInt8) :
    decodeFatalFrom start (b :: rest) =
      (decodeFatalFrom (first b).2 rest).map fun units => (first b).1 ++ units := by
  have hbroken : broken start b = false := hb
  rw [decodeFatalFrom, hbroken, if_neg Bool.false_ne_true, step_start]

theorem decodeFatalFrom_lead {byte : Nat} {d : Decoder}
    (hfirst : noFirst byte.toUInt8 = false) (hstep : step start byte.toUInt8 = ([], d))
    (rest : List UInt8) :
    decodeFatalFrom start (byte.toUInt8 :: rest) = decodeFatalFrom d rest := by
  rw [step_start] at hstep
  rw [decodeFatalFrom_start hfirst, hstep]
  exact Option.map_id'

-- One code point

theorem decodeFatalFrom_encodePoint (h : Scalar point) (rest : List UInt8) :
    decodeFatalFrom start (encodePoint point ++ rest) =
      (decodeFatalFrom start rest).map fun units => unitsOf point ++ units := by
  have hno : ∀ {byte : Nat}, byte < 0x100 → (byte < 0x80 ∨ (0xc2 ≤ byte ∧ byte ≤ 0xdf) ∨
      (0xe0 ≤ byte ∧ byte ≤ 0xef) ∨ (0xf0 ≤ byte ∧ byte ≤ 0xf4)) →
      noFirst byte.toUInt8 = false := by
    intro byte hbyte hclass
    rwa [noFirst_iff, toNat_toUInt8 hbyte]
  have hgo : ∀ {needed lower upper point byte : Nat} (rest : List UInt8), needed ≠ 0 →
      lower ≤ byte → byte ≤ upper → byte < 0x100 →
      decodeFatalFrom ⟨needed, lower, upper, point⟩ (byte.toUInt8 :: rest) =
        if needed = 1 then
          (decodeFatalFrom start rest).map fun units =>
            unitsOf (point * 0x40 + byte % 0x40) ++ units
        else decodeFatalFrom ⟨needed - 1, 0x80, 0xbf, point * 0x40 + byte % 0x40⟩ rest := by
    intro needed lower upper point byte rest hneeded hlower hupper hbyte
    have hsame := toNat_toUInt8 hbyte
    rw [decodeFatalFrom_continue rest hneeded (by omega) (by omega), hsame]
  unfold Scalar at h
  unfold encodePoint
  split_ifs with h1 h2 h3
  · -- one byte
    obtain ⟨hlt, hunit⟩ := toUInt8_ascii h1
    have hfirst : first point.toUInt8 = ([point.toUInt8.toUInt16], start) := if_pos hlt
    rw [List.singleton_append, decodeFatalFrom_start (hno (by omega) (by omega)), hfirst, unitsOf,
      if_pos (by omega), hunit]
  · -- two bytes
    rw [cons_append, cons_append, nil_append,
      decodeFatalFrom_lead (hno (by omega) (by omega)) (first_two (by omega)),
      hgo _ (by omega) (by omega) (by omega) (by omega), if_pos rfl,
      show (0xc0 + point / 0x40) % 0x20 * 0x40 + (0x80 + point % 0x40) % 0x40 = point by omega]
  · -- three bytes
    rw [cons_append, cons_append, cons_append, nil_append,
      decodeFatalFrom_lead (hno (by omega) (by omega)) (first_three (by omega)),
      hgo _ (by omega) (by split_ifs <;> omega) (by split_ifs <;> omega) (by omega),
      if_neg (by omega), hgo _ (by omega) (by omega) (by omega) (by omega), if_pos rfl,
      show ((0xe0 + point / 0x1000) % 0x10 * 0x40 + (0x80 + point / 0x40 % 0x40) % 0x40) * 0x40 +
        (0x80 + point % 0x40) % 0x40 = point by omega]
  · -- four bytes
    rw [cons_append, cons_append, cons_append, cons_append, nil_append,
      decodeFatalFrom_lead (hno (by omega) (by omega)) (first_four (by omega)),
      hgo _ (by omega) (by split_ifs <;> omega) (by split_ifs <;> omega) (by omega),
      if_neg (by omega), hgo _ (by omega) (by omega) (by omega) (by omega), if_neg (by omega),
      hgo _ (by omega) (by omega) (by omega) (by omega), if_pos rfl,
      show (((0xf0 + point / 0x40000) % 0x08 * 0x40 + (0x80 + point / 0x1000 % 0x40) % 0x40) *
        0x40 + (0x80 + point / 0x40 % 0x40) % 0x40) * 0x40 + (0x80 + point % 0x40) % 0x40 = point
        by omega]

/-- What is accepted starts with the spelling of a code point. -/
theorem exists_encodePoint (h : decodeFatalFrom start (b :: bytes) = some t) :
    ∃ point rest, Scalar point ∧ b :: bytes = encodePoint point ++ rest := by
  have hfirst : noFirst b = false := by
    by_contra hno
    have hbroken : broken start b = true := Bool.eq_true_of_not_eq_false hno
    rw [decodeFatalFrom, hbroken, if_pos rfl] at h
    cases h
  have hb : b = b.toNat.toUInt8 := by rw [← UInt8.toNat_inj, toNat_toUInt8 b.toNat_lt]
  have heq : ∀ {c : UInt8} {n : Nat}, c.toNat = n → c = n.toUInt8 := by
    rintro c n rfl
    rw [← UInt8.toNat_inj, toNat_toUInt8 c.toNat_lt]
  obtain hone | htwo | hthree | hfour := noFirst_iff.1 hfirst
  · refine ⟨b.toNat, bytes, .inl (by omega), ?_⟩
    rw [encodePoint, if_pos hone, ← hb]
    rfl
  · rw [hb, decodeFatalFrom_lead (hb ▸ hfirst) (first_two htwo)] at h
    obtain ⟨c, rest, rfl, hc1, hc2⟩ := exists_continue (by omega) h
    refine ⟨b.toNat % 0x20 * 0x40 + c.toNat % 0x40, rest, .inl (by omega), ?_⟩
    rw [encodePoint, if_neg (by omega), if_pos (by omega), cons_append, cons_append,
      nil_append, ← heq (c := b) (by omega), ← heq (c := c) (by omega)]
  · rw [hb, decodeFatalFrom_lead (hb ▸ hfirst) (first_three hthree)] at h
    obtain ⟨c, rest, rfl, hc1, hc2⟩ := exists_continue (by omega) h
    rw [decodeFatalFrom_continue rest (by omega) hc1 hc2, if_neg (by omega)] at h
    obtain ⟨e, rest, rfl, he1, he2⟩ := exists_continue (by omega) h
    have hc3 : 0x80 ≤ c.toNat ∧ c.toNat ≤ 0xbf := by
      constructor
      · split_ifs at hc1 <;> omega
      · split_ifs at hc2 <;> omega
    have hc4 : b.toNat = 0xe0 → 0xa0 ≤ c.toNat := fun h => by rwa [if_pos h] at hc1
    have hc5 : b.toNat = 0xed → c.toNat ≤ 0x9f := fun h => by rwa [if_pos h] at hc2
    refine ⟨(b.toNat % 0x10 * 0x40 + c.toNat % 0x40) * 0x40 + e.toNat % 0x40, rest, ?_, ?_⟩
    · unfold Scalar
      omega
    · rw [encodePoint, if_neg (by omega), if_neg (by omega), if_pos (by omega), cons_append,
        cons_append, cons_append, nil_append, ← heq (c := b) (by omega),
        ← heq (c := c) (by omega), ← heq (c := e) (by omega)]
  · rw [hb, decodeFatalFrom_lead (hb ▸ hfirst) (first_four hfour)] at h
    obtain ⟨c, rest, rfl, hc1, hc2⟩ := exists_continue (by omega) h
    rw [decodeFatalFrom_continue rest (by omega) hc1 hc2, if_neg (by omega)] at h
    obtain ⟨e, rest, rfl, he1, he2⟩ := exists_continue (by omega) h
    rw [decodeFatalFrom_continue rest (by omega) he1 he2, if_neg (by omega)] at h
    obtain ⟨g, rest, rfl, hg1, hg2⟩ := exists_continue (by omega) h
    have hc3 : 0x80 ≤ c.toNat ∧ c.toNat ≤ 0xbf := by
      constructor
      · split_ifs at hc1 <;> omega
      · split_ifs at hc2 <;> omega
    have hc4 : b.toNat = 0xf0 → 0x90 ≤ c.toNat := fun h => by rwa [if_pos h] at hc1
    have hc5 : b.toNat = 0xf4 → c.toNat ≤ 0x8f := fun h => by rwa [if_pos h] at hc2
    refine ⟨((b.toNat % 0x08 * 0x40 + c.toNat % 0x40) * 0x40 + e.toNat % 0x40) * 0x40 +
      g.toNat % 0x40, rest, ?_, ?_⟩
    · unfold Scalar
      omega
    · rw [encodePoint, if_neg (by omega), if_neg (by omega), if_neg (by omega), cons_append,
        cons_append, cons_append, cons_append, nil_append,
        ← heq (c := b) (by omega), ← heq (c := c) (by omega), ← heq (c := e) (by omega),
        ← heq (c := g) (by omega)]

-- Whole texts

/-- The decoder accepts exactly what the encoder writes. -/
theorem decodeFatal_iff : decodeFatal bytes = some t ↔ WellFormed t ∧ encode t = bytes := by
  have hspelled : ∀ list : List Nat, (∀ point ∈ list, Scalar point) →
      decodeFatalFrom start (list.flatMap encodePoint) = some (list.flatMap unitsOf) := by
    intro list hlist
    induction list with
    | nil => rfl
    | cons point list ih =>
      rw [List.flatMap_cons, List.flatMap_cons,
        decodeFatalFrom_encodePoint (hlist point List.mem_cons_self),
        ih fun p hp => hlist p (List.mem_cons_of_mem _ hp)]
      rfl
  constructor
  · -- by induction on the number of bytes, one code point at a time
    intro h
    obtain ⟨list, hlist, rfl⟩ : ∃ list : List Nat, (∀ point ∈ list, Scalar point) ∧
        bytes = list.flatMap encodePoint := by
      unfold decodeFatal at h
      induction hn : bytes.length using Nat.strongRecOn generalizing bytes t with
      | _ n ih =>
        cases bytes with
        | nil => exact ⟨[], fun _ hp => (nomatch hp), rfl⟩
        | cons b bytes =>
          obtain ⟨point, rest, hpoint, hbytes⟩ := exists_encodePoint h
          rw [hbytes, decodeFatalFrom_encodePoint hpoint, Option.map_eq_some_iff] at h
          obtain ⟨units, hunits, -⟩ := h
          have hlength : rest.length < n := by
            have hsum := congrArg List.length hbytes
            have hpos : 0 < (encodePoint point).length := by
              unfold encodePoint
              split_ifs <;> exact Nat.succ_pos _
            rw [List.length_append] at hsum
            omega
          obtain ⟨list, hlist, rfl⟩ := ih _ hlength hunits rfl
          refine ⟨point :: list, List.forall_mem_cons.2 ⟨hpoint, hlist⟩, ?_⟩
          rw [hbytes, List.flatMap_cons]
    have ht := (hspelled list hlist).symm.trans h
    rw [← Option.some.inj ht]
    refine ⟨wellFormed_spelled hlist, ?_⟩
    have hpoints := points_spelled hlist []
    rw [List.append_nil, points, List.append_nil] at hpoints
    rw [encode, hpoints]
  · rintro ⟨hformed, rfl⟩
    have hback := hspelled (points t) fun point hp => scalar_of_mem_points hp
    rw [show (points t).flatMap unitsOf = t from hformed] at hback
    exact hback

-- The byte order mark

/-- What `TextDecoder` makes of a text that starts with the mark. -/
def dropMark (t : List UInt16) : List UInt16 := if t.head? = some 0xfeff then t.tail else t

theorem dropMark_cons (t : List UInt16) : dropMark (0xfeff :: t) = t := if_pos rfl

theorem dropMark_of_ne (h : t.head? ≠ some 0xfeff) : dropMark t = t := if_neg h

theorem textDecodeFatal_eq (bytes : List UInt8) :
    textDecodeFatal bytes = (decodeFatal bytes).map dropMark := by
  unfold textDecodeFatal
  split
  · next hmark =>
    obtain ⟨rest, rfl⟩ := List.isPrefixOf_iff_prefix.1 hmark
    have hspelled : byteOrderMark = encodePoint 0xfeff := by decide
    have hdrop : (byteOrderMark ++ rest).drop 3 = rest := rfl
    rw [hdrop, hspelled, decodeFatal, decodeFatal,
      decodeFatalFrom_encodePoint (.inr (by decide)) rest, Option.map_map]
    exact Option.map_id'.symm
  · next hmark =>
    cases h : decodeFatal bytes with
    | none => rfl
    | some t =>
      obtain ⟨hformed, rfl⟩ := decodeFatal_iff.1 h
      rw [byteOrderMark_encode hformed] at hmark
      rw [Option.map_some, dropMark_of_ne hmark]

end Kompjutr.Utf8
