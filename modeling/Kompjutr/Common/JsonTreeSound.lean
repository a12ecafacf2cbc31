/-
  Kompjutr.Common.JsonTreeSound

  `JSON.parse` reads back what `JSON.stringify` writes (`Reads`): strings with all their escapes,
  whole numbers, and lists and objects of what is read back itself.
-/
import Kompjutr.Common.JsonTree
import Kompjutr.Common.JsonSound
import Kompjutr.Lib.Utf8Order
import Kompjutr.Objects.CommitRoundTrip

namespace Kompjutr.Json

open Objects (Text text isDigit digitsValue decimal formatNumber)
open Utf8 (WellFormed)
open List (append_assoc append_nil cons_append intercalate_cons_cons intercalate_singleton
  length_append length_cons length_singleton map_cons map_singleton mem_cons_self nil_append
  singleton_append)
open Option (bind_some map_some)

variable {digit : Nat} {value : Text} {n : Int}

variable {unit : UInt16} {fuel : Nat} {rest : Text}

-- Strings

theorem hexValue_hexDigit (h : digit < 0x10) : hexValue (hexDigit digit) = some digit := by
  have hall : ∀ digit < 0x10, hexValue (hexDigit digit) = some digit := by decide +kernel
  exact hall digit h

theorem unescape_unicodeEscape (unit : UInt16) (rest : Text) :
    unescape ((unicodeEscape unit).tail ++ rest) = some (unit, rest) := by
  have hlt := unit.toNat_lt
  have hunit : ((((unit.toNat / 0x1000) * 0x10 + unit.toNat / 0x100 % 0x10) * 0x10 +
      unit.toNat / 0x10 % 0x10) * 0x10 + unit.toNat % 0x10) = unit.toNat := by omega
  show unescape (0x75 :: hexDigit (unit.toNat / 0x1000) :: hexDigit (unit.toNat / 0x100 % 0x10) ::
    hexDigit (unit.toNat / 0x10 % 0x10) :: hexDigit (unit.toNat % 0x10) :: rest) = _
  rw [unescape, if_pos rfl, hexValue_hexDigit (by omega), hexValue_hexDigit (by omega), hexValue_hexDigit (by omega),
    hexValue_hexDigit (by omega)]
  dsimp only
  rw [hunit]
  exact congrArg some (Prod.ext (UInt16.toNat_inj.1 (by simp)) rfl)

/-- An escape is read as its unit. -/
theorem parseString_unicodeEscape (unit : UInt16) (rest : Text) (fuel : Nat) :
    parseString (fuel + 1) (unicodeEscape unit ++ rest) =
      (parseString fuel rest).map fun parsed => (unit :: parsed.1, parsed.2) := by
  have hcons : unicodeEscape unit ++ rest = 0x5c :: ((unicodeEscape unit).tail ++ rest) := rfl
  rw [hcons, parseString, if_neg (by decide), if_pos rfl, unescape_unicodeEscape]
  rfl

theorem parseString_letter {letter : UInt16} (h : letterEscapes.lookup letter = some unit)
    (hletter : letter ≠ 0x75) (rest : Text) (fuel : Nat) :
    parseString (fuel + 1) (0x5c :: letter :: rest) =
      (parseString fuel rest).map fun parsed => (unit :: parsed.1, parsed.2) := by
  rw [parseString, if_neg (by decide), if_pos rfl]
  unfold unescape
  dsimp only
  rw [if_neg hletter, h]
  rfl

theorem parseString_self (hquote : unit ≠ 0x22) (hbackslash : unit ≠ 0x5c)
    (hcontrol : ¬ unit < 0x20) (rest : Text) (fuel : Nat) :
    parseString (fuel + 1) (unit :: rest) =
      (parseString fuel rest).map fun parsed => (unit :: parsed.1, parsed.2) := by
  rw [parseString, if_neg hquote, if_neg hbackslash, if_neg hcontrol]

theorem parseString_escapeUnit (unit : UInt16) (rest : Text) (fuel : Nat) :
    parseString (fuel + 1) (escapeUnit unit ++ rest) =
      (parseString fuel rest).map fun parsed => (unit :: parsed.1, parsed.2) := by
  unfold escapeUnit
  by_cases h22 : unit = 0x22
  · subst h22
    exact parseString_letter rfl (by decide) rest fuel
  by_cases h5c : unit = 0x5c
  · subst h5c
    exact parseString_letter rfl (by decide) rest fuel
  rw [if_neg h22, if_neg h5c]
  by_cases h08 : unit = 0x08
  · subst h08
    exact parseString_letter rfl (by decide) rest fuel
  by_cases h09 : unit = 0x09
  · subst h09
    exact parseString_letter rfl (by decide) rest fuel
  rw [if_neg h08, if_neg h09]
  by_cases h0a : unit = 0x0a
  · subst h0a
    exact parseString_letter rfl (by decide) rest fuel
  by_cases h0c : unit = 0x0c
  · subst h0c
    exact parseString_letter rfl (by decide) rest fuel
  rw [if_neg h0a, if_neg h0c]
  by_cases h0d : unit = 0x0d
  · subst h0d
    exact parseString_letter rfl (by decide) rest fuel
  rw [if_neg h0d]
  split
  next => exact parseString_unicodeEscape unit rest fuel
  next hcontrol => exact parseString_self h22 h5c hcontrol rest fuel

theorem parseString_surrogate (h : (Utf8.isHigh unit || Utf8.isLow unit) = true)
    (rest : Text) (fuel : Nat) :
    parseString (fuel + 1) (unit :: rest) =
      (parseString fuel rest).map fun parsed => (unit :: parsed.1, parsed.2) := by
  rw [Bool.or_eq_true, Utf8.isHigh_iff, Utf8.isLow_iff] at h
  refine parseString_self ?_ ?_ ?_ rest fuel
  · rintro rfl
    exact absurd h (by decide)
  · rintro rfl
    exact absurd h (by decide)
  · rw [UInt16.lt_iff_toNat_lt, show UInt16.toNat 0x20 = 0x20 from rfl]
    omega

/-- A string comes back from its escaped units, up to its closing quote. -/
theorem parseString_escape (value rest : Text) (hfuel : value.length < fuel) :
    parseString fuel (escape value ++ 0x22 :: rest) = some (value, rest) := by
  induction value using escape.induct generalizing fuel with
  | case1 =>
    obtain ⟨fuel, rfl⟩ := Nat.exists_eq_add_one.2 (by omega)
    exact if_pos rfl
  | case2 unit hhigh low more hlow ih =>
    obtain ⟨fuel, rfl⟩ := Nat.exists_eq_succ_of_ne_zero (Nat.ne_zero_of_lt hfuel)
    rw [length_cons, length_cons] at hfuel
    obtain ⟨fuel, rfl⟩ := Nat.exists_eq_succ_of_ne_zero (Nat.ne_zero_of_lt (show 0 < fuel by omega))
    rw [escape, if_pos hhigh, if_pos hlow, cons_append, cons_append,
      parseString_surrogate (by rw [hhigh]; rfl),
      parseString_surrogate (by rw [hlow, Bool.or_true]), ih (by omega)]
    rfl
  | case3 unit hhigh low more hlow ih =>
    obtain ⟨fuel, rfl⟩ := Nat.exists_eq_succ_of_ne_zero (Nat.ne_zero_of_lt hfuel)
    rw [length_cons] at hfuel
    rw [escape, if_pos hhigh, if_neg hlow, append_assoc, parseString_unicodeEscape,
      ih (by omega)]
    rfl
  | case4 unit hhigh =>
    obtain ⟨fuel, rfl⟩ := Nat.exists_eq_succ_of_ne_zero (Nat.ne_zero_of_lt hfuel)
    rw [length_singleton] at hfuel
    obtain ⟨fuel, rfl⟩ := Nat.exists_eq_succ_of_ne_zero (Nat.ne_zero_of_lt (show 0 < fuel by omega))
    rw [escape, if_pos hhigh, parseString_unicodeEscape]
    rfl
  | case5 unit rest hhigh hlow ih =>
    obtain ⟨fuel, rfl⟩ := Nat.exists_eq_succ_of_ne_zero (Nat.ne_zero_of_lt hfuel)
    rw [length_cons] at hfuel
    rw [escape.eq_def]
    dsimp only
    rw [if_neg hhigh, if_pos hlow, append_assoc, parseString_unicodeEscape, ih (by omega)]
    rfl
  | case6 unit rest hhigh hlow ih =>
    obtain ⟨fuel, rfl⟩ := Nat.exists_eq_succ_of_ne_zero (Nat.ne_zero_of_lt hfuel)
    rw [length_cons] at hfuel
    rw [escape.eq_def]
    dsimp only
    rw [if_neg hhigh, if_neg hlow, append_assoc, parseString_escapeUnit, ih (by omega)]
    rfl

theorem length_le_escape (value : Text) : value.length ≤ (escape value).length := by
  have hunit : ∀ unit : UInt16, 1 ≤ (escapeUnit unit).length := by
    intro unit
    unfold escapeUnit unicodeEscape
    repeat' split
    all_goals exact Nat.succ_le_succ (Nat.zero_le _)
  induction value using escape.induct with
  | case1 => exact Nat.le_refl 0
  | case2 unit hhigh low more hlow ih =>
    rw [escape, if_pos hhigh, if_pos hlow, length_cons, length_cons, length_cons,
      length_cons]
    omega
  | case3 unit hhigh low more hlow ih =>
    rw [escape, if_pos hhigh, if_neg hlow, length_append, length_cons]
    have hsix : (unicodeEscape unit).length = 6 := rfl
    omega
  | case4 unit hhigh =>
    rw [escape, if_pos hhigh]
    exact Nat.succ_le_succ (Nat.zero_le _)
  | case5 unit rest hhigh hlow ih =>
    rw [escape.eq_def]
    dsimp only
    rw [if_neg hhigh, if_pos hlow, length_append, length_cons]
    have hsix : (unicodeEscape unit).length = 6 := rfl
    omega
  | case6 unit rest hhigh hlow ih =>
    rw [escape.eq_def]
    dsimp only
    rw [if_neg hhigh, if_neg hlow, length_append, length_cons]
    have hone := hunit unit
    omega

/-- A quoted string, read from after its opening quote. -/
theorem parseString_quoted (value rest : Text) :
    parseString ((escape value ++ 0x22 :: rest).length + 1) (escape value ++ 0x22 :: rest) =
      some (value, rest) := by
  refine parseString_escape value rest ?_
  have hle := length_le_escape value
  rw [length_append]
  omega

-- Values

/-- What may stand behind a value: no unit that a number would go on with. -/
def Ends (rest : Text) : Prop :=
  ∀ unit ∈ rest.head?, isDigit unit = false ∧ unit ≠ 0x2e ∧ unit ≠ 0x65 ∧ unit ≠ 0x45

theorem Ends.nil : Ends [] := fun _ hunit => nomatch hunit

theorem Ends.cons {unit : UInt16} (rest : Text)
    (h : isDigit unit = false ∧ unit ≠ 0x2e ∧ unit ≠ 0x65 ∧ unit ≠ 0x45) : Ends (unit :: rest) := by
  intro other hother
  cases hother
  exact h

/-- A text that is read as a value, whatever stands behind it. -/
structure Reads (value : Text) (tree : Tree) : Prop where
  starts : ∃ unit rest, value = unit :: rest ∧ isSpace unit = false ∧ unit ≠ 0x5d ∧ unit ≠ 0x7d
  reads : ∀ rest fuel, Ends rest → 2 * value.length ≤ fuel →
    parseTree fuel (value ++ rest) = some (tree, rest)

theorem skipSpace_cons (h : isSpace unit = false) (rest : Text) :
    skipSpace (unit :: rest) = unit :: rest :=
  List.dropWhile_cons_of_neg (by rw [h]; exact Bool.false_ne_true)

/-- The whole text is the value. -/
theorem Reads.parse {tree : Tree} (h : Reads value tree) : Json.parse value = some tree := by
  have hreads := h.reads [] (2 * value.length) Ends.nil (Nat.le_refl _)
  rw [append_nil] at hreads
  rw [Json.parse, hreads]
  rfl

theorem Reads.string (value : Text) : Reads (quoted value) (.string value) where
  starts := ⟨0x22, escape value ++ [0x22], rfl, by decide, by decide, by decide⟩
  reads := by
    intro rest fuel _ hfuel
    have htext : quoted value ++ rest = 0x22 :: (escape value ++ 0x22 :: rest) := by
      rw [quoted, append_assoc, append_assoc]
      rfl
    obtain ⟨fuel, rfl⟩ : ∃ n, fuel = n + 1 := Nat.exists_eq_succ_of_ne_zero (by
      rw [quoted, length_append, length_append, length_singleton] at hfuel
      omega)
    rw [htext, parseTree, skipSpace_cons (by decide)]
    dsimp only
    rw [if_pos rfl, parseString_quoted]
    rfl

theorem Reads.null : Reads (text "null") .null where
  starts := ⟨0x6e, [0x75, 0x6c, 0x6c], by decide +kernel, by decide, by decide, by decide⟩
  reads := by
    intro rest fuel _ hfuel
    have htext : text "null" = [0x6e, 0x75, 0x6c, 0x6c] := by decide +kernel
    rw [htext] at hfuel ⊢
    obtain ⟨fuel, rfl⟩ : ∃ n, fuel = n + 1 := Nat.exists_eq_succ_of_ne_zero (by
      intro hzero
      rw [hzero] at hfuel
      exact absurd hfuel (by decide))
    rw [cons_append, parseTree, skipSpace_cons (by decide)]
    dsimp only
    rw [if_neg (by decide), if_neg (by decide), if_neg (by decide), parseLiteral, htext]
    rfl

-- Numbers

theorem decimal_zero {n : Nat} (h : (decimal n).head? = some 0x30) : (decimal n).length = 1 := by
  unfold decimal at h ⊢
  split
  next => rfl
  next hne =>
    rw [if_neg hne] at h
    exfalso
    have hdigits : Nat.digits 10 n ≠ [] := Nat.digits_ne_nil_iff_ne_zero.2 hne
    rw [List.head?_map, List.head?_reverse, List.getLast?_eq_some_getLast hdigits,
      map_some, Option.some.injEq] at h
    have hlast := Nat.getLast_digit_ne_zero 10 hne
    have hlt := Nat.digits_lt_base (b := 10) (m := n) (by omega) (List.getLast_mem hdigits)
    have hnat := congrArg UInt16.toNat h
    rw [Objects.toNat_digitUnit hlt, show UInt16.toNat 0x30 = 0x30 from rfl] at hnat
    omega

theorem takeWhile_ends {digits : Text} (hdigits : ∀ unit ∈ digits, isDigit unit = true)
    (hrest : Ends rest) : (digits ++ rest).takeWhile isDigit = digits := by
  rw [List.takeWhile_append_of_pos hdigits]
  cases rest with
  | nil => exact append_nil _
  | cons unit rest =>
    rw [List.takeWhile_cons_of_neg (by rw [(hrest unit rfl).1]; exact Bool.false_ne_true)]
    exact append_nil _

theorem parseFraction_ends (h : Ends rest) : parseFraction rest = some ([], rest) := by
  cases rest with
  | nil => rfl
  | cons unit rest => exact if_neg (h unit rfl).2.1

theorem parseExponent_ends (h : Ends rest) : parseExponent rest = some (0, rest) := by
  cases rest with
  | nil => rfl
  | cons unit rest =>
    obtain ⟨-, -, he, hE⟩ := h unit rfl
    refine if_neg ?_
    rw [Bool.or_eq_true, decide_eq_true_iff, decide_eq_true_iff]
    exact not_or.2 ⟨he, hE⟩

/-- The part of a number behind its sign. -/
theorem parseNumber_decimal (n : Nat) (negative : Bool) (hrest : Ends rest)
    (hvalue : value = (if negative then [0x2d] else []) ++ decimal n ++ rest) :
    parseNumber value = some (.number (if negative then -(n : Int) else n), rest) := by
  obtain ⟨u, t, ht⟩ := List.exists_cons_of_ne_nil (Objects.decimal_ne_nil n)
  have hu : isDigit u = true := Objects.isDigit_decimal (show u ∈ decimal n by
    rw [ht]
    exact mem_cons_self)
  have hminus : u ≠ 0x2d := by
    rintro rfl
    exact absurd hu (by decide)
  have hsigned : numberSign value = (negative, decimal n ++ rest) := by
    rw [hvalue]
    cases negative with
    | true => rfl
    | false =>
      rw [if_neg Bool.false_ne_true, nil_append, ht, cons_append]
      exact if_neg hminus
  have hdigits := @takeWhile_ends rest (decimal n) (fun unit hunit => Objects.isDigit_decimal hunit) hrest
  unfold parseNumber
  dsimp only
  rw [hsigned]
  dsimp only
  rw [hdigits, if_neg, List.drop_left, parseFraction_ends hrest, bind_some,
    parseExponent_ends hrest, map_some]
  · dsimp only
    rw [append_nil, Objects.digitsValue_decimal]
    unfold wholeValue
    rw [if_pos (by decide)]
    simp
  · rw [Bool.or_eq_true, decide_eq_true_iff, Bool.and_eq_true, decide_eq_true_iff,
      decide_eq_true_iff]
    rintro (hnil | ⟨hzero, hlength⟩)
    · exact Objects.decimal_ne_nil n hnil
    · exact hlength (decimal_zero hzero)

/-- A number begins with a digit or its sign. -/
theorem formatNumber_starts (h : n.natAbs < 10 ^ 21) : ∃ unit rest,
    formatNumber n = unit :: rest ∧ (unit = 0x2d ∨ isDigit unit = true) := by
  unfold Objects.formatNumber
  rw [if_pos h]
  split
  next => exact ⟨0x2d, decimal n.natAbs, rfl, Or.inl rfl⟩
  next =>
    obtain ⟨u, t, ht⟩ := List.exists_cons_of_ne_nil (Objects.decimal_ne_nil n.natAbs)
    refine ⟨u, t, ht, Or.inr (Objects.isDigit_decimal (n := n.natAbs) ?_)⟩
    rw [ht]
    exact mem_cons_self

theorem number_unit (h : unit = 0x2d ∨ isDigit unit = true) :
    isSpace unit = false ∧ ∀ other : UInt16, other ≠ 0x2d → isDigit other = false → unit ≠ other := by
  constructor
  · rcases h with rfl | h
    · rfl
    · rw [Objects.isDigit_iff] at h
      rw [← Bool.not_eq_true]
      simp only [isSpace, Bool.or_eq_true, decide_eq_true_eq, ← UInt16.toNat_inj, UInt16.reduceToNat]
      omega
  · rintro other hminus hdigit rfl
    rcases h with rfl | h
    · exact hminus rfl
    · rw [h] at hdigit
      cases hdigit

theorem Reads.number (h : n.natAbs < 10 ^ 21) : Reads (formatNumber n) (.number n) := by
  obtain ⟨unit, tail, hstarts, hunit⟩ := formatNumber_starts h
  obtain ⟨hspace, hne⟩ := number_unit hunit
  refine { starts := ⟨unit, tail, hstarts, hspace, hne _ (by decide) (by decide),
             hne _ (by decide) (by decide)⟩, reads := fun rest fuel hrest hfuel => ?_ }
  have hnumber : parseNumber (formatNumber n ++ rest) = some (.number n, rest) := by
    rw [parseNumber_decimal n.natAbs (decide (n < 0)) hrest]
    · congr 2
      by_cases hneg : n < 0
      · rw [decide_eq_true hneg, if_pos rfl]
        exact congrArg Tree.number (by omega)
      · rw [decide_eq_false hneg, if_neg Bool.false_ne_true]
        exact congrArg Tree.number (by omega)
    · rw [Objects.formatNumber, if_pos h]
      by_cases hneg : n < 0
      · rw [if_pos hneg, decide_eq_true hneg, if_pos rfl]
      · rw [if_neg hneg, decide_eq_false hneg, if_neg Bool.false_ne_true]
  obtain ⟨fuel, rfl⟩ : ∃ m, fuel = m + 1 := Nat.exists_eq_succ_of_ne_zero (by
    rw [hstarts, length_cons] at hfuel
    omega)
  rw [hstarts, cons_append] at hnumber ⊢
  have hnull := hne 0x6e (by decide) (by decide)
  have htrue := hne 0x74 (by decide) (by decide)
  have hfalse := hne 0x66 (by decide) (by decide)
  have hliteral : parseLiteral (unit :: (tail ++ rest)) = none := by
    have hno : ∀ (literal : Text) (first : UInt16), literal.head? = some first → unit ≠ first →
        ¬ literal.isPrefixOf (unit :: (tail ++ rest)) = true := by
      intro literal first hfirst hdiffer hstart
      obtain ⟨behind, rfl⟩ : ∃ behind, literal = first :: behind := by
        cases literal with
        | nil => cases hfirst
        | cons u behind =>
          cases hfirst
          exact ⟨behind, rfl⟩
      rw [List.isPrefixOf_cons_cons, Bool.and_eq_true, beq_iff_eq] at hstart
      exact hdiffer hstart.1.symm
    rw [parseLiteral, if_neg (hno _ 0x6e (by decide +kernel) hnull),
      if_neg (hno _ 0x74 (by decide +kernel) htrue), if_neg (hno _ 0x66 (by decide +kernel) hfalse)]
  rw [parseTree, skipSpace_cons hspace]
  dsimp only
  rw [if_neg (hne _ (by decide) (by decide)), if_neg (hne _ (by decide) (by decide)),
    if_neg (hne _ (by decide) (by decide)), hliteral, hnumber]
  rfl

-- Lists and objects

theorem ends_comma (rest : Text) : Ends (0x2c :: rest) := Ends.cons rest (by decide)

theorem ends_bracket (rest : Text) : Ends (0x5d :: rest) := Ends.cons rest (by decide)

theorem ends_brace (rest : Text) : Ends (0x7d :: rest) := Ends.cons rest (by decide)

theorem parseElements_reads {first : Text × Tree} {others : List (Text × Tree)}
    (h : ∀ element ∈ first :: others, Reads element.1 element.2) (rest : Text)
    (hfuel : 2 * ((List.intercalate [0x2c] ((first :: others).map Prod.fst)).length + 1) ≤ fuel) :
    parseElements fuel (List.intercalate [0x2c] ((first :: others).map Prod.fst) ++ 0x5d :: rest) =
      some ((first :: others).map Prod.snd, rest) := by
  induction others generalizing first fuel with
  | nil =>
    obtain ⟨fuel, rfl⟩ : ∃ m, fuel = m + 1 := Nat.exists_eq_add_one.2 (by omega)
    rw [map_singleton, intercalate_singleton] at hfuel ⊢
    rw [parseElements, (h first mem_cons_self).reads _ _ (ends_bracket rest) (by omega),
      bind_some]
    dsimp only
    rw [skipSpace_cons (by decide)]
    dsimp only
    rw [if_pos rfl]
    rfl
  | cons second others ih =>
    obtain ⟨fuel, rfl⟩ : ∃ m, fuel = m + 1 := Nat.exists_eq_add_one.2 (by omega)
    rw [List.forall_mem_cons] at h
    rw [map_cons, map_cons, intercalate_cons_cons, ← map_cons] at hfuel ⊢
    rw [length_append, length_append, length_singleton] at hfuel
    rw [append_assoc, append_assoc, singleton_append, parseElements,
      h.1.reads _ _ (ends_comma _) (by omega), bind_some]
    dsimp only
    rw [skipSpace_cons (by decide)]
    dsimp only
    rw [if_neg (by decide), if_pos rfl, ih h.2 (by omega)]
    rfl

/-- A list of texts that are read as values. -/
theorem Reads.array {elements : List (Text × Tree)}
    (h : ∀ element ∈ elements, Reads element.1 element.2) :
    Reads (arrayText (elements.map Prod.fst)) (.array (elements.map Prod.snd)) where
  starts := ⟨0x5b, List.intercalate [0x2c] (elements.map Prod.fst) ++ [0x5d], rfl, by decide,
    by decide, by decide⟩
  reads := by
    intro rest fuel _ hfuel
    have htext : arrayText (elements.map Prod.fst) ++ rest =
        0x5b :: (List.intercalate [0x2c] (elements.map Prod.fst) ++ 0x5d :: rest) := by
      rw [arrayText, append_assoc, append_assoc]
      rfl
    have hlength : (arrayText (elements.map Prod.fst)).length =
        (List.intercalate [0x2c] (elements.map Prod.fst)).length + 2 := by
      rw [arrayText, length_append, length_append, length_singleton,
        length_singleton]
      omega
    obtain ⟨fuel, rfl⟩ : ∃ m, fuel = m + 1 := Nat.exists_eq_add_one.2 (by omega)
    rw [htext, parseTree, skipSpace_cons (by decide)]
    dsimp only
    rw [if_neg (by decide), if_pos rfl]
    cases elements with
    | nil =>
      rw [List.map_nil, List.intercalate_nil, nil_append, skipSpace_cons (by decide)]
      rfl
    | cons first others =>
      obtain ⟨unit, tail, hstarts, hspace, hbracket, -⟩ := (h first mem_cons_self).starts
      have hhead : ∃ behind, List.intercalate [0x2c] ((first :: others).map Prod.fst) ++
          0x5d :: rest = unit :: behind := by
        cases others with
        | nil =>
          rw [map_singleton, intercalate_singleton, hstarts]
          exact ⟨_, rfl⟩
        | cons second others =>
          rw [map_cons, map_cons, intercalate_cons_cons, hstarts]
          exact ⟨_, rfl⟩
      have helements := @parseElements_reads fuel _ _ h rest (by omega)
      obtain ⟨behind, hbehind⟩ := hhead
      rw [hbehind] at helements ⊢
      rw [skipSpace_cons hspace]
      dsimp only
      rw [if_neg hbracket, helements]
      rfl

def memberText (member : Member) : Text := quoted (text member.1) ++ [0x3a] ++ member.2.1

theorem parseMembers_reads {first : Member} {others : List Member}
    (h : ∀ member ∈ first :: others, Reads member.2.1 member.2.2) (rest : Text)
    (hfuel : 2 * ((List.intercalate [0x2c] ((first :: others).map memberText)).length + 1) ≤ fuel) :
    parseMembers fuel (List.intercalate [0x2c] ((first :: others).map memberText) ++ 0x7d :: rest) =
      some ((first :: others).map fun member => (text member.1, member.2.2), rest) := by
  have hmember : ∀ (member : Member) (behind : Text), memberText member ++ behind =
      0x22 :: (escape (text member.1) ++ 0x22 :: 0x3a :: (member.2.1 ++ behind)) := by
    intro member behind
    unfold memberText quoted
    simp only [append_assoc, nil_append, cons_append]
  have hlength : ∀ member : Member, member.2.1.length + 3 ≤ (memberText member).length := by
    intro member
    unfold memberText quoted
    simp only [length_append, length_singleton]
    omega
  induction others generalizing first fuel with
  | nil =>
    obtain ⟨fuel, rfl⟩ : ∃ m, fuel = m + 1 := Nat.exists_eq_add_one.2 (by omega)
    rw [map_singleton, intercalate_singleton] at hfuel ⊢
    have hle := hlength first
    rw [hmember, parseMembers, skipSpace_cons (by decide)]
    dsimp only
    rw [if_neg (not_not.2 rfl), parseString_quoted, bind_some]
    dsimp only
    rw [skipSpace_cons (by decide)]
    dsimp only
    rw [if_neg (not_not.2 rfl), (h first mem_cons_self).reads _ _ (ends_brace rest) (by omega),
      bind_some]
    dsimp only
    rw [skipSpace_cons (by decide)]
    dsimp only
    rw [if_pos rfl]
    rfl
  | cons second others ih =>
    obtain ⟨fuel, rfl⟩ : ∃ m, fuel = m + 1 := Nat.exists_eq_add_one.2 (by omega)
    rw [List.forall_mem_cons] at h
    rw [map_cons, map_cons, intercalate_cons_cons, ← map_cons] at hfuel ⊢
    rw [length_append, length_append, length_singleton] at hfuel
    have hle := hlength first
    rw [append_assoc, append_assoc, singleton_append, hmember, parseMembers,
      skipSpace_cons (by decide)]
    dsimp only
    rw [if_neg (not_not.2 rfl), parseString_quoted, bind_some]
    dsimp only
    rw [skipSpace_cons (by decide)]
    dsimp only
    rw [if_neg (not_not.2 rfl), h.1.reads _ _ (ends_comma _) (by omega), bind_some]
    dsimp only
    rw [skipSpace_cons (by decide)]
    dsimp only
    rw [if_neg (by decide), if_pos rfl, ih h.2 (by omega)]
    rfl

/-- An object whose members are read as values. -/
theorem Reads.object {members : List Member} (h : ∀ member ∈ members, Reads member.2.1 member.2.2) :
    Reads (objectText (members.map fun member => (member.1, member.2.1)))
      (.object (members.map fun member => (text member.1, member.2.2))) where
  starts := by
    refine ⟨0x7b, _, rfl, by decide, by decide, by decide⟩
  reads := by
    intro rest fuel _ hfuel
    have htext : objectText (members.map fun member => (member.1, member.2.1)) =
        [0x7b] ++ List.intercalate [0x2c] (members.map memberText) ++ [0x7d] := by
      rw [objectText, List.map_map]
      rfl
    rw [htext] at hfuel ⊢
    rw [length_append, length_append, length_singleton, length_singleton] at hfuel
    obtain ⟨fuel, rfl⟩ : ∃ m, fuel = m + 1 := Nat.exists_eq_add_one.2 (by omega)
    rw [append_assoc, append_assoc, singleton_append, singleton_append, parseTree,
      skipSpace_cons (by decide)]
    dsimp only
    rw [if_neg (by decide), if_neg (by decide), if_pos rfl]
    cases members with
    | nil =>
      rw [List.map_nil, List.intercalate_nil, nil_append, skipSpace_cons (by decide)]
      rfl
    | cons first others =>
      have hhead : ∃ behind, List.intercalate [0x2c] ((first :: others).map memberText) ++
          0x7d :: rest = 0x22 :: behind := by
        cases others with
        | nil =>
          rw [map_singleton, intercalate_singleton]
          exact ⟨_, rfl⟩
        | cons second others =>
          rw [map_cons, map_cons, intercalate_cons_cons]
          exact ⟨_, rfl⟩
      have hmembers := @parseMembers_reads fuel _ _ h rest (by omega)
      obtain ⟨behind, hbehind⟩ := hhead
      rw [hbehind] at hmembers ⊢
      rw [skipSpace_cons (by decide)]
      dsimp only
      rw [if_neg (by decide), hmembers]
      rfl

-- Well-formed texts

theorem not_surrogate_hexDigit (h : digit < 0x10) :
    ¬ (Utf8.isHigh (hexDigit digit) || Utf8.isLow (hexDigit digit)) = true := by
  have hall : ∀ digit < 0x10,
      ¬ (Utf8.isHigh (hexDigit digit) || Utf8.isLow (hexDigit digit)) = true := by decide +kernel
  exact hall digit h

theorem wellFormed_unicodeEscape (unit : UInt16) : WellFormed (unicodeEscape unit) := by
  have hlt := unit.toNat_lt
  refine Utf8.wellFormed_of_plain fun u hu => ?_
  simp only [unicodeEscape, List.mem_cons, List.not_mem_nil, or_false] at hu
  rcases hu with rfl | rfl | rfl | rfl | rfl | rfl
  · decide
  · decide
  · exact not_surrogate_hexDigit (by omega)
  · exact not_surrogate_hexDigit (by omega)
  · exact not_surrogate_hexDigit (by omega)
  · exact not_surrogate_hexDigit (by omega)

theorem wellFormed_escapeUnit (h : ¬ (Utf8.isHigh unit || Utf8.isLow unit) = true) :
    WellFormed (escapeUnit unit) := by
  unfold escapeUnit
  repeat' split
  all_goals first
    | decide
    | exact wellFormed_unicodeEscape unit
    | exact Utf8.wellFormed_of_plain fun u hu => (List.mem_singleton.1 hu) ▸ h

/-- An escaped text is well-formed, whatever the text is. -/
theorem wellFormed_escape (value : Text) : WellFormed (escape value) := by
  induction value using escape.induct with
  | case1 => exact Utf8.wellFormed_nil
  | case2 unit hhigh low more hlow ih =>
    rw [escape, if_pos hhigh, if_pos hlow]
    exact (Utf8.wellFormed_pair hhigh hlow _).2 ih
  | case3 unit hhigh low more hlow ih =>
    rw [escape, if_pos hhigh, if_neg hlow]
    exact (wellFormed_unicodeEscape unit).append ih
  | case4 unit hhigh =>
    rw [escape, if_pos hhigh]
    exact wellFormed_unicodeEscape unit
  | case5 unit rest hhigh hlow ih =>
    rw [escape.eq_def]
    dsimp only
    rw [if_neg hhigh, if_pos hlow]
    exact (wellFormed_unicodeEscape unit).append ih
  | case6 unit rest hhigh hlow ih =>
    rw [escape.eq_def]
    dsimp only
    rw [if_neg hhigh, if_neg hlow]
    refine (wellFormed_escapeUnit ?_).append ih
    rw [Bool.or_eq_true]
    exact not_or.2 ⟨hhigh, hlow⟩

theorem wellFormed_quoted (value : Text) : WellFormed (quoted value) := by
  have hquote : WellFormed [0x22] := by decide
  exact (hquote.append (wellFormed_escape value)).append hquote

theorem wellFormed_formatNumber (n : Int) : WellFormed (formatNumber n) :=
  Utf8.wellFormed_of_plain fun u hu => (Objects.printable_formatNumber n u hu).not_surrogate

theorem wellFormed_intercalate {parts : List Text} (h : ∀ part ∈ parts, WellFormed part) :
    WellFormed (List.intercalate [0x2c] parts) := by
  have hcomma : WellFormed [0x2c] := by decide
  induction parts with
  | nil => exact Utf8.wellFormed_nil
  | cons part parts ih =>
    rw [List.forall_mem_cons] at h
    cases parts with
    | nil =>
      rw [intercalate_singleton]
      exact h.1
    | cons second parts =>
      rw [intercalate_cons_cons]
      exact (h.1.append hcomma).append (ih h.2)

theorem wellFormed_arrayText {values : List Text} (h : ∀ value ∈ values, WellFormed value) :
    WellFormed (arrayText values) := by
  have hopen : WellFormed [0x5b] := by decide
  have hclose : WellFormed [0x5d] := by decide
  exact (hopen.append (wellFormed_intercalate h)).append hclose

theorem wellFormed_objectText {members : List (String × Text)}
    (h : ∀ member ∈ members, WellFormed member.2) : WellFormed (objectText members) := by
  have hopen : WellFormed [0x7b] := by decide
  have hcolon : WellFormed [0x3a] := by decide
  have hclose : WellFormed [0x7d] := by decide
  refine (hopen.append (wellFormed_intercalate fun part hpart => ?_)).append hclose
  obtain ⟨member, hmember, rfl⟩ := List.mem_map.1 hpart
  exact ((wellFormed_quoted _).append hcolon).append (h member hmember)

end Kompjutr.Json
