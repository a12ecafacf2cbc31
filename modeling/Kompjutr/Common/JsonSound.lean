/-
  Kompjutr.Common.JsonSound

  A list of strings comes back from its JSON text, where no unit of them needs an escape.
-/
import Kompjutr.Common.Json
import Mathlib.Data.List.Basic

namespace Kompjutr.Json

open Objects (Text text)

variable {unit : UInt16} {fuel : Nat} {values : List Text}

variable {value : Text}

/-- A unit that stands for itself in a string. -/
def Plain (unit : UInt16) : Prop :=
  0x20 ≤ unit.toNat ∧ unit.toNat < 0xd800 ∧ unit ≠ 0x22 ∧ unit ≠ 0x5c

theorem Plain.not_surrogate (h : Plain unit) :
    Utf8.isHigh unit = false ∧ Utf8.isLow unit = false := by
  obtain ⟨-, hlt, -, -⟩ := h
  rw [Bool.eq_false_iff, Bool.eq_false_iff, Ne, Ne, Utf8.isHigh_iff, Utf8.isLow_iff]
  omega

theorem Plain.escapeUnit (h : Plain unit) : escapeUnit unit = [unit] := by
  obtain ⟨hle, -, hquote, hbackslash⟩ := h
  have hne : ∀ control : UInt16, control.toNat < 0x20 → unit ≠ control := by
    rintro control hcontrol rfl
    omega
  have hlt : ¬ unit < 0x20 := by
    rw [UInt16.lt_iff_toNat_lt]
    exact Nat.not_lt.mpr hle
  rw [Json.escapeUnit, if_neg hquote, if_neg hbackslash, if_neg (hne _ (by decide)),
    if_neg (hne _ (by decide)), if_neg (hne _ (by decide)), if_neg (hne _ (by decide)),
    if_neg (hne _ (by decide)), if_neg hlt]

theorem escape_plain (h : ∀ unit ∈ value, Plain unit) : escape value = value := by
  induction value with
  | nil => rfl
  | cons unit rest ih =>
    have hunit := h unit List.mem_cons_self
    have hrest := ih fun u hu => h u (List.mem_cons_of_mem _ hu)
    unfold escape
    rw [hunit.not_surrogate.1, hunit.not_surrogate.2, if_neg Bool.false_ne_true,
      if_neg Bool.false_ne_true, hunit.escapeUnit, hrest]
    rfl

/-- A string of plain units is read up to its closing quote. -/
theorem parseString_plain (h : ∀ unit ∈ value, Plain unit) (rest : Text)
    (hfuel : value.length < fuel) :
    parseString fuel (value ++ 0x22 :: rest) = some (value, rest) := by
  induction value generalizing fuel with
  | nil =>
    obtain ⟨fuel, rfl⟩ := Nat.exists_eq_add_one.2 (by omega)
    exact if_pos rfl
  | cons unit value ih =>
    obtain ⟨fuel, rfl⟩ := Nat.exists_eq_succ_of_ne_zero (Nat.ne_zero_of_lt hfuel)
    obtain ⟨hle, -, hquote, hbackslash⟩ := h unit List.mem_cons_self
    have hlt : ¬ unit < 0x20 := by
      rw [UInt16.lt_iff_toNat_lt]
      exact Nat.not_lt.mpr hle
    rw [List.length_cons] at hfuel
    rw [List.cons_append, parseString, if_neg hquote, if_neg hbackslash, if_neg hlt,
      ih (fun u hu => h u (List.mem_cons_of_mem _ hu)) (by omega)]
    rfl

theorem quoted_plain (h : ∀ unit ∈ value, Plain unit) :
    quoted value = 0x22 :: (value ++ [0x22]) := by
  rw [quoted, escape_plain h]
  rfl

theorem skipSpace_quote (t : Text) : skipSpace (0x22 :: t) = 0x22 :: t := rfl

/-- The strings of a list after its opening bracket, by induction on the list. -/
theorem parseStrings_plain (h : ∀ string ∈ value :: values, ∀ unit ∈ string, Plain unit)
    (hfuel : values.length < fuel) (rest : Text) :
    parseStrings fuel (quoted value ++ values.flatMap (fun string => 0x2c :: quoted string) ++
      0x5d :: rest) = some (value :: values, rest) := by
  induction values generalizing value fuel with
  | nil =>
    obtain ⟨fuel, rfl⟩ := Nat.exists_eq_add_one.2 (by omega)
    have hvalue := h value List.mem_cons_self
    have htext : quoted value ++ [].flatMap (fun string => 0x2c :: quoted string) ++ 0x5d :: rest =
        0x22 :: (value ++ 0x22 :: 0x5d :: rest) := by
      rw [quoted_plain hvalue]
      simp
    rw [htext, parseStrings, skipSpace_quote]
    dsimp only
    rw [if_neg (by simp), parseString_plain hvalue _ (by simp)]
    rfl
  | cons next values ih =>
    obtain ⟨fuel, rfl⟩ := Nat.exists_eq_succ_of_ne_zero (Nat.ne_zero_of_lt hfuel)
    have hvalue := h value List.mem_cons_self
    have htext : quoted value ++ (next :: values).flatMap (fun string => 0x2c :: quoted string) ++
        0x5d :: rest = 0x22 :: (value ++ 0x22 :: 0x2c :: (quoted next ++
          values.flatMap (fun string => 0x2c :: quoted string) ++ 0x5d :: rest)) := by
      rw [quoted_plain hvalue]
      simp
    rw [List.length_cons] at hfuel
    have hcomma : ∀ t : Text, skipSpace (0x2c :: t) = 0x2c :: t := fun t => rfl
    rw [htext, parseStrings, skipSpace_quote]
    dsimp only
    rw [if_neg (by simp), parseString_plain hvalue _ (by simp), Option.bind_some]
    dsimp only
    rw [hcomma]
    dsimp only
    rw [if_neg (by decide), if_pos rfl,
      ih (fun string hstring => h string (List.mem_cons_of_mem _ hstring)) (by omega)]
    rfl

theorem intercalate_quoted (value : Text) (values : List Text) :
    List.intercalate [0x2c] ((value :: values).map quoted) =
      quoted value ++ values.flatMap fun string => 0x2c :: quoted string := by
  induction values generalizing value with
  | nil => simp [List.intercalate]
  | cons next values ih =>
    have hnext := ih next
    simp only [List.intercalate, List.map_cons, List.flatMap_cons] at hnext ⊢
    rw [List.intersperse_cons_cons, List.flatten_cons, List.flatten_cons, hnext]
    rfl

/-- `JSON.parse` of what `JSON.stringify` made of a list of strings. -/
theorem parseStringArray_stringifyArray (h : ∀ string ∈ values, ∀ unit ∈ string, Plain unit) :
    parseStringArray (stringifyArray values) = some values := by
  cases values with
  | nil => rfl
  | cons value values =>
    have htext : stringifyArray (value :: values) = 0x5b :: (quoted value ++
        values.flatMap (fun string => 0x2c :: quoted string) ++ [0x5d]) := by
      rw [stringifyArray, intercalate_quoted]
      simp
    have hopening : ∀ t : Text, skipSpace (0x5b :: t) = 0x5b :: t := fun t => rfl
    have hfirst : ∀ t : Text, skipSpace (quoted value ++ t) =
        0x22 :: (escape value ++ [0x22] ++ t) := fun t => rfl
    have hlength : values.length <
        (quoted value ++ values.flatMap (fun string => 0x2c :: quoted string) ++ [0x5d]).length := by
      have hmany : values.length ≤
          (values.flatMap fun string => 0x2c :: quoted string).length := by
        clear h htext hfirst
        induction values with
        | nil => exact Nat.le_refl _
        | cons next values ih =>
          rw [List.flatMap_cons, List.length_append, List.length_cons, List.length_cons]
          omega
      simp only [List.length_append, List.length_singleton]
      omega
    rw [htext, parseStringArray, hopening]
    dsimp only
    rw [if_neg (by simp), parseStrings_plain h hlength, List.append_assoc, hfirst]
    dsimp only
    rw [if_neg (by decide), Option.bind_some]
    rfl

end Kompjutr.Json
