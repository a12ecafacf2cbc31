/-
  Kompjutr.Objects.Serialize

  The commit writer of `common/objects.ts`: identity lines and `serializeCommit`.

  A number is printed as `String(n)` prints it: its digits, or from 10^21 on its
  digits with an exponent.  `parsePerson` reads the numbers of a line back when
  they are printed without one and the time zone has two digits for the hours.
-/
import Kompjutr.Lib.Utf8Encode
import Kompjutr.Objects.HeaderLines
import Mathlib.Data.Nat.Digits.Lemmas
import Mathlib.Data.List.DropRight

namespace Kompjutr.Objects

open Utf8
open List (cons_ne_nil drop_drop drop_left mem_append take_append_drop take_left)

variable {u : UInt16} {n : Nat} {offset : Int} {person : Person}

-- Numbers

/-- The unit of a digit. -/
def digitUnit (d : Nat) : UInt16 := (0x30 + d).toUInt16

def decimal (n : Nat) : Text :=
  if n = 0 then [0x30] else ((Nat.digits 10 n).reverse.map digitUnit)

/-- The digits with the point behind the first of them, and the exponent. -/
def exponential (n : Nat) : Text :=
  let digits := decimal n
  let significant := digits.rdropWhile (· = 0x30)
  significant.take 1 ++ (if significant.length ≤ 1 then [] else 0x2e :: significant.drop 1) ++
    text "e+" ++ decimal (digits.length - 1)

/-- `String(n)`. -/
def formatNumber (n : Int) : Text :=
  (if n < 0 then [0x2d] else []) ++
    if n.natAbs < 10 ^ 21 then decimal n.natAbs else exponential n.natAbs

/-- `padStart(2, "0")`. -/
def padStart2 (t : Text) : Text := List.replicate (2 - t.length) 0x30 ++ t

-- Commits

def formatTimezone (offsetMinutes : Int) : Text :=
  let east := -offsetMinutes
  (if east < 0 then 0x2d else 0x2b) ::
    (padStart2 (formatNumber (east.natAbs / 60 : Nat)) ++
      padStart2 (formatNumber (east.natAbs % 60 : Nat)))

def formatPerson (person : Person) : Text :=
  person.name ++ text " <" ++ person.email ++ text "> " ++ formatNumber person.timestamp ++
    text " " ++ formatTimezone person.timezoneOffset

def commitLines (commit : Commit) : List Text :=
  [text "tree " ++ commit.tree] ++ commit.parent.map (text "parent " ++ ·) ++
    [text "author " ++ formatPerson commit.author,
      text "committer " ++ formatPerson commit.committer] ++
    (commit.gpgsig.map fun sig =>
      text "gpgsig " ++ List.intercalate (text "\n ") (sig.splitOn 0x0a)).toList

/-- The text `serializeCommit` encodes. -/
def commitText (commit : Commit) : Text :=
  List.intercalate (text "\n") (commitLines commit) ++ text "\n\n" ++ commit.message

def serializeCommit (commit : Commit) : List UInt8 := encode (commitText commit)

-- Reading numbers back

theorem toNat_digitUnit {d : Nat} (h : d < 10) : (digitUnit d).toNat = 0x30 + d :=
  toNat_toUInt16 (by omega)

theorem isDigit_iff : isDigit u = true ↔ 0x30 ≤ u.toNat ∧ u.toNat ≤ 0x39 := by
  simp [isDigit, UInt16.le_iff_toNat_le]

theorem isDigit_decimal {n : Nat} {u : UInt16} (h : u ∈ decimal n) : isDigit u = true := by
  unfold decimal at h
  split at h
  · rw [List.mem_singleton.1 h]
    decide
  · obtain ⟨d, hd, rfl⟩ := List.mem_map.1 h
    have := Nat.digits_lt_base (show 1 < 10 by omega) (List.mem_reverse.1 hd)
    rw [isDigit_iff, toNat_digitUnit this]
    omega

theorem decimal_ne_nil (n : Nat) : decimal n ≠ [] := by
  unfold decimal
  split
  · exact cons_ne_nil _ _
  · rename_i hn
    rw [Ne, List.map_eq_nil_iff, List.reverse_eq_nil_iff]
    exact Nat.digits_ne_nil_iff_ne_zero.2 hn

/-- Digits in front of a number count for its powers of ten. -/
theorem digitsValue_append (left right : Text) :
    digitsValue (left ++ right) = digitsValue left * 10 ^ right.length + digitsValue right := by
  induction right using List.reverseRecOn with
  | nil => simp [digitsValue]
  | append_singleton right u ih =>
    have hsnoc : ∀ t : Text, digitsValue (t ++ [u]) = digitsValue t * 10 + (u.toNat - 0x30) := by
      intro t
      simp [digitsValue]
    rw [← List.append_assoc, hsnoc, hsnoc, ih, List.length_append, List.length_singleton, pow_succ]
    ring

theorem digitsValue_decimal (n : Nat) : digitsValue (decimal n) = n := by
  unfold decimal
  split
  · rename_i h
    rw [h]
    rfl
  · have hdigits : ∀ ds : List Nat, (∀ d ∈ ds, d < 10) →
        digitsValue (ds.reverse.map digitUnit) = (Nat.ofDigits 10 ds : Nat) := by
      intro ds hds
      induction ds with
      | nil => rfl
      | cons d ds ih =>
        rw [List.reverse_cons, List.map_append, digitsValue_append,
          ih fun d hd => hds d (List.mem_cons_of_mem _ hd), Nat.ofDigits_cons]
        have hd := toNat_digitUnit (hds d List.mem_cons_self)
        simp only [List.map_cons, List.map_nil, digitsValue, List.foldl_cons, List.foldl_nil,
          List.length_cons, List.length_nil, hd]
        push_cast
        ring
    rw [hdigits _ fun d hd => Nat.digits_lt_base (by omega) hd, Nat.ofDigits_digits]

/-- A unit of a printed number. -/
def isNumeric (u : UInt16) : Bool := isDigit u || u = 0x2b || u = 0x2d

theorem isNumeric_iff :
    isNumeric u = true ↔ (0x30 ≤ u.toNat ∧ u.toNat ≤ 0x39) ∨ u.toNat = 0x2b ∨ u.toNat = 0x2d := by
  simp [isNumeric, isDigit_iff, ← UInt16.toNat_inj, or_assoc]

theorem not_isSpace_of_isNumeric (h : isNumeric u = true) : isSpace u = false := by
  rw [isNumeric_iff] at h
  rw [← Bool.not_eq_true]
  simp only [isSpace, Bool.or_eq_true, Bool.and_eq_true, decide_eq_true_eq, UInt16.le_iff_toNat_le,
    ← UInt16.toNat_inj, UInt16.reduceToNat]
  omega

theorem isNumeric_formatNumber {n : Int} (h : n.natAbs < 10 ^ 21) :
    ∀ u ∈ formatNumber n, isNumeric u = true := by
  intro u hu
  rw [formatNumber, if_pos h] at hu
  rcases mem_append.1 hu with hu | hu
  · split at hu
    · rw [List.mem_singleton.1 hu]
      decide
    · cases hu
  · rw [isNumeric, isDigit_decimal hu]
    rfl

theorem formatNumber_ne_nil {n : Int} (h : n.natAbs < 10 ^ 21) : formatNumber n ≠ [] := by
  rw [formatNumber, if_pos h]
  exact fun hnil => decimal_ne_nil _ (List.append_eq_nil_iff.1 hnil).2

theorem dropWhile_isSpace {t : Text} (h : ∀ u ∈ t.head?, isSpace u = false) :
    t.dropWhile isSpace = t := by
  cases t with
  | nil => rfl
  | cons u t => exact List.dropWhile_cons_of_neg (by rw [h u rfl]; exact Bool.false_ne_true)

theorem takeWhile_isDigit_decimal (n : Nat) : (decimal n).takeWhile isDigit = decimal n :=
  List.takeWhile_eq_self_iff.2 fun _ hu => isDigit_decimal hu

theorem parseInt10_formatNumber {n : Int} (h : n.natAbs < 10 ^ 21) :
    parseInt10 (formatNumber n) = some n := by
  have hspace : (formatNumber n).dropWhile isSpace = formatNumber n :=
    dropWhile_isSpace fun u hu => not_isSpace_of_isNumeric
      (isNumeric_formatNumber h u (List.mem_of_mem_head? hu))
  unfold parseInt10
  rw [hspace, formatNumber, if_pos h]
  by_cases hneg : n < 0
  · rw [if_pos hneg]
    simp only [List.singleton_append, if_true]
    rw [takeWhile_isDigit_decimal, if_neg (decimal_ne_nil _), digitsValue_decimal]
    congr 1
    omega
  · rw [if_neg hneg, List.nil_append]
    obtain ⟨u, t, ht⟩ := List.exists_cons_of_ne_nil (decimal_ne_nil n.natAbs)
    have hu := isDigit_iff.1 (isDigit_decimal (show u ∈ decimal n.natAbs by rw [ht]; simp))
    have hminus : u ≠ 0x2d := by
      rw [Ne, ← UInt16.toNat_inj]
      simp only [UInt16.reduceToNat]
      omega
    have hplus : u ≠ 0x2b := by
      rw [Ne, ← UInt16.toNat_inj]
      simp only [UInt16.reduceToNat]
      omega
    have hdigits := takeWhile_isDigit_decimal n.natAbs
    have hvalue := digitsValue_decimal n.natAbs
    rw [ht] at hdigits hvalue ⊢
    simp only [hminus, hplus, hdigits, hvalue, if_false, reduceCtorEq, Bool.false_eq_true,
      Option.some.injEq]
    omega

-- Reading identity lines back

/-- The end of an identity line. -/
def stampText (person : Person) : Text :=
  text " " ++ formatNumber person.timestamp ++ text " " ++ formatTimezone person.timezoneOffset

theorem formatPerson_eq (person : Person) : formatPerson person =
    person.name ++ 0x20 :: 0x3c :: (person.email ++ 0x3e :: stampText person) := by
  have hopen : text " <" = [0x20, 0x3c] := by decide
  have hclose : text "> " = 0x3e :: text " " := by decide
  simp [formatPerson, stampText, hopen, hclose]

theorem length_padStart2 (t : Text) : (padStart2 t).length = max 2 t.length := by
  rw [padStart2, List.length_append, List.length_replicate]
  omega

theorem digitsValue_padStart2 (n : Nat) : digitsValue (padStart2 (decimal n)) = n := by
  have hzeros : ∀ k, digitsValue (List.replicate k 0x30) = 0 := by
    intro k
    induction k with
    | zero => rfl
    | succ k ih =>
      rw [List.replicate_succ', digitsValue_append, ih]
      rfl
  rw [padStart2, digitsValue_append, hzeros, digitsValue_decimal]
  simp

theorem formatNumber_nat (h : n < 10 ^ 21) : formatNumber n = decimal n := by
  rw [formatNumber, if_neg (by omega), if_pos (by simpa using h)]
  rfl

theorem length_decimal_le (h : n < 100) : (decimal n).length ≤ 2 := by
  unfold decimal
  split
  · decide
  · rw [List.length_map, List.length_reverse]
    exact (Nat.digits_length_le_iff (by omega) n).2 (by omega)

theorem length_decimal_gt (h : 100 ≤ n) : 2 < (decimal n).length := by
  unfold decimal
  rw [if_neg (by omega), List.length_map, List.length_reverse]
  exact (Nat.lt_digits_length_iff (by omega) n).2 (by omega)

/-- The time `parsePerson` reads behind the e-mail. -/
def readTime (rest : Text) : Int :=
  let timestamp := (((trim rest).splitOn 0x20)[0]?.bind parseInt10).getD 0
  if isFinite timestamp then timestamp else 0

/-- The zone `parsePerson` reads behind the time. -/
def readZone (rest : Text) : Int :=
  match ((trim rest).splitOn 0x20)[1]? with
  | some zone =>
    if isZone zone then
      let minutes := digitsValue ((zone.drop 1).take 2) * 60 + digitsValue (zone.drop 3)
      if zone.head? = some 0x2d then minutes else -minutes
    else 0
  | none => 0

/-- An identity line is what its first ` <` and the next `>` make of it. -/
theorem parsePerson_cases (line : Text) :
    (∃ name email rest, line = name ++ 0x20 :: 0x3c :: (email ++ 0x3e :: rest) ∧
      indexOf (text " <") line = some name.length ∧ 0x3e ∉ email ∧
      parsePerson line = { name, email, timestamp := readTime rest
                           timezoneOffset := readZone rest }) ∨
    parsePerson line = { name := line, email := [], timestamp := 0, timezoneOffset := 0 } := by
  unfold parsePerson
  cases hopen : indexOf (text " <") line with
  | none => exact .inr rfl
  | some opening =>
    dsimp only
    cases hclose : indexOf (text ">") (line.drop (opening + 2)) with
    | none => exact .inr rfl
    | some length =>
      left
      obtain ⟨hle, htake⟩ := indexOf_le hopen
      obtain ⟨hle', htake'⟩ := indexOf_le hclose
      have hgt : text ">" = [0x3e] := by decide
      have hlt : text " <" = [0x20, 0x3c] := by decide
      rw [hgt] at htake' hle' hclose
      rw [hlt] at htake hle
      have hline : line = line.take opening ++ 0x20 :: 0x3c :: line.drop (opening + 2) := by
        conv_lhs => rw [← take_append_drop opening line, ← take_append_drop 2
          (line.drop opening)]
        rw [show (2 : Nat) = [(0x20 : UInt16), 0x3c].length from rfl, htake, drop_drop]
        rfl
      have hrest : line.drop (opening + 2) = (line.drop (opening + 2)).take length ++
          0x3e :: line.drop (opening + 2 + length + 1) := by
        conv_lhs => rw [← take_append_drop length (line.drop (opening + 2)),
          ← take_append_drop 1 ((line.drop (opening + 2)).drop length)]
        rw [show (1 : Nat) = [(0x3e : UInt16)].length from rfl, htake', drop_drop,
          drop_drop]
        rfl
      refine ⟨line.take opening, (line.drop (opening + 2)).take length,
        line.drop (opening + 2 + length + 1), ?_, ?_, ?_, ?_⟩
      · rw [← hrest]
        exact hline
      · rw [List.length_take, Nat.min_eq_left (by omega)]
      · exact not_mem_take_indexOf hclose
      · rw [Person.mk.injEq]
        exact ⟨rfl, rfl, rfl, rfl⟩

theorem parsePerson_cut {name email : Text} (rest : Text) (hname : indexOf (text " <") name = none)
    (hemail : 0x3e ∉ email) :
    parsePerson (name ++ 0x20 :: 0x3c :: (email ++ 0x3e :: rest)) =
      { name, email, timestamp := readTime rest, timezoneOffset := readZone rest } := by
  have hopen : indexOf (text " <") (name ++ 0x20 :: 0x3c :: (email ++ 0x3e :: rest)) =
      some name.length := by
    rw [show text " <" = [0x20, 0x3c] by decide] at hname ⊢
    exact indexOf_pair _ hname fun _ => by decide
  have hdrop : ∀ more : Text, (name ++ 0x20 :: 0x3c :: more).drop (name.length + 2) = more := by
    intro more
    rw [← drop_drop, drop_left]
    rfl
  have hdrop' : (name ++ 0x20 :: 0x3c :: (email ++ 0x3e :: rest)).drop
      (name.length + 2 + email.length + 1) = rest := by
    rw [Nat.add_assoc, ← drop_drop, hdrop, ← drop_drop, drop_left]
    rfl
  unfold parsePerson
  rw [hopen]
  dsimp only
  rw [hdrop, show text ">" = [0x3e] by decide, indexOf_unit rest hemail]
  dsimp only
  rw [hdrop', take_left, take_left]
  rw [Person.mk.injEq]
  exact ⟨rfl, rfl, rfl, rfl⟩

-- Stamps

theorem formatTimezone_eq (h : offset.natAbs < 10 ^ 21) :
    formatTimezone offset = (if 0 < offset then 0x2d else 0x2b) ::
      (padStart2 (decimal (offset.natAbs / 60)) ++ padStart2 (decimal (offset.natAbs % 60))) := by
  have hsign : (-offset < 0) = (0 < offset) := by
    rw [eq_iff_iff]
    omega
  simp only [formatTimezone, Int.natAbs_neg, hsign]
  rw [formatNumber_nat (by omega), formatNumber_nat (by omega)]

theorem isDigit_padStart2 (h : u ∈ padStart2 (decimal n)) : isDigit u = true := by
  rcases mem_append.1 h with h | h
  · rw [List.eq_of_mem_replicate h]
    decide
  · exact isDigit_decimal h

theorem isNumeric_formatTimezone (h : offset.natAbs < 10 ^ 21) :
    ∀ u ∈ formatTimezone offset, isNumeric u = true := by
  intro u hu
  rw [formatTimezone_eq h] at hu
  rcases List.mem_cons.1 hu with rfl | hu
  · split <;> decide
  · rw [isNumeric]
    rcases mem_append.1 hu with hu | hu <;> rw [isDigit_padStart2 hu] <;> rfl

/-- Hours of two digits make a zone of four. -/
theorem isZone_formatTimezone (h : offset.natAbs < 10 ^ 21) :
    isZone (formatTimezone offset) = true ↔ offset.natAbs < 6000 := by
  have hminutes : (padStart2 (decimal (offset.natAbs % 60))).length = 2 := by
    rw [length_padStart2]
    have := length_decimal_le (show offset.natAbs % 60 < 100 by omega)
    omega
  have hall : ∀ u ∈ padStart2 (decimal (offset.natAbs / 60)) ++
      padStart2 (decimal (offset.natAbs % 60)), isDigit u = true := by
    intro u hu
    rcases mem_append.1 hu with hu | hu <;> exact isDigit_padStart2 hu
  rw [formatTimezone_eq h]
  simp only [isZone, Bool.and_eq_true, decide_eq_true_eq, List.all_eq_true, List.length_append,
    hminutes, length_padStart2]
  constructor
  · rintro ⟨⟨-, hlength⟩, -⟩
    by_contra hge
    have := length_decimal_gt (show 100 ≤ offset.natAbs / 60 by omega)
    omega
  · intro hlt
    have := length_decimal_le (show offset.natAbs / 60 < 100 by omega)
    refine ⟨⟨?_, by omega⟩, hall⟩
    split <;> decide

theorem zone_minutes (h : offset.natAbs < 6000) :
    digitsValue (((formatTimezone offset).drop 1).take 2) * 60 +
      digitsValue ((formatTimezone offset).drop 3) = offset.natAbs := by
  have hlength : (padStart2 (decimal (offset.natAbs / 60))).length = 2 := by
    rw [length_padStart2]
    have := length_decimal_le (show offset.natAbs / 60 < 100 by omega)
    omega
  rw [formatTimezone_eq (by omega)]
  simp only [List.drop_succ_cons, List.drop_zero]
  rw [← hlength, take_left, drop_left, digitsValue_padStart2, digitsValue_padStart2]
  push_cast
  omega

theorem trim_stampText (htime : person.timestamp.natAbs < 10 ^ 21)
    (hzone : person.timezoneOffset.natAbs < 10 ^ 21) :
    (trim (stampText person)).splitOn 0x20 =
      [formatNumber person.timestamp, formatTimezone person.timezoneOffset] := by
  have hspace : ∀ {t : Text}, (∀ u ∈ t, isNumeric u = true) → (0x20 : UInt16) ∉ t := by
    intro t ht hmem
    exact absurd (ht _ hmem) (by decide)
  have htimeNumeric := isNumeric_formatNumber htime
  have hzoneNumeric := isNumeric_formatTimezone hzone
  obtain ⟨u, t, ht⟩ := List.exists_cons_of_ne_nil (formatNumber_ne_nil htime)
  obtain ⟨z, hz⟩ : ∃ z, (formatTimezone person.timezoneOffset).getLast? = some z := by
    rw [formatTimezone_eq hzone]
    exact ⟨_, List.getLast?_eq_some_getLast (cons_ne_nil _ _)⟩
  have htrim : trim (stampText person) = formatNumber person.timestamp ++
      0x20 :: formatTimezone person.timezoneOffset := by
    have hleft : (stampText person).dropWhile isSpace = formatNumber person.timestamp ++
        0x20 :: formatTimezone person.timezoneOffset := by
      have htext : stampText person = 0x20 :: (formatNumber person.timestamp ++
          0x20 :: formatTimezone person.timezoneOffset) := by
        simp [stampText, show text " " = [0x20] by decide]
      rw [htext, List.dropWhile_cons_of_pos (by decide)]
      refine dropWhile_isSpace fun v hv => ?_
      rw [ht, List.cons_append, List.head?_cons, Option.mem_some_iff] at hv
      exact not_isSpace_of_isNumeric (htimeNumeric v (by rw [ht, hv]; exact List.mem_cons_self))
    unfold trim
    rw [hleft, dropWhile_isSpace, List.reverse_reverse]
    intro v hv
    rw [List.head?_reverse, List.getLast?_append_of_ne_nil _ (cons_ne_nil _ _),
      List.getLast?_cons, hz, Option.getD_some, Option.mem_some_iff] at hv
    exact not_isSpace_of_isNumeric (hzoneNumeric v (by rw [← hv]; exact List.mem_of_getLast? hz))
  rw [htrim, List.splitOn_append_cons_self_of_not_mem (hspace htimeNumeric),
    List.splitOn_eq_singleton (hspace hzoneNumeric)]

theorem readTime_stampText (htime : isSafeInteger person.timestamp = true)
    (hzone : person.timezoneOffset.natAbs < 10 ^ 21) :
    readTime (stampText person) = person.timestamp := by
  rw [isSafeInteger_iff] at htime
  unfold maxSafeInteger at htime
  have hplain : person.timestamp.natAbs < 10 ^ 21 := by omega
  have hfinite := isFinite_of_lt (show person.timestamp.natAbs < 2 ^ 53 by omega)
  unfold readTime
  rw [trim_stampText hplain hzone]
  simp only [List.getElem?_cons_zero, Option.bind_some, parseInt10_formatNumber hplain,
    Option.getD_some, hfinite, if_true]

/-- The zone is read back, but for a hundred hours or more. -/
theorem readZone_stampText (htime : person.timestamp.natAbs < 10 ^ 21)
    (hzone : person.timezoneOffset.natAbs < 10 ^ 21) :
    readZone (stampText person) =
      if person.timezoneOffset.natAbs < 6000 then person.timezoneOffset else 0 := by
  unfold readZone
  rw [trim_stampText htime hzone]
  simp only [List.getElem?_cons_zero, List.getElem?_cons_succ]
  by_cases hsmall : person.timezoneOffset.natAbs < 6000
  · have hhead : (formatTimezone person.timezoneOffset).head? = some 0x2d ↔
        0 < person.timezoneOffset := by
      rw [formatTimezone_eq hzone, List.head?_cons, Option.some.injEq]
      split <;> simp_all
    rw [if_pos ((isZone_formatTimezone hzone).2 hsmall), if_pos hsmall, zone_minutes hsmall]
    by_cases hpos : 0 < person.timezoneOffset
    · rw [if_pos (hhead.2 hpos)]
      omega
    · rw [if_neg fun h => hpos (hhead.1 h)]
      omega
  · rw [if_neg fun h => hsmall ((isZone_formatTimezone hzone).1 h), if_neg hsmall]

end Kompjutr.Objects
