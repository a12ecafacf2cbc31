/-
  Kompjutr.Sort.Compare

  The orderings of `sort` keys over byte ranges (`shell/commands/sort/compare.ts`).

  Numbers compare as exact decimals.  Version order follows the host's `sort -V`: it alternates runs
  of text and of digits, and ignores a file suffix unless two names differ only there.
-/
import Mathlib.Data.List.Basic

namespace Kompjutr.Sort

inductive SortMode where
  | text
  | numeric
  | human
  | version
  deriving DecidableEq

structure KeyOptions where
  blanksAtStart : Bool
  blanksAtEnd : Bool
  dictionary : Bool
  fold : Bool
  mode : SortMode
  reverse : Bool
  deriving DecidableEq

/-- `DEFAULT_OPTIONS`. -/
def defaultOptions : KeyOptions :=
  { blanksAtStart := false, blanksAtEnd := false, dictionary := false, fold := false, mode := .text
    reverse := false }

/-- A line, or one key of it. -/
structure Span where
  bytes : List UInt8
  start : Nat
  stop : Nat
  deriving DecidableEq

def Span.content (span : Span) : List UInt8 :=
  (span.bytes.drop span.start).take (span.stop - span.start)

-- Bytes

/-- Space, tab, and the other ASCII white space. -/
def isBlank (byte : UInt8) : Bool := byte = 0x20 || (0x09 ≤ byte && byte ≤ 0x0d)

def isDigit (byte : UInt8) : Bool := 0x30 ≤ byte && byte ≤ 0x39

def isAlpha (byte : UInt8) : Bool := (0x41 ≤ byte && byte ≤ 0x5a) || (0x61 ≤ byte && byte ≤ 0x7a)

def isAlphanumeric (byte : UInt8) : Bool := isDigit byte || isAlpha byte

/-- The order of two bytes. -/
def compareByte (a b : UInt8) : Int := (a.toNat : Int) - b.toNat

/-- `compareBytes`. -/
def compareBytes : List UInt8 → List UInt8 → Int
  | a :: left, b :: right => if compareByte a b ≠ 0 then compareByte a b else compareBytes left right
  | left, right => (left.length : Int) - right.length

def ignored (options : KeyOptions) (byte : UInt8) : Bool :=
  options.dictionary && !(isAlphanumeric byte || byte = 0x20 || byte = 0x09)

def translated (options : KeyOptions) (byte : UInt8) : UInt8 :=
  if options.fold && 0x61 ≤ byte && byte ≤ 0x7a then byte - 0x20 else byte

def compareFiltered (options : KeyOptions) (left right : List UInt8) : Int :=
  match _hl : left.dropWhile (ignored options), right.dropWhile (ignored options) with
  | a :: left', b :: right' =>
    if compareByte (translated options a) (translated options b) ≠ 0 then
      compareByte (translated options a) (translated options b)
    else compareFiltered options left' right'
  | left', right' => (if left' = [] then 0 else 1) - if right' = [] then 0 else 1
termination_by left.length
decreasing_by
  have hle := (left.dropWhile_sublist (ignored options)).length_le
  rw [_hl, List.length_cons] at hle
  omega

def filtered (options : KeyOptions) (span : Span) : Span :=
  let out := (span.content.filter fun byte => !ignored options byte).map (translated options)
  { bytes := out, start := 0, stop := out.length }

-- Numbers

structure Decimal where
  negative : Bool
  /-- Without leading zeros. -/
  integer : List UInt8
  /-- Without trailing zeros. -/
  fraction : List UInt8
  bytes : List UInt8
  /-- Where parsing stopped. -/
  stop : Nat
  deriving DecidableEq

/-- Whether a number is negative, and what follows its sign. -/
def signOf (plus : Bool) (text : List UInt8) : Bool × List UInt8 :=
  match text with
  | [] => (false, [])
  | u :: rest =>
    if u = 0x2d then (true, rest) else if plus && u = 0x2b then (false, rest) else (false, text)

/-- The digits behind a point, and what follows them. -/
def fractionOf (text : List UInt8) : List UInt8 × List UInt8 :=
  match text with
  | [] => ([], [])
  | u :: rest => if u = 0x2e then (rest.takeWhile isDigit, rest.dropWhile isDigit) else ([], text)

/-- Leading blanks, an optional sign, digits, and one optional point with more digits. -/
def decimal (span : Span) (plus : Bool) : Decimal :=
  let signed := signOf plus (span.content.dropWhile isBlank)
  let integer := (signed.2.takeWhile isDigit).dropWhile (· = 0x30)
  let rest := fractionOf (signed.2.dropWhile isDigit)
  let fraction := (rest.1.reverse.dropWhile (· = 0x30)).reverse
  { negative := signed.1 && !(integer = [] && fraction = [])
    integer, fraction, bytes := span.bytes, stop := span.stop - rest.2.length }

def compareMagnitudes (left right : Decimal) : Int :=
  if left.integer.length ≠ right.integer.length then
    (left.integer.length : Int) - right.integer.length
  else if compareBytes left.integer right.integer ≠ 0 then compareBytes left.integer right.integer
  else compareBytes left.fraction right.fraction

def compareDecimals (left right : Decimal) : Int :=
  if left.negative ≠ right.negative then if left.negative then -1 else 1
  else if left.negative then -compareMagnitudes left right
  else compareMagnitudes left right

/-- `[+-]?([0-9]+\.?[0-9]*|\.[0-9]+)` and nothing else. -/
def isPlainNumber (span : Span) : Bool :=
  let text := match span.content with
    | [] => []
    | u :: rest => if u = 0x2b || u = 0x2d then rest else u :: rest
  let rest := fractionOf (text.dropWhile isDigit)
  0 < (text.takeWhile isDigit).length + rest.1.length && rest.2 = []

/-- Two whole lines that are both plain numbers; that path admits a leading `+`. -/
def comparePlainNumbers (left right : Span) : Option Int :=
  if !isPlainNumber left || !isPlainNumber right then none
  else some (compareDecimals (decimal left true) (decimal right true))

/-- `UNIT_ORDER`. -/
def unitIndex (byte : UInt8) : Int :=
  match byte with
  | 0x4b => 1 | 0x6b => 1 | 0x4d => 2 | 0x47 => 3 | 0x54 => 4 | 0x50 => 5 | 0x45 => 6 | 0x5a => 7
  | 0x59 => 8 | 0x52 => 9 | 0x51 => 10 | _ => 0

def unitOrder (number : Decimal) : Int :=
  if number.integer = [] ∧ number.fraction = [] then 0
  else
    let order := unitIndex (number.bytes[number.stop]?.getD 0)
    if number.negative then -order else order

def compareHuman (left right : Span) : Int :=
  let a := decimal left false
  let b := decimal right false
  if unitOrder a - unitOrder b ≠ 0 then unitOrder a - unitOrder b else compareDecimals a b

-- Versions

def tilde : UInt8 := 0x7e

/-- Two runs of text: `~` sorts before everything, the end of a run included, and letters before
    other bytes. -/
def compareVersionText : List UInt8 → List UInt8 → Int
  | [], [] => 0
  | [], b :: _ => if b = tilde then 1 else -1
  | a :: _, [] => if a = tilde then -1 else 1
  | a :: left, b :: right =>
    if a = b then compareVersionText left right
    else if b = tilde then 1
    else if a = tilde then -1
    else if isAlpha a ≠ isAlpha b then if isAlpha a then -1 else 1
    else compareByte a b

/-- The digits that a version goes on with behind its text, without leading zeros. -/
def significant (text : List UInt8) : List UInt8 :=
  ((text.dropWhile fun byte => !isDigit byte).takeWhile isDigit).dropWhile (· = 0x30)

/-- One round of the loop: a run of text, and a run of digits by its value. -/
def compareRun (left right : List UInt8) : Int :=
  let text := compareVersionText (left.takeWhile fun byte => !isDigit byte)
    (right.takeWhile fun byte => !isDigit byte)
  if text ≠ 0 then text
  else if (significant left).length ≠ (significant right).length then
    ((significant left).length : Int) - (significant right).length
  else compareBytes (significant left) (significant right)

def afterRun (text : List UInt8) : List UInt8 :=
  (text.dropWhile fun byte => !isDigit byte).dropWhile isDigit

theorem length_afterRun {text : List UInt8} (h : text ≠ []) :
    (afterRun text).length < text.length := by
  obtain ⟨u, rest, rfl⟩ := List.exists_cons_of_ne_nil h
  have hdigits : ∀ l : List UInt8, (l.dropWhile isDigit).length ≤ l.length :=
    fun l => (l.dropWhile_sublist isDigit).length_le
  have htext : ∀ l : List UInt8, (l.dropWhile fun byte => !isDigit byte).length ≤ l.length :=
    fun l => (l.dropWhile_sublist _).length_le
  have hrest := htext rest
  unfold afterRun
  by_cases hu : isDigit u = true
  · rw [List.dropWhile_cons_of_neg (by simp [hu]), List.dropWhile_cons_of_pos hu, List.length_cons]
    exact Nat.lt_succ_of_le (hdigits rest)
  · rw [List.dropWhile_cons_of_pos (by simp [hu]), List.length_cons]
    exact Nat.lt_succ_of_le (Nat.le_trans (hdigits _) hrest)

def compareRuns (left right : List UInt8) : Int :=
  if _h : left = [] ∧ right = [] then 0
  else if compareRun left right ≠ 0 then compareRun left right
  else compareRuns (afterRun left) (afterRun right)
termination_by left.length + right.length
decreasing_by
  have hnil : (afterRun []).length = 0 := rfl
  rcases not_and_or.1 _h with hl | hr
  · have hleft := length_afterRun hl
    by_cases hr : right = []
    · rw [hr, hnil]
      omega
    · have hright := length_afterRun hr
      omega
  · have hright := length_afterRun hr
    by_cases hl : left = []
    · rw [hl, hnil]
      omega
    · have hleft := length_afterRun hl
      omega

/-- The state of the scan for a file suffix. -/
structure SuffixScan where
  position : Nat
  suffixStart : Option Nat
  afterDot : Bool
  deriving DecidableEq

def scanSuffix (scan : SuffixScan) (byte : UInt8) : SuffixScan :=
  { position := scan.position + 1
    suffixStart :=
      if byte = 0x2e then
        if scan.suffixStart = none || scan.afterDot then some scan.position else scan.suffixStart
      else if scan.afterDot then
        if !isAlpha byte && byte ≠ tilde then none else scan.suffixStart
      else if !isAlphanumeric byte && byte ≠ tilde then none
      else scan.suffixStart
    afterDot := byte = 0x2e }

/-- A name without the suffix that matches `(\.[A-Za-z~][A-Za-z0-9~]*)*$`. -/
def withoutSuffix (text : List UInt8) : List UInt8 :=
  let scan := text.foldl scanSuffix { position := 0, suffixStart := none, afterDot := false }
  match scan.suffixStart with
  | some suffixStart => if scan.afterDot then text else text.take suffixStart
  | none => text

/-- `SPECIAL_NAMES`. -/
def specialNames : List (List UInt8) := [[], [0x2e], [0x2e, 0x2e]]

def compareSpecial (left right : List UInt8) : List (List UInt8) → Int
  | [] => 0
  | special :: specials =>
    let difference := (if left = special then 0 else 1) - if right = special then 0 else 1
    if difference ≠ 0 then difference else compareSpecial left right specials

def startsWithDot (text : List UInt8) : Bool := text.head? = some 0x2e

def withoutDot (text : List UInt8) : List UInt8 := if startsWithDot text then text.tail else text

/-- Follows the host's `sort -V`. -/
def compareVersions (left right : List UInt8) : Int :=
  if compareBytes left right = 0 then 0
  else if compareSpecial left right specialNames ≠ 0 then compareSpecial left right specialNames
  else if startsWithDot left ≠ startsWithDot right then if startsWithDot left then -1 else 1
  else
    let aStem := withoutSuffix (withoutDot left)
    let bStem := withoutSuffix (withoutDot right)
    if compareBytes aStem bStem ≠ 0 then compareRuns aStem bStem
    else compareRuns (withoutDot left) (withoutDot right)

-- Spans

/-- A key as `-d` and `-f` leave it, before a number is read. -/
def prepared (options : KeyOptions) (span : Span) : Span :=
  if options.dictionary || options.fold then filtered options span else span

def compareSpans (left right : Span) (options : KeyOptions) : Int :=
  match options.mode with
  | .text =>
    if options.dictionary || options.fold then compareFiltered options left.content right.content
    else compareBytes left.content right.content
  | .version => compareVersions left.content right.content
  | .numeric =>
    compareDecimals (decimal (prepared options left) false) (decimal (prepared options right) false)
  | .human => compareHuman (prepared options left) (prepared options right)

end Kompjutr.Sort
