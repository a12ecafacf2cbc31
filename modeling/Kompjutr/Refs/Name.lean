/-
  Kompjutr.Refs.Name

  The text of ref names and of everything that is stored beside them:
  `common/ref-name.ts` and `store/refs/ref-validation.ts`.
-/
import Kompjutr.Lib.Utf8Encode
import Kompjutr.Objects.Commit

namespace Kompjutr.Refs

open Objects (Text text isOid)
open Utf8 (isHigh isLow WellFormed)

variable {bytes : Nat} {value : Text}

inductive RefTextProblem where
  | invalidCharacter | noncanonicalUtf16 | tooLong
  deriving DecidableEq

structure RefTextCheck where
  bytes : Nat
  problem : Option RefTextProblem
  deriving DecidableEq

/-- `bytes > limit`, where there is a limit. -/
def exceeds (bytes : Nat) : Option Nat → Bool
  | none => false
  | some limit => limit < bytes

/-- The bytes of a unit that is no surrogate. -/
def unitBytes (unit : UInt16) : Nat := if unit < 0x80 then 1 else if unit < 0x800 then 2 else 3

/-- The loop of `checkRefText` from one index on. -/
def checkRefTextFrom (limit : Option Nat) (bytes : Nat) : Text → RefTextCheck
  | [] => { bytes, problem := none }
  | unit :: rest =>
    if unit = 0 || unit = 0x0a || unit = 0x0d then { bytes, problem := some .invalidCharacter }
    else if isHigh unit then
      match rest with
      | [] => { bytes, problem := some .noncanonicalUtf16 }
      | low :: rest =>
        if !isLow low then { bytes, problem := some .noncanonicalUtf16 }
        else if exceeds (bytes + 4) limit then { bytes := bytes + 4, problem := some .tooLong }
        else checkRefTextFrom limit (bytes + 4) rest
    else if isLow unit then { bytes, problem := some .noncanonicalUtf16 }
    else if exceeds (bytes + unitBytes unit) limit then
      { bytes := bytes + unitBytes unit, problem := some .tooLong }
    else checkRefTextFrom limit (bytes + unitBytes unit) rest

def checkRefText (value : Text) (limit : Option Nat) : RefTextCheck :=
  checkRefTextFrom limit 0 value

-- Syntax

/-- `value.endsWith(suffix, index)`. -/
def endsWithAt (value suffix : Text) (index : Nat) : Bool := suffix.isSuffixOf (value.take index)

/-- The units `check-ref-format` excludes, a wildcard apart. -/
def isExcluded (code : UInt16) : Bool := (text " ~^:?*[\\").contains code

/-- The loop over one name; `none` where the source returns `false` inside it. -/
def refComponents (value : Text) (wildcard : Option Nat) (componentStart index : Nat) :
    Text → Option Nat
  | [] => some componentStart
  | code :: rest =>
    if code = 0x2f then
      if index = componentStart || value[componentStart]? = some 0x2e ||
          endsWithAt value (text ".lock") index then none
      else refComponents value wildcard (index + 1) (index + 1) rest
    else
      let next := value[index + 1]?
      if (code = 0x2e && next = some 0x2e) || (code = 0x40 && next = some 0x7b) then none
      else if code < 0x20 || code = 0x7f || (isExcluded code && wildcard ≠ some index) then none
      else refComponents value wildcard componentStart (index + 1) rest

def hasCanonicalRefSyntaxWithWildcard (value : Text) (wildcard : Option Nat) (start stop : Nat) :
    Bool :=
  if stop ≤ start || value.length < stop then false
  else if (stop - start = 1 && value[start]? = some 0x40) || value[start]? = some 0x2f ||
      value[stop - 1]? = some 0x2f || value[stop - 1]? = some 0x2e ||
      (text "ref: ").isPrefixOf (value.drop start) then false
  else
    match refComponents value wildcard start start ((value.drop start).take (stop - start)) with
    | none => false
    | some componentStart =>
      value[componentStart]? ≠ some 0x2e && !endsWithAt value (text ".lock") stop

def hasCanonicalRefSyntax (value : Text) (start : Nat) : Bool :=
  hasCanonicalRefSyntaxWithWildcard value none start value.length

-- Stored values

def invalidRefValue (message : String) : GitError := { code := "EINVAL", message }

def refTextBytes (value : Text) (label : String) : Except GitError Nat :=
  match (checkRefText value none).problem with
  | some .invalidCharacter => throw (invalidRefValue s!"{label} contains an invalid character")
  | some .noncanonicalUtf16 => throw (invalidRefValue s!"{label} is not canonical UTF-16")
  | _ => pure (checkRefText value none).bytes

def requireRefName (value : Text) (label : String) (allowHead : Bool) : Except GitError Text := do
  if value = [] || (!allowHead && value = text "HEAD") then
    throw (invalidRefValue s!"{label} is invalid")
  let _ ← refTextBytes value label
  if !hasCanonicalRefSyntax value 0 then throw (invalidRefValue s!"{label} is invalid")
  return value

def hasRawSymbolicTarget (value : Text) : Bool :=
  (text "ref: ").isPrefixOf value && 5 < value.length &&
    !(value.length = 9 && (text "HEAD").isSuffixOf value) && hasCanonicalRefSyntax value 5

def rawSymbolicTarget (value : Text) : Option Text :=
  if hasRawSymbolicTarget value then some (value.drop 5) else none

def requireRawRefTarget (value : Text) (label : String) : Except GitError Text := do
  if value = [] then throw (invalidRefValue s!"{label} is invalid")
  let _ ← refTextBytes value label
  if isOid value then return value
  if !hasRawSymbolicTarget value then
    throw (invalidRefValue s!"{label} is not an OID or symbolic ref")
  return value

-- What a checked text is

/-- The units no stored text has. -/
def isBreak (unit : UInt16) : Bool := unit = 0 || unit = 0x0a || unit = 0x0d

/-- A text without a problem: it has none of the excluded units and no unpaired surrogate. -/
theorem checkRefTextFrom_sound {limit : Option Nat}
    (h : (checkRefTextFrom limit bytes value).problem = none) :
    (∀ unit ∈ value, isBreak unit = false) ∧ WellFormed value := by
  fun_induction checkRefTextFrom limit bytes value with
  | case1 => exact ⟨nofun, Utf8.wellFormed_nil⟩
  | case2 => cases h
  | case3 => cases h
  | case4 => cases h
  | case5 => cases h
  | case6 bytes unit hbreak hhigh low rest hlow _ ih =>
    obtain ⟨hrest, hformed⟩ := ih h
    rw [Bool.not_eq_true, Bool.not_eq_false'] at hlow
    refine ⟨?_, (Utf8.wellFormed_pair hhigh hlow rest).2 hformed⟩
    -- the second half of the pair is a low surrogate, no break
    have hlow' := Utf8.isLow_iff.1 hlow
    have hpaired : isBreak low = false := by
      unfold isBreak
      simp only [Bool.or_eq_false_iff, decide_eq_false_iff_not]
      refine ⟨⟨?_, ?_⟩, ?_⟩ <;> (rintro rfl; exact absurd hlow (by decide))
    intro u hu
    rcases List.mem_cons.1 hu with rfl | hu
    · exact Bool.eq_false_iff.2 hbreak
    · rcases List.mem_cons.1 hu with rfl | hu
      · exact hpaired
      · exact hrest u hu
  | case7 => cases h
  | case8 => cases h
  | case9 bytes unit rest hbreak hhigh hlow _ ih =>
    obtain ⟨hrest, hformed⟩ := ih h
    have hplain : ¬ (isHigh unit || isLow unit) = true := by
      rw [Bool.or_eq_true]
      exact not_or.2 ⟨hhigh, hlow⟩
    refine ⟨?_, (Utf8.wellFormed_cut [] rest hplain).2 ⟨Utf8.wellFormed_nil, hformed⟩⟩
    intro u hu
    rcases List.mem_cons.1 hu with rfl | hu
    · exact Bool.eq_false_iff.2 hbreak
    · exact hrest u hu

theorem refTextBytes_ok {label : String}
    (h : refTextBytes value label = .ok bytes) : (checkRefText value none).problem = none := by
  have hlimit : ∀ bytes value, (checkRefTextFrom none bytes value).problem ≠ some .tooLong := by
    intro bytes value
    fun_induction checkRefTextFrom none bytes value <;> simp_all [exceeds]
  unfold refTextBytes at h
  split at h
  · cases h
  · cases h
  · next hfirst hsecond =>
    cases hproblem : (checkRefText value none).problem with
    | none => rfl
    | some problem =>
      cases problem with
      | invalidCharacter => exact absurd hproblem hfirst
      | noncanonicalUtf16 => exact absurd hproblem hsecond
      | tooLong => exact absurd hproblem (hlimit 0 value)

end Kompjutr.Refs
