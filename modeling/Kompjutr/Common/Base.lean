/-
  Kompjutr.Common.Base

  What every part of the program uses: its errors (`common/errors.ts`) and the
  range in which the language counts exactly.
-/
import Mathlib.Algebra.Group.Int.Defs
import Mathlib.Algebra.GroupWithZero.Nat

namespace Kompjutr

/-- A `GitError`: its code and its message. -/
structure GitError where
  code : String
  message : String
  deriving DecidableEq

/-- A `CorruptError`. -/
def corrupt (message : String) : GitError := { code := "ECORRUPT", message }

/-- A `RangeError` of the language. -/
def rangeError (message : String) : GitError := { code := "RangeError", message }

/-- `if (condition) throw error`. -/
def reject (condition : Bool) (error : GitError) : Except GitError Unit :=
  if condition then .error error else .ok ()

@[simp] theorem reject_eq_ok {condition : Bool} {error : GitError} {u : Unit} :
    reject condition error = .ok u ↔ condition = false := by
  cases condition with
  | true => exact ⟨fun h => (nomatch h), fun h => (nomatch h)⟩
  | false => exact ⟨fun _ => rfl, fun _ => rfl⟩

/-- `Number.MAX_SAFE_INTEGER`. -/
def maxSafeInteger : Int := 2 ^ 53 - 1

/-- `Number.isSafeInteger`. -/
def isSafeInteger (n : Int) : Bool := -maxSafeInteger ≤ n && n ≤ maxSafeInteger

theorem isSafeInteger_iff {n : Int} :
    isSafeInteger n = true ↔ -maxSafeInteger ≤ n ∧ n ≤ maxSafeInteger := by
  unfold isSafeInteger
  rw [Bool.and_eq_true]
  exact and_congr decide_eq_true_iff decide_eq_true_iff

end Kompjutr
