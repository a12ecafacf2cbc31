/-
  Kompjutr.Lib.Patch

  Patches of lines: hunks, each with the places it has in the two files, and what it means to
  apply them.
-/
import Mathlib.Data.List.Basic

namespace Kompjutr.Patch

variable {α : Type}

inductive Mark where
  | context | removed | added
  deriving DecidableEq

structure PatchLine (α : Type) where
  mark : Mark
  line : α
  deriving DecidableEq

/-- The starts count from one, as patches do. -/
structure Hunk (α : Type) where
  oldStart : Int
  oldCount : Int
  newStart : Int
  newCount : Int
  body : List (PatchLine α)
  deriving DecidableEq

/-- The lines of the old file that a body shows. -/
def oldLines (body : List (PatchLine α)) : List α :=
  (body.filter fun line => line.mark ≠ .added).map PatchLine.line

/-- The lines of the new file that a body shows. -/
def newLines (body : List (PatchLine α)) : List α :=
  (body.filter fun line => line.mark ≠ .removed).map PatchLine.line

/-- How many lines are before a range.  A range without lines is named by the line before it. -/
def linesBefore (start count : Int) : Int := if count = 0 then start else start - 1

/-- The counts of a header are those of its body. -/
def Hunk.Counted (hunk : Hunk α) : Prop :=
  hunk.oldCount = (oldLines hunk.body).length ∧ hunk.newCount = (newLines hunk.body).length

instance (hunk : Hunk α) : Decidable hunk.Counted :=
  inferInstanceAs (Decidable (_ ∧ _))

section

variable [DecidableEq α]

/-- What a body makes of the lines at its place, and the lines after it.  Context and removed lines
    have to be there. -/
def applyBody : List (PatchLine α) → List α → Option (List α × List α)
  | [], old => some ([], old)
  | { mark := .added, line } :: body, old =>
    (applyBody body old).map fun applied => (line :: applied.1, applied.2)
  | { mark := .removed, line } :: body, found :: old =>
    if found = line then applyBody body old else none
  | { mark := .context, line } :: body, found :: old =>
    if found = line then (applyBody body old).map fun applied => (line :: applied.1, applied.2)
    else none
  | _ :: _, [] => none

/-- Apply hunks in order.  `oldDone` and `newDone` lines are before the lines at hand. -/
def applyHunks : (oldDone newDone : Int) → List (Hunk α) → List α → Option (List α)
  | _, _, [], old => some old
  | oldDone, newDone, hunk :: hunks, old =>
    let gap := linesBefore hunk.oldStart hunk.oldCount - oldDone
    if 0 ≤ gap ∧ gap ≤ old.length ∧ linesBefore hunk.newStart hunk.newCount = newDone + gap ∧
        hunk.Counted then
      match applyBody hunk.body (old.drop gap.toNat) with
      | none => none
      | some (applied, rest) =>
        (applyHunks (oldDone + gap + hunk.oldCount) (newDone + gap + hunk.newCount) hunks rest).map
          fun more => old.take gap.toNat ++ applied ++ more
    else none

/-- Apply a patch to a file. -/
def applyPatch (hunks : List (Hunk α)) (old : List α) : Option (List α) := applyHunks 0 0 hunks old

/-- A body turns the lines it shows of the old file into those of the new one. -/
theorem applyBody_lines (body : List (PatchLine α)) (rest : List α) :
    applyBody body (oldLines body ++ rest) = some (newLines body, rest) := by
  induction body with
  | nil => rfl
  | cons first body ih =>
    obtain ⟨mark, line⟩ := first
    cases mark with
    | context =>
      have hlines : oldLines ({ mark := .context, line } :: body) ++ rest =
          line :: (oldLines body ++ rest) := rfl
      rw [hlines, applyBody, if_pos rfl, ih]
      rfl
    | removed =>
      have hlines : oldLines ({ mark := .removed, line } :: body) ++ rest =
          line :: (oldLines body ++ rest) := rfl
      rw [hlines, applyBody, if_pos rfl, ih]
      rfl
    | added =>
      have hlines : oldLines ({ mark := .added, line } :: body) ++ rest = oldLines body ++ rest :=
        rfl
      rw [hlines, applyBody, ih]
      rfl

/-- A hunk at its place, behind lines that both files have. -/
theorem applyHunks_cons {oldDone newDone : Int} {hunk : Hunk α} {hunks : List (Hunk α)}
    {gap old new : List α} (hcounted : hunk.Counted)
    (hold : linesBefore hunk.oldStart hunk.oldCount = oldDone + gap.length)
    (hnew : linesBefore hunk.newStart hunk.newCount = newDone + gap.length)
    (hrest : applyHunks (oldDone + gap.length + hunk.oldCount) (newDone + gap.length + hunk.newCount)
      hunks old = some new) :
    applyHunks oldDone newDone (hunk :: hunks) (gap ++ (oldLines hunk.body ++ old)) =
      some (gap ++ (newLines hunk.body ++ new)) := by
  have hgap : linesBefore hunk.oldStart hunk.oldCount - oldDone = gap.length := by omega
  have hfits : (gap.length : Int) ≤ (gap ++ (oldLines hunk.body ++ old)).length := by
    rw [List.length_append]
    omega
  unfold applyHunks
  rw [hgap]
  dsimp only
  rw [if_pos ⟨Int.natCast_nonneg _, hfits, hnew, hcounted⟩, Int.toNat_natCast, List.drop_left,
    List.take_left, applyBody_lines]
  dsimp only
  rw [hrest, Option.map_some, List.append_assoc]

end

-- Bodies

/-- Lines with one mark. -/
def marked (mark : Mark) (lines : List α) : List (PatchLine α) :=
  lines.map fun line => { mark, line }

theorem oldLines_append (left right : List (PatchLine α)) :
    oldLines (left ++ right) = oldLines left ++ oldLines right := by
  rw [oldLines, List.filter_append, List.map_append]
  rfl

theorem newLines_append (left right : List (PatchLine α)) :
    newLines (left ++ right) = newLines left ++ newLines right := by
  rw [newLines, List.filter_append, List.map_append]
  rfl

theorem oldLines_marked (mark : Mark) (lines : List α) :
    oldLines (marked mark lines) = if mark = .added then [] else lines := by
  induction lines with
  | nil => split <;> rfl
  | cons line lines ih =>
    cases mark with
    | added => exact ih
    | context => exact congrArg (line :: ·) ih
    | removed => exact congrArg (line :: ·) ih

theorem newLines_marked (mark : Mark) (lines : List α) :
    newLines (marked mark lines) = if mark = .removed then [] else lines := by
  induction lines with
  | nil => split <;> rfl
  | cons line lines ih =>
    cases mark with
    | removed => exact ih
    | context => exact congrArg (line :: ·) ih
    | added => exact congrArg (line :: ·) ih

end Kompjutr.Patch
