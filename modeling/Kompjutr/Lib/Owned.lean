/-
  Kompjutr.Lib.Owned

  Tables whose rows each belong to one owner.  A statement that names an owner changes the
  rows of that owner and leaves the rows of all others as they are; `ownedBy` is the part of a
  table that one owner sees.
-/
import Mathlib.Data.List.Basic

namespace Kompjutr.Owned

variable {α κ : Type} [DecidableEq κ] (owner : α → κ)

/-- The rows of one owner, in table order. -/
def ownedBy (key : κ) (rows : List α) : List α := rows.filter fun row => owner row = key

/-- `UPDATE ... WHERE owner = key`. -/
def updateOwned (key : κ) (f : α → α) (rows : List α) : List α :=
  rows.map fun row => if owner row = key then f row else row

/-- `DELETE ... WHERE owner = key`. -/
def deleteOwned (key : κ) (rows : List α) : List α := rows.filter fun row => owner row ≠ key

variable {owner} {key other : κ} {rows more : List α}

theorem ownedBy_append : ownedBy owner key (rows ++ more) =
    ownedBy owner key rows ++ ownedBy owner key more := List.filter_append ..

/-- New rows of the owner itself. -/
theorem ownedBy_self (h : ∀ row ∈ more, owner row = key) : ownedBy owner key more = more :=
  List.filter_eq_self.2 fun row hrow => decide_eq_true (h row hrow)

theorem ownedBy_other (h : ∀ row ∈ more, owner row = key) (hne : other ≠ key) :
    ownedBy owner other more = [] := by
  refine List.filter_eq_nil_iff.2 fun row hrow howner => hne ?_
  rw [← h row hrow, of_decide_eq_true howner]

theorem ownedBy_cons_pos {row : α} (h : owner row = key) :
    ownedBy owner key (row :: rows) = row :: ownedBy owner key rows :=
  List.filter_cons_of_pos (p := fun row => owner row = key) (decide_eq_true h)

theorem ownedBy_cons_neg {row : α} (h : owner row ≠ key) :
    ownedBy owner key (row :: rows) = ownedBy owner key rows :=
  List.filter_cons_of_neg (p := fun row => owner row = key) (by simpa using h)

theorem updateOwned_cons {f : α → α} {row : α} : updateOwned owner key f (row :: rows) =
    (if owner row = key then f row else row) :: updateOwned owner key f rows := rfl

theorem ownedBy_update_self {f : α → α} (hf : ∀ row, owner (f row) = owner row) :
    ownedBy owner key (updateOwned owner key f rows) = (ownedBy owner key rows).map f := by
  induction rows with
  | nil => rfl
  | cons row rows ih =>
    rw [updateOwned_cons]
    by_cases howner : owner row = key
    · rw [if_pos howner, ownedBy_cons_pos ((hf row).trans howner), ownedBy_cons_pos howner, ih,
        List.map_cons]
    · rw [if_neg howner, ownedBy_cons_neg howner, ownedBy_cons_neg howner, ih]

theorem ownedBy_update_other {f : α → α} (hf : ∀ row, owner (f row) = owner row)
    (hne : other ≠ key) :
    ownedBy owner other (updateOwned owner key f rows) = ownedBy owner other rows := by
  induction rows with
  | nil => rfl
  | cons row rows ih =>
    rw [updateOwned_cons]
    by_cases howner : owner row = key
    · have hself : owner row ≠ other := fun heq => hne (heq.symm.trans howner)
      have hkept : owner (f row) ≠ other := fun heq => hself ((hf row).symm.trans heq)
      rw [if_pos howner, ownedBy_cons_neg hkept, ownedBy_cons_neg hself, ih]
    · rw [if_neg howner]
      by_cases hself : owner row = other
      · rw [ownedBy_cons_pos hself, ownedBy_cons_pos hself, ih]
      · rw [ownedBy_cons_neg hself, ownedBy_cons_neg hself, ih]

theorem ownedBy_delete_self : ownedBy owner key (deleteOwned owner key rows) = [] := by
  refine List.filter_eq_nil_iff.2 fun row hrow howner => ?_
  rw [deleteOwned, List.mem_filter, decide_eq_true_eq] at hrow
  exact hrow.2 (of_decide_eq_true howner)

theorem ownedBy_delete_other (hne : other ≠ key) :
    ownedBy owner other (deleteOwned owner key rows) = ownedBy owner other rows := by
  rw [ownedBy, deleteOwned, List.filter_filter]
  refine List.filter_congr fun row _ => ?_
  by_cases hself : owner row = other
  · simp [hself, hne]
  · simp [hself]

end Kompjutr.Owned
