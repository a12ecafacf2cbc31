/-
  Kompjutr.Lib.SortBy

  Sorting by a key.  A comparator that compares keys of a linear order puts a
  list in the order of its keys (`pairwise_mergeSort`), and lists that differ
  in their order only are sorted alike as long as no two elements share a key
  (`mergeSort_eq_of_perm`).
-/
import Mathlib.Order.Lattice

namespace Kompjutr.SortBy

variable {α κ : Type} [LinearOrder κ] {key : α → κ} {le : α → α → Bool}

theorem pairwise_mergeSort (hle : ∀ a b, le a b = true ↔ key a ≤ key b) (xs : List α) :
    (xs.mergeSort le).Pairwise fun a b => key a ≤ key b := by
  have hsorted : (xs.mergeSort le).Pairwise fun a b => le a b = true := by
    apply List.pairwise_mergeSort
    · intro a b c hab hbc
      exact (hle a c).2 (le_trans ((hle a b).1 hab) ((hle b c).1 hbc))
    · intro a b
      rw [Bool.or_eq_true, hle, hle]
      exact le_total _ _
  exact hsorted.imp fun h => (hle _ _).1 h

theorem mergeSort_eq_of_perm (hle : ∀ a b, le a b = true ↔ key a ≤ key b) {xs ys : List α}
    (hperm : xs.Perm ys) (hkey : ∀ a ∈ xs, ∀ b ∈ xs, key a = key b → a = b) :
    xs.mergeSort le = ys.mergeSort le := by
  apply List.Perm.eq_of_pairwise ?_ (pairwise_mergeSort hle xs) (pairwise_mergeSort hle ys)
    ((List.mergeSort_perm xs le).trans (hperm.trans (List.mergeSort_perm ys le).symm))
  intro a b ha hb hab hba
  rw [List.mem_mergeSort] at ha hb
  exact hkey a ha b (hperm.mem_iff.2 hb) (le_antisymm hab hba)

end Kompjutr.SortBy
