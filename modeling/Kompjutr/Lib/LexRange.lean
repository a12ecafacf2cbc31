/-
  Kompjutr.Lib.LexRange

  Ranges of the lexicographic order: what stands between `p` with a separator and `p`
  with the separator's successor is exactly what goes on from `p` with the separator.
-/
import Mathlib.Data.List.Lex
import Mathlib.Order.Cover

namespace Kompjutr.LexRange

variable {α : Type} [LinearOrder α]

theorem append_lt_append_iff {p x y : List α} : p ++ x < p ++ y ↔ x < y := by
  induction p with
  | nil => rfl
  | cons a p ih => rw [List.cons_append, List.cons_append, List.cons_lt_cons_self, ih]

theorem append_le_append_iff {p x y : List α} : p ++ x ≤ p ++ y ↔ x ≤ y := by
  rw [← not_lt, ← not_lt, append_lt_append_iff]

theorem lt_append {p x : List α} (h : x ≠ []) : p < p ++ x := by
  obtain ⟨a, x, rfl⟩ := List.exists_cons_of_ne_nil h
  calc p = p ++ [] := (List.append_nil p).symm
    _ < p ++ a :: x := append_lt_append_iff.2 (List.nil_lt_cons a x)

variable {separator successor : α}

theorem lower_le (p r : List α) : p ++ [separator] ≤ p ++ separator :: r := by
  rw [append_le_append_iff, ← not_lt, List.cons_lt_cons_self]
  exact List.not_lt_nil _

theorem lt_upper (h : separator < successor) (p r : List α) :
    p ++ separator :: r < p ++ [successor] :=
  append_lt_append_iff.2 (List.cons_lt_cons_iff.2 (.inl h))

/-- What stands in the range of `p` goes on from it. -/
theorem exists_of_range (h : separator ⋖ successor) {p t : List α} (hlow : p ++ [separator] ≤ t)
    (hupper : t < p ++ [successor]) : ∃ r, t = p ++ separator :: r := by
  induction p generalizing t with
  | nil =>
    cases t with
    | nil => exact absurd (List.nil_lt_cons separator []) (not_lt.2 hlow)
    | cons a t =>
      rw [List.nil_append, ← not_lt, List.cons_lt_cons_iff, not_or] at hlow
      rw [List.nil_append, List.cons_lt_cons_iff] at hupper
      have hge : separator ≤ a := not_lt.1 hlow.1
      have hlt : a < successor := hupper.resolve_right fun hlast => List.not_lt_nil _ hlast.2
      obtain rfl : separator = a := le_antisymm hge (not_lt.1 fun hgt => h.2 hgt hlt)
      exact ⟨t, rfl⟩
  | cons b p ih =>
    cases t with
    | nil => exact absurd (List.nil_lt_cons b (p ++ [separator])) (not_lt.2 hlow)
    | cons a t =>
      rw [List.cons_append, ← not_lt, List.cons_lt_cons_iff, not_or] at hlow
      rw [List.cons_append, List.cons_lt_cons_iff] at hupper
      have hge : b ≤ a := not_lt.1 hlow.1
      obtain rfl : a = b := by
        rcases hupper with hlt | ⟨heq, -⟩
        · exact absurd hlt (not_lt.2 hge)
        · exact heq
      have hrest : t < p ++ [successor] :=
        (hupper.resolve_left (lt_irrefl _)).2
      obtain ⟨r, rfl⟩ := ih (not_lt.1 fun hlt => hlow.2 ⟨rfl, hlt⟩) hrest
      exact ⟨r, rfl⟩

end Kompjutr.LexRange
