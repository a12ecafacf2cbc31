/-
  Kompjutr.Lib.Keyset

  Keyset pages: rows in a strict order, read a page at a time, where each page goes on
  behind the last row of the page before it.
-/
import Mathlib.Data.List.Pairwise
import Mathlib.Data.List.Basic

namespace Kompjutr.Keyset

variable {α β : Type}

section Resume

variable {r : α → α → Prop} {rows : List α} {limit : Nat} {last : α}

/-- No row of a page stands behind its last. -/
theorem not_behind_of_mem_take (hasymm : ∀ a b, r a b → ¬ r b a) (h : rows.Pairwise r)
    (hlast : (rows.take limit).getLast? = some last) :
    ∀ row ∈ rows.take limit, ¬ r last row := by
  intro row hrow
  have hpage : (rows.take limit).Pairwise r := h.sublist (List.take_sublist _ _)
  obtain ⟨front, hfront⟩ := List.getLast?_eq_some_iff.1 hlast
  rw [hfront] at hpage hrow
  obtain hrow | hrow := List.mem_append.1 hrow
  · exact hasymm _ _ ((List.pairwise_append.1 hpage).2.2 row hrow last (List.mem_singleton_self _))
  · rw [List.mem_singleton.1 hrow]
    exact fun hself => hasymm _ _ hself hself

/-- Every row that a page leaves stands behind its last. -/
theorem behind_of_mem_drop (h : rows.Pairwise r)
    (hlast : (rows.take limit).getLast? = some last) :
    ∀ row ∈ rows.drop limit, r last row := by
  intro row hrow
  have hsplit := h
  rw [← List.take_append_drop limit rows] at hsplit
  exact (List.pairwise_append.1 hsplit).2.2 last (List.mem_of_getLast? hlast) row hrow

section

variable [DecidableRel r] (hasymm : ∀ a b, r a b → ¬ r b a) (h : rows.Pairwise r)
  (hlast : (rows.take limit).getLast? = some last)

include hasymm h hlast

/-- A page and the rows past a resume point behind it are all rows, but for those that the
    resume point leaps over. -/
theorem take_append_filter {past : α → Bool}
    (hpast : ∀ row, past row = true → r last row) :
    rows.take limit ++ rows.filter past =
      rows.filter fun row => !decide (r last row) || past row := by
  have hpage : (rows.take limit).filter past = [] := by
    rw [List.filter_eq_nil_iff]
    exact fun row hrow hrowPast =>
      not_behind_of_mem_take hasymm h hlast row hrow (hpast row hrowPast)
  have hkept : (rows.take limit).filter (fun row => !decide (r last row) || past row) =
      rows.take limit := by
    rw [List.filter_eq_self]
    intro row hrow
    simp [not_behind_of_mem_take hasymm h hlast row hrow]
  have hrest : (rows.drop limit).filter (fun row => !decide (r last row) || past row) =
      (rows.drop limit).filter past := by
    refine List.filter_congr fun row hrow => ?_
    simp [behind_of_mem_drop h hlast row hrow]
  conv_lhs => rw [← List.take_append_drop limit rows, List.filter_append, hpage, List.nil_append,
    List.take_append_drop limit rows]
  conv_rhs => rw [← List.take_append_drop limit rows, List.filter_append, hkept, hrest]

/-- A page and what stands behind its last row are all rows. -/
theorem take_append_behind :
    rows.take limit ++ rows.filter (fun row => decide (r last row)) = rows := by
  rw [take_append_filter hasymm h hlast fun row => of_decide_eq_true, List.filter_eq_self]
  intro row hrow
  simp

/-- What stands behind the last row of a page is less than there was. -/
theorem length_behind_lt :
    (rows.filter fun row => decide (r last row)).length < rows.length := by
  have hall := congrArg List.length (take_append_behind hasymm h hlast)
  rw [List.length_append] at hall
  have hmem := List.mem_of_getLast? hlast
  have := List.length_pos_of_mem hmem
  omega

end

end Resume

end Kompjutr.Keyset
