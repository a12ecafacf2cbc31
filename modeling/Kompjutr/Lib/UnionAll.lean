/-
  Kompjutr.Lib.UnionAll

  The rows of a recursive `UNION ALL` without a limit: every row leaves the queue and puts
  its successors there.  The statement ends when the queue is empty.
-/
import Mathlib.Init

namespace Kompjutr.UnionAll

variable {fuel : Nat}

variable {α : Type} {next : α → List α}

/-- The rows in the order in which they leave the queue, when the fuel is enough. -/
def rows (next : α → List α) : Nat → List α → Option (List α)
  | _, [] => some []
  | 0, _ :: _ => none
  | fuel + 1, row :: queue => (rows next fuel (next row ++ queue)).map (row :: ·)

/-- The rows hold the queue and the successors of each row, by induction on the fuel. -/
theorem rows_closed {queue out : List α} (h : rows next fuel queue = some out) :
    (∀ row ∈ queue, row ∈ out) ∧ ∀ row ∈ out, ∀ other ∈ next row, other ∈ out := by
  induction fuel generalizing queue out with
  | zero =>
    cases queue with
    | nil =>
      rw [← Option.some.inj h]
      exact ⟨fun _ h => h, nofun⟩
    | cons row queue => cases h
  | succ fuel ih =>
    cases queue with
    | nil =>
      rw [← Option.some.inj h]
      exact ⟨fun _ h => h, nofun⟩
    | cons row queue =>
      rw [rows, Option.map_eq_some_iff] at h
      obtain ⟨rest, hrest, rfl⟩ := h
      obtain ⟨hqueue, hclosed⟩ := ih hrest
      refine ⟨fun other hother => ?_, fun other hother successor hsuccessor => ?_⟩
      · rcases List.mem_cons.1 hother with rfl | hother
        · exact List.mem_cons_self
        · exact List.mem_cons_of_mem _ (hqueue other (List.mem_append_right _ hother))
      · rcases List.mem_cons.1 hother with rfl | hother
        · exact List.mem_cons_of_mem _ (hqueue successor (List.mem_append_left _ hsuccessor))
        · exact List.mem_cons_of_mem _ (hclosed other hother successor hsuccessor)

/-- What holds of the queue and of the successors of a row where it holds, holds of every row. -/
theorem rows_induction {P : α → Prop} {queue out : List α}
    (h : rows next fuel queue = some out) (hqueue : ∀ row ∈ queue, P row)
    (hstep : ∀ row, P row → ∀ other ∈ next row, P other) : ∀ row ∈ out, P row := by
  induction fuel generalizing queue out with
  | zero =>
    cases queue with
    | nil =>
      rw [← Option.some.inj h]
      exact nofun
    | cons row queue => cases h
  | succ fuel ih =>
    cases queue with
    | nil =>
      rw [← Option.some.inj h]
      exact nofun
    | cons row queue =>
      rw [rows, Option.map_eq_some_iff] at h
      obtain ⟨rest, hrest, rfl⟩ := h
      have hrow := hqueue row List.mem_cons_self
      refine fun other hother => ?_
      rcases List.mem_cons.1 hother with rfl | hother
      · exact hrow
      · refine ih hrest (fun queued hqueued => ?_) other hother
        rcases List.mem_append.1 hqueued with hqueued | hqueued
        · exact hstep row hrow queued hqueued
        · exact hqueue queued (List.mem_cons_of_mem _ hqueued)

end Kompjutr.UnionAll
