/-
  Kompjutr.Lib.Stamp

  Version stamps.  A machine keeps a stamp that never goes back and that every step of
  some kind moves forward; whoever finds the stamp as it was knows that no such step was
  taken in between, in whatever order the others ran.
-/
import Mathlib.Order.Basic

namespace Kompjutr.Stamp

variable {σ ο β : Type} [Preorder β] {step : σ → ο → σ} {stamp : σ → β} {Kept : σ → Prop}
  {Disturbs : σ → ο → Prop}

/-- No step of a run is one that disturbs. -/
def Undisturbed (step : σ → ο → σ) (Disturbs : σ → ο → Prop) : σ → List ο → Prop
  | _, [] => True
  | s, op :: ops => ¬ Disturbs s op ∧ Undisturbed step Disturbs (step s op) ops

/-- The stamp is kept, and moves forward at every step that disturbs. -/
structure Guards (step : σ → ο → σ) (stamp : σ → β) (Kept : σ → Prop)
    (Disturbs : σ → ο → Prop) : Prop where
  kept : ∀ s op, Kept s → Kept (step s op)
  le : ∀ s op, Kept s → stamp s ≤ stamp (step s op)
  lt : ∀ s op, Kept s → Disturbs s op → stamp s < stamp (step s op)

theorem Guards.run_le (h : Guards step stamp Kept Disturbs) {s : σ} (hs : Kept s) (ops : List ο) :
    stamp s ≤ stamp (ops.foldl step s) := by
  induction ops generalizing s with
  | nil => exact le_refl _
  | cons op ops ih => exact (h.le s op hs).trans (ih (h.kept s op hs))

/-- A stamp that comes back as it was has not moved. -/
theorem Guards.undisturbed (h : Guards step stamp Kept Disturbs) {s : σ} (hs : Kept s)
    (ops : List ο) (hsame : stamp (ops.foldl step s) ≤ stamp s) :
    Undisturbed step Disturbs s ops := by
  induction ops generalizing s with
  | nil => exact trivial
  | cons op ops ih =>
    have hrest : stamp (step s op) ≤ stamp (ops.foldl step (step s op)) :=
      h.run_le (h.kept s op hs) ops
    refine ⟨fun hdisturbs => ?_, ih (h.kept s op hs) ?_⟩
    · exact absurd (hrest.trans hsame) (h.lt s op hs hdisturbs).not_ge
    · exact hsame.trans (h.le s op hs)

end Kompjutr.Stamp
