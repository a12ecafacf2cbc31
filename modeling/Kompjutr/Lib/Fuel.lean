/-
  Kompjutr.Lib.Fuel

  Unbounded loops as fuel-indexed computations.  A computation is a function
  `Nat → Option α`: `none` means that the fuel ran out, and `Settles run r`
  means that from some fuel on the answer is always `r`.  So a statement
  `Settles run r` carries termination, and `r` does not depend on the fuel.

  `loop` is the general `while`: its body answers with the next state or with
  the value the loop leaves.  `loop_settles` is the total-correctness rule, an
  invariant with a measure into a well-founded order.
-/
import Mathlib.Order.WellFounded
import Mathlib.Order.RelClasses

namespace Kompjutr.Fuel

variable {α β σ : Type}

/-- `run` terminates with `r`: every large enough fuel yields `r`. -/
def Settles (run : Nat → Option α) (r : α) : Prop :=
  ∃ n, ∀ fuel, n ≤ fuel → run fuel = some r

theorem Settles.of_const {run : Nat → Option α} {r : α} (h : ∀ fuel, run fuel = some r) :
    Settles run r :=
  ⟨0, fun fuel _ => h fuel⟩

/-- Sequencing: the fuel is shared by both parts. -/
theorem Settles.bind {run : Nat → Option α} {k : α → Nat → Option β} {a : α} {b : β}
    (hrun : Settles run a) (hnext : Settles (k a) b) :
    Settles (fun fuel => (run fuel).bind fun x => k x fuel) b := by
  obtain ⟨n, hn⟩ := hrun
  obtain ⟨m, hm⟩ := hnext
  refine ⟨max n m, fun fuel hfuel => ?_⟩
  show (run fuel).bind _ = some b
  rw [hn fuel (by omega), Option.bind_some]
  exact hm fuel (by omega)

theorem Settles.unique {run : Nat → Option α} {a b : α}
    (ha : Settles run a) (hb : Settles run b) : a = b := by
  obtain ⟨n, hn⟩ := ha
  obtain ⟨m, hm⟩ := hb
  have h := (hn (max n m) (by omega)).symm.trans (hm (max n m) (by omega))
  exact Option.some.inj h

/-- `for (;;)` with a body that answers the next state or the value to leave with. -/
def loop (body : Nat → σ → Option (σ ⊕ β)) : Nat → σ → Option β
  | 0, _ => none
  | fuel + 1, s =>
    match body fuel s with
    | none => none
    | some (.inr b) => some b
    | some (.inl s') => loop body fuel s'

theorem loop_settles_inr {body : Nat → σ → Option (σ ⊕ β)} {s : σ} {b : β}
    (h : Settles (fun fuel => body fuel s) (.inr b)) :
    Settles (fun fuel => loop body fuel s) b := by
  obtain ⟨n, hn⟩ := h
  refine ⟨n + 1, fun fuel hfuel => ?_⟩
  obtain ⟨fuel, rfl⟩ : ∃ k, fuel = k + 1 := ⟨fuel - 1, by omega⟩
  simp only [loop, hn fuel (by omega)]

theorem loop_settles_inl {body : Nat → σ → Option (σ ⊕ β)} {s t : σ} {b : β}
    (h : Settles (fun fuel => body fuel s) (.inl t))
    (hrest : Settles (fun fuel => loop body fuel t) b) :
    Settles (fun fuel => loop body fuel s) b := by
  obtain ⟨n, hn⟩ := h
  obtain ⟨m, hm⟩ := hrest
  refine ⟨max n m + 1, fun fuel hfuel => ?_⟩
  obtain ⟨fuel, rfl⟩ : ∃ k, fuel = k + 1 := ⟨fuel - 1, by omega⟩
  simp only [loop, hn fuel (by omega)]
  exact hm fuel (by omega)

/-- Total correctness of `loop`: from a state that meets the invariant, the body
    either leaves with a value that meets `Post`, or re-establishes the invariant
    at a smaller measure. -/
theorem loop_settles {μ : Type} [Preorder μ] [WellFoundedLT μ]
    {f : Nat → σ → Option (σ ⊕ β)} (Inv : σ → Prop) (Post : β → Prop) (measure : σ → μ)
    (hstep : ∀ s, Inv s →
      (∃ b, Settles (fun fuel => f fuel s) (.inr b) ∧ Post b) ∨
      (∃ s', Settles (fun fuel => f fuel s) (.inl s') ∧ Inv s' ∧ measure s' < measure s))
    (s : σ) (hinit : Inv s) :
    ∃ b, Settles (fun fuel => loop f fuel s) b ∧ Post b := by
  induction hm : measure s using WellFoundedLT.induction generalizing s with
  | ind m ih =>
    subst hm
    rcases hstep s hinit with ⟨b, hb, hpost⟩ | ⟨s', hs', hinv, hlt⟩
    · exact ⟨b, loop_settles_inr hb, hpost⟩
    · obtain ⟨b, hb, hpost⟩ := ih (measure s') hlt s' hinv rfl
      exact ⟨b, loop_settles_inl hs' hb, hpost⟩

end Kompjutr.Fuel
