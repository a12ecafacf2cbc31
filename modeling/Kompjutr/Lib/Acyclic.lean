/-
  Kompjutr.Lib.Acyclic

  Induction over finitely many values along a relation without cycles.
-/
import Mathlib.Data.Set.Finite.Basic
import Mathlib.Logic.Relation

namespace Kompjutr.Acyclic

variable {α : Type} {r : α → α → Prop}

/-- What holds of a value of the list once it holds of all values of the list before it, holds of
    the whole list. -/
theorem induction (h : ∀ a, ¬ Relation.TransGen r a a) {list : List α} {P : α → Prop}
    (hstep : ∀ a ∈ list, (∀ b ∈ list, Relation.TransGen r b a → P b) → P a) : ∀ a ∈ list, P a := by
  let before (a b : { a // a ∈ list }) : Prop := Relation.TransGen r a.1 b.1
  have htrans : IsTrans _ before := ⟨fun _ _ _ => Relation.TransGen.trans⟩
  have hirrefl : Std.Irrefl before := ⟨fun a => h a.1⟩
  have hfinite : Finite { a // a ∈ list } := List.finite_toSet list
  have hwf : WellFounded before := Finite.wellFounded_of_trans_of_irrefl before
  intro a ha
  refine hwf.induction (C := fun a => P a.1) ⟨a, ha⟩ fun a ih => ?_
  exact hstep a.1 a.2 fun b hb hpath => ih ⟨b, hb⟩ hpath

/-- The same along the relation the other way. -/
theorem induction_flip (h : ∀ a, ¬ Relation.TransGen r a a) {list : List α} {P : α → Prop}
    (hstep : ∀ a ∈ list, (∀ b ∈ list, Relation.TransGen r a b → P b) → P a) : ∀ a ∈ list, P a := by
  have hflip : ∀ a b, Relation.TransGen (Function.swap r) a b ↔ Relation.TransGen r b a :=
    fun _ _ => Relation.transGen_swap
  refine induction (r := Function.swap r) (fun a hcycle => h a ((hflip a a).1 hcycle)) ?_
  exact fun a ha ih => hstep a ha fun b hb hpath => ih b hb ((hflip b a).2 hpath)

end Kompjutr.Acyclic
