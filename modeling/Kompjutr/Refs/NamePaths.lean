/-
  Kompjutr.Refs.NamePaths

  Ref names as paths: a name that passes the syntax check has no empty segment and
  none that starts with a dot.
-/
import Kompjutr.Common.Paths
import Kompjutr.Refs.Name

namespace Kompjutr.Refs

open Objects (Text text)
open Paths (PlainSegment Canonical)

theorem splitOn_of_not_mem {segment : Text} (h : 0x2f ∉ segment) :
    segment.splitOn 0x2f = [segment] := by
  induction segment with
  | nil => rfl
  | cons unit segment ih =>
    obtain ⟨hunit, hrest⟩ := not_or.1 fun hmem => h (List.mem_cons.2 hmem)
    rw [Objects.splitOn_cons_of_ne (fun heq => hunit heq.symm), ih hrest]
    rfl

/-- The loop over a name, with the segment it is in: every segment that a slash ends is plain. -/
theorem refComponents_ok {value : Text} {wildcard : Option Nat} {last : Nat}
    (front segment rest : Text) (hvalue : value = front ++ segment ++ rest)
    (hfront : front = [] ∨ ∃ before, front = before ++ [0x2f]) (hsegment : 0x2f ∉ segment)
    (h : refComponents value wildcard front.length (front.length + segment.length) rest =
      some last) :
    ∃ init final, (segment ++ rest).splitOn 0x2f = init ++ [final] ∧
      (∀ s ∈ init, PlainSegment s) ∧ value.drop last = final ∧
      (value.take last = [] ∨ ∃ before, value.take last = before ++ [0x2f]) := by
  induction rest generalizing front segment with
  | nil =>
    rw [refComponents] at h
    cases h
    rw [List.append_nil] at hvalue ⊢
    refine ⟨[], segment, splitOn_of_not_mem hsegment, fun s hs => absurd hs List.not_mem_nil, ?_, ?_⟩
    · rw [hvalue, List.drop_left]
    · rw [hvalue, List.take_left]
      exact hfront
  | cons code rest ih =>
    rw [refComponents] at h
    by_cases hslash : code = 0x2f
    · rw [if_pos hslash] at h
      subst hslash
      split at h
      · cases h
      · next hplain =>
        simp only [Bool.or_eq_true, decide_eq_true_eq, not_or] at hplain
        obtain ⟨⟨hnonempty, hdot⟩, -⟩ := hplain
        have hne : segment ≠ [] := by
          rintro rfl
          exact hnonempty rfl
        have hhead : segment.head? ≠ some 0x2e := by
          intro hhead
          apply hdot
          rw [hvalue, List.append_assoc, List.getElem?_append_right (Nat.le_refl _), Nat.sub_self,
            ← List.head?_eq_getElem?, List.head?_append, hhead]
          rfl
        obtain ⟨init, final, hsplit, hinit, hfinal, hend⟩ := ih (front ++ segment ++ [0x2f]) []
          (by rw [hvalue]; simp) (.inr ⟨_, rfl⟩) List.not_mem_nil (by
            rw [List.length_append, List.length_append]
            exact h)
        rw [List.nil_append] at hsplit
        refine ⟨segment :: init, final, ?_, ?_, hfinal, hend⟩
        · rw [List.splitOn_append_cons_self, splitOn_of_not_mem hsegment, hsplit]
          rfl
        · intro s hs
          rcases List.mem_cons.1 hs with rfl | hs
          · exact ⟨hne, hhead⟩
          · exact hinit s hs
    · rw [if_neg hslash] at h
      dsimp only at h
      split at h
      · cases h
      · split at h
        · cases h
        · obtain ⟨init, final, hsplit, hrest⟩ := ih front (segment ++ [code])
            (by rw [hvalue]; simp) hfront (by
              rw [List.mem_append, List.mem_singleton]
              exact not_or.2 ⟨hsegment, fun heq => hslash heq.symm⟩) (by
              rw [List.length_append]
              exact h)
          rw [List.append_assoc, List.singleton_append] at hsplit
          exact ⟨init, final, hsplit, hrest⟩

/-- A name with the syntax of a ref is a canonical path, and does not end in a slash. -/
theorem canonical_of_refSyntax {name : Text} (h : hasCanonicalRefSyntax name 0 = true) :
    Canonical name := by
  unfold hasCanonicalRefSyntax hasCanonicalRefSyntaxWithWildcard at h
  split at h
  · cases h
  · next hbounds =>
    split at h
    · cases h
    · next hends =>
      rw [List.drop_zero, Nat.sub_zero, List.take_length] at h
      split at h
      · cases h
      · next last hloop =>
        obtain ⟨init, final, hsplit, hinit, hfinal, hfront⟩ :=
          refComponents_ok [] [] name (show name = [] ++ [] ++ name from rfl) (.inl rfl)
            List.not_mem_nil hloop
        simp only [Bool.or_eq_true, decide_eq_true_eq, not_or] at hends
        simp only [Bool.and_eq_true, decide_eq_true_eq] at h
        -- an empty last segment would leave a slash at the end
        have hne : final ≠ [] := by
          intro hempty
          have hwhole : name.take last = name := by
            rw [← List.append_nil (name.take last), ← hempty, ← hfinal, List.take_append_drop]
          rw [hwhole] at hfront
          rcases hfront with hnil | ⟨before, hbefore⟩
          · rw [hnil] at hbounds
            exact hbounds rfl
          · apply hends.1.1.2
            rw [hbefore, List.length_append, List.length_singleton, Nat.add_sub_cancel,
              List.getElem?_append_right (Nat.le_refl _), Nat.sub_self]
            rfl
        rw [List.nil_append] at hsplit
        intro segment hsegment
        rw [hsplit] at hsegment
        rcases List.mem_append.1 hsegment with hmem | hmem
        · exact hinit segment hmem
        · rw [List.mem_singleton.1 hmem]
          refine ⟨hne, fun hdot => h.1 ?_⟩
          rw [← hfinal, List.head?_drop] at hdot
          exact hdot

end Kompjutr.Refs
