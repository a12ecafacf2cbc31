/-
  Kompjutr.Refs.NameText

  What the units of a ref name can be, and names with something after them: the wire
  protocol writes a peeled tag as its name and a suffix.
-/
import Kompjutr.Refs.Table

namespace Kompjutr.Refs

open Objects (Text text)
open Utf8 (WellFormed)

variable {limit : Option Nat} {name suffix a b : Text}

variable {value rest : Text} {componentStart index last : Nat}

/-- A checked text stays so when the text after it is checked from where it ends. -/
theorem checkRefTextFrom_append {bytes : Nat}
    (h : (checkRefTextFrom limit bytes value).problem = none) (rest : Text) :
    checkRefTextFrom none bytes (value ++ rest) =
      checkRefTextFrom none (checkRefTextFrom limit bytes value).bytes rest := by
  fun_induction checkRefTextFrom limit bytes value with
  | case1 => rfl
  | case2 => cases h
  | case3 => cases h
  | case4 => cases h
  | case5 => cases h
  | case6 bytes unit hbreak hhigh low value hlow _ ih =>
    rw [List.cons_append, List.cons_append, checkRefTextFrom, if_neg hbreak, if_pos hhigh,
      if_neg hlow, exceeds, if_neg Bool.false_ne_true]
    exact ih h
  | case7 => cases h
  | case8 => cases h
  | case9 bytes unit value hbreak hhigh hlow _ ih =>
    rw [List.cons_append, checkRefTextFrom.eq_def]
    dsimp only
    rw [if_neg hbreak, if_neg hhigh, if_neg hlow, exceeds, if_neg Bool.false_ne_true]
    exact ih h

/-- A text that passes with a limit passes without one. -/
theorem checkRefText_none
    (h : (checkRefText value limit).problem = none) : (checkRefText value none).problem = none := by
  have happend := checkRefTextFrom_append h []
  rw [List.append_nil] at happend
  rw [checkRefText, happend]
  rfl

/-- The units that a canonical name can have. -/
theorem units_of_refComponents
    (h : refComponents value none componentStart index rest = some last) :
    ∀ unit ∈ rest, ¬ unit < 0x20 ∧ isExcluded unit = false := by
  induction rest generalizing componentStart index with
  | nil => exact fun unit hunit => nomatch hunit
  | cons code rest ih =>
    intro unit hunit
    rw [refComponents] at h
    split at h
    · next hslash =>
      split at h
      · cases h
      · obtain rfl | hunit := List.mem_cons.1 hunit
        · rw [hslash]
          decide
        · exact ih h unit hunit
    · dsimp only at h
      split at h
      · cases h
      · split at h
        · cases h
        · next hallowed =>
          obtain rfl | hunit := List.mem_cons.1 hunit
          · simp only [Bool.or_eq_true, Bool.and_eq_true, decide_eq_true_eq, not_or] at hallowed
            refine ⟨hallowed.1.1, ?_⟩
            by_contra hexcluded
            exact hallowed.2 ⟨Bool.eq_true_of_not_eq_false hexcluded, nofun⟩
          · exact ih h unit hunit

theorem refComponents_of_canonical (h : hasCanonicalRefSyntax name 0 = true) :
    ∃ componentStart, refComponents name none 0 0 name = some componentStart := by
  unfold hasCanonicalRefSyntax hasCanonicalRefSyntaxWithWildcard at h
  split at h
  · cases h
  · split at h
    · cases h
    · split at h
      · cases h
      · next last hlast =>
        rw [List.drop_zero, Nat.sub_zero, List.take_length] at hlast
        exact ⟨last, hlast⟩

theorem units_of_canonical (h : hasCanonicalRefSyntax name 0 = true) :
    ∀ unit ∈ name, ¬ unit < 0x20 ∧ isExcluded unit = false := by
  obtain ⟨last, hlast⟩ := refComponents_of_canonical h
  exact units_of_refComponents hlast

-- Names with a suffix

theorem endsWithAt_append (h : index ≤ value.length) :
    endsWithAt (value ++ rest) suffix index = endsWithAt value suffix index := by
  rw [endsWithAt, endsWithAt, List.take_append_of_le_length h]

/-- A suffix that starts with `^` is not seen from the name before it. -/
theorem refComponents_append
    (front : Text) (hvalue : value = front ++ rest) (hindex : index = front.length)
    (h : refComponents value none componentStart index rest = some last)
    (hstart : componentStart ≤ index) :
    refComponents (value ++ 0x5e :: suffix) none componentStart index rest = some last := by
  induction rest generalizing front componentStart index with
  | nil => exact h
  | cons code rest ih =>
    have hlength : index < value.length := by
      rw [hvalue, List.length_append, List.length_cons]
      omega
    have hnextFront : value = (front ++ [code]) ++ rest := by
      rw [hvalue, List.append_assoc, List.singleton_append]
    have hnextIndex : index + 1 = (front ++ [code]).length := by
      rw [List.length_append, List.length_singleton, hindex]
    rw [refComponents] at h ⊢
    split at h
    · next hslash =>
      rw [if_pos hslash]
      split at h
      · cases h
      · next hcut =>
        have hstartUnit : (value ++ 0x5e :: suffix)[componentStart]? = value[componentStart]? :=
          List.getElem?_append_left (by omega)
        rw [hstartUnit, endsWithAt_append hlength.le, if_neg hcut]
        exact ih (front ++ [code]) hnextFront hnextIndex h (by omega)
    · next hslash =>
      rw [if_neg hslash]
      dsimp only at h ⊢
      split at h
      · cases h
      · next hpair =>
        split at h
        · cases h
        · next hallowed =>
          -- the unit after the last one is now a caret, which forbids nothing
          have hnext : ¬ ((code = 0x2e && (value ++ 0x5e :: suffix)[index + 1]? = some 0x2e ||
              code = 0x40 && (value ++ 0x5e :: suffix)[index + 1]? = some 0x7b) = true) := by
            by_cases hinside : index + 1 < value.length
            · rw [List.getElem?_append_left hinside]
              exact hpair
            · have hend : index + 1 = value.length := by omega
              rw [hend, List.getElem?_append_right (le_refl _), Nat.sub_self]
              simp
          rw [if_neg hnext, if_neg hallowed]
          exact ih (front ++ [code]) hnextFront hnextIndex h (by omega)

theorem le_of_refComponents (h : refComponents value none componentStart index rest = some last)
    (hstart : componentStart ≤ index) : last ≤ index + rest.length := by
  induction rest generalizing componentStart index with
  | nil =>
    cases h
    exact hstart
  | cons code rest ih =>
    rw [refComponents] at h
    rw [List.length_cons]
    split at h
    · split at h
      · cases h
      · have := ih h (le_refl _)
        omega
    · dsimp only at h
      split at h
      · cases h
      · split at h
        · cases h
        · have := ih h (by omega)
          omega

/-- The name before the suffix is as canonical as it was. -/
theorem canonical_before_suffix {name suffix : Text} (h : hasCanonicalRefSyntax name 0 = true)
    (hrefs : (text "ref: ").isPrefixOf (name ++ 0x5e :: suffix) = false) :
    hasCanonicalRefSyntaxWithWildcard (name ++ 0x5e :: suffix) none 0 name.length = true := by
  obtain ⟨last, hlast⟩ := refComponents_of_canonical h
  have hbound := le_of_refComponents hlast (le_refl 0)
  rw [Nat.zero_add] at hbound
  unfold hasCanonicalRefSyntax hasCanonicalRefSyntaxWithWildcard at h
  unfold hasCanonicalRefSyntaxWithWildcard
  have hextended : refComponents (name ++ 0x5e :: suffix) none 0 0 name = some last :=
    refComponents_append [] rfl rfl hlast (le_refl 0)
  split at h
  · cases h
  · next hnonempty =>
    rw [Bool.or_eq_true, decide_eq_true_eq, decide_eq_true_eq, not_or] at hnonempty
    have hpos : 0 < name.length := by omega
    have hunit : ∀ i, i < name.length → (name ++ 0x5e :: suffix)[i]? = name[i]? :=
      fun i hi => List.getElem?_append_left hi
    rw [if_neg (by simp only [List.length_append, Bool.or_eq_true, decide_eq_true_eq]; omega)]
    split at h
    · cases h
    · next hedges =>
      rw [hunit 0 hpos, hunit (name.length - 1) (by omega), List.drop_zero, hrefs]
      simp only [Bool.or_eq_true, not_or] at hedges
      rw [if_neg (by simp only [Bool.or_eq_true, not_or]; exact ⟨hedges.1, Bool.false_ne_true⟩)]
      rw [Nat.sub_zero, List.take_left' rfl, hextended]
      rw [List.drop_zero, Nat.sub_zero, List.take_length, hlast] at h
      dsimp only at h ⊢
      rw [endsWithAt_append (le_refl _)]
      rw [Bool.and_eq_true] at h ⊢
      refine ⟨?_, h.2⟩
      by_cases hinside : last < name.length
      · rw [hunit last hinside]
        exact h.1
      · -- the name ends in a slash, which the edges exclude
        have hend : last = name.length := by omega
        rw [hend, List.getElem?_append_right (le_refl _), Nat.sub_self]
        rfl

-- Order

theorem comparePoints_lt_trans {a b c : List Nat} (hab : comparePoints a b = .lt)
    (hbc : comparePoints b c = .lt) : comparePoints a c = .lt := by
  induction a generalizing b c with
  | nil =>
    cases b with
    | nil => cases hab
    | cons y b =>
      cases c with
      | nil => cases hbc
      | cons z c => rfl
  | cons x a ih =>
    cases b with
    | nil => cases hab
    | cons y b =>
      cases c with
      | nil => cases hbc
      | cons z c =>
        simp only [comparePoints] at hab hbc ⊢
        split at hab
        · next hxy =>
          split at hbc
          · next hyz =>
            rw [if_pos (hxy.trans hyz)]
            exact ih hab hbc
          · next hyz =>
            split at hbc
            · next hlt =>
              rw [hxy, if_neg hyz, if_pos hlt]
            · cases hbc
        · next hxy =>
          split at hab
          · next hlt =>
            split at hbc
            · next hyz =>
              rw [← hyz, if_neg hxy, if_pos hlt]
            · split at hbc
              · next hlt' => rw [if_neg (by omega), if_pos (by omega)]
              · cases hbc
          · cases hab

theorem comparePoints_self (a : List Nat) : comparePoints a a = .eq := by
  induction a with
  | nil => rfl
  | cons x a ih => rw [comparePoints, if_pos rfl, ih]

theorem comparePaths_lt_trans {c : Text} (hab : comparePaths a b = .lt)
    (hbc : comparePaths b c = .lt) : comparePaths a c = .lt :=
  comparePoints_lt_trans hab hbc

theorem ne_of_comparePaths_lt (h : comparePaths a b = .lt) : a ≠ b := by
  rintro rfl
  rw [comparePaths, comparePoints_self] at h
  cases h

end Kompjutr.Refs
