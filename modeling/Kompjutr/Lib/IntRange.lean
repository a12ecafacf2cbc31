/-
  Kompjutr.Lib.IntRange

  Integer intervals as lists, and array reads at integer positions.  A read
  outside the array is `none`, which is what `undefined` is in the source; two
  such reads compare equal there and here.
-/
import Mathlib.Data.Int.Range
import Mathlib.Data.List.Range

namespace Kompjutr

variable {i : Int}

/-- `xs[i]`, with `undefined` outside the array. -/
def readAt {α : Type} (xs : List α) (i : Int) : Option α :=
  if 0 ≤ i then xs[i.toNat]? else none

theorem readAt_natCast {α : Type} (xs : List α) (i : Nat) : readAt xs (i : Int) = xs[i]? := by
  simp [readAt]

theorem readAt_eq_none {α : Type} {xs : List α} (h : i < 0 ∨ (xs.length : Int) ≤ i) :
    readAt xs i = none := by
  unfold readAt
  split
  · rw [List.getElem?_eq_none]
    omega
  · rfl

theorem readAt_isSome {α : Type} {xs : List α} (h0 : 0 ≤ i) (h1 : i < xs.length) :
    ∃ x, readAt xs i = some x := by
  obtain ⟨k, rfl⟩ := Int.eq_ofNat_of_zero_le h0
  have hk : k < xs.length := by omega
  exact ⟨xs[k], (readAt_natCast xs k).trans (List.getElem?_eq_getElem hk)⟩

section

variable {α : Type} {xs : List α} {x : α} (h : readAt xs i = some x)

include h

theorem readAt_eq_some :
    0 ≤ i ∧ i < xs.length := by
  by_contra hout
  rw [readAt_eq_none (by omega)] at h
  cases h

/-- A successful read is one at a natural position. -/
theorem getElem?_of_readAt : ∃ k : Nat, i = k ∧ xs[k]? = some x := by
  obtain ⟨k, rfl⟩ : ∃ k : Nat, i = k := ⟨i.toNat, by have := readAt_eq_some h; omega⟩
  exact ⟨k, rfl, by rwa [readAt_natCast] at h⟩

theorem mem_of_readAt : x ∈ xs := by
  obtain ⟨k, -, hk⟩ := getElem?_of_readAt h
  exact List.mem_of_getElem? hk

end

@[simp] theorem range_self (a : Int) : Int.range a a = [] := by
  simp [Int.range]

theorem range_cons {a b : Int} (h : a < b) : Int.range a b = a :: Int.range (a + 1) b := by
  obtain ⟨n, hn⟩ : ∃ n : Nat, (b - a).toNat = n + 1 := ⟨(b - a).toNat - 1, by omega⟩
  have hn' : (b - (a + 1)).toNat = n := by omega
  simp only [Int.range, hn, hn', List.range_succ_eq_map, List.map_cons, List.map_map]
  refine congrArg₂ List.cons (by omega) (List.map_congr_left fun k _ => ?_)
  simp only [Function.comp_apply]
  omega

theorem range_append {a b c : Int} (hab : a ≤ b) (hbc : b ≤ c) :
    Int.range a c = Int.range a b ++ Int.range b c := by
  obtain ⟨n, rfl⟩ : ∃ n : Nat, b = a + n := ⟨(b - a).toNat, by omega⟩
  induction n generalizing a with
  | zero => simp
  | succ n ih =>
    have hstep : a + ((n + 1 : Nat) : Int) = (a + 1) + (n : Int) := by omega
    rw [range_cons (a := a) (b := c) (by omega), range_cons (a := a) (by omega), hstep,
      ih (by omega) (by omega), List.cons_append]

theorem range_snoc {a b : Int} (h : a < b) : Int.range a b = Int.range a (b - 1) ++ [b - 1] := by
  rw [range_append (a := a) (b := b - 1) (c := b) (by omega) (by omega),
    range_cons (a := b - 1) (b := b) (by omega)]
  simp

theorem length_range (a b : Int) : (Int.range a b).length = (b - a).toNat := by
  simp [Int.range]

end Kompjutr
