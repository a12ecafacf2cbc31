/-
  Kompjutr.Lib.Compare

  Comparison functions whose result counts by its sign.

  A comparison is a total preorder when it turns its sign with its arguments (`Turns`) and is
  transitive (`TransOn`, on the elements that are compared).  Both are kept by the ways to build a
  comparison from others: a key, a second comparison for ties, a reversal, a class that goes first,
  and a loop over what is left of two values.
-/
import Mathlib.Data.List.Basic
import Mathlib.Data.List.Forall2

namespace Kompjutr.Compare

variable {α β : Type} {cmp other : α → α → Int} {S T : α → Prop}

/-- The sign turns with the arguments. -/
def Turns (cmp : α → α → Int) : Prop := ∀ a b, cmp a b ≤ 0 ↔ 0 ≤ cmp b a

/-- Transitive on some elements, also through equal ones. -/
def TransOn (S : α → Prop) (cmp : α → α → Int) : Prop :=
  ∀ a b c, S a → S b → S c → cmp a b ≤ 0 → cmp b c ≤ 0 → cmp a c ≤ 0

theorem Turns.self (h : Turns cmp) (a : α) : cmp a a = 0 := by
  have haa := h a a
  omega

theorem Turns.lt (h : Turns cmp) {a b : α} : cmp a b < 0 ↔ 0 < cmp b a := by
  have hab := h a b
  have hba := h b a
  omega

theorem Turns.eq (h : Turns cmp) {a b : α} : cmp a b = 0 ↔ cmp b a = 0 := by
  have hab := h a b
  have hba := h b a
  omega

theorem TransOn.mono (h : TransOn S cmp) (hle : ∀ a, T a → S a) : TransOn T cmp :=
  fun a b c ha hb hc => h a b c (hle a ha) (hle b hb) (hle c hc)

/-- Equal elements stand on the same side of a third. -/
theorem TransOn.eq_of_ends (ht : Turns cmp) (h : TransOn S cmp) {a b c : α} (ha : S a) (hb : S b)
    (hc : S c) (hab : cmp a b ≤ 0) (hbc : cmp b c ≤ 0) (hac : cmp a c = 0) :
    cmp a b = 0 ∧ cmp b c = 0 := by
  have hca : cmp c a ≤ 0 := Int.le_of_eq (ht.eq.1 hac)
  have hcb := h c a b hc ha hb hca hab
  have hba := h b c a hb hc ha hbc hca
  have htab := ht b a
  have htbc := ht c b
  omega

/-- Equal elements compare alike. -/
theorem TransOn.equal_congr (ht : Turns cmp) (h : TransOn S cmp) {a a' b b' : α} (ha : S a)
    (ha' : S a') (hb : S b) (hb' : S b') (haa : cmp a a' = 0) (hbb : cmp b b' = 0) :
    cmp a b = 0 ↔ cmp a' b' = 0 := by
  have hthrough : ∀ {x y z : α}, S x → S y → S z → cmp x y = 0 → cmp y z = 0 → cmp x z = 0 := by
    intro x y z hx hy hz hxy hyz
    have hxz := h x y z hx hy hz (Int.le_of_eq hxy) (Int.le_of_eq hyz)
    have hzx := h z y x hz hy hx (Int.le_of_eq (ht.eq.1 hyz)) (Int.le_of_eq (ht.eq.1 hxy))
    have hturn := ht z x
    omega
  constructor
  · intro hab
    exact hthrough ha' hb hb' (hthrough ha' ha hb (ht.eq.1 haa) hab) hbb
  · intro hab
    exact hthrough ha hb' hb (hthrough ha ha' hb' haa hab) (ht.eq.1 hbb)

-- Building comparisons

theorem turns_zero : Turns fun _ _ : α => (0 : Int) := fun _ _ => Iff.rfl

theorem transOn_zero : TransOn S fun _ _ : α => (0 : Int) := fun _ _ _ _ _ _ _ _ => Int.le_refl 0

/-- By a key that is a number. -/
theorem turns_sub (key : α → Int) : Turns fun a b => key a - key b := by
  intro a b
  dsimp only
  omega

theorem transOn_sub (key : α → Int) : TransOn S fun a b => key a - key b := by
  intro a b c _ _ _ hab hbc
  dsimp only at hab hbc ⊢
  omega

theorem Turns.comap (h : Turns cmp) (f : β → α) : Turns fun a b => cmp (f a) (f b) :=
  fun a b => h (f a) (f b)

theorem TransOn.comap {R : β → Prop} (h : TransOn S cmp) (f : β → α) (hf : ∀ b, R b → S (f b)) :
    TransOn R fun a b => cmp (f a) (f b) :=
  fun a b c ha hb hc => h (f a) (f b) (f c) (hf a ha) (hf b hb) (hf c hc)

theorem Turns.neg (h : Turns cmp) : Turns fun a b => -cmp a b := by
  intro a b
  have hba := h b a
  dsimp only
  omega

theorem TransOn.neg (ht : Turns cmp) (h : TransOn S cmp) : TransOn S fun a b => -cmp a b := by
  intro a b c ha hb hc hab hbc
  dsimp only at hab hbc ⊢
  have hcb := (ht c b).2 (by omega)
  have hba := (ht b a).2 (by omega)
  have hca := h c b a hc hb ha hcb hba
  have hac := ht c a
  omega

/-- The second comparison where the first finds no difference. -/
def thenBy (cmp other : α → α → Int) (a b : α) : Int := if cmp a b ≠ 0 then cmp a b else other a b

theorem Turns.thenBy (h : Turns cmp) (hother : Turns other) : Turns (thenBy cmp other) := by
  intro a b
  have heq := @Turns.eq _ _ h a b
  have hab := h a b
  have hoab := hother a b
  unfold Compare.thenBy
  split
  next hne => rw [if_pos (by omega)]; exact hab
  next hne => rw [if_neg (by omega)]; exact hoab

theorem TransOn.thenBy (ht : Turns cmp) (h : TransOn S cmp) (hother : TransOn S other) :
    TransOn S (thenBy cmp other) := by
  intro a b c ha hb hc hab hbc
  have hle : ∀ {x y : α}, Compare.thenBy cmp other x y ≤ 0 →
      cmp x y ≤ 0 ∧ (cmp x y = 0 → other x y ≤ 0) := by
    intro x y hxy
    unfold Compare.thenBy at hxy
    split at hxy <;> omega
  obtain ⟨hab, hoab⟩ := hle hab
  obtain ⟨hbc, hobc⟩ := hle hbc
  have hac := h a b c ha hb hc hab hbc
  unfold Compare.thenBy
  split
  next => exact hac
  next hzero =>
    obtain ⟨hzab, hzbc⟩ := h.eq_of_ends ht ha hb hc hab hbc (not_not.1 hzero)
    exact hother a b c ha hb hc (hoab hzab) (hobc hzbc)

/-- The elements of a class go before the others, and are compared in their own way. -/
def classFirst (p : α → Bool) (cmp other : α → α → Int) (a b : α) : Int :=
  if p a ≠ p b then if p a then -1 else 1 else if p a then cmp a b else other a b

theorem Turns.classFirst {p : α → Bool} (h : Turns cmp) (hother : Turns other) :
    Turns (classFirst p cmp other) := by
  intro a b
  have hab := h a b
  have hoab := hother a b
  unfold Compare.classFirst
  cases p a <;> cases p b <;> simp [hab, hoab]

theorem TransOn.classFirst {p : α → Bool} (h : TransOn (fun a => S a ∧ p a = true) cmp)
    (hother : TransOn (fun a => S a ∧ p a = false) other) : TransOn S (classFirst p cmp other) := by
  intro a b c ha hb hc hab hbc
  have hin := h a b c
  have hout := hother a b c
  unfold Compare.classFirst at hab hbc ⊢
  cases hpa : p a <;> cases hpb : p b <;> cases hpc : p c <;> simp_all

/-- A loop that compares what two values begin with, and goes on with what is left of them. -/
def iterate (cmp : α → α → Int) (rest : α → α) : Nat → α → α → Int
  | 0 => fun _ _ => 0
  | n + 1 => thenBy cmp fun a b => iterate cmp rest n (rest a) (rest b)

theorem Turns.iterate {rest : α → α} (h : Turns cmp) (n : Nat) : Turns (iterate cmp rest n) := by
  induction n with
  | zero => exact turns_zero
  | succ n ih => exact h.thenBy (ih.comap rest)

theorem TransOn.iterate {rest : α → α} (ht : Turns cmp) (h : TransOn (fun _ => True) cmp) (n : Nat) :
    TransOn (fun _ => True) (iterate cmp rest n) := by
  induction n with
  | zero => exact transOn_zero
  | succ n ih => exact h.thenBy ht (ih.comap rest fun _ _ => trivial)

/-- Two comparisons of one sign. -/
theorem Turns.of_sign (h : Turns cmp) (heq : ∀ a b, (other a b).sign = (cmp a b).sign) :
    Turns other := by
  intro a b
  rw [← Int.sign_nonpos_iff, heq, Int.sign_nonpos_iff, h a b, ← Int.sign_nonneg_iff, ← heq,
    Int.sign_nonneg_iff]

theorem TransOn.of_sign (h : TransOn S cmp)
    (heq : ∀ a b, S a → S b → (other a b).sign = (cmp a b).sign) : TransOn S other := by
  intro a b c ha hb hc hab hbc
  rw [← Int.sign_nonpos_iff, heq _ _ ‹_› ‹_›, Int.sign_nonpos_iff] at hab hbc ⊢
  exact h a b c ha hb hc hab hbc

-- Sorting

/-- A stable sort by a comparison. -/
def sortBy (cmp : α → α → Int) (xs : List α) : List α := xs.mergeSort fun a b => cmp a b ≤ 0

theorem sortBy_perm (xs : List α) : (sortBy cmp xs).Perm xs := List.mergeSort_perm _ _

theorem pairwise_sortBy {xs : List α} (ht : Turns cmp) (h : TransOn (· ∈ xs) cmp) :
    (sortBy cmp xs).Pairwise fun a b => cmp a b ≤ 0 := by
  classical
  -- The elements that are not in the list go behind it.
  have hsame : sortBy cmp xs = xs.mergeSort fun a b =>
      if a ∈ xs then if b ∈ xs then cmp a b ≤ 0 else true else b ∉ xs := by
    have hmap := List.map_mergeSort (f := id) (r := fun a b => decide (cmp a b ≤ 0))
      (s := fun a b => if a ∈ xs then if b ∈ xs then cmp a b ≤ 0 else true else b ∉ xs) (l := xs)
      fun a ha b hb => by simp [ha, hb]
    rw [List.map_id, List.map_id] at hmap
    exact hmap
  have hsorted : (sortBy cmp xs).Pairwise fun a b =>
      (if a ∈ xs then if b ∈ xs then decide (cmp a b ≤ 0) else true else decide (b ∉ xs)) = true := by
    rw [hsame]
    refine List.pairwise_mergeSort (fun a b c hab hbc => ?_) (fun a b => ?_) xs
    · by_cases ha : a ∈ xs
      · by_cases hb : b ∈ xs
        · by_cases hc : c ∈ xs
          · simp only [ha, hb, hc, if_true, decide_eq_true_eq] at hab hbc ⊢
            exact h a b c ha hb hc hab hbc
          · simp [ha, hc]
        · by_cases hc : c ∈ xs
          · simp [hb, hc] at hbc
          · simp [ha, hc]
      · by_cases hb : b ∈ xs
        · simp [ha, hb] at hab
        · by_cases hc : c ∈ xs
          · simp [hb, hc] at hbc
          · simp [ha, hc]
    · have hab := ht a b
      by_cases ha : a ∈ xs <;> by_cases hb : b ∈ xs <;> simp [ha, hb]
      omega
  refine hsorted.imp_of_mem fun {a b} ha hb hab => ?_
  rw [(sortBy_perm xs).mem_iff] at ha hb
  simpa [ha, hb] using hab

/-- How many elements satisfy a predicate that holds of the start of a list. -/
theorem countP_start {xs : List α} {p : α → Bool} {i : Nat} {a : α} (hi : xs[i]? = some a)
    (hp : ∀ b ∈ xs.take (i + 1), p b = true) : i + 1 ≤ xs.countP p := by
  have hlt : i < xs.length := (List.getElem?_eq_some_iff.1 hi).1
  have hall : (xs.take (i + 1)).countP p = (xs.take (i + 1)).length := List.countP_eq_length.2 hp
  rw [List.length_take, Nat.min_eq_left hlt] at hall
  exact Nat.le_trans (Nat.le_of_eq hall.symm) (List.take_sublist _ _).countP_le

theorem countP_end {xs : List α} {p : α → Bool} {i : Nat}
    (hp : ∀ b ∈ xs.drop i, ¬ p b = true) : xs.countP p ≤ i := by
  conv_lhs => rw [← List.take_append_drop i xs]
  rw [List.countP_append, List.countP_eq_zero.2 hp, Nat.add_zero]
  exact Nat.le_trans List.countP_le_length (List.length_take_le _ _)

/-- The elements of a sorted list up to one of them come before it, and those from it on behind. -/
theorem sorted_start {xs : List α} {a : α} {i : Nat} (ht : Turns cmp)
    (h : xs.Pairwise fun a b => cmp a b ≤ 0) (hi : xs[i]? = some a) :
    (∀ b ∈ xs.take (i + 1), cmp b a ≤ 0) ∧ ∀ b ∈ xs.drop i, cmp a b ≤ 0 := by
  obtain ⟨hlt, rfl⟩ := List.getElem?_eq_some_iff.1 hi
  have hself := ht.self xs[i]
  rw [← List.take_append_drop i xs, List.drop_eq_getElem_cons hlt, List.pairwise_append,
    List.pairwise_cons] at h
  obtain ⟨-, ⟨hbehind, -⟩, hbefore⟩ := h
  constructor
  · intro b hb
    rw [List.take_succ_eq_append_getElem hlt, List.mem_append, List.mem_singleton] at hb
    obtain hb | rfl := hb
    · exact hbefore b hb _ List.mem_cons_self
    · omega
  · intro b hb
    rw [List.drop_eq_getElem_cons hlt, List.mem_cons] at hb
    obtain rfl | hb := hb
    · omega
    · exact hbehind b hb

/-- Two sorted orders of the same elements agree up to equal ones. -/
theorem sorted_not_lt {xs ys : List α} {a b : α} {i : Nat} (ht : Turns cmp) (h : TransOn (· ∈ xs) cmp)
    (hperm : ys.Perm xs) (hx : xs.Pairwise fun a b => cmp a b ≤ 0)
    (hy : ys.Pairwise fun a b => cmp a b ≤ 0) (ha : xs[i]? = some a) (hb : ys[i]? = some b) :
    ¬ cmp a b < 0 := by
  intro hlt
  have hamem := List.mem_of_getElem? ha
  have hbmem := hperm.mem_iff.1 (List.mem_of_getElem? hb)
  have hstart := @countP_start _ xs (fun c => cmp c b < 0) i a ha fun c hc => by
    have hca := (sorted_start ht hx ha).1 c hc
    have hcmem := List.mem_of_mem_take hc
    have hcb := h c a b hcmem hamem hbmem hca (Int.le_of_lt hlt)
    refine decide_eq_true (Int.lt_iff_le_and_ne.2 ⟨hcb, fun hzero => ?_⟩)
    have hends := h.eq_of_ends ht hcmem hamem hbmem hca (Int.le_of_lt hlt) hzero
    omega
  have hend := @countP_end _ ys (fun c => cmp c b < 0) i fun c hc hcb => by
    have hbc := (sorted_start ht hy hb).2 c hc
    have hturn := ht b c
    have hneg := of_decide_eq_true hcb
    omega
  rw [hperm.countP_eq] at hend
  omega

/-- The order of the input shows among equal elements only. -/
theorem sortBy_equal {xs ys : List α} (ht : Turns cmp) (h : TransOn (· ∈ xs) cmp)
    (hperm : ys.Perm xs) :
    List.Forall₂ (fun a b => cmp a b = 0) (sortBy cmp xs) (sortBy cmp ys) := by
  have hx := pairwise_sortBy ht h
  have hy := pairwise_sortBy ht (h.mono fun a ha => hperm.mem_iff.1 ha)
  have hboth : (sortBy cmp ys).Perm (sortBy cmp xs) :=
    ((sortBy_perm ys).trans hperm).trans (sortBy_perm xs).symm
  have hxs : TransOn (· ∈ sortBy cmp xs) cmp := h.mono fun a ha => (sortBy_perm xs).mem_iff.1 ha
  have hys : TransOn (· ∈ sortBy cmp ys) cmp := hxs.mono fun a ha => hboth.mem_iff.1 ha
  refine List.forall₂_iff_get.2 ⟨hboth.length_eq.symm, fun i hi hj => ?_⟩
  have ha := List.getElem?_eq_getElem hi
  have hb := List.getElem?_eq_getElem hj
  have hlt := sorted_not_lt ht hxs hboth hx hy ha hb
  have hgt := mt ht.lt.2 (sorted_not_lt ht hys hboth.symm hy hx hb ha)
  show cmp (sortBy cmp xs)[i] (sortBy cmp ys)[i] = 0
  omega

end Kompjutr.Compare
