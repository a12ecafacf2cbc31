/-
  Kompjutr.Lib.LinearProbe

  Open addressing with linear probing.  A table of `n` positions is a function from positions to
  the keys that stand there; a key is looked for from its home on, position by position, around
  the end.

  A table is `Sound` when every key stands once, and where its lookup passes.  A lookup in a table
  with a free position ends (`seek_settles`), and at a free position only when the key is nowhere
  (`Sound.absent`); a key that is put there keeps the table sound (`Sound.put`).
-/
import Mathlib.Data.Nat.Find
import Mathlib.Data.List.Basic

namespace Kompjutr.LinearProbe

variable {n distance : Nat}

variable {κ : Type}

/-- Look at one position after the other, around the end, until one fits: the position, with the
    number of those that were looked at. -/
def seek (n : Nat) (fits : Nat → Bool) : Nat → Nat → Nat → Option (Nat × Nat)
  | 0, _, _ => none
  | fuel + 1, position, visited =>
    if fits position then some (position, visited)
    else seek n fits fuel ((position + 1) % n) (visited + 1)

theorem seek_eq {fits : Nat → Bool} {position : Nat} (visited : Nat)
    (hposition : position < n) (hfits : fits ((position + distance) % n) = true)
    (hbefore : ∀ e < distance, fits ((position + e) % n) = false) {fuel : Nat}
    (hfuel : distance < fuel) :
    seek n fits fuel position visited =
      some ((position + distance) % n, visited + distance) := by
  induction distance generalizing position visited fuel with
  | zero =>
    obtain ⟨fuel, rfl⟩ : ∃ k, fuel = k + 1 := ⟨fuel - 1, by omega⟩
    rw [Nat.add_zero, Nat.mod_eq_of_lt hposition] at hfits
    rw [seek, if_pos hfits, Nat.add_zero, Nat.mod_eq_of_lt hposition, Nat.add_zero]
  | succ distance ih =>
    obtain ⟨fuel, rfl⟩ : ∃ k, fuel = k + 1 := ⟨fuel - 1, by omega⟩
    have hshift : ∀ e, ((position + 1) % n + e) % n = (position + (e + 1)) % n := by
      intro e
      rw [Nat.mod_add_mod, Nat.add_assoc, Nat.add_comm 1]
    have hno := hbefore 0 (by omega)
    rw [Nat.add_zero, Nat.mod_eq_of_lt hposition] at hno
    rw [seek, hno, if_neg Bool.false_ne_true, ih (visited + 1) (Nat.mod_lt _ (by omega))
      (by rwa [hshift]) (fun e he => by rw [hshift]; exact hbefore _ (by omega)) (by omega), hshift,
      Nat.add_assoc, Nat.add_comm 1]

/-- With a position that fits, the search ends, at the first one that does. -/
theorem seek_settles {n : Nat} {fits : Nat → Bool} {position : Nat} (hposition : position < n)
    (hsome : ∃ p < n, fits p = true) :
    ∃ distance < n, fits ((position + distance) % n) = true ∧
      (∀ e < distance, fits ((position + e) % n) = false) ∧
      ∀ fuel visited, n ≤ fuel → seek n fits fuel position visited =
        some ((position + distance) % n, visited + distance) := by
  have hexists : ∃ distance, fits ((position + distance) % n) = true := by
    obtain ⟨p, hp, hfits⟩ := hsome
    refine ⟨p + (n - position), ?_⟩
    rwa [show position + (p + (n - position)) = p + n by omega, Nat.add_mod_right,
      Nat.mod_eq_of_lt hp]
  have hlt : Nat.find hexists < n := by
    obtain ⟨p, hp, hfits⟩ := hsome
    by_cases hle : position ≤ p
    · refine Nat.lt_of_le_of_lt (Nat.find_min' hexists (m := p - position) ?_) (by omega)
      rwa [show position + (p - position) = p by omega, Nat.mod_eq_of_lt hp]
    · refine Nat.lt_of_le_of_lt (Nat.find_min' hexists (m := p + n - position) ?_) (by omega)
      rwa [show position + (p + n - position) = p + n by omega, Nat.add_mod_right,
        Nat.mod_eq_of_lt hp]
  have hbefore : ∀ e < Nat.find hexists, fits ((position + e) % n) = false := fun e he =>
    Bool.eq_false_iff.2 (Nat.find_min hexists he)
  exact ⟨Nat.find hexists, hlt, Nat.find_spec hexists, hbefore, fun fuel visited hfuel =>
    seek_eq visited hposition (Nat.find_spec hexists) hbefore (by omega)⟩

/-- Every key stands once, and its lookup passes only taken positions. -/
structure Sound (n : Nat) (home : κ → Nat) (slots : Nat → Option κ) : Prop where
  once : ∀ {p q key}, p < n → q < n → slots p = some key → slots q = some key → p = q
  chained : ∀ {p key}, p < n → slots p = some key →
    ∃ distance, (home key + distance) % n = p ∧
      ∀ e < distance, slots ((home key + e) % n) ≠ none

theorem Sound.empty (n : Nat) (home : κ → Nat) : Sound n home (fun _ => none) where
  once := fun _ _ h => nomatch h
  chained := fun _ h => nomatch h

/-- A lookup that ends at a free position has found that the key is not there. -/
theorem Sound.absent {home : κ → Nat} {slots : Nat → Option κ} (h : Sound n home slots)
    {key : κ} (hfree : slots ((home key + distance) % n) = none)
    (hbefore : ∀ e < distance, slots ((home key + e) % n) ≠ some key) {p : Nat} (hp : p < n) :
    slots p ≠ some key := by
  intro hkey
  obtain ⟨other, hother, hchain⟩ := h.chained hp hkey
  rcases Nat.lt_trichotomy distance other with hlt | rfl | hlt
  · exact hchain distance hlt hfree
  · rw [hother, hkey] at hfree
    cases hfree
  · exact hbefore other hlt (hother ▸ hkey)

/-- A key that is nowhere, put where its lookup ends. -/
theorem Sound.put {n : Nat} {home : κ → Nat} {slots slots' : Nat → Option κ}
    (h : Sound n home slots) {key : κ} {distance : Nat}
    (hbefore : ∀ e < distance, slots ((home key + e) % n) ≠ none)
    (habsent : ∀ p < n, slots p ≠ some key)
    (hfree : slots ((home key + distance) % n) = none)
    (hput : slots' ((home key + distance) % n) = some key)
    (hkeep : ∀ p < n, p ≠ (home key + distance) % n → slots' p = slots p) :
    Sound n home slots' := by
  have htaken : ∀ {p}, p < n → slots p ≠ none → slots' p ≠ none := by
    intro p hp hsome
    rw [hkeep p hp fun hsame => hsome (hsame ▸ hfree)]
    exact hsome
  constructor
  · intro p q other hp hq hpkey hqkey
    by_cases hpsame : p = (home key + distance) % n
    · by_cases hqsame : q = (home key + distance) % n
      · rw [hpsame, hqsame]
      · rw [hpsame, hput] at hpkey
        rw [hkeep q hq hqsame, ← hpkey] at hqkey
        exact absurd hqkey (habsent q hq)
    · rw [hkeep p hp hpsame] at hpkey
      by_cases hqsame : q = (home key + distance) % n
      · rw [hqsame, hput] at hqkey
        rw [← hqkey] at hpkey
        exact absurd hpkey (habsent p hp)
      · rw [hkeep q hq hqsame] at hqkey
        exact h.once hp hq hpkey hqkey
  · intro p other hp hother
    by_cases hsame : p = (home key + distance) % n
    · rw [hsame, hput] at hother
      cases hother
      exact ⟨distance, hsame.symm, fun e he => htaken (Nat.mod_lt _ (by omega)) (hbefore e he)⟩
    · rw [hkeep p hp hsame] at hother
      obtain ⟨other', hother', hchain⟩ := h.chained hp hother
      exact ⟨other', hother', fun e he => htaken (Nat.mod_lt _ (by omega)) (hchain e he)⟩

end Kompjutr.LinearProbe
