/-
  Kompjutr.Lib.RecursiveUnion

  The rows of a recursive `UNION` with a `LIMIT`: rows leave a queue in order, and each
  adds to it what is not yet known.

  Every row is reachable from the first and comes once; a run that stops below its limit
  has all of them.
-/
import Mathlib.Data.List.Nodup
import Mathlib.Logic.Relation

namespace Kompjutr.RecursiveUnion

open List (append_nil foldl_cons mem_append mem_append_left mem_append_right mem_singleton)

variable {limit : Nat}

variable {α : Type} [DecidableEq α]

/-- What a `UNION` adds to the values it knows, in order. -/
def fresh (known values : List α) : List α :=
  values.foldl (fun added value => if value ∈ known ++ added then added else added ++ [value]) []

def rows (next : α → List α) : Nat → List α → List α → List α
  | 0, _, _ => []
  | _ + 1, [], _ => []
  | limit + 1, row :: queue, known =>
    let added := fresh known (next row)
    row :: rows next limit (queue ++ added) (known ++ added)

/-- The values that are reached from `root`. -/
def Reaches (next : α → List α) (root : α) : α → Prop :=
  Relation.ReflTransGen (fun a b => b ∈ next a) root

-- New values

variable {known : List α}

/-- The fold of `fresh`, with what was added so far. -/
theorem fresh_fold {values added : List α} (hadded : (known ++ added).Nodup) :
    let out := values.foldl
      (fun added value => if value ∈ known ++ added then added else added ++ [value]) added
    (known ++ out).Nodup ∧ (∀ value ∈ added, value ∈ out) ∧
      (∀ value ∈ values, value ∈ known ++ out) ∧
      ∀ value ∈ out, value ∈ added ∨ value ∈ values := by
  induction values generalizing added with
  | nil => exact ⟨hadded, fun _ h => h, nofun, fun _ h => .inl h⟩
  | cons value values ih =>
    rw [foldl_cons]
    by_cases hknown : value ∈ known ++ added
    · rw [if_pos hknown]
      obtain ⟨hnodup, hkept, hall, hfrom⟩ := ih hadded
      refine ⟨hnodup, hkept, fun other hother => ?_, fun other hother => ?_⟩
      · rcases List.mem_cons.1 hother with rfl | hother
        · rcases mem_append.1 hknown with hknown | hknown
          · exact mem_append_left _ hknown
          · exact mem_append_right _ (hkept _ hknown)
        · exact hall other hother
      · exact (hfrom other hother).imp_right (List.mem_cons_of_mem _)
    · rw [if_neg hknown]
      have hnext : (known ++ (added ++ [value])).Nodup := by
        rw [← List.append_assoc]
        refine List.Nodup.append hadded (List.nodup_singleton value) ?_
        intro other hother hvalue
        rw [mem_singleton.1 hvalue] at hother
        exact hknown hother
      obtain ⟨hnodup, hkept, hall, hfrom⟩ := ih hnext
      refine ⟨hnodup, fun other hother => hkept other (mem_append_left _ hother),
        fun other hother => ?_, fun other hother => ?_⟩
      · rcases List.mem_cons.1 hother with rfl | hother
        · exact mem_append_right _ (hkept _ (mem_append_right _ (List.mem_singleton_self _)))
        · exact hall other hother
      · rcases hfrom other hother with hother | hother
        · rcases mem_append.1 hother with hother | hother
          · exact .inl hother
          · rw [mem_singleton.1 hother]
            exact .inr List.mem_cons_self
        · exact .inr (List.mem_cons_of_mem _ hother)

theorem nodup_fresh (h : known.Nodup) (values : List α) : (known ++ fresh known values).Nodup :=
  (fresh_fold (by rw [append_nil]; exact h)).1

theorem mem_known_fresh (h : known.Nodup) {values : List α} {value : α}
    (hvalue : value ∈ values) : value ∈ known ++ fresh known values :=
  (fresh_fold (by rw [append_nil]; exact h)).2.2.1 value hvalue

theorem mem_of_mem_fresh (h : known.Nodup) {values : List α} {value : α}
    (hvalue : value ∈ fresh known values) : value ∈ values :=
  ((fresh_fold (by rw [append_nil]; exact h)).2.2.2 value hvalue).resolve_left
    List.not_mem_nil

/-- Values taken one at a time. -/
theorem foldl_insert (known values : List α) :
    values.foldl (fun known value => if value ∈ known then known else known ++ [value]) known =
      known ++ fresh known values := by
  have hfold : ∀ added, values.foldl
      (fun known value => if value ∈ known then known else known ++ [value]) (known ++ added) =
      known ++ values.foldl
        (fun added value => if value ∈ known ++ added then added else added ++ [value]) added := by
    induction values with
    | nil => exact fun added => rfl
    | cons value values ih =>
      intro added
      rw [foldl_cons, foldl_cons]
      split
      · exact ih added
      · rw [List.append_assoc]
        exact ih (added ++ [value])
  have hnil := hfold []
  rw [append_nil] at hnil
  exact hnil

-- Runs

variable {next : α → List α}

/-- Between two steps: what left the queue and what is in it are all that is known, and what
    left it has added its successors. -/
structure Between (next : α → List α) (root : α) (emitted queue known : List α) : Prop where
  known_eq : known = emitted ++ queue
  nodup : known.Nodup
  root_mem : root ∈ known
  closed : ∀ a ∈ emitted, ∀ b ∈ next a, b ∈ known
  reaches : ∀ a ∈ known, Reaches next root a

omit [DecidableEq α] in
theorem Between.start (root : α) : Between next root [] [root] [root] where
  known_eq := rfl
  nodup := List.nodup_singleton root
  root_mem := List.mem_singleton_self root
  closed := nofun
  reaches := fun a h => by rw [mem_singleton.1 h]; exact .refl

theorem Between.step {root row : α} {emitted queue known : List α}
    (h : Between next root emitted (row :: queue) known) :
    Between next root (emitted ++ [row]) (queue ++ fresh known (next row))
      (known ++ fresh known (next row)) where
  known_eq := by rw [h.known_eq]; simp
  nodup := nodup_fresh h.nodup _
  root_mem := mem_append_left _ h.root_mem
  closed := by
    intro a ha b hb
    rcases mem_append.1 ha with ha | ha
    · exact mem_append_left _ (h.closed a ha b hb)
    · rw [mem_singleton.1 ha] at hb
      exact mem_known_fresh h.nodup hb
  reaches := by
    intro a ha
    rcases mem_append.1 ha with ha | ha
    · exact h.reaches a ha
    · have hrow : row ∈ known := by
        rw [h.known_eq]
        exact mem_append_right _ List.mem_cons_self
      exact (h.reaches row hrow).tail (mem_of_mem_fresh h.nodup ha)

/-- What the rows of a run are, by induction on the limit. -/
theorem rows_spec {root : α} {emitted queue : List α} (h : Between next root emitted queue known) :
    (emitted ++ rows next limit queue known).Nodup ∧
      (∀ a ∈ emitted ++ rows next limit queue known, Reaches next root a) ∧
      ((rows next limit queue known).length < limit →
        Between next root (emitted ++ rows next limit queue known) []
          (emitted ++ rows next limit queue known)) := by
  induction limit generalizing emitted queue known with
  | zero =>
    have hsub : ∀ a ∈ emitted ++ rows next 0 queue known, a ∈ known := by
      intro a ha
      rw [rows, append_nil] at ha
      rw [h.known_eq]
      exact mem_append_left _ ha
    refine ⟨?_, fun a ha => h.reaches a (hsub a ha), fun hlt => absurd hlt (Nat.not_lt_zero _)⟩
    rw [rows, append_nil]
    have hnodup := h.nodup
    rw [h.known_eq] at hnodup
    exact (List.nodup_append.1 hnodup).1
  | succ limit ih =>
    cases queue with
    | nil =>
      have hknown : known = emitted := by rw [h.known_eq, append_nil]
      rw [rows, append_nil]
      subst hknown
      exact ⟨h.nodup, h.reaches, fun _ => h⟩
    | cons row queue =>
      have hrows : emitted ++ rows next (limit + 1) (row :: queue) known =
          emitted ++ [row] ++ rows next limit (queue ++ fresh known (next row))
            (known ++ fresh known (next row)) := by
        rw [rows, List.append_assoc]
        rfl
      obtain ⟨hnodup, hreaches, hbetween⟩ := ih h.step
      rw [hrows]
      refine ⟨hnodup, hreaches, fun hlt => hbetween ?_⟩
      rw [rows, List.length_cons] at hlt
      exact Nat.lt_of_succ_lt_succ hlt

theorem nodup_rows (root : α) (limit : Nat) : (rows next limit [root] [root]).Nodup :=
  (rows_spec (Between.start root)).1

theorem reaches_of_mem_rows {root a : α} (h : a ∈ rows next limit [root] [root]) :
    Reaches next root a :=
  (rows_spec (Between.start root)).2.1 a h

/-- A run below its limit has everything that is reached. -/
theorem mem_rows_of_reaches {root a : α}
    (hlimit : (rows next limit [root] [root]).length < limit) (h : Reaches next root a) :
    a ∈ rows next limit [root] [root] := by
  have hall := (rows_spec (Between.start root)).2.2 hlimit
  rw [List.nil_append] at hall
  induction h with
  | refl => exact hall.root_mem
  | tail _ hstep ih => exact hall.closed _ ih _ hstep

theorem mem_rows_iff {root a : α} (hlimit : (rows next limit [root] [root]).length < limit) :
    a ∈ rows next limit [root] [root] ↔ Reaches next root a :=
  ⟨reaches_of_mem_rows, mem_rows_of_reaches hlimit⟩

end Kompjutr.RecursiveUnion
