/-
  Kompjutr.Lib.ForestSize

  What a forest measures: the weights of its nodes, the number of its directories, and bounds on
  the nodes of a directory.

  A cursor on the way has them as the forest that it builds has them in the end, for the part of
  the listing that it has seen: closing a directory changes no measure (`Cursor.total_close`,
  `Cursor.bounded_close`).
-/
import Kompjutr.Lib.Forest
import Mathlib.Algebra.GroupWithZero.Nat

namespace Kompjutr.Forest

variable {σ α : Type}

/-- The size of nodes, when each has a weight. -/
def size (weight : Node σ α → Nat) (nodes : List (Node σ α)) : Nat := (nodes.map weight).sum

theorem size_append (weight : Node σ α → Nat) (left right : List (Node σ α)) :
    size weight (left ++ right) = size weight left + size weight right := by
  rw [size, List.map_append, List.sum_append]
  rfl

theorem size_concat (weight : Node σ α → Nat) (nodes : List (Node σ α)) (node : Node σ α) :
    size weight (nodes ++ [node]) = size weight nodes + weight node := by
  rw [size_append]
  rfl

namespace Cursor

/-- All that a cursor has, the directories that are open with it. -/
def total (weight : Node σ α → Nat) (cursor : Cursor σ α) : Nat :=
  (cursor.closed.map (size weight)).sum + size weight cursor.top +
    (cursor.below.map fun opened => size weight opened.2 + weight (.dir opened.1 [])).sum

variable {weight : Node σ α → Nat}

theorem total_close (h : ∀ name children, weight (.dir name children) = weight (.dir name []))
    (cursor : Cursor σ α) : cursor.close.total weight = cursor.total weight := by
  cases hbelow : cursor.below with
  | nil => rw [close, hbelow]
  | cons first below =>
    obtain ⟨name, nodes⟩ := first
    rw [close_cons hbelow, total, total, hbelow, List.map_append, List.sum_append,
      List.map_singleton, List.sum_singleton, size_concat, h, List.map_cons, List.sum_cons]
    dsimp only
    omega

theorem total_closeTimes (h : ∀ name children, weight (.dir name children) = weight (.dir name []))
    (times : Nat) (cursor : Cursor σ α) :
    (closeTimes times cursor).total weight = cursor.total weight := by
  induction times generalizing cursor with
  | zero => rfl
  | succ times ih => rw [closeTimes, ih, total_close h]

theorem total_enter (cursor : Cursor σ α) (name : σ) :
    (cursor.enter name).total weight = cursor.total weight + weight (.dir name []) := by
  have hnil : size weight ([] : List (Node σ α)) = 0 := rfl
  rw [enter, total, total, List.map_cons, List.sum_cons, hnil]
  dsimp only
  omega

theorem total_push (cursor : Cursor σ α) (name : σ) (value : α) :
    (cursor.push name value).total weight = cursor.total weight + weight (.leaf name value) := by
  rw [push, total, total, size_concat]
  dsimp only
  omega

theorem total_le_foldl_enter (names : List σ) (cursor : Cursor σ α) :
    cursor.total weight ≤ (names.foldl enter cursor).total weight := by
  induction names generalizing cursor with
  | nil => exact le_refl _
  | cons name names ih =>
    refine le_trans ?_ (ih (cursor.enter name))
    rw [total_enter]
    exact Nat.le_add_right _ _

section

variable [DecidableEq σ] (h : ∀ name children, weight (.dir name children) = weight (.dir name []))
  (cursor : Cursor σ α)

include h cursor

theorem total_le_step (entry : Entry σ α) :
    cursor.total weight ≤ (cursor.step entry).total weight := by
  unfold step
  dsimp only
  rw [total_push]
  refine le_trans ?_ (Nat.le_add_right _ _)
  refine le_trans ?_ (total_le_foldl_enter _ _)
  rw [total_closeTimes h]

theorem total_le_steps (entries : List (Entry σ α)) :
    cursor.total weight ≤ (entries.foldl step cursor).total weight := by
  induction entries generalizing cursor with
  | nil => exact le_refl _
  | cons entry entries ih => exact le_trans (total_le_step h cursor entry) (ih _)

end

theorem size_top_le (cursor : Cursor σ α) : size weight cursor.top ≤ cursor.total weight := by
  rw [total]
  omega

/-- The directories there are, with those that are open. -/
def directories (cursor : Cursor σ α) : Nat := cursor.closed.length + cursor.below.length + 1

theorem directories_close (cursor : Cursor σ α) : cursor.close.directories = cursor.directories := by
  cases hbelow : cursor.below with
  | nil => rw [close, hbelow]
  | cons first below =>
    obtain ⟨name, nodes⟩ := first
    rw [close_cons hbelow, directories, directories, hbelow, List.length_append,
      List.length_singleton, List.length_cons]
    dsimp only
    omega

theorem directories_closeTimes (times : Nat) (cursor : Cursor σ α) :
    (closeTimes times cursor).directories = cursor.directories := by
  induction times generalizing cursor with
  | zero => rfl
  | succ times ih => rw [closeTimes, ih, directories_close]

theorem directories_enter (cursor : Cursor σ α) (name : σ) :
    (cursor.enter name).directories = cursor.directories + 1 := by
  rw [enter, directories, directories, List.length_cons]
  rfl

theorem directories_push (cursor : Cursor σ α) (name : σ) (value : α) :
    (cursor.push name value).directories = cursor.directories := rfl

end Cursor

-- Bounds

/-- A bound on lists of nodes that a part keeps, and that does not look into directories. -/
structure Limit (bound : List (Node σ α) → Prop) : Prop where
  nil : bound []
  part : ∀ nodes node, bound (nodes ++ [node]) → bound nodes
  outer : ∀ nodes name children, bound (nodes ++ [.dir name children]) ↔
    bound (nodes ++ [.dir name []])

namespace Cursor

/-- Every list of nodes in a cursor has the bound, the directory that is open in it counted. -/
structure Bounded (bound : List (Node σ α) → Prop) (cursor : Cursor σ α) : Prop where
  top : bound cursor.top
  below : ∀ opened ∈ cursor.below, bound (opened.2 ++ [.dir opened.1 []])
  closed : ∀ nodes ∈ cursor.closed, bound nodes

variable {bound : List (Node σ α) → Prop}

theorem bounded_close (h : Limit bound) (cursor : Cursor σ α) :
    Bounded bound cursor.close ↔ Bounded bound cursor := by
  cases hbelow : cursor.below with
  | nil => rw [close, hbelow]
  | cons first below =>
    obtain ⟨name, nodes⟩ := first
    rw [close_cons hbelow]
    constructor
    · rintro ⟨htop, hrest, hclosed⟩
      refine ⟨hclosed _ (List.mem_append_right _ List.mem_cons_self), ?_,
        fun nodes hnodes => hclosed nodes (List.mem_append_left _ hnodes)⟩
      rw [hbelow]
      exact List.forall_mem_cons.2 ⟨(h.outer nodes name _).1 htop, hrest⟩
    · rintro ⟨htop, hrest, hclosed⟩
      rw [hbelow, List.forall_mem_cons] at hrest
      refine ⟨(h.outer nodes name _).2 hrest.1, hrest.2, ?_⟩
      exact List.forall_mem_append.2 ⟨hclosed, List.forall_mem_singleton.2 htop⟩

theorem bounded_closeTimes (h : Limit bound) (times : Nat) (cursor : Cursor σ α) :
    Bounded bound (closeTimes times cursor) ↔ Bounded bound cursor := by
  induction times generalizing cursor with
  | zero => exact Iff.rfl
  | succ times ih => rw [closeTimes, ih, bounded_close h]

theorem bounded_enter (h : Limit bound) (cursor : Cursor σ α) (name : σ) :
    Bounded bound (cursor.enter name) ↔
      Bounded bound cursor ∧ bound (cursor.top ++ [.dir name []]) := by
  constructor
  · rintro ⟨-, hbelow, hclosed⟩
    have hbelow := List.forall_mem_cons.1 hbelow
    exact ⟨⟨h.part _ _ hbelow.1, hbelow.2, hclosed⟩, hbelow.1⟩
  · rintro ⟨⟨-, hbelow, hclosed⟩, hnew⟩
    exact ⟨h.nil, List.forall_mem_cons.2 ⟨hnew, hbelow⟩, hclosed⟩

theorem bounded_push (h : Limit bound) (cursor : Cursor σ α) (name : σ) (value : α) :
    Bounded bound (cursor.push name value) ↔
      Bounded bound cursor ∧ bound (cursor.top ++ [.leaf name value]) := by
  constructor
  · rintro ⟨htop, hbelow, hclosed⟩
    exact ⟨⟨h.part _ _ htop, hbelow, hclosed⟩, htop⟩
  · rintro ⟨⟨-, hbelow, hclosed⟩, hnew⟩
    exact ⟨hnew, hbelow, hclosed⟩

theorem closeTimes_opened (cursor : Cursor σ α) :
    (closeTimes cursor.opened.length cursor).below = [] := by
  rw [below_closeTimes]
  exact List.drop_of_length_le (by rw [opened, List.length_reverse, List.length_map])

theorem bounded_finish (h : Limit bound) (cursor : Cursor σ α) :
    (∀ nodes ∈ cursor.finish.closed, bound nodes) ↔ Bounded bound cursor := by
  rw [← bounded_closeTimes h cursor.opened.length]
  have hbelow := closeTimes_opened cursor
  show (∀ nodes ∈ (closeTimes cursor.opened.length cursor).closed ++
    [(closeTimes cursor.opened.length cursor).top], bound nodes) ↔ _
  rw [List.forall_mem_append, List.forall_mem_singleton]
  constructor
  · rintro ⟨hclosed, htop⟩
    refine ⟨htop, ?_, hclosed⟩
    rw [hbelow]
    exact fun _ hopened => nomatch hopened
  · rintro ⟨htop, -, hclosed⟩
    exact ⟨hclosed, htop⟩

theorem total_finish {weight : Node σ α → Nat}
    (h : ∀ name children, weight (.dir name children) = weight (.dir name []))
    (cursor : Cursor σ α) :
    (cursor.finish.closed.map (size weight)).sum = cursor.total weight := by
  rw [← total_closeTimes h cursor.opened.length, total, closeTimes_opened]
  show (((closeTimes cursor.opened.length cursor).closed ++
    [(closeTimes cursor.opened.length cursor).top]).map (size weight)).sum = _
  rw [List.map_append, List.sum_append, List.map_singleton, List.sum_singleton]
  rfl

theorem directories_finish (cursor : Cursor σ α) :
    cursor.finish.closed.length = cursor.directories := by
  rw [← directories_closeTimes cursor.opened.length, directories, closeTimes_opened]
  show ((closeTimes cursor.opened.length cursor).closed ++
    [(closeTimes cursor.opened.length cursor).top]).length = _
  rw [List.length_append, List.length_singleton]
  rfl

end Cursor

end Kompjutr.Forest
