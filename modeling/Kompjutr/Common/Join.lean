/-
  Kompjutr.Common.Join

  `joinSorted` and `joinSorted3` of `common/streams.ts`: two or three path-sorted streams walked as
  one.  A stream is the list of what it still holds.

  A turn takes the heads at the least path.  What is left is not below it, so the rows ascend
  (`joinSorted_rows`, `joinSorted3_rows`).
-/
import Kompjutr.Common.Streams

namespace Kompjutr.Streams

open Objects (Text)
open Utf8 (octets)

structure JoinedRow (L R : Type) where
  path : Text
  left : Option L
  right : Option R
  deriving DecidableEq

structure JoinedRow3 (A B C : Type) where
  path : Text
  a : Option A
  b : Option B
  c : Option C
  deriving DecidableEq

variable {L R A B C : Type}

def joinSorted (leftKey : L → Text) (rightKey : R → Text) : List L → List R → List (JoinedRow L R)
  | [], [] => []
  | [], rightHead :: right =>
    { path := rightKey rightHead, left := none, right := some rightHead } ::
      joinSorted leftKey rightKey [] right
  | leftHead :: left, [] =>
    { path := leftKey leftHead, left := some leftHead, right := none } ::
      joinSorted leftKey rightKey left []
  | leftHead :: left, rightHead :: right =>
    let order := comparePaths (leftKey leftHead) (rightKey rightHead)
    { path := if order ≤ 0 then leftKey leftHead else rightKey rightHead
      left := if order ≤ 0 then some leftHead else none
      right := if 0 ≤ order then some rightHead else none } ::
      joinSorted leftKey rightKey (if order ≤ 0 then left else leftHead :: left)
        (if 0 ≤ order then right else rightHead :: right)
termination_by left right => left.length + right.length
decreasing_by
  · simp only [List.length_cons]
    omega
  · simp only [List.length_cons]
    omega
  · split_ifs <;> simp only [List.length_cons] <;> omega

/-- The path, or the key where that is below it. -/
def lower (path : Text) (key : Option Text) : Text :=
  if key.any fun key => comparePaths key path < 0 then key.getD path else path

/-- The least of the keys of the heads. -/
def leastPath (keyA keyB keyC : Option Text) : Text :=
  lower (lower (((keyA.or keyB).or keyC).getD []) keyB) keyC

/-- The head of a stream where it is taken, and what is left. -/
def takeHead (taken : A → Bool) : List A → Option A × List A
  | [] => (none, [])
  | head :: rest => if taken head then (some head, rest) else (none, head :: rest)

theorem takeHead_cons (taken : A → Bool) (head : A) (rest : List A) :
    takeHead taken (head :: rest) =
      if taken head then (some head, rest) else (none, head :: rest) := rfl

theorem takeHead_append (taken : A → Bool) (items : List A) :
    (takeHead taken items).1.toList ++ (takeHead taken items).2 = items := by
  cases items with
  | nil => rfl
  | cons head rest =>
    rw [takeHead_cons]
    split <;> rfl

theorem sublist_takeHead (taken : A → Bool) (items : List A) :
    (takeHead taken items).2.Sublist items := by
  have h := List.sublist_append_right (takeHead taken items).1.toList (takeHead taken items).2
  rwa [takeHead_append] at h

variable {taken : A → Bool}

/-- Where only the head can be taken, it takes every item that is. -/
theorem mem_takeHead {items : List A} (h : ∀ y ∈ items.tail, taken y = false)
    (x : A) : ((takeHead taken items).1 = some x ↔ x ∈ items ∧ taken x = true) ∧
      (x ∈ (takeHead taken items).2 ↔ x ∈ items ∧ taken x = false) := by
  cases items with
  | nil => exact ⟨by simp [takeHead], by simp [takeHead]⟩
  | cons head rest =>
    have hrest : x ∈ rest → taken x = false := h x
    rw [takeHead_cons]
    grind

theorem filterMap_takeHead {Row : Type} {f : Row → Option A} {items : List A}
    {row : Row} {rows : List Row} (hrow : f row = (takeHead taken items).1)
    (hrows : rows.filterMap f = (takeHead taken items).2) :
    (row :: rows).filterMap f = items := by
  have h := takeHead_append taken items
  rw [← hrow, ← hrows] at h
  rw [List.filterMap_cons]
  cases hf : f row <;> rw [hf] at h <;> exact h

/-- The least path is one of the keys, and no key is below it. -/
theorem leastPath_spec {keyA keyB keyC : Option Text}
    (h : ¬(keyA = none ∧ keyB = none ∧ keyC = none)) :
    (keyA = some (leastPath keyA keyB keyC) ∨ keyB = some (leastPath keyA keyB keyC) ∨
      keyC = some (leastPath keyA keyB keyC)) ∧
    (∀ key ∈ keyA, comparePaths (leastPath keyA keyB keyC) key ≤ 0) ∧
    (∀ key ∈ keyB, comparePaths (leastPath keyA keyB keyC) key ≤ 0) ∧
    ∀ key ∈ keyC, comparePaths (leastPath keyA keyB keyC) key ≤ 0 := by
  simp only [comparePaths_le]
  cases keyA <;> cases keyB <;> cases keyC <;>
    simp only [leastPath, lower, comparePaths_lt, Option.or, Option.getD, Option.any_none,
      Option.any_some, decide_eq_true_eq] <;> grind

variable {key : A → Text} {path : Text}

/-- A turn at the key of a head takes that head. -/
theorem length_turn {keyA : A → Text} {keyB : B → Text} {keyC : C → Text} {a : List A}
    {b : List B} {c : List C} (h : a.head?.map keyA = some path ∨
      b.head?.map keyB = some path ∨ c.head?.map keyC = some path) :
    (takeHead (keyA · = path) a).2.length + (takeHead (keyB · = path) b).2.length +
      (takeHead (keyC · = path) c).2.length < a.length + b.length + c.length := by
  have ha := (sublist_takeHead (keyA · = path) a).length_le
  have hb := (sublist_takeHead (keyB · = path) b).length_le
  have hc := (sublist_takeHead (keyC · = path) c).length_le
  rcases h with h | h | h
  · cases a <;> grind [takeHead]
  · cases b <;> grind [takeHead]
  · cases c <;> grind [takeHead]

def joinSorted3 (keyA : A → Text) (keyB : B → Text) (keyC : C → Text) (a : List A) (b : List B)
    (c : List C) : List (JoinedRow3 A B C) :=
  if _h : a = [] ∧ b = [] ∧ c = [] then []
  else
    let path := leastPath (a.head?.map keyA) (b.head?.map keyB) (c.head?.map keyC)
    { path := path
      a := (takeHead (keyA · = path) a).1
      b := (takeHead (keyB · = path) b).1
      c := (takeHead (keyC · = path) c).1 } ::
      joinSorted3 keyA keyB keyC (takeHead (keyA · = path) a).2 (takeHead (keyB · = path) b).2
        (takeHead (keyC · = path) c).2
termination_by a.length + b.length + c.length
decreasing_by
  exact length_turn (leastPath_spec (by simpa using _h)).1

-- Streams in order

/-- A stream in the order of its keys. -/
def Ascending (key : A → Text) (items : List A) : Prop :=
  items.Pairwise fun x y => comparePaths (key x) (key y) ≤ 0

/-- A stream in the order of its keys that repeats none. -/
def Strict (key : A → Text) (items : List A) : Prop :=
  items.Pairwise fun x y => comparePaths (key x) (key y) < 0

/-- No head is below the path. -/
def Above (path : Text) (key : A → Text) (items : List A) : Prop :=
  ∀ k ∈ items.head?.map key, comparePaths path k ≤ 0

/-- What no head is below, no item is. -/
theorem Ascending.least_le {items : List A}
    (h : Ascending key items) (hleast : Above path key items) :
    ∀ x ∈ items, comparePaths path (key x) ≤ 0 := by
  cases items with
  | nil => exact fun _ hx => nomatch hx
  | cons head rest =>
    have hhead := hleast (key head) rfl
    intro x hx
    rcases List.mem_cons.1 hx with rfl | hx
    · exact hhead
    · have hle := (List.pairwise_cons.1 h).1 x hx
      rw [comparePaths_le] at hhead hle ⊢
      exact hhead.trans hle

theorem comparePaths_zero {s t : Text} : comparePaths s t = 0 ↔ octets s = octets t := by
  have hle := @comparePaths_le s t
  have hlt := @comparePaths_lt s t
  refine ⟨fun h => ?_, fun h => ?_⟩
  · exact ((hle.1 h.le).lt_or_eq).resolve_left (mt hlt.2 (by rw [h]; exact lt_irrefl 0))
  · have := hle.2 h.le
    have := mt hlt.1 (not_lt.2 h.ge)
    omega

/-- Behind the head of a stream without repeats, no key is one that nothing is below. -/
theorem Strict.tail_ne {items : List A} (h : Strict key items)
    (hleast : Above path key items) :
    ∀ y ∈ items.tail, comparePaths (key y) path ≠ 0 := by
  cases items with
  | nil => exact fun _ hy => nomatch hy
  | cons head rest =>
    intro y hy heq
    have hlt := comparePaths_lt.1 ((List.pairwise_cons.1 h).1 y hy)
    rw [comparePaths_zero.1 heq] at hlt
    exact absurd (comparePaths_le.1 (hleast _ rfl)) (not_le.2 hlt)

/-- An item at a path, by rank. -/
def atPath {K : Type} [DecidableEq K] (rank : Text → K) (key : A → Text) (path : Text) (x : A) :
    Bool :=
  rank (key x) = rank path

theorem Strict.not_taken {K : Type} [DecidableEq K] {rank : Text → K} {items : List A}
    (h : Strict key items)
    (hrank : ∀ s t, rank s = rank t → octets s = octets t)
    (hleast : Above path key items) :
    ∀ y ∈ items.tail, atPath rank key path y = false :=
  fun y hy => decide_eq_false fun heq =>
    h.tail_ne hleast y hy (comparePaths_zero.2 (hrank _ _ heq))

/-- What was found is the one item that is at the path. -/
def Gathers {K : Type} (rank : Text → K) (key : A → Text) (path : Text) (items : List A)
    (found : Option A) : Prop :=
  ∀ x, found = some x ↔ x ∈ items ∧ rank (key x) = rank path

section

variable {K : Type} [DecidableEq K] {rank : Text → K} {items : List A}
  (htail : ∀ y ∈ items.tail, atPath rank key path y = false)

include htail

theorem gathers_takeHead :
    Gathers rank key path items (takeHead (atPath rank key path) items).1 := by
  intro x
  rw [(mem_takeHead htail x).1, atPath, decide_eq_true_iff]

theorem rest_ne {x : A} (h : x ∈ (takeHead (atPath rank key path) items).2) :
    rank (key x) ≠ rank path :=
  of_decide_eq_false ((mem_takeHead htail x).2.1 h).2

theorem Gathers.of_rest {other : Text} {found : Option A} (hne : rank other ≠ rank path)
    (h : Gathers rank key other (takeHead (atPath rank key path) items).2 found) :
    Gathers rank key other items found := by
  intro x
  rw [h x, (mem_takeHead htail x).2]
  exact ⟨fun hx => ⟨hx.1.1, hx.2⟩, fun hx => ⟨⟨hx.1, decide_eq_false (hx.2 ▸ hne)⟩, hx.2⟩⟩

end

theorem mem_of_head {items : List A} (h : items.head?.map key = some path) :
    ∃ x ∈ items, key x = path := by
  obtain ⟨x, hx, hkey⟩ := Option.map_eq_some_iff.1 h
  exact ⟨x, List.mem_of_mem_head? hx, hkey⟩

theorem mem_of_rest {items : List A} (h : ∃ x ∈ (takeHead taken items).2, key x = path) :
    ∃ x ∈ items, key x = path := by
  obtain ⟨x, hx, hkey⟩ := h
  exact ⟨x, (sublist_takeHead _ _).subset hx, hkey⟩

-- Turns

/-- The rows of three streams taken in turns, each at the least key of the heads. -/
inductive Turns {K : Type} [DecidableEq K] (rank : Text → K) (keyA : A → Text) (keyB : B → Text)
    (keyC : C → Text) : List A → List B → List C → List (JoinedRow3 A B C) → Prop
  | done : Turns rank keyA keyB keyC [] [] [] []
  | turn {a : List A} {b : List B} {c : List C} {path : Text} {rows : List (JoinedRow3 A B C)} :
    (a.head?.map keyA = some path ∨ b.head?.map keyB = some path ∨
      c.head?.map keyC = some path) →
    (Above path keyA a) →
    (Above path keyB b) →
    (Above path keyC c) →
    Turns rank keyA keyB keyC (takeHead (atPath rank keyA path) a).2
      (takeHead (atPath rank keyB path) b).2 (takeHead (atPath rank keyC path) c).2 rows →
    Turns rank keyA keyB keyC a b c
      ({ path := path
         a := (takeHead (atPath rank keyA path) a).1
         b := (takeHead (atPath rank keyB path) b).1
         c := (takeHead (atPath rank keyC path) c).1 } :: rows)

section Turns

variable {K : Type} [DecidableEq K] {rank : Text → K} {keyA : A → Text} {keyB : B → Text}
  {keyC : C → Text} {a : List A} {b : List B} {c : List C} {rows : List (JoinedRow3 A B C)}

section

variable (h : Turns rank keyA keyB keyC a b c rows)

include h

theorem Turns.items :
    rows.filterMap JoinedRow3.a = a ∧ rows.filterMap JoinedRow3.b = b ∧
      rows.filterMap JoinedRow3.c = c := by
  induction h with
  | done => exact ⟨rfl, rfl, rfl⟩
  | turn _ _ _ _ _ ih =>
    exact ⟨filterMap_takeHead rfl ih.1, filterMap_takeHead rfl ih.2.1,
      filterMap_takeHead rfl ih.2.2⟩

/-- A row is at the path of an item. -/
theorem Turns.path_mem : ∀ row ∈ rows,
    (∃ x ∈ a, keyA x = row.path) ∨ (∃ x ∈ b, keyB x = row.path) ∨
      ∃ x ∈ c, keyC x = row.path := by
  induction h with
  | done => exact nofun
  | turn hmin _ _ _ _ ih =>
    intro row hrow
    rcases List.mem_cons.1 hrow with rfl | hrow
    · exact hmin.imp mem_of_head (Or.imp mem_of_head mem_of_head)
    · exact (ih row hrow).imp mem_of_rest (Or.imp mem_of_rest mem_of_rest)

/-- What a turn leaves is not below what it takes. -/
theorem Turns.ascending (hA : Ascending keyA a)
    (hB : Ascending keyB b) (hC : Ascending keyC c) : Ascending JoinedRow3.path rows := by
  induction h with
  | done => exact List.Pairwise.nil
  | turn _ hleA hleB hleC hrest ih =>
    refine List.pairwise_cons.2 ⟨fun row hrow => ?_, ih (hA.sublist (sublist_takeHead _ _))
      (hB.sublist (sublist_takeHead _ _)) (hC.sublist (sublist_takeHead _ _))⟩
    rcases hrest.path_mem row hrow with ⟨x, hx, hkey⟩ | ⟨x, hx, hkey⟩ | ⟨x, hx, hkey⟩
    · rw [← hkey]
      exact hA.least_le hleA x ((sublist_takeHead _ _).subset hx)
    · rw [← hkey]
      exact hB.least_le hleB x ((sublist_takeHead _ _).subset hx)
    · rw [← hkey]
      exact hC.least_le hleC x ((sublist_takeHead _ _).subset hx)

end

/-- Streams without repeats: a row has every item at its path. -/
theorem Turns.gathers (hrank : ∀ s t, rank s = rank t → octets s = octets t)
    (h : Turns rank keyA keyB keyC a b c rows) (hA : Strict keyA a) (hB : Strict keyB b)
    (hC : Strict keyC c) : ∀ row ∈ rows,
      Gathers rank keyA row.path a row.a ∧ Gathers rank keyB row.path b row.b ∧
        Gathers rank keyC row.path c row.c := by
  induction h with
  | done => exact nofun
  | turn _ hleA hleB hleC hrest ih =>
    rename_i path _ _
    have htailA := hA.not_taken hrank hleA
    have htailB := hB.not_taken hrank hleB
    have htailC := hC.not_taken hrank hleC
    intro row hrow
    rcases List.mem_cons.1 hrow with rfl | hrow
    · exact ⟨gathers_takeHead htailA, gathers_takeHead htailB, gathers_takeHead htailC⟩
    · -- What is left has no item at the path of this turn.
      have hpath : rank row.path ≠ rank path := by
        rcases hrest.path_mem row hrow with ⟨x, hx, hkey⟩ | ⟨x, hx, hkey⟩ | ⟨x, hx, hkey⟩
        · exact hkey ▸ rest_ne htailA hx
        · exact hkey ▸ rest_ne htailB hx
        · exact hkey ▸ rest_ne htailC hx
      obtain ⟨hrowA, hrowB, hrowC⟩ := ih (hA.sublist (sublist_takeHead _ _))
        (hB.sublist (sublist_takeHead _ _)) (hC.sublist (sublist_takeHead _ _)) row hrow
      exact ⟨hrowA.of_rest htailA hpath, hrowB.of_rest htailB hpath, hrowC.of_rest htailC hpath⟩

end Turns

theorem joinSorted3_turns (keyA : A → Text) (keyB : B → Text) (keyC : C → Text) (a : List A)
    (b : List B) (c : List C) :
    Turns id keyA keyB keyC a b c (joinSorted3 keyA keyB keyC a b c) := by
  induction a, b, c using joinSorted3.induct keyA keyB keyC with
  | case1 a b c h =>
    rw [joinSorted3, dif_pos h]
    obtain ⟨rfl, rfl, rfl⟩ := h
    exact Turns.done
  | case2 a b c h path ih =>
    obtain ⟨hmin, hleA, hleB, hleC⟩ := @leastPath_spec (a.head?.map keyA) (b.head?.map keyB)
      (c.head?.map keyC) (by simpa using h)
    rw [joinSorted3, dif_neg h]
    exact Turns.turn hmin hleA hleB hleC ih

/-- A row of two streams, the third without a head. -/
def JoinedRow.toRow3 (row : JoinedRow L R) : JoinedRow3 L R Empty :=
  { path := row.path, a := row.left, b := row.right, c := none }

section Two

variable {leftKey : L → Text} {rightKey : R → Text} {left : List L} {right : List R} {path : Text}

theorem turns_two {rows : List (JoinedRow L R)} {row : JoinedRow L R} {leftRest : List L}
    {rightRest : List R}
    (hmin : left.head?.map leftKey = some row.path ∨ right.head?.map rightKey = some row.path)
    (hleft : Above row.path leftKey left)
    (hright : Above row.path rightKey right)
    (htakeLeft : takeHead (atPath octets leftKey row.path) left = (row.left, leftRest))
    (htakeRight : takeHead (atPath octets rightKey row.path) right = (row.right, rightRest))
    (hrest : Turns octets leftKey rightKey Empty.elim leftRest rightRest []
      (rows.map JoinedRow.toRow3)) :
    Turns octets leftKey rightKey Empty.elim left right []
      ((row :: rows).map JoinedRow.toRow3) := by
  have h := @Turns.turn _ _ _ _ _ octets leftKey rightKey Empty.elim left right [] row.path
    (rows.map JoinedRow.toRow3) (hmin.imp_right Or.inl) hleft hright (nofun)
  rw [htakeLeft, htakeRight] at h
  exact h hrest

theorem above_cons {head : A} (h : comparePaths path (key head) ≤ 0) (rest : List A) :
    Above path key (head :: rest) := by
  rintro _ ⟨⟩
  exact h

theorem above_self (head : A) (rest : List A) : Above (key head) key (head :: rest) :=
  above_cons (comparePaths_le.2 le_rfl) rest

theorem takeHead_at {head : A} (h : octets (key head) = octets path) (rest : List A) :
    takeHead (atPath octets key path) (head :: rest) = (some head, rest) :=
  if_pos (decide_eq_true h)

theorem takeHead_not_at {head : A} (h : octets (key head) ≠ octets path) (rest : List A) :
    takeHead (atPath octets key path) (head :: rest) = (none, head :: rest) :=
  if_neg (by rw [atPath, decide_eq_false h]; exact Bool.false_ne_true)

theorem joinSorted_turns (left : List L) (right : List R) :
    Turns octets leftKey rightKey Empty.elim left right []
      ((joinSorted leftKey rightKey left right).map JoinedRow.toRow3) := by
  induction left, right using joinSorted.induct leftKey rightKey with
  | case1 =>
    rw [joinSorted]
    exact Turns.done
  | case2 rightHead right ih =>
    rw [joinSorted]
    exact turns_two (Or.inr rfl) nofun (above_self _ _) rfl (takeHead_at rfl right) ih
  | case3 leftHead left ih =>
    rw [joinSorted]
    exact turns_two (Or.inl rfl) (above_self _ _) nofun (takeHead_at rfl left) rfl ih
  | case4 leftHead left rightHead right order ih =>
    rw [joinSorted]
    have hle := @comparePaths_le (leftKey leftHead) (rightKey rightHead)
    have hlt := @comparePaths_lt (leftKey leftHead) (rightKey rightHead)
    have hzero := @comparePaths_zero (leftKey leftHead) (rightKey rightHead)
    rcases lt_trichotomy (comparePaths (leftKey leftHead) (rightKey rightHead)) 0 with
      horder | horder | horder
    · rw [dif_pos (show order ≤ 0 from horder.le),
        dif_neg (show ¬0 ≤ order from not_le.2 horder)] at ih
      simp only [if_pos horder.le, if_neg (not_le.2 horder)]
      exact turns_two (Or.inl rfl) (above_self _ _) (above_cons horder.le _) (takeHead_at rfl left)
        (takeHead_not_at (hlt.1 horder).ne' right) ih
    · rw [dif_pos (show order ≤ 0 from horder.le), dif_pos (show 0 ≤ order from horder.ge)] at ih
      simp only [if_pos horder.le, if_pos horder.ge]
      exact turns_two (Or.inl rfl) (above_self _ _) (above_cons horder.le _) (takeHead_at rfl left)
        (takeHead_at (hzero.1 horder).symm right) ih
    · have habove := not_le.1 (mt hle.2 (not_le.2 horder))
      rw [dif_neg (show ¬order ≤ 0 from not_le.2 horder),
        dif_pos (show 0 ≤ order from horder.le)] at ih
      simp only [if_neg (not_le.2 horder), if_pos horder.le]
      exact turns_two (Or.inr rfl) (above_cons (comparePaths_le.2 habove.le) _) (above_self _ _)
        (takeHead_not_at habove.ne' left) (takeHead_at rfl right) ih

end Two

/-- The rows ascend, every item is in one row, and where no stream repeats a key a row holds every
item that is at its path. -/
theorem joined_rows :
    (∀ (L R : Type) (leftKey : L → Text) (rightKey : R → Text) (left : List L) (right : List R),
      Ascending leftKey left → Ascending rightKey right →
      let rows := joinSorted leftKey rightKey left right
      Ascending JoinedRow.path rows ∧
      rows.filterMap JoinedRow.left = left ∧ rows.filterMap JoinedRow.right = right ∧
      (Strict leftKey left → Strict rightKey right → ∀ row ∈ rows,
        (∀ x, row.left = some x ↔ x ∈ left ∧ comparePaths (leftKey x) row.path = 0) ∧
        ∀ x, row.right = some x ↔ x ∈ right ∧ comparePaths (rightKey x) row.path = 0)) ∧
    ∀ (A B C : Type) (keyA : A → Text) (keyB : B → Text) (keyC : C → Text) (a : List A)
      (b : List B) (c : List C), Ascending keyA a → Ascending keyB b → Ascending keyC c →
      let rows := joinSorted3 keyA keyB keyC a b c
      Ascending JoinedRow3.path rows ∧ rows.filterMap JoinedRow3.a = a ∧
      rows.filterMap JoinedRow3.b = b ∧ rows.filterMap JoinedRow3.c = c ∧
      (Strict keyA a → Strict keyB b → Strict keyC c → ∀ row ∈ rows,
        (∀ x, row.a = some x ↔ x ∈ a ∧ keyA x = row.path) ∧
        (∀ x, row.b = some x ↔ x ∈ b ∧ keyB x = row.path) ∧
        ∀ x, row.c = some x ↔ x ∈ c ∧ keyC x = row.path) := by
  constructor
  · intro L R leftKey rightKey left right hleft hright
    have hturns := @joinSorted_turns L R leftKey rightKey left right
    have hitems := hturns.items
    have hascending := hturns.ascending hleft hright List.Pairwise.nil
    simp only [List.filterMap_map] at hitems
    refine ⟨List.pairwise_map.1 hascending, hitems.1, hitems.2.1, fun hleft hright row hrow => ?_⟩
    obtain ⟨hL, hR, -⟩ := hturns.gathers (fun _ _ h => h) hleft hright List.Pairwise.nil _
      (List.mem_map_of_mem hrow)
    simp only [comparePaths_zero]
    exact ⟨hL, hR⟩
  · intro A B C keyA keyB keyC a b c hA hB hC
    have hturns := joinSorted3_turns keyA keyB keyC a b c
    obtain ⟨hitemsA, hitemsB, hitemsC⟩ := hturns.items
    exact ⟨hturns.ascending hA hB hC, hitemsA, hitemsB, hitemsC, fun hA hB hC =>
      hturns.gathers (fun _ _ => congrArg octets) hA hB hC⟩

theorem joined_rows_take :
    (joinSorted id id [[97]] [[97]]).filterMap JoinedRow.left = [([97] : Text)] ∧
      (joinSorted3 id id id [[97]] [[97]] [[98]]).filterMap JoinedRow3.c = [([98] : Text)] := by
  have hone (t : Text) : Ascending id [t] := List.pairwise_singleton _ t
  exact ⟨(joined_rows.1 Text Text id id [[97]] [[97]] (hone _) (hone _)).2.1,
    (joined_rows.2 Text Text Text id id id [[97]] [[97]] [[98]] (hone _) (hone _)
      (hone _)).2.2.2.1⟩

end Kompjutr.Streams
