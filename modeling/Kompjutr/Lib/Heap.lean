/-
  Kompjutr.Lib.Heap

  A binary heap in a list whose sifts move a hole: `push` and `pop` keep it ordered, hold
  the elements that were put in, and `pop` answers one that no other comes before.

  `before` is a strict weak order.  A sift is followed by what `hole` and the value still to
  be placed there make of the list (`nodes.set hole value`): every move keeps it up to
  order, and keeps the pairs that do not touch the hole.
-/
import Mathlib.Data.List.Basic
import Mathlib.Order.Basic

namespace Kompjutr.Heap

variable {j child fuel : Nat}

variable {i index : Nat}

variable {α : Type} (before : α → α → Bool)

/-- The value rises from the hole at `index` until its parent comes before it. -/
def siftUp : Nat → List α → α → Nat → List α
  | 0, nodes, node, index => nodes.set index node
  | fuel + 1, nodes, node, index =>
    if index = 0 then nodes.set index node
    else
      match nodes[(index - 1) / 2]? with
      | none => nodes.set index node
      | some parent =>
        if before parent node then nodes.set index node
        else siftUp fuel (nodes.set index parent) node ((index - 1) / 2)

def push (nodes : List α) (node : α) : List α :=
  siftUp before nodes.length (nodes ++ [node]) node nodes.length

/-- The child of `index` that comes first, where there is one. -/
def firstChild (nodes : List α) (index : Nat) : Option (Nat × α) :=
  match nodes[index * 2 + 1]?, nodes[index * 2 + 2]? with
  | none, _ => none
  | some left, none => some (index * 2 + 1, left)
  | some left, some right =>
    if before right left then some (index * 2 + 2, right) else some (index * 2 + 1, left)

/-- The value sinks from the hole at `index` until it comes before its children. -/
def siftDown : Nat → List α → α → Nat → List α
  | 0, nodes, tail, index => nodes.set index tail
  | fuel + 1, nodes, tail, index =>
    match firstChild before nodes index with
    | none => nodes.set index tail
    | some (child, value) =>
      if before tail value then nodes.set index tail
      else siftDown fuel (nodes.set index value) tail child

def pop (nodes : List α) : Option (α × List α) :=
  match nodes.head?, nodes.getLast? with
  | some first, some tail =>
    if nodes.dropLast = [] then some (first, [])
    else some (first, siftDown before nodes.length nodes.dropLast tail 0)
  | _, _ => none

/-- No value comes before its parent's. -/
def Ordered (nodes : List α) : Prop :=
  ∀ i child parent, 0 < i → nodes[i]? = some child → nodes[(i - 1) / 2]? = some parent →
    before child parent = false

/-- What the sifts need of the comparison: "not before" goes backward in a chain. -/
structure Weak : Prop where
  irrefl : ∀ a, before a a = false
  asymm : ∀ {a b}, before a b = true → before b a = false
  trans : ∀ {a b c}, before b a = false → before c b = false → before c a = false

-- Elements

variable {nodes : List α} {value : α}

/-- The hole moves to `j`, whose value fills the place it left. -/
theorem set_move_perm {node : α} (hi : i < nodes.length)
    (hij : i ≠ j) (hj : nodes[j]? = some value) :
    ((nodes.set i value).set j node).Perm (nodes.set i node) := by
  obtain ⟨hlt, hvalue⟩ := List.getElem?_eq_some_iff.1 hj
  have hset : (nodes.set i node)[i]? = some node := by
    rw [List.getElem?_set, if_pos rfl, if_pos hi]
  have hother : (nodes.set i node)[j]? = some value := by
    rw [List.getElem?_set, if_neg hij, hj]
  obtain ⟨hi', hnode⟩ := List.getElem?_eq_some_iff.1 hset
  obtain ⟨hj', hkept⟩ := List.getElem?_eq_some_iff.1 hother
  have hswap := List.set_set_perm hi' hj'
  rw [hnode, hkept, List.set_set] at hswap
  exact hswap

theorem siftUp_perm (fuel : Nat) (nodes : List α) (node : α) (index : Nat)
    (hindex : index < nodes.length) :
    (siftUp before fuel nodes node index).Perm (nodes.set index node) := by
  induction fuel generalizing nodes index with
  | zero => exact .refl _
  | succ fuel ih =>
    rw [siftUp]
    split
    · exact .refl _
    · next hne =>
      split
      · exact .refl _
      · next parent hparent =>
        split
        · exact .refl _
        · have hup : (index - 1) / 2 < (nodes.set index parent).length := by
            rw [List.length_set]
            omega
          exact (ih _ _ hup).trans (set_move_perm hindex (by omega) hparent)

theorem push_perm (nodes : List α) (node : α) : (push before nodes node).Perm (node :: nodes) := by
  have hlast : (nodes ++ [node]).set nodes.length node = nodes ++ [node] := by
    rw [List.set_append_right _ _ (Nat.le_refl _), Nat.sub_self]
    rfl
  have hperm := siftUp_perm before nodes.length (nodes ++ [node]) node nodes.length
    (by rw [List.length_append, List.length_singleton]; omega)
  rw [hlast] at hperm
  exact hperm.trans (List.perm_append_singleton node nodes)

theorem firstChild_cases (h : firstChild before nodes index = some (child, value)) :
    nodes[child]? = some value ∧ (child = index * 2 + 1 ∨ child = index * 2 + 2) := by
  unfold firstChild at h
  split at h
  · cases h
  · next left hleft hright =>
    cases h
    exact ⟨hleft, .inl rfl⟩
  · next left right hleft hright =>
    split at h
    · cases h
      exact ⟨hright, .inr rfl⟩
    · cases h
      exact ⟨hleft, .inl rfl⟩

theorem siftDown_perm (fuel : Nat) (nodes : List α) (tail : α) (index : Nat)
    (hindex : index < nodes.length) :
    (siftDown before fuel nodes tail index).Perm (nodes.set index tail) := by
  induction fuel generalizing nodes index with
  | zero => exact .refl _
  | succ fuel ih =>
    rw [siftDown]
    split
    · exact .refl _
    · next child value hchild =>
      obtain ⟨hvalue, hwhere⟩ := firstChild_cases before hchild
      obtain ⟨hlt, -⟩ := List.getElem?_eq_some_iff.1 hvalue
      split
      · exact .refl _
      · exact (ih _ _ (by rw [List.length_set]; exact hlt)).trans
          (set_move_perm hindex (by omega) hvalue)

theorem pop_perm {rest : List α} {first : α} (h : pop before nodes = some (first, rest)) :
    nodes.head? = some first ∧ nodes.Perm (first :: rest) := by
  unfold pop at h
  split at h
  · next first' tail hhead hlast =>
    split at h
    · next hempty =>
      cases h
      refine ⟨hhead, ?_⟩
      cases nodes with
      | nil => cases hhead
      | cons node nodes =>
        cases nodes with
        | nil => rw [Option.some.inj hhead]
        | cons next nodes => cases hempty
    · next hmore =>
      obtain ⟨rfl, rfl⟩ := Prod.mk.inj (Option.some.inj h)
      refine ⟨hhead, ?_⟩
      have hdecomp : nodes = nodes.dropLast ++ [tail] :=
        (List.dropLast_append_getLast? tail (by rw [hlast]; rfl)).symm
      obtain ⟨node, middle, hmiddle⟩ := List.exists_cons_of_ne_nil hmore
      rw [hmiddle, List.cons_append] at hdecomp
      have hfirst : node = first' := by
        rw [hdecomp] at hhead
        exact Option.some.inj hhead
      have hperm := siftDown_perm before nodes.length nodes.dropLast tail 0
        (by rw [hmiddle]; exact Nat.succ_pos _)
      rw [hmiddle, List.set_cons_zero, ← hmiddle] at hperm
      refine (List.Perm.of_eq hdecomp).trans ?_
      rw [hfirst]
      exact ((List.perm_append_singleton tail middle).trans hperm.symm).cons first'
  · cases h

-- Order

variable {before}

/-- The pairs that do not touch the hole are in order, and the hole's children come after its
    parent. -/
structure Holed (before : α → α → Bool) (nodes : List α) (hole : Nat) : Prop where
  except : ∀ i child parent, 0 < i → i ≠ hole → (i - 1) / 2 ≠ hole → nodes[i]? = some child →
    nodes[(i - 1) / 2]? = some parent → before child parent = false
  grand : ∀ i child parent, hole ≠ 0 → 0 < i → (i - 1) / 2 = hole → nodes[i]? = some child →
    nodes[(hole - 1) / 2]? = some parent → before child parent = false

theorem getElem?_set_of_ne (h : i ≠ j) : (nodes.set i value)[j]? = nodes[j]? := by
  rw [List.getElem?_set, if_neg h]

theorem getElem?_set_same {found : α}
    (h : (nodes.set i value)[i]? = some found) : found = value := by
  rw [List.getElem?_set, if_pos rfl] at h
  split at h
  · exact (Option.some.inj h).symm
  · cases h

/-- A hole filled with a value that its parent and its children allow. -/
theorem Holed.fill {hole : Nat} (h : Holed before nodes hole)
    (habove : ∀ parent, hole ≠ 0 → nodes[(hole - 1) / 2]? = some parent →
      before value parent = false)
    (hbelow : ∀ i child, 0 < i → (i - 1) / 2 = hole → nodes[i]? = some child →
      before child value = false) : Ordered before (nodes.set hole value) := by
  intro i child parent hi hchild hparent
  by_cases hhole : hole = i
  · subst hhole
    rw [getElem?_set_same hchild]
    rw [getElem?_set_of_ne (by omega)] at hparent
    exact habove parent (by omega) hparent
  · rw [getElem?_set_of_ne hhole] at hchild
    by_cases hup : hole = (i - 1) / 2
    · rw [← hup] at hparent
      rw [getElem?_set_same hparent]
      exact hbelow i child hi hup.symm hchild
    · rw [getElem?_set_of_ne hup] at hparent
      exact h.except i child parent hi (Ne.symm hhole) (Ne.symm hup) hchild hparent

theorem siftUp_ordered (hw : Weak before) {node : α}
    (hfuel : index ≤ fuel) (h : Holed before nodes index)
    (hbelow : ∀ i child, 0 < i → (i - 1) / 2 = index → nodes[i]? = some child →
      before child node = false) : Ordered before (siftUp before fuel nodes node index) := by
  induction fuel generalizing nodes index with
  | zero => exact h.fill (fun parent hne => absurd (Nat.le_zero.1 hfuel) hne) hbelow
  | succ fuel ih =>
    rw [siftUp]
    split
    · next hzero => exact h.fill (fun parent hne => absurd hzero hne) hbelow
    · next hne =>
      split
      · next hnone =>
        refine h.fill (fun parent _ hparent => ?_) hbelow
        rw [hnone] at hparent
        cases hparent
      · next parent hparent =>
        split
        · next hstop =>
          refine h.fill (fun other _ hother => ?_) hbelow
          rw [hparent] at hother
          rw [← Option.some.inj hother]
          exact hw.asymm hstop
        · next hmove =>
          -- the parent's value fills the hole, and the hole takes the parent's place
          rw [Bool.not_eq_true] at hmove
          have hsibling : ∀ i child, 0 < i → (i - 1) / 2 = (index - 1) / 2 → i ≠ index →
              nodes[i]? = some child → before child parent = false := by
            intro i child hi hup hi' hchild
            refine h.except i child parent hi hi' (by omega) hchild ?_
            rw [hup]
            exact hparent
          refine ih (by omega) ⟨?_, ?_⟩ ?_
          · intro i child other hi hi' hup hchild hother
            by_cases hindex : index = i
            · subst hindex
              exact absurd rfl hup
            · rw [getElem?_set_of_ne hindex] at hchild
              by_cases hunder : index = (i - 1) / 2
              · rw [← hunder] at hother
                rw [getElem?_set_same hother]
                exact h.grand i child parent hne hi hunder.symm hchild hparent
              · rw [getElem?_set_of_ne hunder] at hother
                exact h.except i child other hi (Ne.symm hindex) (Ne.symm hunder) hchild hother
          · intro i child other hne' hi hup hchild hother
            rw [getElem?_set_of_ne (by omega)] at hother
            have htop : before parent other = false :=
              h.except ((index - 1) / 2) parent other (by omega) (by omega) (by omega) hparent hother
            by_cases hindex : index = i
            · subst hindex
              rw [getElem?_set_same hchild]
              exact htop
            · rw [getElem?_set_of_ne hindex] at hchild
              exact hw.trans htop (hsibling i child hi hup (Ne.symm hindex) hchild)
          · intro i child hi hup hchild
            by_cases hindex : index = i
            · subst hindex
              rw [getElem?_set_same hchild]
              exact hmove
            · rw [getElem?_set_of_ne hindex] at hchild
              exact hw.trans hmove (hsibling i child hi hup (Ne.symm hindex) hchild)

theorem push_ordered (hw : Weak before) (h : Ordered before nodes) (node : α) :
    Ordered before (push before nodes node) := by
  have hnochild : ∀ i child, 0 < i → (i - 1) / 2 = nodes.length →
      (nodes ++ [node])[i]? = some child → False := by
    intro i child hi hup hchild
    obtain ⟨hlt, -⟩ := List.getElem?_eq_some_iff.1 hchild
    rw [List.length_append, List.length_singleton] at hlt
    omega
  refine siftUp_ordered hw (Nat.le_refl _) ⟨?_, ?_⟩ ?_
  · intro i child parent hi hi' hup hchild hparent
    have hlt : i < nodes.length := by
      obtain ⟨hlt, -⟩ := List.getElem?_eq_some_iff.1 hchild
      rw [List.length_append, List.length_singleton] at hlt
      omega
    rw [List.getElem?_append_left hlt] at hchild
    rw [List.getElem?_append_left (by omega)] at hparent
    exact h i child parent hi hchild hparent
  · intro i child parent _ hi hup hchild
    exact (hnochild i child hi hup hchild).elim
  · intro i child hi hup hchild
    exact (hnochild i child hi hup hchild).elim

theorem firstChild_first (hw : Weak before)
    (h : firstChild before nodes index = some (child, value)) :
    ∀ i other, 0 < i → (i - 1) / 2 = index → nodes[i]? = some other →
      before other value = false := by
  intro i other hi hup hother
  have hwhich : i = index * 2 + 1 ∨ i = index * 2 + 2 := by omega
  unfold firstChild at h
  split at h
  · cases h
  · next left hleft hright =>
    obtain ⟨-, rfl⟩ := Prod.mk.inj (Option.some.inj h)
    rcases hwhich with rfl | rfl
    · rw [hleft] at hother
      rw [← Option.some.inj hother]
      exact hw.irrefl _
    · rw [hright] at hother
      cases hother
  · next left right hleft hright =>
    split at h
    · next hbefore =>
      obtain ⟨-, rfl⟩ := Prod.mk.inj (Option.some.inj h)
      rcases hwhich with rfl | rfl
      · rw [hleft] at hother
        rw [← Option.some.inj hother]
        exact hw.asymm hbefore
      · rw [hright] at hother
        rw [← Option.some.inj hother]
        exact hw.irrefl _
    · next hbefore =>
      obtain ⟨-, rfl⟩ := Prod.mk.inj (Option.some.inj h)
      rcases hwhich with rfl | rfl
      · rw [hleft] at hother
        rw [← Option.some.inj hother]
        exact hw.irrefl _
      · rw [hright] at hother
        rw [← Option.some.inj hother]
        exact Bool.eq_false_iff.2 hbefore

theorem firstChild_none (h : firstChild before nodes index = none) :
    ∀ i child, 0 < i → (i - 1) / 2 = index → nodes[i]? = some child → False := by
  intro i child hi hup hchild
  have hleft : nodes[index * 2 + 1]? = none := by
    unfold firstChild at h
    split at h
    · next hleft => exact hleft
    · cases h
    · split at h
      · cases h
      · cases h
  obtain ⟨hlt, -⟩ := List.getElem?_eq_some_iff.1 hchild
  have := List.getElem?_eq_none_iff.1 hleft
  omega

theorem siftDown_ordered (hw : Weak before) {tail : α}
    (hfuel : nodes.length ≤ index + fuel) (h : Holed before nodes index)
    (habove : ∀ parent, index ≠ 0 → nodes[(index - 1) / 2]? = some parent →
      before tail parent = false) : Ordered before (siftDown before fuel nodes tail index) := by
  induction fuel generalizing nodes index with
  | zero =>
    refine h.fill habove fun i child hi hup hchild => ?_
    obtain ⟨hlt, -⟩ := List.getElem?_eq_some_iff.1 hchild
    omega
  | succ fuel ih =>
    rw [siftDown]
    split
    · next hnone =>
      exact h.fill habove fun i child hi hup hchild =>
        (firstChild_none hnone i child hi hup hchild).elim
    · next child value hfirst =>
      obtain ⟨hvalue, hwhere⟩ := firstChild_cases before hfirst
      have hleast := firstChild_first hw hfirst
      split
      · next hstop =>
        exact h.fill habove fun i other hi hup hother =>
          hw.trans (hw.asymm hstop) (hleast i other hi hup hother)
      · next hmove =>
        -- the first child's value fills the hole, and the hole takes the child's place
        rw [Bool.not_eq_true] at hmove
        have hparent : (child - 1) / 2 = index := by omega
        refine ih (by rw [List.length_set]; omega) ⟨?_, ?_⟩ ?_
        · intro i other up hi hi' hup hother hfound
          by_cases hindex : index = i
          · subst hindex
            rw [getElem?_set_same hother]
            rw [getElem?_set_of_ne (by omega)] at hfound
            exact h.grand child value up (by omega) (by omega) hparent hvalue hfound
          · rw [getElem?_set_of_ne hindex] at hother
            by_cases hunder : index = (i - 1) / 2
            · rw [← hunder] at hfound
              rw [getElem?_set_same hfound]
              exact hleast i other hi hunder.symm hother
            · rw [getElem?_set_of_ne hunder] at hfound
              exact h.except i other up hi (Ne.symm hindex) (Ne.symm hunder) hother hfound
        · intro i other up _ hi hup hother hfound
          rw [hparent] at hfound
          rw [getElem?_set_same hfound]
          rw [getElem?_set_of_ne (by omega)] at hother
          refine h.except i other value hi (by omega) (by omega) hother ?_
          rw [hup]
          exact hvalue
        · intro up _ hup
          rw [hparent] at hup
          rw [getElem?_set_same hup]
          exact hmove

/-- Nothing in an ordered heap comes before its first value. -/
theorem Ordered.head (hw : Weak before) (h : Ordered before nodes) {first : α}
    (hfirst : nodes.head? = some first) : ∀ node ∈ nodes, before node first = false := by
  have hall : ∀ (i : Nat) node, nodes[i]? = some node → before node first = false := by
    intro i
    induction i using Nat.strongRecOn with
    | ind i ih =>
      intro node hnode
      by_cases hzero : i = 0
      · subst hzero
        rw [List.head?_eq_getElem?] at hfirst
        rw [hnode] at hfirst
        rw [Option.some.inj hfirst]
        exact hw.irrefl _
      · obtain ⟨hlt, -⟩ := List.getElem?_eq_some_iff.1 hnode
        have hup : (i - 1) / 2 < nodes.length := by omega
        have hparent := List.getElem?_eq_getElem hup
        exact hw.trans (ih _ (by omega) _ hparent) (h i node _ (by omega) hnode hparent)
  intro node hmem
  obtain ⟨i, hi, rfl⟩ := List.getElem_of_mem hmem
  exact hall i _ (List.getElem?_eq_getElem hi)

theorem pop_ordered (hw : Weak before) {rest : List α} {first : α}
    (h : Ordered before nodes) (hpop : pop before nodes = some (first, rest)) :
    Ordered before rest := by
  unfold pop at hpop
  split at hpop
  · next first' tail hhead hlast =>
    split at hpop
    · obtain ⟨-, rfl⟩ := Prod.mk.inj (Option.some.inj hpop)
      intro i child parent _ hchild
      cases hchild
    · obtain ⟨-, rfl⟩ := Prod.mk.inj (Option.some.inj hpop)
      have hkept : ∀ (i : Nat) value, nodes.dropLast[i]? = some value → nodes[i]? = some value := by
        intro i value hvalue
        obtain ⟨hlt, rfl⟩ := List.getElem?_eq_some_iff.1 hvalue
        rw [List.length_dropLast] at hlt
        rw [List.getElem_dropLast]
        exact List.getElem?_eq_getElem (by omega)
      refine siftDown_ordered hw (by rw [List.length_dropLast]; omega) ⟨?_, ?_⟩ ?_
      · intro i child parent hi _ _ hchild hparent
        exact h i child parent hi (hkept i child hchild) (hkept _ parent hparent)
      · intro i child parent hne
        exact absurd rfl hne
      · intro parent hne
        exact absurd rfl hne
  · cases hpop

theorem pop_eq_none (h : pop before nodes = none) : nodes = [] := by
  cases nodes with
  | nil => rfl
  | cons node nodes =>
    unfold pop at h
    rw [List.head?_cons, List.getLast?_cons] at h
    dsimp only at h
    split at h
    · cases h
    · cases h

end Kompjutr.Heap
