/-
  Kompjutr.Lib.ForestOrder

  The order of a forest whose listing is sorted, when paths are compared as names with a separator
  between them: the nodes of each directory are sorted, where a directory counts as its name with
  the separator behind it (`Built.sorted`), and they have names of their own when no leaf is below
  another one (`Built.distinct`).
-/
import Kompjutr.Lib.Forest
import Kompjutr.Lib.LexRange
import Mathlib.Data.List.Lex

namespace Kompjutr.Forest

open List (append_assoc cons_prefix_cons mem_append_right mem_cons_self mem_map)

variable {σ α : Type}

def Node.name : Node σ α → σ
  | .leaf name _ => name
  | .dir name _ => name

def Node.isDir : Node σ α → Bool
  | .leaf _ _ => false
  | .dir _ _ => true

section Order

variable {β : Type}

/-- Names with a separator between them. -/
def joined (key : σ → List β) (sep : β) : List σ → List β
  | [] => []
  | [name] => key name
  | name :: other :: names => key name ++ sep :: joined key sep (other :: names)

/-- What a node is sorted by. -/
def sortKey (key : σ → List β) (sep : β) : Node σ α → List β
  | .leaf name _ => key name
  | .dir name _ => key name ++ [sep]

theorem joined_cons (key : σ → List β) (sep : β) (name : σ) {names : List σ} (h : names ≠ []) :
    joined key sep (name :: names) = key name ++ sep :: joined key sep names := by
  cases names with
  | nil => exact absurd rfl h
  | cons other names => rfl

theorem leaves_ne_nil (nodes : List (Node σ α)) : ∀ leaf ∈ leaves nodes, leaf.1 ≠ [] := by
  intro leaf hleaf
  induction nodes with
  | nil => cases hleaf
  | cons node nodes ih =>
    rw [leaves] at hleaf
    rcases List.mem_append.1 hleaf with hleaf | hleaf
    · cases node with
      | leaf name value =>
        rw [Node.leaves, List.mem_singleton] at hleaf
        rw [hleaf]
        exact List.cons_ne_nil _ _
      | dir name children =>
        rw [Node.leaves, mem_map] at hleaf
        obtain ⟨inner, -, rfl⟩ := hleaf
        exact List.cons_ne_nil _ _
    · exact ih hleaf

/-- A leaf begins with the name of its node, and more follows exactly in a directory. -/
theorem Node.leaf_path {node : Node σ α} {leaf : List σ × α} (h : leaf ∈ node.leaves) :
    ∃ rest, leaf.1 = node.name :: rest ∧ (node.isDir = true ↔ rest ≠ []) := by
  cases node with
  | leaf name value =>
    rw [Node.leaves, List.mem_singleton] at h
    rw [h]
    exact ⟨[], rfl, iff_of_false Bool.false_ne_true fun hne => hne rfl⟩
  | dir name children =>
    rw [Node.leaves, mem_map] at h
    obtain ⟨inner, hinner, rfl⟩ := h
    exact ⟨inner.1, rfl, iff_of_true rfl (leaves_ne_nil children inner hinner)⟩

/-- Names are told apart by their keys, which do not have the separator. -/
structure Keyed (key : σ → List β) (sep : β) (valid : σ → Prop) : Prop where
  inj : ∀ name other, valid name → valid other → key name = key other → name = other
  sep : ∀ name, valid name → sep ∉ key name

/-- The path of a leaf begins with the key of its node. -/
theorem Node.joined_leaf (key : σ → List β) (sep : β) {node : Node σ α} {leaf : List σ × α}
    (h : leaf ∈ node.leaves) : ∃ rest, joined key sep leaf.1 = sortKey key sep node ++ rest ∧
      (node.isDir = false → rest = []) := by
  obtain ⟨names, hpath, hdir⟩ := Node.leaf_path h
  cases node with
  | leaf name value =>
    refine ⟨[], ?_, fun _ => rfl⟩
    rw [hpath, not_not.1 (mt hdir.2 Bool.false_ne_true), List.append_nil]
    rfl
  | dir name children =>
    refine ⟨joined key sep names, ?_, fun hfalse => nomatch hfalse⟩
    rw [hpath, joined_cons key sep _ (hdir.1 rfl), sortKey, append_assoc]
    rfl

/-- Two names with the separator behind them, one of which begins the other. -/
theorem eq_of_prefix {sep : β} {left right : List β} (hright : sep ∉ right)
    (h : left ++ [sep] <+: right ++ [sep]) : left = right := by
  rcases List.prefix_concat_iff.1 h with heq | hbegins
  · exact List.append_cancel_right heq
  · exact absurd (hbegins.subset (mem_append_right _ mem_cons_self)) hright

variable [LinearOrder β]

theorem joined_lt_of_append {key : σ → List β} {sep : β} (names : List σ) {left right : List σ}
    (hleft : left ≠ []) (hright : right ≠ [])
    (h : joined key sep (names ++ left) < joined key sep (names ++ right)) :
    joined key sep left < joined key sep right := by
  induction names with
  | nil => exact h
  | cons name names ih =>
    rw [List.cons_append, List.cons_append,
      joined_cons key sep name (List.append_ne_nil_of_right_ne_nil _ hleft),
      joined_cons key sep name (List.append_ne_nil_of_right_ne_nil _ hright)] at h
    have hrest := LexRange.append_lt_append_iff.1 h
    exact ih ((LexRange.append_lt_append_iff (p := [sep])).1 hrest)

/-- Two lists that are in order part within their fronts, or the second front begins the first. -/
theorem lt_or_prefix {a b s t : List β} (h : a ++ s < b ++ t) : a < b ∨ b <+: a := by
  induction b generalizing a with
  | nil => exact Or.inr (List.nil_prefix)
  | cons y b ih =>
    cases a with
    | nil => exact Or.inl (List.nil_lt_cons y b)
    | cons x a =>
      rcases List.cons_lt_cons_iff.1 h with hlt | ⟨rfl, hrest⟩
      · exact Or.inl (List.cons_lt_cons_iff.2 (Or.inl hlt))
      · rcases ih hrest with hlt | hbegins
        · exact Or.inl (List.cons_lt_cons_iff.2 (Or.inr ⟨rfl, hlt⟩))
        · exact Or.inr (cons_prefix_cons.2 ⟨rfl, hbegins⟩)

section

variable {key : σ → List β} {sep : β} {valid : σ → Prop} (hkey : Keyed key sep valid)

include hkey

theorem sortKey_lt {a b : Node σ α} (ha : valid a.name) (hb : valid b.name) (hapart : Apart a b)
    {p q : List σ × α} (hp : p ∈ a.leaves) (hq : q ∈ b.leaves)
    (h : joined key sep p.1 < joined key sep q.1) : sortKey key sep a < sortKey key sep b := by
  obtain ⟨s, hs, -⟩ := Node.joined_leaf key sep hp
  obtain ⟨t, ht, hleaf⟩ := Node.joined_leaf key sep hq
  rw [hs, ht] at h
  rcases lt_or_prefix h with hlt | hbegins
  · exact hlt
  · exfalso
    cases b with
    | leaf other value =>
      -- What begins with the second path is not before it.
      obtain ⟨more, hmore⟩ := hbegins
      rw [hleaf rfl, ← hmore, append_assoc, LexRange.append_lt_append_iff] at h
      exact List.not_lt_nil _ h
    | dir other children =>
      cases a with
      | leaf name value =>
        exact hkey.sep _ ha (hbegins.subset (mem_append_right _ mem_cons_self))
      | dir name children' =>
        have hsame : key other = key name := eq_of_prefix (hkey.sep _ ha) hbegins
        exact hapart (hkey.inj _ _ ha hb hsame.symm)

/-- The nodes of a directory are sorted when the listing is. -/
theorem Built.sorted {listing : List (List σ × α)}
    (hvalid : ∀ leaf ∈ listing, ∀ name ∈ leaf.1, valid name)
    (hsorted : listing.Pairwise fun p q => joined key sep p.1 < joined key sep q.1)
    {nodes : List (Node σ α)} (h : Built listing nodes) :
    nodes.Pairwise fun a b => sortKey key sep a < sortKey key sep b := by
  obtain ⟨hfull, hapart, names, hpart⟩ := h
  have hinner : (leaves nodes).Pairwise fun p q => joined key sep p.1 < joined key sep q.1 := by
    refine (List.pairwise_map.1 (hsorted.sublist hpart)).imp_of_mem fun hp hq hlt => ?_
    exact joined_lt_of_append names (leaves_ne_nil nodes _ hp) (leaves_ne_nil nodes _ hq) hlt
  have hnames : ∀ leaf ∈ leaves nodes, ∀ name ∈ leaf.1, valid name := fun leaf hleaf name hname =>
    hvalid _ (hpart.subset (List.mem_map_of_mem hleaf)) name (mem_append_right _ hname)
  clear hpart hsorted hvalid
  refine List.isChain_iff_pairwise.1 ?_
  induction nodes with
  | nil => exact List.isChain_nil
  | cons a nodes ih =>
    rw [leaves] at hinner hnames
    rw [List.forall_mem_cons] at hfull
    have hrest := ih hfull.2 hapart.tail (List.pairwise_append.1 hinner).2.1 fun leaf hleaf =>
      hnames leaf (mem_append_right _ hleaf)
    cases nodes with
    | nil => exact List.isChain_singleton _
    | cons b nodes =>
      rw [List.isChain_cons_cons] at hapart
      refine List.isChain_cons_cons.2 ⟨?_, hrest⟩
      obtain ⟨p, hp⟩ := List.exists_mem_of_ne_nil _ hfull.1
      obtain ⟨q, hq⟩ := List.exists_mem_of_ne_nil _ (hfull.2 b mem_cons_self)
      have hq' : q ∈ leaves (b :: nodes) := List.mem_append_left _ hq
      have hname : ∀ {node : Node σ α} {leaf : List σ × α}, leaf ∈ node.leaves →
          (∀ name ∈ leaf.1, valid name) → valid node.name := by
        intro node leaf hleaf hall
        obtain ⟨rest, hpath, -⟩ := Node.leaf_path hleaf
        exact hall _ (hpath ▸ mem_cons_self)
      exact sortKey_lt hkey (hname hp (hnames p (List.mem_append_left _ hp)))
        (hname hq (hnames q (mem_append_right _ hq'))) hapart.1 hp hq
        ((List.pairwise_append.1 hinner).2.2 p hp q hq')

end

end Order

/-- A leaf whose path begins the path of another one, which is below it. -/
def Collide (p q : List σ × α) : Prop := ∃ rest, rest ≠ [] ∧ q.1 = p.1 ++ rest

/-- Without collisions, the nodes of a directory that is sorted have names of their own. -/
theorem Built.distinct {β : Type} [LinearOrder β] {key : σ → List β} {sep : β}
    {listing : List (List σ × α)} (hcollide : ∀ p ∈ listing, ∀ q ∈ listing, ¬ Collide p q)
    {nodes : List (Node σ α)} (h : Built listing nodes)
    (hsorted : nodes.Pairwise fun a b => sortKey key sep a < sortKey key sep b) :
    (nodes.map Node.name).Nodup := by
  obtain ⟨hfull, -, names, hpart⟩ := h
  have hin : ∀ node ∈ nodes, ∀ leaf ∈ node.leaves, (names ++ leaf.1, leaf.2) ∈ listing := by
    intro node hnode leaf hleaf
    refine hpart.subset (mem_map.2 ⟨leaf, ?_, rfl⟩)
    obtain ⟨front, back, rfl⟩ := List.append_of_mem hnode
    rw [leaves_append, leaves]
    exact mem_append_right _ (List.mem_append_left _ hleaf)
  refine List.pairwise_map.2 (hsorted.imp_of_mem fun {a b} ha hb hlt hsame => ?_)
  obtain ⟨p, hp⟩ := List.exists_mem_of_ne_nil _ (hfull a ha)
  obtain ⟨q, hq⟩ := List.exists_mem_of_ne_nil _ (hfull b hb)
  obtain ⟨rest, hpath, hdir⟩ := Node.leaf_path hp
  obtain ⟨rest', hpath', hdir'⟩ := Node.leaf_path hq
  cases a with
  | leaf name value =>
    cases b with
    | leaf other value' =>
      obtain rfl : name = other := hsame
      exact lt_irrefl _ hlt
    | dir other children =>
      obtain rfl : name = other := hsame
      refine hcollide _ (hin _ ha p hp) _ (hin _ hb q hq) ⟨rest', hdir'.1 rfl, ?_⟩
      rw [hpath, hpath', not_not.1 (mt hdir.2 Bool.false_ne_true), append_assoc]
      rfl
  | dir name children =>
    cases b with
    | leaf other value' =>
      obtain rfl : name = other := hsame
      refine hcollide _ (hin _ hb q hq) _ (hin _ ha p hp) ⟨rest, hdir.1 rfl, ?_⟩
      rw [hpath, hpath', not_not.1 (mt hdir'.2 Bool.false_ne_true), append_assoc]
      rfl
    | dir other children' =>
      obtain rfl : name = other := hsame
      exact lt_irrefl _ hlt

end Kompjutr.Forest
