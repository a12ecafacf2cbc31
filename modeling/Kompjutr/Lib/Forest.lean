/-
  Kompjutr.Lib.Forest

  A forest from a listing of its leaves: a cursor goes from leaf to leaf, closes the directories
  that it leaves, and opens those that it enters.

  The forest has the leaves of the listing, in their order (`leaves_build`).  Two neighbours are
  never directories of one name (`built`).
-/
import Mathlib.Data.List.Chain

namespace Kompjutr.Forest

open List (append_assoc append_nil cons_ne_nil foldl_cons forall_mem_cons length_map
  length_reverse map_cons map_nil mem_append mem_singleton)

variable {σ α : Type}

inductive Node (σ α : Type) where
  | leaf (name : σ) (value : α)
  | dir (name : σ) (children : List (Node σ α))

mutual
/-- The leaves of a node, with the names on the way to each. -/
def Node.leaves : Node σ α → List (List σ × α)
  | .leaf name value => [([name], value)]
  | .dir name children => (leaves children).map fun leaf => (name :: leaf.1, leaf.2)

def leaves : List (Node σ α) → List (List σ × α)
  | [] => []
  | node :: nodes => node.leaves ++ leaves nodes
end

theorem leaves_append (left right : List (Node σ α)) :
    leaves (left ++ right) = leaves left ++ leaves right := by
  induction left with
  | nil => rfl
  | cons node left ih => rw [List.cons_append, leaves, leaves, ih, append_assoc]

/-- The leaves, with names in front. -/
def under (names : List σ) (leaves : List (List σ × α)) : List (List σ × α) :=
  leaves.map fun leaf => (names ++ leaf.1, leaf.2)

theorem under_nil (leaves : List (List σ × α)) : under [] leaves = leaves := List.map_id _

theorem under_append (names : List σ) (left right : List (List σ × α)) :
    under names (left ++ right) = under names left ++ under names right := List.map_append

theorem under_under (names more : List σ) (leaves : List (List σ × α)) :
    under names (under more leaves) = under (names ++ more) leaves := by
  rw [under, under, under, List.map_map]
  refine List.map_congr_left fun leaf _ => ?_
  rw [Function.comp_apply, append_assoc]

/-- A place in the listing: the nodes of the directory that is open, and behind it, from the
    innermost on, the name by which each directory is open in its parent, with the nodes in front
    of it there.  `closed` has the nodes of the directories that were closed. -/
structure Cursor (σ α : Type) where
  top : List (Node σ α)
  below : List (σ × List (Node σ α))
  closed : List (List (Node σ α))

namespace Cursor

def start : Cursor σ α where
  top := []
  below := []
  closed := []

/-- The names of the directories that are open, from the outermost on. -/
def opened (cursor : Cursor σ α) : List σ := (cursor.below.map Prod.fst).reverse

def close (cursor : Cursor σ α) : Cursor σ α :=
  match cursor.below with
  | [] => cursor
  | (name, nodes) :: below =>
    { top := nodes ++ [.dir name cursor.top], below, closed := cursor.closed ++ [cursor.top] }

def closeTimes : Nat → Cursor σ α → Cursor σ α
  | 0, cursor => cursor
  | times + 1, cursor => closeTimes times cursor.close

def enter (cursor : Cursor σ α) (name : σ) : Cursor σ α :=
  { cursor with top := [], below := (name, cursor.top) :: cursor.below }

def push (cursor : Cursor σ α) (name : σ) (value : α) : Cursor σ α :=
  { cursor with top := cursor.top ++ [.leaf name value] }

end Cursor

/-- How many names two lists begin with together. -/
def common [DecidableEq σ] : List σ → List σ → Nat
  | name :: left, other :: right => if name = other then common left right + 1 else 0
  | _, _ => 0

theorem common_le_left [DecidableEq σ] (left right : List σ) : common left right ≤ left.length := by
  induction left generalizing right with
  | nil => cases right <;> exact Nat.zero_le _
  | cons name left ih =>
    cases right with
    | nil => exact Nat.zero_le _
    | cons other right =>
      rw [common]
      split
      · exact Nat.succ_le_succ (ih right)
      · exact Nat.zero_le _

theorem take_common [DecidableEq σ] (left right : List σ) :
    left.take (common left right) = right.take (common left right) := by
  induction left generalizing right with
  | nil => cases right <;> rfl
  | cons name left ih =>
    cases right with
    | nil => rfl
    | cons other right =>
      rw [common]
      split
      · next hsame => rw [List.take_succ_cons, List.take_succ_cons, hsame, ih]
      · rfl

/-- Where both lists go on, they go on differently. -/
theorem ne_of_common [DecidableEq σ] {left right : List σ} {name other : σ} {rest rest' : List σ}
    (hleft : left.drop (common left right) = name :: rest)
    (hright : right.drop (common left right) = other :: rest') : name ≠ other := by
  induction left generalizing right with
  | nil => cases right <;> cases hleft
  | cons first left ih =>
    cases right with
    | nil => cases hright
    | cons first' right =>
      rw [common] at hleft hright
      split at hleft
      · next hsame =>
        rw [if_pos hsame] at hright
        exact ih hleft hright
      · next hne =>
        rw [if_neg hne] at hright
        cases hleft
        cases hright
        exact hne

/-- The way to a leaf: directories, and its name. -/
structure Entry (σ α : Type) where
  dirs : List σ
  name : σ
  value : α

def Entry.leaf (entry : Entry σ α) : List σ × α := (entry.dirs ++ [entry.name], entry.value)

namespace Cursor

variable [DecidableEq σ]

/-- The next leaf of the listing. -/
def step (cursor : Cursor σ α) (entry : Entry σ α) : Cursor σ α :=
  let shared := common cursor.opened entry.dirs
  ((entry.dirs.drop shared).foldl enter
    (cursor.closeTimes (cursor.opened.length - shared))).push entry.name entry.value

/-- Close what is open, the root last. -/
def finish (cursor : Cursor σ α) : Cursor σ α :=
  let cursor := cursor.closeTimes cursor.opened.length
  { cursor with closed := cursor.closed ++ [cursor.top] }

end Cursor

def build [DecidableEq σ] (entries : List (Entry σ α)) : Cursor σ α :=
  (entries.foldl Cursor.step .start).finish

-- The leaves of a cursor

/-- The leaves of the directories that are open, with those of the innermost one. -/
def gather : List (σ × List (Node σ α)) → List (List σ × α) → List (List σ × α)
  | [], inner => inner
  | (name, nodes) :: below, inner => gather below (leaves nodes ++ under [name] inner)

def Cursor.gathered (cursor : Cursor σ α) : List (List σ × α) :=
  gather cursor.below (leaves cursor.top)

theorem gather_append (below : List (σ × List (Node σ α))) (left right : List (List σ × α)) :
    gather below (left ++ right) =
      gather below left ++ under (below.map Prod.fst).reverse right := by
  induction below generalizing left right with
  | nil => rw [gather, gather, map_nil, List.reverse_nil, under_nil]
  | cons first below ih =>
    obtain ⟨name, nodes⟩ := first
    rw [gather, gather, under_append, ← append_assoc, ih, under_under, map_cons,
      List.reverse_cons]

/-- The leaves of the innermost directory are some of them. -/
theorem sublist_gather (below : List (σ × List (Node σ α))) (inner : List (List σ × α)) :
    (under (below.map Prod.fst).reverse inner).Sublist (gather below inner) := by
  have hsplit := gather_append below [] inner
  rw [List.nil_append] at hsplit
  rw [hsplit]
  exact List.sublist_append_right _ _

namespace Cursor

theorem close_cons {cursor : Cursor σ α} {name : σ} {nodes : List (Node σ α)}
    {below : List (σ × List (Node σ α))} (h : cursor.below = (name, nodes) :: below) :
    cursor.close =
      { top := nodes ++ [.dir name cursor.top], below, closed := cursor.closed ++ [cursor.top] } := by
  rw [close, h]

theorem gathered_close (cursor : Cursor σ α) : cursor.close.gathered = cursor.gathered := by
  cases hbelow : cursor.below with
  | nil => rw [close, hbelow]
  | cons first below =>
    obtain ⟨name, nodes⟩ := first
    rw [close_cons hbelow, gathered, gathered, hbelow, gather, leaves_append, leaves, leaves,
      append_nil]
    rfl

section

variable (times : Nat) (cursor : Cursor σ α)

include times cursor

theorem gathered_closeTimes :
    (closeTimes times cursor).gathered = cursor.gathered := by
  induction times generalizing cursor with
  | zero => rfl
  | succ times ih => rw [closeTimes, ih, gathered_close]

theorem below_closeTimes :
    (closeTimes times cursor).below = cursor.below.drop times := by
  induction times generalizing cursor with
  | zero => rw [closeTimes, List.drop_zero]
  | succ times ih =>
    rw [closeTimes, ih]
    cases hbelow : cursor.below with
    | nil => rw [close, hbelow, hbelow, List.drop_nil, List.drop_nil]
    | cons first below =>
      obtain ⟨name, nodes⟩ := first
      rw [close_cons hbelow, List.drop_succ_cons]

theorem closeTimes_succ :
    closeTimes (times + 1) cursor = (closeTimes times cursor).close := by
  induction times generalizing cursor with
  | zero => rfl
  | succ times ih => rw [closeTimes, ih, closeTimes]

theorem opened_closeTimes :
    (closeTimes times cursor).opened = cursor.opened.take (cursor.opened.length - times) := by
  rw [opened, below_closeTimes, List.map_drop, opened, length_reverse, List.take_reverse,
    length_map]
  by_cases h : times ≤ cursor.below.length
  · rw [show cursor.below.length - (cursor.below.length - times) = times by omega]
  · rw [List.drop_of_length_le (by rw [length_map]; omega),
      List.drop_of_length_le (by rw [length_map]; omega)]

end

theorem gathered_enter (cursor : Cursor σ α) (name : σ) :
    (cursor.enter name).gathered = cursor.gathered := by
  rw [enter, gathered, gathered, gather, leaves, under, map_nil, append_nil]

theorem opened_enter (cursor : Cursor σ α) (name : σ) :
    (cursor.enter name).opened = cursor.opened ++ [name] := by
  rw [enter, opened, opened, map_cons, List.reverse_cons]

theorem gathered_foldl_enter (names : List σ) (cursor : Cursor σ α) :
    (names.foldl enter cursor).gathered = cursor.gathered := by
  induction names generalizing cursor with
  | nil => rfl
  | cons name names ih => rw [foldl_cons, ih, gathered_enter]

theorem opened_foldl_enter (names : List σ) (cursor : Cursor σ α) :
    (names.foldl enter cursor).opened = cursor.opened ++ names := by
  induction names generalizing cursor with
  | nil => rw [List.foldl_nil, append_nil]
  | cons name names ih => rw [foldl_cons, ih, opened_enter, append_assoc]; rfl

theorem gathered_push (cursor : Cursor σ α) (name : σ) (value : α) :
    (cursor.push name value).gathered =
      cursor.gathered ++ [(cursor.opened ++ [name], value)] := by
  rw [push, gathered, gathered, leaves_append, gather_append]
  rfl

variable [DecidableEq σ]

/-- The directories that are open for the next leaf are those on its way. -/
theorem opened_step (cursor : Cursor σ α) (entry : Entry σ α) :
    (cursor.step entry).opened = entry.dirs := by
  have hle := common_le_left cursor.opened entry.dirs
  show ((entry.dirs.drop (common cursor.opened entry.dirs)).foldl enter _).opened = _
  rw [opened_foldl_enter, opened_closeTimes,
    show cursor.opened.length - (cursor.opened.length - common cursor.opened entry.dirs) =
      common cursor.opened entry.dirs by omega, take_common, List.take_append_drop]

theorem gathered_step (cursor : Cursor σ α) (entry : Entry σ α) :
    (cursor.step entry).gathered = cursor.gathered ++ [entry.leaf] := by
  have hopened := opened_step cursor entry
  unfold step at hopened ⊢
  dsimp only at hopened ⊢
  rw [gathered_push, gathered_foldl_enter, gathered_closeTimes, Entry.leaf]
  refine congrArg (fun names => cursor.gathered ++ [(names ++ [entry.name], entry.value)]) ?_
  exact hopened

theorem gathered_steps (cursor : Cursor σ α) (entries : List (Entry σ α)) :
    (entries.foldl step cursor).gathered = cursor.gathered ++ entries.map Entry.leaf := by
  induction entries generalizing cursor with
  | nil => rw [List.foldl_nil, map_nil, append_nil]
  | cons entry entries ih =>
    rw [foldl_cons, ih, gathered_step, append_assoc, map_cons]
    rfl

end Cursor

/-- The forest has the leaves of the listing, in their order. -/
theorem leaves_build [DecidableEq σ] (entries : List (Entry σ α)) :
    leaves (build entries).top = entries.map Entry.leaf := by
  have hgathered := Cursor.gathered_steps (.start : Cursor σ α) entries
  have hclosed := Cursor.gathered_closeTimes (entries.foldl Cursor.step .start).opened.length
    (entries.foldl Cursor.step (.start : Cursor σ α))
  have hbelow := Cursor.below_closeTimes (entries.foldl Cursor.step .start).opened.length
    (entries.foldl Cursor.step (.start : Cursor σ α))
  rw [List.drop_of_length_le (by rw [Cursor.opened, length_reverse, length_map])] at hbelow
  rw [hgathered, Cursor.gathered, hbelow] at hclosed
  exact hclosed

-- The directories that are closed

/-- Not two directories of one name. -/
def Apart : Node σ α → Node σ α → Prop
  | .dir name _, .dir other _ => name ≠ other
  | _, _ => True

/-- The nodes of a directory that was built from a listing. -/
structure Built (listing : List (List σ × α)) (nodes : List (Node σ α)) : Prop where
  full : ∀ node ∈ nodes, node.leaves ≠ []
  apart : nodes.IsChain Apart
  part : ∃ names, (under names (leaves nodes)).Sublist listing

variable {nodes : List (Node σ α)}

theorem Built.mono {listing more : List (List σ × α)}
    (h : Built listing nodes) : Built (listing ++ more) nodes := by
  obtain ⟨names, hpart⟩ := h.part
  exact ⟨h.full, h.apart, names, hpart.trans (List.sublist_append_left _ _)⟩

namespace Cursor

/-- What holds of a cursor at all times. -/
structure Inv (cursor : Cursor σ α) : Prop where
  top_full : ∀ node ∈ cursor.top, node.leaves ≠ []
  below_full : ∀ opened ∈ cursor.below, ∀ node ∈ opened.2, node.leaves ≠ []
  top_apart : cursor.top.IsChain Apart
  below_apart : ∀ opened ∈ cursor.below, ∀ children,
    List.IsChain Apart (opened.2 ++ [.dir opened.1 children])
  closed : ∀ nodes ∈ cursor.closed, Built cursor.gathered nodes

/-- What holds between two leaves as well: the leaf before is the last node. -/
structure Ready (cursor : Cursor σ α) : Prop extends Inv cursor where
  nonempty : cursor.below ≠ [] → cursor.top ≠ []
  leaf : ∀ node ∈ cursor.top.getLast?, ∀ name children, node ≠ .dir name children

theorem leaves_ne_nil (hne : nodes ≠ [])
    (hfull : ∀ node ∈ nodes, node.leaves ≠ []) : leaves nodes ≠ [] := by
  cases nodes with
  | nil => exact absurd rfl hne
  | cons node nodes =>
    intro hnil
    rw [leaves] at hnil
    exact hfull node List.mem_cons_self (List.append_eq_nil_iff.1 hnil).1

theorem Inv.built {cursor : Cursor σ α} (h : Inv cursor) : Built cursor.gathered cursor.top :=
  ⟨h.top_full, h.top_apart, _, sublist_gather cursor.below (leaves cursor.top)⟩

theorem Inv.close {cursor : Cursor σ α} (h : Inv cursor) (hne : cursor.top ≠ []) :
    Inv cursor.close := by
  have hgathered := gathered_close cursor
  have hbuilt := h.built
  cases hbelow : cursor.below with
  | nil =>
    rw [Cursor.close, hbelow]
    exact h
  | cons first below =>
    obtain ⟨name, nodes⟩ := first
    have hfirst : (name, nodes) ∈ cursor.below := hbelow ▸ List.mem_cons_self
    have hrest : ∀ opened ∈ below, opened ∈ cursor.below := fun opened hopened =>
      hbelow ▸ List.mem_cons_of_mem _ hopened
    rw [close_cons hbelow] at hgathered ⊢
    refine ⟨?_, fun opened hopened => h.below_full opened (hrest opened hopened),
      h.below_apart (name, nodes) hfirst _,
      fun opened hopened => h.below_apart opened (hrest opened hopened), ?_⟩
    · intro node hnode
      rcases mem_append.1 hnode with hnode | hnode
      · exact h.below_full (name, nodes) hfirst node hnode
      · rw [mem_singleton.1 hnode, Node.leaves]
        exact mt List.map_eq_nil_iff.1 (leaves_ne_nil hne h.top_full)
    · intro closed hclosed
      rw [hgathered]
      exact List.forall_mem_append.2 ⟨h.closed, List.forall_mem_singleton.2 hbuilt⟩ closed hclosed

theorem close_top_ne_nil {cursor : Cursor σ α} (hne : cursor.top ≠ []) : cursor.close.top ≠ [] := by
  cases hbelow : cursor.below with
  | nil => rwa [close, hbelow]
  | cons first below =>
    obtain ⟨name, nodes⟩ := first
    rw [close_cons hbelow]
    exact List.append_ne_nil_of_right_ne_nil _ (cons_ne_nil _ _)

section

variable {cursor : Cursor σ α} (h : Ready cursor) {times : Nat} (hle : times ≤ cursor.below.length)

include h hle

theorem Ready.closeTimes :
    Inv (closeTimes times cursor) ∧ (cursor.below ≠ [] → (closeTimes times cursor).top ≠ []) := by
  induction times with
  | zero => exact ⟨h.toInv, h.nonempty⟩
  | succ times ih =>
    obtain ⟨hinv, hne⟩ := ih (by omega)
    have hbelow : cursor.below ≠ [] := List.ne_nil_of_length_pos (by omega)
    rw [closeTimes_succ]
    exact ⟨hinv.close (hne hbelow), fun _ => close_top_ne_nil (hne hbelow)⟩

/-- The directory that was closed last is not the one that is entered. -/
theorem Ready.apart {name : σ}
    (hname : ∀ other ∈ (cursor.opened.drop (cursor.opened.length - times)).head?, other ≠ name)
    (children : List (Node σ α)) :
    List.IsChain Apart ((Cursor.closeTimes times cursor).top ++ [.dir name children]) := by
  refine List.isChain_append.2 ⟨(h.closeTimes hle).1.top_apart, List.isChain_singleton _, ?_⟩
  intro last hlast node hnode
  obtain rfl : Node.dir name children = node := by simpa using hnode
  cases times with
  | zero =>
    cases last with
    | leaf => exact trivial
    | dir other children => exact absurd rfl (h.leaf _ hlast other children)
  | succ times =>
    rw [closeTimes_succ] at hlast
    have hbelow := below_closeTimes times cursor
    rw [List.drop_eq_getElem_cons (by omega)] at hbelow
    rw [close_cons hbelow] at hlast
    obtain rfl : Node.dir _ _ = last := by simpa using hlast
    refine hname _ ?_
    have hlength : cursor.opened.length = cursor.below.length := by
      rw [opened, length_reverse, length_map]
    rw [List.head?_drop, hlength, opened, List.getElem?_reverse (by rw [length_map]; omega),
      length_map, List.getElem?_map,
      show cursor.below.length - 1 - (cursor.below.length - (times + 1)) = times by omega,
      List.getElem?_eq_getElem (by omega)]
    rfl

end

section

variable {cursor : Cursor σ α} (h : Inv cursor)

include h

theorem Inv.enter {name : σ}
    (hname : ∀ children, List.IsChain Apart (cursor.top ++ [.dir name children])) :
    Inv (cursor.enter name) := by
  have hgathered := gathered_enter cursor name
  refine ⟨fun _ hnode => (nomatch hnode), ?_, List.isChain_nil, ?_, ?_⟩
  · exact forall_mem_cons.2 ⟨h.top_full, h.below_full⟩
  · exact forall_mem_cons.2 ⟨hname, h.below_apart⟩
  · intro nodes hnodes
    rw [hgathered]
    exact h.closed nodes hnodes

theorem Inv.foldl_enter {names : List σ}
    (hname : ∀ name ∈ names.head?, ∀ children,
      List.IsChain Apart (cursor.top ++ [.dir name children])) :
    Inv (names.foldl Cursor.enter cursor) := by
  induction names generalizing cursor with
  | nil => exact h
  | cons name names ih =>
    rw [foldl_cons]
    refine ih (h.enter (hname name rfl)) fun _ _ _ => ?_
    exact List.isChain_singleton _

theorem Inv.push (name : σ) (value : α) :
    Ready (cursor.push name value) := by
  have hgathered := gathered_push cursor name value
  refine ⟨⟨?_, h.below_full, ?_, h.below_apart, ?_⟩, fun _ => ?_, ?_⟩
  · exact List.forall_mem_append.2 ⟨h.top_full, List.forall_mem_singleton.2 (cons_ne_nil _ _)⟩
  · refine List.isChain_append.2 ⟨h.top_apart, List.isChain_singleton _, ?_⟩
    intro last _ node hnode
    obtain rfl : Node.leaf name value = node := by simpa using hnode
    cases last <;> exact trivial
  · intro nodes hnodes
    rw [hgathered]
    exact (h.closed nodes hnodes).mono
  · exact List.append_ne_nil_of_right_ne_nil _ (cons_ne_nil _ _)
  · intro node hnode other children
    obtain rfl : Node.leaf name value = node := by simpa [Cursor.push] using hnode
    exact fun hsame => nomatch hsame

end

theorem ready_start : Ready (.start : Cursor σ α) where
  top_full := fun _ hnode => nomatch hnode
  below_full := fun _ hopened => nomatch hopened
  top_apart := List.isChain_nil
  below_apart := fun _ hopened => nomatch hopened
  closed := fun _ hnodes => nomatch hnodes
  nonempty := fun hbelow => absurd rfl hbelow
  leaf := fun _ hnode => nomatch hnode

variable [DecidableEq σ]

theorem Ready.step {cursor : Cursor σ α} (h : Ready cursor) (entry : Entry σ α) :
    Ready (cursor.step entry) := by
  have hlength : cursor.opened.length = cursor.below.length := by
    rw [opened, length_reverse, length_map]
  have hle := common_le_left cursor.opened entry.dirs
  have htimes : cursor.opened.length - common cursor.opened entry.dirs ≤ cursor.below.length := by
    omega
  refine ((h.closeTimes htimes).1.foldl_enter ?_).push entry.name entry.value
  intro name hname
  refine h.apart htimes ?_
  intro other hother
  rw [show cursor.opened.length - (cursor.opened.length - common cursor.opened entry.dirs) =
    common cursor.opened entry.dirs by omega] at hother
  obtain ⟨rest, hrest⟩ := List.head?_eq_some_iff.1 hother
  obtain ⟨rest', hrest'⟩ := List.head?_eq_some_iff.1 hname
  exact ne_of_common hrest hrest'

theorem Ready.steps {cursor : Cursor σ α} (h : Ready cursor) (entries : List (Entry σ α)) :
    Ready (entries.foldl Cursor.step cursor) := by
  induction entries generalizing cursor with
  | nil => exact h
  | cons entry entries ih => exact ih (h.step entry)

end Cursor

theorem built [DecidableEq σ] (entries : List (Entry σ α))
    (h : nodes ∈ (build entries).closed) : Built (entries.map Entry.leaf) nodes := by
  have hready := Cursor.ready_start.steps entries
  have hlength : (entries.foldl Cursor.step (.start : Cursor σ α)).opened.length ≤
      (entries.foldl Cursor.step (.start : Cursor σ α)).below.length := by
    rw [Cursor.opened, length_reverse, length_map]
  have hinv := (hready.closeTimes hlength).1
  have hgathered := Cursor.gathered_closeTimes
    (entries.foldl Cursor.step (.start : Cursor σ α)).opened.length
    (entries.foldl Cursor.step (.start : Cursor σ α))
  have hstart : (Cursor.start : Cursor σ α).gathered = [] := rfl
  rw [Cursor.gathered_steps, hstart, List.nil_append] at hgathered
  rcases mem_append.1 h with hnodes | hnodes
  · exact hgathered ▸ hinv.closed nodes hnodes
  · rw [mem_singleton.1 hnodes]
    exact hgathered ▸ hinv.built

-- Directories in directories

/-- The children of the directories among the nodes. -/
def Inner (nodes : List (Node σ α)) (closed : List (List (Node σ α))) : Prop :=
  ∀ name children, .dir name children ∈ nodes → children ∈ closed

theorem Inner.mono {closed : List (List (Node σ α))}
    (h : Inner nodes closed) (more : List (List (Node σ α))) : Inner nodes (closed ++ more) :=
  fun name children hmem => List.mem_append_left _ (h name children hmem)

namespace Cursor

/-- A directory among the nodes was closed. -/
structure Nested (cursor : Cursor σ α) : Prop where
  top : Inner cursor.top cursor.closed
  below : ∀ opened ∈ cursor.below, Inner opened.2 cursor.closed
  closed : ∀ nodes ∈ cursor.closed, Inner nodes cursor.closed

section

variable {cursor : Cursor σ α} (h : Nested cursor)

include h

theorem Nested.close : Nested cursor.close := by
  cases hbelow : cursor.below with
  | nil =>
    rw [Cursor.close, hbelow]
    exact h
  | cons first below =>
    obtain ⟨name, nodes⟩ := first
    have hrest := h.below
    rw [hbelow, forall_mem_cons] at hrest
    rw [close_cons hbelow]
    refine ⟨?_, fun opened hopened => (hrest.2 opened hopened).mono _, ?_⟩
    · intro name' children hmem
      rcases mem_append.1 hmem with hmem | hmem
      · exact List.mem_append_left _ (hrest.1 name' children hmem)
      · cases mem_singleton.1 hmem
        exact List.mem_append_right _ List.mem_cons_self
    · exact List.forall_mem_append.2 ⟨fun nodes hnodes => (h.closed nodes hnodes).mono _,
        List.forall_mem_singleton.2 (h.top.mono _)⟩

theorem Nested.closeTimes (times : Nat) :
    Nested (closeTimes times cursor) := by
  induction times generalizing cursor with
  | zero => exact h
  | succ times ih => exact ih h.close

theorem Nested.foldl_enter (names : List σ) :
    Nested (names.foldl enter cursor) := by
  induction names generalizing cursor with
  | nil => exact h
  | cons name names ih =>
    exact ih ⟨fun _ _ hmem => (nomatch hmem), forall_mem_cons.2 ⟨h.top, h.below⟩, h.closed⟩

theorem Nested.push (name : σ) (value : α) :
    Nested (cursor.push name value) := by
  refine ⟨fun other children hmem => ?_, h.below, h.closed⟩
  rcases mem_append.1 hmem with hmem | hmem
  · exact h.top other children hmem
  · cases mem_singleton.1 hmem

end

theorem Nested.steps [DecidableEq σ] {cursor : Cursor σ α} (h : Nested cursor)
    (entries : List (Entry σ α)) : Nested (entries.foldl step cursor) := by
  induction entries generalizing cursor with
  | nil => exact h
  | cons entry entries ih => exact ih (((h.closeTimes _).foldl_enter _).push _ _)

end Cursor

/-- The directories of a forest are nodes of one another, and all of them are closed. -/
theorem nested [DecidableEq σ] (entries : List (Entry σ α))
    (h : nodes ∈ (build entries).closed) : Inner nodes (build entries).closed := by
  have hstart : Cursor.Nested (.start : Cursor σ α) :=
    ⟨fun _ _ hmem => (nomatch hmem), fun _ hmem => (nomatch hmem), fun _ hmem => (nomatch hmem)⟩
  have hlast := (hstart.steps entries).closeTimes
    (entries.foldl Cursor.step (.start : Cursor σ α)).opened.length
  rcases mem_append.1 h with hnodes | hnodes
  · exact (hlast.closed nodes hnodes).mono _
  · rw [mem_singleton.1 hnodes]
    exact hlast.top.mono _

end Kompjutr.Forest
