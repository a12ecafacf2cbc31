/-
  Kompjutr.Common.LruLinks

  `ByteLru` of `common/lru.ts` with its pointers: a map from the keys to nodes, and a doubly linked
  list through the nodes, the oldest first.

  Every operation keeps the links of a list of nodes (`Listed`) and the map and the total with it
  (`Holds`), so what a run leaves is read off the list (`lru_run_sound`).
-/
import Kompjutr.Common.Lru
import Kompjutr.Lib.KeyTable
import Mathlib.Data.List.Induction
import Mathlib.Logic.Function.Basic

namespace Kompjutr

open List (foldl_concat map_append map_cons mem_append mem_cons_self mem_singleton nodup_append
  nodup_cons suffix_rfl)

structure LruCell (κ ν : Type) extends LruNode κ ν where
  older : Option Nat
  newer : Option Nat

/-- The list through the nodes, which are kept by number. -/
structure LruList (κ ν : Type) where
  heap : Nat → Option (LruCell κ ν)
  oldest : Option Nat
  newest : Option Nat

namespace LruList

variable {κ ν : Type}

def modify (s : LruList κ ν) (id : Nat) (f : LruCell κ ν → LruCell κ ν) : LruList κ ν :=
  { s with heap := Function.update s.heap id ((s.heap id).map f) }

/-- Set the newer neighbour of a node, or the oldest one where there is no node. -/
def linkNewer (s : LruList κ ν) (node newer : Option Nat) : LruList κ ν :=
  match node with
  | none => { s with oldest := newer }
  | some id => s.modify id fun cell => { cell with newer }

/-- Set the older neighbour of a node, or the newest one where there is no node. -/
def linkOlder (s : LruList κ ν) (node older : Option Nat) : LruList κ ν :=
  match node with
  | none => { s with newest := older }
  | some id => s.modify id fun cell => { cell with older }

def append (s : LruList κ ν) (id : Nat) : LruList κ ν :=
  { (s.modify id fun cell => { cell with older := s.newest, newer := none }).linkNewer s.newest
    (some id) with newest := some id }

def unlink (s : LruList κ ν) (id : Nat) : LruList κ ν :=
  match s.heap id with
  | none => s
  | some node =>
    ((s.linkNewer node.older node.newer).linkOlder node.newer node.older).modify id fun cell =>
      { cell with older := none, newer := none }

end LruList

structure LinkedLru (κ ν : Type) where
  budget : Nat
  list : LruList κ ν
  made : Nat
  entries : κ → Option Nat
  bytes : Int

namespace LinkedLru

variable {κ ν : Type}

def empty (budget : Nat) : LinkedLru κ ν :=
  { budget, list := ⟨fun _ => none, none, none⟩, made := 0, entries := fun _ => none, bytes := 0 }

variable [DecidableEq κ]

def remove (s : LinkedLru κ ν) (id : Nat) : LinkedLru κ ν :=
  match s.list.heap id with
  | none => s
  | some node =>
    { s with
      list := s.list.unlink id
      entries := Function.update s.entries node.key none
      bytes := s.bytes - node.bytes }

/-- The loop of `#evict`, for as many turns as there are nodes. -/
def evict : Nat → LinkedLru κ ν → LinkedLru κ ν
  | 0, s => s
  | turns + 1, s =>
    match s.list.oldest with
    | none => s
    | some id => if s.bytes > s.budget then evict turns (s.remove id) else s

def delete (s : LinkedLru κ ν) (key : κ) : LinkedLru κ ν :=
  match s.entries key with
  | none => s
  | some id => s.remove id

def get (s : LinkedLru κ ν) (key : κ) : Option ν × LinkedLru κ ν :=
  match s.entries key with
  | none => (none, s)
  | some id =>
    ((s.list.heap id).map (·.value), { s with list := (s.list.unlink id).append id })

/-- `Number.MAX_SAFE_INTEGER`. -/
def maxSafeBytes : Nat := 2 ^ 53 - 1

/-- `#entryBytes`, nothing where it throws.  The size is nothing where it is no integer or below
zero. -/
def entryBytes (size : Option Nat) : Option Nat :=
  match size with
  | none => none
  | some bytes => if bytes ≤ maxSafeBytes then some (max bytes minEntryBytes) else none

/-- `set`, which leaves the cache as it is where it throws. -/
def set (sizeOf : ν → Option Nat) (s : LinkedLru κ ν) (key : κ) (value : ν) : LinkedLru κ ν :=
  match entryBytes (sizeOf value) with
  | none => s
  | some size =>
    if 4 * size > s.budget then s
    else
      let s := s.delete key
      let id := s.made
      let heap := Function.update s.list.heap id (some
        { key, value, bytes := size, older := none, newer := none })
      let s :=
        { s with
          list := { s.list with heap }.append id
          made := id + 1
          entries := Function.update s.entries key (some id)
          bytes := s.bytes + size }
      s.evict s.made

def clear (s : LinkedLru κ ν) : LinkedLru κ ν :=
  { s with
    list := { s.list with oldest := none, newest := none }, entries := fun _ => none, bytes := 0 }

end LinkedLru

/-- A call of the cache. -/
inductive LruCall (κ ν : Type)
  | get (key : κ)
  | set (key : κ) (value : ν)
  | delete (key : κ)
  | clear

namespace LinkedLru

variable {κ ν : Type} [DecidableEq κ]

def call (sizeOf : ν → Option Nat) (s : LinkedLru κ ν) : LruCall κ ν → LinkedLru κ ν
  | .get key => (s.get key).2
  | .set key value => s.set sizeOf key value
  | .delete key => s.delete key
  | .clear => s.clear

def run (sizeOf : ν → Option Nat) (budget : Nat) (calls : List (LruCall κ ν)) : LinkedLru κ ν :=
  calls.foldl (call sizeOf) (empty budget)

end LinkedLru

namespace LruList

-- Links

variable {κ ν : Type}

/-- The nodes are linked to each other, to `older` in front of them and to `newer` behind. -/
def Linked (heap : Nat → Option (LruCell κ ν)) :
    Option Nat → List (Nat × LruNode κ ν) → Option Nat → Prop
  | _, [], _ => True
  | older, (id, node) :: rest, newer =>
    heap id = some { node with older, newer := (rest.head?.map Prod.fst).or newer } ∧
      Linked heap (some id) rest newer

variable {heap heap' : Nat → Option (LruCell κ ν)} {older newer : Option Nat} {id : Nat}
  {node : LruNode κ ν} {nodes left right : List (Nat × LruNode κ ν)} {s : LruList κ ν}

theorem linked_append : Linked heap older (left ++ right) newer ↔
    Linked heap older left ((right.head?.map Prod.fst).or newer) ∧
      Linked heap ((left.getLast?.map Prod.fst).or older) right newer := by
  induction left generalizing older with
  | nil => simp [Linked]
  | cons first left ih =>
    have hhead : ((left ++ right).head?.map Prod.fst).or newer =
        (left.head?.map Prod.fst).or ((right.head?.map Prod.fst).or newer) := by
      cases left <;> rfl
    have hlast : ((first :: left).getLast?.map Prod.fst).or older =
        (left.getLast?.map Prod.fst).or (some first.1) := by
      cases left with
      | nil => rfl
      | cons second left =>
        rw [List.getLast?_cons_cons, List.getLast?_eq_some_getLast (List.cons_ne_nil _ _)]
        rfl
    rw [List.cons_append, Linked, Linked, ih, and_assoc, hhead, hlast]

theorem Linked.congr (h : Linked heap older nodes newer)
    (hsame : ∀ id ∈ nodes.map Prod.fst, heap' id = heap id) : Linked heap' older nodes newer := by
  induction nodes generalizing older with
  | nil => trivial
  | cons first nodes ih =>
    rw [map_cons, List.forall_mem_cons] at hsame
    exact ⟨hsame.1.trans h.1, ih h.2 hsame.2⟩

theorem Linked.heap_eq (h : Linked heap older nodes newer) (hmem : (id, node) ∈ nodes) :
    ∃ older newer, heap id = some { node with older, newer } := by
  induction nodes generalizing older with
  | nil => nomatch hmem
  | cons first nodes ih =>
    rcases List.mem_cons.1 hmem with rfl | hmem
    · exact ⟨_, _, h.1⟩
    · exact ih h.2 hmem

theorem linkNewer_heap (h : ∀ other ∈ older, other ≠ id) :
    (s.linkNewer older newer).heap id = s.heap id := by
  cases older with
  | none => rfl
  | some other => exact Function.update_of_ne (h other rfl).symm _ _

theorem linkOlder_heap (h : ∀ other ∈ newer, other ≠ id) :
    (s.linkOlder newer older).heap id = s.heap id := by
  cases newer with
  | none => rfl
  | some other => exact Function.update_of_ne (h other rfl).symm _ _

/-- The last node gets another newer neighbour. -/
theorem Linked.linkNewer (h : Linked s.heap older nodes newer)
    (hnodup : (nodes.map Prod.fst).Nodup) (next : Option Nat) :
    Linked (s.linkNewer (nodes.getLast?.map Prod.fst) next).heap older nodes next := by
  rcases List.eq_nil_or_concat nodes with rfl | ⟨init, last, rfl⟩
  · trivial
  · rw [List.concat_eq_append] at h hnodup ⊢
    rw [map_append, nodup_append] at hnodup
    obtain ⟨hinit, hlast, -⟩ := linked_append.1 h
    rw [List.getLast?_concat]
    refine linked_append.2 ⟨hinit.congr fun other hother => ?_, ?_, trivial⟩
    · refine linkNewer_heap fun id hid => ?_
      cases hid
      exact (hnodup.2.2 other hother last.1 mem_cons_self).symm
    · show Function.update s.heap last.1 _ last.1 = _
      rw [Function.update_self, hlast]
      rfl

/-- The first node gets another older neighbour. -/
theorem Linked.linkOlder (h : Linked s.heap older nodes newer)
    (hnodup : (nodes.map Prod.fst).Nodup) (previous : Option Nat) :
    Linked (s.linkOlder (nodes.head?.map Prod.fst) previous).heap previous nodes newer := by
  cases nodes with
  | nil => trivial
  | cons first nodes =>
    rw [map_cons, nodup_cons] at hnodup
    refine ⟨?_, h.2.congr fun other hother => ?_⟩
    · show Function.update s.heap first.1 _ first.1 = _
      rw [Function.update_self, h.1]
      rfl
    · refine linkOlder_heap fun id hid => ?_
      cases hid
      exact fun heq => hnodup.1 (heq ▸ hother)

/-- The nodes of the list, which the cache points to from both ends. -/
structure Listed (s : LruList κ ν) (nodes : List (Nat × LruNode κ ν)) : Prop where
  nodup : (nodes.map Prod.fst).Nodup
  linked : Linked s.heap none nodes none
  oldest : s.oldest = nodes.head?.map Prod.fst
  newest : s.newest = nodes.getLast?.map Prod.fst

theorem Listed.unlink (h : Listed s (left ++ (id, node) :: right)) :
    Listed (s.unlink id) (left ++ right) ∧
      (s.unlink id).heap id = some { node with older := none, newer := none } := by
  obtain ⟨hnodup, hlinked, holdest, hnewest⟩ := h
  rw [map_append, map_cons, nodup_append, nodup_cons] at hnodup
  obtain ⟨hleft, ⟨hid, hright⟩, hapart⟩ := hnodup
  obtain ⟨hlinkedLeft, hself, hlinkedRight⟩ := linked_append.1 hlinked
  simp only [Option.or_none] at hself
  have hlast : ∀ other ∈ left.getLast?.map Prod.fst, other ∈ left.map Prod.fst :=
    fun _ hother => List.mem_of_getLast? (List.getLast?_map ▸ hother)
  have hhead : ∀ other ∈ right.head?.map Prod.fst, other ∈ right.map Prod.fst :=
    fun _ hother => List.mem_of_mem_head? (List.head?_map ▸ hother)
  have hnotLeft : ∀ other ∈ left.map Prod.fst, other ≠ id :=
    fun other hother => hapart other hother id mem_cons_self
  have hnotRight : ∀ other ∈ right.map Prod.fst, other ≠ id := fun _ hother heq => hid (heq ▸ hother)
  have hcross : ∀ a ∈ left.map Prod.fst, ∀ b ∈ right.map Prod.fst, a ≠ b :=
    fun a ha b hb => hapart a ha b (List.mem_cons_of_mem _ hb)
  rw [LruList.unlink, hself]
  dsimp only
  have hnewer := hlinkedLeft.linkNewer hleft (right.head?.map Prod.fst)
  generalize hfirst : s.linkNewer (left.getLast?.map Prod.fst) (right.head?.map Prod.fst) = first
    at hnewer ⊢
  have hfirstHeap : ∀ other, (∀ last ∈ left.getLast?.map Prod.fst, last ≠ other) →
      first.heap other = s.heap other := by
    intro other hother
    rw [← hfirst, linkNewer_heap hother]
  have holder := Linked.linkOlder (hlinkedRight.congr fun other hother =>
    hfirstHeap other fun last hlast' => hcross last (hlast last hlast') other hother) hright
    (left.getLast?.map Prod.fst)
  generalize hsecond : first.linkOlder (right.head?.map Prod.fst) (left.getLast?.map Prod.fst) =
    second at holder ⊢
  have hsecondHeap : ∀ other, (∀ head ∈ right.head?.map Prod.fst, head ≠ other) →
      second.heap other = first.heap other := by
    intro other hother
    rw [← hsecond, linkOlder_heap hother]
  refine ⟨⟨?_, linked_append.2 ⟨?_, ?_⟩, ?_, ?_⟩, ?_⟩
  · rw [map_append]
    exact nodup_append.2 ⟨hleft, hright, hcross⟩
  · rw [Option.or_none]
    refine hnewer.congr fun other hother => ?_
    exact (Function.update_of_ne (hnotLeft other hother) _ _).trans (hsecondHeap other
      fun head hhead' => (hcross other hother head (hhead head hhead')).symm)
  · rw [Option.or_none]
    exact holder.congr fun other hother => Function.update_of_ne (hnotRight other hother) _ _
  · subst hsecond hfirst
    cases left <;> cases right <;> first | rfl | exact holdest
  · subst hsecond hfirst
    cases right with
    | nil => cases left <;> simp [LruList.linkOlder, modify]
    | cons next right =>
      rw [List.getLast?_append_cons, List.getLast?_cons_cons] at hnewest
      rw [List.getLast?_append_cons, ← hnewest]
      cases left <;> rfl
  · show Function.update second.heap id _ id = _
    rw [Function.update_self, hsecondHeap id fun head hhead' => hnotRight head (hhead head hhead'),
      hfirstHeap id fun last hlast' => hnotLeft last (hlast last hlast'), hself]
    rfl

theorem Listed.append {older newer : Option Nat} (h : Listed s nodes)
    (hid : id ∉ nodes.map Prod.fst) (hself : s.heap id = some { node with older, newer }) :
    Listed (s.append id) (nodes ++ [(id, node)]) := by
  obtain ⟨hnodup, hlinked, holdest, hnewest⟩ := h
  have hlast : ∀ other ∈ s.newest, other ≠ id := by
    intro other hother heq
    rw [hnewest] at hother
    exact hid (heq ▸ List.mem_of_getLast? (List.getLast?_map ▸ hother))
  have hbefore : Linked (s.modify id fun cell =>
      { cell with older := s.newest, newer := none }).heap none nodes none :=
    hlinked.congr fun other hother =>
      Function.update_of_ne (fun heq : other = id => hid (heq ▸ hother)) _ _
  have hnewer := hbefore.linkNewer hnodup (some id)
  rw [← hnewest] at hnewer
  refine ⟨?_, linked_append.2 ⟨hnewer, ?_, trivial⟩, ?_, ?_⟩
  · rw [map_append, List.map_singleton, nodup_append]
    refine ⟨hnodup, List.nodup_singleton _, fun a ha b hb heq => ?_⟩
    exact hid ((show a = id from heq.trans (mem_singleton.1 hb)) ▸ ha)
  · refine (linkNewer_heap hlast).trans ?_
    show Function.update s.heap id _ id = _
    rw [Function.update_self, hself, ← hnewest, Option.or_none]
    rfl
  · unfold LruList.append
    rw [hnewest]
    cases nodes with
    | nil => rfl
    | cons first nodes => exact holdest
  · rw [List.getLast?_concat]
    rfl

end LruList

namespace LinkedLru

-- What the cache holds

open LruList

variable {κ ν : Type} {id : Nat} {node : LruNode κ ν} {nodes left right : List (Nat × LruNode κ ν)}
  {s : LinkedLru κ ν}

/-- The list, the map and the total tell of the same nodes. -/
structure Holds (s : LinkedLru κ ν) (nodes : List (Nat × LruNode κ ν)) : Prop
    extends Listed s.list nodes where
  keys : (nodes.map (·.2.key)).Nodup
  fresh : ∀ id ∈ nodes.map Prod.fst, id < s.made
  entries : ∀ key id, s.entries key = some id ↔ ∃ node, (id, node) ∈ nodes ∧ node.key = key
  bytes : s.bytes = ((nodes.map (·.2.bytes)).sum : Nat)

theorem holds_nil (holdest : s.list.oldest = none) (hnewest : s.list.newest = none)
    (hentries : s.entries = fun _ => none) (hbytes : s.bytes = 0) : Holds s [] where
  nodup := List.nodup_nil
  linked := trivial
  oldest := holdest
  newest := hnewest
  keys := List.nodup_nil
  fresh := nofun
  entries := fun _ _ => iff_of_false (hentries ▸ nofun) fun ⟨_, hmem, _⟩ => nomatch hmem
  bytes := hbytes

theorem Holds.length_le (h : Holds s nodes) : nodes.length ≤ s.made := by
  have hsub : nodes.map Prod.fst ⊆ List.range s.made := fun id hid => List.mem_range.2 (h.fresh id hid)
  simpa using (List.subperm_of_subset h.nodup hsub).length_le

/-- No other node has the key of a node. -/
theorem Holds.key_ne (h : Holds s (left ++ (id, node) :: right)) :
    ∀ x ∈ left ++ right, x.2.key ≠ node.key := by
  have hkeys := h.keys
  rw [map_append, map_cons, nodup_append, nodup_cons] at hkeys
  intro x hx heq
  rcases mem_append.1 hx with hx | hx
  · exact hkeys.2.2 _ (List.mem_map_of_mem hx) _ mem_cons_self heq
  · exact hkeys.2.1.1 (heq ▸ List.mem_map_of_mem hx)

variable [DecidableEq κ]

theorem Holds.filter_ne (h : Holds s (left ++ (id, node) :: right)) :
    (left ++ (id, node) :: right).filter (·.2.key ≠ node.key) = left ++ right := by
  have hne := h.key_ne
  rw [List.filter_append, List.filter_cons_of_neg (by simp), ← List.filter_append]
  exact List.filter_eq_self.2 fun x hx => decide_eq_true (hne x hx)

theorem Holds.remove (h : Holds s (left ++ (id, node) :: right)) :
    Holds (s.remove id) (left ++ right) ∧ (s.remove id).budget = s.budget ∧
      (s.remove id).bytes ≤ s.bytes := by
  obtain ⟨older, newer, hcell⟩ := h.linked.heap_eq (List.mem_append_right _ mem_cons_self)
  have hne := h.key_ne
  have hsub : (left ++ right).Sublist (left ++ (id, node) :: right) :=
    (List.sublist_cons_self _ _).append_left left
  rw [LinkedLru.remove, hcell]
  dsimp only
  refine ⟨⟨h.toListed.unlink.1, h.keys.sublist (hsub.map _),
    fun other hother => h.fresh other ((hsub.map _).subset hother), fun key other => ?_, ?_⟩, rfl,
    Int.sub_le_self _ (Int.natCast_nonneg _)⟩
  · dsimp only
    by_cases hkey : key = node.key
    · subst hkey
      rw [Function.update_self]
      refine iff_of_false nofun ?_
      rintro ⟨n, hmem, hsame⟩
      exact hne _ hmem hsame
    · rw [Function.update_of_ne hkey, h.entries]
      grind
  · have htotal := h.bytes
    simp only [map_append, map_cons, List.sum_append, List.sum_cons] at htotal ⊢
    omega

theorem Holds.delete (h : Holds s nodes) (key : κ) :
    Holds (s.delete key) (nodes.filter (·.2.key ≠ key)) ∧ (s.delete key).budget = s.budget ∧
      (s.delete key).bytes ≤ s.bytes := by
  unfold LinkedLru.delete
  split
  · next hnone =>
    have hall : nodes.filter (·.2.key ≠ key) = nodes := List.filter_eq_self.2 fun x hx =>
      decide_eq_true fun heq => nomatch hnone.symm.trans ((h.entries key x.1).2 ⟨x.2, hx, heq⟩)
    rw [hall]
    exact ⟨h, rfl, Int.le_refl _⟩
  · next id hid =>
    obtain ⟨node, hmem, rfl⟩ := (h.entries key id).1 hid
    obtain ⟨left, right, rfl⟩ := List.append_of_mem hmem
    rw [h.filter_ne]
    exact h.remove

/-- The loop ends where the budget is kept, as the plain one does. -/
theorem Holds.evict {turns : Nat} (h : Holds s nodes) (hturns : nodes.length ≤ turns) :
    ∃ kept, kept <:+ nodes ∧ kept.map Prod.snd = ByteLru.evict s.budget (nodes.map Prod.snd) ∧
      Holds (s.evict turns) kept ∧ (s.evict turns).budget = s.budget ∧
      (s.evict turns).bytes ≤ s.budget := by
  induction turns generalizing s nodes with
  | zero =>
    obtain rfl := List.length_eq_zero_iff.1 (Nat.le_zero.1 hturns)
    exact ⟨[], suffix_rfl, rfl, h, rfl, by rw [LinkedLru.evict, h.bytes]; exact Int.natCast_nonneg _⟩
  | succ turns ih =>
    have hbytes := h.bytes
    rw [LinkedLru.evict, h.oldest]
    cases nodes with
    | nil => exact ⟨[], suffix_rfl, rfl, h, rfl, hbytes ▸ Int.natCast_nonneg _⟩
    | cons first rest =>
      have hsum : s.bytes = (ByteLru.bytesOf (first.2 :: rest.map Prod.snd) : Nat) := by
        rw [hbytes, ByteLru.bytesOf, ← map_cons, List.map_map]
        rfl
      dsimp only [List.head?_cons, Option.map_some]
      rw [map_cons, ByteLru.evict]
      by_cases hgt : s.bytes > s.budget
      · rw [if_pos hgt, if_pos (by omega)]
        obtain ⟨hrest, hbudget, -⟩ := (show Holds s ([] ++ first :: rest) from h).remove
        obtain ⟨kept, hkept, hplain, hholds, hsame, hle⟩ := ih hrest (Nat.le_of_succ_le_succ hturns)
        rw [hbudget] at hplain hsame hle
        exact ⟨kept, hkept.trans (List.suffix_cons _ _), hplain, hholds, hsame, hle⟩
      · rw [if_neg hgt, if_neg (by omega)]
        exact ⟨_, suffix_rfl, rfl, h, rfl, Int.not_lt.1 hgt⟩

/-- A hit is moved behind the others. -/
theorem Holds.get (h : Holds s nodes) (key : κ) : ∃ after, Holds (s.get key).2 after ∧
    (s.get key).2.budget = s.budget ∧ after.Perm nodes ∧
    (((s.get key).1 = none ∧ after = nodes ∧ ∀ x ∈ nodes, x.2.key ≠ key) ∨
      ∃ x ∈ nodes, x.2.key = key ∧ (s.get key).1 = some x.2.value ∧
        after = nodes.filter (·.2.key ≠ key) ++ [x]) := by
  unfold LinkedLru.get
  split
  · next hnone =>
    refine ⟨nodes, h, rfl, List.Perm.refl _, Or.inl ⟨rfl, rfl, fun x hx heq => ?_⟩⟩
    exact nomatch hnone.symm.trans ((h.entries key x.1).2 ⟨x.2, hx, heq⟩)
  · next id hid =>
    obtain ⟨node, hmem, rfl⟩ := (h.entries key id).1 hid
    obtain ⟨left, right, rfl⟩ := List.append_of_mem hmem
    obtain ⟨older, newer, hcell⟩ := h.linked.heap_eq hmem
    obtain ⟨hlisted, hself⟩ := h.toListed.unlink
    have hnodup := h.nodup
    have hperm : (left ++ right ++ [(id, node)]).Perm (left ++ (id, node) :: right) := by
      rw [List.append_assoc]
      exact (List.perm_append_singleton _ _).append_left left
    have hid : id ∉ (left ++ right).map Prod.fst := by
      rw [map_append, map_cons, List.nodup_middle, nodup_cons] at hnodup
      rw [map_append]
      exact hnodup.1
    refine ⟨left ++ right ++ [(id, node)], ⟨hlisted.append hid hself,
      (hperm.map _).nodup_iff.2 h.keys, fun other hother => ?_, fun other number => ?_, ?_⟩, rfl,
      hperm, Or.inr ⟨(id, node), hmem, rfl, by rw [hcell]; rfl, ?_⟩⟩
    · exact h.fresh other ((hperm.map _).mem_iff.1 hother)
    · rw [h.entries]
      simp only [hperm.mem_iff]
    · rw [h.bytes, (hperm.map _).sum_nat]
    · rw [h.filter_ne]

/-- The bytes a value that is taken is counted with. -/
def takenBytes (sizeOf : ν → Option Nat) (budget : Nat) (value : ν) : Option Nat :=
  (entryBytes (sizeOf value)).filter (4 * · ≤ budget)

variable {sizeOf : ν → Option Nat} {key : κ} {value : ν}

theorem set_of_not_taken (h : takenBytes sizeOf s.budget value = none) :
    s.set sizeOf key value = s := by
  unfold LinkedLru.set
  unfold takenBytes at h
  split
  · rfl
  · next size hsize =>
    rw [hsize, Option.filter_eq_none_iff] at h
    exact if_pos (by simpa using h)

/-- What is taken is put behind the others, and the oldest ones leave. -/
theorem Holds.set {size : Nat} (h : Holds s nodes)
    (htaken : takenBytes sizeOf s.budget value = some size) :
    ∃ id kept, kept <:+ nodes.filter (·.2.key ≠ key) ++ [(id, ⟨key, value, size⟩)] ∧
      kept.map Prod.snd = ByteLru.evict s.budget
        ((nodes.map Prod.snd).filter (·.key ≠ key) ++ [⟨key, value, size⟩]) ∧
      Holds (s.set sizeOf key value) kept ∧ (s.set sizeOf key value).budget = s.budget ∧
      (s.set sizeOf key value).bytes ≤ s.budget := by
  obtain ⟨hsize, hle⟩ := Option.filter_eq_some_iff.1 htaken
  obtain ⟨hdeleted, hbudget, -⟩ := h.delete key
  have hne : ∀ x ∈ nodes.filter (·.2.key ≠ key), x.2.key ≠ key :=
    fun x hx => of_decide_eq_true (List.mem_filter.1 hx).2
  have hnot : ¬4 * size > s.budget := Nat.not_lt.2 (of_decide_eq_true hle)
  rw [LinkedLru.set, hsize]
  dsimp only
  rw [if_neg hnot, ← hbudget, List.filter_map]
  change ∃ id kept, _ ∧ _ = ByteLru.evict _ ((nodes.filter (·.2.key ≠ key)).map Prod.snd ++ _) ∧ _
  generalize nodes.filter (·.2.key ≠ key) = others at hdeleted hne ⊢
  generalize s.delete key = t at hdeleted ⊢
  have hholds : Holds
      { t with
        list := { t.list with heap := Function.update t.list.heap t.made (some
          { key, value, bytes := size, older := none, newer := none }) }.append t.made
        made := t.made + 1
        entries := Function.update t.entries key (some t.made)
        bytes := t.bytes + size }
      (others ++ [(t.made, ⟨key, value, size⟩)]) := by
    refine ⟨Listed.append ⟨hdeleted.nodup, hdeleted.linked.congr fun other hother =>
      Function.update_of_ne (Nat.ne_of_lt (hdeleted.fresh other hother)) _ _, hdeleted.oldest,
      hdeleted.newest⟩ (fun hmem => Nat.lt_irrefl _ (hdeleted.fresh _ hmem))
      (Function.update_self ..), ?_, ?_, ?_, ?_⟩
    · rw [map_append, nodup_append]
      refine ⟨hdeleted.keys, List.nodup_singleton _, fun a ha b hb heq => ?_⟩
      obtain ⟨x, hx, rfl⟩ := List.mem_map.1 ha
      exact hne x hx (heq.trans (mem_singleton.1 hb))
    · intro other hother
      rw [map_append] at hother
      rcases mem_append.1 hother with hother | hother
      · exact Nat.lt_succ_of_lt (hdeleted.fresh other hother)
      · rw [mem_singleton.1 hother]
        exact Nat.lt_succ_self _
    · intro other number
      dsimp only
      by_cases hkey : other = key
      · subst hkey
        rw [Function.update_self]
        grind
      · rw [Function.update_of_ne hkey, hdeleted.entries]
        grind
    · rw [hdeleted.bytes, map_append, List.sum_append]
      rfl
  obtain ⟨kept, hkept, hplain, hresult, hsame, hwithin⟩ := hholds.evict hholds.length_le
  rw [map_append] at hplain
  exact ⟨t.made, kept, hkept, hplain, hresult, hsame, hwithin⟩

-- Runs

/-- The keys by their last use: a `get`, or a `set` that took its value. -/
def used (sizeOf : ν → Option Nat) (budget : Nat) (keys : List κ) : LruCall κ ν → List κ
  | .get key => keys.filter (· ≠ key) ++ [key]
  | .set key value =>
    if (takenBytes sizeOf budget value).isSome then keys.filter (· ≠ key) ++ [key] else keys
  | _ => keys

def recency (sizeOf : ν → Option Nat) (budget : Nat) (calls : List (LruCall κ ν)) : List κ :=
  calls.foldl (used sizeOf budget) []

/-- The value of the last `set` of the key that took its value. -/
def took (sizeOf : ν → Option Nat) (budget : Nat) (key : κ) (found : Option ν) :
    LruCall κ ν → Option ν
  | .set other value =>
    if other = key ∧ (takenBytes sizeOf budget value).isSome then some value else found
  | _ => found

def lastTaken (sizeOf : ν → Option Nat) (budget : Nat) (key : κ) (calls : List (LruCall κ ν)) :
    Option ν :=
  calls.foldl (took sizeOf budget key) none

/-- What a run knows of the nodes it leaves. -/
structure Tracks (sizeOf : ν → Option Nat) (budget : Nat) (calls : List (LruCall κ ν))
    (nodes : List (Nat × LruNode κ ν)) : Prop where
  recent : (nodes.map (·.2.key)).Sublist (recency sizeOf budget calls)
  last : ∀ x ∈ nodes, lastTaken sizeOf budget x.2.key calls = some x.2.value

/-- What holds after every run. -/
structure Sound (sizeOf : ν → Option Nat) (budget : Nat) (calls : List (LruCall κ ν))
    (s : LinkedLru κ ν) (nodes : List (Nat × LruNode κ ν)) : Prop
    extends Holds s nodes, Tracks sizeOf budget calls nodes where
  within : s.bytes ≤ s.budget
  same : s.budget = budget

variable {budget : Nat} {calls : List (LruCall κ ν)}

theorem filter_recent {keys : List κ} (h : (nodes.map (·.2.key)).Sublist keys) :
    ((nodes.filter (·.2.key ≠ key)).map (·.2.key)).Sublist (keys.filter (· ≠ key)) := by
  have hfilter := h.filter (· ≠ key)
  rwa [List.filter_map] at hfilter

theorem sound_call (h : Sound sizeOf budget calls s nodes) (call : LruCall κ ν) :
    ∃ after, Sound sizeOf budget (calls ++ [call]) (s.call sizeOf call) after := by
  have hrecent := h.recent
  have hlast := h.last
  cases call with
  | get key =>
    obtain ⟨after, hholds, hbudget, hperm, hcase⟩ := h.toHolds.get key
    refine ⟨after, hholds, ⟨?_, fun x hx => ?_⟩, ?_, hbudget.trans h.same⟩
    · rw [recency, foldl_concat]
      rcases hcase with ⟨-, rfl, hne⟩ | ⟨x, -, rfl, -, rfl⟩
      · have hall : after.filter (·.2.key ≠ key) = after :=
          List.filter_eq_self.2 fun x hx => decide_eq_true (hne x hx)
        exact (hall ▸ filter_recent hrecent).trans (List.sublist_append_left _ _)
      · rw [map_append]
        exact (filter_recent hrecent).append (List.Sublist.refl _)
    · rw [lastTaken, foldl_concat]
      exact hlast x (hperm.mem_iff.1 hx)
    · show (s.get key).2.bytes ≤ (s.get key).2.budget
      rw [hbudget, hholds.bytes, (hperm.map _).sum_nat, ← h.bytes]
      exact h.within
  | set key value =>
    cases htaken : takenBytes sizeOf s.budget value with
    | none =>
      have hnone : takenBytes sizeOf budget value = none := h.same ▸ htaken
      refine ⟨nodes, ?_⟩
      rw [LinkedLru.call, set_of_not_taken htaken]
      refine ⟨h.toHolds, ⟨?_, fun x hx => ?_⟩, h.within, h.same⟩
      · rw [recency, foldl_concat, used, hnone]
        exact hrecent
      · rw [lastTaken, foldl_concat, took, hnone, if_neg (fun hboth => nomatch hboth.2)]
        exact hlast x hx
    | some size =>
      have hsome : takenBytes sizeOf budget value = some size := h.same ▸ htaken
      obtain ⟨id, kept, hkept, -, hholds, hbudget, hwithin⟩ := h.toHolds.set htaken
      refine ⟨kept, hholds, ⟨?_, fun x hx => ?_⟩, hbudget ▸ hwithin, hbudget.trans h.same⟩
      · rw [recency, foldl_concat, used, hsome]
        refine (hkept.sublist.map _).trans ?_
        rw [map_append]
        exact (filter_recent hrecent).append (List.Sublist.refl _)
      · rw [lastTaken, foldl_concat, took, hsome]
        rcases mem_append.1 (hkept.subset hx) with hx | hx
        · obtain ⟨hx, hne⟩ := List.mem_filter.1 hx
          rw [if_neg fun hboth => of_decide_eq_true hne hboth.1.symm]
          exact hlast x hx
        · rw [mem_singleton.1 hx]
          exact if_pos ⟨rfl, rfl⟩
  | delete key =>
    obtain ⟨hholds, hbudget, hbytes⟩ := h.toHolds.delete key
    refine ⟨_, hholds, ⟨?_, fun x hx => ?_⟩, ?_, hbudget.trans h.same⟩
    · rw [recency, foldl_concat]
      exact (List.filter_sublist.map _).trans hrecent
    · rw [lastTaken, foldl_concat]
      exact hlast x (List.mem_of_mem_filter hx)
    · exact Int.le_trans hbytes (hbudget ▸ h.within)
  | clear =>
    exact ⟨[], holds_nil rfl rfl rfl rfl, ⟨List.nil_sublist _, nofun⟩, Int.natCast_nonneg _, h.same⟩

theorem sound_run (sizeOf : ν → Option Nat) (budget : Nat) (calls : List (LruCall κ ν)) :
    ∃ nodes, Sound sizeOf budget calls (run sizeOf budget calls) nodes := by
  induction calls using List.reverseRecOn with
  | nil =>
    exact ⟨[], holds_nil rfl rfl rfl rfl, ⟨List.nil_sublist _, nofun⟩, Int.natCast_nonneg _, rfl⟩
  | append_singleton calls call ih =>
    obtain ⟨nodes, hnodes⟩ := ih
    rw [run, foldl_concat]
    exact sound_call hnodes call

/-- Every run keeps the list, the map and the total together, in the order of use, and reads the
value that was last taken. -/
theorem lru_run_sound (sizeOf : ν → Option Nat) (budget : Nat) (calls : List (LruCall κ ν)) :
    ∃ nodes, Sound sizeOf budget calls (run sizeOf budget calls) nodes ∧
      ∀ key value, ((run sizeOf budget calls).get key).1 = some value →
        lastTaken sizeOf budget key calls = some value := by
  obtain ⟨nodes, hnodes⟩ := sound_run sizeOf budget calls
  refine ⟨nodes, hnodes, fun key value hget => ?_⟩
  obtain ⟨-, -, -, -, ⟨hnone, -⟩ | ⟨x, hx, rfl, hvalue, -⟩⟩ := hnodes.toHolds.get key
  · exact nomatch hnone.symm.trans hget
  · rw [hnodes.last x hx, ← hvalue, hget]

/-- A `set` of more than a quarter of the budget leaves the older value. -/
theorem older_value_read :
    ((run some 2048 [.set 0 1, .set 0 4096]).get 0).1 = some 1 := by decide +kernel

-- The plain cache

def plainCall (sizeOf : ν → Option Nat) (cache : ByteLru κ ν) : LruCall κ ν → ByteLru κ ν
  | .get key => (cache.get key).2
  | .set key value =>
    match entryBytes (sizeOf value) with
    | none => cache
    | some bytes => cache.set (fun _ => bytes) key value
  | .delete key => { cache with entries := cache.entries.filter (·.key ≠ key) }
  | .clear => { cache with entries := [] }

def plainRun (sizeOf : ν → Option Nat) (budget : Nat) (calls : List (LruCall κ ν)) : ByteLru κ ν :=
  calls.foldl (plainCall sizeOf) ⟨budget, []⟩

/-- The plain cache has the nodes that the pointers lead through. -/
def Refines (s : LinkedLru κ ν) (cache : ByteLru κ ν) : Prop :=
  ∃ nodes, Holds s nodes ∧ cache = ⟨s.budget, nodes.map Prod.snd⟩

variable {cache : ByteLru κ ν}

theorem Refines.get (h : Refines s cache) (key : κ) :
    (s.get key).1 = (cache.get key).1 ∧ Refines (s.get key).2 (cache.get key).2 := by
  obtain ⟨nodes, hholds, rfl⟩ := h
  obtain ⟨after, hafter, hbudget, -, ⟨hread, rfl, hne⟩ | ⟨x, hx, rfl, hread, rfl⟩⟩ := hholds.get key
  · have hfind : (after.map Prod.snd).find? (·.key = key) = none := by simpa using hne
    rw [ByteLru.get, hfind]
    exact ⟨hread, after, hafter, by rw [hbudget]⟩
  · have hkeys : ((nodes.map Prod.snd).map fun node => node.key).Nodup := by
      rw [List.map_map]
      exact hholds.keys
    have hnode : x.2 ∈ nodes.map Prod.snd := List.mem_map_of_mem hx
    rw [ByteLru.get, find?_key hnode fun _ hother => List.inj_on_of_nodup_map hkeys hother hnode]
    refine ⟨hread, _, hafter, ?_⟩
    rw [hbudget, map_append, List.filter_map]
    rfl

theorem Refines.call (h : Refines s cache) (call : LruCall κ ν) :
    Refines (s.call sizeOf call) (plainCall sizeOf cache call) := by
  cases call with
  | get key => exact (h.get key).2
  | set key value =>
    obtain ⟨nodes, hholds, rfl⟩ := h
    rw [LinkedLru.call, plainCall]
    cases hsize : entryBytes (sizeOf value) with
    | none =>
      have hnone : takenBytes sizeOf s.budget value = none := by rw [takenBytes, hsize]; rfl
      rw [set_of_not_taken hnone]
      exact ⟨nodes, hholds, rfl⟩
    | some size =>
      have htaken : takenBytes sizeOf s.budget value = (some size).filter (4 * · ≤ s.budget) := by
        rw [takenBytes, hsize]
      have hmin : max size minEntryBytes = size := Nat.max_eq_left (by
        unfold entryBytes at hsize
        grind)
      dsimp only [ByteLru.set]
      rw [hmin]
      by_cases hle : 4 * size > s.budget
      · rw [if_pos hle, set_of_not_taken (htaken.trans (Option.filter_some_neg (by simpa using hle)))]
        exact ⟨nodes, hholds, rfl⟩
      · obtain ⟨-, kept, -, hplain, hkept, hbudget, -⟩ :=
          hholds.set (htaken.trans (Option.filter_some_pos (by simpa using hle)))
        rw [if_neg hle, ← hplain, ← hbudget]
        exact ⟨kept, hkept, rfl⟩
  | delete key =>
    obtain ⟨nodes, hholds, rfl⟩ := h
    obtain ⟨hdeleted, hbudget, -⟩ := hholds.delete key
    exact ⟨_, hdeleted, by rw [LinkedLru.call, hbudget, plainCall, List.filter_map]; rfl⟩
  | clear =>
    obtain ⟨nodes, -, rfl⟩ := h
    exact ⟨[], holds_nil rfl rfl rfl rfl, rfl⟩

theorem lru_run_refines (sizeOf : ν → Option Nat) (budget : Nat) (calls : List (LruCall κ ν)) :
    Refines (run sizeOf budget calls) (plainRun sizeOf budget calls) ∧ ∀ key,
      ((run sizeOf budget calls).get key).1 = ((plainRun sizeOf budget calls).get key).1 := by
  have hrun : Refines (run sizeOf budget calls) (plainRun sizeOf budget calls) := by
    induction calls using List.reverseRecOn with
    | nil => exact ⟨[], holds_nil rfl rfl rfl rfl, rfl⟩
    | append_singleton calls call ih =>
      rw [run, plainRun, foldl_concat, foldl_concat]
      exact ih.call call
  exact ⟨hrun, fun key => (hrun.get key).1⟩

end LinkedLru

end Kompjutr
