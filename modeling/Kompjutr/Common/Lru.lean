/-
  Kompjutr.Common.Lru

  `ByteLru` of `common/lru.ts`: a cache bounded by bytes that drops what was used
  least recently.  Its linked list is a list here, the oldest entry first.
-/
import Mathlib.Algebra.GroupWithZero.Nat
import Mathlib.Data.List.Basic

namespace Kompjutr

def minEntryBytes : Nat := 256

/-- An entry and the bytes it is counted with. -/
structure LruNode (κ ν : Type) where
  key : κ
  value : ν
  bytes : Nat

structure ByteLru (κ ν : Type) where
  budget : Nat
  entries : List (LruNode κ ν)

namespace ByteLru

variable {κ ν : Type} [DecidableEq κ]

/-- `get`: a hit becomes the newest entry. -/
def get (cache : ByteLru κ ν) (key : κ) : Option ν × ByteLru κ ν :=
  match cache.entries.find? (·.key = key) with
  | none => (none, cache)
  | some node =>
    (some node.value, { cache with entries := cache.entries.filter (·.key ≠ key) ++ [node] })

/-- The bytes of the entries. -/
def bytesOf (entries : List (LruNode κ ν)) : Nat := (entries.map (·.bytes)).sum

/-- `#evict`. -/
def evict (budget : Nat) : List (LruNode κ ν) → List (LruNode κ ν)
  | [] => []
  | node :: newer => if bytesOf (node :: newer) > budget then evict budget newer else node :: newer

/-- `set`.  An entry of more than a quarter of the budget is not taken. -/
def set (sizeOf : ν → Nat) (cache : ByteLru κ ν) (key : κ) (value : ν) : ByteLru κ ν :=
  let bytes := max (sizeOf value) minEntryBytes
  if 4 * bytes > cache.budget then cache
  else { cache with
    entries := evict cache.budget (cache.entries.filter (·.key ≠ key) ++ [⟨key, value, bytes⟩]) }

/-- The cache has the value under the key. -/
def Holds (cache : ByteLru κ ν) (key : κ) (value : ν) : Prop :=
  ∃ node ∈ cache.entries, node.key = key ∧ node.value = value

omit [DecidableEq κ] in
theorem mem_of_mem_evict {budget : Nat} {entries : List (LruNode κ ν)} {node : LruNode κ ν}
    (h : node ∈ evict budget entries) : node ∈ entries := by
  induction entries with
  | nil => exact h
  | cons oldest newer ih =>
    rw [evict] at h
    split at h
    · exact List.mem_cons_of_mem _ (ih h)
    · exact h

/-- A hit is something the cache has. -/
theorem holds_of_get {cache : ByteLru κ ν} {key : κ} {value : ν}
    (h : (cache.get key).1 = some value) : cache.Holds key value := by
  unfold get at h
  split at h
  · cases h
  · rename_i node hfind
    exact ⟨node, List.mem_of_find?_eq_some hfind, by simpa using List.find?_some hfind,
      Option.some.inj h⟩

/-- Reading adds nothing. -/
theorem holds_get {cache : ByteLru κ ν} {key key' : κ} {value : ν}
    (h : (cache.get key).2.Holds key' value) : cache.Holds key' value := by
  unfold get at h
  split at h
  · exact h
  · rename_i node hfind
    obtain ⟨node', hmem, hkey, hvalue⟩ := h
    rcases List.mem_append.1 hmem with hmem | hmem
    · exact ⟨node', List.mem_of_mem_filter hmem, hkey, hvalue⟩
    · obtain rfl := List.mem_singleton.1 hmem
      exact ⟨node', List.mem_of_find?_eq_some hfind, hkey, hvalue⟩

/-- Writing adds the new entry at most. -/
theorem holds_set {sizeOf : ν → Nat} {cache : ByteLru κ ν} {key key' : κ} {value value' : ν}
    (h : (cache.set sizeOf key value).Holds key' value') :
    (key' = key ∧ value' = value) ∨ cache.Holds key' value' := by
  unfold set at h
  dsimp only at h
  split at h
  · exact .inr h
  · obtain ⟨node, hmem, hkey, hvalue⟩ := h
    rcases List.mem_append.1 (mem_of_mem_evict hmem) with hmem | hmem
    · exact .inr ⟨node, List.mem_of_mem_filter hmem, hkey, hvalue⟩
    · obtain rfl := List.mem_singleton.1 hmem
      exact .inl ⟨hkey.symm, hvalue.symm⟩

end ByteLru

end Kompjutr
