/-
  Kompjutr.Lib.KeyTable

  A table with a primary key: rows in no order that matters, each key once.

  What a statement leaves is stated by what each key then holds (`get`); a query over the rows
  is stated on any list that holds the same (`rows_perm`).
-/
import Mathlib.Data.List.Nodup
import Mathlib.Data.List.Perm.Subperm

namespace Kompjutr

/-- The first row of a key is the one row that has it. -/
theorem find?_key {α κ : Type} [DecidableEq κ] {key : α → κ} {rows : List α} {row : α}
    (hmem : row ∈ rows) (hunique : ∀ other ∈ rows, key other = key row → other = row) :
    rows.find? (key · = key row) = some row := by
  obtain ⟨found, hfind⟩ : ∃ found, rows.find? (key · = key row) = some found :=
    Option.isSome_iff_exists.1 (List.find?_isSome.2 ⟨row, hmem, decide_eq_true rfl⟩)
  have hfound : key found = key row := by simpa using List.find?_some hfind
  rw [hfind, hunique found (List.mem_of_find?_eq_some hfind) hfound]

/-- The rows of a table, each with its key. -/
structure KeyTable (κ ν : Type) where
  rows : List (κ × ν)
  unique : (rows.map Prod.fst).Nodup

namespace KeyTable

theorem nodup_rows {κ ν : Type} (table : KeyTable κ ν) : table.rows.Nodup := table.unique.of_map _

variable {κ ν : Type} [DecidableEq κ]

/-- What a key holds. -/
def get (table : KeyTable κ ν) (key : κ) : Option ν := table.rows.lookup key

variable {table : KeyTable κ ν} {key : κ} {value : ν}

theorem mem_rows : (key, value) ∈ table.rows ↔ table.get key = some value := by
  constructor
  · intro hmem
    obtain ⟨before, after, heq⟩ := List.append_of_mem hmem
    have hunique := table.unique
    rw [heq, List.map_append, List.nodup_append] at hunique
    refine List.lookup_eq_some_iff.2 ⟨before, after, heq, fun row hrow => ?_⟩
    rw [bne_iff_ne]
    exact (hunique.2.2 _ (List.mem_map_of_mem hrow) _ List.mem_cons_self).symm
  · intro hget
    obtain ⟨before, after, heq, -⟩ := List.lookup_eq_some_iff.1 hget
    rw [heq]
    exact List.mem_append_right _ List.mem_cons_self

theorem get_eq_none : table.get key = none ↔ ∀ row ∈ table.rows, row.1 ≠ key := by
  rw [← not_iff_not, ← ne_eq, Option.ne_none_iff_exists']
  constructor
  · rintro ⟨value, hget⟩ hall
    exact hall _ (mem_rows.2 hget) rfl
  · intro hall
    by_contra hnone
    refine hall fun row hrow hkey => hnone ⟨row.2, mem_rows.1 ?_⟩
    rw [← hkey]
    exact hrow

/-- The rows that hold of a table, in some order, are its rows. -/
theorem rows_perm {wanted : κ × ν → Bool} {rows : List (κ × ν)} (hnodup : rows.Nodup)
    (hrows : ∀ row, row ∈ rows ↔ table.get row.1 = some row.2 ∧ wanted row = true) :
    (table.rows.filter wanted).Perm rows := by
  refine (List.perm_ext_iff_of_nodup (table.nodup_rows.filter _) hnodup).2 fun row => ?_
  rw [hrows, List.mem_filter, ← mem_rows]

/-- `DELETE`: the rows that are kept. -/
def keep (table : KeyTable κ ν) (kept : κ × ν → Bool) : KeyTable κ ν where
  rows := table.rows.filter kept
  unique := table.unique.sublist (List.filter_sublist.map _)

theorem get_keep {kept : κ × ν → Bool} :
    (table.keep kept).get key = (table.get key).filter fun value => kept (key, value) := by
  refine Option.ext fun value => ?_
  rw [← mem_rows, Option.filter_eq_some_iff, ← mem_rows]
  exact List.mem_filter

/-- `DELETE` of one key. -/
theorem get_keep_ne (q : κ) :
    (table.keep fun row => row.1 ≠ key).get q = if q = key then none else table.get q := by
  rw [get_keep]
  by_cases heq : q = key
  · rw [if_pos heq]
    exact Option.filter_eq_none_iff.2 fun _ _ => by simp [heq]
  · rw [if_neg heq]
    cases table.get q with
    | none => rfl
    | some value => simp [heq]

/-- `UPDATE` of columns outside the key. -/
def update (table : KeyTable κ ν) (f : κ → ν → ν) : KeyTable κ ν where
  rows := table.rows.map fun row => (row.1, f row.1 row.2)
  unique := by
    rw [List.map_map]
    exact table.unique

theorem get_update {f : κ → ν → ν} : (table.update f).get key = (table.get key).map (f key) := by
  refine Option.ext fun value => ?_
  rw [← mem_rows, Option.map_eq_some_iff]
  constructor
  · intro hmem
    obtain ⟨row, hrow, heq⟩ := List.mem_map.1 hmem
    obtain ⟨rfl, rfl⟩ := Prod.mk.inj heq
    exact ⟨row.2, mem_rows.1 hrow, rfl⟩
  · rintro ⟨old, hget, rfl⟩
    exact List.mem_map.2 ⟨(key, old), mem_rows.2 hget, rfl⟩

/-- `INSERT` of a row whose key is new. -/
def add (table : KeyTable κ ν) (key : κ) (value : ν) (h : table.get key = none) :
    KeyTable κ ν where
  rows := table.rows ++ [(key, value)]
  unique := by
    rw [List.map_append, List.map_singleton]
    refine List.nodup_append.2 ⟨table.unique, List.nodup_singleton _, fun other hother new hnew => ?_⟩
    obtain ⟨row, hrow, rfl⟩ := List.mem_map.1 hother
    rw [List.mem_singleton.1 hnew]
    exact get_eq_none.1 h row hrow

variable {other : κ}

theorem get_add {h : table.get key = none} :
    (table.add key value h).get other = if other = key then some value else table.get other := by
  refine Option.ext fun found => ?_
  rw [← mem_rows]
  change (other, found) ∈ table.rows ++ [(key, value)] ↔ _
  rw [List.mem_append, List.mem_singleton, mem_rows, Prod.mk.injEq]
  split
  next heq => simp [heq, h, eq_comm]
  next hne => simp [hne]

/-- `INSERT`, which fails where the key stands already. -/
def insert (table : KeyTable κ ν) (key : κ) (value : ν) : Option (KeyTable κ ν) :=
  if h : table.get key = none then some (table.add key value h) else none

theorem insert_of_new (h : table.get key = none) :
    table.insert key value = some (table.add key value h) := dif_pos h

/-- `INSERT … ON CONFLICT DO UPDATE`. -/
def upsert (table : KeyTable κ ν) (key : κ) (value : ν) : KeyTable κ ν :=
  if h : table.get key = none then table.add key value h
  else table.update fun other old => if other = key then value else old

theorem get_upsert :
    (table.upsert key value).get other = if other = key then some value else table.get other := by
  unfold upsert
  split
  next h => exact get_add
  next h =>
    obtain ⟨old, hold⟩ := Option.ne_none_iff_exists'.1 h
    rw [get_update]
    by_cases heq : other = key
    · rw [if_pos heq, heq, hold, Option.map_some, if_pos rfl]
    · simp only [if_neg heq, Option.map_id']

theorem rekey_unique (h : table.get key = none ∨ other = key ∨ table.get other = none) (f : ν → ν) :
    ((table.rows.map fun row => if row.1 = key then (other, f row.2) else row).map Prod.fst).Nodup := by
  have hkey : ∀ row ∈ table.rows, row.1 ≠ key → row.1 = other → ∀ moved ∈ table.rows, moved.1 ≠ key := by
    rintro row hrow hne rfl moved hmoved rfl
    obtain hnone | hsame | hnone := h
    · exact get_eq_none.1 hnone moved hmoved rfl
    · exact hne hsame
    · exact get_eq_none.1 hnone row hrow rfl
  rw [List.map_map]
  refine List.Nodup.map_on (fun row hrow moved hmoved heq => ?_) table.nodup_rows
  refine List.inj_on_of_nodup_map table.unique hrow hmoved ?_
  dsimp only [Function.comp_apply] at heq
  split at heq
  next hone =>
    split at heq
    next hboth => exact hone.trans hboth.symm
    next hother => exact absurd hone (hkey moved hmoved hother heq.symm row hrow)
  next hone =>
    split at heq
    next hother => exact absurd hother (hkey row hrow hone heq moved hmoved)
    next => exact heq

/-- `UPDATE` of the key of a row, which fails where another row has the new key. -/
def rekey (table : KeyTable κ ν) (key other : κ) (f : ν → ν) : Option (KeyTable κ ν) :=
  if h : table.get key = none ∨ other = key ∨ table.get other = none then
    some
      { rows := table.rows.map fun row => if row.1 = key then (other, f row.2) else row
        unique := rekey_unique h f }
  else none

section

variable {after : KeyTable κ ν} {f : ν → ν} (h : table.rekey key other f = some after)

include h

theorem rows_rekey :
    after.rows = table.rows.map fun row => if row.1 = key then (other, f row.2) else row := by
  unfold rekey at h
  split at h
  · rw [← Option.some.inj h]
  · cases h

/-- What the keys hold when a row has moved to a key that was free. -/
theorem get_rekey (hvalue : table.get key = some value)
    (hfree : table.get other = none) (q : κ) :
    after.get q = if q = other then some (f value) else if q = key then none else table.get q := by
  refine Option.ext fun found => ?_
  rw [← mem_rows, rows_rekey h, List.mem_map]
  constructor
  · rintro ⟨row, hrow, heq⟩
    split at heq
    next hkey =>
      obtain ⟨rfl, rfl⟩ := Prod.mk.inj heq
      have hsame : row.2 = value := by
        rw [← Option.some.injEq, ← hvalue, ← hkey]
        exact (mem_rows.1 hrow).symm
      rw [if_pos rfl, hsame]
    next hkey =>
      subst heq
      have hget := mem_rows.1 hrow
      rw [if_neg (fun heq => by rw [heq, hfree] at hget; cases hget), if_neg hkey, hget]
  · intro hget
    split at hget
    next hother =>
      exact ⟨(key, value), mem_rows.2 hvalue, by rw [if_pos rfl, hother, Option.some.inj hget]⟩
    next =>
      split at hget
      next => cases hget
      next hkey => exact ⟨(q, found), mem_rows.2 hget, if_neg hkey⟩

end

theorem rekey_of_none {f : ν → ν}
    (h : table.get key = none) : table.rekey key other f = some table := by
  have hrows : (table.rows.map fun row => if row.1 = key then (other, f row.2) else row) =
      table.rows := by
    refine (List.map_congr_left fun row hrow => if_neg (get_eq_none.1 h row hrow)).trans ?_
    exact List.map_id _
  rw [rekey, dif_pos (.inl h)]
  congr 1
  cases table
  congr 1

/-- A count that does not look at what the update changes. -/
theorem countP_rekey {table after : KeyTable κ ν} {key other : κ} {f : ν → ν} {p : ν → Bool}
    (h : table.rekey key other f = some after) (hp : ∀ value, p (f value) = p value) :
    (after.rows.countP fun row => p row.2) = table.rows.countP fun row => p row.2 := by
  rw [rows_rekey h, List.countP_map]
  refine List.countP_congr fun row _ => ?_
  rw [Function.comp_apply]
  split
  next => rw [hp]
  next => rfl

/-- What a key that goes counted for. -/
theorem countP_keep (p : κ × ν → Bool) (h : table.get key = some value) :
    table.rows.countP p = (table.keep fun row => row.1 ≠ key).rows.countP p +
      if p (key, value) then 1 else 0 := by
  have hgone : (table.rows.filter fun row => row.1 = key).Perm [(key, value)] := by
    refine rows_perm (List.nodup_singleton _) fun row => ?_
    rw [List.mem_singleton, decide_eq_true_iff]
    constructor
    · rintro rfl
      exact ⟨h, rfl⟩
    · rintro ⟨hget, rfl⟩
      exact Prod.ext rfl (Option.some.inj (hget.symm.trans h))
  have hsplit : (table.rows.filter fun row => !decide (row.1 ≠ key)) =
      table.rows.filter fun row => row.1 = key := by
    refine List.filter_congr fun row _ => ?_
    by_cases heq : row.1 = key <;> simp [heq]
  rw [List.countP_eq_countP_filter_add table.rows p fun row => row.1 ≠ key, hsplit, hgone.countP_eq,
    List.countP_singleton]
  rfl

end KeyTable

end Kompjutr
