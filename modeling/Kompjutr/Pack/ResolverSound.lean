/-
  Kompjutr.Pack.ResolverSound

  What the batch resolver returns: for every id the object its chain resolves to
  one link at a time, whatever the cache has of it, and however the batch is
  halved.

  `Resolves` is that object.  The loops of the resolver keep three things: the
  cache and the result agree with it, and the links walked so far lead from the
  first entry to the current one.
-/
import Kompjutr.Lib.KeyTable
import Kompjutr.Pack.ResolveSound
import Kompjutr.Pack.Resolver

namespace Kompjutr.Pack

open Fuel Objects
open List (append_nil length_cons mem_append mem_cons mem_cons_of_mem mem_cons_self mem_filterMap
  mem_singleton)

/-- An entry resolves to an object one link at a time, over a number of links. -/
inductive Resolves (zlib : Zlib) (rows : List PackedEntry) : PackedEntry → RawObject → Nat → Prop
  | full {entry : PackedEntry} {object : RawObject} :
      entry.baseOffset = none → materializeBase zlib entry = .ok object →
      Resolves zlib rows entry object 0
  | delta {entry base : PackedEntry} {object target : RawObject} {depth : Nat} :
      entry.baseIn rows = some base → Resolves zlib rows base object depth →
      resolveLink zlib object entry = .ok target → Resolves zlib rows entry target (depth + 1)

section

variable {zlib : Zlib} {rows : List PackedEntry} {entry : PackedEntry}

theorem PackedEntry.baseIn_none (h : entry.baseOffset = none)
    (entries : List PackedEntry) : entry.baseIn entries = none := by
  rw [PackedEntry.baseIn, h, Option.bind_none]

theorem PackedEntry.baseOffset_ne_none {base : PackedEntry}
    (h : entry.baseIn rows = some base) : entry.baseOffset ≠ none := by
  intro hnone
  rw [PackedEntry.baseIn_none hnone] at h
  cases h

theorem PackedEntry.mem_of_baseIn {base : PackedEntry} (h : entry.baseIn rows = some base) :
    base ∈ rows := by
  obtain ⟨offset, -, hfind⟩ := Option.bind_eq_some_iff.1 h
  exact List.mem_of_find?_eq_some hfind

variable {object : RawObject} {depth : Nat}

theorem Resolves.unique {object' : RawObject} {depth' : Nat}
    (h : Resolves zlib rows entry object depth) (h' : Resolves zlib rows entry object' depth') :
    object = object' ∧ depth = depth' := by
  induction h generalizing object' depth' with
  | full hnone hfull =>
    cases h' with
    | full _ hfull' => exact ⟨Except.ok.inj (hfull.symm.trans hfull'), rfl⟩
    | delta hbase => exact absurd hnone (PackedEntry.baseOffset_ne_none hbase)
  | delta hbase _ hlink ih =>
    cases h' with
    | full hnone => exact absurd hnone (PackedEntry.baseOffset_ne_none hbase)
    | delta hbase' hresolves' hlink' =>
      obtain rfl := Option.some.inj (hbase.symm.trans hbase')
      obtain ⟨rfl, rfl⟩ := ih hresolves'
      exact ⟨Except.ok.inj (hlink.symm.trans hlink'), rfl⟩

variable {target : RawObject}

/-- The base of an entry that resolves, one link nearer to the full object. -/
theorem Resolves.base {base : PackedEntry}
    (h : Resolves zlib rows entry target depth) (hbase : entry.baseIn rows = some base) :
    ∃ object before, depth = before + 1 ∧ Resolves zlib rows base object before ∧
      resolveLink zlib object entry = .ok target := by
  cases h with
  | full hnone => exact absurd hnone (PackedEntry.baseOffset_ne_none hbase)
  | delta hbase' hresolves hlink =>
    obtain rfl := Option.some.inj (hbase.symm.trans hbase')
    exact ⟨_, _, rfl, hresolves, hlink⟩

theorem materializeBase_ok (h : materializeBase zlib entry = .ok object) :
    object.type = entry.type ∧ object.data.length = entry.size := by
  unfold materializeBase at h
  split at h
  · cases h
  rename_i hsize
  obtain ⟨data, hinflate, h⟩ := bind_eq_ok.1 h
  cases h
  refine ⟨rfl, ?_⟩
  unfold inflateEntry at hinflate
  split at hinflate
  · cases hinflate
  split at hinflate
  · cases hinflate
  split at hinflate
  · cases hinflate
  split at hinflate
  · cases hinflate
  cases hinflate
  dsimp only
  omega

theorem resolveLink_type_size (h : resolveLink zlib object entry = .ok target) :
    target.type = entry.type ∧ target.data.length = entry.size := by
  unfold resolveLink at h
  obtain ⟨-, -, h⟩ := bind_eq_ok.1 h
  obtain ⟨delta, -, h⟩ := bind_eq_ok.1 h
  obtain ⟨size, -, h⟩ := bind_eq_ok.1 h
  obtain ⟨data, -, h⟩ := bind_eq_ok.1 h
  by_cases hsize : size ≠ data.length
  · rw [if_pos hsize] at h
    cases h
  by_cases hrow : data.length ≠ entry.size ∨ object.type ≠ entry.type
  · rw [if_neg hsize, if_pos hrow] at h
    cases h
  rw [if_neg hsize, if_neg hrow] at h
  cases h
  exact ⟨not_not.1 fun hne => hrow (.inr hne), not_not.1 fun hne => hrow (.inl hne)⟩

/-- The object has the type and the size of the row. -/
theorem Resolves.type_size (h : Resolves zlib rows entry object depth) :
    object.type = entry.type ∧ object.data.length = entry.size := by
  cases h with
  | full _ hfull => exact materializeBase_ok hfull
  | delta _ _ hlink => exact resolveLink_type_size hlink

-- The graph

/-- A set of rows that has the base of each of them. -/
structure ClosedIn (rows entries : List PackedEntry) : Prop where
  mem_rows : ∀ entry ∈ entries, entry ∈ rows
  base_mem : ∀ entry ∈ entries, ∀ base, entry.baseIn rows = some base → base ∈ entries

/-- The rows have a key. -/
def KeysUnique (rows : List PackedEntry) : Prop :=
  ∀ row ∈ rows, ∀ row' ∈ rows, row.key = row'.key → row = row'

/-- A closed set of rows knows the same bases as all of them. -/
theorem ClosedIn.baseIn_eq {entries : List PackedEntry} (hkeys : KeysUnique rows)
    (hclosed : ClosedIn rows entries) {base : PackedEntry} (hentry : entry ∈ entries)
    (hbase : entry.baseIn rows = some base) : entry.baseIn entries = some base := by
  have hmem := hclosed.base_mem entry hentry base hbase
  obtain ⟨offset, hoffset, hfind⟩ := Option.bind_eq_some_iff.1 hbase
  have hkey : base.key = (entry.packId, offset) := by simpa using List.find?_some hfind
  rw [PackedEntry.baseIn, hoffset, Option.bind_some]
  rw [← hkey]
  exact find?_key hmem fun other hother =>
    hkeys other (hclosed.mem_rows other hother) base (hclosed.mem_rows base hmem)

/-- Below its limit the query has all there is to find. -/
theorem reach_closed {limit : Nat} {queue found : List PackedEntry}
    (hqueue : ∀ entry ∈ queue, entry ∈ rows) (hfound : ∀ entry ∈ found, entry ∈ rows)
    (hbase : ∀ entry ∈ found, ∀ base, entry.baseIn rows = some base → base ∈ found ∨ base ∈ queue)
    (hlength : (reach rows limit queue found).length < found.length + limit) :
    ClosedIn rows (reach rows limit queue found) ∧
      ∀ entry, entry ∈ queue ∨ entry ∈ found → entry ∈ reach rows limit queue found := by
  induction limit generalizing queue found with
  | zero => exact absurd hlength (by simp [reach])
  | succ limit ih =>
    cases queue with
    | nil =>
      rw [reach]
      refine ⟨⟨hfound, fun entry hentry base h => ?_⟩, fun entry h => by simpa using h⟩
      simpa using hbase entry hentry base h
    | cons entry queue =>
      have hrows : ∀ row ∈ found ++ [entry], row ∈ rows := by
        intro row hrow
        rcases mem_append.1 hrow with h | h
        · exact hfound row h
        · obtain rfl := mem_singleton.1 h
          exact hqueue row mem_cons_self
      -- whatever joins the queue, the base of the new row is found or waits
      have step : ∀ more : List PackedEntry, (∀ row ∈ more, row ∈ rows) →
          (∀ base, entry.baseIn rows = some base →
            base ∈ found ++ [entry] ∨ base ∈ queue ++ more) →
          reach rows (limit + 1) (entry :: queue) found =
            reach rows limit (queue ++ more) (found ++ [entry]) →
          ClosedIn rows (reach rows (limit + 1) (entry :: queue) found) ∧
            ∀ row, row ∈ entry :: queue ∨ row ∈ found →
              row ∈ reach rows (limit + 1) (entry :: queue) found := by
        intro more hmore hnew heq
        rw [heq] at hlength ⊢
        have hrest := @ih (queue ++ more) (found ++ [entry]) ?_ hrows ?_ ?_
        · refine ⟨hrest.1, fun row hrow => hrest.2 row ?_⟩
          simp only [mem_append, mem_cons] at hrow ⊢
          tauto
        · intro row hrow
          rcases mem_append.1 hrow with h | h
          · exact hqueue row (mem_cons_of_mem _ h)
          · exact hmore row h
        · intro row hrow base h
          rcases mem_append.1 hrow with hmem | hmem
          · have := hbase row hmem base h
            simp only [mem_append, mem_cons] at this ⊢
            tauto
          · obtain rfl := mem_singleton.1 hmem
            exact hnew base h
        · rw [List.length_append, List.length_singleton]
          omega
      cases hnext : entry.baseIn rows with
      | none =>
        refine step [] (by simp) (by simp [hnext]) ?_
        rw [reach, hnext, append_nil]
      | some base =>
        by_cases hseen : base ∈ found ++ [entry] ∨ base ∈ queue
        · refine step [] (by simp) ?_ ?_
          · intro base' hbase'
            obtain rfl := Option.some.inj (hnext.symm.trans hbase')
            rwa [append_nil]
          · rw [reach, hnext, append_nil]
            exact if_pos hseen
        · refine step [base] ?_ ?_ ?_
          · intro row hrow
            obtain rfl := mem_singleton.1 hrow
            exact PackedEntry.mem_of_baseIn hnext
          · intro base' hbase'
            obtain rfl := Option.some.inj (hnext.symm.trans hbase')
            exact .inr (List.mem_append_right _ mem_cons_self)
          · rw [reach, hnext]
            exact if_neg hseen

/-- One chain alone is as long as its links say. -/
theorem length_reach_le
    (h : Resolves zlib rows entry object depth) (limit : Nat) (found : List PackedEntry) :
    (reach rows limit [entry] found).length ≤ found.length + depth + 1 := by
  induction h generalizing limit found with
  | full hnone _ =>
    cases limit with
    | zero =>
      rw [reach]
      omega
    | succ limit =>
      rw [reach, PackedEntry.baseIn_none hnone]
      cases limit <;> simp [reach]
  | delta hbase _ _ ih =>
    cases limit with
    | zero =>
      rw [reach]
      omega
    | succ limit =>
      rw [reach, hbase]
      dsimp only
      split
      · cases limit <;> simp [reach]
      · refine (ih _ _).trans ?_
        rw [List.length_append, List.length_singleton]
        omega

-- The cache

/-- Rows of one id hold one object: the id is its hash. -/
def ContentAddressed (zlib : Zlib) (rows : List PackedEntry) : Prop :=
  ∀ row ∈ rows, ∀ row' ∈ rows, ∀ object object' depth depth', row.oid = row'.oid →
    Resolves zlib rows row object depth → Resolves zlib rows row' object' depth' →
    object = object'

/-- What the cache has under a pack and an id is what the row there resolves to. -/
def Consistent (zlib : Zlib) (rows : List PackedEntry) (cache : ObjectCache) : Prop :=
  ∀ row ∈ rows, ∀ cached object depth, cache.Holds (row.packId, row.oid) cached →
    Resolves zlib rows row object depth → cached = object

variable {options : ReadOptions} {cache : ObjectCache}

/-- A hit is the object of the entry. -/
theorem Consistent.cachedObject_cases (h : Consistent zlib rows cache) (options : ReadOptions) (hentry : entry ∈ rows)
    (hresolves : Resolves zlib rows entry object depth) :
    ∃ cache', Consistent zlib rows cache' ∧
      (cachedObject options cache entry = (some object, cache') ∨
        cachedObject options cache entry = (none, cache')) := by
  unfold cachedObject
  split
  · exact ⟨cache, h, .inr rfl⟩
  · refine ⟨(cache.get (entry.packId, entry.oid)).2, ?_, ?_⟩
    · intro row hrow cached object' depth' hcached
      exact h row hrow cached object' depth' (ByteLru.holds_get hcached)
    · cases hget : cache.get (entry.packId, entry.oid) with
      | mk hit cache' =>
        cases hit with
        | none => exact .inr rfl
        | some cached =>
          have hheld : cache.Holds (entry.packId, entry.oid) cached :=
            ByteLru.holds_of_get (by rw [hget])
          rw [h entry hentry cached object depth hheld hresolves]
          exact .inl rfl

theorem Consistent.cacheObject (h : Consistent zlib rows cache)
    (hcontent : ContentAddressed zlib rows) (hentry : entry ∈ rows) (hresolves : Resolves zlib rows entry object depth) :
    Consistent zlib rows (cacheObject options cache entry object) := by
  unfold Pack.cacheObject
  split
  · exact h
  · intro row hrow cached object' depth' hcached hresolves'
    rcases ByteLru.holds_set hcached with ⟨hkey, rfl⟩ | hcached
    · exact hcontent entry hentry row hrow _ _ _ _ (Prod.mk.inj hkey).2.symm hresolves hresolves'
    · exact h row hrow cached object' depth' hcached hresolves'

-- One chain

/-- The links that a walk from the first entry to the current one has passed, the last of them
    first. -/
inductive Links (rows : List PackedEntry) (first : PackedEntry) :
    List PackedEntry → PackedEntry → Prop
  | start : Links rows first [] first
  | down {chain : List PackedEntry} {entry base : PackedEntry} :
      Links rows first chain entry → entry.baseIn rows = some base →
      Links rows first (entry :: chain) base

variable {first current : PackedEntry} {chain : List PackedEntry}

section

variable (h : Links rows first chain current)

include h

theorem Links.mem_rows (hfirst : first ∈ rows) :
    current ∈ rows ∧ ∀ entry ∈ chain, entry ∈ rows := by
  induction h with
  | start => exact ⟨hfirst, by simp⟩
  | down _ hbase ih =>
    refine ⟨PackedEntry.mem_of_baseIn hbase, fun entry hentry => ?_⟩
    rcases mem_cons.1 hentry with rfl | hentry
    · exact ih.1
    · exact ih.2 entry hentry

/-- The current entry resolves over the links that are left. -/
theorem Links.resolves (hfirst : Resolves zlib rows first target depth) :
    ∃ object left, Resolves zlib rows current object left ∧ left + chain.length = depth := by
  induction h with
  | start => exact ⟨target, depth, hfirst, rfl⟩
  | down _ hbase ih =>
    obtain ⟨object, left, hresolves, hdepth⟩ := ih
    obtain ⟨object', before, rfl, hresolves', -⟩ := hresolves.base hbase
    exact ⟨object', before, hresolves', by rw [length_cons]; omega⟩

/-- Every entry that was passed is farther from its full object than the current one. -/
theorem Links.farther {left : Nat} (hfirst : Resolves zlib rows first target depth)
    (hcurrent : Resolves zlib rows current object left) :
    ∀ entry ∈ chain, ∃ object' left', Resolves zlib rows entry object' left' ∧ left < left' := by
  induction h generalizing object left with
  | start => simp
  | @down chain entry base hlinks hbase ih =>
    obtain ⟨object', left', hentry, -⟩ := hlinks.resolves hfirst
    obtain ⟨object'', before, rfl, hresolves, -⟩ := hentry.base hbase
    obtain ⟨-, rfl⟩ := hcurrent.unique hresolves
    intro entry' hentry'
    rcases mem_cons.1 hentry' with rfl | hentry'
    · exact ⟨object', _, hentry, Nat.lt_succ_self _⟩
    · obtain ⟨found, left', hfound, hlt⟩ := ih hentry entry' hentry'
      exact ⟨found, left', hfound, by omega⟩

/-- A chain that resolves is not cyclic. -/
theorem Links.key_not_mem (hkeys : KeysUnique rows) (hmem : first ∈ rows)
    (hfirst : Resolves zlib rows first target depth) :
    current.key ∉ chain.map PackedEntry.key := by
  intro hseen
  obtain ⟨entry, hentry, hkey⟩ := List.mem_map.1 hseen
  obtain ⟨hcurrent, hchain⟩ := h.mem_rows hmem
  obtain rfl := hkeys entry (hchain entry hentry) current hcurrent hkey
  obtain ⟨object, left, hresolves, -⟩ := h.resolves hfirst
  obtain ⟨object', left', hresolves', hlt⟩ := h.farther hfirst hresolves entry hentry
  have := (hresolves.unique hresolves').2
  omega

end

/-- What the store promises of its rows: they have a key, and ids are hashes. -/
structure SoundRows (zlib : Zlib) (rows : List PackedEntry) : Prop where
  keys : KeysUnique rows
  content : ContentAddressed zlib rows

variable {entries : List PackedEntry} {target : RawObject} {depth : Nat} {oid : Text}

theorem collect_ok (oid : Text) (options : ReadOptions) (hrows : SoundRows zlib rows)
    (hclosed : ClosedIn rows entries)
    (hfirst : Resolves zlib rows first target depth) (hmem : first ∈ rows) {remaining : Nat}
    (hlinks : Links rows first chain current) (hleft : depth ≤ remaining + chain.length)
    (hcurrent : current ∈ entries) (hcache : Consistent zlib rows cache) :
    ∃ cache', collect options entries oid remaining (chain.map PackedEntry.key) current cache =
        .ok cache' ∧ Consistent zlib rows cache' := by
  induction remaining using Nat.strong_induction_on generalizing chain current cache with
  | _ remaining ih =>
    obtain ⟨object, left, hresolves, hdepth⟩ := hlinks.resolves hfirst
    rw [collect.eq_def]
    dsimp only
    rw [if_neg (hlinks.key_not_mem hrows.keys hmem hfirst)]
    cases hresolves with
    | full hnone _ => exact ⟨cache, if_pos hnone, hcache⟩
    | @delta _ base _ _ _ hbase hresolves' _ =>
      obtain ⟨remaining, rfl⟩ : ∃ n, remaining = n + 1 := ⟨remaining - 1, by omega⟩
      rw [if_neg (PackedEntry.baseOffset_ne_none hbase), hclosed.baseIn_eq hrows.keys hcurrent hbase]
      dsimp only
      obtain ⟨cache', hafter, hhit | hhit⟩ :=
        hcache.cachedObject_cases options (PackedEntry.mem_of_baseIn hbase) hresolves'
      · exact ⟨cache', by rw [hhit]; rfl, hafter⟩
      · rw [hhit]
        exact ih remaining (Nat.lt_succ_self _) (hlinks.down hbase)
          (by rw [length_cons]; omega) (hclosed.base_mem current hcurrent base hbase) hafter

/-- The objects of the result are those of their ids. -/
def AgreesWith (zlib : Zlib) (rows : List PackedEntry) (result : List (Text × RawObject)) : Prop :=
  ∀ row ∈ rows, ∀ found object depth, result.lookup row.oid = some found →
    Resolves zlib rows row object depth → found = object

variable {result : List (Text × RawObject)}

/-- The walk ends at an entry of the chain whose object it has. -/
theorem walk_ok (oid : Text) (hrows : SoundRows options.zlib rows) (hclosed : ClosedIn rows entries)
    (hresult : AgreesWith options.zlib rows result)
    (hfirst : Resolves options.zlib rows first target depth) (hmem : first ∈ rows)
    {remaining : Nat} (hlinks : Links rows first chain current)
    (hleft : depth ≤ remaining + chain.length) (hcurrent : current ∈ entries)
    (hcache : Consistent options.zlib rows cache) :
    ∃ object chain' cache' last left,
      walk options entries result oid remaining (chain.map PackedEntry.key) chain current cache =
        .ok (object, chain', cache') ∧
      Links rows first chain' last ∧ Resolves options.zlib rows last object left ∧
      Consistent options.zlib rows cache' := by
  induction remaining using Nat.strong_induction_on generalizing chain current cache with
  | _ remaining ih =>
    obtain ⟨object, left, hresolves, hdepth⟩ := hlinks.resolves hfirst
    have hrow := hclosed.mem_rows current hcurrent
    rw [walk, if_neg (hlinks.key_not_mem hrows.keys hmem hfirst)]
    cases hlookup : result.lookup current.oid with
    | some found =>
      obtain rfl := hresult current hrow found object left hlookup hresolves
      exact ⟨found, chain, cache, current, left, rfl, hlinks, hresolves, hcache⟩
    | none =>
      obtain ⟨cache', hafter, hhit | hhit⟩ := hcache.cachedObject_cases options hrow hresolves
      · exact ⟨object, chain, cache', current, left, by rw [hhit]; rfl, hlinks, hresolves, hafter⟩
      rw [hhit]
      dsimp only
      cases hresolves with
      | full hnone hfull =>
        rw [if_pos hnone, hfull]
        exact ⟨object, chain, _, current, 0, rfl, hlinks, .full hnone hfull,
          hafter.cacheObject hrows.content hrow (.full hnone hfull)⟩
      | @delta _ base _ _ _ hbase hresolves' _ =>
        obtain ⟨remaining, rfl⟩ : ∃ n, remaining = n + 1 := ⟨remaining - 1, by omega⟩
        rw [if_neg (PackedEntry.baseOffset_ne_none hbase),
          hclosed.baseIn_eq hrows.keys hcurrent hbase]
        dsimp only
        obtain ⟨cache'', hafter', hhit | hhit⟩ :=
          hafter.cachedObject_cases options (PackedEntry.mem_of_baseIn hbase) hresolves'
        · exact ⟨_, _, cache'', base, _, by rw [hhit]; rfl, hlinks.down hbase, hresolves', hafter'⟩
        · rw [hhit]
          exact ih remaining (Nat.lt_succ_self _) (hlinks.down hbase)
            (by rw [length_cons]; omega) (hclosed.base_mem current hcurrent base hbase) hafter'

/-- The way back up gives the object of the first entry. -/
theorem climb_ok (hrows : SoundRows options.zlib rows)
    (hfirst : Resolves options.zlib rows first target depth) (hmem : first ∈ rows) {left : Nat} (hlinks : Links rows first chain current)
    (hcurrent : Resolves options.zlib rows current object left)
    (hcache : Consistent options.zlib rows cache) :
    ∃ cache', climb options chain object cache = .ok (target, cache') ∧
      Consistent options.zlib rows cache' := by
  induction hlinks generalizing object left cache with
  | start =>
    obtain ⟨rfl, -⟩ := hcurrent.unique hfirst
    exact ⟨cache, rfl, hcache⟩
  | @down chain entry base hlinks hbase ih =>
    obtain ⟨object', left', hentry, -⟩ := hlinks.resolves hfirst
    obtain ⟨object'', before, -, hresolves, hlink⟩ := hentry.base hbase
    obtain ⟨rfl, -⟩ := hcurrent.unique hresolves
    rw [climb, hlink]
    exact ih hentry (hcache.cacheObject hrows.content (hlinks.mem_rows hmem).1 hentry)

-- One batch

variable {store : PackRows} {pendingPackId : Option Nat}

theorem startOf_mem (h : startOf store pendingPackId oid = some first) :
    first ∈ store.rows ∧ first.oid = oid := by
  unfold startOf at h
  split at h
  · rename_i own hown
    cases h
    have := List.find?_some hown
    simp only [Bool.and_eq_true, decide_eq_true_eq] at this
    exact ⟨List.mem_of_find?_eq_some hown, this.1⟩
  · have := List.find?_some h
    simp only [Bool.and_eq_true, decide_eq_true_eq] at this
    exact ⟨List.mem_of_find?_eq_some h, this.1⟩

/-- Each object of the result is what the chain of its id resolves to. -/
def Answers (store : PackRows) (options : ReadOptions) (result : List (Text × RawObject)) : Prop :=
  ∀ oid object, (oid, object) ∈ result → ∃ first depth,
    startOf store options.pendingPackId oid = some first ∧
      Resolves options.zlib store.rows first object depth

theorem mem_of_lookup (h : result.lookup oid = some object) : (oid, object) ∈ result := by
  obtain ⟨before, after, rfl, -⟩ := List.lookup_eq_some_iff.1 h
  simp

theorem Answers.agreesWith (h : Answers store options result)
    (hcontent : ContentAddressed options.zlib store.rows) :
    AgreesWith options.zlib store.rows result := by
  intro row hrow found object depth hlookup hresolves
  obtain ⟨first, depth', hstart, hfirst⟩ := h row.oid found (mem_of_lookup hlookup)
  obtain ⟨hmem, hoid⟩ := startOf_mem hstart
  exact hcontent first hmem row hrow found object depth' depth hoid hfirst hresolves

/-- The chain of an id that can be read: it resolves within the depth that ingest keeps. -/
def Readable (store : PackRows) (options : ReadOptions) (oid : Text) (first : PackedEntry) : Prop :=
  startOf store options.pendingPackId oid = some first ∧
    ∃ object depth, Resolves options.zlib store.rows first object depth ∧
      depth ≤ options.maxDeltaDepth

section

variable (hrows : SoundRows options.zlib store.rows) (hclosed : ClosedIn store.rows entries)

include hrows hclosed

theorem resolveOid_ok (hread : Readable store options oid first) (hfirst : first ∈ entries)
    (hresult : Answers store options result) (hcache : Consistent options.zlib store.rows cache) :
    ∃ result' cache', resolveOid options entries first oid result cache = .ok (result', cache') ∧
      Answers store options result' ∧ Consistent options.zlib store.rows cache' ∧
      ∀ other, other ∈ result'.map Prod.fst ↔ other = oid ∨ other ∈ result.map Prod.fst := by
  obtain ⟨hstart, target, depth, hresolves, hdepth⟩ := hread
  have hmem := (startOf_mem hstart).1
  have hanswers : Answers store options ((oid, target) :: result) := by
    intro other object hother
    rcases mem_cons.1 hother with heq | hother
    · obtain ⟨rfl, rfl⟩ := Prod.mk.inj heq
      exact ⟨first, depth, hstart, hresolves⟩
    · exact hresult other object hother
  unfold resolveOid
  cases hlookup : result.lookup oid with
  | some found =>
    refine ⟨result, cache, rfl, hresult, hcache, fun other => ⟨.inr, ?_⟩⟩
    rintro (rfl | h)
    · exact List.mem_map_of_mem (mem_of_lookup hlookup)
    · exact h
  | none =>
    obtain ⟨cache', hafter, hhit | hhit⟩ := hcache.cachedObject_cases options hmem hresolves
    · exact ⟨_, cache', by rw [hhit]; rfl, hanswers, hafter, by simp⟩
    · obtain ⟨object, chain, cache'', last, left, hwalk, hlinks, hlast, hafter'⟩ :=
        walk_ok oid hrows hclosed (hresult.agreesWith hrows.content) hresolves hmem
          .start (show depth ≤ options.maxDeltaDepth + [].length from hdepth) hfirst hafter
      obtain ⟨last', hclimb, hdone⟩ := climb_ok hrows hresolves hmem hlinks hlast hafter'
      obtain ⟨htype, hsize⟩ := hresolves.type_size
      refine ⟨(oid, target) :: result, last', ?_, hanswers, hdone, by simp⟩
      rw [hhit]
      dsimp only
      rw [show ([] : List (Nat × Nat)) = ([] : List PackedEntry).map PackedEntry.key from rfl, hwalk]
      dsimp only
      rw [hclimb]
      dsimp only
      rw [if_neg (by simp [htype, hsize])]
      rfl

theorem collectAll_ok {byOid : Text → Option PackedEntry} {oids : List Text}
    (hread : ∀ oid ∈ oids, ∀ first, byOid oid = some first →
      Readable store options oid first ∧ first ∈ entries)
    (hcache : Consistent options.zlib store.rows cache) :
    ∃ cache', collectAll options entries byOid oids cache = .ok cache' ∧
      Consistent options.zlib store.rows cache' := by
  induction oids generalizing cache with
  | nil => exact ⟨cache, rfl, hcache⟩
  | cons oid oids ih =>
    have hrest := fun oid h => hread oid (mem_cons_of_mem _ h)
    rw [collectAll]
    cases hbyOid : byOid oid with
    | none => exact ih hrest hcache
    | some first =>
      obtain ⟨⟨hstart, target, depth, hresolves, hdepth⟩, hfirst⟩ :=
        hread oid mem_cons_self first hbyOid
      have hmem := (startOf_mem hstart).1
      dsimp only
      obtain ⟨cache', hafter, hhit | hhit⟩ := hcache.cachedObject_cases options hmem hresolves
      · rw [hhit]
        exact ih hrest hafter
      · obtain ⟨cache'', hcollect, hafter'⟩ := collect_ok oid options hrows hclosed hresolves hmem
          .start (show depth ≤ options.maxDeltaDepth + [].length from hdepth) hfirst hafter
        rw [hhit]
        dsimp only
        rw [show ([] : List (Nat × Nat)) = ([] : List PackedEntry).map PackedEntry.key from rfl,
          hcollect]
        exact ih hrest hafter'

theorem resolveAll_ok {byOid : Text → Option PackedEntry} {oids : List Text}
    (hread : ∀ oid ∈ oids, ∃ first, byOid oid = some first ∧
      Readable store options oid first ∧ first ∈ entries) (hresult : Answers store options result)
    (hcache : Consistent options.zlib store.rows cache) :
    ∃ result' cache', resolveAll options entries byOid oids result cache = .ok (result', cache') ∧
      Answers store options result' ∧ Consistent options.zlib store.rows cache' ∧
      ∀ other, other ∈ result'.map Prod.fst ↔ other ∈ oids ∨ other ∈ result.map Prod.fst := by
  induction oids generalizing result cache with
  | nil => exact ⟨result, cache, rfl, hresult, hcache, by simp⟩
  | cons oid oids ih =>
    obtain ⟨first, hbyOid, hfirst, hmem⟩ := hread oid mem_cons_self
    obtain ⟨result', cache', hone, hresult', hcache', hnames⟩ :=
      resolveOid_ok hrows hclosed hfirst hmem hresult hcache
    obtain ⟨result'', cache'', hall, hresult'', hcache'', hnames'⟩ :=
      ih (fun oid h => hread oid (mem_cons_of_mem _ h)) hresult' hcache'
    refine ⟨result'', cache'', ?_, hresult'', hcache'', fun other => ?_⟩
    · rw [resolveAll, hbyOid]
      dsimp only
      rw [hone]
      exact hall
    · rw [hnames', hnames, mem_cons]
      tauto

end

variable {wanted : List Text}

theorem availableOids_ok (options : ReadOptions) (byOid : Text → Option PackedEntry)
    (hmissing : ∀ oid ∈ wanted, byOid oid = none → options.allowMissing = true)
    (htype : ∀ oid ∈ wanted, ∀ first, byOid oid = some first →
      ∀ type, options.expectedType = some type → type = first.type) :
    ∃ available, availableOids options byOid wanted = .ok available ∧
      ∀ oid, oid ∈ available ↔ oid ∈ wanted ∧ (byOid oid).isSome := by
  induction wanted with
  | nil => exact ⟨[], rfl, by simp⟩
  | cons oid wanted ih =>
    obtain ⟨available, hrest, hmem⟩ := ih (fun oid h => hmissing oid (mem_cons_of_mem _ h))
      (fun oid h => htype oid (mem_cons_of_mem _ h))
    rw [availableOids]
    cases hbyOid : byOid oid with
    | none =>
      refine ⟨available, ?_, fun other => ?_⟩
      · dsimp only
        rw [if_pos (hmissing oid mem_cons_self hbyOid), hrest]
      · rw [hmem, mem_cons]
        constructor
        · rintro ⟨h, hsome⟩
          exact ⟨.inr h, hsome⟩
        · rintro ⟨rfl | h, hsome⟩
          · rw [hbyOid] at hsome
            cases hsome
          · exact ⟨h, hsome⟩
    | some first =>
      have hnone : ¬ options.expectedType.any (· ≠ first.type) = true := by
        intro hany
        obtain ⟨type, hsome, hne⟩ := (Option.any_eq_true _ _).1 hany
        exact (of_decide_eq_true hne) (htype oid mem_cons_self first hbyOid type hsome)
      refine ⟨oid :: available, ?_, fun other => ?_⟩
      · dsimp only
        rw [if_neg hnone, hrest]
        rfl
      · rw [mem_cons, hmem, mem_cons]
        constructor
        · rintro (rfl | ⟨h, hsome⟩)
          · exact ⟨.inl rfl, by rw [hbyOid]; rfl⟩
          · exact ⟨.inr h, hsome⟩
        · rintro ⟨rfl | h, hsome⟩
          · exact .inl rfl
          · exact .inr ⟨h, hsome⟩

-- The batch

/-- A request the store can answer: the ids that have a chain have one that can be read, of the
    type that is expected; an id without one is allowed to be missing. -/
structure Answerable (store : PackRows) (options : ReadOptions) (wanted : List Text) : Prop where
  readable : ∀ oid ∈ wanted, ∀ first, startOf store options.pendingPackId oid = some first →
    Readable store options oid first
  expected : ∀ oid ∈ wanted, ∀ first, startOf store options.pendingPackId oid = some first →
    ∀ type, options.expectedType = some type → type = first.type
  missing : ∀ oid ∈ wanted, startOf store options.pendingPackId oid = none →
    options.allowMissing = true

theorem Answerable.sublist {part : List Text} (h : Answerable store options wanted)
    (hpart : part ⊆ wanted) : Answerable store options part where
  readable oid hoid := h.readable oid (hpart hoid)
  expected oid hoid := h.expected oid (hpart hoid)
  missing oid hoid := h.missing oid (hpart hoid)

/-- What a read of the batch returns: the objects of the ids that have a chain, and a cache that is
    still consistent. -/
structure BatchRead (store : PackRows) (options : ReadOptions) (wanted : List Text)
    (result : List (Text × RawObject)) (cache : ObjectCache) : Prop where
  answers : Answers store options result
  names : ∀ oid, oid ∈ result.map Prod.fst ↔
    oid ∈ wanted ∧ (startOf store options.pendingPackId oid).isSome
  consistent : Consistent options.zlib store.rows cache

theorem readGraph_closed (h : readGraph store pendingPackId wanted = some entries) :
    ClosedIn store.rows entries ∧
      ∀ oid ∈ wanted, ∀ first, startOf store pendingPackId oid = some first → first ∈ entries := by
  unfold readGraph at h
  dsimp only at h
  split at h
  · cases h
  rename_i hlength
  cases h
  have hstarts : ∀ entry ∈ (wanted.filterMap (startOf store pendingPackId)).dedup,
      entry ∈ store.rows := by
    intro entry hentry
    obtain ⟨oid, -, hstart⟩ := mem_filterMap.1 (List.mem_dedup.1 hentry)
    exact (startOf_mem hstart).1
  obtain ⟨hclosed, hmem⟩ := @reach_closed store.rows (maxPackBlobGraphEntries + 1) _ []
    hstarts (by simp) (by simp) (by simp only [List.length_nil]; omega)
  refine ⟨hclosed, fun oid hoid first hstart => hmem first (.inl ?_)⟩
  exact List.mem_dedup.2 (mem_filterMap.2 ⟨oid, hoid, hstart⟩)

/-- The starts of a batch, looked up by their id. -/
theorem byOid_eq_startOf {oid : Text} (hoid : oid ∈ wanted)
    (hentries : ∀ first, startOf store pendingPackId oid = some first → first ∈ entries) :
    (entries.find? fun entry =>
      entry ∈ wanted.filterMap (startOf store pendingPackId) && entry.oid = oid) =
      startOf store pendingPackId oid := by
  cases hfound : entries.find? fun entry =>
      entry ∈ wanted.filterMap (startOf store pendingPackId) && entry.oid = oid with
  | none =>
    cases hstart : startOf store pendingPackId oid with
    | none => rfl
    | some first =>
      have := List.find?_eq_none.1 hfound first (hentries first hstart)
      simp only [Bool.and_eq_true, decide_eq_true_eq, not_and] at this
      exact absurd (startOf_mem hstart).2 (this (mem_filterMap.2 ⟨oid, hoid, hstart⟩))
  | some entry =>
    have := List.find?_some hfound
    simp only [Bool.and_eq_true, decide_eq_true_eq] at this
    obtain ⟨oid', -, hstart⟩ := mem_filterMap.1 this.1
    obtain rfl : oid' = oid := (startOf_mem hstart).2.symm.trans this.2
    exact hstart.symm

theorem readObjects_ok (hrows : SoundRows options.zlib store.rows)
    (hwanted : Answerable store options wanted)
    (hgraph : readGraph store options.pendingPackId wanted = some entries)
    (hcache : Consistent options.zlib store.rows cache) :
    ∃ result cache', readObjects store options wanted entries cache = .ok (result, cache') ∧
      BatchRead store options wanted result cache' := by
  obtain ⟨hclosed, hentries⟩ := readGraph_closed hgraph
  obtain ⟨byOid, hdef⟩ : ∃ byOid : Text → Option PackedEntry, byOid = fun oid =>
      entries.find? fun entry =>
        entry ∈ wanted.filterMap (startOf store options.pendingPackId) && entry.oid = oid :=
    ⟨_, rfl⟩
  have hbyOid : ∀ oid ∈ wanted, byOid oid = startOf store options.pendingPackId oid := by
    intro oid hoid
    rw [hdef]
    exact byOid_eq_startOf hoid (hentries oid hoid)
  unfold readObjects
  dsimp only
  rw [← hdef]
  obtain ⟨available, havailable, hmem⟩ := availableOids_ok options byOid
    (fun oid hoid hnone => hwanted.missing oid hoid (by rw [← hbyOid oid hoid, hnone]))
    (fun oid hoid first hsome =>
      hwanted.expected oid hoid first (by rw [← hbyOid oid hoid, hsome]))
  have hread : ∀ oid ∈ available, ∀ first, byOid oid = some first →
      Readable store options oid first ∧ first ∈ entries := by
    intro oid hoid first hsome
    have hoid' := ((hmem oid).1 hoid).1
    rw [hbyOid oid hoid'] at hsome
    exact ⟨hwanted.readable oid hoid' first hsome, hentries oid hoid' first hsome⟩
  obtain ⟨cache', hcollect, hcache'⟩ := collectAll_ok hrows hclosed hread hcache
  obtain ⟨result, cache'', hresolve, hresult, hcache'', hnames⟩ :=
    resolveAll_ok hrows hclosed (fun oid hoid => by
      obtain ⟨first, hfirst⟩ := Option.isSome_iff_exists.1 ((hmem oid).1 hoid).2
      exact ⟨first, hfirst, hread oid hoid first hfirst⟩)
      (show Answers store options [] by simp [Answers]) hcache'
  refine ⟨result, cache'', ?_, hresult, fun oid => ?_, hcache''⟩
  · rw [havailable, ok_bind, hcollect, ok_bind]
    exact hresolve
  · rw [hnames, List.map_nil]
    simp only [List.not_mem_nil, or_false, hmem]
    constructor
    · rintro ⟨hoid, hsome⟩
      exact ⟨hoid, by rwa [← hbyOid oid hoid]⟩
    · rintro ⟨hoid, hsome⟩
      exact ⟨hoid, by rwa [hbyOid oid hoid]⟩

/-- The chain of one id always fits a graph. -/
theorem readGraph_isSome (hwanted : Answerable store options wanted)
    (hdepth : options.maxDeltaDepth ≤ maxDeltaDepthLimit) (hlength : wanted.length ≤ 1) :
    readGraph store options.pendingPackId wanted ≠ none := by
  have hle : (reach store.rows (maxPackBlobGraphEntries + 1)
      (wanted.filterMap (startOf store options.pendingPackId)).dedup []).length ≤
      maxPackBlobGraphEntries := by
    match wanted, hlength with
    | [], _ => exact Nat.zero_le _
    | [oid], _ =>
      cases hstart : startOf store options.pendingPackId oid with
      | none =>
        simp only [List.filterMap_cons, hstart, List.filterMap_nil, List.dedup_nil]
        exact Nat.zero_le _
      | some first =>
        obtain ⟨-, object, depth, hresolves, hle⟩ :=
          hwanted.readable oid mem_cons_self first hstart
        have := length_reach_le hresolves (maxPackBlobGraphEntries + 1) []
        simp only [List.filterMap_cons, hstart, List.filterMap_nil,
          List.dedup_eq_self.2 (List.nodup_singleton first)]
        simp only [maxPackBlobGraphEntries, List.length_nil] at this ⊢
        omega
  unfold readGraph
  dsimp only
  rw [if_neg (by omega)]
  exact Option.some_ne_none _

theorem BatchRead.append {left right : List Text} {rest : List (Text × RawObject)}
    {cache' : ObjectCache} (hleft : BatchRead store options left result cache)
    (hright : BatchRead store options right rest cache') :
    BatchRead store options (left ++ right) (rest ++ result) cache' where
  answers oid object h := by
    rcases mem_append.1 h with h | h
    · exact hright.answers oid object h
    · exact hleft.answers oid object h
  names oid := by
    rw [List.map_append, mem_append, hright.names, hleft.names, mem_append]
    tauto
  consistent := hright.consistent

theorem readBatch_ok (hrows : SoundRows options.zlib store.rows)
    (hdepth : options.maxDeltaDepth ≤ maxDeltaDepthLimit) (wanted : List Text)
    (hwanted : Answerable store options wanted) (cache : ObjectCache)
    (hcache : Consistent options.zlib store.rows cache) :
    ∃ result cache', readBatch store options wanted cache = .ok (result, cache') ∧
      BatchRead store options wanted result cache' := by
  -- by the recursion of the halving
  induction hlength : wanted.length using Nat.strong_induction_on generalizing wanted cache with
  | _ length ih =>
    rw [readBatch]
    cases hgraph : readGraph store options.pendingPackId wanted with
    | some entries => exact readObjects_ok hrows hwanted hgraph hcache
    | none =>
      have hmany : ¬ wanted.length ≤ 1 := fun hle => readGraph_isSome hwanted hdepth hle hgraph
      dsimp only
      rw [dif_neg hmany]
      obtain ⟨result, cache', hleft, hread⟩ := ih (wanted.take ((wanted.length + 1) / 2)).length
        (by rw [List.length_take]; omega) _ (hwanted.sublist (List.take_subset _ _)) cache hcache rfl
      obtain ⟨rest, cache'', hright, hread'⟩ := ih (wanted.drop ((wanted.length + 1) / 2)).length
        (by rw [List.length_drop]; omega) _ (hwanted.sublist (List.drop_subset _ _)) cache'
        hread.consistent rfl
      refine ⟨rest ++ result, cache'', ?_, ?_⟩
      · rw [hleft, ok_bind]
        dsimp only
        rw [hright]
        rfl
      · have := hread.append hread'
        rwa [List.take_append_drop] at this

/-- A read returns for every wanted id that has a chain the object it resolves to link by link, and
    nothing else. -/
def ReturnsChains (store : PackRows) (options : ReadOptions) (wanted : List Text)
    (read : Except GitError (List (Text × RawObject) × ObjectCache)) : Prop :=
  ∃ result cache', read = .ok (result, cache') ∧ Consistent options.zlib store.rows cache' ∧
    (∀ oid ∈ wanted, ∀ first object depth, startOf store options.pendingPackId oid = some first →
      Resolves options.zlib store.rows first object depth → result.lookup oid = some object) ∧
    ∀ oid, oid ∉ wanted ∨ startOf store options.pendingPackId oid = none →
      result.lookup oid = none

theorem BatchRead.returnsChains {read : Except GitError (List (Text × RawObject) × ObjectCache)}
    (h : BatchRead store options wanted result cache) (hread : read = .ok (result, cache)) :
    ReturnsChains store options wanted read := by
  have hlookup : ∀ oid, result.lookup oid = none ↔ oid ∉ result.map Prod.fst := by
    intro oid
    rw [List.lookup_eq_none_iff, List.mem_map]
    constructor
    · rintro hnone ⟨⟨oid', object⟩, hmem, rfl⟩
      simpa using hnone _ hmem
    · rintro hnone ⟨oid', object⟩ hmem
      by_contra heq
      exact hnone ⟨_, hmem, (by simpa using heq : oid = oid').symm⟩
  refine ⟨result, cache, hread, h.consistent, ?_, ?_⟩
  · intro oid hoid first object depth hstart hresolves
    cases hfound : result.lookup oid with
    | none =>
      exact absurd ((h.names oid).2 ⟨hoid, by rw [hstart]; rfl⟩) ((hlookup oid).1 hfound)
    | some found =>
      obtain ⟨first', depth', hstart', hresolves'⟩ := h.answers oid found (mem_of_lookup hfound)
      obtain rfl := Option.some.inj (hstart.symm.trans hstart')
      rw [(hresolves'.unique hresolves).1]
  · intro oid hnone
    refine (hlookup oid).2 fun hmem => ?_
    obtain ⟨hoid, hsome⟩ := (h.names oid).1 hmem
    rcases hnone with hnone | hnone
    · exact hnone hoid
    · rw [hnone] at hsome
      cases hsome

/-- For every store of chains, every batch the store can answer and every consistent cache, the
    batch resolver returns for each id what its chain resolves to one link at a time from the full
    object, whether the batch is one graph or is halved. -/
theorem readBatch_returns_chains (store : PackRows) (options : ReadOptions) (wanted : List Text)
    (cache : ObjectCache) (hrows : SoundRows options.zlib store.rows)
    (hdepth : options.maxDeltaDepth ≤ maxDeltaDepthLimit)
    (hwanted : Answerable store options wanted)
    (hcache : Consistent options.zlib store.rows cache) :
    ReturnsChains store options wanted (readBatch store options wanted cache) ∧
      ∀ entries, readGraph store options.pendingPackId wanted = some entries →
        ReturnsChains store options wanted (readObjects store options wanted entries cache) := by
  constructor
  · obtain ⟨result, cache', hread, hbatch⟩ := readBatch_ok hrows hdepth wanted hwanted cache hcache
    exact hbatch.returnsChains hread
  · intro entries hgraph
    obtain ⟨result, cache', hread, hbatch⟩ := readObjects_ok hrows hwanted hgraph hcache
    exact hbatch.returnsChains hread

end

-- Two blobs

/-- The zlib stream of `abc`, and that of a delta that copies its last two bytes. -/
def packedFull : List UInt8 := [120, 156, 75, 76, 74, 6, 0, 2, 77, 1, 39]

def packedDelta : List UInt8 := [120, 156, 99, 102, 154, 200, 200, 4, 0, 1, 211, 0, 154]

/-- A decoder that knows the two streams. -/
def twoStreams : Zlib where
  inflate input :=
    if input = packedFull then some [97, 98, 99]
    else if input = packedDelta then some [3, 2, 0x91, 1, 2]
    else none
  pieces _ input :=
    if input = packedFull then some [[97, 98, 99]]
    else if input = packedDelta then some [[3, 2, 0x91, 1, 2]]
    else none
  flatten_pieces _ input := by
    split
    · rfl
    · split <;> rfl

def fullRow : PackedEntry :=
  { oid := text "f2ba8f84ab5c1bce84a7b441cb1959cfc7093b7f", packId := 1, offset := 12
    type := .blob, size := 3, entrySize := 3, baseOffset := none, payload := packedFull }

def deltaRow : PackedEntry :=
  { oid := text "e5d8f44be26db0c31cbdaa99c83480c393780c82", packId := 1, offset := 24
    type := .blob, size := 2, entrySize := 5, baseOffset := some 12, payload := packedDelta }

def twoRows : PackRows := { rows := [fullRow, deltaRow], complete := fun packId => packId = 1 }

def blobOptions : ReadOptions :=
  { zlib := twoStreams, maxDeltaDepth := 4095, cacheEntryLimit := 1024
    sizeOf := fun object => object.data.length, pendingPackId := none
    expectedType := some .blob, allowMissing := false, bypassCache := false }

theorem deltaRow_resolves :
    Resolves twoStreams twoRows.rows deltaRow { type := .blob, data := [98, 99] } 1 := by
  have hdecodes : Decodes [97, 98, 99] [3, 2, 0x91, 1, 2] [98, 99] := by
    refine ⟨[2, 0x91, 1, 2], [0x91, 1, 2], rfl, rfl, ?_, rfl⟩
    rw [applyCommands_copy (by decide)]
    refine ⟨1, 2, [], rfl, by decide, by decide, ?_⟩
    rw [applyCommands]
    rfl
  have hlink : resolveLink twoStreams { type := .blob, data := [97, 98, 99] } deltaRow =
      .ok { type := .blob, data := [98, 99] } :=
    resolveLink_of_decodes (by decide) rfl (by decide) hdecodes rfl rfl
  exact .delta (show deltaRow.baseIn twoRows.rows = some fullRow by decide) (.full rfl rfl) hlink

/-- The delta is read on its base, which the batch also wants, through an empty cache. -/
theorem readBatch_returns_two_blobs :
    ∃ result cache', readBatch twoRows blobOptions [deltaRow.oid, fullRow.oid]
        { budget := 65536, entries := [] } = .ok (result, cache') ∧
      result.lookup deltaRow.oid = some { type := .blob, data := [98, 99] } := by
  have hfull : Resolves twoStreams twoRows.rows fullRow { type := .blob, data := [97, 98, 99] } 0 :=
    .full rfl rfl
  have hstart : startOf twoRows none deltaRow.oid = some deltaRow := by decide
  have hstart' : startOf twoRows none fullRow.oid = some fullRow := by decide
  have hrows : SoundRows twoStreams twoRows.rows := by
    refine ⟨show ∀ row ∈ twoRows.rows, ∀ row' ∈ twoRows.rows, row.key = row'.key → row = row' by
      decide, ?_⟩
    intro row hrow row' hrow' object object' depth depth' hoid h h'
    have hunique : ∀ row ∈ twoRows.rows, ∀ row' ∈ twoRows.rows, row.oid = row'.oid → row = row' := by
      decide
    obtain rfl := hunique row hrow row' hrow' hoid
    exact (h.unique h').1
  have hwanted : Answerable twoRows blobOptions [deltaRow.oid, fullRow.oid] := by
    have hcases : ∀ oid ∈ [deltaRow.oid, fullRow.oid], ∃ first object depth,
        startOf twoRows none oid = some first ∧ first.type = .blob ∧ depth ≤ 4095 ∧
          Resolves twoStreams twoRows.rows first object depth := by
      intro oid hoid
      rcases mem_cons.1 hoid with rfl | hoid
      · exact ⟨deltaRow, _, 1, hstart, rfl, by decide, deltaRow_resolves⟩
      · obtain rfl := mem_singleton.1 hoid
        exact ⟨fullRow, _, 0, hstart', rfl, by decide, hfull⟩
    constructor
    · intro oid hoid first hfirst
      obtain ⟨first', object, depth, hstart, -, hdepth, hresolves⟩ := hcases oid hoid
      obtain rfl := Option.some.inj (hfirst.symm.trans hstart)
      exact ⟨hfirst, object, depth, hresolves, hdepth⟩
    · intro oid hoid first hfirst type htype
      obtain ⟨first', object, depth, hstart, hblob, -⟩ := hcases oid hoid
      obtain rfl := Option.some.inj (hfirst.symm.trans hstart)
      exact (Option.some.inj htype).symm.trans hblob.symm
    · intro oid hoid hnone
      obtain ⟨first', object, depth, hstart, -⟩ := hcases oid hoid
      exact absurd (hnone.symm.trans hstart) (by simp)
  have hcache : Consistent twoStreams twoRows.rows { budget := 65536, entries := [] } := by
    rintro row hrow cached object depth ⟨node, hnode, -⟩
    cases hnode
  obtain ⟨result, cache', hread, -, hobjects, -⟩ := (readBatch_returns_chains twoRows blobOptions
    [deltaRow.oid, fullRow.oid] _ hrows (by decide) hwanted hcache).1
  exact ⟨result, cache', hread, hobjects deltaRow.oid mem_cons_self deltaRow _ 1 hstart
    deltaRow_resolves⟩

end Kompjutr.Pack
