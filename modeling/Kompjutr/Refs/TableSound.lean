/-
  Kompjutr.Refs.TableSound

  What a ref mutation leaves: the refs with the deletes and then the puts applied, and
  one numbered event for each value that changed.
-/
import Kompjutr.Refs.Table

namespace Kompjutr.Refs

open Objects (Text text)
open Fuel
open List (ext_getElem filter_eq_nil_iff foldl_cons map_congr_left mem_append mem_cons mem_filter
  mem_map mem_map_of_mem nodup_nil not_mem_nil)

variable {value : Text} {label : String} {names : List Text} {old new : Option Text}
  {checkouts : List CheckoutRow} {entries : List CheckoutRefLogEvent} {refs : RefMap} {cutoff : Int}
  {last : Nat}

variable {name : Text} {mutation : RefMutation} {normalized : NormalizedRefMutation}
  {before after : Text → Option Text} {metadata : RefLogMetadata} {event : RefLogEvent}
  {events direct : List RefLogEvent} {changed : List Text} {owner : HeadOwner} {head : Option Text}
  {heads : List CheckoutRefLogEvent}

-- Names

/-- A name that can be stored. -/
structure IsRefName (name : Text) : Prop where
  ne_nil : name ≠ []
  ne_head : name ≠ text "HEAD"
  checked : (checkRefText name none).problem = none
  canonical : hasCanonicalRefSyntax name 0 = true

theorem requireRefName_ok
    (h : requireRefName value label false = .ok name) : name = value ∧ IsRefName value := by
  unfold requireRefName at h
  dsimp only at h
  split at h
  · obtain ⟨⟨⟩, h, -⟩ := bind_eq_ok.1 h
    cases h
  · next hempty =>
    obtain ⟨_, hbytes, h⟩ := bind_eq_ok.1 h
    simp only [Bool.not_false, Bool.true_and, Bool.or_eq_true, decide_eq_true_eq, not_or] at hempty
    split at h
    · obtain ⟨⟨⟩, h, -⟩ := bind_eq_ok.1 h
      cases h
    · next hsyntax =>
      simp only [Bool.not_eq_true, Bool.not_eq_false'] at hsyntax
      exact ⟨(Except.ok.inj h).symm, hempty.1, hempty.2, refTextBytes_ok hbytes, hsyntax⟩

theorem requireRawRefTarget_ok {target : Text}
    (h : requireRawRefTarget value label = .ok target) : target = value := by
  unfold requireRawRefTarget at h
  dsimp only at h
  split at h
  · obtain ⟨⟨⟩, h, -⟩ := bind_eq_ok.1 h
    cases h
  · obtain ⟨_, -, h⟩ := bind_eq_ok.1 h
    split at h
    · exact (Except.ok.inj h).symm
    · split at h
      · obtain ⟨⟨⟩, h, -⟩ := bind_eq_ok.1 h
        cases h
      · exact (Except.ok.inj h).symm

-- Normalized mutations

/-- The refs with one row written. -/
def putRef (refs : Text → Option Text) (row : RefRow) : Text → Option Text :=
  Function.update refs row.name (some row.target)

/-- The refs with one name removed. -/
def deleteRef (refs : Text → Option Text) (name : Text) : Text → Option Text :=
  Function.update refs name none

/-- The refs with the deletes and then the puts of a mutation applied. -/
def applied (refs : Text → Option Text) (mutation : RefMutation) : Text → Option Text :=
  mutation.puts.foldl putRef (mutation.deletes.foldl deleteRef refs)

theorem foldlM_addDelete {start final : List Text × Nat}
    (h : names.foldlM addDelete start = .ok final) :
    (∀ name, name ∈ final.1 ↔ name ∈ start.1 ∨ name ∈ names) ∧
      (start.1.Nodup → final.1.Nodup) := by
  induction names generalizing start with
  | nil =>
    cases h
    exact ⟨fun name => ⟨Or.inl, fun h => h.resolve_right not_mem_nil⟩, fun h => h⟩
  | cons value names ih =>
    rw [List.foldlM_cons] at h
    obtain ⟨middle, hfirst, hrest⟩ := bind_eq_ok.1 h
    unfold addDelete at hfirst
    obtain ⟨checked, hname, hfirst⟩ := bind_eq_ok.1 hfirst
    obtain ⟨inputs, -, hfirst⟩ := bind_eq_ok.1 hfirst
    cases hfirst
    obtain rfl := (requireRefName_ok hname).1
    obtain ⟨hmem, hnodup⟩ := ih hrest
    refine ⟨fun name => ?_, fun hstart => hnodup hstart.insert⟩
    rw [hmem, List.mem_insert_iff, mem_cons]
    constructor
    · rintro ((rfl | h) | h)
      · exact .inr (.inl rfl)
      · exact .inl h
      · exact .inr (.inr h)
    · rintro (h | rfl | h)
      · exact .inl (.inr h)
      · exact .inl (.inl rfl)
      · exact .inr h

theorem foldlM_addPut {rows : List RefRow} {start final : RefMap × Nat}
    (h : rows.foldlM addPut start = .ok final) :
    (fun name => final.1.lookup name) = rows.foldl putRef (fun name => start.1.lookup name) ∧
      ∀ name, name ∈ final.1 → name ∈ start.1 ∨ IsRefName name := by
  induction rows generalizing start with
  | nil =>
    cases h
    exact ⟨rfl, fun name h => .inl h⟩
  | cons row rows ih =>
    rw [List.foldlM_cons] at h
    obtain ⟨middle, hfirst, hrest⟩ := bind_eq_ok.1 h
    unfold addPut at hfirst
    obtain ⟨name, hname, hfirst⟩ := bind_eq_ok.1 hfirst
    obtain ⟨target, htarget, hfirst⟩ := bind_eq_ok.1 hfirst
    obtain ⟨inputs, -, hfirst⟩ := bind_eq_ok.1 hfirst
    cases hfirst
    obtain ⟨rfl, hvalid⟩ := requireRefName_ok hname
    obtain rfl := requireRawRefTarget_ok htarget
    obtain ⟨hlookup, hmem⟩ := ih hrest
    constructor
    · rw [hlookup, foldl_cons]
      congr 1
      funext other
      unfold putRef
      by_cases hother : other = row.name
      · subst hother
        rw [AList.lookup_insert, Function.update_self]
      · rw [AList.lookup_insert_ne hother, Function.update_of_ne hother]
    · intro other hother
      rcases hmem other hother with h | h
      · rcases AList.mem_insert _ |>.1 h with rfl | h
        · exact .inr hvalid
        · exact .inl h
      · exact .inr h

/-- A row overrides what was there before, whatever it was. -/
theorem foldl_update_or (rows : List RefRow) (refs : Text → Option Text) (name : Text) :
    rows.foldl putRef refs name = (rows.foldl putRef (fun _ => none) name).or (refs name) := by
  induction rows generalizing refs with
  | nil => rfl
  | cons row rows ih =>
    rw [foldl_cons, foldl_cons, ih, ih (putRef (fun _ => none) row)]
    unfold putRef
    by_cases hname : name = row.name
    · subst hname
      rw [Function.update_self, Function.update_self, Option.or_assoc]
      rfl
    · rw [Function.update_of_ne hname, Function.update_of_ne hname, Option.or_none]

theorem foldl_update_none (names : List Text) (refs : Text → Option Text) (name : Text) :
    names.foldl deleteRef refs name =
      if name ∈ names then none else refs name := by
  induction names generalizing refs with
  | nil => rfl
  | cons first names ih =>
    rw [foldl_cons, ih]
    by_cases hrest : name ∈ names
    · rw [if_pos hrest, if_pos (List.mem_cons_of_mem _ hrest)]
    · rw [if_neg hrest]
      unfold deleteRef
      by_cases hfirst : name = first
      · subst hfirst
        rw [Function.update_self, if_pos List.mem_cons_self]
      · rw [Function.update_of_ne hfirst, if_neg fun hmem => (mem_cons.1 hmem).elim hfirst hrest]

/-- What a checked mutation is. -/
structure Normalizes (mutation : RefMutation) (normalized : NormalizedRefMutation) : Prop where
  head : normalized.head = mutation.head
  deletes_nodup : normalized.deletes.Nodup
  after : ∀ before, afterTarget before normalized = applied before mutation
  puts_valid : ∀ name ∈ normalized.puts, IsRefName name

theorem normalizeRefMutation_ok
    (h : normalizeRefMutation mutation = .ok normalized) : Normalizes mutation normalized := by
  unfold normalizeRefMutation at h
  obtain ⟨⟨deletes, inputs⟩, hdeletes, h⟩ := bind_eq_ok.1 h
  obtain ⟨⟨puts, inputs'⟩, hputs, h⟩ := bind_eq_ok.1 h
  obtain ⟨inputs'', -, h⟩ := bind_eq_ok.1 h
  replace h := Fuel.after_check h
  cases h
  obtain ⟨hmem, hnodup⟩ := foldlM_addDelete hdeletes
  obtain ⟨hlookup, hvalid⟩ := foldlM_addPut hputs
  refine ⟨rfl, hnodup nodup_nil, fun before => ?_, fun name hname => ?_⟩
  · funext name
    have hput : puts.lookup name = mutation.puts.foldl putRef (fun _ => none) name :=
      congrFun hlookup name
    have hdeleted : deletes.contains name = decide (name ∈ mutation.deletes) := by
      rw [List.contains_eq_mem, decide_eq_decide, hmem]
      exact ⟨fun h => h.resolve_left not_mem_nil, Or.inr⟩
    rw [applied, foldl_update_or, foldl_update_none, ← hput, afterTarget]
    simp only [hdeleted, decide_eq_true_eq]
    cases puts.lookup name with
    | none => rfl
    | some target => rfl
  · exact (hvalid name hname).resolve_left (AList.notMem_empty name)

-- Changed names

theorem mem_changedNames {mutation : NormalizedRefMutation} : name ∈ changedNames before
    (afterTarget before mutation) mutation ↔
      before name ≠ afterTarget before mutation name := by
  unfold changedNames
  constructor
  · intro hmem
    rcases mem_append.1 hmem with hmem | hmem
    · exact of_decide_eq_true (mem_filter.1 hmem).2
    · exact of_decide_eq_true (Bool.and_eq_true_iff.1 (mem_filter.1 hmem).2).1
  · intro hchanged
    by_cases hdeleted : name ∈ mutation.deletes
    · exact List.mem_append_left _ (mem_filter.2 ⟨hdeleted, decide_eq_true hchanged⟩)
    · -- a name that is neither put nor deleted keeps its value
      have hput : name ∈ mutation.puts := by
        by_contra hput
        rw [← AList.lookup_eq_none] at hput
        rw [afterTarget, hput] at hchanged
        simp [hdeleted] at hchanged
      refine List.mem_append_right _ (mem_filter.2 ⟨hput, ?_⟩)
      simp [hchanged, hdeleted]

theorem nodup_changedNames {mutation : NormalizedRefMutation}
    (h : mutation.deletes.Nodup) : (changedNames before after mutation).Nodup := by
  unfold changedNames
  refine List.Nodup.append (h.filter _) (mutation.puts.keys_nodup.filter _) ?_
  intro name hdeleted hput
  have := (mem_filter.1 hput).2
  simp only [Bool.and_eq_true, Bool.not_eq_true', List.contains_eq_mem, decide_eq_false_iff_not]
    at this
  exact this.2 hdeleted

-- Events

/-- An event says what its ref was before and is after, and who changed it. -/
structure Logs (before after : Text → Option Text) (metadata : RefLogMetadata)
    (event : RefLogEvent) (old new : Option Text) : Prop where
  oldRaw : event.oldRaw = old
  newRaw : event.newRaw = new
  oldOid : resolveIn before old = .ok event.oldOid
  newOid : resolveIn after new = .ok event.newOid
  actor : event.actor = metadata.actor
  timestamp : event.timestamp = metadata.timestamp
  timezoneOffset : event.timezoneOffset = metadata.timezoneOffset
  reason : event.reason = metadata.reason

theorem Logs.renumber (h : Logs before after metadata event old new)
    (ordinal : Nat) : Logs before after metadata { event with ordinal } old new :=
  ⟨h.oldRaw, h.newRaw, h.oldOid, h.newOid, h.actor, h.timestamp, h.timezoneOffset, h.reason⟩

theorem pendingEvent_ok {refName : Text}
    (h : pendingEvent before after metadata refName old new = .ok event) :
    event.refName = refName ∧ Logs before after metadata event old new := by
  unfold pendingEvent at h
  obtain ⟨oldOid, hold, h⟩ := bind_eq_ok.1 h
  obtain ⟨newOid, hnew, h⟩ := bind_eq_ok.1 h
  cases h
  exact ⟨rfl, rfl, rfl, hold, hnew, rfl, rfl, rfl, rfl⟩

/-- One event for each name, in the order of the names. -/
theorem pendingDirect_ok
    (h : names.mapM (fun name => pendingEvent before after metadata name (before name) (after name)) =
      .ok events) :
    events.map (·.refName) = names ∧
      ∀ event ∈ events,
        Logs before after metadata event (before event.refName) (after event.refName) := by
  have hall := mapM_ok h
  clear h
  induction hall with
  | nil => exact ⟨rfl, nofun⟩
  | cons hfirst _ ih =>
    obtain ⟨hname, hlogs⟩ := pendingEvent_ok hfirst
    obtain ⟨hnames, hrest⟩ := ih
    refine ⟨by rw [List.map_cons, hname, hnames], fun event hmem => ?_⟩
    rcases mem_cons.1 hmem with rfl | hmem
    · rw [hname]
      exact hlogs
    · exact hrest event hmem

theorem map_refName_numbered (start : Nat) (events : List RefLogEvent) :
    (numbered start events).map (·.refName) = events.map (·.refName) := by
  unfold numbered
  apply ext_getElem
  · simp
  · intro i h h'
    simp

theorem map_ordinal_numbered (start : Nat) (events : List RefLogEvent) :
    (numbered start events).map (·.ordinal) = List.range' (start + 1) events.length := by
  unfold numbered
  apply ext_getElem
  · simp
  · intro i h h'
    simp
    omega

theorem mem_numbered {start : Nat} (h : event ∈ numbered start events) :
    ∃ pending ∈ events, ∃ ordinal, event = { pending with ordinal } := by
  unfold numbered at h
  obtain ⟨i, hi, rfl⟩ := List.mem_mapIdx.1 h
  exact ⟨events[i], List.getElem_mem hi, _, rfl⟩

-- HEADs

/-- The HEAD of a checkout has another value, resolves to another object, or is attached to a branch
    that was itself changed. -/
def headChanged (before after : Text → Option Text) (owner : HeadOwner) (head : Option Text)
    (checkout : CheckoutRow) : Bool :=
  let newHead := checkoutNewHead owner head checkout
  checkout.head ≠ newHead || resolveIn before (some checkout.head) ≠ resolveIn after (some newHead) ||
    ((rawSymbolicTarget checkout.head).any fun branch =>
      (text "refs/heads/").isPrefixOf branch && before branch ≠ after branch)

/-- The event of one checkout. -/
structure LogsHead (before after : Text → Option Text) (metadata : RefLogMetadata)
    (owner : HeadOwner) (head : Option Text) (checkout : CheckoutRow)
    (entry : CheckoutRefLogEvent) : Prop where
  checkoutId : entry.checkoutId = checkout.id
  refName : entry.event.refName = text "HEAD"
  logs : Logs before after metadata entry.event (some checkout.head)
    (some (checkoutNewHead owner head checkout))

theorem causalHeadChange_eq
    (hchanged : ∀ name, name ∈ changed ↔ before name ≠ after name) (head : Text) :
    causalHeadChange changed head = (rawSymbolicTarget head).any fun branch =>
      (text "refs/heads/").isPrefixOf branch && before branch ≠ after branch := by
  unfold causalHeadChange
  cases rawSymbolicTarget head with
  | none => rfl
  | some branch =>
    have hmem : changed.contains branch = decide (before branch ≠ after branch) := by
      rw [List.contains_eq_mem]
      exact decide_eq_decide.2 (hchanged branch)
    rw [Option.any_some, ← hmem]

theorem pendingHead_ok {checkout : CheckoutRow} {entry : Option CheckoutRefLogEvent}
    (hchanged : ∀ name, name ∈ changed ↔ before name ≠ after name)
    (h : pendingHead before after metadata owner head changed checkout = .ok entry) :
    if headChanged before after owner head checkout then
      ∃ event, entry = some event ∧ LogsHead before after metadata owner head checkout event
    else entry = none := by
  unfold pendingHead at h
  obtain ⟨event, hevent, h⟩ := bind_eq_ok.1 h
  obtain ⟨hname, hlogs⟩ := pendingEvent_ok hevent
  have hoids : (event.oldOid ≠ event.newOid) ↔ resolveIn before (some checkout.head) ≠
      resolveIn after (some (checkoutNewHead owner head checkout)) := by
    rw [hlogs.oldOid, hlogs.newOid]
    exact not_congr ⟨congrArg _, Except.ok.inj⟩
  have hcond : (checkout.head ≠ checkoutNewHead owner head checkout ||
      decide (event.oldOid ≠ event.newOid) || causalHeadChange changed checkout.head) =
      headChanged before after owner head checkout := by
    unfold headChanged
    rw [causalHeadChange_eq hchanged, decide_eq_decide.2 hoids]
  rw [hcond] at h
  split
  · next hpos =>
    rw [if_pos hpos] at h
    cases h
    exact ⟨_, rfl, rfl, hname, hlogs⟩
  · next hneg =>
    rw [if_neg hneg] at h
    exact (Except.ok.inj h).symm

/-- One event for each checkout whose HEAD changed, in the order of the checkouts. -/
theorem pendingHeads_ok {entries : List (Option CheckoutRefLogEvent)}
    (hchanged : ∀ name, name ∈ changed ↔ before name ≠ after name)
    (h : checkouts.mapM (pendingHead before after metadata owner head changed) = .ok entries) :
    List.Forall₂ (LogsHead before after metadata owner head)
      (checkouts.filter (headChanged before after owner head)) (entries.filterMap id) := by
  have hall := mapM_ok h
  clear h
  induction hall with
  | nil => exact .nil
  | cons hfirst _ ih =>
    have hone := pendingHead_ok hchanged hfirst
    split at hone
    · next hpos =>
      obtain ⟨event, rfl, hlogs⟩ := hone
      rw [List.filter_cons_of_pos hpos]
      exact .cons hlogs ih
    · next hneg =>
      subst hone
      rw [List.filter_cons_of_neg hneg]
      exact ih

theorem numberedHeads_ok (start : Nat)
    (h : List.Forall₂ (LogsHead before after metadata owner head) checkouts entries) :
    List.Forall₂ (LogsHead before after metadata owner head) checkouts
      (numberedHeads start entries) := by
  unfold numberedHeads
  induction h generalizing start with
  | nil => exact .nil
  | cons hfirst _ ih =>
    rw [List.mapIdx_cons]
    refine .cons ⟨hfirst.checkoutId, hfirst.refName, hfirst.logs.renumber _⟩ ?_
    have hrest := ih (start + 1)
    simp only [Nat.add_right_comm start 1] at hrest
    simpa only [Nat.add_assoc] using hrest

theorem map_ordinal_numberedHeads (start : Nat) (entries : List CheckoutRefLogEvent) :
    (numberedHeads start entries).map (·.event.ordinal) =
      List.range' (start + 1) entries.length := by
  unfold numberedHeads
  apply ext_getElem
  · simp
  · intro i h h'
    simp
    omega

-- Pruning

theorem retentionFloor_le {ordinals : List Nat} {bound : Nat} (h : ∀ n ∈ ordinals, n ≤ bound) :
    retentionFloor ordinals ≤ bound := by
  unfold retentionFloor
  cases hfound : (ordinals.mergeSort (· ≥ ·))[reflogRetentionRows - 1]? with
  | none => exact Nat.zero_le _
  | some n => exact h n ((List.mergeSort_perm ordinals _).mem_iff.1 (List.mem_of_getElem? hfound))

theorem cutoff_le (h : 0 ≤ metadata.timestamp) :
    max 0 (metadata.timestamp - reflogRetentionSeconds) ≤ metadata.timestamp := by
  unfold reflogRetentionSeconds
  omega

/-- Of entries whose group has none above them, pruning removes none that is not expired. -/
theorem filter_newest {α κ : Type} [DecidableEq κ] (group : α → κ) (ordinal : α → Nat)
    (time : α → Int) (touched : α → Bool) {last : Nat} {old new : List α}
    (htime : 0 ≤ metadata.timestamp) (hold : ∀ e ∈ old, ordinal e ≤ last)
    (hnew : ∀ e ∈ new, last < ordinal e ∧ time e = metadata.timestamp)
    (hnodup : (new.map group).Nodup) :
    let cutoff := max 0 (metadata.timestamp - reflogRetentionSeconds)
    let kept := (old ++ new).filter (fun e => decide (cutoff ≤ time e))
    (kept.filter fun e => !touched e ||
        decide (retentionFloor ((kept.filter (fun f => decide (group f = group e))).map ordinal) ≤
          ordinal e)).filter (fun e => decide (last < ordinal e)) = new := by
  intro cutoff kept
  rw [List.filter_filter]
  have hcutoff : ∀ e ∈ new, cutoff ≤ time e := by
    intro e he
    rw [(hnew e he).2]
    exact cutoff_le htime
  have hkept : kept = old.filter (fun e => decide (cutoff ≤ time e)) ++ new := by
    show (old ++ new).filter _ = _
    rw [List.filter_append]
    congr 1
    exact List.filter_eq_self.2 fun e he => decide_eq_true (hcutoff e he)
  have hordinal : ∀ e ∈ kept, e ∈ new ∨ ordinal e ≤ last := by
    intro e he
    rw [hkept] at he
    rcases mem_append.1 he with he | he
    · exact .inr (hold e (mem_filter.1 he).1)
    · exact .inl he
  -- the new entries pass both tests, the old ones fail the second
  have hpass : ∀ e ∈ new, (decide (last < ordinal e) && (!touched e ||
      decide (retentionFloor ((kept.filter (fun f => decide (group f = group e))).map ordinal) ≤
        ordinal e))) = true := by
    intro e he
    rw [Bool.and_eq_true, Bool.or_eq_true]
    refine ⟨decide_eq_true (hnew e he).1, .inr (decide_eq_true (retentionFloor_le ?_))⟩
    intro n hn
    obtain ⟨f, hf, rfl⟩ := mem_map.1 hn
    obtain ⟨hf, hgroup⟩ := mem_filter.1 hf
    rcases hordinal f hf with hmem | hle
    · rw [List.inj_on_of_nodup_map hnodup hmem he (of_decide_eq_true hgroup)]
    · exact Nat.le_trans hle (Nat.le_of_lt (hnew e he).1)
  rw [hkept, List.filter_append, filter_eq_nil_iff.2, List.nil_append]
  · rw [← hkept]
    exact List.filter_eq_self.2 hpass
  · intro e he
    have hle := hold e (mem_filter.1 he).1
    rw [Bool.and_eq_true]
    exact fun h => absurd (of_decide_eq_true h.1) (by omega)

-- The rows of the refs

theorem lookup_foldl_erase (events : List RefLogEvent) (refs : RefMap) (name : Text) :
    (events.foldl (fun refs event => refs.erase event.refName) refs).lookup name =
      if name ∈ events.map (·.refName) then none else refs.lookup name := by
  induction events generalizing refs with
  | nil => rfl
  | cons event events ih =>
    rw [foldl_cons, ih, List.map_cons]
    by_cases hrest : name ∈ events.map (·.refName)
    · rw [if_pos hrest, if_pos (List.mem_cons_of_mem _ hrest)]
    · rw [if_neg hrest]
      by_cases hname : name = event.refName
      · subst hname
        rw [AList.lookup_erase, if_pos List.mem_cons_self]
      · rw [AList.lookup_erase_ne hname, if_neg fun h => (mem_cons.1 h).elim hname hrest]

/-- The row an event writes. -/
def insertEvent (refs : RefMap) (event : RefLogEvent) : RefMap :=
  match event.newRaw with
  | some target => refs.insert event.refName target
  | none => refs

theorem lookup_insertEvent_ne
    (h : name ≠ event.refName) : (insertEvent refs event).lookup name = refs.lookup name := by
  unfold insertEvent
  split
  · exact AList.lookup_insert_ne h
  · rfl

theorem lookup_foldl_insert_of_not_mem (h : name ∉ events.map (·.refName)) (refs : RefMap) :
    (events.foldl insertEvent refs).lookup name = refs.lookup name := by
  induction events generalizing refs with
  | nil => rfl
  | cons event events ih =>
    obtain ⟨hfirst, hrest⟩ := not_or.1 fun hmem => h (mem_cons.2 hmem)
    rw [foldl_cons, ih hrest, lookup_insertEvent_ne hfirst]

theorem lookup_foldl_insert (hnodup : (events.map (·.refName)).Nodup) (hmem : event ∈ events)
    (refs : RefMap) :
    (events.foldl insertEvent refs).lookup event.refName =
      event.newRaw.or (refs.lookup event.refName) := by
  induction events generalizing refs with
  | nil => cases hmem
  | cons first events ih =>
    obtain ⟨hfirst, hrest⟩ := List.nodup_cons.1 hnodup
    rw [foldl_cons]
    rcases mem_cons.1 hmem with rfl | hmem
    · rw [lookup_foldl_insert_of_not_mem hfirst, insertEvent]
      cases hnew : event.newRaw with
      | none => rfl
      | some target => exact AList.lookup_insert _
    · rw [ih hrest hmem, lookup_insertEvent_ne]
      intro heq
      exact hfirst (mem_map.2 ⟨event, hmem, heq⟩)

/-- The rows after the events of every name that changed. -/
theorem lookup_applyEvents (hnodup : (events.map (·.refName)).Nodup)
    (hnames : ∀ name, name ∈ events.map (·.refName) ↔ refs.lookup name ≠ after name)
    (hnew : ∀ event ∈ events, event.newRaw = after event.refName) (name : Text) :
    (applyEvents refs events).lookup name = after name := by
  show (events.foldl insertEvent _).lookup name = _
  by_cases hmem : name ∈ events.map (·.refName)
  · obtain ⟨event, hevent, rfl⟩ := mem_map.1 hmem
    rw [lookup_foldl_insert hnodup hevent, hnew event hevent, lookup_foldl_erase]
    cases hafter : after event.refName with
    | some target => rfl
    | none =>
      have hdeleted : event.refName ∈ (events.filter (·.newRaw = none)).map (·.refName) :=
        mem_map_of_mem (mem_filter.2 ⟨hevent, by
          rw [hnew event hevent, hafter]
          rfl⟩)
      rw [if_pos hdeleted]
      rfl
  · rw [lookup_foldl_insert_of_not_mem hmem, lookup_foldl_erase, if_neg]
    · exact of_not_not fun hne => hmem ((hnames name).2 hne)
    · intro hfiltered
      obtain ⟨event, hevent, rfl⟩ := mem_map.1 hfiltered
      exact hmem (mem_map_of_mem (mem_filter.1 hevent).1)

-- Publication

/-- The HEADs after a move. -/
def movedHeads (move : Option (Nat × Text)) (checkouts : List CheckoutRow) : List CheckoutRow :=
  match move with
  | some (id, newHead) =>
    checkouts.map fun row => if row.id = id then { row with head := newHead } else row
  | none => checkouts

/-- The tables that `publishEvents` leaves, counters of other readers apart. -/
structure Published (before : RefTables) (metadata : RefLogMetadata) (move : Option (Nat × Text))
    (direct : List RefLogEvent) (heads : List CheckoutRefLogEvent) (after : RefTables) : Prop where
  refs : after.refs = applyEvents before.refs direct
  checkouts : after.checkouts = movedHeads move before.checkouts
  reflog : after.reflog = pruneReflog (max 0 (metadata.timestamp - reflogRetentionSeconds))
    (direct.map (·.refName)) (before.reflog ++ direct)
  checkoutReflog : after.checkoutReflog =
    pruneCheckoutReflog (max 0 (metadata.timestamp - reflogRetentionSeconds))
      (heads.map (·.checkoutId)) (before.checkoutReflog ++ heads)
  nextOrdinal : after.nextOrdinal = before.nextOrdinal + direct.length + heads.length

variable {before after : RefTables}

theorem publishEvents_ok {move : Option (Nat × Text)}
    (h : publishEvents before metadata changed move direct heads = .ok after) :
    Published before metadata move direct heads after := by
  unfold publishEvents at h
  obtain ⟨moved, hmoved, h⟩ := bind_eq_ok.1 h
  obtain ⟨tracking, -, h⟩ := bind_eq_ok.1 h
  obtain ⟨namespaces, -, h⟩ := bind_eq_ok.1 h
  replace h := Fuel.after_check h
  cases h
  cases move with
  | none =>
    cases hmoved
    exact ⟨rfl, rfl, rfl, rfl, rfl⟩
  | some target =>
    obtain ⟨id, newHead⟩ := target
    unfold moveHead updateHead at hmoved
    replace hmoved := Fuel.after_check hmoved
    cases hmoved
    exact ⟨rfl, rfl, rfl, rfl, rfl⟩

/-- The move of the owner's HEAD, seen at every checkout. -/
theorem movedHeads_headMove (tables : RefTables) (owner : HeadOwner) (head : Option Text) :
    movedHeads (headMove tables owner head) tables.checkouts =
      tables.checkouts.map fun row => { row with head := checkoutNewHead owner head row } := by
  have hsame : ∀ row ∈ tables.checkouts, checkoutNewHead owner head row = row.head →
      { row with head := checkoutNewHead owner head row } = row := by
    intro row _ h
    rw [h]
  unfold headMove
  split
  · next id newHead =>
    split
    · apply map_congr_left
      intro row _
      unfold checkoutNewHead
      by_cases hid : row.id = id
      · rw [if_pos hid, if_pos (by rw [hid])]
        rfl
      · rw [if_neg hid, if_neg fun h => hid (HeadOwner.checkout.inj h).symm]
    · next hsettled =>
      refine (List.map_id' _).symm.trans (map_congr_left fun row hrow => ?_)
      refine (hsame row hrow ?_).symm
      unfold checkoutNewHead
      split
      · next howner =>
        rw [List.any_eq_true] at hsettled
        by_contra hne
        refine hsettled ⟨row, hrow, ?_⟩
        have hid := HeadOwner.checkout.inj howner
        simp only [hid, decide_true, Bool.true_and, decide_eq_true_eq]
        exact fun h => hne h.symm
      · rfl
  · next hnone =>
    refine (List.map_id' _).symm.trans (map_congr_left fun row hrow => ?_)
    refine (hsame row hrow ?_).symm
    unfold checkoutNewHead
    split
    · next howner =>
      cases head with
      | none => rfl
      | some newHead => exact absurd rfl (hnone _ _ howner)
    · rfl

-- A whole mutation

/-- What holds of the rows at all times. -/
structure RefTables.Valid (tables : RefTables) : Prop where
  names : ∀ name ∈ tables.refs, IsRefName name
  ids : (tables.checkouts.map (·.id)).Nodup
  ordinals : ∀ entry ∈ tables.reflog, entry.ordinal ≤ tables.nextOrdinal
  headOrdinals : ∀ entry ∈ tables.checkoutReflog, entry.event.ordinal ≤ tables.nextOrdinal

/-- The tables after a mutation that appended the given events. -/
structure Mutated (before : RefTables) (owner : HeadOwner) (mutation : RefMutation)
    (metadata : RefLogMetadata) (after : RefTables) (direct : List RefLogEvent)
    (heads : List CheckoutRefLogEvent) : Prop where
  refs : (fun name => after.refs.lookup name) =
    applied (fun name => before.refs.lookup name) mutation
  checkouts : after.checkouts = before.checkouts.map fun row =>
    { row with head := checkoutNewHead owner mutation.head row }
  /-- One event for each name whose raw value changed. -/
  once : (direct.map (·.refName)).Nodup
  names : ∀ name, name ∈ direct.map (·.refName) ↔
    before.refs.lookup name ≠ after.refs.lookup name
  logs : ∀ event ∈ direct, Logs (fun name => before.refs.lookup name)
    (fun name => after.refs.lookup name) metadata event (before.refs.lookup event.refName)
    (after.refs.lookup event.refName)
  /-- One event for each checkout whose HEAD changed. -/
  headLogs : List.Forall₂ (LogsHead (fun name => before.refs.lookup name)
      (fun name => after.refs.lookup name) metadata owner mutation.head)
    (before.checkouts.filter (headChanged (fun name => before.refs.lookup name)
      (fun name => after.refs.lookup name) owner mutation.head)) heads
  /-- The ordinals follow the last one used. -/
  ordinals : direct.map (·.ordinal) ++ heads.map (·.event.ordinal) =
    List.range' (before.nextOrdinal + 1) (direct.length + heads.length)
  next : after.nextOrdinal = before.nextOrdinal + direct.length + heads.length
  /-- What the logs have above that ordinal is what was appended; the rest was there. -/
  appended : after.reflog.filter (fun entry => before.nextOrdinal < entry.ordinal) = direct
  headsAppended :
    after.checkoutReflog.filter (fun entry => before.nextOrdinal < entry.event.ordinal) = heads
  kept : ∀ entry ∈ after.reflog, entry ∈ direct ∨ entry ∈ before.reflog
  headsKept : ∀ entry ∈ after.checkoutReflog, entry ∈ heads ∨ entry ∈ before.checkoutReflog

theorem Mutated.valid
    (h : Mutated before owner mutation metadata after direct heads) (hvalid : before.Valid)
    (hnames : ∀ name ∈ after.refs, IsRefName name) : after.Valid := by
  have hrange : ∀ n ∈ direct.map (·.ordinal) ++ heads.map (·.event.ordinal),
      n ≤ after.nextOrdinal := by
    intro n hn
    rw [h.ordinals, List.mem_range'_1] at hn
    rw [h.next]
    omega
  refine ⟨hnames, ?_, fun entry hentry => ?_, fun entry hentry => ?_⟩
  · rw [h.checkouts, List.map_map]
    exact hvalid.ids
  · rcases h.kept entry hentry with hmem | hmem
    · exact hrange _ (List.mem_append_left _ (mem_map_of_mem hmem))
    · exact Nat.le_trans (hvalid.ordinals entry hmem) (by rw [h.next]; omega)
  · rcases h.headsKept entry hentry with hmem | hmem
    · exact hrange _ (List.mem_append_right _ (mem_map_of_mem hmem))
    · exact Nat.le_trans (hvalid.headOrdinals entry hmem) (by rw [h.next]; omega)

theorem pruneReflog_subset {touched : List Text} {entries : List RefLogEvent}
    {entry : RefLogEvent} (h : entry ∈ pruneReflog cutoff touched entries) : entry ∈ entries :=
  (mem_filter.1 (mem_filter.1 h).1).1

theorem pruneCheckoutReflog_subset {touched : List Nat} {entry : CheckoutRefLogEvent}
    (h : entry ∈ pruneCheckoutReflog cutoff touched entries) : entry ∈ entries :=
  (mem_filter.1 (mem_filter.1 h).1).1

/-- A name that is there after the mutation was put or was there before. -/
theorem isRefName_of_after (hvalid : before.Valid) (hnorm : Normalizes mutation normalized)
    (h : afterTarget (fun name => before.refs.lookup name) normalized name ≠ none) :
    IsRefName name := by
  unfold afterTarget at h
  split at h
  · next target hput =>
    exact hnorm.puts_valid name (AList.lookup_isSome.1 (by rw [hput]; rfl))
  · split at h
    · exact absurd rfl h
    · exact hvalid.names name (AList.lookup_isSome.1 (Option.isSome_iff_ne_none.2 h))

/-- No event at all: nothing changed. -/
theorem mutated_nil (hvalid : before.Valid) (hrefs : (fun name => before.refs.lookup name) =
      applied (fun name => before.refs.lookup name) mutation)
    (hheads : ∀ row ∈ before.checkouts, headChanged (fun name => before.refs.lookup name)
      (fun name => before.refs.lookup name) owner mutation.head row = false) :
    Mutated before owner mutation metadata before [] [] where
  refs := hrefs
  checkouts := by
    refine (List.map_id' _).symm.trans (map_congr_left fun row hrow => ?_)
    have hsame := hheads row hrow
    simp only [headChanged, Bool.or_eq_false_iff, decide_eq_false_iff_not, not_not] at hsame
    rw [← hsame.1.1]
  once := nodup_nil
  names name := ⟨fun h => absurd h not_mem_nil, fun h => absurd rfl h⟩
  logs event h := nomatch h
  headLogs := by
    rw [filter_eq_nil_iff.2 fun row hrow => Bool.eq_false_iff.1 (hheads row hrow)]
    exact .nil
  ordinals := rfl
  next := rfl
  appended := filter_eq_nil_iff.2 fun entry hentry h =>
    absurd (of_decide_eq_true h) (Nat.not_lt.2 (hvalid.ordinals entry hentry))
  headsAppended := filter_eq_nil_iff.2 fun entry hentry h =>
    absurd (of_decide_eq_true h) (Nat.not_lt.2 (hvalid.headOrdinals entry hentry))
  kept entry h := .inr h
  headsKept entry h := .inr h

/-- Published events, each above the last ordinal. -/
theorem mutated_of_published (hvalid : before.Valid) (htime : 0 ≤ metadata.timestamp)
    (hpublished : Published before metadata (headMove before owner mutation.head)
      (numbered before.nextOrdinal direct)
      (numberedHeads (before.nextOrdinal + direct.length) heads) after)
    (honce : (direct.map (·.refName)).Nodup)
    (hnames : ∀ name, name ∈ direct.map (·.refName) ↔
      before.refs.lookup name ≠ applied (fun name => before.refs.lookup name) mutation name)
    (hlogs : ∀ event ∈ direct, Logs (fun name => before.refs.lookup name)
      (applied (fun name => before.refs.lookup name) mutation) metadata event
      (before.refs.lookup event.refName)
      (applied (fun name => before.refs.lookup name) mutation event.refName))
    (hheads : List.Forall₂ (LogsHead (fun name => before.refs.lookup name)
        (applied (fun name => before.refs.lookup name) mutation) metadata owner mutation.head)
      (before.checkouts.filter (headChanged (fun name => before.refs.lookup name)
        (applied (fun name => before.refs.lookup name) mutation) owner mutation.head)) heads) :
    Mutated before owner mutation metadata after (numbered before.nextOrdinal direct)
      (numberedHeads (before.nextOrdinal + direct.length) heads) := by
  have hlogs' : ∀ event ∈ numbered before.nextOrdinal direct,
      Logs (fun name => before.refs.lookup name)
        (applied (fun name => before.refs.lookup name) mutation) metadata event
        (before.refs.lookup event.refName)
        (applied (fun name => before.refs.lookup name) mutation event.refName) := by
    intro event hevent
    obtain ⟨pending, hpending, ordinal, rfl⟩ := mem_numbered hevent
    exact (hlogs pending hpending).renumber ordinal
  have hheads' := numberedHeads_ok (before.nextOrdinal + direct.length) hheads
  have hlookup : (fun name => after.refs.lookup name) =
      applied (fun name => before.refs.lookup name) mutation := by
    funext name
    rw [hpublished.refs]
    refine lookup_applyEvents ?_ ?_ (fun event hevent => (hlogs' event hevent).newRaw) name
    · rw [map_refName_numbered]
      exact honce
    · rw [map_refName_numbered]
      exact hnames
  have hids : ((numberedHeads (before.nextOrdinal + direct.length) heads).map
      (·.checkoutId)).Nodup := by
    rw [Forall₂.map_eq hheads' fun row entry h => h.checkoutId]
    exact hvalid.ids.sublist (List.filter_sublist.map _)
  -- the ordinals of all events, in one range
  have hordinals : (numbered before.nextOrdinal direct).map (·.ordinal) ++
      (numberedHeads (before.nextOrdinal + direct.length) heads).map (·.event.ordinal) =
      List.range' (before.nextOrdinal + 1) (direct.length + heads.length) := by
    rw [map_ordinal_numbered, map_ordinal_numberedHeads,
      Nat.add_right_comm before.nextOrdinal direct.length 1]
    exact List.range'_append_1
  have habove : ∀ n ∈ List.range' (before.nextOrdinal + 1) (direct.length + heads.length),
      before.nextOrdinal < n := by
    intro n hn
    rw [List.mem_range'_1] at hn
    omega
  rw [← hordinals] at habove
  refine
    { refs := hlookup
      checkouts := hpublished.checkouts.trans (movedHeads_headMove before owner mutation.head)
      once := by
        rw [map_refName_numbered]
        exact honce
      names := by
        intro name
        rw [map_refName_numbered, hnames, ← hlookup]
      logs := by
        intro event hevent
        have hlog := hlogs' event hevent
        rw [← hlookup] at hlog
        exact hlog
      headLogs := hlookup ▸ hheads'
      ordinals := ?_
      next := hpublished.nextOrdinal
      appended := ?_
      headsAppended := ?_
      kept := ?_
      headsKept := ?_ }
  · rw [hordinals]
    simp [numbered, numberedHeads]
  · rw [hpublished.reflog]
    refine filter_newest RefLogEvent.refName RefLogEvent.ordinal RefLogEvent.timestamp _ htime
      hvalid.ordinals (fun event hevent => ⟨?_, ?_⟩) ?_
    · exact habove _ (List.mem_append_left _ (mem_map_of_mem hevent))
    · exact (hlogs' event hevent).timestamp
    · rw [map_refName_numbered]
      exact honce
  · rw [hpublished.checkoutReflog]
    refine filter_newest CheckoutRefLogEvent.checkoutId (fun entry => entry.event.ordinal)
      (fun entry => entry.event.timestamp) _ htime
      hvalid.headOrdinals (fun entry hentry => ⟨?_, ?_⟩) hids
    · exact habove _ (List.mem_append_right _ (mem_map_of_mem hentry))
    · obtain ⟨row, -, hlog⟩ := Forall₂.exists_left hheads' hentry
      exact hlog.logs.timestamp
  · intro entry hentry
    rw [hpublished.reflog] at hentry
    exact (mem_append.1 (pruneReflog_subset hentry)).symm
  · intro entry hentry
    rw [hpublished.checkoutReflog] at hentry
    exact (mem_append.1 (pruneCheckoutReflog_subset hentry)).symm

theorem mutateNormalized_ok {changed : Bool}
    (hvalid : before.Valid) (hnorm : Normalizes mutation normalized)
    (htime : 0 ≤ metadata.timestamp)
    (h : mutateNormalized before owner normalized metadata = .ok (after, changed)) :
    ∃ direct heads, Mutated before owner mutation metadata after direct heads ∧
      (changed = false → after = before) := by
  unfold mutateNormalized at h
  replace h := Fuel.after_check h
  obtain ⟨direct, hdirect, h⟩ := bind_eq_ok.1 h
  obtain ⟨entries, hentries, h⟩ := bind_eq_ok.1 h
  obtain ⟨hmap, hlogs⟩ := pendingDirect_ok hdirect
  have hheads := pendingHeads_ok (fun name => mem_changedNames) hentries
  have hperm := List.mergeSort_perm (changedNames (fun name => before.refs.lookup name)
    (afterTarget (fun name => before.refs.lookup name) normalized) normalized)
    fun left right => decide (comparePaths left right ≠ .gt)
  have honce : (direct.map (·.refName)).Nodup := by
    rw [hmap]
    exact hperm.nodup_iff.2 (nodup_changedNames hnorm.deletes_nodup)
  have hnames : ∀ name, name ∈ direct.map (·.refName) ↔ before.refs.lookup name ≠
      afterTarget (fun name => before.refs.lookup name) normalized name := by
    intro name
    rw [hmap, hperm.mem_iff]
    exact mem_changedNames
  rw [hnorm.after] at hlogs hheads hnames
  rw [hnorm.head] at hheads h
  dsimp only at h
  split at h
  · next hempty =>
    -- no event: every name and every HEAD is as before
    cases h
    have hnone : direct = [] := List.length_eq_zero_iff.1 (by omega)
    have hnoHeads : entries.filterMap id = [] := List.length_eq_zero_iff.1 (by omega)
    have hrefs : (fun name => before.refs.lookup name) =
        applied (fun name => before.refs.lookup name) mutation := by
      funext name
      by_contra hne
      rw [hnone] at hnames
      exact absurd ((hnames name).2 hne) not_mem_nil
    rw [hnoHeads, ← hrefs, List.forall₂_nil_right_iff] at hheads
    refine ⟨[], [], mutated_nil hvalid hrefs fun row hrow => ?_, fun _ => rfl⟩
    exact Bool.eq_false_iff.2 (filter_eq_nil_iff.1 hheads row hrow)
  · replace h := Fuel.after_check h
    obtain ⟨published, hpublished, h⟩ := bind_eq_ok.1 h
    cases h
    exact ⟨_, _, mutated_of_published hvalid htime (publishEvents_ok hpublished) honce hnames hlogs
      hheads, fun h => (nomatch h)⟩

theorem mutateRefs_ok {changed : Bool} (hvalid : before.Valid)
    (h : mutateRefs before owner mutation metadata = .ok (after, changed)) :
    after.Valid ∧ ∃ direct heads, Mutated before owner mutation metadata after direct heads ∧
      (changed = false → after = before) := by
  unfold mutateRefs at h
  obtain ⟨normalized, hnormalized, h⟩ := bind_eq_ok.1 h
  obtain ⟨checked, hchecked, hrun⟩ := bind_eq_ok.1 h
  obtain ⟨heq, htimes, -⟩ := validateRefLogMetadata_ok hchecked
  rw [heq] at hrun
  have hnorm := normalizeRefMutation_ok hnormalized
  obtain ⟨direct, heads, hmutated, hsame⟩ := mutateNormalized_ok hvalid hnorm htimes.nonneg hrun
  refine ⟨hmutated.valid hvalid fun name hname => ?_, direct, heads, hmutated, hsame⟩
  apply isRefName_of_after hvalid hnorm
  rw [hnorm.after, ← hmutated.refs]
  exact Option.isSome_iff_ne_none.1 (AList.lookup_isSome.2 hname)

-- The store

/-- The refs of a repository. -/
structure RefStore where
  tables : RefTables
  valid : tables.Valid

/-- `mutateRefs` in its transaction. -/
def RefStore.mutate (store : RefStore) (owner : HeadOwner) (mutation : RefMutation)
    (metadata : RefLogMetadata) : Except GitError Bool × RefStore :=
  match h : mutateRefs store.tables owner mutation metadata with
  | .ok (tables, changed) => (.ok changed, ⟨tables, (mutateRefs_ok store.valid h).1⟩)
  | .error error => (.error error, store)

theorem RefStore.mutate_cases (store : RefStore) (owner : HeadOwner) (mutation : RefMutation)
    (metadata : RefLogMetadata) :
    (∃ error, mutateRefs store.tables owner mutation metadata = .error error ∧
      store.mutate owner mutation metadata = (.error error, store)) ∨
    ∃ changed, (store.mutate owner mutation metadata).1 = .ok changed ∧
      ∃ direct heads, Mutated store.tables owner mutation metadata
        (store.mutate owner mutation metadata).2.tables direct heads := by
  unfold RefStore.mutate
  split
  · next tables changed hrun =>
    obtain ⟨-, direct, heads, hmutated, -⟩ := mutateRefs_ok store.valid hrun
    exact .inr ⟨changed, rfl, direct, heads, hmutated⟩
  · next error hrun => exact .inl ⟨error, hrun, rfl⟩

/-- The ordinals that the logs of a repository have used. -/
def RefTables.usedOrdinals (tables : RefTables) : List Nat :=
  tables.reflog.map (·.ordinal) ++ tables.checkoutReflog.map (·.event.ordinal)

/-- A mutation throws and leaves everything as it was, or applies the deletes and then the puts and
    appends one event for each changed ref and each changed HEAD. -/
theorem mutate_atomic (store : RefStore) (owner : HeadOwner) (mutation : RefMutation)
    (metadata : RefLogMetadata) :
    ((∃ error, (store.mutate owner mutation metadata).1 = .error error) ∧
      (store.mutate owner mutation metadata).2 = store) ∨
    ∃ changed, (store.mutate owner mutation metadata).1 = .ok changed ∧
      ∃ direct heads, Mutated store.tables owner mutation metadata
          (store.mutate owner mutation metadata).2.tables direct heads ∧
        (direct.map (·.ordinal) ++ heads.map (·.event.ordinal)).Pairwise (· < ·) ∧
        ∀ ordinal ∈ direct.map (·.ordinal) ++ heads.map (·.event.ordinal),
          ordinal ∉ store.tables.usedOrdinals := by
  rcases store.mutate_cases owner mutation metadata with
    ⟨error, -, heq⟩ | ⟨changed, hok, direct, heads, hmutated⟩
  · rw [heq]
    exact .inl ⟨⟨error, rfl⟩, rfl⟩
  · refine .inr ⟨changed, hok, direct, heads, hmutated, ?_, fun ordinal hordinal hused => ?_⟩
    · rw [hmutated.ordinals]
      exact List.pairwise_lt_range'
    · rw [hmutated.ordinals, List.mem_range'_1] at hordinal
      rcases mem_append.1 hused with hused | hused
      · obtain ⟨entry, hentry, rfl⟩ := mem_map.1 hused
        have := store.valid.ordinals entry hentry
        omega
      · obtain ⟨entry, hentry, rfl⟩ := mem_map.1 hused
        have := store.valid.headOrdinals entry hentry
        omega

/-- Every ref that has another raw value or resolves to another object has an event. -/
def LogsEveryChange (before after : RefTables) : Prop :=
  ∀ name, (before.refs.lookup name ≠ after.refs.lookup name ∨
      resolveIn (fun name => before.refs.lookup name) (before.refs.lookup name) ≠
        resolveIn (fun name => after.refs.lookup name) (after.refs.lookup name)) →
    ∃ entry ∈ after.reflog, before.nextOrdinal < entry.ordinal ∧ entry.refName = name

def mainRef : Text := text "refs/heads/main"

def aliasRef : Text := text "refs/heads/alias"

def firstOid : Text := List.replicate 40 0x61

def secondOid : Text := List.replicate 40 0x62

/-- A branch and a symbolic ref to it. -/
def aliasStore : RefStore where
  tables :=
    { refs := ((∅ : RefMap).insert aliasRef (text "ref: refs/heads/main")).insert mainRef firstOid
      checkouts := [], reflog := [], checkoutReflog := [], nextOrdinal := 0, checkoutRevision := 0
      trackingRevisions := [], fetchGeneration := 0, fetchNamespaces := [], rootEpoch := 0 }
  valid := by
    refine ⟨fun name hname => ?_, nodup_nil, nofun,
      nofun⟩
    rcases AList.mem_insert _ |>.1 hname with rfl | hname
    · exact ⟨by decide, by decide, by decide +kernel, by decide +kernel⟩
    · rcases AList.mem_insert _ |>.1 hname with rfl | hname
      · exact ⟨by decide, by decide, by decide +kernel, by decide +kernel⟩
      · exact absurd hname (AList.notMem_empty name)

def moveMain : RefMutation :=
  { puts := [⟨mainRef, secondOid⟩], deletes := [], head := none, expected := none }

def testMetadata : RefLogMetadata :=
  { actor := none, timestamp := 0, timezoneOffset := 0, reason := text "update-ref" }

/-- The symbolic ref resolves to another object after its branch moved, and has no event. -/
theorem alias_moves_without_event :
    ¬ ∀ (store : RefStore) (owner : HeadOwner) (mutation : RefMutation) (metadata : RefLogMetadata)
      (changed : Bool), (store.mutate owner mutation metadata).1 = .ok changed →
        LogsEveryChange store.tables (store.mutate owner mutation metadata).2.tables := by
  intro hall
  have hok : (mutateRefs aliasStore.tables .repository moveMain testMetadata).isOk = true := by
    decide +kernel
  rcases aliasStore.mutate_cases .repository moveMain testMetadata with
    ⟨error, herror, -⟩ | ⟨changed, hchanged, direct, heads, hmutated⟩
  · rw [herror] at hok
    cases hok
  · have hlogged := hall aliasStore .repository moveMain testMetadata changed hchanged
    generalize (aliasStore.mutate .repository moveMain testMetadata).2.tables = after
      at hlogged hmutated
    have hraw : after.refs.lookup aliasRef = some (text "ref: refs/heads/main") :=
      (congrFun hmutated.refs aliasRef).trans (by decide +kernel)
    obtain ⟨entry, hentry, hordinal, hname⟩ := hlogged aliasRef (.inr (by
      rw [hraw, hmutated.refs]
      decide +kernel))
    have hmem : entry ∈ direct := by
      rw [← hmutated.appended]
      exact mem_filter.2 ⟨hentry, decide_eq_true hordinal⟩
    refine (hmutated.names aliasRef).1 (mem_map.2 ⟨entry, hmem, hname⟩) ?_
    rw [hraw]
    decide +kernel

end Kompjutr.Refs
