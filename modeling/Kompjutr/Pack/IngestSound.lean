/-
  Kompjutr.Pack.IngestSound

  The lease excludes.  Any number of owners reserve, renew, write, publish, fail and
  crash in any order while the clock does not go back (`Step`).  What carries the
  results is `World.Fenced`: a lease that is not the one the control row names has a
  smaller generation than the row and is already over by its owner's own record.
-/
import Mathlib.Logic.Function.Basic
import Mathlib.Logic.Relation
import Kompjutr.Lib.Run
import Kompjutr.Pack.Ingest

namespace Kompjutr.Pack.Ingest

open Fuel (bind_eq_ok ok_bind)

variable {row : PackIngestControl} {generation reclaimed size count : Nat}
  {renewed held : PackIngestLease}

variable {now nowMs : Int} {control : PackIngestControl} {packId owner o : Nat}
  {store after : IngestStore} {activePending : List Nat} {lease : PackIngestLease}

-- What each operation does to the control row

theorem requireIngestTime_ok (h : requireIngestTime now = .ok nowMs) : nowMs = now := by
  replace h := Fuel.after_check h
  exact (Except.ok.inj h).symm

theorem requireIngestControl_ok (h : requireIngestControl row = .ok control) : control = row := by
  replace h := Fuel.after_check h
  exact (Except.ok.inj h).symm

theorem owned_iff : control.owned generation packId = true ↔
      control.ownerGeneration = generation ∧ control.activePackId = some packId := by
  simp [PackIngestControl.owned]

/-- A live owner keeps the row as it is; otherwise nobody is left in it. -/
theorem settleOwner_ok {current : PackIngestControl} {live : Option Nat} {expired : List Nat}
    (h : settleOwner store nowMs = .ok (current, live, expired)) :
    current.ownerGeneration = store.control.ownerGeneration ∧
      current.lastPackId = store.control.lastPackId ∧
      (current.activePackId = none →
        store.control.activePackId = none ∨ ∃ e, store.control.expiresMs = some e ∧ e ≤ nowMs) := by
  unfold settleOwner at h
  split at h
  case h_1 hactive =>
    obtain rfl := congrArg Prod.fst (Except.ok.inj h)
    exact ⟨rfl, rfl, fun _ => .inl hactive⟩
  case h_2 packId hactive =>
    split at h
    case h_1 => cases h
    case h_2 expires hexpires =>
      split at h
      case h_1 => cases h
      case h_2 => cases h
      case h_3 =>
        split at h
        case isTrue =>
          obtain rfl := congrArg Prod.fst (Except.ok.inj h)
          exact ⟨rfl, rfl, fun hnone => .inl hnone⟩
        case isFalse hover =>
          rw [clearOwner, if_pos (owned_iff.2 ⟨rfl, hactive⟩)] at h
          obtain ⟨cleared, hcleared, h⟩ := bind_eq_ok.1 h
          obtain rfl := requireIngestControl_ok hcleared
          obtain rfl := congrArg Prod.fst (Except.ok.inj h)
          exact ⟨rfl, rfl, fun _ => .inr ⟨expires, hexpires, Int.not_lt.1 hover⟩⟩

theorem reclaimPendingRows_ok
    (h : reclaimPendingRows store activePending nowMs = .ok (after, reclaimed)) :
    after.control.ownerGeneration = store.control.ownerGeneration ∧
      after.control.lastPackId = store.control.lastPackId ∧
      (after.control.activePackId = none →
        store.control.activePackId = none ∨ ∃ e, store.control.expiresMs = some e ∧ e ≤ nowMs) := by
  obtain ⟨⟨current, live, expired⟩, hsettle, h⟩ := bind_eq_ok.1 h
  replace h := Fuel.after_check h
  obtain rfl := congrArg Prod.fst (Except.ok.inj h)
  exact settleOwner_ok hsettle

theorem nextPackId_ok
    (h : nextPackId store control = .ok packId) : control.lastPackId < packId := by
  replace h := Fuel.after_check h
  replace h := Fuel.after_check h
  cases h
  exact Nat.lt_succ_of_le (Nat.le_max_left _ _)

/-- A reservation finds nobody in the row, or somebody whose lease is over, and puts a
    new generation and a new pack there. -/
structure Granted (before after : PackIngestControl) (now : Int) (lease : PackIngestLease) :
    Prop where
  free : before.activePackId = none ∨ ∃ e, before.expiresMs = some e ∧ e ≤ now
  generation : lease.generation = before.ownerGeneration + 1
  packId : before.lastPackId < lease.packId
  after : after =
    { ownerGeneration := lease.generation, lastPackId := lease.packId,
      activePackId := some lease.packId, expiresMs := some lease.expiresMs }

theorem reservePending_ok {reserved : Nat → Except GitError Unit}
    (h : reservePending store activePending now reserved = .ok (after, lease, reclaimed)) :
    Granted store.control after.control now lease := by
  obtain ⟨nowMs, htime, h⟩ := bind_eq_ok.1 h
  obtain ⟨_, -, h⟩ := bind_eq_ok.1 h
  obtain ⟨⟨cleaned, n⟩, hreclaim, h⟩ := bind_eq_ok.1 h
  obtain ⟨hgeneration, hlast, hfree⟩ := reclaimPendingRows_ok hreclaim
  obtain ⟨⟨⟩, hidle, h⟩ := bind_eq_ok.1 h
  replace h := Fuel.after_check h
  obtain ⟨packId, hnext, h⟩ := bind_eq_ok.1 h
  obtain ⟨updated, hupdated, h⟩ := bind_eq_ok.1 h
  replace h := Fuel.after_check h
  replace h := Fuel.after_check h
  obtain ⟨rfl, heq⟩ := Prod.mk.inj (Except.ok.inj h)
  obtain ⟨rfl, -⟩ := Prod.mk.inj heq
  obtain rfl := requireIngestTime_ok htime
  refine ⟨hfree ?_, ?_, ?_, requireIngestControl_ok hupdated⟩
  · simpa using hidle
  · exact congrArg (· + 1) hgeneration
  · exact hlast ▸ nextPackId_ok hnext

/-- A renewal that writes finds its own generation and pack in the row, not yet over. -/
structure Extended (before after : PackIngestControl) (now : Int)
    (lease renewed : PackIngestLease) : Prop where
  owned : before.owned lease.generation lease.packId = true
  live : ∃ e, before.expiresMs = some e ∧ now < e ∧ e ≤ renewed.expiresMs
  after : after = { before with expiresMs := some renewed.expiresMs }
  token : renewed = { lease with expiresMs := renewed.expiresMs }

theorem extendOwner_some
    {extended : Int} (h : extendOwner control lease nowMs = some (row, extended)) :
    Extended control row nowMs lease { lease with expiresMs := extended } := by
  unfold extendOwner at h
  split at h
  case h_1 => cases h
  case h_2 expires hexpires =>
    split at h
    case isFalse => cases h
    case isTrue howned =>
      rw [Bool.and_eq_true, decide_eq_true_eq] at howned
      cases h
      exact ⟨howned.1, ⟨expires, hexpires, howned.2, le_max_left _ _⟩, rfl, rfl⟩

theorem renewIngestLease_ok (h : renewIngestLease store lease now = .ok (after, renewed)) :
    (now < lease.expiresMs ∧ after = store ∧ renewed = lease) ∨
      (Extended store.control after.control now lease renewed ∧
        after = { store with control := after.control }) := by
  obtain ⟨nowMs, htime, h⟩ := bind_eq_ok.1 h
  rw [requireIngestTime_ok htime] at h
  split at h
  case isTrue hearly =>
    cases h
    exact .inl ⟨by have : packIngestLeaseMs / 2 = 150000 := rfl; omega, rfl, rfl⟩
  case isFalse =>
    split at h
    case h_1 => cases h
    case h_2 row extended hextend =>
      obtain ⟨control, hcontrol, h⟩ := bind_eq_ok.1 h
      replace h := Fuel.after_check h
      cases h
      obtain rfl := requireIngestControl_ok hcontrol
      exact .inr ⟨extendOwner_some hextend, rfl⟩

/-- A release clears its own row or nothing. -/
theorem releaseIngestLease_ok
    {required : Bool} (h : releaseIngestLease store lease required = .ok after) :
    (store.control.owned lease.generation lease.packId = true ∧
      after = { store with control := store.control.cleared }) ∨
    (store.control.owned lease.generation lease.packId = false ∧ required = false ∧
      after = store) := by
  unfold releaseIngestLease clearOwner at h
  cases howned : store.control.owned lease.generation lease.packId with
  | true =>
    rw [howned, if_pos rfl] at h
    obtain ⟨control, hcontrol, h⟩ := bind_eq_ok.1 h
    obtain rfl := requireIngestControl_ok hcontrol
    exact .inl ⟨rfl, (Except.ok.inj h).symm⟩
  | false =>
    rw [howned, if_neg Bool.false_ne_true] at h
    obtain ⟨⟨⟩, hrequired, h⟩ := bind_eq_ok.1 h
    exact .inr ⟨rfl, reject_eq_ok.1 hrequired, (Except.ok.inj h).symm⟩

theorem completePack_some (h : completePack store packId size count = some after) :
    store.packState packId = some .pending ∧ after.control = store.control := by
  unfold completePack at h
  split at h
  case isTrue hpending =>
    cases h
    exact ⟨hpending, rfl⟩
  case isFalse => cases h

/-- Only the owner that the row names publishes, and it leaves the row to nobody. -/
theorem publishPack_ok {finish : Except GitError Unit}
    (h : publishPack store lease now size count finish = .ok after) :
    store.control.owned lease.generation lease.packId = true ∧
      after.control = store.control.cleared := by
  obtain ⟨⟨renewed, lease'⟩, hrenew, h⟩ := bind_eq_ok.1 h
  dsimp only at h
  split at h
  case h_1 => cases h
  case h_2 published hcomplete =>
    replace h := Fuel.after_check h
    have hcontrol := (completePack_some hcomplete).2
    obtain ⟨howned, rfl⟩ | ⟨-, hrequired, -⟩ := releaseIngestLease_ok h
    case inr => cases hrequired
    rw [hcontrol] at howned
    obtain ⟨-, rfl, rfl⟩ | ⟨hextended, -⟩ := renewIngestLease_ok hrenew
    · exact ⟨howned, congrArg PackIngestControl.cleared hcontrol⟩
    · refine ⟨hextended.owned, ?_⟩
      rw [hcontrol, hextended.after]
      rfl

theorem deleteCompletePacks_ok {packIds : List Nat}
    (h : deleteCompletePacks store packIds = .ok after) : after.control = store.control := by
  obtain ⟨ids, -, h⟩ := bind_eq_ok.1 h
  replace h := Fuel.after_check h
  cases h
  rfl

theorem discardPendingPack_ok
    (h : discardPendingPack store activePending packId generation = .ok after) :
    after.control = store.control := by
  obtain ⟨ids, -, h⟩ := bind_eq_ok.1 h
  replace h := Fuel.after_check h
  split at h
  case isTrue =>
    cases h
    rfl
  case isFalse =>
    cases h
    rfl

theorem writeChunk_ok
    (h : writeChunk store packId = .ok after) : after.control = store.control := by
  replace h := Fuel.after_check h
  cases h
  rfl

-- Owners in any order

/-- The repository, the clock, the lease that each running ingest has in memory, and every
    lease that was ever handed out, the newest first. -/
structure World where
  clock : Int
  store : IngestStore
  owners : Nat → Option PackIngestLease
  issued : List PackIngestLease

def World.initial (clock : Int) : World :=
  { clock, store := .initial, owners := fun _ => none, issued := [] }

/-- The owner has no ingest running any more. -/
def World.leave (w : World) (owner : Nat) (store : IngestStore) : World :=
  { w with store, owners := Function.update w.owners owner none }

/-- The owner has this lease in memory. -/
def World.hold (w : World) (owner : Nat) (store : IngestStore) (lease : PackIngestLease) : World :=
  { w with store, owners := Function.update w.owners owner (some lease) }

/-- The owner was handed a new lease. -/
def World.grant (w : World) (owner : Nat) (store : IngestStore) (lease : PackIngestLease) :
    World :=
  { w.hold owner store lease with issued := lease :: w.issued }

/-- One synchronous piece of one ingest, or of somebody else.  An operation that throws
    changes nothing; `#ingest` then leaves through its `finally`, which is `abandon`. -/
inductive Step : World → World → Prop where
  | tick {w : World} {clock : Int} (later : w.clock ≤ clock) : Step w { w with clock }
  | reserve {w : World} {owner : Nat} {activePending : List Nat}
      {reserved : Nat → Except GitError Unit} {store : IngestStore} {lease : PackIngestLease}
      {reclaimed : Nat} (idle : w.owners owner = none)
      (run : reservePending w.store activePending w.clock reserved =
        .ok (store, lease, reclaimed)) :
      Step w (w.grant owner store lease)
  | renew {w : World} {owner : Nat} {lease renewed : PackIngestLease} {store : IngestStore}
      (held : w.owners owner = some lease)
      (run : renewIngestLease w.store lease w.clock = .ok (store, renewed)) :
      Step w (w.hold owner store renewed)
  | write {w : World} {owner : Nat} {lease : PackIngestLease} {store : IngestStore}
      (held : w.owners owner = some lease)
      (run : writeChunk w.store lease.packId = .ok store) : Step w { w with store }
  | publish {w : World} {owner : Nat} {lease : PackIngestLease} {size count : Nat}
      {finish : Except GitError Unit} {store : IngestStore}
      (held : w.owners owner = some lease)
      (run : publishPack w.store lease w.clock size count finish = .ok store) :
      Step w (w.leave owner store)
  | abandon {w : World} {owner : Nat} {lease : PackIngestLease} {store : IngestStore}
      (held : w.owners owner = some lease)
      (run : releaseIngestLease w.store lease false = .ok store) : Step w (w.leave owner store)
  | crash {w : World} {owner : Nat} : Step w (w.leave owner w.store)
  | delete {w : World} {packIds : List Nat} {store : IngestStore}
      (run : deleteCompletePacks w.store packIds = .ok store) : Step w { w with store }
  | discard {w : World} {activePending : List Nat} {packId generation : Nat}
      {store : IngestStore}
      (run : discardPendingPack w.store activePending packId generation = .ok store) :
      Step w { w with store }

abbrev Steps : World → World → Prop := Relation.ReflTransGen Step

/-- What a run from a new repository comes to. -/
def Reachable (w : World) : Prop := ∃ clock, Steps (World.initial clock) w

/-- The control row names this lease. -/
def World.Owned (w : World) (lease : PackIngestLease) : Prop :=
  w.store.control.owned lease.generation lease.packId = true

/-- The lease is over, and the row has moved on. -/
def World.Over (w : World) (lease : PackIngestLease) : Prop :=
  lease.generation < w.store.control.ownerGeneration ∧ lease.expiresMs ≤ w.clock

/-- What holds in every reachable world. -/
structure World.Fenced (w : World) : Prop where
  increasing : w.issued.Pairwise fun newer older =>
    older.generation < newer.generation ∧ older.packId < newer.packId
  bounded : ∀ lease ∈ w.issued, lease.generation ≤ w.store.control.ownerGeneration ∧
    lease.packId ≤ w.store.control.lastPackId
  apart : ∀ {o o' lease lease'}, w.owners o = some lease → w.owners o' = some lease' →
    lease.generation = lease'.generation → o = o'
  fenced : ∀ {o lease}, w.owners o = some lease →
    (w.Owned lease ∧ ∃ e, w.store.control.expiresMs = some e ∧ lease.expiresMs ≤ e) ∨ w.Over lease

theorem initial_fenced (clock : Int) : (World.initial clock).Fenced where
  increasing := .nil
  bounded := nofun
  apart := fun h => nomatch h
  fenced := fun h => nomatch h

/-- The row is as it was, and nobody holds a lease that it did not hold. -/
structure Quiet (w w' : World) : Prop where
  control : w'.store.control = w.store.control
  clock : w.clock ≤ w'.clock
  owners : ∀ {o lease}, w'.owners o = some lease → w.owners o = some lease
  issued : w'.issued = w.issued

@[simp] theorem leave_owners {w : World} {owner o : Nat} {store : IngestStore}
    {lease : PackIngestLease} :
    (w.leave owner store).owners o = some lease ↔ o ≠ owner ∧ w.owners o = some lease := by
  by_cases h : o = owner
  · simp [World.leave, h]
  · simp [World.leave, h]

theorem hold_owners {w : World} {owner o : Nat} {store : IngestStore}
    {lease held : PackIngestLease} :
    (w.hold owner store held).owners o = some lease ↔
      (o = owner ∧ lease = held) ∨ (o ≠ owner ∧ w.owners o = some lease) := by
  by_cases h : o = owner
  · simp [World.hold, h, eq_comm]
  · simp [World.hold, h]

variable {w : World}

theorem grant_owners : (w.grant owner store held).owners o = some lease ↔
      (o = owner ∧ lease = held) ∨ (o ≠ owner ∧ w.owners o = some lease) :=
  @hold_owners w owner o store lease held

/-- What a step can do to the lease. -/
inductive Moved (w : World) : World → Prop where
  | quiet {w' : World} (quiet : Quiet w w') : Moved w w'
  | granted {owner : Nat} {store : IngestStore} {lease : PackIngestLease}
      (granted : Granted w.store.control store.control w.clock lease) :
      Moved w (w.grant owner store lease)
  | extended {owner : Nat} {store : IngestStore} {lease renewed : PackIngestLease}
      (held : w.owners owner = some lease)
      (extended : Extended w.store.control store.control w.clock lease renewed) :
      Moved w (w.hold owner store renewed)
  | cleared {owner : Nat} {store : IngestStore} {lease : PackIngestLease}
      (held : w.owners owner = some lease) (owned : w.Owned lease)
      (cleared : store.control = w.store.control.cleared) : Moved w (w.leave owner store)

theorem quiet_of_control (h : store.control = w.store.control) : Quiet w { w with store } where
  control := h
  clock := le_refl _
  owners := id
  issued := rfl

theorem quiet_leave (h : store.control = w.store.control) : Quiet w (w.leave owner store) where
  control := h
  clock := le_refl _
  owners := fun howner => (leave_owners.1 howner).2
  issued := rfl

variable {w' : World}

theorem step_moved (h : Step w w') : Moved w w' := by
  cases h with
  | tick later => exact .quiet ⟨rfl, later, id, rfl⟩
  | reserve idle run => exact .granted (reservePending_ok run)
  | renew held run =>
    obtain ⟨-, rfl, rfl⟩ | ⟨hextended, -⟩ := renewIngestLease_ok run
    · refine .quiet ⟨rfl, le_refl _, fun howner => ?_, rfl⟩
      obtain ⟨rfl, rfl⟩ | ⟨-, howner⟩ := hold_owners.1 howner
      · exact held
      · exact howner
    · exact .extended held hextended
  | write held run => exact .quiet (quiet_of_control (writeChunk_ok run))
  | publish held run =>
    obtain ⟨howned, hcleared⟩ := publishPack_ok run
    exact .cleared held howned hcleared
  | abandon held run =>
    obtain ⟨howned, rfl⟩ | ⟨-, -, rfl⟩ := releaseIngestLease_ok run
    · exact .cleared held howned rfl
    · exact .quiet (quiet_leave rfl)
  | crash => exact .quiet (quiet_leave rfl)
  | delete run => exact .quiet (quiet_of_control (deleteCompletePacks_ok run))
  | discard run => exact .quiet (quiet_of_control (discardPendingPack_ok run))

theorem Quiet.over (h : Quiet w w') (hover : w.Over lease) : w'.Over lease :=
  ⟨h.control ▸ hover.1, hover.2.trans h.clock⟩

theorem Quiet.fenced (h : Quiet w w') (hw : w.Fenced) : w'.Fenced where
  increasing := h.issued ▸ hw.increasing
  bounded := by
    rw [h.issued, h.control]
    exact hw.bounded
  apart := fun ho ho' => hw.apart (h.owners ho) (h.owners ho')
  fenced := by
    intro o lease ho
    obtain ⟨howned, hexpires⟩ | hover := hw.fenced (h.owners ho)
    · left
      rw [World.Owned, h.control]
      exact ⟨howned, hexpires⟩
    · exact .inr (h.over hover)

/-- Whoever had the row before a reservation is over. -/
theorem Granted.over (h : Granted w.store.control store.control w.clock lease) (hw : w.Fenced)
    (ho : w.owners o = some held) :
    held.generation ≤ w.store.control.ownerGeneration ∧ held.expiresMs ≤ w.clock := by
  obtain ⟨howned, e, hexpires, hle⟩ | hover := hw.fenced ho
  · obtain ⟨hgeneration, hactive⟩ := owned_iff.1 howned
    refine ⟨hgeneration.ge, ?_⟩
    obtain hnone | ⟨e', hexpires', hpast⟩ := h.free
    · rw [hactive] at hnone
      cases hnone
    · rw [hexpires] at hexpires'
      cases hexpires'
      exact hle.trans hpast
  · exact ⟨hover.1.le, hover.2⟩

theorem Granted.fenced (h : Granted w.store.control store.control w.clock lease) (hw : w.Fenced) :
    (w.grant owner store lease).Fenced where
  increasing := by
    refine List.pairwise_cons.2 ⟨fun older hmem => ?_, hw.increasing⟩
    obtain ⟨hgeneration, hpack⟩ := hw.bounded older hmem
    exact ⟨h.generation ▸ Nat.lt_succ_of_le hgeneration, hpack.trans_lt h.packId⟩
  bounded := by
    intro old hmem
    change old.generation ≤ store.control.ownerGeneration ∧ old.packId ≤ store.control.lastPackId
    rw [h.after]
    obtain rfl | hmem := List.mem_cons.1 hmem
    · exact ⟨le_refl _, le_refl _⟩
    · obtain ⟨hgeneration, hpack⟩ := hw.bounded old hmem
      exact ⟨h.generation ▸ Nat.le_succ_of_le hgeneration, (hpack.trans_lt h.packId).le⟩
  apart := by
    -- the new generation is larger than every one that is held
    have hnew : ∀ {o held}, w.owners o = some held → held.generation ≠ lease.generation := by
      intro o held ho
      have := (h.over hw ho).1
      rw [h.generation]
      omega
    intro o o' held held' ho ho' heq
    obtain ⟨rfl, rfl⟩ | ⟨-, hold⟩ := grant_owners.1 ho
    · obtain ⟨rfl, rfl⟩ | ⟨-, hold'⟩ := grant_owners.1 ho'
      · rfl
      · exact absurd heq.symm (hnew hold')
    · obtain ⟨rfl, rfl⟩ | ⟨-, hold'⟩ := grant_owners.1 ho'
      · exact absurd heq (hnew hold)
      · exact hw.apart hold hold' heq
  fenced := by
    intro o held ho
    change (store.control.owned held.generation held.packId = true ∧
      ∃ e, store.control.expiresMs = some e ∧ held.expiresMs ≤ e) ∨
      (held.generation < store.control.ownerGeneration ∧ held.expiresMs ≤ w.clock)
    rw [h.after]
    obtain ⟨rfl, rfl⟩ | ⟨-, ho⟩ := grant_owners.1 ho
    · exact .inl ⟨owned_iff.2 ⟨rfl, rfl⟩, _, rfl, le_refl _⟩
    · obtain ⟨hgeneration, hpast⟩ := h.over hw ho
      exact .inr ⟨h.generation ▸ Nat.lt_succ_of_le hgeneration, hpast⟩

theorem Extended.fenced (held : w.owners owner = some lease)
    (h : Extended w.store.control store.control w.clock lease renewed) (hw : w.Fenced) :
    (w.hold owner store renewed).Fenced := by
  have hgeneration : renewed.generation = lease.generation := h.token ▸ rfl
  have hpack : renewed.packId = lease.packId := h.token ▸ rfl
  -- the owner's token is the one it had, so every holder after the step was one before it
  have hold : ∀ {o l}, (w.hold owner store renewed).owners o = some l →
      ∃ l', w.owners o = some l' ∧ l'.generation = l.generation := by
    intro o l ho
    obtain ⟨rfl, rfl⟩ | ⟨-, ho⟩ := hold_owners.1 ho
    · exact ⟨lease, held, hgeneration.symm⟩
    · exact ⟨l, ho, rfl⟩
  refine ⟨hw.increasing, ?_, ?_, ?_⟩
  · intro old hmem
    change old.generation ≤ store.control.ownerGeneration ∧ old.packId ≤ store.control.lastPackId
    rw [h.after]
    exact hw.bounded old hmem
  · intro o o' l l' ho ho' heq
    obtain ⟨before, hbefore, hsame⟩ := hold ho
    obtain ⟨before', hbefore', hsame'⟩ := hold ho'
    exact hw.apart hbefore hbefore' (by rw [hsame, hsame', heq])
  · intro o l ho
    change (store.control.owned l.generation l.packId = true ∧
      ∃ e, store.control.expiresMs = some e ∧ l.expiresMs ≤ e) ∨
      (l.generation < store.control.ownerGeneration ∧ l.expiresMs ≤ w.clock)
    rw [h.after]
    obtain ⟨-, rfl⟩ | ⟨hne, ho⟩ := hold_owners.1 ho
    · left
      rw [hgeneration, hpack]
      exact ⟨h.owned, _, rfl, le_refl _⟩
    · obtain ⟨howned, -⟩ | hover := hw.fenced ho
      · -- the row names one generation only
        have hsame : l.generation = lease.generation :=
          (owned_iff.1 howned).1.symm.trans (owned_iff.1 h.owned).1
        exact absurd (hw.apart ho held hsame) hne
      · exact .inr hover

theorem cleared_fenced (held : w.owners owner = some lease) (owned : w.Owned lease)
    (hcleared : store.control = w.store.control.cleared) (hw : w.Fenced) :
    (w.leave owner store).Fenced := by
  refine ⟨hw.increasing, ?_, ?_, ?_⟩
  · intro old hmem
    change old.generation ≤ store.control.ownerGeneration ∧ old.packId ≤ store.control.lastPackId
    rw [hcleared]
    exact hw.bounded old hmem
  · intro o o' l l' ho ho'
    exact hw.apart (leave_owners.1 ho).2 (leave_owners.1 ho').2
  · intro o l ho
    obtain ⟨hne, ho⟩ := leave_owners.1 ho
    right
    change l.generation < store.control.ownerGeneration ∧ l.expiresMs ≤ w.clock
    rw [hcleared]
    obtain ⟨howned, -⟩ | hover := hw.fenced ho
    · have hsame : l.generation = lease.generation :=
        (owned_iff.1 howned).1.symm.trans (owned_iff.1 owned).1
      exact absurd (hw.apart ho held hsame) hne
    · exact hover

theorem Moved.fenced (h : Moved w w') (hw : w.Fenced) : w'.Fenced := by
  cases h with
  | quiet h => exact h.fenced hw
  | granted h => exact h.fenced hw
  | extended held h => exact h.fenced held hw
  | cleared held owned h => exact cleared_fenced held owned h hw

theorem Steps.fenced (h : Steps w w') (hw : w.Fenced) : w'.Fenced := by
  induction h with
  | refl => exact hw
  | tail _ hstep ih => exact (step_moved hstep).fenced ih

theorem Reachable.fenced (h : Reachable w) : w.Fenced := by
  obtain ⟨clock, hsteps⟩ := h
  exact hsteps.fenced (initial_fenced clock)

-- Generations only grow

theorem Moved.generation_le (h : Moved w w') :
    w.store.control.ownerGeneration ≤ w'.store.control.ownerGeneration := by
  cases h with
  | quiet h => exact h.control.symm ▸ le_refl _
  | granted h =>
    rw [World.grant, World.hold, h.after, h.generation]
    exact Nat.le_succ _
  | extended held h =>
    rw [World.hold, h.after]
  | cleared held owned h =>
    rw [World.leave, h]
    exact le_refl _

theorem Steps.generation_le (h : Steps w w') :
    w.store.control.ownerGeneration ≤ w'.store.control.ownerGeneration := by
  induction h with
  | refl => exact le_refl _
  | tail _ hstep ih => exact ih.trans (step_moved hstep).generation_le

/-- The owner runs an ingest whose lease is not over: by its own record, or by the row. -/
def World.Live (w : World) (owner : Nat) : Prop :=
  ∃ lease, w.owners owner = some lease ∧
    (w.clock < lease.expiresMs ∨
      (w.Owned lease ∧ ∃ e, w.store.control.expiresMs = some e ∧ w.clock < e))

/-- A live owner is the one that the control row names. -/
theorem World.Live.owned (h : w.Live owner) (hw : w.Fenced) :
    ∃ lease, w.owners owner = some lease ∧ w.Owned lease := by
  obtain ⟨lease, held, hrecord | ⟨howned, -⟩⟩ := h
  · obtain ⟨howned, -⟩ | hover := hw.fenced held
    · exact ⟨lease, held, howned⟩
    · exact absurd hrecord (Int.not_lt.2 hover.2)
  · exact ⟨lease, held, howned⟩

theorem World.Live.unique {o' : Nat} (h : w.Live o) (h' : w.Live o') (hw : w.Fenced) : o = o' := by
  obtain ⟨lease, held, howned⟩ := h.owned hw
  obtain ⟨lease', held', howned'⟩ := h'.owned hw
  refine hw.apart held held' ?_
  exact (owned_iff.1 howned).1.symm.trans (owned_iff.1 howned').1

/-- A lease that the row has moved on from is never named by it again. -/
theorem World.Over.not_owned {lease' : PackIngestLease} (h : w.Over lease)
    (hsteps : Steps w w') (hsame : lease'.generation = lease.generation) : ¬ w'.Owned lease' := by
  intro howned
  have hle := hsteps.generation_le
  have heq := (owned_iff.1 howned).1
  have hlt := h.1
  omega

theorem renew_fails (hw : w.Fenced) (held : w.owners owner = some lease) (hnot : ¬ w.Owned lease) :
    ∃ e, renewIngestLease w.store lease w.clock = .error e := by
  cases hrun : renewIngestLease w.store lease w.clock with
  | error e => exact ⟨e, rfl⟩
  | ok out =>
    exfalso
    obtain ⟨hearly, -⟩ | ⟨hextended, -⟩ := renewIngestLease_ok hrun
    · -- the early return needs a lease that is not over by its owner's own record
      obtain ⟨howned, -⟩ | hover := hw.fenced held
      · exact hnot howned
      · exact absurd hearly (Int.not_lt.2 hover.2)
    · exact hnot hextended.owned

theorem publish_fails
    (hnot : ¬ store.control.owned lease.generation lease.packId = true) (size count : Nat)
    (finish : Except GitError Unit) :
    ∃ e, publishPack store lease now size count finish = .error e := by
  cases hrun : publishPack store lease now size count finish with
  | error e => exact ⟨e, rfl⟩
  | ok after => exact absurd (publishPack_ok hrun).1 hnot

theorem release_frame (hnot : ¬ store.control.owned lease.generation lease.packId = true) :
    releaseIngestLease store lease false = .ok store := by
  rw [releaseIngestLease, clearOwner, if_neg hnot]
  rfl

theorem World.Fenced.nodup (h : w.Fenced) {f : PackIngestLease → Nat}
    (hf : ∀ newer older : PackIngestLease,
      older.generation < newer.generation ∧ older.packId < newer.packId → f older < f newer) :
    (w.issued.map f).Nodup := by
  refine List.pairwise_map.2 (h.increasing.imp fun {newer older} hlt => ?_)
  exact (hf newer older hlt).ne'

/-- In every world that a run comes to, at most one owner has a live lease; an owner that the
    control row does not name can from then on neither renew nor publish, and its release
    changes nothing; and no generation and no pack id was ever handed out twice. -/
theorem ingest_lease_excludes {w : World} (h : Reachable w) :
    (∀ o o', w.Live o → w.Live o' → o = o') ∧
    (∀ o lease, w.owners o = some lease → ¬ w.Owned lease →
      ∀ w' lease', Steps w w' → w'.owners o = some lease' →
        lease'.generation = lease.generation →
        (∃ e, renewIngestLease w'.store lease' w'.clock = .error e) ∧
        (∀ size count finish,
          ∃ e, publishPack w'.store lease' w'.clock size count finish = .error e) ∧
        releaseIngestLease w'.store lease' false = .ok w'.store) ∧
    (w.issued.map (·.generation)).Nodup ∧ (w.issued.map (·.packId)).Nodup := by
  have hw := h.fenced
  refine ⟨fun o o' hlive hlive' => hlive.unique hlive' hw, ?_, hw.nodup fun _ _ => And.left,
    hw.nodup fun _ _ => And.right⟩
  intro o lease held hnot w' lease' hsteps held' hsame
  have hover : w.Over lease := (hw.fenced held).resolve_left fun howned => hnot howned.1
  have hnot' := hover.not_owned hsteps hsame
  exact ⟨renew_fails (hsteps.fenced hw) held' hnot', publish_fails hnot', release_frame hnot'⟩

/-- The lease of the first reservation of a repository, made at time 0. -/
def firstLease : PackIngestLease := { generation := 1, packId := 1, expiresMs := 300000 }

/-- The lease of whoever takes over from it when it is over. -/
def secondLease : PackIngestLease := { generation := 2, packId := 2, expiresMs := 600000 }

/-- The store in which the first reservation, or the second, is the active one. -/
def reservedStore (lease : PackIngestLease) (created : Int) : IngestStore :=
  { control := { ownerGeneration := lease.generation, lastPackId := lease.packId,
                 activePackId := some lease.packId, expiresMs := some lease.expiresMs }
    packs := [{ packId := lease.packId, size := 0, count := 0, state := .pending, created }]
    data := [] }

def firstReserved : World := (World.initial 0).grant 0 (reservedStore firstLease 0) firstLease

/-- The first owner still runs when the second one has reserved. -/
def takenOver : World :=
  World.grant { firstReserved with clock := 300000 } 1 (reservedStore secondLease 300000) secondLease

theorem takenOver_reachable : Reachable takenOver := by
  have hfirst : reservePending .initial [] 0 (fun _ => .ok ()) =
      .ok (reservedStore firstLease 0, firstLease, 0) := by decide +kernel
  have hsecond : reservePending (reservedStore firstLease 0) [] 300000 (fun _ => .ok ()) =
      .ok (reservedStore secondLease 300000, secondLease, 1) := by decide +kernel
  have hreserve : Step (World.initial 0) firstReserved := .reserve rfl hfirst
  have htick : Step firstReserved { firstReserved with clock := 300000 } :=
    .tick (by decide)
  have htake : Step { firstReserved with clock := 300000 } takenOver := .reserve rfl hsecond
  exact ⟨0, .tail (.tail (.single hreserve) htick) htake⟩

/-- The owner that was taken over is fenced. -/
theorem takenOver_fences_first :
    takenOver.owners 0 = some firstLease ∧
      (∃ e, renewIngestLease takenOver.store firstLease takenOver.clock = .error e) ∧
      (takenOver.issued.map (·.packId)).Nodup :=
  ⟨rfl, ((ingest_lease_excludes takenOver_reachable).2.1 0 firstLease rfl Bool.false_ne_true takenOver
      firstLease .refl rfl rfl).1, (ingest_lease_excludes takenOver_reachable).2.2.2⟩

end Kompjutr.Pack.Ingest
