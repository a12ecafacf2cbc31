/-
  Kompjutr.Pack.Ingest

  The lease under which one pack at a time is ingested
  (`store/pack/lifecycle/lifecycle-ingest.ts`, `lifecycle-delete.ts`, `ingest.ts`).

  One control row names the pack that is being ingested, the generation of its owner
  and the time at which its lease expires.  Every statement of the source that writes
  the row matches the generation and the pack id first; each function here is one such
  statement, or one transaction of them, from the store before to the store after.
-/
import Mathlib.Data.List.Dedup
import Kompjutr.Common.Base

namespace Kompjutr.Pack.Ingest

def maxPackDeleteBatch : Nat := 48

def packIngestLeaseMs : Int := 5 * 60 * 1000

/-- The row of `git_pack_ingest_control`. -/
structure PackIngestControl where
  ownerGeneration : Nat
  lastPackId : Nat
  activePackId : Option Nat
  expiresMs : Option Int
  deriving DecidableEq

/-- What an owner keeps in memory while its ingest runs. -/
structure PackIngestLease where
  generation : Nat
  packId : Nat
  expiresMs : Int
  deriving DecidableEq

inductive PackState where
  | pending
  | complete
  deriving DecidableEq

/-- A row of `git_pack_meta`. -/
structure PackMeta where
  packId : Nat
  size : Nat
  count : Nat
  state : PackState
  created : Int
  deriving DecidableEq

/-- The tables of one repository that the lease is about; of `git_pack_data` only the
    pack that each chunk belongs to. -/
structure IngestStore where
  control : PackIngestControl
  packs : List PackMeta
  data : List Nat
  deriving DecidableEq

/-- A repository as it is created. -/
def IngestStore.initial : IngestStore :=
  { control := { ownerGeneration := 0, lastPackId := 0, activePackId := none, expiresMs := none },
    packs := [], data := [] }

-- The checks of what is read

def requireIngestTime (now : Int) : Except GitError Int := do
  reject (!isSafeInteger now || now < 0 || maxSafeInteger - packIngestLeaseMs < now)
    (rangeError "pack ingest time must be a bounded non-negative integer")
  return now

def requireIngestControl (row : PackIngestControl) : Except GitError PackIngestControl := do
  reject (!isSafeInteger row.ownerGeneration || !isSafeInteger row.lastPackId ||
      row.activePackId.any (fun packId => !isSafeInteger packId || row.lastPackId < packId) ||
      row.expiresMs.any (fun expires => !isSafeInteger expires || expires < 0) ||
      row.activePackId.isNone != row.expiresMs.isNone ||
      (row.activePackId.isSome && row.ownerGeneration < 1))
    (corrupt "pack ingest control is invalid")
  return row

/-- `WHERE owner_generation = ? AND active_pack_id = ?`. -/
def PackIngestControl.owned (control : PackIngestControl) (generation packId : Nat) : Bool :=
  control.ownerGeneration = generation && control.activePackId = some packId

/-- `SET active_pack_id = NULL, expires_ms = NULL`. -/
def PackIngestControl.cleared (control : PackIngestControl) : PackIngestControl :=
  { control with activePackId := none, expiresMs := none }

/-- The statement that clears the row of one owner; `none` when no row matched. -/
def clearOwner (control : PackIngestControl) (generation packId : Nat) :
    Option PackIngestControl :=
  if control.owned generation packId then some control.cleared else none

-- Deleting packs

def deletePacks (store : IngestStore) (ids : List Nat) : IngestStore :=
  { store with
    packs := store.packs.filter fun row => row.packId ∉ ids
    data := store.data.filter fun packId => packId ∉ ids }

def IngestStore.packState (store : IngestStore) (packId : Nat) : Option PackState :=
  (store.packs.find? (·.packId = packId)).map (·.state)

def requirePackId (packId : Nat) : Except GitError Unit :=
  reject (!isSafeInteger packId) (rangeError "pack id must be a non-negative safe integer")

/-- `uniquePackIds` of `shared.ts`. -/
def uniquePackIds (packIds : List Nat) (limit : Nat) : Except GitError (List Nat) := do
  reject (limit < packIds.length)
    { code := "E2BIG", message := "pack batch exceeds " ++ toString limit ++ " inputs" }
  packIds.foldlM (fun unique packId => do
    requirePackId packId
    reject (packId ∈ unique) (rangeError ("duplicate pack id " ++ toString packId))
    return unique ++ [packId]) []

def deleteCompletePacks (store : IngestStore) (packIds : List Nat) :
    Except GitError IngestStore := do
  let ids ← uniquePackIds packIds maxPackDeleteBatch
  let rows := store.packs.filter (·.packId ∈ ids)
  (rows.find? (·.state ≠ .complete)).forM fun row =>
    throw { code := "EBUSY", message := "pack " ++ toString row.packId ++ " is still pending" }
  return deletePacks store (rows.map (·.packId))

/-- Discards the reservation that was made last, once it is released. -/
def discardPendingPack (store : IngestStore) (activePending : List Nat)
    (packId generation : Nat) : Except GitError IngestStore := do
  let _ ← uniquePackIds [packId] 1
  reject (!isSafeInteger generation || generation < 1)
    { code := "EINVAL", message := "invalid pending pack reservation generation" }
  if store.packState packId = some .pending && store.control.ownerGeneration = generation &&
      store.control.lastPackId = packId && store.control.activePackId = none &&
      packId ∉ activePending then
    return deletePacks store [packId]
  else return store

-- Reservation

/-- The control row after an expired owner was cleared, the pack that is still live, and
    the pack that was not. -/
def settleOwner (store : IngestStore) (nowMs : Int) :
    Except GitError (PackIngestControl × Option Nat × List Nat) :=
  match store.control.activePackId with
  | none => return (store.control, none, [])
  | some packId =>
    match store.control.expiresMs with
    | none => throw (corrupt "pack ingest lease expiry is missing")
    | some expires =>
      match store.packState packId with
      | none => throw (corrupt "active pack ingest identity is missing")
      | some .complete => throw (corrupt "active ordinary pack ingest ownership is invalid")
      | some .pending =>
        if nowMs < expires then return (store.control, some packId, [])
        else
          match clearOwner store.control store.control.ownerGeneration packId with
          | none => throw (corrupt "expired pack ingest lease changed")
          | some cleared => do
            let current ← requireIngestControl cleared
            return (current, none, [packId])

/-- The packs that nobody completes: neither complete, nor live, nor of this process. -/
def pendingIds (store : IngestStore) (live : Option Nat) (activePending : List Nat) : List Nat :=
  let rows := store.packs.filter fun row =>
    row.state ≠ .complete && live ≠ some row.packId && row.packId ∉ activePending
  ((rows.map (·.packId)).mergeSort).take (maxPackDeleteBatch + 1)

/-- The packs with data and no row. -/
def orphanIds (store : IngestStore) : List Nat :=
  let rows := store.data.filter fun packId => store.packState packId = none
  (rows.dedup.mergeSort).take (maxPackDeleteBatch + 1)

/-- `#reclaimPendingRows`; `activePending` is what this process has in hand. -/
def reclaimPendingRows (store : IngestStore) (activePending : List Nat) (nowMs : Int) :
    Except GitError (IngestStore × Nat) := do
  let (current, live, expired) ← settleOwner store nowMs
  let ids := (expired ++ pendingIds store live activePending ++ orphanIds store).dedup
  reject (maxPackDeleteBatch < ids.length)
    { code := "E2BIG", message :=
        "pending pack cleanup exceeds " ++ toString maxPackDeleteBatch ++ " packs" }
  return (deletePacks { store with control := current } ids, ids.length)

/-- `#nextPackId`. -/
def nextPackId (store : IngestStore) (control : PackIngestControl) : Except GitError Nat := do
  let latest : Option Nat := (store.packs.map (·.packId)).max?
  reject (latest.any fun packId => !isSafeInteger packId)
    (corrupt "pack id allocation state is invalid")
  let last := max control.lastPackId (latest.getD 0)
  reject (maxSafeInteger == last) { code := "E2BIG", message := "pack id allocation is exhausted" }
  return last + 1

/-- `reserved` stands for the hook of the caller. -/
def reservePending (store : IngestStore) (activePending : List Nat) (now : Int)
    (reserved : Nat → Except GitError Unit) :
    Except GitError (IngestStore × PackIngestLease × Nat) := do
  let nowMs ← requireIngestTime now
  let _ ← requireIngestControl store.control
  let (cleaned, reclaimed) ← reclaimPendingRows store activePending nowMs
  let control := cleaned.control
  reject control.activePackId.isSome { code := "EBUSY", message := "pack ingest is active" }
  reject (maxSafeInteger == control.ownerGeneration)
    { code := "E2BIG", message := "pack ingest generation is exhausted" }
  let packId ← nextPackId cleaned control
  let generation := control.ownerGeneration + 1
  let expiresMs := nowMs + packIngestLeaseMs
  let updated ← requireIngestControl
    { ownerGeneration := generation, lastPackId := packId, activePackId := some packId,
      expiresMs := some expiresMs }
  reject (updated.lastPackId ≠ packId) (corrupt "pack ingest allocation was not recorded")
  reserved packId
  let row := { packId, size := 0, count := 0, state := PackState.pending, created := nowMs }
  return ({ cleaned with control := updated, packs := cleaned.packs ++ [row] },
    { generation, packId, expiresMs }, reclaimed)

-- The life of a lease

/-- The statement of a renewal; `none` when no row matched. -/
def extendOwner (control : PackIngestControl) (lease : PackIngestLease) (nowMs : Int) :
    Option (PackIngestControl × Int) :=
  match control.expiresMs with
  | none => none
  | some expires =>
    if control.owned lease.generation lease.packId && nowMs < expires then
      let extended := max expires (nowMs + packIngestLeaseMs)
      some ({ control with expiresMs := some extended }, extended)
    else none

/-- The row is left alone until half of the lease is over. -/
def renewIngestLease (store : IngestStore) (lease : PackIngestLease) (now : Int) :
    Except GitError (IngestStore × PackIngestLease) := do
  let nowMs ← requireIngestTime now
  if nowMs < lease.expiresMs - packIngestLeaseMs / 2 then return (store, lease)
  else
    match extendOwner store.control lease nowMs with
    | none => throw { code := "ESTALE", message := "pack ingest ownership expired" }
    | some (row, extended) => do
      let control ← requireIngestControl row
      reject (!control.owned lease.generation lease.packId || extended ≤ nowMs)
        (corrupt "pack ingest lease renewal returned an invalid owner")
      return ({ store with control }, { lease with expiresMs := extended })

def releaseIngestLease (store : IngestStore) (lease : PackIngestLease) (required : Bool) :
    Except GitError IngestStore :=
  match clearOwner store.control lease.generation lease.packId with
  | none => do
    reject required { code := "ESTALE", message := "pack ingest ownership changed" }
    return store
  | some row => do
    let control ← requireIngestControl row
    return { store with control }

/-- The chunk rows refer to the pack's row. -/
def writeChunk (store : IngestStore) (packId : Nat) : Except GitError IngestStore := do
  reject (store.packState packId = none)
    { code := "SQLITE_CONSTRAINT", message := "FOREIGN KEY constraint failed" }
  return { store with data := packId :: store.data }

/-- `SET state = 'complete' WHERE state = 'pending'`; `none` when no row matched. -/
def completePack (store : IngestStore) (packId size count : Nat) : Option IngestStore :=
  if store.packState packId = some .pending then
    some { store with packs := store.packs.map fun row =>
      if row.packId = packId then { row with size, count, state := .complete } else row }
  else none

/-- The transaction that ends `#ingest`.  `finish` stands for what it does to other
    tables: the audit of the membership, the commit graph, the connectivity check and
    the hook of the caller. -/
def publishPack (store : IngestStore) (lease : PackIngestLease) (now : Int) (size count : Nat)
    (finish : Except GitError Unit) : Except GitError IngestStore := do
  let (renewed, lease) ← renewIngestLease store lease now
  match completePack renewed lease.packId size count with
  | none =>
    throw { code := "ESTALE", message := "pack ingest ownership changed before publication" }
  | some published => do
    finish
    releaseIngestLease published lease true

end Kompjutr.Pack.Ingest
