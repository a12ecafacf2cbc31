/-
  Kompjutr.Pack.Resolver

  `PackObjectResolver` of `store/pack/read/read-resolver.ts`: a batch of object
  ids is resolved over the graph of their delta chains, with the object cache in
  between.  What is kept of a chunk cursor is its outcome: the bytes an entry
  points to are `payload`.
-/
import Kompjutr.Common.Lru
import Kompjutr.Pack.Resolve
import Mathlib.Data.List.Dedup

namespace Kompjutr.Pack

open Objects

def maxDeltaDepthLimit : Nat := 4095

def maxPackBlobGraphEntries : Nat := maxDeltaDepthLimit + 1

def maxPackBlobInputs : Nat := 4096

/-- The rows of `git_pack_entries` in the order of their key, and which packs are complete. -/
structure PackRows where
  rows : List PackedEntry
  complete : Nat → Bool

abbrev ObjectCache := ByteLru (Nat × Text) RawObject

/-- The options of one read, and what the resolver was made with. -/
structure ReadOptions where
  zlib : Zlib
  maxDeltaDepth : Nat
  cacheEntryLimit : Nat
  sizeOf : RawObject → Nat
  pendingPackId : Option Nat
  expectedType : Option ObjectType
  allowMissing : Bool
  bypassCache : Bool

namespace PackedEntry

def key (entry : PackedEntry) : Nat × Nat := (entry.packId, entry.offset)

/-- The base of an entry, in its own pack. -/
def baseIn (entries : List PackedEntry) (entry : PackedEntry) : Option PackedEntry :=
  entry.baseOffset.bind fun offset => entries.find? (·.key = (entry.packId, offset))

end PackedEntry

-- The graph

/-- Where the chain of an id starts: the pending pack's own entry, else the canonical one. -/
def startOf (store : PackRows) (pendingPackId : Option Nat) (oid : Text) : Option PackedEntry :=
  match store.rows.find? fun row => row.oid = oid && pendingPackId = some row.packId with
  | some own => some own
  | none => store.rows.find? fun row => row.oid = oid && store.complete row.packId

/-- The recursive query: rows leave the queue one by one, and the base of each joins it unless it
    has been seen.  It stops after a number of rows. -/
def reach (rows : List PackedEntry) :
    Nat → List PackedEntry → List PackedEntry → List PackedEntry
  | 0, _, found => found
  | _ + 1, [], found => found
  | limit + 1, entry :: queue, found =>
    let found := found ++ [entry]
    match entry.baseIn rows with
    | none => reach rows limit queue found
    | some base =>
      if base ∈ found ∨ base ∈ queue then reach rows limit queue found
      else reach rows limit (queue ++ [base]) found

/-- `#readGraph`. -/
def readGraph (store : PackRows) (pendingPackId : Option Nat) (wanted : List Text) :
    Option (List PackedEntry) :=
  let starts := (wanted.filterMap (startOf store pendingPackId)).dedup
  let found := reach store.rows (maxPackBlobGraphEntries + 1) starts []
  if found.length > maxPackBlobGraphEntries then none else some found

-- One graph

/-- `cachedObject`. -/
def cachedObject (options : ReadOptions) (cache : ObjectCache) (entry : PackedEntry) :
    Option RawObject × ObjectCache :=
  if options.bypassCache then (none, cache) else cache.get (entry.packId, entry.oid)

/-- `cacheObject`, where the cache is not bypassed. -/
def cacheObject (options : ReadOptions) (cache : ObjectCache) (entry : PackedEntry)
    (object : RawObject) : ObjectCache :=
  if options.bypassCache || object.data.length > options.cacheEntryLimit then cache
  else cache.set options.sizeOf (entry.packId, entry.oid) object

/-- The ids that have an entry, in the order they are wanted. -/
def availableOids (options : ReadOptions) (byOid : Text → Option PackedEntry) :
    List Text → Except GitError (List Text)
  | [] => pure []
  | oid :: wanted =>
    match byOid oid with
    | none =>
      if options.allowMissing then availableOids options byOid wanted
      else throw (corrupt s!"packed object {shown oid} has no visible source")
    | some entry =>
      if options.expectedType.any (· ≠ entry.type) then
        throw (corrupt s!"{shown oid} has another type")
      else (oid :: ·) <$> availableOids options byOid wanted

/-- The pass that collects the entries to load, for what it checks and for what it does to the
    cache.  `remaining` is how deep the chain may still get. -/
def collect (options : ReadOptions) (entries : List PackedEntry) (oid : Text) :
    Nat → List (Nat × Nat) → PackedEntry → ObjectCache → Except GitError ObjectCache
  | remaining, seen, current, cache =>
    if current.key ∈ seen then throw (corrupt s!"cyclic delta chain at {shown current.oid}")
    else if current.baseOffset = none then pure cache
    else match remaining with
      | 0 => throw (corrupt s!"delta chain deeper than {options.maxDeltaDepth} at {shown oid}")
      | remaining + 1 =>
        match current.baseIn entries with
        | none => pure cache
        | some base =>
          match cachedObject options cache base with
          | (some _, cache) => pure cache
          | (none, cache) => collect options entries oid remaining (current.key :: seen) base cache

/-- The walk down a chain to an object that is known, or to a full entry.  The chain is returned
    with the entry next to the object first. -/
def walk (options : ReadOptions) (entries : List PackedEntry) (result : List (Text × RawObject))
    (oid : Text) :
    Nat → List (Nat × Nat) → List PackedEntry → PackedEntry → ObjectCache →
      Except GitError (RawObject × List PackedEntry × ObjectCache)
  | remaining, seen, chain, current, cache =>
    if current.key ∈ seen then throw (corrupt s!"cyclic delta chain at {shown current.oid}")
    else match result.lookup current.oid with
    | some object => pure (object, chain, cache)
    | none =>
      match cachedObject options cache current with
      | (some object, cache) => pure (object, chain, cache)
      | (none, cache) =>
        if current.baseOffset = none then
          match materializeBase options.zlib current with
          | .error e => throw e
          | .ok object => pure (object, chain, cacheObject options cache current object)
        else match remaining with
          | 0 => throw (corrupt s!"delta chain deeper than {options.maxDeltaDepth} at {shown oid}")
          | remaining + 1 =>
            match current.baseIn entries with
            | none => throw (corrupt s!"missing delta base at pack {current.packId}")
            | some base =>
              match cachedObject options cache base with
              | (some object, cache) => pure (object, current :: chain, cache)
              | (none, cache) =>
                walk options entries result oid remaining (current.key :: seen) (current :: chain)
                  base cache

/-- The way back up the chain. -/
def climb (options : ReadOptions) : List PackedEntry → RawObject → ObjectCache →
    Except GitError (RawObject × ObjectCache)
  | [], object, cache => pure (object, cache)
  | entry :: chain, object, cache =>
    match resolveLink options.zlib object entry with
    | .error e => throw e
    | .ok object => climb options chain object (cacheObject options cache entry object)

/-- One id of the last loop. -/
def resolveOid (options : ReadOptions) (entries : List PackedEntry) (first : PackedEntry)
    (oid : Text) (result : List (Text × RawObject)) (cache : ObjectCache) :
    Except GitError (List (Text × RawObject) × ObjectCache) :=
  match result.lookup oid with
  | some _ => pure (result, cache)
  | none =>
    match cachedObject options cache first with
    | (some object, cache) => pure ((oid, object) :: result, cache)
    | (none, cache) =>
      match walk options entries result oid options.maxDeltaDepth [] [] first cache with
      | .error e => throw e
      | .ok (object, chain, cache) =>
        match climb options chain object cache with
        | .error e => throw e
        | .ok (object, cache) =>
          if object.type ≠ first.type ∨ object.data.length ≠ first.size then
            throw (corrupt s!"packed object {shown oid} has inconsistent type or size")
          else pure ((oid, object) :: result, cache)

/-- The pass over the ids that collects what to load. -/
def collectAll (options : ReadOptions) (entries : List PackedEntry)
    (byOid : Text → Option PackedEntry) :
    List Text → ObjectCache → Except GitError ObjectCache
  | [], cache => pure cache
  | oid :: oids, cache =>
    match byOid oid with
    | none => collectAll options entries byOid oids cache
    | some first =>
      match cachedObject options cache first with
      | (some _, cache) => collectAll options entries byOid oids cache
      | (none, cache) =>
        match collect options entries oid options.maxDeltaDepth [] first cache with
        | .error e => throw e
        | .ok cache => collectAll options entries byOid oids cache

/-- The last loop. -/
def resolveAll (options : ReadOptions) (entries : List PackedEntry)
    (byOid : Text → Option PackedEntry) :
    List Text → List (Text × RawObject) → ObjectCache →
      Except GitError (List (Text × RawObject) × ObjectCache)
  | [], result, cache => pure (result, cache)
  | oid :: oids, result, cache =>
    match byOid oid with
    | none => resolveAll options entries byOid oids result cache
    | some first =>
      match resolveOid options entries first oid result cache with
      | .error e => throw e
      | .ok (result, cache) => resolveAll options entries byOid oids result cache

/-- `#readObjects`; the result lists the newest entry of the map first. -/
def readObjects (store : PackRows) (options : ReadOptions) (wanted : List Text)
    (entries : List PackedEntry) (cache : ObjectCache) :
    Except GitError (List (Text × RawObject) × ObjectCache) := do
  let starts := wanted.filterMap (startOf store options.pendingPackId)
  let byOid := fun oid => entries.find? fun entry => entry ∈ starts && entry.oid = oid
  let available ← availableOids options byOid wanted
  let cache ← collectAll options entries byOid available cache
  resolveAll options entries byOid available [] cache

/-- `#readBatch`: a batch whose graph is too large is halved. -/
def readBatch (store : PackRows) (options : ReadOptions) (wanted : List Text)
    (cache : ObjectCache) : Except GitError (List (Text × RawObject) × ObjectCache) :=
  match readGraph store options.pendingPackId wanted with
  | some entries => readObjects store options wanted entries cache
  | none =>
    if _h : wanted.length ≤ 1 then
      throw (corrupt s!"delta chain deeper than {options.maxDeltaDepth}")
    else do
      let middle := (wanted.length + 1) / 2
      let (result, cache) ← readBatch store options (wanted.take middle) cache
      let (rest, cache) ← readBatch store options (wanted.drop middle) cache
      return (rest ++ result, cache)
  termination_by wanted.length
  decreasing_by
    · simp only [List.length_take]
      omega
    · simp only [List.length_drop]
      omega

/-- `readObjectsBounded`. -/
def readObjectsBounded (store : PackRows) (options : ReadOptions) (oids : List Text)
    (cache : ObjectCache) : Except GitError (List (Text × RawObject) × ObjectCache) :=
  let wanted := oids.dedup
  if wanted = [] then pure ([], cache)
  else if wanted.length > maxPackBlobInputs then
    throw { code := "E2BIG", message := s!"blob batch exceeds {maxPackBlobInputs} packed inputs" }
  else readBatch store options wanted cache

end Kompjutr.Pack
