/-
  Kompjutr.Pack.ResolveSound

  What ingest admits can be read back: a chain of delta entries, each admitted on
  the object before it, resolves link by link to the bytes ingest made.

  The incremental parser and the buffered pair accept the same deltas up to their
  limits on the working set, which count different things: the parser whole
  chunks of base and target, the pair the bytes of base, delta and target.
-/
import Kompjutr.Pack.DeltaAgree
import Kompjutr.Pack.Resolve

namespace Kompjutr.Pack

open Fuel Objects DeltaApplier

variable {delta : List UInt8} {chunks : List (List UInt8)}

variable {base target : List UInt8} {pool : ChunkPool} {expected : Nat} {zlib : Zlib}
  {entry : PackedEntry}

/-- The bytes of whole chunks that hold a number of bytes. -/
def footprint (length : Nat) : Nat := chunkCount length * packChunkBytes

theorem le_footprint (length : Nat) : length ≤ footprint length := by
  unfold footprint chunkCount packChunkBytes
  omega

theorem chunkFootprint_of_le {length : Nat} (h : footprint length ≤ maxPackDeltaWorkingBytes) :
    chunkFootprint length = .ok (footprint length) := by
  have hsafe : isSafeInteger (footprint length : Int) = true := isSafeInteger_mono h (by decide)
  exact chunkFootprint_ok.2 ⟨isSafeInteger_mono (le_footprint length) hsafe, hsafe, rfl⟩

theorem admits_ingestLimits {size : Nat} (hpool : pool.preflight (chunkCount expected) = .ok ()) :
    (start base pool (ingestLimits expected)).Admits size ↔
      size = expected ∧ footprint base.length + footprint expected ≤ maxPackDeltaWorkingBytes := by
  constructor
  · intro h
    obtain rfl : expected = size := h.expected expected rfl
    obtain ⟨baseBytes, targetBytes, hbase, htarget, hfit⟩ := h.footprint
    obtain ⟨-, -, rfl⟩ := chunkFootprint_ok.1 hbase
    obtain ⟨-, -, rfl⟩ := chunkFootprint_ok.1 htarget
    exact ⟨rfl, hfit⟩
  · rintro ⟨rfl, hfit⟩
    have hle := le_footprint size
    have hbase : footprint base.length ≤ maxPackDeltaWorkingBytes := by omega
    have htarget : footprint size ≤ maxPackDeltaWorkingBytes := by omega
    refine ⟨?_, ?_, ⟨_, _, chunkFootprint_of_le hbase, chunkFootprint_of_le htarget, hfit⟩, hpool⟩
    · simp only [maxPackDeltaWorkingBytes, maxDeltaTarget] at hfit ⊢
      omega
    · rintro n ⟨⟩
      rfl

theorem ingestLimits_valid (h : isSafeInteger expected = true) : (ingestLimits expected).Valid := by
  have hmax : isSafeInteger maxPackDeltaWorkingBytes = true := by decide
  refine ⟨?_, hmax, hmax⟩
  rintro n ⟨⟩
  exact h

/-- Up to their limits on the working set the two decoders accept the same deltas, with the same
    bytes, however the delta is divided. -/
theorem applyChunks_iff_applyValidated {out : List UInt8} (hchunks : chunks.flatten = delta)
    (hpool : pool.preflight (chunkCount expected) = .ok ()) :
    (applyChunks base pool (ingestLimits expected) chunks = .ok out ∧
        base.length + delta.length + expected ≤ maxPackDeltaWorkingBytes) ↔
      (applyValidated base delta expected = .ok out ∧
        footprint base.length + footprint expected ≤ maxPackDeltaWorkingBytes) := by
  rw [applyChunks_ok, applyValidated_ok, admits_ingestLimits hpool, hchunks]
  constructor
  · rintro ⟨⟨-, -, ⟨hlen, hfoot⟩, hdecodes⟩, hwork⟩
    exact ⟨⟨hlen, hwork, hdecodes⟩, hfoot⟩
  · rintro ⟨⟨hlen, hwork, hdecodes⟩, hfoot⟩
    refine ⟨⟨ingestLimits_valid ?_, ?_, ⟨hlen, hfoot⟩, hdecodes⟩, hwork⟩
    · exact isSafeInteger_mono (show expected ≤ maxPackDeltaWorkingBytes by omega) (by decide)
    · show delta.length ≤ maxPackDeltaWorkingBytes
      omega

-- Chains

theorem applyProbed_ok {probed : List (List UInt8)}
    (h : applyProbed base probed chunks pool = .ok target) :
    base.length + chunks.flatten.length + target.length ≤ maxPackDeltaWorkingBytes ∧
      Decodes base chunks.flatten target := by
  unfold applyProbed at h
  obtain ⟨probe, -, h⟩ := bind_eq_ok.1 h
  obtain ⟨⟨sourceSize, targetSize⟩, -, h⟩ := bind_eq_ok.1 h
  dsimp only at h
  split at h
  · cases h
  obtain ⟨-, -, h⟩ := bind_eq_ok.1 h
  obtain ⟨out, happly, h⟩ := bind_eq_ok.1 h
  split at h
  · cases h
  cases h
  exact ⟨by omega, (applyChunks_ok.1 happly).2.2.2⟩

/-- Ingest admits the entry on the base, in one of its two routes, and makes the target of it. -/
def Admitted (zlib : Zlib) (base : List UInt8) (entry : PackedEntry) (target : List UInt8) : Prop :=
  (∃ delta pool, zlib.inflate entry.payload = some delta ∧ delta.length = entry.entrySize ∧
    applyBufferedDelta base delta pool = .ok target) ∨
  ∃ maxBufferedEntry label pool ranged,
    applyStoredDelta zlib maxBufferedEntry entry.payload entry.entrySize label base pool ranged =
      .ok target

/-- Either route has read the delta the payload holds. -/
theorem Admitted.decodes (h : Admitted zlib base entry target) :
    ∃ delta, zlib.inflate entry.payload = some delta ∧ delta.length = entry.entrySize ∧
      base.length + delta.length + target.length ≤ maxPackDeltaWorkingBytes ∧
      Decodes base delta target := by
  have hbuffered : ∀ {delta : List UInt8} {pool : ChunkPool},
      applyBufferedDelta base delta pool = .ok target →
      base.length + delta.length + target.length ≤ maxPackDeltaWorkingBytes ∧
        Decodes base delta target := by
    intro delta pool happly
    simpa using applyProbed_ok happly
  rcases h with ⟨delta, pool, hinflate, hlen, happly⟩ | ⟨maxBufferedEntry, label, pool, ranged, h⟩
  · exact ⟨delta, hinflate, hlen, hbuffered happly⟩
  · unfold applyStoredDelta at h
    split at h
    · cases h
    split at h
    · -- the streamed route
      split at h
      · rename_i probed chunks hprobed hchunks
        split at h
        · cases h
        rename_i hlen
        have hinflate := zlib.flatten_pieces (if ranged then packRangeSliceBytes else packReadBytes)
          entry.payload
        rw [hchunks, Option.map_some] at hinflate
        exact ⟨chunks.flatten, hinflate.symm, not_not.1 hlen, applyProbed_ok h⟩
      · cases h
    · split at h
      · rename_i delta hinflate
        split at h
        · cases h
        rename_i hlen
        exact ⟨delta, hinflate, not_not.1 hlen, hbuffered h⟩
      · cases h

/-- The row ingest writes for an admitted entry: the type of the base, and the size of the
    target. -/
structure IngestedLink (zlib : Zlib) (base : RawObject) (entry : PackedEntry) (object : RawObject) :
    Prop where
  admitted : Admitted zlib base.data entry object.data
  type_eq : object.type = base.type
  entry_type : entry.type = base.type
  entry_size : entry.size = object.data.length

/-- A chain of entries as ingest has made it, from the object it rests on. -/
inductive IngestedChain (zlib : Zlib) : RawObject → List PackedEntry → RawObject → Prop
  | base (object : RawObject) : IngestedChain zlib object [] object
  | link {base object last : RawObject} {entry : PackedEntry} {entries : List PackedEntry} :
      IngestedLink zlib base entry object → IngestedChain zlib object entries last →
      IngestedChain zlib base (entry :: entries) last

/-- A row that points to a delta within the limits resolves to what the delta decodes to. -/
theorem resolveLink_of_decodes {base : RawObject}
    (hinflate : zlib.inflate entry.payload = some delta)
    (hlen : delta.length = entry.entrySize)
    (hwork : base.data.length + delta.length + target.length ≤ maxPackDeltaWorkingBytes)
    (hdecodes : Decodes base.data delta target) (htype : entry.type = base.type)
    (hsize : entry.size = target.length) :
    resolveLink zlib base entry = .ok { type := base.type, data := target } := by
  have hsafe : isSafeInteger entry.entrySize = true :=
    isSafeInteger_mono (show entry.entrySize ≤ maxPackDeltaWorkingBytes by omega) (by decide)
  have hbudget : checkDeltaInflateBudget base.data entry.entrySize = .ok () := by
    unfold checkDeltaInflateBudget
    rw [hsafe, if_neg (by simp; omega)]
    rfl
  have hread : inflateEntry zlib entry = .ok delta := by
    unfold inflateEntry
    rw [hsafe, if_neg (by simp; omega), hinflate]
    dsimp only
    rw [if_neg (by omega), if_neg (by omega)]
    rfl
  have happly : applyValidated base.data delta target.length = .ok target :=
    applyValidated_ok.2 ⟨rfl, hwork, hdecodes⟩
  unfold applyValidated at happly
  obtain ⟨size, hcheck, happly⟩ := bind_eq_ok.1 happly
  obtain ⟨rfl, -⟩ := validateDeltaWorkingSet_ok.1 hcheck
  unfold resolveLink
  rw [hbudget, ok_bind, hread, ok_bind, hsize, hcheck, ok_bind, happly, ok_bind,
    if_neg (by simp), if_neg (by simp [htype])]
  rfl

theorem resolveLink_of_ingested {base object : RawObject}
    (h : IngestedLink zlib base entry object) : resolveLink zlib base entry = .ok object := by
  obtain ⟨delta, hinflate, hlen, hwork, hdecodes⟩ := h.admitted.decodes
  rw [resolveLink_of_decodes hinflate hlen hwork hdecodes h.entry_type h.entry_size, ← h.type_eq]

theorem foldlM_resolveLink {base last : RawObject} {entries : List PackedEntry}
    (h : IngestedChain zlib base entries last) :
    entries.foldlM (resolveLink zlib) base = .ok last := by
  induction h with
  | base object => rfl
  | link hlink _ ih =>
    rw [List.foldlM_cons, resolveLink_of_ingested hlink]
    exact ih

/-- The incremental parser and the buffered pair accept the same deltas with the same bytes, up to
    what their limits on the working set count; and every chain of delta entries that ingest has
    admitted, by either route, resolves on reading to the bytes ingest has made. -/
theorem delta_decoders_agree :
    (∀ (base delta : List UInt8) (chunks : List (List UInt8)) (pool : ChunkPool) (expected : Nat)
      (out : List UInt8), chunks.flatten = delta → pool.preflight (chunkCount expected) = .ok () →
      ((applyChunks base pool (ingestLimits expected) chunks = .ok out ∧
          base.length + delta.length + expected ≤ maxPackDeltaWorkingBytes) ↔
        (applyValidated base delta expected = .ok out ∧
          footprint base.length + footprint expected ≤ maxPackDeltaWorkingBytes))) ∧
    (∀ (zlib : Zlib) (base last : RawObject) (entries : List PackedEntry),
      IngestedChain zlib base entries last →
      entries.foldlM (resolveLink zlib) base = .ok last) :=
  ⟨fun _ _ _ _ _ _ hchunks hpool => applyChunks_iff_applyValidated hchunks hpool,
    fun _ _ _ _ h => foldlM_resolveLink h⟩

/-- A delta that copies the second and third byte of its base, in two chunks. -/
theorem delta_decoders_agree_on_copy :
    applyChunks [1, 2, 3] ChunkPool.create (ingestLimits 2) [[3, 2, 0x91, 1], [2]] = .ok [2, 3] := by
  have hbuffered : applyValidated [1, 2, 3] [3, 2, 0x91, 1, 2] 2 = .ok [2, 3] := by
    refine applyValidated_ok.2 ⟨rfl, by decide, [2, 0x91, 1, 2], [0x91, 1, 2], rfl, rfl, ?_, rfl⟩
    rw [applyCommands_copy (by decide)]
    refine ⟨1, 2, [], rfl, by decide, by decide, ?_⟩
    rw [applyCommands]
    rfl
  exact ((delta_decoders_agree.1 [1, 2, 3] [3, 2, 0x91, 1, 2] [[3, 2, 0x91, 1], [2]]
    ChunkPool.create 2 [2, 3] rfl (by decide)).2 ⟨hbuffered, by decide⟩).1

-- Where the limits differ

/-- A base of one byte more than 24 MiB. -/
def wideBase : List UInt8 := List.replicate 25165825 0

/-- A delta that copies 25100289 bytes of it, in two commands. -/
def wideDelta : List UInt8 :=
  [0x81, 0x80, 0x80, 0x0c, 0x81, 0x80, 0xfc, 0x0b, 0xf0, 0xff, 0xff, 0xff, 0xf0, 0x02, 0x00, 0x7f]

def wideTarget : List UInt8 := List.replicate 25100289 0

theorem wideDelta_decodes : Decodes wideBase wideDelta wideTarget := by
  have hbase : wideBase.length = 25165825 := List.length_replicate
  have htarget : wideTarget.length = 25100289 := List.length_replicate
  have hcopy : ∀ n, n ≤ 25165825 → (wideBase.drop 0).take n = List.replicate n 0 := by
    intro n hn
    rw [List.drop_zero, wideBase, List.take_replicate, Nat.min_eq_left hn]
  refine ⟨wideDelta.drop 4, wideDelta.drop 8, ?_, ?_, ?_, rfl⟩
  · rw [hbase]
    rfl
  · rw [htarget]
    rfl
  · rw [htarget]
    show applyCommands wideBase 25100289 []
      (0xf0 :: [0xff, 0xff, 0xff, 0xf0, 0x02, 0x00, 0x7f]) = .ok wideTarget
    rw [applyCommands_copy (by decide)]
    refine ⟨0, 0xffffff, [0xf0, 0x02, 0x00, 0x7f], rfl, by rw [hbase]; decide, by decide, ?_⟩
    rw [hcopy _ (by decide), List.nil_append, applyCommands_copy (by decide)]
    refine ⟨0, 0x7f0002, [], rfl, by rw [hbase]; decide, by rw [List.length_replicate], ?_⟩
    rw [hcopy _ (by decide), List.replicate_append_replicate, applyCommands]
    rfl

/-- The buffered pair takes a delta that the parser refuses, with the same expected size and the
    same limit. -/
theorem buffered_pair_takes_more :
    ¬ ∀ (base delta out : List UInt8) (expected : Nat),
      applyChunks base ChunkPool.create (ingestLimits expected) [delta] = .ok out ↔
        applyValidated base delta expected = .ok out := by
  intro h
  have hbase : wideBase.length = 25165825 := List.length_replicate
  have htarget : wideTarget.length = 25100289 := List.length_replicate
  have hbuffered : applyValidated wideBase wideDelta 25100289 = .ok wideTarget :=
    applyValidated_ok.2 ⟨htarget, by rw [hbase]; decide, wideDelta_decodes⟩
  have hstream := (h wideBase wideDelta wideTarget 25100289).2 hbuffered
  have hadmits := (applyChunks_ok.1 hstream).2.2.1
  rw [admits_ingestLimits (by decide), hbase] at hadmits
  exact absurd hadmits.2 (by decide)

end Kompjutr.Pack
