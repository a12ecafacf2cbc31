/-
  Kompjutr.Pack.DeltaSound

  The incremental delta parser, byte by byte: pushing a delta in chunks is one
  run over its bytes (`foldlM_push`).  A copy command is carried out as soon as
  the chunk ends or the next byte comes, and it makes no difference which.
-/
import Kompjutr.Pack.Delta
import Mathlib.Data.List.DropRight

namespace Kompjutr.Pack

open Fuel

namespace DeltaApplier

-- Chunks do not matter

theorem settleCopy_of_phase {s : DeltaApplier} (h : s.phase ≠ .copy) : s.settleCopy = .ok s := by
  unfold settleCopy
  rw [if_pos h]
  rfl

theorem settleCopy_done {s : DeltaApplier} (h : s.phase = .copy) (hbits : s.bitsLeft = []) :
    s.settleCopy = (fun s : DeltaApplier => { s with phase := .opcode }) <$> s.applyCopy := by
  unfold settleCopy
  rw [if_neg (by simp [h]), if_pos hbits]
  cases s.applyCopy <;> rfl

theorem settleCopy_pending {s : DeltaApplier} (h : s.phase = .copy) (hbits : s.bitsLeft ≠ []) :
    s.settleCopy = .ok { s with copyBits := s.bitsLeft } := by
  unfold settleCopy
  rw [if_neg (by simp [h]), if_neg hbits]
  rfl

variable {s' : DeltaApplier}

theorem applyCopy_cases {s : DeltaApplier} (h : s.applyCopy = .ok s') :
    ∃ size, size = (if s.copySize = 0 then 0x10000 else s.copySize) ∧
      s.copyOffset + size ≤ s.base.length ∧ s.target.length + size ≤ s.targetSize ∧
      s' = { s with target := s.target ++ (s.base.drop s.copyOffset).take size } := by
  unfold applyCopy at h
  refine ⟨_, rfl, ?_⟩
  generalize (if s.copySize = 0 then 0x10000 else s.copySize) = size at h
  dsimp only at h
  split at h
  · cases h
  split at h
  · cases h
  rename_i h1 h2
  simp only [written] at h2
  exact ⟨by omega, by omega, (Except.ok.inj h).symm⟩

theorem applyCopy_ok {s : DeltaApplier} {size : Nat}
    (hsize : size = (if s.copySize = 0 then 0x10000 else s.copySize))
    (hbase : s.copyOffset + size ≤ s.base.length)
    (htarget : s.target.length + size ≤ s.targetSize) :
    s.applyCopy = .ok { s with target := s.target ++ (s.base.drop s.copyOffset).take size } := by
  unfold applyCopy
  rw [← hsize]
  dsimp only
  rw [if_neg (by omega), if_neg (by simp only [written]; omega)]
  rfl

/-- Settling leaves an opcode to read, or a bit that is set. -/
theorem settleCopy_cases {s : DeltaApplier} (h : s.settleCopy = .ok s') :
    (s.phase ≠ .copy ∧ s' = s) ∨ s'.phase = .opcode ∨
      (s'.phase = .copy ∧ s'.bitsLeft = s'.copyBits ∧ s'.copyBits ≠ []) := by
  by_cases hphase : s.phase = .copy
  · right
    by_cases hbits : s.bitsLeft = []
    · left
      rw [settleCopy_done hphase hbits] at h
      cases hcopy : s.applyCopy with
      | error e =>
        rw [hcopy] at h
        cases h
      | ok s2 =>
        rw [hcopy] at h
        cases h
        rfl
    · right
      rw [settleCopy_pending hphase hbits] at h
      cases h
      exact ⟨hphase, List.dropWhile_idempotent _ _, hbits⟩
  · rw [settleCopy_of_phase hphase] at h
    exact .inl ⟨hphase, (Except.ok.inj h).symm⟩

theorem settleCopy_idem {s : DeltaApplier} (h : s.settleCopy = .ok s') :
    s'.settleCopy = .ok s' := by
  rcases settleCopy_cases h with ⟨hphase, rfl⟩ | hphase | ⟨hphase, hleft, hne⟩
  · exact settleCopy_of_phase hphase
  · exact settleCopy_of_phase (by simp [hphase])
  · rw [settleCopy_pending hphase (by rwa [hleft]), hleft]

/-- A copy that is settled early is the copy settled before the next byte. -/
theorem settleCopy_bind_pushByte (s : DeltaApplier) (byte : UInt8) :
    (s.settleCopy >>= fun s => s.pushByte byte) = s.pushByte byte := by
  have hpush : ∀ {s : DeltaApplier}, s.phase = .copy →
      s.pushByte byte = s.settleCopy >>= fun s => s.copyStep byte := by
    intro s hphase
    simp only [pushByte, hphase]
  by_cases hphase : s.phase = .copy
  · rw [hpush hphase]
    cases hsettle : s.settleCopy with
    | error e => rfl
    | ok s1 =>
      rw [ok_bind, ok_bind]
      rcases settleCopy_cases hsettle with ⟨hne, -⟩ | hphase1 | ⟨hphase1, -⟩
      · exact absurd hphase hne
      · simp only [pushByte, copyStep, hphase1]
      · rw [hpush hphase1, settleCopy_idem hsettle, ok_bind]
  · rw [settleCopy_of_phase hphase]
    rfl

theorem finish_ok {s : DeltaApplier} {out : List UInt8} :
    s.finish = .ok out ↔ s.phase = .opcode ∧ s.target.length = s.targetSize ∧ s.target = out := by
  unfold finish
  constructor
  · intro h
    split at h
    · cases h
    split at h
    · cases h
    split at h
    · cases h
    rename_i hphase hlen
    exact ⟨not_not.1 hphase, not_not.1 hlen, Except.ok.inj h⟩
  · rintro ⟨hphase, hlen, rfl⟩
    rw [if_neg (by simp [hphase]), if_neg (by simp [hphase]), if_neg (by simpa [written] using hlen)]
    rfl

/-- The bytes of a delta in one piece. -/
def pushed (s : DeltaApplier) (bytes : List UInt8) : Except GitError DeltaApplier :=
  bytes.foldlM pushByte s >>= settleCopy

theorem pushed_nil (s : DeltaApplier) : s.pushed [] = s.settleCopy := pure_bind _ _

theorem pushed_cons (s : DeltaApplier) (byte : UInt8) (bytes : List UInt8) :
    s.pushed (byte :: bytes) = s.pushByte byte >>= fun s => s.pushed bytes := by
  unfold pushed
  rw [List.foldlM_cons, bind_assoc]

theorem pushed_append (s : DeltaApplier) (bytes rest : List UInt8) :
    s.pushed (bytes ++ rest) = bytes.foldlM pushByte s >>= fun s => s.pushed rest := by
  unfold pushed
  rw [List.foldlM_append, bind_assoc]

theorem settleCopy_bind_pushed (s : DeltaApplier) (bytes : List UInt8) :
    (s.settleCopy >>= fun s => s.pushed bytes) = s.pushed bytes := by
  cases bytes with
  | nil =>
    simp only [pushed_nil]
    cases hsettle : s.settleCopy with
    | error e => rfl
    | ok s1 => exact settleCopy_idem hsettle
  | cons byte bytes =>
    simp only [pushed_cons]
    rw [← bind_assoc, settleCopy_bind_pushByte]

/-- The rest of a delta, to the end. -/
def run (s : DeltaApplier) (bytes : List UInt8) : Except GitError (List UInt8) := do
  let s ← bytes.foldlM pushByte s
  let s ← s.settleCopy
  s.finish

theorem run_eq (s : DeltaApplier) (bytes : List UInt8) :
    s.run bytes = s.pushed bytes >>= finish := (bind_assoc _ _ _).symm

theorem run_cons (s : DeltaApplier) (byte : UInt8) (bytes : List UInt8) :
    s.run (byte :: bytes) = s.pushByte byte >>= fun s => s.run bytes := by
  unfold run
  rw [List.foldlM_cons, bind_assoc]

theorem run_settleCopy (s : DeltaApplier) (bytes : List UInt8) :
    (s.settleCopy >>= fun s => s.run bytes) = s.run bytes := by
  simp only [run_eq]
  rw [← bind_assoc, settleCopy_bind_pushed]

/-- The count of instruction bytes is only read by `push`. -/
def counted (n : Nat) (s : DeltaApplier) : DeltaApplier := { s with instructionBytes := n }

section

variable (n : Nat) (s : DeltaApplier)

include n s

theorem counted_applyCopy :
    (counted n s).applyCopy = counted n <$> s.applyCopy := by
  unfold applyCopy counted written
  dsimp only
  split_ifs <;> rfl

theorem counted_settleCopy :
    (counted n s).settleCopy = counted n <$> s.settleCopy := by
  by_cases hphase : s.phase = .copy
  · by_cases hbits : s.bitsLeft = []
    · rw [settleCopy_done hphase hbits, settleCopy_done (s := counted n s) hphase hbits,
        counted_applyCopy]
      cases s.applyCopy <;> rfl
    · rw [settleCopy_pending hphase hbits, settleCopy_pending (s := counted n s) hphase hbits]
      rfl
  · rw [settleCopy_of_phase hphase, settleCopy_of_phase (s := counted n s) hphase]
    rfl

theorem counted_opcodeByte (byte : UInt8) :
    (counted n s).opcodeByte byte = counted n <$> s.opcodeByte byte := by
  unfold opcodeByte counted written
  dsimp only
  split_ifs <;> rfl

theorem counted_sizeByte (byte : UInt8) :
    (counted n s).sizeByte byte = (fun p => (p.1, counted n p.2)) <$> s.sizeByte byte := by
  unfold sizeByte counted
  dsimp only
  split_ifs <;> rfl

theorem counted_admitTarget (size : Nat) :
    (counted n s).admitTarget size = counted n <$> s.admitTarget size := by
  unfold admitTarget counted
  dsimp only
  split_ifs <;> try rfl
  cases chunkFootprint s.base.length with
  | error e => rfl
  | ok baseBytes =>
    cases chunkFootprint size with
    | error e => rfl
    | ok targetBytes =>
      simp only [ok_bind]
      split_ifs
      · rfl
      · cases s.pool.preflight (chunkCount size) <;> rfl

theorem counted_copyStep (byte : UInt8) :
    (counted n s).copyStep byte = counted n <$> s.copyStep byte := by
  unfold copyStep
  rw [counted_opcodeByte, show (counted n s).phase = s.phase from rfl,
    show (counted n s).copyBits = s.copyBits from rfl]
  split
  · unfold copyByte counted
    dsimp only
    split_ifs <;> rfl
  · rfl

theorem counted_pushByte (byte : UInt8) :
    (counted n s).pushByte byte = counted n <$> s.pushByte byte := by
  unfold pushByte
  rw [show (counted n s).phase = s.phase from rfl]
  cases s.phase with
  | sourceSize =>
    simp only [counted_sizeByte]
    cases s.sizeByte byte with
    | error e => rfl
    | ok p =>
      obtain ⟨complete, s1⟩ := p
      cases complete with
      | false => rfl
      | true =>
        by_cases hsize : s1.sizeValue = s1.base.length
        · simp [ok_bind, counted, hsize]; rfl
        · simp [ok_bind, counted, hsize]; rfl
  | targetSize =>
    simp only [counted_sizeByte]
    cases s.sizeByte byte with
    | error e => rfl
    | ok p =>
      obtain ⟨complete, s1⟩ := p
      cases complete with
      | false => rfl
      | true =>
        show ((counted n s1).admitTarget s1.sizeValue >>= _) = _ <$> (s1.admitTarget s1.sizeValue >>= _)
        rw [counted_admitTarget]
        cases s1.admitTarget s1.sizeValue <;> rfl
  | opcode => exact counted_opcodeByte n s byte
  | copy =>
    simp only [counted_settleCopy]
    cases s.settleCopy with
    | error e => rfl
    | ok s1 => exact counted_copyStep n s1 byte
  | literal => rfl

theorem counted_pushed (bytes : List UInt8) :
    (counted n s).pushed bytes = counted n <$> s.pushed bytes := by
  induction bytes generalizing s with
  | nil =>
    rw [pushed_nil, pushed_nil]
    exact counted_settleCopy n s
  | cons byte bytes ih =>
    rw [pushed_cons, pushed_cons, counted_pushByte]
    cases s.pushByte byte with
    | error e => rfl
    | ok s1 => exact ih s1

end

-- What a byte leaves as it is

/-- The fields no byte changes. -/
structure Same (s s' : DeltaApplier) : Prop where
  base : s'.base = s.base
  pool : s'.pool = s.pool
  limits : s'.limits = s.limits
  instructionBytes : s'.instructionBytes = s.instructionBytes

theorem Same.refl (s : DeltaApplier) : Same s s := ⟨rfl, rfl, rfl, rfl⟩

theorem Same.trans {s s'' : DeltaApplier} (h : Same s s') (h' : Same s' s'') : Same s s'' :=
  ⟨h'.base.trans h.base, h'.pool.trans h.pool, h'.limits.trans h.limits,
    h'.instructionBytes.trans h.instructionBytes⟩

theorem sizeByte_same {s : DeltaApplier} {byte : UInt8} {complete : Bool}
    (h : s.sizeByte byte = .ok (complete, s')) : Same s s' ∧ s'.phase = s.phase := by
  unfold sizeByte at h
  dsimp only at h
  split at h
  · cases h
  split at h
  · cases h
    exact ⟨⟨rfl, rfl, rfl, rfl⟩, rfl⟩
  split at h
  · cases h
  · cases h
    exact ⟨⟨rfl, rfl, rfl, rfl⟩, rfl⟩

/-- What admitting a target checks. -/
structure Admits (s : DeltaApplier) (size : Nat) : Prop where
  le_max : size ≤ maxDeltaTarget
  expected : ∀ n ∈ s.limits.expectedTargetSize, n = size
  footprint : ∃ baseBytes targetBytes, chunkFootprint s.base.length = .ok baseBytes ∧
    chunkFootprint size = .ok targetBytes ∧ baseBytes + targetBytes ≤ s.limits.maxWorkingBytes
  preflight : s.pool.preflight (chunkCount size) = .ok ()

theorem admitTarget_ok {s : DeltaApplier} {size : Nat} :
    s.admitTarget size = .ok s' ↔ s.Admits size ∧ s' = { s with targetSize := size, target := [] } := by
  have hexpected : s.limits.expectedTargetSize.any (· ≠ size) = false ↔
      ∀ n ∈ s.limits.expectedTargetSize, n = size := by
    cases s.limits.expectedTargetSize <;> simp
  unfold admitTarget
  by_cases hlarge : size > maxDeltaTarget
  · rw [if_pos hlarge]
    exact ⟨fun h => (by cases h), fun h => absurd h.1.le_max (by omega)⟩
  rw [if_neg hlarge]
  cases hany : s.limits.expectedTargetSize.any (· ≠ size) with
  | true =>
    refine ⟨fun h => (by cases h), fun h => ?_⟩
    rw [hexpected.2 h.1.expected] at hany
    cases hany
  | false =>
    rw [if_neg (by simp)]
    constructor
    · intro h
      obtain ⟨baseBytes, hbase, h⟩ := bind_eq_ok.1 h
      obtain ⟨targetBytes, htarget, h⟩ := bind_eq_ok.1 h
      dsimp only at h
      split at h
      · cases h
      rename_i hfit
      obtain ⟨⟨⟩, hpool, h⟩ := bind_eq_ok.1 h
      exact ⟨⟨by omega, hexpected.1 hany, ⟨baseBytes, targetBytes, hbase, htarget, by omega⟩, hpool⟩,
        (Except.ok.inj h).symm⟩
    · rintro ⟨⟨-, -, ⟨baseBytes, targetBytes, hbase, htarget, hfit⟩, hpool⟩, rfl⟩
      rw [hbase, ok_bind, htarget, ok_bind, if_neg (by omega), hpool]
      rfl

theorem settleCopy_same {s : DeltaApplier} (h : s.settleCopy = .ok s') : Same s s' := by
  by_cases hphase : s.phase = .copy
  · by_cases hbits : s.bitsLeft = []
    · rw [settleCopy_done hphase hbits] at h
      cases hcopy : s.applyCopy with
      | error e =>
        rw [hcopy] at h
        cases h
      | ok s2 =>
        rw [hcopy] at h
        cases h
        obtain ⟨size, -, -, -, rfl⟩ := applyCopy_cases hcopy
        exact ⟨rfl, rfl, rfl, rfl⟩
    · rw [settleCopy_pending hphase hbits] at h
      cases h
      exact ⟨rfl, rfl, rfl, rfl⟩
  · rw [settleCopy_of_phase hphase] at h
    obtain rfl := Except.ok.inj h
    exact Same.refl s

/-- The state in which the bytes of a copy command follow. -/
def copying (s : DeltaApplier) (command : UInt8) : DeltaApplier :=
  { s with
    copyCommand := command, copyBits := copyBitOrder, copyOffset := 0, copySize := 0
    phase := .copy }

/-- The state in which the bytes of a literal follow. -/
def reading (s : DeltaApplier) (length : Nat) : DeltaApplier :=
  { s with literalRemaining := length, phase := .literal }

theorem opcodeByte_ok {s : DeltaApplier} {command : UInt8} : s.opcodeByte command = .ok s' ↔
      (command &&& 0x80 ≠ 0 ∧ s' = s.copying command) ∨
      (command &&& 0x80 = 0 ∧ command ≠ 0 ∧ s.target.length + command.toNat ≤ s.targetSize ∧
        s' = s.reading command.toNat) := by
  unfold opcodeByte
  by_cases hcopy : command &&& 0x80 ≠ 0
  · rw [if_pos hcopy]
    refine ⟨fun h => .inl ⟨hcopy, (Except.ok.inj h).symm⟩, ?_⟩
    rintro (⟨-, rfl⟩ | ⟨h, -⟩)
    · rfl
    · exact absurd h hcopy
  rw [if_neg hcopy]
  rw [not_not] at hcopy
  have hwritten : s.written = s.target.length := rfl
  by_cases hzero : command = 0
  · rw [if_pos hzero]
    constructor
    · intro h
      cases h
    · rintro (⟨h, -⟩ | ⟨-, h, -⟩)
      · exact absurd hcopy h
      · exact absurd hzero h
  rw [if_neg hzero]
  by_cases hfit : s.target.length + command.toNat ≤ s.targetSize
  · rw [if_neg (by omega)]
    refine ⟨fun h => .inr ⟨hcopy, hzero, hfit, (Except.ok.inj h).symm⟩, ?_⟩
    rintro (⟨h, -⟩ | ⟨-, -, -, rfl⟩)
    · exact absurd hcopy h
    · rfl
  · rw [if_pos (by omega)]
    constructor
    · intro h
      cases h
    · rintro (⟨h, -⟩ | ⟨-, -, h, -⟩)
      · exact absurd hcopy h
      · exact absurd h hfit

theorem opcodeByte_same {s : DeltaApplier} {byte : UInt8} (h : s.opcodeByte byte = .ok s') :
    Same s s' := by
  rcases opcodeByte_ok.1 h with ⟨-, rfl⟩ | ⟨-, -, -, rfl⟩
  · exact ⟨rfl, rfl, rfl, rfl⟩
  · exact ⟨rfl, rfl, rfl, rfl⟩

theorem copyStep_same {s : DeltaApplier} {byte : UInt8} (h : s.copyStep byte = .ok s') :
    Same s s' := by
  unfold copyStep at h
  split at h
  · cases h
    unfold copyByte
    split_ifs <;> exact ⟨rfl, rfl, rfl, rfl⟩
  · exact opcodeByte_same h

theorem pushByte_same {s : DeltaApplier} {byte : UInt8} (h : s.pushByte byte = .ok s') :
    Same s s' := by
  unfold pushByte at h
  split at h
  · obtain ⟨⟨complete, s1⟩, hsize, h⟩ := bind_eq_ok.1 h
    have hsame := (sizeByte_same hsize).1
    dsimp only at h
    split at h
    · cases h
      exact hsame
    split at h
    · cases h
    · cases h
      exact hsame.trans ⟨rfl, rfl, rfl, rfl⟩
  · obtain ⟨⟨complete, s1⟩, hsize, h⟩ := bind_eq_ok.1 h
    have hsame := (sizeByte_same hsize).1
    dsimp only at h
    split at h
    · cases h
      exact hsame
    obtain ⟨s2, hadmitted, h⟩ := bind_eq_ok.1 h
    cases h
    obtain ⟨-, rfl⟩ := admitTarget_ok.1 hadmitted
    exact hsame.trans ⟨rfl, rfl, rfl, rfl⟩
  · exact opcodeByte_same h
  · obtain ⟨s1, hsettle, h⟩ := bind_eq_ok.1 h
    exact (settleCopy_same hsettle).trans (copyStep_same h)
  · cases h
    exact ⟨rfl, rfl, rfl, rfl⟩

theorem foldlM_pushByte_same {bytes : List UInt8} {s : DeltaApplier}
    (h : bytes.foldlM pushByte s = .ok s') : Same s s' := by
  induction bytes generalizing s with
  | nil =>
    obtain rfl := Except.ok.inj h
    exact Same.refl s
  | cons byte bytes ih =>
    rw [List.foldlM_cons] at h
    obtain ⟨s1, hbyte, hrest⟩ := bind_eq_ok.1 h
    exact (pushByte_same hbyte).trans (ih hrest)

/-- A chunk that fits, with the count moved on. -/
theorem push_eq {s : DeltaApplier} {chunk : List UInt8}
    (hroom : s.instructionBytes + chunk.length ≤ s.limits.maxInstructionBytes) :
    s.push chunk = counted (s.instructionBytes + chunk.length) <$> s.pushed chunk := by
  unfold push
  rw [if_neg (by omega), ← counted_pushed]
  rfl

theorem pushed_same {s : DeltaApplier} {bytes : List UInt8} (h : s.pushed bytes = .ok s') :
    Same s s' := by
  obtain ⟨s1, hbytes, hsettle⟩ := bind_eq_ok.1 h
  exact (foldlM_pushByte_same hbytes).trans (settleCopy_same hsettle)

theorem pushed_settled {s : DeltaApplier} {bytes : List UInt8} (h : s.pushed bytes = .ok s') :
    s'.settleCopy = .ok s' := by
  obtain ⟨s1, -, hsettle⟩ := bind_eq_ok.1 h
  exact settleCopy_idem hsettle

/-- A chunk that is taken fits, and what it leaves is settled. -/
theorem push_ok {s : DeltaApplier} {chunk : List UInt8} (h : s.push chunk = .ok s') :
    s.instructionBytes + chunk.length ≤ s.limits.maxInstructionBytes ∧
      s'.instructionBytes = s.instructionBytes + chunk.length ∧ s'.limits = s.limits := by
  by_cases hroom : s.instructionBytes + chunk.length ≤ s.limits.maxInstructionBytes
  · rw [push_eq hroom] at h
    obtain ⟨s1, hpushed, rfl⟩ := map_eq_ok.1 h
    exact ⟨hroom, rfl, (pushed_same hpushed).limits⟩
  · unfold push at h
    rw [if_pos (by omega)] at h
    cases h

variable {chunks : List (List UInt8)}

theorem foldlM_push_room {s : DeltaApplier}
    (hroom : s.instructionBytes ≤ s.limits.maxInstructionBytes)
    (h : chunks.foldlM push s = .ok s') :
    s.instructionBytes + chunks.flatten.length ≤ s.limits.maxInstructionBytes := by
  induction chunks generalizing s with
  | nil => exact hroom
  | cons chunk chunks ih =>
    rw [List.foldlM_cons] at h
    obtain ⟨s1, hchunk, hrest⟩ := bind_eq_ok.1 h
    obtain ⟨hfit, hcount, hlimits⟩ := push_ok hchunk
    have hall := ih (s := s1) (by rw [hcount, hlimits]; exact hfit) hrest
    rw [hcount, hlimits] at hall
    rw [List.flatten_cons, List.length_append]
    omega

/-- Pushing chunk by chunk is pushing the bytes in one piece, as long as they fit in the limit. -/
theorem foldlM_push_eq {s : DeltaApplier} (hsettled : s.settleCopy = .ok s)
    (hroom : s.instructionBytes + chunks.flatten.length ≤ s.limits.maxInstructionBytes) :
    chunks.foldlM push s =
      counted (s.instructionBytes + chunks.flatten.length) <$> s.pushed chunks.flatten := by
  induction chunks generalizing s with
  | nil =>
    rw [List.foldlM_nil, List.flatten_nil, pushed_nil, hsettled]
    rfl
  | cons chunk chunks ih =>
    rw [List.flatten_cons, List.length_append] at hroom ⊢
    have hsplit : s.pushed (chunk ++ chunks.flatten) =
        s.pushed chunk >>= fun s => s.pushed chunks.flatten := by
      rw [pushed_append, pushed, bind_assoc]
      exact bind_congr fun s1 => (settleCopy_bind_pushed s1 chunks.flatten).symm
    rw [List.foldlM_cons, push_eq (by omega), hsplit]
    cases hchunk : s.pushed chunk with
    | error e => rfl
    | ok s1 =>
      have hsame := pushed_same hchunk
      -- the next chunk starts where this one stopped, further on in the count
      have hrest := ih (s := counted (s.instructionBytes + chunk.length) s1)
        (by rw [counted_settleCopy, pushed_settled hchunk]; rfl)
        (by
          show s.instructionBytes + chunk.length + _ ≤ s1.limits.maxInstructionBytes
          rw [hsame.limits]
          omega)
      show chunks.foldlM push (counted (s.instructionBytes + chunk.length) s1) =
        counted _ <$> s1.pushed chunks.flatten
      rw [hrest, counted_pushed]
      show (counted (s.instructionBytes + chunk.length + _) <$> counted _ <$> _) = _
      rw [Nat.add_assoc]
      cases s1.pushed chunks.flatten <;> rfl

/-- Pushing chunk by chunk is running over the bytes, as long as they fit in the limit. -/
theorem foldlM_push {s : DeltaApplier} {out : List UInt8} (hsettled : s.settleCopy = .ok s)
    (hroom : s.instructionBytes ≤ s.limits.maxInstructionBytes) :
    (chunks.foldlM push s >>= finish) = .ok out ↔
      s.instructionBytes + chunks.flatten.length ≤ s.limits.maxInstructionBytes ∧
        s.run chunks.flatten = .ok out := by
  constructor
  · intro h
    obtain ⟨s1, hchunks, hfinish⟩ := bind_eq_ok.1 h
    have hfit := foldlM_push_room hroom hchunks
    rw [foldlM_push_eq hsettled hfit] at hchunks
    obtain ⟨s2, hpushed, rfl⟩ := map_eq_ok.1 hchunks
    rw [run_eq, hpushed]
    exact ⟨hfit, hfinish⟩
  · rintro ⟨hfit, hrun⟩
    rw [run_eq] at hrun
    obtain ⟨s1, hpushed, hfinish⟩ := bind_eq_ok.1 hrun
    rw [foldlM_push_eq hsettled hfit, hpushed]
    exact hfinish

end DeltaApplier

end Kompjutr.Pack
