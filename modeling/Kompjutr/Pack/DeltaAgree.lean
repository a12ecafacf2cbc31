/-
  Kompjutr.Pack.DeltaAgree

  The incremental delta parser against the buffered pair.

  From the first opcode on the parser follows `applyCommands` (`run_opcode`): a
  literal is a run of bytes, a copy command takes the bytes its bits ask for.
  Both read the two sizes alike (`run_size`).  So both accept a delta on the same
  condition, `Decodes`, and differ only in what their limits count.
-/
import Kompjutr.Pack.DeltaSound

namespace Kompjutr.Pack

open Fuel

variable {bits result delta : List UInt8} {b expected : Nat} {pool : ChunkPool}
  {limits : DeltaLimits}

variable {command bit : UInt8} {rest rest' : List UInt8}

-- The bytes of a copy command

/-- The bytes the bits of a command ask for, with zero for a bit that is not set. -/
def nextArgs (command : UInt8) :
    List UInt8 → List UInt8 → Except GitError (List Nat × List UInt8)
  | [], rest => pure ([], rest)
  | bit :: bits, rest => do
    let (byte, rest) ← nextIf command bit rest
    let (bytes, rest) ← nextArgs command bits rest
    return (byte :: bytes, rest)

theorem nextArgs_cons {bs : List Nat} : nextArgs command (bit :: bits) rest = .ok (b :: bs, rest') ↔
      ∃ r, nextIf command bit rest = .ok (b, r) ∧ nextArgs command bits r = .ok (bs, rest') := by
  constructor
  · intro h
    obtain ⟨⟨c, r⟩, hfirst, h⟩ := bind_eq_ok.1 h
    obtain ⟨⟨cs, r'⟩, hrest, h⟩ := bind_eq_ok.1 h
    obtain ⟨hargs, rfl⟩ := Prod.mk.inj (Except.ok.inj h)
    obtain ⟨rfl, rfl⟩ := List.cons.inj hargs
    exact ⟨r, hfirst, hrest⟩
  · rintro ⟨r, hfirst, hrest⟩
    simp only [nextArgs, hfirst, ok_bind, hrest]
    rfl

theorem nextIf_set (h : command &&& bit ≠ 0) (byte : UInt8)
    (rest : List UInt8) : nextIf command bit (byte :: rest) = .ok (byte.toNat, rest) := by
  unfold nextIf
  rw [if_pos h]
  rfl

theorem nextIf_unset (h : command &&& bit = 0) (rest : List UInt8) :
    nextIf command bit rest = .ok (0, rest) := by
  unfold nextIf
  rw [if_neg (by simpa using h)]
  rfl

theorem nextIf_lt (h : nextIf command bit rest = .ok (b, rest')) : b < 256 := by
  unfold nextIf at h
  split at h
  · cases rest with
    | nil => cases h
    | cons byte rest =>
      cases h
      exact byte.toNat_lt
  · cases h
    decide

theorem or_shiftLeft {a b n : Nat} (h : a < 2 ^ n) : a ||| b <<< n = a + b * 2 ^ n := by
  rw [Nat.or_comm, ← Nat.shiftLeft_add_eq_or_of_lt h, Nat.shiftLeft_eq, Nat.add_comm]

/-- Bits put together are bytes summed up. -/
theorem or_bytes {b0 b1 b2 : Nat} (h0 : b0 < 256) (h1 : b1 < 256) :
    b0 ||| b1 <<< 8 ||| b2 <<< 16 = b0 + b1 * 0x100 + b2 * 0x10000 := by
  calc b0 ||| b1 <<< 8 ||| b2 <<< 16
      = b0 + b1 * 2 ^ 8 + b2 * 2 ^ 16 := by
        rw [or_shiftLeft (n := 8) (by omega), or_shiftLeft (n := 16) (by omega)]
    _ = b0 + b1 * 0x100 + b2 * 0x10000 := by omega

/-- The size a copy command stands for. -/
def copyLength (size : Nat) : Nat := if size = 0 then 0x10000 else size

theorem readCopy_eq_ok {offset size : Nat} : readCopy command rest = .ok (offset, size, rest') ↔
      ∃ b0 b1 b2 b3 b4 b5 b6,
        nextArgs command copyBitOrder rest = .ok ([b0, b1, b2, b3, b4, b5, b6], rest') ∧
        offset = b0 + b1 * 0x100 + b2 * 0x10000 + b3 * 0x1000000 ∧
        size = copyLength (b4 + b5 * 0x100 + b6 * 0x10000) := by
  constructor
  · intro h
    unfold readCopy at h
    obtain ⟨⟨b0, r0⟩, h0, h⟩ := bind_eq_ok.1 h
    obtain ⟨⟨b1, r1⟩, h1, h⟩ := bind_eq_ok.1 h
    obtain ⟨⟨b2, r2⟩, h2, h⟩ := bind_eq_ok.1 h
    obtain ⟨⟨b3, r3⟩, h3, h⟩ := bind_eq_ok.1 h
    obtain ⟨⟨b4, r4⟩, h4, h⟩ := bind_eq_ok.1 h
    obtain ⟨⟨b5, r5⟩, h5, h⟩ := bind_eq_ok.1 h
    obtain ⟨⟨b6, r6⟩, h6, h⟩ := bind_eq_ok.1 h
    obtain ⟨hoffset, h⟩ := Prod.mk.inj (Except.ok.inj h)
    obtain ⟨hsize, rfl⟩ := Prod.mk.inj h
    rw [or_bytes (nextIf_lt h0) (nextIf_lt h1)] at hoffset
    rw [or_bytes (nextIf_lt h4) (nextIf_lt h5)] at hsize
    refine ⟨b0, b1, b2, b3, b4, b5, b6, ?_, hoffset.symm, hsize.symm⟩
    simp only [nextArgs, copyBitOrder, h0, h1, h2, h3, h4, h5, h6, ok_bind]
    rfl
  · rintro ⟨b0, b1, b2, b3, b4, b5, b6, hargs, rfl, rfl⟩
    obtain ⟨r0, h0, hargs⟩ := nextArgs_cons.1 hargs
    obtain ⟨r1, h1, hargs⟩ := nextArgs_cons.1 hargs
    obtain ⟨r2, h2, hargs⟩ := nextArgs_cons.1 hargs
    obtain ⟨r3, h3, hargs⟩ := nextArgs_cons.1 hargs
    obtain ⟨r4, h4, hargs⟩ := nextArgs_cons.1 hargs
    obtain ⟨r5, h5, hargs⟩ := nextArgs_cons.1 hargs
    obtain ⟨r6, h6, hargs⟩ := nextArgs_cons.1 hargs
    cases hargs
    simp only [readCopy, h0, h1, h2, h3, h4, h5, h6, ok_bind, or_bytes (nextIf_lt h0) (nextIf_lt h1),
      or_bytes (nextIf_lt h4) (nextIf_lt h5)]
    rfl

theorem nextArgs_length {args : List Nat}
    (h : nextArgs command bits rest = .ok (args, rest')) : args.length = bits.length := by
  induction bits generalizing rest args with
  | nil =>
    cases h
    rfl
  | cons bit bits ih =>
    obtain ⟨⟨b, r⟩, -, h⟩ := bind_eq_ok.1 h
    obtain ⟨⟨bs, r'⟩, hrest, h⟩ := bind_eq_ok.1 h
    cases h
    rw [List.length_cons, List.length_cons, ih hrest]

-- One command of the buffered loop

variable {base out : List UInt8}

theorem applyCommands_copy {targetSize : Nat} (h : command &&& 0x80 ≠ 0) :
    applyCommands base targetSize out (command :: rest) = .ok result ↔
      ∃ offset size rest', readCopy command rest = .ok (offset, size, rest') ∧
        offset + size ≤ base.length ∧ out.length + size ≤ targetSize ∧
        applyCommands base targetSize (out ++ (base.drop offset).take size) rest' = .ok result := by
  rw [applyCommands, if_pos h]
  split
  · rename_i e hread
    constructor
    · intro h
      cases h
    · rintro ⟨offset, size, rest', hok, -⟩
      rw [hread] at hok
      cases hok
  · rename_i offset size rest' hread
    constructor
    · intro h
      split at h
      · cases h
      split at h
      · cases h
      · exact ⟨offset, size, rest', hread, by omega, by omega, h⟩
    · rintro ⟨offset', size', rest'', hok, hin, hfit, h⟩
      rw [hread] at hok
      obtain ⟨rfl, hsame⟩ := Prod.mk.inj (Except.ok.inj hok)
      obtain ⟨rfl, rfl⟩ := Prod.mk.inj hsame
      rw [if_neg (by omega), if_neg (by omega)]
      exact h

theorem applyCommands_literal {targetSize : Nat} (h : command &&& 0x80 = 0) :
    applyCommands base targetSize out (command :: rest) = .ok result ↔
      command ≠ 0 ∧ command.toNat ≤ rest.length ∧ out.length + command.toNat ≤ targetSize ∧
        applyCommands base targetSize (out ++ rest.take command.toNat) (rest.drop command.toNat) =
          .ok result := by
  rw [applyCommands, if_neg (by simpa using h)]
  constructor
  · intro h
    split at h
    · split at h
      · cases h
      split at h
      · cases h
      · exact ⟨by assumption, by omega, by omega, h⟩
    · cases h
  · rintro ⟨hne, hlen, hfit, h⟩
    rw [if_pos hne, if_neg (by omega), if_neg (by omega)]
    exact h

/-- The commands in `rest` finish the target `out`, of which `target` is written. -/
def Finishes (base : List UInt8) (targetSize : Nat) (out target rest : List UInt8) : Prop :=
  applyCommands base targetSize target rest = .ok out ∧ out.length = targetSize

namespace DeltaApplier

-- Opcodes

/-- What the byte for a bit adds to the offset and the size. -/
def addArg (copy : Nat × Nat) (bit : UInt8) (byte : Nat) : Nat × Nat :=
  if bit ≤ 0x08 then
    (copy.1 + byte * (if bit = 0x01 then 1 else if bit = 0x02 then 0x100
      else if bit = 0x04 then 0x10000 else 0x1000000), copy.2)
  else
    (copy.1, copy.2 + byte * (if bit = 0x10 then 1 else if bit = 0x20 then 0x100 else 0x10000))

theorem addArg_zero (copy : Nat × Nat) (bit : UInt8) : addArg copy bit 0 = copy := by
  unfold addArg
  split <;> simp

/-- What the bytes for some bits add, in their order. -/
def addArgs : Nat × Nat → List UInt8 → List Nat → Nat × Nat
  | copy, bit :: bits, byte :: bytes => addArgs (addArg copy bit byte) bits bytes
  | copy, _, _ => copy

theorem copyByte_eq (s : DeltaApplier) (bit byte : UInt8) :
    s.copyByte bit byte =
      { s with
        copyOffset := (addArg (s.copyOffset, s.copySize) bit byte.toNat).1
        copySize := (addArg (s.copyOffset, s.copySize) bit byte.toNat).2 } := by
  unfold copyByte addArg
  split <;> rfl

section

variable {base out : List UInt8} {targetSize : Nat} {n : Nat}

section

variable
  (hop : ∀ (s : DeltaApplier) (rest : List UInt8), s.phase = .opcode → s.base = base → s.targetSize = targetSize → rest.length ≤ n → (s.run rest = .ok out ↔ Finishes base targetSize out s.target rest))

include hop

/-- A copy command takes its bytes, and is then carried out. -/
theorem run_copy (bits : List UInt8) : ∀ {s : DeltaApplier} {rest : List UInt8},
    s.phase = .copy → s.base = base → s.targetSize = targetSize →
    s.bitsLeft = bits.dropWhile (fun bit => s.copyCommand &&& bit = 0) → rest.length ≤ n →
    (s.run rest = .ok out ↔
      ∃ args rest' offset size, nextArgs s.copyCommand bits rest = .ok (args, rest') ∧
        (offset, size) = addArgs (s.copyOffset, s.copySize) bits args ∧
        offset + copyLength size ≤ base.length ∧
        s.target.length + copyLength size ≤ targetSize ∧
        Finishes base targetSize out (s.target ++ (base.drop offset).take (copyLength size)) rest') := by
  induction bits with
  | nil =>
    intro s rest hphase hbase htarget hbits hlen
    subst hbase htarget
    rw [← run_settleCopy, settleCopy_done hphase hbits]
    constructor
    · intro h
      obtain ⟨s1, hs1, h⟩ := bind_eq_ok.1 h
      cases hcopy : s.applyCopy with
      | error e =>
        rw [hcopy] at hs1
        cases hs1
      | ok s2 =>
        rw [hcopy] at hs1
        cases hs1
        obtain ⟨size, rfl, hin, hfit, rfl⟩ := applyCopy_cases hcopy
        exact ⟨[], rest, s.copyOffset, s.copySize, rfl, rfl, hin, hfit,
          (hop _ rest (by rfl) (by rfl) (by rfl) hlen).1 h⟩
    · rintro ⟨args, rest', offset, size, hargs, hcopy, hin, hfit, hafter⟩
      cases hargs
      obtain ⟨rfl, rfl⟩ := Prod.mk.inj hcopy
      rw [applyCopy_ok rfl hin hfit]
      exact (hop _ rest (by rfl) (by rfl) (by rfl) hlen).2 hafter
  | cons bit bits ih =>
    intro s rest hphase hbase htarget hbits hlen
    by_cases hset : s.copyCommand &&& bit = 0
    · -- the bit asks for nothing
      rw [List.dropWhile_cons_of_pos (by simpa using hset)] at hbits
      rw [ih hphase hbase htarget hbits hlen]
      constructor
      · rintro ⟨args, rest', offset, size, hargs, hcopy, hrest⟩
        refine ⟨0 :: args, rest', offset, size, ?_, ?_, hrest⟩
        · exact nextArgs_cons.2 ⟨rest, nextIf_unset hset rest, hargs⟩
        · rw [addArgs, addArg_zero]
          exact hcopy
      · rintro ⟨args, rest', offset, size, hargs, hcopy, hrest⟩
        obtain ⟨b, bs, rfl⟩ := List.exists_cons_of_length_pos
          (by rw [nextArgs_length hargs]; simp : 0 < args.length)
        obtain ⟨r, hfirst, hargs⟩ := nextArgs_cons.1 hargs
        rw [nextIf_unset hset] at hfirst
        cases hfirst
        rw [addArgs, addArg_zero] at hcopy
        exact ⟨bs, rest', offset, size, hargs, hcopy, hrest⟩
    · rw [List.dropWhile_cons_of_neg (by simpa using hset)] at hbits
      have hleft : s.bitsLeft ≠ [] := by simp [hbits]
      cases rest with
      | nil =>
        -- the delta ends inside the command
        constructor
        · intro h
          rw [run, List.foldlM_nil, pure_bind, settleCopy_pending hphase hleft, ok_bind,
            finish_ok] at h
          exact absurd (hphase.symm.trans h.1) (by simp)
        · rintro ⟨args, rest', offset, size, hargs, -⟩
          obtain ⟨b, bs, rfl⟩ := List.exists_cons_of_length_pos
            (by rw [nextArgs_length hargs]; simp : 0 < args.length)
          obtain ⟨r, hfirst, -⟩ := nextArgs_cons.1 hargs
          unfold nextIf at hfirst
          rw [if_pos hset] at hfirst
          cases hfirst
      | cons byte rest =>
        have hpush : s.pushByte byte =
            .ok { s with
              copyBits := bits
              copyOffset := (addArg (s.copyOffset, s.copySize) bit byte.toNat).1
              copySize := (addArg (s.copyOffset, s.copySize) bit byte.toNat).2 } := by
          unfold pushByte
          simp only [hphase]
          rw [settleCopy_pending hphase hleft, ok_bind, copyStep]
          simp only [hphase, hbits, copyByte_eq]
          rfl
        rw [run_cons, hpush, ok_bind, ih (by exact hphase) (by exact hbase) (by exact htarget) rfl
          (by simp only [List.length_cons] at hlen; omega)]
        constructor
        · rintro ⟨args, rest', offset, size, hargs, hcopy, hrest⟩
          exact ⟨byte.toNat :: args, rest', offset, size,
            nextArgs_cons.2 ⟨rest, nextIf_set hset byte rest, hargs⟩, hcopy, hrest⟩
        · rintro ⟨args, rest', offset, size, hargs, hcopy, hrest⟩
          obtain ⟨b, bs, rfl⟩ := List.exists_cons_of_length_pos
            (by rw [nextArgs_length hargs]; simp : 0 < args.length)
          obtain ⟨r, hfirst, hargs⟩ := nextArgs_cons.1 hargs
          rw [nextIf_set hset] at hfirst
          cases hfirst
          exact ⟨bs, rest', offset, size, hargs, hcopy, hrest⟩

/-- A literal takes the bytes it announces. -/
theorem run_literal :
    ∀ {s : DeltaApplier} {rest : List UInt8},
    s.phase = .literal → s.base = base → s.targetSize = targetSize → 0 < s.literalRemaining →
    rest.length ≤ n →
    (s.run rest = .ok out ↔ s.literalRemaining ≤ rest.length ∧
      Finishes base targetSize out (s.target ++ rest.take s.literalRemaining) (rest.drop s.literalRemaining)) := by
  intro s rest
  induction rest generalizing s with
  | nil =>
    intro hphase hbase htarget hpos hlen
    constructor
    · intro h
      rw [run, List.foldlM_nil, pure_bind, settleCopy_of_phase (by simp [hphase]), ok_bind,
        finish_ok] at h
      exact absurd (hphase.symm.trans h.1) (by simp)
    · rintro ⟨h, -⟩
      exact absurd h (by simp; omega)
  | cons byte rest ih =>
    intro hphase hbase htarget hpos hlen
    rw [List.length_cons] at hlen
    have hpush : s.pushByte byte = .ok (s.literalByte byte) := by
      unfold pushByte
      simp only [hphase]
      rfl
    obtain ⟨m, hm⟩ : ∃ m, s.literalRemaining = m + 1 := ⟨_, (Nat.succ_pred_eq_of_pos hpos).symm⟩
    rw [run_cons, hpush, ok_bind, hm]
    by_cases hlast : m = 0
    · subst hlast
      rw [hop _ rest (by simp [literalByte, hm]) (by exact hbase) (by exact htarget) (by omega)]
      simp [literalByte]
    · rw [ih (by simp [literalByte, hm, hlast]) (by exact hbase) (by exact htarget)
        (by simp [literalByte, hm]; omega) (by omega)]
      simp [literalByte, hm]

end

end

theorem addArgs_copyBitOrder (b0 b1 b2 b3 b4 b5 b6 : Nat) :
    addArgs (0, 0) copyBitOrder [b0, b1, b2, b3, b4, b5, b6] =
      (b0 + b1 * 0x100 + b2 * 0x10000 + b3 * 0x1000000, b4 + b5 * 0x100 + b6 * 0x10000) := by
  simp [addArgs, copyBitOrder, addArg]

theorem exists_seven {bytes : List Nat} (h : bytes.length = copyBitOrder.length) :
    ∃ b0 b1 b2 b3 b4 b5 b6, bytes = [b0, b1, b2, b3, b4, b5, b6] := by
  match bytes, h with
  | [b0, b1, b2, b3, b4, b5, b6], _ => exact ⟨b0, b1, b2, b3, b4, b5, b6, rfl⟩

/-- From an opcode on the parser does what `applyCommands` does. -/
theorem run_opcode : ∀ (n : Nat) (s : DeltaApplier) (rest : List UInt8),
    rest.length ≤ n → s.phase = .opcode →
    (s.run rest = .ok out ↔ Finishes s.base s.targetSize out s.target rest) := by
  have hend : ∀ s : DeltaApplier, s.phase = .opcode →
      (s.run [] = .ok out ↔ Finishes s.base s.targetSize out s.target []) := by
    intro s hphase
    rw [run, List.foldlM_nil, pure_bind, settleCopy_of_phase (by simp [hphase]), ok_bind, finish_ok,
      Finishes, applyCommands]
    constructor
    · rintro ⟨-, hlen, rfl⟩
      exact ⟨rfl, hlen⟩
    · rintro ⟨h, hlen⟩
      cases h
      exact ⟨hphase, hlen, rfl⟩
  intro n
  induction n with
  | zero =>
    intro s rest hlen hphase
    obtain rfl : rest = [] := List.length_eq_zero_iff.1 (by omega)
    exact hend s hphase
  | succ n ih =>
    intro s rest hlen hphase
    cases rest with
    | nil => exact hend s hphase
    | cons command rest =>
      rw [List.length_cons] at hlen
      have hop : ∀ (s' : DeltaApplier) (rest' : List UInt8), s'.phase = .opcode → s'.base = s.base →
          s'.targetSize = s.targetSize → rest'.length ≤ n →
          (s'.run rest' = .ok out ↔ Finishes s.base s.targetSize out s'.target rest') := by
        intro s' rest' hphase' hbase htarget hlen'
        rw [ih s' rest' hlen' hphase', hbase, htarget]
      have hpush : s.pushByte command = s.opcodeByte command := by
        unfold pushByte
        simp only [hphase]
      rw [run_cons, hpush]
      by_cases hcopy : command &&& 0x80 ≠ 0
      · rw [opcodeByte_ok.2 (.inl ⟨hcopy, rfl⟩), ok_bind, Finishes, applyCommands_copy hcopy,
          run_copy hop copyBitOrder (s := s.copying command) rfl rfl rfl rfl
            (Nat.le_of_succ_le_succ hlen)]
        constructor
        · rintro ⟨args, rest', offset, size, hargs, hcopy, hin, hfit, h, hout⟩
          obtain ⟨b0, b1, b2, b3, b4, b5, b6, rfl⟩ := exists_seven (nextArgs_length hargs)
          rw [show ((s.copying command).copyOffset, (s.copying command).copySize) = (0, 0) from rfl,
            addArgs_copyBitOrder] at hcopy
          obtain ⟨rfl, rfl⟩ := Prod.mk.inj hcopy
          exact ⟨⟨_, _, rest', readCopy_eq_ok.2 ⟨b0, b1, b2, b3, b4, b5, b6, hargs, rfl, rfl⟩, hin, hfit,
            h⟩, hout⟩
        · rintro ⟨⟨offset, size, rest', hread, hin, hfit, h⟩, hout⟩
          obtain ⟨b0, b1, b2, b3, b4, b5, b6, hargs, rfl, rfl⟩ := readCopy_eq_ok.1 hread
          exact ⟨_, rest', _, _, hargs, (addArgs_copyBitOrder b0 b1 b2 b3 b4 b5 b6).symm, hin, hfit, h,
            hout⟩
      · rw [not_not] at hcopy
        rw [Finishes, applyCommands_literal hcopy]
        constructor
        · intro h
          obtain ⟨s1, hopcode, h⟩ := bind_eq_ok.1 h
          rcases opcodeByte_ok.1 hopcode with ⟨hne, -⟩ | ⟨-, hzero, hfit, rfl⟩
          · exact absurd hcopy hne
          · have hpos : 0 < command.toNat := Nat.pos_of_ne_zero fun h => hzero (UInt8.toNat_inj.1 h)
            obtain ⟨hlen', h, hout⟩ := (run_literal hop (s := s.reading command.toNat) rfl rfl rfl hpos
              (Nat.le_of_succ_le_succ hlen)).1 h
            exact ⟨⟨hzero, hlen', hfit, h⟩, hout⟩
        · rintro ⟨⟨hzero, hlen', hfit, h⟩, hout⟩
          have hpos : 0 < command.toNat := Nat.pos_of_ne_zero fun h => hzero (UInt8.toNat_inj.1 h)
          rw [opcodeByte_ok.2 (.inr ⟨hcopy, hzero, hfit, rfl⟩), ok_bind]
          exact (run_literal hop (s := s.reading command.toNat) rfl rfl rfl hpos
            (Nat.le_of_succ_le_succ hlen)).2 ⟨hlen', h, hout⟩

-- Sizes

/-- What follows a complete size. -/
def sizeDone (s : DeltaApplier) (value : Nat) : Except GitError DeltaApplier :=
  if s.phase = .sourceSize then
    if value ≠ s.base.length then throw (corrupt "delta base size mismatch")
    else pure (resetSize { s with phase := .targetSize })
  else (fun s : DeltaApplier => resetSize { s with phase := .opcode }) <$> s.admitTarget value

/-- A byte of a size that is not the last one. -/
def sizeMore (s : DeltaApplier) (byte : UInt8) : DeltaApplier :=
  { s with
    sizeValue := s.sizeValue + (byte &&& 0x7f).toNat * s.sizeMultiplier
    sizeMultiplier := s.sizeMultiplier * 128 }

theorem isSafeInteger_mono {m n : Nat} (hle : m ≤ n) (h : isSafeInteger n = true) :
    isSafeInteger m = true := by
  rw [isSafeInteger_iff] at h ⊢
  simp only [maxSafeInteger] at h ⊢
  omega

/-- The value of a size with one more byte. -/
def sizeNext (s : DeltaApplier) (byte : UInt8) : Nat :=
  s.sizeValue + (byte &&& 0x7f).toNat * s.sizeMultiplier

theorem sizeByte_overflow {s : DeltaApplier} {byte : UInt8}
    (h : isSafeInteger (s.sizeNext byte : Int) = false) :
    s.sizeByte byte = .error (corrupt "delta size is invalid") := by
  unfold sizeByte
  rw [sizeNext, Int.natCast_add] at h
  dsimp only
  rw [h, Bool.not_false, Bool.or_true, if_pos rfl]
  rfl

theorem sizeByte_safe {s : DeltaApplier} {byte : UInt8}
    (h : isSafeInteger (s.sizeNext byte : Int) = true) :
    s.sizeByte byte =
      if byte &&& 0x80 = 0 then pure (true, { s with sizeValue := s.sizeNext byte })
      else if isSafeInteger ((s.sizeMultiplier * 128 : Nat) : Int) then pure (false, s.sizeMore byte)
      else throw (corrupt "delta size is invalid") := by
  have hadd : isSafeInteger (((byte &&& 0x7f).toNat * s.sizeMultiplier : Nat) : Int) = true :=
    isSafeInteger_mono (Nat.le_add_left _ _) h
  unfold sizeByte
  rw [sizeNext, Int.natCast_add] at h
  dsimp only
  rw [h, hadd, if_neg (by simp)]
  split
  · rfl
  · cases isSafeInteger ((s.sizeMultiplier * 128 : Nat) : Int) <;> rfl

/-- A byte of a size: one of several, the last one, or one too many. -/
theorem pushByte_size {s : DeltaApplier} (byte : UInt8)
    (hphase : s.phase = .sourceSize ∨ s.phase = .targetSize) :
    s.pushByte byte = s.sizeByte byte >>= fun p =>
      if p.1 then p.2.sizeDone p.2.sizeValue else pure p.2 := by
  have hread : ∀ {complete : Bool} {s' : DeltaApplier}, s.sizeByte byte = .ok (complete, s') →
      s'.phase = s.phase := fun h => (sizeByte_same h).2
  unfold pushByte
  cases hsize : s.sizeByte byte with
  | error e => rcases hphase with hphase | hphase <;> simp only [hphase] <;> rfl
  | ok p =>
    obtain ⟨complete, s1⟩ := p
    have hphase1 := hread hsize
    cases complete with
    | false => rcases hphase with hphase | hphase <;> simp only [hphase] <;> rfl
    | true =>
      rcases hphase with hphase | hphase <;>
        simp only [hphase, ok_bind, sizeDone, hphase1, if_true, Bool.not_true, Bool.false_eq_true,
          if_false, reduceCtorEq]
      · by_cases hsize : s1.sizeValue = s1.base.length <;> simp [hsize]; rfl
      · cases s1.admitTarget s1.sizeValue <;> rfl

theorem sizeDone_ok {s s' : DeltaApplier} {value : Nat} :
    s.sizeDone value = .ok s' ↔
      (s.phase = .sourceSize ∧ value = s.base.length ∧
        s' = resetSize { s with phase := .targetSize }) ∨
      (s.phase ≠ .sourceSize ∧ s.Admits value ∧
        s' = resetSize { s with targetSize := value, target := [], phase := .opcode }) := by
  unfold sizeDone
  by_cases hphase : s.phase = .sourceSize
  · rw [if_pos hphase]
    by_cases hvalue : value = s.base.length
    · rw [if_neg (not_not.2 hvalue)]
      refine ⟨fun h => .inl ⟨hphase, hvalue, (Except.ok.inj h).symm⟩, ?_⟩
      rintro (⟨-, -, rfl⟩ | ⟨h, -⟩)
      · rfl
      · exact absurd hphase h
    · rw [if_pos hvalue]
      refine ⟨fun h => (by cases h), ?_⟩
      rintro (⟨-, h, -⟩ | ⟨h, -⟩)
      · exact absurd h hvalue
      · exact absurd hphase h
  · rw [if_neg hphase]
    constructor
    · intro h
      cases hadmitted : s.admitTarget value with
      | error e =>
        rw [hadmitted] at h
        cases h
      | ok s1 =>
        rw [hadmitted] at h
        obtain ⟨hadmits, rfl⟩ := admitTarget_ok.1 hadmitted
        exact .inr ⟨hphase, hadmits, (Except.ok.inj h).symm⟩
    · rintro (⟨h, -⟩ | ⟨-, hadmits, rfl⟩)
      · exact absurd h hphase
      · rw [admitTarget_ok.2 ⟨hadmits, rfl⟩]
        rfl

/-- How far a size is read does not matter once it is complete. -/
theorem sizeDone_sizing {s s' : DeltaApplier} (value v m : Nat) :
    ({ s with sizeValue := v, sizeMultiplier := m } : DeltaApplier).sizeDone value = .ok s' ↔
      s.sizeDone value = .ok s' := by
  have hadmits : ({ s with sizeValue := v, sizeMultiplier := m } : DeltaApplier).Admits value ↔
      s.Admits value := ⟨fun h => ⟨h.1, h.2, h.3, h.4⟩, fun h => ⟨h.1, h.2, h.3, h.4⟩⟩
  rw [sizeDone_ok, sizeDone_ok, hadmits]
  rfl

theorem boundedVarint_ge {value shift result : Nat} {bytes : List UInt8}
    (h : boundedVarint value shift bytes = .ok (result, rest)) : value ≤ result := by
  induction bytes generalizing value shift with
  | nil => cases h
  | cons byte bytes ih =>
    rw [boundedVarint] at h
    split at h
    · cases h
    split at h
    · exact (Nat.le_add_right _ _).trans (ih h)
    · cases h
      exact Nat.le_add_right _ _

/-- A size is read as `boundedVarint` reads it, but has to be a safe integer. -/
theorem run_size (bytes : List UInt8) : ∀ {s : DeltaApplier} {i : Nat},
    s.phase = .sourceSize ∨ s.phase = .targetSize → s.sizeMultiplier = 2 ^ (7 * i) → i ≤ 7 →
    (s.run bytes = .ok out ↔
      ∃ value rest s', boundedVarint s.sizeValue (7 * i) bytes = .ok (value, rest) ∧
        isSafeInteger value = true ∧ s.sizeDone value = .ok s' ∧ s'.run rest = .ok out) := by
  induction bytes with
  | nil =>
    intro s i hphase hmultiplier hi
    constructor
    · intro h
      rw [run, List.foldlM_nil, pure_bind,
        settleCopy_of_phase (by rcases hphase with h | h <;> simp [h]), ok_bind, finish_ok] at h
      rcases hphase with hphase | hphase <;> exact absurd (hphase.symm.trans h.1) (by simp)
    · rintro ⟨value, rest, s', h, -⟩
      cases h
  | cons byte bytes ih =>
    intro s i hphase hmultiplier hi
    have hnext : s.sizeValue + (byte &&& 0x7f).toNat * 2 ^ (7 * i) = s.sizeNext byte := by
      rw [sizeNext, hmultiplier]
    rw [run_cons, pushByte_size byte hphase, boundedVarint, if_neg (by omega), hnext]
    cases hsafe : isSafeInteger (s.sizeNext byte : Int) with
    | true =>
      rw [sizeByte_safe hsafe]
      by_cases hlast : byte &&& 0x80 = 0
      · -- the last byte of the size
        rw [if_pos hlast, if_neg (not_not.2 hlast), pure_bind, if_pos rfl]
        constructor
        · intro h
          obtain ⟨s', hdone, h⟩ := bind_eq_ok.1 h
          exact ⟨_, bytes, s', rfl, hsafe, (sizeDone_sizing _ _ _).1 hdone, h⟩
        · rintro ⟨value, rest, s', hread, -, hdone, h⟩
          cases hread
          exact bind_eq_ok.2 ⟨s', (sizeDone_sizing _ _ _).2 hdone, h⟩
      · rw [if_neg hlast, if_pos hlast]
        by_cases hlong : i = 7
        · -- a ninth byte: the parser refuses the multiplier, the check the shift
          subst hlong
          rw [hmultiplier, if_neg (by decide)]
          constructor
          · intro h
            cases h
          · rintro ⟨value, rest, s', hread, -⟩
            cases bytes with
            | nil => cases hread
            | cons byte bytes =>
              rw [boundedVarint, if_pos (by omega)] at hread
              cases hread
        · have hmultiplier' : s.sizeMultiplier * 128 = 2 ^ (7 * (i + 1)) := by
            rw [hmultiplier, Nat.mul_add, Nat.pow_add]
          have hpow : 2 ^ (7 * (i + 1)) ≤ 2 ^ 49 := Nat.pow_le_pow_right (by omega) (by omega)
          have hfits : isSafeInteger ((s.sizeMultiplier * 128 : Nat) : Int) = true := by
            rw [hmultiplier']
            exact isSafeInteger_mono hpow (by decide)
          rw [if_pos hfits, pure_bind, if_neg (by simp), pure_bind,
            ih (s := s.sizeMore byte) (i := i + 1) hphase hmultiplier' (by omega)]
          simp only [sizeMore, sizeDone_sizing]
          rfl
    | false =>
      -- an unsafe size: it does not get smaller
      rw [sizeByte_overflow hsafe]
      constructor
      · intro h
        cases h
      · rintro ⟨value, rest, s', hread, hvalue, -⟩
        have hle : s.sizeNext byte ≤ value := by
          split at hread
          · exact boundedVarint_ge hread
          · cases hread
            exact Nat.le_refl _
        rw [isSafeInteger_mono hle hvalue] at hsafe
        cases hsafe

end DeltaApplier

-- The two decoders

/-- The delta decodes to `out` on the base: two sizes, and commands that fill the target. -/
def Decodes (base delta out : List UInt8) : Prop :=
  ∃ rest rest', boundedVarint 0 0 delta = .ok (base.length, rest) ∧
    boundedVarint 0 0 rest = .ok (out.length, rest') ∧ Finishes base out.length out [] rest'

/-- Limits the parser can be made with. -/
def DeltaLimits.Valid (limits : DeltaLimits) : Prop :=
  (∀ n ∈ limits.expectedTargetSize, isSafeInteger n = true) ∧
    isSafeInteger limits.maxWorkingBytes = true ∧ isSafeInteger limits.maxInstructionBytes = true

open DeltaApplier

theorem chunkFootprint_ok {length footprint : Nat} :
    chunkFootprint length = .ok footprint ↔
      isSafeInteger length = true ∧ isSafeInteger footprint = true ∧
        footprint = chunkCount length * packChunkBytes := by
  unfold chunkFootprint
  cases hlength : isSafeInteger (length : Int) with
  | false => exact ⟨fun h => (by cases h), fun h => (by cases h.1)⟩
  | true =>
    cases hfoot : isSafeInteger ((chunkCount length * packChunkBytes : Nat) : Int) with
    | false =>
      simp only [hfoot]
      refine ⟨fun h => (by cases h), ?_⟩
      rintro ⟨-, h, rfl⟩
      rw [hfoot] at h
      cases h
    | true =>
      simp only [hfoot]
      refine ⟨fun h => ?_, ?_⟩
      · cases h
        exact ⟨trivial, hfoot, rfl⟩
      · rintro ⟨-, -, rfl⟩
        rfl

theorem create_ok {s : DeltaApplier} :
    create base pool limits = .ok s ↔ limits.Valid ∧ s = start base pool limits := by
  have hvalid : (limits.expectedTargetSize.any (fun size => !isSafeInteger size) ||
      !isSafeInteger limits.maxWorkingBytes || !isSafeInteger limits.maxInstructionBytes) = false ↔
        limits.Valid := by
    unfold DeltaLimits.Valid
    cases limits.expectedTargetSize <;> simp [and_assoc]
  unfold create
  by_cases h : limits.Valid
  · rw [hvalid.2 h, if_neg (by simp)]
    exact ⟨fun heq => ⟨h, (Except.ok.inj heq).symm⟩, fun heq => congrArg Except.ok heq.2.symm⟩
  · rw [if_pos (by rw [← Bool.not_eq_false, hvalid]; exact h)]
    exact ⟨fun heq => (by cases heq), fun heq => absurd heq.1 h⟩

/-- The parser accepts what decodes within its limits, however the delta is divided. -/
theorem applyChunks_ok {chunks : List (List UInt8)} :
    applyChunks base pool limits chunks = .ok out ↔
      limits.Valid ∧ chunks.flatten.length ≤ limits.maxInstructionBytes ∧
        (start base pool limits).Admits out.length ∧ Decodes base chunks.flatten out := by
  have hsafe : ∀ {value : Nat}, (start base pool limits).Admits value →
      isSafeInteger base.length = true ∧ isSafeInteger value = true := by
    intro value h
    obtain ⟨baseBytes, targetBytes, hbase, htarget, -⟩ := h.footprint
    exact ⟨(chunkFootprint_ok.1 hbase).1, (chunkFootprint_ok.1 htarget).1⟩
  -- the two sizes, and then the commands
  have hrun : (start base pool limits).run chunks.flatten = .ok out ↔
      (start base pool limits).Admits out.length ∧ Decodes base chunks.flatten out := by
    rw [run_size chunks.flatten (i := 0) (.inl rfl) rfl (by omega)]
    constructor
    · rintro ⟨source, rest, s1, hsource, -, hdone, h⟩
      rcases sizeDone_ok.1 hdone with ⟨-, rfl, rfl⟩ | ⟨hphase, -⟩
      · rw [run_size rest (i := 0) (.inr rfl) rfl (by omega)] at h
        obtain ⟨target, rest', s2, htarget, -, hdone', h⟩ := h
        rcases sizeDone_ok.1 hdone' with ⟨hphase, -⟩ | ⟨-, hadmits, rfl⟩
        · cases hphase
        · rw [run_opcode _ _ rest' (Nat.le_refl _) rfl] at h
          have hlen : out.length = target := h.2
          subst hlen
          exact ⟨⟨hadmits.1, hadmits.2, hadmits.3, hadmits.4⟩, rest, rest', hsource, htarget, h⟩
      · exact absurd rfl hphase
    · rintro ⟨hadmits, rest, rest', hsource, htarget, h⟩
      refine ⟨base.length, rest, _, hsource, (hsafe hadmits).1,
        sizeDone_ok.2 (.inl ⟨rfl, rfl, rfl⟩), ?_⟩
      rw [run_size rest (i := 0) (.inr rfl) rfl (by omega)]
      refine ⟨out.length, rest', _, htarget, (hsafe hadmits).2, sizeDone_ok.2 (.inr ⟨?_, ?_, rfl⟩), ?_⟩
      · exact fun h => (by cases h)
      · exact ⟨hadmits.1, hadmits.2, hadmits.3, hadmits.4⟩
      · rw [run_opcode _ _ rest' (Nat.le_refl _) rfl]
        exact h
  unfold applyChunks
  constructor
  · intro h
    obtain ⟨s, hcreate, h⟩ := bind_eq_ok.1 h
    obtain ⟨hvalid, rfl⟩ := create_ok.1 hcreate
    obtain ⟨hlen, h⟩ := (foldlM_push (settleCopy_of_phase (by simp [start])) (Nat.zero_le _)).1 h
    rw [show (start base pool limits).instructionBytes = 0 from rfl, Nat.zero_add] at hlen
    exact ⟨hvalid, hlen, hrun.1 h⟩
  · rintro ⟨hvalid, hlen, h⟩
    rw [create_ok.2 ⟨hvalid, rfl⟩, ok_bind]
    refine (foldlM_push (settleCopy_of_phase (by simp [start])) (Nat.zero_le _)).2 ⟨?_, hrun.2 h⟩
    rw [show (start base pool limits).instructionBytes = 0 from rfl, Nat.zero_add]
    exact hlen

theorem varint_of_boundedVarint {value shift result : Nat} {bytes : List UInt8}
    (h : boundedVarint value shift bytes = .ok (result, rest)) :
    varint value shift bytes = .ok (result, rest) := by
  induction bytes generalizing value shift with
  | nil => cases h
  | cons byte bytes ih =>
    rw [boundedVarint] at h
    rw [varint]
    split at h
    · cases h
    split at h
    · rename_i hmore
      rw [if_pos hmore]
      exact ih h
    · rename_i hlast
      rw [if_neg hlast]
      exact h

theorem validateDeltaWorkingSet_ok {targetSize : Nat} :
    validateDeltaWorkingSet base delta expected = .ok targetSize ↔
      targetSize = expected ∧ base.length + delta.length + expected ≤ maxPackDeltaWorkingBytes ∧
        ∃ rest rest', boundedVarint 0 0 delta = .ok (base.length, rest) ∧
          boundedVarint 0 0 rest = .ok (expected, rest') := by
  have hsafe : base.length + delta.length + expected ≤ maxPackDeltaWorkingBytes →
      isSafeInteger ((base.length + delta.length + expected : Nat) : Int) = true :=
    fun h => isSafeInteger_mono h (by decide)
  unfold validateDeltaWorkingSet
  constructor
  · intro h
    obtain ⟨⟨source, rest⟩, hsource, h⟩ := bind_eq_ok.1 h
    obtain ⟨⟨target, rest'⟩, htarget, h⟩ := bind_eq_ok.1 h
    dsimp only at h
    by_cases hbase : source = base.length
    · subst hbase
      rw [if_neg (by simp)] at h
      by_cases hexpected : target = expected
      · subst hexpected
        rw [if_neg (by simp)] at h
        by_cases hwork : base.length + delta.length + target ≤ maxPackDeltaWorkingBytes
        · rw [hsafe hwork, if_neg (by simpa using hwork)] at h
          exact ⟨(Except.ok.inj h).symm, hwork, rest, rest', hsource, htarget⟩
        · rw [if_pos (by simp [Nat.not_le.1 hwork])] at h
          cases h
      · rw [if_pos hexpected] at h
        cases h
    · rw [if_pos hbase] at h
      cases h
  · rintro ⟨rfl, hwork, rest, rest', hsource, htarget⟩
    rw [hsource, ok_bind]
    dsimp only
    rw [htarget, ok_bind]
    dsimp only
    rw [if_neg (by simp), if_neg (by simp), hsafe hwork, if_neg (by simpa using hwork)]
    rfl

/-- The buffered pair accepts what decodes within its limit. -/
theorem applyValidated_ok : applyValidated base delta expected = .ok out ↔
      out.length = expected ∧ base.length + delta.length + expected ≤ maxPackDeltaWorkingBytes ∧
        Decodes base delta out := by
  unfold applyValidated applyDelta
  constructor
  · intro h
    obtain ⟨size, hcheck, happly⟩ := bind_eq_ok.1 h
    clear h
    obtain ⟨rfl, hwork, rest, rest', hsource, htarget⟩ := validateDeltaWorkingSet_ok.1 hcheck
    rw [varint_of_boundedVarint hsource, ok_bind] at happly
    dsimp only at happly
    rw [varint_of_boundedVarint htarget, ok_bind] at happly
    dsimp only at happly
    have hmax : size ≤ maxDeltaTarget := by
      simp only [maxPackDeltaWorkingBytes, maxDeltaTarget] at hwork ⊢
      omega
    rw [if_neg (by simp), if_neg (by omega)] at happly
    obtain ⟨out', hout, hend⟩ := bind_eq_ok.1 happly
    by_cases hlen : out'.length = size
    · rw [if_neg (not_not.2 hlen)] at hend
      cases hend
      subst hlen
      exact ⟨rfl, hwork, rest, rest', hsource, htarget, hout, rfl⟩
    · rw [if_pos hlen] at hend
      cases hend
  · rintro ⟨rfl, hwork, rest, rest', hsource, htarget, hout, -⟩
    have hmax : out.length ≤ maxDeltaTarget := by
      simp only [maxPackDeltaWorkingBytes, maxDeltaTarget] at hwork ⊢
      omega
    rw [validateDeltaWorkingSet_ok.2 ⟨rfl, hwork, rest, rest', hsource, htarget⟩, ok_bind,
      varint_of_boundedVarint hsource, ok_bind]
    dsimp only
    rw [varint_of_boundedVarint htarget, ok_bind]
    dsimp only
    rw [if_neg (by simp), if_neg (by omega), hout, ok_bind, if_neg (by simp)]
    rfl

end Kompjutr.Pack
