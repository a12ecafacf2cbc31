/-
  Kompjutr.Lib.Utf8

  The UTF-8 decoder of the Encoding Standard, into UTF-16 code units: a byte
  that cannot continue the sequence begun so far ends it with U+FFFD and is
  read again as a first byte.

  An ASCII byte always stands for itself and leaves the decoder in its start
  state, so decoding commutes with cutting at ASCII bytes (`decode_cut`), and
  an ASCII result can come from the same bytes only (`eq_of_decode_ascii`).
-/
import Mathlib.Data.List.Basic
import Mathlib.Tactic.SplitIfs

namespace Kompjutr.Utf8

variable {b : UInt8} {u : UInt16} {bytes : List UInt8}

/-- A sequence begun but not complete: how many bytes it still needs, the range the next one must
    be in, and the bits read so far.  `needed = 0` is the start state. -/
structure Decoder where
  needed : Nat
  lower : Nat
  upper : Nat
  point : Nat
  deriving DecidableEq

def start : Decoder := ⟨0, 0x80, 0xbf, 0⟩

/-- The code units of a code point. -/
def unitsOf (point : Nat) : List UInt16 :=
  if point < 0x10000 then [point.toUInt16]
  else [(0xd800 + (point - 0x10000) / 0x400).toUInt16, (0xdc00 + (point - 0x10000) % 0x400).toUInt16]

/-- A byte in the start state. -/
def first (b : UInt8) : List UInt16 × Decoder :=
  if b < 0x80 then ([b.toUInt16], start)
  else if 0xc2 ≤ b ∧ b ≤ 0xdf then ([], ⟨1, 0x80, 0xbf, b.toNat % 0x20⟩)
  else if 0xe0 ≤ b ∧ b ≤ 0xef then
    ([], ⟨2, if b = 0xe0 then 0xa0 else 0x80, if b = 0xed then 0x9f else 0xbf, b.toNat % 0x10⟩)
  else if 0xf0 ≤ b ∧ b ≤ 0xf4 then
    ([], ⟨3, if b = 0xf0 then 0x90 else 0x80, if b = 0xf4 then 0x8f else 0xbf, b.toNat % 0x08⟩)
  else ([0xfffd], start)

/-- One byte: the code units it completes, and the next state. -/
def step (d : Decoder) (b : UInt8) : List UInt16 × Decoder :=
  if d.needed = 0 then first b
  else if b.toNat < d.lower ∨ d.upper < b.toNat then
    -- the sequence is broken off, and the byte is read again
    (0xfffd :: (first b).1, (first b).2)
  else
    let point := d.point * 0x40 + b.toNat % 0x40
    if d.needed = 1 then (unitsOf point, start) else ([], ⟨d.needed - 1, 0x80, 0xbf, point⟩)

/-- What an unfinished sequence yields at the end. -/
def flush (d : Decoder) : List UInt16 := if d.needed = 0 then [] else [0xfffd]

def decodeFrom : Decoder → List UInt8 → List UInt16
  | d, [] => flush d
  | d, b :: rest => (step d b).1 ++ decodeFrom (step d b).2 rest

def decode (bytes : List UInt8) : List UInt16 := decodeFrom start bytes

/-- The byte order mark, which `TextDecoder` drops. -/
def byteOrderMark : List UInt8 := [0xef, 0xbb, 0xbf]

/-- `TextDecoder.decode`. -/
def textDecode (bytes : List UInt8) : List UInt16 :=
  decode (if byteOrderMark.isPrefixOf bytes then bytes.drop 3 else bytes)

/-- The states the decoder can be in.  Whatever completes the sequence then stands for a code
    point from U+0080 to U+10FFFF. -/
def Decoder.Ok (d : Decoder) : Prop :=
  d.needed = 0 ∨ (0x80 ≤ d.lower ∧ d.upper ≤ 0xbf ∧
    ((d.needed = 1 ∧ 2 ≤ d.point ∧ d.point ≤ 0x43ff) ∨
      (d.needed = 2 ∧ (0xa0 ≤ d.lower ∨ 1 ≤ d.point) ∧ d.point ≤ 0x10f) ∨
      (d.needed = 3 ∧ (0x90 ≤ d.lower ∨ 1 ≤ d.point) ∧
        (d.point ≤ 3 ∨ (d.point = 4 ∧ d.upper ≤ 0x8f)))))

theorem start_ok : start.Ok := .inl rfl

theorem first_ok (b : UInt8) : (first b).2.Ok := by
  unfold first
  simp only [UInt8.lt_iff_toNat_lt, UInt8.le_iff_toNat_le, ← UInt8.toNat_inj, UInt8.reduceToNat]
  split_ifs <;> dsimp only [Decoder.Ok, start] <;> omega

variable {d : Decoder}

theorem step_ok (hd : d.Ok) (b : UInt8) : (step d b).2.Ok := by
  unfold step
  split_ifs with h1 h2 h3
  · exact first_ok b
  · exact first_ok b
  · exact start_ok
  · simp only [Decoder.Ok] at hd ⊢
    omega

/-- An ASCII byte ends whatever was begun and stands for itself. -/
theorem step_ascii (hd : d.Ok) (hb : b < 0x80) : step d b = (flush d ++ [b.toUInt16], start) := by
  have hfirst : first b = ([b.toUInt16], start) := if_pos hb
  have hlt : b.toNat < 0x80 := by simpa [UInt8.lt_iff_toNat_lt] using hb
  unfold step flush
  by_cases hn : d.needed = 0
  · simp [hn, hfirst]
  · have hlower : 0x80 ≤ d.lower := (hd.resolve_left hn).1
    rw [if_neg hn, if_pos (.inl (by omega)), if_neg hn, hfirst]
    rfl

/-- A unit is one an ASCII byte stands for, or is not ASCII itself. -/
theorem mem_first (h : u ∈ (first b).1) : 0x80 ≤ u.toNat ∨ (b < 0x80 ∧ u = b.toUInt16) := by
  unfold first at h
  split_ifs at h with h1
  · exact .inr ⟨h1, by simpa using h⟩
  all_goals simp at h
  exact .inl (by rw [h]; decide)

theorem mem_unitsOf {point : Nat} (hlow : 0x80 ≤ point) (hhigh : point ≤ 0x10ffff)
    (h : u ∈ unitsOf point) : 0x80 ≤ u.toNat := by
  unfold unitsOf at h
  split_ifs at h with hsmall
  · rw [List.mem_singleton.1 h, Nat.toUInt16_eq, UInt16.toNat_ofNat', Nat.mod_eq_of_lt (by omega)]
    exact hlow
  · simp only [List.mem_cons, List.not_mem_nil, or_false] at h
    rcases h with rfl | rfl <;>
      rw [Nat.toUInt16_eq, UInt16.toNat_ofNat', Nat.mod_eq_of_lt (by omega)] <;> omega

theorem mem_step (hd : d.Ok) (h : u ∈ (step d b).1) :
    0x80 ≤ u.toNat ∨ (b < 0x80 ∧ u = b.toUInt16) := by
  unfold step at h
  split_ifs at h with h1 h2 h3
  · exact mem_first h
  · rcases List.mem_cons.1 h with rfl | h
    · exact .inl (by decide)
    · exact mem_first h
  · simp only [Decoder.Ok] at hd
    exact .inl (mem_unitsOf (by omega) (by omega) h)
  · simp at h

theorem mem_decodeFrom (hd : d.Ok) (h : u ∈ decodeFrom d bytes) :
    0x80 ≤ u.toNat ∨ ∃ b ∈ bytes, b < 0x80 ∧ u = b.toUInt16 := by
  induction bytes generalizing d with
  | nil =>
    unfold decodeFrom flush at h
    split_ifs at h
    · simp at h
    · rw [List.mem_singleton.1 h]
      exact .inl (by decide)
  | cons b bytes ih =>
    rcases List.mem_append.1 h with h | h
    · exact (mem_step hd h).imp_right fun hb => ⟨b, List.mem_cons_self, hb⟩
    · refine (ih (step_ok hd b) h).imp_right ?_
      rintro ⟨c, hc, hcu⟩
      exact ⟨c, List.mem_cons_of_mem _ hc, hcu⟩

theorem unitsOf_ne_nil (point : Nat) : unitsOf point ≠ [] := by
  unfold unitsOf
  split_ifs <;> simp

theorem first_trace (hb : ¬ b < 0x80) : (first b).2.needed ≠ 0 ∨ 0xfffd ∈ (first b).1 := by
  unfold first
  rw [if_neg hb]
  split_ifs <;> simp

theorem step_trace (hd : d.Ok) (h : d.needed ≠ 0 ∨ ¬ b < 0x80) :
    (step d b).2.needed ≠ 0 ∨ ∃ u ∈ (step d b).1, 0x80 ≤ u.toNat := by
  unfold step
  split_ifs with h1 h2 h3
  · exact (first_trace (h.resolve_left (by simp [h1]))).imp_right fun hmem => ⟨_, hmem, by decide⟩
  · exact .inr ⟨0xfffd, List.mem_cons_self, by decide⟩
  · simp only [Decoder.Ok] at hd
    obtain ⟨u, hu⟩ := List.exists_mem_of_ne_nil _
      (unitsOf_ne_nil (d.point * 0x40 + b.toNat % 0x40))
    exact .inr ⟨u, hu, mem_unitsOf (by omega) (by omega) hu⟩
  · exact .inl (by dsimp only; omega)

/-- What is not ASCII leaves a trace: a sequence begun, or a byte from 0x80 on. -/
theorem exists_mem_decodeFrom (hd : d.Ok) (h : d.needed ≠ 0 ∨ ∃ b ∈ bytes, ¬ b < 0x80) :
    ∃ u ∈ decodeFrom d bytes, 0x80 ≤ u.toNat := by
  induction bytes generalizing d with
  | nil =>
    have hn : d.needed ≠ 0 := h.resolve_right (by simp)
    exact ⟨0xfffd, by simp [decodeFrom, flush, hn], by decide⟩
  | cons b bytes ih =>
    -- either this byte already yields one, or the next state or the rest remembers it
    have hnext : ((step d b).2.needed ≠ 0 ∨ ∃ c ∈ bytes, ¬ c < 0x80) ∨
        ∃ u ∈ (step d b).1, 0x80 ≤ u.toNat := by
      rcases h with hn | ⟨c, hc, hge⟩
      · exact (step_trace hd (.inl hn)).imp_left .inl
      rcases List.mem_cons.1 hc with rfl | hc
      · exact (step_trace hd (.inr hge)).imp_left .inl
      · exact .inl (.inr ⟨c, hc, hge⟩)
    rcases hnext with hnext | ⟨u, hu, hle⟩
    · obtain ⟨u, hu, hle⟩ := ih (step_ok hd b) hnext
      exact ⟨u, List.mem_append_right _ hu, hle⟩
    · exact ⟨u, List.mem_append_left _ hu, hle⟩

theorem decodeFrom_cut (hd : d.Ok) (left right : List UInt8) (hb : b < 0x80) :
    decodeFrom d (left ++ b :: right) = decodeFrom d left ++ b.toUInt16 :: decode right := by
  induction left generalizing d with
  | nil => simp [decodeFrom, step_ascii hd hb, decode]
  | cons c left ih => simp [decodeFrom, ih (step_ok hd c)]

/-- Decoding commutes with cutting at an ASCII byte. -/
theorem decode_cut (left right : List UInt8) (hb : b < 0x80) :
    decode (left ++ b :: right) = decode left ++ b.toUInt16 :: decode right :=
  decodeFrom_cut start_ok left right hb

@[simp] theorem decode_nil : decode [] = [] := rfl

theorem decode_ascii (h : ∀ b ∈ bytes, b < 0x80) : decode bytes = bytes.map UInt8.toUInt16 := by
  induction bytes with
  | nil => rfl
  | cons b bytes ih =>
    have hcut := decode_cut [] bytes (h b List.mem_cons_self)
    rw [List.nil_append] at hcut
    rw [hcut, ih fun c hc => h c (List.mem_cons_of_mem _ hc)]
    rfl

theorem mem_decode (h : u ∈ decode bytes) :
    0x80 ≤ u.toNat ∨ ∃ b ∈ bytes, b < 0x80 ∧ u = b.toUInt16 :=
  mem_decodeFrom start_ok h

/-- An ASCII unit comes from that byte. -/
theorem mem_of_mem_decode (hb : b < 0x80) (h : b.toUInt16 ∈ decode bytes) : b ∈ bytes := by
  have hlt : b.toNat < 0x80 := by simpa [UInt8.lt_iff_toNat_lt] using hb
  rcases mem_decode h with hge | ⟨c, hc, -, heq⟩
  · rw [UInt8.toNat_toUInt16] at hge
    omega
  · have : b = c := by
      rw [← UInt8.toNat_inj, ← UInt8.toNat_toUInt16, heq, UInt8.toNat_toUInt16]
    rwa [this]

/-- An ASCII text comes from the same bytes. -/
theorem eq_of_decode_ascii {ascii : List UInt8} (hascii : ∀ b ∈ ascii, b < 0x80)
    (h : decode bytes = ascii.map UInt8.toUInt16) : bytes = ascii := by
  have hall : ∀ b ∈ bytes, b < 0x80 := by
    intro b hb
    by_contra hge
    obtain ⟨u, hu, hle⟩ := exists_mem_decodeFrom start_ok (.inr ⟨b, hb, hge⟩)
    have hmem : u ∈ ascii.map UInt8.toUInt16 := by rwa [← h]
    obtain ⟨c, hc, rfl⟩ := List.mem_map.1 hmem
    have hlt : c.toNat < 0x80 := by simpa [UInt8.lt_iff_toNat_lt] using hascii c hc
    rw [UInt8.toNat_toUInt16] at hle
    omega
  rw [decode_ascii hall] at h
  refine List.map_injective_iff.2 (fun a b hab => ?_) h
  rw [← UInt8.toNat_inj, ← UInt8.toNat_toUInt16, hab, UInt8.toNat_toUInt16]

theorem decode_eq_nil : decode bytes = [] ↔ bytes = [] := by
  constructor
  · intro h
    exact eq_of_decode_ascii (by simp) (show decode bytes = ([] : List UInt8).map _ from h)
  · rintro rfl
    rfl

/-- Decoding commutes with splitting at an ASCII byte. -/
theorem splitOn_decode (hb : b < 0x80) (bytes : List UInt8) :
    (decode bytes).splitOn b.toUInt16 = (bytes.splitOn b).map decode := by
  induction hlen : bytes.length using Nat.strongRecOn generalizing bytes with
  | ind n ih =>
    by_cases hmem : b ∈ bytes
    · obtain ⟨left, right, rfl, hleft⟩ := List.eq_append_cons_of_mem hmem
      have hnot : b.toUInt16 ∉ decode left := fun h => hleft (mem_of_mem_decode hb h)
      rw [decode_cut left right hb, List.splitOn_append_cons_self_of_not_mem hnot,
        List.splitOn_append_cons_self_of_not_mem hleft, List.map_cons,
        ih right.length (by simp only [← hlen, List.length_append, List.length_cons]; omega) right
          rfl]
    · have hnot : b.toUInt16 ∉ decode bytes := fun h => hmem (mem_of_mem_decode hb h)
      rw [List.splitOn_eq_singleton hmem, List.splitOn_eq_singleton hnot]
      rfl

end Kompjutr.Utf8
