/-
  Kompjutr.Diff.State

  The data of the xdiff port (`diff/myers-state.ts`): line records, the
  changed-line flags, one side of a comparison, and the change groups.

  Lines come in two kinds, decoded strings and byte records.  A string is its
  list of UTF-16 code units, which is what the source compares, hashes and
  measures.
-/
import Kompjutr.Common.Base
import Kompjutr.Lib.IntRange

namespace Kompjutr

namespace Diff

/-- `ByteRecord`: the bytes `start ..< end` of a blob. -/
structure ByteRecord where
  bytes : List UInt8
  start : Nat
  «end» : Nat
  start_le : start ≤ «end»
  end_le : «end» ≤ bytes.length
  deriving DecidableEq

namespace ByteRecord

/-- The bytes a record stands for. -/
def content (r : ByteRecord) : List UInt8 := (r.bytes.drop r.start).take (r.end - r.start)

@[simp] theorem length_content (r : ByteRecord) : r.content.length = r.end - r.start := by
  have h1 := r.start_le
  have h2 := r.end_le
  simp only [content, List.length_take, List.length_drop]
  omega

end ByteRecord

/-- `LineRecord = string | ByteRecord`. -/
inductive LineRecord where
  | text (units : List UInt16)
  | record (bytes : ByteRecord)
  deriving DecidableEq

/-- The numbers `charCodeAt` or the byte array yields, position by position. -/
def LineRecord.units : LineRecord → List Nat
  | .text units => units.map UInt16.toNat
  | .record r => r.content.map UInt8.toNat

/-- An array of the source.  The language bounds its length by `2^32 - 1`. -/
structure Lines (α : Type) where
  toList : List α
  bounded : toList.length < 2 ^ 32

/-- One contiguous run of changed lines, as `xdl_build_script` emits it. -/
structure ChangeGroup where
  oldStart : Int
  oldCount : Int
  newStart : Int
  newCount : Int
  deriving DecidableEq

/-- `Marks`: the changed-line flags, one slot longer than the lines at either end. -/
structure Marks where
  flags : List Bool
  deriving DecidableEq

namespace Marks

/-- `new Marks(length)`. -/
def ofLength (length : Nat) : Marks := ⟨List.replicate (length + 2) false⟩

def get (m : Marks) (index : Int) : Bool := readAt m.flags (index + 1) = some true

/-- A write outside the typed array is ignored. -/
def set (m : Marks) (index : Int) (value : Bool) : Marks :=
  if 0 ≤ index + 1 then ⟨m.flags.set (index + 1).toNat value⟩ else m

/-- The marks of `n` lines: both sentinels are there and never set. -/
structure Within (m : Marks) (n : Nat) : Prop where
  length_eq : m.flags.length = n + 2
  get_imp : ∀ i, m.get i = true → 0 ≤ i ∧ i < n

theorem get_set (m : Marks) {n : Nat} (hm : m.Within n) {i : Int} (h0 : 0 ≤ i) (hi : i < n)
    (v : Bool) (j : Int) : (m.set i v).get j = if j = i then v else m.get j := by
  have hlen := hm.length_eq
  have hset : m.set i v = ⟨m.flags.set (i + 1).toNat v⟩ := if_pos (by omega)
  rw [hset]
  unfold get readAt
  by_cases hij : j = i
  · subst hij
    have hlt : (j + 1).toNat < m.flags.length := by omega
    simp [show 0 ≤ j + 1 by omega, hlt]
  · rw [if_neg hij]
    split
    · rw [List.getElem?_set_ne (by omega)]
    · rfl

theorem set_within {m : Marks} {n : Nat} (hm : m.Within n) {i : Int} (h0 : 0 ≤ i) (hi : i < n)
    (v : Bool) : (m.set i v).Within n := by
  refine ⟨?_, fun j hj => ?_⟩
  · unfold set
    rw [if_pos (by omega)]
    simpa using hm.length_eq
  · rw [get_set m hm h0 hi] at hj
    split at hj
    · omega
    · exact hm.get_imp j hj

@[simp] theorem get_ofLength (n : Nat) (i : Int) : (ofLength n).get i = false := by
  unfold get ofLength readAt
  split
  · simp [List.getElem?_replicate]
  · simp

theorem ofLength_within (n : Nat) : (ofLength n).Within n :=
  ⟨by simp [ofLength], fun i hi => by simp at hi⟩

theorem get_eq_false {m : Marks} {n : Nat} (hm : m.Within n) {i : Int}
    (h : i < 0 ∨ (n : Int) ≤ i) : m.get i = false := by
  by_contra hne
  have := hm.get_imp i (by simpa using hne)
  omega

end Marks

/-- One side of the comparison, xdiff's `xdfile_t`. -/
structure Side where
  lines : List LineRecord
  classes : List Nat
  changed : Marks
  reference : List Int
  dstart : Int
  dend : Int

namespace Side

/-- `lines.length`, as the number the index arithmetic uses. -/
def length (s : Side) : Int := s.lines.length

/-- `classes[index]`. -/
def classAt (s : Side) (index : Int) : Option Nat := readAt s.classes index

end Side

/-- `Environment`. -/
structure Environment where
  maxCost : Int
  snakeCount : Nat
  heuristicMinimum : Int

/-- `DiffLinesOptions`; a missing field is `none`. -/
structure DiffLinesOptions where
  indentHeuristic : Option Bool
  maxChanges : Option Int

end Diff

end Kompjutr
