/-
  Kompjutr.Diff.XmergeSound

  What `mergeText` returns.  A `Segment` is a stretch of the three texts
  together with the way it is merged; the kinds carry the agreement they need,
  so a segment that drops a one-sided change cannot be built.  The regions of
  a merge, with the gaps between them, are a list of segments that covers all
  three texts (`fill_both`), and the output is their rendering.
-/
import Kompjutr.Diff.RefineSound

namespace Kompjutr.Diff

open Fuel
open List (countP_cons count_eq_zero flatMap_append flatMap_singleton foldlM_cons length_map
  length_take nil_append)

variable {limit a : Int} {resolved : ResolvedOptions} {memory : TextMergeMemoryEstimate}
  {style : TextMergeStyle}

variable {b : Int}

-- Segments

/-- A line of text, with its line feed. -/
abbrev Line := List UInt8

/-- A stretch of the three texts and how it is merged. -/
inductive Segment where
  /-- Base and incoming agree: current's lines are taken. -/
  | fromCurrent (base cur : List Line)
  /-- Base and current agree: incoming's lines are taken. -/
  | fromIncoming (base inc : List Line)
  /-- Current and incoming agree. -/
  | common (base lines : List Line)
  /-- A conflict, written with CRLF line ends or with LF. -/
  | conflict (crlf : Bool) (base cur inc : List Line)
  deriving DecidableEq

namespace Segment

/-- The base's lines of a segment. -/
def base : Segment → List Line
  | .fromCurrent b _ => b
  | .fromIncoming b _ => b
  | .common b _ => b
  | .conflict _ b _ _ => b

/-- Current's lines of a segment. -/
def current : Segment → List Line
  | .fromCurrent _ cur => cur
  | .fromIncoming b _ => b
  | .common _ lines => lines
  | .conflict _ _ cur _ => cur

/-- Incoming's lines of a segment. -/
def incoming : Segment → List Line
  | .fromCurrent b _ => b
  | .fromIncoming _ inc => inc
  | .common _ lines => lines
  | .conflict _ _ _ inc => inc

def isConflict : Segment → Bool
  | .conflict .. => true
  | _ => false

end Segment

def eol (crlf : Bool) : List UInt8 := if crlf then [0x0d, 0x0a] else [0x0a]

/-- Lines, with a line end added when the last one has none. -/
def completed (crlf : Bool) (lines : List Line) : List UInt8 :=
  lines.flatten ++
    if lines = [] ∨ (lines.getLast?.bind List.getLast?) = some 0x0a then [] else eol crlf

/-- A marker line. -/
def markerLine (options : ResolvedOptions) (marker : UInt8) (label : Option (List UInt8))
    (crlf : Bool) : List UInt8 :=
  List.replicate options.markerSize.toNat marker ++
    ((label.map fun label => 0x20 :: label).getD [] ++ eol crlf)

/-- The bytes of a segment in the merge. -/
def Segment.render (options : ResolvedOptions) : Segment → List UInt8
  | .fromCurrent _ cur => cur.flatten
  | .fromIncoming _ inc => inc.flatten
  | .common _ lines => lines.flatten
  | .conflict crlf base cur inc =>
    markerLine options 0x3c options.labels.current crlf ++ (completed crlf cur ++
      ((if options.style ≠ .merge then
          markerLine options 0x7c options.labels.base crlf ++ completed crlf base else []) ++
        (markerLine options 0x3d none crlf ++ (completed crlf inc ++
          markerLine options 0x3e options.labels.incoming crlf))))

-- Writing

theorem checkedSum_eq {values : List Int} {resource : String} {sum : Int}
    (h : checkedSum values resource = .ok sum) : sum = values.sum := by
  have hfold : ∀ (values : List Int) (acc : Int), values.foldlM (fun sum value =>
        if isSafeInteger (sum + value) then (pure (sum + value) : Except GitError Int)
        else throw (unsafeCapacity resource)) acc = .ok sum → sum = acc + values.sum := by
    intro values
    induction values with
    | nil =>
      intro acc h
      simpa using (Except.ok.inj h).symm
    | cons value values ih =>
      intro acc h
      rw [foldlM_cons, bind_eq_ok] at h
      obtain ⟨next, hnext, hrest⟩ := h
      split at hnext
      · rw [ih next hrest, ← Except.ok.inj hnext, List.sum_cons]
        omega
      · cases hnext
  simpa using hfold values 0 h

theorem addSize_eq {size addition next : Int} (h : addSize size addition limit = .ok next) :
    next = size + addition := by
  unfold addSize at h
  obtain ⟨sum, hsum, h⟩ := bind_eq_ok.1 h
  have := checkedSum_eq hsum
  split at h
  · cases h
  · rw [← Except.ok.inj h, this]
    simp

/-- `f` appends `data` to the output, or throws; which of the two depends on the size of the
    output only, not on whether there is a buffer. -/
def Emits {β : Type} (f : Output → Run GitError β) (data : List UInt8) (k : Output → β) : Prop :=
  ∀ size, (∃ e, ∀ bytes, f ⟨size, bytes⟩ = throw e) ∨
    ∀ bytes, f ⟨size, bytes⟩ = pure (k ⟨size + data.length, bytes.map (· ++ data)⟩)

namespace Emits

theorem pure {β : Type} {k : Output → β} : Emits (fun out => Pure.pure (k out)) [] k := by
  refine fun size => .inr fun bytes => ?_
  cases bytes <;> simp

theorem bind {β γ : Type} {f : Output → Run GitError β} {g : β → Run GitError γ}
    {a b : List UInt8} {k : Output → β} {k' : Output → γ} (hf : Emits f a k)
    (hg : Emits (fun out => g (k out)) b k') : Emits (fun out => f out >>= g) (a ++ b) k' := by
  intro size
  simp only
  rcases hf size with ⟨e, he⟩ | hok
  · refine .inl ⟨e, fun bytes => ?_⟩
    rw [he bytes]
    rfl
  rcases hg (size + a.length) with ⟨e, he⟩ | hok' <;> dsimp only at *
  · refine .inl ⟨e, fun bytes => ?_⟩
    rw [hok bytes, pure_bind, he]
  · refine .inr fun bytes => ?_
    rw [hok bytes, pure_bind, hok', List.length_append, Int.natCast_add, Int.add_assoc,
      Option.map_map]
    simp [Function.comp_def]

/-- Sequencing of two writers. -/
theorem seq {γ : Type} {f : Output → Run GitError Output} {g : Output → Run GitError γ}
    {a b : List UInt8} {k : Output → γ} (hf : Emits f a id) (hg : Emits g b k) :
    Emits (fun out => f out >>= g) (a ++ b) k :=
  hf.bind hg

theorem write (data : List UInt8) (options : ResolvedOptions) :
    Emits (fun out => out.write data options) data id := by
  intro size
  simp only [Output.write]
  cases hadd : addSize size data.length options.limits.maxOutputBytes with
  | error e => exact .inl ⟨e, fun bytes => rfl⟩
  | ok next =>
    refine .inr fun bytes => ?_
    rw [← addSize_eq hadd]
    rfl

theorem writeEol (crlf : Bool) (options : ResolvedOptions) :
    Emits (Diff.writeEol crlf options) (eol crlf) id := by
  cases crlf with
  | false => exact (pure (k := id)).seq (write [0x0a] options)
  | true => exact (write [0x0d] options).seq (write [0x0a] options)

theorem writeMarker (marker : UInt8) (label : Option (List UInt8)) (crlf : Bool)
    (options : ResolvedOptions) : Emits (Diff.writeMarker marker label crlf options)
      (markerLine options marker label crlf) id := by
  cases label with
  | none => exact (write _ options).seq ((pure (k := id)).seq (writeEol crlf options))
  | some label =>
    have hlabel := (write [0x20] options).seq ((write label options).seq (writeEol crlf options))
    exact (write _ options).seq (by simpa [bind_assoc] using hlabel)

end Emits

theorem slice_cons {α : Type} {xs : List α} {x : α} (h : readAt xs a = some x)
    (hab : a < b) : slice xs a b = x :: slice xs (a + 1) b := by
  obtain ⟨k, rfl, hk⟩ := getElem?_of_readAt h
  have hlt : k < xs.length := (List.getElem?_eq_some_iff.1 hk).1
  have hx : xs[k] = x := (List.getElem?_eq_some_iff.1 hk).2
  have hone : slice xs (k : Int) (k + 1) = [x] := by
    simp only [slice, show ((k : Int) + 1).toNat = k + 1 by omega, Int.toNat_natCast]
    rw [List.take_succ_eq_append_getElem hlt, hx,
      List.drop_append_of_le_length (by rw [length_take]; omega),
      List.drop_of_length_le (by rw [length_take]; omega), nil_append]
  rw [slice_append (b := (k : Int) + 1) (by omega) (by omega), hone,
    List.singleton_append]

theorem slice_snoc {α : Type} {xs : List α} {x : α} (h : readAt xs (b - 1) = some x)
    (ha : 0 ≤ a) (hab : a < b) : slice xs a b = slice xs a (b - 1) ++ [x] := by
  rw [slice_append (b := b - 1) (by omega) (by omega), slice_cons h (by omega),
    show b - 1 + 1 = b by omega, slice_self]

theorem slice_full {α : Type} {xs : List α} (h : (xs.length : Int) ≤ b) : slice xs 0 b = xs := by
  rw [slice, Int.toNat_zero, List.drop_zero, List.take_of_length_le (by omega)]

section Output

variable {base current incoming : List ByteRecord} {options : ResolvedOptions}

theorem recordAt_eq (records : List ByteRecord) {i : Int} (h0 : 0 ≤ i) (h1 : i < records.length) :
    ∃ r, recordAt records i = pure r ∧ readAt (contents records) i = some r.content := by
  obtain ⟨r, hr⟩ := readAt_isSome h0 h1
  exact ⟨r, by rw [recordAt, hr]; rfl, by rw [readAt_map, hr]; rfl⟩

theorem copyLoop_emits (records : List ByteRecord) (options : ResolvedOptions) (count : Nat)
    {start : Int} (h0 : 0 ≤ start)
    (hle : start + count ≤ records.length) :
    Emits (copyLoop records options count start)
      (slice (contents records) start (start + count)).flatten id := by
  induction count generalizing start with
  | zero =>
    rw [Int.natCast_zero, Int.add_zero, slice_self]
    exact Emits.pure
  | succ count ih =>
    obtain ⟨r, hr, hread⟩ := recordAt_eq records h0 (by omega : start < records.length)
    have hrest : Emits (copyLoop records options count (start + 1))
        (slice (contents records) (start + 1) (start + 1 + count)).flatten id :=
      ih (by omega) (by omega)
    rw [slice_cons hread (by omega), List.flatten_cons]
    have hturn : copyLoop records options (count + 1) start = fun out =>
        out.write r.content options >>= copyLoop records options count (start + 1) := by
      funext out
      simp only [copyLoop, hr, pure_bind]
    rw [hturn, show start + ((count + 1 : Nat) : Int) = start + 1 + count by omega]
    exact (Emits.write r.content options).seq hrest

theorem endsLf_iff (r : ByteRecord) :
    r.endsLf = true ↔ r.content.getLast? = some 0x0a := by
  have h1 := r.start_le
  have h2 := r.end_le
  unfold ByteRecord.endsLf ByteRecord.content
  by_cases hlt : r.start < r.end
  · rw [List.getLast?_eq_getElem?, length_take, List.length_drop,
      List.getElem?_take, if_pos (by omega), List.getElem?_drop,
      show r.start + (min (r.end - r.start) (r.bytes.length - r.start) - 1) = r.end - 1 by omega]
    simp [hlt]
  · simp [hlt, show r.end - r.start = 0 by omega]

/-- Lines of a side inside a conflict: the last one is completed. -/
theorem copyRecords_completed (records : List ByteRecord) (options : ResolvedOptions)
    {start count : Int} (needsCr : Bool) (h0 : 0 ≤ start)
    (hc : 0 ≤ count) (hle : start + count ≤ records.length) :
    Emits (copyRecords records start count needsCr true options)
      (completed needsCr (slice (contents records) start (start + count))) id := by
  have hloop := copyLoop_emits records options count.toNat h0 (by omega)
  rw [Int.toNat_of_nonneg hc] at hloop
  unfold copyRecords completed
  apply hloop.seq
  by_cases hpos : 0 < count
  · obtain ⟨r, hr, hread⟩ := recordAt_eq records (i := start + count - 1) (by omega)
      (by omega)
    rw [slice_snoc hread h0 (by omega)]
    simp only [true_and, gt_iff_lt, hpos, if_true, hr, pure_bind, List.append_eq_nil_iff,
      List.cons_ne_self, and_false, false_or, List.getLast?_append, List.getLast?_singleton,
      Option.some_or, Option.bind_some, ← endsLf_iff]
    by_cases hlf : r.endsLf = true
    · simp only [hlf, if_true]
      exact Emits.pure
    · simp only [hlf]
      exact Emits.writeEol needsCr options
  · obtain rfl : count = 0 := by omega
    simp only [true_and, gt_iff_lt, Int.lt_irrefl, if_false, Int.add_zero, slice_self, true_or,
      if_true]
    exact Emits.pure

/-- Lines taken as they are. -/
theorem copyRecords_plain (records : List ByteRecord) (options : ResolvedOptions)
    {start count : Int} (needsCr : Bool) (h0 : 0 ≤ start) (hc : 0 ≤ count)
    (hle : start + count ≤ records.length) :
    Emits (copyRecords records start count needsCr false options)
      (slice (contents records) start (start + count)).flatten id := by
  have hloop := copyLoop_emits records options count.toNat h0 (by omega)
  rw [Int.toNat_of_nonneg hc] at hloop
  unfold copyRecords
  simp only [Bool.false_eq_true, false_and, if_false, bind_pure]
  exact hloop

theorem isEolCrlf_eq (records : List ByteRecord) (index : Int) (h0 : 0 ≤ index)
    (h1 : index < records.length ∨ records.length = 0) :
    ∃ answer, isEolCrlf records index = pure answer := by
  unfold isEolCrlf
  by_cases hlt : index < records.length - 1
  · obtain ⟨r, hr, -⟩ := recordAt_eq records h0 (by omega)
    simp [hlt, hr]
  rw [if_neg hlt]
  by_cases hempty : records.length = 0
  · simp [hempty]
  obtain ⟨r, hr, -⟩ := recordAt_eq records (i := index) h0 (by omega)
  by_cases hlf : r.endsLf = true
  · simp [hempty, hr, hlf]
  by_cases hzero : index = 0
  · subst hzero
    simp [hempty, hr, hlf]
  obtain ⟨r', hr', -⟩ := recordAt_eq records (i := index - 1) (by omega) (by omega)
  simp [hempty, hr, hlf, hzero, hr']

theorem isCrNeeded_eq (base : List ByteRecord) {region : MergeRegion} (hcl : region.currentStart ≤ current.length)
    (hil : region.incomingStart ≤ incoming.length) :
    ∃ needsCr, isCrNeeded current incoming base region = pure needsCr := by
  obtain ⟨a, ha⟩ := isEolCrlf_eq current
    (if region.currentStart > 0 then region.currentStart - 1 else 0)
    (by split <;> omega) (by split <;> omega)
  obtain ⟨b, hb⟩ := isEolCrlf_eq incoming
    (if region.incomingStart > 0 then region.incomingStart - 1 else 0)
    (by split <;> omega) (by split <;> omega)
  obtain ⟨c, hc⟩ := isEolCrlf_eq base 0 (by omega) (by omega)
  unfold isCrNeeded
  simp only [ha, hb, hc, pure_bind]
  split
  · split <;> simp
  · simp_all

theorem writeConflict_emits (options : ResolvedOptions) {r : MergeRegion} (crlf : Bool) {tied : Bool} {x y z x' y' z' : Int}
    (hr : Spans tied (contents base) (contents current) (contents incoming) r x y z x' y' z')
    (htied : tied = true ∨ options.style = .merge) (hx : 0 ≤ x) (hy : 0 ≤ y) (hz : 0 ≤ z)
    (hxl : x' ≤ base.length) (hyl : y' ≤ current.length) (hzl : z' ≤ incoming.length) :
    Emits (writeConflict base current incoming options crlf r)
      (Segment.render options (.conflict crlf (slice (contents base) x x')
        (slice (contents current) y y') (slice (contents incoming) z z'))) id := by
  have hble := hr.base_le
  have hcle := hr.current_le
  have hile := hr.incoming_le
  have hcur := copyRecords_completed current options crlf hy (show 0 ≤ y' - y by omega) (by omega)
  have hinc := copyRecords_completed incoming options crlf hz (show 0 ≤ z' - z by omega) (by omega)
  rw [show y + (y' - y) = y' by omega] at hcur
  rw [show z + (z' - z) = z' by omega] at hinc
  have htail := (Emits.writeMarker 0x3d none crlf options).seq
    (hinc.seq (Emits.writeMarker 0x3e options.labels.incoming crlf options))
  unfold writeConflict Segment.render
  rw [hr.currentStart_eq, hr.currentCount_eq, hr.incomingStart_eq, hr.incomingCount_eq]
  apply (Emits.writeMarker 0x3c options.labels.current crlf options).seq
  apply hcur.seq
  by_cases hstyle : options.style = .merge
  · simp only [hstyle, ne_eq, not_true_eq_false, if_false, pure_bind, nil_append]
    exact htail
  · obtain ⟨hbs, hbc⟩ := hr.base_eq (htied.resolve_right hstyle)
    have hbase := copyRecords_completed base options crlf hx (show 0 ≤ x' - x by omega) (by omega)
    rw [show x + (x' - x) = x' by omega] at hbase
    simp only [hstyle, ne_eq, not_false_eq_true, if_true, List.append_assoc, hbs, hbc]
    exact (Emits.writeMarker 0x7c options.labels.base crlf options).seq (hbase.seq htail)

-- From regions to segments

/-- The segments cover the lines before `(x, y, z)`. -/
structure Segmented (base current incoming : List Line) (segments : List Segment)
    (x y z : Int) : Prop where
  base_eq : segments.flatMap Segment.base = slice base 0 x
  current_eq : segments.flatMap Segment.current = slice current 0 y
  incoming_eq : segments.flatMap Segment.incoming = slice incoming 0 z

theorem Segmented.snoc {base current incoming : List Line} {segments : List Segment}
    {x y z x' y' z' : Int} (h : Segmented base current incoming segments x y z) {s : Segment}
    (hx : 0 ≤ x) (hy : 0 ≤ y) (hz : 0 ≤ z) (hxx : x ≤ x') (hyy : y ≤ y') (hzz : z ≤ z')
    (hbase : s.base = slice base x x') (hcurrent : s.current = slice current y y')
    (hincoming : s.incoming = slice incoming z z') :
    Segmented base current incoming (segments ++ [s]) x' y' z' := by
  constructor
  · rw [flatMap_append, flatMap_singleton, h.base_eq, hbase,
      ← slice_append hx hxx]
  · rw [flatMap_append, flatMap_singleton, h.current_eq, hcurrent,
      ← slice_append hy hyy]
  · rw [flatMap_append, flatMap_singleton, h.incoming_eq, hincoming,
      ← slice_append hz hzz]

/-- After the regions so far, `data` is written and current is copied up to `line`.  The lines
    from there to `y` are written together with the next region. -/
structure Filled (base current incoming : List ByteRecord) (options : ResolvedOptions)
    (regions : List MergeRegion) (x y z : Int) (segments : List Segment) (data : List UInt8)
    (line : Int) : Prop where
  segmented : Segmented (contents base) (contents current) (contents incoming) segments x y z
  line_nonneg : 0 ≤ line
  line_le : line ≤ y
  data_eq : data ++ (slice (contents current) line y).flatten =
    segments.flatMap (Segment.render options)
  count_eq : segments.countP Segment.isConflict = regions.countP (·.mode = .conflict)
  emits : Emits (fun out => regions.reverse.foldlM (fillRegion base current incoming options)
    (out, 0)) data (fun out => (out, line))

variable {regions : List MergeRegion} {x y z x' y' z' : Int} {segments : List Segment}
  {data : List UInt8} {line : Int} {r : MergeRegion} {tied : Bool}

/-- Lines that current and incoming share are left to the next copy. -/
theorem Filled.shared (h : Filled base current incoming options regions x y z segments data line)
    (hx : 0 ≤ x) (hy : 0 ≤ y) (hz : 0 ≤ z) (hxx : x ≤ x') (hyy : y ≤ y') (hzz : z' - z = y' - y)
    (hyl : y' ≤ current.length) (hzl : z' ≤ incoming.length)
    (hagree : Agree (contents current) (contents incoming) y z (y' - y)) :
    Filled base current incoming options regions x' y' z'
      (segments ++ [.common (slice (contents base) x x') (slice (contents current) y y')]) data
      line := by
  have hslice := hagree.slice_eq hy hz (by omega) (by simp only [length_map]; omega)
    (by simp only [length_map]; omega)
  rw [show y + (y' - y) = y' by omega, show z + (y' - y) = z' by omega] at hslice
  have hline := h.line_le
  refine ⟨h.segmented.snoc hx hy hz hxx hyy (by omega) rfl rfl hslice, h.line_nonneg, by omega,
    ?_, ?_, h.emits⟩
  · rw [slice_append hline hyy, List.flatten_append, ← List.append_assoc, h.data_eq,
      flatMap_append, flatMap_singleton]
    rfl
  · rw [List.countP_append, h.count_eq]
    rfl

/-- One turn of `fillMerge` on a region that is written: the lines since the last copy, and then
    the region itself. -/
theorem Filled.written (h : Filled base current incoming options regions x y z segments data line)
    {body : Output → Run GitError Output} {s : Segment}
    (hturn : ∀ state, fillRegion base current incoming options state r =
      copyRecords current state.2 (r.currentStart - state.2) false false options state.1 >>=
        fun out => body out >>= fun out => pure (out, y'))
    (hcs : r.currentStart = y) (hyl : y ≤ current.length)
    (hbody : Emits body (s.render options) id)
    (hcount : s.isConflict = decide (r.mode = .conflict)) (hy' : 0 ≤ y')
    (hseg : Segmented (contents base) (contents current) (contents incoming) (segments ++ [s])
      x' y' z') :
    Filled base current incoming options (r :: regions) x' y' z' (segments ++ [s])
      (data ++ ((slice (contents current) line y).flatten ++ s.render options)) y' := by
  have hline := h.line_le
  refine ⟨hseg, hy', Int.le_refl _, ?_, ?_, ?_⟩
  · rw [slice_self, List.flatten_nil, List.append_nil, ← List.append_assoc, h.data_eq,
      flatMap_append, flatMap_singleton]
  · rw [List.countP_append, h.count_eq, List.countP_singleton, hcount, countP_cons]
  · simp only [List.reverse_cons, List.foldlM_append, foldlM_cons, List.foldlM_nil, bind_pure]
    refine h.emits.bind ?_
    simp only [hturn, hcs]
    have hcopy := copyRecords_plain current options false h.line_nonneg
      (show 0 ≤ y - line by omega) (by omega)
    rw [show line + (y - line) = y by omega] at hcopy
    have hend := hbody.seq (Emits.pure (k := fun out => (out, y')))
    rw [List.append_nil] at hend
    exact hcopy.seq hend

/-- The lines that a region between `(y, z)` and `(y', z')` writes, when it is no conflict. -/
def MergeMode.lines {α : Type} (current incoming : List α) (y z y' z' : Int) : MergeMode → List α
  | .incoming => slice incoming z z'
  | _ => slice current y y'

/-- A region that covers `(x, y, z)` to `(x', y', z')` adds one segment. -/
theorem Filled.region (h : Filled base current incoming options regions x y z segments data line)
    (hx : 0 ≤ x) (hy : 0 ≤ y) (hz : 0 ≤ z)
    (hr : Spans tied (contents base) (contents current) (contents incoming) r x y z x' y' z')
    (htied : tied = true ∨ options.style = .merge) (hxl : x' ≤ base.length)
    (hyl : y' ≤ current.length) (hzl : z' ≤ incoming.length) :
    ∃ s data line,
      Filled base current incoming options (r :: regions) x' y' z' (segments ++ [s]) data line ∧
        (r.mode ≠ .conflict → s.render options =
          (r.mode.lines (contents current) (contents incoming) y z y' z').flatten) := by
  have hble := hr.base_le
  have hcle := hr.current_le
  have hile := hr.incoming_le
  have hcs := hr.currentStart_eq
  have hcc := hr.currentCount_eq
  have his := hr.incomingStart_eq
  have hic := hr.incomingCount_eq
  have hsound := hr.sound
  obtain ⟨needsCr, hcr⟩ : ∃ needsCr, isCrNeeded current incoming base r = pure needsCr :=
    isCrNeeded_eq base (by omega) (by omega)
  have hend : r.currentStart + r.currentCount = y' := by omega
  have hsegmented := fun s => h.segmented.snoc (s := s) hx hy hz hble hcle hile
  cases hmode : r.mode with
  | conflict =>
    have hbody := writeConflict_emits options needsCr hr htied hx hy hz hxl hyl hzl
    refine ⟨_, _, _, h.written (fun state => ?_) hcs (by omega) hbody
      (by simp [Segment.isConflict, hmode]) (by omega) (hsegmented _ rfl rfl rfl),
      fun hne => absurd rfl hne⟩
    simp [fillRegion, hmode, hcr, hend]
  | current =>
    rw [hmode] at hsound
    obtain ⟨hlen, hagree⟩ := hsound
    have hslice := hagree.slice_eq hx hz (by omega) (by simp only [length_map]; omega)
      (by simp only [length_map]; omega)
    rw [show x + (x' - x) = x' by omega, show z + (x' - x) = z' by omega] at hslice
    have hbody := copyRecords_plain current options needsCr hy (show 0 ≤ y' - y by omega)
      (by omega)
    rw [show y + (y' - y) = y' by omega] at hbody
    refine ⟨_, _, _, h.written (s := .fromCurrent (slice (contents base) x x')
      (slice (contents current) y y')) (fun state => ?_) hcs (by omega) hbody
      (by simp [Segment.isConflict, hmode]) (by omega) (hsegmented _ rfl rfl hslice), fun _ => rfl⟩
    simp [fillRegion, hmode, hcr, hcs, hcc]
  | incoming =>
    rw [hmode] at hsound
    obtain ⟨hlen, hagree⟩ := hsound
    have hslice := hagree.slice_eq hx hy (by omega) (by simp only [length_map]; omega)
      (by simp only [length_map]; omega)
    rw [show x + (x' - x) = x' by omega, show y + (x' - x) = y' by omega] at hslice
    have hbody := copyRecords_plain incoming options false hz (show 0 ≤ z' - z by omega)
      (by omega)
    rw [show z + (z' - z) = z' by omega] at hbody
    refine ⟨_, _, _, h.written (s := .fromIncoming (slice (contents base) x x')
      (slice (contents incoming) z z')) (fun state => ?_) hcs (by omega) hbody
      (by simp [Segment.isConflict, hmode]) (by omega) (hsegmented _ rfl hslice rfl), fun _ => rfl⟩
    simp [fillRegion, hmode, hcr, hcs, hcc, his, hic]
  | same =>
    rw [hmode] at hsound
    obtain ⟨hlen, hagree⟩ := hsound
    have hshared := h.shared hx hy hz hble hcle hlen.symm hyl hzl hagree
    refine ⟨_, _, _, ⟨hshared.segmented, hshared.line_nonneg, hshared.line_le, hshared.data_eq, ?_,
      ?_⟩, fun _ => rfl⟩
    · rw [hshared.count_eq, countP_cons]
      simp [hmode]
    · -- the region is skipped, its lines come with the next copy
      have hskip : ∀ state, fillRegion base current incoming options state r = pure state := by
        intro state
        simp [fillRegion, hmode]
      simp only [List.reverse_cons, List.foldlM_append, foldlM_cons, List.foldlM_nil,
        bind_pure, hskip]
      exact hshared.emits

theorem agree_slices
    (hagree : Agree (contents current) (contents incoming) y z (y' - y)) (hy : 0 ≤ y) (hz : 0 ≤ z)
    (hyy : y ≤ y') (hzz : z' - z = y' - y) (hyl : y' ≤ current.length) (hzl : z' ≤ incoming.length) :
    slice (contents current) y y' = slice (contents incoming) z z' := by
  have hslice := hagree.slice_eq hy hz (by omega) (by simp only [length_map]; omega)
    (by simp only [length_map]; omega)
  rwa [show y + (y' - y) = y' by omega, show z + (y' - y) = z' by omega] at hslice

/-- What a region writes is the same from the other side. -/
theorem lines_swap {x' : Int}
    (hr : Spans tied (contents base) (contents current) (contents incoming) r x y z x' y' z')
    (hmode : r.mode ≠ .conflict) (hy : 0 ≤ y) (hz : 0 ≤ z) (hyl : y' ≤ current.length)
    (hzl : z' ≤ incoming.length) :
    r.swap.mode.lines (contents incoming) (contents current) z y z' y' =
      r.mode.lines (contents current) (contents incoming) y z y' z' := by
  have hsound := hr.sound
  have hcle := hr.current_le
  unfold MergeRegion.swap
  cases h : r.mode with
  | conflict => exact absurd h hmode
  | current => rfl
  | incoming => rfl
  | same =>
    rw [h] at hsound
    exact (agree_slices hsound.2 hy hz hcle hsound.1.symm hyl hzl).symm

/-- The regions and the gaps between them are segments of the texts, and `fillMerge` writes the
    segments in order; from the other side it writes the same lines. -/
theorem fill_both
    (h : Chain tied (contents base) (contents current) (contents incoming) regions x y z)
    (htied : tied = true ∨ options.style = .merge) (hxl : x ≤ base.length)
    (hyl : y ≤ current.length) (hzl : z ≤ incoming.length) :
    ∃ segments data line segments' data' line',
      Filled base current incoming options regions x y z segments data line ∧
        Filled base incoming current options (regions.map MergeRegion.swap) x z y segments' data'
          line' ∧
        ((∀ r ∈ regions, r.mode ≠ .conflict) → segments.flatMap (Segment.render options) =
          segments'.flatMap (Segment.render options)) := by
  induction h with
  | start =>
    refine ⟨[], [], 0, [], [], 0, ?_, ?_, fun _ => rfl⟩ <;>
      refine ⟨⟨?_, ?_, ?_⟩, Int.le_refl _, Int.le_refl _, ?_, rfl, Emits.pure⟩ <;>
      rw [slice_self] <;> rfl
  | gap h hx hy hz hagree ih =>
    obtain ⟨segments, data, line, segments', data', line', hleft, hright, hequal⟩ :=
      ih (by omega) (by omega) (by omega)
    obtain ⟨h1, h2, h3⟩ := h.nonneg
    have hother := hagree.symm
    rw [← hz] at hother
    refine ⟨_, data, line, _, data', line', hleft.shared h1 h2 h3 hx hy hz hyl hzl hagree,
      hright.shared h1 h3 h2 hx (by omega) hz.symm hzl hyl hother, fun hnone => ?_⟩
    rw [flatMap_append, flatMap_append, hequal hnone, flatMap_singleton,
      flatMap_singleton, Segment.render, Segment.render,
      agree_slices hagree h2 h3 hy hz hyl hzl]
  | region r h hr ih =>
    have hble := hr.base_le
    have hcle := hr.current_le
    have hile := hr.incoming_le
    obtain ⟨segments, data, line, segments', data', line', hleft, hright, hequal⟩ :=
      ih (by omega) (by omega) (by omega)
    obtain ⟨h1, h2, h3⟩ := h.nonneg
    obtain ⟨s, data, line, hleft, hs⟩ := hleft.region h1 h2 h3 hr htied hxl hyl hzl
    obtain ⟨s', data', line', hright, hs'⟩ := hright.region h1 h3 h2 hr.swap htied hxl hzl hyl
    refine ⟨_, data, line, _, data', line', hleft, hright, fun hnone => ?_⟩
    have hmode : r.mode ≠ .conflict := hnone r List.mem_cons_self
    have hmode' : r.swap.mode ≠ .conflict := fun hconflict =>
      hmode ((MergeMode.swap_eq_conflict _).1 hconflict)
    rw [flatMap_append, flatMap_append,
      hequal fun r' hr' => hnone r' (List.mem_cons_of_mem _ hr'), flatMap_singleton,
      flatMap_singleton, hs hmode, hs' hmode', lines_swap hr hmode h2 h3 hyl hzl]

/-- Both passes of `fillMerge` agree, and the second one writes the segments. -/
theorem Filled.render (h : Filled base current incoming options regions.reverse base.length
      current.length incoming.length segments data line) :
    Yields (fun _ => renderRegions regions base current incoming options)
      fun content => content = segments.flatMap (Segment.render options) := by
  have hline := h.line_le
  have hcopy := copyRecords_plain current options false h.line_nonneg
    (show 0 ≤ (current.length : Int) - line by omega) (by omega)
  rw [show line + ((current.length : Int) - line) = current.length by omega] at hcopy
  have hemits := h.emits.bind (g := fun state => copyRecords current state.2
    (current.length - state.2) false false options state.1) hcopy
  rw [h.data_eq, List.reverse_reverse] at hemits
  have hfill : ∀ output, fillMerge output regions base current incoming options =
      (fun out => regions.foldlM (fillRegion base current incoming options) (out, 0) >>=
        fun state => copyRecords current state.2 (current.length - state.2) false false options
          state.1) ⟨0, output⟩ := fun output => rfl
  unfold renderRegions
  rcases hemits 0 with ⟨e, he⟩ | hok
  · rw [hfill, he]
    exact Yields.throw
  · rw [hfill, hfill, hok, hok]
    simp only [pure_bind, id, ne_eq, not_true_eq_false, if_false, Option.map_some,
      Option.getD_some, nil_append]
    exact Yields.pure rfl

theorem renderRegions_yields (h : Chain tied (contents base) (contents current)
      (contents incoming) regions.reverse base.length current.length incoming.length)
    (htied : tied = true ∨ options.style = .merge) :
    Yields (fun _ => renderRegions regions base current incoming options) fun content =>
      ∃ segments : List Segment, contents base = segments.flatMap Segment.base ∧
        contents current = segments.flatMap Segment.current ∧
        contents incoming = segments.flatMap Segment.incoming ∧
        content = segments.flatMap (Segment.render options) ∧
        countConflicts regions = segments.countP Segment.isConflict := by
  obtain ⟨segments, data, line, -, -, -, hfilled, -⟩ :=
    fill_both h htied (Int.le_refl _) (Int.le_refl _) (Int.le_refl _)
  refine hfilled.render.mono fun content hcontent => ⟨segments, ?_, ?_, ?_, hcontent, ?_⟩
  · rw [hfilled.segmented.base_eq, slice_full (by simp)]
  · rw [hfilled.segmented.current_eq, slice_full (by simp)]
  · rw [hfilled.segmented.incoming_eq, slice_full (by simp)]
  · rw [countConflicts, hfilled.count_eq, List.countP_reverse]

theorem recordsLength_yields {records : List ByteRecord} (count : Nat) {index : Int}
    (length : Int) (h0 : 0 ≤ index) (hle : index + count ≤ records.length) :
    Yields (fun _ => recordsLength records count index length) fun _ => True := by
  induction count generalizing index length with
  | zero => exact Yields.pure trivial
  | succ count ih =>
    refine (recordAt_yields h0 (by omega)).bind fun record _ => ?_
    exact (Yields.ofExcept fun _ _ => trivial).bind fun length _ => ih length (by omega) (by omega)

theorem validateConflictRegions_yields (h : Chain tied (contents base) (contents current)
      (contents incoming) regions.reverse base.length current.length incoming.length)
    (htied : tied = true ∨ options.style = .merge) :
    Yields (fun _ => validateConflictRegions regions base current incoming options)
      fun _ => True := by
  refine Yields.forM fun r hr => Yields.ite (fun _ => Yields.pure trivial) fun _ => ?_
  obtain ⟨x0, y0, z0, x1, y1, z1, hspan, hx0, hy0, hz0, hx1, hy1, hz1⟩ :=
    h.inside r (List.mem_reverse.2 hr)
  have hcs := hspan.currentStart_eq
  have hcc := hspan.currentCount_eq
  have his := hspan.incomingStart_eq
  have hic := hspan.incomingCount_eq
  have hble := hspan.base_le
  have hcle := hspan.current_le
  have hile := hspan.incoming_le
  refine (recordsLength_yields _ _ (by omega) (by omega)).bind fun bytes _ => ?_
  refine (recordsLength_yields _ _ (by omega) (by omega)).bind fun added _ => ?_
  refine (Yields.ofExcept (P := fun _ => True) fun _ _ => trivial).bind fun bytes _ => ?_
  refine Yields.ite (fun hstyle => ?_) fun _ => ?_
  · obtain ⟨hbs, hbc⟩ := hspan.base_eq (htied.resolve_right hstyle)
    refine (recordsLength_yields _ _ (by omega) (by omega)).bind fun added _ => ?_
    refine (Yields.ofExcept (P := fun _ => True) fun _ _ => trivial).bind fun bytes _ => ?_
    exact Yields.guard fun _ => Yields.pure trivial
  · simp only [pure_bind]
    exact Yields.guard fun _ => Yields.pure trivial

theorem refineRegions_yields (h : Chain true (contents base) (contents current)
      (contents incoming) regions.reverse base.length current.length incoming.length)
    (hbound : (current.length : Int) + incoming.length < lineMax) :
    Yields (fun fuel => refineRegions fuel regions current incoming options) fun regions =>
      ∃ tied, (tied = true ∨ options.style = .merge) ∧ Chain tied (contents base)
        (contents current) (contents incoming) regions.reverse base.length current.length
        incoming.length := by
  refine Yields.ite (fun _ => ?_) fun _ => Yields.ite (fun hstyle => ?_) fun _ => ?_
  · exact (refineZdiff3_yields h).mono fun _ hchain => ⟨true, .inl rfl, hchain⟩
  · refine (refineConflicts_yields hbound h).bind fun regions hrefined => ?_
    exact (simplifyConflicts_yields hrefined).mono fun _ hchain =>
      ⟨false, .inr hstyle.1, hchain⟩
  · exact Yields.pure ⟨true, .inl rfl, h⟩

/-- The merge of texts in lines: its content is the rendering of segments that cover the three
    texts, and it is clean when none of them is a conflict. -/
def Merged (render : Segment → List UInt8) (base current incoming : List Line)
    (result : TextMergeResult) : Prop :=
  ∃ segments : List Segment, segments.flatMap Segment.base = base ∧
    segments.flatMap Segment.current = current ∧ segments.flatMap Segment.incoming = incoming ∧
    ∃ memory, (result = .clean (segments.flatMap render) memory ∧
        segments.countP Segment.isConflict = 0) ∨
      (result = .conflict (segments.flatMap render) (segments.countP Segment.isConflict) memory ∧
        0 < segments.countP Segment.isConflict)

theorem mergeRecords_yields (memory : TextMergeMemoryEstimate)
    (hbound : (base.length : Int) + current.length + incoming.length < lineMax) :
    Yields (fun fuel => mergeRecords fuel base current incoming options memory)
      (Merged (Segment.render options) (contents base) (contents current) (contents incoming)) := by
  refine (diffByteRecords_yields _ _ _ (by omega)).bind fun currentChanges hcurrent => ?_
  refine (diffByteRecords_yields _ _ _ (by omega)).bind fun incomingChanges hincoming => ?_
  refine Yields.guard fun _ => ?_
  refine (buildMergeRegions_yields hcurrent hincoming).bind fun regions hregions => ?_
  refine (refineRegions_yields hregions (by omega)).bind ?_
  rintro regions ⟨tied, htied, hchain⟩
  refine Yields.guard fun _ => ?_
  refine (validateConflictRegions_yields hchain htied).bind fun _ _ => ?_
  refine (renderRegions_yields hchain htied).bind ?_
  rintro content ⟨segments, hb, hc, hi, rfl, hcount⟩
  refine Yields.ite (fun hzero => Yields.pure ?_) fun hpos => Yields.pure ?_
  · exact ⟨segments, hb.symm, hc.symm, hi.symm, memory, .inl ⟨rfl, by omega⟩⟩
  · refine ⟨segments, hb.symm, hc.symm, hi.symm, memory, .inr ⟨?_, by omega⟩⟩
    rw [hcount]

end Output

-- Lines and limits

/-- The lines of a text. -/
def linesOf (text : List UInt8) : List Line := contents (splitByteRecords text)

theorem flatten_splitLoop (bytes : List UInt8) (n : Nat) : ∀ (start index : Nat)
    (hle : start ≤ index) (hn : index + n = bytes.length),
    (contents (splitLoop bytes n start index hle hn)).flatten = bytes.drop start := by
  induction n with
  | zero =>
    intro start index hle hn
    unfold splitLoop
    split
    · simp [contents, ByteRecord.content]
    · rw [List.drop_of_length_le (by omega)]
      rfl
  | succ n ih =>
    intro start index hle hn
    unfold splitLoop
    split
    · exact ih start (index + 1) _ _
    · simp only [contents, List.map_cons, List.flatten_cons, ByteRecord.content]
      have hrest := ih (index + 1) (index + 1) (Nat.le_refl _) (by omega)
      simp only [contents] at hrest
      conv_rhs => rw [← List.take_append_drop (index + 1 - start) (bytes.drop start)]
      rw [hrest, List.drop_drop, show start + (index + 1 - start) = index + 1 by omega]

/-- The lines of a text make up the text. -/
theorem flatten_linesOf (text : List UInt8) : (linesOf text).flatten = text :=
  flatten_splitLoop text text.length 0 0 (Nat.le_refl _) (by omega)

theorem scanLoop_lines (bytes : List UInt8) (n : Nat) : ∀ (start index : Nat) (info : InputInfo)
    (hle : start ≤ index) (hn : index + n = bytes.length),
    (scanLoop bytes n start index info).lines =
      info.lines + (splitLoop bytes n start index hle hn).length := by
  induction n with
  | zero =>
    intro start index info hle hn
    unfold scanLoop splitLoop
    split <;> simp
  | succ n ih =>
    intro start index info hle hn
    unfold scanLoop splitLoop
    split
    · exact ih start (index + 1) info _ _
    · rw [ih (index + 1) (index + 1) _ (Nat.le_refl _) (by omega), List.length_cons]
      dsimp only
      omega

theorem scanInput_lines (text : List UInt8) :
    (scanInput text).lines = (splitByteRecords text).length := by
  have h := scanLoop_lines text text.length 0 0 ⟨0, 0⟩ (Nat.le_refl _) (by omega)
  rwa [Int.zero_add] at h

theorem cappedLimit_le {name : String} {value : Option Int} {ceiling : Int}
    (h : cappedLimit name value ceiling = .ok limit) : limit ≤ ceiling := by
  unfold cappedLimit at h
  cases value with
  | none => exact Int.le_of_eq (Except.ok.inj h).symm
  | some value =>
    dsimp only at h
    split at h
    · cases h
    · split at h
      · cases h
      · have := Except.ok.inj h
        omega

theorem resolveLimits_maxLines {given : Option (TextMergeLimits (Option Int))}
    {limits : TextMergeLimits Int} (h : resolveLimits given = .ok limits) :
    limits.maxLines ≤ 200000 := by
  unfold resolveLimits at h
  obtain ⟨_, -, h⟩ := bind_eq_ok.1 h
  obtain ⟨_, -, h⟩ := bind_eq_ok.1 h
  obtain ⟨_, -, h⟩ := bind_eq_ok.1 h
  obtain ⟨maxLines, hlines, h⟩ := bind_eq_ok.1 h
  -- the fields after `maxLines` do not matter
  simp only [bind_eq_ok] at h
  obtain ⟨_, -, _, -, _, -, _, -, _, -, _, -, _, -, h⟩ := h
  rw [← Except.ok.inj h]
  exact cappedLimit_le hlines

theorem resolveOptions_maxLines {options : TextMergeOptions}
    (h : resolveOptions options = .ok resolved) : resolved.limits.maxLines ≤ 200000 := by
  unfold resolveOptions at h
  obtain ⟨limits, hlimits, h⟩ := bind_eq_ok.1 h
  obtain ⟨_, -, h⟩ := bind_eq_ok.1 h
  dsimp only at h
  split at h
  · cases h
  split at h
  · cases h
  simp only [bind_eq_ok] at h
  obtain ⟨_, -, _, -, _, -, h⟩ := h
  rw [← Except.ok.inj h]
  exact resolveLimits_maxLines hlimits

theorem estimate_lines {base current incoming : List UInt8}
    (h : estimateResolvedTextMergeMemory base current incoming resolved = .ok memory) :
    ((splitByteRecords base).length : Int) + (splitByteRecords current).length +
      (splitByteRecords incoming).length ≤ resolved.limits.maxLines := by
  unfold estimateResolvedTextMergeMemory at h
  obtain ⟨infos, hinfos, -⟩ := bind_eq_ok.1 h
  unfold validateAndScanInputs at hinfos
  obtain ⟨_, -, hinfos⟩ := bind_eq_ok.1 hinfos
  obtain ⟨_, -, hinfos⟩ := bind_eq_ok.1 hinfos
  split at hinfos
  · cases hinfos
  obtain ⟨lines, hlines, hinfos⟩ := bind_eq_ok.1 hinfos
  have hsum := checkedSum_eq hlines
  split at hinfos
  · cases hinfos
  simp only [List.map_cons, List.map_nil, List.sum_cons, List.sum_nil, scanInput_lines] at hsum
  omega

-- The merge of texts

theorem merged_one {render : Segment → List UInt8} {content : List UInt8}
    {memory : TextMergeMemoryEstimate} (segment : Segment) (hclean : segment.isConflict = false)
    (hcontent : render segment = content) :
    Merged render segment.base segment.current segment.incoming (.clean content memory) := by
  refine ⟨[segment], ?_⟩
  simp [hclean, hcontent]

/-- A rendering whose conflict blocks hold nothing but the two sides between markers. -/
def Segment.renderExact (options : ResolvedOptions) : Segment → List UInt8
  | .conflict crlf _ cur inc =>
    markerLine options 0x3c options.labels.current crlf ++ (cur.flatten ++
      (markerLine options 0x3d none crlf ++ (inc.flatten ++
        markerLine options 0x3e options.labels.incoming crlf)))
  | s => s.render options

/-- Options with nothing set but the style. -/
def styled (style : TextMergeStyle) : TextMergeOptions := { style := some style }

/-- What `styled` options resolve to. -/
def styledResolved (style : TextMergeStyle) : ResolvedOptions :=
  { style, refinement := .zealousAlnum, labels := ⟨none, none, none⟩, markerSize := 7
    indentHeuristic := false, limits := defaultTextMergeLimits }

theorem resolveOptions_styled (style : TextMergeStyle) :
    resolveOptions (styled style) = .ok (styledResolved style) := by
  cases style <;> rfl

variable {s : Segment}

theorem mem_renderExact {b : UInt8} (h : b ∈ s.renderExact (styledResolved style)) :
    b ∈ s.current.flatten ∨ b ∈ s.incoming.flatten ∨ b ∈ [0x3c, 0x3d, 0x3e, 0x0d, 0x0a] := by
  cases s with
  | fromCurrent base cur => exact .inl h
  | fromIncoming base inc => exact .inr (.inl h)
  | common base lines => exact .inl h
  | conflict crlf base cur inc =>
    have hmarker : ∀ marker, marker ∈ [0x3c, 0x3d, 0x3e] →
        b ∈ markerLine (styledResolved style) marker none crlf →
        b ∈ [0x3c, 0x3d, 0x3e, 0x0d, 0x0a] := by
      intro marker hm hb
      cases crlf <;> simp [markerLine, eol, styledResolved] at hb hm ⊢ <;> grind
    simp only [Segment.renderExact, List.mem_append] at h
    rcases h with h | h | h | h | h
    · exact .inr (.inr (hmarker _ (by simp) h))
    · exact .inl h
    · exact .inr (.inr (hmarker _ (by simp) h))
    · exact .inr (.inl h)
    · exact .inr (.inr (hmarker _ (by simp) h))

/-- Without line feeds in the texts, an exact conflict block has three: one for each marker. -/
theorem count_renderExact
    (hcurrent : 0x0a ∉ s.current.flatten) (hincoming : 0x0a ∉ s.incoming.flatten) :
    (s.renderExact (styledResolved style)).count 0x0a = if s.isConflict then 3 else 0 := by
  cases s with
  | fromCurrent base cur => exact count_eq_zero.2 hcurrent
  | fromIncoming base inc => exact count_eq_zero.2 hincoming
  | common base lines => exact count_eq_zero.2 hcurrent
  | conflict crlf base cur inc =>
    have hmarker : ∀ marker : UInt8, marker ≠ 0x0a →
        (markerLine (styledResolved style) marker none crlf).count 0x0a = 1 := by
      intro marker hm
      cases crlf <;> simp [markerLine, eol, styledResolved, hm]
    have hcur : cur.flatten.count 0x0a = 0 := count_eq_zero.2 hcurrent
    have hinc : inc.flatten.count 0x0a = 0 := count_eq_zero.2 hincoming
    have h1 := hmarker 0x3c (by decide)
    have h2 := hmarker 0x3d (by decide)
    have h3 := hmarker 0x3e (by decide)
    have hlabels : (styledResolved style).labels = ⟨none, none, none⟩ := rfl
    simp only [Segment.renderExact, List.count_append, hlabels, hcur, hinc, h1, h2, h3,
      Segment.isConflict, if_true]

theorem mem_side {segments : List Segment} {b : UInt8} (side : Segment → List Line)
    (hs : s ∈ segments) (hb : b ∈ (side s).flatten) : b ∈ (segments.flatMap side).flatten := by
  obtain ⟨line, hline, hbline⟩ := List.mem_flatten.1 hb
  exact List.mem_flatten.2 ⟨line, List.mem_flatMap.2 ⟨s, hs, hline⟩, hbline⟩

theorem count_renderExact_segments (style : TextMergeStyle) (segments : List Segment)
    (hcurrent : ∀ s ∈ segments, 0x0a ∉ s.current.flatten)
    (hincoming : ∀ s ∈ segments, 0x0a ∉ s.incoming.flatten) :
    (segments.flatMap (Segment.renderExact (styledResolved style))).count 0x0a =
      3 * segments.countP Segment.isConflict := by
  induction segments with
  | nil => rfl
  | cons s segments ih =>
    rw [List.flatMap_cons, List.count_append, ih (fun t ht => hcurrent t (List.mem_cons_of_mem _ ht))
      (fun t ht => hincoming t (List.mem_cons_of_mem _ ht)),
      count_renderExact (hcurrent s List.mem_cons_self) (hincoming s List.mem_cons_self),
      countP_cons]
    split <;> omega

/-- The content of a merge with a conflict, from its segments. -/
theorem Merged.content {render : Segment → List UInt8} {base current incoming : List Line}
    {content : List UInt8} {conflicts : Int}
    (h : Merged render base current incoming (.conflict content conflicts memory)) :
    ∃ segments : List Segment, segments.flatMap Segment.current = current ∧
      segments.flatMap Segment.incoming = incoming ∧ content = segments.flatMap render := by
  obtain ⟨segments, -, hc, hi, memory', ⟨heq, -⟩ | ⟨heq, -⟩⟩ := h
  · cases heq
  · exact ⟨segments, hc, hi, (TextMergeResult.conflict.inj heq).1⟩

end Kompjutr.Diff
