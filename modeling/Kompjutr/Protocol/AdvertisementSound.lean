/-
  Kompjutr.Protocol.AdvertisementSound

  What a server writes, a client reads: the advertisement of a fetch comes back with its
  refs, the targets of its tags, its HEAD and its capabilities, however the bytes are
  divided into chunks.
-/
import Kompjutr.Lib.KeyTable
import Kompjutr.Objects.HeaderLines
import Kompjutr.Protocol.Advertisement
import Kompjutr.Refs.NameText

namespace Kompjutr.Protocol

open Objects (Text text isOid indexOf indexOf_unit)
open Refs (comparePaths checkRefText hasCanonicalRefSyntax)
open Utf8 (WellFormed)
open Fuel (bind_eq_ok ok_bind)
open List (append_assoc append_nil flatMap_cons foldl_cons isPrefixOf_iff_prefix length_append
  length_cons map_append mem_append mem_append_right mem_cons mem_cons_of_mem mem_cons_self
  mem_flatMap mem_map mem_singleton nil_append nodup_cons nodup_nil not_mem_nil prefix_append
  suffix_append)
open Option (map_eq_some_iff map_some mem_toList)
open Bool (and_eq_true not_eq_true or_eq_true)

variable {fuel : Nat} {previous : Option Text}

variable {u : UInt16} {limit : Nat} {state : AdvertisementState} {capabilities : List Text}
  {row : Text × Text} {rows : List (Text × Text)} {frames : List (List UInt8)} {reader : ByteReader}
  {rest : List UInt8} {ref : ServerAdvertisedRef} {first : Bool}

-- Decoding a line

theorem encode_ascii (hu : u < 0x80) (rest : Text) :
    Utf8.encode (u :: rest) = u.toNat.toUInt8 :: Utf8.encode rest := by
  have hlt : u.toNat < 0x80 := by simpa [UInt16.lt_iff_toNat_lt] using hu
  have hplain : ¬ (Utf8.isHigh u || Utf8.isLow u) = true := by
    rw [or_eq_true, Utf8.isHigh_iff, Utf8.isLow_iff]
    omega
  have hpoints := Utf8.points_cut [] rest hplain
  rw [nil_append, Utf8.points, nil_append] at hpoints
  rw [Utf8.encode, hpoints, flatMap_cons, Utf8.encodePoint, if_pos hlt]
  rfl

theorem strictDecode_encode {rest : Text} (hu : u < 0x80)
    (h : WellFormed (u :: rest)) : strictDecode (Utf8.encode (u :: rest)) = some (u :: rest) := by
  have hdecode : Utf8.decode (Utf8.encode (u :: rest)) = u :: rest :=
    (Utf8.decode_encode _).trans h
  have hmark : ¬ Utf8.byteOrderMark.isPrefixOf (Utf8.encode (u :: rest)) = true := by
    have hlt : u.toNat < 0x80 := by simpa [UInt16.lt_iff_toNat_lt] using hu
    have hbyte : u.toNat.toUInt8.toNat = u.toNat := Utf8.toNat_toUInt8 (by omega)
    rw [encode_ascii hu, Utf8.byteOrderMark, List.isPrefixOf, and_eq_true, beq_iff_eq]
    rintro ⟨heq, -⟩
    rw [← heq] at hbyte
    have : (0xef : UInt8).toNat = 0xef := rfl
    omega
  rw [strictDecode, if_neg hmark, hdecode, if_pos rfl]

theorem chomp_newline (line : Text) : chomp (line ++ [0x0a]) = line := by
  rw [chomp, if_pos List.getLast?_concat, List.dropLast_concat]

-- Rows

/-- What the rows of an advertisement are made of. -/
structure RowOk (oid name : Text) : Prop where
  oid : isOid oid = true
  checked : (checkRefText name none).problem = none
  space : 0x20 ∉ name

variable {oid : Text}

theorem isOid_cases (h : isOid oid = true) :
    oid.length = 40 ∧ ∀ u ∈ oid, 0x30 ≤ u.toNat ∧ u.toNat ≤ 0x66 ∧ u.toNat ≠ 0x45 := by
  unfold isOid at h
  rw [and_eq_true, decide_eq_true_eq, List.all_eq_true] at h
  refine ⟨h.1, fun u hu => ?_⟩
  have hunit := h.2 u hu
  simp only [Objects.isDigit, or_eq_true, and_eq_true, decide_eq_true_eq,
    UInt16.le_iff_toNat_le, UInt16.reduceToNat] at hunit
  omega

theorem isOid_cons (h : isOid oid = true) : ∃ u rest, oid = u :: rest ∧ u < 0x80 ∧ u ≠ 0x45 := by
  obtain ⟨hlength, hunits⟩ := isOid_cases h
  match oid, hlength with
  | u :: rest, _ =>
    have hunit := hunits u mem_cons_self
    refine ⟨u, rest, rfl, ?_, ?_⟩
    · rw [UInt16.lt_iff_toNat_lt]
      exact Nat.lt_of_le_of_lt hunit.2.1 (by decide)
    · rintro rfl
      exact hunit.2.2 rfl

theorem plain_of_lt (h : u.toNat < 0x80) : ¬ (Utf8.isHigh u || Utf8.isLow u) = true := by
  rw [or_eq_true, Utf8.isHigh_iff, Utf8.isLow_iff]
  omega

/-- Plain text, one unit after the other. -/
theorem ascii_of_all {line : Text} (h : line.all (fun u => decide (u.toNat < 0x80)) = true) :
    ∀ u ∈ line, u.toNat < 0x80 := fun u hu =>
  of_decide_eq_true (List.all_eq_true.1 h u hu)

theorem not_mem_oid (h : isOid oid = true) (hu : u.toNat < 0x30) : u ∉ oid := by
  intro hmem
  have := (isOid_cases h).2 u hmem
  omega

namespace RowOk

variable {oid name : Text}

theorem formed (h : RowOk oid name) : WellFormed (oid ++ text " " ++ name) := by
  have hname := (Refs.checkRefTextFrom_sound h.checked).2
  have hoid : WellFormed oid := Utf8.wellFormed_of_plain fun u hu =>
    plain_of_lt (by have := (isOid_cases h.oid).2 u hu; omega)
  rw [append_assoc]
  exact (Utf8.wellFormed_cut oid name (by decide)).2 ⟨hoid, hname⟩

theorem no_nul (h : RowOk oid name) : 0 ∉ oid ++ text " " ++ name := by
  have hname := (Refs.checkRefTextFrom_sound h.checked).1
  simp only [mem_append, not_or]
  refine ⟨⟨not_mem_oid h.oid (by decide), by decide⟩, fun hmem => ?_⟩
  exact absurd (hname 0 hmem) (by decide)

/-- The line of a row is read back without its newline. -/
theorem decode (h : RowOk oid name) {rest : Text} (hrest : WellFormed rest) {u : UInt16}
    (hu : u.toNat < 0x80) :
    strictDecode (Utf8.encode (oid ++ text " " ++ name ++ u :: rest)) =
      some (oid ++ text " " ++ name ++ u :: rest) := by
  have hformed : WellFormed (oid ++ text " " ++ name ++ u :: rest) :=
    (Utf8.wellFormed_cut _ rest (plain_of_lt hu)).2 ⟨h.formed, hrest⟩
  obtain ⟨v, more, hoid, hv, -⟩ := isOid_cons h.oid
  rw [hoid] at hformed ⊢
  exact strictDecode_encode hv hformed

end RowOk

variable {service : Service}

/-- The state without the capabilities that the first row has. -/
theorem addLine_next {name : Text} (hfirst : state.first = false) (h : RowOk oid name) :
    addLine service limit state (Utf8.encode (rowText capabilities false oid name)) =
      addRow service limit state (oid ++ text " " ++ name) := by
  have hdecode := h.decode (u := 0x0a) Utf8.wellFormed_nil (by decide)
  rw [rowText, if_neg Bool.false_ne_true, append_nil, addLine, hdecode]
  dsimp only
  rw [chomp_newline, takeCapabilities, hfirst, if_neg Bool.false_ne_true, ok_bind]

theorem splitOn_joined (hne : capabilities ≠ [])
    (h : ∀ capability ∈ capabilities, capability ≠ [] ∧ 0x20 ∉ capability) :
    tokens (joined capabilities) = capabilities := by
  rw [tokens, joined]
  change (List.filter _ ((List.intercalate [0x20] capabilities).splitOn 0x20)) = _
  rw [List.splitOn_intercalate 0x20 (fun l hl => (h l hl).2) hne]
  exact List.filter_eq_self.2 fun capability hmem => by simpa using (h capability hmem).1

/-- The first row: its capabilities, then the row. -/
theorem addLine_first {name : Text} (hfirst : state.first = true)
    (h : RowOk oid name) (hne : capabilities ≠ [])
    (hcapabilities : ∀ capability ∈ capabilities, capability ≠ [] ∧ 0x20 ∉ capability)
    (hformed : WellFormed (joined capabilities)) :
    addLine service limit state (Utf8.encode (rowText capabilities true oid name)) =
      (capabilities.foldlM (addCapability limit) { state with first := false } >>= fun state =>
        addRow service limit state (oid ++ text " " ++ name)) := by
  have hrest : WellFormed (joined capabilities ++ [0x0a]) :=
    (Utf8.wellFormed_cut _ [] (by decide)).2 ⟨hformed, Utf8.wellFormed_nil⟩
  have hdecode := h.decode (u := 0) hrest (by decide)
  have hline : rowText capabilities true oid name =
      oid ++ text " " ++ name ++ 0 :: (joined capabilities ++ [0x0a]) := by
    rw [rowText, if_pos rfl, append_assoc, List.cons_append]
  have hchomp : chomp (oid ++ text " " ++ name ++ 0 :: (joined capabilities ++ [0x0a])) =
      oid ++ text " " ++ name ++ 0 :: joined capabilities := by
    rw [← List.cons_append, ← append_assoc, chomp_newline]
  rw [hline, addLine, hdecode]
  dsimp only
  rw [hchomp, takeCapabilities, hfirst, if_pos rfl, indexOf_unit _ h.no_nul]
  dsimp only
  rw [List.drop_append, List.drop_eq_nil_of_le (by omega), nil_append, Nat.add_sub_cancel_left,
    List.drop_succ_cons, List.drop_zero, splitOn_joined hne hcapabilities, List.take_left' rfl]
  cases capabilities.foldlM (addCapability limit) { state with first := false } with
  | error e => rfl
  | ok next => rfl

/-- The row of an empty repository. -/
def syntheticRow : Text × Text := (zeroOid, text "capabilities" ++ peeledSuffix)

/-- What one row adds. -/
def AdvertisementState.addRow (state : AdvertisementState) (row : Text × Text) :
    AdvertisementState :=
  let state := { state with refNames := state.refNames ++ [row.2] }
  if row = syntheticRow then state
  else
    { state with
      refs := state.refs ++ [{ name := row.2, oid := row.1 }]
      headOid := if row.2 = text "HEAD" then some row.1 else state.headOid
      entries := state.entries + 1 }

theorem addRow_ok (h : RowOk row.1 row.2)
    (hadvertised : row ≠ syntheticRow → advertisedRefName row.2 = true)
    (hnew : row.2 ∉ state.refNames) (hentries : row ≠ syntheticRow → state.entries < limit) :
    addRow service limit state (row.1 ++ text " " ++ row.2) = .ok (state.addRow row) := by
  obtain ⟨oid, name⟩ := row
  dsimp only at h hadvertised hnew ⊢
  obtain ⟨u, more, hoid, -, hu⟩ := isOid_cons h.oid
  have herr : (text "ERR ").isPrefixOf (oid ++ text " " ++ name) = false := by
    rw [hoid]
    change (((0x45 : UInt16) == u) && _) = false
    rw [beq_eq_false_iff_ne.2 (Ne.symm hu), Bool.false_and]
  have hline : oid ++ text " " ++ name = oid ++ 0x20 :: name := append_assoc _ _ _
  have hspace : indexOf [0x20] (oid ++ text " " ++ name) = some oid.length := by
    rw [hline]
    exact indexOf_unit _ (not_mem_oid h.oid (by decide))
  have htake : (oid ++ text " " ++ name).take oid.length = oid := by
    rw [hline, List.take_left' rfl]
  have hdrop : (oid ++ text " " ++ name).drop (oid.length + 1) = name := by
    rw [hline, List.drop_append, List.drop_eq_nil_of_le (by omega), Nat.add_sub_cancel_left]
    rfl
  have hcontains : state.refNames.contains name = false := by
    rw [← not_eq_true, List.contains_iff_mem]
    exact hnew
  have hvalid : isOid oid = true := h.oid
  rw [addRow, herr, reject, if_neg Bool.false_ne_true, ok_bind, hspace]
  dsimp only
  rw [htake, hdrop, reject, if_neg (by rw [hvalid]; decide), ok_bind, hcontains, reject,
    if_neg Bool.false_ne_true, ok_bind]
  by_cases hsynthetic : (oid, name) = syntheticRow
  · obtain ⟨hzero, hcapabilities⟩ := Prod.mk.inj hsynthetic
    rw [if_pos (by rw [hzero, hcapabilities]; simp), AdvertisementState.addRow, if_pos hsynthetic]
    rfl
  · have hplain : ¬ ((oid = zeroOid && name = text "capabilities" ++ peeledSuffix) = true) := by
      rw [and_eq_true, decide_eq_true_eq, decide_eq_true_eq]
      exact fun hboth => hsynthetic (Prod.ext hboth.1 hboth.2)
    have hchecked : (checkRefText name none).problem = none := h.checked
    have hname : advertisedRefName name = true := hadvertised hsynthetic
    rw [if_neg hplain, addRef, countEntry, reject, if_neg (by simpa using hentries hsynthetic), ok_bind]
    rw [show (pure { state with
        refNames := state.refNames ++ [name], entries := state.entries + 1 } :
        Except GitError AdvertisementState) = .ok _ from rfl, ok_bind, hchecked, hname, reject,
      if_neg (by decide), ok_bind, AdvertisementState.addRow, if_neg hsynthetic]
    rfl

/-- Frames of rows, the first of them with the capabilities. -/
inductive RowFrames (capabilities : List Text) : Bool → List (Text × Text) → List (List UInt8) → Prop
  | nil {first : Bool} : RowFrames capabilities first [] []
  | cons {first : Bool} {row : Text × Text} {rows : List (Text × Text)} {frame : List UInt8}
      {frames : List (List UInt8)}
      (encoded : pktText (rowText capabilities first row.1 row.2) = .ok frame)
      (rest : RowFrames capabilities false rows frames) :
      RowFrames capabilities first (row :: rows) (frame :: frames)

/-- What the rows of one advertisement meet together. -/
structure RowsOk (rows : List (Text × Text)) : Prop where
  each : ∀ row ∈ rows, RowOk row.1 row.2
  advertised : ∀ row ∈ rows, row ≠ syntheticRow → advertisedRefName row.2 = true
  nodup : (rows.map (·.2)).Nodup

theorem RowsOk.tail {row : Text × Text} {rows : List (Text × Text)} (h : RowsOk (row :: rows)) :
    RowsOk rows where
  each := fun other hother => h.each other (mem_cons_of_mem _ hother)
  advertised := fun other hother => h.advertised other (mem_cons_of_mem _ hother)
  nodup := (nodup_cons.1 h.nodup).2

/-- The refs that are known after a row. -/
theorem refNames_addRow (state : AdvertisementState) (row : Text × Text) :
    (state.addRow row).refNames = state.refNames ++ [row.2] := by
  unfold AdvertisementState.addRow
  dsimp only
  split
  · rfl
  · rfl

theorem first_addRow (state : AdvertisementState) (row : Text × Text) :
    (state.addRow row).first = state.first := by
  unfold AdvertisementState.addRow
  dsimp only
  split
  · rfl
  · rfl

/-- The rows that count as entries. -/
def countedRows (rows : List (Text × Text)) : Nat := (rows.filter (· ≠ syntheticRow)).length

theorem countedRows_cons (row : Text × Text) (rows : List (Text × Text)) :
    countedRows (row :: rows) = (if row = syntheticRow then 0 else 1) + countedRows rows := by
  by_cases hsynthetic : row = syntheticRow
  · simp [countedRows, hsynthetic]
  · simp [countedRows, hsynthetic, Nat.add_comm]

theorem entries_addRow (state : AdvertisementState) (row : Text × Text) :
    (state.addRow row).entries = state.entries + if row = syntheticRow then 0 else 1 := by
  unfold AdvertisementState.addRow
  dsimp only
  split
  · rfl
  · rfl

/-- The rows after the first one, up to the flush. -/
theorem readRows_ok (h : RowFrames capabilities false rows frames)
    (hrows : RowsOk rows) (hnew : ∀ row ∈ rows, row.2 ∉ state.refNames)
    (hentries : state.entries + countedRows rows ≤ limit) (hfirst : state.first = false)
    (hfuel : rows.length < fuel) (hbytes : reader.bytes = frames.flatten ++ flushPkt ++ rest) :
    readRows service limit fuel state reader = .ok (rows.foldl AdvertisementState.addRow state) := by
  induction rows generalizing frames state reader fuel with
  | nil =>
    cases h
    obtain ⟨fuel, rfl⟩ := Nat.exists_eq_add_one.2 (by omega)
    rw [List.flatten_nil, nil_append] at hbytes
    obtain ⟨after, hread, -⟩ := readPkt_flush hbytes
    rw [readRows, hread, ok_bind]
    rfl
  | cons row rows ih =>
    obtain ⟨fuel, rfl⟩ := Nat.exists_eq_succ_of_ne_zero (Nat.ne_of_gt (Nat.zero_lt_of_lt hfuel))
    rw [length_cons] at hfuel
    rw [countedRows_cons] at hentries
    cases h with
    | @cons _ _ _ frame frames hframe hrest =>
      rw [List.flatten_cons, append_assoc, append_assoc] at hbytes
      obtain ⟨after, hread, hafter⟩ := readPkt_line hframe hbytes
      have hadd : addLine service limit state (Utf8.encode (rowText capabilities false row.1 row.2)) =
          .ok (state.addRow row) := by
        rw [addLine_next hfirst (hrows.each row mem_cons_self)]
        exact addRow_ok (hrows.each row mem_cons_self)
          (hrows.advertised row mem_cons_self) (hnew row mem_cons_self)
          (fun hne => by rw [if_neg hne] at hentries; omega)
      rw [readRows, hread, ok_bind]
      dsimp only
      rw [hadd, ok_bind]
      refine ih hrest hrows.tail (fun other hother => ?_) ?_ ?_ (by omega) ?_
      · rw [refNames_addRow, mem_append, mem_singleton, not_or]
        refine ⟨hnew other (mem_cons_of_mem _ hother), fun heq => ?_⟩
        exact (nodup_cons.1 hrows.nodup).1 (mem_map.2 ⟨other, hother, heq⟩)
      · rw [entries_addRow]
        omega
      · rw [first_addRow]
        exact hfirst
      · rw [hafter, append_assoc]

-- What a server accepts to write

/-- A name that a server serves. -/
structure ServedName (name : Text) : Prop where
  checked : (checkRefText name none).problem = none
  served : text "refs/heads/" <+: name ∨ text "refs/tags/" <+: name
  canonical : hasCanonicalRefSyntax name 0 = true

theorem requireServerRef_ok {ref : Text} (h : requireServerRef ref = .ok ()) : ServedName ref := by
  replace h := Fuel.after_check h
  rw [reject_eq_ok] at h
  simp only [Bool.or_eq_false_iff, Bool.not_eq_false', decide_eq_false_iff_not, not_not,
    or_eq_true] at h
  refine ⟨Refs.checkRefText_none h.1.1, ?_, h.2⟩
  exact h.1.2.imp isPrefixOf_iff_prefix.1 isPrefixOf_iff_prefix.1

theorem requireServerOid_ok {allowZero : Bool} (h : requireServerOid oid allowZero = .ok ()) :
    isOid oid = true ∧ (allowZero = false → oid ≠ zeroOid) := by
  rw [requireServerOid, reject_eq_ok, Bool.or_eq_false_iff, Bool.not_eq_false'] at h
  refine ⟨h.1, fun hzero heq => ?_⟩
  rw [hzero, heq] at h
  exact absurd h.2 (by decide)

namespace ServedName

variable {name : Text}

section

variable (h : ServedName name)

include h

theorem space : 0x20 ∉ name := fun hmem =>
  absurd (Refs.units_of_canonical h.canonical _ hmem).2 (by decide)

theorem caret : 0x5e ∉ name := fun hmem =>
  absurd (Refs.units_of_canonical h.canonical _ hmem).2 (by decide)

/-- Every served name is one of the refs. -/
theorem refs : text "refs/" <+: name :=
  h.served.elim (List.IsPrefix.trans (by decide)) (List.IsPrefix.trans (by decide))

theorem ne_head : name ≠ text "HEAD" := by
  rintro rfl
  exact absurd h.refs (by decide)

theorem not_peeled : peeledSuffix.isSuffixOf name = false := by
  rw [← not_eq_true, List.isSuffixOf_iff_suffix]
  intro hsuffix
  exact h.caret (hsuffix.subset (by decide))

theorem rowOk (hoid : isOid oid = true) : RowOk oid name :=
  ⟨hoid, h.checked, h.space⟩

theorem advertised : advertisedRefName name = true := by
  rw [advertisedRefName, if_neg h.ne_head, if_neg (by rw [h.not_peeled]; decide), h.canonical,
    isPrefixOf_iff_prefix.2 h.refs]
  rfl

/-- The suffix of a peeled tag. -/
theorem peeled_rowOk (hoid : isOid oid = true) : RowOk oid (name ++ peeledSuffix) := by
  refine ⟨hoid, ?_, ?_⟩
  · rw [checkRefText, Refs.checkRefTextFrom_append h.checked]
    rfl
  · rw [mem_append, not_or]
    exact ⟨h.space, by decide⟩

theorem peeled_advertised (htag : text "refs/tags/" <+: name) :
    advertisedRefName (name ++ peeledSuffix) = true := by
  have hne : name ++ peeledSuffix ≠ text "HEAD" := by
    intro heq
    have hsuffix : peeledSuffix <:+ text "HEAD" := heq ▸ suffix_append name peeledSuffix
    exact absurd hsuffix (by decide)
  have hstart : text "refs/tags/" <+: name ++ peeledSuffix := htag.trans (prefix_append _ _)
  have hrefs : (text "ref: ").isPrefixOf (name ++ peeledSuffix) = false := by
    rw [← not_eq_true, isPrefixOf_iff_prefix]
    intro hother
    exact absurd (List.prefix_of_prefix_length_le hother hstart (by decide)) (by decide)
  have hcanonical := @Refs.canonical_before_suffix name [0x7b, 0x7d] h.canonical hrefs
  rw [advertisedRefName, if_neg hne,
    if_pos (List.isSuffixOf_iff_suffix.2 (suffix_append name peeledSuffix)),
    isPrefixOf_iff_prefix.2 hstart, Bool.true_and]
  have hlength : (name ++ peeledSuffix).length - 3 = name.length := by
    rw [length_append]
    exact Nat.add_sub_cancel _ 3
  rw [hlength]
  exact hcanonical

end

end ServedName

-- The frames of an advertisement

/-- The row of a peeled tag. -/
def peeledRows (service : Service) (ref : ServerAdvertisedRef) : List (Text × Text) :=
  match service with
  | .uploadPack => (ref.peeledOid.map fun peeled => (peeled, ref.name ++ peeledSuffix)).toList
  | .receivePack => []

/-- The rows of one ref. -/
def rowsOfRef (service : Service) (ref : ServerAdvertisedRef) : List (Text × Text) :=
  (ref.oid, ref.name) :: peeledRows service ref

/-- A ref that was written. -/
structure RefOk (head : Option ServerHead) (ref : ServerAdvertisedRef) : Prop where
  name : ServedName ref.name
  oid : isOid ref.oid = true
  peeled : ∀ peeled ∈ ref.peeledOid, isOid peeled = true ∧ text "refs/tags/" <+: ref.name
  branch : ∀ branch ∈ head, ref.name = branch.ref → branch.oid = some ref.oid

theorem encodePeeled_ok (h : encodePeeled service ref = .ok frames) :
    (∀ peeled ∈ ref.peeledOid, isOid peeled = true ∧ text "refs/tags/" <+: ref.name) ∧
      ∀ capabilities, RowFrames capabilities false (peeledRows service ref) frames := by
  unfold encodePeeled at h
  cases hpeeled : ref.peeledOid with
  | none =>
    rw [hpeeled] at h
    cases h
    refine ⟨fun peeled hmem => (nomatch hmem), fun capabilities => ?_⟩
    cases service with
    | uploadPack =>
      rw [peeledRows, hpeeled]
      exact .nil
    | receivePack => exact .nil
  | some peeled =>
    rw [hpeeled] at h
    obtain ⟨⟨⟩, htag, h⟩ := bind_eq_ok.1 h
    obtain ⟨⟨⟩, hoid, h⟩ := bind_eq_ok.1 h
    rw [reject_eq_ok, Bool.not_eq_false', isPrefixOf_iff_prefix] at htag
    refine ⟨fun other hother => ?_, fun capabilities => ?_⟩
    · cases hother
      exact ⟨(requireServerOid_ok hoid).1, htag⟩
    · cases service with
      | uploadPack =>
        obtain ⟨frame, hframe, h⟩ := bind_eq_ok.1 h
        cases h
        rw [peeledRows, hpeeled]
        exact .cons hframe .nil
      | receivePack =>
        cases h
        exact .nil

variable {head : Option ServerHead}

theorem encodeRef_ok (h : encodeRef service head first previous ref = .ok frames) :
    RefOk head ref ∧ (∀ name ∈ previous, comparePaths name ref.name = .lt) ∧
      RowFrames (capabilitiesOf service head) first (rowsOfRef service ref) frames := by
  obtain ⟨⟨⟩, hname, h⟩ := bind_eq_ok.1 h
  obtain ⟨⟨⟩, hoid, h⟩ := bind_eq_ok.1 h
  obtain ⟨⟨⟩, hordered, h⟩ := bind_eq_ok.1 h
  obtain ⟨⟨⟩, hhead, h⟩ := bind_eq_ok.1 h
  obtain ⟨frame, hframe, h⟩ := bind_eq_ok.1 h
  obtain ⟨peeled, hpeeled, h⟩ := bind_eq_ok.1 h
  cases h
  obtain ⟨hpeeledOk, hpeeledFrames⟩ := encodePeeled_ok hpeeled
  refine ⟨⟨requireServerRef_ok hname, (requireServerOid_ok hoid).1, hpeeledOk, ?_⟩, ?_, ?_⟩
  · intro other hother hsame
    rw [reject_eq_ok, hother] at hhead
    by_contra hne
    simp [hsame, Ne.symm hne] at hhead
  · intro name hprevious
    rw [reject_eq_ok, hprevious] at hordered
    simpa using hordered
  · exact .cons hframe (hpeeledFrames _)

theorem RowFrames.append {others : List (Text × Text)} {more : List (List UInt8)}
    (h : RowFrames capabilities first (row :: rows) frames)
    (hmore : RowFrames capabilities false others more) :
    RowFrames capabilities first (row :: rows ++ others) (frames ++ more) := by
  induction rows generalizing row first frames with
  | nil =>
    cases h with
    | cons hframe hrest =>
      cases hrest
      exact .cons hframe hmore
  | cons next rows ih =>
    cases h with
    | cons hframe hrest => exact .cons hframe (ih hrest)

/-- The rows of the refs; without any row the capabilities have one of their own. -/
def refRows (service : Service) (first : Bool) (refs : List ServerAdvertisedRef) :
    List (Text × Text) :=
  if first && refs = [] then [syntheticRow] else refs.flatMap (rowsOfRef service)

theorem encodeRefs_ok {refs : List ServerAdvertisedRef}
    (h : encodeRefs service head first previous refs = .ok frames) :
    (∀ ref ∈ refs, RefOk head ref) ∧
      (previous.toList ++ refs.map (·.name)).Pairwise (fun a b => comparePaths a b = .lt) ∧
      RowFrames (capabilitiesOf service head) first (refRows service first refs) frames := by
  induction refs generalizing first previous frames with
  | nil =>
    have hprevious : (previous.toList ++ ([] : List ServerAdvertisedRef).map (·.name)).Pairwise
        (fun a b => comparePaths a b = .lt) := by
      cases previous with
      | none => exact .nil
      | some name => exact List.pairwise_singleton _ _
    refine ⟨fun ref href => absurd href not_mem_nil, hprevious, ?_⟩
    rw [encodeRefs] at h
    cases first with
    | true =>
      obtain ⟨frame, hframe, h⟩ := bind_eq_ok.1 h
      cases h
      exact .cons hframe .nil
    | false =>
      cases h
      exact .nil
  | cons ref refs ih =>
    obtain ⟨frames', hframes, h⟩ := bind_eq_ok.1 h
    obtain ⟨rest, hrest, h⟩ := bind_eq_ok.1 h
    cases h
    obtain ⟨href, hprevious, hrefFrames⟩ := encodeRef_ok hframes
    obtain ⟨hall, hordered, hrestFrames⟩ := ih hrest
    refine ⟨fun other hother => ?_, ?_, ?_⟩
    · obtain rfl | hother := mem_cons.1 hother
      · exact href
      · exact hall other hother
    · cases previous with
      | none => exact hordered
      | some name =>
        -- the name before the first one is below all of them
        have hfirst : comparePaths name ref.name = .lt := hprevious name rfl
        refine List.pairwise_cons.2 ⟨fun other hother => ?_, hordered⟩
        obtain rfl | hother := mem_cons.1 hother
        · exact hfirst
        · exact Refs.comparePaths_lt_trans hfirst ((List.pairwise_cons.1 hordered).1 other hother)
    · have hsame : refRows service first (ref :: refs) = rowsOfRef service ref ++
          refRows service false refs := by
        rw [refRows, if_neg (by simp), refRows, if_neg (by simp), flatMap_cons]
      rw [hsame]
      exact RowFrames.append hrefFrames hrestFrames

def headRows (service : Service) (head : Option ServerHead) : List (Text × Text) :=
  ((headRow service head).map fun oid => (oid, text "HEAD")).toList

/-- The rows that stand for something. -/
def advertisedRows (service : Service) (advertisement : ServerAdvertisement) : List (Text × Text) :=
  headRows service advertisement.head ++ advertisement.refs.flatMap (rowsOfRef service)

/-- The rows on the wire. -/
def wireRows (service : Service) (advertisement : ServerAdvertisement) : List (Text × Text) :=
  headRows service advertisement.head ++
    refRows service (headRow service advertisement.head).isNone advertisement.refs

/-- What an advertisement that was written meets. -/
structure AdvertisementOk (service : Service) (advertisement : ServerAdvertisement) : Prop where
  headName : ∀ head ∈ advertisement.head, ServedName head.ref
  headOid : ∀ oid ∈ headRow service advertisement.head, isOid oid = true
  refs : ∀ ref ∈ advertisement.refs, RefOk advertisement.head ref
  ordered : (advertisement.refs.map (·.name)).Pairwise fun a b => comparePaths a b = .lt

theorem requireHead_ok {head : ServerHead} (h : requireHead head = .ok ()) :
    ServedName head.ref ∧ ∀ oid ∈ head.oid, isOid oid = true := by
  obtain ⟨⟨⟩, hname, h⟩ := bind_eq_ok.1 h
  replace h := Fuel.after_check h
  refine ⟨requireServerRef_ok hname, fun oid hoid => ?_⟩
  rw [hoid] at h
  exact (requireServerOid_ok h).1

variable {advertisement : ServerAdvertisement}

theorem encodeAdvertisement_ok (h : encodeAdvertisement service advertisement = .ok frames) :
    AdvertisementOk service advertisement ∧
      ∃ header rows, pktText (text "# service=" ++ service.name ++ [0x0a]) = .ok header ∧
        frames = header :: flushPkt :: (rows ++ [flushPkt]) ∧
        RowFrames (capabilitiesOf service advertisement.head) true
          (wireRows service advertisement) rows := by
  obtain ⟨⟨⟩, hhead, h⟩ := bind_eq_ok.1 h
  obtain ⟨header, hheader, h⟩ := bind_eq_ok.1 h
  obtain ⟨headFrames, hheadFrames, h⟩ := bind_eq_ok.1 h
  obtain ⟨refFrames, hrefFrames, h⟩ := bind_eq_ok.1 h
  obtain ⟨hrefs, hordered, hrows⟩ := encodeRefs_ok hrefFrames
  have hheadOk : ∀ head ∈ advertisement.head,
      ServedName head.ref ∧ ∀ oid ∈ head.oid, isOid oid = true := by
    intro head hmem
    rw [hmem] at hhead
    exact requireHead_ok hhead
  refine ⟨⟨fun head hmem => (hheadOk head hmem).1, ?_, hrefs, hordered⟩, header,
    headFrames ++ refFrames, hheader, (Except.ok.inj h).symm, ?_⟩
  · intro oid hoid
    cases service with
    | uploadPack =>
      obtain ⟨head, hmem, hoid⟩ := Option.bind_eq_some_iff.1 hoid
      exact (hheadOk head hmem).2 oid hoid
    | receivePack => cases hoid
  · rw [encodeHead] at hheadFrames
    rw [wireRows, headRows]
    cases hrow : headRow service advertisement.head with
    | none =>
      rw [hrow] at hheadFrames hrows
      cases hheadFrames
      exact hrows
    | some oid =>
      rw [hrow] at hheadFrames hrows
      obtain ⟨frame, hframe, hheadFrames⟩ := bind_eq_ok.1 hheadFrames
      cases hheadFrames
      exact .cons hframe hrows

/-- The two names that are not refs. -/
theorem fixedNames :
    (isOid syntheticRow.1 = true ∧ (checkRefText syntheticRow.2 none).problem = none ∧
      0x20 ∉ syntheticRow.2) ∧ advertisedRefName syntheticRow.2 = false ∧
    syntheticRow.2 ≠ text "HEAD" ∧ (checkRefText (text "HEAD") none).problem = none ∧
    0x20 ∉ text "HEAD" := by
  decide +kernel

theorem syntheticRow_ok : RowOk syntheticRow.1 syntheticRow.2 :=
  ⟨fixedNames.1.1, fixedNames.1.2.1, fixedNames.1.2.2⟩

theorem syntheticRow_ne_head : syntheticRow.2 ≠ text "HEAD" := fixedNames.2.2.1

theorem headRow_ok (h : isOid oid = true) : RowOk oid (text "HEAD") :=
  ⟨h, fixedNames.2.2.2.1, fixedNames.2.2.2.2⟩

namespace AdvertisementOk

variable {service : Service} {advertisement : ServerAdvertisement}

theorem mem_rowsOfRef (h : row ∈ rowsOfRef service ref) :
    row = (ref.oid, ref.name) ∨
      ∃ peeled ∈ ref.peeledOid, row = (peeled, ref.name ++ peeledSuffix) := by
  obtain rfl | h := mem_cons.1 h
  · exact .inl rfl
  · right
    cases service with
    | uploadPack =>
      rw [peeledRows, mem_toList, map_eq_some_iff] at h
      obtain ⟨peeled, hpeeled, rfl⟩ := h
      exact ⟨peeled, hpeeled, rfl⟩
    | receivePack => cases h

/-- A row of the refs is one of a served name. -/
theorem refRow (h : AdvertisementOk service advertisement)
    (hrow : row ∈ advertisement.refs.flatMap (rowsOfRef service)) :
    RowOk row.1 row.2 ∧ advertisedRefName row.2 = true ∧ row.2 ≠ text "HEAD" := by
  obtain ⟨ref, href, hrow⟩ := mem_flatMap.1 hrow
  have hok := h.refs ref href
  obtain rfl | ⟨peeled, hpeeled, rfl⟩ := mem_rowsOfRef hrow
  · exact ⟨hok.name.rowOk hok.oid, hok.name.advertised, hok.name.ne_head⟩
  · obtain ⟨hoid, htag⟩ := hok.peeled peeled hpeeled
    refine ⟨hok.name.peeled_rowOk hoid, hok.name.peeled_advertised htag, fun heq => ?_⟩
    have hsuffix : peeledSuffix <:+ text "HEAD" := heq ▸ suffix_append ref.name peeledSuffix
    exact absurd hsuffix (by decide)

theorem refNames_nodup {refs : List ServerAdvertisedRef} (hnames : ∀ ref ∈ refs, ServedName ref.name)
    (hordered : (refs.map (·.name)).Pairwise fun a b => comparePaths a b = .lt) :
    ((refs.flatMap (rowsOfRef service)).map (·.2)).Nodup := by
  induction refs with
  | nil => exact nodup_nil
  | cons ref refs ih =>
    obtain ⟨hfirst, hrest⟩ := List.pairwise_cons.1 hordered
    have hne : ∀ other ∈ refs, other.name ≠ ref.name := fun other hother =>
      (Refs.ne_of_comparePaths_lt (hfirst other.name (List.mem_map_of_mem hother))).symm
    have hserved : ∀ other ∈ refs, ServedName other.name :=
      fun other hother => hnames other (mem_cons_of_mem _ hother)
    have hcaret := (hnames ref mem_cons_self).caret
    have hsuffix : (0x5e : UInt16) ∈ peeledSuffix := by decide
    rw [flatMap_cons, map_append]
    refine List.Nodup.append ?_ (ih hserved hrest) ?_
    · -- a name and the same name with a suffix
      cases service with
      | uploadPack =>
        cases hpeeled : ref.peeledOid with
        | none => simp [rowsOfRef, peeledRows, hpeeled]
        | some peeled =>
          simp only [rowsOfRef, peeledRows, hpeeled, map_some, Option.toList_some,
            List.map_cons, List.map_nil, nodup_cons, mem_singleton, not_mem_nil,
            not_false_eq_true, nodup_nil, and_self, and_true]
          intro heq
          rw [heq] at hcaret
          exact hcaret (mem_append_right _ hsuffix)
      | receivePack => simp [rowsOfRef, peeledRows]
    · intro name hname hother
      obtain ⟨row, hrow, rfl⟩ := mem_map.1 hname
      obtain ⟨otherRow, hotherRow, heq⟩ := mem_map.1 hother
      obtain ⟨other, hotherMem, hotherRow⟩ := mem_flatMap.1 hotherRow
      have hotherCaret := (hserved other hotherMem).caret
      obtain rfl | ⟨peeled, -, rfl⟩ := mem_rowsOfRef hrow <;>
        obtain rfl | ⟨peeled', -, rfl⟩ := mem_rowsOfRef hotherRow
      · exact hne other hotherMem heq
      · have hname : other.name ++ peeledSuffix = ref.name := heq
        rw [← hname] at hcaret
        exact hcaret (mem_append_right _ hsuffix)
      · have hname : other.name = ref.name ++ peeledSuffix := heq
        rw [hname] at hotherCaret
        exact hotherCaret (mem_append_right _ hsuffix)
      · exact hne other hotherMem (List.append_cancel_right heq)

/-- The rows on the wire can all be read. -/
theorem wireRows_ok (h : AdvertisementOk service advertisement) :
    RowsOk (wireRows service advertisement) := by
  have hhead : ∀ row ∈ headRows service advertisement.head,
      RowOk row.1 row.2 ∧ row.2 = text "HEAD" := by
    intro row hrow
    rw [headRows, mem_toList, map_eq_some_iff] at hrow
    obtain ⟨oid, hoid, rfl⟩ := hrow
    exact ⟨headRow_ok (h.headOid oid hoid), rfl⟩
  have hrefs : ∀ row ∈ refRows service (headRow service advertisement.head).isNone advertisement.refs,
      RowOk row.1 row.2 ∧ (row ≠ syntheticRow → advertisedRefName row.2 = true) ∧
        row.2 ≠ text "HEAD" := by
    intro row hrow
    rw [refRows] at hrow
    split at hrow
    · obtain rfl := mem_singleton.1 hrow
      exact ⟨syntheticRow_ok, fun hne => absurd rfl hne, syntheticRow_ne_head⟩
    · obtain ⟨hok, hadvertised, hne⟩ := h.refRow hrow
      exact ⟨hok, fun _ => hadvertised, hne⟩
  refine ⟨fun row hrow => ?_, fun row hrow hne => ?_, ?_⟩
  · obtain hrow | hrow := mem_append.1 hrow
    · exact (hhead row hrow).1
    · exact (hrefs row hrow).1
  · obtain hrow | hrow := mem_append.1 hrow
    · rw [(hhead row hrow).2, advertisedRefName, if_pos rfl]
    · exact (hrefs row hrow).2.1 hne
  · rw [wireRows, map_append]
    refine List.Nodup.append ?_ ?_ ?_
    · rw [headRows]
      cases headRow service advertisement.head with
      | none => exact nodup_nil
      | some oid => exact List.nodup_singleton _
    · rw [refRows]
      split
      · exact List.nodup_singleton _
      · exact refNames_nodup (fun ref href => (h.refs ref href).name) h.ordered
    · intro name hname hother
      obtain ⟨row, hrow, rfl⟩ := mem_map.1 hname
      obtain ⟨other, hother, heq⟩ := mem_map.1 hother
      exact (hrefs other hother).2.2 (heq.trans (hhead row hrow).2)

end AdvertisementOk

-- The capabilities

/-- What the first row says besides itself. -/
def AdvertisementState.ofCapabilities (service : Service) (head : Option ServerHead) :
    AdvertisementState :=
  { AdvertisementState.initial with
    capabilities := capabilitiesOf service head
    headRef := if service = .uploadPack then head.map (·.ref) else none
    first := false
    entries := (capabilitiesOf service head).length }

theorem addCapability_ok {limit : Nat} {state : AdvertisementState} {capability : Text}
    {headRef : Option Text} (hnul : 0 ∉ capability)
    (hhead : capabilityHead state.headRef capability = .ok headRef)
    (hnew : capability ∉ state.capabilities) (hentries : state.entries < limit) :
    addCapability limit state capability = .ok { state with
      headRef
      capabilities := state.capabilities ++ [capability]
      entries := state.entries + 1 } := by
  have hzero : capability.contains 0 = false := by
    rw [← not_eq_true, List.contains_iff_mem]
    exact hnul
  have hcontains : state.capabilities.contains capability = false := by
    rw [← not_eq_true, List.contains_iff_mem]
    exact hnew
  rw [addCapability, countEntry, reject, if_neg (by simpa using hentries), ok_bind]
  rw [show (pure { state with entries := state.entries + 1 } :
    Except GitError AdvertisementState) = .ok _ from rfl, ok_bind, hzero, reject,
    if_neg Bool.false_ne_true, ok_bind, hhead, ok_bind, hcontains, if_neg Bool.false_ne_true]
  rfl

namespace ServedName

variable {head : ServerHead}

theorem no_nul (h : ServedName head.ref) : 0 ∉ symrefCapability head := by
  have hname := (Refs.checkRefTextFrom_sound h.checked).1
  rw [symrefCapability, mem_append, not_or]
  exact ⟨by decide, fun hmem => absurd (hname 0 hmem) (by decide)⟩

theorem capabilityHead_symref (h : ServedName head.ref) :
    capabilityHead none (symrefCapability head) = .ok (some head.ref) := by
  have hsymref : (text "symref=HEAD:").isPrefixOf (symrefCapability head) = true :=
    isPrefixOf_iff_prefix.2 (prefix_append _ _)
  have hstart : (text "symref=HEAD").isPrefixOf (symrefCapability head) = true := by
    have hshort : text "symref=HEAD" <+: text "symref=HEAD:" := by decide
    exact isPrefixOf_iff_prefix.2 (hshort.trans (prefix_append _ _))
  have hdrop : (symrefCapability head).drop 12 = head.ref := List.drop_left' (by decide)
  have hchecked := h.checked
  have hrefs := isPrefixOf_iff_prefix.2 h.refs
  rw [capabilityHead, if_pos hstart]
  dsimp only
  rw [hsymref, reject, if_neg (by decide), ok_bind, hdrop, hchecked, hrefs, h.canonical, reject,
    if_neg (by decide), ok_bind, reject, if_neg (by simp), ok_bind]
  rfl

end ServedName

theorem joined_concat {capabilities : List Text} (h : capabilities ≠ []) (last : Text) :
    joined (capabilities ++ [last]) = joined capabilities ++ 0x20 :: last := by
  change List.intercalate [0x20] _ = List.intercalate [0x20] _ ++ _
  induction capabilities with
  | nil => exact absurd rfl h
  | cons capability capabilities ih =>
    cases capabilities with
    | nil => simp
    | cons next rest => simpa using ih (by simp)

/-- The capabilities of a server can be told apart. -/
theorem capabilitiesOf_ok {service : Service} {head : Option ServerHead}
    (h : ∀ branch ∈ head, ServedName branch.ref) :
    capabilitiesOf service head ≠ [] ∧
      (∀ capability ∈ capabilitiesOf service head, capability ≠ [] ∧ 0x20 ∉ capability) ∧
      WellFormed (joined (capabilitiesOf service head)) := by
  cases service with
  | receivePack =>
    have hplain : ∀ u ∈ joined receiveServerCapabilities, u.toNat < 0x80 :=
      ascii_of_all (by decide)
    have hfixed : receiveServerCapabilities ≠ [] ∧
        ∀ capability ∈ receiveServerCapabilities, capability ≠ [] ∧ 0x20 ∉ capability := by
      decide
    exact ⟨hfixed.1, hfixed.2, Utf8.wellFormed_of_plain fun u hu => plain_of_lt (hplain u hu)⟩
  | uploadPack =>
    have hplain : ∀ u ∈ joined uploadServerCapabilities ++ text " symref=HEAD:", u.toNat < 0x80 :=
      ascii_of_all (by decide)
    cases head with
    | none =>
      refine ⟨by decide, by decide, Utf8.wellFormed_of_plain fun u hu => plain_of_lt (hplain u ?_)⟩
      exact List.mem_append_left _ hu
    | some head =>
      have hserved := h head rfl
      refine ⟨by simp [capabilitiesOf, uploadServerCapabilities], fun capability hmem => ?_, ?_⟩
      · obtain hmem | hmem := mem_append.1 hmem
        · have hfixed : ∀ capability ∈ uploadServerCapabilities, capability ≠ [] ∧ 0x20 ∉ capability := by
            decide
          exact hfixed capability hmem
        · obtain rfl := mem_singleton.1 hmem
          refine ⟨fun hnil => ?_, ?_⟩
          · exact absurd (List.append_eq_nil_iff.1 hnil).1 (by decide)
          · rw [symrefCapability, mem_append, not_or]
            exact ⟨by decide, hserved.space⟩
      · have hjoined : joined (capabilitiesOf .uploadPack (some head)) =
            joined uploadServerCapabilities ++ text " symref=HEAD" ++ 0x3a :: head.ref := by
          have hlast := @joined_concat uploadServerCapabilities (by decide) (symrefCapability head)
          rw [append_assoc]
          exact hlast
        rw [hjoined]
        refine (Utf8.wellFormed_cut _ _ (by decide)).2 ⟨?_, ?_⟩
        · refine Utf8.wellFormed_of_plain fun u hu => plain_of_lt (hplain u ?_)
          obtain hu | hu := mem_append.1 hu
          · exact List.mem_append_left _ hu
          · have hshort : text " symref=HEAD" <+: text " symref=HEAD:" := by decide
            exact mem_append_right _ (hshort.subset hu)
        · exact (Refs.checkRefTextFrom_sound hserved.checked).2

/-- Capabilities that say nothing about HEAD. -/
theorem foldlM_plain {limit : Nat} {capabilities : List Text} {state : AdvertisementState}
    (hplain : ∀ capability ∈ capabilities,
      0 ∉ capability ∧ (text "symref=HEAD").isPrefixOf capability = false)
    (hnodup : (state.capabilities ++ capabilities).Nodup)
    (hentries : state.entries + capabilities.length ≤ limit) :
    capabilities.foldlM (addCapability limit) state = .ok { state with
      capabilities := state.capabilities ++ capabilities
      entries := state.entries + capabilities.length } := by
  induction capabilities generalizing state with
  | nil =>
    rw [append_nil]
    rfl
  | cons capability capabilities ih =>
    obtain ⟨hnul, hhead⟩ := hplain capability mem_cons_self
    rw [length_cons] at hentries
    have hkept : capabilityHead state.headRef capability = .ok state.headRef := by
      rw [capabilityHead, hhead, if_neg Bool.false_ne_true]
    have hnew : capability ∉ state.capabilities := fun hmem =>
      (List.nodup_append.1 hnodup).2.2 capability hmem capability mem_cons_self rfl
    rw [List.foldlM_cons, addCapability_ok hnul hkept hnew (by omega), ok_bind,
      ih (fun other hother => hplain other (mem_cons_of_mem _ hother)) ?_ ?_]
    · simp [Nat.add_comm, Nat.add_left_comm]
    · simpa using hnodup
    · dsimp only
      omega

theorem foldlM_addCapability (h : ∀ branch ∈ head, ServedName branch.ref)
    (hlimit : (capabilitiesOf service head).length ≤ limit) :
    (capabilitiesOf service head).foldlM (addCapability limit)
      { AdvertisementState.initial with first := false } =
        .ok (.ofCapabilities service head) := by
  cases service with
  | receivePack =>
    have hlimit : receiveServerCapabilities.length ≤ limit := hlimit
    have hfold := @foldlM_plain limit receiveServerCapabilities
      { AdvertisementState.initial with first := false } (by decide) (by decide)
      (by simpa [AdvertisementState.initial] using hlimit)
    exact hfold
  | uploadPack =>
    rw [capabilitiesOf, length_append] at hlimit
    have hfold := @foldlM_plain limit uploadServerCapabilities
      { AdvertisementState.initial with first := false } (by decide) (by decide)
      (by simp only [AdvertisementState.initial]; omega)
    cases head with
    | none => exact hfold
    | some head =>
      have hserved := h head rfl
      have hlast := @addCapability_ok limit
        { AdvertisementState.initial with
          first := false
          capabilities := uploadServerCapabilities
          entries := 2 } (symrefCapability head) (some head.ref) hserved.no_nul
        hserved.capabilityHead_symref ?_ ?_
      · rw [capabilitiesOf, List.foldlM_append, hfold, ok_bind, map_some, Option.toList_some,
          List.foldlM_cons]
        refine (congrArg (· >>= _) hlast).trans ?_
        rfl
      · intro hmem
        have hfixed : ∀ capability ∈ uploadServerCapabilities,
            ¬ text "symref=HEAD:" <+: capability := by
          decide
        exact hfixed _ hmem (prefix_append _ _)
      · exact hlimit

-- What the rows leave

/-- A row as the client keeps it. -/
def remoteRef (row : Text × Text) : RemoteRef := { name := row.2, oid := row.1 }

theorem refs_foldl (rows : List (Text × Text)) (state : AdvertisementState) :
    (rows.foldl AdvertisementState.addRow state).refs =
      state.refs ++ (rows.filter (· ≠ syntheticRow)).map remoteRef := by
  induction rows generalizing state with
  | nil => simp
  | cons row rows ih =>
    rw [foldl_cons, ih, AdvertisementState.addRow]
    dsimp only
    by_cases hsynthetic : row = syntheticRow
    · simp [hsynthetic]
    · simp [hsynthetic, remoteRef]

theorem told_foldl (rows : List (Text × Text)) (state : AdvertisementState) :
    (rows.foldl AdvertisementState.addRow state).capabilities = state.capabilities ∧
      (rows.foldl AdvertisementState.addRow state).headRef = state.headRef := by
  induction rows generalizing state with
  | nil => exact ⟨rfl, rfl⟩
  | cons row rows ih =>
    rw [foldl_cons, (ih _).1, (ih _).2, AdvertisementState.addRow]
    dsimp only
    split
    · exact ⟨rfl, rfl⟩
    · exact ⟨rfl, rfl⟩

theorem headOid_foldl (h : ∀ row ∈ rows, row.2 ≠ text "HEAD") (state : AdvertisementState) :
    (rows.foldl AdvertisementState.addRow state).headOid = state.headOid := by
  induction rows generalizing state with
  | nil => rfl
  | cons row rows ih =>
    rw [foldl_cons, ih fun other hother => h other (mem_cons_of_mem _ hother),
      AdvertisementState.addRow]
    dsimp only
    split
    · rfl
    · exact if_neg (h row mem_cons_self)

namespace AdvertisementOk

variable {service : Service} {advertisement : ServerAdvertisement}

theorem ne_synthetic (h : advertisedRefName row.2 = true) : row ≠ syntheticRow := by
  rintro rfl
  rw [fixedNames.2.1] at h
  cases h

section

variable (h : AdvertisementOk service advertisement)

include h

/-- Only the row of an empty repository stands for nothing. -/
theorem filter_wireRows :
    (wireRows service advertisement).filter (· ≠ syntheticRow) =
      advertisedRows service advertisement := by
  have hhead : (headRows service advertisement.head).filter (· ≠ syntheticRow) =
      headRows service advertisement.head := by
    refine List.filter_eq_self.2 fun row hrow => ?_
    rw [headRows, mem_toList, map_eq_some_iff] at hrow
    obtain ⟨oid, -, rfl⟩ := hrow
    exact decide_eq_true (ne_synthetic (by rw [advertisedRefName, if_pos rfl]))
  rw [wireRows, advertisedRows, List.filter_append, hhead, refRows]
  split
  · rename_i hempty
    rw [and_eq_true, decide_eq_true_eq] at hempty
    rw [hempty.2]
    rfl
  · congr 1
    exact List.filter_eq_self.2 fun row hrow => decide_eq_true (ne_synthetic (h.refRow hrow).2.1)

theorem headOid_wireRows (state : AdvertisementState)
    (hnone : state.headOid = none) :
    ((wireRows service advertisement).foldl AdvertisementState.addRow state).headOid =
      headRow service advertisement.head := by
  have hrefs : ∀ row ∈ refRows service (headRow service advertisement.head).isNone advertisement.refs,
      row.2 ≠ text "HEAD" := by
    intro row hrow
    rw [refRows] at hrow
    split at hrow
    · obtain rfl := mem_singleton.1 hrow
      exact syntheticRow_ne_head
    · exact (h.refRow hrow).2.2
  rw [wireRows, List.foldl_append, headOid_foldl hrefs, headRows]
  cases headRow service advertisement.head with
  | none => exact hnone
  | some oid =>
    have hne : (oid, text "HEAD") ≠ syntheticRow :=
      ne_synthetic (by rw [advertisedRefName, if_pos rfl])
    simp [AdvertisementState.addRow, hne]

/-- The branch that HEAD names has the object id of HEAD. -/
theorem head_consistent {head : ServerHead}
    (hhead : advertisement.head = some head)
    (hrow : row ∈ advertisedRows service advertisement) (hname : row.2 = head.ref) :
    head.oid = some row.1 := by
  have hserved := h.headName head hhead
  obtain hrow | hrow := mem_append.1 hrow
  · rw [headRows, mem_toList, map_eq_some_iff] at hrow
    obtain ⟨oid, -, rfl⟩ := hrow
    exact absurd hname.symm hserved.ne_head
  · obtain ⟨ref, href, hrow⟩ := mem_flatMap.1 hrow
    obtain rfl | ⟨peeled, -, rfl⟩ := mem_rowsOfRef hrow
    · exact (h.refs ref href).branch head hhead hname
    · have hcaret := hserved.caret
      rw [← hname] at hcaret
      exact absurd (mem_append_right _ (by decide)) hcaret

end

end AdvertisementOk

-- The whole advertisement

theorem wireRows_ne_nil (service : Service) (advertisement : ServerAdvertisement) :
    ∃ row rows, wireRows service advertisement = row :: rows := by
  rw [wireRows, headRows]
  cases headRow service advertisement.head with
  | some oid => exact ⟨_, _, rfl⟩
  | none =>
    cases hrefs : advertisement.refs with
    | nil => exact ⟨syntheticRow, [], rfl⟩
    | cons ref refs => exact ⟨_, _, rfl⟩

theorem length_le_flatten (h : RowFrames capabilities first rows frames) :
    rows.length ≤ frames.flatten.length := by
  induction h with
  | nil => exact Nat.zero_le _
  | cons hframe _ ih =>
    obtain ⟨-, rfl⟩ := pkt_ok hframe
    have hfour : ∀ n, (lengthDigits n).length = 4 := fun n => rfl
    rw [length_cons, List.flatten_cons, length_append, length_append, hfour]
    omega

/-- All rows, up to the flush. -/
theorem readRows_wireRows (h : AdvertisementOk service advertisement)
    (hframes : RowFrames (capabilitiesOf service advertisement.head) true
      (wireRows service advertisement) frames)
    (hlimit : (capabilitiesOf service advertisement.head).length +
      (advertisedRows service advertisement).length ≤ limit)
    (hfuel : (wireRows service advertisement).length < fuel)
    (hbytes : reader.bytes = frames.flatten ++ flushPkt ++ rest) :
    readRows service limit fuel .initial reader =
      .ok ((wireRows service advertisement).foldl AdvertisementState.addRow
        (.ofCapabilities service advertisement.head)) := by
  have hrows := h.wireRows_ok
  rw [← h.filter_wireRows] at hlimit
  obtain ⟨hne, hcapabilities, hformed⟩ := @capabilitiesOf_ok service _ h.headName
  obtain ⟨row, rows, hwire⟩ := wireRows_ne_nil service advertisement
  rw [hwire] at hframes hlimit hfuel hrows ⊢
  change _ + countedRows (row :: rows) ≤ limit at hlimit
  rw [countedRows_cons] at hlimit
  cases hframes with
  | @cons _ _ _ frame frames hframe hrest =>
    obtain ⟨fuel, rfl⟩ := Nat.exists_eq_succ_of_ne_zero (Nat.ne_of_gt (Nat.zero_lt_of_lt hfuel))
    rw [List.flatten_cons, append_assoc, append_assoc] at hbytes
    obtain ⟨after, hread, hafter⟩ := readPkt_line hframe hbytes
    have hrow := hrows.each row mem_cons_self
    have hadd : addLine service limit .initial
        (Utf8.encode (rowText (capabilitiesOf service advertisement.head) true row.1 row.2)) =
          .ok ((AdvertisementState.ofCapabilities service advertisement.head).addRow row) := by
      rw [addLine_first rfl hrow hne hcapabilities hformed,
        foldlM_addCapability h.headName (by omega), ok_bind]
      refine addRow_ok hrow (hrows.advertised row mem_cons_self) not_mem_nil fun hsynthetic => ?_
      rw [if_neg hsynthetic] at hlimit
      change (capabilitiesOf service advertisement.head).length < limit
      omega
    rw [readRows, hread, ok_bind]
    dsimp only
    rw [hadd, ok_bind, foldl_cons]
    rw [length_cons] at hfuel
    refine readRows_ok hrest hrows.tail (fun other hother => ?_) ?_ ?_ (by omega)
      (hafter.trans (append_assoc _ _ _).symm)
    · rw [refNames_addRow, mem_append, mem_singleton, not_or]
      refine ⟨not_mem_nil, fun heq => ?_⟩
      exact (nodup_cons.1 hrows.nodup).1 (mem_map.2 ⟨other, hother, heq⟩)
    · rw [entries_addRow]
      change (capabilitiesOf service advertisement.head).length + _ + _ ≤ limit
      omega
    · rw [first_addRow]
      rfl

/-- What a client knows of an advertisement. -/
def ServerAdvertisement.read (service : Service) (advertisement : ServerAdvertisement) :
    Advertisement :=
  { refs := (advertisedRows service advertisement).map remoteRef
    capabilities := capabilitiesOf service advertisement.head
    headRef := if service = .uploadPack then advertisement.head.map (·.ref) else none }

theorem parseAdvertisement_ok (h : AdvertisementOk service advertisement)
    (hframes : RowFrames (capabilitiesOf service advertisement.head) true
      (wireRows service advertisement) frames)
    (hlimit : (capabilitiesOf service advertisement.head).length +
      (advertisedRows service advertisement).length ≤ limit)
    (hbytes : reader.bytes = frames.flatten ++ flushPkt ++ rest) :
    parseAdvertisement service limit reader = .ok (advertisement.read service) := by
  have hfuel : (wireRows service advertisement).length < reader.bytes.length + 1 := by
    have := length_le_flatten hframes
    rw [hbytes, length_append, length_append]
    omega
  have hrows := readRows_wireRows h hframes hlimit hfuel hbytes
  obtain ⟨hcapabilities, hheadRef⟩ := told_foldl (wireRows service advertisement)
    (.ofCapabilities service advertisement.head)
  have hrefs := refs_foldl (wireRows service advertisement)
    (.ofCapabilities service advertisement.head)
  have hheadOid := h.headOid_wireRows (.ofCapabilities service advertisement.head) rfl
  rw [h.filter_wireRows] at hrefs
  rw [parseAdvertisement, hrows, ok_bind, hcapabilities, hheadRef, hrefs, hheadOid]
  refine bind_eq_ok.2 ⟨(), reject_eq_ok.2 ?_, rfl⟩
  -- HEAD is the branch that the symref names
  cases service with
  | receivePack => rfl
  | uploadPack =>
    cases hhead : advertisement.head with
    | none => rfl
    | some head =>
      change Option.any _ (Option.map _ (List.find? _ ([] ++ _))) = false
      rw [nil_append]
      cases hfind : ((advertisedRows .uploadPack advertisement).map remoteRef).find?
        (·.name = head.ref) with
      | none => rfl
      | some found =>
        obtain ⟨row, hrow, rfl⟩ := mem_map.1 (List.mem_of_find?_eq_some hfind)
        have hfound := List.find?_some hfind
        have hname : row.2 = head.ref := of_decide_eq_true hfound
        have hoid := h.head_consistent hhead hrow hname
        simp [headRow, hoid, remoteRef]

/-- The header of an advertisement is read back. -/
theorem headerText_service (service : Service) :
    headerText (some (.line (Utf8.encode (text "# service=" ++ service.name ++ [0x0a])))) =
      text "# service=" ++ service.name := by
  have hboth : ∀ service ∈ [Service.uploadPack, Service.receivePack],
      headerText (some (.line (Utf8.encode (text "# service=" ++ service.name ++ [0x0a])))) =
        text "# service=" ++ service.name := by
    decide +kernel
  refine hboth service ?_
  cases service with
  | uploadPack => exact mem_cons_self
  | receivePack => exact mem_cons_of_mem _ mem_cons_self

theorem readAdvertisement_ok {chunks : List (List UInt8)}
    (h : encodeAdvertisement service advertisement = .ok frames)
    (hchunks : chunks.flatten = frames.flatten)
    (hlimit : (capabilitiesOf service advertisement.head).length +
      (advertisedRows service advertisement).length ≤ limit) :
    readAdvertisement service limit chunks = .ok (advertisement.read service) := by
  obtain ⟨hok, header, rows, hheader, rfl, hrows⟩ := encodeAdvertisement_ok h
  have hbytes : (ByteReader.ofChunks chunks).bytes =
      header ++ (flushPkt ++ (rows.flatten ++ flushPkt)) := by
    rw [bytes_ofChunks, hchunks]
    simp
  obtain ⟨afterHeader, hread, hafterHeader⟩ := readPkt_line hheader hbytes
  obtain ⟨afterFlush, hflush, hafterFlush⟩ := readPkt_flush hafterHeader
  have herr : (text "ERR ").isPrefixOf (text "# service=" ++ service.name) = false := by
    cases service with
    | uploadPack => decide
    | receivePack => decide
  have hstart : (text "# service=").isPrefixOf (text "# service=" ++ service.name) = true :=
    isPrefixOf_iff_prefix.2 (prefix_append _ _)
  rw [readAdvertisement, hread, ok_bind]
  dsimp only
  rw [headerText_service, herr, hstart, reject, if_neg (by simp), ok_bind, reject,
    if_neg Bool.false_ne_true, ok_bind, reject, if_neg (by decide), ok_bind, hflush, ok_bind]
  dsimp only
  rw [reject, if_neg (by simp), ok_bind]
  have hrest : afterFlush.bytes = rows.flatten ++ flushPkt ++ [] := by
    rw [hafterFlush, append_nil]
  exact parseAdvertisement_ok hok hrows hlimit hrest

-- What was advertised

def Advertisement.oidOf (read : Advertisement) (name : Text) : Option Text :=
  (read.refs.find? (·.name = name)).map (·.oid)

/-- The refs, their peeled values and the HEAD that an advertisement was made of. -/
def Advertisement.served (read : Advertisement) : ServerAdvertisement :=
  { refs := (read.refs.filter fun ref =>
        ref.name ≠ text "HEAD" && !peeledSuffix.isSuffixOf ref.name).map fun ref =>
      { name := ref.name, oid := ref.oid, peeledOid := read.oidOf (ref.name ++ peeledSuffix) }
    head := read.headRef.map fun ref => { ref, oid := read.oidOf (text "HEAD") } }

/-- What a service tells: a push needs neither HEAD nor peeled values. -/
def ServerAdvertisement.told (service : Service) (advertisement : ServerAdvertisement) :
    ServerAdvertisement :=
  match service with
  | .uploadPack => advertisement
  | .receivePack =>
    { refs := advertisement.refs.map fun ref => { ref with peeledOid := none }
      head := none }

namespace AdvertisementOk

variable {service : Service} {advertisement : ServerAdvertisement}

theorem rows_nodup (h : AdvertisementOk service advertisement) :
    ((advertisedRows service advertisement).map (·.2)).Nodup := by
  rw [← h.filter_wireRows]
  exact h.wireRows_ok.nodup.sublist (List.filter_sublist.map _)

theorem oidOf_row (h : AdvertisementOk service advertisement) {name : Text}
    (hrow : (oid, name) ∈ advertisedRows service advertisement) :
    (advertisement.read service).oidOf name = some oid := by
  have hfind := find?_key hrow fun _ hother =>
    List.inj_on_of_nodup_map h.rows_nodup hother hrow
  rw [Advertisement.oidOf, ServerAdvertisement.read, List.find?_map]
  exact congrArg (fun row => (row.map remoteRef).map (·.oid)) hfind

theorem oidOf_other {name : Text}
    (hrows : ∀ row ∈ advertisedRows service advertisement, row.2 ≠ name) :
    (advertisement.read service).oidOf name = none := by
  have hnone : ((advertisedRows service advertisement).map remoteRef).find? (·.name = name) = none := by
    refine List.find?_eq_none.2 fun found hfound hname => ?_
    obtain ⟨row, hrow, rfl⟩ := mem_map.1 hfound
    exact hrows row hrow (of_decide_eq_true hname)
  rw [Advertisement.oidOf, ServerAdvertisement.read, hnone, Option.map_none]

section

variable (h : AdvertisementOk service advertisement)

include h

/-- The peeled value of a ref, when the service tells it. -/
theorem oidOf_peeled (href : ref ∈ advertisement.refs) :
    (advertisement.read service).oidOf (ref.name ++ peeledSuffix) =
      if service = .uploadPack then ref.peeledOid else none := by
  have hsuffix : (0x5e : UInt16) ∈ peeledSuffix := by decide
  have hnames : (advertisement.refs.map (·.name)).Nodup :=
    h.ordered.imp fun hlt => Refs.ne_of_comparePaths_lt hlt
  -- a row of that name is the peeled row of this very ref
  have hpeeled : ∀ row ∈ advertisedRows service advertisement, row.2 = ref.name ++ peeledSuffix →
      row ∈ peeledRows service ref := by
    intro row hrow hname
    obtain hrow | hrow := mem_append.1 hrow
    · rw [headRows, mem_toList, map_eq_some_iff] at hrow
      obtain ⟨oid, -, rfl⟩ := hrow
      have hcaret : (0x5e : UInt16) ∉ text "HEAD" := by decide
      have hname : text "HEAD" = ref.name ++ peeledSuffix := hname
      rw [hname] at hcaret
      exact absurd (mem_append_right _ hsuffix) hcaret
    · obtain ⟨other, hother, hrow⟩ := mem_flatMap.1 hrow
      obtain rfl | hrow := mem_cons.1 hrow
      · have hcaret := (h.refs other hother).name.caret
        have hname : other.name = ref.name ++ peeledSuffix := hname
        rw [hname] at hcaret
        exact absurd (mem_append_right _ hsuffix) hcaret
      · obtain heq | ⟨peeled, -, heq⟩ := mem_rowsOfRef (mem_cons_of_mem _ hrow)
        · have hcaret := (h.refs other hother).name.caret
          have hname : other.name = ref.name ++ peeledSuffix := by
            rw [← hname, heq]
          rw [hname] at hcaret
          exact absurd (mem_append_right _ hsuffix) hcaret
        · rw [heq] at hname
          have hsame := List.inj_on_of_nodup_map hnames hother href (List.append_cancel_right hname)
          rw [← hsame]
          exact hrow
  cases service with
  | receivePack =>
    refine oidOf_other fun row hrow hname => ?_
    exact absurd (hpeeled row hrow hname) not_mem_nil
  | uploadPack =>
    rw [if_pos rfl]
    cases hoid : ref.peeledOid with
    | none =>
      refine oidOf_other fun row hrow hname => ?_
      have hmem := hpeeled row hrow hname
      rw [peeledRows, hoid] at hmem
      nomatch hmem
    | some peeled =>
      refine h.oidOf_row (mem_append_right _ (mem_flatMap.2 ⟨ref, href, ?_⟩))
      rw [rowsOfRef, peeledRows, hoid]
      exact mem_cons_of_mem _ (mem_singleton.2 rfl)

/-- The rows that are neither HEAD nor peeled. -/
theorem filter_refs :
    ((advertisement.read service).refs.filter fun ref =>
        ref.name ≠ text "HEAD" && !peeledSuffix.isSuffixOf ref.name) =
      advertisement.refs.map fun ref => remoteRef (ref.oid, ref.name) := by
  have hhead : ((headRows service advertisement.head).map remoteRef).filter (fun ref =>
      ref.name ≠ text "HEAD" && !peeledSuffix.isSuffixOf ref.name) = [] := by
    refine List.filter_eq_nil_iff.2 fun ref href => ?_
    obtain ⟨row, hrow, rfl⟩ := mem_map.1 href
    rw [headRows, mem_toList, map_eq_some_iff] at hrow
    obtain ⟨oid, -, rfl⟩ := hrow
    simp [remoteRef]
  have hrefs : ∀ refs : List ServerAdvertisedRef, (∀ ref ∈ refs, ServedName ref.name) →
      ((refs.flatMap (rowsOfRef service)).map remoteRef).filter (fun ref =>
        ref.name ≠ text "HEAD" && !peeledSuffix.isSuffixOf ref.name) =
      refs.map fun ref => remoteRef (ref.oid, ref.name) := by
    intro refs hserved
    induction refs with
    | nil => rfl
    | cons ref refs ih =>
      have hname := hserved ref mem_cons_self
      have hpeeled : ((peeledRows service ref).map remoteRef).filter (fun ref =>
          ref.name ≠ text "HEAD" && !peeledSuffix.isSuffixOf ref.name) = [] := by
        refine List.filter_eq_nil_iff.2 fun other hother => ?_
        obtain ⟨row, hrow, rfl⟩ := mem_map.1 hother
        obtain ⟨peeled, -, rfl⟩ : ∃ peeled ∈ ref.peeledOid, row = (peeled, ref.name ++ peeledSuffix) := by
          cases service with
          | uploadPack =>
            rw [peeledRows, mem_toList, map_eq_some_iff] at hrow
            obtain ⟨peeled, hpeeled, rfl⟩ := hrow
            exact ⟨peeled, hpeeled, rfl⟩
          | receivePack => cases hrow
        have hsuffix : peeledSuffix.isSuffixOf (ref.name ++ peeledSuffix) = true :=
          List.isSuffixOf_iff_suffix.2 (suffix_append _ _)
        simp [remoteRef, hsuffix]
      have hkept : (remoteRef (ref.oid, ref.name)).name ≠ text "HEAD" ∧
          peeledSuffix.isSuffixOf (remoteRef (ref.oid, ref.name)).name = false :=
        ⟨hname.ne_head, hname.not_peeled⟩
      rw [flatMap_cons, map_append, List.filter_append,
        ih fun other hother => hserved other (mem_cons_of_mem _ hother), rowsOfRef, List.map_cons,
        List.filter_cons_of_pos (by rw [hkept.2, decide_eq_true hkept.1]; rfl), hpeeled]
      rfl
  rw [ServerAdvertisement.read, advertisedRows]
  dsimp only
  rw [map_append, List.filter_append, hhead, nil_append]
  exact hrefs _ fun ref href => (h.refs ref href).name

/-- The object id of HEAD. -/
theorem oidOf_head :
    (advertisement.read service).oidOf (text "HEAD") = headRow service advertisement.head := by
  cases hrow : headRow service advertisement.head with
  | some oid =>
    refine h.oidOf_row (List.mem_append_left _ ?_)
    rw [headRows, hrow]
    exact mem_singleton.2 rfl
  | none =>
    refine oidOf_other fun row hmem => ?_
    rw [advertisedRows, headRows, hrow] at hmem
    exact (h.refRow hmem).2.2

theorem served_read :
    (advertisement.read service).served = advertisement.told service := by
  have hrefs : ((advertisement.read service).served).refs = (advertisement.told service).refs := by
    rw [Advertisement.served, h.filter_refs, List.map_map]
    cases service with
    | uploadPack =>
      refine (List.map_congr_left fun ref href => ?_).trans (List.map_id _)
      change ServerAdvertisedRef.mk ref.name ref.oid
        ((advertisement.read .uploadPack).oidOf (ref.name ++ peeledSuffix)) = ref
      rw [h.oidOf_peeled href, if_pos rfl]
    | receivePack =>
      refine List.map_congr_left fun ref href => ?_
      change ServerAdvertisedRef.mk ref.name ref.oid
        ((advertisement.read .receivePack).oidOf (ref.name ++ peeledSuffix)) = _
      rw [h.oidOf_peeled href, if_neg (by decide)]
  have hhead : ((advertisement.read service).served).head = (advertisement.told service).head := by
    rw [Advertisement.served, h.oidOf_head]
    cases service with
    | receivePack => rfl
    | uploadPack =>
      change (advertisement.head.map (·.ref)).map _ = advertisement.head
      cases advertisement.head with
      | none => rfl
      | some head => rfl
  exact ServerAdvertisement.ext hrefs hhead

end

end AdvertisementOk

/-- An advertisement that was written is read back, however the bytes are divided: the
    capabilities are the ones that were sent, and the refs, their peeled values and HEAD are what
    the service tells. -/
theorem advertisement_roundtrip {service : Service} {limit : Nat}
    {advertisement : ServerAdvertisement} {frames chunks : List (List UInt8)}
    (h : encodeAdvertisement service advertisement = .ok frames)
    (hchunks : chunks.flatten = frames.flatten)
    (hlimit : (capabilitiesOf service advertisement.head).length +
      (advertisedRows service advertisement).length ≤ limit) :
    ∃ read, readAdvertisement service limit chunks = .ok read ∧
      read.served = advertisement.told service ∧
      read.capabilities = capabilitiesOf service advertisement.head :=
  ⟨advertisement.read service, readAdvertisement_ok h hchunks hlimit,
    (encodeAdvertisement_ok h).1.served_read, rfl⟩

/-- A tag with its commit, on the branch that HEAD names. -/
def taggedRelease : ServerAdvertisement :=
  { refs :=
      [{ name := text "refs/heads/main", oid := List.replicate 40 0x61, peeledOid := none },
        { name := text "refs/tags/v1", oid := List.replicate 40 0x62
          peeledOid := some (List.replicate 40 0x61) }]
    head := some { ref := text "refs/heads/main", oid := some (List.replicate 40 0x61) } }

theorem taggedRelease_written (service : Service) :
    ∃ frames, encodeAdvertisement service taggedRelease = .ok frames := by
  have hboth : (encodeAdvertisement .uploadPack taggedRelease).isOk = true ∧
      (encodeAdvertisement .receivePack taggedRelease).isOk = true := by
    decide +kernel
  have hok : (encodeAdvertisement service taggedRelease).isOk = true := by
    cases service with
    | uploadPack => exact hboth.1
    | receivePack => exact hboth.2
  cases h : encodeAdvertisement service taggedRelease with
  | error e =>
    rw [h] at hok
    cases hok
  | ok frames => exact ⟨frames, rfl⟩

/-- Byte by byte. -/
theorem taggedRelease_read :
    ∃ frames, encodeAdvertisement .uploadPack taggedRelease = .ok frames ∧
      ∃ read, readAdvertisement .uploadPack maxProtocolNegotiationEntries
          (frames.flatten.map fun byte => [byte]) = .ok read ∧
        read.served = taggedRelease.told .uploadPack ∧
        read.capabilities = capabilitiesOf .uploadPack taggedRelease.head := by
  obtain ⟨frames, h⟩ := taggedRelease_written .uploadPack
  refine ⟨frames, h, advertisement_roundtrip h ?_ ?_⟩
  · rw [List.flatten_eq_flatMap, List.flatMap_map]
    simp
  · decide

/-- A push is told neither the commit of a tag nor HEAD. -/
theorem push_reads_no_peeled_value :
    ∃ frames read, encodeAdvertisement .receivePack taggedRelease = .ok frames ∧
      readAdvertisement .receivePack maxProtocolNegotiationEntries [frames.flatten] = .ok read ∧
      read.served ≠ taggedRelease := by
  obtain ⟨frames, h⟩ := taggedRelease_written .receivePack
  refine ⟨frames, _, h, readAdvertisement_ok h (append_nil _) (by decide), ?_⟩
  rw [(encodeAdvertisement_ok h).1.served_read]
  intro hsame
  exact absurd (congrArg ServerAdvertisement.head hsame) (by decide)

end Kompjutr.Protocol
