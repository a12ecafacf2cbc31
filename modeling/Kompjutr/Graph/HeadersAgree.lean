/-
  Kompjutr.Graph.HeadersAgree

  The header scanner beside the header list of the parsers.

  Both read the lines up to the first empty one, the scanner as bytes and the
  parser as decoded text.  On lines whose keys the scanner can read it takes in
  the structural headers the parser has listed (`scan_lines`).
-/
import Kompjutr.Graph.HeadersSound
import Kompjutr.Objects.HeaderLines

namespace Kompjutr.Graph

open Objects Fuel StreamingHeaders Utf8

variable {lines : List (List UInt8)} {kind' : HeaderKind}

variable {k v line : List UInt8} {kind : HeaderKind} {s s' : StreamingHeaders} {hs : List Header}
  {value : Text}

-- The shapes of a line

/-- The key of a line, where the scanner looks for it: in the first bytes of the line. -/
def keyPart (line : List UInt8) : Option (List UInt8) :=
  let start := line.take headerLinePrefixBytes
  let space := start.findIdx (· = 0x20)
  if space = start.length ∨ space = 0 then none else some (start.take space)

theorem findIdx_no_space {l : List UInt8} (h : 0x20 ∉ l) : l.findIdx (· = 0x20) = l.length := by
  apply List.findIdx_eq_length_of_false
  intro b hb
  exact decide_eq_false fun hspace => h (hspace ▸ hb)

theorem findIdx_space (hk : 0x20 ∉ k) : (k ++ 0x20 :: v).findIdx (· = 0x20) = k.length := by
  rw [List.findIdx_append, findIdx_no_space hk, List.findIdx_cons]
  simp

theorem keyPart_space (v : List UInt8) : keyPart (0x20 :: v) = none := by
  simp [keyPart, headerLinePrefixBytes, List.findIdx_cons]

theorem keyPart_no_space (h : 0x20 ∉ line.take headerLinePrefixBytes) : keyPart line = none := by
  unfold keyPart
  rw [if_pos (.inl (findIdx_no_space h))]

theorem take_cut (hlen : k.length < headerLinePrefixBytes) :
    (k ++ 0x20 :: v).take headerLinePrefixBytes =
      k ++ 0x20 :: v.take (headerLinePrefixBytes - k.length - 1) := by
  rw [List.take_append, List.take_of_length_le (by omega),
    show headerLinePrefixBytes - k.length = headerLinePrefixBytes - k.length - 1 + 1 by omega,
    List.take_succ_cons]
  rfl

theorem keyPart_cut (v : List UInt8) (hne : k ≠ []) (hk : 0x20 ∉ k) :
    keyPart (k ++ 0x20 :: v) = if k.length < headerLinePrefixBytes then some k else none := by
  split_ifs with hlen
  · unfold keyPart
    simp only [take_cut hlen, findIdx_space hk]
    rw [if_neg (by simp [hne]), List.take_left]
  · apply keyPart_no_space
    rw [List.take_append_of_le_length (by omega)]
    exact fun h => hk (List.mem_of_mem_take h)

-- The scanner on a line

theorem readLine_of_keyPart_none (kind : HeaderKind) (h : keyPart line = none) :
    readLine kind (line.take headerLinePrefixBytes) line.length =
      .ok (if (line.take headerLinePrefixBytes).head? = some 0x20 then .continuation else .other) := by
  unfold keyPart at h
  unfold readLine
  dsimp only at h ⊢
  split_ifs at h with hspace
  split_ifs
  · rfl
  · rfl

theorem readLine_of_keyPart_some (kind : HeaderKind) (h : keyPart line = some k) :
    readLine kind (line.take headerLinePrefixBytes) line.length = (do
      let key ← readAscii kind k
      if !isStructural kind key then return .other
      if line.length > (line.take headerLinePrefixBytes).length then
        throw (corrupt s!"{kind.name} structural header is too long")
      let value ← readAscii kind ((line.take headerLinePrefixBytes).drop (k.length + 1))
      return .structural key value) := by
  unfold keyPart at h
  unfold readLine
  dsimp only at h ⊢
  split_ifs at h with hspace
  cases h
  rw [not_or] at hspace
  have hhead : (line.take headerLinePrefixBytes).head? ≠ some 0x20 := by
    intro hhead
    cases hstart : line.take headerLinePrefixBytes with
    | nil => simp [hstart] at hhead
    | cons b rest =>
      rw [hstart] at hhead hspace
      obtain rfl : b = 0x20 := by simpa using hhead
      exact hspace.2 (by simp [List.findIdx_cons])
  have hle : (line.take headerLinePrefixBytes).findIdx (· = 0x20) ≤
      (line.take headerLinePrefixBytes).length := List.findIdx_le_length
  rw [if_neg hhead, if_neg (not_or.2 hspace), List.length_take_of_le hle]

-- What a scan that succeeds has seen

/-- A field that a header sets, as a count. -/
def filled {α : Type} (field : Option α) : Nat := if field.isSome then 1 else 0

/-- How a line counts for a key. -/
def hasKey (key : String) (line : List UInt8) : Bool := keyPart line = some (ascii key)

theorem text_inj {key : String} (h : k.map UInt8.toUInt16 = text key) : k = ascii key := by
  refine List.map_injective_iff.2 (fun a b hab => ?_) h
  rw [← UInt8.toNat_inj, ← UInt8.toNat_toUInt16, hab, UInt8.toNat_toUInt16]

theorem hasKey_eq (h : keyPart line = some k) (key : String) :
    hasKey key line = decide (k.map UInt8.toUInt16 = text key) := by
  unfold hasKey
  rw [h, decide_eq_decide, Option.some.injEq]
  exact ⟨fun heq => heq ▸ rfl, text_inj⟩

/-- A key that is read: the line is no structural one, or its value is read too. -/
theorem readLine_cases {found : HeaderLine} (hkey : keyPart line = some k)
    (h : readLine kind (line.take headerLinePrefixBytes) line.length = .ok found) :
    k.all isPrintable = true ∧
      ((isStructural kind (k.map UInt8.toUInt16) = false ∧ found = .other) ∨
        (isStructural kind (k.map UInt8.toUInt16) = true ∧
          ∃ value, found = .structural (k.map UInt8.toUInt16) value)) := by
  rw [readLine_of_keyPart_some kind hkey] at h
  rcases readAscii_eq kind k with ⟨hprint, hread⟩ | ⟨-, e, hread⟩
  · refine ⟨hprint, ?_⟩
    rw [hread, ok_bind] at h
    cases hstructural : isStructural kind (k.map UInt8.toUInt16) with
    | false =>
      rw [hstructural] at h
      exact .inl ⟨rfl, (Except.ok.inj h).symm⟩
    | true =>
      rw [hstructural, if_neg (by simp)] at h
      split at h
      · cases h
      · obtain ⟨value, -, h⟩ := bind_eq_ok.1 h
        exact .inr ⟨rfl, value, (Except.ok.inj h).symm⟩
  · rw [hread] at h
    cases h

/-- A line the scanner takes has a key it can read, and fills at most the one field the key
    names. -/
theorem scanLine_seen (h : s.scanLine line = .ok s') :
    (∀ key ∈ keyPart line, key.all isPrintable = true) ∧
    (s.kind = .commit → filled s'.treeOid = filled s.treeOid + (hasKey "tree" line).toNat) ∧
    (s.kind = .tag →
      filled s'.tagOid = filled s.tagOid + (hasKey "object" line).toNat ∧
      filled s'.tagType = filled s.tagType + (hasKey "type" line).toNat) := by
  cases hkey : keyPart line with
  | none =>
    have hother : ∀ key, hasKey key line = false := fun key => by simp [hasKey, hkey]
    rcases scanLine_cases h with ⟨-, -, -, rfl⟩ | ⟨key, value, -, hread, -, -⟩
    · simp [hother, ignore, atLine]
    · rw [readLine_of_keyPart_none s.kind hkey] at hread
      split_ifs at hread <;> cases hread
  | some k =>
    simp only [hasKey_eq hkey, Option.mem_some_iff, forall_eq']
    rcases scanLine_cases h with ⟨found, hread, hplain, rfl⟩ | ⟨key, value, s1, hread, habsorb, rfl⟩
    · obtain ⟨hprint, ⟨hstructural, -⟩ | ⟨-, value, rfl⟩⟩ := readLine_cases hkey hread
      · refine ⟨hprint, fun hkind => ?_, fun hkind => ?_⟩ <;>
          simp_all [isStructural, ignore, atLine]
      · exact absurd rfl (hplain _ _)
    · obtain ⟨hprint, ⟨-, hfound⟩ | ⟨hstructural, value1, hfound⟩⟩ := readLine_cases hkey hread
      · cases hfound
      obtain ⟨rfl, -⟩ := HeaderLine.structural.inj hfound
      refine ⟨hprint, fun hkind => ?_, fun hkind => ?_⟩
      all_goals
        rw [hkind] at hstructural
        simp only [isStructural, Bool.or_eq_true, decide_eq_true_eq] at hstructural
      · rcases absorb_cases habsorb with ⟨hk, hnone, -, rfl⟩ | ⟨hk, -, rfl⟩ | ⟨hk, -, -, -⟩ |
          ⟨hk1, hk2, -, -, -⟩
        · have hnone' : s.treeOid = none := hnone
          simp [hk, filled, atLine, hnone']
        · rw [hk]
          rfl
        · rw [hk] at hstructural
          exact absurd hstructural (by decide)
        · exact absurd hstructural (by simp [hk1, hk2])
      · rcases absorb_cases habsorb with ⟨hk, -, -, -⟩ | ⟨hk, -, -⟩ | ⟨hk, hnone, -, rfl⟩ |
          ⟨-, -, hk, hnone, type, -, rfl⟩
        · rw [hk] at hstructural
          exact absurd hstructural (by decide)
        · rw [hk] at hstructural
          exact absurd hstructural (by decide)
        · have hnone' : s.tagOid = none := hnone
          rw [hk]
          exact ⟨by simp [filled, atLine, hnone'], rfl⟩
        · have hnone' : s.tagType = none := hnone
          rw [hstructural.resolve_left hk]
          exact ⟨rfl, by simp [filled, atLine, hnone']⟩

theorem foldlM_scanLine_seen (h : lines.foldlM scanLine s = .ok s') :
    (∀ line ∈ lines, ∀ key ∈ keyPart line, key.all isPrintable = true) ∧
    (s.kind = .commit → filled s'.treeOid = filled s.treeOid + lines.countP (hasKey "tree")) ∧
    (s.kind = .tag →
      filled s'.tagOid = filled s.tagOid + lines.countP (hasKey "object") ∧
      filled s'.tagType = filled s.tagType + lines.countP (hasKey "type")) := by
  induction lines generalizing s with
  | nil =>
    cases h
    simp
  | cons line lines ih =>
    rw [List.foldlM_cons] at h
    obtain ⟨s1, hline, hrest⟩ := bind_eq_ok.1 h
    obtain ⟨-, -, hkind, -⟩ := scanLine_frame hline
    obtain ⟨hprint, htree, htag⟩ := scanLine_seen hline
    obtain ⟨hprint', htree', htag'⟩ := ih hrest
    have hcount : ∀ key, (line :: lines).countP (hasKey key) =
        (hasKey key line).toNat + lines.countP (hasKey key) := by
      intro key
      rw [List.countP_cons, Nat.add_comm]
      cases hasKey key line <;> rfl
    simp only [hcount]
    refine ⟨List.forall_mem_cons.2 ⟨hprint, hprint'⟩, fun h => ?_, fun h => ?_⟩
    · have := htree h
      have := htree' (hkind.trans h)
      omega
    · have := htag h
      have := htag' (hkind.trans h)
      omega

-- The parser on a line

/-- What a line does to the headers. -/
theorem addLine_decode (hs : List Header) (line : List UInt8) :
    (∃ v, line = 0x20 :: v ∧ addLine hs (decode line) = hs.modifyHead fun last =>
      { last with continuation := last.continuation ++ [decode v] }) ∨
    (0x20 ∉ line ∧ addLine hs (decode line) = hs) ∨
    (∃ k v, line = k ++ 0x20 :: v ∧ k ≠ [] ∧ 0x20 ∉ k ∧
      addLine hs (decode line) = ⟨decode k, decode v, []⟩ :: hs) := by
  have hcode : (0x20 : UInt8).toUInt16 = 0x20 := rfl
  rcases line_shape 0x20 line with ⟨v, rfl⟩ | hno | ⟨k, v, rfl, hne, hk⟩
  · refine .inl ⟨v, rfl, ?_⟩
    rw [show (0x20 :: v : List UInt8) = [] ++ 0x20 :: v from rfl, decode_cut [] v (by decide), hcode]
    exact addLine_space _ _
  · exact .inr (.inl ⟨hno, addLine_no_space hs fun h => hno (mem_of_mem_decode (by decide) h)⟩)
  · refine .inr (.inr ⟨k, v, rfl, hne, hk, ?_⟩)
    rw [decode_cut k v (by decide), hcode]
    exact addLine_cut _ hs (fun h => hne (decode_eq_nil.1 h))
      fun h => hk (mem_of_mem_decode (by decide) h)

-- The lines the parser reads

/-- The part of the text `splitHeaders` reads headers from. -/
def headText (t : Text) : Text :=
  match indexOf [0x0a, 0x0a] t with
  | none => t
  | some blank => t.take blank

theorem headText_cons {u : UInt16} {t : Text} (h : [0x0a, 0x0a].isPrefixOf (u :: t) = false) :
    headText (u :: t) = u :: headText t := by
  unfold headText
  rw [indexOf, h]
  cases indexOf [0x0a, 0x0a] t <;> rfl

/-- The lines of the head: the first line, and what follows it up to an empty line.  An empty line
    at the very end of the text is kept. -/
theorem splitOn_headText (t : Text) :
    ∃ line rest tail, t.splitOn 0x0a = line :: rest ∧ (tail = [] ∨ tail = [[]]) ∧
      (headText t).splitOn 0x0a = line :: (rest.takeWhile (· ≠ []) ++ tail) := by
  induction t with
  | nil => exact ⟨[], [], [], rfl, .inl rfl, rfl⟩
  | cons u t ih =>
    obtain ⟨line, rest, tail, hsplit, htail, hhead⟩ := ih
    by_cases hu : u = 0x0a
    · subst hu
      cases t with
      | nil => exact ⟨[], [[]], [[]], rfl, .inr rfl, rfl⟩
      | cons u' t' =>
        by_cases hu' : u' = 0x0a
        · -- the empty line ends the head
          subst hu'
          have hindex : indexOf [0x0a, 0x0a] (0x0a :: 0x0a :: t') = some 0 := by
            simp [indexOf, List.isPrefixOf]
          refine ⟨[], [] :: t'.splitOn 0x0a, [], ?_, .inl rfl, ?_⟩
          · rw [splitOn_cons_self, splitOn_cons_self]
          · rw [headText, hindex]
            rfl
        · have hblank : [0x0a, 0x0a].isPrefixOf (0x0a :: u' :: t') = false := by
            simp [List.isPrefixOf, Ne.symm hu']
          have hline : line ≠ [] := by
            rw [splitOn_cons_of_ne hu'] at hsplit
            rintro rfl
            cases hs : t'.splitOn 0x0a with
            | nil => exact List.splitOn_ne_nil _ _ hs
            | cons a as => simp [hs] at hsplit
          refine ⟨[], line :: rest, tail, ?_, htail, ?_⟩
          · rw [splitOn_cons_self, hsplit]
          · rw [headText_cons hblank, splitOn_cons_self, hhead,
              List.takeWhile_cons_of_pos (by simpa using hline)]
            rfl
    · have hblank : [0x0a, 0x0a].isPrefixOf (u :: t) = false := by
        simp [List.isPrefixOf, Ne.symm hu]
      refine ⟨u :: line, rest, tail, ?_, htail, ?_⟩
      · rw [splitOn_cons_of_ne hu, hsplit]
        rfl
      · rw [headText_cons hblank, splitOn_cons_of_ne hu, hhead]
        rfl

/-- The bytes `TextDecoder` decodes. -/
def withoutMark (data : List UInt8) : List UInt8 :=
  if byteOrderMark.isPrefixOf data then data.drop 3 else data

/-- The lines the parser takes headers from. -/
def parserLines (data : List UInt8) : List (List UInt8) :=
  match (withoutMark data).splitOn 0x0a with
  | [] => []
  | line :: rest => line :: rest.takeWhile (· ≠ [])

/-- The headers of an object, the newest first. -/
def parserHeaders (data : List UInt8) : List Header :=
  ((parserLines data).map decode).foldl addLine []

theorem splitHeaders_textDecode (data : List UInt8) :
    (splitHeaders (textDecode data)).headers =
      (parserHeaders data).reverse.map fun h => (h.key, h.full) := by
  have hhead : (splitHeaders (textDecode data)).headers =
      (((headText (textDecode data)).splitOn 0x0a).foldl addLine []).reverse.map
        fun h => (h.key, h.full) := by
    unfold splitHeaders headText
    cases indexOf [0x0a, 0x0a] (textDecode data) <;> rfl
  obtain ⟨line, rest, tail, hsplit, htail, hlines⟩ := splitOn_headText (textDecode data)
  have hbytes : (textDecode data).splitOn 0x0a = ((withoutMark data).splitOn 0x0a).map decode :=
    splitOn_decode (show (0x0a : UInt8) < 0x80 by decide) (withoutMark data)
  have hend : ∀ hs, (tail.foldl addLine hs) = hs := by
    intro hs
    rcases htail with rfl | rfl
    · rfl
    · exact addLine_no_space hs (by simp)
  rw [hhead, hlines, List.foldl_cons, List.foldl_append, hend, ← List.foldl_cons]
  unfold parserHeaders parserLines
  cases hraw : (withoutMark data).splitOn 0x0a with
  | nil => exact absurd hraw (List.splitOn_ne_nil _ _)
  | cons raw raws =>
    rw [hraw, List.map_cons, hsplit] at hbytes
    obtain ⟨rfl, rfl⟩ := List.cons.inj hbytes
    have hmap : (raws.map decode).takeWhile (· ≠ []) = (raws.takeWhile (· ≠ [])).map decode := by
      rw [List.takeWhile_map]
      congr 2
      funext l
      simp [decode_eq_nil]
    rw [hmap]
    rfl

-- Structural headers

/-- The structural headers in the order they stand, without their continuations. -/
def structural (kind : HeaderKind) (hs : List Header) : List (Text × Text) :=
  (hs.reverse.filter fun h => isStructural kind h.key).map fun h => (h.key, h.value)

/-- No structural header is continued. -/
def Plain (kind : HeaderKind) (hs : List Header) : Prop :=
  ∀ h ∈ hs, isStructural kind h.key = true → h.continuation = []

theorem structural_cons (kind : HeaderKind) (h : Header) (hs : List Header) :
    structural kind (h :: hs) =
      structural kind hs ++ if isStructural kind h.key then [(h.key, h.value)] else [] := by
  unfold structural
  rw [List.reverse_cons, List.filter_append, List.map_append]
  congr 1
  cases hkey : isStructural kind h.key <;> simp [hkey]

theorem structural_modifyHead (kind : HeaderKind) (hs : List Header) (more : List Text) :
    structural kind (hs.modifyHead fun last =>
      { last with continuation := last.continuation ++ more }) = structural kind hs := by
  cases hs with
  | nil => rfl
  | cons last older => simp [structural_cons]

theorem structural_addLine (kind : HeaderKind) (hs : List Header) (line : List UInt8) :
    structural kind hs <+: structural kind (addLine hs (decode line)) := by
  rcases addLine_decode hs line with ⟨v, -, h⟩ | ⟨-, h⟩ | ⟨k, v, -, -, -, h⟩
  · have hsame : structural kind (addLine hs (decode line)) = structural kind hs := by
      rw [h, structural_modifyHead]
    exact hsame.symm ▸ List.prefix_rfl
  · exact h.symm ▸ List.prefix_rfl
  · rw [h, structural_cons]
    exact List.prefix_append _ _

theorem structural_foldl (kind : HeaderKind) (lines : List (List UInt8)) (hs : List Header) :
    structural kind hs <+: structural kind ((lines.map decode).foldl addLine hs) := by
  induction lines generalizing hs with
  | nil => exact List.prefix_rfl
  | cons line lines ih => exact (structural_addLine kind hs line).trans (ih _)

theorem Plain.of_addLine (h : Plain kind (addLine hs (decode line))) : Plain kind hs := by
  rcases addLine_decode hs line with ⟨v, -, heq⟩ | ⟨-, heq⟩ | ⟨k, v, -, -, -, heq⟩
  · rw [heq] at h
    cases hs with
    | nil => exact h
    | cons last older =>
      -- a continued header is not structural, so the head needs nothing
      intro g hg hkey
      rcases List.mem_cons.1 hg with rfl | hg
      · have hcont := h _ List.mem_cons_self hkey
        exact absurd hcont (by simp)
      · exact h g (List.mem_cons_of_mem _ hg) hkey
  · rwa [heq] at h
  · rw [heq] at h
    exact fun g hg => h g (List.mem_cons_of_mem _ hg)

theorem Plain.of_foldl (h : Plain kind ((lines.map decode).foldl addLine hs)) : Plain kind hs := by
  induction lines generalizing hs with
  | nil => exact h
  | cons line lines ih => exact Plain.of_addLine (ih h)

/-- Where no structural header is continued, the values are those the parser reads. -/
theorem structural_eq_filter (h : Plain kind hs) : structural kind hs =
      (hs.reverse.map fun h => (h.key, h.full)).filter fun header => isStructural kind header.1 := by
  rw [List.filter_map]
  refine List.map_congr_left fun g hg => ?_
  obtain ⟨hmem, hkey⟩ := List.mem_filter.1 hg
  rw [Header.full, h g (List.mem_reverse.1 hmem) hkey]
  simp

-- The simulation

def absorbHeader (s : StreamingHeaders) (header : Text × Text) :
    Except GitError StreamingHeaders :=
  s.absorb header.1 header.2

/-- A text the scanner can read as a value of a structural header. -/
def Readable (value : Text) : Prop := value.length ≤ 40 ∧ ∀ u ∈ value, 0x20 ≤ u ∧ u ≤ 0x7e

theorem isOid_readable (h : isOid value = true) : Readable value := by
  simp only [isOid, isDigit, Bool.and_eq_true, decide_eq_true_eq, List.all_eq_true,
    Bool.or_eq_true] at h
  refine ⟨by omega, fun u hu => ?_⟩
  have := h.2 u hu
  simp only [UInt16.le_iff_toNat_le, UInt16.reduceToNat] at this ⊢
  omega

theorem ofText_readable {type : ObjectType} (h : ObjectType.ofText value = some type) :
    Readable value := by
  have hall : ∀ word : String, (text word).length ≤ 40 →
      (text word).all (fun u => decide (0x20 ≤ u ∧ u ≤ 0x7e)) = true → Readable (text word) :=
    fun _ hlength hunits =>
      ⟨hlength, fun u hu => of_decide_eq_true (List.all_eq_true.1 hunits u hu)⟩
  unfold ObjectType.ofText at h
  split_ifs at h with h1 h2 h3 h4
  · rw [h1]; exact hall _ (by decide) (by decide)
  · rw [h2]; exact hall _ (by decide) (by decide)
  · rw [h3]; exact hall _ (by decide) (by decide)
  · rw [h4]; exact hall _ (by decide) (by decide)

theorem absorb_readable {key : Text} (h : s.absorb key value = .ok s') : Readable value := by
  rcases absorb_cases h with ⟨-, -, hoid, -⟩ | ⟨-, hoid, -⟩ | ⟨-, -, hoid, -⟩ |
    ⟨-, -, -, -, type, htype, -⟩
  · exact isOid_readable hoid
  · exact isOid_readable hoid
  · exact isOid_readable hoid
  · exact ofText_readable htype

/-- Readable text comes from the same printable bytes. -/
theorem printable_of_readable (h : Readable (decode v)) :
    v.length ≤ 40 ∧ v.all isPrintable = true ∧ decode v = v.map UInt8.toUInt16 := by
  have hascii : ∀ b ∈ v, b < 0x80 := by
    intro b hb
    by_contra hge
    obtain ⟨u, hu, hle⟩ := exists_mem_decodeFrom start_ok (.inr ⟨b, hb, hge⟩)
    have := (h.2 u hu).2
    simp only [UInt16.le_iff_toNat_le, UInt16.reduceToNat] at this
    omega
  have hdecode := decode_ascii hascii
  refine ⟨?_, ?_, hdecode⟩
  · simpa [hdecode] using h.1
  · rw [List.all_eq_true]
    intro b hb
    have := h.2 b.toUInt16 (by rw [hdecode]; exact List.mem_map_of_mem hb)
    simp only [UInt16.le_iff_toNat_le, UInt16.reduceToNat, UInt8.toNat_toUInt16] at this
    simp only [isPrintable, UInt8.le_iff_toNat_le, UInt8.reduceToNat, Bool.and_eq_true,
      decide_eq_true_eq]
    exact this

theorem ignore_absorb (s : StreamingHeaders) (line : List UInt8) (key value : Text) :
    ignore <$> absorb { s.atLine line with previousStructural := true } key value =
      s.ignore.absorb key value := by
  obtain ⟨kind, parentStart, parentLimit, start, lineLength, header, previous, received, treeOid,
    parentCount, parentOids, tagOid, tagType⟩ := s
  unfold absorb
  by_cases htree : key = text "tree"
  · simp only [if_pos htree, addTree]
    cases treeOid <;> cases isOid value <;> rfl
  by_cases hparent : key = text "parent"
  · simp only [if_neg htree, if_pos hparent, addParent]
    cases isOid value <;> rfl
  by_cases hobject : key = text "object"
  · simp only [if_neg htree, if_neg hparent, if_pos hobject, addObject]
    cases tagOid <;> cases isOid value <;> rfl
  · simp only [if_neg htree, if_neg hparent, if_neg hobject, addType]
    cases tagType <;> cases ObjectType.ofText value <;> rfl

/-- A structural key is one of the known words. -/
theorem structural_key {kind : HeaderKind} {k : List UInt8}
    (h : isStructural kind (decode k) = true) :
    decode k = k.map UInt8.toUInt16 ∧ k.length < 20 := by
  have hword : ∃ word : String, word ∈ ["tree", "parent", "object", "type"] ∧
      decode k = text word := by
    cases kind <;> simp only [isStructural, Bool.or_eq_true, decide_eq_true_eq] at h
    · exact h.elim (fun h => ⟨_, by simp, h⟩) fun h => ⟨_, by simp, h⟩
    · exact h.elim (fun h => ⟨_, by simp, h⟩) fun h => ⟨_, by simp, h⟩
  obtain ⟨word, hword, hkey⟩ := hword
  have hall : ∀ word ∈ ["tree", "parent", "object", "type"],
      (∀ b ∈ ascii word, b < 0x80) ∧ (ascii word).length < 20 := by decide +kernel
  obtain rfl := eq_of_decode_ascii (hall word hword).1 hkey
  exact ⟨hkey, (hall word hword).2⟩

/-- A line with a key that is no structural one. -/
theorem readLine_other (hkind : kind' = kind) (hne : k ≠ []) (hk : 0x20 ∉ k)
    (hkey : ∀ key ∈ keyPart (k ++ 0x20 :: v), key.all isPrintable = true)
    (h : isStructural kind (decode k) = false) :
    readLine kind' ((k ++ 0x20 :: v).take headerLinePrefixBytes) (k ++ 0x20 :: v).length =
      .ok .other := by
  subst hkind
  by_cases hlen : k.length < headerLinePrefixBytes
  · have hpart : keyPart (k ++ 0x20 :: v) = some k := by rw [keyPart_cut v hne hk, if_pos hlen]
    have hprint := hkey k hpart
    have hread : readAscii kind' k = .ok (k.map UInt8.toUInt16) := if_pos hprint
    have hdecode : decode k = k.map UInt8.toUInt16 := by
      apply decode_ascii
      intro b hb
      have := List.all_eq_true.1 hprint b hb
      simp only [isPrintable, UInt8.le_iff_toNat_le, UInt8.reduceToNat, Bool.and_eq_true,
        decide_eq_true_eq] at this
      simp only [UInt8.lt_iff_toNat_lt, UInt8.reduceToNat]
      omega
    rw [readLine_of_keyPart_some kind' hpart, hread, ok_bind, ← hdecode, h]
    rfl
  · -- the key is longer than what the scanner keeps
    have hpart : keyPart (k ++ 0x20 :: v) = none := by rw [keyPart_cut v hne hk, if_neg hlen]
    rw [readLine_of_keyPart_none kind' hpart, List.take_append_of_le_length (by omega), if_neg]
    exact fun hhead => hk (List.mem_of_mem_take (List.mem_of_mem_head? hhead))

/-- A line with a structural key and a readable value. -/
theorem readLine_structural (hkind : kind' = kind)
    (hne : k ≠ []) (hk : 0x20 ∉ k) (h : isStructural kind (decode k) = true)
    (hkey : ∀ key ∈ keyPart (k ++ 0x20 :: v), key.all isPrintable = true)
    (hvalue : Readable (decode v)) :
    readLine kind' ((k ++ 0x20 :: v).take headerLinePrefixBytes) (k ++ 0x20 :: v).length =
      .ok (.structural (decode k) (decode v)) := by
  subst hkind
  obtain ⟨hdecode, hlen⟩ := structural_key h
  obtain ⟨hvlen, hvprint, hvdecode⟩ := printable_of_readable hvalue
  have hpart : keyPart (k ++ 0x20 :: v) = some k := by
    rw [keyPart_cut v hne hk, if_pos (by simp only [headerLinePrefixBytes]; omega)]
  have hwhole : (k ++ 0x20 :: v).take headerLinePrefixBytes = k ++ 0x20 :: v :=
    List.take_of_length_le (by simp [headerLinePrefixBytes]; omega)
  have hdrop : (k ++ 0x20 :: v).drop (k.length + 1) = v := by
    rw [← List.drop_drop, List.drop_left]
    rfl
  have hread : readAscii kind' k = .ok (decode k) := by
    rw [hdecode]
    exact if_pos (hkey k hpart)
  have hreadv : readAscii kind' v = .ok (decode v) := by
    rw [hvdecode]
    exact if_pos hvprint
  rw [readLine_of_keyPart_some kind' hpart, hread, ok_bind, h, hwhole, hdrop, hreadv]
  simp only [Bool.not_true, Bool.false_eq_true, if_false, gt_iff_lt, Nat.lt_irrefl]
  rfl

theorem scanLine_of_other
    (hread : readLine s.kind (line.take headerLinePrefixBytes) line.length = .ok .other) :
    s.scanLine line = .ok s.ignore := by
  unfold scanLine finishLine
  simp only [atLine, hread]
  rfl

/-- What the scanner holds of the headers so far: it has taken in the structural ones, and it
    expects no continuation after a structural header. -/
structure Holds (kind : HeaderKind) (s0 : StreamingHeaders) (hs : List Header)
    (s : StreamingHeaders) : Prop where
  kind_eq : s.kind = kind
  absorbed : (structural kind hs).foldlM absorbHeader s0 = .ok s.ignore
  previous : s.previousStructural = true → ∃ last older, hs = last :: older ∧
    isStructural kind last.key = true

/-- One line, of a header block in which the structural headers are plain and valid. -/
theorem scan_line {s0 r : StreamingHeaders} (h : Holds kind s0 hs s)
    (hkey : ∀ key ∈ keyPart line, key.all isPrintable = true)
    (hplain : Plain kind (addLine hs (decode line)))
    (hall : (structural kind (addLine hs (decode line))).foldlM absorbHeader s0 = .ok r) :
    ∃ s', s.scanLine line = .ok s' ∧ Holds kind s0 (addLine hs (decode line)) s' := by
  rcases addLine_decode hs line with ⟨v, rfl, heq⟩ | ⟨hno, heq⟩ | ⟨k, v, rfl, hne, hk, heq⟩
  · -- a continuation: the header before it cannot be structural
    have hprev : s.previousStructural = false := by
      by_contra hprev
      obtain ⟨last, older, rfl, hlast⟩ := h.previous (by simpa using hprev)
      rw [heq] at hplain
      exact absurd (hplain _ List.mem_cons_self hlast) (by simp)
    have hread : readLine s.kind ((0x20 :: v).take headerLinePrefixBytes) (0x20 :: v).length =
        .ok .continuation := readLine_of_keyPart_none s.kind (keyPart_space v)
    refine ⟨s.ignore, ?_, h.kind_eq, ?_, by simp [ignore, atLine]⟩
    · unfold scanLine finishLine
      simp only [atLine, hread, ok_bind, hprev]
      rfl
    · rw [heq, structural_modifyHead]
      exact h.absorbed
  · have hstart : 0x20 ∉ line.take headerLinePrefixBytes := fun hmem => hno (List.mem_of_mem_take hmem)
    have hread := readLine_of_keyPart_none s.kind (keyPart_no_space hstart)
    have hhead : (line.take headerLinePrefixBytes).head? ≠ some 0x20 :=
      fun hhead => hstart (List.mem_of_mem_head? hhead)
    rw [if_neg hhead] at hread
    refine ⟨s.ignore, scanLine_of_other hread, h.kind_eq, ?_, by simp [ignore, atLine]⟩
    rw [heq]
    exact h.absorbed
  · rw [heq] at hall ⊢
    cases hstructural : isStructural kind (decode k) with
    | false =>
      refine ⟨s.ignore, scanLine_of_other ?_, h.kind_eq, ?_, by simp [ignore, atLine]⟩
      · exact readLine_other h.kind_eq hne hk hkey hstructural
      · rw [structural_cons, hstructural, if_neg (by simp), List.append_nil]
        exact h.absorbed
    | true =>
      rw [structural_cons, hstructural, if_pos rfl, List.foldlM_append, h.absorbed, ok_bind] at hall
      obtain ⟨r1, habsorb, -⟩ := bind_eq_ok.1 hall
      have hread := readLine_structural h.kind_eq hne hk hstructural hkey (absorb_readable habsorb)
      have hmap := ignore_absorb s (k ++ 0x20 :: v) (decode k) (decode v)
      rw [show s.ignore.absorb (decode k) (decode v) = .ok r1 from habsorb] at hmap
      cases hs1 : absorb { s.atLine (k ++ 0x20 :: v) with previousStructural := true } (decode k)
          (decode v) with
      | error e =>
        rw [hs1] at hmap
        cases hmap
      | ok s1 =>
        rw [hs1] at hmap
        have hr1 : s1.ignore = r1 := Except.ok.inj hmap
        have hscan : s.scanLine (k ++ 0x20 :: v) = .ok (s1.atLine []) := by
          unfold scanLine finishLine
          rw [show readLine (s.atLine (k ++ 0x20 :: v)).kind (s.atLine (k ++ 0x20 :: v)).start
            (s.atLine (k ++ 0x20 :: v)).lineLength = _ from hread]
          exact bind_eq_ok.2 ⟨s1, hs1, rfl⟩
        refine ⟨_, hscan, (scanLine_frame hscan).2.2.1.trans h.kind_eq, ?_, ?_⟩
        · rw [structural_cons, hstructural, if_pos rfl, List.foldlM_append, h.absorbed, ok_bind]
          exact bind_eq_ok.2 ⟨r1, habsorb, congrArg Except.ok hr1.symm⟩
        · exact fun _ => ⟨_, _, rfl, hstructural⟩

/-- The scanner succeeds on a header block in which the structural headers are plain and valid. -/
theorem scan_lines {kind : HeaderKind} {s0 r : StreamingHeaders} {lines : List (List UInt8)} :
    ∀ {s : StreamingHeaders} {hs : List Header}, Holds kind s0 hs s →
    (∀ line ∈ lines, ∀ key ∈ keyPart line, key.all isPrintable = true) →
    Plain kind ((lines.map decode).foldl addLine hs) →
    (structural kind ((lines.map decode).foldl addLine hs)).foldlM absorbHeader s0 = .ok r →
    ∃ s', lines.foldlM scanLine s = .ok s' ∧ s'.ignore = r := by
  induction lines with
  | nil =>
    intro s hs h _ _ hall
    refine ⟨s, rfl, ?_⟩
    exact Except.ok.inj (h.absorbed.symm.trans hall)
  | cons line lines ih =>
    intro s hs h hkeys hplain hall
    rw [List.map_cons, List.foldl_cons] at hplain hall
    -- the structural headers so far are a part of those of the whole block
    obtain ⟨more, hmore⟩ := structural_foldl kind lines (addLine hs (decode line))
    have hfirst := hall
    rw [← hmore, List.foldlM_append] at hfirst
    obtain ⟨r1, hr1, -⟩ := bind_eq_ok.1 hfirst
    obtain ⟨s1, hs1, hholds⟩ := scan_line h (hkeys line List.mem_cons_self) (Plain.of_foldl hplain) hr1
    obtain ⟨s', hs', hr⟩ := ih hholds (fun l hl => hkeys l (List.mem_cons_of_mem _ hl)) hplain hall
    exact ⟨s', by rw [List.foldlM_cons, hs1]; exact hs', hr⟩

end Kompjutr.Graph
