/-
  Kompjutr.Graph.HeadersAccepted

  The scanner on the commits and tags that `parseCommit` and `parseTag` accept.

  It reads the same tree and parents, or the same target and type, exactly when
  it can read every key and the header it needs stands once: a condition on the
  bytes alone.  The parsers ask for neither.
-/
import Kompjutr.Graph.HeadersAgree
import Mathlib.Data.List.Induction

namespace Kompjutr.Graph

open Objects Fuel StreamingHeaders Utf8
open List (append_nil foldlM_cons length_append length_drop mem_filter mem_map)

variable {saw saw' : Bool}

variable {headers : List (Text × Text)} {header : Text × Text} {s : StreamingHeaders} {value : Text}
  {commit : Commit} {tag : Tag} {kind : HeaderKind} {data : List UInt8} {key : String}

-- Taking in valid headers

/-- The values of the headers with a key. -/
def valuesOf (key : String) (headers : List (Text × Text)) : List Text :=
  (headers.filter fun header => header.1 = text key).map Prod.snd

theorem valuesOf_append (key : String) (headers more : List (Text × Text)) :
    valuesOf key (headers ++ more) = valuesOf key headers ++ valuesOf key more := by
  simp [valuesOf]

theorem valuesOf_snoc (key : String) (headers : List (Text × Text)) (header : Text × Text) :
    valuesOf key (headers ++ [header]) =
      valuesOf key headers ++ if header.1 = text key then [header.2] else [] := by
  rw [valuesOf_append]
  by_cases h : header.1 = text key <;> simp [valuesOf, h]

/-- Structural headers the scanner takes in. -/
structure ValidHeaders (headers : List (Text × Text)) : Prop where
  known : ∀ header ∈ headers, header.1 = text "tree" ∨ header.1 = text "parent" ∨
    header.1 = text "object" ∨ header.1 = text "type"
  oid : ∀ header ∈ headers, header.1 ≠ text "type" → isOid header.2 = true
  type : ∀ header ∈ headers, header.1 = text "type" → (ObjectType.ofText header.2).isSome = true
  oneTree : (valuesOf "tree" headers).length ≤ 1
  oneObject : (valuesOf "object" headers).length ≤ 1
  oneType : (valuesOf "type" headers).length ≤ 1

theorem ValidHeaders.init (h : ValidHeaders (headers ++ [header])) : ValidHeaders headers := by
  have hmem : ∀ g ∈ headers, g ∈ headers ++ [header] := fun g hg => List.mem_append_left _ hg
  have hle : ∀ key, (valuesOf key headers).length ≤ (valuesOf key (headers ++ [header])).length := by
    intro key
    rw [valuesOf_snoc, length_append]
    omega
  exact ⟨fun g hg => h.known g (hmem g hg), fun g hg => h.oid g (hmem g hg),
    fun g hg => h.type g (hmem g hg), (hle _).trans h.oneTree, (hle _).trans h.oneObject,
    (hle _).trans h.oneType⟩

/-- The machine after structural headers. -/
def holding (s0 : StreamingHeaders) (headers : List (Text × Text)) : StreamingHeaders :=
  { s0 with
    treeOid := (valuesOf "tree" headers).head?
    parentOids := ((valuesOf "parent" headers).drop s0.parentStart).take s0.parentLimit
    parentCount := (valuesOf "parent" headers).length
    tagOid := (valuesOf "object" headers).head?
    tagType := (valuesOf "type" headers).head?.bind ObjectType.ofText }

/-- The window over the parents grows with them. -/
theorem window_snoc (start limit : Nat) (parents : List Text) (oid : Text) :
    (if parents.length ≥ start ∧ ((parents.drop start).take limit).length < limit then
      (parents.drop start).take limit ++ [oid]
    else (parents.drop start).take limit) = ((parents ++ [oid]).drop start).take limit := by
  split_ifs with h
  · have hlen := h.2
    rw [List.length_take, length_drop] at hlen
    rw [List.drop_append_of_le_length h.1, List.take_append, length_drop,
      List.take_of_length_le (l := [oid]) (by simp; omega)]
  · rw [not_and_or] at h
    rcases h with h | h
    · rw [List.drop_of_length_le (by omega), List.drop_of_length_le (by simp; omega)]
    · rw [List.length_take] at h
      by_cases hle : start ≤ parents.length
      · rw [List.drop_append_of_le_length hle, List.take_append_of_le_length (by omega)]
      · rw [List.drop_of_length_le (by omega), List.drop_of_length_le (by simp; omega)]

theorem absorb_tree (hnone : s.treeOid = none) (hoid : isOid value = true) :
    s.absorb (text "tree") value = .ok { s with treeOid := some value } := by
  simp [absorb, addTree, hnone, hoid]
  rfl

theorem absorb_parent {window : List Text} (hoid : isOid value = true)
    (hwindow : (if s.parentCount ≥ s.parentStart ∧ s.parentOids.length < s.parentLimit then
      s.parentOids ++ [value] else s.parentOids) = window) :
    s.absorb (text "parent") value =
      .ok { s with parentOids := window, parentCount := s.parentCount + 1 } := by
  rw [absorb, if_neg (by decide), if_pos rfl, addParent, hoid, hwindow]
  rfl

theorem absorb_object (hnone : s.tagOid = none) (hoid : isOid value = true) :
    s.absorb (text "object") value = .ok { s with tagOid := some value } := by
  rw [absorb, if_neg (by decide), if_neg (by decide), if_pos rfl, addObject, hnone, hoid]
  rfl

theorem absorb_type {type : ObjectType}
    (hnone : s.tagType = none) (htype : ObjectType.ofText value = some type) :
    s.absorb (text "type") value = .ok { s with tagType := some type } := by
  rw [absorb, if_neg (by decide), if_neg (by decide), if_neg (by decide), addType, hnone, htype]
  rfl

theorem absorb_valid (s0 : StreamingHeaders) (hfresh : holding s0 [] = s0)
    (h : ValidHeaders headers) :
    headers.foldlM absorbHeader s0 = .ok (holding s0 headers) := by
  induction headers using List.reverseRecOn with
  | nil => exact congrArg Except.ok hfresh.symm
  | append_singleton headers header ih =>
    rw [List.foldlM_append, ih h.init, ok_bind]
    have hmem : header ∈ headers ++ [header] := by simp
    obtain ⟨key, value⟩ := header
    show (holding s0 headers).absorb key value >>= pure = _
    rw [bind_pure]
    have hsame : ∀ word, key = text word →
        valuesOf word (headers ++ [(key, value)]) = valuesOf word headers ++ [value] := by
      intro word hword
      rw [valuesOf_snoc, if_pos hword]
    have hother : ∀ word, key ≠ text word →
        valuesOf word (headers ++ [(key, value)]) = valuesOf word headers := by
      intro word hword
      rw [valuesOf_snoc, if_neg hword, append_nil]
    have hempty : ∀ word, key = text word → (valuesOf word (headers ++ [(key, value)])).length ≤ 1 →
        valuesOf word headers = [] := by
      intro word hword hlen
      rw [hsame word hword, length_append, List.length_singleton] at hlen
      exact List.length_eq_zero_iff.1 (by omega)
    rcases h.known _ hmem with rfl | rfl | rfl | rfl
    · have hnone := hempty _ rfl h.oneTree
      rw [absorb_tree (by rw [holding, hnone]; rfl)
        (h.oid _ hmem (show text "tree" ≠ text "type" by decide))]
      simp only [holding, hsame "tree" rfl, hother "parent" (by decide), hother "object" (by decide),
        hother "type" (by decide), hnone]
      rfl
    · rw [absorb_parent (h.oid _ hmem (show text "parent" ≠ text "type" by decide))
        (window_snoc s0.parentStart s0.parentLimit (valuesOf "parent" headers) value)]
      simp only [holding, hother "tree" (by decide), hsame "parent" rfl, hother "object" (by decide),
        hother "type" (by decide), length_append, List.length_singleton]
    · have hnone := hempty _ rfl h.oneObject
      rw [absorb_object (by rw [holding, hnone]; rfl)
        (h.oid _ hmem (show text "object" ≠ text "type" by decide))]
      simp only [holding, hother "tree" (by decide), hother "parent" (by decide), hsame "object" rfl,
        hother "type" (by decide), hnone]
      rfl
    · have hnone := hempty _ rfl h.oneType
      obtain ⟨type, htype⟩ := Option.isSome_iff_exists.1 (h.type _ hmem rfl)
      rw [absorb_type (by rw [holding, hnone]; rfl) htype]
      simp only [holding, hother "tree" (by decide), hother "parent" (by decide),
        hother "object" (by decide), hsame "type" rfl, hnone, List.nil_append, List.head?_cons,
        Option.bind_some, htype]

-- What acceptance says of the headers

theorem getLastD_append {α : Type} (l l' : List α) (a : α) :
    (l ++ l').getLastD a = l'.getLastD (l.getLastD a) := by
  rw [List.getLastD_eq_getLast?, List.getLast?_append, List.getLastD_eq_getLast?,
    List.getLastD_eq_getLast?]
  cases l'.getLast? <;> rfl

/-- What one header does to the commit. -/
theorem commitHeader_ok {commit' : Commit}
    (h : commitHeader (commit, saw) header = .ok (commit', saw')) :
    (header.1 = text "tree" ∨ header.1 = text "parent" → isOid header.2 = true) ∧
      commit'.tree = (valuesOf "tree" [header]).getLastD commit.tree ∧
      commit'.parent = commit.parent ++ valuesOf "parent" [header] := by
  obtain ⟨key, value⟩ := header
  simp only [commitHeader] at h
  by_cases htree : key = text "tree"
  · rw [if_pos htree] at h
    split at h
    · rename_i hoid
      cases h
      subst htree
      exact ⟨fun _ => hoid, rfl, (append_nil _).symm⟩
    · cases h
  rw [if_neg htree] at h
  by_cases hparent : key = text "parent"
  · rw [if_pos hparent] at h
    split at h
    · rename_i hoid
      cases h
      subst hparent
      exact ⟨fun _ => hoid, rfl, rfl⟩
    · cases h
  rw [if_neg hparent] at h
  refine ⟨fun hkey => (hkey.elim htree hparent).elim, ?_⟩
  have hvalues : valuesOf "tree" [(key, value)] = [] ∧ valuesOf "parent" [(key, value)] = [] := by
    simp [valuesOf, htree, hparent]
  rw [hvalues.1, hvalues.2, append_nil]
  -- the other headers leave the tree and the parents alone
  split_ifs at h <;> obtain ⟨rfl, -⟩ := Prod.mk.inj (Except.ok.inj h) <;> exact ⟨rfl, rfl⟩

theorem commitHeaders_ok {state state' : Commit × Bool}
    (h : headers.foldlM commitHeader state = .ok state') :
    (∀ header ∈ headers, header.1 = text "tree" ∨ header.1 = text "parent" →
      isOid header.2 = true) ∧
      state'.1.tree = (valuesOf "tree" headers).getLastD state.1.tree ∧
      state'.1.parent = state.1.parent ++ valuesOf "parent" headers := by
  induction headers generalizing state with
  | nil =>
    cases h
    exact ⟨by simp, rfl, (append_nil _).symm⟩
  | cons header headers ih =>
    rw [foldlM_cons] at h
    rw [show header :: headers = [header] ++ headers from rfl, valuesOf_append, valuesOf_append]
    obtain ⟨⟨commit, saw⟩, hfirst, hrest⟩ := bind_eq_ok.1 h
    obtain ⟨hoid, htree, hparent⟩ := commitHeader_ok hfirst
    obtain ⟨hoids, htrees, hparents⟩ := ih hrest
    refine ⟨List.forall_mem_cons.2 ⟨hoid, hoids⟩, ?_, ?_⟩
    · rw [htrees, htree, getLastD_append]
    · rw [hparents, hparent, List.append_assoc]

/-- What one header does to the tag. -/
theorem tagHeader_ok {tag' : Tag} (h : tagHeader (tag, saw) header = .ok (tag', saw')) :
    (header.1 = text "object" → isOid header.2 = true) ∧
      (header.1 = text "type" → (ObjectType.ofText header.2).isSome = true) ∧
      tag'.object = (valuesOf "object" [header]).getLastD tag.object ∧
      tag'.type = ((valuesOf "type" [header]).filterMap ObjectType.ofText).getLastD tag.type := by
  obtain ⟨key, value⟩ := header
  simp only [tagHeader] at h
  by_cases hobject : key = text "object"
  · rw [if_pos hobject] at h
    split at h
    · rename_i hoid
      cases h
      subst hobject
      exact ⟨fun _ => hoid, fun hkey => absurd hkey (show text "object" ≠ text "type" by decide),
        rfl, rfl⟩
    · cases h
  rw [if_neg hobject] at h
  by_cases htype : key = text "type"
  · rw [if_pos htype] at h
    split at h
    · rename_i type hof
      cases h
      subst htype
      refine ⟨fun hkey => absurd hkey hobject, fun _ => by simp [hof], rfl, ?_⟩
      simp [valuesOf, hof]
    · cases h
  rw [if_neg htype] at h
  refine ⟨fun hkey => absurd hkey hobject, fun hkey => absurd hkey htype, ?_⟩
  have hvalues : valuesOf "object" [(key, value)] = [] ∧ valuesOf "type" [(key, value)] = [] := by
    simp [valuesOf, hobject, htype]
  rw [hvalues.1, hvalues.2]
  split_ifs at h <;> obtain ⟨rfl, -⟩ := Prod.mk.inj (Except.ok.inj h) <;> exact ⟨rfl, rfl⟩

theorem tagHeaders_ok {state state' : Tag × Bool}
    (h : headers.foldlM tagHeader state = .ok state') :
    (∀ header ∈ headers, header.1 = text "object" → isOid header.2 = true) ∧
      (∀ header ∈ headers, header.1 = text "type" →
        (ObjectType.ofText header.2).isSome = true) ∧
      state'.1.object = (valuesOf "object" headers).getLastD state.1.object ∧
      state'.1.type =
        ((valuesOf "type" headers).filterMap ObjectType.ofText).getLastD state.1.type := by
  induction headers generalizing state with
  | nil =>
    cases h
    exact ⟨by simp, by simp, rfl, rfl⟩
  | cons header headers ih =>
    rw [foldlM_cons] at h
    rw [show header :: headers = [header] ++ headers from rfl, valuesOf_append, valuesOf_append]
    obtain ⟨⟨tag, saw⟩, hfirst, hrest⟩ := bind_eq_ok.1 h
    obtain ⟨hoid, hsome, hobject, htype⟩ := tagHeader_ok hfirst
    obtain ⟨hoids, hsomes, hobjects, htypes⟩ := ih hrest
    refine ⟨List.forall_mem_cons.2 ⟨hoid, hoids⟩, List.forall_mem_cons.2 ⟨hsome, hsomes⟩, ?_, ?_⟩
    · rw [hobjects, hobject, getLastD_append]
    · rw [htypes, htype, List.filterMap_append, getLastD_append]

/-- A readable value is a header's own: a continuation would bring a line feed. -/
theorem continuation_eq_nil {h : Header} (hread : Readable h.full) : h.continuation = [] := by
  by_contra hne
  obtain ⟨line, hline⟩ := List.exists_mem_of_ne_nil _ hne
  have hmem : 0x0a ∈ h.full :=
    List.mem_append_right _ (List.mem_flatMap.2 ⟨line, hline, List.mem_cons_self⟩)
  exact absurd (hread.2 _ hmem).1 (by decide)

/-- The header list of an object, as its parser goes through it. -/
def headerList (data : List UInt8) : List (Text × Text) :=
  (parserHeaders data).reverse.map fun h => (h.key, h.full)

theorem plain_of_readable
    (h : ∀ header ∈ headerList data, isStructural kind header.1 = true → Readable header.2) :
    Plain kind (parserHeaders data) := by
  intro g hg hkey
  apply continuation_eq_nil
  exact h (g.key, g.full) (mem_map.2 ⟨g, List.mem_reverse.2 hg, rfl⟩) hkey

theorem valuesOf_structural (key : String)
    (hplain : Plain kind (parserHeaders data)) (hkey : isStructural kind (text key) = true) :
    valuesOf key (structural kind (parserHeaders data)) = valuesOf key (headerList data) := by
  rw [structural_eq_filter hplain, valuesOf, valuesOf, List.filter_filter]
  congr 1
  refine List.filter_congr fun header _ => ?_
  by_cases h : header.1 = text key <;> simp [h, hkey]

-- The scanner beside the parser

/-- A line adds the header the scanner sees in it. -/
theorem length_valuesOf_addLine (hs : List Header)
    (line : List UInt8) (hkey : isStructural kind (text key) = true)
    (hascii : ∀ b ∈ ascii key, b < 0x80) :
    (valuesOf key (structural kind (addLine hs (decode line)))).length =
      (valuesOf key (structural kind hs)).length + (hasKey key line).toNat := by
  rcases addLine_decode hs line with ⟨v, rfl, h⟩ | ⟨hno, h⟩ | ⟨k, v, rfl, hne, hk, h⟩
  · rw [h, structural_modifyHead, hasKey, keyPart_space]
    rfl
  · rw [h, hasKey, keyPart_no_space fun hmem => hno (List.mem_of_mem_take hmem)]
    rfl
  · have hiff : decode k = text key ↔ hasKey key (k ++ 0x20 :: v) = true := by
      rw [hasKey, decide_eq_true_eq, keyPart_cut v hne hk]
      constructor
      · intro hdecode
        obtain rfl := eq_of_decode_ascii hascii hdecode
        have hlen := (structural_key (k := ascii key) (by rw [hdecode]; exact hkey)).2
        rw [if_pos (by simp only [headerLinePrefixBytes]; omega)]
      · intro hpart
        split_ifs at hpart with hlen
        cases hpart
        exact decode_ascii hascii
    rw [h, structural_cons]
    by_cases hdecode : decode k = text key
    · rw [hdecode, if_pos hkey, valuesOf_snoc, if_pos rfl, hiff.1 hdecode, length_append]
      rfl
    · rw [Bool.eq_false_iff.2 fun hhas => hdecode (hiff.2 hhas)]
      cases hstructural : isStructural kind (decode k) with
      | false => simp
      | true => rw [if_pos rfl, valuesOf_snoc, if_neg hdecode, append_nil]; rfl

theorem length_valuesOf_foldl (lines : List (List UInt8))
    (hs : List Header) (hkey : isStructural kind (text key) = true)
    (hascii : ∀ b ∈ ascii key, b < 0x80) :
    (valuesOf key (structural kind ((lines.map decode).foldl addLine hs))).length =
      (valuesOf key (structural kind hs)).length + lines.countP (hasKey key) := by
  induction lines generalizing hs with
  | nil => rfl
  | cons line lines ih =>
    rw [List.map_cons, List.foldl_cons, ih, length_valuesOf_addLine hs line hkey hascii,
      List.countP_cons]
    cases hasKey key line <;> simp
    omega

/-- The keys of the header lines can be read. -/
def KeysReadable (data : List UInt8) : Prop :=
  ∀ line ∈ headerLines data, ∀ key ∈ keyPart line, key.all isPrintable = true

theorem splitOn_withoutMark (data : List UInt8) :
    data.splitOn 0x0a = (withoutMark data).splitOn 0x0a ∨
      data.splitOn 0x0a = ((withoutMark data).splitOn 0x0a).modifyHead (byteOrderMark ++ ·) := by
  unfold withoutMark
  split_ifs with h
  · obtain ⟨rest, rfl⟩ := List.isPrefixOf_iff_prefix.1 h
    right
    rw [show (byteOrderMark ++ rest).drop 3 = rest from rfl]
    show (0xef :: 0xbb :: 0xbf :: rest).splitOn 0x0a = _
    rw [splitOn_cons_of_ne (by decide), splitOn_cons_of_ne (by decide),
      splitOn_cons_of_ne (by decide)]
    cases rest.splitOn 0x0a <;> rfl
  · exact .inl rfl

/-- A line behind a byte order mark. -/
theorem marked_line (kind : HeaderKind) {line : List UInt8}
    (hkey : ∀ key ∈ keyPart (byteOrderMark ++ line), key.all isPrintable = true) :
    readLine kind ((byteOrderMark ++ line).take headerLinePrefixBytes)
        (byteOrderMark ++ line).length = .ok .other ∧
      keyPart (byteOrderMark ++ line) = none ∧
      structural kind (addLine [] (decode line)) = [] := by
  have hnone : keyPart (byteOrderMark ++ line) = none →
      readLine kind ((byteOrderMark ++ line).take headerLinePrefixBytes)
        (byteOrderMark ++ line).length = .ok .other := by
    intro hpart
    rw [readLine_of_keyPart_none kind hpart, if_neg]
    simp [byteOrderMark, headerLinePrefixBytes]
  rcases line_shape 0x20 (byteOrderMark ++ line) with ⟨v, h⟩ | hno | ⟨k, v, h, hne, hk⟩
  · exact absurd h (by simp [byteOrderMark])
  · have hpart : keyPart (byteOrderMark ++ line) = none :=
      keyPart_no_space fun hmem => hno (List.mem_of_mem_take hmem)
    have hline : 0x20 ∉ line := fun hmem => hno (List.mem_append_right _ hmem)
    refine ⟨hnone hpart, hpart, ?_⟩
    rw [addLine_no_space [] fun hmem => hline (mem_of_mem_decode (by decide) hmem)]
    rfl
  · have hpart := keyPart_cut v hne hk
    rw [← h] at hpart
    by_cases hlen : k.length < headerLinePrefixBytes
    · -- the key would begin with the mark
      rw [if_pos hlen] at hpart
      obtain ⟨b, k, rfl⟩ := List.exists_cons_of_ne_nil hne
      obtain ⟨rfl, -⟩ : (0xef : UInt8) = b ∧ _ := List.cons.inj h
      exact absurd (hkey _ hpart) (by simp [isPrintable])
    · rw [if_neg hlen] at hpart
      refine ⟨hnone hpart, hpart, ?_⟩
      simp only [headerLinePrefixBytes, Nat.not_lt] at hlen
      have hline : line = k.drop 3 ++ 0x20 :: v := by
        have hdrop : line = (k ++ 0x20 :: v).drop 3 := congrArg (List.drop 3) h
        rwa [List.drop_append_of_le_length (by omega)] at hdrop
      have hstructural : isStructural kind (decode (k.drop 3)) = false := by
        by_contra hkey'
        have := (structural_key (by simpa using hkey')).2
        rw [length_drop] at this
        omega
      have hne' : decode (k.drop 3) ≠ [] := by
        rw [Ne, decode_eq_nil]
        simp only [List.drop_eq_nil_iff]
        omega
      have hk' : 0x20 ∉ decode (k.drop 3) :=
        fun hmem => hk (List.mem_of_mem_drop (mem_of_mem_decode (by decide) hmem))
      rw [hline, decode_cut _ v (by decide), show (0x20 : UInt8).toUInt16 = 0x20 from rfl,
        addLine_cut _ [] hne' hk', structural_cons, hstructural]
      rfl

/-- The scanner and the parser read the same lines.  Where a byte order mark stands before the
    first one, neither finds a structural header in it. -/
theorem scan_start (s0 : StreamingHeaders)
    (hkind : s0.kind = kind) (hfresh : s0.ignore = s0) (hkeys : KeysReadable data)
    (hne : headerLines data ≠ []) :
    ∃ (lines : List (List UInt8)) (hs : List Header),
      (headerLines data).foldlM scanLine s0 = lines.foldlM scanLine s0 ∧
      parserHeaders data = (lines.map decode).foldl addLine hs ∧
      structural kind hs = [] ∧ (∀ line ∈ lines, line ∈ headerLines data) ∧
      ∀ key, (headerLines data).countP (hasKey key) = lines.countP (hasKey key) := by
  cases hraw : (withoutMark data).splitOn 0x0a with
  | nil => exact absurd hraw (List.splitOn_ne_nil _ _)
  | cons line rest =>
    have hparser : parserHeaders data =
        ((line :: rest.takeWhile (· ≠ [])).map decode).foldl addLine [] := by
      simp only [parserHeaders, parserLines, hraw]
    rcases splitOn_withoutMark data with hsplit | hsplit
    · -- no mark
      have hheader : headerLines data = line :: rest.takeWhile (· ≠ []) := by
        rw [headerLines, hsplit, hraw] at hne ⊢
        by_cases hline : line = []
        · rw [List.takeWhile_cons_of_neg (by simp [hline])] at hne
          exact absurd rfl hne
        · rw [List.takeWhile_cons_of_pos (by simpa using hline)]
      exact ⟨headerLines data, [], rfl, by rw [hparser, hheader], rfl, fun _ h => h, fun _ => rfl⟩
    · have hheader : headerLines data = (byteOrderMark ++ line) :: rest.takeWhile (· ≠ []) := by
        rw [headerLines, hsplit, hraw]
        rfl
      have hkey := hkeys (byteOrderMark ++ line) (by rw [hheader]; exact List.mem_cons_self)
      obtain ⟨hread, hpart, hstructural⟩ := marked_line kind hkey
      rw [hheader]
      refine ⟨rest.takeWhile (· ≠ []), addLine [] (decode line), ?_, hparser, hstructural,
        fun l hl => List.mem_cons_of_mem _ hl, fun key => ?_⟩
      · subst hkind
        rw [foldlM_cons, scanLine_of_other hread, hfresh]
        rfl
      · rw [List.countP_cons_of_neg (by simp [hasKey, hpart])]

/-- How many header lines carry a key. -/
def keyCount (key : String) (data : List UInt8) : Nat := (headerLines data).countP (hasKey key)

theorem valuesOf_eq_nil (kind : HeaderKind) (key : String) (hs : List Header)
    (h : isStructural kind (text key) = false) : valuesOf key (structural kind hs) = [] := by
  unfold valuesOf
  rw [List.map_eq_nil_iff, List.filter_eq_nil_iff]
  intro header hheader hkey
  obtain ⟨g, hg, rfl⟩ := mem_map.1 hheader
  have hstructural := (mem_filter.1 hg).2
  rw [show g.key = text key by simpa using hkey, h] at hstructural
  cases hstructural

/-- On valid headers with keys it can read, the scanner answers what the parser has listed. -/
theorem scan_valid (parentStart parentLimit : Nat)
    (hkeys : KeysReadable data) (hne : headerLines data ≠ [])
    (hplain : Plain kind (parserHeaders data))
    (hvalid : ValidHeaders (structural kind (parserHeaders data))) :
    ∃ s, (headerLines data).foldlM scanLine
        (setReceived data.length (create kind parentStart parentLimit)) = .ok s ∧
      answer s = answer (holding (setReceived data.length (create kind parentStart parentLimit))
        (structural kind (parserHeaders data))) := by
  have habsorb := absorb_valid (setReceived data.length (create kind parentStart parentLimit))
    (by simp [holding, valuesOf, setReceived, create]) hvalid
  obtain ⟨lines, hs, hscan, hparser, hnil, hmem, -⟩ :=
    scan_start (setReceived data.length (create kind parentStart parentLimit)) rfl rfl hkeys hne
  rw [hparser] at hplain habsorb
  obtain ⟨s, hs, hignore⟩ := scan_lines (s := setReceived data.length (create kind parentStart parentLimit))
    ⟨rfl, by rw [hnil]; rfl, by simp [setReceived, create]⟩
    (fun line hline => hkeys line (hmem line hline)) hplain habsorb
  refine ⟨s, hscan.trans hs, ?_⟩
  rw [hparser, ← hignore]
  rfl

theorem length_valuesOf_eq_keyCount (kind : HeaderKind) (key : String)
    (hkeys : KeysReadable data) (hne : headerLines data ≠ [])
    (hkey : isStructural kind (text key) = true) (hascii : ∀ b ∈ ascii key, b < 0x80) :
    (valuesOf key (structural kind (parserHeaders data))).length = keyCount key data := by
  obtain ⟨lines, hs, -, hparser, hnil, -, hcount⟩ :=
    scan_start (create kind 0 0) rfl rfl hkeys hne
  change structural kind hs = [] at hnil
  rw [hparser, length_valuesOf_foldl lines hs hkey hascii, hnil, keyCount, hcount]
  exact Nat.zero_add _

theorem parseCommit_headers (h : acceptCommit data = .ok commit) :
    (∀ header ∈ headerList data, header.1 = text "tree" ∨ header.1 = text "parent" →
      isOid header.2 = true) ∧
      commit.tree = (valuesOf "tree" (headerList data)).getLastD [] ∧
      commit.parent = valuesOf "parent" (headerList data) := by
  unfold acceptCommit parseCommit parseCommitText at h
  obtain ⟨parsed, hparse, h⟩ := bind_eq_ok.1 h
  obtain ⟨-, -, h⟩ := bind_eq_ok.1 h
  cases h
  obtain ⟨⟨commit, saw⟩, hfold, hparse⟩ := bind_eq_ok.1 hparse
  dsimp only at hparse
  split at hparse
  · cases hparse
  cases hparse
  rw [splitHeaders_textDecode] at hfold
  exact commitHeaders_ok hfold

theorem parseTag_headers (h : parseTag data = .ok tag) :
    (∀ header ∈ headerList data, header.1 = text "object" → isOid header.2 = true) ∧
      (∀ header ∈ headerList data, header.1 = text "type" →
        (ObjectType.ofText header.2).isSome = true) ∧
      tag.object = (valuesOf "object" (headerList data)).getLastD [] ∧
      tag.type =
        ((valuesOf "type" (headerList data)).filterMap ObjectType.ofText).getLastD .commit := by
  unfold parseTag at h
  obtain ⟨⟨parsed, saw⟩, hfold, h⟩ := bind_eq_ok.1 h
  dsimp only at h
  split at h
  · cases h
  cases h
  rw [splitHeaders_textDecode] at hfold
  exact tagHeaders_ok hfold

/-- The bytes of an object.  An array of the language has a safe length. -/
structure ObjectBytes where
  bytes : List UInt8
  length_safe : (bytes.length : Int) ≤ maxSafeInteger

/-- The scan of the object yields the tree and the parents of the commit, in every window and for
    every chunking. -/
def ScansCommit (object : ObjectBytes) (commit : Commit) : Prop :=
  ∀ (chunks : List (List UInt8)) (parentStart parentLimit : Nat), chunks.flatten = object.bytes →
    scanHeaders .commit chunks object.bytes.length parentStart parentLimit =
      .ok { treeOid := some commit.tree
            parentOids := (commit.parent.drop parentStart).take parentLimit
            parentCount := commit.parent.length
            tagOid := none
            tagType := none }

/-- The scan of the object yields the target and the type of the tag. -/
def ScansTag (object : ObjectBytes) (tag : Tag) : Prop :=
  ∀ (chunks : List (List UInt8)) (parentStart parentLimit : Nat), chunks.flatten = object.bytes →
    scanHeaders .tag chunks object.bytes.length parentStart parentLimit =
      .ok { treeOid := none
            parentOids := []
            parentCount := 0
            tagOid := some tag.object
            tagType := some tag.type }

theorem headerLines_ne_nil (h : keyCount key data = 1) : headerLines data ≠ [] := by
  intro hnil
  rw [keyCount, hnil] at h
  exact absurd h (by simp)

theorem eq_singleton_of_getLastD {α : Type} {l : List α} {a d : α} (hlen : l.length = 1)
    (h : a = l.getLastD d) : l = [a] := by
  obtain ⟨b, rfl⟩ := List.length_eq_one_iff.1 hlen
  rw [h]
  rfl

/-- A structural header is one of the parser's list. -/
theorem mem_structural (hplain : Plain kind (parserHeaders data))
    (h : header ∈ structural kind (parserHeaders data)) :
    header ∈ headerList data ∧ isStructural kind header.1 = true := by
  rw [structural_eq_filter hplain] at h
  exact mem_filter.1 h

variable {object : ObjectBytes}

theorem scansCommit_of_readable
    (haccept : acceptCommit object.bytes = .ok commit) (hkeys : KeysReadable object.bytes)
    (hcount : keyCount "tree" object.bytes = 1) : ScansCommit object commit := by
  obtain ⟨hoid, htree, hparent⟩ := parseCommit_headers haccept
  have hne := headerLines_ne_nil hcount
  have hkey : ∀ {key : Text}, isStructural .commit key = true →
      key = text "tree" ∨ key = text "parent" := by
    intro key h
    simpa [isStructural] using h
  have hplain : Plain .commit (parserHeaders object.bytes) :=
    plain_of_readable fun header hheader h => isOid_readable (hoid header hheader (hkey h))
  have hlen := length_valuesOf_eq_keyCount .commit "tree" hkeys hne rfl (by decide +kernel)
  have hobject := valuesOf_eq_nil .commit "object" (parserHeaders object.bytes) rfl
  have htype := valuesOf_eq_nil .commit "type" (parserHeaders object.bytes) rfl
  have hvalid : ValidHeaders (structural .commit (parserHeaders object.bytes)) := by
    refine ⟨fun header h => ?_, fun header h _ => ?_, fun header h hword => ?_, by omega,
      by simp [hobject], by simp [htype]⟩
    · exact (hkey (mem_structural hplain h).2).imp_right .inl
    · exact hoid header (mem_structural hplain h).1 (hkey (mem_structural hplain h).2)
    · have hstructural := (mem_structural hplain h).2
      rw [hword] at hstructural
      exact absurd hstructural (by decide)
  intro chunks parentStart parentLimit hchunks
  rw [scanHeaders_eq_ok .commit hchunks object.length_safe]
  obtain ⟨s, hscan, hanswer⟩ := scan_valid parentStart parentLimit hkeys hne hplain hvalid
  refine ⟨s, hscan, hanswer.trans ?_⟩
  have htrees := valuesOf_structural "tree" hplain rfl
  rw [hcount, htrees] at hlen
  simp only [answer, holding, htrees, eq_singleton_of_getLastD hlen htree,
    valuesOf_structural "parent" hplain rfl, ← hparent, hobject, htype]
  rfl

theorem scansTag_of_readable
    (haccept : parseTag object.bytes = .ok tag) (hkeys : KeysReadable object.bytes)
    (hobjects : keyCount "object" object.bytes = 1) (htypes : keyCount "type" object.bytes = 1) :
    ScansTag object tag := by
  obtain ⟨hoid, hsome, hobject, htype⟩ := parseTag_headers haccept
  have hne := headerLines_ne_nil hobjects
  have hkey : ∀ {key : Text}, isStructural .tag key = true →
      key = text "object" ∨ key = text "type" := by
    intro key h
    simpa [isStructural] using h
  have hplain : Plain .tag (parserHeaders object.bytes) := by
    refine plain_of_readable fun header hheader h => ?_
    rcases hkey h with hword | hword
    · exact isOid_readable (hoid header hheader hword)
    · obtain ⟨type, htype⟩ := Option.isSome_iff_exists.1 (hsome header hheader hword)
      exact ofText_readable htype
  have hlenObject := length_valuesOf_eq_keyCount .tag "object" hkeys hne rfl (by decide +kernel)
  have hlenType := length_valuesOf_eq_keyCount .tag "type" hkeys hne rfl (by decide +kernel)
  have htree := valuesOf_eq_nil .tag "tree" (parserHeaders object.bytes) rfl
  have hparent := valuesOf_eq_nil .tag "parent" (parserHeaders object.bytes) rfl
  have hvalid : ValidHeaders (structural .tag (parserHeaders object.bytes)) := by
    refine ⟨fun header h => ?_, fun header h hword => ?_, fun header h hword => ?_, by simp [htree],
      by omega, by omega⟩
    · exact .inr (.inr (hkey (mem_structural hplain h).2))
    · exact hoid header (mem_structural hplain h).1
        ((hkey (mem_structural hplain h).2).resolve_right hword)
    · exact hsome header (mem_structural hplain h).1 hword
  intro chunks parentStart parentLimit hchunks
  rw [scanHeaders_eq_ok .tag hchunks object.length_safe]
  obtain ⟨s, hscan, hanswer⟩ := scan_valid parentStart parentLimit hkeys hne hplain hvalid
  refine ⟨s, hscan, hanswer.trans ?_⟩
  have hvaluesObject := valuesOf_structural "object" hplain rfl
  have hvaluesType := valuesOf_structural "type" hplain rfl
  rw [hobjects, hvaluesObject] at hlenObject
  rw [htypes, hvaluesType] at hlenType
  -- the one type header names the type of the tag
  obtain ⟨word, hword⟩ := List.length_eq_one_iff.1 hlenType
  have hmem : word ∈ valuesOf "type" (headerList object.bytes) := by rw [hword]; simp
  obtain ⟨header, hheader, rfl⟩ := mem_map.1 hmem
  obtain ⟨hlist, hkeyType⟩ := mem_filter.1 hheader
  obtain ⟨type, hof⟩ := Option.isSome_iff_exists.1 (hsome header hlist (by simpa using hkeyType))
  have htype' : tag.type = type := by simpa [hword, hof] using htype
  simp only [answer, holding, hvaluesObject, eq_singleton_of_getLastD hlenObject hobject,
    hvaluesType, hword, htree, hparent, List.head?_cons, Option.bind_some, hof, htype']
  simp

/-- For a commit or tag whose bytes are accepted when it is stored, the header scanner accepts it
    too and yields the same tree and parents, or the same target and type, exactly when it can read
    the key of every header line and each header it needs stands in one header line. -/
theorem scanner_agrees_iff (object : ObjectBytes) :
    (∀ commit, acceptCommit object.bytes = .ok commit →
      (ScansCommit object commit ↔
        KeysReadable object.bytes ∧ keyCount "tree" object.bytes = 1)) ∧
    (∀ tag, parseTag object.bytes = .ok tag →
      (ScansTag object tag ↔
        KeysReadable object.bytes ∧ keyCount "object" object.bytes = 1 ∧
          keyCount "type" object.bytes = 1)) := by
  constructor
  · intro commit haccept
    refine ⟨fun h => ?_, fun h => scansCommit_of_readable haccept h.1 h.2⟩
    have hscan := h [object.bytes] 0 0 (by simp)
    rw [scanHeaders_eq_ok .commit (by simp) object.length_safe] at hscan
    obtain ⟨s, hfold, hanswer⟩ := hscan
    obtain ⟨hkeys, htree, -⟩ := foldlM_scanLine_seen hfold
    have hsome : s.treeOid = some commit.tree := congrArg HeaderScanResult.treeOid hanswer
    have hcount := htree rfl
    rw [hsome] at hcount
    exact ⟨hkeys, by simpa [keyCount, filled, setReceived, create] using hcount.symm⟩
  · intro tag haccept
    refine ⟨fun h => ?_, fun h => scansTag_of_readable haccept h.1 h.2.1 h.2.2⟩
    have hscan := h [object.bytes] 0 0 (by simp)
    rw [scanHeaders_eq_ok .tag (by simp) object.length_safe] at hscan
    obtain ⟨s, hfold, hanswer⟩ := hscan
    obtain ⟨hkeys, -, htag⟩ := foldlM_scanLine_seen hfold
    have hobject : s.tagOid = some tag.object := congrArg HeaderScanResult.tagOid hanswer
    have htype : s.tagType = some tag.type := congrArg HeaderScanResult.tagType hanswer
    obtain ⟨hobjects, htypes⟩ := htag rfl
    rw [hobject] at hobjects
    rw [htype] at htypes
    exact ⟨hkeys, by simpa [keyCount, filled, setReceived, create] using hobjects.symm,
      by simpa [keyCount, filled, setReceived, create] using htypes.symm⟩

/-- A commit with one tree header. -/
def oneTree : List UInt8 :=
  ascii "tree " ++ List.replicate 40 0x62 ++
    ascii "\nauthor A <a@b> 1 +0000\ncommitter A <a@b> 1 +0000\n\nm\n"

/-- The commit that `parseCommit` makes of it. -/
def oneTreeCommit : Commit :=
  { tree := List.replicate 40 0x62
    parent := []
    author := { name := text "A", email := text "a@b", timestamp := 1, timezoneOffset := 0 }
    committer := { name := text "A", email := text "a@b", timestamp := 1, timezoneOffset := 0 }
    gpgsig := none
    message := text "m\n" }

theorem scanner_agrees_on_one_tree : ScansCommit ⟨oneTree, by decide +kernel⟩ oneTreeCommit :=
  ((scanner_agrees_iff ⟨oneTree, by decide +kernel⟩).1 oneTreeCommit (by decide +kernel)).2
    ⟨by unfold KeysReadable; decide +kernel, by decide +kernel⟩

/-- A commit with two tree headers. -/
def twoTrees : List UInt8 :=
  ascii "tree " ++ List.replicate 40 0x61 ++ ascii "\ntree " ++ List.replicate 40 0x62 ++
    ascii "\nauthor A <a@b> 1 +0000\ncommitter A <a@b> 1 +0000\n\nm\n"

/-- The parser keeps the second tree. -/
theorem twoTrees_accepted : acceptCommit twoTrees = .ok oneTreeCommit := by decide +kernel

theorem twoTrees_rejected :
    scanHeaders .commit [twoTrees] twoTrees.length 0 0 =
      .error (corrupt "commit has duplicate tree headers") := by decide +kernel

/-- The scanner refuses a commit that is accepted when it is stored. -/
theorem scanner_refuses_accepted_commit :
    ¬ ∀ (object : ObjectBytes) (commit : Commit), acceptCommit object.bytes = .ok commit →
      ScansCommit object commit := by
  intro h
  have hscan := h ⟨twoTrees, by decide +kernel⟩ _ twoTrees_accepted [twoTrees] 0 0 (by simp)
  rw [show scanHeaders .commit [twoTrees] twoTrees.length 0 0 = _ from twoTrees_rejected] at hscan
  cases hscan

end Kompjutr.Graph
