/-
  Kompjutr.Graph.HeadersSound

  The header scanner against the parsers that accept an object.

  Both read the lines up to the first empty one.  The scanner's answer does not
  depend on the chunks (`scanHeaders_eq`), and on lines whose keys it can read it
  does what the parser's header list says (`scan_lines`).  Where the two differ
  is a condition on the bytes alone: a key the scanner cannot read, or a header
  that must stand exactly once and does not.
-/
import Kompjutr.Graph.Headers

namespace Kompjutr.Graph

open Objects Fuel

namespace StreamingHeaders

-- From bytes to lines

/-- A line as the machine has it when the line ends. -/
def atLine (s : StreamingHeaders) (line : List UInt8) : StreamingHeaders :=
  { s with start := line.take headerLinePrefixBytes, lineLength := line.length }

/-- The machine on a whole line. -/
def scanLine (s : StreamingHeaders) (line : List UInt8) : Except GitError StreamingHeaders := do
  return (← (s.atLine line).finishLine).atLine []

/-- The lines up to the first empty one. -/
def headerLines (data : List UInt8) : List (List UInt8) :=
  (data.splitOn 0x0a).takeWhile (· ≠ [])

def setReceived (n : Nat) (s : StreamingHeaders) : StreamingHeaders := { s with received := n }

/-- What `finish` returns once the last line is read. -/
def result (size : Nat) (s : StreamingHeaders) : Except GitError HeaderScanResult :=
  if s.received ≠ size then
    throw (corrupt s!"{s.kind.name} object yielded {s.received} bytes, expected {size}")
  else return { treeOid := s.treeOid, parentOids := s.parentOids, parentCount := s.parentCount
                tagOid := s.tagOid, tagType := s.tagType }

theorem finish_eq (s : StreamingHeaders) (size : Nat) :
    s.finish size =
      (if s.header ∧ s.lineLength ≠ 0 then s.finishLine else pure s) >>= result size := by
  have hcheck : ∀ s : StreamingHeaders, (do
      if s.received ≠ size then
        throw (corrupt s!"{s.kind.name} object yielded {s.received} bytes, expected {size}")
      return { treeOid := s.treeOid, parentOids := s.parentOids, parentCount := s.parentCount
               tagOid := s.tagOid, tagType := s.tagType }) = result size s := by
    intro s
    unfold result
    split <;> rfl
  unfold finish
  split
  · exact congrArg _ (funext hcheck)
  · exact hcheck s

theorem readAscii_eq (kind : HeaderKind) (bytes : List UInt8) :
    (bytes.all isPrintable = true ∧ readAscii kind bytes = .ok (bytes.map UInt8.toUInt16)) ∨
      (bytes.all isPrintable = false ∧ ∃ e, readAscii kind bytes = .error e) := by
  unfold readAscii
  cases h : bytes.all isPrintable with
  | true => exact .inl ⟨rfl, rfl⟩
  | false => exact .inr ⟨rfl, _, rfl⟩

theorem setReceived_absorb (n : Nat) (s : StreamingHeaders) (key value : Text) :
    (setReceived n s).absorb key value = setReceived n <$> s.absorb key value := by
  unfold absorb addTree addParent addObject addType setReceived
  split_ifs <;> try rfl
  split <;> rfl

theorem setReceived_finishLine (n : Nat) (s : StreamingHeaders) :
    (setReceived n s).finishLine = setReceived n <$> s.finishLine := by
  unfold finishLine
  simp only [setReceived]
  cases readLine s.kind s.start s.lineLength with
  | error e => rfl
  | ok line =>
    cases line with
    | continuation =>
      by_cases hprev : s.previousStructural = true
      · simp only [hprev]
        rfl
      · simp only [hprev]
        rfl
    | other => rfl
    | structural key value => exact setReceived_absorb n { s with previousStructural := true } key value

theorem setReceived_scanLine (n : Nat) (s : StreamingHeaders) (line : List UInt8) :
    (setReceived n s).scanLine line = setReceived n <$> s.scanLine line := by
  unfold scanLine
  rw [show (setReceived n s).atLine line = setReceived n (s.atLine line) from rfl,
    setReceived_finishLine]
  cases (s.atLine line).finishLine <;> rfl

/-- Once the empty line is read, only the size counts. -/
theorem push_after_header {s : StreamingHeaders} (hheader : s.header = false) (data : List UInt8)
    (hsafe : (s.received + data.length : Int) ≤ maxSafeInteger) :
    data.foldlM pushByte s = .ok (setReceived (s.received + data.length) s) := by
  induction data generalizing s with
  | nil => rfl
  | cons b data ih =>
    have hlen : ((b :: data).length : Int) = data.length + 1 := by simp
    have hstep : s.pushByte b = .ok (setReceived (s.received + 1) s) := by
      unfold pushByte
      simp only [isSafeInteger]
      rw [if_neg (by simp; omega), if_pos (by simp [hheader])]
      rfl
    have hrest := ih (s := setReceived (s.received + 1) s) hheader
      (by simp only [setReceived]; omega)
    rw [List.foldlM_cons, hstep, List.length_cons,
      show s.received + (data.length + 1) = s.received + 1 + data.length by omega]
    exact hrest

/-- What taking in a header can do. -/
theorem absorb_cases {s s' : StreamingHeaders} {key value : Text}
    (h : s.absorb key value = .ok s') :
    (key = text "tree" ∧ s.treeOid = none ∧ isOid value = true ∧
      s' = { s with treeOid := some value }) ∨
    (key = text "parent" ∧ isOid value = true ∧
      s' = { s with
        parentOids :=
          if s.parentCount ≥ s.parentStart ∧ s.parentOids.length < s.parentLimit then
            s.parentOids ++ [value]
          else s.parentOids
        parentCount := s.parentCount + 1 }) ∨
    (key = text "object" ∧ s.tagOid = none ∧ isOid value = true ∧
      s' = { s with tagOid := some value }) ∨
    (key ≠ text "tree" ∧ key ≠ text "parent" ∧ key ≠ text "object" ∧ s.tagType = none ∧
      ∃ type, ObjectType.ofText value = some type ∧ s' = { s with tagType := some type }) := by
  unfold absorb at h
  by_cases h1 : key = text "tree"
  · rw [if_pos h1, addTree] at h
    split at h
    · cases h
    split at h
    · cases h
    rename_i h4 h5
    exact .inl ⟨h1, by simpa using h4, by simpa using h5, (Except.ok.inj h).symm⟩
  rw [if_neg h1] at h
  by_cases h2 : key = text "parent"
  · rw [if_pos h2, addParent] at h
    split at h
    · cases h
    rename_i h4
    exact .inr (.inl ⟨h2, by simpa using h4, (Except.ok.inj h).symm⟩)
  rw [if_neg h2] at h
  by_cases h3 : key = text "object"
  · rw [if_pos h3, addObject] at h
    split at h
    · cases h
    split at h
    · cases h
    rename_i h4 h5
    exact .inr (.inr (.inl ⟨h3, by simpa using h4, by simpa using h5, (Except.ok.inj h).symm⟩))
  rw [if_neg h3, addType] at h
  split at h
  · cases h
  rename_i h4
  split at h
  · rename_i type htype
    exact .inr (.inr (.inr ⟨h1, h2, h3, by simpa using h4, type, htype, (Except.ok.inj h).symm⟩))
  · cases h

/-- The machine after a line without a structural header. -/
def ignore (s : StreamingHeaders) : StreamingHeaders :=
  ({ s with previousStructural := false } : StreamingHeaders).atLine []

/-- What a line can do. -/
theorem scanLine_cases {s s' : StreamingHeaders} {line : List UInt8}
    (h : s.scanLine line = .ok s') :
    (∃ found, readLine s.kind (line.take headerLinePrefixBytes) line.length = .ok found ∧
      (∀ key value, found ≠ .structural key value) ∧ s' = s.ignore) ∨
    (∃ key value s1,
      readLine s.kind (line.take headerLinePrefixBytes) line.length = .ok (.structural key value) ∧
      absorb { s.atLine line with previousStructural := true } key value = .ok s1 ∧
      s' = s1.atLine []) := by
  unfold scanLine at h
  obtain ⟨s1, hfinish, h⟩ := bind_eq_ok.1 h
  cases h
  unfold finishLine at hfinish
  obtain ⟨found, hread, hfinish⟩ := bind_eq_ok.1 hfinish
  cases found with
  | continuation =>
    dsimp only at hfinish
    split at hfinish
    · cases hfinish
    · cases hfinish
      exact .inl ⟨_, hread, by simp, rfl⟩
  | other =>
    cases hfinish
    exact .inl ⟨_, hread, by simp, rfl⟩
  | structural key value => exact .inr ⟨key, value, s1, hread, hfinish, rfl⟩

/-- A line leaves everything but the header fields as it is. -/
theorem scanLine_frame {s s' : StreamingHeaders} {line : List UInt8}
    (h : s.scanLine line = .ok s') :
    s'.header = s.header ∧ s'.received = s.received ∧ s'.kind = s.kind ∧ s'.atLine [] = s' := by
  rcases scanLine_cases h with ⟨-, -, -, rfl⟩ | ⟨key, value, s1, -, habsorb, rfl⟩
  · exact ⟨rfl, rfl, rfl, rfl⟩
  · rcases absorb_cases habsorb with ⟨-, -, -, rfl⟩ | ⟨-, -, rfl⟩ | ⟨-, -, -, rfl⟩ |
      ⟨-, -, -, -, type, -, rfl⟩
    all_goals exact ⟨rfl, rfl, rfl, rfl⟩

theorem take_snoc {n : Nat} (line : List UInt8) (b : UInt8) :
    (line ++ [b]).take n = if (line.take n).length < n then line.take n ++ [b] else line.take n := by
  rw [List.length_take]
  split_ifs with h
  · rw [List.take_of_length_le (by simp; omega), List.take_of_length_le (by omega)]
  · rw [List.take_append_of_le_length (by omega)]

/-- `push` on the rest of the bytes, in the middle of a line, and then `finish`. -/
theorem scan_rest (size : Nat) (data : List UInt8) : ∀ (line : List UInt8) (s : StreamingHeaders),
    s.header = true → 0x0a ∉ line → (s.received + data.length : Int) ≤ maxSafeInteger →
    (data.foldlM pushByte (s.atLine line) >>= fun s => s.finish size) =
      ((line ++ data).splitOn 0x0a |>.takeWhile (· ≠ [])).foldlM scanLine
        (setReceived (s.received + data.length) s) >>= result size := by
  induction data with
  | nil =>
    intro line s hheader hline hsafe
    rw [List.append_nil, List.splitOn_eq_singleton hline, List.foldlM_nil, pure_bind, finish_eq,
      show setReceived (s.received + ([] : List UInt8).length) s = s from rfl]
    cases line with
    | nil =>
      rw [if_neg (by simp [atLine])]
      rfl
    | cons b line =>
      rw [if_pos ⟨hheader, by simp [atLine]⟩]
      show _ = (s.scanLine (b :: line) >>= pure) >>= result size
      unfold scanLine
      cases (s.atLine (b :: line)).finishLine <;> rfl
  | cons b data ih =>
    intro line s hheader hline hsafe
    have hlen : ((b :: data).length : Int) = data.length + 1 := by simp
    have hsafe1 : isSafeInteger ((s.received + 1 : Nat) : Int) = true := by
      simp only [isSafeInteger_iff, maxSafeInteger] at hsafe ⊢
      omega
    have hcount : s.received + (b :: data).length = s.received + 1 + data.length := by
      simp only [List.length_cons]; omega
    rw [List.foldlM_cons, hcount]
    by_cases hb : b = 0x0a
    · subst hb
      rw [List.splitOn_append_cons_self_of_not_mem hline]
      cases line with
      | nil =>
        -- the empty line: the rest is only counted
        have hstep : (s.atLine []).pushByte 0x0a =
            .ok ((setReceived (s.received + 1) { s with header := false }).atLine []) := by
          simp only [pushByte, atLine, hsafe1, hheader, setReceived]
          rfl
        have hrest := push_after_header
          (s := (setReceived (s.received + 1) { s with header := false }).atLine []) rfl data
          (by simp only [setReceived, atLine]; omega)
        rw [hstep]
        show (data.foldlM pushByte _ >>= fun s => s.finish size) = _
        rw [hrest, ok_bind, finish_eq, if_neg (by simp [setReceived, atLine])]
        rfl
      | cons c line =>
        have hfin : (s.atLine (c :: line)).pushByte 0x0a =
            (setReceived (s.received + 1) s).scanLine (c :: line) := by
          simp only [pushByte, atLine, hsafe1, hheader, setReceived, scanLine]
          rfl
        rw [hfin, List.takeWhile_cons_of_pos (by simp), List.foldlM_cons, setReceived_scanLine,
          setReceived_scanLine]
        cases hscan : s.scanLine (c :: line) with
        | error e => rfl
        | ok s1 =>
          obtain ⟨hheader1, hreceived1, -, hat⟩ := scanLine_frame hscan
          have hrest := ih [] (setReceived (s.received + 1) s1) (hheader1.trans hheader) (by simp)
            (by simp only [setReceived]; omega)
          rw [List.nil_append,
            show (setReceived (s.received + 1) s1).atLine [] = setReceived (s.received + 1) (s1.atLine [])
              from rfl, hat] at hrest
          exact hrest
    · have hstep : (s.atLine line).pushByte b =
          .ok ((setReceived (s.received + 1) s).atLine (line ++ [b])) := by
        simp only [pushByte, atLine, hsafe1, hheader, hb, setReceived, take_snoc]
        simp [headerLinePrefixBytes]
        rfl
      rw [hstep]
      have hrest := ih (line ++ [b]) (setReceived (s.received + 1) s) hheader
        (by simp [hline, Ne.symm hb]) (by simp only [setReceived]; omega)
      rw [List.append_assoc, List.singleton_append] at hrest
      exact hrest

/-- What a scan answers from the machine's fields. -/
def answer (s : StreamingHeaders) : HeaderScanResult :=
  { treeOid := s.treeOid, parentOids := s.parentOids, parentCount := s.parentCount
    tagOid := s.tagOid, tagType := s.tagType }

theorem foldlM_scanLine_frame {lines : List (List UInt8)} {s s' : StreamingHeaders}
    (h : lines.foldlM scanLine s = .ok s') : s'.received = s.received ∧ s'.kind = s.kind := by
  induction lines generalizing s with
  | nil =>
    cases h
    exact ⟨rfl, rfl⟩
  | cons line lines ih =>
    rw [List.foldlM_cons] at h
    obtain ⟨s1, hline, hrest⟩ := bind_eq_ok.1 h
    obtain ⟨-, hreceived, hkind, -⟩ := scanLine_frame hline
    obtain ⟨hreceived', hkind'⟩ := ih hrest
    exact ⟨hreceived'.trans hreceived, hkind'.trans hkind⟩

/-- The answer depends on the bytes only, not on the chunks: the scan is a pass over the header
    lines. -/
theorem scanHeaders_eq_ok (kind : HeaderKind) {chunks : List (List UInt8)} {data : List UInt8}
    (hdata : chunks.flatten = data) (hsafe : (data.length : Int) ≤ maxSafeInteger)
    (parentStart parentLimit : Nat) (r : HeaderScanResult) :
    scanHeaders kind chunks data.length parentStart parentLimit = .ok r ↔
      ∃ s, (headerLines data).foldlM scanLine
        (setReceived data.length (create kind parentStart parentLimit)) = .ok s ∧ answer s = r := by
  have hchunks : chunks.foldlM push (create kind parentStart parentLimit) =
      data.foldlM pushByte (create kind parentStart parentLimit) := by
    subst hdata
    generalize create kind parentStart parentLimit = s
    clear hsafe
    induction chunks generalizing s with
    | nil => rfl
    | cons chunk chunks ih =>
      rw [List.foldlM_cons, List.flatten_cons, List.foldlM_append]
      exact congrArg _ (funext ih)
  have hscan := scan_rest data.length data [] (create kind parentStart parentLimit) rfl (by simp)
    (by simpa [create] using hsafe)
  rw [List.nil_append, show (create kind parentStart parentLimit).received + data.length = data.length
    from Nat.zero_add _] at hscan
  unfold scanHeaders
  rw [hchunks, show create kind parentStart parentLimit = (create kind parentStart parentLimit).atLine []
    from rfl, hscan, bind_eq_ok]
  refine exists_congr fun s => and_congr_right fun hs => ?_
  have hreceived : s.received = data.length := (foldlM_scanLine_frame hs).1
  simp only [result, hreceived, ne_eq, not_true_eq_false, if_false]
  exact ⟨fun h => Except.ok.inj h, fun h => congrArg Except.ok h⟩

end StreamingHeaders

end Kompjutr.Graph
