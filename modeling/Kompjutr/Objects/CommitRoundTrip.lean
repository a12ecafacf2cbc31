/-
  Kompjutr.Objects.CommitRoundTrip

  When a commit that was written parses back to itself: exactly when its
  identities and its message are transparent to the format
  (`parseCommit_serializeCommit_iff`).

  A line feed in a name or an e-mail starts a line of its own, which is read as a
  header, as the continuation of one, or not at all.  None of these gives the
  field back: a continuation loses the space it starts with, and a header read
  from a later line has fewer line feeds than the field.
-/
import Kompjutr.Objects.Serialize

namespace Kompjutr.Objects

open Fuel Utf8
open List (append_assoc append_nil cons_append count_append count_eq_zero_of_not_mem flatMap_cons
  flatMap_nil foldlM_cons foldl_cons foldl_nil length_cons map_cons mem_append mem_cons
  mem_cons_of_mem mem_cons_self nil_append)

variable {rest rest' first' : Text} {parts lines' : List Text} {start final : Commit × Bool}

variable {u : UInt16} {t first key value full : Text} {commit : Commit} {lines : List Text}
  {hs : List Header} {h : Header} {person : Person}

-- Encoding

/-- A unit of the format itself. -/
def Printable (u : UInt16) : Prop := 0x20 ≤ u.toNat ∧ u.toNat < 0x7f

theorem Printable.not_surrogate (h : Printable u) : ¬ (isHigh u || isLow u) = true := by
  unfold Printable at h
  rw [Bool.or_eq_true, isHigh_iff, isLow_iff]
  omega

theorem Printable.ne_lineFeed (h : Printable u) : u ≠ 0x0a := by
  rintro rfl
  exact absurd h.1 (by decide)

theorem printable_text {s : String} (h : (text s).all (fun u => 0x20 ≤ u && u < 0x7f) = true) :
    ∀ u ∈ text s, Printable u := by
  intro u hu
  have := List.all_eq_true.1 h u hu
  simpa [Printable, UInt16.le_iff_toNat_le, UInt16.lt_iff_toNat_lt] using this

theorem printable_of_isDigit (h : isDigit u = true) : Printable u := by
  rw [isDigit_iff] at h
  unfold Printable
  omega

theorem printable_formatNumber (n : Int) : ∀ u ∈ formatNumber n, Printable u := by
  have hsign : ∀ u ∈ (if n < 0 then [0x2d] else [] : Text), Printable u := by
    intro u hu
    split at hu
    · rw [List.mem_singleton.1 hu]
      exact ⟨by decide, by decide⟩
    · cases hu
  have hsignificant : ∀ u ∈ (decimal n.natAbs).rdropWhile (· = 0x30), Printable u := fun u hu =>
    printable_of_isDigit (isDigit_decimal ((List.rdropWhile_prefix _ _).subset hu))
  have hexponential : ∀ u ∈ exponential n.natAbs, Printable u := by
    intro u hu
    simp only [exponential, mem_append] at hu
    rcases hu with ((hu | hu) | hu) | hu
    · exact hsignificant u (List.mem_of_mem_take hu)
    · split at hu
      · cases hu
      · rcases mem_cons.1 hu with rfl | hu
        · exact ⟨by decide, by decide⟩
        · exact hsignificant u (List.mem_of_mem_drop hu)
    · exact printable_text (by decide) u hu
    · exact printable_of_isDigit (isDigit_decimal hu)
  intro u hu
  rcases mem_append.1 hu with hu | hu
  · exact hsign u hu
  · split at hu
    · exact printable_of_isDigit (isDigit_decimal hu)
    · exact hexponential u hu

theorem printable_formatTimezone (offset : Int) : ∀ u ∈ formatTimezone offset, Printable u := by
  have hpad : ∀ n : Int, ∀ u ∈ padStart2 (formatNumber n), Printable u := by
    intro n u hu
    rcases mem_append.1 hu with hu | hu
    · rw [List.eq_of_mem_replicate hu]
      exact ⟨by decide, by decide⟩
    · exact printable_formatNumber n u hu
  intro u hu
  rcases mem_cons.1 hu with rfl | hu
  · split <;> exact ⟨by decide, by decide⟩
  · rcases mem_append.1 hu with hu | hu <;> exact hpad _ u hu

theorem printable_stampText (person : Person) : ∀ u ∈ stampText person, Printable u := by
  intro u hu
  simp only [stampText, mem_append] at hu
  rcases hu with ((hu | hu) | hu) | hu
  · exact printable_text (by decide) u hu
  · exact printable_formatNumber _ u hu
  · exact printable_text (by decide) u hu
  · exact printable_formatTimezone _ u hu

theorem printable_of_isOid (h : isOid t = true) : ∀ u ∈ t, Printable u := by
  intro u hu
  simp only [isOid, Bool.and_eq_true, List.all_eq_true, Bool.or_eq_true, isDigit_iff,
    decide_eq_true_eq, UInt16.le_iff_toNat_le, UInt16.reduceToNat] at h
  have := h.2 u hu
  unfold Printable
  omega

/-- The person with the unpaired surrogates replaced. -/
def Person.scrub (person : Person) : Person :=
  { person with name := toWellFormed person.name, email := toWellFormed person.email }

def Commit.scrub (commit : Commit) : Commit :=
  { commit with author := commit.author.scrub, committer := commit.committer.scrub
                message := toWellFormed commit.message }

theorem not_surrogate_of_lt {u : UInt16} (h : u.toNat < 0x80) : ¬ (isHigh u || isLow u) = true := by
  rw [Bool.or_eq_true, isHigh_iff, isLow_iff]
  omega

/-- A person's line in front of more text. -/
theorem toWellFormed_formatPerson (person : Person) (rest : Text) :
    toWellFormed (formatPerson person ++ 0x0a :: rest) =
      formatPerson person.scrub ++ 0x0a :: toWellFormed rest := by
  have hline : toWellFormed (stampText person ++ 0x0a :: rest) =
      stampText person ++ 0x0a :: toWellFormed rest := by
    rw [toWellFormed_append fun u hu => (printable_stampText person u hu).not_surrogate]
    exact congrArg _ (toWellFormed_cut [] rest (not_surrogate_of_lt (u := 0x0a) (by decide)))
  have hemail : toWellFormed (0x3c :: (person.email ++ 0x3e :: (stampText person ++ 0x0a :: rest))) =
      0x3c :: (toWellFormed person.email ++ 0x3e :: (stampText person ++ 0x0a :: toWellFormed rest)) := by
    rw [← nil_append (0x3c :: _), toWellFormed_cut _ _ (not_surrogate_of_lt (by decide)),
      toWellFormed_cut _ _ (not_surrogate_of_lt (by decide)), hline]
    rfl
  simp only [formatPerson_eq, append_assoc, cons_append]
  rw [toWellFormed_cut _ _ (not_surrogate_of_lt (by decide)), hemail]
  rfl

/-- The text before the author. -/
def frontText (commit : Commit) : Text :=
  text "tree " ++ commit.tree ++ commit.parent.flatMap (fun oid => 0x0a :: (text "parent " ++ oid)) ++
    0x0a :: text "author "

theorem commitText_eq (hsig : commit.gpgsig = none) :
    commitText commit = frontText commit ++ (formatPerson commit.author ++
      0x0a :: (text "committer " ++ (formatPerson commit.committer ++
        0x0a :: 0x0a :: commit.message))) := by
  have hjoin : ∀ (parents : List Text) (first rest : Text) (more : List Text),
      List.intercalate [0x0a] (first :: (parents ++ rest :: more)) =
        first ++ parents.flatMap (0x0a :: ·) ++
          0x0a :: List.intercalate [0x0a] (rest :: more) := by
    intro parents
    induction parents with
    | nil => intro first rest more; simp [List.intercalate_cons_cons]
    | cons parent parents ih =>
      intro first rest more
      rw [cons_append, List.intercalate_cons_cons, ih]
      simp
  have hfeed : text "\n" = [0x0a] := by decide
  have hfeeds : text "\n\n" = [0x0a, 0x0a] := by decide
  simp only [commitText, commitLines, hsig, hfeed, hfeeds, Option.map_none, Option.toList_none,
    append_nil, cons_append]
  rw [hjoin]
  simp [frontText, List.intercalate_cons_cons, List.flatMap_map]

/-- A commit of the store: its oids are oids, and it is not signed. -/
structure Unsigned (commit : Commit) : Prop where
  tree : isOid commit.tree = true
  parents : ∀ oid ∈ commit.parent, isOid oid = true
  gpgsig : commit.gpgsig = none

theorem mem_frontText (h : Unsigned commit)
    (hu : u ∈ frontText commit) : Printable u ∨ u = 0x0a := by
  simp only [frontText, mem_append, List.mem_flatMap, mem_cons] at hu
  rcases hu with ((hu | hu) | ⟨oid, hoid, hu | hu | hu⟩) | hu | hu
  · exact .inl (printable_text (by decide) u hu)
  · exact .inl (printable_of_isOid h.tree u hu)
  · exact .inr hu
  · exact .inl (printable_text (by decide) u hu)
  · exact .inl (printable_of_isOid (h.parents oid hoid) u hu)
  · exact .inr hu
  · exact .inl (printable_text (by decide) u hu)

theorem toWellFormed_commitText (h : Unsigned commit) :
    toWellFormed (commitText commit) = commitText commit.scrub := by
  have hfront : ∀ u ∈ frontText commit, ¬ (isHigh u || isLow u) = true := by
    intro u hu
    rcases mem_frontText h hu with hu | rfl
    · exact hu.not_surrogate
    · exact not_surrogate_of_lt (by decide)
  have hcommitter : ∀ u ∈ text "committer ", ¬ (isHigh u || isLow u) = true := fun u hu =>
    (printable_text (by decide) u hu).not_surrogate
  have hfeed : toWellFormed (0x0a :: commit.message) = 0x0a :: toWellFormed commit.message :=
    toWellFormed_cut [] _ (not_surrogate_of_lt (by decide))
  rw [commitText_eq h.gpgsig, commitText_eq (show commit.scrub.gpgsig = none from h.gpgsig),
    toWellFormed_append hfront, toWellFormed_formatPerson, toWellFormed_append hcommitter,
    toWellFormed_formatPerson, hfeed]
  rfl

/-- What the parser reads of the bytes that were written. -/
theorem parseCommit_serializeCommit (h : Unsigned commit) :
    parseCommit (serializeCommit commit) = parseCommitText (commitText commit.scrub) := by
  obtain ⟨rest, hrest⟩ : ∃ rest, commitText commit = 0x74 :: rest := by
    rw [commitText_eq h.gpgsig, frontText, show text "tree " = 0x74 :: text "ree " by decide]
    exact ⟨_, rfl⟩
  have hmark : byteOrderMark.isPrefixOf (serializeCommit commit) = false := by
    have hpoints := points_cut [] rest (not_surrogate_of_lt (u := 0x74) (by decide))
    rw [nil_append] at hpoints
    rw [serializeCommit, hrest, encode, hpoints]
    rfl
  rw [parseCommit, textDecode, hmark, if_neg Bool.false_ne_true, serializeCommit, decode_encode,
    toWellFormed_commitText h]

-- Line feeds in a person

theorem wellFormed_joined {rest : List Text} :
    WellFormed (first ++ rest.flatMap (0x0a :: ·)) ↔ ∀ part ∈ first :: rest, WellFormed part := by
  induction rest generalizing first with
  | nil => simp
  | cons next rest ih =>
    rw [flatMap_cons, cons_append, wellFormed_cut _ _ (not_surrogate_of_lt (by decide)), ih]
    simp

theorem wellFormed_formatPerson_scrub (person : Person) :
    WellFormed (formatPerson person.scrub) := by
  have hstamp : WellFormed (stampText person.scrub) := wellFormed_of_plain fun u hu =>
    (printable_stampText _ u hu).not_surrogate
  have hemail : WellFormed (0x3c :: (toWellFormed person.email ++ 0x3e :: stampText person.scrub)) :=
    (wellFormed_cut [] _ (not_surrogate_of_lt (by decide))).2 ⟨rfl,
      (wellFormed_cut _ _ (not_surrogate_of_lt (by decide))).2 ⟨wellFormed_toWellFormed _, hstamp⟩⟩
  rw [formatPerson_eq]
  exact (wellFormed_cut _ _ (not_surrogate_of_lt (by decide))).2 ⟨wellFormed_toWellFormed _, hemail⟩

/-- What stands at the start of a text and of the same text with a space before it, as far as the
    next line feed, are spaces. -/
theorem spaces_of_shift {part line more more' : Text}
    (h : part ++ rest' = line ++ more') (h' : part ++ rest = 0x20 :: (line ++ more))
    (hmore : ∀ u ∈ more'.head?, u = 0x0a) : ∀ u ∈ part, u = 0x20 := by
  induction part generalizing line with
  | nil => simp
  | cons u part ih =>
    obtain ⟨rfl, hnext⟩ := List.cons.inj h'
    cases line with
    | nil =>
      have hhead := hmore 0x20 (by rw [← nil_append more', ← h]; rfl)
      exact absurd hhead (by decide)
    | cons v line =>
      obtain ⟨rfl, hline⟩ := List.cons.inj h
      intro w hw
      rcases mem_cons.1 hw with rfl | hw
      · rfl
      · exact ih hline hnext w hw

/-- The parts of a newest header are parts of its lines. -/
theorem Newest.parts_of (hnew : Newest key value lines hs h) {P : Text → Prop}
    (hcut : ∀ before part, P (before ++ 0x20 :: part) → P part) (hfirst : P (key ++ 0x20 :: value))
    (hlines : ∀ line ∈ lines, P line) : ∀ part ∈ h.value :: h.continuation, P part := by
  intro part hpart
  obtain ⟨line, hline, before, rfl⟩ := hnew.parts part hpart
  refine hcut before part ?_
  rcases mem_cons.1 hline with heq | hline
  · rw [heq]
    exact hfirst
  · exact hlines _ hline

/-- A header is read back only from its own lines, all of them continued. -/
theorem Newest.lines_eq
    (hnew : Newest key value lines hs h) (hcount : lines.length ≤ h.continuation.length) :
    h.full = value ++ h.continuation.flatMap (0x0a :: ·) ∧
      lines = h.continuation.map (0x20 :: ·) := by
  obtain ⟨hvalue, hlines, -⟩ := hnew.first (Nat.le_antisymm hnew.length_le hcount)
  exact ⟨by rw [Header.full, hvalue], hlines⟩

/-- What reading a person back from a header takes. -/
structure ReadsBack (person : Person) (full : Text) : Prop where
  full_eq : full = formatPerson person
  scrub_eq : person.scrub = person
  name_line : 0x0a ∉ person.name
  name_open : indexOf (text " <") person.name = none
  email_line : 0x0a ∉ person.email
  email_close : 0x3e ∉ person.email
  time : readTime (stampText person) = person.timestamp
  zone : readZone (stampText person) = person.timezoneOffset

/-- A person that is read back from its own line. -/
theorem readsBack_of_parsePerson (hscrub : person.scrub = person)
    (hline : 0x0a ∉ formatPerson person) (h : parsePerson (formatPerson person) = person) :
    ReadsBack person (formatPerson person) := by
  have hlength : person.name.length < (formatPerson person).length := by
    rw [formatPerson_eq, List.length_append, length_cons]
    omega
  rcases parsePerson_cases (formatPerson person) with
    ⟨name, email, rest, hfull, hopen, hclose, hparse⟩ | hparse
  · rw [h] at hparse
    have htime : person.timestamp = readTime rest := congrArg Person.timestamp hparse
    have hzone : person.timezoneOffset = readZone rest := congrArg Person.timezoneOffset hparse
    obtain rfl : person.name = name := congrArg Person.name hparse
    obtain rfl : person.email = email := congrArg Person.email hparse
    have hrest : rest = stampText person := by
      rw [formatPerson_eq] at hfull
      simpa using hfull.symm
    subst hrest
    rw [formatPerson_eq] at hline
    simp only [mem_append, mem_cons, not_or] at hline
    refine ⟨rfl, hscrub, hline.1, ?_, hline.2.2.2.1, hclose, htime.symm, hzone.symm⟩
    cases hname : indexOf (text " <") person.name with
    | none => rfl
    | some i =>
      -- it would be found where the name has it
      have hfound := indexOf_append (by decide) hname
        (0x20 :: 0x3c :: (person.email ++ 0x3e :: stampText person))
      rw [← formatPerson_eq, hopen] at hfound
      have hle := (indexOf_le hname).1
      rw [show text " <" = [0x20, 0x3c] by decide] at hle
      have := Option.some.inj hfound
      simp only [length_cons, List.length_nil] at hle
      omega
  · rw [h] at hparse
    have := congrArg (fun p => p.name.length) hparse
    simp only at this
    omega

theorem scrub_eq_of_wellFormed (hname : WellFormed person.name)
    (hemail : WellFormed person.email) : person.scrub = person := by
  rw [Person.scrub, hname, hemail]

/-- What a header was read from, where a person comes back from it: its name and its e-mail come
    first. -/
theorem parsePerson_front (h : parsePerson full = person) : ∃ rest, full = person.name ++ rest ∧
      ((∃ more, rest = 0x20 :: 0x3c :: (person.email ++ 0x3e :: more)) ∨
        (rest = [] ∧ person.email = [])) := by
  rcases parsePerson_cases full with ⟨name, email, more, rfl, -, -, hparse⟩ | hparse
  · rw [h] at hparse
    exact ⟨_, by rw [congrArg Person.name hparse], .inl ⟨more, by rw [congrArg Person.email hparse]⟩⟩
  · rw [h] at hparse
    exact ⟨[], by rw [congrArg Person.name hparse, append_nil],
      .inr ⟨rfl, congrArg Person.email hparse⟩⟩

theorem wellFormed_of_front (h : parsePerson full = person)
    (hfull : WellFormed full) : WellFormed person.name ∧ WellFormed person.email := by
  obtain ⟨rest, rfl, ⟨more, rfl⟩ | ⟨rfl, hempty⟩⟩ := parsePerson_front h
  · obtain ⟨hname, hrest⟩ := (wellFormed_cut _ _ (not_surrogate_of_lt (by decide))).1 hfull
    obtain ⟨-, hrest⟩ := (wellFormed_cut [] _ (not_surrogate_of_lt (by decide))).1 hrest
    exact ⟨hname, ((wellFormed_cut _ _ (not_surrogate_of_lt (by decide))).1 hrest).1⟩
  · rw [append_nil] at hfull
    exact ⟨hfull, by rw [hempty]; rfl⟩

/-- Lines with a space in front of each but the first. -/
def indented (first : Text) (parts : List Text) : Text :=
  first ++ (parts.map (0x20 :: ·)).flatMap (0x0a :: ·)

theorem length_indented (first : Text) (parts : List Text) :
    (indented first parts).length = (first ++ parts.flatMap (0x0a :: ·)).length + parts.length := by
  induction parts generalizing first with
  | nil => simp [indented]
  | cons part parts ih =>
    have hih := ih first
    simp only [indented, map_cons, flatMap_cons, List.length_append, length_cons]
      at hih ⊢
    omega

/-- What indented lines and the lines without their spaces start with in common has nothing but
    spaces behind its first line feed. -/
theorem spaces_of_indented {front : Text}
    (hfirst : 0x0a ∉ first) (h : front ++ rest = indented first parts)
    (h' : front ++ rest' = first ++ parts.flatMap (0x0a :: ·)) (hmem : 0x0a ∈ front) :
    ∃ left right, front = left ++ 0x0a :: right ∧ 0x0a ∉ left ∧ ∀ u ∈ right, u = 0x20 := by
  obtain ⟨left, right, rfl, hleft⟩ := List.eq_append_cons_of_mem hmem
  refine ⟨left, right, rfl, hleft, ?_⟩
  cases parts with
  | nil =>
    have hin : (0x0a : UInt16) ∈ first := by
      rw [flatMap_nil, append_nil] at h'
      rw [← h']
      exact List.mem_append_left _ hmem
    exact absurd hin hfirst
  | cons part parts =>
    simp only [indented, map_cons, flatMap_cons, cons_append, append_assoc]
      at h h'
    obtain ⟨-, hshift⟩ := cut_unique hleft hfirst h
    obtain ⟨-, hplain⟩ := cut_unique hleft hfirst h'
    refine spaces_of_shift hplain hshift fun u hu => ?_
    cases parts with
    | nil => cases hu
    | cons next parts => exact (Option.mem_some_iff.1 hu).symm

/-- The continuation lines of a person that is read back: there is none. -/
theorem continuation_eq_nil_of_front
    (hfirst : 0x0a ∉ first) (hcount : (formatPerson person).count 0x0a = parts.length)
    (hline : formatPerson person = indented first parts)
    (hparse : parsePerson (first ++ parts.flatMap (0x0a :: ·)) = person) : parts = [] := by
  by_contra hne
  have hpos : 0 < parts.length := List.length_pos_of_ne_nil hne
  have hstamp : (stampText person).count 0x0a = 0 := count_eq_zero_of_not_mem fun hmem =>
    (printable_stampText person _ hmem).ne_lineFeed rfl
  have hlength := length_indented first parts
  rw [← hline] at hlength
  obtain ⟨rest, hfull, ⟨more, rfl⟩ | ⟨rfl, hempty⟩⟩ := parsePerson_front hparse
  · -- the e-mail is closed behind the last line feed
    have hsame : formatPerson person =
        (person.name ++ 0x20 :: 0x3c :: (person.email ++ [0x3e])) ++ stampText person := by
      simp [formatPerson_eq]
    have hmem : 0x0a ∈ person.name ++ 0x20 :: 0x3c :: (person.email ++ [0x3e]) := by
      rw [hsame, count_append, hstamp] at hcount
      exact List.count_pos_iff.1 (by omega)
    obtain ⟨left, right, hfront, -, hspaces⟩ := spaces_of_indented hfirst
      (hsame.symm.trans hline)
      (show _ ++ more = first ++ parts.flatMap (0x0a :: ·) by rw [hfull]; simp) hmem
    rcases List.eq_nil_or_concat right with rfl | ⟨front, u, rfl⟩
    · have hends : (person.name ++ 0x20 :: 0x3c :: person.email) ++ [0x3e] = left ++ [0x0a] := by
        simpa using hfront
      exact absurd (List.append_inj' hends rfl).2 (by decide)
    · have hu := hspaces u (by simp)
      subst hu
      have hends : (person.name ++ 0x20 :: 0x3c :: person.email) ++ [0x3e] =
          (left ++ 0x0a :: front) ++ [0x20] := by
        simpa using hfront
      exact absurd (List.append_inj' hends rfl).2 (by decide)
  · -- the name is all there is, and its line was one longer
    have hsame : formatPerson person =
        person.name ++ 0x20 :: 0x3c :: 0x3e :: stampText person := by
      rw [formatPerson_eq, hempty]
      rfl
    have hname : person.name.count 0x0a = parts.length := by
      rw [← hcount, hsame, count_append, List.count_cons_of_ne (by decide),
        List.count_cons_of_ne (by decide), List.count_cons_of_ne (by decide), hstamp]
      rfl
    obtain ⟨left, right, hfront, hleft, hspaces⟩ := spaces_of_indented hfirst
      (hsame.symm.trans hline) hfull.symm (List.count_pos_iff.1 (by omega))
    have hone : person.name.count 0x0a = 1 := by
      have hright : right.count 0x0a = 0 := count_eq_zero_of_not_mem fun hmem =>
        absurd (hspaces _ hmem) (by decide)
      rw [hfront, count_append, count_eq_zero_of_not_mem hleft, List.count_cons_self,
        hright]
    rw [hfull, append_nil, hsame, List.length_append, length_cons] at hlength
    simp only [length_cons] at hlength
    omega

/-- A person is read back from the newest header of its key only if that is its own line. -/
theorem readsBack_of_newest (hkey : ∀ u ∈ key, Printable u)
    (hsplit : (formatPerson person.scrub).splitOn 0x0a = first :: lines)
    (hnew : Newest key first lines hs h) (hparse : parsePerson h.full = person) :
    lines = [] ∧ ReadsBack person h.full := by
  obtain ⟨hjoined, hfree⟩ := splitOn_eq_cons hsplit
  have hfirst := hfree first mem_cons_self
  -- the header is well-formed, and so is the person
  have hformed : ∀ part ∈ first :: lines, WellFormed part := by
    rw [← wellFormed_joined, ← hjoined]
    exact wellFormed_formatPerson_scrub person
  have hfull : WellFormed h.full := by
    refine wellFormed_joined.2 (hnew.parts_of ?_ ?_ fun line hline => hformed line ?_)
    · intro before part hpart
      exact ((wellFormed_cut _ _ (not_surrogate_of_lt (by decide))).1 hpart).2
    · exact (wellFormed_cut _ _ (not_surrogate_of_lt (by decide))).2
        ⟨wellFormed_of_plain fun u hu => (hkey u hu).not_surrogate, hformed first mem_cons_self⟩
    · exact mem_cons_of_mem _ hline
  obtain ⟨hname, hemail⟩ := wellFormed_of_front hparse hfull
  have hscrub := scrub_eq_of_wellFormed hname hemail
  rw [hscrub] at hsplit hjoined
  -- it has as many line feeds as continuation lines, and the person as many as its line
  have hparts : ∀ part ∈ h.value :: h.continuation, 0x0a ∉ part := by
    refine hnew.parts_of (fun before part hpart hmem => hpart ?_) ?_ fun line hline => ?_
    · exact List.mem_append_right _ (mem_cons_of_mem _ hmem)
    · intro hmem
      rcases mem_append.1 hmem with hmem | hmem
      · exact (hkey _ hmem).ne_lineFeed rfl
      · rcases mem_cons.1 hmem with heq | hmem
        · exact absurd heq (by decide)
        · exact hfirst hmem
    · exact hfree line (mem_cons_of_mem _ hline)
  have hcountFull : h.full.count 0x0a = h.continuation.length := by
    rw [Header.full, count_append,
      count_eq_zero_of_not_mem (hparts _ mem_cons_self),
      count_flatMap_cons fun part hpart => hparts part (mem_cons_of_mem _ hpart), Nat.zero_add]
  have hcountLine : (formatPerson person).count 0x0a = lines.length := by
    rw [hjoined, count_append, count_eq_zero_of_not_mem hfirst,
      count_flatMap_cons fun part hpart => hfree part (mem_cons_of_mem _ hpart), Nat.zero_add]
  have hle : lines.length ≤ h.continuation.length := by
    have hstamp : (stampText person).count 0x0a = 0 := count_eq_zero_of_not_mem fun hmem =>
      (printable_stampText person _ hmem).ne_lineFeed rfl
    rw [← hcountLine, ← hcountFull, formatPerson_eq]
    obtain ⟨rest, hfront, ⟨more, rfl⟩ | ⟨rfl, hempty⟩⟩ := parsePerson_front hparse
    · rw [hfront]
      simp only [count_append, List.count_cons, hstamp]
      omega
    · rw [hfront, hempty]
      simp [count_append, hstamp]
  obtain ⟨hvalue, hlines⟩ := hnew.lines_eq hle
  have hnone : h.continuation = [] := by
    refine continuation_eq_nil_of_front hfirst ?_ ?_ (hvalue ▸ hparse)
    · rw [hcountLine, hlines, List.length_map]
    · rw [hjoined, hlines]
      rfl
  have hnil : lines = [] := by rw [hlines, hnone]; rfl
  have heq : h.full = formatPerson person := by
    rw [hvalue, hnone, hjoined, hnil]
  refine ⟨hnil, ?_⟩
  rw [heq] at hparse ⊢
  refine readsBack_of_parsePerson hscrub ?_ hparse
  rw [hjoined, hnil, flatMap_nil, append_nil]
  exact hfirst

-- Commits

theorem commitHeader_person {commit' : Commit} {saw saw' : Bool}
    (h : commitHeader (commit, saw) (key, value) = .ok (commit', saw')) :
    commit'.message = commit.message ∧
      commit'.author = (if key = text "author" then parsePerson value else commit.author) ∧
      commit'.committer =
        (if key = text "committer" then parsePerson value else commit.committer) := by
  simp only [commitHeader] at h
  split_ifs at h with htree hoid hparent hoid hauthor hcommitter hsig
  · cases h
    subst htree
    exact ⟨rfl, (if_neg (by decide)).symm, (if_neg (by decide)).symm⟩
  · cases h
    subst hparent
    exact ⟨rfl, (if_neg (by decide)).symm, (if_neg (by decide)).symm⟩
  · cases h
    subst hauthor
    exact ⟨rfl, (if_pos rfl).symm, (if_neg (by decide)).symm⟩
  · cases h
    subst hcommitter
    exact ⟨rfl, (if_neg (by decide)).symm, (if_pos rfl).symm⟩
  · cases h
    exact ⟨rfl, (if_neg hauthor).symm, (if_neg hcommitter).symm⟩
  · cases h
    exact ⟨rfl, (if_neg hauthor).symm, (if_neg hcommitter).symm⟩

/-- The newest header of a key makes the person. -/
theorem foldlM_commitHeader_person
    (h : (hs.reverse.map fun h => (h.key, h.full)).foldlM commitHeader start = .ok final) :
    (∀ header, hs.find? (·.key = text "author") = some header →
        final.1.author = parsePerson header.full) ∧
      (∀ header, hs.find? (·.key = text "committer") = some header →
        final.1.committer = parsePerson header.full) := by
  induction hs generalizing final with
  | nil => exact ⟨fun _ h => (by cases h), fun _ h => (by cases h)⟩
  | cons newest hs ih =>
    rw [List.reverse_cons, List.map_append, List.foldlM_append] at h
    obtain ⟨middle, hbefore, hlast⟩ := bind_eq_ok.1 h
    obtain ⟨hauthor, hcommitter⟩ := ih hbefore
    simp only [map_cons, List.map_nil, foldlM_cons, List.foldlM_nil, bind_pure] at hlast
    obtain ⟨-, hauthor', hcommitter'⟩ := commitHeader_person hlast
    refine ⟨fun header hfind => ?_, fun header hfind => ?_⟩
    · rw [hauthor']
      by_cases hkey : newest.key = text "author"
      · rw [List.find?_cons_of_pos (by simpa using hkey)] at hfind
        rw [if_pos hkey, Option.some.inj hfind]
      · rw [List.find?_cons_of_neg (by simpa using hkey)] at hfind
        rw [if_neg hkey, hauthor header hfind]
    · rw [hcommitter']
      by_cases hkey : newest.key = text "committer"
      · rw [List.find?_cons_of_pos (by simpa using hkey)] at hfind
        rw [if_pos hkey, Option.some.inj hfind]
      · rw [List.find?_cons_of_neg (by simpa using hkey)] at hfind
        rw [if_neg hkey, hcommitter header hfind]

theorem parseCommitText_ok
    (hheaders : (splitHeaders t).headers = hs.reverse.map fun h => (h.key, h.full))
    (h : parseCommitText t = .ok commit) :
    (∀ header, hs.find? (·.key = text "author") = some header →
        commit.author = parsePerson header.full) ∧
      (∀ header, hs.find? (·.key = text "committer") = some header →
        commit.committer = parsePerson header.full) := by
  unfold parseCommitText at h
  dsimp only at h
  rw [hheaders] at h
  obtain ⟨⟨parsed, saw⟩, hfold, h⟩ := bind_eq_ok.1 h
  dsimp only at h
  split at h
  · cases h
  · cases h
    exact foldlM_commitHeader_person hfold

theorem foldlM_commitHeader_message {headers : List (Text × Text)}
    (h : headers.foldlM commitHeader start = .ok final) :
    final.1.message = start.1.message := by
  refine foldlM_ok (fun state => state.1.message = start.1.message) ?_ rfl h
  rintro before ⟨key, value⟩ after - hbefore hheader
  rw [← hbefore]
  exact (commitHeader_person hheader).1

theorem parseCommitText_message (h : parseCommitText t = .ok commit) :
    commit.message = (splitHeaders t).message := by
  unfold parseCommitText at h
  obtain ⟨⟨parsed, saw⟩, hfold, h⟩ := bind_eq_ok.1 h
  dsimp only at h
  split at h
  · cases h
  · cases h
    exact foldlM_commitHeader_message hfold

/-- The object ids of a commit that was read. -/
theorem parseCommit_isOid {data : List UInt8} (h : parseCommit data = .ok commit) :
    isOid commit.tree = true ∧ ∀ oid ∈ commit.parent, isOid oid = true := by
  unfold parseCommit parseCommitText at h
  obtain ⟨⟨parsed, saw⟩, hfold, h⟩ := bind_eq_ok.1 h
  have hinv := foldlM_ok
    (fun state : Commit × Bool => (state.2 = true → isOid state.1.tree = true) ∧
      ∀ oid ∈ state.1.parent, isOid oid = true) ?_ ?_ hfold
  · dsimp only at h
    split at h
    · cases h
    · next hsaw =>
      cases h
      exact ⟨hinv.1 (by simpa using hsaw), hinv.2⟩
  · -- only the two headers that name objects change what the invariant is about
    rintro ⟨before, saw⟩ ⟨key, value⟩ ⟨after, saw'⟩ - ⟨htree, hparent⟩ hheader
    simp only [commitHeader] at hheader
    split_ifs at hheader with hkey hoid hkey hoid
    · cases hheader
      exact ⟨fun _ => hoid, hparent⟩
    · cases hheader
      refine ⟨htree, fun oid hmem => ?_⟩
      rcases mem_append.1 hmem with hmem | hmem
      · exact hparent oid hmem
      · rw [List.mem_singleton.1 hmem]
        exact hoid
    all_goals
      cases hheader
      exact ⟨htree, hparent⟩
  · exact ⟨fun h => (nomatch h), fun oid hmem => nomatch hmem⟩

-- The lines of a commit

/-- The lines before the author, as headers. -/
def frontHeaders (commit : Commit) : List Header :=
  commit.parent.reverse.map (fun oid => ⟨text "parent", oid, []⟩) ++ [⟨text "tree", commit.tree, []⟩]

/-- The text before the blank line. -/
def headLines (commit : Commit) : Text := List.intercalate [0x0a] (commitLines commit)

theorem commitText_eq_head (commit : Commit) :
    commitText commit = headLines commit ++ 0x0a :: 0x0a :: commit.message := by
  have hfeed : text "\n" = [0x0a] := by decide
  have hfeeds : text "\n\n" = [0x0a, 0x0a] := by decide
  rw [commitText, headLines, hfeed, hfeeds, append_assoc]
  rfl

theorem splitOn_keyed (hkey : ∀ u ∈ key, Printable u)
    (hsplit : value.splitOn 0x0a = first :: lines) :
    (key ++ 0x20 :: value).splitOn 0x0a = (key ++ 0x20 :: first) :: lines := by
  have hfree : (0x0a : UInt16) ∉ key ++ [0x20] := by
    intro hmem
    rcases mem_append.1 hmem with hmem | hmem
    · exact (hkey _ hmem).ne_lineFeed rfl
    · exact absurd (List.mem_singleton.1 hmem) (by decide)
  have := splitOn_append_of_not_mem hfree value
  rw [hsplit, List.modifyHead_cons, append_assoc, append_assoc] at this
  exact this

theorem foldl_frontLines (commit : Commit) :
    ((text "tree " ++ commit.tree) :: commit.parent.map (text "parent " ++ ·)).foldl addLine [] =
      frontHeaders commit := by
  have hparents : ∀ (parents : List Text) (hs : List Header),
      (parents.map (text "parent " ++ ·)).foldl addLine hs =
        parents.reverse.map (fun oid => ⟨text "parent", oid, []⟩) ++ hs := by
    intro parents
    induction parents with
    | nil => intro hs; rfl
    | cons oid parents ih =>
      intro hs
      have hline : text "parent " ++ oid = text "parent" ++ 0x20 :: oid := by
        rw [show text "parent " = text "parent" ++ [0x20] by decide, append_assoc]
        rfl
      rw [map_cons, foldl_cons, hline, addLine_cut _ _ (by decide) (by decide), ih]
      simp
  have hline : text "tree " ++ commit.tree = text "tree" ++ 0x20 :: commit.tree := by
    rw [show text "tree " = text "tree" ++ [0x20] by decide, append_assoc]
    rfl
  rw [foldl_cons, hline, addLine_cut _ _ (by decide) (by decide), hparents]
  rfl

theorem splitOn_headLines (h : Unsigned commit)
    (hauthor : (formatPerson commit.author).splitOn 0x0a = first :: lines)
    (hcommitter : (formatPerson commit.committer).splitOn 0x0a = first' :: lines') :
    (headLines commit).splitOn 0x0a =
      ((text "tree " ++ commit.tree) :: commit.parent.map (text "parent " ++ ·)) ++
        ((text "author" ++ 0x20 :: first) :: lines) ++
        ((text "committer" ++ 0x20 :: first') :: lines') := by
  have hone : ∀ (word : String) {oid : Text}, isOid oid = true →
      (∀ u ∈ text word, Printable u) → (text word ++ oid).splitOn 0x0a = [text word ++ oid] := by
    intro word oid hoid hword
    refine List.splitOn_eq_singleton fun hmem => ?_
    rcases mem_append.1 hmem with hmem | hmem
    · exact (hword _ hmem).ne_lineFeed rfl
    · exact (printable_of_isOid hoid _ hmem).ne_lineFeed rfl
  have hparents : ∀ parents : List Text, (∀ oid ∈ parents, isOid oid = true) →
      (parents.map (text "parent " ++ ·)).flatMap (List.splitOn 0x0a) =
        parents.map (text "parent " ++ ·) := by
    intro parents hoids
    induction parents with
    | nil => rfl
    | cons oid parents ih =>
      rw [map_cons, flatMap_cons,
        hone _ (hoids oid mem_cons_self) (printable_text (by decide)),
        ih fun oid hoid => hoids oid (mem_cons_of_mem _ hoid)]
      rfl
  have hword : ∀ (word key : Text) (t : Text), word = key ++ [0x20] → word ++ t = key ++ 0x20 :: t := by
    rintro _ key t rfl
    simp
  have hlines : commitLines commit = (text "tree " ++ commit.tree) ::
      (commit.parent.map (text "parent " ++ ·) ++
        [text "author" ++ 0x20 :: formatPerson commit.author,
          text "committer" ++ 0x20 :: formatPerson commit.committer]) := by
    rw [commitLines, h.gpgsig, hword (text "author ") (text "author") _ (by decide),
      hword (text "committer ") (text "committer") _ (by decide)]
    simp
  rw [headLines, splitOn_intercalate _ (by rw [hlines]; simp), hlines, flatMap_cons,
    List.flatMap_append, hone _ h.tree (printable_text (by decide)), hparents _ h.parents]
  simp only [flatMap_cons, flatMap_nil]
  rw [splitOn_keyed (printable_text (by decide)) hauthor,
    splitOn_keyed (printable_text (by decide)) hcommitter]
  simp

/-- The headers of a commit: those of its author's lines and of its committer's come after the tree
    and the parents. -/
theorem foldl_headLines (h : Unsigned commit)
    (hauthor : (formatPerson commit.author).splitOn 0x0a = first :: lines)
    (hcommitter : (formatPerson commit.committer).splitOn 0x0a = first' :: lines') :
    ((headLines commit).splitOn 0x0a).foldl addLine [] =
      lines'.foldl addLine (⟨text "committer", first', []⟩ ::
        lines.foldl addLine (⟨text "author", first, []⟩ :: frontHeaders commit)) := by
  rw [splitOn_headLines h hauthor hcommitter, List.foldl_append, List.foldl_append,
    foldl_frontLines, foldl_cons, foldl_cons, addLine_cut _ _ (by decide) (by decide),
    addLine_cut _ _ (by decide) (by decide)]

theorem exists_splitOn (t : Text) : ∃ first lines, t.splitOn 0x0a = first :: lines := by
  cases hsplit : t.splitOn 0x0a with
  | nil => exact absurd hsplit (List.splitOn_ne_nil _ _)
  | cons first lines => exact ⟨first, lines, rfl⟩

theorem Unsigned.scrub (h : Unsigned commit) : Unsigned commit.scrub :=
  ⟨h.tree, h.parents, h.gpgsig⟩

/-- A commit that comes back is transparent. -/
theorem readsBack_of_parse (h : Unsigned commit)
    (hparse : parseCommitText (commitText commit.scrub) = .ok commit) :
    ReadsBack commit.author (formatPerson commit.author) ∧
      ReadsBack commit.committer (formatPerson commit.committer) ∧ WellFormed commit.message := by
  have hmessage := parseCommitText_message hparse
  rw [commitText_eq_head] at hmessage hparse
  -- the blank line is where it was written
  have hlength : (splitHeaders (headLines commit.scrub ++
      0x0a :: 0x0a :: commit.scrub.message)).message.length = commit.scrub.message.length := by
    rw [← hmessage]
    exact (length_toWellFormed _).symm
  have hblock := splitHeaders_eq (splitHeaders_message_length hlength)
  have hformed : WellFormed commit.message := by
    rw [hblock] at hmessage
    exact hmessage.symm
  obtain ⟨first, lines, hauthor⟩ := exists_splitOn (formatPerson commit.scrub.author)
  obtain ⟨first', lines', hcommitter⟩ := exists_splitOn (formatPerson commit.scrub.committer)
  have hheaders := foldl_headLines h.scrub hauthor hcommitter
  obtain ⟨hauthors, hcommitters⟩ := parseCommitText_ok (by rw [hblock]) hparse
  rw [hheaders] at hauthors hcommitters
  -- the committer's line is the last one, so the author's header is among its own lines
  obtain ⟨last, hlast⟩ := newest_foldl first' (lines.foldl addLine
    (⟨text "author", first, []⟩ :: frontHeaders commit.scrub)) (show text "committer" ≠ [] by decide)
    (by decide) lines'
  obtain ⟨rfl, hcommitterBack⟩ := readsBack_of_newest (printable_text (by decide)) hcommitter hlast
    (hcommitters last hlast.found).symm
  obtain ⟨newest, hnewest⟩ := newest_foldl first (frontHeaders commit.scrub)
    (show text "author" ≠ [] by decide) (by decide) lines
  have hfound : (List.foldl addLine (⟨text "committer", first', []⟩ :: lines.foldl addLine
      (⟨text "author", first, []⟩ :: frontHeaders commit.scrub)) []).find?
        (·.key = text "author") = some newest := by
    have hkey : text "committer" ≠ text "author" := by decide
    rw [foldl_nil, List.find?_cons_of_neg (by simpa using hkey)]
    exact hnewest.found
  obtain ⟨-, hauthorBack⟩ := readsBack_of_newest (printable_text (by decide)) hauthor hnewest
    (hauthors newest hfound).symm
  exact ⟨hauthorBack.full_eq ▸ hauthorBack, hcommitterBack.full_eq ▸ hcommitterBack, hformed⟩

-- The way back

theorem foldlM_parents {parents : List Text} (h : ∀ oid ∈ parents, isOid oid = true)
    (commit : Commit) (saw : Bool) :
    (parents.map fun oid => (text "parent", oid)).foldlM commitHeader (commit, saw) =
      .ok ({ commit with parent := commit.parent ++ parents }, saw) := by
  induction parents generalizing commit with
  | nil =>
    rw [append_nil]
    rfl
  | cons oid parents ih =>
    have hone : commitHeader (commit, saw) (text "parent", oid) =
        .ok ({ commit with parent := commit.parent ++ [oid] }, saw) := by
      unfold commitHeader
      dsimp only
      rw [if_neg (by decide), if_pos rfl, if_pos (h oid mem_cons_self)]
      rfl
    rw [map_cons, foldlM_cons, hone, ok_bind,
      ih fun oid hoid => h oid (mem_cons_of_mem _ hoid)]
    simp

theorem parsePerson_of_readsBack (h : ReadsBack person full) : parsePerson full = person := by
  rw [h.full_eq, formatPerson_eq, parsePerson_cut _ h.name_open h.email_close, h.time, h.zone]

/-- A transparent commit comes back. -/
theorem parse_of_readsBack (h : Unsigned commit)
    (hauthor : ReadsBack commit.author (formatPerson commit.author))
    (hcommitter : ReadsBack commit.committer (formatPerson commit.committer)) :
    parseCommitText (commitText commit) = .ok commit := by
  have hline : ∀ {person : Person}, ReadsBack person (formatPerson person) →
      (formatPerson person).splitOn 0x0a = [formatPerson person] := by
    intro person hback
    refine List.splitOn_eq_singleton fun hmem => ?_
    rw [formatPerson_eq] at hmem
    simp only [mem_append, mem_cons] at hmem
    rcases hmem with hmem | hmem | hmem | hmem | hmem | hmem
    · exact hback.name_line hmem
    · exact absurd hmem (by decide)
    · exact absurd hmem (by decide)
    · exact hback.email_line hmem
    · exact absurd hmem (by decide)
    · exact (printable_stampText _ _ hmem).ne_lineFeed rfl
  have hsplit := splitOn_headLines h (hline hauthor) (hline hcommitter)
  have hnonempty : ∀ line ∈ (headLines commit).splitOn 0x0a, line ≠ [] := by
    have hword : ∀ {word : Text}, word ≠ [] → ∀ t, word ++ t ≠ [] := fun hne t h =>
      hne (List.append_eq_nil_iff.1 h).1
    rw [hsplit]
    intro line hmem
    simp only [cons_append, mem_cons, mem_append, List.mem_map, List.not_mem_nil,
      or_false] at hmem
    rcases hmem with rfl | (⟨oid, -, rfl⟩ | rfl) | rfl <;> exact hword (by decide) _
  obtain ⟨hnone, hlast⟩ := indexOf_blank_eq_none hnonempty
  have hblock := splitHeaders_eq (indexOf_pair commit.message hnone fun h => absurd h hlast)
  have hheaders : ((⟨text "committer", formatPerson commit.committer, []⟩ : Header) ::
      ⟨text "author", formatPerson commit.author, []⟩ :: frontHeaders commit).reverse.map
        (fun h => (h.key, h.full)) = (text "tree", commit.tree) ::
          (commit.parent.map (fun oid => (text "parent", oid)) ++
            [(text "author", formatPerson commit.author),
              (text "committer", formatPerson commit.committer)]) := by
    simp [frontHeaders, Header.full, Function.comp_def]
  rw [foldl_headLines h (hline hauthor) (hline hcommitter), foldl_nil, foldl_nil,
    hheaders] at hblock
  rw [commitText_eq_head]
  unfold parseCommitText
  rw [hblock]
  dsimp only
  have htree : ∀ commit' : Commit, commitHeader (commit', false) (text "tree", commit.tree) =
      .ok ({ commit' with tree := commit.tree }, true) := by
    intro commit'
    unfold commitHeader
    dsimp only
    rw [if_pos rfl, if_pos h.tree]
    rfl
  have hpersons : ∀ commit' : Commit, [(text "author", formatPerson commit.author),
      (text "committer", formatPerson commit.committer)].foldlM commitHeader (commit', true) =
        .ok ({ commit' with author := commit.author, committer := commit.committer }, true) := by
    intro commit'
    have hfirst : commitHeader (commit', true) (text "author", formatPerson commit.author) =
        .ok ({ commit' with author := commit.author }, true) := by
      unfold commitHeader
      dsimp only
      rw [if_neg (by decide), if_neg (by decide), if_pos rfl, parsePerson_of_readsBack hauthor]
      rfl
    have hsecond : ∀ commit' : Commit, commitHeader (commit', true)
        (text "committer", formatPerson commit.committer) =
          .ok ({ commit' with committer := commit.committer }, true) := by
      intro commit'
      unfold commitHeader
      dsimp only
      rw [if_neg (by decide), if_neg (by decide), if_neg (by decide), if_pos rfl,
        parsePerson_of_readsBack hcommitter]
      rfl
    rw [foldlM_cons, hfirst, ok_bind, foldlM_cons, hsecond, ok_bind]
    rfl
  rw [foldlM_cons, htree, ok_bind, List.foldlM_append, foldlM_parents h.parents, ok_bind,
    hpersons, ok_bind]
  have hcommit : commit = { tree := commit.tree, parent := commit.parent, author := commit.author
                            committer := commit.committer, gpgsig := none
                            message := commit.message } := by
    rw [← h.gpgsig]
  conv_rhs => rw [hcommit]
  rfl

-- Accepted commits

theorem validateCommitNumbers_ok (h : validateCommitNumbers commit = .ok ()) :
    isSafeInteger commit.author.timestamp = true ∧
      isSafeInteger commit.author.timezoneOffset = true ∧
      isSafeInteger commit.committer.timestamp = true ∧
      isSafeInteger commit.committer.timezoneOffset = true := by
  have hone : ∀ (name : String) (value : Int) (rest : Except GitError Unit),
      ((if isSafeInteger value then pure () else
        throw { code := "E2BIG", message := s!"commit has an unrepresentable {name}" } :
          Except GitError Unit) >>= fun _ => rest) = .ok () →
        isSafeInteger value = true ∧ rest = .ok () := by
    intro name value rest h
    by_cases hsafe : isSafeInteger value = true
    · rw [if_pos hsafe] at h
      exact ⟨hsafe, h⟩
    · rw [if_neg hsafe] at h
      cases h
  unfold validateCommitNumbers at h
  obtain ⟨h1, h⟩ := hone _ _ _ h
  obtain ⟨h2, h⟩ := hone _ _ _ h
  obtain ⟨h3, h⟩ := hone _ _ _ h
  obtain ⟨h4, -⟩ := hone _ _ _ h
  exact ⟨h1, h2, h3, h4⟩

/-- A person the format can carry: no line feed, the name and the e-mail without what ends them, no
    unpaired surrogate, and a zone of less than a hundred hours. -/
structure Transparent (person : Person) : Prop where
  name_line : 0x0a ∉ person.name
  name_open : indexOf (text " <") person.name = none
  name_formed : WellFormed person.name
  email_line : 0x0a ∉ person.email
  email_close : 0x3e ∉ person.email
  email_formed : WellFormed person.email
  time : isSafeInteger person.timestamp = true
  zone : person.timezoneOffset.natAbs < 6000

theorem ReadsBack.transparent (h : ReadsBack person (formatPerson person))
    (htime : isSafeInteger person.timestamp = true)
    (hzone : isSafeInteger person.timezoneOffset = true) : Transparent person := by
  have hbounds := isSafeInteger_iff.1 htime
  have hbounds' := isSafeInteger_iff.1 hzone
  unfold maxSafeInteger at hbounds hbounds'
  refine ⟨h.name_line, h.name_open, congrArg Person.name h.scrub_eq, h.email_line, h.email_close,
    congrArg Person.email h.scrub_eq, htime, ?_⟩
  by_contra hlarge
  have hread := h.zone
  rw [readZone_stampText (by omega) (by omega), if_neg hlarge] at hread
  omega

theorem Transparent.readsBack (h : Transparent person) :
    ReadsBack person (formatPerson person) := by
  have hbounds := isSafeInteger_iff.1 h.time
  unfold maxSafeInteger at hbounds
  have hzone := h.zone
  exact ⟨rfl, scrub_eq_of_wellFormed h.name_formed h.email_formed, h.name_line, h.name_open,
    h.email_line, h.email_close, readTime_stampText h.time (by omega), by
      rw [readZone_stampText (by omega) (by omega), if_pos hzone]⟩

/-- A commit that the store accepts comes back exactly when its persons and its message are
    transparent. -/
theorem parseCommit_serializeCommit_iff {parsed : Commit} (h : Unsigned commit)
    (haccept : acceptCommit (serializeCommit commit) = .ok parsed) :
    parseCommit (serializeCommit commit) = .ok commit ↔
      Transparent commit.author ∧ Transparent commit.committer ∧ WellFormed commit.message := by
  constructor
  · intro hparse
    unfold acceptCommit at haccept
    rw [hparse, ok_bind] at haccept
    obtain ⟨⟨⟩, hnumbers, -⟩ := bind_eq_ok.1 haccept
    obtain ⟨htime, hzone, htime', hzone'⟩ := validateCommitNumbers_ok hnumbers
    rw [parseCommit_serializeCommit h] at hparse
    obtain ⟨hauthor, hcommitter, hmessage⟩ := readsBack_of_parse h hparse
    exact ⟨hauthor.transparent htime hzone, hcommitter.transparent htime' hzone', hmessage⟩
  · rintro ⟨hauthor, hcommitter, hmessage⟩
    have hscrub : commit.scrub = commit := by
      rw [Commit.scrub, hauthor.readsBack.scrub_eq, hcommitter.readsBack.scrub_eq, hmessage]
    rw [parseCommit_serializeCommit h, hscrub]
    exact parse_of_readsBack h hauthor.readsBack hcommitter.readsBack

end Kompjutr.Objects
