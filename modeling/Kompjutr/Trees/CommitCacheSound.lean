/-
  Kompjutr.Trees.CommitCacheSound

  A commit read back from its row is the commit of the object, up to byte order marks.

  `parseCommit` decodes the object as a whole, the row is decoded column by column, and each
  decoding drops a mark at its start.  So a column that starts with U+FEFF loses it, and
  nothing else is lost: the texts of a parsed commit are well-formed.
-/
import Kompjutr.Common.JsonSound
import Kompjutr.Objects.CommitFields
import Kompjutr.Trees.CommitCache

namespace Kompjutr.Trees

open Objects (Text text isOid Person Commit parseCommit validateCommitNumbers)
open Utf8 (encode textDecode WellFormed)

/-- A text that starts with a byte order mark. -/
def marked (value : Text) : Bool := value.head? = some 0xfeff

def personMarked (person : Person) : Bool := marked person.name || marked person.email

/-- A column of the commit's row starts with a byte order mark. -/
def rowMarked (source : CommitCacheSource) (commit : Commit) : Bool :=
  personMarked commit.author || personMarked commit.committer ||
    (messageStored source commit && (marked commit.message || commit.gpgsig.any marked))

-- Columns

theorem textDecode_encode_eq {value : Text} (h : WellFormed value) :
    textDecode (encode value) = value ↔ marked value = false := by
  rw [Utf8.textDecode_encode_iff h, marked, decide_eq_false_iff_not]

/-- A person from its columns. -/
def personOf (person : Person) : Person :=
  { name := textDecode (encode person.name), email := textDecode (encode person.email)
    timestamp := person.timestamp, timezoneOffset := person.timezoneOffset }

theorem personOf_eq {person : Person} (hname : WellFormed person.name)
    (hemail : WellFormed person.email) : personOf person = person ↔ personMarked person = false := by
  rw [personMarked, Bool.or_eq_false_iff, ← textDecode_encode_eq hname,
    ← textDecode_encode_eq hemail]
  exact ⟨fun h => ⟨congrArg Person.name h, congrArg Person.email h⟩,
    fun h => by rw [personOf, h.1, h.2]⟩

theorem gpgsig_eq {gpgsig : Option Text} (h : ∀ signature ∈ gpgsig, WellFormed signature) :
    (gpgsig.map encode).map textDecode = gpgsig ↔ gpgsig.any marked = false := by
  cases gpgsig with
  | none => exact iff_of_true rfl rfl
  | some signature =>
    exact Option.some_inj.trans (textDecode_encode_eq (h signature rfl))

theorem plain_of_isOid {oid : Text} (h : isOid oid = true) : ∀ unit ∈ oid, Json.Plain unit := by
  intro unit hunit
  have hall := (Bool.and_eq_true_iff.1 h).2
  have hdigit := List.all_eq_true.1 hall unit hunit
  simp only [Objects.isDigit, Bool.or_eq_true, Bool.and_eq_true, decide_eq_true_eq,
    UInt16.le_iff_toNat_le] at hdigit
  have hne : unit ≠ 0x22 ∧ unit ≠ 0x5c := by
    constructor
    · rintro rfl
      exact absurd hdigit (by decide)
    · rintro rfl
      exact absurd hdigit (by decide)
  refine ⟨?_, ?_, hne.1, hne.2⟩
  · rcases hdigit with hdigit | hdigit
    · exact le_trans (by decide) hdigit.1
    · exact le_trans (by decide) hdigit.1
  · rcases hdigit with hdigit | hdigit
    · exact lt_of_le_of_lt hdigit.2 (by decide)
    · exact lt_of_le_of_lt hdigit.2 (by decide)

theorem parentsField_stringifyArray {commit : Commit} {data : List UInt8}
    (h : parseCommit data = .ok commit) :
    parentsField (Json.stringifyArray commit.parent) = .ok commit.parent := by
  have hparents := (Objects.parseCommit_isOid h).2
  rw [parentsField, Json.parseStringArray_stringifyArray fun oid hoid =>
    plain_of_isOid (hparents oid hoid)]

-- Rows

variable {source : CommitCacheSource}

theorem parseAuthenticatedCommit_ok {hashObject : List UInt8 → Text}
    {commit : Commit} (h : parseAuthenticatedCommit hashObject source = .ok commit) :
    parseCommit source.data = .ok commit ∧ validateCommitNumbers commit = .ok () := by
  unfold parseAuthenticatedCommit at h
  split at h
  · cases h
  split at h
  · cases h
  split at h
  · cases h
  obtain ⟨parsed, hparse, h⟩ := Fuel.bind_eq_ok.1 h
  generalize hvalid : validateCommitNumbers parsed = checked at h
  cases checked with
  | error e => cases h
  | ok _ =>
    cases h
    exact ⟨hparse, hvalid⟩

/-- The commit that an entry was prepared from. -/
theorem prepareCommitCache_ok {hashObject : List UInt8 → Text}
    {entry : CommitCacheEntry} (h : prepareCommitCache hashObject source = .ok entry) :
    ∃ commit, parseCommit source.data = .ok commit ∧ validateCommitNumbers commit = .ok () ∧
      entry = entryOf source (if messageStored source commit then .complete commit
        else .headers (headersOf commit)) := by
  obtain ⟨commit, hcommit, h⟩ := Fuel.bind_eq_ok.1 h
  obtain ⟨hparse, hvalid⟩ := parseAuthenticatedCommit_ok hcommit
  refine ⟨commit, hparse, hvalid, ?_⟩
  split at h
  · next hstored =>
    rw [if_pos hstored]
    exact (Except.ok.inj h).symm
  · next hstored =>
    rw [if_neg hstored]
    dsimp only at h
    split at h
    · cases h
    · exact (Except.ok.inj h).symm

/-- A row passes the checks on its numbers. -/
theorem checkRow_storedRow {commit : Commit} {cached : CachedCommit}
    (hvalid : validateCommitNumbers commit = .ok ()) (hcached : cached.headersOf = headersOf commit) :
    checkRow (storedRow (entryOf source cached)) = .ok () := by
  obtain ⟨h1, h2, h3, h4⟩ := Objects.validateCommitNumbers_ok hvalid
  have hall : ∀ columns : List (String × Int),
      (∀ column ∈ columns, isSafeInteger column.2 = true) →
        (columns.forM fun column => if isSafeInteger column.2 then .ok () else
          .error (corrupt s!"commit cache has invalid {column.1}") : Except GitError Unit) = .ok () := by
    intro columns hcolumns
    induction columns with
    | nil => rfl
    | cons column columns ih =>
      obtain ⟨name, value⟩ := column
      have hfirst : isSafeInteger value = true := hcolumns (name, value) List.mem_cons_self
      have hrest := ih fun other hother => hcolumns other (List.mem_cons_of_mem _ hother)
      rw [List.forM_eq_forM] at hrest ⊢
      rw [List.forM_cons, hrest]
      dsimp only
      rw [if_pos hfirst]
      rfl
  unfold checkRow storedRow entryOf
  rw [hcached]
  refine hall _ fun column hcolumn => ?_
  simp only [headersOf, List.mem_cons, List.not_mem_nil, or_false] at hcolumn
  rcases hcolumn with rfl | rfl | rfl | rfl | rfl
  · exact h1
  · exact h2
  · exact h3
  · exact h4
  · exact source.length_safe

/-- What is read back from the row of an entry. -/
theorem decodeCommitCacheRow_storedRow {commit : Commit}
    {cached : CachedCommit} (hparse : parseCommit source.data = .ok commit)
    (hvalid : validateCommitNumbers commit = .ok ()) (hcached : cached.headersOf = headersOf commit) :
    decodeCommitCacheRow source.repoId source.oid (storedRow (entryOf source cached)) =
      .ok (entryOf source (match cached.message with
        | none => .headers { headersOf commit with
            author := personOf commit.author, committer := personOf commit.committer }
        | some message => .complete
            { tree := commit.tree, parent := commit.parent, author := personOf commit.author
              committer := personOf commit.committer
              gpgsig := (cached.gpgsig.map encode).map textDecode
              message := textDecode (encode message) })) := by
  have hparents : parentsField (storedRow (entryOf source cached)).parents = .ok commit.parent := by
    simp only [storedRow, entryOf, hcached, headersOf]
    exact parentsField_stringifyArray hparse
  rw [decodeCommitCacheRow, checkRow_storedRow hvalid hcached, hparents]
  simp only [storedRow, entryOf, hcached, headersOf]
  cases cached.message with
  | none => rfl
  | some message => rfl

/-- A row that keeps the message. -/
theorem complete_eq_iff {commit : Commit} (hformed : commit.Formed) :
    ({ tree := commit.tree, parent := commit.parent, author := personOf commit.author
       committer := personOf commit.committer
       gpgsig := (commit.gpgsig.map encode).map textDecode
       message := textDecode (encode commit.message) } : Commit) = commit ↔
      personMarked commit.author = false ∧ personMarked commit.committer = false ∧
        marked commit.message = false ∧ commit.gpgsig.any marked = false := by
  rw [← personOf_eq hformed.author_name hformed.author_email,
    ← personOf_eq hformed.committer_name hformed.committer_email,
    ← textDecode_encode_eq hformed.message, ← gpgsig_eq hformed.gpgsig]
  constructor
  · intro h
    exact ⟨congrArg Commit.author h, congrArg Commit.committer h, congrArg Commit.message h,
      congrArg Commit.gpgsig h⟩
  · rintro ⟨hauthor, hcommitter, hmessage, hgpgsig⟩
    rw [hauthor, hcommitter, hmessage, hgpgsig]

/-- A row that leaves the message to the object. -/
theorem completed_eq_iff {commit : Commit} (hformed : commit.Formed) :
    ({ commit with author := personOf commit.author
                   committer := personOf commit.committer } : Commit) = commit ↔
      personMarked commit.author = false ∧ personMarked commit.committer = false := by
  rw [← personOf_eq hformed.author_name hformed.author_email,
    ← personOf_eq hformed.committer_name hformed.committer_email]
  constructor
  · intro h
    exact ⟨congrArg Commit.author h, congrArg Commit.committer h⟩
  · rintro ⟨hauthor, hcommitter⟩
    rw [hauthor, hcommitter]

/-- The row of an accepted commit reads back as the commit of the object, on its own where it
    keeps the message and completed from the object where it does not. -/
def ReadsBack (read : Text → Option (List UInt8)) (source : CommitCacheSource)
    (entry : CommitCacheEntry) (commit : Commit) : Prop :=
  (messageStored source commit = true →
    decodeCommitCacheRow source.repoId source.oid (storedRow entry) =
      .ok (entryOf source (.complete commit))) ∧
  readCommitOwned read source.repoId source.oid (storedRow entry) = .ok commit

/-- A row reads back as the commit of its object exactly when no column of it starts with a
    byte order mark. -/
theorem readsBack_iff {hashObject : List UInt8 → Text} {source : CommitCacheSource}
    {entry : CommitCacheEntry} (hentry : prepareCommitCache hashObject source = .ok entry)
    {read : Text → Option (List UInt8)} (hread : read source.oid = some source.data) :
    ∃ commit, parseCommit source.data = .ok commit ∧
      (ReadsBack read source entry commit ↔ rowMarked source commit = false) := by
  obtain ⟨commit, hparse, hvalid, rfl⟩ := prepareCommitCache_ok hentry
  have hformed := Objects.parseCommit_formed hparse
  refine ⟨commit, hparse, ?_⟩
  unfold ReadsBack rowMarked readCommitOwned
  cases hstored : messageStored source commit with
  | true =>
    have hcolumns := complete_eq_iff hformed
    rw [if_pos rfl, decodeCommitCacheRow_storedRow hparse hvalid rfl]
    simp only [Bool.true_and, Bool.or_eq_false_iff, and_assoc]
    rw [← hcolumns]
    constructor
    · rintro ⟨-, hread⟩
      exact Except.ok.inj hread
    · intro heq
      refine ⟨fun _ => ?_, congrArg Except.ok heq⟩
      exact congrArg (fun c => Except.ok (entryOf source (.complete c))) heq
  | false =>
    have hcolumns := completed_eq_iff hformed
    rw [if_neg Bool.false_ne_true, decodeCommitCacheRow_storedRow hparse hvalid rfl]
    have hcompleted : (Except.ok (entryOf source (.headers { headersOf commit with
        author := personOf commit.author, committer := personOf commit.committer })) :
          Except GitError CommitCacheEntry).bind (completeCommit read) =
        .ok { commit with author := personOf commit.author
                          committer := personOf commit.committer } := by
      simp only [Except.bind, completeCommit, entryOf, hread, hparse, headersOf]
      rfl
    simp only [Bool.false_and, Bool.or_false, Bool.or_eq_false_iff]
    rw [← hcolumns]
    constructor
    · rintro ⟨-, hread⟩
      exact Except.ok.inj (hcompleted.symm.trans hread)
    · intro heq
      refine ⟨fun h => absurd h Bool.false_ne_true, hcompleted.trans (congrArg Except.ok heq)⟩

/-- A commit with this message. -/
def sourceWith (oid : String) (message : List UInt8)
    (h : message.length ≤ 100) : CommitCacheSource :=
  { repoId := 1
    oid := text oid
    data := Objects.ascii "tree 4b825dc642cb6eb9a060e54bf8d69288fbee4904\n" ++
      Objects.ascii "author A <a> 0 +0000\ncommitter A <a> 0 +0000\n\n" ++ message
    length_safe := by
      rw [isSafeInteger_iff, List.length_append, List.length_append]
      have hfront : (Objects.ascii "tree 4b825dc642cb6eb9a060e54bf8d69288fbee4904\n").length = 46 := rfl
      have hidentities :
          (Objects.ascii "author A <a> 0 +0000\ncommitter A <a> 0 +0000\n\n").length = 46 := rfl
      rw [hfront, hidentities]
      unfold maxSafeInteger
      omega }

/-- What `parseCommit` reads there. -/
def commitWith (message : Text) : Commit :=
  let person : Person := { name := text "A", email := text "a", timestamp := 0, timezoneOffset := 0 }
  { tree := text "4b825dc642cb6eb9a060e54bf8d69288fbee4904", parent := [], author := person
    committer := person, gpgsig := none, message }

/-- A message that starts with U+FEFF.  The object id is the SHA-1 of the bytes. -/
def markedSource : CommitCacheSource :=
  sourceWith "6fcebf25a2c3c3269c97710d3d46781570fe51ff" [0xef, 0xbb, 0xbf, 0x68, 0x69] (by decide)

/-- The row loses the mark at the start of its message. -/
theorem mark_lost :
    ¬ ∀ (hashObject : List UInt8 → Text) (source : CommitCacheSource) (entry : CommitCacheEntry)
        (read : Text → Option (List UInt8)) (commit : Commit),
      prepareCommitCache hashObject source = .ok entry → read source.oid = some source.data →
        parseCommit source.data = .ok commit → ReadsBack read source entry commit := by
  intro h
  have hread := (h (fun _ => markedSource.oid) markedSource
    (entryOf markedSource (.complete (commitWith [0xfeff, 0x68, 0x69])))
    (fun _ => some markedSource.data) (commitWith [0xfeff, 0x68, 0x69])
    (by decide +kernel) rfl (by decide +kernel)).2
  have hlost : readCommitOwned (fun _ => some markedSource.data) markedSource.repoId
      markedSource.oid (storedRow (entryOf markedSource (.complete
        (commitWith [0xfeff, 0x68, 0x69])))) = .ok (commitWith [0x68, 0x69]) := by
    decide +kernel
  rw [hlost] at hread
  exact absurd (Except.ok.inj hread) (by decide)

/-- A message without a mark. -/
def plainSource : CommitCacheSource :=
  sourceWith "0d468e4dfd7272375d558694f14d08b19dcc1b9d" [0x68, 0x69] (by decide)

theorem plainSource_readsBack :
    prepareCommitCache (fun _ => plainSource.oid) plainSource =
        .ok (entryOf plainSource (.complete (commitWith [0x68, 0x69]))) ∧
      ∃ commit, parseCommit plainSource.data = .ok commit ∧
        (ReadsBack (fun _ => some plainSource.data) plainSource
          (entryOf plainSource (.complete (commitWith [0x68, 0x69]))) commit ↔
          rowMarked plainSource commit = false) := by
  have hentry : prepareCommitCache (fun _ => plainSource.oid) plainSource =
      .ok (entryOf plainSource (.complete (commitWith [0x68, 0x69]))) := by decide +kernel
  exact ⟨hentry, readsBack_iff hentry rfl⟩

end Kompjutr.Trees
