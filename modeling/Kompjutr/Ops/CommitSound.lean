/-
  Kompjutr.Ops.CommitSound

  What the operations write reads back as what they were given.

  `commit` and `commitIndex` check the committer, through the reflog entry of the ref
  they move, and nothing of the author; `commitTree` checks both, and overlooks one
  kind of unpaired surrogate.
-/
import Kompjutr.Objects.CommitRoundTrip
import Kompjutr.Ops.Commit

namespace Kompjutr.Ops

open Objects
open Refs (RefLogMetadata PlainText LogTimes isBreak validateRefLogMetadata
  validateRefLogMetadata_ok)
open Utf8 (isHigh isLow WellFormed)
open Fuel

variable {t tree message oid value : Text} {person : Person} {context : GitContext}
  {options : CommitTreeOptions}

variable {parent : List Text} {identities : CommitIdentities} {repo : Repository} {label : String}
  {bytes : Nat}

-- Checked persons

theorem indexOf_open_eq_none (h : 0x3c ∉ t) : indexOf (text " <") t = none := by
  induction t with
  | nil => rfl
  | cons u t ih =>
    obtain ⟨-, hrest⟩ := not_or.1 (fun hmem => h (List.mem_cons.2 hmem))
    have hstarts : (text " <").isPrefixOf (u :: t) = false := by
      rw [Bool.eq_false_iff]
      intro hmatch
      obtain ⟨rest, hrest⟩ := List.isPrefixOf_iff_prefix.1 hmatch
      exact h (hrest ▸ List.mem_append_left _ (List.mem_cons_of_mem _ List.mem_cons_self))
    rw [indexOf, hstarts, if_neg Bool.false_ne_true, ih hrest]
    rfl

/-- What a checked identity gives is carried by the format. -/
theorem transparent_of_plain (hname : PlainText person.name)
    (hemail : PlainText person.email) (htimes : LogTimes person.timestamp person.timezoneOffset) :
    Transparent person := by
  have hunbroken : ∀ {value : Text}, PlainText value → 0x0a ∉ value := by
    intro value hplain hmem
    exact absurd (hplain.unbroken _ hmem) (by decide)
  have hzone := htimes.zone
  exact ⟨hunbroken hname, indexOf_open_eq_none hname.opens, hname.formed, hunbroken hemail,
    hemail.closes, hemail.formed, htimes.safe, by omega⟩

theorem transparent_of_metadata {committer : Person} {reason : Text} {accepted : RefLogMetadata}
    (h : validateRefLogMetadata (committerRefLogMetadata committer reason) = .ok accepted) :
    Transparent committer := by
  obtain ⟨-, htimes, hactor⟩ := validateRefLogMetadata_ok h
  obtain ⟨hname, hemail⟩ := hactor _ rfl
  exact transparent_of_plain hname hemail htimes

-- What is written

/-- The bytes read back as the fields they were written for. -/
def ReadsAsGiven (written : Commit × List UInt8) : Prop := parseCommit written.2 = .ok written.1

instance (written : Commit × List UInt8) : Decidable (ReadsAsGiven written) :=
  inferInstanceAs (Decidable (_ = _))

section

variable {written : Commit × List UInt8}
  (h : writeSerializedCommit tree parent identities message = .ok written)

include h

theorem writeSerializedCommit_ok :
    written.1 = { tree, parent, author := identities.author, committer := identities.committer
                  gpgsig := none, message } ∧
      written.2 = serializeCommit written.1 ∧
      ∃ parsed, acceptCommit (serializeCommit written.1) = .ok parsed := by
  unfold writeSerializedCommit writeCommit at h
  obtain ⟨⟨⟩, haccept, h⟩ := bind_eq_ok.1 h
  replace haccept := Fuel.after_check haccept
  obtain ⟨parsed, haccept, -⟩ := bind_eq_ok.1 haccept
  cases h
  exact ⟨rfl, rfl, parsed, haccept⟩

/-- The round trip of a written commit, for any tree and parents. -/
theorem readsAsGiven_iff (htree : isOid tree = true) :
    ReadsAsGiven written ↔ (∀ oid ∈ parent, isOid oid = true) ∧ Transparent identities.author ∧
      Transparent identities.committer ∧ WellFormed message := by
  obtain ⟨hgiven, hdata, parsed, haccept⟩ := writeSerializedCommit_ok h
  unfold ReadsAsGiven
  rw [hdata]
  constructor
  · intro hparse
    -- a commit that was read names object ids, so these parents were
    have hparent := (parseCommit_isOid hparse).2
    rw [hgiven] at hparent hparse haccept
    exact ⟨hparent, (parseCommit_serializeCommit_iff ⟨htree, hparent, rfl⟩ haccept).1 hparse⟩
  · rintro ⟨hparent, hrest⟩
    rw [hgiven] at haccept ⊢
    exact (parseCommit_serializeCommit_iff ⟨htree, hparent, rfl⟩ haccept).2 hrest

end

theorem readCommit_ok {commit : Commit} (h : readCommit repo oid = .ok commit) :
    isOid oid = true ∧ ∀ parent ∈ commit.parent, isOid parent = true := by
  unfold readCommit at h
  split at h
  · cases h
  · next hfound => exact ⟨repo.isOid_of_object hfound, (parseCommit_isOid h).2⟩
  · cases h

-- `commit` and `commitIndex`

/-- The author that `commit` takes from its options, the amended commit, the environment and the
    configuration. -/
def resolveAuthor (context : GitContext) (repo : Repository) (options : CommitOptions) :
    Except GitError Person := do
  let amended ← amendedCommit repo options.amend
  let identities ←
    resolveIdentity context repo options.author options.committer options.env amended
  return identities.author

theorem amendedCommit_ok {amend : Bool} {amended : Option Commit}
    (h : amendedCommit repo amend = .ok amended) :
    ∀ commit ∈ amended, ∀ parent ∈ commit.parent, isOid parent = true := by
  unfold amendedCommit at h
  split at h
  · rw [map_eq_pure_bind] at h
    obtain ⟨commit, hread, h⟩ := bind_eq_ok.1 h
    cases h
    unfold readAmended at hread
    split at hread
    · cases hread
    · rintro _ ⟨⟩
      exact (readCommit_ok hread).2
  · cases h
    rintro _ ⟨⟩

theorem headTree_ok {tree : Option Text} (h : headTree repo none = .ok tree) :
    ∀ oid ∈ repo.head.oid, isOid oid = true := by
  intro oid hmem
  unfold headTree at h
  rw [hmem] at h
  dsimp only at h
  rw [map_eq_pure_bind] at h
  obtain ⟨commit, hread, -⟩ := bind_eq_ok.1 h
  exact (readCommit_ok hread).1

theorem commit_readsAsGiven_iff {options : CommitOptions}
    {written : Commit × List UInt8} (h : commit context repo options = .ok written) :
    ReadsAsGiven written ↔
      (∀ author, resolveAuthor context repo options = .ok author → Transparent author) ∧
        WellFormed (cleanMessage options.message) := by
  unfold commit at h
  replace h := Fuel.after_check h
  replace h := Fuel.after_check h
  obtain ⟨amended, hamended, h⟩ := bind_eq_ok.1 h
  obtain ⟨tree, htree, h⟩ := bind_eq_ok.1 h
  obtain ⟨identities, hidentities, h⟩ := bind_eq_ok.1 h
  obtain ⟨indexTree, hindex, h⟩ := bind_eq_ok.1 h
  obtain ⟨written', hwritten, h⟩ := bind_eq_ok.1 h
  replace h := Fuel.after_check h
  obtain ⟨accepted, hmetadata, h⟩ := bind_eq_ok.1 h
  cases h
  have hauthor : resolveAuthor context repo options = .ok identities.author := by
    rw [resolveAuthor, hamended, ok_bind, hidentities, ok_bind]
    rfl
  rw [readsAsGiven_iff hwritten (repo.isOid_of_indexTree hindex), hauthor]
  constructor
  · rintro ⟨-, htransparent, -, hmessage⟩
    refine ⟨fun author heq => ?_, hmessage⟩
    exact Except.ok.inj heq ▸ htransparent
  · rintro ⟨htransparent, hmessage⟩
    refine ⟨fun oid hmem => ?_, htransparent _ rfl, transparent_of_metadata hmetadata, hmessage⟩
    cases amended with
    | some commit => exact amendedCommit_ok hamended commit rfl oid hmem
    | none => exact headTree_ok htree oid (Option.mem_toList.1 hmem)

theorem commitIndex_readsAsGiven_iff {options : IndexedCommitOptions}
    {written : Commit × List UInt8} (h : commitIndex repo options = .ok written) :
    ReadsAsGiven written ↔ (∀ oid ∈ options.parent, isOid oid = true) ∧
      Transparent options.identities.author ∧ WellFormed (cleanMessage options.message) := by
  unfold commitIndex at h
  replace h := Fuel.after_check h
  replace h := Fuel.after_check h
  obtain ⟨tree, -, h⟩ := bind_eq_ok.1 h
  obtain ⟨indexTree, hindex, h⟩ := bind_eq_ok.1 h
  obtain ⟨written', hwritten, h⟩ := bind_eq_ok.1 h
  obtain ⟨accepted, hmetadata, h⟩ := bind_eq_ok.1 h
  cases h
  rw [readsAsGiven_iff hwritten (repo.isOid_of_indexTree hindex)]
  constructor
  · rintro ⟨hparent, hauthor, -, hmessage⟩
    exact ⟨hparent, hauthor, hmessage⟩
  · rintro ⟨hparent, hauthor, hmessage⟩
    exact ⟨hparent, hauthor, transparent_of_metadata hmetadata, hmessage⟩

-- `commitTree`

/-- The last unit is the first half of a pair. -/
def endsHigh (t : Text) : Bool := t.getLast?.any isHigh

theorem endsHigh_singleton (u : UInt16) : endsHigh [u] = isHigh u := rfl

theorem endsHigh_cons (u : UInt16) (h : t ≠ []) : endsHigh (u :: t) = endsHigh t := by
  unfold endsHigh
  rw [List.getLast?_cons, List.getLast?_eq_some_getLast h]
  rfl

theorem not_isHigh_of_isLow {u : UInt16} (h : isLow u = true) : isHigh u = false := by
  rw [Bool.eq_false_iff]
  intro hhigh
  have hlow' := Utf8.isLow_iff.1 h
  have hhigh' := Utf8.isHigh_iff.1 hhigh
  omega

/-- A counted text is well-formed but for a pair that its end cuts. -/
theorem commitTreeTextBytesFrom_ok {forbidden : UInt16 → Bool} {total : Nat}
    (h : commitTreeTextBytesFrom label forbidden bytes value = .ok total) :
    (∀ unit ∈ value, forbidden unit = true → isLow unit = true) ∧
      (WellFormed value ↔ endsHigh value = false) := by
  fun_induction commitTreeTextBytesFrom label forbidden bytes value with
  | case1 => exact ⟨nofun, ⟨fun _ => rfl, fun _ => rfl⟩⟩
  | case2 => cases h
  | case3 => cases h
  | case4 bytes unit hforbidden hhigh =>
    -- the defect: nothing follows the first half of a pair
    refine ⟨fun u hu hu' => ?_, ?_⟩
    · rw [List.mem_singleton.1 hu] at hu'
      exact absurd hu' hforbidden
    · rw [endsHigh_singleton, hhigh]
      exact ⟨fun hformed => absurd hformed (Utf8.not_wellFormed_high hhigh), fun h => (nomatch h)⟩
  | case5 => cases h
  | case6 => cases h
  | case7 bytes unit hforbidden hhigh low rest hlow _ ih =>
    obtain ⟨hrest, hformed⟩ := ih h
    rw [Bool.not_eq_true, Bool.not_eq_false'] at hlow
    refine ⟨fun u hu hu' => ?_, ?_⟩
    · rcases List.mem_cons.1 hu with rfl | hu
      · exact absurd hu' hforbidden
      · rcases List.mem_cons.1 hu with rfl | hu
        · exact hlow
        · exact hrest u hu hu'
    · rw [Utf8.wellFormed_pair hhigh hlow, hformed, endsHigh_cons unit (List.cons_ne_nil _ _)]
      cases rest with
      | nil =>
        rw [endsHigh_singleton, not_isHigh_of_isLow hlow]
        exact ⟨fun _ => rfl, fun _ => rfl⟩
      | cons next rest => rw [endsHigh_cons low (List.cons_ne_nil _ _)]
  | case8 => cases h
  | case9 => cases h
  | case10 bytes unit rest hforbidden hhigh hlow _ ih =>
    obtain ⟨hrest, hformed⟩ := ih h
    have hplain : ¬ (isHigh unit || isLow unit) = true := by
      rw [Bool.or_eq_true]
      exact not_or.2 ⟨hhigh, hlow⟩
    refine ⟨fun u hu hu' => ?_, ?_⟩
    · rcases List.mem_cons.1 hu with rfl | hu
      · exact absurd hu' hforbidden
      · exact hrest u hu hu'
    · have hcut := Utf8.wellFormed_cut [] rest hplain
      rw [List.nil_append] at hcut
      rw [hcut, hformed]
      cases rest with
      | nil =>
        rw [endsHigh_singleton, Bool.eq_false_iff.2 hhigh]
        exact ⟨fun _ => rfl, fun _ => ⟨rfl, rfl⟩⟩
      | cons next rest =>
        rw [endsHigh_cons unit (List.cons_ne_nil _ _)]
        exact ⟨fun h => h.2, fun h => ⟨rfl, h⟩⟩

theorem validateIdentityText_ok (h : validateIdentityText value label = .ok bytes) :
    0x0a ∉ value ∧ 0x3c ∉ value ∧ 0x3e ∉ value ∧ (WellFormed value ↔ endsHigh value = false) := by
  obtain ⟨hunits, hformed⟩ := commitTreeTextBytesFrom_ok h
  refine ⟨fun hmem => ?_, fun hmem => ?_, fun hmem => ?_, hformed⟩
  · exact absurd (hunits _ hmem (by decide)) (by decide)
  · exact absurd (hunits _ hmem (by decide)) (by decide)
  · exact absurd (hunits _ hmem (by decide)) (by decide)

theorem validateCommitPerson_ok (h : validateCommitPerson person label = .ok bytes) :
    Transparent person ↔ endsHigh person.name = false ∧ endsHigh person.email = false := by
  unfold validateCommitPerson at h
  obtain ⟨_, hname, h⟩ := bind_eq_ok.1 h
  obtain ⟨_, hemail, h⟩ := bind_eq_ok.1 h
  replace h := Fuel.after_check h
  obtain ⟨⟨⟩, htime, h⟩ := bind_eq_ok.1 h
  obtain ⟨⟨⟩, hzone, -⟩ := bind_eq_ok.1 h
  rw [reject_eq_ok] at htime hzone
  simp only [Bool.or_eq_false_iff, Bool.not_eq_false', decide_eq_false_iff_not] at htime hzone
  obtain ⟨hnameLine, hnameOpen, -, hnameFormed⟩ := validateIdentityText_ok hname
  obtain ⟨hemailLine, -, hemailClose, hemailFormed⟩ := validateIdentityText_ok hemail
  constructor
  · intro htransparent
    exact ⟨hnameFormed.1 htransparent.name_formed, hemailFormed.1 htransparent.email_formed⟩
  · rintro ⟨hnameEnd, hemailEnd⟩
    exact ⟨hnameLine, indexOf_open_eq_none hnameOpen, hnameFormed.2 hnameEnd, hemailLine,
      hemailClose, hemailFormed.2 hemailEnd, htime.1, by omega⟩

theorem validateCommitIdentities_ok (h : validateCommitIdentities identities = .ok bytes) :
    Transparent identities.author ∧ Transparent identities.committer ↔
      (endsHigh identities.author.name = false ∧ endsHigh identities.author.email = false) ∧
        endsHigh identities.committer.name = false ∧ endsHigh identities.committer.email = false := by
  unfold validateCommitIdentities at h
  obtain ⟨_, hauthor, h⟩ := bind_eq_ok.1 h
  obtain ⟨_, hcommitter, -⟩ := bind_eq_ok.1 h
  rw [validateCommitPerson_ok hauthor, validateCommitPerson_ok hcommitter]

theorem checkCommitTreeInput_ok (h : checkCommitTreeInput options = .ok bytes) :
    WellFormed options.message ↔ endsHigh options.message = false := by
  unfold checkCommitTreeInput at h
  replace h := Fuel.after_check h
  replace h := Fuel.after_check h
  obtain ⟨_, -, h⟩ := bind_eq_ok.1 h
  obtain ⟨_, hmessage, -⟩ := bind_eq_ok.1 h
  exact (commitTreeTextBytesFrom_ok hmessage).2

theorem authenticateCommitTreeObject_ok {type : ObjectType}
    (h : authenticateCommitTreeObject repo oid type = .ok ()) : isOid oid = true := by
  unfold authenticateCommitTreeObject at h
  split at h
  · cases h
  · next hfound => exact repo.isOid_of_object hfound

theorem resolveParent_ok {parent' : List Text} {expression : Text}
    (hparent : ∀ oid ∈ parent, isOid oid = true)
    (h : resolveParent repo parent expression = .ok parent') :
    ∀ oid ∈ parent', isOid oid = true := by
  unfold resolveParent at h
  obtain ⟨found, -, h⟩ := bind_eq_ok.1 h
  split at h
  · cases h
    exact hparent
  · obtain ⟨⟨⟩, hobject, h⟩ := bind_eq_ok.1 h
    cases h
    exact List.forall_mem_append.2
      ⟨hparent, List.forall_mem_singleton.2 (authenticateCommitTreeObject_ok hobject)⟩

/-- No name, e-mail or message of a detached commit ends inside a pair. -/
def NoneEndsHigh (identities : CommitIdentities) (message : Text) : Prop :=
  ((endsHigh identities.author.name = false ∧ endsHigh identities.author.email = false) ∧
    endsHigh identities.committer.name = false ∧ endsHigh identities.committer.email = false) ∧
    endsHigh message = false

theorem commitTree_readsAsGiven_iff {written : Commit × List UInt8}
    (h : commitTree context repo options = .ok written) :
    ReadsAsGiven written ↔ ∀ identities,
      resolveIdentity context repo options.author options.committer options.env none =
        .ok identities → NoneEndsHigh identities options.message := by
  unfold commitTree at h
  obtain ⟨_, hinput, h⟩ := bind_eq_ok.1 h
  obtain ⟨tree, -, h⟩ := bind_eq_ok.1 h
  obtain ⟨⟨⟩, htree, h⟩ := bind_eq_ok.1 h
  obtain ⟨parent, hparent, h⟩ := bind_eq_ok.1 h
  obtain ⟨identities, hidentities, h⟩ := bind_eq_ok.1 h
  obtain ⟨_, hvalid, h⟩ := bind_eq_ok.1 h
  obtain ⟨_, -, hwritten⟩ := bind_eq_ok.1 h
  have hoids := foldlM_ok (fun parent => ∀ oid ∈ parent, isOid oid = true)
    (fun before expression after _ hbefore hstep => resolveParent_ok hbefore hstep)
    (fun oid hmem => absurd hmem List.not_mem_nil) hparent
  rw [readsAsGiven_iff hwritten (authenticateCommitTreeObject_ok htree),
    checkCommitTreeInput_ok hinput, ← @and_assoc (Transparent identities.author),
    validateCommitIdentities_ok hvalid]
  constructor
  · rintro ⟨-, hends⟩ found heq
    rw [hidentities] at heq
    exact Except.ok.inj heq ▸ hends
  · intro hends
    exact ⟨hoids, hends identities hidentities⟩

-- All three

/-- Exactly when the object that each of the operations writes reads back as it was given. -/
theorem written_reads_as_given_iff (context : GitContext) (repo : Repository)
    (options : CommitOptions) (indexed : IndexedCommitOptions) (detached : CommitTreeOptions)
    (written : Commit × List UInt8) :
    (commit context repo options = .ok written →
      (ReadsAsGiven written ↔
        (∀ author, resolveAuthor context repo options = .ok author → Transparent author) ∧
          WellFormed (cleanMessage options.message))) ∧
    (commitIndex repo indexed = .ok written →
      (ReadsAsGiven written ↔ (∀ oid ∈ indexed.parent, isOid oid = true) ∧
        Transparent indexed.identities.author ∧ WellFormed (cleanMessage indexed.message))) ∧
    (commitTree context repo detached = .ok written →
      (ReadsAsGiven written ↔ ∀ identities,
        resolveIdentity context repo detached.author detached.committer detached.env none =
          .ok identities → NoneEndsHigh identities detached.message)) :=
  ⟨commit_readsAsGiven_iff, commitIndex_readsAsGiven_iff, commitTree_readsAsGiven_iff⟩

/-- A fresh repository that holds the empty tree. -/
def freshRepository : Repository where
  hasConflicts := false
  head := { ref := some (text "refs/heads/main"), oid := none }
  object oid := if oid = emptyTreeOid then some (.tree, []) else none
  configGet _ := none
  indexTree := .ok emptyTreeOid
  revParse expression := .ok expression
  isOid_of_object {oid found} h := by
    split at h
    · next hoid =>
      rw [hoid]
      decide
    · cases h
  isOid_of_indexTree {tree} h := by
    rw [← Except.ok.inj h]
    decide

def utcContext : GitContext := { now := 1700000000000, timezoneOffset := 0, defaultIdentity := none }

def ada : GitIdentity := { name := text "Ada", email := text "ada@example.com" }

def firstCommit (author : GitIdentity) : CommitOptions :=
  { message := text "first", author := some author, committer := some ada, amend := false
    allowEmpty := true, env := [] }

/-- An author whose name carries a header of its own. -/
def smuggler : GitIdentity :=
  { name := text "Ada\nparent 4b825dc642cb6eb9a060e54bf8d69288fbee4904\nX"
    email := text "ada@example.com" }

theorem commit_author_adds_parent :
    ¬ ∀ context repo options written, commit context repo options = .ok written →
      ReadsAsGiven written := by
  intro hall
  have hrun : (match commit utcContext freshRepository (firstCommit smuggler) with
      | .ok written => !decide (ReadsAsGiven written)
      | .error _ => false) = true := by decide +kernel
  split at hrun
  · next written hwritten =>
    rw [decide_eq_true (hall _ _ _ _ hwritten)] at hrun
    exact absurd hrun (by decide)
  · exact absurd hrun (by decide)

def adaPerson : Person :=
  { name := ada.name, email := ada.email, timestamp := 1700000000, timezoneOffset := 0 }

def adaIdentities : CommitIdentities := { author := adaPerson, committer := adaPerson }

def firstIndexed : IndexedCommitOptions :=
  { message := text "first", parent := [], identities := adaIdentities
    expectedHead := freshRepository.head, refLogReason := text "merge: commit" }

def firstDetached : CommitTreeOptions :=
  { tree := emptyTreeOid, message := text "first", parent := [], author := some ada
    committer := none, env := [] }

/-- The commit that the three operations write for one author. -/
def written (message : Text) : Commit × List UInt8 :=
  let commit : Commit :=
    { tree := emptyTreeOid, parent := [], author := adaPerson, committer := adaPerson
      gpgsig := none, message }
  (commit, serializeCommit commit)

theorem transparent_adaPerson : Transparent adaPerson :=
  ⟨by decide, by decide, by decide +kernel, by decide, by decide, by decide +kernel, by decide,
    by decide⟩

theorem first_commits_read_as_given :
    (commit utcContext freshRepository (firstCommit ada) = .ok (written (text "first\n")) ∧
      ReadsAsGiven (written (text "first\n"))) ∧
    (commitIndex freshRepository firstIndexed = .ok (written (text "first\n")) ∧
      ReadsAsGiven (written (text "first\n"))) ∧
    (commitTree utcContext freshRepository firstDetached = .ok (written (text "first")) ∧
      ReadsAsGiven (written (text "first"))) := by
  have hformed : WellFormed (cleanMessage (text "first")) := by decide +kernel
  have hcommit : commit utcContext freshRepository (firstCommit ada) =
      .ok (written (text "first\n")) := by decide +kernel
  have hindex : commitIndex freshRepository firstIndexed = .ok (written (text "first\n")) := by
    decide +kernel
  have htree : commitTree utcContext freshRepository firstDetached = .ok (written (text "first")) := by
    decide +kernel
  have hclean := written_reads_as_given_iff utcContext freshRepository (firstCommit ada)
    firstIndexed firstDetached (written (text "first\n"))
  have hexact := written_reads_as_given_iff utcContext freshRepository (firstCommit ada)
    firstIndexed firstDetached (written (text "first"))
  refine ⟨⟨hcommit, ?_⟩, ⟨hindex, ?_⟩, ⟨htree, ?_⟩⟩
  · exact (hclean.1 hcommit).2
      ⟨fun author h => Except.ok.inj h ▸ transparent_adaPerson, hformed⟩
  · exact (hclean.2.1 hindex).2
      ⟨fun oid h => absurd h List.not_mem_nil, transparent_adaPerson, hformed⟩
  · exact (hexact.2.2 htree).2 fun identities h => Except.ok.inj h ▸ ⟨⟨⟨rfl, rfl⟩, rfl, rfl⟩, rfl⟩

end Kompjutr.Ops
