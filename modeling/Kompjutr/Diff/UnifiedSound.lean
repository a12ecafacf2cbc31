/-
  Kompjutr.Diff.UnifiedSound

  A unified diff, read as a patch and applied to the old lines, gives the new ones.

  Between two changes both files have the same lines, and a hunk takes its context from there.
  A hunk begins at most `context` lines before its first change, and the one before it ended at
  least that far away; so hunks never meet, and both sides of a hunk begin and end together.
-/
import Kompjutr.Diff.PatchText

namespace Kompjutr.Diff

open Objects (Text)
open Patch (Mark PatchLine Hunk linesBefore marked oldLines_append newLines_append oldLines_marked
  newLines_marked applyHunks applyHunks_cons applyPatch)
open List (append_assoc length_append mem_append_left)

variable {lines : List Text}

variable {search : FunctionSearch}

-- Changes between two files

section Changes

variable {α : Type} {old new oldAll newAll : List α} {i j : Int} {change : ChangeGroup}
  {changes groups : List ChangeGroup}

/-- The groups change `old`, from line `i` on, into `new`, from line `j` on.  The lines between them
    are the same. -/
inductive Changes : List α → List α → Int → Int → List ChangeGroup → Prop
  | done (common : List α) (i j : Int) : Changes common common i j []
  | group (common deleted inserted : List α) {old new : List α} {i j : Int}
      {groups : List ChangeGroup}
      (hrest : Changes old new (i + common.length + deleted.length)
        (j + common.length + inserted.length) groups) :
      Changes (common ++ (deleted ++ old)) (common ++ (inserted ++ new)) i j
        ({ oldStart := i + common.length, oldCount := deleted.length
           newStart := j + common.length, newCount := inserted.length } :: groups)

/-- The lines of a file from line `i` on. -/
def From (lines : List α) (i : Int) (rest : List α) : Prop :=
  ∃ front, lines = front ++ rest ∧ (front.length : Int) = i

theorem From.bounds {lines rest : List α} (h : From lines i rest) :
    0 ≤ i ∧ i + rest.length = lines.length := by
  obtain ⟨front, rfl, rfl⟩ := h
  rw [length_append]
  omega

theorem From.next {lines left rest : List α} (h : From lines i (left ++ rest)) :
    From lines (i + left.length) rest := by
  obtain ⟨front, rfl, rfl⟩ := h
  exact ⟨front ++ left, (append_assoc _ _ _).symm, by rw [length_append]; omega⟩

theorem From.mem {lines rest : List α} (h : From lines i rest) {line : α} (hline : line ∈ rest) :
    line ∈ lines := by
  obtain ⟨front, rfl, -⟩ := h
  exact List.mem_append_right front hline

/-- What is left of two files, with the changes in it. -/
structure Pending (oldAll newAll : List α) (i j : Int) (old new : List α)
    (groups : List ChangeGroup) : Prop where
  from_old : From oldAll i old
  from_new : From newAll j new
  changes : Changes old new i j groups

/-- Up to the next change the files have the same lines. -/
theorem Pending.advance (h : Pending oldAll newAll i j old new groups) {n : Nat}
    (hgap : ∀ next ∈ groups.head?, i + n ≤ next.oldStart)
    (hend : groups = [] → i + n ≤ oldAll.length) :
    ∃ common old' new', common.length = n ∧ old = common ++ old' ∧ new = common ++ new' ∧
      Pending oldAll newAll (i + n) (j + n) old' new' groups := by
  obtain ⟨hold, hnew, hchanges⟩ := h
  cases hchanges with
  | done =>
    have hn : n ≤ old.length := by
      have := hold.bounds.2
      have := hend rfl
      omega
    have hlength : (old.take n).length = n := List.length_take_of_le hn
    have hsplit : old = old.take n ++ old.drop n := (List.take_append_drop n old).symm
    refine ⟨old.take n, old.drop n, old.drop n, hlength, hsplit, hsplit, ?_, ?_, .done _ _ _⟩
    · rw [hsplit] at hold
      have hnext := hold.next
      rwa [hlength] at hnext
    · rw [hsplit] at hnew
      have hnext := hnew.next
      rwa [hlength] at hnext
  | @group common deleted inserted old new _ _ groups hrest =>
    have hn : n ≤ common.length := by
      have := hgap _ rfl
      dsimp only at this
      omega
    have hlength : (common.take n).length = n := List.length_take_of_le hn
    have hsplit : common = common.take n ++ common.drop n := (List.take_append_drop n common).symm
    have hdrop : ((common.drop n).length : Int) = common.length - n := by
      rw [List.length_drop]
      omega
    have hassoc : ∀ rest : List α, common ++ rest = common.take n ++ (common.drop n ++ rest) := by
      intro rest
      rw [← append_assoc, ← hsplit]
    refine ⟨common.take n, common.drop n ++ (deleted ++ old), common.drop n ++ (inserted ++ new),
      hlength, hassoc _, hassoc _, ?_, ?_, ?_⟩
    · rw [hassoc] at hold
      have hnext := hold.next
      rwa [hlength] at hnext
    · rw [hassoc] at hnew
      have hnext := hnew.next
      rwa [hlength] at hnext
    · have hi : i + n + (common.drop n).length = i + common.length := by omega
      have hj : j + n + (common.drop n).length = j + common.length := by omega
      rw [← hi, ← hj] at hrest ⊢
      exact .group _ _ _ hrest

/-- The next change, behind lines that both files have. -/
theorem Pending.reach (h : Pending oldAll newAll i j old new (change :: groups)) :
    ∃ common deleted inserted old' new', i + common.length = change.oldStart ∧
      j + common.length = change.newStart ∧ deleted.length = change.oldCount ∧
      inserted.length = change.newCount ∧ old = common ++ (deleted ++ old') ∧
      new = common ++ (inserted ++ new') ∧
      Pending oldAll newAll (change.oldStart + change.oldCount) (change.newStart + change.newCount)
        old' new' groups := by
  obtain ⟨hold, hnew, hchanges⟩ := h
  cases hchanges with
  | group common deleted inserted hrest =>
    exact ⟨common, deleted, inserted, _, _, rfl, rfl, rfl, rfl, rfl, rfl, hold.next.next, hnew.next.next,
      hrest⟩

/-- Both files come to a change together, and the change is inside them. -/
theorem Pending.gap (h : Pending oldAll newAll i j old new (change :: groups)) :
    i ≤ change.oldStart ∧ change.newStart - j = change.oldStart - i ∧
      change.oldStart ≤ oldAll.length ∧ change.newStart ≤ newAll.length := by
  obtain ⟨common, deleted, inserted, old', new', hi, hj, -, -, rfl, rfl, -⟩ := h.reach
  have hold := h.from_old.bounds.2
  have hnew := h.from_new.bounds.2
  rw [length_append] at hold hnew
  omega

/-- The positions after changes. -/
def oldEnd : Int → List ChangeGroup → Int
  | i, [] => i
  | _, change :: changes => oldEnd (change.oldStart + change.oldCount) changes

def newEnd : Int → List ChangeGroup → Int
  | j, [] => j
  | _, change :: changes => newEnd (change.newStart + change.newCount) changes

theorem oldEnd_cons (i : Int) (change : ChangeGroup) (changes : List ChangeGroup) :
    oldEnd i (change :: changes) =
      (changes.getLastD change).oldStart + (changes.getLastD change).oldCount := by
  induction changes generalizing i change with
  | nil => rfl
  | cons next changes ih =>
    rw [List.getLastD_cons]
    exact ih i next

theorem newEnd_cons (j : Int) (change : ChangeGroup) (changes : List ChangeGroup) :
    newEnd j (change :: changes) =
      (changes.getLastD change).newStart + (changes.getLastD change).newCount := by
  induction changes generalizing j change with
  | nil => rfl
  | cons next changes ih =>
    rw [List.getLastD_cons]
    exact ih j next

/-- What is left after changes. -/
theorem Pending.ends (h : Pending oldAll newAll i j old new (changes ++ groups)) :
    ∃ old' new', Pending oldAll newAll (oldEnd i changes) (newEnd j changes) old' new' groups := by
  induction changes generalizing i j old new with
  | nil => exact ⟨old, new, h⟩
  | cons change changes ih =>
    obtain ⟨_, _, _, _, _, -, -, -, -, -, -, hafter⟩ := h.reach
    exact ih hafter

end Changes

-- The body of a hunk

section Emit

variable {oldAll newAll old new : List Text} {i j : Int}

theorem emitLoop_eq {lines shown rest : List Text} {unit : UInt16} {start : Int}
    (h : From lines start (shown ++ rest)) :
    emitLoop unit lines shown.length start = some (shown.flatMap (emitRecord unit)) := by
  induction shown generalizing start with
  | nil => rfl
  | cons line shown ih =>
    have hread : readAt lines start = some line := by
      obtain ⟨front, rfl, rfl⟩ := h
      rw [readAt_natCast, List.getElem?_append_right (Nat.le_refl _), Nat.sub_self]
      rfl
    have hnext : From lines (start + 1) (shown ++ rest) := @From.next _ _ _ [line] _ h
    rw [List.length_cons, emitLoop, hread, ih hnext]
    rfl

/-- Lines with a mark before each. -/
def shownText (mark : Mark) (lines : List Text) : Text := lines.flatMap (emitRecord (markUnit mark))

theorem emitRecords_eq (mark : Mark) {lines shown rest : List Text} {start stop : Int}
    (h : From lines start (shown ++ rest)) (hstop : start + shown.length = stop) :
    emitRecords (markUnit mark) lines start stop = some (shownText mark shown) := by
  have hcount : (stop - start).toNat = shown.length := by omega
  rw [emitRecords, hcount, emitLoop_eq h]
  rfl

/-- Records read back as lines with their mark. -/
theorem Reads.records {t : Text} {body : List (PatchLine Text)} {hunks : List (Hunk Text)}
    (h : Reads t body hunks) (mark : Mark) {lines : List Text} (hlines : ∀ line ∈ lines, IsLine line) :
    Reads (shownText mark lines ++ t) (marked mark lines ++ body) hunks := by
  induction lines with
  | nil => exact h
  | cons line lines ih =>
    rw [shownText, List.flatMap_cons, append_assoc]
    exact (ih fun other hother => hlines other (List.mem_cons_of_mem _ hother)).record
      (hlines line List.mem_cons_self)

/-- A text that reads as lines of a body, whatever comes after it. -/
def Shows (t : Text) (body : List (PatchLine Text)) : Prop :=
  ∀ rest more hunks, Reads rest more hunks → Reads (t ++ rest) (body ++ more) hunks

theorem Shows.records (mark : Mark) {lines : List Text} (hlines : ∀ line ∈ lines, IsLine line) :
    Shows (shownText mark lines) (marked mark lines) :=
  fun _ _ _ h => h.records mark hlines

theorem Shows.append {left right : Text} {body more : List (PatchLine Text)} (hleft : Shows left body)
    (hright : Shows right more) : Shows (left ++ right) (body ++ more) := by
  intro rest rests hunks h
  rw [append_assoc, append_assoc]
  exact hleft _ _ _ (hright _ _ _ h)

/-- What the body of a hunk shows: the lines of both files from here to `trailing` lines after the last
    change. -/
structure Emitted (oldAll newAll : List Text) (i j : Int) (old new : List Text) (t : Text)
    (body : List (PatchLine Text)) (i' j' : Int) (old' new' : List Text) (groups : List ChangeGroup) :
    Prop where
  shows : Shows t body
  old_eq : old = Patch.oldLines body ++ old'
  new_eq : new = Patch.newLines body ++ new'
  pending : Pending oldAll newAll i' j' old' new' groups

theorem emitChanges_emitted {changes groups : List ChangeGroup} {n : Nat}
    (holdLines : ∀ line ∈ oldAll, IsLine line) (hnewLines : ∀ line ∈ newAll, IsLine line)
    (hpending : Pending oldAll newAll i j old new (changes ++ groups))
    (hgap : ∀ next ∈ groups.head?, oldEnd i changes + n ≤ next.oldStart)
    (hend : groups = [] → oldEnd i changes + n ≤ oldAll.length) :
    ∃ t body old' new', emitChanges oldAll newAll (newEnd j changes + n) j changes = some t ∧
      Emitted oldAll newAll i j old new t body (oldEnd i changes + n) (newEnd j changes + n) old' new'
        groups := by
  induction changes generalizing i j old new with
  | nil =>
    obtain ⟨common, old', new', hlength, rfl, rfl, hrest⟩ := hpending.advance hgap hend
    have hcommon : ∀ line ∈ common, IsLine line := fun line hline =>
      holdLines line (hpending.from_old.mem (mem_append_left _ hline))
    refine ⟨shownText .context common, marked .context common, old', new',
      emitRecords_eq .context hpending.from_new (by rw [hlength]; rfl), ?_⟩
    exact { shows := .records .context hcommon, old_eq := by rw [oldLines_marked, if_neg (by decide)]
            new_eq := by rw [newLines_marked, if_neg (by decide)], pending := hrest }
  | cons change changes ih =>
    obtain ⟨common, deleted, inserted, old2, new2, hi, hj, hdeleted, hinserted, rfl, rfl, hafter⟩ :=
      hpending.reach
    have hfrom : From oldAll change.oldStart (deleted ++ old2) := hi ▸ hpending.from_old.next
    have hfrom' : From newAll change.newStart (inserted ++ new2) := hj ▸ hpending.from_new.next
    obtain ⟨t, body, old', new', hemit, hemitted⟩ := ih hafter hgap hend
    have hcommon : ∀ line ∈ common, IsLine line := fun line hline =>
      holdLines line (hpending.from_old.mem (mem_append_left _ hline))
    have hdeletedLines : ∀ line ∈ deleted, IsLine line := fun line hline =>
      holdLines line (hfrom.mem (mem_append_left _ hline))
    have hinsertedLines : ∀ line ∈ inserted, IsLine line := fun line hline =>
      hnewLines line (hfrom'.mem (mem_append_left _ hline))
    have hcontext : emitRecords 0x20 newAll j change.newStart = some (shownText .context common) :=
      emitRecords_eq .context hpending.from_new hj
    have hremoved : emitRecords 0x2d oldAll change.oldStart (change.oldStart + change.oldCount) =
        some (shownText .removed deleted) := emitRecords_eq .removed hfrom (by rw [hdeleted])
    have hadded : emitRecords 0x2b newAll change.newStart (change.newStart + change.newCount) =
        some (shownText .added inserted) := emitRecords_eq .added hfrom' (by rw [hinserted])
    refine ⟨shownText .context common ++ (shownText .removed deleted ++
      (shownText .added inserted ++ t)), marked .context common ++ (marked .removed deleted ++
      (marked .added inserted ++ body)), old', new', ?_, ?_⟩
    · rw [emitChanges, hcontext, hremoved, hadded]
      exact Option.bind_eq_some_iff.2 ⟨_, rfl, Option.bind_eq_some_iff.2 ⟨_, rfl,
        Option.bind_eq_some_iff.2 ⟨_, rfl, Option.bind_eq_some_iff.2 ⟨t, hemit, rfl⟩⟩⟩⟩
    · refine { shows := ?_, old_eq := ?_, new_eq := ?_, pending := hemitted.pending }
      · exact (Shows.records .context hcommon).append ((Shows.records .removed hdeletedLines).append
          ((Shows.records .added hinsertedLines).append hemitted.shows))
      · simp only [oldLines_append, oldLines_marked, hemitted.old_eq, append_assoc, reduceCtorEq,
          if_false, if_true, List.nil_append]
      · simp only [newLines_append, newLines_marked, hemitted.new_eq, append_assoc, reduceCtorEq,
          if_false, if_true, List.nil_append]

end Emit

-- Function names

theorem newline_notMem_nameOf {line : Text} (hline : IsLine line) : 0x0a ∉ nameOf line := by
  have hstart : 0x0a ∉ (line.take funcNameLimit).dropLast := by
    rw [List.dropLast_take_eq_take_dropLast]
    exact fun hmem => hline (List.mem_of_mem_take hmem)
  unfold nameOf
  rcases List.eq_nil_or_concat (line.take funcNameLimit) with hnil | ⟨front, last, hconcat⟩
  · rw [hnil]
    exact List.not_mem_nil
  · rw [List.concat_eq_append] at hconcat
    rw [hconcat] at hstart ⊢
    rw [List.dropLast_concat] at hstart
    by_cases hspace : Objects.isSpace last = true
    · rw [List.rdropWhile_concat_pos _ _ _ hspace]
      exact fun hmem => hstart ((List.rdropWhile_prefix _ _).subset hmem)
    · rw [List.rdropWhile_concat_neg _ _ _ hspace, List.mem_append, not_or, List.mem_singleton]
      -- A newline is white space, and would have been dropped.
      refine ⟨hstart, ?_⟩
      rintro rfl
      exact hspace rfl

theorem functionLineLoop_eq {step limit line : Int} {n : Nat} {name : Text}
    (h : functionLineLoop lines step limit n line = some name) :
    ∃ units ∈ lines, name = nameOf units := by
  induction n generalizing line with
  | zero => nomatch h
  | succ n ih =>
    unfold functionLineLoop at h
    split at h
    · nomatch h
    · split at h
      · nomatch h
      · next units hread =>
        split at h
        · exact ⟨units, mem_of_readAt hread, (Option.some.inj h).symm⟩
        · exact ih h

theorem newline_notMem_nextFunctionSearch {start1 : Int}
    (hlines : ∀ line ∈ lines, IsLine line) (hname : 0x0a ∉ search.functionName) :
    0x0a ∉ (nextFunctionSearch lines start1 search).functionName := by
  unfold nextFunctionSearch
  dsimp only
  cases hfound : findFunctionLine lines (start1 - 1) search.previousFunctionSearch with
  | none => exact hname
  | some name =>
    obtain ⟨units, hunits, rfl⟩ := functionLineLoop_eq hfound
    exact newline_notMem_nameOf (hlines units hunits)

-- Hunks

section Hunks

variable {oldAll newAll old new : List Text} {i j : Int} {context : Nat}
  {changes groups : List ChangeGroup}

/-- After the last change of a hunk both files have as many lines of context. -/
theorem trailing_eq (hpending : Pending oldAll newAll i j old new groups)
    (hfar : ∀ next ∈ groups.head?, i + context ≤ next.oldStart) :
    ∃ n : Nat, min (context : Int) (min (oldAll.length - i) (newAll.length - j)) = n ∧
      (∀ next ∈ groups.head?, i + n ≤ next.oldStart ∧ n = context) ∧
      (groups = [] → i + n ≤ oldAll.length) := by
  have hold := hpending.from_old.bounds
  have hnew := hpending.from_new.bounds
  refine ⟨(min (context : Int) (min (oldAll.length - i) (newAll.length - j))).toNat, by omega, ?_, ?_⟩
  · cases groups with
    | nil => exact nofun
    | cons change groups =>
      rintro _ ⟨⟩
      obtain ⟨hle, hshift, holdFits, hnewFits⟩ := hpending.gap
      have hcontext := hfar change rfl
      omega
  · intro _
    omega

/-- A hunk, behind `gap` lines that no hunk shows. -/
structure HunkEmitted (oldAll newAll : List Text) (i j : Int) (old new : List Text) (t : Text)
    (hunk : Hunk Text) (gap old' new' : List Text) (groups : List ChangeGroup) : Prop where
  reads : ∀ rest hunks, Reads rest [] hunks → Reads (t ++ rest) [] (hunk :: hunks)
  counted : hunk.Counted
  old_before : linesBefore hunk.oldStart hunk.oldCount = i + gap.length
  new_before : linesBefore hunk.newStart hunk.newCount = j + gap.length
  old_eq : old = gap ++ (Patch.oldLines hunk.body ++ old')
  new_eq : new = gap ++ (Patch.newLines hunk.body ++ new')
  pending : Pending oldAll newAll (i + gap.length + hunk.oldCount) (j + gap.length + hunk.newCount)
    old' new' groups

/-- The start that a header names says how many lines are before. -/
theorem linesBefore_named (before count : Int) :
    linesBefore (if count = 0 then before + 1 - 1 else before + 1) count = before := by
  unfold linesBefore
  split <;> omega

theorem plainRange_of_bounds {start count : Int} {length : Nat} (hlength : length < 2 ^ 32)
    (hstart : 0 ≤ start) (hcount : 0 ≤ count) (hend : start + count ≤ length) :
    PlainRange (start + 1) count :=
  { before := ⟨by omega, by omega⟩, start := ⟨by omega, by omega⟩, count := ⟨by omega, by omega⟩ }

theorem emitHunk_emitted {first : ChangeGroup} {functionNames : Bool}
    (holdLines : ∀ line ∈ oldAll, IsLine line) (hnewLines : ∀ line ∈ newAll, IsLine line)
    (holdBound : oldAll.length < 2 ^ 32) (hnewBound : newAll.length < 2 ^ 32)
    (hpending : Pending oldAll newAll i j old new (first :: changes ++ groups))
    (hlead : (i = 0 ∧ j = 0) ∨ i + context ≤ first.oldStart)
    (hfar : ∀ next ∈ groups.head?, next.oldStart -
      ((changes.getLastD first).oldStart + (changes.getLastD first).oldCount) > (context : Int) * 2)
    (hname : 0x0a ∉ search.functionName) :
    ∃ t search' hunk gap old' new',
      emitHunk oldAll newAll context functionNames search first changes = some (t, search') ∧
      0x0a ∉ search'.functionName ∧
      HunkEmitted oldAll newAll i j old new t hunk gap old' new' groups ∧
      ∀ next ∈ groups.head?, i + gap.length + hunk.oldCount + context ≤ next.oldStart := by
  obtain ⟨hle, hshift, holdFits, hnewFits⟩ := hpending.gap
  have hold := hpending.from_old.bounds
  have hnew := hpending.from_new.bounds
  -- The hunk begins as many lines after `i` as after `j`.
  obtain ⟨skipped, hskipped⟩ := Int.eq_ofNat_of_zero_le
    (show 0 ≤ max (first.oldStart - context) 0 - i by omega)
  have hstart1 : max (first.oldStart - context) 0 = i + skipped := by omega
  have hstart2 : max (first.newStart - context) 0 = j + skipped := by omega
  have hreach : ∀ next ∈ (first :: changes ++ groups).head?, i + skipped ≤ next.oldStart := by
    rintro _ ⟨⟩
    omega
  obtain ⟨gap, old1, new1, hlength, rfl, rfl, hat⟩ := hpending.advance hreach nofun
  obtain ⟨final, hfinal⟩ : ∃ final, changes.getLastD first = final := ⟨_, rfl⟩
  rw [hfinal] at hfar
  obtain ⟨_, _, hends⟩ := hat.ends
  rw [oldEnd_cons, newEnd_cons, hfinal] at hends
  have hreaches : ∀ next ∈ groups.head?, final.oldStart + final.oldCount + context ≤ next.oldStart := by
    intro next hnext
    have := hfar next hnext
    omega
  obtain ⟨n, htrailing, hnext, hend⟩ := trailing_eq hends hreaches
  have hemitted := @emitChanges_emitted _ _ _ _ _ _ _ _ n holdLines hnewLines hat
  rw [oldEnd_cons, newEnd_cons, hfinal] at hemitted
  obtain ⟨t, body, old', new', hemit, hemitted⟩ :=
    hemitted (fun next hnext' => (hnext next hnext').1) hend
  let search' := if functionNames then nextFunctionSearch oldAll (i + skipped) search else search
  have hname' : 0x0a ∉ search'.functionName := by
    unfold search'
    split
    · exact newline_notMem_nextFunctionSearch holdLines hname
    · exact hname
  have hold1 := hat.from_old.bounds
  have hnew1 := hat.from_new.bounds
  rw [hemitted.old_eq, length_append] at hold1
  rw [hemitted.new_eq, length_append] at hnew1
  have hold' := hemitted.pending.from_old.bounds
  have hnew' := hemitted.pending.from_new.bounds
  obtain ⟨count1, hend1⟩ : ∃ count, final.oldStart + final.oldCount + n - (i + skipped) = count :=
    ⟨_, rfl⟩
  obtain ⟨count2, hend2⟩ : ∃ count, final.newStart + final.newCount + n - (j + skipped) = count :=
    ⟨_, rfl⟩
  have hcount1 : count1 = (Patch.oldLines body).length := by omega
  have hcount2 : count2 = (Patch.newLines body).length := by omega
  have hplain1 : PlainRange (i + skipped + 1) count1 := plainRange_of_bounds holdBound (by omega)
    (by omega) (by omega)
  have hplain2 : PlainRange (j + skipped + 1) count2 := plainRange_of_bounds hnewBound (by omega)
    (by omega) (by omega)
  have hemitHunk : emitHunk oldAll newAll context functionNames search first changes =
      some (hunkHeader (i + skipped + 1) count1 (j + skipped + 1) count2 search'.functionName ++ t,
        search') := by
    unfold emitHunk
    dsimp only
    rw [hfinal, hstart1, hstart2, htrailing, hemit, hend1, hend2]
    rfl
  let hunk : Hunk Text :=
    { oldStart := if count1 = 0 then i + skipped + 1 - 1 else i + skipped + 1, oldCount := count1
      newStart := if count2 = 0 then j + skipped + 1 - 1 else j + skipped + 1, newCount := count2
      body }
  have hreads : ∀ rest hunks, Reads rest [] hunks →
      Reads (hunkHeader (i + skipped + 1) count1 (j + skipped + 1) count2 search'.functionName ++ t ++
        rest) [] (hunk :: hunks) := by
    intro rest hunks h
    have hshows := hemitted.shows rest [] hunks h
    rw [List.append_nil] at hshows
    rw [append_assoc]
    exact hshows.header hplain1 hplain2 hname'
  have hafter : i + gap.length + count1 = final.oldStart + final.oldCount + n := by
    rw [hlength]
    omega
  have hafter' : j + gap.length + count2 = final.newStart + final.newCount + n := by
    rw [hlength]
    omega
  refine ⟨_, search', hunk, gap, old', new', hemitHunk, hname', ?_, ?_⟩
  · refine { reads := hreads, counted := ⟨hcount1, hcount2⟩, old_before := ?_, new_before := ?_
             old_eq := congrArg (gap ++ ·) hemitted.old_eq
             new_eq := congrArg (gap ++ ·) hemitted.new_eq, pending := ?_ }
    · rw [hlength]
      exact linesBefore_named _ _
    · rw [hlength]
      exact linesBefore_named _ _
    · change Pending oldAll newAll (i + gap.length + count1) (j + gap.length + count2) old' new' groups
      rw [hafter, hafter']
      exact hemitted.pending
  · intro next hnext'
    have hcontext := (hnext next hnext').2
    have := hfar next hnext'
    change i + gap.length + count1 + context ≤ next.oldStart
    rw [hafter]
    omega

/-- Two hunks are further apart than their context reaches. -/
def FarApart (maxCommon : Int) : List (ChangeGroup × List ChangeGroup) → Prop :=
  List.IsChain fun hunk next => next.1.oldStart -
    ((hunk.2.getLastD hunk.1).oldStart + (hunk.2.getLastD hunk.1).oldCount) > maxCommon

def ungroup (hunks : List (ChangeGroup × List ChangeGroup)) : List ChangeGroup :=
  hunks.flatMap fun hunk => hunk.1 :: hunk.2

theorem groupHunks_spec (maxCommon : Int) (changes : List ChangeGroup) :
    ungroup (groupHunks maxCommon changes) = changes ∧
      FarApart maxCommon (groupHunks maxCommon changes) := by
  induction changes with
  | nil => exact ⟨rfl, .nil⟩
  | cons previous changes ih =>
    obtain ⟨hall, hfar⟩ := ih
    unfold groupHunks
    split
    · next hnone =>
      rw [hnone] at hall
      rw [← hall]
      exact ⟨rfl, .singleton _⟩
    · next next more hunks hsome =>
      rw [hsome] at hall hfar
      rw [← hall]
      split
      · next hbreak => exact ⟨rfl, .cons_cons hbreak hfar⟩
      · refine ⟨rfl, ?_⟩
        cases hfar with
        | singleton => exact .singleton _
        | cons_cons hbreak hrest =>
          exact .cons_cons (by rwa [List.getLastD_cons]) hrest

theorem emitHunks_patch {hunks : List (ChangeGroup × List ChangeGroup)} {functionNames : Bool}
    (holdLines : ∀ line ∈ oldAll, IsLine line)
    (hnewLines : ∀ line ∈ newAll, IsLine line) (holdBound : oldAll.length < 2 ^ 32)
    (hnewBound : newAll.length < 2 ^ 32)
    (hpending : Pending oldAll newAll i j old new (ungroup hunks))
    (hlead : (i = 0 ∧ j = 0) ∨ ∀ next ∈ (ungroup hunks).head?, i + context ≤ next.oldStart)
    (hfar : FarApart (context * 2) hunks) (hname : 0x0a ∉ search.functionName) :
    ∃ t patch, emitHunks oldAll newAll context functionNames search hunks = some t ∧
      Reads t [] patch ∧ (∀ hunk ∈ patch, hunk.Counted) ∧ applyHunks i j patch old = some new := by
  induction hunks generalizing i j old new search with
  | nil =>
    refine ⟨[], [], rfl, .nil, nofun, ?_⟩
    cases hpending.changes with
    | done => rfl
  | cons grouped hunks ih =>
    obtain ⟨first, changes⟩ := grouped
    have hnext : ∀ next ∈ (ungroup hunks).head?, next.oldStart -
        ((changes.getLastD first).oldStart + (changes.getLastD first).oldCount) >
          (context : Int) * 2 := by
      cases hfar with
      | singleton => exact nofun
      | cons_cons hbreak =>
        rintro _ ⟨⟩
        exact hbreak
    obtain ⟨t, search', hunk, gap, old', new', hemit, hname', hemitted, hlead'⟩ :=
      emitHunk_emitted holdLines hnewLines holdBound hnewBound hpending
        (hlead.imp_right fun h => h first rfl) hnext hname
    obtain ⟨rest, patch, hrest, hreads, hcounted, happly⟩ :=
      ih hemitted.pending (.inr hlead') hfar.tail hname'
    refine ⟨t ++ rest, hunk :: patch, ?_, hemitted.reads rest patch hreads, ?_, ?_⟩
    · rw [emitHunks, hemit]
      exact Option.bind_eq_some_iff.2 ⟨_, rfl, Option.bind_eq_some_iff.2 ⟨rest, hrest, rfl⟩⟩
    · intro other hother
      rcases List.mem_cons.1 hother with rfl | hother
      · exact hemitted.counted
      · exact hcounted other hother
    · rw [hemitted.old_eq, hemitted.new_eq]
      exact applyHunks_cons hemitted.counted hemitted.old_before hemitted.new_before happly

theorem unifiedHunks_reads {oldLines newLines : Lines Text} {changes : List ChangeGroup}
    (holdLines : ∀ line ∈ oldLines.toList, IsLine line)
    (hnewLines : ∀ line ∈ newLines.toList, IsLine line)
    (hchanges : Changes oldLines.toList newLines.toList 0 0 changes) (options : UnifiedOptions) :
    ∃ t patch, unifiedHunks oldLines newLines changes options = some t ∧ Reads t [] patch ∧
      (∀ hunk ∈ patch, hunk.Counted) ∧ applyPatch patch oldLines.toList = some newLines.toList := by
  obtain ⟨hall, hfar⟩ := groupHunks_spec ((options.context.getD 3 : Nat) * 2) changes
  have hpending : Pending oldLines.toList newLines.toList 0 0 oldLines.toList newLines.toList
      (ungroup (groupHunks ((options.context.getD 3 : Nat) * 2) changes)) := by
    rw [hall]
    exact { from_old := ⟨[], rfl, rfl⟩, from_new := ⟨[], rfl, rfl⟩, changes := hchanges }
  let search : FunctionSearch := { previousFunctionSearch := -1, functionName := [] }
  have hname : 0x0a ∉ search.functionName := List.not_mem_nil
  exact emitHunks_patch holdLines hnewLines oldLines.bounded newLines.bounded hpending
    (.inl ⟨rfl, rfl⟩) hfar hname

/-- The hunks of a diff are a patch: it counts the lines of its bodies right, and applied to the old
    lines it gives the new ones. -/
theorem unifiedHunks_applies {oldLines newLines : Lines Text} {changes : List ChangeGroup}
    (holdLines : ∀ line ∈ oldLines.toList, IsLine line)
    (hnewLines : ∀ line ∈ newLines.toList, IsLine line)
    (hchanges : Changes oldLines.toList newLines.toList 0 0 changes) (options : UnifiedOptions) :
    ∃ t patch, unifiedHunks oldLines newLines changes options = some t ∧ parsePatch t = some patch ∧
      (∀ hunk ∈ patch, hunk.oldCount = (Patch.oldLines hunk.body).length ∧
        hunk.newCount = (Patch.newLines hunk.body).length) ∧
      applyPatch patch oldLines.toList = some newLines.toList := by
  obtain ⟨t, patch, hemit, hreads, hcounted, happly⟩ :=
    unifiedHunks_reads holdLines hnewLines hchanges options
  exact ⟨t, patch, hemit, hreads.parse, hcounted, happly⟩

end Hunks

/-- The last line changes, and its newline is new. -/
def twoLines (last : String) : Lines Text where
  toList := [Objects.text "a\n", Objects.text last]
  bounded := show 2 < 2 ^ 32 by decide

def lastLine : ChangeGroup := { oldStart := 1, oldCount := 1, newStart := 1, newCount := 1 }

example : unifiedHunks (twoLines "b") (twoLines "c\n") [lastLine] { context := none, functionNames := none } =
    some (Objects.text
      "@@ -1,2 +1,2 @@\n a\n-b\n\\ No newline at end of file\n+c\n") := by
  decide +kernel

theorem twoLines_changes :
    (∀ line ∈ (twoLines "b").toList, IsLine line) ∧ (∀ line ∈ (twoLines "c\n").toList, IsLine line) ∧
    Changes (twoLines "b").toList (twoLines "c\n").toList 0 0 [lastLine] ∧
    ∃ t patch, unifiedHunks (twoLines "b") (twoLines "c\n") [lastLine]
        { context := none, functionNames := none } = some t ∧ parsePatch t = some patch ∧
      applyPatch patch (twoLines "b").toList = some (twoLines "c\n").toList := by
  have hold : ∀ line ∈ (twoLines "b").toList, IsLine line := by unfold IsLine; decide +kernel
  have hnew : ∀ line ∈ (twoLines "c\n").toList, IsLine line := by unfold IsLine; decide +kernel
  have hchanges : Changes (twoLines "b").toList (twoLines "c\n").toList 0 0 [lastLine] :=
    .group [Objects.text "a\n"] [Objects.text "b"] [Objects.text "c\n"] (.done [] _ _)
  refine ⟨hold, hnew, hchanges, ?_⟩
  obtain ⟨t, patch, hemit, hparse, -, happly⟩ :=
    unifiedHunks_applies hold hnew hchanges { context := none, functionNames := none }
  exact ⟨t, patch, hemit, hparse, happly⟩

end Kompjutr.Diff
