/-
  Kompjutr.Diff.TextDiff

  The diff of two texts (`diff/index.ts`): its hunks are a patch from the one to the other, and
  they are empty only where there is nothing to change.
-/
import Kompjutr.Diff.MyersSound
import Kompjutr.Diff.UnifiedSound

namespace Kompjutr.Diff

open Objects (Text)
open Fuel (Settles)
open Patch (applyPatch)

variable {line text : Text} {old new : List Text} {i j : Int} {changes : List ChangeGroup}

/-- Split text into records the way git does: each record keeps its own trailing newline. -/
def splitLines : Text → List Text
  | [] => []
  | unit :: rest =>
    if unit = 0x0a then [unit] :: splitLines rest
    else
      match splitLines rest with
      | [] => [[unit]]
      | line :: lines => (unit :: line) :: lines

/-- A text whose records fit an array. -/
structure LinedText where
  text : Text
  bounded : (splitLines text).length < 2 ^ 32

def LinedText.lines (t : LinedText) : Lines Text := ⟨splitLines t.text, t.bounded⟩

structure TextDiff where
  changes : List ChangeGroup
  insertions : Int
  deletions : Int
  /-- The hunks, or nothing when the two texts are identical. -/
  hunks : Text

def diffText (fuel : Nat) (oldText newText : LinedText) (options : UnifiedOptions) :
    Option (Except GitError TextDiff) :=
  let oldLines := oldText.lines
  let newLines := newText.lines
  (diffLines fuel oldLines.toList newLines.toList
      { indentHeuristic := none, maxChanges := none }).bind fun
    | .error error => some (.error error)
    | .ok changes =>
      (if changes = [] then some [] else unifiedHunks oldLines newLines changes options).map
        fun hunks => .ok { changes, hunks, insertions := (changes.map ChangeGroup.newCount).sum
                           deletions := (changes.map ChangeGroup.oldCount).sum }

theorem flatten_splitLines (text : Text) : (splitLines text).flatten = text := by
  induction text with
  | nil => rfl
  | cons unit rest ih =>
    unfold splitLines
    split
    · rw [List.flatten_cons, ih]
      rfl
    · split
      next hnil =>
        rw [hnil] at ih
        rw [← ih]
        rfl
      next line lines hlines =>
        rw [hlines] at ih
        rw [← ih]
        rfl

theorem isLine_splitLines (h : line ∈ splitLines text) : IsLine line := by
  unfold IsLine
  induction text generalizing line with
  | nil => cases h
  | cons unit rest ih =>
    unfold splitLines at h
    split at h
    · obtain rfl | h := List.mem_cons.1 h
      · exact List.not_mem_nil
      · exact ih h
    next hunit =>
    split at h
    · obtain rfl := List.mem_singleton.1 h
      exact List.not_mem_nil
    next first lines hlines =>
    rw [hlines] at ih
    obtain rfl | h := List.mem_cons.1 h
    · cases first with
      | nil => exact List.not_mem_nil
      | cons next first =>
        rw [List.dropLast_cons_cons, List.mem_cons, not_or]
        exact ⟨Ne.symm hunit, ih List.mem_cons_self⟩
    · exact ih (List.mem_cons_of_mem _ h)

/-- What the differ finds is what the printer of hunks asks for. -/
theorem Script.toChanges (h : Script old new i j changes) : Changes old new i j changes := by
  induction h with
  | done common i j => exact .done common i j
  | group common deleted inserted _ _ _ ih => exact .group common deleted inserted ih

/-- As many lines are inserted and deleted as make the difference in length. -/
theorem Script.balance (h : Script old new i j changes) :
    old.length + (changes.map ChangeGroup.newCount).sum =
      new.length + (changes.map ChangeGroup.oldCount).sum := by
  induction h with
  | done => rfl
  | group common deleted inserted _ _ _ ih =>
    simp only [List.map_cons, List.sum_cons, List.length_append, Int.natCast_add]
    omega

theorem diffText_patches (oldText newText : LinedText) (options : UnifiedOptions) :
    ∃ diff patch, Settles (fun fuel => diffText fuel oldText newText options) (.ok diff) ∧
      parsePatch diff.hunks = some patch ∧
      (applyPatch patch (splitLines oldText.text)).map List.flatten = some newText.text ∧
      (splitLines oldText.text).length + diff.insertions =
        (splitLines newText.text).length + diff.deletions ∧
      (diff.hunks = [] ↔ oldText.text = newText.text) := by
  obtain ⟨groups, hscript, hsame, n, hsettles⟩ := diffLines_settles oldText.lines.toList
    newText.lines.toList { indentHeuristic := none, maxChanges := none } (lines_bounded _ _)
  have hlined : ∀ t : LinedText, ∀ line ∈ t.lines.toList, IsLine line := fun _ _ =>
    isLine_splitLines
  obtain ⟨t, patch, hhunks, hreads, -, happly⟩ :=
    unifiedHunks_reads (hlined oldText) (hlined newText) hscript.toChanges options
  have hprinted : (if groups = [] then some [] else
      unifiedHunks oldText.lines newText.lines groups options) = some t := by
    split
    next hnil =>
      rw [hnil] at hhunks
      exact hhunks
    · exact hhunks
  refine ⟨⟨groups, _, _, t⟩, patch, ⟨n, fun fuel hfuel => ?_⟩, hreads.parse, ?_, hscript.balance, ?_⟩
  · exact Option.bind_eq_some_iff.2
      ⟨_, hsettles fuel hfuel, Option.map_eq_some_iff.2 ⟨t, hprinted, rfl⟩⟩
  · have hlines := congrArg (Option.map List.flatten) happly
    rwa [Option.map_some, LinedText.lines, LinedText.lines, flatten_splitLines] at hlines
  · constructor
    · intro hnil
      obtain rfl : t = [] := hnil
      cases hreads.parse
      have hsame := congrArg List.flatten (Option.some.inj happly)
      rwa [LinedText.lines, LinedText.lines, flatten_splitLines, flatten_splitLines] at hsame
    · intro heq
      rw [hsame (congrArg splitLines heq)] at hhunks
      exact (Option.some.inj hhunks).symm

end Kompjutr.Diff
