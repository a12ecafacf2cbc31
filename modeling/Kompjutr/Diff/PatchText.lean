/-
  Kompjutr.Diff.PatchText

  The text of a patch, as programs that apply patches read it: a header with the places of a
  hunk, and under it lines that start with a mark.  The line "\ No newline at end of file" is
  about the line before it.
-/
import Kompjutr.Diff.Unified
import Kompjutr.Lib.Patch

namespace Kompjutr.Diff

open Objects (Text text isDigit digitsValue formatNumber formatNumber_nat decimal decimal_ne_nil
  isDigit_decimal digitsValue_decimal isNumeric_formatNumber splitOn_append_of_not_mem isSpace)
open Patch (Mark PatchLine Hunk)
open List (append_assoc append_nil cons_append flatMap_cons mem_append mem_cons)
open Option (bind_eq_some_iff bind_some)

variable {n start1 count1 start2 count2 : Int} {body : List (PatchLine Text)}

variable {mark : Mark} {line rest t : Text} {lines : List Text} {start count : Int}
  {hunks : List (Hunk Text)}

-- Reading a patch

/-- Drop what has to be read next. -/
def expect (expected t : Text) : Option Text :=
  if expected.isPrefixOf t then some (t.drop expected.length) else none

def readNumber (t : Text) : Option (Int × Text) :=
  let digits := t.takeWhile isDigit
  if digits = [] then none else some (digitsValue digits, t.dropWhile isDigit)

/-- A range without a count has one line. -/
def readCount (t : Text) : Option (Int × Text) :=
  match expect (text ",") t with
  | some counted => readNumber counted
  | none => some (1, t)

/-- A start and a count. -/
def readRange (t : Text) : Option (Int × Int × Text) := do
  let (start, rest) ← readNumber t
  let (count, rest) ← readCount rest
  some (start, count, rest)

/-- A hunk that has no lines yet.  What is behind the places is for people. -/
def readHeader (line : Text) : Option (Hunk Text) := do
  let rest ← expect (text "@@ -") line
  let (oldStart, oldCount, rest) ← readRange rest
  let rest ← expect (text " +") rest
  let (newStart, newCount, rest) ← readRange rest
  let _ ← expect (text " @@") rest
  some { oldStart, oldCount, newStart, newCount, body := [] }

def readMark (unit : UInt16) : Option Mark :=
  if unit = 0x20 then some .context
  else if unit = 0x2d then some .removed
  else if unit = 0x2b then some .added
  else none

def readPatchLine : Text → Option (PatchLine Text)
  | [] => none
  | unit :: line => (readMark unit).map fun mark => { mark, line }

/-- The lines of a text that ends with a newline. -/
def patchLines (t : Text) : List Text := (t.splitOn 0x0a).dropLast

/-- Whether the line is about the one before it. -/
def saysNoNewline (line : Text) : Bool := line.head? = some 0x5c

/-- Put the newlines back that the lines of the files have. -/
def withNewlines : List Text → List Text
  | [] => []
  | [line] => [line ++ [0x0a]]
  | line :: next :: lines =>
    if saysNoNewline next then line :: withNewlines lines
    else (line ++ [0x0a]) :: withNewlines (next :: lines)

/-- The lines of the body that goes on here, and the hunks after it. -/
def readHunks : List Text → Option (List (PatchLine Text) × List (Hunk Text))
  | [] => some ([], [])
  | line :: lines => do
    let (body, hunks) ← readHunks lines
    match readHeader line with
    | some hunk => some ([], { hunk with body } :: hunks)
    | none => (readPatchLine line).map fun line => (line :: body, hunks)

def parsePatch (t : Text) : Option (List (Hunk Text)) := do
  let (body, hunks) ← readHunks (withNewlines (patchLines t))
  if body = [] then some hunks else none

-- Lines

/-- A line has a newline at its end or not at all. -/
def IsLine (line : Text) : Prop := 0x0a ∉ line.dropLast

def markUnit : Mark → UInt16
  | .context => 0x20
  | .removed => 0x2d
  | .added => 0x2b

/-- The lines of a patch that show a line of a file. -/
def shownLines (mark : Mark) (line : Text) : List Text :=
  if line.getLast? = some 0x0a then [markUnit mark :: line.dropLast]
  else [markUnit mark :: line, text "\\ No newline at end of file"]

theorem emitRecord_eq (mark : Mark) (line : Text) :
    emitRecord (markUnit mark) line = (shownLines mark line).flatMap (· ++ [0x0a]) := by
  unfold emitRecord shownLines
  split
  · next hline =>
    rw [flatMap_cons, List.flatMap_nil, append_nil, cons_append,
      List.dropLast_append_getLast? _ hline]
  · rw [flatMap_cons, flatMap_cons, List.flatMap_nil, append_nil,
      append_assoc]
    have hnewline : text "\n\\ No newline at end of file\n" =
        [0x0a] ++ (text "\\ No newline at end of file" ++ [0x0a]) := by decide +kernel
    rw [hnewline]

theorem newline_notMem_shownLines (hline : IsLine line) :
    ∀ shown ∈ shownLines mark line, 0x0a ∉ shown := by
  have hmark : (0x0a : UInt16) ≠ markUnit mark := by cases mark <;> decide
  unfold shownLines
  split
  · intro shown hshown
    rw [List.mem_singleton.1 hshown, mem_cons, not_or]
    exact ⟨hmark, hline⟩
  · next hlast =>
    intro shown hshown
    rcases mem_cons.1 hshown with rfl | hshown
    · rw [mem_cons, not_or]
      refine ⟨hmark, ?_⟩
      rcases List.eq_nil_or_concat line with rfl | ⟨front, last, rfl⟩
      · exact List.not_mem_nil
      · rw [List.concat_eq_append] at hline hlast ⊢
        rw [IsLine, List.dropLast_concat] at hline
        rw [List.getLast?_concat] at hlast
        rw [mem_append, not_or, List.mem_singleton]
        exact ⟨hline, fun hnewline => hlast (congrArg some hnewline.symm)⟩
    · rw [List.mem_singleton.1 hshown]
      decide +kernel

theorem patchLines_flatMap (h : ∀ line ∈ lines, 0x0a ∉ line) :
    patchLines (lines.flatMap (· ++ [0x0a])) = lines := by
  have hsplit : (lines.flatMap (· ++ [0x0a])).splitOn 0x0a = lines ++ [[]] := by
    induction lines with
    | nil => rfl
    | cons line lines ih =>
      rw [flatMap_cons, append_assoc, List.singleton_append, List.splitOn_append_cons_self,
        ih fun l hl => h l (List.mem_cons_of_mem _ hl)]
      have hline := splitOn_append_of_not_mem (h line List.mem_cons_self) []
      rw [append_nil] at hline
      rw [hline, List.splitOn_nil, List.modifyHead_cons, append_nil]
      rfl
  rw [patchLines, hsplit, List.dropLast_concat]

theorem withNewlines_shown (hnext : ∀ next ∈ lines.head?, saysNoNewline next = false) :
    withNewlines (shownLines mark line ++ lines) = (markUnit mark :: line) :: withNewlines lines := by
  unfold shownLines
  split
  · next hline =>
    have hback : markUnit mark :: line.dropLast ++ [0x0a] = markUnit mark :: line := by
      rw [cons_append, List.dropLast_append_getLast? _ hline]
    cases lines with
    | nil => exact congrArg ([·]) hback
    | cons next lines =>
      rw [List.singleton_append, withNewlines, hnext next rfl, if_neg Bool.false_ne_true, hback]
  · have hsays : saysNoNewline (text "\\ No newline at end of file") = true := by decide +kernel
    rw [cons_append, List.singleton_append, withNewlines, hsays, if_pos rfl]

-- Headers

/-- A number that the language writes with all its digits. -/
def Plain (n : Int) : Prop := 0 ≤ n ∧ n < 10 ^ 21

theorem readNumber_formatNumber (hn : Plain n) (hrest : ∀ unit ∈ rest.head?, isDigit unit = false) :
    readNumber (formatNumber n ++ rest) = some (n, rest) := by
  obtain ⟨n, rfl⟩ := Int.eq_ofNat_of_zero_le hn.1
  have hformat : formatNumber (n : Int) = decimal n := formatNumber_nat (by have := hn.2; omega)
  have hnone : rest.takeWhile isDigit = [] ∧ rest.dropWhile isDigit = rest := by
    cases rest with
    | nil => exact ⟨rfl, rfl⟩
    | cons unit rest =>
      have hunit : ¬ isDigit unit = true := by rw [hrest unit rfl]; exact Bool.false_ne_true
      exact ⟨List.takeWhile_cons_of_neg hunit, List.dropWhile_cons_of_neg hunit⟩
  have hdigits : ∀ unit ∈ decimal n, isDigit unit = true := fun _ => isDigit_decimal
  unfold readNumber
  dsimp only
  rw [hformat, List.takeWhile_append_of_pos hdigits, List.dropWhile_append_of_pos hdigits, hnone.1,
    hnone.2, append_nil, if_neg (decimal_ne_nil n), digitsValue_decimal]

theorem expect_append (expected rest : Text) : expect expected (expected ++ rest) = some rest := by
  have hstarts : expected.isPrefixOf (expected ++ rest) = true :=
    List.isPrefixOf_iff_prefix.2 (List.prefix_append expected rest)
  rw [expect, if_pos hstarts, List.drop_left]

theorem readCount_one (hrest : ∀ unit ∈ rest.head?, unit ≠ 0x2c) :
    readCount rest = some (1, rest) := by
  have hnone : expect (text ",") rest = none := by
    refine if_neg fun hstarts => ?_
    obtain ⟨tail, rfl⟩ := List.isPrefixOf_iff_prefix.1 hstarts
    exact hrest 0x2c rfl rfl
  rw [readCount, hnone]

/-- A range that begins at line `start`, which counts from one. -/
structure PlainRange (start count : Int) : Prop where
  before : Plain (start - 1)
  start : Plain start
  count : Plain count

theorem PlainRange.named (h : PlainRange start count) :
    Plain (if count = 0 then start - 1 else start) := by
  split
  · exact h.before
  · exact h.start

theorem readRange_headerRange (hrange : PlainRange start count)
    (hrest : ∀ unit ∈ rest.head?, isDigit unit = false ∧ unit ≠ 0x2c) :
    readRange (headerRange start count ++ rest) =
      some (if count = 0 then start - 1 else start, count, rest) := by
  have hdigit : ∀ unit ∈ rest.head?, isDigit unit = false := fun unit hunit => (hrest unit hunit).1
  have hcomma : ∀ unit ∈ (text "," ++ (formatNumber count ++ rest)).head?, isDigit unit = false :=
    fun unit hunit => Option.some.inj hunit ▸ rfl
  unfold readRange headerRange
  by_cases hone : count = 1
  · subst hone
    rw [if_pos rfl, if_neg (by decide), readNumber_formatNumber hrange.start hdigit]
    exact bind_eq_some_iff.2
      ⟨_, rfl, bind_eq_some_iff.2 ⟨_, readCount_one fun unit hunit => (hrest unit hunit).2, rfl⟩⟩
  · have hread : readCount (text "," ++ (formatNumber count ++ rest)) = some (count, rest) := by
      rw [readCount, expect_append]
      exact readNumber_formatNumber hrange.count hdigit
    rw [if_neg hone, append_assoc, append_assoc, readNumber_formatNumber hrange.named hcomma]
    exact bind_eq_some_iff.2 ⟨_, rfl, bind_eq_some_iff.2 ⟨_, hread, rfl⟩⟩

theorem readHeader_hunkHeader (functionName : Text)
    (hrange1 : PlainRange start1 count1) (hrange2 : PlainRange start2 count2) :
    readHeader (hunkHeader start1 count1 start2 count2 functionName) = some
      { oldStart := if count1 = 0 then start1 - 1 else start1, oldCount := count1
        newStart := if count2 = 0 then start2 - 1 else start2, newCount := count2, body := [] } := by
  let name := (if functionName = [] then [] else text " " ++ functionName) ++ text "\n"
  have hshape : hunkHeader start1 count1 start2 count2 functionName =
      text "@@ -" ++ (headerRange start1 count1 ++ (text " +" ++
        (headerRange start2 count2 ++ (text " @@" ++ name)))) := by
    rw [hunkHeader]
    simp only [append_assoc]
    rfl
  have hplus : ∀ unit ∈ (text " +" ++ (headerRange start2 count2 ++ (text " @@" ++ name))).head?,
      isDigit unit = false ∧ unit ≠ 0x2c :=
    fun unit hunit => Option.some.inj hunit ▸ ⟨rfl, by decide⟩
  have hend : ∀ unit ∈ (text " @@" ++ name).head?, isDigit unit = false ∧ unit ≠ 0x2c :=
    fun unit hunit => Option.some.inj hunit ▸ ⟨rfl, by decide⟩
  rw [hshape, readHeader, expect_append]
  refine bind_eq_some_iff.2 ⟨_, rfl, ?_⟩
  refine bind_eq_some_iff.2 ⟨_, readRange_headerRange hrange1 hplus, ?_⟩
  refine bind_eq_some_iff.2 ⟨_, expect_append _ _, ?_⟩
  refine bind_eq_some_iff.2 ⟨_, readRange_headerRange hrange2 hend, ?_⟩
  exact bind_eq_some_iff.2 ⟨_, expect_append _ _, rfl⟩

theorem newline_notMem_formatNumber (hn : Plain n) : 0x0a ∉ formatNumber n := by
  intro hnewline
  have hbound : n.natAbs < 10 ^ 21 := by have := hn.1; have := hn.2; omega
  exact absurd (isNumeric_formatNumber hbound _ hnewline) (by decide)

theorem newline_notMem_headerRange (hrange : PlainRange start count) :
    0x0a ∉ headerRange start count := by
  unfold headerRange
  split
  · exact newline_notMem_formatNumber hrange.start
  · rw [mem_append, not_or, mem_append, not_or]
    exact ⟨⟨newline_notMem_formatNumber hrange.named, by decide +kernel⟩,
      newline_notMem_formatNumber hrange.count⟩

/-- A header is one line, when the name in it is. -/
theorem hunkHeader_line {start1 count1 start2 count2 : Int} {functionName : Text}
    (hrange1 : PlainRange start1 count1) (hrange2 : PlainRange start2 count2)
    (hname : 0x0a ∉ functionName) : ∃ line, 0x0a ∉ line ∧ line.head? = some 0x40 ∧
      hunkHeader start1 count1 start2 count2 functionName = line ++ [0x0a] := by
  let name := if functionName = [] then [] else text " " ++ functionName
  have hname' : 0x0a ∉ name := by
    unfold name
    split
    · exact List.not_mem_nil
    · rw [mem_append, not_or]
      exact ⟨by decide +kernel, hname⟩
  refine ⟨text "@@ -" ++ headerRange start1 count1 ++ text " +" ++ headerRange start2 count2 ++
    text " @@" ++ name, ?_, rfl, rfl⟩
  simp only [mem_append, not_or]
  exact ⟨⟨⟨⟨⟨by decide +kernel, newline_notMem_headerRange hrange1⟩, by decide +kernel⟩,
    newline_notMem_headerRange hrange2⟩, by decide +kernel⟩, hname'⟩

-- Texts that read as hunks

/-- The lines of a text read as the rest of a body and the hunks after it. -/
structure ReadsAs (t : Text) (lines : List Text) (body : List (PatchLine Text))
    (hunks : List (Hunk Text)) : Prop where
  text_eq : t = lines.flatMap (· ++ [0x0a])
  newline_notMem : ∀ line ∈ lines, 0x0a ∉ line
  head : ∀ line ∈ lines.head?, saysNoNewline line = false
  reads : readHunks (withNewlines lines) = some (body, hunks)

def Reads (t : Text) (body : List (PatchLine Text)) (hunks : List (Hunk Text)) : Prop :=
  ∃ lines, ReadsAs t lines body hunks

theorem Reads.nil : Reads [] [] [] :=
  ⟨[], { text_eq := rfl, newline_notMem := nofun, head := nofun, reads := rfl }⟩

theorem Reads.parse (h : Reads t [] hunks) : parsePatch t = some hunks := by
  obtain ⟨lines, h⟩ := h
  rw [parsePatch, h.text_eq, patchLines_flatMap h.newline_notMem, h.reads]
  rfl

theorem readMark_markUnit (mark : Mark) : readMark (markUnit mark) = some mark := by
  cases mark <;> rfl

theorem readHeader_marked (mark : Mark) (line : Text) : readHeader (markUnit mark :: line) = none := by
  have hexpect : expect (text "@@ -") (markUnit mark :: line) = none := by
    refine if_neg fun hstarts => ?_
    obtain ⟨tail, htail⟩ := List.isPrefixOf_iff_prefix.1 hstarts
    have hunit : some (0x40 : UInt16) = some (markUnit mark) := congrArg List.head? htail
    cases mark <;> exact absurd hunit (by decide)
  rw [readHeader, hexpect]
  rfl

theorem Reads.record (h : Reads t body hunks) (hline : IsLine line) :
    Reads (emitRecord (markUnit mark) line ++ t) ({ mark, line } :: body) hunks := by
  obtain ⟨lines, h⟩ := h
  refine ⟨shownLines mark line ++ lines, ?_, ?_, ?_, ?_⟩
  · rw [List.flatMap_append, ← h.text_eq, emitRecord_eq]
  · intro shown hshown
    rcases mem_append.1 hshown with hshown | hshown
    · exact newline_notMem_shownLines hline shown hshown
    · exact h.newline_notMem shown hshown
  · intro shown hshown
    have hmark : ∃ rest, shown = markUnit mark :: rest := by
      unfold shownLines at hshown
      split at hshown <;> exact ⟨_, (Option.some.inj hshown).symm⟩
    obtain ⟨rest, rfl⟩ := hmark
    cases mark <;> rfl
  · rw [withNewlines_shown h.head, readHunks, h.reads]
    dsimp only [Option.bind_eq_bind, bind_some]
    rw [readHeader_marked, readPatchLine, readMark_markUnit]
    rfl

theorem withNewlines_cons (hnext : ∀ next ∈ lines.head?, saysNoNewline next = false) :
    withNewlines (line :: lines) = (line ++ [0x0a]) :: withNewlines lines := by
  cases lines with
  | nil => rfl
  | cons next lines => rw [withNewlines, hnext next rfl, if_neg Bool.false_ne_true]

theorem Reads.header (h : Reads t body hunks) {functionName : Text}
    (hrange1 : PlainRange start1 count1) (hrange2 : PlainRange start2 count2)
    (hname : 0x0a ∉ functionName) :
    Reads (hunkHeader start1 count1 start2 count2 functionName ++ t) []
      ({ oldStart := if count1 = 0 then start1 - 1 else start1, oldCount := count1
         newStart := if count2 = 0 then start2 - 1 else start2, newCount := count2, body } ::
        hunks) := by
  obtain ⟨lines, h⟩ := h
  obtain ⟨line, hnewline, hhead, hheader⟩ :=
    @hunkHeader_line start1 count1 start2 count2 functionName hrange1 hrange2 hname
  refine ⟨line :: lines, ?_, ?_, ?_, ?_⟩
  · rw [flatMap_cons, ← h.text_eq, hheader]
  · intro other hother
    rcases mem_cons.1 hother with rfl | hother
    · exact hnewline
    · exact h.newline_notMem other hother
  · intro other hother
    rw [← Option.some.inj hother, saysNoNewline, hhead]
    rfl
  · have hread := readHeader_hunkHeader functionName hrange1 hrange2
    rw [hheader] at hread
    rw [withNewlines_cons h.head, readHunks, h.reads]
    dsimp only [Option.bind_eq_bind, bind_some]
    rw [hread]

end Kompjutr.Diff
