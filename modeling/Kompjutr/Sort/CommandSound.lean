/-
  Kompjutr.Sort.CommandSound

  What `sort` writes is in order (`sortLines_ordered`): on lines that the settings tell apart, the
  order of lines is a total preorder, and so the sort, `-u` and `-c` agree with it.
-/
import Mathlib.Data.List.Perm.Subperm
import Kompjutr.Sort.Command
import Kompjutr.Sort.CompareSound

namespace Kompjutr.Sort

open Compare
open List (mem_cons mem_cons_of_mem mem_cons_self pairwise_cons)
open Option (all_some not_mem_none)

variable {left right : Span} {line : Line}

variable {global : KeyOptions}

variable {settings : SortSettings} {lines : List Line}

-- The order of lines

/-- The settings under which the order of some lines is transitive: names of a version key that
    differ in their stems are told apart by them, and no plain number with a leading plus stands
    beside a line that is no plain number. -/
structure Comparable (settings : SortSettings) (lines : List Line) : Prop where
  whole : settings.keys = [] → settings.global.mode = .version → ∀ a ∈ lines, ∀ b ∈ lines,
    StemsAgree (skipBlanksOf (spanOf a) settings.global.blanksAtStart).content
      (skipBlanksOf (spanOf b) settings.global.blanksAtStart).content
  keys : ∀ key ∈ settings.keys, key.options.mode = .version → ∀ a ∈ lines, ∀ b ∈ lines,
    StemsAgree (keySpan (spanOf a) key settings.separator).content
      (keySpan (spanOf b) key settings.separator).content
  numbers : settings.keys = [] → settings.global.mode = .numeric →
    (∀ line ∈ lines, isPlainNumber (spanOf line) = true) ∨
      ∀ line ∈ lines, isPlainNumber (spanOf line) = true → line.head? ≠ some 0x2b

theorem content_spanOf (line : Line) : (spanOf line).content = line :=
  List.take_of_length_le (Nat.le_refl _)

theorem turns_reversed {α : Type} {cmp : α → α → Int} (h : Turns cmp) (reverse : Bool) :
    Turns fun a b => if reverse then -cmp a b else cmp a b := by
  cases reverse with
  | false => exact h
  | true => exact h.neg

theorem transOn_reversed {α : Type} {cmp : α → α → Int} {S : α → Prop} (ht : Turns cmp)
    (h : TransOn S cmp) (reverse : Bool) :
    TransOn S fun a b => if reverse then -cmp a b else cmp a b := by
  cases reverse with
  | false => exact h
  | true => exact h.neg ht

theorem compareKeys_cons (separator : Option UInt8) (key : SortKey) (keys : List SortKey) :
    compareKeys separator (key :: keys) = thenBy
      (fun left right => if key.options.reverse then
        -compareSpans (keySpan left key separator) (keySpan right key separator) key.options
        else compareSpans (keySpan left key separator) (keySpan right key separator) key.options)
      (compareKeys separator keys) := by
  funext left right
  rw [compareKeys]
  unfold thenBy
  dsimp only
  cases key.options.reverse with
  | false => rfl
  | true =>
    refine (if_congr ?_ rfl rfl).symm
    rw [if_pos rfl]
    omega

theorem turns_compareKeys (separator : Option UInt8) (keys : List SortKey) :
    Turns (compareKeys separator keys) := by
  induction keys with
  | nil => exact turns_zero
  | cons key keys ih =>
    rw [compareKeys_cons]
    exact (turns_reversed ((turns_compareSpans key.options).comap fun line =>
      keySpan line key separator) key.options.reverse).thenBy ih

theorem transOn_compareKeys {separator : Option UInt8} {keys : List SortKey} {S : Span → Prop}
    (h : ∀ key ∈ keys, key.options.mode = .version → ∀ a b, S a → S b →
      StemsAgree (keySpan a key separator).content (keySpan b key separator).content) :
    TransOn S (compareKeys separator keys) := by
  induction keys with
  | nil => exact transOn_zero
  | cons key keys ih =>
    have hturns := (turns_compareSpans key.options).comap fun line => keySpan line key separator
    have htrans : TransOn S fun left right =>
        compareSpans (keySpan left key separator) (keySpan right key separator) key.options := by
      refine (@transOn_compareSpans key.options
        (fun span => ∃ line, S line ∧ keySpan line key separator = span) ?_).comap _
          fun line hline => ⟨line, hline, rfl⟩
      rintro hmode _ _ ⟨left, hleft, rfl⟩ ⟨right, hright, rfl⟩
      exact h key mem_cons_self hmode left right hleft hright
    rw [compareKeys_cons]
    exact (transOn_reversed hturns htrans key.options.reverse).thenBy
      (turns_reversed hturns key.options.reverse) (ih fun other hother =>
        h other (mem_cons_of_mem _ hother))

theorem comparePlainNumbers_turns :
    (comparePlainNumbers left right).getD (compareSpans (skipBlanksOf left global.blanksAtStart)
        (skipBlanksOf right global.blanksAtStart) global) ≤ 0 ↔
      0 ≤ (comparePlainNumbers right left).getD (compareSpans
        (skipBlanksOf right global.blanksAtStart) (skipBlanksOf left global.blanksAtStart) global) := by
  unfold comparePlainNumbers
  rw [Bool.or_comm]
  split
  next => exact turns_compareSpans global _ _
  next => exact turns_compareDecimals _ _

/-- The order of whole lines, before it is reversed. -/
def compareWholeForward (global : KeyOptions) (left right : Span) : Int :=
  (if global.mode = .numeric then comparePlainNumbers left right else none).getD
    (compareSpans (skipBlanksOf left global.blanksAtStart) (skipBlanksOf right global.blanksAtStart)
      global)

theorem turns_compareWholeForward (global : KeyOptions) : Turns (compareWholeForward global) := by
  intro left right
  unfold compareWholeForward
  split
  next => exact comparePlainNumbers_turns
  next => exact turns_compareSpans global _ _

theorem turns_compareWhole (global : KeyOptions) : Turns (compareWhole global) :=
  turns_reversed (turns_compareWholeForward global) global.reverse

/-- What the options of a command allow: `-d` and `-n` conflict. -/
def Accepted (settings : SortSettings) : Prop :=
  settings.global.mode = .numeric → settings.global.dictionary = false

theorem skipBlanksOf_plain {skip : Bool} (h : isPlainNumber (spanOf line) = true) :
    skipBlanksOf (spanOf line) skip = spanOf line := by
  unfold skipBlanksOf
  split
  next =>
    have hbetween : between line 0 line.length = line := List.take_of_length_le (Nat.le_refl _)
    have hnone : line.takeWhile isBlank = [] := by
      cases line with
      | nil => rfl
      | cons u rest =>
        have hu := isPlainNumber_bytes h u (by rw [content_spanOf]; exact mem_cons_self)
        exact List.takeWhile_cons_of_neg (by rw [not_isBlank_of_number hu]; exact Bool.false_ne_true)
    have hskip : skipBlanks line 0 line.length = 0 := by
      unfold skipBlanks
      rw [hbetween, hnone]
      rfl
    unfold spanOf
    dsimp only
    rw [hskip]
  next => rfl

/-- Without a leading plus, two plain numbers compare as they do under any other rule. -/
theorem comparePlainNumbers_spans {left right : Line}
    (hmode : global.mode = .numeric) (hdictionary : global.dictionary = false)
    (hleft : isPlainNumber (spanOf left) = true) (hright : isPlainNumber (spanOf right) = true)
    (hl : left.head? ≠ some 0x2b) (hr : right.head? ≠ some 0x2b) :
    comparePlainNumbers (spanOf left) (spanOf right) =
      some (compareSpans (skipBlanksOf (spanOf left) global.blanksAtStart)
        (skipBlanksOf (spanOf right) global.blanksAtStart) global) := by
  unfold comparePlainNumbers compareSpans
  rw [hleft, hright, skipBlanksOf_plain hleft, skipBlanksOf_plain hright, hmode,
    decimal_plus hleft (by rwa [content_spanOf]), decimal_plus hright (by rwa [content_spanOf])]
  exact congrArg some (compareDecimals_congr (prepared_content hdictionary hleft).symm
    (prepared_content hdictionary hright).symm)

theorem compareWholeForward_plain
    (hmode : global.mode = .numeric) (hleft : isPlainNumber left = true)
    (hright : isPlainNumber right = true) :
    compareWholeForward global left right =
      compareDecimals (decimal left true) (decimal right true) := by
  unfold compareWholeForward comparePlainNumbers
  rw [if_pos hmode, hleft, hright]
  rfl

theorem compareWholeForward_spans {left right : Line}
    (hdictionary : global.mode = .numeric → global.dictionary = false)
    (hleft : global.mode = .numeric → isPlainNumber (spanOf left) = true → left.head? ≠ some 0x2b)
    (hright : global.mode = .numeric → isPlainNumber (spanOf right) = true →
      right.head? ≠ some 0x2b) :
    compareWholeForward global (spanOf left) (spanOf right) =
      compareSpans (skipBlanksOf (spanOf left) global.blanksAtStart)
        (skipBlanksOf (spanOf right) global.blanksAtStart) global := by
  unfold compareWholeForward
  by_cases hmode : global.mode = .numeric
  · rw [if_pos hmode]
    by_cases hplain : isPlainNumber (spanOf left) = true ∧ isPlainNumber (spanOf right) = true
    · rw [comparePlainNumbers_spans hmode (hdictionary hmode) hplain.1 hplain.2
        (hleft hmode hplain.1) (hright hmode hplain.2)]
      rfl
    · unfold comparePlainNumbers
      rw [if_pos]
      · rfl
      · rw [Bool.or_eq_true, Bool.not_eq_true', Bool.not_eq_true']
        rw [not_and_or, Bool.not_eq_true, Bool.not_eq_true] at hplain
        exact hplain
  · rw [if_neg hmode]
    rfl

theorem transOn_compareWholeForward (haccepted : Accepted settings) (hkeys : settings.keys = [])
    (h : Comparable settings lines) :
    TransOn (· ∈ lines) fun left right =>
      compareWholeForward settings.global (spanOf left) (spanOf right) := by
  have hspans : TransOn (· ∈ lines) fun left right =>
      compareSpans (skipBlanksOf (spanOf left) settings.global.blanksAtStart)
        (skipBlanksOf (spanOf right) settings.global.blanksAtStart) settings.global := by
    refine (@transOn_compareSpans settings.global
      (fun span => ∃ line ∈ lines, skipBlanksOf (spanOf line) settings.global.blanksAtStart = span)
      ?_).comap _ fun line hline => ⟨line, hline, rfl⟩
    rintro hmode _ _ ⟨left, hleft, rfl⟩ ⟨right, hright, rfl⟩
    exact h.whole hkeys hmode left hleft right hright
  by_cases hmode : settings.global.mode = .numeric
  · rcases h.numbers hkeys hmode with hplain | hplus
    · refine ((transOn_compareDecimals.comap (fun line => decimal (spanOf line) true)
        fun _ _ => trivial).mono fun _ _ => trivial).of_sign fun left right hleft hright => ?_
      rw [compareWholeForward_plain hmode (hplain left hleft) (hplain right hright)]
    · refine hspans.of_sign fun left right hleft hright => congrArg Int.sign ?_
      exact compareWholeForward_spans haccepted (fun _ => hplus left hleft)
        fun _ => hplus right hright
  · refine hspans.of_sign fun left right _ _ => congrArg Int.sign ?_
    exact compareWholeForward_spans haccepted (fun hnumeric => absurd hnumeric hmode)
      fun hnumeric => absurd hnumeric hmode

/-- The keys of two lines, or the whole lines. -/
def compareContent (settings : SortSettings) (left right : Line) : Int :=
  if settings.keys = [] then compareWhole settings.global (spanOf left) (spanOf right)
  else compareKeys settings.separator settings.keys (spanOf left) (spanOf right)

/-- What decides between lines whose content is equal. -/
def lastResort (settings : SortSettings) (left right : Line) : Int :=
  if settings.stable || settings.unique then 0
  else if settings.global.reverse then -compareBytes left right else compareBytes left right

theorem comparator_eq (settings : SortSettings) :
    comparator settings = thenBy (compareContent settings) (lastResort settings) := by
  funext left right
  unfold comparator thenBy compareContent lastResort
  generalize (if settings.keys = [] then compareWhole settings.global (spanOf left) (spanOf right)
    else compareKeys settings.separator settings.keys (spanOf left) (spanOf right)) = difference
  by_cases hzero : difference = 0
  · subst hzero
    dsimp only
    rw [if_neg (not_not.2 rfl), decide_eq_false (not_not.2 rfl), Bool.false_or]
  · dsimp only
    rw [decide_eq_true hzero, Bool.true_or, Bool.true_or, if_pos rfl, if_pos hzero]

theorem turns_compareContent (settings : SortSettings) : Turns (compareContent settings) := by
  unfold compareContent
  split
  next => exact (turns_compareWhole settings.global).comap spanOf
  next => exact (turns_compareKeys settings.separator settings.keys).comap spanOf

theorem turns_lastResort (settings : SortSettings) : Turns (lastResort settings) := by
  unfold lastResort
  split
  next => exact turns_zero
  next => exact turns_reversed turns_compareBytes settings.global.reverse

/-- The order of lines turns its sign with them, whatever the settings. -/
theorem turns_comparator (settings : SortSettings) : Turns (comparator settings) := by
  rw [comparator_eq]
  exact (turns_compareContent settings).thenBy (turns_lastResort settings)

theorem transOn_compareContent (haccepted : Accepted settings) (h : Comparable settings lines) :
    TransOn (· ∈ lines) (compareContent settings) := by
  unfold compareContent
  split
  next hkeys =>
    exact transOn_reversed ((turns_compareWholeForward settings.global).comap spanOf)
      (transOn_compareWholeForward haccepted hkeys h) settings.global.reverse
  next =>
    refine (@transOn_compareKeys settings.separator settings.keys
      (fun span => ∃ line ∈ lines, spanOf line = span) ?_).comap _ fun line hline =>
        ⟨line, hline, rfl⟩
    rintro key hkey hmode _ _ ⟨left, hleft, rfl⟩ ⟨right, hright, rfl⟩
    exact h.keys key hkey hmode left hleft right hright

theorem transOn_lastResort (settings : SortSettings) :
    TransOn (fun _ => True) (lastResort settings) := by
  unfold lastResort
  split
  next => exact transOn_zero
  next => exact transOn_reversed turns_compareBytes transOn_compareBytes settings.global.reverse

theorem transOn_comparator (haccepted : Accepted settings) (h : Comparable settings lines) :
    TransOn (· ∈ lines) (comparator settings) := by
  rw [comparator_eq]
  exact (transOn_compareContent haccepted h).thenBy (turns_compareContent settings)
    ((transOn_lastResort settings).mono fun _ _ => trivial)

-- The lines that are written

section Unique

variable {cmp : Line → Line → Int} {S : Line → Prop} {previous previous' : Option Line}
  {sorted sorted' : List Line}

theorem uniqueFrom_sublist (equal : Line → Line → Int) (previous : Option Line) (lines : List Line) :
    (uniqueFrom equal previous lines).Sublist lines := by
  induction lines generalizing previous with
  | nil => exact List.Sublist.refl _
  | cons line lines ih =>
    rw [uniqueFrom]
    split
    next => exact (ih (some line)).cons_cons line
    next => exact (ih previous).cons line

/-- Of sorted lines, each one kept is before the next. -/
theorem pairwise_uniqueFrom (ht : Turns cmp) (h : TransOn S cmp) (hin : ∀ line ∈ sorted, S line)
    (hprevious : ∀ kept ∈ previous, S kept ∧ ∀ line ∈ sorted, cmp kept line ≤ 0)
    (hsorted : sorted.Pairwise fun a b => cmp a b ≤ 0) :
    (uniqueFrom cmp previous sorted).Pairwise (fun a b => cmp a b < 0) ∧
      ∀ kept ∈ previous, ∀ line ∈ uniqueFrom cmp previous sorted, cmp kept line < 0 := by
  induction sorted generalizing previous with
  | nil => exact ⟨List.Pairwise.nil, fun _ _ _ hline => nomatch hline⟩
  | cons line lines ih =>
    obtain ⟨hline, hlines⟩ := List.forall_mem_cons.1 hin
    obtain ⟨hbehind, hrest⟩ := pairwise_cons.1 hsorted
    rw [uniqueFrom]
    split
    next hall =>
      obtain ⟨hpairs, hafter⟩ := @ih (some line) hlines
        (by rintro _ ⟨⟩; exact ⟨hline, hbehind⟩) hrest
      have hstrict := hafter line rfl
      refine ⟨pairwise_cons.2 ⟨hstrict, hpairs⟩, fun kept hkept other hother => ?_⟩
      obtain ⟨hS, hle⟩ := hprevious kept hkept
      have hne : cmp kept line ≠ 0 := by
        rw [Option.mem_def] at hkept
        rw [hkept, all_some, decide_eq_true_iff] at hall
        exact hall
      have hfirst := hle line mem_cons_self
      rcases mem_cons.1 hother with rfl | hother
      · omega
      · have hSother := hlines other ((uniqueFrom_sublist cmp _ lines).subset hother)
        have hle' := hle other (mem_cons_of_mem _ ((uniqueFrom_sublist cmp _ lines).subset hother))
        refine Int.lt_iff_le_and_ne.2 ⟨hle', fun hzero => hne ?_⟩
        exact (h.eq_of_ends ht hS hline hSother hfirst (Int.le_of_lt (hstrict other hother)) hzero).1
    next => exact ih hlines (fun kept hkept => ⟨(hprevious kept hkept).1, fun other hother =>
        (hprevious kept hkept).2 other (mem_cons_of_mem _ hother)⟩) hrest

/-- Every line is equal to one that is kept. -/
theorem uniqueFrom_keeps (ht : Turns cmp) {line : Line} (hline : line ∈ sorted) :
    ∃ kept, (kept ∈ previous ∨ kept ∈ uniqueFrom cmp previous sorted) ∧ cmp kept line = 0 := by
  induction sorted generalizing previous with
  | nil => cases hline
  | cons first lines ih =>
    rw [uniqueFrom]
    split
    next =>
      rcases mem_cons.1 hline with rfl | hline
      · exact ⟨line, Or.inr mem_cons_self, ht.self line⟩
      · obtain ⟨kept, hkept | hkept, hzero⟩ := @ih (some first) hline
        · cases hkept
          exact ⟨first, Or.inr mem_cons_self, hzero⟩
        · exact ⟨kept, Or.inr (mem_cons_of_mem _ hkept), hzero⟩
    next hsome =>
      rcases mem_cons.1 hline with rfl | hline
      · cases previous with
        | none => exact absurd rfl hsome
        | some kept =>
          rw [all_some, decide_eq_true_iff, not_not] at hsome
          exact ⟨kept, Or.inl rfl, hsome⟩
      · exact ih hline

/-- Lines that are each before the next hold one of each kind at most. -/
theorem countP_le_one (ht : Turns cmp) (h : TransOn S cmp) (hin : ∀ line ∈ sorted, S line)
    (hsorted : sorted.Pairwise fun a b => cmp a b < 0) (hline : S line) :
    sorted.countP (fun kept => cmp kept line = 0) ≤ 1 := by
  rw [List.countP_eq_length_filter]
  have hpairs := hsorted.filter fun kept => cmp kept line = 0
  have hmem : ∀ kept ∈ sorted.filter (fun kept => cmp kept line = 0), S kept ∧ cmp kept line = 0 :=
    fun kept hkept => ⟨hin kept (List.mem_of_mem_filter hkept),
      of_decide_eq_true (List.mem_filter.1 hkept).2⟩
  match hfilter : sorted.filter (fun kept => cmp kept line = 0) with
  | [] => exact Nat.zero_le 1
  | [_] => exact Nat.le_refl 1
  | first :: second :: rest =>
    rw [hfilter] at hpairs hmem
    have hlt := (pairwise_cons.1 hpairs).1 second mem_cons_self
    obtain ⟨hfirst, hzero⟩ := hmem first mem_cons_self
    obtain ⟨hsecond, hzero'⟩ := hmem second (mem_cons_of_mem _ mem_cons_self)
    have hends := h.equal_congr ht hfirst hline hsecond hline hzero hzero'
    have hself := hends.2 (ht.self line)
    omega

/-- Equal lines keep equal lines. -/
theorem uniqueFrom_equal (ht : Turns cmp) (h : TransOn S cmp) (hin : ∀ line ∈ sorted, S line)
    (hin' : ∀ line ∈ sorted', S line) (hprevious : ∀ kept ∈ previous, S kept)
    (hprevious' : ∀ kept ∈ previous', S kept)
    (hequal : Option.Rel (fun a b => cmp a b = 0) previous previous')
    (hsorted : List.Forall₂ (fun a b => cmp a b = 0) sorted sorted') :
    List.Forall₂ (fun a b => cmp a b = 0) (uniqueFrom cmp previous sorted)
      (uniqueFrom cmp previous' sorted') := by
  induction hsorted generalizing previous previous' with
  | nil => exact List.Forall₂.nil
  | @cons line line' lines lines' hzero _ ih =>
    obtain ⟨hline, hlines⟩ := List.forall_mem_cons.1 hin
    obtain ⟨hline', hlines'⟩ := List.forall_mem_cons.1 hin'
    have hsame : (previous.all fun kept => cmp kept line ≠ 0) =
        previous'.all fun kept => cmp kept line' ≠ 0 := by
      cases hequal with
      | none => rfl
      | @some kept kept' hkept =>
        have hS := hprevious kept rfl
        have hS' := hprevious' kept' rfl
        rw [all_some, all_some]
        exact decide_eq_decide.2 (not_congr (h.equal_congr ht hS hS' hline hline' hkept hzero))
    rw [uniqueFrom, uniqueFrom, hsame]
    split
    next =>
      exact List.Forall₂.cons hzero (ih hlines hlines' (by rintro _ ⟨⟩; exact hline)
        (by rintro _ ⟨⟩; exact hline') (Option.Rel.some hzero))
    next => exact ih hlines hlines' hprevious hprevious' hequal

end Unique

theorem findDisorder_none {count : Nat} {previous : Option Line} {sorted : List Line}
    (hprevious : ∀ kept ∈ previous, ∀ line ∈ sorted, comparator settings kept line ≤ 0 ∧
      (settings.unique = true → comparator settings kept line ≠ 0))
    (hsorted : sorted.Pairwise fun a b => comparator settings a b ≤ 0 ∧
      (settings.unique = true → comparator settings a b ≠ 0)) :
    findDisorder settings count previous sorted = none := by
  induction sorted generalizing count previous with
  | nil => rfl
  | cons line lines ih =>
    obtain ⟨hbehind, hrest⟩ := pairwise_cons.1 hsorted
    rw [findDisorder, if_neg]
    · refine ih ?_ hrest
      rintro _ ⟨⟩
      exact hbehind
    · cases previous with
      | none => exact Bool.false_ne_true
      | some kept =>
        obtain ⟨hle, hne⟩ := hprevious kept rfl line mem_cons_self
        rw [Option.any_some, Bool.or_eq_true, decide_eq_true_iff, Bool.and_eq_true,
          decide_eq_true_iff]
        rintro (hlt | ⟨hunique, hzero⟩)
        · omega
        · exact hne hunique hzero

theorem sortLines_sorted (settings : SortSettings) (lines : List Line) :
    sortLines settings lines = if settings.unique then
      uniqueFrom (comparator settings) none (sortBy (comparator settings) lines)
      else sortBy (comparator settings) lines := rfl

/-- What `sort` writes follows the order of lines, keeps one line of each kind under `-u`, passes
    `sort -c`, and shows the order of its input among equal lines only. -/
theorem sortLines_ordered (haccepted : Accepted settings) (h : Comparable settings lines) :
    Turns (comparator settings) ∧ TransOn (· ∈ lines) (comparator settings) ∧
      (settings.unique = false → (sortLines settings lines).Perm lines) ∧
      (settings.unique = true → (sortLines settings lines).Subperm lines ∧ ∀ line ∈ lines,
        (sortLines settings lines).countP (fun kept => comparator settings kept line = 0) = 1) ∧
      findDisorder settings 0 none (sortLines settings lines) = none ∧
      ∀ shuffled : List Line, shuffled.Perm lines → List.Forall₂
        (fun a b => comparator settings a b = 0) (sortLines settings lines)
        (sortLines settings shuffled) := by
  have ht := turns_comparator settings
  have htrans := transOn_comparator haccepted h
  have hperm := @sortBy_perm Line (comparator settings) lines
  have hsorted := pairwise_sortBy ht htrans
  have hin : ∀ line ∈ sortBy (comparator settings) lines, line ∈ lines :=
    fun line => hperm.mem_iff.1
  have hsublist := uniqueFrom_sublist (comparator settings) none
    (sortBy (comparator settings) lines)
  have hstrict := (@pairwise_uniqueFrom (comparator settings) (· ∈ lines) none _ ht htrans hin
    (fun _ hkept => absurd hkept (not_mem_none _)) hsorted).1
  refine ⟨ht, htrans, fun hunique => ?_, fun hunique => ?_, ?_, fun shuffled hshuffled => ?_⟩
  · rw [sortLines_sorted, hunique]
    exact hperm
  · rw [sortLines_sorted, hunique, if_pos rfl]
    refine ⟨hsublist.subperm.trans hperm.subperm, fun line hline => ?_⟩
    refine Nat.le_antisymm (countP_le_one ht htrans (fun other hother =>
      hin other (hsublist.subset hother)) hstrict hline) ?_
    obtain ⟨kept, hkept | hkept, hzero⟩ := @uniqueFrom_keeps (comparator settings) none
      (sortBy (comparator settings) lines) ht line (hperm.mem_iff.2 hline)
    · cases hkept
    · exact List.countP_pos_iff.2 ⟨kept, hkept, decide_eq_true hzero⟩
  · refine findDisorder_none (fun _ hkept => absurd hkept (not_mem_none _)) ?_
    rw [sortLines_sorted]
    split
    next => exact hstrict.imp fun hlt => ⟨Int.le_of_lt hlt, fun _ => Int.ne_of_lt hlt⟩
    next hunique => exact hsorted.imp fun hle => ⟨hle, fun htrue => absurd htrue hunique⟩
  · have hequal := sortBy_equal ht htrans hshuffled
    rw [sortLines_sorted, sortLines_sorted]
    split
    next =>
      exact uniqueFrom_equal ht htrans hin (fun line hline =>
        hshuffled.mem_iff.1 ((sortBy_perm shuffled).mem_iff.1 hline))
        (fun _ hkept => absurd hkept (not_mem_none _))
        (fun _ hkept => absurd hkept (not_mem_none _)) Option.Rel.none hequal
    next => exact hequal

/-- `sort -n -u`. -/
def numericUnique : SortSettings :=
  { global := { defaultOptions with mode := .numeric }, keys := [], unique := true, stable := false
    separator := none }

/-- `10`, `9x`, `009`. -/
theorem numericUnique_ordered :
    findDisorder numericUnique 0 none
        (sortLines numericUnique [[0x31, 0x30], [0x39, 0x78], [0x30, 0x30, 0x39]]) = none :=
  (@sortLines_ordered numericUnique [[0x31, 0x30], [0x39, 0x78], [0x30, 0x30, 0x39]] (fun _ => rfl)
    { whole := fun _ hmode => absurd hmode (by decide)
      keys := nofun
      numbers := fun _ _ => Or.inr (by decide +kernel) }).2.2.2.2.1

/-- `+5` is before `3x`, which is before `4`, which is before `+5`: only two plain numbers are
    compared with their leading plus. -/
theorem numericUnique_cycle :
    ¬ ∀ settings, Accepted settings →
      Turns (comparator settings) ∧ TransOn (fun _ => True) (comparator settings) := by
  intro hall
  have htrans := (hall numericUnique fun _ => rfl).2 [0x2b, 0x35] [0x33, 0x78] [0x34]
    trivial trivial trivial (by decide +kernel) (by decide +kernel)
  exact absurd htrans (by decide +kernel)

end Kompjutr.Sort
