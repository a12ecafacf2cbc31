/-
  Kompjutr.Refs.NameSyntax

  The syntax check of ref names is git's grammar.

  The check goes over a range of a longer string once, and looks at the units before and behind the
  one it is at.  A range that the string ends with, or that a caret follows, is judged by its own
  units only (`scan_iff`).
-/
import Kompjutr.Objects.HeaderLines
import Kompjutr.Refs.Name

namespace Kompjutr.Refs

open Objects (Text text)
open List (append_assoc append_nil forall_mem_cons length_append mem_cons_self nil_append
  not_mem_nil)
open Bool (and_eq_true false_ne_true or_eq_true)

variable {value : Text} {unit : UInt16} {index : Nat}

variable {before component rest name : Text}

/-- The grammar of `check-ref-format`, with as many asterisks. -/
structure RefFormat (stars : Nat) (name : Text) : Prop where
  components : ∀ component ∈ name.splitOn 0x2f, component ≠ [] ∧
    component.head? ≠ some 0x2e ∧ ¬ text ".lock" <:+ component
  no_dots : ¬ text ".." <:+: name
  no_at_brace : ¬ text "@\x7b" <:+: name
  units : ∀ unit ∈ name, ¬ unit < 0x20 ∧ unit ≠ 0x7f ∧ unit ∉ text " ~^:?[\\"
  stars_eq : name.count 0x2a = stars
  no_trailing_dot : name.getLast? ≠ some 0x2e
  not_at : name ≠ text "@"

-- The loop

/-- The units that the loop lets through, from an index on. -/
def Allowed (wildcard : Option Nat) (index : Nat) : Text → Prop
  | [] => True
  | code :: rest =>
    (¬ code < 0x20 ∧ code ≠ 0x7f ∧ (isExcluded code = true → wildcard = some index)) ∧
      Allowed wildcard (index + 1) rest

/-- What is checked behind the loop. -/
def finishes (value : Text) (stop : Nat) : Option Nat → Bool
  | none => false
  | some componentStart =>
    value[componentStart]? ≠ some 0x2e && !endsWithAt value (text ".lock") stop

/-- A component that starts and ends as it may. -/
def Edged (component : Text) : Prop :=
  component.head? ≠ some 0x2e ∧ ¬ text ".lock" <:+ component

/-- What ends in `.lock` does so in its last component. -/
theorem lock_suffix (hbefore : before = [] ∨ ∃ front, before = front ++ [0x2f]) :
    text ".lock" <:+ before ++ component ↔ text ".lock" <:+ component := by
  refine ⟨fun h => ?_, List.suffix_append_of_suffix⟩
  rcases hbefore with rfl | ⟨front, rfl⟩
  · exact h
  · by_cases hlong : (text ".lock").length ≤ component.length
    · exact List.suffix_of_suffix_length_le h (List.suffix_append _ _) hlong
    · -- the suffix would have a slash
      have hslash : [0x2f] ++ component <:+ text ".lock" := by
        refine List.suffix_of_suffix_length_le ?_ h ?_
        · rw [append_assoc]
          exact List.suffix_append _ _
        · rw [length_append, List.length_singleton]
          omega
      have hmem : (0x2f : UInt16) ∈ text ".lock" := hslash.subset mem_cons_self
      exact absurd hmem (by decide)

theorem endsWithAt_eq (hvalue : value = before ++ component ++ rest)
    (hbefore : before = [] ∨ ∃ front, before = front ++ [0x2f]) :
    endsWithAt value (text ".lock") (before ++ component).length = true ↔
      text ".lock" <:+ component := by
  rw [endsWithAt, List.isSuffixOf_iff_suffix, hvalue, List.take_left' rfl, lock_suffix hbefore]

/-- The unit that a component starts with, or the one behind the range. -/
theorem componentStart_eq
    (hvalue : value = before ++ component ++ rest) (hrest : rest.head? ≠ some 0x2e) :
    value[before.length]? = some 0x2e ↔ component.head? = some 0x2e := by
  rw [hvalue, append_assoc, List.getElem?_append_right (le_refl _), Nat.sub_self]
  cases component with
  | nil => rw [nil_append, ← List.head?_eq_getElem?]; exact iff_of_false hrest nofun
  | cons unit component => rfl

/-- A pair of units at the front, or further on. -/
theorem pair_infix_cons {first second : UInt16} : [first, second] <:+: unit :: rest ↔
      (unit = first ∧ rest.head? = some second) ∨ [first, second] <:+: rest := by
  rw [List.infix_cons_iff]
  refine or_congr_left ?_
  cases rest with
  | nil => simp
  | cons next rest => simp [List.cons_prefix_cons, eq_comm]

/-- The loop from one index on, in the component that it is in. -/
theorem scan_iff {wildcard : Option Nat} {value rest : Text}
    (hrest : rest = [] ∨ rest.head? = some 0x5e) (before component remaining : Text)
    (hvalue : value = before ++ component ++ remaining ++ rest)
    (hbefore : before = [] ∨ ∃ front, before = front ++ [0x2f]) (hcomponent : 0x2f ∉ component) :
    finishes value (before ++ component ++ remaining).length
        (refComponents value wildcard before.length (before ++ component).length remaining) = true ↔
      (∀ part ∈ (component ++ remaining).splitOn 0x2f, Edged part) ∧
      (∀ part ∈ ((component ++ remaining).splitOn 0x2f).dropLast, part ≠ []) ∧
      ¬ text ".." <:+: remaining ∧ ¬ text "@\x7b" <:+: remaining ∧
      Allowed wildcard (before ++ component).length remaining := by
  have hhead : rest.head? ≠ some 0x2e := by
    rcases hrest with rfl | hcaret
    · exact (Option.some_ne_none _).symm
    · rw [hcaret]
      decide
  induction remaining generalizing before component with
  | nil =>
    rw [append_nil] at hvalue
    have hstart := componentStart_eq hvalue hhead
    have hlock := endsWithAt_eq hvalue hbefore
    rw [append_nil, append_nil, List.splitOn_eq_singleton hcomponent, refComponents,
      finishes, List.forall_mem_singleton, and_eq_true, Bool.not_eq_true', decide_eq_true_eq,
      ← Bool.not_eq_true, hlock]
    have hedged : value[before.length]? ≠ some 0x2e ∧ ¬ text ".lock" <:+ component ↔
        Edged component := and_congr_left' (not_congr hstart)
    rw [hedged]
    refine ⟨fun h => ⟨h, ?_, ?_, ?_, trivial⟩, fun h => h.1⟩
    · exact List.forall_mem_nil _
    · decide
    · decide
  | cons code remaining ih =>
    have hsplit : value = before ++ component ++ ([code] ++ (remaining ++ rest)) := by
      rw [hvalue]
      simp
    by_cases hslash : code = 0x2f
    · subst hslash
      have hnext := ih (before ++ component ++ [0x2f]) [] (by rw [hvalue]; simp)
        (.inr ⟨before ++ component, rfl⟩) not_mem_nil
      have hbehind : ([0x2f] ++ (remaining ++ rest)).head? ≠ some (0x2e : UInt16) := by simp
      have hstart := componentStart_eq hsplit hbehind
      have hlock := endsWithAt_eq hsplit hbefore
      have hedged : value[before.length]? ≠ some 0x2e ∧ ¬ text ".lock" <:+ component ↔
          Edged component := and_congr_left' (not_congr hstart)
      have hindex : (before ++ component ++ [0x2f]).length = (before ++ component).length + 1 := by
        rw [length_append, List.length_singleton]
      have hstop : (before ++ component ++ [0x2f] ++ [] ++ remaining).length =
          (before ++ component ++ 0x2f :: remaining).length := by
        simp
      have hnonempty : (before ++ component).length = before.length ↔ component = [] := by
        rw [length_append, ← List.length_eq_zero_iff]
        omega
      have hparts : (component ++ 0x2f :: remaining).splitOn 0x2f =
          component :: remaining.splitOn 0x2f := by
        rw [List.splitOn_append_cons_self, List.splitOn_eq_singleton hcomponent, List.singleton_append]
      have hinit : (component :: remaining.splitOn 0x2f).dropLast =
          component :: (remaining.splitOn 0x2f).dropLast :=
        List.dropLast_cons_of_ne_nil (List.splitOn_ne_nil _ _)
      rw [hstop, append_nil, nil_append, hindex] at hnext
      rw [hparts, hinit, forall_mem_cons, forall_mem_cons, ← hedged, Allowed]
      have hdots : text ".." <:+: 0x2f :: remaining ↔ text ".." <:+: remaining :=
        pair_infix_cons.trans (or_iff_right fun h => absurd h.1 (by decide))
      have hbrace : text "@\x7b" <:+: 0x2f :: remaining ↔ text "@\x7b" <:+: remaining :=
        pair_infix_cons.trans (or_iff_right fun h => absurd h.1 (by decide))
      have hallowed : ¬ (0x2f : UInt16) < 0x20 ∧ (0x2f : UInt16) ≠ 0x7f ∧
          (isExcluded 0x2f = true → wildcard = some (before ++ component).length) :=
        ⟨by decide, by decide, fun hexcluded => absurd hexcluded (by decide)⟩
      rw [hdots, hbrace, refComponents, if_pos rfl]
      by_cases hcut : (decide ((before ++ component).length = before.length) ||
          decide (value[before.length]? = some 0x2e) ||
          endsWithAt value (text ".lock") (before ++ component).length) = true
      · rw [if_pos hcut]
        simp only [or_eq_true, decide_eq_true_eq, hnonempty, hlock] at hcut
        refine iff_of_false false_ne_true ?_
        rintro ⟨⟨⟨hdot, hsuffix⟩, -⟩, ⟨hne, -⟩, -⟩
        rcases hcut with (hnil | hstarts) | hends
        · exact hne hnil
        · exact hdot hstarts
        · exact hsuffix hends
      · rw [if_neg hcut]
        refine hnext.trans ?_
        simp only [or_eq_true, decide_eq_true_eq, hnonempty, hlock, not_or] at hcut
        constructor
        · rintro ⟨hedges, hfull, hpair, hat, hrestAllowed⟩
          exact ⟨⟨⟨hcut.1.2, hcut.2⟩, hedges⟩, ⟨hcut.1.1, hfull⟩, hpair, hat, hallowed, hrestAllowed⟩
        · rintro ⟨⟨-, hedges⟩, ⟨-, hfull⟩, hpair, hat, -, hrestAllowed⟩
          exact ⟨hedges, hfull, hpair, hat, hrestAllowed⟩
    · have hnext := ih before (component ++ [code]) (by rw [hvalue]; simp) hbefore (by
        rw [List.mem_append, List.mem_singleton, not_or]
        exact ⟨hcomponent, Ne.symm hslash⟩)
      have hindex : (before ++ (component ++ [code])).length = (before ++ component).length + 1 := by
        rw [← append_assoc, length_append, List.length_singleton]
      have hwhole : component ++ [code] ++ remaining = component ++ code :: remaining := by simp
      have hstop : before ++ (component ++ [code]) ++ remaining = before ++ component ++ code :: remaining := by
        simp
      have hbehind : value[(before ++ component).length + 1]? = (remaining ++ rest).head? := by
        rw [hsplit, List.getElem?_append_right (by omega), Nat.add_sub_cancel_left]
        exact List.head?_eq_getElem?.symm
      rw [hstop, hindex, hwhole] at hnext
      have hdots : text ".." <:+: code :: remaining ↔
          (code = 0x2e ∧ remaining.head? = some 0x2e) ∨ text ".." <:+: remaining := pair_infix_cons
      have hbrace : text "@\x7b" <:+: code :: remaining ↔
          (code = 0x40 ∧ remaining.head? = some 0x7b) ∨ text "@\x7b" <:+: remaining :=
        pair_infix_cons
      -- what follows the range is no second unit of a pair
      have hseen : ∀ unit : UInt16, unit ≠ 0x5e →
          ((remaining ++ rest).head? = some unit ↔ remaining.head? = some unit) := by
        intro unit hunit
        cases remaining with
        | cons next remaining => exact Iff.rfl
        | nil =>
          refine iff_of_false ?_ (Option.some_ne_none _).symm
          rcases hrest with rfl | hcaret
          · exact (Option.some_ne_none _).symm
          · rw [nil_append, hcaret]
            exact fun hsame => hunit (Option.some.inj hsame).symm
      rw [refComponents, if_neg hslash, Allowed, hdots, hbrace]
      dsimp only
      rw [hbehind]
      by_cases hpair : (decide (code = 0x2e) && decide ((remaining ++ rest).head? = some 0x2e) ||
          decide (code = 0x40) && decide ((remaining ++ rest).head? = some 0x7b)) = true
      · rw [if_pos hpair]
        simp only [or_eq_true, and_eq_true, decide_eq_true_eq] at hpair
        rw [hseen 0x2e (by decide), hseen 0x7b (by decide)] at hpair
        refine iff_of_false false_ne_true ?_
        rintro ⟨-, -, hnodots, hnobrace, -⟩
        rcases hpair with hpair | hpair
        · exact hnodots (Or.inl hpair)
        · exact hnobrace (Or.inl hpair)
      · rw [if_neg hpair]
        simp only [or_eq_true, and_eq_true, decide_eq_true_eq] at hpair
        rw [hseen 0x2e (by decide), hseen 0x7b (by decide), not_or] at hpair
        rw [or_iff_right hpair.1, or_iff_right hpair.2]
        by_cases hbad : (decide (code < 0x20) || decide (code = 0x7f) ||
            isExcluded code && decide (wildcard ≠ some (before ++ component).length)) = true
        · rw [if_pos hbad]
          simp only [or_eq_true, and_eq_true, decide_eq_true_eq] at hbad
          refine iff_of_false false_ne_true ?_
          rintro ⟨-, -, -, -, ⟨hcontrol, hdelete, hexcluded⟩, -⟩
          rcases hbad with (hbad | hbad) | hbad
          · exact hcontrol hbad
          · exact hdelete hbad
          · exact hbad.2 (hexcluded hbad.1)
        · rw [if_neg hbad]
          simp only [or_eq_true, and_eq_true, decide_eq_true_eq, not_or, not_and,
            not_not] at hbad
          refine hnext.trans ?_
          constructor
          · rintro ⟨hedges, hfull, hdots, hat, hrestAllowed⟩
            exact ⟨hedges, hfull, hdots, hat, ⟨hbad.1.1, hbad.1.2, hbad.2⟩, hrestAllowed⟩
          · rintro ⟨hedges, hfull, hdots, hat, -, hrestAllowed⟩
            exact ⟨hedges, hfull, hdots, hat, hrestAllowed⟩

-- The units

/-- The units that no name has, an asterisk apart. -/
def Plain (unit : UInt16) : Prop := ¬ unit < 0x20 ∧ unit ≠ 0x7f ∧ unit ∉ text " ~^:?[\\"

theorem isExcluded_iff : isExcluded unit = true ↔ unit = 0x2a ∨ unit ∈ text " ~^:?[\\" := by
  have hlist : text " ~^:?*[\\" = [0x20, 0x7e, 0x5e, 0x3a, 0x3f, 0x2a, 0x5b, 0x5c] := by decide
  have hplain : text " ~^:?[\\" = [0x20, 0x7e, 0x5e, 0x3a, 0x3f, 0x5b, 0x5c] := by decide
  rw [isExcluded, List.contains_iff_mem, hlist, hplain]
  simp only [List.mem_cons, not_mem_nil, or_false]
  tauto

theorem allowed_none :
    Allowed none index name ↔ (∀ unit ∈ name, Plain unit) ∧ name.count 0x2a = 0 := by
  induction name generalizing index with
  | nil => exact iff_of_true trivial ⟨List.forall_mem_nil _, rfl⟩
  | cons unit name ih =>
    rw [Allowed, ih, forall_mem_cons, List.count_cons, isExcluded_iff, Plain]
    by_cases hstar : unit = 0x2a
    · subst hstar
      simp
    · rw [if_neg (by simpa using hstar)]
      simp only [hstar, false_or, Nat.add_zero, reduceCtorEq, imp_false]
      tauto

/-- A wildcard in front of the index is not seen. -/
theorem allowed_behind {star : Nat} (h : star < index) :
    Allowed (some star) index name ↔ Allowed none index name := by
  induction name generalizing index with
  | nil => exact Iff.rfl
  | cons unit name ih =>
    have hne : ¬ some star = some index := fun hsame => (Nat.ne_of_lt h) (Option.some.inj hsame)
    rw [Allowed, Allowed, ih (Nat.lt_succ_of_lt h), iff_false_intro hne]
    simp

theorem allowed_star {star index : Nat} {name : Text} (h : name[star]? = some 0x2a) :
    Allowed (some (index + star)) index name ↔ (∀ unit ∈ name, Plain unit) ∧ name.count 0x2a = 1 := by
  induction name generalizing star index with
  | nil => cases h
  | cons unit name ih =>
    rw [Allowed, forall_mem_cons, List.count_cons]
    cases star with
    | zero =>
      cases h
      have hplain : Plain 0x2a := ⟨by decide, by decide, by decide⟩
      rw [Nat.add_zero, allowed_behind (Nat.lt_succ_self index), allowed_none]
      simp only [beq_self_eq_true, if_true, Nat.add_eq_right]
      constructor
      · rintro ⟨-, hunits, hcount⟩
        exact ⟨⟨hplain, hunits⟩, hcount⟩
      · rintro ⟨⟨-, hunits⟩, hcount⟩
        exact ⟨⟨hplain.1, hplain.2.1, fun _ => trivial⟩, hunits, hcount⟩
    | succ star =>
      rw [List.getElem?_cons_succ] at h
      have hnext := @ih star (index + 1) h
      rw [Nat.add_right_comm] at hnext
      rw [← Nat.add_assoc, hnext, isExcluded_iff, Plain]
      have hne : ¬ some (index + star + 1) = some index := by
        intro hsame
        have := Option.some.inj hsame
        omega
      rw [iff_false_intro hne]
      have hpos : 0 < name.count 0x2a := List.count_pos_iff.2 (List.mem_of_getElem? h)
      by_cases hstar : unit = 0x2a
      · subst hstar
        simp only [beq_self_eq_true, if_true]
        refine iff_of_false (fun hall => hall.1.2.2 (Or.inl trivial)) ?_
        rintro ⟨-, hcount⟩
        omega
      · rw [if_neg (by simpa using hstar)]
        simp only [hstar, false_or, Nat.add_zero, imp_false]
        tauto

-- The range

theorem splitOn_ends (h : ∀ part ∈ name.splitOn 0x2f, part ≠ []) :
    name ≠ [] ∧ name.head? ≠ some 0x2f ∧ name.getLast? ≠ some 0x2f := by
  refine ⟨?_, ?_, ?_⟩
  · rintro rfl
    exact h [] mem_cons_self rfl
  · intro hhead
    obtain ⟨rest, rfl⟩ : ∃ rest, name = [] ++ 0x2f :: rest := by
      cases name with
      | nil => cases hhead
      | cons unit rest => exact ⟨rest, congrArg (· :: rest) (Option.some.inj hhead)⟩
    rw [List.splitOn_append_cons_self] at h
    exact h [] mem_cons_self rfl
  · intro hlast
    obtain ⟨front, rfl⟩ := List.getLast?_eq_some_iff.1 hlast
    rw [List.splitOn_append_cons_self] at h
    exact h [] (List.mem_append_right _ mem_cons_self) rfl

/-- The last component is empty only behind a slash. -/
theorem splitOn_full (h : ∀ part ∈ (name.splitOn 0x2f).dropLast, part ≠ [])
    (hne : name ≠ []) (hlast : name.getLast? ≠ some 0x2f) :
    ∀ part ∈ name.splitOn 0x2f, part ≠ [] := by
  have hsplit := List.dropLast_append_getLast (List.splitOn_ne_nil 0x2f name)
  intro part hpart
  rw [← hsplit, List.mem_append, List.mem_singleton] at hpart
  rcases hpart with hpart | rfl
  · exact h part hpart
  · intro hempty
    rw [hempty] at hsplit
    cases hinit : (name.splitOn 0x2f).dropLast with
    | nil =>
      rw [hinit, nil_append] at hsplit
      have hname := (Objects.splitOn_eq_cons hsplit.symm).1
      rw [List.flatMap_nil, append_nil] at hname
      exact hne hname
    | cons first rest =>
      rw [hinit, List.cons_append] at hsplit
      have hname := (Objects.splitOn_eq_cons hsplit.symm).1
      rw [List.flatMap_append, List.flatMap_singleton, ← append_assoc] at hname
      refine hlast ?_
      rw [hname, List.getLast?_concat]

/-- What starts like a symbolic ref has units that no name has. -/
theorem not_symbolic {wildcard : Option Nat}
    (hrest : rest = [] ∨ rest.head? = some 0x5e) (h : Allowed wildcard 0 name) :
    (text "ref: ").isPrefixOf (name ++ rest) = false := by
  have hlist : text "ref: " = [0x72, 0x65, 0x66, 0x3a, 0x20] := by decide
  rw [hlist, ← Bool.not_eq_true, List.isPrefixOf_iff_prefix]
  rintro ⟨more, hmore⟩
  -- a caret is none of these units, so that all of them are in the name
  have hlong : 5 ≤ name.length := by
    by_contra hshort
    have hunit : (name ++ rest)[name.length]? = rest.head? := by
      rw [List.getElem?_append_right (le_refl _), Nat.sub_self]
      exact List.head?_eq_getElem?.symm
    have hcases : name.length = 0 ∨ name.length = 1 ∨ name.length = 2 ∨ name.length = 3 ∨
        name.length = 4 := by omega
    rw [← hmore] at hunit
    have hcaret : rest.head? ≠ none → rest.head? = some 0x5e := fun hsome =>
      hrest.resolve_left fun hnil => hsome (by rw [hnil]; rfl)
    rcases hcases with hlength | hlength | hlength | hlength | hlength <;>
    · rw [hlength] at hunit
      have hhead := hcaret (by rw [← hunit]; exact nofun)
      rw [hhead] at hunit
      exact absurd (Option.some.inj hunit) (by decide)
  obtain ⟨a, b, c, d, e, name, rfl⟩ : ∃ a b c d e tail, name = a :: b :: c :: d :: e :: tail := by
    match name, hlong with
    | a :: b :: c :: d :: e :: tail, _ => exact ⟨a, b, c, d, e, tail, rfl⟩
  simp only [List.cons_append, List.cons.injEq] at hmore
  obtain ⟨-, -, -, hcolon, hspace, -⟩ := hmore
  obtain ⟨-, -, -, hd, he, -⟩ := h
  have hthree := hd.2.2 (by rw [← hcolon]; decide)
  have hfour := he.2.2 (by rw [← hspace]; decide)
  rw [hthree] at hfour
  exact absurd (Option.some.inj hfour) (by decide)

/-- A name at the front of a string is judged by itself. -/
theorem canonical_iff {wildcard : Option Nat} {name rest : Text}
    (hrest : rest = [] ∨ rest.head? = some 0x5e) :
    hasCanonicalRefSyntaxWithWildcard (name ++ rest) wildcard 0 name.length = true ↔
      (∀ part ∈ name.splitOn 0x2f, part ≠ [] ∧ Edged part) ∧
        ¬ text ".." <:+: name ∧ ¬ text "@\x7b" <:+: name ∧ Allowed wildcard 0 name ∧
        name.getLast? ≠ some 0x2e ∧ name ≠ text "@" := by
  have hscan := @scan_iff wildcard _ _ hrest [] [] name rfl (.inl rfl) not_mem_nil
  unfold hasCanonicalRefSyntaxWithWildcard
  by_cases hname : name = []
  · subst hname
    refine iff_of_false false_ne_true fun h => ?_
    exact (splitOn_ends fun part hpart => (h.1 part hpart).1).1 rfl
  · have hpos := List.length_pos_of_ne_nil hname
    have hinside : ¬ (decide (name.length ≤ 0) || decide ((name ++ rest).length < name.length)) = true := by
      simp only [or_eq_true, decide_eq_true_eq, length_append]
      omega
    have hfirst : (name ++ rest)[0]? = name.head? := by
      rw [List.getElem?_append_left hpos, List.head?_eq_getElem?]
    have hlast : (name ++ rest)[name.length - 1]? = name.getLast? := by
      rw [List.getElem?_append_left (by omega), List.getLast?_eq_getElem?]
    have hat : name.length = 1 ∧ name.head? = some 0x40 ↔ name = text "@" := by
      constructor
      · rintro ⟨hone, hhead⟩
        obtain ⟨unit, rfl⟩ := List.length_eq_one_iff.1 hone
        rw [Option.some.inj hhead]
        decide
      · rintro rfl
        decide
    rw [if_neg hinside, hfirst, hlast, Nat.sub_zero, List.drop_zero, List.take_left' rfl]
    by_cases hedges : (decide (name.length = 1) && decide (name.head? = some 0x40) ||
        decide (name.head? = some 0x2f) || decide (name.getLast? = some 0x2f) ||
        decide (name.getLast? = some 0x2e) || (text "ref: ").isPrefixOf (name ++ rest)) = true
    · rw [if_pos hedges]
      refine iff_of_false false_ne_true ?_
      rintro ⟨hparts, -, -, hallowed, hdot, hnotAt⟩
      obtain ⟨-, hhead, hslash⟩ := splitOn_ends fun part hpart => (hparts part hpart).1
      rw [not_symbolic hrest hallowed] at hedges
      simp only [or_eq_true, and_eq_true, decide_eq_true_eq, hat, Bool.false_eq_true,
        or_false] at hedges
      rcases hedges with ((h | h) | h) | h
      · exact hnotAt h
      · exact hhead h
      · exact hslash h
      · exact hdot h
    · rw [if_neg hedges]
      simp only [or_eq_true, and_eq_true, decide_eq_true_eq, hat, not_or] at hedges
      obtain ⟨⟨⟨⟨hnotAt, -⟩, hslash⟩, hdot⟩, -⟩ := hedges
      refine hscan.trans ?_
      constructor
      · rintro ⟨hedged, hfull, hdots, hbrace, hallowed⟩
        have hparts := splitOn_full hfull hname hslash
        exact ⟨fun part hpart => ⟨hparts part hpart, hedged part hpart⟩, hdots, hbrace, hallowed,
          hdot, hnotAt⟩
      · rintro ⟨hparts, hdots, hbrace, hallowed, -, -⟩
        exact ⟨fun part hpart => (hparts part hpart).2,
          fun part hpart => (hparts part (List.dropLast_subset _ hpart)).1, hdots, hbrace, hallowed⟩

theorem refFormat_iff {stars : Nat} : RefFormat stars name ↔
      (∀ part ∈ name.splitOn 0x2f, part ≠ [] ∧ Edged part) ∧
        ¬ text ".." <:+: name ∧ ¬ text "@\x7b" <:+: name ∧
        ((∀ unit ∈ name, Plain unit) ∧ name.count 0x2a = stars) ∧
        name.getLast? ≠ some 0x2e ∧ name ≠ text "@" := by
  constructor
  · intro h
    exact ⟨h.components, h.no_dots, h.no_at_brace, ⟨h.units, h.stars_eq⟩, h.no_trailing_dot, h.not_at⟩
  · rintro ⟨hparts, hdots, hbrace, ⟨hunits, hstars⟩, hdot, hat⟩
    exact ⟨hparts, hdots, hbrace, hunits, hstars, hdot, hat⟩

/-- The check over the whole name accepts git's grammar, and so does the check in front of the
    suffix of a peeled tag.  With the place of an asterisk as the wildcard, it accepts the names
    that would be in the grammar but for this one asterisk. -/
theorem hasCanonicalRefSyntax_iff (name : Text) :
    (hasCanonicalRefSyntax name 0 = true ↔ RefFormat 0 name) ∧
    (hasCanonicalRefSyntaxWithWildcard (name ++ text "^\x7b\x7d") none 0 name.length = true ↔
      RefFormat 0 name) ∧
    ∀ star, name[star]? = some 0x2a →
      (hasCanonicalRefSyntaxWithWildcard name (some star) 0 name.length = true ↔
        RefFormat 1 name) := by
  have hwhole := @canonical_iff none name [] (.inl rfl)
  have hpeeled := @canonical_iff none name (text "^\x7b\x7d") (.inr (by decide))
  rw [allowed_none, ← refFormat_iff] at hwhole hpeeled
  rw [append_nil] at hwhole
  refine ⟨hwhole, hpeeled, fun star hstar => ?_⟩
  have hpattern := @canonical_iff (some star) name [] (.inl rfl)
  have hallowed := @allowed_star star 0 name hstar
  rw [Nat.zero_add] at hallowed
  rwa [append_nil, hallowed, ← refFormat_iff] at hpattern

theorem heads_pattern : RefFormat 1 (text "refs/heads/*") :=
  ((hasCanonicalRefSyntax_iff (text "refs/heads/*")).2.2 11 (by decide)).1 (by decide +kernel)

end Kompjutr.Refs
