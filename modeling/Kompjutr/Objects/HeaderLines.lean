/-
  Kompjutr.Objects.HeaderLines

  The line reader of `splitHeaders`: what a line does to the headers read so far,
  and where the header block of a text ends.
-/
import Kompjutr.Objects.Commit
import Mathlib.Data.List.Induction

namespace Kompjutr.Objects

open List (cons_append isPrefixOf length_append length_cons mem_cons mem_cons_of_mem mem_cons_self
  modifyHead_cons nil_append splitOn_ne_nil take_left)

variable {left needle head message : Text}

variable {u : UInt16} {t : Text} {i : Nat}

-- Searching

theorem indexOf_eq_none (h : u ∉ t) : indexOf [u] t = none := by
  induction t with
  | nil => rfl
  | cons v t ih =>
    rw [mem_cons, not_or] at h
    simp [indexOf, isPrefixOf, h.1, ih h.2]

theorem indexOf_unit (right : Text) (h : u ∉ left) :
    indexOf [u] (left ++ u :: right) = some left.length := by
  induction left with
  | nil => simp [indexOf, isPrefixOf]
  | cons v left ih =>
    rw [mem_cons, not_or] at h
    simp [indexOf, isPrefixOf, h.1, ih h.2]

theorem not_mem_take_indexOf (h : indexOf [u] t = some i) : u ∉ t.take i := by
  intro hmem
  obtain ⟨left, right, heq, hleft⟩ := List.eq_append_cons_of_mem hmem
  have ht : t = left ++ u :: (right ++ t.drop i) := by
    rw [← cons_append, ← List.append_assoc, ← heq, List.take_append_drop]
  rw [ht, indexOf_unit _ hleft] at h
  cases h
  have hlength := congrArg List.length heq
  simp only [List.length_take, length_append, length_cons] at hlength
  omega

theorem indexOf_le (h : indexOf needle t = some i) :
    i + needle.length ≤ t.length ∧ (t.drop i).take needle.length = needle := by
  induction t generalizing i with
  | nil =>
    rw [indexOf] at h
    split at h
    · rename_i hnil
      cases h
      subst hnil
      exact ⟨Nat.le_refl _, rfl⟩
    · cases h
  | cons u t ih =>
    rw [indexOf] at h
    split at h
    · rename_i hhere
      cases h
      obtain ⟨more, hmore⟩ := List.isPrefixOf_iff_prefix.1 hhere
      rw [List.drop_zero, ← hmore, take_left, length_append]
      exact ⟨by omega, rfl⟩
    · obtain ⟨k, hk, rfl⟩ := Option.map_eq_some_iff.1 h
      obtain ⟨hle, htake⟩ := ih hk
      rw [length_cons, List.drop_succ_cons]
      exact ⟨by omega, htake⟩

/-- What is found in a text is found there in a longer one. -/
theorem indexOf_append (hne : needle ≠ [])
    (h : indexOf needle t = some i) (more : Text) : indexOf needle (t ++ more) = some i := by
  induction t generalizing i with
  | nil =>
    rw [indexOf, if_neg hne] at h
    cases h
  | cons u t ih =>
    rw [indexOf] at h
    rw [cons_append, indexOf]
    by_cases hhere : needle.isPrefixOf (u :: t) = true
    · have hlonger : needle.isPrefixOf (u :: (t ++ more)) = true := by
        rw [List.isPrefixOf_iff_prefix] at hhere ⊢
        exact hhere.trans (List.prefix_append _ _)
      rw [if_pos hhere] at h
      rw [if_pos hlonger, h]
    · rw [if_neg hhere] at h
      obtain ⟨k, hk, rfl⟩ := Option.map_eq_some_iff.1 h
      have hlonger : ¬ needle.isPrefixOf (u :: (t ++ more)) = true := by
        rw [List.isPrefixOf_iff_prefix] at hhere ⊢
        intro hprefix
        have hle := (indexOf_le hk).1
        exact hhere (List.prefix_of_prefix_length_le hprefix (List.prefix_append (u :: t) more)
          (by rw [length_cons]; omega))
      rw [if_neg hlonger, ih hk]
      rfl

/-- Two units that cannot overlap a text's end are found behind it. -/
theorem indexOf_pair {v : UInt16} (right : Text)
    (hnone : indexOf [u, v] left = none) (hlast : left.getLast? = some u → u ≠ v) :
    indexOf [u, v] (left ++ u :: v :: right) = some left.length := by
  induction left with
  | nil => simp [indexOf, isPrefixOf]
  | cons w left ih =>
    rw [indexOf] at hnone
    split at hnone
    · cases hnone
    rename_i hhere
    have hnot : ¬ [u, v].isPrefixOf (w :: (left ++ u :: v :: right)) = true := by
      cases left with
      | nil =>
        intro h
        simp only [nil_append, isPrefixOf, Bool.and_eq_true, beq_iff_eq] at h
        exact hlast (by rw [h.1]; rfl) h.2.1.symm
      | cons x left => simpa [isPrefixOf] using hhere
    have hrest := ih (Option.map_eq_none_iff.1 hnone) (fun h => hlast (by
      cases left with
      | nil => cases h
      | cons x left => rwa [List.getLast?_cons_cons]))
    rw [cons_append, indexOf, if_neg hnot, hrest]
    rfl

-- One line

variable {α : Type}

/-- A line continues a header, or has no space, or has a key before its first space. -/
theorem line_shape [DecidableEq α] (space : α) (line : List α) :
    (∃ v, line = space :: v) ∨ space ∉ line ∨
      ∃ k v, line = k ++ space :: v ∧ k ≠ [] ∧ space ∉ k := by
  by_cases hmem : space ∈ line
  · obtain ⟨k, v, rfl, hk⟩ := List.eq_append_cons_of_mem hmem
    cases k with
    | nil => exact .inl ⟨v, rfl⟩
    | cons b k => exact .inr (.inr ⟨b :: k, v, rfl, by simp, hk⟩)
  · exact .inr (.inl hmem)

theorem addLine_no_space (hs : List Header) (h : 0x20 ∉ t) : addLine hs t = hs := by
  have hhead : t.head? ≠ some 0x20 := fun hhead => h (List.mem_of_mem_head? hhead)
  cases hs with
  | nil => simp [addLine, addHeader, indexOf_eq_none h]
  | cons last older => simp [addLine, addHeader, indexOf_eq_none h, hhead]

theorem addLine_cut {k : Text} (v : Text) (hs : List Header) (hne : k ≠ []) (h : 0x20 ∉ k) :
    addLine hs (k ++ 0x20 :: v) = ⟨k, v, []⟩ :: hs := by
  obtain ⟨n, hn⟩ : ∃ n, k.length = n + 1 := Nat.exists_eq_succ_of_ne_zero (by simpa using hne)
  have hadd : addHeader hs (k ++ 0x20 :: v) = ⟨k, v, []⟩ :: hs := by
    have htake : (k ++ 0x20 :: v).take (n + 1) = k := by rw [← hn, take_left]
    have hdrop : (k ++ 0x20 :: v).drop (n + 2) = v := by
      rw [show n + 2 = k.length + 1 by omega, ← List.drop_drop, List.drop_left]
      rfl
    simp only [addHeader, indexOf_unit v h, hn, htake, hdrop]
  have hhead : (k ++ 0x20 :: v).head? ≠ some 0x20 := by
    rw [List.head?_append_of_ne_nil _ hne]
    exact fun hhead => h (List.mem_of_mem_head? hhead)
  cases hs with
  | nil => exact hadd
  | cons last older => rw [addLine, if_neg hhead, hadd]

theorem addLine_space (v : Text) (hs : List Header) :
    addLine hs (0x20 :: v) = hs.modifyHead fun last =>
      { last with continuation := last.continuation ++ [v] } := by
  cases hs with
  | nil => simp [addLine, addHeader, indexOf, isPrefixOf]
  | cons last older => simp [addLine]

-- The newest header of a key

/-- The newest header of a key, after some lines that follow the line it was first read from: its
    lines are among them, and if all of them continue a header, they continue that one. -/
structure Newest (key : Text) (value : Text) (lines : List Text) (hs : List Header) (h : Header) :
    Prop where
  found : hs.find? (·.key = key) = some h
  length_le : h.continuation.length ≤ lines.length
  parts : ∀ part ∈ h.value :: h.continuation, ∃ line ∈ (key ++ 0x20 :: value) :: lines, ∃ before,
    line = before ++ 0x20 :: part
  first : h.continuation.length = lines.length →
    h.value = value ∧ lines = h.continuation.map (0x20 :: ·) ∧ hs.head? = some h

theorem newest_foldl {key : Text} (value : Text) (hs : List Header) (hkey : key ≠ [])
    (hspace : 0x20 ∉ key) (lines : List Text) :
    ∃ h, Newest key value lines (lines.foldl addLine (⟨key, value, []⟩ :: hs)) h := by
  induction lines using List.reverseRecOn with
  | nil =>
    refine ⟨⟨key, value, []⟩, by simp, Nat.le_refl _, ?_, fun _ => ⟨rfl, rfl, rfl⟩⟩
    intro part hpart
    obtain rfl := List.mem_singleton.1 hpart
    exact ⟨_, mem_cons_self, key, rfl⟩
  | append_singleton lines line ih =>
    obtain ⟨h, ih⟩ := ih
    rw [List.foldl_append, List.foldl_cons, List.foldl_nil]
    generalize lines.foldl addLine (⟨key, value, []⟩ :: hs) = hs' at ih ⊢
    have hlonger : ∀ l ∈ (key ++ 0x20 :: value) :: lines,
        l ∈ (key ++ 0x20 :: value) :: (lines ++ [line]) := by
      intro l hl
      rcases mem_cons.1 hl with rfl | hl
      · exact mem_cons_self
      · exact mem_cons_of_mem _ (List.mem_append_left _ hl)
    have hlast : line ∈ (key ++ 0x20 :: value) :: (lines ++ [line]) :=
      mem_cons_of_mem _ (List.mem_append_right _ mem_cons_self)
    have hlength : (lines ++ [line]).length = lines.length + 1 := by simp
    -- the header stays the newest one and the line is not its
    have hstays : (addLine hs' line).find? (·.key = key) = some h →
        Newest key value (lines ++ [line]) (addLine hs' line) h := by
      intro hfound
      refine ⟨hfound, by have := ih.length_le; omega, ?_, ?_⟩
      · intro part hpart
        obtain ⟨l, hl, before, heq⟩ := ih.parts part hpart
        exact ⟨l, hlonger l hl, before, heq⟩
      · intro heq
        have := ih.length_le
        omega
    rcases line_shape 0x20 line with ⟨v, rfl⟩ | hno | ⟨k, v, rfl, hne, hk⟩
    · cases hs' with
      | nil => cases ih.found
      | cons g older =>
        by_cases hg : g.key = key
        · -- the newest header takes the line
          obtain rfl : g = h := by
            have := ih.found
            rw [List.find?_cons_of_pos (by simpa using hg)] at this
            exact Option.some.inj this
          refine ⟨{ g with continuation := g.continuation ++ [v] }, ?_, ?_, ?_, ?_⟩
          · rw [addLine_space, modifyHead_cons, List.find?_cons_of_pos (by simpa using hg)]
          · have := ih.length_le
            simp only [length_append, List.length_singleton]
            omega
          · intro part hpart
            rw [← cons_append] at hpart
            rcases List.mem_append.1 hpart with hpart | hpart
            · obtain ⟨l, hl, before, heq⟩ := ih.parts part hpart
              exact ⟨l, hlonger l hl, before, heq⟩
            · obtain rfl := List.mem_singleton.1 hpart
              exact ⟨_, hlast, [], rfl⟩
          · intro heq
            simp only [length_append, List.length_singleton, Nat.add_right_cancel_iff] at heq
            obtain ⟨hvalue, hlines, -⟩ := ih.first heq
            refine ⟨hvalue, ?_, ?_⟩
            · rw [List.map_append, ← hlines]
              rfl
            · rw [addLine_space]
              rfl
        · refine ⟨h, hstays ?_⟩
          have := ih.found
          rw [List.find?_cons_of_neg (by simpa using hg)] at this
          rw [addLine_space, modifyHead_cons, List.find?_cons_of_neg (by simpa using hg)]
          exact this
    · exact ⟨h, hstays (by rw [addLine_no_space hs' hno]; exact ih.found)⟩
    · by_cases hsame : k = key
      · subst hsame
        refine ⟨⟨k, v, []⟩, ?_, Nat.zero_le _, ?_, ?_⟩
        · rw [addLine_cut v hs' hne hk]
          simp
        · intro part hpart
          obtain rfl := List.mem_singleton.1 hpart
          exact ⟨_, hlast, k, rfl⟩
        · intro heq
          rw [hlength] at heq
          cases heq
      · refine ⟨h, hstays ?_⟩
        rw [addLine_cut v hs' hne hk, List.find?_cons_of_neg (by simpa using hsame)]
        exact ih.found

-- Splitting

theorem splitOn_cons_self [DecidableEq α] (a : α) (l : List α) :
    (a :: l).splitOn a = [] :: l.splitOn a := by
  rw [List.splitOn_cons_eq_if_modifyHead, if_pos (by simp)]

theorem splitOn_cons_of_ne [DecidableEq α] {a b : α} (h : b ≠ a) (l : List α) :
    (b :: l).splitOn a = (l.splitOn a).modifyHead (b :: ·) := by
  rw [List.splitOn_cons_eq_if_modifyHead, if_neg (by simpa using h)]

/-- Lines that are joined and split again. -/
theorem splitOn_intercalate [DecidableEq α] (a : α) {parts : List (List α)} (h : parts ≠ []) :
    (List.intercalate [a] parts).splitOn a = parts.flatMap (List.splitOn a) := by
  induction parts with
  | nil => exact absurd rfl h
  | cons part parts ih =>
    cases parts with
    | nil => simp
    | cons next parts =>
      rw [List.intercalate_cons_cons, List.append_assoc, List.singleton_append, List.splitOn_append_cons_self,
        ih (by simp)]
      rfl

/-- What stands before the first separator goes to the first part. -/
theorem splitOn_append_of_not_mem [DecidableEq α] {a : α} {left : List α}
    (h : a ∉ left) (right : List α) :
    (left ++ right).splitOn a = (right.splitOn a).modifyHead (left ++ ·) := by
  induction left with
  | nil =>
    cases hsplit : right.splitOn a with
    | nil => exact absurd hsplit (splitOn_ne_nil _ _)
    | cons first rest => rw [nil_append, hsplit]; rfl
  | cons b left ih =>
    rw [mem_cons, not_or] at h
    rw [cons_append, splitOn_cons_of_ne (Ne.symm h.1), ih h.2, List.modifyHead_modifyHead]
    rfl

/-- The parts of a list, and the list joined from them. -/
theorem splitOn_eq_cons [DecidableEq α] {a : α} {l first : List α}
    {rest : List (List α)} (h : l.splitOn a = first :: rest) :
    l = first ++ rest.flatMap (a :: ·) ∧ ∀ part ∈ first :: rest, a ∉ part := by
  induction l generalizing first rest with
  | nil =>
    obtain ⟨rfl, rfl⟩ := List.cons.inj (show [[]] = first :: rest from h)
    exact ⟨rfl, by simp⟩
  | cons b l ih =>
    cases hsplit : l.splitOn a with
    | nil => exact absurd hsplit (splitOn_ne_nil _ _)
    | cons first' rest' =>
      obtain ⟨hl, hparts⟩ := ih hsplit
      by_cases hb : b = a
      · subst hb
        rw [splitOn_cons_self, hsplit] at h
        obtain ⟨rfl, rfl⟩ := List.cons.inj h
        refine ⟨by rw [hl]; rfl, fun part hpart => ?_⟩
        rcases mem_cons.1 hpart with rfl | hpart
        · simp
        · exact hparts part hpart
      · rw [splitOn_cons_of_ne hb, hsplit, modifyHead_cons] at h
        obtain ⟨rfl, rfl⟩ := List.cons.inj h
        refine ⟨by rw [cons_append, ← hl], fun part hpart => ?_⟩
        rcases mem_cons.1 hpart with rfl | hpart
        · rw [mem_cons, not_or]
          exact ⟨Ne.symm hb, hparts first' mem_cons_self⟩
        · exact hparts part (mem_cons_of_mem _ hpart)

/-- A list is cut at its first separator in one way. -/
theorem cut_unique {a : α} {left left' right right' : List α} (hleft : a ∉ left)
    (hleft' : a ∉ left') (h : left ++ a :: right = left' ++ a :: right') :
    left = left' ∧ right = right' := by
  obtain ⟨rest, rfl, hrest⟩ | ⟨rest, rfl, hrest⟩ := List.append_eq_append_iff.1 h <;>
    cases rest <;> simp_all

/-- Joined parts have a separator each. -/
theorem count_flatMap_cons [DecidableEq α] {a : α} {parts : List (List α)}
    (h : ∀ part ∈ parts, a ∉ part) : (parts.flatMap (a :: ·)).count a = parts.length := by
  induction parts with
  | nil => rfl
  | cons part parts ih =>
    rw [List.flatMap_cons, List.count_append, List.count_cons_self,
      List.count_eq_zero_of_not_mem (h part mem_cons_self),
      ih fun p hp => h p (mem_cons_of_mem _ hp), length_cons]
    omega

-- The header block

/-- Lines that are not empty have no blank line between them. -/
theorem indexOf_blank_eq_none (h : ∀ line ∈ t.splitOn 0x0a, line ≠ []) :
    indexOf [0x0a, 0x0a] t = none ∧ t.getLast? ≠ some 0x0a := by
  induction hlength : t.length using Nat.strong_induction_on generalizing t with
  | _ n ih =>
    match t, hlength with
    | [], _ => exact absurd rfl (h [] mem_cons_self)
    | u :: rest, hlength =>
      have hu : u ≠ 0x0a := by
        rintro rfl
        rw [splitOn_cons_self] at h
        exact h [] mem_cons_self rfl
      rw [splitOn_cons_of_ne hu] at h
      have hskip : ∀ more, [0x0a, 0x0a].isPrefixOf (u :: more) = false := by
        intro more
        simp [isPrefixOf, Ne.symm hu]
      match rest with
      | [] => exact ⟨by simp [indexOf, isPrefixOf], by simpa using hu⟩
      | v :: rest =>
        by_cases hv : v = 0x0a
        · -- the next line starts, with something in it
          subst hv
          rw [splitOn_cons_self] at h
          have hlines : ∀ line ∈ rest.splitOn 0x0a, line ≠ [] := fun line hline =>
            h line (mem_cons_of_mem _ hline)
          obtain ⟨hnone, hlast⟩ := ih rest.length
            (by rw [← hlength, length_cons, length_cons]; omega) hlines rfl
          match rest with
          | [] => exact absurd rfl (hlines [] mem_cons_self)
          | w :: rest =>
            have hw : w ≠ 0x0a := by
              rintro rfl
              rw [splitOn_cons_self] at hlines
              exact hlines [] mem_cons_self rfl
            refine ⟨?_, by simpa using hlast⟩
            rw [indexOf, hskip, if_neg Bool.false_ne_true, indexOf, if_neg, hnone]
            · rfl
            · simp [isPrefixOf, Ne.symm hw]
        · have hlines : ∀ line ∈ (v :: rest).splitOn 0x0a, line ≠ [] := by
            rw [splitOn_cons_of_ne hv] at h ⊢
            intro line hline
            cases hsplit : rest.splitOn 0x0a with
            | nil => exact absurd hsplit (splitOn_ne_nil _ _)
            | cons first more =>
              rw [hsplit, modifyHead_cons] at h hline
              rcases mem_cons.1 hline with rfl | hline
              · simp
              · exact h line (mem_cons_of_mem _ hline)
          obtain ⟨hnone, hlast⟩ := ih (v :: rest).length (by rw [← hlength]; simp) hlines rfl
          refine ⟨?_, by simpa using hlast⟩
          rw [indexOf, hskip, if_neg Bool.false_ne_true, hnone]
          rfl

/-- The header block ends at its blank line. -/
theorem splitHeaders_eq
    (h : indexOf [0x0a, 0x0a] (head ++ 0x0a :: 0x0a :: message) = some head.length) :
    splitHeaders (head ++ 0x0a :: 0x0a :: message) =
      { headers := ((head.splitOn 0x0a).foldl addLine []).reverse.map fun h => (h.key, h.full)
        message } := by
  have hdrop : (head ++ 0x0a :: 0x0a :: message).drop (head.length + 2) = message := by
    rw [← List.drop_drop, List.drop_left]
    rfl
  unfold splitHeaders
  rw [h]
  dsimp only
  rw [take_left, hdrop]

/-- The blank line that was written is not found later. -/
theorem indexOf_blank_le (head message : Text) :
    ∃ i ≤ head.length, indexOf [0x0a, 0x0a] (head ++ 0x0a :: 0x0a :: message) = some i := by
  induction head with
  | nil => exact ⟨0, Nat.le_refl _, by simp [indexOf, isPrefixOf]⟩
  | cons u head ih =>
    obtain ⟨i, hle, hfound⟩ := ih
    rw [cons_append, indexOf]
    split
    · exact ⟨0, Nat.zero_le _, rfl⟩
    · exact ⟨i + 1, by rw [length_cons]; omega, by rw [hfound]; rfl⟩

theorem splitHeaders_message_length
    (h : (splitHeaders (head ++ 0x0a :: 0x0a :: message)).message.length = message.length) :
    indexOf [0x0a, 0x0a] (head ++ 0x0a :: 0x0a :: message) = some head.length := by
  obtain ⟨i, hle, hfound⟩ := indexOf_blank_le head message
  unfold splitHeaders at h
  rw [hfound] at h
  simp only [List.length_drop, length_append, length_cons] at h
  rw [hfound, show i = head.length by omega]

end Kompjutr.Objects
