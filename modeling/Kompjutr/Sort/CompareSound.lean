/-
  Kompjutr.Sort.CompareSound

  The orderings of keys are total preorders (`turns_compareSpans`, `transOn_compareSpans`), version
  order on the names whose stems tell them apart.

  Each ordering is taken apart into the ways to build a comparison.  A loop over two byte runs is
  put as a number of rounds that suffices for both (`compareVersionText_rounds`,
  `compareRuns_rounds`), so that the rounds can be compared one by one.
-/
import Mathlib.Data.List.TakeWhile
import Kompjutr.Lib.Compare
import Kompjutr.Sort.Compare

namespace Kompjutr.Sort

open Compare
open List (head?_cons head?_nil length_cons length_nil)

variable {options : KeyOptions} {text : List UInt8}

variable {a b byte : UInt8} {left right : List UInt8} {n : Nat} {span : Span}

-- Bytes

theorem turns_compareByte : Turns compareByte := turns_sub fun u : UInt8 => (u.toNat : Int)

theorem compareByte_eq_zero : compareByte a b = 0 ↔ a = b := by
  rw [compareByte, ← UInt8.toNat_inj]
  omega

theorem compareBytes_nil_cons (b : UInt8) (right : List UInt8) :
    compareBytes [] (b :: right) = -((right.length : Int) + 1) := by
  simp [compareBytes]

theorem compareBytes_cons_nil (a : UInt8) (left : List UInt8) :
    compareBytes (a :: left) [] = (left.length : Int) + 1 := by
  simp [compareBytes]

theorem turns_compareBytes : Turns compareBytes := by
  intro left right
  fun_induction compareBytes left right with
  | case1 a left b right hne =>
    have hturn := turns_compareByte a b
    have heq := turns_compareByte.eq (a := a) (b := b)
    rw [compareBytes, if_pos (mt heq.2 hne)]
    exact hturn
  | case2 a left b right heq ih =>
    have hturn := turns_compareByte.eq (a := a) (b := b)
    rw [compareBytes, if_neg (not_not.2 (hturn.1 (not_not.1 heq)))]
    exact ih
  | case3 left right hshort =>
    cases left <;> cases right
    · simp only [compareBytes, length_nil]
      omega
    · simp only [compareBytes, length_nil, length_cons]
      omega
    · simp only [compareBytes, length_nil, length_cons]
      omega
    · exact absurd rfl (hshort _ _ _ _ rfl)

theorem compareBytes_eq_zero : compareBytes left right = 0 ↔ left = right := by
  fun_induction compareBytes left right with
  | case1 a left b right hne =>
    refine iff_of_false hne fun heq => hne ?_
    rw [(List.cons.inj heq).1]
    exact turns_compareByte.self b
  | case2 a left b right heq ih =>
    rw [ih, List.cons.injEq, ← compareByte_eq_zero, and_iff_right (not_not.1 heq)]
  | case3 left right hshort =>
    cases left <;> cases right
    · simp
    · exact iff_of_false (by rw [length_cons, length_nil]; omega) (by simp)
    · exact iff_of_false (by rw [length_cons, length_nil]; omega) (by simp)
    · exact absurd rfl (hshort _ _ _ _ rfl)

theorem transOn_compareBytes : TransOn (fun _ => True) compareBytes := by
  intro left middle right _ _ _ hlm hmr
  induction left generalizing middle right with
  | nil =>
    cases right with
    | nil => exact Int.le_refl 0
    | cons c right =>
      rw [compareBytes_nil_cons]
      omega
  | cons a left ih =>
    cases middle with
    | nil =>
      rw [compareBytes_cons_nil] at hlm
      omega
    | cons b middle =>
      cases right with
      | nil =>
        rw [compareBytes_cons_nil] at hmr
        omega
      | cons c right =>
        rw [compareBytes] at hlm hmr ⊢
        have hab : compareByte a b ≤ 0 := by split at hlm <;> omega
        have hbc : compareByte b c ≤ 0 := by split at hmr <;> omega
        unfold compareByte at *
        split
        next => omega
        next hac =>
          rw [if_neg (by omega)] at hlm hmr
          exact ih middle right hlm hmr

/-- What `-d` and `-f` leave of a key. -/
def filteredBytes (options : KeyOptions) (text : List UInt8) : List UInt8 :=
  (text.filter fun byte => !ignored options byte).map (translated options)

theorem filteredBytes_dropWhile (options : KeyOptions) (text : List UInt8) :
    filteredBytes options text = filteredBytes options (text.dropWhile (ignored options)) := by
  induction text with
  | nil => rfl
  | cons u text ih =>
    by_cases hu : ignored options u = true
    · rw [List.dropWhile_cons_of_pos hu, ← ih, filteredBytes, List.filter_cons_of_neg (by simp [hu])]
      rfl
    · rw [List.dropWhile_cons_of_neg hu]

theorem filteredBytes_cons {rest : List UInt8} {u : UInt8}
    (h : text.dropWhile (ignored options) = u :: rest) :
    filteredBytes options text = translated options u :: filteredBytes options rest := by
  have hu : ignored options u = false := by
    have hhead := List.head?_dropWhile_not (ignored options) text
    rw [h] at hhead
    exact hhead
  rw [filteredBytes_dropWhile, h, filteredBytes, List.filter_cons_of_pos (by simp [hu])]
  rfl

/-- Comparing past the ignored bytes is comparing what is left without them. -/
theorem compareFiltered_sign (options : KeyOptions) (left right : List UInt8) :
    (compareFiltered options left right).sign =
      (compareBytes (filteredBytes options left) (filteredBytes options right)).sign := by
  fun_induction compareFiltered options left right with
  | case1 left right a left' b right' hl hr hne =>
    rw [filteredBytes_cons hl, filteredBytes_cons hr, compareBytes, if_pos hne]
  | case2 left right a left' b right' hl hr heq ih =>
    rw [filteredBytes_cons hl, filteredBytes_cons hr, compareBytes, if_neg heq, ih]
  | case3 left right hshort =>
    cases hl : left.dropWhile (ignored options) with
    | nil =>
      rw [filteredBytes_dropWhile options left, hl]
      cases hr : right.dropWhile (ignored options) with
      | nil =>
        rw [filteredBytes_dropWhile options right, hr]
        rfl
      | cons b right' =>
        rw [filteredBytes_cons hr]
        have hneg : compareBytes (filteredBytes options [])
            (translated options b :: filteredBytes options right') < 0 := by
          rw [show filteredBytes options [] = [] from rfl, compareBytes_nil_cons]
          omega
        rw [Int.sign_eq_neg_one_of_neg hneg]
        rfl
    | cons a left' =>
      rw [filteredBytes_cons hl]
      cases hr : right.dropWhile (ignored options) with
      | nil =>
        rw [filteredBytes_dropWhile options right, hr]
        have hpos : 0 < compareBytes (translated options a :: filteredBytes options left')
            (filteredBytes options []) := by
          rw [show filteredBytes options [] = [] from rfl, compareBytes_cons_nil]
          omega
        rw [Int.sign_eq_one_of_pos hpos]
        rfl
      | cons b right' => exact absurd hr (hshort a left' b right' hl)

theorem turns_compareFiltered (options : KeyOptions) : Turns (compareFiltered options) :=
  Turns.of_sign (turns_compareBytes.comap (filteredBytes options)) (compareFiltered_sign options)

theorem transOn_compareFiltered (options : KeyOptions) :
    TransOn (fun _ => True) (compareFiltered options) :=
  TransOn.of_sign (transOn_compareBytes.comap (filteredBytes options) fun _ _ => trivial)
    fun left right _ _ => compareFiltered_sign options left right

-- Numbers

theorem compareMagnitudes_eq :
    compareMagnitudes = thenBy (fun a b => (a.integer.length : Int) - b.integer.length)
      (thenBy (fun a b => compareBytes a.integer b.integer)
        fun a b => compareBytes a.fraction b.fraction) := by
  funext left right
  have hlength : (left.integer.length : Int) - right.integer.length ≠ 0 ↔
      left.integer.length ≠ right.integer.length := by
    omega
  exact (if_congr hlength rfl rfl).symm

theorem turns_compareMagnitudes : Turns compareMagnitudes := by
  rw [compareMagnitudes_eq]
  exact (turns_sub fun a : Decimal => (a.integer.length : Int)).thenBy
    ((turns_compareBytes.comap Decimal.integer).thenBy (turns_compareBytes.comap Decimal.fraction))

theorem transOn_compareMagnitudes : TransOn (fun _ => True) compareMagnitudes := by
  rw [compareMagnitudes_eq]
  refine TransOn.thenBy (turns_sub fun a : Decimal => (a.integer.length : Int)) (transOn_sub _) ?_
  exact TransOn.thenBy (turns_compareBytes.comap Decimal.integer)
    (transOn_compareBytes.comap _ fun _ _ => trivial)
    (transOn_compareBytes.comap _ fun _ _ => trivial)

theorem turns_compareDecimals : Turns compareDecimals :=
  turns_compareMagnitudes.neg.classFirst turns_compareMagnitudes

theorem transOn_compareDecimals : TransOn (fun _ => True) compareDecimals :=
  ((transOn_compareMagnitudes.mono fun _ _ => trivial).neg turns_compareMagnitudes).classFirst
    (transOn_compareMagnitudes.mono fun _ _ => trivial)

theorem turns_compareHuman : Turns compareHuman :=
  ((turns_sub unitOrder).thenBy turns_compareDecimals).comap fun span => decimal span false

theorem transOn_compareHuman : TransOn (fun _ => True) compareHuman :=
  ((transOn_sub unitOrder).thenBy (turns_sub unitOrder) transOn_compareDecimals).comap
    (fun span => decimal span false) fun _ _ => trivial

-- Versions

/-- Where a byte of a run stands, and the end of the run. -/
def textRank : Option UInt8 → Int
  | none => 1
  | some u => if u = tilde then 0 else if isAlpha u then 256 + u.toNat else 512 + u.toNat

theorem textRank_pos {u : UInt8} (h : u ≠ tilde) : 256 ≤ textRank (some u) := by
  unfold textRank
  dsimp only
  rw [if_neg h]
  split <;> omega

theorem textRank_tilde : textRank (some tilde) = 0 := rfl

theorem textRank_none : textRank none = 1 := rfl

/-- Two different bytes are in the order of their ranks. -/
theorem compareVersionText_head (hne : a ≠ b) (left right : List UInt8) :
    (compareVersionText (a :: left) (b :: right)).sign = (textRank (some a) - textRank (some b)).sign := by
  rw [compareVersionText, if_neg hne]
  by_cases hb : b = tilde
  · have ha := textRank_pos (u := a) (fun heq => hne (heq.trans hb.symm))
    rw [if_pos hb, hb, textRank_tilde]
    exact (Int.sign_eq_one_of_pos (by omega)).symm
  · have hbpos := textRank_pos hb
    rw [if_neg hb]
    by_cases ha : a = tilde
    · rw [if_pos ha, ha, textRank_tilde]
      exact (Int.sign_eq_neg_one_of_neg (by omega)).symm
    · have halt := a.toNat_lt
      have hblt := b.toNat_lt
      have hranka : textRank (some a) = if isAlpha a then 256 + (a.toNat : Int) else 512 + a.toNat :=
        if_neg ha
      have hrankb : textRank (some b) = if isAlpha b then 256 + (b.toNat : Int) else 512 + b.toNat :=
        if_neg hb
      rw [if_neg ha, hranka, hrankb]
      cases hala : isAlpha a <;> cases halb : isAlpha b
      · show (compareByte a b).sign = (512 + (a.toNat : Int) - (512 + b.toNat)).sign
        rw [compareByte]
        congr 1
        omega
      · exact (Int.sign_eq_one_of_pos
          (show 0 < 512 + (a.toNat : Int) - (256 + b.toNat) by omega)).symm
      · exact (Int.sign_eq_neg_one_of_neg
          (show 256 + (a.toNat : Int) - (512 + b.toNat) < 0 by omega)).symm
      · show (compareByte a b).sign = (256 + (a.toNat : Int) - (256 + b.toNat)).sign
        rw [compareByte]
        congr 1
        omega

theorem textRank_inj (h : textRank (some a) = textRank (some b)) : a = b := by
  by_contra hne
  have hsign := compareVersionText_head hne [] []
  rw [h, Int.sub_self, Int.sign_zero, Int.sign_eq_zero_iff_zero, compareVersionText, if_neg hne] at hsign
  split at hsign
  · omega
  · split at hsign
    · omega
    · split at hsign
      · split at hsign <;> omega
      · exact hne (compareByte_eq_zero.1 hsign)

/-- The rounds that two runs of text take. -/
def textRounds (n : Nat) : List UInt8 → List UInt8 → Int :=
  iterate (fun left right => textRank left.head? - textRank right.head?) List.tail n

theorem compareVersionText_rounds (hl : left.length ≤ n) (hr : right.length ≤ n) :
    (compareVersionText left right).sign = (textRounds n left right).sign := by
  induction n generalizing left right with
  | zero =>
    rw [List.length_eq_zero_iff.1 (Nat.le_zero.1 hl), List.length_eq_zero_iff.1 (Nat.le_zero.1 hr)]
    rfl
  | succ n ih =>
    rw [textRounds, iterate, thenBy]
    cases left with
    | nil =>
      cases right with
      | nil => exact ih (Nat.zero_le _) (Nat.zero_le _)
      | cons b right =>
        show Int.sign (if b = tilde then 1 else -1) = _
        by_cases hb : b = tilde
        · rw [if_pos hb, hb]
          rfl
        · have hpos := textRank_pos hb
          rw [if_neg hb, if_pos (by rw [head?_nil, head?_cons, textRank_none]; omega)]
          exact (Int.sign_eq_neg_one_of_neg (by rw [head?_nil, head?_cons, textRank_none]; omega)).symm
    | cons a left =>
      cases right with
      | nil =>
        show Int.sign (if a = tilde then -1 else 1) = _
        by_cases ha : a = tilde
        · rw [if_pos ha, ha]
          rfl
        · have hpos := textRank_pos ha
          rw [if_neg ha, if_pos (by rw [head?_nil, head?_cons, textRank_none]; omega)]
          exact (Int.sign_eq_one_of_pos
            (by rw [head?_nil, head?_cons, textRank_none]; omega)).symm
      | cons b right =>
        by_cases heq : a = b
        · subst heq
          rw [if_neg (by simp), compareVersionText, if_pos rfl]
          exact ih (Nat.le_of_succ_le_succ hl) (Nat.le_of_succ_le_succ hr)
        · rw [compareVersionText_head heq, if_pos fun hzero => heq (textRank_inj (by
            rw [head?_cons, head?_cons] at hzero; omega))]
          rfl

theorem turns_textRounds (n : Nat) : Turns (textRounds n) :=
  Turns.iterate (turns_sub fun text : List UInt8 => textRank text.head?) n

theorem transOn_textRounds (n : Nat) : TransOn (fun _ => True) (textRounds n) :=
  TransOn.iterate (turns_sub fun text : List UInt8 => textRank text.head?) (transOn_sub _) n

theorem turns_compareVersionText : Turns compareVersionText := by
  intro left right
  have hle := Nat.le_max_left left.length right.length
  have hge := Nat.le_max_right left.length right.length
  rw [← Int.sign_nonpos_iff, ← Int.sign_nonneg_iff, compareVersionText_rounds hle hge,
    compareVersionText_rounds hge hle, Int.sign_nonpos_iff, Int.sign_nonneg_iff]
  exact turns_textRounds _ left right

theorem transOn_compareVersionText : TransOn (fun _ => True) compareVersionText := by
  intro a b c _ _ _ hab hbc
  have ha : a.length ≤ a.length + b.length + c.length := by omega
  have hb : b.length ≤ a.length + b.length + c.length := by omega
  have hc : c.length ≤ a.length + b.length + c.length := by omega
  rw [← Int.sign_nonpos_iff, compareVersionText_rounds ha hb, Int.sign_nonpos_iff] at hab
  rw [← Int.sign_nonpos_iff, compareVersionText_rounds hb hc, Int.sign_nonpos_iff] at hbc
  rw [← Int.sign_nonpos_iff, compareVersionText_rounds ha hc, Int.sign_nonpos_iff]
  exact transOn_textRounds _ a b c trivial trivial trivial hab hbc

theorem compareRun_eq :
    compareRun = thenBy
      (fun left right => compareVersionText (left.takeWhile fun byte => !isDigit byte)
        (right.takeWhile fun byte => !isDigit byte))
      (thenBy (fun left right => ((significant left).length : Int) - (significant right).length)
        fun left right => compareBytes (significant left) (significant right)) := by
  funext left right
  have hlength : ((significant left).length : Int) - (significant right).length ≠ 0 ↔
      (significant left).length ≠ (significant right).length := by
    omega
  exact if_congr Iff.rfl rfl (if_congr hlength rfl rfl).symm

theorem turns_compareRun : Turns compareRun := by
  rw [compareRun_eq]
  exact (turns_compareVersionText.comap _).thenBy
    ((turns_sub fun text => ((significant text).length : Int)).thenBy
      (turns_compareBytes.comap significant))

theorem transOn_compareRun : TransOn (fun _ => True) compareRun := by
  rw [compareRun_eq]
  refine TransOn.thenBy (turns_compareVersionText.comap _)
    (transOn_compareVersionText.comap _ fun _ _ => trivial) ?_
  exact TransOn.thenBy (turns_sub fun text => ((significant text).length : Int)) (transOn_sub _)
    (transOn_compareBytes.comap _ fun _ _ => trivial)

theorem length_afterRun_le (h : text.length ≤ n + 1) : (afterRun text).length ≤ n := by
  by_cases hnil : text = []
  · rw [hnil]
    exact Nat.zero_le n
  · have hlt := length_afterRun hnil
    omega

/-- The loop over runs is as many rounds as the longer of its texts has bytes. -/
theorem compareRuns_rounds (hl : left.length ≤ n)
    (hr : right.length ≤ n) : compareRuns left right = iterate compareRun afterRun n left right := by
  induction n generalizing left right with
  | zero =>
    rw [compareRuns, dif_pos ⟨List.length_eq_zero_iff.1 (Nat.le_zero.1 hl),
      List.length_eq_zero_iff.1 (Nat.le_zero.1 hr)⟩]
    rfl
  | succ n ih =>
    rw [compareRuns, iterate, thenBy, ← ih (length_afterRun_le hl) (length_afterRun_le hr)]
    split
    next hnil =>
      obtain ⟨rfl, rfl⟩ := hnil
      have hnext : compareRuns (afterRun []) (afterRun []) = 0 := by
        rw [compareRuns, dif_pos ⟨rfl, rfl⟩]
      rw [if_neg (not_not.2 (turns_compareRun.self [])), hnext]
    next => rfl

theorem turns_compareRuns : Turns compareRuns := by
  intro left right
  have hle := Nat.le_max_left left.length right.length
  have hge := Nat.le_max_right left.length right.length
  rw [compareRuns_rounds hle hge, compareRuns_rounds hge hle]
  exact Turns.iterate turns_compareRun _ left right

theorem transOn_compareRuns : TransOn (fun _ => True) compareRuns := by
  intro a b c _ _ _ hab hbc
  have ha : a.length ≤ a.length + b.length + c.length := by omega
  have hb : b.length ≤ a.length + b.length + c.length := by omega
  have hc : c.length ≤ a.length + b.length + c.length := by omega
  rw [compareRuns_rounds ha hb] at hab
  rw [compareRuns_rounds hb hc] at hbc
  rw [compareRuns_rounds ha hc]
  exact TransOn.iterate turns_compareRun transOn_compareRun _ a b c trivial trivial trivial hab hbc

theorem turns_compareSpecial (specials : List (List UInt8)) :
    Turns fun left right => compareSpecial left right specials := by
  induction specials with
  | nil => exact turns_zero
  | cons special specials ih =>
    exact (turns_sub fun text => if text = special then 0 else 1).thenBy ih

theorem transOn_compareSpecial (specials : List (List UInt8)) :
    TransOn (fun _ => True) fun left right => compareSpecial left right specials := by
  induction specials with
  | nil => exact transOn_zero
  | cons special specials ih =>
    exact TransOn.thenBy (turns_sub fun text => if text = special then 0 else 1) (transOn_sub _) ih

/-- What version order compares of a name first. -/
def versionStem (text : List UInt8) : List UInt8 := withoutSuffix (withoutDot text)

/-- Two names that differ in their stems are told apart by them. -/
def StemsAgree (left right : List UInt8) : Prop :=
  startsWithDot left = startsWithDot right →
    compareRuns (versionStem left) (versionStem right) = 0 → versionStem left = versionStem right

instance (left right : List UInt8) : Decidable (StemsAgree left right) :=
  inferInstanceAs (Decidable (_ → _ → _))

/-- Version order behind the special names and the leading dot. -/
def compareNames (left right : List UInt8) : Int :=
  if compareBytes (versionStem left) (versionStem right) ≠ 0 then
    compareRuns (versionStem left) (versionStem right)
  else compareRuns (withoutDot left) (withoutDot right)

theorem turns_compareNames : Turns compareNames := by
  intro left right
  have heq := turns_compareBytes.eq (a := versionStem left) (b := versionStem right)
  unfold compareNames
  by_cases hzero : compareBytes (versionStem left) (versionStem right) = 0
  · rw [if_neg (not_not.2 hzero), if_neg (not_not.2 (heq.1 hzero))]
    exact turns_compareRuns _ _
  · rw [if_pos hzero, if_pos (mt heq.2 hzero)]
    exact turns_compareRuns _ _

/-- Where stems tell names apart, the stems go first and the whole names decide between equal
    ones. -/
theorem compareNames_eq (hdot : startsWithDot left = startsWithDot right)
    (h : StemsAgree left right) :
    compareNames left right = thenBy (fun a b => compareRuns (versionStem a) (versionStem b))
      (fun a b => compareRuns (withoutDot a) (withoutDot b)) left right := by
  unfold compareNames thenBy
  by_cases hzero : compareRuns (versionStem left) (versionStem right) = 0
  · rw [if_neg (not_not.2 (compareBytes_eq_zero.2 (h hdot hzero))), if_neg (not_not.2 hzero)]
  · have hbytes : compareBytes (versionStem left) (versionStem right) ≠ 0 := by
      intro heq
      rw [compareBytes_eq_zero.1 heq] at hzero
      exact hzero (turns_compareRuns.self _)
    rw [if_pos hbytes, if_pos hzero]

theorem transOn_compareNames {S : List UInt8 → Prop}
    (hdot : ∀ a b, S a → S b → startsWithDot a = startsWithDot b)
    (h : ∀ a b, S a → S b → StemsAgree a b) : TransOn S compareNames :=
  ((transOn_compareRuns.comap versionStem fun _ _ => trivial).thenBy
      (turns_compareRuns.comap versionStem)
      (transOn_compareRuns.comap withoutDot fun _ _ => trivial)).of_sign
    fun a b ha hb => congrArg Int.sign (compareNames_eq (hdot a b ha hb) (h a b ha hb))

theorem compareVersions_eq :
    compareVersions = thenBy (fun left right => compareSpecial left right specialNames)
      (classFirst startsWithDot compareNames compareNames) := by
  funext left right
  unfold compareVersions
  by_cases heq : left = right
  · subst heq
    have hturns : Turns (thenBy (fun left right => compareSpecial left right specialNames)
        (classFirst startsWithDot compareNames compareNames)) :=
      (turns_compareSpecial specialNames).thenBy (turns_compareNames.classFirst turns_compareNames)
    rw [if_pos (compareBytes_eq_zero.2 rfl), hturns.self]
  · rw [if_neg (mt compareBytes_eq_zero.1 heq)]
    unfold thenBy classFirst
    rw [ite_self]
    rfl

theorem turns_compareVersions : Turns compareVersions := by
  rw [compareVersions_eq]
  exact (turns_compareSpecial specialNames).thenBy
    (turns_compareNames.classFirst turns_compareNames)

theorem transOn_compareVersions {S : List UInt8 → Prop} (h : ∀ a b, S a → S b → StemsAgree a b) :
    TransOn S compareVersions := by
  rw [compareVersions_eq]
  refine TransOn.thenBy (turns_compareSpecial specialNames)
    ((transOn_compareSpecial specialNames).mono fun _ _ => trivial) ?_
  exact (transOn_compareNames (fun a b ha hb => ha.2.trans hb.2.symm)
    fun a b ha hb => h a b ha.1 hb.1).classFirst
      (transOn_compareNames (fun a b ha hb => ha.2.trans hb.2.symm)
        fun a b ha hb => h a b ha.1 hb.1)

-- Spans

theorem turns_compareSpans (options : KeyOptions) :
    Turns fun left right => compareSpans left right options := by
  unfold compareSpans
  cases options.mode with
  | text =>
    cases options.dictionary || options.fold with
    | false => exact turns_compareBytes.comap Span.content
    | true => exact (turns_compareFiltered options).comap Span.content
  | version => exact turns_compareVersions.comap Span.content
  | numeric => exact turns_compareDecimals.comap fun span => decimal (prepared options span) false
  | human => exact turns_compareHuman.comap (prepared options)

theorem transOn_compareSpans {options : KeyOptions} {S : Span → Prop}
    (h : options.mode = .version → ∀ a b, S a → S b → StemsAgree a.content b.content) :
    TransOn S fun left right => compareSpans left right options := by
  unfold compareSpans
  cases hmode : options.mode with
  | text =>
    cases options.dictionary || options.fold with
    | false => exact transOn_compareBytes.comap Span.content fun _ _ => trivial
    | true => exact (transOn_compareFiltered options).comap Span.content fun _ _ => trivial
  | version =>
    intro a b c ha hb hc
    refine @transOn_compareVersions (fun text => ∃ span, S span ∧ span.content = text) ?_ _ _ _
      ⟨a, ha, rfl⟩ ⟨b, hb, rfl⟩ ⟨c, hc, rfl⟩
    rintro _ _ ⟨left, hleft, rfl⟩ ⟨right, hright, rfl⟩
    exact h hmode left right hleft hright
  | numeric =>
    exact transOn_compareDecimals.comap (fun span => decimal (prepared options span) false)
      fun _ _ => trivial
  | human => exact transOn_compareHuman.comap (prepared options) fun _ _ => trivial

-- Plain numbers

/-- A comparison of numbers does not look at where they stood. -/
theorem compareDecimals_congr {span' other other' : Span} {plus : Bool}
    (hspan : span.content = span'.content) (hother : other.content = other'.content) :
    compareDecimals (decimal span plus) (decimal other plus) =
      compareDecimals (decimal span' plus) (decimal other' plus) := by
  unfold compareDecimals compareMagnitudes decimal
  rw [hspan, hother]

/-- A byte that a plain number may hold. -/
def isNumberByte (byte : UInt8) : Bool := isDigit byte || byte = 0x2b || byte = 0x2d || byte = 0x2e

theorem isDigit_number (h : isDigit byte = true) : isNumberByte byte = true := by
  rw [isNumberByte, h]
  rfl

theorem isPlainNumber_bytes (h : isPlainNumber span = true) :
    ∀ byte ∈ span.content, isNumberByte byte = true := by
  have hrest : ∀ text : List UInt8, (fractionOf (text.dropWhile isDigit)).2 = [] →
      ∀ byte ∈ text, isNumberByte byte = true := by
    intro text hend byte hbyte
    rw [← List.takeWhile_append_dropWhile (p := isDigit) (l := text), List.mem_append] at hbyte
    obtain hdigit | hbyte := hbyte
    · exact isDigit_number (List.mem_takeWhile_imp hdigit)
    · cases htail : text.dropWhile isDigit with
      | nil =>
        rw [htail] at hbyte
        cases hbyte
      | cons u rest =>
        rw [htail] at hbyte hend
        unfold fractionOf at hend
        dsimp only at hend
        split at hend
        next hpoint =>
          obtain rfl | hbyte := List.mem_cons.1 hbyte
          · rw [hpoint]
            rfl
          · exact isDigit_number (List.dropWhile_eq_nil_iff.1 hend byte hbyte)
        next => cases hend
  intro byte hbyte
  unfold isPlainNumber at h
  rw [Bool.and_eq_true, decide_eq_true_iff, decide_eq_true_iff] at h
  obtain ⟨-, hend⟩ := h
  cases hcontent : span.content with
  | nil =>
    rw [hcontent] at hbyte
    cases hbyte
  | cons u rest =>
    rw [hcontent] at hbyte hend
    dsimp only at hend
    split at hend
    next hsign =>
      obtain rfl | hbyte := List.mem_cons.1 hbyte
      · rw [Bool.or_eq_true, decide_eq_true_iff, decide_eq_true_iff] at hsign
        obtain rfl | rfl := hsign <;> rfl
      · exact hrest rest hend byte hbyte
    next => exact hrest _ hend byte hbyte

theorem isNumberByte_iff : isNumberByte byte = true ↔
    (0x30 ≤ byte.toNat ∧ byte.toNat ≤ 0x39) ∨ byte.toNat = 0x2b ∨ byte.toNat = 0x2d ∨
      byte.toNat = 0x2e := by
  simp only [isNumberByte, isDigit, Bool.or_eq_true, Bool.and_eq_true, decide_eq_true_eq,
    UInt8.le_iff_toNat_le, ← UInt8.toNat_inj, or_assoc]
  rfl

theorem not_isBlank_of_number (h : isNumberByte byte = true) : isBlank byte = false := by
  rw [isNumberByte_iff] at h
  by_contra hblank
  rw [Bool.not_eq_false] at hblank
  simp only [isBlank, Bool.or_eq_true, Bool.and_eq_true, decide_eq_true_eq, UInt8.le_iff_toNat_le,
    ← UInt8.toNat_inj, show UInt8.toNat 0x20 = 0x20 from rfl, show UInt8.toNat 0x09 = 0x09 from rfl,
    show UInt8.toNat 0x0d = 0x0d from rfl] at hblank
  omega

theorem translated_number (options : KeyOptions) (h : isNumberByte byte = true) :
    translated options byte = byte := by
  rw [isNumberByte_iff] at h
  refine if_neg fun hletter => ?_
  simp only [Bool.and_eq_true, decide_eq_true_eq, UInt8.le_iff_toNat_le,
    show UInt8.toNat 0x61 = 0x61 from rfl, show UInt8.toNat 0x7a = 0x7a from rfl] at hletter
  omega

/-- Folding leaves a plain number as it is. -/
theorem prepared_content (hdictionary : options.dictionary = false)
    (h : isPlainNumber span = true) : (prepared options span).content = span.content := by
  unfold prepared
  split
  next =>
    have hkept : ∀ byte, ignored options byte = false := fun byte => by rw [ignored, hdictionary]; rfl
    have hsame : (span.content.filter fun byte => !ignored options byte).map (translated options) =
        span.content := by
      rw [List.filter_eq_self.2 fun byte _ => by rw [hkept]; rfl]
      refine (List.map_congr_left fun byte hbyte =>
        translated_number options (isPlainNumber_bytes h byte hbyte)).trans ?_
      exact List.map_id' _
    unfold filtered
    dsimp only
    rw [hsame, Span.content]
    exact List.take_of_length_le (Nat.le_refl _)
  next => rfl

/-- Without a leading plus both ways to read a plain number agree. -/
theorem decimal_plus (h : isPlainNumber span = true)
    (hplus : span.content.head? ≠ some 0x2b) : decimal span true = decimal span false := by
  have hblank : span.content.dropWhile isBlank = span.content := by
    cases hcontent : span.content with
    | nil => rfl
    | cons u rest =>
      have hu := isPlainNumber_bytes h u (by rw [hcontent]; exact List.mem_cons_self)
      exact List.dropWhile_cons_of_neg (by rw [not_isBlank_of_number hu]; exact Bool.false_ne_true)
  have hsign : signOf true span.content = signOf false span.content := by
    cases hcontent : span.content with
    | nil => rfl
    | cons u rest =>
      have hu : u ≠ 0x2b := by
        rintro rfl
        rw [hcontent] at hplus
        exact hplus rfl
      unfold signOf
      dsimp only
      rw [decide_eq_false hu, Bool.and_false, Bool.false_and]
  unfold decimal
  rw [hblank, hsign]

end Kompjutr.Sort
