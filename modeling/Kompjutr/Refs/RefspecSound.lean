/-
  Kompjutr.Refs.RefspecSound

  What refspecs expand to (`refspecs_expand`): every ref that a pattern matches, with what the
  asterisk stands for put in the place of the destination's, and no destination twice.

  A compiled mapping is its refspec with the places of the asterisks (`Compiled`).  Both
  compilers emit one entry after another (`Expansion.Ok`), so their loops are the entries of
  the mappings in order, until the last sort.
-/
import Mathlib.Data.List.Nodup
import Kompjutr.Refs.NameSyntax
import Kompjutr.Refs.Refspec

namespace Kompjutr.Refs.Refspecs

open Fuel (bind_eq_ok ok_bind foldlM_ok)
open Objects (Text text isOid)
open List (drop_drop drop_left length_append map_append mem_append mem_singleton take_left)

variable {capture : WildcardCapture} {captured oid : Text} {direction : Direction}

variable {before after pattern name destination : Text} {star : Nat} {refspecs : List Refspec}
  {mappings : List CompiledMapping}

-- Wildcards

/-- A pattern with a text in the place of its asterisk. -/
def replaceStar (pattern replacement : Text) : Text :=
  pattern.takeWhile (· ≠ 0x2a) ++ replacement ++ (pattern.dropWhile (· ≠ 0x2a)).tail

/-- A pattern, cut at its only asterisk. -/
structure Cut (pattern before after : Text) : Prop where
  eq : pattern = before ++ 0x2a :: after
  before : 0x2a ∉ before
  after : 0x2a ∉ after

theorem starIndex_of_not_mem {value : Text} : starIndex value = -1 ↔ 0x2a ∉ value := by
  unfold starIndex
  split
  next hnone => exact iff_of_true rfl (List.idxOf?_eq_none_iff.1 hnone)
  next first hsome =>
    have hmem : 0x2a ∈ value := by
      by_contra hnot
      rw [List.idxOf?_eq_none_iff.2 hnot] at hsome
      cases hsome
    refine iff_of_false ?_ (not_not.2 hmem)
    split <;> omega

theorem idxOf?_cut (h : 0x2a ∉ before) :
    (before ++ 0x2a :: after).idxOf? 0x2a = some before.length := by
  induction before with
  | nil => rw [List.nil_append, List.idxOf?_cons]; rfl
  | cons unit before ih =>
    rw [List.mem_cons, not_or] at h
    rw [List.cons_append, List.idxOf?_cons, if_neg (by simpa using Ne.symm h.1), ih h.2]
    rfl

theorem Cut.starIndex_eq (h : Cut pattern before after) : starIndex pattern = before.length := by
  have hdrop : pattern.drop (before.length + 1) = after := by
    rw [h.eq, ← drop_drop, drop_left]
    rfl
  have hfirst : pattern.idxOf? 0x2a = some before.length := by
    rw [h.eq]
    exact idxOf?_cut h.before
  rw [starIndex, hfirst]
  dsimp only
  rw [hdrop, if_neg (by simpa using h.after)]

theorem cut_of_starIndex {pattern : Text} (h : 0 ≤ starIndex pattern) :
    ∃ before after, Cut pattern before after := by
  have hmem : 0x2a ∈ pattern := by
    by_contra hnot
    rw [starIndex_of_not_mem.2 hnot] at h
    omega
  obtain ⟨before, after, heq, hbefore⟩ := List.eq_append_cons_of_mem hmem
  refine ⟨before, after, heq, hbefore, fun hafter => ?_⟩
  have hdrop : pattern.drop (before.length + 1) = after := by
    rw [heq, ← drop_drop, drop_left]
    rfl
  have hfirst : pattern.idxOf? 0x2a = some before.length := by
    rw [heq]
    exact idxOf?_cut hbefore
  rw [starIndex, hfirst] at h
  dsimp only at h
  rw [hdrop, if_pos (by simpa using hafter)] at h
  omega

theorem Cut.replaceStar_eq (h : Cut pattern before after)
    (replacement : Text) : replaceStar pattern replacement = before ++ replacement ++ after := by
  have hall : ∀ unit ∈ before, decide (unit ≠ 0x2a) = true := by
    intro unit hunit
    rw [decide_eq_true_iff]
    rintro rfl
    exact h.before hunit
  unfold replaceStar
  rw [h.eq, List.takeWhile_append_of_pos hall, List.dropWhile_append_of_pos hall]
  simp

theorem range_any_ne {n : Nat} {left right : Nat → Option UInt16} :
    ((List.range n).any fun index => left index ≠ right index) = false ↔
      ∀ index < n, left index = right index := by
  simp

/-- The capture of a name is the text that makes the pattern the name. -/
theorem Cut.wildcardCapture_iff (h : Cut pattern before after) :
    wildcardCapture name pattern before.length = some capture ↔
      ∃ captured, name = before ++ captured ++ after ∧
        capture = { start := before.length, stop := before.length + captured.length } := by
  have hsuffix : pattern.length - before.length - 1 = after.length := by
    rw [h.eq, length_append, List.length_cons]
    omega
  have hbefore : ∀ index < before.length, pattern[index]? = before[index]? := by
    intro index hindex
    rw [h.eq, List.getElem?_append_left hindex]
  have hafter : ∀ index, pattern[before.length + 1 + index]? = after[index]? := by
    intro index
    rw [h.eq, List.getElem?_append_right (by omega),
      show before.length + 1 + index - before.length = index + 1 by omega, List.getElem?_cons_succ]
  unfold wildcardCapture
  dsimp only
  rw [hsuffix]
  constructor
  · intro hcapture
    split at hcapture
    · cases hcapture
    split at hcapture
    · cases hcapture
    split at hcapture
    · cases hcapture
    next hlength hstart hend =>
    rw [Bool.not_eq_true, range_any_ne] at hstart hend
    refine ⟨(name.drop before.length).take (name.length - after.length - before.length), ?_, ?_⟩
    · have htake : name.take before.length = before := by
        refine List.ext_getElem? fun index => ?_
        rw [List.getElem?_take]
        split
        next hindex => rw [hstart index hindex, hbefore index hindex]
        next hindex => rw [List.getElem?_eq_none (by omega)]
      have hdrop : name.drop (name.length - after.length) = after := by
        refine List.ext_getElem? fun index => ?_
        rw [List.getElem?_drop]
        by_cases hindex : index < after.length
        · rw [hend index hindex, hafter]
        · rw [List.getElem?_eq_none (by omega), List.getElem?_eq_none (by omega)]
      have hmiddle : name.drop before.length =
          (name.drop before.length).take (name.length - after.length - before.length) ++ after := by
        conv_lhs => rw [← List.take_append_drop (name.length - after.length - before.length)
          (name.drop before.length)]
        rw [drop_drop,
          show before.length + (name.length - after.length - before.length) =
            name.length - after.length by omega, hdrop]
      conv_lhs => rw [← List.take_append_drop before.length name, htake, hmiddle]
      rw [List.append_assoc]
    · rw [← Option.some.inj hcapture, List.length_take, List.length_drop]
      congr 1
      omega
  · rintro ⟨captured, rfl, rfl⟩
    have hlength : (before ++ captured ++ after).length =
        before.length + captured.length + after.length := by
      rw [length_append, length_append]
    rw [hlength, if_neg (by omega), if_neg, if_neg]
    · congr 2
      omega
    · rw [Bool.not_eq_true, range_any_ne]
      intro index hindex
      rw [hafter, show before.length + captured.length + after.length - after.length + index =
        (before ++ captured).length + index by rw [length_append]; omega,
        List.getElem?_append_right (by omega), Nat.add_sub_cancel_left]
    · rw [Bool.not_eq_true, range_any_ne]
      intro index hindex
      rw [hbefore index hindex, List.append_assoc, List.getElem?_append_left hindex]

/-- Substituting what was captured replaces the asterisk by it. -/
theorem Cut.substitute_eq (h : Cut pattern before after) (front captured back : Text) :
    substitute pattern before.length (front ++ captured ++ back)
      { start := front.length, stop := front.length + captured.length } =
        replaceStar pattern captured := by
  have hslice : ((front ++ captured ++ back).take (front.length + captured.length)).drop front.length =
      captured := by
    rw [← length_append, take_left, drop_left]
  have htake : pattern.take before.length = before := by rw [h.eq, take_left]
  have hdrop : pattern.drop (before.length + 1) = after := by
    rw [h.eq, ← drop_drop, drop_left]
    rfl
  unfold substitute
  rw [hslice, htake, hdrop, h.replaceStar_eq]

/-- A name stands under a pattern in one way. -/
theorem Cut.replaceStar_inj (h : Cut pattern before after)
    {left right : Text} (heq : replaceStar pattern left = replaceStar pattern right) :
    left = right := by
  rw [h.replaceStar_eq, h.replaceStar_eq] at heq
  exact List.append_cancel_left (List.append_cancel_right heq)

/-- What a capture took out of a name. -/
def WildcardCapture.taken (capture : WildcardCapture) (name : Text) : Text :=
  (name.take capture.stop).drop capture.start

/-- A name is captured where the pattern makes it, and the capture is what makes it. -/
theorem wildcardCapture_iff (hstar : starIndex pattern = star) :
    wildcardCapture name pattern star = some capture ↔
      ∃ captured, name = replaceStar pattern captured ∧
        capture = { start := star, stop := star + captured.length } := by
  obtain ⟨before, after, hcut⟩ := @cut_of_starIndex pattern (by omega)
  have hbefore : star = before.length := by
    have hindex := hcut.starIndex_eq
    omega
  subst hbefore
  rw [hcut.wildcardCapture_iff]
  simp only [hcut.replaceStar_eq]

/-- Substituting into any pattern what another one captured. -/
theorem substitute_captured {other : Text} {otherStar : Nat}
    (hstar : starIndex pattern = star) (hother : starIndex other = otherStar)
    (hname : name = replaceStar pattern captured) :
    substitute other otherStar name { start := star, stop := star + captured.length } =
      replaceStar other captured := by
  obtain ⟨before, after, hcut⟩ := @cut_of_starIndex pattern (by omega)
  obtain ⟨otherBefore, otherAfter, hotherCut⟩ := @cut_of_starIndex other (by omega)
  have hbefore : star = before.length := by
    have hindex := hcut.starIndex_eq
    omega
  have hotherBefore : otherStar = otherBefore.length := by
    have hindex := hotherCut.starIndex_eq
    omega
  subst hbefore hotherBefore
  rw [hname, hcut.replaceStar_eq]
  exact hotherCut.substitute_eq before captured after

theorem taken_captured
    (hstar : starIndex pattern = star) (hname : name = replaceStar pattern captured) :
    ({ start := star, stop := star + captured.length } : WildcardCapture).taken name = captured := by
  obtain ⟨before, after, hcut⟩ := @cut_of_starIndex pattern (by omega)
  have hbefore : star = before.length := by
    have hindex := hcut.starIndex_eq
    omega
  subst hbefore
  rw [WildcardCapture.taken, hname, hcut.replaceStar_eq, ← length_append, take_left]
  exact drop_left

-- Compiling

/-- A mapping is its refspec, and where the asterisks are: on both sides or on neither. -/
structure Compiled (allowOid : Bool) (refspec : Refspec) (mapping : CompiledMapping) : Prop where
  source : mapping.source = refspec.source
  destination : mapping.destination = refspec.destination
  force : mapping.force = refspec.force.getD false
  oidSource : ∀ value, refspec.source = some value → mapping.oidSource = (allowOid && isOid value)
  transfer : ∀ value, refspec.source = some value → mapping.oidSource = false →
    mapping.sourceStar = starIndex value ∧ mapping.destinationStar = starIndex refspec.destination ∧
      (starIndex value = -1 ∧ starIndex refspec.destination = -1 ∨
        0 ≤ starIndex value ∧ 0 ≤ starIndex refspec.destination)

theorem requireTransfer_ok {source : Text} (h : requireTransfer source destination = .ok ()) :
    starIndex source = -1 ∧ starIndex destination = -1 ∨
      0 ≤ starIndex source ∧ 0 ≤ starIndex destination := by
  unfold requireTransfer at h
  split at h
  next hnone => exact .inl hnone
  next =>
    split at h
    · cases h
    next hboth =>
      rw [not_or] at hboth
      exact .inr ⟨by omega, by omega⟩

variable {refspec : Refspec} {mapping : CompiledMapping}

theorem compileMapping_ok {allowOid : Bool}
    (h : compileMapping refspec.source refspec.destination (refspec.force.getD false) allowOid =
      .ok mapping) : Compiled allowOid refspec mapping := by
  obtain ⟨source, destination, force⟩ := refspec
  unfold compileMapping at h
  split at h
  next hsource =>
    obtain ⟨-, -, hmapping⟩ := bind_eq_ok.1 h
    cases hmapping
    exact { source := hsource.symm, destination := rfl, force := rfl
            oidSource := fun value hvalue => by simp_all
            transfer := fun value hvalue => by simp_all }
  next value hsource =>
    split at h
    next hoid =>
      obtain ⟨-, -, hmapping⟩ := bind_eq_ok.1 h
      cases hmapping
      refine { source := rfl, destination := rfl, force := rfl
               oidSource := fun other hother => ?_, transfer := fun other hother hfalse => by cases hfalse }
      obtain rfl := Option.some.inj (hsource.symm.trans hother)
      exact hoid.symm
    next hoid =>
      obtain ⟨⟨⟩, htransfer, hmapping⟩ := bind_eq_ok.1 h
      cases hmapping
      refine { source := rfl, destination := rfl, force := rfl
               oidSource := fun other hother => ?_, transfer := fun other hother _ => ?_ }
      · obtain rfl := Option.some.inj (hsource.symm.trans hother)
        exact (Bool.not_eq_true _ ▸ hoid).symm
      · obtain rfl := Option.some.inj (hsource.symm.trans hother)
        exact ⟨rfl, rfl, requireTransfer_ok htransfer⟩

theorem compileOne_ok {state next : List CompiledMapping × List Text} (h : compileOne direction state refspec = .ok next) :
    ∃ mapping, Compiled (direction = .push) refspec mapping ∧
      next.1 = state.1 ++ [mapping] ∧ (direction = .fetch → refspec.source ≠ none) := by
  unfold compileOne at h
  split at h
  · cases h
  next hfetch =>
    split at h
    · cases h
    obtain ⟨mapping, hmapping, hnext⟩ := bind_eq_ok.1 h
    refine ⟨mapping, compileMapping_ok hmapping, ?_, fun hdirection hsource =>
      hfetch ⟨hdirection, hsource⟩⟩
    split at hnext
    · split at hnext
      · cases hnext
      · rw [← Except.ok.inj hnext]
    · rw [← Except.ok.inj hnext]

/-- The mappings are the refspecs, in order. -/
theorem compile_ok (h : compile refspecs direction = .ok mappings) :
    List.Forall₂ (Compiled (direction = .push)) refspecs mappings ∧
      ∀ refspec ∈ refspecs, direction = .fetch → refspec.source ≠ none := by
  obtain ⟨-, -, h⟩ := bind_eq_ok.1 h
  obtain ⟨state, hstate, hmappings⟩ := bind_eq_ok.1 h
  cases hmappings
  refine Fuel.foldlM_taken (fun taken (state : List CompiledMapping × List Text) =>
    List.Forall₂ (Compiled (direction = .push)) taken state.1 ∧
      ∀ refspec ∈ taken, direction = .fetch → refspec.source ≠ none) ?_
    ⟨.nil, nofun⟩ hstate
  rintro taken state refspec next - ⟨hall, hsources⟩ hnext
  obtain ⟨mapping, hmapping, heq, hsource⟩ := compileOne_ok hnext
  rw [heq]
  refine ⟨List.rel_append hall (.cons hmapping .nil), fun other hother => ?_⟩
  rw [mem_append, mem_singleton] at hother
  obtain hother | rfl := hother
  · exact hsources other hother
  · exact hsource

-- The refs of the other side

/-- The refs that a mapping can take: neither `HEAD` nor a peeled tag. -/
def plainRefs (refs : List RefspecSourceRef) : List (Text × Text) :=
  (refs.filter fun ref => ref.name ≠ text "HEAD" ∧ ¬ peeledMark.isSuffixOf ref.name).map fun ref =>
    (ref.name, ref.oid)

theorem isMetadata_ok {metadata : Bool} (h : isMetadata name = .ok metadata) :
    metadata = !decide (name ≠ text "HEAD" ∧ ¬ peeledMark.isSuffixOf name) := by
  unfold isMetadata at h
  split at h
  next hpeeled =>
    dsimp only at h
    split at h
    · cases h
    · rw [← Except.ok.inj h, decide_eq_false (fun hplain => hplain.2 hpeeled)]
      rfl
  next hpeeled =>
    split at h
    next hhead =>
      rw [← Except.ok.inj h, decide_eq_false (fun hplain => hplain.1 hhead)]
      rfl
    next hhead =>
      split at h
      · cases h
      · rw [← Except.ok.inj h, decide_eq_true ⟨hhead, hpeeled⟩]
        rfl

theorem plainRefs_concat (refs : List RefspecSourceRef) (ref : RefspecSourceRef) :
    plainRefs (refs ++ [ref]) =
      if ref.name ≠ text "HEAD" ∧ ¬ peeledMark.isSuffixOf ref.name then
        plainRefs refs ++ [(ref.name, ref.oid)]
      else plainRefs refs := by
  unfold plainRefs
  rw [List.filter_append, map_append]
  split
  next hplain => rw [List.filter_cons_of_pos (by simpa using hplain)]; rfl
  next hplain =>
    rw [List.filter_cons_of_neg (by simpa using hplain), List.filter_nil, List.map_nil,
      List.append_nil]

theorem addSourceRef_ok {state next : ActualRefs} {ref : RefspecSourceRef}
    (h : addSourceRef state ref = .ok next) :
    ref.name ∉ state.seen ∧ next.seen = ref.name :: state.seen ∧
      next.actual = if ref.name ≠ text "HEAD" ∧ ¬ peeledMark.isSuffixOf ref.name then
        state.actual ++ [(ref.name, ref.oid)] else state.actual := by
  unfold addSourceRef at h
  split at h
  · cases h
  split at h
  · cases h
  obtain ⟨metadata, hmetadata, h⟩ := bind_eq_ok.1 h
  split at h
  · cases h
  next hseen =>
    cases h
    refine ⟨hseen, rfl, ?_⟩
    rw [isMetadata_ok hmetadata]
    by_cases hplain : ref.name ≠ text "HEAD" ∧ ¬ peeledMark.isSuffixOf ref.name
    · rw [decide_eq_true hplain, if_pos hplain]
      rfl
    · rw [decide_eq_false hplain, if_neg hplain]
      rfl

variable {refs : List RefspecSourceRef}

/-- The refs taken, each under a name of its own. -/
theorem actualSourceRefs_ok {actual : List (Text × Text)} (h : actualSourceRefs refs = .ok actual) :
    actual = plainRefs refs ∧ (actual.map Prod.fst).Nodup := by
  obtain ⟨state, hstate, hactual⟩ := bind_eq_ok.1 h
  cases hactual
  suffices hinv : state.actual = plainRefs refs ∧ (state.actual.map Prod.fst).Nodup ∧
      ∀ name ∈ state.actual.map Prod.fst, name ∈ state.seen from ⟨hinv.1, hinv.2.1⟩
  refine Fuel.foldlM_taken (fun taken (state : ActualRefs) =>
    state.actual = plainRefs taken ∧ (state.actual.map Prod.fst).Nodup ∧
      ∀ name ∈ state.actual.map Prod.fst, name ∈ state.seen) ?_ ?_ hstate
  case refine_2 => exact ⟨rfl, List.nodup_nil, fun _ hnil => hnil⟩
  rintro taken state ref next - ⟨hactual, hnodup, hseen⟩ hnext
  obtain ⟨hnew, hseen', hactual'⟩ := addSourceRef_ok hnext
  rw [plainRefs_concat, ← hactual, hactual', hseen']
  refine ⟨rfl, ?_, ?_⟩
  · split
    · rw [map_append, List.map_singleton, ← List.concat_eq_append]
      exact hnodup.concat (mt (hseen _) hnew)
    · exact hnodup
  · intro name hname
    split at hname
    · rw [map_append, List.map_singleton, mem_append, mem_singleton] at hname
      obtain hold | rfl := hname
      · exact List.mem_cons_of_mem _ (hseen name hold)
      · exact List.mem_cons_self
    · exact List.mem_cons_of_mem _ (hseen name hname)

theorem lookup_iff {entries : List (Text × Text)}
    (h : (entries.map Prod.fst).Nodup) : entries.lookup name = some oid ↔
    (name, oid) ∈ entries := by
  constructor
  · intro hlookup
    obtain ⟨before, after, rfl, -⟩ := List.lookup_eq_some_iff.1 hlookup
    exact List.mem_append_right _ List.mem_cons_self
  · intro hmem
    obtain ⟨before, after, rfl⟩ := List.append_of_mem hmem
    refine List.lookup_eq_some_iff.2 ⟨before, after, rfl, fun entry hentry => ?_⟩
    rw [map_append, List.nodup_append] at h
    rw [bne_iff_ne]
    exact (h.2.2 _ (List.mem_map_of_mem hentry) _ List.mem_cons_self).symm

-- Expanding

section Expansion

variable {α β : Type} {dest : α → Text} {state next : Expansion α}

/-- The destinations seen are those of the entries, each once. -/
def Expansion.Distinct (dest : α → Text) (state : Expansion α) : Prop :=
  state.seen = state.result.map dest ∧ state.seen.Nodup

/-- A part of the run adds the entries that are asked for, and no other. -/
structure Adds (dest : α → Text) (Asked : α → Prop) (state next : Expansion α) : Prop where
  distinct : state.Distinct dest → next.Distinct dest
  mem : ∀ entry, entry ∈ next.result ↔ entry ∈ state.result ∨ Asked entry

theorem Adds.congr {Asked Asked' : α → Prop} (h : Adds dest Asked state next)
    (hiff : ∀ entry, Asked entry ↔ Asked' entry) : Adds dest Asked' state next :=
  { distinct := h.distinct, mem := fun entry => by rw [h.mem, hiff] }

theorem emit_adds {destination : Text} {entry : α} (h : state.emit destination entry = .ok next)
    (hdest : dest entry = destination) : Adds dest (· = entry) state next := by
  unfold Expansion.emit at h
  split at h
  · cases h
  split at h
  · cases h
  next hnew =>
    cases h
    refine { distinct := fun hdistinct => ⟨?_, ?_⟩, mem := fun other => ?_ }
    · rw [hdistinct.1, map_append, List.map_singleton, hdest]
    · rw [← List.concat_eq_append]
      exact hdistinct.2.concat hnew
    · rw [mem_append, mem_singleton]

/-- A loop adds what its steps add: one step for each of the things that ask. -/
theorem foldlM_adds {γ : Type} {f : Expansion α → β → Except GitError (Expansion α)}
    {R : γ → β → Prop} {Asked : γ → α → Prop} {xs : List β} {ys : List γ}
    (hall : List.Forall₂ R ys xs)
    (hstep : ∀ state y x next, R y x → f state x = .ok next → Adds dest (Asked y) state next)
    (h : xs.foldlM f state = .ok next) :
    Adds dest (fun entry => ∃ y ∈ ys, Asked y entry) state next := by
  induction hall generalizing state with
  | nil =>
    cases h
    exact { distinct := id, mem := fun entry => by simp }
  | @cons y x ys xs hfirst _ ih =>
    obtain ⟨reached, hreached, hrest⟩ := bind_eq_ok.1 h
    have hone := hstep state y x reached hfirst hreached
    have hall := ih hrest
    refine { distinct := fun hdistinct => hall.distinct (hone.distinct hdistinct)
             mem := fun entry => ?_ }
    rw [hall.mem, hone.mem, or_assoc]
    simp only [List.mem_cons, exists_eq_or_imp]

theorem derive_adds {make : Text → Text → Text → α}
    {source : Text × Text} (hdest : ∀ name destination oid, dest (make name destination oid) = destination)
    (hsource : mapping.sourceStar = starIndex pattern)
    (hdestination : mapping.destinationStar = starIndex mapping.destination)
    (hstar : 0 ≤ starIndex pattern) (hother : 0 ≤ starIndex mapping.destination)
    (h : Expansion.derive mapping pattern make state source = .ok next) :
    Adds dest (fun entry => ∃ captured, source.1 = replaceStar pattern captured ∧
      entry = make source.1 (replaceStar mapping.destination captured) source.2) state next := by
  have hstarNat : starIndex pattern = mapping.sourceStar.toNat := by omega
  have hotherNat : starIndex mapping.destination = mapping.destinationStar.toNat := by omega
  unfold Expansion.derive at h
  split at h
  next hnone =>
    cases h
    refine { distinct := id, mem := fun entry => ?_ }
    rw [or_iff_left]
    rintro ⟨captured, hname, -⟩
    have hcapture := (wildcardCapture_iff hstarNat).2 ⟨captured, hname, rfl⟩
    rw [hnone] at hcapture
    cases hcapture
  next capture hcapture =>
    obtain ⟨captured, hname, rfl⟩ := (wildcardCapture_iff hstarNat).1 hcapture
    split at h
    · cases h
    dsimp only at h
    rw [substitute_captured hstarNat hotherNat hname] at h
    obtain ⟨-, -, h⟩ := bind_eq_ok.1 h
    refine (emit_adds h (hdest _ _ _)).congr fun entry => ?_
    constructor
    · rintro rfl
      exact ⟨captured, hname, rfl⟩
    · rintro ⟨other, hsame, rfl⟩
      obtain ⟨before, after, hcut⟩ := cut_of_starIndex hstar
      rw [hcut.replaceStar_inj (hname.symm.trans hsame)]

end Expansion

-- What a refspec asks for

/-- The refs that a refspec takes, each with its destination. -/
inductive Takes (refspec : Refspec) : Text → Text → Prop
  | exact (source : Text) : refspec.source = some source → starIndex source = -1 →
      Takes refspec source refspec.destination
  | wildcard (pattern captured : Text) : refspec.source = some pattern → starIndex pattern ≠ -1 →
      Takes refspec (replaceStar pattern captured) (replaceStar refspec.destination captured)

/-- The entries of a fetch. -/
structure Fetched (refs : List RefspecSourceRef) (refspec : Refspec) (entry : ExpandedFetchRefspec) :
    Prop where
  takes : Takes refspec entry.source entry.destination
  ref : (entry.source, entry.oid) ∈ plainRefs refs
  force : entry.force = refspec.force.getD false

/-- The entries of a push. -/
inductive Pushed (refs : List RefspecSourceRef) (refspec : Refspec) : ExpandedPushRefspec → Prop
  | deletion : refspec.source = none →
      Pushed refs refspec
        { source := none, destination := refspec.destination, oid := none, force := false }
  | object (oid : Text) : refspec.source = some oid → isOid oid = true →
      Pushed refs refspec
        { source := some oid, destination := refspec.destination, oid := some oid
          force := refspec.force.getD false }
  | transfer (name destination oid : Text) : (∀ source ∈ refspec.source, isOid source = false) →
      Takes refspec name destination → (name, oid) ∈ plainRefs refs →
      Pushed refs refspec
        { source := some name, destination, oid := some oid, force := refspec.force.getD false }

theorem takes_exact_iff {source : Text}
    (hsource : refspec.source = some source) (hstar : starIndex source = -1) :
    Takes refspec name destination ↔ name = source ∧ destination = refspec.destination := by
  constructor
  · rintro (⟨other, hother, -⟩ | ⟨pattern, captured, hpattern, hnot⟩)
    · exact ⟨Option.some.inj (hother.symm.trans hsource), rfl⟩
    · obtain rfl := Option.some.inj (hpattern.symm.trans hsource)
      exact absurd hstar hnot
  · rintro ⟨rfl, rfl⟩
    exact .exact _ hsource hstar

theorem takes_wildcard_iff
    (hsource : refspec.source = some pattern) (hstar : starIndex pattern ≠ -1) :
    Takes refspec name destination ↔ ∃ captured,
      name = replaceStar pattern captured ∧ destination = replaceStar refspec.destination captured := by
  constructor
  · rintro (⟨other, hother, hnot⟩ | ⟨other, captured, hother, -⟩)
    · obtain rfl := Option.some.inj (hother.symm.trans hsource)
      exact absurd hnot hstar
    · obtain rfl := Option.some.inj (hother.symm.trans hsource)
      exact ⟨captured, rfl, rfl⟩
  · rintro ⟨captured, rfl, rfl⟩
    exact .wildcard _ captured hsource hstar

section Transfer

variable {α : Type} {dest : α → Text} (make : Text → Text → Text → α) {allowOid : Bool}
  {refs : List RefspecSourceRef} {refspec : Refspec} {mapping : CompiledMapping} {source : Text}
  {state next : Expansion α}

theorem exact_adds (hdest : ∀ name destination oid, dest (make name destination oid) = destination)
    (hnodup : ((plainRefs refs).map Prod.fst).Nodup) (hmapping : Compiled allowOid refspec mapping)
    (hsource : refspec.source = some source) (hstar : starIndex source = -1)
    (hlookup : (plainRefs refs).lookup source = some oid)
    (h : state.emit mapping.destination (make source mapping.destination oid) = .ok next) :
    Adds dest (fun entry => ∃ name destination oid, Takes refspec name destination ∧
      (name, oid) ∈ plainRefs refs ∧ entry = make name destination oid) state next := by
  refine (emit_adds h (hdest _ _ _)).congr fun entry => ?_
  rw [hmapping.destination]
  constructor
  · rintro rfl
    exact ⟨source, refspec.destination, oid, .exact source hsource hstar,
      (lookup_iff hnodup).1 hlookup, rfl⟩
  · rintro ⟨name, destination, other, htakes, hmem, rfl⟩
    obtain ⟨rfl, rfl⟩ := (takes_exact_iff hsource hstar).1 htakes
    rw [Option.some.inj (hlookup.symm.trans ((lookup_iff hnodup).2 hmem))]

theorem wildcard_adds (hdest : ∀ name destination oid, dest (make name destination oid) = destination)
    (hmapping : Compiled allowOid refspec mapping) (hsource : refspec.source = some source)
    (hoid : mapping.oidSource = false) (hstar : 0 ≤ mapping.sourceStar)
    (h : (plainRefs refs).foldlM (Expansion.derive mapping source make) state = .ok next) :
    Adds dest (fun entry => ∃ name destination oid, Takes refspec name destination ∧
      (name, oid) ∈ plainRefs refs ∧ entry = make name destination oid) state next := by
  obtain ⟨hstarIndex, hdestination, hboth⟩ := hmapping.transfer source hsource hoid
  have hplaces : 0 ≤ starIndex source ∧ 0 ≤ starIndex refspec.destination := by omega
  refine (foldlM_adds (List.forall₂_same.2 fun ref _ => Eq.refl ref) (fun state ref other next hsame hnext =>
    derive_adds hdest hstarIndex (hmapping.destination ▸ hdestination) hplaces.1
      (hmapping.destination ▸ hplaces.2) (hsame ▸ hnext)) h).congr fun entry => ?_
  rw [hmapping.destination]
  simp only [takes_wildcard_iff hsource (show starIndex source ≠ -1 by omega)]
  constructor
  · rintro ⟨⟨name, oid⟩, hmem, captured, hname, rfl⟩
    exact ⟨name, _, oid, ⟨captured, hname, rfl⟩, hmem, rfl⟩
  · rintro ⟨name, destination, oid, ⟨captured, hname, rfl⟩, hmem, rfl⟩
    exact ⟨(name, oid), hmem, captured, hname, rfl⟩

end Transfer

-- The two compilers

theorem fetchMapping_adds {state next : Expansion ExpandedFetchRefspec}
    (hnodup : ((plainRefs refs).map Prod.fst).Nodup) (hmapping : Compiled false refspec mapping)
    (h : fetchMapping (plainRefs refs) state mapping = .ok next) :
    Adds ExpandedFetchRefspec.destination (Fetched refs refspec) state next := by
  have hfetched : ∀ entry : ExpandedFetchRefspec,
      (∃ name destination oid, Takes refspec name destination ∧ (name, oid) ∈ plainRefs refs ∧
        entry = { source := name, destination, oid, force := mapping.force }) ↔
          Fetched refs refspec entry := by
    intro entry
    constructor
    · rintro ⟨name, destination, oid, htakes, hmem, rfl⟩
      exact { takes := htakes, ref := hmem, force := hmapping.force }
    · intro hentry
      refine ⟨_, _, _, hentry.takes, hentry.ref, ?_⟩
      rw [hmapping.force, ← hentry.force]
  unfold fetchMapping at h
  split at h
  · cases h
  next source hsource =>
    rw [hmapping.source] at hsource
    have hoid : mapping.oidSource = false := hmapping.oidSource source hsource
    obtain ⟨hstarIndex, -, hboth⟩ := hmapping.transfer source hsource hoid
    split at h
    next hstar =>
      split at h
      · cases h
      next oid hlookup =>
        exact (exact_adds _ (fun _ _ _ => rfl) hnodup hmapping hsource (by omega) hlookup h).congr
          hfetched
    next hstar =>
      exact (wildcard_adds _ (fun _ _ _ => rfl) hmapping hsource hoid (by omega) h).congr hfetched

/-- The entry of a ref that is pushed. -/
def transferred (force : Bool) (name destination oid : Text) : ExpandedPushRefspec :=
  { source := some name, destination, oid := some oid, force }

theorem pushMapping_adds {state next : Expansion ExpandedPushRefspec}
    (hnodup : ((plainRefs refs).map Prod.fst).Nodup) (hmapping : Compiled true refspec mapping)
    (h : pushMapping (plainRefs refs) state mapping = .ok next) :
    Adds ExpandedPushRefspec.destination (Pushed refs refspec) state next := by
  unfold pushMapping at h
  split at h
  next hsource =>
    rw [hmapping.source] at hsource
    refine (@emit_adds _ ExpandedPushRefspec.destination _ _ _ _ h rfl).congr fun entry => ?_
    rw [hmapping.destination]
    constructor
    · rintro rfl
      exact .deletion hsource
    · rintro (- | ⟨oid, hother, -⟩ | ⟨name, destination, oid, -, htakes, -⟩)
      · rfl
      · rw [hsource] at hother
        cases hother
      · cases htakes <;> simp_all
  next source hsource =>
    rw [hmapping.source] at hsource
    split at h
    next hoidSource =>
      have hoid : isOid source = true := by
        rw [hmapping.oidSource source hsource, Bool.true_and] at hoidSource
        exact hoidSource
      refine (@emit_adds _ ExpandedPushRefspec.destination _ _ _ _ h rfl).congr fun entry => ?_
      rw [hmapping.destination, hmapping.force]
      constructor
      · rintro rfl
        exact .object source hsource hoid
      · rintro (hnone | ⟨oid, hother, -⟩ | ⟨name, destination, oid, hplain, -, -⟩)
        · rw [hsource] at hnone
          cases hnone
        · rw [Option.some.inj (hsource.symm.trans hother)]
        · rw [hplain source hsource] at hoid
          cases hoid
    next hoidSource =>
      rw [Bool.not_eq_true] at hoidSource
      have hoid : isOid source = false := by
        rw [hmapping.oidSource source hsource, Bool.true_and] at hoidSource
        exact hoidSource
      have hpushed : ∀ entry : ExpandedPushRefspec,
          (∃ name destination oid, Takes refspec name destination ∧ (name, oid) ∈ plainRefs refs ∧
            entry = transferred mapping.force name destination oid) ↔ Pushed refs refspec entry := by
        intro entry
        dsimp only [transferred]
        rw [hmapping.force]
        constructor
        · rintro ⟨name, destination, oid, htakes, hmem, rfl⟩
          refine .transfer name destination oid (fun other hother => ?_) htakes hmem
          rwa [← Option.some.inj (hsource.symm.trans hother)]
        · rintro (hnone | ⟨oid, hother, hyes⟩ | ⟨name, destination, oid, -, htakes, hmem⟩)
          · rw [hsource] at hnone
            cases hnone
          · rw [← Option.some.inj (hsource.symm.trans hother), hoid] at hyes
            cases hyes
          · exact ⟨name, destination, oid, htakes, hmem, rfl⟩
      obtain ⟨hstarIndex, -, hboth⟩ := hmapping.transfer source hsource hoidSource
      split at h
      next hstar =>
        split at h
        · cases h
        next oid hlookup =>
          exact (exact_adds (transferred mapping.force) (fun _ _ _ => rfl) hnodup
            hmapping hsource (by omega) hlookup h).congr hpushed
      next hstar =>
        exact (wildcard_adds (transferred mapping.force) (fun _ _ _ => rfl) hmapping hsource hoidSource (by omega) h).congr
          hpushed

theorem distinct_sorted {α : Type} {dest : α → Text} {Asked : α → Prop} {state : Expansion α}
    (h : Adds dest Asked { destinations := 0, seen := [], result := [] } state)
    (le : α → α → Bool) :
    ((state.result.mergeSort le).map dest).Nodup ∧
      ∀ entry, entry ∈ state.result.mergeSort le ↔ Asked entry := by
  have hdistinct : state.Distinct dest := h.distinct ⟨rfl, List.nodup_nil⟩
  have hperm := List.mergeSort_perm state.result le
  refine ⟨?_, fun entry => ?_⟩
  · rw [(hperm.map dest).nodup_iff, ← hdistinct.1]
    exact hdistinct.2
  · rw [hperm.mem_iff, h.mem, or_iff_right List.not_mem_nil]

theorem expandFetch_ok {result : List ExpandedFetchRefspec}
    (hcompile : compile refspecs .fetch = .ok mappings) (h : expandFetch mappings refs = .ok result) :
    (result.map ExpandedFetchRefspec.destination).Nodup ∧
      ∀ entry, entry ∈ result ↔ ∃ refspec ∈ refspecs, Fetched refs refspec entry := by
  obtain ⟨sources, hsources, h⟩ := bind_eq_ok.1 h
  obtain ⟨rfl, hnodup⟩ := actualSourceRefs_ok hsources
  obtain ⟨state, hstate, hresult⟩ := bind_eq_ok.1 h
  cases hresult
  exact distinct_sorted (foldlM_adds (compile_ok hcompile).1
    (fun state refspec mapping next hmapping => fetchMapping_adds hnodup hmapping) hstate) _

theorem expandPush_ok {result : List ExpandedPushRefspec}
    (hcompile : compile refspecs .push = .ok mappings) (h : expandPush mappings refs = .ok result) :
    (result.map ExpandedPushRefspec.destination).Nodup ∧
      ∀ entry, entry ∈ result ↔ ∃ refspec ∈ refspecs, Pushed refs refspec entry := by
  obtain ⟨sources, hsources, h⟩ := bind_eq_ok.1 h
  obtain ⟨rfl, hnodup⟩ := actualSourceRefs_ok hsources
  obtain ⟨state, hstate, hresult⟩ := bind_eq_ok.1 h
  cases hresult
  exact distinct_sorted (foldlM_adds (compile_ok hcompile).1
    (fun state refspec mapping next hmapping => pushMapping_adds hnodup hmapping) hstate) _

/-- An expansion that is not rejected holds an entry for every ref that a refspec takes, at the
    destination with what the asterisk stands for, and no destination twice.  What a pattern
    captures of a name is what makes the pattern the name. -/
theorem refspecs_expand (refspecs : List Refspec) (refs : List RefspecSourceRef) :
    (∀ mappings result, compile refspecs .fetch = .ok mappings →
      expandFetch mappings refs = .ok result →
        (result.map ExpandedFetchRefspec.destination).Nodup ∧
          ∀ entry, entry ∈ result ↔ ∃ refspec ∈ refspecs, Fetched refs refspec entry) ∧
    (∀ mappings result, compile refspecs .push = .ok mappings →
      expandPush mappings refs = .ok result →
        (result.map ExpandedPushRefspec.destination).Nodup ∧
          ∀ entry, entry ∈ result ↔ ∃ refspec ∈ refspecs, Pushed refs refspec entry) ∧
    ∀ (pattern name : Text) (star : Nat), starIndex pattern = star →
      (∀ capture, wildcardCapture name pattern star = some capture →
        replaceStar pattern (capture.taken name) = name ∧
          substitute pattern star name capture = name) ∧
      ∀ captured, ∃ capture, wildcardCapture (replaceStar pattern captured) pattern star = some capture ∧
        capture.taken (replaceStar pattern captured) = captured := by
  refine ⟨fun mappings result => expandFetch_ok, fun mappings result => expandPush_ok,
    fun pattern name star hstar => ⟨fun capture hcapture => ?_, fun captured => ?_⟩⟩
  · obtain ⟨captured, hname, rfl⟩ := (wildcardCapture_iff hstar).1 hcapture
    rw [taken_captured hstar hname, substitute_captured hstar hstar hname]
    exact ⟨hname.symm, hname.symm⟩
  · exact ⟨_, (wildcardCapture_iff hstar).2 ⟨captured, rfl, rfl⟩, taken_captured hstar rfl⟩

def oidOf (digit : UInt16) : Text := List.replicate 40 digit

/-- Tags are fetched under another name. -/
def tagRefspecs : List Refspec :=
  [{ source := some (text "refs/tags/*"), destination := text "refs/x/*", force := none }]

def taggedRefs : List RefspecSourceRef :=
  [{ name := text "refs/tags/v1", oid := oidOf 0x61 },
    { name := text "refs/tags/v1^\x7b\x7d", oid := oidOf 0x62 }]

def tagMappings : List CompiledMapping :=
  [{ source := some (text "refs/tags/*"), destination := text "refs/x/*", sourceStar := 10
     destinationStar := 7, oidSource := false, force := false }]

def tagEntries : List ExpandedFetchRefspec :=
  [{ source := text "refs/tags/v1", destination := text "refs/x/v1", oid := oidOf 0x61
     force := false }]

theorem tags_expand : (tagEntries.map ExpandedFetchRefspec.destination).Nodup ∧
    ∀ entry, entry ∈ tagEntries ↔ ∃ refspec ∈ tagRefspecs, Fetched taggedRefs refspec entry :=
  (refspecs_expand tagRefspecs taggedRefs).1 tagMappings tagEntries (by decide +kernel)
    (by decide +kernel)

/-- The peeled row of a tag stands under the pattern and is not expanded. -/
theorem peeled_not_expanded :
    ∃ refspecs refs mappings result ref, compile refspecs .fetch = .ok mappings ∧
      expandFetch mappings refs = .ok result ∧ ref ∈ refs ∧
      (wildcardCapture ref.name (text "refs/tags/*") 10).isSome ∧
      refspecs.map Refspec.source = [some (text "refs/tags/*")] ∧
      ∀ entry ∈ result, entry.source ≠ ref.name :=
  ⟨tagRefspecs, taggedRefs, tagMappings, tagEntries,
    { name := text "refs/tags/v1^\x7b\x7d", oid := oidOf 0x62 }, by decide +kernel,
    by decide +kernel, by decide +kernel, by decide +kernel, by decide +kernel, by decide +kernel⟩

end Kompjutr.Refs.Refspecs
