/-
  Kompjutr.Objects.CommitFields

  The texts of a commit that was read are well-formed: the object is decoded as a whole, and
  every field is cut out of it at ASCII units.
-/
import Kompjutr.Lib.Utf8Text
import Kompjutr.Objects.CommitRoundTrip

namespace Kompjutr.Objects

open Utf8 Fuel

variable {line t : Text}

variable {headers : List Header}

/-- A header whose texts are well-formed. -/
def Header.Formed (h : Header) : Prop := ∀ part ∈ h.value :: h.continuation, WellFormed part

theorem Header.Formed.full {h : Header} (hformed : h.Formed) : WellFormed h.full :=
  wellFormed_joined.2 hformed

theorem addHeader_formed (hline : WellFormed line)
    (hheaders : ∀ h ∈ headers, h.Formed) : ∀ h ∈ addHeader headers line, h.Formed := by
  intro h hmem
  unfold addHeader at hmem
  split at hmem
  · next space hspace =>
    rcases List.mem_cons.1 hmem with rfl | hmem
    · -- the value is what follows the space
      obtain ⟨hlength, htake⟩ := indexOf_le hspace
      have hcut : line = line.take (space + 1) ++ 0x20 :: line.drop (space + 2) := by
        have hspan : line.drop (space + 1) = 0x20 :: line.drop (space + 2) := by
          rw [← List.take_append_drop 1 (line.drop (space + 1)), List.drop_drop]
          exact congrArg (· ++ _) htake
        rw [← hspan, List.take_append_drop]
      rw [hcut] at hline
      have hvalue := ((wellFormed_cut _ _ (not_surrogate_of_lt (by decide))).1 hline).2
      intro part hpart
      rw [List.mem_singleton.1 hpart]
      exact hvalue
    · exact hheaders h hmem
  · exact hheaders h hmem

theorem addLine_formed (hline : WellFormed line)
    (hheaders : ∀ h ∈ headers, h.Formed) : ∀ h ∈ addLine headers line, h.Formed := by
  unfold addLine
  split
  · exact addHeader_formed hline fun h hmem => nomatch hmem
  · next last older =>
    split
    · next hindent =>
      intro h hmem
      rcases List.mem_cons.1 hmem with rfl | hmem
      · have hlast := hheaders last List.mem_cons_self
        obtain ⟨rest, rfl⟩ := List.head?_eq_some_iff.1 hindent
        have hrest := ((wellFormed_cut [] rest (not_surrogate_of_lt (by decide))).1 hline).2
        intro part hpart
        rw [← List.cons_append] at hpart
        rcases List.mem_append.1 hpart with hpart | hpart
        · exact hlast part hpart
        · rw [List.mem_singleton.1 hpart]
          exact hrest
      · exact hheaders h (List.mem_cons_of_mem _ hmem)
    · exact addHeader_formed hline hheaders

theorem foldl_addLine_formed {lines : List Text} (hlines : ∀ line ∈ lines, WellFormed line)
    (hheaders : ∀ h ∈ headers, h.Formed) :
    ∀ h ∈ lines.foldl addLine headers, h.Formed := by
  induction lines generalizing headers with
  | nil => exact hheaders
  | cons line lines ih =>
    exact ih (fun other hother => hlines other (List.mem_cons_of_mem _ hother))
      (addLine_formed (hlines line List.mem_cons_self) hheaders)

theorem splitOn_wellFormed (h : WellFormed t) : ∀ line ∈ t.splitOn 0x0a, WellFormed line := by
  obtain ⟨first, lines, hsplit⟩ := exists_splitOn t
  rw [(splitOn_eq_cons hsplit).1] at h
  rw [hsplit]
  exact wellFormed_joined.1 h

/-- The two sides of the blank line. -/
theorem splitHeaders_formed (h : WellFormed t) : WellFormed (splitHeaders t).message ∧
      ∀ header ∈ (splitHeaders t).headers, WellFormed header.2 := by
  have hheaders : ∀ head : Text, WellFormed head → ∀ header ∈
      ((head.splitOn 0x0a).foldl addLine []).reverse.map fun h => (h.key, h.full),
        WellFormed header.2 := by
    intro head hhead header hmem
    obtain ⟨kept, hkept, rfl⟩ := List.mem_map.1 hmem
    have hformed := foldl_addLine_formed (splitOn_wellFormed hhead)
      (fun h hmem => absurd hmem List.not_mem_nil) kept (List.mem_reverse.1 hkept)
    exact hformed.full
  cases hblank : indexOf [0x0a, 0x0a] t with
  | none =>
    unfold splitHeaders
    rw [hblank]
    exact ⟨rfl, hheaders t h⟩
  | some blank =>
    obtain ⟨hlength, htake⟩ := indexOf_le hblank
    have hcut : t = t.take blank ++ 0x0a :: (0x0a :: t.drop (blank + 2)) := by
      have hspan : t.drop blank = 0x0a :: 0x0a :: t.drop (blank + 2) := by
        rw [← List.take_append_drop 2 (t.drop blank), List.drop_drop]
        exact congrArg (· ++ _) htake
      rw [← hspan, List.take_append_drop]
    rw [hcut] at h
    obtain ⟨hhead, hrest⟩ := (wellFormed_cut _ _ (not_surrogate_of_lt (by decide))).1 h
    have hmessage := ((wellFormed_cut [] _ (not_surrogate_of_lt (by decide))).1 hrest).2
    unfold splitHeaders
    rw [hblank]
    exact ⟨hmessage, hheaders _ hhead⟩

/-- A commit whose texts are well-formed. -/
structure Commit.Formed (commit : Commit) : Prop where
  author_name : WellFormed commit.author.name
  author_email : WellFormed commit.author.email
  committer_name : WellFormed commit.committer.name
  committer_email : WellFormed commit.committer.email
  gpgsig : ∀ signature ∈ commit.gpgsig, WellFormed signature
  message : WellFormed commit.message

theorem commitHeader_formed {before after : Commit × Bool} {header : Text × Text}
    (hvalue : WellFormed header.2) (hbefore : before.1.Formed)
    (h : commitHeader before header = .ok after) : after.1.Formed := by
  obtain ⟨commit, saw⟩ := before
  obtain ⟨key, value⟩ := header
  simp only [commitHeader] at h
  split_ifs at h
  · cases h
    exact { hbefore with }
  · cases h
    exact { hbefore with }
  · cases h
    obtain ⟨hname, hemail⟩ := wellFormed_of_front rfl hvalue
    exact { hbefore with author_name := hname, author_email := hemail }
  · cases h
    obtain ⟨hname, hemail⟩ := wellFormed_of_front rfl hvalue
    exact { hbefore with committer_name := hname, committer_email := hemail }
  · cases h
    exact { hbefore with
      gpgsig := fun signature hmem => by rw [← Option.some.inj hmem]; exact hvalue }
  · cases h
    exact hbefore

theorem parseCommit_formed {data : List UInt8} {commit : Commit}
    (h : parseCommit data = .ok commit) : commit.Formed := by
  obtain ⟨hmessage, hheaders⟩ := splitHeaders_formed (wellFormed_textDecode data)
  unfold parseCommit parseCommitText at h
  obtain ⟨⟨parsed, saw⟩, hfold, h⟩ := bind_eq_ok.1 h
  have hformed : parsed.Formed := by
    refine foldlM_ok (fun state : Commit × Bool => state.1.Formed)
      (fun before header after hmem hbefore hafter =>
        commitHeader_formed (hheaders header hmem) hbefore hafter) ?_ hfold
    exact { author_name := rfl, author_email := rfl, committer_name := rfl, committer_email := rfl
            gpgsig := fun _ hmem => (nomatch hmem), message := hmessage }
  dsimp only at h
  split at h
  · cases h
  · cases h
    exact hformed

end Kompjutr.Objects
