/-
  Kompjutr.Objects.RawTree

  The structure of a tree object, apart from what its fields mean: entries of a mode, a space, a
  name, a NUL octet and twenty octets of an id.

  `step` reads it octet by octet.  The run ends between two entries exactly on the trees
  (`run_eq_ok`), so the entries are those of the tree and of no other; the parsers of the
  program are held to it.
-/
import Kompjutr.Lib.Transducer

namespace Kompjutr.Objects

open List (append_cons append_nil length_append length_cons length_nil length_singleton
  not_mem_nil)

/-- An entry as it stands in a tree object. -/
structure RawEntry where
  mode : List UInt8
  name : List UInt8
  oid : List UInt8
  deriving DecidableEq

namespace RawTree

open Transducer (run run_append run_append_silent run_of_ok run_of_error run_of_silent)

def bytes (entry : RawEntry) : List UInt8 :=
  entry.mode ++ 0x20 :: entry.name ++ 0 :: entry.oid

/-- A mode of at most six octets. -/
structure IsEntry (entry : RawEntry) : Prop where
  mode : 0x20 ∉ entry.mode
  short : entry.mode.length ≤ 6
  name : 0 ∉ entry.name
  oid : entry.oid.length = 20

/-- The octets are those of a tree with the entries. -/
def IsTree (octets : List UInt8) (entries : List RawEntry) : Prop :=
  octets = entries.flatMap bytes ∧ ∀ entry ∈ entries, IsEntry entry

/-- The part of an entry that was read. -/
inductive Part where
  | inMode (mode : List UInt8)
  | inName (mode name : List UInt8)
  | inOid (mode name oid : List UInt8)
  deriving DecidableEq

/-- One octet: the next part, with the entry that it completes.  A seventh octet of a mode is
    refused. -/
def step : Part → UInt8 → Except Unit (Part × List RawEntry)
  | .inMode mode, byte =>
    if byte = 0x20 then .ok (.inName mode [], [])
    else if mode.length ≥ 6 then .error ()
    else .ok (.inMode (mode ++ [byte]), [])
  | .inName mode name, byte =>
    if byte = 0 then .ok (.inOid mode name [], []) else .ok (.inName mode (name ++ [byte]), [])
  | .inOid mode name oid, byte =>
    if oid.length + 1 = 20 then .ok (.inMode [], [{ mode, name, oid := oid ++ [byte] }])
    else .ok (.inOid mode name (oid ++ [byte]), [])

/-- What was read of an entry. -/
def Part.bytes : Part → List UInt8
  | .inMode mode => mode
  | .inName mode name => mode ++ 0x20 :: name
  | .inOid mode name oid => mode ++ 0x20 :: name ++ 0 :: oid

/-- What was read can be the beginning of an entry. -/
def Part.Ok : Part → Prop
  | .inMode mode => 0x20 ∉ mode ∧ mode.length ≤ 6
  | .inName mode name => (0x20 ∉ mode ∧ mode.length ≤ 6) ∧ 0 ∉ name
  | .inOid mode name oid => (0x20 ∉ mode ∧ mode.length ≤ 6) ∧ 0 ∉ name ∧ oid.length < 20

-- What was read

theorem not_mem_snoc {α : Type} {a b : α} {list : List α} (hlist : a ∉ list) (hne : b ≠ a) :
    a ∉ list ++ [b] := by
  rw [List.mem_append, List.mem_singleton, not_or]
  exact ⟨hlist, Ne.symm hne⟩

theorem step_sound {part next : Part} {byte : UInt8} {entries : List RawEntry} (hpart : part.Ok)
    (h : step part byte = .ok (next, entries)) :
    next.Ok ∧ part.bytes ++ [byte] = entries.flatMap bytes ++ next.bytes ∧
      ∀ entry ∈ entries, IsEntry entry := by
  have hnone : ∀ entry ∈ ([] : List RawEntry), IsEntry entry := fun _ hentry => nomatch hentry
  cases part with
  | inMode mode =>
    obtain ⟨hmode, hshort⟩ := hpart
    rw [step] at h
    split at h
    · next hspace =>
      cases h
      subst hspace
      exact ⟨⟨⟨hmode, hshort⟩, not_mem_nil⟩, rfl, hnone⟩
    · next hspace =>
      split at h
      · cases h
      · next hlong =>
        cases h
        refine ⟨⟨not_mem_snoc hmode hspace, ?_⟩, rfl, hnone⟩
        rw [length_append, length_singleton]
        omega
  | inName mode name =>
    obtain ⟨hmode, hname⟩ := hpart
    rw [step] at h
    split at h
    · next hnul =>
      cases h
      subst hnul
      exact ⟨⟨hmode, hname, Nat.zero_lt_succ _⟩, by simp [Part.bytes], hnone⟩
    · next hnul =>
      cases h
      exact ⟨⟨hmode, not_mem_snoc hname hnul⟩, by simp [Part.bytes], hnone⟩
  | inOid mode name oid =>
    obtain ⟨hmode, hname, hoid⟩ := hpart
    have hlength : (oid ++ [byte]).length = oid.length + 1 := by
      rw [length_append, length_singleton]
    rw [step] at h
    split at h
    · next hlast =>
      cases h
      refine ⟨⟨not_mem_nil, Nat.zero_le _⟩, by simp [Part.bytes, bytes], ?_⟩
      intro entry hentry
      rw [List.mem_singleton.1 hentry]
      exact ⟨hmode.1, hmode.2, hname, hlength.trans hlast⟩
    · next hlast =>
      cases h
      exact ⟨⟨hmode, hname, by omega⟩, by simp [Part.bytes], hnone⟩

theorem run_sound {part last : Part} {octets : List UInt8} {entries : List RawEntry}
    (hpart : part.Ok) (h : run step part octets = .ok (last, entries)) :
    last.Ok ∧ part.bytes ++ octets = entries.flatMap bytes ++ last.bytes ∧
      ∀ entry ∈ entries, IsEntry entry := by
  induction octets generalizing part entries with
  | nil =>
    cases h
    exact ⟨hpart, append_nil _, fun _ hentry => nomatch hentry⟩
  | cons byte rest ih =>
    cases hstep : step part byte with
    | error error =>
      rw [run_of_error rest hstep] at h
      cases h
    | ok next =>
      rw [run_of_ok rest hstep] at h
      cases hrun : run step next.1 rest with
      | error error =>
        rw [hrun] at h
        cases h
      | ok more =>
        rw [hrun] at h
        cases h
        obtain ⟨hnext, hfirst, hentries⟩ := step_sound hpart hstep
        obtain ⟨hlast, hmore, hrest⟩ := ih hnext hrun
        refine ⟨hlast, ?_, ?_⟩
        · rw [append_cons, hfirst, List.append_assoc, hmore, List.flatMap_append,
            List.append_assoc]
        · exact fun entry hentry => (List.mem_append.1 hentry).elim (hentries entry) (hrest entry)

-- Reading a tree

theorem run_mode (mode more : List UInt8) (hmore : 0x20 ∉ more)
    (hshort : mode.length + more.length ≤ 6) :
    run step (.inMode mode) more = .ok (.inMode (mode ++ more), []) := by
  induction more generalizing mode with
  | nil => rw [append_nil, Transducer.run_nil]
  | cons byte more ih =>
    rw [List.mem_cons, not_or] at hmore
    rw [length_cons] at hshort
    have hstep : step (.inMode mode) byte = .ok (.inMode (mode ++ [byte]), []) := by
      rw [step, if_neg (Ne.symm hmore.1), if_neg (by omega)]
    rw [run_of_silent more hstep, ih (mode ++ [byte]) hmore.2
      (by rw [length_append, length_singleton]; omega), ← append_cons]

theorem run_name (mode name more : List UInt8) (hmore : 0 ∉ more) :
    run step (.inName mode name) more = .ok (.inName mode (name ++ more), []) := by
  induction more generalizing name with
  | nil => rw [append_nil, Transducer.run_nil]
  | cons byte more ih =>
    rw [List.mem_cons, not_or] at hmore
    have hstep : step (.inName mode name) byte = .ok (.inName mode (name ++ [byte]), []) := by
      rw [step, if_neg (Ne.symm hmore.1)]
    rw [run_of_silent more hstep, ih (name ++ [byte]) hmore.2, ← append_cons]

theorem run_oid (mode name oid more : List UInt8) (hne : more ≠ [])
    (hlength : oid.length + more.length = 20) :
    run step (.inOid mode name oid) more =
      .ok (.inMode [], [{ mode, name, oid := oid ++ more }]) := by
  induction more generalizing oid with
  | nil => exact absurd rfl hne
  | cons byte more ih =>
    rw [length_cons] at hlength
    by_cases hlast : oid.length + 1 = 20
    · have hnil : more = [] := List.eq_nil_of_length_eq_zero (by omega)
      subst hnil
      have hstep : step (.inOid mode name oid) byte =
          .ok (.inMode [], [{ mode, name, oid := oid ++ [byte] }]) := if_pos hlast
      rw [run_of_ok [] hstep]
      rfl
    · have hmore : more ≠ [] := by
        rintro rfl
        rw [length_nil] at hlength
        omega
      have hstep : step (.inOid mode name oid) byte =
          .ok (.inOid mode name (oid ++ [byte]), []) := by
        rw [step, if_neg hlast]
      rw [run_of_silent more hstep, ih (oid ++ [byte]) hmore
        (by rw [length_append, length_singleton]; omega), ← append_cons]

/-- The beginning of an id. -/
theorem run_oid_part (mode name oid more : List UInt8) (hlength : oid.length + more.length < 20) :
    run step (.inOid mode name oid) more = .ok (.inOid mode name (oid ++ more), []) := by
  induction more generalizing oid with
  | nil => rw [append_nil, Transducer.run_nil]
  | cons byte more ih =>
    rw [length_cons] at hlength
    have hstep : step (.inOid mode name oid) byte =
        .ok (.inOid mode name (oid ++ [byte]), []) := by
      rw [step, if_neg (by omega)]
    rw [run_of_silent more hstep, ih (oid ++ [byte])
      (by rw [length_append, length_singleton]; omega), ← append_cons]

theorem run_bytes {entry : RawEntry} (h : IsEntry entry) :
    run step (.inMode []) (bytes entry) = .ok (.inMode [], [entry]) := by
  have hoid : entry.oid ≠ [] := List.ne_nil_of_length_pos (by rw [h.oid]; decide)
  have hmode := run_mode [] entry.mode h.mode (by rw [length_nil]; have := h.short; omega)
  have hname := run_name entry.mode [] entry.name h.name
  have hlast := run_oid entry.mode entry.name [] entry.oid hoid
    (by rw [length_nil, Nat.zero_add, h.oid])
  have hspace : step (.inMode entry.mode) 0x20 = .ok (.inName entry.mode [], []) := rfl
  have hnul : step (.inName entry.mode entry.name) 0 =
      .ok (.inOid entry.mode entry.name [], []) := rfl
  rw [List.nil_append] at hmode hname hlast
  rw [bytes, List.append_assoc, run_append_silent _ hmode, List.cons_append,
    run_of_silent _ hspace, run_append_silent _ hname, run_of_silent _ hnul, hlast]

theorem run_flatMap {entries : List RawEntry} (h : ∀ entry ∈ entries, IsEntry entry) :
    run step (.inMode []) (entries.flatMap bytes) = .ok (.inMode [], entries) := by
  induction entries with
  | nil => rfl
  | cons entry entries ih =>
    rw [List.forall_mem_cons] at h
    rw [List.flatMap_cons, run_append, run_bytes h.1]
    show Except.map _ (run step _ _) = _
    rw [ih h.2]
    rfl

/-- The reader ends between two entries exactly on the trees. -/
theorem run_eq_ok {octets : List UInt8} {entries : List RawEntry} :
    run step (.inMode []) octets = .ok (.inMode [], entries) ↔ IsTree octets entries := by
  constructor
  · intro h
    have hstart : (Part.inMode []).Ok := ⟨not_mem_nil, Nat.zero_le _⟩
    obtain ⟨-, hbytes, hentries⟩ := run_sound hstart h
    exact ⟨hbytes.trans (append_nil _), hentries⟩
  · rintro ⟨rfl, hentries⟩
    exact run_flatMap hentries

end RawTree

end Kompjutr.Objects
