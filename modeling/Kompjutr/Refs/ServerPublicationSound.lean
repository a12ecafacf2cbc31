/-
  Kompjutr.Refs.ServerPublicationSound

  What a push leaves: exactly its accepted commands are applied, to refs that had the
  values the commands expected, no name becomes the directory of another, and no
  checkout moves.
-/
import Kompjutr.Refs.NamePaths
import Kompjutr.Refs.TableSound
import Kompjutr.Refs.ServerPublication

namespace Kompjutr.Refs

open Objects (Text text)
open Paths (gitAncestors isNestedPath mem_gitAncestors isNestedPath_append)
open Fuel
open List (any_eq_true cons_append contains_iff_mem foldl_cons mem_cons mem_cons_of_mem
  mem_cons_self mem_filter nil_append)
open Option (elim_some map_some)

variable {raw : Option Text} {names deletes : List Text} {command : ReceivePackCommand}
  {root destination : Text} {entries checked : List ResolvedCommand} {rows : List RefRow}
  {before : RefTables} {commands : List ReceivePackCommand}

variable {tables after : RefTables} {name : Text} {entry : ResolvedCommand}
  {attached refused : List Text} {resolved : List ResolvedCommand} {index : Nat} {plan : ServerPlan}

-- Resolution

/-- The value found is the raw value of the last name looked up. -/
theorem resolveHops_ok {lookup : Text → Except GitError (Option Text)} {hops : Nat}
    {seen : List Text} {value : Option Text}
    (h : resolveHops lookup hops seen raw = .ok (value, names)) :
    (∀ name ∈ names, ∃ found, lookup name = .ok found) ∧
      ∀ oid, value = some oid →
        (names.getLast?.elim raw fun name => (lookup name).toOption.join) = some oid := by
  induction hops generalizing seen raw names with
  | zero =>
    cases h
    exact ⟨nofun, fun _ h => (nomatch h)⟩
  | succ hops ih =>
    cases raw with
    | none =>
      cases h
      exact ⟨nofun, fun _ h => (nomatch h)⟩
    | some raw =>
      rw [resolveHops] at h
      split at h
      · cases h
        exact ⟨nofun, fun _ h => h⟩
      · split at h
        · cases h
        · next target _ =>
          split at h
          · cases h
            exact ⟨nofun, fun _ h => (nomatch h)⟩
          · obtain ⟨found, hfound, h⟩ := bind_eq_ok.1 h
            obtain ⟨⟨oid, rest⟩, hrest, h⟩ := bind_eq_ok.1 h
            cases h
            obtain ⟨hnames, hvalue⟩ := ih hrest
            refine ⟨fun name hname => ?_, fun oid hoid => ?_⟩
            · rcases mem_cons.1 hname with rfl | hname
              · exact ⟨found, hfound⟩
              · exact hnames name hname
            · -- the last name is the target itself when nothing is looked up after it
              have hlast := hvalue oid hoid
              rw [List.getLast?_cons]
              cases hrest : rest.getLast? with
              | none =>
                rw [hrest] at hlast
                rw [Option.elim_none] at hlast
                rw [Option.getD_none, elim_some, hfound, hlast]
                rfl
              | some name =>
                rw [hrest] at hlast
                exact hlast

theorem getRef_ok
    (h : getRef tables name = .ok raw) : IsRefName name ∧ raw = tables.refs.lookup name := by
  unfold getRef at h
  obtain ⟨checked, hchecked, hraw⟩ := bind_eq_ok.1 h
  obtain ⟨heq, hvalid⟩ := requireRefName_ok hchecked
  rw [heq] at hraw
  exact ⟨hvalid, (Except.ok.inj hraw).symm⟩

/-- A command and the ref it reaches. -/
structure Reaches (tables : RefTables) (command : ReceivePackCommand) (entry : ResolvedCommand) :
    Prop where
  command : entry.command = command
  valid : IsRefName entry.destination
  error : entry.error = resolutionError tables entry.destination entry.current
  current : ∀ oid, entry.current = some oid → tables.refs.lookup entry.destination = some oid

theorem resolveCommand_ok (h : resolveCommand tables command = .ok entry) :
    Reaches tables command entry := by
  unfold resolveCommand at h
  obtain ⟨raw, hraw, h⟩ := bind_eq_ok.1 h
  obtain ⟨⟨current, names⟩, hresolved, h⟩ := bind_eq_ok.1 h
  cases h
  obtain ⟨hvalid, hlookup⟩ := getRef_ok hraw
  obtain ⟨hnames, hcurrent⟩ := resolveHops_ok hresolved
  refine ⟨rfl, ?_, rfl, fun oid hoid => ?_⟩
  · cases hlast : names.getLast? with
    | none => exact hvalid
    | some name =>
      obtain ⟨found, hfound⟩ := hnames name (List.mem_of_getLast? hlast)
      exact (getRef_ok hfound).1
  · have hvalue := hcurrent oid hoid
    cases hlast : names.getLast? with
    | none =>
      rw [hlast] at hvalue
      exact hlookup.symm.trans hvalue
    | some name =>
      obtain ⟨found, hfound⟩ := hnames name (List.mem_of_getLast? hlast)
      rw [hlast, elim_some, hfound] at hvalue
      exact (getRef_ok hfound).2.symm.trans hvalue

/-- Without an error, the current value is the value of the destination. -/
theorem Reaches.lookup (h : Reaches tables command entry) (herror : entry.error = none) :
    tables.refs.lookup entry.destination = entry.current := by
  cases hcurrent : entry.current with
  | some oid => exact h.current oid hcurrent
  | none =>
    have hnone := h.error.symm.trans herror
    unfold resolutionError at hnone
    by_contra hne
    rw [hcurrent, if_pos (by simp [hne])] at hnone
    cases hnone

-- Entries

theorem aliasEntry_eq (resolved : List ResolvedCommand) (index : Nat) (entry : ResolvedCommand) :
    ∃ error, aliasEntry resolved index entry = { entry with error } ∧
      (error = none → entry.error = none) := by
  unfold aliasEntry
  dsimp only
  split
  · split
    · exact ⟨_, rfl, fun h => (nomatch h)⟩
    · exact ⟨_, rfl, fun h => h⟩
  · split
    · exact ⟨_, rfl, fun h => (nomatch h)⟩
    · exact ⟨_, rfl, fun h => h⟩

theorem checkEntry_error : (checkEntry attached entry).error = none ↔ entry.error = none ∧
      entry.current = expectedValue entry.command.oldOid ∧ entry.destination ∉ attached := by
  unfold checkEntry
  split
  · next herror => exact ⟨fun h => absurd h herror, fun h => absurd h.1 herror⟩
  · next herror =>
    split
    · next hstale => exact ⟨fun h => (nomatch h), fun h => absurd h.2.1 hstale⟩
    · next hstale =>
      split
      · next hattached =>
        exact ⟨fun h => (nomatch h), fun h => absurd (contains_iff_mem.1 hattached) h.2.2⟩
      · next hattached =>
        exact ⟨fun h => ⟨h, not_not.1 hstale, fun hmem => hattached (contains_iff_mem.2 hmem)⟩,
          fun h => h.1⟩

theorem checkEntry_eq (attached : List Text) (entry : ResolvedCommand) :
    ∃ error, checkEntry attached entry = { entry with error } := by
  unfold checkEntry
  split
  · exact ⟨_, rfl⟩
  · split
    · exact ⟨_, rfl⟩
    · split
      · exact ⟨_, rfl⟩
      · exact ⟨_, rfl⟩

theorem refuseEntry_error : (refuseEntry refused entry).error = none ↔
      entry.error = none ∧ entry.destination ∉ refused := by
  unfold refuseEntry
  split
  · next hrefused =>
    rw [Bool.and_eq_true, contains_iff_mem] at hrefused
    exact ⟨fun h => (nomatch h), fun h => absurd hrefused.2 h.2⟩
  · next hrefused =>
    rw [Bool.and_eq_true, contains_iff_mem, decide_eq_true_eq] at hrefused
    exact ⟨fun h => ⟨h, fun hmem => hrefused ⟨h, hmem⟩⟩, fun h => h.1⟩

theorem refuseEntry_eq (refused : List Text) (entry : ResolvedCommand) :
    ∃ error, refuseEntry refused entry = { entry with error } := by
  unfold refuseEntry
  split
  · exact ⟨_, rfl⟩
  · exact ⟨_, rfl⟩

/-- The entries after the first two stages. -/
def checkedEntries (resolved : List ResolvedCommand) (attached : List Text) : List ResolvedCommand :=
  (aliasedGroups resolved).map (checkEntry attached)

/-- An entry of the first stages: where it comes from and when it is without an error. -/
theorem getElem?_checkedEntries (h : (checkedEntries resolved attached)[index]? = some entry) :
    ∃ source error, resolved[index]? = some source ∧ entry = { source with error } ∧
      (entry.error = none ↔ (aliasEntry resolved index source).error = none ∧
        source.current = expectedValue source.command.oldOid ∧ source.destination ∉ attached) := by
  unfold checkedEntries aliasedGroups at h
  rw [List.getElem?_map, List.getElem?_mapIdx] at h
  cases hsource : resolved[index]? with
  | none =>
    rw [hsource] at h
    cases h
  | some source =>
    rw [hsource, map_some, map_some] at h
    cases h
    obtain ⟨error, halias, -⟩ := aliasEntry_eq resolved index source
    obtain ⟨error', hcheck⟩ := checkEntry_eq attached (aliasEntry resolved index source)
    refine ⟨source, error', rfl, by rw [hcheck, halias], ?_⟩
    rw [checkEntry_error, halias]

-- Aliases

/-- The commands that reach one ref. -/
def groupOf (resolved : List ResolvedCommand) (destination : Text) : List ResolvedCommand :=
  resolved.filter (·.destination = destination)

theorem mem_groupOf
    (h : resolved[index]? = some entry) : entry ∈ groupOf resolved entry.destination :=
  mem_filter.2 ⟨List.mem_of_getElem? h, decide_eq_true rfl⟩

/-- With a direct command, an entry stays when the whole group asks for the same. -/
theorem aliasEntry_direct
    {direct : ResolvedCommand} (h : directOf (groupOf resolved entry.destination) = some direct) :
    (aliasEntry resolved index entry).error = none ↔ entry.error = none ∧
      ∀ other ∈ groupOf resolved entry.destination,
        other.command.oldOid = direct.command.oldOid ∧
          other.command.newOid = direct.command.newOid := by
  unfold groupOf at h ⊢
  unfold aliasEntry
  dsimp only
  rw [h]
  dsimp only
  split
  · next hdiffer =>
    obtain ⟨other, hother, hne⟩ := any_eq_true.1 hdiffer
    rw [Bool.or_eq_true, decide_eq_true_eq, decide_eq_true_eq] at hne
    refine ⟨fun h => (nomatch h), fun hagree => ?_⟩
    obtain ⟨hold, hnew⟩ := hagree.2 other hother
    exact hne.elim (fun h => absurd hold h) (fun h => absurd hnew h)
  · next hsame =>
    refine ⟨fun herror => ⟨herror, fun other hother => ?_⟩, fun h => h.1⟩
    constructor
    · by_contra hne
      exact hsame (any_eq_true.2 ⟨other, hother, by simp [hne]⟩)
    · by_contra hne
      exact hsame (any_eq_true.2 ⟨other, hother, by simp [hne]⟩)

/-- Without a direct command, only the first entry of a group stays. -/
theorem aliasEntry_indirect (h : directOf (groupOf resolved entry.destination) = none) :
    (aliasEntry resolved index entry).error = none ↔ entry.error = none ∧
      ∀ i other, i < index → resolved[i]? = some other →
        other.destination ≠ entry.destination := by
  unfold groupOf at h
  unfold aliasEntry
  dsimp only
  rw [h]
  dsimp only
  split
  · next hbefore =>
    obtain ⟨other, hother, heq⟩ := any_eq_true.1 hbefore
    obtain ⟨i, hi⟩ := List.mem_iff_getElem?.1 hother
    rw [List.getElem?_take] at hi
    split at hi
    · next hlt =>
      exact ⟨fun h => (nomatch h), fun h => absurd (of_decide_eq_true heq) (h.2 i other hlt hi)⟩
    · cases hi
  · next hfirst =>
    refine ⟨fun herror => ⟨herror, fun i other hi hother heq => hfirst ?_⟩, fun h => h.1⟩
    refine any_eq_true.2 ⟨other, List.mem_iff_getElem?.2 ⟨i, ?_⟩, decide_eq_true heq⟩
    rw [List.getElem?_take, if_pos hi]
    exact hother

/-- Two entries of one group that both stay ask for the same. -/
theorem aliasEntry_agree {resolved : List ResolvedCommand} {i j : Nat}
    {first second : ResolvedCommand} (hi : resolved[i]? = some first)
    (hj : resolved[j]? = some second) (hsame : first.destination = second.destination)
    (hfirst : (aliasEntry resolved i first).error = none)
    (hsecond : (aliasEntry resolved j second).error = none) :
    first.command.oldOid = second.command.oldOid ∧
      first.command.newOid = second.command.newOid := by
  cases hdirect : directOf (groupOf resolved first.destination) with
  | some direct =>
    obtain ⟨-, hagree⟩ := (aliasEntry_direct hdirect).1 hfirst
    obtain ⟨hold, hnew⟩ := hagree first (mem_groupOf hi)
    obtain ⟨hold', hnew'⟩ := hagree second (hsame ▸ mem_groupOf hj)
    exact ⟨hold.trans hold'.symm, hnew.trans hnew'.symm⟩
  | none =>
    obtain ⟨-, hbefore⟩ := (aliasEntry_indirect hdirect).1 hfirst
    rw [hsame] at hdirect
    obtain ⟨-, hbefore'⟩ := (aliasEntry_indirect hdirect).1 hsecond
    -- neither comes before the other, so they are one entry
    rcases Nat.lt_trichotomy i j with hlt | heq | hgt
    · exact absurd hsame (hbefore' i first hlt hi)
    · subst heq
      obtain rfl := Option.some.inj (hi.symm.trans hj)
      exact ⟨rfl, rfl⟩
    · exact absurd hsame.symm (hbefore j second hgt hj)

-- Directories

/-- One name is a directory of the other. -/
def Inside (root path : Text) : Prop := ∃ rest, path = root ++ 0x2f :: rest

/-- No name is the directory of another. -/
def ConflictFree (refs : RefMap) : Prop := ∀ root ∈ refs, ∀ path ∈ refs, ¬ Inside root path

theorem comparePoints_append_gt (front rest : List Nat) (first next : Nat) :
    comparePoints (front ++ first :: next :: rest) (front ++ [first]) = .gt := by
  induction front with
  | nil => rw [nil_append, nil_append, comparePoints, if_pos rfl, comparePoints]
  | cons point front ih => rw [cons_append, cons_append, comparePoints, if_pos rfl, ih]

theorem comparePoints_append_lt (front rest rest' : List Nat) {first first' : Nat}
    (h : first < first') : comparePoints (front ++ first :: rest) (front ++ first' :: rest') = .lt := by
  induction front with
  | nil => rw [nil_append, nil_append, comparePoints, if_neg (by omega), if_pos h]
  | cons point front ih => rw [cons_append, cons_append, comparePoints, if_pos rfl, ih]

theorem IsRefName.path (h : IsRefName name) : Paths.Canonical name :=
  canonical_of_refSyntax h.canonical

theorem IsRefName.rest_ne_nil {rest : Text} (h : IsRefName (root ++ 0x2f :: rest)) : rest ≠ [] := by
  rintro rfl
  refine (h.path [] ?_).1 rfl
  rw [List.splitOn_append_cons_self]
  exact List.mem_append_right _ mem_cons_self

/-- The range of the query holds what lies inside a name. -/
theorem comparePaths_inside {root rest : Text} (h : rest ≠ []) :
    comparePaths (root ++ 0x2f :: rest) (root ++ [0x2f]) = .gt ∧
      comparePaths (root ++ 0x2f :: rest) (root ++ [0x30]) = .lt := by
  have hslash : ¬ (Utf8.isHigh 0x2f || Utf8.isLow 0x2f) = true := by decide
  have hzero : ¬ (Utf8.isHigh 0x30 || Utf8.isLow 0x30) = true := by decide
  have hpoints : Utf8.points rest ≠ [] := by
    intro hnil
    have hlength := Utf8.length_toWellFormed rest
    rw [Utf8.toWellFormed, hnil] at hlength
    exact h (List.length_eq_zero_iff.1 hlength.symm)
  obtain ⟨next, points, hnext⟩ := List.exists_cons_of_ne_nil hpoints
  unfold comparePaths
  rw [Utf8.points_cut root rest hslash, Utf8.points_cut root [] hslash,
    Utf8.points_cut root [] hzero, hnext]
  exact ⟨comparePoints_append_gt _ _ _ _, comparePoints_append_lt _ _ _ (by decide)⟩

theorem isNestedPath_of_inside {path : Text} (hroot : IsRefName root) (hpath : IsRefName path)
    (h : Inside root path) : isNestedPath root path = true := by
  obtain ⟨rest, rfl⟩ := h
  exact isNestedPath_append hroot.path hpath.path

/-- A name without a conflict lies apart from what is stored and from what was accepted. -/
theorem namespaceConflict_false {accepted : List RefRow} (hname : IsRefName name)
    (hvalid : tables.Valid)
    (h : namespaceConflict tables name accepted deletes = false) :
    (∀ stored ∈ tables.refs, stored ∉ deletes → ¬ Inside stored name ∧ ¬ Inside name stored) ∧
      ∀ put ∈ accepted, isNestedPath put.name name = false ∧ isNestedPath name put.name = false := by
  unfold namespaceConflict at h
  rw [Bool.or_eq_false_iff, Bool.or_eq_false_iff] at h
  obtain ⟨⟨hancestors, hrange⟩, haccepted⟩ := h
  refine ⟨fun stored hstored hkept => ⟨?_, ?_⟩, fun put hput => ?_⟩
  · rintro ⟨rest, rfl⟩
    have hone := List.any_eq_false.1 hancestors stored (AList.mem_keys.1 hstored)
    refine hone ?_
    rw [Bool.and_eq_true, contains_iff_mem]
    refine ⟨mem_gitAncestors (hvalid.names stored hstored).ne_nil, ?_⟩
    simp [hkept]
  · rintro ⟨rest, rfl⟩
    obtain ⟨hgt, hlt⟩ :=
      @comparePaths_inside name rest (hvalid.names _ hstored).rest_ne_nil
    refine List.any_eq_false.1 hrange _ (AList.mem_keys.1 hstored) ?_
    simp [hgt, hlt, hkept]
  · have hone := List.any_eq_false.1 haccepted put hput
    rw [Bool.not_eq_true, Bool.or_eq_false_iff] at hone
    exact hone

-- Groups

/-- The rows to put and the refused destinations, after the groups of `done`. -/
structure Grouped (tables : RefTables) (entries : List ResolvedCommand) (deletes : List Text)
    (done : List Text) (state : List RefRow × List Text) : Prop where
  settled : ∀ destination ∈ done, ∀ accepted, acceptedOf entries destination = some accepted →
    accepted.command.newOid ≠ zeroOid →
      destination ∈ state.2 ∨ ⟨destination, accepted.command.newOid⟩ ∈ state.1
  puts : ∀ row ∈ state.1, row.name ∈ done ∧ row.name ∉ state.2 ∧
    ∃ accepted, acceptedOf entries row.name = some accepted ∧
      accepted.command.newOid ≠ zeroOid ∧ row.target = accepted.command.newOid
  refused : ∀ destination ∈ state.2, destination ∈ done ∧
    ∃ accepted, acceptedOf entries destination = some accepted ∧ accepted.command.newOid ≠ zeroOid
  apartStored : ∀ row ∈ state.1, ∀ stored ∈ tables.refs, stored ∉ deletes →
    ¬ Inside stored row.name ∧ ¬ Inside row.name stored
  apart : state.1.Pairwise fun row row' =>
    isNestedPath row.name row'.name = false ∧ isNestedPath row'.name row.name = false

theorem acceptedOf_some
    {accepted : ResolvedCommand} (h : acceptedOf entries destination = some accepted) :
    accepted ∈ entries ∧ accepted.destination = destination ∧ accepted.error = none := by
  have hfound := List.find?_some h
  rw [Bool.and_eq_true, decide_eq_true_eq, decide_eq_true_eq] at hfound
  exact ⟨List.mem_of_find?_eq_some h, hfound⟩

theorem publishGroup_grouped {done : List Text} {state : List RefRow × List Text}
    (hvalid : tables.Valid) (hentries : ∀ entry ∈ entries, IsRefName entry.destination)
    (hnew : destination ∉ done) (h : Grouped tables entries deletes done state) :
    Grouped tables entries deletes (destination :: done)
      (publishGroup tables entries deletes state destination) := by
  have hold : ∀ row ∈ state.1, row.name ≠ destination := by
    rintro row hrow rfl
    exact hnew (h.puts row hrow).1
  unfold publishGroup
  cases haccepted : acceptedOf entries destination with
  | none =>
    -- nothing to put: only `done` grows
    refine ⟨fun d hd accepted ha hne => ?_, fun row hrow => ?_, fun d hd => ?_, h.apartStored,
      h.apart⟩
    · rcases mem_cons.1 hd with rfl | hd
      · rw [haccepted] at ha
        cases ha
      · exact h.settled d hd accepted ha hne
    · exact ⟨mem_cons_of_mem _ (h.puts row hrow).1, (h.puts row hrow).2⟩
    · exact ⟨mem_cons_of_mem _ (h.refused d hd).1, (h.refused d hd).2⟩
  | some accepted =>
    dsimp only
    split
    · next hzero =>
      refine ⟨fun d hd other ha hne => ?_, fun row hrow => ?_, fun d hd => ?_, h.apartStored,
        h.apart⟩
      · rcases mem_cons.1 hd with rfl | hd
        · rw [haccepted] at ha
          exact absurd (Option.some.inj ha ▸ hzero) hne
        · exact h.settled d hd other ha hne
      · exact ⟨mem_cons_of_mem _ (h.puts row hrow).1, (h.puts row hrow).2⟩
      · exact ⟨mem_cons_of_mem _ (h.refused d hd).1, (h.refused d hd).2⟩
    · next hzero =>
      split
      · -- a conflict: the destination is refused
        refine ⟨fun d hd other ha hne => ?_, fun row hrow => ?_, fun d hd => ?_, h.apartStored,
          h.apart⟩
        · rcases mem_cons.1 hd with rfl | hd
          · exact .inl mem_cons_self
          · exact (h.settled d hd other ha hne).imp (mem_cons_of_mem _) fun h => h
        · obtain ⟨hdone, hkept, hrest⟩ := h.puts row hrow
          exact ⟨mem_cons_of_mem _ hdone,
            fun hmem => (mem_cons.1 hmem).elim (hold row hrow) hkept, hrest⟩
        · rcases mem_cons.1 hd with rfl | hd
          · exact ⟨mem_cons_self, accepted, haccepted, hzero⟩
          · exact ⟨mem_cons_of_mem _ (h.refused d hd).1, (h.refused d hd).2⟩
      · next hconflict =>
        obtain ⟨hmem, hdestination, -⟩ := acceptedOf_some haccepted
        have hname : IsRefName destination := hdestination ▸ hentries accepted hmem
        obtain ⟨hstored, hputs⟩ :=
          namespaceConflict_false hname hvalid (Bool.eq_false_iff.2 hconflict)
        refine ⟨fun d hd other ha hne => ?_, fun row hrow => ?_, fun d hd => ?_, ?_, ?_⟩
        · rcases mem_cons.1 hd with rfl | hd
          · rw [haccepted] at ha
            cases ha
            exact .inr (List.mem_append_right _ mem_cons_self)
          · exact (h.settled d hd other ha hne).imp (fun h => h) (List.mem_append_left _)
        · rcases List.mem_append.1 hrow with hrow | hrow
          · exact ⟨mem_cons_of_mem _ (h.puts row hrow).1, (h.puts row hrow).2⟩
          · rw [List.mem_singleton.1 hrow]
            exact ⟨mem_cons_self, fun hmem => hnew (h.refused _ hmem).1, accepted, haccepted,
              hzero, rfl⟩
        · exact ⟨mem_cons_of_mem _ (h.refused d hd).1, (h.refused d hd).2⟩
        · exact List.forall_mem_append.2 ⟨h.apartStored, List.forall_mem_singleton.2 hstored⟩
        · rw [List.pairwise_append]
          refine ⟨h.apart, List.pairwise_singleton _ _, fun row hrow row' hrow' => ?_⟩
          rw [List.mem_singleton.1 hrow']
          exact hputs row hrow

theorem foldl_publishGroup {tables : RefTables} {entries : List ResolvedCommand}
    {deletes done groups : List Text} {state : List RefRow × List Text} (hvalid : tables.Valid)
    (hentries : ∀ entry ∈ entries, IsRefName entry.destination) (hnodup : groups.Nodup)
    (hnew : ∀ destination ∈ groups, destination ∉ done)
    (h : Grouped tables entries deletes done state) :
    Grouped tables entries deletes (groups.reverse ++ done)
      (groups.foldl (publishGroup tables entries deletes) state) := by
  induction groups generalizing done state with
  | nil => exact h
  | cons destination groups ih =>
    obtain ⟨hfirst, hrest⟩ := List.nodup_cons.1 hnodup
    rw [foldl_cons, List.reverse_cons, List.append_assoc, List.singleton_append]
    refine ih hrest (fun other hother hmem => ?_)
      (publishGroup_grouped hvalid hentries (hnew destination mem_cons_self) h)
    rcases mem_cons.1 hmem with rfl | hmem
    · exact hfirst hother
    · exact hnew other (mem_cons_of_mem _ hother) hmem

-- The plan

theorem nodup_eraseDups (names : List Text) : names.eraseDups.Nodup := by
  induction hlength : names.length using Nat.strong_induction_on generalizing names with
  | _ n ih =>
    cases names with
    | nil => exact List.nodup_nil
    | cons name names =>
      rw [List.eraseDups_cons]
      refine List.nodup_cons.2 ⟨fun hmem => ?_, ih _ ?_ _ rfl⟩
      · have := (mem_filter.1 (List.mem_eraseDups.1 hmem)).2
        simp at this
      · have := List.length_filter_le (fun other => !other == name) names
        rw [List.length_cons] at hlength
        omega

/-- A plan, and the destinations it refused. -/
structure Planned (tables : RefTables) (checked : List ResolvedCommand) (plan : ServerPlan)
    (refused : List Text) : Prop where
  entries : plan.entries = checked.map (refuseEntry refused)
  deletes : ∀ destination, destination ∈ plan.deletes ↔
    ∃ accepted, acceptedOf checked destination = some accepted ∧
      accepted.command.newOid = zeroOid
  grouped : ∃ done, Grouped tables checked plan.deletes done (plan.puts, refused) ∧
    ∀ entry ∈ checked, entry.destination ∈ done

theorem planServerRefs_planned (hvalid : tables.Valid)
    (hentries : ∀ entry ∈ checkedEntries resolved attached, IsRefName entry.destination) :
    ∃ refused, Planned tables (checkedEntries resolved attached)
      (planServerRefs tables resolved attached) refused := by
  have hgroups : ∀ entry ∈ checkedEntries resolved attached, entry.destination ∈
      ((checkedEntries resolved attached).map (·.destination)).eraseDups :=
    fun entry hentry => List.mem_eraseDups.2 (List.mem_map_of_mem hentry)
  have hperm := List.mergeSort_perm
    ((checkedEntries resolved attached).map (·.destination)).eraseDups
    fun left right => decide (comparePaths right left ≠ .gt)
  have hstart : ∀ deletes, Grouped tables (checkedEntries resolved attached) deletes []
      (([], []) : List RefRow × List Text) := fun deletes =>
    ⟨nofun, nofun,
      nofun, nofun, .nil⟩
  have hfold := fun deletes => @foldl_publishGroup tables (checkedEntries resolved attached) deletes []
    _ ([], []) hvalid hentries (hperm.nodup_iff.2 (nodup_eraseDups _))
    (fun _ _ => List.not_mem_nil) (hstart deletes)
  refine ⟨_, rfl, fun destination => ?_, _, hfold _, ?_⟩
  · refine List.mem_filter.trans ⟨fun h => ?_, fun h => ?_⟩
    · obtain ⟨accepted, haccepted, hzero⟩ := (Option.any_eq_true _ _).1 h.2
      exact ⟨accepted, haccepted, of_decide_eq_true hzero⟩
    · obtain ⟨accepted, haccepted, hzero⟩ := h
      obtain ⟨hmem, hdestination, -⟩ := acceptedOf_some haccepted
      refine ⟨hdestination ▸ hgroups accepted hmem, ?_⟩
      show Option.any _ (acceptedOf (checkedEntries resolved attached) destination) = true
      rw [haccepted]
      exact decide_eq_true hzero
  · intro entry hentry
    rw [List.append_nil, List.mem_reverse, hperm.mem_iff]
    exact hgroups entry hentry

-- The refs afterwards

theorem foldl_putRef_of_not_mem (h : ∀ row ∈ rows, row.name ≠ name) (refs : Text → Option Text) :
    rows.foldl putRef refs name = refs name := by
  induction rows generalizing refs with
  | nil => rfl
  | cons row rows ih =>
    rw [foldl_cons, ih fun r hr => h r (mem_cons_of_mem _ hr), putRef,
      Function.update_of_ne (h row mem_cons_self).symm]

theorem foldl_putRef_of_mem {target : Text}
    (hsame : ∀ row ∈ rows, row.name = name → row.target = target)
    (hmem : ∃ row ∈ rows, row.name = name) (refs : Text → Option Text) :
    rows.foldl putRef refs name = some target := by
  induction rows generalizing refs with
  | nil => exact absurd hmem fun ⟨_, h, _⟩ => nomatch h
  | cons row rows ih =>
    rw [foldl_cons]
    by_cases hrest : ∃ r ∈ rows, r.name = name
    · exact ih (fun r hr => hsame r (mem_cons_of_mem _ hr)) hrest _
    · obtain ⟨r, hr, rfl⟩ := hmem
      rcases mem_cons.1 hr with rfl | hr
      · rw [foldl_putRef_of_not_mem (fun r' hr' heq => hrest ⟨r', hr', heq⟩), putRef,
          Function.update_self, hsame r mem_cons_self rfl]
      · exact absurd ⟨r, hr, rfl⟩ hrest

theorem refuseEntry_of_not_mem
    (h : entry.destination ∉ refused) : refuseEntry refused entry = entry := by
  unfold refuseEntry
  refine if_neg fun hboth => h ?_
  rw [Bool.and_eq_true, contains_iff_mem] at hboth
  exact hboth.2

/-- The first accepted entry of a group, unless the group is refused. -/
theorem acceptedOf_refuse (checked : List ResolvedCommand) (refused : List Text) (name : Text) :
    acceptedOf (checked.map (refuseEntry refused)) name =
      if name ∈ refused then none else acceptedOf checked name := by
  have hsame : ∀ entry : ResolvedCommand, (refuseEntry refused entry).destination =
      entry.destination := by
    intro entry
    obtain ⟨error, heq⟩ := refuseEntry_eq refused entry
    rw [heq]
  unfold acceptedOf
  rw [List.find?_map]
  split
  · next hrefused =>
    rw [List.find?_eq_none.2, Option.map_none]
    intro entry _ hfound
    obtain ⟨hname, herror⟩ := Bool.and_eq_true_iff.1 hfound
    obtain rfl := (hsame entry).symm.trans (of_decide_eq_true hname)
    exact (refuseEntry_error.1 (of_decide_eq_true herror)).2 hrefused
  · next hkept =>
    have htest : (fun entry : ResolvedCommand => decide (entry.destination = name) &&
        decide (entry.error = none)) ∘ refuseEntry refused =
        fun entry => decide (entry.destination = name) && decide (entry.error = none) := by
      funext entry
      show (decide ((refuseEntry refused entry).destination = name) &&
        decide ((refuseEntry refused entry).error = none)) = _
      rw [hsame]
      by_cases hname : entry.destination = name
      · rw [refuseEntry_of_not_mem (hname ▸ hkept)]
      · rw [decide_eq_false hname, Bool.false_and, Bool.false_and]
    rw [htest]
    cases hfound : checked.find? fun entry =>
        decide (entry.destination = name) && decide (entry.error = none) with
    | none => rfl
    | some entry =>
      have htrue := List.find?_some hfound
      have hname := of_decide_eq_true (Bool.and_eq_true_iff.1 htrue).1
      rw [map_some, refuseEntry_of_not_mem (hname ▸ hkept)]

/-- The plan applies exactly what it accepted. -/
theorem Planned.applied (h : Planned tables checked plan refused) (refs : Text → Option Text)
    (name : Text) :
    Refs.applied refs
        { puts := plan.puts, deletes := plan.deletes, head := none, expected := none } name =
      (acceptedOf plan.entries name).elim (refs name) fun entry =>
        expectedValue entry.command.newOid := by
  obtain ⟨done, hgrouped, hdone⟩ := h.grouped
  have hunput : (∀ accepted, acceptedOf checked name = some accepted →
      accepted.command.newOid = zeroOid) → ∀ row ∈ plan.puts, row.name ≠ name := by
    rintro hzero row hrow rfl
    obtain ⟨-, -, accepted, haccepted, hne, -⟩ := hgrouped.puts row hrow
    exact hne (hzero accepted haccepted)
  unfold Refs.applied
  rw [h.entries, acceptedOf_refuse]
  dsimp only
  cases haccepted : acceptedOf checked name with
  | none =>
    have hnone : ¬ ∃ accepted, acceptedOf checked name = some accepted ∧
        accepted.command.newOid = zeroOid := by
      rintro ⟨accepted, heq, -⟩
      rw [haccepted] at heq
      cases heq
    rw [foldl_putRef_of_not_mem (hunput fun _ heq => by rw [haccepted] at heq; cases heq),
      foldl_update_none, if_neg fun hmem => hnone ((h.deletes name).1 hmem)]
    split
    · rfl
    · rfl
  | some accepted =>
    by_cases hzero : accepted.command.newOid = zeroOid
    · -- a deletion is never refused
      have hkept : name ∉ refused := by
        intro hmem
        obtain ⟨-, other, hother, hne⟩ := hgrouped.refused name hmem
        rw [haccepted] at hother
        exact hne (Option.some.inj hother ▸ hzero)
      rw [foldl_putRef_of_not_mem (hunput fun _ heq => by
          rw [haccepted] at heq
          exact Option.some.inj heq ▸ hzero), foldl_update_none,
        if_pos ((h.deletes name).2 ⟨accepted, haccepted, hzero⟩), if_neg hkept, elim_some,
        expectedValue, if_pos hzero]
    · have hundeleted : name ∉ plan.deletes := by
        intro hmem
        obtain ⟨other, hother, hother0⟩ := (h.deletes name).1 hmem
        rw [haccepted] at hother
        exact hzero (Option.some.inj hother ▸ hother0)
      obtain ⟨hmem, hdestination, -⟩ := acceptedOf_some haccepted
      rcases hgrouped.settled name (hdestination ▸ hdone accepted hmem) accepted haccepted hzero with
        hrefused | hput
      · rw [foldl_putRef_of_not_mem, foldl_update_none, if_neg hundeleted, if_pos hrefused]
        · rfl
        · rintro row hrow rfl
          exact (hgrouped.puts row hrow).2.1 hrefused
      · have hkept : name ∉ refused := (hgrouped.puts _ hput).2.1
        rw [foldl_putRef_of_mem (fun row hrow heq => ?_) ⟨_, hput, rfl⟩, if_neg hkept,
          elim_some, expectedValue, if_neg hzero]
        obtain ⟨-, -, other, hother, -, htarget⟩ := hgrouped.puts row hrow
        rw [heq, haccepted] at hother
        rw [htarget, Option.some.inj hother]

/-- No directory becomes a ref or the other way round. -/
theorem Planned.conflictFree (h : Planned tables checked plan refused)
    (hentries : ∀ entry ∈ checked, IsRefName entry.destination)
    (hrefs : ∀ name, after.refs.lookup name = (acceptedOf plan.entries name).elim
      (tables.refs.lookup name) fun entry => expectedValue entry.command.newOid)
    (hfree : ConflictFree tables.refs) : ConflictFree after.refs := by
  obtain ⟨done, hgrouped, hdone⟩ := h.grouped
  -- every name that is left was put, or was there and was not deleted
  have hleft : ∀ name ∈ after.refs, (∃ row ∈ plan.puts, row.name = name) ∨
      (name ∈ tables.refs ∧ name ∉ plan.deletes) := by
    intro name hname
    have hsome : after.refs.lookup name ≠ none :=
      Option.isSome_iff_ne_none.1 (AList.lookup_isSome.2 hname)
    rw [hrefs, h.entries, acceptedOf_refuse] at hsome
    have hstored : tables.refs.lookup name ≠ none → name ∈ tables.refs := fun hne =>
      AList.lookup_isSome.1 (Option.isSome_iff_ne_none.2 hne)
    cases haccepted : acceptedOf checked name with
    | none =>
      rw [haccepted, ite_self] at hsome
      refine .inr ⟨hstored hsome, fun hmem => ?_⟩
      obtain ⟨accepted, heq, -⟩ := (h.deletes name).1 hmem
      rw [haccepted] at heq
      cases heq
    | some accepted =>
      have hundeleted : accepted.command.newOid ≠ zeroOid → name ∉ plan.deletes := by
        intro hne hmem
        obtain ⟨other, hother, hzero⟩ := (h.deletes name).1 hmem
        rw [haccepted] at hother
        exact hne (Option.some.inj hother ▸ hzero)
      obtain ⟨hmem, hdestination, -⟩ := acceptedOf_some haccepted
      by_cases hrefused : name ∈ refused
      · rw [if_pos hrefused] at hsome
        obtain ⟨-, other, hother, hne⟩ := hgrouped.refused name hrefused
        rw [haccepted] at hother
        exact .inr ⟨hstored hsome, hundeleted (Option.some.inj hother ▸ hne)⟩
      · rw [if_neg hrefused, haccepted, elim_some, expectedValue] at hsome
        have hne : accepted.command.newOid ≠ zeroOid := fun hzero => hsome (if_pos hzero)
        rcases hgrouped.settled name (hdestination ▸ hdone accepted hmem) accepted haccepted hne with
          h | hput
        · exact absurd h hrefused
        · exact .inl ⟨_, hput, rfl⟩
  have hvalid : ∀ row ∈ plan.puts, IsRefName row.name := by
    intro row hrow
    obtain ⟨-, -, accepted, haccepted, -⟩ := hgrouped.puts row hrow
    obtain ⟨hmem, hdestination, -⟩ := acceptedOf_some haccepted
    exact hdestination ▸ hentries accepted hmem
  intro root hroot path hpath hinside
  rcases hleft root hroot with ⟨row, hrow, rfl⟩ | ⟨hroot, hkept⟩
  · rcases hleft path hpath with ⟨row', hrow', rfl⟩ | ⟨hpath, hkept⟩
    · have hnested := isNestedPath_of_inside (hvalid row hrow) (hvalid row' hrow') hinside
      have hne : row ≠ row' := by
        rintro rfl
        obtain ⟨rest, hrest⟩ := hinside
        have hlength := congrArg List.length hrest
        rw [List.length_append, List.length_cons] at hlength
        omega
      have hsymm : Std.Symm fun row row' : RefRow =>
          isNestedPath row.name row'.name = false ∧ isNestedPath row'.name row.name = false :=
        ⟨fun _ _ h => ⟨h.2, h.1⟩⟩
      rw [(hgrouped.apart.forall hrow hrow' hne).1] at hnested
      cases hnested
    · exact (hgrouped.apartStored row hrow path hpath hkept).2 hinside
  · rcases hleft path hpath with ⟨row', hrow', rfl⟩ | ⟨hpath, -⟩
    · exact (hgrouped.apartStored row' hrow' root hroot hkept).1 hinside
    · exact hfree root hroot path hpath hinside

-- A push

/-- The outcome of a push, with the entry of each command. -/
structure ServerPublished (before : RefTables) (commands : List ReceivePackCommand)
    (after : RefTables) (statuses : List ServerRefStatus) (entries : List ResolvedCommand) :
    Prop where
  /-- One status for each command, in the order of the request. -/
  commands_eq : entries.map (·.command) = commands
  statuses_eq : statuses = entries.map fun entry => ⟨entry.command.ref, entry.error⟩
  reaches : ∀ entry ∈ entries, ∃ error, resolveCommand before entry.command =
    .ok { entry with error }
  /-- An accepted command found its destination at its old value. -/
  found : ∀ entry ∈ entries, entry.error = none →
    before.refs.lookup entry.destination = expectedValue entry.command.oldOid
  /-- Exactly the accepted commands are applied. -/
  refs : ∀ name, after.refs.lookup name = (acceptedOf entries name).elim
    (before.refs.lookup name) fun entry => expectedValue entry.command.newOid
  /-- Nothing that a checkout resolves through moves. -/
  attached : ∀ checkout ∈ before.checkouts, ∀ oid names,
    resolveRawRef (some checkout.head) (getRef before) = .ok (oid, names) →
      ∀ name ∈ names, after.refs.lookup name = before.refs.lookup name
  /-- Accepted commands that reach one ref ask for the same. -/
  agree : ∀ entry ∈ entries, ∀ entry' ∈ entries, entry.destination = entry'.destination →
    entry.error = none → entry'.error = none →
      entry.command.oldOid = entry'.command.oldOid ∧ entry.command.newOid = entry'.command.newOid
  /-- Where a command names the ref itself, all that can be resolved are accepted or none is. -/
  together : ∀ direct ∈ entries, direct.command.ref = direct.destination →
    ∀ entry ∈ entries, ∀ entry' ∈ entries, entry.destination = direct.destination →
      entry'.destination = direct.destination → entry.error = none →
        (∃ source, resolveCommand before entry'.command = .ok source ∧ source.error = none) →
          entry'.error = none
  /-- Otherwise only the first of them can be accepted. -/
  first : ∀ (i j : Nat) (entry entry' : ResolvedCommand), i < j → entries[i]? = some entry →
    entries[j]? = some entry' → entry.destination = entry'.destination →
      (∀ direct ∈ entries, direct.destination = entry.destination →
        direct.command.ref ≠ direct.destination) → entry'.error ≠ none

/-- An entry of the answer: where it comes from and when it is accepted. -/
theorem Planned.getElem?
    (h : Planned tables (checkedEntries resolved attached) plan refused)
    (hentry : plan.entries[index]? = some entry) :
    ∃ source error, resolved[index]? = some source ∧ entry = { source with error } ∧
      (entry.error = none ↔ ((aliasEntry resolved index source).error = none ∧
        source.current = expectedValue source.command.oldOid ∧ source.destination ∉ attached) ∧
        source.destination ∉ refused) := by
  rw [h.entries, List.getElem?_map] at hentry
  obtain ⟨checked, hchecked, rfl⟩ := Option.map_eq_some_iff.1 hentry
  obtain ⟨source, error, hsource, rfl, hiff⟩ := getElem?_checkedEntries hchecked
  obtain ⟨error', heq⟩ := refuseEntry_eq refused { source with error }
  refine ⟨source, error', hsource, by rw [heq], ?_⟩
  rw [refuseEntry_error, hiff]

theorem attachedNames_ok (h : attachedNames tables = .ok attached) {checkout : CheckoutRow}
    (hcheckout : checkout ∈ tables.checkouts) {oid : Option Text}
    (hresolved : resolveRawRef (some checkout.head) (getRef tables) = .ok (oid, names)) :
    ∀ name ∈ names, name ∈ attached := by
  unfold attachedNames at h
  obtain ⟨paths, hpaths, h⟩ := bind_eq_ok.1 h
  cases h
  obtain ⟨found, hmem, hfound⟩ := Forall₂.exists_right (mapM_ok hpaths) hcheckout
  rw [hresolved] at hfound
  cases hfound
  intro name hname
  exact List.mem_flatten.2 ⟨names, hmem, hname⟩

/-- The plan for resolved commands, applied. -/
theorem serverPublished_of_planned
    (hresolved : List.Forall₂ (fun command entry => resolveCommand before command = .ok entry)
      commands resolved)
    (hattached : attachedNames before = .ok attached)
    (hplanned : Planned before (checkedEntries resolved attached) plan refused)
    (hrefs : ∀ name, after.refs.lookup name = (acceptedOf plan.entries name).elim
      (before.refs.lookup name) fun entry => expectedValue entry.command.newOid) :
    ServerPublished before commands after
      (plan.entries.map fun entry => ⟨entry.command.ref, entry.error⟩) plan.entries := by
  have hsources : ∀ source ∈ resolved, resolveCommand before source.command = .ok source := by
    intro source hsource
    obtain ⟨command, -, hcommand⟩ := Forall₂.exists_left hresolved hsource
    rw [(resolveCommand_ok hcommand).command]
    exact hcommand
  -- an entry of the answer, with what is known of its source
  have hentry : ∀ entry ∈ plan.entries, ∃ index source error, resolved[index]? = some source ∧
      entry = { source with error } ∧ resolveCommand before source.command = .ok source ∧
      Reaches before source.command source ∧
      (entry.error = none ↔ ((aliasEntry resolved index source).error = none ∧
        source.current = expectedValue source.command.oldOid ∧ source.destination ∉ attached) ∧
        source.destination ∉ refused) := by
    intro entry hmem
    obtain ⟨index, hindex⟩ := List.mem_iff_getElem?.1 hmem
    obtain ⟨source, error, hsource, heq, hiff⟩ := hplanned.getElem? hindex
    have hrun := hsources source (List.mem_of_getElem? hsource)
    exact ⟨index, source, error, hsource, heq, hrun, resolveCommand_ok hrun, hiff⟩
  have hsource : ∀ (source : ResolvedCommand) index, resolved[index]? = some source →
      (aliasEntry resolved index source).error = none → source.error = none := by
    intro source index _ herror
    obtain ⟨error, heq, himp⟩ := aliasEntry_eq resolved index source
    rw [heq] at herror
    exact himp herror
  refine
    { commands_eq := ?_, statuses_eq := rfl, reaches := ?_, found := ?_, refs := hrefs
      attached := ?_, agree := ?_, together := ?_, first := ?_ }
  · have hmap : resolved.map (·.command) = commands := by
      have := Forall₂.map_eq (f := fun command : ReceivePackCommand => command)
        (g := fun entry : ResolvedCommand => entry.command) hresolved
        fun command entry h => (resolveCommand_ok h).command
      rw [this, List.map_id']
    rw [← hmap]
    apply List.ext_getElem?
    intro index
    rw [List.getElem?_map, List.getElem?_map]
    cases hindex : plan.entries[index]? with
    | some entry =>
      obtain ⟨source, error, hsource, heq, -⟩ := hplanned.getElem? hindex
      rw [hsource, heq]
      rfl
    | none =>
      have hlength : plan.entries.length = resolved.length := by
        rw [hplanned.entries, checkedEntries, aliasedGroups]
        simp
      rw [List.getElem?_eq_none_iff, hlength] at hindex
      rw [List.getElem?_eq_none hindex]
  · intro entry hmem
    obtain ⟨index, source, error, -, rfl, hrun, -⟩ := hentry entry hmem
    exact ⟨source.error, hrun⟩
  · intro entry hmem herror
    obtain ⟨index, source, error, hindex, rfl, -, hreaches, hiff⟩ := hentry entry hmem
    obtain ⟨⟨halias, hcurrent, -⟩, -⟩ := hiff.1 herror
    rw [← hcurrent]
    exact hreaches.lookup (hsource source index hindex halias)
  · intro checkout hcheckout oid names hpath name hname
    have hmem := attachedNames_ok hattached hcheckout hpath name hname
    rw [hrefs]
    cases haccepted : acceptedOf plan.entries name with
    | none => rfl
    | some accepted =>
      obtain ⟨hin, rfl, herror⟩ := acceptedOf_some haccepted
      obtain ⟨index, source, error, -, rfl, -, -, hiff⟩ := hentry accepted hin
      exact absurd hmem (hiff.1 herror).1.2.2
  · intro entry hmem entry' hmem' hsame herror herror'
    obtain ⟨i, source, error, hi, rfl, -, -, hiff⟩ := hentry entry hmem
    obtain ⟨j, source', error', hj, rfl, -, -, hiff'⟩ := hentry entry' hmem'
    exact @aliasEntry_agree resolved i j source source' hi hj hsame (hiff.1 herror).1.1
      (hiff'.1 herror').1.1
  · intro direct hdirect hself entry hmem entry' hmem' hdestination hdestination' herror hresolves
    obtain ⟨k, source'', error'', hk, rfl, -, -, -⟩ := hentry direct hdirect
    obtain ⟨i, source, error, hi, rfl, -, hreaches, hiff⟩ := hentry entry hmem
    obtain ⟨j, source', error', hj, rfl, hrun', hreaches', hiff'⟩ := hentry entry' hmem'
    obtain ⟨⟨halias, hcurrent, hfree⟩, hkept⟩ := hiff.1 herror
    obtain ⟨found, hfound, hfoundError⟩ := hresolves
    have hnone : source'.error = none := by
      obtain rfl := Except.ok.inj (hrun'.symm.trans hfound)
      exact hfoundError
    -- the group has a direct command, so its members stand or fall together
    have hgroup : source''∈ groupOf resolved source.destination := by
      have := mem_groupOf hk
      rw [← show source.destination = source''.destination from hdestination] at this
      exact this
    cases hdirectOf : directOf (groupOf resolved source.destination) with
    | none =>
      exact absurd (decide_eq_true hself) (List.find?_eq_none.1 hdirectOf source'' hgroup)
    | some chosen =>
      obtain ⟨hsourceError, hagree⟩ := (aliasEntry_direct hdirectOf).1 halias
      have hsame : source'.destination = source.destination :=
        hdestination'.trans hdestination.symm
      have halias' : (aliasEntry resolved j source').error = none := by
        rw [aliasEntry_direct (hsame ▸ hdirectOf)]
        exact ⟨hnone, hsame ▸ hagree⟩
      obtain ⟨hold, -⟩ := aliasEntry_agree hj hi hsame halias' halias
      refine hiff'.2 ⟨⟨halias', ?_, hsame ▸ hfree⟩, hsame ▸ hkept⟩
      rw [← hreaches'.lookup hnone, hsame, hold, hreaches.lookup hsourceError]
      exact hcurrent
  · intro i j entry entry' hlt hi hj hsame hindirect herror
    obtain ⟨source, error, hsourcei, rfl, -⟩ := hplanned.getElem? hi
    obtain ⟨source', error', hsourcej, rfl, hiff'⟩ := hplanned.getElem? hj
    have halias := (hiff'.1 herror).1.1
    have hnone : directOf (groupOf resolved source'.destination) = none := by
      apply List.find?_eq_none.2
      intro other hother hself
      obtain ⟨hmem, hdestination⟩ := mem_filter.1 hother
      obtain ⟨k, hk⟩ := List.mem_iff_getElem?.1 hmem
      have hlength : plan.entries.length = resolved.length := by
        rw [hplanned.entries, checkedEntries, aliasedGroups]
        simp
      obtain ⟨hbound, -⟩ := List.getElem?_eq_some_iff.1 hk
      have hanswer : plan.entries[k]? = some plan.entries[k] := List.getElem?_eq_getElem _
      obtain ⟨other', error'', hother', heq, -⟩ := hplanned.getElem? hanswer
      obtain rfl := Option.some.inj (hk.symm.trans hother')
      refine hindirect plan.entries[k] (List.getElem_mem _) ?_ ?_
      · rw [heq]
        exact (of_decide_eq_true hdestination).trans hsame.symm
      · rw [heq]
        exact of_decide_eq_true hself
    exact ((aliasEntry_indirect hnone).1 halias).2 i source hlt hsourcei hsame

theorem publishServerRefs_ok
    {metadata : RefLogMetadata} {authenticate : List ResolvedCommand → Except GitError Unit}
    {statuses : List ServerRefStatus} (hvalid : before.Valid)
    (h : publishServerRefs before commands metadata authenticate = .ok (after, statuses)) :
    after.Valid ∧ (ConflictFree before.refs → ConflictFree after.refs) ∧
      ∃ entries, ServerPublished before commands after statuses entries := by
  unfold publishServerRefs at h
  obtain ⟨resolved, hresolved, h⟩ := bind_eq_ok.1 h
  replace h := Fuel.after_check h
  obtain ⟨attached, hattached, h⟩ := bind_eq_ok.1 h
  have hall := mapM_ok hresolved
  have hentries : ∀ entry ∈ checkedEntries resolved attached, IsRefName entry.destination := by
    intro entry hentry
    obtain ⟨index, hindex⟩ := List.mem_iff_getElem?.1 hentry
    obtain ⟨source, error, hsource, rfl, -⟩ := getElem?_checkedEntries hindex
    obtain ⟨command, -, hcommand⟩ := Forall₂.exists_left hall (List.mem_of_getElem? hsource)
    exact (resolveCommand_ok hcommand).valid
  obtain ⟨refused, hplanned⟩ := planServerRefs_planned hvalid hentries
  dsimp only at h
  -- with or without a mutation, the refs are the old ones with the plan applied
  have houtcome : after.Valid ∧ statuses = (planServerRefs before resolved attached).entries.map
      (fun entry => ⟨entry.command.ref, entry.error⟩) ∧
      (fun name => after.refs.lookup name) = applied (fun name => before.refs.lookup name)
        { puts := (planServerRefs before resolved attached).puts
          deletes := (planServerRefs before resolved attached).deletes
          head := none, expected := none } := by
    split at h
    · obtain ⟨⟨published, changed⟩, hmutated, h⟩ := bind_eq_ok.1 h
      cases h
      obtain ⟨hafter, direct, heads, hmutated, -⟩ := mutateRefs_ok hvalid hmutated
      exact ⟨hafter, rfl, hmutated.refs⟩
    · next hempty =>
      cases h
      have hputs : (planServerRefs before resolved attached).puts = [] :=
        List.length_eq_zero_iff.1 (by omega)
      have hdeletes : (planServerRefs before resolved attached).deletes = [] :=
        List.length_eq_zero_iff.1 (by omega)
      refine ⟨hvalid, rfl, ?_⟩
      rw [hputs, hdeletes]
      rfl
  obtain ⟨hafter, rfl, happlied⟩ := houtcome
  have hrefs := fun name => (congrFun happlied name).trans (hplanned.applied _ name)
  exact ⟨hafter, hplanned.conflictFree hentries hrefs, _,
    serverPublished_of_planned hall hattached hplanned hrefs⟩

/-- `publishServerRefs` in its transaction. -/
def RefStore.publish (store : RefStore) (commands : List ReceivePackCommand)
    (metadata : RefLogMetadata) (authenticate : List ResolvedCommand → Except GitError Unit) :
    Except GitError (List ServerRefStatus) × RefStore :=
  match h : publishServerRefs store.tables commands metadata authenticate with
  | .ok (tables, statuses) => (.ok statuses, ⟨tables, (publishServerRefs_ok store.valid h).1⟩)
  | .error error => (.error error, store)

/-- A push throws and leaves everything as it was, or answers every command and leaves refs without
    a directory that is a ref, with exactly the accepted commands applied. -/
theorem publish_accepts_consistently (store : RefStore) (hfree : ConflictFree store.tables.refs)
    (commands : List ReceivePackCommand) (metadata : RefLogMetadata)
    (authenticate : List ResolvedCommand → Except GitError Unit) :
    ((∃ error, (store.publish commands metadata authenticate).1 = .error error) ∧
      (store.publish commands metadata authenticate).2 = store) ∨
    ∃ statuses, (store.publish commands metadata authenticate).1 = .ok statuses ∧
      ConflictFree (store.publish commands metadata authenticate).2.tables.refs ∧
      ∃ entries, ServerPublished store.tables commands
        (store.publish commands metadata authenticate).2.tables statuses entries := by
  unfold RefStore.publish
  split
  · next tables statuses hrun =>
    obtain ⟨-, hafter, hpublished⟩ := publishServerRefs_ok store.valid hrun
    exact .inr ⟨statuses, rfl, hafter hfree, hpublished⟩
  · next error _ => exact .inl ⟨⟨error, rfl⟩, rfl⟩

def otherRef : Text := text "refs/heads/other"

/-- A branch with two symbolic refs to it. -/
def pairStore : RefStore where
  tables := { aliasStore.tables with
    refs := aliasStore.tables.refs.insert otherRef (text "ref: refs/heads/main") }
  valid := by
    refine ⟨fun name hname => ?_, List.nodup_nil, nofun,
      nofun⟩
    rcases AList.mem_insert _ |>.1 hname with rfl | hname
    · exact ⟨by decide, by decide, by decide +kernel, by decide +kernel⟩
    · exact aliasStore.valid.names name hname

def moveTo (ref : Text) : ReceivePackCommand := ⟨ref, firstOid, secondOid⟩

theorem conflictFree_pairStore : ConflictFree pairStore.tables.refs := by
  have hkeys : pairStore.tables.refs.keys = [otherRef, mainRef, aliasRef] := by decide +kernel
  intro root hroot path hpath hinside
  have hall : ∀ name ∈ pairStore.tables.refs, name ∈ [otherRef, mainRef, aliasRef] := fun name h =>
    hkeys ▸ AList.mem_keys.1 h
  obtain ⟨rest, hrest⟩ := hinside
  have hstarts : (root ++ [0x2f]).isPrefixOf path = true :=
    List.isPrefixOf_iff_prefix.2 ⟨rest, by rw [hrest, List.append_assoc]; rfl⟩
  have hnone : ([otherRef, mainRef, aliasRef].all fun root =>
      [otherRef, mainRef, aliasRef].all fun path => !(root ++ [0x2f]).isPrefixOf path) = true := by
    decide +kernel
  have hone := List.all_eq_true.1 (List.all_eq_true.1 hnone root (hall root hroot)) path
    (hall path hpath)
  rw [hstarts] at hone
  cases hone

theorem publish_pairStore :
    ConflictFree (pairStore.publish [moveTo mainRef, moveTo aliasRef] testMetadata
      fun _ => .ok ()).2.tables.refs := by
  rcases publish_accepts_consistently pairStore conflictFree_pairStore
      [moveTo mainRef, moveTo aliasRef] testMetadata fun _ => .ok () with
    ⟨-, heq⟩ | ⟨statuses, -, hfree, -⟩
  · rw [heq]
    exact conflictFree_pairStore
  · exact hfree

/-- Two symbolic refs to one branch, moved alike: the first command is accepted, the second not. -/
theorem aliases_are_decided_apart :
    ¬ ∀ (store : RefStore) (commands : List ReceivePackCommand) (metadata : RefLogMetadata)
      (after : RefTables) (statuses : List ServerRefStatus),
      publishServerRefs store.tables commands metadata (fun _ => .ok ()) = .ok (after, statuses) →
      ∀ (i j : Nat) (first second : ReceivePackCommand) (source target : ResolvedCommand)
        (status status' : ServerRefStatus),
        commands[i]? = some first → commands[j]? = some second →
        resolveCommand store.tables first = .ok source →
        resolveCommand store.tables second = .ok target →
        source.destination = target.destination → first.oldOid = second.oldOid →
        first.newOid = second.newOid → statuses[i]? = some status → statuses[j]? = some status' →
        (status.error = none ↔ status'.error = none) := by
  intro hall
  have hstatuses : (publishServerRefs pairStore.tables [moveTo aliasRef, moveTo otherRef]
      testMetadata (fun _ => .ok ())).map Prod.snd =
      .ok [⟨aliasRef, none⟩, ⟨otherRef, some "refname conflict"⟩] := by decide +kernel
  cases hrun : publishServerRefs pairStore.tables [moveTo aliasRef, moveTo otherRef] testMetadata
      fun _ => .ok () with
  | error error =>
    rw [hrun] at hstatuses
    cases hstatuses
  | ok out =>
    obtain ⟨after, statuses⟩ := out
    rw [hrun] at hstatuses
    cases hstatuses
    have hboth := hall pairStore _ testMetadata after _ hrun 0 1 (moveTo aliasRef)
      (moveTo otherRef) ⟨moveTo aliasRef, mainRef, some firstOid, none⟩
      ⟨moveTo otherRef, mainRef, some firstOid, none⟩ ⟨aliasRef, none⟩
      ⟨otherRef, some "refname conflict"⟩ rfl rfl (by decide +kernel) (by decide +kernel) rfl
      (by decide +kernel) (by decide +kernel) rfl rfl
    exact Option.some_ne_none _ (hboth.1 rfl)

end Kompjutr.Refs
