/-
  Kompjutr.Fs.ReadFilesSound

  A list of paths read in calls, each going on with what the call before it left
  (`readFiles_rounds`).

  A call takes the canonical paths in the order in which they are asked for and stops before one of
  them (`selectFiles_ok`): what it has delivered and what it still has pending are the files of
  the paths it has passed (`ReadState.Ok`).  The first path is always passed, so the calls end.
-/
import Kompjutr.Fs.ReadTargetsSound

namespace Kompjutr.Fs

open Chunked (count slice)
open Fuel (ok_bind bind_eq_ok)
open Objects (Text text)
open List (append_assoc append_nil filter_append filter_nil flatMap_congr flatMap_cons foldl_cons
  map_append map_id map_map map_nil mem_append mem_append_right mem_cons mem_cons_of_mem
  mem_cons_self mem_filter mem_flatMap mem_map mem_singleton nodup_cons not_mem_nil)

variable {more : List Text} {key : Text}

variable {keys left : List Text} {caller : Text}

-- Keys in the order of their insertion

theorem mem_foldl_insertNew : key ∈ more.foldl insertNew keys ↔ key ∈ keys ∨ key ∈ more := by
  induction more generalizing keys with
  | nil => simp
  | cons other more ih =>
    rw [foldl_cons, ih, mem_cons, insertNew]
    split
    next hmem =>
      constructor
      · exact Or.imp_right Or.inr
      · rintro (hkey | rfl | hkey)
        · exact .inl hkey
        · exact .inl hmem
        · exact .inr hkey
    next => rw [mem_append, mem_singleton, or_assoc]

theorem nodup_foldl_insertNew (h : keys.Nodup) (more : List Text) :
    (more.foldl insertNew keys).Nodup := by
  induction more generalizing keys with
  | nil => exact h
  | cons key more ih =>
    rw [foldl_cons]
    refine ih ?_
    rw [insertNew]
    split
    next => exact h
    next hnew =>
      rw [← List.concat_eq_append]
      exact h.concat hnew

/-- Keys that are all new come behind those that stand. -/
theorem foldl_insertNew_append (h : ∀ key ∈ more, key ∉ keys) (fresh : List Text) :
    more.foldl insertNew (keys ++ fresh) = keys ++ more.foldl insertNew fresh := by
  induction more generalizing fresh with
  | nil => rfl
  | cons key more ih =>
    rw [foldl_cons, foldl_cons]
    have hkey : insertNew (keys ++ fresh) key = keys ++ insertNew fresh key := by
      have hnew : key ∉ keys := h key mem_cons_self
      unfold insertNew
      by_cases hfresh : key ∈ fresh
      · rw [if_pos (mem_append_right _ hfresh), if_pos hfresh]
      · rw [if_neg (by rw [mem_append]; exact not_or.2 ⟨hnew, hfresh⟩), if_neg hfresh,
          append_assoc]
    rw [hkey]
    exact ih (fun other hother => h other (mem_cons_of_mem _ hother)) _

theorem foldl_insertNew_replicate (h : key ∈ keys) (n : Nat) :
    (List.replicate n key).foldl insertNew keys = keys := by
  induction n with
  | zero => rfl
  | succ n ih => rw [List.replicate_succ, foldl_cons, insertNew, if_pos h, ih]

-- The paths and those who ask for them

variable {real : Text} {paths : List Text}

theorem mem_callersOf :
    caller ∈ callersOf paths real ↔ caller ∈ paths ∧ normalize caller = real := by
  rw [callersOf, mem_filter, decide_eq_true_iff]

theorem mem_canonicalOrder :
    real ∈ canonicalOrder paths ↔ ∃ caller ∈ paths, normalize caller = real := by
  rw [canonicalOrder, mem_foldl_insertNew, mem_map]
  simp

theorem nodup_canonicalOrder (paths : List Text) : (canonicalOrder paths).Nodup :=
  nodup_foldl_insertNew List.nodup_nil _

/-- The requests, gathered by their canonical paths. -/
theorem perm_callersOf {order : List Text} (horder : order.Nodup)
    (hall : ∀ caller ∈ paths, normalize caller ∈ order) :
    paths.Perm (order.flatMap (callersOf paths)) := by
  induction order generalizing paths with
  | nil =>
    rw [List.eq_nil_iff_forall_not_mem.2 fun caller hcaller => not_mem_nil (hall caller hcaller)]
    exact List.Perm.refl _
  | cons real order ih =>
    rw [nodup_cons] at horder
    have hothers : ∀ other ∈ order, callersOf (paths.filter fun caller => normalize caller ≠ real) other =
        callersOf paths other := by
      intro other hother
      rw [callersOf, callersOf, List.filter_filter]
      refine List.filter_congr fun caller _ => ?_
      by_cases heq : normalize caller = other
      · subst heq
        have hne : normalize caller ≠ real := fun hreal => horder.1 (hreal ▸ hother)
        simp [hne]
      · simp [heq]
    have hrest := @ih (paths.filter fun caller => normalize caller ≠ real) horder.2 (by
      intro caller hcaller
      rw [mem_filter, decide_eq_true_iff] at hcaller
      exact (mem_cons.1 (hall caller hcaller.1)).resolve_left hcaller.2)
    rw [flatMap_congr hothers] at hrest
    refine (List.filter_append_perm (fun caller => decide (normalize caller = real)) paths).symm.trans ?_
    rw [flatMap_cons]
    refine List.Perm.append_left _ (List.Perm.trans (List.Perm.of_eq ?_) hrest)
    exact List.filter_congr fun caller _ => by simp

theorem callersOf_flatMap (hleft : left.Nodup)
    (hreal : real ∈ left) : callersOf (left.flatMap (callersOf paths)) real = callersOf paths real := by
  have hself : ∀ other, callersOf (callersOf paths other) real =
      if other = real then callersOf paths real else [] := by
    intro other
    split
    next heq =>
      rw [heq, callersOf]
      exact List.filter_eq_self.2 fun caller hcaller => decide_eq_true (mem_callersOf.1 hcaller).2
    next hne =>
      refine List.filter_eq_nil_iff.2 fun caller hcaller => ?_
      rw [decide_eq_true_iff, (mem_callersOf.1 hcaller).2]
      exact hne
  have hfilter : callersOf (left.flatMap (callersOf paths)) real =
      left.flatMap fun other => callersOf (callersOf paths other) real := by
    rw [callersOf, List.filter_flatMap]
    rfl
  rw [hfilter]
  clear hfilter
  induction left with
  | nil => cases hreal
  | cons other left ih =>
    rw [nodup_cons] at hleft
    rw [flatMap_cons, hself]
    split
    next heq =>
      have hnone : left.flatMap (fun other => callersOf (callersOf paths other) real) = [] := by
        refine List.flatMap_eq_nil_iff.2 fun another hanother => ?_
        have hdiffers : another ≠ real := by
          rintro rfl
          exact hleft.1 (heq ▸ hanother)
        rw [hself, if_neg hdiffers]
      rw [hnone, append_nil]
    next hne =>
      rw [List.nil_append, ih hleft.2 ((mem_cons.1 hreal).resolve_left (Ne.symm hne))]

/-- What a call leaves is asked for in the same order again. -/
theorem canonicalOrder_flatMap (hleft : left.Nodup)
    (hall : ∀ real ∈ left, real ∈ canonicalOrder paths) :
    canonicalOrder (left.flatMap (callersOf paths)) = left := by
  have hnames : (left.flatMap (callersOf paths)).map normalize =
      left.flatMap fun real => List.replicate (callersOf paths real).length real := by
    rw [List.map_flatMap]
    refine flatMap_congr fun real _ => ?_
    refine List.eq_replicate_iff.2 ⟨List.length_map _, fun name hname => ?_⟩
    obtain ⟨caller, hcaller, rfl⟩ := mem_map.1 hname
    exact (mem_callersOf.1 hcaller).2
  have hpos : ∀ real ∈ left, 0 < (callersOf paths real).length := by
    intro real hreal
    obtain ⟨caller, hcaller, heq⟩ := mem_canonicalOrder.1 (hall real hreal)
    exact List.length_pos_of_mem (mem_callersOf.2 ⟨hcaller, heq⟩)
  rw [canonicalOrder, hnames]
  suffices hfold : ∀ keys : List Text, (∀ real ∈ left, real ∉ keys) →
      (left.flatMap fun real => List.replicate (callersOf paths real).length real).foldl insertNew keys =
        keys ++ left from hfold [] fun _ _ => not_mem_nil
  clear hnames hall
  induction left with
  | nil =>
    intro keys _
    exact (append_nil keys).symm
  | cons real left ih =>
    intro keys hnew
    rw [nodup_cons] at hleft
    obtain ⟨n, hn⟩ := Nat.exists_eq_succ_of_ne_zero (Nat.ne_of_gt (hpos real mem_cons_self))
    have hfirst : insertNew keys real = keys ++ [real] := if_neg (hnew real mem_cons_self)
    rw [flatMap_cons, hn, List.replicate_succ, List.cons_append, foldl_cons,
      List.foldl_append, hfirst, foldl_insertNew_replicate (mem_append_right _ (List.mem_singleton_self _)),
      ih hleft.2 (fun other hother => hpos other (mem_cons_of_mem _ hother)), append_assoc]
    · rfl
    · intro other hother hmem
      obtain hold | hsame := mem_append.1 hmem
      · exact hnew other (mem_cons_of_mem _ hother) hold
      · exact hleft.1 (mem_singleton.1 hsame ▸ hother)

-- What is delivered

/-- The bytes that the chunks of an inode are. -/
def fileBytes (tables : FsTables) (inode : Nat) : List UInt8 :=
  match tables.nodes.get inode with
  | none => []
  | some node => (List.range (count chunkSize node.size)).flatMap fun index =>
      (tables.chunks.get (inode, index)).getD []

/-- A regular file, whole. -/
def wholeFile (tables : FsTables) (real : Text) : Option (List UInt8) :=
  match tables.nodeAt real with
  | none => none
  | some (inode, node) => if node.type = .file then some (fileBytes tables inode) else none

/-- What the store keeps of its files: the chunks of each are its bytes, and its size is safe. -/
structure FsTables.Healthy (tables : FsTables) : Prop where
  stores : ∀ path inode node, tables.nodeAt path = some (inode, node) → node.type = .file →
    ∃ content, tables.Stores inode content ∧ node.size = content.length
  safe : ∀ path inode node, tables.nodeAt path = some (inode, node) →
    (node.size : Int) ≤ maxSafeInteger

/-- No two of these paths are names of one file that is not empty. -/
def Unlinked (tables : FsTables) (reals : List Text) : Prop :=
  ∀ real ∈ reals, ∀ other ∈ reals, ∀ inode node, tables.nodeAt real = some (inode, node) →
    tables.nodeAt other = some (inode, node) → node.type = .file → 0 < node.size → real = other

section Delivered

variable {tables : FsTables} {paths : List Text} {real : Text} {inode : Nat} {node : FsNode}

theorem nodes_get (h : tables.nodeAt real = some (inode, node)) :
    tables.nodes.get inode = some node := by
  unfold FsTables.nodeAt at h
  obtain ⟨entry, -, hnode⟩ := Option.bind_eq_some_iff.1 h
  obtain ⟨found, hfound, heq⟩ := Option.map_eq_some_iff.1 hnode
  obtain ⟨rfl, rfl⟩ := Prod.mk.inj heq
  exact hfound

theorem fileBytes_eq {content : List UInt8} (hnode : tables.nodes.get inode = some node)
    (h : tables.Stores inode content) (hsize : node.size = content.length) :
    fileBytes tables inode = content := by
  have hslices : ∀ index ∈ List.range (count chunkSize content.length),
      (tables.chunks.get (inode, index)).getD [] = slice chunkSize content index := by
    intro index hindex
    rw [h index, if_pos ((Chunked.lt_count chunkSize_pos).1 (List.mem_range.1 hindex)), Option.getD_some]
  rw [fileBytes, hnode]
  dsimp only
  rw [hsize, flatMap_congr hslices, List.flatMap_def, Chunked.flatten_count chunkSize_pos]

theorem FsTables.Healthy.file (h : tables.Healthy) (hnode : tables.nodeAt real = some (inode, node))
    (htype : node.type = .file) :
    tables.Stores inode (fileBytes tables inode) ∧ node.size = (fileBytes tables inode).length := by
  obtain ⟨content, hstores, hsize⟩ := h.stores real inode node hnode htype
  rw [fileBytes_eq (nodes_get hnode) hstores hsize]
  exact ⟨hstores, hsize⟩

/-- The file of a request. -/
def entryOf (tables : FsTables) (caller : Text) : Text × List UInt8 :=
  (caller, (wholeFile tables (normalize caller)).getD [])

/-- The files of some canonical paths, each under the strings that ask for it. -/
def filesOf (tables : FsTables) (paths reals : List Text) : List (Text × List UInt8) :=
  ((reals.flatMap (callersOf paths)).foldl insertNew []).map (entryOf tables)

theorem setFile_entryOf {bytes : List UInt8}
    (h : entryOf tables caller = (caller, bytes)) (keys : List Text) :
    setFile bytes (keys.map (entryOf tables)) caller =
      (insertNew keys caller).map (entryOf tables) := by
  have hkeys : (keys.map (entryOf tables)).map Prod.fst = keys := by
    rw [map_map]
    exact map_id keys
  rw [setFile, hkeys, insertNew]
  split
  next hmem =>
    rw [map_map]
    refine List.map_congr_left fun key _ => ?_
    rw [Function.comp_apply]
    split
    next heq =>
      rw [← h]
      exact congrArg (entryOf tables) (Eq.symm heq)
    next => rfl
  next => rw [map_append, List.map_singleton, h]

theorem foldl_setFile {bytes : List UInt8} {callers : List Text}
    (h : ∀ caller ∈ callers, entryOf tables caller = (caller, bytes)) (keys : List Text) :
    callers.foldl (setFile bytes) (keys.map (entryOf tables)) =
      (callers.foldl insertNew keys).map (entryOf tables) := by
  induction callers generalizing keys with
  | nil => rfl
  | cons caller callers ih =>
    rw [foldl_cons, setFile_entryOf (h caller mem_cons_self), foldl_cons]
    exact ih (fun other hother => h other (mem_cons_of_mem _ hother)) _

/-- The plan for a canonical path that names a file. -/
def planOf (tables : FsTables) (real : Text) : Option Planned :=
  match tables.nodeAt real with
  | none => none
  | some (inode, node) =>
    if node.type = .file then some { real, target := { inode, size := node.size } } else none

theorem planOf_some {entry : Planned} (h : planOf tables real = some entry) :
    ∃ node, tables.nodeAt real = some (entry.target.inode, node) ∧ node.type = .file ∧
      entry = { real, target := { inode := entry.target.inode, size := node.size } } := by
  unfold planOf at h
  split at h
  · cases h
  next inode node hnode =>
    split at h
    next htype =>
      cases h
      exact ⟨node, hnode, htype, rfl⟩
    · cases h

theorem deliver_eq {planned : List Planned} {found : Nat → Option (List UInt8)}
    (hplan : ∀ entry ∈ planned, planOf tables entry.real = some entry)
    (hfound : ∀ entry ∈ planned, found entry.target.inode = some (fileBytes tables entry.target.inode))
    (done : List Text) :
    deliver paths planned found (filesOf tables paths done) =
      filesOf tables paths (done ++ planned.map Planned.real) := by
  induction planned generalizing done with
  | nil => rw [map_nil, append_nil]; rfl
  | cons entry planned ih =>
    obtain ⟨node, hnode, htype, -⟩ := planOf_some (hplan entry mem_cons_self)
    have hcallers : ∀ caller ∈ callersOf paths entry.real,
        entryOf tables caller = (caller, fileBytes tables entry.target.inode) := by
      intro caller hcaller
      rw [entryOf, (mem_callersOf.1 hcaller).2, wholeFile, hnode]
      dsimp only
      rw [if_pos htype]
      rfl
    have hone : filesOf tables paths (done ++ [entry.real]) =
        (callersOf paths entry.real).foldl (setFile (fileBytes tables entry.target.inode))
          (filesOf tables paths done) := by
      rw [filesOf, filesOf, foldl_setFile hcallers, List.flatMap_append, List.foldl_append,
        List.flatMap_singleton]
    rw [List.map_cons, List.append_cons, ← ih (fun other hother => hplan other (mem_cons_of_mem _ hother))
      (fun other hother => hfound other (mem_cons_of_mem _ hother)), hone, deliver, foldl_cons,
      hfound entry mem_cons_self]
    rfl

end Delivered

-- A call

section Call

variable {tables : FsTables} {paths : List Text} {budget maxBytes : Nat} {deferOversized : Bool}

/-- Whether a canonical path names a regular file. -/
def isFile (tables : FsTables) (real : Text) : Bool := (planOf tables real).isSome

theorem nodup_wanted {planned : List Planned}
    (hplan : ∀ entry ∈ planned, planOf tables entry.real = some entry)
    (hnodup : (planned.map Planned.real).Nodup) (hunlinked : Unlinked tables (planned.map Planned.real)) :
    (wantedInodes (planned.map Planned.target)).Nodup := by
  rw [wantedInodes, List.filter_map, map_map]
  refine (hnodup.of_map _ |>.filter _).map_on fun entry hentry other hother heq => ?_
  obtain ⟨hmem, hpos⟩ := mem_filter.1 hentry
  have hotherMem := List.mem_of_mem_filter hother
  obtain ⟨node, hnode, htype, hshape⟩ := planOf_some (hplan entry hmem)
  obtain ⟨node', hnode', -, -⟩ := planOf_some (hplan other hotherMem)
  have hinode : entry.target.inode = other.target.inode := heq
  rw [← hinode] at hnode'
  obtain rfl : node = node' :=
    Option.some.inj ((nodes_get hnode).symm.trans (nodes_get hnode'))
  have hsize : 0 < node.size := by
    rw [Function.comp_apply, decide_eq_true_iff, hshape] at hpos
    exact hpos
  have hreal := hunlinked _ (List.mem_map_of_mem hmem) _ (List.mem_map_of_mem hotherMem) _ _ hnode
    hnode' htype hsize
  have hsame := hplan other hotherMem
  rw [← hreal, hplan entry hmem] at hsame
  exact Option.some.inj hsame

theorem deliverTargets_ok (h : tables.Healthy) {planned : List Planned}
    (hplan : ∀ entry ∈ planned, planOf tables entry.real = some entry)
    (hnodup : (planned.map Planned.real).Nodup) (hunlinked : Unlinked tables (planned.map Planned.real))
    (done : List Text) :
    deliverTargets tables paths budget planned (filesOf tables paths done) =
      .ok (filesOf tables paths (done ++ planned.map Planned.real)) := by
  have hfiled : Filed tables (fileBytes tables) (planned.map Planned.target) := by
    intro target htarget
    obtain ⟨entry, hentry, rfl⟩ := mem_map.1 htarget
    obtain ⟨node, hnode, htype, hshape⟩ := planOf_some (hplan entry hentry)
    obtain ⟨hstores, hsize⟩ := h.file hnode htype
    have htargetSize : entry.target.size = node.size := by rw [hshape]
    exact ⟨hstores, htargetSize.trans hsize⟩
  obtain ⟨found, hread, hfound⟩ := readTargets_eq hfiled (nodup_wanted hplan hnodup hunlinked)
    (rowLimitFor_pos (planned.map Planned.target) budget)
  rw [deliverTargets, hread, ok_bind]
  exact congrArg Except.ok (deliver_eq hplan
    (fun entry hentry => hfound _ (List.mem_map_of_mem hentry)) done)

/-- What a call holds once it has passed these canonical paths. -/
structure ReadState.Ok (tables : FsTables) (paths taken : List Text) (state : ReadState) : Prop where
  files : ∃ done, state.files = filesOf tables paths done ∧
    taken.filter (isFile tables) = done ++ state.pending.map Planned.real
  plan : ∀ entry ∈ state.pending, planOf tables entry.real = some entry

theorem Unlinked.mono {reals others : List Text} (h : Unlinked tables reals)
    (hsub : ∀ real ∈ others, real ∈ reals) : Unlinked tables others :=
  fun real hreal other hother => h real (hsub real hreal) other (hsub other hother)

/-- A flush delivers what is pending. -/
theorem flushPending_ok (h : tables.Healthy) {taken : List Text} (hnodup : taken.Nodup)
    (hunlinked : Unlinked tables taken) {state : ReadState} (hok : state.Ok tables paths taken) :
    ∃ after, flushPending tables paths budget state = .ok after ∧ after.pending = [] ∧
      after.selectedBytes = state.selectedBytes ∧
      after.files = filesOf tables paths (taken.filter (isFile tables)) := by
  obtain ⟨⟨done, hfiles, htaken⟩, hplan⟩ := hok
  have hwaiting : (state.pending.map Planned.real).Sublist taken := by
    refine List.Sublist.trans ?_ (List.filter_sublist (p := isFile tables) (l := taken))
    rw [htaken]
    exact List.sublist_append_right _ _
  unfold flushPending
  split
  next hempty =>
    refine ⟨state, rfl, hempty, rfl, ?_⟩
    rw [hfiles, htaken, hempty, map_nil, append_nil]
  next =>
    rw [hfiles, deliverTargets_ok h hplan (hnodup.sublist hwaiting)
      (hunlinked.mono fun real hreal => hwaiting.subset hreal) done, ok_bind]
    refine ⟨_, rfl, rfl, rfl, ?_⟩
    rw [htaken]

theorem ReadState.Ok.of_files {taken : List Text} {state : ReadState} (hpending : state.pending = [])
    (hfiles : state.files = filesOf tables paths (taken.filter (isFile tables))) :
    state.Ok tables paths taken where
  files := ⟨_, hfiles, by rw [hpending, map_nil, append_nil]⟩
  plan entry hentry := by
    rw [hpending] at hentry
    cases hentry

theorem ReadState.Ok.skip {taken : List Text} {state : ReadState} (h : state.Ok tables paths taken) (hreal : isFile tables real = false) : state.Ok tables paths (taken ++ [real]) where
  files := by
    rw [filter_append, List.filter_cons_of_neg (by rw [hreal]; exact Bool.false_ne_true),
      filter_nil, append_nil]
    exact h.files
  plan := h.plan

theorem ReadState.Ok.wait {taken : List Text} {state : ReadState} (h : state.Ok tables paths taken) {target : Target} (hplan : planOf tables real = some { real, target })
    (pendingBytes selectedBytes : Nat) :
    ReadState.Ok tables paths (taken ++ [real])
      { state with pending := state.pending ++ [{ real, target }], pendingBytes, selectedBytes } where
  files := by
    obtain ⟨done, hfiles, htaken⟩ := h.files
    refine ⟨done, hfiles, ?_⟩
    rw [filter_append, htaken, List.filter_cons_of_pos (by rw [isFile, hplan]; rfl),
      filter_nil, map_append, List.map_singleton, append_assoc]
  plan other hother := by
    obtain hold | hnew := mem_append.1 hother
    · exact h.plan other hold
    · rw [mem_singleton.1 hnew]
      exact hplan

/-- A lookup finds the plan of a file, and nothing where there is none. -/
theorem lookup_cases (h : tables.Healthy) (real : Text) :
    (lookupRow tables real = none ∧ isFile tables real = false) ∨
    (∃ row, lookupRow tables real = some row ∧ row.type ≠ .file ∧ isFile tables real = false) ∨
    ∃ row target, lookupRow tables real = some row ∧ row.type = .file ∧
      validatedTarget row = .ok target ∧ planOf tables real = some { real, target } ∧
      (target.size : Int) ≤ maxSafeInteger := by
  cases hnode : tables.nodeAt real with
  | none =>
    left
    rw [lookupRow, isFile, planOf, hnode]
    exact ⟨rfl, rfl⟩
  | some found =>
    obtain ⟨inode, node⟩ := found
    have hlookup : lookupRow tables real = some
        { inode, type := node.type, size := node.size, layout := tables.layoutOf inode } := by
      rw [lookupRow, hnode]
      rfl
    right
    by_cases htype : node.type = .file
    · right
      obtain ⟨hstores, hsize⟩ := h.file hnode htype
      refine ⟨_, { inode, size := node.size }, hlookup, htype, ?_, ?_, h.safe real inode node hnode⟩
      · have hdescribes := hstores.describes
        rw [← hsize] at hdescribes
        rw [validatedTarget]
        dsimp only
        rw [hdescribes]
        rfl
      · rw [planOf, hnode]
        exact if_pos htype
    · left
      refine ⟨_, hlookup, htype, ?_⟩
      rw [isFile, planOf, hnode]
      dsimp only
      rw [if_neg htype]
      rfl

def startState : ReadState := { files := [], pending := [], pendingBytes := 0, selectedBytes := 0 }

/-- The loop passes some paths and stops before the others.  From the start it passes the first. -/
def Selects (tables : FsTables) (paths : List Text) (budget maxBytes : Nat) (deferOversized : Bool)
    (taken rest : List Text) (state : ReadState) : Prop :=
  ∃ more left reached,
    selectFiles tables paths budget maxBytes deferOversized rest state = .ok (reached, left) ∧
      rest = more ++ left ∧ reached.Ok tables paths (taken ++ more) ∧
      (state = startState ∧ maxBytes = maxSafeInteger.toNat ∧ deferOversized = false →
        more = [] → rest = [])

theorem selectFiles_ok (h : tables.Healthy) {taken rest : List Text} {state : ReadState}
    (hnodup : (taken ++ rest).Nodup) (hunlinked : Unlinked tables (taken ++ rest))
    (hok : state.Ok tables paths taken) :
    Selects tables paths budget maxBytes deferOversized taken rest state := by
  induction rest generalizing taken state with
  | nil =>
    refine ⟨[], [], state, rfl, rfl, ?_, fun _ _ => rfl⟩
    rwa [append_nil]
  | cons real rest ih =>
    have hshift : taken ++ [real] ++ rest = taken ++ real :: rest := (List.append_cons taken real rest).symm
    have htaken : taken.Nodup := hnodup.sublist (List.sublist_append_left _ _)
    have hlinks : Unlinked tables taken :=
      hunlinked.mono fun other hother => List.mem_append_left _ hother
    have hpass : ∀ passed : ReadState, passed.Ok tables paths (taken ++ [real]) →
        selectFiles tables paths budget maxBytes deferOversized (real :: rest) state =
          selectFiles tables paths budget maxBytes deferOversized rest passed →
        Selects tables paths budget maxBytes deferOversized taken (real :: rest) state :=
      fun passed hpassed heq => by
        obtain ⟨more, left, reached, hrun, hrest, hreached, -⟩ := @ih (taken ++ [real]) passed
          (hshift ▸ hnodup) (hshift ▸ hunlinked) hpassed
        refine ⟨real :: more, left, reached, heq.trans hrun, congrArg _ hrest, ?_,
          fun _ hnil => nomatch hnil⟩
        rwa [append_assoc] at hreached
    have hstop : ∀ reached : ReadState, reached.Ok tables paths taken →
        selectFiles tables paths budget maxBytes deferOversized (real :: rest) state =
          .ok (reached, real :: rest) →
        ¬ (state = startState ∧ maxBytes = maxSafeInteger.toNat ∧ deferOversized = false) →
        Selects tables paths budget maxBytes deferOversized taken (real :: rest) state :=
      fun reached hreached heq hnot =>
        ⟨[], real :: rest, reached, heq, rfl, by rwa [append_nil], fun hall _ => absurd hall hnot⟩
    obtain ⟨hlookup, hfile⟩ | ⟨row, hlookup, htype, hfile⟩ |
        ⟨row, target, hlookup, htype, htarget, hplan, hsafe⟩ := lookup_cases h real
    · exact hpass state (hok.skip hfile) (by rw [selectFiles, hlookup])
    · exact hpass state (hok.skip hfile) (by rw [selectFiles, hlookup]; exact if_pos htype)
    · have hrun := @selectFiles.eq_2 tables paths budget maxBytes deferOversized state real rest
      rw [hlookup] at hrun
      dsimp only at hrun
      rw [if_neg (not_not.2 htype), htarget, ok_bind] at hrun
      by_cases hmax : state.selectedBytes + target.size > maxBytes
      · obtain ⟨flushed, hflush, hpending, -, hfiles⟩ := @flushPending_ok tables paths budget h taken
          htaken hlinks state hok
        rw [if_pos hmax, hflush, ok_bind] at hrun
        refine hstop flushed (.of_files hpending hfiles) hrun ?_
        rintro ⟨rfl, rfl, -⟩
        dsimp only [startState] at hmax
        omega
      rw [if_neg hmax] at hrun
      by_cases hover : target.size > budget
      · rw [if_pos hover] at hrun
        by_cases hdefer : deferOversized = true
        · obtain ⟨flushed, hflush, hpending, -, hfiles⟩ := @flushPending_ok tables paths budget h taken
            htaken hlinks state hok
          rw [if_pos hdefer, hflush, ok_bind] at hrun
          refine hstop flushed (.of_files hpending hfiles) hrun fun hall => ?_
          rw [hdefer] at hall
          cases hall.2.2
        rw [if_neg hdefer] at hrun
        by_cases hread : (state.files ≠ [] || state.pending ≠ []) = true
        · rw [if_pos hread] at hrun
          refine hstop state hok hrun ?_
          rintro ⟨rfl, -, -⟩
          cases hread
        · rw [if_neg hread] at hrun
          have hpending : state.pending = [] := by
            by_contra hne
            exact hread (by simp [hne])
          obtain ⟨⟨done, hfiles, hdone⟩, -⟩ := hok
          rw [hpending, map_nil, append_nil] at hdone
          have hone := @deliverTargets_ok tables paths budget h [{ real, target }]
            (fun entry hentry => by rw [mem_singleton.1 hentry]; exact hplan)
            (List.nodup_singleton _)
            (hunlinked.mono fun other hother => by
              rw [mem_singleton.1 hother]
              exact mem_append_right _ mem_cons_self) done
          rw [hfiles, hone, ok_bind] at hrun
          refine (fun hpassed => hpass _ hpassed hrun) (.of_files hpending ?_)
          rw [filter_append, hdone, List.filter_cons_of_pos (by rw [isFile, hplan]; rfl),
            filter_nil]
          rfl
      · rw [if_neg hover] at hrun
        by_cases hfull : state.pendingBytes + target.size > budget
        · obtain ⟨flushed, hflush, hpending, -, hfiles⟩ := @flushPending_ok tables paths budget h taken
            htaken hlinks state hok
          rw [if_pos hfull, hflush, ok_bind] at hrun
          exact hpass _ (ReadState.Ok.wait (.of_files hpending hfiles) hplan _ _) hrun
        · rw [if_neg hfull] at hrun
          exact hpass _ (hok.wait hplan _ _) hrun

/-- What a call does with its paths: those passed and those left are all of them, the files among
    the passed ones are delivered, and those left are handed back. -/
def Partitions (tables : FsTables) (paths : List Text) (batch : ReadBatch) : Prop :=
  ∃ passed left, canonicalOrder paths = passed ++ left ∧
    paths.Perm (passed.flatMap (callersOf paths) ++ batch.remaining) ∧
    batch.remaining = left.flatMap (callersOf paths) ∧
    batch.files = filesOf tables paths (passed.filter (isFile tables))

/-- The options of a call that names only its budget. -/
def budgetOf (budget : Nat) : ReadOptions :=
  { budget := some budget, maxBytes := none, deferOversized := false }

theorem readFiles_ok (h : tables.Healthy) (hbudget : 0 < budget)
    (hunlinked : Unlinked tables (canonicalOrder paths)) :
    ∃ batch passed left, readFiles tables paths (budgetOf budget) = .ok batch ∧
      canonicalOrder paths = passed ++ left ∧ (passed = [] → left = []) ∧
      batch.remaining = left.flatMap (callersOf paths) ∧
      batch.files = filesOf tables paths (passed.filter (isFile tables)) := by
  have hstart : ReadState.Ok tables paths [] startState :=
    .of_files rfl rfl
  obtain ⟨passed, left, reached, hselect, horder, hreached, hprogress⟩ :=
    @selectFiles_ok tables paths budget maxSafeInteger.toNat false h [] (canonicalOrder paths)
      startState (nodup_canonicalOrder paths) hunlinked hstart
  obtain ⟨flushed, hflush, -, -, hfiles⟩ := @flushPending_ok tables paths budget h passed
    ((nodup_canonicalOrder paths).sublist (horder ▸ List.sublist_append_left _ _))
    (hunlinked.mono fun real hreal => horder ▸ List.mem_append_left _ hreal) reached hreached
  refine ⟨{ files := flushed.files, remaining := left.flatMap (callersOf paths) }, passed, left, ?_,
    horder, fun hnil => ?_, rfl, hfiles⟩
  · unfold readFiles
    dsimp only [budgetOf, Option.getD_some, Option.getD_none]
    rw [if_neg (Nat.ne_of_gt hbudget), if_neg (by decide)]
    refine (congrArg (· >>= _) hselect).trans ?_
    rw [ok_bind, hflush]
    rfl
  · have hall := hprogress ⟨rfl, rfl, rfl⟩ hnil
    rw [hall, hnil] at horder
    exact horder.symm

/-- The calls, each with the paths that it is given: the next one is given what is left. -/
inductive ReadRounds (tables : FsTables) (options : ReadOptions) :
    List Text → List (List Text × ReadBatch) → Prop
  | last {paths : List Text} {batch : ReadBatch} : readFiles tables paths options = .ok batch →
      batch.remaining = [] → ReadRounds tables options paths [(paths, batch)]
  | more {paths : List Text} {batch : ReadBatch} {rounds : List (List Text × ReadBatch)} :
      readFiles tables paths options = .ok batch → batch.remaining ≠ [] →
      ReadRounds tables options batch.remaining rounds →
      ReadRounds tables options paths ((paths, batch) :: rounds)

theorem filesOf_append {passed : List Text} (hdisjoint : ∀ real ∈ left, real ∉ passed) :
    filesOf tables paths (passed ++ left) = filesOf tables paths passed ++ filesOf tables paths left := by
  have hnew : ∀ caller ∈ left.flatMap (callersOf paths),
      caller ∉ (passed.flatMap (callersOf paths)).foldl insertNew [] := by
    intro caller hcaller hmem
    obtain ⟨real, hreal, hcaller⟩ := mem_flatMap.1 hcaller
    rw [mem_foldl_insertNew, or_iff_right not_mem_nil] at hmem
    obtain ⟨other, hother, hsame⟩ := mem_flatMap.1 hmem
    refine hdisjoint real hreal ?_
    rwa [← (mem_callersOf.1 hcaller).2, (mem_callersOf.1 hsame).2]
  have hkeys := foldl_insertNew_append hnew []
  rw [append_nil] at hkeys
  rw [filesOf, List.flatMap_append, List.foldl_append, hkeys, map_append]
  rfl

theorem filesOf_left {reals : List Text} (hleft : left.Nodup)
    (hreals : ∀ real ∈ reals, real ∈ left) :
    filesOf tables (left.flatMap (callersOf paths)) reals = filesOf tables paths reals := by
  rw [filesOf, flatMap_congr fun real hreal => callersOf_flatMap hleft (hreals real hreal)]
  rfl

theorem wholeFile_some {bytes : List UInt8} :
    wholeFile tables real = some bytes → isFile tables real = true := by
  intro hwhole
  unfold wholeFile at hwhole
  split at hwhole
  · cases hwhole
  next inode node hnode =>
    split at hwhole
    next htype =>
      rw [isFile, planOf, hnode]
      exact congrArg Option.isSome (if_pos htype)
    · cases hwhole

theorem wholeFile_isSome (hfile : isFile tables real = true) :
    ∃ bytes, wholeFile tables real = some bytes := by
  obtain ⟨entry, hplan⟩ := Option.isSome_iff_exists.1 hfile
  obtain ⟨node, hnode, htype, -⟩ := planOf_some hplan
  refine ⟨fileBytes tables entry.target.inode, ?_⟩
  rw [wholeFile, hnode]
  exact if_pos htype

/-- The files of all the paths are those that are asked for, whole. -/
theorem mem_filesOf {bytes : List UInt8} :
    (caller, bytes) ∈ filesOf tables paths ((canonicalOrder paths).filter (isFile tables)) ↔
      caller ∈ paths ∧ wholeFile tables (normalize caller) = some bytes := by
  rw [filesOf, mem_map]
  simp only [mem_foldl_insertNew, not_mem_nil, false_or, mem_flatMap, mem_filter,
    mem_callersOf]
  constructor
  · rintro ⟨other, ⟨real, ⟨-, hfile⟩, hother, hreal⟩, heq⟩
    obtain ⟨rfl, hbytes⟩ := Prod.mk.inj heq
    obtain ⟨whole, hwhole⟩ := wholeFile_isSome hfile
    rw [hreal, hwhole] at hbytes
    rw [hreal, hwhole, ← hbytes]
    exact ⟨hother, rfl⟩
  · rintro ⟨hcaller, hwhole⟩
    refine ⟨caller, ⟨normalize caller, ⟨mem_canonicalOrder.2 ⟨caller, hcaller, rfl⟩,
      wholeFile_some hwhole⟩, hcaller, rfl⟩, ?_⟩
    rw [entryOf, hwhole]
    rfl

theorem nodup_filesOf (reals : List Text) : ((filesOf tables paths reals).map Prod.fst).Nodup := by
  rw [filesOf, map_map]
  exact (map_id _).symm ▸ nodup_foldl_insertNew List.nodup_nil _

theorem rounds_exist (h : tables.Healthy) (hbudget : 0 < budget)
    (hunlinked : Unlinked tables (canonicalOrder paths)) :
    ∃ rounds, ReadRounds tables (budgetOf budget) paths rounds ∧
      (∀ round ∈ rounds, Partitions tables round.1 round.2) ∧
      rounds.flatMap (fun round => round.2.files) =
        filesOf tables paths ((canonicalOrder paths).filter (isFile tables)) := by
  induction hn : (canonicalOrder paths).length using Nat.strongRecOn generalizing paths with
  | ind n ih =>
    subst hn
    obtain ⟨batch, passed, left, hrun, horder, hprogress, hremaining, hfiles⟩ :=
      readFiles_ok h hbudget hunlinked
    have hnodup := nodup_canonicalOrder paths
    rw [horder] at hnodup
    obtain ⟨-, hleft, hdisjoint⟩ := List.nodup_append.1 hnodup
    have hpartition : Partitions tables paths batch := by
      refine ⟨passed, left, horder, ?_, hremaining, hfiles⟩
      rw [hremaining, ← List.flatMap_append, ← horder]
      exact perm_callersOf (nodup_canonicalOrder paths) fun caller hcaller =>
        mem_canonicalOrder.2 ⟨caller, hcaller, rfl⟩
    by_cases hempty : batch.remaining = []
    · have hnone : left = [] := by
        refine List.eq_nil_iff_forall_not_mem.2 fun real hreal => ?_
        obtain ⟨caller, hcaller, heq⟩ := mem_canonicalOrder.1
          (horder ▸ mem_append_right passed hreal)
        rw [hremaining, List.flatMap_eq_nil_iff] at hempty
        exact not_mem_nil (hempty real hreal ▸ mem_callersOf.2 ⟨hcaller, heq⟩)
      refine ⟨[(paths, batch)], .last hrun hempty, fun round hround => ?_, ?_⟩
      · rw [mem_singleton.1 hround]
        exact hpartition
      · rw [List.flatMap_singleton, hfiles, horder, hnone, append_nil]
    · have hnext : canonicalOrder batch.remaining = left := by
        rw [hremaining]
        exact canonicalOrder_flatMap hleft fun real hreal => horder ▸ mem_append_right _ hreal
      have hpassed : 0 < passed.length := by
        refine List.length_pos_of_ne_nil fun hnil => hempty ?_
        rw [hremaining, hprogress hnil]
        rfl
      obtain ⟨rounds, hrounds, hpartitions, hall⟩ := @ih (canonicalOrder batch.remaining).length
        (by rw [hnext, horder, List.length_append]; omega) batch.remaining
        (hunlinked.mono fun real hreal => by
          rw [horder]
          exact mem_append_right _ (hnext ▸ hreal)) rfl
      refine ⟨(paths, batch) :: rounds, .more hrun hempty hrounds, fun round hround => ?_, ?_⟩
      · obtain rfl | hround := mem_cons.1 hround
        · exact hpartition
        · exact hpartitions round hround
      · rw [flatMap_cons, hall, hfiles, hnext, hremaining, horder, filter_append,
          filesOf_left hleft fun real hreal => List.mem_of_mem_filter hreal, filesOf_append]
        intro real hreal hother
        exact hdisjoint real (List.mem_of_mem_filter hother) real (List.mem_of_mem_filter hreal) rfl

theorem ReadRounds.unique {options : ReadOptions} {rounds others : List (List Text × ReadBatch)}
    (h : ReadRounds tables options paths rounds) (hothers : ReadRounds tables options paths others) :
    others = rounds := by
  induction h generalizing others with
  | last hrun hempty =>
    cases hothers with
    | last hrun' _ => rw [Except.ok.inj (hrun'.symm.trans hrun)]
    | more hrun' hleft => exact absurd (Except.ok.inj (hrun'.symm.trans hrun) ▸ hempty) hleft
  | more hrun hleft hrounds ih =>
    cases hothers with
    | last hrun' hempty => exact absurd (Except.ok.inj (hrun'.symm.trans hrun) ▸ hempty) hleft
    | more hrun' _ hothers =>
      obtain rfl := Except.ok.inj (hrun'.symm.trans hrun)
      rw [ih hothers]

end Call

/-- Read again with what is left, calls come to an end.  Together they deliver every regular file
    that is asked for once, whole, in the order in which the files are asked for first; each call
    hands back the paths that it has not passed. -/
theorem readFiles_rounds {tables : FsTables} (h : tables.Healthy) (paths : List Text) {budget : Nat}
    (hbudget : 0 < budget) (hunlinked : Unlinked tables (canonicalOrder paths)) :
    ∃ rounds, ReadRounds tables (budgetOf budget) paths rounds ∧
      (∀ others, ReadRounds tables (budgetOf budget) paths others → others = rounds) ∧
      (∀ round ∈ rounds, Partitions tables round.1 round.2) ∧
      rounds.flatMap (fun round => round.2.files) =
        filesOf tables paths ((canonicalOrder paths).filter (isFile tables)) ∧
      ((rounds.flatMap fun round => round.2.files).map Prod.fst).Nodup ∧
      ∀ caller bytes, (caller, bytes) ∈ rounds.flatMap (fun round => round.2.files) ↔
        caller ∈ paths ∧ wholeFile tables (normalize caller) = some bytes := by
  obtain ⟨rounds, hrounds, hpartitions, hall⟩ := rounds_exist h hbudget hunlinked
  refine ⟨rounds, hrounds, fun others hothers => hrounds.unique hothers, hpartitions, hall, ?_, ?_⟩
  · rw [hall]
    exact nodup_filesOf _
  · intro caller bytes
    rw [hall]
    exact mem_filesOf

def directoryNode : FsNode :=
  { type := .dir, mode := 0o755, mtime := 0, size := 0, rev := 0, nlink := 1, linkTarget := none
    contentId := none }

def fileNode (size : Nat) : FsNode :=
  { type := .file, mode := 0o644, mtime := 0, size, rev := 0, nlink := 1, linkTarget := none
    contentId := none }

/-- A root with one file of two bytes. -/
def oneFile : FsTables where
  rev := 0
  nextInode := 3
  nodes := { rows := [(1, directoryNode), (2, fileNode 2)], unique := by decide }
  paths :=
    { rows := [(text "/", { parent := [], inode := 1 }), (text "/a", { parent := text "/", inode := 2 })]
      unique := by decide }
  chunks := { rows := [((2, 0), [7, 8])], unique := by decide }

theorem oneFile_stores : oneFile.Stores 2 [7, 8] := by
  intro index
  cases index with
  | zero =>
    rw [Nat.zero_mul, if_pos (by decide), slice, Nat.zero_mul, List.drop_zero,
      List.take_of_length_le (by rw [chunkSize]; decide)]
    rfl
  | succ index =>
    rw [if_neg (by rw [Nat.succ_mul, chunkSize]; exact Nat.not_lt.2 (Nat.le_add_left_of_le (by decide)))]
    exact KeyTable.get_eq_none.2 (by simp [oneFile])

theorem oneFile_healthy : oneFile.Healthy := by
  have hnodes : ∀ inode node, oneFile.nodes.get inode = some node →
      (inode = 1 ∧ node = directoryNode) ∨ (inode = 2 ∧ node = fileNode 2) := by
    intro inode node hnode
    simpa [oneFile] using KeyTable.mem_rows.2 hnode
  refine ⟨fun path inode node hnode htype => ?_, fun path inode node hnode => ?_⟩
  · obtain ⟨rfl, rfl⟩ | ⟨rfl, rfl⟩ := hnodes inode node (nodes_get hnode)
    · cases htype
    · exact ⟨[7, 8], oneFile_stores, rfl⟩
  · obtain ⟨-, rfl⟩ | ⟨-, rfl⟩ := hnodes inode node (nodes_get hnode) <;> decide

theorem oneFile_unlinked (reals : List Text) : Unlinked oneFile reals := by
  have hpaths : ∀ {real inode node}, oneFile.nodeAt real = some (inode, node) → node.type = .file →
      real = text "/a" := by
    intro real inode node hnode htype
    obtain ⟨entry, hentry, hjoin⟩ := Option.bind_eq_some_iff.1 hnode
    have hrow : real = text "/" ∧ entry = { parent := [], inode := 1 } ∨
        real = text "/a" ∧ entry = { parent := text "/", inode := 2 } := by
      simpa [oneFile] using KeyTable.mem_rows.2 hentry
    obtain ⟨rfl, rfl⟩ | ⟨rfl, -⟩ := hrow
    · obtain rfl := (Prod.mk.inj (Option.some.inj hjoin)).2
      cases htype
    · rfl
  intro real _ other _ inode node hreal hother htype _
  rw [hpaths hreal htype, hpaths hother htype]

theorem oneFile_rounds : ∃ rounds,
    ReadRounds oneFile (budgetOf 1) [text "/a", text "/", text "/a/"] rounds := by
  obtain ⟨rounds, hrounds, -⟩ := @readFiles_rounds oneFile oneFile_healthy
    [text "/a", text "/", text "/a/"] 1 Nat.one_pos (oneFile_unlinked _)
  exact ⟨rounds, hrounds⟩

/-- A path that names no file is neither delivered nor handed back. -/
theorem missing_neither_delivered_nor_left : ∃ tables paths batch, FsTables.Healthy tables ∧
    readFiles tables paths (budgetOf 1) = .ok batch ∧
    ¬ paths.Perm (batch.files.map Prod.fst ++ batch.remaining) :=
  ⟨oneFile, [text "/missing"], { files := [], remaining := [] }, oneFile_healthy, by decide +kernel,
    by decide +kernel⟩

end Kompjutr.Fs
