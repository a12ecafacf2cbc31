/-
  Kompjutr.Fs.ResolveSound

  What path resolution promises: it ends after at most `maxFollows` links, what it
  resolves inside a root stays inside it, and the fast path and the shared first lookup
  answer what a component-by-component walk of the path alone answers.

  It keeps all of this exactly for the walks of `staysInside`: those none of whose plans
  climbs above their root.
-/
import Kompjutr.Fs.ResolveRounds

namespace Kompjutr.Fs

open Objects (Text text)
open List (append_nil mem_append mem_cons mem_cons_of_mem mem_cons_self mem_singleton prefix_rfl)

-- The fast path

section Fast

variable {get : Text → Option NodeRow} {path : Text} {followFinal : Bool}
  {confine : Option Confine} {callerTail : Nat} {base rest : List Text} {missing : Option Text}

theorem plain_not_skip {component : Text} (h : isPlain component = true) :
    ¬ (component = [] || component = text ".") = true ∧ component ≠ text ".." := by
  obtain ⟨hnil, hdot, hdots⟩ := isPlain_iff.1 h
  exact ⟨by simp [hnil, hdot], hdots⟩

theorem head_prefixPaths : ∃ more, prefixPaths base rest = pathOf base :: more := by
  cases rest with
  | nil => exact ⟨[], rfl⟩
  | cons part rest => exact ⟨_, rfl⟩

/-- One turn of both loops over a canonical path. -/
theorem followsSymlink_cons {part : Text} :
    followsSymlink path followFinal get (prefixPaths base (part :: rest)) =
      if notDirectory (get (pathOf base)) then .error (enotdir path)
      else if isSymlink (get (pathOf (base ++ [part]))) && (followFinal || rest ≠ []) then .ok true
      else followsSymlink path followFinal get (prefixPaths (base ++ [part]) rest) := by
  rw [prefixPaths]
  cases rest with
  | nil => simp [prefixPaths, followsSymlink]
  | cons next rest =>
    obtain ⟨more, hmore⟩ := @head_prefixPaths (base ++ [part] ++ [next]) rest
    rw [prefixPaths, followsSymlink, hmore]
    simp

theorem walkPending_plain {part : Text} (hpart : isPlain part = true) :
    walkPending get path followFinal confine callerTail base missing (part :: rest) =
      if notDirectory (get (pathOf base)) then .failed (enotdir path)
      else if isSymlink (get (pathOf (base ++ [part]))) && (followFinal || rest ≠ []) then
        .link base (((get (pathOf (base ++ [part]))).bind (·.linkTarget)).getD []) rest
      else
        walkPending get path followFinal confine callerTail (base ++ [part])
          (if get (pathOf (base ++ [part])) = none && missing = none then
            some (pathOf (base ++ [part])) else missing) rest := by
  obtain ⟨hskip, hdots⟩ := plain_not_skip hpart
  rw [walkPending_cons]
  unfold walkComponent walkDown
  rw [if_neg hskip, if_neg hdots]
  by_cases hdir : notDirectory (get (pathOf base)) = true
  · rw [if_pos hdir, if_pos hdir]
  rw [if_neg hdir, if_neg hdir]
  by_cases hlink : (isSymlink (get (pathOf (base ++ [part]))) &&
      (followFinal || rest ≠ [])) = true
  · rw [if_pos hlink, if_pos hlink]
  · rw [if_neg hlink, if_neg hlink]

/-- What the fast path finds is what the walk finds. -/
theorem followsSymlink_walk (hplain : ∀ part ∈ rest, isPlain part = true) :
    match followsSymlink path followFinal get (prefixPaths base rest) with
    | .error error =>
      walkPending get path followFinal confine callerTail base missing rest = .failed error
    | .ok false =>
      walkPending get path followFinal confine callerTail base missing rest =
        .arrived (base ++ rest)
    | .ok true => True := by
  induction rest generalizing base missing with
  | nil =>
    show walkPending _ _ _ _ _ _ _ _ = _
    rw [append_nil]
    rfl
  | cons part rest ih =>
    rw [followsSymlink_cons, walkPending_plain (hplain part mem_cons_self)]
    by_cases hdir : notDirectory (get (pathOf base)) = true
    · rw [if_pos hdir, if_pos hdir]
    rw [if_neg hdir, if_neg hdir]
    by_cases hlink : (isSymlink (get (pathOf (base ++ [part]))) &&
        (followFinal || rest ≠ [])) = true
    · rw [if_pos hlink]
      trivial
    · rw [if_neg hlink, if_neg hlink]
      have := @ih (base ++ [part]) (if get (pathOf (base ++ [part])) = none && missing = none then
        some (pathOf (base ++ [part])) else missing)
        fun other hother => hplain other (mem_cons_of_mem _ hother)
      rwa [List.append_assoc, List.singleton_append] at this

theorem climbs_plain {depth : Nat} (hplain : ∀ part ∈ rest, isPlain part = true) :
    climbs depth base rest = false := by
  induction rest generalizing base with
  | nil => rfl
  | cons part rest ih =>
    obtain ⟨hskip, hdots⟩ := plain_not_skip (hplain part mem_cons_self)
    rw [climbs, if_neg hskip, if_neg hdots]
    exact ih fun other hother => hplain other (mem_cons_of_mem _ hother)

theorem planNames_plain (hplain : ∀ part ∈ rest, isPlain part = true) :
    ∀ name ∈ planNames base rest, name ∈ prefixPaths base rest := by
  induction rest generalizing base with
  | nil => exact nofun
  | cons part rest ih =>
    intro name hname
    obtain ⟨hskip, hdots⟩ := plain_not_skip (hplain part mem_cons_self)
    rw [planNames, if_neg hskip, if_neg hdots, mem_cons, mem_cons] at hname
    rw [prefixPaths, mem_cons]
    rcases hname with hname | hname | hname
    · exact .inl hname
    · obtain ⟨more, hmore⟩ := @head_prefixPaths (base ++ [part]) rest
      rw [hmore, hname]
      exact .inr mem_cons_self
    · exact .inr (ih (fun other hother => hplain other (mem_cons_of_mem _ hother)) name hname)

theorem prefixPaths_inside {root : List Text} (hroot : root <+: base) :
    ∀ name ∈ prefixPaths base rest, isUnder name (pathOf root) = true := by
  induction rest generalizing base with
  | nil =>
    intro name hname
    obtain rfl := mem_singleton.1 hname
    exact isUnder_pathOf hroot
  | cons part rest ih =>
    intro name hname
    rw [prefixPaths, mem_cons] at hname
    obtain rfl | hname := hname
    · exact isUnder_pathOf hroot
    · exact ih (hroot.trans (List.prefix_append _ _)) name hname

end Fast

-- One walk

/-- The callers' promise: a root is a canonical path. -/
def Walk.RootOk (walk : Walk) : Prop := ∀ root, walk.root = some root → isCanonicalPath root = true

section One

variable {store : Store} {walk : Walk} {followFinal : Bool} {initialNodes : Option Nodes}

/-- A canonical path that starts under its root: its prefixes and its components. -/
theorem walkStart_canonical (hroot : walk.RootOk) (hpath : isCanonicalPath walk.path = true)
    (hunder : startsUnder walk = true) :
    walkPrefixes walk = prefixPaths (walkStart walk).1 (walkStart walk).2.1 ∧
      pathOf ((walkStart walk).1 ++ (walkStart walk).2.1) = walk.path ∧
      ∀ part ∈ (walkStart walk).2.1, isPlain part = true := by
  obtain ⟨hpathOf, hplain⟩ := componentsOf_canonical hpath
  obtain ⟨path, root, top⟩ := walk
  cases root with
  | none => exact ⟨prefixesOf_canonical hpath, hpathOf, hplain⟩
  | some root =>
    have hparts := componentsOf_under (hroot root rfl) hpath hunder
    have hdrop := drop_prefixPaths [] (componentsOf root) (componentsOf (path.drop root.length))
    refine ⟨?_, ?_, fun part hpart => hplain part ?_⟩
    · show (prefixesOf path).drop (rootDepth root) = _
      rw [prefixesOf_canonical hpath, rootDepth_eq]
      dsimp only at hparts
      rw [hparts, hdrop]
      rfl
    · show pathOf (componentsOf root ++ componentsOf (path.drop root.length)) = path
      rw [← hparts]
      exact hpathOf
    · dsimp only at hparts ⊢
      rw [hparts]
      exact List.mem_append_right _ hpart

/-- Where a walk starts in its root, and how deep the root lies. -/
theorem walkStart_root {root : Text} (hwalk : walk.root = some root)
    (hroot : walk.RootOk) :
    pathOf (walkStart walk).1 = root ∧ (∀ part ∈ (walkStart walk).1, isPlain part = true) ∧
      (walkStart walk).2.2 = some ⟨(walkStart walk).1.length, walk.top⟩ := by
  obtain ⟨hpathOf, hplain⟩ := componentsOf_canonical (hroot root hwalk)
  unfold walkStart
  rw [hwalk]
  dsimp only
  rw [rootDepth_eq]
  exact ⟨hpathOf, hplain, rfl⟩

/-- The candidates of a walk hold every name of its first plan. -/
theorem planNames_candidates (hroot : walk.RootOk) (hunder : startsUnder walk = true) :
    ∀ name ∈ planNames (walkStart walk).1 (walkStart walk).2.1, name ∈ candidatesOf walk := by
  intro name hname
  unfold candidatesOf
  split
  · rename_i hpath
    obtain ⟨hprefixes, -, hplain⟩ := walkStart_canonical hroot hpath hunder
    rw [hprefixes]
    exact planNames_plain hplain name hname
  · exact mem_plannedPaths.2 (.inr hname)

/-- What `resolveWalk` comes to for a path that it walks. -/
inductive Resolved (store : Store) (walk : Walk) (followFinal : Bool)
    (initialNodes : Option Nodes) : Asked Resolution → Prop
  /-- A path that is not canonical is walked at once. -/
  | walked (hpath : isCanonicalPath walk.path = false) :
      Resolved store walk followFinal initialNodes
        (resolveFrom store walk followFinal initialNodes)
  /-- The fast path answers, as the walk over the same rows would. -/
  | fast (hpath : isCanonicalPath walk.path = true) {nodes : Nodes}
      (hnodes : RowsAgree store initialNodes (candidatesOf walk) →
        ∀ name ∈ candidatesOf walk, nodes.get name = store name)
      {result : Except FsError Resolution}
      (hend : roundEnd walk.path (walkStart walk).2.2 (walkStart walk).2.1.length maxFollows
        (walkPending nodes.get walk.path followFinal (walkStart walk).2.2
          (walkStart walk).2.1.length (walkStart walk).1 none (walkStart walk).2.1) =
            .done result)
      (hreal : ∀ real, result = .ok (.real real) → real = walk.path) :
      Resolved store walk followFinal initialNodes
        ⟨if initialNodes = none then [candidatesOf walk] else [], result⟩
  /-- A link is met, and the walk reads the rows of the fast path. -/
  | met (hpath : isCanonicalPath walk.path = true) {nodes : Nodes}
      (hnodes : RowsAgree store initialNodes (candidatesOf walk) →
        ∀ name ∈ candidatesOf walk, nodes.get name = store name) :
      Resolved store walk followFinal initialNodes
        ⟨(if initialNodes = none then [candidatesOf walk] else []) ++
            (resolveFrom store walk followFinal (some nodes)).lookups,
          (resolveFrom store walk followFinal (some nodes)).result⟩

theorem resolveWalk_cases {answer : Asked Resolution} (hroot : walk.RootOk)
    (hform : Utf8.WellFormed walk.path) (hunder : startsUnder walk = true)
    (h : resolveWalk store walk followFinal initialNodes = answer) :
    Resolved store walk followFinal initialNodes answer := by
  subst h
  unfold resolveWalk
  rw [if_neg (not_not_intro hform), hunder, Bool.not_true, if_neg Bool.false_ne_true]
  split
  · rename_i hpath
    obtain ⟨hprefixes, hpathOf, hplain⟩ := walkStart_canonical hroot hpath hunder
    have hcandidates : candidatesOf walk = walkPrefixes walk := if_pos hpath
    obtain ⟨nodes, hround, hget⟩ := @roundNodes_ok store initialNodes (candidatesOf walk)
    have hnodes := fun hrows => hget (candidatesOf walk) hrows fun _ hname => hname
    rw [← hcandidates, hround]
    dsimp only [Asked.bind]
    have hfast := @followsSymlink_walk nodes.get walk.path followFinal (walkStart walk).2.2
      (walkStart walk).2.1.length (walkStart walk).1 (walkStart walk).2.1 none hplain
    rw [← hprefixes, ← hcandidates] at hfast
    cases hlinks : followsSymlink walk.path followFinal nodes.get (candidatesOf walk) with
    | error error =>
      rw [hlinks] at hfast
      show Resolved store walk followFinal initialNodes ⟨_ ++ [], .error error⟩
      rw [append_nil]
      exact .fast hpath hnodes (by rw [hfast]; rfl) nofun
    | ok links =>
      rw [hlinks] at hfast
      cases links with
      | false =>
        show Resolved store walk followFinal initialNodes ⟨_ ++ [], .ok (.real walk.path)⟩
        rw [append_nil]
        refine .fast hpath hnodes (by rw [hfast, roundEnd, hpathOf]) fun real hreal => ?_
        exact (Resolution.real.inj (Except.ok.inj hreal)).symm
      | true => exact .met hpath hnodes
  · rename_i hpath
    exact .walked (Bool.not_eq_true _ ▸ hpath)

theorem plainWalk_eq (hform : Utf8.WellFormed walk.path) (hunder : startsUnder walk = true) :
    plainWalk store walk followFinal =
      follow store walk.path followFinal (walkStart walk).2.2 maxFollows (walkStart walk).1
        (walkStart walk).2.1 (walkStart walk).2.1.length := by
  unfold plainWalk
  rw [if_neg (not_not_intro hform), hunder, Bool.not_true, if_neg Bool.false_ne_true]

/-- A walk that is refused, or that starts outside its root, looks nothing up. -/
theorem resolveWalk_refused (h : ¬ (Utf8.WellFormed walk.path ∧ startsUnder walk = true)) :
    resolveWalk store walk followFinal initialNodes = ⟨[], plainWalk store walk followFinal⟩ ∧
      ∀ real, plainWalk store walk followFinal ≠ .ok (.real real) := by
  unfold resolveWalk plainWalk
  by_cases hform : Utf8.WellFormed walk.path
  · have hunder : startsUnder walk = false := by
      rw [← Bool.not_eq_true]
      exact fun hunder => h ⟨hform, hunder⟩
    rw [if_neg (not_not_intro hform), hunder, Bool.not_false, if_pos rfl,
      if_neg (not_not_intro hform), if_pos rfl]
    exact ⟨rfl, fun real => nofun⟩
  · rw [if_pos hform, if_pos hform]
    exact ⟨rfl, fun real => nofun⟩

/-- The condition under which a walk, top of its namespace or not, answers as the plain one. -/
def answersPlain (store : Store) (walk : Walk) (followFinal : Bool) : Prop :=
  walk.top = false ∨ staysInside store walk followFinal = true

theorem staysInside_limit {limit : Confine} (hform : Utf8.WellFormed walk.path)
    (hunder : startsUnder walk = true) (hlimit : (walkStart walk).2.2 = some limit) :
    staysInside store walk followFinal =
      plansInside store walk.path followFinal limit maxFollows (walkStart walk).1
        (walkStart walk).2.1 (walkStart walk).2.1.length := by
  unfold staysInside
  rw [hlimit]
  simp [hform, hunder]

/-- One walk answers as the plain walk does. -/
theorem result_resolveWalk (hroot : walk.RootOk)
    (hrows : RowsAgree store initialNodes (groupCandidates walk))
    (hstays : answersPlain store walk followFinal) :
    (resolveWalk store walk followFinal initialNodes).result =
      plainWalk store walk followFinal := by
  by_cases hwalk : Utf8.WellFormed walk.path ∧ startsUnder walk = true
  swap
  · rw [(resolveWalk_refused hwalk).1]
  obtain ⟨hform, hunder⟩ := hwalk
  rw [groupCandidates, if_pos hunder] at hrows
  have hsub := planNames_candidates hroot hunder
  have hrounds : ∀ initial, RowsAgree store initial (candidatesOf walk) →
      (resolveFrom store walk followFinal initial).result = plainWalk store walk followFinal := by
    intro initial hinitial
    rw [plainWalk_eq hform hunder]
    refine result_resolveRounds (fun nodes hnodes name hname => hinitial nodes hnodes name
      (hsub name hname)) fun limit hlimit htop => ?_
    rw [← staysInside_limit hform hunder hlimit]
    refine hstays.resolve_left fun hnot => ?_
    cases hroot' : walk.root with
    | none =>
      unfold walkStart at hlimit
      rw [hroot'] at hlimit
      cases hlimit
    | some root =>
      obtain ⟨-, -, hsome⟩ := walkStart_root hroot' hroot
      rw [hlimit] at hsome
      cases hsome
      rw [hnot] at htop
      cases htop
  generalize hanswer : resolveWalk store walk followFinal initialNodes = answer
  cases resolveWalk_cases hroot hform hunder hanswer with
  | walked => exact hrounds initialNodes hrows
  | met _ hnodes =>
    refine hrounds _ fun nodes hsome => ?_
    cases hsome
    exact hnodes hrows
  | fast hpath hnodes hend _ =>
    obtain ⟨-, -, hplain⟩ := walkStart_canonical hroot hpath hunder
    rw [plainWalk_eq hform hunder]
    refine (follow_done ?_).symm
    rw [← hend]
    congr 1
    exact (walkPending_congr (fun name hname => hnodes hrows name (hsub name hname))
      fun limit _ _ => climbs_plain hplain).symm

/-- What one walk resolves to lies inside its root. -/
theorem real_resolveWalk {root real : Text} (hwalk : walk.root = some root) (hroot : walk.RootOk)
    (h : (resolveWalk store walk followFinal initialNodes).result = .ok (.real real)) :
    isUnder real root = true := by
  by_cases hstart : Utf8.WellFormed walk.path ∧ startsUnder walk = true
  swap
  · obtain ⟨heq, hnot⟩ := @resolveWalk_refused store walk followFinal initialNodes hstart
    rw [heq] at h
    exact absurd h (hnot real)
  obtain ⟨hform, hunder⟩ := hstart
  obtain ⟨hbase, -, hlimit⟩ := walkStart_root hwalk hroot
  have hrounds : ∀ initial, (resolveFrom store walk followFinal initial).result =
      .ok (.real real) → isUnder real root = true := by
    intro initial hinitial
    rw [resolveFrom, hlimit] at hinitial
    rw [← hbase]
    exact real_resolveRounds rfl prefix_rfl hinitial
  generalize hanswer : resolveWalk store walk followFinal initialNodes = answer at h
  cases resolveWalk_cases hroot hform hunder hanswer with
  | walked => exact hrounds initialNodes h
  | met => exact hrounds _ h
  | fast _ _ _ hreal =>
    rw [hreal real h]
    unfold startsUnder at hunder
    rw [hwalk] at hunder
    exact hunder

/-- One walk follows at most `maxFollows` links. -/
theorem length_resolveWalk (hroot : walk.RootOk) :
    (resolveWalk store walk followFinal none).lookups.length ≤ maxFollows + 1 := by
  by_cases hstart : Utf8.WellFormed walk.path ∧ startsUnder walk = true
  swap
  · rw [(resolveWalk_refused hstart).1]
    exact Nat.zero_le _
  generalize hanswer : resolveWalk store walk followFinal none = answer
  cases resolveWalk_cases hroot hstart.1 hstart.2 hanswer with
  | walked => exact length_resolveRounds
  | fast => exact Nat.le_add_left _ _
  | met =>
    rw [List.length_append, if_pos rfl, List.length_singleton, Nat.add_comm]
    exact Nat.succ_le_succ length_resolveRounds

/-- The candidates of a walk whose plans stay inside its root lie inside it. -/
theorem candidates_inside {root : Text} (hwalk : walk.root = some root) (hroot : walk.RootOk)
    (hform : Utf8.WellFormed walk.path) (hunder : startsUnder walk = true)
    (hstays : staysInside store walk followFinal = true) :
    ∀ name ∈ candidatesOf walk, isUnder name root = true := by
  obtain ⟨hbase, -, hlimit⟩ := walkStart_root hwalk hroot
  rw [staysInside_limit hform hunder hlimit] at hstays
  intro name hname
  rw [← hbase]
  unfold candidatesOf at hname
  split at hname
  · rename_i hpath
    rw [(walkStart_canonical hroot hpath hunder).1] at hname
    exact prefixPaths_inside prefix_rfl name hname
  · obtain rfl | hname := mem_plannedPaths.1 hname
    · exact isUnder_pathOf prefix_rfl
    · exact planNames_inside prefix_rfl (plansInside_climbs hstays) hname

/-- A walk whose plans stay inside its root looks up no name outside it. -/
theorem resolveWalk_inside {root : Text} (hwalk : walk.root = some root) (hroot : walk.RootOk)
    (hrows : RowsAgree store initialNodes (groupCandidates walk))
    (hstays : staysInside store walk followFinal = true) :
    ∀ names ∈ (resolveWalk store walk followFinal initialNodes).lookups,
      ∀ name ∈ names, isUnder name root = true := by
  by_cases hstart : Utf8.WellFormed walk.path ∧ startsUnder walk = true
  swap
  · rw [(resolveWalk_refused hstart).1]
    exact nofun
  obtain ⟨hform, hunder⟩ := hstart
  obtain ⟨hbase, -, hlimit⟩ := walkStart_root hwalk hroot
  rw [groupCandidates, if_pos hunder] at hrows
  have hinside := candidates_inside hwalk hroot hform hunder hstays
  have hsub := planNames_candidates hroot hunder
  rw [staysInside_limit hform hunder hlimit] at hstays
  have hrounds : ∀ initial, RowsAgree store initial (candidatesOf walk) →
      ∀ names ∈ (resolveFrom store walk followFinal initial).lookups,
        ∀ name ∈ names, isUnder name root = true := by
    intro initial hinitial
    rw [resolveFrom, hlimit, ← hbase]
    exact lookups_inside rfl prefix_rfl (fun nodes hnodes name hname =>
      hinitial nodes hnodes name (hsub name hname)) hstays
  have hfirst : ∀ names ∈ if initialNodes = none then [candidatesOf walk] else [],
      ∀ name ∈ names, isUnder name root = true := by
    intro names hnames
    split at hnames
    · obtain rfl := mem_singleton.1 hnames
      exact hinside
    · cases hnames
  generalize hanswer : resolveWalk store walk followFinal initialNodes = answer
  cases resolveWalk_cases hroot hform hunder hanswer with
  | walked => exact hrounds initialNodes hrows
  | fast => exact hfirst
  | met _ hnodes =>
    intro names hnames
    rcases mem_append.1 hnames with hnames | hnames
    · exact hfirst names hnames
    · refine hrounds _ (fun nodes hsome => ?_) names hnames
      cases hsome
      exact hnodes hrows

/-- A walk one of whose plans climbs above its root looks up a name outside it. -/
theorem resolveWalk_outside (hroot : walk.RootOk)
    (hstays : staysInside store walk followFinal = false) :
    ∃ root, walk.root = some root ∧
      ∃ names ∈ (resolveWalk store walk followFinal none).lookups,
        ∃ name ∈ names, isUnder name root = false := by
  cases hwalk : walk.root with
  | none =>
    unfold staysInside walkStart at hstays
    rw [hwalk] at hstays
    cases hstays
  | some root =>
    refine ⟨root, rfl, ?_⟩
    obtain ⟨hbase, hplain, hlimit⟩ := walkStart_root hwalk hroot
    have hstart : Utf8.WellFormed walk.path ∧ startsUnder walk = true := by
      unfold staysInside at hstays
      rw [hlimit] at hstays
      simp only [Bool.or_eq_false_iff, Bool.not_eq_false'] at hstays
      exact ⟨of_decide_eq_true hstays.1.1, hstays.1.2⟩
    obtain ⟨hform, hunder⟩ := hstart
    have hsub := planNames_candidates hroot hunder
    rw [staysInside_limit hform hunder hlimit] at hstays
    have hrounds : ∀ initial, RowsAgree store initial (candidatesOf walk) →
        (initial ≠ none → isCanonicalPath walk.path = true) →
        ∃ names ∈ (resolveFrom store walk followFinal initial).lookups,
          ∃ name ∈ names, isUnder name root = false := by
      intro initial hinitial hcanonical
      rw [resolveFrom, hlimit, ← hbase]
      refine lookups_outside hplain rfl prefix_rfl (fun nodes hnodes name hname =>
        hinitial nodes hnodes name (hsub name hname)) (fun hne => ?_) hstays
      exact climbs_plain (walkStart_canonical hroot (hcanonical hne) hunder).2.2
    generalize hanswer : resolveWalk store walk followFinal none = answer
    cases resolveWalk_cases hroot hform hunder hanswer with
    | walked => exact hrounds none rowsAgree_none fun hne => absurd rfl hne
    | met hpath hnodes =>
      obtain ⟨names, hnames, hout⟩ := hrounds _ (fun nodes hsome => by
        obtain rfl := Option.some.inj hsome
        exact hnodes rowsAgree_none) fun _ => hpath
      exact ⟨names, List.mem_append_right _ hnames, hout⟩
    | fast hpath hnodes hend _ =>
      -- the plain walk answers in its first round, whose plan takes no `..`
      have hplainPath := (walkStart_canonical hroot hpath hunder).2.2
      have hsame : walkPending _ walk.path followFinal (walkStart walk).2.2
          (walkStart walk).2.1.length (walkStart walk).1 none (walkStart walk).2.1 = _ :=
        walkPending_congr (fun name hname => hnodes rowsAgree_none name (hsub name hname))
          fun limit _ _ => climbs_plain hplainPath
      rw [hsame, hlimit] at hend
      rw [plansInside.eq_def, climbs_plain hplainPath, hend] at hstays
      cases hstays

end One

-- Many walks

section Many

variable {store : Store} {followFinal : Bool}

/-- A name that one of the walks may look up. -/
def Allowed (walks : List Walk) (name : Text) : Prop :=
  ∃ walk ∈ walks, ∀ root, walk.root = some root → isUnder name root = true

/-- What a part of a batch comes to: values that keep a promise, errors that are those of one of
    the walks alone, and lookups of names that these may look up. -/
structure Sound {α : Type} (store : Store) (followFinal : Bool) (walks : List Walk)
    (Promise : α → Prop) (asked : Asked α) : Prop where
  ok : ∀ value, asked.result = .ok value → Promise value
  error : ∀ error, asked.result = .error error →
    ∃ walk ∈ walks, plainWalk store walk followFinal = .error error
  lookups : ∀ names ∈ asked.lookups, ∀ name ∈ names, Allowed walks name

theorem Sound.pure {α : Type} {walks : List Walk} {Promise : α → Prop} {value : α}
    (h : Promise value) : Sound store followFinal walks Promise (.ok value) where
  ok := by
    intro value' hvalue
    cases hvalue
    exact h
  error := nofun
  lookups := nofun

theorem Sound.bind {α β : Type} {walks : List Walk} {First : α → Prop} {Promise : β → Prop}
    {asked : Asked α} {next : α → Asked β} (h : Sound store followFinal walks First asked)
    (hnext : ∀ value, First value → Sound store followFinal walks Promise (next value)) :
    Sound store followFinal walks Promise (asked.bind next) := by
  unfold Asked.bind
  cases hresult : asked.result with
  | error error =>
    refine ⟨nofun, fun other hother => h.error other ?_, h.lookups⟩
    obtain rfl := Except.error.inj hother
    exact hresult
  | ok value =>
    have hrest := hnext value (h.ok value hresult)
    refine ⟨hrest.ok, hrest.error, fun names hnames => ?_⟩
    rcases mem_append.1 hnames with hnames | hnames
    · exact h.lookups names hnames
    · exact hrest.lookups names hnames

/-- Results in the order of their walks. -/
def Answers (store : Store) (followFinal : Bool) : List Walk → List Resolution → Prop :=
  List.Forall₂ fun walk resolved => plainWalk store walk followFinal = .ok resolved

variable {walks : List Walk}
  (hwalks : ∀ walk ∈ walks, walk.RootOk ∧ staysInside store walk followFinal = true)

include hwalks

theorem sound_resolveWalk {walk : Walk} {nodes : Nodes} (hwalk : walk ∈ walks)
    (hrows : ∀ name ∈ groupCandidates walk, nodes.get name = store name) :
    Sound store followFinal walks (fun resolved => plainWalk store walk followFinal = .ok resolved)
      (resolveWalk store walk followFinal (some nodes)) := by
  obtain ⟨hroot, hstays⟩ := hwalks walk hwalk
  have hagree : RowsAgree store (some nodes) (groupCandidates walk) := by
    intro other hother
    cases hother
    exact hrows
  have hresult := result_resolveWalk hroot hagree (.inr hstays)
  refine ⟨fun value hvalue => hresult ▸ hvalue, fun error herror => ⟨walk, hwalk, hresult ▸ herror⟩,
    fun names hnames name hname => ⟨walk, hwalk, fun root hsome => ?_⟩⟩
  exact resolveWalk_inside hsome hroot hagree hstays names hnames name hname

theorem sound_resolveGroup {nodes : Nodes} {group : List Walk} (hgroup : ∀ walk ∈ group, walk ∈ walks)
    (hrows : ∀ walk ∈ group, ∀ name ∈ groupCandidates walk, nodes.get name = store name) :
    Sound store followFinal walks (Answers store followFinal group)
      (resolveGroup store followFinal nodes group) := by
  induction group with
  | nil => exact .pure .nil
  | cons walk group ih =>
    rw [resolveGroup]
    refine .bind (sound_resolveWalk hwalks (hgroup walk mem_cons_self)
      (hrows walk mem_cons_self)) fun resolved hresolved => ?_
    refine .bind (ih (fun other hother => hgroup other (mem_cons_of_mem _ hother))
      fun other hother => hrows other (mem_cons_of_mem _ hother)) fun rest hrest => ?_
    exact .pure (.cons hresolved hrest)

/-- What `resolveMany` has gathered after the walks `seen`. -/
structure GatheredOk (store : Store) (followFinal : Bool) (walks seen : List Walk)
    (gathered : Gathered) : Prop where
  answers : ∃ done, seen = done ++ gathered.group ∧ Answers store followFinal done gathered.out
  planned : ∀ walk ∈ gathered.group, ∀ name ∈ groupCandidates walk, name ∈ gathered.planned
  allowed : ∀ name ∈ gathered.planned, Allowed walks name

variable {gathered : Gathered} {seen : List Walk}

theorem sound_flush (hseen : ∀ walk ∈ seen, walk ∈ walks)
    (h : GatheredOk store followFinal walks seen gathered) :
    Sound store followFinal walks (fun gathered =>
        gathered.group = [] ∧ GatheredOk store followFinal walks seen gathered)
      (flush store followFinal gathered) := by
  unfold flush
  split
  · rename_i hgroup
    exact .pure ⟨hgroup, h⟩
  · obtain ⟨done, hdone, hout⟩ := h.answers
    have hnodes : Sound store followFinal walks (fun nodes => nodes = rowsOf store gathered.planned)
        (nodesOn store gathered.planned) := by
      refine ⟨fun nodes hok => (Except.ok.inj hok).symm, nofun, fun names hnames => ?_⟩
      obtain rfl := mem_singleton.1 hnames
      exact h.allowed
    refine .bind hnodes fun nodes hrows => ?_
    subst hrows
    have hgroup : ∀ walk ∈ gathered.group, walk ∈ walks :=
      fun walk hwalk => hseen walk (hdone ▸ List.mem_append_right _ hwalk)
    refine .bind (sound_resolveGroup hwalks hgroup fun walk hwalk name hname =>
      get_rowsOf store (h.planned walk hwalk name hname)) fun resolved hresolved => ?_
    exact .pure ⟨rfl, ⟨seen, (append_nil _).symm, hdone ▸ List.rel_append hout hresolved⟩,
      nofun, nofun⟩

omit hwalks in
theorem mem_planCandidates {candidates : List Text} {plan : List Text × Nat} {name : Text} :
    name ∈ (candidates.foldl planCandidate plan).1 ↔ name ∈ plan.1 ∨ name ∈ candidates := by
  induction candidates generalizing plan with
  | nil => simp
  | cons candidate candidates ih =>
    have hone : name ∈ (planCandidate plan candidate).1 ↔ name ∈ plan.1 ∨ name = candidate := by
      unfold planCandidate
      split
      · constructor
        · exact .inl
        · rintro (h | rfl)
          · exact h
          · assumption
      · simp
    rw [List.foldl_cons, ih, hone, mem_cons, or_assoc]

theorem GatheredOk.add {walk : Walk}
    (h : GatheredOk store followFinal walks seen gathered) (hwalk : walk ∈ walks)
    (hform : Utf8.WellFormed walk.path) :
    GatheredOk store followFinal walks (seen ++ [walk]) (gathered.add walk) := by
  obtain ⟨done, hdone, hout⟩ := h.answers
  refine ⟨⟨done, ?_, hout⟩, fun other hother name hname => ?_, fun name hname => ?_⟩
  · rw [hdone, List.append_assoc]
    rfl
  · apply mem_planCandidates.2
    rcases mem_append.1 hother with hother | hother
    · exact .inl (h.planned other hother name hname)
    · obtain rfl := mem_singleton.1 hother
      exact .inr hname
  · rcases mem_planCandidates.1 hname with hname | hname
    · exact h.allowed name hname
    · refine ⟨walk, hwalk, fun root hsome => ?_⟩
      unfold groupCandidates at hname
      split at hname
      · obtain ⟨hroot, hstays⟩ := hwalks walk hwalk
        exact candidates_inside hsome hroot hform ‹_› hstays name hname
      · cases hname

theorem sound_gather {walk : Walk} (hseen : ∀ walk ∈ seen, walk ∈ walks) (hwalk : walk ∈ walks)
    (h : GatheredOk store followFinal walks seen gathered) :
    Sound store followFinal walks (GatheredOk store followFinal walks (seen ++ [walk]))
      (gather store followFinal gathered walk) := by
  unfold gather
  split
  · rename_i hform
    refine ⟨nofun, fun error herror => ⟨walk, hwalk, ?_⟩, nofun⟩
    obtain rfl := Except.error.inj herror
    exact if_pos hform
  rename_i hform
  rw [not_not] at hform
  split
  · refine .bind (sound_flush hwalks hseen h) fun gathered hgathered => ?_
    exact .pure (hgathered.2.add hwalks hwalk hform)
  · exact .pure (h.add hwalks hwalk hform)

theorem sound_gatherAll {rest : List Walk}
    (hseen : ∀ walk ∈ seen, walk ∈ walks) (hrest : ∀ walk ∈ rest, walk ∈ walks)
    (h : GatheredOk store followFinal walks seen gathered) :
    Sound store followFinal walks (GatheredOk store followFinal walks (seen ++ rest))
      (gatherAll store followFinal gathered rest) := by
  induction rest generalizing seen gathered with
  | nil =>
    rw [append_nil]
    exact .pure h
  | cons walk rest ih =>
    have hwalk := hrest walk mem_cons_self
    rw [gatherAll]
    refine .bind (sound_gather hwalks hseen hwalk h) fun gathered hgathered => ?_
    rw [← List.singleton_append, ← List.append_assoc]
    refine ih (fun other hother => ?_)
      (fun other hother => hrest other (mem_cons_of_mem _ hother)) hgathered
    rcases mem_append.1 hother with hother | hother
    · exact hseen other hother
    · obtain rfl := mem_singleton.1 hother
      exact hwalk

/-- A batch answers as the plain walk of each of its paths alone. -/
theorem sound_resolveMany :
    Sound store followFinal walks (Answers store followFinal walks)
      (resolveMany store walks followFinal) := by
  have hstart : GatheredOk store followFinal walks [] ⟨[], [], [], 2⟩ :=
    ⟨⟨[], rfl, .nil⟩, nofun, nofun⟩
  have hnone : ∀ walk ∈ ([] : List Walk), walk ∈ walks := nofun
  refine .bind (sound_gatherAll hwalks hnone (fun _ hwalk => hwalk) hstart) fun gathered h => ?_
  refine .bind (sound_flush hwalks (fun _ hwalk => hwalk) h) fun gathered hflushed => .pure ?_
  obtain ⟨hgroup, hok⟩ := hflushed
  obtain ⟨done, hdone, hout⟩ := hok.answers
  rw [hgroup, append_nil] at hdone
  exact hdone ▸ hout

end Many

-- Resolution as a whole

/-- What resolution promises of some walks, of each alone and of all in one batch. -/
structure ResolutionMeets (store : Store) (followFinal : Bool) (walks : List Walk) : Prop where
  /-- One lookup starts a walk, and each link it follows makes one more. -/
  follows : ∀ walk ∈ walks,
    (resolveWalk store walk followFinal none).lookups.length ≤ maxFollows + 1
  alone : ∀ walk ∈ walks,
    (resolveWalk store walk followFinal none).result = plainWalk store walk followFinal
  inside : ∀ walk ∈ walks, ∀ root, walk.root = some root → ∀ real,
    confinedResolver store root walk.top walk.path followFinal = .ok real →
      isUnder real root = true
  consults : ∀ walk ∈ walks, ∀ root, walk.root = some root →
    ∀ names ∈ (resolveWithin store root walk.path followFinal walk.top).lookups,
      ∀ name ∈ names, isUnder name root = true
  batch : Sound store followFinal walks (Answers store followFinal walks)
    (resolveMany store walks followFinal)

theorem resolveWithin_eq {store : Store} {walk : Walk} {root : Text} {followFinal : Bool}
    (h : walk.root = some root) :
    resolveWithin store root walk.path followFinal walk.top =
      resolveWalk store walk followFinal none := by
  rw [resolveWithin, ← h]

theorem confinedResolver_ok {store : Store} {root path real : Text} {top followFinal : Bool}
    (h : confinedResolver store root top path followFinal = .ok real) :
    (resolveWithin store root path followFinal top).result = .ok (.real real) := by
  unfold confinedResolver at h
  cases hresult : (resolveWithin store root path followFinal top).result with
  | error error =>
    rw [hresult] at h
    cases h
  | ok resolved =>
    rw [hresult] at h
    cases resolved with
    | real path =>
      cases h
      rfl
    | parent | outside => cases h

theorem resolution_meets_iff (store : Store) (followFinal : Bool) (walks : List Walk)
    (hroots : ∀ walk ∈ walks, walk.RootOk) :
    ResolutionMeets store followFinal walks ↔
      ∀ walk ∈ walks, staysInside store walk followFinal = true := by
  constructor
  · intro hmeets walk hwalk
    by_contra hclimbs
    rw [Bool.not_eq_true] at hclimbs
    obtain ⟨root, hroot, names, hnames, name, hname, hout⟩ :=
      resolveWalk_outside (hroots walk hwalk) hclimbs
    rw [← resolveWithin_eq hroot] at hnames
    rw [hmeets.consults walk hwalk root hroot names hnames name hname] at hout
    cases hout
  · intro hstays
    refine ⟨fun walk hwalk => length_resolveWalk (hroots walk hwalk), fun walk hwalk => ?_,
      fun walk hwalk root hroot real hreal => ?_, fun walk hwalk root hroot => ?_, ?_⟩
    · exact result_resolveWalk (hroots walk hwalk) rowsAgree_none (.inr (hstays walk hwalk))
    · have hresolved := confinedResolver_ok hreal
      rw [resolveWithin_eq hroot] at hresolved
      exact real_resolveWalk hroot (hroots walk hwalk) hresolved
    · rw [resolveWithin_eq hroot]
      exact resolveWalk_inside hroot (hroots walk hwalk) rowsAgree_none (hstays walk hwalk)
    · exact sound_resolveMany fun walk hwalk => ⟨hroots walk hwalk, hstays walk hwalk⟩

/-- A project directory with links: `l` to `../x`, `x` to `d`, and `deep` to `d/../d`. -/
def linkedProject : Store := fun path =>
  if path = text "/" || path = text "/m" || path = text "/m/d" then some ⟨.dir, none⟩
  else if path = text "/m/x" then some ⟨.symlink, some (text "d")⟩
  else if path = text "/m/l" then some ⟨.symlink, some (text "../x")⟩
  else if path = text "/m/deep" then some ⟨.symlink, some (text "d/../d")⟩
  else none

/-- Paths of the project, one through a link with a `..` after it and one of no root. -/
def projectWalks : List Walk :=
  [⟨text "/m/deep/../x", some (text "/m"), true⟩, ⟨text "/m/l", none, false⟩]

theorem projectWalks_met :
    (∀ walk ∈ projectWalks, walk.RootOk) ∧ ResolutionMeets linkedProject true projectWalks := by
  have hroots : ∀ walk ∈ projectWalks, walk.RootOk := by
    intro walk hwalk root hroot
    simp only [projectWalks, mem_cons, List.not_mem_nil, or_false] at hwalk
    obtain rfl | rfl := hwalk
    · cases hroot
      decide
    · cases hroot
  exact ⟨hroots, (resolution_meets_iff linkedProject true projectWalks hroots).2 (by decide +kernel)⟩

/-- In a view whose root is `/m`, the link `l` leads to `x`, and `x` to `d`: the plan of the
    second lookup is `/m`, `/` and `/x`, so the walk does not see that `/m/x` is a link. -/
theorem chroot_link_not_met :
    ¬ ResolutionMeets linkedProject true [⟨text "/m/l", some (text "/m"), true⟩] := by
  intro hmeets
  have halone := hmeets.alone _ (mem_singleton.2 rfl)
  revert halone
  decide +kernel

end Kompjutr.Fs
