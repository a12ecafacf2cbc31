/-
  Kompjutr.Fs.ResolveRounds

  The rounds of a walk: a plan, its lookup, and the walk over the rows up to the next
  link.

  The plan of a lookup reads `..` as a name only, also where the walk stops at its root.
  A plan that climbs above the root asks for names outside it, and misses the names a
  walk that stays at the top of its namespace goes on to.  `plansInside` is the
  condition that no plan does; under it the rounds answer as the plain walk does.
-/
import Kompjutr.Fs.ResolvePaths

namespace Kompjutr.Fs

open Objects (Text text)
open List (mem_cons mem_cons_of_mem mem_cons_self prefix_append)

variable {names : List Text}

variable {paths : List Text} {name : Text}

-- Lookups

theorem flatten_nodeBatches (batch : List Text) (bytes : Nat) (paths : List Text) :
    (nodeBatches batch bytes paths).flatten = batch ++ paths := by
  induction paths generalizing batch bytes with
  | nil =>
    rw [nodeBatches]
    split
    · rename_i hbatch
      rw [hbatch]
      rfl
    · simp
  | cons path paths ih =>
    rw [nodeBatches]
    split
    · rw [List.flatten_cons, ih, List.singleton_append]
    · rw [ih, List.append_assoc, List.singleton_append]

theorem get_nodesQuery (store : Store) :
    Nodes.get (nodesQuery store paths) name = if name ∈ paths then store name else none := by
  induction paths with
  | nil => rfl
  | cons path paths ih =>
    unfold Nodes.get nodesQuery at ih ⊢
    by_cases hname : name = path
    · subst hname
      rw [if_pos mem_cons_self]
      cases hrow : store name with
      | none =>
        rw [List.filterMap_cons_none (by rw [hrow]; rfl), ih, hrow, ite_self]
      | some row =>
        rw [List.filterMap_cons_some (by rw [hrow]; rfl), List.lookup_cons_self]
    · cases hrow : store path with
      | none => simp [hrow, ih, hname]
      | some row =>
        have hbeq : (name == path) = false := beq_eq_false_iff_ne.2 hname
        rw [List.filterMap_cons_some (by rw [hrow]; rfl), List.lookup_cons, ih, hbeq]
        simp [hname]

/-- The rows of a lookup. -/
def rowsOf (store : Store) (paths : List Text) : Nodes :=
  (nodeBatches [] 2 paths).flatMap (nodesQuery store)

/-- A lookup answers as the store does for each name it binds. -/
theorem get_rowsOf (store : Store) (h : name ∈ paths) :
    (rowsOf store paths).get name = store name := by
  have hrows : rowsOf store paths = nodesQuery store paths := by
    unfold rowsOf nodesQuery
    rw [List.flatMap_def, ← List.filterMap_flatten, flatten_nodeBatches, List.nil_append]
  rw [hrows, get_nodesQuery, if_pos h]

theorem nodesOn_eq (store : Store) (paths : List Text) :
    nodesOn store paths = ⟨[paths], .ok (rowsOf store paths)⟩ := rfl

-- The plan of a lookup

/-- The names that a plan takes for the pending components. -/
def planNames : List Text → List Text → List Text
  | _, [] => []
  | parts, component :: pending =>
    pathOf parts ::
      if component = [] || component = text "." then planNames parts pending
      else if component = text ".." then pathOf parts.dropLast :: planNames parts.dropLast pending
      else pathOf (parts ++ [component]) :: planNames (parts ++ [component]) pending

theorem mem_addName {other : Text} : other ∈ addName names name ↔ other = name ∨ other ∈ names := by
  unfold addName
  split <;> grind

theorem mem_planFrom {parts pending : List Text} :
    name ∈ planFrom paths parts pending ↔ name ∈ paths ∨ name ∈ planNames parts pending := by
  induction pending generalizing paths parts with
  | nil => simp [planFrom, planNames]
  | cons component pending ih =>
    rw [planFrom, planNames]
    split
    · rw [ih, mem_addName, mem_cons]
      tauto
    · split
      · rw [ih, mem_addName, mem_addName, mem_cons, mem_cons]
        tauto
      · rw [ih, mem_addName, mem_addName, mem_cons, mem_cons]
        tauto

theorem mem_plannedPaths {resolved pending : List Text} : name ∈ plannedPaths resolved pending ↔
      name = pathOf resolved ∨ name ∈ planNames resolved pending := by
  rw [plannedPaths, mem_planFrom, List.mem_singleton]

/-- Whether the pending components, read as names only, take a `..` from the first `depth` parts
    (from `/` itself, a `..` leads nowhere else). -/
def climbs (depth : Nat) : List Text → List Text → Bool
  | _, [] => false
  | parts, component :: pending =>
    if component = [] || component = text "." then climbs depth parts pending
    else if component = text ".." then
      (0 < depth && parts.length ≤ depth) || climbs depth parts.dropLast pending
    else climbs depth (parts ++ [component]) pending

section Walk

variable {get get' : Text → Option NodeRow} {path : Text} {followFinal : Bool}
  {confine : Option Confine} {callerTail : Nat} {resolved resolved' : List Text}
  {missing missing' : Option Text} {component : Text} {rest : List Text}

theorem walkPending_cons :
    walkPending get path followFinal confine callerTail resolved missing (component :: rest) =
      match walkComponent get path followFinal confine callerTail resolved missing component
        rest with
      | .stop stop => stop
      | .on resolved missing =>
        walkPending get path followFinal confine callerTail resolved missing rest := rfl

/-- How a `..` moves a walk: one up, or not at all at the top of its namespace. -/
inductive MovesUp (confine : Option Confine) (resolved : List Text) : List Text → Prop
  | up (h : ∀ limit, confine = some limit → limit.depth < resolved.length) :
      MovesUp confine resolved resolved.dropLast
  | stay {limit : Confine} (hlimit : confine = some limit) (htop : limit.top = true)
      (hlow : resolved.length ≤ limit.depth) : MovesUp confine resolved resolved

theorem walkUp_on (h : walkUp confine callerTail resolved rest = .on resolved' missing') :
    MovesUp confine resolved resolved' := by
  unfold walkUp at h
  split at h
  · obtain ⟨rfl, -⟩ := Move.on.inj h
    exact .up fun limit hlimit => nomatch hlimit
  · rename_i limit
    split at h
    · rename_i hlow
      split at h
      · rename_i htop
        obtain ⟨rfl, -⟩ := Move.on.inj h
        exact .stay rfl htop hlow
      · split at h <;> cases h
    · rename_i hlow
      obtain ⟨rfl, -⟩ := Move.on.inj h
      refine .up fun other hother => ?_
      cases hother
      exact Nat.lt_of_not_le hlow

/-- How a component that does not end a walk moves it. -/
inductive Moves (confine : Option Confine) (resolved : List Text) (component : Text) :
    List Text → Prop
  | here (hskip : (component = [] || component = text ".") = true) :
      Moves confine resolved component resolved
  | up {resolved' : List Text} (hskip : ¬ (component = [] || component = text ".") = true)
      (hdots : component = text "..") (h : MovesUp confine resolved resolved') :
      Moves confine resolved component resolved'
  | down (hskip : ¬ (component = [] || component = text ".") = true)
      (hdots : component ≠ text "..") :
      Moves confine resolved component (resolved ++ [component])

theorem walkComponent_on
    (h : walkComponent get path followFinal confine callerTail resolved missing component rest =
      .on resolved' missing') : Moves confine resolved component resolved' := by
  unfold walkComponent at h
  split at h
  · cases h
  split at h
  · rename_i hskip
    obtain ⟨rfl, -⟩ := Move.on.inj h
    exact .here hskip
  rename_i hskip
  split at h
  · rename_i hdots
    split at h
    · cases h
    · exact .up hskip hdots (walkUp_on h)
  · rename_i hdots
    unfold walkDown at h
    split at h
    · cases h
    · obtain ⟨rfl, -⟩ := Move.on.inj h
      exact .down hskip hdots

/-- A turn looks up the directory it is in, and the name it takes. -/
theorem walkComponent_congr (hhere : get (pathOf resolved) = get' (pathOf resolved))
    (hname : ¬ (component = [] || component = text ".") = true → component ≠ text ".." →
      get (pathOf (resolved ++ [component])) = get' (pathOf (resolved ++ [component]))) :
    walkComponent get path followFinal confine callerTail resolved missing component rest =
      walkComponent get' path followFinal confine callerTail resolved missing component rest := by
  unfold walkComponent
  rw [hhere]
  split
  · rfl
  split
  · rfl
  rename_i hskip
  split
  · rfl
  · rename_i hdots
    rw [hname hskip hdots]

/-- Whether no plan of a walk at the top of its namespace climbs above it. -/
def TopSafe (confine : Option Confine) (resolved pending : List Text) : Prop :=
  ∀ limit, confine = some limit → limit.top = true → climbs limit.depth resolved pending = false

/-- A move takes a walk along its plan. -/
theorem plan_moves (h : Moves confine resolved component resolved')
    (hsafe : TopSafe confine resolved (component :: rest)) :
    (∀ name ∈ planNames resolved' rest, name ∈ planNames resolved (component :: rest)) ∧
      TopSafe confine resolved' rest := by
  cases h with
  | here hskip =>
    rw [planNames, if_pos hskip]
    refine ⟨fun name hname => mem_cons_of_mem _ hname, fun limit hlimit htop => ?_⟩
    have := hsafe limit hlimit htop
    rwa [climbs, if_pos hskip] at this
  | down hskip hdots =>
    rw [planNames, if_neg hskip, if_neg hdots]
    refine ⟨fun name hname => mem_cons_of_mem _ (mem_cons_of_mem _ hname),
      fun limit hlimit htop => ?_⟩
    have := hsafe limit hlimit htop
    rwa [climbs, if_neg hskip, if_neg hdots] at this
  | up hskip hdots hup =>
    rw [planNames, if_neg hskip, if_pos hdots]
    have hback : resolved' = resolved.dropLast := by
      cases hup with
      | up => rfl
      | stay hlimit htop hlow =>
        -- at the top the walk stays, and the plan only does so at `/`
        have := hsafe _ hlimit htop
        rw [climbs, if_neg hskip, if_pos hdots, Bool.or_eq_false_iff] at this
        have hnil : resolved = [] := by
          rw [← List.length_eq_zero_iff]
          have := this.1
          simp only [Bool.and_eq_false_iff, decide_eq_false_iff_not] at this
          omega
        rw [hnil]
        rfl
    subst hback
    refine ⟨fun name hname => mem_cons_of_mem _ (mem_cons_of_mem _ hname),
      fun limit hlimit htop => ?_⟩
    have := hsafe limit hlimit htop
    rw [climbs, if_neg hskip, if_pos hdots, Bool.or_eq_false_iff] at this
    exact this.2

/-- A walk looks up planned names only, unless its plan climbs above the top of its
    namespace. -/
theorem walkPending_congr {pending : List Text}
    (hget : ∀ name ∈ planNames resolved pending, get name = get' name)
    (hsafe : TopSafe confine resolved pending) :
    walkPending get path followFinal confine callerTail resolved missing pending =
      walkPending get' path followFinal confine callerTail resolved missing pending := by
  induction pending generalizing resolved missing with
  | nil => rfl
  | cons component pending ih =>
    have hhere : pathOf resolved ∈ planNames resolved (component :: pending) := by
      rw [planNames]
      exact mem_cons_self
    rw [walkPending_cons, walkPending_cons, walkComponent_congr (hget _ hhere) ?_]
    · cases hmove : walkComponent get' path followFinal confine callerTail resolved missing
        component pending with
      | stop stop => rfl
      | on resolved' missing' =>
        obtain ⟨hnames, hsafe'⟩ := plan_moves (walkComponent_on hmove) hsafe
        exact ih (fun name hname => hget name (hnames name hname)) hsafe'
    · intro hskip hdots
      apply hget
      rw [planNames, if_neg hskip, if_neg hdots]
      exact mem_cons_of_mem _ mem_cons_self

end Walk

-- Inside the root

section Inside

variable {get : Text → Option NodeRow} {path : Text} {followFinal : Bool} {limit : Confine}
  {callerTail : Nat} {base resolved resolved' pending rest : List Text} {missing : Option Text}
  {component target : Text}

theorem dropLast_of_longer (h : base <+: resolved) (hlength : base.length < resolved.length) :
    base <+: resolved.dropLast := by
  obtain ⟨more, rfl⟩ := h
  have hmore : more ≠ [] := by
    rintro rfl
    simp at hlength
  rw [List.dropLast_append_of_ne_nil hmore]
  exact prefix_append _ _

theorem Moves.inside (h : Moves (some limit) resolved component resolved')
    (hdepth : limit.depth = base.length) (hbase : base <+: resolved) : base <+: resolved' := by
  cases h with
  | here => exact hbase
  | down => exact hbase.trans (prefix_append _ _)
  | up _ _ hup =>
    cases hup with
    | up hlow => exact dropLast_of_longer hbase (hdepth ▸ hlow limit rfl)
    | stay => exact hbase

/-- What a walk may stop at. -/
def Stop.Inside (base : List Text) : Stop → Prop
  | .arrived resolved => base <+: resolved
  | .link resolved _ _ => base <+: resolved
  | _ => True

/-- Where a single turn stops. -/
theorem walkComponent_stop {stop : Stop} {confine : Option Confine}
    (h : walkComponent get path followFinal confine callerTail resolved missing component rest =
      .stop stop) :
    (∃ error, stop = .failed error) ∨ (∃ breach, stop = .breached breach ∧
      ∀ real, breach ≠ .real real) ∨ ∃ target, stop = .link resolved target rest := by
  unfold walkComponent at h
  split at h
  · exact .inl ⟨_, (Move.stop.inj h).symm⟩
  split at h
  · cases h
  split at h
  · split at h
    · exact .inl ⟨_, (Move.stop.inj h).symm⟩
    · unfold walkUp at h
      split at h
      · cases h
      split at h
      · split at h
        · cases h
        split at h
        · exact .inr (.inl ⟨_, (Move.stop.inj h).symm, fun real => nofun⟩)
        · exact .inr (.inl ⟨_, (Move.stop.inj h).symm, fun real => nofun⟩)
      · cases h
  · unfold walkDown at h
    split at h
    · exact .inr (.inr ⟨_, (Move.stop.inj h).symm⟩)
    · cases h

/-- A walk that starts inside its root stays there. -/
theorem walkPending_inside (hdepth : limit.depth = base.length) (hbase : base <+: resolved) :
    (walkPending get path followFinal (some limit) callerTail resolved missing pending).Inside
      base := by
  induction pending generalizing resolved missing with
  | nil => exact hbase
  | cons component pending ih =>
    rw [walkPending_cons]
    cases hmove : walkComponent get path followFinal (some limit) callerTail resolved missing
      component pending with
    | on resolved' missing' => exact ih ((walkComponent_on hmove).inside hdepth hbase)
    | stop stop =>
      obtain ⟨error, rfl⟩ | ⟨breach, rfl, -⟩ | ⟨target, rfl⟩ := walkComponent_stop hmove
      · trivial
      · trivial
      · exact hbase

theorem walkPending_not_real {confine : Option Confine} {breach : Resolution}
    (h : walkPending get path followFinal confine callerTail resolved missing pending =
      .breached breach) (real : Text) : breach ≠ .real real := by
  induction pending generalizing resolved missing with
  | nil => cases h
  | cons component pending ih =>
    rw [walkPending_cons] at h
    cases hmove : walkComponent get path followFinal confine callerTail resolved missing
      component pending with
    | on resolved' missing' =>
      rw [hmove] at h
      exact ih h
    | stop stop =>
      rw [hmove] at h
      obtain ⟨error, rfl⟩ | ⟨other, rfl, hother⟩ | ⟨target, rfl⟩ := walkComponent_stop hmove
      · cases h
      · obtain rfl := Stop.breached.inj h
        exact hother real
      · cases h

/-- A followed target starts inside the root. -/
theorem targetStart_inside (hdepth : limit.depth = base.length) (hbase : base <+: resolved) :
    base <+: targetStart (some limit) target resolved := by
  unfold targetStart
  split
  · show base <+: resolved.take limit.depth
    rw [hdepth]
    exact ⟨[], (List.append_nil _).trans (List.prefix_iff_eq_take.1 hbase)⟩
  · exact hbase

/-- A plan that does not climb has names inside the root only. -/
theorem planNames_inside (hbase : base <+: resolved)
    (hclimbs : climbs base.length resolved pending = false)
    (hname : name ∈ planNames resolved pending) : isUnder name (pathOf base) = true := by
  induction pending generalizing resolved with
  | nil => cases hname
  | cons component pending ih =>
    rw [planNames, mem_cons] at hname
    obtain rfl | hname := hname
    · exact isUnder_pathOf hbase
    rw [climbs] at hclimbs
    split at hclimbs
    · rename_i hskip
      rw [if_pos hskip] at hname
      exact ih hbase hclimbs hname
    rename_i hskip
    rw [if_neg hskip] at hname
    split at hclimbs
    · rename_i hdots
      rw [if_pos hdots, mem_cons] at hname
      rw [Bool.or_eq_false_iff] at hclimbs
      have hback : base <+: resolved.dropLast := by
        by_cases hnil : base = []
        · rw [hnil]
          exact List.nil_prefix
        · have hpos := List.length_pos_iff.2 hnil
          have hlow := hclimbs.1
          simp only [hpos, decide_true, Bool.true_and, decide_eq_false_iff_not,
            Nat.not_le] at hlow
          exact dropLast_of_longer hbase hlow
      obtain rfl | hname := hname
      · exact isUnder_pathOf hback
      · exact ih hback hclimbs.2 hname
    · rename_i hdots
      rw [if_neg hdots, mem_cons] at hname
      have hdown := hbase.trans (prefix_append resolved [component])
      obtain rfl | hname := hname
      · exact isUnder_pathOf hdown
      · exact ih hdown hclimbs hname

/-- A plan that climbs has the root's parent among its names. -/
theorem planNames_outside (hplain : ∀ part ∈ base, isPlain part = true)
    (hbase : base <+: resolved) (hclimbs : climbs base.length resolved pending = true) :
    ∃ name ∈ planNames resolved pending, isUnder name (pathOf base) = false := by
  induction pending generalizing resolved with
  | nil => cases hclimbs
  | cons component pending ih =>
    rw [planNames]
    rw [climbs] at hclimbs
    split at hclimbs
    · rename_i hskip
      rw [if_pos hskip]
      obtain ⟨name, hname, hout⟩ := ih hbase hclimbs
      exact ⟨name, mem_cons_of_mem _ hname, hout⟩
    rename_i hskip
    rw [if_neg hskip]
    split at hclimbs
    · rename_i hdots
      rw [if_pos hdots]
      by_cases hlow : 0 < base.length ∧ resolved.length ≤ base.length
      · obtain rfl := hbase.eq_of_length_le hlow.2
        refine ⟨_, mem_cons_of_mem _ mem_cons_self,
          not_isUnder_parent hplain (List.length_pos_iff.1 hlow.1)⟩
      · have hback : base <+: resolved.dropLast := by
          by_cases hnil : base = []
          · rw [hnil]
            exact List.nil_prefix
          · have hpos := List.length_pos_iff.2 hnil
            exact dropLast_of_longer hbase (by omega)
        have hrest : climbs base.length resolved.dropLast pending = true := by
          rw [Bool.or_eq_true] at hclimbs
          refine hclimbs.resolve_left fun hhere => hlow ?_
          simpa using hhere
        obtain ⟨name, hname, hout⟩ := ih hback hrest
        exact ⟨name, mem_cons_of_mem _ (mem_cons_of_mem _ hname), hout⟩
    · rename_i hdots
      rw [if_neg hdots]
      obtain ⟨name, hname, hout⟩ := ih (hbase.trans (prefix_append _ _)) hclimbs
      exact ⟨name, mem_cons_of_mem _ (mem_cons_of_mem _ hname), hout⟩

end Inside

-- Rounds

/-- Whether, at the start of a walk and after each link that the plain walk follows, the components
    still pending never take a `..` from the root itself when they are read as names. -/
def plansInside (store : Store) (path : Text) (followFinal : Bool) (limit : Confine)
    (follows : Nat) (resolved pending : List Text) (callerTail : Nat) : Bool :=
  !climbs limit.depth resolved pending &&
    match roundEnd path (some limit) callerTail follows
      (walkPending store path followFinal (some limit) callerTail resolved none pending) with
    | .done _ => true
    | .next resolved pending callerTail =>
      match follows with
      | 0 => true
      | follows + 1 =>
        plansInside store path followFinal limit follows resolved pending callerTail

/-- The condition for a whole walk; one without a root has none. -/
def staysInside (store : Store) (walk : Walk) (followFinal : Bool) : Bool :=
  match (walkStart walk).2.2 with
  | none => true
  | some limit =>
    !decide (Utf8.WellFormed walk.path) || !startsUnder walk ||
      plansInside store walk.path followFinal limit maxFollows (walkStart walk).1
        (walkStart walk).2.1 (walkStart walk).2.1.length

section Rounds

variable {store : Store} {path : Text} {followFinal : Bool} {confine : Option Confine}
  {limit : Confine} {callerTail follows : Nat} {initialNodes : Option Nodes}
  {base resolved pending : List Text}

/-- The rows handed to a walk are the store's, for each name of a plan. -/
def RowsAgree (store : Store) (initialNodes : Option Nodes) (names : List Text) : Prop :=
  ∀ nodes, initialNodes = some nodes → ∀ name ∈ names, nodes.get name = store name

theorem rowsAgree_none : RowsAgree store none names := nofun

/-- A round looks its plan up, unless its rows are handed in. -/
theorem roundNodes_ok (paths : List Text) :
    ∃ nodes, roundNodes store initialNodes paths =
        ⟨if initialNodes = none then [paths] else [], .ok nodes⟩ ∧
      ∀ names, RowsAgree store initialNodes names → (∀ name ∈ names, name ∈ paths) →
        ∀ name ∈ names, nodes.get name = store name := by
  cases initialNodes with
  | none =>
    exact ⟨_, nodesOn_eq store paths,
      fun names _ hpaths name hname => get_rowsOf store (hpaths name hname)⟩
  | some nodes => exact ⟨nodes, rfl, fun names h _ => h nodes rfl⟩

variable {resolved' pending' : List Text} {callerTail' : Nat}

/-- A round with a next has a follow left. -/
theorem follows_of_next {stop : Stop}
    (h : roundEnd path confine callerTail follows stop = .next resolved' pending' callerTail') :
    ∃ left, follows = left + 1 := by
  cases stop with
  | link resolved target rest =>
    rw [roundEnd] at h
    split at h
    · cases h
    · exact Nat.exists_eq_succ_of_ne_zero ‹_›
  | _ => cases h

theorem plansInside_climbs
    (h : plansInside store path followFinal limit follows resolved pending callerTail = true) :
    climbs limit.depth resolved pending = false := by
  rw [plansInside.eq_def, Bool.and_eq_true] at h
  simpa using h.1

/-- The condition of a walk's next round. -/
theorem plansInside_next {left : Nat}
    (h : plansInside store path followFinal limit (left + 1) resolved pending callerTail = true)
    (hnext : roundEnd path (some limit) callerTail (left + 1)
      (walkPending store path followFinal (some limit) callerTail resolved none pending) =
        .next resolved' pending' callerTail') :
    plansInside store path followFinal limit left resolved' pending' callerTail' = true := by
  rw [plansInside, Bool.and_eq_true, hnext] at h
  exact h.2

/-- The lookup of a round. -/
def roundLookups (initialNodes : Option Nodes) (resolved pending : List Text) : List (List Text) :=
  if initialNodes = none then [plannedPaths resolved pending] else []

/-- What the rounds of a walk come to, once the rows of the first are there: the first round
    answers, or it follows a link and the rounds after it answer. -/
inductive Rounds (store : Store) (path : Text) (followFinal : Bool) (confine : Option Confine)
    (get : Text → Option NodeRow) (follows : Nat) (lookups : List (List Text))
    (resolved pending : List Text) (callerTail : Nat) : Asked Resolution → Prop
  | done {result : Except FsError Resolution}
      (hend : roundEnd path confine callerTail follows
        (walkPending get path followFinal confine callerTail resolved none pending) =
          .done result) :
      Rounds store path followFinal confine get follows lookups resolved pending callerTail
        ⟨lookups, result⟩
  | next {left : Nat} {resolved' pending' : List Text} {callerTail' : Nat}
      (hfollows : follows = left + 1)
      (hend : roundEnd path confine callerTail follows
        (walkPending get path followFinal confine callerTail resolved none pending) =
          .next resolved' pending' callerTail') :
      Rounds store path followFinal confine get follows lookups resolved pending callerTail
        ⟨lookups ++ (resolveRounds store path followFinal confine left none resolved' pending'
            callerTail').lookups,
          (resolveRounds store path followFinal confine left none resolved' pending'
            callerTail').result⟩

theorem rounds_of_eq {nodes : Nodes} {lookups : List (List Text)}
    (h : roundNodes store initialNodes (plannedPaths resolved pending) = ⟨lookups, .ok nodes⟩) :
    Rounds store path followFinal confine nodes.get follows lookups resolved pending callerTail
      (resolveRounds store path followFinal confine follows initialNodes resolved pending
        callerTail) := by
  cases hend : roundEnd path confine callerTail follows
    (walkPending nodes.get path followFinal confine callerTail resolved none pending) with
  | done result =>
    have hdone : resolveRounds store path followFinal confine follows initialNodes resolved pending
        callerTail = ⟨lookups, result⟩ := by
      cases follows <;>
        simp only [resolveRounds, resolveRound, h, Asked.bind, hend, RoundEnd.continue,
          List.append_nil]
    rw [hdone]
    exact .done hend
  | next resolved' pending' callerTail' =>
    obtain ⟨left, rfl⟩ := follows_of_next hend
    rw [resolveRounds, resolveRound, h]
    dsimp only [Asked.bind]
    rw [hend, RoundEnd.continue]
    exact .next rfl hend

/-- The rounds of a walk, over the rows of the first. -/
theorem resolveRounds_cases {answer : Asked Resolution}
    (h : resolveRounds store path followFinal confine follows initialNodes resolved pending
      callerTail = answer) :
    ∃ get, Rounds store path followFinal confine get follows
        (roundLookups initialNodes resolved pending) resolved pending callerTail answer ∧
      (RowsAgree store initialNodes (planNames resolved pending) →
        TopSafe confine resolved pending →
        walkPending get path followFinal confine callerTail resolved none pending =
          walkPending store path followFinal confine callerTail resolved none pending) := by
  subst h
  obtain ⟨nodes, hround, hget⟩ := roundNodes_ok (plannedPaths resolved pending)
  refine ⟨nodes.get, rounds_of_eq hround, fun hrows hsafe => walkPending_congr ?_ hsafe⟩
  exact hget _ hrows fun name hname => mem_plannedPaths.2 (.inr hname)

theorem follow_done {result : Except FsError Resolution}
    (h : roundEnd path confine callerTail follows
      (walkPending store path followFinal confine callerTail resolved none pending) =
        .done result) :
    follow store path followFinal confine follows resolved pending callerTail = result := by
  rw [follow.eq_def, h]

theorem follow_next {left : Nat} (h : roundEnd path confine callerTail (left + 1)
      (walkPending store path followFinal confine callerTail resolved none pending) =
        .next resolved' pending' callerTail') :
    follow store path followFinal confine (left + 1) resolved pending callerTail =
      follow store path followFinal confine left resolved' pending' callerTail' := by
  rw [follow.eq_def, h]

/-- The rounds answer as the plain walk does, as long as no plan climbs above the top of the
    namespace. -/
theorem result_resolveRounds
    (hrows : RowsAgree store initialNodes (planNames resolved pending))
    (hstays : ∀ limit, confine = some limit → limit.top = true →
      plansInside store path followFinal limit follows resolved pending callerTail = true) :
    (resolveRounds store path followFinal confine follows initialNodes resolved pending
        callerTail).result =
      follow store path followFinal confine follows resolved pending callerTail := by
  induction follows using Nat.strongRecOn generalizing initialNodes resolved pending callerTail with
  | ind follows ih =>
    generalize hanswer : resolveRounds store path followFinal confine follows initialNodes resolved
      pending callerTail = answer
    obtain ⟨get, hrounds, hwalk⟩ := resolveRounds_cases hanswer
    specialize hwalk hrows fun limit hlimit htop => plansInside_climbs (hstays limit hlimit htop)
    cases hrounds with
    | done hend =>
      rw [hwalk] at hend
      exact (follow_done hend).symm
    | next hfollows hend =>
      subst hfollows
      rw [hwalk] at hend
      rw [follow_next hend]
      refine ih _ (Nat.lt_succ_self _) rowsAgree_none fun limit hlimit htop => ?_
      subst hlimit
      exact plansInside_next (hstays limit rfl htop) hend

/-- A next round starts inside the root. -/
theorem next_inside {get : Text → Option NodeRow} (hdepth : limit.depth = base.length) (hbase : base <+: resolved)
    (h : roundEnd path (some limit) callerTail follows
      (walkPending get path followFinal (some limit) callerTail resolved none pending) =
        .next resolved' pending' callerTail') : base <+: resolved' := by
  have hinside : (walkPending get path followFinal (some limit) callerTail resolved none
      pending).Inside base := walkPending_inside hdepth hbase
  cases hstop : walkPending get path followFinal (some limit) callerTail resolved none pending with
  | link stopped target rest =>
    rw [hstop] at h hinside
    rw [roundEnd] at h
    split at h
    · cases h
    split at h
    · cases h
    · obtain ⟨rfl, -, -⟩ := RoundEnd.next.inj h
      exact targetStart_inside hdepth hinside
  | _ =>
    rw [hstop] at h
    cases h

/-- An answer that names a path names one inside the root. -/
theorem done_inside {get : Text → Option NodeRow} {real : Text}
    (hdepth : limit.depth = base.length) (hbase : base <+: resolved)
    (h : roundEnd path (some limit) callerTail follows
      (walkPending get path followFinal (some limit) callerTail resolved none pending) =
        .done (.ok (.real real))) : isUnder real (pathOf base) = true := by
  have hinside : (walkPending get path followFinal (some limit) callerTail resolved none
      pending).Inside base := walkPending_inside hdepth hbase
  cases hstop : walkPending get path followFinal (some limit) callerTail resolved none pending with
  | failed error =>
    rw [hstop] at h
    cases h
  | breached breach =>
    rw [hstop] at h
    exact absurd (Except.ok.inj (RoundEnd.done.inj h)) (walkPending_not_real hstop real)
  | arrived stopped =>
    rw [hstop] at h hinside
    obtain rfl := Resolution.real.inj (Except.ok.inj (RoundEnd.done.inj h))
    exact isUnder_pathOf hinside
  | link stopped target rest =>
    rw [hstop, roundEnd] at h
    split at h
    · cases h
    split at h
    · cases h
    · cases h

/-- What a confined walk resolves to lies inside its root, whatever rows it reads. -/
theorem real_resolveRounds {real : Text} (hdepth : limit.depth = base.length)
    (hbase : base <+: resolved)
    (h : (resolveRounds store path followFinal (some limit) follows initialNodes resolved pending
      callerTail).result = .ok (.real real)) : isUnder real (pathOf base) = true := by
  induction follows using Nat.strongRecOn generalizing initialNodes resolved pending callerTail with
  | ind follows ih =>
    generalize hanswer : resolveRounds store path followFinal (some limit) follows initialNodes
      resolved pending callerTail = answer at h
    obtain ⟨get, hrounds, -⟩ := resolveRounds_cases hanswer
    cases hrounds with
    | done hend =>
      subst h
      exact done_inside hdepth hbase hend
    | next hfollows hend =>
      exact ih _ (by omega) (next_inside hdepth hbase hend) h

/-- A walk makes one lookup for each link it follows, and one more unless its first rows are
    handed in. -/
theorem length_resolveRounds :
    (resolveRounds store path followFinal confine follows initialNodes resolved pending
      callerTail).lookups.length ≤ follows + (roundLookups initialNodes resolved pending).length := by
  induction follows using Nat.strongRecOn generalizing initialNodes resolved pending callerTail with
  | ind follows ih =>
    generalize hanswer : resolveRounds store path followFinal confine follows initialNodes resolved
      pending callerTail = answer
    obtain ⟨get, hrounds, -⟩ := resolveRounds_cases hanswer
    cases hrounds with
    | done => exact Nat.le_add_left _ _
    | @next left resolved' pending' callerTail' hfollows _ =>
      have hrest := @ih left (by omega) callerTail' none resolved' pending'
      have hone : (roundLookups none resolved' pending').length = 1 := rfl
      rw [List.length_append]
      omega

/-- The names of a plan that does not climb lie inside the root. -/
theorem roundLookups_inside (hbase : base <+: resolved)
    (hclimbs : climbs base.length resolved pending = false) :
    ∀ names ∈ roundLookups initialNodes resolved pending, ∀ name ∈ names,
      isUnder name (pathOf base) = true := by
  intro names hnames name hname
  unfold roundLookups at hnames
  split at hnames
  · obtain rfl := List.mem_singleton.1 hnames
    obtain rfl | hname := mem_plannedPaths.1 hname
    · exact isUnder_pathOf hbase
    · exact planNames_inside hbase hclimbs hname
  · cases hnames

/-- A walk whose plans stay inside its root looks up no name outside it. -/
theorem lookups_inside (hdepth : limit.depth = base.length) (hbase : base <+: resolved)
    (hrows : RowsAgree store initialNodes (planNames resolved pending))
    (hstays : plansInside store path followFinal limit follows resolved pending callerTail = true) :
    ∀ names ∈ (resolveRounds store path followFinal (some limit) follows initialNodes resolved
      pending callerTail).lookups, ∀ name ∈ names, isUnder name (pathOf base) = true := by
  induction follows using Nat.strongRecOn generalizing initialNodes resolved pending callerTail with
  | ind follows ih =>
    have hclimbs := plansInside_climbs hstays
    generalize hanswer : resolveRounds store path followFinal (some limit) follows initialNodes
      resolved pending callerTail = answer
    obtain ⟨get, hrounds, hwalk⟩ := resolveRounds_cases hanswer
    specialize hwalk hrows fun other hother _ => Option.some.inj hother ▸ hclimbs
    rw [hdepth] at hclimbs
    cases hrounds with
    | done hend => exact roundLookups_inside hbase hclimbs
    | next hfollows hend =>
      subst hfollows
      intro names hnames
      rcases List.mem_append.1 hnames with hnames | hnames
      · exact roundLookups_inside hbase hclimbs names hnames
      · have hinside := next_inside hdepth hbase hend
        rw [hwalk] at hend
        exact ih _ (Nat.lt_succ_self _) hinside rowsAgree_none (plansInside_next hstays hend) names
          hnames

/-- A walk one of whose plans climbs above its root looks up a name outside it. -/
theorem lookups_outside (hplain : ∀ part ∈ base, isPlain part = true)
    (hdepth : limit.depth = base.length) (hbase : base <+: resolved)
    (hrows : RowsAgree store initialNodes (planNames resolved pending))
    (hfirst : initialNodes ≠ none → climbs base.length resolved pending = false)
    (hstays : plansInside store path followFinal limit follows resolved pending callerTail =
      false) :
    ∃ names ∈ (resolveRounds store path followFinal (some limit) follows initialNodes resolved
      pending callerTail).lookups, ∃ name ∈ names, isUnder name (pathOf base) = false := by
  induction follows using Nat.strongRecOn generalizing initialNodes resolved pending callerTail with
  | ind follows ih =>
    generalize hanswer : resolveRounds store path followFinal (some limit) follows initialNodes
      resolved pending callerTail = answer
    obtain ⟨get, hrounds, hwalk⟩ := resolveRounds_cases hanswer
    cases hclimbs : climbs base.length resolved pending with
    | true =>
      -- the plan of this round is looked up, whatever the round comes to
      have hnone : initialNodes = none := by
        by_contra hne
        rw [hfirst hne] at hclimbs
        cases hclimbs
      obtain ⟨name, hname, hout⟩ := planNames_outside hplain hbase hclimbs
      have hplan : plannedPaths resolved pending ∈ roundLookups initialNodes resolved pending := by
        rw [roundLookups, if_pos hnone]
        exact List.mem_singleton.2 rfl
      refine ⟨plannedPaths resolved pending, ?_, name, mem_plannedPaths.2 (.inr hname), hout⟩
      cases hrounds with
      | done => exact hplan
      | next => exact List.mem_append_left _ hplan
    | false =>
      rw [← hdepth] at hclimbs
      specialize hwalk hrows fun other hother _ => Option.some.inj hother ▸ hclimbs
      rw [plansInside.eq_def, hclimbs] at hstays
      cases hrounds with
      | done hend =>
        rw [hwalk] at hend
        rw [hend] at hstays
        cases hstays
      | next hfollows hend =>
        subst hfollows
        have hinside := next_inside hdepth hbase hend
        rw [hwalk] at hend
        rw [hend] at hstays
        obtain ⟨names, hnames, hout⟩ := ih _ (Nat.lt_succ_self _) hinside rowsAgree_none
          (fun hne => absurd rfl hne) hstays
        exact ⟨names, List.mem_append_right _ hnames, hout⟩

end Rounds

end Kompjutr.Fs
