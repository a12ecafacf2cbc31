/-
  Kompjutr.Lib.Transducer

  Machines that read one input after the other, write some outputs for each, and may refuse an
  input.

  A machine that is fed in pieces is the run of its run, so it does what the machine does on the
  pieces put together (`run_run`): how the input is divided does not matter.  `run_simulates`
  carries a simulation of the steps to whole runs.
-/
import Mathlib.Data.List.Basic

namespace Kompjutr.Transducer

variable {ε ε' σ σ' ι ο ο' : Type}

/-- The run of a machine: the state it ends in, with everything it wrote. -/
def run (step : σ → ι → Except ε (σ × List ο)) : σ → List ι → Except ε (σ × List ο)
  | state, [] => .ok (state, [])
  | state, input :: rest =>
    (step state input).bind fun next =>
      (run step next.1 rest).map fun last => (last.1, next.2 ++ last.2)

section Run

variable {step : σ → ι → Except ε (σ × List ο)}

@[simp] theorem run_nil (state : σ) : run step state [] = .ok (state, []) := rfl

theorem run_of_error {state : σ} {input : ι} {error : ε} (rest : List ι)
    (h : step state input = .error error) : run step state (input :: rest) = .error error := by
  rw [run, h]
  rfl

theorem run_of_ok {state next : σ} {input : ι} {written : List ο} (rest : List ι)
    (h : step state input = .ok (next, written)) :
    run step state (input :: rest) =
      (run step next rest).map fun last => (last.1, written ++ last.2) := by
  rw [run, h]
  rfl

/-- An input for which nothing is written. -/
theorem run_of_silent {state next : σ} {input : ι} (rest : List ι)
    (h : step state input = .ok (next, [])) :
    run step state (input :: rest) = run step next rest := by
  rw [run_of_ok rest h]
  cases run step next rest with
  | error error => rfl
  | ok last => rfl

theorem run_append (state : σ) (left right : List ι) :
    run step state (left ++ right) = (run step state left).bind fun next =>
      (run step next.1 right).map fun last => (last.1, next.2 ++ last.2) := by
  induction left generalizing state with
  | nil =>
    rw [List.nil_append, run_nil]
    cases h : run step state right with
    | error error =>
      rw [Except.bind, h]
      rfl
    | ok last =>
      rw [Except.bind, h]
      rfl
  | cons input left ih =>
    rw [List.cons_append]
    cases h : step state input with
    | error error => rw [run_of_error _ h, run_of_error _ h, Except.bind]
    | ok next =>
      rw [run_of_ok _ h, run_of_ok _ h, ih]
      cases run step next.1 left with
      | error error => rfl
      | ok middle =>
        show Except.map _ (Except.map _ _) = Except.map _ _
        cases run step middle.1 right with
        | error error => rfl
        | ok last => exact congrArg Except.ok (congrArg _ (List.append_assoc ..).symm)

/-- A front for which nothing is written. -/
theorem run_append_silent {state next : σ} {left : List ι} (right : List ι)
    (h : run step state left = .ok (next, [])) :
    run step state (left ++ right) = run step next right := by
  rw [run_append, h]
  show Except.map _ (run step next right) = _
  cases run step next right with
  | error error => rfl
  | ok last => rfl

/-- Fed in pieces, a machine does what it does on the whole. -/
theorem run_run (state : σ) (pieces : List (List ι)) :
    run (run step) state pieces = run step state pieces.flatten := by
  induction pieces generalizing state with
  | nil => rfl
  | cons piece pieces ih =>
    rw [List.flatten_cons, run_append, run]
    refine congrArg _ (funext fun next => ?_)
    rw [ih]

/-- What every step keeps, a run keeps. -/
theorem run_invariant (Inv : σ → Prop)
    (hstep : ∀ {state input next}, Inv state → step state input = .ok next → Inv next.1)
    {state : σ} {inputs : List ι} {last : σ × List ο} (hstate : Inv state)
    (h : run step state inputs = .ok last) : Inv last.1 := by
  induction inputs generalizing state last with
  | nil =>
    cases h
    exact hstate
  | cons input inputs ih =>
    cases hnext : step state input with
    | error error =>
      rw [run_of_error _ hnext] at h
      cases h
    | ok next =>
      rw [run_of_ok _ hnext] at h
      cases hrest : run step next.1 inputs with
      | error error =>
        rw [hrest] at h
        cases h
      | ok more =>
        rw [hrest] at h
        cases h
        have hlast := ih (hstep hstate hnext) hrest
        exact hlast

/-- Machines that agree where an invariant holds have the same runs there. -/
theorem run_congr {step' : σ → ι → Except ε (σ × List ο)} (Inv : σ → Prop)
    (hsame : ∀ {state input}, Inv state → step' state input = step state input)
    (hstep : ∀ {state input next}, Inv state → step state input = .ok next → Inv next.1)
    {state : σ} (inputs : List ι) (hstate : Inv state) :
    run step' state inputs = run step state inputs := by
  induction inputs generalizing state with
  | nil => rfl
  | cons input inputs ih =>
    cases hnext : step state input with
    | error error => rw [run_of_error _ hnext, run_of_error _ ((hsame hstate).trans hnext)]
    | ok next =>
      rw [run_of_ok _ hnext, run_of_ok _ ((hsame hstate).trans hnext), ih (hstep hstate hnext)]

end Run

/-- Steps of the second machine follow those of the first: it refuses what the first refuses, and
    writes what `written` makes of the outputs of the first. -/
structure Simulates (first : σ → ι → Except ε (σ × List ο))
    (second : σ' → ι → Except ε' (σ' × List ο')) (Rel : σ → σ' → Prop) (written : ο → List ο') :
    Prop where
  refused : ∀ {s s' input error}, Rel s s' → first s input = .error error →
    ∃ error', second s' input = .error error'
  taken : ∀ {s s' input next outputs}, Rel s s' → first s input = .ok (next, outputs) →
    ∃ next', second s' input = .ok (next', outputs.flatMap written) ∧ Rel next next'

variable {first : σ → ι → Except ε (σ × List ο)} {second : σ' → ι → Except ε' (σ' × List ο')}
  {Rel : σ → σ' → Prop} {written : ο → List ο'}

/-- A simulation of the steps is one of the runs. -/
theorem run_simulates (h : Simulates first second Rel written) :
    Simulates (run first) (run second) Rel written := by
  constructor
  · intro s s' inputs error hrel hrun
    induction inputs generalizing s s' error with
    | nil => cases hrun
    | cons input inputs ih =>
      cases hstep : first s input with
      | error error =>
        obtain ⟨error', herror⟩ := h.refused hrel hstep
        exact ⟨error', run_of_error _ herror⟩
      | ok next =>
        obtain ⟨next', hnext, hrel⟩ := h.taken hrel hstep
        rw [run_of_ok _ hstep] at hrun
        cases hrest : run first next.1 inputs with
        | ok last =>
          rw [hrest] at hrun
          cases hrun
        | error error =>
          obtain ⟨error', herror⟩ := ih hrel hrest
          refine ⟨error', ?_⟩
          rw [run_of_ok _ hnext, herror]
          rfl
  · intro s s' inputs last outputs hrel hrun
    induction inputs generalizing s s' last outputs with
    | nil =>
      cases hrun
      exact ⟨s', rfl, hrel⟩
    | cons input inputs ih =>
      cases hstep : first s input with
      | error error =>
        rw [run_of_error _ hstep] at hrun
        cases hrun
      | ok next =>
        obtain ⟨next', hnext, hrel⟩ := h.taken hrel hstep
        rw [run_of_ok _ hstep] at hrun
        cases hrest : run first next.1 inputs with
        | error error =>
          rw [hrest] at hrun
          cases hrun
        | ok more =>
          obtain ⟨last', hlast, hrel⟩ := ih hrel hrest
          rw [hrest] at hrun
          cases hrun
          refine ⟨last', ?_, hrel⟩
          rw [run_of_ok _ hnext, hlast]
          exact congrArg (fun all => Except.ok (last', all)) List.flatMap_append.symm

end Kompjutr.Transducer
