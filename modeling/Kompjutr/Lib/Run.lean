/-
  Kompjutr.Lib.Run

  Fuel-indexed computations that may also throw.  `Run ε α` answers a value,
  throws an `ε`, or gives no answer (`none`): the fuel ran out, or the program
  reached a step its language traps, such as a read outside an array.

  `Yields run post` is the total-correctness judgement: from some fuel on `run`
  gives one and the same answer, and if that answer is a value it meets `post`.
  A thrown error meets every postcondition; no answer meets none.
-/
import Mathlib.Data.List.Forall2
import Kompjutr.Lib.Fuel

namespace Kompjutr.Fuel

open List (append_nil foldlM_cons mem_cons_of_mem mem_cons_self)

/-- A sequence answers when both parts do. -/
theorem bind_eq_ok {ε α β : Type} {x : Except ε α} {f : α → Except ε β} {b : β} :
    x >>= f = .ok b ↔ ∃ a, x = .ok a ∧ f a = .ok b := by
  cases x with
  | error e => simp [Bind.bind, Except.bind]
  | ok a => simp [Bind.bind, Except.bind]

/-- What follows a check that passed. -/
theorem after_check {ε β : Type} {x : Except ε Unit} {f : Unit → Except ε β} {b : β}
    (h : x >>= f = .ok b) : f () = .ok b := by
  obtain ⟨_, -, h⟩ := bind_eq_ok.1 h
  exact h

theorem map_eq_ok {ε α β : Type} {f : α → β} {x : Except ε α} {b : β} :
    f <$> x = .ok b ↔ ∃ a, x = .ok a ∧ f a = b := by
  cases x with
  | error e => simp [Functor.map, Except.map]
  | ok a => simp [Functor.map, Except.map]

theorem ok_bind {ε α β : Type} (a : α) (f : α → Except ε β) : Except.ok a >>= f = f a := rfl

/-- A loop keeps what it knows of the elements it took, where the loop and its steps give their
answers by `G`. -/
theorem foldlM_keeps {m : Type → Type} [Monad m] {α β : Type} {G : m β → β → Prop}
    {f : β → α → m β} {xs : List α} {b out : β} (hpure : ∀ {a b}, G (pure a) b → a = b)
    (hbind : ∀ {x g b}, G (x >>= g) b → ∃ a, G x a ∧ G (g a) b)
    (Inv : List α → β → Prop)
    (hstep : ∀ taken b x b', x ∈ xs → Inv taken b → G (f b x) b' → Inv (taken ++ [x]) b')
    (hb : Inv [] b) (h : G (xs.foldlM f b) out) : Inv xs out := by
  have hall : ∀ (rest taken : List α) (b : β), (∀ x ∈ rest, x ∈ xs) → Inv taken b →
      G (rest.foldlM f b) out → Inv (taken ++ rest) out := by
    intro rest
    induction rest with
    | nil =>
      intro taken b _ hb h
      rw [append_nil, ← hpure h]
      exact hb
    | cons x rest ih =>
      intro taken b hrest hb h
      rw [foldlM_cons] at h
      obtain ⟨b', hfirst, hlast⟩ := hbind h
      have hnext := ih (taken ++ [x]) b' (fun y hy => hrest y (mem_cons_of_mem _ hy))
        (hstep taken b x b' (hrest x mem_cons_self) hb hfirst) hlast
      rw [List.append_assoc] at hnext
      exact hnext
  exact hall xs [] b (fun _ h => h) hb h

theorem foldlM_taken {ε α β : Type} {f : β → α → Except ε β} {xs : List α} {b out : β}
    (Inv : List α → β → Prop)
    (hstep : ∀ taken b x b', x ∈ xs → Inv taken b → f b x = .ok b' → Inv (taken ++ [x]) b')
    (hb : Inv [] b) (h : xs.foldlM f b = .ok out) : Inv xs out :=
  foldlM_keeps (G := fun (x : Except ε β) a => x = .ok a) Except.ok.inj bind_eq_ok.1 Inv hstep hb h

/-- A loop that answers keeps the invariant of its accumulator. -/
theorem foldlM_ok {ε α β : Type} {f : β → α → Except ε β} {xs : List α} {b out : β}
    (Inv : β → Prop) (hstep : ∀ b x b', x ∈ xs → Inv b → f b x = .ok b' → Inv b') (hb : Inv b)
    (h : xs.foldlM f b = .ok out) : Inv out :=
  foldlM_taken (fun _ => Inv) (fun _ => hstep) hb h

/-- A loop over checks passes each of them. -/
theorem forM_ok {ε α : Type} {f : α → Except ε Unit} {xs : List α} {x : α}
    (h : xs.forM f = .ok ()) (hx : x ∈ xs) : f x = .ok () := by
  induction xs with
  | nil => nomatch hx
  | cons first rest ih =>
    obtain ⟨⟨⟩, hfirst, hrest⟩ := bind_eq_ok.1 h
    obtain rfl | hx := List.mem_cons.1 hx
    · exact hfirst
    · exact ih hrest hx

theorem forM_eq_ok {ε α : Type} {f : α → Except ε Unit} {xs : List α}
    (h : ∀ x ∈ xs, f x = .ok ()) : xs.forM f = .ok () := by
  induction xs with
  | nil => rfl
  | cons first rest ih =>
    rw [List.forall_mem_cons] at h
    exact bind_eq_ok.2 ⟨(), h.1, ih h.2⟩

/-- The answers of a `mapM`, one for each element. -/
theorem mapM_ok {ε α β : Type} {f : α → Except ε β} {xs : List α} {out : List β}
    (h : xs.mapM f = .ok out) : List.Forall₂ (fun x y => f x = .ok y) xs out := by
  induction xs generalizing out with
  | nil =>
    cases h
    exact .nil
  | cons x xs ih =>
    rw [List.mapM_cons] at h
    obtain ⟨y, hfirst, h⟩ := bind_eq_ok.1 h
    obtain ⟨ys, hrest, h⟩ := bind_eq_ok.1 h
    cases h
    exact .cons hfirst (ih hrest)

theorem Forall₂.map_eq {α β γ : Type} {R : α → β → Prop} {f : α → γ} {g : β → γ} {xs : List α}
    {ys : List β} (h : List.Forall₂ R xs ys) (hR : ∀ x y, R x y → g y = f x) :
    ys.map g = xs.map f := by
  induction h with
  | nil => rfl
  | cons hfirst _ ih => rw [List.map_cons, List.map_cons, hR _ _ hfirst, ih]

section

variable {α β : Type} {R : α → β → Prop} {xs : List α} {ys : List β} (h : List.Forall₂ R xs ys)

include h

theorem Forall₂.exists_left {y : β} (hy : y ∈ ys) : ∃ x ∈ xs, R x y := by
  induction h with
  | nil => cases hy
  | cons hfirst _ ih =>
    rcases List.mem_cons.1 hy with rfl | hy
    · exact ⟨_, mem_cons_self, hfirst⟩
    · obtain ⟨x, hx, hR⟩ := ih hy
      exact ⟨x, mem_cons_of_mem _ hx, hR⟩

theorem Forall₂.exists_right {x : α} (hx : x ∈ xs) : ∃ y ∈ ys, R x y :=
  Forall₂.exists_left h.flip hx

end

section

variable {ε α β : Type} {f : α → Except ε β} {xs : List α} {out : List β} (h : xs.mapM f = .ok out)

include h

/-- Each answer of a `mapM` is the answer of an element. -/
theorem mapM_mem {y : β} (hy : y ∈ out) : ∃ x ∈ xs, f x = .ok y :=
  Forall₂.exists_left (mapM_ok h) hy

/-- Each element of a `mapM` has its answer. -/
theorem mapM_answer {x : α} (hx : x ∈ xs) : ∃ y ∈ out, f x = .ok y :=
  Forall₂.exists_right (mapM_ok h) hx

end

/-- A computation that answers, throws, or gives no answer. -/
abbrev Run (ε α : Type) := ExceptT ε Option α

variable {ε α β : Type}

namespace Run

/-- No answer. -/
def stuck : Run ε α := ExceptT.mk none

/-- The answer of a computation that always gives one. -/
def ofExcept (x : Except ε α) : Run ε α := ExceptT.mk (some x)

/-- A step that traps on `none`. -/
def ofOption : Option α → Run ε α
  | some a => pure a
  | none => stuck

/-- `run` answers with this value. -/
def Gives (run : Run ε α) (a : α) : Prop := run.run = some (.ok a)

theorem gives_mk {x : Option (Except ε α)} {a : α} :
    Gives (ExceptT.mk x) a ↔ x = some (.ok a) := Iff.rfl

theorem gives_pure {a b : α} : Gives (pure a : Run ε α) b ↔ a = b := by
  constructor
  · intro h
    exact Except.ok.inj (Option.some.inj h)
  · rintro rfl
    rfl

theorem gives_ofExcept {x : Except ε α} {a : α} : Gives (ofExcept x) a ↔ x = .ok a :=
  ⟨Option.some.inj, congrArg some⟩

theorem gives_ofOption {x : Option α} {a : α} : Gives (ofOption x : Run ε α) a ↔ x = some a := by
  cases x with
  | none => exact ⟨(fun h => nomatch h), (fun h => nomatch h)⟩
  | some b => exact gives_pure.trans ⟨congrArg some, Option.some.inj⟩

theorem gives_bind {x : Run ε α} {f : α → Run ε β} {b : β} :
    Gives (x >>= f) b ↔ ∃ a, Gives x a ∧ Gives (f a) b := by
  unfold Gives
  simp only [ExceptT.run, Bind.bind, ExceptT.bind, ExceptT.mk]
  rcases x with _ | e | a
  · simp
  · simp only [Option.bind_some, ExceptT.bindCont]
    constructor
    · intro h
      cases h
    · rintro ⟨a, h, -⟩
      cases h
  · simp only [Option.bind_some, ExceptT.bindCont]
    constructor
    · intro h
      exact ⟨a, rfl, h⟩
    · rintro ⟨a', ha, h⟩
      cases ha
      exact h

theorem gives_map {x : Run ε α} {f : α → β} {b : β} :
    Gives (f <$> x) b ↔ ∃ a, Gives x a ∧ f a = b := by
  rw [map_eq_pure_bind, gives_bind]
  simp only [gives_pure]

theorem gives_foldlM {f : β → α → Run ε β} {xs : List α} {b out : β} (Inv : List α → β → Prop)
    (hstep : ∀ taken b x b', x ∈ xs → Inv taken b → Gives (f b x) b' → Inv (taken ++ [x]) b')
    (hb : Inv [] b) (h : Gives (xs.foldlM f b) out) : Inv xs out :=
  foldlM_keeps gives_pure.1 gives_bind.1 Inv hstep hb h

end Run

/-- `run` terminates, and meets `post` when it answers with a value. -/
def Yields (run : Nat → Run ε α) (post : α → Prop) : Prop :=
  ∃ out : Except ε α, Settles (fun fuel => (run fuel).run) out ∧ ∀ a, out = .ok a → post a

namespace Yields

variable {P Q : α → Prop}

theorem pure {a : α} (h : P a) : Yields (fun _ => (Pure.pure a : Run ε α)) P := by
  refine ⟨.ok a, Settles.of_const fun _ => rfl, ?_⟩
  rintro b ⟨⟩
  exact h

theorem throw {e : ε} : Yields (fun _ => (MonadExcept.throw e : Run ε α)) P := by
  refine ⟨.error e, Settles.of_const fun _ => rfl, ?_⟩
  rintro b ⟨⟩

theorem ofExcept {x : Except ε α} (h : ∀ a, x = .ok a → P a) :
    Yields (fun _ => Run.ofExcept x) P :=
  ⟨x, Settles.of_const fun _ => rfl, h⟩

theorem ofOption {x : Option α} {a : α} (hx : x = some a) (h : P a) :
    Yields (fun _ => (Run.ofOption x : Run ε α)) P := by
  subst hx
  exact pure h

variable {run : Nat → Run ε α}

theorem mono (h : Yields run P) (himp : ∀ a, P a → Q a) : Yields run Q := by
  obtain ⟨out, hsettles, hpost⟩ := h
  exact ⟨out, hsettles, fun a ha => himp a (hpost a ha)⟩

/-- What holds of every answer there may be holds of the one that `run` settles on. -/
theorem and_gives (h : Yields run P)
    (hQ : ∀ fuel a, Run.Gives (run fuel) a → Q a) : Yields run fun a => P a ∧ Q a := by
  obtain ⟨out, ⟨n, hn⟩, hpost⟩ := h
  refine ⟨out, ⟨n, hn⟩, ?_⟩
  rintro a rfl
  exact ⟨hpost a rfl, hQ n a (hn n (Nat.le_refl _))⟩

theorem and (h : Yields run P) (h' : Yields run Q) : Yields run fun a => P a ∧ Q a := by
  obtain ⟨out, hsettles, hpost⟩ := h
  obtain ⟨out', hsettles', hpost'⟩ := h'
  obtain rfl := hsettles.unique hsettles'
  exact ⟨out, hsettles, fun a ha => ⟨hpost a ha, hpost' a ha⟩⟩

/-- The answer of a computation that has one. -/
theorem answer {a : α} (h : Yields run P)
    (ha : Settles (fun fuel => (run fuel).run) (.ok a)) : P a := by
  obtain ⟨out, hsettles, hpost⟩ := h
  exact hpost a (hsettles.unique ha)

/-- Sequencing.  When the first part throws, the rest is not reached. -/
theorem bind {run : Nat → Run ε α} {k : Nat → α → Run ε β} {R : β → Prop}
    (h : Yields run P) (hk : ∀ a, P a → Yields (fun fuel => k fuel a) R) :
    Yields (fun fuel => run fuel >>= k fuel) R := by
  obtain ⟨out, ⟨n, hn⟩, hpost⟩ := h
  cases out with
  | error e =>
    refine ⟨.error e, ⟨n, fun fuel hfuel => ?_⟩, by rintro b ⟨⟩⟩
    have hrun := hn fuel hfuel
    simp only [ExceptT.run] at hrun
    simp only [ExceptT.run, Bind.bind, ExceptT.bind, ExceptT.mk, hrun, Option.bind_some]
    rfl
  | ok a =>
    obtain ⟨out, ⟨m, hm⟩, hpost'⟩ := hk a (hpost a rfl)
    refine ⟨out, ⟨max n m, fun fuel hfuel => ?_⟩, hpost'⟩
    have hrun := hn fuel (by omega)
    have hrest := hm fuel (by omega)
    simp only [ExceptT.run] at hrun hrest
    simp only [ExceptT.run, Bind.bind, ExceptT.bind, ExceptT.mk, hrun, Option.bind_some]
    exact hrest

theorem map {f : α → β} {R : β → Prop}
    (h : Yields run fun a => R (f a)) : Yields (fun fuel => f <$> run fuel) R := by
  simp only [map_eq_pure_bind]
  exact h.bind fun a ha => pure ha

/-- What holds of the image of an answer holds of the answer. -/
theorem of_map {x : Run ε α} {f : α → β} {R : β → Prop} (h : Yields (fun _ => f <$> x) R) :
    Yields (fun _ => x) fun a => R (f a) := by
  obtain ⟨out, ⟨n, hn⟩, hpost⟩ := h
  have hrun : (f <$> x).run = some out := hn n (Nat.le_refl _)
  rw [ExceptT.run_map] at hrun
  obtain ⟨out', hx, rfl⟩ := Option.map_eq_some_iff.1 hrun
  refine ⟨out', Settles.of_const fun _ => hx, ?_⟩
  rintro a rfl
  exact hpost (f a) rfl

theorem ite {c : Prop} [Decidable c] {run' : Nat → Run ε α}
    (h : c → Yields run P) (h' : ¬ c → Yields run' P) :
    Yields (fun fuel => if c then run fuel else run' fuel) P := by
  by_cases hc : c
  · simpa only [if_pos hc] using h hc
  · simpa only [if_neg hc] using h' hc

/-- `if (c) throw e;` -/
theorem guard {c : Prop} [Decidable c] {e : ε} (h : ¬ c → Yields run P) :
    Yields (fun fuel => if c then MonadExcept.throw e else run fuel) P :=
  ite (fun _ => throw) h

/-- A loop over a list, by an invariant of the accumulator and the elements taken. -/
theorem foldlM_taken {f : Nat → β → α → Run ε β} {xs : List α} (taken : List α)
    (Inv : List α → β → Prop) (hstep : ∀ taken b, ∀ x ∈ xs, Inv taken b →
      Yields (fun fuel => f fuel b x) (Inv (taken ++ [x]))) {b : β} (hb : Inv taken b) :
    Yields (fun fuel => xs.foldlM (f fuel) b) (Inv (taken ++ xs)) := by
  induction xs generalizing taken b with
  | nil =>
    rw [append_nil]
    exact pure hb
  | cons x xs ih =>
    simp only [foldlM_cons]
    refine bind (hstep taken b x mem_cons_self hb) fun b' hb' => ?_
    have hrest := ih (taken ++ [x]) (fun taken b y hy => hstep taken b y (mem_cons_of_mem _ hy))
      hb'
    rwa [List.append_assoc] at hrest

/-- A loop for its errors only. -/
theorem forM {f : Nat → α → Run ε PUnit} {xs : List α}
    (hstep : ∀ x ∈ xs, Yields (fun fuel => f fuel x) fun _ => True) :
    Yields (fun fuel => xs.forM (f fuel)) fun _ => True := by
  induction xs with
  | nil => exact pure trivial
  | cons x xs ih =>
    show Yields (fun fuel => f fuel x >>= fun _ => xs.forM (f fuel)) _
    exact bind (hstep x mem_cons_self) fun _ _ =>
      ih fun y hy => hstep y (mem_cons_of_mem _ hy)

end Yields

end Kompjutr.Fuel
