/-
  Kompjutr.Lib.Frontier

  The furthest-reaching fronts of a greedy shortest-edit search on the grid
  `[off1, lim1] × [off2, lim2]`.  Diagonal `d` holds the points `(x, x - d)`; a
  front of cost `c` holds, on every other diagonal between `lo` and `hi`, the
  `x` a path of `c` non-diagonal steps reaches from the corner `(off1, off2)`.

  A front may run past the far edges: `over1` and `over2` say that it does so
  only behind a neighbour that is as far.  `Fenced` says that a window of
  diagonals around the far corner's is still strictly inside; it is what the
  opposite search gives as long as the two have not crossed (`fenced_of_apart`).
  From both, one more step stays inside the grid on the window widened by one
  diagonal and misses the far corner (`Next.inside`), and after as many steps as
  the grid has rows and columns the two searches must have crossed
  (`cost_lt_of_apart`).

  The search from the far corner is the same search on the mirrored grid.
-/
import Mathlib.Order.Basic
import Mathlib.Tactic.Common

namespace Kompjutr.Frontier

/-- The grid between the corners `(off1, off2)` and `(lim1, lim2)`. -/
structure Box where
  off1 : Int
  lim1 : Int
  off2 : Int
  lim2 : Int

namespace Box

/-- The diagonal of the near corner. -/
def near (b : Box) : Int := b.off1 - b.off2

/-- The diagonal of the far corner. -/
def far (b : Box) : Int := b.lim1 - b.lim2

def dmin (b : Box) : Int := b.off1 - b.lim2

def dmax (b : Box) : Int := b.lim1 - b.off2

/-- Neither side is empty. -/
def Proper (b : Box) : Prop := b.off1 < b.lim1 ∧ b.off2 < b.lim2

/-- Exchange the two axes. -/
def swap (b : Box) : Box := ⟨b.off2, b.lim2, b.off1, b.lim1⟩

/-- Exchange the two corners, `(x, y) ↦ (-x, -y)`. -/
def mirror (b : Box) : Box := ⟨-b.lim1, -b.off1, -b.lim2, -b.off2⟩

/-- Number of rows and columns. -/
def extent (b : Box) : Int := (b.lim1 - b.off1) + (b.lim2 - b.off2)

end Box

/-- `reach d` for the diagonals `lo, lo + 2, …, hi`. -/
structure Front where
  lo : Int
  hi : Int
  reach : Int → Int

namespace Front

/-- The diagonals a front holds. -/
def On (f : Front) (d : Int) : Prop := f.lo ≤ d ∧ d ≤ f.hi ∧ (d - f.lo) % 2 = 0

/-- The same front read along the other axis. -/
def swap (f : Front) : Front := ⟨-f.hi, -f.lo, fun d => f.reach (-d) + d⟩

/-- What holds of the front of cost `cost`. -/
structure Sound (b : Box) (cost : Int) (f : Front) : Prop where
  dmin_le : b.dmin ≤ f.lo
  le_dmax : f.hi ≤ b.dmax
  lo_le_hi : f.lo ≤ f.hi
  parity : (f.hi - f.lo) % 2 = 0
  turn : (f.lo - (b.near + cost)) % 2 = 0
  low : f.lo ≤ b.near - cost ∨ f.lo ≤ b.dmin + 1
  high : b.near + cost ≤ f.hi ∨ b.dmax - 1 ≤ f.hi
  ge1 : ∀ d, f.On d → b.off1 ≤ f.reach d
  ge2 : ∀ d, f.On d → b.off2 ≤ f.reach d - d
  sum : ∀ d, f.On d → b.off1 + b.off2 + cost ≤ 2 * f.reach d - d
  over1 : ∀ d, f.On d → b.lim1 < f.reach d → f.On (d - 2) ∧ f.reach d - 1 ≤ f.reach (d - 2)
  over2 : ∀ d, f.On d → b.lim2 < f.reach d - d → f.On (d + 2) ∧ f.reach d + 1 ≤ f.reach (d + 2)

/-- On the diagonals of the window `[plo, phi]` the front is strictly inside. -/
structure Fenced (b : Box) (f : Front) (plo phi : Int) : Prop where
  plo_le : plo ≤ b.far
  le_phi : b.far ≤ phi
  parity_lo : (plo - f.lo) % 2 = 0
  parity_hi : (phi - f.lo) % 2 = 0
  inside : ∀ d, f.On d → plo ≤ d → d ≤ phi → f.reach d < b.lim1 ∧ f.reach d - d < b.lim2

theorem on_swap {f : Front} (hpar : (f.hi - f.lo) % 2 = 0) (d : Int) :
    f.swap.On d ↔ f.On (-d) := by
  simp only [On, swap]
  omega

theorem Sound.swap {b : Box} {cost : Int} {f : Front} (h : f.Sound b cost) :
    f.swap.Sound b.swap cost := by
  have hpar := h.parity
  have hon := fun d => on_swap (f := f) hpar d
  have hturn := h.turn
  have hlow := h.low
  have hhigh := h.high
  simp only [Box.near, Box.dmin, Box.dmax] at hturn hlow hhigh
  constructor
  · have := h.le_dmax
    simp only [Box.dmin, Box.dmax, Box.swap, Front.swap] at this ⊢; omega
  · have := h.dmin_le
    simp only [Box.dmin, Box.dmax, Box.swap, Front.swap] at this ⊢; omega
  · exact Int.neg_le_neg h.lo_le_hi
  · simp only [Front.swap]; omega
  · simp only [Front.swap, Box.swap, Box.near]; omega
  · simp only [Front.swap, Box.swap, Box.near, Box.dmin]; omega
  · simp only [Front.swap, Box.swap, Box.near, Box.dmax]; omega
  · intro d hd
    have := h.ge2 (-d) ((hon d).1 hd)
    simp only [Front.swap, Box.swap]; omega
  · intro d hd
    have := h.ge1 (-d) ((hon d).1 hd)
    simp only [Front.swap, Box.swap]; omega
  · intro d hd
    have := h.sum (-d) ((hon d).1 hd)
    simp only [Front.swap, Box.swap]; omega
  · intro d hd hlt
    simp only [Front.swap, Box.swap] at hlt
    obtain ⟨hn, hr⟩ := h.over2 (-d) ((hon d).1 hd) (by omega)
    have heq : -(d - 2) = -d + 2 := by omega
    refine ⟨(hon (d - 2)).2 (heq ▸ hn), ?_⟩
    simp only [Front.swap, heq]; omega
  · intro d hd hlt
    simp only [Front.swap, Box.swap] at hlt
    obtain ⟨hn, hr⟩ := h.over1 (-d) ((hon d).1 hd) (by omega)
    have heq : -(d + 2) = -d - 2 := by omega
    refine ⟨(hon (d + 2)).2 (heq ▸ hn), ?_⟩
    simp only [Front.swap, heq]; omega

theorem Fenced.swap {b : Box} {f : Front} {plo phi : Int} (h : f.Fenced b plo phi)
    (hpar : (f.hi - f.lo) % 2 = 0) : f.swap.Fenced b.swap (-phi) (-plo) := by
  obtain ⟨hlo, hhi, hplo, hphi, hin⟩ := h
  simp only [Box.far] at hlo hhi
  refine ⟨?_, ?_, ?_, ?_, fun d hd h1 h2 => ?_⟩
  · simp only [Box.swap, Box.far]; omega
  · simp only [Box.swap, Box.far]; omega
  · simp only [Front.swap]; omega
  · simp only [Front.swap]; omega
  · have := hin (-d) ((on_swap hpar d).1 hd) (by omega) (by omega)
    simp only [Front.swap, Box.swap]; omega

/-- Up to the window's right end the front has not reached the far edge: left of the
    window an excess would have to climb, neighbour by neighbour, into the window. -/
theorem Sound.lt_lim1 {b : Box} {cost plo phi : Int} {f : Front} (h : f.Sound b cost)
    (hf : f.Fenced b plo phi) {d : Int} (hd : f.On d) (hle : d ≤ phi) : f.reach d < b.lim1 := by
  obtain ⟨k, hk⟩ : ∃ k : Nat, (plo - d).toNat = k := ⟨_, rfl⟩
  induction k using Nat.strongRecOn generalizing d with
  | _ k ih =>
    by_cases hwin : plo ≤ d
    · exact (hf.inside d hd hwin hle).1
    · by_contra hge
      have hfar := hf.plo_le
      simp only [Box.far] at hfar
      obtain ⟨hd2, hr⟩ := h.over2 d hd (by omega)
      have hphi := hf.le_phi
      have hplo := hf.parity_lo
      simp only [Box.far] at hphi
      have hpar : d + 2 ≤ plo := by
        have := hd.2.2
        omega
      have := ih (plo - (d + 2)).toNat (by omega) hd2 (by omega) rfl
      omega

end Front

-- One more step

/-- `x'` is `x` slid along diagonal `d` over matching pairs inside the box. -/
def Slide (b : Box) (same : Int → Int → Prop) (d x x' : Int) : Prop :=
  x ≤ x' ∧ (x < x' → x' ≤ b.lim1 ∧ x' - d ≤ b.lim2 ∧ same (x' - 1) (x' - 1 - d))

/-- The best entry point to diagonal `d` from the front's neighbours. -/
structure Entry (f : Front) (d x : Int) : Prop where
  right : f.On (d - 1) → f.reach (d - 1) + 1 ≤ x
  down : f.On (d + 1) → f.reach (d + 1) ≤ x
  from_one : (f.On (d - 1) ∧ x = f.reach (d - 1) + 1) ∨ (f.On (d + 1) ∧ x = f.reach (d + 1))

/-- `f'` is the front one step further than `f`. -/
structure Next (b : Box) (same : Int → Int → Prop) (f f' : Front) : Prop where
  lo_eq : (b.dmin < f.lo ∧ f'.lo = f.lo - 1) ∨ (f.lo ≤ b.dmin ∧ f'.lo = f.lo + 1)
  hi_eq : (f.hi < b.dmax ∧ f'.hi = f.hi + 1) ∨ (b.dmax ≤ f.hi ∧ f'.hi = f.hi - 1)
  step : ∀ d, f'.On d → ∃ x, Entry f d x ∧ Slide b same d x (f'.reach d)

namespace Next

variable {b : Box} {same : Int → Int → Prop} {f f' : Front} {cost plo phi : Int}

/-- A step read off the front's own values, a sentinel below all of them at either end. -/
theorem of_widened (g : Int → Int) (low : Int) (hs : f.Sound b cost) (hlow : low < b.off1)
    (hmin : (b.dmin < f.lo ∧ f'.lo = f.lo - 1 ∧ g (f'.lo - 1) = low) ∨
      (f.lo ≤ b.dmin ∧ f'.lo = f.lo + 1))
    (hmax : (f.hi < b.dmax ∧ f'.hi = f.hi + 1 ∧ g (f'.hi + 1) = low) ∨
      (b.dmax ≤ f.hi ∧ f'.hi = f.hi - 1))
    (hget : ∀ e, f.lo ≤ e → e ≤ f.hi → g e = f.reach e)
    (hstep : ∀ d, f'.On d → Slide b same d
      (if g (d + 1) ≤ g (d - 1) then g (d - 1) + 1 else g (d + 1)) (f'.reach d)) :
    Next b same f f' := by
  have hpar := hs.parity
  have hle := hs.lo_le_hi
  refine ⟨by omega, by omega, fun d hd => ⟨_, ?_, hstep d hd⟩⟩
  obtain ⟨d1, d2, d3⟩ := hd
  have hleft : (f.lo ≤ d - 1 ∧ g (d - 1) = f.reach (d - 1) ∧ low < f.reach (d - 1)) ∨
      (d - 1 < f.lo ∧ g (d - 1) = low) := by
    by_cases hon : f.lo ≤ d - 1
    · have := hs.ge1 (d - 1) ⟨hon, by omega, by omega⟩
      exact .inl ⟨hon, hget _ hon (by omega), by omega⟩
    · have e : d - 1 = f'.lo - 1 := by omega
      exact .inr ⟨by omega, by rw [e]; omega⟩
  have hright : (d + 1 ≤ f.hi ∧ g (d + 1) = f.reach (d + 1) ∧ low < f.reach (d + 1)) ∨
      (f.hi < d + 1 ∧ g (d + 1) = low) := by
    by_cases hon : d + 1 ≤ f.hi
    · have := hs.ge1 (d + 1) ⟨by omega, hon, by omega⟩
      exact .inl ⟨hon, hget _ (by omega) hon, by omega⟩
    · have e : d + 1 = f'.hi + 1 := by omega
      exact .inr ⟨by omega, by rw [e]; omega⟩
  constructor
  · intro hon
    simp only [Front.On] at hon
    split <;> omega
  · intro hon
    simp only [Front.On] at hon
    split <;> omega
  · simp only [Front.On]
    split <;> omega

section

variable (h : Next b same f f')

include h

theorem swap (hpar : (f.hi - f.lo) % 2 = 0)
    (hpar' : (f'.hi - f'.lo) % 2 = 0) :
    Next b.swap (fun x y => same y x) f.swap f'.swap := by
  obtain ⟨hlo, hhi, hstep⟩ := h
  refine ⟨?_, ?_, fun d hd => ?_⟩
  · simp only [Front.swap, Box.swap, Box.dmin, Box.dmax] at hhi ⊢; omega
  · simp only [Front.swap, Box.swap, Box.dmax, Box.dmin] at hlo ⊢; omega
  · obtain ⟨x, ⟨hr, hdn, hone⟩, hx, hslide⟩ := hstep (-d) ((Front.on_swap hpar' d).1 hd)
    have e1 : -(d - 1) = -d + 1 := by omega
    have e2 : -(d + 1) = -d - 1 := by omega
    refine ⟨x + d, ⟨fun h => ?_, fun h => ?_, ?_⟩, ?_, fun hlt => ?_⟩
    · rw [Front.on_swap hpar, e1] at h
      have := hdn h
      simp only [Front.swap, e1]; omega
    · rw [Front.on_swap hpar, e2] at h
      have := hr h
      simp only [Front.swap, e2]; omega
    · rw [Front.on_swap hpar, Front.on_swap hpar, e1, e2]
      simp only [Front.swap, e1, e2]
      rcases hone with ⟨ho, hv⟩ | ⟨ho, hv⟩
      · exact .inr ⟨ho, by omega⟩
      · exact .inl ⟨ho, by omega⟩
    · simp only [Front.swap]; omega
    · simp only [Front.swap] at hlt ⊢
      obtain ⟨h1, h2, h3⟩ := hslide (by omega)
      refine ⟨by simp only [Box.swap]; omega, by simp only [Box.swap]; omega, ?_⟩
      have ea : f'.reach (-d) + d - 1 - d = f'.reach (-d) - 1 := by omega
      have eb : f'.reach (-d) + d - 1 = f'.reach (-d) - 1 - -d := by omega
      show same (f'.reach (-d) + d - 1 - d) (f'.reach (-d) + d - 1)
      rw [ea, eb]
      exact h3

section

variable (hs : f.Sound b cost)

include hs

/-- If the new front is past the far edge on `d`, the old one had reached it on `d - 1`. -/
theorem reached_of_over {d : Int} (hd : f'.On d) (hover : b.lim1 < f'.reach d) :
    f.On (d - 1) ∧ b.lim1 ≤ f.reach (d - 1) ∧ f'.reach d - 1 ≤ f.reach (d - 1) := by
  obtain ⟨x, hentry, hx, hslide⟩ := h.step d hd
  -- past the edge nothing slides, so the entry point itself is past it
  have hxe : x = f'.reach d := by
    by_contra hne
    have := (hslide (by omega)).1
    omega
  rcases hentry.from_one with ⟨ho, hv⟩ | ⟨ho, hv⟩
  · exact ⟨ho, by omega, by omega⟩
  · obtain ⟨ho', hr⟩ := hs.over1 (d + 1) ho (by omega)
    have e : d + 1 - 2 = d - 1 := by omega
    rw [e] at ho' hr
    exact ⟨ho', by omega, by omega⟩

theorem over1 (hf : f.Fenced b plo phi)
    (hb : b.Proper) {d : Int} (hd : f'.On d) (hover : b.lim1 < f'.reach d) :
    f'.On (d - 2) ∧ f'.reach d - 1 ≤ f'.reach (d - 2) := by
  obtain ⟨ho, hge, hr⟩ := h.reached_of_over hs hd hover
  -- the fence keeps `d - 1` right of the far corner's diagonal, so off the left end
  have hright : phi < d - 1 := by
    by_contra hle
    have := hs.lt_lim1 hf ho (by omega)
    omega
  have hphi := hf.le_phi
  obtain ⟨hb1, hb2⟩ := hb
  have hon : f'.On (d - 2) := by
    have hlo := h.lo_eq
    have hd0 := hd
    have ho0 := ho
    simp only [Front.On] at hd0 ho0 ⊢
    simp only [Box.dmin, Box.far] at hlo hphi
    omega
  refine ⟨hon, ?_⟩
  obtain ⟨x, hentry, hx, -⟩ := h.step (d - 2) hon
  have e : d - 2 + 1 = d - 1 := by omega
  have := hentry.down (e ▸ ho)
  rw [e] at this
  omega

theorem parity (hb : b.Proper) :
    (f'.hi - f'.lo) % 2 = 0 ∧ f'.lo ≤ f'.hi := by
  obtain ⟨hb1, hb2⟩ := hb
  have hlo := h.lo_eq
  have hhi := h.hi_eq
  have h1 := hs.parity
  have h2 := hs.lo_le_hi
  have h3 := hs.dmin_le
  have h4 := hs.le_dmax
  simp only [Box.dmin, Box.dmax] at *
  omega

theorem sound (hf : f.Fenced b plo phi)
    (hb : b.Proper) : f'.Sound b (cost + 1) := by
  obtain ⟨hpar, hle⟩ := h.parity hs hb
  have hlo := h.lo_eq
  have hhi := h.hi_eq
  have hpar0 := hs.parity
  have hturn := hs.turn
  have hlow := hs.low
  have hhigh := hs.high
  have hdmin := hs.dmin_le
  have hdmax := hs.le_dmax
  have hle0 := hs.lo_le_hi
  obtain ⟨hb1, hb2⟩ := hb
  simp only [Box.dmin, Box.dmax, Box.near] at hlo hhi hturn hlow hhigh hdmin hdmax
  constructor
  · simp only [Box.dmin]; omega
  · simp only [Box.dmax]; omega
  · exact hle
  · exact hpar
  · simp only [Box.near]; omega
  · simp only [Box.near, Box.dmin]; omega
  · simp only [Box.near, Box.dmax]; omega
  · intro d hd
    obtain ⟨x, hentry, hx, -⟩ := h.step d hd
    rcases hentry.from_one with ⟨ho, hv⟩ | ⟨ho, hv⟩
    · have := hs.ge1 _ ho; omega
    · have := hs.ge1 _ ho; omega
  · intro d hd
    obtain ⟨x, hentry, hx, -⟩ := h.step d hd
    rcases hentry.from_one with ⟨ho, hv⟩ | ⟨ho, hv⟩
    · have := hs.ge2 _ ho; omega
    · have := hs.ge2 _ ho; omega
  · intro d hd
    obtain ⟨x, hentry, hx, -⟩ := h.step d hd
    rcases hentry.from_one with ⟨ho, hv⟩ | ⟨ho, hv⟩
    · have := hs.sum _ ho; omega
    · have := hs.sum _ ho; omega
  · exact fun d hd hover => h.over1 hs hf ⟨hb1, hb2⟩ hd hover
  · intro d hd hover
    have hd' := (Front.on_swap hpar (-d)).2 (by simpa using hd)
    have hsw := (h.swap hpar0 hpar).over1 hs.swap (hf.swap hpar0) ⟨hb2, hb1⟩ hd'
      (by simp only [Front.swap, Box.swap, Int.neg_neg]; omega)
    rw [Front.on_swap hpar] at hsw
    have e : -(-d - 2) = d + 2 := by omega
    simp only [Front.swap, e, Int.neg_neg] at hsw
    exact ⟨hsw.1, by omega⟩

/-- On the window widened by one diagonal the new front does not leave through the far edge. -/
theorem le_lim1 (hf : f.Fenced b plo phi)
    {d : Int} (hd : f'.On d) (hle : d ≤ phi + 1) : f'.reach d ≤ b.lim1 := by
  by_contra hover
  obtain ⟨ho, hge, -⟩ := h.reached_of_over hs hd (by omega)
  have := hs.lt_lim1 hf ho (by omega)
  omega

theorem le_lim2 (hf : f.Fenced b plo phi)
    (hb : b.Proper) {d : Int} (hd : f'.On d) (hle : plo - 1 ≤ d) : f'.reach d - d ≤ b.lim2 := by
  have hpar := (h.parity hs hb).1
  have hd' := (Front.on_swap hpar (-d)).2 (by simpa using hd)
  have := (h.swap hs.parity hpar).le_lim1 hs.swap (hf.swap hs.parity) hd' (by omega)
  simp only [Front.swap, Box.swap, Int.neg_neg] at this
  omega

end

/-- The new front misses the far corner when the last pair before it differs. -/
theorem ne_corner (hf : f.Fenced b plo phi)
    (hcorner : ¬ same (b.lim1 - 1) (b.lim2 - 1)) {d : Int} (hd : f'.On d) :
    ¬ (f'.reach d = b.lim1 ∧ f'.reach d - d = b.lim2) := by
  rintro ⟨h1, h2⟩
  obtain ⟨x, hentry, hx, hslide⟩ := h.step d hd
  by_cases hmoved : x < f'.reach d
  · obtain ⟨-, -, hsame⟩ := hslide hmoved
    have e : b.lim1 - 1 - d = b.lim2 - 1 := by omega
    rw [h1, e] at hsame
    exact hcorner hsame
  · have hp1 := hf.plo_le
    have hp2 := hf.le_phi
    have hq1 := hf.parity_lo
    have hq2 := hf.parity_hi
    simp only [Box.far] at hp1 hp2
    rcases hentry.from_one with ⟨ho, hv⟩ | ⟨ho, hv⟩
    · have hpo := ho.2.2
      have := (hf.inside (d - 1) ho (by omega) (by omega)).2
      omega
    · have hpo := ho.2.2
      have := (hf.inside (d + 1) ho (by omega) (by omega)).1
      omega

/-- On the far corner's own diagonal the new front stops short of the corner. -/
theorem lt_at_far (hs : f.Sound b cost) (hf : f.Fenced b plo phi)
    (hcorner : ¬ same (b.lim1 - 1) (b.lim2 - 1)) (hd : f'.On b.far) :
    f'.reach b.far < b.lim1 := by
  have hle := h.le_lim1 hs hf hd (by have := hf.le_phi; omega)
  have hne := h.ne_corner hf hcorner hd
  simp only [Box.far] at hle hne ⊢
  omega

end

end Next

-- Two searches towards each other

/-- The fronts of the two searches have not crossed on a common diagonal.  `g` is a front
    of the mirrored box, so it is read at `-d` and its reach negated. -/
def Apart (f g : Front) : Prop :=
  ∀ d, f.On d → g.On (-d) → f.reach d < -g.reach (-d)

theorem fenced_of_apart {b : Box} {k : Int} {f g : Front} (hg : g.Sound b.mirror k)
    (hk : 0 ≤ k) (hb : b.Proper) (hpar : (f.lo + g.lo) % 2 = 0) (hapart : Apart f g) :
    f.Fenced b (-g.hi) (-g.lo) := by
  have hgp := hg.parity
  have hlow := hg.low
  have hhigh := hg.high
  obtain ⟨hb1, hb2⟩ := hb
  simp only [Box.mirror, Box.near, Box.dmin, Box.dmax] at hlow hhigh
  refine ⟨?_, ?_, by omega, by omega, fun d hd h1 h2 => ?_⟩
  · simp only [Box.far]; omega
  · simp only [Box.far]; omega
  · have hon : g.On (-d) := ⟨by omega, by omega, by have := hd.2.2; omega⟩
    have hlt := hapart d hd hon
    have hb1 := hg.ge1 (-d) hon
    have hb2 := hg.ge2 (-d) hon
    simp only [Box.mirror] at hb1 hb2
    omega

theorem Apart.symm {f g : Front} (h : Apart f g) : Apart g f := by
  intro d hd hf
  have := h (-d) hf (by simpa using hd)
  simp only [Int.neg_neg] at this
  omega

theorem mirror_fenced_of_apart {b : Box} {k : Int} {f g : Front} (hf : f.Sound b k) (hk : 0 ≤ k)
    (hb : b.mirror.Proper) (hpar : (f.lo + g.lo) % 2 = 0) (hapart : Apart f g) :
    g.Fenced b.mirror (-f.hi) (-f.lo) :=
  fenced_of_apart (by simpa only [Box.mirror, Int.neg_neg] using hf) hk hb (by omega) hapart.symm

/-- Once a front has taken as many steps as the box has rows and columns it holds every
    diagonal of its parity, so some diagonal is common and the sums meet there. -/
theorem cost_lt_of_apart {b : Box} {cost k : Int} {f g : Front} (hf : f.Sound b cost)
    (hg : g.Sound b.mirror k) (hk : 0 ≤ k) (hb : b.Proper)
    (hpar : (f.lo + g.lo) % 2 = 0) (hapart : Apart f g) : cost < b.extent := by
  by_contra hge
  obtain ⟨hb1, hb2⟩ := hb
  have hlow := hf.low
  have hhigh := hf.high
  have hdmin := hg.le_dmax
  have hdmax := hg.dmin_le
  have hle := hg.lo_le_hi
  have hfp := hf.parity
  simp only [Box.mirror, Box.dmin, Box.dmax, Box.near, Box.extent] at *
  have hgon : g.On g.lo := ⟨by omega, by omega, by omega⟩
  have hfon : f.On (-g.lo) := ⟨by omega, by omega, by omega⟩
  have hlt := hapart (-g.lo) hfon (by simpa using hgon)
  have hs1 := hf.sum _ hfon
  have hs2 := hg.sum _ hgon
  simp only [Int.neg_neg] at hlt hs2
  omega

end Kompjutr.Frontier
