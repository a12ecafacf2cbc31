/-
  Kompjutr.Diff.Search

  `diff/myers-search.ts`: the bidirectional Myers scan with git's cost
  heuristics (`findSplit`) and the divide-and-conquer over it (`compare`).

  The two k-vectors are arrays over the diagonals, shifted by an offset.  The
  outer loop of `findSplit` and the recursion of `compare` are fuel-indexed;
  everything inside one turn is structurally recursive.
-/
import Kompjutr.Diff.State
import Kompjutr.Lib.Fuel

namespace Kompjutr.Diff

open Kompjutr.Fuel

def maxCostMin : Int := 256

def heurMinCost : Int := 256

def snakeCnt : Nat := 20

def kHeur : Int := 4

/-- `Number.MAX_SAFE_INTEGER`. -/
def lineMax : Int := 2 ^ 53 - 1

/-- A k-vector over diagonals, which run negative as well as positive. -/
structure Diagonals where
  values : List Int
  offset : Int

namespace Diagonals

/-- `new Diagonals(size, offset)`. -/
def ofSize (size : Nat) (offset : Int) : Diagonals := ⟨List.replicate size 0, offset⟩

/-- The search never reads outside the vector (`Diagonals.Covers`), so the default is
    not observed. -/
def get (v : Diagonals) (diagonal : Int) : Int := (readAt v.values (diagonal + v.offset)).getD 0

def set (v : Diagonals) (diagonal value : Int) : Diagonals :=
  if 0 ≤ diagonal + v.offset then
    { v with values := v.values.set (diagonal + v.offset).toNat value }
  else v

end Diagonals

/-- `Split`. -/
structure Split where
  i1 : Int
  i2 : Int
  minimalLow : Bool
  minimalHigh : Bool
  deriving DecidableEq

def hashAt (side : Side) (index : Int) : Option Nat :=
  (readAt side.reference index).bind side.classAt

/-- The arguments of `findSplit` that stay fixed. -/
structure Region where
  left : Side
  off1 : Int
  lim1 : Int
  right : Side
  off2 : Int
  lim2 : Int

namespace Region

def dmin (r : Region) : Int := r.off1 - r.lim2

def dmax (r : Region) : Int := r.lim1 - r.off2

def forwardMid (r : Region) : Int := r.off1 - r.off2

def backwardMid (r : Region) : Int := r.lim1 - r.lim2

def odd (r : Region) : Bool := (r.forwardMid - r.backwardMid) % 2 = 1

/-- The lines at search positions `i1` and `i2` are in one equality class. -/
def sameAt (r : Region) (i1 i2 : Int) : Bool := hashAt r.left i1 = hashAt r.right i2

end Region

/-- The forward snake on diagonal `d`, with at most `n` lines to go. -/
def slideForward (r : Region) (d : Int) : Nat → Int → Int
  | 0, i1 => i1
  | n + 1, i1 =>
    if i1 < r.lim1 ∧ i1 - d < r.lim2 ∧ r.sameAt i1 (i1 - d) then slideForward r d n (i1 + 1)
    else i1

/-- The backward snake on diagonal `d`. -/
def slideBackward (r : Region) (d : Int) : Nat → Int → Int
  | 0, i1 => i1
  | n + 1, i1 =>
    if r.off1 < i1 ∧ r.off2 < i1 - d ∧ r.sameAt (i1 - 1) (i1 - d - 1) then
      slideBackward r d n (i1 - 1)
    else i1

/-- The state the turns of `findSplit` share. -/
structure Scan where
  forward : Diagonals
  backward : Diagonals
  forwardMin : Int
  forwardMax : Int
  backwardMin : Int
  backwardMax : Int

/-- `for (let d = max; d >= min; d -= 2)`. -/
def diagonalsDown (max min : Int) : List Int :=
  (List.range ((max - min) / 2 + 1).toNat).map fun k : Nat => max - 2 * (k : Int)

/-- Widen the forward range by one diagonal at either end, or narrow it at the box's edge. -/
def widenForward (r : Region) (s : Scan) : Scan :=
  let s :=
    if r.dmin < s.forwardMin then
      { s with forwardMin := s.forwardMin - 1, forward := s.forward.set (s.forwardMin - 2) (-1) }
    else { s with forwardMin := s.forwardMin + 1 }
  if s.forwardMax < r.dmax then
    { s with forwardMax := s.forwardMax + 1, forward := s.forward.set (s.forwardMax + 2) (-1) }
  else { s with forwardMax := s.forwardMax - 1 }

def widenBackward (r : Region) (s : Scan) : Scan :=
  let s :=
    if r.dmin < s.backwardMin then
      { s with
        backwardMin := s.backwardMin - 1, backward := s.backward.set (s.backwardMin - 2) lineMax }
    else { s with backwardMin := s.backwardMin + 1 }
  if s.backwardMax < r.dmax then
    { s with
      backwardMax := s.backwardMax + 1, backward := s.backward.set (s.backwardMax + 2) lineMax }
  else { s with backwardMax := s.backwardMax - 1 }

/-- Entry point and end of the forward snake on diagonal `d`. -/
def forwardEntry (s : Scan) (d : Int) : Int :=
  if s.forward.get (d + 1) ≤ s.forward.get (d - 1) then s.forward.get (d - 1) + 1
  else s.forward.get (d + 1)

def forwardReach (r : Region) (s : Scan) (d : Int) : Int :=
  slideForward r d (r.lim1 - forwardEntry s d).toNat (forwardEntry s d)

def backwardEntry (s : Scan) (d : Int) : Int :=
  if s.backward.get (d - 1) < s.backward.get (d + 1) then s.backward.get (d - 1)
  else s.backward.get (d + 1) - 1

def backwardReach (r : Region) (s : Scan) (d : Int) : Int :=
  slideBackward r d (backwardEntry s d - r.off1).toNat (backwardEntry s d)

/-- The forward pass of one turn.  It answers the split of the first crossing, or the
    updated state with `sawSnake`. -/
def forwardPass (r : Region) (env : Environment) :
    List Int → Scan → Bool → Scan × (Split ⊕ Bool)
  | [], s, sawSnake => (s, .inr sawSnake)
  | d :: rest, s, sawSnake =>
    let previous := forwardEntry s d
    let i1 := forwardReach r s d
    let sawSnake := sawSnake || (env.snakeCount : Int) < i1 - previous
    let s := { s with forward := s.forward.set d i1 }
    if r.odd ∧ s.backwardMin ≤ d ∧ d ≤ s.backwardMax ∧ s.backward.get d ≤ i1 then
      (s, .inl { i1, i2 := i1 - d, minimalLow := true, minimalHigh := true })
    else forwardPass r env rest s sawSnake

/-- The backward pass of one turn. -/
def backwardPass (r : Region) (env : Environment) :
    List Int → Scan → Bool → Scan × (Split ⊕ Bool)
  | [], s, sawSnake => (s, .inr sawSnake)
  | d :: rest, s, sawSnake =>
    let previous := backwardEntry s d
    let i1 := backwardReach r s d
    let sawSnake := sawSnake || (env.snakeCount : Int) < previous - i1
    let s := { s with backward := s.backward.set d i1 }
    if !r.odd ∧ s.forwardMin ≤ d ∧ d ≤ s.forwardMax ∧ i1 ≤ s.forward.get d then
      (s, .inl { i1, i2 := i1 - d, minimalLow := true, minimalHigh := true })
    else backwardPass r env rest s sawSnake

/-- `|d - mid|`. -/
def distance (d mid : Int) : Int := if mid < d then d - mid else mid - d

/-- Search the forward front for the best long snake. -/
def forwardSnake (r : Region) (env : Environment) (s : Scan) (cost : Int) :
    List Int → Int → Option Split → Option Split
  | [], _, candidate => candidate
  | d :: rest, best, candidate =>
    let i1 := s.forward.get d
    let i2 := i1 - d
    let reach := i1 - r.off1 + (i2 - r.off2) - distance d r.forwardMid
    if kHeur * cost < reach ∧ best < reach ∧ r.off1 + env.snakeCount ≤ i1 ∧ i1 < r.lim1 ∧
        r.off2 + env.snakeCount ≤ i2 ∧ i2 < r.lim2 ∧
        (List.range env.snakeCount).all fun k : Nat => r.sameAt (i1 - (k + 1)) (i2 - (k + 1)) then
      forwardSnake r env s cost rest reach
        (some { i1, i2, minimalLow := true, minimalHigh := false })
    else forwardSnake r env s cost rest best candidate

/-- Search the backward front for the best long snake. -/
def backwardSnake (r : Region) (env : Environment) (s : Scan) (cost : Int) :
    List Int → Int → Option Split → Option Split
  | [], _, candidate => candidate
  | d :: rest, best, candidate =>
    let i1 := s.backward.get d
    let i2 := i1 - d
    let reach := r.lim1 - i1 + (r.lim2 - i2) - distance d r.backwardMid
    if kHeur * cost < reach ∧ best < reach ∧ r.off1 < i1 ∧ i1 ≤ r.lim1 - env.snakeCount ∧
        r.off2 < i2 ∧ i2 ≤ r.lim2 - env.snakeCount ∧
        (List.range env.snakeCount).all fun k : Nat => r.sameAt (i1 + k) (i2 + k) then
      backwardSnake r env s cost rest reach
        (some { i1, i2, minimalLow := false, minimalHigh := true })
    else backwardSnake r env s cost rest best candidate

/-- The point of a forward diagonal, clipped into the box. -/
def clipForward (r : Region) (s : Scan) (d : Int) : Int × Int :=
  let i1 := min (s.forward.get d) r.lim1
  let i2 := i1 - d
  if r.lim2 < i2 then (r.lim2 + d, r.lim2) else (i1, i2)

def clipBackward (r : Region) (s : Scan) (d : Int) : Int × Int :=
  let i1 := max r.off1 (s.backward.get d)
  let i2 := i1 - d
  if i2 < r.off2 then (r.off2 + d, r.off2) else (i1, i2)

/-- `(forwardBest, forwardBest1)`. -/
def furthestForward (r : Region) (s : Scan) : List Int → Int × Int → Int × Int
  | [], best => best
  | d :: rest, best =>
    let (i1, i2) := clipForward r s d
    furthestForward r s rest (if best.1 < i1 + i2 then (i1 + i2, i1) else best)

/-- `(backwardBest, backwardBest1)`. -/
def furthestBackward (r : Region) (s : Scan) : List Int → Int × Int → Int × Int
  | [], best => best
  | d :: rest, best =>
    let (i1, i2) := clipBackward r s d
    furthestBackward r s rest (if i1 + i2 < best.1 then (i1 + i2, i1) else best)

/-- Enough is enough: take the furthest reaching path from either side. -/
def furthestSplit (r : Region) (s : Scan) : Split :=
  let (forwardBest, forwardBest1) :=
    furthestForward r s (diagonalsDown s.forwardMax s.forwardMin) (-1, -1)
  let (backwardBest, backwardBest1) :=
    furthestBackward r s (diagonalsDown s.backwardMax s.backwardMin) (lineMax, lineMax)
  if r.lim1 + r.lim2 - backwardBest < forwardBest - (r.off1 + r.off2) then
    { i1 := forwardBest1, i2 := forwardBest - forwardBest1,
      minimalLow := true, minimalHigh := false }
  else
    { i1 := backwardBest1, i2 := backwardBest - backwardBest1,
      minimalLow := false, minimalHigh := true }

/-- The heuristics after the two passes of a turn. -/
def giveUp (r : Region) (needMinimal : Bool) (env : Environment) (s : Scan) (cost : Int)
    (sawSnake : Bool) : Option Split :=
  if needMinimal then none
  else
    let snake :=
      if sawSnake ∧ env.heuristicMinimum < cost then
        (forwardSnake r env s cost (diagonalsDown s.forwardMax s.forwardMin) 0 none).or
          (backwardSnake r env s cost (diagonalsDown s.backwardMax s.backwardMin) 0 none)
      else none
    snake.or (if env.maxCost ≤ cost then some (furthestSplit r s) else none)

/-- One turn of `findSplit`: a forward pass, a backward pass, the heuristics. -/
def splitTurn (r : Region) (needMinimal : Bool) (env : Environment) (cost : Int) (s : Scan) :
    Scan × Option Split :=
  let s := widenForward r s
  match forwardPass r env (diagonalsDown s.forwardMax s.forwardMin) s false with
  | (s, .inl split) => (s, some split)
  | (s, .inr sawSnake) =>
    let s := widenBackward r s
    match backwardPass r env (diagonalsDown s.backwardMax s.backwardMin) s sawSnake with
    | (s, .inl split) => (s, some split)
    | (s, .inr sawSnake) => (s, giveUp r needMinimal env s cost sawSnake)

/-- The state before the first turn. -/
def initialScan (r : Region) (forward backward : Diagonals) : Scan :=
  { forward := forward.set r.forwardMid r.off1
    backward := backward.set r.backwardMid r.lim1
    forwardMin := r.forwardMid
    forwardMax := r.forwardMid
    backwardMin := r.backwardMid
    backwardMax := r.backwardMid }

def splitBody (r : Region) (needMinimal : Bool) (env : Environment) (_fuel : Nat) :
    Int × Scan → Option ((Int × Scan) ⊕ (Split × Scan))
  | (cost, s) =>
    match splitTurn r needMinimal env cost s with
    | (s, some split) => some (.inr (split, s))
    | (s, none) => some (.inl (cost + 1, s))

/-- `xdl_split`: the bidirectional Myers scan, with git's cost heuristics.  The k-vectors
    are returned with the split, since the next call finds them as this one left them. -/
def findSplit (fuel : Nat) (r : Region) (forward backward : Diagonals) (needMinimal : Bool)
    (env : Environment) : Option (Split × Scan) :=
  loop (splitBody r needMinimal env) fuel (1, initialScan r forward backward)

-- Divide and conquer

/-- The first loop of `compare`: skip the common head of the box. -/
def skipHead (r : Region) : Nat → Int × Int → Int × Int
  | 0, low => low
  | n + 1, (low1, low2) =>
    if low1 < r.lim1 ∧ low2 < r.lim2 ∧ r.sameAt low1 low2 then skipHead r n (low1 + 1, low2 + 1)
    else (low1, low2)

/-- The second loop of `compare`: skip the common tail. -/
def skipTail (r : Region) (low1 low2 : Int) : Nat → Int × Int → Int × Int
  | 0, high => high
  | n + 1, (high1, high2) =>
    if low1 < high1 ∧ low2 < high2 ∧ r.sameAt (high1 - 1) (high2 - 1) then
      skipTail r low1 low2 n (high1 - 1, high2 - 1)
    else (high1, high2)

/-- `for (; low < high; low++) side.changed.set(side.reference[low]!, true)`. -/
def markReferences (side : Side) (low high : Int) : Side :=
  { side with
    changed := (Int.range low high).foldl
      (fun changed i =>
        match readAt side.reference i with
        | some line => changed.set line true
        | none => changed) side.changed }

/-- What `compare` reads and writes: the two sides and the two k-vectors. -/
structure Work where
  left : Side
  right : Side
  forward : Diagonals
  backward : Diagonals

/-- `xdl_recs_cmp`: divide the box at a middle snake and recurse. -/
def compare (env : Environment) :
    Nat → Work → Int → Int → Int → Int → Bool → Option Work
  | 0, _, _, _, _, _, _ => none
  | fuel + 1, w, off1, lim1, off2, lim2, needMinimal =>
    let r : Region := ⟨w.left, off1, lim1, w.right, off2, lim2⟩
    let (low1, low2) := skipHead r (lim1 - off1).toNat (off1, off2)
    let (high1, high2) := skipTail r low1 low2 (lim1 - low1).toNat (lim1, lim2)
    if low1 = high1 then some { w with right := markReferences w.right low2 high2 }
    else if low2 = high2 then some { w with left := markReferences w.left low1 high1 }
    else do
      let (split, s) ← findSplit fuel ⟨w.left, low1, high1, w.right, low2, high2⟩
        w.forward w.backward needMinimal env
      let w ← compare env fuel { w with forward := s.forward, backward := s.backward }
        low1 split.i1 low2 split.i2 split.minimalLow
      compare env fuel w split.i1 high1 split.i2 high2 split.minimalHigh

end Kompjutr.Diff
