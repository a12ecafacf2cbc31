/-
  Kompjutr.Diff.XmergeInput

  The inputs of the three-way merge: its options and limits
  (`diff/xmerge-types.ts`, `diff/xmerge-input.ts`), the byte scans, and the
  memory estimate (`diff/xmerge-memory.ts`).

  A number option is an integer or missing.  A label is its list of UTF-16
  code units.
-/
import Kompjutr.Diff.State

namespace Kompjutr.Diff

def mib : Int := 1024 * 1024
def defaultMarkerSize : Int := 7
def lineRecordBytes : Int := 96
def diffLineBytes : Int := 320
def changeBytes : Int := 192
def mergeBytes : Int := 256
def fixedMergeBytes : Int := 4096

inductive TextMergeStyle where
  | merge | diff3 | zdiff3
  deriving DecidableEq

inductive TextMergeRefinement where
  | eager | zealous | zealousAlnum
  deriving DecidableEq

structure TextMergeLabels where
  current : Option (List UInt16) := none
  base : Option (List UInt16) := none
  incoming : Option (List UInt16) := none

/-- `TextMergeLimits`, and with `ν := Option Int` its `Partial`. -/
structure TextMergeLimits (ν : Type) where
  maxInputBytes : ν
  maxTotalInputBytes : ν
  maxLineBytes : ν
  maxLines : ν
  maxChanges : ν
  maxConflicts : ν
  maxConflictBytes : ν
  maxLabelBytes : ν
  maxMarkerSize : ν
  maxOutputBytes : ν
  maxMemoryBytes : ν
  deriving DecidableEq

def defaultTextMergeLimits : TextMergeLimits Int where
  maxInputBytes := 8 * mib
  maxTotalInputBytes := 24 * mib
  maxLineBytes := 8 * mib
  maxLines := 200000
  maxChanges := 100000
  maxConflicts := 20000
  maxConflictBytes := 16 * mib
  maxLabelBytes := 256
  maxMarkerSize := 64
  maxOutputBytes := 32 * mib
  maxMemoryBytes := 64 * mib

structure TextMergeOptions where
  style : Option TextMergeStyle := none
  refinement : Option TextMergeRefinement := none
  labels : TextMergeLabels := {}
  markerSize : Option Int := none
  indentHeuristic : Option Bool := none
  limits : Option (TextMergeLimits (Option Int)) := none

structure TextMergeMemoryEstimate where
  inputBytes : Int
  lines : Int
  lineTableBytes : Int
  diffWorkspaceBytes : Int
  changeListBytes : Int
  mergeListBytes : Int
  outputBytes : Int
  fixedBytes : Int
  peakBytes : Int
  deriving DecidableEq

inductive TextMergeResult where
  | clean (content : List UInt8) (memory : TextMergeMemoryEstimate)
  | conflict (content : List UInt8) (conflicts : Int) (memory : TextMergeMemoryEstimate)
  | binary (memory : TextMergeMemoryEstimate)
  deriving DecidableEq

structure InputInfo where
  lines : Int
  maxLineBytes : Int
  deriving DecidableEq

structure EncodedLabels where
  current : Option (List UInt8)
  base : Option (List UInt8)
  incoming : Option (List UInt8)
  deriving DecidableEq

structure ResolvedOptions where
  style : TextMergeStyle
  refinement : TextMergeRefinement
  labels : EncodedLabels
  markerSize : Int
  indentHeuristic : Bool
  limits : TextMergeLimits Int
  deriving DecidableEq

-- `xmerge-helpers.ts`

def bytesEqual (left right : List UInt8) : Bool :=
  left.length = right.length &&
    (List.range left.length).all fun index => left[index]? = right[index]?

theorem bytesEqual_iff (left right : List UInt8) : bytesEqual left right = true ↔ left = right := by
  simp only [bytesEqual, Bool.and_eq_true, decide_eq_true_eq, List.all_eq_true, List.mem_range]
  constructor
  · rintro ⟨hlen, hall⟩
    apply List.ext_getElem? fun i => ?_
    by_cases hi : i < left.length
    · exact hall i hi
    · rw [List.getElem?_eq_none (by omega), List.getElem?_eq_none (by omega)]
  · rintro rfl
    simp

def byteLength (bytes : Option (List UInt8)) : Int := (bytes.map List.length).getD 0

def tooBig (resource : String) (limit : Int) : GitError :=
  { code := "E2BIG", message := s!"{resource} exceeds {limit}" }

def unsafeCapacity (resource : String) : GitError :=
  { code := "E2BIG", message := s!"text merge {resource} exceeds safe capacity" }

def checkedSum (values : List Int) (resource : String) : Except GitError Int :=
  values.foldlM (fun sum value =>
    if isSafeInteger (sum + value) then pure (sum + value) else throw (unsafeCapacity resource)) 0

def safeProduct (left right : Int) (resource : String) : Except GitError Int :=
  if isSafeInteger (left * right) then pure (left * right) else throw (unsafeCapacity resource)

def addSize (size addition limit : Int) : Except GitError Int := do
  let next ← checkedSum [size, addition] "output"
  if next > limit then throw (tooBig "text merge output" limit)
  return next

-- Options

def notSafe (name : String) : GitError :=
  { code := "EINVAL", message := s!"text merge {name} must be a non-negative safe integer" }

def cappedLimit (name : String) (value : Option Int) (ceiling : Int) : Except GitError Int :=
  match value with
  | none => pure ceiling
  | some value =>
    if !isSafeInteger value || value < 0 then throw (notSafe name)
    else if value > ceiling then
      throw {
        code := "EINVAL"
        message := s!"text merge {name} exceeds its hard ceiling of {ceiling}" }
    else pure value

/-- `charCodeAt` in the surrogate ranges. -/
def isHighSurrogate (unit : UInt16) : Bool := 0xd800 ≤ unit && unit ≤ 0xdbff
def isLowSurrogate (unit : UInt16) : Bool := 0xdc00 ≤ unit && unit ≤ 0xdfff

/-- The UTF-8 bytes of a code point. -/
def encodePoint (point : Nat) : List UInt8 :=
  if point < 0x80 then [point.toUInt8]
  else if point < 0x800 then [(0xc0 + point / 64).toUInt8, (0x80 + point % 64).toUInt8]
  else if point < 0x10000 then
    [(0xe0 + point / 4096).toUInt8, (0x80 + point / 64 % 64).toUInt8, (0x80 + point % 64).toUInt8]
  else
    [(0xf0 + point / 262144).toUInt8, (0x80 + point / 4096 % 64).toUInt8,
      (0x80 + point / 64 % 64).toUInt8, (0x80 + point % 64).toUInt8]

/-- `TextEncoder.encode`: a lone surrogate becomes U+FFFD. -/
def textEncode : List UInt16 → List UInt8
  | [] => []
  | [unit] =>
    encodePoint (if isHighSurrogate unit || isLowSurrogate unit then 0xfffd else unit.toNat)
  | unit :: next :: rest =>
    if isHighSurrogate unit && isLowSurrogate next then
      encodePoint (0x10000 + (unit.toNat - 0xd800) * 0x400 + (next.toNat - 0xdc00)) ++
        textEncode rest
    else
      encodePoint (if isHighSurrogate unit || isLowSurrogate unit then 0xfffd else unit.toNat) ++
        textEncode (next :: rest)

def badLabel (role problem : String) : GitError :=
  { code := "EINVAL", message := s!"text merge {role} label contains {problem}" }

/-- The loop of `encodeLabel` from a position with `bytes` counted so far.  Past the end
    `charCodeAt` is `NaN`, and neither comparison with it holds. -/
def checkLabel (role : String) (limit : Int) : Int → List UInt16 → Except GitError Unit
  | _, [] => pure ()
  | bytes, unit :: rest =>
    if unit = 0 || unit = 0x0a || unit = 0x0d then
      throw (badLabel role "a structural control byte")
    else if isHighSurrogate unit then
      match rest with
      | [] => if bytes + 4 > limit then throw (tooBig s!"text merge {role} label" limit) else pure ()
      | next :: rest =>
        if !isLowSurrogate next then throw (badLabel role "an unpaired surrogate")
        else if bytes + 4 > limit then throw (tooBig s!"text merge {role} label" limit)
        else checkLabel role limit (bytes + 4) rest
    else if isLowSurrogate unit then throw (badLabel role "an unpaired surrogate")
    else
      let bytes := bytes + if unit < 0x80 then 1 else if unit < 0x800 then 2 else 3
      if bytes > limit then throw (tooBig s!"text merge {role} label" limit)
      else checkLabel role limit bytes rest

def encodeLabel (label : Option (List UInt16)) (role : String) (limit : Int) :
    Except GitError (Option (List UInt8)) := do
  match label with
  | none => return none
  | some label =>
    checkLabel role limit 0 label
    return some (textEncode label)

/-- `Object.entries(limits)`. -/
def limitEntries (limits : TextMergeLimits Int) : List (String × Int) :=
  [("maxInputBytes", limits.maxInputBytes), ("maxTotalInputBytes", limits.maxTotalInputBytes),
    ("maxLineBytes", limits.maxLineBytes), ("maxLines", limits.maxLines),
    ("maxChanges", limits.maxChanges), ("maxConflicts", limits.maxConflicts),
    ("maxConflictBytes", limits.maxConflictBytes), ("maxLabelBytes", limits.maxLabelBytes),
    ("maxMarkerSize", limits.maxMarkerSize), ("maxOutputBytes", limits.maxOutputBytes),
    ("maxMemoryBytes", limits.maxMemoryBytes)]

def resolveLimits (given : Option (TextMergeLimits (Option Int))) :
    Except GitError (TextMergeLimits Int) := do
  let field (read : TextMergeLimits (Option Int) → Option Int) := given.bind read
  let ceiling := defaultTextMergeLimits
  return {
    maxInputBytes :=
      ← cappedLimit "maxInputBytes" (field (·.maxInputBytes)) ceiling.maxInputBytes
    maxTotalInputBytes :=
      ← cappedLimit "maxTotalInputBytes" (field (·.maxTotalInputBytes)) ceiling.maxTotalInputBytes
    maxLineBytes := ← cappedLimit "maxLineBytes" (field (·.maxLineBytes)) ceiling.maxLineBytes
    maxLines := ← cappedLimit "maxLines" (field (·.maxLines)) ceiling.maxLines
    maxChanges := ← cappedLimit "maxChanges" (field (·.maxChanges)) ceiling.maxChanges
    maxConflicts := ← cappedLimit "maxConflicts" (field (·.maxConflicts)) ceiling.maxConflicts
    maxConflictBytes :=
      ← cappedLimit "maxConflictBytes" (field (·.maxConflictBytes)) ceiling.maxConflictBytes
    maxLabelBytes := ← cappedLimit "maxLabelBytes" (field (·.maxLabelBytes)) ceiling.maxLabelBytes
    maxMarkerSize := ← cappedLimit "maxMarkerSize" (field (·.maxMarkerSize)) ceiling.maxMarkerSize
    maxOutputBytes :=
      ← cappedLimit "maxOutputBytes" (field (·.maxOutputBytes)) ceiling.maxOutputBytes
    maxMemoryBytes :=
      ← cappedLimit "maxMemoryBytes" (field (·.maxMemoryBytes)) ceiling.maxMemoryBytes }

def resolveOptions (options : TextMergeOptions) : Except GitError ResolvedOptions := do
  let limits ← resolveLimits options.limits
  (limitEntries limits).forM fun (name, value) =>
    if !isSafeInteger value || value < 0 then throw (notSafe name) else pure ()
  let style := options.style.getD .merge
  let refinement := options.refinement.getD .zealousAlnum
  let markerSize := options.markerSize.getD defaultMarkerSize
  if !isSafeInteger markerSize || markerSize ≤ 0 then
    throw { code := "EINVAL", message := "text merge marker size must be a positive safe integer" }
  if markerSize > limits.maxMarkerSize then
    throw (tooBig "text merge marker size" limits.maxMarkerSize)
  let current ← encodeLabel options.labels.current "current" limits.maxLabelBytes
  let base ← encodeLabel options.labels.base "base" limits.maxLabelBytes
  let incoming ← encodeLabel options.labels.incoming "incoming" limits.maxLabelBytes
  return {
    style, refinement, markerSize, limits
    indentHeuristic := options.indentHeuristic = some true
    labels := { current, base, incoming } }

-- Byte scans

/-- `FIRST_FEW_BYTES` of `lines.ts`. -/
def firstFewBytes : Nat := 8000

def isBinary (bytes : List UInt8) : Bool := (bytes.take firstFewBytes).any (· = 0)

/-- The loop of `scanInput`, with `n` bytes to go. -/
def scanLoop (input : List UInt8) : Nat → Nat → Nat → InputInfo → InputInfo
  | 0, start, _, info =>
    if start < input.length then
      { lines := info.lines + 1
        maxLineBytes := max info.maxLineBytes (input.length - start) }
    else info
  | n + 1, start, index, info =>
    if input[index]? ≠ some 0x0a then scanLoop input n start (index + 1) info
    else scanLoop input n (index + 1) (index + 1)
      { lines := info.lines + 1, maxLineBytes := max info.maxLineBytes (index + 1 - start) }

def scanInput (input : List UInt8) : InputInfo := scanLoop input input.length 0 0 ⟨0, 0⟩

def validateAndScanInputs (base current incoming : List UInt8) (limits : TextMergeLimits Int) :
    Except GitError (List InputInfo) := do
  let inputs := [base, current, incoming]
  inputs.forM fun input =>
    if input.length > limits.maxInputBytes then throw (tooBig "text merge input" limits.maxInputBytes)
    else pure ()
  let total ← checkedSum (inputs.map fun input => (input.length : Int)) "input"
  if total > limits.maxTotalInputBytes then
    throw (tooBig "text merge total input" limits.maxTotalInputBytes)
  let infos := inputs.map scanInput
  let lines ← checkedSum (infos.map (·.lines)) "line count"
  if lines > limits.maxLines then throw (tooBig "text merge line count" limits.maxLines)
  infos.forM fun info =>
    if info.maxLineBytes > limits.maxLineBytes then
      throw (tooBig "text merge line" limits.maxLineBytes)
    else pure ()
  return infos

/-- The loop of `splitByteRecords`, with `n` bytes to go. -/
def splitLoop (bytes : List UInt8) : (n start index : Nat) → start ≤ index →
    index + n = bytes.length → List ByteRecord
  | 0, start, index, hle, hn =>
    if start < bytes.length then [⟨bytes, start, bytes.length, by omega, Nat.le_refl _⟩] else []
  | n + 1, start, index, hle, hn =>
    if bytes[index]? ≠ some 0x0a then splitLoop bytes n start (index + 1) (by omega) (by omega)
    else ⟨bytes, start, index + 1, by omega, by omega⟩ ::
      splitLoop bytes n (index + 1) (index + 1) (Nat.le_refl _) (by omega)

def splitByteRecords (bytes : List UInt8) : List ByteRecord :=
  splitLoop bytes bytes.length 0 0 (Nat.le_refl _) (by omega)

-- Memory estimate

def identityMergeContent (base current incoming : List UInt8) : Option (List UInt8) :=
  if bytesEqual current incoming then some current
  else if bytesEqual base current then some incoming
  else if bytesEqual base incoming then some current
  else none

def memoryEstimate (inputBytes lines activeDiffLines changes merges outputBytes : Int)
    (options : ResolvedOptions) : Except GitError TextMergeMemoryEstimate := do
  let lineTableBytes ← safeProduct lines lineRecordBytes "line table"
  let diffWorkspaceBytes ← safeProduct activeDiffLines diffLineBytes "diff workspace"
  let changeListBytes ← safeProduct changes changeBytes "change list"
  let mergeListBytes ← safeProduct merges mergeBytes "merge list"
  let fixedBytes ← checkedSum [fixedMergeBytes, byteLength options.labels.current,
    byteLength options.labels.base, byteLength options.labels.incoming] "fixed state"
  let peakBytes ← checkedSum [inputBytes, lineTableBytes, diffWorkspaceBytes, changeListBytes,
    mergeListBytes, outputBytes, fixedBytes] "memory estimate"
  if peakBytes > options.limits.maxMemoryBytes then
    throw (tooBig "text merge memory" options.limits.maxMemoryBytes)
  return { inputBytes, lines, lineTableBytes, diffWorkspaceBytes, changeListBytes, mergeListBytes
           outputBytes, fixedBytes, peakBytes }

def estimateResolvedTextMergeMemory (base current incoming : List UInt8)
    (resolved : ResolvedOptions) : Except GitError TextMergeMemoryEstimate := do
  let infos ← validateAndScanInputs base current incoming resolved.limits
  let inputBytes ←
    checkedSum [(base.length : Int), (current.length : Int), (incoming.length : Int)] "input"
  if isBinary base || isBinary current || isBinary incoming then
    return ← memoryEstimate inputBytes 0 0 0 0 0 resolved
  match identityMergeContent base current incoming with
  | some identity =>
    if identity.length > resolved.limits.maxOutputBytes then
      throw (tooBig "text merge output" resolved.limits.maxOutputBytes)
    memoryEstimate inputBytes 0 0 0 0 0 resolved
  | none =>
    let lines ← checkedSum (infos.map (·.lines)) "line count"
    let linesOf (i : Nat) : Int := ((infos[i]?).map (·.lines)).getD 0
    let leftDiffLines := linesOf 0 + linesOf 1
    let rightDiffLines := linesOf 0 + linesOf 2
    let refinementDiffLines := linesOf 1 + linesOf 2
    let potentialChanges := min resolved.limits.maxChanges (leftDiffLines + rightDiffLines + 2)
    let potentialMerges := potentialChanges
    let potentialConflicts := min resolved.limits.maxConflicts potentialMerges
    let labels := byteLength resolved.labels.current + byteLength resolved.labels.base +
      byteLength resolved.labels.incoming
    let markerLines : Int := if resolved.style = .merge then 3 else 4
    let markerOverhead := potentialConflicts * (markerLines * (resolved.markerSize + 3) + labels)
    let sourceOutput : Int :=
      current.length + incoming.length + if resolved.style = .merge then 0 else base.length
    let estimate ← checkedSum [sourceOutput, markerOverhead, potentialConflicts * markerLines]
      "output estimate"
    let outputBytes := min resolved.limits.maxOutputBytes estimate
    memoryEstimate inputBytes lines (max (max leftDiffLines rightDiffLines) refinementDiffLines)
      potentialChanges potentialMerges outputBytes resolved

end Kompjutr.Diff
