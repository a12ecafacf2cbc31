/-
  Kompjutr.Patch.FileLines

  The lines of a patched file, hashed once, with an index from hash to line that is built the first
  time a hunk has to be searched for (`shell/commands/patch/file-lines.ts`, `lineStarts` of
  `shell/commands/patch/text.ts`).

  The index is an accelerator: it is built only when it fits what the retained budget has left.
-/
import Mathlib.Data.List.Basic

namespace Kompjutr.Locate

def NEWLINE : UInt8 := 0x0a

/-- `MIN_BUCKETS`. -/
def minBuckets : Nat := 16

-- Lines

def countLines (bytes : List UInt8) : Nat :=
  bytes.countP (· = NEWLINE) + if bytes ≠ [] ∧ bytes.getLast? ≠ some NEWLINE then 1 else 0

/-- One step of the loop of `lineStarts`, with the line that begins next. -/
def markStart (bytes : List UInt8) (scan : List Nat × Nat) (index : Nat) : List Nat × Nat :=
  if bytes[index]? = some NEWLINE ∧ index + 1 < bytes.length then
    (scan.1.set scan.2 (index + 1), scan.2 + 1)
  else scan

/-- Offsets of every line start, and the end. -/
def lineStarts (bytes : List UInt8) : List Nat :=
  let count := countLines bytes
  let scan := (List.range bytes.length).foldl (markStart bytes) (List.replicate (count + 1) 0, 1)
  scan.1.set count bytes.length

/-- FNV-1a over the bytes of a line, with the newline folded in. -/
def hashLine (bytes : List UInt8) (start stop : Nat) (newline : Bool) : UInt32 :=
  (List.range (stop - start)).foldl
    (fun hash index => (hash ^^^ (bytes[start + index]?.getD 0).toUInt32) * 0x01000193)
    (if newline then 0x811c9dc5 else 0x050c5d1f)

/-- The hash of each line, as the file is read. -/
def lineHashes (bytes : List UInt8) (starts : List Nat) (count : Nat) : List UInt32 :=
  (List.range count).map fun line =>
    let start := starts[line]?.getD 0
    let stop := starts[line + 1]?.getD 0
    let newline := decide (start < stop) && bytes[stop - 1]? = some NEWLINE
    hashLine bytes start (if newline then stop - 1 else stop) newline

-- Buckets

/-- Chains of lines per hash bucket; a chain that ends goes on with none. -/
structure HashBuckets where
  head : Nat → Option Nat
  sizes : Nat → Nat
  next : Nat → Option Nat
  mask : Nat

def HashBuckets.bucket (buckets : HashBuckets) (hash : UInt32) : Nat := hash.toNat &&& buckets.mask

/-- One step of the constructor: a line goes before the chain of its bucket. -/
def HashBuckets.insert (buckets : HashBuckets) (hashes : List UInt32) (line : Nat) : HashBuckets :=
  let bucket := buckets.bucket (hashes[line]?.getD 0)
  { head := Function.update buckets.head bucket (some line)
    sizes := Function.update buckets.sizes bucket (buckets.sizes bucket + 1)
    next := Function.update buckets.next line (buckets.head bucket)
    mask := buckets.mask }

/-- The constructor takes the lines from the last to the first. -/
def hashBuckets (hashes : List UInt32) (size : Nat) : HashBuckets :=
  (List.range hashes.length).foldr (fun line buckets => buckets.insert hashes line)
    { head := fun _ => none, sizes := fun _ => 0, next := fun _ => none, mask := size - 1 }

def HashBuckets.count (buckets : HashBuckets) (hash : UInt32) : Nat :=
  buckets.sizes (buckets.bucket hash)

/-- A chain; no chain has more lines than the file. -/
def chain (next : Nat → Option Nat) : Nat → Option Nat → List Nat
  | fuel + 1, some line => line :: chain next fuel (next line)
  | _, _ => []

/-- The lines with a hash, ascending. -/
def HashBuckets.lines (buckets : HashBuckets) (hash : UInt32) (hashes : List UInt32) : List Nat :=
  ((chain buckets.next hashes.length (buckets.head (buckets.bucket hash))).filter
    fun line => hashes[line]? = some hash).take (buckets.count hash)

/-- The loop that doubles the number of buckets until every line has one; some doublings are
    enough. -/
def growSize (count : Nat) : Nat → Nat → Nat
  | 0, size => size
  | fuel + 1, size => if size < count then growSize count fuel (size * 2) else size

def bucketSize (count : Nat) : Nat := growSize count count minBuckets

-- The file

/-- The index is not built yet, does not fit, or is built. -/
inductive LineBuckets where
  | unbuilt
  | refused
  | built (buckets : HashBuckets)

/-- A file as its lines. -/
structure FileLines where
  bytes : List UInt8
  count : Nat
  starts : List Nat
  hashes : List UInt32
  buckets : LineBuckets
  starts_length : starts.length = count + 1
  hashes_eq : hashes = lineHashes bytes starts count
  buckets_eq : ∀ built, buckets = .built built → built = hashBuckets hashes (bucketSize count)

theorem length_lineStarts (bytes : List UInt8) : (lineStarts bytes).length = countLines bytes + 1 := by
  have hfold : ∀ (indices : List Nat) (scan : List Nat × Nat),
      (indices.foldl (markStart bytes) scan).1.length = scan.1.length := by
    intro indices
    induction indices with
    | nil => exact fun _ => rfl
    | cons index indices ih =>
      intro scan
      rw [List.foldl_cons, ih, markStart]
      split
      next => exact List.length_set
      next => rfl
  unfold lineStarts
  rw [List.length_set, hfold, List.length_replicate]

/-- The constructor. -/
def fileLines (bytes : List UInt8) : FileLines :=
  { bytes, count := countLines bytes, starts := lineStarts bytes
    hashes := lineHashes bytes (lineStarts bytes) (countLines bytes), buckets := .unbuilt
    starts_length := length_lineStarts bytes, hashes_eq := rfl
    buckets_eq := fun _ heq => nomatch heq }

namespace FileLines

/-- Byte offset where a line starts; `count` gives the end of the file. -/
def start (file : FileLines) (line : Nat) : Nat :=
  file.starts[min line file.count]?.getD file.bytes.length

def newline (file : FileLines) (line : Nat) : Bool :=
  decide (file.start line < file.start (line + 1)) &&
    file.bytes[file.start (line + 1) - 1]? = some NEWLINE

/-- Whether a file line holds exactly some bytes. -/
def equals (file : FileLines) (line : Nat) (source : List UInt8) (newline : Bool) : Bool :=
  let stop := file.start (line + 1) - if file.newline line then 1 else 0
  file.newline line = newline && stop - file.start line = source.length &&
    (List.range source.length).all fun index =>
      file.bytes[file.start line + index]? = source[index]?

/-- `#bucketIndex`, with what the budget has left behind it. -/
def bucketIndex (file : FileLines) (available : Nat) : Option HashBuckets × FileLines × Nat :=
  match file.buckets with
  | .built buckets => (some buckets, file, available)
  | .refused => (none, file, available)
  | .unbuilt =>
    let size := bucketSize file.count
    let bytes := size * 8 + file.count * 4
    if available < bytes * 2 then
      (none, { file with buckets := .refused, buckets_eq := fun _ heq => nomatch heq }, available)
    else
      (some (hashBuckets file.hashes size),
        { file with
          buckets := .built (hashBuckets file.hashes size)
          buckets_eq := fun _ heq => (LineBuckets.built.inj heq).symm }, available - bytes)

/-- An upper bound on how many lines have a hash, or none when the index does not fit. -/
def occurrences (file : FileLines) (hash : UInt32) (available : Nat) :
    Option Nat × FileLines × Nat :=
  let (buckets, file, available) := file.bucketIndex available
  (buckets.map fun buckets => buckets.count hash, file, available)

/-- Lines with a hash, ascending, or none when they do not fit the budget.  The caller releases them
    when it is done. -/
def positions (file : FileLines) (hash : UInt32) (available : Nat) :
    Option (List Nat) × FileLines × Nat :=
  let (buckets, file, available) := file.bucketIndex available
  let lines := buckets.bind fun buckets =>
    if available < buckets.count hash * 4 then none else some (buckets.lines hash file.hashes)
  (lines, file, available)

end FileLines

end Kompjutr.Locate
