/-
  Kompjutr.Pack.References

  `PackReferenceCollector` (`store/pack/ingest/ingest-references.ts`): the ids a pack holds and the
  ones its objects reference, in a table with open addressing.

  A slot has the five words of an id in `keys` and its state in `states`: the type that the pack
  holds in the low three bits, a bit for each type that references expect above them.  A state of
  zero is a free slot.
-/
import Kompjutr.Lib.LinearProbe
import Kompjutr.Objects.Tree
import Mathlib.Data.Nat.Bitwise

namespace Kompjutr.Pack

open Objects (Text ObjectType shown isOid)
open Bytes (hexUnit)

def OID_WORDS : Nat := 5
def TYPE_MASK : UInt8 := 0x07
def MIN_CAPACITY : Nat := 16
def MAX_LOAD_NUMERATOR : Nat := 3
def MAX_LOAD_DENOMINATOR : Nat := 4

/-- `TYPE_CODE`. -/
def typeCode : ObjectType → UInt8
  | .commit => 1
  | .tree => 2
  | .blob => 3
  | .tag => 4

/-- `CODE_TYPE`. -/
def codeType (code : UInt8) : Option ObjectType :=
  if code = 1 then some .commit
  else if code = 2 then some .tree
  else if code = 3 then some .blob
  else if code = 4 then some .tag
  else none

def OBJECT_TYPES : List ObjectType := [.commit, .tree, .blob, .tag]

def expectedBit (type : ObjectType) : UInt8 := 1 <<< (typeCode type + 2)

/-- `hexWord`: eight units of an id as a word. -/
def hexWord (hex : Text) (word : Nat) : UInt32 :=
  ((hex.drop (word * 8)).take 8).foldl (fun value code =>
    value <<< 4 ||| (if code ≤ 0x39 then code.toUInt32 - 0x30 else code.toUInt32 - 0x57)) 0

/-- `mixWords`. -/
def mixWords (salt : UInt32) (keys : List UInt32) (key : Nat) : UInt32 :=
  let hash := (List.range OID_WORDS).foldl (fun hash word =>
    let hash := (hash ^^^ keys.getD (key + word) 0) * 0x9e3779b1
    hash ^^^ hash >>> 15) salt
  let hash := (hash ^^^ hash >>> 13) * 0x85ebca77
  hash ^^^ hash >>> 16

/-- `wordHex`: `value.toString(16).padStart(8, "0")`. -/
def wordHex (value : UInt32) : Text :=
  (List.range 8).map fun i => hexUnit (value.toNat / 16 ^ (7 - i) % 16)

/-- The loop of `capacityFor`. -/
def doubleUntil (entries capacity : Nat) : Nat :=
  if capacity = 0 then 0
  else if capacity * MAX_LOAD_NUMERATOR < entries * MAX_LOAD_DENOMINATOR then
    doubleUntil entries (capacity * 2)
  else capacity
termination_by entries * 2 - capacity
decreasing_by
  simp only [MAX_LOAD_NUMERATOR, MAX_LOAD_DENOMINATOR] at *
  omega

def capacityFor (entries : Nat) : Nat := doubleUntil entries MIN_CAPACITY

/-- The fields of a collector that its table has. -/
structure PackReferenceCollector where
  keys : List UInt32
  states : List UInt8
  mask : Nat
  size : Nat
  longestProbe : Nat
  salt : UInt32
  deriving DecidableEq

/-- The key of a slot is the one that is looked for. -/
def hasKey (keys : List UInt32) (slot : Nat) (probe : List UInt32) : Bool :=
  (List.range OID_WORDS).all fun word => keys[slot * OID_WORDS + word]? = probe[word]?

/-- `keys.set(words, slot * OID_WORDS)`. -/
def setKey (keys : List UInt32) (slot : Nat) (words : List UInt32) : List UInt32 :=
  keys.take (slot * OID_WORDS) ++ words ++ keys.drop (slot * OID_WORDS + words.length)

namespace PackReferenceCollector

/-- The constructor, with the salt that it draws. -/
def new (salt : UInt32) (objectCount : Nat) : PackReferenceCollector where
  keys := List.replicate (capacityFor objectCount * OID_WORDS) 0
  states := List.replicate (capacityFor objectCount) 0
  mask := capacityFor objectCount - 1
  size := 0
  longestProbe := 0
  salt

/-- The `while` of `#grow`: the first free slot. -/
def freeSlot (states : List UInt8) (mask : Nat) : (fuel slot : Nat) → Option Nat
  | 0, _ => none
  | fuel + 1, slot =>
    if states.getD slot 0 ≠ 0 then freeSlot states mask fuel ((slot + 1) &&& mask) else some slot

/-- A slot of the table before, in `#grow`. -/
def moveSlot (fuel : Nat) (before : PackReferenceCollector) (after : PackReferenceCollector)
    (source : Nat) : Option PackReferenceCollector :=
  let state := before.states.getD source 0
  if state = 0 then some after
  else
    let home := (mixWords after.salt before.keys (source * OID_WORDS)).toNat &&& after.mask
    (freeSlot after.states after.mask fuel home).map fun slot =>
      { after with
        keys := setKey after.keys slot ((before.keys.drop (source * OID_WORDS)).take OID_WORDS)
        states := after.states.set slot state }

/-- `#grow`. -/
def grow (fuel : Nat) (collector : PackReferenceCollector) : Option PackReferenceCollector :=
  let capacity := collector.states.length * 2
  (List.range collector.states.length).foldlM (moveSlot fuel collector)
    { collector with
      keys := List.replicate (capacity * OID_WORDS) 0
      states := List.replicate capacity 0
      mask := capacity - 1 }

/-- The loop of `#slotOf`. -/
def probeFrom (collector : PackReferenceCollector) (probe : List UInt32) :
    (fuel slot visited : Nat) → Option (Nat × PackReferenceCollector)
  | 0, _, _ => none
  | fuel + 1, slot, visited =>
    let longestProbe := max collector.longestProbe visited
    if collector.states.getD slot 0 = 0 then
      some (slot, { collector with
        keys := setKey collector.keys slot probe
        size := collector.size + 1
        longestProbe })
    else if hasKey collector.keys slot probe then some (slot, { collector with longestProbe })
    else probeFrom collector probe fuel ((slot + 1) &&& collector.mask) (visited + 1)

/-- `#slotOf`. -/
def slotOf (fuel : Nat) (collector : PackReferenceCollector) (probe : List UInt32) :
    Option (Nat × PackReferenceCollector) :=
  (if (collector.size + 1) * MAX_LOAD_DENOMINATOR >
      collector.states.length * MAX_LOAD_NUMERATOR then grow fuel collector
    else some collector).bind fun collector =>
    probeFrom collector probe fuel
      ((mixWords collector.salt probe 0).toNat &&& collector.mask) 1

/-- The words of an id, as `#slot` reads them. -/
def oidWords (oid : Text) : List UInt32 := (List.range OID_WORDS).map (hexWord oid)

/-- `addObject`. -/
def addObject (fuel : Nat) (collector : PackReferenceCollector) (oid : Text) (type : ObjectType) :
    Option (Except GitError PackReferenceCollector) :=
  (slotOf fuel collector (oidWords oid)).map fun found =>
    let state := found.2.states.getD found.1 0
    let held := state &&& TYPE_MASK
    if held ≠ 0 ∧ held ≠ typeCode type then
      .error (corrupt s!"pack holds {shown oid} as two object types")
    else .ok { found.2 with states := found.2.states.set found.1 (state ||| typeCode type) }

/-- `#expectAt(#slotOf(words), type)`, which `#expect` and the tree scanner do. -/
def expect (fuel : Nat) (collector : PackReferenceCollector) (words : List UInt32)
    (type : ObjectType) : Option PackReferenceCollector :=
  (slotOf fuel collector words).map fun found =>
    { found.2 with
      states := found.2.states.set found.1
        (found.2.states.getD found.1 0 ||| expectedBit type) }

/-- `#oidAt`. -/
def oidAt (collector : PackReferenceCollector) (slot : Nat) : Text :=
  (List.range OID_WORDS).flatMap fun word =>
    wordHex (collector.keys.getD (slot * OID_WORDS + word) 0)

/-- `#expectedTypes`. -/
def expectedTypes (state : UInt8) : List ObjectType :=
  OBJECT_TYPES.filter fun type => state &&& expectedBit type ≠ 0

/-- The types of a slot that do not go with one another. -/
def conflicting (state : UInt8) : UInt8 :=
  let expected := state >>> 3
  match codeType (state &&& TYPE_MASK) with
  | none => expected &&& (expected - 1)
  | some type => state &&& ~~~(expectedBit type ||| TYPE_MASK)

/-- A slot in `requireTypes`. -/
def requireSlot (collector : PackReferenceCollector) (slot : Nat) : Except GitError Unit :=
  let state := collector.states.getD slot 0
  if state >>> 3 = 0 then .ok ()
  else if conflicting state ≠ 0 then
    let type := codeType (state &&& TYPE_MASK)
    let wanted :=
      match (expectedTypes state).find? fun candidate => some candidate ≠ type with
      | some .commit => "commit"
      | some .tree => "tree"
      | some .blob => "blob"
      | some .tag => "tag"
      | none => "different object"
    .error (corrupt s!"fetched graph requires {shown (oidAt collector slot)} to be a {wanted}")
  else .ok ()

/-- `requireTypes`. -/
def requireTypes (collector : PackReferenceCollector) : Except GitError Unit :=
  (List.range collector.states.length).forM (requireSlot collector)

/-- `unresolved`: the references that the pack does not resolve, in slot order. -/
def unresolved (collector : PackReferenceCollector) : List (Text × List ObjectType) :=
  (List.range collector.states.length).filterMap fun slot =>
    let state := collector.states.getD slot 0
    if state = 0 ∨ state &&& TYPE_MASK ≠ 0 then none
    else some (oidAt collector slot, expectedTypes state)

end PackReferenceCollector

end Kompjutr.Pack
