/-
  Kompjutr.Objects.Tree

  Tree objects (`common/trees.ts`): reading one as a whole, the order of its entries, and writing
  it.
-/
import Kompjutr.Lib.Utf8Fatal
import Kompjutr.Common.Bytes
import Kompjutr.Common.Streams
import Kompjutr.Objects.RawTree
import Mathlib.Data.List.Sort

namespace Kompjutr.Objects

open Bytes (toHex)
open Utf8 (encode textDecode textDecodeFatal)

/-- A `TreeEntry`. -/
structure TreeEntry where
  mode : Text
  name : Text
  oid : Text
  deriving DecidableEq

def MODE_FILE : Text := text "100644"
def MODE_EXECUTABLE : Text := text "100755"
def MODE_SYMLINK : Text := text "120000"
def MODE_TREE : Text := text "40000"
def MODE_COMMIT : Text := text "160000"

/-- `decodeTreeName`. -/
def decodeTreeName (bytes : List UInt8) : Except GitError Text :=
  match textDecodeFatal bytes with
  | some name => .ok name
  | none => .error { code := "EUNSUPPORTED", message := "tree names must be valid UTF-8" }

def isTreeMode (mode : Text) : Bool := mode = text "40000" || mode = text "040000"

def typeForMode (mode : Text) : ObjectType :=
  if isTreeMode mode then .tree else if mode = MODE_COMMIT then .commit else .blob

/-- `parseTree`, from a position on. -/
def parseTree (data : List UInt8) : Except GitError (List TreeEntry) :=
  if data = [] then .ok []
  else
    let mode := data.takeWhile (· ≠ 0x20)
    if mode.length ≥ data.length then .error (corrupt "malformed tree entry")
    else
      let behind := data.drop (mode.length + 1)
      let name := behind.takeWhile (· ≠ 0)
      if name.length + 21 > behind.length then .error (corrupt "malformed tree entry")
      else
        (decodeTreeName name).bind fun decoded =>
          (parseTree (behind.drop (name.length + 21))).map fun entries =>
            { mode := textDecode mode
              name := decoded
              oid := toHex ((behind.drop (name.length + 1)).take 20) } :: entries
termination_by data.length
decreasing_by
  have := List.length_pos_of_ne_nil ‹data ≠ []›
  rw [List.length_drop, List.length_drop]
  omega

/-- `compareTreeEntries`. -/
def compareTreeEntries (a b : TreeEntry) : Int :=
  Streams.comparePaths (if isTreeMode a.mode then a.name ++ [0x2f] else a.name)
    (if isTreeMode b.mode then b.name ++ [0x2f] else b.name)

def hexDigit? (unit : UInt16) : Option Nat :=
  if 0x30 ≤ unit && unit ≤ 0x39 then some (unit.toNat - 0x30)
  else if 0x61 ≤ unit && unit ≤ 0x66 then some (unit.toNat - 0x57)
  else if 0x41 ≤ unit && unit ≤ 0x46 then some (unit.toNat - 0x37)
  else none

/-- The digits at the front of a text; `none` is `NaN`. -/
def hexValue (t : Text) : Option Nat :=
  match t.takeWhile fun unit => (hexDigit? unit).isSome with
  | [] => none
  | digits => some (digits.foldl (fun value unit => value * 16 + (hexDigit? unit).getD 0) 0)

/-- A `0x` in front of the digits. -/
def dropHexMark (t : Text) : Text :=
  if t.head? = some 0x30 ∧ (t[1]? = some 0x78 ∨ t[1]? = some 0x58) then t.drop 2 else t

/-- `Number.parseInt(t, 16)`. -/
def parseInt16 (t : Text) : Option Int :=
  let t := t.dropWhile isSpace
  let negative := t.head? = some 0x2d
  let t := if negative ∨ t.head? = some 0x2b then t.tail else t
  (hexValue (dropHexMark t)).map fun value => if negative then -value else value

/-- An element of a `Uint8Array` that is set to a number. -/
def toElement (value : Option Int) : UInt8 := UInt8.ofNat ((value.getD 0) % 256).toNat

/-- The octets of an entry's id in `serializeTree`. -/
def oidBytes (oid : Text) : List UInt8 :=
  (List.range 20).map fun i => toElement (parseInt16 ((oid.drop (i * 2)).take 2))

/-- The octets of an entry in `serializeTree`. -/
def serializeEntry (entry : TreeEntry) : List UInt8 :=
  encode (entry.mode.dropWhile (· = 0x30) ++ 0x20 :: entry.name ++ [0]) ++ oidBytes entry.oid

def serializeTree (entries : List TreeEntry) : List UInt8 :=
  (entries.mergeSort fun a b => compareTreeEntries a b ≤ 0).flatMap serializeEntry

end Kompjutr.Objects
