/-
  Kompjutr.Objects.Commit

  Commits and tags as they are accepted when an object is stored: the text
  parsers of `common/objects.ts` and the number check of
  `store/trees/commits-cache.ts`.

  A string is its list of UTF-16 code units.  A number is an integer; one
  beyond the safe range stands for the double nearest to it.
-/
import Kompjutr.Lib.Run
import Kompjutr.Lib.Utf8
import Kompjutr.Common.Base

namespace Kompjutr.Objects

abbrev Text := List UInt16

instance : LawfulBEq Text := inferInstance

/-- The bytes of an ASCII literal. -/
def ascii (s : String) : List UInt8 := s.toList.map fun c => c.toNat.toUInt8

/-- An ASCII literal as text. -/
def text (s : String) : Text := (ascii s).map UInt8.toUInt16

/-- A text inside an error message. -/
def shown (t : Text) : String := String.ofList (t.map fun u => Char.ofNat u.toNat)

inductive ObjectType where
  | commit | tree | blob | tag
  deriving DecidableEq

/-- The object type a text names. -/
def ObjectType.ofText (t : Text) : Option ObjectType :=
  if t = text "commit" then some .commit
  else if t = text "tree" then some .tree
  else if t = text "blob" then some .blob
  else if t = text "tag" then some .tag
  else none

structure Person where
  name : Text
  email : Text
  timestamp : Int
  timezoneOffset : Int
  deriving DecidableEq

structure Commit where
  tree : Text
  parent : List Text
  author : Person
  committer : Person
  gpgsig : Option Text
  message : Text
  deriving DecidableEq

structure Tag where
  object : Text
  type : ObjectType
  tag : Text
  tagger : Option Person
  message : Text
  deriving DecidableEq

-- String operations

/-- `String.prototype.indexOf`. -/
def indexOf (needle : Text) : Text → Option Nat
  | [] => if needle = [] then some 0 else none
  | u :: rest =>
    if needle.isPrefixOf (u :: rest) then some 0 else (indexOf needle rest).map (· + 1)

/-- The white space and line terminators `trim` removes. -/
def isSpace (u : UInt16) : Bool :=
  (9 ≤ u && u ≤ 13) || u = 0x20 || u = 0xa0 || u = 0x1680 || (0x2000 ≤ u && u ≤ 0x200a) ||
    u = 0x2028 || u = 0x2029 || u = 0x202f || u = 0x205f || u = 0x3000 || u = 0xfeff

def trim (t : Text) : Text := ((t.dropWhile isSpace).reverse.dropWhile isSpace).reverse

def isDigit (u : UInt16) : Bool := 0x30 ≤ u && u ≤ 0x39

/-- The number a run of digits stands for. -/
def digitsValue (digits : Text) : Int := digits.foldl (fun n u => n * 10 + (u.toNat - 0x30)) 0

/-- `Number.parseInt(t, 10)`: an optional sign and the digits after it; `none` for `NaN`. -/
def parseInt10 (t : Text) : Option Int :=
  let t := t.dropWhile isSpace
  let (negative, t) :=
    match t with
    | u :: rest => if u = 0x2d then (true, rest) else if u = 0x2b then (false, rest) else (false, t)
    | [] => (false, t)
  let digits := t.takeWhile isDigit
  if digits = [] then none
  else some (if negative then -digitsValue digits else digitsValue digits)

/-- `Number.isFinite`: from here on an integer rounds to infinity. -/
@[irreducible] def isFinite (n : Int) : Bool := n.natAbs < 2 ^ 1024 - 2 ^ 970

theorem two_pow_lt_sub {a b c : Nat} (hab : a < b) (hbc : b < c) : 2 ^ a < 2 ^ c - 2 ^ b := by
  have hlow : 2 ^ a < 2 ^ b := Nat.pow_lt_pow_right (by omega) hab
  have hhigh : 2 ^ (b + 1) ≤ 2 ^ c := Nat.pow_le_pow_right (by omega) hbc
  rw [Nat.pow_succ] at hhigh
  omega

theorem isFinite_of_lt {n : Int} (h : n.natAbs < 2 ^ 53) : isFinite n = true := by
  unfold isFinite
  exact decide_eq_true (Nat.lt_trans h (@two_pow_lt_sub 53 970 1024 (by omega) (by omega)))

/-- `/^[0-9a-f]{40}$/`. -/
def isOid (t : Text) : Bool :=
  t.length = 40 && t.all fun u => isDigit u || (0x61 ≤ u && u ≤ 0x66)

-- Identity lines

/-- `/^[+-]\d{4}$/`. -/
def isZone (t : Text) : Bool :=
  match t with
  | sign :: digits => (sign = 0x2b || sign = 0x2d) && digits.length = 4 && digits.all isDigit
  | [] => false

def parsePerson (line : Text) : Person :=
  match indexOf (text " <") line with
  | none => { name := line, email := [], timestamp := 0, timezoneOffset := 0 }
  | some opening =>
    match indexOf (text ">") (line.drop (opening + 2)) with
    | none => { name := line, email := [], timestamp := 0, timezoneOffset := 0 }
    | some length =>
      let rest := (trim (line.drop (opening + 2 + length + 1))).splitOn 0x20
      let timestamp := (rest[0]?.bind parseInt10).getD 0
      let timezoneOffset :=
        match rest[1]? with
        | some zone =>
          if isZone zone then
            let minutes := digitsValue ((zone.drop 1).take 2) * 60 + digitsValue (zone.drop 3)
            if zone.head? = some 0x2d then minutes else -minutes
          else 0
        | none => 0
      { name := line.take opening
        email := (line.drop (opening + 2)).take length
        timestamp := if isFinite timestamp then timestamp else 0
        timezoneOffset }

-- Headers

/-- A header line and the lines that continue it. -/
structure Header where
  key : Text
  value : Text
  continuation : List Text
  deriving DecidableEq

/-- The value of a header with its continuation. -/
def Header.full (h : Header) : Text := h.value ++ h.continuation.flatMap (0x0a :: ·)

/-- A line that is no continuation: a header when it has a key. -/
def addHeader (headers : List Header) (line : Text) : List Header :=
  match indexOf [0x20] line with
  | some (space + 1) => ⟨line.take (space + 1), line.drop (space + 2), []⟩ :: headers
  | _ => headers

/-- One turn of the loop of `splitHeaders`; the newest header is first. -/
def addLine (headers : List Header) (line : Text) : List Header :=
  match headers with
  | [] => addHeader [] line
  | last :: older =>
    if line.head? = some 0x20 then
      { last with continuation := last.continuation ++ [line.drop 1] } :: older
    else addHeader (last :: older) line

structure HeaderBlock where
  headers : List (Text × Text)
  message : Text

def splitHeaders (t : Text) : HeaderBlock :=
  let (head, message) :=
    match indexOf [0x0a, 0x0a] t with
    | none => (t, [])
    | some blank => (t.take blank, t.drop (blank + 2))
  let headers := (head.splitOn 0x0a).foldl addLine []
  { headers := headers.reverse.map fun h => (h.key, h.full), message }

-- Commits and tags

def nobody : Person := { name := [], email := [], timestamp := 0, timezoneOffset := 0 }

/-- One header of `parseCommitText`; the flag is `sawTree`. -/
def commitHeader (state : Commit × Bool) (header : Text × Text) :
    Except GitError (Commit × Bool) :=
  let (commit, sawTree) := state
  let (key, value) := header
  if key = text "tree" then
    if isOid value then pure ({ commit with tree := value }, true)
    else throw (corrupt "commit has a malformed tree oid")
  else if key = text "parent" then
    if isOid value then pure ({ commit with parent := commit.parent ++ [value] }, sawTree)
    else throw (corrupt "commit has a malformed parent oid")
  else if key = text "author" then pure ({ commit with author := parsePerson value }, sawTree)
  else if key = text "committer" then pure ({ commit with committer := parsePerson value }, sawTree)
  else if key = text "gpgsig" then pure ({ commit with gpgsig := some value }, sawTree)
  else pure (commit, sawTree)

def parseCommitText (t : Text) : Except GitError Commit := do
  let block := splitHeaders t
  let (commit, sawTree) ← block.headers.foldlM commitHeader
    ({ tree := [], parent := [], author := nobody, committer := nobody, gpgsig := none
       message := block.message }, false)
  if !sawTree then throw (corrupt "commit is missing its tree header")
  return commit

def parseCommit (data : List UInt8) : Except GitError Commit :=
  parseCommitText (Utf8.textDecode data)

/-- One header of `parseTag`; the flag is `sawObject`. -/
def tagHeader (state : Tag × Bool) (header : Text × Text) : Except GitError (Tag × Bool) :=
  let (tag, sawObject) := state
  let (key, value) := header
  if key = text "object" then
    if isOid value then pure ({ tag with object := value }, true)
    else throw (corrupt "tag has a malformed object oid")
  else if key = text "type" then
    match ObjectType.ofText value with
    | some type => pure ({ tag with type }, sawObject)
    | none => throw (corrupt s!"tag has an unknown target type {shown value}")
  else if key = text "tag" then pure ({ tag with tag := value }, sawObject)
  else if key = text "tagger" then pure ({ tag with tagger := some (parsePerson value) }, sawObject)
  else pure (tag, sawObject)

def parseTag (data : List UInt8) : Except GitError Tag := do
  let block := splitHeaders (Utf8.textDecode data)
  let (tag, sawObject) ← block.headers.foldlM tagHeader
    ({ object := [], type := .commit, tag := [], tagger := none, message := block.message }, false)
  if !sawObject then throw (corrupt "tag is missing its object header")
  return tag

/-- The check of `prepareCommitCache` on the numbers of a commit. -/
def validateCommitNumbers (commit : Commit) : Except GitError Unit :=
  [("author time", commit.author.timestamp), ("author timezone", commit.author.timezoneOffset),
    ("committer time", commit.committer.timestamp),
    ("committer timezone", commit.committer.timezoneOffset)].forM fun (name, value) =>
      if isSafeInteger value then pure ()
      else throw { code := "E2BIG", message := s!"commit has an unrepresentable {name}" }

/-- The commit a write accepts: `parseCommit` and then the number check. -/
def acceptCommit (data : List UInt8) : Except GitError Commit := do
  let commit ← parseCommit data
  validateCommitNumbers commit
  return commit

end Kompjutr.Objects
