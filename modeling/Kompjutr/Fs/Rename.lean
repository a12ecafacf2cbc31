/-
  Kompjutr.Fs.Rename

  Moving a path and what lies under it (`fs/store/rename.ts`).

  A subtree is a range of the path order, and each of its rows is rewritten from the code point
  behind the old path on.  What the path had at its destination goes first.
-/
import Mathlib.Data.List.Infix
import Kompjutr.Fs.PathOrder
import Kompjutr.Fs.Tables

namespace Kompjutr.Fs

open Objects (Text text)

-- SQL

/-- `codePointLength`. -/
def codePointLength (value : Text) : Nat := (codePoints value).length

/-- `substr(value, skip + 1)`, which counts code points. -/
def substrFrom (value : Text) (skip : Nat) : Text := ((codePoints value).drop skip).flatMap Utf8.unitsOf

/-- `path >= base || '/' AND path < subtreeSuccessor(base)`. -/
def inSubtree (base path : Text) : Bool :=
  pathLe (base ++ [0x2f]) path && pathLt path (subtreeSuccessor base)

/-- `ROOT_INODE`. -/
def rootInode : Nat := 1

/-- The `CHECK` constraints of `fs_paths`. -/
def checkPath (path parent : Text) (inode : Nat) : Bool :=
  path.head? = some 0x2f && (path = [0x2f] || path.getLast? ≠ some 0x2f) && 0 ∉ path &&
    !decide (text "//" <:+: path) && path ≠ text "/." && path ≠ text "/.." &&
    !decide (text "/./" <:+: path) && !decide (text "/../" <:+: path) &&
    !decide (text "/." <:+ path) && !decide (text "/.." <:+ path) &&
    1 ≤ inode && inode ≤ maxSafeInteger.toNat &&
    if path = [0x2f] then parent = [] && inode = rootInode
    else if parent = [0x2f] then 0x2f ∉ path.drop 1
    else parent ≠ [] && decide (parent ++ [0x2f] <+: path) && 0x2f ∉ path.drop (parent.length + 1)

def checkFailed (table : String) : FsError :=
  { code := "SQLITE_CONSTRAINT", message := text s!"CHECK constraint failed: {table}", path := [] }

/-- `SELECT count(*) FROM fs_paths WHERE inode = ?`. -/
def FsTables.linkCount (tables : FsTables) (inode : Nat) : Nat :=
  tables.paths.rows.countP fun row => row.2.inode = inode

/-- `UPDATE fs_paths SET path = ?, parent = ? WHERE path = ?`. -/
def movePath (tables : FsTables) (path newPath parent : Text) : Except FsError FsTables :=
  if (tables.paths.get path).any fun entry => !checkPath newPath parent entry.inode then
    throw (checkFailed "fs_paths")
  else
    match tables.paths.rekey path newPath fun entry => { entry with parent } with
    | none => throw (constraintFailed "fs_paths.path")
    | some paths => pure { tables with paths }

-- Statements

/-- The rows under a path, in the order of the primary key. -/
def subtreeRows (tables : FsTables) (base : Text) : List (Text × FsPath) :=
  (tables.paths.rows.filter fun row => inSubtree base row.1).mergeSort fun left right =>
    pathLe left.1 right.1

/-- `? || substr(path, ? + 1)`. -/
def movedName (oldPath newPath path : Text) : Text :=
  newPath ++ substrFrom path (codePointLength oldPath)

def movedLink (oldPath newPath parent : Text) : Text :=
  if parent = oldPath then newPath else movedName oldPath newPath parent

/-- `RENAME_SUBTREE`, at one row. -/
def moveRow (oldPath newPath : Text) (tables : FsTables) (row : Text × FsPath) :
    Except FsError FsTables :=
  movePath tables row.1 (movedName oldPath newPath row.1) (movedLink oldPath newPath row.2.parent)

def moveSubtree (tables : FsTables) (oldPath newPath : Text) : Except FsError FsTables :=
  (subtreeRows tables oldPath).foldlM (moveRow oldPath newPath) tables

/-- The four statements that take away what a path names: the chunks and the node with the last
    name, the name itself. -/
def dropTarget (tables : FsTables) (path : Text) : FsTables :=
  let target := (tables.paths.get path).map FsPath.inode
  let names := tables.paths.rows.countP fun row => some row.2.inode = target
  { tables with
    chunks := tables.chunks.keep fun row => !(some row.1.1 = target && 1 = names)
    nodes := (tables.nodes.keep fun row => !(some row.1 = target && 1 = names)).update
      fun inode node =>
        if some inode = target ∧ 1 < names then
          { node with nlink := tables.linkCount inode - 1, rev := tables.rev }
        else node
    paths := tables.paths.keep fun row => row.1 ≠ path }

/-- Another name of one node goes. -/
def dropName (tables : FsTables) (path : Text) (inode : Nat) : FsTables :=
  let dropped := { tables with paths := tables.paths.keep fun row => row.1 ≠ path }
  { dropped with
    nodes := dropped.nodes.update fun other node =>
      if other = inode then { node with nlink := dropped.linkCount other, rev := dropped.rev } else node }

/-- The nodes at and under a path bear the new revision. -/
def touchSubtree (tables : FsTables) (path : Text) : FsTables :=
  { tables with
    nodes := tables.nodes.update fun inode node =>
      if tables.paths.rows.any fun row =>
          row.2.inode = inode && (row.1 = path || inSubtree path row.1) then
        { node with rev := tables.rev }
      else node }

/-- `recordSubtreeChanges`, as far as it refuses. -/
def recordReplaced (tables : FsTables) (replaced : List Text) : Except FsError FsTables :=
  if [0x2f] ∈ replaced then
    throw { code := "Error", message := text "the filesystem root cannot be replaced", path := [] }
  else pure tables

/-- The branch for two nodes. -/
def replaceTarget (tables : FsTables) (oldPath newPath : Text) : Except FsError FsTables :=
  if tables.paths.rows.any fun row => inSubtree newPath row.1 then
    throw (filesystemError "ENOTEMPTY" "directory not empty" newPath)
  else
    moveSubtree (dropTarget tables.bumpRev newPath) oldPath newPath >>= fun moved =>
    movePath moved oldPath newPath (dirname newPath) >>= fun moved =>
    recordReplaced (touchSubtree moved newPath) [oldPath, newPath]

/-- Move a validated path, replacing a validated file or empty directory. -/
def renameRaw (tables : FsTables) (oldPath newPath : Text) : Except FsError FsTables :=
  if oldPath = newPath then pure tables
  else
    let sourceInode := (tables.paths.get oldPath).map FsPath.inode
    let targetInode := (tables.paths.get newPath).map FsPath.inode
    match sourceInode with
    | some inode =>
      if some inode = targetInode then
        recordReplaced (dropName tables.bumpRev oldPath inode) [oldPath]
      else replaceTarget tables oldPath newPath
    | none => replaceTarget tables oldPath newPath

/-- `transactionSync`: an error leaves the tables as they were. -/
def FsTables.commit (tables : FsTables) : Except FsError FsTables → FsTables
  | .ok after => after
  | .error _ => tables

end Kompjutr.Fs
