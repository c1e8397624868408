import SchemaCodec.Members

/-!
# Files

A program that reads schemas sees the file system as a function from paths to what stands there.
That is all it needs: nothing is ever written, and what stands at a path does not change while the
program runs. A tree of files gives such a function by following a path name by name.
-/

namespace SchemaCodec

/-- Why nothing can be read at a path. -/
inductive FileFault where
  | missing
  /-- A name on the way, or a name before a closing slash, is not that of a directory. -/
  | notDirectory
  | isDirectory
  /-- Any other reason, in the words of the system. -/
  | other (reason : String)
deriving DecidableEq, Repr

def FileFault.message : FileFault → String
  | missing => "No such file or directory (os error 2)"
  | notDirectory => "Not a directory (os error 20)"
  | isDirectory => "Is a directory (os error 21)"
  | other reason => reason

/-- What stands at a path. -/
inductive FileTree where
  | file (bytes : List UInt8)
  | directory (entries : List (String × FileTree))
  | unreadable (fault : FileFault)
deriving Inhabited

/-- What stands at every path. -/
abbrev FileView := String → FileTree

namespace FileTree

def read : FileTree → Except FileFault (List UInt8)
  | file bytes => .ok bytes
  | directory _ => .error .isDirectory
  | unreadable fault => .error fault

/-! ## Following a path -/

/-- Follows names from a node; `above` holds the directories that lead to it, the nearest first. -/
def follow : (above : List FileTree) → FileTree → List String → FileTree
  | _, node, [] => node
  | above, directory entries, name :: rest =>
    if name = "" ∨ name = "." then follow above (directory entries) rest
    else if name = ".." then
      match above with
      | parent :: above => follow above parent rest
      | [] => unreadable .missing
    else
      match Members.get? name entries with
      | some child => follow (directory entries :: above) child rest
      | none => unreadable .missing
  | _, file _, _ :: _ => unreadable .notDirectory
  | _, unreadable fault, _ :: _ => unreadable fault

/-- What stands at a path that starts at the root of a tree. Nothing stands at the empty path, nor
outside the tree. -/
def view (root : FileTree) : FileView := fun path ↦
  if path.isEmpty || path.startsWith "/" then unreadable .missing
  else follow [] root (path.splitOn "/")

/-! ## Trees from lists of files -/

/-- Puts a node below a directory under a list of names, with the directories it needs. -/
def place : List String → FileTree → FileTree → FileTree
  | [], node, _ => node
  | [""], _, root => root
  | name :: rest, node, root =>
    let entries := match root with
      | directory entries => entries
      | _ => []
    let below := (Members.get? name entries).getD (directory [])
    directory (Members.put name (place rest node below) entries)

/-- The tree of files given by path and content; a path that ends in a slash is an empty
directory. -/
def ofFiles (files : List (String × List UInt8)) : FileTree :=
  files.foldl (fun root (path, bytes) ↦ place (path.splitOn "/") (file bytes) root) (directory [])

end FileTree

end SchemaCodec
