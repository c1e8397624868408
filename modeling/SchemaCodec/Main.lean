import SchemaCodec.Command.Run

/-!
# The program

Reads what a command may look at, runs it, and writes what it leaves behind. Everything that is
decided is decided by the command.
-/

namespace SchemaCodec.Program

/-- The fault that an error of the system stands for. -/
def faultOf : IO.Error → FileFault
  | .noFileOrDirectory .. => .missing
  | .inappropriateType _ 21 _ => .isDirectory
  | .inappropriateType .. => .notDirectory
  | .permissionDenied .. => .other "Permission denied (os error 13)"
  | e => .other (toString e)

/-- The entries of a directory; none if there is no directory that can be listed. -/
def entriesAt? (path : String) : IO (Option (List IO.FS.DirEntry)) := do
  try
    let place ← IO.FS.realPath path
    if ← place.isDir then return some (← place.readDir).toList else return none
  catch _ => return none

/-- Whether an entry is a directory and no link to one. -/
def isDirectory (entry : IO.FS.DirEntry) : IO Bool :=
  return (← entry.path.symlinkMetadata).type == .dir

/-- What stands at a path. Of a directory only the entries that a search may want are kept. -/
partial def treeAt (path : String) : IO FileTree := do
  match ← entriesAt? path with
  | some entries =>
    return .directory (← entries.filterMapM fun entry ↦ do
      if (← isDirectory entry) || Source.isSchemaName entry.fileName then
        return some (entry.fileName, ← treeAt entry.path.toString)
      else return none)
  | none =>
    try return .file (← IO.FS.readBinFile path).data.toList
    catch e => return .unreadable (faultOf e)

/-- Everything that a stream holds. -/
partial def readAll (stream : IO.FS.Stream) (read : ByteArray) : IO ByteArray := do
  let more ← stream.read 65536
  if more.isEmpty then return read else readAll stream (read ++ more)

/-- Runs the command that the arguments ask for; the answer is the exit code. -/
def run (arguments : List String) : IO UInt32 := do
  match Command.read? arguments with
  | none =>
    (← IO.getStderr).putStrLn "usage: check|encode|decode|export SCHEMA... [-s TEXT] [SETTING...]"
    return 2
  | some command =>
    let trees ← command.filePaths.mapM fun path ↦ return (path, ← treeAt path)
    let files : FileView := fun path ↦ (trees.lookup path).getD (.unreadable .missing)
    let stdin ← if command.readsStdin then readAll (← IO.getStdin) .empty else pure .empty
    let terminal ← (← IO.getStderr).isTty
    let outcome := command.run ⟨files, stdin.data.toList, terminal⟩
    let stdout ← IO.getStdout
    stdout.write ⟨outcome.stdout.toArray⟩
    stdout.flush
    (← IO.getStderr).putStr outcome.stderr
    return outcome.code.toUInt32

end SchemaCodec.Program

def main (arguments : List String) : IO UInt32 := SchemaCodec.Program.run arguments
