import Conveyor.Command.Session
import Std.Time

/-!
# The command

The program itself: it brings the files that its words name into a tree, runs a session on the tree,
writes its outputs, and carries the changes of the tree back to the files.
-/

namespace Conveyor.Main

open Command (Options Console Clock)

/-! ### Files -/

/-- A tree with what stands at a path, and with everything below it if it is a folder. What cannot
be read is left out. -/
partial def load (folder : Place) (tree : Tree) (path : String) : IO Tree := do
  let file := (← IO.currentDir) / path
  let route := Route.ofText folder path
  if ← file.isDir then
    let tree := (tree.makeFolders route.start route.names).2
    let entries ← file.readDir
    entries.foldlM (fun tree entry => load folder tree (path ++ "/" ++ entry.fileName)) tree
  else
    try
      let body ← IO.FS.readBinFile file
      let tree := (tree.makeParents route).2
      return (tree.write route body).toOption.getD tree
    catch _ => return tree

/-- The paths that options name. -/
def paths (o : Options) : List String :=
  o.workflow.toList ++ o.input.toList ++ [o.storeFolder] ++ o.outcome.toList

/-- A place as a path from the root. -/
def pathOf (place : Place) : String :=
  "/" ++ "/".intercalate place

/-- Carries the changes of a tree back to the files. -/
def store (before after : Tree) : IO Unit := do
  for place in after.folders do
    if !before.folders.contains place then IO.FS.createDirAll (pathOf place)
  for (place, body) in after.files do
    if before.files.lookup place != some body then IO.FS.writeBinFile (pathOf place) body
  for (place, _) in before.files do
    if (after.files.lookup place).isNone then IO.FS.removeFile (pathOf place)

/-! ### Time -/

/-- A moment as text. -/
def momentText (moment : Std.Time.Timestamp) : String :=
  (Std.Time.DateTime.ofTimestamp moment .UTC).format "uuuu-MM-dd'T'HH:mm:ss.SSSSSSSSS'Z'"

/-- The clock for a run that began at a moment. -/
def clockFrom (start : Std.Time.Timestamp) : Clock := fun r =>
  let stop := start.addMilliseconds (.ofInt r.elapsedMs)
  ⟨.string (momentText start), .string (momentText stop), r.elapsedMs, r.timeline.durations⟩

end Conveyor.Main

open Conveyor Conveyor.Command in
/-- Runs the command with the words after its name; the result is its exit status. -/
def main (words : List String) : IO UInt32 := do
  let folder := Route.namesOf (toString (← IO.currentDir)).toList
  let named := match parse words with
    | .ok (.run o) => Main.paths o
    | _ => []
  let empty := (Tree.empty.makeFolders [] folder).2
  let before ← named.foldlM (Main.load folder) empty
  let start ← Std.Time.Timestamp.now
  let (status, console) := run (Main.clockFrom start) folder words before
  console.err.forM fun line => IO.eprintln line
  console.out.forM fun line => IO.println line
  Main.store before console.tree
  return status.toUInt32
