import NameResolution.Program

/-!
# The command line

Takes a picture of the files that the command line names, runs the program on it and delivers what it
writes. Help and usage are told in one line.
-/
namespace NameResolution.Main

/-- A picture of what stands at a path. -/
partial def picture (path : String) : IO (Option FileTree) := do
  let place := (← IO.currentDir) / path
  if !(← place.pathExists) then return none
  if ← place.isDir then
    let mut entries := []
    for entry in ← place.readDir do
      if let some t ← picture (place / entry.fileName).toString then
        entries := (entry.fileName, t) :: entries
    return some (.dir entries)
  return some (.file (← IO.FS.readBinFile place))

def pictures (paths : List String) : IO Files := do
  let shots ← paths.mapM fun p => do return (p, ← picture p)
  return FileTree.known (shots.filterMap fun (p, t) => t.map (p, ·))

/-- Writes a text to a file, and tells whether that was possible. -/
def deliver (path text : String) : IO Bool := do
  try
    IO.FS.writeFile path text
    return true
  catch _ => return false

def usage : String := "Usage: --path <PATH> [options]"

end NameResolution.Main

open NameResolution in
def main (words : List String) : IO UInt32 := do
  let paths := match Arguments.parse words with
    | .ok a => a.path :: a.config.toList
    | .error _ => []
  let result := Program.run (← Main.pictures paths) words
  let written ← match result.target? with
    | some path => Main.deliver path result.output
    | none => pure true
  let ending := result.ending written
  (← IO.getStdout).putStr ending.stdout
  match result, ending.error with
  | .usage _, _ => IO.eprintln Main.usage
  | _, some message => IO.eprintln ("Error: " ++ message)
  | _, none => pure ()
  return ending.exitCode.toUInt32
