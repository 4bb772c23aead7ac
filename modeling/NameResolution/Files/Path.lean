import NameResolution.Text.Segments

/-!
# Paths

A path is text whose segments are separated by slashes. Empty segments and single dots change nothing
but require a directory; two dots lead back to the directory above.
-/
namespace NameResolution.Path

def segments (path : String) : List String := (path.toList.splitOn '/').map String.ofList

/-- What follows the last dot of a file name. A name that only starts with a dot has no extension. -/
def extensionOfName? (name : String) : Option String :=
  if name = ".." then none
  else
    match Text.afterLast? ['.'] name.toList with
    | some rest => if rest.length + 1 < name.length then some (String.ofList rest) else none
    | none => none

def fileName? (path : String) : Option String :=
  ((segments path).filter fun s => s != "" && s != ".").getLast?

def extension? (path : String) : Option String := (fileName? path).bind extensionOfName?

def join (directory entry : String) : String :=
  if directory.endsWith "/" then directory ++ entry else directory ++ "/" ++ entry

example : extensionOfName? "a.json" = some "json" := by decide
example : extensionOfName? ".json" = none := by decide
example : extensionOfName? "a." = some "" := by decide

end NameResolution.Path
