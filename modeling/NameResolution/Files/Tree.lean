import NameResolution.Files.Path

/-!
# File trees

Files and directories as a value. The entries of a directory come in the order in which it lists them.
-/
namespace NameResolution

inductive FileTree where
  | file (content : ByteArray)
  | dir (entries : List (String × FileTree))

abbrev Files := String → Option FileTree

namespace FileTree

instance : Inhabited FileTree := ⟨dir []⟩

/-- Follows segments downward from a tree; `above` are the directories it stands in. -/
def follow : List FileTree → FileTree → List String → Option FileTree
  | _, t, [] => some t
  | _, file _, _ :: _ => none
  | above, dir entries, s :: rest =>
    if s = "" ∨ s = "." then follow above (dir entries) rest
    else if s = ".." then
      match above with
      | [] => none
      | t :: above => follow above t rest
    else
      match entries.lookup s with
      | none => none
      | some t => follow (dir entries :: above) t rest

def find? (t : FileTree) (path : String) : Option FileTree :=
  if path = "" ∨ path.startsWith "/" then none else follow [] t (Path.segments path)

/-- What stands at or below some paths of which it is known. -/
def known (trees : List (String × FileTree)) : Files := fun path =>
  trees.findSome? fun (start, t) =>
    let below := (Path.join start "").toList
    if path = start then some t
    else if below.isPrefixOf path.toList then t.find? (String.ofList (path.toList.drop below.length))
    else none

/-- Puts a tree below the given segments, and makes the directories on the way. -/
def insert (new : FileTree) : List String → FileTree → FileTree
  | [], _ => new
  | s :: rest, t =>
    let entries := match t with
      | dir entries => entries
      | file _ => []
    let below := insert new rest ((entries.lookup s).getD (dir []))
    if (entries.lookup s).isSome then
      dir (entries.map fun e => if e.1 == s then (s, below) else e)
    else dir (entries ++ [(s, below)])

/-- The segments of a path with those resolved that lead nowhere new. -/
def plainSegments : List String → List String → List String
  | done, [] => done.reverse
  | done, s :: rest =>
    if s = "" ∨ s = "." then plainSegments done rest
    else if s = ".." then plainSegments done.tail rest
    else plainSegments (s :: done) rest

/-- Writes a file. Its directory must exist, and the path must not lead to a directory. -/
def write? (t : FileTree) (path content : String) : Option FileTree :=
  let segments := Path.segments path
  let isPlace := segments.getLast?.any fun s => s != "" && s != "." && s != ".."
  let parent := if path.startsWith "/" then none else follow [] t segments.dropLast
  match isPlace, parent, t.find? path with
  | true, some (dir _), none | true, some (dir _), some (file _) =>
    some (insert (file content.toUTF8) (plainSegments [] segments) t)
  | _, _, _ => none

def text? : FileTree → Option String
  | file content => String.fromUTF8? content
  | dir _ => none

end FileTree
end NameResolution
