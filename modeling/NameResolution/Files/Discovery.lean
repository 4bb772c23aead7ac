import NameResolution.Document.Lowering
import NameResolution.Files.Tree

/-!
# Finding documents

The documents below a directory are its files with the extension `json`, in the order of their paths.
Hidden files and what is in hidden directories are left out. A path that leads to a file is a document
whatever its name.
-/
namespace NameResolution

namespace Discovery

def isHidden (name : String) : Bool := name.startsWith "." && name != "." && name != ".."

def isDocumentName (name : String) : Bool := Path.extensionOfName? name == some "json"

mutual

/-- The segments that lead to the documents below a directory with the given entries. -/
def documentsIn : List (String × FileTree) → List (List String)
  | [] => []
  | (name, t) :: entries =>
    (if isHidden name then [] else documentsAt name t) ++ documentsIn entries

/-- The segments that lead to the documents at or below an entry. -/
def documentsAt (name : String) : FileTree → List (List String)
  | .file _ => if isDocumentName name then [[name]] else []
  | .dir entries => (documentsIn entries).map (name :: ·)

end

/-- The paths of documents, ordered segment by segment. -/
def sorted (paths : List (List String)) : List (List String) :=
  paths.mergeSort fun a b => !decide (b < a)

/-- The document paths that a path stands for, none if it leads nowhere. -/
def collect? (files : Files) (path : String) : Option (List String) :=
  match files path with
  | none => none
  | some (.file _) => some [path]
  | some (.dir entries) => some ((sorted (documentsIn entries)).map fun s => s.foldl Path.join path)

end Discovery

inductive LoadError where
  | notFound (path : String)
  | unreadable (file : Unread)
  /-- The file holds bytes that are no text. -/
  | notText (file : Unread)
  | input (error : InputError)
deriving DecidableEq

namespace LoadError

/-- What went wrong, without what the file system says of it. -/
def brief : LoadError → String
  | notFound path => "path not found: " ++ path
  | unreadable file | notText file => "failed to read file '" ++ file.name ++ "'"
  | input e => e.message

def message : LoadError → String
  | unreadable file => (unreadable file).brief ++ file.cause
  | notText file => (notText file).brief ++ file.cause
  | e => e.brief

end LoadError

/-- What the reader of documents says of texts that are none, and the file system of paths at which there is no file,
where that is known. -/
structure Complaints where
  document : String → Option String := fun _ => none
  file : String → Option String := fun _ => none

namespace Discovery

def collect (files : Files) (path : String) : Except LoadError (List String) :=
  match collect? files path with
  | none => .error (.notFound path)
  | some paths => .ok paths

def load (files : Files) (path : String) (complaints : Complaints := {}) : Except LoadError Tree :=
  match files path with
  | some (.file content) =>
    match String.fromUTF8? content with
    | none => .error (.notText ⟨path, some "stream did not contain valid UTF-8"⟩)
    | some text => (Tree.ofDocument path text complaints.document).mapError .input
  | _ => .error (.unreadable ⟨path, complaints.file path⟩)

end Discovery
end NameResolution
