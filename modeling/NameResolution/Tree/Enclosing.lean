import NameResolution.Text.Segments
import NameResolution.Tree.Basic

/-!
# Enclosing records

The nodes above a node are found by going from parent to parent. Among them the records give a record
its qualified name.
-/
namespace NameResolution.Tree

/-- At most `limit` nodes from `start` upward. -/
def climb (t : Tree) : Nat → Option NodeId → List NodeId
  | 0, _ => []
  | _, none => []
  | limit + 1, some id =>
    match t.get? id with
    | none => []
    | some node => id :: climb t limit node.parent

/-- The nodes strictly above a node, the nearest first. A chain of parents that does not repeat a node
is never longer than the tree has nodes. -/
def ancestors (t : Tree) (id : NodeId) : List NodeId :=
  t.climb t.size ((t.get? id).bind Node.parent)

/-- The records strictly above a node, the nearest first. -/
def enclosingRecords (t : Tree) (id : NodeId) : List NodeId :=
  (t.ancestors id).filter fun a => t.kind? a == some .recordDecl

def enclosingRecord? (t : Tree) (id : NodeId) : Option NodeId := (t.enclosingRecords id).head?

/-- The name of a node, empty if there is no such node. -/
def nameOf (t : Tree) (id : NodeId) : String := (t.name? id).getD ""

/-- A name inside `outers`, the innermost first. A name that is a path already stays as it is. -/
def qualify (t : Tree) (separator : String) (name : String) : List NodeId → String
  | [] => name
  | outer :: outers =>
    if Text.isPath separator name then name
    else Text.joinPath separator (t.qualify separator (t.nameOf outer) outers) name

/-- The name of a record among the records around it, such as `Outer.Inner`. -/
def qualifiedName (t : Tree) (separator : String) (id : NodeId) : String :=
  t.qualify separator (t.nameOf id) (t.enclosingRecords id)

end NameResolution.Tree
