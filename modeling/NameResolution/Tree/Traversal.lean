import NameResolution.Tree.Basic

/-!
# Walking trees

The nodes of a subtree in the order of the text, those of a kind and name among them, and the order of
nodes by the positions they stand at.
-/
namespace NameResolution.Tree

/-- The greatest number of ids below one node. -/
def width (t : Tree) : Nat := t.nodes.foldl (fun w n => max w n.children.length) 0

/-- Lists the nodes of the subtrees on a stack in at most `limit` steps. Each step takes one id off the
stack and puts the ids below it there instead. -/
def drain (t : Tree) : Nat → List NodeId → List NodeId
  | 0, _ => []
  | _, [] => []
  | limit + 1, id :: stack =>
    match t.get? id with
    | none => t.drain limit stack
    | some node => id :: t.drain limit (node.children ++ stack)

/-- No subtree takes more steps, unless a node stands below itself. -/
def drainLimit (t : Tree) : Nat := (t.width + 1).pow t.size

/-- Every node of the subtree at `root`, a node before those below it. Ids that point nowhere are left
out, and a node that is held twice is listed twice. -/
def flatten (t : Tree) (root : NodeId) : List NodeId := t.drain t.drainLimit [root]

def isNamed (t : Tree) (kind : NodeKind) (name : String) (id : NodeId) : Bool :=
  (t.get? id).any fun n => n.kind == kind && n.name == name

def findFirst? (t : Tree) (root : NodeId) (kind : NodeKind) (name : String) : Option NodeId :=
  (t.flatten root).find? (t.isNamed kind name)

def findAll (t : Tree) (root : NodeId) (kind : NodeKind) : List NodeId :=
  (t.flatten root).filter fun id => t.kind? id == some kind

def findAllNamed (t : Tree) (root : NodeId) (kind : NodeKind) (name : String) : List NodeId :=
  (t.flatten root).filter (t.isNamed kind name)

def position? (t : Tree) (id : NodeId) : Option (Nat × Nat) :=
  (t.region? id).map fun r => (r.startLine.toNat, r.startColumn.toNat)

/-- Nodes are ordered by line, column and id. Those without a region come last. -/
def comparePositions (t : Tree) (a b : NodeId) : Ordering :=
  let byPosition :=
    match t.position? a, t.position? b with
    | some p, some q => (compare p.1 q.1).then (compare p.2 q.2)
    | some _, none => .lt
    | none, some _ => .gt
    | none, none => .eq
  byPosition.then (compare a.index b.index)

def sortByPosition (t : Tree) (ids : List NodeId) : List NodeId :=
  ids.mergeSort fun a b => (t.comparePositions a b).isLE

end NameResolution.Tree
