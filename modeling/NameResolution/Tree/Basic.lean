import NameResolution.Region
import NameResolution.Tree.Payload

/-!
# Trees

A tree is an array of nodes that refer to one another by their places in it. Nodes are only ever
added: children first, then the node that holds them, which becomes their parent. Ids below a node may
point nowhere, and nothing keeps two nodes from holding the same id; operations on an id that points
nowhere do nothing.
-/
namespace NameResolution

structure Node where
  id : NodeId
  name : String
  region : Option Region := none
  parent : Option NodeId := none
  payload : Payload
deriving DecidableEq

namespace Node

def kind (n : Node) : NodeKind := n.payload.kind

def children (n : Node) : List NodeId := n.payload.children

def isRecord (n : Node) : Bool := n.kind == .recordDecl

/-- A field that is a member of `record` belongs to it. -/
def ownedBy (record : NodeId) (n : Node) : Node :=
  match n.payload with
  | .fieldDecl f => { n with payload := .fieldDecl { f with record := some record } }
  | _ => n

end Node

/-- A tree of nodes and the translation unit it stands for. -/
structure Tree where
  nodes : Array Node := #[]
  root : Option NodeId := none
deriving DecidableEq

namespace Tree

def size (t : Tree) : Nat := t.nodes.size

def get? (t : Tree) (id : NodeId) : Option Node := t.nodes[id.index]?

def kind? (t : Tree) (id : NodeId) : Option NodeKind := (t.get? id).map Node.kind

def name? (t : Tree) (id : NodeId) : Option String := (t.get? id).map Node.name

def region? (t : Tree) (id : NodeId) : Option Region := (t.get? id).bind Node.region

/-- What a reference or a member access is bound to. -/
def resolution? (t : Tree) (id : NodeId) : Option Resolution :=
  (t.get? id).bind (·.payload.resolution?)

def nextId (t : Tree) : NodeId := ⟨t.size⟩

def modify (t : Tree) (id : NodeId) (f : Node → Node) : Tree :=
  { t with nodes := t.nodes.modify id.index f }

@[simp] theorem size_modify (t : Tree) (id : NodeId) (f : Node → Node) :
    (t.modify id f).size = t.size := by
  simp [modify, size]

@[simp] theorem root_modify (t : Tree) (id : NodeId) (f : Node → Node) :
    (t.modify id f).root = t.root := rfl

theorem get?_modify (t : Tree) (id j : NodeId) (f : Node → Node) :
    (t.modify id f).get? j = if id = j then (t.get? j).map f else t.get? j := by
  simp only [modify, get?, Array.getElem?_modify, NodeId.ext_iff]

theorem get?_eq_none_iff {t : Tree} {id : NodeId} : t.get? id = none ↔ t.size ≤ id.index := by
  simp [get?, size]

theorem lt_size_of_get? {t : Tree} {id : NodeId} {n : Node} (h : t.get? id = some n) :
    id.index < t.size := by
  simp only [get?, Array.getElem?_eq_some_iff] at h
  exact h.1

theorem lt_size_of_kind? {t : Tree} {id : NodeId} {k : NodeKind} (h : t.kind? id = some k) : id.index < t.size := by
  obtain ⟨n, hn, -⟩ := Option.map_eq_some_iff.mp h
  exact lt_size_of_get? hn

def setRegion (t : Tree) (id : NodeId) (region : Region) : Tree :=
  t.modify id fun n => { n with region := some region }

def bind (t : Tree) (id : NodeId) (r : Resolution) : Tree :=
  t.modify id fun n => { n with payload := n.payload.bind r }

def adopt (t : Tree) (parent : NodeId) (children : List NodeId) : Tree :=
  children.foldl (fun t c => t.modify c fun n => { n with parent := some parent }) t

/-- Makes the fields among the members of a record belong to it. -/
def ownFields (t : Tree) (record : NodeId) (members : List NodeId) : Tree :=
  members.foldl (fun t m => t.modify m (Node.ownedBy record)) t

@[simp] theorem size_adopt (t : Tree) (p : NodeId) (cs : List NodeId) : (t.adopt p cs).size = t.size := by
  induction cs generalizing t with
  | nil => rfl
  | cons c cs ih => exact (ih _).trans (size_modify ..)

@[simp] theorem size_ownFields (t : Tree) (r : NodeId) (ms : List NodeId) :
    (t.ownFields r ms).size = t.size := by
  induction ms generalizing t with
  | nil => rfl
  | cons m ms ih => exact (ih _).trans (size_modify ..)

/-- What the nodes of a tree learn of a new node `id` above them: its children get it as their parent, and
a record comes to own the fields among its members. -/
def link (t : Tree) (id : NodeId) (payload : Payload) : Tree :=
  (t.adopt id payload.children).ownFields id payload.members

@[simp] theorem size_link (t : Tree) (id : NodeId) (p : Payload) : (t.link id p).size = t.size := by
  simp [link]

/-- Adds a node above its children. The translation unit that was added last is the root. -/
def alloc (t : Tree) (name : String) (payload : Payload) : NodeId × Tree :=
  let id := t.nextId
  let root := if payload.kind = .translationUnit then some id else t.root
  (id, { nodes := (t.link id payload).nodes.push { id, name, payload }, root })

@[simp] theorem alloc_fst (t : Tree) (name : String) (p : Payload) : (t.alloc name p).1 = t.nextId := rfl

@[simp] theorem size_alloc (t : Tree) (name : String) (p : Payload) :
    (t.alloc name p).2.size = t.size + 1 := by
  have h := size_link t t.nextId p
  rw [size] at h
  simp [alloc, size, h]

/-- Adds a field that the language gives to every instance of `record`. -/
def addImplicitField (t : Tree) (record : NodeId) (name typeName : String) : NodeId × Tree :=
  let (field, t) := t.alloc name
    (.fieldDecl { typeName := some typeName, isImplicit := true, record := some record })
  (field, t.modify field fun n => { n with parent := some record })

/-- Turns the plain name `id` into an access to the member of that name on the name `base`. The node
keeps its id, name, region and parent; the two names below it are new. -/
def writeOutAccess (t : Tree) (id : NodeId) (base : String) (baseTo memberTo : Resolution) : Tree :=
  match t.get? id with
  | none => t
  | some node =>
    let (baseId, t) := t.alloc base (.reference baseTo)
    let (memberId, t) := t.alloc node.name (.reference memberTo)
    let place (n : Node) : Node := { n with parent := some id, region := node.region }
    let t := (t.modify baseId place).modify memberId place
    let access : Access :=
      { base := some baseId, member := some memberId, implicitBase := true, resolution := memberTo }
    t.modify id fun n => { n with payload := .member access }

end Tree
end NameResolution
