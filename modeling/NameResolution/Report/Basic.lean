import NameResolution.Resolve
import NameResolution.Tree.Traversal

/-!
# Reports

What is told about a resolved unit: every reference that stands on its own, in the order of positions,
with what it was bound to. The member half of an access is told with the access.
-/
namespace NameResolution

structure DeclarationReport where
  id : NodeId
  kind : NodeKind
  name : String
  line : Option UInt32
deriving DecidableEq

structure BindingReport where
  node : NodeId
  kind : NodeKind
  name : String
  line : Option UInt32
  column : Option UInt32
  implicitBase : Bool
  resolution : Resolution
  declarations : List DeclarationReport
deriving DecidableEq

def BindingReport.isResolved (b : BindingReport) : Bool := b.resolution.isResolved

structure DuplicateReport where
  name : String
  first : NodeId
  repeated : NodeId
  line : Option UInt32
deriving DecidableEq

structure UnitReport where
  file : String
  translationUnit : String := ""
  resolved : Nat := 0
  implicitMembers : Nat := 0
  bindings : List BindingReport := []
  duplicates : List DuplicateReport := []
  unresolved : List NodeId := []
  error : Option String := none
deriving DecidableEq

namespace Tree

def line? (t : Tree) (id : NodeId) : Option UInt32 := (t.region? id).map Region.startLine

/-- The node is the member half of the access above it. -/
def isMemberHalf (t : Tree) (id : NodeId) : Bool :=
  match (t.get? id).bind Node.parent |>.bind t.get? |>.map Node.payload with
  | some (.member access) => access.member == some id
  | _ => false

/-- A reference that is reported on its own. -/
def isReported (t : Tree) (id : NodeId) : Bool :=
  (t.kind? id).any NodeKind.isReference && !t.isMemberHalf id

def reportedReferences (t : Tree) (root : NodeId) : List NodeId :=
  t.sortByPosition ((t.flatten root).filter t.isReported)

def reportDeclaration? (t : Tree) (id : NodeId) : Option DeclarationReport :=
  (t.get? id).map fun n => { id, kind := n.kind, name := n.name, line := n.region.map Region.startLine }

def reportBinding? (t : Tree) (id : NodeId) : Option BindingReport := do
  let n ← t.get? id
  let r ← n.payload.resolution?
  pure
    { node := id
      kind := n.kind
      name := n.name
      line := n.region.map Region.startLine
      column := n.region.map Region.startColumn
      implicitBase := n.payload.isImplicit
      resolution := r
      declarations := r.candidates.filterMap t.reportDeclaration? }

def reportDuplicate (t : Tree) (d : Duplicate) : DuplicateReport :=
  { name := d.name, first := d.first, repeated := d.repeated, line := t.line? d.repeated }

end Tree

namespace UnitReport

def ofUnit (file : String) (t : Tree) (u : ResolvedUnit) : UnitReport :=
  { file
    translationUnit := (t.name? u.root).getD ""
    resolved := u.resolved
    implicitMembers := u.implicitMembers
    bindings := (t.reportedReferences u.root).filterMap t.reportBinding?
    duplicates := u.duplicates.toList.map t.reportDuplicate
    unresolved := u.unresolved.toList }

def failed (file message : String) : UnitReport := { file, error := some message }

def isFailed (r : UnitReport) : Bool := r.error.isSome

/-- The report on what became of a unit. -/
def ofOutcome (file : String) (o : Outcome ResolvedUnit) : UnitReport :=
  match o.result with
  | .ok u => ofUnit file o.tree u
  | .error e => failed file e.message

end UnitReport

/-- All reports of a run, with sums over them. -/
structure Summary where
  unitsResolved : Nat
  unitsFailed : Nat
  totalBindings : Nat
  totalUnresolved : Nat
  units : List UnitReport
deriving DecidableEq

def Summary.ofReports (reports : List UnitReport) : Summary :=
  { unitsResolved := reports.length - (reports.countP UnitReport.isFailed)
    unitsFailed := reports.countP UnitReport.isFailed
    totalBindings := reports.foldl (fun n r => n + r.bindings.length) 0
    totalUnresolved := reports.foldl (fun n r => n + r.unresolved.length) 0
    units := reports }

end NameResolution
