import NameResolution.Scope.Tree
import NameResolution.Tree.Payload

/-!
# Where scopes nest

Which nodes open a scope, which nodes below them are part of the nesting, and what kinds may stand there.
Expressions are no part of it: nothing is declared inside a condition, an initializer, an argument or a
returned value.
-/
namespace NameResolution

/-- A place below a node, and the kinds that may stand there if they are restricted. -/
structure Slot where
  child : NodeId
  allowed : Option (List NodeKind) := none
deriving DecidableEq

namespace Slot

def allows (s : Slot) (kind : NodeKind) : Bool := s.allowed.all (·.contains kind)

/-- Places that any node may stand in. -/
def free (ids : List NodeId) : List Slot := ids.map fun id => { child := id }

/-- Places that are restricted to the given kinds. -/
def only (kinds : List NodeKind) (ids : List NodeId) : List Slot :=
  ids.map fun id => { child := id, allowed := some kinds }

theorem map_child_free (ids : List NodeId) : (free ids).map child = ids := by
  simp [free, Function.comp_def]

theorem map_child_only (kinds : List NodeKind) (ids : List NodeId) :
    (only kinds ids).map child = ids := by
  simp [only, Function.comp_def]

end Slot

namespace Payload

def opens? : Payload → Option ScopeKind
  | translationUnit _ => some .translationUnit
  | recordDecl _ => some .record
  | methodDecl _ | functionDecl _ => some .function
  | compound _ => some .block
  | forStatement .. | whileStatement .. => some .loop
  | ifStatement .. => some .condition
  | catchClause .. => some .handler
  | _ => none

def memberKinds : List NodeKind :=
  [.fieldDecl, .methodDecl, .functionDecl, .recordDecl, .variableDecl]

/-- The nodes below a node that are part of the nesting, in the order they are entered. -/
def slots : Payload → List Slot
  | translationUnit declarations => Slot.free declarations
  | recordDecl r => Slot.only memberKinds r.members
  | methodDecl c | functionDecl c =>
    Slot.only [.parameterDecl] c.parameters ++ Slot.free c.body.toList
  | compound statements => Slot.free statements
  | declStatement declarations => Slot.free declarations
  | forStatement initializer _ _ body => Slot.free (initializer.toList ++ body.toList)
  | whileStatement _ body => Slot.free body.toList
  | ifStatement declaration _ thenBranch elseBranch =>
    Slot.free (declaration.toList ++ thenBranch.toList ++ elseBranch.toList)
  | tryStatement body clauses => Slot.free body.toList ++ Slot.only [.catchClause] clauses
  | catchClause parameter body =>
    Slot.only [.variableDecl, .parameterDecl] parameter.toList ++ Slot.free body.toList
  | fieldDecl _ | variableDecl _ | parameterDecl _ | returnStatement _ | call .. | newExpr ..
  | binaryOp .. | reference _ | member _ | literal _ => []

/-- What is part of the nesting stands below the node. -/
theorem child_mem_children {p : Payload} {s : Slot} (h : s ∈ p.slots) : s.child ∈ p.children := by
  have h' : s.child ∈ p.slots.map Slot.child := List.mem_map_of_mem h
  cases p <;>
    simp only [slots, List.map_append, Slot.map_child_free, Slot.map_child_only, List.mem_append,
      List.map_nil, List.not_mem_nil] at h' <;>
    simp only [children, List.mem_append] <;> grind

end Payload
end NameResolution
