import NameResolution.NodeKind
import NameResolution.Literal
import NameResolution.Resolution

/-!
# What nodes hold

Each kind of node holds the ids of the nodes below it, and what its declaration, its operator or its
resolution says. `Payload.children` lists the ids below a node in the order of the text.
-/
namespace NameResolution

/-- The field through which the members of a record reach an enclosing instance. -/
structure OuterInstance where
  record : NodeId
  field : NodeId
deriving DecidableEq

/-- A class, struct or interface. What it encloses and is enclosed by is filled in by registration. -/
structure Record where
  kind : RecordKind
  members : List NodeId
  enclosing : Option NodeId := none
  implicitThis : Option NodeId := none
  implicitOuter : List OuterInstance := []
deriving DecidableEq

structure Callable where
  isStatic : Bool := false
  parameters : List NodeId
  body : Option NodeId
deriving DecidableEq

/-- A field of a record. An implicit one was added by registration. -/
structure Field where
  typeName : Option String
  isStatic : Bool := false
  isImplicit : Bool := false
  record : Option NodeId := none
  initializer : Option NodeId := none
deriving DecidableEq

structure Local where
  typeName : Option String
  initializer : Option NodeId := none
deriving DecidableEq

/-- A member access. With an implicit base it was a plain name in the text. -/
structure Access where
  base : Option NodeId
  member : Option NodeId
  implicitBase : Bool := false
  resolution : Resolution := .unresolved
deriving DecidableEq

inductive Payload where
  | translationUnit (declarations : List NodeId)
  | recordDecl (record : Record)
  | methodDecl (callable : Callable)
  | functionDecl (callable : Callable)
  | fieldDecl (field : Field)
  | variableDecl (declared : Local)
  | parameterDecl (declared : Local)
  | compound (statements : List NodeId)
  | declStatement (declarations : List NodeId)
  | returnStatement (value : Option NodeId)
  | forStatement (initializer condition iteration body : Option NodeId)
  | whileStatement (condition body : Option NodeId)
  | ifStatement (declaration condition thenBranch elseBranch : Option NodeId)
  | tryStatement (body : Option NodeId) (clauses : List NodeId)
  | catchClause (parameter body : Option NodeId)
  | call (callee : Option NodeId) (arguments : List NodeId)
  | newExpr (typeName : String) (arguments : List NodeId)
  | binaryOp (operator : String) (lhs rhs : Option NodeId)
  | reference (resolution : Resolution)
  | member (access : Access)
  | literal (value : LiteralValue)
deriving DecidableEq

namespace Payload

def kind : Payload → NodeKind
  | translationUnit _ => .translationUnit
  | recordDecl _ => .recordDecl
  | methodDecl _ => .methodDecl
  | functionDecl _ => .functionDecl
  | fieldDecl _ => .fieldDecl
  | variableDecl _ => .variableDecl
  | parameterDecl _ => .parameterDecl
  | compound _ => .compound
  | declStatement _ => .declStatement
  | returnStatement _ => .returnStatement
  | forStatement .. => .forStatement
  | whileStatement .. => .whileStatement
  | ifStatement .. => .ifStatement
  | tryStatement .. => .tryStatement
  | catchClause .. => .catchClause
  | call .. => .call
  | newExpr .. => .newExpr
  | binaryOp .. => .binaryOp
  | reference _ => .reference
  | member _ => .member
  | literal _ => .literal

/-- The ids below a node in the order of the text; implicit members of a record come last. -/
def children : Payload → List NodeId
  | translationUnit declarations => declarations
  | recordDecl r => r.members ++ r.implicitThis.toList ++ r.implicitOuter.map OuterInstance.field
  | methodDecl c | functionDecl c => c.parameters ++ c.body.toList
  | fieldDecl f => f.initializer.toList
  | variableDecl l | parameterDecl l => l.initializer.toList
  | compound statements => statements
  | declStatement declarations => declarations
  | returnStatement value => value.toList
  | forStatement initializer condition iteration body =>
    initializer.toList ++ condition.toList ++ iteration.toList ++ body.toList
  | whileStatement condition body => condition.toList ++ body.toList
  | ifStatement declaration condition thenBranch elseBranch =>
    declaration.toList ++ condition.toList ++ thenBranch.toList ++ elseBranch.toList
  | tryStatement body clauses => body.toList ++ clauses
  | catchClause parameter body => parameter.toList ++ body.toList
  | call callee arguments => callee.toList ++ arguments
  | newExpr _ arguments => arguments
  | binaryOp _ lhs rhs => lhs.toList ++ rhs.toList
  | reference _ | literal _ => []
  | member a => a.base.toList ++ a.member.toList

/-- The ids that a record was written with; no other payload has members. -/
def members : Payload → List NodeId
  | recordDecl r => r.members
  | _ => []

def typeName? : Payload → Option String
  | fieldDecl f => f.typeName
  | variableDecl l | parameterDecl l => l.typeName
  | _ => none

def isStatic : Payload → Bool
  | fieldDecl f => f.isStatic
  | methodDecl c | functionDecl c => c.isStatic
  | _ => false

/-- The node, or the base of the access, does not stand in the text. -/
def isImplicit : Payload → Bool
  | fieldDecl f => f.isImplicit
  | member a => a.implicitBase
  | _ => false

/-- A field that belongs to the instances of a record and stands in the text. -/
def isInstanceField : Payload → Bool
  | fieldDecl f => !f.isStatic && !f.isImplicit
  | _ => false

def resolution? : Payload → Option Resolution
  | reference r => some r
  | member a => some a.resolution
  | _ => none

/-- Binds a reference or a member access; other payloads stay as they are. -/
def bind (r : Resolution) : Payload → Payload
  | reference _ => reference r
  | member a => member { a with resolution := r }
  | p => p

@[simp] theorem kind_bind (r : Resolution) (p : Payload) : (p.bind r).kind = p.kind := by
  cases p <;> rfl

@[simp] theorem children_bind (r : Resolution) (p : Payload) : (p.bind r).children = p.children := by
  cases p <;> rfl

theorem resolution?_isSome (p : Payload) : p.resolution?.isSome = p.kind.isReference := by
  cases p <;> rfl

theorem resolution?_bind (r : Resolution) (p : Payload) :
    (p.bind r).resolution? = p.resolution?.map fun _ => r := by
  cases p <;> rfl

end Payload
end NameResolution
