/-!
# Kinds of nodes

The twenty-one kinds of syntax that a tree is made of, the names they are shown under, and
the classes of kinds that registration and binding tell apart.
-/
namespace NameResolution

inductive RecordKind where
  | classRecord
  | structRecord
  | interfaceRecord
deriving DecidableEq, Inhabited

namespace RecordKind

def name : RecordKind → String
  | classRecord => "class"
  | structRecord => "struct"
  | interfaceRecord => "interface"

def all : List RecordKind := [classRecord, structRecord, interfaceRecord]

def ofName? (s : String) : Option RecordKind := all.find? (·.name == s)

theorem ofName?_name (k : RecordKind) : ofName? k.name = some k := by
  cases k <;> decide

end RecordKind

inductive NodeKind where
  | translationUnit
  | recordDecl
  | methodDecl
  | functionDecl
  | fieldDecl
  | variableDecl
  | parameterDecl
  | compound
  | declStatement
  | returnStatement
  | forStatement
  | whileStatement
  | ifStatement
  | tryStatement
  | catchClause
  | call
  | newExpr
  | binaryOp
  | reference
  | member
  | literal
deriving DecidableEq, Inhabited

namespace NodeKind

/-- The name a kind is shown under, in reports and in messages alike. -/
def name : NodeKind → String
  | translationUnit => "TranslationUnit"
  | recordDecl => "RecordDeclaration"
  | methodDecl => "MethodDeclaration"
  | functionDecl => "FunctionDeclaration"
  | fieldDecl => "FieldDeclaration"
  | variableDecl => "VariableDeclaration"
  | parameterDecl => "ParameterDeclaration"
  | compound => "CompoundStatement"
  | declStatement => "DeclarationStatement"
  | returnStatement => "ReturnStatement"
  | forStatement => "ForStatement"
  | whileStatement => "WhileStatement"
  | ifStatement => "IfStatement"
  | tryStatement => "TryStatement"
  | catchClause => "CatchClause"
  | call => "CallExpression"
  | newExpr => "NewExpression"
  | binaryOp => "BinaryOperator"
  | reference => "DeclaredReferenceExpression"
  | member => "MemberExpression"
  | literal => "Literal"

def all : List NodeKind :=
  [translationUnit, recordDecl, methodDecl, functionDecl, fieldDecl, variableDecl, parameterDecl,
    compound, declStatement, returnStatement, forStatement, whileStatement, ifStatement,
    tryStatement, catchClause, call, newExpr, binaryOp, reference, member, literal]

def ofName? (s : String) : Option NodeKind := all.find? (·.name == s)

theorem ofName?_name (k : NodeKind) : ofName? k.name = some k := by
  cases k <;> decide

/-- Kinds that bring a name into a scope. -/
def isDeclaration : NodeKind → Bool
  | recordDecl | methodDecl | functionDecl | fieldDecl | variableDecl | parameterDecl => true
  | _ => false

/-- Kinds of which a scope holds at most one declaration under a name. -/
def isUniquePerScope : NodeKind → Bool
  | recordDecl | fieldDecl | variableDecl | parameterDecl => true
  | _ => false

def isCallable : NodeKind → Bool
  | methodDecl | functionDecl => true
  | _ => false

/-- Kinds that carry a resolution. -/
def isReference : NodeKind → Bool
  | reference | member => true
  | _ => false

def isExpression : NodeKind → Bool
  | call | newExpr | binaryOp | reference | member | literal => true
  | _ => false

/-- A declaration is callable or unique in its scope, and never both. -/
theorem isDeclaration_eq (k : NodeKind) :
    k.isDeclaration = (k.isCallable ^^ k.isUniquePerScope) := by
  cases k <;> rfl

end NodeKind
end NameResolution
