import NameResolution.NodeKind
import NameResolution.Literal

/-!
# Syntax documents

A document is one nested syntax tree. Each node may state the line and column it stands at, and has the
form of its kind.
-/
namespace NameResolution

mutual

inductive SyntaxNode where
  | mk (line column : Option UInt32) (form : SyntaxForm)

inductive SyntaxForm where
  | translationUnit (name : String) (declarations : List SyntaxNode)
  | recordDecl (name : String) (kind : RecordKind) (members : List SyntaxNode)
  | methodDecl (name : String) (isStatic : Bool) (parameters : List SyntaxNode)
      (body : Option SyntaxNode)
  | functionDecl (name : String) (parameters : List SyntaxNode) (body : Option SyntaxNode)
  | fieldDecl (name : String) (typeName : Option String) (isStatic : Bool)
      (initializer : Option SyntaxNode)
  | variableDecl (name : String) (typeName : Option String) (initializer : Option SyntaxNode)
  | parameterDecl (name : String) (typeName : Option String)
  | compound (statements : List SyntaxNode)
  | declStatement (declarations : List SyntaxNode)
  | returnStatement (value : Option SyntaxNode)
  | forStatement (initializer condition iteration body : Option SyntaxNode)
  | whileStatement (condition body : Option SyntaxNode)
  | ifStatement (declaration condition thenBranch elseBranch : Option SyntaxNode)
  | tryStatement (body : Option SyntaxNode) (clauses : List SyntaxNode)
  | catchClause (parameter body : Option SyntaxNode)
  | call (name : String) (callee : Option SyntaxNode) (arguments : List SyntaxNode)
  | newExpr (typeName : String) (arguments : List SyntaxNode)
  | binaryOp (operator : String) (lhs rhs : Option SyntaxNode)
  | reference (name : String)
  | member (base : Option SyntaxNode) (name : Option String)
  | literal (value : LiteralValue)

end

instance : Inhabited SyntaxNode := ⟨.mk none none (.reference "")⟩

namespace SyntaxForm

def kind : SyntaxForm → NodeKind
  | translationUnit .. => .translationUnit
  | recordDecl .. => .recordDecl
  | methodDecl .. => .methodDecl
  | functionDecl .. => .functionDecl
  | fieldDecl .. => .fieldDecl
  | variableDecl .. => .variableDecl
  | parameterDecl .. => .parameterDecl
  | compound .. => .compound
  | declStatement .. => .declStatement
  | returnStatement .. => .returnStatement
  | forStatement .. => .forStatement
  | whileStatement .. => .whileStatement
  | ifStatement .. => .ifStatement
  | tryStatement .. => .tryStatement
  | catchClause .. => .catchClause
  | call .. => .call
  | newExpr .. => .newExpr
  | binaryOp .. => .binaryOp
  | reference .. => .reference
  | member .. => .member
  | literal .. => .literal

end SyntaxForm

namespace SyntaxNode

def line : SyntaxNode → Option UInt32
  | mk line _ _ => line

def column : SyntaxNode → Option UInt32
  | mk _ column _ => column

def form : SyntaxNode → SyntaxForm
  | mk _ _ form => form

def kind (n : SyntaxNode) : NodeKind := n.form.kind

def placedAt (n : SyntaxNode) (line column : UInt32) : SyntaxNode := mk (some line) (some column) n.form

end SyntaxNode
end NameResolution
