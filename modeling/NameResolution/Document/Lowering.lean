import NameResolution.Json.Reader
import NameResolution.Document.Decode
import NameResolution.Tree.Builder

/-!
# Lowering documents

A document becomes a tree: the nodes below a node are added first, in the order of the text, and the
node after them. A call without a callee calls the plain name it bears.
-/
namespace NameResolution

mutual

/-- Adds a node and all below it. A node that states its line stands there, in column one unless it says
more. -/
def SyntaxNode.lower : SyntaxNode → StateM Tree NodeId
  | .mk line column form => do
    let id ← form.lower
    match line with
    | none => pure id
    | some line =>
      modify (·.setRegion id (Region.point line (column.getD 1)))
      pure id

def SyntaxForm.lower : SyntaxForm → StateM Tree NodeId
  | .translationUnit name declarations => do
    let declarations ← SyntaxNode.lowerList declarations
    modifyGet (·.addUnit name declarations)
  | .recordDecl name kind members => do
    let members ← SyntaxNode.lowerList members
    modifyGet (·.addRecord name kind members)
  | .methodDecl name isStatic parameters body => do
    let parameters ← SyntaxNode.lowerList parameters
    let body ← SyntaxNode.lowerOption body
    modifyGet (·.addMethod name isStatic parameters body)
  | .functionDecl name parameters body => do
    let parameters ← SyntaxNode.lowerList parameters
    let body ← SyntaxNode.lowerOption body
    modifyGet (·.addFunction name parameters body)
  | .fieldDecl name typeName isStatic initializer => do
    let initializer ← SyntaxNode.lowerOption initializer
    modifyGet (·.addField name typeName isStatic initializer)
  | .variableDecl name typeName initializer => do
    let initializer ← SyntaxNode.lowerOption initializer
    modifyGet (·.addVariable name typeName initializer)
  | .parameterDecl name typeName => modifyGet (·.addParameter name typeName)
  | .compound statements => do
    let statements ← SyntaxNode.lowerList statements
    modifyGet (·.addCompound statements)
  | .declStatement declarations => do
    let declarations ← SyntaxNode.lowerList declarations
    modifyGet (·.addDeclStatement declarations)
  | .returnStatement value => do
    let value ← SyntaxNode.lowerOption value
    modifyGet (·.addReturn value)
  | .forStatement initializer condition iteration body => do
    let initializer ← SyntaxNode.lowerOption initializer
    let condition ← SyntaxNode.lowerOption condition
    let iteration ← SyntaxNode.lowerOption iteration
    let body ← SyntaxNode.lowerOption body
    modifyGet (·.addFor initializer condition iteration body)
  | .whileStatement condition body => do
    let condition ← SyntaxNode.lowerOption condition
    let body ← SyntaxNode.lowerOption body
    modifyGet (·.addWhile condition body)
  | .ifStatement declaration condition thenBranch elseBranch => do
    let declaration ← SyntaxNode.lowerOption declaration
    let condition ← SyntaxNode.lowerOption condition
    let thenBranch ← SyntaxNode.lowerOption thenBranch
    let elseBranch ← SyntaxNode.lowerOption elseBranch
    modifyGet (·.addIf declaration condition thenBranch elseBranch)
  | .tryStatement body clauses => do
    let body ← SyntaxNode.lowerOption body
    let clauses ← SyntaxNode.lowerList clauses
    modifyGet (·.addTry body clauses)
  | .catchClause parameter body => do
    let parameter ← SyntaxNode.lowerOption parameter
    let body ← SyntaxNode.lowerOption body
    modifyGet (·.addCatch parameter body)
  | .call name none arguments => do
    let callee ← modifyGet (·.addReference name)
    let arguments ← SyntaxNode.lowerList arguments
    modifyGet (·.addCallOf name (some callee) arguments)
  | .call name (some callee) arguments => do
    let callee ← callee.lower
    let arguments ← SyntaxNode.lowerList arguments
    modifyGet (·.addCallOf name (some callee) arguments)
  | .newExpr typeName arguments => do
    let arguments ← SyntaxNode.lowerList arguments
    modifyGet (·.addNew typeName arguments)
  | .binaryOp operator lhs rhs => do
    let lhs ← SyntaxNode.lowerOption lhs
    let rhs ← SyntaxNode.lowerOption rhs
    modifyGet (·.addBinary operator lhs rhs)
  | .reference name => modifyGet (·.addReference name)
  | .member base name => do
    let base ← SyntaxNode.lowerOption base
    let name := name.getD ""
    if name = "" then modifyGet (·.addAccess name base none)
    else do
      let member ← modifyGet (·.addReference name)
      modifyGet (·.addAccess name base (some member))
  | .literal value => modifyGet (·.addLiteral value)

def SyntaxNode.lowerOption : Option SyntaxNode → StateM Tree (Option NodeId)
  | none => pure none
  | some n => do
    let id ← n.lower
    pure (some id)

def SyntaxNode.lowerList : List SyntaxNode → StateM Tree (List NodeId)
  | [] => pure []
  | n :: ns => do
    let id ← n.lower
    let ids ← SyntaxNode.lowerList ns
    pure (id :: ids)

end

/-- Something that could not be read, and what its reader says of that where it is known. -/
structure Unread where
  name : String
  said : Option String := none
deriving DecidableEq

/-- The end of a message that tells the cause. -/
def Unread.cause (u : Unread) : String := u.said.elim "" (": " ++ ·)

inductive InputError where
  | invalidDocument (document : Unread)
  | unexpectedRoot (found : NodeKind)
deriving DecidableEq

def InputError.message : InputError → String
  | invalidDocument document => "invalid syntax document '" ++ document.name ++ "'" ++ document.cause
  | unexpectedRoot found =>
    "expected a translation unit at the document root, found " ++ found.name

namespace Tree

def ofSyntax (root : SyntaxNode) : Except InputError Tree :=
  if root.kind = .translationUnit then .ok (root.lower.run {}).2
  else .error (.unexpectedRoot root.kind)

/-- The tree of a document given as text. What the reader says of a text that is no document is a matter of the
reader. -/
def ofDocument (source text : String) (complaint : String → Option String := fun _ => none) : Except InputError Tree :=
  match Json.read? text |>.bind SyntaxNode.ofJson? with
  | none => .error (.invalidDocument ⟨source, complaint text⟩)
  | some root => ofSyntax root

end Tree
end NameResolution
