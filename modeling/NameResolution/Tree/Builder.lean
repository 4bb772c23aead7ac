import NameResolution.Tree.Basic

/-!
# Building trees

One constructor for each kind of node. All of them answer the id of the new node and the tree with it;
the children of the node are built before it.
-/
namespace NameResolution.Tree

def addUnit (t : Tree) (name : String) (declarations : List NodeId) : NodeId × Tree :=
  t.alloc name (.translationUnit declarations)

def addRecord (t : Tree) (name : String) (kind : RecordKind) (members : List NodeId) : NodeId × Tree :=
  t.alloc name (.recordDecl { kind, members })

def addMethod (t : Tree) (name : String) (isStatic : Bool) (parameters : List NodeId)
    (body : Option NodeId) : NodeId × Tree :=
  t.alloc name (.methodDecl { isStatic, parameters, body })

def addFunction (t : Tree) (name : String) (parameters : List NodeId) (body : Option NodeId) :
    NodeId × Tree :=
  t.alloc name (.functionDecl { parameters, body })

def addField (t : Tree) (name : String) (typeName : Option String) (isStatic : Bool)
    (initializer : Option NodeId) : NodeId × Tree :=
  t.alloc name (.fieldDecl { typeName, isStatic, initializer })

def addVariable (t : Tree) (name : String) (typeName : Option String) (initializer : Option NodeId) :
    NodeId × Tree :=
  t.alloc name (.variableDecl { typeName, initializer })

def addParameter (t : Tree) (name : String) (typeName : Option String) : NodeId × Tree :=
  t.alloc name (.parameterDecl { typeName })

def addCompound (t : Tree) (statements : List NodeId) : NodeId × Tree :=
  t.alloc "" (.compound statements)

def addDeclStatement (t : Tree) (declarations : List NodeId) : NodeId × Tree :=
  t.alloc "" (.declStatement declarations)

def addReturn (t : Tree) (value : Option NodeId) : NodeId × Tree :=
  t.alloc "" (.returnStatement value)

def addFor (t : Tree) (initializer condition iteration body : Option NodeId) : NodeId × Tree :=
  t.alloc "" (.forStatement initializer condition iteration body)

def addWhile (t : Tree) (condition body : Option NodeId) : NodeId × Tree :=
  t.alloc "" (.whileStatement condition body)

def addIf (t : Tree) (declaration condition thenBranch elseBranch : Option NodeId) : NodeId × Tree :=
  t.alloc "" (.ifStatement declaration condition thenBranch elseBranch)

def addTry (t : Tree) (body : Option NodeId) (clauses : List NodeId) : NodeId × Tree :=
  t.alloc "" (.tryStatement body clauses)

def addCatch (t : Tree) (parameter body : Option NodeId) : NodeId × Tree :=
  t.alloc "" (.catchClause parameter body)

def addReference (t : Tree) (name : String) : NodeId × Tree :=
  t.alloc name (.reference .unresolved)

/-- A call of whatever stands at `callee`. -/
def addCallOf (t : Tree) (name : String) (callee : Option NodeId) (arguments : List NodeId) :
    NodeId × Tree :=
  t.alloc name (.call callee arguments)

/-- A call of a plain name, which becomes a node of its own. -/
def addCall (t : Tree) (name : String) (arguments : List NodeId) : NodeId × Tree :=
  let (callee, t) := t.addReference name
  t.addCallOf name (some callee) arguments

def addNew (t : Tree) (typeName : String) (arguments : List NodeId) : NodeId × Tree :=
  t.alloc typeName (.newExpr typeName arguments)

def addBinary (t : Tree) (operator : String) (lhs rhs : Option NodeId) : NodeId × Tree :=
  t.alloc operator (.binaryOp operator lhs rhs)

/-- An access whose member half is whatever stands at `member`. -/
def addAccess (t : Tree) (name : String) (base member : Option NodeId) : NodeId × Tree :=
  t.alloc name (.member { base, member })

/-- An access to the member `name`, which becomes a node of its own. -/
def addMember (t : Tree) (base : NodeId) (name : String) : NodeId × Tree :=
  let (member, t) := t.addReference name
  t.addAccess name (some base) (some member)

/-- A literal is named by its text. -/
def addLiteral (t : Tree) (value : LiteralValue) : NodeId × Tree :=
  t.alloc value.text (.literal value)

end NameResolution.Tree
