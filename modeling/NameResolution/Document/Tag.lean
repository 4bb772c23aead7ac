import NameResolution.NodeKind

/-!
# Tags of a document

The words by which a document names the kinds of its nodes. A kind may also be given by its place among
all kinds.
-/
namespace NameResolution.NodeKind

def tag : NodeKind → String
  | translationUnit => "translation_unit"
  | recordDecl => "record"
  | methodDecl => "method"
  | functionDecl => "function"
  | fieldDecl => "field"
  | variableDecl => "variable"
  | parameterDecl => "parameter"
  | compound => "compound"
  | declStatement => "declaration_statement"
  | returnStatement => "return"
  | forStatement => "for"
  | whileStatement => "while"
  | ifStatement => "if"
  | tryStatement => "try"
  | catchClause => "catch"
  | call => "call"
  | newExpr => "new"
  | binaryOp => "binary"
  | reference => "reference"
  | member => "member"
  | literal => "literal"

def ofTag? (s : String) : Option NodeKind := all.find? (·.tag == s)

theorem ofTag?_tag (k : NodeKind) : ofTag? k.tag = some k := by
  cases k <;> decide

/-- The kind at a place among all kinds. -/
def ofOrdinal? (n : Int) : Option NodeKind := if 0 ≤ n then all[n.toNat]? else none

end NameResolution.NodeKind
