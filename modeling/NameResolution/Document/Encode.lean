import NameResolution.Json.Basic
import NameResolution.Document.Syntax
import NameResolution.Document.Tag

/-!
# Encoding documents

A node is written with all members of its kind, an absent child as `null`. Its line and column are
written only if it has them.
-/
namespace NameResolution

def Json.word? (key : String) : Option UInt32 → List (String × Json)
  | none => []
  | some n => [(key, .nat n.toNat)]

mutual

def SyntaxNode.toJson : SyntaxNode → Json
  | .mk line column form =>
    .obj (("kind", .str form.kind.tag) :: form.members ++ Json.word? "line" line ++
      Json.word? "column" column)

/-- The members that say what a node of its kind is. -/
def SyntaxForm.members : SyntaxForm → List (String × Json)
  | .translationUnit name declarations =>
    [("name", .str name), ("declarations", SyntaxNode.listToJson declarations)]
  | .recordDecl name kind members =>
    [("name", .str name), ("record_kind", .str kind.name), ("members", SyntaxNode.listToJson members)]
  | .methodDecl name isStatic parameters body =>
    [("name", .str name), ("is_static", .bool isStatic),
      ("parameters", SyntaxNode.listToJson parameters), ("body", SyntaxNode.optionToJson body)]
  | .functionDecl name parameters body =>
    [("name", .str name), ("parameters", SyntaxNode.listToJson parameters),
      ("body", SyntaxNode.optionToJson body)]
  | .fieldDecl name typeName isStatic initializer =>
    [("name", .str name), ("type_name", Json.ofOption .str typeName), ("is_static", .bool isStatic),
      ("initializer", SyntaxNode.optionToJson initializer)]
  | .variableDecl name typeName initializer =>
    [("name", .str name), ("type_name", Json.ofOption .str typeName),
      ("initializer", SyntaxNode.optionToJson initializer)]
  | .parameterDecl name typeName =>
    [("name", .str name), ("type_name", Json.ofOption .str typeName)]
  | .compound statements => [("statements", SyntaxNode.listToJson statements)]
  | .declStatement declarations => [("declarations", SyntaxNode.listToJson declarations)]
  | .returnStatement value => [("value", SyntaxNode.optionToJson value)]
  | .forStatement initializer condition iteration body =>
    [("initializer", SyntaxNode.optionToJson initializer),
      ("condition", SyntaxNode.optionToJson condition),
      ("iteration", SyntaxNode.optionToJson iteration), ("body", SyntaxNode.optionToJson body)]
  | .whileStatement condition body =>
    [("condition", SyntaxNode.optionToJson condition), ("body", SyntaxNode.optionToJson body)]
  | .ifStatement declaration condition thenBranch elseBranch =>
    [("condition_declaration", SyntaxNode.optionToJson declaration),
      ("condition", SyntaxNode.optionToJson condition),
      ("then_branch", SyntaxNode.optionToJson thenBranch),
      ("else_branch", SyntaxNode.optionToJson elseBranch)]
  | .tryStatement body clauses =>
    [("body", SyntaxNode.optionToJson body), ("catch_clauses", SyntaxNode.listToJson clauses)]
  | .catchClause parameter body =>
    [("parameter", SyntaxNode.optionToJson parameter), ("body", SyntaxNode.optionToJson body)]
  | .call name callee arguments =>
    [("name", .str name), ("callee", SyntaxNode.optionToJson callee),
      ("arguments", SyntaxNode.listToJson arguments)]
  | .newExpr typeName arguments =>
    [("type_name", .str typeName), ("arguments", SyntaxNode.listToJson arguments)]
  | .binaryOp operator lhs rhs =>
    [("operator", .str operator), ("lhs", SyntaxNode.optionToJson lhs),
      ("rhs", SyntaxNode.optionToJson rhs)]
  | .reference name => [("name", .str name)]
  | .member base name =>
    [("base", SyntaxNode.optionToJson base), ("member", Json.ofOption .str name)]
  | .literal value => [("value", value.toJson)]

def SyntaxNode.optionToJson : Option SyntaxNode → Json
  | none => .null
  | some n => n.toJson

def SyntaxNode.listToJson (ns : List SyntaxNode) : Json := .arr (SyntaxNode.itemsToJson ns)

def SyntaxNode.itemsToJson : List SyntaxNode → List Json
  | [] => []
  | n :: ns => n.toJson :: SyntaxNode.itemsToJson ns

end

end NameResolution
