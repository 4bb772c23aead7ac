import NameResolution.Json.Basic
import NameResolution.Document.Syntax
import NameResolution.Document.Tag

/-!
# Decoding documents

A node is an object. Its members may come in any order and may include members that mean nothing to its
kind, but a member that does mean something stands there at most once. Children, type names, lines and
columns may be absent or `null`; lists, flags and the name of a translation unit may only be absent.
-/
namespace NameResolution

/-- A member of an object: its value, the node that the value spells and the list of nodes that it
spells. -/
structure Part where
  value : Json
  node : Option SyntaxNode
  nodes : Option (List SyntaxNode)

abbrev Parts := List (String × Part)

namespace Parts

def under (parts : Parts) (key : String) : List Part := (parts.filter (·.1 == key)).map Prod.snd

/-- Reads the member under a key, which may be absent but not repeated. -/
def field? {α : Type} (parts : Parts) (key : String) (absent : Option α) (read : Part → Option α) :
    Option α :=
  match parts.under key with
  | [] => absent
  | [p] => read p
  | _ => none

/-- A member for which `null` says the same as absence. -/
def nullable? {α : Type} (parts : Parts) (key : String) (read : Part → Option α) : Option (Option α) :=
  parts.field? key (some none) fun p =>
    match p.value with
    | .null => some none
    | _ => (read p).map some

def string? (p : Part) : Option String :=
  match p.value with
  | .str s => some s
  | _ => none

def bool? (p : Part) : Option Bool :=
  match p.value with
  | .bool b => some b
  | _ => none

def word? (p : Part) : Option UInt32 :=
  match p.value with
  | .int n => if 0 ≤ n ∧ n < UInt32.size then some (UInt32.ofNat n.toNat) else none
  | _ => none

/-- The word for a record kind, or an object whose only key is that word and whose value is empty. -/
def recordKind? (p : Part) : Option RecordKind :=
  match p.value with
  | .str s => RecordKind.ofName? s
  | .obj [(s, .null)] => RecordKind.ofName? s
  | .obj [(s, .obj [])] => RecordKind.ofName? s
  | _ => none

def kind? (p : Part) : Option NodeKind :=
  match p.value with
  | .str s => NodeKind.ofTag? s
  | .int n => NodeKind.ofOrdinal? n
  | _ => none

def text? (parts : Parts) (key : String) : Option String := parts.field? key none string?

def flag? (parts : Parts) (key : String) : Option Bool := parts.field? key (some false) bool?

def child? (parts : Parts) (key : String) : Option (Option SyntaxNode) := parts.nullable? key Part.node

def list? (parts : Parts) (key : String) : Option (List SyntaxNode) :=
  parts.field? key (some []) Part.nodes

def form? (parts : Parts) : NodeKind → Option SyntaxForm
  | .translationUnit => do
    pure (.translationUnit (← parts.field? "name" (some "") string?) (← parts.list? "declarations"))
  | .recordDecl => do
    pure (.recordDecl (← parts.text? "name")
      (← parts.field? "record_kind" (some .classRecord) recordKind?) (← parts.list? "members"))
  | .methodDecl => do
    pure (.methodDecl (← parts.text? "name") (← parts.flag? "is_static") (← parts.list? "parameters")
      (← parts.child? "body"))
  | .functionDecl => do
    pure (.functionDecl (← parts.text? "name") (← parts.list? "parameters") (← parts.child? "body"))
  | .fieldDecl => do
    pure (.fieldDecl (← parts.text? "name") (← parts.nullable? "type_name" string?)
      (← parts.flag? "is_static") (← parts.child? "initializer"))
  | .variableDecl => do
    pure (.variableDecl (← parts.text? "name") (← parts.nullable? "type_name" string?)
      (← parts.child? "initializer"))
  | .parameterDecl => do
    pure (.parameterDecl (← parts.text? "name") (← parts.nullable? "type_name" string?))
  | .compound => do pure (.compound (← parts.list? "statements"))
  | .declStatement => do pure (.declStatement (← parts.list? "declarations"))
  | .returnStatement => do pure (.returnStatement (← parts.child? "value"))
  | .forStatement => do
    pure (.forStatement (← parts.child? "initializer") (← parts.child? "condition")
      (← parts.child? "iteration") (← parts.child? "body"))
  | .whileStatement => do
    pure (.whileStatement (← parts.child? "condition") (← parts.child? "body"))
  | .ifStatement => do
    pure (.ifStatement (← parts.child? "condition_declaration") (← parts.child? "condition")
      (← parts.child? "then_branch") (← parts.child? "else_branch"))
  | .tryStatement => do
    pure (.tryStatement (← parts.child? "body") (← parts.list? "catch_clauses"))
  | .catchClause => do
    pure (.catchClause (← parts.child? "parameter") (← parts.child? "body"))
  | .call => do
    pure (.call (← parts.text? "name") (← parts.child? "callee") (← parts.list? "arguments"))
  | .newExpr => do pure (.newExpr (← parts.text? "type_name") (← parts.list? "arguments"))
  | .binaryOp => do
    pure (.binaryOp (← parts.text? "operator") (← parts.child? "lhs") (← parts.child? "rhs"))
  | .reference => do pure (.reference (← parts.text? "name"))
  | .member => do
    pure (.member (← parts.child? "base") (← parts.nullable? "member" string?))
  | .literal => do
    pure (.literal (← parts.field? "value" none fun p => LiteralValue.ofJson? p.value))

def node? (parts : Parts) : Option SyntaxNode := do
  let line ← parts.nullable? "line" word?
  let column ← parts.nullable? "column" word?
  let form ← parts.form? (← parts.field? "kind" none kind?)
  pure (.mk line column form)

end Parts

namespace SyntaxNode

mutual

def ofJson? : Json → Option SyntaxNode
  | .obj members => (partsOf members).node?
  | _ => none

/-- Each member together with what it spells. -/
def partsOf : List (String × Json) → Parts
  | [] => []
  | (key, value) :: members =>
    (key, { value, node := ofJson? value, nodes := listOf? value }) :: partsOf members

def listOf? : Json → Option (List SyntaxNode)
  | .arr items => itemsOf? items
  | _ => none

def itemsOf? : List Json → Option (List SyntaxNode)
  | [] => some []
  | item :: items => do pure ((← ofJson? item) :: (← itemsOf? items))

end

end SyntaxNode
end NameResolution
