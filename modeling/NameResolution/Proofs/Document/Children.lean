import NameResolution.Document.Syntax

/-!
# The nodes directly below a node

The nodes that a form holds, in the order of the text, induction along them, and the list of all nodes of a document.
-/
namespace NameResolution

def SyntaxForm.children : SyntaxForm → List SyntaxNode
  | translationUnit _ declarations => declarations
  | recordDecl _ _ members => members
  | methodDecl _ _ parameters body | functionDecl _ parameters body => parameters ++ body.toList
  | fieldDecl _ _ _ initializer | variableDecl _ _ initializer => initializer.toList
  | parameterDecl .. | reference _ | literal _ => []
  | compound statements => statements
  | declStatement declarations => declarations
  | returnStatement value => value.toList
  | forStatement initializer condition iteration body =>
    initializer.toList ++ (condition.toList ++ (iteration.toList ++ body.toList))
  | whileStatement condition body => condition.toList ++ body.toList
  | ifStatement declaration condition thenBranch elseBranch =>
    declaration.toList ++ (condition.toList ++ (thenBranch.toList ++ elseBranch.toList))
  | tryStatement body clauses => body.toList ++ clauses
  | catchClause parameter body => parameter.toList ++ body.toList
  | call _ callee arguments => callee.toList ++ arguments
  | newExpr _ arguments => arguments
  | binaryOp _ lhs rhs => lhs.toList ++ rhs.toList
  | member base _ => base.toList

namespace SyntaxNode

theorem sizeOf_lt_of_mem_toList {part : Option SyntaxNode} {n : SyntaxNode} (h : n ∈ part.toList) :
    sizeOf n < sizeOf part := by
  cases part with
  | none => cases h
  | some m =>
    obtain rfl := List.mem_singleton.mp h
    simp

theorem sizeOf_lt_of_mem_children {form : SyntaxForm} {n : SyntaxNode} (h : n ∈ form.children) :
    sizeOf n < sizeOf form := by
  have hlist : ∀ {ns : List SyntaxNode}, n ∈ ns → sizeOf n < sizeOf ns := List.sizeOf_lt_of_mem
  have hoption : ∀ {part : Option SyntaxNode}, n ∈ part.toList → sizeOf n < sizeOf part := sizeOf_lt_of_mem_toList
  cases form <;> simp only [SyntaxForm.children, List.mem_append, List.not_mem_nil] at h <;> simp <;> grind

/-- What holds of a node whenever it holds of the nodes directly below holds of all nodes. -/
@[elab_as_elim]
theorem induction {P : SyntaxNode → Prop}
    (step : ∀ line column form, (∀ n ∈ form.children, P n) → P (mk line column form)) (n : SyntaxNode) : P n := by
  obtain ⟨line, column, form⟩ := n
  exact step line column form fun m hm =>
    have : sizeOf m < sizeOf form := sizeOf_lt_of_mem_children hm
    induction step m
termination_by sizeOf n
decreasing_by
  simp
  omega

def nodes (n : SyntaxNode) : List SyntaxNode := n :: n.form.children.attach.flatMap fun m => nodes m.1
termination_by sizeOf n
decreasing_by
  have hlt := sizeOf_lt_of_mem_children m.2
  obtain ⟨_, _, form⟩ := n
  simp only [SyntaxNode.form] at hlt ⊢
  simp
  omega

theorem nodes_mk (line column : Option UInt32) (form : SyntaxForm) :
    (mk line column form).nodes = mk line column form :: form.children.flatMap nodes := by
  rw [nodes, SyntaxNode.form, List.flatMap_subtype, List.unattach_attach]
  exact fun _ _ => rfl

end SyntaxNode
end NameResolution
