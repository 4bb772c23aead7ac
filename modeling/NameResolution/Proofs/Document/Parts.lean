import NameResolution.Proofs.Document.Children
import NameResolution.Proofs.Tree.Matching
import NameResolution.Document.Lowering

/-!
# The parts of a document node

Whatever its form, a node is lowered in one way: its parts are lowered one after another, and a node is added that
holds their ids. What the form says besides is the name of the node and how it holds the ids.
-/
namespace NameResolution

def SyntaxNode.plain (name : String) : SyntaxNode := mk none none (.reference name)

namespace SyntaxForm

/-- The nodes that are lowered for the form, in order. A call without a callee calls a plain name, and the member of
an access is one. -/
def parts : SyntaxForm → List SyntaxNode
  | translationUnit _ declarations => declarations
  | recordDecl _ _ members => members
  | methodDecl _ _ parameters body | functionDecl _ parameters body => parameters ++ body.toList
  | fieldDecl _ _ _ initializer | variableDecl _ _ initializer => initializer.toList
  | parameterDecl .. | reference _ | literal _ => []
  | compound statements => statements
  | declStatement declarations => declarations
  | returnStatement value => value.toList
  | forStatement initializer condition iteration body =>
    initializer.toList ++ (condition.toList ++ (iteration.toList ++ body.toList))
  | whileStatement condition body => condition.toList ++ body.toList
  | ifStatement declaration condition thenBranch elseBranch =>
    declaration.toList ++ (condition.toList ++ (thenBranch.toList ++ elseBranch.toList))
  | tryStatement body clauses => body.toList ++ clauses
  | catchClause parameter body => parameter.toList ++ body.toList
  | call name callee arguments => callee.getD (.plain name) :: arguments
  | newExpr _ arguments => arguments
  | binaryOp _ lhs rhs => lhs.toList ++ rhs.toList
  | member base name =>
    base.toList ++ if name.getD "" = "" then [] else [.plain (name.getD "")]

/-- The name of the node that is added for the form. -/
def name : SyntaxForm → String
  | translationUnit name _ | recordDecl name _ _ | methodDecl name _ _ _ | functionDecl name _ _
  | fieldDecl name _ _ _ | variableDecl name _ _ | parameterDecl name _ | call name _ _ | reference name => name
  | newExpr typeName _ => typeName
  | binaryOp operator _ _ => operator
  | member _ name => name.getD ""
  | literal value => value.text
  | compound _ | declStatement _ | returnStatement _ | forStatement .. | whileStatement .. | ifStatement ..
  | tryStatement .. | catchClause .. => ""

def first (part : Option SyntaxNode) (ids : List NodeId) : Option NodeId := part.bind fun _ => ids.head?

def rest (part : Option SyntaxNode) (ids : List NodeId) : List NodeId := ids.drop part.toList.length

/-- What the node holds that is added for the form, given the ids of its parts. -/
def payload : SyntaxForm → List NodeId → Payload
  | translationUnit .., ids => .translationUnit ids
  | recordDecl _ kind _, ids => .recordDecl { kind, members := ids }
  | methodDecl _ isStatic parameters _, ids =>
    .methodDecl { isStatic, parameters := ids.take parameters.length, body := (ids.drop parameters.length).head? }
  | functionDecl _ parameters _, ids =>
    .functionDecl { parameters := ids.take parameters.length, body := (ids.drop parameters.length).head? }
  | fieldDecl _ typeName isStatic _, ids => .fieldDecl { typeName, isStatic, initializer := ids.head? }
  | variableDecl _ typeName _, ids => .variableDecl { typeName, initializer := ids.head? }
  | parameterDecl _ typeName, _ => .parameterDecl { typeName }
  | compound _, ids => .compound ids
  | declStatement _, ids => .declStatement ids
  | returnStatement _, ids => .returnStatement ids.head?
  | forStatement i c n _, ids =>
    .forStatement (first i ids) (first c (rest i ids)) (first n (rest c (rest i ids)))
      (rest n (rest c (rest i ids))).head?
  | whileStatement c _, ids => .whileStatement (first c ids) (rest c ids).head?
  | ifStatement d c b _, ids =>
    .ifStatement (first d ids) (first c (rest d ids)) (first b (rest c (rest d ids)))
      (rest b (rest c (rest d ids))).head?
  | tryStatement body _, ids => .tryStatement (first body ids) (rest body ids)
  | catchClause parameter _, ids => .catchClause (first parameter ids) (rest parameter ids).head?
  | call .., ids => .call ids.head? ids.tail
  | newExpr typeName _, ids => .newExpr typeName ids
  | binaryOp operator lhs _, ids => .binaryOp operator (first lhs ids) (rest lhs ids).head?
  | reference _, _ => .reference .unresolved
  | member base _, ids => .member { base := first base ids, member := (rest base ids).head? }
  | literal value, _ => .literal value

def map (g : SyntaxNode → SyntaxNode) : SyntaxForm → SyntaxForm
  | translationUnit name declarations => translationUnit name (declarations.map g)
  | recordDecl name kind members => recordDecl name kind (members.map g)
  | methodDecl name isStatic parameters body => methodDecl name isStatic (parameters.map g) (body.map g)
  | functionDecl name parameters body => functionDecl name (parameters.map g) (body.map g)
  | fieldDecl name typeName isStatic initializer => fieldDecl name typeName isStatic (initializer.map g)
  | variableDecl name typeName initializer => variableDecl name typeName (initializer.map g)
  | parameterDecl name typeName => parameterDecl name typeName
  | compound statements => compound (statements.map g)
  | declStatement declarations => declStatement (declarations.map g)
  | returnStatement value => returnStatement (value.map g)
  | forStatement initializer condition iteration body =>
    forStatement (initializer.map g) (condition.map g) (iteration.map g) (body.map g)
  | whileStatement condition body => whileStatement (condition.map g) (body.map g)
  | ifStatement declaration condition thenBranch elseBranch =>
    ifStatement (declaration.map g) (condition.map g) (thenBranch.map g) (elseBranch.map g)
  | tryStatement body clauses => tryStatement (body.map g) (clauses.map g)
  | catchClause parameter body => catchClause (parameter.map g) (body.map g)
  | call name callee arguments => call name (callee.map g) (arguments.map g)
  | newExpr typeName arguments => newExpr typeName (arguments.map g)
  | binaryOp operator lhs rhs => binaryOp operator (lhs.map g) (rhs.map g)
  | reference name => reference name
  | member base name => member (base.map g) name
  | literal value => literal value

/-- The forms differ at most in the nodes below them. -/
def SameShape (form form' : SyntaxForm) : Prop := form'.map (fun _ => default) = form.map fun _ => default

theorem SameShape.refl (form : SyntaxForm) : form.SameShape form := rfl

theorem first_map (g : SyntaxNode → SyntaxNode) (part : Option SyntaxNode) : first (part.map g) = first part := by
  cases part <;> rfl

theorem rest_map (g : SyntaxNode → SyntaxNode) (part : Option SyntaxNode) : rest (part.map g) = rest part := by
  cases part <;> rfl

theorem payload_map (g : SyntaxNode → SyntaxNode) (form : SyntaxForm) : (form.map g).payload = form.payload := by
  funext ids
  cases form <;> simp [map, payload, first_map, rest_map]

theorem name_map (g : SyntaxNode → SyntaxNode) (form : SyntaxForm) : (form.map g).name = form.name := by
  cases form <;> rfl

theorem kind_map (g : SyntaxNode → SyntaxNode) (form : SyntaxForm) : (form.map g).kind = form.kind := by
  cases form <;> rfl

namespace SameShape
variable {form form' : SyntaxForm}

theorem payload_eq (h : form.SameShape form') : form'.payload = form.payload := by
  rw [← payload_map (fun _ => default) form', h, payload_map]

theorem name_eq (h : form.SameShape form') : form'.name = form.name := by
  rw [← name_map (fun _ => default) form', h, name_map]

theorem kind_eq (h : form.SameShape form') : form'.kind = form.kind := by
  rw [← kind_map (fun _ => default) form', h, kind_map]

end SameShape

section
variable (f : NodeId → NodeId) (part : Option SyntaxNode) (ids : List NodeId)

theorem map_first : (first part ids).map f = first part (ids.map f) := by
  cases part <;> simp [first]

theorem map_rest : (rest part ids).map f = rest part (ids.map f) := List.map_drop ..

/-- The node holds the ids of its parts, whatever they are. -/
theorem map_payload (form : SyntaxForm) : (form.payload ids).map f = form.payload (ids.map f) := by
  cases form <;>
    simp [payload, Payload.map, Record.map, Access.map, Resolution.map, map_first, ← map_rest, List.map_take]

variable {f part ids} {x : NodeId}

theorem mem_of_head? (h : ids.head? = some x) : x ∈ ids := List.mem_of_mem_head? h

theorem mem_of_first (h : first part ids = some x) : x ∈ ids := by
  obtain ⟨_, -, hx⟩ := Option.bind_eq_some_iff.mp h
  exact mem_of_head? hx

theorem mem_of_rest (h : x ∈ rest part ids) : x ∈ ids := List.mem_of_mem_drop h

/-- The node holds no ids but those of its parts. -/
theorem mem_of_mem_ids_payload {form : SyntaxForm} (h : x ∈ (form.payload ids).ids) : x ∈ ids := by
  cases form <;> simp [payload, Payload.ids, Payload.children, Resolution.candidates] at h <;>
    grind [mem_of_head?, mem_of_first, mem_of_rest, List.mem_of_mem_take, List.mem_of_mem_drop, List.mem_of_mem_tail]

theorem toList_head? (h : ids.length ≤ 1) : ids.head?.toList = ids := by
  match ids, h with
  | [], _ | [_], _ => rfl

theorem length_rest (part : Option SyntaxNode) (ids : List NodeId) :
    (rest part ids).length = ids.length - part.toList.length :=
  List.length_drop

theorem toList_first_append_rest (h : part.toList.length ≤ ids.length) :
    (first part ids).toList ++ rest part ids = ids := by
  cases part with
  | none => rfl
  | some n =>
    cases ids with
    | nil => simp at h
    | cons x ids => rfl

/-- The ids of its parts are what stands below the node, in order. -/
theorem children_payload {form : SyntaxForm} (h : ids.length = form.parts.length) :
    (form.payload ids).children = ids := by
  have hone : ∀ {part : Option SyntaxNode}, part.toList.length ≤ 1 := Option.length_toList_le
  cases form with
  | translationUnit | compound | declStatement | newExpr => rfl
  | recordDecl => simp [payload, Payload.children]
  | parameterDecl | reference | literal => exact (List.eq_nil_of_length_eq_zero h).symm
  | fieldDecl | variableDecl | returnStatement => exact toList_head? (h ▸ hone)
  | methodDecl name isStatic parameters body | functionDecl name parameters body =>
    have hbody : (ids.drop parameters.length).length ≤ 1 := by
      rw [List.length_drop, h, parts, List.length_append, Nat.add_sub_cancel_left]
      exact hone
    simp only [payload, Payload.children, toList_head? hbody, List.take_append_drop]
  | tryStatement body clauses =>
    refine toList_first_append_rest ?_
    rw [h, parts, List.length_append]
    exact Nat.le_add_right ..
  | whileStatement a b | catchClause a b | binaryOp _ a b =>
    rw [parts, List.length_append] at h
    have hlast : (rest a ids).length ≤ 1 := by
      rw [length_rest, h, Nat.add_sub_cancel_left]
      exact hone
    simp only [payload, Payload.children, toList_head? hlast]
    exact toList_first_append_rest (by omega)
  | forStatement a b c d | ifStatement a b c d =>
    simp only [parts, List.length_append] at h
    have hb := length_rest a ids
    have hc := length_rest b (rest a ids)
    have hd := length_rest c (rest b (rest a ids))
    have hlast : (rest c (rest b (rest a ids))).length ≤ 1 := by
      have hone : d.toList.length ≤ 1 := hone
      omega
    simp only [payload, Payload.children, List.append_assoc, toList_head? hlast]
    rw [toList_first_append_rest (by omega), toList_first_append_rest (by omega), toList_first_append_rest (by omega)]
  | call name callee arguments =>
    cases ids with
    | nil => cases h
    | cons x ids => rfl
  | member base name =>
    rw [parts, List.length_append] at h
    have hlast : (rest base ids).length ≤ 1 := by
      rw [length_rest, h, Nat.add_sub_cancel_left]
      split <;> simp
    simp only [payload, Payload.children, toList_head? hlast]
    exact toList_first_append_rest (by omega)

end

end SyntaxForm

namespace SyntaxNode
variable (t : Tree)

/-- A part is a smaller node, or a plain name that the form implies. -/
theorem part_cases {line column : Option UInt32} {form : SyntaxForm} {n : SyntaxNode} (hn : n ∈ form.parts) :
    sizeOf n < sizeOf (mk line column form) ∨ ∃ name, n = .plain name := by
  have hlist : ∀ {ns : List SyntaxNode}, n ∈ ns → sizeOf n < sizeOf ns := List.sizeOf_lt_of_mem
  have hoption : ∀ {part : Option SyntaxNode}, n ∈ part.toList → sizeOf n < sizeOf part := sizeOf_lt_of_mem_toList
  cases form with
  | call name callee arguments =>
    rcases List.mem_cons.mp hn with rfl | hn
    · cases callee with
      | none => exact .inr ⟨name, rfl⟩
      | some callee =>
        left
        simp
        omega
    · have hsize := hlist hn
      left
      simp
      omega
  | member base name =>
    rcases List.mem_append.mp hn with hn | hn
    · have hsize := hoption hn
      left
      simp
      omega
    · split at hn
      · cases hn
      · exact .inr ⟨_, List.mem_singleton.mp hn⟩
  | parameterDecl | reference | literal => cases hn
  | _ =>
    left
    simp only [SyntaxForm.parts, List.mem_append] at hn
    simp
    grind

/-- What holds of a node whenever it holds of its parts holds of all nodes. -/
@[elab_as_elim]
theorem induction_parts {P : SyntaxNode → Prop}
    (step : ∀ line column form, (∀ n ∈ form.parts, P n) → P (mk line column form)) (n : SyntaxNode) : P n := by
  induction hsize : sizeOf n using Nat.strongRecOn generalizing n with
  | ind size ih =>
    obtain ⟨line, column, form⟩ := n
    refine step line column form fun m hm => ?_
    rcases part_cases hm with hlt | ⟨name, rfl⟩
    · exact ih _ (hsize ▸ hlt) m rfl
    · exact step none none (.reference name) nofun

theorem run_lowerOption (part : Option SyntaxNode) :
    (lowerOption part).run t = (((lowerList part.toList).run t).1.head?, ((lowerList part.toList).run t).2) := by
  cases part <;> rfl

theorem run_lowerList_append (ns ns' : List SyntaxNode) :
    (lowerList (ns ++ ns')).run t =
      (((lowerList ns).run t).1 ++ ((lowerList ns').run ((lowerList ns).run t).2).1,
        ((lowerList ns').run ((lowerList ns).run t).2).2) := by
  induction ns generalizing t with
  | nil => rfl
  | cons n ns ih =>
    rw [List.cons_append, lowerList, lowerList]
    simp only [StateT.run_bind, ih]
    rfl

theorem length_lowerList (ns : List SyntaxNode) : ((lowerList ns).run t).1.length = ns.length := by
  induction ns generalizing t with
  | nil => rfl
  | cons n ns ih =>
    rw [lowerList]
    exact congrArg Nat.succ (ih _)

end SyntaxNode

namespace SyntaxForm
variable (part : Option SyntaxNode) (t : Tree) (ids : List NodeId)

theorem first_lowerList :
    first part (((SyntaxNode.lowerList part.toList).run t).1 ++ ids) =
      ((SyntaxNode.lowerList part.toList).run t).1.head? := by
  cases part with
  | none => rfl
  | some n => rfl

theorem rest_lowerList : rest part (((SyntaxNode.lowerList part.toList).run t).1 ++ ids) = ids := by
  rw [rest, ← SyntaxNode.length_lowerList t, List.drop_left]

/-- A form is lowered by lowering its parts and adding one node that holds them. -/
theorem run_lower (form : SyntaxForm) :
    form.lower.run t = ((SyntaxNode.lowerList form.parts).run t).2.alloc form.name
      (form.payload ((SyntaxNode.lowerList form.parts).run t).1) := by
  cases form with
  | call name callee arguments => cases callee <;> rfl
  | member base name =>
    simp only [lower, parts, SyntaxForm.name, payload, SyntaxNode.run_lowerList_append, StateT.run_bind,
      SyntaxNode.run_lowerOption, first_lowerList, rest_lowerList]
    split <;> rfl
  | methodDecl name isStatic parameters body =>
    simp [lower, parts, SyntaxForm.name, payload, SyntaxNode.run_lowerList_append, SyntaxNode.run_lowerOption,
      ← SyntaxNode.length_lowerList t]
    rfl
  | functionDecl name parameters body =>
    simp [lower, parts, SyntaxForm.name, payload, SyntaxNode.run_lowerList_append, SyntaxNode.run_lowerOption,
      ← SyntaxNode.length_lowerList t]
    rfl
  | _ =>
    simp [lower, parts, SyntaxForm.name, payload, SyntaxNode.run_lowerList_append, SyntaxNode.run_lowerOption,
      first_lowerList, rest_lowerList]
    rfl

end SyntaxForm
end NameResolution
