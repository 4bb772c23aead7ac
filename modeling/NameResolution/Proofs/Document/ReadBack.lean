import NameResolution.Proofs.Document.Order

/-!
# Reading documents back

A tree is read back from the id of a node: its kind, its name, where it stands, what it holds and, in their order, the
nodes below it. What is read from a node that was lowered is its normal form, in which what a document may leave open is
filled in: a call without a callee calls a plain name, an access without a name says so, and a node that states its line
states its column too. A pass leaves its marks on a tree, so a changed node is not read at all.
-/
namespace NameResolution

mutual

/-- The node with what it leaves open filled in. -/
def SyntaxNode.normal : SyntaxNode → SyntaxNode
  | .mk line column form => .mk line (line.map fun _ => column.getD 1) form.normal

def SyntaxForm.normal : SyntaxForm → SyntaxForm
  | .translationUnit name declarations => .translationUnit name (SyntaxNode.normalList declarations)
  | .recordDecl name kind members => .recordDecl name kind (SyntaxNode.normalList members)
  | .methodDecl name isStatic parameters body =>
    .methodDecl name isStatic (SyntaxNode.normalList parameters) (SyntaxNode.normalOption body)
  | .functionDecl name parameters body =>
    .functionDecl name (SyntaxNode.normalList parameters) (SyntaxNode.normalOption body)
  | .fieldDecl name typeName isStatic initializer =>
    .fieldDecl name typeName isStatic (SyntaxNode.normalOption initializer)
  | .variableDecl name typeName initializer => .variableDecl name typeName (SyntaxNode.normalOption initializer)
  | .parameterDecl name typeName => .parameterDecl name typeName
  | .compound statements => .compound (SyntaxNode.normalList statements)
  | .declStatement declarations => .declStatement (SyntaxNode.normalList declarations)
  | .returnStatement value => .returnStatement (SyntaxNode.normalOption value)
  | .forStatement initializer condition iteration body =>
    .forStatement (SyntaxNode.normalOption initializer) (SyntaxNode.normalOption condition)
      (SyntaxNode.normalOption iteration) (SyntaxNode.normalOption body)
  | .whileStatement condition body =>
    .whileStatement (SyntaxNode.normalOption condition) (SyntaxNode.normalOption body)
  | .ifStatement declaration condition thenBranch elseBranch =>
    .ifStatement (SyntaxNode.normalOption declaration) (SyntaxNode.normalOption condition)
      (SyntaxNode.normalOption thenBranch) (SyntaxNode.normalOption elseBranch)
  | .tryStatement body clauses => .tryStatement (SyntaxNode.normalOption body) (SyntaxNode.normalList clauses)
  | .catchClause parameter body =>
    .catchClause (SyntaxNode.normalOption parameter) (SyntaxNode.normalOption body)
  | .call name none arguments => .call name (some (.plain name)) (SyntaxNode.normalList arguments)
  | .call name (some callee) arguments => .call name (some callee.normal) (SyntaxNode.normalList arguments)
  | .newExpr typeName arguments => .newExpr typeName (SyntaxNode.normalList arguments)
  | .binaryOp operator lhs rhs =>
    .binaryOp operator (SyntaxNode.normalOption lhs) (SyntaxNode.normalOption rhs)
  | .reference name => .reference name
  | .member base name => .member (SyntaxNode.normalOption base) (if name.getD "" = "" then none else name)
  | .literal value => .literal value

def SyntaxNode.normalOption : Option SyntaxNode → Option SyntaxNode
  | none => none
  | some n => some n.normal

def SyntaxNode.normalList : List SyntaxNode → List SyntaxNode
  | [] => []
  | n :: ns => n.normal :: SyntaxNode.normalList ns

end

theorem SyntaxNode.normal_plain (name : String) : (plain name).normal = plain name := rfl

theorem SyntaxForm.name_normal (form : SyntaxForm) : form.normal.name = form.name := by
  cases form with
  | call name callee arguments => cases callee <;> rfl
  | member base name => by_cases h : name.getD "" = "" <;> simp [normal, SyntaxForm.name, h]
  | _ => rfl

def readOption (read : NodeId → Option SyntaxNode) : Option NodeId → Option (Option SyntaxNode)
  | none => some none
  | some id => (read id).map some

/-- The name that the member half of an access spells. -/
def readHalf (read : NodeId → Option SyntaxNode) : Option NodeId → Option (Option String)
  | none => some none
  | some id =>
    match read id with
    | some (.mk none none (.reference name)) => some (some name)
    | _ => none

/-- The form that a node of the given name spells, if no pass has changed it. -/
def Payload.form? (read : NodeId → Option SyntaxNode) (name : String) : Payload → Option SyntaxForm
  | translationUnit declarations => do pure (.translationUnit name (← declarations.mapM read))
  | recordDecl { kind, members, enclosing := none, implicitThis := none, implicitOuter := [] } => do
    pure (.recordDecl name kind (← members.mapM read))
  | methodDecl { isStatic, parameters, body } => do
    pure (.methodDecl name isStatic (← parameters.mapM read) (← readOption read body))
  | functionDecl { isStatic := false, parameters, body } => do
    pure (.functionDecl name (← parameters.mapM read) (← readOption read body))
  | fieldDecl { typeName, isStatic, isImplicit := false, initializer, .. } => do
    pure (.fieldDecl name typeName isStatic (← readOption read initializer))
  | variableDecl { typeName, initializer } => do
    pure (.variableDecl name typeName (← readOption read initializer))
  | parameterDecl { typeName, initializer := none } => some (.parameterDecl name typeName)
  | compound statements => do pure (.compound (← statements.mapM read))
  | declStatement declarations => do pure (.declStatement (← declarations.mapM read))
  | returnStatement value => do pure (.returnStatement (← readOption read value))
  | forStatement initializer condition iteration body => do
    pure (.forStatement (← readOption read initializer) (← readOption read condition) (← readOption read iteration)
      (← readOption read body))
  | whileStatement condition body => do
    pure (.whileStatement (← readOption read condition) (← readOption read body))
  | ifStatement declaration condition thenBranch elseBranch => do
    pure (.ifStatement (← readOption read declaration) (← readOption read condition) (← readOption read thenBranch)
      (← readOption read elseBranch))
  | tryStatement body clauses => do pure (.tryStatement (← readOption read body) (← clauses.mapM read))
  | catchClause parameter body => do
    pure (.catchClause (← readOption read parameter) (← readOption read body))
  | call callee arguments => do pure (.call name (← readOption read callee) (← arguments.mapM read))
  | newExpr typeName arguments => do pure (.newExpr typeName (← arguments.mapM read))
  | binaryOp operator lhs rhs => do
    pure (.binaryOp operator (← readOption read lhs) (← readOption read rhs))
  | reference .unresolved => some (.reference name)
  | member { base, member := half, implicitBase := false, resolution := .unresolved } => do
    pure (.member (← readOption read base) (← readHalf read half))
  | literal value => some (.literal value)
  | _ => none

namespace Node

/-- The line and column of a node that stands at a single position or nowhere. -/
def place? (n : Node) : Option (Option UInt32 × Option UInt32) :=
  match n.region with
  | none => some (none, none)
  | some r => if r = .point r.startLine r.startColumn then some (some r.startLine, some r.startColumn) else none

/-- The syntax that the node spells, if the ids below it are read by `read`. -/
def spelled? (read : NodeId → Option SyntaxNode) (n : Node) : Option SyntaxNode := do
  let (line, column) ← n.place?
  let form ← n.payload.form? read n.name
  if form.name = n.name then some (.mk line column form) else none

end Node

def Tree.spelled? (t : Tree) (id : NodeId) : Option SyntaxNode :=
  (t.get? id).bind (Node.spelled? fun c => if _h : c.index < id.index then t.spelled? c else none)
termination_by id.index

namespace Payload

/-- The payload without the record that a field belongs to. -/
def said : Payload → Payload
  | fieldDecl f => fieldDecl { f with record := none }
  | p => p

theorem form?_said (read : NodeId → Option SyntaxNode) (name : String) (p : Payload) :
    p.said.form? read name = p.form? read name := by
  cases p with
  | fieldDecl f =>
    obtain ⟨typeName, isStatic, isImplicit, record, initializer⟩ := f
    cases isImplicit <;> rfl
  | _ => rfl
end Payload

namespace Node

/-- The node without what it has learned of the nodes above it. -/
def said (n : Node) : Node := { n with parent := none, payload := n.payload.said }

theorem said_ownedBy (record : NodeId) (n : Node) : (n.ownedBy record).said = n.said := by
  obtain ⟨_, _, _, _, payload⟩ := n
  cases payload <;> rfl

theorem said_linkedBelow (parent : NodeId) (p : Payload) (n : Node) (id : NodeId) :
    (n.linkedBelow parent p id).said = n.said := by
  have hadopted : (if id ∈ p.children then { n with parent := some parent } else n).said = n.said := by
    split <;> rfl
  rw [linkedBelow]
  split
  · rw [said_ownedBy, hadopted]
  · exact hadopted

theorem spelled?_said (read : NodeId → Option SyntaxNode) (n : Node) : n.said.spelled? read = n.spelled? read := by
  have hform : n.said.payload.form? read n.said.name = n.payload.form? read n.name := Payload.form?_said ..
  rw [spelled?, spelled?, hform]
  rfl

end Node

namespace Tree
variable {t t' : Tree} {id : NodeId}

/-- Only what the nodes say up to an id matters. -/
theorem spelled?_congr (h : ∀ x : NodeId, x.index ≤ id.index → (t'.get? x).map Node.said = (t.get? x).map Node.said) :
    t'.spelled? id = t.spelled? id := by
  induction hindex : id.index using Nat.strongRecOn generalizing id with
  | ind k ih =>
    subst hindex
    have hread : (fun c : NodeId => if _h : c.index < id.index then t'.spelled? c else none) =
        fun c => if _h : c.index < id.index then t.spelled? c else none := by
      funext c
      split
      next hlt => exact ih c.index hlt (fun x hx => h x (by omega)) rfl
      next => rfl
    have hsaid : ∀ (u : Tree) read,
        (u.get? id).bind (Node.spelled? read) = ((u.get? id).map Node.said).bind (Node.spelled? read) := by
      intro u read
      cases u.get? id <;> simp [Node.spelled?_said]
    rw [spelled?, spelled?, hread, hsaid, hsaid, h id le_rfl]

end Tree

/-- The ids are read as the nodes in their normal form. -/
def Reads (read : NodeId → Option SyntaxNode) (ids : List NodeId) (ns : List SyntaxNode) : Prop :=
  ids.map read = ns.map fun n => some n.normal

namespace Reads
variable {read : NodeId → Option SyntaxNode} {ids : List NodeId} {part : Option SyntaxNode} {n : SyntaxNode}
  {ns ms : List SyntaxNode}

theorem nil (h : Reads read ids []) : ids = [] := List.map_eq_nil_iff.mp h

theorem cons (h : Reads read ids (n :: ns)) :
    ∃ id ids', ids = id :: ids' ∧ read id = some n.normal ∧ Reads read ids' ns :=
  List.map_eq_cons_iff.mp h

theorem mapM (h : Reads read ids ns) : ids.mapM read = some (SyntaxNode.normalList ns) := by
  induction ns generalizing ids with
  | nil =>
    obtain rfl := h.nil
    rfl
  | cons n ns ih =>
    obtain ⟨id, ids, rfl, hn, hns⟩ := h.cons
    simp [hn, ih hns, SyntaxNode.normalList]

theorem head? (h : Reads read ids part.toList) : readOption read ids.head? = some (SyntaxNode.normalOption part) := by
  cases part with
  | none =>
    obtain rfl := h.nil
    rfl
  | some n =>
    obtain ⟨id, ids, rfl, hn, -⟩ := h.cons
    simp [readOption, hn, SyntaxNode.normalOption]

theorem first (h : Reads read ids (part.toList ++ ns)) :
    readOption read (SyntaxForm.first part ids) = some (SyntaxNode.normalOption part) := by
  cases part with
  | none => rfl
  | some n =>
    obtain ⟨id, ids, rfl, hn, -⟩ := h.cons
    simp [SyntaxForm.first, readOption, hn, SyntaxNode.normalOption]

theorem rest (h : Reads read ids (part.toList ++ ns)) : Reads read (SyntaxForm.rest part ids) ns := by
  cases part with
  | none => exact h
  | some n =>
    obtain ⟨id, ids, rfl, -, hns⟩ := h.cons
    exact hns

theorem take (h : Reads read ids (ns ++ ms)) : Reads read (ids.take ns.length) ns := by
  rw [Reads, List.map_take, h, List.map_append, List.take_left' (List.length_map _)]

theorem drop (h : Reads read ids (ns ++ ms)) : Reads read (ids.drop ns.length) ms := by
  rw [Reads, List.map_drop, h, List.map_append, List.drop_left' (List.length_map _)]

/-- If the ids are read as the parts of a form, the payload that holds them is read as the form. -/
theorem form?_payload {form : SyntaxForm} (h : Reads read ids form.parts) :
    (form.payload ids).form? read form.name = some form.normal := by
  cases form with
  | methodDecl name isStatic parameters body =>
    have hbody := h.drop.head?
    rw [List.head?_drop] at hbody
    simp [SyntaxForm.payload, Payload.form?, SyntaxForm.normal, SyntaxForm.name, h.take.mapM, hbody]
  | functionDecl name parameters body =>
    have hbody := h.drop.head?
    rw [List.head?_drop] at hbody
    simp [SyntaxForm.payload, Payload.form?, SyntaxForm.normal, SyntaxForm.name, h.take.mapM, hbody]
  | forStatement initializer condition iteration body =>
    have hi := h.rest
    have hc := hi.rest
    have hn := hc.rest
    simp [SyntaxForm.payload, Payload.form?, SyntaxForm.normal, h.first, hi.first, hc.first, hn.head?]
  | ifStatement declaration condition thenBranch elseBranch =>
    have hd := h.rest
    have hc := hd.rest
    have ht := hc.rest
    simp [SyntaxForm.payload, Payload.form?, SyntaxForm.normal, h.first, hd.first, hc.first, ht.head?]
  | whileStatement condition body | catchClause condition body | binaryOp condition body =>
    simp [SyntaxForm.payload, Payload.form?, SyntaxForm.normal, h.first, h.rest.head?]
  | tryStatement body clauses =>
    simp [SyntaxForm.payload, Payload.form?, SyntaxForm.normal, h.first, h.rest.mapM]
  | call name callee arguments =>
    obtain ⟨id, ids, rfl, hcallee, harguments⟩ := h.cons
    cases callee <;>
      simp_all [SyntaxForm.payload, Payload.form?, SyntaxForm.normal, SyntaxForm.name, harguments.mapM, readOption,
        SyntaxNode.normal_plain]
  | member base name =>
    have hbase := h.first
    have hhalf := h.rest
    by_cases hname : name.getD "" = ""
    · rw [if_pos hname] at hhalf
      simp [SyntaxForm.payload, Payload.form?, SyntaxForm.normal, hbase, hhalf.nil, readHalf, hname]
    · rw [if_neg hname] at hhalf
      obtain ⟨id, _, hids, hread, -⟩ := hhalf.cons
      rw [SyntaxNode.normal_plain] at hread
      obtain ⟨s, rfl⟩ : ∃ s, name = some s := Option.ne_none_iff_exists'.mp fun hnone => hname (hnone ▸ rfl)
      simp_all [SyntaxForm.payload, Payload.form?, SyntaxForm.normal, readHalf, SyntaxNode.plain]
  | fieldDecl | variableDecl | returnStatement =>
    have h := head? h
    simp [SyntaxForm.payload, Payload.form?, SyntaxForm.normal, SyntaxForm.name, h]
  | translationUnit | recordDecl | compound | declStatement | newExpr =>
    have h := mapM h
    simp [SyntaxForm.payload, Payload.form?, SyntaxForm.normal, SyntaxForm.name, h, SyntaxForm.parts]
  | parameterDecl | reference | literal => rfl

end Reads

namespace Tree
variable {t t' : Tree} {id : NodeId}

/-- What stands behind the id does not matter. -/
theorem Lowers.spelled?_eq {rs : List NodeId} (h : t.Lowers t' rs) (hid : id.index < t.size) :
    t'.spelled? id = t.spelled? id :=
  spelled?_congr fun x hx => by rw [h.earlier (by omega)]

theorem get?_placed_of_ne (line column : Option UInt32) {x : NodeId} (hx : x ≠ id) :
    (t.placed line column id).get? x = t.get? x := by
  cases line with
  | none => rfl
  | some line => rw [placed, get?_setRegion, if_neg (Ne.symm hx)]

theorem get?_placed_nextId (name : String) (p : Payload) (line column : Option UInt32) :
    ((t.alloc name p).2.placed line column t.nextId).get? t.nextId =
      some { id := t.nextId, name, region := line.map fun line => .point line (column.getD 1), payload := p } := by
  have hnew := get?_alloc_nextId t name p
  cases line with
  | none => exact hnew
  | some line => exact get?_setRegion_self _ hnew

/-- A node that is added above others leaves what they say. -/
theorem spelled?_alloc (name : String) (p : Payload) (line column : Option UInt32) (hid : id.index < t.size) :
    ((t.alloc name p).2.placed line column t.nextId).spelled? id = t.spelled? id := by
  refine spelled?_congr fun x hx => ?_
  have hlt : x.index < t.size := by omega
  have hne : x ≠ t.nextId := fun heq => by simp [heq, nextId] at hlt
  rw [get?_placed_of_ne line column hne, get?_alloc, if_neg hne, Option.map_map]
  exact congrFun (congrArg _ (funext fun n => Node.said_linkedBelow ..)) _

/-- The new node is read from what it holds. -/
theorem spelled?_alloc_nextId (name : String) (p : Payload) (line column : Option UInt32) :
    ((t.alloc name p).2.placed line column t.nextId).spelled? t.nextId =
      ((p.form? (fun c => if c.index < t.size then t.spelled? c else none) name).filter (·.name = name)).map
        (.mk line (line.map fun _ => column.getD 1)) := by
  have hread : (fun c : NodeId => if _h : c.index < t.nextId.index then
        ((t.alloc name p).2.placed line column t.nextId).spelled? c else none) =
      fun c => if c.index < t.size then t.spelled? c else none := by
    funext c
    exact dite_congr rfl (fun hlt => spelled?_alloc name p line column hlt) fun _ => rfl
  rw [spelled?, hread, get?_placed_nextId, Option.bind_some]
  generalize (fun c : NodeId => if c.index < t.size then t.spelled? c else none) = read
  cases line <;> cases hform : p.form? read name <;>
    simp [Node.spelled?, Node.place?, hform, Option.filter, apply_ite (Option.map _)]

end Tree

namespace SyntaxNode
open NameResolution.Tree

/-- Wherever the nodes are lowered, what is read under their ids is what they say. -/
def ReadBack (ns : List SyntaxNode) : Prop := ∀ t : Tree, Reads (grown ns t).spelled? (roots ns t) ns

namespace ReadBack
variable {ns ms : List SyntaxNode}

theorem append (h : ReadBack ns) (h' : ReadBack ms) : ReadBack (ns ++ ms) := by
  intro t
  rw [Reads, roots_append, grown_append, List.map_append, List.map_append, ← h t, ← h' (grown ns t)]
  congr 1
  exact List.map_congr_left fun x hx => (lowers_grown ms _).spelled?_eq (mem_added_of_mem_roots ns hx).2

theorem of_forall (h : ∀ n ∈ ns, ReadBack [n]) : ReadBack ns := by
  induction ns with
  | nil => exact fun _ => rfl
  | cons n ns ih => exact (h n List.mem_cons_self).append (ih fun m hm => h m (List.mem_cons_of_mem _ hm))

theorem mk (line column : Option UInt32) {form : SyntaxForm} (h : ReadBack form.parts) :
    ReadBack [.mk line column form] := by
  intro t
  have hread : Reads (fun c => if c.index < (grown form.parts t).size then (grown form.parts t).spelled? c else none)
      (roots form.parts t) form.parts := by
    rw [Reads, ← h t]
    exact List.map_congr_left fun x hx => if_pos (mem_added_of_mem_roots _ hx).2
  rw [Reads, roots_form, grown_form, List.map_singleton, spelled?_alloc_nextId, hread.form?_payload]
  simp [SyntaxForm.name_normal, Option.filter, normal]

end ReadBack

theorem readBack (n : SyntaxNode) : ReadBack [n] := by
  induction n using induction_parts with
  | step line column form ih => exact .mk line column (.of_forall ih)

end SyntaxNode
end NameResolution
