import NameResolution.Registration
import NameResolution.Scope.Preference
import NameResolution.TypeName

/-!
# Binding references

A second walk binds every reference of a tree whose declarations are registered. A plain name is looked up
outward from the scope around it. If it is bound to a field of an instance, the access through that
instance is written out: the name becomes a member access on an implicit base. The member of an access
is looked up in the record that its base denotes and nowhere else.
-/
namespace NameResolution

structure Bindings where
  resolved : Nat := 0
  implicitMembers : Nat := 0
  /-- References that were bound to nothing, in the order they were met. -/
  unresolved : Array NodeId := #[]
deriving DecidableEq

/-- Counts a resolution, on the account of the reference `id`. -/
def Bindings.record (b : Bindings) (id : NodeId) (r : Resolution) : Bindings :=
  if r.isResolved then { b with resolved := b.resolved + 1 }
  else { b with unresolved := b.unresolved.push id }

namespace Binding

structure Context where
  scopes : ScopeTree
  policy : AmbiguityPolicy
  separator : String

/-- A walk in progress: the tree it walks over and what it has done. -/
structure Progress where
  tree : Tree
  bindings : Bindings := {}

/-- A step of the walk. An error keeps the progress that was made. -/
abbrev Walk := EStateM ResolveError Progress

def fetch (id : NodeId) : Walk Node := do
  match (← get).tree.get? id with
  | some node => pure node
  | none => throw (.malformed id none .dangling)

def bind (id : NodeId) (r : Resolution) : Walk Unit :=
  modify fun p => { tree := p.tree.bind id r, bindings := p.bindings.record id r }

/-- The field through which the members of the record `inner` reach the instance of `owner`. -/
def receiverField? (t : Tree) (owner inner : NodeId) : Option NodeId :=
  match (t.get? inner).map Node.payload with
  | some (.recordDecl r) =>
    if owner = inner then r.implicitThis
    else (r.implicitOuter.find? (·.record == owner)).map OuterInstance.field
  | _ => none

/-- The name and id of the field through which code in `scope` reaches the instance of `owner`. -/
def receiver? (c : Context) (t : Tree) (owner : NodeId) (scope : ScopeId) : Option (String × NodeId) := do
  let field ← receiverField? t owner (← c.scopes.innermostRecord? scope)
  pure (← t.name? field, field)

def instanceField? (t : Tree) (level : Level) (role : Role) (r : Resolution) : Option NodeId :=
  if level.scope.kind = .record ∧ role = .value then
    r.single?.filter fun d => (t.get? d).any (·.payload.isInstanceField)
  else none

/-- Binds the plain name `id` at a level, through an implicit base if it is a field of an instance. -/
def bindAt (c : Context) (id : NodeId) (scope : ScopeId) (level : Level) (role : Role) : Walk Unit := do
  let t := (← get).tree
  let r := c.policy.apply level.candidates
  match instanceField? t level role r, receiver? c t level.scope.owner scope with
  | some field, some (name, base) =>
    modify fun p =>
      { tree := p.tree.writeOutAccess id name (.single base) (.single field)
        bindings := { p.bindings with
          resolved := p.bindings.resolved + 1
          implicitMembers := p.bindings.implicitMembers + 1 } }
  | _, _ => bind id r

def bindName (c : Context) (id : NodeId) (scope : ScopeId) (role : Role) : Walk Unit := do
  let node ← fetch id
  match Level.find? (← get).tree c.scopes scope node.name role with
  | none => bind id .unresolved
  | some level => bindAt c id scope level role

/-- The record that the text of a type names, seen from a scope: by its qualified name, otherwise the
nearest record of its last segment. -/
def recordOfType? (c : Context) (t : Tree) (typeName : String) (scope : ScopeId) : Option NodeId :=
  let name := TypeName.normalize typeName
  if name = "" then none
  else
    (c.scopes.recordNamed? name).or <|
      (c.scopes.ancestors scope).findSome? fun (id, _) =>
        (c.scopes.lookup id (Text.lastSegment c.separator name)).find? fun d =>
          t.kind? d == some .recordDecl

/-- The record that a declaration leads to: itself, or the one its type names. -/
def recordOfDeclaration? (c : Context) (t : Tree) (declaration : NodeId) (scope : ScopeId) :
    Option NodeId := do
  let payload := (← t.get? declaration).payload
  if payload.kind = .recordDecl then pure declaration
  else recordOfType? c t (← payload.typeName?) scope

/-- The record that the members of a base are looked up in. Only names, accesses and new objects lead to
one. -/
def recordOfBase? (c : Context) (t : Tree) (base : NodeId) (scope : ScopeId) : Option NodeId := do
  match (← t.get? base).payload with
  | .newExpr typeName _ => recordOfType? c t typeName scope
  | payload => recordOfDeclaration? c t (← (← payload.resolution?).single?) scope

def memberOf (c : Context) (t : Tree) (record : Option NodeId) (name : String) (role : Role) :
    Resolution :=
  match record.bind c.scopes.scopeOf? with
  | none => .unresolved
  | some scope => c.policy.apply (t.preferred role (c.scopes.lookup scope name))

def bindAccess (c : Context) (id base member : NodeId) (scope : ScopeId) (role : Role) : Walk Unit := do
  let name := (← fetch member).name
  let t := (← get).tree
  let r := memberOf c t (recordOfBase? c t base scope) name role
  bind member r
  modify fun p => { p with tree := p.tree.bind id r }

/-- The base and the member half of an access. Both must be there, and the member half must be a plain
name. -/
def accessParts (id : NodeId) (region : Option Region) (access : Access) : Walk (NodeId × NodeId) := do
  match access.base, access.member with
  | none, _ => throw (.malformed id region .noBase)
  | _, none => throw (.malformed id region .noMember)
  | some base, some member =>
    if (← fetch member).kind = .reference then pure (base, member)
    else throw (.malformed member region .memberKind)

/-- Binds the references at and below a node, to the given depth. The scope is the one around the node,
and the role is that of the node in its parent. -/
def visit (c : Context) : Nat → NodeId → ScopeId → Role → Walk Unit
  | 0, id, _, _ => throw (.malformed id none .nestedInItself)
  | depth + 1, id, outer, role => do
    let node ← fetch id
    let scope := (c.scopes.scopeOf? id).getD outer
    match node.payload with
    | .reference _ => bindName c id scope role
    | .member access => do
      let (base, member) ← accessParts id node.region access
      visit c depth base scope .value
      bindAccess c id base member scope role
    | .call none _ => throw (.malformed id node.region .noCallee)
    | .call (some callee) arguments => do
      visit c depth callee scope .callee
      arguments.forM fun a => visit c depth a scope .value
    | payload => payload.children.forM fun child => visit c depth child scope .value

end Binding

/-- Binds the references at and below `root`, whose declarations are registered in `scopes`, down to a limit. -/
def Tree.bindReferences (t : Tree) (config : Config) (scopes : ScopeTree) (root : NodeId)
    (limit : Nat := t.depthLimit) : Outcome Bindings :=
  match scopes.scopeOf? root with
  | none => ⟨.error (.malformed root (t.region? root) .notRegistered), t⟩
  | some scope =>
    let c : Binding.Context := ⟨scopes, config.ambiguity, config.separator⟩
    match (Binding.visit c limit root scope .value).run { tree := t } with
    | .ok _ p => ⟨.ok p.bindings, p.tree⟩
    | .error e p => ⟨.error e, p.tree⟩

end NameResolution
