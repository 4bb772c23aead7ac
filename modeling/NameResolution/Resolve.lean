import NameResolution.Binding

/-!
# Resolving a translation unit

Registration comes first and binding second. A unit that has been through both is resolved; the tree
keeps the bindings, and may be resolved again.
-/
namespace NameResolution

inductive PassState where
  | registering
  | resolving
  | resolved
deriving DecidableEq, Inhabited

namespace PassState

def advance : PassState → PassState
  | registering => resolving
  | resolving => resolved
  | resolved => resolved

def name : PassState → String
  | registering => "registering"
  | resolving => "resolving"
  | resolved => "resolved"

end PassState

structure ResolvedUnit where
  root : NodeId
  scopes : ScopeTree
  duplicates : Array Duplicate
  unresolved : Array NodeId
  resolved : Nat
  implicitMembers : Nat
  state : PassState
deriving DecidableEq

namespace Tree

def unitRoot (t : Tree) : Except ResolveError NodeId :=
  match t.root with
  | none => .error .missingRoot
  | some root =>
    if t.kind? root = some .translationUnit then .ok root
    else .error (.malformed root (t.region? root) .rootKind)

/-- Registers the declarations of a tree and binds its references. Each walk goes down to the limit for the tree that it
sets out on. -/
def resolve (t : Tree) (config : Config) (limit : Tree → Nat := depthLimit) : Outcome ResolvedUnit :=
  match t.unitRoot with
  | .error e => ⟨.error e, t⟩
  | .ok root =>
    let registered := t.register config root (limit t)
    match registered.result with
    | .error e => ⟨.error e, registered.tree⟩
    | .ok registration =>
      let bound := registered.tree.bindReferences config registration.scopes root
        (limit registered.tree)
      match bound.result with
      | .error e => ⟨.error e, bound.tree⟩
      | .ok bindings =>
        ⟨.ok
          { root
            scopes := registration.scopes
            duplicates := registration.duplicates
            unresolved := bindings.unresolved
            resolved := bindings.resolved
            implicitMembers := bindings.implicitMembers
            state := PassState.registering.advance.advance }, bound.tree⟩

end Tree
end NameResolution
