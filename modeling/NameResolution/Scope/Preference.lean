import NameResolution.Scope.Tree
import NameResolution.Tree.Basic

/-!
# Preference among declarations

Values and callables live side by side under one name. A reference looks for the sort that suits its
role: of the declarations at one level it takes those of the best rank, and a level that only holds
the other sort is no more than a fallback.
-/
namespace NameResolution

inductive Role where
  | value
  | callee
deriving DecidableEq, Inhabited

namespace Role

/-- The rank of a kind of declaration, the best first: for a value, variables before records before the
rest; for a callee, callables before the rest. -/
def rank : Role → NodeKind → Nat
  | value, .variableDecl | value, .parameterDecl | value, .fieldDecl => 0
  | value, .recordDecl => 1
  | value, _ => 2
  | callee, kind => if kind.isCallable then 0 else 1

/-- A declaration of this kind does not suit the role. -/
def unsuited : Role → NodeKind → Bool
  | value, kind => kind.isCallable
  | callee, kind => !kind.isCallable

end Role

namespace Tree

/-- The candidates of the best rank, in order. Ids that point nowhere are no candidates. -/
def preferred (t : Tree) (role : Role) (candidates : List NodeId) : List NodeId :=
  let ranked := candidates.filterMap fun id => (t.kind? id).map fun kind => (id, role.rank kind)
  match (ranked.map Prod.snd).min? with
  | none => []
  | some best => (ranked.filter (·.2 == best)).map Prod.fst

/-- Preferred candidates that do not suit the role. They are all of one rank, so the first one tells. -/
def isFallback (t : Tree) (role : Role) (candidates : List NodeId) : Bool :=
  (candidates.head?.bind t.kind?).any role.unsuited

end Tree

/-- A scope that holds a name, with the candidates it offers. -/
structure Level where
  scope : Scope
  candidates : List NodeId

namespace Level

/-- The levels outward from a scope that hold a name. -/
def all (t : Tree) (scopes : ScopeTree) (scope : ScopeId) (name : String) (role : Role) : List Level :=
  ((scopes.ancestors scope).map fun (id, s) =>
    { scope := s, candidates := t.preferred role (scopes.lookup id name) }).filter
      (!·.candidates.isEmpty)

/-- The level that a name is bound at: the innermost that suits the role, otherwise the innermost. -/
def find? (t : Tree) (scopes : ScopeTree) (scope : ScopeId) (name : String) (role : Role) :
    Option Level :=
  let levels := all t scopes scope name role
  (levels.find? fun l => !t.isFallback role l.candidates).or levels.head?

end Level
end NameResolution
