import NameResolution.Tree.Id

/-!
# Scope trees

The scopes of a tree refer to the scope around them by its place among all scopes. What has been
declared is one log for all scopes, in the order of registration; the declarations under a name in a
scope, and the scope that a declaration is in, are read off the log.
-/
namespace NameResolution

/-- A scope's place in its scope tree. Like those of nodes, these ids are kept in 32 bits, and scope trees are taken to
have fewer than `2 ^ 32` scopes. -/
structure ScopeId where
  index : Nat
deriving DecidableEq, Inhabited

def ScopeId.text (id : ScopeId) : String := "scope" ++ toString id.index

/-- What opens a scope. A loop's header is part of it; a condition is the header of a branch. -/
inductive ScopeKind where
  | translationUnit
  | record
  | function
  | block
  | loop
  | condition
  | handler
deriving DecidableEq, Inhabited

def ScopeKind.name : ScopeKind → String
  | translationUnit => "translation_unit"
  | record => "record"
  | function => "function"
  | block => "block"
  | loop => "loop"
  | condition => "condition"
  | handler => "catch"

structure Scope where
  kind : ScopeKind
  owner : NodeId
  parent : Option ScopeId
deriving DecidableEq

structure Entry where
  scope : ScopeId
  name : String
  declaration : NodeId
deriving DecidableEq

structure ScopeTree where
  scopes : Array Scope := #[]
  entries : Array Entry := #[]
  /-- Qualified names of records. -/
  records : Array (String × NodeId) := #[]
deriving DecidableEq

namespace ScopeTree

def size (t : ScopeTree) : Nat := t.scopes.size

def get? (t : ScopeTree) (id : ScopeId) : Option Scope := t.scopes[id.index]?

def root? (t : ScopeTree) : Option ScopeId := if t.size = 0 then none else some ⟨0⟩

/-- The scope that a node opens; the last one if it was entered more than once. -/
def scopeOf? (t : ScopeTree) (node : NodeId) : Option ScopeId :=
  ((List.range t.size).reverse.find? fun i => t.scopes[i]?.any (·.owner == node)).map ScopeId.mk

/-- The declarations under a name in a scope, in the order they were made. -/
def lookup (t : ScopeTree) (scope : ScopeId) (name : String) : List NodeId :=
  (t.entries.toList.filter fun e => e.scope == scope && e.name == name).map Entry.declaration

/-- The scope that a declaration was last made in. -/
def declaredIn? (t : ScopeTree) (declaration : NodeId) : Option ScopeId :=
  (t.entries.toList.reverse.find? (·.declaration == declaration)).map Entry.scope

/-- The record of a qualified name; the first one if there are more. -/
def recordNamed? (t : ScopeTree) (qualified : String) : Option NodeId :=
  (t.records.toList.find? (·.1 == qualified)).map Prod.snd

def names (t : ScopeTree) (scope : ScopeId) : List String :=
  ((t.entries.toList.filter (·.scope == scope)).map Entry.name).eraseDups

def count (t : ScopeTree) (scope : ScopeId) : Nat :=
  (t.entries.toList.filter (·.scope == scope)).length

/-- At most `limit` scopes from `start` outward. -/
def climb (t : ScopeTree) : Nat → Option ScopeId → List (ScopeId × Scope)
  | 0, _ => []
  | _, none => []
  | limit + 1, some id =>
    match t.get? id with
    | none => []
    | some scope => (id, scope) :: climb t limit scope.parent

/-- A scope and the scopes around it, the innermost first. -/
def ancestors (t : ScopeTree) (id : ScopeId) : List (ScopeId × Scope) := t.climb t.size (some id)

/-- The record that is innermost around a scope, or opens it. -/
def innermostRecord? (t : ScopeTree) (id : ScopeId) : Option NodeId :=
  ((t.ancestors id).find? (·.2.kind == .record)).map (·.2.owner)

def push (t : ScopeTree) (kind : ScopeKind) (owner : NodeId) (parent : Option ScopeId) :
    ScopeId × ScopeTree :=
  (⟨t.size⟩, { t with scopes := t.scopes.push ⟨kind, owner, parent⟩ })

/-- Declares a node under a name. Nothing can be declared in a scope that does not exist. -/
def declare (t : ScopeTree) (scope : ScopeId) (name : String) (declaration : NodeId) : ScopeTree :=
  if scope.index < t.size then { t with entries := t.entries.push ⟨scope, name, declaration⟩ } else t

def nameRecord (t : ScopeTree) (qualified : String) (record : NodeId) : ScopeTree :=
  { t with records := t.records.push (qualified, record) }

theorem lookup_push (t : ScopeTree) (kind : ScopeKind) (owner : NodeId) (parent : Option ScopeId) :
    (t.push kind owner parent).2.lookup = t.lookup := rfl

theorem lookup_declare (t : ScopeTree) {scope : ScopeId} (h : scope.index < t.size) (name : String)
    (d : NodeId) (s : ScopeId) (n : String) :
    (t.declare scope name d).lookup s n =
      t.lookup s n ++ if scope = s ∧ name = n then [d] else [] := by
  simp only [declare, if_pos h, lookup, Array.toList_push, List.filter_append, List.map_append]
  by_cases hs : scope = s <;> by_cases hn : name = n <;> simp [hs, hn]

theorem declaredIn?_declare (t : ScopeTree) {scope : ScopeId} (h : scope.index < t.size)
    (name : String) (d e : NodeId) :
    (t.declare scope name d).declaredIn? e = if d = e then some scope else t.declaredIn? e := by
  simp only [declare, if_pos h, declaredIn?, Array.toList_push, List.reverse_append,
    List.reverse_singleton, List.singleton_append, List.find?_cons]
  by_cases hd : d = e
  · simp [hd]
  · simp [hd, beq_false_of_ne hd]

theorem recordNamed?_nameRecord (t : ScopeTree) (q r : String) (record : NodeId) :
    (t.nameRecord q record).recordNamed? r =
      (t.recordNamed? r).or (if q = r then some record else none) := by
  simp only [nameRecord, recordNamed?, Array.toList_push, List.find?_append, Option.map_or]
  by_cases hq : q = r <;> simp [hq]

end ScopeTree
end NameResolution
