import NameResolution.Proofs.Document.Lowered
import NameResolution.Proofs.Resolve

/-!
# Plain names are bound lexically

After a pass over the tree of a document, every plain name is bound to what the lexical rule says it denotes
inside the scopes of its ancestors, also where it has been written out to an access.
-/
namespace NameResolution
open NameResolution.Tree

namespace Tree.Pass
variable {config : Config} {t t' T : Tree} {u : ResolvedUnit} {id : NodeId} {n : Node} {r : Resolution}

/-- Registration leaves the plain names of a tree as they are. -/
theorem plain_registered (h : Pass config t t' T u) (hn : t.get? id = some n) (hp : n.payload = .reference r)
    (hplain : ¬ t.IsMemberHalf id) : t'.get? id = some n ∧ ¬ t'.IsMemberHalf id := by
  have hreg := h.registered
  refine ⟨hreg.keeps hn (by simp [Node.kind, hp, Payload.kind]), fun hhalf => hplain ?_⟩
  exact hreg.toExtends.isMemberHalf h.proper.toWellFormed hreg.proper hn hhalf

/-- The innermost scope around a node stays what it is. -/
theorem enclosingScope?_eq (h : Pass config t t' T u) (hn : t'.get? id = some n) :
    T.enclosingScope? u.scopes id = t'.enclosingScope? u.scopes id :=
  h.bound.toExtends.enclosingScope?_eq h.registered.proper.toWellFormed hn u.scopes

/-- What a name is bound to by its level is what it denotes. -/
theorem denotes_iff (h : Pass config t t' T u) (hn : t.get? id = some n) {scope : ScopeId} {role : Role}
    (hinner : t'.enclosingScope? u.scopes id = some scope) :
    Denotes T u.scopes config.ambiguity role n.name (t.enclosingScopes u.scopes id) r ↔
      Binding.lexical (u.context config) T n.name scope role = r := by
  obtain ⟨n', hn', -⟩ := h.registered.toExtends.node hn
  rw [← h.toExtends.enclosingScopes_eq h.proper.toWellFormed hn u.scopes]
  exact Binding.denotes_iff (c := u.context config) h.registered_end h.bound.proper.toWellFormed
    ((h.enclosingScope?_eq hn').trans hinner)

end Tree.Pass

/-- A pass that succeeds binds each plain name to what it denotes. -/
theorem resolution_denotes {document : SyntaxNode} {config : Config} {t : Tree} {u : ResolvedUnit}
    {id : NodeId} {n : Node} {r : Resolution} (hdocument : Tree.ofSyntax document = .ok t)
    (hresolve : (t.resolve config).result = .ok u) (hn : t.get? id = some n)
    (hp : n.payload = .reference r) (hplain : ¬ t.IsMemberHalf id) :
    ∃ bound, (t.resolve config).tree.resolution? id = some bound ∧
      Denotes (t.resolve config).tree u.scopes config.ambiguity (t.roleOf id) n.name
        (t.enclosingScopes u.scopes id) bound := by
  have ht := proper_of_ofSyntax hdocument config.separator
  obtain ⟨t', hpass⟩ := exists_pass ht hresolve
  obtain ⟨hn', hplain'⟩ := hpass.plain_registered hn hp hplain
  obtain ⟨scope, hinner, hbound⟩ := hpass.resolution?_name hn' hp hplain'
  refine ⟨_, hbound, (hpass.denotes_iff hn hinner).mpr ?_⟩
  rw [Binding.roleOf_of_extends hpass.registered.toExtends ht.toWellFormed hn]

/-- A class whose method returns a field. -/
def counter : SyntaxNode :=
  let node := SyntaxNode.mk none none
  node <| .translationUnit "Counter" [node <| .recordDecl "Counter" .classRecord [
    node <| .fieldDecl "count" (some "int") false none,
    node <| .methodDecl "next" false [] (some <| node <| .compound [
      node <| .returnStatement (some <| node <| .reference "count")])]]

def counterTree : Tree := (counter.lower.run {}).2

def counterUnit : ResolvedUnit where
  root := ⟨6⟩
  scopes :=
    { scopes := #[⟨.translationUnit, ⟨6⟩, none⟩, ⟨.record, ⟨5⟩, some ⟨0⟩⟩, ⟨.function, ⟨4⟩, some ⟨1⟩⟩,
        ⟨.block, ⟨3⟩, some ⟨2⟩⟩]
      entries := #[⟨⟨0⟩, "Counter", ⟨5⟩⟩, ⟨⟨1⟩, "this", ⟨7⟩⟩, ⟨⟨1⟩, "count", ⟨0⟩⟩, ⟨⟨1⟩, "next", ⟨4⟩⟩]
      records := #[("Counter", ⟨5⟩)] }
  duplicates := #[]
  unresolved := #[]
  resolved := 1
  implicitMembers := 1
  state := .resolved

theorem resolution_denotes_count :
    Tree.ofSyntax counter = .ok counterTree ∧ (counterTree.resolve {}).result = .ok counterUnit ∧
      counterTree.get? ⟨1⟩ = some ⟨⟨1⟩, "count", none, some ⟨2⟩, .reference .unresolved⟩ ∧
      ¬ counterTree.IsMemberHalf ⟨1⟩ ∧
      ∃ bound, (counterTree.resolve {}).tree.resolution? ⟨1⟩ = some bound ∧
        Denotes (counterTree.resolve {}).tree counterUnit.scopes .keepAll (counterTree.roleOf ⟨1⟩) "count"
          (counterTree.enclosingScopes counterUnit.scopes ⟨1⟩) bound := by
  have hdocument : Tree.ofSyntax counter = .ok counterTree := rfl
  have hresolve : (counterTree.resolve {}).result = .ok counterUnit := by decide +kernel
  have hn : counterTree.get? ⟨1⟩ = some ⟨⟨1⟩, "count", none, some ⟨2⟩, .reference .unresolved⟩ := rfl
  have hplain : ¬ counterTree.IsMemberHalf ⟨1⟩ := by decide +kernel
  exact ⟨hdocument, hresolve, hn, hplain, resolution_denotes hdocument hresolve hn rfl hplain⟩

end NameResolution
