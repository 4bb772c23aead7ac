import NameResolution.Proofs.Scope.Enclosing
import NameResolution.Proofs.Tree.Matching

/-!
# Scope trees under another numbering

Two scope trees match, over trees that match, if the scopes of matching nodes do: a map of scope ids takes each scope
to the scope of the node that matches its owner, and whatever is looked up in the one is found in the other.
-/
namespace NameResolution

def Scope.map (g : NodeId → NodeId) (σ : ScopeId → ScopeId) (sc : Scope) : Scope :=
  ⟨sc.kind, g sc.owner, sc.parent.map σ⟩

namespace ScopeTree
open NameResolution.Tree

variable {g : NodeId → NodeId} {σ : ScopeId → ScopeId} {t t' : Tree} {S S' : ScopeTree} {s : ScopeId} {sc : Scope}
  {x : NodeId} {n : Node}

/-- The scope tree `S`, over the tree `t`, under other numberings. -/
structure Matches (g : NodeId → NodeId) (σ : ScopeId → ScopeId) (t : Tree) (S S' : ScopeTree) : Prop where
  get? : ∀ {s sc}, S.get? s = some sc → S'.get? (σ s) = some (sc.map g σ)
  scopeOf? : ∀ {x n}, t.get? x = some n → S'.scopeOf? (g x) = (S.scopeOf? x).map σ
  ancestors : ∀ {s sc}, S.get? s = some sc → S'.ancestors (σ s) = (S.ancestors s).map fun q => (σ q.1, q.2.map g σ)
  lookup : ∀ {s sc}, S.get? s = some sc → ∀ name, S'.lookup (σ s) name = (S.lookup s name).map g
  recordNamed? : ∀ q, S'.recordNamed? q = (S.recordNamed? q).map g

/-- The scopes around matching nodes match. -/
theorem enclosingScopes_eq_map (hscope : ∀ {x n}, t.get? x = some n → S'.scopeOf? (g x) = (S.scopeOf? x).map σ)
    (hm : t.Matches g t') (ht : t.WellFormed) (hn : t.get? x = some n) :
    t'.enclosingScopes S' (g x) = (t.enclosingScopes S x).map σ := by
  rw [enclosingScopes, enclosingScopes, hm.ancestors_eq ht hn, List.filterMap_map, List.map_filterMap]
  refine List.filterMap_congr fun a ha => ?_
  obtain ⟨k, hk⟩ := ht.exists_of_mem_ancestors ha
  exact hscope hk

theorem enclosingScope?_eq_map (hscope : ∀ {x n}, t.get? x = some n → S'.scopeOf? (g x) = (S.scopeOf? x).map σ)
    (hm : t.Matches g t') (ht : t.WellFormed) (hn : t.get? x = some n) :
    t'.enclosingScope? S' (g x) = (t.enclosingScope? S x).map σ := by
  rw [enclosingScope?, enclosingScope?, enclosingScopes_eq_map hscope hm ht hn, List.head?_map]

/-- Where parents are older than their scopes, matching scopes have matching scopes around them. -/
theorem climb_eq_map (hget : ∀ {s sc}, S.get? s = some sc → S'.get? (σ s) = some (sc.map g σ))
    (hearlier : ∀ {s sc q}, S.get? s = some sc → sc.parent = some q → q.index < s.index)
    (hearlier' : ∀ {s sc q}, S'.get? s = some sc → sc.parent = some q → q.index < s.index)
    {limit limit' : Nat} (hs : S.get? s = some sc) (hlimit : s.index < limit) (hlimit' : (σ s).index < limit') :
    S'.climb limit' (some (σ s)) = (S.climb limit (some s)).map fun q => (σ q.1, q.2.map g σ) := by
  induction limit generalizing limit' s sc with
  | zero => omega
  | succ limit ih =>
    cases limit' with
    | zero => omega
    | succ limit' =>
      rw [climb, climb, hs, hget hs]
      change (σ s, sc.map g σ) :: S'.climb limit' (sc.parent.map σ) =
        (σ s, sc.map g σ) :: (S.climb limit sc.parent).map fun q => (σ q.1, q.2.map g σ)
      congr 1
      cases hp : sc.parent with
      | none => cases limit <;> cases limit' <;> rfl
      | some q =>
        have hlt := hearlier hs hp
        obtain ⟨qc, hq⟩ := exists_of_lt_size (Nat.lt_trans hlt (lt_size_of_get? hs))
        have hlt' : (σ q).index < (σ s).index := hearlier' (hget hs) (by rw [Scope.map, hp]; rfl)
        exact ih hq (by omega) (by omega)

namespace Matches

theorem enclosingScope?_eq (h : S.Matches g σ t S') (hm : t.Matches g t') (ht : t.WellFormed)
    (hn : t.get? x = some n) : t'.enclosingScope? S' (g x) = (t.enclosingScope? S x).map σ :=
  enclosingScope?_eq_map h.scopeOf? hm ht hn

/-- The records around matching scopes match. -/
theorem innermostRecord?_eq (h : S.Matches g σ t S') (hs : S.get? s = some sc) :
    S'.innermostRecord? (σ s) = (S.innermostRecord? s).map g := by
  rw [innermostRecord?, innermostRecord?, h.ancestors hs, List.find?_map, Option.map_map, Option.map_map]
  rfl

end Matches
end ScopeTree
end NameResolution
