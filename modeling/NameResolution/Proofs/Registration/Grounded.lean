import NameResolution.Proofs.Registration.Steps

/-!
# Scope trees and their nodes

A scope tree is grounded in a tree if its scopes are owned by nodes that open them, its entries are
declarations, and the records that have scopes have their implicit members. That is so after any walk,
whatever languages the walks before it were made in, and it is all that later lookups take from the tree.
-/
namespace NameResolution.Registration
open NameResolution.Tree ScopeTree

theorem isDeclaration_of_becomes {n n' : Node} (hb : n.Becomes n') :
    n'.kind.isDeclaration = n.kind.isDeclaration := by
  obtain ⟨_, _, _, _, payload⟩ := n
  obtain ⟨_, _, _, _, payload'⟩ := n'
  have hp : payload.Becomes payload' := hb.payload
  simp only [Node.kind]
  cases payload with
  | reference r =>
    cases hp with
    | rebound h =>
      obtain ⟨r', rfl⟩ := h.reference
      rfl
    | writtenOut => rfl
  | _ => rw [hp.kind_eq (by simp [Payload.kind])]

theorem kind_eq_of_isDeclaration {n n' : Node} (hb : n.Becomes n') (hd : n.kind.isDeclaration = true) :
    n'.kind = n.kind := by
  refine hb.payload.kind_eq fun hk => ?_
  rw [Node.kind, hk] at hd
  cases hd

/-- What the scope tree speaks of is there. -/
structure Grounded (t : Tree) (S : ScopeTree) : Prop where
  owner : ∀ {s sc}, S.get? s = some sc → ∃ n, t.get? sc.owner = some n ∧ n.payload.opens? = some sc.kind
  declared : ∀ {e}, e ∈ S.entries → ∃ n, t.get? e.declaration = some n ∧ n.kind.isDeclaration = true
  supplied : ∀ {s sc n r}, S.get? s = some sc → t.get? sc.owner = some n → n.payload = .recordDecl r →
    ∃ language, t.Supplied language sc.owner r

namespace Grounded
variable {config : Config} {t t' : Tree} {S : ScopeTree} {id x : NodeId} {n : Node} {p p' : Progress}

theorem empty (t : Tree) : Grounded t {} := by
  have hno : ∀ {s sc}, ({} : ScopeTree).get? s ≠ some sc :=
    fun hs => absurd (lt_size_of_get? hs) (Nat.not_lt_zero _)
  exact ⟨fun hs => absurd hs hno, by simp, fun hs => absurd hs hno⟩

/-- Entering a node keeps a scope tree grounded. -/
theorem enter (h : Grounded p.tree p.scopes) (ht : p.tree.WellFormed) (he : Enters config id n p p') :
    Grounded p'.tree p'.scopes := by
  have hext := he.toExtends
  constructor
  case owner =>
    intro s sc hs
    have howner : ∀ {k}, p.tree.get? sc.owner = some k → k.payload.opens? = some sc.kind →
        ∃ k, p'.tree.get? sc.owner = some k ∧ k.payload.opens? = some sc.kind := by
      intro k hk hopens
      obtain ⟨k', hk', hb⟩ := hext.node hk
      exact ⟨k', hk', hb.payload.opens?_eq.trans hopens⟩
    rcases he.get?_cases hs with hs | ⟨heq, hopens⟩
    · obtain ⟨k, hk, hopens⟩ := h.owner hs
      exact howner hk hopens
    · exact howner (heq ▸ he.node) hopens
  case declared =>
    intro e hmem
    have hdeclared : ∀ {k}, p.tree.get? e.declaration = some k → k.kind.isDeclaration = true →
        ∃ k, p'.tree.get? e.declaration = some k ∧ k.kind.isDeclaration = true := by
      intro k hk hdecl
      obtain ⟨k', hk', hb⟩ := hext.node hk
      exact ⟨k', hk', (isDeclaration_of_becomes hb).trans hdecl⟩
    rcases he.entry_cases hmem with hmem | ⟨heq, hdecl⟩ | ⟨_, _, hm⟩
    · obtain ⟨k, hk, hdecl⟩ := h.declared hmem
      exact hdeclared hk hdecl
    · exact hdeclared (heq ▸ he.node) hdecl
    · exact ⟨_, hm, rfl⟩
  case supplied =>
    intro s sc m r hs hm hr
    by_cases heq : sc.owner = id
    · exact heq ▸ he.exists_supplied (heq ▸ hm) hr
    · have hm' := he.record_kept heq hm hr
      obtain ⟨language, hsup⟩ := h.supplied ((he.get?_cases hs).resolve_right fun hid => heq hid.1) hm' hr
      refine ⟨language, hsup.mono ht hm' hext fun hf hd => he.keepsAllButRecords hf ?_⟩
      rw [Node.kind, hd]
      simp [Payload.kind]

/-- Only nodes that open a scope own one. -/
theorem scopeOf?_eq_none (h : Grounded t S) (hn : t.get? x = some n) (hopens : n.payload.opens? = none) :
    S.scopeOf? x = none := by
  cases hx : S.scopeOf? x with
  | none => rfl
  | some q =>
    obtain ⟨qc, hqc, rfl⟩ := get?_of_scopeOf? hx
    obtain ⟨n', hn', hopens'⟩ := h.owner hqc
    rw [hn] at hn'
    cases hn'
    rw [hopens] at hopens'
    cases hopens'

/-- No reference owns a scope. -/
theorem scopeOf?_of_reference (h : Grounded t S) (hn : t.get? x = some n)
    (hk : n.kind.isReference = true) : S.scopeOf? x = none := by
  refine h.scopeOf?_eq_none hn ?_
  obtain ⟨_, _, _, _, payload⟩ := n
  cases payload <;> first | rfl | cases hk

end Grounded
end NameResolution.Registration
