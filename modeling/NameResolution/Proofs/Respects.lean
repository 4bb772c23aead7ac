import NameResolution.Proofs.Binding.Changes
import NameResolution.Proofs.Registration.Respects
import NameResolution.Proofs.Resolve

/-!
# Passes over any tree

What single changes respect, passes respect, however they end and whatever the tree: registration adds implicit fields
to records and fills these in, and binding stores resolutions and writes plain names out.
-/
namespace NameResolution

namespace Tree

/-- The relation holds between a tree and what a single change of a pass leads to. -/
structure Respects (R : Tree → Tree → Prop) : Prop where
  refl : ∀ t, R t t
  trans : ∀ {t t' t''}, R t t' → R t' t'' → R t t''
  add : ∀ {t record n}, t.get? record = some n → ∀ name typeName, R t (t.addImplicitField record name typeName).2
  fill : ∀ t id f os, R t (t.modify id fun n =>
    match n.payload with
    | .recordDecl r => { n with payload := .recordDecl (Registration.filled f os r) }
    | _ => n)
  bind : ∀ t id r, R t (t.bind id r)
  write : ∀ {t id n ρ}, t.get? id = some n → n.payload = .reference ρ → ∀ base baseTo memberTo,
    R t (t.writeOutAccess id base baseTo memberTo)

end Tree

namespace Binding
open NameResolution.Tree

variable {R : Tree → Tree → Prop} {c : Context}

section
variable (h : Respects R)
include h

theorem isPreorder_of_respects : IsPreorder Progress fun p q => R p.tree q.tree where
  refl p := h.refl p.tree
  trans _ _ _ := h.trans

theorem leaves_fetch (id : NodeId) : Leaves (fun p q => R p.tree q.tree) (fetch id) := by
  have := isPreorder_of_respects h
  refine .bind .get fun p => ?_
  split
  · exact .pure _
  · exact .throw _

theorem leaves_accessParts (id : NodeId) (region : Option Region) (a : Access) :
    Leaves (fun p q => R p.tree q.tree) (accessParts id region a) := by
  have := isPreorder_of_respects h
  unfold accessParts
  split
  · exact .throw _
  · exact .throw _
  · refine .bind (leaves_fetch h _) fun n => ?_
    split
    · exact .pure _
    · exact .throw _

theorem leaves_bindAccess (id base member : NodeId) (scope : ScopeId) (role : Role) :
    Leaves (fun p q => R p.tree q.tree) (bindAccess c id base member scope role) := by
  have := isPreorder_of_respects h
  refine .bind (leaves_fetch h _) fun n => .bind .get fun p => ?_
  exact .bind (.modifyGet fun q => h.bind q.tree member _) fun _ => .modifyGet fun q => h.bind q.tree id _

theorem leaves_bindName {p : Progress} {id : NodeId} {n : Node} {r : Resolution} (hn : p.tree.get? id = some n)
    (hp : n.payload = .reference r) (scope : ScopeId) (role : Role) :
    R p.tree (endState ((bindName c id scope role).run p)).tree := by
  rw [bindName_run c scope role hn, endState_ok, named]
  split
  · exact h.write hn hp _ _ _
  · exact h.bind _ _ _

theorem leaves_visit (depth : Nat) (id : NodeId) (outer : ScopeId) (role : Role) :
    Leaves (fun p q => R p.tree q.tree) (visit c depth id outer role) := by
  have := isPreorder_of_respects h
  induction depth generalizing id outer role with
  | zero => exact .throw _
  | succ depth ih =>
    intro p
    cases hn : p.tree.get? id with
    | none =>
      rw [visit, run_bind_error (fetch_run_none hn)]
      exact h.refl p.tree
    | some n =>
      have hall : ∀ (ds : List NodeId) (scope : ScopeId), Leaves (fun p q => R p.tree q.tree)
          (ds.forM fun d => visit c depth d scope .value) := fun ds scope => .forM fun d _ => ih d scope .value
      rw [visit, run_bind_ok (fetch_run hn)]
      dsimp only
      split
      case h_1 r hp => exact leaves_bindName h hn hp _ _
      case h_2 a hp =>
        have hparts : Leaves (fun p q => R p.tree q.tree) (accessParts id n.region a) := leaves_accessParts h _ _ _
        exact (hparts.bind fun parts => (ih parts.1 _ _).bind fun _ => leaves_bindAccess h _ _ _ _ _) p
      case h_3 => exact h.refl p.tree
      case h_4 callee arguments hp => exact ((ih callee _ _).bind fun _ => hall arguments _) p
      case h_5 => exact hall n.payload.children _ p

end
end Binding

namespace Tree
variable {R : Tree → Tree → Prop} {t : Tree}

theorem Respects.registration (h : Respects R) : Registration.Respects fun p q => R p.tree q.tree where
  refl p := h.refl p.tree
  trans := h.trans
  scopes p _ := h.refl p.tree
  add := h.add
  fill p := h.fill p.tree

/-- What a registration leaves behind, wherever its limit is. -/
theorem Respects.register (h : Respects R) (t : Tree) (config : Config) (root : NodeId) (limit : Nat) :
    R t (t.register config root limit).tree := by
  have hvisit := h.registration.leaves_visit (fun p _ => h.refl p.tree) config limit root none { tree := t }
  rw [Tree.register]
  cases hrun : (Registration.visit config limit root none).run { tree := t } with
  | error e p | ok _ p =>
    rw [hrun] at hvisit
    exact hvisit

theorem Respects.bindReferences (h : Respects R) (t : Tree) (config : Config) (scopes : ScopeTree) (root : NodeId)
    (limit : Nat) : R t (t.bindReferences config scopes root limit).tree := by
  rw [Tree.bindReferences]
  cases scopes.scopeOf? root with
  | none => exact h.refl t
  | some scope =>
    have hvisit := Binding.leaves_visit (c := ⟨scopes, config.ambiguity, config.separator⟩) h limit root scope .value
      { tree := t }
    dsimp only
    cases hrun : (Binding.visit ⟨scopes, config.ambiguity, config.separator⟩ limit root scope .value).run
        { tree := t } with
    | error e p | ok _ p =>
      rw [hrun] at hvisit
      exact hvisit

/-- What a pass leaves behind, wherever its limits are. -/
theorem Respects.resolve (h : Respects R) (t : Tree) (config : Config) (limit : Tree → Nat) :
    R t (t.resolve config limit).tree := by
  rw [Tree.resolve]
  cases t.unitRoot with
  | error e => exact h.refl t
  | ok root =>
    have hregister := h.register t config root (limit t)
    dsimp only
    cases (t.register config root (limit t)).result with
    | error e => exact hregister
    | ok registration =>
      have hbind := fun scopes => h.bindReferences (t.register config root (limit t)).tree config scopes root
        (limit (t.register config root (limit t)).tree)
      dsimp only
      cases ((t.register config root (limit t)).tree.bindReferences config registration.scopes root
        (limit (t.register config root (limit t)).tree)).result with
      | error e | ok u => exact h.trans hregister (hbind registration.scopes)

/-- So do passes that go over a tree one after another. -/
theorem Respects.resolveAll (h : Respects R) (t : Tree) (history : List Config) : R t (t.resolveAll history) := by
  induction history generalizing t with
  | nil => exact h.refl t
  | cons config history ih => exact h.trans (h.resolve t config depthLimit) (ih _)

theorem extends_bind (t : Tree) (id : NodeId) (r : Resolution) : t.Extends (t.bind id r) := by
  refine ⟨rfl, fun {j n} hn => ?_⟩
  rw [get?_bind, hn]
  split
  · exact ⟨_, rfl, rfl, rfl, rfl, rfl, .rebound (Payload.sameForm_bind _ r)⟩
  · exact ⟨n, rfl, .refl n⟩

theorem extends_writeOutAccess {id : NodeId} {n : Node} {r : Resolution} (hn : t.get? id = some n)
    (hp : n.payload = .reference r) (base : String) (baseTo memberTo : Resolution) :
    t.Extends (t.writeOutAccess id base baseTo memberTo) :=
  (growsAt_writeOutAccess base baseTo memberTo hn hp).toExtends

end Tree
end NameResolution
