import NameResolution.Proofs.Correspondence
import NameResolution.Proofs.Document.Order
import NameResolution.Proofs.Incomplete
import NameResolution.Proofs.SingleTree

/-!
# Textual order is irrelevant

Where each name is declared once in a scope, and qualified names of records are distinct, it does not matter in which
order declarations, members and statements stand in a document: a pass ends with the same counts, and binds all
references to the declarations that they were bound to.
-/
namespace NameResolution

theorem Access.fault?_map (f : NodeId → NodeId) (a : Access) : (a.map f).fault? = a.fault? := by
  obtain ⟨base, member, implicitBase, resolution⟩ := a
  cases base <;> cases member <;> rfl

namespace Tree
open Binding Registration

variable {config : Config} {t t' t₁ T : Tree} {u : ResolvedUnit} {f g : NodeId → NodeId} {x : NodeId} {n : Node}
  {root : NodeId} {p p' : Registration.Progress}

/-- Nodes that match lack the same. -/
theorem Matches.lack?_eq (h : t.Matches f t') (hn : t.get? x = some n) : t'.lack? (f x) = t.lack? x := by
  obtain ⟨n', hn', hm⟩ := h.node hn
  rw [lack?, lack?, hn, hn', Option.bind_some, Option.bind_some, hm.region]
  have hkind := hm.kind_eq
  have hpayload := hm.payload
  obtain ⟨_, _, _, _, payload⟩ := n
  cases payload with
  | member a =>
    rw [hpayload.of_member]
    simp only [Access.fault?_map]
  | _ =>
    obtain ⟨_, _, _, _, payload'⟩ := n'
    cases payload' <;> first | rfl | cases hkind

namespace Pass

/-- Registration of a tree that matches succeeds, too, if names are distinct. -/
theorem exists_registeredAlike (h : Pass config t t₁ T u) (hm : t.Matches f t') (ht' : t'.Proper config.separator)
    (hclosed : t.Closed) (hfresh : t.IsFresh) (hduplicates : u.duplicates = #[])
    (hsingle : ∀ {s name x y}, x ∈ u.scopes.lookup s name → y ∈ u.scopes.lookup s name → x = y) :
    ∃ p' g, RegisteredAlike config u.root f g t t' ⟨t₁, u.scopes, u.duplicates⟩ p' := by
  have hwf := h.proper.toWellFormed
  obtain ⟨k, hk, -, -⟩ := hwf.root_parent h.root_eq
  have hdistinct := hm.distinct hwf hk (h.toRegistersIn.distinct hduplicates hsingle)
  have hroot' : t'.root = some (f u.root) := by rw [hm.root, h.root_eq, Option.map_some]
  obtain ⟨p', h', hduplicates'⟩ := registers_of_distinct ht' hroot' hdistinct
  obtain ⟨g, hkept, hmatch⟩ := hm.exists_registered hclosed hfresh h.toRegistersIn h'
  exact ⟨p', g, hm, hmatch, hkept, h.toRegistersIn, h', hduplicates, hduplicates'⟩

end Pass

/-- Binding cannot fail where the tree that matches lacks nothing. -/
theorem RegisteredAlike.exists_binding (h : RegisteredAlike config root f g t t' p p')
    (hlack : ∀ x, t.lack? x = none) :
    ∃ q, runSteps (Binding.exec ⟨p'.scopes, config.ambiguity, config.separator⟩)
      (p'.tree.bindingSteps p'.scopes (f root)) { tree := p'.tree } = .ok () q := by
  cases hrun : runSteps (Binding.exec ⟨p'.scopes, config.ambiguity, config.separator⟩)
    (p'.tree.bindingSteps p'.scopes (f root)) { tree := p'.tree } with
  | ok _ q => exact ⟨q, rfl⟩
  | error e q =>
    obtain ⟨x', region, fault, hlack', -⟩ := h.there.exists_lack_of_binding_error hrun
    obtain ⟨n', a, hn', -⟩ := lack?_eq_some_iff.mp hlack'
    obtain ⟨x, n, rfl, hn, -⟩ := h.before.exists_of_get? hn'
    rw [h.before.lack?_eq hn, hlack x] at hlack'
    cases hlack'

/-- A pass over a tree that matches ends alike, if names are distinct. -/
theorem Pass.exists_passesMatch (h : Pass config t t₁ T u) (hm : t.Matches f t') (ht' : t'.Proper config.separator)
    (hclosed : t.Closed) (hfresh : t.IsFresh) (hduplicates : u.duplicates = #[])
    (hsingle : ∀ {s name x y}, x ∈ u.scopes.lookup s name → y ∈ u.scopes.lookup s name → x = y)
    (hrecords : t.DistinctRecords config.separator u.root) :
    ∃ u' g σ t₁', (t'.resolve config).result = .ok u' ∧ u'.duplicates = #[] ∧
      (∀ {x n}, t.get? x = some n → g x = f x) ∧
      PassesMatch config g σ t t₁ T t' t₁' (t'.resolve config).tree u u' := by
  obtain ⟨p', g, halike⟩ := h.exists_registeredAlike hm ht' hclosed hfresh hduplicates hsingle
  obtain ⟨q, hq⟩ := halike.exists_binding h.lack?_eq_none
  have hresolve := resolve_of_binding halike.there hq
  rw [hresolve]
  refine ⟨p'.unit (f u.root) q, g, u.scopes.matchingScope p'.scopes g, p'.tree, rfl, halike.undoubled', halike.kept,
    h, ⟨halike.there, hq⟩, ?_, h.toRegistersIn.closed hclosed⟩
  exact ⟨halike.after, halike.scopes_matches hsingle hrecords, rfl, rfl, h.registered.registered,
    halike.there.registered.registered, h.walked.proper.toWellFormed⟩

end Tree

open NameResolution.Tree

/-- If names are distinct, a document in another order is resolved alike: its tree has the same nodes under another
numbering, and under every such numbering, which goes on to the implicit members and to the parts of the names that are
written out, the pass ends with the same counts and leaves the same references behind, bound to the same declarations. -/
theorem resolve_of_permuted {document document' : SyntaxNode} {config : Config} {t : Tree} {u : ResolvedUnit}
    (hpermuted : document.Permuted document') (hdocument : Tree.ofSyntax document = .ok t)
    (hresolve : (t.resolve config).result = .ok u) (hduplicates : u.duplicates = #[])
    (hsingle : ∀ {s name x y}, x ∈ u.scopes.lookup s name → y ∈ u.scopes.lookup s name → x = y)
    (hrecords : t.DistinctRecords config.separator u.root) :
    ∃ t', Tree.ofSyntax document' = .ok t' ∧ (∃ f, t.Matches f t') ∧ ∀ f, t.Matches f t' →
      let T := (t.resolve config).tree
      let T' := (t'.resolve config).tree
      ∃ u', (t'.resolve config).result = .ok u' ∧ u'.duplicates = #[] ∧ u'.resolved = u.resolved ∧
        u'.implicitMembers = u.implicitMembers ∧
        ∃ g, (∀ x n, t.get? x = some n → g x = f x) ∧ T.Matches g T' ∧
          ∀ x n, T.get? x = some n → T'.kind? (g x) = T.kind? x ∧
            T'.resolution? (g x) = (T.resolution? x).map (Resolution.map g) := by
  have ht := proper_of_ofSyntax hdocument config.separator
  obtain ⟨t₁, hpass⟩ := exists_pass ht hresolve
  obtain ⟨t', f, hdocument', hm⟩ := exists_matches_of_permuted hpermuted hdocument
  refine ⟨t', hdocument', ⟨f, hm⟩, fun f hm => ?_⟩
  obtain ⟨u', g, σ, t₁', hresolve', hduplicates', hkept, hpasses⟩ := hpass.exists_passesMatch hm
    (proper_of_ofSyntax hdocument' config.separator) (closed_of_ofSyntax hdocument) (isFresh_of_ofSyntax hdocument)
    hduplicates hsingle hrecords
  obtain ⟨k, hold, hmatch⟩ := hpasses.exists_matches
  refine ⟨u', hresolve', hduplicates', hpasses.resolved_eq hmatch, hpasses.implicitMembers_eq hmatch, k, fun x n hn => ?_,
    hmatch, fun x n hn => ⟨hmatch.kind?_eq hn, hmatch.resolution?_eq hn⟩⟩
  obtain ⟨n₁, hn₁, -⟩ := hpass.walked.toExtends.node hn
  rw [hold hn₁, hkept hn]

/-- The class with the method before the field. -/
def counterReordered : SyntaxNode :=
  let node := SyntaxNode.mk none none
  node <| .translationUnit "Counter" [node <| .recordDecl "Counter" .classRecord [
    node <| .methodDecl "next" false [] (some <| node <| .compound [
      node <| .returnStatement (some <| node <| .reference "count")]),
    node <| .fieldDecl "count" (some "int") false none]]

theorem resolve_of_permuted_counter :
    counter.Permuted counterReordered ∧ Tree.ofSyntax counter = .ok counterTree ∧
      (counterTree.resolve {}).result = .ok counterUnit ∧ counterUnit.duplicates = #[] ∧
      (∀ {s name x y}, x ∈ counterUnit.scopes.lookup s name → y ∈ counterUnit.scopes.lookup s name → x = y) ∧
      counterTree.DistinctRecords ({} : Config).separator counterUnit.root ∧
      ∃ t', Tree.ofSyntax counterReordered = .ok t' ∧ (∃ f, counterTree.Matches f t') ∧
        ∀ f, counterTree.Matches f t' →
        let T := (counterTree.resolve {}).tree
        let T' := (t'.resolve {}).tree
        ∃ u', (t'.resolve {}).result = .ok u' ∧ u'.duplicates = #[] ∧ u'.resolved = counterUnit.resolved ∧
          u'.implicitMembers = counterUnit.implicitMembers ∧
          ∃ g, (∀ x n, counterTree.get? x = some n → g x = f x) ∧ T.Matches g T' ∧
            ∀ x n, T.get? x = some n → T'.kind? (g x) = T.kind? x ∧
              T'.resolution? (g x) = (T.resolution? x).map (Resolution.map g) := by
  have hpermuted : counter.Permuted counterReordered :=
    .inside rfl (List.nil_append _).symm rfl (.recordDecl (.swap ..))
  have hdocument : Tree.ofSyntax counter = .ok counterTree := rfl
  have hresolve : (counterTree.resolve {}).result = .ok counterUnit := by decide +kernel
  have hsingle : ∀ {s name x y}, x ∈ counterUnit.scopes.lookup s name → y ∈ counterUnit.scopes.lookup s name →
      x = y := by
    have hentries : ∀ e ∈ counterUnit.scopes.entries, ∀ e' ∈ counterUnit.scopes.entries,
        e.scope = e'.scope → e.name = e'.name → e.declaration = e'.declaration := by decide
    intro s name x y hx hy
    exact hentries _ (ScopeTree.mem_lookup_iff.mp hx) _ (ScopeTree.mem_lookup_iff.mp hy) rfl rfl
  have hrecords : counterTree.DistinctRecords ({} : Config).separator counterUnit.root := by
    have hids : ∀ x ∈ counterTree.ids, counterTree.kind? x = some .recordDecl → x = ⟨5⟩ := by decide +kernel
    have hrecord : ∀ {x}, counterTree.kind? x = some .recordDecl → x = ⟨5⟩ := fun hk =>
      hids _ (mem_ids_iff.mpr ((Option.map_eq_some_iff.mp hk).imp fun _ h => h.1)) hk
    intro x y _ _ hx hy _
    exact (hrecord hx).trans (hrecord hy).symm
  exact ⟨hpermuted, hdocument, hresolve, rfl, hsingle, hrecords,
    resolve_of_permuted hpermuted hdocument hresolve rfl hsingle hrecords⟩

end NameResolution
