import NameResolution.Proofs.Evolution
import NameResolution.Proofs.Mirroring
import NameResolution.Proofs.Registration.Entries

/-!
# The implicit members of records

In a tree that is registered in one language, every record that registration comes to has `this` and one field for each
record around it, in the order in which the scopes of these records stand around its own. The fields are its own, and are
the same from the first registration on that has come to the record.
-/
namespace NameResolution
open Registration NameResolution.Tree

/-- The record `id`, whose scope is `s`, has its implicit members, as the scopes around it ask for. -/
structure Tree.HasMembers (separator : String) (S : ScopeTree) (t : Tree) (id : NodeId) (r : Record) (s : ScopeId) :
    Prop extends t.Supplied separator id r where
  /-- The records around the record own the scopes of records strictly around its scope. -/
  chain : ((S.ancestors s).tail.filter (·.2.kind == .record)).map (·.2.owner) = t.enclosingRecords id
  first : (S.lookup s "this").head? = r.implicitThis
  declared : ∀ o ∈ r.implicitOuter,
    o.field ∈ S.lookup s (Text.joinPath separator (t.qualifiedName separator o.record) "this")
  distinct : r.implicitFields.Nodup
  /-- The fields stand below the record, and below no other node. -/
  exclusive : ∀ f ∈ r.implicitFields, ∀ {x n}, t.get? x = some n → (f ∈ n.children ↔ x = id)
  only : ∀ {f n d}, t.get? f = some n → n.payload = .fieldDecl d → d.isImplicit = true → n.parent = some id →
    f ∈ r.implicitFields

namespace Registration
open ScopeTree

/-- `this` comes first in the scope that a record opens. -/
theorem Opens.head?_lookup {config : Config} {id : NodeId} {n m : Node} {scope inner : Option ScopeId} {p p' : Progress}
    {r : Record} (h : Opens config id n scope p inner p') (hn : p.tree.get? id = some n)
    (hold : ∀ e ∈ p.scopes.entries, e.scope.index < p.scopes.size) (hm : p'.tree.get? id = some m)
    (hr : m.payload = .recordDecl r) : (p'.scopes.lookup ⟨p.scopes.size⟩ "this").head? = r.implicitThis := by
  cases h with
  | transparent hopens =>
    rw [hn] at hm
    cases hm
    rw [hr] at hopens
    cases hopens
  | plain _ hkind =>
    rw [hn] at hm
    cases hm
    rw [Node.kind, hr] at hkind
    exact absurd rfl hkind
  | @record r₀ r' t' hp hsup =>
    rw [hsup.self hn hp] at hm
    cases hm
    cases hr
    obtain ⟨_, hsupplied⟩ := hsup.exists_supplied
    obtain ⟨f, hf, -⟩ := hsupplied.this
    have hnone : p.scopes.entries.toList.filter (fun e => e.scope == ⟨p.scopes.size⟩ && e.name == "this") = [] := by
      rw [List.filter_eq_nil_iff]
      intro e he hmatch
      rw [Bool.and_eq_true, beq_iff_eq] at hmatch
      have hlt := hold e (Array.mem_toList_iff.mp he)
      rw [hmatch.1] at hlt
      exact Nat.lt_irrefl _ hlt
    rw [lookup, declareAll, Array.toList_append, List.filter_append]
    change ((p.scopes.entries.toList.filter _ ++ _).map _).head? = _
    rw [hnone, implicitEntries, hf]
    simp

/-- Entries are made in scopes that are there. -/
theorem Declares.entry_lt {config : Config} {id : NodeId} {n : Node} {scope : Option ScopeId} {p p' : Progress}
    (h : Declares config id n scope p p') (hs : ∀ s ∈ scope, s.index < p.scopes.size)
    (hold : ∀ e ∈ p.scopes.entries, e.scope.index < p.scopes.size) :
    ∀ e ∈ p'.scopes.entries, e.scope.index < p'.scopes.size := by
  cases h with
  | skipped | dropped => exact hold
  | entered hin =>
    intro e he
    rw [declare_eq_declareAll _ (hs _ hin)] at he ⊢
    rcases mem_entries_declareAll.mp he with he | he
    · exact hold e he
    · rw [List.mem_singleton.mp he]
      exact hs _ hin

/-- A record of a registered tree has its implicit members, if the records around it are registered, too. -/
theorem Registered.hasMembers {separator : String} {t : Tree} {S : ScopeTree} {id : NodeId} {n : Node} {r : Record}
    {s : ScopeId} (h : Registered separator t S) (ht : t.Proper separator) (hn : t.get? id = some n)
    (hr : n.payload = .recordDecl r) (hs : S.scopeOf? id = some s)
    (habove : ∀ a ∈ t.enclosingRecords id, (S.scopeOf? a).isSome = true)
    (hfirst : (S.lookup s "this").head? = r.implicitThis) : t.HasMembers separator S id r s := by
  have hsup := h.supplied hn hr hs
  refine { hsup with chain := ?_, first := hfirst, declared := ?_, distinct := ?_, exclusive := ?_, only := ?_ }
  · obtain ⟨sc, hsc, rfl⟩ := get?_of_scopeOf? hs
    exact h.nested.owners_eq_enclosingRecords ht.toWellFormed hsc habove
  · intro o ho
    obtain ⟨m, hm, hentry⟩ := h.implicit hn hr hs (List.mem_append_right _ (List.mem_map_of_mem ho))
    rw [hsup.outer o ho] at hm
    cases hm
    exact mem_lookup_iff.mpr hentry
  · exact ht.nodup_implicitFields hn hr
  · intro f hf x k hk
    have hchild := Node.mem_children_of_implicitFields hr hf
    constructor
    · exact fun hx => ht.eq_of_child hk hx hn hchild
    · rintro rfl
      rw [hn] at hk
      cases hk
      exact hchild
  · intro f m d hm hd hi hparent
    obtain ⟨owner, k, r', howner, hk, hr', hf⟩ := ht.exists_owner hm hd hi
    obtain rfl : owner = id := Option.some.inj (howner.symm.trans hparent)
    rw [hn] at hk
    cases hk
    rw [hr] at hr'
    cases hr'
    exact hf

end Registration

namespace Tree
open ScopeTree

variable {config : Config} {t T : Tree} {root id : NodeId} {n : Node} {r : Record} {s : ScopeId} {p : Progress}

/-- `this` comes first in the scope of a record. -/
theorem RegistersIn.head?_lookup (h : Registers config t root p) (hnests : p.tree.Nests root id)
    (hn : p.tree.get? id = some n) (hr : n.payload = .recordDecl r) (hs : p.scopes.scopeOf? id = some s) :
    (p.scopes.lookup s "this").head? = r.implicitThis := by
  have ht := h.proper.toWellFormed
  obtain ⟨k, hk, -⟩ := ht.root_parent h.root_eq
  obtain ⟨f, hf, -⟩ := (h.registered.registered.supplied hn hr hs).this
  obtain ⟨done, rest, q, q', hat⟩ := h.exists_entersAt hnests
  have hnot := (enter_not_mem_of_split ht hat.split).2
  obtain ⟨m, hm⟩ := hat.exists_node
  have hqm := hat.reached.pending (enter_not_mem_of_split ht hat.split).1 hm
  obtain ⟨q₁, inner, -, hdec, ho⟩ := enter_run_ok hat.reached.proper hqm hat.step
  -- After its step the record stays as it is, and so does its scope.
  have hq' := hat.reached.step h.language hat.step
  obtain ⟨n', hn', hb⟩ := hq'.toExtends.node hm
  have hsame := runSteps_get?_eq hq'.proper h.language hnot hn' hat.after
  rw [hn] at hsame
  cases hsame
  have hopens : m.payload.opens?.isSome = true := by
    rw [← hb.payload.opens?_eq, hr]
    rfl
  rw [runSteps_scopeOf?_eq hq'.proper h.language hnot hat.after, ho.scopeOf?_self hopens] at hs
  cases hs
  have hbefore : Registered config.separator q.tree q.scopes :=
    (Invariant.run h.proper hk h.root_not_implicit hat.split hat.before).registered
  have hold : ∀ e ∈ q.scopes.entries, e.scope.index < q.scopes.size := by
    intro e he
    obtain ⟨-, -, -, -, hin⟩ := hbefore.entry he
    exact lt_size_of_enclosingScope? hin
  have hfirst := ho.head?_lookup (hdec.tree_eq ▸ hqm)
    (hdec.entry_lt (fun s hs => lt_size_of_enclosingScope? hs) hold) hn' hr
  obtain ⟨added, hadded, -⟩ := runSteps_entries hq'.proper h.language hat.after
  obtain ⟨more, hmore, -⟩ := lookup_append hadded ⟨q₁.scopes.size⟩ "this"
  rw [hmore, List.head?_append, hfirst, hf]
  rfl

namespace RegistersIn

variable (h : Registers config t root p) (hT : T.Proper config.separator) (hext : p.tree.Extends T)
  (hsame : p.tree.SameDeclarations T)
include h hT hext hsame

/-- Every record that registration has come to has its implicit members, also after binding. -/
theorem hasMembers (hn : T.get? id = some n) (hr : n.payload = .recordDecl r) (hreached : T.Reached root id) :
    ∃ s, p.scopes.scopeOf? id = some s ∧ T.HasMembers config.separator p.scopes id r s := by
  have hno : ¬ IsImplicitField T id := by
    rintro ⟨m, f, hm, hf, -⟩
    rw [hn] at hm
    cases hm
    rw [hr] at hf
    cases hf
  have hp := h.walked.proper.toWellFormed
  have hroot : T.root = some root := hext.root.trans h.root_eq'
  have hnests : p.tree.Nests root id :=
    h.enter_mem_iff.mp ((h.enter_mem_iff_of_extends hT.toWellFormed (h.walked.toExtends.trans hext)).mpr
      ((hT.nests_iff (hT.root_not_implicit hroot)).mpr ⟨hreached, hno⟩))
  have hnp : p.tree.get? id = some n := (hsame (by rw [Node.kind, hr]; rfl)).mp hn
  have hsome : ∀ {a}, p.tree.Nests root a → p.tree.kind? a = some .recordDecl → (p.scopes.scopeOf? a).isSome = true := by
    intro a ha hkind
    refine h.isSome_scopeOf?_iff.mpr ⟨ha, ?_⟩
    rw [opensScope_eq, hkind]
    rfl
  obtain ⟨s, hs⟩ := Option.isSome_iff_exists.mp
    (hsome hnests (by rw [kind?, hnp, Option.map_some, Node.kind, hr]; rfl))
  have habove : ∀ a ∈ T.enclosingRecords id, (p.scopes.scopeOf? a).isSome = true := by
    intro a ha
    rw [hext.enclosingRecords_eq hp hnp, enclosingRecords, List.mem_filter, beq_iff_eq] at ha
    exact hsome (hp.nests_of_mem_ancestors h.root_eq' hnests ha.1) ha.2
  exact ⟨s, hs, (h.registered.registered.sameDeclarations hp hext hsame).hasMembers hT hn hr hs habove
    (h.head?_lookup hnests hnp hr hs)⟩

end RegistersIn
end Tree

/-- Whatever passes and registrations in one language have been over the tree of a document, after a pass or a registration
in that language whose registration succeeds, every record that it has come to has its implicit members, and no later pass
or registration in the language changes the record or its fields. -/
theorem hasMembers_of_register {document : SyntaxNode} {t T T' : Tree} {root : NodeId} {config : Config}
    {reg : Registration} (hdocument : Tree.ofSyntax document = .ok t) (hroot : t.root = some root)
    (hevolves : t.Evolves {config.separator} T) (hreg : (T.register config root).result = .ok reg)
    (hT' : T' = (T.register config root).tree ∨ T' = (T.resolve config).tree) {id : NodeId} {n : Node} {r : Record}
    (hn : T'.get? id = some n) (hr : n.payload = .recordDecl r) (hreached : T'.Reached root id) :
    ∃ s, reg.scopes.scopeOf? id = some s ∧ T'.HasMembers config.separator reg.scopes id r s ∧
      ∀ later, T'.Evolves {config.separator} later →
        later.get? id = some n ∧ ∀ f ∈ r.implicitFields, later.get? f = T'.get? f := by
  obtain ⟨hT, hext, -⟩ := hevolves.keeps (Tree.properIn_of_ofSyntax hdocument {config.separator})
  have h := Tree.registersIn_of_register hT rfl (hext.root.trans hroot) hreg
  obtain ⟨hproper, hextends, hsame⟩ : T'.Proper config.separator ∧ (T.register config root).tree.Extends T' ∧
      (T.register config root).tree.SameDeclarations T' := by
    rcases hT' with rfl | rfl
    · exact ⟨h.walked.proper, .refl _, SameDeclarations.refl _⟩
    · exact h.resolve_keeps
  obtain ⟨s, hs, hmembers⟩ := h.hasMembers hproper hextends hsame hn hr hreached
  refine ⟨s, hs, hmembers, fun later hlater => ?_⟩
  obtain ⟨-, -, hkept⟩ := hlater.keeps hproper
  refine ⟨hkept _ _ hn (by rw [Node.kind, hr]; rfl) fun r' hr' hbare => ?_, fun f hf => ?_⟩
  · rw [hr] at hr'
    cases hr'
    obtain ⟨f, hf, -⟩ := hmembers.this
    rw [hbare.2.1] at hf
    cases hf
  · obtain ⟨name, typeName, hm⟩ := hmembers.implicit hf
    rw [hm]
    exact hkept _ _ hm rfl fun r' hr' => by cases hr'

/-- A class in a class. -/
def nested : SyntaxNode :=
  let node := SyntaxNode.mk none none
  node <| .translationUnit "A.java" [node <| .recordDecl "A" .classRecord [node <| .recordDecl "B" .classRecord []]]

def nestedTree : Tree := (nested.lower.run {}).2

/-- The tree after a pass to which duplicates are errors. -/
def nestedOnce : Tree := (nestedTree.resolve { duplicates := .fatal }).tree

def nestedInner : Node :=
  ⟨⟨0⟩, "B", none, some ⟨1⟩, .recordDecl ⟨.classRecord, [], some ⟨1⟩, some ⟨4⟩, [⟨⟨1⟩, ⟨5⟩⟩]⟩⟩

/-- The second pass finds the members that the first one has added. -/
theorem hasMembers_of_register_nested :
    Tree.ofSyntax nested = .ok nestedTree ∧ nestedTree.root = some ⟨2⟩ ∧
      nestedTree.Evolves {({} : Config).separator} nestedOnce ∧
      (nestedOnce.resolve {}).tree.get? ⟨0⟩ = some nestedInner ∧ (nestedOnce.resolve {}).tree.Reached ⟨2⟩ ⟨0⟩ ∧
      ∃ reg s, (nestedOnce.register {} ⟨2⟩).result = .ok reg ∧ reg.scopes.scopeOf? ⟨0⟩ = some s ∧
        (nestedOnce.resolve {}).tree.HasMembers ({} : Config).separator reg.scopes ⟨0⟩
          ⟨.classRecord, [], some ⟨1⟩, some ⟨4⟩, [⟨⟨1⟩, ⟨5⟩⟩]⟩ s ∧
        ∀ later, (nestedOnce.resolve {}).tree.Evolves {({} : Config).separator} later →
          later.get? ⟨0⟩ = some nestedInner ∧
          ∀ f ∈ [⟨4⟩, ⟨5⟩], later.get? f = (nestedOnce.resolve {}).tree.get? f := by
  have hdocument : Tree.ofSyntax nested = .ok nestedTree := rfl
  have hroot : nestedTree.root = some ⟨2⟩ := rfl
  have hlanguage : ({ duplicates := .fatal } : Config).separator ∈ ({({} : Config).separator} : Set String) := rfl
  have hevolves : nestedTree.Evolves {({} : Config).separator} nestedOnce := Tree.Evolves.start.resolve hlanguage
  have hunit : (nestedOnce.resolve {}).tree.get? ⟨2⟩ =
      some ⟨⟨2⟩, "A.java", none, none, .translationUnit [⟨1⟩]⟩ := by decide +kernel
  have houter : (nestedOnce.resolve {}).tree.get? ⟨1⟩ =
      some ⟨⟨1⟩, "A", none, some ⟨2⟩, .recordDecl ⟨.classRecord, [⟨0⟩], none, some ⟨3⟩, []⟩⟩ := by decide +kernel
  have hn : (nestedOnce.resolve {}).tree.get? ⟨0⟩ = some nestedInner := by decide +kernel
  have hreached : (nestedOnce.resolve {}).tree.Reached ⟨2⟩ ⟨0⟩ :=
    (Reached.root.child hunit rfl (by decide) (by decide)).child houter rfl (by decide) (by decide)
  have hok : (nestedOnce.register {} ⟨2⟩).result.isOk = true := by decide +kernel
  cases hreg : (nestedOnce.register {} ⟨2⟩).result with
  | error e =>
    rw [hreg] at hok
    cases hok
  | ok reg =>
    obtain ⟨s, hs, hmembers, hlater⟩ :=
      hasMembers_of_register hdocument hroot hevolves hreg (.inr rfl) hn rfl hreached
    exact ⟨hdocument, hroot, hevolves, hn, hreached, reg, s, rfl, hs, hmembers, hlater⟩

end NameResolution
