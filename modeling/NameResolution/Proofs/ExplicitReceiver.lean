import NameResolution.Proofs.BindingSoundness
import NameResolution.Proofs.LexicalBinding

/-!
# Accesses through receivers in the text

The base of an access may name an implicit member: `this`, or the field for the instance of a record around. The
member of the access is looked up in the record that the text of the implicit member's type names, which is the
qualified name of the record that it stands for. That leads to the record itself if no other one goes by its
qualified name and the name reads as a type, but not everywhere.
-/
namespace NameResolution
open NameResolution.Tree ScopeTree

/-- `field` is the implicit member of some record that stands for the instance of `owner`: its own `this`, or
the field of a record inside `owner`. -/
def Tree.StandsFor (T : Tree) (field owner : NodeId) : Prop :=
  ∃ record n r, T.get? record = some n ∧ n.payload = .recordDecl r ∧
    (record = owner ∧ r.implicitThis = some field ∨ (⟨owner, field⟩ : OuterInstance) ∈ r.implicitOuter)

def Payload.implicitThis? : Payload → Option NodeId
  | .recordDecl r => r.implicitThis
  | _ => none

theorem Tree.standsFor_of_implicitThis {T : Tree} {field owner : NodeId}
    (h : (T.get? owner).bind (·.payload.implicitThis?) = some field) : T.StandsFor field owner := by
  obtain ⟨⟨_, _, _, _, payload⟩, hn, hthis⟩ := Option.bind_eq_some_iff.mp h
  cases payload with
  | recordDecl r => exact ⟨owner, _, r, hn, rfl, .inl ⟨rfl, hthis⟩⟩
  | _ => cases hthis

/-- The type of an implicit member is the qualified name of the record that it stands for. -/
theorem Tree.StandsFor.node {separator : String} {T : Tree} {field owner : NodeId} (h : T.StandsFor field owner)
    (hT : T.Proper separator) :
    T.kind? owner = some .recordDecl ∧ ∃ record name, T.Below owner record ∧
      T.get? field = some (implicitNode field record name (T.qualifiedName separator owner)) := by
  obtain ⟨record, n, r, hn, hp, hfield⟩ := h
  have hsup : T.Supplied separator record r := by
    refine (hT.bare_or_supplied hn hp).resolve_left fun hbare => ?_
    rcases hfield with ⟨-, hthis⟩ | houter
    · simp [hbare.2.1] at hthis
    · simp [hbare.2.2] at houter
  rcases hfield with ⟨rfl, hthis⟩ | houter
  · obtain ⟨f, hf, hnode⟩ := hsup.this
    obtain rfl := Option.some.inj (hthis.symm.trans hf)
    exact ⟨by rw [kind?, hn, Option.map_some, Node.kind, hp]; rfl, record, "this", .refl T record, hnode⟩
  · have hmem : owner ∈ T.enclosingRecords record := hsup.records ▸ List.mem_map_of_mem houter
    obtain ⟨habove, hk⟩ := List.mem_filter.mp hmem
    exact ⟨beq_iff_eq.mp hk, record, _, .inr habove, hsup.outer _ houter⟩

/-- The record goes by its qualified name alone, and the name reads as the name of a type. -/
structure Tree.PlainlyNamed (separator : String) (T : Tree) (owner : NodeId) : Prop where
  nonempty : T.qualifiedName separator owner ≠ ""
  normal : TypeName.normalize (T.qualifiedName separator owner) = T.qualifiedName separator owner
  unique : ∀ d, T.kind? d = some .recordDecl → T.qualifiedName separator d = T.qualifiedName separator owner →
    d = owner

namespace Tree.Pass
variable {config : Config} {t t' T : Tree} {u : ResolvedUnit} {id base field owner : NodeId} {n : Node}

/-- A record that an implicit member stands for has a scope, if the member is declared. -/
theorem exists_scope_of_standsFor (h : Pass config t t' T u) (hfield : T.StandsFor field owner) {s : ScopeId}
    {name : String} (hmem : field ∈ u.scopes.lookup s name) : ∃ own, u.scopes.scopeOf? owner = some own := by
  have hreg := h.registered
  have hwf := h.proper.toWellFormed
  obtain ⟨hk, record, _, hbelow, hnode⟩ := hfield.node h.bound.proper
  obtain ⟨root, hroot, -, -⟩ := hwf.root_parent h.root_eq
  have hentered : .enter record ∈ Registration.steps t t.depthLimit u.root := by
    rcases hreg.entry_entered (mem_lookup_iff.mp hmem) with hself | ⟨record', _, _, hrecord, hnode'⟩
    · -- The member itself is no part of the nesting.
      obtain ⟨k, hk⟩ := Registration.exists_of_enter_mem hwf hroot hself
      obtain ⟨k', hk', hb⟩ := h.toExtends.node hk
      rw [hnode] at hk'
      cases hk'
      exact absurd ⟨k, _, hk, hb.payload.eq_of_kind rfl (by simp [implicitNode, Payload.kind]), rfl⟩
        (Registration.not_implicit_of_enter_mem h.proper h.root_not_implicit hself)
    · have hsame := (h.bound.same (n := implicitNode field record' _ _) rfl).mpr hnode'
      rw [hnode] at hsame
      cases hsame
      exact hrecord
  obtain ⟨k, hrecord⟩ := Registration.exists_of_enter_mem hwf hroot hentered
  have howner : .enter owner ∈ Registration.steps t t.depthLimit u.root := by
    rcases hbelow with rfl | habove
    · exact hentered
    · rw [h.toExtends.ancestors_eq hwf hrecord] at habove
      obtain ⟨m, hm⟩ := hwf.exists_of_mem_ancestors habove
      exact Registration.enter_mem_of_mem_ancestors hwf hentered habove (hwf.below_root h.root_eq hm)
  exact h.exists_scope_of_entered howner hk

/-- The qualified name of a plainly named record leads to the record. -/
theorem recordOfType?_qualifiedName (h : Pass config t t' T u) {own : ScopeId}
    (hown : u.scopes.scopeOf? owner = some own) (hk : T.kind? owner = some .recordDecl)
    (hplain : T.PlainlyNamed config.separator owner) (scope : ScopeId) :
    Binding.recordOfType? (u.context config) T (T.qualifiedName config.separator owner) scope = some owner := by
  have hreg := h.registered_end
  obtain ⟨sc, hsc, hkind⟩ := Binding.kind_of_scopeOf? (c := u.context config) hreg hk hown
  obtain ⟨sc', hsc', rfl⟩ := get?_of_scopeOf? hown
  obtain rfl := Option.some.inj (hsc.symm.trans hsc')
  have hlisted := hreg.listed hsc hkind
  have hfound : u.scopes.recordNamed? (T.qualifiedName config.separator sc.owner) = some sc.owner := by
    have hsome : (u.scopes.records.toList.find? (·.1 == T.qualifiedName config.separator sc.owner)).isSome :=
      List.find?_isSome.mpr ⟨_, Array.mem_toList_iff.mpr hlisted, beq_self_eq_true _⟩
    obtain ⟨⟨q, d⟩, hd⟩ := Option.isSome_iff_exists.mp hsome
    obtain ⟨hd', hq⟩ := hreg.named (Array.mem_toList_iff.mp (List.mem_of_find?_eq_some hd))
    have he : q = T.qualifiedName config.separator sc.owner := by simpa using List.find?_some hd
    rw [recordNamed?, hd, Option.map_some, hplain.unique d hd' (hq.symm.trans he)]
  rw [Binding.recordOfType?, hplain.normal, if_neg hplain.nonempty]
  exact Option.or_eq_some_iff.mpr (.inl hfound)

/-- The member of an access through an implicit member is looked up in the record that the qualified name leads
to. -/
theorem resolution?_of_standsFor (h : Pass config t t' T u) (hn : t.get? id = some n) {a : Access}
    (hp : n.payload = .member a) (hbase : a.base = some base)
    (hbound : T.resolution? base = some (.single field)) (hfield : T.StandsFor field owner) :
    ∃ scope, T.enclosingScope? u.scopes id = some scope ∧
      T.resolution? id = some (Binding.memberOf (u.context config) T
        (Binding.recordOfType? (u.context config) T (T.qualifiedName config.separator owner) scope)
        n.name (t.roleOf id)) := by
  have hreg := h.registered
  have hwf := h.proper.toWellFormed
  have hn' : t'.get? id = some n := hreg.keeps hn (by simp [Node.kind, hp, Payload.kind])
  obtain ⟨base', _, scope, r, hb, -, hinner, hnow, -, hr⟩ := h.exists_access hn' hp
  obtain rfl := Option.some.inj (hbase.symm.trans hb)
  obtain ⟨-, _, _, -, hnode⟩ := hfield.node h.bound.proper
  have hrecord : Binding.recordOfBase? (u.context config) T base scope =
      Binding.recordOfType? (u.context config) T (T.qualifiedName config.separator owner) scope := by
    rw [Binding.recordOfBase?_of_resolution hbound, Resolution.single?, Option.bind_some]
    simp [Binding.recordOfDeclaration?, hnode, implicitNode, Payload.kind, Payload.typeName?]
  refine ⟨scope, (h.enclosingScope?_eq hn').trans hinner, ?_⟩
  rw [resolution?, hnow, Option.bind_some, hr, hrecord,
    Binding.memberOf_congr (c := u.context config) hreg.grounded h.bound.same,
    Binding.roleOf_of_extends hreg.toExtends hwf hn]
  rfl

end Tree.Pass

/-- An access in the text whose base is bound to an implicit member for `owner` finds its member in the scope of
`owner` if, and for resolved members only if, the qualified name of `owner` leads back to `owner`. That it does
if `owner` is plainly named. -/
theorem resolution_of_standsFor {document : SyntaxNode} {config : Config} {t : Tree} {u : ResolvedUnit}
    {id base field owner : NodeId} {n : Node} {a : Access} (hdocument : Tree.ofSyntax document = .ok t)
    (hresolve : (t.resolve config).result = .ok u) (hn : t.get? id = some n) (hp : n.payload = .member a)
    (hbase : a.base = some base) (hbound : (t.resolve config).tree.resolution? base = some (.single field))
    (hfield : (t.resolve config).tree.StandsFor field owner) :
    ∃ scope own bound, (t.resolve config).tree.enclosingScope? u.scopes id = some scope ∧
      u.scopes.scopeOf? owner = some own ∧
      bound = config.ambiguity.apply
        ((t.resolve config).tree.preferred (t.roleOf id) (u.scopes.lookup own n.name)) ∧
      (Binding.recordOfType? (u.context config) (t.resolve config).tree
          ((t.resolve config).tree.qualifiedName config.separator owner) scope = some owner →
        (t.resolve config).tree.resolution? id = some bound) ∧
      (bound.isResolved = true → (t.resolve config).tree.resolution? id = some bound →
        Binding.recordOfType? (u.context config) (t.resolve config).tree
          ((t.resolve config).tree.qualifiedName config.separator owner) scope = some owner) ∧
      ((t.resolve config).tree.PlainlyNamed config.separator owner →
        (t.resolve config).tree.resolution? id = some bound) := by
  obtain ⟨t', h⟩ := exists_pass (proper_of_ofSyntax hdocument config.separator) hresolve
  obtain ⟨scope, hscope, hid⟩ := h.resolution?_of_standsFor hn hp hbase hbound hfield
  obtain ⟨k, hk, hr⟩ := Option.bind_eq_some_iff.mp hbound
  obtain ⟨s, ds, hds, happly, -⟩ := (h.chosen hk hr).choice.resolve_left (by simp)
  have hmem : field ∈ u.scopes.lookup s k.name :=
    hds.subset (AmbiguityPolicy.mem_of_mem_candidates_apply (p := config.ambiguity)
      (by simp [← happly, Resolution.candidates]))
  obtain ⟨own, hown⟩ := h.exists_scope_of_standsFor hfield hmem
  have hfound : Binding.recordOfType? (u.context config) (t.resolve config).tree
        ((t.resolve config).tree.qualifiedName config.separator owner) scope = some owner →
      (t.resolve config).tree.resolution? id = some (config.ambiguity.apply
        ((t.resolve config).tree.preferred (t.roleOf id) (u.scopes.lookup own n.name))) := by
    intro hrecord
    rw [hid, hrecord, Binding.memberOf, Option.bind_some]
    simp only [ResolvedUnit.context, hown]
  refine ⟨scope, own, _, hscope, hown, rfl, hfound, ?_, ?_⟩
  · intro hresolved hsame
    rw [hid, Option.some.injEq] at hsame
    exact (Binding.memberOf_eq_iff (c := u.context config) h.registered_end hown rfl hresolved).mp hsame
  · intro hplain
    exact hfound (h.recordOfType?_qualifiedName hown (hfield.node h.bound.proper).1 hplain scope)

/-- A class whose method returns a field of `this`. -/
def explicitCounter : SyntaxNode :=
  let node := SyntaxNode.mk none none
  node <| .translationUnit "Counter" [node <| .recordDecl "Counter" .classRecord [
    node <| .fieldDecl "count" (some "int") false none,
    node <| .methodDecl "next" false [] (some <| node <| .compound [
      node <| .returnStatement (some <| node <| .member (some <| node <| .reference "this") (some "count"))])]]

def explicitCounterTree : Tree := (explicitCounter.lower.run {}).2

def explicitCounterUnit : ResolvedUnit where
  root := ⟨8⟩
  scopes :=
    { scopes := #[⟨.translationUnit, ⟨8⟩, none⟩, ⟨.record, ⟨7⟩, some ⟨0⟩⟩, ⟨.function, ⟨6⟩, some ⟨1⟩⟩,
        ⟨.block, ⟨5⟩, some ⟨2⟩⟩]
      entries := #[⟨⟨0⟩, "Counter", ⟨7⟩⟩, ⟨⟨1⟩, "this", ⟨9⟩⟩, ⟨⟨1⟩, "count", ⟨0⟩⟩, ⟨⟨1⟩, "next", ⟨6⟩⟩]
      records := #[("Counter", ⟨7⟩)] }
  duplicates := #[]
  unresolved := #[]
  resolved := 2
  implicitMembers := 0
  state := .resolved

def explicitCounterEnd : Tree := (explicitCounterTree.resolve {}).tree

theorem plainlyNamed_count : explicitCounterEnd.PlainlyNamed "." ⟨7⟩ := by
  have hname : explicitCounterEnd.qualifiedName "." ⟨7⟩ = "Counter" := by decide +kernel
  constructor
  case nonempty =>
    rw [hname]
    decide
  case normal =>
    rw [hname]
    decide +kernel
  case unique =>
    rintro ⟨i⟩ hkind -
    have hsize : explicitCounterEnd.size = 10 := by decide +kernel
    have hall : ∀ i < 10, explicitCounterEnd.kind? ⟨i⟩ = some .recordDecl → i = 7 := by decide +kernel
    have hlt : i < 10 := by
      rw [← hsize]
      exact lt_size_of_kind? hkind
    rw [hall i hlt hkind]

/-- The class is plainly named, so that its qualified name leads back to it and the field is found. -/
theorem resolution_of_standsFor_count :
    Tree.ofSyntax explicitCounter = .ok explicitCounterTree ∧
      (explicitCounterTree.resolve {}).result = .ok explicitCounterUnit ∧
      explicitCounterEnd.resolution? ⟨1⟩ = some (.single ⟨9⟩) ∧ explicitCounterEnd.StandsFor ⟨9⟩ ⟨7⟩ ∧
      explicitCounterEnd.enclosingScope? explicitCounterUnit.scopes ⟨3⟩ = some ⟨3⟩ ∧
      explicitCounterUnit.scopes.scopeOf? ⟨7⟩ = some ⟨1⟩ ∧
      .single ⟨0⟩ = AmbiguityPolicy.keepAll.apply (explicitCounterEnd.preferred (explicitCounterTree.roleOf ⟨3⟩)
        (explicitCounterUnit.scopes.lookup ⟨1⟩ "count")) ∧
      explicitCounterEnd.PlainlyNamed "." ⟨7⟩ ∧
      Binding.recordOfType? (explicitCounterUnit.context {}) explicitCounterEnd
        (explicitCounterEnd.qualifiedName "." ⟨7⟩) ⟨3⟩ = some ⟨7⟩ ∧
      explicitCounterEnd.resolution? ⟨3⟩ = some (.single ⟨0⟩) := by
  have hdocument : Tree.ofSyntax explicitCounter = .ok explicitCounterTree := rfl
  have hresolve : (explicitCounterTree.resolve {}).result = .ok explicitCounterUnit := by decide +kernel
  have hbound : explicitCounterEnd.resolution? ⟨1⟩ = some (.single ⟨9⟩) := by decide +kernel
  have hfield : explicitCounterEnd.StandsFor ⟨9⟩ ⟨7⟩ := standsFor_of_implicitThis (by decide +kernel)
  have hn : explicitCounterTree.get? ⟨3⟩ =
      some ⟨⟨3⟩, "count", none, some ⟨4⟩, .member ⟨some ⟨1⟩, some ⟨2⟩, false, .unresolved⟩⟩ := by decide +kernel
  obtain ⟨scope, own, bound, hscope, hown, happly, hfound, honly, hplain⟩ :=
    resolution_of_standsFor hdocument hresolve hn rfl rfl hbound hfield
  have hscope' : explicitCounterEnd.enclosingScope? explicitCounterUnit.scopes ⟨3⟩ = some ⟨3⟩ := by decide +kernel
  have hown' : explicitCounterUnit.scopes.scopeOf? ⟨7⟩ = some ⟨1⟩ := by decide +kernel
  have happly' : .single ⟨0⟩ = AmbiguityPolicy.keepAll.apply (explicitCounterEnd.preferred
      (explicitCounterTree.roleOf ⟨3⟩) (explicitCounterUnit.scopes.lookup ⟨1⟩ "count")) := by decide +kernel
  obtain rfl : ⟨3⟩ = scope := Option.some.inj (hscope'.symm.trans hscope)
  obtain rfl : ⟨1⟩ = own := Option.some.inj (hown'.symm.trans hown)
  obtain rfl : .single ⟨0⟩ = bound := happly'.trans happly.symm
  have hrecord := honly rfl (hplain plainlyNamed_count)
  exact ⟨hdocument, hresolve, hbound, hfield, hscope, hown, happly, plainlyNamed_count, hrecord, hfound hrecord⟩

/-- A class with two methods that each have a local class of one name, which returns a field of `this`. -/
def explicitLocals : SyntaxNode :=
  let node := SyntaxNode.mk none none
  let method (name : String) (statement : SyntaxNode) : SyntaxNode :=
    node <| .methodDecl name false [] (some <| node <| .compound [statement])
  let localClass (field : String) : SyntaxNode :=
    node <| .recordDecl "L" .classRecord [
      node <| .fieldDecl field (some "int") false none,
      method "get" (node <| .returnStatement <| some <| node <|
        .member (some <| node <| .reference "this") (some field))]
  node <| .translationUnit "A.java" [node <| .recordDecl "A" .classRecord [
    method "m1" (localClass "x"), method "m2" (localClass "y")]]

def explicitLocalsTree : Tree := (explicitLocals.lower.run {}).2

/-- In the second class `this` stands for the second class, but its type leads to the first, which goes by the
same qualified name. So the field `y` of the second is not found. -/
theorem standsFor_astray :
    Tree.ofSyntax explicitLocals = .ok explicitLocalsTree ∧
      (explicitLocalsTree.resolve {}).tree.resolution? ⟨11⟩ = some (.single ⟨25⟩) ∧
      (explicitLocalsTree.resolve {}).tree.StandsFor ⟨25⟩ ⟨17⟩ ∧
      (explicitLocalsTree.resolve {}).result.map
        (fun u => (u.scopes.scopeOf? ⟨17⟩).map (u.scopes.lookup · "y")) = .ok (some [⟨10⟩]) ∧
      (explicitLocalsTree.resolve {}).tree.resolution? ⟨13⟩ = some .unresolved := by
  refine ⟨rfl, ?_, standsFor_of_implicitThis ?_, ?_, ?_⟩
  · decide +kernel
  · decide +kernel
  · decide +kernel
  · decide +kernel

end NameResolution
