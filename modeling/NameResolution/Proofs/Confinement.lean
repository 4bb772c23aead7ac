import NameResolution.Proofs.BindingSoundness
import NameResolution.Proofs.LexicalBinding

/-!
# Confinement

What is declared inside a function, a block, a loop, a condition or a handler is out of reach of the plain names
outside, also where they are written out to accesses. An access of the text gets inside only by the text of a
type: the unit lists a record under its qualified name wherever it stands, and that name is looked up before the
scopes around the access are.
-/
namespace NameResolution
open NameResolution.Tree ScopeTree

instance (t : Tree) (a x : NodeId) : Decidable (t.Below a x) :=
  inferInstanceAs (Decidable (a = x ∨ a ∈ t.ancestors x))

/-- The text of a type is a qualified name that the unit lists for a record inside the node `owner`. -/
def Tree.NamesInside (T : Tree) (S : ScopeTree) (owner : NodeId) (typeName : String) : Prop :=
  TypeName.normalize typeName ≠ "" ∧
    ∃ record, S.recordNamed? (TypeName.normalize typeName) = some record ∧ owner ∈ T.ancestors record

/-- The base of an access leads inside the node `owner` by the text of a type. An access that is bound to a record
inside leads there as its own base does. -/
inductive LeadsInto (T : Tree) (S : ScopeTree) (owner : NodeId) : NodeId → Prop
  | created {base : NodeId} {n : Node} {typeName : String} {arguments : List NodeId} (node : T.get? base = some n)
      (payload : n.payload = .newExpr typeName arguments) (inside : T.NamesInside S owner typeName) :
      LeadsInto T S owner base
  | typed {base d : NodeId} {m : Node} {typeName : String} (bound : T.resolution? base = some (.single d))
      (node : T.get? d = some m) (type : m.payload.typeName? = some typeName)
      (inside : T.NamesInside S owner typeName) : LeadsInto T S owner base
  | nested {base inner record : NodeId} {n : Node} {a : Access} (node : T.get? base = some n)
      (payload : n.payload = .member a) (hasBase : a.base = some inner)
      (bound : T.resolution? base = some (.single record)) (inside : owner ∈ T.ancestors record)
      (leads : LeadsInto T S owner inner) : LeadsInto T S owner base

namespace Registration.Registered
variable {separator : String} {t : Tree} {S : ScopeTree} {owner d x : NodeId} {o s : ScopeId} {name : String}

/-- What stands inside the owner of a scope is declared in that scope or in one inside it. -/
theorem exists_below_of_mem_lookup (h : Registered separator t S) (ht : t.WellFormed)
    (ho : S.scopeOf? owner = some o) (hd : d ∈ S.lookup s name) (hinside : owner ∈ t.ancestors d) :
    ∃ a, S.scopeOf? a = some s ∧ t.Below owner a := by
  obtain ⟨n, hn, -, -, hin⟩ := h.entry (mem_lookup_iff.mp hd)
  obtain ⟨nearer, hsplit⟩ := ht.ancestors_split hinside
  have hpairwise := (ht.lineage_ancestors hn).pairwise
  rw [hsplit] at hpairwise
  rw [enclosingScope?, enclosingScopes, hsplit, List.filterMap_append, List.filterMap_cons_some ho] at hin
  cases hnearer : nearer.filterMap S.scopeOf? with
  | nil =>
    rw [hnearer] at hin
    cases hin
    exact ⟨owner, ho, .refl t owner⟩
  | cons q rest =>
    rw [hnearer] at hin
    cases hin
    obtain ⟨a, ha, hscope⟩ := List.mem_filterMap.mp (hnearer ▸ List.mem_cons_self : s ∈ nearer.filterMap S.scopeOf?)
    exact ⟨a, hscope, .inr ((List.pairwise_append.mp hpairwise).2.2 a ha owner (by simp))⟩

/-- A scope around a node does not declare what stands inside the owner of a scope, unless the node does. -/
theorem mem_ancestors_of_mem_lookup (h : Registered separator t S) (ht : t.WellFormed)
    (ho : S.scopeOf? owner = some o) (hd : d ∈ S.lookup s name) (hinside : owner ∈ t.ancestors d)
    (hs : s ∈ t.enclosingScopes S x) : owner ∈ t.ancestors x := by
  obtain ⟨a, ha, hbelow⟩ := h.exists_below_of_mem_lookup ht ho hd hinside
  obtain ⟨a', ha', hscope⟩ := mem_enclosingScopes.mp hs
  obtain rfl := scopeOf?_inj ha hscope
  rcases hbelow with rfl | hbelow
  · exact ha'
  · exact ht.mem_ancestors_trans hbelow ha'

end Registration.Registered

namespace Tree.Pass
open Binding
variable {config : Config} {t t' T : Tree} {u : ResolvedUnit} {owner x id d : NodeId} {n m : Node} {r : Resolution}
  {o scope : ScopeId} {role : Role}

/-- What is bound is declared in a scope around a node at or above the reference, or in the record that the base of
an access of the text denotes. -/
theorem exists_scope_of_bound (h : Pass config t t' T u) (hr : T.resolution? x = some r) (hd : d ∈ r.candidates) :
    (∃ id s name, T.Below id x ∧ s ∈ T.enclosingScopes u.scopes id ∧ d ∈ u.scopes.lookup s name) ∨
    ∃ e n a base scope record s name, t'.get? e = some n ∧ n.payload = .member a ∧ a.base = some base ∧
      (x = e ∨ a.member = some x) ∧ t'.enclosingScope? u.scopes e = some scope ∧
      recordOfBase? (u.context config) T base scope = some record ∧ u.scopes.scopeOf? record = some s ∧
      d ∈ u.scopes.lookup s name := by
  have hreg := h.registered
  have hT := h.bound.proper
  have haround : ∀ {id n scope s sc}, t'.get? id = some n → t'.enclosingScope? u.scopes id = some scope →
      (s, sc) ∈ u.scopes.ancestors scope → s ∈ T.enclosingScopes u.scopes id := by
    intro id n scope s sc hn inner hs
    rw [h.bound.toExtends.enclosingScopes_eq hreg.proper.toWellFormed hn]
    exact mem_enclosingScopes_of_mem_ancestors (c := u.context config) hreg.registered hreg.proper.toWellFormed
      inner hs
  cases h.boundAs hr with
  | @name m _ scope node _ _ inner _ =>
    rcases lexical_cases (u.context config) t' m.name scope (t'.roleOf x) with hnone | ⟨s, sc, hs, heq⟩
    · rw [hnone] at hd
      cases hd
    · rw [heq] at hd
      exact .inl ⟨x, s, _, .refl T x, haround node inner hs,
        preferred_subset t' _ _ (AmbiguityPolicy.mem_of_mem_candidates_apply hd)⟩
  | @field id _ _ _ _ _ _ node _ _ inner isWritten now memberNow at_ =>
    obtain ⟨-, -, -, s, sc, hs, -, hmem, -⟩ :=
      (written?_eq_some_iff (c := u.context config) hreg.registered).mp isWritten
    refine .inl ⟨id, s, _, ?_, haround node inner hs, List.mem_singleton.mp hd ▸ hmem⟩
    rcases at_ with rfl | rfl
    · exact .refl T x
    · exact .inr (hT.ancestors_of_parent memberNow rfl ▸ List.mem_cons_self)
  | @receiver id _ _ _ _ _ node _ _ inner isWritten now baseNow =>
    obtain ⟨s, hs, hmem⟩ := h.mem_lookup_base node inner isWritten
    exact .inl ⟨id, s, _, .inr (hT.ancestors_of_parent baseNow rfl ▸ List.mem_cons_self), hs,
      List.mem_singleton.mp hd ▸ hmem⟩
  | @access id m a base member scope _ k node payload hasBase hasMember inner now halfNow named resolution at_ =>
    rcases memberOf_cases (u.context config) t' (recordOfBase? (u.context config) T base scope) m.name
        (t'.roleOf id) with hnone | ⟨record, s, hrecord, hs, heq⟩
    · rw [resolution, hnone] at hd
      cases hd
    · rw [resolution, heq] at hd
      have hplace : x = id ∨ a.member = some x := by
        rw [hasMember, Option.some.injEq]
        exact at_.imp_right Eq.symm
      exact .inr ⟨id, m, a, base, scope, record, s, _, node, payload, hasBase, hplace, inner, hrecord, hs,
        preferred_subset t' _ _ (AmbiguityPolicy.mem_of_mem_candidates_apply hd)⟩

/-- What is bound from outside to something inside the owner of a scope is an access of the text, or the member
half of one, whose base denotes a record inside. -/
theorem exists_access_of_outside (h : Pass config t t' T u) (ho : u.scopes.scopeOf? owner = some o)
    (hkind : T.kind? owner ≠ some .recordDecl) (hr : T.resolution? x = some r) (hd : d ∈ r.candidates)
    (hinside : owner ∈ T.ancestors d) (hout : owner ∉ T.ancestors x) :
    ∃ e n a base scope record, t'.get? e = some n ∧ n.payload = .member a ∧ a.base = some base ∧
      (x = e ∨ a.member = some x) ∧ t'.enclosingScope? u.scopes e = some scope ∧
      recordOfBase? (u.context config) T base scope = some record ∧ owner ∈ T.ancestors record := by
  have hreg := h.registered_end
  have hwf := h.bound.proper.toWellFormed
  rcases h.exists_scope_of_bound hr hd with ⟨id, s, name, hbelow, hs, hmem⟩ |
    ⟨e, n, a, base, scope, record, s, name, hn, payload, hasBase, hplace, hinner, hrecord, hs, hmem⟩
  · have habove := hreg.mem_ancestors_of_mem_lookup hwf ho hmem hinside hs
    refine absurd ?_ hout
    rcases hbelow with rfl | hbelow
    · exact habove
    · exact hwf.mem_ancestors_trans habove hbelow
  · refine ⟨e, n, a, base, scope, record, hn, payload, hasBase, hplace, hinner, hrecord, ?_⟩
    obtain ⟨_, hscope, hbelow⟩ := hreg.exists_below_of_mem_lookup hwf ho hmem hinside
    obtain rfl := scopeOf?_inj hs hscope
    refine hbelow.resolve_left fun he => hkind ?_
    rw [he]
    exact kind?_of_recordOfBase? (c := u.context config) hreg hrecord

/-- The scopes around a node outside hold nothing inside the owner of a scope, so that the text of a type that leads
there is listed. -/
theorem namesInside_of_outside (h : Pass config t t' T u) (ho : u.scopes.scopeOf? owner = some o)
    (hn : t'.get? x = some n) (hinner : t'.enclosingScope? u.scopes x = some scope) (hout : owner ∉ T.ancestors x)
    {typeName : String} {record : NodeId} (hrecord : recordOfType? (u.context config) T typeName scope = some record)
    (hinside : owner ∈ T.ancestors record) : T.NamesInside u.scopes owner typeName := by
  have hreg := h.registered_end
  have hwf := h.bound.proper.toWellFormed
  rw [recordOfType?] at hrecord
  split at hrecord
  · cases hrecord
  · rename_i hne
    rcases Option.or_eq_some_iff.mp hrecord with hlisted | ⟨-, hfound⟩
    · exact ⟨hne, record, hlisted, hinside⟩
    · obtain ⟨q, hq, hfind⟩ := List.exists_of_findSome?_eq_some hfound
      have hs := mem_enclosingScopes_of_mem_ancestors (c := u.context config) hreg hwf
        ((h.enclosingScope?_eq hn).trans hinner) hq
      exact absurd (hreg.mem_ancestors_of_mem_lookup hwf ho (List.mem_of_find?_eq_some hfind) hinside hs) hout

/-- The base of an access outside whose record stands inside the owner of a scope leads there. -/
theorem leadsInto_of_outside (h : Pass config t t' T u) (ho : u.scopes.scopeOf? owner = some o)
    (hkind : T.kind? owner ≠ some .recordDecl)
    {a : Access} {base record : NodeId} (hn : t'.get? x = some n) (payload : n.payload = .member a)
    (hasBase : a.base = some base) (hinner : t'.enclosingScope? u.scopes x = some scope)
    (hrecord : recordOfBase? (u.context config) T base scope = some record) (hinside : owner ∈ T.ancestors record)
    (hout : owner ∉ T.ancestors x) : LeadsInto T u.scopes owner base := by
  have hp : t'.Proper config.separator := h.registered.proper
  -- The chains of parents are bounded, and that of a base is longer than that of its access.
  induction hk : t'.size - (t'.ancestors x).length using Nat.strongRecOn generalizing x n a base scope record
  rename_i ih
  subst hk
  have hchild : base ∈ n.children := base_mem_children payload hasBase
  obtain ⟨b, hb, hparent⟩ := hp.parent_of_child hn hchild
  have hbase : owner ∉ T.ancestors base := by
    rw [h.bound.toExtends.ancestors_eq hp.toWellFormed hb, hp.ancestors_of_child hn hchild,
      ← h.bound.toExtends.ancestors_eq hp.toWellFormed hn]
    intro hmem
    rcases List.mem_cons.mp hmem with rfl | hmem
    · -- Accesses open no scope.
      obtain ⟨sc, hsc, rfl⟩ := get?_of_scopeOf? ho
      obtain ⟨k, hk, hopens⟩ := h.registered.registered.owner hsc
      rw [hn] at hk
      cases hk
      rw [payload] at hopens
      cases hopens
    · exact hout hmem
  rw [recordOfBase?, Option.bind_eq_bind, Option.bind_eq_some_iff] at hrecord
  obtain ⟨k, hk, hrecord⟩ := hrecord
  split at hrecord
  case h_1 typeName arguments hpayload =>
    exact .created hk hpayload (h.namesInside_of_outside ho hn hinner hout hrecord hinside)
  case h_2 =>
    simp only [Option.bind_eq_bind, Option.bind_eq_some_iff, recordOfDeclaration?] at hrecord
    obtain ⟨r, hr, d, hd, m, hm, hrecord⟩ := hrecord
    obtain rfl := Resolution.single?_eq_some.mp hd
    have hbound : T.resolution? base = some (.single d) := resolution?_of_get? hk hr
    split at hrecord
    case isTrue =>
      cases hrecord
      obtain ⟨_, member, _, _, -, hmember, -⟩ := h.exists_access hn payload
      obtain ⟨e, n', a', inner, scope', record', hn', payload', hasBase', hplace, hinner', hrecord', hinside'⟩ :=
        h.exists_access_of_outside ho hkind hbound (List.mem_singleton_self _) hinside hbase
      rcases hplace with rfl | hhalf
      · have hlt := hp.length_ancestors_lt hb
        rw [hp.ancestors_of_child hn hchild, List.length_cons] at hlt
        obtain ⟨_, _, _, r, -, -, -, hnow, -⟩ := h.exists_access hn' payload'
        refine .nested hnow rfl hasBase' hbound hinside
          (ih _ ?_ hn' payload' hasBase' hinner' hrecord' hinside' hbase rfl)
        rw [hp.ancestors_of_child hn hchild, List.length_cons]
        omega
      · exact absurd ⟨e, n', a', hn', payload', hhalf⟩ (base_not_half hp hn payload hasBase hmember)
    case isFalse =>
      obtain ⟨typeName, htype, hrecord⟩ := Option.bind_eq_some_iff.mp hrecord
      exact .typed hbound hm htype (h.namesInside_of_outside ho hn hinner hout hrecord hinside)

/-- What is declared in a scope or inside it stands inside the owner of the scope. -/
theorem mem_ancestors_of_nested (h : Pass config t t' T u) {sc : Scope} {s : ScopeId} {name : String}
    (ho : u.scopes.get? o = some sc) (hd : d ∈ u.scopes.lookup s name)
    (hnested : o ∈ (u.scopes.ancestors s).map Prod.fst) : sc.owner ∈ T.ancestors d := by
  have hreg := h.registered_end
  obtain ⟨_, -, -, -, hin⟩ := hreg.entry (mem_lookup_iff.mp hd)
  rw [hreg.nested.map_fst_ancestors h.bound.proper.toWellFormed hin] at hnested
  obtain ⟨a, ha, hscope⟩ := mem_enclosingScopes.mp hnested
  obtain rfl := scopeOf?_inj hscope (hreg.opened ho)
  exact ha

end Tree.Pass

/-- From outside the owner of a scope that is no record's, what is declared in the scope or inside it is bound only
by accesses of the text, with their member halves, whose base leads inside by the text of a type. -/
theorem leadsInto_of_resolve {document : SyntaxNode} {config : Config} {t : Tree} {u : ResolvedUnit} {o s : ScopeId}
    {sc : Scope} {name : String} {d x : NodeId} {r : Resolution} (hdocument : Tree.ofSyntax document = .ok t)
    (hresolve : (t.resolve config).result = .ok u) (ho : u.scopes.get? o = some sc) (hkind : sc.kind ≠ .record)
    (hd : d ∈ u.scopes.lookup s name) (hnested : o ∈ (u.scopes.ancestors s).map Prod.fst)
    (hr : (t.resolve config).tree.resolution? x = some r) (hbound : d ∈ r.candidates)
    (hout : ¬ (t.resolve config).tree.Below sc.owner x) :
    ∃ e n a base, t.get? e = some n ∧ n.payload = .member a ∧ a.base = some base ∧ (x = e ∨ a.member = some x) ∧
      LeadsInto (t.resolve config).tree u.scopes sc.owner base := by
  obtain ⟨t', h⟩ := exists_pass (proper_of_ofSyntax hdocument config.separator) hresolve
  have hreg := h.registered_end
  have howner : (t.resolve config).tree.kind? sc.owner ≠ some .recordDecl := by
    intro hrecord
    obtain ⟨sc', hsc', hk⟩ := Binding.kind_of_scopeOf? (c := u.context config) hreg hrecord (hreg.opened ho)
    exact hkind (Option.some.inj (ho.symm.trans hsc') ▸ hk)
  have hinside := h.mem_ancestors_of_nested ho hd hnested
  have hout : sc.owner ∉ (t.resolve config).tree.ancestors x := fun hmem => hout (.inr hmem)
  obtain ⟨e, n, a, base, scope, record, hn, payload, hasBase, hplace, hinner, hrecord, hinside'⟩ :=
    h.exists_access_of_outside (hreg.opened ho) howner hr hbound hinside hout
  refine ⟨e, n, a, base, h.get?_of_reference hn (by rw [Node.kind, payload]; rfl), payload, hasBase, hplace, ?_⟩
  refine h.leadsInto_of_outside (hreg.opened ho) howner hn payload hasBase hinner hrecord hinside' fun hmem => ?_
  rcases hplace with rfl | hmember
  · exact hout hmem
  · obtain ⟨_, _, _, _, -, -, -, hnow, -⟩ := h.exists_access hn payload
    have hchild := Binding.member_mem_children (n := { n with payload := _ }) rfl hmember
    rw [h.bound.proper.ancestors_of_child hnow hchild] at hout
    exact hout (List.mem_cons_of_mem _ hmem)

/-- A function with a local struct, and another one that declares a variable of its name. -/
def borrower : SyntaxNode :=
  let node := SyntaxNode.mk none none
  let function (name : String) (statements : List SyntaxNode) : SyntaxNode :=
    node <| .functionDecl name [] (some <| node <| .compound statements)
  node <| .translationUnit "unit" [
    function "f" [node <| .recordDecl "L" .structRecord [node <| .fieldDecl "x" (some "int") false none]],
    function "g" [
      node <| .declStatement [node <| .variableDecl "v" (some "L") none],
      node <| .returnStatement (some <| node <| .member (some <| node <| .reference "v") (some "x"))]]

def borrowerTree : Tree := (borrower.lower.run {}).2

def borrowerUnit : ResolvedUnit where
  root := ⟨12⟩
  scopes :=
    { scopes := #[⟨.translationUnit, ⟨12⟩, none⟩, ⟨.function, ⟨3⟩, some ⟨0⟩⟩, ⟨.block, ⟨2⟩, some ⟨1⟩⟩,
        ⟨.record, ⟨1⟩, some ⟨2⟩⟩, ⟨.function, ⟨11⟩, some ⟨0⟩⟩, ⟨.block, ⟨10⟩, some ⟨4⟩⟩]
      entries := #[⟨⟨0⟩, "f", ⟨3⟩⟩, ⟨⟨2⟩, "L", ⟨1⟩⟩, ⟨⟨3⟩, "this", ⟨13⟩⟩, ⟨⟨3⟩, "x", ⟨0⟩⟩, ⟨⟨0⟩, "g", ⟨11⟩⟩,
        ⟨⟨5⟩, "v", ⟨4⟩⟩]
      records := #[("L", ⟨1⟩)] }
  duplicates := #[]
  unresolved := #[]
  resolved := 2
  implicitMembers := 0
  state := .resolved

theorem leadsInto_of_resolve_borrower :
    Tree.ofSyntax borrower = .ok borrowerTree ∧ (borrowerTree.resolve {}).result = .ok borrowerUnit ∧
      borrowerUnit.scopes.get? ⟨2⟩ = some ⟨.block, ⟨2⟩, some ⟨1⟩⟩ ∧ ScopeKind.block ≠ .record ∧
      ⟨0⟩ ∈ borrowerUnit.scopes.lookup ⟨3⟩ "x" ∧ ⟨2⟩ ∈ (borrowerUnit.scopes.ancestors ⟨3⟩).map Prod.fst ∧
      (borrowerTree.resolve {}).tree.resolution? ⟨8⟩ = some (.single ⟨0⟩) ∧
      ¬ (borrowerTree.resolve {}).tree.Below ⟨2⟩ ⟨8⟩ ∧
      ∃ e n a base, borrowerTree.get? e = some n ∧ n.payload = .member a ∧ a.base = some base ∧
        (⟨8⟩ = e ∨ a.member = some ⟨8⟩) ∧
        LeadsInto (borrowerTree.resolve {}).tree borrowerUnit.scopes ⟨2⟩ base := by
  have hdocument : Tree.ofSyntax borrower = .ok borrowerTree := rfl
  have hresolve : (borrowerTree.resolve {}).result = .ok borrowerUnit := by decide +kernel
  have ho : borrowerUnit.scopes.get? ⟨2⟩ = some ⟨.block, ⟨2⟩, some ⟨1⟩⟩ := rfl
  have hkind : ScopeKind.block ≠ .record := by decide
  have hd : ⟨0⟩ ∈ borrowerUnit.scopes.lookup ⟨3⟩ "x" := by decide +kernel
  have hnested : ⟨2⟩ ∈ (borrowerUnit.scopes.ancestors ⟨3⟩).map Prod.fst := by decide +kernel
  have hr : (borrowerTree.resolve {}).tree.resolution? ⟨8⟩ = some (.single ⟨0⟩) := by decide +kernel
  have hout : ¬ (borrowerTree.resolve {}).tree.Below ⟨2⟩ ⟨8⟩ := by decide +kernel
  exact ⟨hdocument, hresolve, ho, hkind, hd, hnested, hr, hout,
    leadsInto_of_resolve hdocument hresolve ho hkind hd hnested hr (List.mem_singleton_self _) hout⟩

/-- The field of a struct that is local to one function is bound by an access in another. -/
theorem bound_outside_block :
    Tree.ofSyntax borrower = .ok borrowerTree ∧ (borrowerTree.resolve {}).result = .ok borrowerUnit ∧
      borrowerUnit.scopes.get? ⟨2⟩ = some ⟨.block, ⟨2⟩, some ⟨1⟩⟩ ∧
      ⟨0⟩ ∈ borrowerUnit.scopes.lookup ⟨3⟩ "x" ∧ ⟨2⟩ ∈ (borrowerUnit.scopes.ancestors ⟨3⟩).map Prod.fst ∧
      (borrowerTree.resolve {}).tree.resolution? ⟨8⟩ = some (.single ⟨0⟩) ∧
      ¬ (borrowerTree.resolve {}).tree.Below ⟨2⟩ ⟨8⟩ := by
  refine ⟨rfl, ?_, rfl, ?_, ?_, ?_, ?_⟩
  · decide +kernel
  · decide +kernel
  · decide +kernel
  · decide +kernel
  · decide +kernel

end NameResolution
