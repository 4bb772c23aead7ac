import NameResolution.Proofs.Binding.Receiver
import NameResolution.Proofs.LexicalBinding

/-!
# Accesses through implicit receivers

A plain name is written out to an access if and only if it is a value that denotes a field of an instance. The
access goes through `this` of the innermost record around the name, or through the field of that record
for the instance of the record around it that declares the field.
-/
namespace NameResolution
open NameResolution.Tree ScopeTree

/-- `f` is a field that stands in the text, belongs to instances and is declared under `name` in the scope of
the record `owner`. -/
structure IsFieldOf (T : Tree) (S : ScopeTree) (name : String) (f owner : NodeId) : Prop where
  field : ∃ m d, T.get? f = some m ∧ m.payload = .fieldDecl d ∧ d.isStatic = false ∧ d.isImplicit = false
  declared : ∃ s sc, S.get? s = some sc ∧ sc.kind = .record ∧ sc.owner = owner ∧ f ∈ S.lookup s name

/-- The plain name `id` of `t` is a value and denotes the field `f` of `owner`. -/
structure NamesField (t T : Tree) (S : ScopeTree) (policy : AmbiguityPolicy) (id : NodeId) (n : Node)
    (f owner : NodeId) : Prop where
  value : t.roleOf id = .value
  denotes : Denotes T S policy .value n.name (t.enclosingScopes S id) (.single f)
  field : IsFieldOf T S n.name f owner

/-- The plain name `id` of `t` is in `T` an access to the field `f` of `owner`: the node is the same but for
what it holds, and below it stand two new names, the base and the member half. -/
structure WrittenOut (t T : Tree) (S : ScopeTree) (id : NodeId) (n : Node)
    (f owner base member inner field : NodeId) : Prop where
  node : T.get? id = some { n with payload := .member ⟨some base, some member, true, .single f⟩ }
  distinct : base ≠ member
  freshBase : t.get? base = none
  freshMember : t.get? member = none
  memberNode : T.get? member = some ⟨member, n.name, n.region, some id, .reference (.single f)⟩
  baseNode : ∃ m, T.get? field = some m ∧
    T.get? base = some ⟨base, m.name, n.region, some id, .reference (.single field)⟩
  receiver : Binding.Receiver T S id owner inner field

namespace Tree.Pass
variable {config : Config} {t t' T : Tree} {u : ResolvedUnit} {id : NodeId} {n : Node} {scope : ScopeId}

theorem isFieldOf_iff (h : Pass config t t' T u) {name : String} {f owner : NodeId} :
    IsFieldOf T u.scopes name f owner ↔
      (t'.get? f).any (·.payload.isInstanceField) = true ∧
        ∃ s sc, u.scopes.get? s = some sc ∧ sc.kind = .record ∧ sc.owner = owner ∧
          f ∈ u.scopes.lookup s name := by
  have hfield : ∀ {s}, f ∈ u.scopes.lookup s name → T.get? f = t'.get? f :=
    fun hf => h.walked.grounded.get?_of_mem_lookup h.bound.same hf
  constructor
  · rintro ⟨⟨m, d, hm, hp, hstatic, himplicit⟩, s, sc, hsc, hk, ho, hmem⟩
    refine ⟨?_, s, sc, hsc, hk, ho, hmem⟩
    rw [← hfield hmem, hm, Option.any_some, hp]
    simp [Payload.isInstanceField, hstatic, himplicit]
  · rintro ⟨hinstance, s, sc, hsc, hk, ho, hmem⟩
    refine ⟨?_, s, sc, hsc, hk, ho, hmem⟩
    rw [← hfield hmem, Option.any_eq_true] at hinstance
    obtain ⟨⟨_, _, _, _, payload⟩, hm, hinstance⟩ := hinstance
    cases payload <;> simp_all [Payload.isInstanceField]

/-- Which plain names are written out, and to what. -/
theorem written?_iff (h : Pass config t t' T u)
    (hinner : t'.enclosingScope? u.scopes id = some scope) {role : Role} {f : NodeId} :
    (∃ w, Binding.written? (u.context config) t' n.name scope role = some w ∧ w.field = f) ↔
      role = .value ∧ Binding.lexical (u.context config) T n.name scope role = .single f ∧
        ∃ owner, IsFieldOf T u.scopes n.name f owner := by
  have hreg := h.registered
  have hwf := hreg.proper.toWellFormed
  rw [Binding.lexical_congr (c := u.context config) hreg.grounded h.bound.same]
  constructor
  · rintro ⟨w, hw, rfl⟩
    obtain ⟨hrole, hlexical, hinstance, s, sc, hs, hk, hmem, -⟩ :=
      (Binding.written?_eq_some_iff hreg.registered).mp hw
    have hsc := Registration.Nested.get?_of_mem_climb hs
    exact ⟨hrole, hlexical, sc.owner, h.isFieldOf_iff.mpr ⟨hinstance, s, sc, hsc, hk, rfl, hmem⟩⟩
  · rintro ⟨rfl, hlexical, owner, hfield⟩
    obtain ⟨hinstance, s, sc, hsc, hk, rfl, hmem⟩ := h.isFieldOf_iff.mp hfield
    obtain ⟨sc', hs, -⟩ :=
      Binding.exists_scope_of_lexical (c := u.context config) hreg.registered hlexical hmem
    obtain rfl : sc' = sc := Option.some.inj ((Registration.Nested.get?_of_mem_climb hs).symm.trans hsc)
    obtain ⟨inner, field, m, hreceiver, -, -⟩ :=
      Binding.exists_receiver (c := u.context config) hreg.registered hwf hinner hs hk
    exact ⟨⟨m.name, field, f⟩, (Binding.written?_eq_some_iff hreg.registered).mpr
      ⟨rfl, hlexical, hinstance, s, sc', hs, hk, hmem, hreceiver⟩, rfl⟩

/-- The access that stands for a name that has been written out. -/
theorem writtenOut_of_settled (h : Pass config t t' T u) (hn : t'.get? id = some n)
    (hinner : t'.enclosingScope? u.scopes id = some scope) {role : Role} {w : Binding.ImplicitAccess}
    (hw : Binding.written? (u.context config) t' n.name scope role = some w)
    (hsettled : Binding.Settled (u.context config) t' T (.name id scope role)) {owner : NodeId}
    (hfield : IsFieldOf T u.scopes n.name w.field owner) :
    ∃ base member inner, WrittenOut t T u.scopes id n w.field owner base member inner w.base := by
  have hreg := h.registered
  have hwf := hreg.proper.toWellFormed
  obtain ⟨s, sc, inner, m, hsc, hmem, hm, hname, hreceiver⟩ :=
    Binding.receiver_of_written (c := u.context config) hreg.registered hwf hinner hw
  -- The field is declared once, so its record is the one that the receiver is for.
  have howner : sc.owner = owner := by
    obtain ⟨-, s', sc', hsc', -, rfl, hmem'⟩ := h.isFieldOf_iff.mp hfield
    obtain ⟨rfl, -⟩ := hreg.registered.lookup_unique hmem hmem'
    rw [Option.some.inj (hsc.symm.trans hsc')]
  cases hsettled with
  | bound node notWritten =>
    rw [hn] at node
    cases node
    rw [hw] at notWritten
    cases notWritten
  | @written _ _ _ _ w' base member node isWritten freshBase freshMember now baseNow memberNow =>
    rw [hn] at node
    cases node
    rw [hw] at isWritten
    cases isWritten
    refine ⟨base, member, inner, now, ?_, hreg.toExtends.get?_eq_none freshBase,
      hreg.toExtends.get?_eq_none freshMember, memberNow, ⟨m, ?_, hname ▸ baseNow⟩,
      howner ▸ hreceiver.mono hwf hn h.bound.toExtends h.bound.same⟩
    · exact Binding.base_ne_member h.bound.proper.toWellFormed now rfl rfl rfl
    · obtain ⟨_, _, hnode⟩ := hreceiver.node
      rw [hm] at hnode
      exact (h.bound.same (by rw [Option.some.inj hnode]; rfl)).mpr hm

/-- The plain names that denote a field of an instance are those that are written out. -/
theorem namesField_iff (h : Pass config t t' T u) (hn : t.get? id = some n)
    (hinner : t'.enclosingScope? u.scopes id = some scope) {f : NodeId} :
    (∃ owner, NamesField t T u.scopes config.ambiguity id n f owner) ↔
      ∃ w, Binding.written? (u.context config) t' n.name scope (t'.roleOf id) = some w ∧ w.field = f := by
  rw [h.written?_iff hinner, Binding.roleOf_of_extends h.registered.toExtends h.proper.toWellFormed hn]
  constructor
  · rintro ⟨owner, hvalue, hdenotes, hfield⟩
    exact ⟨hvalue, hvalue ▸ (h.denotes_iff hn hinner).mp hdenotes, owner, hfield⟩
  · rintro ⟨hvalue, hlexical, owner, hfield⟩
    exact ⟨owner, hvalue, (h.denotes_iff hn hinner).mpr (hvalue ▸ hlexical), hfield⟩

/-- A plain name that denotes a field of an instance is written out. -/
theorem exists_writtenOut (h : Pass config t t' T u) (hn : t.get? id = some n) {r : Resolution}
    (hp : n.payload = .reference r) (hplain : ¬ t.IsMemberHalf id) {f owner : NodeId}
    (hnames : NamesField t T u.scopes config.ambiguity id n f owner) :
    ∃ base member inner field, WrittenOut t T u.scopes id n f owner base member inner field := by
  obtain ⟨hn', hplain'⟩ := h.plain_registered hn hp hplain
  obtain ⟨scope, hinner, -, hsettled⟩ := h.exists_name hn' hp hplain'
  obtain ⟨w, hw, rfl⟩ := (h.namesField_iff hn hinner).mp ⟨owner, hnames⟩
  obtain ⟨base, member, inner, hout⟩ := h.writtenOut_of_settled hn' hinner hw hsettled hnames.field
  exact ⟨base, member, inner, w.base, hout⟩

/-- A plain name stays a name or denotes a field of an instance. -/
theorem reference_or_namesField (h : Pass config t t' T u) (hn : t.get? id = some n) {r : Resolution}
    (hp : n.payload = .reference r) (hplain : ¬ t.IsMemberHalf id) :
    (∃ bound, T.get? id = some { n with payload := .reference bound }) ∨
      ∃ f owner, NamesField t T u.scopes config.ambiguity id n f owner := by
  obtain ⟨hn', hplain'⟩ := h.plain_registered hn hp hplain
  obtain ⟨scope, hinner, -, hsettled⟩ := h.exists_name hn' hp hplain'
  cases hsettled with
  | bound node _ now =>
    rw [hn'] at node
    cases node
    exact .inl ⟨_, now⟩
  | written node isWritten =>
    rw [hn'] at node
    cases node
    exact .inr ⟨_, (h.namesField_iff hn hinner).mpr ⟨_, isWritten, rfl⟩⟩

end Tree.Pass

/-- A plain name becomes an access if and only if it is a value that denotes a field of an instance, and then
the field is reached through the receiver for its record. A member half stays a name. -/
theorem access_iff_namesField {document : SyntaxNode} {config : Config} {t : Tree} {u : ResolvedUnit}
    (hdocument : Tree.ofSyntax document = .ok t) (hresolve : (t.resolve config).result = .ok u) :
    (∀ id n r, t.get? id = some n → n.payload = .reference r → ¬ t.IsMemberHalf id →
      ((∃ k a, (t.resolve config).tree.get? id = some k ∧ k.payload = .member a) ↔
        ∃ f owner, NamesField t (t.resolve config).tree u.scopes config.ambiguity id n f owner) ∧
      ∀ f owner, NamesField t (t.resolve config).tree u.scopes config.ambiguity id n f owner →
        ∃ base member inner field,
          WrittenOut t (t.resolve config).tree u.scopes id n f owner base member inner field) ∧
    ∀ half, t.IsMemberHalf half →
      ∃ k, (t.resolve config).tree.get? half = some k ∧ k.kind = .reference := by
  obtain ⟨t', hpass⟩ := exists_pass (proper_of_ofSyntax hdocument config.separator) hresolve
  constructor
  · intro id n r hn hp hplain
    refine ⟨⟨?_, ?_⟩, fun f owner hnames => hpass.exists_writtenOut hn hp hplain hnames⟩
    · rintro ⟨k, a, hk, hpk⟩
      rcases hpass.reference_or_namesField hn hp hplain with ⟨bound, hnow⟩ | hnames
      · rw [hk] at hnow
        cases hnow
        cases hpk
      · exact hnames
    · rintro ⟨f, owner, hnames⟩
      obtain ⟨base, member, inner, field, h⟩ := hpass.exists_writtenOut hn hp hplain hnames
      exact ⟨_, _, h.node, rfl⟩
  · intro half hhalf
    obtain ⟨e, k, a, hk, hp, ha⟩ := hpass.toExtends.isMemberHalf_of hhalf
    obtain ⟨m, ρ, hm, hρ, -⟩ := hpass.bound.proper.half hk hp ha
    exact ⟨m, hm, by rw [Node.kind, hρ]; rfl⟩

theorem access_iff_namesField_count :
    Tree.ofSyntax counter = .ok counterTree ∧ (counterTree.resolve {}).result = .ok counterUnit ∧
      ∃ f owner base member inner field,
        NamesField counterTree (counterTree.resolve {}).tree counterUnit.scopes .keepAll ⟨1⟩
          ⟨⟨1⟩, "count", none, some ⟨2⟩, .reference .unresolved⟩ f owner ∧
        WrittenOut counterTree (counterTree.resolve {}).tree counterUnit.scopes ⟨1⟩
          ⟨⟨1⟩, "count", none, some ⟨2⟩, .reference .unresolved⟩ f owner base member inner field := by
  have hdocument : Tree.ofSyntax counter = .ok counterTree := rfl
  have hresolve : (counterTree.resolve {}).result = .ok counterUnit := by decide +kernel
  have hplain : ¬ counterTree.IsMemberHalf ⟨1⟩ := by decide +kernel
  have hout : (counterTree.resolve {}).tree.get? ⟨1⟩ =
      some ⟨⟨1⟩, "count", none, some ⟨2⟩, .member ⟨some ⟨8⟩, some ⟨9⟩, true, .single ⟨0⟩⟩⟩ := by decide +kernel
  have hlaw := (access_iff_namesField hdocument hresolve).1 ⟨1⟩ _ _ rfl rfl hplain
  obtain ⟨f, owner, hnames⟩ := hlaw.1.mp ⟨_, _, hout, rfl⟩
  obtain ⟨base, member, inner, field, hwritten⟩ := hlaw.2 f owner hnames
  exact ⟨hdocument, hresolve, f, owner, base, member, inner, field, hnames, hwritten⟩

end NameResolution
