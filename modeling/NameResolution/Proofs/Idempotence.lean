import NameResolution.Proofs.Binding.Again
import NameResolution.Proofs.BindingSoundness
import NameResolution.Proofs.ImplicitReceiver
import NameResolution.Proofs.Registration.Again

/-!
# Passes over a resolved tree

A second pass over the tree that a pass has led to succeeds and registers the same. It binds everything as
before if and only if every receiver is found again. The first pass binds the base of an access that it
writes out to the receiver and the member to the field; the second pass looks up the base by its name, and
the member in the record that the text of the receiver's type names.
-/
namespace NameResolution
open NameResolution.Tree ScopeTree

/-- The unit of a pass that registers the same and makes the bindings `b`. -/
def ResolvedUnit.rebound (u : ResolvedUnit) (b : Bindings) : ResolvedUnit :=
  { u with
    unresolved := b.unresolved
    resolved := b.resolved
    implicitMembers := b.implicitMembers
    state := .resolved }

/-- Seen from the node `id`, the name of the receiver for `owner` denotes the receiver, and the text of its
type names `owner`. -/
inductive FoundAgain (c : Binding.Context) (T : Tree) (id owner : NodeId) : Prop
  | intro {inner field name typeName scope} (receiver : Binding.Receiver T c.scopes id owner inner field)
      (node : T.get? field = some (implicitNode field inner name typeName))
      (named : Denotes T c.scopes c.policy .value name (T.enclosingScopes c.scopes id) (.single field))
      (around : T.enclosingScope? c.scopes id = some scope)
      (typed : Binding.recordOfType? c T typeName scope = some owner)

/-- Every plain name of `t` that denotes a field of an instance finds its receiver again in `T`. -/
def ReceiversFoundAgain (config : Config) (t T : Tree) (u : ResolvedUnit) : Prop :=
  ∀ id n r f owner, t.get? id = some n → n.payload = .reference r → ¬ t.IsMemberHalf id →
    NamesField t T u.scopes config.ambiguity id n f owner → FoundAgain (u.context config) T id owner

/-- Whatever is bound in `T` is bound to the same in `T₂`. -/
def SameBindings (T T₂ : Tree) : Prop := ∀ x r, T.resolution? x = some r → T₂.resolution? x = some r

namespace Tree.Pass
variable {config : Config} {t t' T T₂ : Tree} {u : ResolvedUnit} {b : Bindings} {id x : NodeId} {n : Node}
  {r : Resolution}

/-- Registration goes over a later tree and changes nothing: it does the same again, unless it treats duplicates
otherwise and ends in an error. -/
theorem registration_comesAgain (h : Pass config t t' T u) {later : Config}
    (hlater : later.separator = config.separator) (ht₂ : T₂.WellFormed) (hext : T.Extends T₂)
    (hsame : T.SameDeclarations T₂) :
    Registration.ComesAgain config later T₂ ⟨t', u.scopes, u.duplicates⟩
      (runSteps (Registration.exec later) (Registration.steps T₂ T₂.depthLimit u.root) { tree := T₂ }) := by
  obtain ⟨n, hn, -, -⟩ := h.proper.root_parent h.root_eq
  have hT := h.bound.proper.toWellFormed
  rw [Registration.steps_again h.proper.toWellFormed ht₂ (h.toExtends.trans hext) hn (t.lt_depthLimit u.root)
    (T₂.lt_depthLimit u.root)]
  exact Registration.rerun hlater h.proper ht₂ hn h.root_not_implicit
    (h.registered_end.sameDeclarations hT hext hsame) (h.bound.toExtends.trans hext)
    (SameDeclarations.trans h.bound.same hsame) (List.append_nil _).symm h.registration

/-- Registration goes over the tree again and changes nothing. -/
theorem registers_again (h : Pass config t t' T u) :
    Registers config T u.root ⟨T, u.scopes, u.duplicates⟩ := by
  have hT := h.bound.proper
  refine ⟨hT, rfl, h.toExtends.root.trans h.root_eq, ?_⟩
  exact (h.registration_comesAgain rfl hT.toWellFormed (.refl T) (SameDeclarations.refl T)).resolve_right
    fun hno => hno.1 rfl

theorem bindingSteps_again (h : Pass config t t' T u) :
    T.bindingSteps u.scopes u.root = (t'.bindingSteps u.scopes u.root).flatMap (Binding.Step.again T) := by
  obtain ⟨n, hn, -, -⟩ := h.registered.proper.root_parent h.root_eq'
  exact Binding.steps_again (c := u.context config) h.registered.proper.toWellFormed
    h.bound.proper.toWellFormed h.bound.toExtends h.bound.same h.registered_end.grounded.scopeOf?_of_reference hn
    (t'.lt_depthLimit u.root) (T.lt_depthLimit u.root) h.bound.settled

/-- A pass that has succeeded succeeds again. -/
theorem exists_again (h : Pass config t t' T u) :
    ∃ T₂ b, T.resolve config = ⟨.ok (u.rebound b), T₂⟩ ∧ Pass config T T T₂ (u.rebound b) := by
  have hreg := h.registers_again
  obtain ⟨⟨T₂, b⟩, hrun⟩ := Binding.Invariant.exists_run (c := u.context config) hreg.proper
    h.registered_end.grounded hreg.placed (Binding.steps_pairwise hreg.proper.toWellFormed)
    (h.bindingSteps_again ▸ Binding.fail_not_mem_again h.bound.settled)
  refine ⟨T₂, b, ?_, { hreg with binding := hrun }⟩
  have hbind : runSteps (Binding.exec ⟨u.scopes, config.ambiguity, config.separator⟩)
      (T.bindingSteps u.scopes u.root) { tree := T } = .ok () ⟨T₂, b⟩ := hrun
  rw [resolve_of_registers hreg]
  simp only [hbind]
  rfl

/-- A name that is still a name is bound as before. -/
theorem resolution?_again_name (h : Pass config t t' T u) (h₂ : Pass config T T T₂ (u.rebound b))
    (hn : t'.get? x = some n) {ρ : Resolution} (hp : n.payload = .reference ρ) (hplain : ¬ t'.IsMemberHalf x)
    (hnow : T.get? x = some { n with payload := .reference r }) : T₂.resolution? x = some r := by
  have hwf := h.registered.proper.toWellFormed
  have hplain' : ¬ T.IsMemberHalf x :=
    fun hhalf => hplain (h.bound.toExtends.isMemberHalf hwf h.bound.proper hn hhalf)
  obtain ⟨scope, hinner, hbound⟩ := h.resolution?_name hn hp hplain
  obtain ⟨scope₂, hinner₂, hbound₂⟩ := h₂.resolution?_name hnow rfl hplain'
  obtain rfl : scope = scope₂ :=
    Option.some.inj (hinner.symm.trans ((h.enclosingScope?_eq hn).symm.trans hinner₂))
  have hr : T.resolution? x = some r := by simp [resolution?, hnow, Payload.resolution?]
  calc
    T₂.resolution? x = some (Binding.lexical (u.context config) T₂ n.name scope (T.roleOf x)) := hbound₂
    _ = some (Binding.lexical (u.context config) T n.name scope (t'.roleOf x)) := by
      rw [Binding.lexical_congr (c := u.context config) h.registered_end.grounded h₂.bound.same,
        Binding.roleOf_of_extends h.bound.toExtends hwf hn]
    _ = some r := hbound.symm.trans hr

/-- An access of the registered tree is bound as before if its base is. -/
theorem resolution?_again_access (h : Pass config t t' T u) (h₂ : Pass config T T T₂ (u.rebound b))
    {a : Access} (hn : t'.get? x = some n) (hp : n.payload = .member a)
    (hbase : ∀ base ∈ a.base, ∀ r, T.resolution? base = some r → T₂.resolution? base = some r) :
    T₂.resolution? x = T.resolution? x := by
  have hreg := h.registered
  have hwf := hreg.proper.toWellFormed
  obtain ⟨base, member, scope, r, hb, hm, hinner, hnow, -, hr⟩ := h.exists_access hn hp
  obtain ⟨base₂, member₂, scope₂, r₂, hb₂, -, hinner₂, hnow₂, -, hr₂⟩ := h₂.exists_access hnow rfl
  obtain rfl : base = base₂ := Option.some.inj (hb.symm.trans hb₂)
  obtain rfl : scope = scope₂ :=
    Option.some.inj (hinner.symm.trans ((h.enclosingScope?_eq hn).symm.trans hinner₂))
  obtain ⟨m, hm, -⟩ := h.bound.proper.parent_of_child hnow (Binding.base_mem_children rfl hb)
  have hrecord : Binding.recordOfBase? (u.context config) T₂ base scope =
      Binding.recordOfBase? (u.context config) T base scope :=
    Binding.recordOfBase?_again h.registered_end.grounded h₂.bound.same hm (hbase base hb) scope
  have hsame : r₂ = r := by
    calc
      r₂ = Binding.memberOf (u.context config) T (Binding.recordOfBase? (u.context config) T₂ base scope)
          n.name (T.roleOf x) := hr₂
      _ = Binding.memberOf (u.context config) t' (Binding.recordOfBase? (u.context config) T base scope)
          n.name (t'.roleOf x) := by
        rw [hrecord, Binding.memberOf_congr (c := u.context config) hreg.grounded h.bound.same,
          Binding.roleOf_of_extends h.bound.toExtends hwf hn]
      _ = r := hr.symm
  simp [resolution?, hnow, hnow₂, hsame, Payload.resolution?]

/-- The base of an access that was written out is bound as before if and only if its name denotes the
receiver. -/
theorem base_again_iff (h : Pass config t t' T u) (h₂ : Pass config T T T₂ (u.rebound b))
    {f owner base member inner field : NodeId} {name typeName : String} {scope : ScopeId}
    (hout : WrittenOut t T u.scopes id n f owner base member inner field)
    (hfield : T.get? field = some (implicitNode field inner name typeName))
    (hinner : T.enclosingScope? u.scopes id = some scope) :
    T₂.resolution? base = some (.single field) ↔
      Denotes T u.scopes config.ambiguity .value name (T.enclosingScopes u.scopes id) (.single field) := by
  have hT := h.bound.proper
  have hreg := h.registered_end
  obtain ⟨m, hm, hbaseNode⟩ := hout.baseNode
  rw [hfield] at hm
  cases hm
  have hchild := @Binding.base_mem_children base
    { n with payload := .member ⟨some base, some member, true, .single f⟩ } _ rfl rfl
  -- The base stands in the scope of the access.
  obtain ⟨scope', hinner', hbound⟩ := h₂.resolution?_name hbaseNode rfl
    (Binding.base_not_half hT hout.node rfl rfl rfl)
  have hscope : T.enclosingScope? u.scopes base = some scope := by
    rw [hT.enclosingScope?_of_child hout.node hchild, hreg.grounded.scopeOf?_of_reference hout.node rfl]
    exact hinner
  obtain rfl : scope = scope' := Option.some.inj (hscope.symm.trans hinner')
  have hlexical : T₂.resolution? base = some (Binding.lexical (u.context config) T name scope .value) := by
    rw [hbound, Binding.roleOf_of_child hT.toWellFormed hout.node hchild]
    exact congrArg some (Binding.lexical_congr (c := u.context config) hreg.grounded h₂.bound.same name scope
      .value)
  rw [hlexical, Option.some.injEq]
  exact (Binding.denotes_iff (c := u.context config) hreg hT.toWellFormed hinner).symm

/-- Where the base is bound as before, the access is if and only if the type of the receiver names the
record. -/
theorem access_again_iff (h : Pass config t t' T u) (h₂ : Pass config T T T₂ (u.rebound b))
    {f owner base member inner field : NodeId} {name typeName : String} {scope : ScopeId}
    (hn : t.get? id = some n) (hnames : NamesField t T u.scopes config.ambiguity id n f owner)
    (hout : WrittenOut t T u.scopes id n f owner base member inner field)
    (hfield : T.get? field = some (implicitNode field inner name typeName))
    (hinner : T.enclosingScope? u.scopes id = some scope)
    (hbound : T₂.resolution? base = some (.single field)) :
    T₂.resolution? id = some (.single f) ↔
      Binding.recordOfType? (u.context config) T typeName scope = some owner := by
  have hreg := h.registered_end
  have hrecord : Binding.recordOfBase? (u.context config) T₂ base scope =
      Binding.recordOfType? (u.context config) T typeName scope := by
    rw [Binding.recordOfBase?_of_resolution hbound, Resolution.single?, Option.bind_some,
      Binding.recordOfDeclaration?_congr (c := u.context config) hreg.grounded h₂.bound.same]
    simp [Binding.recordOfDeclaration?, hfield, implicitNode, Payload.kind, Payload.typeName?]
  have hvalue : T.roleOf id = .value :=
    (Binding.roleOf_of_extends h.toExtends h.proper.toWellFormed hn).trans hnames.value
  obtain ⟨base', member', scope', r, hb, -, hinner', hnow, -, hr⟩ := h₂.exists_access hout.node rfl
  cases hb
  obtain rfl : scope = scope' := Option.some.inj (hinner.symm.trans hinner')
  have hmember : T₂.resolution? id = some (Binding.memberOf (u.context config) T
      (Binding.recordOfType? (u.context config) T typeName scope) n.name .value) := by
    rw [resolution?, hnow, Option.bind_some, hr, hvalue, ← hrecord]
    rfl
  -- The name of the field is declared in the scope of its record, and denotes the field there.
  obtain ⟨s, sc, hsc, -, rfl, hmem⟩ := hnames.field.declared
  obtain ⟨n', hn', -⟩ := h.registered.toExtends.node hn
  have hlexical := (h.denotes_iff hn ((h.enclosingScope?_eq hn').symm.trans hinner)).mp hnames.denotes
  obtain ⟨-, -, happly⟩ := Binding.exists_scope_of_lexical (c := u.context config) hreg hlexical hmem
  rw [hmember, Option.some.injEq]
  exact Binding.memberOf_eq_iff hreg (hreg.opened hsc) happly rfl

/-- An access that was written out is bound as before, with its base, if and only if its receiver is found
again. -/
theorem foundAgain_iff (h : Pass config t t' T u) (h₂ : Pass config T T T₂ (u.rebound b))
    {f owner base member inner field : NodeId} (hn : t.get? id = some n)
    (hnames : NamesField t T u.scopes config.ambiguity id n f owner)
    (hout : WrittenOut t T u.scopes id n f owner base member inner field) :
    T₂.resolution? base = some (.single field) ∧ T₂.resolution? id = some (.single f) ↔
      FoundAgain (u.context config) T id owner := by
  obtain ⟨name, typeName, hfield⟩ := hout.receiver.node
  obtain ⟨_, _, scope, _, -, -, hinner, -⟩ := h₂.exists_access hout.node rfl
  constructor
  · rintro ⟨hbound, haccess⟩
    exact .intro hout.receiver hfield ((h.base_again_iff h₂ hout hfield hinner).mp hbound) hinner
      ((h.access_again_iff h₂ hn hnames hout hfield hinner hbound).mp haccess)
  · rintro ⟨receiver, node, named, around, typed⟩
    obtain ⟨rfl, rfl⟩ := hout.receiver.unique (c := u.context config) h.bound.proper.toWellFormed
      h.registered_end receiver
    have hbound := (h.base_again_iff h₂ hout node around).mpr named
    exact ⟨hbound, (h.access_again_iff h₂ hn hnames hout node around hbound).mpr typed⟩

/-- Where a name or an access that is no member half comes from. -/
inductive Origin (config : Config) (t t' T : Tree) (u : ResolvedUnit) (x : NodeId) : Prop
  | name {n ρ r} (node : t'.get? x = some n) (payload : n.payload = .reference ρ)
      (plain : ¬ t'.IsMemberHalf x) (now : T.get? x = some { n with payload := .reference r })
  | access {n a} (node : t'.get? x = some n) (payload : n.payload = .member a)
  | writtenOut {id n ρ f owner base member inner field} (node : t.get? id = some n)
      (payload : n.payload = .reference ρ) (plain : ¬ t.IsMemberHalf id)
      (names : NamesField t T u.scopes config.ambiguity id n f owner)
      (out : WrittenOut t T u.scopes id n f owner base member inner field) (at_ : x = id ∨ x = base)

/-- The plain names of a registered tree were there before. -/
theorem plain_before (h : Pass config t t' T u) {ρ : Resolution} (hn : t'.get? id = some n)
    (hp : n.payload = .reference ρ) (hplain : ¬ t'.IsMemberHalf id) :
    t.get? id = some n ∧ ¬ t.IsMemberHalf id := by
  have hreg := h.registered
  refine ⟨?_, fun hhalf => hplain (hreg.toExtends.isMemberHalf_of hhalf)⟩
  rcases hreg.proper.exists_or_implicit h.proper.toWellFormed hreg.toExtends hreg.keeps hn with
    ⟨m, hm⟩ | ⟨d, hd, -⟩
  · have hkind : m.kind ≠ .recordDecl := by
      obtain ⟨n', hn', hb⟩ := hreg.toExtends.node hm
      rw [hn] at hn'
      cases hn'
      intro hrecord
      have hk := hb.payload.kind_recordDecl_iff.mpr hrecord
      rw [hp] at hk
      cases hk
    have hm' := hreg.keeps hm hkind
    rw [hn] at hm'
    cases hm'
    exact hm
  · rw [hp] at hd
    cases hd

/-- A name that is written out was there before, and denotes a field of an instance. -/
theorem writtenOut_before (h : Pass config t t' T u) {ρ : Resolution} {scope : ScopeId} {w : Binding.ImplicitAccess}
    (hn : t'.get? id = some n) (hp : n.payload = .reference ρ) (hplain : ¬ t'.IsMemberHalf id)
    (hinner : t'.enclosingScope? u.scopes id = some scope)
    (hw : Binding.written? (u.context config) t' n.name scope (t'.roleOf id) = some w) :
    t.get? id = some n ∧ ¬ t.IsMemberHalf id ∧ ∃ owner base member inner field,
      NamesField t T u.scopes config.ambiguity id n w.field owner ∧
        WrittenOut t T u.scopes id n w.field owner base member inner field := by
  obtain ⟨hn, hnoHalf⟩ := h.plain_before hn hp hplain
  obtain ⟨owner, hnames⟩ := (h.namesField_iff hn hinner).mpr ⟨w, hw, rfl⟩
  obtain ⟨base, member, inner, field, hout⟩ := h.exists_writtenOut hn hp hnoHalf hnames
  exact ⟨hn, hnoHalf, owner, base, member, inner, field, hnames, hout⟩

theorem origin (h : Pass config t t' T u) (hr : T.resolution? x = some r) (hplain : ¬ T.IsMemberHalf x) :
    Origin config t t' T u x := by
  cases h.boundAs hr with
  | name node payload plain _ now => exact .name node payload plain now
  | field node payload plain inner isWritten now _ at_ =>
    rcases at_ with rfl | rfl
    · obtain ⟨hm, hnoHalf, owner, base, member, inner, field, hnames, hout⟩ :=
        h.writtenOut_before node payload plain inner isWritten
      exact .writtenOut hm payload hnoHalf hnames hout (.inl rfl)
    · exact absurd ⟨_, _, _, now, rfl, rfl⟩ hplain
  | receiver node payload plain inner isWritten now =>
    obtain ⟨hm, hnoHalf, owner, base, member, inner, field, hnames, hout⟩ :=
      h.writtenOut_before node payload plain inner isWritten
    have hbase : x = base := by
      have hnode := hout.node
      rw [now] at hnode
      cases hnode
      rfl
    exact .writtenOut hm payload hnoHalf hnames hout (.inr hbase)
  | access node payload _ hasMember _ now _ _ _ at_ =>
    rcases at_ with rfl | rfl
    · exact .access node payload
    · exact absurd ⟨_, _, _, now, rfl, hasMember⟩ hplain

/-- A name or an access that is no member half is bound as before if every receiver is found again. -/
theorem resolution?_again (h : Pass config t t' T u) (h₂ : Pass config T T T₂ (u.rebound b))
    (hfound : ReceiversFoundAgain config t T u) (hx : T.resolution? x = some r) (hplain : ¬ T.IsMemberHalf x) :
    T₂.resolution? x = some r := by
  have hT := h.bound.proper
  obtain ⟨n, hn, -⟩ := Option.bind_eq_some_iff.mp hx
  -- A base stands below its access.
  refine hT.toWellFormed.induction_children (P := fun x => ∀ r, T.resolution? x = some r →
    ¬ T.IsMemberHalf x → T₂.resolution? x = some r) ?_ hn r hx hplain
  intro x n hn ih r hr hplain
  have hbound : n.payload.resolution? = some r := by rwa [resolution?, hn] at hr
  cases h.origin hr hplain with
  | name node payload plain now =>
    rw [hn] at now
    cases now
    cases hbound
    exact h.resolution?_again_name h₂ node payload plain hn
  | access node payload =>
    obtain ⟨base, member, _, _, hb, hm, -, now, -⟩ := h.exists_access node payload
    rw [hn] at now
    cases now
    rw [← hr]
    refine h.resolution?_again_access h₂ node payload fun base hb r hr => ?_
    exact ih base (Binding.base_mem_children rfl hb) r hr (Binding.base_not_half hT hn rfl hb hm)
  | writtenOut node payload plain names out at_ =>
    obtain ⟨hbase, haccess⟩ :=
      (h.foundAgain_iff h₂ node names out).mpr (hfound _ _ _ _ _ node payload plain names)
    obtain ⟨m, -, hbaseNode⟩ := out.baseNode
    rcases at_ with rfl | rfl
    · rw [haccess, ← hr, resolution?_of_get? out.node rfl]
    · rw [hbase, ← hr, resolution?_of_get? hbaseNode rfl]

/-- Everything is bound as before if every receiver is found again. -/
theorem sameBindings (h : Pass config t t' T u) (h₂ : Pass config T T T₂ (u.rebound b))
    (hfound : ReceiversFoundAgain config t T u) : SameBindings T T₂ := by
  intro x r hx
  by_cases hhalf : T.IsMemberHalf x
  · -- Either pass binds a member half with its access.
    obtain ⟨e, k, a, hk, hp, ha⟩ := hhalf
    obtain ⟨m, hm, hbound⟩ := (h.chosen hk (by rw [hp]; rfl)).halves a hp
    rw [ha] at hm
    cases hm
    rw [hx] at hbound
    cases hbound
    have hagain := h.resolution?_again h₂ hfound (resolution?_of_get? hk (by rw [hp]; rfl))
      (h.bound.proper.not_isMemberHalf_of_member hk hp)
    obtain ⟨_, member, _, r₂, -, hm, -, now, hhalf₂, -⟩ := h₂.exists_access hk hp
    rw [ha] at hm
    cases hm
    rw [hhalf₂, ← hagain, resolution?_of_get? now rfl]
  · exact h.resolution?_again h₂ hfound hx hhalf

/-- Where everything is bound as before, the same references are unresolved. -/
theorem unresolved_again (h : Pass config t t' T u) (h₂ : Pass config T T T₂ (u.rebound b))
    (hsame : SameBindings T T₂) : b.unresolved = u.unresolved := by
  have hbound := h.bound
  refine Array.toList_inj.mp ?_
  rw [show b.unresolved.toList = _ from h₂.bound.unresolved,
    show u.unresolved.toList = _ from hbound.unresolved,
    show T.bindingSteps (u.rebound b).scopes (u.rebound b).root = _ from h.bindingSteps_again,
    List.flatMap_assoc]
  refine List.flatMap_congr fun s hs => ?_
  cases hbound.settled s hs with
  | bound node _ now =>
    have hr := resolution?_of_get? now rfl
    rw [Binding.Step.again_of_reference now rfl, List.flatMap_singleton, Binding.Step.unresolvedIn,
      Binding.Step.unresolvedIn, hsame _ _ hr, hr]
  | written _ _ _ _ now baseNow memberNow =>
    -- Neither the base nor the member is unresolved, and the name was not.
    have hr := resolution?_of_get? now rfl
    have hbase := hsame _ _ (resolution?_of_get? baseNow rfl)
    have hmember := hsame _ _ (resolution?_of_get? memberNow rfl)
    rw [Binding.Step.again_of_access now rfl rfl rfl]
    simp [Binding.Step.unresolvedIn, hr, hbase, hmember]
  | access _ _ _ _ halfNow =>
    have hr := resolution?_of_get? halfNow rfl
    rw [Binding.Step.again_access, List.flatMap_singleton, Binding.Step.unresolvedIn,
      Binding.Step.unresolvedIn, hsame _ _ hr, hr]

end Tree.Pass

/-- After a pass that succeeds a second one succeeds and registers the same. It makes the same bindings, and
leaves the same references unresolved, if and only if every receiver is found again. -/
theorem resolve_again_iff {document : SyntaxNode} {config : Config} {t : Tree} {u : ResolvedUnit}
    (hdocument : Tree.ofSyntax document = .ok t) (hresolve : (t.resolve config).result = .ok u) :
    ∃ u₂, ((t.resolve config).tree.resolve config).result = .ok u₂ ∧ u₂.scopes = u.scopes ∧
      u₂.duplicates = u.duplicates ∧
      (SameBindings (t.resolve config).tree ((t.resolve config).tree.resolve config).tree ∧
          u₂.unresolved = u.unresolved ↔
        ReceiversFoundAgain config t (t.resolve config).tree u) := by
  obtain ⟨t', h⟩ := exists_pass (proper_of_ofSyntax hdocument config.separator) hresolve
  obtain ⟨T₂, b, hagain, h₂⟩ := h.exists_again
  rw [hagain]
  refine ⟨u.rebound b, rfl, rfl, rfl, ?_, ?_⟩
  · rintro ⟨hsame, -⟩ id n r f owner hn hp hplain hnames
    obtain ⟨base, member, inner, field, hout⟩ := h.exists_writtenOut hn hp hplain hnames
    obtain ⟨m, -, hbase⟩ := hout.baseNode
    exact (h.foundAgain_iff h₂ hn hnames hout).mp
      ⟨hsame _ _ (resolution?_of_get? hbase rfl), hsame _ _ (resolution?_of_get? hout.node rfl)⟩
  · intro hfound
    have hsame := h.sameBindings h₂ hfound
    exact ⟨hsame, h.unresolved_again h₂ hsame⟩

theorem resolve_again_iff_count :
    Tree.ofSyntax counter = .ok counterTree ∧ (counterTree.resolve {}).result = .ok counterUnit ∧
      ∃ u₂, ((counterTree.resolve {}).tree.resolve {}).result = .ok u₂ ∧ u₂.scopes = counterUnit.scopes ∧
        u₂.duplicates = counterUnit.duplicates ∧
        (SameBindings (counterTree.resolve {}).tree ((counterTree.resolve {}).tree.resolve {}).tree ∧
            u₂.unresolved = counterUnit.unresolved ↔
          ReceiversFoundAgain {} counterTree (counterTree.resolve {}).tree counterUnit) := by
  have hdocument : Tree.ofSyntax counter = .ok counterTree := rfl
  have hresolve : (counterTree.resolve {}).result = .ok counterUnit := by decide +kernel
  exact ⟨hdocument, hresolve, resolve_again_iff hdocument hresolve⟩

/-- A class with two methods that each have a local class of one name. -/
def locals : SyntaxNode :=
  let node := SyntaxNode.mk none none
  let method (name : String) (statement : SyntaxNode) : SyntaxNode :=
    node <| .methodDecl name false [] (some <| node <| .compound [statement])
  let localClass (field : String) : SyntaxNode :=
    node <| .recordDecl "L" .classRecord [
      node <| .fieldDecl field (some "int") false none,
      method "get" (node <| .returnStatement (some <| node <| .reference field))]
  node <| .translationUnit "A.java" [node <| .recordDecl "A" .classRecord [
    method "m1" (localClass "x"), method "m2" (localClass "y")]]

def localsTree : Tree := (locals.lower.run {}).2

/-- The second class goes by the qualified name of the first, so that its receiver leads to the first. -/
theorem resolve_again_locals :
    Tree.ofSyntax locals = .ok localsTree ∧
      (localsTree.resolve {}).result.map ResolvedUnit.unresolved = .ok #[] ∧
      ((localsTree.resolve {}).tree.resolve {}).result.map ResolvedUnit.unresolved = .ok #[⟨26⟩] ∧
      (localsTree.resolve {}).tree.resolution? ⟨9⟩ = some (.single ⟨8⟩) ∧
      ((localsTree.resolve {}).tree.resolve {}).tree.resolution? ⟨9⟩ = some .unresolved := by
  refine ⟨rfl, ?_, ?_, ?_, ?_⟩
  · decide +kernel
  · decide +kernel
  · decide +kernel
  · decide +kernel

end NameResolution
