import NameResolution.Proofs.Binding.Invariant
import NameResolution.Proofs.Registration.Invariant
import NameResolution.Resolve

/-!
# Passes

A pass over a proper tree is a run of registration steps and, if that succeeds, a run of binding steps over
the registered tree. Both invariants hold after a pass that succeeds, and a tree stays proper whatever
passes go over it.
-/
namespace NameResolution

def ResolvedUnit.context (u : ResolvedUnit) (config : Config) : Binding.Context :=
  ⟨u.scopes, config.ambiguity, config.separator⟩

def ResolvedUnit.bindings (u : ResolvedUnit) : Bindings := ⟨u.resolved, u.implicitMembers, u.unresolved⟩

def Registration.Progress.unit (p : Registration.Progress) (root : NodeId) (q : Binding.Progress) : ResolvedUnit :=
  ⟨root, p.scopes, p.duplicates, q.bindings.unresolved, q.bindings.resolved, q.bindings.implicitMembers, .resolved⟩

namespace Tree
variable {languages : Set String} {config : Config} {t t' T : Tree} {S : ScopeTree} {root : NodeId}
  {u : ResolvedUnit} {p : Registration.Progress}

def bindingSteps (t : Tree) (S : ScopeTree) (root : NodeId) : List Binding.Step :=
  Binding.steps S t t.depthLimit root ((S.scopeOf? root).getD default) .value

/-- The unit root is the root. -/
theorem unitRoot_eq (ht : t.WellFormed) (hr : t.root = some root) : t.unitRoot = .ok root := by
  obtain ⟨n, hn, hk, -⟩ := ht.root_parent hr
  simp [unitRoot, hr, kind?, hn, hk]

theorem root_of_unitRoot (h : t.unitRoot = .ok root) : t.root = some root := by
  rw [unitRoot] at h
  split at h
  · cases h
  · split at h
    · cases h
      assumption
    · cases h

/-- The root is not of the fields that passes add. -/
theorem WellFormed.root_not_implicit (ht : t.WellFormed) (hr : t.root = some root) :
    ¬ Registration.IsImplicitField t root := by
  rintro ⟨m, f, hm, hf, -⟩
  obtain ⟨n, hn, hk, -⟩ := ht.root_parent hr
  rw [hm] at hn
  cases hn
  rw [Node.kind, hf] at hk
  cases hk

/-- Binding does the steps of the root. -/
theorem bindReferences_eq (ht : t.ProperIn languages) {scope : ScopeId} (hr : t.root = some root)
    (hs : S.scopeOf? root = some scope) :
    t.bindReferences config S root =
      match runSteps (Binding.exec ⟨S, config.ambiguity, config.separator⟩) (t.bindingSteps S root)
        { tree := t } with
      | .ok _ p => ⟨.ok p.bindings, p.tree⟩
      | .error e p => ⟨.error e, p.tree⟩ := by
  obtain ⟨n, hn, -, -⟩ := ht.root_parent hr
  have hrun := @Binding.visit_run t root n scope .value t.depthLimit
    ⟨S, config.ambiguity, config.separator⟩ { tree := t } _ ht hn (t.lt_depthLimit root) fun _ _ _ hm => hm
  rw [bindReferences, bindingSteps, hs, Option.getD_some]
  cases hsteps : runSteps (Binding.exec ⟨S, config.ambiguity, config.separator⟩)
      (Binding.steps S t t.depthLimit root scope .value) { tree := t } with
  | ok _ p => simp only [hrun, hsteps]
  | error e p => simp only [hrun, hsteps]

/-- The first part of a pass over `t`, which earlier passes in the given languages may have changed, succeeds
with the progress `p`. -/
structure RegistersIn (languages : Set String) (config : Config) (t : Tree) (root : NodeId)
    (p : Registration.Progress) : Prop where
  proper : t.ProperIn languages
  language : config.separator ∈ languages
  root_eq : t.root = some root
  registration : runSteps (Registration.exec config) (Registration.steps t t.depthLimit root)
    { tree := t } = .ok () p

/-- All passes are made in one language. -/
abbrev Registers (config : Config) : Tree → NodeId → Registration.Progress → Prop :=
  RegistersIn {config.separator} config

namespace RegistersIn

theorem root_not_implicit (h : RegistersIn languages config t root p) : ¬ Registration.IsImplicitField t root :=
  h.proper.toWellFormed.root_not_implicit h.root_eq

theorem walked (h : RegistersIn languages config t root p) :
    Registration.Walked languages t (Registration.steps t t.depthLimit root) p :=
  .run h.proper h.language h.registration

theorem root_eq' (h : RegistersIn languages config t root p) : p.tree.root = some root :=
  h.walked.toExtends.root.trans h.root_eq

theorem exists_rootScope (h : RegistersIn languages config t root p) : ∃ s, p.scopes.scopeOf? root = some s := by
  obtain ⟨n, hn, hk, -⟩ := h.proper.root_parent h.root_eq
  have hopens : n.payload.opens? = some .translationUnit := by
    obtain ⟨_, _, _, _, payload⟩ := n
    cases payload <;> first | rfl | cases hk
  have hmem : Registration.Step.enter root ∈ Registration.steps t t.depthLimit root :=
    Registration.enter_mem_steps_succ.mpr (.inl rfl)
  exact Option.isSome_iff_exists.mp (h.walked.scope_opened hmem hn hopens)

/-- Every binding step stands where the registered tree says. -/
theorem placed (h : RegistersIn languages config t root p) :
    ∀ s ∈ p.tree.bindingSteps p.scopes root, Binding.Placed p.scopes p.tree s := by
  have hwalked := h.walked
  obtain ⟨s, hs⟩ := h.exists_rootScope
  obtain ⟨n, hn, -, hparent⟩ := hwalked.proper.root_parent h.root_eq'
  intro x hx
  refine Binding.placed_of_mem_steps hwalked.proper hwalked.grounded.scopeOf?_of_reference ?_ ?_ ?_ hx
  · rw [hs]
    rfl
  · simp [roleOf, hn, hparent]
  · intro hhalf
    obtain ⟨_, _, _, k, -, -, -, hk, hke⟩ := hwalked.proper.parent_of_isMemberHalf hhalf
    rw [hn] at hk
    cases hk
    rw [hparent] at hke
    cases hke

/-- Registration adds no references. -/
theorem get?_of_reference (h : RegistersIn languages config t root p) {x : NodeId} {n : Node}
    (hn : p.tree.get? x = some n) (hk : n.kind.isReference = true) : t.get? x = some n := by
  have hwalked := h.walked
  rcases hwalked.proper.exists_or_implicit h.proper.toWellFormed hwalked.toExtends hwalked.keeps hn with
    ⟨m, hm⟩ | ⟨d, hd, -⟩
  · have hkind : m.kind ≠ .recordDecl := by
      intro hrecord
      obtain ⟨n', hn', hb⟩ := hwalked.toExtends.node hm
      rw [hn] at hn'
      cases hn'
      rw [Node.kind, hb.payload.kind_recordDecl_iff.mpr hrecord] at hk
      cases hk
    rw [hm, ← hn, hwalked.keeps hm hkind]
  · rw [Node.kind, hd] at hk
    cases hk

/-- In one language, what is registered is true. -/
theorem registered (h : Registers config t root p) :
    Registration.Invariant config.separator t (Registration.steps t t.depthLimit root) p := by
  obtain ⟨n, hn, -, -⟩ := h.proper.root_parent h.root_eq
  exact .run h.proper hn h.root_not_implicit (List.append_nil _).symm h.registration

end RegistersIn

/-- A pass that succeeds: registration takes `t` to `t'`, and binding takes it on to `T`. -/
structure PassIn (languages : Set String) (config : Config) (t t' T : Tree) (u : ResolvedUnit) : Prop extends
    RegistersIn languages config t u.root ⟨t', u.scopes, u.duplicates⟩ where
  binding : runSteps (Binding.exec (u.context config)) (t'.bindingSteps u.scopes u.root) { tree := t' } =
    .ok () ⟨T, u.bindings⟩

abbrev Pass (config : Config) : Tree → Tree → Tree → ResolvedUnit → Prop := PassIn {config.separator} config

/-- What a pass does once registration has succeeded. -/
theorem resolve_of_registers (h : RegistersIn languages config t root p) :
    t.resolve config =
      match runSteps (Binding.exec ⟨p.scopes, config.ambiguity, config.separator⟩)
        (p.tree.bindingSteps p.scopes root) { tree := p.tree } with
      | .error e q => ⟨.error e, q.tree⟩
      | .ok _ q =>
        ⟨.ok ⟨root, p.scopes, p.duplicates, q.bindings.unresolved, q.bindings.resolved,
          q.bindings.implicitMembers, .resolved⟩, q.tree⟩ := by
  obtain ⟨s, hs⟩ := h.exists_rootScope
  have hregister : t.register config root = ⟨.ok ⟨p.scopes, p.duplicates⟩, p.tree⟩ := by
    rw [register_eq h.proper h.language h.root_eq, h.registration]
  rw [resolve, unitRoot_eq h.proper.toWellFormed h.root_eq]
  dsimp only
  rw [hregister]
  dsimp only
  rw [bindReferences_eq h.walked.proper h.root_eq' hs]
  cases runSteps (Binding.exec ⟨p.scopes, config.ambiguity, config.separator⟩)
    (p.tree.bindingSteps p.scopes root) { tree := p.tree } with
  | ok _ q => rfl
  | error e q => rfl

theorem resolve_of_binding (h : RegistersIn languages config t root p) {q : Binding.Progress}
    (hq : runSteps (Binding.exec ⟨p.scopes, config.ambiguity, config.separator⟩)
      (p.tree.bindingSteps p.scopes root) { tree := p.tree } = .ok () q) :
    t.resolve config = ⟨.ok (p.unit root q), q.tree⟩ := by
  rw [resolve_of_registers h, hq]
  rfl

/-- A pass ends where binding fails. -/
theorem resolve_of_binding_error (h : RegistersIn languages config t root p) {e : ResolveError}
    {q : Binding.Progress}
    (hq : runSteps (Binding.exec ⟨p.scopes, config.ambiguity, config.separator⟩)
      (p.tree.bindingSteps p.scopes root) { tree := p.tree } = .error e q) :
    t.resolve config = ⟨.error e, q.tree⟩ := by
  rw [resolve_of_registers h, hq]

/-- A pass ends where registration fails. -/
theorem resolve_of_error (ht : t.ProperIn languages) (hlanguage : config.separator ∈ languages)
    (hr : t.root = some root) {e : ResolveError}
    (hrun : runSteps (Registration.exec config) (Registration.steps t t.depthLimit root) { tree := t } =
      .error e p) : t.resolve config = ⟨.error e, p.tree⟩ := by
  rw [resolve, unitRoot_eq ht.toWellFormed hr]
  simp only [register_eq ht hlanguage hr, hrun]

/-- Whether registration succeeds decides how a pass goes on. -/
theorem registers_or_error (ht : t.ProperIn languages) (hlanguage : config.separator ∈ languages) :
    (∃ root p, RegistersIn languages config t root p) ∨
      ∃ e, (t.resolve config).result = .error e ∧ (t.resolve config).tree.ProperIn languages ∧
        t.Extends (t.resolve config).tree := by
  obtain ⟨root, -, hr, -⟩ := ht.unit_root
  obtain ⟨hp, hext, -⟩ := Registration.runSteps_keeps (p := { tree := t }) ht hlanguage
    (Registration.steps t t.depthLimit root)
  cases hreg : runSteps (Registration.exec config) (Registration.steps t t.depthLimit root) { tree := t } with
  | ok _ p => exact .inl ⟨root, p, ht, hlanguage, hr, hreg⟩
  | error e p =>
    rw [hreg] at hp hext
    rw [resolve_of_error ht hlanguage hr hreg]
    exact .inr ⟨e, rfl, hp, hext⟩

/-- A pass that succeeds is a pass in two parts. -/
theorem exists_passIn (ht : t.ProperIn languages) (hlanguage : config.separator ∈ languages)
    (hu : (t.resolve config).result = .ok u) :
    ∃ t', PassIn languages config t t' (t.resolve config).tree u := by
  rcases registers_or_error ht hlanguage with ⟨root, p, h⟩ | ⟨e, he, -⟩
  · rw [resolve_of_registers h] at hu ⊢
    cases hbind : runSteps (Binding.exec ⟨p.scopes, config.ambiguity, config.separator⟩)
        (p.tree.bindingSteps p.scopes root) { tree := p.tree } with
    | error e q =>
      simp only [hbind] at hu
      cases hu
    | ok _ q =>
      simp only [hbind] at hu ⊢
      cases hu
      exact ⟨p.tree, h, hbind⟩
  · rw [he] at hu
    cases hu

theorem exists_pass (ht : t.Proper config.separator) (hu : (t.resolve config).result = .ok u) :
    ∃ t', Pass config t t' (t.resolve config).tree u :=
  exists_passIn ht rfl hu

/-- How a pass over `t` has bound a reference that it leaves behind in `T`. -/
inductive BoundAs (c : Binding.Context) (t T : Tree) (x : NodeId) : Resolution → Prop
  /-- A plain name is bound by its level. -/
  | name {m ρ scope} (node : t.get? x = some m) (payload : m.payload = .reference ρ) (plain : ¬ t.IsMemberHalf x)
      (inner : t.enclosingScope? c.scopes x = some scope)
      (now : T.get? x = some { m with payload := .reference (Binding.lexical c t m.name scope (t.roleOf x)) }) :
      BoundAs c t T x (Binding.lexical c t m.name scope (t.roleOf x))
  /-- A name that is written out is bound, with its member half, to the field. -/
  | field {id m ρ w base member scope} (node : t.get? id = some m) (payload : m.payload = .reference ρ)
      (plain : ¬ t.IsMemberHalf id) (inner : t.enclosingScope? c.scopes id = some scope)
      (isWritten : Binding.written? c t m.name scope (t.roleOf id) = some w)
      (now : T.get? id = some { m with payload := .member ⟨some base, some member, true, .single w.field⟩ })
      (memberNow : T.get? member = some ⟨member, m.name, m.region, some id, .reference (.single w.field)⟩)
      (at_ : x = id ∨ x = member) : BoundAs c t T x (.single w.field)
  /-- Its base is bound to the receiver. -/
  | receiver {id m ρ w member scope} (node : t.get? id = some m) (payload : m.payload = .reference ρ)
      (plain : ¬ t.IsMemberHalf id) (inner : t.enclosingScope? c.scopes id = some scope)
      (isWritten : Binding.written? c t m.name scope (t.roleOf id) = some w)
      (now : T.get? id = some { m with payload := .member ⟨some x, some member, true, .single w.field⟩ })
      (baseNow : T.get? x = some ⟨x, w.name, m.region, some id, .reference (.single w.base)⟩) :
      BoundAs c t T x (.single w.base)
  /-- An access of the text is bound, with its member half, in the record that its base denotes. -/
  | access {id m a base member scope r} {k : Node} (node : t.get? id = some m) (payload : m.payload = .member a)
      (hasBase : a.base = some base) (hasMember : a.member = some member)
      (inner : t.enclosingScope? c.scopes id = some scope)
      (now : T.get? id = some { m with payload := .member { a with resolution := r } })
      (halfNow : T.get? member = some { k with payload := .reference r }) (named : k.name = m.name)
      (resolution : r = Binding.memberOf c t (Binding.recordOfBase? c T base scope) m.name (t.roleOf id))
      (at_ : x = id ∨ x = member) : BoundAs c t T x r

namespace PassIn

theorem bound (h : PassIn languages config t t' T u) :
    Binding.Invariant languages (u.context config) t' (t'.bindingSteps u.scopes u.root) ⟨T, u.bindings⟩ :=
  .run h.walked.proper h.walked.grounded h.placed
    (Binding.steps_pairwise h.walked.proper.toWellFormed) h.binding

theorem toExtends (h : PassIn languages config t t' T u) : t.Extends T :=
  h.walked.toExtends.trans h.bound.toExtends

/-- A record that has been entered owns a scope. -/
theorem exists_scope_of_entered (h : PassIn languages config t t' T u) {d : NodeId}
    (hentered : .enter d ∈ Registration.steps t t.depthLimit u.root) (hk : T.kind? d = some .recordDecl) :
    ∃ own, u.scopes.scopeOf? d = some own := by
  obtain ⟨root, hroot, -⟩ := h.proper.root_parent h.root_eq
  obtain ⟨n, hn⟩ := Registration.exists_of_enter_mem h.proper.toWellFormed hroot hentered
  have hrecord := (h.toExtends.kind?_recordDecl_iff hn).mp hk
  rw [kind?, hn, Option.map_some, Option.some.injEq] at hrecord
  have hopens : n.payload.opens? = some .record := Registration.Registered.opens?_eq_record_iff.mpr hrecord
  exact Option.isSome_iff_exists.mp (h.walked.scope_opened hentered hn hopens)

/-- Every reference that is no member half has its step, which stands in its place and is settled. -/
theorem exists_settled (h : PassIn languages config t t' T u) {x : NodeId} {n : Node} (hn : t'.get? x = some n)
    (hk : n.kind.isReference = true) (hplain : ¬ t'.IsMemberHalf x) :
    ∃ s ∈ t'.bindingSteps u.scopes u.root, s.node? = some x ∧ Binding.Placed u.scopes t' s ∧
      Binding.Settled (u.context config) t' T s := by
  have hp := h.walked.proper
  obtain ⟨s, hs, hnode⟩ := Binding.exists_step hp (t'.lt_depthLimit u.root) hplain hn hk
    (hp.below_root h.root_eq' hn) (Binding.Invariant.fail_not_mem h.binding)
  exact ⟨s, hs, hnode, h.placed s hs, h.bound.settled s hs⟩

/-- A plain name has its step in the innermost scope around it. -/
theorem exists_name (h : PassIn languages config t t' T u) {x : NodeId} {n : Node} {r : Resolution}
    (hn : t'.get? x = some n) (hp : n.payload = .reference r) (hplain : ¬ t'.IsMemberHalf x) :
    ∃ scope, t'.enclosingScope? u.scopes x = some scope ∧
      .name x scope (t'.roleOf x) ∈ t'.bindingSteps u.scopes u.root ∧
      Binding.Settled (u.context config) t' T (.name x scope (t'.roleOf x)) := by
  obtain ⟨s, hs, hnode, hplaced, hsettled⟩ := h.exists_settled hn (by rw [Node.kind, hp]; rfl) hplain
  cases hplaced with
  | fail => cases hnode
  | name hk hpk _ hinner =>
    cases hnode
    exact ⟨_, hinner, hs, hsettled⟩
  | access hk hpk _ _ _ =>
    cases hnode
    rw [hn] at hk
    cases hk
    rw [hp] at hpk
    cases hpk

/-- A plain name ends up bound by its level. -/
theorem resolution?_name (h : PassIn languages config t t' T u) {x : NodeId} {n : Node} {r : Resolution}
    (hn : t'.get? x = some n) (hp : n.payload = .reference r) (hplain : ¬ t'.IsMemberHalf x) :
    ∃ scope, t'.enclosingScope? u.scopes x = some scope ∧
      T.resolution? x = some (Binding.lexical (u.context config) T n.name scope (t'.roleOf x)) := by
  obtain ⟨scope, hinner, -, hsettled⟩ := h.exists_name hn hp hplain
  refine ⟨scope, hinner, ?_⟩
  rw [Binding.lexical_congr h.walked.grounded h.bound.same]
  cases hsettled with
  | bound node _ now =>
    rw [hn] at node
    cases node
    rw [resolution?, now]
    rfl
  | written node isWritten _ _ now _ _ =>
    rw [hn] at node
    cases node
    rw [resolution?, now, Binding.lexical_of_written isWritten]
    rfl

/-- An access ends up bound, with its member half, in the record that its base denotes. -/
theorem exists_access (h : PassIn languages config t t' T u) {x : NodeId} {n : Node} {a : Access}
    (hn : t'.get? x = some n) (hp : n.payload = .member a) :
    ∃ base member scope r, a.base = some base ∧ a.member = some member ∧
      t'.enclosingScope? u.scopes x = some scope ∧
      T.get? x = some { n with payload := .member { a with resolution := r } } ∧
      T.resolution? member = some r ∧
      r = Binding.memberOf (u.context config) t'
        (Binding.recordOfBase? (u.context config) T base scope) n.name (t'.roleOf x) := by
  obtain ⟨s, -, hnode, hplaced, hsettled⟩ := h.exists_settled hn (by rw [Node.kind, hp]; rfl)
    (h.walked.proper.not_isMemberHalf_of_member hn hp)
  cases hplaced with
  | fail => cases hnode
  | name hk hpk _ _ =>
    cases hnode
    rw [hn] at hk
    cases hk
    rw [hp] at hpk
    cases hpk
  | @access _ k b base member scope hk hpk hbase hmember hinner =>
    cases hnode
    rw [hn] at hk
    cases hk
    rw [hp] at hpk
    cases hpk
    cases hsettled with
    | @access _ _ _ _ _ _ half r _ _ node payload halfNode now halfNow _ resolution =>
      rw [hn] at node
      cases node
      rw [hp] at payload
      cases payload
      obtain ⟨k', -, hk', -, hname⟩ := h.walked.proper.half hn hp hmember
      rw [halfNode] at hk'
      cases hk'
      exact ⟨base, member, scope, r, hbase, hmember, hinner, now, resolution?_of_get? halfNow rfl,
        hname ▸ resolution⟩

/-- Every reference that a pass leaves behind was bound by one of its steps, or put below a name that one of
its steps wrote out. -/
theorem exists_origin (h : PassIn languages config t t' T u) {x : NodeId} {n : Node} (hn : T.get? x = some n)
    (hk : n.kind.isReference = true) :
    ∃ s ∈ t'.bindingSteps u.scopes u.root, Binding.Placed u.scopes t' s ∧
      Binding.Settled (u.context config) t' T s ∧
      (x ∈ s.targets ∨ ∃ id scope role, s = .name id scope role ∧ n.parent = some id) := by
  cases hx : t'.get? x with
  | none =>
    obtain ⟨id, scope, role, hs, hparent⟩ := h.bound.new hn hx
    exact ⟨_, hs, h.placed _ hs, h.bound.settled _ hs, .inr ⟨id, scope, role, rfl, hparent⟩⟩
  | some n' =>
    have hk' : n'.kind.isReference = true := by
      by_contra hno
      rw [Bool.not_eq_true] at hno
      have hsame := (h.bound.same hno).mpr hx
      rw [hn] at hsame
      cases hsame
      rw [hk] at hno
      cases hno
    by_cases hhalf : t'.IsMemberHalf x
    · obtain ⟨e, k, a, hk, hp, ha⟩ := hhalf
      have hplain := h.walked.proper.not_isMemberHalf_of_member hk hp
      obtain ⟨s, hs, hnode, hplaced, hsettled⟩ := h.exists_settled hk (by rw [Node.kind, hp]; rfl) hplain
      refine ⟨s, hs, hplaced, hsettled, .inl ?_⟩
      cases hplaced with
      | fail => cases hnode
      | name hm hpm _ _ =>
        cases hnode
        rw [hk] at hm
        cases hm
        rw [hp] at hpm
        cases hpm
      | access hm hpm _ hmember _ =>
        cases hnode
        rw [hk] at hm
        cases hm
        rw [hp] at hpm
        cases hpm
        rw [ha] at hmember
        cases hmember
        simp [Binding.Step.targets]
    · obtain ⟨s, hs, hnode, hplaced, hsettled⟩ := h.exists_settled hx hk' hhalf
      refine ⟨s, hs, hplaced, hsettled, .inl ?_⟩
      cases s with
      | fail e => cases hnode
      | name | access =>
        cases hnode
        simp [Binding.Step.targets]

/-- How the step of a plain name binds the name, and what it puts below the name. -/
theorem boundAs_of_name (h : PassIn languages config t t' T u) {x id : NodeId} {n m : Node} {r ρ : Resolution}
    {scope : ScopeId} (node : t'.get? id = some m) (payload : m.payload = .reference ρ)
    (plain : ¬ t'.IsMemberHalf id) (inner : t'.enclosingScope? u.scopes id = some scope)
    (hsettled : Binding.Settled (u.context config) t' T (.name id scope (t'.roleOf id)))
    (hn : T.get? x = some n) (hr : n.payload.resolution? = some r) (hx : x = id ∨ n.parent = some id) :
    BoundAs (u.context config) t' T x r := by
  have hnode : ∀ {k}, T.get? x = some k → k.payload.resolution? = some r := by
    intro k hk
    rw [hn] at hk
    cases hk
    exact hr
  have hchild : ∀ {k}, T.get? id = some k → n.parent = some id → x ∈ k.children := by
    intro k hk hparent
    obtain ⟨k', hk', hchild⟩ := h.bound.proper.child_of_parent hn hparent
    rw [hk] at hk'
    cases hk'
    exact hchild
  cases hsettled with
  | bound node' _ now =>
    rw [node] at node'
    cases node'
    rcases hx with rfl | hparent
    · cases hnode now
      exact .name node payload plain inner now
    · -- Nothing stands below a name.
      cases hchild now hparent
  | @written _ _ _ _ w base member node' isWritten _ _ now baseNow memberNow =>
    rw [node] at node'
    cases node'
    rcases hx with rfl | hparent
    · cases hnode now
      exact .field node payload plain inner isWritten now memberNow (.inl rfl)
    · have hx : x = base ∨ x = member := by simpa [Node.children, Payload.children] using hchild now hparent
      rcases hx with rfl | rfl
      · cases hnode baseNow
        exact .receiver node payload plain inner isWritten now baseNow
      · cases hnode memberNow
        exact .field node payload plain inner isWritten now memberNow (.inr rfl)

/-- How the step of an access binds the access and its member half. -/
theorem boundAs_of_access (h : PassIn languages config t t' T u) {x id base member : NodeId} {m : Node} {a : Access}
    {r : Resolution} {scope : ScopeId} (node : t'.get? id = some m) (payload : m.payload = .member a)
    (hasBase : a.base = some base) (hasMember : a.member = some member)
    (inner : t'.enclosingScope? u.scopes id = some scope)
    (hsettled : Binding.Settled (u.context config) t' T (.access id base member scope (t'.roleOf id)))
    (hr : T.resolution? x = some r) (hx : x = id ∨ x = member) : BoundAs (u.context config) t' T x r := by
  cases hsettled with
  | @access _ _ _ _ _ _ k r' _ _ node' payload' half now halfNow _ resolution =>
    rw [node] at node'
    cases node'
    rw [payload] at payload'
    cases payload'
    obtain ⟨k', -, hk', -, hname⟩ := h.walked.proper.half node payload hasMember
    rw [half] at hk'
    cases hk'
    obtain rfl : r' = r := by
      rcases hx with rfl | rfl
      · exact Option.some.inj ((resolution?_of_get? now rfl).symm.trans hr)
      · exact Option.some.inj ((resolution?_of_get? halfNow rfl).symm.trans hr)
    exact .access node payload hasBase hasMember inner now halfNow hname (hname ▸ resolution) hx

/-- Every reference that a pass leaves behind is bound in one of these ways. -/
theorem boundAs (h : PassIn languages config t t' T u) {x : NodeId} {r : Resolution}
    (hr : T.resolution? x = some r) : BoundAs (u.context config) t' T x r := by
  obtain ⟨n, hn, hbound⟩ := Option.bind_eq_some_iff.mp hr
  obtain ⟨s, -, hplaced, hsettled, horigin⟩ := h.exists_origin hn (isReference_of_resolution? hbound)
  cases hplaced with
  | fail => cases hsettled
  | name node payload plain inner =>
    refine h.boundAs_of_name node payload plain inner hsettled hn hbound ?_
    rcases horigin with htarget | ⟨_, _, _, ⟨⟩, hparent⟩
    · exact .inl (List.mem_singleton.mp htarget)
    · exact .inr hparent
  | access node payload hasBase hasMember inner =>
    refine h.boundAs_of_access node payload hasBase hasMember inner hsettled hr ?_
    rcases horigin with htarget | ⟨_, _, _, ⟨⟩, -⟩
    simpa [Binding.Step.targets, or_comm] using htarget

end PassIn

/-- The scope tree is true of the tree that a pass leaves behind. -/
theorem Pass.registered_end (h : Pass config t t' T u) :
    Registration.Registered config.separator T u.scopes :=
  h.registered.registered.sameDeclarations h.registered.proper.toWellFormed h.bound.toExtends h.bound.same

/-- Whether binding succeeds or fails, it leaves the declarations of the registered tree as they are. -/
theorem RegistersIn.resolve_keeps (h : RegistersIn languages config t root p) :
    (t.resolve config).tree.ProperIn languages ∧ p.tree.Extends (t.resolve config).tree ∧
      p.tree.SameDeclarations (t.resolve config).tree := by
  have hend := Binding.Invariant.kept_endState (c := ⟨p.scopes, config.ambiguity, config.separator⟩)
    h.walked.proper h.walked.grounded h.placed (Binding.steps_pairwise h.walked.proper.toWellFormed)
  rw [resolve_of_registers h]
  cases hbind : runSteps (Binding.exec ⟨p.scopes, config.ambiguity, config.separator⟩)
      (p.tree.bindingSteps p.scopes root) { tree := p.tree } with
  | ok _ q =>
    rw [hbind] at hend
    exact hend
  | error e q =>
    rw [hbind] at hend
    exact hend

/-- A pass leaves a proper tree behind, whether it succeeds or fails, and all nodes are still there. -/
theorem ProperIn.resolve_keeps (ht : t.ProperIn languages) (hlanguage : config.separator ∈ languages) :
    (t.resolve config).tree.ProperIn languages ∧ t.Extends (t.resolve config).tree := by
  rcases registers_or_error ht hlanguage with ⟨root, p, h⟩ | ⟨e, -, hp⟩
  · obtain ⟨hproper, hext, -⟩ := h.resolve_keeps
    exact ⟨hproper, h.walked.toExtends.trans hext⟩
  · exact hp

/-- The tree after a sequence of passes, of which some may have failed. -/
def resolveAll (t : Tree) (history : List Config) : Tree :=
  history.foldl (fun t config => (t.resolve config).tree) t

theorem ProperIn.resolveAll_keeps (ht : t.ProperIn languages) {history : List Config}
    (h : ∀ config ∈ history, config.separator ∈ languages) :
    (t.resolveAll history).ProperIn languages ∧ t.Extends (t.resolveAll history) := by
  induction history generalizing t with
  | nil => exact ⟨ht, .refl t⟩
  | cons config history ih =>
    obtain ⟨ht', hext⟩ := ht.resolve_keeps (h config (by simp))
    obtain ⟨hproper, hext'⟩ := ih ht' fun c hc => h c (List.mem_cons_of_mem _ hc)
    exact ⟨hproper, hext.trans hext'⟩

theorem ProperIn.resolveAll (ht : t.ProperIn languages) {history : List Config}
    (h : ∀ config ∈ history, config.separator ∈ languages) : (t.resolveAll history).ProperIn languages :=
  (ht.resolveAll_keeps h).1

end Tree
end NameResolution
