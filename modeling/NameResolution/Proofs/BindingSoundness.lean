import NameResolution.Proofs.Recomputation

/-!
# Every binding is sound

Whatever passes have gone over a tree before, and whether they succeeded or not: after a pass that succeeds,
every name and every access is bound to live declarations that this pass has registered, all in one scope
and under the name that they are bound to. A plain name looks in the scopes around it, an access in the
scope of a record.
-/
namespace NameResolution
open NameResolution.Tree ScopeTree

/-- The candidates of `r` are live declarations that the unit holds in the scope `s` under `name`, there and
nowhere else, and none of them has been dropped. -/
structure DeclaredIn (T : Tree) (u : ResolvedUnit) (s : ScopeId) (name : String) (r : Resolution) : Prop where
  distinct : r.candidates.Nodup
  live : ∀ d ∈ r.candidates, ∃ m, T.get? d = some m ∧ m.kind.isDeclaration = true
  declared : ∀ d ∈ r.candidates, d ∈ u.scopes.lookup s name
  nowhereElse : ∀ d ∈ r.candidates, ∀ s' name', d ∈ u.scopes.lookup s' name' → s' = s ∧ name' = name
  kept : ∀ d ∈ r.candidates, ∀ dropped ∈ u.duplicates, dropped.repeated ≠ d

/-- The scope `s` is one that the node `x` may look in. -/
inductive LooksIn (T : Tree) (S : ScopeTree) (x : NodeId) (n : Node) (s : ScopeId) : Prop
  | around (plain : n.kind = .reference) (noHalf : ¬ T.IsMemberHalf x)
      (encloses : s ∈ T.enclosingScopes S x)
  | inside {sc : Scope} (access : n.kind = .member ∨ T.IsMemberHalf x) (scope : S.get? s = some sc)
      (record : sc.kind = .record)

/-- What the binding `r` of the node `x` satisfies after a pass over `t` that leaves `T` behind. It is what this pass
comes to, and nothing else is, and the unit lists what it leaves unbound, an access by its member half. -/
structure Sound (config : Config) (t T : Tree) (u : ResolvedUnit) (x : NodeId) (n : Node) (r : Resolution) : Prop where
  declared : r = .unresolved ∨ ∃ s, LooksIn T u.scopes x n s ∧ DeclaredIn T u s n.name r
  halves : ∀ a, n.payload = .member a → ∃ m, a.member = some m ∧ T.resolution? m = some r
  ambiguous : ∀ ds, r = .ambiguous ds → config.ambiguity = .keepAll ∧ 2 ≤ ds.length
  computed : ∀ r', Computed (u.context config) t T x r' ↔ r' = r
  unbound : r = .unresolved ↔
    x ∈ u.unresolved ∨ ∃ a m, n.payload = .member a ∧ a.member = some m ∧ m ∈ u.unresolved

/-- The policy has chosen the binding `r` of the node `x` among declarations of one scope, and the halves of
an access are bound alike. -/
structure Chosen (policy : AmbiguityPolicy) (T : Tree) (u : ResolvedUnit) (x : NodeId) (n : Node)
    (r : Resolution) : Prop where
  choice : r = .unresolved ∨ ∃ s ds, ds.Sublist (u.scopes.lookup s n.name) ∧ r = policy.apply ds ∧
    LooksIn T u.scopes x n s
  halves : ∀ a, n.payload = .member a → ∃ m, a.member = some m ∧ T.resolution? m = some r

namespace Tree.Pass
variable {config : Config} {t t' T : Tree} {u : ResolvedUnit} {x id : NodeId} {n m k : Node} {r ρ : Resolution}
  {scope : ScopeId} {role : Role}

/-- What a policy makes of declarations under a name. -/
theorem declaredIn_apply (h : Pass config t t' T u) {s : ScopeId} {name : String} {ds : List NodeId}
    (hds : ds.Sublist (u.scopes.lookup s name)) : DeclaredIn T u s name (config.ambiguity.apply ds) := by
  have hreg := h.registered_end
  have hsub := (config.ambiguity.candidates_apply_sublist ds).trans hds
  have hentry : ∀ d ∈ (config.ambiguity.apply ds).candidates, (⟨s, name, d⟩ : Entry) ∈ u.scopes.entries :=
    fun d hd => mem_lookup_iff.mp (hsub.subset hd)
  constructor
  case distinct => exact (hreg.nodup_lookup s name).sublist hsub
  case live =>
    intro d hd
    obtain ⟨m, hm, hdecl, -⟩ := hreg.entry (hentry d hd)
    exact ⟨m, hm, hdecl⟩
  case declared => exact fun d hd => hsub.subset hd
  case nowhereElse => exact fun d hd s' name' hd' => hreg.lookup_unique hd' (hsub.subset hd)
  case kept => exact fun d hd dropped hdropped he => (h.registered.dropped hdropped).2 _ (hentry d hd) he.symm

/-- The base of a name that is written out is bound to a field of a record around it. -/
theorem mem_lookup_base (h : Pass config t t' T u) {name : String} {w : Binding.ImplicitAccess}
    (hm : t'.get? id = some m) (hinner : t'.enclosingScope? u.scopes id = some scope)
    (hw : Binding.written? (u.context config) t' name scope role = some w) :
    ∃ s ∈ T.enclosingScopes u.scopes id, w.base ∈ u.scopes.lookup s w.name := by
  have hreg := h.registered
  have hwf := hreg.proper.toWellFormed
  obtain ⟨_, _, _, g, -, -, hg, hname, hreceiver⟩ :=
    Binding.receiver_of_written (c := u.context config) hreg.registered hwf hinner hw
  obtain ⟨s, -, hs, hmem⟩ := hreceiver.mem_lookup (c := u.context config) hreg.registered hg
  rw [h.bound.toExtends.enclosingScopes_eq hwf hm]
  exact ⟨s, hs, hname ▸ hmem⟩

/-- A plain name that is not written out. -/
theorem chosen_of_bound (h : Pass config t t' T u) (hm : t'.get? id = some m) (hplain : ¬ t'.IsMemberHalf id)
    (hinner : t'.enclosingScope? u.scopes id = some scope) :
    Chosen config.ambiguity T u id
      { m with payload := .reference (Binding.lexical (u.context config) t' m.name scope role) }
      (Binding.lexical (u.context config) t' m.name scope role) := by
  have hreg := h.registered
  have hwf := hreg.proper.toWellFormed
  refine ⟨?_, fun a ha => by cases ha⟩
  rcases Binding.lexical_cases (u.context config) t' m.name scope role with hnone | ⟨s, sc, hs, heq⟩
  · exact .inl hnone
  · refine .inr ⟨s, _, preferred_sublist (hreg.grounded.areDeclarations s _) role, heq, .around rfl ?_ ?_⟩
    · exact fun hhalf => hplain (h.bound.toExtends.isMemberHalf hwf h.bound.proper hm hhalf)
    · rw [h.bound.toExtends.enclosingScopes_eq hwf hm]
      exact Binding.mem_enclosingScopes_of_mem_ancestors (c := u.context config) hreg.registered hwf hinner hs

/-- A name that is written out finds its field in the scope of a record. -/
theorem choice_of_written (h : Pass config t t' T u) {w : Binding.ImplicitAccess}
    (hw : Binding.written? (u.context config) t' n.name scope role = some w)
    (haccess : n.kind = .member ∨ T.IsMemberHalf x) :
    ∃ s ds, ds.Sublist (u.scopes.lookup s n.name) ∧ .single w.field = config.ambiguity.apply ds ∧
      LooksIn T u.scopes x n s := by
  obtain ⟨-, -, -, s, sc, hs, hk, hmem, -⟩ := (Binding.written?_eq_some_iff h.registered.registered).mp hw
  exact ⟨s, [w.field], List.singleton_sublist.mpr hmem, rfl,
    .inside haccess (Registration.Nested.get?_of_mem_climb hs) hk⟩

/-- The base of a name that is written out. -/
theorem chosen_of_base (h : Pass config t t' T u) {w : Binding.ImplicitAccess} {a : Access}
    (hm : t'.get? id = some m) (hinner : t'.enclosingScope? u.scopes id = some scope)
    (hw : Binding.written? (u.context config) t' m.name scope role = some w) (hk : T.get? id = some k)
    (hp : k.payload = .member a) (hb : a.base = some x) {member : NodeId} (hmember : a.member = some member) :
    Chosen config.ambiguity T u x ⟨x, w.name, m.region, some id, .reference (.single w.base)⟩
      (.single w.base) := by
  have hT := h.bound.proper
  obtain ⟨s, hs, hmem⟩ := h.mem_lookup_base hm hinner hw
  refine ⟨.inr ⟨s, [w.base], List.singleton_sublist.mpr hmem, rfl, .around rfl ?_ ?_⟩, fun a ha => by cases ha⟩
  · exact Binding.base_not_half hT hk hp hb hmember
  · rw [hT.enclosingScopes_of_child hk (Binding.base_mem_children hp hb)]
    exact List.mem_append_right _ hs

/-- An access and its member half look in the record that the base denotes. -/
theorem choice_of_access (h : Pass config t t' T u) {base : NodeId} {name : String}
    (hr : r = Binding.memberOf (u.context config) t'
      (Binding.recordOfBase? (u.context config) T base scope) name role)
    (haccess : n.kind = .member ∨ T.IsMemberHalf x) :
    r = .unresolved ∨ ∃ s ds, ds.Sublist (u.scopes.lookup s name) ∧ r = config.ambiguity.apply ds ∧
      LooksIn T u.scopes x n s := by
  rcases Binding.memberOf_cases (u.context config) t'
    (Binding.recordOfBase? (u.context config) T base scope) name role with hnone | ⟨d, s, hd, hs, heq⟩
  · exact .inl (hr.trans hnone)
  · have hrecord := Binding.kind?_of_recordOfBase? (c := u.context config) h.registered_end hd
    obtain ⟨sc, hsc, hk⟩ := Binding.kind_of_scopeOf? (c := u.context config) h.registered_end hrecord hs
    exact .inr ⟨s, _, preferred_sublist (h.walked.grounded.areDeclarations s name) role, hr.trans heq,
      .inside haccess hsc hk⟩

/-- Every binding that a pass leaves behind is the choice of its policy. -/
theorem chosen (h : Pass config t t' T u) (hn : T.get? x = some n) (hr : n.payload.resolution? = some r) :
    Chosen config.ambiguity T u x n r := by
  cases h.boundAs (resolution?_of_get? hn hr) with
  | name node _ plain inner now =>
    rw [hn] at now
    cases now
    exact h.chosen_of_bound node plain inner
  | field node _ _ inner isWritten now memberNow at_ =>
    rcases at_ with rfl | rfl
    · rw [hn] at now
      cases now
      refine ⟨.inr (h.choice_of_written isWritten (.inl rfl)), fun a ha => ?_⟩
      cases ha
      exact ⟨_, rfl, resolution?_of_get? memberNow rfl⟩
    · have hhalf : T.IsMemberHalf x := ⟨_, _, _, now, rfl, rfl⟩
      rw [hn] at memberNow
      cases memberNow
      exact ⟨.inr (h.choice_of_written isWritten (.inr hhalf)), fun a ha => by cases ha⟩
  | receiver node _ _ inner isWritten now baseNow =>
    rw [hn] at baseNow
    cases baseNow
    exact h.chosen_of_base node inner isWritten now rfl rfl rfl
  | access node payload _ hasMember _ now halfNow named resolution at_ =>
    rcases at_ with rfl | rfl
    · rw [hn] at now
      cases now
      refine ⟨h.choice_of_access resolution (.inl rfl), fun a' ha' => ?_⟩
      cases ha'
      exact ⟨_, hasMember, resolution?_of_get? halfNow rfl⟩
    · have hhalf : T.IsMemberHalf x := ⟨_, _, _, now, rfl, hasMember⟩
      rw [hn] at halfNow
      cases halfNow
      exact ⟨named ▸ h.choice_of_access resolution (.inr hhalf), fun a ha => by cases ha⟩

/-- What the unit lists is what a step has left unresolved. -/
theorem mem_unresolved_iff (h : Pass config t t' T u) :
    x ∈ u.unresolved ↔ ∃ s ∈ t'.bindingSteps u.scopes u.root, x ∈ s.unresolvedIn T := by
  rw [← Array.mem_toList_iff, show u.unresolved.toList = _ from h.bound.unresolved, List.mem_flatMap]

theorem resolution?_of_mem_unresolved (h : Pass config t t' T u) (hx : x ∈ u.unresolved) :
    T.resolution? x = some .unresolved := by
  obtain ⟨s, -, hs⟩ := h.mem_unresolved_iff.mp hx
  cases s with
  | fail e => cases hs
  | name | access =>
    rw [Binding.Step.unresolvedIn] at hs
    split at hs
    · rwa [List.mem_singleton.mp hs]
    · cases hs

/-- A reference that is left unbound is listed, or its member half is. -/
theorem listed_of_unresolved (h : Pass config t t' T u) (hn : T.get? x = some n)
    (hr : n.payload.resolution? = some .unresolved) :
    x ∈ u.unresolved ∨ ∃ a m, n.payload = .member a ∧ a.member = some m ∧ m ∈ u.unresolved := by
  have hT := h.bound.proper
  by_cases hhalf : T.IsMemberHalf x
  · -- The step that answers for the access above it lists it.
    obtain ⟨e, k, a, hk, hp, ha⟩ := hhalf
    have haccess : k.payload.resolution? = some a.resolution := by rw [hp, Payload.resolution?]
    obtain ⟨m, hm, hbound⟩ := (h.chosen hk haccess).halves a hp
    obtain rfl := Option.some.inj (ha.symm.trans hm)
    have hunbound : a.resolution = .unresolved :=
      Option.some.inj (hbound.symm.trans (resolution?_of_get? hn hr))
    obtain ⟨s, hs, hmem⟩ := h.exists_reportedIn
      (isReported_of_get? hT hk (isReference_of_resolution? haccess) (hT.not_isMemberHalf_of_member hk hp))
    rcases (h.left hs).listed hmem hk (hunbound ▸ haccess) with ⟨⟨ρ, hρ⟩, -⟩ | ⟨a', m', hp', ha', hlisted⟩
    · rw [hp] at hρ
      cases hρ
    · rw [hp] at hp'
      cases hp'
      rw [ha] at ha'
      cases ha'
      exact .inl (h.mem_unresolved_iff.mpr ⟨s, hs, hlisted⟩)
  · obtain ⟨s, hs, hmem⟩ := h.exists_reportedIn (isReported_of_get? hT hn (isReference_of_resolution? hr) hhalf)
    rcases (h.left hs).listed hmem hn hr with ⟨-, hlisted⟩ | ⟨a, m, hp, ha, hlisted⟩
    · exact .inl (h.mem_unresolved_iff.mpr ⟨s, hs, hlisted⟩)
    · exact .inr ⟨a, m, hp, ha, h.mem_unresolved_iff.mpr ⟨s, hs, hlisted⟩⟩

end Tree.Pass

/-- After a pass that succeeds, whatever passes went before it, every binding is sound. -/
theorem sound_of_resolve {document : SyntaxNode} {t : Tree} {history : List Config} {config : Config}
    {u : ResolvedUnit} {x : NodeId} {n : Node} {r : Resolution} (hdocument : Tree.ofSyntax document = .ok t)
    (hlanguage : ∀ earlier ∈ history, earlier.language = config.language)
    (hresolve : ((t.resolveAll history).resolve config).result = .ok u)
    (hn : ((t.resolveAll history).resolve config).tree.get? x = some n)
    (hr : n.payload.resolution? = some r) :
    Sound config (t.resolveAll history) ((t.resolveAll history).resolve config).tree u x n r := by
  have hproper := (proper_of_ofSyntax hdocument config.separator).resolveAll fun earlier hmem =>
    congrArg Language.separator (hlanguage earlier hmem)
  obtain ⟨t', hpass⟩ := exists_pass hproper hresolve
  have hchosen := hpass.chosen hn hr
  have hcomputed := hpass.computed (resolution?_of_get? hn hr)
  constructor
  case declared =>
    rcases hchosen.choice with hnone | ⟨s, ds, hds, rfl, hlooks⟩
    · exact .inl hnone
    · exact .inr ⟨s, hlooks, hpass.declaredIn_apply hds⟩
  case halves => exact hchosen.halves
  case ambiguous =>
    rintro es rfl
    rcases hchosen.choice with hnone | ⟨s, ds, -, hambiguous, -⟩
    · cases hnone
    · exact AmbiguityPolicy.apply_eq_ambiguous hambiguous.symm
  case computed => exact fun r' => ⟨fun hr' => hr'.unique hpass hcomputed, fun he => he ▸ hcomputed⟩
  case unbound =>
    constructor
    · rintro rfl
      exact hpass.listed_of_unresolved hn hr
    · rintro (hx | ⟨a, m, hp, hm, hmem⟩)
      · exact Option.some.inj ((resolution?_of_get? hn hr).symm.trans (hpass.resolution?_of_mem_unresolved hx))
      · obtain ⟨m', hm', hhalf⟩ := hchosen.halves a hp
        rw [hm] at hm'
        cases hm'
        exact Option.some.inj (hhalf.symm.trans (hpass.resolution?_of_mem_unresolved hmem))

/-- A class that declares a field twice and overloads a method that is called. -/
def logger : SyntaxNode :=
  let node := SyntaxNode.mk none none
  node <| .translationUnit "Logger" [node <| .recordDecl "Logger" .classRecord [
    node <| .fieldDecl "count" (some "int") false none,
    node <| .fieldDecl "count" (some "int") false none,
    node <| .methodDecl "log" false [] none,
    node <| .methodDecl "log" false [node <| .parameterDecl "line" (some "int")] none,
    node <| .methodDecl "next" false [] (some <| node <| .compound [
      node <| .call "log" (some <| node <| .reference "log") [node <| .reference "count"]])]]

def loggerTree : Tree := (logger.lower.run {}).2

def loggerUnit : ResolvedUnit where
  root := ⟨11⟩
  scopes :=
    { scopes := #[⟨.translationUnit, ⟨11⟩, none⟩, ⟨.record, ⟨10⟩, some ⟨0⟩⟩, ⟨.function, ⟨2⟩, some ⟨1⟩⟩,
        ⟨.function, ⟨4⟩, some ⟨1⟩⟩, ⟨.function, ⟨9⟩, some ⟨1⟩⟩, ⟨.block, ⟨8⟩, some ⟨4⟩⟩]
      entries := #[⟨⟨0⟩, "Logger", ⟨10⟩⟩, ⟨⟨1⟩, "this", ⟨12⟩⟩, ⟨⟨1⟩, "count", ⟨0⟩⟩, ⟨⟨1⟩, "log", ⟨2⟩⟩,
        ⟨⟨1⟩, "log", ⟨4⟩⟩, ⟨⟨3⟩, "line", ⟨3⟩⟩, ⟨⟨1⟩, "next", ⟨9⟩⟩]
      records := #[("Logger", ⟨10⟩)] }
  duplicates := #[⟨"count", ⟨0⟩, ⟨1⟩, ⟨1⟩⟩]
  unresolved := #[⟨5⟩]
  resolved := 2
  implicitMembers := 0
  state := .resolved

/-- What a pass that prefers the first overload and a later one that fails leave behind. -/
def loggerBefore : Tree := loggerTree.resolveAll [{ ambiguity := .first }, { duplicates := .fatal }]

/-- An earlier pass has bound the callee to the first overload, and one that fails has left that as it was. The pass that
rejects overloads leaves the callee unbound. -/
theorem sound_of_resolve_log :
    Tree.ofSyntax logger = .ok loggerTree ∧
      (loggerTree.resolve { ambiguity := .first }).result =
        .ok { loggerUnit with unresolved := #[], implicitMembers := 1 } ∧
      loggerBefore.resolution? ⟨5⟩ = some (.single ⟨2⟩) ∧
      (loggerBefore.resolve { ambiguity := .reject }).result = .ok loggerUnit ∧
      Sound { ambiguity := .reject } loggerBefore (loggerBefore.resolve { ambiguity := .reject }).tree loggerUnit ⟨5⟩
        ⟨⟨5⟩, "log", none, some ⟨7⟩, .reference .unresolved⟩ .unresolved := by
  have hdocument : Tree.ofSyntax logger = .ok loggerTree := rfl
  have hearlier : (loggerTree.resolve { ambiguity := .first }).result =
      .ok { loggerUnit with unresolved := #[], implicitMembers := 1 } := by decide +kernel
  have hbefore : loggerBefore.resolution? ⟨5⟩ = some (.single ⟨2⟩) := by decide +kernel
  have hresolve : (loggerBefore.resolve { ambiguity := .reject }).result = .ok loggerUnit := by decide +kernel
  have hn : (loggerBefore.resolve { ambiguity := .reject }).tree.get? ⟨5⟩ =
      some ⟨⟨5⟩, "log", none, some ⟨7⟩, .reference .unresolved⟩ := by decide +kernel
  exact ⟨hdocument, hearlier, hbefore, hresolve, sound_of_resolve hdocument (by decide) hresolve hn rfl⟩

end NameResolution
