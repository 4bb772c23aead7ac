import NameResolution.Proofs.Binding.Policies
import NameResolution.Proofs.Document.Lowered
import NameResolution.Proofs.Overloads
import NameResolution.Proofs.Tree.Mapped
import NameResolution.Proofs.Tree.Unbound

/-!
# What the ambiguity policy decides

The policy settles names with more than one candidate, and nothing else depends on it. Walks under two policies go
side by side: they write out the same names, and an access whose base is settled otherwise still looks in the
same record, since a base with several candidates is a method or a function and leads to none.
-/
namespace NameResolution

def Config.under (config : Config) (policy : AmbiguityPolicy) : Config := { config with ambiguity := policy }

/-- What becomes under a policy of a name that all candidates have been kept for. -/
def AmbiguityPolicy.collapse : AmbiguityPolicy → Resolution → Resolution
  | first, .ambiguous (d :: _) => .single d
  | reject, .ambiguous _ => .unresolved
  | _, r => r

theorem AmbiguityPolicy.collapse_apply (policy : AmbiguityPolicy) (ds : List NodeId) :
    policy.collapse (keepAll.apply ds) = policy.apply ds := by
  match ds with
  | [] | [_] | _ :: _ :: _ => cases policy <;> rfl

theorem AmbiguityPolicy.collapse_single (policy : AmbiguityPolicy) (d : NodeId) :
    policy.collapse (.single d) = .single d := by
  cases policy <;> rfl

def Payload.rebind (f : Resolution → Resolution) : Payload → Payload
  | reference r => reference (f r)
  | member a => member { a with resolution := f a.resolution }
  | p => p

theorem Payload.resolution?_rebind (f : Resolution → Resolution) (p : Payload) :
    (p.rebind f).resolution? = p.resolution?.map f := by
  cases p <;> rfl

theorem Payload.bind_rebind (f : Resolution → Resolution) (p : Payload) (r : Resolution) :
    (p.rebind f).bind r = p.bind r := by
  cases p <;> rfl

theorem Payload.rebind_bind (f : Resolution → Resolution) (p : Payload) (r : Resolution) :
    (p.bind r).rebind f = p.bind (f r) := by
  cases p <;> rfl

def Node.rebind (f : Resolution → Resolution) (n : Node) : Node := { n with payload := n.payload.rebind f }

namespace Tree
variable {f : Resolution → Resolution} {t : Tree} {x id : NodeId} {n : Node} {r : Resolution}

/-- Changes what the references of a tree are bound to. -/
def rebind (f : Resolution → Resolution) (t : Tree) : Tree := t.map (Node.rebind f)

theorem get?_rebind (f : Resolution → Resolution) (t : Tree) (x : NodeId) :
    (t.rebind f).get? x = (t.get? x).map (Node.rebind f) :=
  get?_map ..

theorem resolution?_rebind (f : Resolution → Resolution) (t : Tree) (x : NodeId) :
    (t.rebind f).resolution? x = (t.resolution? x).map f := by
  rw [resolution?, resolution?, get?_rebind]
  cases t.get? x with
  | none => rfl
  | some n => exact Payload.resolution?_rebind f n.payload

theorem unbound_rebind (f : Resolution → Resolution) (t : Tree) : (t.rebind f).unbound = t.unbound := by
  refine ext_get? rfl fun id => ?_
  rw [get?_unbound, get?_unbound, get?_rebind, Option.map_map]
  congr 1
  funext n
  exact congrArg (fun p => { n with payload := p }) (Payload.bind_rebind f n.payload .unresolved)

theorem rebind_bind (f : Resolution → Resolution) (t : Tree) (id : NodeId) (r : Resolution) :
    (t.rebind f).bind id (f r) = (t.bind id r).rebind f := by
  refine bind_map fun n _ => ?_
  simp only [Node.rebind, Payload.rebind_bind, Payload.bind_rebind]

theorem rebind_writeOutAccess (hf : ∀ d, f (.single d) = .single d) (hn : t.get? id = some n) (name : String)
    (base field : NodeId) :
    (t.rebind f).writeOutAccess id name (.single base) (.single field) =
      (t.writeOutAccess id name (.single base) (.single field)).rebind f := by
  have hnew : ∀ d k, k.payload = .reference (.single d) → Node.rebind f k = k := by
    rintro d ⟨_, _, _, _, payload⟩ ⟨⟩
    simp only [Node.rebind, Payload.rebind, hf]
  refine writeOutAccess_map hn rfl rfl ?_ (fun k _ => hnew base k) (fun k _ => hnew field k)
  simp only [Node.rebind, Payload.rebind, writtenAccess, hf]

/-- What a node is bound to after one has been bound. -/
theorem resolution?_bind_cases {q : Resolution} (h : (t.bind id r).resolution? x = some q) :
    q = r ∨ t.resolution? x = some q := by
  rw [resolution?, get?_bind] at h
  split at h
  · obtain ⟨m, hm, hq⟩ := Option.bind_eq_some_iff.mp h
    obtain ⟨k, -, rfl⟩ := Option.map_eq_some_iff.mp hm
    rw [Payload.resolution?_bind] at hq
    obtain ⟨_, -, rfl⟩ := Option.map_eq_some_iff.mp hq
    exact .inl rfl
  · exact .inr h

/-- What a node is bound to after an access has been written out. -/
theorem resolution?_writeOutAccess_cases {name : String} {base field : NodeId} {q : Resolution}
    (hn : t.get? id = some n)
    (h : (t.writeOutAccess id name (.single base) (.single field)).resolution? x = some q) :
    (∃ d, q = .single d) ∨ t.resolution? x = some q := by
  rw [resolution?, get?_writeOutAccess _ _ _ hn] at h
  split at h
  · cases h
    exact .inl ⟨field, rfl⟩
  · split at h
    · cases h
      exact .inl ⟨base, rfl⟩
    · split at h
      · cases h
        exact .inl ⟨field, rfl⟩
      · exact .inr h

end Tree

namespace Binding
open NameResolution.Tree ScopeTree Registration
variable {S : ScopeTree} {separator : String} {t T : Tree} {scope : ScopeId} {role : Role}

theorem lexical_of_policy (policy : AmbiguityPolicy) (t : Tree) (name : String) (scope : ScopeId) (role : Role) :
    lexical ⟨S, policy, separator⟩ t name scope role =
      policy.collapse (lexical ⟨S, .keepAll, separator⟩ t name scope role) := by
  rw [lexical, lexical]
  cases Level.find? t S scope name role with
  | none => cases policy <;> rfl
  | some level => exact (policy.collapse_apply level.candidates).symm

theorem memberOf_of_policy (policy : AmbiguityPolicy) (t : Tree) (record : Option NodeId) (name : String)
    (role : Role) :
    memberOf ⟨S, policy, separator⟩ t record name role =
      policy.collapse (memberOf ⟨S, .keepAll, separator⟩ t record name role) := by
  rw [memberOf, memberOf]
  cases record.bind S.scopeOf? with
  | none => cases policy <;> rfl
  | some s => exact (policy.collapse_apply _).symm

/-- Methods and functions lead to no record. -/
theorem recordOfDeclaration?_of_callable {c : Context} {d : NodeId}
    (hd : (t.kind? d).any NodeKind.isCallable = true) : recordOfDeclaration? c t d scope = none := by
  rw [recordOfDeclaration?]
  cases hn : t.get? d with
  | none => rfl
  | some n =>
    obtain ⟨_, _, _, _, payload⟩ := n
    simp only [kind?, hn, Option.map_some, Option.any_some, Node.kind] at hd
    have hrecord : payload.kind ≠ .recordDecl := by
      rintro hk
      rw [hk] at hd
      cases hd
    have htype : payload.typeName? = none := by
      cases payload <;> first | rfl | cases hd
    simp [hrecord, htype]

/-- A base leads to the same record under any policy, if it is ambiguous only among callables. -/
theorem recordOfBase?_of_policy (policy : AmbiguityPolicy) (hground : Grounded T S) {base : NodeId}
    (hoverloads : ∀ ds, T.resolution? base = some (.ambiguous ds) →
      ∀ d ∈ ds, (T.kind? d).any NodeKind.isCallable = true) (scope : ScopeId) :
    recordOfBase? ⟨S, policy, separator⟩ (T.rebind policy.collapse) base scope =
      recordOfBase? ⟨S, .keepAll, separator⟩ T base scope := by
  have hsame : T.SameDeclarations (T.rebind policy.collapse) :=
    sameDeclarations_of_unbound_eq (unbound_rebind ..)
  have hdeclaration : ∀ d, recordOfDeclaration? ⟨S, policy, separator⟩ (T.rebind policy.collapse) d scope =
      recordOfDeclaration? ⟨S, .keepAll, separator⟩ T d scope :=
    fun d => recordOfDeclaration?_congr (c := ⟨S, .keepAll, separator⟩) hground hsame d scope
  cases hr : T.resolution? base with
  | some r =>
    have hr' : (T.rebind policy.collapse).resolution? base = some (policy.collapse r) := by
      rw [resolution?_rebind, hr, Option.map_some]
    rw [recordOfBase?_of_resolution hr, recordOfBase?_of_resolution hr']
    simp only [hdeclaration]
    cases r with
    | unresolved => cases policy <;> rfl
    | single d => rw [AmbiguityPolicy.collapse_single]
    | ambiguous ds =>
      have hnone : ∀ d ∈ ds, recordOfDeclaration? ⟨S, .keepAll, separator⟩ T d scope = none :=
        fun d hd => recordOfDeclaration?_of_callable (hoverloads ds hr d hd)
      cases policy with
      | keepAll => rfl
      | reject => rfl
      | first =>
        cases ds with
        | nil => rfl
        | cons d ds => exact hnone d (by simp)
  | none =>
    rw [recordOfBase?, recordOfBase?, get?_rebind]
    cases hn : T.get? base with
    | none => rfl
    | some n =>
      obtain ⟨_, _, _, _, payload⟩ := n
      cases payload with
      | reference | member => simp [resolution?, hn, Payload.resolution?] at hr
      | newExpr typeName arguments =>
        exact recordOfType?_congr (c := ⟨S, .keepAll, separator⟩) hground hsame typeName scope
      | _ => simp [Node.rebind, Payload.rebind, Payload.resolution?]

/-- The progress `q` under a policy is the progress `p` that keeps all candidates, but for names that are
overloaded. -/
structure Beside (languages : Set String) (S : ScopeTree) (separator : String) (policy : AmbiguityPolicy) (t : Tree)
    (done : List Step) (p q : Progress) : Prop where
  invariant : Invariant languages ⟨S, .keepAll, separator⟩ t done p
  tree : q.tree = p.tree.rebind policy.collapse
  overloads : ∀ x ds, p.tree.resolution? x = some (.ambiguous ds) → Overloads t S ds

end Binding

namespace Tree.RegistersIn
open Registration ScopeTree
variable {config : Config} {t : Tree} {root : NodeId} {p : Registration.Progress} {q q' : Binding.Progress}
  {policy : AmbiguityPolicy} {done : List Binding.Step} {s : Binding.Step}

/-- What is ambiguous is overloaded. -/
theorem overloads_of_apply (h : Registers config t root p) (hflat : t.FlatRecords config.separator)
    {s : ScopeId} {name : String} {role : Role} {ds : List NodeId}
    (hds : AmbiguityPolicy.keepAll.apply (p.tree.preferred role (p.scopes.lookup s name)) = .ambiguous ds) :
    Overloads p.tree p.scopes ds := by
  have hcandidates := AmbiguityPolicy.candidates_apply_keepAll (p.tree.preferred role (p.scopes.lookup s name))
  rw [hds] at hcandidates
  exact h.overloads_of_preferred hflat hcandidates.symm (AmbiguityPolicy.apply_eq_ambiguous hds).2

theorem overloads_of_lexical (h : Registers config t root p) (hflat : t.FlatRecords config.separator)
    {name : String} {scope : ScopeId} {role : Role} {ds : List NodeId}
    (hds : Binding.lexical ⟨p.scopes, .keepAll, config.separator⟩ p.tree name scope role = .ambiguous ds) :
    Overloads p.tree p.scopes ds := by
  rcases Binding.lexical_cases ⟨p.scopes, .keepAll, config.separator⟩ p.tree name scope role with
    hnone | ⟨s, _, -, heq⟩
  · rw [hds] at hnone
    cases hnone
  · exact h.overloads_of_apply hflat (heq.symm.trans hds)

theorem overloads_of_memberOf (h : Registers config t root p) (hflat : t.FlatRecords config.separator)
    {record : Option NodeId} {name : String} {role : Role} {ds : List NodeId}
    (hds : Binding.memberOf ⟨p.scopes, .keepAll, config.separator⟩ p.tree record name role = .ambiguous ds) :
    Overloads p.tree p.scopes ds := by
  rcases Binding.memberOf_cases ⟨p.scopes, .keepAll, config.separator⟩ p.tree record name role with
    hnone | ⟨_, s, -, -, heq⟩
  · rw [hds] at hnone
    cases hnone
  · exact h.overloads_of_apply hflat (heq.symm.trans hds)

/-- A plain name is bound side by side. -/
theorem named_beside (h : Registers config t root p) (hflat : t.FlatRecords config.separator)
    (hbeside : Binding.Beside {config.separator} p.scopes config.separator policy p.tree done q q')
    {id : NodeId} {n : Node} {scope : ScopeId} {role : Role} (hq : q.tree.get? id = some n) :
    (Binding.named ⟨p.scopes, policy, config.separator⟩ q' id n.name scope role).tree =
        (Binding.named ⟨p.scopes, .keepAll, config.separator⟩ q id n.name scope role).tree.rebind policy.collapse ∧
      ∀ x ds, (Binding.named ⟨p.scopes, .keepAll, config.separator⟩ q id n.name scope role).tree.resolution? x =
        some (.ambiguous ds) → Overloads p.tree p.scopes ds := by
  have hground := h.walked.grounded
  have hsame : p.tree.SameDeclarations q.tree := hbeside.invariant.same
  have hsame' : p.tree.SameDeclarations q'.tree := by
    rw [hbeside.tree]
    exact SameDeclarations.trans hsame (sameDeclarations_of_unbound_eq (unbound_rebind ..))
  rw [Binding.named, Binding.named]
  rw [Binding.written?_congr (c := ⟨p.scopes, policy, config.separator⟩) hground hsame',
    Binding.written?_congr (c := ⟨p.scopes, .keepAll, config.separator⟩) hground hsame,
    Binding.lexical_congr (c := ⟨p.scopes, policy, config.separator⟩) hground hsame',
    Binding.lexical_congr (c := ⟨p.scopes, .keepAll, config.separator⟩) hground hsame,
    Binding.written?_of_policy h.registered.registered policy .keepAll, Binding.lexical_of_policy, hbeside.tree]
  cases Binding.written? ⟨p.scopes, .keepAll, config.separator⟩ p.tree n.name scope role with
  | none =>
    refine ⟨rebind_bind .., fun x ds hx => ?_⟩
    rcases resolution?_bind_cases hx with hlexical | hx
    · exact h.overloads_of_lexical hflat hlexical.symm
    · exact hbeside.overloads x ds hx
  | some w =>
    refine ⟨rebind_writeOutAccess policy.collapse_single hq _ _ _, fun x ds hx => ?_⟩
    rcases resolution?_writeOutAccess_cases hq hx with ⟨d, hd⟩ | hx
    · cases hd
    · exact hbeside.overloads x ds hx

/-- An access is bound side by side. -/
theorem accessed_beside (h : Registers config t root p) (hflat : t.FlatRecords config.separator)
    (hbeside : Binding.Beside {config.separator} p.scopes config.separator policy p.tree done q q')
    {id base member : NodeId} {name : String} {scope : ScopeId} {role : Role} {r r' : Resolution}
    (hr : r = Binding.memberOf ⟨p.scopes, .keepAll, config.separator⟩ q.tree
      (Binding.recordOfBase? ⟨p.scopes, .keepAll, config.separator⟩ q.tree base scope) name role)
    (hr' : r' = Binding.memberOf ⟨p.scopes, policy, config.separator⟩ q'.tree
      (Binding.recordOfBase? ⟨p.scopes, policy, config.separator⟩ q'.tree base scope) name role) :
    (Binding.accessed q' id member r').tree = (Binding.accessed q id member r).tree.rebind policy.collapse ∧
      ∀ x ds, (Binding.accessed q id member r).tree.resolution? x = some (.ambiguous ds) →
        Overloads p.tree p.scopes ds := by
  have hwalked := h.walked
  have hsame : p.tree.SameDeclarations q.tree := hbeside.invariant.same
  have hground := hwalked.grounded.sameDeclarations hwalked.proper.toWellFormed hbeside.invariant.toExtends hsame
  have hcallable : ∀ ds, q.tree.resolution? base = some (.ambiguous ds) →
      ∀ d ∈ ds, (q.tree.kind? d).any NodeKind.isCallable = true := by
    intro ds hds d hd
    have hoverloads := hbeside.overloads base ds hds
    obtain ⟨s, name, hsub⟩ := hoverloads.declared
    rw [kind?, hwalked.grounded.get?_of_mem_lookup hsame (hsub.subset hd)]
    exact hoverloads.callable d hd
  have hcollapse : r' = policy.collapse r := by
    rw [hr, hr', hbeside.tree, Binding.recordOfBase?_of_policy policy hground hcallable,
      Binding.memberOf_congr (c := ⟨p.scopes, policy, config.separator⟩) hground
        (sameDeclarations_of_unbound_eq (unbound_rebind ..)), Binding.memberOf_of_policy]
  rw [Binding.accessed, Binding.accessed, hbeside.tree, hcollapse]
  refine ⟨by simp only [rebind_bind], fun x ds hx => ?_⟩
  have hambiguous : .ambiguous ds = r → Overloads p.tree p.scopes ds := by
    rintro rfl
    rw [Binding.memberOf_congr (c := ⟨p.scopes, .keepAll, config.separator⟩) hwalked.grounded hsame] at hr
    exact h.overloads_of_memberOf hflat hr.symm
  rcases resolution?_bind_cases hx with heq | hx
  · exact hambiguous heq
  · rcases resolution?_bind_cases hx with heq | hx
    · exact hambiguous heq
    · exact hbeside.overloads x ds hx

/-- A step goes side by side. -/
theorem exec_beside (h : Registers config t root p) (hflat : t.FlatRecords config.separator)
    (hbeside : Binding.Beside {config.separator} p.scopes config.separator policy p.tree done q q')
    (hs : Binding.Placed p.scopes p.tree s) (hreads : ∀ s' ∈ done, ∀ x ∈ s.targets, x ∉ s'.reads) :
    Agree (Binding.Beside {config.separator} p.scopes config.separator policy p.tree (done ++ [s]))
      ((Binding.exec ⟨p.scopes, .keepAll, config.separator⟩ s).run q)
      ((Binding.exec ⟨p.scopes, policy, config.separator⟩ s).run q') := by
  have hp := h.walked.proper
  have hground := h.walked.grounded
  have hinvariant := hbeside.invariant
  have hpending : ∀ {x m}, x ∈ s.targets → p.tree.get? x = some m → q.tree.get? x = some m :=
    fun hx hm => hinvariant.pending hm fun s' hs' hmem => hreads s' hs' _ hx (s'.targets_subset_reads hmem)
  cases hs with
  | fail e => exact rfl
  | name hn hpn hplain hin =>
    have hq := hpending (by simp [Binding.Step.targets]) hn
    have hq' := congrArg (Option.map (Node.rebind policy.collapse)) hq
    rw [← get?_rebind, ← hbeside.tree] at hq'
    rw [Binding.exec, Binding.exec, Binding.bindName_run _ _ _ hq, Binding.bindName_run _ _ _ hq']
    obtain ⟨htree, hoverloads⟩ := h.named_beside hflat hbeside hq
    exact ⟨hinvariant.name hp hground hn hpn hplain hreads, htree, hoverloads⟩
  | access hn hpn hb hm hin =>
    obtain ⟨k, ρ, hk, -, -⟩ := hp.half hn hpn hm
    have hq := hpending (by simp [Binding.Step.targets]) hk
    have hq' := congrArg (Option.map (Node.rebind policy.collapse)) hq
    rw [← get?_rebind, ← hbeside.tree] at hq'
    rw [Binding.exec, Binding.exec, Binding.bindAccess_run _ _ _ _ _ hq, Binding.bindAccess_run _ _ _ _ _ hq']
    obtain ⟨htree, hoverloads⟩ := h.accessed_beside hflat hbeside rfl rfl
    exact ⟨hinvariant.access hp hground hn hpn hb hm hk hreads, htree, hoverloads⟩

/-- The whole walk goes side by side, over a tree in which nothing is bound yet. -/
theorem runSteps_beside (h : Registers config t root p) (hflat : t.FlatRecords config.separator)
    (hunbound : ∀ x r, p.tree.resolution? x = some r → r = .unresolved) (policy : AmbiguityPolicy) :
    Agree (Binding.Beside {config.separator} p.scopes config.separator policy p.tree
        (p.tree.bindingSteps p.scopes root))
      (runSteps (Binding.exec ⟨p.scopes, .keepAll, config.separator⟩) (p.tree.bindingSteps p.scopes root)
        { tree := p.tree })
      (runSteps (Binding.exec ⟨p.scopes, policy, config.separator⟩) (p.tree.bindingSteps p.scopes root)
        { tree := p.tree }) := by
  refine runSteps_agree ⟨.start h.walked.proper, ?_, ?_⟩ ?_
  · refine (map_eq_self fun {id n} hn => ?_).symm
    obtain ⟨_, _, _, _, payload⟩ := n
    cases payload with
    | reference r =>
      have hr := hunbound id r (resolution?_of_get? hn rfl)
      subst hr
      cases policy <;> rfl
    | member a =>
      have hr := hunbound id a.resolution (resolution?_of_get? hn rfl)
      obtain ⟨_, _, _, _⟩ := a
      simp only at hr
      subst hr
      cases policy <;> rfl
    | _ => rfl
  · intro x ds hx
    cases hunbound x _ hx
  · intro done s rest q q' hsplit hbeside
    have hpairwise : (p.tree.bindingSteps p.scopes root).Pairwise fun s s' => ∀ x ∈ s'.targets, x ∉ s.reads :=
      Binding.steps_pairwise h.walked.proper.toWellFormed
    exact h.exec_beside hflat hbeside (h.placed s (hsplit ▸ by simp)) (Binding.not_mem_reads (hsplit ▸ hpairwise))

/-- Registration goes the same way under any ambiguity policy. -/
theorem of_policy (h : Registers config t root p) (policy : AmbiguityPolicy) :
    Registers (config.under policy) t root p :=
  ⟨h.proper, h.language, h.root_eq, h.registration⟩

/-- Nothing is bound yet in the registered tree of a document. -/
theorem unresolved_of_ofSyntax (h : Registers config t root p) {document : SyntaxNode}
    (hdocument : Tree.ofSyntax document = .ok t) {x : NodeId} {r : Resolution}
    (hr : p.tree.resolution? x = some r) : r = .unresolved := by
  obtain ⟨n, hn, hpr⟩ := Option.bind_eq_some_iff.mp hr
  exact resolution?_of_ofSyntax hdocument
    (resolution?_of_get? (h.get?_of_reference hn (isReference_of_resolution? hpr)) hpr)

end Tree.RegistersIn

/-- How a pass under a policy ends beside one that keeps all candidates: in a tree with the same nodes, in which
only candidate lists have been collapsed. -/
structure Collapses (policy : AmbiguityPolicy) (T T' : Tree) (u u' : ResolvedUnit) : Prop where
  nodes : T'.unbound = T.unbound
  scopes : u'.scopes = u.scopes
  duplicates : u'.duplicates = u.duplicates
  resolution : ∀ x, T'.resolution? x = (T.resolution? x).map policy.collapse

/-- The ambiguity policy does nothing but collapse candidate lists, which are all of overloads. -/
theorem policies_collapse {document : SyntaxNode} {config : Config} {t : Tree}
    (hdocument : Tree.ofSyntax document = .ok t) (hflat : t.FlatRecords config.separator) :
    (∃ e, ∀ policy, (t.resolve (config.under policy)).result = .error e) ∨
      ∃ u, (t.resolve (config.under .keepAll)).result = .ok u ∧
        (∀ x ds, (t.resolve (config.under .keepAll)).tree.resolution? x = some (.ambiguous ds) →
          Overloads (t.resolve (config.under .keepAll)).tree u.scopes ds) ∧
        ∀ policy, ∃ u', (t.resolve (config.under policy)).result = .ok u' ∧
          Collapses policy (t.resolve (config.under .keepAll)).tree (t.resolve (config.under policy)).tree u u' := by
  have ht := Tree.proper_of_ofSyntax hdocument config.separator
  obtain ⟨root, -, hroot, -⟩ := ht.unit_root
  cases hreg : runSteps (Registration.exec config) (Registration.steps t t.depthLimit root) { tree := t } with
  | error e p =>
    refine .inl ⟨e, fun policy => ?_⟩
    have hrun : runSteps (Registration.exec (config.under policy)) (Registration.steps t t.depthLimit root)
        { tree := t } = .error e p := hreg
    have hlanguage : (config.under policy).separator ∈ ({config.separator} : Set String) := rfl
    rw [Tree.resolve_of_error ht hlanguage hroot hrun]
  | ok _ p =>
    have h : Tree.Registers config t root p := ⟨ht, rfl, hroot, hreg⟩
    have hbeside := h.runSteps_beside hflat fun x r => h.unresolved_of_ofSyntax hdocument
    cases hbind : runSteps (Binding.exec ⟨p.scopes, .keepAll, config.separator⟩)
        (p.tree.bindingSteps p.scopes root) { tree := p.tree } with
    | error e q =>
      refine .inl ⟨e, fun policy => ?_⟩
      obtain ⟨q', hq'⟩ := (hbind ▸ hbeside policy).of_error
      rw [Tree.resolve_of_binding_error (h.of_policy policy) hq']
    | ok _ q =>
      rw [Tree.resolve_of_binding (h.of_policy .keepAll) hbind]
      refine .inr ⟨_, rfl, ?_, fun policy => ?_⟩
      · intro x ds hx
        obtain ⟨_, q', -, hbeside'⟩ := (hbind ▸ hbeside .keepAll).of_ok
        exact (hbeside'.overloads x ds hx).sameDeclarations hbeside'.invariant.same
      · obtain ⟨_, q', hq', hbeside'⟩ := (hbind ▸ hbeside policy).of_ok
        rw [Tree.resolve_of_binding (h.of_policy policy) hq']
        refine ⟨_, rfl, ?_, rfl, rfl, fun x => ?_⟩
        · exact (congrArg Tree.unbound hbeside'.tree).trans (Tree.unbound_rebind ..)
        · rw [hbeside'.tree, Tree.resolution?_rebind]

/-- A class in a class, with a method that is overloaded and called. -/
def printer : SyntaxNode :=
  let node := SyntaxNode.mk none none
  node <| .translationUnit "Printer" [node <| .recordDecl "Printer" .classRecord [
    node <| .recordDecl "Page" .classRecord [
      node <| .fieldDecl "count" (some "int") false none,
      node <| .methodDecl "print" false [] none,
      node <| .methodDecl "print" false [node <| .parameterDecl "copies" (some "int")] none,
      node <| .methodDecl "printAll" false [] (some <| node <| .compound [
        node <| .call "print" (some <| node <| .reference "print") [node <| .reference "count"]])]]]

def printerTree : Tree := (printer.lower.run {}).2

theorem policies_collapse_print :
    Tree.ofSyntax printer = .ok printerTree ∧ printerTree.FlatRecords "." ∧
      (printerTree.resolve {}).tree.resolution? ⟨4⟩ = some (.ambiguous [⟨1⟩, ⟨3⟩]) ∧
      ((∃ e, ∀ policy, (printerTree.resolve (Config.under {} policy)).result = .error e) ∨
        ∃ u, (printerTree.resolve (Config.under {} .keepAll)).result = .ok u ∧
          (∀ x ds, (printerTree.resolve (Config.under {} .keepAll)).tree.resolution? x = some (.ambiguous ds) →
            Overloads (printerTree.resolve (Config.under {} .keepAll)).tree u.scopes ds) ∧
          ∀ policy, ∃ u', (printerTree.resolve (Config.under {} policy)).result = .ok u' ∧
            Collapses policy (printerTree.resolve (Config.under {} .keepAll)).tree
              (printerTree.resolve (Config.under {} policy)).tree u u') := by
  have hdocument : Tree.ofSyntax printer = .ok printerTree := rfl
  have hflat : printerTree.FlatRecords "." := by decide +kernel
  have hambiguous : (printerTree.resolve {}).tree.resolution? ⟨4⟩ = some (.ambiguous [⟨1⟩, ⟨3⟩]) := by
    decide +kernel
  exact ⟨hdocument, hflat, hambiguous, policies_collapse hdocument hflat⟩

end NameResolution
