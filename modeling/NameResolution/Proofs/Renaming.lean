import NameResolution.Proofs.Binding.Renamed
import NameResolution.Proofs.LexicalBinding

/-!
# Another name for a local

A variable or parameter, together with the plain names that are bound to it, may go by any name that nothing in the
unit has. Both walks do what they did, and everything is bound as before: nothing that was bound to the declaration
is bound to anything else, and no other name looked past it only because it had the old name.
-/
namespace NameResolution

/-- The declaration `d`, and the plain names of `t` that are bound to it in `T`. -/
def Tree.mentions (t T : Tree) (d x : NodeId) : Bool :=
  x == d || t.kind? x == some .reference && T.resolution? x == some (.single d)

def ResolvedUnit.rename (d : NodeId) (name : String) (u : ResolvedUnit) : ResolvedUnit :=
  { u with scopes := u.scopes.rename d name }

open NameResolution.Tree ScopeTree Binding

namespace Tree.Pass
variable {config : Config} {t t' T : Tree} {u : ResolvedUnit} {d x : NodeId} {k m : Node} {s scope : ScopeId}
  {n name : String} {r : Resolution} {q q' : Binding.Progress} {done rest : List Step} {step : Step}

/-- What is not in the tree is not mentioned. -/
theorem mentions_of_get?_eq_none (hd : t.get? d = some k) (hx : t.get? x = none) : t.mentions T d x = false := by
  have hne : x ≠ d := by
    rintro rfl
    rw [hd] at hx
    cases hx
  rw [mentions, beq_false_of_ne hne, kind?, hx]
  rfl

/-- Of all declarations only `d` is mentioned. -/
theorem mentions_iff_of_declaration (hx : t.get? x = some m) (hm : m.kind.isDeclaration = true) :
    t.mentions T d x = true ↔ x = d := by
  have hkind : (t.kind? x == some .reference) = false := by
    rw [kind?, hx, Option.map_some]
    cases hk : m.kind <;> first | rfl | (rw [hk] at hm; cases hm)
  rw [mentions, hkind, Bool.false_and, Bool.or_false, beq_iff_eq]

/-- A plain name is mentioned if its level binds it to the declaration. -/
theorem mentions_iff (h : Pass config t t' T u) (hlocal : Registration.HasLocal t u.scopes d s n name)
    (hx : t'.get? x = some m) (hp : m.payload = .reference r) (hplain : ¬ t'.IsMemberHalf x)
    (hinner : t'.enclosingScope? u.scopes x = some scope) :
    t.mentions T d x = true ↔ lexical (u.context config) t' m.name scope (t'.roleOf x) = .single d := by
  have hkind : m.kind = .reference := by rw [Node.kind, hp]; rfl
  have hm : t.get? x = some m := h.get?_of_reference hx (by rw [hkind]; rfl)
  have hne : x ≠ d := by
    rintro rfl
    obtain ⟨k, hk, hlocal⟩ := hlocal.isLocal
    rw [hm] at hk
    cases hk
    rw [hkind] at hlocal
    rcases hlocal with hk | hk <;> cases hk
  obtain ⟨scope', hinner', hbound⟩ := h.resolution?_name hx hp hplain
  rw [hinner] at hinner'
  cases hinner'
  rw [lexical_congr (c := u.context config) h.walked.grounded h.bound.same] at hbound
  have href : (t.kind? x == some .reference) = true := by
    rw [kind?, hm, Option.map_some, hkind]
    rfl
  rw [mentions, beq_false_of_ne hne, href, hbound, Bool.false_or, Bool.true_and, beq_iff_eq, Option.some.injEq]

/-- No member half is mentioned, since members are declared in records. -/
theorem mentions_of_isMemberHalf (h : Pass config t t' T u) (hlocal : Registration.HasLocal t u.scopes d s n name)
    (hplace : ∀ sc, u.scopes.get? s = some sc → sc.kind ≠ .record) (hx : t'.IsMemberHalf x) :
    t.mentions T d x = false := by
  have hreg := h.registered_end
  have hlocalT := hlocal.mono h.toExtends
  obtain ⟨e, m, a, hm, hp, hhalf⟩ := hx
  obtain ⟨_, member, scope, r, -, hmember, -, -, hbound, hr⟩ := h.exists_access hm hp
  rw [hhalf] at hmember
  cases hmember
  obtain ⟨k, _, hk, hkp, -⟩ := h.walked.proper.half hm hp hhalf
  rw [← Bool.not_eq_true]
  intro hmention
  have hsingle : r = .single d := by
    rw [mentions, hbound, Bool.or_eq_true, Bool.and_eq_true, beq_iff_eq, beq_iff_eq, beq_iff_eq,
      Option.some.injEq] at hmention
    refine hmention.elim (fun hd => ?_) And.right
    obtain ⟨k', hk', hkind⟩ := (hlocal.mono h.walked.toExtends).isLocal
    rw [← hd, hk] at hk'
    cases hk'
    rw [Node.kind, hkp] at hkind
    rcases hkind with hkind | hkind <;> cases hkind
  rcases memberOf_cases (u.context config) t' (recordOfBase? (u.context config) T _ scope) m.name (t'.roleOf e) with
    hnone | ⟨record, q, hrecord, hq, heq⟩
  · rw [hr, hnone] at hsingle
    cases hsingle
  · exact not_mem_lookup_of_record (c := u.context config) hlocalT hreg hplace
      (kind?_of_recordOfBase? (c := u.context config) hreg hrecord) hq m.name
      (mem_lookup_of_apply (heq.symm.trans (hr.symm.trans hsingle)))

/-- A step binds what it bound, under the names that there are now. -/
theorem exec_rename (h : Pass config t t' T u) (hlocal : Registration.HasLocal t u.scopes d s n name)
    (hplace : ∀ sc, u.scopes.get? s = some sc → sc.kind ≠ .record)
    (hnodes : ∀ x m, t.get? x = some m → m.name ≠ name) (hplaced : Placed u.scopes t' step)
    (hinv : Binding.Invariant {config.separator} (u.context config) t' done q)
    (hpending : ∀ x ∈ step.targets, ∀ m, t'.get? x = some m → q.tree.get? x = some m)
    (hrun : (exec (u.context config) step).run q = .ok () q') :
    (exec ((u.context config).rename d name) step).run (q.rename (t.mentions T d) name) =
      .ok () (q'.rename (t.mentions T d) name) := by
  have hwf := h.walked.proper.toWellFormed
  have hextends := h.walked.toExtends.trans hinv.toExtends
  have hreg : Registration.Registered (u.context config).separator q.tree (u.context config).scopes :=
    h.registered.registered.sameDeclarations hwf hinv.toExtends hinv.same
  have hlocalq : Registration.HasLocal q.tree (u.context config).scopes d s n name := hlocal.mono hextends
  have hname : ∀ {x m}, t'.get? x = some m → m.kind = .reference → m.name ≠ name :=
    fun hx hk => hnodes _ _ (h.get?_of_reference hx (by rw [hk]; rfl))
  cases hplaced with
  | fail => cases hrun
  | @name x m r scope hx hp hplain hinner =>
    have hid : m.id = x := hwf.own_id hx
    have hkind : m.kind = .reference := by rw [Node.kind, hp]; rfl
    have hqx := hpending x (List.mem_singleton_self x) m hx
    have hmentions := h.mentions_iff hlocal hx hp hplain hinner
    rw [← lexical_congr (c := u.context config) h.walked.grounded hinv.same] at hmentions
    rw [exec, bindName_run _ scope _ hqx] at hrun
    cases hrun
    rw [exec, bindName_run (p := q.rename (t.mentions T d) name) _ scope _ (get?_rename_of_get? hqx)]
    refine congrArg (EStateM.Result.ok ()) ?_
    by_cases hmention : t.mentions T d x = true
    case pos =>
      rw [Node.name_rename _ _ (hid ▸ hmention) (by rw [hkind]; rfl)]
      exact named_rename_self hlocalq hreg (hmentions.mp hmention)
    case neg =>
      have hlexical := mt hmentions.mpr hmention
      rw [Bool.not_eq_true] at hmention
      obtain ⟨k, hd, -⟩ := hlocal.isLocal
      rw [Node.rename_of_id _ _ (hid ▸ hmention)]
      exact named_rename_of_ne hlocalq hreg (hname hx hkind) hlexical hqx (hid ▸ hmention)
        fun k' hk' => mentions_of_get?_eq_none hd (hextends.get?_eq_none hk')
  | @access x m a base member scope hx hp hbase hmember hinner =>
    obtain ⟨k, r, hk, hkp, -⟩ := h.walked.proper.half hx hp hmember
    have hqk := hpending member (by simp [Step.targets]) k hk
    have hkeep : k.rename (t.mentions T d) name = k := by
      refine Node.rename_of_id _ _ ?_
      rw [hwf.own_id hk]
      exact h.mentions_of_isMemberHalf hlocal hplace ⟨x, m, a, hx, hp, hmember⟩
    have hqk' : (q.tree.rename (t.mentions T d) name).get? member = some k := hkeep ▸ get?_rename_of_get? hqk
    rw [exec, bindAccess_run _ x base scope _ hqk] at hrun
    cases hrun
    rw [exec, bindAccess_run (p := q.rename (t.mentions T d) name) _ x base scope _ hqk']
    have hrecord : recordOfBase? ((u.context config).rename d name) (q.rename (t.mentions T d) name).tree base scope =
        recordOfBase? (u.context config) q.tree base scope := recordOfBase?_rename hlocalq base scope
    have hmemberOf : memberOf ((u.context config).rename d name) (q.rename (t.mentions T d) name).tree
          (recordOfBase? (u.context config) q.tree base scope) k.name (t'.roleOf x) =
        memberOf (u.context config) q.tree (recordOfBase? (u.context config) q.tree base scope) k.name (t'.roleOf x) :=
      memberOf_rename hlocalq hreg hplace (hname hk (by rw [Node.kind, hkp]; rfl))
        fun e he => kind?_of_recordOfBase? (c := u.context config) hreg he
    rw [hrecord, hmemberOf]
    simp only [accessed, Binding.Progress.rename, bind_rename]

/-- Binding ends as it did, under the names that there are now. -/
theorem binding_rename (h : Pass config t t' T u) (hlocal : Registration.HasLocal t u.scopes d s n name)
    (hplace : ∀ sc, u.scopes.get? s = some sc → sc.kind ≠ .record)
    (hnodes : ∀ x m, t.get? x = some m → m.name ≠ name) :
    runSteps (exec ((u.context config).rename d name)) (t'.bindingSteps u.scopes u.root)
        { tree := t'.rename (t.mentions T d) name } =
      .ok () (Binding.Progress.rename (t.mentions T d) name ⟨T, u.bindings⟩) := by
  have hproper := h.walked.proper
  have hpairwise : (t'.bindingSteps u.scopes u.root).Pairwise fun s s' => ∀ x ∈ s'.targets, x ∉ s.reads :=
    Binding.steps_pairwise hproper.toWellFormed
  refine (runSteps_induction
    (I := fun done q => Binding.Invariant {config.separator} (u.context config) t' done q ∧
      runSteps (exec ((u.context config).rename d name)) done { tree := t'.rename (t.mentions T d) name } =
        .ok () (q.rename (t.mentions T d) name))
    ⟨.start hproper, rfl⟩ ?_ h.binding).2
  rintro done step rest q q' hsplit ⟨hinv, hdone⟩ hstep -
  have hplaced := h.placed step (hsplit ▸ List.mem_append_right _ (List.mem_cons_self ..))
  have hreads := not_mem_reads (hsplit ▸ hpairwise)
  have hinv' : Binding.Invariant {config.separator} (u.context config) t' (done ++ [step]) q' := by
    rcases hinv.step hproper h.walked.grounded hplaced hreads with ⟨q₂, hr, h'⟩ | ⟨_, -, hr⟩
    · rw [hr] at hstep
      cases hstep
      exact h'
    · rw [hr] at hstep
      cases hstep
  refine ⟨hinv', ?_⟩
  rw [runSteps_append, hdone]
  refine (runSteps_singleton ..).trans (h.exec_rename hlocal hplace hnodes hplaced hinv ?_ hstep)
  exact fun x hx m hm => hinv.pending hm fun s' hs' hmem => hreads s' hs' x hx (s'.targets_subset_reads hmem)

/-- The pass over the tree with the new name ends as the pass over the tree did. -/
theorem outcome_rename (h : Pass config t t' T u) (hu : (t.resolve config).result = .ok u)
    (hlocal : Registration.HasLocal t u.scopes d s n name)
    (hplace : ∀ sc, u.scopes.get? s = some sc → sc.kind ≠ .record)
    (halone : ∀ x ∈ u.duplicates, x.scope = s → x.name ≠ n) (hname : name ≠ "")
    (hnodes : ∀ x m, t.get? x = some m → m.name ≠ name) :
    (t.rename (t.mentions T d) name).resolve config =
      ⟨.ok (u.rename d name), T.rename (t.mentions T d) name⟩ := by
  have hrenames : Registration.Renames (t.mentions T d) d s n name t ⟨t', u.scopes, u.duplicates⟩ :=
    ⟨hlocal, halone, hname, mentions_iff_of_declaration⟩
  have hregisters := hrenames.registers h.toRegistersIn fun x hx =>
    h.mentions_of_isMemberHalf hlocal hplace (h.walked.toExtends.isMemberHalf_of hx)
  have hsteps : (t'.rename (t.mentions T d) name).bindingSteps (u.scopes.rename d name) u.root =
      t'.bindingSteps u.scopes u.root := by
    rw [bindingSteps, bindingSteps, depthLimit_rename, bindingSteps_rename _ _ (scopes_rename d name u.scopes),
      scopeOf?_congr (scopes_rename d name u.scopes)]
  have hbinding := h.binding_rename hlocal hplace hnodes
  rw [← hsteps] at hbinding
  rw [resolve_of_binding hregisters hbinding, ResolvedUnit.rename]
  rw [resolve_of_binding h.toRegistersIn h.binding] at hu
  have hstate : .resolved = u.state := congrArg ResolvedUnit.state (Except.ok.inj hu)
  obtain ⟨_, _, _, _, _, _, _⟩ := u
  cases hstate
  rfl

end Tree.Pass
/-- A variable or parameter that is declared outside records, alone under its name, may go by any other name that is
found nowhere, together with the plain names that are bound to it: the unit and the tree come out as before but for
that name, with every node bound to what it was bound to. -/
theorem resolve_rename {document : SyntaxNode} {config : Config} {t : Tree} {u : ResolvedUnit} {d : NodeId}
    {s : ScopeId} {sc : Scope} {n name : String} (hdocument : Tree.ofSyntax document = .ok t)
    (hresolve : (t.resolve config).result = .ok u)
    (hlocal : t.kind? d = some .variableDecl ∨ t.kind? d = some .parameterDecl)
    (hdeclared : d ∈ u.scopes.lookup s n) (hs : u.scopes.get? s = some sc) (hplace : sc.kind ≠ .record)
    (halone : ∀ x ∈ u.duplicates, x.scope = s → x.name ≠ n) (hname : name ≠ "")
    (hnodes : ∀ m ∈ t.nodes, m.name ≠ name) (hentries : ∀ e ∈ u.scopes.entries, e.name ≠ name) :
    let T := (t.resolve config).tree
    let renamed := (t.rename (t.mentions T d) name).resolve config
    renamed = ⟨.ok (u.rename d name), T.rename (t.mentions T d) name⟩ ∧
      ∀ x, renamed.tree.kind? x = T.kind? x ∧
        (renamed.tree.get? x).map Node.children = (T.get? x).map Node.children ∧
        renamed.tree.resolution? x = T.resolution? x := by
  intro T renamed
  obtain ⟨t', hpass⟩ := exists_pass (proper_of_ofSyntax hdocument config.separator) hresolve
  have hisLocal : ∃ k, t.get? d = some k ∧ (k.kind = .variableDecl ∨ k.kind = .parameterDecl) := by
    rcases hlocal with hk | hk
    all_goals obtain ⟨k, hd, hk⟩ := Option.map_eq_some_iff.mp hk
    · exact ⟨k, hd, .inl hk⟩
    · exact ⟨k, hd, .inr hk⟩
  have hrenamed : renamed = ⟨.ok (u.rename d name), T.rename (t.mentions T d) name⟩ := by
    refine hpass.outcome_rename hresolve ⟨hdeclared, hisLocal, hentries⟩ (fun sc' hsc => ?_) halone hname
      fun x m hm => hnodes m (Array.mem_of_getElem? hm)
    rw [hs] at hsc
    cases hsc
    exact hplace
  refine ⟨hrenamed, fun x => ?_⟩
  rw [hrenamed]
  refine ⟨kind?_rename .., ?_, resolution?_rename ..⟩
  rw [get?_rename, Option.map_map]
  rfl

/-- A scaling with a parameter that is named like the function it calls. -/
def scaling : SyntaxNode :=
  let node := SyntaxNode.mk none none
  node <| .translationUnit "Scaling" [
    node <| .functionDecl "step" [] (some <| node <| .compound []),
    node <| .recordDecl "Scaling" .classRecord [
      node <| .fieldDecl "factor" (some "int") false none,
      node <| .methodDecl "apply" false [node <| .parameterDecl "step" (some "int")] (some <| node <| .compound [
        node <| .call "step" (some <| node <| .reference "step") [node <| .reference "factor"],
        node <| .returnStatement (some <| node <| .reference "step")])]]

def scalingTree : Tree := (scaling.lower.run {}).2

def scalingUnit : ResolvedUnit where
  root := ⟨12⟩
  scopes :=
    { scopes := #[⟨.translationUnit, ⟨12⟩, none⟩, ⟨.function, ⟨1⟩, some ⟨0⟩⟩, ⟨.block, ⟨0⟩, some ⟨1⟩⟩,
        ⟨.record, ⟨11⟩, some ⟨0⟩⟩, ⟨.function, ⟨10⟩, some ⟨3⟩⟩, ⟨.block, ⟨9⟩, some ⟨4⟩⟩]
      entries := #[⟨⟨0⟩, "step", ⟨1⟩⟩, ⟨⟨0⟩, "Scaling", ⟨11⟩⟩, ⟨⟨3⟩, "this", ⟨13⟩⟩, ⟨⟨3⟩, "factor", ⟨2⟩⟩,
        ⟨⟨3⟩, "apply", ⟨10⟩⟩, ⟨⟨4⟩, "step", ⟨3⟩⟩]
      records := #[("Scaling", ⟨11⟩)] }
  duplicates := #[]
  unresolved := #[]
  resolved := 3
  implicitMembers := 1
  state := .resolved

theorem resolve_rename_step :
    Tree.ofSyntax scaling = .ok scalingTree ∧ (scalingTree.resolve {}).result = .ok scalingUnit ∧
      (scalingTree.kind? ⟨3⟩ = some .variableDecl ∨ scalingTree.kind? ⟨3⟩ = some .parameterDecl) ∧
      ⟨3⟩ ∈ scalingUnit.scopes.lookup ⟨4⟩ "step" ∧
      scalingUnit.scopes.get? ⟨4⟩ = some ⟨.function, ⟨10⟩, some ⟨3⟩⟩ ∧ ScopeKind.function ≠ .record ∧
      (∀ x ∈ scalingUnit.duplicates, x.scope = ⟨4⟩ → x.name ≠ "step") ∧ "amount" ≠ "" ∧
      (∀ m ∈ scalingTree.nodes, m.name ≠ "amount") ∧ (∀ e ∈ scalingUnit.scopes.entries, e.name ≠ "amount") ∧
      let T := (scalingTree.resolve {}).tree
      let renamed := (scalingTree.rename (scalingTree.mentions T ⟨3⟩) "amount").resolve {}
      renamed = ⟨.ok (scalingUnit.rename ⟨3⟩ "amount"), T.rename (scalingTree.mentions T ⟨3⟩) "amount"⟩ ∧
        ∀ x, renamed.tree.kind? x = T.kind? x ∧
          (renamed.tree.get? x).map Node.children = (T.get? x).map Node.children ∧
          renamed.tree.resolution? x = T.resolution? x := by
  have hdocument : Tree.ofSyntax scaling = .ok scalingTree := rfl
  have hresolve : (scalingTree.resolve {}).result = .ok scalingUnit := by decide +kernel
  have hlocal : scalingTree.kind? ⟨3⟩ = some .variableDecl ∨ scalingTree.kind? ⟨3⟩ = some .parameterDecl := by
    decide +kernel
  have hdeclared : ⟨3⟩ ∈ scalingUnit.scopes.lookup ⟨4⟩ "step" := by decide +kernel
  have hs : scalingUnit.scopes.get? ⟨4⟩ = some ⟨.function, ⟨10⟩, some ⟨3⟩⟩ := rfl
  have hplace : ScopeKind.function ≠ .record := by decide
  have halone : ∀ x ∈ scalingUnit.duplicates, x.scope = ⟨4⟩ → x.name ≠ "step" := by decide
  have hname : "amount" ≠ "" := by decide
  have hnodes : ∀ m ∈ scalingTree.nodes, m.name ≠ "amount" := by decide +kernel
  have hentries : ∀ e ∈ scalingUnit.scopes.entries, e.name ≠ "amount" := by decide +kernel
  exact ⟨hdocument, hresolve, hlocal, hdeclared, hs, hplace, halone, hname, hnodes, hentries,
    resolve_rename hdocument hresolve hlocal hdeclared hs hplace halone hname hnodes hentries⟩

end NameResolution
