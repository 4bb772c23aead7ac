import NameResolution.Proofs.Incomplete

/-!
# Walks are deep enough

Both walks carry a depth that goes down by one from a node to those below it, and give up with an error of
its own where it is used up. In a tree the depth that they begin with is never used up: a walk is the run of
its steps, and no step ends in that error.
-/
namespace NameResolution

/-- The errors that a pass over a tree may end in: that a node stands below itself is none of them, and duplicates are
errors only where the policy says so. -/
def ResolveError.Arises (policy : DuplicatePolicy) : ResolveError → Prop
  | malformed _ _ fault => fault ≠ .nestedInItself
  | duplicate .. => policy = .fatal
  | missingRoot => False

theorem Access.ne_nestedInItself_of_fault? {a : Access} {fault : Fault} (h : a.fault? = some fault) :
    fault ≠ .nestedInItself := by
  rcases Access.fault?_eq_some_iff.mp h with ⟨-, rfl⟩ | ⟨-, -, rfl⟩ <;> exact Fault.noConfusion

namespace Registration
variable {policy : DuplicatePolicy}

theorem raises_fetch (id : NodeId) : RaisesOnly (ResolveError.Arises policy) (fetch id) := by
  refine .bind .get fun p => ?_
  split
  · exact .pure _
  · exact .throw Fault.noConfusion

theorem raises_checkSlot (owner : Node) (slot : Slot) :
    RaisesOnly (ResolveError.Arises policy) (checkSlot owner slot) := by
  unfold checkSlot
  split
  · exact .pure _
  · refine .bind (raises_fetch _) fun n => ?_
    split
    · exact .pure _
    · exact .throw Fault.noConfusion

/-- All that can be wrong with a declaration is that it is a duplicate. -/
theorem raises_declareIn (config : Config) (id : NodeId) (node : Node) (scope : Option ScopeId) :
    RaisesOnly (fun e => config.duplicates = .fatal ∧ ∃ name first region, e = .duplicate name first id region)
      (declareIn config id node scope) := by
  unfold declareIn
  split
  · exact .pure _
  · split
    · unfold declare
      simp only
      split
      · exact .pure _
      · refine .bind .get fun p => ?_
        split
        · exact .modifyGet _
        · split
          case h_1 hpolicy => exact .throw ⟨hpolicy, _, _, _, rfl⟩
          case h_2 => exact .set _
    · exact .pure _

theorem raises_implicitField (record : NodeId) (earlier : Option NodeId) (name typeName : String) :
    RaisesOnly (ResolveError.Arises policy) (implicitField record earlier name typeName) := by
  unfold implicitField
  split
  · exact .pure _
  · exact .modifyGet _

theorem raises_addImplicitMembers (config : Config) (id : NodeId) (record : Record) (qualified : String)
    (scope : ScopeId) :
    RaisesOnly (ResolveError.Arises policy) (addImplicitMembers config id record qualified scope) := by
  refine .bind (raises_implicitField _ _ _ _) fun this => ?_
  refine .bind (.modifyGet _) fun _ => .bind .get fun p => .bind (.mapM fun outer _ => ?_) fun outers => ?_
  · refine .bind .get fun p => .bind (raises_implicitField _ _ _ _) fun f => ?_
    exact .bind (.modifyGet _) fun _ => .pure _
  · exact .modifyGet _

theorem raises_innerScope (config : Config) (id : NodeId) (node : Node) (scope : Option ScopeId) :
    RaisesOnly (ResolveError.Arises policy) (innerScope config id node scope) := by
  unfold innerScope
  split
  · refine .map _ (.bind .get fun p => .bind (.modifyGet _) fun _ => .bind (.modifyGet _) fun s => ?_)
    refine .bind (.forM fun slot _ => raises_checkSlot _ slot) fun _ => ?_
    exact .bind (raises_addImplicitMembers _ _ _ _ _) fun _ => .pure _
  · split
    · exact .map _ (.modifyGet _)
    · exact .pure _

theorem raises_exec (config : Config) (x : Step) : RaisesOnly (ResolveError.Arises config.duplicates) (exec config x) := by
  cases x with
  | enter id =>
    have hdeclare : ∀ n scope, RaisesOnly (ResolveError.Arises config.duplicates) (declareIn config id n scope) := by
      refine fun n scope => (raises_declareIn config id n scope).mono ?_
      rintro _ ⟨hfatal, _, _, _, rfl⟩
      exact hfatal
    refine .bind (raises_fetch id) fun n => .bind .get fun p => .bind (hdeclare _ _) fun _ => ?_
    exact .bind (raises_innerScope _ _ _ _) fun _ => .pure _
  | check owner slot => exact .bind (raises_fetch owner) fun n => raises_checkSlot n slot

end Registration

namespace Binding
variable {policy : DuplicatePolicy}

theorem raises_fetch (id : NodeId) : RaisesOnly (ResolveError.Arises policy) (fetch id) := by
  refine .bind .get fun p => ?_
  split
  · exact .pure _
  · exact .throw Fault.noConfusion

theorem raises_bindName (c : Context) (id : NodeId) (scope : ScopeId) (role : Role) :
    RaisesOnly (ResolveError.Arises policy) (bindName c id scope role) := by
  refine .bind (raises_fetch id) fun n => .bind .get fun p => ?_
  split
  · exact .modifyGet _
  · refine .bind .get fun p => ?_
    dsimp only
    split <;> exact .modifyGet _

theorem raises_bindAccess (c : Context) (id base member : NodeId) (scope : ScopeId) (role : Role) :
    RaisesOnly (ResolveError.Arises policy) (bindAccess c id base member scope role) :=
  .bind (raises_fetch member) fun _ => .bind .get fun _ => .bind (.modifyGet _) fun _ => .modifyGet _

theorem arises_of_fail_mem {S : ScopeTree} {t : Tree} {depth : Nat} {id : NodeId} {outer : ScopeId} {role : Role}
    {e : ResolveError} (h : Step.fail e ∈ steps S t depth id outer role) : e.Arises policy := by
  obtain ⟨x, region, fault, hlack, rfl⟩ := exists_lack_of_fail_mem h
  obtain ⟨_, _, _, _, _, hf⟩ := Tree.lack?_eq_some_iff.mp hlack
  exact Access.ne_nestedInItself_of_fault? hf

theorem raises_exec (c : Context) {s : Step} (hs : ∀ e, s = .fail e → e.Arises policy) :
    RaisesOnly (ResolveError.Arises policy) (exec c s) := by
  cases s with
  | name id scope role => exact raises_bindName c id scope role
  | access id base member scope role => exact raises_bindAccess c id base member scope role
  | fail e => exact .throw (hs e rfl)

end Binding

namespace Tree
variable {languages : Set String} {t : Tree} {config : Config} {root : NodeId} {e : ResolveError}

/-- Binding takes no notice of duplicates. -/
theorem arises_of_binding {policy : DuplicatePolicy} {c : Binding.Context} {S : ScopeTree}
    {p q : Binding.Progress} (h : runSteps (Binding.exec c) (t.bindingSteps S root) p = .error e q) :
    e.Arises policy := by
  refine RaisesOnly.forM (fun s hs => Binding.raises_exec c ?_) _ _ _ h
  rintro e rfl
  exact Binding.arises_of_fail_mem hs

/-- A pass over a tree never ends for want of depth. -/
theorem ProperIn.arises_of_resolve (ht : t.ProperIn languages) (hlanguage : config.separator ∈ languages)
    (he : (t.resolve config).result = .error e) : e.Arises config.duplicates := by
  obtain ⟨root, -, hr, -⟩ := ht.unit_root
  cases hreg : runSteps (Registration.exec config) (Registration.steps t t.depthLimit root) { tree := t } with
  | error e' p =>
    rw [resolve_of_error ht hlanguage hr hreg] at he
    cases he
    exact RaisesOnly.forM (fun x _ => Registration.raises_exec config x) _ _ _ hreg
  | ok _ p =>
    rw [resolve_of_registers ⟨ht, hlanguage, hr, hreg⟩] at he
    cases hbind : runSteps (Binding.exec ⟨p.scopes, config.ambiguity, config.separator⟩)
        (p.tree.bindingSteps p.scopes root) { tree := p.tree } with
    | ok _ q =>
      simp only [hbind] at he
      cases he
    | error e' q =>
      simp only [hbind, Except.error.injEq] at he
      exact he ▸ arises_of_binding hbind

end Tree
end NameResolution
