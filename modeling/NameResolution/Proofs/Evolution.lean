import NameResolution.Proofs.Resolve

/-!
# Trees that have been gone over

A tree may have been resolved or registered any number of times, each time with an outcome of its own. All that later
registrations take from that is that the tree is still proper, and extends the one it was. What changes are the references,
and the records that have not been registered before: a record that has its implicit members is complete.
-/
namespace NameResolution

namespace Tree

/-- What passes and registrations in the given languages make of the tree `t`, however they end. -/
inductive Evolves (languages : Set String) (t : Tree) : Tree → Prop
  | start : Evolves languages t t
  | resolve {T : Tree} (before : Evolves languages t T) {config : Config} (language : config.separator ∈ languages) :
      Evolves languages t (T.resolve config).tree
  | register {T : Tree} (before : Evolves languages t T) {config : Config} (language : config.separator ∈ languages)
      (root : NodeId) : Evolves languages t (T.register config root).tree

/-- References may be bound anew and bare records get their members. Everything else stays as it is. -/
def KeepsCompleted (t t' : Tree) : Prop :=
  ∀ x n, t.get? x = some n → n.kind.isReference = false → (∀ r, n.payload = .recordDecl r → ¬ r.IsBare) →
    t'.get? x = some n

variable {languages : Set String} {t t' T : Tree} {config : Config} {root : NodeId} {reg : Registration}

theorem KeepsCompleted.refl (t : Tree) : t.KeepsCompleted t := fun _ _ hn _ _ => hn

theorem KeepsCompleted.trans (h : t.KeepsCompleted t') (h' : t'.KeepsCompleted T) : t.KeepsCompleted T :=
  fun x n hn hk hr => h' x n (h x n hn hk hr) hk hr

theorem SameDeclarations.keepsCompleted (h : t.SameDeclarations t') : t.KeepsCompleted t' :=
  fun _ _ hn hk _ => (h hk).mpr hn

end Tree

namespace Registration
open NameResolution.Tree

variable {config : Config} {languages : Set String} {id : NodeId} {n : Node} {p p' : Progress}

theorem Enters.keepsCompleted (h : Enters config id n p p') : p.tree.KeepsCompleted p'.tree := by
  intro x m hm _ hbare
  obtain ⟨p₁, inner, hd, ho⟩ := h.effect
  rw [← hd.tree_eq] at hm
  have hn : p₁.tree.get? id = some n := hd.tree_eq ▸ h.node
  cases ho with
  | transparent | plain => exact hm
  | record hp hsup =>
    rcases hsup.cases hn hp with ⟨-, rfl⟩ | ⟨hr, -, hgrows⟩
    · exact hm
    · refine hgrows.kept ?_ hm
      rintro rfl
      rw [hn] at hm
      cases hm
      exact hbare _ hp hr

/-- Registration completes records and changes nothing else, also if it fails. -/
theorem runSteps_keepsCompleted (h : p.tree.ProperIn languages) (hlanguage : config.separator ∈ languages)
    (xs : List Step) : p.tree.KeepsCompleted (endState (runSteps (exec config) xs p)).tree := by
  refine (endState_runSteps (I := fun q : Progress => q.tree.ProperIn languages ∧ p.tree.KeepsCompleted q.tree) ?_
    ⟨h, .refl _⟩).2
  rintro x - q ⟨hq, hkept⟩
  exact ⟨(exec_keeps hq hlanguage x).1,
    hkept.trans (exec_relates (R := fun t t' => t.KeepsCompleted t') hq (.refl _) (fun he => he.keepsCompleted) x)⟩

end Registration

namespace Tree

variable {languages : Set String} {t t' T : Tree} {config : Config} {root : NodeId} {reg : Registration}

theorem ProperIn.register_keepsCompleted (h : t.ProperIn languages) (hlanguage : config.separator ∈ languages)
    (root : NodeId) : t.KeepsCompleted (t.register config root).tree := by
  cases hn : t.get? root with
  | none =>
    rw [register_of_get?_none hn]
    exact .refl t
  | some n =>
    have hkept := Registration.runSteps_keepsCompleted (p := { tree := t }) h hlanguage
      (Registration.steps t t.depthLimit root)
    rw [register_eq_of_get? h hlanguage hn]
    cases hrun : runSteps (Registration.exec config) (Registration.steps t t.depthLimit root) { tree := t } with
    | ok _ p =>
      rw [hrun] at hkept
      exact hkept
    | error e p =>
      rw [hrun] at hkept
      exact hkept

theorem ProperIn.resolve_keepsCompleted (h : t.ProperIn languages) (hlanguage : config.separator ∈ languages) :
    t.KeepsCompleted (t.resolve config).tree := by
  obtain ⟨root, -, hroot, -⟩ := h.unit_root
  have hkept := Registration.runSteps_keepsCompleted (p := { tree := t }) h hlanguage
    (Registration.steps t t.depthLimit root)
  cases hrun : runSteps (Registration.exec config) (Registration.steps t t.depthLimit root) { tree := t } with
  | ok _ p =>
    rw [hrun] at hkept
    have hreg : RegistersIn languages config t root p := ⟨h, hlanguage, hroot, hrun⟩
    exact hkept.trans (SameDeclarations.keepsCompleted hreg.resolve_keeps.2.2)
  | error e p =>
    rw [hrun] at hkept
    rw [resolve_of_error h hlanguage hroot hrun]
    exact hkept

/-- What later passes and registrations keep. -/
theorem Evolves.keeps (h : t.Evolves languages T) (ht : t.ProperIn languages) :
    T.ProperIn languages ∧ t.Extends T ∧ t.KeepsCompleted T := by
  induction h with
  | start => exact ⟨ht, .refl t, .refl t⟩
  | resolve _ language ih =>
    obtain ⟨hT, hext, hkept⟩ := ih
    obtain ⟨hT', hext'⟩ := hT.resolve_keeps language
    exact ⟨hT', hext.trans hext', hkept.trans (hT.resolve_keepsCompleted language)⟩
  | register _ language root ih =>
    obtain ⟨hT, hext, hkept⟩ := ih
    obtain ⟨hT', hext', -⟩ := hT.register_keeps language root
    exact ⟨hT', hext.trans hext', hkept.trans (hT.register_keepsCompleted language root)⟩

/-- Registration of a unit that succeeds is a run of steps that succeeds. -/
theorem registersIn_of_register (hT : T.ProperIn languages) (hlanguage : config.separator ∈ languages)
    (hroot : T.root = some root) (hreg : (T.register config root).result = .ok reg) :
    RegistersIn languages config T root ⟨(T.register config root).tree, reg.scopes, reg.duplicates⟩ := by
  have heq := register_eq hT hlanguage hroot
  cases hrun : runSteps (Registration.exec config) (Registration.steps T T.depthLimit root)
      { tree := T } with
  | error e p =>
    rw [hrun] at heq
    rw [heq] at hreg
    cases hreg
  | ok _ p =>
    rw [hrun] at heq
    rw [heq] at hreg ⊢
    cases hreg
    exact ⟨hT, hlanguage, hroot, hrun⟩

end Tree
end NameResolution
