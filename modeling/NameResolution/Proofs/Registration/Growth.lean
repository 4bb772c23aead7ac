import NameResolution.Proofs.Registration.Invariant

/-!
# What registration adds to

Entries and duplicates are only ever added, and a node that is no implicit member is entered by its own step or
not at all. So what is known of the scope tree in the end tells what each step did.
-/
namespace NameResolution.Registration
open NameResolution.Tree ScopeTree

/-- The later progress has all entries and duplicates of the earlier one. -/
structure Progress.GrowsTo (p p' : Progress) : Prop where
  entries : ∀ {e}, e ∈ p.scopes.entries → e ∈ p'.scopes.entries
  duplicates : ∀ {d}, d ∈ p.duplicates → d ∈ p'.duplicates

namespace Progress.GrowsTo
variable {p p' p'' : Progress} {s : ScopeId} {name : String} {d : NodeId}

theorem refl (p : Progress) : p.GrowsTo p := ⟨id, id⟩

theorem trans (h : p.GrowsTo p') (h' : p'.GrowsTo p'') : p.GrowsTo p'' :=
  ⟨fun he => h'.entries (h.entries he), fun hd => h'.duplicates (h.duplicates hd)⟩

theorem mem_lookup (h : p.GrowsTo p') (hd : d ∈ p.scopes.lookup s name) : d ∈ p'.scopes.lookup s name :=
  mem_lookup_iff.mpr (h.entries (mem_lookup_iff.mp hd))

end Progress.GrowsTo

section
variable {config : Config} {languages : Set String} {id x : NodeId} {n : Node} {scope inner : Option ScopeId}
  {s : ScopeId} {p p' : Progress}

theorem Declares.growsTo (h : Declares config id n scope p p') : p.GrowsTo p' := by
  cases h with
  | skipped => exact .refl p
  | entered =>
    refine ⟨fun he => ?_, fun hd => hd⟩
    dsimp only
    unfold ScopeTree.declare
    split
    · exact Array.mem_push.mpr (.inl he)
    · exact he
  | dropped => exact ⟨fun he => he, fun hd => Array.mem_push.mpr (.inl hd)⟩

theorem Opens.growsTo (h : Opens config id n scope p inner p') : p.GrowsTo p' := by
  cases h with
  | transparent => exact .refl p
  | plain => exact ⟨fun he => he, fun hd => hd⟩
  | record => exact ⟨fun he => mem_entries_declareAll.mpr (.inl he), fun hd => hd⟩

theorem Enters.growsTo (h : Enters config id n p p') : p.GrowsTo p' := by
  obtain ⟨p₁, inner, hd, ho⟩ := h.effect
  exact hd.growsTo.trans ho.growsTo

/-- A run of steps only adds. -/
theorem runSteps_growsTo {xs : List Step} (h : p.tree.ProperIn languages) (hlanguage : config.separator ∈ languages)
    (hrun : runSteps (exec config) xs p = .ok () p') : p.GrowsTo p' := by
  refine (runSteps_induction (I := fun _ q => q.tree.ProperIn languages ∧ p.GrowsTo q) ⟨h, .refl p⟩ ?_ hrun).2
  rintro - x - q q' - ⟨hq, hgrows⟩ hx -
  rcases exec_ok_cases hq hx with ⟨-, -, -, rfl⟩ | ⟨id, n, -, he⟩
  · exact ⟨hq, hgrows⟩
  · exact ⟨he.properIn hq hlanguage, hgrows.trans he.growsTo⟩

/-- Only entering a node can make an entry of it, unless it is an implicit member. -/
theorem runSteps_not_entered {xs : List Step} (h : p.tree.ProperIn languages)
    (hlanguage : config.separator ∈ languages) (hx : Step.enter x ∉ xs) (hn : p.tree.get? x = some n)
    (himplicit : ∀ record name typeName, n ≠ implicitNode x record name typeName)
    (hno : ∀ e ∈ p.scopes.entries, e.declaration ≠ x) (hrun : runSteps (exec config) xs p = .ok () p') :
    ∀ e ∈ p'.scopes.entries, e.declaration ≠ x := by
  refine (runSteps_induction_of_not_mem
    (I := fun q => q.tree.get? x = some n ∧ ∀ e ∈ q.scopes.entries, e.declaration ≠ x) h hlanguage hx
    ⟨hn, hno⟩ ?_ hrun).2
  rintro id m q q' hne he ⟨hq, hno⟩
  have hq' := he.kept hne hq
  refine ⟨hq', fun e hmem => ?_⟩
  rcases he.entry_cases hmem with hold | ⟨heq, -⟩ | ⟨name, typeName, hm⟩
  · exact hno e hold
  · rw [heq]
    exact Ne.symm hne
  · rintro rfl
    rw [hq'] at hm
    exact himplicit _ _ _ (Option.some.inj hm)

/-- What becomes of a declaration that has a name and a scope. -/
theorem declareIn_run_of_named (hd : n.kind.isDeclaration = true) (hname : declaredName config.separator n ≠ "") :
    (declareIn config id n (some s)).run p =
      match if n.kind.isUniquePerScope then holder? p s (declaredName config.separator n) else none with
      | none => .ok () { p with scopes := p.scopes.declare s (declaredName config.separator n) id }
      | some first =>
        match config.duplicates with
        | .fatal => .error (.duplicate (declaredName config.separator n) first id n.region) p
        | .keepFirst =>
          .ok () { p with
            duplicates := p.duplicates.push ⟨declaredName config.separator n, first, id, s⟩ } := by
  simp only [declareIn, if_pos hd, declare, if_neg hname, EStateM.run_bind, EStateM.run_get]
  generalize (if n.kind.isUniquePerScope then holder? p s (declaredName config.separator n) else none) = held
  cases held with
  | none => rfl
  | some first => cases config.duplicates <;> rfl

/-- What is no declaration, or has no scope around it or no name, is left out. -/
theorem declareIn_run_of_skipped
    (h : scope = none ∨ n.kind.isDeclaration = false ∨ declaredName config.separator n = "") :
    (declareIn config id n scope).run p = .ok () p := by
  cases scope with
  | none => rfl
  | some s =>
    rw [declareIn]
    split
    case isTrue hd =>
      rcases h with h | h | h
      · cases h
      · rw [h] at hd
        cases hd
      · rw [declare, if_pos h]
        rfl
    case isFalse => rfl

end

/-- No node is entered twice. -/
theorem enter_not_mem_of_split {t : Tree} {depth : Nat} {root x : NodeId} {done rest : List Step} (ht : t.WellFormed)
    (hsplit : steps t depth root = done ++ .enter x :: rest) : Step.enter x ∉ done ∧ Step.enter x ∉ rest := by
  have hpairwise := hsplit ▸ steps_pairwise ht depth root
  rw [List.pairwise_append, List.pairwise_cons] at hpairwise
  obtain ⟨-, ⟨hrest, -⟩, hdone⟩ := hpairwise
  exact ⟨fun hx => hdone _ hx _ (by simp) x x rfl rfl (.refl t x), fun hx => hrest _ hx x x rfl rfl (.refl t x)⟩

end NameResolution.Registration
