import NameResolution.Proofs.Depth

/-!
# Walks without a limit

The limit of a walk stands in for the end that its recursion comes to by itself. A walk that is not cut off makes no
use of it: under any larger limit it comes to the same, so that all limits under which a pass comes to its end agree on
how it ends and on the tree that it leaves behind. The trees of documents are never cut off.
-/
namespace NameResolution

def ResolveError.IsCut (e : ResolveError) : Prop := ∃ id, e = .malformed id none .nestedInItself

theorem ResolveError.Arises.not_isCut {policy : DuplicatePolicy} {e : ResolveError} (h : e.Arises policy) :
    ¬ e.IsCut := by
  rintro ⟨id, rfl⟩
  exact h rfl

section
variable {σ α β : Type}

/-- The second computation does what the first does, unless that is cut off. -/
def Deepens (x y : EStateM ResolveError σ α) : Prop :=
  ∀ s, (∃ e s', x.run s = .error e s' ∧ e.IsCut) ∨ y.run s = x.run s

namespace Deepens
variable {x y z : EStateM ResolveError σ α}

theorem refl (x : EStateM ResolveError σ α) : Deepens x x := fun _ => .inr rfl

theorem cut (id : NodeId) (y : EStateM ResolveError σ α) :
    Deepens (throw (.malformed id none .nestedInItself)) y :=
  fun s => .inl ⟨_, s, rfl, id, rfl⟩

theorem trans (hxy : Deepens x y) (hyz : Deepens y z) : Deepens x z := by
  intro s
  rcases hxy s with hcut | hx
  · exact .inl hcut
  · rcases hyz s with hcut | hy
    · exact .inl (hx ▸ hcut)
    · exact .inr (hy.trans hx)

theorem bind {f g : α → EStateM ResolveError σ β} (hx : Deepens x y) (hf : ∀ a, Deepens (f a) (g a)) :
    Deepens (x >>= f) (y >>= g) := by
  intro s
  rcases hx s with ⟨e, s', hcut, he⟩ | hsame
  · exact .inl ⟨e, s', run_bind_error hcut f, he⟩
  · rw [EStateM.run_bind, EStateM.run_bind, hsame]
    cases x.run s with
    | ok a s' => exact hf a s'
    | error e s' => exact .inr rfl

theorem forM {xs : List α} {f g : α → EStateM ResolveError σ PUnit} (hf : ∀ a, Deepens (f a) (g a)) :
    Deepens (xs.forM f) (xs.forM g) := by
  rw [List.forM_eq_forM]
  induction xs with
  | nil => exact .refl _
  | cons a xs ih =>
    rw [List.forM_cons, List.forM_cons]
    exact (hf a).bind fun _ => ih

theorem of_le {x : Nat → EStateM ResolveError σ α} (h : ∀ depth, Deepens (x depth) (x (depth + 1))) {depth depth' : Nat}
    (hle : depth ≤ depth') : Deepens (x depth) (x depth') := by
  induction depth', hle using Nat.le_induction with
  | base => exact .refl _
  | succ depth' _ ih => exact ih.trans (h depth')

end Deepens
end

theorem Registration.deepens_visit (config : Config) (depth : Nat) (id : NodeId) (scope : Option ScopeId) :
    Deepens (visit config depth id scope) (visit config (depth + 1) id scope) := by
  induction depth generalizing id scope with
  | zero => exact .cut id _
  | succ depth ih =>
    rw [visit, visit]
    refine (Deepens.refl _).bind fun n => (Deepens.refl _).bind fun _ => (Deepens.refl _).bind fun inner => ?_
    exact .forM fun slot => (Deepens.refl _).bind fun _ => ih slot.child inner

theorem Binding.deepens_visit (c : Context) (depth : Nat) (id : NodeId) (outer : ScopeId) (role : Role) :
    Deepens (visit c depth id outer role) (visit c (depth + 1) id outer role) := by
  induction depth generalizing id outer role with
  | zero => exact .cut id _
  | succ depth ih =>
    rw [visit, visit]
    refine (Deepens.refl _).bind fun n => ?_
    dsimp only
    split
    · exact .refl _
    · exact (Deepens.refl _).bind fun parts => (ih parts.1 _ _).bind fun _ => .refl _
    · exact .refl _
    · exact (ih _ _ _).bind fun _ => .forM fun a => ih a _ _
    · exact .forM fun child => ih child _ _

/-- The pass did not come to its end: a walk was cut off. -/
def Outcome.IsCut {α : Type} (o : Outcome α) : Prop := ∃ e, o.result = .error e ∧ e.IsCut

namespace Tree
variable {t : Tree} {config : Config}

theorem register_eq_of_le {root : NodeId} {limit limit' : Nat} (hle : limit ≤ limit')
    (hend : ¬ (t.register config root limit).IsCut) :
    t.register config root limit' = t.register config root limit := by
  have hdeepens := Deepens.of_le (fun depth => Registration.deepens_visit config depth root none) hle { tree := t }
  rcases hdeepens with ⟨e, p, hrun, he⟩ | hsame
  · exact absurd ⟨e, by rw [register, hrun], he⟩ hend
  · rw [register, register, hsame]

theorem bindReferences_eq_of_le {scopes : ScopeTree} {root : NodeId} {limit limit' : Nat} (hle : limit ≤ limit')
    (hend : ¬ (t.bindReferences config scopes root limit).IsCut) :
    t.bindReferences config scopes root limit' = t.bindReferences config scopes root limit := by
  cases hs : scopes.scopeOf? root with
  | none => rw [bindReferences, bindReferences, hs]
  | some scope =>
    have hdeepens := Deepens.of_le (fun depth =>
      Binding.deepens_visit ⟨scopes, config.ambiguity, config.separator⟩ depth root scope .value) hle { tree := t }
    rcases hdeepens with ⟨e, p, hrun, he⟩ | hsame
    · refine absurd ⟨e, ?_, he⟩ hend
      rw [bindReferences, hs]
      dsimp only
      rw [hrun]
    · rw [bindReferences, bindReferences, hs]
      dsimp only
      rw [hsame]

/-- A pass that is not cut off comes to the same under larger limits. -/
theorem resolve_eq_of_le {limit limit' : Tree → Nat} (hle : ∀ t, limit t ≤ limit' t)
    (hend : ¬ (t.resolve config limit).IsCut) : t.resolve config limit' = t.resolve config limit := by
  rw [resolve] at hend
  rw [resolve, resolve]
  cases hu : t.unitRoot with
  | error e => rfl
  | ok root =>
    rw [hu] at hend
    dsimp only at hend ⊢
    have hregister : ¬ (t.register config root (limit t)).IsCut := by
      rintro ⟨e, he, hcut⟩
      exact hend ⟨e, by rw [he], hcut⟩
    rw [register_eq_of_le (hle t) hregister]
    cases hr : (t.register config root (limit t)).result with
    | error e => rfl
    | ok registration =>
      rw [hr] at hend
      dsimp only at hend ⊢
      rw [bindReferences_eq_of_le (hle _)]
      rintro ⟨e, he, hcut⟩
      exact hend ⟨e, by rw [he], hcut⟩

/-- All limits under which a pass comes to its end agree. -/
theorem resolve_unique {limit limit' : Tree → Nat} (hend : ¬ (t.resolve config limit).IsCut)
    (hend' : ¬ (t.resolve config limit').IsCut) : t.resolve config limit = t.resolve config limit' := by
  have hleft := resolve_eq_of_le (fun t => Nat.le_max_left (limit t) (limit' t)) hend
  have hright := resolve_eq_of_le (fun t => Nat.le_max_right (limit t) (limit' t)) hend'
  exact hleft.symm.trans hright

/-- The pass over the tree of a document has no use for a larger limit. -/
theorem ProperIn.resolve_eq {languages : Set String} (ht : t.ProperIn languages)
    (hlanguage : config.separator ∈ languages) {limit : Tree → Nat} (hle : ∀ t, depthLimit t ≤ limit t) :
    t.resolve config limit = t.resolve config := by
  refine resolve_eq_of_le hle ?_
  rintro ⟨e, he, hcut⟩
  exact (ht.arises_of_resolve hlanguage he).not_isCut hcut

end Tree
end NameResolution
