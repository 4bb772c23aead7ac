import NameResolution.Proofs.Fixpoint
import NameResolution.Proofs.Registration.Duplicates

/-!
# Duplicates that are errors

Whether duplicates are errors or are dropped makes no difference to a unit without them. In a unit that has some, the
first declaration that is dropped under the one policy is the one that the error under the other tells of.
-/
namespace NameResolution
open Registration

namespace Tree
variable {t : Tree} {config other : Config} {root : NodeId}

theorem register_of_ok {a : Unit} {p : Progress}
    (h : (visit config t.depthLimit root none).run { tree := t } = .ok a p) :
    t.register config root = ⟨.ok ⟨p.scopes, p.duplicates⟩, p.tree⟩ := by
  rw [register, h]

theorem register_of_error {e : ResolveError} {p : Progress}
    (h : (visit config t.depthLimit root none).run { tree := t } = .error e p) :
    t.register config root = ⟨.error e, p.tree⟩ := by
  rw [register, h]

/-- A pass takes no notice of the policy for duplicates once registration is over. -/
theorem resolve_congr (hroot : t.root = some root) (hregister : t.register other root = t.register config root)
    (hseparator : other.separator = config.separator) (hambiguity : other.ambiguity = config.ambiguity) :
    t.resolve other = t.resolve config := by
  have hbind : ∀ (T : Tree) S, T.bindReferences other S root = T.bindReferences config S root := by
    intro T S
    rw [bindReferences, bindReferences, hseparator, hambiguity]
  rw [resolve, resolve]
  cases hu : t.unitRoot with
  | error e => rfl
  | ok r =>
    have hr : r = root := Option.some.inj ((root_of_unitRoot hu).symm.trans hroot)
    rw [hr]
    dsimp only
    rw [hregister]
    simp only [hbind]

end Tree

/-- Registration and passes to which duplicates are errors, told by those over the same tree that drop them. If
nothing is dropped, they come to the same. Otherwise registration fails, with the error for the first declaration
that is dropped, whatever the other comes to. -/
theorem register_fatal (t : Tree) (config : Config) (root : NodeId) :
    let keep := { config with duplicates := .keepFirst }
    let fatal := { config with duplicates := .fatal }
    (∀ registration, (t.register keep root).result = .ok registration →
      match registration.duplicates[0]? with
      | none =>
        t.register fatal root = t.register keep root ∧
          (t.root = some root → t.resolve fatal = t.resolve keep)
      | some d => (t.register fatal root).result = .error (d.error t)) ∧
    ∀ e, (t.register keep root).result = .error e →
      ∃ p, (visit keep t.depthLimit root none).run { tree := t } = .error e p ∧
        match p.duplicates[0]? with
        | none => (t.register fatal root).result = .error e
        | some d => (t.register fatal root).result = .error (d.error t) := by
  intro keep fatal
  have hstops := (@stops_visit keep fatal rfl rfl rfl t.depthLimit root none { tree := t }).of_start
  cases hkeep : (visit keep t.depthLimit root none).run { tree := t } with
  | ok a p =>
    rw [hkeep, endState_ok] at hstops
    have hregister := Tree.register_of_ok hkeep
    refine ⟨fun registration hr => ?_, fun e he => ?_⟩
    · rw [hregister] at hr
      cases hr
      dsimp only
      cases hd : p.duplicates[0]? with
      | none =>
        rw [hd] at hstops
        have hsame := (Tree.register_of_ok hstops).trans hregister.symm
        exact ⟨hsame, fun hroot => Tree.resolve_congr hroot hsame rfl rfl⟩
      | some d =>
        rw [hd] at hstops
        obtain ⟨q, hq⟩ := hstops
        exact congrArg Outcome.result (Tree.register_of_error hq)
    · rw [hregister] at he
      cases he
  | error e p =>
    rw [hkeep, endState_error] at hstops
    have hregister := Tree.register_of_error hkeep
    refine ⟨fun registration hr => ?_, fun e' he => ?_⟩
    · rw [hregister] at hr
      cases hr
    · rw [hregister] at he
      cases he
      refine ⟨p, rfl, ?_⟩
      cases hd : p.duplicates[0]? with
      | none =>
        rw [hd] at hstops
        exact congrArg Outcome.result (Tree.register_of_error hstops)
      | some d =>
        rw [hd] at hstops
        obtain ⟨q, hq⟩ := hstops
        exact congrArg Outcome.result (Tree.register_of_error hq)

theorem register_fatal_doubled :
    (∃ registration, (doubledTree.register { duplicates := .keepFirst } ⟨7⟩).result = .ok registration ∧
      registration.duplicates[0]? = some ⟨"x", ⟨0⟩, ⟨1⟩, ⟨1⟩⟩) ∧
      (doubledTree.register { duplicates := .fatal } ⟨7⟩).result = .error (.duplicate "x" ⟨0⟩ ⟨1⟩ none) := by
  have hdropped : (doubledTree.register { duplicates := .keepFirst } ⟨7⟩).result.map (·.duplicates[0]?) =
      .ok (some ⟨"x", ⟨0⟩, ⟨1⟩, ⟨1⟩⟩) := by decide +kernel
  have hfatal := (register_fatal doubledTree {} ⟨7⟩).1
  cases hr : (doubledTree.register { duplicates := .keepFirst } ⟨7⟩).result with
  | error e =>
    rw [hr] at hdropped
    cases hdropped
  | ok registration =>
    rw [hr] at hdropped
    have hfirst : registration.duplicates[0]? = some ⟨"x", ⟨0⟩, ⟨1⟩, ⟨1⟩⟩ := Except.ok.inj hdropped
    have herror := hfatal registration hr
    rw [hfirst] at herror
    exact ⟨⟨registration, rfl, hfirst⟩, herror⟩

end NameResolution
