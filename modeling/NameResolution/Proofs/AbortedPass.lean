import NameResolution.Proofs.Depth
import NameResolution.Proofs.Fixpoint

/-!
# Passes that a duplicate ends

A pass to which duplicates are errors ends at the first one. It leaves behind the implicit members of the records
that it has entered by then. No later pass in the same language can tell: up to the place where the earlier one
ended it takes up what it would have added, node by node, and from there on the two trees are one.
-/
namespace NameResolution
open Registration

namespace Registration
variable {config later : Config} {languages : Set String} {id : NodeId} {n : Node} {scope : Option ScopeId}
  {p p' : Progress}

/-- A declaration that is no duplicate where duplicates are errors is none under any policy. -/
theorem declareIn_run_of_fatal (hfatal : config.duplicates = .fatal) (hlater : later.separator = config.separator)
    (hrun : (declareIn config id n scope).run p = .ok () p') : (declareIn later id n scope).run p = .ok () p' := by
  cases scope with
  | none => exact hrun
  | some s =>
    rw [declareIn] at hrun ⊢
    by_cases hd : n.kind.isDeclaration = true
    · rw [if_pos hd, declare] at hrun ⊢
      rw [hlater]
      by_cases hname : declaredName config.separator n = ""
      · rwa [if_pos hname] at hrun ⊢
      · simp only [if_neg hname, run_bind_ok (EStateM.run_get p), hfatal] at hrun ⊢
        cases hfirst : if n.kind.isUniquePerScope then holder? p s (declaredName config.separator n) else none with
        | none =>
          rw [hfirst] at hrun
          exact hrun
        | some first =>
          rw [hfirst] at hrun
          cases hrun
    · rwa [if_neg hd] at hrun ⊢

theorem exec_run_of_fatal (hfatal : config.duplicates = .fatal) (hlater : later.separator = config.separator)
    {x : Step} (hrun : (exec config x).run p = .ok () p') : (exec later x).run p = .ok () p' := by
  cases x with
  | check owner slot => rwa [exec] at hrun ⊢
  | enter id =>
    obtain ⟨n, q, inner, hn, hd, hi⟩ := parts_of_enter_run hrun
    exact enter_run_of_parts hn (declareIn_run_of_fatal hfatal hlater hd) (innerScope_congr hlater ▸ hi)

/-- As far as a walk comes to which duplicates are errors, any walk in the same language comes. -/
theorem runSteps_of_fatal (hfatal : config.duplicates = .fatal) (hlater : later.separator = config.separator)
    {xs : List Step} (hrun : runSteps (exec config) xs p = .ok () p') : runSteps (exec later) xs p = .ok () p' := by
  induction xs generalizing p with
  | nil => rwa [runSteps_nil] at hrun ⊢
  | cons x xs ih =>
    obtain ⟨q, hx, hxs⟩ := runSteps_cons_ok hrun
    rw [runSteps_cons, exec_run_of_fatal hfatal hlater hx]
    exact ih hxs

end Registration

namespace Tree
variable {config later : Config} {languages : Set String} {t T : Tree} {root : NodeId}

/-- Registration decides what becomes of a pass. -/
theorem resolve_eq_of_registration (ht : t.ProperIn languages) (hT : T.ProperIn languages)
    (hlanguage : config.separator ∈ languages) (hr : t.root = some root) (hR : T.root = some root)
    (hsame : runSteps (exec config) (steps T T.depthLimit root) { tree := T } =
      runSteps (exec config) (steps t t.depthLimit root) { tree := t }) : T.resolve config = t.resolve config := by
  cases hrun : runSteps (exec config) (steps t t.depthLimit root) { tree := t } with
  | error e p => rw [resolve_of_error ht hlanguage hr hrun, resolve_of_error hT hlanguage hR (hsame.trans hrun)]
  | ok _ p =>
    rw [resolve_of_registers ⟨ht, hlanguage, hr, hrun⟩, resolve_of_registers ⟨hT, hlanguage, hR, hsame.trans hrun⟩]

/-- A pass that a duplicate ends has entered some of the nodes and changed nothing since. -/
theorem Proper.exists_done (ht : t.Proper config.separator) (hr : t.root = some root) {name : String}
    {first repeated : NodeId} {region : Option Region}
    (hresolve : t.resolve config = ⟨.error (.duplicate name first repeated region), T⟩) :
    config.duplicates = .fatal ∧ ∃ done rest p, steps t t.depthLimit root = done ++ rest ∧
      runSteps (exec config) done { tree := t } = .ok () p ∧ T = p.tree := by
  have he := congrArg Outcome.result hresolve
  refine ⟨ht.arises_of_resolve rfl he, ?_⟩
  cases hrun : runSteps (exec config) (steps t t.depthLimit root) { tree := t } with
  | error e q =>
    obtain ⟨done, x, rest, p, hsplit, hdone, hx⟩ := exists_step_of_error hrun
    have hp := (runSteps_keeps (p := { tree := t }) ht rfl done).1
    rw [hdone] at hp
    rw [resolve_of_error ht rfl hr hrun] at hresolve
    exact ⟨done, x :: rest, p, hsplit, hdone,
      (congrArg Outcome.tree hresolve).symm.trans (tree_eq_of_exec_error hp hx)⟩
  | ok _ p =>
    rw [resolve_of_registers ⟨ht, rfl, hr, hrun⟩] at he
    cases hbind : runSteps (Binding.exec ⟨p.scopes, config.ambiguity, config.separator⟩)
        (p.tree.bindingSteps p.scopes root) { tree := p.tree } with
    | ok _ q =>
      simp only [hbind] at he
      cases he
    | error e q =>
      simp only [hbind, Except.error.injEq] at he
      have hkeep : e.Arises .keepFirst := arises_of_binding hbind
      rw [he] at hkeep
      cases hkeep

/-- Two walks, of which one sets out where an aborted one has ended, come together where that one ended. -/
theorem Proper.registration_eq (ht : t.Proper config.separator) (hr : t.root = some root)
    (hfatal : config.duplicates = .fatal) (hlater : later.separator = config.separator) {done rest : List Step}
    {p : Registration.Progress} (hsplit : steps t t.depthLimit root = done ++ rest)
    (hdone : runSteps (exec config) done { tree := t } = .ok () p) :
    runSteps (exec later) (steps p.tree p.tree.depthLimit root) { tree := p.tree } =
      runSteps (exec later) (steps t t.depthLimit root) { tree := t } := by
  obtain ⟨k, hk, -⟩ := ht.root_parent hr
  have hroot := ht.toWellFormed.root_not_implicit hr
  have hlate := runSteps_of_fatal hfatal hlater hdone
  rw [← hlater] at ht
  have hend := Registration.Invariant.run ht hk hroot hsplit hlate
  have hagain : runSteps (exec later) done { tree := p.tree } = .ok () p :=
    (rerun (T := p.tree) rfl ht hend.proper.toWellFormed hk hroot hend.registered (.refl _)
      (SameDeclarations.refl _) hsplit hlate).resolve_right fun hno => hno.1 rfl
  rw [steps_again ht.toWellFormed hend.proper.toWellFormed hend.toExtends hk (t.lt_depthLimit root)
    (p.tree.lt_depthLimit root), hsplit, runSteps_append, runSteps_append, hlate, hagain]

end Tree

/-- After a pass that a duplicate has ended, a pass in the same language comes to what it would have come to over the
tree as it was: to the same unit or the same error, and to the same tree. -/
theorem resolve_of_aborted {document : SyntaxNode} {config later : Config} {t T : Tree} {name : String}
    {first repeated : NodeId} {region : Option Region} (hdocument : Tree.ofSyntax document = .ok t)
    (hlanguage : later.language = config.language)
    (hresolve : t.resolve config = ⟨.error (.duplicate name first repeated region), T⟩) :
    T.resolve later = t.resolve later := by
  have hlater : later.separator = config.separator := congrArg Language.separator hlanguage
  have ht := Tree.proper_of_ofSyntax hdocument config.separator
  obtain ⟨root, -, hr, -⟩ := ht.unit_root
  obtain ⟨hfatal, done, rest, p, hsplit, hdone, rfl⟩ := ht.exists_done hr hresolve
  obtain ⟨hp, hext, -⟩ := runSteps_keeps (p := { tree := t }) ht rfl done
  rw [hdone, endState_ok] at hp hext
  exact Tree.resolve_eq_of_registration ht hp hlater hr (hext.root.trans hr)
    (ht.registration_eq hr hfatal hlater hsplit hdone)

theorem resolve_of_aborted_doubled :
    Tree.ofSyntax doubled = .ok doubledTree ∧
      ∃ name first repeated region T,
        doubledTree.resolve { duplicates := .fatal } = ⟨.error (.duplicate name first repeated region), T⟩ ∧
          T ≠ doubledTree ∧ T.resolve {} = doubledTree.resolve {} := by
  have hdocument : Tree.ofSyntax doubled = .ok doubledTree := rfl
  have hlanguage : ({} : Config).language = ({ duplicates := .fatal } : Config).language := rfl
  have hfails : (doubledTree.resolve { duplicates := .fatal }).result =
      .error (.duplicate "x" ⟨0⟩ ⟨1⟩ none) := by decide +kernel
  have hleft : (doubledTree.resolve { duplicates := .fatal }).tree.size ≠ doubledTree.size := by decide +kernel
  cases hresolve : doubledTree.resolve { duplicates := .fatal } with
  | mk result T =>
    rw [hresolve] at hfails hleft
    cases hfails
    exact ⟨hdocument, _, _, _, _, T, rfl, fun heq => hleft (congrArg Tree.size heq),
      resolve_of_aborted hdocument hlanguage hresolve⟩

end NameResolution
