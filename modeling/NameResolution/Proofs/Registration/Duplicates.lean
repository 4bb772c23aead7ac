import NameResolution.Proofs.Registration.Again
import NameResolution.Proofs.Registration.Respects

/-!
# Registration that stops at the first duplicate

The walk to which a duplicate is an error goes along with the walk that keeps the first of several declarations, up
to the first one that the latter drops. There it ends, and its error says what was dropped. That is so for every
tree, also if the walk ends in another error before or after.
-/
namespace NameResolution

def Duplicate.error (t : Tree) (d : Duplicate) : ResolveError :=
  .duplicate d.name d.first d.repeated (t.region? d.repeated)

namespace Registration

/-- What a walk to which duplicates are errors comes to from the progress `p`, if the walk that keeps first
declarations comes to `kept`: to the same if nothing more was dropped, and otherwise to an error that tells what
was dropped first. -/
inductive Stops {α : Type} (p : Progress) (kept : EStateM.Result ResolveError Progress α) :
    EStateM.Result ResolveError Progress α → Prop
  | clean (same : (endState kept).duplicates = p.duplicates) : Stops p kept kept
  | stopped {d : Duplicate} {more : List Duplicate} {q : Progress}
      (dropped : (endState kept).duplicates.toList = p.duplicates.toList ++ d :: more) :
      Stops p kept (.error (d.error p.tree) q)

section
variable {α β : Type} {p : Progress}

namespace Stops
variable {x y : Walk α} {f g : α → Walk β}

/-- What drops nothing goes on. -/
theorem self (h : (endState (x.run p)).duplicates = p.duplicates) : Stops p (x.run p) (x.run p) :=
  .clean h

/-- The second part of a walk stops at what it drops, or it is not come to. -/
theorem bind (hx : Stops p (x.run p) (y.run p))
    (hregion : ∀ id, (endState (x.run p)).tree.region? id = p.tree.region? id)
    (hf : ∀ a s, x.run p = .ok a s → Stops s ((f a).run s) ((g a).run s)) :
    Stops p ((x >>= f).run p) ((y >>= g).run p) := by
  rw [EStateM.run_bind, EStateM.run_bind]
  generalize y.run p = ry at hx ⊢
  cases hrx : x.run p with
  | error e s =>
    rw [hrx] at hx
    cases hx with
    | clean same => exact .clean same
    | stopped dropped => exact .stopped dropped
  | ok a s =>
    rw [hrx] at hx hregion
    dsimp only
    have hrest := hf a s hrx
    cases hx with
    | clean same =>
      dsimp only
      generalize (g a).run s = rg at hrest ⊢
      cases hrest with
      | clean same' => exact .clean (same'.trans same)
      | @stopped d _ _ dropped =>
        rw [endState_ok] at same
        rw [same] at dropped
        have herror : d.error s.tree = d.error p.tree :=
          congrArg (ResolveError.duplicate d.name d.first d.repeated) (hregion d.repeated)
        rw [herror]
        exact .stopped dropped
    | @stopped d more _ dropped =>
      generalize (g a).run s = rg at hrest
      have hmore : ∃ more', (endState ((f a).run s)).duplicates.toList = p.duplicates.toList ++ d :: more' := by
        rw [endState_ok] at dropped
        cases hrest with
        | clean same' => exact ⟨more, by rw [same', dropped]⟩
        | @stopped d' more' _ dropped' =>
          exact ⟨more ++ d' :: more', by rw [dropped', dropped, List.append_assoc, List.cons_append]⟩
      obtain ⟨_, hmore⟩ := hmore
      exact .stopped hmore

theorem forM {γ : Type} {xs : List γ} {f g : γ → Walk Unit}
    (hregion : ∀ c, Leaves (fun p q => ∀ id, q.tree.region? id = p.tree.region? id) (f c))
    (hf : ∀ c s, Stops s ((f c).run s) ((g c).run s)) (p : Progress) :
    Stops p ((forM xs f).run p) ((forM xs g).run p) := by
  induction xs generalizing p with
  | nil => exact .clean rfl
  | cons c xs ih =>
    rw [List.forM_cons, List.forM_cons]
    exact (hf c p).bind (hregion c p) fun _ s _ => ih s

/-- From the beginning of a walk, the first duplicate of all tells what becomes of it. -/
theorem of_start {t : Tree} {kept other : EStateM.Result ResolveError Progress α}
    (h : Stops { tree := t } kept other) :
    match (endState kept).duplicates[0]? with
    | none => other = kept
    | some d => ∃ q, other = .error (d.error t) q := by
  cases h with
  | clean same =>
    have hnone : (endState kept).duplicates[0]? = none := by simp [same]
    rw [hnone]
  | @stopped d more q dropped =>
    have hfirst : (endState kept).duplicates[0]? = some d := by
      rw [← Array.getElem?_toList, dropped]
      rfl
    rw [hfirst]
    exact ⟨q, rfl⟩

end Stops

section
variable {keep fatal : Config} (hkeep : keep.duplicates = .keepFirst) (hfatal : fatal.duplicates = .fatal)
  (hseparator : fatal.separator = keep.separator)
include hkeep hfatal hseparator

/-- A declaration that is dropped stops the walk. -/
theorem stops_declareIn {id : NodeId} {n : Node} (hn : p.tree.get? id = some n) (scope : Option ScopeId) :
    Stops p ((declareIn keep id n scope).run p) ((declareIn fatal id n scope).run p) := by
  cases scope with
  | none => exact .clean rfl
  | some scope =>
    have hregion : p.tree.region? id = n.region := by rw [Tree.region?, hn, Option.bind_some]
    rw [declareIn, declareIn]
    by_cases hd : n.kind.isDeclaration = true
    · rw [if_pos hd, if_pos hd, declare, declare, hseparator]
      by_cases hname : declaredName keep.separator n = ""
      · rw [if_pos hname, if_pos hname]
        exact .clean rfl
      · simp only [if_neg hname, run_bind_ok (EStateM.run_get p), hkeep, hfatal]
        cases hfirst : if n.kind.isUniquePerScope then holder? p scope (declaredName keep.separator n) else none with
        | none => exact .clean rfl
        | some first =>
          let d : Duplicate := ⟨declaredName keep.separator n, first, id, scope⟩
          have hstops : Stops p (.ok () { p with duplicates := p.duplicates.push d })
              (.error (d.error p.tree) p) :=
            @Stops.stopped _ _ _ d [] _ Array.toList_push
          rwa [Duplicate.error, hregion] at hstops
    · rw [if_neg hd, if_neg hd]
      exact .clean rfl

/-- The walk stops at the first declaration that it would drop. -/
theorem stops_visit (depth : Nat) (id : NodeId) (scope : Option ScopeId) (p : Progress) :
    Stops p ((visit keep depth id scope).run p) ((visit fatal depth id scope).run p) := by
  have hdrop : ∀ (p : Progress) (d : Duplicate) (id : NodeId),
      ({ p with duplicates := p.duplicates.push d } : Progress).tree.region? id = p.tree.region? id :=
    fun _ _ _ => rfl
  induction depth generalizing id scope p with
  | zero => exact .clean rfl
  | succ depth ih =>
    cases hn : p.tree.get? id with
    | none =>
      rw [visit, visit, run_bind_error (fetch_run_none hn), run_bind_error (fetch_run_none hn)]
      exact .clean rfl
    | some n =>
      rw [visit, visit, run_bind_ok (fetch_run hn), run_bind_ok (fetch_run hn), innerScope_congr hseparator]
      refine (stops_declareIn hkeep hfatal hseparator hn scope).bind
        (respects_region?.leaves_declareIn hdrop _ _ _ _ p) fun _ q hrun => ?_
      have hq : q.tree.get? id = some n := by
        rw [(Declares.of_run hrun).tree_eq, hn]
      refine (Stops.self (respects_duplicates.leaves_innerScope _ _ _ _ q n hq).1).bind
        (respects_region?.leaves_innerScope _ _ _ _ q n hq).1 fun inner r _ => Stops.forM (fun slot => ?_) (fun slot r => ?_) r
      · have := respects_region?.isPreorder
        exact .bind (respects_region?.leaves_checkSlot _ _) fun _ => respects_region?.leaves_visit hdrop _ _ _ _
      · exact (Stops.self (respects_duplicates.leaves_checkSlot _ _ r)).bind
          (respects_region?.leaves_checkSlot _ _ r) fun _ r' _ => ih slot.child inner r'

end
end
end Registration
end NameResolution
