import NameResolution.Proofs.Scope.Enclosing
import NameResolution.Proofs.StepRuns
import NameResolution.Proofs.Tree.Proper
import NameResolution.Registration

/-!
# What registration does at a node

Each part of the walk is described by the progress it leads to: a declaration is entered, dropped or
skipped, a scope is opened, and a record comes to have all its implicit members. The walk itself is taken
apart by these descriptions only.
-/
namespace NameResolution.Registration

theorem fetch_run {id : NodeId} {n : Node} {p : Progress} (hn : p.tree.get? id = some n) :
    (fetch id).run p = .ok n p := by
  simp [fetch, hn]

theorem fetch_run_none {id : NodeId} {p : Progress} (hn : p.tree.get? id = none) :
    (fetch id).run p = .error (.malformed id none .dangling) p := by
  simp [fetch, hn]
  rfl

theorem get?_of_fetch_run {id : NodeId} {n : Node} {p p' : Progress} (h : (fetch id).run p = .ok n p') :
    p.tree.get? id = some n ∧ p' = p := by
  cases hn : p.tree.get? id with
  | none =>
    rw [fetch_run_none hn] at h
    cases h
  | some m =>
    rw [fetch_run hn] at h
    cases h
    exact ⟨rfl, rfl⟩

/-- What declaring a node in the scope around it may lead to. -/
inductive Declares (config : Config) (id : NodeId) (node : Node) (scope : Option ScopeId)
    (p : Progress) : Progress → Prop
  | skipped : Declares config id node scope p p
  | entered {s : ScopeId} (inner : scope = some s) (isDeclaration : node.kind.isDeclaration = true)
      (named : declaredName config.separator node ≠ "")
      (free : node.kind.isUniquePerScope = true →
        holder? p s (declaredName config.separator node) = none) :
      Declares config id node scope p
        { p with scopes := p.scopes.declare s (declaredName config.separator node) id }
  | dropped {s : ScopeId} {first : NodeId} (inner : scope = some s)
      (isDeclaration : node.kind.isDeclaration = true) :
      Declares config id node scope p
        { p with duplicates :=
            p.duplicates.push ⟨declaredName config.separator node, first, id, s⟩ }

theorem declareIn_run (config : Config) (id : NodeId) (node : Node) (scope : Option ScopeId)
    (p : Progress) :
    (∃ p', (declareIn config id node scope).run p = .ok () p' ∧ Declares config id node scope p p') ∨
      ∃ e, (declareIn config id node scope).run p = .error e p := by
  cases scope with
  | none => exact .inl ⟨p, rfl, .skipped⟩
  | some s =>
    rw [declareIn]
    by_cases hd : node.kind.isDeclaration = true
    · rw [if_pos hd, declare]
      by_cases hname : declaredName config.separator node = ""
      · rw [if_pos hname]
        exact .inl ⟨p, rfl, .skipped⟩
      · simp only [if_neg hname, EStateM.run_bind, EStateM.run_get]
        split
        case h_1 hfree =>
          refine .inl ⟨_, rfl, .entered rfl hd hname fun hunique => ?_⟩
          rwa [if_pos hunique] at hfree
        case h_2 =>
          cases config.duplicates with
          | fatal => exact .inr ⟨_, rfl⟩
          | keepFirst => exact .inl ⟨_, rfl, .dropped rfl hd⟩
    · rw [if_neg hd]
      exact .inl ⟨p, rfl, .skipped⟩

theorem eq_of_declareIn_error {config : Config} {id : NodeId} {node : Node} {scope : Option ScopeId}
    {p p' : Progress} {e : ResolveError} (h : (declareIn config id node scope).run p = .error e p') : p' = p := by
  rcases declareIn_run config id node scope p with ⟨q, hr, -⟩ | ⟨e, hr⟩
  · rw [h] at hr
    cases hr
  · rw [h] at hr
    cases hr
    rfl

namespace Declares
variable {config : Config} {id : NodeId} {node : Node} {scope : Option ScopeId} {p p' : Progress}

theorem of_run (h : (declareIn config id node scope).run p = .ok () p') : Declares config id node scope p p' := by
  rcases declareIn_run config id node scope p with ⟨q, hr, hd⟩ | ⟨e, hr⟩
  · rw [h] at hr
    cases hr
    exact hd
  · rw [h] at hr
    cases hr

theorem tree_eq (h : Declares config id node scope p p') : p'.tree = p.tree := by
  cases h <;> rfl

theorem scopes_eq (h : Declares config id node scope p p') : p'.scopes.scopes = p.scopes.scopes := by
  cases h <;> simp

/-- At most the node itself is entered, if it is a declaration. -/
theorem entry_cases (h : Declares config id node scope p p')
    (hs : ∀ s ∈ scope, s.index < p.scopes.size) {e : Entry} (he : e ∈ p'.scopes.entries) :
    e ∈ p.scopes.entries ∨ e.declaration = id ∧ node.kind.isDeclaration = true := by
  cases h with
  | skipped | dropped => exact .inl he
  | entered hin hdecl =>
    rw [ScopeTree.declare_eq_declareAll _ (hs _ hin)] at he
    rcases ScopeTree.mem_entries_declareAll.mp he with he | he
    · exact .inl he
    · rw [List.mem_singleton] at he
      exact .inr ⟨by rw [he], hdecl⟩

theorem duplicate_cases (h : Declares config id node scope p p') {d : Duplicate}
    (hd : d ∈ p'.duplicates) :
    d ∈ p.duplicates ∨ d.repeated = id ∧ p'.scopes = p.scopes := by
  cases h with
  | skipped | entered => exact .inl hd
  | dropped =>
    rcases Array.mem_push.mp hd with hd | rfl
    · exact .inl hd
    · exact .inr ⟨rfl, rfl⟩

end Declares

/-- A check changes nothing, and only looks at the kind and the region of the owner. -/
theorem checkSlot_run_eq {n k : Node} {slot : Slot} {p : Progress} (hk : p.tree.get? slot.child = some k) :
    (checkSlot n slot).run p =
      if slot.allows k.kind = true then .ok () p
      else .error (.malformed slot.child n.region (.misplaced n.kind k.kind)) p := by
  unfold checkSlot
  cases hallowed : slot.allowed with
  | none =>
    rw [Slot.allows, hallowed, Option.all_none, if_pos rfl]
    rfl
  | some kinds =>
    dsimp only
    rw [run_bind_ok (fetch_run hk)]
    split <;> rfl

theorem checkSlot_run (owner : Node) (slot : Slot) (p : Progress) :
    (checkSlot owner slot).run p = .ok () p ∨ ∃ e, (checkSlot owner slot).run p = .error e p := by
  cases hk : p.tree.get? slot.child with
  | none =>
    unfold checkSlot
    cases slot.allowed with
    | none => exact .inl rfl
    | some kinds => exact .inr ⟨_, run_bind_error (fetch_run_none hk) _⟩
  | some k =>
    rw [checkSlot_run_eq hk]
    split
    · exact .inl rfl
    · exact .inr ⟨_, rfl⟩

theorem checkSlots_run_of_allows {n : Node} {p : Progress} {slots : List Slot}
    (h : ∀ s ∈ slots, ∃ k, p.tree.get? s.child = some k ∧ s.allows k.kind = true) :
    (slots.forM (checkSlot n)).run p = .ok () p := by
  induction slots with
  | nil => rfl
  | cons s slots ih =>
    obtain ⟨k, hk, hallows⟩ := h s (by simp)
    rw [List.forM_eq_forM] at ih ⊢
    rw [List.forM_cons, run_bind_ok ((checkSlot_run_eq hk).trans (if_pos hallows))]
    exact ih fun s hs => h s (List.mem_cons_of_mem _ hs)

theorem checkSlot_congr {owner owner' : Node} (hk : owner'.kind = owner.kind)
    (hr : owner'.region = owner.region) (slot : Slot) : checkSlot owner' slot = checkSlot owner slot := by
  simp only [checkSlot, hk, hr]

end NameResolution.Registration
