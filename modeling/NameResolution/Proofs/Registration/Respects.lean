import NameResolution.Proofs.Registration.ImplicitMembers

/-!
# Registration of any tree

A tree that was put together by hand need not be well-formed: an id may point nowhere, or to a node that comes
into being while the walk is under way. All that the walk does to such a tree is still to add implicit fields to records
that are there and to fill them in, and a relation that its single changes respect holds between the progress that it
begins with and the progress that it leaves, however it ends.
-/
namespace NameResolution.Registration

/-- The relation holds between a progress and what a single change of the walk leads to, unless that drops a
duplicate. -/
structure Respects (R : Progress → Progress → Prop) : Prop where
  refl : ∀ p, R p p
  trans : ∀ {p q r}, R p q → R q r → R p r
  scopes : ∀ p S, R p { p with scopes := S }
  add : ∀ {p record n}, p.tree.get? record = some n → ∀ name typeName,
    R p { p with tree := (p.tree.addImplicitField record name typeName).2 }
  fill : ∀ p id f os, R p { p with tree := p.tree.modify id fun n =>
    match n.payload with
    | .recordDecl r => { n with payload := .recordDecl (filled f os r) }
    | _ => n }

/-- The relation, as far as it is about walks that have come to the node `id`. -/
def AtNode (R : Progress → Progress → Prop) (id : NodeId) (p q : Progress) : Prop :=
  ∀ n, p.tree.get? id = some n → R p q ∧ ∃ m, q.tree.get? id = some m

namespace Respects
variable {R : Progress → Progress → Prop}

theorem isPreorder (h : Respects R) : IsPreorder Progress R where
  refl := h.refl
  trans _ _ _ := h.trans

/-- No single change takes a node away. -/
theorem atNode (h : Respects R) (id : NodeId) : Respects (AtNode R id) where
  refl p n hn := ⟨h.refl p, n, hn⟩
  trans hpq hqr n hn := by
    obtain ⟨hR, m, hm⟩ := hpq n hn
    obtain ⟨hR', hlater⟩ := hqr m hm
    exact ⟨h.trans hR hR', hlater⟩
  scopes p S n hn := ⟨h.scopes p S, n, hn⟩
  add hrecord name typeName n hn :=
    ⟨h.add hrecord name typeName, n, by rw [Tree.get?_addImplicitField, if_neg (Tree.ne_nextId_of_get? hn), hn]⟩
  fill p j f os n hn := by
    refine ⟨h.fill p j f os, ?_⟩
    rw [Tree.get?_modify, hn]
    split
    · exact ⟨_, rfl⟩
    · exact ⟨n, rfl⟩

theorem leaves_fetch (h : Respects R) (id : NodeId) : Leaves R (fetch id) := by
  have := h.isPreorder
  refine .bind .get fun p => ?_
  split
  · exact .pure _
  · exact .throw _

theorem leaves_checkSlot (h : Respects R) (owner : Node) (slot : Slot) : Leaves R (checkSlot owner slot) := by
  have := h.isPreorder
  unfold checkSlot
  split
  · exact .pure _
  · refine .bind (h.leaves_fetch _) fun n => ?_
    split
    · exact .pure _
    · exact .throw _

theorem leaves_implicitField (h : Respects R) (record : NodeId) (earlier : Option NodeId) (name typeName : String) :
    Leaves (AtNode R record) (implicitField record earlier name typeName) := by
  have := (h.atNode record).isPreorder
  cases earlier with
  | some field => exact .pure _
  | none => exact .modifyGet fun p n hn => (h.atNode record).add hn name typeName n hn

theorem leaves_enter (h : Respects R) (scope : ScopeId) (name : String) (id : NodeId) :
    Leaves R (enter scope name id) :=
  .modifyGet fun p => h.scopes p _

theorem leaves_openScope (h : Respects R) (kind : ScopeKind) (owner : NodeId) (parent : Option ScopeId) :
    Leaves R (openScope kind owner parent) :=
  .modifyGet fun p => h.scopes p _

theorem leaves_addOuter (h : Respects R) (config : Config) (id : NodeId) (record : Record) (scope : ScopeId)
    (outer : NodeId) : Leaves (AtNode R id) (addOuter config id record scope outer) := by
  have := (h.atNode id).isPreorder
  refine .bind .get fun p => .bind (h.leaves_implicitField _ _ _ _) fun f => ?_
  exact .bind ((h.atNode id).leaves_enter _ _ _) fun _ => .pure _

theorem leaves_addImplicitMembers (h : Respects R) (config : Config) (id : NodeId) (record : Record)
    (qualified : String) (scope : ScopeId) :
    Leaves (AtNode R id) (addImplicitMembers config id record qualified scope) := by
  have := (h.atNode id).isPreorder
  refine .bind (h.leaves_implicitField _ _ _ _) fun this => .bind ((h.atNode id).leaves_enter _ _ _) fun _ => ?_
  refine .bind .get fun p => .bind (.mapM fun outer _ => h.leaves_addOuter _ _ _ _ outer) fun outers => ?_
  exact .modifyGet fun p => (h.atNode id).fill p id this outers

theorem leaves_innerScope (h : Respects R) (config : Config) (id : NodeId) (node : Node) (scope : Option ScopeId) :
    Leaves (AtNode R id) (innerScope config id node scope) := by
  have hat := h.atNode id
  have := hat.isPreorder
  unfold innerScope
  split
  · refine .map _ (.bind .get fun p => .bind (.modifyGet fun p => hat.scopes p _) fun _ => ?_)
    refine .bind (hat.leaves_openScope _ _ _) fun s => ?_
    refine .bind (.forM fun slot _ => hat.leaves_checkSlot _ slot) fun _ => ?_
    exact .bind (h.leaves_addImplicitMembers _ _ _ _ _) fun _ => .pure _
  · split
    · exact .map _ (hat.leaves_openScope _ _ _)
    · exact .pure _

theorem leaves_declareIn (h : Respects R) (hdrop : ∀ p d, R p { p with duplicates := p.duplicates.push d })
    (config : Config) (id : NodeId) (node : Node) (scope : Option ScopeId) :
    Leaves R (declareIn config id node scope) := by
  intro p
  rcases declareIn_run config id node scope p with ⟨p', hrun, hd⟩ | ⟨e, hrun⟩
  · rw [hrun, endState_ok]
    cases hd with
    | skipped => exact h.refl p
    | entered => exact h.scopes p _
    | dropped => exact hdrop p _
  · rw [hrun]
    exact h.refl p

/-- What the walk leaves behind, however it ends. -/
theorem leaves_visit (h : Respects R) (hdrop : ∀ p d, R p { p with duplicates := p.duplicates.push d })
    (config : Config) (depth : Nat) (id : NodeId) (scope : Option ScopeId) :
    Leaves R (visit config depth id scope) := by
  -- Below a node the relation is also to say that the node is still there.
  induction depth generalizing R id scope with
  | zero =>
    have := h.isPreorder
    exact .throw _
  | succ depth ih =>
    intro p
    cases hn : p.tree.get? id with
    | none =>
      rw [visit, run_bind_error (fetch_run_none hn)]
      exact h.refl p
    | some n =>
      have hat := h.atNode id
      have := hat.isPreorder
      have hdrop' : ∀ p d, AtNode R id p { p with duplicates := p.duplicates.push d } :=
        fun p d n hn => ⟨hdrop p d, n, hn⟩
      have hbelow : Leaves (AtNode R id) (do
          declareIn config id n scope
          let inner ← innerScope config id n scope
          n.payload.slots.forM fun slot => do
            checkSlot n slot
            visit config depth slot.child inner) := by
        refine .bind (hat.leaves_declareIn hdrop' _ _ _ _) fun _ => .bind (h.leaves_innerScope _ _ _ _) fun inner => ?_
        exact .forM fun slot _ => .bind (hat.leaves_checkSlot _ _) fun _ => ih hat hdrop' slot.child inner
      rw [visit, run_bind_ok (fetch_run hn)]
      exact (hbelow p n hn).1

end Respects

/-- Nodes become what a pass may make of them. -/
theorem respects_extends : Respects fun p q => p.tree.Extends q.tree where
  refl p := .refl p.tree
  trans := .trans
  scopes p S := .refl p.tree
  add {p record _} _ name typeName := (Tree.AddsFields.single p.tree record name typeName).toExtends
  fill p id f os := by
    refine ⟨rfl, fun {j n} hn => ?_⟩
    rw [Tree.get?_modify]
    by_cases hj : id = j
    · rw [if_pos hj, hn, Option.map_some]
      refine ⟨_, rfl, ?_⟩
      split
      case h_1 r hp => exact ⟨rfl, rfl, rfl, rfl, hp ▸ .filled rfl rfl⟩
      case h_2 => exact .refl n
    · exact ⟨n, by rw [if_neg hj, hn], .refl n⟩

/-- No node is placed anew in the text, and what is added stands nowhere in it. -/
theorem respects_region? : Respects fun p q => ∀ id, q.tree.region? id = p.tree.region? id where
  refl _ _ := rfl
  trans h h' id := (h' id).trans (h id)
  scopes _ _ _ := rfl
  add _ name typeName id := by
    rw [Tree.region?, Tree.get?_addImplicitField]
    split
    case isTrue hid =>
      rw [Tree.region?, hid, Tree.get?_nextId]
      rfl
    case isFalse => rfl
  fill p id f os j := by
    rw [Tree.region?, Tree.region?, Tree.get?_modify]
    split
    · cases p.tree.get? j with
      | none => rfl
      | some n =>
        rw [Option.map_some, Option.bind_some, Option.bind_some]
        split <;> rfl
    · rfl

/-- Only declarations are dropped. -/
theorem respects_duplicates : Respects fun p q => q.duplicates = p.duplicates where
  refl _ := rfl
  trans h h' := h'.trans h
  scopes _ _ := rfl
  add _ _ _ := rfl
  fill _ _ _ _ := rfl

end NameResolution.Registration
