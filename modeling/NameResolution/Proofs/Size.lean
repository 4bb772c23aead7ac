import Mathlib.Algebra.GroupWithZero.Nat
import NameResolution.Proofs.Binding.Counts
import NameResolution.Proofs.Resolve
import NameResolution.Proofs.Tree.Flatten

/-!
# How much a pass adds

The first registration of a tree gives every record that it enters one field for `this` and one for each record
around it. Binding adds two names for every access that it writes out. Nothing else is added.
-/
namespace NameResolution

namespace Tree
variable {t t' T : Tree} {id x root : NodeId} {n n' : Node} {new : List NodeId}

theorem GrowsAt.size_eq (h : t.GrowsAt id n n' new t') : t'.size = t.size + new.length := by
  have hnodup : (t.ids ++ new).Nodup := by
    refine List.nodup_append.mpr ⟨t.nodup_ids, h.nodup, ?_⟩
    rintro x hx _ hx' rfl
    obtain ⟨m, hm⟩ := mem_ids_iff.mp hx
    simp [h.fresh x hx'] at hm
  have hperm : t'.ids.Perm (t.ids ++ new) := by
    refine (List.perm_ext_iff_of_nodup t'.nodup_ids hnodup).mpr fun x => ?_
    rw [List.mem_append, mem_ids_iff, mem_ids_iff]
    constructor
    · rintro ⟨m, hm⟩
      rcases h.cases hm with ⟨rfl, -⟩ | ⟨-, hm'⟩ | ⟨-, hnew⟩
      · exact .inl ⟨n, h.before⟩
      · exact .inl ⟨m, hm'⟩
      · exact .inr hnew
    · rintro (⟨m, hm⟩ | hnew)
      · obtain ⟨m', hm', -⟩ := h.toExtends.node hm
        exact ⟨m', hm'⟩
      · obtain ⟨m, hm, -⟩ := h.leaf x hnew
        exact ⟨m, hm⟩
  simpa using hperm.length_eq

/-- The fields that a record gets: `this`, and one for each record around it. -/
def implicitCount (t : Tree) (record : NodeId) : Nat := 1 + (t.enclosingRecords record).length

theorem Supplied.length_implicitFields {separator : String} {r : Record} (h : t.Supplied separator id r) :
    r.implicitFields.length = t.implicitCount id := by
  obtain ⟨f, hf, -⟩ := h.this
  rw [implicitCount, ← h.records, List.length_map, Record.implicitFields, hf]
  simp [Nat.add_comm]

theorem Extends.implicitCount_eq (h : t.Extends t') (ht : t.WellFormed) (hn : t.get? id = some n) :
    t'.implicitCount id = t.implicitCount id := by
  rw [implicitCount, implicitCount, h.enclosingRecords_eq ht hn]

/-- What is part of the nesting at a node. -/
inductive Nests (t : Tree) : NodeId → NodeId → Prop
  | self (id : NodeId) : Nests t id id
  | place {id x : NodeId} {n : Node} {s : Slot} (node : t.get? id = some n) (slot : s ∈ n.payload.slots)
      (rest : Nests t s.child x) : Nests t id x

/-- Registration has not been at any record. -/
def IsFresh (t : Tree) : Prop := ∀ {id n r}, t.get? id = some n → n.payload = .recordDecl r → r.IsBare

end Tree

namespace Registration
open NameResolution.Tree

variable {config : Config} {languages : Set String} {t : Tree} {id x root : NodeId} {n : Node}
  {p p' : Progress} {done xs : List Step} {depth : Nat}

def Step.entered? : Step → Option NodeId
  | enter id => some id
  | check _ _ => none

def enteredRecords (t : Tree) (xs : List Step) : List NodeId :=
  (xs.filterMap Step.entered?).filter fun id => t.kind? id == some .recordDecl

theorem enteredRecords_check (owner : NodeId) (slot : Slot) :
    enteredRecords t (done ++ [.check owner slot]) = enteredRecords t done := by
  simp [enteredRecords, Step.entered?, List.filterMap_cons]

theorem enteredRecords_enter (hn : t.get? id = some n) :
    enteredRecords t (done ++ [.enter id]) =
      enteredRecords t done ++ if n.kind = .recordDecl then [id] else [] := by
  simp [enteredRecords, Step.entered?, kind?, hn, List.filter_cons]

theorem mem_filterMap_entered?_iff : x ∈ xs.filterMap Step.entered? ↔ .enter x ∈ xs := by
  rw [List.mem_filterMap]
  constructor
  · rintro ⟨s, hs, he⟩
    cases s with
    | enter id =>
      cases he
      exact hs
    | check => cases he
  · exact fun hx => ⟨_, hx, rfl⟩

/-- No node is entered twice. -/
theorem nodup_entered (ht : t.WellFormed) : ((steps t depth root).filterMap Step.entered?).Nodup := by
  refine List.pairwise_filterMap.mpr ((steps_pairwise ht depth root).imp ?_)
  intro s s' hbefore a ha b hb
  cases s <;> cases ha
  cases s' <;> cases hb
  rintro rfl
  exact hbefore _ _ rfl rfl (.refl t _)

/-- The walk enters what is part of the nesting. -/
theorem enter_mem_steps_iff (ht : t.WellFormed) (hn : t.get? id = some n)
    (hdepth : t.size < depth + (t.ancestors id).length) :
    .enter x ∈ steps t depth id ↔ t.Nests id x := by
  induction depth generalizing id n with
  | zero =>
    have := ht.length_ancestors_lt hn
    omega
  | succ depth ih =>
    have hslot : ∀ {s}, s ∈ n.payload.slots →
        (.enter x ∈ steps t depth s.child ↔ t.Nests s.child x) := by
      intro s hs
      have hchild := Payload.child_mem_children hs
      obtain ⟨m, hm, -⟩ := ht.parent_of_child hn hchild
      refine ih hm ?_
      rw [ht.ancestors_of_child hn hchild, List.length_cons]
      omega
    rw [enter_mem_steps_succ]
    constructor
    · rintro (rfl | ⟨m, hm, s, hs, hx⟩)
      · exact .self x
      · rw [hn] at hm
        cases hm
        exact .place hn hs ((hslot hs).mp hx)
    · intro h
      cases h with
      | self => exact .inl rfl
      | place hm hs rest =>
        rw [hn] at hm
        cases hm
        exact .inr ⟨n, hn, _, hs, (hslot hs).mpr rest⟩

theorem mem_enteredRecords_iff (ht : t.WellFormed) (hn : t.get? root = some n)
    (hdepth : t.size < depth + (t.ancestors root).length) :
    x ∈ enteredRecords t (steps t depth root) ↔ t.Nests root x ∧ t.kind? x = some .recordDecl := by
  rw [enteredRecords, List.mem_filter, mem_filterMap_entered?_iff, enter_mem_steps_iff ht hn hdepth, beq_iff_eq]

/-- Entering a record for the first time adds its implicit members, and entering anything else adds nothing. -/
theorem Enters.size_eq (h : Enters config id n p p') (ht : p.tree.WellFormed)
    (hbare : ∀ r, n.payload = .recordDecl r → r.IsBare) :
    p'.tree.size = p.tree.size + if n.kind = .recordDecl then p.tree.implicitCount id else 0 := by
  obtain ⟨p₁, inner, hd, ho⟩ := h.effect
  have hn : p₁.tree.get? id = some n := hd.tree_eq ▸ h.node
  rw [← hd.tree_eq] at ht ⊢
  cases ho with
  | transparent hopens =>
    have hk : n.kind ≠ .recordDecl := fun hk => by
      obtain ⟨r, hr⟩ := Node.exists_record hk
      simp [hr, Payload.opens?] at hopens
    rw [if_neg hk, Nat.add_zero]
  | plain _ hk => rw [if_neg hk, Nat.add_zero]
  | @record r r' t' hp hsup =>
    rw [if_pos (by rw [Node.kind, hp]; rfl)]
    rcases hsup.cases hn hp with ⟨rfl, rfl⟩ | ⟨-, hsupplied, hg⟩
    · obtain ⟨_, hsupplied⟩ := hsup.exists_supplied
      obtain ⟨f, hf, -⟩ := hsupplied.this
      simp [(hbare r' hp).2.1] at hf
    · rw [hg.size_eq, hsupplied.length_implicitFields, hg.toExtends.implicitCount_eq ht hn]

/-- A tree that registration has not been at grows by the members of the records that are entered. -/
theorem size_run (ht : t.ProperIn languages) (hlanguage : config.separator ∈ languages) (hfresh : t.IsFresh)
    {k : Node} (hk : t.get? root = some k)
    (hrun : runSteps (exec config) (steps t depth root) { tree := t } = .ok () p') :
    p'.tree.size = t.size + ((enteredRecords t (steps t depth root)).map t.implicitCount).sum := by
  refine Walked.induction (I := fun done p => p.tree.size = t.size +
    ((enteredRecords t done).map t.implicitCount).sum) ht hlanguage hk (List.append_nil _).symm hrun rfl ?_ ?_
  · intro done owner slot q hsize
    rw [hsize, enteredRecords_check]
  · intro done rest id n q q' _ h hn he hsize
    have hgrown := he.size_eq h.proper.toWellFormed fun r hr => hfresh hn hr
    rw [hgrown, hsize, enteredRecords_enter hn, h.toExtends.implicitCount_eq ht.toWellFormed hn]
    split <;> simp [Nat.add_assoc]

end Registration

namespace Tree
variable {t : Tree} {root x a : NodeId}

/-- Registration enters what nests in the unit. -/
theorem WellFormed.enter_mem_iff (ht : t.WellFormed) (hroot : t.root = some root) :
    .enter x ∈ Registration.steps t t.depthLimit root ↔ t.Nests root x := by
  obtain ⟨k, hk, -⟩ := ht.root_parent hroot
  exact Registration.enter_mem_steps_iff ht hk (t.lt_depthLimit root)

/-- What stands around a node of the nesting is part of it. -/
theorem WellFormed.nests_of_mem_ancestors (ht : t.WellFormed) (hroot : t.root = some root) (hx : t.Nests root x)
    (ha : a ∈ t.ancestors x) : t.Nests root a := by
  obtain ⟨m, hm⟩ := ht.exists_of_mem_ancestors ha
  rw [← ht.enter_mem_iff hroot] at hx ⊢
  exact Registration.enter_mem_of_mem_ancestors ht hx ha (ht.below_root hroot hm)

end Tree

namespace Tree

theorem size_writeOutAccess {t : Tree} {id : NodeId} {n : Node} (hn : t.get? id = some n) (base : String)
    (baseTo memberTo : Resolution) : (t.writeOutAccess id base baseTo memberTo).size = t.size + 2 := by
  simp [writeOutAccess, hn]

@[simp] theorem size_bind (t : Tree) (id : NodeId) (r : Resolution) : (t.bind id r).size = t.size :=
  size_modify ..

end Tree

namespace Binding
open NameResolution.Tree

/-- A step adds two names for an access that it writes out, and nothing otherwise. -/
theorem size_exec {c : Context} {t : Tree} {p : Progress} (s : Step)
    (h : p.tree.size = t.size + 2 * p.bindings.implicitMembers) :
    (endState ((exec c s).run p)).tree.size =
      t.size + 2 * (endState ((exec c s).run p)).bindings.implicitMembers := by
  have heffect := exec_effect c p s
  generalize (exec c s).run p = result at heffect ⊢
  cases heffect with
  | fails e => exact h
  | @name id n scope role hn =>
    rw [endState_ok, named]
    cases written? c p.tree n.name scope role with
    | none => simpa using h
    | some w =>
      simp only [size_writeOutAccess hn]
      omega
  | access =>
    rw [endState_ok, accessed]
    simpa using h

end Binding

namespace Tree
variable {languages : Set String} {config : Config} {t t' T : Tree} {u : ResolvedUnit}

theorem PassIn.size_eq (h : PassIn languages config t t' T u) : T.size = t'.size + 2 * u.implicitMembers := by
  have hsize : (endState (runSteps (Binding.exec (u.context config)) (t'.bindingSteps u.scopes u.root)
        { tree := t' })).tree.size =
      t'.size + 2 * (endState (runSteps (Binding.exec (u.context config)) (t'.bindingSteps u.scopes u.root)
        { tree := t' })).bindings.implicitMembers :=
    endState_runSteps (I := fun p : Binding.Progress => p.tree.size = t'.size + 2 * p.bindings.implicitMembers)
      (fun s _ _ hp => Binding.size_exec s hp) rfl
  rwa [h.binding] at hsize

/-- The first pass over a tree adds the members of all records that are part of the nesting and two names for
each access that is written out. -/
theorem PassIn.size_of_fresh (h : PassIn languages config t t' T u) (hfresh : t.IsFresh) :
    ∃ records : List NodeId, records.Nodup ∧
      (∀ id, id ∈ records ↔ t.Nests u.root id ∧ t.kind? id = some .recordDecl) ∧
      T.size = t.size + (records.map t.implicitCount).sum + 2 * u.implicitMembers := by
  have hwf := h.proper.toWellFormed
  obtain ⟨n, hn, -⟩ := hwf.root_parent h.root_eq
  refine ⟨Registration.enteredRecords t (Registration.steps t t.depthLimit u.root),
    (Registration.nodup_entered hwf).filter _,
    fun id => Registration.mem_enteredRecords_iff hwf hn (t.lt_depthLimit u.root), ?_⟩
  rw [h.size_eq, Registration.size_run h.proper h.language hfresh hn h.registration]

end Tree
end NameResolution
