import NameResolution.Proofs.Tree.WellFormed
import NameResolution.Scope.Nesting

/-!
# What a pass leaves alone

Both walks add nodes and change a few of those that are there: registration fills in records, and binding
stores resolutions and turns plain names into accesses. `Tree.Extends` says that nothing else happens to
the nodes of a tree. It is enough for the chains of parents, the nesting and the qualified names to stay as
they are.
-/
namespace NameResolution

namespace Payload

/-- The same but for the resolution that is stored. -/
def SameForm (p q : Payload) : Prop := p.bind .unresolved = q.bind .unresolved

theorem SameForm.refl (p : Payload) : p.SameForm p := rfl

theorem sameForm_bind (p : Payload) (r : Resolution) : p.SameForm (p.bind r) := by
  cases p <;> rfl

theorem SameForm.eq_of_not_reference {p q : Payload} (h : p.SameForm q)
    (hp : p.kind.isReference = false) : p = q := by
  cases p <;> cases q <;> simp_all [SameForm, bind, kind, NodeKind.isReference]

theorem SameForm.reference {r : Resolution} {q : Payload} (h : (reference r).SameForm q) :
    ∃ r', q = reference r' := by
  cases q <;> simp_all [SameForm, bind]

theorem SameForm.member {a : Access} {q : Payload} (h : (member a).SameForm q) :
    ∃ r, q = member { a with resolution := r } := by
  cases q <;> simp_all [SameForm, bind]
  rename_i b
  exact ⟨b.resolution, by cases a; cases b; simp_all⟩

/-- What a pass may make of what a node holds. -/
inductive Becomes : Payload → Payload → Prop
  | rebound {p q} (h : p.SameForm q) : Becomes p q
  | filled {r r' : Record} (kind : r'.kind = r.kind) (members : r'.members = r.members) :
      Becomes (recordDecl r) (recordDecl r')
  | writtenOut {r : Resolution} {a : Access} (h : a.implicitBase = true) :
      Becomes (reference r) (member a)

namespace Becomes
variable {p q s : Payload}

theorem refl (p : Payload) : p.Becomes p := .rebound (.refl p)

theorem trans (h : p.Becomes q) (h' : q.Becomes s) : p.Becomes s := by
  cases h with
  | rebound h =>
    cases h' with
    | rebound h' => exact .rebound (Eq.trans h h')
    | filled hk hm =>
      rw [SameForm.eq_of_not_reference h.symm rfl |>.symm]
      exact .filled hk hm
    | writtenOut ha =>
      obtain ⟨r', rfl⟩ := SameForm.reference h.symm
      exact .writtenOut ha
  | filled hk hm =>
    cases h' with
    | rebound h' =>
      rw [← h'.eq_of_not_reference rfl]
      exact .filled hk hm
    | filled hk' hm' => exact .filled (hk'.trans hk) (hm'.trans hm)
  | writtenOut ha =>
    cases h' with
    | rebound h' =>
      obtain ⟨r', rfl⟩ := h'.member
      exact .writtenOut ha

theorem kind_eq (h : p.Becomes q) (hp : p.kind ≠ .reference) : q.kind = p.kind := by
  cases h with
  | rebound h =>
    have hk := congrArg kind h
    rw [kind_bind, kind_bind] at hk
    exact hk.symm
  | filled => rfl
  | writtenOut => exact absurd rfl hp

/-- Only plain names, accesses and records come to hold something else. -/
theorem eq_of_kind (h : p.Becomes q) (hq : q.kind.isReference = false) (hr : q.kind ≠ .recordDecl) :
    p = q := by
  cases h with
  | rebound h => exact (SameForm.eq_of_not_reference (Eq.symm h) hq).symm
  | filled => exact absurd rfl hr
  | writtenOut => cases hq

theorem kind_recordDecl_iff (h : p.Becomes q) : q.kind = .recordDecl ↔ p.kind = .recordDecl := by
  by_cases hp : p.kind = .reference
  · cases h with
    | rebound h =>
      have hk := congrArg kind h
      rw [kind_bind, kind_bind] at hk
      rw [hk]
    | filled => simp [kind]
    | writtenOut => simp [kind]
  · rw [h.kind_eq hp]

theorem slots_eq (h : p.Becomes q) : q.slots = p.slots := by
  cases h with
  | rebound h => cases p <;> cases q <;> simp_all [SameForm, bind, slots]
  | filled hk hm => simp [slots, hm]
  | writtenOut => rfl

theorem opens?_eq (h : p.Becomes q) : q.opens? = p.opens? := by
  cases h with
  | rebound h => cases p <;> cases q <;> simp_all [SameForm, bind, opens?]
  | filled hk hm => rfl
  | writtenOut => rfl

end Becomes
end Payload

theorem Node.exists_record {n : Node} (h : n.kind = .recordDecl) : ∃ r, n.payload = .recordDecl r := by
  cases hp : n.payload <;> simp_all [Node.kind, Payload.kind]

theorem Node.exists_reference {n : Node} (h : n.kind = .reference) : ∃ r, n.payload = .reference r := by
  obtain ⟨_, _, _, _, payload⟩ := n
  cases payload <;> first | exact ⟨_, rfl⟩ | cases h

/-- A node is a record, or opens a scope without more, or none. -/
theorem Node.opens_cases (n : Node) :
    (∃ r, n.payload = .recordDecl r) ∨ n.payload.opens? = none ∨
      ∃ kind, n.payload.opens? = some kind ∧ n.kind ≠ .recordDecl := by
  by_cases hk : n.kind = .recordDecl
  · exact .inl (Node.exists_record hk)
  · cases hopens : n.payload.opens? with
    | none => exact .inr (.inl rfl)
    | some kind => exact .inr (.inr ⟨kind, rfl, hk⟩)

/-- References are plain names and accesses. -/
theorem Node.reference_or_member {n : Node} (h : n.kind.isReference = true) :
    (∃ r, n.payload = .reference r) ∨ ∃ a, n.payload = .member a := by
  obtain ⟨_, _, _, _, payload⟩ := n
  cases payload <;> first | exact .inl ⟨_, rfl⟩ | exact .inr ⟨_, rfl⟩ | cases h

/-- What a pass may make of a node. -/
structure Node.Becomes (n n' : Node) : Prop where
  id : n'.id = n.id
  name : n'.name = n.name
  region : n'.region = n.region
  parent : n'.parent = n.parent
  payload : n.payload.Becomes n'.payload

theorem Node.Becomes.refl (n : Node) : n.Becomes n := ⟨rfl, rfl, rfl, rfl, .refl _⟩

theorem Node.Becomes.trans {n n' n'' : Node} (h : n.Becomes n') (h' : n'.Becomes n'') : n.Becomes n'' :=
  ⟨h'.id.trans h.id, h'.name.trans h.name, h'.region.trans h.region, h'.parent.trans h.parent,
    h.payload.trans h'.payload⟩

namespace Tree

/-- Only references are bound. -/
theorem isReference_of_resolution? {n : Node} {r : Resolution} (hr : n.payload.resolution? = some r) :
    n.kind.isReference = true := by
  rw [Node.kind, ← Payload.resolution?_isSome, hr, Option.isSome_some]

theorem resolution?_of_get? {t : Tree} {id : NodeId} {n : Node} {r : Resolution} (hn : t.get? id = some n)
    (hr : n.payload.resolution? = some r) : t.resolution? id = some r := by
  rw [resolution?, hn, Option.bind_some, hr]

/-- Every node of `t` is still there in `t'`, changed no more than a pass may change it. -/
structure Extends (t t' : Tree) : Prop where
  root : t'.root = t.root
  node : ∀ {id n}, t.get? id = some n → ∃ n', t'.get? id = some n' ∧ n.Becomes n'

/-- The two trees differ in references at most. -/
def SameDeclarations (t t' : Tree) : Prop :=
  ∀ {id n}, n.kind.isReference = false → (t'.get? id = some n ↔ t.get? id = some n)

/-- The nodes of `t` that are no records are in `t'` as they were. -/
def KeepsAllButRecords (t t' : Tree) : Prop :=
  ∀ {id n}, t.get? id = some n → n.kind ≠ .recordDecl → t'.get? id = some n

theorem SameDeclarations.refl (t : Tree) : t.SameDeclarations t := fun _ => Iff.rfl

theorem SameDeclarations.trans {t t' t'' : Tree} (h : t.SameDeclarations t')
    (h' : t'.SameDeclarations t'') : t.SameDeclarations t'' :=
  fun hk => (h' hk).trans (h hk)

theorem KeepsAllButRecords.refl (t : Tree) : t.KeepsAllButRecords t := fun hn _ => hn

theorem KeepsAllButRecords.trans {t t' t'' : Tree} (h : t.KeepsAllButRecords t')
    (h' : t'.KeepsAllButRecords t'') : t.KeepsAllButRecords t'' :=
  fun hn hk => h' (h hn hk) hk

namespace Extends
variable {t t' t'' : Tree} {id : NodeId} {n : Node}

theorem refl (t : Tree) : t.Extends t := ⟨rfl, fun {_ n} hn => ⟨n, hn, .refl n⟩⟩

theorem trans (h : t.Extends t') (h' : t'.Extends t'') : t.Extends t'' := by
  refine ⟨h'.root.trans h.root, fun hn => ?_⟩
  obtain ⟨n', hn', hb⟩ := h.node hn
  obtain ⟨n'', hn'', hb'⟩ := h'.node hn'
  exact ⟨n'', hn'', hb.trans hb'⟩

theorem get?_eq_none (h : t.Extends t') (hn : t'.get? id = none) : t.get? id = none := by
  cases hm : t.get? id with
  | none => rfl
  | some m =>
    obtain ⟨m', hm', -⟩ := h.node hm
    rw [hn] at hm'
    cases hm'

theorem lineage {above : List NodeId} (h : t.Extends t') (hl : t.Lineage id above) :
    t'.Lineage id above := by
  refine hl.mono fun hn => ?_
  obtain ⟨n', hn', hb⟩ := h.node hn
  exact ⟨n', hn', hb.parent⟩

theorem ancestors_eq (h : t.Extends t') (ht : t.WellFormed) (hn : t.get? id = some n) :
    t'.ancestors id = t.ancestors id :=
  (h.lineage (ht.lineage_ancestors hn)).ancestors_eq

theorem kind?_recordDecl_iff (h : t.Extends t') (hn : t.get? id = some n) :
    t'.kind? id = some .recordDecl ↔ t.kind? id = some .recordDecl := by
  obtain ⟨n', hn', hb⟩ := h.node hn
  simp only [kind?, hn, hn', Option.map_some, Option.some.injEq, Node.kind]
  exact hb.payload.kind_recordDecl_iff

theorem nameOf_eq (h : t.Extends t') (hn : t.get? id = some n) : t'.nameOf id = t.nameOf id := by
  obtain ⟨n', hn', hb⟩ := h.node hn
  simp [nameOf, name?, hn, hn', hb.name]

theorem enclosingRecords_eq (h : t.Extends t') (ht : t.WellFormed) (hn : t.get? id = some n) :
    t'.enclosingRecords id = t.enclosingRecords id := by
  rw [enclosingRecords, enclosingRecords, h.ancestors_eq ht hn]
  apply List.filter_congr
  intro a ha
  obtain ⟨m, hm⟩ := ht.exists_of_mem_ancestors ha
  rw [Bool.eq_iff_iff, beq_iff_eq, beq_iff_eq]
  exact h.kind?_recordDecl_iff hm

theorem qualify_eq (h : t.Extends t') (separator name : String) {outers : List NodeId}
    (ho : ∀ o ∈ outers, ∃ n, t.get? o = some n) :
    t'.qualify separator name outers = t.qualify separator name outers := by
  induction outers generalizing name with
  | nil => rfl
  | cons o outers ih =>
    obtain ⟨n, hn⟩ := ho o (by simp)
    rw [qualify, qualify, h.nameOf_eq hn, ih _ fun o ho' => ho o (by simp [ho'])]

theorem qualifiedName_eq (h : t.Extends t') (ht : t.WellFormed) (separator : String)
    (hn : t.get? id = some n) : t'.qualifiedName separator id = t.qualifiedName separator id := by
  rw [qualifiedName, qualifiedName, h.nameOf_eq hn, h.enclosingRecords_eq ht hn]
  apply h.qualify_eq
  intro o ho
  exact ht.exists_of_mem_ancestors (List.mem_of_mem_filter ho)

end Extends
end Tree
end NameResolution
