import NameResolution.Proofs.Tree.Frame

/-!
# Trees that grow at a node

Both passes change a tree in one way only: one node comes to hold something else, and new nodes without
children may be put below it. A well-formed tree stays well-formed then.
-/
namespace NameResolution.Tree

/-- `t'` is `t` with the node `n` at `id` turned into `n'`, which has the nodes `new` as further children. -/
structure GrowsAt (t : Tree) (id : NodeId) (n n' : Node) (new : List NodeId) (t' : Tree) : Prop where
  root : t'.root = t.root
  before : t.get? id = some n
  after : t'.get? id = some n'
  becomes : n.Becomes n'
  children : n'.children = n.children ++ new
  kept : ∀ {j m}, j ≠ id → t.get? j = some m → t'.get? j = some m
  only : ∀ {j m}, j ≠ id → t'.get? j = some m → t.get? j = some m ∨ j ∈ new
  leaf : ∀ f ∈ new, ∃ m, t'.get? f = some m ∧ m.id = f ∧ m.parent = some id ∧ m.children = []
  fresh : ∀ f ∈ new, t.get? f = none
  nodup : new.Nodup

namespace GrowsAt
variable {t t' : Tree} {id j : NodeId} {n n' m : Node} {new : List NodeId}

theorem toExtends (h : t.GrowsAt id n n' new t') : t.Extends t' := by
  refine ⟨h.root, fun {j m} hm => ?_⟩
  by_cases hj : j = id
  · subst hj
    rw [h.before] at hm
    cases hm
    exact ⟨n', h.after, h.becomes⟩
  · exact ⟨m, h.kept hj hm, .refl m⟩

/-- Where a node of the grown tree comes from. -/
theorem cases (h : t.GrowsAt id n n' new t') (hm : t'.get? j = some m) :
    (j = id ∧ m = n') ∨ (j ≠ id ∧ t.get? j = some m) ∨ (j ≠ id ∧ j ∈ new) := by
  by_cases hj : j = id
  · subst hj
    rw [h.after] at hm
    exact .inl ⟨rfl, (Option.some.inj hm).symm⟩
  · rcases h.only hj hm with hm | hnew
    · exact .inr (.inl ⟨hj, hm⟩)
    · exact .inr (.inr ⟨hj, hnew⟩)

theorem leaf_eq (h : t.GrowsAt id n n' new t') (hj : j ∈ new) (hm : t'.get? j = some m) :
    m.id = j ∧ m.parent = some id ∧ m.children = [] := by
  obtain ⟨m', hm', hleaf⟩ := h.leaf j hj
  rw [hm] at hm'
  cases hm'
  exact hleaf

theorem wellFormed (h : t.GrowsAt id n n' new t') (ht : t.WellFormed) : t'.WellFormed := by
  have hext := h.toExtends
  constructor
  case own_id =>
    intro j m hm
    rcases h.cases hm with ⟨rfl, rfl⟩ | ⟨-, hm'⟩ | ⟨-, hnew⟩
    · exact h.becomes.id.trans (ht.own_id h.before)
    · exact ht.own_id hm'
    · exact (h.leaf_eq hnew hm).1
  case unit_root =>
    obtain ⟨root, k, hr, hk, hkind, hparent⟩ := ht.unit_root
    obtain ⟨k', hk', hb⟩ := hext.node hk
    refine ⟨root, k', hext.root.trans hr, hk', ?_, hb.parent.trans hparent⟩
    have hne : k.payload.kind ≠ .reference := fun he => by simp [Node.kind, he] at hkind
    exact (hb.payload.kind_eq hne).trans hkind
  case eq_root =>
    intro j m hm hparent
    rw [h.root]
    rcases h.cases hm with ⟨rfl, rfl⟩ | ⟨-, hm'⟩ | ⟨-, hnew⟩
    · exact ht.eq_root h.before (h.becomes.parent.symm.trans hparent)
    · exact ht.eq_root hm' hparent
    · simp [(h.leaf_eq hnew hm).2.1] at hparent
  case parent_of_child =>
    intro p m c hm hc
    have hold : ∀ {k}, t.get? p = some k → c ∈ k.children →
        ∃ m', t'.get? c = some m' ∧ m'.parent = some p := by
      intro k hk hck
      obtain ⟨k', hk', hparent⟩ := ht.parent_of_child hk hck
      obtain ⟨m', hm', hb⟩ := hext.node hk'
      exact ⟨m', hm', hb.parent.trans hparent⟩
    rcases h.cases hm with ⟨rfl, rfl⟩ | ⟨-, hm'⟩ | ⟨-, hnew⟩
    · rw [h.children] at hc
      rcases List.mem_append.mp hc with hc | hc
      · exact hold h.before hc
      · obtain ⟨k, hk, -, hparent, -⟩ := h.leaf c hc
        exact ⟨k, hk, hparent⟩
    · exact hold hm' hc
    · simp [(h.leaf_eq hnew hm).2.2] at hc
  case child_of_parent =>
    intro c m p hm hparent
    have hold : ∀ {k}, t.get? c = some k → k.parent = some p →
        ∃ m', t'.get? p = some m' ∧ c ∈ m'.children := by
      intro k hk hkp
      obtain ⟨k', hk', hck⟩ := ht.child_of_parent hk hkp
      by_cases hp : p = id
      · subst hp
        rw [h.before] at hk'
        cases hk'
        exact ⟨n', h.after, h.children ▸ List.mem_append_left _ hck⟩
      · exact ⟨k', h.kept hp hk', hck⟩
    rcases h.cases hm with ⟨rfl, rfl⟩ | ⟨-, hm'⟩ | ⟨-, hnew⟩
    · exact hold h.before (h.becomes.parent.symm.trans hparent)
    · exact hold hm' hparent
    · rw [(h.leaf_eq hnew hm).2.1] at hparent
      cases hparent
      exact ⟨n', h.after, h.children ▸ List.mem_append_right _ hnew⟩
  case nodup_children =>
    intro p m hm
    rcases h.cases hm with ⟨rfl, rfl⟩ | ⟨-, hm'⟩ | ⟨-, hnew⟩
    · rw [h.children]
      refine List.nodup_append.mpr ⟨ht.nodup_children h.before, h.nodup, ?_⟩
      rintro c hc f hf rfl
      obtain ⟨k, hk, -⟩ := ht.parent_of_child h.before hc
      simp [h.fresh c hf] at hk
    · exact ht.nodup_children hm'
    · simp [(h.leaf_eq hnew hm).2.2]
  case lineage =>
    intro j m hm
    have hid := hext.lineage (ht.lineage_ancestors h.before)
    rcases h.cases hm with ⟨rfl, rfl⟩ | ⟨-, hm'⟩ | ⟨-, hnew⟩
    · exact ⟨_, hid⟩
    · exact ⟨_, hext.lineage (ht.lineage_ancestors hm')⟩
    · exact ⟨_, .under hm (h.leaf_eq hnew hm).2.1 hid⟩

end GrowsAt
end NameResolution.Tree
