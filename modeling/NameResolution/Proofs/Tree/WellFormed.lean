import NameResolution.Proofs.Tree.Lineage

/-!
# Well-formed trees

In a well-formed tree the two directions of ownership agree: the ids below a node are those of the nodes
whose parent it is, each once, and every chain of parents ends at the root, which is a translation unit.
Nothing is said about the order of ids: nodes that are added to a finished tree have larger ids than the
nodes above them.
-/
namespace NameResolution.Tree

/-- Every node stands in exactly one place below the root. -/
structure WellFormed (t : Tree) : Prop where
  own_id : ∀ {id n}, t.get? id = some n → n.id = id
  unit_root : ∃ root n, t.root = some root ∧ t.get? root = some n ∧ n.kind = .translationUnit ∧
    n.parent = none
  eq_root : ∀ {id n}, t.get? id = some n → n.parent = none → t.root = some id
  parent_of_child : ∀ {p n c}, t.get? p = some n → c ∈ n.children →
    ∃ m, t.get? c = some m ∧ m.parent = some p
  child_of_parent : ∀ {c m p}, t.get? c = some m → m.parent = some p →
    ∃ n, t.get? p = some n ∧ c ∈ n.children
  nodup_children : ∀ {p n}, t.get? p = some n → n.children.Nodup
  lineage : ∀ {id n}, t.get? id = some n → ∃ above, t.Lineage id above

/-- `a` is the node `x` or stands above it. -/
def Below (t : Tree) (a x : NodeId) : Prop := a = x ∨ a ∈ t.ancestors x

theorem Below.refl (t : Tree) (x : NodeId) : t.Below x x := .inl rfl

theorem ancestors_of_get?_none {t : Tree} {id : NodeId} (h : t.get? id = none) : t.ancestors id = [] := by
  rw [ancestors, h, Option.bind_none]
  cases t.size <;> rfl

/-- What stands below a node is there. -/
theorem exists_of_below {t : Tree} {a x : NodeId} {n : Node} (hn : t.get? a = some n) (hx : t.Below a x) :
    ∃ m, t.get? x = some m := by
  rcases hx with rfl | hx
  · exact ⟨n, hn⟩
  · cases hm : t.get? x with
    | none => simp [ancestors_of_get?_none hm] at hx
    | some m => exact ⟨m, rfl⟩

namespace WellFormed
variable {t : Tree} {p c d a x root : NodeId} {n m : Node}

theorem lineage_ancestors (h : t.WellFormed) (hn : t.get? x = some n) :
    t.Lineage x (t.ancestors x) := by
  obtain ⟨above, hl⟩ := h.lineage hn
  rwa [hl.ancestors_eq]

/-- A node with an ancestor has a lineage. -/
theorem lineage_ancestors_of_mem (h : t.WellFormed) (ha : a ∈ t.ancestors x) :
    t.Lineage x (t.ancestors x) := by
  cases hx : t.get? x with
  | none => simp [ancestors_of_get?_none hx] at ha
  | some n => exact h.lineage_ancestors hx

theorem ancestors_of_parent (h : t.WellFormed) (hc : t.get? c = some m) (hp : m.parent = some p) :
    t.ancestors c = p :: t.ancestors p := by
  obtain ⟨n, hn, -⟩ := h.child_of_parent hc hp
  exact (Lineage.under hc hp (h.lineage_ancestors hn)).ancestors_eq

theorem ancestors_of_top (hc : t.get? c = some m) (hp : m.parent = none) : t.ancestors c = [] :=
  (Lineage.top hc hp).ancestors_eq

theorem ancestors_of_child (h : t.WellFormed) (hn : t.get? p = some n) (hc : c ∈ n.children) :
    t.ancestors c = p :: t.ancestors p := by
  obtain ⟨m, hm, hp⟩ := h.parent_of_child hn hc
  exact h.ancestors_of_parent hm hp

/-- No node stands below two nodes. -/
theorem eq_of_child (h : t.WellFormed) (hn : t.get? p = some n) (hc : c ∈ n.children) (hm : t.get? x = some m)
    (hc' : c ∈ m.children) : p = x := by
  obtain ⟨k, hk, hp⟩ := h.parent_of_child hn hc
  obtain ⟨k', hk', hp'⟩ := h.parent_of_child hm hc'
  rw [hk] at hk'
  cases hk'
  exact Option.some.inj (hp.symm.trans hp')

/-- The ancestors of an ancestor are the rest of the list. -/
theorem ancestors_split (h : t.WellFormed) (ha : a ∈ t.ancestors x) :
    ∃ nearer, t.ancestors x = nearer ++ a :: t.ancestors a := by
  obtain ⟨nearer, further, he, hf⟩ := (h.lineage_ancestors_of_mem ha).split ha
  exact ⟨nearer, by rw [hf.ancestors_eq, he]⟩

theorem exists_of_mem_ancestors (h : t.WellFormed) (ha : a ∈ t.ancestors x) :
    ∃ n, t.get? a = some n := by
  obtain ⟨_, _, _, hf⟩ := (h.lineage_ancestors_of_mem ha).split ha
  exact hf.exists_node

theorem not_mem_ancestors (h : t.WellFormed) (x : NodeId) : x ∉ t.ancestors x := by
  cases hx : t.get? x with
  | none => simp [ancestors_of_get?_none hx]
  | some n => exact (h.lineage_ancestors hx).not_mem

theorem length_ancestors_lt (h : t.WellFormed) (hn : t.get? x = some n) :
    (t.ancestors x).length < t.size :=
  (h.lineage_ancestors hn).length_lt_size

theorem mem_ancestors_trans (h : t.WellFormed) (ha : a ∈ t.ancestors p) (hp : p ∈ t.ancestors x) :
    a ∈ t.ancestors x := by
  obtain ⟨nearer, he⟩ := h.ancestors_split hp
  rw [he]
  simp [ha]

theorem root_parent (h : t.WellFormed) (hr : t.root = some root) :
    ∃ n, t.get? root = some n ∧ n.kind = .translationUnit ∧ n.parent = none := by
  obtain ⟨root', n, hr', hn, hk, hp⟩ := h.unit_root
  rw [hr] at hr'
  cases hr'
  exact ⟨n, hn, hk, hp⟩

theorem ancestor_of_below_child (h : t.WellFormed) (hn : t.get? p = some n) (hc : c ∈ n.children)
    (hx : t.Below c x) : p ∈ t.ancestors x := by
  have hpc : p ∈ t.ancestors c := by simp [h.ancestors_of_child hn hc]
  rcases hx with rfl | hx
  · exact hpc
  · exact h.mem_ancestors_trans hpc hx

theorem below_of_child (h : t.WellFormed) (hn : t.get? p = some n) (hc : c ∈ n.children)
    (hx : t.Below c x) : t.Below p x :=
  .inr (h.ancestor_of_below_child hn hc hx)

theorem below_trans (h : t.WellFormed) (hca : t.Below c a) (hax : t.Below a x) : t.Below c x := by
  rcases hax with rfl | hax
  · exact hca
  · rcases hca with rfl | hca
    · exact .inr hax
    · exact .inr (h.mem_ancestors_trans hca hax)

/-- A node does not stand below what is below it. -/
theorem not_below_of_child (h : t.WellFormed) (hn : t.get? p = some n) (hc : c ∈ n.children) :
    ¬ t.Below c p :=
  fun hx => h.not_mem_ancestors p (h.ancestor_of_below_child hn hc hx)

theorem suffix_of_below (h : t.WellFormed) (hx : t.Below a x) :
    (a :: t.ancestors a) <:+ (x :: t.ancestors x) := by
  rcases hx with rfl | hx
  · exact List.suffix_rfl
  · obtain ⟨nearer, he⟩ := h.ancestors_split hx
    exact ⟨x :: nearer, by simp [he]⟩

/-- Nothing stands below two different children of one node. -/
theorem eq_of_below (h : t.WellFormed) (hn : t.get? p = some n) (hc : c ∈ n.children)
    (hd : d ∈ n.children) (hcx : t.Below c x) (hdx : t.Below d x) : c = d := by
  have hc' := h.suffix_of_below hcx
  have hd' := h.suffix_of_below hdx
  rw [h.ancestors_of_child hn hc] at hc'
  rw [h.ancestors_of_child hn hd] at hd'
  have he := (List.suffix_of_suffix_length_le hc' hd' (by simp)).eq_of_length (by simp)
  exact (List.cons.inj he).1

/-- The way down from an ancestor leads through one of its children. -/
theorem exists_child_below (h : t.WellFormed) (hn : t.get? a = some n) (ha : a ∈ t.ancestors x) :
    ∃ c ∈ n.children, t.Below c x := by
  cases hx : t.get? x with
  | none => simp [ancestors_of_get?_none hx] at ha
  | some m =>
    have hl := h.lineage_ancestors hx
    unfold Below
    generalize t.ancestors x = above at ha hl
    clear hx
    induction hl with
    | top => simp at ha
    | @under id m' p above hm hp _ ih =>
      obtain ⟨k, hk, hchild⟩ := h.child_of_parent hm hp
      by_cases hap : a = p
      · subst hap
        rw [hn] at hk
        cases hk
        exact ⟨id, hchild, .inl rfl⟩
      · obtain ⟨c, hc, hca⟩ := ih (List.mem_of_ne_of_mem hap ha)
        exact ⟨c, hc, .inr (List.mem_cons.mpr hca)⟩

theorem below_root (h : t.WellFormed) (hr : t.root = some root) (hn : t.get? x = some n) :
    t.Below root x := by
  have hl := h.lineage_ancestors hn
  unfold Below
  generalize t.ancestors x = above at hl
  clear hn
  induction hl with
  | top hn hp =>
    have he := h.eq_root hn hp
    rw [hr] at he
    exact .inl (Option.some.inj he)
  | under _ _ _ ih => exact .inr (List.mem_cons.mpr ih)

/-- What holds of a node if it holds of its children holds of every node. -/
theorem induction_children (h : t.WellFormed) {P : NodeId → Prop}
    (hstep : ∀ {x n}, t.get? x = some n → (∀ c ∈ n.children, P c) → P x) (hn : t.get? x = some n) : P x := by
  -- The chains of parents are bounded, and those of the children are longer.
  induction hk : t.size - (t.ancestors x).length using Nat.strongRecOn generalizing x n with
  | ind k ih =>
    refine hstep hn fun c hc => ?_
    obtain ⟨m, hm, -⟩ := h.parent_of_child hn hc
    have hlt := h.length_ancestors_lt hm
    refine ih _ ?_ hm rfl
    rw [h.ancestors_of_child hn hc, List.length_cons] at hlt ⊢
    omega

end WellFormed
end NameResolution.Tree
