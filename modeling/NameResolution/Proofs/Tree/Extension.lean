import NameResolution.Proofs.Tree.Matching

/-!
# Numberings of what is added to trees

A pass adds nodes right below those that were there. If it adds as many below each node of a tree as below the node
that matches it in another, the numbering goes on to what was added, and the grown trees match if the nodes do:
`Matches.exists_grown`.
-/
namespace NameResolution.Tree

/-- What has come to a tree stands right below what was there. -/
structure GrowsBelow (t T : Tree) : Prop extends t.Extends T where
  wellFormed : T.WellFormed
  parent : ∀ {y k}, T.get? y = some k → t.get? y = none → ∃ x n, k.parent = some x ∧ t.get? x = some n

/-- What has come to a tree below the node `x`, in the order of the text. -/
def newBelow (t T : Tree) (x : NodeId) : List NodeId :=
  (((T.get? x).map Node.children).getD []).filter fun y => (t.get? y).isNone

section
variable {t T t' T' : Tree} {f : NodeId → NodeId} {x y : NodeId} {n k : Node}

theorem newBelow_of_get? (hn : T.get? x = some n) :
    t.newBelow T x = n.children.filter fun y => (t.get? y).isNone := by
  rw [newBelow, hn]
  rfl

theorem newBelow_eq_nil (hn : T.get? x = some n) (hold : ∀ y ∈ n.children, ∃ m, t.get? y = some m) :
    t.newBelow T x = [] := by
  rw [newBelow_of_get? hn, List.filter_eq_nil_iff]
  intro y hy
  obtain ⟨m, hm⟩ := hold y hy
  simp [hm]

/-- Below a node stand old nodes and then new ones. -/
theorem newBelow_eq {old new : List NodeId} (hn : T.get? x = some n) (hchildren : n.children = old ++ new)
    (hold : ∀ y ∈ old, ∃ m, t.get? y = some m) (hnew : ∀ y ∈ new, t.get? y = none) : t.newBelow T x = new := by
  have hnone : old.filter (fun y => (t.get? y).isNone) = [] := by
    rw [List.filter_eq_nil_iff]
    intro y hy
    obtain ⟨m, hm⟩ := hold y hy
    simp [hm]
  have hall : new.filter (fun y => (t.get? y).isNone) = new :=
    List.filter_eq_self.mpr fun y hy => by simp [hnew y hy]
  rw [newBelow_of_get? hn, hchildren, List.filter_append, hnone, hall, List.nil_append]

theorem WellFormed.mem_newBelow (hT : T.WellFormed) :
    y ∈ t.newBelow T x ↔ t.get? y = none ∧ ∃ k, T.get? y = some k ∧ k.parent = some x := by
  cases hn : T.get? x with
  | none =>
    have hempty : t.newBelow T x = [] := by simp [newBelow, hn]
    rw [hempty]
    simp only [List.not_mem_nil, false_iff, not_and, not_exists]
    intro _ k hk hp
    obtain ⟨m, hm, -⟩ := hT.child_of_parent hk hp
    rw [hn] at hm
    cases hm
  | some n =>
    rw [newBelow_of_get? hn, List.mem_filter, Option.isNone_iff_eq_none]
    constructor
    · rintro ⟨hy, hfresh⟩
      exact ⟨hfresh, hT.parent_of_child hn hy⟩
    · rintro ⟨hfresh, k, hk, hp⟩
      obtain ⟨m, hm, hy⟩ := hT.child_of_parent hk hp
      rw [hn] at hm
      cases hm
      exact ⟨hy, hfresh⟩

theorem WellFormed.nodup_newBelow (hT : T.WellFormed) (t : Tree) (x : NodeId) : (t.newBelow T x).Nodup := by
  cases hn : T.get? x with
  | none => simp [newBelow, hn]
  | some n =>
    rw [newBelow_of_get? hn]
    exact (hT.nodup_children hn).filter _

/-- What is in the grown tree was there, or stands below what was there. -/
theorem GrowsBelow.cases (h : t.GrowsBelow T) (hk : T.get? y = some k) :
    (∃ m, t.get? y = some m) ∨ t.get? y = none ∧ ∃ x n, t.get? x = some n ∧ y ∈ t.newBelow T x := by
  cases hy : t.get? y with
  | some m => exact .inl ⟨m, rfl⟩
  | none =>
    obtain ⟨x, n, hp, hn⟩ := h.parent hk hy
    exact .inr ⟨rfl, x, n, hn, h.wellFormed.mem_newBelow.mpr ⟨hy, k, hk, hp⟩⟩

/-- The numbering of the grown tree: the old one for what was there, and place by place for what came below it. -/
def extendedNumbering (t T t' T' : Tree) (f : NodeId → NodeId) (y : NodeId) : NodeId :=
  if (t.get? y).isSome then f y
  else
    match (T.get? y).bind Node.parent with
    | none => y
    | some x => (t'.newBelow T' (f x))[(t.newBelow T x).idxOf y]?.getD y

/-- Trees that match, and grow by as many nodes below nodes that match, match in number when they have grown. -/
theorem Matches.exists_extension (h : t.Matches f t') (hT : t.GrowsBelow T) (hT' : t'.GrowsBelow T')
    (hlength : ∀ {x n}, t.get? x = some n → (t.newBelow T x).length = (t'.newBelow T' (f x)).length) :
    ∃ g, (∀ {x n}, t.get? x = some n → g x = f x) ∧
      (∀ {x n}, t.get? x = some n → (t.newBelow T x).map g = t'.newBelow T' (f x)) ∧
      (∀ {x y n m}, T.get? x = some n → T.get? y = some m → g x = g y → x = y) ∧
      ∀ {x' n'}, T'.get? x' = some n' → ∃ x n, T.get? x = some n ∧ g x = x' := by
  have hwf := hT.wellFormed
  have hwf' := hT'.wellFormed
  let g := extendedNumbering t T t' T' f
  have hold : ∀ {x n}, t.get? x = some n → g x = f x := fun hn => by
    simp [g, extendedNumbering, hn]
  have hnew : ∀ {x n}, t.get? x = some n → (t.newBelow T x).map g = t'.newBelow T' (f x) := by
    intro x n hn
    refine List.ext_getElem (by rw [List.length_map, hlength hn]) fun i hi hi' => ?_
    rw [List.length_map] at hi
    obtain ⟨hfresh, k, hk, hp⟩ := hwf.mem_newBelow.mp (List.getElem_mem hi)
    have hidx : (t.newBelow T x).idxOf (t.newBelow T x)[i] = i := (hwf.nodup_newBelow t x).idxOf_getElem i hi
    rw [List.getElem_map]
    simp only [g, extendedNumbering, hfresh, hk, hp, hidx, Option.isSome_none, Bool.false_eq_true, if_false,
      Option.bind_some, List.getElem?_eq_getElem hi', Option.getD_some]
  have hbelow : ∀ {x n y}, t.get? x = some n → y ∈ t.newBelow T x → g y ∈ t'.newBelow T' (f x) :=
    fun hn hy => hnew hn ▸ List.mem_map_of_mem hy
  refine ⟨g, hold, hnew, ?_, ?_⟩
  · intro x y n m hn hm hxy
    -- What was there does not go to what has come.
    have hapart : ∀ {x y n z k}, t.get? x = some n → t.get? z = some k → y ∈ t.newBelow T z → g x ≠ g y := by
      intro x y n z k hn hk hy heq
      obtain ⟨n', hn', -⟩ := h.node hn
      rw [← hold hn, heq, (hwf'.mem_newBelow.mp (hbelow hk hy)).1] at hn'
      cases hn'
    rcases hT.cases hn with ⟨n₀, hn₀⟩ | ⟨hx, a, k, ha, hxa⟩
    · rcases hT.cases hm with ⟨m₀, hm₀⟩ | ⟨hy, b, l, hb, hyb⟩
      · exact h.inj hn₀ hm₀ (by rw [← hold hn₀, ← hold hm₀, hxy])
      · exact absurd hxy (hapart hn₀ hb hyb)
    · rcases hT.cases hm with ⟨m₀, hm₀⟩ | ⟨hy, b, l, hb, hyb⟩
      · exact absurd hxy.symm (hapart hm₀ ha hxa)
      · obtain ⟨-, k', hk', hpa⟩ := hwf'.mem_newBelow.mp (hbelow ha hxa)
        obtain ⟨-, l', hl', hpb⟩ := hwf'.mem_newBelow.mp (hbelow hb hyb)
        rw [hxy, hl'] at hk'
        cases hk'
        obtain rfl := h.inj ha hb (Option.some.inj (hpa.symm.trans hpb))
        have hnodup := hwf'.nodup_newBelow t' (f a)
        rw [← hnew ha] at hnodup
        exact List.inj_on_of_nodup_map hnodup hxa hyb hxy
  · intro x' n' hn'
    rcases hT'.cases hn' with ⟨m', hm'⟩ | ⟨-, a', k', ha', hx'⟩
    · obtain ⟨x, n, hn, rfl⟩ := h.onto hm'
      obtain ⟨m, hm, -⟩ := hT.node hn
      exact ⟨x, m, hm, hold hn⟩
    · obtain ⟨a, k, ha, rfl⟩ := h.onto ha'
      rw [← hnew ha] at hx'
      obtain ⟨x, hx, rfl⟩ := List.mem_map.mp hx'
      obtain ⟨-, m, hm, -⟩ := hwf.mem_newBelow.mp hx
      exact ⟨x, m, hm, rfl⟩

/-- The numbering `g` of a grown tree goes on from the numbering `f`. -/
structure GoesOn (t T t' T' : Tree) (f g : NodeId → NodeId) : Prop where
  old : ∀ {x n}, t.get? x = some n → g x = f x
  new : ∀ {x n}, t.get? x = some n → (t.newBelow T x).map g = t'.newBelow T' (f x)

/-- Grown trees match if what was there and what comes below it do, however the numbering goes on. -/
theorem Matches.exists_grown (h : t.Matches f t') (ht : t.WellFormed) (hT : t.GrowsBelow T) (hT' : t'.GrowsBelow T')
    (hlength : ∀ {x n}, t.get? x = some n → (t.newBelow T x).length = (t'.newBelow T' (f x)).length)
    (hmatch : ∀ {g}, GoesOn t T t' T' f g → ∀ {x y n}, t.get? x = some n → y = x ∨ y ∈ t.newBelow T x →
      ∃ m m', T.get? y = some m ∧ T'.get? (g y) = some m' ∧ m.Matches g m') :
    ∃ g, (∀ {x n}, t.get? x = some n → g x = f x) ∧ T.Matches g T' := by
  obtain ⟨g, hold, hnew, hinj, honto⟩ := h.exists_extension hT hT' hlength
  refine ⟨g, hold, ?_, fun {y k} hk => ?_, hinj, honto⟩
  · rw [hT'.root, h.root, hT.root]
    cases hr : t.root with
    | none => rfl
    | some r =>
      obtain ⟨n, hn, -⟩ := ht.root_parent hr
      rw [Option.map_some, Option.map_some, hold hn]
  · have hy : ∃ x n, t.get? x = some n ∧ (y = x ∨ y ∈ t.newBelow T x) := by
      rcases hT.cases hk with ⟨n, hn⟩ | ⟨-, x, n, hn, hy⟩
      · exact ⟨y, n, hn, .inl rfl⟩
      · exact ⟨x, n, hn, .inr hy⟩
    obtain ⟨x, n, hn, hy⟩ := hy
    obtain ⟨m, m', hm, hm', hmm⟩ := hmatch ⟨hold, hnew⟩ hn hy
    rw [hk] at hm
    cases hm
    exact ⟨m', hm', hmm⟩

end
end NameResolution.Tree
