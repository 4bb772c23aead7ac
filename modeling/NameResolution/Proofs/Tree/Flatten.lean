import NameResolution.Proofs.Tree.WellFormed
import NameResolution.Tree.Traversal

/-!
# Listing a tree

The walk that lists a tree keeps a stack of the nodes to come and counts its steps. In a well-formed tree it
puts every node of a subtree into the place of the node on top of it, each once, in as many steps as there
are nodes. The tree as a whole takes no more steps than the walk is given.
-/
namespace NameResolution.Tree
variable {t : Tree} {x root : NodeId} {n : Node} {xs ys l l' : List NodeId}

/-- The walk lists `l` for the nodes `xs` on top of its stack: whatever stands at or below one of them. -/
structure Lists (t : Tree) (xs l : List NodeId) : Prop where
  nodup : l.Nodup
  mem_iff : ∀ y, y ∈ l ↔ ∃ x ∈ xs, t.Below x y
  drain_eq : ∀ limit rest, t.drain (l.length + limit) (xs ++ rest) = l ++ t.drain limit rest

theorem drain_nil (t : Tree) (limit : Nat) : t.drain limit [] = [] := by
  cases limit <;> rfl

namespace Lists

theorem nil (t : Tree) : t.Lists [] [] :=
  ⟨.nil, by simp, fun limit rest => by simp⟩

/-- What is listed for nodes depends on nothing else. -/
theorem unique (h : t.Lists xs l) (h' : t.Lists xs l') : l = l' := by
  have hl := h.drain_eq l'.length []
  have hl' := h'.drain_eq l.length []
  simp only [drain_nil, List.append_nil] at hl hl'
  rw [Nat.add_comm, hl'] at hl
  exact hl.symm

/-- A node comes before those below it. -/
theorem node (h : t.Lists n.children l) (ht : t.WellFormed) (hn : t.get? x = some n) :
    t.Lists [x] (x :: l) := by
  constructor
  case nodup =>
    refine List.nodup_cons.mpr ⟨fun hx => ?_, h.nodup⟩
    obtain ⟨c, hc, hbelow⟩ := (h.mem_iff x).mp hx
    exact ht.not_below_of_child hn hc hbelow
  case mem_iff =>
    intro y
    rw [List.mem_cons, h.mem_iff]
    constructor
    · rintro (rfl | ⟨c, hc, hbelow⟩)
      · exact ⟨y, by simp, .refl t y⟩
      · exact ⟨x, by simp, ht.below_of_child hn hc hbelow⟩
    · rintro ⟨x', hx', hbelow⟩
      obtain rfl := List.mem_singleton.mp hx'
      rcases hbelow with rfl | hmem
      · exact .inl rfl
      · exact .inr (ht.exists_child_below hn hmem)
  case drain_eq =>
    intro limit rest
    rw [List.length_cons, Nat.succ_add, List.singleton_append, drain, hn]
    simp only [h.drain_eq, List.cons_append]

/-- Subtrees that have no node in common are listed one after the other. -/
theorem append (h : t.Lists xs l) (h' : t.Lists ys l')
    (hdisjoint : ∀ x ∈ xs, ∀ y ∈ ys, ∀ z, t.Below x z → ¬ t.Below y z) : t.Lists (xs ++ ys) (l ++ l') := by
  constructor
  case nodup =>
    refine List.nodup_append.mpr ⟨h.nodup, h'.nodup, ?_⟩
    rintro z hz _ hz' rfl
    obtain ⟨x, hx, hxz⟩ := (h.mem_iff z).mp hz
    obtain ⟨y, hy, hyz⟩ := (h'.mem_iff z).mp hz'
    exact hdisjoint x hx y hy z hxz hyz
  case mem_iff =>
    intro z
    simp only [List.mem_append, h.mem_iff, h'.mem_iff, or_and_right, exists_or]
  case drain_eq =>
    intro limit rest
    rw [List.length_append, Nat.add_assoc, List.append_assoc, h.drain_eq, h'.drain_eq, List.append_assoc]

end Lists

namespace WellFormed

/-- Some of the children of a node are listed one after another, if each can be listed. -/
theorem exists_lists_of_sublist (h : t.WellFormed) (hn : t.get? x = some n)
    (hlists : ∀ c ∈ n.children, ∃ l, t.Lists [c] l) (hxs : xs.Sublist n.children) : ∃ l, t.Lists xs l := by
  induction xs with
  | nil => exact ⟨[], .nil t⟩
  | cons c xs ih =>
    have hc : c ∈ n.children := hxs.subset (by simp)
    obtain ⟨l, hl⟩ := hlists c hc
    obtain ⟨l', hl'⟩ := ih ((List.sublist_cons_self c xs).trans hxs)
    refine ⟨l ++ l', hl.append hl' ?_⟩
    intro c' hc' d hd z hcz hdz
    obtain rfl := List.mem_singleton.mp hc'
    have hd' : d ∈ n.children := hxs.subset (List.mem_cons_of_mem _ hd)
    obtain rfl := h.eq_of_below hn hc hd' hcz hdz
    exact (List.nodup_cons.mp ((h.nodup_children hn).sublist hxs)).1 hd

theorem exists_lists (h : t.WellFormed) (hn : t.get? x = some n) : ∃ l, t.Lists [x] l := by
  refine h.induction_children (P := fun x => ∃ l, t.Lists [x] l) ?_ hn
  intro x n hn hlists
  obtain ⟨l, hl⟩ := h.exists_lists_of_sublist hn hlists (List.Sublist.refl _)
  exact ⟨x :: l, hl.node h hn⟩

end WellFormed

theorem foldl_max_le (ns : List Node) (w : Nat) :
    w ≤ ns.foldl (fun w n => max w n.children.length) w ∧
      ∀ n ∈ ns, n.children.length ≤ ns.foldl (fun w n => max w n.children.length) w := by
  induction ns generalizing w with
  | nil => simp
  | cons m ns ih =>
    obtain ⟨hw, hns⟩ := ih (max w m.children.length)
    rw [List.foldl_cons]
    refine ⟨by omega, fun n hn => ?_⟩
    rcases List.mem_cons.mp hn with rfl | hn
    · omega
    · exact hns n hn

theorem length_children_le_width (hn : t.get? x = some n) : n.children.length ≤ t.width := by
  have hmem : n ∈ t.nodes.toList := by simpa using Array.mem_of_getElem? hn
  rw [width, ← Array.foldl_toList]
  exact (foldl_max_le t.nodes.toList 0).2 n hmem

def ids (t : Tree) : List NodeId := (List.range t.size).map NodeId.mk

@[simp] theorem length_ids (t : Tree) : t.ids.length = t.size := by simp [ids]

theorem nodup_ids (t : Tree) : t.ids.Nodup :=
  List.nodup_range.map fun i j h => by simpa using h

theorem mem_ids_iff : x ∈ t.ids ↔ ∃ n, t.get? x = some n := by
  have hids : x ∈ t.ids ↔ x.index < t.size := by
    simp only [ids, List.mem_map, List.mem_range]
    constructor
    · rintro ⟨i, hi, rfl⟩
      exact hi
    · exact fun hx => ⟨x.index, hx, rfl⟩
  rw [hids, ← Option.isSome_iff_exists, ← Option.ne_none_iff_isSome, ne_eq, get?_eq_none_iff]
  omega

theorem length_le_size (hnodup : xs.Nodup) (h : ∀ x ∈ xs, ∃ n, t.get? x = some n) : xs.length ≤ t.size :=
  length_ids t ▸ (List.subperm_of_subset hnodup fun x hx => mem_ids_iff.mpr (h x hx)).length_le

namespace WellFormed

/-- Each step lists a node, and some node has another one below it unless there is but one. -/
theorem size_le_drainLimit (h : t.WellFormed) : t.size ≤ t.drainLimit := by
  obtain ⟨root, r, hroot, hr, -⟩ := h.unit_root
  have hpos : 0 < t.size := Nat.lt_of_le_of_lt (Nat.zero_le _) (lt_size_of_get? hr)
  rw [drainLimit, Nat.pow_eq]
  by_cases hone : t.size = 1
  · rw [hone, Nat.pow_one]
    omega
  · -- A node beside the root has a parent, so that the width is not zero.
    obtain ⟨x, hx, hne⟩ : ∃ x ∈ t.ids, x ≠ root := by
      by_contra hno
      have hsub : t.ids ⊆ [root] := fun x hx => List.mem_singleton.mpr (by
        by_contra hne
        exact hno ⟨x, hx, hne⟩)
      have hle := (List.subperm_of_subset t.nodup_ids hsub).length_le
      rw [length_ids, List.length_singleton] at hle
      omega
    obtain ⟨n, hn⟩ := mem_ids_iff.mp hx
    cases hp : n.parent with
    | none =>
      rw [h.eq_root hn hp, Option.some.injEq] at hroot
      exact absurd hroot hne
    | some p =>
      obtain ⟨m, hm, hchild⟩ := h.child_of_parent hn hp
      have hwidth : 1 ≤ t.width :=
        Nat.le_trans (List.length_pos_iff_exists_mem.mpr ⟨x, hchild⟩) (length_children_le_width hm)
      calc
        t.size ≤ 2 ^ t.size := Nat.le_of_lt Nat.lt_two_pow_self
        _ ≤ (t.width + 1) ^ t.size := Nat.pow_le_pow_left (by omega) _

/-- From the root the walk lists what it lists without a limit. -/
theorem lists_flatten (h : t.WellFormed) (hroot : t.root = some root) : t.Lists [root] (t.flatten root) := by
  obtain ⟨r, hr, -⟩ := h.root_parent hroot
  obtain ⟨l, hl⟩ := h.exists_lists hr
  have hle : l.length ≤ t.size := by
    refine length_le_size hl.nodup fun x hx => ?_
    obtain ⟨y, hy, hbelow⟩ := (hl.mem_iff x).mp hx
    exact exists_of_below (List.mem_singleton.mp hy ▸ hr) hbelow
  have hlimit : t.drainLimit = l.length + (t.drainLimit - l.length) := by
    have := h.size_le_drainLimit
    omega
  have hflatten : t.flatten root = l := by
    rw [flatten, hlimit, ← List.append_nil [root], hl.drain_eq, drain_nil, List.append_nil]
  rw [hflatten]
  exact hl

theorem mem_flatten_iff (h : t.WellFormed) (hroot : t.root = some root) :
    x ∈ t.flatten root ↔ ∃ n, t.get? x = some n := by
  rw [(h.lists_flatten hroot).mem_iff]
  constructor
  · rintro ⟨y, hy, hbelow⟩
    obtain ⟨r, hr, -⟩ := h.root_parent hroot
    exact exists_of_below (List.mem_singleton.mp hy ▸ hr) hbelow
  · exact fun ⟨n, hn⟩ => ⟨root, List.mem_singleton_self _, h.below_root hroot hn⟩

/-- The list of a tree from its root holds every node once. -/
theorem flatten_perm (h : t.WellFormed) (hroot : t.root = some root) : (t.flatten root).Perm t.ids :=
  (List.perm_ext_iff_of_nodup (h.lists_flatten hroot).nodup t.nodup_ids).mpr fun _ =>
    (h.mem_flatten_iff hroot).trans mem_ids_iff.symm

end WellFormed

/-- Sorting only changes the order. -/
theorem sortByPosition_perm (t : Tree) (xs : List NodeId) : (t.sortByPosition xs).Perm xs :=
  List.mergeSort_perm ..

end NameResolution.Tree
