import Mathlib.Data.List.Nodup
import Mathlib.Data.List.Perm.Subperm
import NameResolution.Tree.Enclosing

/-!
# Chains of parents

`Tree.ancestors` climbs at most as many steps as the tree has nodes. `Lineage` is the chain of parents
itself, however long; a node that has a lineage is not among its own ancestors, and the limit of the climb
is never felt.
-/
namespace NameResolution.Tree

/-- The nodes above a node, from its parent up to a node without one. -/
inductive Lineage (t : Tree) : NodeId → List NodeId → Prop
  | top {id n} (hn : t.get? id = some n) (hp : n.parent = none) : Lineage t id []
  | under {id n p above} (hn : t.get? id = some n) (hp : n.parent = some p) (up : Lineage t p above) :
      Lineage t id (p :: above)

namespace Lineage
variable {t : Tree} {id a : NodeId} {above : List NodeId}

theorem exists_node (h : t.Lineage id above) : ∃ n, t.get? id = some n := by
  cases h with
  | top hn _ => exact ⟨_, hn⟩
  | under hn _ _ => exact ⟨_, hn⟩

theorem unique {above' : List NodeId} (h : t.Lineage id above) (h' : t.Lineage id above') :
    above = above' := by
  induction h generalizing above' with
  | top hn hp =>
    cases h' with
    | top _ _ => rfl
    | under hn' hp' _ =>
      rw [hn] at hn'
      cases hn'
      simp [hp] at hp'
  | under hn hp _ ih =>
    cases h' with
    | top hn' hp' =>
      rw [hn] at hn'
      cases hn'
      simp [hp] at hp'
    | under hn' hp' up' =>
      rw [hn] at hn'
      cases hn'
      rw [hp] at hp'
      cases hp'
      rw [ih up']

/-- What stands above an ancestor is the rest of the chain. -/
theorem split (h : t.Lineage id above) (ha : a ∈ above) :
    ∃ nearer further, above = nearer ++ a :: further ∧ t.Lineage a further := by
  induction h with
  | top => simp at ha
  | @under id n p above hn hp up ih =>
    rcases List.mem_cons.mp ha with rfl | ha
    · exact ⟨[], above, rfl, up⟩
    · obtain ⟨nearer, further, rfl, hf⟩ := ih ha
      exact ⟨p :: nearer, further, rfl, hf⟩

theorem of_append {nearer further : List NodeId} (h : t.Lineage id (nearer ++ a :: further)) :
    t.Lineage a further := by
  induction nearer generalizing id with
  | nil =>
    cases h with
    | under _ _ up => exact up
  | cons b nearer ih =>
    cases h with
    | under _ _ up => exact ih up

/-- No node stands above itself: its chain would be longer than itself. -/
theorem not_mem (h : t.Lineage id above) : id ∉ above := by
  intro hmem
  obtain ⟨nearer, further, he, hf⟩ := h.split hmem
  have hu := h.unique hf
  have hlen := congrArg List.length (hu ▸ he)
  simp at hlen
  omega

theorem nodup (h : t.Lineage id above) : (id :: above).Nodup := by
  induction h with
  | top => simp
  | under hn hp up ih =>
    exact List.nodup_cons.mpr ⟨(Lineage.under hn hp up).not_mem, ih⟩

theorem lt_size (h : t.Lineage id above) : ∀ a ∈ id :: above, a.index < t.size := by
  induction h with
  | top hn _ => simpa using lt_size_of_get? hn
  | under hn _ _ ih =>
    intro a ha
    rcases List.mem_cons.mp ha with rfl | ha
    · exact lt_size_of_get? hn
    · exact ih a ha

/-- A chain has fewer links than the tree has nodes. -/
theorem length_lt_size (h : t.Lineage id above) : above.length < t.size := by
  have hnodup : ((id :: above).map NodeId.index).Nodup :=
    h.nodup.map fun _ _ he => NodeId.ext he
  have hsub : (id :: above).map NodeId.index ⊆ List.range t.size := by
    intro i hi
    obtain ⟨a, ha, rfl⟩ := List.mem_map.mp hi
    exact List.mem_range.mpr (h.lt_size a ha)
  have hle := (List.subperm_of_subset hnodup hsub).length_le
  simp only [List.length_map, List.length_cons, List.length_range] at hle
  omega

theorem climb_eq (h : t.Lineage id above) {limit : Nat} (hl : above.length ≤ limit) :
    t.climb limit ((t.get? id).bind Node.parent) = above := by
  induction h generalizing limit with
  | top hn hp =>
    rw [hn, Option.bind_some, hp]
    cases limit <;> rfl
  | @under id n p above hn hp up ih =>
    obtain ⟨limit, rfl⟩ : ∃ k, limit = k + 1 := ⟨limit - 1, by simp at hl; omega⟩
    obtain ⟨m, hm⟩ := up.exists_node
    have hup := @ih limit (by simpa using hl)
    rw [hm, Option.bind_some] at hup
    rw [hn, Option.bind_some, hp, climb, hm]
    exact congrArg (p :: ·) hup

/-- A lineage stays as long as its nodes keep their parents. -/
theorem mono {t' : Tree} (hkept : ∀ {j n}, t.get? j = some n → ∃ n', t'.get? j = some n' ∧ n'.parent = n.parent)
    (h : t.Lineage id above) : t'.Lineage id above := by
  induction h with
  | top hn hp =>
    obtain ⟨n', hn', hparent⟩ := hkept hn
    exact .top hn' (hparent.trans hp)
  | under hn hp _ ih =>
    obtain ⟨n', hn', hparent⟩ := hkept hn
    exact .under hn' (hparent.trans hp) ih

/-- The climb lists the whole chain. -/
theorem ancestors_eq (h : t.Lineage id above) : t.ancestors id = above :=
  h.climb_eq (Nat.le_of_lt h.length_lt_size)

/-- Each node of a chain stands above those before it. -/
theorem pairwise (h : t.Lineage id above) : above.Pairwise fun a b => b ∈ t.ancestors a := by
  induction h with
  | top => exact .nil
  | under hn hp up ih => exact List.pairwise_cons.mpr ⟨fun b hb => up.ancestors_eq.symm ▸ hb, ih⟩

end Lineage

end NameResolution.Tree
