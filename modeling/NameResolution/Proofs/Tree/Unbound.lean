import NameResolution.Proofs.Tree.Frame

/-!
# Trees without their bindings

What is left of a tree when everything is taken away that its references are bound to. Two trees of which the
same is left have the same nodes, with the same names, regions, parents, children and declared data.
-/
namespace NameResolution

def Node.unbound (n : Node) : Node := { n with payload := n.payload.bind .unresolved }

theorem Node.sameForm_of_unbound_eq {n n' : Node} (h : n'.unbound = n.unbound) :
    n.payload.SameForm n'.payload := by
  simp only [unbound, Node.mk.injEq] at h
  exact h.2.2.2.2.symm

/-- Nodes of which the same is left differ in what they are bound to. -/
theorem Node.becomes_of_unbound_eq {n n' : Node} (h : n'.unbound = n.unbound) : n.Becomes n' := by
  have hpayload := sameForm_of_unbound_eq h
  simp only [unbound, Node.mk.injEq] at h
  obtain ⟨hid, hname, hregion, hparent, -⟩ := h
  exact ⟨hid, hname, hregion, hparent, .rebound hpayload⟩

/-- Only references are bound. -/
theorem Node.eq_of_unbound_eq {n n' : Node} (h : n'.unbound = n.unbound) (hk : n.kind.isReference = false) :
    n' = n := by
  have hpayload := (sameForm_of_unbound_eq h).eq_of_not_reference hk
  simp only [unbound, Node.mk.injEq] at h
  cases n
  cases n'
  simp_all

namespace Tree
variable {t t' : Tree} {id : NodeId} {n : Node}

/-- The tree without what its references are bound to. -/
def unbound (t : Tree) : Tree := { t with nodes := t.nodes.map Node.unbound }

theorem get?_unbound (t : Tree) (id : NodeId) : t.unbound.get? id = (t.get? id).map Node.unbound := by
  simp [unbound, get?]

theorem unbound_bind (t : Tree) (id : NodeId) (r : Resolution) : (t.bind id r).unbound = t.unbound := by
  have hnode : ∀ n : Node, Node.unbound { n with payload := n.payload.bind r } = n.unbound := by
    rintro ⟨_, _, _, _, payload⟩
    cases payload <;> rfl
  have hnodes : (t.bind id r).nodes.map Node.unbound = t.nodes.map Node.unbound := by
    apply Array.ext_getElem?
    intro i
    simp only [bind, modify, Array.getElem?_map, Array.getElem?_modify]
    split
    · rw [Option.map_map, Function.comp_def]
      simp only [hnode]
    · rfl
  rw [unbound, hnodes]
  rfl

theorem exists_of_unbound_eq (h : t'.unbound = t.unbound) (hn : t.get? id = some n) :
    ∃ n', t'.get? id = some n' ∧ n'.unbound = n.unbound := by
  have hget := get?_unbound t' id
  rw [h, get?_unbound, hn, Option.map_some] at hget
  exact Option.map_eq_some_iff.mp hget.symm

theorem extends_of_unbound_eq (h : t'.unbound = t.unbound) : t.Extends t' := by
  have hroot : t'.unbound.root = t.unbound.root := by rw [h]
  refine ⟨hroot, fun hn => ?_⟩
  obtain ⟨n', hn', hunbound⟩ := exists_of_unbound_eq h hn
  exact ⟨n', hn', Node.becomes_of_unbound_eq hunbound⟩

theorem sameDeclarations_of_unbound_eq (h : t'.unbound = t.unbound) : t.SameDeclarations t' := by
  have hkept : ∀ {t t' : Tree}, t'.unbound = t.unbound → ∀ {id n}, n.kind.isReference = false →
      t.get? id = some n → t'.get? id = some n := by
    intro t t' h id n hk hn
    obtain ⟨n', hn', hunbound⟩ := exists_of_unbound_eq h hn
    rw [hn', Node.eq_of_unbound_eq hunbound hk]
  intro id n hk
  exact ⟨hkept h.symm hk, hkept h hk⟩

end Tree
end NameResolution
