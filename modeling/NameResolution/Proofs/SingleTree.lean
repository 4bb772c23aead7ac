import NameResolution.Proofs.Depth
import NameResolution.Proofs.Document.Lowered
import NameResolution.Proofs.LexicalBinding
import NameResolution.Proofs.Size

/-!
# One tree over all passes

Passes change a tree in place and add to it. Whatever passes go over the tree of a document, in whatever
languages and however they end, its nodes go on to form one tree below the translation unit of the document,
and all walks over it come to their ends.
-/
namespace NameResolution

/-- The nodes of `t` form one tree below `root`. -/
structure SingleTree (t : Tree) (root : NodeId) : Prop where
  own_id : ∀ {id n}, t.get? id = some n → n.id = id
  root_eq : t.root = some root
  root_unit : ∃ n, t.get? root = some n ∧ n.kind = .translationUnit ∧ n.parent = none
  not_child_root : ∀ {p m}, t.get? p = some m → root ∉ m.children
  held_once : ∀ {id n}, t.get? id = some n → id ≠ root →
    ∃ p m, n.parent = some p ∧ t.get? p = some m ∧ m.children.count id = 1
  parent_of_child : ∀ {p m id}, t.get? p = some m → id ∈ m.children →
    ∃ n, t.get? id = some n ∧ n.parent = some p
  listed_once : (t.flatten root).Perm t.ids

namespace Tree
variable {t : Tree} {root : NodeId}

theorem WellFormed.singleTree (h : t.WellFormed) (hroot : t.root = some root) : SingleTree t root := by
  obtain ⟨r, hr, hkind, hparent⟩ := h.root_parent hroot
  constructor
  case own_id => exact h.own_id
  case root_eq => exact hroot
  case root_unit => exact ⟨r, hr, hkind, hparent⟩
  case not_child_root =>
    intro p m hm hchild
    obtain ⟨n, hn, hp⟩ := h.parent_of_child hm hchild
    rw [hr] at hn
    cases hn
    rw [hparent] at hp
    cases hp
  case held_once =>
    intro id n hn hne
    cases hp : n.parent with
    | none =>
      have he := h.eq_root hn hp
      rw [hroot, Option.some.injEq] at he
      exact absurd he.symm hne
    | some p =>
      obtain ⟨m, hm, hchild⟩ := h.child_of_parent hn hp
      exact ⟨p, m, rfl, hm, List.count_eq_one_of_mem (h.nodup_children hm) hchild⟩
  case parent_of_child => exact h.parent_of_child
  case listed_once => exact h.flatten_perm hroot

theorem isFresh_of_ofSyntax {document : SyntaxNode} (h : ofSyntax document = .ok t) : t.IsFresh := by
  intro id n r hn hp
  have hw := isWritten_of_ofSyntax h hn
  rwa [hp] at hw

end Tree

open NameResolution.Tree

/-- After any passes the nodes of a document form one tree, and no walk over it is cut short. The first pass adds
to it what the records and the accesses that are written out call for. -/
theorem singleTree_of_ofSyntax {document : SyntaxNode} {t : Tree} (hdocument : Tree.ofSyntax document = .ok t) :
    ∃ root,
      (∀ history, SingleTree (t.resolveAll history) root ∧ ∀ config id region,
        ((t.resolveAll history).resolve config).result ≠ .error (.malformed id region .nestedInItself)) ∧
      ∀ config u, (t.resolve config).result = .ok u →
        ∃ records : List NodeId, records.Nodup ∧
          (∀ id, id ∈ records ↔ t.Nests root id ∧ t.kind? id = some .recordDecl) ∧
          (t.resolve config).tree.size = t.size +
            (records.map fun r => 1 + (t.enclosingRecords r).length).sum + 2 * u.implicitMembers := by
  have ht := properIn_of_ofSyntax hdocument Set.univ
  obtain ⟨root, -, hroot, -⟩ := ht.unit_root
  refine ⟨root, fun history => ?_, fun config u hu => ?_⟩
  · have hlanguages : ∀ config ∈ history, config.separator ∈ Set.univ := fun _ _ => Set.mem_univ _
    obtain ⟨hproper, hext⟩ := ht.resolveAll_keeps hlanguages
    refine ⟨hproper.toWellFormed.singleTree (hext.root.trans hroot), fun config id region he => ?_⟩
    exact hproper.arises_of_resolve (Set.mem_univ config.separator) he rfl
  · obtain ⟨t', h⟩ := exists_passIn ht (Set.mem_univ config.separator) hu
    have hunit : u.root = root := Option.some.inj (h.root_eq.symm.trans hroot)
    obtain ⟨records, hnodup, hmem, hsize⟩ := h.size_of_fresh (isFresh_of_ofSyntax hdocument)
    exact ⟨records, hnodup, hunit ▸ hmem, hsize⟩

/-- The one record gets its `this`, and the one name two parts. -/
theorem singleTree_of_ofSyntax_count :
    Tree.ofSyntax counter = .ok counterTree ∧ (counterTree.resolve {}).result = .ok counterUnit ∧
      (∀ history, SingleTree (counterTree.resolveAll history) ⟨6⟩ ∧ ∀ config id region,
        ((counterTree.resolveAll history).resolve config).result ≠
          .error (.malformed id region .nestedInItself)) ∧
      (∀ id, id ∈ [(⟨5⟩ : NodeId)] ↔ counterTree.Nests ⟨6⟩ id ∧ counterTree.kind? id = some .recordDecl) ∧
      (counterTree.resolve {}).tree.size = counterTree.size +
        ([(⟨5⟩ : NodeId)].map fun r => 1 + (counterTree.enclosingRecords r).length).sum +
          2 * counterUnit.implicitMembers ∧
      (counterTree.resolve {}).tree.size = 10 := by
  have hdocument : Tree.ofSyntax counter = .ok counterTree := rfl
  have hresolve : (counterTree.resolve {}).result = .ok counterUnit := by decide +kernel
  obtain ⟨root, hsingle, hgrowth⟩ := singleTree_of_ofSyntax hdocument
  obtain rfl : ⟨6⟩ = root := Option.some.inj (hsingle []).1.root_eq
  obtain ⟨records, hnodup, hmem, hsize⟩ := hgrowth {} counterUnit hresolve
  have hclass : ⟨5⟩ ∈ records := by
    refine (hmem _).mpr ⟨?_, rfl⟩
    exact .place (s := ⟨⟨5⟩, none⟩) (by rfl) (by decide +kernel) (.self _)
  have honly : ∀ id ∈ records, id = ⟨5⟩ := by
    rintro ⟨i⟩ hid
    obtain ⟨-, hkind⟩ := (hmem _).mp hid
    have hall : ∀ i < 7, counterTree.kind? ⟨i⟩ = some .recordDecl → i = 5 := by decide +kernel
    rw [hall i (lt_size_of_kind? hkind) hkind]
  have hrecords : records = [⟨5⟩] := List.perm_singleton.mp
    ((List.perm_ext_iff_of_nodup hnodup (List.nodup_singleton _)).mpr fun id =>
      ⟨fun hid => List.mem_singleton.mpr (honly id hid), fun hid => List.mem_singleton.mp hid ▸ hclass⟩)
  subst hrecords
  exact ⟨hdocument, hresolve, hsingle, hmem, hsize, hsize.trans (by decide +kernel)⟩

end NameResolution
