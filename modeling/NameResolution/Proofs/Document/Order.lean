import Mathlib.Data.Set.Function
import Mathlib.Data.Set.Lattice
import Mathlib.Order.CompletePartialOrder
import NameResolution.Proofs.Document.Lowered

/-!
# Documents in another order

The order of declarations in a unit, of members in a record and of statements in a block decides which ids the nodes
get, and nothing else. Lowering adds a block of nodes for each part of a document; the blocks for the parts of a
permuted list come in another order, and what each of them holds is the same up to the ids.
-/
namespace NameResolution

/-- One list is permuted in which the order of the text is free: the declarations of a unit or of a statement, the
members of a record or the statements of a block. -/
inductive SyntaxNode.Permuted : SyntaxNode → SyntaxNode → Prop
  | translationUnit {line column name ds ds'} (order : ds.Perm ds') :
      Permuted (mk line column (.translationUnit name ds)) (mk line column (.translationUnit name ds'))
  | recordDecl {line column name kind ms ms'} (order : ms.Perm ms') :
      Permuted (mk line column (.recordDecl name kind ms)) (mk line column (.recordDecl name kind ms'))
  | compound {line column ss ss'} (order : ss.Perm ss') :
      Permuted (mk line column (.compound ss)) (mk line column (.compound ss'))
  | declStatement {line column ds ds'} (order : ds.Perm ds') :
      Permuted (mk line column (.declStatement ds)) (mk line column (.declStatement ds'))
  | inside {line column form form' before n n' after} (shape : form.SameShape form')
      (parts : form.parts = before ++ n :: after) (parts' : form'.parts = before ++ n' :: after)
      (permuted : Permuted n n') : Permuted (mk line column form) (mk line column form')

theorem Payload.children_subset_ids (p : Payload) : p.children ⊆ p.ids := by
  intro x hx
  cases p with
  | recordDecl r => exact List.mem_append_left _ (List.mem_append_left _ hx)
  | fieldDecl d => exact List.mem_append_right _ hx
  | member a => exact List.mem_append_left _ hx
  | reference r => cases hx
  | _ => exact hx

namespace Node
variable {f : NodeId → NodeId} {n n' : Node} {p p' : Payload} {r x y : NodeId}

theorem Matches.ownedBy (h : n.Matches f n') (r : NodeId) : (n.ownedBy r).Matches f (n'.ownedBy (f r)) := by
  obtain ⟨id, name, region, parent, payload⟩ := n
  obtain ⟨id', name', region', parent', payload'⟩ := n'
  have hpayload : payload.Matches f payload' := h.payload
  cases payload with
  | fieldDecl d =>
    cases hpayload.of_field
    exact { h with payload := .same (.fieldDecl { d with record := some r }) }
  | _ => cases hpayload <;> exact h

/-- Matching nodes learn the same of the nodes above them. -/
theorem Matches.linkedBelow (h : n.Matches f n') (r : NodeId) (hchildren : f x ∈ p'.children ↔ x ∈ p.children)
    (hmembers : f x ∈ p'.members ↔ x ∈ p.members) :
    (n.linkedBelow r p x).Matches f (n'.linkedBelow (f r) p' (f x)) := by
  have hadopted : (if x ∈ p.children then { n with parent := some r } else n).Matches f
      (if f x ∈ p'.children then { n' with parent := some (f r) } else n') := by
    by_cases hx : x ∈ p.children
    · rw [if_pos hx, if_pos (hchildren.mpr hx)]
      exact { h with parent := rfl }
    · rw [if_neg hx, if_neg (mt hchildren.mp hx)]
      exact h
  simp only [Node.linkedBelow]
  by_cases hx : x ∈ p.members
  · rw [if_pos hx, if_pos (hmembers.mpr hx)]
    exact hadopted.ownedBy r
  · rw [if_neg hx, if_neg (mt hmembers.mp hx)]
    exact hadopted

/-- The node above is all that a node can learn of. -/
theorem mem_ids_linkedBelow (h : y ∈ (n.linkedBelow r p x).ids) : y = r ∨ y ∈ n.ids := by
  obtain ⟨id, name, region, parent, payload⟩ := n
  cases payload <;> unfold Node.linkedBelow Node.ownedBy at h <;> grind [Node.ids, Payload.ids]

end Node

theorem SyntaxNode.Permuted.kind_eq {n n' : SyntaxNode} (h : n.Permuted n') : n'.kind = n.kind := by
  cases h with
  | inside shape => exact shape.kind_eq
  | _ => rfl

namespace Tree

/-- The nodes `A` of a tree are those `A'` of another one, under the numbering `f`. -/
structure Copies (f : NodeId → NodeId) (A : Set NodeId) (t : Tree) (A' : Set NodeId) (t' : Tree) : Prop where
  node : ∀ {x}, x ∈ A → ∃ n n', t.get? x = some n ∧ t'.get? (f x) = some n' ∧ n.Matches f n'
  closed : ∀ {x n}, x ∈ A → t.get? x = some n → ∀ y ∈ n.ids, y ∈ A
  bijOn : Set.BijOn f A A'

/-- The nodes that a tree has beside those of `t`. -/
def added (t t' : Tree) : Set NodeId := {x | t.size ≤ x.index ∧ x.index < t'.size}

theorem mem_added {t t' : Tree} {x : NodeId} : x ∈ t.added t' ↔ t.size ≤ x.index ∧ x.index < t'.size := Iff.rfl

theorem added_self (t : Tree) : t.added t = ∅ := by
  ext x
  rw [mem_added, Set.mem_empty_iff_false, iff_false]
  omega

theorem added_trans {t t₁ t₂ : Tree} (h : t.size ≤ t₁.size) (h' : t₁.size ≤ t₂.size) :
    t.added t₂ = t.added t₁ ∪ t₁.added t₂ := by
  ext x
  rw [Set.mem_union, mem_added, mem_added, mem_added]
  omega

theorem disjoint_added (t t₁ t₂ : Tree) : Disjoint (t.added t₁) (t₁.added t₂) := by
  rw [Set.disjoint_left]
  intro x hx hx'
  rw [mem_added] at hx hx'
  omega

theorem added_alloc (t t₁ : Tree) (h : t.size ≤ t₁.size) (name : String) (p : Payload) :
    t.added (t₁.alloc name p).2 = insert t₁.nextId (t.added t₁) := by
  ext x
  rw [Set.mem_insert_iff, mem_added, mem_added, size_alloc, NodeId.ext_iff]
  change _ ↔ x.index = t₁.size ∨ _
  omega

def placed (line column : Option UInt32) (id : NodeId) (t : Tree) : Tree :=
  match line with
  | none => t
  | some line => t.setRegion id (Region.point line (column.getD 1))

theorem added_placed (line column : Option UInt32) (id : NodeId) (t t' : Tree) :
    t.added (t'.placed line column id) = t.added t' := by
  cases line with
  | none => rfl
  | some line =>
    ext x
    rw [mem_added, mem_added, placed, Tree.setRegion, size_modify]

namespace Copies
variable {f g : NodeId → NodeId} {A B A' B' A'' : Set NodeId} {t t₁ t' t₁' t'' : Tree} {x : NodeId} {p p' : Payload}

theorem nothing (f : NodeId → NodeId) (t t' : Tree) : Copies f ∅ t ∅ t' :=
  ⟨fun hx => hx.elim, fun hx => hx.elim, Set.bijOn_empty f⟩

/-- Only the copied nodes matter. -/
theorem mono (h : Copies f A t A' t') (ht : ∀ x ∈ A, t₁.get? x = t.get? x) (ht' : ∀ x ∈ A', t₁'.get? x = t'.get? x) :
    Copies f A t₁ A' t₁' where
  node := by
    intro x hx
    obtain ⟨n, n', hn, hn', hm⟩ := h.node hx
    exact ⟨n, n', (ht x hx).trans hn, (ht' _ (h.bijOn.mapsTo hx)).trans hn', hm⟩
  closed := fun hx hn => h.closed hx (ht _ hx ▸ hn)
  bijOn := h.bijOn

/-- Only the numbers of the copied nodes matter. -/
theorem congr (h : Copies f A t A' t') (hg : ∀ x ∈ A, g x = f x) : Copies g A t A' t' where
  node := by
    intro x hx
    obtain ⟨n, n', hn, hn', hm⟩ := h.node hx
    exact ⟨n, n', hn, hg x hx ▸ hn', hm.congr fun y hy => hg y (h.closed hx hn y hy)⟩
  closed := h.closed
  bijOn := h.bijOn.congr fun x hx => (hg x hx).symm

theorem comp (h : Copies f A t A' t') (h' : Copies g A' t' A'' t'') : Copies (g ∘ f) A t A'' t'' where
  node := by
    intro x hx
    obtain ⟨n, n', hn, hn', hm⟩ := h.node hx
    obtain ⟨n₁, n'', hn₁, hn'', hm'⟩ := h'.node (h.bijOn.mapsTo hx)
    rw [hn'] at hn₁
    cases hn₁
    exact ⟨n, n'', hn, hn'', hm.comp hm'⟩
  closed := h.closed
  bijOn := h'.bijOn.comp h.bijOn

/-- Two blocks of nodes are copied at once. -/
theorem union (h : Copies f A t A' t') (h' : Copies g B t B' t') (hdisjoint : Disjoint A B) (hdisjoint' : Disjoint A' B') :
    ∃ k, Copies k (A ∪ B) t (A' ∪ B') t' ∧ (∀ x ∈ A, k x = f x) ∧ ∀ x ∈ B, k x = g x := by
  classical
  let k := fun x => if x ∈ A then f x else g x
  have hA : ∀ x ∈ A, k x = f x := fun x hx => if_pos hx
  have hB : ∀ x ∈ B, k x = g x := fun x hx => if_neg fun hmem => Set.disjoint_left.mp hdisjoint hmem hx
  have hk := h.congr hA
  have hk' := h'.congr hB
  refine ⟨k, ⟨?_, ?_, hk.bijOn.union hk'.bijOn ?_⟩, hA, hB⟩
  · rintro x (hx | hx)
    · exact hk.node hx
    · exact hk'.node hx
  · rintro x n (hx | hx) hn y hy
    · exact .inl (hk.closed hx hn y hy)
    · exact .inr (hk'.closed hx hn y hy)
  · refine (Set.injOn_union hdisjoint).mpr ⟨hk.bijOn.injOn, hk'.bijOn.injOn, fun x hx y hy heq => ?_⟩
    exact Set.disjoint_left.mp hdisjoint' (hk.bijOn.mapsTo hx) (heq ▸ hk'.bijOn.mapsTo hy)

/-- A node that is added above copied nodes is copied with them. -/
theorem alloc (h : Copies f A t A' t') (hp : p.Matches f p') (hids : ∀ x ∈ p.ids, x ∈ A)
    (hnext : f t.nextId = t'.nextId) (name : String) :
    Copies f (insert t.nextId A) (t.alloc name p).2 (insert t'.nextId A') (t'.alloc name p').2 := by
  have hmem : ∀ {cs cs' : List NodeId} {x}, (cs.map f).Perm cs' → cs ⊆ p.ids → x ∈ A → (f x ∈ cs' ↔ x ∈ cs) := by
    intro cs cs' x horder hcs hx
    rw [← horder.mem_iff, List.mem_map]
    constructor
    · rintro ⟨c, hc, heq⟩
      exact h.bijOn.injOn (hids c (hcs hc)) hx heq ▸ hc
    · exact fun hc => ⟨x, hc, rfl⟩
  have hchildren := p.children_subset_ids
  have hmembers : p.members ⊆ p.ids := fun x hx => hchildren (p.members_subset_children hx)
  have hnew : t'.nextId ∉ A' := by
    intro hmem
    obtain ⟨x, hx, heq⟩ := h.bijOn.surjOn hmem
    obtain ⟨_, _, -, hn', -⟩ := h.node hx
    rw [heq, get?_nextId] at hn'
    cases hn'
  constructor
  case node =>
    rintro x (rfl | hx)
    · refine ⟨_, { id := t'.nextId, name, payload := p' }, get?_alloc_nextId .., ?_, ⟨hnext.symm, rfl, rfl, rfl, hp⟩⟩
      rw [hnext, get?_alloc_nextId]
    · obtain ⟨n, n', hn, hn', hm⟩ := h.node hx
      refine ⟨_, _, get?_alloc_of_get? hn name p, get?_alloc_of_get? hn' name p', ?_⟩
      exact hnext ▸ hm.linkedBelow t.nextId (hmem hp.children_perm hchildren hx) (hmem hp.members_perm hmembers hx)
  case closed =>
    rintro x n hx hn y hy
    rcases cases_of_get?_alloc hn with ⟨rfl, rfl⟩ | ⟨n₁, hn₁, rfl⟩
    · rcases List.mem_cons.mp hy with rfl | hy
      · exact .inl rfl
      · exact .inr (hids y hy)
    · rcases Node.mem_ids_linkedBelow hy with rfl | hy
      · exact .inl rfl
      · exact .inr (h.closed (hx.resolve_left (ne_nextId_of_get? hn₁)) hn₁ y hy)
  case bijOn => exact hnext ▸ h.bijOn.insert (hnext ▸ hnew)

theorem setRegion (h : Copies f A t A' t') {root : NodeId} (hroot : root ∈ A) (region : Region) :
    Copies f A (t.setRegion root region) A' (t'.setRegion (f root) region) where
  node := by
    intro x hx
    obtain ⟨n, n', hn, hn', hm⟩ := h.node hx
    by_cases heq : root = x
    · subst heq
      exact ⟨_, _, get?_setRegion_self region hn, get?_setRegion_self region hn', { hm with region := rfl }⟩
    · have hne : f root ≠ f x := fun himage => heq (h.bijOn.injOn hroot hx himage)
      exact ⟨n, n', by rw [get?_setRegion, if_neg heq, hn], by rw [get?_setRegion, if_neg hne, hn'], hm⟩
  closed := by
    intro x n hx hn
    obtain ⟨n₁, _, hn₁, rfl⟩ := cases_of_get?_setRegion hn
    exact (h.closed hx hn₁ : ∀ y ∈ n₁.ids, y ∈ A)
  bijOn := h.bijOn

theorem placed (h : Copies f A t A' t') (line column : Option UInt32) {root : NodeId} (hroot : root ∈ A) :
    Copies f A (t.placed line column root) A' (t'.placed line column (f root)) := by
  cases line with
  | none => exact h
  | some line => exact h.setRegion hroot _

end Copies
end Tree

namespace SyntaxNode
open NameResolution.Tree

def grown (ns : List SyntaxNode) (t : Tree) : Tree := ((lowerList ns).run t).2

def roots (ns : List SyntaxNode) (t : Tree) : List NodeId := ((lowerList ns).run t).1

section
variable {f g : NodeId → NodeId} {A' B' : Set NodeId} (ns ms : List SyntaxNode) {t s' : Tree}

theorem grown_append (t : Tree) : grown (ns ++ ms) t = grown ms (grown ns t) := by
  rw [grown, run_lowerList_append]
  rfl

theorem roots_append (t : Tree) : roots (ns ++ ms) t = roots ns t ++ roots ms (grown ns t) := by
  rw [roots, run_lowerList_append]
  rfl

theorem lowers_grown (t : Tree) : t.Lowers (grown ns t) (roots ns t) := lowers_lowerList ns t

section
variable (line column : Option UInt32) (form : SyntaxForm) (t : Tree)

theorem run_lower_mk : (mk line column form).lower.run t =
    ((form.lower.run t).1, (form.lower.run t).2.placed line column (form.lower.run t).1) := by
  cases line <;> rfl

theorem grown_form : grown [mk line column form] t =
    ((grown form.parts t).alloc form.name (form.payload (roots form.parts t))).2.placed line column
      (grown form.parts t).nextId := by
  have hgrown : grown [mk line column form] t = ((mk line column form).lower.run t).2 := rfl
  rw [hgrown, run_lower_mk, SyntaxForm.run_lower]
  rfl

theorem roots_form : roots [mk line column form] t = [(grown form.parts t).nextId] := by
  have hroots : roots [mk line column form] t = [((mk line column form).lower.run t).1] := rfl
  rw [hroots, run_lower_mk, SyntaxForm.run_lower]
  rfl

end

theorem mem_added_of_mem_roots {x : NodeId} (hx : x ∈ roots ns t) : x ∈ t.added (grown ns t) := by
  obtain ⟨hle, n, hn⟩ := (lowers_grown ns t).planted.exists_root hx
  exact ⟨hle, lt_size_of_get? hn⟩

theorem get?_grown {x : NodeId} {u : Tree} (hx : x ∈ u.added t) : (grown ns t).get? x = t.get? x :=
  (lowers_grown ns t).earlier (mem_added.mp hx).2

/-- What is lowered in two parts is copied part by part. -/
theorem copies_append (hf : Copies f (t.added (grown ns t)) (grown ns t) A' s')
    (hg : Copies g ((grown ns t).added (grown ms (grown ns t))) (grown ms (grown ns t)) B' s')
    (hdisjoint : Disjoint A' B') :
    ∃ k, Copies k (t.added (grown (ns ++ ms) t)) (grown (ns ++ ms) t) (A' ∪ B') s' ∧
      (roots (ns ++ ms) t).map k = (roots ns t).map f ++ (roots ms (grown ns t)).map g := by
  have hf' : Copies f _ (grown ms (grown ns t)) A' s' := hf.mono (fun x hx => get?_grown ms hx) fun _ _ => rfl
  obtain ⟨k, hk, hkf, hkg⟩ := hf'.union hg (disjoint_added ..) hdisjoint
  refine ⟨k, ?_, ?_⟩
  · rwa [grown_append, added_trans (lowers_grown ns t).size_le (lowers_grown ms _).size_le]
  · rw [roots_append, List.map_append, List.map_congr_left fun x hx => hkf x (mem_added_of_mem_roots ns hx),
      List.map_congr_left fun x hx => hkg x (mem_added_of_mem_roots ms hx)]

end

/-- Wherever the two lists are lowered, they give the same nodes, and the ids that are answered for them are related. -/
def Alike (R : List NodeId → List NodeId → Prop) (ns ns' : List SyntaxNode) : Prop :=
  ∀ t t' : Tree, ∃ f, Copies f (t.added (grown ns t)) (grown ns t) (t'.added (grown ns' t')) (grown ns' t') ∧
    R ((roots ns t).map f) (roots ns' t')

namespace Alike
variable {R : List NodeId → List NodeId → Prop} {n n' : SyntaxNode} {ns ns' ms ms' ls : List SyntaxNode}

theorem nil (hR : R [] []) : Alike R [] [] := by
  intro t t'
  have hadded : ∀ u : Tree, u.added (grown [] u) = ∅ := added_self
  exact ⟨id, by rw [hadded, hadded]; exact .nothing .., hR⟩

theorem append (h : Alike R ns ns') (h' : Alike R ms ms')
    (hR : ∀ {xs xs' ys ys'}, R xs xs' → R ys ys' → R (xs ++ ys) (xs' ++ ys')) : Alike R (ns ++ ms) (ns' ++ ms') := by
  intro t t'
  obtain ⟨f, hf, hfR⟩ := h t t'
  obtain ⟨g, hg, hgR⟩ := h' (grown ns t) (grown ns' t')
  have hf' : Copies f _ (grown ns t) _ (grown ms' (grown ns' t')) :=
    hf.mono (fun _ _ => rfl) fun x hx => get?_grown ms' hx
  obtain ⟨k, hk, hroots⟩ := copies_append ns ms hf' hg (disjoint_added ..)
  refine ⟨k, ?_, ?_⟩
  · rwa [grown_append ns' ms', added_trans (lowers_grown ns' t').size_le (lowers_grown ms' _).size_le]
  · rw [hroots, roots_append]
    exact hR hfR hgR

/-- The blocks of two parts change places. -/
theorem swap (h : Alike Eq ns ns) (h' : Alike Eq ms ms) : Alike List.Perm (ns ++ ms) (ms ++ ns) := by
  intro t t'
  obtain ⟨f, hf, hfR⟩ := h t (grown ms t')
  obtain ⟨g, hg, hgR⟩ := h' (grown ns t) t'
  have hg' : Copies g _ (grown ms (grown ns t)) _ (grown ns (grown ms t')) :=
    hg.mono (fun _ _ => rfl) fun x hx => get?_grown ns hx
  obtain ⟨k, hk, hroots⟩ := copies_append ns ms hf hg' (disjoint_added ..).symm
  refine ⟨k, ?_, ?_⟩
  · rwa [grown_append ms ns, added_trans (lowers_grown ms t').size_le (lowers_grown ns _).size_le, Set.union_comm]
  · rw [hroots, roots_append, hfR, hgR]
    exact List.perm_append_comm

theorem trans (h : Alike List.Perm ns ms) (h' : Alike List.Perm ms ls) : Alike List.Perm ns ls := by
  intro t t'
  obtain ⟨f, hf, hfR⟩ := h t t
  obtain ⟨g, hg, hgR⟩ := h' t t'
  refine ⟨g ∘ f, hf.comp hg, ?_⟩
  rw [← List.map_map]
  exact (hfR.map g).trans hgR

theorem toPerm (h : Alike Eq ns ns') : Alike List.Perm ns ns' := by
  intro t t'
  obtain ⟨f, hf, hfR⟩ := h t t'
  exact ⟨f, hf, .of_eq hfR⟩

/-- Lists whose members are alike are alike. -/
theorem of_forall (h : ∀ n ∈ ns, Alike Eq [n] [n]) : Alike Eq ns ns := by
  induction ns with
  | nil => exact nil rfl
  | cons n ns ih =>
    refine (h n (by simp)).append (ih fun m hm => h m (List.mem_cons_of_mem _ hm)) ?_
    rintro _ _ _ _ rfl rfl
    rfl

/-- A permutation of the list is a permutation of the blocks. -/
theorem of_perm (hperm : ns.Perm ns') (h : ∀ n ∈ ns, Alike Eq [n] [n]) : Alike List.Perm ns ns' := by
  induction hperm with
  | nil => exact nil (.refl _)
  | cons n _ ih =>
    exact (h n (by simp)).toPerm.append (ih fun m hm => h m (List.mem_cons_of_mem _ hm)) .append
  | swap m n ls =>
    have hls : Alike Eq ls ls := of_forall fun l hl => h l (by simp [hl])
    exact ((h n (by simp)).swap (h m (by simp))).append hls.toPerm .append
  | trans hfirst _ ih ih' => exact (ih h).trans (ih' fun m hm => h m (hfirst.mem_iff.mpr hm))

/-- Forms are alike if their parts are copied and the nodes that are added for them match. -/
theorem of_form {line column : Option UInt32} {form form' : SyntaxForm} (hname : form'.name = form.name)
    (h : ∀ t t' : Tree, ∃ f, Copies f (t.added (grown form.parts t)) (grown form.parts t)
        (t'.added (grown form'.parts t')) (grown form'.parts t') ∧
      (form.payload (roots form.parts t)).Matches f (form'.payload (roots form'.parts t'))) :
    Alike Eq [mk line column form] [mk line column form'] := by
  intro t t'
  obtain ⟨f, hf, hp⟩ := h t t'
  have hfresh : (grown form.parts t).nextId ∉ t.added (grown form.parts t) :=
    fun hmem => absurd (mem_added.mp hmem).2 (Nat.lt_irrefl _)
  have hids : ∀ x ∈ (form.payload (roots form.parts t)).ids, x ∈ t.added (grown form.parts t) :=
    fun x hx => mem_added_of_mem_roots _ (SyntaxForm.mem_of_mem_ids_payload hx)
  -- The new node has no number yet.
  let g := Function.update f (grown form.parts t).nextId (grown form'.parts t').nextId
  have hnext : g (grown form.parts t).nextId = (grown form'.parts t').nextId := Function.update_self ..
  have hg : ∀ x ∈ t.added (grown form.parts t), g x = f x :=
    fun x hx => Function.update_of_ne (ne_of_mem_of_not_mem hx hfresh) ..
  have halloc := (hf.congr hg).alloc (hp.congr fun x hx => hg x (hids x hx)) hids hnext form.name
  rw [← added_alloc t _ (lowers_grown _ t).size_le, ← added_alloc t' _ (lowers_grown _ t').size_le] at halloc
  have hroot : (grown form.parts t).nextId ∈ t.added
      ((grown form.parts t).alloc form.name (form.payload (roots form.parts t))).2 := by
    rw [added_alloc t _ (lowers_grown _ t).size_le]
    exact .inl rfl
  have hplaced := halloc.placed line column hroot
  rw [hnext] at hplaced
  refine ⟨g, ?_, ?_⟩
  · rw [grown_form, grown_form, added_placed, added_placed, hname]
    exact hplaced
  · rw [roots_form, roots_form]
    exact congrArg (fun x => [x]) hnext

theorem of_sameShape {line column : Option UInt32} {form form' : SyntaxForm} (hshape : form.SameShape form')
    (h : Alike Eq form.parts form'.parts) : Alike Eq [mk line column form] [mk line column form'] := by
  refine of_form hshape.name_eq fun t t' => ?_
  obtain ⟨f, hf, hroots⟩ := h t t'
  refine ⟨f, hf, ?_⟩
  rw [hshape.payload_eq, ← hroots, ← SyntaxForm.map_payload]
  exact .same _

/-- Every node is alike itself. -/
theorem self (n : SyntaxNode) : Alike Eq [n] [n] := by
  induction n using induction_parts with
  | step line column form ih => exact of_sameShape (.refl form) (of_forall ih)

/-- A permuted node gives the same nodes. -/
theorem of_permuted (h : n.Permuted n') : Alike Eq [n] [n'] := by
  have hperm : ∀ {ns ns' : List SyntaxNode}, ns.Perm ns' → Alike List.Perm ns ns' :=
    fun hns => of_perm hns fun m _ => self m
  induction h with
  | translationUnit order =>
    refine of_form rfl fun t t' => ?_
    obtain ⟨f, hf, hroots⟩ := hperm order t t'
    exact ⟨f, hf, .translationUnit hroots⟩
  | recordDecl order =>
    refine of_form rfl fun t t' => ?_
    obtain ⟨f, hf, hroots⟩ := hperm order t t'
    exact ⟨f, hf, .recordDecl hroots⟩
  | compound order =>
    refine of_form rfl fun t t' => ?_
    obtain ⟨f, hf, hroots⟩ := hperm order t t'
    exact ⟨f, hf, .compound hroots⟩
  | declStatement order =>
    refine of_form rfl fun t t' => ?_
    obtain ⟨f, hf, hroots⟩ := hperm order t t'
    exact ⟨f, hf, .declStatement hroots⟩
  | inside shape parts parts' _ ih =>
    refine of_sameShape shape ?_
    have happend : ∀ {xs xs' ys ys' : List NodeId}, xs = xs' → ys = ys' → xs ++ ys = xs' ++ ys' := by
      rintro _ _ _ _ rfl rfl
      rfl
    rw [parts, parts']
    exact (of_forall fun m _ => self m).append (ih.append (of_forall fun m _ => self m) happend) happend

end Alike
end SyntaxNode

namespace Tree
variable {document document' : SyntaxNode} {t : Tree}

theorem added_empty (t : Tree) : ({} : Tree).added t = {x | ∃ n, t.get? x = some n} := by
  ext x
  rw [mem_added]
  constructor
  · rintro ⟨-, hlt⟩
    exact ⟨_, Array.getElem?_eq_getElem hlt⟩
  · rintro ⟨n, hn⟩
    exact ⟨Nat.zero_le _, lt_size_of_get? hn⟩

theorem Copies.matches {f : NodeId → NodeId} {t' : Tree} (h : Copies f (({} : Tree).added t) t (({} : Tree).added t') t')
    (hroot : t'.root = t.root.map f) : t.Matches f t' := by
  rw [added_empty, added_empty] at h
  constructor
  case root => exact hroot
  case node =>
    intro x n hn
    obtain ⟨k, n', hk, hn', hm⟩ := h.node ⟨n, hn⟩
    rw [hn] at hk
    cases hk
    exact ⟨n', hn', hm⟩
  case inj => exact fun hn hm heq => h.bijOn.injOn ⟨_, hn⟩ ⟨_, hm⟩ heq
  case onto =>
    intro x' n' hn'
    obtain ⟨x, ⟨n, hn⟩, rfl⟩ := h.bijOn.surjOn ⟨n', hn'⟩
    exact ⟨x, n, hn, rfl⟩

theorem ofSyntax_eq (hk : document.kind = .translationUnit) :
    ofSyntax document = .ok (SyntaxNode.grown [document] {}) := if_pos hk

theorem kind_of_ofSyntax (ht : ofSyntax document = .ok t) : document.kind = .translationUnit := by
  unfold ofSyntax at ht
  split at ht
  · assumption
  · cases ht

/-- Nothing in the tree of a document points nowhere. -/
theorem closed_of_ofSyntax (ht : ofSyntax document = .ok t) : t.Closed := by
  obtain ⟨f, h, -⟩ := SyntaxNode.Alike.self document {} {}
  rw [ofSyntax_eq (kind_of_ofSyntax ht)] at ht
  cases ht
  rw [added_empty] at h
  exact fun hn y hy => h.closed ⟨_, hn⟩ hn y hy

/-- A permuted document has a tree that matches. -/
theorem exists_matches_of_permuted (h : document.Permuted document') (ht : ofSyntax document = .ok t) :
    ∃ t' f, ofSyntax document' = .ok t' ∧ t.Matches f t' := by
  have hk := kind_of_ofSyntax ht
  have hk' : document'.kind = .translationUnit := h.kind_eq.trans hk
  rw [ofSyntax_eq hk] at ht
  cases ht
  obtain ⟨f, hcopies, hroots⟩ := SyntaxNode.Alike.of_permuted h {} {}
  refine ⟨_, f, ofSyntax_eq hk', hcopies.matches ?_⟩
  have hroot : f (document.lower.run {}).1 = (document'.lower.run {}).1 := (List.cons.inj hroots).1
  have hunit : (SyntaxNode.grown [document] {}).root = some (document.lower.run {}).1 := (root_lower document {} hk).1
  have hunit' : (SyntaxNode.grown [document'] {}).root = some (document'.lower.run {}).1 := (root_lower document' {} hk').1
  rw [hunit, hunit', ← hroot, Option.map_some]

end Tree
end NameResolution
