import NameResolution.Proofs.Document.Parts

/-!
# Lowered documents

Lowering adds a block of nodes behind those that are there, children before their parents. The block is a
row of trees whose roots are the nodes that lowering answers, and it holds only what a document can say:
no implicit members, no implicit bases, no bindings, and no call without a callee. The tree of a whole
document is well-formed.
-/
namespace NameResolution

/-- What a node may hold before any pass has been over it. -/
def Payload.IsWritten : Payload → Prop
  | recordDecl r => r.enclosing = none ∧ r.implicitThis = none ∧ r.implicitOuter = []
  | fieldDecl f => f.isImplicit = false
  | call callee _ => callee.isSome
  | reference r => r = .unresolved
  | member a => a.implicitBase = false ∧ a.resolution = .unresolved
  | _ => True

theorem Payload.members_subset_children (p : Payload) : p.members ⊆ p.children := by
  intro m hm
  cases p <;> simp_all [members, children]

namespace Node
variable (r : NodeId) (p : Payload) (n : Node) (id : NodeId)

theorem linkedBelow_id : (n.linkedBelow r p id).id = n.id := by
  unfold linkedBelow ownedBy
  grind

theorem linkedBelow_name : (n.linkedBelow r p id).name = n.name := by
  unfold linkedBelow ownedBy
  grind

theorem linkedBelow_parent :
    (n.linkedBelow r p id).parent = if id ∈ p.children then some r else n.parent := by
  unfold linkedBelow ownedBy
  grind

/-- Only the owner of a field can change in what a node holds. -/
theorem linkedBelow_payload :
    (n.linkedBelow r p id).payload = n.payload ∨
      ∃ f, n.payload = .fieldDecl f ∧
        (n.linkedBelow r p id).payload = .fieldDecl { f with record := some r } := by
  unfold linkedBelow ownedBy
  grind

theorem linkedBelow_payload_reference {ρ : Resolution} :
    (n.linkedBelow r p id).payload = .reference ρ ↔ n.payload = .reference ρ := by
  rcases linkedBelow_payload r p n id with h | ⟨f, hf, h⟩
  · rw [h]
  · simp [h, hf]

theorem linkedBelow_payload_member {a : Access} :
    (n.linkedBelow r p id).payload = .member a ↔ n.payload = .member a := by
  rcases linkedBelow_payload r p n id with h | ⟨f, hf, h⟩
  · rw [h]
  · simp [h, hf]

theorem linkedBelow_children : (n.linkedBelow r p id).children = n.children := by
  rcases linkedBelow_payload r p n id with h | ⟨f, hf, h⟩
  · simp [children, h]
  · simp [children, h, hf, Payload.children]

theorem isWritten_linkedBelow (h : n.payload.IsWritten) : (n.linkedBelow r p id).payload.IsWritten := by
  rcases linkedBelow_payload r p n id with h' | ⟨f, hf, h'⟩
  · rwa [h']
  · rw [hf] at h
    rw [h']
    exact h

end Node

namespace Tree

/-- The nodes from the place `lo` on form trees with the given roots, in the form of a document. -/
structure Planted (t : Tree) (lo : Nat) (roots : List NodeId) : Prop where
  own_id : ∀ {id n}, lo ≤ id.index → t.get? id = some n → n.id = id
  parent_of_child : ∀ {p n c}, lo ≤ p.index → t.get? p = some n → c ∈ n.children →
    lo ≤ c.index ∧ ∃ m, t.get? c = some m ∧ m.parent = some p
  child_of_parent : ∀ {c m p}, lo ≤ c.index → t.get? c = some m → m.parent = some p →
    c.index < p.index ∧ ∃ n, t.get? p = some n ∧ c ∈ n.children
  nodup_children : ∀ {p n}, lo ≤ p.index → t.get? p = some n → n.children.Nodup
  parent_none_iff : ∀ {c m}, lo ≤ c.index → t.get? c = some m → (m.parent = none ↔ c ∈ roots)
  exists_root : ∀ {c}, c ∈ roots → lo ≤ c.index ∧ ∃ m, t.get? c = some m
  nodup_roots : roots.Nodup
  written : ∀ {id n}, lo ≤ id.index → t.get? id = some n → n.payload.IsWritten
  half : ∀ {e n a m}, lo ≤ e.index → t.get? e = some n → n.payload = .member a → a.member = some m →
    ∃ k r, t.get? m = some k ∧ k.payload = .reference r ∧ k.name = n.name
  member_none_iff : ∀ {e n a}, lo ≤ e.index → t.get? e = some n → n.payload = .member a →
    (a.member = none ↔ n.name = "")

/-- Lowering has turned `t` into `t'` and answered `roots`. -/
structure Lowers (t t' : Tree) (roots : List NodeId) : Prop where
  size_le : t.size ≤ t'.size
  earlier : ∀ {id : NodeId}, id.index < t.size → t'.get? id = t.get? id
  planted : t'.Planted t.size roots

namespace Lowers
variable {t t₁ t₂ : Tree} {rs rs' : List NodeId}

theorem nothing (t : Tree) : t.Lowers t [] where
  size_le := Nat.le_refl _
  earlier _ := rfl
  planted := by
    have hno : ∀ {id : NodeId} {n}, t.size ≤ id.index → t.get? id ≠ some n := by
      intro id n hle hn
      have := lt_size_of_get? hn
      omega
    constructor <;> intros <;> first | exact absurd ‹_› (hno ‹_›) | simp_all

/-- What is lowered later leaves alone what was lowered first. -/
theorem trans (h : t.Lowers t₁ rs) (h' : t₁.Lowers t₂ rs') : t.Lowers t₂ (rs ++ rs') := by
  have hle := h.size_le
  have hlt : ∀ {c}, c ∈ rs → c.index < t₁.size := by
    intro c hc
    obtain ⟨-, m, hm⟩ := h.planted.exists_root hc
    exact lt_size_of_get? hm
  have hge : ∀ {c}, c ∈ rs' → t₁.size ≤ c.index := fun hc => (h'.planted.exists_root hc).1
  -- A node of the first block is found in both trees, together with all it refers to.
  have hold : ∀ {id n}, t₁.get? id = some n → t₂.get? id = some n := by
    intro id n hn
    rw [h'.earlier (lt_size_of_get? hn), hn]
  refine ⟨Nat.le_trans hle h'.size_le, fun {id} hid => ?_, ?_⟩
  · rw [h'.earlier (by omega), h.earlier hid]
  constructor
  case own_id =>
    intro id n hlo hn
    by_cases hid : id.index < t₁.size
    · exact h.planted.own_id hlo (h'.earlier hid ▸ hn)
    · exact h'.planted.own_id (by omega) hn
  case parent_of_child =>
    intro p n c hlo hn hc
    by_cases hp : p.index < t₁.size
    · obtain ⟨hlo', m, hm, hmp⟩ := h.planted.parent_of_child hlo (h'.earlier hp ▸ hn) hc
      exact ⟨hlo', m, hold hm, hmp⟩
    · obtain ⟨hlo', m, hm, hmp⟩ := h'.planted.parent_of_child (by omega) hn hc
      exact ⟨by omega, m, hm, hmp⟩
  case child_of_parent =>
    intro c m p hlo hm hmp
    by_cases hc : c.index < t₁.size
    · obtain ⟨hlt', n, hn, hcn⟩ := h.planted.child_of_parent hlo (h'.earlier hc ▸ hm) hmp
      exact ⟨hlt', n, hold hn, hcn⟩
    · exact h'.planted.child_of_parent (by omega) hm hmp
  case nodup_children =>
    intro p n hlo hn
    by_cases hp : p.index < t₁.size
    · exact h.planted.nodup_children hlo (h'.earlier hp ▸ hn)
    · exact h'.planted.nodup_children (by omega) hn
  case parent_none_iff =>
    intro c m hlo hm
    by_cases hc : c.index < t₁.size
    · rw [h.planted.parent_none_iff hlo (h'.earlier hc ▸ hm), List.mem_append]
      constructor
      · exact .inl
      · rintro (hrs | hrs)
        · exact hrs
        · have := hge hrs
          omega
    · rw [h'.planted.parent_none_iff (by omega) hm, List.mem_append]
      constructor
      · exact .inr
      · rintro (hrs | hrs)
        · have := hlt hrs
          omega
        · exact hrs
  case exists_root =>
    intro c hc
    rcases List.mem_append.mp hc with hc | hc
    · obtain ⟨hlo, m, hm⟩ := h.planted.exists_root hc
      exact ⟨hlo, m, hold hm⟩
    · obtain ⟨hlo, m, hm⟩ := h'.planted.exists_root hc
      exact ⟨by omega, m, hm⟩
  case nodup_roots =>
    refine List.nodup_append.mpr ⟨h.planted.nodup_roots, h'.planted.nodup_roots, ?_⟩
    rintro c hc d hd rfl
    have := hlt hc
    have := hge hd
    omega
  case written =>
    intro id n hlo hn
    by_cases hid : id.index < t₁.size
    · exact h.planted.written hlo (h'.earlier hid ▸ hn)
    · exact h'.planted.written (by omega) hn
  case half =>
    intro e n a m hlo hn hp hm
    by_cases he : e.index < t₁.size
    · obtain ⟨k, r, hk, hr, hname⟩ := h.planted.half hlo (h'.earlier he ▸ hn) hp hm
      exact ⟨k, r, hold hk, hr, hname⟩
    · exact h'.planted.half (by omega) hn hp hm
  case member_none_iff =>
    intro e n a hlo hn hp
    by_cases he : e.index < t₁.size
    · exact h.planted.member_none_iff hlo (h'.earlier he ▸ hn) hp
    · exact h'.planted.member_none_iff (by omega) hn hp

/-- A node that is added above all roots is the only root. -/
theorem alloc (h : t.Lowers t₁ rs) (name : String) {p : Payload} (hc : p.children = rs)
    (hw : p.IsWritten)
    (hmember : ∀ a, p = .member a → (a.member = none ↔ name = "") ∧
      ∀ m, a.member = some m → ∃ k r, t₁.get? m = some k ∧ k.payload = .reference r ∧ k.name = name) :
    t.Lowers (t₁.alloc name p).2 [t₁.nextId] := by
  have hle := h.size_le
  have hnew : (t₁.alloc name p).2.get? t₁.nextId = some { id := t₁.nextId, name, payload := p } :=
    get?_alloc_nextId ..
  have hold := fun {id n} (hn : t₁.get? id = some n) => get?_alloc_of_get? hn name p
  refine ⟨by rw [size_alloc]; omega, fun {id} hid => ?_, ?_⟩
  · have hchild : id ∉ p.children := fun hmem => by
      have := (h.planted.exists_root (hc ▸ hmem)).1
      omega
    rw [get?_alloc_of_not_child (by omega) name hchild fun hm => hchild (p.members_subset_children hm),
      h.earlier hid]
  constructor
  case own_id =>
    intro id n hlo hn
    rcases cases_of_get?_alloc hn with ⟨rfl, rfl⟩ | ⟨n₁, hn₁, rfl⟩
    · rfl
    · rw [Node.linkedBelow_id]
      exact h.planted.own_id hlo hn₁
  case parent_of_child =>
    intro q n c hlo hn hcn
    rcases cases_of_get?_alloc hn with ⟨rfl, rfl⟩ | ⟨n₁, hn₁, rfl⟩
    · have hcrs : c ∈ p.children := hcn
      obtain ⟨hlo', m, hm⟩ := h.planted.exists_root (hc ▸ hcrs)
      exact ⟨hlo', _, hold hm, by rw [Node.linkedBelow_parent, if_pos hcrs]⟩
    · rw [Node.linkedBelow_children] at hcn
      obtain ⟨hlo', m, hm, hmp⟩ := h.planted.parent_of_child hlo hn₁ hcn
      have hcrs : c ∉ p.children := by
        rw [hc, ← h.planted.parent_none_iff hlo' hm, hmp]
        simp
      exact ⟨hlo', _, hold hm, by rw [Node.linkedBelow_parent, if_neg hcrs, hmp]⟩
  case child_of_parent =>
    intro c m q hlo hm hmq
    rcases cases_of_get?_alloc hm with ⟨rfl, rfl⟩ | ⟨m₁, hm₁, rfl⟩
    · simp at hmq
    · rw [Node.linkedBelow_parent] at hmq
      by_cases hcrs : c ∈ p.children
      · rw [if_pos hcrs] at hmq
        cases hmq
        exact ⟨lt_size_of_get? hm₁, _, hnew, hcrs⟩
      · rw [if_neg hcrs] at hmq
        obtain ⟨hlt, n, hn, hcn⟩ := h.planted.child_of_parent hlo hm₁ hmq
        exact ⟨hlt, _, hold hn, by rwa [Node.linkedBelow_children]⟩
  case nodup_children =>
    intro q n hlo hn
    rcases cases_of_get?_alloc hn with ⟨rfl, rfl⟩ | ⟨n₁, hn₁, rfl⟩
    · exact (hc ▸ h.planted.nodup_roots : p.children.Nodup)
    · rw [Node.linkedBelow_children]
      exact h.planted.nodup_children hlo hn₁
  case parent_none_iff =>
    intro c m hlo hm
    rcases cases_of_get?_alloc hm with ⟨rfl, rfl⟩ | ⟨m₁, hm₁, rfl⟩
    · simp
    · have hne := ne_nextId_of_get? hm₁
      rw [Node.linkedBelow_parent]
      by_cases hcrs : c ∈ p.children
      · simp [hcrs, hne]
      · have hsome := (h.planted.parent_none_iff hlo hm₁).not.mpr (hc ▸ hcrs)
        simp [hcrs, hne, hsome]
  case exists_root =>
    intro c hcr
    rw [List.mem_singleton] at hcr
    subst hcr
    exact ⟨hle, _, hnew⟩
  case nodup_roots => simp
  case written =>
    intro id n hlo hn
    rcases cases_of_get?_alloc hn with ⟨rfl, rfl⟩ | ⟨n₁, hn₁, rfl⟩
    · exact hw
    · exact Node.isWritten_linkedBelow _ _ _ _ (h.planted.written hlo hn₁)
  case half =>
    intro e n a m hlo hn hp hm
    rcases cases_of_get?_alloc hn with ⟨rfl, rfl⟩ | ⟨n₁, hn₁, rfl⟩
    · obtain ⟨k, r, hk, hr, hname⟩ := (hmember a hp).2 m hm
      exact ⟨_, r, hold hk, (Node.linkedBelow_payload_reference ..).mpr hr,
        by rw [Node.linkedBelow_name]; exact hname⟩
    · have hp₁ := (Node.linkedBelow_payload_member ..).mp hp
      obtain ⟨k, r, hk, hr, hname⟩ := h.planted.half hlo hn₁ hp₁ hm
      exact ⟨_, r, hold hk, (Node.linkedBelow_payload_reference ..).mpr hr,
        by rw [Node.linkedBelow_name, Node.linkedBelow_name, hname]⟩
  case member_none_iff =>
    intro e n a hlo hn hp
    rcases cases_of_get?_alloc hn with ⟨rfl, rfl⟩ | ⟨n₁, hn₁, rfl⟩
    · exact (hmember a hp).1
    · rw [Node.linkedBelow_name]
      exact h.planted.member_none_iff hlo hn₁ ((Node.linkedBelow_payload_member ..).mp hp)

theorem setRegion (h : t.Lowers t₁ rs) {id : NodeId} (hid : t.size ≤ id.index) (region : Region) :
    t.Lowers (t₁.setRegion id region) rs := by
  refine ⟨by rw [Tree.setRegion, size_modify]; exact h.size_le, fun {j} hj => ?_, ?_⟩
  · have hne : id ≠ j := by
      rintro rfl
      omega
    rw [get?_setRegion, if_neg hne, h.earlier hj]
  constructor
  case own_id =>
    intro j n hlo hn
    obtain ⟨n₁, place, hn₁, rfl⟩ := cases_of_get?_setRegion hn
    exact (h.planted.own_id hlo hn₁ : n₁.id = j)
  case parent_of_child =>
    intro q n c hlo hn hc
    obtain ⟨n₁, place, hn₁, rfl⟩ := cases_of_get?_setRegion hn
    obtain ⟨hlo', m, hm, hmq⟩ := h.planted.parent_of_child hlo hn₁ hc
    obtain ⟨place', hm'⟩ := get?_setRegion_of_get? hm region
    exact ⟨hlo', _, hm', hmq⟩
  case child_of_parent =>
    intro c m q hlo hm hmq
    obtain ⟨m₁, place, hm₁, rfl⟩ := cases_of_get?_setRegion hm
    obtain ⟨hlt, n, hn, hcn⟩ := h.planted.child_of_parent hlo hm₁ hmq
    obtain ⟨place', hn'⟩ := get?_setRegion_of_get? hn region
    exact ⟨hlt, _, hn', hcn⟩
  case nodup_children =>
    intro q n hlo hn
    obtain ⟨n₁, place, hn₁, rfl⟩ := cases_of_get?_setRegion hn
    exact (h.planted.nodup_children hlo hn₁ : n₁.children.Nodup)
  case parent_none_iff =>
    intro c m hlo hm
    obtain ⟨m₁, place, hm₁, rfl⟩ := cases_of_get?_setRegion hm
    exact (h.planted.parent_none_iff hlo hm₁ : m₁.parent = none ↔ c ∈ rs)
  case exists_root =>
    intro c hc
    obtain ⟨hlo, m, hm⟩ := h.planted.exists_root hc
    obtain ⟨place, hm'⟩ := get?_setRegion_of_get? hm region
    exact ⟨hlo, _, hm'⟩
  case nodup_roots => exact h.planted.nodup_roots
  case written =>
    intro j n hlo hn
    obtain ⟨n₁, place, hn₁, rfl⟩ := cases_of_get?_setRegion hn
    exact (h.planted.written hlo hn₁ : n₁.payload.IsWritten)
  case half =>
    intro e n a m hlo hn hpa hm
    obtain ⟨n₁, place, hn₁, rfl⟩ := cases_of_get?_setRegion hn
    obtain ⟨k, r, hk, hr, hname⟩ := h.planted.half hlo hn₁ hpa hm
    obtain ⟨place', hk'⟩ := get?_setRegion_of_get? hk region
    exact ⟨_, r, hk', hr, hname⟩
  case member_none_iff =>
    intro e n a hlo hn hpa
    obtain ⟨n₁, place, hn₁, rfl⟩ := cases_of_get?_setRegion hn
    exact (h.planted.member_none_iff hlo hn₁ hpa : a.member = none ↔ n₁.name = "")

end Lowers

end Tree

open NameResolution.Tree

namespace SyntaxForm

/-- A node that was written is bound to nothing, and a call has a callee. -/
theorem isWritten_payload {form : SyntaxForm} {ids : List NodeId} (h : ids.length = form.parts.length) :
    (form.payload ids).IsWritten := by
  cases form with
  | call name callee arguments =>
    cases ids with
    | nil => cases h
    | cons x ids => rfl
  | _ => simp [payload, Payload.IsWritten]

/-- An access has a member half if it has a name, and the half bears that name. -/
theorem half_payload {form : SyntaxForm} (t : Tree) {a : Access}
    (h : form.payload ((SyntaxNode.lowerList form.parts).run t).1 = .member a) :
    (a.member = none ↔ form.name = "") ∧ ∀ m, a.member = some m →
      ∃ k r, ((SyntaxNode.lowerList form.parts).run t).2.get? m = some k ∧ k.payload = .reference r ∧
        k.name = form.name := by
  cases form with
  | member base name =>
    rw [parts, SyntaxNode.run_lowerList_append] at h ⊢
    by_cases hname : name.getD "" = ""
    · rw [if_pos hname] at h ⊢
      simp only [payload, rest_lowerList] at h
      cases h
      refine ⟨iff_of_true rfl hname, ?_⟩
      rintro m ⟨⟩
    · rw [if_neg hname] at h ⊢
      simp only [payload, rest_lowerList] at h
      cases h
      refine ⟨iff_of_false (Option.some_ne_none _) hname, ?_⟩
      rintro m ⟨⟩
      exact ⟨_, .unresolved, get?_alloc_nextId .., rfl, rfl⟩
  | _ => cases h

end SyntaxForm

namespace SyntaxNode

theorem lowers_lowerList_of_forall {ns : List SyntaxNode}
    (h : ∀ n ∈ ns, ∀ t : Tree, t.Lowers (n.lower.run t).2 [(n.lower.run t).1]) (t : Tree) :
    t.Lowers ((lowerList ns).run t).2 ((lowerList ns).run t).1 := by
  induction ns generalizing t with
  | nil => exact .nothing t
  | cons n ns ih =>
    rw [lowerList]
    exact (h n List.mem_cons_self t).trans (ih (fun m hm => h m (List.mem_cons_of_mem _ hm)) _)

theorem lowers_lower (n : SyntaxNode) (t : Tree) : t.Lowers (n.lower.run t).2 [(n.lower.run t).1] := by
  induction n using induction_parts generalizing t with
  | step line column form ih =>
    have hlength := length_lowerList t form.parts
    have hform : t.Lowers (form.lower.run t).2 [(form.lower.run t).1] := by
      rw [SyntaxForm.run_lower]
      exact (lowers_lowerList_of_forall ih t).alloc form.name (SyntaxForm.children_payload hlength)
        (SyntaxForm.isWritten_payload hlength) fun a ha => SyntaxForm.half_payload t ha
    rw [lower]
    cases line with
    | none => exact hform
    | some line => exact hform.setRegion (hform.planted.exists_root (List.mem_singleton.mpr rfl)).1 _

theorem lowers_lowerList (ns : List SyntaxNode) (t : Tree) :
    t.Lowers ((lowerList ns).run t).2 ((lowerList ns).run t).1 :=
  lowers_lowerList_of_forall (fun n _ => n.lowers_lower) t

end SyntaxNode

namespace Tree

/-- The root of a document is the node that was added last. -/
theorem root_lower (n : SyntaxNode) (t : Tree) (hk : n.kind = .translationUnit) :
    (n.lower.run t).2.root = some (n.lower.run t).1 ∧
      ∃ node, (n.lower.run t).2.get? (n.lower.run t).1 = some node ∧ node.kind = .translationUnit := by
  obtain ⟨line, column, form⟩ := n
  cases form with
  | translationUnit name declarations =>
    rw [SyntaxNode.lower]
    have hform : ((SyntaxForm.translationUnit name declarations).lower.run t) =
        ((SyntaxNode.lowerList declarations).run t).2.addUnit name
          ((SyntaxNode.lowerList declarations).run t).1 := by
      rw [SyntaxForm.lower]
      rfl
    have hroot : ((SyntaxForm.translationUnit name declarations).lower.run t).2.root =
        some ((SyntaxForm.translationUnit name declarations).lower.run t).1 := by
      rw [hform]
      rfl
    have hnode : ∃ node, ((SyntaxForm.translationUnit name declarations).lower.run t).2.get?
        ((SyntaxForm.translationUnit name declarations).lower.run t).1 = some node ∧
          node.kind = .translationUnit := by
      rw [hform]
      exact ⟨_, get?_alloc_nextId .., rfl⟩
    cases line with
    | none => exact ⟨hroot, hnode⟩
    | some line =>
      obtain ⟨node, hnode, hkind⟩ := hnode
      exact ⟨hroot, _, get?_setRegion_self _ hnode, hkind⟩
  | _ => simp [SyntaxNode.kind, SyntaxNode.form, SyntaxForm.kind] at hk

section
variable {document : SyntaxNode} {t : Tree}

theorem lowers_of_ofSyntax (h : ofSyntax document = .ok t) :
    ∃ root node, Lowers {} t [root] ∧ t.root = some root ∧ t.get? root = some node ∧
      node.kind = .translationUnit := by
  unfold ofSyntax at h
  split at h
  case isTrue hk =>
    cases h
    obtain ⟨hroot, node, hnode, hkind⟩ := root_lower document {} hk
    exact ⟨_, node, document.lowers_lower {}, hroot, hnode, hkind⟩
  case isFalse => cases h

/-- Nothing in the tree of a document has been added by a pass. -/
theorem isWritten_of_ofSyntax (h : ofSyntax document = .ok t) {id : NodeId} {n : Node}
    (hn : t.get? id = some n) : n.payload.IsWritten := by
  obtain ⟨root, _, hl, -⟩ := lowers_of_ofSyntax h
  exact hl.planted.written (Nat.zero_le _) hn

/-- Nothing in the tree of a document is bound. -/
theorem resolution?_of_ofSyntax (h : ofSyntax document = .ok t) {id : NodeId} {r : Resolution}
    (hr : t.resolution? id = some r) : r = .unresolved := by
  obtain ⟨n, hn, hp⟩ := Option.bind_eq_some_iff.mp hr
  have hw := isWritten_of_ofSyntax h hn
  obtain ⟨_, _, _, _, payload⟩ := n
  cases payload with
  | reference =>
    cases hp
    exact hw
  | member =>
    cases hp
    exact hw.2
  | _ => cases hp

/-- In the tree of a document, an access has no member half if it has no name. -/
theorem member_eq_none_iff_of_ofSyntax (h : ofSyntax document = .ok t) {id : NodeId} {n : Node} {a : Access}
    (hn : t.get? id = some n) (hp : n.payload = .member a) : a.member = none ↔ n.name = "" := by
  obtain ⟨root, _, hl, -⟩ := lowers_of_ofSyntax h
  exact hl.planted.member_none_iff (Nat.zero_le _) hn hp

theorem wellFormed_of_ofSyntax (h : ofSyntax document = .ok t) : t.WellFormed := by
  obtain ⟨root, node, hl, hroot, hnode, hkind⟩ := lowers_of_ofSyntax h
  have hp := hl.planted
  have hlo : ∀ i : Nat, ({} : Tree).size ≤ i := fun i => Nat.zero_le i
  have htop : node.parent = none := (hp.parent_none_iff (hlo _) hnode).mpr (by simp)
  constructor
  case own_id => exact fun hn => hp.own_id (hlo _) hn
  case unit_root => exact ⟨root, node, hroot, hnode, hkind, htop⟩
  case eq_root =>
    intro id n hn hpar
    have hmem := (hp.parent_none_iff (hlo _) hn).mp hpar
    rw [hroot, List.mem_singleton.mp hmem]
  case parent_of_child => exact fun hn hc => (hp.parent_of_child (hlo _) hn hc).2
  case child_of_parent => exact fun hm hpar => (hp.child_of_parent (hlo _) hm hpar).2
  case nodup_children => exact fun hn => hp.nodup_children (hlo _) hn
  case lineage =>
    -- A parent is added after its children, so the chain of parents grows towards the end of the tree.
    intro id n hn
    induction hd : t.size - id.index using Nat.strongRecOn generalizing id n with
    | ind k ih =>
      cases hpar : n.parent with
      | none => exact ⟨[], .top hn hpar⟩
      | some p =>
        obtain ⟨hlt, m, hm, -⟩ := hp.child_of_parent (hlo _) hn hpar
        have hsize := lt_size_of_get? hm
        obtain ⟨above, hup⟩ := ih (t.size - p.index) (by omega) hm rfl
        exact ⟨p :: above, .under hn hpar hup⟩

theorem properIn_of_ofSyntax (h : ofSyntax document = .ok t) (languages : Set String) :
    t.ProperIn languages := by
  obtain ⟨root, node, hl, -⟩ := lowers_of_ofSyntax h
  have hwritten : ∀ {id n}, t.get? id = some n → n.payload.IsWritten := isWritten_of_ofSyntax h
  refine { wellFormed_of_ofSyntax h with half := ?_, callee := ?_, owned := ?_, record := ?_ }
  · exact fun hn hp hm => hl.planted.half (Nat.zero_le _) hn hp hm
  · intro id n arguments hn hp
    have hw := hwritten hn
    rw [hp] at hw
    exact absurd hw (by simp [Payload.IsWritten])
  · intro f n d hn hp hi
    have hw := hwritten hn
    rw [hp] at hw
    exact absurd (hw.symm.trans hi) (by simp)
  · intro id n r hn hp
    have hw := hwritten hn
    rw [hp] at hw
    exact .inl hw

theorem proper_of_ofSyntax (h : ofSyntax document = .ok t) (separator : String) : t.Proper separator :=
  properIn_of_ofSyntax h {separator}

end

end Tree
end NameResolution
