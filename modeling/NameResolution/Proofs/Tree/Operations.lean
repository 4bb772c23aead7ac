import NameResolution.Proofs.Tree.Frame

/-!
# The nodes of a changed tree

What each operation on trees does, said by what is found under each id afterwards.
-/
namespace NameResolution

@[simp] theorem Node.ownedBy_ownedBy (r : NodeId) (n : Node) : (n.ownedBy r).ownedBy r = n.ownedBy r := by
  obtain ⟨id, name, region, parent, payload⟩ := n
  cases payload <;> rfl

/-- What a node learns when a node with the id `parent` and the given payload is added above it. -/
def Node.linkedBelow (parent : NodeId) (p : Payload) (n : Node) (id : NodeId) : Node :=
  let n := if id ∈ p.children then { n with parent := some parent } else n
  if id ∈ p.members then n.ownedBy parent else n

theorem Node.linkedBelow_of_childless (parent : NodeId) {p : Payload} (n : Node) (id : NodeId)
    (hc : p.children = []) (hm : p.members = []) : n.linkedBelow parent p id = n := by
  simp [linkedBelow, hc, hm]

namespace Tree

/-- A change that leaves a node as it is leaves the tree as it is. -/
theorem modify_eq_self {t : Tree} {id : NodeId} {n : Node} {f : Node → Node} (hn : t.get? id = some n)
    (hf : f n = n) : t.modify id f = t := by
  obtain ⟨nodes, root⟩ := t
  have hlt : id.index < nodes.size := lt_size_of_get? hn
  have hn' : nodes[id.index] = n := by
    simpa [get?, Array.getElem?_eq_getElem hlt] using hn
  simp only [modify, mk.injEq, and_true]
  apply Array.ext (by simp)
  intro i hi hi'
  rw [Array.getElem_modify]
  split
  · next h =>
    subst h
    rw [hn', hf]
  · rfl

theorem get?_adopt (t : Tree) (p : NodeId) (cs : List NodeId) (j : NodeId) :
    (t.adopt p cs).get? j =
      (t.get? j).map fun n => if j ∈ cs then { n with parent := some p } else n := by
  induction cs generalizing t with
  | nil => simp [adopt]
  | cons c cs ih =>
    rw [show t.adopt p (c :: cs) = (t.modify c fun n => { n with parent := some p }).adopt p cs from rfl,
      ih, get?_modify]
    by_cases hc : c = j
    · subst hc
      cases t.get? c <;> simp
    · have hj : j ≠ c := fun h => hc h.symm
      cases t.get? j <;> simp [hc, hj]

theorem get?_ownFields (t : Tree) (r : NodeId) (ms : List NodeId) (j : NodeId) :
    (t.ownFields r ms).get? j = (t.get? j).map fun n => if j ∈ ms then n.ownedBy r else n := by
  induction ms generalizing t with
  | nil => simp [ownFields]
  | cons m ms ih =>
    rw [show t.ownFields r (m :: ms) = (t.modify m (Node.ownedBy r)).ownFields r ms from rfl, ih,
      get?_modify]
    by_cases hm : m = j
    · subst hm
      cases t.get? m <;> simp
    · have hj : j ≠ m := fun h => hm h.symm
      cases t.get? j <;> simp [hm, hj]

theorem get?_link (t : Tree) (id : NodeId) (p : Payload) (j : NodeId) :
    (t.link id p).get? j = (t.get? j).map fun n => n.linkedBelow id p j := by
  rw [link, get?_ownFields, get?_adopt, Option.map_map]
  rfl

theorem root_alloc (t : Tree) (name : String) {p : Payload} (hp : p.kind ≠ .translationUnit) :
    (t.alloc name p).2.root = t.root := if_neg hp

theorem get?_alloc (t : Tree) (name : String) (p : Payload) (j : NodeId) :
    (t.alloc name p).2.get? j =
      if j = t.nextId then some { id := t.nextId, name, payload := p }
      else (t.get? j).map fun n => n.linkedBelow t.nextId p j := by
  have hsize : (t.link ⟨t.size⟩ p).nodes.size = t.size := size_link t ⟨t.size⟩ p
  rw [← get?_link]
  simp only [alloc, get?, Array.getElem?_push, hsize, nextId, NodeId.ext_iff]

theorem get?_alloc_nextId (t : Tree) (name : String) (p : Payload) :
    (t.alloc name p).2.get? t.nextId = some { id := t.nextId, name, payload := p } := by
  rw [get?_alloc, if_pos rfl]

/-- A node without children only adds itself. -/
theorem get?_alloc_of_childless (t : Tree) (name : String) {p : Payload} (hc : p.children = [])
    (hm : p.members = []) (j : NodeId) :
    (t.alloc name p).2.get? j =
      if j = t.nextId then some { id := t.nextId, name, payload := p } else t.get? j := by
  rw [get?_alloc]
  simp [Node.linkedBelow_of_childless _ _ _ hc hm]

theorem get?_nextId (t : Tree) : t.get? t.nextId = none := get?_eq_none_iff.mpr (Nat.le_refl _)

theorem ne_nextId_of_get? {t : Tree} {id : NodeId} {n : Node} (h : t.get? id = some n) :
    id ≠ t.nextId := by
  rintro rfl
  simp [get?_nextId] at h

/-- A node that was there is linked to the new one if it is its child. -/
theorem get?_alloc_of_get? {t : Tree} {id : NodeId} {n : Node} (hn : t.get? id = some n) (name : String)
    (p : Payload) : (t.alloc name p).2.get? id = some (n.linkedBelow t.nextId p id) := by
  rw [get?_alloc, if_neg (ne_nextId_of_get? hn), hn, Option.map_some]

theorem cases_of_get?_alloc {t : Tree} {id : NodeId} {n : Node} {name : String} {p : Payload}
    (hn : (t.alloc name p).2.get? id = some n) :
    (id = t.nextId ∧ n = { id := t.nextId, name, payload := p }) ∨
      ∃ n₁, t.get? id = some n₁ ∧ n = n₁.linkedBelow t.nextId p id := by
  rw [get?_alloc] at hn
  by_cases hid : id = t.nextId
  · rw [if_pos hid] at hn
    exact .inl ⟨hid, (Option.some.inj hn).symm⟩
  · rw [if_neg hid] at hn
    obtain ⟨n₁, hn₁, rfl⟩ := Option.map_eq_some_iff.mp hn
    exact .inr ⟨n₁, hn₁, rfl⟩

/-- Nodes that are no children of the new one stay as they are. -/
theorem get?_alloc_of_not_child {t : Tree} {id : NodeId} (hid : id.index < t.size) (name : String)
    {p : Payload} (hc : id ∉ p.children) (hm : id ∉ p.members) :
    (t.alloc name p).2.get? id = t.get? id := by
  have hne : id ≠ t.nextId := by
    rintro rfl
    simp only [nextId] at hid
    omega
  have hsame : ∀ n : Node, n.linkedBelow t.nextId p id = n := fun n => by simp [Node.linkedBelow, hc, hm]
  rw [get?_alloc, if_neg hne]
  simp [hsame]

theorem get?_setRegion (t : Tree) (id : NodeId) (region : Region) (j : NodeId) :
    (t.setRegion id region).get? j =
      if id = j then (t.get? j).map fun n => { n with region := some region } else t.get? j :=
  get?_modify ..

theorem get?_setRegion_self {t : Tree} {id : NodeId} {n : Node} (region : Region)
    (hn : t.get? id = some n) :
    (t.setRegion id region).get? id = some { n with region := some region } := by
  rw [get?_setRegion, if_pos rfl, hn, Option.map_some]

/-- Only the regions of nodes change. -/
theorem cases_of_get?_setRegion {t : Tree} {id j : NodeId} {region : Region} {n : Node}
    (hn : (t.setRegion id region).get? j = some n) :
    ∃ n₁ place, t.get? j = some n₁ ∧ n = { n₁ with region := place } := by
  rw [get?_setRegion] at hn
  by_cases hj : id = j
  · rw [if_pos hj] at hn
    obtain ⟨n₁, hn₁, rfl⟩ := Option.map_eq_some_iff.mp hn
    exact ⟨n₁, some region, hn₁, rfl⟩
  · rw [if_neg hj] at hn
    exact ⟨n, n.region, hn, rfl⟩

theorem get?_setRegion_of_get? {t : Tree} {id j : NodeId} {n : Node} (hn : t.get? j = some n)
    (region : Region) :
    ∃ place, (t.setRegion id region).get? j = some { n with region := place } := by
  rw [get?_setRegion, hn]
  by_cases hj : id = j
  · exact ⟨some region, by rw [if_pos hj, Option.map_some]⟩
  · exact ⟨n.region, by rw [if_neg hj]⟩

theorem get?_bind (t : Tree) (id : NodeId) (r : Resolution) (j : NodeId) :
    (t.bind id r).get? j =
      if id = j then (t.get? j).map fun n => { n with payload := n.payload.bind r } else t.get? j :=
  get?_modify ..

def implicitNode (id record : NodeId) (name typeName : String) : Node :=
  { id, name, parent := some record
    payload := .fieldDecl { typeName := some typeName, isImplicit := true, record := some record } }

theorem get?_addImplicitField (t : Tree) (record : NodeId) (name typeName : String) (j : NodeId) :
    (t.addImplicitField record name typeName).2.get? j =
      if j = t.nextId then some (implicitNode t.nextId record name typeName) else t.get? j := by
  simp only [addImplicitField, get?_modify, alloc_fst]
  rw [get?_alloc_of_childless _ _ rfl rfl]
  by_cases hj : j = t.nextId
  · simp [hj, implicitNode]
  · simp [hj, Ne.symm hj]

section
variable {t : Tree} {id : NodeId} {node : Node} (base : String) (baseTo memberTo : Resolution)

/-- The access that a plain name is turned into. -/
def writtenAccess (t : Tree) (memberTo : Resolution) : Access :=
  { base := some t.nextId, member := some ⟨t.size + 1⟩, implicitBase := true, resolution := memberTo }

theorem root_writeOutAccess (hn : t.get? id = some node) :
    (t.writeOutAccess id base baseTo memberTo).root = t.root := by
  simp only [writeOutAccess, hn, root_modify]
  rw [root_alloc, root_alloc] <;> simp [Payload.kind]

theorem get?_writeOutAccess (hn : t.get? id = some node) (j : NodeId) :
    (t.writeOutAccess id base baseTo memberTo).get? j =
      if j = id then some { node with payload := .member (t.writtenAccess memberTo) }
      else if j = t.nextId then
        some { id := t.nextId, name := base, region := node.region, parent := some id
               payload := .reference baseTo }
      else if j = ⟨t.size + 1⟩ then
        some { id := ⟨t.size + 1⟩, name := node.name, region := node.region, parent := some id
               payload := .reference memberTo }
      else t.get? j := by
  have hid : id ≠ t.nextId := ne_nextId_of_get? hn
  have hlt := lt_size_of_get? hn
  have hid' : id ≠ ⟨t.size + 1⟩ := fun h => by
    have := congrArg NodeId.index h
    simp only at this
    omega
  have hne : t.nextId ≠ ⟨t.size + 1⟩ := fun h => by
    have := congrArg NodeId.index h
    simp only [nextId] at this
    omega
  have hnext : (t.alloc base (.reference baseTo)).2.nextId = ⟨t.size + 1⟩ := by simp [nextId]
  simp only [writeOutAccess, hn, get?_modify, alloc_fst]
  rw [get?_alloc_of_childless _ _ rfl rfl, get?_alloc_of_childless _ _ rfl rfl, hnext]
  by_cases h1 : j = id
  · subst h1
    simp [hid, hid', Ne.symm hid, Ne.symm hid', hn, writtenAccess]
  · by_cases h2 : j = t.nextId
    · subst h2
      simp [hid, hne, Ne.symm hne, Ne.symm hid]
    · by_cases h3 : j = ⟨t.size + 1⟩
      · subst h3
        simp [hid', hne, Ne.symm hid', Ne.symm hne]
      · simp [h1, h2, h3, Ne.symm h1, Ne.symm h2, Ne.symm h3]

end

end Tree
end NameResolution
