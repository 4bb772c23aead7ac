import NameResolution.Proofs.Tree.Operations

/-!
# Trees changed node by node

A tree may be changed at every node at once, in the names or in the bindings of its nodes. What the passes do to
the changed tree is what they do to the tree, changed in the same way, as long as the change leaves alone
what they put in.
-/
namespace NameResolution.Tree
variable {g : Node → Node} {t t' : Tree} {id : NodeId} {n : Node}

/-- A tree is known by its root and by what is found under each id. -/
theorem ext_get? (hroot : t'.root = t.root) (h : ∀ id, t'.get? id = t.get? id) : t' = t := by
  obtain ⟨nodes, root⟩ := t
  obtain ⟨nodes', root'⟩ := t'
  obtain rfl : root' = root := hroot
  obtain rfl : nodes' = nodes := Array.ext_getElem? fun i => h ⟨i⟩
  rfl

def map (g : Node → Node) (t : Tree) : Tree := { t with nodes := t.nodes.map g }

@[simp] theorem root_map (g : Node → Node) (t : Tree) : (t.map g).root = t.root := rfl

@[simp] theorem size_map (g : Node → Node) (t : Tree) : (t.map g).size = t.size := by
  simp [map, size]

@[simp] theorem nextId_map (g : Node → Node) (t : Tree) : (t.map g).nextId = t.nextId := by
  simp [nextId]

theorem get?_map (g : Node → Node) (t : Tree) (id : NodeId) : (t.map g).get? id = (t.get? id).map g := by
  simp [map, get?]

theorem map_eq_self (h : ∀ {id n}, t.get? id = some n → g n = n) : t.map g = t := by
  refine ext_get? rfl fun id => ?_
  rw [get?_map]
  cases hn : t.get? id with
  | none => rfl
  | some n => rw [Option.map_some, h hn]

/-- If no node gets another parent, the chains of parents stay as they are. -/
theorem climb_map (hparent : ∀ n, (g n).parent = n.parent) (t : Tree) (limit : Nat) (start : Option NodeId) :
    (t.map g).climb limit start = t.climb limit start := by
  induction limit generalizing start with
  | zero => rfl
  | succ limit ih =>
    cases start with
    | none => rfl
    | some id =>
      rw [climb, climb, get?_map]
      cases t.get? id with
      | none => rfl
      | some n => simp only [Option.map_some, hparent, ih]

theorem ancestors_map (hparent : ∀ n, (g n).parent = n.parent) (t : Tree) (id : NodeId) :
    (t.map g).ancestors id = t.ancestors id := by
  rw [ancestors, ancestors, climb_map hparent, size_map, get?_map]
  cases t.get? id with
  | none => rfl
  | some n => simp only [Option.map_some, Option.bind_some, hparent]

theorem lineage_map (hparent : ∀ n, (g n).parent = n.parent) {above : List NodeId} (h : t.Lineage id above) :
    (t.map g).Lineage id above :=
  h.mono fun hn => ⟨_, by rw [get?_map, hn, Option.map_some], hparent _⟩

/-- Changing a node of the changed tree. -/
theorem modify_map {f : Node → Node} (h : ∀ n, g (f n) = f (g n)) (t : Tree) (id : NodeId) :
    (t.map g).modify id f = (t.modify id f).map g := by
  refine ext_get? rfl fun j => ?_
  rw [get?_modify, get?_map, get?_map, get?_modify]
  by_cases hj : id = j
  · subst hj
    rw [if_pos rfl, if_pos rfl]
    cases t.get? id with
    | none => rfl
    | some n => simp only [Option.map_some, h n]
  · rw [if_neg hj, if_neg hj]

/-- Binding a node of the changed tree. -/
theorem bind_map {r r' : Resolution}
    (h : ∀ n, t.get? id = some n →
      g { n with payload := n.payload.bind r } = { g n with payload := (g n).payload.bind r' }) :
    (t.map g).bind id r' = (t.bind id r).map g := by
  refine ext_get? rfl fun j => ?_
  rw [get?_bind, get?_map, get?_map, get?_bind]
  by_cases hj : id = j
  · subst hj
    rw [if_pos rfl, if_pos rfl]
    cases hn : t.get? id with
    | none => rfl
    | some n => simp only [Option.map_some, h n hn]
  · rw [if_neg hj, if_neg hj]

/-- Writing out an access in the changed tree. -/
theorem writeOutAccess_map {base : String} {baseTo memberTo : Resolution} (hn : t.get? id = some n)
    (hname : (g n).name = n.name) (hregion : (g n).region = n.region)
    (hwritten : g { n with payload := .member (t.writtenAccess memberTo) } =
      { g n with payload := .member (t.writtenAccess memberTo) })
    (hbase : ∀ k, t.get? k.id = none → k.payload = .reference baseTo → g k = k)
    (hmember : ∀ k, t.get? k.id = none → k.payload = .reference memberTo → g k = k) :
    (t.map g).writeOutAccess id base baseTo memberTo = (t.writeOutAccess id base baseTo memberTo).map g := by
  have hn' : (t.map g).get? id = some (g n) := by rw [get?_map, hn, Option.map_some]
  have haccess : (t.map g).writtenAccess memberTo = t.writtenAccess memberTo := by
    rw [writtenAccess, writtenAccess, nextId_map, size_map]
  have hfresh : t.get? ⟨t.size + 1⟩ = none := get?_eq_none_iff.mpr (Nat.le_succ _)
  refine ext_get? ?_ fun j => ?_
  · rw [root_map, root_writeOutAccess _ _ _ hn, root_writeOutAccess _ _ _ hn', root_map]
  · rw [get?_map, get?_writeOutAccess _ _ _ hn', get?_writeOutAccess _ _ _ hn, nextId_map, size_map, haccess,
      get?_map, hname, hregion]
    split
    · simp only [Option.map_some, hwritten, hname, hregion]
    · split
      · rw [Option.map_some, hbase _ (get?_nextId t) rfl]
      · split
        · rw [Option.map_some, hmember _ hfresh rfl]
        · rfl

end NameResolution.Tree
