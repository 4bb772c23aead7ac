import NameResolution.Proofs.Binding.Steps
import NameResolution.Proofs.Registration.Steps
import NameResolution.Proofs.Tree.Mapped

/-!
# Trees with other names

Some variables, parameters and plain names of a tree go by another name. Nothing else changes: not what the nodes
hold, not how they stand, and not the names of records, so that records keep their qualified names. A tree that
passes may run on stays one, unless a member half gets another name.
-/
namespace NameResolution

/-- The kinds of node that a local goes by: what declares it, and what may mean it. -/
def NodeKind.isLocalName : NodeKind → Bool
  | variableDecl | parameterDecl | reference => true
  | _ => false

namespace Node
variable (ids : NodeId → Bool) (name : String)

def rename (n : Node) : Node := { n with name := if ids n.id && n.kind.isLocalName then name else n.name }

@[simp] theorem kind_rename (n : Node) : (n.rename ids name).kind = n.kind := rfl

theorem rename_eq_self {n : Node} (h : (ids n.id && n.kind.isLocalName) = false) : n.rename ids name = n := by
  rw [rename, h]
  rfl

theorem rename_of_kind {n : Node} (h : n.kind.isLocalName = false) : n.rename ids name = n :=
  rename_eq_self ids name (by rw [h, Bool.and_false])

theorem rename_of_id {n : Node} (h : ids n.id = false) : n.rename ids name = n :=
  rename_eq_self ids name (by rw [h, Bool.false_and])

theorem name_rename {n : Node} (h : ids n.id = true) (hk : n.kind.isLocalName = true) :
    (n.rename ids name).name = name := by
  rw [rename, h, hk]
  rfl

end Node

namespace Tree
variable (ids : NodeId → Bool) (name : String)

/-- The tree with the local names among the given ids under another name. -/
def rename (t : Tree) : Tree := t.map (Node.rename ids name)

@[simp] theorem size_rename (t : Tree) : (t.rename ids name).size = t.size := size_map ..

@[simp] theorem depthLimit_rename (t : Tree) : (t.rename ids name).depthLimit = t.depthLimit := by
  rw [depthLimit, depthLimit, size_rename, listings, listings, rename, map, Array.foldl_map]
  rfl

theorem get?_rename (t : Tree) (x : NodeId) :
    (t.rename ids name).get? x = (t.get? x).map (Node.rename ids name) :=
  get?_map ..

theorem get?_rename_of_get? {ids : NodeId → Bool} {name : String} {t : Tree} {x : NodeId} {n : Node}
    (hn : t.get? x = some n) : (t.rename ids name).get? x = some (n.rename ids name) := by
  rw [get?_rename, hn, Option.map_some]

theorem exists_of_get?_rename {ids : NodeId → Bool} {name : String} {t : Tree} {x : NodeId} {n' : Node}
    (hn : (t.rename ids name).get? x = some n') : ∃ n, t.get? x = some n ∧ n' = n.rename ids name := by
  rw [get?_rename] at hn
  obtain ⟨n, hm, rfl⟩ := Option.map_eq_some_iff.mp hn
  exact ⟨n, hm, rfl⟩

@[simp] theorem kind?_rename (t : Tree) (x : NodeId) : (t.rename ids name).kind? x = t.kind? x := by
  rw [kind?, kind?, get?_rename, Option.map_map]
  rfl

@[simp] theorem resolution?_rename (t : Tree) (x : NodeId) :
    (t.rename ids name).resolution? x = t.resolution? x := by
  rw [resolution?, resolution?, get?_rename]
  cases t.get? x <;> rfl

@[simp] theorem ancestors_rename (t : Tree) (x : NodeId) : (t.rename ids name).ancestors x = t.ancestors x :=
  ancestors_map (g := Node.rename ids name) (fun _ => rfl) t x

theorem enclosingScope?_rename (t : Tree) (S : ScopeTree) (x : NodeId) :
    (t.rename ids name).enclosingScope? S x = t.enclosingScope? S x := by
  rw [enclosingScope?, enclosingScope?, enclosingScopes, enclosingScopes, ancestors_rename]

@[simp] theorem enclosingRecords_rename (t : Tree) (x : NodeId) :
    (t.rename ids name).enclosingRecords x = t.enclosingRecords x := by
  rw [enclosingRecords, enclosingRecords, ancestors_rename]
  exact List.filter_congr fun a _ => by rw [kind?_rename]

@[simp] theorem isMemberHalf_rename (t : Tree) (x : NodeId) :
    (t.rename ids name).IsMemberHalf x ↔ t.IsMemberHalf x := by
  constructor
  · rintro ⟨e, n', a, hn', hp, ha⟩
    obtain ⟨n, hn, rfl⟩ := exists_of_get?_rename hn'
    exact ⟨e, n, a, hn, hp, ha⟩
  · rintro ⟨e, n, a, hn, hp, ha⟩
    exact ⟨e, _, a, get?_rename_of_get? hn, hp, ha⟩

section
variable {t : Tree} {x id : NodeId} {n : Node}

/-- A node that is no local name is the same node. -/
theorem get?_rename_of_kind (hn : t.get? x = some n) (hk : n.kind.isLocalName = false) :
    (t.rename ids name).get? x = some n := by
  rw [get?_rename_of_get? hn, Node.rename_of_kind _ _ hk]

theorem nameOf_rename (h : t.kind? x = some .recordDecl) : (t.rename ids name).nameOf x = t.nameOf x := by
  obtain ⟨n, hn, hk⟩ := Option.map_eq_some_iff.mp h
  rw [nameOf, nameOf, name?, name?, hn, get?_rename_of_kind ids name hn (by rw [hk]; rfl)]

/-- The names of records inside records stay as they are. -/
theorem qualify_rename {outers : List NodeId} (h : ∀ o ∈ outers, t.kind? o = some .recordDecl)
    (separator inner : String) :
    (t.rename ids name).qualify separator inner outers = t.qualify separator inner outers := by
  induction outers generalizing inner with
  | nil => rfl
  | cons o outers ih =>
    rw [qualify, qualify, nameOf_rename ids name (h o (by simp)), ih fun q hq => h q (List.mem_cons_of_mem _ hq)]

theorem qualifiedName_rename (h : t.kind? x = some .recordDecl) (separator : String) :
    (t.rename ids name).qualifiedName separator x = t.qualifiedName separator x := by
  rw [qualifiedName, qualifiedName, nameOf_rename ids name h, enclosingRecords_rename]
  refine qualify_rename ids name (fun o ho => ?_) separator _
  simpa using (List.mem_filter.mp ho).2

theorem bind_rename (t : Tree) (x : NodeId) (r : Resolution) :
    (t.rename ids name).bind x r = (t.bind x r).rename ids name := by
  refine bind_map fun n _ => ?_
  simp only [Node.rename, Node.kind, Payload.kind_bind]
  rfl

theorem addImplicitField_rename (t : Tree) (record : NodeId) (field typeName : String) :
    ((t.rename ids name).addImplicitField record field typeName).2 =
      (t.addImplicitField record field typeName).2.rename ids name := by
  refine ext_get? rfl fun j => ?_
  rw [get?_rename, get?_addImplicitField, get?_addImplicitField, get?_rename]
  have hnext : (t.rename ids name).nextId = t.nextId := nextId_map ..
  rw [hnext]
  by_cases hj : j = t.nextId
  · rw [if_pos hj, if_pos hj, Option.map_some, Node.rename_of_kind _ _ rfl]
  · rw [if_neg hj, if_neg hj]

theorem writeOutAccess_rename (hn : t.get? x = some n) (hx : ids n.id = false)
    (hnew : ∀ k : Node, t.get? k.id = none → ids k.id = false) (base : String) (baseTo memberTo : Resolution) :
    (t.rename ids name).writeOutAccess x base baseTo memberTo =
      (t.writeOutAccess x base baseTo memberTo).rename ids name := by
  have hname : (n.rename ids name).name = n.name := by rw [Node.rename_of_id ids name hx]
  refine writeOutAccess_map hn hname rfl ?_ (fun k hk _ => Node.rename_of_id ids name (hnew k hk))
    (fun k hk _ => Node.rename_of_id ids name (hnew k hk))
  rw [Node.rename_of_id ids name hx, Node.rename_of_kind _ _ rfl]

theorem WellFormed.rename (h : t.WellFormed) : (t.rename ids name).WellFormed := by
  constructor
  case own_id =>
    intro x n' hn'
    obtain ⟨n, hn, rfl⟩ := exists_of_get?_rename hn'
    exact (h.own_id hn : n.id = x)
  case unit_root =>
    obtain ⟨root, n, hroot, hn, hk, hp⟩ := h.unit_root
    exact ⟨root, _, hroot, get?_rename_of_get? hn, hk, hp⟩
  case eq_root =>
    intro x n' hn' hp
    obtain ⟨n, hn, rfl⟩ := exists_of_get?_rename hn'
    exact h.eq_root hn hp
  case parent_of_child =>
    intro p n' c hn' hc
    obtain ⟨n, hn, rfl⟩ := exists_of_get?_rename hn'
    obtain ⟨m, hm, hp⟩ := h.parent_of_child hn hc
    exact ⟨_, get?_rename_of_get? hm, hp⟩
  case child_of_parent =>
    intro c m' p hm' hp
    obtain ⟨m, hm, rfl⟩ := exists_of_get?_rename hm'
    obtain ⟨n, hn, hc⟩ := h.child_of_parent hm hp
    exact ⟨_, get?_rename_of_get? hn, hc⟩
  case nodup_children =>
    intro p n' hn'
    obtain ⟨n, hn, rfl⟩ := exists_of_get?_rename hn'
    exact (h.nodup_children hn : n.children.Nodup)
  case lineage =>
    intro x n' hn'
    obtain ⟨n, hn, rfl⟩ := exists_of_get?_rename hn'
    obtain ⟨above, hl⟩ := h.lineage hn
    exact ⟨above, lineage_map (g := Node.rename ids name) (fun _ => rfl) hl⟩

theorem Supplied.rename {separator : String} {r : Record} (h : t.Supplied separator x r)
    (hk : t.kind? x = some .recordDecl) : (t.rename ids name).Supplied separator x r := by
  constructor
  case enclosing =>
    rw [enclosingRecords_rename]
    exact h.enclosing
  case this =>
    obtain ⟨f, hf, hm⟩ := h.this
    exact ⟨f, hf, by rw [qualifiedName_rename ids name hk, get?_rename_of_kind ids name hm rfl]⟩
  case records =>
    rw [enclosingRecords_rename]
    exact h.records
  case outer =>
    intro o ho
    have hrecord : o.record ∈ t.enclosingRecords x := h.records ▸ List.mem_map_of_mem ho
    have hk : t.kind? o.record = some .recordDecl := by simpa using (List.mem_filter.mp hrecord).2
    rw [qualifiedName_rename ids name hk, get?_rename_of_kind ids name (h.outer o ho) rfl]

theorem ProperIn.rename {languages : Set String} (h : t.ProperIn languages)
    (hhalf : ∀ m, t.IsMemberHalf m → ids m = false) : (t.rename ids name).ProperIn languages := by
  refine { h.toWellFormed.rename ids name with half := ?_, callee := ?_, owned := ?_, record := ?_ }
  · intro e n' a m hn' hp hm
    obtain ⟨n, hn, rfl⟩ := exists_of_get?_rename hn'
    obtain ⟨k, r, hk, hkr, hname⟩ := h.half hn hp hm
    have hpn : n.payload = .member a := hp
    have hkeep : n.rename ids name = n := Node.rename_of_kind ids name (by rw [Node.kind, hpn]; rfl)
    have hkeep' : k.rename ids name = k :=
      Node.rename_of_id ids name (h.own_id hk ▸ hhalf m ⟨e, n, a, hn, hp, hm⟩)
    exact ⟨k, r, hkeep' ▸ get?_rename_of_get? hk, hkr, by rw [hkeep, hname]⟩
  · intro x n' arguments hn' hp
    obtain ⟨n, hn, rfl⟩ := exists_of_get?_rename hn'
    exact h.callee hn hp
  · intro f n' d hn' hp hi
    obtain ⟨n, hn, rfl⟩ := exists_of_get?_rename hn'
    obtain ⟨x, m, r, hm, hr, hf⟩ := h.owned hn hp hi
    exact ⟨x, m.rename ids name, r, get?_rename_of_get? hm, hr, hf⟩
  · intro x n' r hn' hp
    obtain ⟨n, hn, rfl⟩ := exists_of_get?_rename hn'
    have hpn : n.payload = .recordDecl r := hp
    rcases h.record hn hpn with hbare | ⟨separator, hlanguage, hsup⟩
    · exact .inl hbare
    · refine .inr ⟨separator, hlanguage, hsup.rename ids name ?_⟩
      rw [kind?, hn, Option.map_some, Node.kind, hpn]
      rfl

/-- Registration does the same steps. -/
theorem registrationSteps_rename (t : Tree) (depth : Nat) (x : NodeId) :
    Registration.steps (t.rename ids name) depth x = Registration.steps t depth x := by
  induction depth generalizing x with
  | zero => rfl
  | succ depth ih =>
    rw [Registration.steps, Registration.steps, get?_rename]
    cases t.get? x with
    | none => rfl
    | some n => simp only [Option.map_some, Node.rename, ih]

/-- Binding does the same steps, if the nodes open the same scopes. -/
theorem bindingSteps_rename {S S' : ScopeTree} (hS : S'.scopes = S.scopes) (t : Tree) (depth : Nat) (x : NodeId)
    (outer : ScopeId) (role : Role) :
    Binding.steps S' (t.rename ids name) depth x outer role = Binding.steps S t depth x outer role := by
  induction depth generalizing x outer role with
  | zero => rfl
  | succ depth ih =>
    rw [Binding.steps, Binding.steps, get?_rename]
    cases t.get? x with
    | none => rfl
    | some n => simp only [Option.map_some, Node.rename, ScopeTree.scopeOf?_congr hS, ih]

end

end Tree
end NameResolution
