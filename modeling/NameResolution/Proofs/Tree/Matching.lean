import NameResolution.Proofs.Binding.Steps

/-!
# Trees under another numbering

Two trees match under a map of ids if the map takes the nodes of the one to those of the other, each once, and what
the nodes hold with them. Only the declarations of a unit or of a statement, the members of a record and the
statements of a block may stand in another order. Whatever does not depend on that order is the same in both trees.
-/
namespace NameResolution

def Resolution.map (f : NodeId → NodeId) : Resolution → Resolution
  | unresolved => unresolved
  | single d => single (f d)
  | ambiguous ds => ambiguous (ds.map f)

/-- The numbering matters only for the candidates. -/
theorem Resolution.map_congr {f g : NodeId → NodeId} {r : Resolution} (h : ∀ d ∈ r.candidates, f d = g d) :
    r.map f = r.map g := by
  cases r with
  | unresolved => rfl
  | single d => exact congrArg single (h d (List.mem_singleton_self d))
  | ambiguous ds => exact congrArg ambiguous (List.map_congr_left h)

def Record.map (f : NodeId → NodeId) (r : Record) : Record :=
  { r with
    members := r.members.map f
    enclosing := r.enclosing.map f
    implicitThis := r.implicitThis.map f
    implicitOuter := r.implicitOuter.map fun o => ⟨f o.record, f o.field⟩ }

def Access.map (f : NodeId → NodeId) (a : Access) : Access :=
  { a with base := a.base.map f, member := a.member.map f, resolution := a.resolution.map f }

namespace Payload

/-- What a node holds, under another numbering. -/
def map (f : NodeId → NodeId) : Payload → Payload
  | translationUnit declarations => translationUnit (declarations.map f)
  | recordDecl r => recordDecl (r.map f)
  | methodDecl c => methodDecl { c with parameters := c.parameters.map f, body := c.body.map f }
  | functionDecl c => functionDecl { c with parameters := c.parameters.map f, body := c.body.map f }
  | fieldDecl d => fieldDecl { d with record := d.record.map f, initializer := d.initializer.map f }
  | variableDecl l => variableDecl { l with initializer := l.initializer.map f }
  | parameterDecl l => parameterDecl { l with initializer := l.initializer.map f }
  | compound statements => compound (statements.map f)
  | declStatement declarations => declStatement (declarations.map f)
  | returnStatement value => returnStatement (value.map f)
  | forStatement initializer condition iteration body =>
    forStatement (initializer.map f) (condition.map f) (iteration.map f) (body.map f)
  | whileStatement condition body => whileStatement (condition.map f) (body.map f)
  | ifStatement declaration condition thenBranch elseBranch =>
    ifStatement (declaration.map f) (condition.map f) (thenBranch.map f) (elseBranch.map f)
  | tryStatement body clauses => tryStatement (body.map f) (clauses.map f)
  | catchClause parameter body => catchClause (parameter.map f) (body.map f)
  | call callee arguments => call (callee.map f) (arguments.map f)
  | newExpr typeName arguments => newExpr typeName (arguments.map f)
  | binaryOp operator lhs rhs => binaryOp operator (lhs.map f) (rhs.map f)
  | reference r => reference (r.map f)
  | member a => member (a.map f)
  | literal value => literal value

/-- What a node holds, under another numbering and maybe in another order. -/
inductive Matches (f : NodeId → NodeId) : Payload → Payload → Prop
  | same (p : Payload) : Matches f p (p.map f)
  | translationUnit {ds ds' : List NodeId} (order : (ds.map f).Perm ds') :
      Matches f (translationUnit ds) (translationUnit ds')
  | recordDecl {r : Record} {ms : List NodeId} (order : (r.members.map f).Perm ms) :
      Matches f (recordDecl r) (recordDecl { r.map f with members := ms })
  | compound {ss ss' : List NodeId} (order : (ss.map f).Perm ss') : Matches f (compound ss) (compound ss')
  | declStatement {ds ds' : List NodeId} (order : (ds.map f).Perm ds') :
      Matches f (declStatement ds) (declStatement ds')

def ids : Payload → List NodeId
  | recordDecl r => (recordDecl r).children ++ r.enclosing.toList ++ r.implicitOuter.map OuterInstance.record
  | fieldDecl d => d.record.toList ++ d.initializer.toList
  | reference r => r.candidates
  | member a => (member a).children ++ a.resolution.candidates
  | p => p.children

section
variable {f g : NodeId → NodeId} {p q s : Payload} {x : NodeId}

@[simp] theorem kind_map (f : NodeId → NodeId) (p : Payload) : (p.map f).kind = p.kind := by
  cases p <;> rfl

theorem children_map (f : NodeId → NodeId) (p : Payload) : (p.map f).children = p.children.map f := by
  cases p <;> simp [map, children, Record.map, Access.map, Option.toList_map]

theorem members_map (f : NodeId → NodeId) (p : Payload) : (p.map f).members = p.members.map f := by
  cases p <;> rfl

theorem slots_map (f : NodeId → NodeId) (p : Payload) :
    (p.map f).slots = p.slots.map fun s => { s with child := f s.child } := by
  cases p <;> simp [map, slots, Slot.free, Slot.only, Record.map, Option.toList_map, Function.comp_def]

theorem map_comp (f g : NodeId → NodeId) (p : Payload) : (p.map f).map g = p.map (g ∘ f) := by
  have hr : ∀ r : Resolution, (r.map f).map g = r.map (g ∘ f) := by
    intro r
    cases r <;> simp [Resolution.map]
  cases p <;> simp [map, Record.map, Access.map, hr]

/-- The numbering matters only where the payload holds ids. -/
theorem map_congr (h : ∀ x ∈ p.ids, g x = f x) : p.map g = p.map f := by
  have hlist : ∀ {xs : List NodeId}, xs ⊆ p.ids → xs.map g = xs.map f :=
    fun hxs => List.map_congr_left fun x hx => h x (hxs hx)
  have hoption : ∀ {o : Option NodeId}, o.toList ⊆ p.ids → o.map g = o.map f :=
    fun ho => Option.map_congr fun x hx => h x (ho (by simp [Option.mem_def.mp hx]))
  have hresolution : ∀ {r : Resolution}, r.candidates ⊆ p.ids → r.map g = r.map f :=
    fun hr => Resolution.map_congr fun d hd => h d (hr hd)
  cases p with
  | recordDecl r =>
    have houter : (r.implicitOuter.map fun o => (⟨g o.record, g o.field⟩ : OuterInstance)) =
        r.implicitOuter.map fun o => ⟨f o.record, f o.field⟩ := by
      refine List.map_congr_left fun o ho => ?_
      have hrecord : o.record ∈ r.implicitOuter.map OuterInstance.record := List.mem_map_of_mem ho
      have hfield : o.field ∈ r.implicitOuter.map OuterInstance.field := List.mem_map_of_mem ho
      rw [h o.record (List.mem_append_right _ hrecord),
        h o.field (List.mem_append_left _ (List.mem_append_left _ (List.mem_append_right _ hfield)))]
    have hmembers : r.members.map g = r.members.map f := hlist fun x hx => by simp [ids, children, hx]
    have hthis : r.implicitThis.map g = r.implicitThis.map f := hoption fun x hx => by simp [ids, children, hx]
    have henclosing : r.enclosing.map g = r.enclosing.map f := hoption fun x hx => by simp [ids, hx]
    simp only [map, Record.map, houter, hmembers, hthis, henclosing]
  | member a =>
    have hbase : a.base.map g = a.base.map f := hoption fun x hx => by simp [ids, children, hx]
    have hmember : a.member.map g = a.member.map f := hoption fun x hx => by simp [ids, children, hx]
    have hr : a.resolution.map g = a.resolution.map f := hresolution fun x hx => by simp [ids, hx]
    simp only [map, Access.map, hbase, hmember, hr]
  | reference r => exact congrArg reference (hresolution (List.Subset.refl _))
  | fieldDecl d =>
    have hrecord : d.record.map g = d.record.map f := hoption fun x hx => by simp [ids, hx]
    have hinitializer : d.initializer.map g = d.initializer.map f := hoption fun x hx => by simp [ids, hx]
    simp only [map, hrecord, hinitializer]
  | literal => rfl
  | translationUnit => exact congrArg translationUnit (hlist (List.Subset.refl _))
  | compound => exact congrArg compound (hlist (List.Subset.refl _))
  | declStatement => exact congrArg declStatement (hlist (List.Subset.refl _))
  | newExpr typeName => exact congrArg (newExpr typeName) (hlist (List.Subset.refl _))
  | methodDecl c | functionDecl c =>
    have hparameters : c.parameters.map g = c.parameters.map f := hlist fun x hx => by simp [ids, children, hx]
    have hbody : c.body.map g = c.body.map f := hoption fun x hx => by simp [ids, children, hx]
    simp only [map, hparameters, hbody]
  | variableDecl l | parameterDecl l =>
    have hinitializer : l.initializer.map g = l.initializer.map f := hoption (List.Subset.refl _)
    simp only [map, hinitializer]
  | returnStatement => exact congrArg returnStatement (hoption (List.Subset.refl _))
  | forStatement i c n b | ifStatement i c n b =>
    have hi : i.map g = i.map f := hoption fun x hx => by simp [ids, children, hx]
    have hc : c.map g = c.map f := hoption fun x hx => by simp [ids, children, hx]
    have hn : n.map g = n.map f := hoption fun x hx => by simp [ids, children, hx]
    have hb : b.map g = b.map f := hoption fun x hx => by simp [ids, children, hx]
    simp only [map, hi, hc, hn, hb]
  | whileStatement c b | catchClause c b | binaryOp _ c b =>
    have hc : c.map g = c.map f := hoption fun x hx => by simp [ids, children, hx]
    have hb : b.map g = b.map f := hoption fun x hx => by simp [ids, children, hx]
    simp only [map, hc, hb]
  | tryStatement c b | call c b =>
    have hc : c.map g = c.map f := hoption fun x hx => by simp [ids, children, hx]
    have hb : b.map g = b.map f := hlist fun x hx => by simp [ids, children, hx]
    simp only [map, hc, hb]

namespace Matches

theorem kind_eq (h : p.Matches f q) : q.kind = p.kind := by
  cases h with
  | same => exact kind_map f p
  | _ => rfl

theorem opens?_eq (h : p.Matches f q) : q.opens? = p.opens? := by
  cases h with
  | same => cases p <;> rfl
  | _ => rfl

theorem typeName?_eq (h : p.Matches f q) : q.typeName? = p.typeName? := by
  cases h with
  | same => cases p <;> rfl
  | _ => rfl

theorem isInstanceField_eq (h : p.Matches f q) : q.isInstanceField = p.isInstanceField := by
  cases h with
  | same => cases p <;> rfl
  | _ => rfl

theorem resolution?_eq (h : p.Matches f q) : q.resolution? = p.resolution?.map (Resolution.map f) := by
  cases h with
  | same => cases p <;> rfl
  | _ => rfl

theorem children_perm (h : p.Matches f q) : (p.children.map f).Perm q.children := by
  cases h with
  | same => rw [children_map]
  | recordDecl order =>
    rw [children_recordDecl, children_recordDecl, List.map_append]
    refine order.append ?_
    simp [Record.implicitFields, Record.map, Option.toList_map, Function.comp_def]
  | translationUnit order | compound order | declStatement order => exact order

theorem members_perm (h : p.Matches f q) : (p.members.map f).Perm q.members := by
  cases h with
  | same => rw [members_map]
  | recordDecl order => exact order
  | _ => exact .nil

theorem slots_perm (h : p.Matches f q) :
    (p.slots.map fun s => { s with child := f s.child }).Perm q.slots := by
  cases h with
  | same => rw [slots_map]
  | recordDecl order =>
    have hslots := order.map fun c => ({ child := c, allowed := some memberKinds } : Slot)
    simpa [slots, Slot.only, Function.comp_def] using hslots
  | translationUnit order | compound order | declStatement order =>
    have hslots := order.map fun c => ({ child := c } : Slot)
    simpa [slots, Slot.free, Function.comp_def] using hslots

theorem of_reference {r : Resolution} (h : (Payload.reference r).Matches f q) : q = .reference (r.map f) := by
  cases h
  rfl

theorem of_member {a : Access} (h : (Payload.member a).Matches f q) : q = .member (a.map f) := by
  cases h
  rfl

theorem of_field {d : Field} (h : (Payload.fieldDecl d).Matches f q) :
    q = .fieldDecl { d with record := d.record.map f, initializer := d.initializer.map f } := by
  cases h
  rfl

theorem of_record {r : Record} (h : (Payload.recordDecl r).Matches f q) :
    ∃ ms, (r.members.map f).Perm ms ∧ q = .recordDecl { r.map f with members := ms } := by
  cases h with
  | same => exact ⟨_, .refl _, rfl⟩
  | recordDecl order => exact ⟨_, order, rfl⟩

theorem congr (h : p.Matches f q) (hg : ∀ x ∈ p.ids, g x = f x) : p.Matches g q := by
  have hlist : ∀ {xs : List NodeId}, xs ⊆ p.ids → xs.map f = xs.map g :=
    fun hxs => List.map_congr_left fun x hx => (hg x (hxs hx)).symm
  cases h with
  | same => exact map_congr hg ▸ .same p
  | translationUnit order => exact .translationUnit (hlist (List.Subset.refl _) ▸ order)
  | compound order => exact .compound (hlist (List.Subset.refl _) ▸ order)
  | declStatement order => exact .declStatement (hlist (List.Subset.refl _) ▸ order)
  | @recordDecl r ms order =>
    have hr : r.map g = r.map f := Payload.recordDecl.inj (map_congr hg)
    rw [← hr]
    refine .recordDecl (hlist (fun x hx => ?_) ▸ order)
    simp [ids, children, hx]

theorem comp (h : p.Matches f q) (h' : q.Matches g s) : p.Matches (g ∘ f) s := by
  have horder : ∀ {xs ys zs : List NodeId}, (xs.map f).Perm ys → (ys.map g).Perm zs → (xs.map (g ∘ f)).Perm zs := by
    intro xs ys zs hxs hys
    rw [← List.map_map]
    exact (hxs.map g).trans hys
  have hrecord : ∀ r : Record, (r.map f).map g = r.map (g ∘ f) :=
    fun r => Payload.recordDecl.inj (map_comp f g (.recordDecl r))
  cases h with
  | same =>
    cases p with
    | translationUnit ds =>
      cases h' with
      | same => exact map_comp f g _ ▸ .same _
      | translationUnit order => exact .translationUnit (horder (.refl _) order)
    | recordDecl r =>
      obtain ⟨ms, order, rfl⟩ := h'.of_record
      rw [hrecord]
      exact .recordDecl (horder (.refl _) order)
    | compound ss =>
      cases h' with
      | same => exact map_comp f g _ ▸ .same _
      | compound order => exact .compound (horder (.refl _) order)
    | declStatement ds =>
      cases h' with
      | same => exact map_comp f g _ ▸ .same _
      | declStatement order => exact .declStatement (horder (.refl _) order)
    | _ =>
      cases h'
      exact map_comp f g _ ▸ .same _
  | translationUnit order =>
    cases h' with
    | same => exact .translationUnit (horder order (.refl _))
    | translationUnit order' => exact .translationUnit (horder order order')
  | @recordDecl r ms order =>
    obtain ⟨ms', order', rfl⟩ := h'.of_record
    change (Payload.recordDecl r).Matches _ (.recordDecl { (r.map f).map g with members := ms' })
    rw [hrecord]
    exact .recordDecl (horder order order')
  | compound order =>
    cases h' with
    | same => exact .compound (horder order (.refl _))
    | compound order' => exact .compound (horder order order')
  | declStatement order =>
    cases h' with
    | same => exact .declStatement (horder order (.refl _))
    | declStatement order' => exact .declStatement (horder order order')

end Matches

end

end Payload

def Node.ids (n : Node) : List NodeId := n.id :: (n.parent.toList ++ n.payload.ids)

/-- The node under another numbering, with its lists in another order maybe. -/
structure Node.Matches (f : NodeId → NodeId) (n n' : Node) : Prop where
  id : n'.id = f n.id
  name : n'.name = n.name
  region : n'.region = n.region
  parent : n'.parent = n.parent.map f
  payload : n.payload.Matches f n'.payload

namespace Node.Matches
variable {f g : NodeId → NodeId} {n n' n'' : Node}

theorem kind_eq (h : n.Matches f n') : n'.kind = n.kind := h.payload.kind_eq

theorem comp (h : n.Matches f n') (h' : n'.Matches g n'') : n.Matches (g ∘ f) n'' where
  id := h'.id.trans (congrArg g h.id)
  name := h'.name.trans h.name
  region := h'.region.trans h.region
  parent := by rw [h'.parent, h.parent, Option.map_map]
  payload := h.payload.comp h'.payload

/-- The numbering matters only where the node holds ids. -/
theorem congr (h : n.Matches f n') (hg : ∀ x ∈ n.ids, g x = f x) : n.Matches g n' where
  id := h.id.trans (hg n.id (List.mem_cons_self ..)).symm
  name := h.name
  region := h.region
  parent := h.parent.trans (Option.map_congr fun p hp => (hg p (by simp [ids, Option.mem_def.mp hp])).symm)
  payload := h.payload.congr fun x hx => hg x (by simp [ids, hx])

/-- Records that match still do when what is filled in matches. -/
theorem filled {r r' r₁ r₁' : Record} (hm : n.Matches g n') (hr : n.payload = .recordDecl r)
    (hr' : n'.payload = .recordDecl r') (hsame : r₁.kind = r.kind ∧ r₁.members = r.members)
    (hsame' : r₁'.kind = r'.kind ∧ r₁'.members = r'.members)
    (hfilled : r₁'.enclosing = r₁.enclosing.map g ∧ r₁'.implicitThis = r₁.implicitThis.map g ∧
      r₁'.implicitOuter = r₁.implicitOuter.map fun o => ⟨g o.record, g o.field⟩) :
    ({ n with payload := .recordDecl r₁ } : Node).Matches g { n' with payload := .recordDecl r₁' } := by
  refine ⟨hm.id, hm.name, hm.region, hm.parent, ?_⟩
  have hpayload := hm.payload
  rw [hr] at hpayload
  obtain ⟨ms, order, hmap⟩ := hpayload.of_record
  have hr'' : r' = { r.map g with members := ms } := Payload.recordDecl.inj (hr'.symm.trans hmap)
  have heq : r₁' = { r₁.map g with members := ms } := by
    obtain ⟨kind, members, enclosing, this, outer⟩ := r₁'
    simp only [Record.map, Record.mk.injEq]
    have hkind : kind = r₁.kind := hsame'.1.trans ((congrArg Record.kind hr'').trans hsame.1.symm)
    exact ⟨hkind, hsame'.2.trans (congrArg Record.members hr''), hfilled⟩
  rw [heq]
  exact .recordDecl (hsame.2 ▸ order)

end Node.Matches

namespace Tree

/-- Nothing that a node holds points nowhere. -/
def Closed (t : Tree) : Prop := ∀ {x n}, t.get? x = some n → ∀ y ∈ n.ids, ∃ m, t.get? y = some m

/-- The tree under another numbering, with its lists in another order maybe. -/
structure Matches (f : NodeId → NodeId) (t t' : Tree) : Prop where
  root : t'.root = t.root.map f
  node : ∀ {x n}, t.get? x = some n → ∃ n', t'.get? (f x) = some n' ∧ n.Matches f n'
  inj : ∀ {x y n m}, t.get? x = some n → t.get? y = some m → f x = f y → x = y
  onto : ∀ {x' n'}, t'.get? x' = some n' → ∃ x n, t.get? x = some n ∧ f x = x'

namespace Matches
variable {languages : Set String} {f g : NodeId → NodeId} {t t' t'' : Tree} {a x y : NodeId} {n n' m : Node}

/-- What a node matches. -/
theorem matches_of_get? (h : t.Matches f t') (hn : t.get? x = some n) (hn' : t'.get? (f x) = some n') :
    n.Matches f n' := by
  obtain ⟨m, hm, hmatch⟩ := h.node hn
  rw [hn'] at hm
  cases hm
  exact hmatch

/-- A node of the other tree is matched by one. -/
theorem exists_of_get? (h : t.Matches f t') (hn' : t'.get? y = some n') :
    ∃ x n, f x = y ∧ t.get? x = some n ∧ n.Matches f n' := by
  obtain ⟨x, n, hn, rfl⟩ := h.onto hn'
  exact ⟨x, n, rfl, hn, h.matches_of_get? hn hn'⟩

theorem kind?_eq (h : t.Matches f t') (hn : t.get? x = some n) : t'.kind? (f x) = t.kind? x := by
  obtain ⟨n', hn', hm⟩ := h.node hn
  rw [kind?, kind?, hn, hn', Option.map_some, Option.map_some, hm.kind_eq]

theorem resolution?_eq (h : t.Matches f t') (hn : t.get? x = some n) :
    t'.resolution? (f x) = (t.resolution? x).map (Resolution.map f) := by
  obtain ⟨n', hn', hm⟩ := h.node hn
  rw [resolution?, resolution?, hn, hn', Option.bind_some, Option.bind_some, hm.payload.resolution?_eq]

theorem nameOf_eq (h : t.Matches f t') (hn : t.get? x = some n) : t'.nameOf (f x) = t.nameOf x := by
  obtain ⟨n', hn', hm⟩ := h.node hn
  rw [nameOf, nameOf, name?, name?, hn, hn', Option.map_some, Option.map_some, hm.name]

theorem lineage (h : t.Matches f t') {above : List NodeId} (hl : t.Lineage x above) :
    t'.Lineage (f x) (above.map f) := by
  induction hl with
  | top hn hp =>
    obtain ⟨n', hn', hm⟩ := h.node hn
    exact .top hn' (by rw [hm.parent, hp, Option.map_none])
  | under hn hp _ ih =>
    obtain ⟨n', hn', hm⟩ := h.node hn
    exact .under hn' (by rw [hm.parent, hp, Option.map_some]) ih

theorem ancestors_eq (h : t.Matches f t') (ht : t.WellFormed) (hn : t.get? x = some n) :
    t'.ancestors (f x) = (t.ancestors x).map f :=
  (h.lineage (ht.lineage_ancestors hn)).ancestors_eq

theorem enclosingRecords_eq (h : t.Matches f t') (ht : t.WellFormed) (hn : t.get? x = some n) :
    t'.enclosingRecords (f x) = (t.enclosingRecords x).map f := by
  rw [enclosingRecords, enclosingRecords, h.ancestors_eq ht hn, List.filter_map]
  congr 1
  refine List.filter_congr fun a ha => ?_
  obtain ⟨k, hk⟩ := ht.exists_of_mem_ancestors ha
  rw [Function.comp_apply, h.kind?_eq hk]

theorem qualify_eq (h : t.Matches f t') (separator : String) {outers : List NodeId}
    (houters : ∀ o ∈ outers, ∃ k, t.get? o = some k) (inner : String) :
    t'.qualify separator inner (outers.map f) = t.qualify separator inner outers := by
  induction outers generalizing inner with
  | nil => rfl
  | cons o outers ih =>
    obtain ⟨k, hk⟩ := houters o (by simp)
    rw [List.map_cons, qualify, qualify, h.nameOf_eq hk, ih fun q hq => houters q (List.mem_cons_of_mem _ hq)]

theorem qualifiedName_eq (h : t.Matches f t') (ht : t.WellFormed) (separator : String) (hn : t.get? x = some n) :
    t'.qualifiedName separator (f x) = t.qualifiedName separator x := by
  rw [qualifiedName, qualifiedName, h.nameOf_eq hn, h.enclosingRecords_eq ht hn]
  exact h.qualify_eq separator (fun o ho => ht.exists_of_mem_ancestors (List.mem_of_mem_filter ho)) _

theorem isMemberHalf_iff (h : t.Matches f t') (ht : t.WellFormed) (hx : t.get? x = some m) :
    t'.IsMemberHalf (f x) ↔ t.IsMemberHalf x := by
  constructor
  · rintro ⟨e', n', a', hn', hp', ha'⟩
    obtain ⟨e, n, rfl, hn, hm⟩ := h.exists_of_get? hn'
    have hkind : n.kind = .member := by rw [← hm.kind_eq, Node.kind, hp']; rfl
    obtain ⟨_, _, _, _, payload⟩ := n
    cases payload with
    | member a =>
      have hpayload := hm.payload.of_member
      rw [hp'] at hpayload
      cases hpayload
      obtain ⟨y, hy, hxy⟩ := Option.map_eq_some_iff.mp ha'
      obtain ⟨k, hk, -⟩ := ht.parent_of_child hn (Binding.member_mem_children rfl hy)
      exact ⟨e, _, a, hn, rfl, h.inj hk hx hxy ▸ hy⟩
    | _ => cases hkind
  · rintro ⟨e, n, a, hn, hp, ha⟩
    obtain ⟨n', hn', hm⟩ := h.node hn
    have hpayload := hm.payload
    rw [hp] at hpayload
    exact ⟨f e, n', a.map f, hn', hpayload.of_member, by rw [Access.map, ha, Option.map_some]⟩

theorem roleOf_eq (h : t.Matches f t') (ht : t.WellFormed) (hn : t.get? x = some n) :
    t'.roleOf (f x) = t.roleOf x := by
  obtain ⟨n', hn', hm⟩ := h.node hn
  simp only [roleOf, hn, hn', Option.bind_some, hm.parent]
  cases hp : n.parent with
  | none => rfl
  | some p =>
    obtain ⟨k, hk, -⟩ := ht.child_of_parent hn hp
    obtain ⟨k', hk', hkm⟩ := h.node hk
    simp only [Option.map_some, Option.bind_some, hk, hk']
    obtain ⟨_, _, _, _, payload⟩ := k
    have hpayload := hkm.payload
    cases payload with
    | call callee arguments =>
      have hcall : k'.payload = .call (callee.map f) (arguments.map f) := by
        generalize k'.payload = q at hpayload
        cases hpayload
        rfl
      rw [hcall, Payload.roleOf, Payload.roleOf]
      refine if_congr ?_ rfl rfl
      cases callee with
      | none => simp
      | some c =>
        obtain ⟨b, hb, -⟩ := ht.parent_of_child hk (by simp [Node.children, Payload.children] : c ∈ _)
        simp only [Option.map_some, Option.some.injEq]
        exact ⟨h.inj hb hn, congrArg f⟩
    | _ =>
      have hkind := hkm.kind_eq
      generalize k'.payload = q at hpayload
      cases hpayload <;> rfl

end Matches
end Tree
end NameResolution
