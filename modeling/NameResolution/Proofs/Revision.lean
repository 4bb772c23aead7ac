import NameResolution.Proofs.Respects

/-!
# What a pass revises

A pass adds nodes and revises few of those that are there, however it ends and whatever the tree: ids may be shared or
point nowhere. `Tree.Revises` says what may come of every single node.
-/
namespace NameResolution.Tree

/-- The name `x` came to the tree as a part of the access `id`. -/
def IsNewPart (t t' : Tree) (id x : NodeId) : Prop :=
  t.get? x = none ∧ ∃ k, t'.get? x = some k ∧ k.parent = some id ∧ k.kind.isReference = true

/-- On the way from `t` to `t'` the node `id`, which held the first payload, came to hold the second. -/
inductive Revised (t t' : Tree) (id : NodeId) : Payload → Payload → Prop
  | kept (p : Payload) : Revised t t' id p p
  | filled (r : Record) (enclosing this : Option NodeId) (outers : List OuterInstance) :
      Revised t t' id (.recordDecl r)
        (.recordDecl { r with enclosing := enclosing, implicitThis := this, implicitOuter := outers })
  | rebound (r r' : Resolution) : Revised t t' id (.reference r) (.reference r')
  | reboundAccess (a : Access) (r : Resolution) :
      Revised t t' id (.member a) (.member { a with resolution := r })
  | writtenOut (r r' : Resolution) {base member : NodeId} (distinct : base ≠ member)
      (base_new : t.IsNewPart t' id base) (member_new : t.IsNewPart t' id member) :
      Revised t t' id (.reference r)
        (.member { base := some base, member := some member, implicitBase := true, resolution := r' })

/-- What comes to a tree: implicit fields, and the parts of accesses that were written out. Such a part is a plain name, or
one that was written out in turn. -/
inductive Added (t t' : Tree) (id : NodeId) (n : Node) : Prop
  | field {record : NodeId} {name typeName : String} (eq : n = implicitNode id record name typeName)
  | part {x : NodeId} {k : Node} {a : Access} {r : Resolution} (access : t'.get? x = some k)
      (payload : k.payload = .member a) (written : a.implicitBase = true)
      (part : a.base = some id ∨ a.member = some id) (parent : n.parent = some x) (region : n.region = k.region)
      (revised : Revised t t' id (.reference r) n.payload)

/-- What a pass that leaves `t'` may make of the tree `t`. -/
structure Revises (t t' : Tree) : Prop where
  root : t'.root = t.root
  old : ∀ {id n}, t.get? id = some n → ∃ p, t'.get? id = some { n with payload := p } ∧ Revised t t' id n.payload p
  new : ∀ {id n}, t.get? id = none → t'.get? id = some n → Added t t' id n

variable {t t' t'' : Tree} {id x : NodeId} {n : Node} {p q s : Payload}

theorem Revised.kind_isReference (h : Revised t t' id p q) : q.kind.isReference = p.kind.isReference := by
  cases h <;> rfl

theorem Revises.get?_eq_none (h : t.Revises t') (hn : t'.get? id = none) : t.get? id = none := by
  cases hm : t.get? id with
  | none => rfl
  | some m =>
    obtain ⟨p, hp, -⟩ := h.old hm
    rw [hn] at hp
    cases hp

theorem IsNewPart.after (h : t.Revises t') (hx : t'.IsNewPart t'' id x) : t.IsNewPart t'' id x :=
  ⟨h.get?_eq_none hx.1, hx.2⟩

theorem IsNewPart.before (h : t'.Revises t'') (hx : t.IsNewPart t' id x) : t.IsNewPart t'' id x := by
  obtain ⟨hfresh, k, hk, hparent, href⟩ := hx
  obtain ⟨p, hp, hrevised⟩ := h.old hk
  exact ⟨hfresh, _, hp, hparent, hrevised.kind_isReference.trans href⟩

theorem Revised.trans (h : t.Revises t') (h' : t'.Revises t'') (hp : Revised t t' id p q)
    (hq : Revised t' t'' id q s) : Revised t t'' id p s := by
  cases hp with
  | kept =>
    cases hq with
    | kept => exact .kept _
    | filled r enclosing this outers => exact .filled r enclosing this outers
    | rebound r r' => exact .rebound r r'
    | reboundAccess a r => exact .reboundAccess a r
    | writtenOut r r' distinct base member => exact .writtenOut r r' distinct (base.after h) (member.after h)
  | filled r enclosing this outers =>
    cases hq with
    | kept => exact .filled r enclosing this outers
    | filled _ enclosing' this' outers' => exact .filled r enclosing' this' outers'
  | rebound r r' =>
    cases hq with
    | kept => exact .rebound r r'
    | rebound _ r'' => exact .rebound r r''
    | writtenOut _ r'' distinct base member => exact .writtenOut r r'' distinct (base.after h) (member.after h)
  | reboundAccess a r =>
    cases hq with
    | kept => exact .reboundAccess a r
    | reboundAccess _ r' => exact .reboundAccess a r'
  | writtenOut r r' distinct base member =>
    cases hq with
    | kept => exact .writtenOut r r' distinct (base.before h') (member.before h')
    | reboundAccess _ r'' => exact .writtenOut r r'' distinct (base.before h') (member.before h')

/-- What came first and was revised later has come. -/
theorem Added.before (h : t.Revises t') (h' : t'.Revises t'') (ha : Added t t' id n)
    (hq : Revised t' t'' id n.payload q) : Added t t'' id { n with payload := q } := by
  cases ha with
  | field eq =>
    subst eq
    cases hq
    exact .field rfl
  | part access payload written part parent region revised =>
    obtain ⟨p, hp, hrevised⟩ := h'.old access
    rw [payload] at hrevised
    cases hrevised with
    | kept => exact .part hp rfl written part parent region (revised.trans h h' hq)
    | reboundAccess _ r => exact .part hp rfl written part parent region (revised.trans h h' hq)

theorem Added.after (h : t.Revises t') (h' : t'.Revises t'') (ha : Added t' t'' id n) : Added t t'' id n := by
  cases ha with
  | field eq => exact .field eq
  | part access payload written part parent region revised =>
    exact .part access payload written part parent region (Revised.trans h h' (.kept _) revised)

theorem Revises.refl (t : Tree) : t.Revises t := by
  constructor
  case root => rfl
  case old => exact fun {_ n} hn => ⟨n.payload, hn, .kept _⟩
  case new =>
    intro id n hnone hn
    rw [hnone] at hn
    cases hn

theorem Revises.trans (h : t.Revises t') (h' : t'.Revises t'') : t.Revises t'' := by
  constructor
  case root => exact h'.root.trans h.root
  case old =>
    intro id n hn
    obtain ⟨p, hp, hrevised⟩ := h.old hn
    obtain ⟨q, hq, hrevised'⟩ := h'.old hp
    exact ⟨q, hq, hrevised.trans h h' hrevised'⟩
  case new =>
    intro id n hnone hn
    cases hm : t'.get? id with
    | none => exact (h'.new hm hn).after h h'
    | some m =>
      obtain ⟨q, hq, hrevised⟩ := h'.old hm
      rw [hn] at hq
      cases hq
      exact (h.new hnone hm).before h h' hrevised

theorem revises_addImplicitField (t : Tree) (record : NodeId) (name typeName : String) :
    t.Revises (t.addImplicitField record name typeName).2 := by
  constructor
  case root => rfl
  case old =>
    intro id n hn
    refine ⟨n.payload, ?_, .kept _⟩
    rw [get?_addImplicitField, if_neg (ne_nextId_of_get? hn), hn]
  case new =>
    intro id n hnone hn
    rw [get?_addImplicitField] at hn
    split at hn
    case isTrue hid =>
      cases hn
      subst hid
      exact .field rfl
    case isFalse =>
      rw [hnone] at hn
      cases hn

/-- To change what single nodes hold is to revise them. -/
theorem revises_modify {f : Node → Node}
    (hf : ∀ n, ∃ p, f n = { n with payload := p } ∧ ∀ t t' : Tree, Revised t t' id n.payload p) :
    t.Revises (t.modify id f) := by
  constructor
  case root => rfl
  case old =>
    intro j n hn
    rw [get?_modify, hn]
    split
    case isTrue hj =>
      subst hj
      obtain ⟨p, hp, hrevised⟩ := hf n
      exact ⟨p, congrArg some hp, hrevised _ _⟩
    case isFalse => exact ⟨n.payload, rfl, .kept _⟩
  case new =>
    intro j n hnone hn
    rw [get?_modify, hnone, Option.map_none, ite_self] at hn
    cases hn

theorem revised_bind (p : Payload) (r : Resolution) : Revised t t' id p (p.bind r) := by
  cases p with
  | reference r₀ => exact .rebound r₀ r
  | member a => exact .reboundAccess a r
  | _ => exact .kept _

/-- The two names that are written below a plain name are its parts. -/
theorem isNewPart_writeOutAccess (hn : t.get? id = some n) (base : String) (baseTo memberTo : Resolution) :
    t.IsNewPart (t.writeOutAccess id base baseTo memberTo) id t.nextId ∧
      t.IsNewPart (t.writeOutAccess id base baseTo memberTo) id ⟨t.size + 1⟩ := by
  obtain ⟨hbase, hmember⟩ := nodes_of_writeOutAccess base baseTo memberTo hn
  exact ⟨⟨get?_nextId t, _, hbase, rfl, rfl⟩, get?_eq_none_iff.mpr (Nat.le_succ _), _, hmember, rfl, rfl⟩

theorem revises_writeOutAccess {r : Resolution} (hn : t.get? id = some n) (hp : n.payload = .reference r)
    (base : String) (baseTo memberTo : Resolution) : t.Revises (t.writeOutAccess id base baseTo memberTo) := by
  have hget := get?_writeOutAccess base baseTo memberTo hn
  obtain ⟨hbase, hmember⟩ := isNewPart_writeOutAccess hn base baseTo memberTo
  have haccess := (hget id).trans (if_pos rfl)
  constructor
  case root => exact root_writeOutAccess base baseTo memberTo hn
  case old =>
    intro j m hm
    by_cases hj : j = id
    · subst hj
      rw [hn] at hm
      cases hm
      exact ⟨_, haccess, hp ▸ .writtenOut r memberTo (succ_size_ne_nextId t).symm hbase hmember⟩
    · refine ⟨m.payload, ?_, .kept _⟩
      rw [hget, if_neg hj, if_neg (ne_nextId_of_get? hm), if_neg (ne_succ_size_of_get? hm), hm]
  case new =>
    intro j m hnone hm
    rw [hget] at hm
    by_cases hj : j = id
    · rw [hj, hn] at hnone
      cases hnone
    · rw [if_neg hj] at hm
      by_cases hnext : j = t.nextId
      · rw [if_pos hnext] at hm
        cases hm
        exact .part haccess rfl rfl (.inl (hnext ▸ rfl)) rfl rfl (.kept (.reference baseTo))
      · rw [if_neg hnext] at hm
        by_cases hlast : j = ⟨t.size + 1⟩
        · rw [if_pos hlast] at hm
          cases hm
          exact .part haccess rfl rfl (.inr (hlast ▸ rfl)) rfl rfl (.kept (.reference memberTo))
        · rw [if_neg hlast, hnone] at hm
          cases hm

theorem respects_revises : Respects Revises where
  refl := .refl
  trans := .trans
  add {t record _} _ := revises_addImplicitField t record
  fill t id f os := by
    refine revises_modify fun n => ?_
    obtain ⟨nid, name, region, parent, payload⟩ := n
    cases payload with
    | recordDecl r => exact ⟨_, rfl, fun _ _ => .filled r _ _ _⟩
    | _ => exact ⟨_, rfl, fun _ _ => .kept _⟩
  bind t id r := revises_modify fun n => ⟨_, rfl, fun _ _ => revised_bind n.payload r⟩
  write hn hp base baseTo memberTo := revises_writeOutAccess hn hp base baseTo memberTo

/-- However a pass ends, whatever the tree and wherever the walks are cut off, the root stays, every node keeps its id,
name, region and parent, and what nodes hold changes only in what records enclose, in resolutions, and where plain names
are written out. What comes to the tree is an implicit field or a name of the latter. -/
theorem revises_resolve (t : Tree) (config : Config) (limit : Tree → Nat) : t.Revises (t.resolve config limit).tree :=
  respects_revises.resolve t config limit

end NameResolution.Tree
