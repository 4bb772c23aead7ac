import NameResolution.Proofs.Registration.Effects

/-!
# Supplying records with implicit members

A record that registration has not been at gets new fields, one for `this` and one for every record around
it. A record that has its implicit members keeps them, and only has them declared again. Either way the
record is supplied afterwards, and nothing else in the tree has changed.
-/
namespace NameResolution

namespace Tree

/-- `t'` is `t` with the given implicit fields of a record beside it. -/
structure AddsFields (record : NodeId) (fields : List NodeId) (t t' : Tree) : Prop where
  root : t'.root = t.root
  kept : ∀ {j n}, t.get? j = some n → t'.get? j = some n
  fresh : ∀ f ∈ fields, t.get? f = none
  field : ∀ f ∈ fields, ∃ name typeName, t'.get? f = some (implicitNode f record name typeName)
  only : ∀ {j n}, t'.get? j = some n → t.get? j = some n ∨ j ∈ fields
  nodup : fields.Nodup

namespace AddsFields
variable {record : NodeId} {fields fields' : List NodeId} {t t₁ t₂ : Tree}

theorem nothing (record : NodeId) (t : Tree) : t.AddsFields record [] t :=
  ⟨rfl, id, by simp, by simp, .inl, .nil⟩

theorem single (t : Tree) (record : NodeId) (name typeName : String) :
    t.AddsFields record [t.nextId] (t.addImplicitField record name typeName).2 := by
  refine ⟨rfl, fun hn => ?_, ?_, ?_, fun {j n} hn => ?_, List.nodup_singleton _⟩
  · rw [get?_addImplicitField, if_neg (ne_nextId_of_get? hn), hn]
  · intro f hf
    rw [List.mem_singleton.mp hf, get?_nextId]
  · intro f hf
    rw [List.mem_singleton.mp hf, get?_addImplicitField, if_pos rfl]
    exact ⟨name, typeName, rfl⟩
  · rw [get?_addImplicitField] at hn
    by_cases hj : j = t.nextId
    · exact .inr (by simp [hj])
    · rw [if_neg hj] at hn
      exact .inl hn

theorem trans (h : t.AddsFields record fields t₁) (h' : t₁.AddsFields record fields' t₂) :
    t.AddsFields record (fields ++ fields') t₂ := by
  have hfresh : ∀ f ∈ fields', t.get? f = none := by
    intro f hf
    cases hn : t.get? f with
    | none => rfl
    | some n => simpa [h.kept hn] using h'.fresh f hf
  refine ⟨h'.root.trans h.root, fun hn => h'.kept (h.kept hn), ?_, ?_, fun {j n} hn => ?_, ?_⟩
  · intro f hf
    rcases List.mem_append.mp hf with hf | hf
    · exact h.fresh f hf
    · exact hfresh f hf
  · intro f hf
    rcases List.mem_append.mp hf with hf | hf
    · obtain ⟨name, typeName, hn⟩ := h.field f hf
      exact ⟨name, typeName, h'.kept hn⟩
    · exact h'.field f hf
  · rcases h'.only hn with hn | hf
    · rcases h.only hn with hn | hf
      · exact .inl hn
      · exact .inr (List.mem_append_left _ hf)
    · exact .inr (List.mem_append_right _ hf)
  · refine List.nodup_append.mpr ⟨h.nodup, h'.nodup, ?_⟩
    rintro f hf g hg rfl
    obtain ⟨_, _, hn⟩ := h.field f hf
    simpa [hn] using h'.fresh f hg

theorem toExtends (h : t.AddsFields record fields t₁) : t.Extends t₁ :=
  ⟨h.root, fun {_ n} hn => ⟨n, h.kept hn, .refl n⟩⟩

end AddsFields
end Tree

namespace Registration
open NameResolution.Tree ScopeTree

def outerEntry (separator : String) (t : Tree) (scope : ScopeId) (o : OuterInstance) : Entry :=
  ⟨scope, Text.joinPath separator (t.qualifiedName separator o.record) "this", o.field⟩

/-- The entries of the implicit members of a record. -/
def implicitEntries (separator : String) (t : Tree) (scope : ScopeId) (r : Record) : List Entry :=
  r.implicitThis.toList.map (fun f => ⟨scope, "this", f⟩) ++
    r.implicitOuter.map (outerEntry separator t scope)

theorem declaration_mem_implicitFields {separator : String} {t : Tree} {scope : ScopeId} {r : Record}
    {e : Entry} (he : e ∈ implicitEntries separator t scope r) : e.declaration ∈ r.implicitFields := by
  rcases List.mem_append.mp he with he | he
  · obtain ⟨f, hf, rfl⟩ := List.mem_map.mp he
    exact List.mem_append_left _ hf
  · obtain ⟨o, ho, rfl⟩ := List.mem_map.mp he
    exact List.mem_append_right _ (List.mem_map_of_mem ho)

theorem map_declaration_implicitEntries (separator : String) (t : Tree) (scope : ScopeId) (r : Record) :
    (implicitEntries separator t scope r).map Entry.declaration = r.implicitFields := by
  simp [implicitEntries, Record.implicitFields, outerEntry, Function.comp_def]

section
variable {config : Config} {id outer : NodeId} {record : Record} {s : ScopeId} {t : Tree} {p : Progress}

theorem implicitField_run_none (id : NodeId) (name typeName : String) (p : Progress) :
    (implicitField id none name typeName).run p =
      .ok p.tree.nextId { p with tree := (p.tree.addImplicitField id name typeName).2 } := rfl

theorem implicitField_run_some (id f : NodeId) (name typeName : String) (p : Progress) :
    (implicitField id (some f) name typeName).run p = .ok f p := rfl

theorem enter_run (scope : ScopeId) (name : String) (id : NodeId) (p : Progress) :
    (enter scope name id).run p = .ok () { p with scopes := p.scopes.declare scope name id } := rfl

section
variable (config id record)

/-- An outer record gets the field that `earlier` holds for it, or a new one. -/
theorem addOuter_run {f : NodeId} {t' : Tree} (ht : t.WellFormed) (hext : t.Extends p.tree) {n : Node}
    (hn : t.get? outer = some n) (hs : s.index < p.scopes.size)
    (hfield : (implicitField id
        ((record.implicitOuter.find? (·.record == outer)).map OuterInstance.field)
        (Text.joinPath config.separator (t.qualifiedName config.separator outer) "this")
        (t.qualifiedName config.separator outer)).run p = .ok f { p with tree := t' }) :
    (addOuter config id record s outer).run p =
      .ok ⟨outer, f⟩ { p with
        tree := t'
        scopes := p.scopes.declareAll [outerEntry config.separator t s ⟨outer, f⟩] } := by
  have hq := hext.qualifiedName_eq ht config.separator hn
  rw [addOuter, run_bind_ok (EStateM.run_get ..)]
  dsimp only
  rw [hq, run_bind_ok hfield, run_bind_ok (enter_run ..), EStateM.run_pure]
  rw [declare_eq_declareAll _ hs, outerEntry]

/-- Fields for outer instances are added one after another, named as they would be in the tree that the
walk began with. -/
theorem addOuters_run_bare (ht : t.WellFormed) (hbare : record.implicitOuter = [])
    {outers : List NodeId} (hex : ∀ o ∈ outers, ∃ n, t.get? o = some n) (hext : t.Extends p.tree)
    (hs : s.index < p.scopes.size) :
    ∃ os t', (outers.mapM (addOuter config id record s)).run p =
        .ok os { p with
          tree := t'
          scopes := p.scopes.declareAll (os.map (outerEntry config.separator t s)) } ∧
      os.map OuterInstance.record = outers ∧
      p.tree.AddsFields id (os.map OuterInstance.field) t' ∧
      ∀ o ∈ os, t'.get? o.field = some (implicitNode o.field id
        (Text.joinPath config.separator (t.qualifiedName config.separator o.record) "this")
        (t.qualifiedName config.separator o.record)) := by
  induction outers generalizing p with
  | nil => exact ⟨[], p.tree, by simp, rfl, .nothing id p.tree, by simp⟩
  | cons outer outers ih =>
    obtain ⟨n, hn⟩ := hex outer (by simp)
    have hadd := AddsFields.single p.tree id
      (Text.joinPath config.separator (t.qualifiedName config.separator outer) "this")
      (t.qualifiedName config.separator outer)
    have hfirst := addOuter_run config id record (p := p) ht hext hn hs
      (by rw [hbare, List.find?_nil, Option.map_none, implicitField_run_none])
    obtain ⟨os, t', hrun, hos, hadds, hnames⟩ := ih
      (p := { p with
        tree := _
        scopes := p.scopes.declareAll [outerEntry config.separator t s ⟨outer, p.tree.nextId⟩] })
      (fun o ho => hex o (List.mem_cons_of_mem _ ho)) (hext.trans hadd.toExtends) hs
    refine ⟨⟨outer, p.tree.nextId⟩ :: os, t', ?_, by rw [List.map_cons, hos], hadd.trans hadds, ?_⟩
    · rw [List.mapM_cons]
      rw [run_bind_ok hfirst, run_bind_ok hrun, EStateM.run_pure, declareAll_declareAll, List.map_cons,
        List.singleton_append]
    · intro o ho
      rcases List.mem_cons.mp ho with rfl | ho
      · apply hadds.kept
        rw [get?_addImplicitField, if_pos rfl]
      · exact hnames o ho

/-- A record that has its implicit members keeps them. -/
theorem addOuters_run_supplied (ht : t.WellFormed) (hext : t.Extends p.tree)
    (hnodup : (record.implicitOuter.map OuterInstance.record).Nodup)
    {os : List OuterInstance} (hos : os ⊆ record.implicitOuter)
    (hex : ∀ o ∈ os, ∃ n, t.get? o.record = some n) (hs : s.index < p.scopes.size) :
    ((os.map OuterInstance.record).mapM (addOuter config id record s)).run p =
      .ok os { p with scopes := p.scopes.declareAll (os.map (outerEntry config.separator t s)) } := by
  induction os generalizing p with
  | nil => simp
  | cons o os ih =>
    obtain ⟨n, hn⟩ := hex o (by simp)
    have ho : o ∈ record.implicitOuter := hos (by simp)
    have hfind : record.implicitOuter.find? (·.record == o.record) = some o := by
      cases hf : record.implicitOuter.find? (·.record == o.record) with
      | none => simpa using List.find?_eq_none.mp hf o ho
      | some x =>
        have hx : x.record = o.record := by simpa using List.find?_some hf
        rw [List.inj_on_of_nodup_map hnodup (List.mem_of_find?_eq_some hf) ho hx]
    have hfirst := addOuter_run config id record (p := p) ht hext hn hs
      (by rw [hfind, Option.map_some, implicitField_run_some])
    have hrest := ih
      (p := { p with scopes := p.scopes.declareAll [outerEntry config.separator t s o] }) hext
      (fun x hx => hos (List.mem_cons_of_mem _ hx)) (fun x hx => hex x (List.mem_cons_of_mem _ hx)) hs
    rw [List.map_cons, List.mapM_cons, run_bind_ok hfirst, run_bind_ok hrest, EStateM.run_pure,
      declareAll_declareAll, List.map_cons, List.singleton_append]

end

/-- What the walk makes of a record and its tree. The members of an earlier walk are kept, even if that was
made in another language. -/
inductive Supplies (separator : String) (id : NodeId) (n : Node) (r : Record) (t : Tree) :
    Record → Tree → Prop
  | reused {earlier : String} (supplied : t.Supplied earlier id r) : Supplies separator id n r t r t
  | added {r' : Record} {t₁ t₂ : Tree} (bare : r.IsBare) (kind : r'.kind = r.kind)
      (members : r'.members = r.members) (fields : t.AddsFields id r'.implicitFields t₁)
      (supplied : t₂.Supplied separator id r') (root : t₂.root = t.root)
      (node : ∀ j, t₂.get? j =
        if j = id then some { n with payload := .recordDecl r' } else t₁.get? j) :
      Supplies separator id n r t r' t₂

def filled (f : NodeId) (os : List OuterInstance) (r : Record) : Record :=
  { r with enclosing := os.head?.map OuterInstance.record, implicitThis := some f, implicitOuter := os }

/-- The walk over one record, once its fields are known. -/
theorem addImplicitMembers_run_of_fields (config : Config) (id : NodeId) (record : Record) {f : NodeId}
    {os : List OuterInstance} {t₁ t₂ : Tree} {qualified : String} (hs : s.index < p.scopes.size)
    (hthis : (implicitField id record.implicitThis "this" qualified).run p =
      .ok f { p with tree := t₁ })
    (houters : ((t₁.enclosingRecords id).mapM (addOuter config id record s)).run
        { p with tree := t₁, scopes := p.scopes.declareAll [⟨s, "this", f⟩] } =
      .ok os { p with
        tree := t₂
        scopes := (p.scopes.declareAll [⟨s, "this", f⟩]).declareAll
          (os.map (outerEntry config.separator t s)) }) :
    (addImplicitMembers config id record qualified s).run p =
      .ok () { p with
        tree := t₂.modify id fun n =>
          match n.payload with
          | .recordDecl r => { n with payload := .recordDecl (filled f os r) }
          | _ => n
        scopes := p.scopes.declareAll
          (implicitEntries config.separator t s (filled f os record)) } := by
  rw [addImplicitMembers, run_bind_ok hthis, run_bind_ok (enter_run ..),
    run_bind_ok (EStateM.run_get ..)]
  dsimp only
  rw [declare_eq_declareAll _ hs, run_bind_ok houters, declareAll_declareAll]
  rfl

/-- The nodes of a tree in which a record has been filled. -/
theorem get?_modify_filled {t : Tree} {n : Node} {r : Record} (hn : t.get? id = some n)
    (hp : n.payload = .recordDecl r) (f : NodeId) (os : List OuterInstance) (j : NodeId) :
    (t.modify id fun n =>
        match n.payload with
        | .recordDecl r => { n with payload := .recordDecl (filled f os r) }
        | _ => n).get? j =
      if j = id then some { n with payload := .recordDecl (filled f os r) } else t.get? j := by
  rw [get?_modify]
  by_cases hj : id = j
  · subst hj
    simp [hn, hp]
  · rw [if_neg hj, if_neg (Ne.symm hj)]

theorem addImplicitMembers_run_bare {n : Node} {r : Record} (h : p.tree.WellFormed)
    (hn : p.tree.get? id = some n) (hp : n.payload = .recordDecl r) (hbare : r.IsBare)
    (hs : s.index < p.scopes.size) :
    ∃ r' t', (addImplicitMembers config id r (p.tree.qualifiedName config.separator id) s).run p =
        .ok () { p with
          tree := t'
          scopes := p.scopes.declareAll (implicitEntries config.separator p.tree s r') } ∧
      Supplies config.separator id n r p.tree r' t' := by
  have hadd := AddsFields.single p.tree id "this" (p.tree.qualifiedName config.separator id)
  -- The records around `id` are the same with the field for `this` beside them.
  have hrecords := hadd.toExtends.enclosingRecords_eq h hn
  have hex : ∀ o ∈ p.tree.enclosingRecords id, ∃ m, p.tree.get? o = some m :=
    fun o ho => h.exists_of_mem_ancestors (List.mem_of_mem_filter ho)
  obtain ⟨os, t₂, houters, hos, hadds, hnames⟩ := addOuters_run_bare config id r
    (p := { p with tree := _, scopes := p.scopes.declareAll [⟨s, "this", p.tree.nextId⟩] })
    h hbare.2.2 hex hadd.toExtends hs
  rw [← hrecords] at houters
  have hrun := addImplicitMembers_run_of_fields config id r hs
    (by rw [hbare.2.1, implicitField_run_none]) houters
  have hall := hadd.trans hadds
  have hne : ∀ f, p.tree.get? f = none → f ≠ id := by
    rintro f hf rfl
    simp [hn] at hf
  have hnode := get?_modify_filled (hall.kept hn) hp p.tree.nextId os
  refine ⟨filled p.tree.nextId os r, _, hrun, .added hbare rfl rfl hall ?_ hall.root hnode⟩
  have hext : p.tree.Extends (t₂.modify id fun n =>
      match n.payload with
      | .recordDecl r => { n with payload := .recordDecl (filled p.tree.nextId os r) }
      | _ => n) := by
    refine ⟨hall.root, fun {j m} hm => ?_⟩
    rw [hnode]
    by_cases hj : j = id
    · subst hj
      rw [hn] at hm
      cases hm
      exact ⟨_, if_pos rfl, ⟨rfl, rfl, rfl, rfl, hp ▸ .filled rfl rfl⟩⟩
    · exact ⟨m, by rw [if_neg hj, hall.kept hm], .refl m⟩
  constructor
  case enclosing =>
    rw [hext.enclosingRecords_eq h hn, ← hos, List.head?_map]
    rfl
  case this =>
    refine ⟨p.tree.nextId, rfl, ?_⟩
    rw [hnode, if_neg (hne _ (get?_nextId _)), hext.qualifiedName_eq h _ hn]
    apply hadds.kept
    rw [get?_addImplicitField, if_pos rfl]
  case records => rw [hext.enclosingRecords_eq h hn, ← hos]; rfl
  case outer =>
    intro o ho
    have hfield : p.tree.get? o.field = none :=
      hall.fresh _ (List.mem_append_right _ (List.mem_map_of_mem ho))
    obtain ⟨m, hm⟩ := hex o.record (hos ▸ List.mem_map_of_mem ho)
    rw [hnode, if_neg (hne _ hfield), hext.qualifiedName_eq h _ hm]
    exact hnames o ho

theorem addImplicitMembers_run_supplied {earlier : String} {n : Node} {r : Record} (h : p.tree.WellFormed)
    (hn : p.tree.get? id = some n) (hp : n.payload = .recordDecl r)
    (hsup : p.tree.Supplied earlier id r) (hs : s.index < p.scopes.size) :
    (addImplicitMembers config id r (p.tree.qualifiedName config.separator id) s).run p =
      .ok () { p with
        scopes := p.scopes.declareAll (implicitEntries config.separator p.tree s r) } := by
  obtain ⟨f, hf, -⟩ := hsup.this
  have hnodup : (r.implicitOuter.map OuterInstance.record).Nodup := by
    rw [hsup.records]
    exact ((h.lineage_ancestors hn).nodup.of_cons).filter _
  have hex : ∀ o ∈ r.implicitOuter, ∃ m, p.tree.get? o.record = some m := by
    intro o ho
    have hmem : o.record ∈ p.tree.enclosingRecords id := hsup.records ▸ List.mem_map_of_mem ho
    exact h.exists_of_mem_ancestors (List.mem_of_mem_filter hmem)
  have houters := addOuters_run_supplied config id r
    (p := { p with scopes := p.scopes.declareAll [⟨s, "this", f⟩] }) h (.refl p.tree) hnodup
    (List.Subset.refl _) hex hs
  rw [hsup.records] at houters
  have hthis : (implicitField id r.implicitThis "this"
      (p.tree.qualifiedName config.separator id)).run p = .ok f p := by
    rw [hf, implicitField_run_some]
  have hrun := addImplicitMembers_run_of_fields config id r hs hthis houters
  have hfilled : filled f r.implicitOuter r = r := by
    rw [filled, ← hf, ← List.head?_map, hsup.records, ← hsup.enclosing]
  rw [hrun, hfilled, modify_eq_self hn]
  rw [hp]
  simp only
  rw [hfilled, ← hp]

theorem addImplicitMembers_run {languages : Set String} {n : Node} {r : Record}
    (h : p.tree.ProperIn languages) (hn : p.tree.get? id = some n) (hp : n.payload = .recordDecl r)
    (hs : s.index < p.scopes.size) :
    ∃ r' t', (addImplicitMembers config id r (p.tree.qualifiedName config.separator id) s).run p =
        .ok () { p with
          tree := t'
          scopes := p.scopes.declareAll (implicitEntries config.separator p.tree s r') } ∧
      Supplies config.separator id n r p.tree r' t' := by
  rcases h.record hn hp with hbare | ⟨_, -, hsup⟩
  · exact addImplicitMembers_run_bare h.toWellFormed hn hp hbare hs
  · exact ⟨r, p.tree, addImplicitMembers_run_supplied h.toWellFormed hn hp hsup hs, .reused hsup⟩

end

namespace Supplies
variable {separator : String} {id : NodeId} {n : Node} {r r' : Record} {t t' : Tree}

theorem exists_supplied (h : Supplies separator id n r t r' t') : ∃ earlier, t'.Supplied earlier id r' := by
  cases h with
  | reused h => exact ⟨_, h⟩
  | added _ _ _ _ h _ _ => exact ⟨_, h⟩

/-- In a tree of one language the members are those of that language. -/
theorem supplied (h : Supplies separator id n r t r' t') (ht : t.Proper separator) (hn : t.get? id = some n)
    (hp : n.payload = .recordDecl r) : t'.Supplied separator id r' := by
  cases h with
  | reused h =>
    rcases ht.bare_or_supplied hn hp with hbare | hsup
    · obtain ⟨f, hf, -⟩ := h.this
      simp [hbare.2.1] at hf
    · exact hsup
  | added _ _ _ _ h _ _ => exact h

/-- Either nothing changes, or the tree grows at a bare record. -/
theorem cases (h : Supplies separator id n r t r' t') (hn : t.get? id = some n)
    (hp : n.payload = .recordDecl r) :
    (r' = r ∧ t' = t) ∨ (r.IsBare ∧ t'.Supplied separator id r' ∧
      t.GrowsAt id n { n with payload := .recordDecl r' } r'.implicitFields t') := by
  cases h with
  | reused => exact .inl ⟨rfl, rfl⟩
  | added hbare hkind hmembers hfields hsup hroot hnode =>
    refine .inr ⟨hbare, hsup, hroot, hn, by rw [hnode, if_pos rfl],
      ⟨rfl, rfl, rfl, rfl, hp ▸ .filled hkind hmembers⟩, ?_, ?_, ?_, ?_, hfields.fresh, hfields.nodup⟩
    · simp [Node.children, hp, Payload.children_recordDecl, hbare.implicitFields_eq, hmembers]
    · intro j m hj hm
      rw [hnode, if_neg hj, hfields.kept hm]
    · intro j m hj hm
      rw [hnode, if_neg hj] at hm
      exact hfields.only hm
    · intro f hf
      obtain ⟨name, typeName, hm⟩ := hsup.implicit hf
      exact ⟨_, hm, rfl, rfl, rfl⟩

theorem self (h : Supplies separator id n r t r' t') (hn : t.get? id = some n)
    (hp : n.payload = .recordDecl r) :
    t'.get? id = some { n with payload := .recordDecl r' } := by
  rcases h.cases hn hp with ⟨rfl, rfl⟩ | ⟨-, -, hg⟩
  · rw [hn, ← hp]
  · exact hg.after

theorem kept (h : Supplies separator id n r t r' t') (hn : t.get? id = some n)
    (hp : n.payload = .recordDecl r) {j : NodeId} {m : Node} (hj : j ≠ id) (hm : t.get? j = some m) :
    t'.get? j = some m := by
  rcases h.cases hn hp with ⟨rfl, rfl⟩ | ⟨-, -, hg⟩
  · exact hm
  · exact hg.kept hj hm

theorem toExtends (h : Supplies separator id n r t r' t') (hn : t.get? id = some n)
    (hp : n.payload = .recordDecl r) : t.Extends t' := by
  rcases h.cases hn hp with ⟨rfl, rfl⟩ | ⟨-, -, hg⟩
  · exact .refl _
  · exact hg.toExtends

theorem keepsAllButRecords (h : Supplies separator id n r t r' t') (hn : t.get? id = some n)
    (hp : n.payload = .recordDecl r) : t.KeepsAllButRecords t' := by
  intro j m hm hk
  refine h.kept hn hp ?_ hm
  rintro rfl
  rw [hn] at hm
  cases hm
  exact hk (congrArg Payload.kind hp)

theorem nodup_fields (h : Supplies separator id n r t r' t') (ht : t.WellFormed)
    (hn : t.get? id = some n) (hp : n.payload = .recordDecl r) : r'.implicitFields.Nodup := by
  rcases h.cases hn hp with ⟨rfl, rfl⟩ | ⟨-, -, hg⟩
  · exact ht.nodup_implicitFields hn hp
  · exact hg.nodup

/-- A node that was not there is an implicit member of the record. -/
theorem only (h : Supplies separator id n r t r' t') (hn : t.get? id = some n)
    (hp : n.payload = .recordDecl r) {j : NodeId} {m : Node} (hj : j ≠ id) (hm : t'.get? j = some m) :
    t.get? j = some m ∨ t.get? j = none ∧ j ∈ r'.implicitFields := by
  rcases h.cases hn hp with ⟨rfl, rfl⟩ | ⟨-, -, hg⟩
  · exact .inl hm
  · rcases hg.only hj hm with hm | hf
    · exact .inl hm
    · exact .inr ⟨hg.fresh j hf, hf⟩

theorem properIn {languages : Set String} (h : Supplies separator id n r t r' t')
    (ht : t.ProperIn languages) (hlanguage : separator ∈ languages) (hn : t.get? id = some n)
    (hp : n.payload = .recordDecl r) : t'.ProperIn languages := by
  rcases h.cases hn hp with ⟨rfl, rfl⟩ | ⟨hbare, hsup, hg⟩
  · exact ht
  refine hg.properIn ht ?_ (by simp) ?_ ?_ ?_
  · intro hhalf
    obtain ⟨e, k, a, hk, hka, ham⟩ := hhalf
    obtain ⟨x, ρ, hx, hxp, -⟩ := ht.half hk hka ham
    rw [hn] at hx
    cases hx
    simp [hp] at hxp
  · intro q f hq hf
    rw [hp] at hq
    cases hq
    simp [hbare.implicitFields_eq] at hf
  · intro q hq
    cases hq
    exact .inr ⟨separator, hlanguage, hsup⟩
  · intro f m hf hm
    obtain ⟨name, typeName, hm'⟩ := hsup.implicit hf
    rw [hm] at hm'
    cases hm'
    exact .inr ⟨_, r', rfl, rfl, hf⟩

end Supplies

/-- The scope that a node opens, and the progress that leads to. -/
inductive Opens (config : Config) (id : NodeId) (n : Node) (scope : Option ScopeId) (p : Progress) :
    Option ScopeId → Progress → Prop
  | transparent (opens : n.payload.opens? = none) : Opens config id n scope p scope p
  | plain {kind : ScopeKind} (opens : n.payload.opens? = some kind)
      (notRecord : n.kind ≠ .recordDecl) :
      Opens config id n scope p (some ⟨p.scopes.size⟩)
        { p with scopes := (p.scopes.push kind id scope).2 }
  | record {r r' : Record} {t' : Tree} (payload : n.payload = .recordDecl r)
      (supplies : Supplies config.separator id n r p.tree r' t') :
      Opens config id n scope p (some ⟨p.scopes.size⟩)
        { p with
          tree := t'
          scopes := ((p.scopes.nameRecord (p.tree.qualifiedName config.separator id) id).push
              .record id scope).2.declareAll
            (implicitEntries config.separator p.tree ⟨p.scopes.size⟩ r') }

/-- Checks change nothing. -/
theorem checkSlots_run (owner : Node) (slots : List Slot) (p : Progress) :
    (slots.forM (checkSlot owner)).run p = .ok () p ∨
      ∃ e, (slots.forM (checkSlot owner)).run p = .error e p := by
  induction slots with
  | nil => exact .inl rfl
  | cons s slots ih =>
    rw [List.forM_eq_forM] at *
    rw [List.forM_cons]
    rcases checkSlot_run owner s p with h | ⟨e, h⟩
    · rw [run_bind_ok h]
      exact ih
    · exact .inr ⟨e, run_bind_error h _⟩

/-- The progress in which a record has its name and its scope, and no implicit members yet. -/
def Progress.opened (separator : String) (id : NodeId) (scope : Option ScopeId) (p : Progress) : Progress :=
  { p with scopes := ((p.scopes.nameRecord (p.tree.qualifiedName separator id) id).push .record id scope).2 }

section
variable {languages : Set String} (config : Config) {id : NodeId} {n : Node} {p : Progress}
  (scope : Option ScopeId)

/-- A record whose places pass their checks is entered. -/
theorem enterRecord_run_of_checked {r : Record} (h : p.tree.ProperIn languages)
    (hn : p.tree.get? id = some n) (hp : n.payload = .recordDecl r)
    (hc : (n.payload.slots.forM (checkSlot n)).run (p.opened config.separator id scope) =
      .ok () (p.opened config.separator id scope)) :
    ∃ s p', (enterRecord config id n r scope).run p = .ok s p' ∧ Opens config id n scope p (some s) p' := by
  have hs : (⟨p.scopes.size⟩ : ScopeId).index < (p.opened config.separator id scope).scopes.size := by
    simp only [Progress.opened, size_push]
    exact Nat.lt_succ_self _
  have hopen : (enterRecord config id n r scope).run p =
      (do
        n.payload.slots.forM (checkSlot n)
        addImplicitMembers config id r (p.tree.qualifiedName config.separator id) ⟨p.scopes.size⟩
        pure (⟨p.scopes.size⟩ : ScopeId) : Walk ScopeId).run (p.opened config.separator id scope) := rfl
  obtain ⟨r', t', hrun, hsup⟩ :=
    @addImplicitMembers_run config id ⟨p.scopes.size⟩ (p.opened config.separator id scope) _ n r h hn hp hs
  have hmembers : (addImplicitMembers config id r (p.tree.qualifiedName config.separator id)
      ⟨p.scopes.size⟩).run (p.opened config.separator id scope) = _ := hrun
  rw [hopen, run_bind_ok hc, run_bind_ok hmembers, EStateM.run_pure]
  exact ⟨_, _, rfl, .record hp hsup⟩

theorem enterRecord_run {r : Record} (h : p.tree.ProperIn languages)
    (hn : p.tree.get? id = some n) (hp : n.payload = .recordDecl r) :
    (∃ s p', (enterRecord config id n r scope).run p = .ok s p' ∧
      Opens config id n scope p (some s) p') ∨
      ∃ e p', (enterRecord config id n r scope).run p = .error e p' ∧ p'.tree = p.tree := by
  rcases checkSlots_run n n.payload.slots (p.opened config.separator id scope) with hc | ⟨e, hc⟩
  · exact .inl (enterRecord_run_of_checked config scope h hn hp hc)
  · exact .inr ⟨e, _, run_bind_error hc _, rfl⟩

theorem innerScope_of_record {r : Record} (hp : n.payload = .recordDecl r) :
    innerScope config id n scope = enterRecord config id n r scope >>= fun s => pure (some s) := by
  simp only [innerScope, hp]
  rw [← bind_pure_comp]

theorem innerScope_run_of_record {r : Record} {s : ScopeId} {p' : Progress} (hp : n.payload = .recordDecl r)
    (henter : (enterRecord config id n r scope).run p = .ok s p') :
    (innerScope config id n scope).run p = .ok (some s) p' := by
  rw [innerScope_of_record config scope hp]
  exact run_bind_ok henter _

theorem innerScope_run_of_transparent (p : Progress) (hopens : n.payload.opens? = none) :
    (innerScope config id n scope).run p = .ok scope p := by
  obtain ⟨_, _, _, _, payload⟩ := n
  cases payload <;> first | rfl | cases hopens

theorem innerScope_run_of_plain (p : Progress) {kind : ScopeKind} (hopens : n.payload.opens? = some kind)
    (hk : n.kind ≠ .recordDecl) : (innerScope config id n scope).run p =
      .ok (some ⟨p.scopes.size⟩) { p with scopes := (p.scopes.push kind id scope).2 } := by
  obtain ⟨_, _, _, _, payload⟩ := n
  cases payload <;> cases hopens <;> first | rfl | exact absurd rfl hk

theorem innerScope_run (h : p.tree.ProperIn languages) (hn : p.tree.get? id = some n) :
    (∃ inner p', (innerScope config id n scope).run p = .ok inner p' ∧
      Opens config id n scope p inner p') ∨
      ∃ e p', (innerScope config id n scope).run p = .error e p' ∧ p'.tree = p.tree := by
  rcases n.opens_cases with ⟨r, hp⟩ | hopens | ⟨kind, hopens, hk⟩
  · rcases enterRecord_run config scope h hn hp with ⟨s, p', hrun, ho⟩ | ⟨e, p', hrun, ht⟩
    · exact .inl ⟨some s, p', innerScope_run_of_record config scope hp hrun, ho⟩
    · rw [innerScope_of_record config scope hp]
      exact .inr ⟨e, p', run_bind_error hrun _, ht⟩
  · exact .inl ⟨_, _, innerScope_run_of_transparent config scope p hopens, .transparent hopens⟩
  · exact .inl ⟨_, _, innerScope_run_of_plain config scope p hopens hk, .plain hopens hk⟩

variable {config scope}

theorem tree_eq_of_innerScope_error {e : ResolveError} {p' : Progress} (hp : p.tree.ProperIn languages)
    (hn : p.tree.get? id = some n) (h : (innerScope config id n scope).run p = .error e p') : p'.tree = p.tree := by
  rcases innerScope_run config scope hp hn with ⟨inner, q, hr, -⟩ | ⟨e, q, hr, ht⟩
  · rw [h] at hr
    cases hr
  · rw [h] at hr
    cases hr
    exact ht

/-- What opening a scope comes down to. -/
theorem cases_of_innerScope_run {inner : Option ScopeId} {p' : Progress}
    (h : (innerScope config id n scope).run p = .ok inner p') :
    (∃ r s, n.payload = .recordDecl r ∧ inner = some s ∧ (enterRecord config id n r scope).run p = .ok s p') ∨
    (n.payload.opens? = none ∧ inner = scope ∧ p' = p) ∨
    ∃ kind, n.payload.opens? = some kind ∧ n.kind ≠ .recordDecl ∧ inner = some ⟨p.scopes.size⟩ ∧
      p' = { p with scopes := (p.scopes.push kind id scope).2 } := by
  rcases n.opens_cases with ⟨r, hp⟩ | hopens | ⟨kind, hopens, hk⟩
  · rw [innerScope_of_record config scope hp] at h
    obtain ⟨s, q, henter, hdone⟩ := exists_of_run_bind_ok h
    cases hdone
    exact .inl ⟨r, s, hp, rfl, henter⟩
  · rw [innerScope_run_of_transparent config scope p hopens] at h
    cases h
    exact .inr (.inl ⟨hopens, rfl, rfl⟩)
  · rw [innerScope_run_of_plain config scope p hopens hk] at h
    cases h
    exact .inr (.inr ⟨kind, hopens, hk, rfl, rfl⟩)

end

namespace Opens
variable {config : Config} {id x : NodeId} {n : Node} {scope inner : Option ScopeId} {p p' : Progress}

theorem of_run {languages : Set String} (hp : p.tree.ProperIn languages) (hn : p.tree.get? id = some n)
    (h : (innerScope config id n scope).run p = .ok inner p') : Opens config id n scope p inner p' := by
  rcases innerScope_run config scope hp hn with ⟨inner', q, hr, ho⟩ | ⟨e, q, hr, -⟩
  · rw [h] at hr
    cases hr
    exact ho
  · rw [h] at hr
    cases hr

theorem toExtends (h : Opens config id n scope p inner p') (hn : p.tree.get? id = some n) :
    p.tree.Extends p'.tree := by
  cases h with
  | transparent | plain => exact .refl _
  | record hp hsup => exact hsup.toExtends hn hp

theorem keepsAllButRecords (h : Opens config id n scope p inner p') (hn : p.tree.get? id = some n) :
    p.tree.KeepsAllButRecords p'.tree := by
  cases h with
  | transparent | plain => exact KeepsAllButRecords.refl p.tree
  | record hp hsup => exact hsup.keepsAllButRecords hn hp

theorem properIn {languages : Set String} (h : Opens config id n scope p inner p')
    (ht : p.tree.ProperIn languages) (hlanguage : config.separator ∈ languages)
    (hn : p.tree.get? id = some n) : p'.tree.ProperIn languages := by
  cases h with
  | transparent | plain => exact ht
  | record hp hsup => exact hsup.properIn ht hlanguage hn hp

theorem kept (h : Opens config id n scope p inner p') (hn : p.tree.get? id = some n) {m : Node}
    (hx : x ≠ id) (hm : p.tree.get? x = some m) : p'.tree.get? x = some m := by
  cases h with
  | transparent | plain => exact hm
  | record hp hsup => exact hsup.kept hn hp hx hm

theorem scopeOf?_eq (h : Opens config id n scope p inner p') (hx : x ≠ id) :
    p'.scopes.scopeOf? x = p.scopes.scopeOf? x := by
  cases h with
  | transparent => rfl
  | plain | record => simp [scopeOf?_push, Ne.symm hx]

/-- The scope for what is below a node is the one the node has opened, or else the one around it. -/
theorem inner_eq (h : Opens config id n scope p inner p') (hnew : p.scopes.scopeOf? id = none) :
    inner = (p'.scopes.scopeOf? id).or scope := by
  cases h with
  | transparent => simp [hnew]
  | plain => simp [scopeOf?_push]
  | record =>
    simp only [scopeOf?_declareAll, scopeOf?_push, if_true, Option.some_or]
    rfl

theorem isSome_scopeOf? (h : Opens config id n scope p inner p') {kind : ScopeKind}
    (hk : n.payload.opens? = some kind) : (p'.scopes.scopeOf? id).isSome := by
  cases h with
  | transparent ho => simp [ho] at hk
  | plain => simp [scopeOf?_push]
  | record => simp [scopeOf?_push]

theorem get?_cases (h : Opens config id n scope p inner p') {s : ScopeId} {sc : Scope}
    (hs : p'.scopes.get? s = some sc) :
    p.scopes.get? s = some sc ∨ sc.owner = id ∧ n.payload.opens? = some sc.kind := by
  cases h with
  | transparent => exact .inl hs
  | plain hopens =>
    rcases cases_of_get?_push hs with ⟨-, rfl⟩ | hs
    · exact .inr ⟨rfl, hopens⟩
    · exact .inl hs
  | record hp =>
    rcases cases_of_get?_push hs with ⟨-, rfl⟩ | hs
    · exact .inr ⟨rfl, by rw [hp]; rfl⟩
    · exact .inl hs

theorem entry_cases (h : Opens config id n scope p inner p') {e : Entry}
    (he : e ∈ p'.scopes.entries) : e ∈ p.scopes.entries ∨
      ∃ name typeName, p'.tree.get? e.declaration = some (implicitNode e.declaration id name typeName) := by
  cases h with
  | transparent | plain => exact .inl he
  | record hp hsup =>
    rcases mem_entries_declareAll.mp he with he | he
    · exact .inl he
    · obtain ⟨_, hsupplied⟩ := hsup.exists_supplied
      exact .inr (hsupplied.implicit (declaration_mem_implicitFields he))

theorem duplicates_eq (h : Opens config id n scope p inner p') : p'.duplicates = p.duplicates := by
  cases h <;> rfl

end Opens

end Registration
end NameResolution
