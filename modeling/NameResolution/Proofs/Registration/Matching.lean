import NameResolution.Proofs.Registration.Distinct
import NameResolution.Proofs.Tree.Extension

/-!
# Registration under another numbering

Registration of trees that match leads to trees that match: it enters nodes that match, and gives records that match
the same implicit members. The scopes are opened in another order, but each belongs to the node that matches the
owner of the other, and holds the declarations that match those of the other.
-/
namespace NameResolution
open Registration

namespace Tree.Matches
variable {separator : String} {f : NodeId → NodeId} {t t' : Tree} {a x y owner root : NodeId} {n m : Node} {name : String}

theorem nests (h : t.Matches f t') (hx : t.Nests a x) : t'.Nests (f a) (f x) := by
  induction hx with
  | self => exact .self _
  | place hn hs _ ih =>
    obtain ⟨n', hn', hm⟩ := h.node hn
    exact .place hn' (hm.payload.slots_perm.mem_iff.mp (List.mem_map_of_mem hs)) ih

/-- What nests at the node that matches `a` matches what nests at `a`. -/
theorem exists_nests (h : t.Matches f t') (ht : t.WellFormed) (hn : t.get? a = some n) (hy : t'.Nests (f a) y) :
    ∃ x m, t.Nests a x ∧ t.get? x = some m ∧ f x = y := by
  generalize hb : f a = b at hy
  induction hy generalizing a n with
  | self => exact ⟨a, n, .self a, hn, hb⟩
  | place hn' hs' _ ih =>
    subst hb
    obtain ⟨s, hs, rfl⟩ := List.mem_map.mp ((h.matches_of_get? hn hn').payload.slots_perm.mem_iff.mpr hs')
    obtain ⟨k, hk, -⟩ := ht.parent_of_child hn (Payload.child_mem_children hs)
    obtain ⟨x, m, hx, hm, rfl⟩ := ih hk rfl
    exact ⟨x, m, .place hn hs hx, hm, rfl⟩

theorem nests_iff (h : t.Matches f t') (ht : t.WellFormed) (hn : t.get? a = some n) (hm : t.get? x = some m) :
    t'.Nests (f a) (f x) ↔ t.Nests a x := by
  refine ⟨fun hx => ?_, h.nests⟩
  obtain ⟨y, k, hy, hk, heq⟩ := h.exists_nests ht hn hx
  exact h.inj hk hm heq ▸ hy

theorem opener?_eq (h : t.Matches f t') (ht : t.WellFormed) (hn : t.get? x = some n) :
    t'.opener? (f x) = (t.opener? x).map f := by
  rw [opener?, opener?, h.ancestors_eq ht hn, List.find?_map]
  congr 1
  refine List.find?_congr fun b hb => ?_
  obtain ⟨k, hk⟩ := ht.exists_of_mem_ancestors hb
  obtain ⟨k', hk', hkm⟩ := h.node hk
  rw [Function.comp_apply, hk, hk', Option.any_some, Option.any_some, hkm.payload.opens?_eq]

theorem implicitNames_eq (h : t.Matches f t') (ht : t.WellFormed) (hn : t.get? x = some n) :
    t'.implicitNames separator (f x) = t.implicitNames separator x := by
  rw [implicitNames, implicitNames, h.enclosingRecords_eq ht hn, List.map_map]
  congr 1
  refine List.map_congr_left fun o ho => ?_
  obtain ⟨k, hk⟩ := ht.exists_of_mem_ancestors (List.mem_of_mem_filter ho)
  rw [Function.comp_apply, h.qualifiedName_eq ht separator hk]

theorem declaredName_eq (hm : n.Matches f m) : declaredName separator m = declaredName separator n := by
  rw [declaredName, declaredName, Node.isRecord, Node.isRecord, hm.kind_eq, hm.name]

theorem declaresAt (h : t.Matches f t') (ht : t.WellFormed) (hx : t.DeclaresAt separator root owner name x) :
    t'.DeclaresAt separator (f root) (f owner) name (f x) := by
  obtain ⟨n, hn, hdecl, hname⟩ := hx.node
  obtain ⟨n', hn', hm⟩ := h.node hn
  refine ⟨h.nests hx.nests, ?_, hx.named, n', hn', hm.kind_eq ▸ hdecl, (declaredName_eq hm).trans hname⟩
  rw [h.opener?_eq ht hn, hx.opener, Option.map_some]

/-- What is declared in the other tree matches what is declared here. -/
theorem exists_declaresAt (h : t.Matches f t') (ht : t.WellFormed) (hroot : t.get? root = some n)
    (hy : t'.DeclaresAt separator (f root) a name y) :
    ∃ owner x, t.DeclaresAt separator root owner name x ∧ f owner = a ∧ f x = y := by
  obtain ⟨x, m, hx, hm, rfl⟩ := h.exists_nests ht hroot hy.nests
  obtain ⟨m', hm', hdecl, hname⟩ := hy.node
  have hmatch := h.matches_of_get? hm hm'
  have hopener := hy.opener
  rw [h.opener?_eq ht hm] at hopener
  obtain ⟨owner, howner, rfl⟩ := Option.map_eq_some_iff.mp hopener
  exact ⟨owner, x, ⟨hx, howner, hy.named, m, hm, hmatch.kind_eq ▸ hdecl, (declaredName_eq hmatch).symm.trans hname⟩,
    rfl, rfl⟩

/-- Whether names are distinct does not depend on the numbering. -/
theorem distinct (h : t.Matches f t') (ht : t.WellFormed) (hroot : t.get? root = some n)
    (hd : t.Distinct separator root) : t'.Distinct separator (f root) := by
  have howner : ∀ {owner name x}, t.DeclaresAt separator root owner name x → ∃ k, t.get? owner = some k := by
    intro owner name x hx
    obtain ⟨k, hk, -⟩ := opens_of_opener? hx.opener
    exact ⟨k, hk⟩
  constructor
  case allowed =>
    intro y n' s' hy hn' hs'
    obtain ⟨x, n, hx, hn, rfl⟩ := h.exists_nests ht hroot hy
    obtain ⟨s, hs, rfl⟩ := List.mem_map.mp ((h.matches_of_get? hn hn').payload.slots_perm.mem_iff.mpr hs')
    obtain ⟨k, hk, hallows⟩ := hd.allowed hx hn hs
    obtain ⟨k', hk', hm⟩ := h.node hk
    exact ⟨k', hk', hm.kind_eq ▸ hallows⟩
  case alone =>
    intro a name y z hy hz
    obtain ⟨owner, x, hx, rfl, rfl⟩ := h.exists_declaresAt ht hroot hy
    obtain ⟨owner', x', hx', heq, rfl⟩ := h.exists_declaresAt ht hroot hz
    obtain ⟨k, hk⟩ := howner hx
    obtain ⟨k', hk'⟩ := howner hx'
    obtain rfl := h.inj hk' hk heq
    rw [hd.alone hx hx']
  case notImplicit =>
    intro a name y hy hrecord
    obtain ⟨owner, x, hx, rfl, rfl⟩ := h.exists_declaresAt ht hroot hy
    obtain ⟨k, hk⟩ := howner hx
    rw [h.implicitNames_eq ht hk]
    exact hd.notImplicit hx (h.kind?_eq hk ▸ hrecord)

theorem isFresh (h : t.Matches f t') (hfresh : t.IsFresh) : t'.IsFresh := by
  intro y n' r' hn' hr'
  obtain ⟨x, n, rfl, hn, hm⟩ := h.exists_of_get? hn'
  obtain ⟨r, hr⟩ := Node.exists_record (hm.kind_eq.symm.trans (congrArg Payload.kind hr'))
  obtain ⟨henclosing, hthis, houter⟩ := hfresh hn hr
  have hpayload := hm.payload
  rw [hr] at hpayload
  obtain ⟨ms, -, hmap⟩ := hpayload.of_record
  rw [hr'] at hmap
  cases hmap
  exact ⟨by simp [Record.map, henclosing], by simp [Record.map, hthis], by simp [Record.map, houter]⟩

end Tree.Matches

namespace Tree
variable {config : Config} {languages : Set String} {separator : String} {t t' T T' : Tree} {f g : NodeId → NodeId}
  {x y z root : NodeId} {n : Node} {r r' : Record} {p p' : Registration.Progress}

/-- Where registration has not been, there is no implicit field. -/
theorem IsFresh.not_implicit (hfresh : t.IsFresh) (ht : t.ProperIn languages) : ¬ IsImplicitField t x := by
  rintro ⟨m, d, hm, hd, hi⟩
  obtain ⟨id, n, r, hn, hr, hf⟩ := ht.owned hm hd hi
  rw [(hfresh hn hr).implicitFields_eq] at hf
  cases hf

namespace RegistersIn

/-- Registration gives the records that it enters their implicit members, and leaves all else as it is. -/
theorem get?_cases (h : Registers config t root p) (hn : t.get? x = some n) :
    p.tree.get? x = some n ∧ (n.kind = .recordDecl → ¬ t.Nests root x) ∨
      ∃ r r', n.payload = .recordDecl r ∧ t.Nests root x ∧
        p.tree.get? x = some { n with payload := .recordDecl r' } ∧ r'.kind = r.kind ∧ r'.members = r.members ∧
        p.tree.Supplied config.separator x r' := by
  have hwf := h.proper.toWellFormed
  have hentered := hwf.enter_mem_iff (x := x) h.root_eq
  have hw := h.walked
  by_cases hkind : n.kind = .recordDecl
  · by_cases hnests : t.Nests root x
    · obtain ⟨r, hr⟩ := Node.exists_record hkind
      obtain ⟨⟨id', name', region', parent', payload'⟩, hn', hb⟩ := hw.toExtends.node hn
      obtain ⟨r', hr'⟩ := Node.exists_record (hb.payload.kind_recordDecl_iff.mpr hkind)
      have hopens : n.payload.opens? = some .record := by rw [hr]; rfl
      obtain ⟨s, hs⟩ := Option.isSome_iff_exists.mp (hw.scope_opened (hentered.mpr hnests) hn hopens)
      have hsame : r'.kind = r.kind ∧ r'.members = r.members := by
        have hbecomes := hb.payload
        rw [hr, hr'] at hbecomes
        cases hbecomes with
        | rebound hsame =>
          cases hsame.eq_of_not_reference rfl
          exact ⟨rfl, rfl⟩
        | filled hkind hmembers => exact ⟨hkind, hmembers⟩
      obtain ⟨rfl, rfl, rfl, rfl, -⟩ := hb
      obtain rfl : payload' = .recordDecl r' := hr'
      exact .inr ⟨r, r', hr, hnests, hn', hsame.1, hsame.2, h.registered.registered.supplied hn' rfl hs⟩
    · exact .inl ⟨hw.pending (fun hmem => hnests (hentered.mp hmem)) hn, fun _ => hnests⟩
  · exact .inl ⟨hw.keeps hn hkind, fun hk => absurd hk hkind⟩

theorem fresh_field (h : Registers config t root p) (hfresh : t.IsFresh) (hsup : p.tree.Supplied separator x r)
    (hf : z ∈ r.implicitFields) : t.get? z = none := by
  cases hz : t.get? z with
  | none => rfl
  | some m =>
    obtain ⟨name, typeName, hnode⟩ := hsup.implicit hf
    exact absurd (h.walked.toExtends.isImplicitField hz ⟨_, _, hnode, rfl, rfl⟩) (hfresh.not_implicit h.proper)

/-- What registration adds is an implicit member of a record that was there. -/
theorem exists_record_of_new (h : Registers config t root p) (hk : p.tree.get? y = some n) (hnew : t.get? y = none) :
    ∃ x m r', t.get? x = some m ∧ p.tree.get? x = some { m with payload := .recordDecl r' } ∧ y ∈ r'.implicitFields ∧
      t.Nests root x ∧ p.tree.Supplied config.separator x r' ∧ n.parent = some x := by
  have hw := h.walked
  have hwf := hw.proper.toWellFormed
  have hadded : ∀ {y n}, p.tree.get? y = some n → (∃ m, t.get? y = some m) ∨
      ∃ d, n.payload = .fieldDecl d ∧ d.isImplicit = true :=
    fun hn => hw.proper.exists_or_implicit h.proper.toWellFormed hw.toExtends hw.keeps hn
  obtain ⟨m, hm⟩ | ⟨d, hd, hi⟩ := hadded hk
  · rw [hnew] at hm
    cases hm
  · obtain ⟨x, k, r', hparent, hkx, hr', hf⟩ := hw.proper.exists_owner hk hd hi
    obtain ⟨m, hm⟩ | ⟨d', hd', -⟩ := hadded hkx
    · rcases h.get?_cases hm with ⟨hsame, hnot⟩ | ⟨r, r'', hr, hnests, hnode, hkind, hmembers, hsup⟩
      · -- A record that was not entered has no implicit members that were not there.
        rw [hkx] at hsame
        cases hsame
        obtain ⟨m, hm', -⟩ := h.proper.parent_of_child hm (Node.mem_children_of_implicitFields hr' hf)
        rw [hnew] at hm'
        cases hm'
      · rw [hnode] at hkx
        cases hkx
        cases hr'
        exact ⟨x, m, r', hm, hnode, hf, hnests, hsup, hparent⟩
    · rw [hr'] at hd'
      cases hd'

theorem growsBelow (h : Registers config t root p) : t.GrowsBelow p.tree := by
  refine ⟨h.walked.toExtends, h.walked.proper.toWellFormed, fun hk hnew => ?_⟩
  obtain ⟨x, m, -, hm, -, -, -, -, hp⟩ := h.exists_record_of_new hk hnew
  exact ⟨x, m, hp, hm⟩

/-- What comes below a node is its implicit members, if it is a record that is entered. -/
theorem newBelow_of_same (h : Registers config t root p) (hn : t.get? x = some n) (hsame : p.tree.get? x = some n) :
    t.newBelow p.tree x = [] := by
  refine newBelow_eq_nil hsame fun y hy => ?_
  obtain ⟨m, hm, -⟩ := h.proper.parent_of_child hn hy
  exact ⟨m, hm⟩

theorem newBelow_of_record (h : Registers config t root p) (hfresh : t.IsFresh) (hn : t.get? x = some n)
    (hr : n.payload = .recordDecl r) (hnode : p.tree.get? x = some { n with payload := .recordDecl r' })
    (hmembers : r'.members = r.members) (hsup : p.tree.Supplied config.separator x r') :
    t.newBelow p.tree x = r'.implicitFields := by
  refine newBelow_eq hnode (Payload.children_recordDecl r') (fun y hy => ?_) fun y hy => h.fresh_field hfresh hsup hy
  obtain ⟨m, hm, -⟩ := h.proper.parent_of_child hn (Node.mem_children_of_members hr (hmembers ▸ hy))
  exact ⟨m, hm⟩

end RegistersIn

section
variable {os os' : List OuterInstance}

theorem outers_eq (hrecords : os'.map OuterInstance.record = (os.map OuterInstance.record).map g)
    (hfields : os'.map OuterInstance.field = (os.map OuterInstance.field).map g) :
    os' = os.map fun o => ⟨g o.record, g o.field⟩ := by
  induction os generalizing os' with
  | nil => simpa using hrecords
  | cons o os ih =>
    cases os' with
    | nil => simp at hrecords
    | cons o' os' =>
      simp only [List.map_cons, List.cons.injEq] at hrecords hfields
      rw [List.map_cons, ← ih hrecords.2 hfields.2, ← hrecords.1, ← hfields.1]

namespace Supplied

/-- If the fields of two records match in their order, so does all that registration has filled in. -/
theorem map_eq (h : T.Supplied separator x r) (h' : T'.Supplied separator y r')
    (hrecords : T'.enclosingRecords y = (T.enclosingRecords x).map g)
    (hfields : r'.implicitFields = r.implicitFields.map g) :
    r'.enclosing = r.enclosing.map g ∧ r'.implicitThis = r.implicitThis.map g ∧
      r'.implicitOuter = r.implicitOuter.map fun o => ⟨g o.record, g o.field⟩ := by
  obtain ⟨this, hthis, -⟩ := h.this
  obtain ⟨this', hthis', -⟩ := h'.this
  rw [Record.implicitFields, Record.implicitFields, hthis, hthis', Option.toList_some, Option.toList_some,
    List.singleton_append, List.singleton_append, List.map_cons, List.cons.injEq] at hfields
  refine ⟨?_, ?_, outers_eq ?_ hfields.2⟩
  · rw [h.enclosing, h'.enclosing, hrecords, List.head?_map]
  · rw [hthis, hthis', Option.map_some, hfields.1]
  · rw [h.records, h'.records, hrecords]

/-- The fields themselves match, too. -/
theorem field_matches (h : T.Supplied separator x r) (h' : T'.Supplied separator (g x) r')
    (hqualified : T'.qualifiedName separator (g x) = T.qualifiedName separator x)
    (houters : ∀ o ∈ T.enclosingRecords x, T'.qualifiedName separator (g o) = T.qualifiedName separator o)
    (hthis : r'.implicitThis = r.implicitThis.map g)
    (houter : r'.implicitOuter = r.implicitOuter.map fun o => ⟨g o.record, g o.field⟩)
    (hz : z ∈ r.implicitFields) : ∃ m m', T.get? z = some m ∧ T'.get? (g z) = some m' ∧ m.Matches g m' := by
  rcases List.mem_append.mp hz with hz | hz
  · obtain ⟨this, hsome, hnode⟩ := h.this
    rw [hsome, Option.toList_some, List.mem_singleton] at hz
    subst hz
    obtain ⟨this', hsome', hnode'⟩ := h'.this
    rw [hthis, hsome, Option.map_some] at hsome'
    cases hsome'
    exact ⟨_, _, hnode, hnode', rfl, rfl, rfl, rfl, hqualified ▸ .same _⟩
  · obtain ⟨o, ho, rfl⟩ := List.mem_map.mp hz
    have hnode' := h'.outer ⟨g o.record, g o.field⟩ (houter ▸ List.mem_map_of_mem ho)
    have hname := houters o.record (h.records ▸ List.mem_map_of_mem ho)
    rw [hname] at hnode'
    exact ⟨_, _, h.outer o ho, hnode', rfl, rfl, rfl, rfl, .same _⟩

end Supplied
end

namespace Matches

section
variable {n' : Node} {r₁ r₁' : Record}

theorem enclosingRecords_extends (hm : t.Matches f t') (ht : t.WellFormed) (ht' : t'.WellFormed) (hext : t.Extends T)
    (hext' : t'.Extends T') (hn : t.get? x = some n) :
    T'.enclosingRecords (f x) = (T.enclosingRecords x).map f := by
  obtain ⟨n', hn', -⟩ := hm.node hn
  rw [hext'.enclosingRecords_eq ht' hn', hext.enclosingRecords_eq ht hn, hm.enclosingRecords_eq ht hn]

theorem qualifiedName_extends (hm : t.Matches f t') (ht : t.WellFormed) (ht' : t'.WellFormed) (hext : t.Extends T)
    (hext' : t'.Extends T') (hn : t.get? x = some n) :
    T'.qualifiedName separator (f x) = T.qualifiedName separator x := by
  obtain ⟨n', hn', -⟩ := hm.node hn
  rw [hext'.qualifiedName_eq ht' _ hn', hext.qualifiedName_eq ht _ hn, hm.qualifiedName_eq ht _ hn]

/-- What registration makes of a node, it makes of the node that matches it. -/
theorem registered_cases (hm : t.Matches f t') (h : Registers config t root p)
    (h' : Registers config t' (f root) p') (hn : t.get? x = some n) (hn' : t'.get? (f x) = some n') :
    p.tree.get? x = some n ∧ p'.tree.get? (f x) = some n' ∨
    ∃ r r₁ r' r₁', n.payload = .recordDecl r ∧ n'.payload = .recordDecl r' ∧
      p.tree.get? x = some { n with payload := .recordDecl r₁ } ∧
      p'.tree.get? (f x) = some { n' with payload := .recordDecl r₁' } ∧
      (r₁.kind = r.kind ∧ r₁.members = r.members) ∧ (r₁'.kind = r'.kind ∧ r₁'.members = r'.members) ∧
      p.tree.Supplied config.separator x r₁ ∧ p'.tree.Supplied config.separator (f x) r₁' := by
  have hwf := h.proper.toWellFormed
  obtain ⟨k, hk, -, -⟩ := hwf.root_parent h.root_eq
  have hnests := hm.nests_iff hwf hk hn
  have hkind := (hm.matches_of_get? hn hn').kind_eq
  rcases h.get?_cases hn with ⟨hsame, hnot⟩ | ⟨r, r₁, hr, hx, hnode, hk₁, hmembers, hsup⟩
  · rcases h'.get?_cases hn' with ⟨hsame', -⟩ | ⟨r', r₁', hr', hx', -⟩
    · exact .inl ⟨hsame, hsame'⟩
    · exact absurd (hnests.mp hx') (hnot (hkind ▸ congrArg Payload.kind hr'))
  · rcases h'.get?_cases hn' with ⟨-, hnot'⟩ | ⟨r', r₁', hr', hx', hnode', hk₁', hmembers', hsup'⟩
    · exact absurd (hnests.mpr hx) (hnot' (hkind.trans (congrArg Payload.kind hr)))
    · exact .inr ⟨r, r₁, r', r₁', hr, hr', hnode, hnode', ⟨hk₁, hmembers⟩, ⟨hk₁', hmembers'⟩, hsup, hsup'⟩

/-- The records around a node are numbered on. -/
theorem enclosingRecords_goesOn (hm : t.Matches f t') (h : Registers config t root p)
    (h' : Registers config t' (f root) p') (hg : GoesOn t p.tree t' p'.tree f g) (hn : t.get? x = some n) :
    p'.tree.enclosingRecords (f x) = (p.tree.enclosingRecords x).map g := by
  have hwf := h.proper.toWellFormed
  have hext := h.walked.toExtends
  rw [hm.enclosingRecords_extends hwf h'.proper.toWellFormed hext h'.walked.toExtends hn]
  refine List.map_congr_left fun o ho => ?_
  rw [hext.enclosingRecords_eq hwf hn] at ho
  obtain ⟨k, hk⟩ := hwf.exists_of_mem_ancestors (List.mem_of_mem_filter ho)
  exact (hg.old hk).symm

/-- Registration adds as much below nodes that match. -/
theorem length_newBelow_registered (hm : t.Matches f t') (hfresh : t.IsFresh) (h : Registers config t root p)
    (h' : Registers config t' (f root) p') (hn : t.get? x = some n) :
    (t.newBelow p.tree x).length = (t'.newBelow p'.tree (f x)).length := by
  have hfresh' : t'.IsFresh := hm.isFresh hfresh
  obtain ⟨n', hn', -⟩ := hm.node hn
  rcases hm.registered_cases h h' hn hn' with
    ⟨hsame, hsame'⟩ | ⟨r, r₁, r', r₁', hr, hr', hnode, hnode', hfilled, hfilled', hsup, hsup'⟩
  · rw [h.newBelow_of_same hn hsame, h'.newBelow_of_same hn' hsame']
  · rw [h.newBelow_of_record hfresh hn hr hnode hfilled.2 hsup,
      h'.newBelow_of_record hfresh' hn' hr' hnode' hfilled'.2 hsup', hsup.length_implicitFields,
      hsup'.length_implicitFields, implicitCount, implicitCount,
      hm.enclosingRecords_extends h.proper.toWellFormed h'.proper.toWellFormed h.walked.toExtends
        h'.walked.toExtends hn, List.length_map]

/-- What was there still matches after registration, in a numbering that goes on. -/
theorem registered_matches (hm : t.Matches f t') (hclosed : t.Closed) (hfresh : t.IsFresh)
    (h : Registers config t root p) (h' : Registers config t' (f root) p') (hg : GoesOn t p.tree t' p'.tree f g)
    (hn : t.get? x = some n) : ∃ m m', p.tree.get? x = some m ∧ p'.tree.get? (g x) = some m' ∧ m.Matches g m' := by
  have hfresh' : t'.IsFresh := hm.isFresh hfresh
  obtain ⟨n', hn', -⟩ := hm.node hn
  have hcongr : n.Matches g n' := by
    refine (hm.matches_of_get? hn hn').congr fun y hy => ?_
    obtain ⟨k, hk⟩ := hclosed hn y hy
    exact hg.old hk
  rcases hm.registered_cases h h' hn hn' with
    ⟨hsame, hsame'⟩ | ⟨r, r₁, r', r₁', hr, hr', hnode, hnode', hfilled, hfilled', hsup, hsup'⟩
  · exact ⟨n, n', hsame, hg.old hn ▸ hsame', hcongr⟩
  · have hnew := hg.new hn
    rw [h.newBelow_of_record hfresh hn hr hnode hfilled.2 hsup,
      h'.newBelow_of_record hfresh' hn' hr' hnode' hfilled'.2 hsup'] at hnew
    exact ⟨_, _, hnode, hg.old hn ▸ hnode', hcongr.filled hr hr' hfilled hfilled'
      (hsup.map_eq hsup' (hm.enclosingRecords_goesOn h h' hg hn) hnew.symm)⟩

/-- And so do the implicit members that registration has added. -/
theorem registered_matches_new (hm : t.Matches f t') (hfresh : t.IsFresh) (h : Registers config t root p)
    (h' : Registers config t' (f root) p') (hg : GoesOn t p.tree t' p'.tree f g) (hn : t.get? x = some n)
    (hy : y ∈ t.newBelow p.tree x) :
    ∃ m m', p.tree.get? y = some m ∧ p'.tree.get? (g y) = some m' ∧ m.Matches g m' := by
  have hwf := h.proper.toWellFormed
  have hext := h.walked.toExtends
  have hqualified : ∀ {z k}, t.get? z = some k →
      p'.tree.qualifiedName config.separator (g z) = p.tree.qualifiedName config.separator z := by
    intro z k hk
    rw [hg.old hk, hm.qualifiedName_extends hwf h'.proper.toWellFormed hext h'.walked.toExtends hk]
  obtain ⟨n', hn', -⟩ := hm.node hn
  rcases hm.registered_cases h h' hn hn' with
    ⟨hsame, -⟩ | ⟨r, r₁, r', r₁', hr, hr', hnode, hnode', hfilled, hfilled', hsup, hsup'⟩
  · rw [h.newBelow_of_same hn hsame] at hy
    cases hy
  · have hnew := hg.new hn
    rw [h.newBelow_of_record hfresh hn hr hnode hfilled.2 hsup] at hy hnew
    rw [h'.newBelow_of_record (hm.isFresh hfresh) hn' hr' hnode' hfilled'.2 hsup'] at hnew
    obtain ⟨-, hthis, houter⟩ := hsup.map_eq hsup' (hm.enclosingRecords_goesOn h h' hg hn) hnew.symm
    refine hsup.field_matches (hg.old hn ▸ hsup') (hqualified hn) (fun o ho => ?_) hthis houter hy
    rw [hext.enclosingRecords_eq hwf hn] at ho
    obtain ⟨k, hk⟩ := hwf.exists_of_mem_ancestors (List.mem_of_mem_filter ho)
    exact hqualified hk

end

/-- Registration of trees that match leads to trees that match. -/
theorem exists_registered (hm : t.Matches f t') (hclosed : t.Closed) (hfresh : t.IsFresh)
    (h : Registers config t root p) (h' : Registers config t' (f root) p') :
    ∃ g, (∀ {x n}, t.get? x = some n → g x = f x) ∧ p.tree.Matches g p'.tree := by
  refine hm.exists_grown h.proper.toWellFormed h.growsBelow h'.growsBelow
    (hm.length_newBelow_registered hfresh h h') ?_
  rintro g hg x y n hn (rfl | hy)
  · exact hm.registered_matches hclosed hfresh h h' hg hn
  · exact hm.registered_matches_new hfresh h h' hg hn hy

end Matches
end Tree
end NameResolution
