import NameResolution.Proofs.Tree.Growth
import NameResolution.Proofs.Tree.Operations

/-!
# Proper trees

The trees that passes run on are well-formed, and more: every call has a callee, the member half of an
access is a plain name like the access, implicit fields stand where registration puts them, and a record
has either no implicit members or all of them, as one of the languages asks for that passes have been made
in. Most of what a pass does to a tree does not depend on which language that was.
-/
namespace NameResolution

namespace Record

/-- The fields that registration has added to a record. -/
def implicitFields (r : Record) : List NodeId :=
  r.implicitThis.toList ++ r.implicitOuter.map OuterInstance.field

/-- Registration has not been at the record. -/
def IsBare (r : Record) : Prop := r.enclosing = none ∧ r.implicitThis = none ∧ r.implicitOuter = []

theorem IsBare.implicitFields_eq {r : Record} (h : r.IsBare) : r.implicitFields = [] := by
  simp [implicitFields, h.2.1, h.2.2]

end Record

theorem Payload.children_recordDecl (r : Record) :
    (Payload.recordDecl r).children = r.members ++ r.implicitFields :=
  List.append_assoc ..

namespace Node
variable {n : Node} {r : Record} {c : NodeId}

theorem children_eq_of_record (hr : n.payload = .recordDecl r) : n.children = r.members ++ r.implicitFields := by
  rw [children, hr, Payload.children_recordDecl]

theorem mem_children_of_members (hr : n.payload = .recordDecl r) (hc : c ∈ r.members) : c ∈ n.children := by
  rw [children_eq_of_record hr]
  exact List.mem_append_left _ hc

theorem mem_children_of_implicitFields (hr : n.payload = .recordDecl r) (hc : c ∈ r.implicitFields) :
    c ∈ n.children := by
  rw [children_eq_of_record hr]
  exact List.mem_append_right _ hc

end Node

def Payload.memberHalf? : Payload → Option NodeId
  | .member a => a.member
  | _ => none

theorem Payload.memberHalf?_eq_some {p : Payload} {m : NodeId} :
    p.memberHalf? = some m ↔ ∃ a, p = .member a ∧ a.member = some m := by
  cases p <;> simp [memberHalf?]

namespace Tree

def IsMemberHalf (t : Tree) (m : NodeId) : Prop :=
  ∃ e n a, t.get? e = some n ∧ n.payload = .member a ∧ a.member = some m

instance (t : Tree) (m : NodeId) : Decidable (t.IsMemberHalf m) :=
  decidable_of_iff (∃ n ∈ t.nodes.toList, n.payload.memberHalf? = some m) <| by
    constructor
    · rintro ⟨n, hn, hm⟩
      obtain ⟨i, hi, rfl⟩ := List.getElem_of_mem hn
      obtain ⟨a, hp, ha⟩ := Payload.memberHalf?_eq_some.mp hm
      exact ⟨⟨i⟩, _, a, by simp [get?], hp, ha⟩
    · rintro ⟨e, n, a, hn, hp, ha⟩
      exact ⟨n, by simpa using Array.mem_of_getElem? hn, Payload.memberHalf?_eq_some.mpr ⟨a, hp, ha⟩⟩

/-- The record has `this` and a field for the instance of every record around it. -/
structure Supplied (separator : String) (t : Tree) (id : NodeId) (r : Record) : Prop where
  enclosing : r.enclosing = (t.enclosingRecords id).head?
  this : ∃ f, r.implicitThis = some f ∧
    t.get? f = some (implicitNode f id "this" (t.qualifiedName separator id))
  records : r.implicitOuter.map OuterInstance.record = t.enclosingRecords id
  outer : ∀ o ∈ r.implicitOuter, t.get? o.field = some (implicitNode o.field id
    (Text.joinPath separator (t.qualifiedName separator o.record) "this")
    (t.qualifiedName separator o.record))

/-- A tree that passes in the given languages may run on. All that a pass knows of a language is the
separator of its paths. -/
structure ProperIn (languages : Set String) (t : Tree) : Prop extends t.WellFormed where
  half : ∀ {e n a m}, t.get? e = some n → n.payload = .member a → a.member = some m →
    ∃ k r, t.get? m = some k ∧ k.payload = .reference r ∧ k.name = n.name
  callee : ∀ {id n arguments}, t.get? id = some n → n.payload ≠ .call none arguments
  owned : ∀ {f n d}, t.get? f = some n → n.payload = .fieldDecl d → d.isImplicit = true →
    ∃ id n' r, t.get? id = some n' ∧ n'.payload = .recordDecl r ∧ f ∈ r.implicitFields
  record : ∀ {id n r}, t.get? id = some n → n.payload = .recordDecl r →
    r.IsBare ∨ ∃ separator ∈ languages, t.Supplied separator id r

/-- A tree that passes in one language may run on. -/
abbrev Proper (separator : String) (t : Tree) : Prop := t.ProperIn {separator}

namespace Supplied
variable {separator : String} {t : Tree} {id f : NodeId} {r : Record}

/-- Every implicit member of a record is an implicit field below it. -/
theorem implicit (h : t.Supplied separator id r) (hf : f ∈ r.implicitFields) :
    ∃ name typeName, t.get? f = some (implicitNode f id name typeName) := by
  rcases List.mem_append.mp hf with hf | hf
  · obtain ⟨g, hg, hn⟩ := h.this
    rw [hg, Option.toList_some, List.mem_singleton] at hf
    subst hf
    exact ⟨_, _, hn⟩
  · obtain ⟨o, ho, rfl⟩ := List.mem_map.mp hf
    exact ⟨_, _, h.outer o ho⟩

/-- The field for the instance of a record around it is found by that record. -/
theorem exists_outer {owner : NodeId} (h : t.Supplied separator id r) (ho : owner ∈ t.enclosingRecords id) :
    ∃ o ∈ r.implicitOuter, o.record = owner ∧ r.implicitOuter.find? (·.record == owner) = some o := by
  rw [← h.records] at ho
  obtain ⟨o, hmem, rfl⟩ := List.mem_map.mp ho
  have hsome : (r.implicitOuter.find? (·.record == o.record)).isSome :=
    List.find?_isSome.mpr ⟨o, hmem, beq_self_eq_true _⟩
  obtain ⟨o', ho'⟩ := Option.isSome_iff_exists.mp hsome
  exact ⟨o', List.mem_of_find?_eq_some ho', by simpa using List.find?_some ho', ho'⟩

/-- A record stays supplied as long as its fields stay as they are. -/
theorem mono {t' : Tree} {n : Node} (h : t.Supplied separator id r) (ht : t.WellFormed)
    (hn : t.get? id = some n) (hext : t.Extends t')
    (hkeep : ∀ {f m d}, t.get? f = some m → m.payload = .fieldDecl d → t'.get? f = some m) :
    t'.Supplied separator id r := by
  have hrecords := hext.enclosingRecords_eq ht hn
  constructor
  case enclosing => rw [hrecords, h.enclosing]
  case this =>
    obtain ⟨f, hf, hnode⟩ := h.this
    exact ⟨f, hf, by rw [hext.qualifiedName_eq ht _ hn, hkeep hnode rfl]⟩
  case records => rw [hrecords, h.records]
  case outer =>
    intro o ho
    have hmem : o.record ∈ t.enclosingRecords id := h.records ▸ List.mem_map_of_mem ho
    obtain ⟨m, hm⟩ := ht.exists_of_mem_ancestors (List.mem_of_mem_filter hmem)
    rw [hext.qualifiedName_eq ht _ hm, hkeep (h.outer o ho) rfl]

end Supplied

theorem WellFormed.nodup_implicitFields {t : Tree} {id : NodeId} {n : Node} {r : Record} (h : t.WellFormed)
    (hn : t.get? id = some n) (hr : n.payload = .recordDecl r) : r.implicitFields.Nodup := by
  have hnodup := h.nodup_children hn
  rw [Node.children_eq_of_record hr] at hnodup
  exact (List.nodup_append.mp hnodup).2.1

namespace ProperIn
variable {languages : Set String} {t : Tree} {id e m : NodeId} {n : Node}

/-- The parent of an implicit field is the record that it has been added to. -/
theorem exists_owner {f : NodeId} {d : Field} (h : t.ProperIn languages) (hn : t.get? f = some n)
    (hd : n.payload = .fieldDecl d) (hi : d.isImplicit = true) :
    ∃ owner k r, n.parent = some owner ∧ t.get? owner = some k ∧ k.payload = .recordDecl r ∧
      f ∈ r.implicitFields := by
  obtain ⟨owner, k, r, hk, hr, hf⟩ := h.owned hn hd hi
  obtain ⟨n', hn', hparent⟩ := h.parent_of_child hk (Node.mem_children_of_implicitFields hr hf)
  rw [hn] at hn'
  cases hn'
  exact ⟨owner, k, r, hparent, hk, hr, hf⟩

/-- A member half is bound with its access and has no other parent. -/
theorem parent_of_isMemberHalf (h : t.ProperIn languages) (hm : t.IsMemberHalf m) :
    ∃ e n a k, t.get? e = some n ∧ n.payload = .member a ∧ a.member = some m ∧
      t.get? m = some k ∧ k.parent = some e := by
  obtain ⟨e, n, a, hn, hp, ha⟩ := hm
  have hc : m ∈ n.children := by simp [Node.children, hp, Payload.children, ha]
  obtain ⟨k, hk, hke⟩ := h.parent_of_child hn hc
  exact ⟨e, n, a, k, hn, hp, ha, hk, hke⟩

/-- Member halves are plain names. -/
theorem not_isMemberHalf_of_member {a : Access} (h : t.ProperIn languages) (hn : t.get? id = some n)
    (hp : n.payload = .member a) : ¬ t.IsMemberHalf id := by
  rintro ⟨e, k, b, hk, hkp, hb⟩
  obtain ⟨n', r, hn', hr, -⟩ := h.half hk hkp hb
  rw [hn] at hn'
  cases hn'
  rw [hp] at hr
  cases hr

/-- Implicit fields take no part in the nesting. -/
theorem not_implicit_of_slot {s : Slot} {d : Field} {k : Node} (h : t.ProperIn languages)
    (hn : t.get? id = some n) (hs : s ∈ n.payload.slots) (hk : t.get? s.child = some k)
    (hd : k.payload = .fieldDecl d) : d.isImplicit = false := by
  by_contra hi
  obtain ⟨owner, n', r, hn', hr, hf⟩ := h.owned hk hd (by simpa using hi)
  obtain rfl := h.eq_of_child hn (Payload.child_mem_children hs) hn' (Node.mem_children_of_implicitFields hr hf)
  rw [hn] at hn'
  cases hn'
  rw [hr] at hs
  have hmem : s.child ∈ r.members := by
    have hchild : s.child ∈ _ := List.mem_map_of_mem hs
    rwa [Payload.slots, Slot.map_child_only] at hchild
  have hnodup := h.nodup_children hn
  rw [Node.children_eq_of_record hr] at hnodup
  exact (List.nodup_append.mp hnodup).2.2 _ hmem _ hf rfl

/-- What is added to a tree, whose nodes stay as they are but for records, are implicit fields. -/
theorem exists_or_implicit {t' : Tree} {x : NodeId} {k : Node} (h : t'.ProperIn languages) (ht : t.WellFormed)
    (hext : t.Extends t') (hkeeps : t.KeepsAllButRecords t') (hk : t'.get? x = some k) :
    (∃ m, t.get? x = some m) ∨ ∃ d, k.payload = .fieldDecl d ∧ d.isImplicit = true := by
  have hfield : ∀ {owner r f m}, (∃ n, t'.get? owner = some n ∧ n.payload = .recordDecl r) →
      f ∈ r.implicitFields → t'.get? f = some m →
      ∃ name typeName, m = implicitNode f owner name typeName := by
    rintro owner r f m ⟨n, hn, hr⟩ hf hm
    rcases h.record hn hr with hbare | ⟨_, -, hsup⟩
    · rw [hbare.implicitFields_eq] at hf
      cases hf
    · obtain ⟨name, typeName, hm'⟩ := hsup.implicit hf
      exact ⟨name, typeName, Option.some.inj (hm.symm.trans hm')⟩
  have hl := h.lineage_ancestors hk
  generalize t'.ancestors x = above at hl
  induction hl generalizing k with
  | top hn hp =>
    obtain ⟨n, hn', -⟩ := ht.root_parent (hext.root.symm.trans (h.eq_root hn hp))
    exact .inl ⟨n, hn'⟩
  | @under x n p above hn hparent up ih =>
    rw [hk] at hn
    cases hn
    obtain ⟨q, hq, hchild⟩ := h.child_of_parent hk hparent
    rcases ih hq with ⟨m, hm⟩ | ⟨d, hd, himplicit⟩
    · obtain ⟨q', hq', hb⟩ := hext.node hm
      rw [hq] at hq'
      cases hq'
      by_cases hrecord : m.kind = .recordDecl
      · obtain ⟨r, hr⟩ := Node.exists_record hrecord
        obtain ⟨r', hr'⟩ := Node.exists_record (hb.payload.kind_recordDecl_iff.mpr hrecord)
        have hmembers : r'.members = r.members := by
          have hbecomes := hb.payload
          rw [hr, hr'] at hbecomes
          cases hbecomes with
          | rebound hsame => rw [Payload.recordDecl.inj (hsame.eq_of_not_reference rfl)]
          | filled _ hm => exact hm
        rw [Node.children_eq_of_record hr', hmembers] at hchild
        rcases List.mem_append.mp hchild with hmem | hmem
        · obtain ⟨m', hm', -⟩ := ht.parent_of_child hm (Node.mem_children_of_members hr hmem)
          exact .inl ⟨m', hm'⟩
        · obtain ⟨_, _, rfl⟩ := hfield ⟨q, hq, hr'⟩ hmem hk
          exact .inr ⟨_, rfl, rfl⟩
      · rw [hkeeps hm hrecord] at hq
        cases hq
        obtain ⟨m', hm', -⟩ := ht.parent_of_child hm hchild
        exact .inl ⟨m', hm'⟩
    · -- Nothing stands below an implicit field.
      obtain ⟨owner, n', r, hn', hr, hf⟩ := h.owned hq hd himplicit
      obtain ⟨_, _, rfl⟩ := hfield ⟨n', hn', hr⟩ hf hq
      simp [Node.children, implicitNode, Payload.children] at hchild

end ProperIn

theorem Proper.bare_or_supplied {separator : String} {t : Tree} {id : NodeId} {n : Node} {r : Record}
    (h : t.Proper separator) (hn : t.get? id = some n) (hp : n.payload = .recordDecl r) :
    r.IsBare ∨ t.Supplied separator id r := by
  rcases h.record hn hp with hbare | ⟨_, rfl, hsup⟩
  · exact .inl hbare
  · exact .inr hsup

namespace GrowsAt
variable {languages : Set String} {t t' : Tree} {id : NodeId} {n n' : Node} {new : List NodeId}

/-- The fields of a tree are not what grows. -/
theorem keepsFields (h : t.GrowsAt id n n' new t') {f : NodeId} {m : Node} {d : Field}
    (hm : t.get? f = some m) (hd : m.payload = .fieldDecl d) : t'.get? f = some m := by
  by_cases hf : f = id
  · subst hf
    have hb := h.becomes
    rw [h.before] at hm
    cases hm
    have hk : n'.kind = .fieldDecl := by
      rw [Node.kind, hb.payload.kind_eq (by simp [hd, Payload.kind]), hd]
      rfl
    have hp := hb.payload.eq_of_kind (by rw [← Node.kind, hk]; rfl) (by rw [← Node.kind, hk]; decide)
    rw [h.after]
    obtain ⟨id, name, region, parent, payload⟩ := n
    obtain ⟨id', name', region', parent', payload'⟩ := n'
    obtain ⟨rfl, rfl, rfl, rfl, -⟩ := hb
    cases hp
    rfl
  · exact h.kept hf hm

/-- A proper tree stays proper if a member half stays a plain name, what comes to be an access or a record
is as it should be, and what is added are plain names or implicit members of the record. -/
theorem properIn (h : t.GrowsAt id n n' new t') (ht : t.ProperIn languages)
    (hstays : t.IsMemberHalf id → ∃ r, n'.payload = .reference r)
    (hhalf : ∀ {a m}, n'.payload = .member a → a.member = some m →
      ∃ k r, t'.get? m = some k ∧ k.payload = .reference r ∧ k.name = n.name)
    (hfields : ∀ {r f}, n.payload = .recordDecl r → f ∈ r.implicitFields →
      ∃ r', n'.payload = .recordDecl r' ∧ f ∈ r'.implicitFields)
    (hrecord : ∀ {r}, n'.payload = .recordDecl r →
      r.IsBare ∨ ∃ separator ∈ languages, t'.Supplied separator id r)
    (hnew : ∀ {f m}, f ∈ new → t'.get? f = some m → (∃ r, m.payload = .reference r) ∨
      ∃ d r, m.payload = .fieldDecl d ∧ n'.payload = .recordDecl r ∧ f ∈ r.implicitFields) :
    t'.ProperIn languages := by
  refine { h.wellFormed ht.toWellFormed with half := ?_, callee := ?_, owned := ?_, record := ?_ }
  · intro e k a m hk hp ha
    rcases h.cases hk with ⟨rfl, rfl⟩ | ⟨-, hk'⟩ | ⟨-, hf⟩
    · rw [h.becomes.name]
      exact hhalf hp ha
    · obtain ⟨x, r, hx, hr, hname⟩ := ht.half hk' hp ha
      by_cases hm : m = id
      · subst hm
        rw [h.before] at hx
        cases hx
        obtain ⟨r', hr'⟩ := hstays ⟨e, k, a, hk', hp, ha⟩
        exact ⟨n', r', h.after, hr', h.becomes.name.trans hname⟩
      · exact ⟨x, r, h.kept hm hx, hr, hname⟩
    · rcases hnew hf hk with ⟨r, hr⟩ | ⟨d, r, hr, -⟩ <;> simp [hp] at hr
  · intro j k arguments hk hp
    rcases h.cases hk with ⟨rfl, rfl⟩ | ⟨-, hk'⟩ | ⟨-, hf⟩
    · have hb := h.becomes.payload
      rw [hp] at hb
      exact ht.callee h.before (hb.eq_of_kind rfl (by simp [Payload.kind]))
    · exact ht.callee hk' hp
    · rcases hnew hf hk with ⟨r, hr⟩ | ⟨d, r, hr, -⟩ <;> simp [hp] at hr
  · intro f k d hk hp hd
    have hold : ∀ {o x r}, t.get? o = some x → x.payload = .recordDecl r → f ∈ r.implicitFields →
        ∃ o x r, t'.get? o = some x ∧ x.payload = .recordDecl r ∧ f ∈ r.implicitFields := by
      intro o x r hx hr hf
      by_cases ho : o = id
      · subst ho
        rw [h.before] at hx
        cases hx
        obtain ⟨r', hr', hf'⟩ := hfields hr hf
        exact ⟨o, n', r', h.after, hr', hf'⟩
      · exact ⟨o, x, r, h.kept ho hx, hr, hf⟩
    have hkept : ∀ {k'}, t.get? f = some k' → k'.payload = .fieldDecl d →
        ∃ o x r, t'.get? o = some x ∧ x.payload = .recordDecl r ∧ f ∈ r.implicitFields := by
      intro k' hk' hp'
      obtain ⟨o, x, r, hx, hr, hf⟩ := ht.owned hk' hp' hd
      exact hold hx hr hf
    rcases h.cases hk with ⟨rfl, rfl⟩ | ⟨-, hk'⟩ | ⟨-, hf⟩
    · have hb := h.becomes.payload
      rw [hp] at hb
      exact hkept h.before (hb.eq_of_kind rfl (by simp [Payload.kind]))
    · exact hkept hk' hp
    · rcases hnew hf hk with ⟨r, hr⟩ | ⟨d, r, -, hr, hf⟩
      · simp [hp] at hr
      · exact ⟨id, n', r, h.after, hr, hf⟩
  · intro j k r hk hr
    rcases h.cases hk with ⟨rfl, rfl⟩ | ⟨-, hk'⟩ | ⟨-, hf⟩
    · exact hrecord hr
    · rcases ht.record hk' hr with hb | ⟨separator, hin, hs⟩
      · exact .inl hb
      · exact .inr ⟨separator, hin, hs.mono ht.toWellFormed hk' h.toExtends h.keepsFields⟩
    · rcases hnew hf hk with ⟨r, hr'⟩ | ⟨d, r, hr', -⟩ <;> simp [hr] at hr'

end GrowsAt
end Tree
end NameResolution
