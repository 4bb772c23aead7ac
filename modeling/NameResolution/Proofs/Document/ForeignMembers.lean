import Mathlib.Logic.Relation
import NameResolution.Proofs.Document.RoundTrip

/-!
# Members that mean nothing

What an object spells does not depend on the order of its members, nor on members whose keys mean nothing to a node of
its kind. Values that are alike up to such members, at any depth, spell the same. Of a list or an object below a node
only the nodes that it spells are read, or the record kind that it may be instead; the outline of a member holds this
much of it.
-/
namespace NameResolution

namespace NodeKind

/-- The keys that mean something to a node of the kind, beside those that all nodes share. -/
def keys : NodeKind → List String
  | translationUnit => ["name", "declarations"]
  | recordDecl => ["name", "record_kind", "members"]
  | methodDecl => ["name", "is_static", "parameters", "body"]
  | functionDecl => ["name", "parameters", "body"]
  | fieldDecl => ["name", "type_name", "is_static", "initializer"]
  | variableDecl => ["name", "type_name", "initializer"]
  | parameterDecl => ["name", "type_name"]
  | compound => ["statements"]
  | declStatement => ["declarations"]
  | returnStatement => ["value"]
  | forStatement => ["initializer", "condition", "iteration", "body"]
  | whileStatement => ["condition", "body"]
  | ifStatement => ["condition_declaration", "condition", "then_branch", "else_branch"]
  | tryStatement => ["body", "catch_clauses"]
  | catchClause => ["parameter", "body"]
  | call => ["name", "callee", "arguments"]
  | newExpr => ["type_name", "arguments"]
  | binaryOp => ["operator", "lhs", "rhs"]
  | reference => ["name"]
  | member => ["base", "member"]
  | literal => ["value"]

end NodeKind

namespace Json

/-- One of the members says that the object is a node of the kind. -/
def NamesKind (ms : List (String × Json)) (kind : NodeKind) : Prop :=
  ∃ v, ("kind", v) ∈ ms ∧ Parts.kind? (SyntaxNode.partOf v) = some kind

/-- The members of one object come in another order, or a node has one more member that means nothing to its kind.
The object may stand anywhere in the value. -/
inductive Edit : Json → Json → Prop
  | reorder {ms ms'} (order : ms.Perm ms') : Edit (obj ms) (obj ms')
  | insert {kind before after key value} (node : NamesKind (before ++ after) kind)
      (shared : key ∉ ["kind", "line", "column"]) (foreign : key ∉ kind.keys) :
      Edit (obj (before ++ after)) (obj (before ++ (key, value) :: after))
  | item {before v w after} (edit : Edit v w) : Edit (arr (before ++ v :: after)) (arr (before ++ w :: after))
  | member {before key v w after} (edit : Edit v w) :
      Edit (obj (before ++ (key, v) :: after)) (obj (before ++ (key, w) :: after))

/-- Edits do not reach an empty value. -/
theorem Edit.eq_of_empty {v w : Json} (h : Edit v w) (he : v ∈ [null, obj []] ∨ w ∈ [null, obj []]) : v = w := by
  cases h with
  | reorder order =>
    simp only [List.mem_cons, reduceCtorEq, obj.injEq, List.not_mem_nil, or_false, false_or] at he
    rcases he with rfl | rfl
    · rw [order.nil_eq]
    · rw [order.eq_nil]
  | insert node =>
    obtain ⟨v, hv, -⟩ := node
    simp only [List.mem_cons, reduceCtorEq, obj.injEq, List.not_mem_nil, or_false, false_or] at he
    rcases he with he | he
    · simp [he] at hv
    · simp at he
  | item | member => simp at he

end Json

namespace Part
open Parts

/-- All that is read of a member: a list or an object is emptied unless it is a record kind. -/
def outline (p : Part) : Part :=
  { p with value :=
      match p.value with
      | .arr _ => .arr []
      | .obj ms => if (recordKind? p).isSome then .obj ms else .obj []
      | v => v }

variable (p : Part)

theorem outline_cases :
    p.outline = p ∨ (∃ vs, p.value = .arr vs ∧ p.outline = { p with value := .arr [] }) ∨
      ∃ ms, p.value = .obj ms ∧ recordKind? p = none ∧ p.outline = { p with value := .obj [] } := by
  obtain ⟨value, node, nodes⟩ := p
  cases value with
  | arr vs => exact .inr (.inl ⟨vs, rfl, rfl⟩)
  | obj ms =>
    cases hkind : recordKind? ⟨.obj ms, node, nodes⟩ with
    | none => exact .inr (.inr ⟨ms, rfl, rfl, by simp [outline, hkind]⟩)
    | some kind => exact .inl (by simp [outline, hkind])
  | _ => exact .inl rfl

@[simp] theorem string?_outline : string? p.outline = string? p := by
  rcases p.outline_cases with h | ⟨vs, hv, h⟩ | ⟨ms, hv, -, h⟩ <;> simp [string?, *]

@[simp] theorem bool?_outline : bool? p.outline = bool? p := by
  rcases p.outline_cases with h | ⟨vs, hv, h⟩ | ⟨ms, hv, -, h⟩ <;> simp [bool?, *]

@[simp] theorem word?_outline : word? p.outline = word? p := by
  rcases p.outline_cases with h | ⟨vs, hv, h⟩ | ⟨ms, hv, -, h⟩ <;> simp [word?, *]

@[simp] theorem kind?_outline : kind? p.outline = kind? p := by
  rcases p.outline_cases with h | ⟨vs, hv, h⟩ | ⟨ms, hv, -, h⟩ <;> simp [kind?, *]

@[simp] theorem recordKind?_outline : recordKind? p.outline = recordKind? p := by
  rcases p.outline_cases with h | ⟨vs, hv, h⟩ | ⟨ms, hv, hkind, h⟩
  · rw [h]
  · simp [h, recordKind?, hv]
  · rw [hkind, h]
    rfl

@[simp] theorem literal_outline : LiteralValue.ofJson? p.outline.value = LiteralValue.ofJson? p.value := by
  rcases p.outline_cases with h | ⟨vs, hv, h⟩ | ⟨ms, hv, -, h⟩ <;> simp [LiteralValue.ofJson?, *]

/-- A list or an object is not `null`. -/
theorem nullable_outline {α : Type} (read : Part → Option α) (hread : ∀ q : Part, read q.outline = read q) :
    (match p.outline.value with
      | .null => some none
      | _ => (read p.outline).map some) =
    match p.value with
      | .null => some none
      | _ => (read p).map some := by
  rcases p.outline_cases with h | ⟨vs, hv, h⟩ | ⟨ms, hv, -, h⟩
  · rw [h]
  · simp [h, hv, ← hread p]
  · simp [h, hv, ← hread p]

end Part

namespace Parts
variable {α : Type} {ps qs : Parts} {key : String} (absent : Option α) (read : Part → Option α)

def outline (ps : Parts) : Parts := ps.map fun m => (m.1, m.2.outline)

theorem under_outline (ps : Parts) (key : String) : ps.outline.under key = (ps.under key).map Part.outline := by
  simp [under, outline, List.filter_map, Function.comp_def]

@[simp] theorem field?_outline (hread : ∀ p : Part, read p.outline = read p) :
    ps.outline.field? key absent read = ps.field? key absent read := by
  rw [field?, field?, under_outline]
  rcases ps.under key with _ | ⟨p, _ | ⟨q, rest⟩⟩
  · rfl
  · exact hread p
  · rfl

@[simp] theorem nullable?_outline (hread : ∀ p : Part, read p.outline = read p) :
    ps.outline.nullable? key read = ps.nullable? key read :=
  field?_outline (some none) _ fun p => p.nullable_outline read hread

@[simp] theorem child?_outline : ps.outline.child? key = ps.child? key := nullable?_outline _ fun _ => rfl

@[simp] theorem list?_outline : ps.outline.list? key = ps.list? key := field?_outline _ _ fun _ => rfl

theorem form?_outline (kind : NodeKind) : ps.outline.form? kind = ps.form? kind := by
  cases kind <;> simp [form?, text?, flag?]

/-- The outlines of its members are enough to tell what an object spells. -/
theorem node?_outline (ps : Parts) : ps.outline.node? = ps.node? := by
  simp [node?, form?_outline]

/-- Whatever is read under the key, the one object says the same as the other. -/
def AgreeAt (ps qs : Parts) (key : String) : Prop :=
  ∀ {α : Type} (absent : Option α) (read : Part → Option α), ps.field? key absent read = qs.field? key absent read

theorem agreeAt_of_perm (h : ps.Perm qs) (key : String) : ps.AgreeAt qs key := by
  intro α absent read
  have hunder : (ps.under key).Perm (qs.under key) := (h.filter _).map _
  rw [field?, field?]
  generalize ps.under key = xs at hunder
  generalize qs.under key = ys at hunder
  rcases xs with _ | ⟨p, _ | ⟨p', xs⟩⟩
  · rw [hunder.nil_eq]
  · rw [List.perm_singleton.mp hunder.symm]
  · rcases ys with _ | ⟨q, _ | ⟨q', ys⟩⟩
    · cases hunder.eq_nil
    · cases List.perm_singleton.mp hunder
    · rfl

theorem agreeAt_insert {k : String} (h : key ≠ k) (p : Part) (ps qs : Parts) :
    (ps ++ (k, p) :: qs).AgreeAt (ps ++ qs) key := by
  refine field?_congr ?_
  rw [under_append, under_append]
  simp [under, Ne.symm h]

/-- A member that is there is the one that is read. -/
theorem read_of_field? {p : Part} {a : α} (hp : (key, p) ∈ ps) (h : ps.field? key none read = some a) :
    read p = some a := by
  have hmem : p ∈ ps.under key := List.mem_map.mpr ⟨_, List.mem_filter.mpr ⟨hp, beq_self_eq_true key⟩, rfl⟩
  unfold field? at h
  split at h
  · cases h
  · next q hq =>
    rw [hq, List.mem_singleton] at hmem
    rwa [hmem]
  · cases h

/-- A form is read off the members under the keys of its kind. -/
theorem form?_congr_keys {kind : NodeKind} (h : ∀ key ∈ kind.keys, ps.AgreeAt qs key) :
    ps.form? kind = qs.form? kind := by
  cases kind <;> simp only [NodeKind.keys, AgreeAt, List.forall_mem_cons] at h <;>
    simp [form?, text?, flag?, child?, list?, nullable?, h]

/-- A node is read off the members under the keys that all nodes share and those of its kind. -/
theorem node?_congr_keys (hshared : ∀ key ∈ ["kind", "line", "column"], ps.AgreeAt qs key)
    (hkeys : ∀ kind, ps.field? "kind" none kind? = some kind → ∀ key ∈ kind.keys, ps.AgreeAt qs key) :
    ps.node? = qs.node? := by
  have hkind : ps.AgreeAt qs "kind" := hshared _ (by simp)
  have hline : ps.AgreeAt qs "line" := hshared _ (by simp)
  have hcolumn : ps.AgreeAt qs "column" := hshared _ (by simp)
  rw [node?, node?, nullable?, nullable?, nullable?, nullable?, hline, hcolumn, ← hkind]
  cases hk : ps.field? "kind" none kind? with
  | none => rfl
  | some kind => simp [form?_congr_keys (hkeys kind hk)]

theorem node?_of_perm (h : ps.Perm qs) : ps.node? = qs.node? :=
  node?_congr_keys (fun key _ => agreeAt_of_perm h key) fun _ _ key _ => agreeAt_of_perm h key

end Parts

namespace SyntaxNode
open Parts

variable {ms ms' before after : List (String × Json)} {v w : Json}

/-- What an object spells does not depend on members that mean nothing to its kind. -/
theorem node?_insert {kind : NodeKind} {key : String} (hnode : Json.NamesKind (before ++ after) kind)
    (hshared : key ∉ ["kind", "line", "column"]) (hforeign : key ∉ kind.keys) (value : Json) :
    (partsOf (before ++ (key, value) :: after)).node? = (partsOf (before ++ after)).node? := by
  have hagree : ∀ k, k ≠ key → (partsOf (before ++ (key, value) :: after)).AgreeAt (partsOf (before ++ after)) k := by
    intro k hk
    simp only [partsOf_eq_map, List.map_append, List.map_cons]
    exact agreeAt_insert hk _ _ _
  refine node?_congr_keys (fun k hk => hagree k ?_) fun kind' hkind' k hk => hagree k ?_
  · rintro rfl
    exact hshared hk
  · -- The kind that is read is the one that the object names.
    rw [hagree "kind" (by rintro rfl; simp at hshared)] at hkind'
    obtain ⟨x, hx, hkind⟩ := hnode
    have hmem : ("kind", partOf x) ∈ partsOf (before ++ after) := by
      rw [partsOf_eq_map]
      exact List.mem_map_of_mem hx
    have hsame : kind' = kind := Option.some.inj ((read_of_field? kind? hmem hkind').symm.trans hkind)
    rintro rfl
    exact hforeign (hsame ▸ hk)

/-- A record kind is spelled by an object of one member, whose value is empty. -/
theorem eq_singleton_of_recordKind? {kind : RecordKind} (h : recordKind? (partOf (.obj ms)) = some kind) :
    ∃ s v, ms = [(s, v)] ∧ v ∈ [Json.null, .obj []] ∧ s ≠ "kind" := by
  unfold recordKind? partOf at h
  split at h
  next heq => cases heq
  next s heq =>
    cases heq
    refine ⟨s, _, rfl, by simp, ?_⟩
    rintro rfl
    cases h
  next s heq =>
    cases heq
    refine ⟨s, _, rfl, by simp, ?_⟩
    rintro rfl
    cases h
  next => cases h

/-- Objects that spell the same node have the same outline, unless one of them could be a record kind. -/
theorem outline_obj (hnode : (partsOf ms).node? = (partsOf ms').node?)
    (hkind : ∀ s v, ms = [(s, v)] ∨ ms' = [(s, v)] → v ∈ [Json.null, .obj []] → s ≠ "kind" → ms = ms') :
    (partOf (.obj ms)).outline = (partOf (.obj ms')).outline := by
  by_cases hms : ms = ms'
  · rw [hms]
  · have hnone : ∀ {rs}, ms = rs ∨ ms' = rs → recordKind? (partOf (.obj rs)) = none := by
      intro rs hrs
      refine Option.eq_none_iff_forall_ne_some.mpr fun kind h => ?_
      obtain ⟨s, v, rfl, hv, hs⟩ := eq_singleton_of_recordKind? h
      exact hms (hkind s v hrs hv hs)
    rw [Part.outline, Part.outline, hnone (.inl rfl), hnone (.inr rfl)]
    simp [partOf, ofJson?, listOf?, hnode]

theorem itemsOf?_congr {before after : List Json} (h : ofJson? v = ofJson? w) :
    itemsOf? (before ++ v :: after) = itemsOf? (before ++ w :: after) := by
  induction before with
  | nil => rw [List.nil_append, List.nil_append, itemsOf?, itemsOf?, h]
  | cons u before ih => rw [List.cons_append, List.cons_append, itemsOf?, itemsOf?, ih]

/-- An edit cannot be told from the outline. -/
theorem outline_of_edit (h : v.Edit w) : (partOf v).outline = (partOf w).outline := by
  induction h with
  | reorder order =>
    refine outline_obj ?_ ?_
    · rw [partsOf_eq_map, partsOf_eq_map]
      exact node?_of_perm (order.map _)
    · rintro s v (rfl | rfl) - -
      · exact (List.perm_singleton.mp order.symm).symm
      · exact List.perm_singleton.mp order
  | @insert kind before after key value node shared foreign =>
    refine outline_obj (node?_insert node shared foreign value).symm ?_
    obtain ⟨x, hx, -⟩ := node
    have hx' : ("kind", x) ∈ before ++ (key, value) :: after := by
      rw [List.mem_append] at hx ⊢
      exact hx.imp_right (List.mem_cons_of_mem _)
    rintro s v (h | h) - hs
    · rw [h, List.mem_singleton] at hx
      exact absurd (congrArg Prod.fst hx).symm hs
    · rw [h, List.mem_singleton] at hx'
      exact absurd (congrArg Prod.fst hx').symm hs
  | item _ ih =>
    have hnode : ofJson? _ = ofJson? _ := congrArg Part.node ih
    simp [Part.outline, partOf, ofJson?, listOf?, itemsOf?_congr hnode]
  | @member before key v w after edit ih =>
    refine outline_obj ?_ ?_
    · have hparts : (partsOf (before ++ (key, v) :: after)).outline =
          (partsOf (before ++ (key, w) :: after)).outline := by
        simp only [partsOf_eq_map, Parts.outline, List.map_append, List.map_cons, ih]
      rw [← node?_outline, hparts, node?_outline]
    · -- The value of a record kind is empty, and no edit is made there.
      intro s u hs hu _
      rw [edit.eq_of_empty]
      rcases hs with hs | hs
      · have hv : v ∈ ([(s, u)] : List (String × Json)).map Prod.snd := by simp [← hs]
        exact .inl (List.mem_singleton.mp hv ▸ hu)
      · have hw : w ∈ ([(s, u)] : List (String × Json)).map Prod.snd := by simp [← hs]
        exact .inr (List.mem_singleton.mp hw ▸ hu)

/-- Values that are alike up to the order of members, and up to members that mean nothing where they stand, spell the
same node or none, and give the same tree or the same error. -/
theorem ofJson?_of_edits (h : Relation.EqvGen Json.Edit v w) :
    ofJson? v = ofJson? w ∧ (ofJson? v).map Tree.ofSyntax = (ofJson? w).map Tree.ofSyntax := by
  have hsame : ofJson? v = ofJson? w := by
    induction h with
    | rel v w edit => exact congrArg Part.node (outline_of_edit edit)
    | refl v => rfl
    | symm v w _ ih => exact ih.symm
    | trans u v w _ _ ih ih' => exact ih.trans ih'
  exact ⟨hsame, congrArg (Option.map Tree.ofSyntax) hsame⟩

def unitOf (declaration : Json) : Json :=
  .obj [("kind", .str "translation_unit"), ("name", .str "A.java"), ("declarations", .arr [declaration])]

/-- The variable says its kind last, and twice what only the other kinds have. The unit says its own last too. -/
theorem ofJson?_of_edits_unitOf :
    let v := unitOf (.obj [("kind", .str "variable"), ("name", .str "x"), ("line", .int 1)])
    let w := Json.obj [("declarations", .arr [.obj [("line", .int 1), ("value", .null), ("name", .str "x"),
      ("value", .int 7), ("kind", .str "variable")]]), ("name", .str "A.java"), ("kind", .str "translation_unit")]
    Relation.EqvGen Json.Edit v w ∧ (ofJson? v).isSome = true ∧ ofJson? v = ofJson? w ∧
      (ofJson? v).map Tree.ofSyntax = (ofJson? w).map Tree.ofSyntax := by
  intro v w
  have hbelow : ∀ {v w}, Json.Edit v w → Relation.EqvGen Json.Edit (unitOf v) (unitOf w) := fun edit =>
    .rel _ _ (@Json.Edit.member [("kind", .str "translation_unit"), ("name", .str "A.java")] "declarations" _ _ []
      (@Json.Edit.item [] _ _ [] edit))
  have hnames : ∀ {ms}, ("kind", .str "variable") ∈ ms → Json.NamesKind ms .variableDecl := fun h => ⟨_, h, rfl⟩
  have hfirst := hbelow (@Json.Edit.insert .variableDecl [("kind", .str "variable"), ("name", .str "x")]
    [("line", .int 1)] "value" .null (hnames (by simp)) (by decide) (by decide))
  have hsecond := hbelow (@Json.Edit.insert .variableDecl [("kind", .str "variable")]
    [("name", .str "x"), ("value", .null), ("line", .int 1)] "value" (.int 7) (hnames (by simp)) (by decide)
    (by decide))
  have hedits : Relation.EqvGen Json.Edit v w :=
    .trans _ _ _ hfirst (.trans _ _ _ hsecond (.trans _ _ _ (hbelow (.reorder (List.reverse_perm _).symm))
      (.rel _ _ (.reorder (List.reverse_perm _).symm))))
  exact ⟨hedits, by decide +kernel, ofJson?_of_edits hedits⟩

end SyntaxNode
end NameResolution
