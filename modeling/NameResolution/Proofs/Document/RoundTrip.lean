import NameResolution.Document.Encode
import NameResolution.Document.Lowering
import NameResolution.Proofs.Document.Children
import NameResolution.Proofs.FiniteFloat

/-!
# Reading back what was written

A document is written with all its members and read member by member. What is written of a node is read as that node
again, at any depth, exactly if no literal below is an infinity or an undefined number: these have no JSON form but
`null`. A JSON value holds finite numbers only, so what is read from one can be written and read again.
-/
namespace NameResolution

/-- The value is no infinity and no undefined number. -/
def LiteralValue.IsFinite : LiteralValue → Prop
  | .float x => x.isFinite = true
  | _ => True

/-- The floating literals of the node are finite, at any depth. -/
inductive SyntaxNode.IsFinite : SyntaxNode → Prop
  | mk {line column : Option UInt32} {form : SyntaxForm} (literal : ∀ value, form = .literal value → value.IsFinite)
      (children : ∀ n ∈ form.children, n.IsFinite) : IsFinite (mk line column form)

/-- The floating numbers of the value are finite, at any depth. -/
inductive Json.IsFinite : Json → Prop
  | null : IsFinite null
  | bool (b : Bool) : IsFinite (bool b)
  | int (n : Int) : IsFinite (int n)
  | float {x : Float} (h : x.isFinite = true) : IsFinite (float x)
  | str (s : String) : IsFinite (str s)
  | arr {vs : List Json} (items : ∀ v ∈ vs, v.IsFinite) : IsFinite (arr vs)
  | obj {ms : List (String × Json)} (members : ∀ m ∈ ms, m.2.IsFinite) : IsFinite (obj ms)

namespace LiteralValue

theorem fits_toInt (n : Int64) : fits n.toInt = true :=
  Bool.and_eq_true_iff.mpr ⟨decide_eq_true n.minValue_le_toInt, decide_eq_true n.toInt_le⟩

theorem ofJson?_toJson {value : LiteralValue} (h : value.IsFinite) : ofJson? value.toJson = some value := by
  cases value with
  | int n => simp [toJson, ofJson?, fits_toInt]
  | float x =>
    change x.isFinite = true at h
    rw [toJson, if_pos h, ofJson?]
  | _ => rfl

/-- Also a whole number that is read as a double is read as a finite one. -/
theorem isFinite_of_ofJson? {v : Json} {value : LiteralValue} (hv : v.IsFinite) (h : ofJson? v = some value) :
    value.IsFinite := by
  cases hv with
  | int n =>
    cases h
    split
    · trivial
    · exact FiniteFloat.isFinite_floatOfInt n
  | float hx =>
    cases h
    exact hx
  | arr | obj => cases h
  | _ =>
    cases h
    trivial

theorem isFinite_toJson (value : LiteralValue) : value.toJson.IsFinite := by
  cases value with
  | float x =>
    rw [toJson]
    split
    next h => exact .float h
    next => exact .null
  | null => exact .null
  | bool b => exact .bool b
  | int n => exact .int _
  | str s => exact .str s

end LiteralValue

/-- The member spells the node, alone or in a list. -/
def Part.Spells (p : Part) (n : SyntaxNode) : Prop := p.node = some n ∨ ∃ ns, p.nodes = some ns ∧ n ∈ ns

namespace Parts
variable {ps qs : Parts} {key : String} {α : Type}

theorem under_append (ps qs : Parts) (key : String) : (ps ++ qs).under key = ps.under key ++ qs.under key := by
  simp [under]

theorem field?_congr (h : ps.under key = qs.under key) (absent : Option α) (read : Part → Option α) :
    ps.field? key absent read = qs.field? key absent read := by
  rw [field?, field?, h]

/-- The kind and the place of a node stand apart from what a node of its kind says. -/
theorem form?_congr (h : ∀ key ∉ ["kind", "line", "column"], ps.under key = qs.under key) (kind : NodeKind) :
    ps.form? kind = qs.form? kind := by
  have hfield : ∀ {α : Type} {key} (absent : Option α) (read), key ∉ ["kind", "line", "column"] →
      ps.field? key absent read = qs.field? key absent read := fun a r hkey => field?_congr (h _ hkey) a r
  cases kind <;> simp [form?, text?, flag?, child?, list?, nullable?, hfield]

/-- What is read under a key is read off a member, or it is what absence says. -/
theorem cases_of_field? {absent : Option α} {read : Part → Option α} {a : α} (h : ps.field? key absent read = some a) :
    absent = some a ∨ ∃ m ∈ ps, read m.2 = some a := by
  unfold field? at h
  split at h
  next => exact .inl h
  next p hp =>
    have hmem : p ∈ ps.under key := hp ▸ List.mem_singleton_self p
    simp only [under, List.mem_map, List.mem_filter] at hmem
    obtain ⟨m, ⟨hm, -⟩, rfl⟩ := hmem
    exact .inr ⟨m, hm, h⟩
  next => cases h

section
variable {n : SyntaxNode}

theorem spells_of_child? {part : Option SyntaxNode} (h : ps.child? key = some part) (hn : n ∈ part.toList) :
    ∃ m ∈ ps, m.2.Spells n := by
  obtain rfl : part = some n := by simpa using hn
  rcases cases_of_field? h with h | ⟨m, hm, h⟩
  · cases h
  · split at h
    · cases h
    · exact ⟨m, hm, .inl (by simpa using h)⟩

theorem spells_of_list? {ns : List SyntaxNode} (h : ps.list? key = some ns) (hn : n ∈ ns) :
    ∃ m ∈ ps, m.2.Spells n := by
  rcases cases_of_field? h with h | ⟨m, hm, h⟩
  · cases h
    cases hn
  · exact ⟨m, hm, .inr ⟨ns, h, hn⟩⟩

/-- The nodes below a node are spelled by its members. -/
theorem spells_of_form? {kind : NodeKind} {form : SyntaxForm} (h : ps.form? kind = some form) (hn : n ∈ form.children) :
    ∃ m ∈ ps, m.2.Spells n := by
  cases kind <;> simp [form?, Option.bind_eq_some_iff] at h <;>
    grind [SyntaxForm.children, spells_of_child?, spells_of_list?]

end

theorem literal_of_form? {kind : NodeKind} {value : LiteralValue} (h : ps.form? kind = some (.literal value)) :
    ∃ m ∈ ps, LiteralValue.ofJson? m.2.value = some value := by
  cases kind <;> simp [form?, Option.bind_eq_some_iff] at h
  exact (cases_of_field? h).resolve_left nofun

end Parts

namespace SyntaxNode
open Parts

def partOf (v : Json) : Part := { value := v, node := ofJson? v, nodes := listOf? v }

theorem partsOf_eq_map (ms : List (String × Json)) : partsOf ms = ms.map fun m => (m.1, partOf m.2) := by
  induction ms with
  | nil => rw [partsOf, List.map_nil]
  | cons m ms ih => rw [partsOf, ih, List.map_cons, partOf]

/-- What is read of a value that may be `null`. -/
def nullOr {α : Type} (v : Json) (read : Part → Option α) : Option (Option α) :=
  match v with
  | .null => some none
  | _ => (read (partOf v)).map some

section
variable {key k : String} {v : Json} {ms : List (String × Json)}

theorem under_nil (key : String) : (partsOf []).under key = [] := by
  rw [partsOf_eq_map]
  rfl

theorem under_cons (key k : String) (v : Json) (ms : List (String × Json)) :
    (partsOf ((k, v) :: ms)).under key =
      if k = key then partOf v :: (partsOf ms).under key else (partsOf ms).under key := by
  rw [partsOf, under, List.filter_cons]
  by_cases h : k = key <;> simp [h, under, partOf]

variable {α : Type} (absent : Option α) (read : Part → Option α)

theorem field?_self (h : (partsOf ms).under key = []) :
    (partsOf ((key, v) :: ms)).field? key absent read = read (partOf v) := by
  rw [field?, under_cons, if_pos rfl, h]

theorem field?_of_ne (h : k ≠ key) :
    (partsOf ((k, v) :: ms)).field? key absent read = (partsOf ms).field? key absent read :=
  field?_congr (by rw [under_cons, if_neg h]) absent read

theorem nullable?_self (h : (partsOf ms).under key = []) :
    (partsOf ((key, v) :: ms)).nullable? key read = nullOr v read := by
  rw [nullable?, field?_self _ _ h]
  cases v <;> rfl

theorem nullable?_of_ne (h : k ≠ key) :
    (partsOf ((k, v) :: ms)).nullable? key read = (partsOf ms).nullable? key read := field?_of_ne (some none) _ h

end

section
variable {ns : List SyntaxNode} {part : Option SyntaxNode}

theorem itemsOf?_itemsToJson (h : ∀ n ∈ ns, ofJson? n.toJson = some n) : itemsOf? (itemsToJson ns) = some ns := by
  induction ns with
  | nil => rw [itemsToJson, itemsOf?]
  | cons n ns ih =>
    rw [List.forall_mem_cons] at h
    simp [itemsToJson, itemsOf?, h.1, ih h.2]

theorem nodes_listToJson (h : ∀ n ∈ ns, ofJson? n.toJson = some n) : (partOf (listToJson ns)).nodes = some ns := by
  rw [partOf, listToJson, listOf?]
  exact itemsOf?_itemsToJson h

theorem nullOr_optionToJson (h : ∀ n ∈ part.toList, ofJson? n.toJson = some n) :
    nullOr (optionToJson part) Part.node = some part := by
  cases part with
  | none => rw [optionToJson, nullOr]
  | some n =>
    have hn : ofJson? n.toJson = some n := h n (List.mem_singleton_self n)
    obtain ⟨line, column, form⟩ := n
    rw [optionToJson, toJson, nullOr, partOf, ← toJson, hn]
    · rfl
    · exact Json.noConfusion

end

theorem nullOr_ofOption (o : Option String) : nullOr (Json.ofOption .str o) string? = some o := by
  cases o <;> rfl

theorem string?_str (s : String) : string? (partOf (.str s)) = some s := rfl

theorem bool?_bool (b : Bool) : bool? (partOf (.bool b)) = some b := rfl

theorem recordKind?_name (kind : RecordKind) : recordKind? (partOf (.str kind.name)) = some kind :=
  RecordKind.ofName?_name kind

theorem kind?_tag (kind : NodeKind) : kind? (partOf (.str kind.tag)) = some kind := NodeKind.ofTag?_tag kind

theorem word?_nat (n : UInt32) : word? (partOf (.nat n.toNat)) = some n := by
  have hlt := n.toNat_lt
  simp [word?, partOf, Json.nat, UInt32.size]
  omega

/-- No kind has a member of its own under a key that all nodes share. -/
theorem under_members {key : String} (h : key ∈ ["kind", "line", "column"]) (form : SyntaxForm) :
    (partsOf form.members).under key = [] := by
  simp only [List.mem_cons, List.not_mem_nil, or_false] at h
  rcases h with rfl | rfl | rfl <;> cases form <;> simp [SyntaxForm.members, under_cons, under_nil]

theorem under_word? (key k : String) (word : Option UInt32) :
    (partsOf (Json.word? k word)).under key =
      if k = key then (word.map fun n => partOf (.nat n.toNat)).toList else [] := by
  cases word <;> simp [Json.word?, under_cons, under_nil]

theorem nullable?_word {ps : Parts} {key : String} {word : Option UInt32}
    (h : ps.under key = (word.map fun n => partOf (.nat n.toNat)).toList) : ps.nullable? key word? = some word := by
  rw [nullable?, field?, h]
  cases word with
  | none => rfl
  | some n => exact congrArg (Option.map some) (word?_nat n)

section
variable {form : SyntaxForm} (hliteral : ∀ value, form = .literal value → value.IsFinite)
  (hchildren : ∀ n ∈ form.children, ofJson? n.toJson = some n)
include hliteral hchildren

/-- The members of each kind are read under the keys that they are written under. -/
theorem form?_members : (partsOf form.members).form? form.kind = some form := by
  cases form with
  | literal value =>
    have h := LiteralValue.ofJson?_toJson (hliteral value rfl)
    simp [SyntaxForm.members, SyntaxForm.kind, form?, field?_self, under_nil, partOf, h]
  | _ =>
    simp only [SyntaxForm.children, List.forall_mem_append] at hchildren
    simp_all [SyntaxForm.members, SyntaxForm.kind, form?, text?, flag?, child?, list?, field?_self, field?_of_ne,
      nullable?_self, nullable?_of_ne, under_cons, under_nil, nodes_listToJson, nullOr_optionToJson, nullOr_ofOption,
      recordKind?_name, string?_str, bool?_bool]

/-- A node is read back if the nodes directly below it are. -/
theorem ofJson?_mk (line column : Option UInt32) :
    ofJson? (mk line column form).toJson = some (mk line column form) := by
  rw [toJson, ofJson?, node?]
  have hunder : ∀ key, (partsOf (("kind", .str form.kind.tag) :: form.members ++ Json.word? "line" line ++
      Json.word? "column" column)).under key = _ := fun key => by
    rw [partsOf_eq_map, List.map_append, List.map_append, ← partsOf_eq_map, ← partsOf_eq_map, ← partsOf_eq_map,
      under_append, under_append, under_cons, under_word?, under_word?]
  generalize partsOf _ = parts at hunder
  have hline : parts.nullable? "line" word? = some line := nullable?_word (by simp [hunder, under_members])
  have hcolumn : parts.nullable? "column" word? = some column := nullable?_word (by simp [hunder, under_members])
  have hkind : parts.field? "kind" none kind? = some form.kind := by simp [field?, hunder, under_members, kind?_tag]
  have hform : parts.form? form.kind = some form := by
    rw [← form?_members hliteral hchildren]
    refine form?_congr (fun key hkey => ?_) _
    simp only [List.mem_cons, List.not_mem_nil, or_false, not_or] at hkey
    simp [hunder, Ne.symm hkey.1, Ne.symm hkey.2.1, Ne.symm hkey.2.2]
  simp [hline, hcolumn, hkind, hform]

end

theorem ofJson?_toJson {n : SyntaxNode} (h : n.IsFinite) : ofJson? n.toJson = some n := by
  induction h with
  | mk literal _ ih => exact ofJson?_mk literal ih _ _

section
variable {v : Json} {n : SyntaxNode}

theorem exists_of_mem_itemsOf? {vs : List Json} {ns : List SyntaxNode} (h : itemsOf? vs = some ns) (hn : n ∈ ns) :
    ∃ v ∈ vs, ofJson? v = some n := by
  induction vs generalizing ns with
  | nil => simp_all [itemsOf?]
  | cons v vs ih =>
    simp only [itemsOf?, Option.bind_eq_bind, Option.bind_eq_some_iff, Option.pure_def, Option.some.injEq] at h
    obtain ⟨m, hm, ms, hms, rfl⟩ := h
    rcases List.mem_cons.mp hn with rfl | hn
    · exact ⟨v, List.mem_cons_self, hm⟩
    · obtain ⟨w, hw, hofJson⟩ := ih hms hn
      exact ⟨w, List.mem_cons_of_mem _ hw, hofJson⟩

/-- What a node says is read off the members of an object. -/
theorem exists_of_ofJson? (h : ofJson? v = some n) :
    ∃ ms kind, v = .obj ms ∧ (partsOf ms).form? kind = some n.form := by
  cases v with
  | obj ms =>
    simp only [ofJson?, node?, Option.bind_eq_bind, Option.bind_eq_some_iff, Option.pure_def, Option.some.injEq] at h
    obtain ⟨line, -, column, -, kind, -, form, hform, rfl⟩ := h
    exact ⟨ms, kind, rfl, hform⟩
  | _ => simp [ofJson?] at h

/-- What a finite value spells is finite. -/
theorem isFinite_of_spells (hv : v.IsFinite) (h : (partOf v).Spells n) : n.IsFinite := by
  induction hv generalizing n with
  | @arr vs _ ih =>
    obtain ⟨ns, hns, hn⟩ := h.resolve_left (by simp [partOf, ofJson?])
    have hitems : itemsOf? vs = some ns := by simpa only [partOf, listOf?] using hns
    obtain ⟨w, hw, hofJson⟩ := exists_of_mem_itemsOf? hitems hn
    exact ih w hw (.inl hofJson)
  | @obj ms hmembers ih =>
    obtain ⟨_, kind, heq, hform⟩ := exists_of_ofJson? (h.resolve_right (by simp [partOf, listOf?]))
    cases heq
    have hpart : ∀ m ∈ partsOf ms, ∃ member ∈ ms, m.2 = partOf member.2 := by
      simp only [partsOf_eq_map, List.mem_map]
      rintro _ ⟨member, hm, rfl⟩
      exact ⟨member, hm, rfl⟩
    obtain ⟨line, column, form⟩ := n
    constructor
    · rintro value rfl
      obtain ⟨m, hm, hvalue⟩ := literal_of_form? hform
      obtain ⟨member, hmember, heq⟩ := hpart m hm
      rw [heq] at hvalue
      exact LiteralValue.isFinite_of_ofJson? (hmembers member hmember) hvalue
    · intro child hchild
      obtain ⟨m, hm, hspells⟩ := spells_of_form? hform hchild
      obtain ⟨member, hmember, heq⟩ := hpart m hm
      exact ih member hmember (heq ▸ hspells)
  | _ => simp [Part.Spells, partOf, ofJson?, listOf?] at h

theorem isFinite_of_ofJson? (hv : v.IsFinite) (h : ofJson? v = some n) : n.IsFinite := isFinite_of_spells hv (.inl h)

end

theorem isFinite_itemsToJson {ns : List SyntaxNode} (h : ∀ n ∈ ns, n.toJson.IsFinite) :
    ∀ v ∈ itemsToJson ns, v.IsFinite := by
  induction ns with
  | nil => simp [itemsToJson]
  | cons n ns ih =>
    rw [List.forall_mem_cons] at h
    rw [itemsToJson, List.forall_mem_cons]
    exact ⟨h.1, ih h.2⟩

theorem isFinite_listToJson {ns : List SyntaxNode} (h : ∀ n ∈ ns, n.toJson.IsFinite) : (listToJson ns).IsFinite := by
  rw [listToJson]
  exact .arr (isFinite_itemsToJson h)

theorem isFinite_optionToJson {part : Option SyntaxNode} (h : ∀ n ∈ part.toList, n.toJson.IsFinite) :
    (optionToJson part).IsFinite := by
  cases part with
  | none =>
    rw [optionToJson]
    exact .null
  | some n =>
    rw [optionToJson]
    exact h n (List.mem_singleton_self n)

theorem isFinite_ofOption (o : Option String) : (Json.ofOption .str o).IsFinite := by
  cases o with
  | none => exact .null
  | some s => exact .str s

theorem isFinite_word? {key : String} {word : Option UInt32} : ∀ m ∈ Json.word? key word, m.2.IsFinite := by
  cases word with
  | none => simp [Json.word?]
  | some n =>
    rw [Json.word?, List.forall_mem_singleton]
    exact .int _

theorem isFinite_members {form : SyntaxForm} (h : ∀ n ∈ form.children, n.toJson.IsFinite) :
    ∀ m ∈ form.members, m.2.IsFinite := by
  cases form <;> simp only [SyntaxForm.children, List.forall_mem_append] at h <;>
    simp_all [SyntaxForm.members, Json.IsFinite.str, Json.IsFinite.bool, isFinite_listToJson, isFinite_optionToJson,
      isFinite_ofOption, LiteralValue.isFinite_toJson]

/-- Whatever a node is, what is written of it is finite. -/
theorem isFinite_toJson (n : SyntaxNode) : n.toJson.IsFinite := by
  induction n using SyntaxNode.induction with
  | step line column form ih =>
    rw [toJson]
    refine .obj ?_
    simp only [List.forall_mem_append, List.forall_mem_cons]
    exact ⟨⟨⟨.str _, isFinite_members ih⟩, isFinite_word?⟩, isFinite_word?⟩

/-- What is written of a node is read as that node exactly if its literals are finite. What is read from a JSON value
can be written and read again, and becomes the same tree. -/
theorem read_written :
    (∀ n : SyntaxNode, ofJson? n.toJson = some n ↔ n.IsFinite) ∧
      ∀ (v : Json) (n : SyntaxNode), v.IsFinite → ofJson? v = some n →
        ∃ n', ofJson? n.toJson = some n' ∧ n' = n ∧ Tree.ofSyntax n' = Tree.ofSyntax n ∧
          ∀ t : Tree, n'.lower.run t = n.lower.run t := by
  constructor
  · intro n
    exact ⟨isFinite_of_ofJson? (isFinite_toJson n), ofJson?_toJson⟩
  · intro v n hv h
    exact ⟨n, ofJson?_toJson (isFinite_of_ofJson? hv h), rfl, rfl, fun _ => rfl⟩

/-- A product of one and a half and a name, at the first line. -/
def scaled : SyntaxNode :=
  mk (some 1) none (.binaryOp "*" (some (mk none none (.literal (.float 1.5)))) (some (mk none none (.reference "x"))))

theorem isFinite_scaled : scaled.IsFinite := by
  refine .mk (fun _ h => by cases h) ?_
  simp only [SyntaxForm.children, Option.toList_some, List.forall_mem_append, List.forall_mem_singleton]
  constructor
  · refine .mk ?_ fun _ h => by cases h
    rintro _ ⟨⟩
    change (1.5 : Float).isFinite = true
    decide
  · exact .mk (fun _ h => by cases h) fun _ h => by cases h

theorem read_written_scaled :
    scaled.toJson.IsFinite ∧ ofJson? scaled.toJson = some scaled ∧
      ∃ n', ofJson? scaled.toJson = some n' ∧ n' = scaled ∧ Tree.ofSyntax n' = Tree.ofSyntax scaled ∧
        ∀ t : Tree, n'.lower.run t = scaled.lower.run t :=
  have hread : ofJson? scaled.toJson = some scaled := (read_written.1 scaled).mpr isFinite_scaled
  ⟨isFinite_toJson scaled, hread, read_written.2 scaled.toJson scaled (isFinite_toJson scaled) hread⟩

end SyntaxNode
end NameResolution
