import NameResolution.Proofs.Document.Lowered
import NameResolution.Proofs.Respects
import NameResolution.Tree.Builder

/-!
# Chains of parents end

The lists of children of a tree that was built by hand may run in circles, and no order of the ids says which of two
nodes stands above the other: a node that is built is the parent of older ones, and a node that a pass adds has an older
one for its parent. What every operation keeps is that each node has a lineage. A new node either has no parent, so that
whatever it takes for its children gets a lineage that ends there, or it is put below a node that has one.
-/
namespace NameResolution.Tree

/-- An operation that changes a tree. The ids that it is given may be any, and so may the limits of walks: a walk
that comes to its end is the walk without a limit. -/
inductive Call where
  | addUnit (name : String) (declarations : List NodeId)
  | addRecord (name : String) (kind : RecordKind) (members : List NodeId)
  | addMethod (name : String) (isStatic : Bool) (parameters : List NodeId) (body : Option NodeId)
  | addFunction (name : String) (parameters : List NodeId) (body : Option NodeId)
  | addField (name : String) (typeName : Option String) (isStatic : Bool) (initializer : Option NodeId)
  | addVariable (name : String) (typeName : Option String) (initializer : Option NodeId)
  | addParameter (name : String) (typeName : Option String)
  | addCompound (statements : List NodeId)
  | addDeclStatement (declarations : List NodeId)
  | addReturn (value : Option NodeId)
  | addFor (initializer condition iteration body : Option NodeId)
  | addWhile (condition body : Option NodeId)
  | addIf (declaration condition thenBranch elseBranch : Option NodeId)
  | addTry (body : Option NodeId) (clauses : List NodeId)
  | addCatch (parameter body : Option NodeId)
  | addReference (name : String)
  | addCallOf (name : String) (callee : Option NodeId) (arguments : List NodeId)
  | addCall (name : String) (arguments : List NodeId)
  | addNew (typeName : String) (arguments : List NodeId)
  | addBinary (operator : String) (lhs rhs : Option NodeId)
  | addAccess (name : String) (base member : Option NodeId)
  | addMember (base : NodeId) (name : String)
  | addLiteral (value : LiteralValue)
  | setRegion (id : NodeId) (region : Region)
  | register (config : Config) (root : NodeId) (limit : Nat)
  | resolve (config : Config) (limit : Tree → Nat)

def call (t : Tree) : Call → Tree
  | .addUnit name declarations => (t.addUnit name declarations).2
  | .addRecord name kind members => (t.addRecord name kind members).2
  | .addMethod name isStatic parameters body => (t.addMethod name isStatic parameters body).2
  | .addFunction name parameters body => (t.addFunction name parameters body).2
  | .addField name typeName isStatic initializer => (t.addField name typeName isStatic initializer).2
  | .addVariable name typeName initializer => (t.addVariable name typeName initializer).2
  | .addParameter name typeName => (t.addParameter name typeName).2
  | .addCompound statements => (t.addCompound statements).2
  | .addDeclStatement declarations => (t.addDeclStatement declarations).2
  | .addReturn value => (t.addReturn value).2
  | .addFor initializer condition iteration body => (t.addFor initializer condition iteration body).2
  | .addWhile condition body => (t.addWhile condition body).2
  | .addIf declaration condition thenBranch elseBranch => (t.addIf declaration condition thenBranch elseBranch).2
  | .addTry body clauses => (t.addTry body clauses).2
  | .addCatch parameter body => (t.addCatch parameter body).2
  | .addReference name => (t.addReference name).2
  | .addCallOf name callee arguments => (t.addCallOf name callee arguments).2
  | .addCall name arguments => (t.addCall name arguments).2
  | .addNew typeName arguments => (t.addNew typeName arguments).2
  | .addBinary operator lhs rhs => (t.addBinary operator lhs rhs).2
  | .addAccess name base member => (t.addAccess name base member).2
  | .addMember base name => (t.addMember base name).2
  | .addLiteral value => (t.addLiteral value).2
  | .setRegion id region => t.setRegion id region
  | .register config root limit => (t.register config root limit).tree
  | .resolve config limit => (t.resolve config limit).tree

/-- The tree that operations one after another make of the empty one. -/
def after (calls : List Call) : Tree := calls.foldl call {}

def parent? (t : Tree) (id : NodeId) : Option NodeId := (t.get? id).bind Node.parent

/-- The nodes that are come by on the way from a node to its parent and on, until there is none. -/
inductive Climbs (t : Tree) : NodeId → List NodeId → Prop
  | stop {id} (top : t.parent? id = none) : Climbs t id []
  | up {id p above} (parent : t.parent? id = some p) (rest : Climbs t p above) : Climbs t id (p :: above)

/-- The search for a record from parent to parent, with no limit to its steps: where it looks next, and what it answers
in the end. -/
inductive FindsRecord (t : Tree) : Option NodeId → Option NodeId → Prop
  | none : FindsRecord t none none
  | dangling {id} (node : t.get? id = .none) : FindsRecord t (some id) .none
  | record {id n} (node : t.get? id = some n) (kind : n.kind = .recordDecl) : FindsRecord t (some id) (some id)
  | up {id n found} (node : t.get? id = some n) (kind : n.kind ≠ .recordDecl) (rest : FindsRecord t n.parent found) :
      FindsRecord t (some id) found

/-- A name among the names of the records around it, each of them qualified in turn. -/
inductive Qualifies (t : Tree) (separator : String) : NodeId → String → Prop
  | path {id} (path : Text.isPath separator (t.nameOf id) = true) : Qualifies t separator id (t.nameOf id)
  | outermost {id} (path : Text.isPath separator (t.nameOf id) = false) (alone : t.FindsRecord (t.parent? id) none) :
      Qualifies t separator id (t.nameOf id)
  | inside {id outer qualified} (path : Text.isPath separator (t.nameOf id) = false)
      (record : t.FindsRecord (t.parent? id) (some outer)) (rest : Qualifies t separator outer qualified) :
      Qualifies t separator id (Text.joinPath separator qualified (t.nameOf id))

def Rooted (t : Tree) : Prop := ∀ id n, t.get? id = some n → ∃ above, t.Lineage id above

section
variable {t : Tree} {id : NodeId} {n : Node} {above : List NodeId} {found found' : Option NodeId} {separator : String}

theorem parent?_of_get? (hn : t.get? id = some n) : t.parent? id = n.parent := by
  rw [parent?, hn, Option.bind_some]

theorem Lineage.climbs (h : t.Lineage id above) : t.Climbs id above := by
  induction h with
  | top hn hp => exact .stop ((parent?_of_get? hn).trans hp)
  | under hn hp _ ih => exact .up ((parent?_of_get? hn).trans hp) ih

theorem FindsRecord.unique {current : Option NodeId} (h : t.FindsRecord current found)
    (h' : t.FindsRecord current found') : found = found' := by
  induction h with
  | none => cases h'; rfl
  | dangling hn => cases h' <;> simp_all
  | record hn hk => cases h' <;> simp_all
  | up hn hk _ ih =>
    cases h' with
    | dangling hn' | record hn' hk' => simp_all
    | up hn' _ rest' =>
      rw [hn] at hn'
      cases hn'
      exact ih rest'

/-- The search goes up the lineage. -/
theorem Lineage.findsRecord (h : t.Lineage id above) :
    t.FindsRecord (t.parent? id) (above.find? fun a => t.kind? a == some .recordDecl) := by
  induction h with
  | top hn hp =>
    rw [parent?_of_get? hn, hp]
    exact .none
  | @under id n p above hn hp up ih =>
    obtain ⟨m, hm⟩ := up.exists_node
    have hkind : t.kind? p = some m.kind := by rw [kind?, hm, Option.map_some]
    rw [parent?_of_get? hn, hp]
    by_cases hk : m.kind = .recordDecl
    · rw [List.find?_cons_of_pos (by simp [hkind, hk])]
      exact .record hm hk
    · rw [List.find?_cons_of_neg (by simp [hkind, hk])]
      exact .up hm hk (parent?_of_get? hm ▸ ih)

theorem Qualifies.unique {name name' : String} (h : t.Qualifies separator id name)
    (h' : t.Qualifies separator id name') : name = name' := by
  induction h generalizing name' with
  | path hpath => cases h' <;> simp_all
  | outermost hpath halone =>
    cases h' with
    | path | outermost => rfl
    | inside _ hrecord' _ => cases halone.unique hrecord'
  | inside hpath hrecord _ ih =>
    cases h' with
    | path hpath' => simp_all
    | outermost _ halone' => cases hrecord.unique halone'
    | inside _ hrecord' rest' =>
      cases hrecord.unique hrecord'
      rw [ih rest']

namespace Rooted

/-- What an id has above it is its lineage, unless it points nowhere. -/
theorem lineage_or_dangling (h : t.Rooted) (id : NodeId) :
    t.Lineage id (t.ancestors id) ∨ t.parent? id = none ∧ t.ancestors id = [] := by
  cases hn : t.get? id with
  | none => exact .inr ⟨by rw [parent?, hn, Option.bind_none], ancestors_of_get?_none hn⟩
  | some n =>
    obtain ⟨above, hl⟩ := h _ _ hn
    exact .inl (hl.ancestors_eq ▸ hl)

theorem findsRecord (h : t.Rooted) (id : NodeId) : t.FindsRecord (t.parent? id) (t.enclosingRecord? id) := by
  rw [enclosingRecord?, enclosingRecords, List.head?_filter]
  rcases h.lineage_or_dangling id with hl | ⟨hp, ha⟩
  · exact hl.findsRecord
  · rw [hp, ha]
    exact .none

/-- The records around a record are those after it on the way up. -/
theorem enclosingRecords_of_cons {outer : NodeId} {outers : List NodeId} (h : t.Rooted)
    (hrecords : t.enclosingRecords id = outer :: outers) : t.enclosingRecords outer = outers := by
  rw [enclosingRecords] at hrecords
  rcases h.lineage_or_dangling id with hl | ⟨-, ha⟩
  · obtain ⟨nearer, further, heq, -, -, hfurther⟩ := List.filter_eq_cons_iff.mp hrecords
    rw [heq] at hl
    rw [enclosingRecords, hl.of_append.ancestors_eq, hfurther]
  · rw [ha] at hrecords
    cases hrecords

theorem qualifies (h : t.Rooted) (separator : String) (id : NodeId) :
    t.Qualifies separator id (t.qualifiedName separator id) := by
  have hfinds := h.findsRecord id
  induction hrecords : t.enclosingRecords id generalizing id with
  | nil =>
    rw [enclosingRecord?, hrecords] at hfinds
    rw [qualifiedName, hrecords, qualify]
    cases hpath : Text.isPath separator (t.nameOf id) with
    | true => exact .path hpath
    | false => exact .outermost hpath hfinds
  | cons outer outers ih =>
    rw [enclosingRecord?, hrecords] at hfinds
    rw [qualifiedName, hrecords, qualify]
    cases hpath : Text.isPath separator (t.nameOf id) with
    | true => exact .path hpath
    | false =>
      have houters := h.enclosingRecords_of_cons hrecords
      have hrest := ih outer (h.findsRecord outer) houters
      rw [qualifiedName, houters] at hrest
      exact .inside hpath hfinds hrest

theorem findsRecord_iff (h : t.Rooted) : t.FindsRecord (t.parent? id) found ↔ found = t.enclosingRecord? id :=
  ⟨fun h' => h'.unique (h.findsRecord id), fun heq => heq ▸ h.findsRecord id⟩

theorem qualifies_iff {name : String} (h : t.Rooted) :
    t.Qualifies separator id name ↔ name = t.qualifiedName separator id :=
  ⟨fun h' => h'.unique (h.qualifies separator id), fun heq => heq ▸ h.qualifies separator id⟩

/-- The way up from an id that points nowhere ends where it begins. -/
theorem exists_climbs (h : t.Rooted) (id : NodeId) :
    ∃ above, t.Climbs id above ∧ (id :: above).Nodup ∧ above.length ≤ t.size ∧
      t.enclosingRecord? id = above.find? fun a => t.kind? a == some .recordDecl := by
  rw [enclosingRecord?, enclosingRecords, List.head?_filter]
  rcases h.lineage_or_dangling id with hl | ⟨hp, ha⟩
  · exact ⟨t.ancestors id, hl.climbs, hl.nodup, Nat.le_of_lt hl.length_lt_size, rfl⟩
  · rw [ha]
    exact ⟨[], .stop hp, List.nodup_singleton id, Nat.zero_le _, rfl⟩

theorem empty : Rooted {} := by
  intro id n hn
  cases hn

theorem modify (h : t.Rooted) (id : NodeId) {f : Node → Node} (hf : ∀ n, (f n).parent = n.parent) :
    (t.modify id f).Rooted := by
  intro j m hm
  cases hold : t.get? j with
  | none => simp [get?_modify, hold] at hm
  | some m' =>
    obtain ⟨above, hl⟩ := h _ _ hold
    refine ⟨above, hl.mono fun {i k} hk => ?_⟩
    rw [get?_modify, hk]
    split
    · exact ⟨f k, rfl, hf k⟩
    · exact ⟨k, rfl, rfl⟩

end Rooted

/-- A node that is added cuts the lineages of what it takes for its children, and ends them. -/
theorem Lineage.exists_alloc (h : t.Lineage id above) (name : String) (p : Payload) :
    ∃ above, (t.alloc name p).2.Lineage id above := by
  have hnew : (t.alloc name p).2.Lineage t.nextId [] := .top (get?_alloc_nextId t name p) rfl
  induction h with
  | @top id n hn hp =>
    have hn' := get?_alloc_of_get? hn name p
    by_cases hc : id ∈ p.children
    · exact ⟨_, .under hn' (by rw [Node.linkedBelow_parent, if_pos hc]) hnew⟩
    · exact ⟨[], .top hn' (by rw [Node.linkedBelow_parent, if_neg hc, hp])⟩
  | @under id n q above hn hp _ ih =>
    have hn' := get?_alloc_of_get? hn name p
    by_cases hc : id ∈ p.children
    · exact ⟨_, .under hn' (by rw [Node.linkedBelow_parent, if_pos hc]) hnew⟩
    · obtain ⟨above', hl⟩ := ih
      exact ⟨q :: above', .under hn' (by rw [Node.linkedBelow_parent, if_neg hc, hp]) hl⟩

namespace Rooted

theorem alloc (h : t.Rooted) (name : String) (p : Payload) : (t.alloc name p).2.Rooted := by
  intro id n hn
  rcases cases_of_get?_alloc hn with ⟨rfl, rfl⟩ | ⟨m, hm, -⟩
  · exact ⟨[], .top hn rfl⟩
  · obtain ⟨above, hl⟩ := h _ _ hm
    exact hl.exists_alloc name p

theorem addImplicitField {record : NodeId} (h : t.Rooted) (hrecord : t.get? record = some n) (name typeName : String) :
    (t.addImplicitField record name typeName).2.Rooted := by
  have hext := (AddsFields.single t record name typeName).toExtends
  intro id m hm
  have hcases := hm
  rw [get?_addImplicitField] at hcases
  split at hcases
  · obtain rfl := Option.some.inj hcases
    obtain ⟨above, hl⟩ := h _ _ hrecord
    exact ⟨record :: above, .under hm rfl (hext.lineage hl)⟩
  · obtain ⟨above, hl⟩ := h _ _ hcases
    exact ⟨above, hext.lineage hl⟩

theorem writeOutAccess {r : Resolution} (h : t.Rooted) (hn : t.get? id = some n) (hp : n.payload = .reference r)
    (base : String) (baseTo memberTo : Resolution) : (t.writeOutAccess id base baseTo memberTo).Rooted := by
  have hext := extends_writeOutAccess hn hp base baseTo memberTo
  obtain ⟨above, hl⟩ := h _ _ hn
  intro j m hm
  -- The two halves of the access hang below it.
  have hbelow : m.parent = some id → ∃ above, (t.writeOutAccess id base baseTo memberTo).Lineage j above :=
    fun hp => ⟨id :: above, .under hm hp (hext.lineage hl)⟩
  have hcases := hm
  rw [get?_writeOutAccess base baseTo memberTo hn] at hcases
  split at hcases
  case isTrue hj => exact ⟨above, hj ▸ hext.lineage hl⟩
  case isFalse =>
    split at hcases
    · exact hbelow (Option.some.inj hcases ▸ rfl)
    · split at hcases
      · exact hbelow (Option.some.inj hcases ▸ rfl)
      · obtain ⟨above', hl'⟩ := h _ _ hcases
        exact ⟨above', hext.lineage hl'⟩

end Rooted

theorem respects_rooted : Respects fun t t' => t.Rooted → t'.Rooted where
  refl _ h := h
  trans h h' ht := h' (h ht)
  add hrecord name typeName h := h.addImplicitField hrecord name typeName
  fill t id f os h := h.modify id fun n => by split <;> rfl
  bind t id r h := h.modify id fun _ => rfl
  write hn hp base baseTo memberTo h := h.writeOutAccess hn hp base baseTo memberTo

theorem Rooted.after_call (h : t.Rooted) (c : Call) : (t.call c).Rooted := by
  cases c with
  | setRegion id region => exact h.modify id fun _ => rfl
  | register config root limit => exact respects_rooted.register t config root limit h
  | resolve config limit => exact respects_rooted.resolve t config limit h
  | addCall name arguments => exact (h.alloc name _).alloc name _
  | addMember base name => exact (h.alloc name _).alloc name _
  | _ => exact h.alloc _ _

theorem Rooted.after_calls (h : t.Rooted) (calls : List Call) : (calls.foldl call t).Rooted := by
  induction calls generalizing t with
  | nil => exact h
  | cons c calls ih => exact ih (h.after_call c)

theorem rooted_after (calls : List Call) : (after calls).Rooted := Rooted.empty.after_calls calls

/-- The way from any id from parent to parent ends and comes by no node twice. So do the searches along it end: the
nearest record on the way is found, and names are qualified. -/
theorem parents_end_after (calls : List Call) (id : NodeId) :
    (∃ above, (after calls).Climbs id above ∧ (id :: above).Nodup ∧ above.length ≤ (after calls).size ∧
      (after calls).enclosingRecord? id = above.find? fun a => (after calls).kind? a == some .recordDecl) ∧
    (∀ found, (after calls).FindsRecord ((after calls).parent? id) found ↔ found = (after calls).enclosingRecord? id) ∧
    ∀ separator name, (after calls).Qualifies separator id name ↔ name = (after calls).qualifiedName separator id := by
  have h := rooted_after calls
  exact ⟨h.exists_climbs id, fun _ => h.findsRecord_iff, fun _ _ => h.qualifies_iff⟩

/-- Two blocks list each other; the one that was added last is at the top. -/
example :
    let t := after [.addCompound [⟨1⟩], .addCompound [⟨0⟩, ⟨1⟩]]
    (t.get? ⟨0⟩).map Node.children = some [⟨1⟩] ∧ (t.get? ⟨1⟩).map Node.children = some [⟨0⟩, ⟨1⟩] ∧
      t.parent? ⟨0⟩ = some ⟨1⟩ ∧ t.parent? ⟨1⟩ = none := by
  decide

end

end NameResolution.Tree
