import Mathlib.Algebra.GroupWithZero.Nat
import NameResolution.Proofs.Document.ReadBack

/-!
# Lowering loses nothing

A node becomes a block of nodes behind those that are there: one for each node of the text, one for each plain name that
a call implies and one for each name of a member. The last node of the block is read back as the node in its normal
form. A document becomes a tree that holds its block and nothing else.
-/
namespace NameResolution

namespace SyntaxForm

/-- A call that leaves open what it calls. -/
def callsPlainName : SyntaxForm → Bool
  | call _ none _ => true
  | _ => false

/-- An access that says which member it means. -/
def namesMember : SyntaxForm → Bool
  | member _ name => name.getD "" ≠ ""
  | _ => false

end SyntaxForm

/-- What is there after the node has been lowered into the tree `t`: the tree `t'`, and in it the node `id`. -/
structure SyntaxNode.LoweredInto (n : SyntaxNode) (t t' : Tree) (id : NodeId) : Prop where
  /-- The nodes that were there stay as they are. -/
  earlier : ∀ x : NodeId, x.index < t.size → t'.get? x = t.get? x
  /-- One node is added for each node of the text, and one for each name that is a node only in the tree. -/
  size_eq : t'.size = t.size + n.nodes.length + n.nodes.countP (·.form.callsPlainName) +
    n.nodes.countP (·.form.namesMember)
  /-- The node is the last one. -/
  last : id.index + 1 = t'.size
  /-- The new nodes refer to new nodes only, and to those before them. -/
  block : ∀ x : NodeId, t.size ≤ x.index → x.index < t'.size →
    ∃ m, t'.get? x = some m ∧ m.id = x ∧ ∀ c ∈ m.children, t.size ≤ c.index ∧ c.index < x.index
  /-- What is read under the id is the node in its normal form. -/
  readBack : t'.spelled? id = some n.normal

structure Tree.IsOf (t : Tree) (document : SyntaxNode) : Prop where
  /-- The tree holds what the document was lowered to, and the root is the document itself. -/
  root : ∃ id, t.root = some id ∧ document.LoweredInto {} t id
  /-- A node is the parent of its children and of no other nodes. -/
  parent_iff : ∀ p c : NodeId, (∃ m, t.get? c = some m ∧ m.parent = some p) ↔ ∃ n, t.get? p = some n ∧ c ∈ n.children
  /-- A field belongs to the record that it is a member of. -/
  owner_iff : ∀ {f : NodeId} {n : Node} {d : Field}, t.get? f = some n → n.payload = .fieldDecl d → ∀ r : NodeId,
    d.record = some r ↔ ∃ m record, t.get? r = some m ∧ m.payload = .recordDecl record ∧ f ∈ record.members

namespace SyntaxNode
open NameResolution.Tree

/-- The number of nodes that are added for a node. -/
def weight (n : SyntaxNode) : Nat :=
  n.nodes.length + n.nodes.countP (·.form.callsPlainName) + n.nodes.countP (·.form.namesMember)

theorem sum_weight (ns : List SyntaxNode) : (ns.map weight).sum = (ns.flatMap nodes).length +
    (ns.flatMap nodes).countP (·.form.callsPlainName) + (ns.flatMap nodes).countP (·.form.namesMember) := by
  induction ns with
  | nil => rfl
  | cons n ns ih =>
    simp only [List.map_cons, List.sum_cons, ih, weight, List.flatMap_cons, List.length_append, List.countP_append]
    omega

theorem weight_mk_children (line column : Option UInt32) (form : SyntaxForm) :
    (mk line column form).weight =
      (form.children.map weight).sum + form.callsPlainName.toNat + form.namesMember.toNat + 1 := by
  have htoNat (b : Bool) : b.toNat = if b then 1 else 0 := Bool.cond_eq_ite b 1 0
  rw [weight, nodes_mk, sum_weight, htoNat, htoNat]
  simp only [List.length_cons, List.countP_cons, SyntaxNode.form]
  omega

theorem weight_plain (name : String) : (plain name).weight = 1 := weight_mk_children ..

/-- The parts are the nodes directly below and a plain name where the form implies one. -/
theorem sum_weight_parts (form : SyntaxForm) : (form.parts.map weight).sum =
    (form.children.map weight).sum + form.callsPlainName.toNat + form.namesMember.toNat := by
  cases form with
  | call name callee arguments =>
    cases callee with
    | none =>
      simp [SyntaxForm.parts, SyntaxForm.children, SyntaxForm.callsPlainName, SyntaxForm.namesMember, weight_plain]
      omega
    | some => rfl
  | member base name =>
    by_cases h : name.getD "" = "" <;>
      simp [SyntaxForm.parts, SyntaxForm.children, SyntaxForm.callsPlainName, SyntaxForm.namesMember, h, weight_plain]
  | _ => rfl

theorem weight_mk (line column : Option UInt32) (form : SyntaxForm) :
    (mk line column form).weight = (form.parts.map weight).sum + 1 := by
  rw [weight_mk_children, sum_weight_parts]

theorem size_placed (line column : Option UInt32) (id : NodeId) (t : Tree) : (t.placed line column id).size = t.size := by
  cases line with
  | none => rfl
  | some line => exact size_modify ..

theorem size_grown_of_forall {ns : List SyntaxNode} (h : ∀ n ∈ ns, ∀ t, (grown [n] t).size = t.size + n.weight) (t : Tree) :
    (grown ns t).size = t.size + (ns.map weight).sum := by
  induction ns generalizing t with
  | nil => rfl
  | cons n ns ih =>
    rw [← List.singleton_append, grown_append, ih fun m hm => h m (List.mem_cons_of_mem _ hm), h n List.mem_cons_self,
      List.singleton_append, List.map_cons, List.sum_cons]
    omega

theorem size_grown (n : SyntaxNode) (t : Tree) : (grown [n] t).size = t.size + n.weight := by
  induction n using induction_parts generalizing t with
  | step line column form ih =>
    rw [grown_form, size_placed, size_alloc, size_grown_of_forall ih, weight_mk]
    omega

end SyntaxNode

namespace SyntaxForm

/-- The members of a record that was written are its children; no other node has members. -/
theorem members_payload (form : SyntaxForm) (ids : List NodeId) : (form.payload ids).members =
    if (form.payload ids).kind = .recordDecl then (form.payload ids).children else [] := by
  cases form <;> simp [payload, Payload.members, Payload.kind, Payload.children]

/-- A field that is new belongs to no record. -/
theorem record_payload {form : SyntaxForm} {ids : List NodeId} {d : Field} (h : form.payload ids = .fieldDecl d) :
    d.record = none := by
  cases form with
  | fieldDecl =>
    cases h
    rfl
  | _ => cases h

theorem mem_of_mem_children_payload {form : SyntaxForm} {ids : List NodeId} {x : NodeId}
    (h : x ∈ (form.payload ids).children) : x ∈ ids :=
  mem_of_mem_ids_payload ((form.payload ids).children_subset_ids h)

end SyntaxForm

theorem Node.record_linkedBelow {r x : NodeId} {p : Payload} {n : Node} {d : Field}
    (h : (n.linkedBelow r p x).payload = .fieldDecl d) :
    ∃ d', n.payload = .fieldDecl d' ∧ d.record = if x ∈ p.members then some r else d'.record := by
  obtain ⟨_, _, _, _, payload⟩ := n
  by_cases hc : x ∈ p.children <;> by_cases hm : x ∈ p.members <;> cases payload <;>
    simp_all [linkedBelow, ownedBy]
  all_goals exact h ▸ rfl

namespace Tree
variable {t u : Tree} {lo : Nat}

/-- From the place `lo` on, a field belongs to the node above it, if that is a record. -/
def FieldsOwned (t : Tree) (lo : Nat) : Prop :=
  ∀ ⦃f : NodeId⦄ ⦃n : Node⦄ ⦃d : Field⦄, lo ≤ f.index → t.get? f = some n → n.payload = .fieldDecl d → ∀ r : NodeId,
    d.record = some r ↔ n.parent = some r ∧ t.kind? r = some .recordDecl

theorem kind?_placed_alloc (name : String) (p : Payload) (line column : Option UInt32) {r : NodeId}
    (hr : r.index < t.size) : ((t.alloc name p).2.placed line column t.nextId).kind? r = t.kind? r := by
  have hne : r ≠ t.nextId := fun heq => by simp [heq, nextId] at hr
  have hkind : ∀ n : Node, (n.linkedBelow t.nextId p r).kind = n.kind := by
    intro n
    rcases n.linkedBelow_payload t.nextId p r with h | ⟨_, hf, h⟩ <;> simp [Node.kind, *, Payload.kind]
  rw [kind?, get?_placed_of_ne line column hne, get?_alloc, if_neg hne, Option.map_map, kind?]
  exact congrFun (congrArg _ (funext hkind)) _

theorem kind?_placed_nextId (name : String) (p : Payload) (line column : Option UInt32) :
    ((t.alloc name p).2.placed line column t.nextId).kind? t.nextId = some p.kind := by
  rw [kind?, get?_placed_nextId]
  rfl

/-- A record that is added above its members comes to own the fields among them. -/
theorem FieldsOwned.alloc {ids : List NodeId} (h : u.FieldsOwned lo) (hplanted : u.Planted lo ids) (form : SyntaxForm)
    (line column : Option UInt32) :
    ((u.alloc form.name (form.payload ids)).2.placed line column u.nextId).FieldsOwned lo := by
  intro f n d hlo hn hp r
  by_cases hf : f = u.nextId
  · subst hf
    rw [get?_placed_nextId] at hn
    cases hn
    simp [SyntaxForm.record_payload hp]
  · rw [get?_placed_of_ne line column hf, get?_alloc, if_neg hf] at hn
    obtain ⟨n, hold, rfl⟩ := Option.map_eq_some_iff.mp hn
    by_cases hc : f ∈ (form.payload ids).children
    · obtain ⟨d', hp', hrecord⟩ := Node.record_linkedBelow hp
      have htop : n.parent = none :=
        (hplanted.parent_none_iff hlo hold).mpr (SyntaxForm.mem_of_mem_children_payload hc)
      have hnone : d'.record = none := by
        rw [Option.eq_none_iff_forall_ne_some]
        intro r hr
        have hr := (h hlo hold hp' r).mp hr
        simp [htop] at hr
      have hmem : f ∈ (form.payload ids).members ↔ (form.payload ids).kind = .recordDecl := by
        rw [form.members_payload]
        split <;> simp [*]
      rw [hrecord, hnone, Node.linkedBelow_parent, if_pos hc]
      by_cases hkind : (form.payload ids).kind = .recordDecl
      · rw [if_pos (hmem.mpr hkind)]
        refine (and_iff_left_of_imp ?_).symm
        rintro ⟨⟩
        rw [kind?_placed_nextId, hkind]
      · rw [if_neg (mt hmem.mp hkind)]
        refine iff_of_false nofun ?_
        rintro ⟨⟨⟩, hr⟩
        rw [kind?_placed_nextId] at hr
        exact hkind (Option.some.inj hr)
    · have hsame : n.linkedBelow u.nextId (form.payload ids) f = n := by
        have hm : f ∉ (form.payload ids).members := fun hm => hc ((form.payload ids).members_subset_children hm)
        rw [Node.linkedBelow, if_neg hc, if_neg hm]
      rw [hsame] at hp ⊢
      rw [h hlo hold hp r]
      refine and_congr_right fun hr => ?_
      obtain ⟨-, m, hm, -⟩ := hplanted.child_of_parent hlo hold hr
      rw [kind?_placed_alloc _ _ line column (lt_size_of_get? hm)]

end Tree

namespace SyntaxNode
open NameResolution.Tree

theorem fieldsOwned_append {ns ms : List SyntaxNode} {t : Tree} (h : (grown ns t).FieldsOwned t.size)
    (h' : (grown ms (grown ns t)).FieldsOwned (grown ns t).size) : (grown (ns ++ ms) t).FieldsOwned t.size := by
  rw [grown_append]
  intro f n d hlo hn hp r
  by_cases hf : f.index < (grown ns t).size
  · have hn' : (grown ns t).get? f = some n := (lowers_grown ms _).earlier hf ▸ hn
    rw [h hlo hn' hp r]
    refine and_congr_right fun hr => ?_
    obtain ⟨-, m, hm, -⟩ := (lowers_grown ns t).planted.child_of_parent hlo hn' hr
    rw [kind?, kind?, (lowers_grown ms _).earlier (lt_size_of_get? hm)]
  · exact h' (Nat.le_of_not_lt hf) hn hp r

theorem fieldsOwned_of_forall {ns : List SyntaxNode} (h : ∀ n ∈ ns, ∀ t, (grown [n] t).FieldsOwned t.size) (t : Tree) :
    (grown ns t).FieldsOwned t.size := by
  induction ns generalizing t with
  | nil =>
    intro f n d hlo hn
    have hlt : f.index < t.size := lt_size_of_get? hn
    omega
  | cons n ns ih =>
    exact fieldsOwned_append (h n List.mem_cons_self t) (ih (fun m hm => h m (List.mem_cons_of_mem _ hm)) _)

theorem fieldsOwned_grown (n : SyntaxNode) (t : Tree) : (grown [n] t).FieldsOwned t.size := by
  induction n using induction_parts generalizing t with
  | step line column form ih =>
    rw [grown_form]
    exact (fieldsOwned_of_forall ih t).alloc (lowers_grown form.parts t).planted form line column

theorem loweredInto (n : SyntaxNode) (t : Tree) : n.LoweredInto t (n.lower.run t).2 (n.lower.run t).1 := by
  have hlowers := n.lowers_lower t
  constructor
  case earlier => exact fun _ => hlowers.earlier
  case size_eq => exact (size_grown n t).trans (by rw [weight]; omega)
  case last =>
    obtain ⟨line, column, form⟩ := n
    rw [run_lower_mk, size_placed, SyntaxForm.run_lower, size_alloc]
    rfl
  case block =>
    intro x hlo hlt
    obtain ⟨m, hm⟩ : ∃ m, (n.lower.run t).2.get? x = some m := ⟨_, Array.getElem?_eq_getElem hlt⟩
    refine ⟨m, hm, hlowers.planted.own_id hlo hm, fun c hc => ?_⟩
    obtain ⟨hle, k, hk, hparent⟩ := hlowers.planted.parent_of_child hlo hm hc
    exact ⟨hle, (hlowers.planted.child_of_parent hle hk hparent).1⟩
  case readBack => exact (List.cons.inj (readBack n t)).1

end SyntaxNode

namespace Tree

/-- A record that was written holds its members and nothing else. -/
theorem mem_members_iff_of_ofSyntax {document : SyntaxNode} {t : Tree} (h : ofSyntax document = .ok t) {r f : NodeId}
    {m : Node} (hm : t.get? r = some m) {record : Record} (hp : m.payload = .recordDecl record) :
    f ∈ record.members ↔ f ∈ m.children := by
  have hw := isWritten_of_ofSyntax h hm
  rw [hp] at hw
  obtain ⟨-, hthis, houter⟩ := hw
  simp [Node.children, hp, Payload.children, hthis, houter]

theorem isOf_of_ofSyntax {document : SyntaxNode} {t : Tree} (h : ofSyntax document = .ok t) : t.IsOf document := by
  have hwf := wellFormed_of_ofSyntax h
  have hkind := kind_of_ofSyntax h
  have hmembers := fun {r f m} => mem_members_iff_of_ofSyntax h (r := r) (f := f) (m := m)
  rw [ofSyntax_eq hkind] at h
  cases h
  constructor
  case root => exact ⟨_, (root_lower document {} hkind).1, document.loweredInto {}⟩
  case parent_iff =>
    intro p c
    constructor
    · rintro ⟨m, hm, hparent⟩
      exact hwf.child_of_parent hm hparent
    · rintro ⟨n, hn, hc⟩
      exact hwf.parent_of_child hn hc
  case owner_iff =>
    intro f n d hn hp r
    rw [SyntaxNode.fieldsOwned_grown document {} (Nat.zero_le _) hn hp r]
    constructor
    · rintro ⟨hparent, hrecord⟩
      obtain ⟨m, hm, hf⟩ := hwf.child_of_parent hn hparent
      obtain ⟨k, hk, hkind⟩ := Option.map_eq_some_iff.mp hrecord
      rw [hm] at hk
      cases hk
      obtain ⟨record, hp'⟩ := m.exists_record hkind
      exact ⟨m, record, hm, hp', (hmembers hm hp').mpr hf⟩
    · rintro ⟨m, record, hm, hp', hf⟩
      obtain ⟨k, hk, hparent⟩ := hwf.parent_of_child hm ((hmembers hm hp').mp hf)
      rw [hn] at hk
      cases hk
      exact ⟨hparent, by simp [kind?, hm, Node.kind, hp', Payload.kind]⟩

/-- Lowering a node leaves the tree that is there alone and adds a block of nodes from which the node is read back. A
document that is accepted becomes a tree of its block alone, whose root is the document, whose nodes know their parents
and whose fields know their records. -/
theorem lowering_faithful :
    (∀ (n : SyntaxNode) (t : Tree), n.LoweredInto t (n.lower.run t).2 (n.lower.run t).1) ∧
      ∀ (source text : String) (t : Tree), ofDocument source text = .ok t →
        ∃ document, (Json.read? text).bind SyntaxNode.ofJson? = some document ∧
          document.kind = .translationUnit ∧ t.IsOf document := by
  refine ⟨SyntaxNode.loweredInto, fun source text t h => ?_⟩
  unfold ofDocument at h
  split at h
  next => cases h
  next document hread => exact ⟨document, hread, kind_of_ofSyntax h, isOf_of_ofSyntax h⟩

/-- A unit with a record and, inside of it, another unit with a call of a plain name and an access without a name. -/
def nestedText : String :=
  "\x7b\"kind\":\"translation_unit\",\"declarations\":[\x7b\"kind\":\"record\",\"name\":\"A\",\"members\":[" ++
    "\x7b\"kind\":\"field\",\"name\":\"x\",\"line\":2\x7d]\x7d,\x7b\"kind\":\"translation_unit\",\"declarations\":[" ++
    "\x7b\"kind\":\"call\",\"name\":\"f\"\x7d,\x7b\"kind\":\"member\",\"member\":\"\",\"column\":3\x7d]\x7d]\x7d"

theorem lowering_faithful_nested : ∃ t, ofDocument "nested.json" nestedText = .ok t ∧ t.size = 7 ∧ t.root = some ⟨6⟩ ∧
    ∃ document, (Json.read? nestedText).bind SyntaxNode.ofJson? = some document ∧
      document.kind = .translationUnit ∧ t.IsOf document := by
  have hread : (ofDocument "nested.json" nestedText).toOption.map (fun t => (t.size, t.root)) = some (7, some ⟨6⟩) := by
    decide +kernel
  cases h : ofDocument "nested.json" nestedText with
  | error e =>
    rw [h] at hread
    cases hread
  | ok t =>
    rw [h] at hread
    obtain ⟨hsize, hroot⟩ := Prod.mk.inj (Option.some.inj hread)
    exact ⟨t, rfl, hsize, hroot, lowering_faithful.2 "nested.json" nestedText t h⟩

end Tree
end NameResolution
