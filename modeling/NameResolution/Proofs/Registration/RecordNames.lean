import NameResolution.Proofs.Mirroring

/-!
# Records under their qualified names

A walk lists every record that it enters under its qualified name, when it enters it. What a qualified name leads to is
thus the first record of that name in the order of the tree, whether or not the record could be declared.
-/
namespace NameResolution
open Registration

namespace Tree

/-- `d` is a record that registration comes to, and `q` is its qualified name. -/
structure RecordNamed (separator : String) (t : Tree) (root : NodeId) (q : String) (d : NodeId) : Prop where
  reached : t.Reached root d
  record : t.kind? d = some .recordDecl
  name : t.qualifiedName separator d = q

/-- `d` is the first record of the qualified name `q`, in the order of the tree. -/
def FirstNamed (separator : String) (t : Tree) (root : NodeId) (q : String) (d : NodeId) : Prop :=
  t.RecordNamed separator root q d ∧
    ∃ before after, t.flatten root = before ++ d :: after ∧ ∀ x ∈ before, ¬ t.RecordNamed separator root q x

end Tree

namespace Registration
open NameResolution.Tree ScopeTree

variable {config : Config} {id : NodeId} {n : Node} {scope inner : Option ScopeId} {p p' : Progress}

theorem Declares.records_eq (h : Declares config id n scope p p') : p'.scopes.records = p.scopes.records := by
  cases h with
  | skipped | dropped => rfl
  | entered =>
    simp only [ScopeTree.declare]
    split <;> rfl

theorem Opens.records_eq (h : Opens config id n scope p inner p') :
    p'.scopes.records.toList = p.scopes.records.toList ++
      if n.kind = .recordDecl then [(p.tree.qualifiedName config.separator id, id)] else [] := by
  cases h with
  | transparent hopens =>
    have hk : n.kind ≠ .recordDecl := by
      intro hk
      obtain ⟨r, hp⟩ := Node.exists_record hk
      rw [hp] at hopens
      cases hopens
    rw [if_neg hk, List.append_nil]
  | plain _ hk =>
    rw [if_neg hk, List.append_nil]
    rfl
  | record hp =>
    have hk : n.kind = .recordDecl := by rw [Node.kind, hp]; rfl
    rw [if_pos hk]
    exact Array.toList_push ..

/-- Only entering a record lists a record. -/
theorem Enters.records_eq (h : Enters config id n p p') :
    p'.scopes.records.toList = p.scopes.records.toList ++
      if n.kind = .recordDecl then [(p.tree.qualifiedName config.separator id, id)] else [] := by
  obtain ⟨p₁, inner, hd, ho⟩ := h.effect
  rw [ho.records_eq, hd.records_eq, hd.tree_eq]

end Registration

namespace Tree.RegistersIn
open ScopeTree

variable {languages : Set String} {config : Config} {t T : Tree} {root x d : NodeId} {p : Registration.Progress}
  {q : String}

/-- The records are listed in the order in which they are entered. -/
theorem records_eq (h : RegistersIn languages config t root p) :
    p.scopes.records.toList =
      (enteredRecords t (steps t t.depthLimit root)).map fun d => (t.qualifiedName config.separator d, d) := by
  obtain ⟨k, hk, -⟩ := h.proper.root_parent h.root_eq
  refine Walked.induction (I := fun done q => q.scopes.records.toList =
      (enteredRecords t done).map fun d => (t.qualifiedName config.separator d, d))
    h.proper h.language hk (List.append_nil _).symm h.registration rfl ?_ ?_
  · intro done owner slot q hq
    rw [hq, enteredRecords_check]
  · intro done rest id n q q' _ hwalked hn he hq
    rw [he.records_eq, hq, enteredRecords_enter hn, List.map_append,
      hwalked.toExtends.qualifiedName_eq h.proper.toWellFormed _ hn]
    split <;> rfl

/-- The records that are listed are those that registration comes to, as a tree tells that later passes leave behind. -/
theorem mem_enteredRecords_iff (h : RegistersIn languages config t root p) (hT : T.ProperIn languages)
    (hext : t.Extends T) :
    x ∈ enteredRecords t (steps t t.depthLimit root) ↔ T.Reached root x ∧ T.kind? x = some .recordDecl := by
  obtain ⟨k, hk, -⟩ := h.proper.root_parent h.root_eq
  have hroot := hT.toWellFormed.root_not_implicit (hext.root.trans h.root_eq)
  have hrecord : ∀ {n}, t.get? x = some n → (t.kind? x = some .recordDecl ↔ T.kind? x = some .recordDecl) :=
    fun hn => (hext.kind?_recordDecl_iff hn).symm
  rw [enteredRecords, List.mem_filter, mem_filterMap_entered?_iff, beq_iff_eq]
  constructor
  · rintro ⟨hmem, hkind⟩
    obtain ⟨n, hn⟩ := exists_of_enter_mem h.proper.toWellFormed hk hmem
    have hnests := (h.enter_mem_iff_of_extends hT.toWellFormed hext).mp hmem
    exact ⟨((hT.nests_iff hroot).mp hnests).1, (hrecord hn).mp hkind⟩
  · rintro ⟨hreached, hkind⟩
    have hopens : T.opensScope x = true := by
      rw [opensScope_eq, hkind]
      rfl
    have hnests := (hT.nests_iff hroot).mpr ⟨hreached, not_implicit_of_opensScope hopens⟩
    have hmem := (h.enter_mem_iff_of_extends hT.toWellFormed hext).mpr hnests
    obtain ⟨n, hn⟩ := exists_of_enter_mem h.proper.toWellFormed hk hmem
    exact ⟨hmem, (hrecord hn).mpr hkind⟩

/-- What a qualified name leads to is looked for among all nodes, in the order of the tree. -/
theorem exists_recordNamed?_eq_find? (h : RegistersIn languages config t root p) (hT : T.ProperIn languages)
    (hext : t.Extends T) (q : String) :
    ∃ bears : NodeId → Bool, (∀ x, bears x = true ↔ T.RecordNamed config.separator root q x) ∧
      p.scopes.recordNamed? q = (T.flatten root).find? bears := by
  obtain ⟨k, hk, -⟩ := h.proper.root_parent h.root_eq
  have hname : ∀ d ∈ enteredRecords t (steps t t.depthLimit root),
      T.qualifiedName config.separator d = t.qualifiedName config.separator d := by
    intro d hd
    have hmem := mem_filterMap_entered?_iff.mp (List.mem_of_mem_filter hd)
    obtain ⟨n, hn⟩ := exists_of_enter_mem h.proper.toWellFormed hk hmem
    exact hext.qualifiedName_eq h.proper.toWellFormed _ hn
  have hfound : p.scopes.recordNamed? q =
      (enteredRecords t (steps t t.depthLimit root)).find? fun d => T.qualifiedName config.separator d == q := by
    rw [recordNamed?, h.records_eq, List.find?_map, Option.map_map]
    refine Option.map_id'.trans (List.find?_congr fun d hd => ?_)
    rw [hname d hd]
    rfl
  have hlisted : (enteredRecords t (steps t t.depthLimit root)) =
      (T.flatten root).filter fun x => decide (x ∈ enteredRecords t (steps t t.depthLimit root)) :=
    h.eq_filter_flatten hT.toWellFormed hext List.filter_sublist fun x => decide_eq_true_iff
  rw [hfound, hlisted, List.find?_filter]
  refine ⟨_, fun x => ?_, rfl⟩
  rw [decide_eq_true_iff, decide_eq_true_iff, h.mem_enteredRecords_iff hT hext, beq_iff_eq]
  constructor
  · rintro ⟨⟨hreached, hkind⟩, hq⟩
    exact ⟨hreached, hkind, hq⟩
  · rintro ⟨hreached, hkind, hq⟩
    exact ⟨⟨hreached, hkind⟩, hq⟩

theorem recordNamed?_eq_some_iff_firstNamed (h : RegistersIn languages config t root p) (hT : T.ProperIn languages)
    (hext : t.Extends T) :
    p.scopes.recordNamed? q = some d ↔ T.FirstNamed config.separator root q d := by
  obtain ⟨bears, hbears, hfind⟩ := h.exists_recordNamed?_eq_find? hT hext q
  rw [hfind, List.find?_eq_some_iff_append, hbears, FirstNamed]
  simp only [Bool.not_eq_true', ← Bool.not_eq_true, hbears]

theorem recordNamed?_eq_none_iff (h : RegistersIn languages config t root p) (hT : T.ProperIn languages)
    (hext : t.Extends T) :
    p.scopes.recordNamed? q = none ↔ ∀ d, ¬ T.RecordNamed config.separator root q d := by
  obtain ⟨bears, hbears, hfind⟩ := h.exists_recordNamed?_eq_find? hT hext q
  rw [hfind, List.find?_eq_none]
  simp only [hbears]
  constructor
  · intro hnone d hd
    refine hnone d ((hT.mem_flatten_iff (hext.root.trans h.root_eq)).mpr ?_) hd
    obtain ⟨n, hn, -⟩ := Option.map_eq_some_iff.mp hd.record
    exact ⟨n, hn⟩
  · exact fun hnone d _ => hnone d

end Tree.RegistersIn
end NameResolution
