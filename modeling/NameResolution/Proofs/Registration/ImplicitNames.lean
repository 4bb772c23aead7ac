import NameResolution.Proofs.Registration.Chain

/-!
# Names of implicit members

Where no record has a path for a name, the qualified name of a record is longer than those of the records around
it. So the implicit members of one record all have different names, and whatever claims a name in a scope
has it for itself.
-/
namespace NameResolution

theorem Text.length_joinPath (separator outer inner : String) :
    (joinPath separator outer inner).length = outer.length + separator.length + inner.length := by
  simp [joinPath]

theorem Config.length_separator_pos (config : Config) : 0 < config.separator.length := by
  rw [separator]
  cases config.language <;> decide

namespace Tree
variable {separator : String} {t t' : Tree} {id a : NodeId} {outers : List NodeId} {r : Record}

/-- No record has a path for a name. -/
def FlatRecords (separator : String) (t : Tree) : Prop :=
  ∀ id n, t.get? id = some n → n.kind = .recordDecl → Text.isPath separator n.name = false

instance (separator : String) (t : Tree) : Decidable (t.FlatRecords separator) :=
  decidable_of_iff (∀ n ∈ t.nodes.toList, n.kind = .recordDecl → Text.isPath separator n.name = false) <| by
    constructor
    · intro h id n hn
      exact h n (by simpa using Array.mem_of_getElem? hn)
    · intro h n hn
      obtain ⟨i, hi, rfl⟩ := List.getElem_of_mem hn
      exact h ⟨i⟩ _ (by simp [get?])

namespace FlatRecords

theorem isPath_nameOf (h : t.FlatRecords separator) (hk : t.kind? id = some .recordDecl) :
    Text.isPath separator (t.nameOf id) = false := by
  obtain ⟨n, hn, hkind⟩ := Option.map_eq_some_iff.mp hk
  simpa [nameOf, name?, hn] using h id n hn hkind

/-- A name inside a record and others around it is longer than the name of the outermost of them. -/
theorem length_qualify_lt (h : t.FlatRecords separator) (hseparator : 0 < separator.length) {name : String}
    (hname : Text.isPath separator name = false) {nearer : List NodeId}
    (hrecords : ∀ x ∈ nearer, t.kind? x = some .recordDecl) :
    (t.qualify separator (t.nameOf a) outers).length <
      (t.qualify separator name (nearer ++ a :: outers)).length := by
  induction nearer generalizing name with
  | nil =>
    rw [List.nil_append, qualify, hname, if_neg Bool.false_ne_true, Text.length_joinPath]
    omega
  | cons x nearer ih =>
    have hx := h.isPath_nameOf (hrecords x (by simp))
    have hlt := ih hx fun y hy => hrecords y (List.mem_cons_of_mem _ hy)
    rw [List.cons_append, qualify, hname, if_neg Bool.false_ne_true, Text.length_joinPath]
    omega

theorem length_qualifiedName_lt (h : t.FlatRecords separator) (hseparator : 0 < separator.length)
    (ht : t.WellFormed) (hk : t.kind? id = some .recordDecl) (ha : a ∈ t.enclosingRecords id) :
    (t.qualifiedName separator a).length < (t.qualifiedName separator id).length := by
  obtain ⟨hup, hrecord⟩ := List.mem_filter.mp ha
  obtain ⟨nearer, hsplit⟩ := ht.ancestors_split hup
  have henclosing : t.enclosingRecords id =
      (nearer.filter fun x => t.kind? x == some .recordDecl) ++ a :: t.enclosingRecords a := by
    rw [enclosingRecords, hsplit, List.filter_append, List.filter_cons, if_pos hrecord]
    rfl
  rw [qualifiedName, qualifiedName, henclosing]
  refine h.length_qualify_lt hseparator (h.isPath_nameOf hk) fun x hx => ?_
  simpa using (List.mem_filter.mp hx).2

/-- The records around a node have different qualified names. -/
theorem nodup_qualifiedNames (h : t.FlatRecords separator) (hseparator : 0 < separator.length)
    (ht : t.WellFormed) (id : NodeId) : ((t.enclosingRecords id).map (t.qualifiedName separator)).Nodup := by
  cases hn : t.get? id with
  | none => simp [enclosingRecords, ancestors_of_get?_none hn]
  | some n =>
    have hpairwise : (t.enclosingRecords id).Pairwise fun a b => b ∈ t.ancestors a :=
      (ht.lineage_ancestors hn).pairwise.filter _
    refine List.pairwise_map.mpr (hpairwise.imp_of_mem ?_)
    intro a b ha hb hup hname
    have hrecord : ∀ {x}, x ∈ t.enclosingRecords id → (t.kind? x == some .recordDecl) = true :=
      fun hx => (List.mem_filter.mp hx).2
    have hlt := h.length_qualifiedName_lt hseparator ht (by simpa using hrecord ha)
      (List.mem_filter.mpr ⟨hup, hrecord hb⟩)
    rw [hname] at hlt
    exact Nat.lt_irrefl _ hlt

end FlatRecords

/-- The implicit members of a record have different names. -/
theorem Supplied.eq_of_name (h : t.Supplied separator id r) (hflat : t.FlatRecords separator)
    (hseparator : 0 < separator.length) (ht : t.WellFormed) {f g : NodeId} {m k : Node}
    (hf : f ∈ r.implicitFields) (hg : g ∈ r.implicitFields) (hm : t.get? f = some m) (hk : t.get? g = some k)
    (hname : m.name = k.name) : f = g := by
  obtain ⟨this, hthis, hnode⟩ := h.this
  have hcases : ∀ {f m}, f ∈ r.implicitFields → t.get? f = some m →
      f = this ∧ m.name = "this" ∨ ∃ o ∈ r.implicitOuter, o.field = f ∧
        m.name = Text.joinPath separator (t.qualifiedName separator o.record) "this" := by
    intro f m hf hm
    rcases List.mem_append.mp hf with hf | hf
    · rw [hthis, Option.toList_some, List.mem_singleton] at hf
      subst hf
      rw [hnode] at hm
      cases hm
      exact .inl ⟨rfl, rfl⟩
    · obtain ⟨o, ho, rfl⟩ := List.mem_map.mp hf
      rw [h.outer o ho] at hm
      cases hm
      exact .inr ⟨o, ho, rfl, rfl⟩
  have hlonger : ∀ {o : OuterInstance},
      "this" ≠ Text.joinPath separator (t.qualifiedName separator o.record) "this" := by
    intro o he
    have hlength := congrArg String.length he
    rw [Text.length_joinPath] at hlength
    omega
  rcases hcases hf hm with ⟨rfl, hfName⟩ | ⟨o, ho, rfl, hfName⟩
  · rcases hcases hg hk with ⟨rfl, -⟩ | ⟨o', ho', rfl, hgName⟩
    · rfl
    · exact absurd (hfName.symm.trans (hname.trans hgName)) hlonger
  · rcases hcases hg hk with ⟨rfl, hgName⟩ | ⟨o', ho', rfl, hgName⟩
    · exact absurd (hgName.symm.trans (hname.symm.trans hfName)) hlonger
    · have hjoined := hfName.symm.trans (hname.trans hgName)
      rw [Text.joinPath, Text.joinPath, String.append_left_inj, String.append_left_inj] at hjoined
      have hnodup : (r.implicitOuter.map fun o => t.qualifiedName separator o.record).Nodup := by
        have hrecords := hflat.nodup_qualifiedNames hseparator ht id
        rwa [← h.records, List.map_map] at hrecords
      rw [List.inj_on_of_nodup_map hnodup ho ho' hjoined]

end Tree
end NameResolution
