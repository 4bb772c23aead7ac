import NameResolution.Proofs.Registration.Again
import NameResolution.Proofs.Registration.Chain
import NameResolution.Proofs.Registration.Distinct

/-!
# The scopes of a walk

A walk opens a scope for every node it enters that has one, inside the scope that is innermost around the node, and
enters nodes in the order in which the tree lists them. So the owners of the scopes stand in the order of the tree, and
the scopes nest as their owners do, whatever the languages.
-/
namespace NameResolution

/-- The nodes that open the scopes, in the order in which the scopes were opened. -/
def ScopeTree.owners (S : ScopeTree) : List NodeId := S.scopes.toList.map Scope.owner

def Tree.opensScope (t : Tree) (x : NodeId) : Bool := (t.get? x).any (·.payload.opens?.isSome)

namespace ScopeTree
variable {S : ScopeTree} {s : ScopeId} {x : NodeId}

theorem getElem?_owners (S : ScopeTree) (s : ScopeId) : S.owners[s.index]? = (S.get? s).map Scope.owner := by
  simp [owners, get?]

theorem length_owners (S : ScopeTree) : S.owners.length = S.size := by
  simp [owners, size]

theorem mem_owners_of_scopeOf? (hs : S.scopeOf? x = some s) : x ∈ S.owners := by
  obtain ⟨sc, hsc, rfl⟩ := get?_of_scopeOf? hs
  exact List.mem_of_getElem? ((getElem?_owners S s).trans (congrArg (Option.map Scope.owner) hsc))

end ScopeTree

namespace Registration
open NameResolution.Tree ScopeTree

section
variable {config : Config} {id x : NodeId} {n : Node} {scope inner : Option ScopeId} {p p' : Progress} {s : ScopeId}
  {sc : Scope}

theorem Opens.scopeOf?_self (h : Opens config id n scope p inner p') (hopens : n.payload.opens?.isSome = true) :
    p'.scopes.scopeOf? id = some ⟨p.scopes.size⟩ := by
  cases h with
  | transparent hnone => simp [hnone] at hopens
  | plain | record => exact (scopeOf?_push ..).trans (if_pos rfl)

theorem Opens.owners_eq (h : Opens config id n scope p inner p') :
    p'.scopes.owners = p.scopes.owners ++ if n.payload.opens?.isSome then [id] else [] := by
  cases h with
  | transparent hnone => simp [hnone]
  | plain hopens => simp [owners, ScopeTree.push, hopens]
  | record hp => simp [owners, ScopeTree.push, declareAll, nameRecord, hp, Payload.opens?]

theorem Declares.owners_eq (h : Declares config id n scope p p') : p'.scopes.owners = p.scopes.owners := by
  rw [owners, owners, h.scopes_eq]

theorem Enters.owners_eq (h : Enters config id n p p') :
    p'.scopes.owners = p.scopes.owners ++ if n.payload.opens?.isSome then [id] else [] := by
  obtain ⟨p₁, inner, hd, ho⟩ := h.effect
  rw [ho.owners_eq, hd.owners_eq]

/-- Scopes stay nested when a node is entered that owns none and that none stands below. -/
theorem Nested.enter (h : Nested p.tree p.scopes) (ht : p.tree.WellFormed) (he : Enters config id n p p')
    (hnew : p.scopes.scopeOf? id = none)
    (hbelow : ∀ {s sc}, p.scopes.get? s = some sc → id ∉ p.tree.ancestors sc.owner) : Nested p'.tree p'.scopes := by
  obtain ⟨p₁, inner, hd, ho⟩ := he.effect
  have hscope : p₁.tree.enclosingScope? p₁.scopes id = p.tree.enclosingScope? p.scopes id := by
    rw [hd.tree_eq, enclosingScope?_congr hd.scopes_eq]
  have hdeclared : Nested p₁.tree p₁.scopes := hd.tree_eq ▸ h.congr hd.scopes_eq
  refine hdeclared.opens (hd.tree_eq ▸ ht) (hd.tree_eq ▸ he.node) ?_ ?_ (hscope ▸ ho)
  · rw [scopeOf?_congr hd.scopes_eq, hnew]
  · intro s sc hs
    rw [hd.tree_eq]
    exact hbelow (get?_congr hd.scopes_eq s ▸ hs)

end

section
variable {t : Tree} {x root : NodeId} {n : Node} {xs : List NodeId}

/-- Some of the children of a node are listed in an order that their walks keep to, if each is. -/
theorem exists_lists_entered_of_sublist (ht : t.WellFormed) (hn : t.get? x = some n)
    (hlists : ∀ c ∈ n.children, ∃ l, t.Lists [c] l ∧ ∀ depth, ((steps t depth c).filterMap Step.entered?).Sublist l)
    (hxs : xs.Sublist n.children) :
    ∃ l, t.Lists xs l ∧ ∀ (slots : List Slot) depth, (slots.map Slot.child).Sublist xs →
      (slots.flatMap fun s => (steps t depth s.child).filterMap Step.entered?).Sublist l := by
  induction xs with
  | nil =>
    refine ⟨[], .nil t, fun slots depth hslots => ?_⟩
    rw [List.map_eq_nil_iff.mp (List.sublist_nil.mp hslots)]
    exact List.Sublist.refl _
  | cons c xs ih =>
    have hc : c ∈ n.children := hxs.subset (by simp)
    obtain ⟨l, hl, hentered⟩ := hlists c hc
    obtain ⟨l', hl', hrest⟩ := ih ((List.sublist_cons_self c xs).trans hxs)
    refine ⟨l ++ l', hl.append hl' ?_, fun slots depth hslots => ?_⟩
    · intro c' hc' d hd z hcz hdz
      obtain rfl := List.mem_singleton.mp hc'
      have hd' : d ∈ n.children := hxs.subset (List.mem_cons_of_mem _ hd)
      obtain rfl := ht.eq_of_below hn hc hd' hcz hdz
      exact (List.nodup_cons.mp ((ht.nodup_children hn).sublist hxs)).1 hd
    · cases slots with
      | nil => exact List.nil_sublist _
      | cons s slots =>
        rw [List.map_cons] at hslots
        cases hslots with
        | cons _ h =>
          exact (hrest (s :: slots) depth (by rwa [List.map_cons])).trans (List.sublist_append_right l l')
        | cons_cons _ h =>
          rw [List.flatMap_cons]
          exact (hentered depth).append (hrest slots depth h)

/-- A walk enters nodes in the order in which they are listed. -/
theorem exists_lists_entered (ht : t.WellFormed) (hn : t.get? x = some n) :
    ∃ l, t.Lists [x] l ∧ ∀ depth, ((steps t depth x).filterMap Step.entered?).Sublist l := by
  refine ht.induction_children
    (P := fun x => ∃ l, t.Lists [x] l ∧ ∀ depth, ((steps t depth x).filterMap Step.entered?).Sublist l) ?_ hn
  intro x n hn hlists
  obtain ⟨l, hl, hentered⟩ := exists_lists_entered_of_sublist ht hn hlists (List.Sublist.refl _)
  refine ⟨x :: l, hl.node ht hn, fun depth => ?_⟩
  cases depth with
  | zero => exact List.nil_sublist _
  | succ depth =>
    have hbelow := hentered n.payload.slots depth n.payload.slots_sublist
    simp only [steps, hn, List.filterMap_cons, Step.entered?, List.filterMap_flatMap]
    exact hbelow.cons_cons x

theorem entered_sublist_flatten (ht : t.WellFormed) (hroot : t.root = some root) (depth : Nat) :
    ((steps t depth root).filterMap Step.entered?).Sublist (t.flatten root) := by
  obtain ⟨r, hr, -⟩ := ht.root_parent hroot
  obtain ⟨l, hl, hentered⟩ := exists_lists_entered ht hr
  rw [(ht.lists_flatten hroot).unique hl]
  exact hentered depth

end
end Registration

namespace Tree.RegistersIn
open Registration ScopeTree

variable {languages : Set String} {config : Config} {t : Tree} {root x : NodeId} {p : Progress}

/-- A walk over a tree that later passes leave behind goes the same way. -/
theorem steps_eq_of_extends {T : Tree} (h : RegistersIn languages config t root p) (hT : T.WellFormed)
    (hext : t.Extends T) : steps T T.depthLimit root = steps t t.depthLimit root := by
  obtain ⟨k, hk, -⟩ := h.proper.root_parent h.root_eq
  exact steps_again h.proper.toWellFormed hT hext hk (t.lt_depthLimit root) (T.lt_depthLimit root)

theorem steps_eq (h : RegistersIn languages config t root p) :
    steps p.tree p.tree.depthLimit root = steps t t.depthLimit root :=
  h.steps_eq_of_extends h.walked.proper.toWellFormed h.walked.toExtends

/-- What a walk enters can still be told from a tree that later passes leave behind. -/
theorem enter_mem_iff_of_extends {T : Tree} (h : RegistersIn languages config t root p) (hT : T.WellFormed)
    (hext : t.Extends T) : .enter x ∈ steps t t.depthLimit root ↔ T.Nests root x := by
  rw [← h.steps_eq_of_extends hT hext]
  exact hT.enter_mem_iff (hext.root.trans h.root_eq)

theorem enter_mem_iff (h : RegistersIn languages config t root p) :
    .enter x ∈ steps t t.depthLimit root ↔ p.tree.Nests root x :=
  h.enter_mem_iff_of_extends h.walked.proper.toWellFormed h.walked.toExtends

/-- What is entered one after another stands so in the tree. -/
theorem entered_sublist (h : RegistersIn languages config t root p) {a d : NodeId}
    (hsteps : [Step.enter a, .enter d].Sublist (steps t t.depthLimit root)) :
    [a, d].Sublist (p.tree.flatten root) :=
  (hsteps.filterMap Step.entered?).trans
    (h.steps_eq ▸ entered_sublist_flatten h.walked.proper.toWellFormed h.root_eq' _)

theorem nested (h : RegistersIn languages config t root p) : Nested p.tree p.scopes := by
  have ht := h.proper.toWellFormed
  obtain ⟨k, hk, -⟩ := ht.root_parent h.root_eq
  refine Walked.induction (I := fun _ q => Nested q.tree q.scopes) h.proper h.language hk (List.append_nil _).symm
    h.registration (.empty t) (fun hq => hq) ?_
  intro done rest id n q q' hsplit hwalked _ he hq
  have hbefore : ∀ a, Step.enter a ∈ done → ¬ t.Below id a := fun a ha => not_below_of_split ht hsplit ha
  have hex : ∀ a, Step.enter a ∈ done → ∃ k, t.get? a = some k :=
    fun a ha => exists_of_enter_mem ht hk (hsplit ▸ List.mem_append_left _ ha)
  exact hq.enter hwalked.proper.toWellFormed he (hwalked.scopeOf?_eq_none hbefore)
    fun hs => hwalked.not_mem_ancestors ht hex hbefore (hwalked.owner_entered hs)

/-- Scopes are opened in the order in which their owners are entered. -/
theorem owners_eq_filter_entered (h : RegistersIn languages config t root p) :
    p.scopes.owners = ((steps t t.depthLimit root).filterMap Step.entered?).filter t.opensScope := by
  obtain ⟨k, hk, -⟩ := h.proper.root_parent h.root_eq
  refine Walked.induction (I := fun done q => q.scopes.owners = (done.filterMap Step.entered?).filter t.opensScope)
    h.proper h.language hk (List.append_nil _).symm h.registration rfl ?_ ?_
  · intro done owner slot q hq
    rw [hq, List.filterMap_append]
    simp [Step.entered?]
  · intro done rest id n q q' _ _ hn he hq
    rw [he.owners_eq, hq, List.filterMap_append, List.filter_append]
    simp [Step.entered?, opensScope, hn, List.filter_cons]

/-- The nodes that have scopes are those of the nesting that open one. -/
theorem isSome_scopeOf?_iff (h : RegistersIn languages config t root p) :
    (p.scopes.scopeOf? x).isSome = true ↔ p.tree.Nests root x ∧ p.tree.opensScope x = true := by
  constructor
  · intro hsome
    obtain ⟨s, hs⟩ := Option.isSome_iff_exists.mp hsome
    obtain ⟨sc, hsc, rfl⟩ := get?_of_scopeOf? hs
    obtain ⟨n, hn, hopens⟩ := h.nested.owner hsc
    refine ⟨h.enter_mem_iff.mp (h.walked.owner_entered hsc), ?_⟩
    rw [opensScope, hn, Option.any_some, hopens]
    rfl
  · rintro ⟨hnests, hopens⟩
    obtain ⟨r, hr, -⟩ := h.proper.root_parent h.root_eq
    have hmem := h.enter_mem_iff.mpr hnests
    obtain ⟨n, hn⟩ := exists_of_enter_mem h.proper.toWellFormed hr hmem
    obtain ⟨n', hn', hb⟩ := h.walked.toExtends.node hn
    rw [opensScope, hn', Option.any_some, hb.payload.opens?_eq] at hopens
    exact (h.walked.isSome_scopeOf?_iff hn).mpr ⟨hmem, hopens⟩

/-- Some of the nodes that a walk enters stand in its order among all nodes of a tree that later passes leave behind. -/
theorem eq_filter_flatten {T : Tree} {xs : List NodeId} {listed : NodeId → Bool}
    (h : RegistersIn languages config t root p) (hT : T.WellFormed) (hext : t.Extends T)
    (hxs : xs.Sublist ((steps t t.depthLimit root).filterMap Step.entered?))
    (hlisted : ∀ x, listed x = true ↔ x ∈ xs) : xs = (T.flatten root).filter listed := by
  have hroot := hext.root.trans h.root_eq
  have hsublist : xs.Sublist (T.flatten root) := by
    rw [← h.steps_eq_of_extends hT hext] at hxs
    exact hxs.trans (entered_sublist_flatten hT hroot _)
  have hall : xs.filter listed = xs := List.filter_eq_self.mpr fun x hx => (hlisted x).mpr hx
  have hfilter := hsublist.filter listed
  rw [hall] at hfilter
  refine hfilter.eq_of_length_le ((List.subperm_of_subset ?_ ?_).length_le)
  · exact (hT.lists_flatten hroot).nodup.filter _
  · exact fun x hx => (hlisted x).mp (List.mem_filter.mp hx).2

/-- Scopes are opened in the order in which their owners are listed. -/
theorem owners_eq (h : RegistersIn languages config t root p) :
    p.scopes.owners = (p.tree.flatten root).filter fun x => (p.scopes.scopeOf? x).isSome := by
  apply h.eq_filter_flatten h.walked.proper.toWellFormed h.walked.toExtends
  · rw [h.owners_eq_filter_entered]
    exact List.filter_sublist
  · intro x
    constructor
    · intro hsome
      obtain ⟨s, hs⟩ := Option.isSome_iff_exists.mp hsome
      exact mem_owners_of_scopeOf? hs
    · intro hx
      obtain ⟨i, hi, rfl⟩ := List.getElem_of_mem hx
      obtain ⟨sc, hsc⟩ := exists_of_lt_size (s := ⟨i⟩) (length_owners p.scopes ▸ hi)
      have howner := getElem?_owners p.scopes ⟨i⟩
      rw [hsc, List.getElem?_eq_getElem hi] at howner
      rw [Option.some.inj howner, h.nested.opened hsc]
      rfl

end Tree.RegistersIn
end NameResolution
