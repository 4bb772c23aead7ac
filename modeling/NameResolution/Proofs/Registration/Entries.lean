import NameResolution.Proofs.Registration.Nesting

/-!
# The log of a walk

A walk only appends to its entries: a declaration is appended when it is entered, and the implicit members of a record when
the record is, in the scope that it opens then. What is said of one declaration, by an entry or as a duplicate, is said when
it is entered, and by no other step.
-/
namespace NameResolution

namespace ScopeTree

def entriesOf (S : ScopeTree) (d : NodeId) : List Entry := S.entries.toList.filter (·.declaration == d)

variable {S S' : ScopeTree} {d x : NodeId} {s : ScopeId} {name : String} {e : Entry} {added : List Entry}

theorem mem_entriesOf : e ∈ S.entriesOf d ↔ e ∈ S.entries ∧ e.declaration = d := by
  rw [entriesOf, List.mem_filter, Array.mem_toList_iff, beq_iff_eq]

theorem mem_entriesOf_of_mem_lookup (h : d ∈ S.lookup s name) : ⟨s, name, d⟩ ∈ S.entriesOf d :=
  mem_entriesOf.mpr ⟨mem_lookup_iff.mp h, rfl⟩

theorem not_mem_lookup_of_entriesOf (h : S.entriesOf d = []) (s : ScopeId) (name : String) : d ∉ S.lookup s name := by
  intro hmem
  have hentry := mem_entriesOf_of_mem_lookup hmem
  rw [h] at hentry
  cases hentry

theorem entriesOf_append (h : S'.entries.toList = S.entries.toList ++ added) (hd : ∀ e ∈ added, e.declaration ≠ d) :
    S'.entriesOf d = S.entriesOf d := by
  have hnone : added.filter (·.declaration == d) = [] := by
    rw [List.filter_eq_nil_iff]
    intro e he
    simpa using hd e he
  rw [entriesOf, h, List.filter_append, hnone, List.append_nil]
  rfl

theorem lookup_append (h : S'.entries.toList = S.entries.toList ++ added) (s : ScopeId) (name : String) :
    ∃ more, S'.lookup s name = S.lookup s name ++ more ∧ ∀ x ∈ more, (⟨s, name, x⟩ : Entry) ∈ added := by
  refine ⟨(added.filter fun e => e.scope == s && e.name == name).map Entry.declaration, ?_, fun x hx => ?_⟩
  · rw [lookup, h, List.filter_append, List.map_append]
    rfl
  · obtain ⟨e, he, rfl⟩ := List.mem_map.mp hx
    obtain ⟨hadded, hmatch⟩ := List.mem_filter.mp he
    rw [Bool.and_eq_true, beq_iff_eq, beq_iff_eq] at hmatch
    obtain ⟨rfl, rfl⟩ := hmatch
    exact hadded

/-- The scope that a declaration was made in is that of its last entry. -/
theorem declaredIn?_eq (S : ScopeTree) (d : NodeId) : S.declaredIn? d = (S.entriesOf d).getLast?.map Entry.scope := by
  rw [declaredIn?, ← List.head?_filter, List.filter_reverse, List.head?_reverse]
  rfl

theorem declaredIn?_of_entriesOf (h : S.entriesOf d = []) : S.declaredIn? d = none := by
  rw [declaredIn?_eq, h]
  rfl

theorem count_lookup (S : ScopeTree) (s : ScopeId) (name : String) (d : NodeId) :
    (S.lookup s name).count d = ((S.entriesOf d).filter fun e => e.scope == s && e.name == name).length := by
  rw [lookup, entriesOf, List.filter_filter, List.count, List.countP_map, List.countP_eq_length_filter,
    List.filter_filter]
  congr 2
  funext e
  exact Bool.and_comm ..

end ScopeTree

namespace Registration
open NameResolution.Tree ScopeTree

def Progress.dropsOf (p : Progress) (d : NodeId) : List Duplicate := p.duplicates.toList.filter (·.repeated == d)

theorem Progress.mem_dropsOf {p : Progress} {d : NodeId} {e : Duplicate} :
    e ∈ p.dropsOf d ↔ e ∈ p.duplicates ∧ e.repeated = d := by
  rw [dropsOf, List.mem_filter, Array.mem_toList_iff, beq_iff_eq]

theorem Progress.repeated_ne_of_dropsOf {p : Progress} {d : NodeId} (h : p.dropsOf d = []) :
    ∀ e ∈ p.duplicates, e.repeated ≠ d := by
  intro e he heq
  have hmem := mem_dropsOf.mpr ⟨he, heq⟩
  rw [h] at hmem
  cases hmem

section
variable {config : Config} {languages : Set String} {id d : NodeId} {n m : Node} {scope inner : Option ScopeId}
  {p p' : Progress}

/-- A record that is entered appends its implicit members, in the scope that it opens. -/
theorem Opens.exists_entries (h : Opens config id n scope p inner p') :
    ∃ added, p'.scopes.entries.toList = p.scopes.entries.toList ++ added ∧
      ∀ e ∈ added, e.scope = ⟨p.scopes.size⟩ ∧ p'.scopes.scopeOf? id = some e.scope ∧
        ∃ name typeName, p'.tree.get? e.declaration = some (implicitNode e.declaration id name typeName) := by
  cases h with
  | transparent | plain => exact ⟨[], (List.append_nil _).symm, fun e he => absurd he List.not_mem_nil⟩
  | @record r r' t' hp hsup =>
    refine ⟨implicitEntries config.separator p.tree ⟨p.scopes.size⟩ r', by simp [declareAll, ScopeTree.push, nameRecord],
      fun e he => ?_⟩
    obtain ⟨_, hsupplied⟩ := hsup.exists_supplied
    have hscope : e.scope = ⟨p.scopes.size⟩ := by
      rcases List.mem_append.mp he with he | he
      · obtain ⟨f, -, rfl⟩ := List.mem_map.mp he
        rfl
      · obtain ⟨o, -, rfl⟩ := List.mem_map.mp he
        rfl
    refine ⟨hscope, ?_, hsupplied.implicit (declaration_mem_implicitFields he)⟩
    rw [hscope]
    exact (scopeOf?_push ..).trans (if_pos rfl)

theorem Declares.exists_entries (h : Declares config id n scope p p') (hs : ∀ s ∈ scope, s.index < p.scopes.size) :
    ∃ added, p'.scopes.entries.toList = p.scopes.entries.toList ++ added ∧
      ∀ e ∈ added, e.declaration = id ∧ n.kind.isDeclaration = true := by
  cases h with
  | skipped | dropped => exact ⟨[], (List.append_nil _).symm, fun e he => absurd he List.not_mem_nil⟩
  | @entered s hin hdecl =>
    refine ⟨[⟨s, declaredName config.separator n, id⟩], ?_, fun e he => ?_⟩
    · simp only [declare_eq_declareAll _ (hs s hin), declareAll, Array.toList_append]
    · rw [List.mem_singleton.mp he]
      exact ⟨rfl, hdecl⟩

/-- What entering a node appends: the node itself, and the implicit members of a record. -/
theorem Enters.exists_entries (h : Enters config id n p p') :
    ∃ added, p'.scopes.entries.toList = p.scopes.entries.toList ++ added ∧
      ∀ e ∈ added, e.declaration = id ∧ n.kind.isDeclaration = true ∨
        e.scope = ⟨p.scopes.size⟩ ∧ p'.scopes.scopeOf? id = some e.scope ∧
          ∃ name typeName, p'.tree.get? e.declaration = some (implicitNode e.declaration id name typeName) := by
  obtain ⟨p₁, inner, hd, ho⟩ := h.effect
  obtain ⟨own, hown, hself⟩ := hd.exists_entries fun s hs => lt_size_of_enclosingScope? hs
  obtain ⟨members, hmembers, himplicit⟩ := ho.exists_entries
  have hsize : p₁.scopes.size = p.scopes.size := congrArg Array.size hd.scopes_eq
  refine ⟨own ++ members, by rw [hmembers, hown, List.append_assoc], fun e he => ?_⟩
  rcases List.mem_append.mp he with he | he
  · exact .inl (hself e he)
  · exact .inr (hsize ▸ himplicit e he)

theorem Enters.exists_duplicates (h : Enters config id n p p') :
    ∃ added, p'.duplicates.toList = p.duplicates.toList ++ added ∧
      ∀ e ∈ added, e.repeated = id ∧ n.kind.isDeclaration = true := by
  obtain ⟨p₁, inner, hd, ho⟩ := h.effect
  rw [ho.duplicates_eq]
  cases hd with
  | skipped | entered => exact ⟨[], (List.append_nil _).symm, fun e he => absurd he List.not_mem_nil⟩
  | dropped _ hdecl =>
    refine ⟨_, Array.toList_push .., fun e he => ?_⟩
    rw [List.mem_singleton.mp he]
    exact ⟨rfl, hdecl⟩

theorem Enters.size_le (h : Enters config id n p p') : p.scopes.size ≤ p'.scopes.size := by
  obtain ⟨p₁, inner, hd, ho⟩ := h.effect
  have hsize : p₁.scopes.size = p.scopes.size := congrArg Array.size hd.scopes_eq
  rw [← hsize]
  cases ho with
  | transparent => exact Nat.le_refl _
  | plain | record => exact (size_push ..).symm ▸ Nat.le_succ _

/-- A run appends entries of nodes that it enters, and of implicit fields in scopes that it opens. -/
theorem runSteps_entries {xs : List Step} (h : p.tree.ProperIn languages) (hlanguage : config.separator ∈ languages)
    (hrun : runSteps (exec config) xs p = .ok () p') :
    ∃ added, p'.scopes.entries.toList = p.scopes.entries.toList ++ added ∧
      ∀ e ∈ added, .enter e.declaration ∈ xs ∨ p.scopes.size ≤ e.scope.index := by
  refine (runSteps_induction (I := fun done q => q.tree.ProperIn languages ∧ p.scopes.size ≤ q.scopes.size ∧
    ∃ added, q.scopes.entries.toList = p.scopes.entries.toList ++ added ∧
      ∀ e ∈ added, .enter e.declaration ∈ done ∨ p.scopes.size ≤ e.scope.index)
    ⟨h, Nat.le_refl _, [], (List.append_nil _).symm, fun e he => absurd he List.not_mem_nil⟩ ?_ hrun).2.2
  rintro done x rest q q' - ⟨hq, hsize, added, hadded, hfrom⟩ hx -
  have hold : ∀ e ∈ added, .enter e.declaration ∈ done ++ [x] ∨ p.scopes.size ≤ e.scope.index :=
    fun e he => (hfrom e he).imp_left (List.mem_append_left _)
  rcases exec_ok_cases hq hx with ⟨owner, slot, rfl, rfl⟩ | ⟨id, n, rfl, he⟩
  · exact ⟨hq, hsize, added, hadded, hold⟩
  · obtain ⟨more, hmore, hsource⟩ := he.exists_entries
    refine ⟨he.properIn hq hlanguage, hsize.trans he.size_le, added ++ more,
      by rw [hmore, hadded, List.append_assoc], fun e hmem => ?_⟩
    rcases List.mem_append.mp hmem with hmem | hmem
    · exact hold e hmem
    · rcases hsource e hmem with ⟨rfl, -⟩ | ⟨hscope, -⟩
      · exact .inl (by simp)
      · exact .inr (by rw [hscope]; exact hsize)

/-- Only entering a declaration adds to what is said of it, unless it is an implicit member. -/
theorem runSteps_said {xs : List Step} (h : p.tree.ProperIn languages) (hlanguage : config.separator ∈ languages)
    (hd : Step.enter d ∉ xs) (hm : p.tree.get? d = some m)
    (himplicit : ∀ record name typeName, m ≠ implicitNode d record name typeName)
    (hrun : runSteps (exec config) xs p = .ok () p') :
    p'.scopes.entriesOf d = p.scopes.entriesOf d ∧ p'.dropsOf d = p.dropsOf d := by
  refine (runSteps_induction_of_not_mem (I := fun q => q.tree.get? d = some m ∧
    q.scopes.entriesOf d = p.scopes.entriesOf d ∧ q.dropsOf d = p.dropsOf d) h hlanguage hd ⟨hm, rfl, rfl⟩ ?_ hrun).2
  rintro id n q q' hne he ⟨hq, hentries, hdrops⟩
  have hq' := he.kept hne hq
  obtain ⟨added, hadded, hfrom⟩ := he.exists_entries
  obtain ⟨more, hmore, hrepeated⟩ := he.exists_duplicates
  refine ⟨hq', (entriesOf_append hadded fun e hmem => ?_).trans hentries, Eq.trans ?_ hdrops⟩
  · rcases hfrom e hmem with ⟨heq, -⟩ | ⟨-, -, name, typeName, hnode⟩
    · rw [heq]
      exact hne.symm
    · rintro rfl
      rw [hq'] at hnode
      exact himplicit _ _ _ (Option.some.inj hnode)
  · have hnone : more.filter (·.repeated == d) = [] := by
      rw [List.filter_eq_nil_iff]
      intro e hmem
      rw [(hrepeated e hmem).1]
      simpa using hne.symm
    rw [Progress.dropsOf, hmore, List.filter_append, hnone, List.append_nil]
    rfl

/-- Where an entry comes from: from the step of its node, or from that of the record whose scope it is in. -/
inductive Progress.Origin (p : Progress) (done : List Step) (e : Entry) : Prop
  | source (entered : .enter e.declaration ∈ done)
  | member {record : NodeId} {name typeName : String} (entered : .enter record ∈ done)
      (scope : p.scopes.scopeOf? record = some e.scope)
      (node : p.tree.get? e.declaration = some (implicitNode e.declaration record name typeName))

theorem origin_of_mem_entries {t : Tree} {root : NodeId} {done rest : List Step} {k : Node} {e : Entry}
    (ht : t.ProperIn languages) (hlanguage : config.separator ∈ languages) (hk : t.get? root = some k)
    (hroot : ¬ IsImplicitField t root) {depth : Nat} (hsplit : steps t depth root = done ++ rest)
    (hrun : runSteps (exec config) done { tree := t } = .ok () p) (he : e ∈ p.scopes.entries) : p.Origin done e := by
  refine Walked.induction (I := fun done q => ∀ e ∈ q.scopes.entries, q.Origin done e) ht hlanguage hk hsplit hrun
    (fun e he => absurd he (Array.not_mem_empty e)) ?_ ?_ e he
  · intro done owner slot q hq e he
    cases hq e he with
    | source entered => exact .source (List.mem_append_left _ entered)
    | member entered scope node => exact .member (List.mem_append_left _ entered) scope node
  · intro done rest id n q q' hsplit hwalked _ henters hq e he
    have hmem : Step.enter id ∈ steps t depth root := hsplit ▸ by simp
    obtain ⟨added, hadded, hfrom⟩ := henters.exists_entries
    rw [← Array.mem_toList_iff, hadded, List.mem_append, Array.mem_toList_iff] at he
    rcases he with he | he
    · cases hq e he with
      | source entered => exact .source (List.mem_append_left _ entered)
      | @member record name typeName entered scope node =>
        have hrecord : record ≠ id := fun heq => (enter_not_mem_of_split ht.toWellFormed hsplit).1 (heq ▸ entered)
        have hfield : e.declaration ≠ id := by
          intro heq
          obtain ⟨m, hm⟩ := exists_of_enter_mem ht.toWellFormed hk hmem
          exact not_implicit_of_enter_mem ht hroot hmem
            (hwalked.toExtends.isImplicitField hm (heq ▸ ⟨_, _, node, rfl, rfl⟩))
        exact .member (List.mem_append_left _ entered) ((henters.scopeOf?_eq hrecord).trans scope)
          (henters.kept hfield node)
    · rcases hfrom e he with ⟨heq, -⟩ | ⟨-, hscope, name, typeName, hnode⟩
      · exact .source (List.mem_append_right _ (by rw [heq, List.mem_singleton]))
      · exact .member (List.mem_append_right _ (List.mem_singleton_self _)) hscope hnode

/-- What becomes of the declaration `d` of the name `name`, if `held` is the declaration whose name it may not take: its
entries, and the duplicates that it is dropped as. -/
inductive Fate (s : ScopeId) (name : String) (d : NodeId) (held : Option NodeId) : List Entry → List Duplicate → Prop
  | nameless (unnamed : name = "") : Fate s name d held [] []
  | entered (named : name ≠ "") (free : held = none) : Fate s name d held [⟨s, name, d⟩] []
  | dropped {first : NodeId} (named : name ≠ "") (taken : held = some first) :
      Fate s name d held [] [⟨name, first, d, s⟩]

/-- The step of a declaration decides what becomes of it. -/
theorem fate_of_enter {s : ScopeId} (hkeep : config.duplicates = .keepFirst) (hp : p.tree.ProperIn languages)
    (hlanguage : config.separator ∈ languages) (hn : p.tree.get? d = some n) (hdecl : n.kind.isDeclaration = true)
    (hscope : p.tree.enclosingScope? p.scopes d = some s) (hentries : p.scopes.entriesOf d = [])
    (hdrops : p.dropsOf d = []) (hrun : (exec config (.enter d)).run p = .ok () p') :
    Fate s (declaredName config.separator n) d
      (if n.kind.isUniquePerScope then holder? p s (declaredName config.separator n) else none)
      (p'.scopes.entriesOf d) (p'.dropsOf d) := by
  obtain ⟨p₁, inner, hd, hdec, ho⟩ := enter_run_ok hp hn hrun
  have hafter : p'.scopes.entriesOf d = p₁.scopes.entriesOf d ∧ p'.dropsOf d = p₁.dropsOf d := by
    obtain ⟨added, hadded, hmember⟩ := ho.exists_entries
    refine ⟨entriesOf_append hadded fun e he => ?_, by rw [Progress.dropsOf, ho.duplicates_eq]; rfl⟩
    -- No field stands below itself.
    rintro rfl
    obtain ⟨-, -, name, typeName, hnode⟩ := hmember e he
    have hp' := ho.properIn (hdec.tree_eq ▸ hp) hlanguage (hdec.tree_eq ▸ hn)
    have habove := hp'.ancestors_of_parent hnode rfl
    exact hp'.not_mem_ancestors _ (habove ▸ List.mem_cons_self ..)
  rw [hafter.1, hafter.2]
  rw [hscope] at hd
  by_cases hname : declaredName config.separator n = ""
  · rw [declareIn_run_of_skipped (.inr (.inr hname))] at hd
    cases hd
    rw [hentries, hdrops]
    exact .nameless hname
  · rw [declareIn_run_of_named hdecl hname] at hd
    cases hheld : if n.kind.isUniquePerScope then holder? p s (declaredName config.separator n) else none with
    | none =>
      rw [hheld] at hd
      cases hd
      have hadded : (p.scopes.declare s (declaredName config.separator n) d).entriesOf d =
          [⟨s, declaredName config.separator n, d⟩] := by
        rw [declare_eq_declareAll _ (lt_size_of_enclosingScope? hscope), entriesOf, declareAll, Array.toList_append,
          List.filter_append]
        change p.scopes.entriesOf d ++ _ = _
        rw [hentries]
        simp
      dsimp only
      rw [hadded]
      exact hdrops ▸ .entered hname rfl
    | some first =>
      rw [hheld, hkeep] at hd
      cases hd
      have hadded : ∀ e : Duplicate, e.repeated = d →
          ({ p with duplicates := p.duplicates.push e } : Progress).dropsOf d = [e] := by
        intro e he
        rw [Progress.dropsOf, Array.toList_push, List.filter_append]
        change p.dropsOf d ++ _ = _
        rw [hdrops, List.nil_append, List.filter_singleton, he, beq_self_eq_true]
        rfl
      rw [hadded _ rfl]
      exact hentries ▸ .dropped hname rfl

end
end Registration

namespace Tree
open Registration ScopeTree

/-- The place of a walk at which it enters the node `d`: it has come to `q`, goes on from `q'`, and ends in `p`. -/
structure EntersAt (languages : Set String) (config : Config) (t : Tree) (root d : NodeId)
    (done rest : List Registration.Step) (q q' p : Progress) : Prop extends RegistersIn languages config t root p where
  split : steps t t.depthLimit root = done ++ .enter d :: rest
  before : runSteps (exec config) done { tree := t } = .ok () q
  step : (exec config (.enter d)).run q = .ok () q'
  after : runSteps (exec config) rest q' = .ok () p

variable {languages : Set String} {config : Config} {t : Tree} {root d owner : NodeId}
  {done rest : List Registration.Step} {q q' p : Progress}

/-- Every node of the nesting is entered at some place. -/
theorem RegistersIn.exists_entersAt (h : RegistersIn languages config t root p) (hd : p.tree.Nests root d) :
    ∃ done rest q q', EntersAt languages config t root d done rest q q' p := by
  obtain ⟨done, rest, q, q', hsplit, hq, hstep, hrest⟩ :=
    exists_step_of_mem (h.enter_mem_iff.mpr hd) h.registration
  exact ⟨done, rest, q, q', h, hsplit, hq, hstep, hrest⟩

namespace EntersAt

variable (h : EntersAt languages config t root d done rest q q' p)
include h

theorem reached : Walked languages t done q := .run h.proper h.language h.before

/-- The walk from the node on. -/
theorem run : runSteps (exec config) (.enter d :: rest) q = .ok () p := by
  rw [runSteps_cons, h.step]
  exact h.after

theorem onward : q.tree.Extends p.tree ∧ q.tree.KeepsAllButRecords p.tree := by
  have hkeeps := (runSteps_keeps h.reached.proper h.language (.enter d :: rest)).2
  rwa [h.run, endState_ok] at hkeeps

theorem entered : Step.enter d ∈ steps t t.depthLimit root := by
  rw [h.split]
  exact List.mem_append_right _ (List.mem_cons_self ..)

theorem exists_node : ∃ n, t.get? d = some n := by
  obtain ⟨k, hk, -⟩ := h.proper.root_parent h.root_eq
  exact exists_of_enter_mem h.proper.toWellFormed hk h.entered

/-- Nothing is entered both before the node and after. -/
theorem not_mem_run {a : NodeId} (ha : .enter a ∈ done) : Step.enter a ∉ .enter d :: rest := by
  intro hmem
  have hpairwise := h.split ▸ steps_pairwise h.proper.toWellFormed t.depthLimit root
  exact (List.pairwise_append.mp hpairwise).2.2 _ ha _ hmem a a rfl rfl (.refl t a)

/-- The scope of the nearest node above that opens one is the innermost. -/
theorem exists_scope (hopener : p.tree.opener? d = some owner) : ∃ s, p.scopes.scopeOf? owner = some s ∧
    q.tree.enclosingScope? q.scopes d = some s := by
  have ht := h.proper.toWellFormed
  obtain ⟨n, hn⟩ := h.exists_node
  rw [h.walked.toExtends.opener?_eq ht hn] at hopener
  have habove : ∀ a ∈ t.ancestors d, .enter a ∈ done := fun a ha => enter_mem_of_split ht h.root_eq h.split ha
  obtain ⟨s, hs⟩ := h.reached.exists_scopeOf?_opener hopener habove
  have howner := h.not_mem_run (habove _ (mem_ancestors_of_opener? hopener))
  refine ⟨s, ?_, ?_⟩
  · rw [runSteps_scopeOf?_eq h.reached.proper h.language howner h.run, hs]
  · rw [h.reached.enclosingScope?_eq ht hn habove, hopener, Option.bind_some, hs]

end EntersAt
end Tree
end NameResolution
