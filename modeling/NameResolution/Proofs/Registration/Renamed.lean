import NameResolution.Proofs.Binding.Candidates
import NameResolution.Proofs.Registration.Growth
import NameResolution.Proofs.Resolve
import NameResolution.Proofs.Scope.Renamed
import NameResolution.Proofs.Tree.Renamed

/-!
# Registration with a local under another name

A walk over a tree in which a variable or parameter goes by a fresh name does what the walk over the tree did, step by
step: the scopes are the same, and only the entry of the declaration is under the new name. The one thing that
could go otherwise is what the declaration keeps out; so nothing may have been dropped for its name in its scope.
-/
namespace NameResolution.Registration
open NameResolution.Tree ScopeTree

/-- The progress with the given ids under another name, among which `d` is the only declaration. -/
def Progress.rename (ids : NodeId → Bool) (d : NodeId) (name : String) (p : Progress) : Progress where
  tree := p.tree.rename ids name
  scopes := p.scopes.rename d name
  duplicates := p.duplicates

section
variable {config : Config} {languages : Set String} {ids : NodeId → Bool} {d id record outer : NodeId}
  {name : String} {t : Tree} {n : Node} {r : Record} {s : ScopeId} {scope inner : Option ScopeId}
  {p p' : Progress}

/-- The fields that the walk has added to a record so far. -/
def HasAdded (t : Tree) (record : NodeId) (p : Progress) : Prop := ∃ fields, t.AddsFields record fields p.tree

/-- Adding a field and declaring it. -/
theorem follows_implicitField {α : Type} {J : Progress → Prop} {k : NodeId → Walk α} {dn : Node}
    (hd : t.get? d = some dn) {earlier : Option NodeId} (hearlier : earlier ≠ some d) (field typeName : String)
    (s : ScopeId)
    (hk : ∀ f, Follows (HasAdded t record) J (Progress.rename ids d name) (k f) (k f)) :
    Follows (HasAdded t record) J (Progress.rename ids d name)
      (implicitField record earlier field typeName >>= fun f => enter s field f >>= fun _ => k f)
      (implicitField record earlier field typeName >>= fun f => enter s field f >>= fun _ => k f) := by
  rintro p a p' ⟨fields, hadds⟩ hrun
  -- Either way the field is not the renamed declaration.
  obtain ⟨f, t', hne, hfield, hfield', hadds'⟩ : ∃ f t', f ≠ d ∧
      (implicitField record earlier field typeName).run p = .ok f { p with tree := t' } ∧
      (implicitField record earlier field typeName).run (p.rename ids d name) =
        .ok f (({ p with tree := t' } : Progress).rename ids d name) ∧
      HasAdded t record { p with tree := t' } := by
    cases earlier with
    | some f => exact ⟨f, p.tree, fun he => hearlier (congrArg some he), rfl, rfl, fields, hadds⟩
    | none =>
      refine ⟨p.tree.nextId, _, (ne_nextId_of_get? (hadds.kept hd)).symm, implicitField_run_none .., ?_,
        _, hadds.trans (AddsFields.single p.tree record field typeName)⟩
      rw [implicitField_run_none]
      simp only [Progress.rename, addImplicitField_rename]
      rw [show (p.tree.rename ids name).nextId = p.tree.nextId from nextId_map ..]
  have henter : (enter s field f).run (({ p with tree := t' } : Progress).rename ids d name) =
      .ok () (({ p with tree := t', scopes := p.scopes.declare s field f } : Progress).rename ids d name) := by
    rw [enter_run]
    simp only [Progress.rename, declare_rename_of_ne hne]
  rw [run_bind_ok hfield, run_bind_ok (enter_run ..)] at hrun
  rw [run_bind_ok hfield', run_bind_ok henter]
  exact hk f _ a p' hadds' hrun

theorem follows_addOuter {dn : Node} (hd : t.get? d = some dn) (houter : t.kind? outer = some .recordDecl)
    (hfields : d ∉ r.implicitFields) :
    Follows (HasAdded t record) (HasAdded t record) (Progress.rename ids d name)
      (addOuter config record r s outer) (addOuter config record r s outer) := by
  refine Follows.get_bind ?_
  rintro p ⟨fields, hadds⟩
  have hkind : p.tree.kind? outer = some .recordDecl := by
    obtain ⟨m, hm, hk⟩ := Option.map_eq_some_iff.mp houter
    rw [kind?, hadds.kept hm, Option.map_some, hk]
  simp only [Progress.rename, qualifiedName_rename ids name hkind]
  refine follows_implicitField hd ?_ _ _ s fun f => .pure _
  intro heq
  obtain ⟨o, ho, hof⟩ := Option.map_eq_some_iff.mp heq
  exact hfields (List.mem_append_right _ (List.mem_map.mpr ⟨o, List.mem_of_find?_eq_some ho, hof⟩))

theorem follows_addImplicitMembers {dn : Node} (ht : t.WellFormed) (hd : t.get? d = some dn)
    (hn : t.get? record = some n) (hfields : d ∉ r.implicitFields) (qualified : String) :
    Follows (HasAdded t record) (fun _ => True) (Progress.rename ids d name)
      (addImplicitMembers config record r qualified s) (addImplicitMembers config record r qualified s) := by
  refine follows_implicitField hd (fun heq => hfields (List.mem_append_left _ (by simp [heq]))) _ _ s fun f => ?_
  refine Follows.get_bind ?_
  rintro p ⟨fields, hadds⟩
  simp only [Progress.rename, enclosingRecords_rename]
  refine Follows.bind (J := HasAdded t record) (Follows.mapM fun o ho => ?_) fun os => ?_
  · rw [hadds.toExtends.enclosingRecords_eq ht hn] at ho
    exact follows_addOuter hd (by simpa using (List.mem_filter.mp ho).2) hfields
  · refine Follows.modify (fun p _ => ?_) fun _ _ => trivial
    simp only [Progress.rename]
    congr 1
    refine modify_map (fun m => ?_) p.tree record
    obtain ⟨_, _, _, _, payload⟩ := m
    cases payload <;> rfl

theorem follows_fetch {α : Type} {I J : Progress → Prop} {k k' : Node → Walk α}
    (hk : ∀ m, Follows I J (Progress.rename ids d name) (k m) (k' (m.rename ids name))) :
    Follows I J (Progress.rename ids d name) (fetch id >>= k) (fetch id >>= k') := by
  intro p a p' hI hrun
  obtain ⟨m, q, hfetch, hrest⟩ := exists_of_run_bind_ok hrun
  obtain ⟨hm, rfl⟩ := get?_of_fetch_run hfetch
  rw [run_bind_ok (fetch_run (p := q.rename ids d name) (get?_rename_of_get? hm))]
  exact hk m q a p' hI hrest

/-- A check looks at kinds only. -/
theorem follows_checkSlot {I : Progress → Prop} (owner : Node) (slot : Slot) :
    Follows I I (Progress.rename ids d name) (checkSlot owner slot) (checkSlot (owner.rename ids name) slot) := by
  have hsame : checkSlot (owner.rename ids name) slot = checkSlot owner slot := checkSlot_congr rfl rfl slot
  rw [hsame, checkSlot]
  cases slot.allowed with
  | none => exact .pure _
  | some kinds =>
    refine follows_fetch fun m => ?_
    rw [Node.kind_rename]
    split
    · exact .pure _
    · exact .throw _ _

theorem enterRecord_run_rename {dn : Node} (hp : p.tree.WellFormed) (hd : p.tree.get? d = some dn)
    (hn : p.tree.get? id = some n) (hr : n.payload = .recordDecl r) (hfields : d ∉ r.implicitFields)
    (hrun : (enterRecord config id n r scope).run p = .ok s p') :
    (enterRecord config id n r scope).run (p.rename ids d name) = .ok s (p'.rename ids d name) := by
  have hkeep : n.rename ids name = n := Node.rename_of_kind ids name (by rw [Node.kind, hr]; rfl)
  have hkind : p.tree.kind? id = some .recordDecl := by
    rw [kind?, hn, Option.map_some, Node.kind, hr]
    rfl
  have hq : (p.rename ids d name).tree.qualifiedName config.separator id =
      p.tree.qualifiedName config.separator id := qualifiedName_rename ids name hkind _
  let opened : Progress :=
    { p with scopes := ((p.scopes.nameRecord (p.tree.qualifiedName config.separator id) id).push
        .record id scope).2 }
  have hopen : (enterRecord config id n r scope).run p =
      (do
        n.payload.slots.forM (checkSlot n)
        addImplicitMembers config id r (p.tree.qualifiedName config.separator id) ⟨p.scopes.size⟩
        pure (⟨p.scopes.size⟩ : ScopeId) : Walk ScopeId).run opened := rfl
  have hopen' : (enterRecord config id n r scope).run (p.rename ids d name) =
      (do
        n.payload.slots.forM (checkSlot n)
        addImplicitMembers config id r ((p.rename ids d name).tree.qualifiedName config.separator id)
          ⟨p.scopes.size⟩
        pure (⟨p.scopes.size⟩ : ScopeId) : Walk ScopeId).run
        { p.rename ids d name with
          scopes := ((p.scopes.rename d name).nameRecord
            ((p.rename ids d name).tree.qualifiedName config.separator id) id).push .record id scope |>.2 } := rfl
  rw [hopen] at hrun
  rw [hopen', hq]
  have hfollows : Follows (HasAdded p.tree id) (fun _ => True) (Progress.rename ids d name)
      (do
        n.payload.slots.forM (checkSlot n)
        addImplicitMembers config id r (p.tree.qualifiedName config.separator id) ⟨p.scopes.size⟩
        pure (⟨p.scopes.size⟩ : ScopeId) : Walk ScopeId)
      (do
        n.payload.slots.forM (checkSlot n)
        addImplicitMembers config id r (p.tree.qualifiedName config.separator id) ⟨p.scopes.size⟩
        pure (⟨p.scopes.size⟩ : ScopeId) : Walk ScopeId) := by
    refine Follows.bind (J := HasAdded p.tree id) (Follows.forM fun slot _ => ?_) fun _ =>
      (follows_addImplicitMembers hp hd hn hfields _).bind fun _ => .pure _
    have hcheck : Follows (HasAdded p.tree id) (HasAdded p.tree id) (Progress.rename ids d name) (checkSlot n slot)
        (checkSlot (n.rename ids name) slot) := follows_checkSlot n slot
    rwa [hkeep] at hcheck
  exact (hfollows opened s p' ⟨[], .nothing id p.tree⟩ hrun).1

/-- Opening a scope goes as before. -/
theorem innerScope_run_rename {dn : Node} (hp : p.tree.WellFormed) (hd : p.tree.get? d = some dn)
    (hn : p.tree.get? id = some n) (hfields : ∀ r, n.payload = .recordDecl r → d ∉ r.implicitFields)
    (hrun : (innerScope config id n scope).run p = .ok inner p') :
    (innerScope config id (n.rename ids name) scope).run (p.rename ids d name) =
      .ok inner (p'.rename ids d name) := by
  rcases cases_of_innerScope_run hrun with ⟨r, s, hr, rfl, henter⟩ | ⟨hopens, rfl, rfl⟩ | ⟨kind, hopens, hk, rfl, rfl⟩
  · rw [Node.rename_of_kind ids name (by rw [Node.kind, hr]; rfl)]
    exact innerScope_run_of_record config scope hr (enterRecord_run_rename hp hd hn hr (hfields r hr) henter)
  · exact innerScope_run_of_transparent config _ (n := n.rename ids name) _ hopens
  · exact innerScope_run_of_plain config scope (n := n.rename ids name) (p.rename ids d name) hopens hk

end

/-- The variable or parameter `d` is entered under `n` in the scope `s`, and nothing is entered under `name`. -/
structure HasLocal (t : Tree) (S : ScopeTree) (d : NodeId) (s : ScopeId) (n name : String) : Prop where
  declared : d ∈ S.lookup s n
  isLocal : ∃ k, t.get? d = some k ∧ (k.kind = .variableDecl ∨ k.kind = .parameterDecl)
  fresh : ∀ e ∈ S.entries, e.name ≠ name

namespace HasLocal
variable {t t' : Tree} {S : ScopeTree} {d : NodeId} {s : ScopeId} {n name : String}

/-- The declaration stays what it is. -/
theorem mono (h : HasLocal t S d s n name) (hext : t.Extends t') : HasLocal t' S d s n name := by
  obtain ⟨k, hk, hlocal⟩ := h.isLocal
  obtain ⟨k', hk', hb⟩ := hext.node hk
  have hkind : k'.kind = k.kind := hb.payload.kind_eq fun href => by
    rcases hlocal with hl | hl <;> rw [Node.kind, href] at hl <;> cases hl
  exact ⟨h.declared, ⟨k', hk', hkind ▸ hlocal⟩, h.fresh⟩

theorem claimsName (h : HasLocal t S d s n name) : ClaimsName t d := by
  obtain ⟨k, hk, hlocal⟩ := h.isLocal
  rw [ClaimsName, kind?, hk, Option.map_some, Option.any_some]
  rcases hlocal with hk | hk <;> rw [hk] <;> rfl

/-- The declaration is no field. -/
theorem kind?_ne (h : HasLocal t S d s n name) : t.kind? d ≠ some .fieldDecl := by
  obtain ⟨k, hk, hlocal⟩ := h.isLocal
  rw [kind?, hk, Option.map_some]
  rcases hlocal with hk | hk <;> rw [hk] <;> decide

theorem ne_implicitNode (h : HasLocal t S d s n name) (x record : NodeId) (field typeName : String) :
    t.get? d ≠ some (implicitNode x record field typeName) := by
  intro hd
  refine h.kind?_ne ?_
  rw [kind?, hd]
  rfl

theorem not_mem_implicitFields (h : HasLocal t S d s n name) {languages : Set String} (ht : t.ProperIn languages)
    {id : NodeId} {m : Node} {r : Record} (hm : t.get? id = some m) (hr : m.payload = .recordDecl r) :
    d ∉ r.implicitFields := by
  intro hd
  rcases ht.record hm hr with hbare | ⟨_, -, hsup⟩
  · rw [hbare.implicitFields_eq] at hd
    cases hd
  · obtain ⟨_, _, hf⟩ := hsup.implicit hd
    exact h.ne_implicitNode _ _ _ _ hf

end HasLocal

/-- What a walk over `t` has entered under `n` in `s` may go by another name together with what means it: it is the
only declaration among the given ids, and nothing was dropped for its old name. -/
structure Renames (ids : NodeId → Bool) (d : NodeId) (s : ScopeId) (n name : String) (t : Tree) (p : Progress) :
    Prop extends HasLocal t p.scopes d s n name where
  alone : ∀ x ∈ p.duplicates, x.scope = s → x.name ≠ n
  nonempty : name ≠ ""
  ids_iff : ∀ {x k}, t.get? x = some k → k.kind.isDeclaration = true → (ids x = true ↔ x = d)

section
variable {config : Config} {ids : NodeId → Bool} {d id root : NodeId} {n name : String} {t : Tree} {m : Node}
  {s : ScopeId} {scope : Option ScopeId} {p q q' : Progress} {done rest : List Step}

/-- What could be declared beside the declaration has neither its old name nor the new one. -/
theorem Renames.not_mem_lookup (h : Renames ids d s n name t p)
    (hunique : ∀ {s' n'}, d ∈ p.scopes.lookup s' n' → s' = s ∧ n' = n) (hclaims : ClaimsName q.tree d)
    {s' : ScopeId} (hs' : s'.index < q.scopes.size) (hdecl : m.kind.isDeclaration = true)
    (hu : m.kind.isUniquePerScope = true) (hname : declaredName config.separator m ≠ "") (hgrows : q'.GrowsTo p)
    (hrun : (declareIn config id m (some s')).run q = .ok () q') :
    declaredName config.separator m ≠ name ∧ d ∉ q.scopes.lookup s' (declaredName config.separator m) := by
  rw [declareIn_run_of_named hdecl hname, if_pos hu] at hrun
  cases hholder : holder? q s' (declaredName config.separator m) with
  | none =>
    rw [hholder] at hrun
    cases hrun
    refine ⟨h.fresh ⟨s', declaredName config.separator m, id⟩ (hgrows.entries ?_), fun hd => ?_⟩
    · dsimp only
      rw [declare_eq_declareAll _ hs']
      exact mem_entries_declareAll.mpr (.inr (List.mem_singleton.mpr rfl))
    · exact List.find?_eq_none.mp hholder d hd hclaims
  | some first =>
    rw [hholder] at hrun
    have hfirst := mem_lookup_iff.mp (List.mem_of_find?_eq_some hholder)
    cases hpolicy : config.duplicates with
    | fatal =>
      rw [hpolicy] at hrun
      cases hrun
    | keepFirst =>
      rw [hpolicy] at hrun
      cases hrun
      refine ⟨h.fresh _ (hgrows.entries hfirst), fun hd => ?_⟩
      -- The node would have been dropped for the declaration.
      obtain ⟨rfl, hn⟩ := hunique (hgrows.mem_lookup hd)
      exact h.alone _ (hgrows.duplicates (Array.mem_push_self ..)) rfl hn

/-- Declaring another node goes as before. -/
theorem Renames.declareIn_run_of_ne (h : Renames ids d s n name t p)
    (hunique : ∀ {s' n'}, d ∈ p.scopes.lookup s' n' → s' = s ∧ n' = n) (hclaims : ClaimsName q.tree d)
    (hm : t.get? id = some m) (hid : m.id = id) (hne : id ≠ d) (hscope : ∀ s' ∈ scope, s'.index < q.scopes.size)
    (hgrows : q'.GrowsTo p) (hrun : (declareIn config id m scope).run q = .ok () q') :
    (declareIn config id (m.rename ids name) scope).run (q.rename ids d name) = .ok () (q'.rename ids d name) := by
  by_cases hdecl : m.kind.isDeclaration = true
  case neg =>
    rw [Bool.not_eq_true] at hdecl
    rw [declareIn_run_of_skipped (.inr (.inl hdecl))] at hrun
    rw [declareIn_run_of_skipped (n := m.rename ids name) (.inr (.inl hdecl))]
    cases hrun
    rfl
  have hkeep : m.rename ids name = m := by
    refine Node.rename_of_id ids name ?_
    rw [hid, ← Bool.not_eq_true]
    exact fun hmem => hne ((h.ids_iff hm hdecl).mp hmem)
  rw [hkeep]
  by_cases hskip : scope = none ∨ declaredName config.separator m = ""
  case pos =>
    have hskip : scope = none ∨ m.kind.isDeclaration = false ∨ declaredName config.separator m = "" :=
      hskip.imp_right .inr
    rw [declareIn_run_of_skipped hskip] at hrun ⊢
    cases hrun
    rfl
  obtain ⟨hsome, hname⟩ := not_or.mp hskip
  obtain ⟨s', rfl⟩ := Option.ne_none_iff_exists'.mp hsome
  -- The name is held by the same node as before.
  have hheld : (if m.kind.isUniquePerScope then
        holder? (q.rename ids d name) s' (declaredName config.separator m) else none) =
      if m.kind.isUniquePerScope then holder? q s' (declaredName config.separator m) else none := by
    split
    case isFalse => rfl
    case isTrue hu =>
      obtain ⟨hold, hnot⟩ := h.not_mem_lookup hunique hclaims (hscope s' rfl) hdecl hu hname hgrows hrun
      rw [holder?, holder?, Progress.rename, lookup_rename_of_not_mem hold hnot]
      exact List.find?_congr fun x _ => by rw [kind?_rename]
  rw [declareIn_run_of_named hdecl hname] at hrun ⊢
  rw [hheld]
  cases hholder : (if m.kind.isUniquePerScope then holder? q s' (declaredName config.separator m) else none) with
  | none =>
    rw [hholder] at hrun
    cases hrun
    simp only [Progress.rename, declare_rename_of_ne hne]
  | some first =>
    rw [hholder] at hrun
    cases hpolicy : config.duplicates with
    | fatal =>
      rw [hpolicy] at hrun
      cases hrun
    | keepFirst =>
      rw [hpolicy] at hrun
      cases hrun
      rfl

/-- The declaration itself is entered under the new name. -/
theorem Renames.declareIn_run_self (h : Renames ids d s n name t p) (hm : t.get? d = some m) (hid : m.id = d)
    (hno : ∀ e ∈ q.scopes.entries, e.declaration ≠ d) (hentered : ∃ e ∈ q'.scopes.entries, e.declaration = d)
    (hgrows : q.GrowsTo p) (hrun : (declareIn config d m scope).run q = .ok () q') :
    (declareIn config d (m.rename ids name) scope).run (q.rename ids d name) = .ok () (q'.rename ids d name) := by
  obtain ⟨e, he, hed⟩ := hentered
  cases Declares.of_run hrun with
  | skipped | dropped => exact absurd hed (hno e he)
  | @entered s' hin hdecl =>
    subst hin
    obtain ⟨k, hk, hlocal⟩ := h.isLocal
    rw [hm] at hk
    cases hk
    have hlocalName : m.kind.isLocalName = true := by
      rcases hlocal with hk | hk <;> rw [hk] <;> rfl
    have hrecord : m.isRecord = false := by
      rcases hlocal with hk | hk <;> rw [Node.isRecord, hk] <;> rfl
    have hname : declaredName config.separator (m.rename ids name) = name := by
      have hrecord' : (m.rename ids name).isRecord = false := hrecord
      rw [declaredName, hrecord', if_neg Bool.false_ne_true]
      exact Node.name_rename ids name (hid ▸ (h.ids_iff hm hdecl).mpr rfl) hlocalName
    -- Nobody holds the new name.
    have hfree : holder? (q.rename ids d name) s' name = none := by
      refine List.find?_eq_none.mpr fun x hx => ?_
      obtain ⟨-, n', hd⟩ := (mem_lookup_rename_self fun e he => h.fresh e (hgrows.entries he)).mp hx
      exact absurd rfl (hno _ (mem_lookup_iff.mp hd))
    rw [declareIn_run_of_named (n := m.rename ids name) hdecl (by rw [hname]; exact h.nonempty), hname,
      hfree, ite_self]
    have hscopes : (q.scopes.rename d name).declare s' name d =
        (q.scopes.declare s' (declaredName config.separator m) d).rename d name := by
      rw [← declare_rename, if_pos rfl]
    simp only [Progress.rename, hscopes]

/-- The declaration is entered in its own step, since no later step could do it. -/
theorem Renames.exists_entry (h : Renames ids d s n name t p) (hinv : Walked {config.separator} t done q')
    {inner : Option ScopeId} (ho : Opens config d m scope q inner q') (hnot : Step.enter d ∉ rest)
    (hrest : runSteps (exec config) rest q' = .ok () p) : ∃ e ∈ q.scopes.entries, e.declaration = d := by
  have hlocal := h.toHasLocal.mono hinv.toExtends
  by_contra hnone
  have hno : ∀ e ∈ q'.scopes.entries, e.declaration ≠ d := by
    rintro e he rfl
    rcases ho.entry_cases he with he | ⟨_, _, hf⟩
    · exact hnone ⟨e, he, rfl⟩
    · exact hlocal.ne_implicitNode _ _ _ _ hf
  obtain ⟨k, hk, -⟩ := hlocal.isLocal
  have himplicit : ∀ record field typeName, k ≠ implicitNode d record field typeName := by
    rintro record field typeName rfl
    exact hlocal.ne_implicitNode _ _ _ _ hk
  exact runSteps_not_entered hinv.proper rfl hnot hk himplicit hno hrest _ (mem_lookup_iff.mp h.declared) rfl

/-- Every step goes as before. -/
theorem Renames.exec_run (h : Renames ids d s n name t p) (hreg : Registers config t root p) {x : Step}
    (hsplit : steps t t.depthLimit root = done ++ x :: rest)
    (hinv : Invariant config.separator t done q) (hinv' : Invariant config.separator t (done ++ [x]) q')
    (hx : (exec config x).run q = .ok () q') (hrest : runSteps (exec config) rest q' = .ok () p) :
    (exec config x).run (q.rename ids d name) = .ok () (q'.rename ids d name) := by
  have hwf := hreg.proper.toWellFormed
  cases x with
  | check owner slot =>
    have hfollows : Follows (fun _ => True) (fun _ => True) (Progress.rename ids d name)
        (exec config (.check owner slot)) (exec config (.check owner slot)) :=
      follows_fetch fun m => follows_checkSlot m slot
    exact (hfollows q () q' trivial hx).1
  | enter id =>
    obtain ⟨hdone, hnot⟩ := enter_not_mem_of_split hwf hsplit
    obtain ⟨root', hroot, -⟩ := hreg.proper.root_parent hreg.root_eq
    obtain ⟨m, hm⟩ := exists_of_enter_mem hwf hroot (hsplit ▸ List.mem_append_right _ (List.mem_cons_self ..))
    have hqm := hinv.pending hdone hm
    have hlocal := h.toHasLocal.mono hinv.toExtends
    obtain ⟨k, hk, -⟩ := hlocal.isLocal
    obtain ⟨m', q₁, inner, hm', hd, hi⟩ := parts_of_enter_run hx
    cases hqm.symm.trans hm'
    have hdec := Declares.of_run hd
    have htree := hdec.tree_eq
    have ho := Opens.of_run (htree ▸ hinv.proper) (htree ▸ hqm) hi
    have hgrows : q₁.GrowsTo p := ho.growsTo.trans (runSteps_growsTo hinv'.proper rfl hrest)
    have hscope : (q.rename ids d name).tree.enclosingScope? (q.rename ids d name).scopes id =
        q.tree.enclosingScope? q.scopes id := enclosingScope?_rename ..
    have hinner : (innerScope config id (m.rename ids name) (q.tree.enclosingScope? q.scopes id)).run
        (q₁.rename ids d name) = .ok inner (q'.rename ids d name) :=
      innerScope_run_rename (htree ▸ hinv.proper.toWellFormed) (htree ▸ hk) (htree ▸ hqm)
        (fun r hr => hlocal.not_mem_implicitFields hinv.proper hqm hr) hi
    have hdeclare : (declareIn config id (m.rename ids name) (q.tree.enclosingScope? q.scopes id)).run
        (q.rename ids d name) = .ok () (q₁.rename ids d name) := by
      by_cases hid : id = d
      case neg =>
        refine h.declareIn_run_of_ne (fun hd => ?_) hlocal.claimsName hm (hwf.own_id hm) hid
          (fun _ => lt_size_of_enclosingScope?) hgrows hd
        have hsame := hreg.registered.registered.entry_unique (mem_lookup_iff.mp hd) (mem_lookup_iff.mp h.declared) rfl
        cases hsame
        exact ⟨rfl, rfl⟩
      subst hid
      have hno : ∀ e ∈ q.scopes.entries, e.declaration ≠ id := by
        rintro e he rfl
        rcases hinv.entry_entered he with hmem | ⟨_, _, _, -, hf⟩
        · exact hdone hmem
        · exact hlocal.ne_implicitNode _ _ _ _ hf
      exact h.declareIn_run_self hm (hwf.own_id hm) hno (h.exists_entry hinv'.toWalked ho hnot hrest)
        (hdec.growsTo.trans hgrows) hd
    rw [← hscope] at hdeclare hinner
    exact enter_run_of_parts (get?_rename_of_get? hqm) hdeclare hinner

/-- The walk over the tree with the other name succeeds, too. -/
theorem Renames.registers (h : Renames ids d s n name t p) (hreg : Registers config t root p)
    (hhalf : ∀ x, t.IsMemberHalf x → ids x = false) :
    Registers config (t.rename ids name) root (p.rename ids d name) := by
  refine ⟨hreg.proper.rename ids name hhalf, rfl, hreg.root_eq, ?_⟩
  rw [depthLimit_rename, registrationSteps_rename]
  obtain ⟨root', hroot, -⟩ := hreg.proper.root_parent hreg.root_eq
  have hstart : ({ tree := t } : Progress).rename ids d name = { tree := t.rename ids name } := by
    simp [Progress.rename, ScopeTree.rename]
  refine (runSteps_induction
    (I := fun done q => Invariant config.separator t done q ∧
      runSteps (exec config) done { tree := t.rename ids name } = .ok () (q.rename ids d name))
    ⟨.start hreg.proper, by rw [hstart, runSteps_nil]⟩ ?_ hreg.registration).2
  rintro done x rest q q' hsplit ⟨hinv, hdone⟩ hx hrest
  have hinv' := hinv.step hreg.proper hroot hreg.root_not_implicit hsplit hx
  refine ⟨hinv', ?_⟩
  rw [runSteps_append, hdone]
  exact (runSteps_singleton ..).trans (h.exec_run hreg hsplit hinv hinv' hx hrest)

end

end NameResolution.Registration
