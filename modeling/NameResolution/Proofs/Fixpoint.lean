import NameResolution.Proofs.Binding.Counts
import NameResolution.Proofs.Binding.Policies
import NameResolution.Proofs.Idempotence
import NameResolution.Proofs.Tree.Unbound

/-!
# The tree after the first pass that succeeds

A pass that succeeds leaves no name behind that a later pass writes out: such a name would be a field of an
instance, and either the pass has written it out itself, or it is the name of a receiver. So whatever
passes go over the tree from then on, whether they succeed or fail, they add no node and change nothing but
what references are bound to; and those that succeed register what the first one has registered.
-/
namespace NameResolution
open NameResolution.Tree ScopeTree

namespace Binding
open Registration
variable {c : Context} {t : Tree} {p : Progress} {s : Step}

/-- A step that writes nothing out changes nothing but what references are bound to. -/
theorem unbound_exec (hground : Grounded t c.scopes) (h : p.tree.unbound = t.unbound)
    (hw : s.writes? c t = none) :
    (endState ((exec c s).run p)).tree.unbound = t.unbound ∧
      (endState ((exec c s).run p)).bindings.implicitMembers = p.bindings.implicitMembers := by
  have heffect := exec_effect c p s
  generalize (exec c s).run p = result at heffect ⊢
  cases heffect with
  | fails e => exact ⟨h, rfl⟩
  | @name id n scope role hn =>
    obtain ⟨n', hn', hunbound⟩ := exists_of_unbound_eq h.symm hn
    have hname : n'.name = n.name := (Node.becomes_of_unbound_eq hunbound).name
    have hnone : written? c p.tree n.name scope role = none := by
      rw [written?_congr hground (sameDeclarations_of_unbound_eq h), ← hname]
      simpa [Step.writes?, hn'] using hw
    rw [named, hnone]
    exact ⟨(unbound_bind ..).trans h, Bindings.implicitMembers_record ..⟩
  | access => exact ⟨(unbound_bind ..).trans ((unbound_bind ..).trans h), Bindings.implicitMembers_record ..⟩

/-- A run that writes nothing out changes nothing but what references are bound to, also if it fails half-way. -/
theorem unbound_runSteps (hground : Grounded t c.scopes) {xs : List Step}
    (hw : ∀ s ∈ xs, s.writes? c t = none) :
    (endState (runSteps (exec c) xs { tree := t })).tree.unbound = t.unbound ∧
      (endState (runSteps (exec c) xs { tree := t })).bindings.implicitMembers = 0 := by
  refine endState_runSteps
    (I := fun p : Progress => p.tree.unbound = t.unbound ∧ p.bindings.implicitMembers = 0) ?_ ⟨rfl, rfl⟩
  rintro s hs p ⟨htree, hcount⟩
  obtain ⟨htree', hcount'⟩ := unbound_exec hground htree (hw s hs)
  exact ⟨htree', hcount'.trans hcount⟩

end Binding

namespace Tree.Pass
variable {config later : Config} {t t' T T₂ : Tree} {u : ResolvedUnit} {x : NodeId} {n : Node} {r : Resolution}
  {scope : ScopeId}

/-- A name that a pass leaves behind is not one that it writes out: it was there and has been bound in place, or
it is the name of a receiver. -/
theorem written?_eq_none (h : Pass config t t' T u) (hn : T.get? x = some n) (hp : n.payload = .reference r)
    (hplain : ¬ T.IsMemberHalf x) (hinner : T.enclosingScope? u.scopes x = some scope) :
    Binding.written? (u.context config) T n.name scope (T.roleOf x) = none := by
  have hT := h.bound.proper.toWellFormed
  cases h.origin (resolution?_of_get? hn (by rw [hp]; rfl)) hplain with
  | name node payload plain now =>
    rw [hn] at now
    cases now
    have hwf := h.registered.proper.toWellFormed
    obtain ⟨scope', hinner', -, hsettled⟩ := h.exists_name node payload plain
    obtain rfl : scope' = scope :=
      Option.some.inj (hinner'.symm.trans ((h.enclosingScope?_eq node).symm.trans hinner))
    rw [Binding.written?_congr (c := u.context config) h.registered.grounded h.bound.same,
      Binding.roleOf_of_extends h.bound.toExtends hwf node]
    cases hsettled with
    | bound hm notWritten =>
      rw [node] at hm
      cases hm
      exact notWritten
    | written _ _ _ _ written =>
      rw [hn] at written
      cases congrArg (Option.map Node.payload) written
  | access node payload =>
    obtain ⟨_, _, _, _, -, -, -, now, -⟩ := h.exists_access node payload
    rw [hn] at now
    cases now
    cases hp
  | @writtenOut id k ρ f owner base member inner field _ _ _ _ out at_ =>
    have haccess := out.node
    rcases at_ with rfl | rfl
    · rw [hn] at haccess
      cases haccess
      cases hp
    · obtain ⟨m, hm, hbase⟩ := out.baseNode
      rw [hn] at hbase
      cases hbase
      have hchild := @Binding.base_mem_children x
        { k with payload := .member ⟨some x, some member, true, .single f⟩ } _ rfl rfl
      -- The base is a value and stands in the scope of the access.
      have hscope : T.enclosingScope? u.scopes id = some scope := by
        rw [hT.enclosingScope?_of_child haccess hchild,
          h.registered_end.grounded.scopeOf?_of_reference haccess rfl] at hinner
        exact hinner
      have hnone := out.receiver.written?_eq_none (c := u.context config) h.registered_end hT hscope hm
      rw [Binding.roleOf_of_child hT haccess hchild]
      exact hnone

/-- No step of a later pass writes a name out. -/
theorem writes?_later (h : Pass config t t' T u) (hlater : later.separator = config.separator)
    (hsame : T₂.unbound = T.unbound) {s : Binding.Step} (hplaced : Binding.Placed u.scopes T₂ s) :
    s.writes? (u.context later) T₂ = none := by
  have hT := h.bound.proper.toWellFormed
  have hext := extends_of_unbound_eq hsame
  cases hplaced with
  | fail | access => rfl
  | @name id m ρ scope hm hpm hplain hin =>
    obtain ⟨n, hn, hunbound⟩ := exists_of_unbound_eq hsame.symm hm
    have hb := Node.becomes_of_unbound_eq hunbound.symm
    obtain ⟨r, hp⟩ : ∃ r, n.payload = .reference r := by
      have hform := Node.sameForm_of_unbound_eq hunbound
      rw [hpm] at hform
      exact hform.reference
    have hinner : T.enclosingScope? u.scopes id = some scope := by
      rw [← hin, hext.enclosingScope?_eq hT hn]
    have hnone := h.written?_eq_none hn hp (fun hhalf => hplain (hext.isMemberHalf_of hhalf)) hinner
    rw [Binding.Step.writes?, hm, Option.bind_some, hb.name, Binding.roleOf_of_extends hext hT hn,
      Binding.written?_congr (c := u.context later) h.registered_end.grounded
        (sameDeclarations_of_unbound_eq hsame), ← hnone, ResolvedUnit.context, ResolvedUnit.context, hlater]
    exact Binding.written?_of_policy h.registered_end later.ambiguity config.ambiguity

/-- A later pass changes nothing but what references are bound to. If it succeeds, it registers the same and
writes nothing out. -/
theorem resolve_later (h : Pass config t t' T u) (hlater : later.separator = config.separator)
    (ht₂ : T₂.Proper config.separator) (hsame : T₂.unbound = T.unbound) :
    (T₂.resolve later).tree.unbound = T.unbound ∧
      ∀ u', (T₂.resolve later).result = .ok u' → u'.implicitMembers = 0 ∧ u'.scopes = u.scopes := by
  have hext := extends_of_unbound_eq hsame
  have hroot : T₂.root = some u.root := hext.root.trans (h.toExtends.root.trans h.root_eq)
  rcases h.registration_comesAgain hlater ht₂.toWellFormed hext (sameDeclarations_of_unbound_eq hsame) with
    hrun | ⟨-, e, q, hrun, hq⟩
  · have hreg : RegistersIn {config.separator} later T₂ u.root ⟨T₂, u.scopes, u.duplicates⟩ :=
      ⟨ht₂, hlater, hroot, hrun⟩
    obtain ⟨htree, hcount⟩ := Binding.unbound_runSteps (c := u.context later) hreg.walked.grounded
      fun s hs => h.writes?_later hlater hsame (hreg.placed s hs)
    rw [resolve_of_registers hreg]
    rw [ResolvedUnit.context] at htree hcount
    cases hbind : runSteps (Binding.exec ⟨u.scopes, later.ambiguity, later.separator⟩)
        (T₂.bindingSteps u.scopes u.root) { tree := T₂ } with
    | ok _ q =>
      rw [hbind] at htree hcount
      refine ⟨htree.trans hsame, fun u' hu' => ?_⟩
      cases hu'
      exact ⟨hcount, rfl⟩
    | error e q =>
      rw [hbind] at htree
      exact ⟨htree.trans hsame, fun u' hu' => by cases hu'⟩
  · rw [resolve_of_error ht₂ hlater hroot hrun, hq]
    exact ⟨hsame, fun u' hu' => by cases hu'⟩

/-- So do passes that go over the tree one after another. -/
theorem unbound_resolveAll (h : Pass config t t' T u) {history : List Config}
    (hhistory : ∀ later ∈ history, later.separator = config.separator) (ht₂ : T₂.Proper config.separator)
    (hsame : T₂.unbound = T.unbound) : (T₂.resolveAll history).unbound = T.unbound := by
  induction history generalizing T₂ with
  | nil => exact hsame
  | cons later history ih =>
    have hlater := hhistory later (by simp)
    exact ih (fun c hc => hhistory c (List.mem_cons_of_mem _ hc)) (ht₂.resolve_keeps hlater).1
      (h.resolve_later hlater ht₂ hsame).1

end Tree.Pass

/-- After a pass that succeeds, whatever passes in the same language went before it, no later pass changes anything
in the tree but what references are bound to, whether it succeeds or fails. One that succeeds adds no access
and leads to the same scopes. -/
theorem fixpoint_of_resolve {document : SyntaxNode} {before after : List Config} {config : Config} {t T : Tree}
    {u : ResolvedUnit} (hdocument : Tree.ofSyntax document = .ok t)
    (hbefore : ∀ earlier ∈ before, earlier.language = config.language)
    (hafter : ∀ later ∈ after, later.language = config.language)
    (hresolve : (t.resolveAll before).resolve config = ⟨.ok u, T⟩) :
    (T.resolveAll after).unbound = T.unbound ∧
      ∀ last u', last.language = config.language → ((T.resolveAll after).resolve last).result = .ok u' →
        u'.implicitMembers = 0 ∧ u'.scopes = u.scopes := by
  have hlanguage : ∀ {c : Config}, c.language = config.language → c.separator = config.separator :=
    fun h => congrArg Language.separator h
  have ht : (t.resolveAll before).Proper config.separator :=
    (proper_of_ofSyntax hdocument config.separator).resolveAll fun c hc => hlanguage (hbefore c hc)
  obtain ⟨t', h⟩ := exists_pass ht (congrArg Outcome.result hresolve)
  rw [hresolve] at h
  have hhistory : ∀ c ∈ after, c.separator = config.separator := fun c hc => hlanguage (hafter c hc)
  have hsame := h.unbound_resolveAll hhistory h.bound.proper rfl
  refine ⟨hsame, fun last u' hlast hu' => ?_⟩
  exact (h.resolve_later (hlanguage hlast) (h.bound.proper.resolveAll hhistory) hsame).2 u' hu'

/-- A class that declares its field twice. -/
def doubled : SyntaxNode :=
  let node := SyntaxNode.mk none none
  let field := node <| .fieldDecl "x" (some "int") false none
  node <| .translationUnit "A.java" [node <| .recordDecl "A" .classRecord [field, field,
    node <| .methodDecl "get" false [] (some <| node <| .compound [
      node <| .returnStatement (some <| node <| .reference "x")])]]

def doubledTree : Tree := (doubled.lower.run {}).2

theorem fixpoint_of_resolve_doubled :
    Tree.ofSyntax doubled = .ok doubledTree ∧
      (doubledTree.resolve { duplicates := .fatal }).result.isOk = false ∧
      ∃ u T, (doubledTree.resolveAll [{ duplicates := .fatal }]).resolve {} = ⟨.ok u, T⟩ ∧
        u.implicitMembers = 1 ∧
        (T.resolveAll [{ duplicates := .fatal }]).unbound = T.unbound ∧
        ∀ last u', last.language = .java →
          ((T.resolveAll [{ duplicates := .fatal }]).resolve last).result = .ok u' →
            u'.implicitMembers = 0 ∧ u'.scopes = u.scopes := by
  have hdocument : Tree.ofSyntax doubled = .ok doubledTree := rfl
  have hfails : (doubledTree.resolve { duplicates := .fatal }).result.isOk = false := by decide +kernel
  have hcount : ((doubledTree.resolveAll [{ duplicates := .fatal }]).resolve {}).result.map
      ResolvedUnit.implicitMembers = .ok 1 := by decide +kernel
  cases hresolve : (doubledTree.resolveAll [{ duplicates := .fatal }]).resolve {} with
  | mk result T =>
    rw [hresolve] at hcount
    cases result with
    | error e => cases hcount
    | ok u =>
      have hone : u.implicitMembers = 1 := Except.ok.inj hcount
      exact ⟨hdocument, hfails, u, T, rfl, hone, fixpoint_of_resolve hdocument (by simp) (by simp) hresolve⟩

end NameResolution
