import NameResolution.Proofs.Depth
import NameResolution.Proofs.Registration.Again
import NameResolution.Proofs.Registration.Distinct

/-!
# Where registration fails

Registration fails over a node that stands where none of its kind may, or over a duplicate where duplicates are
errors, and over nothing else. What stands where it may not is told by the tree as it was before any pass, since
the passes over a tree that holds such a node never come to bind anything.
-/
namespace NameResolution
open Registration

namespace Tree

/-- The errors for nodes that stand where none of their kind may. -/
inductive Misplaces (t : Tree) (root : NodeId) : ResolveError → Prop
  | intro {owner n s k} (nests : t.Nests root owner) (node : t.get? owner = some n) (slot : s ∈ n.payload.slots)
      (there : t.get? s.child = some k) (notAllowed : s.allows k.kind = false) :
      Misplaces t root (.malformed s.child n.region (.misplaced n.kind k.kind))

end Tree

namespace Registration
open NameResolution.Tree

section
variable {config : Config} {languages : Set String} {t T : Tree} {id root owner : NodeId} {n : Node} {s : Slot}
  {scope : Option ScopeId} {p q : Progress} {e : ResolveError}

/-- The check of a place finds what was there before any pass. -/
theorem checkSlot_run_of_kept (ht : t.WellFormed) (hnests : t.Nests root owner) (hn : t.get? owner = some n)
    (hs : s ∈ n.payload.slots) (hext : t.Extends p.tree)
    (hkeeps : ∀ e, t.Misplaces root e → t.KeepsAllButRecords p.tree) :
    ∃ k, t.get? s.child = some k ∧ (checkSlot n s).run p =
      if s.allows k.kind = true then .ok () p
      else .error (.malformed s.child n.region (.misplaced n.kind k.kind)) p := by
  obtain ⟨k, hk, -⟩ := ht.parent_of_child hn (Payload.child_mem_children hs)
  obtain ⟨k', hk', hb⟩ := hext.node hk
  refine ⟨k, hk, ?_⟩
  rw [checkSlot_run_eq hk']
  cases hallowed : s.allowed with
  | none =>
    have hfree : ∀ kind, s.allows kind = true := fun kind => by rw [Slot.allows, hallowed, Option.all_none]
    rw [if_pos (hfree _), if_pos (hfree _)]
  | some kinds =>
    -- A name that is misplaced has not been written out, since no pass has come to bind anything.
    have hkind : k'.kind = k.kind := by
      by_cases href : k.kind = .reference
      · have hno : s.allows k.kind = false := by
          rw [Slot.allows, hallowed, Option.all_some, href, List.contains_eq_mem, decide_eq_false_iff_not]
          exact reference_not_mem_allowed hs hallowed
        have hsame := hkeeps _ (.intro hnests hn hs hk hno) hk (by rw [href]; exact NodeKind.noConfusion)
        rw [hk'] at hsame
        rw [Option.some.inj hsame]
      · exact hb.payload.kind_eq href
    rw [hkind]

theorem misplaces_of_check (ht : t.WellFormed) (hnests : t.Nests root owner) (hn : t.get? owner = some n)
    (hs : s ∈ n.payload.slots) (hext : t.Extends p.tree)
    (hkeeps : ∀ e, t.Misplaces root e → t.KeepsAllButRecords p.tree)
    (hrun : (checkSlot n s).run p = .error e q) : t.Misplaces root e := by
  obtain ⟨k, hk, heq⟩ := checkSlot_run_of_kept ht hnests hn hs hext hkeeps
  rw [heq] at hrun
  split at hrun
  · cases hrun
  case isFalse hno =>
    cases hrun
    exact .intro hnests hn hs hk (Bool.eq_false_iff.mpr hno)

/-- A scope is opened unless a member of a record is misplaced. -/
theorem exists_check_of_innerScope_error (hp : p.tree.ProperIn languages) (hn : p.tree.get? id = some n)
    (hrun : (innerScope config id n scope).run p = .error e q) :
    ∃ s ∈ n.payload.slots, ∃ q₁ q₂, q₁.tree = p.tree ∧ (checkSlot n s).run q₁ = .error e q₂ := by
  rcases n.opens_cases with ⟨r, hr⟩ | hopens | ⟨kind, hopens, hk⟩
  · rw [innerScope_of_record config scope hr] at hrun
    rcases checkSlots_run n n.payload.slots (p.opened config.separator id scope) with hc | ⟨e', hc⟩
    · obtain ⟨s, p', henter, -⟩ := enterRecord_run_of_checked config scope hp hn hr hc
      rw [run_bind_ok henter] at hrun
      cases hrun
    · have henter : (enterRecord config id n r scope).run p = .error e' (p.opened config.separator id scope) :=
        run_bind_error hc _
      rw [run_bind_error henter] at hrun
      cases hrun
      obtain ⟨before, s, after, q₁, hslots, hbefore, hs⟩ := exists_step_of_error hc
      have hsame := checkSlots_run n before (p.opened config.separator id scope)
      refine ⟨s, hslots ▸ by simp, q₁, _, ?_, hs⟩
      rcases hsame with hok | ⟨_, herror⟩
      · cases hbefore.symm.trans hok
        rfl
      · cases hbefore.symm.trans herror
  · rw [innerScope_run_of_transparent config scope p hopens] at hrun
    cases hrun
  · rw [innerScope_run_of_plain config scope p hopens hk] at hrun
    cases hrun

/-- Why a step fails. -/
theorem exec_error_cases (ht : t.WellFormed) {k : Node} (hroot : t.get? root = some k) (hp : p.tree.ProperIn languages)
    (hext : t.Extends p.tree) (hkeeps : ∀ e, t.Misplaces root e → t.KeepsAllButRecords p.tree) {x : Step}
    (hx : x ∈ steps t t.depthLimit root) (hrun : (exec config x).run p = .error e q) :
    t.Misplaces root e ∨
      config.duplicates = .fatal ∧ ∃ name first repeated region, e = .duplicate name first repeated region := by
  have hnests : ∀ {a}, .enter a ∈ steps t t.depthLimit root → t.Nests root a :=
    fun ha => (enter_mem_steps_iff ht hroot (t.lt_depthLimit root)).mp ha
  cases x with
  | check owner s =>
    obtain ⟨howner, n, hn, hs⟩ := check_mem_steps_iff.mp hx
    obtain ⟨n', hn', hb⟩ := hext.node hn
    rw [exec, run_bind_ok (fetch_run hn'), checkSlot_of_becomes hb hs] at hrun
    exact .inl (misplaces_of_check ht (hnests howner) hn hs hext hkeeps hrun)
  | enter id =>
    obtain ⟨n, hn⟩ := exists_of_enter_mem ht hroot hx
    obtain ⟨n', hn', hb⟩ := hext.node hn
    rcases cases_of_enter_error hn' hrun with hd | ⟨p₁, hd, hi⟩
    · obtain ⟨hfatal, name, first, region, he⟩ := raises_declareIn config id n' _ _ _ _ hd
      exact .inr ⟨hfatal, name, first, id, region, he⟩
    · have htree := (Declares.of_run hd).tree_eq
      obtain ⟨s, hs, q₁, q₂, hq, hcheck⟩ := exists_check_of_innerScope_error (htree ▸ hp) (htree ▸ hn') hi
      have hs' : s ∈ n.payload.slots := hb.payload.slots_eq ▸ hs
      rw [checkSlot_of_becomes hb hs'] at hcheck
      have hq' : q₁.tree = p.tree := hq.trans htree
      exact .inl (misplaces_of_check ht (hnests hx) hn hs' (hq' ▸ hext) (hq' ▸ hkeeps) hcheck)

/-- Why registration fails. -/
theorem registration_error_cases (ht : t.WellFormed) {k : Node} (hroot : t.get? root = some k)
    (hT : T.ProperIn languages) (hlanguage : config.separator ∈ languages) (hext : t.Extends T)
    (hkeeps : ∀ e, t.Misplaces root e → t.KeepsAllButRecords T)
    (hrun : runSteps (exec config) (steps t t.depthLimit root) { tree := T } = .error e q) :
    t.Misplaces root e ∨
      config.duplicates = .fatal ∧ ∃ name first repeated region, e = .duplicate name first repeated region := by
  obtain ⟨done, x, rest, p, hsplit, hdone, hx⟩ := exists_step_of_error hrun
  obtain ⟨hp, hextp, hkeepsp⟩ := runSteps_keeps (p := { tree := T }) hT hlanguage done
  rw [hdone, endState_ok] at hp hextp hkeepsp
  exact exec_error_cases ht hroot hp (hext.trans hextp) (fun e he => KeepsAllButRecords.trans (hkeeps e he) hkeepsp)
    (hsplit ▸ by simp) hx

/-- Registration that succeeds finds nothing misplaced. -/
theorem not_misplaces_of_registration (ht : t.WellFormed) {k : Node} (hroot : t.get? root = some k)
    (hT : T.ProperIn languages) (hlanguage : config.separator ∈ languages) (hext : t.Extends T)
    (hkeeps : ∀ e, t.Misplaces root e → t.KeepsAllButRecords T)
    (hrun : runSteps (exec config) (steps t t.depthLimit root) { tree := T } = .ok () p) : ¬ t.Misplaces root e := by
  rintro ⟨hnests, hn, hs, hk, hno⟩
  have howner := (enter_mem_steps_iff ht hroot (t.lt_depthLimit root)).mpr hnests
  obtain ⟨done, rest, q, q', -, hdone, hcheck, -⟩ :=
    exists_step_of_mem (check_mem_steps_iff.mpr ⟨howner, _, hn, hs⟩) hrun
  obtain ⟨-, hextq, hkeepsq⟩ := runSteps_keeps (p := { tree := T }) hT hlanguage done
  rw [hdone, endState_ok] at hextq hkeepsq
  obtain ⟨n', hn', hb⟩ := (hext.trans hextq).node hn
  obtain ⟨k', hk', heq⟩ := checkSlot_run_of_kept (p := q) ht hnests hn hs (hext.trans hextq)
    fun e he => KeepsAllButRecords.trans (hkeeps e he) hkeepsq
  rw [hk] at hk'
  cases hk'
  rw [exec, run_bind_ok (fetch_run hn'), checkSlot_of_becomes hb hs, heq, hno] at hcheck
  cases hcheck

end
end Registration

namespace Tree
variable {languages : Set String} {t T : Tree} {config : Config} {root : NodeId} {e : ResolveError}

/-- No pass over a tree that holds a misplaced node comes to bind anything. -/
theorem Misplaces.keeps_resolve (h : t.Misplaces root e) (ht : t.WellFormed) (hroot : t.root = some root)
    (hT : T.ProperIn languages) (hlanguage : config.separator ∈ languages) (hext : t.Extends T)
    (hkeeps : t.KeepsAllButRecords T) : t.KeepsAllButRecords (T.resolve config).tree := by
  obtain ⟨k, hk, -⟩ := ht.root_parent hroot
  have hrootT := hext.root.trans hroot
  have hsteps := steps_again ht hT.toWellFormed hext hk (t.lt_depthLimit root) (T.lt_depthLimit root)
  cases hrun : runSteps (exec config) (steps t t.depthLimit root) { tree := T } with
  | ok _ p =>
    exfalso
    exact not_misplaces_of_registration ht hk hT hlanguage hext (fun _ _ => hkeeps) hrun h
  | error e q =>
    obtain ⟨-, -, hkeepsq⟩ := runSteps_keeps (p := { tree := T }) hT hlanguage (steps t t.depthLimit root)
    rw [hrun, endState_error] at hkeepsq
    rw [resolve_of_error hT hlanguage hrootT (hsteps ▸ hrun)]
    intro x m hm hkind
    exact hkeepsq (hkeeps hm hkind) hkind

theorem Misplaces.keeps_resolveAll (h : t.Misplaces root e) (ht : t.WellFormed) (hroot : t.root = some root)
    (hT : T.ProperIn languages) (hext : t.Extends T) (hkeeps : t.KeepsAllButRecords T) {history : List Config}
    (hlanguages : ∀ config ∈ history, config.separator ∈ languages) :
    t.KeepsAllButRecords (T.resolveAll history) := by
  intro x m hm hkind
  induction history generalizing T with
  | nil => exact hkeeps hm hkind
  | cons config history ih =>
    have hlanguage := hlanguages config (by simp)
    obtain ⟨hT', hext'⟩ := hT.resolve_keeps hlanguage
    exact ih hT' (hext.trans hext') (h.keeps_resolve ht hroot hT hlanguage hext hkeeps)
      fun c hc => hlanguages c (List.mem_cons_of_mem _ hc)

end Tree
end NameResolution
