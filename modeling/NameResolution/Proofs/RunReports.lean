import Mathlib.Algebra.GroupWithZero.Nat
import NameResolution.Program
import NameResolution.Proofs.Discovery

/-!
# What a run reports

Documents that cannot be loaded are reported on at once, the others when all have been resolved, and the reports are
sorted in the end. However the two kinds are mixed, each document has one report, which is the one that it would have
on its own, and the sums and the exit code tell how many documents failed.
-/
namespace NameResolution

namespace Input
variable (resolve : Tree → Outcome ResolvedUnit)

def report (i : Input) : UnitReport :=
  match i.loaded with
  | .error e => .failed i.file e.message
  | .ok t =>
    match (resolve t).result with
    | .error e => .failed i.file e.message
    | .ok u => .ofUnit i.file (resolve t).tree u

/-- The document cannot be loaded or cannot be resolved. -/
def fails (i : Input) : Bool :=
  match i.loaded with
  | .error _ => true
  | .ok t => !(resolve t).result.isOk

@[simp] theorem report_file (i : Input) : (i.report resolve).file = i.file := by
  unfold report
  split
  · rfl
  · split <;> rfl

@[simp] theorem report_isFailed (i : Input) : (i.report resolve).isFailed = i.fails resolve := by
  unfold report fails
  split
  next h => rfl
  next t h =>
    cases hr : (resolve t).result with
    | error e => rfl
    | ok u => rfl

theorem report_of_ok {i : Input} {t : Tree} (h : i.loaded = .ok t) :
    i.report resolve = .ofOutcome i.file (resolve t) := by
  simp only [report, h, UnitReport.ofOutcome]
  cases (resolve t).result <;> rfl

end Input

namespace Program
variable {resolve : Tree → Outcome ResolvedUnit}

/-- The reports on a run are those on its documents. -/
structure Accounted (resolve : Tree → Outcome ResolvedUnit) (inputs : List Input) (rs : List UnitReport) : Prop where
  /-- Each document has one report, and there are no others. -/
  each : rs.Perm (inputs.map (Input.report resolve))
  sorted : rs.Pairwise fun r r' => r.file ≤ r'.file
  /-- The reports under a name are those on the documents of that name. -/
  named : ∀ file, (rs.filter (·.file = file)).Perm ((inputs.filter (·.file = file)).map (Input.report resolve))
  /-- A document that shares its name with no other has its report under it, and nothing else stands there. -/
  own : (inputs.map Input.file).Nodup → ∀ i ∈ inputs, rs.filter (·.file = i.file) = [i.report resolve]
  /-- Whatever becomes of a document, the reports on the others are those of a run without it. -/
  others : ∀ before i after, inputs = before ++ i :: after →
    rs.Perm (i.report resolve :: reportsOf resolve (before ++ after))
  /-- The sums that are written count the documents that failed, and with them the others, and add up the reports. -/
  sums : ∃ resolved, resolved + inputs.countP (Input.fails resolve) = inputs.length ∧
    (Summary.ofReports rs).toJson = .obj
      [("units_resolved", .nat resolved),
        ("units_failed", .nat (inputs.countP (Input.fails resolve))),
        ("total_bindings", .nat (rs.map fun r => r.bindings.length).sum),
        ("total_unresolved", .nat (rs.map fun r => r.unresolved.length).sum),
        ("units", .arr (rs.map UnitReport.toJson))]

/-- The reports on trees that stand beside their files. -/
def pairedReports (resolve : Tree → Outcome ResolvedUnit) (files : List String) (units : List Tree) :
    List UnitReport :=
  List.zipWith (fun file t => UnitReport.ofOutcome file (resolve t)) files units

/-- Putting files, trees and results together again leaves each with its own. -/
theorem unitReports_resolveUnits (files : List String) (units : List Tree) :
    unitReports files (resolveUnits resolve units).1 (resolveUnits resolve units).2 =
      pairedReports resolve files units := by
  induction files generalizing units with
  | nil => rfl
  | cons file files ih =>
    cases units with
    | nil => rfl
    | cons t units =>
      have hrest := ih units
      simp only [unitReports, resolveUnits, pairedReports, List.map_cons, List.zip_cons_cons,
        List.zipWith_cons_cons] at hrest ⊢
      rw [hrest]

/-- What loading has come to is that of the documents so far: no tree has lost its file, and the reports that are there
together with those that resolving will give are the reports on the documents. -/
structure Loaded.Tells (resolve : Tree → Outcome ResolvedUnit) (l : Loaded) (seen : List Input) : Prop where
  aligned : l.files.length = l.units.length
  reports : (l.reports ++ pairedReports resolve l.files l.units).Perm (seen.map (Input.report resolve))

theorem Loaded.Tells.add {l : Loaded} {seen : List Input} (h : l.Tells resolve seen) (i : Input) :
    (l.add i).Tells resolve (seen ++ [i]) := by
  cases hi : i.loaded with
  | error e =>
    have hreport : i.report resolve = .failed i.file e.message := by simp only [Input.report, hi]
    have hadd : l.add i = { l with reports := l.reports ++ [i.report resolve] } := by
      simp only [Loaded.add, hi, hreport]
    rw [hadd]
    refine ⟨h.aligned, ?_⟩
    rw [List.map_append, List.append_assoc]
    -- The new report stands before those that are still to come, and moves behind them.
    exact ((List.perm_append_comm).append_left l.reports).trans
      (by rw [← List.append_assoc]; exact h.reports.append_right _)
  | ok t =>
    have hreport := Input.report_of_ok resolve hi
    have hadd : l.add i = { l with files := l.files ++ [i.file], units := l.units ++ [t] } := by
      simp only [Loaded.add, hi]
    have hpaired : pairedReports resolve (l.files ++ [i.file]) (l.units ++ [t]) =
        pairedReports resolve l.files l.units ++ [i.report resolve] := by
      rw [pairedReports, List.zipWith_append h.aligned, hreport]
      rfl
    rw [hadd]
    refine ⟨by simp [h.aligned], ?_⟩
    rw [List.map_append, hpaired, ← List.append_assoc]
    exact h.reports.append_right _

theorem Loaded.Tells.foldl {l : Loaded} {seen : List Input} (h : l.Tells resolve seen) (inputs : List Input) :
    (inputs.foldl Loaded.add l).Tells resolve (seen ++ inputs) := by
  induction inputs generalizing l seen with
  | nil => simpa using h
  | cons i inputs ih =>
    have hrest := ih (h.add i)
    rwa [List.append_assoc, List.singleton_append] at hrest

/-- Loading all documents loses none and mistakes none for another. -/
theorem tells_load (resolve : Tree → Outcome ResolvedUnit) (inputs : List Input) :
    (load inputs).Tells resolve inputs := by
  have hstart : Loaded.Tells resolve {} [] := ⟨rfl, .nil⟩
  exact hstart.foldl inputs

theorem reportsOf_perm (resolve : Tree → Outcome ResolvedUnit) (inputs : List Input) :
    (reportsOf resolve inputs).Perm (inputs.map (Input.report resolve)) := by
  have hsort := List.mergeSort_perm ((load inputs).reports ++ pairedReports resolve (load inputs).files
    (load inputs).units) fun a b => decide (a.file ≤ b.file)
  rw [← unitReports_resolveUnits] at hsort
  apply hsort.trans
  rw [unitReports_resolveUnits]
  exact (tells_load resolve inputs).reports

theorem sortReports_pairwise (rs : List UnitReport) : (sortReports rs).Pairwise fun r r' => r.file ≤ r'.file := by
  have h : (sortReports rs).Pairwise fun r r' => decide (r.file ≤ r'.file) = true := by
    apply List.pairwise_mergeSort
    · intro a b c hab hbc
      simp only [decide_eq_true_eq] at hab hbc ⊢
      exact String.le_trans hab hbc
    · intro a b
      simpa using String.le_total a.file b.file
  exact h.imp of_decide_eq_true

/-- The reports under a name. -/
theorem filter_reports (inputs : List Input) (file : String) :
    (inputs.map (Input.report resolve)).filter (·.file = file) =
      (inputs.filter (·.file = file)).map (Input.report resolve) := by
  rw [List.filter_map]
  congr 2
  funext i
  simp

/-- Among documents of different names, those of the name of one are that one alone. -/
theorem filter_file_of_nodup {inputs : List Input} (h : (inputs.map Input.file).Nodup) {i : Input} (hi : i ∈ inputs) :
    inputs.filter (·.file = i.file) = [i] := by
  induction inputs with
  | nil => cases hi
  | cons j inputs ih =>
    rw [List.map_cons, List.nodup_cons] at h
    obtain ⟨hj, hrest⟩ := h
    rcases List.mem_cons.mp hi with rfl | hi
    case inl =>
      have hnone : inputs.filter (·.file = i.file) = [] := by
        rw [List.filter_eq_nil_iff]
        intro k hk hname
        exact hj (List.mem_map.mpr ⟨k, hk, of_decide_eq_true hname⟩)
      simp [hnone]
    case inr =>
      have hne : j.file ≠ i.file := fun heq => hj (List.mem_map.mpr ⟨i, hi, heq.symm⟩)
      rw [List.filter_cons_of_neg (by simpa using hne)]
      exact ih hrest hi

theorem countP_isFailed {inputs : List Input} {rs : List UnitReport} (h : rs.Perm (inputs.map (Input.report resolve))) :
    rs.countP UnitReport.isFailed = inputs.countP (Input.fails resolve) := by
  rw [h.countP_eq, List.countP_map]
  congr 1
  funext i
  exact i.report_isFailed resolve

/-- What the written sums are, when the reports are those on the documents. -/
theorem toJson_ofReports {inputs : List Input} {rs : List UnitReport}
    (h : rs.Perm (inputs.map (Input.report resolve))) :
    (Summary.ofReports rs).toJson = .obj
      [("units_resolved", .nat (inputs.length - inputs.countP (Input.fails resolve))),
        ("units_failed", .nat (inputs.countP (Input.fails resolve))),
        ("total_bindings", .nat (rs.map fun r => r.bindings.length).sum),
        ("total_unresolved", .nat (rs.map fun r => r.unresolved.length).sum),
        ("units", .arr (rs.map UnitReport.toJson))] := by
  have hlength : rs.length = inputs.length := by simpa using h.length_eq
  have hbindings : rs.foldl (fun n r => n + r.bindings.length) 0 = (rs.map fun r => r.bindings.length).sum := by
    rw [List.sum_eq_foldl, List.foldl_map]
  have hunresolved : rs.foldl (fun n r => n + r.unresolved.length) 0 = (rs.map fun r => r.unresolved.length).sum := by
    rw [List.sum_eq_foldl, List.foldl_map]
  simp only [Summary.toJson, Summary.ofReports, countP_isFailed h, hlength, hbindings, hunresolved]

theorem accounted (resolve : Tree → Outcome ResolvedUnit) (inputs : List Input) :
    Accounted resolve inputs (reportsOf resolve inputs) := by
  have heach := reportsOf_perm resolve inputs
  have hnamed : ∀ file, ((reportsOf resolve inputs).filter (·.file = file)).Perm
      ((inputs.filter (·.file = file)).map (Input.report resolve)) := fun file => by
    rw [← filter_reports]
    exact heach.filter _
  refine ⟨heach, sortReports_pairwise _, hnamed, ?own, ?others, ?sums⟩
  case own =>
    intro hdistinct i hi
    have h := hnamed i.file
    rw [filter_file_of_nodup hdistinct hi] at h
    exact List.perm_singleton.mp h
  case others =>
    rintro before i after rfl
    have hothers := reportsOf_perm resolve (before ++ after)
    apply heach.trans
    rw [List.map_append, List.map_cons]
    apply List.perm_middle.trans
    rw [← List.map_append]
    exact hothers.symm.cons _
  case sums =>
    have hle := List.countP_le_length (p := Input.fails resolve) (l := inputs)
    exact ⟨inputs.length - inputs.countP (Input.fails resolve), by omega, toJson_ofReports heach⟩

/-- The paths of a run are those that its path stands for. -/
theorem collect_of_prepare {files : Files} {a : Arguments} {config : Config} {paths : List String}
    (h : prepare files a = .ok (config, paths)) : Discovery.collect? files a.path = some paths := by
  unfold prepare at h
  cases hproblem : (a.problem? files).isSome with
  | true =>
    simp only [hproblem, if_true] at h
    cases h
  | false =>
    cases hconfig : a.resolverConfig files with
    | error e =>
      simp only [hproblem, hconfig] at h
      cases h
    | ok c =>
      cases hcollect : Discovery.collect? files a.path with
      | none =>
        simp only [hproblem, hconfig, hcollect] at h
        cases h
      | some ps =>
        simp only [hproblem, hconfig, hcollect] at h
        cases h
        rfl

theorem exitCode_finished (rs : List UnitReport) (format : ReportFormat) (target : Option String) :
    ((Result.finished rs format target).ending true).exitCode = if rs.countP UnitReport.isFailed = 0 then 0 else 1 := by
  cases target <;> by_cases h : rs.countP UnitReport.isFailed = 0 <;> simp [Result.ending, failure?, h]

/-- However documents that fail stand among the others, a run accounts for each of them under its own name. Once it knows
its documents, whose names all differ, it reports on them and ends with a failure exactly if one of them fails. What
readers say of what they cannot read may be anything, and is told. -/
theorem run_accounted :
    (∀ resolve inputs, Accounted resolve inputs (reportsOf resolve inputs)) ∧
      ∀ (files : Files) (words : List String) (complaints : Complaints) (a : Arguments) (config : Config)
        (paths : List String), Arguments.parse words = .ok a → prepare files a = .ok (config, paths) →
          run files words complaints =
              .finished (reportsOf (·.resolve config) (inputsAt files paths complaints)) a.format a.outputFile ∧
            ((∀ t, files a.path = some t → t.Proper) → ((inputsAt files paths complaints).map Input.file).Nodup) ∧
            (((run files words complaints).ending true).exitCode ≠ 0 ↔
              ∃ i ∈ inputsAt files paths complaints, i.fails (·.resolve config)) := by
  refine ⟨accounted, fun files words complaints a config paths hparse hprepare => ?_⟩
  have hrun : run files words complaints =
      .finished (reportsOf (·.resolve config) (inputsAt files paths complaints)) a.format a.outputFile := by
    simp only [run, hparse, hprepare]
    rfl
  refine ⟨hrun, ?distinct, ?failure⟩
  case distinct =>
    intro hproper
    have hnames : (inputsAt files paths complaints).map Input.file = paths := by
      rw [inputsAt, List.map_map]
      exact List.map_id _
    rw [hnames]
    exact Discovery.collect_nodup (collect_of_prepare hprepare) hproper
  case failure =>
    rw [hrun, exitCode_finished, countP_isFailed (reportsOf_perm _ _), ← List.countP_pos_iff]
    split <;> omega

/-- A directory with an empty file and a document of an empty unit. -/
def mixedDocuments : Files
  | "docs" => some (.dir [("a.json", .file "".toUTF8),
      ("b.json", .file "\x7b\"kind\":\"translation_unit\"\x7d".toUTF8)])
  | "docs/a.json" => some (.file "".toUTF8)
  | "docs/b.json" => some (.file "\x7b\"kind\":\"translation_unit\"\x7d".toUTF8)
  | _ => none

theorem mixedDocuments_proper : ∀ t, mixedDocuments "docs" = some t → t.Proper := by
  intro t ht
  cases ht
  refine .dir (by decide) ?_ ?_
  · simp only [List.forall_mem_cons, List.not_mem_nil, false_implies, implies_true, and_true]
    exact ⟨⟨by decide, by decide⟩, ⟨by decide, by decide⟩⟩
  · simp only [List.forall_mem_cons, List.not_mem_nil, false_implies, implies_true, and_true]
    exact ⟨.file _, .file _⟩

def emptyComplaint : Complaints where
  document text := if text = "" then some "EOF while parsing a value at line 1 column 0" else none

/-- The first document cannot be loaded. -/
theorem load_mixedDocuments : Discovery.load mixedDocuments "docs/a.json" emptyComplaint =
    .error (.input (.invalidDocument ⟨"docs/a.json", some "EOF while parsing a value at line 1 column 0"⟩)) := by
  have htext : String.fromUTF8? "".toUTF8 = some "" := dif_pos "".isValidUTF8
  have hread : (Json.read? "").bind SyntaxNode.ofJson? = none := by decide +kernel
  simp only [Discovery.load, mixedDocuments, htext, Tree.ofDocument, hread, emptyComplaint]
  rfl

theorem run_accounted_mixed :
    ∃ rs, run mixedDocuments ["--path", "docs"] emptyComplaint = .finished rs .json none ∧ rs.length = 2 ∧
      rs.filter (·.file = "docs/a.json") = [.failed "docs/a.json"
        "invalid syntax document 'docs/a.json': EOF while parsing a value at line 1 column 0"] ∧
      ((inputsAt mixedDocuments ["docs/a.json", "docs/b.json"] emptyComplaint).map Input.file).Nodup ∧
      ((run mixedDocuments ["--path", "docs"] emptyComplaint).ending true).exitCode ≠ 0 := by
  have hparse : Arguments.parse ["--path", "docs"] = .ok { path := "docs" } := by decide +kernel
  have hsorted : Discovery.sorted [["a.json"], ["b.json"]] = [["a.json"], ["b.json"]] :=
    List.mergeSort_of_pairwise (by decide)
  have hcollect : Discovery.collect? mixedDocuments "docs" = some ["docs/a.json", "docs/b.json"] := by
    have hpaths : ["a.json", "b.json"].map (Path.join "docs") = ["docs/a.json", "docs/b.json"] := by decide +kernel
    have hfound : Discovery.documentsIn [("a.json", .file "".toUTF8),
        ("b.json", .file "\x7b\"kind\":\"translation_unit\"\x7d".toUTF8)] = [["a.json"], ["b.json"]] := by
      decide +kernel
    simp only [Discovery.collect?, mixedDocuments, hfound, hsorted]
    exact congrArg some hpaths
  have hprepare : prepare mixedDocuments { path := "docs" } = .ok ({}, ["docs/a.json", "docs/b.json"]) := by
    simp only [prepare, hcollect]
    rfl
  obtain ⟨haccounted, hall⟩ := run_accounted
  obtain ⟨hrun, hdistinct, hfailure⟩ := hall mixedDocuments _ emptyComplaint _ _ _ hparse hprepare
  have hdistinct := hdistinct mixedDocuments_proper
  have hinputs := haccounted (·.resolve {}) (inputsAt mixedDocuments ["docs/a.json", "docs/b.json"] emptyComplaint)
  let first : Input := ⟨"docs/a.json", Discovery.load mixedDocuments "docs/a.json" emptyComplaint⟩
  have hfirst : first ∈ inputsAt mixedDocuments ["docs/a.json", "docs/b.json"] emptyComplaint := List.mem_cons_self
  have hreport : first.report (·.resolve {}) = .failed "docs/a.json"
      "invalid syntax document 'docs/a.json': EOF while parsing a value at line 1 column 0" := by
    simp only [Input.report, first, load_mixedDocuments]
    rfl
  have hfails : first.fails (·.resolve {}) := by
    simp only [Input.fails, first, load_mixedDocuments]
  refine ⟨_, hrun, hinputs.each.length_eq, ?_, hdistinct, hfailure.mpr ⟨first, hfirst, hfails⟩⟩
  exact hreport ▸ hinputs.own hdistinct first hfirst

end Program
end NameResolution
