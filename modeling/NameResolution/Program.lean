import NameResolution.Arguments
import NameResolution.Files.Discovery

/-!
# The program

A run loads every document that its path stands for, resolves those that could be loaded, and reports on
all of them in the order of their file names. A document that fails spoils no other. The run itself fails
if any document does.
-/
namespace NameResolution

/-- A document of a run: its file and what came of loading it. -/
structure Input where
  file : String
  loaded : Except LoadError Tree

namespace Program

/-- What loading has come to: the reports on documents that failed, and the files and the trees of the others,
each in the order of the documents. -/
structure Loaded where
  reports : List UnitReport := []
  files : List String := []
  units : List Tree := []

def Loaded.add (l : Loaded) (i : Input) : Loaded :=
  match i.loaded with
  | .ok t => { l with files := l.files ++ [i.file], units := l.units ++ [t] }
  | .error e => { l with reports := l.reports ++ [UnitReport.failed i.file e.message] }

def load (inputs : List Input) : Loaded := inputs.foldl Loaded.add {}

/-- Resolves each tree on its own. The trees change in place, and the results stand in a list of their own. -/
def resolveUnits (resolve : Tree → Outcome ResolvedUnit) (units : List Tree) :
    List Tree × List (Except ResolveError ResolvedUnit) :=
  let outcomes := units.map resolve
  (outcomes.map Outcome.tree, outcomes.map Outcome.result)

/-- The reports on the trees that were loaded, put together from their files, the trees and the results. -/
def unitReports (files : List String) (units : List Tree) (results : List (Except ResolveError ResolvedUnit)) :
    List UnitReport :=
  ((files.zip units).zip results).map fun ((file, tree), result) => UnitReport.ofOutcome file { result, tree }

def sortReports (reports : List UnitReport) : List UnitReport :=
  reports.mergeSort fun a b => decide (a.file ≤ b.file)

/-- The reports of a run: documents that failed to load, then the others, sorted by file. -/
def reportsOf (resolve : Tree → Outcome ResolvedUnit) (inputs : List Input) : List UnitReport :=
  let loaded := load inputs
  let (units, results) := resolveUnits resolve loaded.units
  sortReports (loaded.reports ++ unitReports loaded.files units results)

def reports (config : Config) (inputs : List Input) : List UnitReport := reportsOf (·.resolve config) inputs

/-- What a run has come to before anything is written. -/
inductive Result where
  | usage (error : UsageError)
  | failed (message : String)
  | finished (reports : List UnitReport) (format : ReportFormat) (target : Option String)

def prepare (files : Files) (a : Arguments) : Except String (Config × List String) := do
  if (a.problem? files).isSome then throw "Invalid arguments"
  let config ←
    match a.resolverConfig files with
    | .ok config => pure config
    | .error _ => throw a.loadProblem
  match Discovery.collect? files a.path with
  | none => throw ("Cannot collect documents under " ++ a.path)
  | some paths => pure (config, paths)

def inputsAt (files : Files) (paths : List String) (complaints : Complaints := {}) : List Input :=
  paths.map fun p => { file := p, loaded := Discovery.load files p complaints }

def run (files : Files) (words : List String) (complaints : Complaints := {}) : Result :=
  match Arguments.parse words with
  | .error e => .usage e
  | .ok a =>
    match prepare files a with
    | .error message => .failed message
    | .ok (config, paths) => .finished (reports config (inputsAt files paths complaints)) a.format a.outputFile

/-- How a run ends: its exit code, what it prints and what it says went wrong. -/
structure Ending where
  exitCode : Nat
  stdout : String
  error : Option String
deriving DecidableEq

def failure? (reports : List UnitReport) : Option String :=
  let failed := reports.countP UnitReport.isFailed
  if failed = 0 then none
  else some (toString failed ++ " of " ++ toString reports.length ++ " unit(s) failed")

def Result.output : Result → String
  | .finished reports format _ => format.write reports
  | _ => ""

def Result.target? : Result → Option String
  | .finished _ _ target => target
  | _ => none

/-- The end of a run. `written` tells whether the file could be written, if there is one to write to. -/
def Result.ending (r : Result) (written : Bool) : Ending :=
  match r with
  | .usage e => ⟨e.exitCode, "", none⟩
  | .failed message => ⟨1, "", some message⟩
  | .finished reports _ target =>
    let stdout := if target.isSome then "" else r.output ++ "\n"
    match target, written with
    | some path, false => ⟨1, "", some ("Cannot write output: " ++ path)⟩
    | _, _ => ⟨if (failure? reports).isSome then 1 else 0, stdout, failure? reports⟩

end Program
end NameResolution
