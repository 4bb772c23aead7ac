import NameResolution.Report.Json

/-!
# Reports as text

A line for each unit, and below it a line for each binding and each dropped declaration.
-/
namespace NameResolution

inductive ReportFormat where
  | json
  | text
deriving DecidableEq, Inhabited

namespace ReportFormat

def name : ReportFormat → String
  | json => "json"
  | text => "text"

def all : List ReportFormat := [json, text]

def ofName? (s : String) : Option ReportFormat := all.find? (·.name == s)

end ReportFormat

def DeclarationReport.text (d : DeclarationReport) : String :=
  d.kind.name ++ " " ++ d.name ++ " " ++ d.id.text

namespace BindingReport

def position (b : BindingReport) : String :=
  match b.line, b.column with
  | some line, some column => toString line ++ ":" ++ toString column
  | _, _ => "-"

/-- What the reference is bound to. -/
def target (b : BindingReport) : String :=
  if b.isResolved then " | ".intercalate (b.declarations.map DeclarationReport.text)
  else "unresolved"

/-- What is special about the binding. -/
def marker (b : BindingReport) : String :=
  if b.resolution.isAmbiguous then " (ambiguous)"
  else if b.implicitBase then " (implicit receiver)"
  else ""

def text (b : BindingReport) : String :=
  b.position ++ " " ++ b.name ++ " " ++ b.node.text ++ " -> " ++ b.target ++ b.marker

end BindingReport

def DuplicateReport.text (d : DuplicateReport) : String :=
  "duplicate '" ++ d.name ++ "' " ++ d.repeated.text ++ " ignored, first declared at " ++ d.first.text

namespace UnitReport

def headline (r : UnitReport) : String :=
  r.file ++ " (" ++ r.translationUnit ++ "): " ++ toString r.resolved ++ " resolved, " ++
    toString r.unresolved.length ++ " unresolved, " ++ toString r.implicitMembers ++
    " implicit members"

def lines (r : UnitReport) : List String :=
  match r.error with
  | some e => [r.file ++ ": error: " ++ e]
  | none =>
    r.headline :: (r.bindings.map (fun b => "  " ++ b.text) ++
      r.duplicates.map fun d => "  " ++ d.text)

end UnitReport

def ReportFormat.write (format : ReportFormat) (reports : List UnitReport) : String :=
  match format with
  | .json => (Summary.ofReports reports).toJson.pretty Decimal.markedText 0
  | .text => String.join ((reports.flatMap UnitReport.lines).map (· ++ "\n"))

end NameResolution
