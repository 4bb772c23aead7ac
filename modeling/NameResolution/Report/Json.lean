import NameResolution.Json.Printer
import NameResolution.Report.Basic

/-!
# Reports as JSON

Members that say nothing are left out: unknown positions, a base that is not implicit, and lists of
duplicates and unresolved references that are empty.
-/
namespace NameResolution

def NodeId.toJson (id : NodeId) : Json := .nat id.index

namespace Json

/-- A member that is only there if its value is. -/
def optionalMember {α : Type} (key : String) (f : α → Json) : Option α → List (String × Json)
  | none => []
  | some a => [(key, f a)]

/-- A list that is only there if it is not empty. -/
def listMember {α : Type} (key : String) (f : α → Json) : List α → List (String × Json)
  | [] => []
  | xs => [(key, arr (xs.map f))]

def word (n : UInt32) : Json := nat n.toNat

end Json

def Resolution.toJson : Resolution → Json
  | unresolved => .obj [("status", .str "unresolved")]
  | single d => .obj [("status", .str "single"), ("declarations", d.toJson)]
  | ambiguous ds => .obj [("status", .str "ambiguous"), ("declarations", .arr (ds.map NodeId.toJson))]

def DeclarationReport.toJson (d : DeclarationReport) : Json :=
  .obj ([("id", d.id.toJson), ("kind", .str d.kind.name), ("name", .str d.name)] ++
    Json.optionalMember "line" Json.word d.line)

def BindingReport.toJson (b : BindingReport) : Json :=
  .obj ([("node", b.node.toJson), ("kind", .str b.kind.name), ("name", .str b.name)] ++
    Json.optionalMember "line" Json.word b.line ++ Json.optionalMember "column" Json.word b.column ++
    (if b.implicitBase then [("implicit_base", .bool true)] else []) ++
    [("resolution", b.resolution.toJson),
      ("declarations", .arr (b.declarations.map DeclarationReport.toJson))])

def DuplicateReport.toJson (d : DuplicateReport) : Json :=
  .obj ([("name", .str d.name), ("first", d.first.toJson), ("duplicate", d.repeated.toJson)] ++
    Json.optionalMember "line" Json.word d.line)

def UnitReport.toJson (r : UnitReport) : Json :=
  .obj ([("file", .str r.file), ("translation_unit", .str r.translationUnit),
      ("resolved", .nat r.resolved), ("implicit_members", .nat r.implicitMembers),
      ("bindings", .arr (r.bindings.map BindingReport.toJson))] ++
    Json.listMember "duplicates" DuplicateReport.toJson r.duplicates ++
    Json.listMember "unresolved" NodeId.toJson r.unresolved ++
    Json.optionalMember "error" Json.str r.error)

def Summary.toJson (s : Summary) : Json :=
  .obj [("units_resolved", .nat s.unitsResolved), ("units_failed", .nat s.unitsFailed),
    ("total_bindings", .nat s.totalBindings), ("total_unresolved", .nat s.totalUnresolved),
    ("units", .arr (s.units.map UnitReport.toJson))]

end NameResolution
