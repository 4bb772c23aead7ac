/-!
# Regions of a document

A node that was read from a document remembers where it stands there. Lines and columns
are 32-bit words, as wide as a document may state them.
-/
namespace NameResolution

/-- An extent of a document, from its first character to its last. -/
structure Region where
  startLine : UInt32
  startColumn : UInt32
  endLine : UInt32
  endColumn : UInt32
deriving DecidableEq, Inhabited

namespace Region

def point (line column : UInt32) : Region := ⟨line, column, line, column⟩

/-- A region is shown by the position it starts at. -/
def text (r : Region) : String := toString r.startLine ++ ":" ++ toString r.startColumn

@[simp] theorem point_startLine (l c : UInt32) : (point l c).startLine = l := rfl

@[simp] theorem point_startColumn (l c : UInt32) : (point l c).startColumn = c := rfl

end Region
end NameResolution
