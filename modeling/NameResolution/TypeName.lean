import NameResolution.Text.Blank

/-!
# Type names

The text of a declared type is reduced to the name that a record could bear: type arguments are cut off,
then qualifiers in front and marks of pointers, references and arrays behind.
-/
namespace NameResolution.TypeName

/-- Removes `part` from the front of `cs` as often as it stands there. -/
def dropRepeated (part : List Char) (cs : List Char) : List Char :=
  if _h : part ≠ [] ∧ part.isPrefixOf cs = true then dropRepeated part (cs.drop part.length) else cs
termination_by cs.length
decreasing_by
  have hpos := List.length_pos_iff.2 _h.1
  have hle := (List.isPrefixOf_iff_prefix.1 _h.2).length_le
  rw [List.length_drop]
  omega

/-- The qualifiers, each with the blank after it, in the order they are removed. -/
def qualifiers : List (List Char) :=
  ["const ", "volatile ", "struct ", "class ", "final "].map String.toList

def isMark (c : Char) : Bool := c == '*' || c == '&' || c == '[' || c == ']'

/-- Removes the qualifiers in one round: the first as often as it stands in front, then the second, and so
on. -/
def dropQualifiers (cs : List Char) : List Char :=
  qualifiers.foldl (fun cs q => Text.trimStart (dropRepeated q cs)) cs

def normalizeChars (cs : List Char) : List Char :=
  Text.dropEndWhile (fun c => isMark c || Text.isBlank c)
    (dropQualifiers (Text.trim (cs.takeWhile (· != '<'))))

/-- The name that the text of a type stands for. -/
def normalize (s : String) : String := String.ofList (normalizeChars s.toList)

end NameResolution.TypeName
