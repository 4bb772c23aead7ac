/-!
# Names made of segments

Record names are paths: segments joined by a separator such as `.` or `::`. All that is asked of
a path is whether it has a separator at all, and what follows the last one.
-/
namespace NameResolution.Text

/-- `part` stands somewhere in `cs`. -/
def hasInfix (part : List Char) : List Char → Bool
  | [] => part.isEmpty
  | c :: cs => part.isPrefixOf (c :: cs) || hasInfix part cs

/-- What follows the last place where `separator` stands. -/
def afterLast? (separator : List Char) : List Char → Option (List Char)
  | [] => none
  | c :: cs =>
    match afterLast? separator cs with
    | some rest => some rest
    | none => if separator.isPrefixOf (c :: cs) then some ((c :: cs).drop separator.length) else none

def isPath (separator name : String) : Bool := hasInfix separator.toList name.toList

/-- The last segment of a path; a text without a separator is its own last segment. -/
def lastSegment (separator name : String) : String :=
  match afterLast? separator.toList name.toList with
  | some rest => String.ofList rest
  | none => name

def joinPath (separator outer inner : String) : String := outer ++ separator ++ inner

example : lastSegment "." "Outer.Inner" = "Inner" := by decide
example : lastSegment "::" "a:::b" = "b" := by decide
example : isPath "::" "a:b" = false := by decide

end NameResolution.Text
