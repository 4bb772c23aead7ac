import NameResolution.Json.Basic

/-!
# Printing JSON

Pretty text has every item and every member on a line of its own, indented by two blanks for each
open container; an empty container stays closed. Compact text has no blanks at all. Letters beyond
ASCII stand as they are.
-/
namespace NameResolution.Json
namespace Printer

def hexDigit (n : Nat) : Char := if n < 10 then Char.ofNat (n + 48) else Char.ofNat (n + 87)

/-- A character inside a string: quotes, backslashes and control characters are escaped. -/
def escape (c : Char) : List Char :=
  if c == '"' then ['\\', '"']
  else if c == '\\' then ['\\', '\\']
  else if c == '\x08' then ['\\', 'b']
  else if c == '\x0c' then ['\\', 'f']
  else if c == '\n' then ['\\', 'n']
  else if c == '\r' then ['\\', 'r']
  else if c == '\t' then ['\\', 't']
  else if c.toNat < 0x20 then ['\\', 'u', '0', '0', hexDigit (c.toNat / 16), hexDigit (c.toNat % 16)]
  else [c]

def quote (s : String) : String := String.ofList ('"' :: (s.toList.flatMap escape ++ ['"']))

/-- A line end and the indentation of `depth` open containers. -/
def newline (depth : Nat) : String := String.ofList ('\n' :: List.replicate (2 * depth) ' ')

/-- The items of a container between its brackets, each on a line of its own. -/
def lines (depth : Nat) (opening closing : String) : List String → String
  | [] => opening ++ closing
  | items =>
    opening ++ newline (depth + 1) ++ ("," ++ newline (depth + 1)).intercalate items ++
      newline depth ++ closing

end Printer

mutual

/-- The pretty text of a value inside `depth` open containers. `number` gives the text of a
double. -/
def pretty (number : Float → String) (depth : Nat) : Json → String
  | .null => "null"
  | .bool b => if b then "true" else "false"
  | .int n => toString n
  | .float x => number x
  | .str s => Printer.quote s
  | .arr items => Printer.lines depth "[" "]" (prettyItems number (depth + 1) items)
  | .obj members => Printer.lines depth "\x7b" "\x7d" (prettyMembers number (depth + 1) members)

def prettyItems (number : Float → String) (depth : Nat) : List Json → List String
  | [] => []
  | v :: vs => pretty number depth v :: prettyItems number depth vs

def prettyMembers (number : Float → String) (depth : Nat) : List (String × Json) → List String
  | [] => []
  | (k, v) :: ms => (Printer.quote k ++ ": " ++ pretty number depth v) :: prettyMembers number depth ms

end

mutual

/-- The text of a value without any blanks. `number` gives the text of a double. -/
def compact (number : Float → String) : Json → String
  | .null => "null"
  | .bool b => if b then "true" else "false"
  | .int n => toString n
  | .float x => number x
  | .str s => Printer.quote s
  | .arr items => "[" ++ ",".intercalate (compactItems number items) ++ "]"
  | .obj members => "\x7b" ++ ",".intercalate (compactMembers number members) ++ "\x7d"

def compactItems (number : Float → String) : List Json → List String
  | [] => []
  | v :: vs => compact number v :: compactItems number vs

def compactMembers (number : Float → String) : List (String × Json) → List String
  | [] => []
  | (k, v) :: ms => (Printer.quote k ++ ":" ++ compact number v) :: compactMembers number ms

end

end NameResolution.Json
