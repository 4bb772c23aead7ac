/-!
# Letters of a YAML text

Layout carries meaning in YAML, so every character is read together with its line and column.
-/
namespace NameResolution.Yaml

/-- A character and where it stands. -/
structure Letter where
  char : Char
  line : Nat
  column : Nat

/-- Characters that may occur in a text at all. -/
def isPrintable (c : Char) : Bool :=
  c == '\t' || c == '\n' || c == '\r' || c == '\u0085' || (' ' ≤ c && c ≤ '~') ||
    ('\u00a0' ≤ c && c ≤ '\ufffd') || 0xFFFF < c.toNat

def isBlank (c : Char) : Bool := c == ' ' || c == '\t'

/-- Line breaks: the line feed, which stands for all breaks but two, and the separators of lines
and paragraphs. -/
def isBreak (c : Char) : Bool := c == '\n' || c == '\u2028' || c == '\u2029'

def isGap (c : Char) : Bool := isBlank c || isBreak c

/-- Writes a line feed for every carriage return, for the two of them together, and for a next
line character. -/
def unifyBreaks : List Char → List Char
  | [] => []
  | '\r' :: '\n' :: rest => '\n' :: unifyBreaks rest
  | c :: rest => (if c == '\r' || c == '\u0085' then '\n' else c) :: unifyBreaks rest

namespace Letter

/-- Places characters one after the other, the first one at the given line and column. -/
def place (line column : Nat) : List Char → List Letter
  | [] => []
  | c :: rest =>
    ⟨c, line, column⟩ ::
      if isBreak c then place (line + 1) 0 rest else place line (column + 1) rest

/-- The letters of a text. A byte order mark in front of it is dropped, but its column counts. -/
def ofText? (text : String) : Option (List Letter) :=
  if text.toList.all isPrintable then
    match unifyBreaks text.toList with
    | '\ufeff' :: rest => some (place 0 1 rest)
    | cs => some (place 0 0 cs)
  else none

def isInGap (l : Letter) : Bool := isGap l.char

end Letter

/-- The gap in front of the rest. -/
def gap (ls : List Letter) : List Letter := ls.takeWhile Letter.isInGap

/-- The rest after its gap. -/
def afterGap (ls : List Letter) : List Letter := ls.dropWhile Letter.isInGap

theorem length_afterGap (ls : List Letter) :
    (gap ls).length + (afterGap ls).length = ls.length := by
  rw [← List.length_append, gap, afterGap, List.takeWhile_append_dropWhile]

theorem length_afterGap_le (ls : List Letter) : (afterGap ls).length ≤ ls.length := by
  have := length_afterGap ls
  omega

/-- Skips gaps and comments, and tells whether a key may start behind them: it may at the start of
a line, except between brackets. A tab is no gap where it could be taken for indentation. -/
def skipSpace (inFlow inComment keyAllowed : Bool) : List Letter → Bool × List Letter
  | [] => (keyAllowed, [])
  | l :: rest =>
    if isBreak l.char then skipSpace inFlow false (keyAllowed || !inFlow) rest
    else if inComment || l.char == '#' then skipSpace inFlow true keyAllowed rest
    else if l.char == ' ' || (l.char == '\t' && (inFlow || !keyAllowed)) then
      skipSpace inFlow false keyAllowed rest
    else (keyAllowed, l :: rest)

theorem length_skipSpace_le (inFlow inComment keyAllowed : Bool) (ls : List Letter) :
    (skipSpace inFlow inComment keyAllowed ls).2.length ≤ ls.length := by
  fun_induction skipSpace inFlow inComment keyAllowed ls <;>
    simp only [List.length_cons, List.length_nil] <;> omega

/-- There is a gap or nothing left. -/
def atGap (ls : List Letter) : Bool := ls.head?.all Letter.isInGap

/-- A line starts with `mark`, three times and by itself. -/
def atMark (mark : Char) : List Letter → Bool
  | a :: b :: c :: rest =>
    a.column == 0 && a.char == mark && b.char == mark && c.char == mark && atGap rest
  | _ => false

/-- A line starts with a mark between documents. -/
def atDocumentMark (ls : List Letter) : Bool := atMark '-' ls || atMark '.' ls

end NameResolution.Yaml
