import NameResolution.Text.Hex
import NameResolution.Yaml.Letter

/-!
# YAML scalars

The text of a scalar in quotes and of one without. A scalar may go on over several lines; the
gaps in it are folded. Every reader returns what is left, which is never longer than what it was
given.
-/
namespace NameResolution.Yaml

/-- What a gap inside a scalar stands for: on one line for itself, one line feed for a space, and
several for all but the first. A break of another kind at its beginning is kept. -/
def fold (gap : List Letter) : List Char :=
  let cs := gap.map Letter.char
  match cs.filter isBreak with
  | [] => cs
  | ['\n'] => [' ']
  | '\n' :: more => more
  | breaks => breaks

/-- Puts characters in front of a text that was read. -/
def prepend (cs : List Char) (read : Option (List Char × List Letter)) :
    Option (List Char × List Letter) :=
  read.map fun (s, rest) => (cs ++ s, rest)

theorem exists_of_prepend {cs s : List Char} {rest : List Letter}
    {read : Option (List Char × List Letter)} (h : prepend cs read = some (s, rest)) :
    ∃ t, read = some (t, rest) := by
  simp only [prepend, Option.map_eq_some_iff, Prod.mk.injEq] at h
  obtain ⟨⟨t, _⟩, ht, -, rfl⟩ := h
  exact ⟨t, ht⟩

/-- The rest of a scalar in single quotes; a quote inside is written twice. -/
def singleQuoted? : List Letter → Option (List Char × List Letter)
  | [] => none
  | l :: rest =>
    if atDocumentMark (l :: rest) then none
    else if l.isInGap then
      prepend (fold (l :: gap rest)) (singleQuoted? (afterGap rest))
    else if l.char != '\'' then prepend [l.char] (singleQuoted? rest)
    else
      match rest with
      | [] => some ([], [])
      | m :: rest =>
        if m.char == '\'' then prepend [m.char] (singleQuoted? rest)
        else some ([], m :: rest)
termination_by ls => ls.length
decreasing_by
  · have := length_afterGap_le rest; simp only [List.length_cons]; omega
  · simp
  · simp only [List.length_cons]; omega

theorem length_of_singleQuoted? {ls rest : List Letter} {s : List Char}
    (h : singleQuoted? ls = some (s, rest)) : rest.length ≤ ls.length := by
  fun_induction singleQuoted? ls generalizing s with
  | case1 | case2 => simp at h
  | case3 l tail _ _ ih =>
    obtain ⟨_, hs⟩ := exists_of_prepend h
    have := ih hs
    have := length_afterGap_le tail
    simp only [List.length_cons]
    omega
  | case4 _ _ _ _ _ ih | case6 _ _ _ _ _ _ _ ih =>
    obtain ⟨_, hs⟩ := exists_of_prepend h
    have := ih hs
    simp only [List.length_cons]
    omega
  | case5 | case7 => simp_all

/-- The character that a letter after a backslash stands for. -/
def escaped? : Char → Option Char
  | '0' => some '\x00'
  | 'a' => some '\x07'
  | 'b' => some '\x08'
  | 't' | '\t' => some '\t'
  | 'n' => some '\n'
  | 'v' => some '\x0b'
  | 'f' => some '\x0c'
  | 'r' => some '\r'
  | 'e' => some '\x1b'
  | ' ' => some ' '
  | '"' => some '"'
  | '/' => some '/'
  | '\\' => some '\\'
  | 'N' => some '\u0085'
  | '_' => some '\u00a0'
  | 'L' => some '\u2028'
  | 'P' => some '\u2029'
  | _ => none

/-- How many digits of a code point follow a letter after a backslash. -/
def codeLength? : Char → Option Nat
  | 'x' => some 2
  | 'u' => some 4
  | 'U' => some 8
  | _ => none

/-- The character that is written after a backslash: by a letter, or by the digits of its code
point. -/
def escape? (letter : Char) (rest : List Letter) : Option (Char × List Letter) :=
  match codeLength? letter with
  | none => (escaped? letter).map (·, rest)
  | some n => do
    let digits := (rest.take n).map Letter.char
    let code ← Text.hex? digits
    if digits.length = n ∧ code.isValidChar then some (Char.ofNat code, rest.drop n) else none

theorem length_of_escape? {letter c : Char} {ls rest : List Letter}
    (h : escape? letter ls = some (c, rest)) : rest.length ≤ ls.length := by
  unfold escape? at h
  split at h
  · simp only [Option.map_eq_some_iff, Prod.mk.injEq] at h
    obtain ⟨_, _, -, rfl⟩ := h
    exact Nat.le_refl _
  · simp only [Option.bind_eq_bind, Option.bind_eq_some_iff] at h
    obtain ⟨_, -, h⟩ := h
    split at h
    · simp only [Option.some.injEq, Prod.mk.injEq] at h
      obtain ⟨-, rfl⟩ := h
      simp
    · simp at h

/-- The rest of a scalar in double quotes. A backslash at the end of a line joins the next line
to it. -/
def doubleQuoted? : List Letter → Option (List Char × List Letter)
  | [] => none
  | l :: rest =>
    if atDocumentMark (l :: rest) then none
    else if l.isInGap then
      prepend (fold (l :: gap rest)) (doubleQuoted? (afterGap rest))
    else if l.char == '"' then some ([], rest)
    else if l.char != '\\' then prepend [l.char] (doubleQuoted? rest)
    else
      match rest with
      | [] => none
      | m :: rest =>
        if isBreak m.char then
          prepend (((gap rest).map Letter.char).filter isBreak) (doubleQuoted? (afterGap rest))
        else
          match _h : escape? m.char rest with
          | none => none
          | some (c, rest) => prepend [c] (doubleQuoted? rest)
termination_by ls => ls.length
decreasing_by
  · have := length_afterGap_le rest; simp only [List.length_cons]; omega
  · simp
  · have := length_afterGap_le rest; simp only [List.length_cons]; omega
  · have := length_of_escape? _h; simp only [List.length_cons]; omega

theorem length_of_doubleQuoted? {ls rest : List Letter} {s : List Char}
    (h : doubleQuoted? ls = some (s, rest)) : rest.length ≤ ls.length := by
  fun_induction doubleQuoted? ls generalizing s with
  | case1 | case2 | case6 | case8 => simp at h
  | case4 => simp_all
  | case3 _ tail _ _ ih | case7 _ _ _ _ _ tail _ _ ih =>
    obtain ⟨_, hs⟩ := exists_of_prepend h
    have := ih hs
    have := length_afterGap_le tail
    simp only [List.length_cons]
    omega
  | case5 _ _ _ _ _ _ ih =>
    obtain ⟨_, hs⟩ := exists_of_prepend h
    have := ih hs
    simp only [List.length_cons]
    omega
  | case9 _ _ _ _ _ _ _ _ _ he _ ih =>
    obtain ⟨_, hs⟩ := exists_of_prepend h
    have := ih hs
    have := length_of_escape? he
    simp only [List.length_cons]
    omega

/-- Marks that end an unquoted scalar between brackets. -/
def isFlowMark (c : Char) : Bool := ",[]\x7b\x7d".toList.contains c

/-- An unquoted scalar ends here, or it pauses for a gap. A colon ends it before a gap. -/
def endsPlain (inFlow : Bool) : List Letter → Bool
  | [] => true
  | l :: rest => l.isInGap || (l.char == ':' && atGap rest) || (inFlow && isFlowMark l.char)

/-- A colon that touches a mark, which nothing between brackets may do. -/
def colonClashes : List Letter → Bool
  | l :: m :: _ => l.char == ':' && (isFlowMark m.char || m.char == '?')
  | _ => false

/-- An unquoted scalar up to its next gap or its end. -/
def plainRun? (inFlow : Bool) : List Letter → Option (List Char × List Letter)
  | [] => some ([], [])
  | l :: rest =>
    if endsPlain inFlow (l :: rest) then some ([], l :: rest)
    else if inFlow && colonClashes (l :: rest) then none
    else prepend [l.char] (plainRun? inFlow rest)

theorem length_of_plainRun? {inFlow : Bool} {ls rest : List Letter} {s : List Char}
    (h : plainRun? inFlow ls = some (s, rest)) : rest.length ≤ ls.length := by
  fun_induction plainRun? inFlow ls generalizing s with
  | case1 | case2 => simp_all
  | case3 => simp at h
  | case4 _ _ _ _ ih =>
    obtain ⟨_, hs⟩ := exists_of_prepend h
    have := ih hs
    simp only [List.length_cons]
    omega

/-- A tab stands where a line has to be indented. -/
def hasStrayTab (indent : Nat) (gap : List Letter) : Bool :=
  (gap.dropWhile fun l => isBlank l.char).any fun l => l.char == '\t' && l.column < indent

/-- An unquoted scalar does not go on after a gap: a comment follows, a mark between documents, or
a line that is indented too little. -/
def stopsPlain (inFlow : Bool) (indent : Nat) : List Letter → Bool
  | [] => true
  | l :: rest =>
    l.char == '#' || atDocumentMark (l :: rest) || (!inFlow && l.column < indent) ||
      endsPlain inFlow (l :: rest)

/-- The rest of an unquoted scalar after its first letter. The gap behind it is left. -/
def plain? (inFlow : Bool) (indent : Nat) (ls : List Letter) :
    Option (List Char × List Letter) :=
  match _h : plainRun? inFlow ls with
  | none => none
  | some (s, rest) =>
    if hasStrayTab indent (gap rest) then none
    else if _hg : gap rest = [] ∨ stopsPlain inFlow indent (afterGap rest) then
      some (s, rest)
    else prepend (s ++ fold (gap rest)) (plain? inFlow indent (afterGap rest))
termination_by ls.length
decreasing_by
  have := length_of_plainRun? _h
  have := length_afterGap rest
  have := List.length_pos_iff.mpr fun hn => _hg (Or.inl hn)
  omega

theorem length_of_plain? {inFlow : Bool} {indent : Nat} {ls rest : List Letter} {s : List Char}
    (h : plain? inFlow indent ls = some (s, rest)) : rest.length ≤ ls.length := by
  fun_induction plain? inFlow indent ls generalizing s with
  | case1 | case2 => simp at h
  | case3 _ _ _ hr =>
    simp only [Option.some.injEq, Prod.mk.injEq] at h
    obtain ⟨-, rfl⟩ := h
    exact length_of_plainRun? hr
  | case4 _ _ tail hr _ _ ih =>
    obtain ⟨_, hs⟩ := exists_of_prepend h
    exact Nat.le_trans (ih hs) (Nat.le_trans (length_afterGap_le tail) (length_of_plainRun? hr))

end NameResolution.Yaml
