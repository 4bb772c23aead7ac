import Mathlib.Data.List.DropRight
import NameResolution.TypeName

/-!
# Normal forms of type names

Normalizing cuts a type down to a part of its text that holds no arguments and has no blanks or marks at its ends.
Qualifiers in front are removed in one round only, in a fixed order. One that comes after its turn is left standing, and
only then does normalizing a second time change anything.
-/
namespace NameResolution

namespace Text
variable {p : Char → Bool} {cs : List Char}

def StartsPlain (cs : List Char) : Prop := ∀ c ∈ cs.head?, isBlank c = false

theorem StartsPlain.mono {front : List Char} (h : StartsPlain cs) (hfront : front <+: cs) : StartsPlain front := by
  obtain ⟨rest, rfl⟩ := hfront
  intro c hc
  exact h c (by rw [List.head?_append, Option.mem_def.mp hc]; rfl)

theorem startsPlain_trimStart (cs : List Char) : StartsPlain (trimStart cs) := by
  intro c hc
  have h := List.head?_dropWhile_not isBlank cs
  rw [← trimStart, Option.mem_def.mp hc] at h
  simpa using h

theorem trimStart_eq_self (h : StartsPlain cs) : trimStart cs = cs := by
  cases cs with
  | nil => rfl
  | cons c cs => exact List.dropWhile_cons_of_neg (by simp [h c rfl])

theorem trimStart_append {blanks : List Char} (hblank : ∀ c ∈ blanks, isBlank c = true) (h : StartsPlain cs) :
    trimStart (blanks ++ cs) = cs := by
  rw [trimStart, List.dropWhile_append_of_pos hblank]
  exact trimStart_eq_self h

theorem isPrefix_dropEndWhile (p : Char → Bool) (cs : List Char) : dropEndWhile p cs <+: cs :=
  List.rdropWhile_prefix p cs

/-- What is left does not end in a character that is dropped. -/
theorem eq_false_of_mem_getLast?_dropEndWhile {c : Char} (h : c ∈ (dropEndWhile p cs).getLast?) : p c = false := by
  obtain ⟨hne, rfl⟩ := List.mem_getLast?_eq_getLast h
  exact Bool.eq_false_iff.mpr (List.rdropWhile_last_not p cs hne)

theorem dropEndWhile_eq_self (h : ∀ c ∈ cs.getLast?, p c = false) : dropEndWhile p cs = cs := by
  apply List.rdropWhile_eq_self_iff.mpr
  intro hne
  simp [h _ (List.getLast?_eq_some_getLast hne)]

/-- Nothing is dropped from before a character that stays. -/
theorem dropEndWhile_append {rest : List Char} {c : Char} (hmem : c ∈ rest) (hc : p c = false) (front : List Char) :
    dropEndWhile p (front ++ rest) = front ++ dropEndWhile p rest := by
  have hne : ¬ (rest.reverse.dropWhile p).isEmpty := by
    rw [List.isEmpty_iff, List.dropWhile_eq_nil_iff]
    intro hall
    simp [hall c (List.mem_reverse.mpr hmem)] at hc
  simp only [dropEndWhile, List.reverse_append, List.dropWhile_append, if_neg hne, List.reverse_reverse]

theorem mem_dropEndWhile {c : Char} (hmem : c ∈ cs) (hc : p c = false) : c ∈ dropEndWhile p cs := by
  have hparts : dropEndWhile p cs ++ cs.rtakeWhile p = cs := List.rdropWhile_append_rtakeWhile
  rw [← hparts] at hmem
  rcases List.mem_append.mp hmem with hkept | hdropped
  · exact hkept
  · simp [List.mem_rtakeWhile_imp hdropped] at hc

end Text

namespace TypeName
open Text (StartsPlain)

/-- A text as normalizing leaves it: without arguments, without blanks at its ends and without marks behind. -/
structure Stripped (cs : List Char) : Prop where
  no_arguments : '<' ∉ cs
  front : StartsPlain cs
  back : ∀ c ∈ cs.getLast?, isMark c = false ∧ Text.isBlank c = false

def Qualified (cs : List Char) : Prop := ∃ q ∈ qualifiers, q <+: cs

theorem isSuffix_dropRepeated (part cs : List Char) : dropRepeated part cs <:+ cs := by
  fun_induction dropRepeated part cs with
  | case1 cs h ih => exact ih.trans (List.drop_suffix _ _)
  | case2 cs h => exact List.suffix_rfl

theorem dropRepeated_append {part : List Char} (h : part ≠ []) (cs : List Char) :
    dropRepeated part (part ++ cs) = dropRepeated part cs := by
  rw [dropRepeated, dif_pos ⟨h, by simp⟩, List.drop_left]

theorem dropRepeated_eq_self {part cs : List Char} (h : ¬ part <+: cs) : dropRepeated part cs = cs := by
  rw [dropRepeated, dif_neg]
  rintro ⟨-, hprefix⟩
  exact h (List.isPrefixOf_iff_prefix.mp hprefix)

def dropQualifier (cs q : List Char) : List Char := Text.trimStart (dropRepeated q cs)

theorem isSuffix_dropQualifier (cs q : List Char) : dropQualifier cs q <:+ cs :=
  (List.dropWhile_suffix _).trans (isSuffix_dropRepeated q cs)

theorem dropQualifier_eq_self {cs q : List Char} (hq : ¬ q <+: cs) (h : StartsPlain cs) : dropQualifier cs q = cs := by
  rw [dropQualifier, dropRepeated_eq_self hq, Text.trimStart_eq_self h]

/-- The part of a round that begins with the qualifier at place `k`. -/
def dropFrom (k : Nat) (cs : List Char) : List Char := (qualifiers.drop k).foldl dropQualifier cs

theorem dropFrom_of_lt {k : Nat} (h : k < qualifiers.length) (cs : List Char) :
    dropFrom k cs = dropFrom (k + 1) (dropQualifier cs qualifiers[k]) := by
  rw [dropFrom, List.drop_eq_getElem_cons h]
  rfl

theorem dropFrom_of_le {k : Nat} (h : qualifiers.length ≤ k) (cs : List Char) : dropFrom k cs = cs := by
  rw [dropFrom, List.drop_eq_nil_of_le h]
  rfl

/-- A round passes over qualifiers that do not stand in front. -/
theorem dropFrom_skip {cs : List Char} (hcs : StartsPlain cs) {k j : Nat} (hkj : k ≤ j)
    (hnone : ∀ i : Fin qualifiers.length, k ≤ i → i < j → ¬ qualifiers[i] <+: cs) : dropFrom k cs = dropFrom j cs := by
  induction j, hkj using Nat.le_induction with
  | base => rfl
  | succ j hkj ih =>
    rw [ih fun i hi hij => hnone i hi (by omega)]
    by_cases hj : j < qualifiers.length
    · have hself : dropQualifier cs qualifiers[j] = cs :=
        dropQualifier_eq_self (hnone ⟨j, hj⟩ hkj (Nat.lt_succ_self j)) hcs
      rw [dropFrom_of_lt hj, hself]
    · rw [dropFrom_of_le (by omega), dropFrom_of_le (by omega)]

theorem dropFrom_eq_self {cs : List Char} (hcs : StartsPlain cs) {k : Nat}
    (hnone : ∀ i : Fin qualifiers.length, k ≤ i → ¬ qualifiers[i] <+: cs) : dropFrom k cs = cs := by
  by_cases hk : k ≤ qualifiers.length
  · rw [dropFrom_skip hcs hk fun i hi _ => hnone i hi, dropFrom_of_le le_rfl]
  · exact dropFrom_of_le (by omega) cs

theorem isSuffix_dropFrom (k : Nat) (cs : List Char) : dropFrom k cs <:+ cs := by
  unfold dropFrom
  induction qualifiers.drop k generalizing cs with
  | nil => exact List.suffix_rfl
  | cons q qs ih => exact (ih _).trans (isSuffix_dropQualifier cs q)

theorem startsPlain_dropFrom {cs : List Char} (h : StartsPlain cs) (k : Nat) : StartsPlain (dropFrom k cs) := by
  unfold dropFrom
  induction qualifiers.drop k generalizing cs with
  | nil => exact h
  | cons q qs ih => exact ih (Text.startsPlain_trimStart _)

/-- A qualifier in front of a type: its place in the order of removal, and the blanks that follow the one that is part
of it. -/
structure Qualifier where
  place : Fin qualifiers.length
  gap : List Char
  gap_blank : ∀ c ∈ gap, Text.isBlank c = true

namespace Qualifier

def word (a : Qualifier) : List Char := qualifiers[a.place]

def text (a : Qualifier) : List Char := a.word ++ a.gap

/-- Behind `a` it is too late for `b`: its turn was before that of `a`, or it is the same qualifier and blanks come
between. -/
def Late (a b : Qualifier) : Prop := b.place < a.place ∨ b.place = a.place ∧ a.gap ≠ []

/-- The place with which a round goes on behind a qualifier. -/
def next (a : Qualifier) : Nat := if a.gap = [] then a.place else a.place + 1

theorem late_iff {a b : Qualifier} : a.Late b ↔ b.place < a.next := by
  unfold Late next
  by_cases h : a.gap = []
  · simp only [h, ne_eq, not_true_eq_false, and_false, or_false, if_true]
    exact Fin.lt_def
  · simp only [h, ne_eq, not_false_eq_true, and_true, if_false, Fin.lt_def, Fin.ext_iff]
    omega

theorem word_mem (a : Qualifier) : a.word ∈ qualifiers := List.getElem_mem _

theorem of_mem {q : List Char} (hq : q ∈ qualifiers) {gap : List Char} (hgap : ∀ c ∈ gap, Text.isBlank c = true) :
    ∃ a : Qualifier, a.word = q ∧ a.gap = gap := by
  obtain ⟨k, hk, rfl⟩ := List.mem_iff_getElem.mp hq
  exact ⟨⟨⟨k, hk⟩, gap, hgap⟩, rfl, rfl⟩

end Qualifier

theorem ne_nil_of_mem_qualifiers : ∀ q ∈ qualifiers, q ≠ [] := by decide

theorem startsPlain_of_mem_qualifiers {q : List Char} (hq : q ∈ qualifiers) : StartsPlain q := by
  have hall : ∀ q ∈ qualifiers, q.head?.any Text.isBlank = false := by decide
  intro c hc
  have hhead := hall q hq
  rwa [Option.mem_def.mp hc] at hhead

theorem getLast?_of_mem_qualifiers : ∀ q ∈ qualifiers, q.getLast? = some ' ' := by decide

theorem no_arguments_of_mem_qualifiers : ∀ q ∈ qualifiers, '<' ∉ q := by decide

/-- No qualifier begins another. -/
theorem eq_of_prefix_qualifiers : ∀ i j : Fin qualifiers.length, qualifiers[i] <+: qualifiers[j] → i = j := by decide

namespace Qualifier
variable {a : Qualifier} {cs : List Char}

theorem word_ne_nil (a : Qualifier) : a.word ≠ [] := ne_nil_of_mem_qualifiers _ a.word_mem

theorem length_text_pos (a : Qualifier) : 0 < a.text.length := by
  have hpos := List.length_pos_iff.mpr a.word_ne_nil
  rw [text, List.length_append]
  omega

theorem startsPlain_word_append (a : Qualifier) (cs : List Char) : StartsPlain (a.word ++ cs) := by
  intro c hc
  rw [List.head?_append_of_ne_nil _ a.word_ne_nil] at hc
  exact startsPlain_of_mem_qualifiers a.word_mem c hc

theorem startsPlain_text_append (a : Qualifier) (cs : List Char) : StartsPlain (a.text ++ cs) := by
  rw [text, List.append_assoc]
  exact a.startsPlain_word_append _

/-- A text has one qualifier in front at most. -/
theorem place_eq_of_prefix_append {i : Fin qualifiers.length} (h : qualifiers[i] <+: a.word ++ cs) : i = a.place := by
  rcases List.prefix_or_prefix_of_prefix h (List.prefix_append a.word cs) with h | h
  · exact eq_of_prefix_qualifiers _ _ h
  · exact (eq_of_prefix_qualifiers _ _ h).symm

theorem eq_word_of_prefix_append {q : List Char} (hq : q ∈ qualifiers) (h : q <+: a.word ++ cs) : q = a.word := by
  obtain ⟨i, hi, rfl⟩ := List.mem_iff_getElem.mp hq
  exact congrArg (fun i : Fin qualifiers.length => qualifiers[i]) (place_eq_of_prefix_append (i := ⟨i, hi⟩) h)

theorem not_word_prefix_of_blank (a : Qualifier) {c : Char} (hc : Text.isBlank c = true) : ¬ a.word <+: c :: cs := by
  intro h
  obtain ⟨d, rest, hword⟩ := List.exists_cons_of_ne_nil a.word_ne_nil
  have hplain := startsPlain_of_mem_qualifiers a.word_mem d (by rw [hword]; rfl)
  rw [hword, List.cons_prefix_cons] at h
  simp [h.1, hc] at hplain

end Qualifier

section Round
variable {a : Qualifier} {cs : List Char} {k : Nat}

/-- A qualifier whose turn is still to come is removed. -/
theorem dropFrom_text_append (hk : k ≤ a.place) (hcs : StartsPlain cs) :
    dropFrom k (a.text ++ cs) = dropFrom a.next cs := by
  have hskip : dropFrom k (a.text ++ cs) = dropFrom a.place (a.text ++ cs) := by
    apply dropFrom_skip (a.startsPlain_text_append cs) hk
    intro i _ hi hprefix
    rw [Qualifier.text, List.append_assoc] at hprefix
    have hplace := Qualifier.place_eq_of_prefix_append hprefix
    simp [hplace] at hi
  have hword : dropQualifier (a.text ++ cs) a.word = dropQualifier (a.gap ++ cs) a.word := by
    rw [dropQualifier, Qualifier.text, List.append_assoc, dropRepeated_append a.word_ne_nil, ← dropQualifier]
  rw [hskip, dropFrom_of_lt a.place.isLt]
  change dropFrom (a.place + 1) (dropQualifier (a.text ++ cs) a.word) = _
  rw [hword]
  cases hgap : a.gap with
  | nil =>
    -- The same qualifier may stand in front once more, and is still in its turn.
    rw [Qualifier.next, if_pos hgap, dropFrom_of_lt a.place.isLt]
    rfl
  | cons c gap =>
    have hblank : ∀ d ∈ c :: gap, Text.isBlank d = true := hgap ▸ a.gap_blank
    rw [Qualifier.next, if_neg (by simp [hgap]), dropQualifier, List.cons_append,
      dropRepeated_eq_self (a.not_word_prefix_of_blank (hblank c List.mem_cons_self)), ← List.cons_append,
      Text.trimStart_append hblank hcs]

/-- A qualifier whose turn is over stays, and with it everything behind it. -/
theorem dropFrom_text_append_of_lt (hk : a.place < k) : dropFrom k (a.text ++ cs) = a.text ++ cs := by
  apply dropFrom_eq_self (a.startsPlain_text_append cs)
  intro i hi hprefix
  rw [Qualifier.text, List.append_assoc] at hprefix
  have hplace := Qualifier.place_eq_of_prefix_append hprefix
  omega

end Round

/-- A text with neither a blank nor a qualifier in front. -/
structure Bare (cs : List Char) : Prop where
  plain : StartsPlain cs
  unqualified : ¬ Qualified cs

theorem Qualified.exists_text {cs : List Char} (h : Qualified cs) :
    ∃ (a : Qualifier) (rest : List Char), cs = a.text ++ rest ∧ StartsPlain rest := by
  obtain ⟨q, hq, rest, rfl⟩ := h
  have hblank : ∀ c ∈ rest.takeWhile Text.isBlank, Text.isBlank c = true := fun c hc => List.mem_takeWhile_imp hc
  obtain ⟨a, hword, hgap⟩ := Qualifier.of_mem hq hblank
  refine ⟨a, Text.trimStart rest, ?_, Text.startsPlain_trimStart rest⟩
  rw [Qualifier.text, hword, hgap, List.append_assoc, Text.trimStart, List.takeWhile_append_dropWhile]

/-- Each text consists of the qualifiers in front and what they are in front of. -/
theorem exists_qualifiers {cs : List Char} (hcs : StartsPlain cs) :
    ∃ (run : List Qualifier) (core : List Char), cs = run.flatMap Qualifier.text ++ core ∧ Bare core := by
  by_cases hqualified : Qualified cs
  case neg => exact ⟨[], cs, rfl, hcs, hqualified⟩
  case pos =>
    obtain ⟨a, rest, rfl, hrest⟩ := hqualified.exists_text
    have hshorter : rest.length < (a.text ++ rest).length := by
      have hpos := a.length_text_pos
      rw [List.length_append]
      omega
    obtain ⟨run, core, rfl, hcore⟩ := exists_qualifiers hrest
    exact ⟨a :: run, core, by rw [List.flatMap_cons, List.append_assoc], hcore⟩
termination_by cs.length

section Round
variable {core : List Char} {k : Nat}

theorem startsPlain_flatMap_append (hcore : StartsPlain core) (run : List Qualifier) :
    StartsPlain (run.flatMap Qualifier.text ++ core) := by
  cases run with
  | nil => exact hcore
  | cons a run =>
    rw [List.flatMap_cons, List.append_assoc]
    exact a.startsPlain_text_append _

theorem startsPlain_pair_append (before : List Qualifier) (a b : Qualifier) (rest : List Char) :
    StartsPlain ((before ++ [a, b]).flatMap Qualifier.text ++ rest) := by
  rw [List.flatMap_append, List.flatMap_cons, List.append_assoc, List.append_assoc]
  exact startsPlain_flatMap_append (a.startsPlain_text_append _) before

theorem dropFrom_bare (hcore : Bare core) : dropFrom k core = core :=
  dropFrom_eq_self hcore.plain fun _ _ hprefix => hcore.unqualified ⟨_, List.getElem_mem _, hprefix⟩

/-- A round removes all qualifiers in front, or stops at the first that comes late. -/
theorem dropFrom_qualifiers (hcore : Bare core) (run : List Qualifier) (k : Nat) :
    dropFrom k (run.flatMap Qualifier.text ++ core) = core ∨
      (∃ a after, run = a :: after ∧ a.place < k ∧
        dropFrom k (run.flatMap Qualifier.text ++ core) = run.flatMap Qualifier.text ++ core) ∨
      ∃ before a b after, run = before ++ a :: b :: after ∧ a.Late b ∧
        dropFrom k (run.flatMap Qualifier.text ++ core) = (b :: after).flatMap Qualifier.text ++ core := by
  induction run generalizing k with
  | nil => exact .inl (dropFrom_bare hcore)
  | cons a run ih =>
    rw [List.flatMap_cons, List.append_assoc]
    by_cases hk : k ≤ a.place
    case neg => exact .inr (.inl ⟨a, run, rfl, by omega, dropFrom_text_append_of_lt (by omega)⟩)
    case pos =>
      rw [dropFrom_text_append hk (startsPlain_flatMap_append hcore.plain run)]
      rcases ih a.next with hall | ⟨b, after, rfl, hlate, hstop⟩ | ⟨before, a', b, after, rfl, hlate, hstop⟩
      · exact .inl hall
      · exact .inr (.inr ⟨[], a, b, after, rfl, Qualifier.late_iff.mpr hlate, hstop⟩)
      · exact .inr (.inr ⟨a :: before, a', b, after, rfl, hlate, hstop⟩)

/-- If one qualifier in front comes late, a round leaves a qualifier standing, and all that is behind them. -/
theorem dropFrom_of_late {a b : Qualifier} (hlate : a.Late b) (before : List Qualifier) (rest : List Char) (k : Nat) :
    ∃ (x : Qualifier) (left : List Char), dropFrom k ((before ++ [a, b]).flatMap Qualifier.text ++ rest) =
      x.text ++ left ∧ rest <:+ left := by
  induction before generalizing k with
  | nil =>
    simp only [List.nil_append, List.flatMap_cons, List.flatMap_nil, List.append_nil, List.append_assoc]
    by_cases hk : k ≤ a.place
    · rw [dropFrom_text_append hk (b.startsPlain_text_append rest),
        dropFrom_text_append_of_lt (Qualifier.late_iff.mp hlate)]
      exact ⟨b, rest, rfl, List.suffix_rfl⟩
    · rw [dropFrom_text_append_of_lt (by omega)]
      exact ⟨a, b.text ++ rest, rfl, List.suffix_append _ _⟩
  | cons x before ih =>
    rw [List.cons_append, List.flatMap_cons, List.append_assoc]
    by_cases hk : k ≤ x.place
    · rw [dropFrom_text_append hk (startsPlain_pair_append before a b rest)]
      exact ih x.next
    · rw [dropFrom_text_append_of_lt (by omega)]
      exact ⟨x, _, rfl, List.suffix_append _ _⟩

end Round

section Normal
variable {cs : List Char}

def written (cs : List Char) : List Char := Text.trim (cs.takeWhile (· != '<'))

theorem normalizeChars_eq (cs : List Char) :
    normalizeChars cs = Text.dropEndWhile (fun c => isMark c || Text.isBlank c) (dropFrom 0 (written cs)) := rfl

theorem isPrefix_normalizeChars (cs : List Char) : normalizeChars cs <+: dropFrom 0 (written cs) :=
  Text.isPrefix_dropEndWhile _ _

theorem startsPlain_written (cs : List Char) : StartsPlain (written cs) :=
  (Text.startsPlain_trimStart _).mono (Text.isPrefix_dropEndWhile _ _)

/-- The type without its arguments, between blanks. -/
theorem exists_written (cs : List Char) : ∃ blanks behind : List Char, (∀ c ∈ blanks, Text.isBlank c = true) ∧
    cs.takeWhile (· != '<') = blanks ++ written cs ++ behind := by
  obtain ⟨behind, hbehind⟩ :=
    Text.isPrefix_dropEndWhile Text.isBlank (Text.trimStart (cs.takeWhile (· != '<')))
  refine ⟨(cs.takeWhile (· != '<')).takeWhile Text.isBlank, behind, fun c hc => List.mem_takeWhile_imp hc, ?_⟩
  rw [List.append_assoc, written, Text.trim, hbehind, Text.trimStart, List.takeWhile_append_dropWhile]

theorem isInfix_normalizeChars_takeWhile (cs : List Char) : normalizeChars cs <:+: cs.takeWhile (· != '<') := by
  obtain ⟨blanks, behind, -, hparts⟩ := exists_written cs
  have hwritten : written cs <:+: cs.takeWhile (· != '<') := ⟨blanks, behind, hparts.symm⟩
  exact ((isPrefix_normalizeChars cs).isInfix.trans (isSuffix_dropFrom 0 _).isInfix).trans hwritten

theorem isInfix_normalizeChars (cs : List Char) : normalizeChars cs <:+: cs :=
  (isInfix_normalizeChars_takeWhile cs).trans (List.takeWhile_prefix _).isInfix

theorem stripped_normalizeChars (cs : List Char) : Stripped (normalizeChars cs) where
  no_arguments h := by
    have hmem := (isInfix_normalizeChars_takeWhile cs).subset h
    simpa using List.mem_takeWhile_imp hmem
  front := (startsPlain_dropFrom (startsPlain_written cs) 0).mono (isPrefix_normalizeChars cs)
  back c hc := by simpa using Text.eq_false_of_mem_getLast?_dropEndWhile hc

theorem written_eq_self (h : Stripped cs) : written cs = cs := by
  have hall : cs.takeWhile (· != '<') = cs := by
    rw [List.takeWhile_eq_self_iff]
    intro c hc
    rw [bne_iff_ne]
    rintro rfl
    exact h.no_arguments hc
  rw [written, hall, Text.trim, Text.trimStart_eq_self h.front]
  exact Text.dropEndWhile_eq_self fun c hc => (h.back c hc).2

/-- The texts that normalizing leaves alone. -/
theorem normalizeChars_eq_self_iff : normalizeChars cs = cs ↔ Stripped cs ∧ ¬ Qualified cs := by
  constructor
  · intro hself
    have hstripped : Stripped cs := hself ▸ stripped_normalizeChars cs
    refine ⟨hstripped, fun hqualified => ?_⟩
    obtain ⟨a, rest, hcs, hrest⟩ := hqualified.exists_text
    have hround : dropFrom 0 (written cs) = dropFrom a.next rest := by
      rw [written_eq_self hstripped, hcs, dropFrom_text_append (Nat.zero_le _) hrest]
    have hle := (isPrefix_normalizeChars cs).length_le.trans (hround ▸ (isSuffix_dropFrom a.next rest).length_le)
    have hpos := a.length_text_pos
    have hlength : cs.length = a.text.length + rest.length := by rw [hcs, List.length_append]
    rw [hself] at hle
    omega
  · rintro ⟨hstripped, hunqualified⟩
    have hround : dropFrom 0 (written cs) = cs := by
      rw [written_eq_self hstripped, dropFrom_bare ⟨hstripped.front, hunqualified⟩]
    rw [normalizeChars_eq, hround]
    exact Text.dropEndWhile_eq_self fun c hc => by simp [hstripped.back c hc]

/-- Qualifiers are written in front of a name, and one of them is late: it stands behind one that is removed after it,
or behind itself with blanks between. If only marks followed, the last qualifier would itself be the name. -/
def OutOfTurn (cs : List Char) : Prop :=
  ∃ (blanks : List Char) (before : List Qualifier) (a b : Qualifier) (rest : List Char),
    cs = blanks ++ (before ++ [a, b]).flatMap Qualifier.text ++ rest ∧ (∀ c ∈ blanks, Text.isBlank c = true) ∧
      a.Late b ∧ ∃ c ∈ rest.takeWhile (· != '<'), isMark c = false ∧ Text.isBlank c = false

/-- A qualifier ends in a blank, so a name must follow it where nothing ends in one. -/
theorem Stripped.exists_name {a : Qualifier} {rest : List Char} (h : Stripped (a.word ++ rest)) :
    ∃ c ∈ rest, isMark c = false ∧ Text.isBlank c = false := by
  cases hlast : rest.getLast? with
  | some c => exact ⟨c, List.mem_of_getLast? hlast, h.back c (by simp [List.getLast?_append, hlast])⟩
  | none =>
    have hword := getLast?_of_mem_qualifiers _ a.word_mem
    have hback := h.back ' ' (by simp [List.getLast?_append, hlast, hword])
    exact absurd hback.2 (by decide)

/-- If a qualifier is left, it is the one at which the round stopped. -/
theorem exists_late (h : Qualified (normalizeChars cs)) :
    ∃ (before : List Qualifier) (a b : Qualifier) (rest : List Char),
      written cs = (before ++ [a, b]).flatMap Qualifier.text ++ rest ∧ a.Late b ∧
        ∃ c ∈ rest, isMark c = false ∧ Text.isBlank c = false := by
  obtain ⟨run, core, hrun, hcore⟩ := exists_qualifiers (startsPlain_written cs)
  obtain ⟨q, hq, y, hy⟩ := h
  have hround : q ++ y <+: dropFrom 0 (run.flatMap Qualifier.text ++ core) := by
    rw [hy, ← hrun]
    exact isPrefix_normalizeChars cs
  rcases dropFrom_qualifiers hcore run 0 with hall | ⟨a, after, -, hlt, -⟩ | ⟨before, a, b, after, rfl, hlate, hstop⟩
  · rw [hall] at hround
    exact absurd ⟨q, hq, (List.prefix_append q y).trans hround⟩ hcore.unqualified
  · exact absurd hlt (Nat.not_lt_zero _)
  · rw [hstop, List.flatMap_cons, Qualifier.text, List.append_assoc, List.append_assoc] at hround
    obtain rfl := Qualifier.eq_word_of_prefix_append hq ((List.prefix_append q y).trans hround)
    rw [List.prefix_append_right_inj] at hround
    obtain ⟨c, hc, hname⟩ := Stripped.exists_name (hy.symm ▸ stripped_normalizeChars cs)
    refine ⟨before, a, b, after.flatMap Qualifier.text ++ core, ?_, hlate, c, ?_, hname⟩
    · rw [hrun]
      simp only [List.flatMap_append, List.flatMap_cons, List.flatMap_nil, List.append_nil, List.append_assoc]
    · rcases List.mem_append.mp (hround.subset hc) with hgap | hrest
      · simp [b.gap_blank c hgap] at hname
      · exact hrest

theorem outOfTurn_of_qualified (h : Qualified (normalizeChars cs)) : OutOfTurn cs := by
  obtain ⟨blanks, behind, hblanks, hparts⟩ := exists_written cs
  obtain ⟨before, a, b, rest, hwritten, hlate, c, hc, hname⟩ := exists_late h
  rw [hwritten, ← List.append_assoc, List.append_assoc] at hparts
  refine ⟨blanks, before, a, b, rest ++ behind ++ cs.dropWhile (· != '<'), ?_, hblanks, hlate, c, ?_, hname⟩
  · rw [← List.append_assoc, ← hparts, List.takeWhile_append_dropWhile]
  · have hkept : ∀ d ∈ rest ++ behind, (d != '<') = true := by
      intro d hd
      have hmem : d ∈ cs.takeWhile (· != '<') := by
        rw [hparts]
        exact List.mem_append_right _ hd
      exact List.mem_takeWhile_imp (p := fun d => d != '<') hmem
    rw [List.takeWhile_append_of_pos hkept]
    exact List.mem_append_left _ (List.mem_append_left _ hc)

theorem ne_of_isBlank {c : Char} (h : Text.isBlank c = true) : (c != '<') = true := by
  rw [bne_iff_ne]
  rintro rfl
  exact absurd h (by decide)

theorem ne_of_mem_text {a : Qualifier} {c : Char} (h : c ∈ a.text) : (c != '<') = true := by
  rcases List.mem_append.mp h with hword | hgap
  · rw [bne_iff_ne]
    rintro rfl
    exact no_arguments_of_mem_qualifiers _ a.word_mem hword
  · exact ne_of_isBlank (a.gap_blank c hgap)

theorem written_of_qualifiers {blanks rest : List Char} {c : Char} (hblanks : ∀ c ∈ blanks, Text.isBlank c = true)
    (before : List Qualifier) (a b : Qualifier) (hmem : c ∈ rest.takeWhile (· != '<')) (hc : Text.isBlank c = false) :
    written (blanks ++ (before ++ [a, b]).flatMap Qualifier.text ++ rest) =
      (before ++ [a, b]).flatMap Qualifier.text ++ Text.dropEndWhile Text.isBlank (rest.takeWhile (· != '<')) := by
  have hqualifiers : ∀ d ∈ (before ++ [a, b]).flatMap Qualifier.text, (d != '<') = true := by
    intro d hd
    obtain ⟨x, -, hx⟩ := List.mem_flatMap.mp hd
    exact ne_of_mem_text hx
  rw [written, List.append_assoc, List.takeWhile_append_of_pos fun d hd => ne_of_isBlank (hblanks d hd),
    List.takeWhile_append_of_pos hqualifiers, Text.trim,
    Text.trimStart_append hblanks (startsPlain_pair_append before a b _), Text.dropEndWhile_append hmem hc]

theorem qualified_of_outOfTurn (h : OutOfTurn cs) : Qualified (normalizeChars cs) := by
  obtain ⟨blanks, before, a, b, rest, rfl, hblanks, hlate, c, hmem, hmark, hblank⟩ := h
  obtain ⟨x, left, hround, hleft⟩ :=
    dropFrom_of_late hlate before (Text.dropEndWhile Text.isBlank (rest.takeWhile (· != '<'))) 0
  have hc : c ∈ x.gap ++ left := List.mem_append_right _ (hleft.subset (Text.mem_dropEndWhile hmem hblank))
  refine ⟨x.word, x.word_mem, ?_⟩
  rw [normalizeChars_eq, written_of_qualifiers hblanks before a b hmem hblank, hround, Qualifier.text,
    List.append_assoc, Text.dropEndWhile_append hc (by simp [hmark, hblank])]
  exact List.prefix_append _ _

theorem qualified_normalizeChars_iff : Qualified (normalizeChars cs) ↔ OutOfTurn cs :=
  ⟨outOfTurn_of_qualified, qualified_of_outOfTurn⟩

end Normal

@[simp] theorem toList_normalize (s : String) : (normalize s).toList = normalizeChars s.toList :=
  String.toList_ofList

theorem normalize_eq_self_iff {s : String} : normalize s = s ↔ normalizeChars s.toList = s.toList := by
  rw [← toList_normalize, String.toList_inj]

/-- The name that a type stands for is a part of its text without arguments, with neither blanks nor marks at its ends.
It has no qualifier in front, and is its own name, unless the qualifiers were written out of turn. -/
theorem normalize_normal (s : String) :
    (normalize s).toList <:+: s.toList ∧ Stripped (normalize s).toList ∧
      (Qualified (normalize s).toList ↔ OutOfTurn s.toList) ∧
      (normalize (normalize s) = normalize s ↔ ¬ OutOfTurn s.toList) := by
  rw [normalize_eq_self_iff, toList_normalize, normalizeChars_eq_self_iff, qualified_normalizeChars_iff]
  have hstripped := stripped_normalizeChars s.toList
  exact ⟨isInfix_normalizeChars _, hstripped, Iff.rfl, and_iff_right hstripped⟩

/-- Of two qualifiers out of turn one is left, and goes when the name is normalized again. -/
theorem normalize_late_qualifier :
    Qualified (normalize "volatile const int").toList ∧
      normalize (normalize "volatile const int") ≠ normalize "volatile const int" := by
  have h : normalize "volatile const int" = "const int" := by decide +kernel
  have hagain : normalize "const int" = "int" := by decide +kernel
  rw [h, hagain]
  exact ⟨⟨_, List.mem_cons_self, by decide⟩, by decide⟩

end TypeName
end NameResolution
