import LoxLexer.Proofs.MaximalSegment

/-!
# Classes of texts

The classes of texts that a source consists of, told by the characters of a text alone.  Only an
open string looks at what follows it, since it reaches to the end of the source, and only a stray
character is told by what it is not: it begins no text of the other classes.

`belongs_iff` finds these classes again in the legal segments.
-/

namespace LoxLexer

/-- A text that matches `[0-9]+(\.[0-9]+)?`. -/
def IsNumber (text : List Char) : Prop :=
  ∃ whole, whole ≠ [] ∧ (∀ c ∈ whole, c.isDigit = true) ∧
    (text = whole ∨
      ∃ fraction, fraction ≠ [] ∧ (∀ c ∈ fraction, c.isDigit = true) ∧
        text = whole ++ '.' :: fraction)

/-- A text that matches `[A-Za-z_][A-Za-z0-9_]*`. -/
def IsWord (text : List Char) : Prop :=
  ∃ c tail, text = c :: tail ∧ (c.isAlpha = true ∨ c = '_') ∧
    ∀ d ∈ tail, d.isAlpha = true ∨ d.isDigit = true ∨ d = '_'

inductive TextClass where
  | blank | comment | operator (op : Operator) | number | word
  | closedString | openString | stray
  deriving DecidableEq, Repr

namespace TextClass

/-- The texts of all classes but the last; `rest` is what follows in the source. -/
inductive Regular : TextClass → (text rest : List Char) → Prop
  | blank {c : Char} {rest : List Char}
      (hc : c ∈ [' ', '\t', '\r', '\n']) : Regular .blank [c] rest
  | comment {body rest : List Char}
      (hbody : '\n' ∉ body) : Regular .comment ('/' :: '/' :: body) rest
  | operator (op : Operator) {rest : List Char} :
      Regular (.operator op) op.chars rest
  | number {text rest : List Char}
      (htext : IsNumber text) : Regular .number text rest
  | word {text rest : List Char}
      (htext : IsWord text) : Regular .word text rest
  | closedString {body rest : List Char}
      (hbody : '"' ∉ body) : Regular .closedString ('"' :: body ++ ['"']) rest
  | openString {body : List Char}
      (hbody : '"' ∉ body) : Regular .openString ('"' :: body) []

inductive Belongs : TextClass → (text rest : List Char) → Prop
  | regular {cls : TextClass} {text rest : List Char}
      (hregular : Regular cls text rest) : Belongs cls text rest
  | stray {c : Char} {rest : List Char}
      (hnone : ∀ cls text after, Regular cls text after → text.head? ≠ some c) :
      Belongs .stray [c] rest

end TextClass

theorem isWordStart_iff {c : Char} :
    isWordStart c = true ↔ c.isAlpha = true ∨ c = '_' := by
  simp [isWordStart]

theorem isWordPart_iff {c : Char} :
    isWordPart c = true ↔ c.isAlpha = true ∨ c.isDigit = true ∨ c = '_' := by
  simp [isWordPart, Char.isAlphanum, or_assoc]

theorem isWord_iff {text : List Char} :
    IsWord text ↔
      ∃ c tail, text = c :: tail ∧ isWordStart c = true ∧
        ∀ d ∈ tail, isWordPart d = true := by
  simp only [IsWord, isWordStart_iff, isWordPart_iff]

theorem isNumber_iff {text : List Char} :
    IsNumber text ↔ ∃ numeral : Numeral, numeral.WellFormed ∧ numeral.chars = text := by
  constructor
  · rintro ⟨whole, hne, hwhole, rfl | ⟨fraction, hfraction, hdigits, rfl⟩⟩
    · exact ⟨⟨text, []⟩, ⟨hne, hwhole, by simp⟩, rfl⟩
    · obtain ⟨d, digits, rfl⟩ := List.exists_cons_of_ne_nil hfraction
      exact ⟨⟨whole, d :: digits⟩, ⟨hne, hwhole, hdigits⟩, rfl⟩
  · rintro ⟨⟨whole, fraction⟩, hwell, rfl⟩
    refine ⟨whole, hwell.whole_ne_nil, hwell.whole_digits, ?_⟩
    cases fraction with
    | nil => exact .inl rfl
    | cons d digits =>
        exact .inr ⟨d :: digits, by simp, hwell.fraction_digits, rfl⟩

theorem IsNumber.notMem_of_isBlank
    {text : List Char} (htext : IsNumber text) {c : Char} (hc : isBlank c = true) : c ∉ text := by
  have hdigits : ∀ digits : List Char, (∀ d ∈ digits, d.isDigit = true) → c ∉ digits := by
    intro digits hdigits hmem
    rw [isBlank_eq_false_of_isWordPart (isWordPart_of_isDigit (hdigits c hmem))] at hc
    cases hc
  obtain ⟨whole, -, hwhole, rfl | ⟨fraction, -, hfraction, rfl⟩⟩ := htext
  · exact hdigits text hwhole
  · have hpoint : c ≠ '.' := by
      rintro rfl
      cases hc
    simp [hdigits whole hwhole, hdigits fraction hfraction, hpoint]

theorem IsWord.notMem_of_isBlank
    {text : List Char} (htext : IsWord text) {c : Char} (hc : isBlank c = true) : c ∉ text := by
  obtain ⟨d, tail, rfl, hstart, htail⟩ := isWord_iff.mp htext
  have hparts : ∀ e ∈ d :: tail, isWordPart e = true :=
    List.forall_mem_cons.mpr ⟨isWordPart_of_isWordStart hstart, htail⟩
  intro hmem
  rw [isBlank_eq_false_of_isWordPart (hparts c hmem)] at hc
  cases hc

/-! ## The class of a segment -/

namespace Segment

def textClass : Segment → TextClass
  | .blank _ => .blank
  | .comment _ => .comment
  | .operator op => .operator op
  | .number _ => .number
  | .word _ => .word
  | .string _ => .closedString
  | .openString _ => .openString
  | .stray _ => .stray

theorem exists_of_regular
    {cls : TextClass} {text rest : List Char} (hregular : cls.Regular text rest) :
    ∃ segment : Segment, segment.textClass = cls ∧ segment.chars = text ∧
      segment.LegalBefore rest := by
  cases hregular with
  | @blank c rest hc =>
      exact ⟨.blank c, rfl, rfl, by simpa [LegalBefore, isBlank, or_assoc] using hc⟩
  | @comment body rest hbody => exact ⟨.comment body, rfl, rfl, hbody⟩
  | operator op => exact ⟨.operator op, rfl, rfl, trivial⟩
  | number htext =>
      obtain ⟨numeral, hwell, hchars⟩ := isNumber_iff.mp htext
      exact ⟨.number numeral, rfl, hchars, hwell⟩
  | word htext => exact ⟨.word text, rfl, rfl, isWord_iff.mp htext⟩
  | @closedString body rest hbody => exact ⟨.string body, rfl, rfl, hbody⟩
  | @openString body hbody => exact ⟨.openString body, rfl, rfl, hbody, rfl⟩

theorem regular_of_legal
    {segment : Segment} {rest : List Char} (hlegal : segment.LegalBefore rest)
    (hstray : segment.textClass ≠ .stray) :
    segment.textClass.Regular segment.chars rest := by
  cases segment with
  | blank c => exact .blank (by simpa [LegalBefore, isBlank, or_assoc] using hlegal)
  | comment body => exact .comment hlegal
  | operator op => exact .operator op
  | number numeral => exact .number (isNumber_iff.mpr ⟨numeral, hlegal, rfl⟩)
  | word text => exact .word (isWord_iff.mpr hlegal)
  | string body => exact .closedString hlegal
  | openString body =>
      obtain ⟨hbody, rfl⟩ := hlegal
      exact .openString hbody
  | stray c => exact (hstray rfl).elim

/-- A stray character is one that begins no regular text. -/
theorem isStray_iff {c : Char} :
    IsStray c ↔
      ∀ cls text rest, TextClass.Regular cls text rest → text.head? ≠ some c := by
  constructor
  · intro hstray cls text rest hregular hhead
    obtain ⟨segment, hcls, rfl, hlegal⟩ := exists_of_regular hregular
    obtain ⟨tail, hchars⟩ := List.head?_eq_some_iff.mp hhead
    -- at the end of a source the regular text would be read in place of the stray character
    have hread : read c tail = (segment, []) :=
      read_eq_of_maximal hlegal.toEnd (maximalBefore_nil segment) (by simpa using hchars)
    rw [read_of_isStray hstray] at hread
    cases hread
    cases hcls
    cases hregular
  · intro hnone
    rcases beginning_cases c [] with
      hblank | ⟨-, hslash⟩ | rfl | hdigit | hword | ⟨op, after, hread, -⟩ | hstray
    · have hlegal : (Segment.blank c).LegalBefore [] := hblank
      exact (hnone _ _ [] (regular_of_legal hlegal nofun) rfl).elim
    · cases hslash
    · have hempty : '"' ∉ ([] : List Char) := by simp
      exact (hnone _ _ _ (.openString hempty) rfl).elim
    · have hnumber : IsNumber [c] := ⟨[c], by simp, by simpa using hdigit, .inl rfl⟩
      exact (hnone _ _ [] (.number hnumber) rfl).elim
    · have hname : IsWord [c] := isWord_iff.mpr ⟨c, [], rfl, hword, by simp⟩
      exact (hnone _ _ [] (.word hname) rfl).elim
    · have hchars := congrArg List.head? (Operator.chars_append_of_read? hread)
      rw [List.head?_append_of_ne_nil _ op.chars_ne_nil] at hchars
      exact (hnone _ _ [] (.operator op) hchars).elim
    · exact hstray

theorem belongs_iff
    {cls : TextClass} {text rest : List Char} :
    cls.Belongs text rest ↔
      ∃ segment : Segment, segment.textClass = cls ∧ segment.chars = text ∧
        segment.LegalBefore rest := by
  constructor
  · intro hbelongs
    cases hbelongs with
    | regular hregular => exact exists_of_regular hregular
    | @stray c rest hnone => exact ⟨.stray c, rfl, rfl, isStray_iff.mpr hnone⟩
  · rintro ⟨segment, rfl, rfl, hlegal⟩
    by_cases hstray : segment.textClass = .stray
    · cases segment <;> cases hstray
      exact .stray (isStray_iff.mp hlegal)
    · exact .regular (regular_of_legal hlegal hstray)

end Segment

end LoxLexer
