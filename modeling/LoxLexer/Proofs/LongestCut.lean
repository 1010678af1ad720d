import LoxLexer.Proofs.ScanOutput
import LoxLexer.Proofs.TextClass

/-!
# Leftmost longest pieces

A source is cut into pieces from the left, each the longest beginning of what is left that belongs
to a class.  There is exactly one such cut, since the length of a piece determines its text and its
text determines its class; it is the one the scanner makes.

The tokens and the faults of a scan are read off the pieces: four classes stand for a token, whose
lexeme is the piece, and two for a fault.
-/

namespace LoxLexer

/-- A part of a source with the class it belongs to. -/
structure Piece where
  cls : TextClass
  text : List Char
  deriving DecidableEq, Repr

namespace Piece

/-- The piece belongs to its class, and no longer beginning of the same text belongs to any. -/
structure LongestBefore (rest : List Char) (piece : Piece) : Prop where
  belongs : piece.cls.Belongs piece.text rest
  longest : ∀ (cls : TextClass) (other after : List Char),
    other ++ after = piece.text ++ rest → cls.Belongs other after →
      other.length ≤ piece.text.length

/-! ## What a piece stands for -/

/-- The number that a text of digits, possibly with a point among them, denotes in the decimal
system, rounded to the nearest datum. -/
def decimalValue (text : List Char) : Binary64 :=
  let whole := text.takeWhile (· ≠ '.')
  let fraction := (text.dropWhile (· ≠ '.')).tail
  .ofRatio (Nat.ofDigitChars 10 (whole ++ fraction) 0) (Nat.pow 10 fraction.length)

def token? (line : Nat) (piece : Piece) : Option Token :=
  let lexeme := String.ofList piece.text
  match piece.cls with
  | .operator op => some ⟨.operator op, lexeme, none, line⟩
  | .number => some ⟨.number, lexeme, some (.number (decimalValue piece.text)), line⟩
  | .word =>
    let kind := ((Keyword.ofText? lexeme).map TokenKind.keyword).getD .identifier
    some ⟨kind, lexeme, none, line⟩
  | .closedString =>
    let value := String.ofList piece.text.tail.dropLast
    some ⟨.string, lexeme, some (.string value), line⟩
  | .blank | .comment | .openString | .stray => none

def fault? (start stop : Cursor) (piece : Piece) : Option Fault :=
  match piece.cls with
  | .openString => some ⟨.unterminatedString, stop.line, start.position⟩
  | .stray =>
    piece.text.head?.map fun c => ⟨.unexpectedCharacter c, start.line, start.position⟩
  | _ => none

/-- The tokens of pieces that begin at `cursor`. -/
def tokensFrom (cursor : Cursor) : List Piece → List Token
  | [] => []
  | piece :: pieces =>
    (piece.token? cursor.line).toList ++
      tokensFrom (cursor.advance piece.text) pieces

/-- The faults of pieces that begin at `cursor`. -/
def faultsFrom (cursor : Cursor) : List Piece → List Fault
  | [] => []
  | piece :: pieces =>
    (piece.fault? cursor (cursor.advance piece.text)).toList ++
      faultsFrom (cursor.advance piece.text) pieces

theorem kind_ne_endOfSource
    (cursor : Cursor) (pieces : List Piece) :
    ∀ token ∈ tokensFrom cursor pieces, token.kind ≠ .endOfSource := by
  induction pieces generalizing cursor with
  | nil => simp [tokensFrom]
  | cons piece pieces ih =>
      intro token htoken
      rcases List.mem_append.mp htoken with hhere | hlater
      · rw [Option.mem_toList] at hhere
        obtain ⟨cls, text⟩ := piece
        cases cls <;> cases hhere <;> try simp
        cases Keyword.ofText? (String.ofList text) <;> simp
      · exact ih _ token hlater

end Piece

/-- The pieces of a source, each the longest at its place. -/
inductive LongestCut : (source : List Char) → List Piece → Prop
  | nil : LongestCut [] []
  | cons {piece : Piece} {rest : List Char} {pieces : List Piece}
      (hlongest : piece.LongestBefore rest) (hcut : LongestCut rest pieces) :
      LongestCut (piece.text ++ rest) (piece :: pieces)

namespace Segment

def piece (segment : Segment) : Piece :=
  ⟨segment.textClass, segment.chars⟩

theorem longestBefore_piece
    {segment : Segment} {rest : List Char}
    (hlegal : segment.LegalBefore rest) (hmax : segment.MaximalBefore rest) :
    segment.piece.LongestBefore rest := by
  refine ⟨belongs_iff.mpr ⟨segment, rfl, rfl, hlegal⟩, ?_⟩
  intro cls other after htext hother
  obtain ⟨candidate, -, rfl, hcandidate⟩ := belongs_iff.mp hother
  obtain ⟨c, tail, hcons⟩ :=
    List.exists_cons_of_ne_nil (List.append_ne_nil_of_left_ne_nil hlegal.chars_ne_nil rest)
  have hlength := hcandidate.length_le_read (htext.trans hcons)
  rwa [read_eq_of_maximal hlegal hmax hcons] at hlength

theorem exists_maximal_of_longestBefore
    {piece : Piece} {rest : List Char} (hlongest : piece.LongestBefore rest) :
    ∃ segment : Segment, segment.piece = piece ∧ segment.LegalBefore rest ∧
      segment.MaximalBefore rest := by
  obtain ⟨segment, hcls, htext, hlegal⟩ := belongs_iff.mp hlongest.belongs
  refine ⟨segment, by rw [Segment.piece, hcls, htext], hlegal, ?_⟩
  by_contra hnot
  obtain ⟨longer, more, after, hmore, rfl, hlonger, hchars⟩ := exists_longer hlegal hnot
  have hle := hlongest.longest longer.textClass longer.chars after
    (by rw [hchars, htext, List.append_assoc])
    (belongs_iff.mpr ⟨longer, rfl, rfl, hlonger⟩)
  have hpos := List.length_pos_iff.mpr hmore
  rw [hchars, htext, List.length_append] at hle
  omega

theorem Fitted.longestCut
    {segments : List Segment} (hfitted : Fitted segments) :
    LongestCut (segments.flatMap chars) (segments.map piece) := by
  induction hfitted with
  | nil => exact .nil
  | cons hlegal hmax _ ih => exact .cons (longestBefore_piece hlegal hmax) ih

theorem exists_fitted_of_longestCut
    {text : List Char} {pieces : List Piece} (hcut : LongestCut text pieces) :
    ∃ segments, Fitted segments ∧ segments.flatMap chars = text ∧
      segments.map piece = pieces := by
  induction hcut with
  | nil => exact ⟨[], .nil, rfl, rfl⟩
  | cons hlongest _ ih =>
      obtain ⟨segments, hfitted, rfl, rfl⟩ := ih
      obtain ⟨segment, rfl, hlegal, hmax⟩ := exists_maximal_of_longestBefore hlongest
      exact ⟨segment :: segments, .cons hlegal hmax hfitted, rfl, rfl⟩

/-- The longest cut of a text consists of the pieces of the segments read. -/
theorem longestCut_iff
    {text : List Char} {pieces : List Piece} :
    LongestCut text pieces ↔ (cut text).map piece = pieces := by
  constructor
  · intro hcut
    obtain ⟨segments, hfitted, rfl, rfl⟩ := exists_fitted_of_longestCut hcut
    rw [hfitted.cut_flatMap_chars]
  · rintro rfl
    have hcut := (fitted_cut text).longestCut
    rwa [flatMap_chars_cut] at hcut

/-! ## Tokens and faults -/

theorem decimalValue_chars
    {numeral : Numeral} (hwell : numeral.WellFormed) :
    Piece.decimalValue numeral.chars = numeral.toBinary64 := by
  obtain ⟨whole, fraction⟩ := numeral
  have hpass : ∀ c ∈ whole, decide (c ≠ '.') = true := by
    apply passes_of_notMem
    intro hmem
    cases hwell.whole_digits '.' hmem
  cases fraction with
  | nil =>
      rw [Numeral.chars_nil, Piece.decimalValue, List.takeWhile_eq_self_iff.mpr hpass,
        List.dropWhile_eq_nil_iff.mpr hpass]
      rfl
  | cons digit digits =>
      have hstop : ∀ c ∈ ('.' :: digit :: digits).head?, decide (c ≠ '.') = false := by
        simp
      rw [Numeral.chars_cons, Piece.decimalValue, takeWhile_append_of_stop hpass hstop,
        dropWhile_append_of_stop hpass hstop]
      rfl

theorem token?_piece
    {segment : Segment} {rest : List Char} (hlegal : segment.LegalBefore rest)
    (line : Nat) : segment.piece.token? line = segment.token? line := by
  cases segment with
  | number numeral =>
      simp only [Piece.token?, Segment.piece, textClass, chars, token?,
        decimalValue_chars hlegal]
  | word text =>
      simp only [Piece.token?, Segment.piece, textClass, chars, token?, TokenKind.ofWord]
      cases Keyword.ofText? (String.ofList text) <;> rfl
  | string body =>
      simp [Piece.token?, Segment.piece, textClass, chars, token?]
  | _ => rfl

theorem fault?_piece
    (segment : Segment) (start stop : Cursor) :
    segment.piece.fault? start stop = segment.fault? start stop := by
  cases segment <;> rfl

theorem Fitted.tokensFrom_piece
    {segments : List Segment} (hfitted : Fitted segments) (cursor : Cursor) :
    Piece.tokensFrom cursor (segments.map piece) = tokensFrom cursor segments := by
  induction hfitted generalizing cursor with
  | nil => rfl
  | cons hlegal _ _ ih =>
      rw [List.map_cons, Piece.tokensFrom, token?_piece hlegal, ih]
      rfl

theorem faultsFrom_piece
    (segments : List Segment) (cursor : Cursor) :
    Piece.faultsFrom cursor (segments.map piece) = faultsFrom cursor segments := by
  induction segments generalizing cursor with
  | nil => rfl
  | cons segment segments ih =>
      rw [List.map_cons, Piece.faultsFrom, fault?_piece, ih]
      rfl

end Segment

/-- Every source has exactly one cut into longest pieces.  Its tokens, and one more for the end of
the source, are the tokens of the scan, and its faults are the faults of the scan. -/
theorem scan_eq_longestCut (source : String) :
    ∃ pieces : List Piece,
      LongestCut source.toList pieces ∧
      (∀ other, LongestCut source.toList other → other = pieces) ∧
      (scan source).tokens =
        Piece.tokensFrom .origin pieces ++
          [⟨.endOfSource, "", none, 1 + source.toList.count '\n'⟩] ∧
      (∀ token ∈ Piece.tokensFrom .origin pieces, token.kind ≠ .endOfSource) ∧
      (scan source).log.toList = Piece.faultsFrom .origin pieces := by
  refine ⟨(Segment.cut source.toList).map Segment.piece, Segment.longestCut_iff.mpr rfl,
    fun other hother => (Segment.longestCut_iff.mp hother).symm, ?_,
    Piece.kind_ne_endOfSource _ _, ?_⟩
  · rw [(Segment.fitted_cut source.toList).tokensFrom_piece, tokens_scan]
    rfl
  · rw [Segment.faultsFrom_piece, faults_scan]

end LoxLexer
