import LoxLexer.Proofs.SessionOutput
import LoxLexer.Proofs.TokenLayout

/-!
# Printed tokens

Printing tokens escapes nothing, so a string may spread over many lines and look like other tokens.
What a scan prints can be read back all the same.  The name of the kind ends at the first blank.  A
lexeme without quotes ends at the next blank, since a scan puts none inside, and one with quotes ends
at the next quote.  The value is that of the lexeme and need not be read at all.
-/

namespace LoxLexer

open Segment

/-! ## Tokens as a scan makes them -/

/-- A lexeme of the kind, or the empty text at the end of a source. -/
def TokenKind.Shows (kind : TokenKind) (text : List Char) : Prop :=
  kind.Allows text ∨ kind = .endOfSource ∧ text = []

/-- The value of a lexeme of the kind. -/
def TokenKind.literal? (text : List Char) : TokenKind → Option Literal
  | .number => some (.number (Numeral.read text).1.toBinary64)
  | .string => some (.string (String.ofList text.tail.dropLast))
  | .operator _ | .keyword _ | .identifier | .endOfSource => none

structure Token.Scanned (token : Token) : Prop where
  shows : token.kind.Shows token.lexeme.toList
  literal_eq : token.literal = token.kind.literal? token.lexeme.toList

theorem TokenKind.allows_ofWord
    {text : List Char} (htext : LoxLexer.IsWord text) :
    (ofWord (String.ofList text)).Allows text := by
  unfold ofWord
  split
  · next reserved hword =>
    rw [Allows, Keyword.text_of_ofText? hword, String.toList_ofList]
  · next hnone =>
    refine ⟨htext, ?_⟩
    rintro reserved rfl
    rw [String.ofList_toList, Keyword.ofText?_text] at hnone
    cases hnone

theorem TokenKind.literal?_ofWord (word : String) (text : List Char) :
    (ofWord word).literal? text = none := by
  unfold ofWord
  split <;> rfl

theorem Segment.LegalBefore.scanned
    {segment : Segment} {rest : List Char} (hlegal : segment.LegalBefore rest)
    {line : Nat} {token : Token} (htoken : segment.token? line = some token) : token.Scanned := by
  cases segment with
  | operator op =>
      cases htoken
      exact ⟨.inl (String.toList_ofList ..), rfl⟩
  | number numeral =>
      cases htoken
      constructor
      · exact .inl (isNumber_iff.mpr ⟨numeral, hlegal, (String.toList_ofList ..).symm⟩)
      · simp [TokenKind.literal?, Numeral.read_chars hlegal]
  | word text =>
      cases htoken
      constructor
      · simpa using .inl (TokenKind.allows_ofWord (isWord_iff.mpr hlegal))
      · exact (TokenKind.literal?_ofWord _ _).symm
  | string body =>
      cases htoken
      exact ⟨.inl ⟨body, hlegal, String.toList_ofList ..⟩, by simp [TokenKind.literal?]⟩
  | blank | comment | openString | stray => cases htoken

theorem Segment.Fitted.scanned
    {segments : List Segment} (hfitted : Fitted segments) (cursor : Cursor) :
    ∀ token ∈ tokensFrom cursor segments, token.Scanned := by
  induction hfitted generalizing cursor with
  | nil => simp
  | cons hlegal _ _ ih =>
      intro token htoken
      rw [tokensFrom_cons] at htoken
      rcases List.mem_append.mp htoken with hhere | hlater
      · exact hlegal.scanned (Option.mem_toList.mp hhere)
      · exact ih _ token hlater

theorem scanned_of_mem_tokens (source : String) :
    ∀ token ∈ (scan source).tokens, token.Scanned := by
  intro token htoken
  rw [tokens_scan] at htoken
  rcases List.mem_append.mp htoken with hsource | hend
  · exact (fitted_cut _).scanned _ token hsource
  · obtain rfl := List.mem_singleton.mp hend
    exact ⟨.inr ⟨rfl, rfl⟩, rfl⟩

/-! ## Reading one token back -/

/-- A text that ends at its first `stop` can be read back. -/
theorem append_stop_inj
    {stop : Char} {text other rest after : List Char} (htext : stop ∉ text)
    (hother : stop ∉ other) (heq : text ++ stop :: rest = other ++ stop :: after) :
    text = other ∧ rest = after := by
  have hstop : ∀ {more : List Char}, ∀ c ∈ (stop :: more).head?, decide (c ≠ stop) = false := by
    simp
  have hsame := congrArg (List.takeWhile (· ≠ stop)) heq
  rw [takeWhile_append_of_stop (passes_of_notMem htext) hstop,
    takeWhile_append_of_stop (passes_of_notMem hother) hstop] at hsame
  subst hsame
  exact ⟨rfl, (List.cons.inj (List.append_cancel_left heq)).2⟩

namespace TokenKind

theorem name_injective {first second : TokenKind} (hname : first.name = second.name) :
    first = second := by
  have hkind := ofName?_name first
  rw [hname, ofName?_name] at hkind
  exact (Option.some.inj hkind).symm

theorem blank_notMem_name (kind : TokenKind) : ' ' ∉ kind.name.toList := by
  cases kind with
  | operator op => cases op <;> decide +kernel
  | keyword reserved => cases reserved <;> decide +kernel
  | string | number | identifier | endOfSource => decide +kernel

theorem Shows.blank_notMem
    {kind : TokenKind} {text : List Char} (hshows : kind.Shows text) (hkind : kind ≠ .string) :
    ' ' ∉ text := by
  rcases hshows with hallows | ⟨-, rfl⟩
  · cases kind with
    | operator op =>
        obtain rfl : text = op.chars := hallows
        cases op <;> decide
    | keyword reserved =>
        obtain rfl : text = reserved.text.toList := hallows
        exact reserved.isWord_text.notMem_of_isBlank rfl
    | identifier => exact hallows.1.notMem_of_isBlank rfl
    | number => exact hallows.notMem_of_isBlank rfl
    | string => exact (hkind rfl).elim
    | endOfSource => exact hallows.elim
  · exact List.not_mem_nil

theorem Shows.quoted {text : List Char} (hshows : TokenKind.string.Shows text) :
    ∃ body, '"' ∉ body ∧ text = '"' :: body ++ ['"'] := by
  rcases hshows with hallows | ⟨hkind, -⟩
  · exact hallows
  · cases hkind

theorem Shows.append_inj
    {kind : TokenKind} {text other : List Char} (htext : kind.Shows text)
    (hother : kind.Shows other) {rest after : List Char}
    (heq : text ++ ' ' :: rest = other ++ ' ' :: after) : text = other ∧ rest = after := by
  by_cases hkind : kind = .string
  · subst hkind
    obtain ⟨body, hbody, rfl⟩ := htext.quoted
    obtain ⟨content, hcontent, rfl⟩ := hother.quoted
    -- blanks inside do not matter here, since the string ends at its next quote
    have hquoted : body ++ '"' :: ' ' :: rest = content ++ '"' :: ' ' :: after := by
      simpa using heq
    obtain ⟨rfl, htail⟩ := append_stop_inj hbody hcontent hquoted
    exact ⟨rfl, (List.cons.inj htail).2⟩
  · exact append_stop_inj (htext.blank_notMem hkind) (hother.blank_notMem hkind) heq

end TokenKind

namespace Token

/-- All that is printed of a token. -/
def content (token : Token) : TokenKind × String × Option Literal :=
  (token.kind, token.lexeme, token.literal)

def valueText (token : Token) : List Char :=
  ((token.literal.map Literal.text).getD "").toList

theorem toList_text (token : Token) :
    token.text.toList =
      token.kind.name.toList ++ ' ' :: (token.lexeme.toList ++ ' ' :: token.valueText) := by
  simp [text, valueText]

/-- A printed token can be read back, whatever is printed behind it. -/
theorem Scanned.text_append_inj
    {first second : Token} (hfirst : first.Scanned) (hsecond : second.Scanned)
    {rest after : List Char}
    (heq : first.text.toList ++ '\n' :: rest = second.text.toList ++ '\n' :: after) :
    first.content = second.content ∧ rest = after := by
  obtain ⟨kind, lexeme, literal, line⟩ := first
  obtain ⟨otherKind, otherLexeme, otherLiteral, otherLine⟩ := second
  simp only [toList_text, List.append_assoc, List.cons_append] at heq
  obtain ⟨hname, hlexemes⟩ :=
    append_stop_inj (TokenKind.blank_notMem_name _) (TokenKind.blank_notMem_name _) heq
  obtain rfl : kind = otherKind :=
    TokenKind.name_injective (String.toList_injective hname)
  obtain ⟨hlexeme, hvalues⟩ := hfirst.shows.append_inj hsecond.shows hlexemes
  obtain rfl : lexeme = otherLexeme := String.toList_injective hlexeme
  -- the values are equal already, so it does not matter where they end
  obtain rfl : literal = otherLiteral := hfirst.literal_eq.trans hsecond.literal_eq.symm
  exact ⟨rfl, (List.cons.inj (List.append_cancel_left hvalues)).2⟩

end Token

/-! ## Reading a stream back -/

theorem toList_tokenLines_cons (token : Token) (tokens : List Token) :
    (tokenLines (token :: tokens)).toList =
      token.text.toList ++ '\n' :: (tokenLines tokens).toList := by
  simp [tokenLines]

theorem content_eq_of_tokenLines_eq
    {first second : List Token} (hfirst : ∀ token ∈ first, token.Scanned)
    (hsecond : ∀ token ∈ second, token.Scanned) (htext : tokenLines first = tokenLines second) :
    first.map Token.content = second.map Token.content := by
  replace htext := congrArg String.toList htext
  induction first generalizing second with
  | nil =>
      cases second with
      | nil => rfl
      | cons other second =>
          rw [toList_tokenLines_cons] at htext
          simp at htext
  | cons token first ih =>
      cases second with
      | nil =>
          rw [toList_tokenLines_cons] at htext
          simp at htext
      | cons other second =>
          rw [toList_tokenLines_cons, toList_tokenLines_cons] at htext
          rw [List.forall_mem_cons] at hfirst hsecond
          obtain ⟨hcontent, hrest⟩ := hfirst.1.text_append_inj hsecond.1 htext
          have hlater := ih hfirst.2 hsecond.2 hrest
          rw [List.map_cons, List.map_cons, hcontent, hlater]

/-- Two sources whose tokens are printed alike have the same tokens but for their lines, and what a
file prints is just its tokens. -/
theorem printed_tokens_unambiguous :
    (∀ first second : String,
      tokenLines (scan first).tokens = tokenLines (scan second).tokens →
        (scan first).tokens.map Token.content = (scan second).tokens.map Token.content) ∧
    (∀ {arguments : List String} {path : String},
      Invocation.parse arguments = .ok (.scan ⟨false, false⟩ (some path)) →
      ∀ {read : String → Except ReadFailure ByteArray} {text : String},
        read path = .ok text.toUTF8 →
        ∀ (input : ByteArray) (elapsed : String),
          (runSession arguments read input elapsed).stdout = tokenLines (scan text).tokens) := by
  constructor
  · intro first second htext
    exact content_eq_of_tokenLines_eq (scanned_of_mem_tokens first)
      (scanned_of_mem_tokens second) htext
  · intro arguments path harguments read text htext input elapsed
    rw [runSession_file harguments htext, ofReport_plain]
    simp [printed]

/-- A string that looks like the tokens behind it is told from them. -/
theorem printed_tokens_unambiguous_imitation :
    (scan "\"\nEOF  \n\" x // 1").tokens.map Token.content =
      (scan "\"\nEOF  \n\"\n\tx").tokens.map Token.content := by
  apply printed_tokens_unambiguous.1
  decide +kernel

/-- Tokens that no scan makes can be printed alike. -/
example : tokenLines [⟨.identifier, "a b", none, 1⟩] =
    tokenLines [⟨.identifier, "a", some (.string "b "), 1⟩] := by
  decide +kernel

end LoxLexer
