import LoxLexer.Proofs.LongestCut
import LoxLexer.Proofs.PrintedTokens

/-!
# Tokens scanned again

Tokens are written as a text by joining their lexemes with a blank.  A scan cuts off a lexeme that
its kind allows, whatever stands around it: a numeral before a point, a slash that begins no comment,
a string over several lines.  Laid out with blanks between them such lexemes are read as they are.
So any choice of the tokens of a source is given back by the scan of their lexemes.
-/

namespace LoxLexer

open Segment

def joined (separator : Char) (tokens : List Token) : String :=
  (String.singleton separator).intercalate (tokens.map Token.lexeme)

theorem joined_cons_cons
    (separator : Char) (first second : Token) (tokens : List Token) :
    (joined separator (first :: second :: tokens)).toList =
      first.lexeme.toList ++ separator :: (joined separator (second :: tokens)).toList := by
  simp [joined]

theorem joined_singleton (separator : Char) (token : Token) :
    joined separator [token] = token.lexeme := by
  simp [joined]

theorem joined_eq_of_content
    {first second : List Token}
    (hcontent : first.map Token.content = second.map Token.content) (separator : Char) :
    joined separator first = joined separator second := by
  have hlexemes := congrArg (List.map fun content => content.2.1) hcontent
  rw [List.map_map, List.map_map] at hlexemes
  exact congrArg (String.singleton separator).intercalate hlexemes

/-! ## Tokens as a scan makes them -/

theorem Token.Scanned.content_eq {token : Token} (hscanned : token.Scanned) :
    token.content =
      (token.kind, token.lexeme, token.kind.literal? token.lexeme.toList) := by
  rw [content, hscanned.literal_eq]

/-- The lexeme of a token for a word spells its kind, so a reserved one is found in the table. -/
theorem Token.Scanned.isKeyword_iff {token : Token} (hscanned : token.Scanned) :
    token.isKeyword = true ↔ ∃ reserved, token.kind = .keyword reserved := by
  constructor
  · intro hkeyword
    unfold isKeyword at hkeyword
    split at hkeyword
    · next reserved _ => exact ⟨reserved, of_decide_eq_true hkeyword⟩
    · cases hkeyword
  · rintro ⟨reserved, hkind⟩
    have hlexeme : token.lexeme = reserved.text := by
      apply String.toList_injective
      rcases hscanned.shows with hallows | ⟨hend, -⟩
      · rwa [hkind] at hallows
      · rw [hkind] at hend
        cases hend
    simp [isKeyword, hlexeme, Keyword.ofText?_text, hkind]

theorem Segment.Fitted.allows
    {segments : List Segment} (hfitted : Fitted segments) (cursor : Cursor) :
    ∀ token ∈ tokensFrom cursor segments, token.kind.Allows token.lexeme.toList := by
  intro token htoken
  rcases (hfitted.scanned cursor token htoken).shows with hallows | ⟨hend, -⟩
  · exact hallows
  · rw [← hfitted.tokensFrom_piece] at htoken
    exact (Piece.kind_ne_endOfSource _ _ token htoken hend).elim

/-! ## The layout of joined lexemes -/

/-- The lexemes are laid out with the separator between any two, and nothing behind the last. -/
theorem exists_spaced
    {separator : Char} (hseparator : isBlank separator = true) {tokens : List Token}
    (hallows : ∀ token ∈ tokens, token.kind.Allows token.lexeme.toList) :
    ∃ items : List Spaced,
      items.flatMap Spaced.written = (joined separator tokens).toList ∧
      (items.map fun item => (item.kind, String.ofList item.text)) =
        tokens.map (fun token => (token.kind, token.lexeme)) ∧
      ∀ item ∈ items.dropLast, item.gap.val ≠ [] := by
  induction tokens with
  | nil => exact ⟨[], rfl, rfl, by simp⟩
  | cons token tokens ih =>
      rw [List.forall_mem_cons] at hallows
      let lexeme : Lexeme := ⟨token.kind, token.lexeme.toList, hallows.1⟩
      cases tokens with
      | nil =>
          refine ⟨[⟨lexeme, ⟨[], by simp⟩⟩], ?_, ?_, by simp⟩
          · simp [Spaced.written, joined_singleton, lexeme]
          · simp [lexeme]
      | cons next later =>
          obtain ⟨items, hwritten, hshapes, hgaps⟩ := ih hallows.2
          have hblank : ∀ c ∈ [separator], c ∈ [' ', '\t', '\r', '\n'] := by
            simpa [isBlank, or_assoc] using hseparator
          have hne : items ≠ [] := by
            rintro rfl
            cases hshapes
          refine ⟨⟨lexeme, ⟨[separator], hblank⟩⟩ :: items, ?_, ?_, ?_⟩
          · rw [List.flatMap_cons, hwritten, joined_cons_cons]
            simp [Spaced.written, lexeme]
          · rw [List.map_cons, hshapes]
            simp [lexeme]
          · rw [List.dropLast_cons_of_ne_nil hne, List.forall_mem_cons]
            exact ⟨by simp, hgaps⟩

theorem scan_joined
    {separator : Char} (hseparator : isBlank separator = true) {tokens : List Token}
    (hallows : ∀ token ∈ tokens, token.kind.Allows token.lexeme.toList)
    (hscanned : ∀ token ∈ tokens, token.Scanned) :
    (scan (joined separator tokens)).log.toList = [] ∧
    (scan (joined separator tokens)).tokens.map Token.content =
      tokens.map Token.content ++ [(.endOfSource, "", none)] := by
  obtain ⟨items, hwritten, hshapes, hgaps⟩ := exists_spaced hseparator hallows
  have hrecovered : Recovered ⟨[], by simp⟩ items := by
    rw [recovered_iff_fitted, layoutSegments, Gap.fitted_segments_append_iff,
      Spaced.fitted_items_iff]
    exact not_runsTogether_of_gaps hgaps
  have htext : String.ofList (layout ⟨[], by simp⟩ items) = joined separator tokens := by
    rw [layout, List.nil_append, hwritten, String.ofList_toList]
  obtain ⟨hfaults, hagain⟩ := hrecovered
  rw [htext] at hfaults
  rw [htext, hshapes] at hagain
  refine ⟨hfaults, ?_⟩
  -- the value of a token is that of its lexeme, so the kinds and the lexemes are enough
  have hcontents : ∀ {list : List Token}, (∀ token ∈ list, token.Scanned) →
      list.map Token.content =
        (list.map fun token => (token.kind, token.lexeme)).map
          (fun shape => (shape.1, shape.2, shape.1.literal? shape.2.toList)) := by
    intro list hlist
    rw [List.map_map]
    exact List.map_congr_left fun token htoken => (hlist token htoken).content_eq
  rw [hcontents (scanned_of_mem_tokens _), hagain, List.map_append, hcontents hscanned]
  rfl

/-- Whatever is kept of the tokens of a source, the scan of their lexemes, joined by a blank, has no
faults and the same tokens; joining those again gives the same scan again.  In particular a lexeme
on its own gives back its token.  A token is a keyword just if its kind is reserved. -/
theorem scan_joined_tokens
    {source : String} {kept : List Token} (hkept : kept.Sublist (scan source).tokens.dropLast)
    {separator : Char} (hseparator : isBlank separator = true) :
    let again := scan (joined separator kept)
    again.log.toList = [] ∧
    again.tokens.map Token.content =
      kept.map Token.content ++ [(.endOfSource, "", none)] ∧
    scan (joined separator again.tokens.dropLast) = again ∧
    (∀ token ∈ kept, (scan token.lexeme).log.toList = [] ∧
      (scan token.lexeme).tokens.map Token.content =
        [token.content, (.endOfSource, "", none)]) ∧
    ∀ token ∈ kept ++ again.tokens,
      token.isKeyword = true ↔ ∃ reserved, token.kind = .keyword reserved := by
  rw [tokens_dropLast_scan] at hkept
  have hallows : ∀ token ∈ kept, token.kind.Allows token.lexeme.toList :=
    fun token htoken => (fitted_cut _).allows _ token (hkept.subset htoken)
  have hscanned : ∀ token ∈ kept, token.Scanned :=
    fun token htoken => (fitted_cut _).scanned _ token (hkept.subset htoken)
  obtain ⟨hfaults, hcontents⟩ := scan_joined hseparator hallows hscanned
  intro again
  refine ⟨hfaults, hcontents, ?_, ?_, ?_⟩
  · have hdropped := congrArg List.dropLast hcontents
    rw [List.dropLast_concat, ← List.map_dropLast] at hdropped
    rw [joined_eq_of_content hdropped]
  · intro token htoken
    have hsingle := scan_joined hseparator
      (List.forall_mem_singleton.mpr (hallows token htoken))
      (List.forall_mem_singleton.mpr (hscanned token htoken))
    rwa [joined_singleton] at hsingle
  · intro token htoken
    apply Token.Scanned.isKeyword_iff
    rcases List.mem_append.mp htoken with hhere | hagain
    · exact hscanned token hhere
    · exact scanned_of_mem_tokens _ token hagain

/-- A numeral that was cut off before a point, a string over two lines, and a keyword behind a slash,
each put on lines of its own. -/
theorem scan_joined_tokens_without_point :
    let kept := (scan "é1.\"a\nb\"/class").tokens.dropLast.filter (·.lexeme ≠ ".")
    let again := scan (joined '\n' kept)
    joined '\n' kept = "1\n\"a\nb\"\n/\nclass" ∧
    again.log.toList = [] ∧
    again.tokens.map Token.content =
      kept.map Token.content ++ [(.endOfSource, "", none)] := by
  intro kept again
  have hkept : kept.Sublist (scan "é1.\"a\nb\"/class").tokens.dropLast :=
    List.filter_sublist
  have hseparator : isBlank '\n' = true := rfl
  obtain ⟨hfaults, hcontents, -⟩ := scan_joined_tokens hkept hseparator
  have htext : joined '\n' kept = "1\n\"a\nb\"\n/\nclass" := by
    decide +kernel
  exact ⟨htext, hfaults, hcontents⟩

end LoxLexer
