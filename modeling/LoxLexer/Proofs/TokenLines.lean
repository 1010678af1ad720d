import LoxLexer.Proofs.ByteCursor
import LoxLexer.Proofs.Lookahead

/-!
# Lines of tokens

A scan counts lines as it goes along, and a token gets the line that its lexeme begins on.  So its
line is one more than the number of line feeds in the source before its lexeme.  Only line feeds
count: from one token to a later one the line grows by those that lie between their beginnings, in a
string, in a comment or elsewhere.
-/

namespace LoxLexer

/-- Of two beginnings of a text the one with fewer bytes begins the other. -/
theorem exists_append_of_byteLength_le
    {first second rest after : List Char} (htext : first ++ rest = second ++ after)
    (hbytes : byteLength first ≤ byteLength second) :
    ∃ between, second = first ++ between := by
  rcases List.append_eq_append_iff.mp htext with ⟨between, hsecond, -⟩ | ⟨between, hfirst, -⟩
  · exact ⟨between, hsecond⟩
  · rw [hfirst] at hbytes
    rw [hfirst, eq_nil_of_byteLength_append_le hbytes]
    exact ⟨[], by simp⟩

namespace Segment

theorem line_of_token?
    {segment : Segment} {line : Nat} {token : Token}
    (htoken : segment.token? line = some token) : token.line = line := by
  cases segment <;> cases htoken <;> rfl

theorem pairwise_placedFrom (cursor : Cursor) (segments : List Segment) :
    (placedFrom cursor segments).Pairwise fun first second => first.stop ≤ second.start := by
  induction segments generalizing cursor with
  | nil => exact .nil
  | cons segment segments ih =>
      rw [placedFrom, List.pairwise_append]
      refine ⟨?_, ih _, ?_⟩
      · cases segment.token? cursor.line <;> simp
      · intro first hfirst second hsecond
        obtain ⟨token, -, rfl⟩ := Option.map_eq_some_iff.mp (Option.mem_toList.mp hfirst)
        obtain ⟨index, hindex⟩ := List.getElem?_of_mem hsecond
        obtain ⟨before, _, _, -, hstands⟩ := exists_of_getElem?_placedFrom hindex
        rw [hstands.start_eq]
        apply Nat.le_add_right

end Segment

open Segment

/-- The lexeme of a token is a piece of the source, and the pieces before it tell its place and its
line. -/
theorem exists_piece_of_mem_placedTokens
    (source : String) : ∀ placed ∈ placedTokens source,
      ∃ earlier piece later, LongestCut source.toList (earlier ++ piece :: later) ∧
        piece.text = placed.token.lexeme.toList ∧
        placed.start = byteLength (earlier.flatMap Piece.text) ∧
        placed.token.line = 1 + (earlier.flatMap Piece.text).count '\n' := by
  intro placed hplaced
  obtain ⟨index, hindex⟩ := List.getElem?_of_mem hplaced
  obtain ⟨before, segment, after, hcut, hstands⟩ := exists_of_getElem?_placedFrom hindex
  have htext : (before.map piece).flatMap Piece.text = before.flatMap chars := by
    rw [List.flatMap_map]
    rfl
  have hstart := hstands.start_eq
  have hline := line_of_token? hstands.token?_eq
  rw [Cursor.origin_advance_eq_move] at hline
  refine ⟨before.map piece, segment.piece, after.map piece, ?_, ?_, ?_, ?_⟩
  · apply longestCut_iff.mpr
    rw [hcut, List.map_append, List.map_cons]
  · exact (lexeme_of_token? hstands.token?_eq).symm
  · rw [htext, hstart]
    exact Nat.zero_add _
  · rw [htext, hline]
    rfl

theorem LongestCut.flatMap_text
    {source : List Char} {pieces : List Piece} (hcut : LongestCut source pieces) :
    pieces.flatMap Piece.text = source := by
  induction hcut with
  | nil => rfl
  | cons _ _ ih => rw [List.flatMap_cons, ih]

theorem line_of_mem_placedTokens
    {source : String} {placed : PlacedToken} (hplaced : placed ∈ placedTokens source) :
    ∃ before rest, source.toList = before ++ rest ∧ placed.start = byteLength before ∧
      placed.token.line = 1 + before.count '\n' := by
  obtain ⟨earlier, piece, later, hcut, -, hstart, hline⟩ :=
    exists_piece_of_mem_placedTokens source placed hplaced
  refine ⟨earlier.flatMap Piece.text, (piece :: later).flatMap Piece.text, ?_, hstart, hline⟩
  rw [← List.flatMap_append, hcut.flatMap_text]

/-- The lines of two tokens differ by the line feeds between the beginnings of their lexemes. -/
theorem pairwise_placedTokens (source : String) :
    (placedTokens source).Pairwise fun first second =>
      first.stop ≤ second.start ∧
      ∃ between, slice? source.toList first.start second.start = some between ∧
        second.token.line = first.token.line + between.count '\n' := by
  have hapart : (placedTokens source).Pairwise fun first second =>
      first.stop ≤ second.start := pairwise_placedFrom .origin _
  refine hapart.imp_of_mem fun {first second} hfirst hsecond hstop => ⟨hstop, ?_⟩
  obtain ⟨_, _, -, hbegin, hend⟩ := lexeme_of_mem_placedTokens source first hfirst
  obtain ⟨before, rest, hsource, hstart, hline⟩ := line_of_mem_placedTokens hfirst
  obtain ⟨upto, after, hlater, hnext, hcount⟩ := line_of_mem_placedTokens hsecond
  have hbytes : byteLength before ≤ byteLength upto := by
    rw [byteLength_append] at hend
    omega
  obtain ⟨between, rfl⟩ := exists_append_of_byteLength_le (hsource.symm.trans hlater) hbytes
  refine ⟨between, ?_, ?_⟩
  · apply slice?_eq_some_iff.mpr
    refine ⟨before, after, ?_, hstart, ?_⟩
    · rw [hlater, List.append_assoc]
    · rw [hnext, hstart, byteLength_append]
  · rw [hcount, hline, List.count_append, Nat.add_assoc]

/-- The line of a token is one more than the number of line feeds before its lexeme, and that of the
end of the source counts them all.  So lines never decrease, and what lies between two tokens takes
the second to another line by its line feeds only. -/
theorem token_lines (source : String) :
    (scan source).tokens =
      (placedTokens source).map PlacedToken.token ++
        [.endOfSource (1 + source.toList.count '\n')] ∧
    (∀ placed ∈ placedTokens source,
      ∃ earlier piece later, LongestCut source.toList (earlier ++ piece :: later) ∧
        piece.text = placed.token.lexeme.toList ∧
        placed.start = byteLength (earlier.flatMap Piece.text) ∧
        placed.token.line = 1 + (earlier.flatMap Piece.text).count '\n') ∧
    ((placedTokens source).Pairwise fun first second =>
      first.stop ≤ second.start ∧
      ∃ between, slice? source.toList first.start second.start = some between ∧
        second.token.line = first.token.line + between.count '\n') ∧
    (scan source).tokens.Pairwise fun first second => first.line ≤ second.line := by
  have htokens : (scan source).tokens =
      (placedTokens source).map PlacedToken.token ++
        [.endOfSource (1 + source.toList.count '\n')] := by
    rw [map_token_placedTokens, tokens_dropLast_scan, tokens_scan]
    rfl
  refine ⟨htokens, exists_piece_of_mem_placedTokens source, pairwise_placedTokens source, ?_⟩
  rw [htokens, List.pairwise_append, List.pairwise_map]
  refine ⟨?_, List.pairwise_singleton _ _, ?_⟩
  · apply (pairwise_placedTokens source).imp
    rintro first second ⟨-, between, -, hline⟩
    exact hline ▸ Nat.le_add_right _ _
  · intro token htoken last hlast
    obtain ⟨placed, hplaced, rfl⟩ := List.mem_map.mp htoken
    obtain ⟨before, rest, hsource, -, hline⟩ := line_of_mem_placedTokens hplaced
    rw [List.mem_singleton.mp hlast, hline, hsource, List.count_append]
    exact Nat.add_le_add_left (Nat.le_add_right _ _) 1

/-- A carriage return begins no line; a string lies on the line of its opening quote. -/
example : (scan "a\rb\r\n\"\n\n\"c // d\n\"\n").tokens.map Token.line = [1, 1, 2, 4, 6] := by
  decide +kernel

end LoxLexer
