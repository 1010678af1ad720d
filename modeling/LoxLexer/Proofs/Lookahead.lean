import LoxLexer.Proofs.Concatenation
import LoxLexer.Proofs.FaultAutomaton
import LoxLexer.Proofs.TokenLayout

/-!
# Bounded lookahead

What has been read up to two bytes before the end of a text stays read, whatever the text goes on
with.  Reading looks at one character behind a segment, and behind a numeral without a fraction at
two, of which the first is a point.  So the text behind a segment settles it unless that text is
empty or a point alone, and those are shorter than two bytes.

No such bound is needed for stray characters: the automaton for faults emits them on its way, before
it sees what comes next.
-/

namespace LoxLexer

open Segment

/-- A token with the positions at which its text begins and ends. -/
structure PlacedToken where
  token : Token
  start : Nat
  stop : Nat
  deriving DecidableEq, Repr

namespace Segment

/-- The tokens of segments that begin at `cursor`, with their places. -/
def placedFrom (cursor : Cursor) : List Segment → List PlacedToken
  | [] => []
  | segment :: segments =>
    let next := cursor.advance segment.chars
    ((segment.token? cursor.line).map fun token =>
      ⟨token, cursor.position, next.position⟩).toList ++ placedFrom next segments

theorem map_token_placedFrom (cursor : Cursor) (segments : List Segment) :
    (placedFrom cursor segments).map PlacedToken.token = tokensFrom cursor segments := by
  induction segments generalizing cursor with
  | nil => rfl
  | cons segment segments ih =>
      rw [placedFrom, List.map_append, ih, tokensFrom_cons, ← Option.toList_map, Option.map_map]
      exact congrArg (·.toList ++ _) Option.map_id'

/-- A segment behind others stands for the token with the given index, and lies at its place. -/
structure StandsFor
    (cursor : Cursor) (before : List Segment) (segment : Segment) (index : Nat)
    (placed : PlacedToken) : Prop where
  index_eq : index = (tokensFrom cursor before).length
  token?_eq : segment.token? (cursor.advance (before.flatMap chars)).line = some placed.token
  start_eq : placed.start = cursor.position + byteLength (before.flatMap chars)
  stop_eq : placed.stop = placed.start + byteLength segment.chars

theorem StandsFor.cons
    {first segment : Segment} {cursor : Cursor} {before : List Segment} {index : Nat}
    {placed : PlacedToken}
    (hstands : StandsFor (cursor.advance first.chars) before segment index placed) :
    StandsFor cursor (first :: before) segment
      ((first.token? cursor.line).toList.length + index) placed where
  index_eq := by
    rw [hstands.index_eq, tokensFrom_cons, List.length_append]
  token?_eq := by
    rw [List.flatMap_cons, Cursor.advance_append]
    exact hstands.token?_eq
  start_eq := by
    rw [hstands.start_eq, List.flatMap_cons, byteLength_append]
    exact Nat.add_assoc _ _ _
  stop_eq := hstands.stop_eq

theorem exists_of_getElem?_placedFrom
    {cursor : Cursor} {segments : List Segment} {index : Nat} {placed : PlacedToken}
    (hplaced : (placedFrom cursor segments)[index]? = some placed) :
    ∃ before segment after, segments = before ++ segment :: after ∧
      StandsFor cursor before segment index placed := by
  induction segments generalizing cursor index with
  | nil => cases hplaced
  | cons first segments ih =>
      rw [placedFrom] at hplaced
      cases htoken : first.token? cursor.line with
      | none =>
          rw [htoken] at hplaced
          obtain ⟨before, segment, after, rfl, hstands⟩ := ih hplaced
          have hcons := hstands.cons
          rw [htoken] at hcons
          exact ⟨first :: before, segment, after, rfl, by simpa using hcons⟩
      | some token =>
          rw [htoken] at hplaced
          cases index with
          | zero =>
              cases hplaced
              exact ⟨[], first, segments, rfl, rfl, by simpa using htoken, rfl, rfl⟩
          | succ number =>
              obtain ⟨before, segment, after, rfl, hstands⟩ := ih hplaced
              have hcons := hstands.cons
              rw [htoken] at hcons
              exact ⟨first :: before, segment, after, rfl, by simpa [Nat.add_comm] using hcons⟩

/-! ## Places -/

theorem Fitted.stop_le
    {segments : List Segment} (hfitted : Fitted segments) (cursor : Cursor) :
    ∀ placed ∈ placedFrom cursor segments,
      cursor.position < placed.stop ∧
        placed.stop ≤ cursor.position + byteLength (segments.flatMap chars) := by
  intro placed hplaced
  obtain ⟨index, hindex⟩ := List.getElem?_of_mem hplaced
  obtain ⟨before, segment, after, rfl, hstands⟩ := exists_of_getElem?_placedFrom hindex
  have hstart := hstands.start_eq
  have hstop := hstands.stop_eq
  have hpos := byteLength_pos (hfitted.chars_ne_nil_of_mem segment (by simp))
  rw [List.flatMap_append, byteLength_append, List.flatMap_cons, byteLength_append]
  omega

theorem Fitted.pairwise_stop
    {segments : List Segment} (hfitted : Fitted segments) (cursor : Cursor) :
    (placedFrom cursor segments).Pairwise fun first second => first.stop < second.stop := by
  induction hfitted generalizing cursor with
  | nil => exact .nil
  | @cons segment segments _ _ hfitted ih =>
      rw [placedFrom, List.pairwise_append]
      refine ⟨?_, ih _, ?_⟩
      · cases segment.token? cursor.line <;> simp
      · intro first hfirst second hsecond
        obtain ⟨token, -, rfl⟩ := Option.map_eq_some_iff.mp (Option.mem_toList.mp hfirst)
        exact (hfitted.stop_le _ second hsecond).1

/-! ## Settled segments -/

/-- Segments before a text that is neither empty nor a point alone are read whatever the text goes
on with. -/
theorem Fitted.append_cut
    {kept later : List Segment} (hfitted : Fitted (kept ++ later))
    (hlater : later.flatMap chars ≠ []) (hpoint : later.flatMap chars ≠ ['.'])
    (right : List Char) :
    Fitted (kept ++ cut (later.flatMap chars ++ right)) := by
  induction kept with
  | nil => exact fitted_cut _
  | cons segment kept ih =>
      cases hfitted with
      | cons hlegal hmax hfitted =>
          have hne : (kept ++ later).flatMap chars ≠ [] := by
            simp [hlater]
          have hnot : (kept ++ later).flatMap chars ≠ ['.'] := by
            rw [List.flatMap_append, ne_eq, List.append_eq_singleton_iff]
            rintro (⟨-, htext⟩ | ⟨-, htext⟩)
            · exact hpoint htext
            · exact hlater htext
          have hclosed : ∀ body, segment ≠ .openString body := by
            rintro body rfl
            exact hne hlegal.2
          rw [List.cons_append]
          refine .cons (hlegal.of_not_open hclosed _) ?_ (ih hfitted)
          have hmore := hmax.append hne right fun _ _ _ htext => (hnot htext).elim
          rwa [List.flatMap_append, flatMap_chars_cut, ← List.append_assoc, ← List.flatMap_append]

theorem cut_append_of_settled
    {left : List Char} {kept later : List Segment} (hcut : cut left = kept ++ later)
    (hlater : later.flatMap chars ≠ []) (hpoint : later.flatMap chars ≠ ['.'])
    (right : List Char) :
    cut (left ++ right) = kept ++ cut (later.flatMap chars ++ right) := by
  have hfitted := fitted_cut left
  have hleft := flatMap_chars_cut left
  rw [hcut] at hfitted hleft
  rw [cut_eq_iff]
  refine ⟨?_, hfitted.append_cut hlater hpoint right⟩
  rw [List.flatMap_append, flatMap_chars_cut, ← List.append_assoc, ← List.flatMap_append, hleft]

end Segment

/-! ## Faults -/

namespace FaultState

theorem cause_of_next (state : FaultState) (before : List Char) (c : Char) :
    ∀ fault ∈ (state.next before c).2, fault.cause ≠ .unterminatedString := by
  have hcode : ∀ fault ∈ (inCode before c).2, fault.cause ≠ .unterminatedString := by
    intro fault hfault
    unfold inCode at hfault
    split_ifs at hfault <;> cases hfault
    simp
  intro fault hfault
  cases state with
  | code => exact hcode fault hfault
  | slash =>
      simp only [next] at hfault
      split at hfault
      · cases hfault
      · exact hcode fault hfault
  | comment =>
      simp only [next] at hfault
      split at hfault <;> cases hfault
  | string opened =>
      simp only [next] at hfault
      split at hfault <;> cases hfault

/-- The faults emitted inside a text do not depend on what follows it. -/
theorem exists_emit_append (left before : List Char) (state : FaultState) :
    ∃ emitted reached, (∀ fault ∈ emitted, fault.cause ≠ .unterminatedString) ∧
      ∀ right, emit before state (left ++ right) =
        emitted ++ emit (before ++ left) reached right := by
  induction left generalizing before state with
  | nil => exact ⟨[], state, by simp, by simp⟩
  | cons c left ih =>
      obtain ⟨emitted, reached, hcause, hemit⟩ := ih (before ++ [c]) (state.next before c).1
      refine ⟨(state.next before c).2.toList ++ emitted, reached, ?_, ?_⟩
      · intro fault hfault
        rcases List.mem_append.mp hfault with hhere | hlater
        · exact cause_of_next state before c fault (Option.mem_toList.mp hhere)
        · exact hcause fault hlater
      · intro right
        rw [List.cons_append, emit_cons, hemit, List.append_assoc, List.append_assoc]
        rfl

end FaultState

theorem unexpected_prefix_append (left right : String) :
    ((scan left).log.toList.filter fun fault => fault.cause ≠ .unterminatedString) <+:
      (scan (left ++ right)).log.toList := by
  obtain ⟨emitted, reached, hcause, hemit⟩ :=
    FaultState.exists_emit_append left.toList [] .code
  have hleft : (scan left).log.toList =
      emitted ++ (reached.atEnd left.toList).toList := by
    have hend := hemit []
    rwa [List.append_nil, FaultState.emit_source] at hend
  have hend : (reached.atEnd left.toList).toList.filter
      (fun fault => decide (fault.cause ≠ .unterminatedString)) = [] := by
    cases reached <;> rfl
  have hkept : emitted.filter (fun fault => decide (fault.cause ≠ .unterminatedString)) =
      emitted :=
    List.filter_eq_self.mpr fun fault hfault => decide_eq_true (hcause fault hfault)
  rw [hleft, List.filter_append, hend, hkept, List.append_nil, ← FaultState.emit_source,
    String.toList_append, hemit]
  exact List.prefix_append _ _

/-! ## Tokens -/

/-- The tokens of a source, but the one for its end, with their places. -/
def placedTokens (source : String) : List PlacedToken :=
  placedFrom .origin (cut source.toList)

theorem map_token_placedTokens (source : String) :
    (placedTokens source).map PlacedToken.token = (scan source).tokens.dropLast := by
  rw [placedTokens, map_token_placedFrom, tokens_dropLast_scan]

/-- A token lies where its lexeme stands in the source. -/
theorem lexeme_of_mem_placedTokens
    (source : String) : ∀ placed ∈ placedTokens source,
      ∃ before after, source.toList = before ++ placed.token.lexeme.toList ++ after ∧
        placed.start = byteLength before ∧
        placed.stop = byteLength (before ++ placed.token.lexeme.toList) := by
  intro placed hplaced
  obtain ⟨index, hindex⟩ := List.getElem?_of_mem hplaced
  obtain ⟨before, segment, after, hcut, hstands⟩ := exists_of_getElem?_placedFrom hindex
  have hlexeme := lexeme_of_token? hstands.token?_eq
  have hstart : placed.start = byteLength (before.flatMap chars) := by
    simpa [Cursor.origin] using hstands.start_eq
  refine ⟨before.flatMap chars, after.flatMap chars, ?_, hstart, ?_⟩
  · rw [← flatMap_chars_cut source.toList, hcut, hlexeme]
    simp
  · rw [hstands.stop_eq, hstart, byteLength_append, hlexeme]

theorem getElem?_tokens_append
    {left : String} {index : Nat} {placed : PlacedToken}
    (hplaced : (placedTokens left)[index]? = some placed)
    (hstop : placed.stop + 2 ≤ left.utf8ByteSize) (right : String) :
    (scan (left ++ right)).tokens[index]? = some placed.token := by
  obtain ⟨before, segment, after, hcut, hstands⟩ := exists_of_getElem?_placedFrom hplaced
  have hsplit : cut left.toList = (before ++ [segment]) ++ after := by
    simp [hcut]
  -- two bytes are left, and neither the empty text nor a point has two
  have hbytes : 2 ≤ byteLength (after.flatMap chars) := by
    have hlength := congrArg byteLength (flatMap_chars_cut left.toList)
    rw [byteLength_toList, hcut, List.flatMap_append, List.flatMap_cons, byteLength_append,
      byteLength_append] at hlength
    have hstart := hstands.start_eq
    have hend := hstands.stop_eq
    simp only [Cursor.origin] at hstart
    omega
  have hlater : after.flatMap chars ≠ [] := by
    intro htext
    rw [htext] at hbytes
    cases hbytes
  have hpoint : after.flatMap chars ≠ ['.'] := by
    intro htext
    rw [htext] at hbytes
    exact absurd hbytes (by decide)
  have htokens : tokensFrom .origin (before ++ [segment]) =
      tokensFrom .origin before ++ [placed.token] := by
    rw [tokensFrom_append, tokensFrom_cons, hstands.token?_eq]
    rfl
  rw [tokens_scan, String.toList_append, cut_append_of_settled hsplit hlater hpoint,
    tokensFrom_append, htokens, hstands.index_eq]
  simp

/-- Two more tokens are two more bytes at least. -/
theorem stop_add_two_le
    {source : String} {index : Nat} {placed : PlacedToken}
    (hplaced : (placedTokens source)[index]? = some placed)
    (hindex : index + 2 < (placedTokens source).length) :
    placed.stop + 2 ≤ source.utf8ByteSize := by
  have hfitted := fitted_cut source.toList
  obtain ⟨hbound, rfl⟩ := List.getElem?_eq_some_iff.mp hplaced
  have hpairwise : (placedTokens source).Pairwise fun first second =>
      first.stop < second.stop := hfitted.pairwise_stop .origin
  have hless := List.pairwise_iff_getElem.mp hpairwise
  have hfirst := hless index (index + 1) hbound (by omega) (Nat.lt_succ_self _)
  have hsecond := hless (index + 1) (index + 2) (by omega) hindex (Nat.lt_succ_self _)
  have hlast := (hfitted.stop_le .origin _ (List.getElem_mem hindex)).2
  rw [flatMap_chars_cut, byteLength_toList] at hlast
  have horigin : Cursor.origin.position = 0 := rfl
  omega

theorem tokens_prefix_append (left right : String) :
    (scan left).tokens.rdrop 3 <+: (scan (left ++ right)).tokens := by
  have htokens : (scan left).tokens.rdrop 3 =
      ((placedTokens left).map PlacedToken.token).rdrop 2 := by
    rw [map_token_placedTokens, tokens_dropLast_scan, tokens_scan, List.rdrop_concat_succ]
  rw [htokens, List.prefix_iff_getElem?]
  intro index hindex
  have hshort : index + 2 < (placedTokens left).length := by
    rw [List.rdrop, List.length_take, List.length_map] at hindex
    omega
  have hplaced : (placedTokens left)[index]? = some (placedTokens left)[index] :=
    List.getElem?_eq_getElem (by omega)
  rw [getElem?_tokens_append hplaced (stop_add_two_le hplaced hshort)]
  simp [List.rdrop]

/-- What a text goes on with changes none of its tokens but the last two, and of those none that
ends two bytes before the end of the text; nor does it change the faults of stray characters. -/
theorem scan_append_keeps (left right : String) :
    (placedTokens left).map PlacedToken.token = (scan left).tokens.dropLast ∧
    (∀ placed ∈ placedTokens left,
      ∃ before after, left.toList = before ++ placed.token.lexeme.toList ++ after ∧
        placed.start = byteLength before ∧
        placed.stop = byteLength (before ++ placed.token.lexeme.toList)) ∧
    (∀ (index : Nat) (placed : PlacedToken), (placedTokens left)[index]? = some placed →
      placed.stop + 2 ≤ left.utf8ByteSize →
        (scan (left ++ right)).tokens[index]? = some placed.token) ∧
    (scan left).tokens.rdrop 3 <+: (scan (left ++ right)).tokens ∧
    ((scan left).log.toList.filter fun fault => fault.cause ≠ .unterminatedString) <+:
      (scan (left ++ right)).log.toList :=
  ⟨map_token_placedTokens left, lexeme_of_mem_placedTokens left,
    fun _ _ hplaced hstop => getElem?_tokens_append hplaced hstop right,
    tokens_prefix_append left right, unexpected_prefix_append left right⟩

/-- A word stays before a numeral and a point that merge with the digit behind them. -/
theorem scan_append_keeps_before_point :
    (placedTokens "é x1 2.")[0]? = some ⟨⟨.identifier, "x1", none, 1⟩, 3, 5⟩ ∧
    (scan ("é x1 2." ++ "5#")).tokens[0]? = some ⟨.identifier, "x1", none, 1⟩ ∧
    [⟨.unexpectedCharacter 'é', 1, 0⟩] <+: (scan ("é x1 2." ++ "5#")).log.toList := by
  obtain ⟨-, -, hkeeps, -, hfaults⟩ := scan_append_keeps "é x1 2." "5#"
  have hplaced :
      (placedTokens "é x1 2.")[0]? = some ⟨⟨.identifier, "x1", none, 1⟩, 3, 5⟩ := by
    decide +kernel
  have hstray : ((scan "é x1 2.").log.toList.filter fun fault =>
      fault.cause ≠ .unterminatedString) = [⟨.unexpectedCharacter 'é', 1, 0⟩] := by
    decide +kernel
  rw [hstray] at hfaults
  exact ⟨hplaced, hkeeps 0 _ hplaced (by decide), hfaults⟩

example : (scan "2.").tokens.map Token.lexeme = ["2", ".", ""] ∧
    (scan "2.5").tokens.map Token.lexeme = ["2.5", ""] := by
  decide +kernel

end LoxLexer
