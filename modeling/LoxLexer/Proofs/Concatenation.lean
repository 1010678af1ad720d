import LoxLexer.Proofs.ScanOutput
import LoxLexer.Proofs.TextClass

/-!
# Scanning two texts as one

The segments of a text `left ++ right` are those of `left` and then those of `right`, unless the
boundary fuses: `right` begins with something that continues the last segment of `left`.  Reading
looks at one character behind a segment and, behind a numeral without a fraction, at two.  So one
more segment can be concerned, a numeral before the point with which `left` ends.

Where the boundary does not fuse, the scans are put together from the scans of the two texts, the
second moved down by the lines and on by the bytes of the first.
-/

namespace LoxLexer

open Segment

/-- What follows a text continues a segment with which the text ends. -/
inductive Fuses (segments : List Segment) (right : List Char) : Prop
  | comment {body : List Char} (hends : [.comment body] <:+ segments)
      (hright : right ≠ []) (hline : right.head? ≠ some '\n')
  | word {text : List Char} (hends : [.word text] <:+ segments) {c : Char}
      (hhead : right.head? = some c)
      (hpart : c.isAlpha = true ∨ c.isDigit = true ∨ c = '_')
  | digit {numeral : Numeral} (hends : [.number numeral] <:+ segments) {c : Char}
      (hhead : right.head? = some c) (hdigit : c.isDigit = true)
  | fraction {numeral : Numeral} (hends : [.number numeral] <:+ segments)
      (hwhole : numeral.fraction = []) {c : Char} {tail : List Char}
      (hright : right = '.' :: c :: tail) (hdigit : c.isDigit = true)
  | point {numeral : Numeral} (hends : [.number numeral, .operator .dot] <:+ segments)
      (hwhole : numeral.fraction = []) {c : Char}
      (hhead : right.head? = some c) (hdigit : c.isDigit = true)
  | equal {op : Operator} (hends : [.operator op] <:+ segments)
      (hop : op ∈ [.bang, .equal, .less, .greater]) (hhead : right.head? = some '=')
  | slash (hends : [.operator .slash] <:+ segments) (hhead : right.head? = some '/')

theorem Fuses.cons
    {segments : List Segment} {right : List Char} (segment : Segment)
    (hfuses : Fuses segments right) : Fuses (segment :: segments) right := by
  have hends : ∀ last : List Segment, last <:+ segments → last <:+ segment :: segments :=
    fun last hlast => hlast.trans (List.suffix_cons segment segments)
  cases hfuses with
  | comment h hright hline => exact .comment (hends _ h) hright hline
  | word h hhead hpart => exact .word (hends _ h) hhead hpart
  | digit h hhead hdigit => exact .digit (hends _ h) hhead hdigit
  | fraction h hwhole hright hdigit => exact .fraction (hends _ h) hwhole hright hdigit
  | point h hwhole hhead hdigit => exact .point (hends _ h) hwhole hhead hdigit
  | equal h hop hhead => exact .equal (hends _ h) hop hhead
  | slash h hhead => exact .slash (hends _ h) hhead

/-- A character that belongs to no word, number or operator continues a comment at most; a slash, in
addition, continues a slash. -/
theorem not_fuses_of_head
    {segments : List Segment} {right : List Char} {c : Char} (hhead : right.head? = some c)
    (hpart : isWordPart c = false) (hpoint : c ≠ '.') (hequal : c ≠ '=')
    (hcomment : c ≠ '\n' → ∀ body, ¬ [.comment body] <:+ segments)
    (hslash : c = '/' → ¬ [.operator .slash] <:+ segments) : ¬ Fuses segments right := by
  have hsame : ∀ {d : Char}, right.head? = some d → d = c :=
    fun hd => Option.some.inj (hd.symm.trans hhead)
  have hdigit : ¬ c.isDigit = true := fun hc => by simp [isWordPart_of_isDigit hc] at hpart
  intro hfuses
  cases hfuses with
  | comment hends _ hline => exact hcomment (fun hc => hline (by rw [hhead, hc])) _ hends
  | word _ hd hword =>
      rw [hsame hd] at hword
      rw [isWordPart_iff.mpr hword] at hpart
      cases hpart
  | digit _ hd hnumber =>
      rw [hsame hd] at hnumber
      exact hdigit hnumber
  | fraction _ _ hright => exact hpoint (hsame (by rw [hright]; rfl)).symm
  | point _ _ hd hnumber =>
      rw [hsame hd] at hnumber
      exact hdigit hnumber
  | equal _ _ hd => exact hequal (hsame hd).symm
  | slash hends hd => exact hslash (hsame hd).symm hends

namespace Segment

theorem maximalBefore_of_not_fuses
    {segment : Segment} {right : List Char} (hfuses : ¬ Fuses [segment] right) :
    segment.MaximalBefore right := by
  cases segment with
  | comment body =>
      intro c hc
      by_contra hline
      refine hfuses (.comment List.suffix_rfl ?_ ?_)
      · rintro rfl
        cases hc
      · rw [Option.mem_def.mp hc]
        simpa using hline
  | operator op =>
      intro c hc
      constructor
      · rintro hequal rfl
        exact hfuses (.equal List.suffix_rfl (Operator.withEqual?_isSome_iff.mp hequal) hc)
      · rintro rfl rfl
        exact hfuses (.slash List.suffix_rfl hc)
  | number numeral =>
      constructor
      · intro c hc
        by_contra hdigit
        exact hfuses (.digit List.suffix_rfl hc (by simpa using hdigit))
      · intro hwhole c tail hright
        by_contra hdigit
        exact hfuses (.fraction List.suffix_rfl hwhole hright (by simpa using hdigit))
  | word text =>
      intro c hc
      by_contra hpart
      exact hfuses (.word List.suffix_rfl hc (isWordPart_iff.mp (by simpa using hpart)))
  | blank | string | openString | stray => trivial

/-- A segment that is maximal before a text is so before a longer text, but for a numeral and the
point behind it. -/
theorem MaximalBefore.append
    {segment : Segment} {rest : List Char} (hmax : segment.MaximalBefore rest)
    (hrest : rest ≠ []) (right : List Char)
    (hpoint : ∀ numeral : Numeral, segment = .number numeral → numeral.fraction = [] →
      rest = ['.'] → ∀ c ∈ right.head?, c.isDigit = false) :
    segment.MaximalBefore (rest ++ right) := by
  obtain ⟨c, tail, rfl⟩ := List.exists_cons_of_ne_nil hrest
  cases segment with
  | number numeral =>
      refine ⟨hmax.stop, ?_⟩
      intro hwhole d after htext
      cases tail with
      | nil =>
          rw [List.singleton_append, List.cons.injEq] at htext
          obtain ⟨rfl, rfl⟩ := htext
          exact hpoint numeral rfl hwhole rfl d rfl
      | cons e tail =>
          rw [List.cons_append, List.cons_append, List.cons.injEq, List.cons.injEq] at htext
          obtain ⟨rfl, rfl, -⟩ := htext
          exact hmax.noPoint hwhole e tail rfl
  | _ => exact hmax

theorem LegalBefore.of_not_open
    {segment : Segment} {rest : List Char} (hlegal : segment.LegalBefore rest)
    (hclosed : ∀ body, segment ≠ .openString body) (after : List Char) :
    segment.LegalBefore after := by
  cases segment with
  | openString body => exact (hclosed body rfl).elim
  | _ => exact hlegal

theorem cut_point : cut ['.'] = [.operator .dot] := by
  rw [cut_eq_iff]
  exact ⟨rfl, .cons trivial (maximalBefore_nil _) .nil⟩

theorem Fitted.append
    {left right : List Segment} (hleft : Fitted left) (hright : Fitted right)
    (hclosed : ∀ body, .openString body ∉ left)
    (hfuses : ¬ Fuses left (right.flatMap chars)) : Fitted (left ++ right) := by
  induction hleft with
  | nil => exact hright
  | @cons segment segments hlegal hmax hfitted ih =>
      have hopen : ∀ body, segment ≠ .openString body :=
        fun body heq => hclosed body (by simp [heq])
      have hlater : Fitted (segments ++ right) :=
        ih (fun body hmem => hclosed body (by simp [hmem]))
          (fun h => hfuses (h.cons segment))
      rw [List.cons_append]
      refine .cons (hlegal.of_not_open hopen _) ?_ hlater
      rw [List.flatMap_append]
      by_cases hnil : segments = []
      · subst segments
        exact maximalBefore_of_not_fuses hfuses
      · refine hmax.append ?_ _ ?_
        · obtain ⟨next, later, rfl⟩ := List.exists_cons_of_ne_nil hnil
          cases hfitted with
          | cons hnext _ _ => simp [hnext.chars_ne_nil]
        · -- only here does the text behind the next segment matter
          rintro numeral rfl hwhole hpoint c hc
          have hdot : segments = [.operator .dot] := by
            rw [← hfitted.cut_flatMap_chars, hpoint, cut_point]
          subst segments
          by_contra hdigit
          exact hfuses (.point List.suffix_rfl hwhole hc (by simpa using hdigit))

theorem Fitted.not_fuses
    {left right : List Segment} (hfitted : Fitted (left ++ right)) :
    ¬ Fuses left (right.flatMap chars) := by
  have hlast : ∀ segment, [segment] <:+ left →
      segment.MaximalBefore (right.flatMap chars) := by
    rintro segment ⟨before, rfl⟩
    rw [List.append_assoc] at hfitted
    exact hfitted.maximal_of_append
  intro hfuses
  cases hfuses with
  | comment hends hright hline =>
      obtain ⟨c, tail, hcons⟩ := List.exists_cons_of_ne_nil hright
      rw [hcons] at hline
      exact hline (congrArg some (hlast _ hends c (by rw [hcons]; rfl)))
  | word hends hhead hpart =>
      have hstop := hlast _ hends _ hhead
      rw [isWordPart_iff.mpr hpart] at hstop
      cases hstop
  | digit hends hhead hdigit =>
      have hstop := (hlast _ hends).stop _ hhead
      rw [hdigit] at hstop
      cases hstop
  | fraction hends hwhole hright hdigit =>
      have hstop := (hlast _ hends).noPoint hwhole _ _ hright
      rw [hdigit] at hstop
      cases hstop
  | @point numeral hends hwhole c hhead hdigit =>
      obtain ⟨before, rfl⟩ := hends
      obtain ⟨tail, hcons⟩ := List.head?_eq_some_iff.mp hhead
      rw [List.append_assoc] at hfitted
      have hmax : (Segment.number numeral).MaximalBefore ('.' :: c :: tail) := by
        rw [← hcons]
        exact hfitted.maximal_of_append
      have hstop := hmax.noPoint hwhole _ _ rfl
      rw [hdigit] at hstop
      cases hstop
  | equal hends hop hhead =>
      exact (hlast _ hends _ hhead).1 (Operator.withEqual?_isSome_iff.mpr hop) rfl
  | slash hends hhead => exact (hlast _ hends _ hhead).2 rfl rfl

/-- The boundary between two texts stays a boundary if and only if it does not fuse. -/
theorem cut_append_iff
    {left : List Char} (hclosed : ∀ body, .openString body ∉ cut left)
    (right : List Char) :
    cut (left ++ right) = cut left ++ cut right ↔ ¬ Fuses (cut left) right := by
  constructor
  · intro hcut
    have hfitted := fitted_cut (left ++ right)
    rw [hcut] at hfitted
    simpa [flatMap_chars_cut] using hfitted.not_fuses
  · intro hfuses
    have hfitted := (fitted_cut left).append (fitted_cut right) hclosed
      (by rwa [flatMap_chars_cut])
    rw [cut_eq_iff]
    exact ⟨by rw [List.flatMap_append, flatMap_chars_cut, flatMap_chars_cut], hfitted⟩

theorem openString_notMem
    {segments : List Segment} {cursor : Cursor}
    (hfaults : ∀ fault ∈ faultsFrom cursor segments, fault.cause ≠ .unterminatedString) :
    ∀ body, .openString body ∉ segments := by
  induction segments generalizing cursor with
  | nil => simp
  | cons segment segments ih =>
      rw [faultsFrom_cons] at hfaults
      intro body hmem
      rcases List.mem_cons.mp hmem with rfl | hmem
      · exact hfaults _ (List.mem_append_left _ (List.mem_singleton.mpr rfl)) rfl
      · exact ih (fun fault hfault => hfaults fault (List.mem_append_right _ hfault)) body hmem

end Segment

/-- Two texts scanned as one.  The cut keeps the boundary exactly if the boundary does not fuse, and
then the scan of both is the scan of the first and the scan of the second, moved. -/
theorem scan_append
    (left right : String)
    (hclosed : ∀ fault ∈ (scan left).log.toList, fault.cause ≠ .unterminatedString) :
    (cut (left ++ right).toList = cut left.toList ++ cut right.toList ↔
      ¬ Fuses (cut left.toList) right.toList) ∧
    (¬ Fuses (cut left.toList) right.toList →
      (scan (left ++ right)).tokens =
        (scan left).tokens.dropLast ++
          (scan right).tokens.map (Token.move (left.toList.count '\n')) ∧
      (scan (left ++ right)).log.toList =
        (scan left).log.toList ++
          (scan right).log.toList.map
            (Fault.move left.utf8ByteSize (left.toList.count '\n'))) := by
  have hopen : ∀ body, .openString body ∉ cut left.toList := by
    rw [faults_scan] at hclosed
    exact openString_notMem hclosed
  have hcut := cut_append_iff hopen right.toList
  rw [← String.toList_append] at hcut
  refine ⟨hcut, ?_⟩
  intro hfuses
  have hcursor : Cursor.origin.advance ((cut left.toList).flatMap chars) =
      Cursor.origin.move left.utf8ByteSize (left.toList.count '\n') := by
    rw [flatMap_chars_cut, Cursor.origin_advance_eq_move, byteLength_toList]
  constructor
  · rw [tokens_scan, tokens_scan, tokens_scan, hcut.mpr hfuses, tokensFrom_append, hcursor,
      tokensFrom_move, List.dropLast_concat, List.map_append, List.append_assoc]
    simp [lastLine, Nat.add_comm, Nat.add_left_comm]
  · rw [faults_scan, faults_scan, faults_scan, hcut.mpr hfuses, faultsFrom_append, hcursor,
      faultsFrom_move]

/-- A point behind a numeral stays a token of its own if no digit follows. -/
theorem scan_append_behind_point :
    (∀ fault ∈ (scan "é\n1.").log.toList, fault.cause ≠ .unterminatedString) ∧
    ¬ Fuses (cut "é\n1.".toList) "x\n#".toList ∧
    (scan ("é\n1." ++ "x\n#")).tokens =
      (scan "é\n1.").tokens.dropLast ++
        (scan "x\n#").tokens.map (Token.move ("é\n1.".toList.count '\n')) ∧
    (scan ("é\n1." ++ "x\n#")).log.toList =
      (scan "é\n1.").log.toList ++
        (scan "x\n#").log.toList.map
          (Fault.move "é\n1.".utf8ByteSize ("é\n1.".toList.count '\n')) := by
  have hclosed :
      ∀ fault ∈ (scan "é\n1.").log.toList, fault.cause ≠ .unterminatedString := by
    decide +kernel
  have happend := scan_append "é\n1." "x\n#" hclosed
  have hcut : cut ("é\n1." ++ "x\n#").toList =
      cut "é\n1.".toList ++ cut "x\n#".toList := by
    decide +kernel
  have hfuses := happend.1.mp hcut
  exact ⟨hclosed, hfuses, happend.2 hfuses⟩

end LoxLexer
