import LoxLexer.Proofs.Concatenation
import LoxLexer.Proofs.TokenLayout

/-!
# Scanning past faults

A scan goes on behind a fault.  It leaves the tokens of a source that has no faults: the same
source, with a space for each stray character and with nothing but the line feeds of a string that
is not terminated.

Both changes put blanks in the place of a segment that stands for no token.  A segment before such
a place stays maximal, since a blank continues no segment but a comment, and a comment does not end
there.
-/

namespace LoxLexer

/-- What is left of the text that begins at `position` without its faults: a space for a stray
character, and the line feeds of an unterminated string. -/
def blankFaults (faults : List Fault) (position : Nat) : (text : List Char) → List Char
  | [] => []
  | c :: rest =>
    match faults.find? (·.position = position) with
    | none => c :: blankFaults faults (position + c.utf8Size) rest
    | some fault =>
      match fault.cause with
      | .unexpectedCharacter _ => ' ' :: blankFaults faults (position + c.utf8Size) rest
      | .unterminatedString => (c :: rest).filter (· = '\n')

/-- A source without the faults of its scan. -/
def cleanSource (source : String) : String :=
  String.ofList (blankFaults (scan source).log.toList 0 source.toList)

theorem blankFaults_append_of_clear
    {faults : List Fault} {position : Nat} {text : List Char}
    (hclear : ∀ fault ∈ faults, fault.position < position ∨
      position + byteLength text ≤ fault.position)
    (rest : List Char) :
    blankFaults faults position (text ++ rest) =
      text ++ blankFaults faults (position + byteLength text) rest := by
  induction text generalizing position with
  | nil => simp
  | cons c text ih =>
      have hsize := c.utf8Size_pos
      have hnone : faults.find? (·.position = position) = none := by
        rw [List.find?_eq_none]
        intro fault hfault
        have := hclear fault hfault
        rw [byteLength_cons] at this
        simp only [decide_eq_true_eq]
        omega
      have hlater : ∀ fault ∈ faults, fault.position < position + c.utf8Size ∨
          position + c.utf8Size + byteLength text ≤ fault.position := by
        intro fault hfault
        have := hclear fault hfault
        rw [byteLength_cons] at this
        omega
      rw [List.cons_append, blankFaults, hnone]
      simp only
      rw [ih hlater, byteLength_cons, Nat.add_assoc, List.cons_append]

theorem find?_append_of_before
    {earlier : List Fault} {position : Nat}
    (hearlier : ∀ fault ∈ earlier, fault.position < position) (faults : List Fault) :
    (earlier ++ faults).find? (·.position = position) =
      faults.find? (·.position = position) := by
  have hnone : earlier.find? (·.position = position) = none := by
    rw [List.find?_eq_none]
    intro fault hfault
    have := hearlier fault hfault
    simp only [decide_eq_true_eq]
    omega
  rw [List.find?_append, hnone, Option.none_or]

/-- A text and the same text without its faults. -/
inductive Blanked : List Char → List Char → Prop
  | nil : Blanked [] []
  | keep (c : Char) {text blanked : List Char} (hblanked : Blanked text blanked) :
      Blanked (c :: text) (c :: blanked)
  | stray {c : Char} {text blanked : List Char} (hc : c ≠ '\n')
      (hblanked : Blanked text blanked) : Blanked (c :: text) (' ' :: blanked)
  | openString (body : List Char) : Blanked ('"' :: body) (body.filter (· = '\n'))

namespace Blanked

theorem append_left
    {text blanked : List Char} (hblanked : Blanked text blanked) (kept : List Char) :
    Blanked (kept ++ text) (kept ++ blanked) := by
  induction kept with
  | nil => exact hblanked
  | cons c kept ih => exact .keep c ih

theorem head_cases
    {text blanked : List Char} (hblanked : Blanked text blanked)
    {c : Char} (hc : c ∈ blanked.head?) :
    c ∈ text.head? ∨ (isBlank c = true ∧ ∃ d ∈ text.head?, d ≠ '\n') := by
  cases hblanked with
  | nil => cases hc
  | keep d _ => exact .inl hc
  | @stray d _ _ hd _ =>
      cases hc
      exact .inr ⟨rfl, d, rfl, hd⟩
  | openString body =>
      have hmem := List.mem_of_mem_head? hc
      obtain rfl : c = '\n' := by
        simpa using (List.mem_filter.mp hmem).2
      exact .inr ⟨rfl, '"', rfl, by decide⟩

theorem point_cases
    {text tail : List Char} (hblanked : Blanked text ('.' :: tail)) :
    ∃ rest, text = '.' :: rest ∧ Blanked rest tail := by
  generalize htext : '.' :: tail = blanked at hblanked
  cases hblanked with
  | nil => cases htext
  | @keep c rest _ hrest =>
      cases htext
      exact ⟨rest, rfl, hrest⟩
  | stray => cases htext
  | openString body =>
      have hmem : '.' ∈ body.filter (· = '\n') := by
        rw [← htext]
        exact List.mem_cons_self
      simp at hmem

theorem not_of_head
    {text blanked : List Char} (hblanked : Blanked text blanked)
    {p : Char → Prop} (hp : ∀ c, isBlank c = true → ¬ p c)
    (hhead : ∀ c ∈ text.head?, ¬ p c) : ∀ c ∈ blanked.head?, ¬ p c := by
  intro c hc
  rcases hblanked.head_cases hc with hkept | ⟨hblank, -⟩
  · exact hhead c hkept
  · exact hp c hblank

end Blanked

namespace Segment

theorem MaximalBefore.blanked
    {segment : Segment} {text blanked : List Char}
    (hmax : segment.MaximalBefore text) (hblanked : Blanked text blanked) :
    segment.MaximalBefore blanked := by
  have hdigit : ∀ c, isBlank c = true → ¬ c.isDigit = true := by
    intro c hblank
    simp [Spaced.isDigit_eq_false_of_isBlank hblank]
  cases segment with
  | comment body =>
      intro c hc
      rcases hblanked.head_cases hc with hkept | ⟨-, d, hd, hne⟩
      · exact hmax c hkept
      · exact (hne (hmax d hd)).elim
  | operator op =>
      intro c hc
      rcases hblanked.head_cases hc with hkept | ⟨hblank, -⟩
      · exact hmax c hkept
      · constructor
        · rintro - rfl
          cases hblank
        · rintro - rfl
          cases hblank
  | number numeral =>
      constructor
      · simpa using hblanked.not_of_head hdigit (by simpa using hmax.stop)
      · rintro hwhole c tail rfl
        obtain ⟨rest, rfl, hrest⟩ := hblanked.point_cases
        have hnot : ∀ d ∈ rest.head?, ¬ d.isDigit = true := by
          intro d hd
          obtain ⟨more, rfl⟩ := List.head?_eq_some_iff.mp hd
          simp [hmax.noPoint hwhole d more rfl]
        simpa using hrest.not_of_head hdigit hnot c rfl
  | word text =>
      have hpart : ∀ c, isBlank c = true → ¬ isWordPart c = true := by
        intro c hblank
        simp [Spaced.isWordPart_eq_false_of_isBlank hblank]
      have hstop := hblanked.not_of_head hpart (by simpa [MaximalBefore] using hmax)
      simpa [MaximalBefore] using hstop
  | blank | string | openString | stray => trivial

/-- The segments that take the place of a segment with a fault. -/
def withoutFault : Segment → List Segment
  | .stray _ => [.blank ' ']
  | .openString body => (body.filter (· = '\n')).map .blank
  | segment => [segment]

def lineFeeds (text : List Char) : Gap where
  val := text.filter (· = '\n')
  property := by
    intro c hc
    obtain rfl : c = '\n' := by
      simpa using (List.mem_filter.mp hc).2
    decide

theorem withoutFault_openString (body : List Char) :
    (openString body).withoutFault = (lineFeeds body).segments := rfl

theorem withoutFault_of_quiet
    {segment : Segment} (hquiet : segment.Quiet) : segment.withoutFault = [segment] := by
  cases segment with
  | openString body | stray c => exact hquiet.elim
  | _ => rfl

theorem fault?_of_quiet
    {segment : Segment} (hquiet : segment.Quiet) (start stop : Cursor) :
    segment.fault? start stop = none := by
  cases segment with
  | openString body | stray c => exact hquiet.elim
  | _ => rfl

theorem faulty_cases (segment : Segment) :
    (∃ c, segment = .stray c) ∨ (∃ body, segment = .openString body) ∨ segment.Quiet := by
  cases segment with
  | stray c => exact .inl ⟨c, rfl⟩
  | openString body => exact .inr (.inl ⟨body, rfl⟩)
  | _ => exact .inr (.inr trivial)

theorem quiet_of_mem_withoutFault
    {segment : Segment} : ∀ other ∈ segment.withoutFault, other.Quiet := by
  intro other hother
  rcases segment.faulty_cases with ⟨c, rfl⟩ | ⟨body, rfl⟩ | hquiet
  · rw [List.mem_singleton.mp hother]
    trivial
  · rw [withoutFault_openString] at hother
    exact quiet_of_laid (Gap.laid_of_mem_segments other hother)
  · rw [withoutFault_of_quiet hquiet] at hother
    rwa [List.mem_singleton.mp hother]

theorem Fitted.blanked
    {segments : List Segment} (hfitted : Fitted segments) :
    Blanked (segments.flatMap chars) ((segments.flatMap withoutFault).flatMap chars) := by
  induction hfitted with
  | nil => exact .nil
  | @cons segment segments hlegal hmax hfitted ih =>
      rw [List.flatMap_cons, List.flatMap_cons, List.flatMap_append]
      rcases segment.faulty_cases with ⟨c, rfl⟩ | ⟨body, rfl⟩ | hquiet
      · have hc : c ≠ '\n' := by
          rintro rfl
          cases hlegal.notBlank
        exact .stray hc ih
      · obtain rfl := (Fitted.cons hlegal hmax hfitted).eq_nil_of_openString
        rw [withoutFault_openString, Gap.flatMap_chars_segments]
        simpa [chars, lineFeeds] using Blanked.openString body
      · rw [withoutFault_of_quiet hquiet, List.flatMap_singleton]
        exact ih.append_left segment.chars

theorem Fitted.withoutFaults
    {segments : List Segment} (hfitted : Fitted segments) :
    Fitted (segments.flatMap withoutFault) := by
  induction hfitted with
  | nil => exact .nil
  | @cons segment segments hlegal hmax hfitted ih =>
      rw [List.flatMap_cons]
      rcases segment.faulty_cases with ⟨c, rfl⟩ | ⟨body, rfl⟩ | hquiet
      · exact .cons rfl trivial ih
      · rw [withoutFault_openString]
        exact (Gap.fitted_segments_append_iff _ _).mpr ih
      · rw [withoutFault_of_quiet hquiet]
        refine .cons (hlegal.of_not_open ?_ _) (hmax.blanked hfitted.blanked) ih
        rintro body rfl
        exact hquiet

/-! ## Tokens and lines -/

theorem tokensFrom_withoutFault
    (segment : Segment) (cursor : Cursor) :
    tokensFrom cursor segment.withoutFault = (segment.token? cursor.line).toList := by
  rcases segment.faulty_cases with ⟨c, rfl⟩ | ⟨body, rfl⟩ | hquiet
  · rfl
  · have hshapes := map_tokensFrom_eq cursor (lineFeeds body).segments
    rw [Gap.filterMap_shape?_segments, List.map_eq_nil_iff] at hshapes
    exact hshapes
  · rw [withoutFault_of_quiet hquiet, tokensFrom_cons, tokensFrom_nil, List.append_nil]

theorem count_withoutFault
    {segment : Segment} {rest : List Char} (hlegal : segment.LegalBefore rest) :
    (segment.withoutFault.flatMap chars).count '\n' = segment.chars.count '\n' := by
  rcases segment.faulty_cases with ⟨c, rfl⟩ | ⟨body, rfl⟩ | hquiet
  · have hc : c ≠ '\n' := by
      rintro rfl
      cases hlegal.notBlank
    simp [withoutFault, chars, hc]
  · rw [withoutFault_openString, Gap.flatMap_chars_segments]
    simp [lineFeeds, chars, List.count_filter]
  · rw [withoutFault_of_quiet hquiet, List.flatMap_singleton]

/-- Only the lines of the two cursors have to agree, since tokens record no positions. -/
theorem Fitted.tokensFrom_withoutFaults
    {segments : List Segment} (hfitted : Fitted segments) {cursor blanked : Cursor}
    (hline : blanked.line = cursor.line) :
    tokensFrom blanked (segments.flatMap withoutFault) = tokensFrom cursor segments := by
  induction hfitted generalizing cursor blanked with
  | nil => rfl
  | @cons segment segments hlegal _ _ ih =>
      have hnext : (blanked.advance (segment.withoutFault.flatMap chars)).line =
          (cursor.advance segment.chars).line := by
        simp only [Cursor.advance, count_withoutFault hlegal, hline]
      rw [List.flatMap_cons, tokensFrom_append, tokensFrom_withoutFault, ih hnext, hline]
      rfl

theorem Fitted.count_withoutFaults
    {segments : List Segment} (hfitted : Fitted segments) :
    ((segments.flatMap withoutFault).flatMap chars).count '\n' =
      (segments.flatMap chars).count '\n' := by
  induction hfitted with
  | nil => rfl
  | cons hlegal _ _ ih =>
      rw [List.flatMap_cons, List.flatMap_append, List.count_append, count_withoutFault hlegal,
        ih, List.flatMap_cons, List.count_append]

/-! ## The text without its faults -/

theorem find?_faultsFrom_of_fault?
    {segment : Segment} {cursor : Cursor} {fault : Fault}
    (hfault : segment.fault? cursor (cursor.advance segment.chars) = some fault)
    {earlier : List Fault} (hearlier : ∀ fault ∈ earlier, fault.position < cursor.position)
    (segments : List Segment) :
    (earlier ++ faultsFrom cursor (segment :: segments)).find?
      (·.position = cursor.position) = some fault := by
  rw [find?_append_of_before hearlier, faultsFrom_cons, hfault]
  simp [position_of_fault? hfault]

/-- Blanking the faults of a text, by their positions, gives the text of the segments without their
faults. -/
theorem Fitted.blankFaults_eq
    {segments : List Segment} (hfitted : Fitted segments) (cursor : Cursor)
    (earlier : List Fault) (hearlier : ∀ fault ∈ earlier, fault.position < cursor.position) :
    blankFaults (earlier ++ faultsFrom cursor segments) cursor.position
        (segments.flatMap chars) =
      (segments.flatMap withoutFault).flatMap chars := by
  induction hfitted generalizing cursor earlier with
  | nil => rfl
  | @cons segment segments hlegal hmax hfitted ih =>
      have hpos := byteLength_pos hlegal.chars_ne_nil
      have hnext : ∀ fault ∈ earlier ++
          (segment.fault? cursor (cursor.advance segment.chars)).toList,
          fault.position < (cursor.advance segment.chars).position := by
        intro fault hfault
        rcases List.mem_append.mp hfault with hfault | hhere
        · have hbefore := hearlier fault hfault
          simp only [Cursor.advance]
          omega
        · have hhere := position_of_fault? (Option.mem_toList.mp hhere)
          simp only [Cursor.advance]
          omega
      have hlater := ih (cursor.advance segment.chars) _ hnext
      rw [List.append_assoc, ← faultsFrom_cons] at hlater
      rw [List.flatMap_cons, List.flatMap_cons, List.flatMap_append]
      rcases segment.faulty_cases with ⟨c, rfl⟩ | ⟨body, rfl⟩ | hquiet
      · rw [chars, List.singleton_append, blankFaults, find?_faultsFrom_of_fault? rfl hearlier]
        simpa [Cursor.advance, chars, withoutFault] using hlater
      · -- the open string is the last segment, and nothing is left to blank behind it
        obtain rfl := (Fitted.cons hlegal hmax hfitted).eq_nil_of_openString
        rw [withoutFault_openString, Gap.flatMap_chars_segments, chars, List.cons_append,
          blankFaults, find?_faultsFrom_of_fault? rfl hearlier]
        simp [lineFeeds]
      · -- no fault lies in the segment: the earlier ones lie before it, the later ones behind it
        have hclear : ∀ fault ∈ earlier ++ faultsFrom cursor (segment :: segments),
            fault.position < cursor.position ∨
              cursor.position + byteLength segment.chars ≤ fault.position := by
          intro fault hfault
          rw [faultsFrom_cons, fault?_of_quiet hquiet] at hfault
          rcases List.mem_append.mp hfault with hfault | hfault
          · exact .inl (hearlier fault hfault)
          · exact .inr (hfitted.position_le_of_mem_faultsFrom hfault)
        rw [blankFaults_append_of_clear hclear, withoutFault_of_quiet hquiet,
          List.flatMap_singleton, ← hlater]
        rfl

end Segment

/-- A source without the faults of its scan has none, and is scanned into the same tokens. -/
theorem tokenize_cleanSource (source : String) :
    tokenize (cleanSource source) = .ok (scan source).tokens := by
  have hfitted := Segment.fitted_cut source.toList
  have htext : (cleanSource source).toList =
      ((Segment.cut source.toList).flatMap Segment.withoutFault).flatMap Segment.chars := by
    have hblank := hfitted.blankFaults_eq .origin [] (by simp)
    rw [List.nil_append, ← faults_scan, Segment.flatMap_chars_cut] at hblank
    rw [cleanSource, String.toList_ofList]
    exact hblank
  have hcut : Segment.cut (cleanSource source).toList =
      (Segment.cut source.toList).flatMap Segment.withoutFault := by
    rw [htext]
    exact hfitted.withoutFaults.cut_flatMap_chars
  have hfaults : (scan (cleanSource source)).log.toList = [] := by
    rw [faults_scan, hcut, Segment.faultsFrom_eq_nil_iff]
    intro segment hmem
    obtain ⟨other, -, hother⟩ := List.mem_flatMap.mp hmem
    exact Segment.quiet_of_mem_withoutFault segment hother
  have hlines : lastLine (cleanSource source).toList = lastLine source.toList := by
    rw [lastLine, htext, hfitted.count_withoutFaults, Segment.flatMap_chars_cut, lastLine]
  rw [tokenize_eq, if_pos hfaults, tokens_scan, tokens_scan, hcut, hlines,
    hfitted.tokensFrom_withoutFaults rfl]

example : cleanSource "a@é\"b\nc" = "a  \n" := by decide +kernel

end LoxLexer
