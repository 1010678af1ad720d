import LoxLexer.Proofs.Concatenation
import LoxLexer.Proofs.SessionOutput
import LoxLexer.Proofs.TokenLayout

/-!
# A prompt and a file

The prompt scans each line of its input on its own; a file is scanned as a whole.  If no line but
the last leaves a string open, both read the same tokens and meet the same faults.

A line feed continues no segment but an open string, so the cut of a text is made of the cuts of its
lines.  The prompt sees a line without its end; what it misses are blanks, and a blank at the end of
a text is a segment of its own or belongs to the comment or the open string before it
(`cut_append_blank`).
-/

namespace LoxLexer

namespace Segment

/-! ## A blank at the end -/

def withBlank (c : Char) : Segment → List Segment
  | .comment body => if c = '\n' then [.comment body, .blank c] else [.comment (body ++ [c])]
  | .openString body => [.openString (body ++ [c])]
  | segment => [segment, .blank c]

/-- The segments of a text to which a blank is added. -/
def addBlank (c : Char) : List Segment → List Segment
  | [] => [.blank c]
  | segment :: segments =>
    if segments = [] then segment.withBlank c else segment :: addBlank c segments

@[simp] theorem addBlank_nil (c : Char) : addBlank c [] = [.blank c] := rfl

@[simp] theorem addBlank_singleton (c : Char) (segment : Segment) :
    addBlank c [segment] = segment.withBlank c := rfl

theorem addBlank_cons_cons (c : Char) (first second : Segment) (segments : List Segment) :
    addBlank c (first :: second :: segments) = first :: addBlank c (second :: segments) := rfl

/-- The blank stands apart, or the segment takes it in. -/
theorem withBlank_cases (c : Char) (segment : Segment) :
    (segment.withBlank c = [segment, .blank c] ∧ (∀ body, segment ≠ .openString body) ∧
        ∀ body, segment = .comment body → c = '\n') ∨
      (∃ body, segment = .comment body ∧ c ≠ '\n' ∧
        segment.withBlank c = [.comment (body ++ [c])]) ∨
      ∃ body, segment = .openString body ∧ segment.withBlank c = [.openString (body ++ [c])] := by
  cases segment with
  | comment body =>
      by_cases hfeed : c = '\n'
      · exact .inl ⟨if_pos hfeed, by simp, fun _ _ => hfeed⟩
      · exact .inr (.inl ⟨body, rfl, hfeed, if_neg hfeed⟩)
  | openString body => exact .inr (.inr ⟨body, rfl, rfl⟩)
  | _ => exact .inl ⟨rfl, by simp, by simp⟩

theorem flatMap_chars_addBlank (c : Char) (segments : List Segment) :
    (addBlank c segments).flatMap chars = segments.flatMap chars ++ [c] := by
  induction segments with
  | nil => rfl
  | cons first segments ih =>
      cases segments with
      | nil =>
          rw [addBlank_singleton]
          rcases first.withBlank_cases c with
            ⟨hblank, -⟩ | ⟨body, rfl, -, hblank⟩ | ⟨body, rfl, hblank⟩ <;>
            simp [hblank, chars]
      | cons second segments =>
          rw [addBlank_cons_cons, List.flatMap_cons, ih, ← List.append_assoc, ← List.flatMap_cons]

theorem maximalBefore_blank
    {c : Char} (hc : isBlank c = true) {segment : Segment}
    (hcomment : ∀ body, segment = .comment body → c = '\n') : segment.MaximalBefore [c] := by
  have hhead : ∀ d ∈ [c].head?, d = c := by
    rintro d hd
    cases hd
    rfl
  cases segment with
  | comment body =>
      intro d hd
      rw [hhead d hd, hcomment body rfl]
  | operator op =>
      intro d hd
      rw [hhead d hd]
      constructor
      · rintro - rfl
        cases hc
      · rintro - rfl
        cases hc
  | number numeral =>
      constructor
      · intro d hd
        rw [hhead d hd, Spaced.isDigit_eq_false_of_isBlank hc]
      · intro _ d tail hrest
        cases hrest
  | word text =>
      intro d hd
      rw [hhead d hd, Spaced.isWordPart_eq_false_of_isBlank hc]
  | blank | string | openString | stray => trivial

theorem fitted_withBlank
    {c : Char} (hc : isBlank c = true) {segment : Segment} (hlegal : segment.LegalBefore []) :
    Fitted (segment.withBlank c) := by
  rcases segment.withBlank_cases c with
    ⟨hblank, hclosed, hcomment⟩ | ⟨body, rfl, hfeed, hblank⟩ | ⟨body, rfl, hblank⟩
  · rw [hblank]
    exact .cons (hlegal.of_not_open hclosed _) (maximalBefore_blank hc hcomment)
      (.cons hc trivial .nil)
  · have hbody : '\n' ∉ body ++ [c] := by
      simpa using ⟨hlegal, Ne.symm hfeed⟩
    rw [hblank]
    exact .cons hbody (maximalBefore_nil _) .nil
  · have hquote : c ≠ '"' := by
      rintro rfl
      cases hc
    have hbody : '"' ∉ body ++ [c] := by
      simpa using ⟨hlegal.1, hquote.symm⟩
    rw [hblank]
    exact .cons ⟨hbody, rfl⟩ trivial .nil

theorem Fitted.addBlank
    {segments : List Segment} (hfitted : Fitted segments) {c : Char} (hc : isBlank c = true) :
    Fitted (addBlank c segments) := by
  induction hfitted with
  | nil => exact .cons hc trivial .nil
  | @cons first segments hlegal hmax hfitted ih =>
      cases segments with
      | nil => exact fitted_withBlank hc hlegal
      | cons second segments =>
          have hrest : (second :: segments).flatMap chars ≠ [] := by
            cases hfitted with
            | cons hnext _ _ => simp [hnext.chars_ne_nil]
          have hclosed : ∀ body, first ≠ .openString body := by
            rintro body rfl
            exact hrest hlegal.2
          rw [addBlank_cons_cons]
          refine .cons (hlegal.of_not_open hclosed _) ?_ ih
          rw [flatMap_chars_addBlank]
          refine hmax.append hrest [c] ?_
          rintro numeral - - - d hd
          cases hd
          exact Spaced.isDigit_eq_false_of_isBlank hc

end Segment

/-- No line of a text but the last leaves a string open. -/
def ClosedLines (text : List Char) : Prop :=
  ∀ line ∈ (textLines text).dropLast, ∀ fault ∈ (scan (String.ofList line)).log.toList,
    fault.cause ≠ .unterminatedString

instance (text : List Char) : Decidable (ClosedLines text) :=
  inferInstanceAs (Decidable (∀ line ∈ (textLines text).dropLast,
    ∀ fault ∈ (scan (String.ofList line)).log.toList, fault.cause ≠ .unterminatedString))

theorem ClosedLines.rest
    {line rest : List Char} (hline : '\n' ∉ line)
    (hclosed : ClosedLines (line ++ '\n' :: rest)) : ClosedLines rest := by
  intro other hother
  refine hclosed other ?_
  rw [textLines, splitLines_append_lineFeed id hline]
  cases hlines : splitLines id rest with
  | nil => simp [textLines, hlines] at hother
  | cons next later =>
      rw [textLines, hlines] at hother
      exact List.mem_cons_of_mem _ hother

end LoxLexer
