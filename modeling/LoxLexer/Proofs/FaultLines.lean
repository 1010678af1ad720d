import LoxLexer.Proofs.CaretPlacement

/-!
# The two lines of a fault

A fault is told twice with the number of a line: its notice has the line on which it was noticed,
counted by the scan on its way, and the row of its rendering has the line of its position, looked up
in the source afterwards.  A stray character is noticed where it stands.  An open string is noticed
at the end of the source, and its position is that of its quote; so the two numbers differ by the
line feeds in the open string.
-/

namespace LoxLexer

open Segment

/-! ## The line a fault is noticed on -/

theorem exists_noticed_of_mem_faults
    {source : String} {fault : Fault} (hfault : fault ∈ (scan source).log.toList) :
    ∃ before after, source.toList = before ++ fault.cause.character :: after ∧
      fault.position = byteLength before ∧
      fault.line = 1 + before.count '\n' +
        if fault.cause = .unterminatedString then after.count '\n' else 0 := by
  rw [faults_scan] at hfault
  obtain ⟨before, segment, after, hcut, hsegment⟩ := exists_of_mem_faultsFrom hfault
  have hfitted := fitted_cut source.toList
  have hsource := flatMap_chars_cut source.toList
  rw [hcut] at hfitted hsource
  rw [List.flatMap_append, List.flatMap_cons] at hsource
  refine ⟨before.flatMap chars, segment.chars.tail ++ after.flatMap chars, ?_⟩
  rw [Cursor.origin_advance_eq_move] at hsegment
  cases segment with
  | openString body =>
      obtain rfl := hfitted.of_append.eq_nil_of_openString
      cases hsegment
      rw [← hsource]
      simp [chars, Fault.Cause.character, Cursor.move, Cursor.advance, Cursor.origin]
  | stray c =>
      cases hsegment
      rw [← hsource]
      simp [chars, Fault.Cause.character, Cursor.move, Cursor.origin]
  | blank | comment | operator | number | word | string => cases hsegment

/-! ## The line of its position -/

/-- The line that the lookup finds for the first byte of a character. -/
theorem exists_lineAt?_eq_some (before : List Char) (c : Char) (after : List Char) :
    ∃ line left right, lineAt? (before ++ c :: after) (byteLength before) = some line ∧
      line.number = 1 + before.count '\n' ∧ line.text = left ++ c :: right ∧
      '\n' ∉ line.text.dropLast ∧ line.offset = byteLength left := by
  obtain ⟨above, left, right, below, rfl, rfl, hline⟩ := exists_isLine before c after
  have hoffset : byteLength left < byteLength (left ++ c :: right) := by
    have hpos := c.utf8Size_pos
    rw [byteLength_append, byteLength_cons]
    omega
  have hfound := lineAt?_of_isLine hline hoffset
  have hsource : above ++ (left ++ c :: right) ++ below =
      above ++ left ++ c :: (right ++ below) := by
    simp
  rw [hsource, ← byteLength_append] at hfound
  refine ⟨_, left, right, hfound, ?_, rfl, hline.single, rfl⟩
  rw [List.count_append, List.count_eq_zero.mpr hline.lineFeed_notMem_left, Nat.add_zero]

/-! ## The two numbers as they are printed -/

/-- The number in the notice of a fault, behind the six characters of `[line `. -/
def Fault.noticeNumber (fault : Fault) : List Char :=
  (fault.notice.toList.drop 6).takeWhile Char.isDigit

/-- The number of the line in front of the row that shows it. -/
def snippetNumber (rendering : String) : List Char :=
  (sourceRow rendering).takeWhile Char.isDigit

theorem takeWhile_toString_append
    (number : Nat) {rest : List Char} (hrest : ∀ c ∈ rest.head?, c.isDigit = false) :
    ((toString number).toList ++ rest).takeWhile Char.isDigit = Nat.toDigits 10 number := by
  have hdigits : (toString number).toList = Nat.toDigits 10 number := by
    simp
  rw [hdigits]
  apply takeWhile_append_of_stop _ hrest
  intro c hc
  exact Nat.isDigit_of_mem_toDigits (by decide) (by decide) hc

theorem Fault.noticeNumber_eq (fault : Fault) :
    fault.noticeNumber = Nat.toDigits 10 fault.line := by
  have hstop : ∀ c ∈ ("] Error: " ++ fault.cause.message ++ "\n").toList.head?,
      c.isDigit = false := by
    simp
  rw [noticeNumber, ← takeWhile_toString_append fault.line hstop]
  congr 1
  simp [notice]

theorem snippetNumber_eq
    {rendering : String} {number : Nat} {text : List Char}
    (hrow : sourceRow rendering = label number ++ text) :
    snippetNumber rendering = Nat.toDigits 10 number := by
  have hstop : ∀ c ∈ (" | ".toList ++ text).head?, c.isDigit = false := by
    simp
  rw [snippetNumber, hrow, label, String.toList_append, List.append_assoc,
    takeWhile_toString_append number hstop]

theorem toDigits_eq_iff {first second : Nat} :
    Nat.toDigits 10 first = Nat.toDigits 10 second ↔ first = second := by
  constructor
  · intro hdigits
    have hvalue := congrArg (Nat.ofDigitChars 10 · 0) hdigits
    simpa only [Nat.ofDigitChars_toDigits (b := 10) (by decide) (by decide)] using hvalue
  · exact congrArg (Nat.toDigits 10)

/-- The lookup finds the line of a fault, and the character at fault on it.  A stray character is
told with that line; an open string with the last line of the source, which is further down by the
line feeds in it.  So the numbers printed in the notice and in front of the row differ just if an
open string holds a line feed. -/
theorem fault_lines
    {source : String} {fault : Fault} (hfault : fault ∈ (scan source).log.toList) :
    ∃ before after line,
      source.toList = before ++ fault.cause.character :: after ∧
      fault.position = byteLength before ∧
      lineAt? source.toList fault.position = some line ∧
      (∃ left right, line.text = left ++ fault.cause.character :: right ∧
        line.offset = byteLength left) ∧
      (∀ c, fault.cause = .unexpectedCharacter c → fault.line = line.number) ∧
      (fault.cause = .unterminatedString →
        fault.line = line.number + after.count '\n' ∧
        (scan source).tokens.getLast? = some (.endOfSource fault.line)) ∧
      (fault.line ≠ line.number ↔ fault.cause = .unterminatedString ∧ '\n' ∈ after) ∧
      ∀ fileName rendering, fault.render source fileName = .ok rendering →
        rendering = fault.heading fileName ++ line.snippet ∧
        (fault.noticeNumber ≠ snippetNumber rendering ↔
          fault.cause = .unterminatedString ∧ '\n' ∈ after) := by
  obtain ⟨before, after, hsource, hposition, hnoticed⟩ := exists_noticed_of_mem_faults hfault
  obtain ⟨line, left, right, hfound, hnumber, htext, hsingle, hoffset⟩ :=
    exists_lineAt?_eq_some before fault.cause.character after
  rw [← hsource, ← hposition] at hfound
  have hdiffer : fault.line ≠ line.number ↔
      fault.cause = .unterminatedString ∧ '\n' ∈ after := by
    rw [hnoticed, ← hnumber, ← List.count_pos_iff]
    split
    · next hopen =>
      simp only [hopen, true_and]
      omega
    · next hstray => simp [hstray]
  refine ⟨before, after, line, hsource, hposition, hfound, ⟨left, right, htext, hoffset⟩,
    ?_, ?_, hdiffer, ?_⟩
  · intro c hcause
    rw [hnoticed, hnumber, hcause]
    rfl
  · intro hopen
    have hlast : fault.line = lastLine source.toList := by
      rw [hnoticed, if_pos hopen, lastLine, hsource, hopen]
      simp [Fault.Cause.character, Nat.add_assoc]
    refine ⟨?_, ?_⟩
    · rw [hnoticed, if_pos hopen, hnumber]
    · rw [tokens_scan, List.getLast?_concat, hlast]
  · intro fileName rendering hrender
    obtain ⟨hrow, -⟩ := rows_of_render hfound hsingle hrender
    refine ⟨?_, ?_⟩
    · simp only [Fault.render, hfound] at hrender
      split_ifs at hrender
      exact (Except.ok.inj hrender).symm
    · rw [Fault.noticeNumber_eq, snippetNumber_eq hrow, ne_eq, toDigits_eq_iff]
      exact hdiffer

/-- The string is open from the second line to the fourth. -/
theorem fault_lines_of_open_string :
    let source := "a;\n  \"b\n\nc"
    let fault : Fault := ⟨.unterminatedString, 4, 5⟩
    let rendering := "Error: UnterminatedString (add a closing `\"` to end the string)\n" ++
      "-> a.lox\n  |\n2 | \"b\n  | ^\n"
    fault ∈ (scan source).log.toList ∧ fault.render source "a.lox" = .ok rendering ∧
    lineAt? source.toList fault.position = some ⟨2, "  \"b\n".toList, 2⟩ ∧
    fault.noticeNumber ≠ snippetNumber rendering := by
  intro source fault rendering
  have hfault : fault ∈ (scan source).log.toList := by
    decide +kernel
  have hrender : fault.render source "a.lox" = .ok rendering := by
    decide +kernel
  have hline : lineAt? source.toList fault.position = some ⟨2, "  \"b\n".toList, 2⟩ := by
    decide +kernel
  obtain ⟨before, after, line, -, -, hfound, -, -, hopen, -, hprinted⟩ := fault_lines hfault
  obtain rfl := Option.some.inj (hfound.symm.trans hline)
  have hcount : 4 = 2 + after.count '\n' := (hopen rfl).1
  have hmem : '\n' ∈ after := by
    rw [← List.count_pos_iff]
    omega
  exact ⟨hfault, hrender, hline, (hprinted "a.lox" rendering hrender).2.mpr ⟨rfl, hmem⟩⟩

end LoxLexer
