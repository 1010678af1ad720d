import LoxLexer.Proofs.CaretPlacement

/-!
# Rendering any fault

A fault need not come from a scan: its position may be any byte of the source, or lie behind it, and
its line any number.  Its rendering has a row for its name and a row for the file, and, if the
position lies in the source, three rows more for the line that holds the byte.  The bars of these
three stand below each other, whatever the number of the line.  There is no rendering exactly if the
caret and its indentation are wider than the limit.
-/

namespace LoxLexer

/-! ## The rows of any fault -/

/-- The row with the name of a fault and the hint that belongs to it. -/
def Fault.Cause.row : Cause → String
  | .unterminatedString => "Error: UnterminatedString (add a closing `\"` to end the string)"
  | .unexpectedCharacter c =>
    if c.toNat < 0x80 then "Error: UnexpectedCharacter"
    else
      "Error: UnexpectedCharacter (`" ++ c.toString ++ "` is only allowed inside string literals)"

theorem Fault.Cause.row_eq (cause : Cause) :
    cause.row = "Error: " ++ cause.name ++
      (match cause.hint? with
        | some hint => " (" ++ hint ++ ")"
        | none => "") := by
  cases cause with
  | unterminatedString => decide +kernel
  | unexpectedCharacter c =>
      by_cases hascii : c.toNat < 0x80
      · have hplain : "Error: UnexpectedCharacter" =
            "Error: " ++ "UnexpectedCharacter" ++ "" := by
          decide +kernel
        simp only [row, hint?, name, if_pos hascii, hplain]
      · have hopen : "Error: UnexpectedCharacter (`" =
            "Error: " ++ "UnexpectedCharacter" ++ " (" ++ "`" := by
          decide +kernel
        have hclose : "` is only allowed inside string literals)" =
            "` is only allowed inside string literals" ++ ")" := by
          decide +kernel
        simp only [row, hint?, name, if_neg hascii, hopen, hclose, String.append_assoc]

theorem Fault.heading_eq (fault : Fault) (fileName : String) :
    fault.heading fileName = fault.cause.row ++ "\n" ++ ("-> " ++ fileName) ++ "\n" := by
  have hfile : "\n-> " = "\n" ++ "-> " := by
    decide +kernel
  rw [Cause.row_eq, heading]
  cases fault.cause.hint? <;> simp only [hfile, String.append_assoc]

/-- A hint may quote the character at fault, but no line feed, which is an ASCII character. -/
theorem Fault.Cause.lineFeed_notMem_row (cause : Cause) : '\n' ∉ cause.row.toList := by
  cases cause with
  | unterminatedString => decide +kernel
  | unexpectedCharacter c =>
      rw [row]
      split
      · decide +kernel
      · next hascii =>
        have hc : '\n' ≠ c := by
          rintro rfl
          exact hascii (by decide)
        have hopen : '\n' ∉ "Error: UnexpectedCharacter (`".toList := by
          decide +kernel
        have hclose : '\n' ∉ "` is only allowed inside string literals)".toList := by
          decide +kernel
        have hquoted : '\n' ∉ c.toString.toList := by
          simpa using hc
        rw [String.toList_append, String.toList_append, List.mem_append, List.mem_append, not_or,
          not_or]
        exact ⟨⟨hopen, hquoted⟩, hclose⟩

/-! ## The rows of a line -/

namespace ByteLine

variable {source : List Char} {position : Nat}

/-- The digits of the number of the line. -/
def digits (line : ByteLine source position) : List Char :=
  Nat.toDigits 10 line.number

/-- The spaces and tabs that the line begins with. -/
def indentation (line : ByteLine source position) : Nat :=
  (line.text.takeWhile fun c => c = ' ' || c = '\t').length

/-- The dashes in front of the caret; none if the position lies in the indentation. -/
def dashes (line : ByteLine source position) : Nat :=
  line.offset - line.indentation

def gutterRow (line : ByteLine source position) : List Char :=
  List.replicate (line.digits.length + 1) ' ' ++ ['|']

def textRow (line : ByteLine source position) : List Char :=
  line.digits ++ ' ' :: '|' :: ' ' :: trim line.text

def caretRow (line : ByteLine source position) : List Char :=
  line.gutterRow ++ ' ' :: List.replicate line.dashes '-' ++ ['^']

def rows (line : ByteLine source position) : List (List Char) :=
  [line.gutterRow, line.textRow, line.caretRow]

theorem isDigit_of_mem_digits (line : ByteLine source position) :
    ∀ c ∈ line.digits, c.isDigit = true :=
  fun _ hc => Nat.isDigit_of_mem_toDigits (by decide) (by decide) hc

theorem toList_snippet (line : ByteLine source position) :
    (SourceLine.mk line.number line.text line.offset).snippet.toList =
      line.rows.flatMap (· ++ ['\n']) := by
  have hdigits : (toString line.number).toList = line.digits := by
    simp [digits]
  have hlength : (toString line.number).length = line.digits.length := by
    rw [← String.length_toList, hdigits]
  have hgutter : (SourceLine.mk line.number line.text line.offset).gutter.toList =
      List.replicate (line.digits.length + 1) ' ' := by
    rw [SourceLine.gutter, toList_pushn, hlength]
    simp
  rw [LoxLexer.toList_snippet, hgutter, label, margin, hlength]
  simp [rows, gutterRow, textRow, caretRow, digits, dashes, indentation, SourceLine.caretIndent,
    SourceLine.indentation]

/-- The first bar of each row stands behind as many bytes. -/
theorem exists_bar (line : ByteLine source position) :
    ∀ row ∈ line.rows, ∃ before after, row = before ++ '|' :: after ∧ '|' ∉ before ∧
      byteLength before = line.digits.length + 1 := by
  have hblanks : byteLength (List.replicate (line.digits.length + 1) ' ') =
      line.digits.length + 1 := by
    rw [(byteLength_eq_length_iff _).mpr, List.length_replicate]
    intro c hc
    rw [List.eq_of_mem_replicate hc]
    rfl
  have hnumber : byteLength (line.digits ++ [' ']) = line.digits.length + 1 := by
    rw [(byteLength_eq_length_iff _).mpr, List.length_append, List.length_singleton]
    intro c hc
    rcases List.mem_append.mp hc with hdigit | hblank
    · exact utf8Size_eq_one_of_isDigit (line.isDigit_of_mem_digits c hdigit)
    · rw [List.mem_singleton.mp hblank]
      rfl
  have hbar : '|' ∉ line.digits := fun hmem => by
    cases line.isDigit_of_mem_digits '|' hmem
  intro row hrow
  simp only [rows, List.mem_cons, List.not_mem_nil, or_false] at hrow
  rcases hrow with rfl | rfl | rfl
  · exact ⟨_, [], rfl, by simp, hblanks⟩
  · exact ⟨line.digits ++ [' '], ' ' :: trim line.text, by simp [textRow], by simp [hbar], hnumber⟩
  · exact ⟨_, ' ' :: List.replicate line.dashes '-' ++ ['^'], by simp [caretRow, gutterRow],
      by simp, hblanks⟩

theorem lineFeed_notMem_rows (line : ByteLine source position) :
    ∀ row ∈ line.rows, '\n' ∉ row := by
  have hdigits : '\n' ∉ line.digits := fun hmem => by
    cases line.isDigit_of_mem_digits '\n' hmem
  have htrim := lineFeed_notMem_trim line.isLine.single
  intro row hrow
  simp only [rows, List.mem_cons, List.not_mem_nil, or_false] at hrow
  rcases hrow with rfl | rfl | rfl
  · simp [gutterRow]
  · simp [textRow, hdigits, htrim]
  · simp [caretRow, gutterRow]

/-! ## The rendering -/

/-- A rendering of the fault with the rows of its line. -/
structure Drawn
    (fault : Fault) (fileName : String) (line : ByteLine source position) (rendering : String) :
    Prop where
  text_eq : rendering.toList =
    fault.cause.row.toList ++ '\n' :: ("-> " ++ fileName).toList ++ '\n' ::
      line.gutterRow ++ '\n' :: line.textRow ++ '\n' :: line.caretRow ++ ['\n']
  number_eq : line.number = 1 + ((utf8Bytes source).take position).count 0x0A
  /-- The text is that of the line without the white space at its ends. -/
  trimmed : ∃ front back, line.text = front ++ trim line.text ++ back ∧
    (∀ c ∈ front, isWhiteSpace c = true) ∧ (∀ c ∈ back, isWhiteSpace c = true)
  head_trim : ∀ c ∈ (trim line.text).head?, isWhiteSpace c = false
  getLast_trim : ∀ c ∈ (trim line.text).getLast?, isWhiteSpace c = false
  lineFeed_notMem : '\n' ∉ trim line.text
  bars : ∀ row ∈ line.rows, ∃ before after, row = before ++ '|' :: after ∧ '|' ∉ before ∧
    byteLength before = line.digits.length + 1

theorem drawn
    {fault : Fault} {fileName rendering : String} (line : ByteLine source position)
    (htext : rendering =
      fault.heading fileName ++ (SourceLine.mk line.number line.text line.offset).snippet) :
    line.Drawn fault fileName rendering where
  text_eq := by
    rw [htext, Fault.heading_eq, String.toList_append, toList_snippet]
    simp [rows]
  number_eq := line.number_eq
  trimmed := by
    obtain ⟨back, hback, hwhite⟩ := exists_dropped line.text
    exact ⟨_, back, hback, fun _ => List.mem_takeWhile_imp, hwhite⟩
  head_trim := isWhiteSpace_head_trim line.text
  getLast_trim := isWhiteSpace_getLast_trim line.text
  lineFeed_notMem := lineFeed_notMem_trim line.isLine.single
  bars := line.exists_bar

theorem Drawn.count_lineFeed
    {fault : Fault} {fileName rendering : String} {line : ByteLine source position}
    (hdrawn : line.Drawn fault fileName rendering) :
    rendering.toList.count '\n' = 5 + fileName.toList.count '\n' := by
  have hrows : ∀ row ∈ line.rows, row.count '\n' = 0 :=
    fun row hrow => List.count_eq_zero.mpr (line.lineFeed_notMem_rows row hrow)
  have hname : fault.cause.row.toList.count '\n' = 0 :=
    List.count_eq_zero.mpr fault.cause.lineFeed_notMem_row
  have hgutter := hrows line.gutterRow (by simp [rows])
  have hline := hrows line.textRow (by simp [rows])
  have hcaret := hrows line.caretRow (by simp [rows])
  rw [hdrawn.text_eq]
  simp [hname, hgutter, hline, hcaret]
  omega

end ByteLine

/-- What the rendering of a fault is, for any fault, source and name of a file.  It exists unless
the position lies in the source and the caret with its dashes exceeds the width; it has the rows of
the line of that byte just if the position lies in the source; and the line of the fault has no part
in it. -/
theorem render_exact (fault : Fault) (source fileName : String) :
    (Nonempty (ByteLine source.toList fault.position) ↔
      fault.position < source.utf8ByteSize) ∧
    (∀ line : ByteLine source.toList fault.position,
      ((∃ overflow, fault.render source fileName = .error overflow) ↔
        65535 < line.offset - line.indentation + 1) ∧
      ∀ rendering, fault.render source fileName = .ok rendering →
        line.Drawn fault fileName rendering ∧
        rendering.toList.count '\n' = 5 + fileName.toList.count '\n') ∧
    (source.utf8ByteSize ≤ fault.position →
      ∃ rendering, fault.render source fileName = .ok rendering ∧
        rendering.toList =
          fault.cause.row.toList ++ '\n' :: ("-> " ++ fileName).toList ++ ['\n'] ∧
        rendering.toList.count '\n' = 2 + fileName.toList.count '\n') ∧
    ∀ noticed, ({ fault with line := noticed } : Fault).render source fileName =
      fault.render source fileName := by
  refine ⟨?_, fun line => ?_, fun hbehind => ?_, fun noticed => rfl⟩
  · rw [ByteLine.nonempty_iff, byteLength_toList]
  · have hcolumns : (SourceLine.mk line.number line.text line.offset).caretIndent =
        line.offset - line.indentation := rfl
    simp only [Fault.render, line.lineAt?_eq, hcolumns, maxCaretColumns]
    split
    · next hwide => simp [hwide]
    · next hfits =>
      refine ⟨by simp [hfits], fun rendering hrendering => ?_⟩
      have hdrawn := line.drawn (Except.ok.inj hrendering).symm
      exact ⟨hdrawn, hdrawn.count_lineFeed⟩
  · rw [← byteLength_toList] at hbehind
    refine ⟨fault.heading fileName, ?_, ?_, ?_⟩
    · rw [Fault.render, lineAt?_eq_none hbehind]
    · rw [Fault.heading_eq]
      simp
    · have hname : fault.cause.row.toList.count '\n' = 0 :=
        List.count_eq_zero.mpr fault.cause.lineFeed_notMem_row
      rw [Fault.heading_eq]
      simp [hname]
      omega

/-- The position is the second byte of the `é`, the name of the file has a line feed, and the line
of the fault is none of the source; then a position behind the source. -/
theorem render_exact_inside_character :
    let source := "x\n\t\u3000é| \nz"
    let fault : Fault := ⟨.unexpectedCharacter '#', 70, 7⟩
    let rendering := "Error: UnexpectedCharacter\n-> a\nb\n  |\n2 | é|\n  | ----^\n"
    fault.render source "a\nb" = .ok rendering ∧
    Nonempty (ByteLine source.toList fault.position) ∧
    (∀ line : ByteLine source.toList fault.position,
      line.Drawn fault "a\nb" rendering ∧ rendering.toList.count '\n' = 6) ∧
    ∃ rendering, ({ fault with position := 12 } : Fault).render source "a\nb" = .ok rendering ∧
      rendering.toList.count '\n' = 3 := by
  intro source fault rendering
  have hrender : fault.render source "a\nb" = .ok rendering := by
    decide +kernel
  have hsize : source.utf8ByteSize = 12 := by
    decide +kernel
  obtain ⟨hnonempty, hline, -⟩ := render_exact fault source "a\nb"
  obtain ⟨-, -, hbehind, -⟩ := render_exact { fault with position := 12 } source "a\nb"
  obtain ⟨short, hshort, -, hcount⟩ := hbehind hsize.le
  refine ⟨hrender, hnonempty.mpr ?_, fun line => (hline line).2 rendering hrender,
    short, hshort, hcount⟩
  rw [hsize]
  decide

end LoxLexer
