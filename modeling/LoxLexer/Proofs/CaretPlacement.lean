import LoxLexer.Proofs.SnippetRows

/-!
# The place of the caret

A caret belongs under the character at fault.  Its column counts the bytes of the line before that
character, less the spaces and tabs the line begins with; the row above shows the line without any
white space at its ends.  So the caret is too far right by the bytes of other white space in front
of the line, and, seen as a count of characters, by the bytes that those in between take beyond one.
-/

namespace LoxLexer

open Segment

/-- The character at fault: one that begins no token, or the quote that opens a string. -/
def Fault.Cause.character : Cause → Char
  | .unterminatedString => '"'
  | .unexpectedCharacter character => character

namespace Segment

/-- A segment with a fault begins with the character at fault, and that is no blank. -/
theorem LegalBefore.exists_chars_of_fault?
    {segment : Segment} {rest : List Char} (hlegal : segment.LegalBefore rest)
    {start stop : Cursor} {fault : Fault} (hfault : segment.fault? start stop = some fault) :
    isBlank fault.cause.character = false ∧
      ∃ tail, segment.chars = fault.cause.character :: tail := by
  cases segment with
  | openString body =>
      cases hfault
      exact ⟨rfl, body, rfl⟩
  | stray c =>
      cases hfault
      exact ⟨hlegal.notBlank, [], rfl⟩
  | blank | comment | operator | number | word | string => cases hfault

end Segment

theorem exists_character_of_mem_faults
    {source : String} {fault : Fault} (hfault : fault ∈ (scan source).log.toList) :
    isBlank fault.cause.character = false ∧
      ∃ before after, source.toList = before ++ fault.cause.character :: after ∧
        fault.position = byteLength before := by
  rw [faults_scan] at hfault
  obtain ⟨before, segment, after, hcut, hsegment⟩ := exists_of_mem_faultsFrom hfault
  have hfitted := fitted_cut source.toList
  rw [hcut] at hfitted
  cases hfitted.of_append with
  | cons hlegal _ _ =>
      obtain ⟨hblank, tail, hchars⟩ := hlegal.exists_chars_of_fault? hsegment
      refine ⟨hblank, before.flatMap chars, tail ++ after.flatMap chars, ?_, ?_⟩
      · rw [← flatMap_chars_cut source.toList, hcut, List.flatMap_append, List.flatMap_cons, hchars]
        rfl
      · rw [position_of_fault? hsegment, Cursor.origin_advance_eq_move]
        exact Nat.zero_add _

/-! ## Bytes and characters -/

theorem byteLength_eq_length_iff (text : List Char) :
    byteLength text = text.length ↔ ∀ c ∈ text, c.utf8Size = 1 := by
  induction text with
  | nil => simp
  | cons c text ih =>
      have hpos := c.utf8Size_pos
      have hle := length_le_byteLength text
      rw [List.forall_mem_cons, ← ih, byteLength_cons, List.length_cons]
      omega

theorem byteLength_le_of_prefix
    {front text : List Char} (hfront : front <+: text) : byteLength front ≤ byteLength text := by
  obtain ⟨rest, rfl⟩ := hfront
  rw [byteLength_append]
  omega

theorem utf8Size_eq_one_of_isDigit {c : Char} (hc : c.isDigit = true) : c.utf8Size = 1 := by
  simp only [Char.isDigit, Bool.and_eq_true, decide_eq_true_eq, UInt32.le_iff_toNat_le] at hc
  rw [Char.utf8Size_eq_one_iff, UInt32.le_iff_toNat_le]
  exact hc.2.trans (by decide)

theorem byteLength_label (number : Nat) : byteLength (label number) = (label number).length := by
  rw [byteLength_eq_length_iff]
  intro c hc
  have hdigits : (toString number).toList = Nat.toDigits 10 number := by
    simp
  rw [label, String.toList_append, hdigits, List.mem_append] at hc
  rcases hc with hdigit | hbar
  · exact utf8Size_eq_one_of_isDigit (Nat.isDigit_of_mem_toDigits (by decide) (by decide) hdigit)
  · fin_cases hbar <;> rfl

/-! ## The line of a fault -/

/-- The line that a fault lies on, parted at the character at fault. -/
structure FaultLine (source : String) (fault : Fault) where
  above : List Char
  left : List Char
  right : List Char
  below : List Char
  source_eq : source.toList = above ++ (left ++ fault.cause.character :: right) ++ below
  isLine : IsLine above (left ++ fault.cause.character :: right) below
  position_eq : fault.position = byteLength above + byteLength left

namespace FaultLine

variable {source fileName rendering : String} {fault : Fault}

def text (line : FaultLine source fault) : List Char :=
  line.left ++ fault.cause.character :: line.right

def number (line : FaultLine source fault) : Nat :=
  1 + line.above.count '\n'

/-- All white space that the line begins with. -/
def leading (line : FaultLine source fault) : List Char :=
  line.text.takeWhile isWhiteSpace

/-- The spaces and tabs that the line begins with. -/
def indent (line : FaultLine source fault) : List Char :=
  line.text.takeWhile fun c => c = ' ' || c = '\t'

/-- The character at fault is part of the white space that the line begins with. -/
def InLeading (line : FaultLine source fault) : Prop :=
  ∀ c ∈ line.left ++ [fault.cause.character], isWhiteSpace c = true

/-- The character at fault is part of the white space that the line ends with. -/
def InTrailing (line : FaultLine source fault) : Prop :=
  ∀ c ∈ fault.cause.character :: line.right, isWhiteSpace c = true

/-- The row of the source shows a part of the line with the character at fault in it. -/
def Shows (line : FaultLine source fault) (rendering : String) (before : List Char) : Prop :=
  ∃ skipped after dropped, line.left = skipped ++ before ∧ line.right = after ++ dropped ∧
    sourceRow rendering = label line.number ++ before ++ fault.cause.character :: after

/-- The caret stands under the character at fault. -/
def UnderCaret (line : FaultLine source fault) (rendering : String) : Prop :=
  ∃ before, line.Shows rendering before ∧
    (beforeCaret rendering).length = (label line.number ++ before).length

theorem nonempty_of_mem_faults (hfault : fault ∈ (scan source).log.toList) :
    Nonempty (FaultLine source fault) := by
  obtain ⟨-, before, after, hsource, hposition⟩ := exists_character_of_mem_faults hfault
  obtain ⟨above, left, right, below, rfl, rfl, hline⟩ :=
    exists_isLine before fault.cause.character after
  refine ⟨above, left, right, below, ?_, hline, ?_⟩
  · rw [hsource]
    simp
  · rw [hposition, byteLength_append]

theorem lineAt?_eq (line : FaultLine source fault) :
    lineAt? source.toList fault.position =
      some ⟨line.number, line.text, byteLength line.left⟩ := by
  rw [line.source_eq, line.position_eq]
  apply lineAt?_of_isLine line.isLine
  have hpos := fault.cause.character.utf8Size_pos
  rw [byteLength_append, byteLength_cons]
  omega

/-! ## The two notions of indentation -/

theorem takeWhile_leading (line : FaultLine source fault) :
    line.leading.takeWhile (fun c => c = ' ' || c = '\t') = line.indent := by
  rw [leading, List.takeWhile_takeWhile, indent]
  congr 1
  funext c
  have hwhite : (c = ' ' ∨ c = '\t') → isWhiteSpace c = true := by
    rintro (rfl | rfl) <;> rfl
  simpa using hwhite

theorem mem_indent {line : FaultLine source fault} {c : Char} (hc : c ∈ line.indent) :
    c = ' ' ∨ c = '\t' := by
  simpa using List.mem_takeWhile_imp hc

theorem byteLength_indent (line : FaultLine source fault) :
    byteLength line.indent = line.indent.length := by
  rw [byteLength_eq_length_iff]
  intro c hc
  rcases mem_indent hc with rfl | rfl <;> rfl

theorem indent_prefix_leading (line : FaultLine source fault) : line.indent <+: line.leading := by
  rw [← line.takeWhile_leading]
  exact List.takeWhile_prefix _

theorem byteLength_indent_le (line : FaultLine source fault) :
    byteLength line.indent ≤ byteLength line.leading :=
  byteLength_le_of_prefix line.indent_prefix_leading

theorem byteLength_leading_eq_iff (line : FaultLine source fault) :
    byteLength line.leading = byteLength line.indent ↔
      ∀ c ∈ line.leading, c = ' ' ∨ c = '\t' := by
  constructor
  · intro hbytes c hc
    obtain ⟨other, hleading⟩ := line.indent_prefix_leading
    rw [← hleading] at hbytes hc
    rw [eq_nil_of_byteLength_append_le hbytes.le, List.append_nil] at hc
    exact mem_indent hc
  · intro hall
    rw [← line.takeWhile_leading, List.takeWhile_eq_self_iff.mpr]
    simpa using hall

/-- The spaces and tabs that the line begins with end before the character at fault. -/
theorem indent_prefix_left
    (line : FaultLine source fault) (hblank : isBlank fault.cause.character = false) :
    line.indent <+: line.left := by
  have hleft : ¬ ∀ c ∈ line.left ++ [fault.cause.character], isBlank c = true :=
    not_forall_of_mem (by simp) hblank
  have hindent : ∀ c ∈ line.indent, isBlank c = true := by
    intro c hc
    rcases mem_indent hc with rfl | rfl <;> rfl
  obtain ⟨rest, hrest, -⟩ :=
    exists_left_append hindent hleft List.takeWhile_append_dropWhile.symm
  exact ⟨rest, hrest.symm⟩

theorem not_inLeading
    (line : FaultLine source fault) (hblank : isBlank fault.cause.character = false)
    (hleading : ∀ c ∈ line.leading, c = ' ' ∨ c = '\t') : ¬ line.InLeading := by
  intro hwhite
  have hmem : fault.cause.character ∈ line.leading := by
    have htext : line.text = line.left ++ [fault.cause.character] ++ line.right := by
      simp [text]
    rw [leading, htext, List.takeWhile_append_of_pos hwhite]
    simp
  rcases hleading _ hmem with hc | hc <;> rw [hc] at hblank <;> cases hblank

theorem not_at_end
    (line : FaultLine source fault) (hwhite : isWhiteSpace fault.cause.character = false) :
    ¬ line.InLeading ∧ ¬ line.InTrailing := by
  constructor
  · exact not_forall_of_mem (by simp) hwhite
  · exact not_forall_of_mem List.mem_cons_self hwhite

/-! ## The rows of a fault -/

/-- The two rows that a rendering of the fault ends with. -/
structure Rendered (line : FaultLine source fault) (rendering : String) : Prop where
  sourceRow_eq : sourceRow rendering = label line.number ++ trim line.text
  caretRow_eq :
    caretRow rendering = margin line.number ++
      List.replicate (byteLength line.left - byteLength line.indent) '-' ++ ['^']

theorem rendered
    (line : FaultLine source fault) (hrender : fault.render source fileName = .ok rendering) :
    line.Rendered rendering := by
  obtain ⟨hsource, hcaret⟩ := rows_of_render line.lineAt?_eq line.isLine.single hrender
  refine ⟨hsource, ?_⟩
  rw [hcaret, byteLength_indent]
  rfl

namespace Rendered

variable {line : FaultLine source fault} {before : List Char}

theorem shows_iff (hrendered : line.Rendered rendering) :
    line.Shows rendering before ↔
      ∃ skipped after dropped, line.left = skipped ++ before ∧ line.right = after ++ dropped ∧
        trim line.text = before ++ fault.cause.character :: after := by
  simp only [Shows, hrendered.sourceRow_eq, List.append_assoc, List.append_cancel_left_eq]

theorem left_eq (hrendered : line.Rendered rendering) (hshows : line.Shows rendering before) :
    line.left = line.leading ++ before := by
  obtain ⟨skipped, after, dropped, hleft, hright, htrim⟩ := hrendered.shows_iff.mp hshows
  have hshown : trim line.text ≠ [] := by
    simp [htrim]
  have htext : line.text = skipped ++ trim line.text ++ dropped := by
    rw [htrim, text, hleft, hright]
    simp
  rw [hleft, takeWhile_of_trim_eq hshown htext, leading]

/-- The character at fault is shown unless it is part of the white space at an end of its line. -/
theorem exists_shows_iff (hrendered : line.Rendered rendering) :
    (∃ before, line.Shows rendering before) ↔ ¬ line.InLeading ∧ ¬ line.InTrailing := by
  constructor
  · rintro ⟨before, hshows⟩
    obtain ⟨skipped, after, dropped, hleft, hright, htrim⟩ := hrendered.shows_iff.mp hshows
    obtain ⟨hfront, hback⟩ := not_white_of_trim_eq htrim
    constructor
    · intro hleading
      rw [InLeading, hleft, List.append_assoc] at hleading
      exact hfront fun c hc => hleading c (List.mem_append_right skipped hc)
    · intro htrailing
      rw [InTrailing, hright, ← List.cons_append] at htrailing
      exact hback fun c hc => htrailing c (List.mem_append_left dropped hc)
  · rintro ⟨hleading, htrailing⟩
    obtain ⟨before, after, dropped, hbefore, hafter, htrim⟩ :=
      exists_of_not_trimmed rfl hleading htrailing
    exact ⟨before, hrendered.shows_iff.mpr ⟨_, after, dropped, hbefore, hafter, htrim⟩⟩

theorem beforeCaret_eq (hrendered : line.Rendered rendering) :
    beforeCaret rendering = margin line.number ++
      List.replicate (byteLength line.left - byteLength line.indent) '-' :=
  LoxLexer.beforeCaret_eq hrendered.caretRow_eq

theorem byteLength_beforeCaret (hrendered : line.Rendered rendering) :
    byteLength (beforeCaret rendering) = (beforeCaret rendering).length := by
  rw [byteLength_eq_length_iff, hrendered.beforeCaret_eq]
  intro c hc
  rcases mem_beforeCaret_cases hc with rfl | rfl | rfl <;> rfl

/-- The caret is too far right by the white space that the row above leaves out and the column still
counts. -/
theorem length_beforeCaret
    (hrendered : line.Rendered rendering) (hshows : line.Shows rendering before) :
    (beforeCaret rendering).length =
      (label line.number).length + byteLength before +
        (byteLength line.leading - byteLength line.indent) := by
  have hle := line.byteLength_indent_le
  rw [hrendered.beforeCaret_eq, hrendered.left_eq hshows, byteLength_append, List.length_append,
    length_margin, List.length_replicate]
  omega

theorem underCaret_iff
    (hrendered : line.Rendered rendering) (hblank : isBlank fault.cause.character = false) :
    line.UnderCaret rendering ↔
      (∀ c ∈ line.leading, c = ' ' ∨ c = '\t') ∧ (∀ c ∈ line.left, c.utf8Size = 1) ∧
        ¬ line.InTrailing := by
  have hindent := line.byteLength_indent
  have hshort := line.indent_prefix_leading.length_le
  have hlong := length_le_byteLength line.leading
  rw [← byteLength_leading_eq_iff, ← byteLength_eq_length_iff]
  constructor
  · rintro ⟨before, hshows, hunder⟩
    have hwide := length_le_byteLength before
    rw [hrendered.length_beforeCaret hshows, List.length_append] at hunder
    refine ⟨by omega, ?_, (hrendered.exists_shows_iff.mp ⟨before, hshows⟩).2⟩
    rw [hrendered.left_eq hshows, byteLength_append, List.length_append]
    omega
  · rintro ⟨hleading, hleft, htrailing⟩
    obtain ⟨before, hshows⟩ := hrendered.exists_shows_iff.mpr
      ⟨line.not_inLeading hblank (line.byteLength_leading_eq_iff.mp hleading), htrailing⟩
    refine ⟨before, hshows, ?_⟩
    rw [hrendered.left_eq hshows, byteLength_append, List.length_append] at hleft
    rw [hrendered.length_beforeCaret hshows, List.length_append]
    omega

end Rendered

end FaultLine

/-! ## How far the caret is off -/

/-- The place of the caret in a rendering of the fault, in bytes.  If the character at fault is
white space at an end of its line, there is nothing the caret could point to. -/
structure FaultLine.CaretError
    {source : String} {fault : Fault} (line : FaultLine source fault) (rendering : String) : Prop
    extends line.Rendered rendering where
  /-- The spaces and tabs that are taken off the column do not reach beyond it. -/
  indent_le : byteLength line.indent ≤ byteLength line.left
  shown : isWhiteSpace fault.cause.character = false →
    ∃ before, line.Shows rendering before ∧
      byteLength line.left = byteLength line.leading + byteLength before ∧
      byteLength (beforeCaret rendering) =
        byteLength (label line.number ++ before) +
          (byteLength line.leading - byteLength line.indent) ∧
      (byteLength (beforeCaret rendering) = byteLength (label line.number ++ before) ↔
        ∀ c ∈ line.leading, c = ' ' ∨ c = '\t')
  hidden : line.InLeading ∨ line.InTrailing → ∀ before, ¬ line.Shows rendering before

theorem caret_byte_error
    {source fileName rendering : String} {fault : Fault}
    (hfault : fault ∈ (scan source).log.toList)
    (hrender : fault.render source fileName = .ok rendering) :
    Nonempty (FaultLine source fault) ∧
    ∀ line : FaultLine source fault, line.CaretError rendering := by
  refine ⟨FaultLine.nonempty_of_mem_faults hfault, fun line => ?_⟩
  have hrendered := line.rendered hrender
  obtain ⟨hblank, -⟩ := exists_character_of_mem_faults hfault
  have hle := line.byteLength_indent_le
  refine ⟨hrendered, byteLength_le_of_prefix (line.indent_prefix_left hblank), ?_, ?_⟩
  · intro hwhite
    obtain ⟨before, hshows⟩ := hrendered.exists_shows_iff.mpr (line.not_at_end hwhite)
    have hcolumn := hrendered.length_beforeCaret hshows
    rw [← hrendered.byteLength_beforeCaret, ← byteLength_label, ← byteLength_append] at hcolumn
    rw [← line.byteLength_leading_eq_iff]
    refine ⟨before, hshows, ?_, hcolumn, by omega⟩
    rw [hrendered.left_eq hshows, byteLength_append]
  · intro hend before hshows
    obtain ⟨hleading, htrailing⟩ := hrendered.exists_shows_iff.mp ⟨before, hshows⟩
    exact hend.elim hleading htrailing

/-- The row leaves out the no-break space in front of the line, the column counts its two bytes. -/
theorem caret_byte_error_noBreakSpace :
    let source := "\t\u00a0x = #"
    let fault : Fault := ⟨.unexpectedCharacter '#', 1, 7⟩
    let rendering := "Error: UnexpectedCharacter\n-> a.lox\n  |\n1 | x = #\n  | ------^\n"
    fault ∈ (scan source).log.toList ∧ fault.render source "a.lox" = .ok rendering ∧
    Nonempty (FaultLine source fault) ∧
    ∀ line : FaultLine source fault, line.CaretError rendering := by
  intro source fault rendering
  have hfault : fault ∈ (scan source).log.toList := by
    decide +kernel
  have hrender : fault.render source "a.lox" = .ok rendering := by
    decide +kernel
  exact ⟨hfault, hrender, caret_byte_error hfault hrender⟩

/-- The caret stands under the character at fault exactly if that is shown, the line begins with no
white space but spaces and tabs, and each character on the left takes one byte. -/
theorem caret_under_iff
    {source fileName rendering : String} {fault : Fault}
    (hfault : fault ∈ (scan source).log.toList)
    (hrender : fault.render source fileName = .ok rendering) :
    Nonempty (FaultLine source fault) ∧
    ∀ line : FaultLine source fault,
      (line.UnderCaret rendering ↔
        (∀ c ∈ line.leading, c = ' ' ∨ c = '\t') ∧ (∀ c ∈ line.left, c.utf8Size = 1) ∧
          ¬ line.InTrailing) ∧
      ∀ before, line.Shows rendering before →
        (beforeCaret rendering).length =
          (label line.number ++ before).length +
            (byteLength line.leading - byteLength line.indent) +
            (byteLength before - before.length) := by
  refine ⟨FaultLine.nonempty_of_mem_faults hfault, fun line => ?_⟩
  have hrendered := line.rendered hrender
  obtain ⟨hblank, -⟩ := exists_character_of_mem_faults hfault
  refine ⟨hrendered.underCaret_iff hblank, fun before hshows => ?_⟩
  have hle := length_le_byteLength before
  rw [hrendered.length_beforeCaret hshows, List.length_append]
  omega

theorem caret_under_iff_at_sign :
    let source := "var a;\n\tvar b = a @ 2;"
    let fault : Fault := ⟨.unexpectedCharacter '@', 2, 18⟩
    let rendering := "Error: UnexpectedCharacter\n-> a.lox\n  |\n2 | var b = a @ 2;\n  | ----------^\n"
    fault ∈ (scan source).log.toList ∧ fault.render source "a.lox" = .ok rendering ∧
    ∃ line : FaultLine source fault, line.UnderCaret rendering := by
  intro source fault rendering
  have hfault : fault ∈ (scan source).log.toList := by
    decide +kernel
  have hrender : fault.render source "a.lox" = .ok rendering := by
    decide +kernel
  have hline : IsLine "var a;\n".toList "\tvar b = a @ 2;".toList [] :=
    ⟨.inr rfl, by decide, .inr rfl⟩
  have hsource : source.toList =
      "var a;\n".toList ++ ("\tvar b = a ".toList ++ '@' :: " 2;".toList) ++ [] := by
    decide +kernel
  have hleading : ∀ c ∈ "\tvar b = a @ 2;".toList.takeWhile isWhiteSpace, c = ' ' ∨ c = '\t' := by
    simp [isWhiteSpace, whiteSpaceRanges]
  have hleft : ∀ c ∈ "\tvar b = a ".toList, c.utf8Size = 1 := by
    intro c hc
    fin_cases hc <;> rfl
  let line : FaultLine source fault :=
    ⟨"var a;\n".toList, "\tvar b = a ".toList, " 2;".toList, [], hsource, hline, rfl⟩
  have htrailing : ¬ line.InTrailing := by
    intro hall
    cases hall '@' List.mem_cons_self
  exact ⟨hfault, hrender, line,
    ((caret_under_iff hfault hrender).2 line).1.mpr ⟨hleading, hleft, htrailing⟩⟩

/-- The second line begins inside a string, with a form feed: the row leaves it out, the column
counts it. -/
theorem caret_not_under_formFeed :
    let source := "\"\n\x0c\" #"
    let fault : Fault := ⟨.unexpectedCharacter '#', 2, 5⟩
    let rendering := "Error: UnexpectedCharacter\n-> a.lox\n  |\n2 | \" #\n  | ---^\n"
    fault ∈ (scan source).log.toList ∧ fault.render source "a.lox" = .ok rendering ∧
    Nonempty (FaultLine source fault) ∧
    ∀ line : FaultLine source fault, ¬ line.UnderCaret rendering := by
  intro source fault rendering
  have hfault : fault ∈ (scan source).log.toList := by
    decide +kernel
  have hrender : fault.render source "a.lox" = .ok rendering := by
    decide +kernel
  obtain ⟨hblank, -⟩ := exists_character_of_mem_faults hfault
  refine ⟨hfault, hrender, FaultLine.nonempty_of_mem_faults hfault, fun line hunder => ?_⟩
  have hline : lineAt? source.toList 5 = some ⟨2, "\x0c\" #".toList, 3⟩ := by
    decide +kernel
  have htext : line.text = "\x0c\" #".toList :=
    congrArg SourceLine.text (Option.some.inj (line.lineAt?_eq.symm.trans hline))
  obtain ⟨hleading, -⟩ := ((line.rendered hrender).underCaret_iff hblank).mp hunder
  rw [FaultLine.leading, htext] at hleading
  have hblank := hleading '\x0c' (by decide)
  revert hblank
  decide

end LoxLexer
