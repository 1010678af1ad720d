import LoxLexer.Proofs.PromptLines
import LoxLexer.Proofs.ScanOutput
import LoxLexer.Text.SourceLine

/-!
# The line of a byte

Every character of a source lies on one line, with its line feed if it has one.  The lookup passes
the lines above and stops in the one that holds the byte it is asked for; so it finds that line, and
its number is one more than the number of line feeds above.

The byte may be any one of a character, and the line feed itself (`ByteLine`); behind the last byte
of the source nothing is found.
-/

namespace LoxLexer

/-- The text is a line of the source `above ++ text ++ below`. -/
structure IsLine (above text below : List Char) : Prop where
  begins : above = [] ∨ above.getLast? = some '\n'
  single : '\n' ∉ text.dropLast
  ends : text.getLast? = some '\n' ∨ below = []

namespace SourceLine

/-! ## The first line of a text -/

theorem firstLine_of_notMem
    {text : List Char} (htext : '\n' ∉ text) : firstLine text = text := by
  have hpass := passes_of_notMem htext
  rw [firstLine, List.takeWhile_eq_self_iff.mpr hpass, List.dropWhile_eq_nil_iff.mpr hpass,
    List.take_nil, List.append_nil]

theorem firstLine_append_lineFeed
    {body : List Char} (hbody : '\n' ∉ body) (rest : List Char) :
    firstLine (body ++ '\n' :: rest) = body ++ ['\n'] := by
  have hpass := passes_of_notMem hbody
  have hstop : ∀ c ∈ ('\n' :: rest).head?, decide (c ≠ '\n') = false := by
    simp
  rw [firstLine, takeWhile_append_of_stop hpass hstop, dropWhile_append_of_stop hpass hstop]
  rfl

theorem firstLine_append_of_isLine
    {above text below : List Char} (hline : IsLine above text below) (htext : text ≠ []) :
    firstLine (text ++ below) = text := by
  obtain ⟨body, last, rfl⟩ := (List.eq_nil_or_concat' text).resolve_left htext
  have hbody : '\n' ∉ body := by
    simpa using hline.single
  by_cases hfeed : last = '\n'
  · subst last
    rw [List.append_assoc]
    exact firstLine_append_lineFeed hbody below
  · have hbelow : below = [] := by
      apply hline.ends.resolve_left
      simpa using hfeed
    rw [hbelow, List.append_nil]
    apply firstLine_of_notMem
    simp [hbody, Ne.symm hfeed]

/-! ## Looking for a byte -/

/-- Looking for a byte passes the characters before it on its line. -/
theorem find?_append
    {passed : List Char} (hpassed : '\n' ∉ passed) (number : Nat) (lineText : List Char)
    (offset distance : Nat) (rest : List Char) :
    find? number lineText offset (byteLength passed + distance) (passed ++ rest) =
      find? number lineText (offset + byteLength passed) distance rest := by
  induction passed generalizing offset with
  | nil => simp
  | cons c passed ih =>
      have hc : c ≠ '\n' := fun heq => hpassed (by simp [heq])
      have hlater : '\n' ∉ passed := fun hmem => hpassed (by simp [hmem])
      have hfar : ¬ c.utf8Size + byteLength passed + distance < c.utf8Size := by omega
      have hleft : c.utf8Size + byteLength passed + distance - c.utf8Size =
          byteLength passed + distance := by omega
      rw [List.cons_append, byteLength_cons, find?, if_neg hfar, if_neg hc, hleft, ih hlater,
        Nat.add_assoc]

/-- Behind a line feed the next line begins. -/
theorem find?_lineFeed
    (number : Nat) (lineText : List Char) (offset distance : Nat) (rest : List Char) :
    find? number lineText offset ('\n'.utf8Size + distance) ('\n' :: rest) =
      find? (number + 1) rest 0 distance rest := by
  have hfar : ¬ '\n'.utf8Size + distance < '\n'.utf8Size := by omega
  rw [find?, if_neg hfar, if_pos rfl, Nat.add_sub_cancel_left]

/-- A byte of the current line is found there. -/
theorem find?_of_lt
    {text : List Char} (htext : '\n' ∉ text.dropLast) (number : Nat) (lineText : List Char)
    (offset : Nat) {distance : Nat} (hdistance : distance < byteLength text)
    (rest : List Char) :
    find? number lineText offset distance (text ++ rest) =
      some ⟨number, firstLine lineText, offset + distance⟩ := by
  induction text generalizing offset distance with
  | nil => simp at hdistance
  | cons c text ih =>
      rw [List.cons_append, find?]
      split
      · rfl
      · next hfar =>
        rw [byteLength_cons] at hdistance
        have hne : text ≠ [] := by
          rintro rfl
          simp at hdistance
          omega
        rw [List.dropLast_cons_of_ne_nil hne, List.mem_cons, not_or] at htext
        have hoffset : offset + c.utf8Size + (distance - c.utf8Size) = offset + distance := by
          omega
        rw [if_neg (Ne.symm htext.1), ih htext.2 _ (by omega), hoffset]

/-- Looking for a byte passes the lines above it, and counts them. -/
theorem find?_above
    {above : List Char} (habove : above = [] ∨ above.getLast? = some '\n') (number : Nat)
    {distance : Nat} (rest : List Char) :
    find? number (above ++ rest) 0 (byteLength above + distance) (above ++ rest) =
      find? (number + above.count '\n') rest 0 distance rest := by
  induction above using line_induction generalizing number with
  | nil => simp
  | last line hline hne =>
      have hmem := List.mem_of_getLast? (habove.resolve_left hne)
      exact (hline hmem).elim
  | line line above hline ih =>
      have hends : above = [] ∨ above.getLast? = some '\n' := by
        have hlast := habove.resolve_left (by simp)
        cases above with
        | nil => exact .inl rfl
        | cons c above => exact .inr (by simpa [List.getLast?_append] using hlast)
      have hbytes : byteLength (line ++ '\n' :: above) + distance =
          byteLength line + ('\n'.utf8Size + (byteLength above + distance)) := by
        rw [byteLength_append, byteLength_cons]
        omega
      have hcount : (line ++ '\n' :: above).count '\n' = above.count '\n' + 1 := by
        rw [List.count_append, List.count_eq_zero.mpr hline, List.count_cons_self, Nat.zero_add]
      have hnumber : number + 1 + above.count '\n' = number + (above.count '\n' + 1) := by
        omega
      rw [hbytes, List.append_assoc, find?_append hline, List.cons_append, find?_lineFeed,
        ih hends, hcount, hnumber]

end SourceLine

open SourceLine

/-- The lookup finds the line that holds a byte. -/
theorem lineAt?_of_isLine
    {above text below : List Char} (hline : IsLine above text below) {offset : Nat}
    (hoffset : offset < byteLength text) :
    lineAt? (above ++ text ++ below) (byteLength above + offset) =
      some ⟨1 + above.count '\n', text, offset⟩ := by
  have htext : text ≠ [] := by
    rintro rfl
    cases hoffset
  rw [lineAt?, List.append_assoc, find?_above hline.begins, find?_of_lt hline.single _ _ _ hoffset,
    firstLine_append_of_isLine hline htext, Nat.zero_add]

/-! ## The line of a character -/

theorem exists_above (before : List Char) :
    ∃ above left, before = above ++ left ∧ '\n' ∉ left ∧
      (above = [] ∨ above.getLast? = some '\n') := by
  induction before using line_induction with
  | nil => exact ⟨[], [], rfl, by simp, .inl rfl⟩
  | last line hline => exact ⟨[], line, rfl, hline, .inl rfl⟩
  | line line rest hline ih =>
      obtain ⟨above, left, rfl, hleft, hends⟩ := ih
      refine ⟨line ++ '\n' :: above, left, by simp, hleft, .inr ?_⟩
      rcases hends with rfl | hlast
      · simp
      · simp [List.getLast?_append, List.getLast?_cons, hlast]

theorem exists_below (text : List Char) :
    ∃ line below, text = line ++ below ∧ '\n' ∉ line.dropLast ∧
      (line.getLast? = some '\n' ∨ below = []) := by
  by_cases hfeed : '\n' ∈ text
  · obtain ⟨body, below, rfl, hbody⟩ := List.eq_append_cons_of_mem hfeed
    exact ⟨body ++ ['\n'], below, by simp, by simpa using hbody, .inl (by simp)⟩
  · exact ⟨text, [], by simp, fun hmem => hfeed (List.dropLast_subset text hmem), .inr rfl⟩

/-- A character of a source lies on a line. -/
theorem exists_isLine (before : List Char) (c : Char) (after : List Char) :
    ∃ above left right below, before = above ++ left ∧ after = right ++ below ∧
      IsLine above (left ++ c :: right) below := by
  obtain ⟨above, left, rfl, hleft, hbegins⟩ := exists_above before
  obtain ⟨line, below, htext, hsingle, hends⟩ := exists_below (c :: after)
  cases line with
  | nil =>
      have hnil : below = [] := hends.resolve_left (by simp)
      rw [hnil] at htext
      cases htext
  | cons d right =>
      cases htext
      refine ⟨above, left, right, below, rfl, rfl, hbegins, ?_, ?_⟩
      · rw [List.dropLast_append_of_ne_nil (by simp)]
        simp [hleft, hsingle]
      · simpa [List.getLast?_append] using hends

theorem IsLine.lineFeed_notMem_left
    {above left right below : List Char} {c : Char}
    (hline : IsLine above (left ++ c :: right) below) : '\n' ∉ left := by
  intro hmem
  apply hline.single
  rw [List.dropLast_append_of_ne_nil (by simp)]
  exact List.mem_append_left _ hmem

/-! ## The line of a byte -/

theorem length_utf8Bytes (text : List Char) : (utf8Bytes text).length = byteLength text := by
  induction text with
  | nil => rfl
  | cons c text ih =>
      rw [byteLength_cons, ← ih]
      simp [utf8Bytes]

theorem count_utf8Bytes (text : List Char) :
    (utf8Bytes text).count 0x0A = text.count '\n' := by
  induction text with
  | nil => rfl
  | cons c text ih =>
      have hcons : utf8Bytes (c :: text) = String.utf8EncodeChar c ++ utf8Bytes text := rfl
      rw [hcons, List.count_append, ih]
      by_cases hc : c = '\n'
      · subst c
        rw [List.count_cons_self, Nat.add_comm]
        rfl
      · rw [List.count_cons_of_ne hc,
          List.count_eq_zero.mpr (mt lineFeed_mem_utf8EncodeChar.mp hc), Nat.zero_add]

/-- Every byte of a text belongs to one of its characters. -/
theorem exists_char_of_lt
    {text : List Char} {position : Nat} (hposition : position < byteLength text) :
    ∃ before c after index, text = before ++ c :: after ∧
      position = byteLength before + index ∧ index < c.utf8Size := by
  induction text generalizing position with
  | nil => simp at hposition
  | cons c text ih =>
      by_cases hfirst : position < c.utf8Size
      · exact ⟨[], c, text, position, rfl, by simp, hfirst⟩
      · have hlater : position - c.utf8Size < byteLength text := by
          rw [byteLength_cons] at hposition
          omega
        obtain ⟨before, d, after, index, rfl, hindex, hlt⟩ := ih hlater
        refine ⟨c :: before, d, after, index, rfl, ?_, hlt⟩
        rw [byteLength_cons]
        omega

/-- The only line feed of a line is its last character, so it lies before none of its bytes. -/
theorem lineFeed_notMem_take
    {text : List Char} (htext : '\n' ∉ text.dropLast) {offset : Nat}
    (hoffset : offset < byteLength text) : 0x0A ∉ (utf8Bytes text).take offset := by
  obtain ⟨before, c, after, index, rfl, rfl, hindex⟩ := exists_char_of_lt hoffset
  have hbefore : 0x0A ∉ utf8Bytes before := by
    apply lineFeed_notMem_utf8Bytes
    rw [List.dropLast_append_of_ne_nil (by simp)] at htext
    exact fun hmem => htext (List.mem_append_left _ hmem)
  rw [utf8Bytes_append, ← length_utf8Bytes, List.take_length_add_append, List.mem_append, not_or]
  refine ⟨hbefore, fun hmem => ?_⟩
  have hc : utf8Bytes (c :: after) = String.utf8EncodeChar c ++ utf8Bytes after := rfl
  have hlength : (String.utf8EncodeChar c).length = c.utf8Size := by simp
  rw [hc, List.take_append_of_le_length (by omega)] at hmem
  obtain rfl := lineFeed_mem_utf8EncodeChar.mp (List.mem_of_mem_take hmem)
  have hsize : '\n'.utf8Size = 1 := rfl
  obtain rfl : index = 0 := by omega
  cases hmem

/-- The line that the byte at `position` lies on, which may be any byte of a character. -/
structure ByteLine (source : List Char) (position : Nat) where
  above : List Char
  text : List Char
  below : List Char
  /-- The bytes of the line before the position. -/
  offset : Nat
  source_eq : source = above ++ text ++ below
  isLine : IsLine above text below
  position_eq : position = byteLength above + offset
  offset_lt : offset < byteLength text

namespace ByteLine

variable {source : List Char} {position : Nat}

def number (line : ByteLine source position) : Nat :=
  1 + line.above.count '\n'

theorem lineAt?_eq (line : ByteLine source position) :
    lineAt? source position = some ⟨line.number, line.text, line.offset⟩ := by
  obtain ⟨above, text, below, offset, rfl, hline, rfl, hoffset⟩ := line
  exact lineAt?_of_isLine hline hoffset

theorem nonempty_iff : Nonempty (ByteLine source position) ↔ position < byteLength source := by
  constructor
  · rintro ⟨above, text, below, offset, rfl, -, rfl, hoffset⟩
    rw [byteLength_append, byteLength_append]
    omega
  · intro hposition
    obtain ⟨before, c, after, index, rfl, rfl, hindex⟩ := exists_char_of_lt hposition
    obtain ⟨above, left, right, below, rfl, rfl, hline⟩ := exists_isLine before c after
    refine ⟨above, left ++ c :: right, below, byteLength left + index, by simp, hline, ?_, ?_⟩
    · rw [byteLength_append, Nat.add_assoc]
    · rw [byteLength_append, byteLength_cons]
      omega

/-- The number of the line counts the line feeds among the bytes before the position. -/
theorem number_eq (line : ByteLine source position) :
    line.number = 1 + ((utf8Bytes source).take position).count 0x0A := by
  obtain ⟨above, text, below, offset, rfl, hline, rfl, hoffset⟩ := line
  have hlong : offset ≤ (utf8Bytes text).length := by
    rw [length_utf8Bytes]
    exact hoffset.le
  have htake : (utf8Bytes (above ++ text ++ below)).take (byteLength above + offset) =
      utf8Bytes above ++ (utf8Bytes text).take offset := by
    rw [List.append_assoc, utf8Bytes_append, utf8Bytes_append, ← length_utf8Bytes above,
      List.take_length_add_append, List.take_append_of_le_length hlong]
  rw [htake, List.count_append, count_utf8Bytes,
    List.count_eq_zero.mpr (lineFeed_notMem_take hline.single hoffset)]
  rfl

end ByteLine

theorem SourceLine.find?_eq_none
    {rest : List Char} {distance : Nat} (hdistance : byteLength rest ≤ distance) (number : Nat)
    (lineText : List Char) (offset : Nat) : find? number lineText offset distance rest = none := by
  induction rest generalizing number lineText offset distance with
  | nil => rfl
  | cons c rest ih =>
      rw [byteLength_cons] at hdistance
      have hfar : ¬ distance < c.utf8Size := by omega
      have hrest : byteLength rest ≤ distance - c.utf8Size := by omega
      rw [find?, if_neg hfar]
      split
      · exact ih hrest _ _ _
      · exact ih hrest _ _ _

theorem lineAt?_eq_none
    {source : List Char} {position : Nat} (hposition : byteLength source ≤ position) :
    lineAt? source position = none :=
  find?_eq_none hposition 1 source 0

end LoxLexer
