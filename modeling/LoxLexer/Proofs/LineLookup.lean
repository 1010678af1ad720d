import LoxLexer.Proofs.SourceLines

/-!
# The line of every byte

What the lookup of a line finds is told here by the bytes of the source alone: where the line
begins and ends, how many line feeds stand before the byte, and how far the byte is from the
beginning of its line (`SourceLine.Holds`).  These facts leave one line only, so they hold of a line
exactly if it is the one found.

The lookup counts the bytes that are left to the one it is asked for.  It may as well go through the
lines and add up their lengths (`SourceLine.search`); then the lines do not run out before a byte of
the source is found.
-/

namespace LoxLexer

/-! ## Line by line -/

/-- The lines of a source, each with the line feed that ends it. -/
def fullLines : (source : List Char) → List (List Char) := splitLines (· ++ ['\n'])

namespace SourceLine

/-- Goes through the lines for the one that holds the byte at `position`.  The first of them has the
given number and begins at the byte `start`. -/
def search (position : Nat) :
    (number start : Nat) → (lines : List (List Char)) → Option SourceLine
  | _, _, [] => none
  | number, start, line :: lines =>
    if start ≤ position ∧ position < start + byteLength line then
      some ⟨number, line, position - start⟩
    else
      search position (number + 1) (start + byteLength line) lines

theorem search_of_lt
    (number start : Nat) {line : List Char} {distance : Nat}
    (hdistance : distance < byteLength line) (lines : List (List Char)) :
    search (start + distance) number start (line :: lines) = some ⟨number, line, distance⟩ := by
  have hhere : start ≤ start + distance ∧ start + distance < start + byteLength line := by
    omega
  rw [search, if_pos hhere, Nat.add_sub_cancel_left]

/-- A line that ends before the position is passed, and counted. -/
theorem search_passes
    {position number start : Nat} {line : List Char}
    (hpassed : start + byteLength line ≤ position) (lines : List (List Char)) :
    search position number start (line :: lines) =
      search position (number + 1) (start + byteLength line) lines := by
  have hlater : ¬ (start ≤ position ∧ position < start + byteLength line) := by
    omega
  rw [search, if_neg hlater]

/-- Both ways of looking agree from the beginning of a line on. -/
theorem find?_eq_search (number start distance : Nat) (text : List Char) :
    find? number text 0 distance text =
      search (start + distance) number start (fullLines text) := by
  induction text using line_induction generalizing number start distance with
  | nil => rfl
  | last line hline hne =>
      have hsingle : '\n' ∉ line.dropLast := fun hmem => hline (List.dropLast_subset line hmem)
      rw [fullLines, splitLines_of_notMem _ hline hne]
      by_cases hhere : distance < byteLength line
      · have hfound := find?_of_lt hsingle number line 0 hhere []
        rw [List.append_nil, firstLine_of_notMem hline, Nat.zero_add] at hfound
        rw [hfound, search_of_lt _ _ hhere]
      · rw [find?_eq_none (by omega), search_passes (by omega), search]
  | line line rest hline ih =>
      have hbytes : byteLength (line ++ ['\n']) = byteLength line + '\n'.utf8Size := by
        simp
      rw [fullLines, splitLines_append_lineFeed _ hline]
      -- the byte lies on this line, its line feed included, or further down
      by_cases hhere : distance < byteLength (line ++ ['\n'])
      · have hsource : line ++ '\n' :: rest = (line ++ ['\n']) ++ rest := by
          simp
        have hsingle : '\n' ∉ (line ++ ['\n']).dropLast := by
          simpa using hline
        have hfound := find?_of_lt hsingle number (line ++ '\n' :: rest) 0 hhere rest
        rw [← hsource, firstLine_append_lineFeed hline, Nat.zero_add] at hfound
        rw [hfound, search_of_lt _ _ hhere]
      · obtain ⟨left, rfl⟩ : ∃ left, distance = byteLength line + ('\n'.utf8Size + left) :=
          ⟨distance - byteLength (line ++ ['\n']), by omega⟩
        have hposition : start + byteLength (line ++ ['\n']) + left =
            start + (byteLength line + ('\n'.utf8Size + left)) := by
          omega
        have hrest := ih (number + 1) (start + byteLength (line ++ ['\n'])) left
        rw [find?_append hline, find?_lineFeed, hrest, search_passes (by omega), hposition]
        rfl

end SourceLine

open SourceLine

theorem lineAt?_eq_search (source : List Char) (position : Nat) :
    lineAt? source position = search position 1 0 (fullLines source) := by
  rw [lineAt?, find?_eq_search 1 0, Nat.zero_add]

theorem lineAt?_eq_none_iff {source : List Char} {position : Nat} :
    lineAt? source position = none ↔ byteLength source ≤ position := by
  refine ⟨fun hnone => ?_, lineAt?_eq_none⟩
  by_contra hwithin
  obtain ⟨line⟩ := ByteLine.nonempty_iff.mpr (Nat.lt_of_not_le hwithin)
  rw [line.lineAt?_eq] at hnone
  cases hnone

/-! ## Line feeds among bytes -/

theorem utf8Bytes_inj {first second : List Char} :
    utf8Bytes first = utf8Bytes second ↔ first = second := by
  refine ⟨fun hbytes => ?_, congrArg utf8Bytes⟩
  have hdecoded := decodeText_utf8Bytes first
  rw [hbytes, decodeText_utf8Bytes, Except.ok.injEq, String.ofList_inj] at hdecoded
  exact hdecoded.symm

theorem utf8Bytes_concat_lineFeed (text : List Char) :
    utf8Bytes (text ++ ['\n']) = utf8Bytes text ++ [0x0A] :=
  utf8Bytes_append text ['\n']

/-- Further on, more bytes of a kind have been passed by those in between. -/
theorem count_take_of_le
    (bytes : List UInt8) (byte : UInt8) {first second : Nat} (hle : first ≤ second) :
    (bytes.take second).count byte =
      (bytes.take first).count byte + ((bytes.drop first).take (second - first)).count byte := by
  rw [← List.count_append, ← List.take_add, Nat.add_sub_cancel' hle]

theorem notMem_between_iff {bytes : List UInt8} {byte : UInt8} {first second : Nat} :
    byte ∉ (bytes.drop first).take (second - first) ↔
      ∀ index, first ≤ index → index < second → bytes[index]? ≠ some byte := by
  constructor
  · intro hnotMem index hfirst hsecond hbyte
    apply hnotMem
    rw [List.mem_iff_getElem?]
    refine ⟨index - first, ?_⟩
    rw [List.getElem?_take_of_lt (by omega), List.getElem?_drop, Nat.add_sub_cancel' hfirst]
    exact hbyte
  · intro hall hmem
    obtain ⟨index, hindex⟩ := List.mem_iff_getElem?.mp hmem
    have hlt : index < second - first := by
      by_contra hge
      rw [List.getElem?_take_eq_none (Nat.le_of_not_lt hge)] at hindex
      cases hindex
    rw [List.getElem?_take_of_lt hlt, List.getElem?_drop] at hindex
    exact hall (first + index) (by omega) (by omega) hindex

namespace SourceLine

/-! ## A line told by the bytes of the source -/

/-- The line is the one on which the byte at `position` lies. -/
structure Holds (line : SourceLine) (source : List Char) (position : Nat) : Prop where
  offset_le : line.offset ≤ position
  offset_lt : line.offset < (utf8Bytes line.text).length
  text_eq : ((utf8Bytes source).drop (position - line.offset)).take (utf8Bytes line.text).length =
    utf8Bytes line.text
  begins : position - line.offset = 0 ∨
    (utf8Bytes source)[position - line.offset - 1]? = some 0x0A
  ends : (utf8Bytes line.text).getLast? = some 0x0A ∨
    position - line.offset + (utf8Bytes line.text).length = (utf8Bytes source).length
  single : 0x0A ∉ (utf8Bytes line.text).dropLast
  number_eq : line.number = 1 + ((utf8Bytes source).take position).count 0x0A

namespace Holds

variable {source : List Char} {position first second : Nat} {line upper lower : SourceLine}

theorem length_le (hholds : line.Holds source position) :
    position - line.offset + (utf8Bytes line.text).length ≤ (utf8Bytes source).length := by
  have hlength := congrArg List.length hholds.text_eq
  have hlt := hholds.offset_lt
  rw [List.length_take, List.length_drop] at hlength
  omega

theorem position_lt (hholds : line.Holds source position) :
    position < (utf8Bytes source).length := by
  have hoffset := hholds.offset_le
  have hlt := hholds.offset_lt
  have hlength := hholds.length_le
  omega

theorem getElem?_eq
    (hholds : line.Holds source position) {index : Nat}
    (hindex : index < (utf8Bytes line.text).length) :
    (utf8Bytes source)[position - line.offset + index]? = (utf8Bytes line.text)[index]? := by
  rw [← List.getElem?_drop, ← List.getElem?_take_of_lt hindex, hholds.text_eq]

/-- No byte of a line is a line feed, except its last one. -/
theorem getElem?_ne
    (hholds : line.Holds source position) {index : Nat}
    (hstart : position - line.offset ≤ index)
    (hstop : index + 1 < position - line.offset + (utf8Bytes line.text).length) :
    (utf8Bytes source)[index]? ≠ some 0x0A := by
  intro hbyte
  obtain ⟨inner, rfl⟩ := Nat.exists_eq_add_of_le hstart
  rw [hholds.getElem?_eq (by omega)] at hbyte
  apply hholds.single
  rw [List.dropLast_eq_take, List.mem_iff_getElem?]
  exact ⟨inner, by rw [List.getElem?_take_of_lt (by omega), hbyte]⟩

/-- A line with another one below it ends with a line feed. -/
theorem getElem?_stop
    (hholds : line.Holds source position)
    (hbelow : position - line.offset + (utf8Bytes line.text).length < (utf8Bytes source).length) :
    (utf8Bytes source)[position - line.offset + (utf8Bytes line.text).length - 1]? =
      some 0x0A := by
  have hlast := hholds.ends.resolve_right hbelow.ne
  have hlt := hholds.offset_lt
  rw [List.getLast?_eq_getElem?] at hlast
  rw [Nat.add_sub_assoc (by omega), hholds.getElem?_eq (by omega), hlast]

/-- The lines of two bytes without a line feed between them begin at one place. -/
theorem start_eq
    (hupper : upper.Holds source first) (hlower : lower.Holds source second)
    (hle : first ≤ second)
    (hquiet : ∀ index, first ≤ index → index < second → (utf8Bytes source)[index]? ≠ some 0x0A) :
    first - upper.offset = second - lower.offset := by
  have hfirst := hupper.offset_lt
  have hsecond := hlower.offset_lt
  have hfirstLe := hupper.offset_le
  have hsecondLe := hlower.offset_le
  rcases Nat.lt_trichotomy (first - upper.offset) (second - lower.offset) with hlt | heq | hgt
  · -- the line feed above the lower line would lie on the upper one, or between the two bytes
    have hfeed := hlower.begins.resolve_left (by omega)
    by_cases habove : second - lower.offset - 1 < first
    · exact (hupper.getElem?_ne (by omega) (by omega) hfeed).elim
    · exact (hquiet _ (by omega) (by omega) hfeed).elim
  · exact heq
  · have hfeed := hupper.begins.resolve_left (by omega)
    exact (hlower.getElem?_ne (by omega) (by omega) hfeed).elim

/-- Lines that begin at one place are the same: where one ended first, the other would hold a line
feed before its end. -/
theorem text_eq_of_start_eq
    (hupper : upper.Holds source first) (hlower : lower.Holds source second)
    (hstart : first - upper.offset = second - lower.offset) : upper.text = lower.text := by
  have hfirst := hupper.offset_lt
  have hsecond := hlower.offset_lt
  have hupperLe := hupper.length_le
  have hlowerLe := hlower.length_le
  have hlength : (utf8Bytes upper.text).length = (utf8Bytes lower.text).length := by
    rcases Nat.lt_trichotomy (utf8Bytes upper.text).length (utf8Bytes lower.text).length with
      hlt | heq | hgt
    · have hfeed := hupper.getElem?_stop (by omega)
      exact (hlower.getElem?_ne (by omega) (by omega) hfeed).elim
    · exact heq
    · have hfeed := hlower.getElem?_stop (by omega)
      exact (hupper.getElem?_ne (by omega) (by omega) hfeed).elim
  rw [← utf8Bytes_inj, ← hupper.text_eq, ← hlower.text_eq, hstart, hlength]

/-- The numbers of two lines differ by the line feeds between their bytes. -/
theorem number_eq_add
    (hupper : upper.Holds source first) (hlower : lower.Holds source second)
    (hle : first ≤ second) :
    lower.number =
      upper.number + (((utf8Bytes source).drop first).take (second - first)).count 0x0A := by
  rw [hupper.number_eq, hlower.number_eq, count_take_of_le _ _ hle, Nat.add_assoc]

theorem same_iff
    (hupper : upper.Holds source first) (hlower : lower.Holds source second)
    (hle : first ≤ second) :
    upper.number = lower.number ∧ upper.text = lower.text ↔
      ∀ index, first ≤ index → index < second → (utf8Bytes source)[index]? ≠ some 0x0A := by
  have hnumber := hupper.number_eq_add hlower hle
  rw [← notMem_between_iff, ← List.count_eq_zero]
  constructor
  · rintro ⟨hsame, -⟩
    omega
  · intro hnone
    have hstart := hupper.start_eq hlower hle
      (notMem_between_iff.mp (List.count_eq_zero.mp hnone))
    exact ⟨by omega, hupper.text_eq_of_start_eq hlower hstart⟩

/-- One line only holds a byte. -/
theorem unique (hupper : upper.Holds source position) (hlower : lower.Holds source position) :
    upper = lower := by
  have hquiet : ∀ index, position ≤ index → index < position →
      (utf8Bytes source)[index]? ≠ some 0x0A := by
    intro index hle hlt
    omega
  obtain ⟨hnumber, htext⟩ := (hupper.same_iff hlower le_rfl).mpr hquiet
  have hstart := hupper.start_eq hlower le_rfl hquiet
  have hoffset : upper.offset = lower.offset := by
    have hupperLe := hupper.offset_le
    have hlowerLe := hlower.offset_le
    omega
  cases upper
  cases lower
  rw [SourceLine.mk.injEq]
  exact ⟨hnumber, htext, hoffset⟩

end Holds

end SourceLine

/-- The line of a byte holds it. -/
theorem ByteLine.holds
    {source : List Char} {position : Nat} (line : ByteLine source position) :
    (SourceLine.mk line.number line.text line.offset).Holds source position := by
  have hnumber := line.number_eq
  obtain ⟨above, text, below, offset, rfl, hline, rfl, hoffset⟩ := line
  have hstart : byteLength above + offset - offset = (utf8Bytes above).length := by
    rw [Nat.add_sub_cancel, length_utf8Bytes]
  refine ⟨Nat.le_add_left _ _, ?_, ?_, ?_, ?_, ?_, hnumber⟩
  · rw [length_utf8Bytes]
    exact hoffset
  · simp only [hstart]
    rw [List.append_assoc, utf8Bytes_append, utf8Bytes_append, List.drop_left, List.take_left]
  · simp only [hstart]
    rcases hline.begins with rfl | hlast
    · exact .inl rfl
    · obtain ⟨before, rfl⟩ := List.getLast?_eq_some_iff.mp hlast
      right
      rw [utf8Bytes_append, utf8Bytes_append, utf8Bytes_concat_lineFeed]
      simp
  · simp only [hstart]
    rcases hline.ends with hlast | rfl
    · obtain ⟨body, rfl⟩ := List.getLast?_eq_some_iff.mp hlast
      left
      rw [utf8Bytes_concat_lineFeed, List.getLast?_concat]
    · right
      simp
  · have hshort : byteLength text - 1 < byteLength text := by
      omega
    have hnotMem := lineFeed_notMem_take hline.single hshort
    rwa [← length_utf8Bytes, ← List.dropLast_eq_take] at hnotMem

theorem lineAt?_eq_some_iff {source : List Char} {position : Nat} {line : SourceLine} :
    lineAt? source position = some line ↔ line.Holds source position := by
  constructor
  · intro hfound
    have hwithin : ¬ byteLength source ≤ position := by
      rw [← lineAt?_eq_none_iff, hfound]
      exact Option.some_ne_none line
    obtain ⟨byteLine⟩ := ByteLine.nonempty_iff.mpr (Nat.lt_of_not_le hwithin)
    rw [byteLine.lineAt?_eq] at hfound
    cases hfound
    exact byteLine.holds
  · intro hholds
    have hwithin := hholds.position_lt
    rw [length_utf8Bytes] at hwithin
    obtain ⟨byteLine⟩ := ByteLine.nonempty_iff.mpr hwithin
    rw [byteLine.lineAt?_eq, byteLine.holds.unique hholds]

/-- The lookup finds nothing from the end of the source on, and for every byte of the source, be it
inside a character or a line feed, the one line that holds it; so a search that goes through the
lines, begun for a byte of the source, comes to no end of them.  The numbers of the lines rise with
the bytes, and two bytes lie on one line just if no line feed stands at the first of them or between
them. -/
theorem line_of_every_byte (source : List Char) :
    (∀ position, lineAt? source position = none ↔ (utf8Bytes source).length ≤ position) ∧
    (∀ position, lineAt? source position =
      if (utf8Bytes source).length ≤ position then none
      else search position 1 0 (fullLines source)) ∧
    (∀ position, position < (utf8Bytes source).length →
      search position 1 0 (fullLines source) ≠ none) ∧
    (∀ position line, lineAt? source position = some line ↔ line.Holds source position) ∧
    ∀ first second upper lower, lineAt? source first = some upper →
      lineAt? source second = some lower →
      (first ≤ second → upper.number ≤ lower.number) ∧
      (upper.number = lower.number ∧ upper.text = lower.text ↔
        ∀ index, min first second ≤ index → index < max first second →
          (utf8Bytes source)[index]? ≠ some 0x0A) := by
  have hnone : ∀ position, lineAt? source position = none ↔
      (utf8Bytes source).length ≤ position := by
    intro position
    rw [lineAt?_eq_none_iff, length_utf8Bytes]
  refine ⟨hnone, fun position => ?_, fun position hwithin => ?_,
    fun position line => lineAt?_eq_some_iff, ?_⟩
  · split
    · next hbehind => exact (hnone position).mpr hbehind
    · exact lineAt?_eq_search source position
  · rw [← lineAt?_eq_search, ne_eq, hnone]
    exact Nat.not_le_of_lt hwithin
  · intro first second upper lower hfirst hsecond
    have hupper := lineAt?_eq_some_iff.mp hfirst
    have hlower := lineAt?_eq_some_iff.mp hsecond
    refine ⟨fun hle => ?_, ?_⟩
    · rw [hupper.number_eq_add hlower hle]
      exact Nat.le_add_right _ _
    · rcases Nat.le_total first second with hle | hge
      · rw [Nat.min_eq_left hle, Nat.max_eq_right hle]
        exact hupper.same_iff hlower hle
      · rw [Nat.min_eq_right hge, Nat.max_eq_left hge, eq_comm, eq_comm (a := upper.text)]
        exact hlower.same_iff hupper hge

/-- The second byte of the `é`, the line feed behind it, the line feed of an empty line, and the end
of the source. -/
theorem line_of_every_byte_inside_character :
    let source := "é\n\nb".toList
    let first : SourceLine := ⟨1, "é\n".toList, 1⟩
    let second : SourceLine := ⟨1, "é\n".toList, 2⟩
    let third : SourceLine := ⟨2, "\n".toList, 0⟩
    first.Holds source 1 ∧ second.Holds source 2 ∧ third.Holds source 3 ∧
    (∀ index, 1 ≤ index → index < 2 → (utf8Bytes source)[index]? ≠ some 0x0A) ∧
    second.number ≤ third.number ∧ search 3 1 0 (fullLines source) ≠ none ∧
    lineAt? source 5 = none := by
  intro source first second third
  have hfirst : lineAt? source 1 = some first := by
    decide +kernel
  have hsecond : lineAt? source 2 = some second := by
    decide +kernel
  have hthird : lineAt? source 3 = some third := by
    decide +kernel
  have hlength : (utf8Bytes source).length = 5 := by
    decide +kernel
  obtain ⟨hnone, -, hfound, hholds, hpair⟩ := line_of_every_byte source
  refine ⟨(hholds 1 first).mp hfirst, (hholds 2 second).mp hsecond, (hholds 3 third).mp hthird,
    (hpair 1 2 first second hfirst hsecond).2.mp ⟨rfl, rfl⟩,
    (hpair 2 3 second third hsecond hthird).1 (by decide), hfound 3 ?_, (hnone 5).mpr ?_⟩
  · rw [hlength]
    decide
  · rw [hlength]

end LoxLexer
