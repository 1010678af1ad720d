import LoxLexer.Console.Session
import Mathlib

/-!
# The lines of the standard input

The prompt splits its input at the bytes of line feeds, before it is decoded.  In UTF-8 that byte
occurs in no other character, so the lines of an encoded text are the encoded lines of the text.
The prompt then takes the line feed off each, and one carriage return before it.

`decodeLine_lines` says so: the sources of the prompt are the pieces between the line feeds, where a
last piece that is empty is no line.
-/

namespace LoxLexer

/-- The pieces of a text between its line feeds, a last one that is empty left out.  The pieces that
a line feed ends are changed by `ended`. -/
def splitLines (ended : List Char → List Char) (text : List Char) : List (List Char) :=
  let pieces := text.splitOn '\n'
  pieces.dropLast.map ended ++ pieces.getLast?.toList.filter (· ≠ [])

def textLines : (text : List Char) → List (List Char) := splitLines id

/-- A line without a carriage return at its end. -/
def withoutReturn (line : List Char) : List Char :=
  if line.getLast? = some '\r' then line.dropLast else line

/-- The lines that the prompt scans of a text. -/
def promptLines : (text : List Char) → List (List Char) := splitLines withoutReturn

theorem splitOn_append_lineFeed
    {line : List Char} (hline : '\n' ∉ line) (rest : List Char) :
    (line ++ '\n' :: rest).splitOn '\n' = line :: rest.splitOn '\n' := by
  have hpass : ∀ c ∈ line, (c == '\n') = false := by
    intro c hc
    exact beq_false_of_ne (ne_of_mem_of_not_mem hc hline)
  exact List.splitOnP_append_cons_of_forall_mem hpass '\n' rfl rest

@[simp] theorem splitLines_nil (ended : List Char → List Char) : splitLines ended [] = [] := rfl

theorem splitLines_of_notMem
    (ended : List Char → List Char) {line : List Char} (hline : '\n' ∉ line) (hne : line ≠ []) :
    splitLines ended line = [line] := by
  simp [splitLines, List.splitOn_eq_singleton hline, hne]

theorem splitLines_append_lineFeed
    (ended : List Char → List Char) {line : List Char} (hline : '\n' ∉ line) (rest : List Char) :
    splitLines ended (line ++ '\n' :: rest) = ended line :: splitLines ended rest := by
  have hne : rest.splitOn '\n' ≠ [] := List.splitOnP_ne_nil _ rest
  obtain ⟨piece, pieces, hpieces⟩ := List.exists_cons_of_ne_nil hne
  simp [splitLines, splitOn_append_lineFeed hline, hpieces]

/-- Induction on the lines of a text: the last one may lack its line feed. -/
@[elab_as_elim]
theorem line_induction
    {motive : List Char → Prop} (nil : motive [])
    (last : ∀ line, '\n' ∉ line → line ≠ [] → motive line)
    (line : ∀ line rest, '\n' ∉ line → motive rest → motive (line ++ '\n' :: rest))
    (text : List Char) : motive text := by
  by_cases hfeed : '\n' ∈ text
  · obtain ⟨before, rest, htext, hbefore⟩ := List.eq_append_cons_of_mem hfeed
    rw [htext]
    exact line before rest hbefore (line_induction nil last line rest)
  · by_cases hnil : text = []
    · rw [hnil]
      exact nil
    · exact last text hfeed hnil
termination_by text.length
decreasing_by
  rw [htext, List.length_append, List.length_cons]
  omega

/-! ## Bytes -/

theorem toList_loop_byteArray (bytes : ByteArray) (index : Nat) (done : List UInt8) :
    ByteArray.toList.loop bytes index done = done.reverse ++ bytes.data.toList.drop index := by
  fun_induction ByteArray.toList.loop bytes index done with
  | case1 index done hindex ih =>
      have hnext : bytes.data.toList.drop index =
          bytes.get! index :: bytes.data.toList.drop (index + 1) := by
        have hsize : index < bytes.data.size := hindex
        rw [List.drop_eq_getElem_cons (by simpa using hsize), Array.getElem_toList]
        rw [ByteArray.get!, getElem!_pos bytes.data index hsize]
      rw [ih, hnext, List.reverse_cons, List.append_assoc, List.singleton_append]
  | case2 index done hindex =>
      have hend : bytes.data.toList.drop index = [] := by
        rw [List.drop_eq_nil_iff, Array.length_toList]
        exact Nat.le_of_not_lt hindex
      rw [hend, List.append_nil]

theorem toList_byteArray (bytes : ByteArray) : bytes.toList = bytes.data.toList := by
  rw [ByteArray.toList, toList_loop_byteArray, List.reverse_nil, List.nil_append, List.drop_zero]

def utf8Bytes (text : List Char) : List UInt8 :=
  text.flatMap String.utf8EncodeChar

@[simp] theorem utf8Bytes_append (left right : List Char) :
    utf8Bytes (left ++ right) = utf8Bytes left ++ utf8Bytes right :=
  List.flatMap_append

theorem toList_toUTF8 (text : String) : text.toUTF8.toList = utf8Bytes text.toList := by
  have hbytes : text.toUTF8 = (utf8Bytes text.toList).toByteArray := by
    rw [String.toUTF8_eq_toByteArray, ← String.ofList_toList (s := text),
      String.toByteArray_ofList, String.toList_ofList]
    rfl
  rw [hbytes, toList_byteArray, List.toList_data_toByteArray]

theorem decodeText_utf8Bytes (text : List Char) :
    decodeText (utf8Bytes text).toByteArray = .ok (String.ofList text) := by
  have hbytes : (utf8Bytes text).toByteArray = (String.ofList text).toByteArray := by
    rw [String.toByteArray_ofList]
    rfl
  rw [decodeText, String.fromUTF8?, hbytes, dif_pos (String.ofList text).isValidUTF8]
  rfl

theorem lineFeed_mem_utf8EncodeChar {c : Char} :
    0x0A ∈ String.utf8EncodeChar c ↔ c = '\n' := by
  have hten : (0x0A : UInt8).toNat = 10 := rfl
  constructor
  · intro hmem
    -- the bytes of a character outside ASCII are at least `0x80`
    rw [String.utf8EncodeChar.eq_def] at hmem
    have hvalue : c.val.toNat = 10 := by
      simp only at hmem
      split_ifs at hmem <;>
        simp only [List.mem_cons, List.not_mem_nil, or_false, ← UInt8.toNat_inj,
          UInt8.toNat_ofNat', hten] at hmem <;>
        omega
    exact Char.ext (UInt32.toNat_inj.mp hvalue)
  · rintro rfl
    decide

theorem lineFeed_notMem_utf8Bytes
    {text : List Char} (htext : '\n' ∉ text) : 0x0A ∉ utf8Bytes text := by
  intro hmem
  obtain ⟨c, hc, hbyte⟩ := List.mem_flatMap.mp hmem
  rw [lineFeed_mem_utf8EncodeChar.mp hbyte] at hc
  exact htext hc

/-! ## Splitting bytes -/

namespace Prompt

theorem linesOnto_append
    (done : Array ByteArray) (line : ByteArray) {bytes : List UInt8}
    (hbytes : 0x0A ∉ bytes) (rest : List UInt8) :
    linesOnto done line (bytes ++ rest) = linesOnto done (line ++ bytes.toByteArray) rest := by
  induction bytes generalizing line with
  | nil => simp
  | cons byte bytes ih =>
      have hbyte : byte ≠ 0x0A := fun heq => hbytes (by simp [heq])
      have hlater : 0x0A ∉ bytes := fun hmem => hbytes (by simp [hmem])
      have hpush : line.push byte ++ bytes.toByteArray = line ++ (byte :: bytes).toByteArray := by
        apply ByteArray.ext
        simp
      rw [List.cons_append, linesOnto, if_neg hbyte, ih _ hlater, hpush]

theorem toList_linesOnto
    (done : Array ByteArray) (line : ByteArray) (bytes : List UInt8) :
    (linesOnto done line bytes).toList = done.toList ++ (linesOnto #[] line bytes).toList := by
  induction bytes generalizing done line with
  | nil =>
      unfold linesOnto
      split <;> simp
  | cons byte bytes ih =>
      by_cases hbyte : byte = 0x0A
      · rw [linesOnto, if_pos hbyte, ih, linesOnto, if_pos hbyte, ih (#[].push _)]
        simp
      · rw [linesOnto, if_neg hbyte, ih, linesOnto, if_neg hbyte]

theorem linesOnto_append_lineFeed
    {bytes : List UInt8} (hbytes : 0x0A ∉ bytes) (rest : List UInt8) :
    (linesOnto #[] .empty (bytes ++ 0x0A :: rest)).toList =
      (bytes ++ [0x0A]).toByteArray :: (linesOnto #[] .empty rest).toList := by
  have hpush : (ByteArray.empty ++ bytes.toByteArray).push 0x0A =
      (bytes ++ [0x0A]).toByteArray := by
    apply ByteArray.ext
    simp
  rw [linesOnto_append _ _ hbytes, linesOnto, if_pos rfl, toList_linesOnto, hpush]
  simp

theorem linesOnto_last
    {bytes : List UInt8} (hbytes : 0x0A ∉ bytes) (hne : bytes ≠ []) :
    (linesOnto #[] .empty bytes).toList = [bytes.toByteArray] := by
  have hempty : (ByteArray.empty ++ bytes.toByteArray).isEmpty = false := by
    simpa [ByteArray.isEmpty] using hne
  have happend := linesOnto_append #[] .empty hbytes []
  rw [List.append_nil, linesOnto, hempty] at happend
  rw [happend]
  simp

/-! ## Decoding a line -/

theorem chomp_append_lineFeed (line : List Char) :
    chomp (String.ofList (line ++ ['\n'])) = String.ofList (withoutReturn line) := by
  rcases List.eq_nil_or_concat line with rfl | ⟨before, c, rfl⟩
  · rfl
  · by_cases hc : c = '\r'
    · subst c
      simp [chomp, withoutReturn]
    · simp [chomp, withoutReturn, hc]

theorem chomp_of_notMem
    {line : List Char} (hline : '\n' ∉ line) :
    chomp (String.ofList line) = String.ofList line := by
  have hhead : ∀ rest, line.reverse ≠ '\n' :: rest := by
    intro rest hrest
    have hmem : '\n' ∈ line.reverse := by simp [hrest]
    exact hline (List.mem_reverse.mp hmem)
  unfold chomp
  rw [String.toList_ofList]
  split
  · next heq => exact (hhead _ heq).elim
  · next heq => exact (hhead _ heq).elim
  · rfl

theorem decodeLine_utf8Bytes (line : List Char) :
    decodeLine (utf8Bytes line).toByteArray = .ok (chomp (String.ofList line)) := by
  rw [decodeLine, decodeText_utf8Bytes]
  rfl

theorem decodeLine_lines (text : String) :
    (lines text.toUTF8).map decodeLine =
      (promptLines text.toList).map fun line => .ok (String.ofList line) := by
  rw [lines, toList_toUTF8]
  generalize text.toList = chars
  induction chars using line_induction with
  | nil => rfl
  | last line hline hne =>
      have hbytes : utf8Bytes line ≠ [] := by
        obtain ⟨c, rest, rfl⟩ := List.exists_cons_of_ne_nil hne
        simp [utf8Bytes, String.utf8EncodeChar_ne_nil]
      rw [linesOnto_last (lineFeed_notMem_utf8Bytes hline) hbytes, promptLines,
        splitLines_of_notMem _ hline hne, List.map_singleton, List.map_singleton,
        decodeLine_utf8Bytes, chomp_of_notMem hline]
  | line line rest hline ih =>
      have hfeed : utf8Bytes line ++ [0x0A] = utf8Bytes (line ++ ['\n']) := by
        rw [utf8Bytes_append]
        rfl
      have hbytes : utf8Bytes (line ++ '\n' :: rest) =
          utf8Bytes line ++ 0x0A :: utf8Bytes rest := by
        rw [utf8Bytes_append]
        rfl
      rw [hbytes, linesOnto_append_lineFeed (lineFeed_notMem_utf8Bytes hline), List.map_cons, ih,
        hfeed, decodeLine_utf8Bytes, chomp_append_lineFeed, promptLines,
        splitLines_append_lineFeed _ hline, List.map_cons]

end Prompt

end LoxLexer
