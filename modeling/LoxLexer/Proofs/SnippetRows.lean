import LoxLexer.Fault.Snippet
import LoxLexer.Proofs.SourceLines

/-!
# The rows of a rendering

A fault whose position lies in its source is rendered with two rows at the end: its line, without
the white space at the ends, and the caret.  Both are read off the rendered text here, as its last
two lines.  What stands above them does not matter; the name of a file may hold line feeds.
-/

namespace LoxLexer

/-! ## Trimming -/

/-- Trimming takes white space only, and from the front all there is. -/
theorem exists_dropped (text : List Char) :
    ∃ dropped, text = text.takeWhile isWhiteSpace ++ trim text ++ dropped ∧
      ∀ c ∈ dropped, isWhiteSpace c = true := by
  refine ⟨(trimStart text).rtakeWhile isWhiteSpace, ?_, fun c => List.mem_rtakeWhile_imp⟩
  have htrim : trim text ++ (trimStart text).rtakeWhile isWhiteSpace = trimStart text :=
    List.rdropWhile_append_rtakeWhile
  rw [List.append_assoc, htrim]
  exact List.takeWhile_append_dropWhile.symm

theorem isWhiteSpace_head_trim (text : List Char) :
    ∀ c ∈ (trim text).head?, isWhiteSpace c = false := by
  intro c hc
  obtain ⟨dropped, hdropped⟩ : trim text <+: trimStart text := List.rdropWhile_prefix _ _
  apply stop_of_dropWhile isWhiteSpace text
  rw [← trimStart, ← hdropped, List.head?_append, Option.mem_def.mp hc]
  rfl

theorem isWhiteSpace_getLast_trim (text : List Char) :
    ∀ c ∈ (trim text).getLast?, isWhiteSpace c = false := by
  intro c hc
  obtain ⟨hne, hlast⟩ := List.mem_getLast?_eq_getLast hc
  have hnot : ¬ isWhiteSpace ((trim text).getLast hne) = true :=
    List.rdropWhile_last_not isWhiteSpace (trimStart text) hne
  rw [hlast]
  simpa using hnot

/-- A line feed is white space, so the one that ends a line is trimmed. -/
theorem lineFeed_notMem_trim
    {text : List Char} (htext : '\n' ∉ text.dropLast) : '\n' ∉ trim text := by
  intro hmem
  obtain ⟨most, last, htrim⟩ :=
    (List.eq_nil_or_concat' (trim text)).resolve_left (List.ne_nil_of_mem hmem)
  have hlast : last ≠ '\n' := by
    rintro rfl
    have hwhite := isWhiteSpace_getLast_trim text '\n' (by rw [htrim]; simp)
    cases hwhite
  obtain ⟨dropped, hsplit, -⟩ := exists_dropped text
  apply htext
  rw [hsplit, htrim, ← List.append_assoc, List.append_assoc,
    List.dropLast_append_of_ne_nil (by simp)]
  rw [htrim, List.mem_append, List.mem_singleton] at hmem
  simp [hmem.resolve_right (Ne.symm hlast)]

theorem not_forall_of_mem
    {p : Char → Bool} {text : List Char} {c : Char} (hmem : c ∈ text) (hc : p c = false) :
    ¬ ∀ d ∈ text, p d = true := by
  intro hall
  rw [hall c hmem] at hc
  cases hc

/-- What a text begins with ends before a character that, with all on its left, is no part of it. -/
theorem exists_left_append
    {p : Char → Prop} {front rest left right : List Char} {c : Char}
    (hfront : ∀ d ∈ front, p d) (hleft : ¬ ∀ d ∈ left ++ [c], p d)
    (htext : left ++ c :: right = front ++ rest) :
    ∃ before, left = front ++ before ∧ rest = before ++ c :: right := by
  rcases List.append_eq_append_iff.mp htext with ⟨more, hmore, hrest⟩ | ⟨before, hbefore, hrest⟩
  · cases more with
    | nil => exact ⟨[], by simpa using hmore.symm, by simpa using hrest.symm⟩
    | cons d more =>
        obtain ⟨rfl, -⟩ := List.cons.inj hrest
        have hwhole : front = left ++ [c] ++ more := by
          rw [hmore, List.append_assoc]
          rfl
        rw [hwhole] at hfront
        exact absurd (fun d hd => hfront d (List.mem_append_left more hd)) hleft
  · exact ⟨before, hbefore, hrest⟩

theorem exists_append_right
    {p : Char → Prop} {shown back before right : List Char} {c : Char}
    (hback : ∀ d ∈ back, p d) (hright : ¬ ∀ d ∈ c :: right, p d)
    (htext : before ++ c :: right = shown ++ back) :
    ∃ after, right = after ++ back ∧ shown = before ++ c :: after := by
  rcases List.append_eq_append_iff.mp htext with ⟨more, hmore, hend⟩ | ⟨more, hmore, hend⟩
  · cases more with
    | nil =>
        rw [← List.nil_append back, ← hend] at hback
        exact absurd hback hright
    | cons d after =>
        obtain ⟨rfl, hafter⟩ := List.cons.inj hend
        exact ⟨after, hafter, hmore⟩
  · rw [hend] at hback
    exact absurd (fun d hd => hback d (List.mem_append_right more hd)) hright

/-- A character is left by trimming unless it is part of the white space at an end. -/
theorem exists_of_not_trimmed
    {text left right : List Char} {c : Char} (htext : text = left ++ c :: right)
    (hleft : ¬ ∀ d ∈ left ++ [c], isWhiteSpace d = true)
    (hright : ¬ ∀ d ∈ c :: right, isWhiteSpace d = true) :
    ∃ before after dropped, left = text.takeWhile isWhiteSpace ++ before ∧
      right = after ++ dropped ∧ trim text = before ++ c :: after := by
  obtain ⟨dropped, hsplit, hdropped⟩ := exists_dropped text
  have hwhole := htext.symm.trans hsplit
  rw [List.append_assoc] at hwhole
  obtain ⟨before, hbefore, hrest⟩ :=
    exists_left_append (fun _ => List.mem_takeWhile_imp) hleft hwhole
  obtain ⟨after, hafter, hshown⟩ := exists_append_right hdropped hright hrest.symm
  exact ⟨before, after, dropped, hbefore, hafter, hshown⟩

theorem exists_of_not_white
    {text left right : List Char} {c : Char} (htext : text = left ++ c :: right)
    (hc : isWhiteSpace c = false) :
    ∃ before after dropped, left = text.takeWhile isWhiteSpace ++ before ∧
      right = after ++ dropped ∧ trim text = before ++ c :: after := by
  apply exists_of_not_trimmed htext
  · exact not_forall_of_mem (by simp) hc
  · exact not_forall_of_mem List.mem_cons_self hc

theorem not_white_of_trim_eq
    {text before after : List Char} {c : Char} (htrim : trim text = before ++ c :: after) :
    (¬ ∀ d ∈ before ++ [c], isWhiteSpace d = true) ∧
    ¬ ∀ d ∈ c :: after, isWhiteSpace d = true := by
  have hhead := isWhiteSpace_head_trim text
  have hlast := isWhiteSpace_getLast_trim text
  rw [htrim] at hhead hlast
  constructor
  · cases before with
    | nil => exact not_forall_of_mem List.mem_cons_self (hhead c rfl)
    | cons d before => exact not_forall_of_mem List.mem_cons_self (hhead d rfl)
  · have hne := List.cons_ne_nil c after
    rw [List.getLast?_append_of_ne_nil before hne] at hlast
    apply not_forall_of_mem (List.getLast_mem hne)
    exact hlast _ (List.getLast?_eq_getLast_of_ne_nil hne)

/-- The text that trimming leaves occurs only once, behind the white space in front. -/
theorem takeWhile_of_trim_eq
    {text skipped dropped : List Char} (hshown : trim text ≠ [])
    (htext : text = skipped ++ trim text ++ dropped) :
    skipped = text.takeWhile isWhiteSpace := by
  obtain ⟨first, tail, hfirst⟩ := List.exists_cons_of_ne_nil hshown
  obtain ⟨most, last, hlast⟩ := (List.eq_nil_or_concat' (trim text)).resolve_left hshown
  have hstart : text = skipped ++ first :: (tail ++ dropped) := by
    rw [hfirst] at htext
    simpa using htext
  have hend : text = skipped ++ most ++ last :: dropped := by
    rw [hlast] at htext
    simpa using htext
  obtain ⟨more, -, -, hmore, -, -⟩ :=
    exists_of_not_white hstart (isWhiteSpace_head_trim text first (by simp [hfirst]))
  obtain ⟨before, after, -, hbefore, -, htrim⟩ :=
    exists_of_not_white hend (isWhiteSpace_getLast_trim text last (by simp [hlast]))
  -- The first character bounds what is skipped from below, the last one from above.
  have hnil : more = [] := by
    apply List.eq_nil_of_length_eq_zero
    have hlength := congrArg List.length (hlast.symm.trans htrim)
    rw [hmore, List.append_assoc] at hbefore
    have hsame := congrArg List.length (List.append_cancel_left hbefore)
    simp only [List.length_append, List.length_cons, List.length_nil] at hlength hsame
    omega
  rw [hmore, hnil, List.append_nil]

/-! ## Rows -/

def sourceRow (rendering : String) : List Char :=
  (textLines rendering.toList).dropLast.getLast?.getD []

def caretRow (rendering : String) : List Char :=
  (textLines rendering.toList).getLast?.getD []

/-- What stands before the caret in its row. -/
def beforeCaret (rendering : String) : List Char :=
  (caretRow rendering).takeWhile (· ≠ '^')

/-- What stands before the text of a line in its row. -/
def label (number : Nat) : List Char :=
  (toString number ++ " | ").toList

/-- What stands before the dashes in the row of the caret. -/
def margin (number : Nat) : List Char :=
  List.replicate ((toString number).length + 1) ' ' ++ ['|', ' ']

theorem length_margin (number : Nat) : (margin number).length = (label number).length := by
  rw [label, String.toList_append, List.length_append, String.length_toList]
  simp [margin]

theorem textLines_append_lineFeed (above below : List Char) :
    textLines (above ++ '\n' :: below) = textLines (above ++ ['\n']) ++ textLines below := by
  induction above using line_induction with
  | nil =>
      have hempty : '\n' ∉ ([] : List Char) := by simp
      exact splitLines_append_lineFeed id hempty below
  | last line hline =>
      have hfirst := splitLines_append_lineFeed id hline
      simp only [textLines, hfirst, splitLines_nil, List.singleton_append]
  | line line above hline ih =>
      have hfirst := splitLines_append_lineFeed id hline
      simp only [textLines] at ih ⊢
      rw [List.append_assoc, List.append_assoc, List.cons_append, List.cons_append, hfirst, hfirst,
        ih, List.cons_append]

theorem rows_of_toList_eq
    {rendering : String} {above first second : List Char} (hfirst : '\n' ∉ first)
    (hsecond : '\n' ∉ second)
    (htext : rendering.toList = above ++ '\n' :: (first ++ '\n' :: (second ++ ['\n']))) :
    sourceRow rendering = first ∧ caretRow rendering = second := by
  have hlines : textLines rendering.toList = textLines (above ++ ['\n']) ++ [first, second] := by
    rw [htext, textLines_append_lineFeed, textLines, splitLines_append_lineFeed id hfirst,
      splitLines_append_lineFeed id hsecond]
    rfl
  constructor
  · rw [sourceRow, hlines, List.dropLast_append_of_ne_nil (by simp)]
    simp
  · rw [caretRow, hlines]
    simp

theorem toList_pushn (text : String) (c : Char) (count : Nat) :
    (text.pushn c count).toList = text.toList ++ List.replicate count c := by
  induction count with
  | zero => simp [String.pushn, Nat.repeat]
  | succ count ih =>
      rw [String.pushn] at ih
      rw [String.pushn, Nat.repeat, String.toList_push, ih, List.replicate_succ', List.append_assoc]

theorem lineFeed_notMem_label (number : Nat) : '\n' ∉ label number := by
  have hdigits : '\n' ∉ Nat.toDigits 10 number := by
    intro hmem
    cases Nat.isDigit_of_mem_toDigits (by decide) (by decide) hmem
  simp [label, hdigits]

theorem toList_snippet (line : SourceLine) :
    line.snippet.toList =
      line.gutter.toList ++ '|' :: '\n' :: (label line.number ++ trim line.text ++ '\n' ::
        (margin line.number ++ List.replicate line.caretIndent '-' ++ ['^'] ++ ['\n'])) := by
  simp [SourceLine.snippet, SourceLine.gutter, label, margin, toList_pushn]

/-- The rows of a fault are those of the line that the lookup finds. -/
theorem rows_of_render
    {fault : Fault} {source fileName rendering : String} {line : SourceLine}
    (hline : lineAt? source.toList fault.position = some line)
    (hsingle : '\n' ∉ line.text.dropLast)
    (hrender : fault.render source fileName = .ok rendering) :
    sourceRow rendering = label line.number ++ trim line.text ∧
    caretRow rendering =
      margin line.number ++ List.replicate line.caretIndent '-' ++ ['^'] := by
  have htext : rendering = fault.heading fileName ++ line.snippet := by
    simp only [Fault.render, hline] at hrender
    split_ifs at hrender
    exact (Except.ok.inj hrender).symm
  have hfirst : '\n' ∉ label line.number ++ trim line.text := by
    rw [List.mem_append, not_or]
    exact ⟨lineFeed_notMem_label line.number, lineFeed_notMem_trim hsingle⟩
  have hsecond :
      '\n' ∉ margin line.number ++ List.replicate line.caretIndent '-' ++ ['^'] := by
    simp [margin]
  have hrows : rendering.toList =
      ((fault.heading fileName).toList ++ line.gutter.toList ++ ['|']) ++ '\n' ::
        (label line.number ++ trim line.text ++ '\n' ::
          (margin line.number ++ List.replicate line.caretIndent '-' ++ ['^'] ++ ['\n'])) := by
    rw [htext, String.toList_append, toList_snippet]
    simp
  exact rows_of_toList_eq hfirst hsecond hrows

theorem mem_beforeCaret_cases
    {number dashes : Nat} {c : Char} (hc : c ∈ margin number ++ List.replicate dashes '-') :
    c = ' ' ∨ c = '|' ∨ c = '-' := by
  simp only [margin, List.mem_append, List.mem_replicate, List.mem_cons, List.not_mem_nil,
    or_false] at hc
  tauto

theorem beforeCaret_eq
    {rendering : String} {number dashes : Nat}
    (hrow : caretRow rendering = margin number ++ List.replicate dashes '-' ++ ['^']) :
    beforeCaret rendering = margin number ++ List.replicate dashes '-' := by
  rw [beforeCaret, hrow]
  apply takeWhile_append_of_stop
  · intro c hc
    rcases mem_beforeCaret_cases hc with rfl | rfl | rfl <;> rfl
  · simp

end LoxLexer
