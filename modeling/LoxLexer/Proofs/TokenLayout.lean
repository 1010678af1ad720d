import LoxLexer.Proofs.ScanOutput
import LoxLexer.Proofs.TextClass

/-!
# Laying out tokens

A list of tokens is laid out as a text by writing their lexemes with gaps of blanks between them.
Scanning the text gives the tokens back unless neighbours without a gap run together.

The layout is a list of segments.  If each is maximal at its place, the scanner reads just these.
If one is not, the first such is read as a longer segment.  A longer token shows in the tokens; a
comment, which swallows two slashes at least, shows in their number, since the gaps contain none.
-/

namespace LoxLexer

/-- The lexemes of a kind. -/
def TokenKind.Allows (text : List Char) : TokenKind → Prop
  | .operator op => text = op.chars
  | .keyword reserved => text = reserved.text.toList
  | .identifier => IsWord text ∧ ∀ reserved : Keyword, text ≠ reserved.text.toList
  | .number => IsNumber text
  | .string => ∃ body, '"' ∉ body ∧ text = '"' :: body ++ ['"']
  | .endOfSource => False

def TokenKind.IsWord (kind : TokenKind) : Prop :=
  kind = .identifier ∨ ∃ reserved, kind = .keyword reserved

structure Lexeme where
  kind : TokenKind
  text : List Char
  allowed : kind.Allows text

abbrev Gap := { text : List Char // ∀ c ∈ text, c ∈ [' ', '\t', '\r', '\n'] }

/-- A lexeme with the gap behind it. -/
structure Spaced extends Lexeme where
  gap : Gap

def Spaced.written (item : Spaced) : List Char :=
  item.text ++ item.gap.val

/-- The text of lexemes and the gaps before, between and behind them. -/
def layout (first : Gap) (items : List Spaced) : List Char :=
  first.val ++ items.flatMap Spaced.written

/-- The scan of the layout has no faults, and tokens of the kinds and lexemes laid out. -/
def Recovered (first : Gap) (items : List Spaced) : Prop :=
  let result := scan (String.ofList (layout first items))
  result.log.toList = [] ∧
    result.tokens.map (fun token => (token.kind, token.lexeme)) =
      items.map (fun item => (item.kind, String.ofList item.text)) ++ [(.endOfSource, "")]

/-- The first of the items is continued by those that follow it without a gap. -/
inductive RunsTogether : List Spaced → Prop
  | word {left right : Spaced} {later : List Spaced} (hgap : left.gap.val = [])
      (hleft : left.kind.IsWord) (hright : right.kind.IsWord ∨ right.kind = .number) :
      RunsTogether (left :: right :: later)
  | number {left right : Spaced} {later : List Spaced} (hgap : left.gap.val = [])
      (hleft : left.kind = .number) (hright : right.kind = .number) :
      RunsTogether (left :: right :: later)
  | equal {left right : Spaced} {later : List Spaced} {op next : Operator}
      (hgap : left.gap.val = []) (hleft : left.kind = .operator op)
      (hop : op ∈ [.bang, .equal, .less, .greater]) (hright : right.kind = .operator next)
      (hnext : next ∈ [.equal, .equalEqual]) : RunsTogether (left :: right :: later)
  | slash {left right : Spaced} {later : List Spaced} (hgap : left.gap.val = [])
      (hleft : left.kind = .operator .slash) (hright : right.kind = .operator .slash) :
      RunsTogether (left :: right :: later)
  | point {left point right : Spaced} {later : List Spaced} (hgap : left.gap.val = [])
      (hleft : left.kind = .number) (hwhole : '.' ∉ left.text)
      (hpoint : point.kind = .operator .dot) (hgap' : point.gap.val = [])
      (hright : right.kind = .number) : RunsTogether (left :: point :: right :: later)

/-! ## The segment of a lexeme -/

theorem Keyword.isWord_text (reserved : Keyword) : LoxLexer.IsWord reserved.text.toList := by
  rw [isWord_iff]
  cases reserved <;> exact ⟨_, _, rfl, rfl, List.all_eq_true.mp rfl⟩

theorem Numeral.read_chars
    {numeral : Numeral} (hwell : numeral.WellFormed) :
    read numeral.chars = (numeral, []) := by
  have hread := read_chars_append hwell (show numeral.MaximalBefore [] from ⟨by simp, by simp⟩)
  rwa [List.append_nil] at hread

namespace Lexeme

def segment : Lexeme → Segment
  | ⟨.operator op, _, _⟩ => .operator op
  | ⟨.keyword _, text, _⟩ => .word text
  | ⟨.identifier, text, _⟩ => .word text
  | ⟨.number, text, _⟩ => .number (Numeral.read text).1
  | ⟨.string, text, _⟩ => .string text.tail.dropLast
  | ⟨.endOfSource, _, allowed⟩ => allowed.elim

theorem chars_segment (lexeme : Lexeme) : lexeme.segment.chars = lexeme.text := by
  obtain ⟨kind, text, hallowed⟩ := lexeme
  cases kind with
  | operator op => exact hallowed.symm
  | keyword reserved => rfl
  | identifier => rfl
  | number =>
      obtain ⟨numeral, hwell, rfl⟩ := isNumber_iff.mp hallowed
      simp only [segment, Numeral.read_chars hwell, Segment.chars]
  | string =>
      obtain ⟨body, -, rfl⟩ := hallowed
      simp [segment, Segment.chars]
  | endOfSource => exact hallowed.elim

theorem legal_segment
    (lexeme : Lexeme) (rest : List Char) : lexeme.segment.LegalBefore rest := by
  obtain ⟨kind, text, hallowed⟩ := lexeme
  cases kind with
  | operator op => trivial
  | keyword reserved =>
      obtain rfl : text = reserved.text.toList := hallowed
      exact isWord_iff.mp reserved.isWord_text
  | identifier => exact isWord_iff.mp hallowed.1
  | number =>
      obtain ⟨numeral, hwell, rfl⟩ := isNumber_iff.mp hallowed
      simpa only [segment, Numeral.read_chars hwell, Segment.LegalBefore] using hwell
  | string =>
      obtain ⟨body, hbody, rfl⟩ := hallowed
      simpa [segment, Segment.LegalBefore] using hbody
  | endOfSource => exact hallowed.elim

end Lexeme

/-! ## Kinds and lexemes -/

namespace Segment

/-- The kind and the lexeme of the token that a segment stands for. -/
def shape? (segment : Segment) : Option (TokenKind × String) :=
  (segment.token? 1).map fun token => (token.kind, token.lexeme)

theorem map_token?_eq_shape? (segment : Segment) (line : Nat) :
    (segment.token? line).map (fun token => (token.kind, token.lexeme)) =
      segment.shape? := by
  cases segment <;> rfl

theorem map_tokensFrom_eq (cursor : Cursor) (segments : List Segment) :
    (tokensFrom cursor segments).map (fun token => (token.kind, token.lexeme)) =
      segments.filterMap shape? := by
  induction segments generalizing cursor with
  | nil => rfl
  | cons segment segments ih =>
      rw [tokensFrom_cons, List.map_append, ih, ← Option.toList_map, map_token?_eq_shape?,
        List.filterMap_cons]
      cases segment.shape? <;> rfl

theorem lexeme_of_token?
    {segment : Segment} {line : Nat} {token : Token}
    (htoken : segment.token? line = some token) : token.lexeme.toList = segment.chars := by
  cases segment <;> cases htoken <;> simp [chars]

theorem lexeme_of_shape?
    {segment : Segment} {shape : TokenKind × String}
    (hshape : segment.shape? = some shape) : shape.2.toList = segment.chars := by
  obtain ⟨token, htoken, rfl⟩ := Option.map_eq_some_iff.mp hshape
  exact lexeme_of_token? htoken

def Quiet : Segment → Prop
  | .openString _ | .stray _ => False
  | .blank _ | .comment _ | .operator _ | .number _ | .word _ | .string _ => True

theorem faultsFrom_eq_nil_iff
    {cursor : Cursor} {segments : List Segment} :
    faultsFrom cursor segments = [] ↔ ∀ segment ∈ segments, segment.Quiet := by
  induction segments generalizing cursor with
  | nil => simp
  | cons segment segments ih =>
      rw [faultsFrom_cons, List.append_eq_nil_iff, ih, List.forall_mem_cons]
      cases segment <;> simp [fault?, Quiet]

/-- A segment that is legal before any text, and is a blank or stands for a token. -/
structure Laid (segment : Segment) : Prop where
  legal : ∀ rest, segment.LegalBefore rest
  shown : (∃ c, segment = .blank c) ∨ ∃ shape, segment.shape? = some shape

/-! ## Slashes -/

def slashes (shapes : List (TokenKind × String)) : Nat :=
  (shapes.map fun shape => shape.2.toList.count '/').sum

theorem slashes_shapes_le (segments : List Segment) :
    slashes (segments.filterMap shape?) ≤ (segments.flatMap chars).count '/' := by
  induction segments with
  | nil => simp [slashes]
  | cons segment segments ih =>
      rw [List.flatMap_cons, List.count_append, List.filterMap_cons]
      cases hshape : segment.shape? with
      | none => exact ih.trans (Nat.le_add_left _ _)
      | some shape =>
          simp only [slashes, List.map_cons, List.sum_cons] at ih ⊢
          rw [lexeme_of_shape? hshape]
          omega

theorem slashes_shapes_eq
    {segments : List Segment} (hlaid : ∀ segment ∈ segments, segment.Laid) :
    slashes (segments.filterMap shape?) = (segments.flatMap chars).count '/' := by
  induction segments with
  | nil => simp [slashes]
  | cons segment segments ih =>
      have hlater := ih fun later hmem => hlaid later (List.mem_cons_of_mem _ hmem)
      have hfirst := hlaid segment List.mem_cons_self
      rw [List.flatMap_cons, List.count_append, List.filterMap_cons]
      rcases hfirst.shown with ⟨c, rfl⟩ | ⟨shape, hshape⟩
      · have hblank : isBlank c = true := hfirst.legal []
        have hne : c ≠ '/' := by
          rintro rfl
          cases hblank
        simpa [shape?, token?, chars, hne] using hlater
      · simp only [hshape, slashes, List.map_cons, List.sum_cons] at hlater ⊢
        rw [lexeme_of_shape? hshape, hlater]

/-! ## Recovery at the level of segments -/

/-- A laid segment that is not maximal is not read as another token with its lexeme, nor skipped
together with slashes that other lexemes need. -/
theorem maximal_of_shapes
    {segment : Segment} {segments : List Segment}
    (hlaid : ∀ other ∈ segment :: segments, other.Laid)
    (hquiet : ∀ other ∈ cut ((segment :: segments).flatMap chars), other.Quiet)
    (hshapes : (cut ((segment :: segments).flatMap chars)).filterMap shape? =
      (segment :: segments).filterMap shape?) :
    segment.MaximalBefore (segments.flatMap chars) := by
  have hlegal : segment.LegalBefore (segments.flatMap chars) :=
    (hlaid segment List.mem_cons_self).legal _
  by_contra hmax
  obtain ⟨shape, hshape⟩ : ∃ shape, segment.shape? = some shape := by
    rcases (hlaid segment List.mem_cons_self).shown with ⟨c, rfl⟩ | hshown
    · exact (hmax trivial).elim
    · exact hshown
  have hslashes := slashes_shapes_eq hlaid
  rw [← hshapes] at hslashes
  rw [List.flatMap_cons] at hquiet hshapes hslashes
  obtain ⟨c, tail, htext⟩ :=
    List.exists_cons_of_ne_nil (List.append_ne_nil_of_left_ne_nil hlegal.chars_ne_nil _)
  have hlonger := hlegal.length_lt_read hmax htext
  have hpos := List.length_pos_iff.mpr hlegal.chars_ne_nil
  rw [htext, cut_cons] at hquiet hshapes hslashes
  have hread := chars_read_append c tail
  have hfirst := hquiet _ List.mem_cons_self
  cases hother : (read c tail).1.shape? with
  | some other =>
      rw [List.filterMap_cons_some hother, List.filterMap_cons_some hshape,
        List.cons.injEq] at hshapes
      have hsame := lexeme_of_shape? hother
      rw [hshapes.1, lexeme_of_shape? hshape] at hsame
      rw [hsame] at hlonger
      exact Nat.lt_irrefl _ hlonger
  | none =>
      have hless := slashes_shapes_le (cut (read c tail).2)
      rw [flatMap_chars_cut] at hless
      rw [List.filterMap_cons_none hother, ← hread, List.count_append] at hslashes
      cases hsegment : (read c tail).1 with
      | comment body =>
          rw [hsegment] at hslashes
          simp only [chars, List.count_cons_self] at hslashes
          omega
      | blank b =>
          have hlength : (read c tail).1.chars.length = 1 := by
            rw [hsegment]
            rfl
          omega
      | openString body | stray b =>
          rw [hsegment] at hfirst
          exact hfirst
      | operator | number | word | string =>
          rw [hsegment] at hother
          cases hother

theorem fitted_of_shapes
    {segments : List Segment} (hlaid : ∀ segment ∈ segments, segment.Laid)
    (hquiet : ∀ segment ∈ cut (segments.flatMap chars), segment.Quiet)
    (hshapes : (cut (segments.flatMap chars)).filterMap shape? =
      segments.filterMap shape?) : Fitted segments := by
  induction segments with
  | nil => exact .nil
  | cons segment segments ih =>
      have hmax := maximal_of_shapes hlaid hquiet hshapes
      have hlegal : segment.LegalBefore (segments.flatMap chars) :=
        (hlaid segment List.mem_cons_self).legal _
      have hcut : cut ((segment :: segments).flatMap chars) =
          segment :: cut (segments.flatMap chars) := by
        rw [List.flatMap_cons]
        exact cut_append_of_maximal hlegal hmax
      rw [hcut] at hquiet hshapes
      refine .cons hlegal hmax (ih ?_ ?_ ?_)
      · exact fun later hmem => hlaid later (List.mem_cons_of_mem _ hmem)
      · exact fun later hmem => hquiet later (List.mem_cons_of_mem _ hmem)
      · rw [List.filterMap_cons, List.filterMap_cons] at hshapes
        cases hshape : segment.shape? with
        | none => simpa only [hshape] using hshapes
        | some shape => simpa only [hshape, List.cons.injEq, true_and] using hshapes

end Segment

/-! ## The segments of a layout -/

open Segment

theorem Lexeme.shape?_segment (lexeme : Lexeme) :
    lexeme.segment.shape? = some (lexeme.kind, String.ofList lexeme.text) := by
  obtain ⟨kind, text, hallowed⟩ := lexeme
  cases kind with
  | operator op =>
      obtain rfl : text = op.chars := hallowed
      rfl
  | keyword reserved =>
      obtain rfl : text = reserved.text.toList := hallowed
      simp [segment, shape?, token?, TokenKind.ofWord, Keyword.ofText?_text]
  | identifier =>
      obtain ⟨-, hreserved⟩ := hallowed
      have hnone : Keyword.ofText? (String.ofList text) = none := by
        cases hword : Keyword.ofText? (String.ofList text) with
        | none => rfl
        | some reserved =>
            have htext := Keyword.text_of_ofText? hword
            exact (hreserved reserved (by rw [htext, String.toList_ofList])).elim
      simp [segment, shape?, token?, TokenKind.ofWord, hnone]
  | number =>
      obtain ⟨numeral, hwell, rfl⟩ := isNumber_iff.mp hallowed
      simp [segment, shape?, token?, Numeral.read_chars hwell]
  | string =>
      obtain ⟨body, -, rfl⟩ := hallowed
      simp [segment, shape?, token?]
  | endOfSource => exact hallowed.elim

theorem Lexeme.laid_segment (lexeme : Lexeme) : lexeme.segment.Laid :=
  ⟨lexeme.legal_segment, .inr ⟨_, lexeme.shape?_segment⟩⟩

namespace Gap

def segments (gap : Gap) : List Segment := gap.val.map .blank

theorem isBlank_of_mem (gap : Gap) {c : Char} (hc : c ∈ gap.val) : isBlank c = true := by
  have hmem := gap.property c hc
  simpa [isBlank, or_assoc] using hmem

theorem flatMap_chars_segments (gap : Gap) : gap.segments.flatMap chars = gap.val := by
  rw [segments, List.flatMap_map]
  exact List.flatMap_singleton' gap.val

theorem filterMap_shape?_segments (gap : Gap) : gap.segments.filterMap shape? = [] := by
  rw [segments, List.filterMap_map]
  exact List.filterMap_eq_nil_iff.mpr fun c _ => rfl

theorem laid_of_mem_segments
    {gap : Gap} : ∀ segment ∈ gap.segments, segment.Laid := by
  intro segment hmem
  obtain ⟨c, hc, rfl⟩ := List.mem_map.mp hmem
  exact ⟨fun _ => gap.isBlank_of_mem hc, .inl ⟨c, rfl⟩⟩

theorem fitted_segments_append_iff (gap : Gap) (segments : List Segment) :
    Fitted (gap.segments ++ segments) ↔ Fitted segments := by
  obtain ⟨text, hblank⟩ := gap
  induction text with
  | nil => rfl
  | cons c text ih =>
      have hlater : ∀ d ∈ text, d ∈ [' ', '\t', '\r', '\n'] :=
        fun d hd => hblank d (List.mem_cons_of_mem c hd)
      have hc : isBlank c = true := isBlank_of_mem ⟨c :: text, hblank⟩ List.mem_cons_self
      rw [← ih hlater]
      constructor
      · intro hfitted
        cases hfitted with
        | cons _ _ hfitted => exact hfitted
      · intro hfitted
        exact .cons hc trivial hfitted

end Gap

namespace Spaced

def segments (item : Spaced) : List Segment :=
  item.segment :: item.gap.segments

theorem flatMap_chars_segments (item : Spaced) :
    item.segments.flatMap chars = item.written := by
  rw [segments, List.flatMap_cons, item.gap.flatMap_chars_segments, item.chars_segment]
  rfl

theorem filterMap_shape?_segments (item : Spaced) :
    item.segments.filterMap shape? = [(item.kind, String.ofList item.text)] := by
  rw [segments, List.filterMap_cons_some item.shape?_segment,
    item.gap.filterMap_shape?_segments]

end Spaced

def layoutSegments (first : Gap) (items : List Spaced) : List Segment :=
  first.segments ++ items.flatMap Spaced.segments

theorem flatMap_chars_items (items : List Spaced) :
    (items.flatMap Spaced.segments).flatMap chars = items.flatMap Spaced.written := by
  rw [List.flatMap_assoc]
  exact congrArg (List.flatMap · items) (funext Spaced.flatMap_chars_segments)

theorem flatMap_chars_layoutSegments (first : Gap) (items : List Spaced) :
    (layoutSegments first items).flatMap chars = layout first items := by
  rw [layoutSegments, List.flatMap_append, first.flatMap_chars_segments, flatMap_chars_items]
  rfl

theorem filterMap_shape?_layoutSegments (first : Gap) (items : List Spaced) :
    (layoutSegments first items).filterMap shape? =
      items.map fun item => (item.kind, String.ofList item.text) := by
  rw [layoutSegments, List.filterMap_append, first.filterMap_shape?_segments, List.nil_append]
  induction items with
  | nil => rfl
  | cons item items ih =>
      rw [List.flatMap_cons, List.filterMap_append, item.filterMap_shape?_segments, ih]
      rfl

theorem laid_of_mem_layoutSegments
    {first : Gap} {items : List Spaced} :
    ∀ segment ∈ layoutSegments first items, segment.Laid := by
  intro segment hmem
  rcases List.mem_append.mp hmem with hfirst | hitems
  · exact Gap.laid_of_mem_segments segment hfirst
  · obtain ⟨item, -, hmem⟩ := List.mem_flatMap.mp hitems
    rcases List.mem_cons.mp hmem with rfl | hgap
    · exact item.laid_segment
    · exact Gap.laid_of_mem_segments segment hgap

theorem quiet_of_laid {segment : Segment} (hlaid : segment.Laid) : segment.Quiet := by
  rcases hlaid.shown with ⟨c, rfl⟩ | ⟨shape, hshape⟩
  · trivial
  · cases segment with
    | openString body | stray c => cases hshape
    | _ => trivial

theorem recovered_iff_fitted (first : Gap) (items : List Spaced) :
    Recovered first items ↔ Fitted (layoutSegments first items) := by
  have hlaid : ∀ segment ∈ layoutSegments first items, segment.Laid :=
    laid_of_mem_layoutSegments
  have hrecovered : Recovered first items ↔
      (∀ segment ∈ cut ((layoutSegments first items).flatMap chars), segment.Quiet) ∧
        (cut ((layoutSegments first items).flatMap chars)).filterMap shape? =
          (layoutSegments first items).filterMap shape? := by
    rw [flatMap_chars_layoutSegments, filterMap_shape?_layoutSegments]
    simp only [Recovered, faults_scan, tokens_scan, String.toList_ofList,
      faultsFrom_eq_nil_iff, List.map_append, map_tokensFrom_eq]
    exact and_congr_right fun _ => List.append_left_inj _
  rw [hrecovered]
  constructor
  · rintro ⟨hquiet, hshapes⟩
    exact fitted_of_shapes hlaid hquiet hshapes
  · intro hfitted
    rw [hfitted.cut_flatMap_chars]
    exact ⟨fun segment hmem => quiet_of_laid (hlaid segment hmem), rfl⟩

/-! ## What continues a lexeme -/

namespace Lexeme

/-- The first character of a lexeme tells the sort of its kind. -/
theorem exists_head (lexeme : Lexeme) :
    ∃ c, lexeme.text.head? = some c ∧
      ((lexeme.kind.IsWord ∧ isWordStart c = true) ∨
        (lexeme.kind = .number ∧ c.isDigit = true) ∨
        (∃ op, lexeme.kind = .operator op ∧ op.chars.head? = some c) ∨
        (lexeme.kind = .string ∧ c = '"')) := by
  obtain ⟨kind, text, hallowed⟩ := lexeme
  have hword : LoxLexer.IsWord text → ∃ c, text.head? = some c ∧ isWordStart c = true := by
    intro htext
    obtain ⟨c, tail, rfl, hstart, -⟩ := isWord_iff.mp htext
    exact ⟨c, rfl, hstart⟩
  cases kind with
  | operator op =>
      obtain rfl : text = op.chars := hallowed
      obtain ⟨c, tail, hchars⟩ := List.exists_cons_of_ne_nil op.chars_ne_nil
      have hhead : op.chars.head? = some c := by rw [hchars]; rfl
      exact ⟨c, hhead, .inr (.inr (.inl ⟨op, rfl, hhead⟩))⟩
  | keyword reserved =>
      obtain rfl : text = reserved.text.toList := hallowed
      obtain ⟨c, hhead, hstart⟩ := hword reserved.isWord_text
      exact ⟨c, hhead, .inl ⟨.inr ⟨reserved, rfl⟩, hstart⟩⟩
  | identifier =>
      obtain ⟨c, hhead, hstart⟩ := hword hallowed.1
      exact ⟨c, hhead, .inl ⟨.inl rfl, hstart⟩⟩
  | number =>
      obtain ⟨whole, hne, hdigits, htext⟩ := hallowed
      obtain ⟨c, tail, rfl⟩ := List.exists_cons_of_ne_nil hne
      have hhead : text.head? = some c := by
        rcases htext with rfl | ⟨fraction, -, -, rfl⟩ <;> rfl
      exact ⟨c, hhead, .inr (.inl ⟨rfl, hdigits c List.mem_cons_self⟩)⟩
  | string =>
      obtain ⟨body, -, rfl⟩ := hallowed
      exact ⟨'"', rfl, .inr (.inr (.inr ⟨rfl, rfl⟩))⟩
  | endOfSource => exact hallowed.elim

theorem not_isWordPart_of_mem_operator
    {op : Operator} : ∀ c ∈ op.chars, isWordPart c = false := by
  have hall : op.chars.all (fun c => !isWordPart c) = true := by
    cases op <;> rfl
  intro c hc
  simpa using List.all_eq_true.mp hall c hc

theorem isDigit_eq_false_of_isWordPart
    {c : Char} (hc : isWordPart c = false) : c.isDigit = false := by
  by_contra hdigit
  rw [isWordPart_of_isDigit (by simpa using hdigit)] at hc
  cases hc

theorem isWordPart_head_iff
    {lexeme : Lexeme} {c : Char} (hhead : lexeme.text.head? = some c) :
    isWordPart c = true ↔ lexeme.kind.IsWord ∨ lexeme.kind = .number := by
  obtain ⟨d, hd, hcases⟩ := lexeme.exists_head
  obtain rfl : c = d := Option.some.inj (hhead.symm.trans hd)
  rcases hcases with ⟨hword, hstart⟩ | ⟨hnumber, hdigit⟩ | ⟨op, hop, hchars⟩ | ⟨hstring, rfl⟩
  · exact iff_of_true (isWordPart_of_isWordStart hstart) (.inl hword)
  · exact iff_of_true (isWordPart_of_isDigit hdigit) (.inr hnumber)
  · have hpart := not_isWordPart_of_mem_operator c (List.mem_of_mem_head? hchars)
    simp [hpart, hop, TokenKind.IsWord]
  · simp [hstring, TokenKind.IsWord, isWordPart]

theorem isDigit_head_iff
    {lexeme : Lexeme} {c : Char} (hhead : lexeme.text.head? = some c) :
    c.isDigit = true ↔ lexeme.kind = .number := by
  obtain ⟨d, hd, hcases⟩ := lexeme.exists_head
  obtain rfl : c = d := Option.some.inj (hhead.symm.trans hd)
  rcases hcases with ⟨hword, hstart⟩ | ⟨hnumber, hdigit⟩ | ⟨op, hop, hchars⟩ | ⟨hstring, rfl⟩
  · rw [isDigit_eq_false_of_isWordStart hstart]
    rcases hword with hkind | ⟨reserved, hkind⟩ <;> simp [hkind]
  · exact iff_of_true hdigit hnumber
  · have hpart := not_isWordPart_of_mem_operator c (List.mem_of_mem_head? hchars)
    simp [isDigit_eq_false_of_isWordPart hpart, hop]
  · simp [hstring]

theorem exists_operator_of_head
    {lexeme : Lexeme} {c : Char} (hhead : lexeme.text.head? = some c)
    (hpart : isWordPart c = false) (hquote : c ≠ '"') :
    ∃ op, lexeme.kind = .operator op ∧ op.chars.head? = some c := by
  obtain ⟨d, hd, hcases⟩ := lexeme.exists_head
  obtain rfl : c = d := Option.some.inj (hhead.symm.trans hd)
  rcases hcases with ⟨-, hstart⟩ | ⟨-, hdigit⟩ | hop | ⟨-, rfl⟩
  · rw [isWordPart_of_isWordStart hstart] at hpart
    cases hpart
  · rw [isWordPart_of_isDigit hdigit] at hpart
    cases hpart
  · exact hop
  · exact (hquote rfl).elim

theorem segment_of_operator
    {lexeme : Lexeme} {op : Operator} (hkind : lexeme.kind = .operator op) :
    lexeme.segment = .operator op ∧ lexeme.text = op.chars := by
  obtain ⟨kind, text, hallowed⟩ := lexeme
  cases hkind
  exact ⟨rfl, hallowed⟩

theorem segment_of_isWord
    {lexeme : Lexeme} (hkind : lexeme.kind.IsWord) :
    lexeme.segment = .word lexeme.text := by
  obtain ⟨kind, text, hallowed⟩ := lexeme
  rcases hkind with hkind | ⟨reserved, hkind⟩ <;> cases hkind <;> rfl

theorem segment_of_string
    {lexeme : Lexeme} (hkind : lexeme.kind = .string) :
    lexeme.segment = .string lexeme.text.tail.dropLast := by
  obtain ⟨kind, text, hallowed⟩ := lexeme
  cases hkind
  rfl

theorem kind_ne_endOfSource (lexeme : Lexeme) : lexeme.kind ≠ .endOfSource := by
  obtain ⟨kind, text, hallowed⟩ := lexeme
  rintro rfl
  exact hallowed

theorem segment_of_number
    {lexeme : Lexeme} (hkind : lexeme.kind = .number) :
    ∃ numeral : Numeral, lexeme.segment = .number numeral ∧
      (numeral.fraction = [] ↔ '.' ∉ lexeme.text) := by
  obtain ⟨kind, text, hallowed⟩ := lexeme
  cases hkind
  obtain ⟨⟨whole, fraction⟩, hwell, rfl⟩ := isNumber_iff.mp hallowed
  refine ⟨⟨whole, fraction⟩, by simp only [segment, Numeral.read_chars hwell], ?_⟩
  cases fraction with
  | nil =>
      refine iff_of_true rfl fun hmem => ?_
      have hdigit := hwell.whole_digits '.' hmem
      cases hdigit
  | cons d digits => simp

end Lexeme

namespace Spaced

/-- What follows a lexeme begins with a blank of its gap, or the gap is empty and it begins with
the next lexeme. -/
theorem head_cases
    {item : Spaced} {later : List Spaced} {c : Char}
    (hc : (item.gap.val ++ later.flatMap Spaced.written).head? = some c) :
    isBlank c = true ∨
      (item.gap.val = [] ∧ ∃ next more, later = next :: more ∧
        next.text.head? = some c) := by
  cases hgap : item.gap.val with
  | cons d gap =>
      rw [hgap] at hc
      obtain rfl : d = c := Option.some.inj hc
      exact .inl (item.gap.isBlank_of_mem (by simp [hgap]))
  | nil =>
      rw [hgap, List.nil_append] at hc
      cases later with
      | nil => cases hc
      | cons next more =>
          obtain ⟨d, hd, -⟩ := next.exists_head
          have hhead : ((next :: more).flatMap Spaced.written).head? = some d := by
            simp [Spaced.written, List.head?_append, hd]
          exact .inr ⟨rfl, next, more, rfl, by rw [hd, ← hhead, hc]⟩

theorem head_of_gap_eq_nil
    {left : Spaced} (hgap : left.gap.val = []) (right : Spaced) (later : List Spaced) :
    (left.gap.val ++ (right :: later).flatMap Spaced.written).head? = right.text.head? := by
  obtain ⟨c, hc, -⟩ := right.exists_head
  simp [hgap, Spaced.written, List.head?_append, hc]

theorem isWordPart_eq_false_of_isBlank
    {c : Char} (hc : isBlank c = true) : isWordPart c = false := by
  by_contra hpart
  rw [isBlank_eq_false_of_isWordPart (by simpa using hpart)] at hc
  cases hc

theorem isDigit_eq_false_of_isBlank
    {c : Char} (hc : isBlank c = true) : c.isDigit = false :=
  Lexeme.isDigit_eq_false_of_isWordPart (isWordPart_eq_false_of_isBlank hc)

/-- The next lexeme is an operator if what follows begins with a character of operators. -/
theorem next_operator_of_head
    {item : Spaced} {later : List Spaced} {c : Char}
    (hc : (item.gap.val ++ later.flatMap Spaced.written).head? = some c)
    (hblank : isBlank c = false) (hpart : isWordPart c = false) (hquote : c ≠ '"') :
    item.gap.val = [] ∧ ∃ next more op, later = next :: more ∧
      next.kind = .operator op ∧ op.chars.head? = some c := by
  rcases head_cases hc with hblank' | ⟨hgap, next, more, rfl, hhead⟩
  · rw [hblank] at hblank'
    cases hblank'
  · obtain ⟨op, hop, hchars⟩ := Lexeme.exists_operator_of_head hhead hpart hquote
    exact ⟨hgap, next, more, op, rfl, hop, hchars⟩

theorem not_maximal_of_runsTogether
    {item : Spaced} {later : List Spaced} (hruns : RunsTogether (item :: later)) :
    ¬ item.segment.MaximalBefore (item.gap.val ++ later.flatMap Spaced.written) := by
  intro hmax
  cases hruns with
  | @word _ right more hgap hleft hright =>
      obtain ⟨c, hc, -⟩ := right.exists_head
      rw [Lexeme.segment_of_isWord hleft] at hmax
      have hstop : isWordPart c = false := hmax c ((head_of_gap_eq_nil hgap _ _).trans hc)
      rw [(Lexeme.isWordPart_head_iff hc).mpr hright] at hstop
      cases hstop
  | @number _ right more hgap hleft hright =>
      obtain ⟨c, hc, -⟩ := right.exists_head
      obtain ⟨numeral, hsegment, -⟩ := Lexeme.segment_of_number hleft
      rw [hsegment] at hmax
      have hstop := hmax.stop c ((head_of_gap_eq_nil hgap _ _).trans hc)
      rw [(Lexeme.isDigit_head_iff hc).mpr hright] at hstop
      cases hstop
  | @equal _ right more op next hgap hleft hop hright hnext =>
      obtain ⟨-, htext⟩ := Lexeme.segment_of_operator hright
      have hhead : right.text.head? = some '=' := by
        rw [htext]
        revert hnext
        cases next <;> decide
      rw [(Lexeme.segment_of_operator hleft).1] at hmax
      have hstop := hmax '=' ((head_of_gap_eq_nil hgap _ _).trans hhead)
      exact hstop.1 (Operator.withEqual?_isSome_iff.mpr hop) rfl
  | @slash _ right more hgap hleft hright =>
      obtain ⟨-, htext⟩ := Lexeme.segment_of_operator hright
      have hhead : right.text.head? = some '/' := by
        rw [htext]
        rfl
      rw [(Lexeme.segment_of_operator hleft).1] at hmax
      have hstop := hmax '/' ((head_of_gap_eq_nil hgap _ _).trans hhead)
      exact hstop.2 rfl rfl
  | @point _ point right more hgap hleft hwhole hpoint hgap' hright =>
      obtain ⟨numeral, hsegment, hfraction⟩ := Lexeme.segment_of_number hleft
      obtain ⟨c, hc, -⟩ := right.exists_head
      have hhead := (head_of_gap_eq_nil hgap' right more).trans hc
      obtain ⟨tail, htail⟩ := List.head?_eq_some_iff.mp hhead
      have htext : item.gap.val ++ (point :: right :: more).flatMap Spaced.written =
          '.' :: c :: tail := by
        rw [hgap, List.nil_append, List.flatMap_cons, Spaced.written,
          (Lexeme.segment_of_operator hpoint).2, List.append_assoc, htail]
        rfl
      rw [hsegment] at hmax
      have hstop := hmax.noPoint (hfraction.mpr hwhole) c tail htext
      rw [(Lexeme.isDigit_head_iff hc).mpr hright] at hstop
      cases hstop

theorem maximal_operator
    {item : Spaced} {later : List Spaced} (hruns : ¬ RunsTogether (item :: later))
    {op : Operator} (hkind : item.kind = .operator op) :
    op.MaximalBefore (item.gap.val ++ later.flatMap Spaced.written) := by
  intro c hc
  constructor
  · rintro hequal rfl
    obtain ⟨hgap, next, more, other, rfl, hnext, hhead⟩ :=
      next_operator_of_head hc rfl rfl (by decide)
    have hother : other ∈ [.equal, .equalEqual] := by
      revert hhead
      cases other <;> decide
    exact hruns (.equal hgap hkind (Operator.withEqual?_isSome_iff.mp hequal) hnext hother)
  · rintro rfl rfl
    obtain ⟨hgap, next, more, other, rfl, hnext, hhead⟩ :=
      next_operator_of_head hc rfl rfl (by decide)
    obtain rfl : other = .slash := by
      revert hhead
      cases other <;> decide
    exact hruns (.slash hgap hkind hnext)

theorem maximal_word
    {item : Spaced} {later : List Spaced} (hruns : ¬ RunsTogether (item :: later))
    (hkind : item.kind.IsWord) :
    ∀ c ∈ (item.gap.val ++ later.flatMap Spaced.written).head?, isWordPart c = false := by
  intro c hc
  rcases head_cases hc with hblank | ⟨hgap, next, more, rfl, hhead⟩
  · exact isWordPart_eq_false_of_isBlank hblank
  · by_contra hpart
    have hnext := (Lexeme.isWordPart_head_iff hhead).mp (by simpa using hpart)
    exact hruns (.word hgap hkind hnext)

theorem maximal_number
    {item : Spaced} {later : List Spaced} (hruns : ¬ RunsTogether (item :: later))
    (hkind : item.kind = .number) {numeral : Numeral}
    (hfraction : numeral.fraction = [] ↔ '.' ∉ item.text) :
    numeral.MaximalBefore (item.gap.val ++ later.flatMap Spaced.written) := by
  constructor
  · intro c hc
    rcases head_cases hc with hblank | ⟨hgap, next, more, rfl, hhead⟩
    · exact isDigit_eq_false_of_isBlank hblank
    · by_contra hdigit
      have hnext := (Lexeme.isDigit_head_iff hhead).mp (by simpa using hdigit)
      exact hruns (.number hgap hkind hnext)
  · intro hwhole c tail htext
    have hpoint : (item.gap.val ++ later.flatMap Spaced.written).head? = some '.' := by
      rw [htext]
      rfl
    obtain ⟨hgap, point, more, op, rfl, hop, hhead⟩ :=
      next_operator_of_head hpoint rfl rfl (by decide)
    obtain rfl : op = .dot := by
      revert hhead
      cases op <;> decide
    -- the point is a lexeme of its own, so the digit behind it would begin the next but one
    rw [hgap, List.nil_append, List.flatMap_cons, Spaced.written,
      (Lexeme.segment_of_operator hop).2, List.append_assoc] at htext
    have hrest : point.gap.val ++ more.flatMap Spaced.written = c :: tail :=
      (List.cons.inj htext).2
    have hc : (point.gap.val ++ more.flatMap Spaced.written).head? = some c := by
      rw [hrest]
      rfl
    rcases head_cases hc with hblank | ⟨hgap', third, others, rfl, hthird⟩
    · exact isDigit_eq_false_of_isBlank hblank
    · by_contra hdigit
      have hnumber := (Lexeme.isDigit_head_iff hthird).mp (by simpa using hdigit)
      exact hruns (.point hgap hkind (hfraction.mp hwhole) hop hgap' hnumber)

theorem maximal_iff_not_runsTogether (item : Spaced) (later : List Spaced) :
    item.segment.MaximalBefore (item.gap.val ++ later.flatMap Spaced.written) ↔
      ¬ RunsTogether (item :: later) := by
  refine ⟨fun hmax hruns => not_maximal_of_runsTogether hruns hmax, fun hruns => ?_⟩
  cases hkind : item.kind with
  | operator op =>
      rw [(Lexeme.segment_of_operator hkind).1]
      exact maximal_operator hruns hkind
  | keyword reserved =>
      have hword : item.kind.IsWord := .inr ⟨reserved, hkind⟩
      rw [Lexeme.segment_of_isWord hword]
      exact maximal_word hruns hword
  | identifier =>
      have hword : item.kind.IsWord := .inl hkind
      rw [Lexeme.segment_of_isWord hword]
      exact maximal_word hruns hword
  | number =>
      obtain ⟨numeral, hsegment, hfraction⟩ := Lexeme.segment_of_number hkind
      rw [hsegment]
      exact maximal_number hruns hkind hfraction
  | string =>
      rw [Lexeme.segment_of_string hkind]
      trivial
  | endOfSource => exact (item.kind_ne_endOfSource hkind).elim

theorem fitted_items_iff (items : List Spaced) :
    Fitted (items.flatMap Spaced.segments) ↔
      ∀ later, later <:+ items → ¬ RunsTogether later := by
  induction items with
  | nil =>
      refine iff_of_true .nil fun later hlater hruns => ?_
      rw [List.suffix_nil.mp hlater] at hruns
      cases hruns
  | cons item items ih =>
      have htext : (item.gap.segments ++ items.flatMap Spaced.segments).flatMap chars =
          item.gap.val ++ items.flatMap Spaced.written := by
        rw [List.flatMap_append, item.gap.flatMap_chars_segments, flatMap_chars_items]
      have hlater : Fitted (item.gap.segments ++ items.flatMap Spaced.segments) ↔
          ∀ later, later <:+ items → ¬ RunsTogether later :=
        (item.gap.fitted_segments_append_iff _).trans ih
      rw [List.flatMap_cons, Spaced.segments, List.cons_append]
      constructor
      · intro hfitted
        cases hfitted with
        | cons _ hmax hrest =>
            rw [htext, maximal_iff_not_runsTogether] at hmax
            intro later hsuffix
            rcases List.suffix_cons_iff.mp hsuffix with rfl | hsuffix
            · exact hmax
            · exact hlater.mp hrest later hsuffix
      · intro hruns
        refine .cons (item.legal_segment _) ?_ (hlater.mpr fun later hsuffix =>
          hruns later (hsuffix.trans (List.suffix_cons item items)))
        rw [htext, maximal_iff_not_runsTogether]
        exact hruns _ List.suffix_rfl

end Spaced

theorem not_runsTogether_of_gaps
    {items : List Spaced} (hgaps : ∀ item ∈ items.dropLast, item.gap.val ≠ []) :
    ∀ later, later <:+ items → ¬ RunsTogether later := by
  have hfirst : ∀ (left right : Spaced) (later : List Spaced),
      left :: right :: later <:+ items → left.gap.val ≠ [] := by
    rintro left right later ⟨before, rfl⟩
    refine hgaps left ?_
    rw [List.dropLast_append_of_ne_nil (by simp), List.dropLast_cons_of_ne_nil (by simp)]
    simp
  intro later hsuffix hruns
  cases hruns with
  | word hgap | number hgap | equal hgap | slash hgap | point hgap =>
      exact hfirst _ _ _ hsuffix hgap

/-- A layout gives back its tokens if and only if none of them runs together with those behind it.
In particular it does so if there are blanks between any two. -/
theorem recovered_iff_not_runsTogether (first : Gap) (items : List Spaced) :
    (Recovered first items ↔ ∀ later, later <:+ items → ¬ RunsTogether later) ∧
    ((∀ item ∈ items.dropLast, item.gap.val ≠ []) → Recovered first items) := by
  have hiff : Recovered first items ↔ ∀ later, later <:+ items → ¬ RunsTogether later := by
    rw [recovered_iff_fitted, layoutSegments, first.fitted_segments_append_iff]
    exact Spaced.fitted_items_iff items
  exact ⟨hiff, fun hgaps => hiff.mpr (not_runsTogether_of_gaps hgaps)⟩

end LoxLexer
