import LoxLexer.Proofs.ScanOutput

/-!
# An automaton for the faults

The faults of a source can be found without cutting it.  An automaton of four states passes the
source one character at a time: it is in code, behind a slash in code, in a comment, or in a string.
It reports every character that has no place in code, and the string in which the source ends.

The automaton passes the text of a maximal segment with the fault of that segment and is then in
code again, or in a state that treats what follows as code does.  So it emits the faults of the
scan.
-/

namespace LoxLexer

inductive FaultState where
  | code | slash | comment
  /-- In a string whose opening quote has the given position. -/
  | string (opened : Nat)
  deriving DecidableEq, Repr

namespace FaultState

/-- The punctuation and the blanks of code, without the slash and the quote. -/
def marks : List Char :=
  ['(', ')', '{', '}', ',', '.', '-', '+', ';', '*', '!', '=', '<', '>',
    ' ', '\t', '\r', '\n']

/-- A character that keeps the automaton in code. -/
def isCodeChar (c : Char) : Bool :=
  decide (c ∈ marks) || c.isAlpha || c.isDigit || decide (c = '_')

/-- Passes a character in code, behind the text `before`. -/
def inCode (before : List Char) (c : Char) : FaultState × Option Fault :=
  if c = '/' then (.slash, none)
  else if c = '"' then (.string (byteLength before), none)
  else if isCodeChar c then (.code, none)
  else
    (.code, some ⟨.unexpectedCharacter c, 1 + before.count '\n', byteLength before⟩)

def next (before : List Char) (c : Char) : FaultState → FaultState × Option Fault
  | .code => inCode before c
  | .slash => if c = '/' then (.comment, none) else inCode before c
  | .comment => if c = '\n' then (.code, none) else (.comment, none)
  | .string opened => if c = '"' then (.code, none) else (.string opened, none)

def atEnd (source : List Char) : FaultState → Option Fault
  | .string opened => some ⟨.unterminatedString, 1 + source.count '\n', opened⟩
  | .code | .slash | .comment => none

/-- The faults emitted from a state that has been reached behind the text `before`. -/
def emit (before : List Char) (state : FaultState) : (rest : List Char) → List Fault
  | [] => (state.atEnd before).toList
  | c :: rest =>
    (state.next before c).2.toList ++
      emit (before ++ [c]) (state.next before c).1 rest

theorem emit_cons
    (before : List Char) (state : FaultState) (c : Char) (rest : List Char) :
    emit before state (c :: rest) =
      (state.next before c).2.toList ++
        emit (before ++ [c]) (state.next before c).1 rest := rfl

/-! ## Runs inside one state -/

theorem inCode_of_isCodeChar
    {c : Char} (hc : isCodeChar c = true) (before : List Char) :
    inCode before c = (.code, none) := by
  have hslash : c ≠ '/' := by
    rintro rfl
    cases hc
  have hquote : c ≠ '"' := by
    rintro rfl
    cases hc
  simp [inCode, hslash, hquote, hc]

theorem emit_append_of_stays
    {state : FaultState} {text : List Char}
    (hstays : ∀ c ∈ text, ∀ before, state.next before c = (state, none))
    (before rest : List Char) :
    emit before state (text ++ rest) = emit (before ++ text) state rest := by
  induction text generalizing before with
  | nil => simp
  | cons c text ih =>
      have hfirst : state.next before c = (state, none) :=
        hstays c List.mem_cons_self before
      have hlater := ih (fun d hd => hstays d (List.mem_cons_of_mem c hd)) (before ++ [c])
      rw [List.append_assoc, List.singleton_append] at hlater
      rw [List.cons_append, emit_cons, hfirst, ← hlater]
      rfl

theorem emit_code_append
    {text : List Char} (htext : ∀ c ∈ text, isCodeChar c = true)
    (before rest : List Char) :
    emit before .code (text ++ rest) = emit (before ++ text) .code rest := by
  apply emit_append_of_stays
  intro c hc passed
  exact inCode_of_isCodeChar (htext c hc) passed

theorem emit_comment_append
    {body : List Char} (hbody : '\n' ∉ body) (before rest : List Char) :
    emit before .comment (body ++ rest) = emit (before ++ body) .comment rest := by
  apply emit_append_of_stays
  intro c hc passed
  exact if_neg (ne_of_mem_of_not_mem hc hbody)

theorem emit_string_append
    {body : List Char} (hbody : '"' ∉ body) (before rest : List Char) (opened : Nat) :
    emit before (.string opened) (body ++ rest) =
      emit (before ++ body) (.string opened) rest := by
  apply emit_append_of_stays
  intro c hc passed
  exact if_neg (ne_of_mem_of_not_mem hc hbody)

/-- Behind a slash that begins no comment the automaton goes on as in code. -/
theorem emit_slash_eq_code
    {rest : List Char} (hrest : ∀ c ∈ rest.head?, c ≠ '/') (before : List Char) :
    emit before .slash rest = emit before .code rest := by
  cases rest with
  | nil => rfl
  | cons c rest =>
      have hc : c ≠ '/' := hrest c rfl
      simp [emit_cons, next, hc]

/-- At the end of its line a comment goes on as code does. -/
theorem emit_comment_eq_code
    {rest : List Char} (hrest : ∀ c ∈ rest.head?, c = '\n') (before : List Char) :
    emit before .comment rest = emit before .code rest := by
  cases rest with
  | nil => rfl
  | cons c rest =>
      obtain rfl : c = '\n' := hrest c rfl
      rfl

/-! ## One segment -/

theorem isCodeChar_of_isBlank
    {c : Char} (hc : isBlank c = true) : isCodeChar c = true := by
  simp only [isBlank, Bool.or_eq_true, decide_eq_true_eq] at hc
  rcases hc with ((rfl | rfl) | rfl) | rfl <;> rfl

theorem isCodeChar_of_isWordPart
    {c : Char} (hc : isWordPart c = true) : isCodeChar c = true := by
  simp only [isWordPart, Char.isAlphanum, Bool.or_eq_true, decide_eq_true_eq] at hc
  rcases hc with (hc | hc) | hc <;> simp [isCodeChar, hc]

theorem isCodeChar_of_mem_operator
    {op : Operator} (hop : op ≠ .slash) : ∀ c ∈ op.chars, isCodeChar c = true := by
  refine List.all_eq_true.mp ?_
  cases op <;> first | contradiction | rfl

theorem isCodeChar_of_mem_numeral
    {numeral : Numeral} (hwell : numeral.WellFormed) :
    ∀ c ∈ numeral.chars, isCodeChar c = true := by
  have hdigit : ∀ c : Char, c.isDigit = true → isCodeChar c = true :=
    fun c hc => isCodeChar_of_isWordPart (isWordPart_of_isDigit hc)
  intro c hc
  unfold Numeral.chars at hc
  split at hc
  · exact hdigit c (hwell.whole_digits c hc)
  · rcases List.mem_append.mp hc with hc | hc
    · exact hdigit c (hwell.whole_digits c hc)
    · rcases List.mem_cons.mp hc with rfl | hc
      · rfl
      · exact hdigit c (hwell.fraction_digits c hc)

theorem operator_or_blank_of_mem_marks :
    ∀ c ∈ marks, (Operator.ofChar? c).isSome = true ∨ isBlank c = true := by
  have hall : marks.all (fun c => (Operator.ofChar? c).isSome || isBlank c) = true := rfl
  intro c hc
  exact (Bool.or_eq_true _ _).mp (List.all_eq_true.mp hall c hc)

theorem isCodeChar_eq_false_of_isStray
    {c : Char} (hc : IsStray c) : isCodeChar c = false := by
  have hmarks : c ∉ marks := by
    intro hmem
    rcases operator_or_blank_of_mem_marks c hmem with hop | hblank
    · simp [hc.noOperator] at hop
    · simp [hc.notBlank] at hblank
  have hword := hc.notWordStart
  simp only [isWordStart, Bool.or_eq_false_iff, decide_eq_false_iff_not] at hword
  simp [isCodeChar, hmarks, hword, hc.notDigit]

theorem inCode_of_isStray
    {c : Char} (hc : IsStray c) (before : List Char) :
    inCode before c =
      (.code, some ⟨.unexpectedCharacter c, 1 + before.count '\n', byteLength before⟩) := by
  have hslash : c ≠ '/' := by
    rintro rfl
    cases hc.noOperator
  simp [inCode, hslash, hc.notQuote, isCodeChar_eq_false_of_isStray hc]

theorem origin_advance (text : List Char) :
    Cursor.origin.advance text = ⟨byteLength text, 1 + text.count '\n'⟩ := by
  simp [Cursor.origin, Cursor.advance]

theorem emit_segment
    {segment : Segment} {rest : List Char}
    (hlegal : segment.LegalBefore rest) (hmax : segment.MaximalBefore rest)
    (before : List Char) :
    emit before .code (segment.chars ++ rest) =
      (segment.fault? (Cursor.origin.advance before)
          (Cursor.origin.advance (before ++ segment.chars))).toList ++
        emit (before ++ segment.chars) .code rest := by
  have hcode : (∀ c ∈ segment.chars, isCodeChar c = true) →
      emit before .code (segment.chars ++ rest) =
        emit (before ++ segment.chars) .code rest :=
    fun htext => emit_code_append htext before rest
  cases segment with
  | blank c =>
      refine hcode fun d hd => ?_
      rw [List.mem_singleton.mp hd]
      exact isCodeChar_of_isBlank hlegal
  | number numeral => exact hcode (isCodeChar_of_mem_numeral hlegal)
  | word text =>
      refine hcode fun d hd => isCodeChar_of_isWordPart ?_
      obtain ⟨c, tail, rfl, hstart, htail⟩ := hlegal
      rcases List.mem_cons.mp hd with rfl | hd
      · exact isWordPart_of_isWordStart hstart
      · exact htail d hd
  | operator op =>
      by_cases hslash : op = .slash
      · subst op
        have hnext : ∀ c ∈ rest.head?, c ≠ '/' := fun c hc => (hmax c hc).2 rfl
        exact emit_slash_eq_code hnext (before ++ ['/'])
      · exact hcode (isCodeChar_of_mem_operator hslash)
  | comment body =>
      have hbody := emit_comment_append hlegal (before ++ ['/'] ++ ['/']) rest
      rw [emit_comment_eq_code hmax] at hbody
      simpa [Segment.fault?, Segment.chars, emit_cons, next, inCode] using hbody
  | string body =>
      have hbody := emit_string_append hlegal (before ++ ['"']) ('"' :: rest)
        (byteLength before)
      simpa [Segment.fault?, Segment.chars, emit_cons, next, inCode] using hbody
  | openString body =>
      obtain ⟨hquote, rfl⟩ := hlegal
      have hbody := emit_string_append hquote (before ++ ['"']) [] (byteLength before)
      simpa [Segment.fault?, Segment.chars, emit_cons, next, inCode, emit, atEnd,
        origin_advance] using hbody
  | stray c =>
      rw [Segment.chars, List.singleton_append, emit_cons, next, inCode_of_isStray hlegal,
        Segment.fault?, origin_advance]

theorem emit_fitted
    {segments : List Segment} (hfitted : Segment.Fitted segments) (before : List Char) :
    emit before .code (segments.flatMap Segment.chars) =
      Segment.faultsFrom (Cursor.origin.advance before) segments := by
  induction hfitted generalizing before with
  | nil => rfl
  | cons hlegal hmax _ ih =>
      rw [List.flatMap_cons, emit_segment hlegal hmax, ih, Segment.faultsFrom_cons,
        Cursor.advance_append]

theorem emit_source (source : String) :
    emit [] .code source.toList = (scan source).log.toList := by
  have hemit := emit_fitted (Segment.fitted_cut source.toList) []
  rw [Segment.flatMap_chars_cut, Cursor.advance_nil] at hemit
  rw [hemit, faults_scan]

end FaultState

/-- The faults of a scan are those the automaton emits.  They lie at characters of the source, each
behind the one before; only the last can be an unterminated string; and they decide whether
tokenizing a source fails. -/
theorem faults_scan_eq_emit (source : String) :
    (scan source).log.toList = FaultState.emit [] .code source.toList ∧
    ((scan source).log.toList.Pairwise fun first second =>
      first.position < second.position) ∧
    (∀ fault ∈ (scan source).log.toList, ∃ before c after,
      source.toList = before ++ c :: after ∧ fault.position = byteLength before) ∧
    (∀ fault ∈ (scan source).log.toList.dropLast, fault.cause ≠ .unterminatedString) ∧
    tokenize source =
      if FaultState.emit [] .code source.toList = [] then .ok (scan source).tokens
      else .error (FaultState.emit [] .code source.toList) := by
  have hfitted := Segment.fitted_cut source.toList
  refine ⟨(FaultState.emit_source source).symm, ?_, ?_, ?_, ?_⟩
  · rw [faults_scan]
    exact hfitted.pairwise_position .origin
  · intro fault hmem
    rw [faults_scan] at hmem
    obtain ⟨passed, c, after, htext, hposition⟩ :=
      hfitted.exists_char_of_mem_faultsFrom .origin fault hmem
    rw [Segment.flatMap_chars_cut] at htext
    exact ⟨passed, c, after, htext, by simpa [Cursor.origin] using hposition⟩
  · rw [faults_scan]
    exact hfitted.cause_of_mem_dropLast .origin
  · rw [FaultState.emit_source]
    exact tokenize_eq source

end LoxLexer
