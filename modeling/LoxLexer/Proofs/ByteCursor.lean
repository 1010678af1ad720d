import LoxLexer.Proofs.LongestCut

/-!
# A scanner with byte cursors

A scan can be carried out by two cursors into the bytes of the source.  `start` marks the lexeme
under construction and `current` the next unread byte; lexemes and values are slices between byte
positions.  A slice exists only between two characters of the source: `slice?` fails elsewhere, and
with it the step that takes it.

The ends of numbers and words are found by a search from `start`.  The scanner relies on the search
for the longest match only (`Search.Correct`).
-/

namespace LoxLexer

/-! ## Slices -/

/-- The text behind its first bytes, if these end behind a character. -/
def dropBytes? : (bytes : Nat) → (text : List Char) → Option (List Char)
  | 0, text => some text
  | _ + 1, [] => none
  | bytes + 1, c :: text =>
    if c.utf8Size ≤ bytes + 1 then dropBytes? (bytes + 1 - c.utf8Size) text else none

/-- The first bytes of a text, if these end behind a character. -/
def takeBytes? : (bytes : Nat) → (text : List Char) → Option (List Char)
  | 0, _ => some []
  | _ + 1, [] => none
  | bytes + 1, c :: text =>
    if c.utf8Size ≤ bytes + 1 then (takeBytes? (bytes + 1 - c.utf8Size) text).map (c :: ·)
    else none

/-- The bytes of a text from `first` on and before `last`. -/
def slice? (text : List Char) (first last : Nat) : Option (List Char) :=
  if first ≤ last then (dropBytes? first text).bind (takeBytes? (last - first)) else none

/-- The position lies between two characters of a text, or at one of its ends. -/
def IsBoundary (text : List Char) (position : Nat) : Prop :=
  ∃ before after, text = before ++ after ∧ position = byteLength before

theorem dropBytes?_zero (text : List Char) : dropBytes? 0 text = some text := by
  cases text <;> rfl

theorem dropBytes?_cons (bytes : Nat) (c : Char) (text : List Char) :
    dropBytes? (c.utf8Size + bytes) (c :: text) = dropBytes? bytes text := by
  obtain ⟨more, hmore⟩ := Nat.exists_eq_succ_of_ne_zero c.utf8Size_pos.ne'
  have hsucc : c.utf8Size + bytes = more + bytes + 1 := by omega
  have hrest : more + bytes + 1 - c.utf8Size = bytes := by omega
  rw [hsucc, dropBytes?, if_pos (by omega), hrest]

theorem dropBytes?_eq_some_iff
    {bytes : Nat} {text rest : List Char} :
    dropBytes? bytes text = some rest ↔
      ∃ before, text = before ++ rest ∧ bytes = byteLength before := by
  constructor
  · intro hdrop
    fun_induction dropBytes? bytes text with
    | case1 text =>
        cases hdrop
        exact ⟨[], rfl, rfl⟩
    | case2 => cases hdrop
    | case3 bytes c text hfits ih =>
        obtain ⟨before, rfl, hbytes⟩ := ih hdrop
        exact ⟨c :: before, rfl, by rw [byteLength_cons]; omega⟩
    | case4 => cases hdrop
  · rintro ⟨before, rfl, rfl⟩
    induction before with
    | nil => exact dropBytes?_zero rest
    | cons c before ih => rw [byteLength_cons, List.cons_append, dropBytes?_cons, ih]

theorem takeBytes?_zero (text : List Char) : takeBytes? 0 text = some [] := by
  cases text <;> rfl

theorem takeBytes?_cons (bytes : Nat) (c : Char) (text : List Char) :
    takeBytes? (c.utf8Size + bytes) (c :: text) = (takeBytes? bytes text).map (c :: ·) := by
  obtain ⟨more, hmore⟩ := Nat.exists_eq_succ_of_ne_zero c.utf8Size_pos.ne'
  have hsucc : c.utf8Size + bytes = more + bytes + 1 := by omega
  have hrest : more + bytes + 1 - c.utf8Size = bytes := by omega
  rw [hsucc, takeBytes?, if_pos (by omega), hrest]

theorem takeBytes?_eq_some_iff
    {bytes : Nat} {text word : List Char} :
    takeBytes? bytes text = some word ↔
      ∃ rest, text = word ++ rest ∧ bytes = byteLength word := by
  constructor
  · intro htake
    fun_induction takeBytes? bytes text generalizing word with
    | case1 text =>
        cases htake
        exact ⟨text, rfl, rfl⟩
    | case2 => cases htake
    | case3 bytes c text hfits ih =>
        obtain ⟨tail, htail, rfl⟩ := Option.map_eq_some_iff.mp htake
        obtain ⟨rest, rfl, hbytes⟩ := ih htail
        exact ⟨rest, rfl, by rw [byteLength_cons]; omega⟩
    | case4 => cases htake
  · rintro ⟨rest, rfl, rfl⟩
    induction word with
    | nil => exact takeBytes?_zero rest
    | cons c word ih =>
        rw [byteLength_cons, List.cons_append, takeBytes?_cons, ih, Option.map_some]

/-- A slice exists exactly between two boundaries in their order. -/
theorem slice?_eq_some_iff
    {text word : List Char} {first last : Nat} :
    slice? text first last = some word ↔
      ∃ before after, text = before ++ (word ++ after) ∧ first = byteLength before ∧
        last = first + byteLength word := by
  constructor
  · intro hslice
    unfold slice? at hslice
    split at hslice
    · obtain ⟨rest, hdrop, htake⟩ := Option.bind_eq_some_iff.mp hslice
      obtain ⟨before, rfl, hfirst⟩ := dropBytes?_eq_some_iff.mp hdrop
      obtain ⟨after, rfl, hlast⟩ := takeBytes?_eq_some_iff.mp htake
      exact ⟨before, after, rfl, hfirst, by omega⟩
    · cases hslice
  · rintro ⟨before, after, rfl, rfl, rfl⟩
    have hdrop : dropBytes? (byteLength before) (before ++ (word ++ after)) =
        some (word ++ after) :=
      dropBytes?_eq_some_iff.mpr ⟨before, rfl, rfl⟩
    rw [slice?, if_pos (Nat.le_add_right _ _), hdrop, Option.bind_some, Nat.add_sub_cancel_left]
    exact takeBytes?_eq_some_iff.mpr ⟨after, rfl, rfl⟩

example : slice? "aé".toList 1 2 = none := by decide

/-! ## Searching -/

/-- What looks for the end of a number, and of a word, with which a text begins.  The answer counts
bytes. -/
structure Search where
  number? : (text : List Char) → Option Nat
  word? : (text : List Char) → Option Nat

/-- The search finds the longest beginning of a text that matches, if one does. -/
structure FindsLongest (Matches : List Char → Prop) (find? : List Char → Option Nat) : Prop where
  found : ∀ text stop, find? text = some stop →
    ∃ word rest, text = word ++ rest ∧ Matches word ∧ stop = byteLength word ∧
      ∀ other after, text = other ++ after → Matches other → other.length ≤ word.length
  absent : ∀ text, find? text = none → ∀ word rest, text = word ++ rest → ¬ Matches word

theorem FindsLongest.eq_some
    {Matches : List Char → Prop} {find? : List Char → Option Nat}
    (hfinds : FindsLongest Matches find?) {word rest : List Char} (hword : Matches word)
    (hlongest : ∀ other after, word ++ rest = other ++ after → Matches other →
      other.length ≤ word.length) :
    find? (word ++ rest) = some (byteLength word) := by
  cases hfind : find? (word ++ rest) with
  | none => exact (hfinds.absent _ hfind word rest rfl hword).elim
  | some stop =>
      obtain ⟨found, after, htext, hfound, rfl, hmost⟩ := hfinds.found _ stop hfind
      have hlength := Nat.le_antisymm (hmost word rest rfl hword)
        (hlongest found after htext hfound)
      rw [(List.append_inj htext hlength).1]

/-- Texts that segments have, wherever they stand. -/
def AreSegments (Matches : List Char → Prop) : Prop :=
  ∀ text, Matches text →
    ∃ segment : Segment, segment.chars = text ∧ ∀ rest, segment.LegalBefore rest

theorem areSegments_isNumber : AreSegments IsNumber := by
  intro text htext
  obtain ⟨numeral, hwell, hchars⟩ := isNumber_iff.mp htext
  exact ⟨.number numeral, hchars, fun _ => hwell⟩

theorem areSegments_isWord : AreSegments IsWord :=
  fun text htext => ⟨.word text, rfl, fun _ => isWord_iff.mp htext⟩

theorem isNumber_read {c : Char} (hc : c.isDigit = true) (tail : List Char) :
    IsNumber (Segment.read c tail).1.chars := by
  rw [Segment.read_of_isDigit hc]
  exact isNumber_iff.mpr ⟨_, Numeral.wellFormed_read tail hc, rfl⟩

theorem isWord_read {c : Char} (hc : isWordStart c = true) (tail : List Char) :
    IsWord (Segment.read c tail).1.chars := by
  rw [Segment.read_of_isWordStart hc]
  exact isWord_iff.mpr ⟨c, _, rfl, hc, all_of_takeWhile _ _⟩

theorem AreSegments.length_le_read
    {Matches : List Char → Prop} (hsegments : AreSegments Matches) {c : Char}
    {tail other after : List Char} (htext : c :: tail = other ++ after) (hother : Matches other) :
    other.length ≤ (Segment.read c tail).1.chars.length := by
  obtain ⟨segment, rfl, hlegal⟩ := hsegments other hother
  exact (hlegal after).length_le_read htext.symm

/-- A search for such texts finds the segment that is read. -/
theorem FindsLongest.eq_some_of_read
    {Matches : List Char → Prop} {find? : List Char → Option Nat}
    (hfinds : FindsLongest Matches find?) (hsegments : AreSegments Matches)
    {c : Char} {tail : List Char} (hread : Matches (Segment.read c tail).1.chars) :
    find? (c :: tail) = some (byteLength (Segment.read c tail).1.chars) := by
  have htext := Segment.chars_read_append c tail
  have hfound := hfinds.eq_some hread fun other after hother hmatches =>
    hsegments.length_le_read (htext.symm.trans hother) hmatches
  rwa [htext] at hfound

/-- Searches by reading a segment that begins with a character of the given kind. -/
def findRead? (begins : Char → Bool) : (text : List Char) → Option Nat
  | [] => none
  | c :: tail => if begins c then some (byteLength (Segment.read c tail).1.chars) else none

theorem findsLongest_findRead?
    {Matches : List Char → Prop} {begins : Char → Bool} (hsegments : AreSegments Matches)
    (hread : ∀ c tail, begins c = true → Matches (Segment.read c tail).1.chars)
    (hbegins : ∀ text, Matches text → ∃ c tail, text = c :: tail ∧ begins c = true) :
    FindsLongest Matches (findRead? begins) where
  found := by
    intro text stop hfind
    cases text with
    | nil => cases hfind
    | cons c tail =>
        rw [findRead?] at hfind
        split at hfind
        · next hc =>
          cases hfind
          exact ⟨_, _, (Segment.chars_read_append c tail).symm, hread c tail hc, rfl,
            fun other after => hsegments.length_le_read⟩
        · cases hfind
  absent := by
    rintro text hfind word rest rfl hword
    obtain ⟨c, tail, rfl, hc⟩ := hbegins word hword
    rw [List.cons_append, findRead?, if_pos hc] at hfind
    cases hfind

namespace Search

structure Correct (search : Search) : Prop where
  number : FindsLongest IsNumber search.number?
  word : FindsLongest IsWord search.word?

def byReading : Search := ⟨findRead? Char.isDigit, findRead? isWordStart⟩

theorem correct_byReading : byReading.Correct where
  number := by
    refine findsLongest_findRead? areSegments_isNumber (fun c tail hc => isNumber_read hc tail) ?_
    rintro text ⟨whole, hne, hdigits, htext⟩
    obtain ⟨c, tail, rfl⟩ := List.exists_cons_of_ne_nil hne
    have hc := hdigits c List.mem_cons_self
    rcases htext with rfl | ⟨fraction, -, -, rfl⟩
    · exact ⟨c, tail, rfl, hc⟩
    · exact ⟨c, _, rfl, hc⟩
  word := by
    refine findsLongest_findRead? areSegments_isWord (fun c tail hc => isWord_read hc tail) ?_
    intro text hword
    obtain ⟨c, tail, htext, hc, -⟩ := isWord_iff.mp hword
    exact ⟨c, tail, htext, hc⟩

end Search

/-! ## The scanner -/

/-- Where the scanner is in its loops. -/
inductive Phase where
  /-- Before an iteration of the outer loop. -/
  | between
  /-- At the first character of a segment. -/
  | beginning
  /-- Before an iteration of the loop over a comment. -/
  | comment
  /-- Before an iteration of the loop over a string that was opened on `line`. -/
  | string (line : Nat)
  | finished
  deriving DecidableEq, Repr

structure Machine (σ : Type) where
  start : Nat
  current : Nat
  line : Nat
  tokens : List Token
  log : σ
  phase : Phase
  deriving Repr

namespace Machine

variable {σ : Type}

def initial (log : σ) : Machine σ := ⟨0, 0, 1, [], log, .between⟩

/-- What the scanner takes for a character at the end of the source. -/
def endMark : Char := Char.ofNat 0

def past (machine : Machine σ) (c : Char) : Machine σ :=
  { machine with current := machine.current + c.utf8Size }

@[simp] theorem past_start (machine : Machine σ) (c : Char) :
    (machine.past c).start = machine.start := rfl

@[simp] theorem past_current (machine : Machine σ) (c : Char) :
    (machine.past c).current = machine.current + c.utf8Size := rfl

@[simp] theorem past_tokens (machine : Machine σ) (c : Char) :
    (machine.past c).tokens = machine.tokens := rfl

@[simp] theorem past_phase (machine : Machine σ) (c : Char) :
    (machine.past c).phase = machine.phase := rfl

theorem lt_past (machine : Machine σ) (c : Char) :
    machine.current < (machine.past c).current :=
  Nat.lt_add_of_pos_right c.utf8Size_pos

def countLine (machine : Machine σ) (c : Char) : Machine σ :=
  if c = '\n' then { machine with line := machine.line + 1 } else machine

@[simp] theorem countLine_start (machine : Machine σ) (c : Char) :
    (machine.countLine c).start = machine.start := by
  unfold countLine
  split <;> rfl

@[simp] theorem countLine_current (machine : Machine σ) (c : Char) :
    (machine.countLine c).current = machine.current := by
  unfold countLine
  split <;> rfl

@[simp] theorem countLine_tokens (machine : Machine σ) (c : Char) :
    (machine.countLine c).tokens = machine.tokens := by
  unfold countLine
  split <;> rfl

@[simp] theorem countLine_log (machine : Machine σ) (c : Char) :
    (machine.countLine c).log = machine.log := by
  unfold countLine
  split <;> rfl

@[simp] theorem countLine_phase (machine : Machine σ) (c : Char) :
    (machine.countLine c).phase = machine.phase := by
  unfold countLine
  split <;> rfl

section Reading

variable (source : List Char) (machine : Machine σ)

def atEnd : Bool := byteLength source ≤ machine.current

def peek? : Option Char :=
  (dropBytes? machine.current source).map fun rest => rest.head?.getD endMark

def advance? : Option (Char × Machine σ) :=
  (dropBytes? machine.current source).map fun rest =>
    match rest with
    | [] => (endMark, machine)
    | c :: _ => (c, machine.past c)

def matchChar? (expected : Char) : Option (Bool × Machine σ) :=
  if machine.atEnd source then some (false, machine)
  else (machine.peek? source).map fun c =>
    if c = expected then (true, machine.past expected) else (false, machine)

def addToken? (kind : TokenKind) (literal : Option Literal) (line : Nat) : Option (Machine σ) :=
  (slice? source machine.start machine.current).map fun lexeme =>
    { machine with
      tokens := machine.tokens ++ [⟨kind, String.ofList lexeme, literal, line⟩]
      phase := .between }

def moveTo (stop? : Option Nat) : Machine σ :=
  { machine with current := stop?.elim machine.current (machine.start + ·) }

/-- Adds a number; should nothing be found, its lexeme would be the character that was passed. -/
def number? (search : Search) : Option (Machine σ) := do
  let text ← dropBytes? machine.start source
  let moved := machine.moveTo (search.number? text)
  let lexeme ← slice? source moved.start moved.current
  moved.addToken? source .number (some (.number (Piece.decimalValue lexeme))) moved.line

def word? (search : Search) : Option (Machine σ) := do
  let text ← dropBytes? machine.start source
  let moved := machine.moveTo (search.word? text)
  let lexeme ← slice? source moved.start moved.current
  moved.addToken? source (.ofWord (String.ofList lexeme)) none moved.line

/-- Passes the closing quote of a string; its value lies between the quotes. -/
def closeString? (line : Nat) : Option (Machine σ) := do
  let (_, moved) ← machine.advance? source
  let value ← slice? source (moved.start + 1) (moved.current - 1)
  moved.addToken? source .string (some (.string (String.ofList value))) line

def operator? (op : Operator) : Option (Machine σ) :=
  match op, op.withEqual? with
  | .slash, _ => do
    let (isComment, moved) ← machine.matchChar? source '/'
    if isComment then return { moved with phase := .comment }
    else moved.addToken? source (.operator .slash) none moved.line
  | op, some wide => do
    let (isWide, moved) ← machine.matchChar? source '='
    moved.addToken? source (.operator (if isWide then wide else op)) none moved.line
  | op, none => machine.addToken? source (.operator op) none machine.line

theorem operator?_slash :
    machine.operator? source .slash = (machine.matchChar? source '/').bind fun (isComment, moved) =>
      if isComment then some { moved with phase := .comment }
      else moved.addToken? source (.operator .slash) none moved.line := rfl

theorem operator?_of_withEqual?
    {op wide : Operator} (hwide : op.withEqual? = some wide) :
    machine.operator? source op = (machine.matchChar? source '=').bind fun (isWide, moved) =>
      moved.addToken? source (.operator (if isWide then wide else op)) none moved.line := by
  cases op <;> cases hwide <;> rfl

theorem operator?_of_plain
    {op : Operator} (hplain : op.withEqual? = none) (hslash : op ≠ .slash) :
    machine.operator? source op =
      machine.addToken? source (.operator op) none machine.line := by
  cases op <;> first | rfl | contradiction

end Reading

section Running

variable (search : Search) (report : Reporter σ) (source : List Char)

/-- What follows on the character behind which `current` now is. -/
def dispatch? (c : Char) (machine : Machine σ) : Option (Machine σ) :=
  match Operator.ofChar? c with
  | some op => machine.operator? source op
  | none =>
    if c = '\n' then some { machine with line := machine.line + 1, phase := .between }
    else if isBlank c then some { machine with phase := .between }
    else if c = '"' then some { machine with phase := .string machine.line }
    else if c.isDigit then machine.number? source search
    else if isWordStart c then machine.word? source search
    else some { machine with
      log := report machine.log ⟨.unexpectedCharacter c, machine.line, machine.start⟩
      phase := .between }

/-- One step: an iteration of a loop, or the part of one that ends where another loop begins.  There
is none from a scanner that has finished, and none where a slice does not exist. -/
def step? (machine : Machine σ) : Option (Machine σ) :=
  match machine.phase with
  | .between =>
    if machine.atEnd source then
      some { machine with
        tokens := machine.tokens ++ [.endOfSource machine.line]
        phase := .finished }
    else some { machine with start := machine.current, phase := .beginning }
  | .beginning => do
    let (c, moved) ← machine.advance? source
    moved.dispatch? search report source c
  | .comment => do
    let c ← machine.peek? source
    if c ≠ '\n' ∧ machine.atEnd source = false then
      let (_, moved) ← machine.advance? source
      return moved
    else return { machine with phase := .between }
  | .string line => do
    let c ← machine.peek? source
    if c ≠ '"' ∧ machine.atEnd source = false then
      let (_, moved) ← (machine.countLine c).advance? source
      return moved
    else if machine.atEnd source then
      return { machine with
        log := report machine.log ⟨.unterminatedString, machine.line, machine.start⟩
        phase := .between }
    else machine.closeString? source line
  | .finished => none

/-- The states of a scan, each with the number of iterations of the outer loop begun so far. -/
inductive Reached (log : σ) : (iterations : Nat) → Machine σ → Prop
  | initial : Reached log 0 (.initial log)
  | step {iterations : Nat} {machine next : Machine σ}
      (hreached : Reached log iterations machine)
      (hstep : machine.step? search report source = some next) :
      Reached log (if next.phase = .beginning then iterations + 1 else iterations) next

end Running

end Machine

end LoxLexer
