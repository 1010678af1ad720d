import LoxLexer.Proofs.ByteCursor

/-!
# The scanner with byte cursors on any source

Between two iterations of its outer loop the scanner has gone over the first segments of the source;
within an iteration it stands inside the next one.  Knowing which segments, and which part of the
next one, is enough to know both cursors, the line, the tokens and the log (`At`).  Every step keeps
this (`Tracks.step`), so no slice fails, and the scanner ends with what a scan of the source gives.
-/

namespace LoxLexer

open Segment

namespace Cursor

theorem advance_of_notMem
    {text : List Char} (htext : '\n' ∉ text) (cursor : Cursor) :
    cursor.advance text = ⟨cursor.position + byteLength text, cursor.line⟩ := by
  rw [advance, List.count_eq_zero.mpr htext, Nat.add_zero]

end Cursor

/-- The place behind the first segments of a source. -/
def Segment.place (segments : List Segment) : Cursor :=
  Cursor.origin.advance (segments.flatMap chars)

theorem Segment.place_concat (segments : List Segment) (segment : Segment) :
    place (segments ++ [segment]) = (place segments).advance segment.chars := by
  simp [place, Cursor.advance_append]

theorem Segment.position_place (segments : List Segment) :
    (place segments).position = byteLength (segments.flatMap chars) := by
  simp [place, Cursor.advance, Cursor.origin]

namespace Phase

/-- What the scanner has read of a segment that begins on `line`. -/
inductive Reads (line : Nat) : Phase → (inner : List Char) → Prop
  | beginning : Reads line .beginning []
  | comment {body : List Char} (hbody : '\n' ∉ body) :
      Reads line .comment ('/' :: '/' :: body)
  | string {body : List Char} (hbody : '"' ∉ body) :
      Reads line (.string line) ('"' :: body)

/-- The steps that a phase can take without reading. -/
def work : Phase → Nat
  | .beginning | .finished => 0
  | .between => 1
  | .comment | .string _ => 2

theorem work_le (phase : Phase) : phase.work ≤ 2 := by
  cases phase <;> simp [work]

end Phase

namespace Machine

variable {σ : Type}

def cursor (machine : Machine σ) : Cursor := ⟨machine.current, machine.line⟩

section

variable (report : Reporter σ) (log : σ) (source : List Char)

/-- The scanner has gone over segments of the source, and over `inner` behind them. -/
structure At (machine : Machine σ) (segments : List Segment) (inner rest : List Char) : Prop where
  cut_eq : cut source = segments ++ cut (inner ++ rest)
  cursor_eq : machine.cursor = (place segments).advance inner
  tokens_eq : machine.tokens = tokensFrom .origin segments
  log_eq : machine.log = (faultsFrom .origin segments).foldl report log

/-- How the scanner stands to the segments of the source after some iterations of its outer loop. -/
inductive Tracks : (iterations : Nat) → Machine σ → Prop
  | between {machine : Machine σ} {segments : List Segment} {rest : List Char}
      (hphase : machine.phase = .between) (hat : At report log source machine segments [] rest)
      (hstart : machine.start ≤ machine.current) (hboundary : IsBoundary source machine.start) :
      Tracks segments.length machine
  | inside {machine : Machine σ} {segments : List Segment} {inner rest : List Char}
      (hreads : machine.phase.Reads (place segments).line inner)
      (hat : At report log source machine segments inner rest)
      (hstart : machine.start = (place segments).position) (hsome : inner ++ rest ≠ []) :
      Tracks (segments.length + 1) machine
  | finished {machine : Machine σ}
      (hphase : machine.phase = .finished)
      (hcursor : machine.cursor = Cursor.origin.advance source)
      (htokens : machine.tokens =
        tokensFrom .origin (cut source) ++ [.endOfSource (lastLine source)])
      (hlog : machine.log = (faultsFrom .origin (cut source)).foldl report log)
      (hstart : machine.start ≤ machine.current) (hboundary : IsBoundary source machine.start) :
      Tracks (cut source).length machine

structure Follows (iterations : Nat) (machine next : Machine σ) : Prop where
  tracks : Tracks report log source
    (if next.phase = .beginning then iterations + 1 else iterations) next
  tokens : machine.tokens <+: next.tokens
  progress : machine.current < next.current ∨
    machine.current = next.current ∧ next.phase.work < machine.phase.work

end

variable {report : Reporter σ} {log : σ} {source : List Char}

namespace At

variable {machine next : Machine σ} {segments : List Segment} {inner rest : List Char}

theorem source_eq (hat : At report log source machine segments inner rest) :
    source = segments.flatMap chars ++ (inner ++ rest) := by
  rw [← flatMap_chars_cut source, hat.cut_eq, List.flatMap_append, flatMap_chars_cut]

theorem current_eq (hat : At report log source machine segments inner rest) :
    machine.current = byteLength (segments.flatMap chars ++ inner) := by
  have hposition := congrArg Cursor.position hat.cursor_eq
  rw [byteLength_append, ← position_place]
  exact hposition

theorem dropBytes?_eq (hat : At report log source machine segments inner rest) :
    dropBytes? machine.current source = some rest :=
  dropBytes?_eq_some_iff.mpr
    ⟨segments.flatMap chars ++ inner, by rw [List.append_assoc, ← hat.source_eq], hat.current_eq⟩

theorem slice?_eq
    (hat : At report log source machine segments inner rest)
    (hstart : machine.start = (place segments).position) :
    slice? source machine.start machine.current = some inner := by
  rw [slice?_eq_some_iff]
  refine ⟨segments.flatMap chars, rest, hat.source_eq, hstart.trans (position_place segments), ?_⟩
  rw [hat.current_eq, hstart, position_place, byteLength_append]

theorem atEnd_eq (hat : At report log source machine segments inner rest) :
    machine.atEnd source = decide (rest = []) := by
  have hlength := congrArg byteLength hat.source_eq
  rw [← List.append_assoc, byteLength_append, ← hat.current_eq] at hlength
  unfold atEnd
  rw [decide_eq_decide, hlength]
  constructor
  · intro hle
    by_contra hrest
    have hpos := byteLength_pos hrest
    omega
  · rintro rfl
    exact Nat.le_refl _

theorem peek?_eq (hat : At report log source machine segments inner rest) :
    machine.peek? source = some (rest.head?.getD endMark) := by
  rw [peek?, hat.dropBytes?_eq, Option.map_some]

theorem advance?_eq
    {c : Char} (hat : At report log source machine segments inner (c :: rest)) :
    machine.advance? source = some (c, machine.past c) := by
  rw [advance?, hat.dropBytes?_eq, Option.map_some]

theorem moved
    (hat : At report log source machine segments inner rest) {word after : List Char}
    (htext : inner ++ rest = word ++ after) (hcursor : next.cursor = (place segments).advance word)
    (htokens : next.tokens = machine.tokens) (hlog : next.log = machine.log) :
    At report log source next segments word after where
  cut_eq := by rw [← htext, hat.cut_eq]
  cursor_eq := hcursor
  tokens_eq := htokens.trans hat.tokens_eq
  log_eq := hlog.trans hat.log_eq

theorem pastCounted
    {c : Char} (hat : At report log source machine segments inner (c :: rest)) :
    At report log source ((machine.countLine c).past c) segments (inner ++ [c]) rest := by
  have hcursor : ((machine.countLine c).past c).cursor = machine.cursor.advance [c] := by
    by_cases hc : c = '\n'
    · subst c
      rfl
    · have hfeed : '\n' ∉ [c] := by
        simpa using Ne.symm hc
      rw [countLine, if_neg hc, Cursor.advance_of_notMem hfeed]
      simp [cursor, Machine.past]
  refine hat.moved (by simp) ?_ ?_ ?_
  · rw [hcursor, hat.cursor_eq, Cursor.advance_append]
  · rw [past_tokens, countLine_tokens]
  · exact countLine_log machine c

theorem past
    {c : Char} (hat : At report log source machine segments inner (c :: rest)) (hc : c ≠ '\n') :
    At report log source (machine.past c) segments (inner ++ [c]) rest := by
  have hpast := hat.pastCounted
  rwa [countLine, if_neg hc] at hpast

theorem settle
    {segment : Segment} (hat : At report log source machine segments segment.chars rest)
    (hlegal : segment.LegalBefore rest) (hmax : segment.MaximalBefore rest)
    (hcursor : next.cursor = machine.cursor)
    (htokens : next.tokens =
      machine.tokens ++ (segment.token? (place segments).line).toList)
    (hlog : next.log =
      (segment.fault? (place segments) machine.cursor).toList.foldl report machine.log) :
    At report log source next (segments ++ [segment]) [] rest where
  cut_eq := by
    rw [hat.cut_eq, cut_append_of_maximal hlegal hmax, List.append_assoc]
    rfl
  cursor_eq := by
    rw [hcursor, hat.cursor_eq, place_concat, Cursor.advance_nil]
  tokens_eq := by
    rw [htokens, hat.tokens_eq, tokensFrom_append, tokensFrom_cons, tokensFrom_nil,
      List.append_nil]
    rfl
  log_eq := by
    rw [hlog, hat.log_eq, hat.cursor_eq, faultsFrom_append, faultsFrom_cons, faultsFrom_nil,
      List.append_nil, List.foldl_append]
    rfl

theorem dropBytes?_start
    (hat : At report log source machine segments inner rest)
    (hstart : machine.start = (place segments).position) :
    dropBytes? machine.start source = some (inner ++ rest) :=
  dropBytes?_eq_some_iff.mpr
    ⟨segments.flatMap chars, hat.source_eq, hstart.trans (position_place segments)⟩

theorem line_eq_place
    (hat : At report log source machine segments inner rest) (hinner : '\n' ∉ inner) :
    machine.line = (place segments).line := by
  have hcursor := hat.cursor_eq
  rw [Cursor.advance_of_notMem hinner] at hcursor
  exact congrArg Cursor.line hcursor

theorem matchChar?_eq
    (hat : At report log source machine segments inner rest) (expected : Char) :
    machine.matchChar? source expected = some
      (if rest.head? = some expected then (true, machine.past expected)
      else (false, machine)) := by
  rw [matchChar?, hat.atEnd_eq, hat.peek?_eq]
  cases rest with
  | nil => rfl
  | cons c tail => simp

/-- A step that leaves a segment.  What it starts from may lie before the part read last. -/
theorem leave
    (segment : Segment) {moved : Machine σ}
    (hat : At report log source moved segments segment.chars rest)
    (hlegal : segment.LegalBefore rest) (hmax : segment.MaximalBefore rest)
    (hphase : next.phase = .between) (hstart : next.start = (place segments).position)
    (hcursor : next.cursor = moved.cursor)
    (htokens : next.tokens = moved.tokens ++ (segment.token? (place segments).line).toList)
    (hlog : next.log =
      (segment.fault? (place segments) moved.cursor).toList.foldl report moved.log)
    (hearlier : machine.tokens = moved.tokens)
    (hprogress : machine.current < moved.current ∨
      machine.current = moved.current ∧ machine.phase.work = 2) :
    Follows report log source (segments.length + 1) machine next := by
  have hcurrent : next.current = moved.current := congrArg Cursor.position hcursor
  refine ⟨?_, ?_, ?_⟩
  · have hle : next.start ≤ next.current := by
      rw [hstart, position_place, hcurrent, hat.current_eq, byteLength_append]
      exact Nat.le_add_right _ _
    have hboundary : IsBoundary source next.start :=
      ⟨segments.flatMap chars, _, hat.source_eq, hstart.trans (position_place segments)⟩
    have hbetween := Tracks.between hphase
      (hat.settle hlegal hmax hcursor htokens hlog) hle hboundary
    rw [List.length_append, List.length_singleton] at hbetween
    rwa [if_neg (by rw [hphase]; simp)]
  · rw [hearlier, htokens]
    exact List.prefix_append _ _
  · rw [hcurrent, hphase]
    exact hprogress.imp_right fun ⟨hsame, hwork⟩ => ⟨hsame, by rw [hwork]; decide⟩

theorem exists_addToken
    {segment : Segment} {moved : Machine σ}
    (hat : At report log source moved segments segment.chars rest)
    (hlegal : segment.LegalBefore rest) (hmax : segment.MaximalBefore rest)
    (hstart : moved.start = (place segments).position)
    {kind : TokenKind} {literal : Option Literal} {line : Nat}
    (htoken : segment.token? (place segments).line =
      some ⟨kind, String.ofList segment.chars, literal, line⟩)
    (hearlier : machine.tokens = moved.tokens) (hcurrent : machine.current < moved.current) :
    ∃ next, moved.addToken? source kind literal line = some next ∧
      Follows report log source (segments.length + 1) machine next := by
  have hfault : segment.fault? (place segments) moved.cursor = none := by
    cases segment <;> first | rfl | cases htoken
  refine ⟨{ moved with
    tokens := moved.tokens ++ [⟨kind, String.ofList segment.chars, literal, line⟩]
    phase := .between }, ?_, ?_⟩
  · rw [addToken?, hat.slice?_eq hstart, Option.map_some]
  · refine hat.leave segment hlegal hmax rfl hstart rfl ?_ ?_ hearlier (.inl hcurrent)
    · rw [htoken]
      rfl
    · rw [hfault]
      rfl

/-- A step that reads on inside a segment. -/
theorem readOn
    (hat : At report log source next segments inner rest)
    (hreads : next.phase.Reads (place segments).line inner) (hinner : inner ≠ [])
    (hstart : next.start = (place segments).position)
    (htokens : next.tokens = machine.tokens) (hcurrent : machine.current < next.current) :
    Follows report log source (segments.length + 1) machine next := by
  have hphase : next.phase ≠ .beginning := by
    intro hphase
    rw [hphase] at hreads
    cases hreads
    exact hinner rfl
  refine ⟨?_, ?_, .inl hcurrent⟩
  · rw [if_neg hphase]
    exact .inside hreads hat hstart (List.append_ne_nil_of_left_ne_nil hinner rest)
  · rw [htokens]

end At

/-! ## Steps -/

section Steps

variable {search : Search} {machine : Machine σ} {segments : List Segment}
variable {c : Char} {tail : List Char}

/-- The scanner moves to the end that a search has found, and adds the token that lies before it. -/
theorem At.exists_found
    {moved : Machine σ} (hat : At report log source moved segments [c] tail)
    (hstart : moved.start = (place segments).position)
    (hearlier : machine.tokens = moved.tokens)
    (hcurrent : machine.current = (place segments).position)
    {segment : Segment} {after : List Char} (hread : read c tail = (segment, after))
    (hfeed : '\n' ∉ segment.chars) {kind : TokenKind} {literal : Option Literal}
    (htoken : ∀ line, segment.token? line =
      some ⟨kind, String.ofList segment.chars, literal, line⟩)
    {found : Machine σ} (hfound : found = moved.moveTo (some (byteLength segment.chars))) :
    slice? source found.start found.current = some segment.chars ∧
      ∃ next, found.addToken? source kind literal found.line = some next ∧
        Follows report log source (segments.length + 1) machine next := by
  obtain ⟨htext, hlegal, hmax⟩ := read_eq_iff.mp hread
  have hmem : c ∈ segment.chars := by
    obtain ⟨d, more, hchars⟩ := List.exists_cons_of_ne_nil hlegal.chars_ne_nil
    rw [hchars] at htext ⊢
    cases htext
    exact List.mem_cons_self
  have hc : '\n' ∉ [c] := by
    intro hhead
    rw [List.mem_singleton.mp hhead] at hfeed
    exact hfeed hmem
  have hcursor : found.cursor = (place segments).advance segment.chars := by
    rw [hfound, Cursor.advance_of_notMem hfeed]
    simp [cursor, moveTo, hstart, hat.line_eq_place hc]
  have hlast : At report log source found segments segment.chars after := by
    subst found
    exact hat.moved htext.symm hcursor rfl rfl
  have hlastStart : found.start = (place segments).position := by
    rw [hfound]
    exact hstart
  have hfar : machine.current < found.current := by
    have hpos := byteLength_pos hlegal.chars_ne_nil
    rw [hlast.current_eq, hcurrent, position_place, byteLength_append]
    omega
  have hlater : machine.tokens = found.tokens := by
    rw [hfound]
    exact hearlier
  refine ⟨hlast.slice?_eq hlastStart, ?_⟩
  exact hlast.exists_addToken hlegal hmax hlastStart
    (by rw [htoken, hlast.line_eq_place hfeed]) hlater hfar

theorem At.exists_number
    (hsearch : search.Correct) {moved : Machine σ}
    (hat : At report log source moved segments [c] tail) (hc : c.isDigit = true)
    (hstart : moved.start = (place segments).position)
    (hearlier : machine.tokens = moved.tokens)
    (hcurrent : machine.current = (place segments).position) :
    ∃ next, moved.number? source search = some next ∧
      Follows report log source (segments.length + 1) machine next := by
  obtain ⟨numeral, after, hread⟩ :
      ∃ numeral after, read c tail = (.number numeral, after) :=
    ⟨_, _, read_of_isDigit hc tail⟩
  have hlegal := (read_eq_iff.mp hread).2.1
  have hnumber := isNumber_read hc tail
  have hfound := hsearch.number.eq_some_of_read areSegments_isNumber hnumber
  rw [hread] at hnumber hfound
  obtain ⟨hslice, hnext⟩ := hat.exists_found hstart hearlier hcurrent hread
    (hnumber.notMem_of_isBlank rfl) (fun _ => rfl) rfl
  simp only [number?, hat.dropBytes?_start hstart, Option.bind_eq_bind, Option.bind_some,
    List.singleton_append, hfound, hslice]
  rw [chars, decimalValue_chars hlegal]
  exact hnext

theorem At.exists_word
    (hsearch : search.Correct) {moved : Machine σ}
    (hat : At report log source moved segments [c] tail) (hc : isWordStart c = true)
    (hstart : moved.start = (place segments).position)
    (hearlier : machine.tokens = moved.tokens)
    (hcurrent : machine.current = (place segments).position) :
    ∃ next, moved.word? source search = some next ∧
      Follows report log source (segments.length + 1) machine next := by
  obtain ⟨text, after, hread⟩ : ∃ text after, read c tail = (.word text, after) :=
    ⟨_, _, read_of_isWordStart hc tail⟩
  have hword := isWord_read hc tail
  have hfound := hsearch.word.eq_some_of_read areSegments_isWord hword
  rw [hread] at hword hfound
  obtain ⟨hslice, hnext⟩ := hat.exists_found hstart hearlier hcurrent hread
    (hword.notMem_of_isBlank rfl) (fun _ => rfl) rfl
  simp only [word?, hat.dropBytes?_start hstart, Option.bind_eq_bind, Option.bind_some,
    List.singleton_append, hfound, hslice]
  exact hnext

theorem At.exists_operatorToken
    {moved : Machine σ} {op : Operator} {rest : List Char}
    (hat : At report log source moved segments op.chars rest) (hmax : op.MaximalBefore rest)
    (hstart : moved.start = (place segments).position)
    (hearlier : machine.tokens = moved.tokens) (hcurrent : machine.current < moved.current) :
    ∃ next, moved.addToken? source (.operator op) none moved.line = some next ∧
      Follows report log source (segments.length + 1) machine next := by
  have hfeed : '\n' ∉ op.chars := by
    cases op <;> simp [Operator.chars]
  have hline := hat.line_eq_place hfeed
  have hat : At report log source moved segments (Segment.operator op).chars rest := hat
  exact hat.exists_addToken trivial hmax hstart (by rw [hline]; rfl) hearlier hcurrent

theorem At.exists_operator
    {op : Operator} (hop : Operator.ofChar? c = some op)
    (hat : At report log source machine segments [] (c :: tail))
    (hstart : machine.start = (place segments).position) :
    ∃ next, (machine.past c).operator? source op = some next ∧
      Follows report log source (segments.length + 1) machine next := by
  have hfeed : c ≠ '\n' := by
    rintro rfl
    cases hop
  have hchars := Operator.chars_of_ofChar? hop
  have hpast : At report log source (machine.past c) segments op.chars tail := by
    rw [hchars]
    exact hat.past hfeed
  have hfar := machine.lt_past c
  have hnarrow : ∀ hmax : op.MaximalBefore tail, ∃ next,
      (machine.past c).addToken? source (.operator op) none (machine.past c).line = some next ∧
        Follows report log source (segments.length + 1) machine next :=
    fun hmax => hpast.exists_operatorToken hmax hstart rfl hfar
  have hsecond : ∀ d : Char, machine.current < ((machine.past c).past d).current :=
    fun d => hfar.trans ((machine.past c).lt_past d)
  by_cases hslash : op = .slash
  · subst op
    rw [operator?_slash, hpast.matchChar?_eq, Option.bind_some]
    by_cases hhead : tail.head? = some '/'
    · -- the second slash opens a comment
      rw [if_pos hhead]
      obtain ⟨after, rfl⟩ := List.head?_eq_some_iff.mp hhead
      have hcomment := hpast.past (by decide)
      refine ⟨_, if_pos rfl, ?_⟩
      have hat : At report log source
          { (machine.past c).past '/' with phase := .comment } segments ['/', '/'] after :=
        hcomment.moved rfl hcomment.cursor_eq rfl rfl
      exact hat.readOn (.comment (by simp)) (by simp) hstart rfl (hsecond '/')
    · rw [if_neg hhead]
      refine hnarrow fun d hd => ⟨?_, ?_⟩
      · rintro ⟨⟩
      · rintro - rfl
        exact hhead hd
  · cases hwide : op.withEqual? with
    | none =>
        rw [operator?_of_plain _ _ hwide hslash]
        refine hnarrow fun d _ => ⟨?_, fun heq => (hslash heq).elim⟩
        rw [hwide]
        rintro ⟨⟩
    | some wide =>
        rw [operator?_of_withEqual? _ _ hwide, hpast.matchChar?_eq, Option.bind_some]
        by_cases hhead : tail.head? = some '='
        · rw [if_pos hhead]
          obtain ⟨after, rfl⟩ := List.head?_eq_some_iff.mp hhead
          have hlong := hpast.past (by decide)
          rw [← Operator.chars_of_withEqual? hwide] at hlong
          have hmax : wide.MaximalBefore after := by
            intro d _
            cases op <;> cases hwide <;> simp [Operator.withEqual?]
          exact hlong.exists_operatorToken hmax hstart rfl (hsecond '=')
        · rw [if_neg hhead]
          refine hnarrow fun d hd => ⟨?_, fun heq => (hslash heq).elim⟩
          rintro - rfl
          exact hhead hd

theorem At.exists_dispatch
    (hsearch : search.Correct) (hat : At report log source machine segments [] (c :: tail))
    (hstart : machine.start = (place segments).position) :
    ∃ next, (machine.past c).dispatch? search report source c = some next ∧
      Follows report log source (segments.length + 1) machine next := by
  have hcurrent : machine.current = (place segments).position :=
    congrArg Cursor.position hat.cursor_eq
  have hfar := machine.lt_past c
  unfold dispatch?
  cases hop : Operator.ofChar? c with
  | some op => exact hat.exists_operator hop hstart
  | none =>
      by_cases hfeed : c = '\n'
      · subst c
        have hpast := hat.pastCounted
        exact ⟨_, if_pos rfl, hpast.leave (.blank '\n') rfl trivial rfl hstart rfl
          (List.append_nil _).symm rfl rfl (.inl hfar)⟩
      have hpast := hat.past hfeed
      rw [List.nil_append] at hpast
      have hline : (machine.past c).line = (place segments).line :=
        hpast.line_eq_place (by simpa using Ne.symm hfeed)
      simp only [if_neg hfeed]
      by_cases hblank : isBlank c = true
      · exact ⟨_, if_pos hblank, hpast.leave (.blank c) hblank trivial rfl hstart rfl
          (List.append_nil _).symm rfl rfl (.inl hfar)⟩
      simp only [if_neg hblank]
      by_cases hquote : c = '"'
      · subst c
        have hread : At report log source
            { machine.past '"' with phase := .string (machine.past '"').line } segments ['"'] tail :=
          hpast.moved rfl hpast.cursor_eq rfl rfl
        refine ⟨_, if_pos rfl, hread.readOn ?_ (by simp) hstart rfl hfar⟩
        rw [hline]
        exact .string (by simp)
      simp only [if_neg hquote]
      by_cases hdigit : c.isDigit = true
      · simp only [if_pos hdigit]
        exact hpast.exists_number hsearch hdigit hstart rfl hcurrent
      simp only [if_neg hdigit]
      by_cases hword : isWordStart c = true
      · simp only [if_pos hword]
        exact hpast.exists_word hsearch hword hstart rfl hcurrent
      have hstray : IsStray c :=
        ⟨by simpa using hblank, hquote, by simpa using hdigit, by simpa using hword, hop⟩
      refine ⟨_, if_neg hword, hpast.leave (.stray c) hstray trivial rfl hstart rfl
        (List.append_nil _).symm ?_ rfl (.inl hfar)⟩
      simp only [fault?, Option.toList_some, List.foldl_cons, List.foldl_nil, ← hstart, ← hline]
      rfl

theorem At.exists_comment
    {body rest : List Char} (hphase : machine.phase = .comment)
    (hat : At report log source machine segments ('/' :: '/' :: body) rest) (hbody : '\n' ∉ body)
    (hstart : machine.start = (place segments).position) :
    ∃ next, machine.step? search report source = some next ∧
      Follows report log source (segments.length + 1) machine next := by
  simp only [step?, hphase, hat.peek?_eq, hat.atEnd_eq, Option.bind_eq_bind, Option.bind_some]
  by_cases hends : rest.head?.all (· = '\n') = true
  · have hnot : ¬ (rest.head?.getD endMark ≠ '\n' ∧ decide (rest = []) = false) := by
      cases rest with
      | nil => simp
      | cons c rest => simpa using hends
    have hmax : (Segment.comment body).MaximalBefore rest := by
      intro c hc
      simpa [Option.mem_def.mp hc] using hends
    -- the comment is left before the line feed or at the end of the source
    refine ⟨_, if_neg hnot, ?_⟩
    exact hat.leave (.comment body) hbody hmax rfl hstart rfl (List.append_nil _).symm rfl rfl
      (.inr ⟨rfl, by rw [hphase]; rfl⟩)
  · obtain ⟨c, rest, rfl, hc⟩ : ∃ c after, rest = c :: after ∧ c ≠ '\n' := by
      cases rest with
      | nil => simp at hends
      | cons c after => exact ⟨c, after, rfl, by simpa using hends⟩
    have hgoes : (c :: rest).head?.getD endMark ≠ '\n' ∧ decide (c :: rest = []) = false :=
      ⟨hc, rfl⟩
    rw [if_pos hgoes, hat.advance?_eq]
    refine ⟨_, rfl, (hat.past hc).readOn ?_ (by simp) hstart rfl (machine.lt_past c)⟩
    have hlonger : '\n' ∉ body ++ [c] := by
      simpa using ⟨hbody, hc.symm⟩
    have hreads : (machine.past c).phase = .comment := hphase
    rw [hreads]
    exact .comment hlonger

/-- The value of a string lies between its quotes. -/
theorem At.slice?_value
    {body rest : List Char} (hat : At report log source machine segments ('"' :: body) ('"' :: rest))
    (hstart : machine.start = (place segments).position) :
    slice? source (machine.start + 1) ((machine.past '"').current - 1) = some body := by
  have hpast : At report log source (machine.past '"') segments (Segment.string body).chars rest :=
    hat.past (by decide)
  have hquote : byteLength ['"'] = 1 := rfl
  have hlength : byteLength (Segment.string body).chars = 1 + byteLength body + 1 := by
    rw [chars, byteLength_append, byteLength_cons, hquote]
    rfl
  rw [slice?_eq_some_iff]
  refine ⟨segments.flatMap chars ++ ['"'], '"' :: rest, ?_, ?_, ?_⟩
  · rw [hat.source_eq]
    simp
  · rw [hstart, position_place, byteLength_append, hquote]
  · rw [hstart, position_place, hpast.current_eq, byteLength_append, hlength]
    omega

theorem At.exists_closeString
    {body rest : List Char} (hat : At report log source machine segments ('"' :: body) ('"' :: rest))
    (hbody : '"' ∉ body) (hstart : machine.start = (place segments).position) :
    ∃ next, machine.closeString? source (place segments).line = some next ∧
      Follows report log source (segments.length + 1) machine next := by
  have hpast : At report log source (machine.past '"') segments (Segment.string body).chars rest :=
    hat.past (by decide)
  have hvalue := hat.slice?_value hstart
  simp only [closeString?, hat.advance?_eq, Option.bind_eq_bind, Option.bind_some, past_start,
    hvalue]
  exact hpast.exists_addToken hbody trivial hstart rfl rfl (machine.lt_past '"')

theorem At.exists_string
    {body rest : List Char} (hphase : machine.phase = .string (place segments).line)
    (hat : At report log source machine segments ('"' :: body) rest) (hbody : '"' ∉ body)
    (hstart : machine.start = (place segments).position) :
    ∃ next, machine.step? search report source = some next ∧
      Follows report log source (segments.length + 1) machine next := by
  simp only [step?, hphase, hat.peek?_eq, hat.atEnd_eq, Option.bind_eq_bind, Option.bind_some]
  cases rest with
  | nil =>
      -- nothing is read, so the fault lies on the line that has been counted
      refine ⟨_, rfl, hat.leave (.openString body) ⟨hbody, rfl⟩ trivial rfl hstart rfl
        (List.append_nil _).symm ?_ rfl (.inr ⟨rfl, by rw [hphase]; rfl⟩)⟩
      simp only [fault?, Option.toList_some, List.foldl_cons, List.foldl_nil, ← hstart]
      rfl
  | cons c rest =>
      by_cases hquote : c = '"'
      · subst c
        exact hat.exists_closeString hbody hstart
      · have hgoes : (c :: rest).head?.getD endMark ≠ '"' ∧ decide (c :: rest = []) = false :=
          ⟨hquote, rfl⟩
        have hlonger : '"' ∉ body ++ [c] := by
          simpa using ⟨hbody, Ne.symm hquote⟩
        have hadvance : (machine.countLine c).advance? source =
            some (c, (machine.countLine c).past c) := by
          rw [advance?, countLine_current, hat.dropBytes?_eq, Option.map_some]
        -- the line is counted before the character is passed, and the step ends behind both
        rw [if_pos hgoes, List.head?_cons, Option.getD_some, hadvance]
        refine ⟨_, rfl, hat.pastCounted.readOn ?_ (by simp) ?_ ?_ ?_⟩
        · rw [past_phase, countLine_phase, hphase]
          exact .string hlonger
        · rw [past_start, countLine_start, hstart]
        · rw [past_tokens, countLine_tokens]
        · exact (countLine_current machine c).symm.trans_lt (lt_past _ c)

theorem At.exists_finish
    (hphase : machine.phase = .between) (hat : At report log source machine segments [] [])
    (hstart : machine.start ≤ machine.current) (hboundary : IsBoundary source machine.start) :
    ∃ next, machine.step? search report source = some next ∧
      Follows report log source segments.length machine next := by
  have hcut : segments = cut source := by
    simpa using hat.cut_eq.symm
  subst segments
  have hcursor : machine.cursor = Cursor.origin.advance source := by
    rw [hat.cursor_eq, Cursor.advance_nil, place, flatMap_chars_cut]
  have hline : machine.line = lastLine source := congrArg Cursor.line hcursor
  simp only [step?, hphase, hat.atEnd_eq]
  refine ⟨_, rfl, ?_, List.prefix_append _ _,
    .inr ⟨rfl, by rw [hphase]; exact Nat.zero_lt_one⟩⟩
  exact .finished rfl hcursor (by rw [hat.tokens_eq, hline]) hat.log_eq hstart hboundary

/-- Every state but the last has a step, and the step keeps track. -/
theorem Tracks.exists_step
    (hsearch : search.Correct) {iterations : Nat}
    (htracks : Tracks report log source iterations machine) (hphase : machine.phase ≠ .finished) :
    ∃ next, machine.step? search report source = some next ∧
      Follows report log source iterations machine next := by
  cases htracks with
  | @between _ segments rest hbetween hat hstart hboundary =>
      cases rest with
      | nil => exact hat.exists_finish hbetween hstart hboundary
      | cons c rest =>
          simp only [step?, hbetween, hat.atEnd_eq]
          refine ⟨_, rfl, ?_, List.prefix_rfl,
            .inr ⟨rfl, by rw [hbetween]; exact Nat.zero_lt_one⟩⟩
          exact .inside .beginning (hat.moved rfl hat.cursor_eq rfl rfl)
            (congrArg Cursor.position hat.cursor_eq) (by simp)
  | @inside _ segments inner rest hreads hat hstart hsome =>
      generalize hinside : machine.phase = phase at hreads
      cases hreads with
      | beginning =>
          obtain ⟨c, tail, rfl⟩ := List.exists_cons_of_ne_nil hsome
          simp only [step?, hinside, hat.advance?_eq, Option.bind_eq_bind, Option.bind_some]
          exact hat.exists_dispatch hsearch hstart
      | comment hbody => exact hat.exists_comment hinside hbody hstart
      | string hbody => exact hat.exists_string hinside hbody hstart
  | finished hfinished => exact (hphase hfinished).elim

end Steps

end Machine

end LoxLexer
