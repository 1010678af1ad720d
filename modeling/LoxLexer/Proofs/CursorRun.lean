import LoxLexer.Proofs.CursorInvariant

/-!
# Runs of the scanner with byte cursors

Every state of a run is sound, and the places at which the scanner relies on more than the bounds of
its cursors are safe.  The states between two iterations of the outer loop lie behind one more
segment each time, so the scanner comes further with every iteration and ends after as many as the
source has segments.
-/

namespace LoxLexer

open Segment

namespace Segment

theorem Fitted.length_le
    {segments : List Segment} (hfitted : Fitted segments) :
    segments.length ≤ (segments.flatMap chars).length := by
  induction hfitted with
  | nil => exact Nat.le_refl _
  | cons hlegal _ _ ih =>
      have hpos := List.length_pos_iff.mpr hlegal.chars_ne_nil
      rw [List.length_cons, List.flatMap_cons, List.length_append]
      omega

theorem length_cut_le (text : List Char) : (cut text).length ≤ text.length := by
  have hle := (fitted_cut text).length_le
  rwa [flatMap_chars_cut] at hle

theorem cut_ne_nil {text : List Char} (htext : text ≠ []) : cut text ≠ [] := by
  intro hcut
  have hchars := flatMap_chars_cut text
  rw [hcut] at hchars
  exact htext hchars.symm

end Segment

namespace Machine

variable {σ : Type}

/-- The cursors lie in the source, in their order and between its characters, and the line tells the
line feeds before `current`. -/
structure Sound (source : List Char) (machine : Machine σ) : Prop where
  start_le : machine.start ≤ machine.current
  current_le : machine.current ≤ byteLength source
  start_boundary : IsBoundary source machine.start
  current_boundary : IsBoundary source machine.current
  line_eq : ∃ passed, slice? source 0 machine.current = some passed ∧
    machine.line = 1 + passed.count '\n'
  line_pos : 1 ≤ machine.line
  line_le : machine.line ≤ byteLength source + 1

/-- A search in what lies behind `start` finds an end, which is a boundary and not before
`current`. -/
def FindsEnd (source : List Char) (machine : Machine σ) (find? : List Char → Option Nat) : Prop :=
  ∃ text stop, dropBytes? machine.start source = some text ∧ find? text = some stop ∧
    machine.current ≤ machine.start + stop ∧ IsBoundary source (machine.start + stop)

/-- The scanner begins a segment only at a character of the source.  Where it searches, it finds an
end behind the character it has already passed, and a string has a value between its quotes. -/
structure Safe (search : Search) (source : List Char) (machine : Machine σ) : Prop where
  character : machine.phase = .beginning → ∃ c rest,
    dropBytes? machine.current source = some (c :: rest) ∧
    machine.advance? source = some (c, machine.past c) ∧
    (c.isDigit = true → FindsEnd source (machine.past c) search.number?) ∧
    (isWordStart c = true → FindsEnd source (machine.past c) search.word?)
  value : ∀ line rest, machine.phase = .string line →
    dropBytes? machine.current source = some ('"' :: rest) →
      ∃ value, slice? source (machine.start + 1) ((machine.past '"').current - 1) = some value

/-- The steps that are left at most: three for a byte, and those that read nothing. -/
def work (source : List Char) (machine : Machine σ) : Nat :=
  3 * (byteLength source - machine.current) + machine.phase.work

variable {search : Search} {report : Reporter σ} {log : σ} {source : List Char}
variable {machine next : Machine σ} {iterations : Nat}

theorem sound_of_passed
    {passed rest : List Char} (hsource : source = passed ++ rest)
    (hcursor : machine.cursor = Cursor.origin.advance passed)
    (hstart : machine.start ≤ machine.current) (hboundary : IsBoundary source machine.start) :
    machine.Sound source := by
  have hcurrent : machine.current = byteLength passed :=
    (congrArg Cursor.position hcursor).trans (Nat.zero_add _)
  have hline : machine.line = 1 + passed.count '\n' := congrArg Cursor.line hcursor
  have hlength : byteLength source = byteLength passed + byteLength rest := by
    rw [hsource, byteLength_append]
  have hcount : passed.count '\n' ≤ byteLength passed :=
    List.count_le_length.trans (length_le_byteLength passed)
  exact
    { start_le := hstart
      current_le := by omega
      start_boundary := hboundary
      current_boundary := ⟨passed, rest, hsource, hcurrent⟩
      line_eq := ⟨passed, slice?_eq_some_iff.mpr ⟨[], rest, hsource, rfl, by omega⟩, hline⟩
      line_pos := by omega
      line_le := by omega }

theorem At.sound
    {segments : List Segment} {inner rest : List Char}
    (hat : At report log source machine segments inner rest)
    (hstart : machine.start ≤ machine.current) (hboundary : IsBoundary source machine.start) :
    machine.Sound source := by
  have hsource : source = segments.flatMap chars ++ inner ++ rest := by
    rw [List.append_assoc, ← hat.source_eq]
  have hcursor : machine.cursor = Cursor.origin.advance (segments.flatMap chars ++ inner) := by
    rw [hat.cursor_eq, Cursor.advance_append]
    rfl
  exact sound_of_passed hsource hcursor hstart hboundary

theorem Tracks.sound (htracks : Tracks report log source iterations machine) :
    machine.Sound source := by
  cases htracks with
  | between _ hat hstart hboundary => exact hat.sound hstart hboundary
  | @inside _ segments inner rest _ hat hstart _ =>
      have hle : machine.start ≤ machine.current := by
        rw [hstart, position_place, hat.current_eq, byteLength_append]
        exact Nat.le_add_right _ _
      exact hat.sound hle
        ⟨segments.flatMap chars, _, hat.source_eq, hstart.trans (position_place segments)⟩
  | finished _ hcursor _ _ hstart hboundary =>
      exact sound_of_passed (List.append_nil source).symm hcursor hstart hboundary

/-! ## Where the scanner relies on more -/

theorem At.findsEnd
    {segments : List Segment} {c : Char} {tail : List Char}
    (hat : At report log source machine segments [] (c :: tail))
    (hstart : machine.start = (place segments).position) {find? : List Char → Option Nat}
    (hfind : find? (c :: tail) = some (byteLength (read c tail).1.chars)) :
    FindsEnd source (machine.past c) find? := by
  have hcurrent : machine.current = (place segments).position :=
    congrArg Cursor.position hat.cursor_eq
  have htext := chars_read_append c tail
  refine ⟨c :: tail, _, hat.dropBytes?_start hstart, hfind, ?_, ?_⟩
  · obtain ⟨d, more, hchars⟩ := List.exists_cons_of_ne_nil (chars_read_ne_nil c tail)
    rw [hchars, List.cons_append, List.cons.injEq] at htext
    rw [past_current, past_start, hcurrent, hstart, hchars, byteLength_cons, htext.1]
    omega
  · refine ⟨segments.flatMap chars ++ (read c tail).1.chars, (read c tail).2, ?_, ?_⟩
    · rw [List.append_assoc, htext, hat.source_eq, List.nil_append]
    · rw [past_start, hstart, position_place, byteLength_append]

theorem Tracks.safe
    (hsearch : search.Correct) (htracks : Tracks report log source iterations machine) :
    machine.Safe search source := by
  cases htracks with
  | between hphase =>
      exact ⟨fun h => (by rw [hphase] at h; cases h), fun line rest h => by rw [hphase] at h; cases h⟩
  | finished hphase =>
      exact ⟨fun h => (by rw [hphase] at h; cases h), fun line rest h => by rw [hphase] at h; cases h⟩
  | @inside _ segments inner rest hreads hat hstart hsome =>
      constructor
      · intro hphase
        rw [hphase] at hreads
        cases hreads
        obtain ⟨c, tail, rfl⟩ := List.exists_cons_of_ne_nil hsome
        refine ⟨c, tail, hat.dropBytes?_eq, hat.advance?_eq, ?_, ?_⟩
        · intro hc
          exact hat.findsEnd hstart
            (hsearch.number.eq_some_of_read areSegments_isNumber (isNumber_read hc tail))
        · intro hc
          exact hat.findsEnd hstart
            (hsearch.word.eq_some_of_read areSegments_isWord (isWord_read hc tail))
      · intro line after hphase hdrop
        rw [hphase] at hreads
        cases hreads with
        | string hbody =>
            obtain rfl : rest = '"' :: after := by
              simpa [hat.dropBytes?_eq] using hdrop
            exact ⟨_, hat.slice?_value hstart⟩

/-! ## Iterations -/

theorem Tracks.iterations_le
    (htracks : Tracks report log source iterations machine) :
    iterations ≤ (cut source).length := by
  cases htracks with
  | between _ hat => rw [hat.cut_eq, List.length_append]; omega
  | inside _ hat _ hsome =>
      have hpos := List.length_pos_iff.mpr (cut_ne_nil hsome)
      rw [hat.cut_eq, List.length_append]
      omega
  | finished => exact Nat.le_refl _

theorem Tracks.exists_at
    (htracks : Tracks report log source iterations machine) (hphase : machine.phase = .between) :
    ∃ segments rest, segments.length = iterations ∧
      At report log source machine segments [] rest := by
  cases htracks with
  | between _ hat => exact ⟨_, _, rfl, hat⟩
  | inside hreads =>
      rw [hphase] at hreads
      cases hreads
  | finished hfinished =>
      rw [hphase] at hfinished
      cases hfinished

/-- An iteration goes over one segment. -/
theorem Tracks.current_lt
    (htracks : Tracks report log source iterations machine) (hphase : machine.phase = .between)
    (hnext : Tracks report log source (iterations + 1) next) (hbetween : next.phase = .between) :
    machine.current < next.current := by
  obtain ⟨segments, rest, hlength, hat⟩ := htracks.exists_at hphase
  obtain ⟨longer, after, hlonger, hlater⟩ := hnext.exists_at hbetween
  -- both begin the cut of the source, so the longer one has one more segment
  have hprefix : segments <+: longer :=
    List.prefix_of_prefix_length_le ⟨_, hat.cut_eq.symm⟩ ⟨_, hlater.cut_eq.symm⟩ (by omega)
  obtain ⟨more, rfl⟩ := hprefix
  have hmore : more.length = 1 := by
    rw [List.length_append] at hlonger
    omega
  obtain ⟨segment, rfl⟩ := List.length_eq_one_iff.mp hmore
  have hmem : segment ∈ cut source := by
    rw [hlater.cut_eq]
    simp
  have hpos := byteLength_pos ((fitted_cut source).chars_ne_nil_of_mem segment hmem)
  rw [hat.current_eq, hlater.current_eq]
  simp
  omega

/-! ## Runs -/

theorem work_lt
    (hfollows : Follows report log source iterations machine next) :
    next.work source < machine.work source := by
  have hle := hfollows.tracks.sound.current_le
  have hphase := next.phase.work_le
  unfold work
  rcases hfollows.progress with hlt | ⟨hsame, hlt⟩ <;> omega

theorem Reached.tracks
    (hsearch : search.Correct) (hreached : Reached search report source log iterations machine) :
    Tracks report log source iterations machine := by
  induction hreached with
  | initial =>
      have hat : At report log source (.initial log) [] [] source := ⟨rfl, rfl, rfl, rfl⟩
      exact .between rfl hat (Nat.le_refl _) ⟨[], source, rfl, rfl⟩
  | @step iterations machine next _ hstep ih =>
      have hphase : machine.phase ≠ .finished := by
        intro hphase
        simp only [step?, hphase] at hstep
        cases hstep
      -- there is only one step, and it is known to keep track
      obtain ⟨other, hother, hfollows⟩ := ih.exists_step hsearch hphase
      rw [hother] at hstep
      cases hstep
      exact hfollows.tracks

theorem Reached.exists_finished
    (hsearch : search.Correct) (hreached : Reached search report source log iterations machine) :
    ∃ total final, Reached search report source log total final ∧ final.phase = .finished := by
  -- on the work that is left, which every step lowers
  induction hwork : machine.work source using Nat.strong_induction_on
    generalizing iterations machine with
  | h steps ih =>
      by_cases hphase : machine.phase = .finished
      · exact ⟨iterations, machine, hreached, hphase⟩
      · obtain ⟨next, hstep, hfollows⟩ := (hreached.tracks hsearch).exists_step hsearch hphase
        have hlt := work_lt hfollows
        rw [hwork] at hlt
        exact ih _ hlt (hreached.step hstep) rfl

end Machine

/-- The scanner with byte cursors, on any source: its states are sound and safe, it has begun no more
iterations than there are characters, it can always go on and only adds tokens, it comes further
with every iteration, and it ends with the tokens and the log of a scan. -/
theorem scanner_sound
    {search : Search} (hsearch : search.Correct) {σ : Type} (report : Reporter σ) (log : σ)
    (source : String) :
    (∀ iterations machine,
      Machine.Reached search report source.toList log iterations machine →
        machine.Sound source.toList ∧ machine.Safe search source.toList ∧
        iterations ≤ source.toList.length ∧
        (machine.phase ≠ .finished →
          ∃ next, machine.step? search report source.toList = some next ∧
            machine.tokens <+: next.tokens)) ∧
    (∀ iterations machine next,
      Machine.Reached search report source.toList log iterations machine →
      Machine.Reached search report source.toList log (iterations + 1) next →
        machine.phase = .between → next.phase = .between → machine.current < next.current) ∧
    ∃ iterations final,
      Machine.Reached search report source.toList log iterations final ∧
        final.phase = .finished ∧ ⟨final.tokens, final.log⟩ = scanWith report log source := by
  refine ⟨?_, ?_, ?_⟩
  · intro iterations machine hreached
    have htracks := hreached.tracks hsearch
    refine ⟨htracks.sound, htracks.safe hsearch,
      htracks.iterations_le.trans (length_cut_le _), ?_⟩
    intro hphase
    obtain ⟨next, hstep, hfollows⟩ := htracks.exists_step hsearch hphase
    exact ⟨next, hstep, hfollows.tokens⟩
  · intro iterations machine next hmachine hnext hphase hbetween
    exact (hmachine.tracks hsearch).current_lt hphase (hnext.tracks hsearch) hbetween
  · have hinitial : Machine.Reached search report source.toList log 0 (.initial log) := .initial
    obtain ⟨iterations, final, hfinal, hphase⟩ := hinitial.exists_finished hsearch
    refine ⟨iterations, final, hfinal, hphase, ?_⟩
    rw [scanWith_eq]
    cases hfinal.tracks hsearch with
    | between hbetween => rw [hphase] at hbetween; cases hbetween
    | inside hreads => rw [hphase] at hreads; cases hreads
    | finished _ _ htokens hlog => rw [htokens, hlog]

/-- A NUL character is no end of the source. -/
theorem scanner_sound_at_nul :
    let source := "1.\x00\"é\n\"x_/"
    Search.byReading.Correct ∧
    ∃ iterations final,
      Machine.Reached .byReading FaultLog.report source.toList .empty iterations final ∧
        iterations ≤ source.toList.length ∧ final.Sound source.toList ∧
        final.tokens.map Token.text =
          ["Number 1 1", "Dot . ", "String \"é\n\" é\n", "Identifier x_ ", "Slash / ", "EOF  "] ∧
        final.log.toList = [⟨.unexpectedCharacter '\x00', 1, 2⟩] := by
  intro source
  obtain ⟨hsound, -, iterations, final, hfinal, -, hscan⟩ :=
    scanner_sound Search.correct_byReading FaultLog.report .empty source
  obtain ⟨hstate, -, hiterations, -⟩ := hsound iterations final hfinal
  have hresult : (⟨final.tokens, final.log⟩ : Scan FaultLog) = scan source := hscan
  rw [Scan.mk.injEq] at hresult
  refine ⟨Search.correct_byReading, iterations, final, hfinal, hiterations, hstate, ?_, ?_⟩
  · rw [hresult.1]
    decide +kernel
  · rw [hresult.2]
    decide +kernel

end LoxLexer
