import LoxLexer.Proofs.SessionOutput

/-!
# Independence of the reporter

A reporter has no part in the scan that reports to it.  The tokens are the same for all reporters,
and a reporter is told, in order, the faults that a log would hold (`scanWith_eq_scan`).  So a log
that several scans report to holds the faults of one source after those of another, also if it is
kept inside something larger, which is not touched beside it.

The console is one more reporter.  What a file prints is therefore what tokenizing its text says.
-/

namespace LoxLexer

theorem scanWith_eq_scan
    {σ : Type} (report : Reporter σ) (log : σ) (source : String) :
    scanWith report log source =
      ⟨(scan source).tokens, (scan source).log.toList.foldl report log⟩ := by
  rw [scanWith_eq, tokens_scan, faults_scan]

/-! ## Borrowed reporters -/

/-- A place for a value of type `σ` in an owner of type `τ`. -/
structure Place (τ σ : Type) where
  get : τ → σ
  put : τ → σ → τ
  get_put : ∀ owner value, get (put owner value) = value
  put_get : ∀ owner, put owner (get owner) = owner
  put_put : ∀ owner first second, put (put owner first) second = put owner second

attribute [simp] Place.get_put Place.put_get Place.put_put

namespace Place

/-- A value is its own owner. -/
def itself (σ : Type) : Place σ σ where
  get owner := owner
  put _ value := value
  get_put _ _ := rfl
  put_get _ := rfl
  put_put _ _ _ := rfl

/-- The log of a scan, beside which the tokens are. -/
def scanLog (σ : Type) : Place (Scan σ) σ where
  get owner := owner.log
  put owner log := { owner with log := log }
  get_put _ _ := rfl
  put_get _ := rfl
  put_put _ _ _ := rfl

end Place

/-- A report to an owner, who passes it on to what is in the place. -/
def Reporter.through {τ σ : Type} (place : Place τ σ) (report : Reporter σ) : Reporter τ :=
  fun owner fault => place.put owner (report (place.get owner) fault)

theorem Reporter.foldl_through
    {τ σ : Type} (place : Place τ σ) (report : Reporter σ) (faults : List Fault) (owner : τ) :
    faults.foldl (report.through place) owner =
      place.put owner (faults.foldl report (place.get owner)) := by
  induction faults generalizing owner with
  | nil => simp
  | cons fault faults ih =>
      rw [List.foldl_cons, ih, List.foldl_cons]
      simp [Reporter.through]

/-! ## Several sources -/

/-- Scans sources in turn, each reporting to what the one before has left. -/
def scanInTurn {σ : Type} (report : Reporter σ) (log : σ) :
    (sources : List String) → List (List Token) × σ
  | [] => ([], log)
  | source :: sources =>
    let first := scanWith report log source
    let later := scanInTurn report first.log sources
    (first.tokens :: later.1, later.2)

theorem scanInTurn_eq
    {σ : Type} (report : Reporter σ) (log : σ) (sources : List String) :
    scanInTurn report log sources =
      (sources.map fun source => (scan source).tokens,
        (sources.flatMap fun source => (scan source).log.toList).foldl report log) := by
  induction sources generalizing log with
  | nil => rfl
  | cons source sources ih =>
      rw [scanInTurn, ih, scanWith_eq_scan, List.map_cons, List.flatMap_cons, List.foldl_append]

theorem scanInTurn_log (log : FaultLog) (sources : List String) :
    (scanInTurn FaultLog.report log sources).1 = sources.map (fun source => (scan source).tokens) ∧
    (scanInTurn FaultLog.report log sources).2.toList =
      log.toList ++ sources.flatMap fun source => (scan source).log.toList := by
  rw [scanInTurn_eq]
  exact ⟨rfl, FaultLog.toList_foldl_report log _⟩

/-- An owner who passes reports on is changed only where the log is. -/
theorem scanInTurn_through
    {τ : Type} (place : Place τ FaultLog) (owner : τ) (sources : List String) :
    scanInTurn (FaultLog.report.through place) owner sources =
      ((scanInTurn FaultLog.report (place.get owner) sources).1,
        place.put owner (scanInTurn FaultLog.report (place.get owner) sources).2) := by
  rw [scanInTurn_eq, scanInTurn_eq, Reporter.foldl_through]

/-! ## The console -/

theorem Fault.count_lineFeed_notice (fault : Fault) : fault.notice.toList.count '\n' = 1 := by
  have hline : (Nat.toDigits 10 fault.line).count '\n' = 0 := by
    rw [List.count_eq_zero]
    intro hmem
    exact absurd (Nat.isDigit_of_mem_toDigits (by decide) (by decide) hmem) (by decide)
  have hmessage : fault.cause.message.toList.count '\n' = 0 := by
    cases fault.cause <;> simp [Cause.message]
  simp [Fault.notice, hline, hmessage]

theorem count_lineFeed_notices (faults : List Fault) :
    (notices faults).toList.count '\n' = faults.length := by
  induction faults with
  | nil => rfl
  | cons fault faults ih =>
      have hfirst : notices [fault] = fault.notice := by
        simp [notices]
      rw [← List.singleton_append, notices_append, hfirst, String.toList_append,
        List.count_append, ih, fault.count_lineFeed_notice, List.length_append,
        List.length_singleton]

theorem runSession_file_plain
    {arguments : List String} {time : Bool} {path : String}
    (harguments : Invocation.parse arguments = .ok (.scan ⟨false, time⟩ (some path)))
    {read : String → Except ReadFailure ByteArray} {text : String}
    (htext : read path = .ok text.toUTF8) (input : ByteArray) (elapsed : String) :
    runSession arguments read input elapsed =
      match tokenize text with
      | .ok _ => ⟨ExitCode.success, printed time elapsed text, ""⟩
      | .error faults => ⟨ExitCode.dataError, printed time elapsed text, notices faults⟩ := by
  rw [runSession_file harguments htext, ofReport_plain, tokenize_eq, sourceCode]
  by_cases hnone : (scan text).log.toList = []
  · simp [hnone, notices]
  · simp [hnone]

/-- A reporter changes no token, and is told each fault once and in order.  So scans in turn add
their faults to one log, however it is reached, and what the console shows of a file is what
tokenizing its text says. -/
theorem scan_independent_of_reporter :
    (∀ {σ : Type} (report : Reporter σ) (log : σ) (source : String),
      scanWith report log source =
        ⟨(scan source).tokens, (scan source).log.toList.foldl report log⟩) ∧
    (∀ (log : FaultLog) (sources : List String),
      let scans := scanInTurn FaultLog.report log sources
      scans.1 = sources.map (fun source => (scan source).tokens) ∧
      scans.2.toList =
        log.toList ++ sources.flatMap fun source => (scan source).log.toList) ∧
    (∀ {τ : Type} (place : Place τ FaultLog) (owner : τ) (sources : List String),
      let scans := scanInTurn FaultLog.report (place.get owner) sources
      scanInTurn (FaultLog.report.through place) owner sources =
        (scans.1, place.put owner scans.2)) ∧
    (∀ {arguments : List String} {time : Bool} {path : String},
      Invocation.parse arguments = .ok (.scan ⟨false, time⟩ (some path)) →
      ∀ {read : String → Except ReadFailure ByteArray} {text : String},
        read path = .ok text.toUTF8 →
        ∀ (input : ByteArray) (elapsed : String),
          let outcome := runSession arguments read input elapsed
          outcome.stdout =
            (if time then "Tokenized in " ++ elapsed ++ "\n" else "") ++
              String.join ((scan text).tokens.map fun token => token.text ++ "\n") ∧
          match tokenize text with
          | .ok tokens =>
            tokens = (scan text).tokens ∧ outcome.stderr = "" ∧
              outcome.exitCode = ExitCode.success
          | .error faults =>
            outcome.stderr = String.join (faults.map fun fault =>
              "[line " ++ toString fault.line ++ "] Error: " ++ fault.cause.message ++ "\n") ∧
            outcome.stderr.toList.count '\n' = faults.length ∧
            outcome.exitCode = ExitCode.dataError) := by
  refine ⟨scanWith_eq_scan, scanInTurn_log, scanInTurn_through, ?_⟩
  intro arguments time path harguments read text htext input elapsed
  simp only [runSession_file_plain harguments htext]
  cases hresult : tokenize text with
  | ok tokens =>
      have htokens := tokenize_eq text
      rw [hresult] at htokens
      split_ifs at htokens
      cases htokens
      exact ⟨rfl, rfl, rfl, rfl⟩
  | error faults => exact ⟨rfl, rfl, count_lineFeed_notices faults, rfl⟩

/-- The tokens of a file with two faults are shown all the same.  A log that holds a fault already,
and is reached as part of a scan or by itself, has the faults of two more sources put behind it, and
the tokens beside it stay. -/
theorem scan_independent_of_reporter_file :
    let read : String → Except ReadFailure ByteArray := fun _ => .ok "é x\n\"#".toUTF8
    let outcome := runSession ["a.lox"] read .empty ""
    let log := FaultLog.report .empty ⟨.unterminatedString, 3, 9⟩
    let owner : Scan FaultLog := ⟨[.endOfSource 3], log⟩
    let scans := scanInTurn (FaultLog.report.through (.scanLog FaultLog)) owner ["x #", "é"]
    (outcome.stdout = "Identifier x \nEOF  \n" ∧
      outcome.stderr =
        "[line 1] Error: Unexpected character.\n[line 2] Error: Unterminated string.\n" ∧
      outcome.exitCode = ExitCode.dataError) ∧
    (scans.1 = [[⟨.identifier, "x", none, 1⟩, .endOfSource 1], [.endOfSource 1]] ∧
      scans.2.tokens = owner.tokens ∧
      scans.2.log.toList =
        [⟨.unterminatedString, 3, 9⟩, ⟨.unexpectedCharacter '#', 1, 2⟩,
          ⟨.unexpectedCharacter 'é', 1, 0⟩]) ∧
    scanInTurn (FaultLog.report.through (.itself FaultLog)) log ["x #", "é"] =
      (scans.1, scans.2.log) := by
  intro read outcome log owner scans
  have harguments :
      Invocation.parse ["a.lox"] = .ok (.scan ⟨false, false⟩ (some "a.lox")) := by
    decide +kernel
  have htext : read "a.lox" = .ok "é x\n\"#".toUTF8 := rfl
  have htokens : (scan "é x\n\"#").tokens =
      [⟨.identifier, "x", none, 1⟩, .endOfSource 2] := by
    decide +kernel
  have htokenize : tokenize "é x\n\"#" =
      .error [⟨.unexpectedCharacter 'é', 1, 0⟩, ⟨.unterminatedString, 2, 5⟩] := by
    decide +kernel
  have hsources : ["x #", "é"].map (fun source => (scan source).tokens) =
      [[⟨.identifier, "x", none, 1⟩, .endOfSource 1], [.endOfSource 1]] := by
    decide +kernel
  have hfaults : ["x #", "é"].flatMap (fun source => (scan source).log.toList) =
      [⟨.unexpectedCharacter '#', 1, 2⟩, ⟨.unexpectedCharacter 'é', 1, 0⟩] := by
    decide +kernel
  obtain ⟨-, hlogged, hplaced, hshown⟩ := scan_independent_of_reporter
  obtain ⟨hfirst, hlater⟩ := hlogged log ["x #", "é"]
  have hscans : scans = _ := hplaced (.scanLog FaultLog) owner ["x #", "é"]
  have hitself := hplaced (.itself FaultLog) log ["x #", "é"]
  obtain ⟨hstdout, hrest⟩ := hshown harguments htext .empty ""
  rw [htokens] at hstdout
  rw [htokenize] at hrest
  obtain ⟨hstderr, -, hcode⟩ := hrest
  refine ⟨⟨hstdout.trans (by decide +kernel), hstderr.trans (by decide +kernel), hcode⟩,
    ⟨?_, ?_, ?_⟩, ?_⟩
  · rw [hscans]
    exact hfirst.trans hsources
  · rw [hscans]
    rfl
  · rw [hscans]
    exact hlater.trans (by rw [hfaults]; rfl)
  · rw [hscans]
    exact hitself

end LoxLexer
