import LoxLexer.Proofs.SessionOutput
import LoxLexer.Proofs.SourceLines

/-!
# Sessions that show the source under each fault

The flag `--pretty` asks for each fault to be shown in its source.  It leaves the standard output
and the exit code of a session alone as long as every fault can be shown.  A fault too far to the
right for its caret cannot, and it is met before any token of its source is printed: the session
ends there, without the tokens of that source and of all later ones.

`showable_longLine_iff` gives the width at which this happens.
-/

namespace LoxLexer

/-! ## The flag -/

theorem exists_of_bind_eq_ok
    {ε α β : Type} {result : Except ε α} {next : α → Except ε β} {value : β}
    (hbind : result >>= next = .ok value) :
    ∃ middle, result = .ok middle ∧ next middle = .ok value := by
  cases result with
  | error error => cases hbind
  | ok middle => exact ⟨middle, rfl, hbind⟩

namespace Request

/-- The request, with the source shown under each fault. -/
def prettily (request : Request) : Request :=
  { request with options.pretty := true }

theorem eq_of_settle
    {request settled : Request} (hsettle : request.settle = .ok settled) :
    settled = request := by
  unfold settle at hsettle
  split at hsettle
  · cases hsettle
  · cases hsettle
    rfl

theorem settle_prettily
    {request : Request} (hsettle : request.settle = .ok request) :
    request.prettily.settle = .ok request.prettily := by
  unfold settle at hsettle
  split at hsettle
  · cases hsettle
  · next hfile => exact if_neg hfile

theorem addFile_prettily
    {request next : Request} {file : String} (hadd : request.addFile file = .ok next) :
    request.prettily.addFile file = .ok next.prettily := by
  unfold addFile at hadd
  cases hfile : request.file? with
  | some other =>
      rw [hfile] at hadd
      cases hadd
  | none =>
      rw [hfile] at hadd
      cases hadd
      simp [addFile, prettily, hfile]

theorem foldlM_addFile_prettily
    {request next : Request} {files : List String}
    (hadd : files.foldlM addFile request = .ok next) :
    files.foldlM addFile request.prettily = .ok next.prettily := by
  induction files generalizing request with
  | nil =>
      cases hadd
      rfl
  | cons file files ih =>
      rw [List.foldlM_cons] at hadd
      obtain ⟨middle, hmiddle, hlater⟩ := exists_of_bind_eq_ok hadd
      rw [List.foldlM_cons, addFile_prettily hmiddle]
      exact ih hlater

theorem toInvocation_eq_scan
    {request : Request} {options : Options} {file? : Option String}
    (hscan : request.toInvocation = .ok (.scan options file?)) :
    request.settle = .ok request ∧ request.options = options ∧ request.file? = file? := by
  obtain ⟨settled, hsettle, hreturn⟩ := exists_of_bind_eq_ok hscan
  obtain rfl := eq_of_settle hsettle
  cases hreturn
  exact ⟨hsettle, rfl, rfl⟩

theorem toInvocation_prettily
    {request : Request} {time : Bool} {file? : Option String}
    (hscan : request.toInvocation = .ok (.scan ⟨false, time⟩ file?)) :
    request.prettily.toInvocation = .ok (.scan ⟨true, time⟩ file?) := by
  obtain ⟨hsettle, hoptions, hfile⟩ := toInvocation_eq_scan hscan
  rw [toInvocation, settle_prettily hsettle]
  simp [prettily, hoptions, hfile, pure, Except.pure, bind, Except.bind]

/-- How the first argument of a scan is accepted. -/
theorem read_cons_cases
    {request : Request} {argument : String} {arguments : List String} {options : Options}
    {file? : Option String}
    (hread : request.read (argument :: arguments) = .ok (.scan options file?)) :
    (Argument.ofString argument = .separator ∧ ∃ next,
      arguments.foldlM addFile request = .ok next ∧
        next.toInvocation = .ok (.scan options file?)) ∨
    (∃ name next, Argument.ofString argument = .file name ∧ request.addFile name = .ok next ∧
      next.read arguments = .ok (.scan options file?)) ∨
    (∃ flag next, Argument.ofString argument = .flag flag ∧ flag ≠ .help ∧
      request.settle = .ok request ∧ request.addFlag flag = .ok next ∧
        next.read arguments = .ok (.scan options file?)) := by
  cases hargument : Argument.ofString argument with
  | separator =>
      simp only [read, hargument] at hread
      exact .inl ⟨rfl, exists_of_bind_eq_ok hread⟩
  | file name =>
      simp only [read, hargument] at hread
      obtain ⟨next, hadd, hlater⟩ := exists_of_bind_eq_ok hread
      exact .inr (.inl ⟨name, next, rfl, hadd, hlater⟩)
  | refused error =>
      simp only [read, hargument] at hread
      cases hread
  | flag flag =>
      simp only [read, hargument] at hread
      obtain ⟨settled, hsettle, hlater⟩ := exists_of_bind_eq_ok hread
      obtain rfl := eq_of_settle hsettle
      by_cases hhelp : flag = .help
      · rw [if_pos hhelp] at hlater
        cases hlater
      · rw [if_neg hhelp] at hlater
        obtain ⟨next, hadd, hlater⟩ := exists_of_bind_eq_ok hlater
        exact .inr (.inr ⟨flag, next, rfl, hhelp, hsettle, hadd, hlater⟩)

theorem options_of_addFile
    {request next : Request} {file : String} (hadd : request.addFile file = .ok next) :
    next.options = request.options := by
  unfold addFile at hadd
  split at hadd
  · cases hadd
    rfl
  · cases hadd

theorem options_of_foldlM_addFile
    {request next : Request} {files : List String}
    (hadd : files.foldlM addFile request = .ok next) : next.options = request.options := by
  induction files generalizing request with
  | nil =>
      cases hadd
      rfl
  | cons file files ih =>
      rw [List.foldlM_cons] at hadd
      obtain ⟨middle, hmiddle, hlater⟩ := exists_of_bind_eq_ok hadd
      rw [ih hlater, options_of_addFile hmiddle]

theorem pretty_of_addFlag
    {request next : Request} {flag : Flag} (hadd : request.addFlag flag = .ok next)
    (hpretty : request.options.pretty = true) : next.options.pretty = true := by
  unfold addFlag at hadd
  cases flag with
  | help =>
      cases hadd
      exact hpretty
  | pretty =>
      rw [hpretty] at hadd
      cases hadd
  | time =>
      simp only at hadd
      split at hadd
      · cases hadd
      · cases hadd
        exact hpretty

/-- What has been switched on stays on. -/
theorem pretty_of_read
    {request : Request} {arguments : List String} {options : Options} {file? : Option String}
    (hread : request.read arguments = .ok (.scan options file?))
    (hpretty : request.options.pretty = true) : options.pretty = true := by
  induction arguments generalizing request with
  | nil =>
      obtain ⟨-, hoptions, -⟩ := toInvocation_eq_scan hread
      rwa [← hoptions]
  | cons argument arguments ih =>
      rcases read_cons_cases hread with
        ⟨-, next, hadd, hlater⟩ | ⟨name, next, -, hadd, hlater⟩ |
        ⟨flag, next, -, -, -, hadd, hlater⟩
      · obtain ⟨-, hoptions, -⟩ := toInvocation_eq_scan hlater
        rwa [← hoptions, options_of_foldlM_addFile hadd]
      · exact ih hlater (by rwa [options_of_addFile hadd])
      · exact ih hlater (pretty_of_addFlag hadd hpretty)

theorem addFlag_prettily
    {request next : Request} {flag : Flag} (hadd : request.addFlag flag = .ok next)
    (hplain : next.options.pretty = false) :
    request.prettily.addFlag flag = .ok next.prettily := by
  unfold addFlag at hadd
  cases flag with
  | help =>
      cases hadd
      rfl
  | pretty =>
      simp only at hadd
      split at hadd
      · cases hadd
      · cases hadd
        cases hplain
  | time =>
      simp only at hadd
      split at hadd
      · cases hadd
      · next htime =>
        cases hadd
        exact if_neg htime

/-- Arguments that ask for a scan ask for the same scan, shown prettily, once that is switched
on. -/
theorem read_prettily
    {request : Request} {arguments : List String} {time : Bool} {file? : Option String}
    (hread : request.read arguments = .ok (.scan ⟨false, time⟩ file?)) :
    request.prettily.read arguments = .ok (.scan ⟨true, time⟩ file?) := by
  induction arguments generalizing request with
  | nil => exact toInvocation_prettily hread
  | cons argument arguments ih =>
      rcases read_cons_cases hread with
        ⟨hargument, next, hadd, hlater⟩ | ⟨name, next, hargument, hadd, hlater⟩ |
        ⟨flag, next, hargument, hhelp, hsettle, hadd, hlater⟩
      · simp only [read, hargument, foldlM_addFile_prettily hadd]
        exact toInvocation_prettily hlater
      · simp only [read, hargument, addFile_prettily hadd]
        exact ih hlater
      · have hplain : next.options.pretty = false := by
          cases hpretty : next.options.pretty with
          | false => rfl
          | true => cases pretty_of_read hlater hpretty
        have hflag : request.prettily.addFlag flag = .ok next.prettily :=
          addFlag_prettily hadd hplain
        simp only [read, hargument, settle_prettily hsettle]
        change (if flag = .help then _ else _) = _
        rw [if_neg hhelp, hflag]
        exact ih hlater

end Request

theorem Invocation.parse_pretty
    {arguments : List String} {time : Bool} {file? : Option String}
    (hparse : parse arguments = .ok (.scan ⟨false, time⟩ file?)) :
    parse ("--pretty" :: arguments) = .ok (.scan ⟨true, time⟩ file?) := by
  have hread := Request.read_prettily hparse
  exact hread

/-! ## The session -/

theorem goesOn_pretty (time : Bool) (elapsed source : String) :
    Prompt.goesOn ⟨true, time⟩ elapsed source = showable source := by
  cases hshow : showable source with
  | true =>
      have houtcome : Prompt.sourceOutcome ⟨true, time⟩ elapsed source =
          ⟨sourceCode source, printed time elapsed source,
            annotations source Prompt.fileName (scan source).log.toList⟩ :=
        ofReport_pretty hshow Prompt.fileName time elapsed
      simp [Prompt.goesOn, houtcome, sourceCode_ne_failure]
  | false =>
      obtain ⟨stderr, houtcome⟩ :=
        ofReport_pretty_of_not_showable hshow Prompt.fileName time elapsed
      have hcode : (Prompt.sourceOutcome ⟨true, time⟩ elapsed source).exitCode =
          ExitCode.failure := by
        rw [Prompt.sourceOutcome, Prompt.scanLine, houtcome]
      simp [Prompt.goesOn, hcode]

/-- A session that writes sources prints those before the first that cannot be shown. -/
theorem runSession_pretty
    {arguments : List String} {time : Bool} {file? : Option String}
    (harguments : Invocation.parse arguments = .ok (.scan ⟨true, time⟩ file?))
    {read : String → Except ReadFailure ByteArray} {input : ByteArray} {text : String}
    (htext : Supplies read input text file?) (elapsed : String) :
    (runSession arguments read input elapsed).stdout =
        String.join (((sessionSources file? text).takeWhile showable).map
          (printed time elapsed)) ∧
    (runSession arguments read input elapsed).exitCode =
        (if (sessionSources file? text).all showable then sessionCode file? text
          else ExitCode.failure) ∧
    ((sessionSources file? text).all showable = true →
      (runSession arguments read input elapsed).stderr =
        String.join ((sessionSources file? text).map fun source =>
          annotations source (sessionName file?) (scan source).log.toList)) := by
  cases file? with
  | some path =>
      rw [runSession_file harguments htext]
      cases hshow : showable text with
      | true =>
          rw [ofReport_pretty hshow]
          simp [sessionSources, sessionCode, sessionName, hshow]
      | false =>
          obtain ⟨stderr, houtcome⟩ :=
            ofReport_pretty_of_not_showable hshow (baseName path) time elapsed
          rw [houtcome]
          simp [sessionSources, hshow]
  | none =>
      obtain rfl : input = text.toUTF8 := htext
      have hgoes : Prompt.goesOn ⟨true, time⟩ elapsed = showable :=
        funext (goesOn_pretty time elapsed)
      have hstops : ∀ source, Prompt.goesOn ⟨true, time⟩ elapsed source = false →
          (Prompt.sourceOutcome ⟨true, time⟩ elapsed source).stdout = "" := by
        intro source hstops
        rw [hgoes] at hstops
        obtain ⟨stderr, houtcome⟩ :=
          ofReport_pretty_of_not_showable hstops Prompt.fileName time elapsed
        rw [Prompt.sourceOutcome, Prompt.scanLine, houtcome]
      have hshown : ∀ source, showable source = true →
          Prompt.sourceOutcome ⟨true, time⟩ elapsed source =
            ⟨sourceCode source, printed time elapsed source,
              annotations source Prompt.fileName (scan source).log.toList⟩ :=
        fun source hshow => ofReport_pretty hshow Prompt.fileName time elapsed
      obtain ⟨hout, hcode, herr⟩ := Prompt.scanLines_eq ⟨true, time⟩ elapsed
        (decodeLine_sessionSources text) (fun source _ => hstops source)
        ⟨ExitCode.success, "", ""⟩ rfl
      rw [hgoes] at hout hcode herr
      rw [runSession_prompt harguments]
      refine ⟨?_, hcode, ?_⟩
      · rw [hout, String.empty_append]
        refine congrArg String.join (List.map_congr_left fun source hsource => ?_)
        rw [hshown source (List.all_eq_true.mp List.all_takeWhile source hsource)]
      · intro hall
        rw [herr hall, String.empty_append]
        refine congrArg String.join (List.map_congr_left fun source hsource => ?_)
        rw [hshown source (List.all_eq_true.mp hall source hsource)]
        rfl

/-- Asking for the source under each fault changes nothing but the notices, each of which is then
followed by its fault in the source, if every fault can be shown.  Otherwise the session fails at
the first source that has a fault which cannot. -/
theorem pretty_session
    {arguments : List String} {time : Bool} {file? : Option String}
    (harguments : Invocation.parse arguments = .ok (.scan ⟨false, time⟩ file?))
    {read : String → Except ReadFailure ByteArray} {input : ByteArray} {text : String}
    (htext : Supplies read input text file?) (elapsed : String) :
    let sources := sessionSources file? text
    let plain := runSession arguments read input elapsed
    let pretty := runSession ("--pretty" :: arguments) read input elapsed
    plain.stderr = String.join (sources.map fun source => notices (scan source).log.toList) ∧
    (sources.all showable = true →
      pretty.stdout = plain.stdout ∧ pretty.exitCode = plain.exitCode ∧
      (∀ source ∈ sources, ∀ fault ∈ (scan source).log.toList,
        fault.render source (sessionName file?) =
          .ok (fault.rendering source (sessionName file?))) ∧
      pretty.stderr = String.join (sources.map fun source =>
        annotations source (sessionName file?) (scan source).log.toList)) ∧
    (sources.all showable = false →
      pretty.exitCode = ExitCode.failure ∧ plain.exitCode ≠ ExitCode.failure ∧
      plain.stdout = String.join (sources.map (printed time elapsed)) ∧
      pretty.stdout =
        String.join ((sources.takeWhile showable).map (printed time elapsed))) := by
  intro sources plain pretty
  have hplain : plain = _ := runSession_plain harguments htext elapsed
  obtain ⟨hout, hcode, herr⟩ :=
    runSession_pretty (Invocation.parse_pretty harguments) htext elapsed
  rw [hplain]
  refine ⟨rfl, ?_, ?_⟩
  · intro hall
    have hkept := List.takeWhile_eq_self_iff.mpr (List.all_eq_true.mp hall)
    refine ⟨?_, hcode.trans (if_pos hall), ?_, herr hall⟩
    · exact hout.trans (by rw [hkept])
    · intro source hsource fault hfault
      have hshow : showable source = true := List.all_eq_true.mp hall source hsource
      exact Fault.render_of_fits (List.all_eq_true.mp hshow fault hfault) _
  · intro hall
    have hnot : ¬ sources.all showable = true := by simp [hall]
    exact ⟨hcode.trans (if_neg hnot), sessionCode_ne_failure file? text, rfl, hout⟩

theorem pretty_session_at_stray :
    let read : String → Except ReadFailure ByteArray := fun _ => .ok "é = 1\n\t#".toUTF8
    let plain := runSession ["é/a.lox"] read .empty ""
    let pretty := runSession ["--pretty", "é/a.lox"] read .empty ""
    Invocation.parse ["é/a.lox"] = .ok (.scan ⟨false, false⟩ (some "é/a.lox")) ∧
    Supplies read .empty "é = 1\n\t#" (some "é/a.lox") ∧
    pretty.stdout = plain.stdout ∧ pretty.exitCode = plain.exitCode := by
  intro read plain pretty
  have harguments :
      Invocation.parse ["é/a.lox"] = .ok (.scan ⟨false, false⟩ (some "é/a.lox")) := by
    decide +kernel
  have htext : Supplies read .empty "é = 1\n\t#" (some "é/a.lox") := rfl
  have hshow : (sessionSources (some "é/a.lox") "é = 1\n\t#").all showable = true := by
    decide +kernel
  obtain ⟨-, hshown, -⟩ := pretty_session harguments htext ""
  exact ⟨harguments, htext, (hshown hshow).1, (hshown hshow).2.1⟩

/-! ## A long line -/

/-- Letters and a character that begins no token, behind `letters + 1` of them. -/
def longLine (letters : Nat) : String :=
  String.ofList (List.replicate (letters + 1) 'a' ++ ['#'])

theorem cut_longLine (letters : Nat) :
    Segment.cut (longLine letters).toList =
      [.word (List.replicate (letters + 1) 'a'), .stray '#'] := by
  rw [Segment.cut_eq_iff, longLine, String.toList_ofList]
  refine ⟨by simp [Segment.chars], ?_⟩
  have hstray : IsStray '#' := ⟨rfl, by decide, rfl, rfl, rfl⟩
  refine .cons ⟨'a', List.replicate letters 'a', List.replicate_succ, rfl, ?_⟩ ?_
    (.cons hstray trivial .nil)
  · intro c hc
    rw [List.eq_of_mem_replicate hc]
    rfl
  · intro c hc
    cases hc
    rfl

theorem byteLength_replicate (count : Nat) : byteLength (List.replicate count 'a') = count := by
  induction count with
  | zero => rfl
  | succ count ih =>
      have hsize : 'a'.utf8Size = 1 := rfl
      rw [List.replicate_succ, byteLength_cons, ih, hsize, Nat.add_comm]

theorem faults_longLine (letters : Nat) :
    (scan (longLine letters)).log.toList = [⟨.unexpectedCharacter '#', 1, letters + 1⟩] := by
  have hcount : (List.replicate (letters + 1) 'a').count '\n' = 0 := by
    rw [List.count_eq_zero]
    intro hmem
    cases List.eq_of_mem_replicate hmem
  rw [faults_scan, cut_longLine]
  simp [Segment.faultsFrom_cons, Segment.fault?, Segment.chars, Cursor.advance, Cursor.origin,
    byteLength_replicate, hcount]

theorem lineAt?_longLine (letters : Nat) :
    lineAt? (longLine letters).toList (letters + 1) =
      some ⟨1, (longLine letters).toList, letters + 1⟩ := by
  have hpassed : '\n' ∉ List.replicate (letters + 1) 'a' := by
    intro hmem
    cases List.eq_of_mem_replicate hmem
  have hline : '\n' ∉ (longLine letters).toList := by
    simp [longLine]
  have hfind := SourceLine.find?_append hpassed 1 (longLine letters).toList 0 0 ['#']
  rw [byteLength_replicate, Nat.add_zero, Nat.zero_add] at hfind
  rw [lineAt?, longLine, String.toList_ofList]
  rw [longLine, String.toList_ofList] at hfind hline
  rw [hfind, SourceLine.find?, if_pos (by decide), SourceLine.firstLine_of_notMem hline,
    Nat.add_zero]

/-- The number of letters before a character beyond which it cannot be shown. -/
theorem showable_longLine_iff (letters : Nat) :
    showable (longLine letters) = true ↔ letters + 2 ≤ maxCaretColumns := by
  have hindent : SourceLine.indentation ⟨1, (longLine letters).toList, letters + 1⟩ = 0 := by
    simp [SourceLine.indentation, longLine, List.replicate_succ]
  simp only [showable, faults_longLine, List.all_cons, List.all_nil, Bool.and_true, Fault.fits,
    lineAt?_longLine, SourceLine.caretIndent, hindent, decide_eq_true_eq]
  omega

theorem pretty_session_longLine
    {letters : Nat} (hletters : maxCaretColumns < letters + 2) :
    let read : String → Except ReadFailure ByteArray := fun _ => .ok (longLine letters).toUTF8
    let plain := runSession ["a.lox"] read .empty ""
    let pretty := runSession ["--pretty", "a.lox"] read .empty ""
    plain.exitCode = ExitCode.dataError ∧ pretty.exitCode = ExitCode.failure ∧
      pretty.stdout = "" ∧ plain.stdout ≠ "" := by
  intro read plain pretty
  have harguments :
      Invocation.parse ["a.lox"] = .ok (.scan ⟨false, false⟩ (some "a.lox")) := by
    decide +kernel
  have htext : Supplies read .empty (longLine letters) (some "a.lox") := rfl
  have hshow : showable (longLine letters) = false := by
    rw [Bool.eq_false_iff, ne_eq, showable_longLine_iff]
    omega
  have hplain : plain = _ := runSession_plain harguments htext ""
  obtain ⟨hout, hcode, -⟩ := runSession_pretty (Invocation.parse_pretty harguments) htext ""
  refine ⟨?_, ?_, ?_, ?_⟩
  · simp [hplain, sessionCode, sourceCode, faults_longLine]
  · exact hcode.trans (by simp [sessionSources, hshow])
  · exact hout.trans (by simp [sessionSources, hshow])
  · simp [hplain, sessionSources, printed, tokenLines, tokens_scan]

/-- A character behind 65,535 letters is reported, but asking for its source loses the tokens and
the exit code. -/
theorem pretty_session_loses_tokens :
    let read : String → Except ReadFailure ByteArray := fun _ => .ok (longLine 65534).toUTF8
    let plain := runSession ["a.lox"] read .empty ""
    let pretty := runSession ["--pretty", "a.lox"] read .empty ""
    plain.exitCode = ExitCode.dataError ∧ pretty.exitCode = ExitCode.failure ∧
      pretty.stdout = "" ∧ plain.stdout ≠ "" :=
  pretty_session_longLine (by decide)

end LoxLexer
