import LoxLexer.Proofs.PromptLines
import LoxLexer.Proofs.ScanOutput

/-!
# The output of a session

A session shows its sources one after another: a file is one source, and the prompt has one in each
line of its input.  What a source prints depends on its scan alone.  Its faults are written as their
notices, each followed by the fault in its source if that is wanted; then writing them can fail, as
showing all of them in turn does (`Fault.renderAll_eq_ok_iff`), and a session that fails ends there.

The outcomes of one source are `ofReport_plain` and `ofReport_pretty`; `Prompt.scanLines_eq` puts
those of a prompt together.
-/

namespace LoxLexer

theorem decodeText_toUTF8 (text : String) : decodeText text.toUTF8 = .ok text := by
  rw [decodeText, String.fromUTF8?, String.toUTF8_eq_toByteArray, dif_pos text.isValidUTF8]
  rfl

/-! ## Faults -/

def notices (faults : List Fault) : String :=
  String.join (faults.map Fault.notice)

theorem notices_append (first second : List Fault) :
    notices (first ++ second) = notices first ++ notices second := by
  simp [notices]

/-- What shows a fault in its source, if it can be shown. -/
def Fault.rendering (source fileName : String) (fault : Fault) : String :=
  match fault.render source fileName with
  | .ok text => text
  | .error _ => ""

/-- The notices of faults, each followed by the fault in its source. -/
def annotations (source fileName : String) (faults : List Fault) : String :=
  String.join (faults.map fun fault => fault.notice ++ fault.rendering source fileName)

/-- Whether the caret of a fault can be drawn in a source. -/
def Fault.fits (source : String) (fault : Fault) : Bool :=
  match lineAt? source.toList fault.position with
  | none => true
  | some line => line.caretIndent + 1 ≤ maxCaretColumns

def showable (source : String) : Bool :=
  (scan source).log.toList.all (·.fits source)

theorem Fault.render_of_fits
    {fault : Fault} {source : String} (hfits : fault.fits source = true) (fileName : String) :
    fault.render source fileName = .ok (fault.rendering source fileName) := by
  have hok : ∃ text, fault.render source fileName = .ok text := by
    cases hline : lineAt? source.toList fault.position with
    | none =>
        simp only [Fault.render, hline]
        exact ⟨_, rfl⟩
    | some line =>
        simp only [Fault.fits, hline, decide_eq_true_eq] at hfits
        simp only [Fault.render, hline]
        exact ⟨_, if_neg (Nat.not_lt.mpr hfits)⟩
  obtain ⟨text, htext⟩ := hok
  rw [Fault.rendering, htext]

theorem Fault.render_of_not_fits
    {fault : Fault} {source : String} (hfits : fault.fits source = false) (fileName : String) :
    ∃ overflow, fault.render source fileName = .error overflow := by
  cases hline : lineAt? source.toList fault.position with
  | none =>
      simp only [Fault.fits, hline] at hfits
      cases hfits
  | some line =>
      simp only [Fault.fits, hline, decide_eq_false_iff_not, Nat.not_le] at hfits
      simp only [Fault.render, hline]
      exact ⟨_, if_pos hfits⟩

theorem Fault.renderAll_cons (fault : Fault) (faults : List Fault) (source fileName : String) :
    renderAll (fault :: faults) source fileName =
      fault.render source fileName >>= fun text =>
        (renderAll faults source fileName).map (text :: ·) := by
  rw [renderAll, List.mapM_cons]
  rfl

/-- Faults are shown in turn exactly if each of them can be shown. -/
theorem Fault.renderAll_eq_ok_iff
    {faults : List Fault} {source fileName : String} {texts : List String} :
    renderAll faults source fileName = .ok texts ↔
      faults.all (·.fits source) = true ∧ texts = faults.map (rendering source fileName) := by
  induction faults generalizing texts with
  | nil =>
      have hnil : renderAll [] source fileName = .ok [] := rfl
      simp [hnil, eq_comm]
  | cons fault faults ih =>
      rw [renderAll_cons]
      cases hfits : fault.fits source with
      | false =>
          obtain ⟨overflow, hrender⟩ := render_of_not_fits hfits fileName
          simp [hrender, hfits, bind, Except.bind]
      | true =>
          rw [render_of_fits hfits, List.all_cons, hfits, Bool.true_and, List.map_cons]
          change (renderAll faults source fileName).map (rendering source fileName fault :: ·) =
            .ok texts ↔ _
          cases hlater : renderAll faults source fileName with
          | error overflow =>
              simp only [Except.map, reduceCtorEq, false_iff]
              rintro ⟨hall, -⟩
              cases hlater.symm.trans (ih.mpr ⟨hall, rfl⟩)
          | ok later =>
              obtain ⟨hall, rfl⟩ := ih.mp hlater
              simp [Except.map, hall, eq_comm]

namespace FaultOutput

theorem foldl_report_plain
    (time : Bool) (source fileName : String) (faults : List Fault)
    (output : FaultOutput) (hgoing : output.overflow? = none) :
    faults.foldl (report ⟨false, time⟩ source fileName) output =
      ⟨output.text ++ notices faults, output.hasFault || !faults.isEmpty, none⟩ := by
  induction faults generalizing output with
  | nil =>
      obtain ⟨text, hasFault, overflow⟩ := output
      cases hgoing
      simp [notices]
  | cons fault faults ih =>
      have hstep : report ⟨false, time⟩ source fileName output fault =
          ⟨output.text ++ fault.notice, true, none⟩ := by
        simp [report, hgoing]
      rw [List.foldl_cons, hstep, ih _ rfl]
      simp [notices, String.append_assoc]

theorem foldl_report_pretty
    (time : Bool) {source : String} (fileName : String)
    {faults : List Fault} (hfits : faults.all (·.fits source) = true)
    (output : FaultOutput) (hgoing : output.overflow? = none) :
    faults.foldl (report ⟨true, time⟩ source fileName) output =
      ⟨output.text ++ annotations source fileName faults,
        output.hasFault || !faults.isEmpty, none⟩ := by
  induction faults generalizing output with
  | nil =>
      obtain ⟨text, hasFault, overflow⟩ := output
      cases hgoing
      simp [annotations]
  | cons fault faults ih =>
      rw [List.all_cons, Bool.and_eq_true] at hfits
      have hstep : report ⟨true, time⟩ source fileName output fault =
          ⟨output.text ++ fault.notice ++ fault.rendering source fileName, true, none⟩ := by
        simp [report, hgoing, Fault.render_of_fits hfits.1]
      rw [List.foldl_cons, hstep, ih hfits.2 _ rfl]
      simp [annotations, String.append_assoc]

theorem foldl_report_of_overflow
    {options : Options} {source fileName : String} {output : FaultOutput}
    {overflow : CaretOverflow} (hover : output.overflow? = some overflow) (faults : List Fault) :
    faults.foldl (report options source fileName) output = output := by
  induction faults with
  | nil => rfl
  | cons fault faults ih =>
      have hstep : report options source fileName output fault = output := by
        simp [report, hover]
      rw [List.foldl_cons, hstep, ih]

/-- A scan is given up for the reason for which its faults cannot all be shown. -/
theorem overflow_foldl_report
    (time : Bool) (source fileName : String) (faults : List Fault)
    (output : FaultOutput) (hgoing : output.overflow? = none) :
    (faults.foldl (report ⟨true, time⟩ source fileName) output).overflow? =
      match Fault.renderAll faults source fileName with
      | .ok _ => none
      | .error overflow => some overflow := by
  induction faults generalizing output with
  | nil => exact hgoing
  | cons fault faults ih =>
      rw [List.foldl_cons, Fault.renderAll_cons]
      cases hrender : fault.render source fileName with
      | error overflow =>
          have hstep : (report ⟨true, time⟩ source fileName output fault).overflow? =
              some overflow := by
            simp [report, hgoing, hrender]
          rw [foldl_report_of_overflow hstep, hstep]
          rfl
      | ok text =>
          have hstep : (report ⟨true, time⟩ source fileName output fault).overflow? = none := by
            simp [report, hgoing, hrender]
          rw [ih _ hstep]
          cases Fault.renderAll faults source fileName <;> rfl

end FaultOutput

/-! ## One source -/

/-- The text of tokens, each on a line of its own as long as none of them holds a line feed. -/
def tokenLines (tokens : List Token) : String :=
  String.join (tokens.map fun token => token.text ++ "\n")

@[simp] theorem tokenLines_nil : tokenLines [] = "" := rfl

def printed (time : Bool) (elapsed source : String) : String :=
  (if time then "Tokenized in " ++ elapsed ++ "\n" else "") ++ tokenLines (scan source).tokens

/-- The exit code for a source whose faults can be written. -/
def sourceCode (source : String) : UInt32 :=
  if (scan source).log.toList = [] then ExitCode.success else ExitCode.dataError

theorem sourceCode_ne_failure (source : String) : sourceCode source ≠ ExitCode.failure := by
  unfold sourceCode
  split <;> decide

theorem ofSource_eq (options : Options) (source fileName : String) :
    Report.ofSource options source fileName =
      ⟨(scan source).tokens,
        (scan source).log.toList.foldl (FaultOutput.report options source fileName) .empty⟩ := by
  rw [Report.ofSource, scanWith_eq, tokens_scan, faults_scan]

theorem ofReport_of_written
    {options : Options} {source fileName text : String}
    (hwritten : (scan source).log.toList.foldl
      (FaultOutput.report options source fileName) .empty =
        ⟨text, !(scan source).log.toList.isEmpty, none⟩) (elapsed : String) :
    Outcome.ofReport options elapsed (.ofSource options source fileName) =
      ⟨sourceCode source, printed options.time elapsed source, text⟩ := by
  rw [ofSource_eq, hwritten, Outcome.ofReport]
  cases hfaults : (scan source).log.toList with
  | nil => simp [sourceCode, hfaults, Report.text, Report.tokenText, printed, tokenLines]
  | cons fault faults =>
      simp [sourceCode, hfaults, Report.text, Report.tokenText, printed, tokenLines]

theorem ofReport_plain (time : Bool) (elapsed source fileName : String) :
    Outcome.ofReport ⟨false, time⟩ elapsed (.ofSource ⟨false, time⟩ source fileName) =
      ⟨sourceCode source, printed time elapsed source, notices (scan source).log.toList⟩ := by
  have hwritten :=
    FaultOutput.foldl_report_plain time source fileName (scan source).log.toList .empty rfl
  exact ofReport_of_written (by simpa [FaultOutput.empty] using hwritten) elapsed

theorem ofReport_pretty
    {source : String} (hshow : showable source = true) (fileName : String)
    (time : Bool) (elapsed : String) :
    Outcome.ofReport ⟨true, time⟩ elapsed (.ofSource ⟨true, time⟩ source fileName) =
      ⟨sourceCode source, printed time elapsed source,
        annotations source fileName (scan source).log.toList⟩ := by
  have hwritten := FaultOutput.foldl_report_pretty time fileName hshow .empty rfl
  exact ofReport_of_written (by simpa [FaultOutput.empty] using hwritten) elapsed

theorem ofReport_pretty_of_not_showable
    {source : String} (hshow : showable source = false) (fileName : String)
    (time : Bool) (elapsed : String) :
    ∃ stderr, Outcome.ofReport ⟨true, time⟩ elapsed (.ofSource ⟨true, time⟩ source fileName) =
      ⟨ExitCode.failure, "", stderr⟩ := by
  have hover := FaultOutput.overflow_foldl_report time source fileName (scan source).log.toList
    .empty rfl
  cases hrender : Fault.renderAll (scan source).log.toList source fileName with
  | ok texts =>
      have hfits : showable source = true := (Fault.renderAll_eq_ok_iff.mp hrender).1
      rw [hshow] at hfits
      cases hfits
  | error overflow =>
      rw [hrender] at hover
      rw [ofSource_eq, Outcome.ofReport]
      exact ⟨_, by rw [hover]⟩

/-! ## The prompt -/

namespace Prompt

def sourceOutcome (options : Options) (elapsed source : String) : Outcome :=
  .ofReport options elapsed (scanLine options source)

/-- Whether the prompt goes on behind a source. -/
def goesOn (options : Options) (elapsed source : String) : Bool :=
  (sourceOutcome options elapsed source).exitCode ≠ ExitCode.failure

theorem scanLines_cons
    {line : ByteArray} {source : String} (hline : decodeLine line = .ok source)
    (options : Options) (elapsed : String) (done : Outcome) (lines : List ByteArray) :
    scanLines options elapsed done (line :: lines) =
      if goesOn options elapsed source then
        scanLines options elapsed
          ⟨ExitCode.success, done.stdout ++ (sourceOutcome options elapsed source).stdout,
            done.stderr ++ (sourceOutcome options elapsed source).stderr⟩ lines
      else done.append (sourceOutcome options elapsed source) := by
  rw [scanLines, hline]
  change (if (sourceOutcome options elapsed source).exitCode = ExitCode.failure then _ else _) = _
  by_cases hfailure : (sourceOutcome options elapsed source).exitCode = ExitCode.failure
  · rw [if_pos hfailure, if_neg (by simpa [goesOn] using hfailure)]
    rfl
  · rw [if_neg hfailure, if_pos (by simpa [goesOn] using hfailure)]
    rfl

/-- The prompt shows its sources up to the first whose faults cannot be shown. -/
theorem scanLines_eq
    (options : Options) (elapsed : String) {lines : List ByteArray} {sources : List String}
    (hdecode : lines.map decodeLine = sources.map .ok)
    (hstdout : ∀ source ∈ sources, goesOn options elapsed source = false →
      (sourceOutcome options elapsed source).stdout = "")
    (done : Outcome) (hdone : done.exitCode = ExitCode.success) :
    (scanLines options elapsed done lines).stdout =
        done.stdout ++ String.join ((sources.takeWhile (goesOn options elapsed)).map
          fun source => (sourceOutcome options elapsed source).stdout) ∧
    (scanLines options elapsed done lines).exitCode =
        (if sources.all (goesOn options elapsed) then ExitCode.success else ExitCode.failure) ∧
    (sources.all (goesOn options elapsed) = true →
      (scanLines options elapsed done lines).stderr =
        done.stderr ++ String.join (sources.map
          fun source => (sourceOutcome options elapsed source).stderr)) := by
  induction sources generalizing lines done with
  | nil =>
      rw [List.map_nil, List.map_eq_nil_iff] at hdecode
      subst lines
      simpa [scanLines] using hdone
  | cons source sources ih =>
      rw [List.map_cons, List.map_eq_cons_iff] at hdecode
      obtain ⟨line, later, rfl, hline, hlater⟩ := hdecode
      have hnext : ∀ other ∈ sources, goesOn options elapsed other = false →
          (sourceOutcome options elapsed other).stdout = "" :=
        fun other hother => hstdout other (List.mem_cons_of_mem source hother)
      rw [scanLines_cons hline]
      cases hgoes : goesOn options elapsed source with
      | true =>
          obtain ⟨hout, hcode, herr⟩ := ih hlater hnext ⟨ExitCode.success,
            done.stdout ++ (sourceOutcome options elapsed source).stdout,
            done.stderr ++ (sourceOutcome options elapsed source).stderr⟩ rfl
          rw [if_pos rfl, hout, hcode, List.takeWhile_cons_of_pos hgoes, List.all_cons, hgoes,
            Bool.true_and]
          refine ⟨by simp [String.append_assoc], rfl, ?_⟩
          intro hall
          rw [herr hall]
          simp [String.append_assoc]
      | false =>
          have hfailure : (sourceOutcome options elapsed source).exitCode = ExitCode.failure := by
            simpa [goesOn] using hgoes
          have hempty := hstdout source List.mem_cons_self hgoes
          rw [if_neg (by simp), List.takeWhile_cons_of_neg (by simp [hgoes]), List.all_cons,
            hgoes]
          simp [Outcome.append, hfailure, hempty]

end Prompt

/-! ## The sources of a session -/

/-- The sources of a session that is given a text: a file as a whole, or each line of the standard
input. -/
def sessionSources (file? : Option String) (text : String) : List String :=
  match file? with
  | some _ => [text]
  | none => (promptLines text.toList).map String.ofList

def sessionName : (file? : Option String) → String
  | some path => baseName path
  | none => Prompt.fileName

/-- The exit code of a session whose faults can all be written. -/
def sessionCode (file? : Option String) (text : String) : UInt32 :=
  match file? with
  | some _ => sourceCode text
  | none => ExitCode.success

theorem sessionCode_ne_failure (file? : Option String) (text : String) :
    sessionCode file? text ≠ ExitCode.failure := by
  cases file? with
  | none => exact show ExitCode.success ≠ ExitCode.failure by decide
  | some path => exact sourceCode_ne_failure text

/-- The session is given the text, in its file or on the standard input. -/
def Supplies (read : String → Except ReadFailure ByteArray) (input : ByteArray) (text : String) :
    (file? : Option String) → Prop
  | some path => read path = .ok text.toUTF8
  | none => input = text.toUTF8

theorem runSession_file
    {arguments : List String} {options : Options} {path : String}
    (harguments : Invocation.parse arguments = .ok (.scan options (some path)))
    {read : String → Except ReadFailure ByteArray} {text : String}
    (htext : read path = .ok text.toUTF8) (input : ByteArray) (elapsed : String) :
    runSession arguments read input elapsed =
      .ofReport options elapsed (.ofSource options text (baseName path)) := by
  have hcontent : (read path >>= decodeText) = .ok text := by
    rw [htext]
    exact decodeText_toUTF8 text
  simp only [runSession, harguments, scanFile, hcontent]

theorem runSession_prompt
    {arguments : List String} {options : Options}
    (harguments : Invocation.parse arguments = .ok (.scan options none))
    (read : String → Except ReadFailure ByteArray) (text elapsed : String) :
    runSession arguments read text.toUTF8 elapsed =
      Prompt.scanLines options elapsed ⟨ExitCode.success, "", ""⟩ (Prompt.lines text.toUTF8) := by
  simp only [runSession, harguments, Prompt.scan]

theorem decodeLine_sessionSources (text : String) :
    (Prompt.lines text.toUTF8).map Prompt.decodeLine = (sessionSources none text).map .ok := by
  rw [Prompt.decodeLine_lines, sessionSources, List.map_map]
  rfl

/-- A session that writes no sources shows all it is given. -/
theorem runSession_plain
    {arguments : List String} {time : Bool} {file? : Option String}
    (harguments : Invocation.parse arguments = .ok (.scan ⟨false, time⟩ file?))
    {read : String → Except ReadFailure ByteArray} {input : ByteArray} {text : String}
    (htext : Supplies read input text file?) (elapsed : String) :
    runSession arguments read input elapsed =
      ⟨sessionCode file? text,
        String.join ((sessionSources file? text).map (printed time elapsed)),
        String.join ((sessionSources file? text).map
          fun source => notices (scan source).log.toList)⟩ := by
  cases file? with
  | some path =>
      rw [runSession_file harguments htext, ofReport_plain]
      simp [sessionCode, sessionSources]
  | none =>
      obtain rfl : input = text.toUTF8 := htext
      have houtcome : ∀ source, Prompt.sourceOutcome ⟨false, time⟩ elapsed source =
          ⟨sourceCode source, printed time elapsed source, notices (scan source).log.toList⟩ :=
        fun source => ofReport_plain time elapsed source Prompt.fileName
      have hgoes : ∀ source, Prompt.goesOn ⟨false, time⟩ elapsed source = true := by
        intro source
        simp [Prompt.goesOn, houtcome, sourceCode_ne_failure]
      obtain ⟨hout, hcode, herr⟩ := Prompt.scanLines_eq ⟨false, time⟩ elapsed
        (decodeLine_sessionSources text) (fun source _ hstops => by simp [hgoes] at hstops)
        ⟨ExitCode.success, "", ""⟩ rfl
      have hall : (sessionSources none text).all (Prompt.goesOn ⟨false, time⟩ elapsed) = true :=
        List.all_eq_true.mpr fun source _ => hgoes source
      have hkept := List.takeWhile_eq_self_iff.mpr
        fun source (_ : source ∈ sessionSources none text) => hgoes source
      rw [hkept] at hout
      rw [if_pos hall] at hcode
      rw [runSession_prompt harguments, Outcome.mk.injEq]
      refine ⟨hcode, ?_, ?_⟩
      · rw [hout]
        simp [houtcome]
      · rw [herr hall]
        simp [houtcome]

end LoxLexer
