import LoxLexer.Scan
import LoxLexer.Proofs.MaximalSegment

/-!
# The output of a scan

A scan folds its steps over the segments of the source.  Here its tokens and its faults are written
as two lists that depend on the segments and the cursor they begin at, and on nothing else; the
reporter only sees the second one (`scanWith_eq`).

Both lists are additive in the segments, and moving the cursor moves every token and every fault by
the same lines and bytes.
-/

namespace LoxLexer

theorem byteLength_pos
    {text : List Char} (htext : text ≠ []) : 0 < byteLength text := by
  obtain ⟨c, tail, rfl⟩ := List.exists_cons_of_ne_nil htext
  have hsize := c.utf8Size_pos
  rw [byteLength_cons]
  omega

theorem eq_nil_of_byteLength_append_le
    {front rest : List Char} (hle : byteLength (front ++ rest) ≤ byteLength front) : rest = [] := by
  by_contra hne
  have hpos := byteLength_pos hne
  rw [byteLength_append] at hle
  omega

theorem length_le_byteLength (text : List Char) : text.length ≤ byteLength text := by
  induction text with
  | nil => exact Nat.le_refl _
  | cons c text ih =>
      have hpos := c.utf8Size_pos
      rw [List.length_cons, byteLength_cons]
      omega

theorem byteLength_ofList (text : List Char) :
    byteLength text = (String.ofList text).utf8ByteSize := by
  induction text with
  | nil => rfl
  | cons c text ih =>
      have hcons : String.ofList (c :: text) = String.singleton c ++ String.ofList text := by
        rw [String.singleton_eq_ofList, ← String.ofList_append]
        rfl
      rw [byteLength_cons, ih, hcons, String.utf8ByteSize_append, String.utf8ByteSize_singleton]

theorem byteLength_toList (text : String) : byteLength text.toList = text.utf8ByteSize := by
  rw [byteLength_ofList, String.ofList_toList]

namespace Cursor

/-- The cursor, `bytes` bytes and `lines` lines further on. -/
def move (bytes lines : Nat) (cursor : Cursor) : Cursor :=
  ⟨cursor.position + bytes, cursor.line + lines⟩

theorem advance_move
    (bytes lines : Nat) (cursor : Cursor) (text : List Char) :
    (cursor.move bytes lines).advance text =
      (cursor.advance text).move bytes lines := by
  simp only [move, advance, Cursor.mk.injEq]
  omega

theorem advance_eq_move (cursor : Cursor) (text : List Char) :
    cursor.advance text = cursor.move (byteLength text) (text.count '\n') := rfl

theorem origin_advance_eq_move (text : List Char) :
    origin.advance text = origin.move (byteLength text) (text.count '\n') :=
  advance_eq_move origin text

end Cursor

namespace Token

/-- The token, `lines` lines further down. -/
def move (lines : Nat) (token : Token) : Token :=
  { token with line := token.line + lines }

theorem map_move_zero (tokens : List Token) : tokens.map (move 0) = tokens :=
  List.map_id tokens

@[simp] theorem move_endOfSource (lines line : Nat) :
    (endOfSource line).move lines = endOfSource (line + lines) := rfl

end Token

namespace Fault

/-- The fault, `bytes` bytes and `lines` lines further on. -/
def move (bytes lines : Nat) (fault : Fault) : Fault :=
  { fault with line := fault.line + lines, position := fault.position + bytes }

theorem map_move_zero (faults : List Fault) : faults.map (move 0 0) = faults :=
  List.map_id faults

end Fault

namespace Segment

/-- The tokens of segments that begin at `cursor`. -/
def tokensFrom (cursor : Cursor) : List Segment → List Token
  | [] => []
  | segment :: segments =>
    (segment.token? cursor.line).toList ++
      tokensFrom (cursor.advance segment.chars) segments

/-- The faults of segments that begin at `cursor`. -/
def faultsFrom (cursor : Cursor) : List Segment → List Fault
  | [] => []
  | segment :: segments =>
    (segment.fault? cursor (cursor.advance segment.chars)).toList ++
      faultsFrom (cursor.advance segment.chars) segments

@[simp] theorem tokensFrom_nil (cursor : Cursor) : tokensFrom cursor [] = [] := rfl

@[simp] theorem faultsFrom_nil (cursor : Cursor) : faultsFrom cursor [] = [] := rfl

theorem tokensFrom_cons (cursor : Cursor) (segment : Segment) (segments : List Segment) :
    tokensFrom cursor (segment :: segments) =
      (segment.token? cursor.line).toList ++
        tokensFrom (cursor.advance segment.chars) segments := rfl

theorem faultsFrom_cons (cursor : Cursor) (segment : Segment) (segments : List Segment) :
    faultsFrom cursor (segment :: segments) =
      (segment.fault? cursor (cursor.advance segment.chars)).toList ++
        faultsFrom (cursor.advance segment.chars) segments := rfl

theorem tokensFrom_append
    (cursor : Cursor) (left right : List Segment) :
    tokensFrom cursor (left ++ right) =
      tokensFrom cursor left ++
        tokensFrom (cursor.advance (left.flatMap chars)) right := by
  induction left generalizing cursor with
  | nil => simp
  | cons segment left ih =>
      rw [List.cons_append, tokensFrom_cons, tokensFrom_cons, ih, List.flatMap_cons,
        Cursor.advance_append, List.append_assoc]

theorem faultsFrom_append
    (cursor : Cursor) (left right : List Segment) :
    faultsFrom cursor (left ++ right) =
      faultsFrom cursor left ++
        faultsFrom (cursor.advance (left.flatMap chars)) right := by
  induction left generalizing cursor with
  | nil => simp
  | cons segment left ih =>
      rw [List.cons_append, faultsFrom_cons, faultsFrom_cons, ih, List.flatMap_cons,
        Cursor.advance_append, List.append_assoc]

theorem token?_add
    (segment : Segment) (line lines : Nat) :
    segment.token? (line + lines) = (segment.token? line).map (Token.move lines) := by
  cases segment <;> rfl

theorem fault?_move
    (segment : Segment) (bytes lines : Nat) (start stop : Cursor) :
    segment.fault? (start.move bytes lines) (stop.move bytes lines) =
      (segment.fault? start stop).map (Fault.move bytes lines) := by
  cases segment <;> rfl

theorem tokensFrom_move
    (bytes lines : Nat) (cursor : Cursor) (segments : List Segment) :
    tokensFrom (cursor.move bytes lines) segments =
      (tokensFrom cursor segments).map (Token.move lines) := by
  induction segments generalizing cursor with
  | nil => rfl
  | cons segment segments ih =>
      rw [tokensFrom_cons, tokensFrom_cons, Cursor.advance_move, ih, List.map_append,
        ← Option.toList_map, ← token?_add]
      rfl

theorem faultsFrom_move
    (bytes lines : Nat) (cursor : Cursor) (segments : List Segment) :
    faultsFrom (cursor.move bytes lines) segments =
      (faultsFrom cursor segments).map (Fault.move bytes lines) := by
  induction segments generalizing cursor with
  | nil => rfl
  | cons segment segments ih =>
      rw [faultsFrom_cons, faultsFrom_cons, Cursor.advance_move, ih, List.map_append,
        ← Option.toList_map, ← fault?_move]

/-! ## Where faults lie -/

theorem position_of_fault?
    {segment : Segment} {start stop : Cursor} {fault : Fault}
    (hfault : segment.fault? start stop = some fault) :
    fault.position = start.position := by
  cases segment <;> cases hfault <;> rfl

theorem exists_of_mem_faultsFrom
    {cursor : Cursor} {segments : List Segment} {fault : Fault}
    (hfault : fault ∈ faultsFrom cursor segments) :
    ∃ before segment after, segments = before ++ segment :: after ∧
      segment.fault? (cursor.advance (before.flatMap chars))
        ((cursor.advance (before.flatMap chars)).advance segment.chars) = some fault := by
  induction segments generalizing cursor with
  | nil => cases hfault
  | cons first segments ih =>
      rw [faultsFrom_cons] at hfault
      rcases List.mem_append.mp hfault with hhere | hlater
      · exact ⟨[], first, segments, rfl, by simpa using hhere⟩
      · obtain ⟨before, segment, after, rfl, hsegment⟩ := ih hlater
        refine ⟨first :: before, segment, after, rfl, ?_⟩
        rwa [List.flatMap_cons, Cursor.advance_append]

theorem exists_char_of_mem_faultsFrom
    {segments : List Segment} (hsome : ∀ segment ∈ segments, segment.chars ≠ [])
    (cursor : Cursor) :
    ∀ fault ∈ faultsFrom cursor segments,
      ∃ passed c after, segments.flatMap chars = passed ++ c :: after ∧
        fault.position = cursor.position + byteLength passed := by
  intro fault hfault
  obtain ⟨before, segment, after, rfl, hsegment⟩ := exists_of_mem_faultsFrom hfault
  obtain ⟨c, tail, hchars⟩ := List.exists_cons_of_ne_nil (hsome segment (by simp))
  refine ⟨before.flatMap chars, c, tail ++ after.flatMap chars, ?_, position_of_fault? hsegment⟩
  rw [List.flatMap_append, List.flatMap_cons, hchars, List.cons_append]

theorem Fitted.exists_char_of_mem_faultsFrom
    {segments : List Segment} (hfitted : Fitted segments) (cursor : Cursor) :
    ∀ fault ∈ faultsFrom cursor segments,
      ∃ passed c after, segments.flatMap chars = passed ++ c :: after ∧
        fault.position = cursor.position + byteLength passed :=
  Segment.exists_char_of_mem_faultsFrom hfitted.chars_ne_nil_of_mem cursor

theorem Fitted.position_le_of_mem_faultsFrom
    {segments : List Segment} (hfitted : Fitted segments) {cursor : Cursor} {fault : Fault}
    (hfault : fault ∈ faultsFrom cursor segments) : cursor.position ≤ fault.position := by
  obtain ⟨passed, -, -, -, hposition⟩ :=
    hfitted.exists_char_of_mem_faultsFrom cursor fault hfault
  omega

theorem Fitted.pairwise_position
    {segments : List Segment} (hfitted : Fitted segments) (cursor : Cursor) :
    (faultsFrom cursor segments).Pairwise fun first second =>
      first.position < second.position := by
  induction hfitted generalizing cursor with
  | nil => exact .nil
  | @cons segment segments hlegal _ hfitted ih =>
      rw [faultsFrom_cons, List.pairwise_append]
      refine ⟨?_, ih _, ?_⟩
      · cases segment.fault? cursor (cursor.advance segment.chars) <;> simp
      · intro first hfirst second hsecond
        have hstart := position_of_fault? (Option.mem_toList.mp hfirst)
        obtain ⟨passed, -, -, -, hlater⟩ :=
          hfitted.exists_char_of_mem_faultsFrom _ second hsecond
        have hpos := byteLength_pos hlegal.chars_ne_nil
        simp only [Cursor.advance] at hlater
        omega

theorem Fitted.eq_nil_of_openString
    {body : List Char} {segments : List Segment}
    (hfitted : Fitted (.openString body :: segments)) : segments = [] := by
  cases hfitted with
  | cons hlegal _ hrest =>
      obtain ⟨-, hnil⟩ := hlegal
      cases hrest with
      | nil => rfl
      | cons hfirst _ _ =>
          rw [List.flatMap_cons, List.append_eq_nil_iff] at hnil
          exact (hfirst.chars_ne_nil hnil.1).elim

/-- Only the last fault can be an unterminated string. -/
theorem Fitted.cause_of_mem_dropLast
    {segments : List Segment} (hfitted : Fitted segments) (cursor : Cursor) :
    ∀ fault ∈ (faultsFrom cursor segments).dropLast,
      fault.cause ≠ .unterminatedString := by
  induction hfitted generalizing cursor with
  | nil => simp
  | @cons segment segments hlegal hmax hfitted ih =>
      rw [faultsFrom_cons]
      cases hlater : faultsFrom (cursor.advance segment.chars) segments with
      | nil =>
          cases segment.fault? cursor (cursor.advance segment.chars) <;> simp
      | cons next later =>
          rw [List.dropLast_append_of_ne_nil (by simp), ← hlater]
          intro fault hmem
          rcases List.mem_append.mp hmem with hhere | hmem
          · rw [Option.mem_toList] at hhere
            cases segment with
            | openString body =>
                obtain rfl := (Fitted.cons hlegal hmax hfitted).eq_nil_of_openString
                cases hlater
            | stray c =>
                cases hhere
                simp
            | _ => cases hhere
          · exact ih _ fault hmem

end Segment

/-! ## The fold -/

open Segment

theorem Progress.foldl_step_cursor
    {σ : Type} (report : Reporter σ) (progress : Progress σ) (segments : List Segment) :
    (segments.foldl (Progress.step report) progress).cursor =
      progress.cursor.advance (segments.flatMap Segment.chars) := by
  induction segments generalizing progress with
  | nil => simp
  | cons segment segments ih =>
      rw [List.foldl_cons, ih, List.flatMap_cons, Cursor.advance_append]
      rfl

theorem Progress.foldl_step_tokens
    {σ : Type} (report : Reporter σ) (progress : Progress σ) (segments : List Segment) :
    (segments.foldl (Progress.step report) progress).tokens.toList =
      progress.tokens.toList ++ tokensFrom progress.cursor segments := by
  induction segments generalizing progress with
  | nil => simp
  | cons segment segments ih =>
      rw [List.foldl_cons, ih, tokensFrom_cons]
      simp [Progress.step, List.append_assoc]

theorem Progress.foldl_step_log
    {σ : Type} (report : Reporter σ) (progress : Progress σ) (segments : List Segment) :
    (segments.foldl (Progress.step report) progress).log =
      (faultsFrom progress.cursor segments).foldl report progress.log := by
  induction segments generalizing progress with
  | nil => simp
  | cons segment segments ih =>
      rw [List.foldl_cons, ih, faultsFrom_cons, List.foldl_append]
      rfl

/-- The token for the end of a source lies on its last line. -/
def lastLine (source : List Char) : Nat :=
  1 + source.count '\n'

/-- A reporter sees the faults in order and has no part in the tokens. -/
theorem scanWith_eq
    {σ : Type} (report : Reporter σ) (log : σ) (source : String) :
    scanWith report log source =
      ⟨tokensFrom .origin (cut source.toList) ++ [.endOfSource (lastLine source.toList)],
        (faultsFrom .origin (cut source.toList)).foldl report log⟩ := by
  unfold scanWith Progress.finish
  rw [Array.toList_push, Progress.foldl_step_tokens, Progress.foldl_step_log,
    Progress.foldl_step_cursor, flatMap_chars_cut]
  rfl

theorem tokens_scan (source : String) :
    (scan source).tokens =
      tokensFrom .origin (cut source.toList) ++ [.endOfSource (lastLine source.toList)] := by
  rw [scan, scanWith_eq]

theorem tokens_dropLast_scan (source : String) :
    (scan source).tokens.dropLast = tokensFrom .origin (cut source.toList) := by
  rw [tokens_scan, List.dropLast_concat]

theorem FaultLog.toList_foldl_report (log : FaultLog) (faults : List Fault) :
    (faults.foldl FaultLog.report log).toList = log.toList ++ faults := by
  induction faults generalizing log with
  | nil => simp
  | cons fault faults ih => rw [List.foldl_cons, ih]; simp

theorem faults_scan (source : String) :
    (scan source).log.toList = faultsFrom .origin (cut source.toList) := by
  rw [scan, scanWith_eq, FaultLog.toList_foldl_report]
  rfl

/-- Tokenizing fails with the faults of the scan if there are any, and otherwise gives its
tokens. -/
theorem tokenize_eq (source : String) :
    tokenize source =
      if (scan source).log.toList = [] then .ok (scan source).tokens
      else .error (scan source).log.toList := by
  unfold tokenize
  by_cases hnone : (scan source).log.toList = []
  · have hfault : ¬ (scan source).log.hasFault = true := by
      rw [FaultLog.hasFault_iff]
      exact not_not.mpr hnone
    simp [hfault, hnone]
  · have hfault := (FaultLog.hasFault_iff (scan source).log).mpr hnone
    simp [hfault, hnone]

end LoxLexer
