import LoxLexer.Proofs.Lookahead

/-!
# Hidden contents

What stands in a comment shows nowhere, and what stands between two quotes shows only in the token of
its string.  All that a scan learns from either is how far it has come: how many bytes have gone by,
and in a string how many lines.  So two sources that differ there have the same tokens and faults
around it, moved by the difference.

A comment is put at the end of a line here, and its line feed is kept.  If the text before is in a
comment already, that one grows, and the segments before it do not notice.
-/

namespace LoxLexer

open Segment

/-- Behind the text the scanner is in a comment. -/
def EndsInComment (text : List Char) : Prop :=
  ∃ body, [.comment body] <:+ cut text

/-- The text ends with a slash that is a token. -/
def EndsWithSlash (text : List Char) : Prop :=
  [.operator .slash] <:+ cut text

/-- The fault, moved if it lies at `place` or behind. -/
def Fault.moveFrom (place bytes lines : Nat) (fault : Fault) : Fault :=
  if fault.position < place then fault else fault.move bytes lines

theorem Fault.map_moveFrom_append
    {place : Nat} {earlier later : List Fault}
    (hearlier : ∀ fault ∈ earlier, fault.position < place)
    (hlater : ∀ fault ∈ later, place ≤ fault.position) (bytes lines : Nat) :
    (earlier ++ later).map (moveFrom place bytes lines) =
      earlier ++ later.map (move bytes lines) := by
  have hstay : earlier.map (moveFrom place bytes lines) = earlier.map id :=
    List.map_congr_left fun fault hfault => if_pos (hearlier fault hfault)
  have hmove : later.map (moveFrom place bytes lines) = later.map (move bytes lines) :=
    List.map_congr_left fun fault hfault => if_neg (Nat.not_lt.mpr (hlater fault hfault))
  rw [List.map_append, hstay, hmove, List.map_id]

/-! ## Comments -/

/-- Nothing, or a comment up to the end of its line. -/
def IsHidden (text : List Char) : Prop :=
  text = [] ∨ ∃ body, '\n' ∉ body ∧ text = '/' :: '/' :: body

theorem IsHidden.lineFeed_notMem
    {hidden : List Char} (hhidden : IsHidden hidden) : '\n' ∉ hidden := by
  rcases hhidden with rfl | ⟨body, hbody, rfl⟩
  · simp
  · simpa using hbody

namespace Segment

theorem cut_comment_line
    {body : List Char} (hbody : '\n' ∉ body) (rest : List Char) :
    cut ('/' :: '/' :: body ++ '\n' :: rest) = .comment body :: cut ('\n' :: rest) := by
  have hlegal : (Segment.comment body).LegalBefore ('\n' :: rest) := hbody
  have hmax : (Segment.comment body).MaximalBefore ('\n' :: rest) := by
    intro c hc
    cases hc
    rfl
  exact cut_append_of_maximal hlegal hmax

/-- The segments `kept` do not notice the text `hidden` behind `left`, which comments take in. -/
structure Hides
    (left hidden rest : List Char) (kept comments : List Segment) : Prop where
  comment_only : ∀ segment ∈ comments, ∃ body, segment = .comment body
  text_eq : (kept ++ comments).flatMap chars = left ++ hidden
  cut_eq : cut (left ++ hidden ++ '\n' :: rest) = kept ++ comments ++ cut ('\n' :: rest)

theorem exists_hides_of_endsInComment
    {left : List Char} (hends : EndsInComment left) (rest : List Char) :
    ∃ kept, ∀ hidden, IsHidden hidden → ∃ comments, Hides left hidden rest kept comments := by
  obtain ⟨body, kept, hcut⟩ := hends
  have hleft := flatMap_chars_cut left
  have hfitted := fitted_cut left
  rw [← hcut] at hleft hfitted
  have hbody : '\n' ∉ body := by
    cases hfitted.of_append with
    | cons hlegal _ _ => exact hlegal
  refine ⟨kept, fun hidden hhidden => ⟨[.comment (body ++ hidden)], ?_, ?_, ?_⟩⟩
  · simp
  · rw [← hleft]
    simp [chars]
  · -- the comment that is open goes on up to the line feed
    have hmore : '\n' ∉ body ++ hidden := by
      simpa using ⟨hbody, hhidden.lineFeed_notMem⟩
    have hsettled := cut_append_of_settled hcut.symm (by simp [chars]) (by simp [chars])
      (hidden ++ '\n' :: rest)
    have hcomment := cut_comment_line hmore rest
    rw [List.append_assoc, hsettled, List.append_assoc kept, List.singleton_append, ← hcomment]
    simp [chars]

theorem exists_hides_of_not_endsInComment
    {left : List Char} (hclosed : ∀ body, .openString body ∉ cut left)
    (hends : ¬ EndsInComment left) (hslash : ¬ EndsWithSlash left) (rest : List Char) :
    ∃ kept, ∀ hidden, IsHidden hidden → ∃ comments, Hides left hidden rest kept comments := by
  -- neither a slash nor a line feed continues the segment before it
  have happend : ∀ {right : List Char} {c : Char}, right.head? = some c → c ∈ ['/', '\n'] →
      cut (left ++ right) = cut left ++ cut right := by
    intro right c hhead hc
    apply (cut_append_iff hclosed right).mpr
    apply not_fuses_of_head hhead
    · fin_cases hc <;> rfl
    · rintro rfl
      simp at hc
    · rintro rfl
      simp at hc
    · exact fun _ body hcomment => hends ⟨body, hcomment⟩
    · exact fun _ => hslash
  refine ⟨cut left, fun hidden hhidden => ?_⟩
  rcases hhidden with rfl | ⟨body, hbody, rfl⟩
  · refine ⟨[], by simp, by simp [flatMap_chars_cut], ?_⟩
    rw [List.append_nil, List.append_nil]
    exact happend rfl (by simp)
  · refine ⟨[.comment body], by simp, by simp [flatMap_chars_cut, chars], ?_⟩
    rw [List.append_assoc, List.append_assoc, List.singleton_append, ← cut_comment_line hbody]
    exact happend rfl (by simp)

theorem exists_hides
    {left : List Char} (hclosed : ∀ body, .openString body ∉ cut left)
    (hslash : ¬ EndsWithSlash left) (rest : List Char) :
    ∃ kept, ∀ hidden, IsHidden hidden → ∃ comments, Hides left hidden rest kept comments := by
  by_cases hends : EndsInComment left
  · exact exists_hides_of_endsInComment hends rest
  · exact exists_hides_of_not_endsInComment hclosed hends hslash rest

theorem tokensFrom_comments
    {comments : List Segment} (honly : ∀ segment ∈ comments, ∃ body, segment = .comment body)
    (cursor : Cursor) : tokensFrom cursor comments = [] := by
  induction comments generalizing cursor with
  | nil => rfl
  | cons segment comments ih =>
      obtain ⟨body, rfl⟩ := honly segment List.mem_cons_self
      exact ih (fun other hother => honly other (List.mem_cons_of_mem _ hother)) _

theorem faultsFrom_comments
    {comments : List Segment} (honly : ∀ segment ∈ comments, ∃ body, segment = .comment body)
    (cursor : Cursor) : faultsFrom cursor comments = [] := by
  apply faultsFrom_eq_nil_iff.mpr
  intro segment hsegment
  obtain ⟨body, rfl⟩ := honly segment hsegment
  trivial

variable {left hidden rest : List Char} {kept comments : List Segment}

theorem Hides.advance_eq
    (hhides : Hides left hidden rest kept comments) (hhidden : IsHidden hidden) :
    Cursor.origin.advance ((kept ++ comments).flatMap chars) =
      (Cursor.origin.advance left).move (byteLength hidden) 0 := by
  rw [hhides.text_eq, Cursor.advance_append, Cursor.advance_eq_move _ hidden,
    List.count_eq_zero.mpr hhidden.lineFeed_notMem]

theorem Hides.tokensFrom_eq
    (hhides : Hides left hidden rest kept comments) (hhidden : IsHidden hidden) :
    tokensFrom .origin (cut (left ++ hidden ++ '\n' :: rest)) =
      tokensFrom .origin kept ++
        tokensFrom (Cursor.origin.advance left) (cut ('\n' :: rest)) := by
  rw [hhides.cut_eq, tokensFrom_append, hhides.advance_eq hhidden, tokensFrom_append,
    tokensFrom_comments hhides.comment_only, List.append_nil, tokensFrom_move,
    Token.map_move_zero]

theorem Hides.faultsFrom_eq
    (hhides : Hides left hidden rest kept comments) (hhidden : IsHidden hidden) :
    faultsFrom .origin (cut (left ++ hidden ++ '\n' :: rest)) =
      faultsFrom .origin kept ++
        (faultsFrom (Cursor.origin.advance left) (cut ('\n' :: rest))).map
          (Fault.move (byteLength hidden) 0) := by
  rw [hhides.cut_eq, faultsFrom_append, hhides.advance_eq hhidden, faultsFrom_append,
    faultsFrom_comments hhides.comment_only, List.append_nil, faultsFrom_move]

/-- The faults in the segments that are kept lie before the hidden text. -/
theorem Hides.position_lt
    (hhides : Hides left hidden rest kept comments) :
    ∀ fault ∈ faultsFrom .origin kept, fault.position < byteLength (left ++ hidden) := by
  intro fault hfault
  have hsome : ∀ segment ∈ kept, segment.chars ≠ [] := by
    intro segment hsegment
    apply (fitted_cut (left ++ hidden ++ '\n' :: rest)).chars_ne_nil_of_mem
    rw [hhides.cut_eq]
    simp [hsegment]
  obtain ⟨passed, c, after, htext, hposition⟩ :=
    exists_char_of_mem_faultsFrom hsome .origin fault hfault
  have hlength := congrArg byteLength hhides.text_eq
  have hpos := c.utf8Size_pos
  rw [List.flatMap_append, htext] at hlength
  simp only [byteLength_append, byteLength_cons, Cursor.origin] at hlength hposition ⊢
  omega

end Segment

theorem scan_comment_line
    {left : String} (hclosed : ∀ body, .openString body ∉ cut left.toList)
    (hslash : ¬ EndsWithSlash left.toList) {body : String} (hbody : '\n' ∉ body.toList)
    (right : String) :
    (scan (left ++ "//" ++ body ++ "\n" ++ right)).tokens =
      (scan (left ++ "\n" ++ right)).tokens ∧
    (scan (left ++ "//" ++ body ++ "\n" ++ right)).log.toList =
      (scan (left ++ "\n" ++ right)).log.toList.map
        (Fault.moveFrom left.utf8ByteSize (2 + body.utf8ByteSize) 0) := by
  have hcommented : (left ++ "//" ++ body ++ "\n" ++ right).toList =
      left.toList ++ '/' :: '/' :: body.toList ++ '\n' :: right.toList := by
    simp
  have hplain : (left ++ "\n" ++ right).toList = left.toList ++ [] ++ '\n' :: right.toList := by
    simp
  obtain ⟨kept, hkept⟩ := exists_hides hclosed hslash right.toList
  have hhidden : IsHidden ('/' :: '/' :: body.toList) := .inr ⟨_, hbody, rfl⟩
  have hnothing : IsHidden [] := .inl rfl
  obtain ⟨comments, hhides⟩ := hkept _ hhidden
  obtain ⟨others, hshown⟩ := hkept _ hnothing
  have hearlier : ∀ fault ∈ faultsFrom .origin kept, fault.position < left.utf8ByteSize := by
    intro fault hfault
    rw [← byteLength_toList]
    simpa using hshown.position_lt fault hfault
  have hlater : ∀ fault ∈ faultsFrom (Cursor.origin.advance left.toList)
      (cut ('\n' :: right.toList)), left.utf8ByteSize ≤ fault.position := by
    intro fault hfault
    have hle := (fitted_cut _).position_le_of_mem_faultsFrom hfault
    simpa [Cursor.advance, Cursor.origin, byteLength_toList] using hle
  constructor
  · have hlines : lastLine (left.toList ++ '/' :: '/' :: body.toList ++ '\n' :: right.toList) =
        lastLine (left.toList ++ [] ++ '\n' :: right.toList) := by
      simp [lastLine, List.count_eq_zero.mpr hbody]
    rw [tokens_scan, tokens_scan, hcommented, hplain, hhides.tokensFrom_eq hhidden,
      hshown.tokensFrom_eq hnothing, hlines]
  · have hbytes : byteLength ('/' :: '/' :: body.toList) = 2 + body.utf8ByteSize := by
      have hslash : '/'.utf8Size = 1 := rfl
      rw [byteLength_cons, byteLength_cons, byteLength_toList, hslash]
      omega
    rw [faults_scan, faults_scan, hcommented, hplain, hhides.faultsFrom_eq hhidden,
      hshown.faultsFrom_eq hnothing, hbytes, byteLength_nil, Fault.map_move_zero,
      Fault.map_moveFrom_append hearlier hlater]

/-! ## Strings -/

namespace Segment

theorem cut_append_string
    {left : List Char} (hclosed : ∀ body, .openString body ∉ cut left)
    (hends : ¬ EndsInComment left) {body : List Char} (hbody : '"' ∉ body) (rest : List Char) :
    cut (left ++ ('"' :: body ++ '"' :: rest)) = cut left ++ .string body :: cut rest := by
  have hlegal : (Segment.string body).LegalBefore rest := hbody
  have hstring : cut ('"' :: body ++ '"' :: rest) = .string body :: cut rest := by
    have hcut := cut_append_of_maximal hlegal trivial
    simpa [chars] using hcut
  rw [← hstring]
  apply (cut_append_iff hclosed _).mpr
  apply not_fuses_of_head (c := '"') rfl rfl
  · decide
  · decide
  · exact fun _ other hcomment => hends ⟨other, hcomment⟩
  · intro hquote
    cases hquote

end Segment

/-- The cursor behind a string, with what the string hides put last. -/
theorem Cursor.advance_string (left body : List Char) :
    (Cursor.origin.advance left).advance (Segment.string body).chars =
      (Cursor.origin.move (byteLength left + 2) (left.count '\n')).move
        (byteLength body) (body.count '\n') := by
  have hquote : '"'.utf8Size = 1 := rfl
  rw [advance_eq_move _ (Segment.string body).chars, origin_advance_eq_move]
  simp only [Segment.chars, move, byteLength_cons, byteLength_append, byteLength_nil, hquote,
    Cursor.mk.injEq]
  constructor
  · omega
  · simp

theorem scan_string
    {left : String} (hclosed : ∀ body, .openString body ∉ cut left.toList)
    (hends : ¬ EndsInComment left.toList) {body : String} (hbody : '"' ∉ body.toList)
    (right : String) :
    (scan (left ++ "\"" ++ body ++ "\"" ++ right)).tokens =
      (scan left).tokens.dropLast ++
        ⟨.string, "\"" ++ body ++ "\"", some (.string body), lastLine left.toList⟩ ::
          ((scan right).tokens.map (Token.move (left.toList.count '\n'))).map
            (Token.move (body.toList.count '\n')) ∧
    (scan (left ++ "\"" ++ body ++ "\"" ++ right)).log.toList =
      (scan left).log.toList ++
        ((scan right).log.toList.map
            (Fault.move (left.utf8ByteSize + 2) (left.toList.count '\n'))).map
          (Fault.move body.utf8ByteSize (body.toList.count '\n')) := by
  have htext : (left ++ "\"" ++ body ++ "\"" ++ right).toList =
      left.toList ++ ('"' :: body.toList ++ '"' :: right.toList) := by
    simp
  have hcut := cut_append_string hclosed hends hbody right.toList
  have hbehind := Cursor.advance_string left.toList body.toList
  rw [byteLength_toList, byteLength_toList] at hbehind
  constructor
  · have htoken : (Segment.string body.toList).token? (Cursor.origin.advance left.toList).line =
        some ⟨.string, "\"" ++ body ++ "\"", some (.string body), lastLine left.toList⟩ := by
      have hlexeme : String.ofList ('"' :: body.toList ++ ['"']) = "\"" ++ body ++ "\"" := by
        rw [String.ext_iff]
        simp
      rw [← hlexeme]
      simp [token?, lastLine, Cursor.advance, Cursor.origin]
    have hlines : lastLine (left.toList ++ ('"' :: body.toList ++ '"' :: right.toList)) =
        lastLine right.toList + left.toList.count '\n' + body.toList.count '\n' := by
      simp [lastLine]
      omega
    rw [tokens_scan, htext, hcut, tokens_dropLast_scan, tokens_scan right, tokensFrom_append,
      flatMap_chars_cut, tokensFrom_cons, htoken, hbehind, tokensFrom_move, tokensFrom_move,
      hlines]
    simp
  · rw [faults_scan, faults_scan, faults_scan, htext, hcut, faultsFrom_append, flatMap_chars_cut,
      faultsFrom_cons, hbehind, faultsFrom_move, faultsFrom_move]
    rfl

/-- A comment is not seen in the tokens, and moves the faults behind it.  Of a string its own token
alone is seen; around it are the tokens and the faults of the text before and of the text behind,
whatever the string is, and those behind are moved. -/
theorem hidden_contents
    (left right : String)
    (hclosed : ∀ fault ∈ (scan left).log.toList, fault.cause ≠ .unterminatedString) :
    (¬ EndsWithSlash left.toList → ∀ body : String, '\n' ∉ body.toList →
      (scan (left ++ "//" ++ body ++ "\n" ++ right)).tokens =
        (scan (left ++ "\n" ++ right)).tokens ∧
      (scan (left ++ "//" ++ body ++ "\n" ++ right)).log.toList =
        (scan (left ++ "\n" ++ right)).log.toList.map
          (Fault.moveFrom left.utf8ByteSize (2 + body.utf8ByteSize) 0)) ∧
    (¬ EndsInComment left.toList → ∀ body : String, '"' ∉ body.toList →
      (scan (left ++ "\"" ++ body ++ "\"" ++ right)).tokens =
        (scan left).tokens.dropLast ++
          ⟨.string, "\"" ++ body ++ "\"", some (.string body), lastLine left.toList⟩ ::
            ((scan right).tokens.map (Token.move (left.toList.count '\n'))).map
              (Token.move (body.toList.count '\n')) ∧
      (scan (left ++ "\"" ++ body ++ "\"" ++ right)).log.toList =
        (scan left).log.toList ++
          ((scan right).log.toList.map
              (Fault.move (left.utf8ByteSize + 2) (left.toList.count '\n'))).map
            (Fault.move body.utf8ByteSize (body.toList.count '\n'))) := by
  have hopen : ∀ body, .openString body ∉ cut left.toList := by
    rw [faults_scan] at hclosed
    exact openString_notMem hclosed
  constructor
  · intro hslash body hbody
    exact scan_comment_line hopen hslash hbody right
  · intro hends body hbody
    exact scan_string hopen hends hbody right

/-- A string that looks like a comment and a comment that looks like a string, between a point that
no digit follows and an open string. -/
theorem hidden_contents_behind_point :
    (∀ fault ∈ (scan "é 1.").log.toList, fault.cause ≠ .unterminatedString) ∧
    (scan ("é 1." ++ "//" ++ "é\"@ //" ++ "\n" ++ "5#\"")).log.toList =
      [⟨.unexpectedCharacter 'é', 1, 0⟩, ⟨.unexpectedCharacter '#', 2, 16⟩,
        ⟨.unterminatedString, 2, 17⟩] ∧
    (scan ("é 1." ++ "\"" ++ "//\né" ++ "\"" ++ "5#\"")).log.toList =
      [⟨.unexpectedCharacter 'é', 1, 0⟩, ⟨.unexpectedCharacter '#', 2, 13⟩,
        ⟨.unterminatedString, 2, 14⟩] := by
  have hclosed : ∀ fault ∈ (scan "é 1.").log.toList, fault.cause ≠ .unterminatedString := by
    decide +kernel
  obtain ⟨hcomment, hstring⟩ := hidden_contents "é 1." "5#\"" hclosed
  have hcut : cut "é 1.".toList =
      [.stray 'é', .blank ' ', .number ⟨['1'], []⟩, .operator .dot] := by
    decide +kernel
  have hslash : ¬ EndsWithSlash "é 1.".toList := by
    rw [EndsWithSlash, hcut]
    decide
  have hends : ¬ EndsInComment "é 1.".toList := by
    rintro ⟨body, hsuffix⟩
    rw [hcut] at hsuffix
    simpa using hsuffix.mem List.mem_cons_self
  refine ⟨hclosed, ?_, ?_⟩
  · rw [(hcomment hslash "é\"@ //" (by decide)).2]
    decide +kernel
  · rw [(hstring hends "//\né" (by decide)).2]
    decide +kernel

end LoxLexer
