import LoxScan.Proofs.Concatenation
import LoxScan.Proofs.Spacing
import LoxScan.Proofs.TextLines

/-!
# Line by line

A source that leaves no string open at the end of a line has the tokens of its lines, each read on
its own: no other piece goes on behind a newline. So a session at the prompt that is given the
source lists the same tokens as reading it at once, and reports the same diagnostics, each with the
number of its line in place of the first. Lines that go on in a string are left out: there the
prompt differs.
-/

namespace LoxScan

open Utf8

/-- What is found in a text is found in the line in front of a newline, and behind it. -/
theorem contents_append_newline {line : List Char} (h : (Lexing.of line).Closed)
    (rest : List Char) : contents (line ++ '\n' :: rest) = contents line ++ contents rest := by
  have hblank : IsBlank '\n' := by simp [IsBlank]
  rw [contents, pieces_append_newline line (Lexing.closed_of_iff.1 h), List.filter_append,
    pieces_blank_cons hblank, List.filter_cons_of_neg (by simp)]
  rfl

section

variable {c : Char} {text : List Char} {cut : Cut}

/-- An open string takes up whatever has no quote. -/
theorem pieces_append_of_openString (h : FirstPiece c text cut)
    (hfinding : cut.finding = .problem .unterminatedString) {more : List Char}
    (hmore : '"' ∉ more) :
    pieces (c :: (text ++ more)) = [⟨c :: (text ++ more), .problem .unterminatedString⟩] := by
  cases h with
  | openString hcontent =>
    have hlonger : '"' ∉ text ++ more := by
      rw [List.mem_append, not_or]
      exact ⟨hcontent, hmore⟩
    rw [pieces_of_firstPiece (.openString hlonger), pieces_nil]
  | single | alone | followed | slash | comment | blank | string | whole | fraction | word
  | stray => cases hfinding

/-- At the end of a text, a carriage return goes on with a comment, or follows a blank. -/
theorem contents_append_return_of_trivia (h : FirstPiece c text cut)
    (hfinding : cut.finding = .trivia) (hrest : cut.rest = []) :
    contents (c :: (text ++ ['\r'])) = [] := by
  have hreturn : IsBlank '\r' := by simp [IsBlank]
  cases h with
  | blank hblank =>
    obtain rfl : text = [] := hrest
    rw [contents, pieces_blank_cons hblank, List.nil_append, pieces_blank_cons hreturn, pieces_nil]
    rfl
  | @comment body rest hbody =>
    obtain rfl : rest = [] := hrest
    have hlonger : '\n' ∉ body ++ ['\r'] := by simpa using hbody
    have hpieces : pieces ('/' :: ('/' :: (body ++ ['\r']) ++ [])) = _ :=
      pieces_of_firstPiece (.comment hlonger (Or.inl rfl))
    rw [List.append_nil, pieces_nil] at hpieces
    rw [contents, List.append_nil, List.cons_append, hpieces]
    rfl
  | single | alone | followed | slash | string | openString | whole | fraction | word | stray =>
    cases hfinding

end

/-- A carriage return behind a text is a blank, or a part of its last comment or of the string that
is left open. -/
theorem contents_append_return_cases (body : List Char) :
    contents (body ++ ['\r']) = contents body ∨
      ∃ front string, contents body = front ++ [⟨string, .problem .unterminatedString⟩] ∧
        contents (body ++ ['\r']) =
          front ++ [⟨string ++ ['\r'], .problem .unterminatedString⟩] := by
  have hreturn : AtBlank ['\r'] := by simp [AtBlank, IsBlank]
  induction body using pieces.induct with
  | case1 =>
    refine Or.inl ?_
    rw [List.nil_append, contents, pieces_blank_cons (by simp [IsBlank]), contents, pieces_nil]
    rfl
  | case2 c text ih =>
    have hfirst := FirstPiece.of c text
    by_cases hopen : (Cut.of c text).finding = .problem .unterminatedString
    · have hbody := pieces_append_of_openString hfirst hopen List.not_mem_nil
      have hlonger : pieces (c :: (text ++ ['\r'])) = _ :=
        pieces_append_of_openString hfirst hopen (by decide)
      rw [List.append_nil] at hbody
      refine Or.inr ⟨[], c :: text, ?_, ?_⟩
      · rw [contents, hbody]
        rfl
      · rw [contents, List.cons_append, hlonger]
        rfl
    by_cases hend : (Cut.of c text).finding = .trivia ∧ (Cut.of c text).rest = []
    · refine Or.inl ?_
      rw [List.cons_append, contents_append_return_of_trivia hfirst hend.1 hend.2, contents,
        pieces_cons, hend.2, List.filter_cons_of_neg (by simp [hend.1]), pieces_nil]
      rfl
    have hfollow : MayFollow ((Cut.of c text).rest ++ ['\r']) (Cut.of c text) := by
      refine ⟨hopen, .append _ hreturn, fun hfinding hline => ?_⟩
      rcases hline with hnil | hhead
      · exact absurd ⟨hfinding, hnil⟩ hend
      · exact Or.inr (by simp [hhead])
    have hpieces : pieces (c :: text ++ ['\r']) =
        [(Cut.of c text).toPiece] ++ pieces ((Cut.of c text).rest ++ ['\r']) := by
      rw [← Cut.text_of_append_rest c text, List.append_assoc]
      exact pieces_append_of_mayFollow hfollow
    have hbody : pieces (c :: text) = [(Cut.of c text).toPiece] ++ pieces (Cut.of c text).rest :=
      pieces_cons c text
    rw [contents, contents, hpieces, hbody, List.filter_append, List.filter_append, ← contents,
      ← contents]
    generalize [(Cut.of c text).toPiece].filter (·.finding != .trivia) = first
    rcases ih with hsame | ⟨front, string, hbefore, hbehind⟩
    · exact Or.inl (by rw [hsame])
    · refine Or.inr ⟨first ++ front, string, ?_, ?_⟩
      · rw [hbefore, List.append_assoc]
      · rw [hbehind, List.append_assoc]

/-- If no string is left open, a carriage return behind a text changes nothing. -/
theorem contents_append_return {body : List Char}
    (h : ∀ piece ∈ pieces (body ++ ['\r']), piece.finding ≠ .problem .unterminatedString) :
    contents (body ++ ['\r']) = contents body := by
  rcases contents_append_return_cases body with hsame | ⟨front, string, -, hlonger⟩
  · exact hsame
  · have hmem : ⟨string ++ ['\r'], .problem .unterminatedString⟩ ∈ contents (body ++ ['\r']) := by
      rw [hlonger]
      exact List.mem_append_right front List.mem_cons_self
    exact absurd rfl (h _ (List.mem_of_mem_filter hmem))

/-- The problem that a piece is. -/
def Piece.problem? (piece : Piece) : Option Problem :=
  match piece.finding with
  | .problem problem => some problem
  | _ => none

/-- A diagnostic is about the problem of its piece. -/
theorem Placed.map_problem_diagnostic? (placed : Placed) :
    placed.diagnostic?.map (·.problem) = placed.toPiece.problem? := by
  unfold Placed.diagnostic? Piece.problem?
  cases placed.finding <;> rfl

/-- What is wrong with a text does not depend on where it is. -/
theorem map_problem_diagnosticsFrom (pos line : Nat) (text : List Char) :
    (diagnosticsFrom pos line text).map (·.problem) =
      (contents text).filterMap Piece.problem? := by
  have htrivia (piece : Piece) (h : piece.finding = .trivia) : piece.problem? = none := by
    rw [Piece.problem?, h]
  rw [diagnosticsFrom, List.map_filterMap, filterMap_contents htrivia pos line]
  exact List.filterMap_congr fun placed _ => placed.map_problem_diagnostic?

namespace Lexing

/-- The lines on which the tokens are listed, up to the end of file. -/
noncomputable def entries (lexing : Lexing) : List UInt8 := lexing.lexemes.flatMap Token.listed

/-- The diagnostics as they are reported for a line of some number. -/
def messages (lexing : Lexing) (number : Nat) : List UInt8 :=
  lexing.diagnostics.flatMap fun diagnostic => { diagnostic with line := number }.reported

end Lexing

/-- The line on which the end of file is listed. -/
def lastEntry : List UInt8 := encode "END_OF_FILE  \n".toList

/-- The end of file is listed alike everywhere. -/
theorem listed_endOfFile (line offset : Nat) :
    (Token.endOfFile line offset).listed = lastEntry := by
  rfl

/-- The line on which tokens of some content are listed. -/
noncomputable def listedContent (content : Kind × String × Literal) : List UInt8 :=
  Token.listed ⟨content.1, content.2.1, content.2.2, 0, .point 0⟩

/-- The line on which a problem is reported for a line of some number. -/
def Problem.reported (number : Nat) (problem : Problem) : List UInt8 :=
  Diagnostic.reported ⟨problem, number, .point 0⟩

section

variable (text : List Char)

/-- A listing is made of the entries and the line for the end of file. -/
theorem listing_of : (Lexing.of text).listing = (Lexing.of text).entries ++ lastEntry := by
  rw [Lexing.listing, Lexing.entries, Lexing.of, lexemes_eq, Tokens.toList_ofList, tokensFrom,
    List.flatMap_append, List.flatMap_singleton, listed_endOfFile]

/-- The entries of a text are those of its contents. -/
theorem entries_of : (Lexing.of text).entries =
    ((contents text).filterMap Piece.content?).flatMap listedContent := by
  rw [Lexing.entries, Lexing.of, lexemes_eq, ← map_content_token? 0 1, List.flatMap_map]
  rfl

/-- The messages of a text are those about its contents. -/
theorem messages_of (number : Nat) : (Lexing.of text).messages number =
    ((contents text).filterMap Piece.problem?).flatMap (Problem.reported number) := by
  rw [Lexing.messages, Lexing.of, ← map_problem_diagnosticsFrom 0 1, List.flatMap_map]
  rfl

end

namespace Prompt

/-- A text that leaves no string open at the end of a line. -/
def ClosedLines (text : List Char) : Prop := ∀ line ∈ text.splitOn '\n', (Lexing.of line).Closed

section

variable {line body rest text : List Char}

/-- The lines of a text are closed just if the first is and the others are. -/
theorem closedLines_append_newline (h : '\n' ∉ line) :
    ClosedLines (line ++ '\n' :: rest) ↔ (Lexing.of line).Closed ∧ ClosedLines rest := by
  rw [ClosedLines, splitOn_append_newline h, List.forall_mem_cons]
  rfl

/-- Without a carriage return at its end, a line has the same contents. -/
theorem contents_of_body (h : (Lexing.of line).Closed)
    (hbody : line = body ∨ line = body ++ ['\r']) : contents line = contents body := by
  rcases hbody with rfl | rfl
  · rfl
  · exact contents_append_return (Lexing.closed_of_iff.1 h)

/-- What is found in a text is found in its lines. -/
theorem contents_eq_flatMap_sources (h : ClosedLines text) :
    contents text = (sources (encode text)).flatMap contents := by
  induction text using lines_induction '\n' with
  | last line hline =>
    rw [sources_encode hline]
    split
    · next hnil =>
      rw [hnil, contents, pieces_nil]
      rfl
    · rw [List.flatMap_singleton]
  | newline line rest hline ih =>
    obtain ⟨hclosed, hrest⟩ := (closedLines_append_newline hline).1 h
    obtain ⟨body, hbody, hsources⟩ := sources_encode_append_newline hline rest
    rw [hsources, List.flatMap_cons, contents_append_newline hclosed, ih hrest,
      contents_of_body hclosed hbody]

/-- The tokens of a text are listed as those of its lines. -/
theorem entries_of_closedLines (h : ClosedLines text) :
    (Lexing.of text).entries = (lexingsOf (encode text)).flatMap Lexing.entries := by
  rw [lexingsOf_eq, List.flatMap_map, entries_of, contents_eq_flatMap_sources h,
    List.filterMap_flatMap, List.flatMap_assoc]
  exact List.flatMap_congr fun body _ => (entries_of body).symm

/-- The diagnostics of a line are reported with its number. -/
theorem reported_of_line (pos number : Nat) (h : '\n' ∉ line)
    (hbody : contents line = contents body) :
    (diagnosticsFrom pos number line).flatMap Diagnostic.reported =
      (Lexing.of body).messages number := by
  rw [messages_of, ← hbody, ← map_problem_diagnosticsFrom pos number, List.flatMap_map]
  apply List.flatMap_congr
  intro diagnostic hmem
  rw [Diagnostic.reported, line_of_mem_diagnosticsFrom (newlines_eq_zero h) hmem]
  rfl

/-- The diagnostics of a text are those of its lines, each with the number of its line. -/
theorem reported_diagnosticsFrom (h : ClosedLines text) (pos number : Nat) :
    (diagnosticsFrom pos number text).flatMap Diagnostic.reported =
      ((lexingsOf (encode text)).zipIdx number).flatMap fun (lexing, number) =>
        lexing.messages number := by
  rw [lexingsOf_eq]
  induction text using lines_induction '\n' generalizing pos number with
  | last line hline =>
    rw [sources_encode hline]
    split
    · next hnil =>
      rw [hnil, diagnosticsFrom_nil]
      rfl
    · rw [reported_of_line pos number hline rfl]
      simp
  | newline line rest hline ih =>
    obtain ⟨hclosed, hrest⟩ := (closedLines_append_newline hline).1 h
    obtain ⟨body, hbody, hsources⟩ := sources_encode_append_newline hline rest
    have hpieces := pieces_append_newline line (Lexing.closed_of_iff.1 hclosed) rest
    rw [hsources, List.map_cons, List.zipIdx_cons, List.flatMap_cons,
      ← ih hrest (pos + size line + 1), diagnosticsFrom_append pos number hpieces,
      diagnosticsFrom_newline_cons, List.flatMap_append,
      reported_of_line pos number hline (contents_of_body hclosed hbody), newlines_eq_zero hline]

end

/-- Lines that can be lexed on their own leave no string open if their lexings do not. -/
theorem closedLines_of_lex {text : List Char} (hsize : size text ≤ maxWord)
    (h : ∀ line ∈ text.splitOn '\n', ∀ lexing, lex (String.ofList line) = .ok lexing →
      lexing.Closed) : ClosedLines text := by
  intro line hmem
  obtain ⟨hline, hle⟩ := of_mem_splitOn hmem
  refine h line hmem _ (lex_ofList (Nat.le_trans hle hsize) ?_)
  rw [newlines_eq_zero hline]
  decide

/-- A session marks, lists and reports its lines as the first ones of their sources. -/
theorem ended_eq_flatMap {bytes : List UInt8} (h : Counted bytes) : ended bytes =
    ⟨.ok (), ((lexingsOf bytes).flatMap fun lexing => mark ++ (lexing.entries ++ lastEntry)) ++
      (mark ++ [newlineByte]), (lexingsOf bytes).flatMap fun lexing => lexing.messages 1⟩ := by
  have hprinted : printed (lexingsOf bytes) =
      (lexingsOf bytes).flatMap fun lexing => mark ++ (lexing.entries ++ lastEntry) := by
    refine List.flatMap_congr fun lexing hlexing => ?_
    obtain ⟨line, -, rfl⟩ := List.mem_map.1 hlexing
    rw [listing_of]
  have hreported : reported (lexingsOf bytes) =
      (lexingsOf bytes).flatMap fun lexing => lexing.messages 1 := by
    refine List.flatMap_congr fun lexing hlexing => ?_
    refine List.flatMap_congr fun diagnostic hdiagnostic => ?_
    rw [← line_of_mem_lexingsOf hlexing hdiagnostic]
  rw [ended_eq h, hprinted, hreported]

/-- If no line of a source leaves a string open on its own, reading the source and a session that is
given it list the same tokens: the session lists those of line after line, with a mark in front and
an end of file behind, and the source those of all lines in front of its one end of file. What the
session reports on the first line of every source, reading the source reports on the line itself. -/
theorem scan_line_by_line (text : String) (hsize : size text.toList ≤ maxWord)
    (hlines : newlines text.toList < maxWord)
    (hclosed : ∀ line ∈ text.toList.splitOn '\n', ∀ lexing,
      lex (String.ofList line) = .ok lexing → lexing.Closed) :
    ∃ lexings outcome, Lexed (encode text.toList) lexings ∧
      ended (encode text.toList) =
        ⟨.ok (), (lexings.flatMap fun lexing => mark ++ (lexing.entries ++ lastEntry)) ++
          (mark ++ [newlineByte]), lexings.flatMap fun lexing => lexing.messages 1⟩ ∧
      (Session.scan text).ending {} =
        ⟨.ok outcome, lexings.flatMap Lexing.entries ++ lastEntry,
          (lexings.zipIdx 1).flatMap fun (lexing, number) => lexing.messages number⟩ := by
  have hlines' := closedLines_of_lex hsize hclosed
  have hcounted := counted_encode hsize
  have hreport : (Lexing.of text.toList).report = _ := reported_diagnosticsFrom hlines' 0 1
  have hscan := Session.ending_scan_unlimited (lex_eq_ok hsize hlines)
  rw [← Lexing.of, listing_of, entries_of_closedLines hlines', hreport] at hscan
  exact ⟨_, _, lexed_lexingsOf hcounted, ended_eq_flatMap hcounted, hscan⟩

/-- A carriage return in front of a newline, a quote in a comment, and a last line without a
newline. -/
theorem scan_line_by_line_of_comment :
    (∀ line ∈ "a\r\n@//\"\n.".toList.splitOn '\n', ∀ lexing,
      lex (String.ofList line) = .ok lexing → lexing.Closed) ∧
    ended (encode "a\r\n@//\"\n.".toList) =
      ⟨.ok (), encode ("> IDENTIFIER a \nEND_OF_FILE  \n> END_OF_FILE  \n" ++
        "> DOT . \nEND_OF_FILE  \n> \n").toList,
        encode "[line 1] Error: Unexpected character.\n".toList⟩ ∧
    ∃ outcome, (Session.scan "a\r\n@//\"\n.").ending {} =
      ⟨.ok outcome, encode "IDENTIFIER a \nDOT . \nEND_OF_FILE  \n".toList,
        encode "[line 2] Error: Unexpected character.\n".toList⟩ := by
  have hword : pieces ['a'] = [⟨['a'], .token .identifier .none⟩] := by
    simp [pieces_cons, Cut.of, Opening.ofChar, Cut.word]
    decide
  have hreturn : pieces ['a', '\r'] = [⟨['a'], .token .identifier .none⟩, ⟨['\r'], .trivia⟩] := by
    have hblank : isWordChar '\r' = false := by decide
    simp [pieces_cons, Cut.of, Opening.ofChar, Cut.word, hblank]
    decide
  have hstray : pieces ['@', '/', '/', '"'] =
      [⟨['@'], .problem (.unexpectedCharacter '@')⟩, ⟨['/', '/', '"'], .trivia⟩] := by
    simp [pieces_cons, Cut.of, Opening.ofChar, Cut.slash]
  have hpoint : pieces ['.'] = [⟨['.'], .token .dot .none⟩] := by
    simp [pieces_cons, Cut.of, Opening.ofChar]
  have hclosed : ∀ line ∈ "a\r\n@//\"\n.".toList.splitOn '\n', ∀ lexing,
      lex (String.ofList line) = .ok lexing → lexing.Closed := by
    have hsplit : "a\r\n@//\"\n.".toList.splitOn '\n' =
        [['a', '\r'], ['@', '/', '/', '"'], ['.']] := by decide
    have hlex : ∀ line ∈ [['a', '\r'], ['@', '/', '/', '"'], ['.']],
        lex (String.ofList line) = .ok (.of line) := by
      have hfits : ∀ line ∈ [['a', '\r'], ['@', '/', '/', '"'], ['.']],
          size line ≤ maxWord ∧ newlines line < maxWord := by decide
      exact fun line hmem => lex_ofList (hfits line hmem).1 (hfits line hmem).2
    rw [hsplit]
    intro line hmem lexing hlexing
    rw [hlex line hmem] at hlexing
    cases hlexing
    rw [Lexing.closed_of_iff]
    revert line
    simp [hreturn, hstray, hpoint]
  have hlexings : lexingsOf (encode "a\r\n@//\"\n.".toList) =
      [.of ['a'], .of ['@', '/', '/', '"'], .of ['.']] := by
    have hsources : sources (encode "a\r\n@//\"\n.".toList) =
        [['a'], ['@', '/', '/', '"'], ['.']] := by decide
    rw [lexingsOf_eq, hsources]
    rfl
  refine ⟨hclosed, ?_⟩
  obtain ⟨lexings, outcome, hlexed, hended, hscan⟩ :=
    scan_line_by_line "a\r\n@//\"\n." (by decide) (by decide) hclosed
  obtain rfl := hlexed.unique (lexed_lexingsOf (counted_encode (by decide)))
  rw [hlexings] at hended hscan
  rw [hended, hscan]
  simp only [List.flatMap_cons, List.flatMap_nil, List.zipIdx_cons, List.zipIdx_nil, entries_of,
    messages_of, contents, hword, hstray, hpoint]
  exact ⟨rfl, _, rfl⟩

end Prompt

end LoxScan
