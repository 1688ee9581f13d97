import LoxScan.Proofs.Lexing

/-!
# Line numbers

Lines are counted from one by the newline bytes of the source. A token and a stray character are
on the line where they begin, an open string on the last line of the source. Hence lines never
decrease along the tokens, nor along the diagnostics.
-/

namespace LoxScan

open Utf8

/-- The number of newlines among the bytes of a text in front of an offset. -/
def newlinesBefore (text : List Char) (offset : Nat) : Nat :=
  ((encode text).take offset).count '\n'.toUInt8

/-- The lines of a lexing count the newlines of a text. -/
structure Lexing.Lined (lexing : Lexing) (text : List Char) : Prop where
  token : ∀ token ∈ lexing.tokens.toList, token.line = 1 + newlinesBefore text token.span.start
  stray : ∀ diagnostic ∈ lexing.diagnostics, ∀ found,
    diagnostic.problem = .unexpectedCharacter found →
      diagnostic.line = 1 + newlinesBefore text diagnostic.span.start
  /-- An open string is found where the text ends. -/
  openString : ∀ diagnostic ∈ lexing.diagnostics, diagnostic.problem = .unterminatedString →
    diagnostic.line = 1 + newlinesBefore text (size text)
  tokens_ordered : (lexing.tokens.toList.map (·.line)).Pairwise (· ≤ ·)
  diagnostics_ordered : (lexing.diagnostics.map (·.line)).Pairwise (· ≤ ·)

/-- A newline byte occurs in the encoding of a newline only. -/
theorem count_encodeChar (c : Char) :
    (String.utf8EncodeChar c).count '\n'.toUInt8 = newlines [c] := by
  by_cases hc : c = '\n'
  · subst hc
    rfl
  · have hbyte : '\n'.toUInt8 ∉ String.utf8EncodeChar c :=
      mt (lead_mem_encodeChar_iff (d := '\n') (by decide)).1 hc
    rw [List.count_eq_zero.2 hbyte, newlines_cons_of_ne hc, newlines_nil]

/-- Newlines can be counted by their bytes. -/
theorem count_encode (text : List Char) : (encode text).count '\n'.toUInt8 = newlines text := by
  induction text with
  | nil => rfl
  | cons c text ih =>
    rw [encode_cons, List.count_append, count_encodeChar, ih, ← newlines_cons_eq_add]

/-- Between two characters, the newlines in front are those of the text in front. -/
theorem newlinesBefore_size (before rest : List Char) :
    newlinesBefore (before ++ rest) (size before) = newlines before := by
  rw [newlinesBefore, encode_append, ← length_encode, List.take_left, count_encode]

/-- All newlines are in front of the end. -/
theorem newlinesBefore_size_self (text : List Char) :
    newlinesBefore text (size text) = newlines text := by
  simpa using newlinesBefore_size text []

section

variable {pos line : Nat} {text : List Char}

/-- A token is on the line where it begins. -/
theorem line_of_mem_tokensFrom {token : Token} (h : token ∈ tokensFrom pos line text) :
    ∃ before rest, text = before ++ rest ∧ token.span.start = pos + size before ∧
      token.line = line + newlines before := by
  rcases List.mem_append.1 h with h | h
  · obtain ⟨before, c, rest, kind, literal, htext, -, rfl⟩ := exists_of_mem_tokens h
    exact ⟨before, c :: rest, htext, rfl, rfl⟩
  · obtain rfl := List.mem_singleton.1 h
    exact ⟨text, [], (List.append_nil text).symm, rfl, rfl⟩

/-- All diagnostics of a text without newlines are on the line on which it begins. -/
theorem line_of_mem_diagnosticsFrom (h : newlines text = 0) {diagnostic : Diagnostic}
    (hmem : diagnostic ∈ diagnosticsFrom pos line text) : diagnostic.line = line := by
  obtain ⟨before, c, rest, problem, rfl, -, rfl⟩ := exists_of_mem_diagnosticsFrom hmem
  rw [newlines_append, newlines_cons_eq_cut] at h
  simp only
  omega

end

/-- Lines do not decrease along the tokens. -/
theorem pairwise_line_tokensFrom (pos line : Nat) (text : List Char) :
    (tokensFrom pos line text).Pairwise fun left right => left.line ≤ right.line := by
  induction text using pieces.induct generalizing pos line with
  | case1 => simp
  | case2 c text ih =>
    rw [tokensFrom_cons, List.pairwise_append]
    refine ⟨?_, ih _ _, ?_⟩
    · cases (firstPlaced pos line c text).token? <;> simp
    · intro left hleft right hright
      obtain ⟨kind, literal, -, rfl⟩ := Placed.token?_eq_some_iff.1 (Option.mem_toList.1 hleft)
      obtain ⟨before, rest, -, -, hline⟩ := line_of_mem_tokensFrom hright
      simp only [firstPlaced]
      omega

/-- Lines do not decrease along the diagnostics. -/
theorem pairwise_line_diagnosticsFrom (pos line : Nat) (text : List Char) :
    (diagnosticsFrom pos line text).Pairwise fun left right => left.line ≤ right.line := by
  induction text using pieces.induct generalizing pos line with
  | case1 => simp
  | case2 c text ih =>
    rw [diagnosticsFrom_cons, List.pairwise_append]
    refine ⟨?_, ih _ _, ?_⟩
    · cases (firstPlaced pos line c text).diagnostic? <;> simp
    · intro left hleft right hright
      obtain ⟨problem, -, rfl⟩ := Placed.diagnostic?_eq_some_iff.1 (Option.mem_toList.1 hleft)
      obtain ⟨before, d, rest, other, -, -, rfl⟩ := exists_of_mem_diagnosticsFrom hright
      simp only [firstPlaced]
      omega

/-- A stray character is on the line where it begins, since it is no newline. -/
theorem line_of_stray {text : List Char} {diagnostic : Diagnostic} {found : Char}
    (h : diagnostic ∈ diagnosticsFrom 0 1 text)
    (hproblem : diagnostic.problem = .unexpectedCharacter found) :
    diagnostic.line = 1 + newlinesBefore text diagnostic.span.start := by
  obtain ⟨before, c, rest, problem, rfl, hfinding, rfl⟩ := exists_of_mem_diagnosticsFrom h
  obtain rfl : problem = .unexpectedCharacter found := hproblem
  obtain ⟨htext, hopening⟩ := (FirstPiece.of c rest).text_of_unexpectedCharacter hfinding
  have hc : c ≠ '\n' := by
    rintro rfl
    cases hopening
  simp only [htext, Nat.zero_add, newlinesBefore_size, newlines_cons_of_ne hc, newlines_nil,
    Nat.add_zero]

/-- An open string is on the last line, since it goes on to the end. -/
theorem line_of_openString {text : List Char} {diagnostic : Diagnostic}
    (h : diagnostic ∈ diagnosticsFrom 0 1 text)
    (hproblem : diagnostic.problem = .unterminatedString) :
    diagnostic.line = 1 + newlinesBefore text (size text) := by
  obtain ⟨before, c, rest, problem, rfl, hfinding, rfl⟩ := exists_of_mem_diagnosticsFrom h
  obtain rfl : problem = .unterminatedString := hproblem
  simp only [(FirstPiece.of c rest).text_of_unterminatedString hfinding, newlinesBefore_size_self,
    newlines_append, Nat.add_assoc]

/-- The lines of a source are those of its newlines, and never decrease. -/
theorem lex_lined (text : String) (hsize : size text.toList ≤ maxWord)
    (hlines : newlines text.toList < maxWord) :
    ∃ lexing, lex text = .ok lexing ∧ lexing.Lined text.toList := by
  refine ⟨_, lex_eq_ok hsize hlines, ?_⟩
  constructor
  case token =>
    intro token hmem
    rw [Tokens.toList_ofList] at hmem
    obtain ⟨before, rest, htext, hstart, hline⟩ := line_of_mem_tokensFrom hmem
    rw [hline, hstart, htext, Nat.zero_add, newlinesBefore_size]
  case stray =>
    intro diagnostic hmem found hproblem
    exact line_of_stray hmem hproblem
  case openString =>
    intro diagnostic hmem hproblem
    exact line_of_openString hmem hproblem
  case tokens_ordered =>
    rw [Tokens.toList_ofList]
    exact List.pairwise_map.2 (pairwise_line_tokensFrom 0 1 text.toList)
  case diagnostics_ordered =>
    exact List.pairwise_map.2 (pairwise_line_diagnosticsFrom 0 1 text.toList)

/-- A string is on its first line, a stray character on its own, an open string on the last. -/
theorem lex_lined_of_open_string :
    ∃ lexing, lex "\"a\né\"//\n@\n\"b\n" = .ok lexing ∧
      lexing.tokens.toList.map (·.line) = [1, 5] ∧ lexing.diagnostics.map (·.line) = [3, 5] ∧
      lexing.Lined "\"a\né\"//\n@\n\"b\n".toList := by
  have hpieces : pieces "\"a\né\"//\n@\n\"b\n".toList =
      [⟨['"', 'a', '\n', 'é', '"'], .token .string (.text "a\né")⟩, ⟨['/', '/'], .trivia⟩,
        ⟨['\n'], .trivia⟩, ⟨['@'], .problem (.unexpectedCharacter '@')⟩, ⟨['\n'], .trivia⟩,
        ⟨['"', 'b', '\n'], .problem .unterminatedString⟩] := by
    simp [pieces_cons, Cut.of, Opening.ofChar, Cut.string, Cut.slash]
  obtain ⟨lexing, hlexing, hlined⟩ :=
    lex_lined "\"a\né\"//\n@\n\"b\n" (by decide) (by decide)
  have hvalue := hlexing
  rw [lex_eq_ok (by decide) (by decide)] at hvalue
  cases hvalue
  refine ⟨_, hlexing, ?_, ?_, hlined⟩
  · rw [Tokens.toList_ofList, tokensFrom, placedPieces, hpieces]
    decide
  · rw [diagnosticsFrom, placedPieces, hpieces]
    decide

end LoxScan
