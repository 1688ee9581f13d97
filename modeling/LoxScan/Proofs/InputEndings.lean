import LoxScan.Proofs.LineByLine

/-!
# Two ways to end a line of an input

A line of an input may end in a newline, or in a carriage return and a newline. The prompt takes
one carriage return off, so a line that had one already keeps it when another is put behind it. It
is read as a blank, or becomes a part of a comment or of a string that is left open, and is never
written. What a session does is therefore the same for both kinds of line ends, on any streams.
-/

namespace LoxScan

open Utf8

/-- What does not look at an open string is the same with a carriage return behind a text. -/
theorem filterMap_contents_append_return {α : Type} (select : Piece → Option α)
    (h : ∀ left right, select ⟨left, .problem .unterminatedString⟩ =
      select ⟨right, .problem .unterminatedString⟩) (text : List Char) :
    (contents (text ++ ['\r'])).filterMap select = (contents text).filterMap select := by
  rcases contents_append_return_cases text with hsame | ⟨front, string, hbefore, hbehind⟩
  · rw [hsame]
  · rw [hbefore, hbehind, List.filterMap_append, List.filterMap_append, List.filterMap_cons,
      List.filterMap_cons, h _ string]

namespace Prompt

/-- A newline with a carriage return in front of it; any other byte alone. -/
def returnedByte (byte : UInt8) : List UInt8 :=
  if byte = newlineByte then [carriageReturn, newlineByte] else [byte]

/-- Bytes with a carriage return in front of every newline. -/
def bytesWithReturns (bytes : List UInt8) : List UInt8 := bytes.flatMap returnedByte

section

variable {bytes line body : List UInt8}

/-- A newline gets a carriage return in front. -/
theorem bytesWithReturns_newline_cons (bytes : List UInt8) :
    bytesWithReturns (newlineByte :: bytes) =
      carriageReturn :: newlineByte :: bytesWithReturns bytes := rfl

/-- A byte that is no newline stays as it is. -/
theorem bytesWithReturns_cons_of_ne {byte : UInt8} (h : byte ≠ newlineByte) (bytes : List UInt8) :
    bytesWithReturns (byte :: bytes) = byte :: bytesWithReturns bytes := by
  rw [bytesWithReturns, List.flatMap_cons, returnedByte, if_neg h]
  rfl

/-- Bytes of one line are left alone. -/
theorem bytesWithReturns_of_notMem (h : newlineByte ∉ bytes) : bytesWithReturns bytes = bytes := by
  induction bytes with
  | nil => rfl
  | cons byte bytes ih =>
    rw [List.mem_cons, not_or] at h
    rw [bytesWithReturns_cons_of_ne (Ne.symm h.1), ih h.2]

/-- The line ends are put into the lines one by one. -/
theorem lines_bytesWithReturns (bytes : List UInt8) :
    lines (bytesWithReturns bytes) = (lines bytes).map bytesWithReturns := by
  have hreturn : carriageReturn ≠ newlineByte := by decide
  induction bytes with
  | nil => rfl
  | cons byte bytes ih =>
    by_cases hbyte : byte = newlineByte
    · subst hbyte
      rw [bytesWithReturns_newline_cons, lines, if_neg hreturn, lines, lines, if_pos rfl,
        if_pos rfl, ih]
      rfl
    · rw [bytesWithReturns_cons_of_ne hbyte, lines, lines, if_neg hbyte, if_neg hbyte, ih]
      cases lines bytes with
      | nil => rw [List.map_nil, List.map_singleton, bytesWithReturns_cons_of_ne hbyte]; rfl
      | cons line rest => rw [List.map_cons, List.map_cons, bytesWithReturns_cons_of_ne hbyte]

/-- The lines stay. -/
theorem count_newline_bytesWithReturns (bytes : List UInt8) :
    (bytesWithReturns bytes).count newlineByte = bytes.count newlineByte := by
  have hreturn : carriageReturn ≠ newlineByte := by decide
  induction bytes with
  | nil => rfl
  | cons byte bytes ih =>
    by_cases hbyte : byte = newlineByte
    · subst hbyte
      rw [bytesWithReturns_newline_cons, List.count_cons_of_ne hreturn, List.count_cons_self,
        List.count_cons_self, ih]
    · rw [bytesWithReturns_cons_of_ne hbyte, List.count_cons_of_ne hbyte,
        List.count_cons_of_ne hbyte, ih]

/-- A line in front of whose newline a carriage return is put is the same source, or has the
carriage return at its end that was taken off before. -/
theorem source_bytesWithReturns_cases (h : newlineByte ∉ line.dropLast) :
    source (bytesWithReturns line) = source line ∨
      (source (bytesWithReturns line)).toList = (source line).toList ++ ['\r'] := by
  have hended {body : List UInt8} (hbody : newlineByte ∉ body) :
      source (bytesWithReturns (body ++ [newlineByte])) = String.ofList (decodeLossy body) := by
    have hline : bytesWithReturns (body ++ [newlineByte]) =
        body ++ [carriageReturn, newlineByte] := by
      rw [bytesWithReturns, List.flatMap_append, ← bytesWithReturns, ← bytesWithReturns,
        bytesWithReturns_of_notMem hbody]
      rfl
    rw [hline, source, content_returnNewline]
  have hnewline := newline_not_mem_content h
  generalize hbody : content line = body at hnewline
  cases stripped_iff.2 hbody with
  | unended => exact Or.inl (by rw [bytesWithReturns_of_notMem hnewline])
  | newline => exact Or.inl (by rw [hended hnewline, source, hbody])
  | returnNewline =>
    have hlonger : newlineByte ∉ body ++ [carriageReturn] := by
      rw [List.mem_append, not_or]
      exact ⟨hnewline, by decide⟩
    have hline : body ++ [carriageReturn, newlineByte] =
        body ++ [carriageReturn] ++ [newlineByte] := by simp
    have hdecode : decodeLossy (body ++ [carriageReturn]) = decodeLossy body ++ ['\r'] :=
      decodeLossy_append_ascii (c := '\r') (by decide) body []
    refine Or.inr ?_
    rw [hline, hended hlonger, ← hline, source, hbody, String.toList_ofList,
      String.toList_ofList, hdecode]

/-- At the end of a line a carriage return is neither reported nor listed. -/
theorem answering_append_return {text : List Char} (h : '\n' ∉ text) :
    answering (.of (text ++ ['\r'])) = answering (.of text) := by
  have hlonger : '\n' ∉ text ++ ['\r'] := by simpa using h
  have hreport {text : List Char} (h : '\n' ∉ text) :
      (Lexing.of text).report = (Lexing.of text).messages 1 := reported_of_line 0 1 h rfl
  rw [answering, answering, hreport h, hreport hlonger, messages_of, messages_of, listing_of,
    listing_of, entries_of, entries_of,
    filterMap_contents_append_return Piece.problem? fun _ _ => rfl,
    filterMap_contents_append_return Piece.content? fun _ _ => rfl]

/-- A line is answered alike with another carriage return at its end. -/
theorem answer_bytesWithReturns (h : Counted (bytesWithReturns bytes))
    (hline : line ∈ lines bytes) :
    answer (bytesWithReturns line) = answer line := by
  have hmem : bytesWithReturns line ∈ lines (bytesWithReturns bytes) := by
    rw [lines_bytesWithReturns]
    exact List.mem_map_of_mem hline
  rcases source_bytesWithReturns_cases (newline_not_mem_dropLast hline) with hsame | hreturn
  · rw [answer, answer, hsame]
  · have hnewlines := newlines_source hline
    have hlonger : size (source (bytesWithReturns line)).toList ≤ maxWord := h _ hmem
    have hsize : size (source line).toList ≤ maxWord := by
      rw [hreturn, size_append] at hlonger
      omega
    have hnewline : '\n' ∉ (source line).toList := List.count_eq_zero.1 hnewlines
    have hlexing : lex (source line) = .ok (.of (source line).toList) :=
      lex_eq_ok hsize (by rw [hnewlines]; decide)
    have hlexing' : lex (source (bytesWithReturns line)) =
        .ok (.of (source (bytesWithReturns line)).toList) :=
      lex_eq_ok hlonger (by rw [newlines_source hmem]; decide)
    rw [answer_eq hlexing, answer_eq hlexing', hreturn, answering_append_return hnewline]

end

/-- A session on any streams is the same where carriage returns are put in front of newlines. -/
theorem run_bytesWithReturns (bytes : List UInt8) (h : Counted (bytesWithReturns bytes)) :
    (∀ breaksOff, run ⟨bytesWithReturns bytes, breaksOff⟩ = run ⟨bytes, breaksOff⟩) ∧
      ended (bytesWithReturns bytes) = ended bytes ∧ (ended bytes).result = .ok () := by
  have hrun := run_eq_of_lines_map (lines_bytesWithReturns bytes)
    (count_newline_bytesWithReturns bytes) fun line hline => answer_bytesWithReturns h hline
  have hended : ended (bytesWithReturns bytes) = ended bytes :=
    congrArg (fun session => Session.ending session {}) (hrun false)
  refine ⟨hrun, hended, ?_⟩
  rw [← hended, ended_eq h]

/-- The carriage return behind the open string is one of two in front of the newline, and both
strings are reported alike. -/
theorem run_bytesWithReturns_of_open_string :
    bytesWithReturns [0x22, 0xC3, 0x0D, 0x0A, 0x40] = [0x22, 0xC3, 0x0D, 0x0D, 0x0A, 0x40] ∧
      Counted [0x22, 0xC3, 0x0D, 0x0D, 0x0A, 0x40] ∧
      ended [0x22, 0xC3, 0x0D, 0x0D, 0x0A, 0x40] = ended [0x22, 0xC3, 0x0D, 0x0A, 0x40] ∧
      ended [0x22, 0xC3, 0x0D, 0x0A, 0x40] =
        ⟨.ok (), encode "> END_OF_FILE  \n> END_OF_FILE  \n> \n".toList,
          encode ("[line 1] Error: Unterminated string.\n" ++
            "[line 1] Error: Unexpected character.\n").toList⟩ := by
  have hstring : pieces "\"\uFFFD\r".toList =
      [⟨['"', '\uFFFD', '\r'], .problem .unterminatedString⟩] := by
    simp [pieces_cons, Cut.of, Opening.ofChar, Cut.string]
  have hstray : pieces "@".toList = [⟨['@'], .problem (.unexpectedCharacter '@')⟩] := by
    simp [pieces_cons, Cut.of, Opening.ofChar]
  have hcounted : Counted [0x22, 0xC3, 0x0D, 0x0D, 0x0A, 0x40] := by
    simp only [Counted, source, String.toList_ofList]
    decide
  have hlexings : lexingsOf [0x22, 0xC3, 0x0D, 0x0D, 0x0A, 0x40] =
      [.of "\"\uFFFD\r".toList, .of "@".toList] := by
    have hsources : sources [0x22, 0xC3, 0x0D, 0x0D, 0x0A, 0x40] =
        ["\"\uFFFD\r".toList, "@".toList] := by decide
    rw [lexingsOf_eq, hsources]
    rfl
  have hended : ended [0x22, 0xC3, 0x0D, 0x0D, 0x0A, 0x40] = ended [0x22, 0xC3, 0x0D, 0x0A, 0x40] :=
    (run_bytesWithReturns [0x22, 0xC3, 0x0D, 0x0A, 0x40] hcounted).2.1
  refine ⟨rfl, hcounted, hended, ?_⟩
  rw [← hended, ended_eq hcounted, hlexings, Lexing.of, Lexing.of, tokensFrom, tokensFrom,
    diagnosticsFrom, diagnosticsFrom, placedPieces, placedPieces, hstring, hstray]
  rfl

end Prompt

end LoxScan
