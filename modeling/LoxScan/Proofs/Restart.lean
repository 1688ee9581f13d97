import LoxScan.Proofs.Lexing
import LoxScan.Proofs.Shift

/-!
# Starting inside a source

Nothing but the line is carried from one lexeme to the next. A scanner that starts between any two
characters of a source, be it in what the whole source has as a string or a comment, reads what is
ahead as a source of its own; its offsets are those of the whole source, and its lines start anew.
Where a token or a diagnostic ends, what the whole source has from there on is the same, on the
lines of the whole source.
-/

namespace LoxScan

open Utf8
open Cursor (between)

namespace Lexing

/-- A lexing some bytes and lines later. -/
def shift (bytes lines : Nat) (lexing : Lexing) : Lexing :=
  ⟨.ofList (lexing.tokens.toList.map (Token.shift bytes lines)),
    lexing.diagnostics.map (Diagnostic.shift bytes lines)⟩

/-- The tokens and diagnostics that start at an offset or later. -/
def onward (offset : Nat) (lexing : Lexing) : Lexing :=
  ⟨.ofList (lexing.tokens.toList.filter (offset ≤ ·.span.start)),
    lexing.diagnostics.filter (offset ≤ ·.span.start)⟩

/-- Whether a token or a diagnostic ends at an offset. -/
def EndsAt (lexing : Lexing) (offset : Nat) : Prop :=
  (∃ token ∈ lexing.tokens.toList, token.span.stop = offset) ∨
    ∃ diagnostic ∈ lexing.diagnostics, diagnostic.span.stop = offset

end Lexing

/-- A text is divided at an offset in one way. -/
theorem append_inj_of_size {front back left right : List Char}
    (h : front ++ back = left ++ right) (hsize : size front = size left) :
    front = left ∧ back = right := by
  induction front generalizing left with
  | nil =>
    cases left with
    | nil => exact ⟨rfl, h⟩
    | cons c left =>
      have hpos := c.utf8Size_pos
      simp only [size_nil, size_cons] at hsize
      omega
  | cons c front ih =>
    cases left with
    | nil =>
      have hpos := c.utf8Size_pos
      simp only [size_nil, size_cons] at hsize
      omega
    | cons d left =>
      obtain ⟨rfl, htail⟩ := List.cons.inj h
      simp only [size_cons] at hsize
      obtain ⟨rfl, hback⟩ := ih htail (by omega)
      exact ⟨rfl, hback⟩

/-- Whatever pieces the front of a text has, the rest has the others. -/
theorem eq_pieces_of_append {front back : List Char} {first second : List Piece}
    (h : pieces (front ++ back) = first ++ second) (hfront : first.flatMap (·.text) = front) :
    second = pieces back := by
  induction first generalizing front with
  | nil =>
    rw [← hfront] at h
    exact h.symm
  | cons piece first ih =>
    cases htext : front ++ back with
    | nil => simp [htext] at h
    | cons c text =>
      rw [htext, pieces_cons, List.cons_append] at h
      obtain ⟨rfl, hrest⟩ := List.cons.inj h
      -- What is behind the first piece is what is left of the front, and the back.
      rw [← hfront, List.flatMap_cons, List.append_assoc, ← Cut.text_of_append_rest c text] at htext
      rw [← List.append_cancel_left htext] at hrest
      exact ih hrest rfl

/-- The end of a placed piece is where it and the pieces in front of it end. -/
theorem exists_append_of_mem_place {pos line : Nat} {list : List Piece} {placed : Placed}
    (h : placed ∈ place pos line list) :
    ∃ first second, list = first ++ second ∧
      placed.span.stop = pos + size (first.flatMap (·.text)) := by
  induction list generalizing pos line with
  | nil => simp [place] at h
  | cons piece list ih =>
    rcases List.mem_cons.1 h with rfl | h
    · exact ⟨[piece], list, rfl, by simp [Placed.span]⟩
    · obtain ⟨first, second, rfl, hstop⟩ := ih h
      refine ⟨piece :: first, second, rfl, ?_⟩
      rw [hstop, List.flatMap_cons, size_append, Nat.add_assoc]

/-- Placed pieces start before the end of their text. -/
theorem start_lt_of_mem_place {pos line : Nat} {list : List Piece} {placed : Placed}
    (hne : ∀ piece ∈ list, piece.text ≠ []) (h : placed ∈ place pos line list) :
    placed.span.start < pos + size (list.flatMap (·.text)) := by
  induction list generalizing pos line with
  | nil => simp [place] at h
  | cons piece list ih =>
    obtain ⟨hfirst, hrest⟩ := List.forall_mem_cons.1 hne
    rw [List.flatMap_cons, size_append]
    rcases List.mem_cons.1 h with rfl | h
    · obtain ⟨c, tail, htext⟩ := List.exists_cons_of_ne_nil hfirst
      have hpos := c.utf8Size_pos
      simp only [Placed.span, htext, size_cons]
      omega
    · have hlt := ih hrest h
      omega

/-- No piece is empty. -/
theorem text_ne_nil_of_mem_pieces {text : List Char} {piece : Piece} (h : piece ∈ pieces text) :
    piece.text ≠ [] := by
  rw [← map_toPiece_place 0 1 (pieces text)] at h
  obtain ⟨placed, hplaced, rfl⟩ := List.mem_map.1 h
  obtain ⟨before, c, rest, -, rfl⟩ := exists_firstPlaced_of_mem hplaced
  obtain ⟨tail, htail⟩ := Cut.text_of_eq_cons c rest
  rw [firstPlaced, htail]
  simp

/-- A text is cut at an offset if some of its pieces end there. -/
def CutAt (offset : Nat) (text : List Char) : Prop :=
  ∃ first second, pieces text = first ++ second ∧ size (first.flatMap (·.text)) = offset

section

variable {front back : List Char}

/-- Where a token or a diagnostic ends, the text is cut. -/
theorem cutAt_of_endsAt {text : List Char} {offset : Nat}
    (h : (⟨.ofList (tokensFrom 0 1 text), diagnosticsFrom 0 1 text⟩ : Lexing).EndsAt offset) :
    CutAt offset text := by
  have hplaced {placed : Placed} (hmem : placed ∈ placedPieces 0 1 text) :
      CutAt placed.span.stop text := by
    obtain ⟨first, second, hpieces, hstop⟩ := exists_append_of_mem_place hmem
    exact ⟨first, second, hpieces, by rw [hstop, Nat.zero_add]⟩
  rcases h with ⟨token, hmem, rfl⟩ | ⟨diagnostic, hmem, rfl⟩
  · rw [Tokens.toList_ofList] at hmem
    rcases List.mem_append.1 hmem with hmem | hmem
    · obtain ⟨placed, hpiece, htoken⟩ := List.mem_filterMap.1 hmem
      obtain ⟨kind, literal, -, rfl⟩ := Placed.token?_eq_some_iff.1 htoken
      exact hplaced hpiece
    · obtain rfl := List.mem_singleton.1 hmem
      exact ⟨pieces text, [], by simp, by simp [flatMap_pieces, Token.endOfFile, Span.point]⟩
  · obtain ⟨placed, hpiece, hdiagnostic⟩ := List.mem_filterMap.1 hmem
    obtain ⟨problem, -, rfl⟩ := Placed.diagnostic?_eq_some_iff.1 hdiagnostic
    exact hplaced hpiece

/-- Where a text is cut, its pieces are those in front, which start there, and those of the rest. -/
theorem placedPieces_of_cutAt (h : CutAt (size front) (front ++ back)) (pos line : Nat) :
    ∃ earlier, (∀ placed ∈ earlier, placed.span.start < pos + size front) ∧
      placedPieces pos line (front ++ back) =
        earlier ++ placedPieces (pos + size front) (line + newlines front) back := by
  obtain ⟨first, second, hpieces, hsize⟩ := h
  have htext := flatMap_pieces (front ++ back)
  rw [hpieces, List.flatMap_append] at htext
  obtain ⟨hfront, -⟩ := append_inj_of_size htext hsize
  have hne : ∀ piece ∈ first, piece.text ≠ [] := by
    intro piece hpiece
    have hmem : piece ∈ pieces (front ++ back) := by
      rw [hpieces]
      exact List.mem_append_left second hpiece
    exact text_ne_nil_of_mem_pieces hmem
  refine ⟨place pos line first, fun placed hplaced => ?_, ?_⟩
  · rw [← hfront]
    exact start_lt_of_mem_place hne hplaced
  · rw [placedPieces, hpieces, place_append, hfront, eq_pieces_of_append hpieces hfront]
    rfl

/-- Of two lists, of which only the second satisfies a test, filtering leaves the second. -/
theorem filter_append_eq_right {α : Type} {test : α → Bool} {left right : List α}
    (hleft : ∀ entry ∈ left, test entry = false) (hright : ∀ entry ∈ right, test entry = true) :
    (left ++ right).filter test = right := by
  rw [List.filter_append, List.filter_eq_self.2 hright, List.filter_eq_nil_iff.2, List.nil_append]
  simpa using hleft

/-- Where a text is cut, the tokens from there on are those of the rest. -/
theorem filter_tokensFrom (h : CutAt (size front) (front ++ back)) (pos line : Nat) :
    (tokensFrom pos line (front ++ back)).filter (pos + size front ≤ ·.span.start) =
      tokensFrom (pos + size front) (line + newlines front) back := by
  obtain ⟨earlier, hearlier, hplaced⟩ := placedPieces_of_cutAt h pos line
  have htokens : tokensFrom pos line (front ++ back) = earlier.filterMap Placed.token? ++
      tokensFrom (pos + size front) (line + newlines front) back := by
    rw [tokensFrom, tokensFrom, hplaced, List.filterMap_append, List.append_assoc, size_append,
      newlines_append, Nat.add_assoc, Nat.add_assoc]
  rw [htokens]
  apply filter_append_eq_right
  · intro token hmem
    obtain ⟨placed, hpiece, htoken⟩ := List.mem_filterMap.1 hmem
    obtain ⟨kind, literal, -, rfl⟩ := Placed.token?_eq_some_iff.1 htoken
    simpa using hearlier placed hpiece
  · intro token hmem
    rcases List.mem_append.1 hmem with hmem | hmem
    · obtain ⟨before, c, rest, kind, literal, -, -, rfl⟩ := exists_of_mem_tokens hmem
      simp
    · obtain rfl := List.mem_singleton.1 hmem
      simp [Token.endOfFile, Span.point]

/-- Where a text is cut, the diagnostics from there on are those of the rest. -/
theorem filter_diagnosticsFrom (h : CutAt (size front) (front ++ back)) (pos line : Nat) :
    (diagnosticsFrom pos line (front ++ back)).filter (pos + size front ≤ ·.span.start) =
      diagnosticsFrom (pos + size front) (line + newlines front) back := by
  obtain ⟨earlier, hearlier, hplaced⟩ := placedPieces_of_cutAt h pos line
  rw [diagnosticsFrom, hplaced, List.filterMap_append]
  apply filter_append_eq_right
  · intro diagnostic hmem
    obtain ⟨placed, hpiece, hdiagnostic⟩ := List.mem_filterMap.1 hmem
    obtain ⟨problem, -, rfl⟩ := Placed.diagnostic?_eq_some_iff.1 hdiagnostic
    simpa using hearlier placed hpiece
  · intro diagnostic hmem
    obtain ⟨before, c, rest, problem, -, -, rfl⟩ := exists_of_mem_diagnosticsFrom hmem
    simp

end

/-- A scanner that starts between two characters of a text drains the rest of it. -/
theorem Scanner.drain_start_between {front back : List Char}
    (hsize : size (front ++ back) ≤ maxWord) (hlines : newlines back < maxWord) :
    (start (between (front ++ back) (size front) back)).drain =
      .ok ⟨.ofList (tokensFrom (size front) 1 back), diagnosticsFrom (size front) 1 back⟩ := by
  rw [size_append] at hsize
  have hdrain : (facing (front ++ back) (size front) 1 #[] back).drainInto {} = _ :=
    drainInto_facing back {} hsize (by decide)
  rw [if_pos (by omega)] at hdrain
  exact hdrain

/-- A scanner that starts between two characters of a source yields the lexing of the rest, moved
by the bytes in front only. Where a token or a diagnostic of the source ends, the lexing of the
rest, moved by the bytes and the lines in front, is also what the source itself has from there. -/
theorem lex_restart (front back : String) (hsize : size (front ++ back).toList ≤ maxWord)
    (hlines : newlines (front ++ back).toList < maxWord) :
    ∃ whole rest cursor, lex (front ++ back) = .ok whole ∧ lex back = .ok rest ∧
      (Source.cursor ⟨(front ++ back).toList, hsize⟩).advanceBy (size front.toList) = .ok cursor ∧
      (Scanner.start cursor).drain = .ok (rest.shift (size front.toList) 0) ∧
      (whole.EndsAt (size front.toList) →
        whole.onward (size front.toList) =
          rest.shift (size front.toList) (newlines front.toList)) := by
  have htext : (front ++ back).toList = front.toList ++ back.toList := String.toList_append
  have hwhole := lex_eq_ok hsize hlines
  simp only [Source.cursor, htext] at hsize hlines hwhole ⊢
  rw [size_append] at hsize
  rw [newlines_append] at hlines
  have hcursor : (between (front.toList ++ back.toList) 0 (front.toList ++ back.toList)).advanceBy
      (size front.toList) = .ok (between (front.toList ++ back.toList) (0 + size front.toList)
        back.toList) := Cursor.advanceBy_between (by omega) back.toList
  rw [Nat.zero_add] at hcursor
  refine ⟨_, _, _, hwhole, lex_eq_ok (by omega) (by omega), hcursor, ?_, fun hends => ?_⟩
  · rw [Scanner.drain_start_between (by rwa [size_append]) (by omega), Lexing.shift,
      Tokens.toList_ofList, ← tokensFrom_shift, ← diagnosticsFrom_shift, Nat.zero_add,
      Nat.add_zero]
  · have hcut := cutAt_of_endsAt hends
    have htokens := filter_tokensFrom hcut 0 1
    have hdiagnostics := filter_diagnosticsFrom hcut 0 1
    rw [tokensFrom_shift, Nat.zero_add] at htokens
    rw [diagnosticsFrom_shift, Nat.zero_add] at hdiagnostics
    rw [Lexing.onward, Lexing.shift, Tokens.toList_ofList, Tokens.toList_ofList, htokens,
      hdiagnostics]

/-- Behind a stray character the source goes on as what follows does, one line down: the point that
follows belongs to a number in both. -/
theorem lex_restart_behind_stray :
    ∃ whole rest cursor, lex ("\"a\n\"@" ++ "1.5\"b") = .ok whole ∧ lex "1.5\"b" = .ok rest ∧
      (Source.cursor ⟨("\"a\n\"@" ++ "1.5\"b").toList, by decide⟩).advanceBy 5 = .ok cursor ∧
      rest.tokens.kinds = [.number, .endOfFile] ∧ whole.EndsAt 5 ∧
      (Scanner.start cursor).drain = .ok (rest.shift 5 0) ∧ whole.onward 5 = rest.shift 5 1 := by
  have hback : pieces "1.5\"b".toList =
      [⟨['1', '.', '5'], .token .number (Cut.numeralValue ['1', '.', '5'])⟩,
        ⟨['"', 'b'], .problem .unterminatedString⟩] := by
    simp [pieces_cons, Cut.of, Opening.ofChar, Cut.number, Cut.fraction, Cut.string]
  have hwhole : pieces ("\"a\n\"@" ++ "1.5\"b").toList =
      [⟨['"', 'a', '\n', '"'], .token .string (.text "a\n")⟩,
        ⟨['@'], .problem (.unexpectedCharacter '@')⟩] ++ pieces "1.5\"b".toList := by
    rw [hback]
    simp [pieces_cons, Cut.of, Opening.ofChar, Cut.number, Cut.fraction, Cut.string]
  obtain ⟨whole, rest, cursor, hlexing, hrest, hcursor, hdrain, honward⟩ :=
    lex_restart "\"a\n\"@" "1.5\"b" (by decide) (by decide)
  have hends : whole.EndsAt 5 := by
    have hvalue := hlexing
    rw [lex_eq_ok (by decide) (by decide)] at hvalue
    cases hvalue
    refine Or.inr ⟨⟨.unexpectedCharacter '@', 2, ⟨4, 5⟩⟩, ?_, rfl⟩
    rw [diagnosticsFrom, placedPieces, hwhole]
    decide
  refine ⟨whole, rest, cursor, hlexing, hrest, hcursor, ?_, hends, hdrain, honward hends⟩
  rw [lex_eq_ok (by decide) (by decide)] at hrest
  cases hrest
  rw [Tokens.kinds, Tokens.toList_ofList, tokensFrom, placedPieces, hback]
  rfl

end LoxScan
