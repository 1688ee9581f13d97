import LoxScan.Proofs.FirstPiece
import LoxScan.Proofs.Placed
import LoxScan.Proofs.Reading

/-!
# Lexing places the pieces of a text

Tokens and diagnostics of a source are those of its pieces, each at its place, with the
end-of-file token at the end. The only fault is a line that is no word.
-/

namespace LoxScan

open Utf8
open Cursor (between)

/-- No piece is an end-of-file token. -/
theorem Cut.kind_ne_endOfFile {c : Char} {text : List Char} {kind : Kind} {literal : Literal}
    (h : (Cut.of c text).finding = .token kind literal) : kind ≠ .endOfFile := by
  have hfirst := FirstPiece.of c text
  generalize Cut.of c text = cut at h hfirst
  cases hfirst with
  | single hopening =>
    cases h
    exact Opening.kind_ne_endOfFile hopening
  | alone hopening hrest =>
    cases h
    exact (Opening.kinds_ne_endOfFile hopening).1
  | followed hopening =>
    cases h
    exact (Opening.kinds_ne_endOfFile hopening).2
  | word hopening htail hrest =>
    cases h
    unfold Kind.ofWord
    split <;> simp
  | comment | blank | openString | stray => cases h
  | slash | string | whole | fraction =>
    cases h
    simp

/-- No placed piece is an end-of-file token. -/
theorem kind_ne_endOfFile_of_token? {pos line : Nat} {c : Char} {text : List Char} {token : Token}
    (h : (firstPlaced pos line c text).token? = some token) : token.kind ≠ .endOfFile := by
  obtain ⟨kind, literal, hfinding, rfl⟩ := Placed.token?_eq_some_iff.1 h
  exact Cut.kind_ne_endOfFile hfinding

namespace Scanner

variable {text : List Char} {pos line : Nat} {diagnostics : Array Diagnostic}

/-- The scanner at an offset and on a line of a text, with whole characters ahead. -/
def facing (text : List Char) (pos line : Nat) (diagnostics : Array Diagnostic)
    (rest : List Char) : Scanner :=
  ⟨between text pos rest, line, diagnostics⟩

/-- A scanner that faces a text has its cursor in front of it. -/
@[simp] theorem facing_cursor (rest : List Char) :
    (facing text pos line diagnostics rest).cursor = between text pos rest := rfl

/-- A scanner that faces a text is on the line it was put on. -/
@[simp] theorem facing_line (rest : List Char) :
    (facing text pos line diagnostics rest).line = line := rfl

/-- A scanner that faces a text has found the diagnostics it was given. -/
@[simp] theorem facing_diagnostics (rest : List Char) :
    (facing text pos line diagnostics rest).diagnostics = diagnostics := rfl

/-- The first step of a scanner goes behind the lead byte of a character. -/
theorem step?_facing (c : Char) (rest : List Char) :
    (facing text pos line diagnostics (c :: rest)).cursor.step? =
      some (lead c, ⟨text, pos + 1, trail c, rest⟩) :=
  Cursor.step?_between c rest

/-- One lexeme of the scanner unfolded. -/
theorem next_eq (scanner : Scanner) : scanner.next =
    match scanner.cursor.step? with
    | none => .ok (.endOfFile scanner.line scanner.cursor.pos, scanner)
    | some (first, after) =>
      Reading.of scanner.cursor first after scanner.line >>= fun reading =>
        match reading.finding with
        | .token kind literal =>
          scanner.token reading kind literal >>= fun token => .ok (token, scanner.move reading)
        | .trivia => (scanner.move reading).next
        | .problem problem => scanner.record reading problem >>= next := by
  rw [next]
  split
  · next hstep => rw [hstep]
  · next first after hstep =>
    rw [hstep]
    simp only
    split
    · next hreading => rw [hreading]; rfl
    · next reading hreading =>
      rw [hreading]
      simp only [bind, Except.bind]
      cases reading.finding with
      | token kind literal =>
        simp only
        cases scanner.token reading kind literal <;> rfl
      | trivia => rfl
      | problem problem =>
        simp only
        split <;> next hrecord => simp only [hrecord]

/-- One token of a drained scanner unfolded. -/
theorem drainInto_eq (scanner : Scanner) (tokens : Tokens) : scanner.drainInto tokens =
    scanner.next >>= fun found =>
      if found.1.kind = .endOfFile then
        .ok ⟨tokens.push found.1, found.2.diagnostics.toList⟩
      else found.2.drainInto (tokens.push found.1) := by
  rw [drainInto]
  split <;> next hnext => rw [hnext]; rfl

/-- The token of the first piece is made of its text and its place. -/
theorem token_facing (c : Char) (rest : List Char) (below : Nat) (finding : Finding)
    (kind : Kind) (literal : Literal) :
    (facing text pos line diagnostics (c :: rest)).token
        ⟨between text (pos + size (Cut.of c rest).text) (Cut.of c rest).rest, below, finding⟩
        kind literal =
      .ok ⟨kind, String.ofList (Cut.of c rest).text, literal, line,
        (firstPlaced pos line c rest).span⟩ := by
  have htext : (between text pos (c :: rest)).textTo
      (between text (pos + size (Cut.of c rest).text) (Cut.of c rest).rest) =
      .ok (Cut.of c rest).text := by
    rw [← Cut.text_of_append_rest c rest]
    exact Cursor.textTo_between _ _
  have hspan : Span.make pos (pos + size (Cut.of c rest).text) =
      .ok (firstPlaced pos line c rest).span :=
    (Span.make_eq_ok_iff _ _ _).2 ⟨Nat.le_add_right _ _, rfl⟩
  simp only [token, facing, Cursor.between_pos, htext, hspan, bind, Except.bind, pure, Except.pure]

/-- A scanner moves to where a reading ends. -/
theorem move_facing (ahead rest : List Char) (stop below : Nat) (finding : Finding) :
    (facing text pos line diagnostics ahead).move ⟨between text stop rest, below, finding⟩ =
      facing text stop below diagnostics rest := rfl

/-- A problem is recorded on the line where its piece ends. -/
theorem record_facing (c : Char) (rest : List Char) (below : Nat) (finding : Finding)
    (problem : Problem) :
    (facing text pos line diagnostics (c :: rest)).record
        ⟨between text (pos + size (Cut.of c rest).text) (Cut.of c rest).rest, below, finding⟩
        problem =
      .ok (facing text (pos + size (Cut.of c rest).text) below
        (diagnostics.push ⟨problem, below, (firstPlaced pos line c rest).span⟩)
        (Cut.of c rest).rest) := by
  have hspan : Span.make pos (pos + size (Cut.of c rest).text) =
      .ok (firstPlaced pos line c rest).span :=
    (Span.make_eq_ok_iff _ _ _).2 ⟨Nat.le_add_right _ _, rfl⟩
  simp only [record, move, facing, Cursor.between_pos, hspan, bind, Except.bind, pure, Except.pure]

/-- The scanner behind the first piece of the text ahead. -/
def behind (text : List Char) (pos line : Nat) (diagnostics : Array Diagnostic) (c : Char)
    (rest : List Char) : Scanner :=
  facing text (pos + size (Cut.of c rest).text) (line + newlines (Cut.of c rest).text)
    (diagnostics ++ (firstPlaced pos line c rest).diagnostic?.toList) (Cut.of c rest).rest

/-- At the end the scanner hands out the end of file. -/
theorem next_facing_nil : (facing text pos line diagnostics []).next =
    .ok (.endOfFile line pos, facing text pos line diagnostics []) := by
  rw [next_eq]
  rfl

/-- The scanner hands out the first piece if it is a token, and goes on behind it otherwise. -/
theorem next_facing_cons (c : Char) (rest : List Char) (hpos : pos + size (c :: rest) ≤ maxWord)
    (hline : line + newlines (Cut.of c rest).text ≤ maxWord) :
    (facing text pos line diagnostics (c :: rest)).next =
      match (firstPlaced pos line c rest).token? with
      | some token => .ok (token, behind text pos line diagnostics c rest)
      | none => (behind text pos line diagnostics c rest).next := by
  have hreading := Reading.of_between text c rest hpos (by omega : line ≤ maxWord)
  rw [Reading.ofCut, if_pos hline] at hreading
  rw [next_eq, step?_facing]
  simp only [facing_cursor, facing_line, hreading, bind, Except.bind]
  cases hfinding : (Cut.of c rest).finding with
  | token kind literal =>
    rw [token?_firstPlaced hfinding, behind, diagnostic?_firstPlaced_eq_none (by simp [hfinding])]
    simp only [token_facing, move_facing]
    rfl
  | trivia =>
    rw [token?_firstPlaced_eq_none (by simp [hfinding]), behind,
      diagnostic?_firstPlaced_eq_none (by simp [hfinding])]
    simp only [move_facing]
    rfl
  | problem problem =>
    rw [token?_firstPlaced_eq_none (by simp [hfinding]), behind,
      diagnostic?_firstPlaced hfinding]
    simp only [record_facing]
    rfl

/-- The scanner fails at a piece with a newline that makes the line no word. -/
theorem next_facing_overflow (c : Char) (rest : List Char)
    (hpos : pos + size (c :: rest) ≤ maxWord) (hline : line ≤ maxWord)
    (hover : maxWord < line + newlines (Cut.of c rest).text) :
    (facing text pos line diagnostics (c :: rest)).next = .error .addOverflow := by
  have hreading := Reading.of_between text c rest hpos hline
  rw [Reading.ofCut, if_neg (by omega)] at hreading
  rw [next_eq, step?_facing]
  simp only [facing_cursor, facing_line, hreading, bind, Except.bind]

/-- Draining goes on behind the first piece, with its token if it is one. -/
theorem drainInto_facing_cons (c : Char) (rest : List Char) (tokens : Tokens)
    (hpos : pos + size (c :: rest) ≤ maxWord)
    (hline : line + newlines (Cut.of c rest).text ≤ maxWord) :
    (facing text pos line diagnostics (c :: rest)).drainInto tokens =
      (behind text pos line diagnostics c rest).drainInto
        (.ofList (tokens.toList ++ (firstPlaced pos line c rest).token?.toList)) := by
  rw [drainInto_eq, next_facing_cons c rest hpos hline]
  cases htoken : (firstPlaced pos line c rest).token? with
  | none =>
    rw [drainInto_eq (behind text pos line diagnostics c rest)]
    simp [Tokens.ofList, Tokens.toList]
  | some token =>
    simp only [bind, Except.bind, if_neg (kind_ne_endOfFile_of_token? htoken)]
    rw [Tokens.push_eq_ofList]
    rfl

/-- Draining places the pieces of the text ahead, unless a line there is no word. -/
theorem drainInto_facing (rest : List Char) (tokens : Tokens) (hpos : pos + size rest ≤ maxWord)
    (hline : line ≤ maxWord) :
    (facing text pos line diagnostics rest).drainInto tokens =
      if line + newlines rest ≤ maxWord then
        .ok ⟨.ofList (tokens.toList ++ tokensFrom pos line rest),
          diagnostics.toList ++ diagnosticsFrom pos line rest⟩
      else .error .addOverflow := by
  induction rest using pieces.induct generalizing pos line diagnostics tokens with
  | case1 =>
    rw [drainInto_eq, next_facing_nil]
    simp [hline, bind, Except.bind, Token.endOfFile, Tokens.push_eq_ofList]
  | case2 c rest ih =>
    have hsize := size_cons_eq_cut c rest
    have hcount := newlines_cons_eq_cut c rest
    by_cases hfirst : line + newlines (Cut.of c rest).text ≤ maxWord
    · rw [drainInto_facing_cons c rest tokens hpos hfirst, behind, ih _ (by omega) hfirst,
        Tokens.toList_ofList, Array.toList_appendList, List.append_assoc, List.append_assoc,
        ← tokensFrom_cons, ← diagnosticsFrom_cons, hcount, Nat.add_assoc]
    · rw [drainInto_eq, next_facing_overflow c rest hpos hline (by omega), if_neg (by omega)]
      rfl

end Scanner

/-- Lexing places the pieces of the text, unless there are as many newlines as words. -/
theorem lex_eq (text : String) (hsize : size text.toList ≤ maxWord) :
    lex text =
      if newlines text.toList < maxWord then
        .ok ⟨.ofList (tokensFrom 0 1 text.toList), diagnosticsFrom 0 1 text.toList⟩
      else .error .addOverflow := by
  have hsource : Source.ofString text = .ok ⟨text.toList, hsize⟩ := dif_pos hsize
  have hdrain : (Scanner.facing text.toList 0 1 #[] text.toList).drainInto {} = _ :=
    Scanner.drainInto_facing text.toList {} (by simpa using hsize) (by decide)
  rw [lex, hsource]
  change (Scanner.facing text.toList 0 1 #[] text.toList).drainInto {} = _
  rw [hdrain]
  by_cases hcount : newlines text.toList < maxWord
  · rw [if_pos hcount, if_pos (by omega)]
    simp
  · rw [if_neg hcount, if_neg (by omega)]

/-- The lexing of a text that has one. -/
theorem lex_eq_ok {text : String} (hsize : size text.toList ≤ maxWord)
    (hlines : newlines text.toList < maxWord) :
    lex text = .ok ⟨.ofList (tokensFrom 0 1 text.toList), diagnosticsFrom 0 1 text.toList⟩ := by
  rw [lex_eq text hsize, if_pos hlines]

/-- The lexing of a text, if it is not too long. -/
def Lexing.of (text : List Char) : Lexing :=
  ⟨.ofList (tokensFrom 0 1 text), diagnosticsFrom 0 1 text⟩

/-- A source whose offsets and lines are words has the lexing of its text. -/
theorem lex_ofList {text : List Char} (hsize : size text ≤ maxWord)
    (hlines : newlines text < maxWord) : lex (String.ofList text) = .ok (.of text) := by
  have htext : (String.ofList text).toList = text := String.toList_ofList
  rw [← htext] at hsize hlines
  rw [lex_eq_ok hsize hlines, htext, Lexing.of]

end LoxScan
