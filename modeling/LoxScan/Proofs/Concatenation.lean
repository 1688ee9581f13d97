import LoxScan.Proofs.Lexing
import LoxScan.Proofs.Seam
import LoxScan.Proofs.Shift
import LoxScan.Proofs.Tiling

/-!
# Texts joined by a newline

A newline ends every piece but an open string, just as the end of a text does. Hence two texts
joined by a newline have the tokens and diagnostics of the first, and behind them those of the
second, moved behind the newline; only the end of file of the first is left out.
-/

namespace LoxScan

open Utf8

/-- No string is left open. -/
def Lexing.Closed (lexing : Lexing) : Prop :=
  ∀ diagnostic ∈ lexing.diagnostics, diagnostic.problem ≠ .unterminatedString

/-- No string is left open if no piece is an open string. -/
theorem Lexing.closed_of_iff {text : List Char} : (Lexing.of text).Closed ↔
    ∀ piece ∈ pieces text, piece.finding ≠ .problem .unterminatedString := by
  constructor
  · intro h piece hpiece hfinding
    obtain ⟨diagnostic, hmem, hproblem⟩ :=
      (exists_diagnostic_iff 0 1 text _).2 ⟨piece, hpiece, hfinding⟩
    exact h diagnostic hmem hproblem
  · intro h diagnostic hmem hproblem
    obtain ⟨piece, hpiece, hfinding⟩ :=
      (exists_diagnostic_iff 0 1 text _).1 ⟨diagnostic, hmem, hproblem⟩
    exact h piece hpiece hfinding

/-- A newline shows no more than the end of the text in front of it did. -/
theorem mayFollow_newline {cut : Cut} (h : cut.finding ≠ .problem .unterminatedString)
    (text : List Char) : MayFollow (cut.rest ++ '\n' :: text) cut := by
  have hblank : AtBlank ('\n' :: text) := by simp [AtBlank, IsBlank]
  refine ⟨h, .append cut.rest hblank, fun _ hrest => ?_⟩
  rcases hrest with hnil | hhead
  · rw [hnil]
    exact Or.inr rfl
  · obtain ⟨behind, hbehind⟩ := List.head?_eq_some_iff.1 hhead
    rw [hbehind]
    exact Or.inr rfl

/-- The pieces of a text end where a newline is put behind it. -/
theorem pieces_append_newline (front : List Char)
    (h : ∀ piece ∈ pieces front, piece.finding ≠ .problem .unterminatedString)
    (back : List Char) :
    pieces (front ++ '\n' :: back) = pieces front ++ pieces ('\n' :: back) := by
  induction front using pieces.induct with
  | case1 => simp
  | case2 c front ih =>
    rw [pieces_cons] at h ⊢
    obtain ⟨hfirst, hrest⟩ := List.forall_mem_cons.1 h
    have hfollow := mayFollow_newline hfirst back
    rw [← Cut.text_of_append_rest c front, List.append_assoc,
      pieces_append_of_mayFollow hfollow, ih hrest]
    rfl

section

variable (pos line : Nat) (text : List Char)

/-- A newline gives no token and ends its line. -/
theorem tokensFrom_newline_cons :
    tokensFrom pos line ('\n' :: text) = tokensFrom (pos + 1) (line + 1) text := by
  rw [tokensFrom_cons]
  rfl

/-- A newline gives no diagnostic and ends its line. -/
theorem diagnosticsFrom_newline_cons :
    diagnosticsFrom pos line ('\n' :: text) = diagnosticsFrom (pos + 1) (line + 1) text := by
  rw [diagnosticsFrom_cons]
  rfl

end

/-- Lexing two texts joined by a newline yields the tokens and diagnostics of both, if the first
leaves no string open. -/
theorem lex_append_newline (front back : String)
    (hsize : size (front ++ "\n" ++ back).toList ≤ maxWord)
    (hlines : newlines (front ++ "\n" ++ back).toList < maxWord) :
    ∃ first second joined, lex front = .ok first ∧ lex back = .ok second ∧
      lex (front ++ "\n" ++ back) = .ok joined ∧
      (first.Closed →
        joined.tokens.toList = first.lexemes ++ second.tokens.toList.map
          (Token.shift (size front.toList + 1) (1 + newlines front.toList)) ∧
        joined.diagnostics = first.diagnostics ++ second.diagnostics.map
          (Diagnostic.shift (size front.toList + 1) (1 + newlines front.toList))) := by
  have htext : (front ++ "\n" ++ back).toList = front.toList ++ '\n' :: back.toList := by simp
  have hjoined := lex_eq_ok hsize hlines
  rw [htext] at hsize hlines hjoined
  rw [size_append, size_cons] at hsize
  rw [newlines_append, newlines_cons_self] at hlines
  refine ⟨_, _, _, lex_eq_ok (by omega) (by omega), lex_eq_ok (by omega) (by omega), hjoined,
    fun hclosed => ?_⟩
  have hpieces :=
    pieces_append_newline front.toList (Lexing.closed_of_iff.1 hclosed) back.toList
  constructor
  · rw [Tokens.toList_ofList, Tokens.toList_ofList, lexemes_eq, tokensFrom_append 0 1 hpieces,
      tokensFrom_newline_cons, ← tokensFrom_shift, Nat.add_assoc, Nat.add_assoc,
      Nat.add_comm 1 (newlines _)]
  · rw [diagnosticsFrom_append 0 1 hpieces, diagnosticsFrom_newline_cons,
      ← diagnosticsFrom_shift, Nat.add_assoc, Nat.add_assoc, Nat.add_comm 1 (newlines _)]

/-- A point before the newline and a digit behind it are no fraction. -/
theorem lex_append_newline_of_point :
    ∃ first second joined, lex "@1." = .ok first ∧ lex "5\"" = .ok second ∧
      lex ("@1." ++ "\n" ++ "5\"") = .ok joined ∧ first.Closed ∧
      joined.tokens.kinds = [.number, .dot, .number, .endOfFile] ∧
      joined.tokens.toList = first.lexemes ++ second.tokens.toList.map (Token.shift 4 1) ∧
      joined.diagnostics = first.diagnostics ++ second.diagnostics.map (Diagnostic.shift 4 1) := by
  have hfront : pieces "@1.".toList =
      [⟨['@'], .problem (.unexpectedCharacter '@')⟩,
        ⟨['1'], .token .number (Cut.numeralValue ['1'])⟩, ⟨['.'], .token .dot .none⟩] := by
    simp [pieces_cons, Cut.of, Opening.ofChar, Cut.number, Cut.fraction]
  have hjoined : pieces ("@1." ++ "\n" ++ "5\"").toList = pieces "@1.".toList ++
      [⟨['\n'], .trivia⟩, ⟨['5'], .token .number (Cut.numeralValue ['5'])⟩,
        ⟨['"'], .problem .unterminatedString⟩] := by
    rw [hfront]
    simp [pieces_cons, Cut.of, Opening.ofChar, Cut.number, Cut.string, Cut.fraction]
  obtain ⟨first, second, joined, hfirst, hsecond, hlexing, h⟩ :=
    lex_append_newline "@1." "5\"" (by decide) (by decide)
  have hclosed : first.Closed := by
    rw [lex_eq_ok (by decide) (by decide)] at hfirst
    cases hfirst
    rw [Lexing.Closed, diagnosticsFrom, placedPieces, hfront]
    decide
  refine ⟨first, second, joined, hfirst, hsecond, hlexing, hclosed, ?_, h hclosed⟩
  rw [lex_eq_ok (by decide) (by decide)] at hlexing
  cases hlexing
  rw [Tokens.kinds, Tokens.toList_ofList, tokensFrom, placedPieces, hjoined, hfront]
  rfl

end LoxScan
