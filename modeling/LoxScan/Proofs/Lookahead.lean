import LoxScan.Proofs.Automaton
import LoxScan.Proofs.Seam
import LoxScan.Proofs.Tiling

/-!
# How far text to come reaches back

Two bytes of lookahead decide where a lexeme ends. Whatever is put behind a text, a token that has
two bytes of the text behind it stays as it is, and so do all tokens in front of it. A point at the
end of a text shows that one byte is not enough: a digit put behind it makes it a part of the number
in front. Reports on stray characters need no lookahead at all; only the report on an open string
can be taken back.
-/

namespace LoxScan

open Utf8

namespace Lexing

/-- The tokens with two bytes or more of a text of some size behind them. -/
def settled (size : Nat) (lexing : Lexing) : List Token :=
  lexing.lexemes.filter (·.span.stop + 2 ≤ size)

/-- The diagnostics on stray characters. -/
def strays (lexing : Lexing) : List Diagnostic :=
  lexing.diagnostics.filter (·.problem != .unterminatedString)

end Lexing

/-- More text behind a text does not change how it begins. -/
theorem BeginsAs.append_right {rest : List Char} (h : rest ≠ []) (more : List Char) :
    BeginsAs (rest ++ more) rest := by
  intro c hc
  rw [List.head?_append_of_ne_nil rest h] at hc
  exact Or.inl hc

/-- Two bytes are as much as a piece sees, so what is behind them makes no difference. -/
theorem Relaxes.append_right {rest : List Char} (h : 2 ≤ size rest) (more : List Char) :
    Relaxes (rest ++ more) rest := by
  cases rest with
  | nil => simp at h
  | cons c rest =>
    refine ⟨BeginsAs.append_right (by simp) more, fun behind hbehind => ?_⟩
    obtain ⟨rfl, rfl⟩ := List.cons.inj hbehind
    have hne : rest ≠ [] := by
      rintro rfl
      exact absurd h (by decide)
    exact ⟨rest, rfl, BeginsAs.append_right hne more⟩

section

variable {c : Char} {text : List Char}

/-- An open string has nothing behind it. -/
theorem Cut.finding_ne_of_rest_ne_nil (h : (of c text).rest ≠ []) :
    (of c text).finding ≠ .problem .unterminatedString := by
  intro hfinding
  have htext := (FirstPiece.of c text).text_of_unterminatedString hfinding
  have hsplit := text_of_append_rest c text
  rw [htext] at hsplit
  exact h (List.append_right_eq_self.1 hsplit)

/-- Behind a piece with two bytes behind it, any text may follow these. -/
theorem MayFollow.append_right (h : 2 ≤ size (Cut.of c text).rest) (more : List Char) :
    MayFollow ((Cut.of c text).rest ++ more) (Cut.of c text) := by
  have hne : (Cut.of c text).rest ≠ [] := by
    intro hnil
    rw [hnil] at h
    simp at h
  refine ⟨Cut.finding_ne_of_rest_ne_nil hne, .append_right h more, fun _ hend => ?_⟩
  rcases hend with hnil | hhead
  · exact absurd hnil hne
  · exact Or.inr (by rw [List.head?_append_of_ne_nil _ hne, hhead])

/-- The first piece stays the same if it has two bytes of a text behind it. -/
theorem Cut.of_append (h : 2 ≤ size (of c text).rest) (more : List Char) :
    of c (text ++ more) = ⟨(of c text).toPiece, (of c text).rest ++ more⟩ := by
  obtain ⟨tail, htail⟩ := text_of_eq_cons c text
  have hsplit := text_of_append_rest c text
  have hfirst := (FirstPiece.of c text).replace (MayFollow.append_right h more)
  rw [htail, List.cons_append] at hsplit
  rw [htail, List.tail_cons, ← List.append_assoc, List.cons_injective hsplit] at hfirst
  exact hfirst.eq_of.symm

/-- With two bytes behind the first piece, what is put behind a text is read behind its rest. -/
theorem tokensFrom_append_of_le (h : 2 ≤ size (Cut.of c text).rest) (pos line : Nat)
    (more : List Char) :
    tokensFrom pos line (c :: (text ++ more)) = (firstPlaced pos line c text).token?.toList ++
      tokensFrom (pos + size (Cut.of c text).text) (line + newlines (Cut.of c text).text)
        ((Cut.of c text).rest ++ more) := by
  rw [tokensFrom_cons, firstPlaced, Cut.of_append h]
  rfl

/-- Without two bytes behind the first piece, there are not two behind any token. -/
theorem lt_stop_of_mem_tokens (h : size (Cut.of c text).rest < 2) {pos line : Nat}
    {token : Token} (hmem : token ∈ (placedPieces pos line (c :: text)).filterMap Placed.token?) :
    pos + size (c :: text) < token.span.stop + 2 := by
  rw [size_cons_eq_cut]
  rw [filterMap_placedPieces_cons] at hmem
  rcases List.mem_append.1 hmem with hmem | hmem
  · obtain ⟨kind, literal, -, rfl⟩ := Placed.token?_eq_some_iff.1 (Option.mem_toList.1 hmem)
    simp only [Placed.span, firstPlaced]
    omega
  · obtain ⟨before, d, rest, kind, literal, -, -, rfl⟩ := exists_of_mem_tokens hmem
    simp only
    omega

end

/-- The tokens with two bytes of a text behind them are the first ones of every longer text. -/
theorem filter_tokens_prefix (pos line : Nat) (front back : List Char) :
    ((placedPieces pos line front).filterMap Placed.token?).filter
        (·.span.stop + 2 ≤ pos + size front) <+: tokensFrom pos line (front ++ back) := by
  induction front using pieces.induct generalizing pos line with
  | case1 => simp
  | case2 c text ih =>
    by_cases h : 2 ≤ size (Cut.of c text).rest
    · have hfirst : (firstPlaced pos line c text).token?.toList.filter
          (·.span.stop + 2 ≤ pos + size (c :: text)) =
            (firstPlaced pos line c text).token?.toList := by
        apply List.filter_eq_self.2
        intro token hmem
        obtain ⟨kind, literal, -, rfl⟩ := Placed.token?_eq_some_iff.1 (Option.mem_toList.1 hmem)
        simp only [Placed.span, firstPlaced, size_cons_eq_cut, decide_eq_true_eq]
        omega
      rw [filterMap_placedPieces_cons, List.filter_append, hfirst, List.cons_append,
        tokensFrom_append_of_le h, size_cons_eq_cut, ← Nat.add_assoc]
      exact (List.prefix_append_right_inj _).2 (ih _ _)
    · have hnone : ((placedPieces pos line (c :: text)).filterMap Placed.token?).filter
          (·.span.stop + 2 ≤ pos + size (c :: text)) = [] := by
        apply List.filter_eq_nil_iff.2
        intro token hmem
        have hlt := lt_stop_of_mem_tokens (by omega) hmem
        simpa using hlt
      rw [hnone]
      exact List.nil_prefix

namespace Mode

/-- What is reported on the way through a text does not depend on what follows. -/
theorem exists_diagnose_append (mode : Mode) (pos line : Nat) (front : List Char) :
    ∃ (strays : List Diagnostic) (last : Mode),
      (∀ diagnostic ∈ strays, diagnostic.problem ≠ .unterminatedString) ∧
      ∀ back, mode.diagnose pos line (front ++ back) =
        strays ++ last.diagnose (pos + size front) (line + newlines front) back := by
  induction front generalizing mode pos line with
  | nil => exact ⟨[], mode, by simp, fun _ => rfl⟩
  | cons c front ih =>
    obtain ⟨strays, last, hstrays, hdiagnose⟩ :=
      ih (mode.next pos c) (pos + c.utf8Size) (line + newlines [c])
    refine ⟨mode.report pos line c ++ strays, last, ?_, fun back => ?_⟩
    · intro diagnostic hmem
      rcases List.mem_append.1 hmem with hmem | hmem
      · exact problem_ne_of_mem_report hmem
      · exact hstrays diagnostic hmem
    · rw [List.cons_append, diagnose, hdiagnose, List.append_assoc, size_cons,
        newlines_cons_eq_add c front, Nat.add_assoc, Nat.add_assoc]

/-- What is reported at the end is an open string. -/
theorem problem_of_mem_finish {mode : Mode} {pos line : Nat} {diagnostic : Diagnostic}
    (h : diagnostic ∈ mode.finish pos line) : diagnostic.problem = .unterminatedString := by
  cases mode with
  | string opened => rw [List.mem_singleton.1 h]
  | code | slash | comment => cases h

end Mode

/-- The diagnostics on stray characters are the first ones of every longer text. -/
theorem filter_diagnosticsFrom_prefix (pos line : Nat) (front back : List Char) :
    (diagnosticsFrom pos line front).filter (·.problem != .unterminatedString) <+:
      diagnosticsFrom pos line (front ++ back) := by
  obtain ⟨strays, last, hstrays, hdiagnose⟩ :=
    Mode.code.exists_diagnose_append pos line front
  have hfront := hdiagnose []
  rw [List.append_nil] at hfront
  have hkept : strays.filter (·.problem != .unterminatedString) = strays :=
    List.filter_eq_self.2 fun diagnostic hmem => by simpa using hstrays diagnostic hmem
  have hdropped : (last.finish (pos + size front) (line + newlines front)).filter
      (·.problem != .unterminatedString) = [] :=
    List.filter_eq_nil_iff.2 fun diagnostic hmem => by simpa using Mode.problem_of_mem_finish hmem
  rw [diagnosticsFrom_eq_diagnose, diagnosticsFrom_eq_diagnose, hfront, hdiagnose, Mode.diagnose,
    List.filter_append, hkept, hdropped, List.append_nil]
  exact List.prefix_append _ _

/-- Whatever is put behind a text, its tokens with two bytes behind them and its diagnostics on
stray characters stay as they are, in front of all others. -/
theorem lex_settled_prefix (front back : String)
    (hsize : size (front ++ back).toList ≤ maxWord)
    (hlines : newlines (front ++ back).toList < maxWord) :
    ∃ first whole, lex front = .ok first ∧ lex (front ++ back) = .ok whole ∧
      first.settled (size front.toList) <+: whole.tokens.toList ∧
      first.strays <+: whole.diagnostics := by
  have hwhole := lex_eq_ok hsize hlines
  rw [String.toList_append] at hsize hlines hwhole
  rw [size_append] at hsize
  rw [newlines_append] at hlines
  refine ⟨_, _, lex_eq_ok (by omega) (by omega), hwhole, ?_,
    filter_diagnosticsFrom_prefix 0 1 front.toList back.toList⟩
  have htokens := filter_tokens_prefix 0 1 front.toList back.toList
  rw [Nat.zero_add] at htokens
  rwa [Lexing.settled, lexemes_eq, Tokens.toList_ofList]

/-- A digit behind a point at the end makes one number of a number and the point, and leaves the
word in front of them and the report on the stray character between. -/
theorem lex_settled_prefix_of_point :
    ∃ first whole, lex "a@1." = .ok first ∧ lex ("a@1." ++ "5\"") = .ok whole ∧
      first.tokens.kinds = [.identifier, .number, .dot, .endOfFile] ∧
      whole.tokens.kinds = [.identifier, .number, .endOfFile] ∧
      (first.settled 4).map (·.lexeme) = ["a"] ∧ first.strays.map (·.span) = [⟨1, 2⟩] ∧
      first.settled 4 <+: whole.tokens.toList ∧ first.strays <+: whole.diagnostics := by
  have hfront : pieces "a@1.".toList =
      [⟨['a'], .token .identifier .none⟩, ⟨['@'], .problem (.unexpectedCharacter '@')⟩,
        ⟨['1'], .token .number (Cut.numeralValue ['1'])⟩, ⟨['.'], .token .dot .none⟩] := by
    simp [pieces_cons, Cut.of, Opening.ofChar, Cut.number, Cut.fraction, Cut.word, isWordChar]
    rfl
  have hwhole : pieces ("a@1." ++ "5\"").toList =
      [⟨['a'], .token .identifier .none⟩, ⟨['@'], .problem (.unexpectedCharacter '@')⟩,
        ⟨['1', '.', '5'], .token .number (Cut.numeralValue ['1', '.', '5'])⟩,
        ⟨['"'], .problem .unterminatedString⟩] := by
    simp [pieces_cons, Cut.of, Opening.ofChar, Cut.number, Cut.fraction, Cut.word, Cut.string,
      isWordChar]
    rfl
  obtain ⟨first, whole, hfirst, hlexing, htokens, hdiagnostics⟩ :=
    lex_settled_prefix "a@1." "5\"" (by decide) (by decide)
  have hvalue := hfirst
  have hall := hlexing
  rw [lex_eq_ok (by decide) (by decide)] at hvalue hall
  cases hvalue
  cases hall
  refine ⟨_, _, hfirst, hlexing, ?_, ?_, ?_, ?_, htokens, hdiagnostics⟩
  · rw [Tokens.kinds, Tokens.toList_ofList, tokensFrom, placedPieces, hfront]
    rfl
  · rw [Tokens.kinds, Tokens.toList_ofList, tokensFrom, placedPieces, hwhole]
    rfl
  · rw [Lexing.settled, lexemes_eq, placedPieces, hfront]
    rfl
  · rw [Lexing.strays, diagnosticsFrom, placedPieces, hfront]
    rfl

end LoxScan
