import LoxScan.Lexing
import LoxScan.Proofs.Piece

/-!
# Placed pieces

A piece has its place where the pieces in front of it end: its offset is their size, and its line
counts their newlines. A placed piece gives at most one token or one diagnostic. A token carries
the line on which it begins, a diagnostic the line on which its piece ends.
-/

namespace LoxScan

open Utf8

/-- A piece with the offset and the line on which it begins. -/
structure Placed extends Piece where
  pos : Nat
  line : Nat
  deriving DecidableEq, Repr

namespace Placed

/-- The bytes that a placed piece covers. -/
def span (placed : Placed) : Span := ⟨placed.pos, placed.pos + size placed.text⟩

/-- The token of a placed piece that is one. -/
def token? (placed : Placed) : Option Token :=
  match placed.finding with
  | .token kind literal =>
    some ⟨kind, String.ofList placed.text, literal, placed.line, placed.span⟩
  | _ => none

/-- The diagnostic of a placed piece that is a problem. -/
def diagnostic? (placed : Placed) : Option Diagnostic :=
  match placed.finding with
  | .problem problem => some ⟨problem, placed.line + newlines placed.text, placed.span⟩
  | _ => none

/-- A placed piece gives a token exactly if it was found to be one. -/
theorem token?_eq_some_iff {placed : Placed} {token : Token} :
    placed.token? = some token ↔ ∃ kind literal, placed.finding = .token kind literal ∧
      token = ⟨kind, String.ofList placed.text, literal, placed.line, placed.span⟩ := by
  unfold token?
  cases placed.finding <;> simp [eq_comm]

/-- A placed piece gives a diagnostic exactly if it was found to be a problem. -/
theorem diagnostic?_eq_some_iff {placed : Placed} {diagnostic : Diagnostic} :
    placed.diagnostic? = some diagnostic ↔ ∃ problem, placed.finding = .problem problem ∧
      diagnostic = ⟨problem, placed.line + newlines placed.text, placed.span⟩ := by
  unfold diagnostic?
  cases placed.finding <;> simp [eq_comm]

/-- A token covers its piece. -/
theorem span_of_token? {placed : Placed} {token : Token} (h : placed.token? = some token) :
    token.span = placed.span := by
  obtain ⟨kind, literal, -, rfl⟩ := token?_eq_some_iff.1 h
  rfl

/-- So does a diagnostic. -/
theorem span_of_diagnostic? {placed : Placed} {diagnostic : Diagnostic}
    (h : placed.diagnostic? = some diagnostic) : diagnostic.span = placed.span := by
  obtain ⟨problem, -, rfl⟩ := diagnostic?_eq_some_iff.1 h
  rfl

/-- A piece that is a token is no problem. -/
theorem diagnostic?_of_token? {placed : Placed} {token : Token}
    (h : placed.token? = some token) : placed.diagnostic? = none := by
  obtain ⟨kind, literal, hfinding, -⟩ := token?_eq_some_iff.1 h
  simp [diagnostic?, hfinding]

end Placed

/-- Puts pieces one behind the other, from an offset and a line on. -/
def place (pos line : Nat) : List Piece → List Placed
  | [] => []
  | piece :: rest =>
    ⟨piece, pos, line⟩ :: place (pos + size piece.text) (line + newlines piece.text) rest

/-- The pieces of a text that begins at an offset and on a line. -/
def placedPieces (pos line : Nat) (text : List Char) : List Placed :=
  place pos line (pieces text)

/-- The tokens of a text that begins at an offset and on a line. -/
def tokensFrom (pos line : Nat) (text : List Char) : List Token :=
  (placedPieces pos line text).filterMap Placed.token? ++
    [.endOfFile (line + newlines text) (pos + size text)]

/-- The diagnostics of a text that begins at an offset and on a line. -/
def diagnosticsFrom (pos line : Nat) (text : List Char) : List Diagnostic :=
  (placedPieces pos line text).filterMap Placed.diagnostic?

/-- The first piece of a text that begins at an offset and on a line. -/
def firstPlaced (pos line : Nat) (c : Char) (text : List Char) : Placed :=
  ⟨(Cut.of c text).toPiece, pos, line⟩

section

variable {c : Char} {text : List Char}

/-- A first piece that is a token has its kind and value, and its own text for lexeme. -/
theorem token?_firstPlaced {kind : Kind} {literal : Literal}
    (h : (Cut.of c text).finding = .token kind literal) (pos line : Nat) :
    (firstPlaced pos line c text).token? =
      some ⟨kind, String.ofList (Cut.of c text).text, literal, line,
        (firstPlaced pos line c text).span⟩ :=
  Placed.token?_eq_some_iff.2 ⟨kind, literal, h, rfl⟩

/-- A first piece that is no token gives none. -/
theorem token?_firstPlaced_eq_none
    (h : ∀ kind literal, (Cut.of c text).finding ≠ .token kind literal) (pos line : Nat) :
    (firstPlaced pos line c text).token? = none := by
  rw [Option.eq_none_iff_forall_ne_some]
  intro token htoken
  obtain ⟨kind, literal, hfinding, -⟩ := Placed.token?_eq_some_iff.1 htoken
  exact h kind literal hfinding

/-- A first piece that is a problem is reported on the line where it ends. -/
theorem diagnostic?_firstPlaced {problem : Problem}
    (h : (Cut.of c text).finding = .problem problem) (pos line : Nat) :
    (firstPlaced pos line c text).diagnostic? =
      some ⟨problem, line + newlines (Cut.of c text).text, (firstPlaced pos line c text).span⟩ :=
  Placed.diagnostic?_eq_some_iff.2 ⟨problem, h, rfl⟩

/-- A first piece that is no problem gives no diagnostic. -/
theorem diagnostic?_firstPlaced_eq_none
    (h : ∀ problem, (Cut.of c text).finding ≠ .problem problem) (pos line : Nat) :
    (firstPlaced pos line c text).diagnostic? = none := by
  rw [Option.eq_none_iff_forall_ne_some]
  intro diagnostic hdiagnostic
  obtain ⟨problem, hfinding, -⟩ := Placed.diagnostic?_eq_some_iff.1 hdiagnostic
  exact h problem hfinding

end

section

variable (pos line : Nat) (c : Char) (text : List Char)

/-- The bytes of a text are those of its first piece and of the rest. -/
theorem encode_cons_eq_cut :
    encode (c :: text) = encode (Cut.of c text).text ++ encode (Cut.of c text).rest := by
  rw [← encode_append, Cut.text_of_append_rest]

/-- A text is as long as its first piece and the rest. -/
theorem size_cons_eq_cut :
    size (c :: text) = size (Cut.of c text).text + size (Cut.of c text).rest := by
  rw [← size_append, Cut.text_of_append_rest]

/-- Newlines are in the first piece or in the rest. -/
theorem newlines_cons_eq_cut :
    newlines (c :: text) = newlines (Cut.of c text).text + newlines (Cut.of c text).rest := by
  rw [← newlines_append, Cut.text_of_append_rest]

/-- An empty text has no placed pieces. -/
@[simp] theorem placedPieces_nil : placedPieces pos line [] = [] := by
  simp [placedPieces, place]

/-- The other pieces are placed behind the first. -/
theorem placedPieces_cons :
    placedPieces pos line (c :: text) = firstPlaced pos line c text ::
      placedPieces (pos + size (Cut.of c text).text) (line + newlines (Cut.of c text).text)
        (Cut.of c text).rest := by
  rw [placedPieces, pieces_cons, place]
  rfl

/-- What is selected of the placed pieces, that of the first piece and that of the others. -/
theorem filterMap_placedPieces_cons {α : Type} (select : Placed → Option α) :
    (placedPieces pos line (c :: text)).filterMap select =
      (select (firstPlaced pos line c text)).toList ++
        (placedPieces (pos + size (Cut.of c text).text) (line + newlines (Cut.of c text).text)
          (Cut.of c text).rest).filterMap select := by
  rw [placedPieces_cons, List.filterMap_cons]
  cases select (firstPlaced pos line c text) <;> rfl

/-- An empty text has the end of file for its only token. -/
@[simp] theorem tokensFrom_nil : tokensFrom pos line [] = [.endOfFile line pos] := by
  simp [tokensFrom]

/-- Tokens of a text are that of its first piece, if it is one, and those of the rest. -/
theorem tokensFrom_cons :
    tokensFrom pos line (c :: text) = (firstPlaced pos line c text).token?.toList ++
      tokensFrom (pos + size (Cut.of c text).text) (line + newlines (Cut.of c text).text)
        (Cut.of c text).rest := by
  rw [tokensFrom, tokensFrom, filterMap_placedPieces_cons, size_cons_eq_cut,
    newlines_cons_eq_cut, Nat.add_assoc, Nat.add_assoc, List.append_assoc]

/-- An empty text has no diagnostics. -/
@[simp] theorem diagnosticsFrom_nil : diagnosticsFrom pos line [] = [] := by
  simp [diagnosticsFrom]

/-- Diagnostics of a text are that of its first piece, if it has one, and those of the rest. -/
theorem diagnosticsFrom_cons :
    diagnosticsFrom pos line (c :: text) = (firstPlaced pos line c text).diagnostic?.toList ++
      diagnosticsFrom (pos + size (Cut.of c text).text) (line + newlines (Cut.of c text).text)
        (Cut.of c text).rest :=
  filterMap_placedPieces_cons pos line c text Placed.diagnostic?

end

/-- A placed piece is the first piece of what is behind the text in front of it. -/
theorem exists_firstPlaced_of_mem {pos line : Nat} {text : List Char} {placed : Placed}
    (h : placed ∈ placedPieces pos line text) :
    ∃ before c rest, text = before ++ c :: rest ∧
      placed = firstPlaced (pos + size before) (line + newlines before) c rest := by
  induction text using pieces.induct generalizing pos line with
  | case1 => simp at h
  | case2 c text ih =>
    rw [placedPieces_cons] at h
    rcases List.mem_cons.1 h with rfl | h
    · exact ⟨[], c, text, rfl, rfl⟩
    · obtain ⟨before, d, rest, hrest, rfl⟩ := ih h
      refine ⟨(Cut.of c text).text ++ before, d, rest, ?_, ?_⟩
      · rw [List.append_assoc, ← hrest, Cut.text_of_append_rest]
      · simp only [size_append, newlines_append, Nat.add_assoc]

section

variable {pos line : Nat} {text : List Char}

/-- Where a token is, and what is read there. -/
theorem exists_of_mem_tokens {token : Token}
    (h : token ∈ (placedPieces pos line text).filterMap Placed.token?) :
    ∃ before c rest kind literal, text = before ++ c :: rest ∧
      (Cut.of c rest).finding = .token kind literal ∧
      token = ⟨kind, String.ofList (Cut.of c rest).text, literal, line + newlines before,
        ⟨pos + size before, pos + size before + size (Cut.of c rest).text⟩⟩ := by
  obtain ⟨placed, hmem, htoken⟩ := List.mem_filterMap.1 h
  obtain ⟨before, c, rest, htext, rfl⟩ := exists_firstPlaced_of_mem hmem
  obtain ⟨kind, literal, hfinding, rfl⟩ := Placed.token?_eq_some_iff.1 htoken
  exact ⟨before, c, rest, kind, literal, htext, hfinding, rfl⟩

/-- Where a diagnostic is, and what is wrong there. -/
theorem exists_of_mem_diagnosticsFrom {diagnostic : Diagnostic}
    (h : diagnostic ∈ diagnosticsFrom pos line text) :
    ∃ before c rest problem, text = before ++ c :: rest ∧
      (Cut.of c rest).finding = .problem problem ∧
      diagnostic = ⟨problem, line + newlines before + newlines (Cut.of c rest).text,
        ⟨pos + size before, pos + size before + size (Cut.of c rest).text⟩⟩ := by
  obtain ⟨placed, hmem, hdiagnostic⟩ := List.mem_filterMap.1 h
  obtain ⟨before, c, rest, htext, rfl⟩ := exists_firstPlaced_of_mem hmem
  obtain ⟨problem, hfinding, rfl⟩ := Placed.diagnostic?_eq_some_iff.1 hdiagnostic
  exact ⟨before, c, rest, problem, htext, hfinding, rfl⟩

end

/-- Placing pieces does not change them. -/
theorem map_toPiece_place (pos line : Nat) (list : List Piece) :
    (place pos line list).map (·.toPiece) = list := by
  induction list generalizing pos line with
  | nil => rfl
  | cons piece list ih => rw [place, List.map_cons, ih]

/-- Placed pieces are pieces. -/
theorem toPiece_mem_pieces {pos line : Nat} {text : List Char} {placed : Placed}
    (h : placed ∈ placedPieces pos line text) : placed.toPiece ∈ pieces text := by
  rw [← map_toPiece_place pos line (pieces text)]
  exact List.mem_map_of_mem h

/-- The placed pieces of a text that are not passed over. -/
def finds (pos line : Nat) (text : List Char) : List Placed :=
  (placedPieces pos line text).filter (·.finding != .trivia)

/-- What is selected of a text, if nothing is that is passed over. -/
theorem filterMap_finds {α : Type} {select : Placed → Option α}
    (h : ∀ placed, placed.finding = .trivia → select placed = none) (pos line : Nat)
    (text : List Char) :
    (finds pos line text).filterMap select = (placedPieces pos line text).filterMap select := by
  rw [finds, List.filterMap_filter]
  apply List.filterMap_congr
  intro placed _
  by_cases hfinding : placed.finding = .trivia <;> simp [hfinding, h]

/-- A text of which everything is passed over has no tokens. -/
theorem filterMap_token?_eq_nil {text : List Char}
    (h : ∀ piece ∈ pieces text, piece.finding = .trivia) (pos line : Nat) :
    (placedPieces pos line text).filterMap Placed.token? = [] := by
  rw [List.filterMap_eq_nil_iff]
  intro placed hplaced
  have hfinding := h _ (toPiece_mem_pieces hplaced)
  simp [Placed.token?, hfinding]

/-- The problems of a text are those of its pieces. -/
theorem exists_diagnostic_iff (pos line : Nat) (text : List Char) (problem : Problem) :
    (∃ diagnostic ∈ diagnosticsFrom pos line text, diagnostic.problem = problem) ↔
      ∃ piece ∈ pieces text, piece.finding = .problem problem := by
  constructor
  · rintro ⟨diagnostic, hmem, rfl⟩
    obtain ⟨placed, hplaced, hdiagnostic⟩ := List.mem_filterMap.1 hmem
    obtain ⟨problem, hfinding, rfl⟩ := Placed.diagnostic?_eq_some_iff.1 hdiagnostic
    exact ⟨placed.toPiece, toPiece_mem_pieces hplaced, hfinding⟩
  · rw [← map_toPiece_place pos line (pieces text)]
    rintro ⟨piece, hmem, hfinding⟩
    obtain ⟨placed, hplaced, rfl⟩ := List.mem_map.1 hmem
    have hdiagnostic := Placed.diagnostic?_eq_some_iff.2 ⟨problem, hfinding, rfl⟩
    exact ⟨_, List.mem_filterMap.2 ⟨placed, hplaced, hdiagnostic⟩, rfl⟩

/-- A text without problems has no diagnostics. -/
theorem diagnosticsFrom_eq_nil_iff (pos line : Nat) (text : List Char) :
    diagnosticsFrom pos line text = [] ↔
      ∀ piece ∈ pieces text, ∀ problem, piece.finding ≠ .problem problem := by
  rw [List.eq_nil_iff_forall_not_mem]
  constructor
  · intro h piece hpiece problem hfinding
    obtain ⟨diagnostic, hmem, -⟩ :=
      (exists_diagnostic_iff pos line text problem).2 ⟨piece, hpiece, hfinding⟩
    exact h diagnostic hmem
  · intro h diagnostic hmem
    obtain ⟨piece, hpiece, hfinding⟩ :=
      (exists_diagnostic_iff pos line text diagnostic.problem).1 ⟨diagnostic, hmem, rfl⟩
    exact h piece hpiece diagnostic.problem hfinding

/-- Pieces are placed behind those in front of them. -/
theorem place_append (pos line : Nat) (front back : List Piece) :
    place pos line (front ++ back) = place pos line front ++
      place (pos + size (front.flatMap (·.text))) (line + newlines (front.flatMap (·.text)))
        back := by
  induction front generalizing pos line with
  | nil => rfl
  | cons piece front ih =>
    rw [List.cons_append, place, place, ih, List.flatMap_cons, size_append, newlines_append,
      Nat.add_assoc, Nat.add_assoc, List.cons_append]

section

variable {front back : List Char} (pos line : Nat)

/-- The second part of a text that is cut between pieces is placed behind the first. -/
theorem placedPieces_append (h : pieces (front ++ back) = pieces front ++ pieces back) :
    placedPieces pos line (front ++ back) = placedPieces pos line front ++
      placedPieces (pos + size front) (line + newlines front) back := by
  rw [placedPieces, h, place_append, flatMap_pieces]
  rfl

/-- The tokens of a text that is cut between pieces. -/
theorem tokensFrom_append (h : pieces (front ++ back) = pieces front ++ pieces back) :
    tokensFrom pos line (front ++ back) = (placedPieces pos line front).filterMap Placed.token? ++
      tokensFrom (pos + size front) (line + newlines front) back := by
  rw [tokensFrom, tokensFrom, placedPieces_append pos line h, List.filterMap_append,
    List.append_assoc, size_append, newlines_append, Nat.add_assoc, Nat.add_assoc]

/-- The diagnostics of a text that is cut between pieces. -/
theorem diagnosticsFrom_append (h : pieces (front ++ back) = pieces front ++ pieces back) :
    diagnosticsFrom pos line (front ++ back) = diagnosticsFrom pos line front ++
      diagnosticsFrom (pos + size front) (line + newlines front) back := by
  rw [diagnosticsFrom, placedPieces_append pos line h, List.filterMap_append]
  rfl

end

end LoxScan
