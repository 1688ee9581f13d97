import LoxScan.Proofs.Placed

/-!
# Moving a text

The pieces of a text do not depend on where it begins. A text that begins at a later offset and on
a later line has the same tokens and diagnostics, moved by as many bytes and lines.
-/

namespace LoxScan

open Utf8

/-- A span some bytes later. -/
def Span.shift (bytes : Nat) (span : Span) : Span := ⟨span.start + bytes, span.stop + bytes⟩

/-- A token some bytes and lines later. -/
def Token.shift (bytes lines : Nat) (token : Token) : Token :=
  { token with line := token.line + lines, span := token.span.shift bytes }

/-- A diagnostic some bytes and lines later. -/
def Diagnostic.shift (bytes lines : Nat) (diagnostic : Diagnostic) : Diagnostic :=
  { diagnostic with line := diagnostic.line + lines, span := diagnostic.span.shift bytes }

namespace Placed

/-- A placed piece some bytes and lines later. -/
def shift (bytes lines : Nat) (placed : Placed) : Placed :=
  { placed with pos := placed.pos + bytes, line := placed.line + lines }

/-- The token of a piece that is shifted is the shifted token. -/
theorem token?_shift (bytes lines : Nat) (placed : Placed) :
    (placed.shift bytes lines).token? = placed.token?.map (Token.shift bytes lines) := by
  obtain ⟨⟨text, finding⟩, pos, line⟩ := placed
  cases finding <;> simp [token?, shift, span, Token.shift, Span.shift, Nat.add_right_comm]

/-- The diagnostic of a piece that is shifted is the shifted diagnostic. -/
theorem diagnostic?_shift (bytes lines : Nat) (placed : Placed) :
    (placed.shift bytes lines).diagnostic? =
      placed.diagnostic?.map (Diagnostic.shift bytes lines) := by
  obtain ⟨⟨text, finding⟩, pos, line⟩ := placed
  cases finding <;>
    simp [diagnostic?, shift, span, Diagnostic.shift, Span.shift, Nat.add_right_comm]

end Placed

section

variable (pos line bytes lines : Nat)

/-- Pieces of a text that begins later are shifted. -/
theorem place_shift (list : List Piece) :
    place (pos + bytes) (line + lines) list =
      (place pos line list).map (Placed.shift bytes lines) := by
  induction list generalizing pos line with
  | nil => rfl
  | cons piece list ih =>
    rw [place, Nat.add_right_comm pos, Nat.add_right_comm line, ih]
    rfl

/-- The tokens of a text that begins later. -/
theorem tokensFrom_shift (text : List Char) :
    tokensFrom (pos + bytes) (line + lines) text =
      (tokensFrom pos line text).map (Token.shift bytes lines) := by
  have htoken : Placed.token? ∘ Placed.shift bytes lines =
      fun placed => placed.token?.map (Token.shift bytes lines) :=
    funext (Placed.token?_shift bytes lines)
  rw [tokensFrom, tokensFrom, placedPieces, placedPieces, place_shift, List.filterMap_map, htoken,
    List.map_append, List.map_filterMap, Nat.add_right_comm pos, Nat.add_right_comm line]
  rfl

/-- The diagnostics of a text that begins later. -/
theorem diagnosticsFrom_shift (text : List Char) :
    diagnosticsFrom (pos + bytes) (line + lines) text =
      (diagnosticsFrom pos line text).map (Diagnostic.shift bytes lines) := by
  have hdiagnostic : Placed.diagnostic? ∘ Placed.shift bytes lines =
      fun placed => placed.diagnostic?.map (Diagnostic.shift bytes lines) :=
    funext (Placed.diagnostic?_shift bytes lines)
  rw [diagnosticsFrom, diagnosticsFrom, placedPieces, placedPieces, place_shift,
    List.filterMap_map, hdiagnostic, List.map_filterMap]

end

end LoxScan
