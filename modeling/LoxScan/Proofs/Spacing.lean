import LoxScan.Proofs.Faultless
import LoxScan.Proofs.Seam
import LoxScan.Proofs.Shift
import LoxScan.Proofs.Tiling

/-!
# Lexemes written out again

The lexemes of a source can be written out with any blanks and comments between them. As long as a
blank comes first between two neighbours, the text has the same tokens again, up to their places,
and nothing in it is wrong. This says nothing of neighbours that touch.
-/

namespace LoxScan

open Utf8

/-- What stands between two lexemes: blanks and comments with their newlines, a blank first. -/
structure Separator (gap : List Char) : Prop where
  trivia : Trivia False gap
  ne_nil : gap ≠ []
  blank : AtBlank gap

/-- Lexemes with a gap in front of each and one behind the last. -/
def spread (gap : Nat → List Char) : List (List Char) → List Char
  | [] => gap 0
  | lexeme :: lexemes => gap 0 ++ lexeme ++ spread (fun index => gap (index + 1)) lexemes

/-- Gaps for a number of lexemes: separators, which may be missing at both ends. -/
structure Spacing (gap : Nat → List Char) (count : Nat) : Prop where
  front : gap 0 = [] ∨ Separator (gap 0)
  inner : ∀ index, 0 < index → index < count → Separator (gap index)
  back : gap count = [] ∨ Separator (gap count)

/-- The lexemes of a lexing, written out with gaps. -/
def Lexing.written (lexing : Lexing) (gap : Nat → List Char) : String :=
  String.ofList (spread gap (lexing.lexemes.map (·.lexeme.toList)))

/-- A token without its place: its kind, its text and its value. -/
def Token.content (token : Token) : Kind × String × Literal :=
  (token.kind, token.lexeme, token.literal)

/-- The piece that a token is made of. -/
def Token.piece (token : Token) : Piece :=
  ⟨token.lexeme.toList, .token token.kind token.literal⟩

/-- A token whose piece is the first one of some text. -/
def Token.Readable (token : Token) : Prop := ∃ c text, (Cut.of c text).toPiece = token.piece

/-- The content of the token that a piece gives. -/
def Piece.content? (piece : Piece) : Option (Kind × String × Literal) :=
  match piece.finding with
  | .token kind literal => some (kind, String.ofList piece.text, literal)
  | _ => none

/-- The pieces of a text that are not passed over. -/
def contents (text : List Char) : List Piece :=
  (pieces text).filter (·.finding != .trivia)

section

variable {gap : Nat → List Char} {tokens : List Token}

/-- Nothing is found in a gap. -/
theorem contents_append_of_gap {stretch : List Char} (h : stretch = [] ∨ Separator stretch)
    (rest : List Char) : contents (stretch ++ rest) = contents rest := by
  have htrivia : Trivia False stretch := by
    rcases h with rfl | h
    · exact .nil
    · exact h.trivia
  have hnone : contents stretch = [] := by
    rw [contents, List.filter_eq_nil_iff]
    intro piece hpiece
    simp [finding_of_mem_pieces_of_trivia htrivia piece hpiece]
  rw [contents, pieces_append_of_trivia htrivia, List.filter_append, ← contents, hnone,
    List.nil_append, contents]

/-- A lexeme is read again in front of a blank or the end. -/
theorem contents_append_of_readable {token : Token} (h : token.Readable) {rest : List Char}
    (hrest : AtBlank rest) :
    contents (token.lexeme.toList ++ rest) = token.piece :: contents rest := by
  obtain ⟨c, text, hpiece⟩ := h
  have htext : (Cut.of c text).text = token.lexeme.toList := congrArg Piece.text hpiece
  have hfinding : (Cut.of c text).finding = .token token.kind token.literal :=
    congrArg Piece.finding hpiece
  rw [contents, contents, ← htext, pieces_append_of_mayFollow (.of_atBlank hfinding hrest),
    hpiece, List.filter_cons_of_pos (by simp [Token.piece])]

/-- The gaps behind the first token are the gaps of the others. -/
theorem Spacing.tail {count : Nat} (h : Spacing gap (count + 1)) :
    Spacing (fun index => gap (index + 1)) count := by
  constructor
  case front =>
    rcases Nat.eq_zero_or_pos count with rfl | hcount
    · exact h.back
    · exact Or.inr (h.inner 1 Nat.one_pos (Nat.succ_lt_succ hcount))
  case inner =>
    intro index hpos hlt
    exact h.inner (index + 1) (Nat.succ_pos index) (Nat.succ_lt_succ hlt)
  case back => exact h.back

/-- Behind a lexeme comes a blank or the end. -/
theorem Spacing.atBlank_tail {lexemes : List (List Char)} (h : Spacing gap (lexemes.length + 1)) :
    AtBlank (spread (fun index => gap (index + 1)) lexemes) := by
  cases lexemes with
  | nil =>
    rcases h.back with hnil | hback
    · simp [spread, AtBlank, show gap 1 = [] from hnil]
    · exact hback.blank
  | cons lexeme lexemes =>
    have hinner := h.inner 1 Nat.one_pos (by simp)
    obtain ⟨c, behind, hgap⟩ := List.exists_cons_of_ne_nil hinner.ne_nil
    have hblank := hinner.blank
    rw [hgap] at hblank
    simpa [spread, AtBlank, hgap] using hblank

/-- Lexemes that are written out are read one by one. -/
theorem contents_spread (hgap : Spacing gap tokens.length)
    (htokens : ∀ token ∈ tokens, token.Readable) :
    contents (spread gap (tokens.map (·.lexeme.toList))) = tokens.map Token.piece := by
  induction tokens generalizing gap with
  | nil =>
    have hnil := contents_append_of_gap hgap.front []
    rw [List.append_nil] at hnil
    simpa [spread, contents] using hnil
  | cons token tokens ih =>
    obtain ⟨htoken, hrest⟩ := List.forall_mem_cons.1 htokens
    have hblank : AtBlank (spread (fun index => gap (index + 1))
        (tokens.map (·.lexeme.toList))) := by
      apply Spacing.atBlank_tail
      rwa [List.length_map]
    rw [List.map_cons, spread, List.append_assoc, contents_append_of_gap hgap.front,
      contents_append_of_readable htoken hblank, ih hgap.tail hrest, List.map_cons]

end

/-- The contents of a token are those of its piece. -/
theorem Placed.map_content_token? (placed : Placed) :
    placed.token?.map Token.content = placed.toPiece.content? := by
  unfold Placed.token? Piece.content?
  cases placed.finding <;> rfl

/-- A token is found again in its piece. -/
theorem Token.content?_piece (token : Token) : token.piece.content? = some token.content := by
  simp [Token.piece, Piece.content?, Token.content, String.ofList_toList]

/-- What is selected of the contents of a text does not depend on where they are. -/
theorem filterMap_contents {α : Type} {select : Piece → Option α}
    (h : ∀ piece, piece.finding = .trivia → select piece = none) (pos line : Nat)
    (text : List Char) :
    (contents text).filterMap select =
      (placedPieces pos line text).filterMap fun placed => select placed.toPiece := by
  have hcontents : contents text = (finds pos line text).map (·.toPiece) := by
    rw [contents, finds, ← map_toPiece_place pos line (pieces text), List.filter_map]
    rfl
  rw [hcontents, List.filterMap_map]
  exact filterMap_finds (fun placed => h placed.toPiece) pos line text

/-- What the tokens of a text are does not depend on where they are. -/
theorem map_content_token? (pos line : Nat) (text : List Char) :
    ((placedPieces pos line text).filterMap Placed.token?).map Token.content =
      (contents text).filterMap Piece.content? := by
  have htrivia (piece : Piece) (h : piece.finding = .trivia) : piece.content? = none := by
    rw [Piece.content?, h]
  rw [List.map_filterMap, filterMap_contents htrivia pos line]
  exact List.filterMap_congr fun placed _ => placed.map_content_token?

/-- Tokens of a source are pieces of it. -/
theorem readable_of_mem {pos line : Nat} {text : List Char} {token : Token}
    (h : token ∈ (placedPieces pos line text).filterMap Placed.token?) : token.Readable := by
  obtain ⟨before, c, rest, kind, literal, -, hfinding, rfl⟩ := exists_of_mem_tokens h
  refine ⟨c, rest, ?_⟩
  rw [Token.piece, String.toList_ofList, ← hfinding]

/-- A text whose contents are tokens only has no diagnostics. -/
theorem diagnosticsFrom_eq_nil {pos line : Nat} {text : List Char} {tokens : List Token}
    (h : contents text = tokens.map Token.piece) : diagnosticsFrom pos line text = [] := by
  rw [diagnosticsFrom_eq_nil_iff]
  intro piece hpiece problem hfinding
  have hcontents : piece ∈ contents text := List.mem_filter.2 ⟨hpiece, by simp [hfinding]⟩
  rw [h] at hcontents
  obtain ⟨token, -, rfl⟩ := List.mem_map.1 hcontents
  cases hfinding

/-- Lexemes that are written out with separators have the same tokens again, and nothing is wrong
with them. The one source left out is that which has no lexing. -/
theorem lex_written (text : String) (hsize : size text.toList ≤ maxWord)
    (htext : text.toList ≠ List.replicate maxWord '\n') :
    ∃ lexing, lex text = .ok lexing ∧
      ∀ gap, Spacing gap lexing.lexemes.length →
        size (lexing.written gap).toList ≤ maxWord →
        newlines (lexing.written gap).toList < maxWord →
        ∃ again, lex (lexing.written gap) = .ok again ∧ again.diagnostics = [] ∧
          again.tokens.toList.map Token.content =
            lexing.lexemes.map Token.content ++ [(.endOfFile, "", .none)] := by
  have hlines : newlines text.toList < maxWord :=
    Nat.not_le.1 (mt (maxWord_le_newlines_iff hsize).1 htext)
  refine ⟨_, lex_eq_ok hsize hlines, fun gap hgap hsize' hlines' => ?_⟩
  refine ⟨_, lex_eq_ok hsize' hlines', ?_⟩
  rw [Lexing.written, String.toList_ofList]
  have hcontents := contents_spread hgap fun token hmem => by
    rw [lexemes_eq] at hmem
    exact readable_of_mem hmem
  refine ⟨diagnosticsFrom_eq_nil hcontents, ?_⟩
  have hcontent : Piece.content? ∘ Token.piece = some ∘ Token.content :=
    funext Token.content?_piece
  rw [Tokens.toList_ofList, tokensFrom, List.map_append, map_content_token?, hcontents,
    List.filterMap_map, hcontent, List.filterMap_eq_map]
  rfl

/-- Digits and a point that do not touch are no fraction, and a quote in a comment is no string. -/
theorem lex_written_of_point :
    ∃ lexing, lex "1@.5" = .ok lexing ∧
      lexing.written (fun _ => " //\"\n".toList) = " //\"\n1 //\"\n. //\"\n5 //\"\n" ∧
      ∃ again, lex " //\"\n1 //\"\n. //\"\n5 //\"\n" = .ok again ∧ again.diagnostics = [] ∧
        again.tokens.toList.map Token.content =
          lexing.lexemes.map Token.content ++ [(.endOfFile, "", .none)] := by
  have hpieces : pieces "1@.5".toList =
      [⟨['1'], .token .number (Cut.numeralValue ['1'])⟩,
        ⟨['@'], .problem (.unexpectedCharacter '@')⟩, ⟨['.'], .token .dot .none⟩,
        ⟨['5'], .token .number (Cut.numeralValue ['5'])⟩] := by
    simp [pieces_cons, Cut.of, Opening.ofChar, Cut.number, Cut.fraction]
  have hsource : "1@.5".toList ≠ List.replicate maxWord '\n' := by
    intro h
    have hdigit : '1' ∈ "1@.5".toList := by decide
    rw [h] at hdigit
    cases List.eq_of_mem_replicate hdigit
  have hgap : Separator (' ' :: ('/' :: '/' :: ['"'] ++ ['\n'])) := by
    have hcomment : Trivia False ('/' :: '/' :: ['"'] ++ ['\n']) :=
      .comment (by decide) (.blank (by simp [IsBlank]) .nil)
    exact ⟨.blank (by simp [IsBlank]) hcomment, by simp, by simp [AtBlank, IsBlank]⟩
  obtain ⟨lexing, hlexing, hwritten⟩ := lex_written "1@.5" (by decide) hsource
  have htext : lexing.written (fun _ => " //\"\n".toList) = " //\"\n1 //\"\n. //\"\n5 //\"\n" := by
    rw [lex_eq_ok (by decide) (by decide)] at hlexing
    cases hlexing
    rw [Lexing.written, lexemes_eq, placedPieces, hpieces]
    rfl
  have hagain := hwritten (fun _ => " //\"\n".toList)
    ⟨Or.inr hgap, fun _ _ _ => hgap, Or.inr hgap⟩
  rw [htext] at hagain
  exact ⟨lexing, hlexing, htext, hagain (by decide) (by decide)⟩

end LoxScan
