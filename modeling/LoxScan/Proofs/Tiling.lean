import LoxScan.Proofs.Lexing
import LoxScan.Proofs.Tiles
import Mathlib.Data.List.Nodup

/-!
# Lexing tiles the source

The spans of the tokens and diagnostics of a source tile it: they are parts of it in order, and
what they leave uncovered is blanks, newlines and comments. No byte is lost or duplicated.
-/

namespace LoxScan

open Utf8

namespace Lexing

/-- The tokens without the end of file. -/
def lexemes (lexing : Lexing) : List Token :=
  lexing.tokens.toList.filter (·.kind != .endOfFile)

/-- The spans of lexemes and diagnostics, ordered by their starts. -/
def marks (lexing : Lexing) : List Span :=
  (lexing.lexemes.map (·.span) ++ lexing.diagnostics.map (·.span)).mergeSort
    fun left right => left.start ≤ right.start

/-- A lexing accounts for every byte of a text once. -/
structure Covers (lexing : Lexing) (text : List Char) : Prop where
  /-- The end of file comes last. It has no text and no value, and stands at the end of the text. -/
  tokens : ∃ last : Token, lexing.tokens.toList = lexing.lexemes ++ [last] ∧
    last.kind = .endOfFile ∧ last.lexeme = "" ∧ last.literal = .none ∧
      last.line = 1 + newlines text ∧ last.span.start = size text ∧ last.span.stop = size text
  lexeme : ∀ token ∈ lexing.lexemes, token.span.slice? text = some token.lexeme.toList
  nonempty : ∀ mark ∈ lexing.marks, mark.start < mark.stop
  /-- Both ends of a mark lie between characters of the text. -/
  slice : ∀ mark ∈ lexing.marks, (mark.slice? text).isSome = true
  disjoint : lexing.marks.Pairwise Span.precedes
  tokens_ordered : (lexing.lexemes.map (·.span)).Pairwise Span.precedes
  diagnostics_ordered : (lexing.diagnostics.map (·.span)).Pairwise Span.precedes
  trivia : ∀ gap ∈ gaps 0 (size text) lexing.marks,
    ∃ stretch, gap.slice? text = some stretch ∧ Trivia (gap.stop = size text) stretch
  /-- Marks and gaps in turn give the text back. -/
  rebuild : ∃ parts : List (List Char),
    (weave 0 (size text) lexing.marks).map (·.slice? text) = parts.map some ∧
      parts.flatten = text

end Lexing

/-- The span of a placed piece that is a token or a problem. -/
def Placed.mark? (placed : Placed) : Option Span :=
  if placed.finding = .trivia then none else some placed.span

/-- The spans of the tokens and problems of a text that begins at an offset and on a line. -/
def marksFrom (pos line : Nat) (text : List Char) : List Span :=
  (placedPieces pos line text).filterMap Placed.mark?

/-- An empty text has no marks. -/
@[simp] theorem marksFrom_nil (pos line : Nat) : marksFrom pos line [] = [] := by
  simp [marksFrom]

/-- Marks of a text are that of its first piece, if it has one, and those of the rest. -/
theorem marksFrom_cons (pos line : Nat) (c : Char) (text : List Char) :
    marksFrom pos line (c :: text) = (firstPlaced pos line c text).mark?.toList ++
      marksFrom (pos + size (Cut.of c text).text) (line + newlines (Cut.of c text).text)
        (Cut.of c text).rest :=
  filterMap_placedPieces_cons pos line c text Placed.mark?

/-- The first piece tiles its part of the text. -/
theorem tiles_firstPlaced {pos : Nat} {c : Char} {text : List Char} {marks : List Span}
    (line : Nat) (h : Tiles (pos + size (Cut.of c text).text) (Cut.of c text).rest marks) :
    Tiles pos (c :: text) ((firstPlaced pos line c text).mark?.toList ++ marks) := by
  unfold firstPlaced Placed.mark? Placed.span
  by_cases htrivia : (Cut.of c text).finding = .trivia
  · simp only [htrivia, if_true]
    have hfirst := FirstPiece.of c text
    generalize Cut.of c text = cut at h htrivia hfirst
    cases hfirst with
    | blank hblank => exact h.blank_cons hblank
    | comment hbody hrest => exact h.comment_append hbody hrest
    | _ => cases htrivia
  · obtain ⟨tail, htail⟩ := Cut.text_of_eq_cons c text
    have hc : c ≠ '\n' := by
      rintro rfl
      exact htrivia rfl
    have htext := Cut.text_of_append_rest c text
    simp only [htrivia, if_false]
    rw [htail] at h htext ⊢
    rw [← htext]
    exact h.cons hc

/-- The marks of a text tile it. -/
theorem tiles_marksFrom (pos line : Nat) (text : List Char) :
    Tiles pos text (marksFrom pos line text) := by
  induction text using pieces.induct generalizing pos line with
  | case1 => simpa using Tiles.done .nil
  | case2 c text ih =>
    rw [marksFrom_cons]
    exact tiles_firstPlaced line (ih _ _)

/-- A piece is marked for its token or its diagnostic. -/
theorem perm_marks (placed : List Placed) :
    ((placed.filterMap Placed.token?).map (·.span) ++
      (placed.filterMap Placed.diagnostic?).map (·.span)).Perm
        (placed.filterMap Placed.mark?) := by
  induction placed with
  | nil => exact .refl _
  | cons first placed ih =>
    cases hfinding : first.finding with
    | token kind literal =>
      simpa [Placed.token?, Placed.diagnostic?, Placed.mark?, hfinding] using ih
    | trivia => simpa [Placed.token?, Placed.diagnostic?, Placed.mark?, hfinding] using ih
    | problem problem =>
      simp only [Placed.token?, Placed.diagnostic?, Placed.mark?, hfinding, List.filterMap_cons,
        List.map_cons, reduceCtorEq, if_false]
      exact List.perm_middle.trans (ih.cons _)

/-- What is kept of a selection keeps its order. -/
theorem filterMap_sublist {kept all : Placed → Option Span}
    (h : ∀ placed, kept placed = none ∨ kept placed = all placed) (placed : List Placed) :
    (placed.filterMap kept).Sublist (placed.filterMap all) := by
  induction placed with
  | nil => exact .slnil
  | cons first placed ih =>
    rw [List.filterMap_cons, List.filterMap_cons]
    rcases h first with hnone | hsame
    · rw [hnone]
      cases all first with
      | none => exact ih
      | some span => exact ih.cons span
    · rw [hsame]
      cases all first with
      | none => exact ih
      | some span => exact ih.cons_cons span

/-- The spans of tokens are in order among the marks. -/
theorem tokens_sublist (placed : List Placed) :
    ((placed.filterMap Placed.token?).map (·.span)).Sublist (placed.filterMap Placed.mark?) := by
  rw [List.map_filterMap]
  apply filterMap_sublist
  intro first
  cases hfinding : first.finding <;> simp [Placed.token?, Placed.mark?, hfinding]

/-- The spans of diagnostics are in order among the marks. -/
theorem diagnostics_sublist (placed : List Placed) :
    ((placed.filterMap Placed.diagnostic?).map (·.span)).Sublist
      (placed.filterMap Placed.mark?) := by
  rw [List.map_filterMap]
  apply filterMap_sublist
  intro first
  cases hfinding : first.finding <;> simp [Placed.diagnostic?, Placed.mark?, hfinding]

/-- Marks that tile a text are in order already, whatever order they are collected in. -/
theorem mergeSort_eq_of_tiles {pos : Nat} {text : List Char} {marks collected : List Span}
    (h : Tiles pos text marks) (hperm : collected.Perm marks) :
    collected.mergeSort (fun left right => left.start ≤ right.start) = marks := by
  have hlt : marks.Pairwise fun left right => left.start < right.start := by
    apply h.pairwise.imp_of_mem
    intro left right hleft _ hle
    exact Nat.lt_of_lt_of_le (h.bounds hleft).2.1 hle
  have hnodup : (marks.map (·.start)).Nodup :=
    List.pairwise_map.2 (hlt.imp fun hlt => Nat.ne_of_lt hlt)
  have hsorted : (collected.mergeSort fun left right => left.start ≤ right.start).Pairwise
      fun left right => decide (left.start ≤ right.start) = true := by
    apply List.pairwise_mergeSort
    · simpa using fun _ _ _ => Nat.le_trans
    · simpa using fun _ _ => Nat.le_total _ _
  have hall : (collected.mergeSort fun left right => left.start ≤ right.start).Perm marks :=
    (List.mergeSort_perm collected _).trans hperm
  refine List.Perm.eq_of_pairwise ?_ (hsorted.imp of_decide_eq_true) (hlt.imp Nat.le_of_lt) hall
  intro left right hleft hright hle hge
  exact List.inj_on_of_nodup_map hnodup (hall.subset hleft) hright (Nat.le_antisymm hle hge)

/-- Only the last token of a text is the end of file. -/
theorem kind_ne_endOfFile_of_mem {pos line : Nat} {text : List Char} {token : Token}
    (h : token ∈ (placedPieces pos line text).filterMap Placed.token?) :
    token.kind ≠ .endOfFile := by
  obtain ⟨before, c, rest, kind, literal, rfl, hfinding, rfl⟩ := exists_of_mem_tokens h
  exact Cut.kind_ne_endOfFile hfinding

/-- The tokens of a text without the end of file are those of its pieces. -/
theorem lexemes_eq (pos line : Nat) (text : List Char) :
    (⟨.ofList (tokensFrom pos line text), diagnosticsFrom pos line text⟩ : Lexing).lexemes =
      (placedPieces pos line text).filterMap Placed.token? := by
  have hkinds : ∀ token ∈ (placedPieces pos line text).filterMap Placed.token?,
      (token.kind != .endOfFile) = true := by
    intro token hmem
    simpa using kind_ne_endOfFile_of_mem hmem
  rw [Lexing.lexemes, Tokens.toList_ofList, tokensFrom, List.filter_append,
    List.filter_eq_self.2 hkinds]
  exact List.append_nil _

/-- The marks of a text are the spans of its pieces. -/
theorem marks_eq (pos line : Nat) (text : List Char) :
    (⟨.ofList (tokensFrom pos line text), diagnosticsFrom pos line text⟩ : Lexing).marks =
      marksFrom pos line text := by
  rw [Lexing.marks, lexemes_eq]
  exact mergeSort_eq_of_tiles (tiles_marksFrom pos line text) (perm_marks _)

/-- A token covers its lexeme. -/
theorem slice?_of_token? {line : Nat} {text : List Char} {token : Token}
    (h : token ∈ (placedPieces 0 line text).filterMap Placed.token?) :
    token.span.slice? text = some token.lexeme.toList := by
  obtain ⟨before, c, rest, kind, literal, rfl, -, rfl⟩ := exists_of_mem_tokens h
  have hslice := Span.slice?_append before (Cut.of c rest).text (Cut.of c rest).rest
  rw [Cut.text_of_append_rest] at hslice
  simpa using hslice

/-- Lexing covers the source: no byte is lost or duplicated. -/
theorem lex_covers (text : String) (hsize : size text.toList ≤ maxWord)
    (hlines : newlines text.toList < maxWord) :
    ∃ lexing, lex text = .ok lexing ∧ lexing.Covers text.toList := by
  have htiles := tiles_marksFrom 0 1 text.toList
  have hlexemes := lexemes_eq 0 1 text.toList
  have hmarks := marks_eq 0 1 text.toList
  refine ⟨_, lex_eq_ok hsize hlines, ?_⟩
  constructor
  case tokens =>
    rw [hlexemes, Tokens.toList_ofList, tokensFrom, Nat.zero_add]
    exact ⟨_, rfl, rfl, rfl, rfl, rfl, rfl, rfl⟩
  case lexeme =>
    intro token hmem
    rw [hlexemes] at hmem
    exact slice?_of_token? hmem
  case nonempty =>
    intro mark hmem
    rw [hmarks] at hmem
    exact (htiles.bounds hmem).2.1
  case slice =>
    intro mark hmem
    rw [hmarks] at hmem
    exact htiles.slice?_isSome [] rfl hmem
  case disjoint =>
    rw [hmarks]
    exact htiles.pairwise
  case tokens_ordered =>
    rw [hlexemes]
    exact htiles.pairwise.sublist (tokens_sublist _)
  case diagnostics_ordered => exact htiles.pairwise.sublist (diagnostics_sublist _)
  case trivia =>
    intro gap hmem
    rw [hmarks, ← Nat.zero_add (size _)] at hmem
    simpa using htiles.trivia_of_mem_gaps [] rfl hmem
  case rebuild =>
    rw [hmarks]
    simpa using htiles.exists_weave_eq [] rfl

/-- A quote in a comment is not marked; an open string is, up to the end, which is where the end of
file stands. -/
theorem lex_covers_of_open_string :
    ∃ lexing, lex "éa//\"\n\"/" = .ok lexing ∧ lexing.marks = [⟨0, 2⟩, ⟨2, 3⟩, ⟨7, 9⟩] ∧
      lexing.tokens.toList =
        [⟨.identifier, "a", .none, 1, ⟨2, 3⟩⟩, ⟨.endOfFile, "", .none, 2, ⟨9, 9⟩⟩] ∧
      lexing.Covers "éa//\"\n\"/".toList := by
  have hpieces : pieces "éa//\"\n\"/".toList =
      [⟨['é'], .problem (.unexpectedCharacter 'é')⟩, ⟨['a'], .token .identifier .none⟩,
        ⟨['/', '/', '"'], .trivia⟩, ⟨['\n'], .trivia⟩,
        ⟨['"', '/'], .problem .unterminatedString⟩] := by
    have hstray : Opening.ofChar 'é' = .stray := Opening.ofChar_of_not_ascii (by decide)
    have hletter : Opening.ofChar 'a' = .letter := rfl
    have hquote : Opening.ofChar '"' = .quote := rfl
    have hslash : Opening.ofChar '/' = .slash := rfl
    have hnewline : Opening.ofChar '\n' = .newline := rfl
    have hend : isWordChar '/' = false := by decide
    simp [pieces_cons, Cut.of, hstray, hletter, hquote, hslash, hnewline, Cut.slash, Cut.string,
      Cut.word, hend]
    decide
  obtain ⟨lexing, hlexing, hcovers⟩ := lex_covers "éa//\"\n\"/" (by decide) (by decide)
  have hof := hlexing
  rw [lex_eq_ok (by decide) (by decide)] at hof
  cases hof
  refine ⟨_, hlexing, ?_, ?_, hcovers⟩
  · rw [marks_eq, marksFrom, placedPieces, hpieces]
    decide
  · rw [Tokens.toList_ofList, tokensFrom, placedPieces, hpieces]
    rfl

end LoxScan
