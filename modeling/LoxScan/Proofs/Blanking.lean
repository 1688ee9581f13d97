import LoxScan.Proofs.Lexing
import LoxScan.Proofs.Seam

/-!
# Problems blanked out

If the bytes of every problem of a source are replaced by spaces, except for newlines, then what is
left is a text with the same tokens at the same places, and without problems. This holds because a
problem stands where a blank could stand: what was read in front of it is read in front of a blank
as well. Bytes that belong to no problem are not touched.
-/

namespace LoxScan

open Utf8

/-- A space in place of a byte; newlines stay. -/
def blankByte (byte : UInt8) : UInt8 := if byte = '\n'.toUInt8 then byte else ' '.toUInt8

/-- Bytes that are blanked at some offsets. -/
def blankBytes (blanked : Nat → Bool) (bytes : List UInt8) : List UInt8 :=
  bytes.mapIdx fun offset byte => if blanked offset then blankByte byte else byte

/-- Whether an offset lies in the span of a diagnostic. -/
def covered (diagnostics : List Diagnostic) (offset : Nat) : Bool :=
  diagnostics.any (·.span.contains offset)

/-- The bytes of a text, blanked in the spans of the diagnostics of a lexing. -/
def Lexing.blanked (lexing : Lexing) (text : List Char) : List UInt8 :=
  blankBytes (covered lexing.diagnostics) (encode text)

/-- As many spaces as a character has bytes; newlines stay. -/
def blankChar (c : Char) : List Char := if c = '\n' then [c] else List.replicate c.utf8Size ' '

/-- A text with every character blanked. -/
def blankText (text : List Char) : List Char := text.flatMap blankChar

/-- The text of a piece, blanked if it is a problem. -/
def Piece.mended (piece : Piece) : List Char :=
  match piece.finding with
  | .problem _ => blankText piece.text
  | _ => piece.text

/-- A text with its problems blanked. -/
def mend (text : List Char) : List Char := (pieces text).flatMap Piece.mended

section

variable {bytes : List UInt8}

/-- Two parts of a text are blanked one after the other. -/
theorem blankBytes_append (blanked : Nat → Bool) (front back : List UInt8) :
    blankBytes blanked (front ++ back) = blankBytes blanked front ++
      blankBytes (fun offset => blanked (offset + front.length)) back := by
  rw [blankBytes, List.mapIdx_append]
  rfl

/-- Blanking depends on the offsets inside the text only. -/
theorem blankBytes_congr {left right : Nat → Bool}
    (h : ∀ offset < bytes.length, left offset = right offset) :
    blankBytes left bytes = blankBytes right bytes := by
  apply List.mapIdx_eq_mapIdx_iff.2
  intro offset hoffset
  rw [h offset hoffset]

/-- Where every offset is blanked, every byte is. -/
theorem blankBytes_true : blankBytes (fun _ => true) bytes = bytes.map blankByte := by
  apply List.ext_getElem <;> simp [blankBytes]

/-- Where no offset is blanked, nothing changes. -/
theorem blankBytes_false : blankBytes (fun _ => false) bytes = bytes := by
  apply List.ext_getElem <;> simp [blankBytes]

end

/-- A character is blanked byte by byte, since no byte of another character is that of a newline. -/
theorem encode_blankChar (c : Char) :
    encode (blankChar c) = (String.utf8EncodeChar c).map blankByte := by
  by_cases hc : c = '\n'
  · subst hc
    rfl
  · have hblank : ∀ byte ∈ String.utf8EncodeChar c, blankByte byte = ' '.toUInt8 := by
      intro byte hbyte
      apply if_neg
      rintro rfl
      exact hc ((lead_mem_encodeChar_iff (d := '\n') (by decide)).1 hbyte)
    have hspace : String.utf8EncodeChar ' ' = [' '.toUInt8] := rfl
    rw [List.map_congr_left hblank, List.map_const', String.length_utf8EncodeChar, blankChar,
      if_neg hc, encode, List.flatMap_replicate, hspace, List.flatten_replicate_singleton]

/-- A text is blanked byte by byte. -/
theorem encode_blankText (text : List Char) :
    encode (blankText text) = (encode text).map blankByte := by
  induction text with
  | nil => rfl
  | cons c text ih =>
    rw [blankText, List.flatMap_cons, encode_append, encode_blankChar, ← blankText, ih,
      encode_cons, List.map_append]

/-- A blanked text has as many bytes. -/
theorem size_blankText (text : List Char) : size (blankText text) = size text := by
  rw [← length_encode, encode_blankText, List.length_map, length_encode]

/-- A blanked character is a newline just if it was one. -/
theorem newlines_blankChar (c : Char) : newlines (blankChar c) = newlines [c] := by
  by_cases hc : c = '\n'
  · rw [blankChar, if_pos hc]
  · rw [blankChar, if_neg hc, newlines_cons_of_ne hc]
    exact newlines_eq_zero (by simp)

/-- A blanked text has as many newlines. -/
theorem newlines_blankText (text : List Char) : newlines (blankText text) = newlines text := by
  induction text with
  | nil => rfl
  | cons c text ih =>
    rw [blankText, List.flatMap_cons, newlines_append, newlines_blankChar, ← blankText, ih,
      ← newlines_cons_eq_add]

/-- A blanked text holds blanks and newlines only. -/
theorem isBlank_of_mem_blankText {c : Char} {text : List Char} (h : c ∈ blankText text) :
    IsBlank c := by
  obtain ⟨d, -, hc⟩ := List.mem_flatMap.1 h
  unfold blankChar at hc
  split at hc
  · next hd =>
    rw [List.mem_singleton.1 hc, hd]
    exact Or.inr (Or.inr (Or.inr rfl))
  · exact Or.inl (List.eq_of_mem_replicate hc)

/-- A blanked text is empty only if the text was. -/
theorem blankText_ne_nil {text : List Char} (h : text ≠ []) : blankText text ≠ [] := by
  intro hnil
  have hbytes := size_blankText text
  cases text with
  | nil => exact h rfl
  | cons c text =>
    have hpos := c.utf8Size_pos
    rw [hnil, size_nil, size_cons] at hbytes
    omega

/-- Blanks are trivia wherever they stand. -/
theorem Trivia.of_isBlank {final : Prop} {stretch : List Char} (h : ∀ c ∈ stretch, IsBlank c) :
    Trivia final stretch := by
  induction stretch with
  | nil => exact .nil
  | cons c stretch ih =>
    obtain ⟨hc, hrest⟩ := List.forall_mem_cons.1 h
    exact .blank hc (ih hrest)

/-- A blanked text is passed over. -/
theorem trivia_blankText (text : List Char) : Trivia False (blankText text) :=
  .of_isBlank fun _ => isBlank_of_mem_blankText

namespace Piece

/-- Only problems are blanked when a piece is mended. -/
theorem mended_cases (piece : Piece) :
    (∃ problem, piece.finding = .problem problem ∧ piece.mended = blankText piece.text) ∨
      (∀ problem, piece.finding ≠ .problem problem) ∧ piece.mended = piece.text := by
  unfold mended
  cases piece.finding <;> simp

/-- Blanking changes neither the number of bytes nor that of lines. -/
theorem size_mended (piece : Piece) : size piece.mended = size piece.text := by
  rcases piece.mended_cases with ⟨problem, -, hmended⟩ | ⟨-, hmended⟩
  · rw [hmended, size_blankText]
  · rw [hmended]

/-- A mended piece has as many newlines. -/
theorem newlines_mended (piece : Piece) : newlines piece.mended = newlines piece.text := by
  rcases piece.mended_cases with ⟨problem, -, hmended⟩ | ⟨-, hmended⟩
  · rw [hmended, newlines_blankText]
  · rw [hmended]

end Piece

/-- There is nothing to mend in an empty text. -/
@[simp] theorem mend_nil : mend [] = [] := by simp [mend]

/-- A text is mended piece by piece. -/
theorem mend_cons (c : Char) (text : List Char) :
    mend (c :: text) = (Cut.of c text).mended ++ mend (Cut.of c text).rest := by
  rw [mend, pieces_cons, List.flatMap_cons]
  rfl

/-- A point is never mended. -/
theorem mend_point_cons (text : List Char) : mend ('.' :: text) = '.' :: mend text := by
  rw [mend_cons]
  rfl

/-- A newline is never mended. -/
theorem mend_newline_cons (text : List Char) : mend ('\n' :: text) = '\n' :: mend text := by
  rw [mend_cons]
  rfl

/-- A mended text has as many bytes. -/
theorem size_mend (text : List Char) : size (mend text) = size text := by
  induction text using pieces.induct with
  | case1 => simp
  | case2 c text ih =>
    rw [mend_cons, size_append, Piece.size_mended, ih, ← size_cons_eq_cut]

/-- A mended text has as many newlines. -/
theorem newlines_mend (text : List Char) : newlines (mend text) = newlines text := by
  induction text using pieces.induct with
  | case1 => simp
  | case2 c text ih =>
    rw [mend_cons, newlines_append, Piece.newlines_mended, ih, ← newlines_cons_eq_cut]

/-- A mended text begins with the same character, unless a problem was blanked there. -/
theorem beginsAs_mend (text : List Char) : BeginsAs (mend text) text := by
  cases text with
  | nil => simp [BeginsAs]
  | cons c text =>
    intro d hd
    obtain ⟨tail, htail⟩ := Cut.text_of_eq_cons c text
    rw [mend_cons] at hd
    rcases (Cut.of c text).mended_cases with ⟨problem, -, hmended⟩ | ⟨-, hmended⟩
    · have hne : blankText (Cut.of c text).text ≠ [] := blankText_ne_nil (by simp [htail])
      rw [hmended, List.head?_append_of_ne_nil _ hne] at hd
      exact Or.inr (isBlank_of_mem_blankText (List.mem_of_mem_head? hd))
    · rw [hmended, htail] at hd
      exact Or.inl hd

/-- Mending what follows a piece shows it nothing new. -/
theorem relaxes_mend (text : List Char) : Relaxes (mend text) text := by
  refine ⟨beginsAs_mend text, fun more hmore => ?_⟩
  have hhead : '.' ∈ text.head? ∨ IsBlank '.' := by
    apply beginsAs_mend text
    rw [hmore]
    rfl
  have hpoint : text.head? = some '.' := hhead.resolve_right (by simp [IsBlank])
  obtain ⟨behind, rfl⟩ := List.head?_eq_some_iff.1 hpoint
  rw [mend_point_cons] at hmore
  obtain ⟨-, rfl⟩ := List.cons.inj hmore
  exact ⟨behind, rfl, beginsAs_mend behind⟩

/-- Where a text ends a line, the mended text does. -/
theorem atLineEnd_mend {rest : List Char} (h : AtLineEnd rest) : AtLineEnd (mend rest) := by
  rcases h with rfl | h
  · exact Or.inl mend_nil
  · obtain ⟨behind, rfl⟩ := List.head?_eq_some_iff.1 h
    rw [mend_newline_cons]
    exact Or.inr rfl

section

variable (pos line : Nat) (c : Char) (text : List Char)

/-- A mended text falls into its mended pieces. -/
theorem pieces_mend_cons : pieces ((Cut.of c text).mended ++ mend (Cut.of c text).rest) =
    pieces (Cut.of c text).mended ++ pieces (mend (Cut.of c text).rest) := by
  -- Blanks see nothing of what follows; any other piece must see no difference in it.
  rcases (Cut.of c text).mended_cases with ⟨problem, -, hmended⟩ | ⟨hfinding, hmended⟩
  · rw [hmended, pieces_append_of_trivia (trivia_blankText _)]
  · have hfollow : MayFollow (mend (Cut.of c text).rest) (Cut.of c text) :=
      ⟨hfinding _, relaxes_mend _, fun _ => atLineEnd_mend⟩
    rw [hmended, pieces_append_of_mayFollow hfollow, pieces_text_of (hfinding _)]
    rfl

/-- A mended piece gives the token that it gave before. -/
theorem filterMap_token?_mended :
    (placedPieces pos line (Cut.of c text).mended).filterMap Placed.token? =
      (firstPlaced pos line c text).token?.toList := by
  rcases (Cut.of c text).mended_cases with ⟨problem, hfinding, hmended⟩ | ⟨hfinding, hmended⟩
  · have htrivia := finding_of_mem_pieces_of_trivia (trivia_blankText (Cut.of c text).text)
    rw [hmended, filterMap_token?_eq_nil htrivia, token?_firstPlaced_eq_none (by simp [hfinding]),
      Option.toList_none]
  · have hplaced : placedPieces pos line (Cut.of c text).text = [firstPlaced pos line c text] := by
      rw [placedPieces, pieces_text_of (hfinding _)]
      rfl
    rw [hmended, hplaced, List.filterMap_cons]
    cases (firstPlaced pos line c text).token? <;> rfl

/-- A mended piece gives no diagnostic. -/
theorem diagnosticsFrom_mended : diagnosticsFrom pos line (Cut.of c text).mended = [] := by
  rw [diagnosticsFrom_eq_nil_iff]
  intro piece hpiece problem
  rcases (Cut.of c text).mended_cases with ⟨-, -, hmended⟩ | ⟨hfinding, hmended⟩
  · rw [hmended] at hpiece
    simp [finding_of_mem_pieces_of_trivia (trivia_blankText _) piece hpiece]
  · rw [hmended, pieces_text_of (hfinding _)] at hpiece
    rw [List.mem_singleton.1 hpiece]
    exact hfinding problem

/-- Mending keeps all tokens. -/
theorem tokensFrom_mend : tokensFrom pos line (mend text) = tokensFrom pos line text := by
  induction text using pieces.induct generalizing pos line with
  | case1 => simp
  | case2 c text ih =>
    rw [mend_cons, tokensFrom_append pos line (pieces_mend_cons c text), filterMap_token?_mended,
      Piece.size_mended, Piece.newlines_mended, ih, ← tokensFrom_cons]

/-- Mending leaves no problem. -/
theorem diagnosticsFrom_mend : diagnosticsFrom pos line (mend text) = [] := by
  induction text using pieces.induct generalizing pos line with
  | case1 => simp
  | case2 c text ih =>
    rw [mend_cons, diagnosticsFrom_append pos line (pieces_mend_cons c text),
      diagnosticsFrom_mended, ih, List.append_nil]

end

/-- An offset is covered by two lists of diagnostics if it is by one of them. -/
theorem covered_append (left right : List Diagnostic) (offset : Nat) :
    covered (left ++ right) offset = (covered left offset || covered right offset) :=
  List.any_append

/-- No diagnostic covers what is in front of its text. -/
theorem covered_diagnosticsFrom_of_lt {pos offset : Nat} (h : offset < pos) (line : Nat)
    (text : List Char) : covered (diagnosticsFrom pos line text) offset = false := by
  rw [covered, List.any_eq_false]
  intro diagnostic hmem
  obtain ⟨before, d, rest, problem, -, -, rfl⟩ := exists_of_mem_diagnosticsFrom hmem
  simp only [Span.contains, Bool.and_eq_true, decide_eq_true_eq]
  omega

section

variable (pos line : Nat) (c : Char) (text : List Char)

/-- A problem covers its own bytes only. -/
theorem covered_firstPlaced (offset : Nat) :
    covered (firstPlaced pos line c text).diagnostic?.toList (pos + offset) =
      ((firstPlaced pos line c text).diagnostic?.isSome &&
        decide (offset < size (Cut.of c text).text)) := by
  cases hdiagnostic : (firstPlaced pos line c text).diagnostic? with
  | none => rfl
  | some diagnostic =>
    obtain ⟨problem, -, rfl⟩ := Placed.diagnostic?_eq_some_iff.1 hdiagnostic
    simp [covered, Span.contains, Placed.span, firstPlaced]

/-- The bytes of the first piece, blanked where they are covered. -/
theorem blankBytes_firstPiece :
    blankBytes (fun offset => covered (diagnosticsFrom pos line (c :: text)) (pos + offset))
      (encode (Cut.of c text).text) = encode (Cut.of c text).mended := by
  have hcovered : ∀ offset < (encode (Cut.of c text).text).length,
      covered (diagnosticsFrom pos line (c :: text)) (pos + offset) =
        (firstPlaced pos line c text).diagnostic?.isSome := by
    intro offset hoffset
    rw [length_encode] at hoffset
    rw [diagnosticsFrom_cons, covered_append, covered_firstPlaced,
      covered_diagnosticsFrom_of_lt (by omega), decide_eq_true hoffset, Bool.and_true,
      Bool.or_false]
  rw [blankBytes_congr hcovered]
  rcases (Cut.of c text).mended_cases with ⟨problem, hfinding, hmended⟩ | ⟨hfinding, hmended⟩
  · rw [diagnostic?_firstPlaced hfinding, Option.isSome_some, blankBytes_true, hmended,
      encode_blankText]
  · rw [diagnostic?_firstPlaced_eq_none hfinding, Option.isSome_none, blankBytes_false, hmended]

/-- Behind the first piece, what is covered is so by the diagnostics behind it. -/
theorem covered_add_size (offset : Nat) :
    covered (diagnosticsFrom pos line (c :: text))
        (pos + (offset + size (Cut.of c text).text)) =
      covered (diagnosticsFrom (pos + size (Cut.of c text).text)
        (line + newlines (Cut.of c text).text) (Cut.of c text).rest)
        (pos + size (Cut.of c text).text + offset) := by
  rw [diagnosticsFrom_cons, covered_append, covered_firstPlaced, decide_eq_false (by omega),
    Bool.and_false, Bool.false_or, Nat.add_comm offset, Nat.add_assoc]

end

/-- Mending blanks the bytes that the diagnostics cover. -/
theorem encode_mend (pos line : Nat) (text : List Char) : encode (mend text) =
    blankBytes (fun offset => covered (diagnosticsFrom pos line text) (pos + offset))
      (encode text) := by
  -- The bytes are counted from the text on, the spans from the source on.
  induction text using pieces.induct generalizing pos line with
  | case1 => simp [blankBytes]
  | case2 c text ih =>
    rw [encode_cons_eq_cut, blankBytes_append, blankBytes_firstPiece, length_encode, mend_cons,
      encode_append, ih (pos + size (Cut.of c text).text) (line + newlines (Cut.of c text).text)]
    simp only [covered_add_size]

/-- If the bytes of all problems are blanked, what is left is a text that has the same tokens and
no diagnostics. -/
theorem lex_blanked (text : String) (hsize : size text.toList ≤ maxWord)
    (hlines : newlines text.toList < maxWord) :
    ∃ lexing, lex text = .ok lexing ∧
      (∃ blanked : String, encode blanked.toList = lexing.blanked text.toList) ∧
      ∀ blanked : String, encode blanked.toList = lexing.blanked text.toList →
        lex blanked = .ok { lexing with diagnostics := [] } := by
  refine ⟨_, lex_eq_ok hsize hlines, ?_⟩
  have hbytes : Lexing.blanked ⟨.ofList (tokensFrom 0 1 text.toList),
      diagnosticsFrom 0 1 text.toList⟩ text.toList = encode (mend text.toList) := by
    rw [encode_mend 0 1, Lexing.blanked]
    simp only [Nat.zero_add]
  rw [hbytes]
  refine ⟨⟨String.ofList (mend text.toList), by rw [String.toList_ofList]⟩, fun blanked h => ?_⟩
  have htext : blanked.toList = mend text.toList := encode_injective h
  rw [← size_mend, ← htext] at hsize
  rw [← newlines_mend, ← htext] at hlines
  rw [lex_eq_ok hsize hlines, htext, tokensFrom_mend, diagnosticsFrom_mend]

/-- Blanks keep apart what the problems kept apart: an operator from its equal sign, and a point
from the digit behind it. The newline of an open string stays. -/
theorem lex_blanked_of_open_string :
    ∃ lexing, lex "!@=1.é5\"\n" = .ok lexing ∧
      lexing.diagnostics.map (·.span) = [⟨1, 2⟩, ⟨5, 7⟩, ⟨8, 10⟩] ∧
      lex "! =1.  5 \n" = .ok { lexing with diagnostics := [] } := by
  have hpieces : pieces "!@=1.é5\"\n".toList =
      [⟨['!'], .token .bang .none⟩, ⟨['@'], .problem (.unexpectedCharacter '@')⟩,
        ⟨['='], .token .equal .none⟩, ⟨['1'], .token .number (Cut.numeralValue ['1'])⟩,
        ⟨['.'], .token .dot .none⟩, ⟨['é'], .problem (.unexpectedCharacter 'é')⟩,
        ⟨['5'], .token .number (Cut.numeralValue ['5'])⟩,
        ⟨['"', '\n'], .problem .unterminatedString⟩] := by
    simp [pieces_cons, Cut.of, Opening.ofChar, Cut.withEqual, Cut.number, Cut.fraction, Cut.string]
  obtain ⟨lexing, hlexing, -, hblanked⟩ := lex_blanked "!@=1.é5\"\n" (by decide) (by decide)
  have hdiagnostics : lexing.diagnostics = diagnosticsFrom 0 1 "!@=1.é5\"\n".toList := by
    have hvalue := hlexing
    rw [lex_eq_ok (by decide) (by decide)] at hvalue
    cases hvalue
    rfl
  rw [diagnosticsFrom, placedPieces, hpieces] at hdiagnostics
  refine ⟨lexing, hlexing, ?_, hblanked "! =1.  5 \n" ?_⟩
  · rw [hdiagnostics]
    decide
  · rw [Lexing.blanked, hdiagnostics]
    decide

end LoxScan
