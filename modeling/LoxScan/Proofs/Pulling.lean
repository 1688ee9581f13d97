import LoxScan.Proofs.Faultless
import LoxScan.Proofs.LineNumbers
import LoxScan.Proofs.Tiling

/-!
# Tokens one by one

A scanner hands out on every call the next token that lexing the whole source yields. It then
stands where the token ends, on the line there, and knows the diagnostics in front of the token and
no others. From the end of file on nothing changes any more, however often it is asked.

Between two calls a scanner has passed some pieces of the source and has the others ahead. A call
passes the pieces up to the next one that is a token, or all of them.
-/

namespace LoxScan

open Utf8

/-- The scanner after a number of calls. -/
def Scanner.pulled (scanner : Scanner) : Nat → Except Fault Scanner
  | 0 => .ok scanner
  | count + 1 => do
    let before ← scanner.pulled count
    let (_, behind) ← before.next
    return behind

namespace Lexing

/-- What a call after a number of others hands out, and how it leaves the scanner. -/
structure Hands (lexing : Lexing) (text : List Char) (count : Nat) (before : Scanner)
    (token : Token) (behind : Scanner) : Prop where
  /-- The token has the number of the call, or is the last one if there are not as many. -/
  handed : lexing.tokens.toList[count]? = some token ∨
    lexing.tokens.size ≤ count ∧ lexing.tokens.last? = some token
  diagnostics_prefix : behind.diagnostics.toList <+: lexing.diagnostics
  /-- Those are known that begin in front of the token. -/
  diagnostics : behind.diagnostics.toList =
    lexing.diagnostics.filter (·.span.start < token.span.start)
  line : behind.line = 1 + newlinesBefore text token.span.stop
  forward : token.kind ≠ .endOfFile → before.cursor.pos < behind.cursor.pos
  complete : token.kind = .endOfFile → behind.diagnostics.toList = lexing.diagnostics
  sticky : token.kind = .endOfFile → behind.next = .ok (token, behind)

/-- The end of file is among the tokens once, at their end. -/
def EndsOnce (lexing : Lexing) : Prop :=
  ∃ lexemes last, lexing.tokens.toList = lexemes ++ [last] ∧ last.kind = .endOfFile ∧
    ∀ token ∈ lexemes, token.kind ≠ .endOfFile

end Lexing

namespace Scanner

/-- A scanner that has passed some of the pieces of a text and has the others ahead. -/
inductive Amid (text : List Char) : List Placed → List Placed → Scanner → Prop
  | mk {earlier later : List Placed} {passed ahead : List Char} : passed ++ ahead = text →
    earlier ++ later = placedPieces 0 1 text →
    later = placedPieces (size passed) (1 + newlines passed) ahead →
    Amid text earlier later (facing text (size passed) (1 + newlines passed)
      (earlier.filterMap Placed.diagnostic?).toArray ahead)

/-- What a scanner with some pieces passed and the others ahead hands out, and how it is left. -/
inductive Finds (text : List Char) (earlier later : List Placed) : Token → Scanner → Prop
  | token {skipped rest : List Placed} {placed : Placed} {token : Token} {after : Scanner} :
    later = skipped ++ placed :: rest → (∀ placed ∈ skipped, placed.token? = none) →
    placed.token? = some token → Amid text (earlier ++ skipped ++ [placed]) rest after →
    after.cursor.pos = placed.span.stop → Finds text earlier later token after
  | endOfFile {after : Scanner} :
    (∀ placed ∈ later, placed.token? = none) → Amid text (earlier ++ later) [] after →
    after.cursor.pos = size text →
    after.next = .ok (.endOfFile (1 + newlines text) (size text), after) →
    Finds text earlier later (.endOfFile (1 + newlines text) (size text)) after

variable {text : List Char} {earlier later : List Placed} {scanner after : Scanner}
  {token : Token}

namespace Amid

/-- At first no piece is passed. -/
theorem start (hsize : size text ≤ maxWord) :
    Amid text [] (placedPieces 0 1 text) (start (Source.cursor ⟨text, hsize⟩)) := by
  have hstart : Amid text [] (placedPieces 0 1 text)
      (facing text (size []) (1 + newlines []) #[] text) := .mk rfl rfl rfl
  exact hstart

/-- The pieces passed and those ahead are all. -/
theorem append_eq (h : Amid text earlier later scanner) :
    earlier ++ later = placedPieces 0 1 text := by
  cases h with
  | mk htext hplaced hlater => exact hplaced

/-- The diagnostics of the pieces passed are known. -/
theorem diagnostics_eq (h : Amid text earlier later scanner) :
    scanner.diagnostics.toList = earlier.filterMap Placed.diagnostic? := by
  cases h with
  | mk htext hplaced hlater => rfl

/-- The line counts the newlines that are passed. -/
theorem line_eq (h : Amid text earlier later scanner) :
    scanner.line = 1 + newlinesBefore text scanner.cursor.pos := by
  cases h with
  | mk htext hplaced hlater =>
    rw [facing_line, facing_cursor, Cursor.between_pos, ← htext, newlinesBefore_size]

/-- Bytes are passed or ahead. -/
theorem pos_add_remaining (h : Amid text earlier later scanner) :
    scanner.cursor.pos + scanner.cursor.remaining = size text := by
  cases h with
  | @mk passed ahead htext hplaced hlater =>
    rw [← htext, size_append, ← length_encode ahead]
    rfl

/-- With no piece ahead a scanner is at the end, and a call leaves it there. -/
theorem next_nil (h : Amid text earlier [] scanner) :
    scanner.cursor.pos = size text ∧
      scanner.next = .ok (.endOfFile (1 + newlines text) (size text), scanner) := by
  cases h with
  | @mk passed ahead htext hplaced hlater =>
    cases ahead with
    | nil =>
      rw [List.append_nil] at htext
      subst htext
      exact ⟨rfl, next_facing_nil⟩
    | cons c rest =>
      rw [placedPieces_cons] at hlater
      cases hlater

/-- Passing the first piece ahead. -/
theorem pass {passed rest : List Char} {c : Char} {first : Placed}
    (htext : passed ++ c :: rest = text)
    (hplaced : earlier ++ first :: later = placedPieces 0 1 text)
    (hlater : first :: later = placedPieces (size passed) (1 + newlines passed) (c :: rest)) :
    Amid text (earlier ++ [first]) later (behind text (size passed) (1 + newlines passed)
      (earlier.filterMap Placed.diagnostic?).toArray c rest) := by
  rw [placedPieces_cons] at hlater
  obtain ⟨rfl, rfl⟩ := List.cons.inj hlater
  have hdiagnostics : (earlier.filterMap Placed.diagnostic?).toArray ++
      (firstPlaced (size passed) (1 + newlines passed) c rest).diagnostic?.toList =
        ((earlier ++ [firstPlaced (size passed) (1 + newlines passed) c rest]).filterMap
          Placed.diagnostic?).toArray := by
    rw [List.filterMap_append]
    cases h : (firstPlaced (size passed) (1 + newlines passed) c rest).diagnostic? <;> simp [h]
  rw [← List.singleton_append, ← List.append_assoc] at hplaced
  rw [behind, hdiagnostics, Nat.add_assoc 1, ← size_append, ← newlines_append] at *
  exact .mk (by rw [List.append_assoc, Cut.text_of_append_rest, htext]) hplaced rfl

/-- A call passes the first piece ahead, and hands it out if it is a token. -/
theorem next_cons {first : Placed} (h : Amid text earlier (first :: later) scanner)
    (hsize : size text ≤ maxWord) (hlines : newlines text < maxWord) :
    ∃ after, Amid text (earlier ++ [first]) later after ∧ after.cursor.pos = first.span.stop ∧
      scanner.next = match first.token? with
        | some token => .ok (token, after)
        | none => after.next := by
  cases h with
  | @mk passed ahead htext hplaced hlater =>
    cases ahead with
    | nil => simp at hlater
    | cons c rest =>
      have hfirst := (List.cons.inj (hlater.trans (placedPieces_cons _ _ c rest))).1
      rw [← htext, size_append] at hsize
      rw [← htext, newlines_append, newlines_cons_eq_cut] at hlines
      refine ⟨_, pass htext hplaced hlater, ?_, ?_⟩
      · rw [hfirst]
        rfl
      · rw [hfirst]
        exact next_facing_cons c rest hsize (by omega)

end Amid

/-- A piece that is no token is passed on the way. -/
theorem Finds.skip {first : Placed} (h : Finds text (earlier ++ [first]) later token after)
    (hfirst : first.token? = none) : Finds text earlier (first :: later) token after := by
  cases h with
  | @token skipped rest placed _ _ hlater hskipped htoken hamid hpos =>
    have hpassed : earlier ++ [first] ++ skipped = earlier ++ (first :: skipped) := by simp
    rw [hpassed] at hamid
    rw [hlater, ← List.cons_append]
    exact .token rfl (List.forall_mem_cons.2 ⟨hfirst, hskipped⟩) htoken hamid hpos
  | endOfFile hlater hamid hpos hnext =>
    rw [List.append_assoc, List.singleton_append] at hamid
    exact .endOfFile (List.forall_mem_cons.2 ⟨hfirst, hlater⟩) hamid hpos hnext

/-- A call passes the pieces up to the next token and hands it out. -/
theorem Amid.next (h : Amid text earlier later scanner) (hsize : size text ≤ maxWord)
    (hlines : newlines text < maxWord) :
    ∃ token after, scanner.next = .ok (token, after) ∧ Finds text earlier later token after := by
  -- One piece ahead is passed at a time, so the pieces passed grow as those ahead get fewer.
  induction later generalizing earlier scanner with
  | nil =>
    obtain ⟨hpos, hnext⟩ := h.next_nil
    refine ⟨_, _, hnext, .endOfFile (by simp) ?_ hpos hnext⟩
    rwa [List.append_nil]
  | cons first later ih =>
    obtain ⟨after, hafter, hpos, hnext⟩ := h.next_cons hsize hlines
    rw [hnext]
    cases htoken : first.token? with
    | some token =>
      refine ⟨token, after, rfl, .token (List.nil_append _).symm (by simp) htoken ?_ hpos⟩
      rwa [List.append_nil]
    | none =>
      obtain ⟨token, last, hlast, hfinds⟩ := ih hafter
      exact ⟨token, last, hlast, hfinds.skip htoken⟩

/-- After a number of calls, the tokens ahead are all but as many. -/
theorem exists_amid_pulled (hsize : size text ≤ maxWord) (hlines : newlines text < maxWord)
    (count : Nat) :
    ∃ before earlier later, (start (Source.cursor ⟨text, hsize⟩)).pulled count = .ok before ∧
      Amid text earlier later before ∧ later.filterMap Placed.token? =
        ((placedPieces 0 1 text).filterMap Placed.token?).drop count := by
  induction count with
  | zero => exact ⟨_, _, _, rfl, .start hsize, rfl⟩
  | succ count ih =>
    obtain ⟨before, earlier, later, hbefore, hamid, htokens⟩ := ih
    obtain ⟨token, after, hnext, hfinds⟩ := hamid.next hsize hlines
    have hpulled : (start (Source.cursor ⟨text, hsize⟩)).pulled (count + 1) = .ok after := by
      simp only [pulled, hbefore, hnext, bind, Except.bind, pure, Except.pure]
    rw [← List.drop_drop, ← htokens, List.drop_one]
    cases hfinds with
    | @token skipped rest placed _ _ hlater hskipped htoken hamid hpos =>
      refine ⟨after, _, _, hpulled, hamid, ?_⟩
      rw [hlater, List.filterMap_append, List.filterMap_eq_nil_iff.2 hskipped, List.nil_append,
        List.filterMap_cons_some htoken, List.tail_cons]
    | endOfFile hlater hamid hpos hnext =>
      refine ⟨after, _, _, hpulled, hamid, ?_⟩
      rw [List.filterMap_eq_nil_iff.2 hlater]
      rfl

end Scanner

/-- Pieces begin one behind the other. -/
theorem pairwise_start_placedPieces (pos line : Nat) (text : List Char) :
    (placedPieces pos line text).Pairwise fun left right =>
      left.span.start < right.span.start := by
  induction text using pieces.induct generalizing pos line with
  | case1 => simp
  | case2 c text ih =>
    rw [placedPieces_cons, List.pairwise_cons]
    refine ⟨fun placed hplaced => ?_, ih _ _⟩
    obtain ⟨before, d, rest, -, rfl⟩ := exists_firstPlaced_of_mem hplaced
    obtain ⟨tail, htail⟩ := Cut.text_of_eq_cons c text
    have hpos := c.utf8Size_pos
    simp only [Placed.span, firstPlaced, htail, size_cons]
    omega

/-- The diagnostics in front of an offset are those of the pieces in front of it. -/
theorem filter_diagnostics {front back : List Placed} {offset : Nat}
    (hfront : ∀ placed ∈ front, placed.span.start < offset)
    (hback : ∀ placed ∈ back, offset ≤ placed.span.start) :
    ((front ++ back).filterMap Placed.diagnostic?).filter (·.span.start < offset) =
      front.filterMap Placed.diagnostic? := by
  have hkept : ∀ diagnostic ∈ front.filterMap Placed.diagnostic?,
      decide (diagnostic.span.start < offset) = true := by
    intro diagnostic hmem
    obtain ⟨placed, hplaced, hdiagnostic⟩ := List.mem_filterMap.1 hmem
    simpa [Placed.span_of_diagnostic? hdiagnostic] using hfront placed hplaced
  have hdropped : ∀ diagnostic ∈ back.filterMap Placed.diagnostic?,
      ¬ decide (diagnostic.span.start < offset) = true := by
    intro diagnostic hmem
    obtain ⟨placed, hplaced, hdiagnostic⟩ := List.mem_filterMap.1 hmem
    simpa [Placed.span_of_diagnostic? hdiagnostic] using hback placed hplaced
  rw [List.filterMap_append, List.filter_append, List.filter_eq_self.2 hkept,
    List.filter_eq_nil_iff.2 hdropped, List.append_nil]

/-- A text has no more pieces than characters. -/
theorem length_pieces_le (text : List Char) : (pieces text).length ≤ text.length := by
  induction text using pieces.induct with
  | case1 => simp
  | case2 c text ih =>
    have hrest := Cut.length_rest_of_lt c text
    rw [pieces_cons, List.length_cons]
    omega

/-- A piece gives a token or a diagnostic, but not both. -/
theorem length_tokensFrom_add_length_diagnosticsFrom_le (pos line : Nat) (text : List Char) :
    (tokensFrom pos line text).length + (diagnosticsFrom pos line text).length ≤ size text + 1 := by
  have hmarks := (perm_marks (placedPieces pos line text)).length_eq
  have hpieces := congrArg List.length (map_toPiece_place pos line (pieces text))
  have hmost := List.length_filterMap_le Placed.mark? (placedPieces pos line text)
  have hpiecesLe := length_pieces_le text
  have hchars := length_le_size text
  rw [List.length_append, List.length_map, List.length_map] at hmarks
  rw [List.length_map] at hpieces
  rw [tokensFrom, diagnosticsFrom, List.length_append, List.length_singleton]
  simp only [placedPieces] at *
  omega

namespace Scanner.Finds

variable {text : List Char} {earlier later : List Placed} {before after : Scanner} {token : Token}
  {count : Nat}

/-- The scanner is left between pieces. -/
theorem exists_amid (h : Finds text earlier later token after) :
    ∃ passed ahead, Amid text passed ahead after := by
  cases h with
  | token hlater hskipped htoken hamid hpos => exact ⟨_, _, hamid⟩
  | endOfFile hlater hamid hpos hnext => exact ⟨_, _, hamid⟩

/-- The scanner is left where the token ends. -/
theorem pos_eq (h : Finds text earlier later token after) :
    after.cursor.pos = token.span.stop := by
  cases h with
  | token hlater hskipped htoken hamid hpos => rw [hpos, Placed.span_of_token? htoken]
  | endOfFile hlater hamid hpos hnext => exact hpos

/-- At the end of file everything is known, and the next call is the same. -/
theorem of_endOfFile (h : Finds text earlier later token after)
    (hall : earlier ++ later = placedPieces 0 1 text) (hkind : token.kind = .endOfFile) :
    after.diagnostics.toList = diagnosticsFrom 0 1 text ∧ after.next = .ok (token, after) := by
  cases h with
  | @token skipped rest placed _ _ hlater hskipped htoken hamid hpos =>
    have hmem : token ∈ (placedPieces 0 1 text).filterMap Placed.token? := by
      refine List.mem_filterMap.2 ⟨placed, ?_, htoken⟩
      simp [← hall, hlater]
    exact absurd hkind (kind_ne_endOfFile_of_mem hmem)
  | endOfFile hlater hamid hpos hnext => exact ⟨by rw [hamid.diagnostics_eq, hall]; rfl, hnext⟩

/-- The diagnostics in front of the token are known, and no others. -/
theorem diagnostics_eq (h : Finds text earlier later token after)
    (hall : earlier ++ later = placedPieces 0 1 text) :
    after.diagnostics.toList =
      (diagnosticsFrom 0 1 text).filter (·.span.start < token.span.start) := by
  have hordered := pairwise_start_placedPieces 0 1 text
  rw [diagnosticsFrom]
  cases h with
  | @token skipped rest placed _ _ hlater hskipped htoken hamid hpos =>
    rw [← hall, hlater, ← List.append_assoc] at hordered ⊢
    obtain ⟨-, hback, hfront⟩ := List.pairwise_append.1 hordered
    rw [hamid.diagnostics_eq, List.filterMap_append, Placed.span_of_token? htoken,
      filter_diagnostics fun first hfirst => hfront first hfirst placed List.mem_cons_self]
    · rw [List.filterMap_cons_none (Placed.diagnostic?_of_token? htoken), List.filterMap_nil,
        List.append_nil]
    · intro other hother
      rcases List.mem_cons.1 hother with rfl | hother
      · exact Nat.le_refl _
      · exact Nat.le_of_lt ((List.pairwise_cons.1 hback).1 other hother)
  | endOfFile hlater hamid hpos hnext =>
    -- Pieces are not empty, so all of them begin in front of the end of file.
    have hbelow : ∀ placed ∈ placedPieces 0 1 text, placed.span.start < size text := by
      intro placed hplaced
      obtain ⟨before, c, rest, rfl, rfl⟩ := exists_firstPlaced_of_mem hplaced
      have hpos := c.utf8Size_pos
      simp only [Placed.span, firstPlaced, size_append, size_cons]
      omega
    have hfilter := filter_diagnostics hbelow fun placed hplaced => absurd hplaced List.not_mem_nil
    rw [List.append_nil] at hfilter
    rw [hamid.diagnostics_eq, hall]
    exact hfilter.symm

/-- The token handed out is the one behind those handed out before. -/
theorem handed (h : Finds text earlier later token after)
    (hcount : later.filterMap Placed.token? =
      ((placedPieces 0 1 text).filterMap Placed.token?).drop count) :
    (tokensFrom 0 1 text)[count]? = some token ∨
      (tokensFrom 0 1 text).length ≤ count ∧ (tokensFrom 0 1 text).getLast? = some token := by
  rw [tokensFrom, Nat.zero_add]
  generalize (placedPieces 0 1 text).filterMap Placed.token? = lexemes at hcount
  cases h with
  | @token skipped rest placed _ _ hlater hskipped htoken hamid hpos =>
    rw [hlater, List.filterMap_append, List.filterMap_eq_nil_iff.2 hskipped, List.nil_append,
      List.filterMap_cons_some htoken] at hcount
    have hget : lexemes[count]? = some token := by
      rw [← Nat.add_zero count, ← List.getElem?_drop, ← hcount]
      rfl
    obtain ⟨hlt, -⟩ := List.getElem?_eq_some_iff.1 hget
    exact Or.inl ((List.getElem?_append_left hlt).trans hget)
  | endOfFile hlater hamid hpos hnext =>
    rw [List.filterMap_eq_nil_iff.2 hlater] at hcount
    have hle : lexemes.length ≤ count := List.drop_eq_nil_iff.1 hcount.symm
    rcases Nat.eq_or_lt_of_le hle with rfl | hlt
    · exact Or.inl List.getElem?_concat_length
    · exact Or.inr ⟨by rwa [List.length_append], List.getLast?_concat⟩

/-- What lexing the text says about the call. -/
theorem hands (hbefore : Amid text earlier later before)
    (hcount : later.filterMap Placed.token? =
      ((placedPieces 0 1 text).filterMap Placed.token?).drop count)
    (hnext : before.next = .ok (token, after)) (h : Finds text earlier later token after) :
    (Lexing.of text).Hands text count before token after := by
  have hdiagnostics := h.diagnostics_eq hbefore.append_eq
  obtain ⟨passed, ahead, hamid⟩ := h.exists_amid
  constructor
  case handed =>
    rcases h.handed hcount with hget | ⟨hle, hlast⟩
    · exact Or.inl ((congrArg (·[count]?) (Tokens.toList_ofList _)).trans hget)
    · exact Or.inr ⟨by simpa [Lexing.of, Tokens.size, Tokens.ofList] using hle,
        by simpa [Lexing.of, Tokens.last?, Tokens.ofList] using hlast⟩
  case diagnostics_prefix =>
    rw [hamid.diagnostics_eq, Lexing.of, diagnosticsFrom, ← hamid.append_eq, List.filterMap_append]
    exact List.prefix_append _ _
  case diagnostics => exact hdiagnostics
  case line => rw [hamid.line_eq, h.pos_eq]
  case forward =>
    intro hkind
    have hless := remaining_next hnext hkind
    have hsum := hbefore.pos_add_remaining
    have hsumAfter := hamid.pos_add_remaining
    omega
  case complete => exact fun hkind => (h.of_endOfFile hbefore.append_eq hkind).1
  case sticky => exact fun hkind => (h.of_endOfFile hbefore.append_eq hkind).2

end Scanner.Finds

/-- A scanner hands out the tokens of a source one by one and the end of file from then on, and
knows at each the diagnostics in front of it. -/
theorem lex_pulled (text : String) (hsize : size text.toList ≤ maxWord)
    (hlines : newlines text.toList < maxWord) :
    ∃ lexing, lex text = .ok lexing ∧ lexing.EndsOnce ∧
      lexing.tokens.size + lexing.diagnostics.length ≤ size text.toList + 1 ∧
      ∀ count, ∃ before token after,
        (Scanner.start (Source.cursor ⟨text.toList, hsize⟩)).pulled count = .ok before ∧
        before.next = .ok (token, after) ∧
        lexing.Hands text.toList count before token after := by
  refine ⟨_, lex_eq_ok hsize hlines, ?_, ?_, fun count => ?_⟩
  · exact ⟨_, _, Tokens.toList_ofList _, rfl, fun token => kind_ne_endOfFile_of_mem⟩
  · rw [← Tokens.length_toList, Tokens.toList_ofList]
    exact length_tokensFrom_add_length_diagnosticsFrom_le 0 1 text.toList
  · obtain ⟨before, earlier, later, hbefore, hamid, hcount⟩ :=
      Scanner.exists_amid_pulled hsize hlines count
    obtain ⟨token, after, hnext, hfinds⟩ := hamid.next hsize hlines
    exact ⟨before, token, after, hbefore, hnext, hfinds.hands hamid hcount hnext⟩

/-- The number in front of two problems is handed out first, then the end of file for ever. -/
theorem lex_pulled_of_open_string :
    ∃ lexing, lex "1@\n\"b" = .ok lexing ∧
      lexing.tokens.kinds = [.number, .endOfFile] ∧
      lexing.diagnostics.map (·.span.start) = [1, 3] ∧ lexing.EndsOnce ∧
      lexing.tokens.size + lexing.diagnostics.length ≤ 6 ∧
      ∀ count, ∃ before token after,
        (Scanner.start (Source.cursor ⟨"1@\n\"b".toList, by decide⟩)).pulled count = .ok before ∧
        before.next = .ok (token, after) ∧
        lexing.Hands "1@\n\"b".toList count before token after := by
  have hpieces : pieces "1@\n\"b".toList =
      [⟨['1'], .token .number (Cut.numeralValue ['1'])⟩,
        ⟨['@'], .problem (.unexpectedCharacter '@')⟩, ⟨['\n'], .trivia⟩,
        ⟨['"', 'b'], .problem .unterminatedString⟩] := by
    simp [pieces_cons, Cut.of, Opening.ofChar, Cut.string, Cut.number, Cut.fraction]
  obtain ⟨lexing, hlexing, hends, hbound, hpulled⟩ := lex_pulled "1@\n\"b" (by decide) (by decide)
  have hvalue := hlexing
  rw [lex_eq_ok (by decide) (by decide)] at hvalue
  cases hvalue
  refine ⟨_, hlexing, ?_, ?_, hends, hbound, hpulled⟩
  · rw [Tokens.kinds, Tokens.toList_ofList, tokensFrom, placedPieces, hpieces]
    rfl
  · rw [diagnosticsFrom, placedPieces, hpieces]
    rfl

end LoxScan
