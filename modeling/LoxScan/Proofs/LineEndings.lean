import LoxScan.Proofs.LineNumbers
import LoxScan.Proofs.Seam

/-!
# Two ways to end a line

A line may end in a newline, or in a carriage return and a newline. A text that is changed from the
one to the other has the same tokens and diagnostics on the same lines. Only strings that go over
several lines hold the carriage returns, and every offset counts those in front of it. What is
passed over is not the same: a comment takes up the carriage return that ends its line.
-/

namespace LoxScan

open Utf8

/-- A newline with a carriage return in front of it; any other character alone. -/
def returned (c : Char) : List Char := if c = '\n' then ['\r', '\n'] else [c]

/-- A text with a carriage return in front of every newline. -/
def withReturns (text : List Char) : List Char := text.flatMap returned

/-- A value with the carriage returns of its text. -/
def Literal.withReturns : Literal → Literal
  | text content => .text (String.ofList (LoxScan.withReturns content.toList))
  | literal => literal

/-- What is found where carriage returns are put in front of newlines. -/
def Finding.withReturns : Finding → Finding
  | token kind literal => .token kind literal.withReturns
  | finding => finding

/-- An offset of a text, with the carriage returns in front of it. -/
def offsetWithReturns (text : List Char) (offset : Nat) : Nat := offset + newlinesBefore text offset

/-- A span of a text, with the carriage returns in front of either end. -/
def Span.withReturns (text : List Char) (span : Span) : Span :=
  ⟨offsetWithReturns text span.start, offsetWithReturns text span.stop⟩

/-- A token of a text where carriage returns are put in front of newlines. -/
def Token.withReturns (text : List Char) (token : Token) : Token :=
  { token with
    lexeme := String.ofList (LoxScan.withReturns token.lexeme.toList)
    literal := token.literal.withReturns
    span := token.span.withReturns text }

/-- A diagnostic of a text where carriage returns are put in front of newlines. -/
def Diagnostic.withReturns (text : List Char) (diagnostic : Diagnostic) : Diagnostic :=
  { diagnostic with span := diagnostic.span.withReturns text }

/-- A placed piece of a text where carriage returns are put in front of newlines. -/
def Placed.withReturns (text : List Char) (placed : Placed) : Placed :=
  { text := LoxScan.withReturns placed.text
    finding := placed.finding.withReturns
    pos := offsetWithReturns text placed.pos
    line := placed.line }

/-- An empty text has no newlines to change. -/
@[simp] theorem withReturns_nil : withReturns [] = [] := rfl

/-- Two parts of a text are changed one after the other. -/
@[simp] theorem withReturns_append (left right : List Char) :
    withReturns (left ++ right) = withReturns left ++ withReturns right :=
  List.flatMap_append

/-- A newline gets a carriage return in front. -/
theorem withReturns_newline_cons (text : List Char) :
    withReturns ('\n' :: text) = '\r' :: '\n' :: withReturns text := rfl

/-- A character that is no newline stays as it is. -/
theorem withReturns_cons_of_ne {c : Char} (h : c ≠ '\n') (text : List Char) :
    withReturns (c :: text) = c :: withReturns text := by
  rw [withReturns, List.flatMap_cons, returned, if_neg h]
  rfl

/-- A text on one line is left alone. -/
theorem withReturns_of_notMem {text : List Char} (h : '\n' ∉ text) : withReturns text = text := by
  induction text with
  | nil => rfl
  | cons c text ih =>
    rw [List.mem_cons, not_or] at h
    rw [withReturns_cons_of_ne (Ne.symm h.1), ih h.2]

/-- Every newline costs one byte more. -/
theorem size_withReturns (text : List Char) :
    size (withReturns text) = size text + newlines text := by
  induction text with
  | nil => rfl
  | cons c text ih =>
    have hreturn : '\r'.utf8Size = 1 := rfl
    by_cases hc : c = '\n'
    · subst hc
      rw [withReturns_newline_cons, size_cons, size_cons, size_cons, newlines_cons_self, ih,
        hreturn]
      omega
    · rw [withReturns_cons_of_ne hc, size_cons, size_cons, newlines_cons_of_ne hc, ih]
      omega

/-- The lines stay. -/
theorem newlines_withReturns (text : List Char) : newlines (withReturns text) = newlines text := by
  induction text with
  | nil => rfl
  | cons c text ih =>
    by_cases hc : c = '\n'
    · subst hc
      rw [withReturns_newline_cons, newlines_cons_of_ne (by decide), newlines_cons_self,
        newlines_cons_self, ih]
    · rw [withReturns_cons_of_ne hc, newlines_cons_of_ne hc, newlines_cons_of_ne hc, ih]

/-- No character but the carriage return is new. -/
theorem notMem_withReturns {c : Char} (hc : c ≠ '\r') {text : List Char} (h : c ∉ text) :
    c ∉ withReturns text := by
  intro hmem
  obtain ⟨d, hd, hcd⟩ := List.mem_flatMap.1 hmem
  unfold returned at hcd
  split at hcd
  · next hnewline =>
    rcases List.mem_cons.1 hcd with rfl | hcd
    · exact hc rfl
    · rw [List.mem_singleton.1 hcd, ← hnewline] at h
      exact h hd
  · rw [List.mem_singleton.1 hcd] at h
    exact h hd

/-- A text begins as before, or with a carriage return where it began with a newline. -/
theorem beginsAs_withReturns (text : List Char) : BeginsAs (withReturns text) text := by
  cases text with
  | nil => simp [BeginsAs]
  | cons c text =>
    intro d hd
    by_cases hc : c = '\n'
    · subst hc
      obtain rfl : '\r' = d := Option.some.inj hd
      exact Or.inr (by simp [IsBlank])
    · rw [withReturns_cons_of_ne hc] at hd
      exact Or.inl hd

/-- Carriage returns show no more than the newlines did. -/
theorem relaxes_withReturns (text : List Char) : Relaxes (withReturns text) text := by
  refine ⟨beginsAs_withReturns text, fun more hmore => ?_⟩
  cases text with
  | nil => simp at hmore
  | cons c text =>
    by_cases hc : c = '\n'
    · subst hc
      cases hmore
    · rw [withReturns_cons_of_ne hc] at hmore
      obtain ⟨rfl, rfl⟩ := List.cons.inj hmore
      exact ⟨text, rfl, beginsAs_withReturns text⟩

/-- What is not passed over is found again, with the carriage returns of its own lines. -/
theorem FirstPiece.withReturns {c : Char} {text : List Char} {cut : Cut}
    (h : FirstPiece c text cut) (hfinding : cut.finding ≠ .trivia) :
    c ≠ '\n' ∧ FirstPiece c (withReturns text)
      ⟨⟨LoxScan.withReturns cut.text, cut.finding.withReturns⟩, LoxScan.withReturns cut.rest⟩ := by
  have hc : c ≠ '\n' := by
    rintro rfl
    rw [h.eq_of] at hfinding
    exact hfinding rfl
  have hchar : LoxScan.withReturns [c] = [c] := withReturns_cons_of_ne hc []
  have hrest := relaxes_withReturns cut.rest
  have hdigits {digits : List Char} (hdigits : ∀ d ∈ digits, d.isDigit = true) :
      LoxScan.withReturns digits = digits :=
    withReturns_of_notMem fun hmem => absurd (hdigits _ hmem) (by decide)
  refine ⟨hc, ?_⟩
  cases h with
  | single hopening =>
    rw [hchar]
    exact single hopening
  | alone hopening hhead =>
    rw [hchar]
    exact alone hopening (hrest.head.head?_ne (by simp [IsBlank]) hhead)
  | @followed _ _ _ rest hopening =>
    have hequal : LoxScan.withReturns [c, '='] = [c, '='] := withReturns_cons_of_ne hc ['=']
    rw [hequal]
    exact followed hopening
  | slash hhead => exact slash (hrest.head.head?_ne (by simp [IsBlank]) hhead)
  | comment | blank => exact absurd rfl hfinding
  | @string content rest hcontent =>
    have hquoted : FirstPiece '"'
        (LoxScan.withReturns content ++ '"' :: LoxScan.withReturns rest) _ :=
      string (notMem_withReturns (by decide) hcontent)
    have htext : LoxScan.withReturns ('"' :: content ++ ['"']) =
        '"' :: LoxScan.withReturns content ++ ['"'] := by
      rw [withReturns_append, withReturns_cons_of_ne (by decide)]
      rfl
    rw [withReturns_append, withReturns_cons_of_ne (by decide), htext]
    simpa [Finding.withReturns, Literal.withReturns] using hquoted
  | openString hcontent =>
    rw [withReturns_cons_of_ne (by decide)]
    exact openString (notMem_withReturns (by decide) hcontent)
  | whole hrun hstop =>
    have htail := hdigits fun d hd => hrun.isDigit d (List.mem_cons_of_mem c hd)
    rw [withReturns_append, htail, hdigits hrun.isDigit]
    exact whole hrun (hrest.noFraction hstop)
  | @fraction _ digits part rest hrun hpart hstop =>
    have htail := hdigits fun d hd => hrun.isDigit d (List.mem_cons_of_mem c hd)
    have hpoint : LoxScan.withReturns ('.' :: part) = '.' :: part := by
      rw [withReturns_cons_of_ne (by decide), hdigits hpart.isDigit]
    rw [withReturns_append, withReturns_append, withReturns_append, hpoint, htail,
      hdigits hrun.isDigit]
    exact fraction hrun hpart (hrest.head.noDigit hstop)
  | @word _ tail rest hopening htail hstop =>
    have hword : LoxScan.withReturns tail = tail :=
      withReturns_of_notMem fun hmem => absurd (htail _ hmem) (by decide)
    rw [withReturns_append, withReturns_cons_of_ne hc, hword]
    exact word hopening htail (hrest.head.noWordChar hstop)
  | stray hopening =>
    rw [hchar]
    exact stray hopening

section

variable (pos line : Nat) {c : Char} {text : List Char} {cut : Cut}

/-- A piece that is not passed over is found again, and the rest behind it. -/
theorem finds_withReturns_of_found (h : FirstPiece c text cut) (hfinding : cut.finding ≠ .trivia) :
    finds pos line (withReturns (c :: text)) =
      ⟨⟨withReturns cut.text, cut.finding.withReturns⟩, pos, line⟩ ::
        finds (pos + size (withReturns cut.text)) (line + newlines cut.text)
          (withReturns cut.rest) := by
  obtain ⟨hc, hreturns⟩ := h.withReturns hfinding
  have hfound : cut.finding.withReturns ≠ .trivia := by
    intro htrivia
    cases hcut : cut.finding <;> simp_all [Finding.withReturns]
  rw [withReturns_cons_of_ne hc, finds_of_firstPiece pos line hreturns, if_neg hfound,
    newlines_withReturns]
  rfl

/-- A piece that is passed over is passed over again, and the rest is found behind it. -/
theorem finds_withReturns_of_trivia (h : FirstPiece c text cut) (hfinding : cut.finding = .trivia) :
    finds pos line (withReturns (c :: text)) =
      finds (pos + size (withReturns cut.text)) (line + newlines cut.text)
        (withReturns cut.rest) := by
  have hreturn : IsBlank '\r' := by simp [IsBlank]
  have hnewline : IsBlank '\n' := by simp [IsBlank]
  cases h with
  | blank hblank =>
    by_cases hc : c = '\n'
    · subst hc
      rw [withReturns_newline_cons, finds_blank_cons _ _ hreturn, finds_blank_cons _ _ hnewline]
      rfl
    · have hchar : withReturns [c] = [c] := withReturns_cons_of_ne hc []
      rw [withReturns_cons_of_ne hc, finds_blank_cons _ _ hblank, hchar]
  | @comment body rest hbody hrest =>
    have hcomment : '\n' ∉ '/' :: '/' :: body := by simpa using hbody
    have htext : withReturns ('/' :: ('/' :: body ++ rest)) =
        '/' :: '/' :: body ++ withReturns rest := by
      rw [← List.cons_append, withReturns_append, withReturns_of_notMem hcomment]
    rw [htext, withReturns_of_notMem hcomment, newlines_eq_zero hcomment, Nat.add_zero]
    rcases hrest with rfl | hhead
    · exact finds_comment_append pos line hbody (Or.inl rfl)
    · -- The comment takes up the carriage return, which would be a blank behind it.
      obtain ⟨behind, rfl⟩ := List.head?_eq_some_iff.1 hhead
      have hlonger : '\n' ∉ body ++ ['\r'] := by simpa using hbody
      have hbehind : AtLineEnd ('\n' :: withReturns behind) := Or.inr rfl
      have hfinds := finds_comment_append pos line hlonger hbehind
      rw [withReturns_newline_cons, finds_blank_cons _ _ hreturn, newlines_eq_zero (by decide)]
      simpa [Nat.add_assoc] using hfinds
  | single | alone | followed | slash | string | openString | whole | fraction | word | stray =>
    cases hfinding

end

/-- Between two characters, an offset is moved behind the carriage returns in front of it. -/
theorem offsetWithReturns_size (before rest : List Char) :
    offsetWithReturns (before ++ rest) (size before) = size (withReturns before) := by
  rw [offsetWithReturns, newlinesBefore_size, size_withReturns]

/-- Behind any text, the same is found again where carriage returns are put in front of newlines. -/
theorem finds_withReturns (before rest : List Char) (line : Nat) :
    finds (size (withReturns before)) line (withReturns rest) =
      (finds (size before) line rest).map (Placed.withReturns (before ++ rest)) := by
  induction rest using pieces.induct generalizing before line with
  | case1 => simp [finds]
  | case2 c rest ih =>
    have hfirst := FirstPiece.of c rest
    have hbehind := ih (before ++ (Cut.of c rest).text) (line + newlines (Cut.of c rest).text)
    rw [List.append_assoc, Cut.text_of_append_rest, withReturns_append, size_append,
      size_append] at hbehind
    rw [finds_of_firstPiece _ _ hfirst, List.map_append, ← hbehind]
    by_cases hfinding : (Cut.of c rest).finding = .trivia
    · rw [finds_withReturns_of_trivia _ _ hfirst hfinding, if_pos hfinding]
      rfl
    · rw [finds_withReturns_of_found _ _ hfirst hfinding, if_neg hfinding, List.map_singleton,
        Placed.withReturns, offsetWithReturns_size]
      rfl

section

variable {line : Nat} {text : List Char} {placed : Placed}

/-- The span of a placed piece is moved behind the carriage returns in front of either end. -/
theorem Placed.span_withReturns (h : placed ∈ placedPieces 0 line text) :
    (placed.withReturns text).span = placed.span.withReturns text := by
  obtain ⟨before, c, rest, rfl, rfl⟩ := exists_firstPlaced_of_mem h
  have hstart := offsetWithReturns_size before (c :: rest)
  have hstop := offsetWithReturns_size (before ++ (Cut.of c rest).text) (Cut.of c rest).rest
  rw [List.append_assoc, Cut.text_of_append_rest, size_append, withReturns_append,
    size_append] at hstop
  simp only [span, withReturns, Span.withReturns, firstPlaced, Nat.zero_add, hstart, hstop]

/-- The token of a piece that is changed is the changed token. -/
theorem Placed.token?_withReturns (h : placed ∈ placedPieces 0 line text) :
    (placed.withReturns text).token? = placed.token?.map (Token.withReturns text) := by
  have hspan := span_withReturns h
  obtain ⟨⟨lexeme, finding⟩, pos, line⟩ := placed
  cases finding <;> simp_all [token?, withReturns, Finding.withReturns, Token.withReturns]

/-- The diagnostic of a piece that is changed is the changed diagnostic. -/
theorem Placed.diagnostic?_withReturns (h : placed ∈ placedPieces 0 line text) :
    (placed.withReturns text).diagnostic? =
      placed.diagnostic?.map (Diagnostic.withReturns text) := by
  have hspan := span_withReturns h
  obtain ⟨⟨lexeme, finding⟩, pos, line⟩ := placed
  cases finding <;> simp_all [diagnostic?, withReturns, Finding.withReturns, Diagnostic.withReturns,
    newlines_withReturns]

end

/-- What is selected of a text is selected again where carriage returns are put in front of
newlines. -/
theorem filterMap_withReturns {α : Type} {select : Placed → Option α} {adapt : α → α} {line : Nat}
    {text : List Char} (htrivia : ∀ placed, placed.finding = .trivia → select placed = none)
    (hadapt : ∀ placed ∈ placedPieces 0 line text,
      select (placed.withReturns text) = (select placed).map adapt) :
    (placedPieces 0 line (withReturns text)).filterMap select =
      ((placedPieces 0 line text).filterMap select).map adapt := by
  have hfinds : finds 0 line (withReturns text) = (finds 0 line text).map (·.withReturns text) :=
    finds_withReturns [] text line
  rw [← filterMap_finds htrivia, hfinds, List.filterMap_map, ← filterMap_finds htrivia,
    List.map_filterMap]
  apply List.filterMap_congr
  intro placed hplaced
  exact hadapt placed (List.mem_of_mem_filter hplaced)

/-- Changing a text changes the places of its tokens. -/
theorem tokensFrom_withReturns (line : Nat) (text : List Char) :
    tokensFrom 0 line (withReturns text) =
      (tokensFrom 0 line text).map (Token.withReturns text) := by
  have htokens : (placedPieces 0 line (withReturns text)).filterMap Placed.token? =
      ((placedPieces 0 line text).filterMap Placed.token?).map (Token.withReturns text) :=
    filterMap_withReturns (fun placed h => by simp [Placed.token?, h])
      fun placed hplaced => Placed.token?_withReturns hplaced
  have hend := offsetWithReturns_size text []
  rw [List.append_nil] at hend
  rw [tokensFrom, tokensFrom, htokens, List.map_append, newlines_withReturns, Nat.zero_add,
    Nat.zero_add, ← hend]
  rfl

/-- Changing a text changes the places of its diagnostics. -/
theorem diagnosticsFrom_withReturns (line : Nat) (text : List Char) :
    diagnosticsFrom 0 line (withReturns text) =
      (diagnosticsFrom 0 line text).map (Diagnostic.withReturns text) :=
  filterMap_withReturns (fun placed h => by simp [Placed.diagnostic?, h])
    fun placed hplaced => Placed.diagnostic?_withReturns hplaced

/-- A text where carriage returns are put in front of newlines has the same tokens and diagnostics
on the same lines: only strings hold carriage returns, and offsets count those in front of them. -/
theorem lex_withReturns (text : String)
    (hsize : size (withReturns text.toList) ≤ maxWord)
    (hlines : newlines (withReturns text.toList) < maxWord) :
    ∃ lexing, lex text = .ok lexing ∧
      lex (String.ofList (withReturns text.toList)) =
        .ok ⟨.ofList (lexing.tokens.toList.map (Token.withReturns text.toList)),
          lexing.diagnostics.map (Diagnostic.withReturns text.toList)⟩ := by
  have hreturns : lex (String.ofList (withReturns text.toList)) = _ :=
    lex_eq_ok (by rwa [String.toList_ofList]) (by rwa [String.toList_ofList])
  rw [String.toList_ofList, tokensFrom_withReturns, diagnosticsFrom_withReturns] at hreturns
  rw [size_withReturns] at hsize
  rw [newlines_withReturns] at hlines
  exact ⟨_, lex_eq_ok (by omega) hlines, by rw [hreturns, Tokens.toList_ofList]⟩

/-- The string on two lines has one more character, and what is behind it is moved by two. -/
theorem lex_withReturns_of_two_lines :
    ∃ lexing, lex "//\n\"\n\"@" = .ok lexing ∧
      lexing.tokens.toList = [⟨.string, "\"\n\"", .text "\n", 2, ⟨3, 6⟩⟩, .endOfFile 3 7] ∧
      lexing.diagnostics = [⟨.unexpectedCharacter '@', 3, ⟨6, 7⟩⟩] ∧
      lex "//\r\n\"\r\n\"@" = .ok
        ⟨.ofList [⟨.string, "\"\r\n\"", .text "\r\n", 2, ⟨4, 8⟩⟩, .endOfFile 3 9],
          [⟨.unexpectedCharacter '@', 3, ⟨8, 9⟩⟩]⟩ := by
  have hpieces : pieces "//\n\"\n\"@".toList =
      [⟨['/', '/'], .trivia⟩, ⟨['\n'], .trivia⟩,
        ⟨['"', '\n', '"'], .token .string (.text "\n")⟩,
        ⟨['@'], .problem (.unexpectedCharacter '@')⟩] := by
    simp [pieces_cons, Cut.of, Opening.ofChar, Cut.slash, Cut.string]
  obtain ⟨lexing, hlexing, hreturns⟩ := lex_withReturns "//\n\"\n\"@" (by decide) (by decide)
  refine ⟨lexing, hlexing, ?_⟩
  rw [lex_eq_ok (by decide) (by decide), tokensFrom, diagnosticsFrom, placedPieces, hpieces]
    at hlexing
  cases hlexing
  exact ⟨rfl, rfl, hreturns⟩

end LoxScan
