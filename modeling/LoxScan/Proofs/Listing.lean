import LoxScan.Proofs.Delivery
import LoxScan.Proofs.Spacing

/-!
# What a listing tells

The listing of the tokens of a source can be read in one way only, whatever text its strings hold:
a string may look like further lines of the listing, but its quotes show where it ends. Other
lexemes end at the first space. Places are not listed, so tokens that are listed alike may stand in
different places.
-/

namespace LoxScan

open Utf8

namespace Kind

/-- Every kind. -/
def all : List Kind :=
  [leftParen, rightParen, leftBrace, rightBrace, comma, dot, minus, plus, semicolon, slash, star,
    bang, bangEqual, equal, equalEqual, greater, greaterEqual, less, lessEqual, identifier, string,
    number, endOfFile] ++ Keyword.table.map fun entry => reserved entry.2

/-- No kind is missing. -/
theorem mem_all (kind : Kind) : kind ∈ all := by
  cases kind with
  | reserved word => cases word <;> decide
  | _ => decide

/-- No two kinds have one name. -/
theorem name_injective : Function.Injective name := by
  have hnodup : (all.map name).Nodup := by decide
  intro left right h
  exact List.inj_on_of_nodup_map hnodup left.mem_all right.mem_all h

/-- The name of a kind is one word. -/
theorem space_notMem_name (kind : Kind) : ' ' ∉ kind.name.toList := by
  have hall : ∀ kind ∈ all, ' ' ∉ kind.name.toList := by decide
  exact hall kind kind.mem_all

end Kind

/-- The lexemes of a kind and their values. A value is told from the kind and the lexeme, and only
the lexeme of a string may have a space. -/
inductive Valued : Kind → List Char → Literal → Prop where
  | string {content : List Char} : '"' ∉ content →
      Valued .string ('"' :: content ++ ['"']) (.text (String.ofList content))
  | number {numeral : List Char} :
      Numeral numeral → Valued .number numeral (Cut.numeralValue numeral)
  | plain {kind : Kind} {text : List Char} : kind.hasLiteral = false → ' ' ∉ text →
      Valued kind text .none

/-- The value is the only one. -/
theorem Valued.unique {kind : Kind} {text : List Char} {left right : Literal}
    (hleft : Valued kind text left) (hright : Valued kind text right) : left = right := by
  cases hleft with
  | @string content =>
    generalize htext : '"' :: content ++ ['"'] = text at hright
    cases hright with
    | string =>
      obtain rfl : content = _ := by simpa using htext
      rfl
    | plain hkind => cases hkind
  | number =>
    cases hright with
    | number => rfl
    | plain hkind => cases hkind
  | plain hkind =>
    cases hright with
    | string | number => cases hkind
    | plain => rfl

/-- Only strings may have spaces. -/
theorem Valued.space_notMem {kind : Kind} {text : List Char} {literal : Literal}
    (h : Valued kind text literal) (hkind : kind ≠ .string) : ' ' ∉ text := by
  cases h with
  | string => exact absurd rfl hkind
  | number hnumeral =>
    intro hmem
    rcases hnumeral.mem hmem with hdigit | hpoint
    · cases hdigit
    · cases hpoint
  | plain _ htext => exact htext

/-- Only openings of their own stand for kinds that have values. -/
theorem Opening.hasLiteral_of_ofChar {c : Char} {kind : Kind}
    (h : Opening.ofChar c = .single kind) : kind.hasLiteral = false := by
  unfold ofChar at h
  split at h <;> grind [Kind.hasLiteral]

/-- Operators carry no value. -/
theorem Opening.hasLiteral_of_ofChar_withEqual {c : Char} {alone followed : Kind}
    (h : Opening.ofChar c = .withEqual alone followed) :
    alone.hasLiteral = false ∧ followed.hasLiteral = false := by
  unfold ofChar at h
  split at h <;> grind [Kind.hasLiteral]

/-- What is read as a token has the value of its lexeme. -/
theorem FirstPiece.valued {c : Char} {text : List Char} {cut : Cut} {kind : Kind}
    {literal : Literal} (h : FirstPiece c text cut) (hfinding : cut.finding = .token kind literal) :
    Valued kind cut.text literal := by
  have hspace (hopening : Opening.ofChar c ≠ .blank) : c ≠ ' ' := by
    rintro rfl
    exact hopening rfl
  cases h with
  | single hopening =>
    cases hfinding
    exact .plain (Opening.hasLiteral_of_ofChar hopening)
      (by simpa using (hspace (by simp [hopening])).symm)
  | alone hopening =>
    cases hfinding
    exact .plain (Opening.hasLiteral_of_ofChar_withEqual hopening).1
      (by simpa using (hspace (by simp [hopening])).symm)
  | followed hopening =>
    cases hfinding
    exact .plain (Opening.hasLiteral_of_ofChar_withEqual hopening).2
      (by simpa using (hspace (by simp [hopening])).symm)
  | slash =>
    cases hfinding
    exact .plain rfl (by simp)
  | string hcontent =>
    cases hfinding
    exact .string hcontent
  | whole hdigits =>
    cases hfinding
    exact .number (.whole hdigits)
  | fraction hdigits hpart =>
    cases hfinding
    exact .number (.fraction hdigits hpart)
  | @word _ tail _ hopening htail =>
    cases hfinding
    refine .plain ?_ fun hmem => ?_
    · unfold Kind.ofWord
      split <;> rfl
    · rcases List.mem_cons.1 hmem with hc | hmem
      · exact hspace (by simp [hopening]) hc.symm
      · cases htail ' ' hmem
  | comment | blank | openString | stray => cases hfinding

/-- Tokens of a text have the values of their lexemes. -/
theorem valued_of_mem_tokensFrom {pos line : Nat} {text : List Char} {token : Token}
    (h : token ∈ tokensFrom pos line text) :
    Valued token.kind token.lexeme.toList token.literal := by
  rcases List.mem_append.1 h with h | h
  · obtain ⟨before, c, rest, kind, literal, -, hfinding, rfl⟩ := exists_of_mem_tokens h
    rw [String.toList_ofList]
    exact (FirstPiece.of c rest).valued hfinding
  · obtain rfl := List.mem_singleton.1 h
    exact .plain rfl (by simp [Token.endOfFile])

namespace Token

/-- The characters of the line on which a token is listed. -/
def row (token : Token) : List Char :=
  token.kind.name.toList ++
    ' ' :: (token.lexeme.toList ++ ' ' :: (token.literal.toText.toList ++ ['\n']))

/-- A token is listed on the bytes of its row. -/
theorem listed_eq_encode_row (token : Token) : token.listed = encode token.row := by
  simp [listed_eq, toText, row]

section

variable {left right : Token} {rest more : List Char}

/-- A row goes on behind its first word, which is the kind. -/
theorem kind_eq_of_row_append (h : left.row ++ rest = right.row ++ more) :
    left.kind = right.kind ∧
      left.lexeme.toList ++ ' ' :: (left.literal.toText.toList ++ '\n' :: rest) =
        right.lexeme.toList ++ ' ' :: (right.literal.toText.toList ++ '\n' :: more) := by
  simp only [row, List.append_assoc, List.cons_append, List.nil_append] at h
  have hword (kind : Kind) : ∀ c ∈ kind.name.toList, (c != ' ') = true := by
    intro c hc
    simpa using ne_of_mem_of_not_mem hc kind.space_notMem_name
  obtain ⟨hname, htail⟩ := append_inj_of_any (hword _) (hword _) (by simp) (by simp) h
  exact ⟨Kind.name_injective (String.toList_inj.1 hname), List.cons_injective htail⟩

/-- The quotes of a string show where it ends, whatever follows; any other lexeme ends at the first
space. -/
theorem lexeme_eq_of_append {kind : Kind} {lexeme other : List Char} {value found : Literal}
    (hlexeme : Valued kind lexeme value) (hother : Valued kind other found)
    (h : lexeme ++ ' ' :: rest = other ++ ' ' :: more) : lexeme = other ∧ rest = more := by
  by_cases hkind : kind = .string
  · subst hkind
    cases hlexeme with
    | plain hnone => cases hnone
    | string hcontent =>
      cases hother with
      | plain hnone => cases hnone
      | string hmore =>
        simp only [List.cons_append, List.append_assoc, List.nil_append, List.cons.injEq,
          true_and] at h
        have hquote {content : List Char} (hcontent : '"' ∉ content) :
            ∀ c ∈ content, (c != '"') = true := by
          intro c hc
          simpa using ne_of_mem_of_not_mem hc hcontent
        obtain ⟨rfl, hbehind⟩ :=
          append_inj_of_any (hquote hcontent) (hquote hmore) (by simp) (by simp) h
        exact ⟨rfl, by simpa using hbehind⟩
  · have hspace {text : List Char} {literal : Literal} (htext : Valued kind text literal) :
        ∀ c ∈ text, (c != ' ') = true := by
      intro c hc
      simpa using ne_of_mem_of_not_mem hc (htext.space_notMem hkind)
    obtain ⟨rfl, hbehind⟩ :=
      append_inj_of_any (hspace hlexeme) (hspace hother) (by simp) (by simp) h
    exact ⟨rfl, List.cons_injective hbehind⟩

/-- A row ends in one place only and tells what its token is. -/
theorem content_eq_of_row_append
    (hleft : Valued left.kind left.lexeme.toList left.literal)
    (hright : Valued right.kind right.lexeme.toList right.literal)
    (h : left.row ++ rest = right.row ++ more) : left.content = right.content ∧ rest = more := by
  obtain ⟨hkind, hbehind⟩ := kind_eq_of_row_append h
  rw [← hkind] at hright
  obtain ⟨hlexeme, hvalue⟩ := lexeme_eq_of_append hleft hright hbehind
  rw [← hlexeme] at hright
  have hliteral := hleft.unique hright
  rw [hliteral] at hvalue
  refine ⟨?_, by simpa using hvalue⟩
  rw [content, content, hkind, String.toList_inj.1 hlexeme, hliteral]

/-- Rows of tokens of the same contents are the same. -/
theorem row_eq_of_content (h : left.content = right.content) : left.row = right.row := by
  obtain ⟨hkind, hlexeme, hliteral⟩ : left.kind = right.kind ∧ left.lexeme = right.lexeme ∧
      left.literal = right.literal := by simpa [content] using h
  rw [row, row, hkind, hlexeme, hliteral]

end

/-- Rows one after the other tell what their tokens are. -/
theorem flatMap_row_eq_iff {left right : List Token}
    (hleft : ∀ token ∈ left, Valued token.kind token.lexeme.toList token.literal)
    (hright : ∀ token ∈ right, Valued token.kind token.lexeme.toList token.literal) :
    left.flatMap row = right.flatMap row ↔ left.map content = right.map content := by
  induction left generalizing right with
  | nil =>
    cases right with
    | nil => simp
    | cons token right => simp [row]
  | cons token left ih =>
    cases right with
    | nil => simp [row]
    | cons other right =>
      obtain ⟨htoken, hleft⟩ := List.forall_mem_cons.1 hleft
      obtain ⟨hother, hright⟩ := List.forall_mem_cons.1 hright
      rw [List.flatMap_cons, List.flatMap_cons, List.map_cons, List.map_cons, List.cons.injEq,
        ← ih hleft hright]
      constructor
      · exact content_eq_of_row_append htoken hother
      · rintro ⟨hcontent, hrows⟩
        rw [row_eq_of_content hcontent, hrows]

end Token

/-- Two sources are listed alike exactly if they have the same tokens up to their places: equally
many, of the same kinds, lexemes and values. -/
theorem scan_out_eq_iff (left right : String)
    (hleftSize : size left.toList ≤ maxWord) (hleftLines : newlines left.toList < maxWord)
    (hrightSize : size right.toList ≤ maxWord) (hrightLines : newlines right.toList < maxWord) :
    ∃ first second, lex left = .ok first ∧ lex right = .ok second ∧
      ((Session.scan left).ending {}).result = .ok first.outcome ∧
      ((Session.scan right).ending {}).result = .ok second.outcome ∧
      (((Session.scan left).ending {}).out = ((Session.scan right).ending {}).out ↔
        first.tokens.toList.map Token.content = second.tokens.toList.map Token.content) := by
  have hleft := lex_eq_ok hleftSize hleftLines
  have hright := lex_eq_ok hrightSize hrightLines
  refine ⟨_, _, hleft, hright, ?_⟩
  rw [Session.ending_scan_unlimited hleft, Session.ending_scan_unlimited hright]
  refine ⟨rfl, rfl, ?_⟩
  have hlisting (tokens : List Token) :
      tokens.flatMap Token.listed = encode (tokens.flatMap Token.row) := by
    rw [encode, List.flatMap_assoc]
    exact List.flatMap_congr fun token _ => token.listed_eq_encode_row
  simp only [Lexing.listing, hlisting, Tokens.toList_ofList, encode_injective.eq_iff]
  exact Token.flatMap_row_eq_iff (fun token => valued_of_mem_tokensFrom)
    (fun token => valued_of_mem_tokensFrom)

/-- A string that looks like a line of a listing, in two places. -/
theorem scan_out_eq_of_string_like_row :
    ∃ first second, lex "\"\nDOT . \"." = .ok first ∧ lex "@\"\nDOT . \"\n.//" = .ok second ∧
      first.tokens.kinds = [.string, .dot, .endOfFile] ∧
      first.diagnostics ≠ second.diagnostics ∧
      ((Session.scan "\"\nDOT . \".").ending {}).out =
        ((Session.scan "@\"\nDOT . \"\n.//").ending {}).out := by
  have hfirst : pieces "\"\nDOT . \".".toList =
      [⟨"\"\nDOT . \"".toList, .token .string (.text "\nDOT . ")⟩, ⟨['.'], .token .dot .none⟩] := by
    simp [pieces_cons, Cut.of, Opening.ofChar, Cut.string]
  have hsecond : pieces "@\"\nDOT . \"\n.//".toList =
      [⟨['@'], .problem (.unexpectedCharacter '@')⟩,
        ⟨"\"\nDOT . \"".toList, .token .string (.text "\nDOT . ")⟩, ⟨['\n'], .trivia⟩,
        ⟨['.'], .token .dot .none⟩, ⟨['/', '/'], .trivia⟩] := by
    simp [pieces_cons, Cut.of, Opening.ofChar, Cut.string, Cut.slash]
  obtain ⟨first, second, hlexing, hother, -, -, hout⟩ :=
    scan_out_eq_iff "\"\nDOT . \"." "@\"\nDOT . \"\n.//" (by decide) (by decide) (by decide)
      (by decide)
  refine ⟨first, second, hlexing, hother, ?_⟩
  rw [hout]
  rw [lex_eq_ok (by decide) (by decide), tokensFrom, diagnosticsFrom, placedPieces, hfirst]
    at hlexing
  rw [lex_eq_ok (by decide) (by decide), tokensFrom, diagnosticsFrom, placedPieces, hsecond]
    at hother
  cases hlexing
  cases hother
  exact ⟨rfl, by decide, rfl⟩

end LoxScan
