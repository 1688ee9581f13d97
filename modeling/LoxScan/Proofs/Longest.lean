import LoxScan.Proofs.Grammar
import LoxScan.Proofs.Lexing

/-!
# Longest lexemes

Every token is the longest text of any class that can be read where it begins, and has the kind
of that class. Where a diagnostic begins, nothing of any class can be read.
-/

namespace LoxScan

/-- A lexeme of a kind is the longest front of a text that belongs to a class. -/
structure LongestLexeme (text lexeme : List Char) (kind : Kind) : Prop where
  front : lexeme <+: text
  belongs : Belongs lexeme (some kind)
  unique : ∀ other, Belongs lexeme other → other = some kind
  longest : ∀ front other, front <+: text → Belongs front other → front.length ≤ lexeme.length

/-- No front of a text belongs to a class. -/
def NoLexeme (text : List Char) : Prop :=
  ∀ front other, front <+: text → ¬ Belongs front other

section

variable {c : Char} {text : List Char} {cut : Cut}

/-- A front of a text that belongs to a class fits the opening of the first character. -/
theorem Belongs.fits_of_prefix {front : List Char} {kind : Option Kind} (h : Belongs front kind)
    (hfront : front <+: c :: text) : ∃ tail, front = c :: tail ∧ tail <+: text ∧
      (Opening.ofChar c).Fits c tail kind := by
  obtain ⟨d, tail, rfl, hfits⟩ := h.fits
  obtain ⟨rfl, htail⟩ := List.cons_prefix_cons.1 hfront
  exact ⟨tail, rfl, htail, hfits⟩

/-- What an opening begins is a longest lexeme if nothing longer fits the opening. -/
theorem LongestLexeme.of_fits {opening : Opening} {tail : List Char} {kind : Kind}
    (hopening : Opening.ofChar c = opening) (hfront : tail <+: text)
    (hfits : opening.Fits c tail (some kind))
    (hlongest : ∀ front other, front <+: text → opening.Fits c front other →
      front.length ≤ tail.length) :
    LongestLexeme (c :: text) (c :: tail) kind := by
  subst hopening
  constructor
  case front => exact List.cons_prefix_cons.2 ⟨rfl, hfront⟩
  case belongs => exact belongs_iff.2 hfits
  case unique =>
    intro other hother
    exact (belongs_iff.1 hother).unique hfits
  case longest =>
    intro front other hahead hbelongs
    obtain ⟨rest, rfl, hrest, hfits⟩ := hbelongs.fits_of_prefix hahead
    simpa using hlongest rest other hrest hfits

/-- Word characters are read as far as they go. -/
theorem length_le_of_word {tail rest front : List Char} (hrest : NoWordChar rest)
    (hfront : ∀ d ∈ front, isWordChar d = true) (hahead : front <+: tail ++ rest) :
    front.length ≤ tail.length :=
  length_le_of_any hfront hrest hahead

/-- A string ends at the first quote. -/
theorem length_le_of_string {content rest front : List Char} (hfront : '"' ∉ front)
    (hahead : front <+: content ++ '"' :: rest) : front.length ≤ content.length := by
  have htest : ∀ d ∈ front, (d != '"') = true := by
    intro d hd
    simpa using ne_of_mem_of_not_mem hd hfront
  exact length_le_of_any htest (by simp) hahead

/-- A numeral without a fraction is read as far as it goes. -/
theorem length_le_of_whole {digits rest front : List Char} (hdigits : Digits digits)
    (hrest : NoFraction rest) (hfront : Numeral front) (hahead : front <+: digits ++ rest) :
    front.length ≤ digits.length := by
  cases hfront with
  | whole hwhole => exact length_le_of_any hwhole.isDigit hrest.1 hahead
  | @fraction whole part hwhole hpart =>
    obtain ⟨behind, hsplit⟩ := hahead
    have hpoint : NoDigit ('.' :: (part ++ behind)) := rfl
    rw [List.append_assoc, List.cons_append] at hsplit
    obtain ⟨-, hfraction⟩ :=
      append_inj_of_any hwhole.isDigit hdigits.isDigit hpoint hrest.1 hsplit
    exact absurd (hrest.2 _ hfraction.symm) (hpart.not_noDigit_append behind)

/-- A numeral with a fraction is read as far as the digits of the fraction go. -/
theorem length_le_of_fraction {digits part rest front : List Char} (hdigits : Digits digits)
    (hrest : NoDigit rest) (hfront : Numeral front)
    (hahead : front <+: digits ++ '.' :: (part ++ rest)) :
    front.length ≤ digits.length + part.length + 1 := by
  have hpoint : NoDigit ('.' :: (part ++ rest)) := rfl
  cases hfront with
  | whole hwhole =>
    have hle := length_le_of_any hwhole.isDigit hpoint hahead
    omega
  | @fraction whole other hwhole hother =>
    obtain ⟨behind, hsplit⟩ := hahead
    have hpoint' : NoDigit ('.' :: (other ++ behind)) := rfl
    rw [List.append_assoc, List.cons_append] at hsplit
    obtain ⟨rfl, hparts⟩ :=
      append_inj_of_any hwhole.isDigit hdigits.isDigit hpoint' hpoint hsplit
    have hle := length_le_of_any hother.isDigit hrest ⟨behind, List.cons_injective hparts⟩
    simp only [List.length_append, List.length_cons]
    omega

/-- A first piece with a kind is the longest lexeme of that kind. -/
theorem LongestLexeme.of_firstPiece {kind : Kind} {literal : Literal}
    (h : FirstPiece c text cut) (hfinding : cut.finding = .token kind literal) :
    LongestLexeme (c :: text) cut.text kind := by
  cases h with
  | single hopening =>
    cases hfinding
    apply of_fits hopening List.nil_prefix ⟨rfl, rfl⟩
    intro front other hahead hfits
    simp [hfits.1]
  | alone hopening hrest =>
    cases hfinding
    apply of_fits hopening List.nil_prefix (Or.inl ⟨rfl, rfl⟩)
    intro front other hahead hfits
    rcases hfits with ⟨rfl, -⟩ | ⟨rfl, -⟩
    · simp
    · obtain ⟨behind, rfl⟩ := hahead
      simp at hrest
  | followed hopening =>
    cases hfinding
    apply of_fits hopening (List.prefix_append ['='] _) (Or.inr ⟨rfl, rfl⟩)
    intro front other hahead hfits
    rcases hfits with ⟨rfl, -⟩ | ⟨rfl, -⟩
    · simp
    · simp
  | slash hrest =>
    cases hfinding
    have hopening : Opening.ofChar '/' = .slash := rfl
    apply of_fits hopening List.nil_prefix (Or.inl ⟨rfl, rfl⟩)
    intro front other hahead hfits
    rcases hfits with ⟨rfl, -⟩ | ⟨body, rfl, -, -⟩
    · simp
    · obtain ⟨behind, rfl⟩ := hahead
      simp at hrest
  | @string content rest hcontent =>
    cases hfinding
    have hopening : Opening.ofChar '"' = .quote := rfl
    apply of_fits hopening (by simp) ⟨content, rfl, hcontent, rfl⟩
    intro front other hahead hfits
    obtain ⟨found, rfl, hfound, -⟩ := hfits
    have hle := length_le_of_string hfound ((List.prefix_append found ['"']).trans hahead)
    simpa using hle
  | @whole _ digits rest hdigits hrest =>
    cases hfinding
    have hopening := Opening.ofChar_eq_digit_iff.2 (hdigits.isDigit c List.mem_cons_self)
    apply of_fits hopening (List.prefix_append digits rest) ⟨.whole hdigits, rfl⟩
    intro front other hahead hfits
    have hle := length_le_of_whole hdigits hrest hfits.1 (List.cons_prefix_cons.2 ⟨rfl, hahead⟩)
    simpa using hle
  | @fraction _ digits part rest hdigits hpart hrest =>
    cases hfinding
    have hopening := Opening.ofChar_eq_digit_iff.2 (hdigits.isDigit c List.mem_cons_self)
    have hnumeral : Numeral (c :: (digits ++ '.' :: part)) := .fraction hdigits hpart
    apply of_fits hopening (List.prefix_append _ rest) ⟨hnumeral, rfl⟩
    intro front other hahead hfits
    rw [List.append_assoc, List.cons_append] at hahead
    have hle := length_le_of_fraction hdigits hrest hfits.1
      (List.cons_prefix_cons.2 ⟨rfl, hahead⟩)
    simp only [List.length_cons, List.length_append] at hle ⊢
    omega
  | @word _ tail rest hopening htail hrest =>
    cases hfinding
    apply of_fits hopening (List.prefix_append tail rest) ⟨htail, rfl⟩
    intro front other hahead hfits
    exact length_le_of_word hrest hfits.1 hahead
  | comment | blank | openString | stray => cases hfinding

/-- A first piece that is a problem stands where nothing of any class does. -/
theorem NoLexeme.of_firstPiece {problem : Problem} (h : FirstPiece c text cut)
    (hfinding : cut.finding = .problem problem) : NoLexeme (c :: text) ∧
      problem = if c = '"' then .unterminatedString else .unexpectedCharacter c := by
  cases h with
  | openString hcontent =>
    cases hfinding
    refine ⟨fun front other hahead hbelongs => ?_, rfl⟩
    obtain ⟨tail, rfl, htail, content, rfl, -, -⟩ := hbelongs.fits_of_prefix hahead
    exact hcontent (htail.subset (by simp))
  | stray hopening =>
    cases hfinding
    have hc : c ≠ '"' := by
      rintro rfl
      cases hopening
    refine ⟨fun front other hahead hbelongs => ?_, (if_neg hc).symm⟩
    obtain ⟨tail, rfl, htail, hfits⟩ := hbelongs.fits_of_prefix hahead
    rw [hopening] at hfits
    exact hfits
  | _ => cases hfinding

end

/-- A token begins where its lexeme is the longest one. -/
theorem longestLexeme_of_mem_tokensFrom {text : List Char} {token : Token}
    (h : token ∈ tokensFrom 0 1 text) (hkind : token.kind ≠ .endOfFile) :
    ∃ rest, Text.dropBytes? token.span.start text = some rest ∧
      LongestLexeme rest token.lexeme.toList token.kind := by
  rcases List.mem_append.1 h with h | h
  · obtain ⟨before, c, rest, kind, literal, rfl, hfinding, rfl⟩ := exists_of_mem_tokens h
    refine ⟨c :: rest, by simp, ?_⟩
    rw [String.toList_ofList]
    exact .of_firstPiece (.of c rest) hfinding
  · obtain rfl := List.mem_singleton.1 h
    exact absurd rfl hkind

/-- A diagnostic begins where there is no lexeme, and says what is there instead. -/
theorem noLexeme_of_mem_diagnosticsFrom {text : List Char} {diagnostic : Diagnostic}
    (h : diagnostic ∈ diagnosticsFrom 0 1 text) :
    ∃ c rest, Text.dropBytes? diagnostic.span.start text = some (c :: rest) ∧
      NoLexeme (c :: rest) ∧
      diagnostic.problem = if c = '"' then .unterminatedString else .unexpectedCharacter c := by
  obtain ⟨before, c, rest, problem, rfl, hfinding, rfl⟩ := exists_of_mem_diagnosticsFrom h
  exact ⟨c, rest, by simp, NoLexeme.of_firstPiece (.of c rest) hfinding⟩

/-- Tokens are longest lexemes, and diagnostics stand where there is no lexeme. -/
theorem lex_longest (text : String) (hsize : Utf8.size text.toList ≤ maxWord)
    (hlines : newlines text.toList < maxWord) :
    ∃ lexing, lex text = .ok lexing ∧
      (∀ token ∈ lexing.tokens.toList, token.kind ≠ .endOfFile →
        ∃ rest, Text.dropBytes? token.span.start text.toList = some rest ∧
          LongestLexeme rest token.lexeme.toList token.kind) ∧
      (∀ diagnostic ∈ lexing.diagnostics,
        ∃ c rest, Text.dropBytes? diagnostic.span.start text.toList = some (c :: rest) ∧
          NoLexeme (c :: rest) ∧ diagnostic.problem =
            if c = '"' then .unterminatedString else .unexpectedCharacter c) := by
  refine ⟨_, lex_eq_ok hsize hlines, ?_, ?_⟩
  · intro token hmem hkind
    rw [Tokens.toList_ofList] at hmem
    exact longestLexeme_of_mem_tokensFrom hmem hkind
  · intro diagnostic hmem
    exact noLexeme_of_mem_diagnosticsFrom hmem

/-- Of two equal signs behind a bang the first belongs to it. Nothing begins at a stray character or
at the quote of a string that is left open. -/
theorem lex_longest_of_operators :
    ∃ lexing, lex "!==@\"" = .ok lexing ∧
      lexing.tokens.kinds = [.bangEqual, .equal, .endOfFile] ∧
      lexing.diagnostics =
        [⟨.unexpectedCharacter '@', 1, ⟨3, 4⟩⟩, ⟨.unterminatedString, 1, ⟨4, 5⟩⟩] ∧
      (∀ token ∈ lexing.tokens.toList, token.kind ≠ .endOfFile →
        ∃ rest, Text.dropBytes? token.span.start "!==@\"".toList = some rest ∧
          LongestLexeme rest token.lexeme.toList token.kind) ∧
      (∀ diagnostic ∈ lexing.diagnostics,
        ∃ c rest, Text.dropBytes? diagnostic.span.start "!==@\"".toList = some (c :: rest) ∧
          NoLexeme (c :: rest) ∧ diagnostic.problem =
            if c = '"' then .unterminatedString else .unexpectedCharacter c) := by
  have hpieces : pieces "!==@\"".toList =
      [⟨['!', '='], .token .bangEqual .none⟩, ⟨['='], .token .equal .none⟩,
        ⟨['@'], .problem (.unexpectedCharacter '@')⟩, ⟨['"'], .problem .unterminatedString⟩] := by
    simp [pieces_cons, Cut.of, Opening.ofChar, Cut.withEqual, Cut.string]
  obtain ⟨lexing, hlexing, htokens, hdiagnostics⟩ := lex_longest "!==@\"" (by decide) (by decide)
  have hof := hlexing
  rw [lex_eq_ok (by decide) (by decide)] at hof
  cases hof
  refine ⟨_, hlexing, ?_, ?_, htokens, hdiagnostics⟩
  · rw [Tokens.kinds, Tokens.toList_ofList, tokensFrom, placedPieces, hpieces]
    decide
  · rw [diagnosticsFrom, placedPieces, hpieces]
    decide

end LoxScan
