import LoxScan.Lexing
import LoxScan.Proofs.Grammar
import LoxScan.Proofs.Lexing

/-!
# One set of reserved words

The look-up of a text, the table and the spelling of a kind agree on every text and every kind. The
look-up compares a text only with the words that have as many bytes, so the agreement says that no
word stands where texts of its length are not compared with it.

Words are classified by the look-up alone. A token that is a reserved word therefore has its
spelling as lexeme, and the lexeme of an identifier is found nowhere, whatever cursor and line the
scanner started from.
-/

namespace LoxScan

namespace Keyword

/-- The table has each reserved word under its spelling and nothing else. -/
theorem mem_table_iff {text : String} {keyword : Keyword} :
    (text, keyword) ∈ table ↔ text = keyword.spelling := by
  cases keyword <;> simp [table, spelling]

end Keyword

namespace Kind

/-- The table of reserved words with the kinds of their tokens. -/
def table : List (String × Kind) :=
  Keyword.table.map fun entry => (entry.1, reserved entry.2)

/-- The kind of the reserved word that a text spells. -/
def ofSpelling? (text : String) : Option Kind :=
  (Keyword.ofSpelling? text).map reserved

/-- The kinds that are spelled are the reserved words. -/
theorem spelling?_eq_some_iff {kind : Kind} {text : String} :
    kind.spelling? = some text ↔ ∃ keyword, kind = reserved keyword ∧ text = keyword.spelling := by
  cases kind with
  | reserved keyword => simp [spelling?, eq_comm]
  | _ => simp [spelling?]

/-- The table has every reserved word with its spelling, and nothing else. -/
theorem mem_table_iff {text : String} {kind : Kind} :
    (text, kind) ∈ table ↔ kind.spelling? = some text := by
  rw [spelling?_eq_some_iff]
  simp only [table, List.mem_map, Prod.exists, Prod.mk.injEq, Keyword.mem_table_iff]
  constructor
  · rintro ⟨_, keyword, rfl, rfl, rfl⟩
    exact ⟨keyword, rfl, rfl⟩
  · rintro ⟨keyword, rfl, rfl⟩
    exact ⟨_, keyword, rfl, rfl, rfl⟩

/-- The look-up finds the kinds by their spellings. -/
theorem ofSpelling?_eq_some_iff {text : String} {kind : Kind} :
    ofSpelling? text = some kind ↔ kind.spelling? = some text := by
  rw [spelling?_eq_some_iff]
  simp only [ofSpelling?, Option.map_eq_some_iff, Keyword.ofSpelling?_eq_some_iff]
  constructor
  · rintro ⟨keyword, rfl, rfl⟩
    exact ⟨keyword, rfl, rfl⟩
  · rintro ⟨keyword, rfl, rfl⟩
    exact ⟨keyword, rfl, rfl⟩

/-- A kind that a lexeme can have: a reserved word has its spelling, and no identifier is a
reserved word. -/
structure Suits (kind : Kind) (lexeme : String) : Prop where
  reserved : ∀ text, kind.spelling? = some text → lexeme = text
  identifier : kind = .identifier → ofSpelling? lexeme = none

/-- The kind of a word suits it. -/
theorem suits_ofWord (word : String) : (ofWord word).Suits word := by
  unfold ofWord
  constructor
  case reserved =>
    intro text htext
    cases hfound : Keyword.ofSpelling? word with
    | some keyword =>
      rw [hfound] at htext
      rw [Keyword.ofSpelling?_eq_some_iff.1 hfound]
      exact Option.some.inj htext
    | none =>
      rw [hfound] at htext
      cases htext
  case identifier =>
    intro hkind
    cases hfound : Keyword.ofSpelling? word with
    | some keyword =>
      rw [hfound] at hkind
      cases hkind
    | none => rw [ofSpelling?, hfound, Option.map_none]

/-- A kind that is not one of words suits every lexeme. -/
theorem suits_of_ne {kind : Kind} (hspelling : kind.spelling? = none) (hkind : kind ≠ .identifier)
    (lexeme : String) : kind.Suits lexeme := by
  constructor
  case reserved =>
    intro text htext
    rw [hspelling] at htext
    cases htext
  case identifier => exact fun h => absurd h hkind

end Kind

/-- The kinds of punctuation suit every lexeme, since no punctuation is a word. -/
theorem suits_of_mem_punctuationKinds {c : Char} {kind : Kind} (h : (c, kind) ∈ punctuationKinds)
    (lexeme : String) : kind.Suits lexeme := by
  have hall : ∀ entry ∈ punctuationKinds,
      entry.2.spelling? = none ∧ entry.2 ≠ .identifier := by
    simp [punctuationKinds, Kind.spelling?]
  obtain ⟨hspelling, hkind⟩ := hall (c, kind) h
  exact Kind.suits_of_ne hspelling hkind lexeme

/-- The kind of an operator suits every lexeme, for it is that of no word. -/
theorem suits_of_mem_operatorKinds {text : List Char} {kind : Kind}
    (h : (text, kind) ∈ operatorKinds) (lexeme : String) : kind.Suits lexeme := by
  have hall : ∀ entry ∈ operatorKinds, entry.2.spelling? = none ∧ entry.2 ≠ .identifier := by
    simp [operatorKinds, Kind.spelling?]
  obtain ⟨hspelling, hkind⟩ := hall (text, kind) h
  exact Kind.suits_of_ne hspelling hkind lexeme

/-- The kind that a reading finds suits the text that was read. -/
theorem Reading.suits_of {start after : Cursor} {first : UInt8} {line : Nat} {reading : Reading}
    {kind : Kind} {literal : Literal} {text : List Char}
    (h : Reading.of start first after line = .ok reading)
    (hfinding : reading.finding = .token kind literal)
    (htext : start.textTo reading.stop = .ok text) : kind.Suits (String.ofList text) := by
  unfold Reading.of at h
  split at h
  · next hopening =>
    cases h
    cases hfinding
    exact suits_of_mem_punctuationKinds (mem_punctuationKinds hopening) _
  · next hopening =>
    obtain ⟨halone, hfollowed⟩ := mem_operatorKinds hopening
    split at h
    · cases h
      cases hfinding
      exact suits_of_mem_operatorKinds hfollowed _
    · cases h
      cases hfinding
      exact suits_of_mem_operatorKinds halone _
  · split at h
    · cases h
      cases hfinding
    · cases h
      cases hfinding
      exact Kind.suits_of_ne rfl (by simp) _
  · cases h
    cases hfinding
  · split at h
    · cases h
      cases hfinding
    · cases h
  · unfold string at h
    split at h
    · cases h
    · cases h
      cases hfinding
    · obtain ⟨stop, -, h⟩ := bind_eq_ok_iff.1 h
      obtain ⟨content, -, h⟩ := bind_eq_ok_iff.1 h
      cases h
      cases hfinding
      exact Kind.suits_of_ne rfl (by simp) _
  · obtain ⟨stop, -, h⟩ := bind_eq_ok_iff.1 h
    obtain ⟨numeral, -, h⟩ := bind_eq_ok_iff.1 h
    split at h
    · cases h
      cases hfinding
      exact Kind.suits_of_ne rfl (by simp) _
    · cases h
  · -- A word is looked up by the text that its token gets.
    obtain ⟨word, hword, h⟩ := bind_eq_ok_iff.1 h
    cases h
    cases hfinding
    cases hword.symm.trans htext
    exact Kind.suits_ofWord _
  · obtain ⟨stop, -, h⟩ := bind_eq_ok_iff.1 h
    obtain ⟨stray, -, h⟩ := bind_eq_ok_iff.1 h
    cases h
    cases hfinding

namespace Scanner

/-- The kind of every token that is handed out suits its lexeme. -/
theorem suits_of_next {scanner behind : Scanner} {token : Token}
    (h : scanner.next = .ok (token, behind)) : token.kind.Suits token.lexeme := by
  fun_induction next scanner with
  | case1 =>
    cases h
    exact Kind.suits_of_ne rfl (by simp [Token.endOfFile]) _
  | case2 => cases h
  | case3 scanner first after hstep reading hreading kind literal hfinding found htoken =>
    cases h
    obtain ⟨span, -, htoken⟩ := bind_eq_ok_iff.1 htoken
    obtain ⟨text, htext, htoken⟩ := bind_eq_ok_iff.1 htoken
    cases htoken
    exact Reading.suits_of hreading hfinding htext
  | case4 => cases h
  | case5 scanner first after hstep reading hreading hfinding ih => exact ih h
  | case6 scanner first after hstep reading hreading problem hfinding recorded hrecord ih =>
    exact ih h
  | case7 => cases h

/-- What holds of every token that is handed out holds of all that are ahead. -/
theorem forall_mem_drainInto {scanner : Scanner} {tokens : Tokens} {lexing : Lexing}
    {property : Token → Prop}
    (hnext : ∀ scanner token behind, next scanner = .ok (token, behind) → property token)
    (htokens : ∀ token ∈ tokens.toList, property token)
    (h : scanner.drainInto tokens = .ok lexing) :
    ∀ token ∈ lexing.tokens.toList, property token := by
  have hpush {tokens : Tokens} {found : Token} (hfound : property found)
      (htokens : ∀ token ∈ tokens.toList, property token) :
      ∀ token ∈ (tokens.push found).toList, property token := by
    intro token hmem
    rw [Tokens.toList_push] at hmem
    rcases List.mem_append.1 hmem with hmem | hmem
    · exact htokens token hmem
    · rwa [List.mem_singleton.1 hmem]
  fun_induction drainInto scanner tokens with
  | case1 => cases h
  | case2 scanner tokens found behind hfound hkind =>
    cases h
    exact hpush (hnext _ _ _ hfound) htokens
  | case3 scanner tokens found behind hfound hkind ih =>
    exact ih (hpush (hnext _ _ _ hfound) htokens) h

end Scanner

/-- The kinds of the tokens of a source suit their lexemes. -/
theorem suits_of_lex {source : String} {lexing : Lexing} (h : lex source = .ok lexing) :
    ∀ token ∈ lexing.tokens.toList, token.kind.Suits token.lexeme := by
  obtain ⟨_, -, h⟩ := bind_eq_ok_iff.1 h
  refine Scanner.forall_mem_drainInto (fun _ _ _ => Scanner.suits_of_next) ?_ h
  intro token hmem
  rw [Tokens.toList_empty] at hmem
  cases hmem

/-- The look-up, the table and the spellings of kinds give the same reserved words. A text that
none of them spells is found nowhere, no two kinds have one spelling, and tokens have the spellings
of their kinds. -/
theorem reserved_words_agree :
    (∀ (text : String) (kind : Kind),
      (Kind.ofSpelling? text = some kind ↔ (text, kind) ∈ Kind.table) ∧
        ((text, kind) ∈ Kind.table ↔ kind.spelling? = some text)) ∧
    (∀ text : String, (∀ kind : Kind, kind.spelling? ≠ some text) →
      Kind.ofSpelling? text = none) ∧
    (∀ (kind other : Kind) (text : String), kind.spelling? = some text →
      other.spelling? = some text → kind = other) ∧
    (∀ (scanner behind : Scanner) (token : Token), scanner.next = .ok (token, behind) →
      token.kind.Suits token.lexeme) ∧
    (∀ (source : String) (lexing : Lexing), lex source = .ok lexing →
      ∀ token ∈ lexing.tokens.toList, token.kind.Suits token.lexeme) := by
  refine ⟨fun text kind => ⟨?_, Kind.mem_table_iff⟩, ?_, ?_, ?_, ?_⟩
  · rw [Kind.ofSpelling?_eq_some_iff, Kind.mem_table_iff]
  · intro text hnone
    rw [Option.eq_none_iff_forall_ne_some]
    intro kind hfound
    exact hnone kind (Kind.ofSpelling?_eq_some_iff.1 hfound)
  · intro kind other text hkind hother
    rw [← Kind.ofSpelling?_eq_some_iff] at hkind hother
    exact Option.some.inj (hkind.symm.trans hother)
  · exact fun _ _ _ => Scanner.suits_of_next
  · exact fun _ _ => suits_of_lex

/-- A reserved word by itself and in front of a longer word. -/
theorem reserved_words_agree_of_orchid :
    Kind.ofSpelling? "or" = some (.reserved .orWord) ∧ Kind.ofSpelling? "orchid" = none ∧
      ∃ lexing, lex "or orchid" = .ok lexing ∧
        lexing.tokens.kinds = [.reserved .orWord, .identifier, .endOfFile] ∧
        ∀ token ∈ lexing.tokens.toList, token.kind.Suits token.lexeme := by
  obtain ⟨hsame, hnone, -, -, hsuits⟩ := reserved_words_agree
  have hpieces : pieces "or orchid".toList =
      [⟨"or".toList, .token (.ofWord "or") .none⟩, ⟨[' '], .trivia⟩,
        ⟨"orchid".toList, .token (.ofWord "orchid") .none⟩] := by
    simp [pieces_cons, Cut.of, Opening.ofChar, Cut.word, isWordChar, Char.isAlphanum]
  have hlex : lex "or orchid" = .ok (.of "or orchid".toList) := lex_eq_ok (by decide) (by decide)
  refine ⟨?_, ?_, _, hlex, ?_, hsuits _ _ hlex⟩
  · rw [(hsame "or" (.reserved .orWord)).1, (hsame "or" (.reserved .orWord)).2]
    rfl
  · apply hnone
    intro kind hkind
    obtain ⟨keyword, -, hspelling⟩ := Kind.spelling?_eq_some_iff.1 hkind
    cases keyword <;> simp [Keyword.spelling] at hspelling
  · rw [Lexing.of, Tokens.kinds, Tokens.toList_ofList, tokensFrom, placedPieces, hpieces]
    rfl

end LoxScan
