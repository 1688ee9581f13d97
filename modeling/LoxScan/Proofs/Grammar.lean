import LoxScan.Proofs.FirstPiece

/-!
# Classes of lexemes

The grammar of lexemes, class by class, without any order between the classes: which texts belong
to a class, and which kind their tokens have. Texts that are passed over belong to classes without
a kind. The first character of a text decides which classes it can belong to.
-/

namespace LoxScan

/-- The characters that are lexemes by themselves. -/
def punctuationKinds : List (Char × Kind) :=
  [('(', .leftParen), (')', .rightParen), ('{', .leftBrace), ('}', .rightBrace), (',', .comma),
    ('.', .dot), ('-', .minus), ('+', .plus), (';', .semicolon), ('*', .star), ('/', .slash)]

/-- The lexemes that compare, assign or negate. -/
def operatorKinds : List (List Char × Kind) :=
  [(['!'], .bang), (['!', '='], .bangEqual), (['='], .equal), (['=', '='], .equalEqual),
    (['<'], .less), (['<', '='], .lessEqual), (['>'], .greater), (['>', '='], .greaterEqual)]

/-- A letter or an underscore with letters, underscores and digits behind it. -/
inductive Word : List Char → Prop
  | mk {c : Char} {tail : List Char} : c.isAlpha = true ∨ c = '_' →
    (∀ d ∈ tail, d.isAlpha = true ∨ d.isDigit = true ∨ d = '_') → Word (c :: tail)

/-- The texts of each class, with the kind of their tokens. -/
inductive Belongs : List Char → Option Kind → Prop
  | punctuation {c : Char} {kind : Kind} : (c, kind) ∈ punctuationKinds → Belongs [c] (some kind)
  | operator {text : List Char} {kind : Kind} : (text, kind) ∈ operatorKinds →
    Belongs text (some kind)
  | string {content : List Char} : '"' ∉ content →
    Belongs ('"' :: content ++ ['"']) (some .string)
  | number {text : List Char} : Numeral text → Belongs text (some .number)
  | reserved (keyword : Keyword) : Belongs keyword.spelling.toList (some (.reserved keyword))
  | identifier {text : List Char} : Word text →
    (∀ keyword : Keyword, text ≠ keyword.spelling.toList) → Belongs text (some .identifier)
  | blank {c : Char} : IsBlank c → Belongs [c] none
  | comment {body : List Char} : '\n' ∉ body → Belongs ('/' :: '/' :: body) none

namespace Keyword

/-- The look-up finds a reserved word exactly by its spelling. -/
theorem ofSpelling?_eq_some_iff {text : String} {keyword : Keyword} :
    ofSpelling? text = some keyword ↔ text = keyword.spelling := by
  constructor
  · intro h
    unfold ofSpelling? at h
    split at h
    all_goals
      first
      | cases h
      | split at h <;> first
        | cases h; done
        | obtain rfl := Option.some.inj h
          rfl
  · rintro rfl
    cases keyword <;> rfl

/-- The look-up finds nothing in a text that no reserved word is spelled by. -/
theorem ofSpelling?_eq_none_iff {text : String} :
    ofSpelling? text = none ↔ ∀ keyword : Keyword, text ≠ keyword.spelling := by
  simp [Option.eq_none_iff_forall_ne_some, ofSpelling?_eq_some_iff]

/-- Reserved words are words, of letters only. -/
theorem word_spelling (keyword : Keyword) : Word keyword.spelling.toList := by
  have hletters : keyword.spelling.toList.all Char.isAlpha = true := by cases keyword <;> decide
  have hne : keyword.spelling.toList ≠ [] := by cases keyword <;> decide
  obtain ⟨c, tail, hspelling⟩ := List.exists_cons_of_ne_nil hne
  rw [hspelling, List.all_eq_true] at hletters
  rw [hspelling]
  exact .mk (Or.inl (hletters c List.mem_cons_self))
    fun d hd => Or.inl (hletters d (List.mem_cons_of_mem c hd))

end Keyword

/-- The kind of a word is its own reserved word's, or that of identifiers. -/
theorem belongs_word {text : List Char} (h : Word text) :
    Belongs text (some (.ofWord (String.ofList text))) := by
  unfold Kind.ofWord
  cases hkeyword : Keyword.ofSpelling? (String.ofList text) with
  | some keyword =>
    have hspelling := congrArg String.toList (Keyword.ofSpelling?_eq_some_iff.1 hkeyword)
    rw [String.toList_ofList] at hspelling
    rw [hspelling]
    exact .reserved keyword
  | none =>
    refine .identifier h fun keyword htext => ?_
    refine Keyword.ofSpelling?_eq_none_iff.1 hkeyword keyword ?_
    rw [htext, String.ofList_toList]

/-- The texts that an opening begins, with the kind of their tokens. -/
def Opening.Fits (c : Char) (tail : List Char) (kind : Option Kind) : Opening → Prop
  | single alone => tail = [] ∧ kind = some alone
  | withEqual alone followed =>
    tail = [] ∧ kind = some alone ∨ tail = ['='] ∧ kind = some followed
  | slash =>
    tail = [] ∧ kind = some .slash ∨ ∃ body, tail = '/' :: body ∧ '\n' ∉ body ∧ kind = none
  | blank | newline => tail = [] ∧ kind = none
  | quote => ∃ content, tail = content ++ ['"'] ∧ '"' ∉ content ∧ kind = some .string
  | digit => Numeral (c :: tail) ∧ kind = some .number
  | letter =>
    (∀ d ∈ tail, isWordChar d = true) ∧ kind = some (.ofWord (String.ofList (c :: tail)))
  | stray => False

section

variable {c : Char} {tail : List Char} {kind : Option Kind}

/-- A punctuation character is a token alone. -/
theorem fits_punctuation {kind : Kind} (h : (c, kind) ∈ punctuationKinds) :
    (Opening.ofChar c).Fits c [] (some kind) := by
  have hall : ∀ entry ∈ punctuationKinds,
      (Opening.ofChar entry.1).Fits entry.1 [] (some entry.2) := by
    simp [punctuationKinds, Opening.ofChar, Opening.Fits]
  exact hall (c, kind) h

/-- An operator fits the opening of its first character. -/
theorem fits_operator {text : List Char} {kind : Kind} (h : (text, kind) ∈ operatorKinds) :
    ∃ c tail, text = c :: tail ∧ (Opening.ofChar c).Fits c tail (some kind) := by
  have hall : ∀ entry ∈ operatorKinds, ∃ c tail, entry.1 = c :: tail ∧
      (Opening.ofChar c).Fits c tail (some entry.2) := by
    simp [operatorKinds, Opening.ofChar, Opening.Fits]
  exact hall (text, kind) h

/-- A word fits the opening of its first letter. -/
theorem fits_word {text : List Char} (h : Word text) : ∃ c tail, text = c :: tail ∧
    (Opening.ofChar c).Fits c tail (some (.ofWord (String.ofList text))) := by
  obtain ⟨hfirst, htail⟩ := h
  refine ⟨_, _, rfl, ?_⟩
  rw [Opening.ofChar_eq_letter_iff.2 hfirst]
  refine ⟨fun d hd => ?_, rfl⟩
  rcases htail d hd with h | h | rfl
  · simp [isWordChar, Char.isAlphanum, h]
  · simp [isWordChar, Char.isAlphanum, h]
  · decide

/-- What belongs to a class is not empty, and fits the opening of its first character. -/
theorem Belongs.fits {text : List Char} (h : Belongs text kind) :
    ∃ c tail, text = c :: tail ∧ (Opening.ofChar c).Fits c tail kind := by
  cases h with
  | punctuation hmem => exact ⟨_, _, rfl, fits_punctuation hmem⟩
  | operator hmem => exact fits_operator hmem
  | @string content hcontent => exact ⟨'"', content ++ ['"'], rfl, content, rfl, hcontent, rfl⟩
  | number hnumeral =>
    obtain ⟨c, tail, rfl⟩ := List.exists_cons_of_ne_nil hnumeral.ne_nil
    refine ⟨c, tail, rfl, ?_⟩
    rw [Opening.ofChar_eq_digit_iff.2 hnumeral.isDigit_head]
    exact ⟨hnumeral, rfl⟩
  | reserved keyword =>
    have hword := fits_word keyword.word_spelling
    rwa [String.ofList_toList, Kind.ofWord, Keyword.ofSpelling?_eq_some_iff.2 rfl] at hword
  | identifier hword hkeyword =>
    have hnone : Keyword.ofSpelling? (String.ofList text) = none := by
      refine Keyword.ofSpelling?_eq_none_iff.2 fun keyword hspelling => hkeyword keyword ?_
      rw [← hspelling, String.toList_ofList]
    have hfits := fits_word hword
    rwa [Kind.ofWord, hnone] at hfits
  | blank hblank =>
    refine ⟨_, _, rfl, ?_⟩
    rcases isBlank_iff.1 hblank with hopening | hopening
    · simp [Opening.Fits, hopening]
    · simp [Opening.Fits, hopening]
  | @comment body hbody => exact ⟨'/', '/' :: body, rfl, Or.inr ⟨body, rfl, hbody, rfl⟩⟩

/-- A character that is a token alone is a punctuation character. -/
theorem mem_punctuationKinds {kind : Kind} (h : Opening.ofChar c = .single kind) :
    (c, kind) ∈ punctuationKinds := by
  unfold Opening.ofChar at h
  split at h <;> first | (cases h; decide) | grind

/-- A character that may have an equal sign behind it begins two operators. -/
theorem mem_operatorKinds {alone followed : Kind}
    (h : Opening.ofChar c = .withEqual alone followed) :
    ([c], alone) ∈ operatorKinds ∧ ([c, '='], followed) ∈ operatorKinds := by
  unfold Opening.ofChar at h
  split at h <;> first | (cases h; decide) | grind

/-- Each class is reached by the openings of its first characters. -/
theorem belongs_of_fits (h : (Opening.ofChar c).Fits c tail kind) : Belongs (c :: tail) kind := by
  cases hopening : Opening.ofChar c with rw [hopening] at h
  | single alone =>
    obtain ⟨rfl, rfl⟩ := h
    exact .punctuation (mem_punctuationKinds hopening)
  | withEqual alone followed =>
    obtain ⟨halone, hfollowed⟩ := mem_operatorKinds hopening
    rcases h with ⟨rfl, rfl⟩ | ⟨rfl, rfl⟩
    · exact .operator halone
    · exact .operator hfollowed
  | slash =>
    obtain rfl := Opening.ofChar_eq_slash_iff.1 hopening
    rcases h with ⟨rfl, rfl⟩ | ⟨body, rfl, hbody, rfl⟩
    · exact .punctuation (by decide)
    · exact .comment hbody
  | blank =>
    obtain ⟨rfl, rfl⟩ := h
    exact .blank (isBlank_iff.2 (Or.inl hopening))
  | newline =>
    obtain ⟨rfl, rfl⟩ := h
    exact .blank (isBlank_iff.2 (Or.inr hopening))
  | quote =>
    obtain rfl := Opening.ofChar_eq_quote_iff.1 hopening
    obtain ⟨content, rfl, hcontent, rfl⟩ := h
    exact .string hcontent
  | digit =>
    obtain ⟨hnumeral, rfl⟩ := h
    exact .number hnumeral
  | letter =>
    obtain ⟨htail, rfl⟩ := h
    refine belongs_word (.mk (Opening.ofChar_eq_letter_iff.1 hopening) fun d hd => ?_)
    simpa [isWordChar, Char.isAlphanum, or_assoc] using htail d hd
  | stray => exact h.elim

/-- A text belongs to a class exactly if it fits the opening of its first character. -/
theorem belongs_iff : Belongs (c :: tail) kind ↔ (Opening.ofChar c).Fits c tail kind := by
  constructor
  · intro h
    obtain ⟨d, rest, htext, hfits⟩ := h.fits
    cases htext
    exact hfits
  · exact belongs_of_fits

/-- A text fits an opening with one kind only. -/
theorem Opening.Fits.unique {opening : Opening} {other : Option Kind}
    (h : opening.Fits c tail kind) (hother : opening.Fits c tail other) : kind = other := by
  cases opening with
  | single | blank | newline | digit | letter => rw [h.2, hother.2]
  | withEqual alone followed =>
    rcases h with ⟨rfl, rfl⟩ | ⟨rfl, rfl⟩ <;> rcases hother with ⟨hnil, rfl⟩ | ⟨hequal, rfl⟩
    · rfl
    · cases hequal
    · cases hnil
    · rfl
  | slash =>
    rcases h with ⟨rfl, rfl⟩ | ⟨body, rfl, -, rfl⟩ <;>
      rcases hother with ⟨hnil, rfl⟩ | ⟨more, hmore, -, rfl⟩
    · rfl
    · cases hmore
    · cases hnil
    · rfl
  | quote =>
    obtain ⟨-, -, -, rfl⟩ := h
    obtain ⟨-, -, -, rfl⟩ := hother
    rfl
  | stray => exact h.elim

end

end LoxScan
