import LoxScan.Proofs.Opening
import LoxScan.Proofs.Piece
import LoxScan.Proofs.Runs

/-!
# What the first piece of a text can be

The first piece is described by what stands in the text: one rule for each class of pieces, with
the condition on what follows that makes the piece end. The rules exclude each other, so a text
that fits a rule is cut as the rule says.
-/

namespace LoxScan

/-- Neither a digit follows nor a point with a digit. -/
def NoFraction (rest : List Char) : Prop :=
  NoDigit rest ∧ ∀ more, rest = '.' :: more → NoDigit more

/-- No word character follows. -/
def NoWordChar (rest : List Char) : Prop := rest.head?.any isWordChar = false

/-- Spaces, tabs, carriage returns and newlines. -/
def IsBlank (c : Char) : Prop := c = ' ' ∨ c = '\t' ∨ c = '\r' ∨ c = '\n'

/-- Blanks are what the dispatch passes over by one character. -/
theorem isBlank_iff {c : Char} :
    IsBlank c ↔ Opening.ofChar c = .blank ∨ Opening.ofChar c = .newline := by
  rw [Opening.ofChar_eq_blank_iff, Opening.ofChar_eq_newline_iff, IsBlank, or_assoc, or_assoc]

/-- The rules for the first piece of a text that begins with a character. -/
inductive FirstPiece : Char → List Char → Cut → Prop
  | single {c : Char} {kind : Kind} {rest : List Char} : Opening.ofChar c = .single kind →
    FirstPiece c rest ⟨⟨[c], .token kind .none⟩, rest⟩
  | alone {c : Char} {alone followed : Kind} {rest : List Char} :
    Opening.ofChar c = .withEqual alone followed → rest.head? ≠ some '=' →
    FirstPiece c rest ⟨⟨[c], .token alone .none⟩, rest⟩
  | followed {c : Char} {alone followed : Kind} {rest : List Char} :
    Opening.ofChar c = .withEqual alone followed →
    FirstPiece c ('=' :: rest) ⟨⟨[c, '='], .token followed .none⟩, rest⟩
  | slash {rest : List Char} : rest.head? ≠ some '/' →
    FirstPiece '/' rest ⟨⟨['/'], .token .slash .none⟩, rest⟩
  | comment {body rest : List Char} : '\n' ∉ body → rest = [] ∨ rest.head? = some '\n' →
    FirstPiece '/' ('/' :: body ++ rest) ⟨⟨'/' :: '/' :: body, .trivia⟩, rest⟩
  | blank {c : Char} {rest : List Char} : IsBlank c →
    FirstPiece c rest ⟨⟨[c], .trivia⟩, rest⟩
  | string {content rest : List Char} : '"' ∉ content →
    FirstPiece '"' (content ++ '"' :: rest)
      ⟨⟨'"' :: content ++ ['"'], .token .string (.text (String.ofList content))⟩, rest⟩
  | openString {content : List Char} : '"' ∉ content →
    FirstPiece '"' content ⟨⟨'"' :: content, .problem .unterminatedString⟩, []⟩
  | whole {c : Char} {digits rest : List Char} : Digits (c :: digits) → NoFraction rest →
    FirstPiece c (digits ++ rest)
      ⟨⟨c :: digits, .token .number (Cut.numeralValue (c :: digits))⟩, rest⟩
  | fraction {c : Char} {digits part rest : List Char} : Digits (c :: digits) → Digits part →
    NoDigit rest →
    FirstPiece c (digits ++ '.' :: part ++ rest)
      ⟨⟨c :: digits ++ '.' :: part,
        .token .number (Cut.numeralValue (c :: digits ++ '.' :: part))⟩, rest⟩
  | word {c : Char} {tail rest : List Char} : Opening.ofChar c = .letter →
    (∀ d ∈ tail, isWordChar d = true) → NoWordChar rest →
    FirstPiece c (tail ++ rest)
      ⟨⟨c :: tail, .token (.ofWord (String.ofList (c :: tail))) .none⟩, rest⟩
  | stray {c : Char} {rest : List Char} : Opening.ofChar c = .stray →
    FirstPiece c rest ⟨⟨[c], .problem (.unexpectedCharacter c)⟩, rest⟩

namespace FirstPiece

/-- Without digits behind a point there is no fraction. -/
theorem fraction_eq_nil {text : List Char} (h : ∀ more, text = '.' :: more → NoDigit more) :
    Cut.fraction text = ([], text) := by
  rcases Cut.fraction_cases text with hnil | ⟨part, rest, rfl, hpart, -, -⟩
  · exact hnil.2
  · exact absurd (h _ rfl) (hpart.not_noDigit_append rest)

/-- A fraction is a point with the digits behind it. -/
theorem fraction_eq_cons {part rest : List Char} (hpart : Digits part) (hrest : NoDigit rest) :
    Cut.fraction ('.' :: (part ++ rest)) = ('.' :: part, rest) := by
  rw [Cut.fraction, takeWhile_append_of_any hpart.isDigit hrest,
    dropWhile_append_of_any hpart.isDigit hrest, if_pos]
  exact Bool.ne_false_iff.1 (hpart.not_noDigit_append rest)

/-- An operator that may be followed by an equal sign is cut with it if it is there. -/
theorem of_withEqual {c : Char} {one two : Kind} (h : Opening.ofChar c = .withEqual one two)
    (text : List Char) : FirstPiece c text (Cut.withEqual c one two text) := by
  by_cases hhead : text.head? = some '='
  · obtain ⟨rest, rfl⟩ := List.head?_eq_some_iff.1 hhead
    exact followed h
  · rw [Cut.withEqual_of_head?_ne c one two hhead]
    exact alone h hhead

/-- A comment is taken up to the next newline, or to the end. -/
theorem of_slash (text : List Char) : FirstPiece '/' text (Cut.slash '/' text) := by
  by_cases hhead : text.head? = some '/'
  · obtain ⟨rest, rfl⟩ := List.head?_eq_some_iff.1 hhead
    have hstop : rest.dropWhile (· != '\n') = [] ∨
        (rest.dropWhile (· != '\n')).head? = some '\n' := by
      cases hdrop : rest.dropWhile (· != '\n') with
      | nil => exact Or.inl rfl
      | cons d behind => exact Or.inr (congrArg some (eq_of_dropWhile_ne hdrop))
    have hcomment := comment (notMem_takeWhile_ne '\n' rest) hstop
    rwa [List.cons_append, List.takeWhile_append_dropWhile] at hcomment
  · rw [Cut.slash_of_head?_ne _ hhead]
    exact slash hhead

/-- A string is taken up to the next quote, or to the end. -/
theorem of_string (text : List Char) : FirstPiece '"' text (Cut.string '"' text) := by
  have hsplit := List.takeWhile_append_dropWhile (p := (· != '"')) (l := text)
  have hcontent := notMem_takeWhile_ne '"' text
  unfold Cut.string
  cases hdrop : text.dropWhile (· != '"') with
  | nil =>
    rw [hdrop, List.append_nil] at hsplit
    rw [hsplit] at hcontent ⊢
    exact openString hcontent
  | cons close rest =>
    obtain rfl := eq_of_dropWhile_ne hdrop
    have hstring : FirstPiece '"' (text.takeWhile (· != '"') ++ '"' :: rest) _ := string hcontent
    rwa [← hdrop, hsplit] at hstring

/-- A number is taken with its fraction, or up to what is no digit. -/
theorem of_number {c : Char} (h : c.isDigit = true) (text : List Char) :
    FirstPiece c text (Cut.number c text) := by
  have hdigits := Digits.cons_takeWhile h text
  have hsplit := List.takeWhile_append_dropWhile (p := Char.isDigit) (l := text)
  have hstop : NoDigit (text.dropWhile Char.isDigit) := any_head?_dropWhile Char.isDigit text
  unfold Cut.number
  rcases Cut.fraction_cases (text.dropWhile Char.isDigit) with
    ⟨hpoint, hfraction⟩ | ⟨part, rest, hdrop, hpart, hrest, hfraction⟩
  · have hwhole := whole hdigits ⟨hstop, hpoint⟩
    rw [hsplit] at hwhole
    simpa [hfraction] using hwhole
  · have hnumber := fraction hdigits hpart hrest
    rw [List.append_assoc, List.cons_append, ← hdrop, hsplit] at hnumber
    simpa [hfraction] using hnumber

/-- A word is taken up to what is no word character. -/
theorem of_word {c : Char} (h : Opening.ofChar c = .letter) (text : List Char) :
    FirstPiece c text (Cut.word c text) := by
  have htail : ∀ d ∈ text.takeWhile isWordChar, isWordChar d = true :=
    fun d hd => List.mem_takeWhile_imp hd
  have hword := word h htail (any_head?_dropWhile isWordChar text)
  rwa [List.takeWhile_append_dropWhile] at hword

/-- The first piece follows the rules. -/
theorem of (c : Char) (text : List Char) : FirstPiece c text (Cut.of c text) := by
  unfold Cut.of
  cases hopening : Opening.ofChar c with
  | single kind => exact single hopening
  | withEqual one two => exact of_withEqual hopening text
  | slash =>
    obtain rfl := Opening.ofChar_eq_slash_iff.1 hopening
    exact of_slash text
  | blank => exact blank (isBlank_iff.2 (Or.inl hopening))
  | newline => exact blank (isBlank_iff.2 (Or.inr hopening))
  | quote =>
    obtain rfl := Opening.ofChar_eq_quote_iff.1 hopening
    exact of_string text
  | digit => exact of_number (Opening.ofChar_eq_digit_iff.1 hopening) text
  | letter => exact of_word hopening text
  | stray => exact stray hopening

/-- The digits of a number are taken whole, and then its fraction. -/
theorem number_append {c : Char} {digits rest : List Char} (hdigits : Digits (c :: digits))
    (hrest : NoDigit rest) :
    Cut.of c (digits ++ rest) =
      ⟨⟨c :: digits ++ (Cut.fraction rest).1,
        .token .number (Cut.numeralValue (c :: digits ++ (Cut.fraction rest).1))⟩,
        (Cut.fraction rest).2⟩ := by
  have hopening : Opening.ofChar c = .digit :=
    Opening.ofChar_eq_digit_iff.2 (hdigits.isDigit c List.mem_cons_self)
  have htail : ∀ d ∈ digits, d.isDigit = true :=
    fun d hd => hdigits.isDigit d (List.mem_cons_of_mem c hd)
  simp [Cut.of, hopening, Cut.number, takeWhile_append_of_any htail hrest,
    dropWhile_append_of_any htail hrest]

/-- A text that fits a rule is cut as the rule says. -/
theorem eq_of {c : Char} {text : List Char} {cut : Cut} (h : FirstPiece c text cut) :
    cut = Cut.of c text := by
  cases h with
  | single hopening => simp [Cut.of, hopening]
  | alone hopening hrest => simp [Cut.of, hopening, Cut.withEqual_of_head?_ne c _ _ hrest]
  | followed hopening => simp [Cut.of, hopening, Cut.withEqual]
  | slash hrest => simp [Cut.of, Opening.ofChar, Cut.slash_of_head?_ne '/' hrest]
  | @comment body rest hbody hrest =>
    have hcomment : Cut.slash '/' ('/' :: (body ++ rest)) =
        ⟨⟨'/' :: '/' :: body, .trivia⟩, rest⟩ := by
      rcases hrest with rfl | hrest
      · simp [Cut.slash, takeWhile_ne_of_notMem hbody, dropWhile_ne_of_notMem hbody]
      · obtain ⟨behind, rfl⟩ := List.head?_eq_some_iff.1 hrest
        simp [Cut.slash, takeWhile_ne_append hbody, dropWhile_ne_append hbody]
    exact hcomment.symm
  | blank hblank =>
    rcases isBlank_iff.1 hblank with hopening | hopening
    · simp [Cut.of, hopening]
    · simp [Cut.of, hopening]
  | string hcontent =>
    simp [Cut.of, Opening.ofChar, Cut.string, takeWhile_ne_append hcontent,
      dropWhile_ne_append hcontent]
  | openString hcontent =>
    simp [Cut.of, Opening.ofChar, Cut.string, takeWhile_ne_of_notMem hcontent,
      dropWhile_ne_of_notMem hcontent]
  | whole hdigits hrest =>
    rw [number_append hdigits hrest.1, fraction_eq_nil hrest.2, List.append_nil]
  | @fraction _ digits part rest hdigits hpart hrest =>
    have hstop : NoDigit ('.' :: (part ++ rest)) := rfl
    simp only [List.append_assoc, List.cons_append]
    rw [number_append hdigits hstop, fraction_eq_cons hpart hrest]
    rfl
  | word hopening htail hrest =>
    simp [Cut.of, hopening, Cut.word, takeWhile_append_of_any htail hrest,
      dropWhile_append_of_any htail hrest]
  | stray hopening => simp [Cut.of, hopening]

/-- A stray character is a piece of its own. -/
theorem text_of_unexpectedCharacter {c found : Char} {text : List Char} {cut : Cut}
    (h : FirstPiece c text cut) (hfinding : cut.finding = .problem (.unexpectedCharacter found)) :
    cut.text = [c] ∧ Opening.ofChar c = .stray := by
  cases h with
  | stray hopening => exact ⟨rfl, hopening⟩
  | _ => cases hfinding

/-- An open string is the last piece of a text. -/
theorem text_of_unterminatedString {c : Char} {text : List Char} {cut : Cut}
    (h : FirstPiece c text cut) (hfinding : cut.finding = .problem .unterminatedString) :
    cut.text = c :: text := by
  cases h with
  | openString hcontent => rfl
  | _ => cases hfinding

end FirstPiece

end LoxScan
