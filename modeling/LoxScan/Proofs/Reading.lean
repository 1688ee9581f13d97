import LoxScan.Proofs.Between
import LoxScan.Proofs.Opening
import LoxScan.Proofs.Piece
import LoxScan.Proofs.Runs

/-!
# Reading a piece

Where whole characters are ahead and the offsets are words, the reader finds the first piece of
the text ahead, stops behind it, and counts its newlines. It fails only where a line is no word.
-/

namespace LoxScan

open Utf8
open Cursor (between)

variable {text : List Char} {pos line : Nat}

/-- The loop of a string, one jump unfolded. -/
theorem closeString_eq (cursor : Cursor) (line : Nat) : closeString cursor line =
    match cursor.toQuoteOrNewline with
    | (some '\n', atNewline) =>
      atNewline.advance >>= fun next => nextLine line >>= closeString next
    | (found, stop) => .ok (found, stop, line) := by
  rw [closeString]
  split
  · next atNewline hjump =>
    rw [hjump]
    simp only
    cases atNewline.advance with
    | ok next => cases nextLine line <;> rfl
    | error fault => rfl
  · next found stop hfound hjump =>
    rw [hjump]
    simp only

/-- The jump inside a string passes the characters in front of the next quote or newline. -/
theorem toQuoteOrNewline_between (rest : List Char) :
    (between text pos rest).toQuoteOrNewline =
      let passed := rest.takeWhile fun c => !(c == '"' || c == '\n')
      let ahead := rest.dropWhile fun c => !(c == '"' || c == '\n')
      (ahead.head?, between text (pos + size passed) ahead) := by
  simp [Cursor.toQuoteOrNewline, Cursor.skipTo_between]

/-- At the end a string is found open. -/
theorem closeString_between_nil :
    closeString (between text pos []) line = .ok (none, between text pos [], line) := by
  rw [closeString_eq, toQuoteOrNewline_between]
  rfl

/-- In front of a quote the search for it is over. -/
theorem closeString_between_quote (rest : List Char) :
    closeString (between text pos ('"' :: rest)) line =
      .ok (some '"', between text pos ('"' :: rest), line) := by
  rw [closeString_eq, toQuoteOrNewline_between]
  rfl

/-- A newline in a string is passed and counted. -/
theorem closeString_between_newline (rest : List Char) :
    closeString (between text pos ('\n' :: rest)) line =
      nextLine line >>= closeString (between text (pos + 1) rest) := by
  have hadvance : (between text pos ('\n' :: rest)).advance = .ok (between text (pos + 1) rest) :=
    Cursor.advance_between_ascii (by decide) rest
  rw [closeString_eq, toQuoteOrNewline_between]
  simp [hadvance, bind, Except.bind]

/-- Any other character of a string is passed without effect. -/
theorem closeString_between_cons {c : Char} (hquote : c ≠ '"') (hnewline : c ≠ '\n')
    (rest : List Char) : closeString (between text pos (c :: rest)) line =
      closeString (between text (pos + c.utf8Size) rest) line := by
  rw [closeString_eq, closeString_eq (between text _ rest)]
  simp [toQuoteOrNewline_between, hquote, hnewline, Nat.add_assoc]

/-- A string goes on to the next quote or to the end; newlines on the way are counted. -/
theorem closeString_between (rest : List Char) (hline : line ≤ maxWord) :
    closeString (between text pos rest) line =
      if line + newlines (rest.takeWhile (· != '"')) ≤ maxWord then
        .ok ((rest.dropWhile (· != '"')).head?,
          between text (pos + size (rest.takeWhile (· != '"'))) (rest.dropWhile (· != '"')),
          line + newlines (rest.takeWhile (· != '"')))
      else .error .addOverflow := by
  induction rest generalizing pos line with
  | nil => simp [closeString_between_nil, hline]
  | cons c rest ih =>
    by_cases hquote : c = '"'
    · subst hquote
      simp [closeString_between_quote, hline]
    · have htake : (c :: rest).takeWhile (· != '"') = c :: rest.takeWhile (· != '"') := by
        simp [hquote]
      have hdrop : (c :: rest).dropWhile (· != '"') = rest.dropWhile (· != '"') := by
        simp [hquote]
      rw [htake, hdrop]
      by_cases hnewline : c = '\n'
      · subst hnewline
        rw [closeString_between_newline, newlines_cons_self, nextLine]
        split
        · have hsize : size ('\n' :: rest.takeWhile (· != '"')) =
              1 + size (rest.takeWhile (· != '"')) := by
            rw [size_cons]
            rfl
          change closeString (between text (pos + 1) rest) (line + 1) = _
          rw [ih (by omega), hsize, Nat.add_assoc pos, Nat.add_assoc line,
            Nat.add_comm 1 (newlines _)]
        · rw [if_neg (by omega)]
          rfl
      · rw [closeString_between_cons hquote hnewline, ih hline, newlines_cons_of_ne hnewline,
          size_cons, Nat.add_assoc]

namespace Reading

/-- What reading a piece yields: where it ends, and a fault if a line there is no word. -/
def ofCut (text : List Char) (pos line : Nat) (cut : Cut) : Except Fault Reading :=
  if line + newlines cut.text ≤ maxWord then
    .ok ⟨between text (pos + size cut.text) cut.rest, line + newlines cut.text, cut.finding⟩
  else .error .addOverflow

/-- A piece within one line is always read. -/
theorem ofCut_eq_ok {cut : Cut} (hline : line ≤ maxWord) (hcount : newlines cut.text = 0) :
    ofCut text pos line cut =
      .ok ⟨between text (pos + size cut.text) cut.rest, line, cut.finding⟩ := by
  rw [ofCut, hcount, Nat.add_zero, if_pos hline]

/-- A piece of one character that is no newline is read as one byte. -/
theorem ofCut_char {c : Char} {rest : List Char} (hline : line ≤ maxWord) (hsize : c.utf8Size = 1)
    (hnewline : c ≠ '\n') (finding : Finding) :
    ofCut text pos line ⟨⟨[c], finding⟩, rest⟩ =
      .ok ⟨between text (pos + 1) rest, line, finding⟩ := by
  rw [ofCut_eq_ok hline (by simp [newlines_cons_of_ne hnewline])]
  simp [hsize]

/-- An operator takes the equal sign that follows it. -/
theorem withEqual_between {c : Char} {alone followed : Kind} (rest : List Char)
    (hline : line ≤ maxWord) (hsize : c.utf8Size = 1) (hnewline : c ≠ '\n') :
    (match (between text (pos + 1) rest).eat '='.toUInt8 with
      | (true, stop) => .ok ⟨stop, line, .token followed .none⟩
      | (false, stop) => .ok ⟨stop, line, .token alone .none⟩) =
      ofCut text pos line (Cut.withEqual c alone followed rest) := by
  have hequal : '='.toUInt8 = lead '=' := rfl
  have hsize' : '='.utf8Size = 1 := rfl
  by_cases hhead : rest.head? = some '='
  · obtain ⟨behind, rfl⟩ := List.head?_eq_some_iff.1 hhead
    rw [hequal, Cursor.eat_between_self (by decide), Cut.withEqual, ofCut_eq_ok hline]
    · simp [hsize, hsize', Nat.add_assoc]
    · simp [newlines_cons_of_ne hnewline, newlines_cons_of_ne (c := '=') (by decide)]
  · rw [hequal, Cursor.eat_between_of_ne (by decide) hhead, Cut.withEqual_of_head?_ne _ _ _ hhead]
    exact (ofCut_char hline hsize hnewline _).symm

/-- A slash is read alone, or as the beginning of a comment. -/
theorem slash_between {c : Char} (rest : List Char) (hline : line ≤ maxWord)
    (hsize : c.utf8Size = 1) (hnewline : c ≠ '\n') :
    (match (between text (pos + 1) rest).eat '/'.toUInt8 with
      | (true, comment) => .ok ⟨comment.toNewline, line, .trivia⟩
      | (false, stop) => .ok ⟨stop, line, .token .slash .none⟩) =
      ofCut text pos line (Cut.slash c rest) := by
  have hslash : '/'.toUInt8 = lead '/' := rfl
  have hsize' : '/'.utf8Size = 1 := rfl
  by_cases hhead : rest.head? = some '/'
  · obtain ⟨behind, rfl⟩ := List.head?_eq_some_iff.1 hhead
    have hcount := newlines_eq_zero (notMem_takeWhile_ne '\n' behind)
    rw [hslash, Cursor.eat_between_self (by decide), Cut.slash, ofCut_eq_ok hline]
    · simp only [Cursor.toNewline_between, size_cons, hsize, hsize', Nat.add_assoc]
    · rw [newlines_cons_of_ne hnewline, newlines_cons_of_ne (by decide), hcount]
  · rw [hslash, Cursor.eat_between_of_ne (by decide) hhead, Cut.slash_of_head?_ne _ hhead]
    exact (ofCut_char hline hsize hnewline _).symm

/-- A string is read up to the quote that closes it, or to the end. -/
theorem string_between (rest : List Char) (hline : line ≤ maxWord) :
    string (between text (pos + 1) rest) line = ofCut text pos line (Cut.string '"' rest) := by
  have hquote : '"'.utf8Size = 1 := rfl
  have hsplit := List.takeWhile_append_dropWhile (p := (· != '"')) (l := rest)
  unfold string Cut.string ofCut
  rw [closeString_between rest hline]
  cases hdrop : rest.dropWhile (· != '"') with
  | nil =>
    simp only [newlines_cons_of_ne (c := '"') (by decide)]
    by_cases hcount : line + newlines (rest.takeWhile (· != '"')) ≤ maxWord
    · rw [if_pos hcount, if_pos hcount]
      simp [hquote, Nat.add_assoc]
    · rw [if_neg hcount, if_neg hcount]
  | cons close behind =>
    obtain rfl : close = '"' := eq_of_dropWhile_ne hdrop
    simp only [List.cons_append, newlines_cons_of_ne (c := '"') (by decide), newlines_append,
      newlines_nil, Nat.add_zero]
    by_cases hcount : line + newlines (rest.takeWhile (· != '"')) ≤ maxWord
    · have hcontent : (between text (pos + 1) (rest.takeWhile (· != '"') ++ '"' :: behind)).textTo
          (between text (pos + 1 + size (rest.takeWhile (· != '"'))) ('"' :: behind)) =
          .ok (rest.takeWhile (· != '"')) := Cursor.textTo_between _ _
      rw [← hdrop, hsplit, hdrop] at hcontent
      rw [if_pos hcount, if_pos hcount]
      simp only [List.head?_cons]
      rw [Cursor.advance_between_ascii (by decide)]
      simp only [bind, Except.bind, pure, Except.pure, hcontent]
      congr 3
      simp only [size_cons, size_append, size_nil, hquote]
      omega
    · rw [if_neg hcount, if_neg hcount]

/-- A number goes on over its digits and, if digits follow a point, over these. -/
theorem numberEnd_between (rest : List Char) :
    numberEnd (between text pos rest) =
      .ok (between text (pos + size (rest.takeWhile Char.isDigit) +
        size (Cut.fraction (rest.dropWhile Char.isDigit)).1)
        (Cut.fraction (rest.dropWhile Char.isDigit)).2) := by
  have hpoint : '.'.toUInt8 = lead '.' := rfl
  unfold numberEnd
  rw [Cursor.eatWhile_between testsLead_isDigitByte]
  generalize rest.dropWhile Char.isDigit = ahead
  generalize pos + size (rest.takeWhile Char.isDigit) = pos
  by_cases hhead : ahead.head? = some '.'
  · obtain ⟨behind, rfl⟩ := List.head?_eq_some_iff.1 hhead
    have hcurrent : (between text pos ('.' :: behind)).current = lead '.' :=
      (Cursor.current_between_eq_lead_iff (by decide) (by decide) _).2 rfl
    have hpeek : isDigitByte (between text pos ('.' :: behind)).peek =
        behind.head?.any Char.isDigit := by
      rw [Cursor.peek_between_ascii (by decide),
        Cursor.condition_current_between testsLead_isDigitByte (by decide)]
    have hsize : '.'.utf8Size = 1 := rfl
    simp only [hcurrent, hpoint, hpeek, BEq.rfl, Bool.true_and, Cut.fraction]
    split
    · rw [Cursor.advance_between_ascii (by decide)]
      simp only [Cursor.eatWhile_between testsLead_isDigitByte, size_cons, hsize]
      rw [Nat.add_assoc]
    · simp
  · have hcurrent : (between text pos ahead).current ≠ lead '.' := by
      rwa [Ne, Cursor.current_between_eq_lead_iff (by decide) (by decide)]
    rw [Cut.fraction_of_head?_ne hhead]
    simp [hpoint, hcurrent]

/-- A number is read with its fraction, and its numeral denotes a decimal. -/
theorem number_between {digit : Char} (h : digit.isDigit = true) (rest : List Char)
    (hline : line ≤ maxWord) :
    number (between text pos (digit :: rest)) (between text (pos + 1) rest) line =
      ofCut text pos line (Cut.number digit rest) := by
  have hnumeral := Cut.numeral_number h rest
  have hcount : newlines (Cut.number digit rest).text = 0 := by
    apply newlines_eq_zero
    intro hmem
    exact absurd (hnumeral.mem hmem) (by decide)
  have hsize : digit.utf8Size = 1 := utf8Size_of_ascii (toNat_lt_of_isDigit h)
  obtain ⟨decimal, hdecimal⟩ := Option.isSome_iff_exists.1 (Decimal.ofNumeral?_isSome hnumeral)
  have htext : (between text pos (digit :: rest)).textTo
      (between text (pos + size (Cut.number digit rest).text) (Cut.number digit rest).rest) =
      .ok (Cut.number digit rest).text := by
    rw [← Cut.text_number_append digit rest]
    exact Cursor.textTo_between _ _
  have hstop : numberEnd (between text (pos + 1) rest) =
      .ok (between text (pos + size (Cut.number digit rest).text)
        (Cut.number digit rest).rest) := by
    rw [numberEnd_between]
    simp only [Cut.number, List.cons_append, size_cons, size_append, hsize]
    congr 2
    omega
  rw [ofCut_eq_ok hline hcount, number, hstop, Cut.finding_number, Cut.numeralValue, hdecimal]
  simp only [bind, Except.bind, pure, Except.pure, htext, hdecimal, Option.getD_some]

/-- A word is read up to what is no word character. -/
theorem word_between {letter : Char} (h : isWordChar letter = true) (rest : List Char)
    (hline : line ≤ maxWord) :
    word (between text pos (letter :: rest)) (between text (pos + 1) rest) line =
      ofCut text pos line (Cut.word letter rest) := by
  have hcount : newlines (Cut.word letter rest).text = 0 := by
    apply newlines_eq_zero
    intro hmem
    exact absurd (Cut.isWordChar_of_mem_word h hmem) (by decide)
  have hsize : letter.utf8Size = 1 := utf8Size_of_ascii (toNat_lt_of_isWordChar h)
  have htext : (between text pos (letter :: rest)).textTo
      (between text (pos + size (Cut.word letter rest).text) (Cut.word letter rest).rest) =
      .ok (Cut.word letter rest).text := by
    rw [← Cut.text_word_append letter rest]
    exact Cursor.textTo_between _ _
  have hstop : (between text (pos + 1) rest).eatWhile isWordByte =
      between text (pos + size (Cut.word letter rest).text) (Cut.word letter rest).rest := by
    rw [Cursor.eatWhile_between testsLead_isWordByte]
    simp [Cut.word, hsize, Nat.add_assoc]
  rw [ofCut_eq_ok hline hcount, word, hstop]
  simp only [bind, Except.bind, pure, Except.pure, htext]
  rfl

/-- A stray character is passed whole, whatever its width. -/
theorem stray_between (c : Char) (rest : List Char) (hpos : pos + c.utf8Size ≤ maxWord) :
    stray (between text pos (c :: rest)) (lead c) ⟨text, pos + 1, trail c, rest⟩ line =
      .ok ⟨between text (pos + c.utf8Size) rest, line, .problem (.unexpectedCharacter c)⟩ := by
  have htext : (between text pos ([c] ++ rest)).textTo (between text (pos + size [c]) rest) =
      .ok [c] := Cursor.textTo_between _ _
  simp only [List.singleton_append, size_cons, size_nil, Nat.add_zero] at htext
  rw [stray, Cursor.advanceBy_trail hpos]
  simp [bind, Except.bind, pure, Except.pure, htext]

/-- Where whole characters are ahead, reading finds the first piece of the text ahead. -/
theorem of_between (text : List Char) (c : Char) (rest : List Char)
    (hpos : pos + size (c :: rest) ≤ maxWord) (hline : line ≤ maxWord) :
    Reading.of (between text pos (c :: rest)) (lead c) ⟨text, pos + 1, trail c, rest⟩ line =
      ofCut text pos line (Cut.of c rest) := by
  have hnewline (h : Opening.ofChar c ≠ .newline) : c ≠ '\n' := by
    rwa [Ne, ← Opening.ofChar_eq_newline_iff]
  by_cases hstray : Opening.ofChar c = .stray
  · have hcount : newlines (Cut.of c rest).text = 0 := by
      simp [Cut.of, hstray, newlines_cons_of_ne (hnewline (by simp [hstray]))]
    have hwidth : pos + c.utf8Size ≤ maxWord := by
      rw [size_cons] at hpos
      omega
    rw [ofCut_eq_ok hline hcount, Reading.of, Opening.ofByte_lead, hstray]
    simp only [stray_between c rest hwidth, Cut.of, hstray, size_cons, size_nil, Nat.add_zero]
  -- Every other opening is ASCII, so whole characters are ahead after the first byte as well.
  have hascii := Opening.toNat_lt_of_ofChar hstray
  have hsize : c.utf8Size = 1 := utf8Size_of_ascii hascii
  have hafter : (⟨text, pos + 1, trail c, rest⟩ : Cursor) = between text (pos + 1) rest := by
    rw [trail_of_ascii hascii]
    rfl
  rw [hafter, Reading.of, Opening.ofByte_lead]
  unfold Cut.of
  cases hopening : Opening.ofChar c with
  | single kind => exact (ofCut_char hline hsize (hnewline (by simp [hopening])) _).symm
  | withEqual alone followed =>
    exact withEqual_between rest hline hsize (hnewline (by simp [hopening]))
  | slash => exact slash_between rest hline hsize (hnewline (by simp [hopening]))
  | blank => exact (ofCut_char hline hsize (hnewline (by simp [hopening])) _).symm
  | newline =>
    obtain rfl := Opening.ofChar_eq_newline_iff.1 hopening
    simp only [nextLine, ofCut, newlines_cons_self, newlines_nil, size_cons, size_nil, hsize]
    by_cases hlast : line < maxWord
    · rw [if_pos hlast, if_pos (by omega)]
    · rw [if_neg hlast, if_neg (by omega)]
  | quote =>
    obtain rfl := Opening.ofChar_eq_quote_iff.1 hopening
    exact string_between rest hline
  | digit => exact number_between (Opening.ofChar_eq_digit_iff.1 hopening) rest hline
  | letter => exact word_between (Opening.isWordChar_of_ofChar hopening) rest hline
  | stray => exact absurd hopening hstray

end Reading

end LoxScan
