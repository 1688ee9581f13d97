import LoxScan.Proofs.Faultless
import LoxScan.Proofs.Standing

/-!
# Jumps and single steps

A cursor jumps to the next newline or quote at once. Passing one byte after the other up to the
first such byte, or to the end, leads to the same place, wherever in the text the cursor stands: no
byte inside a character looks like what is sought, and a zero byte is passed like any other.

Reading a string jumps from newline to newline. A loop over single bytes that counts newlines as it
meets them leaves a scanner in the same state, with the same token or diagnostic. Slices of the
loop are taken from the whole text, not from what is ahead.
-/

namespace LoxScan

open Utf8
open Cursor (between Visited Stands)

namespace Cursor

variable {text : List Char} {cursor next : Cursor} {condition : UInt8 → Bool}

/-- Passes bytes one by one, up to the first that is sought or to the end. -/
def walkTo (sought : UInt8 → Bool) (cursor : Cursor) : Except Fault Cursor :=
  if cursor.atEnd || sought cursor.current then .ok cursor
  else
    match _ : cursor.advance with
    | .ok next => next.walkTo sought
    | .error fault => .error fault
termination_by cursor.remaining
decreasing_by simp [remaining_advance ‹_›]

/-- At the end no byte is passed. -/
theorem eatWhile_of_step?_eq_none (h : cursor.step? = none) :
    cursor.eatWhile condition = cursor := by
  rw [eatWhile]
  split
  · next hstep =>
    rw [h] at hstep
    cases hstep
  · rfl

/-- The next byte is passed if it meets the condition, and stops the walk otherwise. -/
theorem eatWhile_of_step? {byte : UInt8} (h : cursor.step? = some (byte, next)) :
    cursor.eatWhile condition = if condition byte then next.eatWhile condition else cursor := by
  rw [eatWhile]
  split
  · next hstep =>
    rw [h] at hstep
    cases hstep
    rfl
  · next hstep =>
    rw [h] at hstep
    cases hstep

/-- Walking to what is sought is eating what is not. -/
theorem walkTo_eq (sought : UInt8 → Bool) (cursor : Cursor) :
    cursor.walkTo sought = .ok (cursor.eatWhile fun byte => !sought byte) := by
  fun_induction walkTo sought cursor with
  | case1 cursor hstop =>
    cases hstep : cursor.step? with
    | none => rw [eatWhile_of_step?_eq_none hstep]
    | some found =>
      rw [atEnd_of_step? hstep, current_of_step? hstep, Bool.false_or] at hstop
      rw [eatWhile_of_step? hstep, hstop]
      rfl
  | case2 cursor hstop next hadvance ih =>
    unfold advance at hadvance
    split at hadvance
    · next hstep =>
      cases hadvance
      rw [atEnd_of_step? hstep, current_of_step? hstep, Bool.false_or] at hstop
      rw [ih, eatWhile_of_step? hstep, if_pos (by simpa using hstop)]
    · cases hadvance
  | case3 cursor hstop fault hadvance =>
    unfold advance at hadvance
    split at hadvance
    · cases hadvance
    · next hstep => exact absurd (by simp [(atEnd_iff cursor).2 hstep]) hstop

/-- Bytes are eaten up to the first that does not satisfy the condition. -/
theorem pos_eatWhile (condition : UInt8 → Bool) (cursor : Cursor) :
    (cursor.eatWhile condition).pos =
      cursor.pos + cursor.upcoming.findIdx fun byte => !condition byte := by
  fun_induction eatWhile condition cursor with
  | case1 cursor byte next hstep hcondition ih =>
    rw [ih, (pos_of_step? hstep).1, upcoming_of_step? hstep, List.findIdx_cons, hcondition]
    simp only [Bool.not_true, cond_false]
    omega
  | case2 cursor byte next hstep hcondition =>
    rw [upcoming_of_step? hstep, List.findIdx_cons, Bool.eq_false_iff.2 hcondition]
    rfl
  | case3 cursor hstep =>
    rw [upcoming_of_step?_eq_none hstep]
    rfl

/-- What is left of a character begun is eaten if all of its bytes are. -/
theorem eatWhile_pending {pos : Nat} {pending : List UInt8} (rest : List Char)
    (h : ∀ byte ∈ pending, condition byte = true) :
    (⟨text, pos, pending, rest⟩ : Cursor).eatWhile condition =
      (between text (pos + pending.length) rest).eatWhile condition := by
  induction pending generalizing pos with
  | nil => rfl
  | cons byte pending ih =>
    obtain ⟨hbyte, hpending⟩ := List.forall_mem_cons.1 h
    have hstep : (⟨text, pos, byte :: pending, rest⟩ : Cursor).step? =
        some (byte, ⟨text, pos + 1, pending, rest⟩) := rfl
    rw [eatWhile_of_step? hstep, if_pos hbyte, ih hpending, List.length_cons, Nat.add_assoc,
      Nat.add_comm 1]

/-- A test of bytes that tells certain ASCII characters, and no byte inside a character. -/
structure Seeks (sought : UInt8 → Bool) (stop : Char → Bool) : Prop where
  lead : ∀ c, sought (lead c) = stop c
  high : ∀ byte : UInt8, 128 ≤ byte.toNat → sought byte = false

/-- An ASCII character is sought by its byte. -/
theorem seeks_beq {d : Char} (hd : d.toNat < 128) :
    Seeks (· == Utf8.lead d) (· == d) := by
  constructor
  case lead =>
    intro c
    rw [Bool.eq_iff_iff, beq_iff_eq, beq_iff_eq]
    exact lead_eq_lead_iff hd
  case high =>
    intro byte hbyte
    rw [beq_eq_false_iff_ne]
    rintro rfl
    rw [toNat_lead, if_pos (by omega)] at hbyte
    omega

/-- Seeking one of two sets of bytes stops at one of two sets of characters. -/
theorem Seeks.or {sought other : UInt8 → Bool} {stop halt : Char → Bool} (h : Seeks sought stop)
    (hother : Seeks other halt) :
    Seeks (fun byte => sought byte || other byte) fun c => stop c || halt c := by
  constructor
  case lead => exact fun c => by rw [h.lead, hother.lead]
  case high => exact fun byte hbyte => by rw [h.high byte hbyte, hother.high byte hbyte]; rfl

/-- Seeking the byte of a newline stops at newlines. -/
theorem seeks_newline : Seeks (· == '\n'.toUInt8) (· == '\n') :=
  seeks_beq (d := '\n') (by decide)

/-- Seeking the bytes of a quote and of a newline stops at both. -/
theorem seeks_quoteOrNewline : Seeks (fun byte => byte == '"'.toUInt8 || byte == '\n'.toUInt8)
    fun c => c == '"' || c == '\n' :=
  (seeks_beq (d := '"') (by decide)).or seeks_newline

section

variable {sought : UInt8 → Bool} {stop : Char → Bool}

/-- Between two characters a jump eats all bytes up to those sought. -/
theorem skipTo_between_eq_eatWhile (h : Seeks sought stop) (pos : Nat) (rest : List Char) :
    (between text pos rest).skipTo stop =
      (between text pos rest).eatWhile fun byte => !sought byte := by
  induction rest generalizing pos with
  | nil =>
    rw [eatWhile_of_step?_eq_none step?_between_nil, skipTo_between]
    rfl
  | cons c rest ih =>
    have htrail : ∀ byte ∈ trail c, (!sought byte) = true := by
      intro byte hbyte
      rw [h.high byte (le_toNat_of_mem_trail hbyte)]
      rfl
    have hwidth : pos + 1 + (trail c).length = pos + c.utf8Size := by
      rw [← length_trail]
      omega
    rw [eatWhile_of_step? (step?_between c rest), h.lead, eatWhile_pending rest htrail, hwidth,
      ← ih, skipTo_between, skipTo_between]
    by_cases hc : stop c = true
    · simp [hc]
    · simp [hc, Nat.add_assoc]

/-- A jump eats all bytes up to those sought, wherever it begins. -/
theorem skipTo_eq_eatWhile (h : Seeks sought stop) (hcursor : Stands text cursor) :
    cursor.skipTo stop = cursor.eatWhile fun byte => !sought byte := by
  have hpending : ∀ byte ∈ cursor.pending, (!sought byte) = true := by
    intro byte hbyte
    rw [h.high byte (hcursor.le_toNat_of_mem_pending hbyte)]
    rfl
  obtain ⟨whole, pos, pending, rest⟩ := cursor
  rw [skipTo_eq, skipTo_between_eq_eatWhile h, eatWhile_pending rest hpending]

/-- A jump ends at the first byte that is sought. -/
theorem pos_skipTo (h : Seeks sought stop) (hcursor : Stands text cursor) :
    (cursor.skipTo stop).pos = cursor.pos + cursor.upcoming.findIdx sought := by
  rw [skipTo_eq_eatWhile h hcursor, pos_eatWhile]
  simp only [Bool.not_not]

end

/-- Walking to the next newline leads where the jump does. -/
theorem walkTo_newline (h : Stands text cursor) :
    cursor.walkTo (· == '\n'.toUInt8) = .ok cursor.toNewline := by
  rw [walkTo_eq, toNewline, skipTo_eq_eatWhile seeks_newline h]

end Cursor

/-- Goes on to the closing quote of a string byte by byte, and tells whether there is one. -/
def walkString (cursor : Cursor) (line : Nat) : Except Fault (Bool × Cursor × Nat) :=
  if cursor.atEnd then .ok (false, cursor, line)
  else if cursor.current == '"'.toUInt8 then .ok (true, cursor, line)
  else
    match if cursor.current == '\n'.toUInt8 then nextLine line else .ok line with
    | .ok line =>
      match _ : cursor.advance with
      | .ok next => walkString next line
      | .error fault => .error fault
    | .error fault => .error fault
termination_by cursor.remaining
decreasing_by simp [Cursor.remaining_advance ‹_›]

section

variable {text : List Char} {pos line : Nat} {cursor next : Cursor}

/-- At the end of the source a string is left open. -/
theorem walkString_of_atEnd (h : cursor.atEnd = true) :
    walkString cursor line = .ok (false, cursor, line) := by
  rw [walkString, if_pos h]

/-- One byte of the loop unfolded. -/
theorem walkString_of_step? {byte : UInt8} (h : cursor.step? = some (byte, next)) :
    walkString cursor line =
      if byte == '"'.toUInt8 then .ok (true, cursor, line)
      else (if byte == '\n'.toUInt8 then nextLine line else .ok line) >>= walkString next := by
  have hadvance : cursor.advance = .ok next := by rw [Cursor.advance, h]
  rw [walkString, Cursor.atEnd_of_step? h, Cursor.current_of_step? h]
  simp only [Bool.false_eq_true, if_false]
  split
  · rfl
  · cases if byte == '\n'.toUInt8 then nextLine line else .ok line with
    | error fault => rfl
    | ok line =>
      simp only [bind, Except.bind]
      split
      · next hother =>
        rw [hadvance] at hother
        cases hother
        rfl
      · next hother =>
        rw [hadvance] at hother
        cases hother

/-- Bytes inside a character are passed. -/
theorem walkString_pending {pending : List UInt8} (rest : List Char)
    (h : ∀ byte ∈ pending, 128 ≤ byte.toNat) :
    walkString ⟨text, pos, pending, rest⟩ line =
      walkString (between text (pos + pending.length) rest) line := by
  induction pending generalizing pos with
  | nil => rfl
  | cons byte pending ih =>
    obtain ⟨hbyte, hpending⟩ := List.forall_mem_cons.1 h
    have hstep : (⟨text, pos, byte :: pending, rest⟩ : Cursor).step? =
        some (byte, ⟨text, pos + 1, pending, rest⟩) := rfl
    have hquote : (byte == '"'.toUInt8) = false :=
      (Cursor.seeks_beq (d := '"') (by decide)).high byte hbyte
    have hnewline : (byte == '\n'.toUInt8) = false := Cursor.seeks_newline.high byte hbyte
    rw [walkString_of_step? hstep, hquote, hnewline, List.length_cons, ← Nat.add_assoc,
      Nat.add_right_comm, ← ih hpending]
    rfl

/-- The loop over bytes ends where the jumps from newline to newline do. -/
theorem walkString_between (rest : List Char) :
    walkString (between text pos rest) line =
      (fun found => (found.1.isSome, found.2)) <$> closeString (between text pos rest) line := by
  induction rest generalizing pos line with
  | nil =>
    rw [closeString_between_nil, walkString_of_atEnd rfl]
    rfl
  | cons c rest ih =>
    have hpassed (line : Nat) : walkString ⟨text, pos + 1, trail c, rest⟩ line =
        walkString (between text (pos + c.utf8Size) rest) line := by
      rw [walkString_pending rest fun byte => le_toNat_of_mem_trail, ← length_trail]
      congr 2
      omega
    have hquoteByte := (Cursor.seeks_beq (d := '"') (by decide)).lead c
    have hnewlineByte := Cursor.seeks_newline.lead c
    rw [walkString_of_step? (Cursor.step?_between c rest)]
    change (if lead c == lead '"' then _ else _) = _
    rw [hquoteByte, hnewlineByte]
    by_cases hquote : c = '"'
    · subst hquote
      rw [closeString_between_quote]
      rfl
    · by_cases hnewline : c = '\n'
      · subst hnewline
        rw [closeString_between_newline]
        simp only [beq_self_eq_true, if_true, beq_eq_false_iff_ne.2 hquote, Bool.false_eq_true,
          if_false]
        cases nextLine line with
        | error fault => rfl
        | ok below => exact (hpassed below).trans ih
      · rw [closeString_between_cons hquote hnewline, beq_eq_false_iff_ne.2 hquote,
          beq_eq_false_iff_ne.2 hnewline]
        exact (hpassed line).trans ih

end

namespace Scanner

/-- What a scanner makes of a reading: a token or nothing, and the scanner behind it. -/
def take (scanner : Scanner) (reading : Reading) : Except Fault (Option Token × Scanner) :=
  match reading.finding with
  | .token kind literal => do
    let token ← scanner.token reading kind literal
    return (some token, scanner.move reading)
  | .trivia => return (none, scanner.move reading)
  | .problem problem => do
    let recorded ← scanner.record reading problem
    return (none, recorded)

/-- Reads the lexeme ahead. -/
def lexeme (scanner : Scanner) : Except Fault (Option Token × Scanner) :=
  match scanner.cursor.step? with
  | none => return (some (.endOfFile scanner.line scanner.cursor.pos), scanner)
  | some (first, after) =>
    Reading.of scanner.cursor first after scanner.line >>= scanner.take

/-- A scanner reads lexemes up to the first that is a token. -/
theorem next_eq_lexeme (scanner : Scanner) : scanner.next =
    scanner.lexeme >>= fun found =>
      match found with
      | (some token, behind) => .ok (token, behind)
      | (none, behind) => behind.next := by
  rw [next_eq, lexeme]
  cases scanner.cursor.step? with
  | none => rfl
  | some found =>
    obtain ⟨first, after⟩ := found
    simp only
    cases Reading.of scanner.cursor first after scanner.line with
    | error fault => rfl
    | ok reading =>
      simp only [take, bind, Except.bind, pure, Except.pure]
      cases reading.finding with
      | token kind literal =>
        simp only
        cases scanner.token reading kind literal <;> rfl
      | trivia => rfl
      | problem problem =>
        simp only
        cases scanner.record reading problem <;> rfl

/-- Reads a string byte by byte, its opening quote passed. -/
def plainString (scanner : Scanner) (after : Cursor) : Except Fault (Option Token × Scanner) := do
  let start := scanner.cursor.pos
  let (closed, stop, line) ← walkString after scanner.line
  if closed then
    let behind ← stop.advance
    let content ← behind.slice (start + 1) (behind.pos - 1)
    let span ← Span.make start behind.pos
    let lexeme ← behind.slice start behind.pos
    return (some ⟨.string, String.ofList lexeme, .text (String.ofList content), scanner.line, span⟩,
      { scanner with cursor := behind, line })
  else
    let span ← Span.make start stop.pos
    return (none, { scanner with
      cursor := stop
      line
      diagnostics := scanner.diagnostics.push ⟨.unterminatedString, line, span⟩ })

/-- The scanners between two lexemes of a source, wherever in it they began. -/
inductive Underway (source : Source) : Scanner → Prop
  | start {cursor : Cursor} : Visited source cursor → Underway source (start cursor)
  | lexeme {scanner behind : Scanner} {found : Option Token} : Underway source scanner →
    scanner.lexeme = .ok (found, behind) → Underway source behind

section

variable {text : List Char} {pos line : Nat} {diagnostics : Array Diagnostic}

variable (text diagnostics) in
/-- With whole characters ahead, the lexeme is the first piece of them. -/
theorem lexeme_facing (c : Char) (rest : List Char) (hpos : pos + size (c :: rest) ≤ maxWord)
    (hline : line ≤ maxWord) :
    (facing text pos line diagnostics (c :: rest)).lexeme =
      if line + newlines (Cut.of c rest).text ≤ maxWord then
        .ok ((firstPlaced pos line c rest).token?, behind text pos line diagnostics c rest)
      else .error .addOverflow := by
  rw [lexeme, step?_facing]
  simp only [facing_cursor, facing_line, Reading.of_between text c rest hpos hline, Reading.ofCut]
  split
  · simp only [bind, Except.bind, pure, Except.pure, take]
    cases hfinding : (Cut.of c rest).finding with
    | token kind literal =>
      rw [token?_firstPlaced hfinding, behind, diagnostic?_firstPlaced_eq_none (by simp [hfinding])]
      simp only [token_facing, move_facing]
      rfl
    | trivia =>
      rw [token?_firstPlaced_eq_none (by simp [hfinding]), behind,
        diagnostic?_firstPlaced_eq_none (by simp [hfinding])]
      rfl
    | problem problem =>
      rw [token?_firstPlaced_eq_none (by simp [hfinding]), behind, diagnostic?_firstPlaced hfinding]
      simp only [record_facing]
      rfl
  · rfl

/-- The loop over bytes passes what is no quote and counts its newlines. -/
theorem walkString_append {content rest : List Char} (hcontent : '"' ∉ content)
    (hrest : rest = [] ∨ rest.head? = some '"') (hline : line ≤ maxWord) :
    walkString (between text pos (content ++ rest)) line =
      if line + newlines content ≤ maxWord then
        .ok (rest.head?.isSome, between text (pos + size content) rest, line + newlines content)
      else .error .addOverflow := by
  have htake : (content ++ rest).takeWhile (· != '"') = content := by
    rcases hrest with rfl | hrest
    · rw [List.append_nil, takeWhile_ne_of_notMem hcontent]
    · obtain ⟨behind, rfl⟩ := List.head?_eq_some_iff.1 hrest
      exact takeWhile_ne_append hcontent behind
  have hdrop : (content ++ rest).dropWhile (· != '"') = rest := by
    rcases hrest with rfl | hrest
    · rw [List.append_nil, dropWhile_ne_of_notMem hcontent]
    · obtain ⟨behind, rfl⟩ := List.head?_eq_some_iff.1 hrest
      exact dropWhile_ne_append hcontent behind
  rw [walkString_between, closeString_between _ hline, htake, hdrop]
  split <;> rfl

/-- An open string is read alike by jumps and by single bytes. -/
theorem lexeme_eq_plainString_of_open {content : List Char} (hcontent : '"' ∉ content)
    (hpos : pos + size ('"' :: content) ≤ maxWord) (hline : line ≤ maxWord) :
    (facing text pos line diagnostics ('"' :: content)).lexeme =
      (facing text pos line diagnostics ('"' :: content)).plainString
        (between text (pos + 1) content) := by
  have hcut := (FirstPiece.openString hcontent).eq_of
  have hcount : newlines ('"' :: content) = newlines content := newlines_cons_of_ne (by decide) _
  have hwalk := @walkString_append text (pos + 1) line content [] hcontent (Or.inl rfl) hline
  rw [List.append_nil] at hwalk
  rw [lexeme_facing text diagnostics _ _ hpos hline, plainString, facing_line, hwalk, ← hcut,
    hcount]
  split
  · have hstop : size ('"' :: content) = 1 + size content := size_cons '"' content
    have hspan : Span.make pos (pos + (1 + size content)) = .ok ⟨pos, pos + (1 + size content)⟩ :=
      (Span.make_eq_ok_iff _ _ _).2 ⟨Nat.le_add_right _ _, rfl⟩
    simp only [behind, firstPlaced, ← hcut, Placed.token?, Placed.diagnostic?, Placed.span, hstop,
      hcount, facing_cursor, Cursor.between_pos, bind, Except.bind, pure, Except.pure,
      List.head?_nil, Option.isSome_none, Bool.false_eq_true, if_false, Nat.add_assoc, hspan]
    rfl
  · rfl

/-- A closed string is read alike by jumps and by single bytes. -/
theorem lexeme_eq_plainString_of_closed {front content rest : List Char}
    (htext : text = front ++ '"' :: (content ++ '"' :: rest)) (hcontent : '"' ∉ content)
    (hpos : size front + size ('"' :: (content ++ '"' :: rest)) ≤ maxWord)
    (hline : line ≤ maxWord) :
    (facing text (size front) line diagnostics ('"' :: (content ++ '"' :: rest))).lexeme =
      (facing text (size front) line diagnostics ('"' :: (content ++ '"' :: rest))).plainString
        (between text (size front + 1) (content ++ '"' :: rest)) := by
  have hcut := (@FirstPiece.string content rest hcontent).eq_of
  have hcount : newlines ('"' :: content ++ ['"']) = newlines content := by
    simp [newlines_cons_of_ne (c := '"') (by decide)]
  have hwalk := @walkString_append text (size front + 1) line content ('"' :: rest) hcontent
    (Or.inr rfl) hline
  rw [lexeme_facing text diagnostics _ _ hpos hline, plainString, facing_line, hwalk, ← hcut,
    hcount]
  split
  · have hwidth : size ('"' :: content ++ ['"']) = size content + 2 := by
      simp only [List.cons_append, size_cons, size_append, size_nil]
      change 1 + (size content + (1 + 0)) = size content + 2
      omega
    have hadvance : (between text (size front + 1 + size content) ('"' :: rest)).advance =
        .ok (between text (size front + 1 + size content + 1) rest) :=
      Cursor.advance_between_ascii (by decide) rest
    have hvalue : (between text (size front + (size content + 2)) rest).slice (size front + 1)
        (size front + 1 + size content) = .ok content := by
      have hinner : (between text (size front + (size content + 2)) rest).text =
          (front ++ ['"']) ++ (content ++ '"' :: rest) := by simp [between, htext]
      have hslice := Cursor.slice_eq hinner
      rwa [size_append] at hslice
    have hlexeme : (between text (size front + (size content + 2)) rest).slice (size front)
        (size front + (size content + 2)) = .ok ('"' :: content ++ ['"']) := by
      have hwhole : (between text (size front + (size content + 2)) rest).text =
          front ++ (('"' :: content ++ ['"']) ++ rest) := by simp [between, htext]
      have hslice := Cursor.slice_eq hwhole
      rwa [hwidth] at hslice
    have hspan : Span.make (size front) (size front + (size content + 2)) =
        .ok ⟨size front, size front + (size content + 2)⟩ :=
      (Span.make_eq_ok_iff _ _ _).2 ⟨Nat.le_add_right _ _, rfl⟩
    have hstop : size front + 1 + size content + 1 = size front + (size content + 2) := by omega
    have hlast : size front + (size content + 2) - 1 = size front + 1 + size content := by omega
    rw [hstop] at hadvance
    simp only [bind, Except.bind, pure, Except.pure, List.head?_cons, Option.isSome_some, if_true,
      hadvance, facing_cursor, Cursor.between_pos, hlast, hvalue, hspan, hlexeme]
    simp only [behind, firstPlaced, ← hcut, Placed.token?, Placed.diagnostic?, Placed.span, hwidth,
      hcount]
    rfl
  · rfl

/-- A string is read alike by jumps and by single bytes. -/
theorem lexeme_eq_plainString (diagnostics : Array Diagnostic) {front rest : List Char}
    (htext : text = front ++ '"' :: rest)
    (hpos : size front + size ('"' :: rest) ≤ maxWord) (hline : line ≤ maxWord) :
    (facing text (size front) line diagnostics ('"' :: rest)).lexeme =
      (facing text (size front) line diagnostics ('"' :: rest)).plainString
        (between text (size front + 1) rest) := by
  by_cases hclosed : '"' ∈ rest
  · obtain ⟨content, behind, rfl, hcontent⟩ := List.eq_append_cons_of_mem hclosed
    exact lexeme_eq_plainString_of_closed htext hcontent hpos hline
  · exact lexeme_eq_plainString_of_open hclosed hpos hline

end

end Scanner

/-- No lexeme is read from inside a character. -/
theorem Reading.of_inside (start after : Cursor) {byte : UInt8} (line : Nat)
    (hpending : start.pending ≠ []) (hbyte : 128 ≤ byte.toNat) :
    ∃ fault, Reading.of start byte after line = .error fault := by
  have hopening : Opening.ofByte byte = .stray := by
    apply Opening.ofChar_of_not_ascii
    change 128 ≤ byte.toUInt32.toNat
    rwa [UInt8.toNat_toUInt32]
  rw [Reading.of, hopening]
  simp only [stray]
  cases after.advanceBy (leadWidth byte - 1) with
  | error fault => exact ⟨fault, rfl⟩
  | ok stop =>
    simp only [Cursor.textTo, bind, Except.bind]
    split_ifs with horder hempty
    · exact ⟨_, rfl⟩
    · exact ⟨_, rfl⟩
    · exact absurd (by simpa using hempty) hpending

namespace Scanner

variable {source : Source} {scanner : Scanner}

/-- A scanner on its way stands in the source, and newlines are counted or ahead. -/
theorem Underway.stands (h : Underway source scanner) (hlines : newlines source.text < maxWord) :
    Stands source.text scanner.cursor ∧
      scanner.line + newlines scanner.cursor.rest ≤ 1 + newlines source.text := by
  induction h with
  | @start cursor hcursor =>
    have hstands := Stands.of_visited hcursor
    obtain ⟨front, htext⟩ := hstands.exists_front
    refine ⟨hstands, ?_⟩
    rw [htext, newlines_append]
    simp only [Scanner.start]
    omega
  | @lexeme scanner behind found _ hlexeme ih =>
    obtain ⟨hstands, hcount⟩ := ih
    obtain ⟨cursor, line, diagnostics⟩ := scanner
    cases hstands with
    | @between front rest htext =>
      cases rest with
      | nil =>
        cases hlexeme
        exact ⟨.between htext, hcount⟩
      | cons c rest =>
        have hsize := source.size_le
        rw [htext, size_append] at hsize
        change line + newlines (c :: rest) ≤ _ at hcount
        rw [newlines_cons_eq_cut] at hcount
        have hline : line + newlines (Cut.of c rest).text ≤ maxWord := by omega
        have hfacing := lexeme_facing source.text diagnostics c rest hsize
          (by omega : line ≤ maxWord)
        rw [if_pos hline] at hfacing
        cases hfacing.symm.trans hlexeme
        rw [← Cut.text_of_append_rest c rest, ← List.append_assoc] at htext
        refine ⟨?_, ?_⟩
        · rw [Scanner.behind, facing_cursor, ← size_append]
          exact .between htext
        · change line + newlines (Cut.of c rest).text + newlines (Cut.of c rest).rest ≤ _
          omega
    | @inside front rest c passed pending htext htrail hpending =>
      cases pending with
      | nil => exact absurd rfl hpending
      | cons byte pending =>
        have hbyte : 128 ≤ byte.toNat :=
          (Stands.inside htext htrail hpending).le_toNat_of_mem_pending List.mem_cons_self
        obtain ⟨fault, hfault⟩ := Reading.of_inside
          ⟨source.text, size front + 1 + passed.length, byte :: pending, rest⟩
          ⟨source.text, size front + 1 + passed.length + 1, pending, rest⟩ line hpending hbyte
        simp only [Scanner.lexeme, Cursor.step?, hfault] at hlexeme
        cases hlexeme

/-- A scanner on its way in front of a quote. -/
theorem Underway.exists_facing {after : Cursor} (h : Underway source scanner)
    (hlines : newlines source.text < maxWord)
    (hquote : scanner.cursor.step? = some ('"'.toUInt8, after)) :
    ∃ front rest, source.text = front ++ '"' :: rest ∧
      after = between source.text (size front + 1) rest ∧
      scanner = facing source.text (size front) scanner.line scanner.diagnostics ('"' :: rest) ∧
      scanner.line + newlines rest ≤ maxWord := by
  obtain ⟨hstands, hcount⟩ := h.stands hlines
  obtain ⟨front, rest, htext, hcursor⟩ := hstands.eq_between (c := '"') (by decide) hquote
  obtain ⟨cursor, line, diagnostics⟩ := scanner
  obtain rfl : cursor = between source.text (size front) ('"' :: rest) := hcursor
  rw [Cursor.step?_between_ascii (by decide)] at hquote
  obtain ⟨-, hafter⟩ := Prod.mk.inj (Option.some.inj hquote)
  refine ⟨front, rest, htext, hafter.symm, rfl, ?_⟩
  rw [Cursor.between_rest, newlines_cons_of_ne (by decide)] at hcount
  simp only at hcount ⊢
  omega

end Scanner

/-- Reading a string by jumps leaves every scanner of a source as the loop over single bytes does,
with the same token or diagnostic. From every offset of the source, jumping to a newline leads where
single steps do, and both jumps end at the first byte that is sought. -/
theorem jumps_eq_walks (source : Source) (hlines : newlines source.text < maxWord) :
    (∀ scanner after, Scanner.Underway source scanner →
      scanner.cursor.step? = some ('"'.toUInt8, after) →
      ∃ found behind, scanner.lexeme = .ok (found, behind) ∧
        scanner.plainString after = .ok (found, behind)) ∧
    (∀ offset, (∃ cursor, Visited source cursor ∧ cursor.pos = offset) ↔ offset ≤ source.size) ∧
    (∀ cursor, Visited source cursor →
      cursor.walkTo (· == '\n'.toUInt8) = .ok cursor.toNewline ∧
      cursor.toNewline.pos = cursor.pos + cursor.upcoming.findIdx (· == '\n'.toUInt8) ∧
      cursor.toQuoteOrNewline.2.pos = cursor.pos +
        cursor.upcoming.findIdx fun byte => byte == '"'.toUInt8 || byte == '\n'.toUInt8) := by
  refine ⟨?_, Cursor.exists_visited_iff source, ?_⟩
  · intro scanner after hscanner hquote
    obtain ⟨front, rest, htext, rfl, hfacing, hline⟩ := hscanner.exists_facing hlines hquote
    have hsize := source.size_le
    rw [htext, size_append] at hsize
    have hword : scanner.line ≤ maxWord := by omega
    have hread := Scanner.lexeme_facing source.text scanner.diagnostics '"' rest hsize hword
    have hplain := Scanner.lexeme_eq_plainString scanner.diagnostics htext hsize hword
    have hcount : newlines (Cut.of '"' rest).text ≤ newlines rest := by
      have hsplit := newlines_cons_eq_cut '"' rest
      rw [newlines_cons_of_ne (by decide)] at hsplit
      omega
    rw [if_pos (by omega)] at hread
    rw [← hfacing] at hread hplain
    exact ⟨_, _, hread, hplain.symm.trans hread⟩
  · intro cursor hcursor
    have hstands := Stands.of_visited hcursor
    exact ⟨Cursor.walkTo_newline hstands, Cursor.pos_skipTo Cursor.seeks_newline hstands,
      Cursor.pos_skipTo Cursor.seeks_quoteOrNewline hstands⟩

/-- A string over two lines with a zero byte and a character of two bytes. -/
theorem jumps_eq_walks_of_zero_byte :
    ∃ token behind,
      (Scanner.start (between "\"\x00é\n\"".toList 0 "\"\x00é\n\"".toList)).plainString
        (between "\"\x00é\n\"".toList 1 "\x00é\n\"".toList) = .ok (some token, behind) ∧
      token.literal = .text "\x00é\n" ∧ behind.line = 2 ∧ behind.cursor.pos = 6 ∧
      (between "\"\x00é\n\"".toList 0 "\"\x00é\n\"".toList).toNewline.pos = 4 := by
  let source : Source := ⟨"\"\x00é\n\"".toList, by decide⟩
  obtain ⟨hstrings, -, hjumps⟩ := jumps_eq_walks source (by decide)
  obtain ⟨found, behind, hlexeme, hplain⟩ := hstrings (.start source.cursor)
    (between source.text 1 "\x00é\n\"".toList) (.start .start) rfl
  have hfacing := @Scanner.lexeme_facing source.text 0 1 #[] '"' "\x00é\n\"".toList (by decide)
    (by decide)
  cases hlexeme.symm.trans hfacing
  refine ⟨_, _, hplain, ?_, ?_, ?_, ?_⟩
  · rfl
  · rfl
  · rfl
  · exact (hjumps source.cursor .start).2.1.trans (by decide)

end LoxScan
