import LoxScan.Proofs.Reached
import LoxScan.Proofs.Tiles

/-!
# When lexing has no result

Lexing has a result for every source but one: that of as many newlines as offsets can count, in
which the line after the last newline is no word. On the way through any other source, bytes are
read from the buffer only, every lexeme takes at least one byte, and every slice is a part of the
source.
-/

namespace LoxScan

open Utf8
open Cursor (between Visited)

/-- Every character takes a byte. -/
theorem length_le_size (text : List Char) : text.length ≤ size text := by
  induction text with
  | nil => simp
  | cons c text ih =>
    have hpos := c.utf8Size_pos
    rw [List.length_cons, size_cons]
    omega

/-- Newlines take one byte each. -/
theorem size_replicate_newline (count : Nat) : size (List.replicate count '\n') = count := by
  induction count with
  | zero => rfl
  | succ count ih =>
    rw [List.replicate_succ, size_cons, ih, Nat.add_comm]
    rfl

/-- A text with as many newlines as it has bytes has nothing else. -/
theorem newlines_eq_size_iff (text : List Char) :
    newlines text = size text ↔ text = List.replicate (size text) '\n' := by
  constructor
  · intro h
    have hcount : newlines text = text.length :=
      Nat.le_antisymm List.count_le_length (h ▸ length_le_size text)
    rw [← h, hcount]
    exact List.eq_replicate_of_mem fun c hc => (List.count_eq_length.1 hcount c hc).symm
  · intro h
    rw [h, size_replicate_newline, newlines, List.count_replicate_self]

/-- In a source, only newlines can be as many as offsets can count. -/
theorem maxWord_le_newlines_iff {text : List Char} (hsize : size text ≤ maxWord) :
    maxWord ≤ newlines text ↔ text = List.replicate maxWord '\n' := by
  have hle : newlines text ≤ size text := List.count_le_length.trans (length_le_size text)
  constructor
  · intro h
    have hall : size text = maxWord := by omega
    rw [← hall]
    exact (newlines_eq_size_iff text).1 (by omega)
  · intro h
    rw [h, newlines, List.count_replicate_self]

/-- Slicing succeeds on a part of the text. -/
theorem Cursor.slice_eq {cursor : Cursor} {before part rest : List Char}
    (h : cursor.text = before ++ (part ++ rest)) :
    cursor.slice (size before) (size before + size part) = .ok part := by
  have hpart := Span.slice?_append before part rest
  rw [Span.slice?] at hpart
  rw [slice, h, hpart, if_neg, if_neg]
  · simp
  · simp only [size_append]
    omega

/-- A lexeme read from an offset, of which a token or a diagnostic can be made. -/
structure Reading.Sound (reading : Reading) (pos : Nat) : Prop where
  progress : pos < reading.stop.pos
  span : Span.make pos reading.stop.pos = .ok ⟨pos, reading.stop.pos⟩
  lexeme : ∃ lexeme, reading.stop.sliceFrom pos = .ok lexeme
  /-- The content of a string is its lexeme without the quotes. -/
  content : ∀ content, reading.finding = .token .string (.text content) →
    reading.stop.slice (pos + 1) (reading.stop.pos - 1) = .ok content.toList

/-- A scanner from which the lexeme ahead can be read. -/
structure Scanner.Ready (source : Source) (scanner : Scanner) : Prop where
  /-- The cursor was moved by its operations only. -/
  visited : Visited source scanner.cursor
  /-- The position is between characters, and the line counts the newlines in front of it. -/
  passed : ∃ front rest, source.text = front ++ rest ∧ scanner.cursor.pos = size front ∧
    scanner.line = 1 + newlines front
  line_le : scanner.line ≤ maxWord
  reading : ∀ first after, scanner.cursor.step? = some (first, after) →
    ∃ reading, Reading.of scanner.cursor first after scanner.line = .ok reading ∧
      reading.Sound scanner.cursor.pos

/-- A piece that is a string has its content between quotes. -/
theorem Cut.text_of_string {c : Char} {text : List Char} {content : String}
    (h : (of c text).finding = .token .string (.text content)) :
    (of c text).text = '"' :: content.toList ++ ['"'] := by
  have hfirst := FirstPiece.of c text
  generalize of c text = cut at h hfirst
  cases hfirst with
  | string hcontent =>
    cases h
    rw [String.toList_ofList]
  | _ => simp at h

/-- The first piece of what is ahead can be made a token or a diagnostic. -/
theorem Reading.sound_of_cut {text front rest : List Char} {c : Char} (line : Nat)
    (htext : text = front ++ c :: rest) :
    (⟨between text (size front + size (Cut.of c rest).text) (Cut.of c rest).rest, line,
      (Cut.of c rest).finding⟩ : Reading).Sound (size front) := by
  rw [← Cut.text_of_append_rest c rest] at htext
  constructor
  case progress =>
    obtain ⟨tail, htail⟩ := Cut.text_of_eq_cons c rest
    have hpos := c.utf8Size_pos
    simp only [Cursor.between_pos, htail, size_cons]
    omega
  case span => exact (Span.make_eq_ok_iff _ _ _).2 ⟨Nat.le_add_right _ _, rfl⟩
  case lexeme => exact ⟨(Cut.of c rest).text, Cursor.slice_eq htext⟩
  case content =>
    intro content hfinding
    have hstring := Cut.text_of_string hfinding
    have hinner : text = (front ++ ['"']) ++ (content.toList ++ '"' :: (Cut.of c rest).rest) := by
      simpa [hstring] using htext
    have hstart : size (front ++ ['"']) = size front + 1 := size_append front ['"']
    have hstop : size (Cut.of c rest).text = 1 + size content.toList + 1 := by
      rw [hstring, size_append, size_cons]
      rfl
    have hslice : (between text (size front + size (Cut.of c rest).text)
        (Cut.of c rest).rest).slice (size (front ++ ['"']))
          (size (front ++ ['"']) + size content.toList) = .ok content.toList :=
      Cursor.slice_eq hinner
    rw [hstart, Nat.add_assoc, ← Nat.add_sub_cancel (size front + (1 + size content.toList)) 1,
      Nat.add_assoc (size front), ← hstop] at hslice
    exact hslice

/-- From every scanner that is reached the lexeme ahead can be read. -/
theorem Scanner.Reached.ready {source : Source} {scanner : Scanner}
    (h : Reached source scanner) (hlines : newlines source.text < maxWord) :
    scanner.Ready source := by
  have hvisited := h.visited
  cases h.passed with
  | @mk front rest diagnostics htext hline =>
    have hpos : size front + size rest ≤ maxWord := by
      rw [← size_append, ← htext]
      exact source.size_le
    refine ⟨hvisited, ⟨front, rest, htext, rfl, rfl⟩, hline, ?_⟩
    intro first after hstep
    obtain ⟨c, behind, rfl, hcut⟩ := of_facing hpos hline hstep
    rw [htext, newlines_append, newlines_cons_eq_cut] at hlines
    exact ⟨_, hcut.trans (if_pos (by omega)), Reading.sound_of_cut _ htext⟩

/-- The only fault is that of too many newlines. -/
theorem lex_eq_error_iff (text : String) (hsize : size text.toList ≤ maxWord) (fault : Fault) :
    lex text = .error fault ↔
      fault = .addOverflow ∧ text.toList = List.replicate maxWord '\n' := by
  rw [lex_eq text hsize, ← maxWord_le_newlines_iff hsize]
  split
  · next hlines => simpa using fun _ => hlines
  · next hlines => simp [Nat.not_lt.1 hlines, eq_comm]

/-- Lexing has no result exactly for the source of as many newlines as offsets can count. No
operation takes a cursor out of its buffer, and in every other source each lexeme can be read. -/
theorem lex_faultless (text : String) (hsize : size text.toList ≤ maxWord) :
    (∀ fault, lex text = .error fault ↔
      fault = .addOverflow ∧ text.toList = List.replicate maxWord '\n') ∧
    (∀ cursor, Visited ⟨text.toList, hsize⟩ cursor → cursor.InBuffer text.toList) ∧
    (text.toList ≠ List.replicate maxWord '\n' →
      ∀ scanner, Scanner.Reached ⟨text.toList, hsize⟩ scanner →
        scanner.Ready ⟨text.toList, hsize⟩) := by
  refine ⟨lex_eq_error_iff text hsize, fun cursor hcursor => hcursor.inText.inBuffer, ?_⟩
  intro hne scanner hscanner
  apply hscanner.ready
  rwa [Ne, ← maxWord_le_newlines_iff hsize, Nat.not_le] at hne

/-- The one source that has no lexing, and one with strings over lines, zero bytes and characters
of several bytes that has. -/
theorem lex_faults_on_newlines :
    lex (String.ofList (List.replicate maxWord '\n')) = .error .addOverflow ∧
      ∀ fault, lex "\"\x00\né" ≠ .error fault := by
  have hnewlines := lex_faultless (String.ofList (List.replicate maxWord '\n'))
    (by rw [String.toList_ofList, size_replicate_newline])
  have hstring := lex_faultless "\"\x00\né" (by decide)
  refine ⟨(hnewlines.1 _).2 ⟨rfl, String.toList_ofList⟩, fun fault hfault => ?_⟩
  have hall := ((hstring.1 fault).1 hfault).2
  have hquote : '"' ∈ "\"\x00\né".toList := by decide
  rw [hall] at hquote
  cases List.eq_of_mem_replicate hquote

end LoxScan
