import LoxScan.Proofs.Buffer
import LoxScan.Proofs.Lexing

/-!
# The run of a scanner

A scanner that has read any number of lexemes of a source stands between characters, and its line
counts the newlines that it has passed. From there it can read the lexeme ahead, unless a line in
it is no word, and every check that is made of the lexeme succeeds.
-/

namespace LoxScan

open Utf8
open Cursor (between Visited)

namespace Reading

variable {source : Source} {after : Cursor} {line : Nat} {reading : Reading}

/-- The search for a closing quote moves a cursor by its operations only. -/
theorem visited_closeString {cursor stop : Cursor} {below : Nat} {found : Option Char}
    (hcursor : Visited source cursor) (h : closeString cursor line = .ok (found, stop, below)) :
    Visited source stop := by
  fun_induction closeString cursor line with
  | case1 cursor line atNewline hjump next hadvance below' hline ih =>
    have hstop := hcursor.toQuoteOrNewline
    rw [hjump] at hstop
    exact ih (hstop.advance hadvance) h
  | case2 => cases h
  | case3 => cases h
  | case4 cursor line found stop _ hjump =>
    cases h
    have hstop := hcursor.toQuoteOrNewline
    rwa [hjump] at hstop

/-- A string ends where the scanner may be. -/
theorem visited_string (hafter : Visited source after) (h : string after line = .ok reading) :
    Visited source reading.stop := by
  unfold string at h
  split at h
  · cases h
  · next hclose =>
    cases h
    exact visited_closeString hafter hclose
  · next atQuote _ hclose =>
    obtain ⟨stop, hadvance, h⟩ := bind_eq_ok_iff.1 h
    obtain ⟨content, -, h⟩ := bind_eq_ok_iff.1 h
    cases h
    exact (visited_closeString hafter hclose).advance hadvance

/-- A numeral ends where the scanner may be. -/
theorem visited_numberEnd {stop : Cursor} (hafter : Visited source after)
    (h : numberEnd after = .ok stop) : Visited source stop := by
  have hwhole : Visited source (after.eatWhile isDigitByte) := hafter.eatWhile (by decide)
  unfold numberEnd at h
  simp only at h
  split at h
  · split at h
    · next point hadvance =>
      cases h
      exact (hwhole.advance hadvance).eatWhile (by decide)
    · cases h
  · cases h
    exact hwhole

/-- The reader moves a cursor by its operations only. -/
theorem visited_of {start : Cursor} {first : UInt8} (hstart : Visited source start)
    (hstep : start.step? = some (first, after))
    (h : Reading.of start first after line = .ok reading) :
    Visited source reading.stop := by
  have hafter : Visited source after := hstart.advance (by rw [Cursor.advance, hstep])
  unfold Reading.of at h
  split at h
  · cases h
    exact hafter
  · have heat := hafter.eat '='.toUInt8
    split at h <;> next hjump => cases h; rwa [hjump] at heat
  · have heat := hafter.eat '/'.toUInt8
    split at h
    · next hjump =>
      cases h
      rw [hjump] at heat
      exact heat.toNewline
    · next hjump =>
      cases h
      rwa [hjump] at heat
  · cases h
    exact hafter
  · split at h <;> cases h
    exact hafter
  · exact visited_string hafter h
  · obtain ⟨stop, hend, h⟩ := bind_eq_ok_iff.1 h
    obtain ⟨text, -, h⟩ := bind_eq_ok_iff.1 h
    split at h <;> cases h
    exact visited_numberEnd hafter hend
  · obtain ⟨text, -, h⟩ := bind_eq_ok_iff.1 h
    cases h
    exact hafter.eatWhile (by decide)
  · obtain ⟨stop, hadvance, h⟩ := bind_eq_ok_iff.1 h
    obtain ⟨text, -, h⟩ := bind_eq_ok_iff.1 h
    cases h
    exact hafter.advanceBy hadvance

end Reading

namespace Scanner

/-- The scanners that stand between two lexemes of a source. -/
inductive Reached (source : Source) : Scanner → Prop
  | start : Reached source (start source.cursor)
  | move {scanner : Scanner} {first : UInt8} {after : Cursor} {reading : Reading} :
    Reached source scanner → scanner.cursor.step? = some (first, after) →
    Reading.of scanner.cursor first after scanner.line = .ok reading →
    Reached source (scanner.move reading)
  | record {scanner recorded : Scanner} {first : UInt8} {after : Cursor} {reading : Reading}
    {problem : Problem} : Reached source scanner →
    scanner.cursor.step? = some (first, after) →
    Reading.of scanner.cursor first after scanner.line = .ok reading →
    scanner.record reading problem = .ok recorded → Reached source recorded

namespace Reached

variable {source : Source} {scanner behind : Scanner}

/-- Handing out a token leads from one such scanner to another. -/
theorem next {token : Token} (h : Reached source scanner)
    (hnext : scanner.next = .ok (token, behind)) : Reached source behind := by
  fun_induction Scanner.next scanner with
  | case1 =>
    cases hnext
    exact h
  | case2 => cases hnext
  | case3 scanner first after hstep reading hreading kind literal hfinding found htoken =>
    cases hnext
    exact h.move hstep hreading
  | case4 => cases hnext
  | case5 scanner first after hstep reading hreading hfinding ih =>
    exact ih (h.move hstep hreading) hnext
  | case6 scanner first after hstep reading hreading problem hfinding recorded hrecord ih =>
    exact ih (h.record hstep hreading hrecord) hnext
  | case7 => cases hnext

/-- The cursor of a scanner was moved by its operations only. -/
theorem visited (h : Reached source scanner) : Visited source scanner.cursor := by
  induction h with
  | start => exact .start
  | move _ hstep hreading ih => exact Reading.visited_of ih hstep hreading
  | record _ hstep hreading hrecord ih =>
    rw [cursor_record hrecord]
    exact Reading.visited_of ih hstep hreading

end Reached

/-- Where whole characters are ahead, reading finds the first piece of the text ahead. -/
theorem of_facing {text rest : List Char} {pos line : Nat} {diagnostics : Array Diagnostic}
    {first : UInt8} {after : Cursor} (hpos : pos + size rest ≤ maxWord) (hline : line ≤ maxWord)
    (hstep : (facing text pos line diagnostics rest).cursor.step? = some (first, after)) :
    ∃ c behind, rest = c :: behind ∧
      Reading.of (facing text pos line diagnostics rest).cursor first after line =
        Reading.ofCut text pos line (Cut.of c behind) := by
  cases rest with
  | nil => cases hstep
  | cons c behind =>
    rw [step?_facing] at hstep
    cases hstep
    exact ⟨c, behind, rfl, Reading.of_between text c behind hpos hline⟩

/-- A scanner that has passed some of a source and has the rest of it ahead. -/
inductive Passed (source : Source) : Scanner → Prop
  | mk {front rest : List Char} {diagnostics : Array Diagnostic} :
    source.text = front ++ rest → 1 + newlines front ≤ maxWord →
    Passed source (facing source.text (size front) (1 + newlines front) diagnostics rest)

namespace Passed

variable {source : Source} {scanner : Scanner} {first : UInt8} {after : Cursor}
  {reading : Reading}

/-- Reading a lexeme passes one more piece. -/
theorem move (h : Passed source scanner)
    (hstep : scanner.cursor.step? = some (first, after))
    (hreading : Reading.of scanner.cursor first after scanner.line = .ok reading)
    (diagnostics : Array Diagnostic) :
    Passed source ⟨reading.stop, reading.line, diagnostics⟩ := by
  cases h with
  | @mk front rest _ htext hline =>
    have hpos : size front + size rest ≤ maxWord := by
      rw [← size_append, ← htext]
      exact source.size_le
    obtain ⟨c, behind, rfl, hcut⟩ := of_facing hpos hline hstep
    have hread := hcut.symm.trans hreading
    unfold Reading.ofCut at hread
    split at hread
    · next hbelow =>
      cases hread
      have hsplit : source.text = (front ++ (Cut.of c behind).text) ++ (Cut.of c behind).rest := by
        rw [List.append_assoc, Cut.text_of_append_rest, htext]
      have hpassed : Passed source (facing _ _ _ diagnostics _) := .mk hsplit (by
        rw [newlines_append, ← Nat.add_assoc]
        exact hbelow)
      rwa [size_append, newlines_append, ← Nat.add_assoc] at hpassed
    · cases hread

end Passed

/-- A scanner that is reached has whole characters in front of it and behind it. -/
theorem Reached.passed {source : Source} {scanner : Scanner} (h : Reached source scanner) :
    Passed source scanner := by
  induction h with
  | start =>
    have hpassed : Passed source (facing source.text _ _ #[] _) := .mk (List.nil_append _).symm
      (by decide)
    exact hpassed
  | move _ hstep hreading ih => exact ih.move hstep hreading _
  | record _ hstep hreading hrecord ih =>
    obtain ⟨span, -, h⟩ := bind_eq_ok_iff.1 hrecord
    cases h
    exact ih.move hstep hreading _

end Scanner

end LoxScan
