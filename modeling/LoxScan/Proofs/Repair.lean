import LoxScan.Proofs.TextLines

/-!
# Decoding an input at once

The prompt decodes every line on its own. Decoding the whole input first comes to the same: an
ill-formed sequence ends in front of a newline, and in front of a carriage return, so it takes up
no end of a line, and what is decoded once is not changed by decoding it again. Hence the lines of
the decoded input are the decoded lines of the input, and a session answers them alike, whatever
its streams are.
-/

namespace LoxScan.Prompt

open Utf8

/-- The bytes of the text that is read from bytes. -/
def repaired (bytes : List UInt8) : List UInt8 := encode (decodeLossy bytes)

section

variable {bytes line body : List UInt8} {c : Char}

/-- What is in front of an ASCII byte is repaired apart from what is behind it. -/
theorem repaired_append_ascii (hc : c.toNat < 128) (front rest : List UInt8) :
    repaired (front ++ lead c :: rest) = repaired front ++ lead c :: repaired rest := by
  rw [repaired, decodeLossy_append_ascii hc, encode_append, encode_cons, encodeChar_eq_cons,
    trail_of_ascii hc]
  rfl

/-- Lines are repaired one by one. -/
theorem repaired_append_newline (front rest : List UInt8) :
    repaired (front ++ newlineByte :: rest) = repaired front ++ newlineByte :: repaired rest :=
  repaired_append_ascii (c := '\n') (by decide) front rest

/-- Repairing puts no ASCII byte at the end. -/
theorem getLast?_repaired_ne (hc : c.toNat < 128) (h : bytes.getLast? ≠ some (lead c)) :
    (repaired bytes).getLast? ≠ some (lead c) := by
  refine getLast?_encode_ne hc fun hlast => h ?_
  exact (lossy_iff.2 rfl : Lossy bytes _).getLast? hc hlast

/-- A line that is repaired is still one line. -/
theorem newlineByte_notMem_repaired (h : newlineByte ∉ bytes) : newlineByte ∉ repaired bytes :=
  newlineByte_notMem_encode (mt newline_mem_of_mem_decodeLossy h)

/-- No byte is repaired away. -/
theorem repaired_eq_nil_iff : repaired bytes = [] ↔ bytes = [] := by
  constructor
  · intro h
    have htext : decodeLossy bytes = [] := encode_injective (h.trans encode_nil.symm)
    cases lossy_iff.2 htext
    rfl
  · rintro rfl
    rfl

/-- The lines of repaired bytes are the repaired lines. -/
theorem lines_repaired (bytes : List UInt8) :
    lines (repaired bytes) = (lines bytes).map repaired := by
  induction bytes using lines_induction newlineByte with
  | last line hline =>
    rw [lines_of_not_mem hline, lines_of_not_mem (newlineByte_notMem_repaired hline)]
    by_cases hnil : line = []
    · simp [hnil, repaired_eq_nil_iff.2]
    · simp [hnil, mt repaired_eq_nil_iff.1 hnil]
  | newline line rest hline ih =>
    have hfirst : repaired (line ++ [newlineByte]) = repaired line ++ [newlineByte] :=
      repaired_append_newline line []
    rw [repaired_append_newline, lines_append_newline (newlineByte_notMem_repaired hline),
      lines_append_newline hline, List.map_cons, hfirst, ih]

/-- Repairing makes no newline and loses none. -/
theorem count_newline_repaired (bytes : List UInt8) :
    (repaired bytes).count newlineByte = bytes.count newlineByte := by
  induction bytes using lines_induction newlineByte with
  | last line hline =>
    rw [List.count_eq_zero.2 hline, List.count_eq_zero.2 (newlineByte_notMem_repaired hline)]
  | newline line rest hline ih =>
    rw [repaired_append_newline, List.count_append, List.count_append, List.count_cons_self,
      List.count_cons_self, ih, List.count_eq_zero.2 hline,
      List.count_eq_zero.2 (newlineByte_notMem_repaired hline)]

/-- A line ends after repairing as before. -/
theorem Stripped.repaired (h : Stripped line body) : Stripped (repaired line) (repaired body) := by
  have hreturn : carriageReturn = lead '\r' := rfl
  cases h with
  | unended hlast => exact .unended (getLast?_repaired_ne (c := '\n') (by decide) hlast)
  | newline hlast =>
    rw [repaired_append_newline]
    exact .newline (getLast?_repaired_ne (c := '\r') (by decide) hlast)
  | returnNewline =>
    rw [hreturn, repaired_append_ascii (by decide) body [newlineByte]]
    exact .returnNewline _

/-- A line is the same source after repairing. -/
theorem source_repaired (line : List UInt8) : source (repaired line) = source line := by
  have hstripped : Stripped line (content line) := stripped_iff.2 rfl
  rw [source, stripped_iff.1 hstripped.repaired, Prompt.repaired, decodeLossy_encode, source]

end

/-- Whatever bytes a session is given, it is the same as on the text that is read from all of them
at once, line by line. -/
theorem run_repaired (bytes : List UInt8) :
    ∃ text, Lossy bytes text ∧
      lines (encode text) = (lines bytes).map (fun line => encode (decodeLossy line)) ∧
      (lines (encode text)).map source = (lines bytes).map source ∧
      (∀ breaksOff, run ⟨encode text, breaksOff⟩ = run ⟨bytes, breaksOff⟩) ∧
      ended (encode text) = ended bytes ∧ (Counted bytes → (ended bytes).result = .ok ()) := by
  have hrun := run_eq_of_lines_map (lines_repaired bytes) (count_newline_repaired bytes)
    fun line _ => by rw [answer, answer, source_repaired]
  have hsources : (lines (repaired bytes)).map source = (lines bytes).map source := by
    rw [lines_repaired, List.map_map]
    exact List.map_congr_left fun line _ => source_repaired line
  refine ⟨decodeLossy bytes, lossy_iff.2 rfl, lines_repaired bytes, hsources, hrun, ?_, ?_⟩
  · exact congrArg (fun session => Session.ending session {}) (hrun false)
  · intro hcounted
    rw [ended_eq hcounted]

/-- One sequence is cut short by a carriage return and a newline, the other by the end. -/
theorem run_repaired_of_cut_sequences :
    Counted [0xE2, 0x82, 0x0D, 0x0A, 0xF0, 0x9F] ∧
      Lossy [0xE2, 0x82, 0x0D, 0x0A, 0xF0, 0x9F] "\uFFFD\r\n\uFFFD".toList ∧
      ended [0xE2, 0x82, 0x0D, 0x0A, 0xF0, 0x9F] = ended (encode "\uFFFD\r\n\uFFFD".toList) ∧
      (ended [0xE2, 0x82, 0x0D, 0x0A, 0xF0, 0x9F]).result = .ok () ∧
      (ended [0xE2, 0x82, 0x0D, 0x0A, 0xF0, 0x9F]).err =
        encode ("[line 1] Error: Unexpected character.\n" ++
          "[line 1] Error: Unexpected character.\n").toList := by
  have hpieces : pieces "\uFFFD".toList =
      [⟨['\uFFFD'], .problem (.unexpectedCharacter '\uFFFD')⟩] := by
    simp [pieces_cons, Cut.of, Opening.ofChar]
  have hcounted : Counted [0xE2, 0x82, 0x0D, 0x0A, 0xF0, 0x9F] := by
    simp only [Counted, source, String.toList_ofList]
    decide
  have hlexings : lexingsOf [0xE2, 0x82, 0x0D, 0x0A, 0xF0, 0x9F] =
      [.of "\uFFFD".toList, .of "\uFFFD".toList] := by
    have hsources : sources [0xE2, 0x82, 0x0D, 0x0A, 0xF0, 0x9F] =
        ["\uFFFD".toList, "\uFFFD".toList] := by decide
    rw [lexingsOf_eq, hsources]
    rfl
  obtain ⟨text, htext, -, -, -, hended, hresult⟩ :=
    run_repaired [0xE2, 0x82, 0x0D, 0x0A, 0xF0, 0x9F]
  obtain rfl : text = "\uFFFD\r\n\uFFFD".toList := by
    rw [← lossy_iff.1 htext]
    decide
  refine ⟨hcounted, htext, hended.symm, hresult hcounted, ?_⟩
  rw [ended_eq hcounted, hlexings, Lexing.of, tokensFrom, diagnosticsFrom, placedPieces, hpieces]
  rfl

end LoxScan.Prompt
