import LoxScan.Proofs.Sessions

/-!
# Lines of a text

A text has lines between its newlines. Given as bytes to the prompt, it is read as these lines, each
without a carriage return that the newline follows; an empty last line is none.
-/

namespace LoxScan

open Utf8

/-- A text, or bytes, are a line, or a line in front of a newline and more. -/
theorem lines_induction {α : Type} (ending : α) {motive : List α → Prop}
    (last : ∀ line, ending ∉ line → motive line)
    (newline : ∀ line rest, ending ∉ line → motive rest → motive (line ++ ending :: rest))
    (text : List α) : motive text := by
  induction hlength : text.length using Nat.strongRecOn generalizing text with
  | _ length ih =>
    by_cases h : ending ∈ text
    · obtain ⟨line, rest, rfl, hline⟩ := List.eq_append_cons_of_mem h
      rw [List.length_append, List.length_cons] at hlength
      exact newline line rest hline (ih rest.length (by omega) rest rfl)
    · exact last text h

section

variable {line : List Char}

/-- A text without newlines is one line. -/
theorem splitOn_of_notMem (h : '\n' ∉ line) : line.splitOn '\n' = [line] := by
  rw [List.splitOn_eq_splitOnP, List.splitOnP_eq_singleton]
  intro c hc
  simpa using ne_of_mem_of_not_mem hc h

/-- The first line of a text ends at its first newline. -/
theorem splitOn_append_newline (h : '\n' ∉ line) (rest : List Char) :
    (line ++ '\n' :: rest).splitOn '\n' = line :: rest.splitOn '\n' := by
  have hline := splitOn_of_notMem h
  rw [List.splitOn_eq_splitOnP] at hline ⊢
  rw [List.splitOnP_append_cons line rest (by simp), hline]
  rfl

end

/-- A line of a text has no newline and fits where the text does. -/
theorem of_mem_splitOn {text line : List Char} (h : line ∈ text.splitOn '\n') :
    '\n' ∉ line ∧ size line ≤ size text := by
  induction text using lines_induction '\n' with
  | last text htext =>
    rw [splitOn_of_notMem htext] at h
    obtain rfl := List.mem_singleton.1 h
    exact ⟨htext, Nat.le_refl _⟩
  | newline first rest hfirst ih =>
    rw [splitOn_append_newline hfirst] at h
    rw [size_append, size_cons]
    rcases List.mem_cons.1 h with rfl | h
    · exact ⟨hfirst, by omega⟩
    · obtain ⟨hline, hle⟩ := ih h
      exact ⟨hline, by omega⟩

namespace Prompt

/-- The sources that the lines of bytes are. -/
def sources (bytes : List UInt8) : List (List Char) :=
  (lines bytes).map fun line => (source line).toList

/-- A session lexes the sources of its lines. -/
theorem lexingsOf_eq (bytes : List UInt8) : lexingsOf bytes = (sources bytes).map Lexing.of := by
  rw [sources, List.map_map]
  rfl

section

variable {line : List Char}

/-- Only newlines are encoded with a newline byte. -/
theorem newlineByte_notMem_encode (h : '\n' ∉ line) : newlineByte ∉ encode line := by
  rw [← List.count_eq_zero]
  exact (count_encode line).trans (newlines_eq_zero h)

/-- An encoding ends in the byte of an ASCII character only where the text does in one. -/
theorem getLast?_encode_ne {c : Char} (hc : c.toNat < 128) (h : line.getLast? ≠ some c) :
    (encode line).getLast? ≠ some (lead c) := by
  intro hlast
  rcases List.eq_nil_or_concat line with rfl | ⟨front, d, rfl⟩
  · simp at hlast
  · rw [List.concat_eq_append] at h hlast
    rw [encode_append, encode_cons, encode_nil, List.append_nil,
      List.getLast?_append_of_ne_nil _ (encodeChar_ne_nil d)] at hlast
    have hd : d = c := (lead_mem_encodeChar_iff hc).1 (List.mem_of_getLast? hlast)
    exact h (by rw [List.getLast?_concat, hd])

/-- The source of a line that encodes a text is the text. -/
theorem toList_source_encode {bytes : List UInt8} {text : List Char}
    (h : Stripped bytes (encode text)) : (source bytes).toList = text := by
  rw [source, String.toList_ofList, stripped_iff.1 h, decodeLossy_encode]

/-- A last line without a newline is read if it is not empty. -/
theorem sources_encode (h : '\n' ∉ line) :
    sources (encode line) = if line = [] then [] else [line] := by
  have hbytes := newlineByte_notMem_encode h
  split
  · next hnil =>
    rw [hnil]
    rfl
  · next hne =>
    have hunended : (encode line).getLast? ≠ some newlineByte :=
      fun hlast => hbytes (List.mem_of_getLast? hlast)
    have hempty : encode line ≠ [] :=
      fun hnil => hne (encode_injective (hnil.trans encode_nil.symm))
    have hline : lines (encode line) = [encode line] :=
      lines_of_not_mem_dropLast hempty fun hmem => hbytes (List.dropLast_subset _ hmem)
    rw [sources, hline, List.map_singleton, toList_source_encode (.unended hunended)]

/-- A line is read without the newline that ends it, and one carriage return before that. -/
theorem sources_encode_append_newline (h : '\n' ∉ line) (rest : List Char) :
    ∃ body, (line = body ∨ line = body ++ ['\r']) ∧
      sources (encode (line ++ '\n' :: rest)) = body :: sources (encode rest) := by
  have hlines : lines (encode (line ++ '\n' :: rest)) =
      (encode line ++ [newlineByte]) :: lines (encode rest) := by
    rw [encode_append, encode_cons]
    exact lines_append_newline (newlineByte_notMem_encode h) (encode rest)
  obtain ⟨body, hbody, hstripped⟩ : ∃ body, (line = body ∨ line = body ++ ['\r']) ∧
      Stripped (encode line ++ [newlineByte]) (encode body) := by
    by_cases hreturn : line.getLast? = some '\r'
    · obtain ⟨body, rfl⟩ := List.getLast?_eq_some_iff.1 hreturn
      refine ⟨body, Or.inr rfl, ?_⟩
      rw [encode_append, List.append_assoc]
      exact .returnNewline (encode body)
    · exact ⟨line, Or.inl rfl, .newline (getLast?_encode_ne (by decide) hreturn)⟩
  refine ⟨body, hbody, ?_⟩
  rw [sources, hlines, List.map_cons, toList_source_encode hstripped]
  rfl

end

/-- The sources that the lines of a text are fit where the text does. -/
theorem size_le_of_mem_sources {text body : List Char} (h : body ∈ sources (encode text)) :
    size body ≤ size text := by
  induction text using lines_induction '\n' with
  | last line hline =>
    rw [sources_encode hline] at h
    split at h
    · cases h
    · rw [List.mem_singleton.1 h]
  | newline line rest hline ih =>
    obtain ⟨first, hfirst, hsources⟩ := sources_encode_append_newline hline rest
    rw [hsources] at h
    rw [size_append, size_cons]
    rcases List.mem_cons.1 h with rfl | h
    · have hle : size body ≤ size line := by
        rcases hfirst with rfl | rfl <;> simp
      omega
    · have hle := ih h
      omega

/-- The lines of a text can be counted if its size is a word. -/
theorem counted_encode {text : List Char} (h : size text ≤ maxWord) : Counted (encode text) := by
  intro line hline
  exact Nat.le_trans (size_le_of_mem_sources (List.mem_map_of_mem hline)) h

end Prompt

end LoxScan
