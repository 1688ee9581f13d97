import LoxScan.Proofs.IllFormed
import LoxScan.Proofs.LineNumbers
import LoxScan.Proofs.Transcript

/-!
# Sessions one after the other

A session at the prompt carries nothing from one line to the next: what it writes for lines is what
it would write for the first of them, and then for the others, in sessions of their own. A session
on one line writes what reading that line as a source does. So an open string or a comment ends
with its line, and every line is the first of its source.
-/

namespace LoxScan.Prompt

open Utf8

/-- How a session ends that is served all of an input and writes to streams without limits. -/
def ended (bytes : List UInt8) : Ending Unit := (run ⟨bytes, false⟩).ending {}

/-- Whether the sources that the lines of bytes are can be counted. -/
def Counted (bytes : List UInt8) : Prop :=
  ∀ line ∈ lines bytes, size (source line).toList ≤ maxWord

section

variable {front back bytes : List UInt8}

/-- Inputs divided behind a newline are counted in parts. -/
theorem counted_append (h : front = [] ∨ front.getLast? = some newlineByte) :
    Counted (front ++ back) ↔ Counted front ∧ Counted back := by
  rw [Counted, lines_append h, List.forall_mem_append]
  rfl

/-- Inputs divided behind a newline are lexed in parts. -/
theorem lexingsOf_append (h : front = [] ∨ front.getLast? = some newlineByte) :
    lexingsOf (front ++ back) = lexingsOf front ++ lexingsOf back := by
  rw [lexingsOf, lines_append h, List.map_append]
  rfl

/-- What a session writes if its lines can be lexed. -/
theorem ended_eq (h : Counted bytes) : ended bytes =
    ⟨.ok (), printed (lexingsOf bytes) ++ (mark ++ [newlineByte]), reported (lexingsOf bytes)⟩ :=
  ending_run_unlimited (lexed_lexingsOf h)

/-- What a session on two inputs writes, if the first ends with a line. -/
theorem ended_append (h : Counted (front ++ back))
    (hfront : front = [] ∨ front.getLast? = some newlineByte) :
    ∃ out, ended front = ⟨.ok (), out ++ (mark ++ [newlineByte]), (ended front).err⟩ ∧
      ended (front ++ back) =
        ⟨.ok (), out ++ (ended back).out, (ended front).err ++ (ended back).err⟩ := by
  obtain ⟨hfirst, hsecond⟩ := (counted_append hfront).1 h
  refine ⟨printed (lexingsOf front), ?_⟩
  rw [ended_eq h, ended_eq hfirst, ended_eq hsecond, lexingsOf_append hfront]
  simp [printed, reported]

/-- A session on one line writes what reading its contents as a source does. -/
theorem ended_of_line (h : Counted bytes) (hne : bytes ≠ [])
    (hline : newlineByte ∉ bytes.dropLast) :
    ∃ body text outcome listing, Stripped bytes body ∧ Lossy body text ∧
      (Session.scan (String.ofList text)).ending {} = ⟨.ok outcome, listing, (ended bytes).err⟩ ∧
      (ended bytes).out = mark ++ listing ++ (mark ++ [newlineByte]) := by
  have hlines := lines_of_not_mem_dropLast hne hline
  have hlexings : lexingsOf bytes = [.of (source bytes).toList] := by
    rw [lexingsOf, hlines, List.map_singleton]
  have hlexed : Lexed bytes (lexingsOf bytes) := lexed_lexingsOf h
  rw [Lexed, hlines, hlexings] at hlexed
  have hlexing : lex (source bytes) = .ok (.of (source bytes).toList) := by simpa using hlexed
  have hscan := Session.ending_scan_unlimited hlexing
  have hended : ended bytes = ⟨.ok (), mark ++ (Lexing.of (source bytes).toList).listing ++
      (mark ++ [newlineByte]), (Lexing.of (source bytes).toList).report⟩ := by
    rw [ended_eq h, hlexings]
    simp [printed, reported]
  rw [hended]
  exact ⟨_, _, _, _, stripped_iff.2 rfl, lossy_iff.2 rfl, hscan, rfl⟩

end

/-- Every line of a session is the first one of its source. -/
theorem line_of_mem_lexingsOf {bytes : List UInt8} {lexing : Lexing} {diagnostic : Diagnostic}
    (h : lexing ∈ lexingsOf bytes) (hdiagnostic : diagnostic ∈ lexing.diagnostics) :
    diagnostic.line = 1 := by
  obtain ⟨line, hline, rfl⟩ := List.mem_map.1 h
  exact line_of_mem_diagnosticsFrom (newlines_source hline) hdiagnostic

/-- The line on which a problem on the first line of a source is reported. -/
theorem reported_of_line_eq_one {diagnostic : Diagnostic} (h : diagnostic.line = 1) :
    diagnostic.reported = encode "[line 1] Error: ".toList ++
      (encode diagnostic.problem.told.toList ++ [newlineByte]) := by
  have hnewline : encode "\n".toList = [newlineByte] := rfl
  have hone : "[line " ++ toString 1 ++ "] Error: " = "[line 1] Error: " := rfl
  rw [Diagnostic.reported, h, hone, String.toList_append, String.toList_append, encode_append,
    encode_append, hnewline, List.append_assoc]

/-- A reported problem is one line. -/
theorem newline_not_mem_dropLast_reported (problem : Problem) :
    newlineByte ∉ (encode "[line 1] Error: ".toList ++
      (encode problem.told.toList ++ [newlineByte])).dropLast := by
  rw [← List.append_assoc, List.dropLast_concat]
  cases problem with
  | unterminatedString => decide
  | unexpectedCharacter found =>
    change newlineByte ∉ _ ++ encode "Unexpected character.".toList
    decide

/-- Every line that a session reports is the first one. -/
theorem prefix_of_mem_lines_reported (bytes : List UInt8) :
    ∀ line ∈ lines (reported (lexingsOf bytes)), encode "[line 1] Error: ".toList <+: line := by
  have hone : ∀ diagnostic ∈ (lexingsOf bytes).flatMap (·.diagnostics), diagnostic.line = 1 := by
    intro diagnostic hdiagnostic
    obtain ⟨lexing, hlexing, hdiagnostic⟩ := List.mem_flatMap.1 hdiagnostic
    exact line_of_mem_lexingsOf hlexing hdiagnostic
  have hreported : reported (lexingsOf bytes) =
      ((lexingsOf bytes).flatMap (·.diagnostics)).flatMap Diagnostic.reported := by
    rw [List.flatMap_assoc]
    rfl
  have hlines : lines (reported (lexingsOf bytes)) =
      ((lexingsOf bytes).flatMap (·.diagnostics)).map Diagnostic.reported := by
    rw [hreported]
    refine lines_flatMap fun diagnostic hdiagnostic => ?_
    rw [reported_of_line_eq_one (hone diagnostic hdiagnostic)]
    exact ⟨by simp, newline_not_mem_dropLast_reported diagnostic.problem⟩
  intro line hline
  rw [hlines] at hline
  obtain ⟨diagnostic, hdiagnostic, rfl⟩ := List.mem_map.1 hline
  rw [reported_of_line_eq_one (hone diagnostic hdiagnostic)]
  exact List.prefix_append _ _

/-- However an input is divided behind a newline, a session on it is one on the first part, but for
the last mark, and then one on the second. On one line it writes what reading the contents of the
line does, with a mark in front and one behind. Whatever the lines are, each is reported as the
first. -/
theorem run_append (bytes : List UInt8) (h : Counted bytes) :
    (ended bytes).result = .ok () ∧
      (∀ front back, front ++ back = bytes → front = [] ∨ front.getLast? = some newlineByte →
        ∃ out, ended front = ⟨.ok (), out ++ (mark ++ [newlineByte]), (ended front).err⟩ ∧
          ended bytes =
            ⟨.ok (), out ++ (ended back).out, (ended front).err ++ (ended back).err⟩) ∧
      (bytes ≠ [] → newlineByte ∉ bytes.dropLast →
        ∃ body text outcome listing, Stripped bytes body ∧ Lossy body text ∧
          (Session.scan (String.ofList text)).ending {} =
            ⟨.ok outcome, listing, (ended bytes).err⟩ ∧
          (ended bytes).out = mark ++ listing ++ (mark ++ [newlineByte])) ∧
      ∀ line ∈ lines (ended bytes).err, encode "[line 1] Error: ".toList <+: line := by
  refine ⟨by rw [ended_eq h], ?_, fun hne hline => ended_of_line h hne hline, ?_⟩
  · rintro front back rfl hfront
    exact ended_append h hfront
  · rw [ended_eq h]
    exact prefix_of_mem_lines_reported bytes

/-- A string that is left open, with a byte that encodes nothing, and a stray character on the next
line. -/
theorem run_append_of_open_string :
    Counted [0x22, 0xFF, 0x0D, 0x0A, 0x40] ∧
      (ended [0x22, 0xFF, 0x0D, 0x0A]).err =
        encode "[line 1] Error: Unterminated string.\n".toList ∧
      ended [0x22, 0xFF, 0x0D, 0x0A, 0x40] =
        ⟨.ok (), encode "> END_OF_FILE  \n> END_OF_FILE  \n> \n".toList,
          encode ("[line 1] Error: Unterminated string.\n" ++
            "[line 1] Error: Unexpected character.\n").toList⟩ := by
  have hfirst : pieces "\"\uFFFD".toList = [⟨['"', '\uFFFD'], .problem .unterminatedString⟩] := by
    simp [pieces_cons, Cut.of, Opening.ofChar, Cut.string]
  have hsecond : pieces "@".toList = [⟨['@'], .problem (.unexpectedCharacter '@')⟩] := by
    simp [pieces_cons, Cut.of, Opening.ofChar]
  have hcounted : Counted [0x22, 0xFF, 0x0D, 0x0A, 0x40] := by
    simp only [Counted, source, String.toList_ofList]
    decide
  have hparts : Counted [0x22, 0xFF, 0x0D, 0x0A] ∧ Counted [0x40] :=
    (counted_append (Or.inr rfl)).1 hcounted
  have hfront : ended [0x22, 0xFF, 0x0D, 0x0A] =
      ⟨.ok (), encode "> END_OF_FILE  \n> \n".toList,
        encode "[line 1] Error: Unterminated string.\n".toList⟩ := by
    have hlexings : lexingsOf [0x22, 0xFF, 0x0D, 0x0A] = [.of "\"\uFFFD".toList] := by
      have hsource : source [0x22, 0xFF, 0x0D, 0x0A] = "\"\uFFFD" := by decide
      rw [← hsource]
      rfl
    rw [ended_eq hparts.1, hlexings, Lexing.of, tokensFrom, diagnosticsFrom, placedPieces, hfirst]
    rfl
  have hback : ended [0x40] = ⟨.ok (), encode "> END_OF_FILE  \n> \n".toList,
      encode "[line 1] Error: Unexpected character.\n".toList⟩ := by
    have hlexings : lexingsOf [0x40] = [.of "@".toList] := by
      have hsource : source [0x40] = "@" := by decide
      rw [← hsource]
      rfl
    rw [ended_eq hparts.2, hlexings, Lexing.of, tokensFrom, diagnosticsFrom, placedPieces, hsecond]
    rfl
  obtain ⟨-, happend, -, -⟩ := run_append _ hcounted
  obtain ⟨out, hout, hended⟩ := happend [0x22, 0xFF, 0x0D, 0x0A] [0x40] rfl (Or.inr rfl)
  rw [hfront] at hout
  obtain rfl : encode "> END_OF_FILE  \n".toList = out :=
    List.append_cancel_right (congrArg Ending.out hout)
  refine ⟨hcounted, by rw [hfront], ?_⟩
  rw [hended, hfront, hback]
  rfl

end LoxScan.Prompt
