import LoxScan.Proofs.Decoding
import LoxScan.Proofs.Display
import LoxScan.Proofs.Lexing
import LoxScan.Script

/-!
# What streams receive

Writes one after the other are one write of all their bytes, however much room there is. So reading
a source is one write of all diagnostics and, if there was room for it, one of all tokens. Each sink
receives the bytes of its text up to its room, and no byte is lost, repeated or moved before them.
-/

namespace LoxScan

open Utf8

namespace Sink

/-- Writes one after the other are one write. -/
theorem write_append (left right : List UInt8) :
    write (left ++ right) = (do write left; write right) := by
  funext ⟨received, room, flushes⟩
  cases room with
  | none =>
    simp [write, bind, EStateM.bind, ← Array.toList_inj]
  | some room =>
    by_cases hleft : left.length ≤ room
    · have hkept : received ++ (left ++ right).take room =
          received ++ left ++ right.take (room - left.length) := by
        simp [← Array.toList_inj, List.take_append, List.take_of_length_le hleft]
      have hroom : room - (left ++ right).length = room - left.length - right.length := by
        rw [List.length_append, Nat.sub_add_eq]
      have hfits : (left ++ right).length ≤ room ↔ right.length ≤ room - left.length := by
        rw [List.length_append]
        omega
      simp only [write, bind, EStateM.bind, if_pos hleft, List.take_of_length_le hleft, hkept,
        hroom, hfits]
    · have hkept : (left ++ right).take room = left.take room := by
        rw [List.take_append_of_le_length (by omega)]
      have hfits : ¬ (left ++ right).length ≤ room := by
        rw [List.length_append]
        omega
      have hroom : room - (left ++ right).length = room - left.length := by
        rw [List.length_append]
        omega
      simp only [write, bind, EStateM.bind, if_neg hleft, if_neg hfits, hkept, hroom]

/-- A write of nothing does nothing. -/
theorem write_nil : write [] = pure () := by
  funext ⟨received, room, flushes⟩
  cases room <;> simp [write, pure, EStateM.pure]

/-- Lines one after the other are one write. -/
theorem forM_writeLine {α : Type} (text : α → String) (list : List α) :
    (list.forM fun entry => writeLine (text entry)) =
      write (list.flatMap fun entry => encode ((text entry).toList ++ ['\n'])) := by
  induction list with
  | nil => exact write_nil.symm
  | cons entry list ih =>
    rw [List.flatMap_cons, write_append, ← ih]
    rfl

end Sink

/-- How a session ends: its result, and what the sinks have received. -/
structure Ending (α : Type) where
  result : Except Stop α
  out : List UInt8
  err : List UInt8

/-- The ending of a session on streams. -/
def Session.ending {α : Type} (work : Session α) (streams : Streams) : Ending α :=
  match work streams with
  | .ok result ⟨out, err⟩ => ⟨.ok result, out.bytes, err.bytes⟩
  | .error stop ⟨out, err⟩ => ⟨.error stop, out.bytes, err.bytes⟩

section

variable {α : Type} {work : Session α} {streams after : Streams}

/-- The ending of a session that succeeds. -/
theorem Session.ending_of_ok {result : α} (h : work streams = .ok result after) :
    work.ending streams = ⟨.ok result, after.out.bytes, after.err.bytes⟩ := by
  rw [ending, h]

/-- The ending of a session that stops. -/
theorem Session.ending_of_error {stop : Stop} (h : work streams = .error stop after) :
    work.ending streams = ⟨.error stop, after.out.bytes, after.err.bytes⟩ := by
  rw [ending, h]

end

namespace Lexing

/-- All diagnostics, one on a line. -/
def report (lexing : Lexing) : List UInt8 := lexing.diagnostics.flatMap Diagnostic.reported

/-- All tokens, one on a line. -/
noncomputable def listing (lexing : Lexing) : List UInt8 :=
  lexing.tokens.toList.flatMap Token.listed

end Lexing

/-- Diagnostics are reported in one write. -/
theorem Diagnostic.report_eq (diagnostics : List Diagnostic) :
    Diagnostic.report diagnostics = Sink.write (diagnostics.flatMap Diagnostic.reported) := by
  rw [Diagnostic.report, Sink.forM_writeLine, funext Diagnostic.reported_eq]

/-- Tokens are printed in one write. -/
theorem Tokens.print_eq (tokens : Tokens) :
    tokens.print = Sink.write (tokens.toList.flatMap Token.listed) := by
  rw [Tokens.print, Sink.forM_writeLine, funext Token.listed_eq]

namespace Session

/-- Reading a source is one write of all diagnostics, and then one of all tokens. -/
theorem scan_eq {text : String} {lexing : Lexing} (h : lex text = .ok lexing) :
    scan text = (do
      onErr (Sink.write lexing.report)
      onOut (Sink.write lexing.listing)
      return lexing.outcome) := by
  have hbegin : scan text = (do
      onErr (Diagnostic.report lexing.diagnostics)
      onOut lexing.tokens.print
      return lexing.outcome) := by
    rw [scan, h]
    rfl
  rw [hbegin, Diagnostic.report_eq, Tokens.print_eq]
  rfl

/-- The outcome of a source that is not cut short. -/
theorem outcome_eq (lexing : Lexing) :
    lexing.outcome = if lexing.diagnostics = [] then .clean else .flawed := by
  cases hdiagnostics : lexing.diagnostics <;>
    simp [Lexing.outcome, Lexing.hasDiagnostics, hdiagnostics]

/-- The sinks receive the report of a source up to the room for it, and then the listing up to the
room for that. -/
theorem ending_scan {text : String} {lexing : Lexing} (h : lex text = .ok lexing)
    (outRoom errRoom : Nat) :
    (scan text).ending ⟨{ room := some outRoom }, { room := some errRoom }⟩ =
      if errRoom < lexing.report.length then
        ⟨.error (.failed (.stream .sinkFull)), [], lexing.report.take errRoom⟩
      else if outRoom < lexing.listing.length then
        ⟨.error (.failed (.stream .sinkFull)), lexing.listing.take outRoom, lexing.report⟩
      else ⟨.ok lexing.outcome, lexing.listing, lexing.report⟩ := by
  rw [scan_eq h, ending]
  by_cases herr : errRoom < lexing.report.length
  · simp [bind, EStateM.bind, onErr, Sink.write, Nat.not_le_of_lt herr, herr, Sink.bytes]
  · by_cases hout : outRoom < lexing.listing.length
    · simp [bind, EStateM.bind, onErr, onOut, Sink.write, Nat.not_le_of_lt hout, hout,
        Nat.le_of_not_lt herr, herr, Sink.bytes, List.take_of_length_le]
    · simp [bind, EStateM.bind, pure, EStateM.pure, onErr, onOut, Sink.write, Nat.le_of_not_lt herr,
        Nat.le_of_not_lt hout, herr, hout, Sink.bytes, List.take_of_length_le]

/-- Streams without limits receive the whole report and the whole listing. -/
theorem ending_scan_unlimited {text : String} {lexing : Lexing} (h : lex text = .ok lexing) :
    (scan text).ending {} = ⟨.ok lexing.outcome, lexing.listing, lexing.report⟩ := by
  rw [scan_eq h, ending]
  simp [bind, EStateM.bind, pure, EStateM.pure, onErr, onOut, Sink.write, Sink.bytes]

end Session

namespace Script

variable {tree : FileTree} {path : Path}

/-- A script that encodes a text is read as that source. -/
theorem run_of_text {text : String} (h : tree.readBytes path = .ok (encode text.toList)) :
    run tree path = Session.scan text := by
  have htext : Script.text (encode text.toList) = .ok text := by
    rw [Script.text, decode?_eq_some_iff.2 rfl]
    simp
  have hcontents : (tree.readBytes path >>= Script.text) = .ok text := by
    rw [h]
    exact htext
  rw [run, scan, hcontents]
  rfl

/-- A script that encodes no text fails before anything is written. -/
theorem run_of_not_text {contents : List UInt8} (h : tree.readBytes path = .ok contents)
    (hnone : ∀ text : String, contents ≠ encode text.toList) :
    run tree path = throw (.failed (.invalidText path)) := by
  have hdecode : decode? contents = none := by
    by_contra hsome
    obtain ⟨text, htext⟩ := Option.ne_none_iff_exists'.1 hsome
    apply hnone (String.ofList text)
    rw [String.toList_ofList]
    exact decode?_eq_some_iff.1 htext
  have hcontents : (tree.readBytes path >>= Script.text) = .error .notText := by
    rw [h]
    change Script.text contents = _
    rw [Script.text, hdecode]
  rw [run, scan, hcontents]
  rfl

end Script

/-- On streams with room for so many bytes, reading a source writes its report as far as it fits,
and only then its listing as far as that fits; it fails exactly if one of them was cut. A script is
read as the source that it encodes, and one that encodes none fails and leaves the streams alone. -/
theorem scan_delivers (text : String) (hsize : size text.toList ≤ maxWord)
    (hlines : newlines text.toList < maxWord) :
    (∃ lexing, lex text = .ok lexing ∧ ∀ outRoom errRoom,
      (Session.scan text).ending ⟨{ room := some outRoom }, { room := some errRoom }⟩ =
        if errRoom < lexing.report.length then
          ⟨.error (.failed (.stream .sinkFull)), [], lexing.report.take errRoom⟩
        else if outRoom < lexing.listing.length then
          ⟨.error (.failed (.stream .sinkFull)), lexing.listing.take outRoom, lexing.report⟩
        else
          ⟨.ok (if lexing.diagnostics = [] then .clean else .flawed), lexing.listing,
            lexing.report⟩) ∧
      ∀ tree path contents, tree.readBytes path = .ok contents →
        (∀ script : String, contents = encode script.toList →
          Script.run tree path = Session.scan script) ∧
        ((∀ script : String, contents ≠ encode script.toList) → ∀ streams,
          Script.run tree path streams = .error (.failed (.invalidText path)) streams) := by
  refine ⟨⟨_, lex_eq_ok hsize hlines, fun outRoom errRoom => ?_⟩, ?_⟩
  · rw [Session.ending_scan (lex_eq_ok hsize hlines), Session.outcome_eq]
  · intro tree path contents hread
    constructor
    · rintro script rfl
      exact Script.run_of_text hread
    · intro hnone streams
      rw [Script.run_of_not_text hread hnone]
      rfl

/-- The room for a report may end before its last newline, and that for a listing inside a line. A
listing for which there is just enough room shows a string, a whole number and a fraction. A lone
first byte of a character is no script. -/
theorem scan_delivers_of_cut_lines :
    (Session.scan "@\na").ending ⟨{ room := some 12 }, { room := some 37 }⟩ =
      ⟨.error (.failed (.stream .sinkFull)), [],
        encode "[line 1] Error: Unexpected character.".toList⟩ ∧
      (Session.scan "@\na").ending ⟨{ room := some 12 }, { room := some 38 }⟩ =
        ⟨.error (.failed (.stream .sinkFull)), encode "IDENTIFIER a".toList,
          encode "[line 1] Error: Unexpected character.\n".toList⟩ ∧
      (Session.scan "\"hi\" 1 0.1").ending ⟨{ room := some 57 }, { room := some 0 }⟩ =
        ⟨.ok .clean, encode ("STRING \"hi\" hi\nNUMBER 1 1.0\nNUMBER 0.1 0.1\n" ++
          "END_OF_FILE  \n").toList, []⟩ ∧
      Script.run ⟨[([[0x61]], .file [0xC3])], []⟩ ⟨[0x61]⟩ {} =
        .error (.failed (.invalidText ⟨[0x61]⟩)) {} := by
  have hpieces : pieces "@\na".toList =
      [⟨['@'], .problem (.unexpectedCharacter '@')⟩, ⟨['\n'], .trivia⟩,
        ⟨['a'], .token .identifier .none⟩] := by
    simp [pieces_cons, Cut.of, Opening.ofChar, Cut.word]
    decide
  have hvalues : pieces "\"hi\" 1 0.1".toList =
      [⟨"\"hi\"".toList, .token .string (.text "hi")⟩, ⟨[' '], .trivia⟩,
        ⟨['1'], .token .number (Cut.numeralValue ['1'])⟩, ⟨[' '], .trivia⟩,
        ⟨"0.1".toList, .token .number (Cut.numeralValue "0.1".toList)⟩] := by
    simp [pieces_cons, Cut.of, Opening.ofChar, Cut.string, Cut.number, Cut.fraction]
  obtain ⟨⟨lexing, hlexing, hending⟩, hscripts⟩ := scan_delivers "@\na" (by decide) (by decide)
  obtain ⟨⟨shown, hshown, hfull⟩, -⟩ := scan_delivers "\"hi\" 1 0.1" (by decide) (by decide)
  rw [lex_eq_ok (by decide) (by decide)] at hlexing hshown
  cases hlexing
  cases hshown
  rw [Lexing.report, Lexing.listing, tokensFrom, diagnosticsFrom, placedPieces, hpieces,
    funext Token.listed_eq] at hending
  rw [Lexing.report, Lexing.listing, tokensFrom, diagnosticsFrom, placedPieces, hvalues,
    funext Token.listed_eq] at hfull
  refine ⟨?_, ?_, ?_, ?_⟩
  · rw [hending, if_pos (by decide)]
    rfl
  · rw [hending, if_neg (by decide), if_pos (by decide)]
    rfl
  · rw [hfull, if_neg (by decide), if_neg (by decide +kernel), Ending.mk.injEq]
    exact ⟨rfl, by decide +kernel, rfl⟩
  · refine (hscripts _ _ [0xC3] rfl).2 (fun script hscript => ?_) {}
    have hnone : decode? [0xC3] = none := by decide
    rw [decode?_eq_some_iff.2 hscript] at hnone
    cases hnone

end LoxScan
