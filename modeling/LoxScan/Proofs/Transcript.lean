import LoxScan.Proofs.Effects
import LoxScan.Proofs.Lines
import Mathlib.Data.List.Forall2

/-!
# Transcripts of prompt sessions

A session at the prompt has one sequence of effects: line after line the mark, the diagnostics and
the tokens, and the mark and a newline at the end. An input that breaks off cuts this sequence
behind a mark, streams that stop serving cut it anywhere, and nothing else changes. So no token of
a line is received before all diagnostics up to that line, and no diagnostic of a line before all
tokens of earlier lines.
-/

namespace LoxScan.Prompt

open Utf8
open Effect (outOf errOf performAll)

/-- Asking for a line. -/
def asking : List Effect := mark.map .out ++ [.flush, .await]

/-- Answering a line. -/
noncomputable def answering (lexing : Lexing) : List Effect :=
  lexing.report.map .err ++ lexing.listing.map .out

/-- Asking for and answering lines. -/
noncomputable def turns (lexings : List Lexing) : List Effect :=
  lexings.flatMap fun lexing => asking ++ answering lexing

/-- The effects of a whole session: the last line asked for is none. -/
noncomputable def transcript (lexings : List Lexing) : List Effect :=
  turns lexings ++ (asking ++ [.out newlineByte])

/-- The effects of a session on an input, which may break off behind its last newline. -/
noncomputable def planned (input : Input) (lexings : List Lexing) : List Effect :=
  if input.breaksOff then turns (lexings.take (input.bytes.count newlineByte)) ++ asking
  else transcript lexings

/-- The marks and tokens of lines. -/
noncomputable def printed (lexings : List Lexing) : List UInt8 :=
  lexings.flatMap fun lexing => mark ++ lexing.listing

/-- The diagnostics of lines. -/
def reported (lexings : List Lexing) : List UInt8 := lexings.flatMap Lexing.report

section

variable (lexings : List Lexing)

/-- Asking for a line writes the mark. -/
@[simp] theorem outOf_asking : outOf asking = mark := rfl

/-- Asking for a line reports nothing. -/
@[simp] theorem errOf_asking : errOf asking = [] := rfl

/-- Turns print marks and tokens. -/
@[simp] theorem outOf_turns : outOf (turns lexings) = printed lexings := by
  induction lexings with
  | nil => rfl
  | cons lexing lexings ih => simp_all [turns, printed, answering]

/-- Turns report diagnostics. -/
@[simp] theorem errOf_turns : errOf (turns lexings) = reported lexings := by
  induction lexings with
  | nil => rfl
  | cons lexing lexings ih => simp_all [turns, reported, answering]

/-- Each line is flushed for once. -/
@[simp] theorem count_flush_turns : (turns lexings).count .flush = lexings.length := by
  have hasking : asking.count .flush = 1 := rfl
  induction lexings with
  | nil => rfl
  | cons lexing lexings ih => simp_all [turns, answering, Nat.add_comm]

/-- Turns come one after the other. -/
theorem turns_append (later : List Lexing) :
    turns (lexings ++ later) = turns lexings ++ turns later :=
  List.flatMap_append

/-- The transcript goes on with that of the other lines. -/
theorem transcript_cons (lexing : Lexing) :
    transcript (lexing :: lexings) = asking ++ (answering lexing ++ transcript lexings) := by
  simp [transcript, turns]

/-- However many lines there are, the first effect is to ask for one. -/
theorem asking_prefix_transcript : asking <+: transcript lexings := by
  cases lexings with
  | nil => exact List.prefix_append _ _
  | cons lexing lexings =>
    rw [transcript_cons]
    exact List.prefix_append _ _

/-- An input that breaks off cuts the transcript. -/
theorem planned_prefix_transcript (input : Input) :
    planned input lexings <+: transcript lexings := by
  rw [planned]
  split
  · generalize input.bytes.count newlineByte = count
    have hsplit : transcript lexings =
        turns (lexings.take count) ++ transcript (lexings.drop count) := by
      rw [transcript, transcript, ← List.append_assoc (turns _) (turns _), ← turns_append,
        List.take_append_drop]
    rw [hsplit, List.prefix_append_right_inj]
    exact asking_prefix_transcript _
  · exact List.prefix_rfl

/-- A transcript prints the turns, and a mark and a newline at the end. -/
theorem outOf_transcript :
    outOf (transcript lexings) = printed lexings ++ (mark ++ [newlineByte]) := by
  rw [transcript, Effect.outOf_append, outOf_turns]
  rfl

/-- A transcript reports what its turns report. -/
theorem errOf_transcript : errOf (transcript lexings) = reported lexings := by
  rw [transcript, Effect.errOf_append, errOf_turns]
  exact List.append_nil _

/-- A transcript flushes once for each line and once at the end. -/
theorem count_flush_transcript : (transcript lexings).count .flush = lexings.length + 1 := by
  rw [transcript, List.count_append, count_flush_turns]
  rfl

end

/-- What the prompt does to ask for a line. -/
theorem ask_eq : ask = performAll asking := by
  have hwait : performAll [.flush, .await] = Session.onOut Sink.flush := by
    simp [performAll, Effect.perform]
  rw [asking, Effect.performAll_append, ← Session.onOut_write, hwait]
  rfl

/-- What the prompt does to answer a line. -/
theorem answer_eq {line : List UInt8} {lexing : Lexing} (h : lex (source line) = .ok lexing) :
    answer line = performAll (answering lexing) := by
  rw [answer, Session.scan_eq h, answering, Effect.performAll_append, ← Session.onErr_write,
    ← Session.onOut_write]
  simp only [bind_assoc, pure_bind, bind_pure_unit]

/-- What the prompt does at the end of input. -/
theorem finish_eq : finish = performAll [.out newlineByte] :=
  Session.onOut_write [newlineByte]

/-- One line of a session unfolded. -/
theorem run_eq (input : Input) : run input = (do
    ask
    match input.readLine? with
    | .error error => throw (.failed (.stream error))
    | .ok none => finish
    | .ok (some (line, rest)) =>
      answer line
      run rest) := by
  rw [run]
  congr 1
  funext _
  split <;> next h => simp [h]

/-- The lines that an input serves. One that breaks off keeps what is behind its last newline. -/
def served (input : Input) : List (List UInt8) :=
  if input.breaksOff then (lines input.bytes).take (input.bytes.count newlineByte)
  else lines input.bytes

/-- What an input serves next is the first of the lines that it serves. -/
theorem served_cases (input : Input) :
    match input.readLine? with
    | .error error => served input = [] ∧ input.breaksOff = true ∧ error = .readFailed
    | .ok none => served input = [] ∧ input.breaksOff = false
    | .ok (some (line, rest)) =>
      served input = line :: served rest ∧ rest.breaksOff = input.breaksOff := by
  have hread := readLine?_cases input
  unfold served
  match hline : input.readLine? with
  | .error error =>
    rw [hline] at hread
    obtain ⟨hbreaks, hbytes, rfl⟩ := hread
    simp [hbreaks, List.count_eq_zero.2 hbytes]
  | .ok none =>
    rw [hline] at hread
    obtain ⟨hbreaks, hlines⟩ := hread
    simp [hbreaks, hlines]
  | .ok (some (line, rest)) =>
    rw [hline] at hread
    obtain ⟨hlines, hbreaks, hcount⟩ := hread
    refine ⟨?_, hbreaks⟩
    rw [hbreaks, hlines]
    split
    · next hinput => rw [hcount hinput, List.take_succ_cons]
    · rfl

/-- Asks for a line and answers it. -/
def turn (line : List UInt8) : Session Unit := do
  ask
  answer line

/-- A session asks for and answers the lines that are served, and asks once more. -/
theorem run_eq_forM (input : Input) : run input = (do
    (served input).forM turn
    ask
    if input.breaksOff then throw (.failed (.stream .readFailed)) else finish) := by
  generalize hserved : served input = lines
  induction lines generalizing input with
  | nil =>
    have hread := served_cases input
    match hline : input.readLine? with
    | .error error =>
      rw [hline] at hread
      obtain ⟨-, hbreaks, rfl⟩ := hread
      rw [run_eq, hline, hbreaks]
      simp
    | .ok none =>
      rw [hline] at hread
      rw [run_eq, hline, hread.2]
      simp
    | .ok (some (line, rest)) =>
      rw [hline, hserved] at hread
      cases hread.1
  | cons line later ih =>
    have hread := served_cases input
    match hline : input.readLine? with
    | .error error =>
      rw [hline, hserved] at hread
      cases hread.1
    | .ok none =>
      rw [hline, hserved] at hread
      cases hread.1
    | .ok (some (first, rest)) =>
      rw [hline, hserved] at hread
      obtain ⟨hfirst, hbreaks⟩ := hread
      obtain ⟨rfl, hlater⟩ := List.cons.inj hfirst
      rw [run_eq, hline, ← hbreaks]
      simp [turn, ih rest hlater.symm, bind_assoc]

/-- Where every line is replaced by one that is answered alike, the session stays the same. -/
theorem run_eq_of_lines_map {bytes changed : List UInt8} {change : List UInt8 → List UInt8}
    (hlines : lines changed = (lines bytes).map change)
    (hcount : changed.count newlineByte = bytes.count newlineByte)
    (hanswer : ∀ line ∈ lines bytes, answer (change line) = answer line) (breaksOff : Bool) :
    run ⟨changed, breaksOff⟩ = run ⟨bytes, breaksOff⟩ := by
  have hserved : served ⟨changed, breaksOff⟩ = (served ⟨bytes, breaksOff⟩).map change := by
    rw [served, served, hlines, hcount, apply_ite (List.map change), List.map_take]
  have hmem : ∀ line ∈ served ⟨bytes, breaksOff⟩, line ∈ lines bytes := by
    intro line hline
    rw [served] at hline
    split at hline
    · exact List.mem_of_mem_take hline
    · exact hline
  have hturns (list : List (List UInt8)) (h : ∀ line ∈ list, answer (change line) = answer line) :
      (list.map change).forM turn = list.forM turn := by
    induction list with
    | nil => rfl
    | cons line list ih =>
      obtain ⟨hline, hlist⟩ := List.forall_mem_cons.1 h
      have hturn : turn (change line) = turn line := by rw [turn, turn, hline]
      simp only [List.map_cons, List.forM_eq_forM, List.forM_cons] at ih ⊢
      rw [hturn, ih hlist]
  rw [run_eq_forM, run_eq_forM, hserved, hturns _ fun line hline => hanswer line (hmem line hline)]

/-- The lexings of the lines of bytes, in order. -/
abbrev Lexed (bytes : List UInt8) (lexings : List Lexing) : Prop :=
  List.Forall₂ (fun line lexing => lex (source line) = .ok lexing) (lines bytes) lexings

/-- Lines have only one lexing each. -/
theorem Lexed.unique {bytes : List UInt8} {left right : List Lexing} (hleft : Lexed bytes left)
    (hright : Lexed bytes right) : left = right := by
  refine List.right_unique_forall₂' ?_ hleft hright
  intro line first second hfirst hsecond
  exact Except.ok.inj (hfirst.symm.trans hsecond)

/-- Asking for and answering lines is performing their turns. -/
theorem forM_eq_performAll {lines : List (List UInt8)} {lexings : List Lexing}
    (h : List.Forall₂ (fun line lexing => lex (source line) = .ok lexing) lines lexings) :
    lines.forM turn = performAll (turns lexings) := by
  induction h with
  | nil => rfl
  | @cons line lexing lines lexings hlexing _ ih =>
    have hturns : turns (lexing :: lexings) = asking ++ (answering lexing ++ turns lexings) := by
      simp [turns]
    rw [hturns, Effect.performAll_append, Effect.performAll_append, ← ask_eq, ← answer_eq hlexing,
      ← ih]
    simp [turn, List.forM_eq_forM]

/-- A session performs what is planned, and then fails if the input broke off. -/
theorem run_eq_performAll {input : Input} {lexings : List Lexing} (h : Lexed input.bytes lexings) :
    run input = (do
      performAll (planned input lexings)
      if input.breaksOff then throw (.failed (.stream .readFailed))) := by
  rw [run_eq_forM, served, planned]
  split
  · rw [forM_eq_performAll (List.forall₂_take _ h), Effect.performAll_append, ← ask_eq]
    simp only [bind_assoc]
  · rw [forM_eq_performAll h, transcript, Effect.performAll_append, Effect.performAll_append,
      ← ask_eq, ← finish_eq]
    simp

/-- What the sinks receive of lines if the transcript is cut at some effect. -/
structure Received (lexings : List Lexing) (out err : List UInt8) : Prop where
  part : ∃ part, part <+: transcript lexings ∧ outOf part = out ∧ errOf part = err
  out_prefix : out <+: printed lexings ++ (mark ++ [newlineByte])
  err_prefix : err <+: reported lexings
  /-- A token of a line comes after all diagnostics up to that line. -/
  diagnostics_first : ∀ earlier lexing later, lexings = earlier ++ lexing :: later →
    (printed earlier ++ mark).length < out.length → reported (earlier ++ [lexing]) <+: err
  /-- A diagnostic of a line comes after all tokens of earlier lines. -/
  tokens_first : ∀ earlier lexing later, lexings = earlier ++ lexing :: later →
    (reported earlier).length < err.length → printed earlier ++ mark <+: out

/-- Of two parts of a sequence, one with fewer bytes for a sink is part of the other. -/
theorem prefix_of_length_lt {select : Effect → Option UInt8} {front part whole : List Effect}
    (hfront : front <+: whole) (hpart : part <+: whole)
    (h : (front.filterMap select).length < (part.filterMap select).length) : front <+: part := by
  rcases List.prefix_or_prefix_of_prefix hfront hpart with hbehind | hwithin
  · exact hbehind
  · have hle := (hwithin.filterMap select).length_le
    omega

/-- A cut anywhere in the transcript keeps the order of diagnostics and tokens. -/
theorem received_of_prefix {lexings : List Lexing} {part : List Effect}
    (h : part <+: transcript lexings) : Received lexings (outOf part) (errOf part) := by
  constructor
  case part => exact ⟨part, h, rfl, rfl⟩
  case out_prefix =>
    rw [← outOf_transcript]
    exact h.filterMap _
  case err_prefix =>
    rw [← errOf_transcript]
    exact h.filterMap _
  case diagnostics_first =>
    rintro earlier lexing later rfl hlonger
    -- The diagnostics of the line end in front of its tokens.
    have hfront : turns earlier ++ (asking ++ lexing.report.map .err) <+:
        transcript (earlier ++ lexing :: later) :=
      ⟨lexing.listing.map .out ++ transcript later, by simp [transcript, turns, answering]⟩
    have hout : printed earlier ++ mark =
        outOf (turns earlier ++ (asking ++ lexing.report.map .err)) := by simp
    have herr : reported (earlier ++ [lexing]) =
        errOf (turns earlier ++ (asking ++ lexing.report.map .err)) := by simp [reported]
    rw [hout] at hlonger
    rw [herr]
    exact (prefix_of_length_lt hfront h hlonger).filterMap _
  case tokens_first =>
    rintro earlier lexing later rfl hlonger
    -- The tokens of earlier lines end where the line is asked for.
    have hfront : turns earlier ++ asking <+: transcript (earlier ++ lexing :: later) :=
      ⟨answering lexing ++ transcript later, by simp [transcript, turns]⟩
    have hout : printed earlier ++ mark = outOf (turns earlier ++ asking) := by simp
    have herr : reported earlier = errOf (turns earlier ++ asking) := by simp
    rw [herr] at hlonger
    rw [hout]
    exact (prefix_of_length_lt hfront h hlonger).filterMap _

/-- The lexings of the lines of bytes, if none of the lines is too long. -/
def lexingsOf (bytes : List UInt8) : List Lexing :=
  (lines bytes).map fun line => .of (source line).toList

/-- Lines whose sources can be counted are lexed. -/
theorem lexed_lexingsOf {bytes : List UInt8}
    (h : ∀ line ∈ lines bytes, size (source line).toList ≤ maxWord) :
    Lexed bytes (lexingsOf bytes) := by
  rw [Lexed, lexingsOf, List.forall₂_map_right_iff, List.forall₂_same]
  intro line hmem
  exact lex_eq_ok (h line hmem) (by rw [newlines_source hmem]; decide)

/-- Lines whose sizes are words can be lexed. -/
theorem exists_lexed {bytes : List UInt8}
    (h : ∀ line ∈ lines bytes, size (source line).toList ≤ maxWord) :
    ∃ lexings, Lexed bytes lexings :=
  ⟨_, lexed_lexingsOf h⟩

/-- A session on any streams performs what is planned as far as the streams suffice. -/
theorem run_cases {input : Input} {lexings : List Lexing} (h : Lexed input.bytes lexings)
    (streams : Streams) :
    ∃ part after, streams.Longest (planned input lexings) part ∧ streams.Served part after ∧
      ((run input streams = .ok () after ∧ part = transcript lexings ∧ input.breaksOff = false) ∨
        ∃ error, run input streams = .error (.failed (.stream error)) after ∧
          ¬ (streams.Suffice (transcript lexings) ∧ input.breaksOff = false)) := by
  obtain ⟨part, after, hlongest, hserved, hcases⟩ :=
    Effect.performAll_cases (planned input lexings) streams
  refine ⟨part, after, hlongest, hserved, ?_⟩
  rw [run_eq_performAll h]
  rcases hcases with ⟨hperform, hpart⟩ | ⟨error, hperform, hrefused⟩
  · cases hbreaks : input.breaksOff with
    | true =>
      refine .inr ⟨.readFailed, ?_, by simp⟩
      simp only [bind, EStateM.bind, hperform, if_true]
      rfl
    | false =>
      refine .inl ⟨?_, by simp [hpart, planned, hbreaks], rfl⟩
      simp only [bind, EStateM.bind, hperform]
      rfl
  · refine .inr ⟨error, by simp only [bind, EStateM.bind, hperform], ?_⟩
    rintro ⟨hall, hbreaks⟩
    exact hrefused (by simpa [planned, hbreaks] using hall)

/-- A session on streams without limits ends with the whole transcript. -/
theorem ending_run_unlimited {bytes : List UInt8} {lexings : List Lexing}
    (h : Lexed bytes lexings) :
    (run ⟨bytes, false⟩).ending {} =
      ⟨.ok (), printed lexings ++ (mark ++ [newlineByte]), reported lexings⟩ := by
  have hsuffice (effects : List Effect) : ({} : Streams).Suffice effects := by
    constructor <;> simp [Fits]
  obtain ⟨part, after, -, hserved, hcases⟩ := @run_cases ⟨bytes, false⟩ lexings h {}
  rcases hcases with ⟨hrun, rfl, -⟩ | ⟨error, -, hrefused⟩
  · have hout : after.out.bytes = outOf (transcript lexings) := hserved.out
    have herr : after.err.bytes = errOf (transcript lexings) := hserved.err
    rw [Session.ending_of_ok hrun, hout, herr, outOf_transcript, errOf_transcript]
  · exact absurd ⟨hsuffice _, rfl⟩ hrefused

/-- Whatever room the sinks have, however many flushes succeed, and whether or not the input breaks
off: what the sinks receive is cut from one transcript, where the input breaks off or the streams
stop serving. A session succeeds exactly if the streams serve for the whole transcript and the input
ends, and then all of it has been received. -/
theorem run_received (input : Input) (outRoom errRoom flushes : Option Nat)
    (hsize : ∀ line ∈ lines input.bytes, size (source line).toList ≤ maxWord) :
    ∃ lexings ending part, Lexed input.bytes lexings ∧
      (run input).ending (.limited outRoom errRoom flushes) = ending ∧
      (Streams.limited outRoom errRoom flushes).Longest (planned input lexings) part ∧
      ending.out = outOf part ∧ ending.err = errOf part ∧
      Received lexings ending.out ending.err ∧
      (ending.result = .ok () ↔
        Fits outRoom (printed lexings ++ (mark ++ [newlineByte])).length ∧
          Fits errRoom (reported lexings).length ∧
          Fits flushes ((lines input.bytes).length + 1) ∧ input.breaksOff = false) ∧
      (ending.result = .ok () →
        ending.out = printed lexings ++ (mark ++ [newlineByte]) ∧ ending.err = reported lexings) ∧
      (ending.result ≠ .ok () → ∃ error, ending.result = .error (.failed (.stream error))) := by
  obtain ⟨lexings, hlexed⟩ := exists_lexed hsize
  have hserve : (Fits outRoom (printed lexings ++ (mark ++ [newlineByte])).length ∧
      Fits errRoom (reported lexings).length ∧ Fits flushes ((lines input.bytes).length + 1) ∧
        input.breaksOff = false) ↔
      (Streams.limited outRoom errRoom flushes).Suffice (transcript lexings) ∧
        input.breaksOff = false := by
    rw [Streams.suffice_iff, outOf_transcript, errOf_transcript, count_flush_transcript,
      ← hlexed.length_eq]
    simp only [and_assoc]
    rfl
  obtain ⟨part, after, hlongest, hserved, hcases⟩ :=
    run_cases hlexed (.limited outRoom errRoom flushes)
  have hout : after.out.bytes = outOf part := hserved.out
  have herr : after.err.bytes = errOf part := hserved.err
  have hreceived := received_of_prefix (hlongest.part_prefix.trans
    (planned_prefix_transcript lexings input))
  refine ⟨lexings, _, part, hlexed, rfl, hlongest, ?_⟩
  rw [hserve]
  rcases hcases with ⟨hrun, rfl, hbreaks⟩ | ⟨error, hrun, hrefused⟩
  · rw [Session.ending_of_ok hrun, hout, herr]
    refine ⟨rfl, rfl, hreceived, iff_of_true rfl ⟨hserved.suffice_self, hbreaks⟩, fun _ => ?_,
      fun h => absurd rfl h⟩
    exact ⟨outOf_transcript lexings, errOf_transcript lexings⟩
  · rw [Session.ending_of_error hrun, hout, herr]
    have hfails : Except.error (.failed (.stream error)) ≠ (.ok () : Except Stop Unit) := nofun
    exact ⟨rfl, rfl, hreceived, iff_of_false hfails hrefused, fun h => absurd h hfails,
      fun _ => ⟨error, rfl⟩⟩

/-- Two lines need room for 49 and 38 bytes and three flushes. A byte less for the diagnostics, and
the session fails. -/
theorem run_received_of_two_lines :
    (run ⟨encode "a\n@".toList, false⟩).ending (.limited (some 49) (some 38) (some 3)) =
      ⟨.ok (), encode "> IDENTIFIER a \nEND_OF_FILE  \n> END_OF_FILE  \n> \n".toList,
        encode "[line 1] Error: Unexpected character.\n".toList⟩ ∧
    ∃ error, ((run ⟨encode "a\n@".toList, false⟩).ending
        (.limited (some 49) (some 37) (some 3))).result = .error (.failed (.stream error)) := by
  have hsize : ∀ line ∈ lines (encode "a\n@".toList), size (source line).toList ≤ maxWord := by
    simp only [source, String.toList_ofList]
    decide
  have hword : pieces "a".toList = [⟨['a'], .token .identifier .none⟩] := by
    simp [pieces_cons, Cut.of, Opening.ofChar, Cut.word]
    decide
  have hstray : pieces "@".toList = [⟨['@'], .problem (.unexpectedCharacter '@')⟩] := by
    simp [pieces_cons, Cut.of, Opening.ofChar]
  have hlexings (lexings : List Lexing) (h : Lexed (encode "a\n@".toList) lexings) :
      printed lexings ++ (mark ++ [newlineByte]) =
          encode "> IDENTIFIER a \nEND_OF_FILE  \n> END_OF_FILE  \n> \n".toList ∧
        reported lexings = encode "[line 1] Error: Unexpected character.\n".toList := by
    have hlines : lines (encode "a\n@".toList) = [encode "a\n".toList, encode "@".toList] := by
      decide
    have hfirst : source (encode "a\n".toList) = "a" := by decide
    have hsecond : source (encode "@".toList) = "@" := by decide
    rw [Lexed, hlines, List.forall₂_cons_left_iff] at h
    obtain ⟨first, rest, hlexing, hrest, rfl⟩ := h
    obtain ⟨second, behind, hlexing', hbehind, rfl⟩ := List.forall₂_cons_left_iff.1 hrest
    obtain rfl := List.forall₂_nil_left_iff.1 hbehind
    rw [hfirst, lex_eq_ok (by decide) (by decide), tokensFrom, diagnosticsFrom, placedPieces,
      hword] at hlexing
    rw [hsecond, lex_eq_ok (by decide) (by decide), tokensFrom, diagnosticsFrom, placedPieces,
      hstray] at hlexing'
    cases hlexing
    cases hlexing'
    exact ⟨rfl, rfl⟩
  constructor
  · obtain ⟨lexings, ⟨result, out, err⟩, part, hlexed, hending, -, -, -, -, hok, hwhole, -⟩ :=
      run_received ⟨encode "a\n@".toList, false⟩ (some 49) (some 38) (some 3) hsize
    obtain ⟨hout, herr⟩ := hlexings lexings hlexed
    rw [hout, herr] at hok hwhole
    obtain rfl : result = .ok () := hok.2 (by simp [Fits]; decide)
    obtain ⟨rfl, rfl⟩ := hwhole rfl
    exact hending
  · obtain ⟨lexings, ending, part, hlexed, hending, -, -, -, -, hok, -, hfails⟩ :=
      run_received ⟨encode "a\n@".toList, false⟩ (some 49) (some 37) (some 3) hsize
    obtain ⟨hout, herr⟩ := hlexings lexings hlexed
    rw [hout, herr] at hok
    rw [hending]
    exact hfails (mt hok.1 (by simp [Fits]; decide))

end LoxScan.Prompt
