import LoxScan.Proofs.Decoding
import LoxScan.Proofs.Lexing
import LoxScan.Prompt

/-!
# Lines of an input

The lines that an input serves are those of its bytes, each with the newline that ends it; an input
that breaks off serves all but the unfinished one. The source that a line is has no newline.
-/

namespace LoxScan

open Utf8

namespace Prompt

/-- The lines of bytes. A newline belongs to the line that it ends. -/
def lines : List UInt8 → List (List UInt8)
  | [] => []
  | byte :: bytes =>
    if byte = newlineByte then [byte] :: lines bytes
    else
      match lines bytes with
      | [] => [[byte]]
      | line :: rest => (byte :: line) :: rest

section

variable {front bytes line : List UInt8}

/-- Bytes up to a newline are the first line. -/
theorem lines_append_newline (h : newlineByte ∉ front) (bytes : List UInt8) :
    lines (front ++ newlineByte :: bytes) = (front ++ [newlineByte]) :: lines bytes := by
  induction front with
  | nil => rw [List.nil_append, lines, if_pos rfl, List.nil_append]
  | cons byte front ih =>
    rw [List.mem_cons, not_or] at h
    obtain ⟨hne, hfront⟩ := h
    rw [List.cons_append, lines, if_neg (Ne.symm hne), ih hfront]
    rfl

/-- Bytes without a newline are one line, if there are any. -/
theorem lines_of_not_mem (h : newlineByte ∉ bytes) :
    lines bytes = if bytes.isEmpty then [] else [bytes] := by
  induction bytes with
  | nil => rfl
  | cons byte bytes ih =>
    rw [List.mem_cons, not_or] at h
    obtain ⟨hne, hbytes⟩ := h
    rw [lines, if_neg (Ne.symm hne), ih hbytes]
    cases bytes <;> rfl

/-- Bytes without a newline but at the end are one line. -/
theorem lines_of_not_mem_dropLast (hne : bytes ≠ []) (h : newlineByte ∉ bytes.dropLast) :
    lines bytes = [bytes] := by
  obtain ⟨front, final, rfl⟩ := List.eq_nil_or_concat bytes |>.resolve_left hne
  rw [List.concat_eq_append] at h ⊢
  rw [List.dropLast_concat] at h
  by_cases hfinal : final = newlineByte
  · rw [hfinal, lines_append_newline h, lines]
  · have hbytes : newlineByte ∉ front ++ [final] := by
      simpa [eq_comm] using And.intro h hfinal
    simp [lines_of_not_mem hbytes]

/-- Bytes make at least one line. -/
theorem lines_cons_ne_nil (byte : UInt8) (bytes : List UInt8) : lines (byte :: bytes) ≠ [] := by
  rw [lines]
  split
  · simp
  · split <;> simp

/-- Lines end where bytes that end in a newline do. -/
theorem lines_append (h : front = [] ∨ front.getLast? = some newlineByte) (bytes : List UInt8) :
    lines (front ++ bytes) = lines front ++ lines bytes := by
  induction front with
  | nil => rfl
  | cons byte front ih =>
    cases front with
    | nil =>
      obtain rfl : byte = newlineByte := by simpa using h
      simp [lines]
    | cons second front =>
      rw [List.getLast?_cons_cons] at h
      rw [List.cons_append, lines, lines, ih (by simpa using h)]
      split
      · rfl
      · cases hlines : lines (second :: front) with
        | nil => exact absurd hlines (lines_cons_ne_nil second front)
        | cons line rest => rfl

/-- Entries that end in their only newline are the lines of what they make together. -/
theorem lines_flatMap {α : Type} {entry : α → List UInt8} {list : List α}
    (h : ∀ a ∈ list, (entry a).getLast? = some newlineByte ∧ newlineByte ∉ (entry a).dropLast) :
    lines (list.flatMap entry) = list.map entry := by
  induction list with
  | nil => rfl
  | cons a list ih =>
    obtain ⟨⟨hlast, hdropLast⟩, hlist⟩ := List.forall_mem_cons.1 h
    have hne : entry a ≠ [] := List.ne_nil_of_mem (List.mem_of_getLast? hlast)
    rw [List.flatMap_cons, lines_append (Or.inr hlast), lines_of_not_mem_dropLast hne hdropLast,
      ih hlist]
    rfl

/-- A line has no newline but the one that ends it. -/
theorem newline_not_mem_dropLast (h : line ∈ lines bytes) : newlineByte ∉ line.dropLast := by
  induction bytes generalizing line with
  | nil => simp [lines] at h
  | cons byte bytes ih =>
    rw [lines] at h
    split at h
    · rcases List.mem_cons.1 h with rfl | h
      · simp
      · exact ih h
    · next hne =>
      cases hlines : lines bytes with
      | nil =>
        rw [hlines] at h
        obtain rfl := List.mem_singleton.1 h
        simp
      | cons first rest =>
        rw [hlines] at h ih
        rcases List.mem_cons.1 h with rfl | h
        · have hfirst := ih List.mem_cons_self
          cases first with
          | nil => simp
          | cons second tail =>
            rw [List.dropLast_cons_cons, List.mem_cons, not_or]
            exact ⟨Ne.symm hne, hfirst⟩
        · exact ih (List.mem_cons_of_mem first h)

/-- A line without a newline is its own content. -/
theorem content_of_getLast?_ne (h : line.getLast? ≠ some newlineByte) : content line = line := by
  simp [content, dropFinal?, h]

/-- A newline is taken off a line. -/
theorem content_newline {body : List UInt8} (h : body.getLast? ≠ some carriageReturn) :
    content (body ++ [newlineByte]) = body := by
  simp [content, dropFinal?, h]

/-- A carriage return in front of a newline is taken off with it. -/
theorem content_returnNewline (body : List UInt8) :
    content (body ++ [carriageReturn, newlineByte]) = body := by
  have hline : body ++ [carriageReturn, newlineByte] =
      body ++ [carriageReturn] ++ [newlineByte] := by simp
  rw [hline]
  simp [content, dropFinal?]

/-- A line and its contents: what is in front of the newline that ends it, less a carriage return
there. -/
inductive Stripped : List UInt8 → List UInt8 → Prop where
  | unended {line : List UInt8} : line.getLast? ≠ some newlineByte → Stripped line line
  | newline {body : List UInt8} :
      body.getLast? ≠ some carriageReturn → Stripped (body ++ [newlineByte]) body
  | returnNewline (body : List UInt8) : Stripped (body ++ [carriageReturn, newlineByte]) body

/-- What a line is stripped to is its content. -/
theorem stripped_iff {body : List UInt8} : Stripped line body ↔ content line = body := by
  constructor
  · intro h
    cases h with
    | unended hlast => exact content_of_getLast?_ne hlast
    | newline hlast => exact content_newline hlast
    | returnNewline => exact content_returnNewline body
  · rintro rfl
    by_cases hnewline : line.getLast? = some newlineByte
    · obtain ⟨body, rfl⟩ := List.getLast?_eq_some_iff.1 hnewline
      by_cases hreturn : body.getLast? = some carriageReturn
      · obtain ⟨front, rfl⟩ := List.getLast?_eq_some_iff.1 hreturn
        rw [List.append_assoc, List.singleton_append, content_returnNewline]
        exact .returnNewline front
      · rw [content_newline hreturn]
        exact .newline hreturn
    · rw [content_of_getLast?_ne hnewline]
      exact .unended hnewline

/-- The contents of a line have no newline. -/
theorem newline_not_mem_content (h : newlineByte ∉ line.dropLast) : newlineByte ∉ content line := by
  generalize hbody : content line = body
  cases stripped_iff.2 hbody with
  | unended hlast =>
    rcases List.eq_nil_or_concat line with rfl | ⟨front, final, rfl⟩
    · simp
    · rw [List.concat_eq_append, List.getLast?_concat] at hlast
      rw [List.concat_eq_append, List.dropLast_concat] at h
      simpa [h, eq_comm] using hlast
  | newline => rwa [List.dropLast_concat] at h
  | returnNewline =>
    rw [List.dropLast_append_of_ne_nil (by simp)] at h
    exact fun hmem => h (List.mem_append_left _ hmem)

/-- The source that a line is has no newlines. -/
theorem newlines_source (h : line ∈ lines bytes) : newlines (source line).toList = 0 := by
  have hcontent := newline_not_mem_content (newline_not_mem_dropLast h)
  rw [source, String.toList_ofList, newlines, List.count_eq_zero]
  exact fun hmem => hcontent (newline_mem_of_mem_decodeLossy hmem)

end

/-- What an input serves next is the first of its lines. If it breaks off, it does so behind the
last newline. -/
theorem readLine?_cases (input : Input) :
    match input.readLine? with
    | .error error =>
      input.breaksOff = true ∧ newlineByte ∉ input.bytes ∧ error = .readFailed
    | .ok none => input.breaksOff = false ∧ lines input.bytes = []
    | .ok (some (line, rest)) =>
      lines input.bytes = line :: lines rest.bytes ∧ rest.breaksOff = input.breaksOff ∧
        (input.breaksOff = true →
          input.bytes.count newlineByte = rest.bytes.count newlineByte + 1) := by
  obtain ⟨bytes, breaksOff⟩ := input
  have hsplit := List.takeWhile_append_dropWhile (p := (· != newlineByte)) (l := bytes)
  have hfront : newlineByte ∉ bytes.takeWhile (· != newlineByte) := by
    intro hmem
    simpa using List.mem_takeWhile_imp hmem
  simp only [Input.readLine?]
  cases hdrop : bytes.dropWhile (· != newlineByte) with
  | cons newline behind =>
    have hnewline : newline = newlineByte := by
      have hnot := List.head?_dropWhile_not (· != newlineByte) bytes
      simpa [hdrop] using hnot
    subst hnewline
    rw [hdrop] at hsplit
    refine ⟨?_, rfl, fun _ => ?_⟩
    · rw [← lines_append_newline hfront, hsplit]
    · rw [← hsplit, List.count_append, List.count_eq_zero.2 hfront, List.count_cons_self,
        Nat.zero_add]
  | nil =>
    rw [hdrop, List.append_nil] at hsplit
    rw [hsplit] at hfront
    rw [hsplit]
    cases breaksOff with
    | true => exact ⟨rfl, hfront, rfl⟩
    | false =>
      simp only [Bool.false_eq_true, if_false]
      cases hempty : bytes.isEmpty with
      | true => simp [lines_of_not_mem hfront, hempty]
      | false => simp [lines_of_not_mem hfront, hempty, lines]

end Prompt

end LoxScan
