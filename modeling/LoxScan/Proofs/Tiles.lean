import LoxScan.Proofs.FirstPiece
import LoxScan.Span

/-!
# Tilings of a text

Marks tile a text if they are parts of it in order and everything between them is trivia. A
tiling splits no character, and its marks and the gaps between them make up the text.
-/

namespace LoxScan

open Utf8

/-- The order of spans that do not overlap. -/
def Span.precedes (left right : Span) : Prop := left.stop ≤ right.start

/-- Blanks, newlines, and comments up to a newline; a comment at the end of a stretch is trivia
only where the stretch is the final one. -/
inductive Trivia (final : Prop) : List Char → Prop
  | nil : Trivia final []
  | blank {c : Char} {rest : List Char} : IsBlank c → Trivia final rest → Trivia final (c :: rest)
  | comment {body rest : List Char} : '\n' ∉ body → Trivia final ('\n' :: rest) →
    Trivia final ('/' :: '/' :: body ++ '\n' :: rest)
  | openComment {body : List Char} : final → '\n' ∉ body → Trivia final ('/' :: '/' :: body)

/-- Marks in a text that begins at an offset, with trivia in front of each and behind the last. No
mark begins with a newline, so a comment in front of a mark has its newline there as well. -/
inductive Tiles : Nat → List Char → List Span → Prop
  | done {pos : Nat} {stretch : List Char} : Trivia True stretch → Tiles pos stretch []
  | mark {pos : Nat} {gap tail rest : List Char} {c : Char} {marks : List Span} :
    Trivia False gap → c ≠ '\n' → Tiles (pos + size gap + size (c :: tail)) rest marks →
    Tiles pos (gap ++ (c :: tail ++ rest))
      (⟨pos + size gap, pos + size gap + size (c :: tail)⟩ :: marks)

/-- The stretches from an offset on that marks leave between them. -/
def gaps (pos stop : Nat) : List Span → List Span
  | [] => [⟨pos, stop⟩]
  | mark :: marks => ⟨pos, mark.start⟩ :: gaps mark.stop stop marks

/-- Marks with the gaps between them. -/
def weave (pos stop : Nat) : List Span → List Span
  | [] => [⟨pos, stop⟩]
  | mark :: marks => ⟨pos, mark.start⟩ :: mark :: weave mark.stop stop marks

/-- The span of a part of a text covers that part. -/
theorem Span.slice?_append (before part rest : List Char) :
    (⟨size before, size before + size part⟩ : Span).slice? (before ++ (part ++ rest)) =
      some part := by
  simp [slice?, Text.slice?]

/-- A comment without its newline is all that depends on the end of the text. -/
theorem Trivia.mono {final other : Prop} {stretch : List Char} (h : Trivia final stretch)
    (hfinal : final → other) : Trivia other stretch := by
  induction h with
  | nil => exact .nil
  | blank hblank _ ih => exact .blank hblank ih
  | comment hbody _ ih => exact .comment hbody ih
  | openComment hopen hbody => exact .openComment (hfinal hopen) hbody

namespace Tiles

variable {pos : Nat} {text : List Char} {marks : List Span}

/-- A mark without a gap in front of it. -/
theorem cons {c : Char} {tail : List Char} (hc : c ≠ '\n')
    (h : Tiles (pos + size (c :: tail)) text marks) :
    Tiles pos (c :: tail ++ text) (⟨pos, pos + size (c :: tail)⟩ :: marks) :=
  mark .nil hc h

/-- A blank in front of a tiled text belongs to the first gap. -/
theorem blank_cons {c : Char} (hc : IsBlank c) (h : Tiles (pos + size [c]) text marks) :
    Tiles pos (c :: text) marks := by
  generalize hstart : pos + size [c] = start at h
  cases h with
  | done hstretch => exact done (.blank hc hstretch)
  | @mark _ gap tail rest d marks hgap hd h =>
    have hsize : start + size gap = pos + size (c :: gap) := by
      rw [← hstart, size_cons, size_cons, Nat.add_assoc]
      rfl
    rw [hsize] at h ⊢
    exact mark (.blank hc hgap) hd h

/-- A comment goes on to a newline, which is trivia and not marked, or to the end. -/
theorem comment_append {body : List Char} (hbody : '\n' ∉ body)
    (htext : text = [] ∨ text.head? = some '\n')
    (h : Tiles (pos + size ('/' :: '/' :: body)) text marks) :
    Tiles pos ('/' :: '/' :: body ++ text) marks := by
  generalize hstart : pos + size ('/' :: '/' :: body) = start at h
  cases h with
  | done hstretch =>
    rcases htext with rfl | hhead
    · rw [List.append_nil]
      exact done (.openComment trivial hbody)
    · obtain ⟨rest, rfl⟩ := List.head?_eq_some_iff.1 hhead
      exact done (.comment hbody hstretch)
  | @mark _ gap tail rest d marks hgap hd h =>
    cases gap with
    | nil => simp [hd] at htext
    | cons first gap =>
      obtain rfl : first = '\n' := by simpa using htext
      have hsize : start + size ('\n' :: gap) = pos + size ('/' :: '/' :: body ++ '\n' :: gap) := by
        rw [← hstart, size_append, Nat.add_assoc]
      rw [hsize] at h ⊢
      rw [← List.append_assoc]
      exact mark (.comment hbody hgap) hd h

/-- Marks are not empty and lie in the text. -/
theorem bounds (h : Tiles pos text marks) {mark : Span} (hmark : mark ∈ marks) :
    pos ≤ mark.start ∧ mark.start < mark.stop ∧ mark.stop ≤ pos + size text := by
  induction h with
  | done => simp at hmark
  | @mark pos gap tail rest c marks hgap hc h ih =>
    have hpos := c.utf8Size_pos
    simp only [size_append, size_cons] at ih ⊢
    rcases List.mem_cons.1 hmark with rfl | hmark
    · simp only [size_cons]
      omega
    · have hih := ih hmark
      omega

/-- Marks follow each other. -/
theorem pairwise (h : Tiles pos text marks) : marks.Pairwise Span.precedes := by
  induction h with
  | done => exact .nil
  | mark hgap hc h ih => exact .cons (fun right hright => (h.bounds hright).1) ih

/-- Marks split no character. -/
theorem slice?_isSome (h : Tiles pos text marks) (before : List Char) (hbefore : size before = pos)
    {mark : Span} (hmark : mark ∈ marks) : (mark.slice? (before ++ text)).isSome = true := by
  induction h generalizing before with
  | done => simp at hmark
  | @mark pos gap tail rest c marks hgap hc h ih =>
    rw [← List.append_assoc]
    rcases List.mem_cons.1 hmark with rfl | hmark
    · rw [← hbefore, ← size_append, Span.slice?_append]
      rfl
    · rw [← List.append_assoc]
      exact ih (before ++ gap ++ (c :: tail)) (by simp only [size_append, hbefore]) hmark

/-- Gaps are trivia. -/
theorem trivia_of_mem_gaps (h : Tiles pos text marks) (before : List Char)
    (hbefore : size before = pos) {gap : Span} (hmem : gap ∈ gaps pos (pos + size text) marks) :
    ∃ stretch, gap.slice? (before ++ text) = some stretch ∧
      Trivia (gap.stop = pos + size text) stretch := by
  induction h generalizing before with
  | @done pos stretch hstretch =>
    obtain rfl := List.mem_singleton.1 hmem
    refine ⟨stretch, ?_, hstretch.mono fun _ => rfl⟩
    have hslice := Span.slice?_append before stretch []
    rwa [List.append_nil, hbefore] at hslice
  | @mark pos front tail rest c marks hfront hc h ih =>
    rcases List.mem_cons.1 hmem with rfl | hmem
    · refine ⟨front, ?_, hfront.mono False.elim⟩
      have hslice := Span.slice?_append before front (c :: tail ++ rest)
      rwa [hbefore] at hslice
    · have hstop : pos + size (front ++ (c :: tail ++ rest)) =
          pos + size front + size (c :: tail) + size rest := by
        simp only [size_append, Nat.add_assoc]
      rw [hstop] at hmem ⊢
      rw [← List.append_assoc, ← List.append_assoc]
      exact ih (before ++ front ++ (c :: tail)) (by simp only [size_append, hbefore]) hmem

/-- Marks and gaps make up the text. -/
theorem exists_weave_eq (h : Tiles pos text marks) (before : List Char)
    (hbefore : size before = pos) :
    ∃ parts : List (List Char),
      (weave pos (pos + size text) marks).map (·.slice? (before ++ text)) = parts.map some ∧
        parts.flatten = text := by
  induction h generalizing before with
  | @done pos stretch hstretch =>
    refine ⟨[stretch], ?_, by simp⟩
    have hslice := Span.slice?_append before stretch []
    rw [List.append_nil, hbefore] at hslice
    simp [weave, hslice]
  | @mark pos front tail rest c marks hfront hc h ih =>
    have hstop : pos + size (front ++ (c :: tail ++ rest)) =
        pos + size front + size (c :: tail) + size rest := by
      simp only [size_append, Nat.add_assoc]
    obtain ⟨parts, hparts, hflatten⟩ :=
      ih (before ++ front ++ (c :: tail)) (by simp only [size_append, hbefore])
    refine ⟨front :: (c :: tail) :: parts, ?_, ?_⟩
    · have hgap := Span.slice?_append before front (c :: tail ++ rest)
      have hmark := Span.slice?_append (before ++ front) (c :: tail) rest
      rw [hbefore] at hgap
      rw [size_append, hbefore, List.append_assoc] at hmark
      rw [List.append_assoc, List.append_assoc] at hparts
      rw [hstop, weave, List.map_cons, List.map_cons, hgap, hmark, hparts]
      rfl
    · rw [List.flatten_cons, List.flatten_cons, hflatten]

end Tiles

end LoxScan
