import LoxScan.Proofs.Placed
import LoxScan.Proofs.Tiles

/-!
# Seams between pieces

A piece sees of what follows it one character, or two if the first is a point. Hence it is read
in the same way before any other text that shows it the same characters, or blanks, or the end. A
comment sees more: it needs its newline or the end. Blanks and comments that have their newlines
see nothing of what follows.
-/

namespace LoxScan

open Utf8 (size)

/-- A text begins as another does, or with a blank, or is empty. -/
def BeginsAs (other rest : List Char) : Prop := ∀ c ∈ other.head?, c ∈ rest.head? ∨ IsBlank c

/-- A text shows to what is in front of it the same as another, or blanks, or the end. -/
structure Relaxes (other rest : List Char) : Prop where
  head : BeginsAs other rest
  /-- Behind a point a number looks for a digit. -/
  point : ∀ more, other = '.' :: more → ∃ behind, rest = '.' :: behind ∧ BeginsAs more behind

/-- A text that begins with a blank, or is empty. -/
def AtBlank (other : List Char) : Prop := ∀ c ∈ other.head?, IsBlank c

/-- A text in front of which a comment ends. -/
def AtLineEnd (rest : List Char) : Prop := rest = [] ∨ rest.head? = some '\n'

/-- A text that can stand behind the first piece of a text in place of what stood there. -/
structure MayFollow (other : List Char) (cut : Cut) : Prop where
  /-- Whatever is put behind an open string becomes a part of it. -/
  closed : cut.finding ≠ .problem .unterminatedString
  relaxes : Relaxes other cut.rest
  lineEnd : cut.finding = .trivia → AtLineEnd cut.rest → AtLineEnd other

/-- Blanks are no digits. -/
theorem isDigit_eq_false_of_isBlank {c : Char} (h : IsBlank c) : c.isDigit = false := by
  rcases h with rfl | rfl | rfl | rfl <;> decide

/-- Blanks do not belong to words. -/
theorem isWordChar_eq_false_of_isBlank {c : Char} (h : IsBlank c) : isWordChar c = false := by
  rcases h with rfl | rfl | rfl | rfl <;> decide

/-- No blank is a point. -/
theorem AtBlank.ne_point {other : List Char} (h : AtBlank other) (more : List Char) :
    other ≠ '.' :: more := by
  rintro rfl
  have hpoint : IsBlank '.' := h '.' rfl
  simp [IsBlank] at hpoint

namespace BeginsAs

variable {other rest : List Char}

/-- Blanks at the end of a text change its beginning only if there was none. -/
theorem append (rest : List Char) {more : List Char} (h : AtBlank more) :
    BeginsAs (rest ++ more) rest := by
  cases rest with
  | nil => exact fun c hc => Or.inr (h c hc)
  | cons c rest => exact fun d hd => Or.inl hd

/-- A test that no blank satisfies is not satisfied by the new beginning either. -/
theorem any_head? {test : Char → Bool} (h : BeginsAs other rest)
    (hblank : ∀ c, IsBlank c → test c = false) (hrest : rest.head?.any test = false) :
    other.head?.any test = false := by
  cases hhead : other.head? with
  | none => rfl
  | some c =>
    rcases h c hhead with hc | hc
    · rw [hc] at hrest
      exact hrest
    · exact hblank c hc

/-- If a text begins with no digit, neither does one that begins as it does or with a blank. -/
theorem noDigit (h : BeginsAs other rest) (hrest : NoDigit rest) : NoDigit other :=
  h.any_head? (fun _ => isDigit_eq_false_of_isBlank) hrest

/-- The same holds for the characters of words. -/
theorem noWordChar (h : BeginsAs other rest) (hrest : NoWordChar rest) : NoWordChar other :=
  h.any_head? (fun _ => isWordChar_eq_false_of_isBlank) hrest

/-- The same holds for every single character that is not blank. -/
theorem head?_ne {d : Char} (h : BeginsAs other rest) (hd : ¬ IsBlank d)
    (hrest : rest.head? ≠ some d) : other.head? ≠ some d := by
  intro hother
  exact (h d hother).elim hrest hd

end BeginsAs

namespace Relaxes

/-- A text that relaxes one without a fraction has none itself. -/
theorem noFraction {other rest : List Char} (h : Relaxes other rest) (hrest : NoFraction rest) :
    NoFraction other := by
  refine ⟨h.head.noDigit hrest.1, fun more hmore => ?_⟩
  obtain ⟨behind, hbehind, hbegins⟩ := h.point more hmore
  exact hbegins.noDigit (hrest.2 behind hbehind)

/-- Blanks, and the end, show nothing. -/
theorem of_atBlank {other : List Char} (h : AtBlank other) (rest : List Char) :
    Relaxes other rest :=
  ⟨fun c hc => Or.inr (h c hc), fun more hmore => absurd hmore (h.ne_point more)⟩

/-- Blanks at the end of a text show no more than the end did. -/
theorem append (rest : List Char) {more : List Char} (h : AtBlank more) :
    Relaxes (rest ++ more) rest := by
  cases rest with
  | nil => exact of_atBlank h []
  | cons c rest =>
    refine ⟨BeginsAs.append (c :: rest) h, fun behind hbehind => ?_⟩
    obtain ⟨rfl, rfl⟩ := List.cons.inj hbehind
    exact ⟨rest, rfl, BeginsAs.append rest h⟩

end Relaxes

/-- Blanks and the end may follow every token. -/
theorem MayFollow.of_atBlank {other : List Char} {cut : Cut} {kind : Kind} {literal : Literal}
    (hfinding : cut.finding = .token kind literal) (hother : AtBlank other) :
    MayFollow other cut :=
  ⟨by simp [hfinding], .of_atBlank hother cut.rest, by simp [hfinding]⟩

/-- A piece stays the first one when what follows it is replaced. -/
theorem FirstPiece.replace {c : Char} {text other : List Char} {cut : Cut}
    (h : FirstPiece c text cut) (hother : MayFollow other cut) :
    FirstPiece c (cut.text.tail ++ other) ⟨cut.toPiece, other⟩ := by
  obtain ⟨hclosed, hrelaxes, hlineEnd⟩ := hother
  cases h with
  | single hopening => exact single hopening
  | alone hopening hrest =>
    exact alone hopening (hrelaxes.head.head?_ne (by simp [IsBlank]) hrest)
  | followed hopening => exact followed hopening
  | slash hrest => exact slash (hrelaxes.head.head?_ne (by simp [IsBlank]) hrest)
  | comment hbody hrest => exact comment hbody (hlineEnd rfl hrest)
  | blank hblank => exact blank hblank
  | @string content _ hcontent =>
    have hstring : FirstPiece '"' (content ++ '"' :: other) _ := string hcontent
    rwa [← List.singleton_append, ← List.append_assoc] at hstring
  | openString hcontent => exact absurd rfl hclosed
  | whole hdigits hrest => exact whole hdigits (hrelaxes.noFraction hrest)
  | fraction hdigits hpart hrest =>
    exact fraction hdigits hpart (hrelaxes.head.noDigit hrest)
  | word hopening htail hrest => exact word hopening htail (hrelaxes.head.noWordChar hrest)
  | stray hopening => exact stray hopening

/-- The pieces of a text that begins with a known piece. -/
theorem pieces_of_firstPiece {c : Char} {text : List Char} {cut : Cut}
    (h : FirstPiece c text cut) : pieces (c :: text) = cut.toPiece :: pieces cut.rest := by
  rw [pieces_cons, ← h.eq_of]

/-- Behind a piece, the pieces of what it is put in front of follow. -/
theorem pieces_append_of_mayFollow {c : Char} {text other : List Char}
    (h : MayFollow other (Cut.of c text)) :
    pieces ((Cut.of c text).text ++ other) = (Cut.of c text).toPiece :: pieces other := by
  obtain ⟨tail, htail⟩ := Cut.text_of_eq_cons c text
  have hfirst := (FirstPiece.of c text).replace h
  rw [htail, List.tail_cons] at hfirst
  rw [htail]
  exact pieces_of_firstPiece hfirst

/-- A piece that stands alone is read as itself. -/
theorem pieces_text_of {c : Char} {text : List Char}
    (h : (Cut.of c text).finding ≠ .problem .unterminatedString) :
    pieces (Cut.of c text).text = [(Cut.of c text).toPiece] := by
  have hend : MayFollow [] (Cut.of c text) :=
    ⟨h, .of_atBlank (by simp [AtBlank]) _, fun _ _ => Or.inl rfl⟩
  simpa using pieces_append_of_mayFollow hend

/-- A blank is a piece of its own. -/
theorem pieces_blank_cons {c : Char} (h : IsBlank c) (rest : List Char) :
    pieces (c :: rest) = ⟨[c], .trivia⟩ :: pieces rest :=
  pieces_of_firstPiece (.blank h)

/-- A comment up to its newline is a piece of its own. -/
theorem pieces_comment_append {body : List Char} (h : '\n' ∉ body) (rest : List Char) :
    pieces ('/' :: '/' :: body ++ '\n' :: rest) =
      ⟨'/' :: '/' :: body, .trivia⟩ :: pieces ('\n' :: rest) :=
  pieces_of_firstPiece (.comment h (Or.inr rfl))

section

variable (pos line : Nat) {c : Char} {text : List Char} {cut : Cut}

/-- What is found in a text is its first piece, unless that is trivia, and what is in the rest. -/
theorem finds_of_firstPiece (h : FirstPiece c text cut) :
    finds pos line (c :: text) =
      (if cut.finding = .trivia then [] else [⟨cut.toPiece, pos, line⟩]) ++
        finds (pos + size cut.text) (line + newlines cut.text) cut.rest := by
  rw [finds, placedPieces_cons, List.filter_cons, firstPlaced, ← h.eq_of]
  split <;> simp_all [finds]

/-- What is found behind a blank. -/
theorem finds_blank_cons (h : IsBlank c) (text : List Char) :
    finds pos line (c :: text) = finds (pos + size [c]) (line + newlines [c]) text :=
  finds_of_firstPiece pos line (.blank h)

/-- What is found behind a comment. -/
theorem finds_comment_append {body rest : List Char} (hbody : '\n' ∉ body)
    (hrest : AtLineEnd rest) : finds pos line ('/' :: '/' :: body ++ rest) =
      finds (pos + size ('/' :: '/' :: body)) line rest := by
  have hcomment : '\n' ∉ '/' :: '/' :: body := by simpa using hbody
  have hfinds := finds_of_firstPiece pos line (.comment hbody hrest)
  rwa [newlines_eq_zero hcomment] at hfinds

end

section

variable {stretch : List Char}

/-- Behind blanks and comments with their newlines, the pieces of what follows are unchanged. -/
theorem pieces_append_of_trivia (h : Trivia False stretch) (rest : List Char) :
    pieces (stretch ++ rest) = pieces stretch ++ pieces rest := by
  induction h with
  | nil => simp
  | blank hblank _ ih =>
    rw [List.cons_append, pieces_blank_cons hblank, pieces_blank_cons hblank, ih,
      List.cons_append]
  | @comment body more hbody _ ih =>
    have hcomment := pieces_comment_append hbody (more ++ rest)
    rw [← List.cons_append, ← List.append_assoc, ih] at hcomment
    rw [hcomment, pieces_comment_append hbody, List.cons_append]
  | openComment hfinal _ => exact hfinal.elim

/-- Blanks and comments with their newlines are passed over. -/
theorem finding_of_mem_pieces_of_trivia (h : Trivia False stretch) :
    ∀ piece ∈ pieces stretch, piece.finding = .trivia := by
  induction h with
  | nil => simp
  | blank hblank _ ih =>
    rw [pieces_blank_cons hblank]
    exact List.forall_mem_cons.2 ⟨rfl, ih⟩
  | comment hbody _ ih =>
    rw [pieces_comment_append hbody]
    exact List.forall_mem_cons.2 ⟨rfl, ih⟩
  | openComment hfinal _ => exact hfinal.elim

end

end LoxScan
