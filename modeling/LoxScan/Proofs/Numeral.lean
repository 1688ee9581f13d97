import LoxScan.Number.Decimal
import Mathlib.Data.List.TakeWhile

/-!
# Numerals

A numeral is a run of digits, or two runs with a point between them. These are exactly the texts
that denote a decimal.
-/

namespace LoxScan

/-- A run of at least one digit. -/
structure Digits (text : List Char) : Prop where
  ne_nil : text ≠ []
  isDigit : ∀ c ∈ text, c.isDigit = true

/-- A run of digits, or two of them with a point between. -/
inductive Numeral : List Char → Prop
  | whole {text : List Char} : Digits text → Numeral text
  | fraction {whole part : List Char} :
    Digits whole → Digits part → Numeral (whole ++ '.' :: part)

/-- A numeral holds digits and points only. -/
theorem Numeral.mem {text : List Char} (h : Numeral text) {c : Char} (hc : c ∈ text) :
    c.isDigit = true ∨ c = '.' := by
  cases h with
  | whole hdigits => exact Or.inl (hdigits.isDigit c hc)
  | fraction hwhole hpart =>
    rcases List.mem_append.1 hc with hc | hc
    · exact Or.inl (hwhole.isDigit c hc)
    · rcases List.mem_cons.1 hc with rfl | hc
      · exact Or.inr rfl
      · exact Or.inl (hpart.isDigit c hc)

/-- A numeral has a character. -/
theorem Numeral.ne_nil {text : List Char} (h : Numeral text) : text ≠ [] := by
  cases h with
  | whole hdigits => exact hdigits.ne_nil
  | fraction hwhole hpart => simp

/-- A numeral begins with a digit. -/
theorem Numeral.isDigit_head {c : Char} {tail : List Char} (h : Numeral (c :: tail)) :
    c.isDigit = true := by
  generalize htext : c :: tail = text at h
  cases h with
  | whole hdigits => exact hdigits.isDigit c (htext ▸ List.mem_cons_self)
  | @fraction whole part hwhole hpart =>
    cases whole with
    | nil => exact absurd rfl hwhole.ne_nil
    | cons d rest =>
      cases htext
      exact hwhole.isDigit c List.mem_cons_self

namespace Decimal

/-- A numeral without a point denotes its digits. -/
theorem ofNumeral?_whole {text : List Char} (h : Digits text) :
    ofNumeral? text = some ⟨ofDigits text, 0⟩ := by
  unfold ofNumeral?
  rw [List.takeWhile_eq_self_iff.2 h.isDigit, List.dropWhile_eq_nil_iff.2 h.isDigit]
  simp [h.ne_nil]

/-- A numeral with a point denotes its digits, as many places to the right as there are behind the
point. -/
theorem ofNumeral?_point {whole part : List Char} (hwhole : Digits whole) (hpart : Digits part) :
    ofNumeral? (whole ++ '.' :: part) = some ⟨ofDigits (whole ++ part), -part.length⟩ := by
  have hpoint : '.'.isDigit = false := by decide
  unfold ofNumeral?
  rw [List.takeWhile_append_of_pos hwhole.isDigit, List.dropWhile_append_of_pos hwhole.isDigit]
  simpa [hpoint, hwhole.ne_nil, hpart.ne_nil] using hpart.isDigit

/-- Every numeral denotes a decimal. -/
theorem ofNumeral?_isSome {text : List Char} (h : Numeral text) :
    (ofNumeral? text).isSome = true := by
  cases h with
  | whole hdigits =>
    rw [ofNumeral?_whole hdigits]
    rfl
  | fraction hwhole hpart =>
    rw [ofNumeral?_point hwhole hpart]
    rfl

/-- Nothing else does. -/
theorem numeral_of_ofNumeral?_isSome {text : List Char} (h : (ofNumeral? text).isSome = true) :
    Numeral text := by
  have hwhole : ∀ c ∈ text.takeWhile Char.isDigit, c.isDigit = true :=
    fun c hc => List.mem_takeWhile_imp hc
  have hsplit := List.takeWhile_append_dropWhile (p := Char.isDigit) (l := text)
  unfold ofNumeral? at h
  simp only at h
  split at h
  · simp at h
  · next hempty =>
    have hdigits : Digits (text.takeWhile Char.isDigit) := ⟨by simpa using hempty, hwhole⟩
    split at h
    · next hdrop =>
      rw [hdrop, List.append_nil] at hsplit
      rw [← hsplit]
      exact .whole hdigits
    · next part hdrop =>
      split at h
      · next hpart =>
        rw [hdrop] at hsplit
        rw [← hsplit]
        simp only [Bool.and_eq_true, Bool.not_eq_true', List.isEmpty_eq_false_iff,
          List.all_eq_true] at hpart
        exact .fraction hdigits ⟨hpart.1, hpart.2⟩
      · simp at h
    · simp at h

/-- Numerals are the texts that denote decimals. -/
theorem ofNumeral?_isSome_iff (text : List Char) :
    (ofNumeral? text).isSome = true ↔ Numeral text :=
  ⟨numeral_of_ofNumeral?_isSome, ofNumeral?_isSome⟩

end Decimal

end LoxScan
