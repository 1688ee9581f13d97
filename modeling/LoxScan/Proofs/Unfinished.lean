import LoxScan.Proofs.Lead
import LoxScan.Text.Decode
import Mathlib.Tactic.SplitIfs

/-!
# Characters of several bytes

What the machine that reads UTF-8 remembers of an open character is determined by the bytes seen of
it. The bounds of the second byte exclude exactly the numbers that are no characters and the longer
spellings of those that are. So the byte that ends an open character ends its encoding, and the
encoding of every character beyond ASCII is read to its end.
-/

namespace LoxScan.Utf8

section

variable {lead second third fourth byte : UInt8} {c : Char}

/-- The character of a number has that number. -/
theorem toNat_ofNat {value : Nat} (h : value ≤ 0xD7FF ∨ 0xE000 ≤ value ∧ value ≤ 0x10FFFF) :
    (Char.ofNat value).toNat = value := by
  have hvalid : value.isValidChar := by
    simp only [Nat.isValidChar]
    omega
  rw [Char.ofNat, dif_pos hvalid]
  rfl

/-- A number below 256 makes a byte just if it is the number of the byte. -/
theorem ofNat_eq_iff {value : Nat} (h : value < 256) :
    UInt8.ofNat value = byte ↔ value = byte.toNat := by
  rw [← UInt8.toNat_inj, UInt8.toNat_ofNat']
  omega

/-- The characters of two bytes. -/
theorem encodeChar_eq_two_iff : String.utf8EncodeChar c = [lead, second] ↔
    (0xC2 ≤ lead.toNat ∧ lead.toNat ≤ 0xDF) ∧ (0x80 ≤ second.toNat ∧ second.toNat ≤ 0xBF) ∧
      c.toNat = (lead.toNat - 0xC0) * 64 + (second.toNat - 0x80) := by
  have hval : c.val.toNat = c.toNat := rfl
  simp only [String.utf8EncodeChar, hval]
  split
  · simp
    omega
  · split
    · simp only [List.cons.injEq, and_true]
      rw [ofNat_eq_iff (by omega), ofNat_eq_iff (by omega)]
      omega
    · split
      all_goals
        simp
        omega

/-- The characters of three bytes. -/
theorem encodeChar_eq_three_iff : String.utf8EncodeChar c = [lead, second, third] ↔
    (0xE0 ≤ lead.toNat ∧ lead.toNat ≤ 0xEF) ∧ (0x80 ≤ second.toNat ∧ second.toNat ≤ 0xBF) ∧
      (0x80 ≤ third.toNat ∧ third.toNat ≤ 0xBF) ∧ 0x7FF < c.toNat ∧
      c.toNat = ((lead.toNat - 0xE0) * 64 + (second.toNat - 0x80)) * 64 + (third.toNat - 0x80) := by
  have hval : c.val.toNat = c.toNat := rfl
  simp only [String.utf8EncodeChar, hval]
  split
  · simp
    omega
  · split
    · simp
      omega
    · split
      · simp only [List.cons.injEq, and_true]
        rw [ofNat_eq_iff (by omega), ofNat_eq_iff (by omega), ofNat_eq_iff (by omega)]
        omega
      · simp
        omega

/-- The characters of four bytes. -/
theorem encodeChar_eq_four_iff : String.utf8EncodeChar c = [lead, second, third, fourth] ↔
    (0xF0 ≤ lead.toNat ∧ lead.toNat ≤ 0xF4) ∧ (0x80 ≤ second.toNat ∧ second.toNat ≤ 0xBF) ∧
      (0x80 ≤ third.toNat ∧ third.toNat ≤ 0xBF) ∧ (0x80 ≤ fourth.toNat ∧ fourth.toNat ≤ 0xBF) ∧
      0xFFFF < c.toNat ∧
      c.toNat = (((lead.toNat - 0xF0) * 64 + (second.toNat - 0x80)) * 64 +
        (third.toNat - 0x80)) * 64 + (fourth.toNat - 0x80) := by
  have hval : c.val.toNat = c.toNat := rfl
  have hvalid := valid_toNat c
  simp only [String.utf8EncodeChar, hval]
  split
  · simp
    omega
  · split
    · simp
      omega
    · split
      · simp
        omega
      · simp only [List.cons.injEq, and_true]
        rw [ofNat_eq_iff (by omega), ofNat_eq_iff (by omega), ofNat_eq_iff (by omega),
          ofNat_eq_iff (by omega)]
        omega

end

namespace Unfinished

/-- Whether a byte goes on with an open character. -/
def Admits (unfinished : Unfinished) (byte : UInt8) : Prop :=
  unfinished.low ≤ byte ∧ byte ≤ unfinished.high

/-- The value of an open character with one more byte. -/
def extend (unfinished : Unfinished) (byte : UInt8) : Nat :=
  unfinished.value * 64 + (byte.toNat - 0x80)

section

variable {owed value : Nat} {low high lead byte : UInt8}

/-- A byte is admitted between two bounds. -/
theorem admits_mk : (mk owed low high value).Admits byte ↔
    low.toNat ≤ byte.toNat ∧ byte.toNat ≤ high.toNat := by
  simp only [Admits, UInt8.le_iff_toNat_le]

/-- A byte adds six bits. -/
theorem extend_mk : (mk owed low high value).extend byte = value * 64 + (byte.toNat - 0x80) := rfl

/-- Any byte that is not the first of a character is admitted where the bounds are the usual
ones. -/
theorem admits_usual :
    (mk owed 0x80 0xBF value).Admits byte ↔ 0x80 ≤ byte.toNat ∧ byte.toNat ≤ 0xBF := by
  rw [admits_mk]
  simp only [UInt8.reduceToNat]

/-- The bytes that open a character. -/
theorem ofLead?_isSome_iff : (ofLead? lead).isSome ↔ 0xC2 ≤ lead.toNat ∧ lead.toNat ≤ 0xF4 := by
  simp only [ofLead?, UInt8.le_iff_toNat_le, ← UInt8.toNat_inj, UInt8.reduceToNat]
  split_ifs <;> simp <;> omega

/-- What a first byte leaves open, by the number of bytes of the character. The second byte is
admitted unless all that could follow it spells a number that is no character or too small. -/
inductive Opened (lead : UInt8) (unfinished : Unfinished) : Prop where
  | two (owed : unfinished.owed = 0) (bounds : 0xC2 ≤ lead.toNat ∧ lead.toNat ≤ 0xDF)
      (value : lead.toNat = 0xC0 + unfinished.value)
      (admits : ∀ byte, unfinished.Admits byte ↔ 0x80 ≤ byte.toNat ∧ byte.toNat ≤ 0xBF)
  | three (owed : unfinished.owed = 1) (bounds : 0xE0 ≤ lead.toNat ∧ lead.toNat ≤ 0xEF)
      (value : lead.toNat = 0xE0 + unfinished.value)
      (admits : ∀ byte, unfinished.Admits byte ↔ (0x80 ≤ byte.toNat ∧ byte.toNat ≤ 0xBF) ∧
        0x20 ≤ unfinished.extend byte ∧
          (unfinished.extend byte < 0x360 ∨ 0x380 ≤ unfinished.extend byte))
  | four (owed : unfinished.owed = 2) (bounds : 0xF0 ≤ lead.toNat ∧ lead.toNat ≤ 0xF4)
      (value : lead.toNat = 0xF0 + unfinished.value)
      (admits : ∀ byte, unfinished.Admits byte ↔ (0x80 ≤ byte.toNat ∧ byte.toNat ≤ 0xBF) ∧
        0x10 ≤ unfinished.extend byte ∧ unfinished.extend byte < 0x110)

/-- What a lead byte opens is a character of two, three or four bytes. -/
theorem Opened.of_ofLead? {unfinished : Unfinished} (h : ofLead? lead = some unfinished) :
    Opened lead unfinished := by
  simp only [ofLead?, UInt8.le_iff_toNat_le, ← UInt8.toNat_inj, UInt8.reduceToNat] at h
  split_ifs at h with htwo he0 hed hthree hf0 hfour hf4 <;> cases h
  · exact .two rfl htwo (by simp only; omega) fun byte => admits_usual
  all_goals
    first
    | refine .three rfl (by omega) (by simp only; omega) fun byte => ?_
    | refine .four rfl (by omega) (by simp only; omega) fun byte => ?_
    rw [admits_mk, extend_mk]
    simp only [UInt8.reduceToNat]
    omega

/-- A byte that opens a character opens one of some number of bytes. -/
theorem exists_opened (h : 0xC2 ≤ lead.toNat ∧ lead.toNat ≤ 0xF4) :
    ∃ owed low high value, ofLead? lead = some ⟨owed, low, high, value⟩ ∧
      Opened lead ⟨owed, low, high, value⟩ := by
  obtain ⟨⟨owed, low, high, value⟩, hopen⟩ := Option.isSome_iff_exists.1 (ofLead?_isSome_iff.2 h)
  exact ⟨owed, low, high, value, hopen, .of_ofLead? hopen⟩

end

/-- Bytes that begin a character, with what they leave open of it. -/
inductive Begun : List UInt8 → Unfinished → Prop where
  | lead {lead : UInt8} {unfinished : Unfinished} (h : ofLead? lead = some unfinished) :
      Begun [lead] unfinished
  | more {seen : List UInt8} {owed value : Nat} {low high byte : UInt8}
      (h : Begun seen ⟨owed + 1, low, high, value⟩)
      (hadmits : (mk (owed + 1) low high value).Admits byte) :
      Begun (seen ++ [byte]) ⟨owed, 0x80, 0xBF, value * 64 + (byte.toNat - 0x80)⟩

section

variable {seen : List UInt8} {owed value : Nat} {low high byte : UInt8}

/-- An open character is owed two bytes after the next one at most. -/
theorem Begun.owed_le {unfinished : Unfinished} (h : Begun seen unfinished) :
    unfinished.owed ≤ 2 := by
  induction h with
  | lead h =>
    cases Opened.of_ofLead? h <;> omega
  | more h hadmits ih =>
    simp only at ih ⊢
    omega

/-- The byte that ends an open character makes its encoding complete. -/
theorem Begun.encodeChar_ofNat (h : Begun seen ⟨0, low, high, value⟩)
    (hadmits : (mk 0 low high value).Admits byte) :
    String.utf8EncodeChar (Char.ofNat (value * 64 + (byte.toNat - 0x80))) = seen ++ [byte] := by
  -- By the number of bytes seen, which are one, two or three.
  cases h with
  | lead h =>
    cases Opened.of_ofLead? h with
    | two howed bounds hvalue admits =>
      simp only at hvalue
      rw [admits] at hadmits
      refine encodeChar_eq_two_iff.2 ⟨bounds, hadmits, ?_⟩
      rw [toNat_ofNat (by omega)]
      omega
    | three howed | four howed => cases howed
  | more h hsecond =>
    rw [admits_usual] at hadmits
    cases h with
    | lead h =>
      cases Opened.of_ofLead? h with
      | three howed bounds hvalue admits =>
        simp only at hvalue
        rw [admits, extend_mk] at hsecond
        refine encodeChar_eq_three_iff.2 ⟨bounds, hsecond.1, hadmits, ?_⟩
        rw [toNat_ofNat (by omega)]
        omega
      | two howed | four howed => cases howed
    | more h hthird =>
      rw [admits_usual] at hsecond
      cases h with
      | lead h =>
        cases Opened.of_ofLead? h with
        | four howed bounds hvalue admits =>
          simp only at hvalue
          rw [admits, extend_mk] at hthird
          refine encodeChar_eq_four_iff.2 ⟨bounds, hthird.1, hsecond, hadmits, ?_⟩
          rw [toNat_ofNat (by omega)]
          omega
        | two howed | three howed => cases howed
      | more h =>
        have howed := h.owed_le
        simp at howed

/-- A character beyond ASCII is complete with its last byte, and open before that. -/
theorem exists_begun {c : Char} (h : 128 ≤ c.toNat) :
    ∃ seen low high value byte, String.utf8EncodeChar c = seen ++ [byte] ∧
      Begun seen ⟨0, low, high, value⟩ ∧ (mk 0 low high value).Admits byte := by
  have hlength := String.length_utf8EncodeChar c
  have hvalid := valid_toNat c
  rw [utf8Size_eq, if_neg (by omega)] at hlength
  match hbytes : String.utf8EncodeChar c with
  | [] | [_] | _ :: _ :: _ :: _ :: _ :: _ =>
    rw [hbytes] at hlength
    split_ifs at hlength <;> simp at hlength
  | [lead, second] =>
    obtain ⟨bounds, hsecond, hnumber⟩ := encodeChar_eq_two_iff.1 hbytes
    have hrange : 0xC2 ≤ lead.toNat ∧ lead.toNat ≤ 0xF4 := by omega
    obtain ⟨owed, low, high, value, hopen, hopened⟩ := exists_opened hrange
    cases hopened with
    | two howed _ hvalue admits =>
      obtain rfl : owed = 0 := howed
      exact ⟨[lead], low, high, value, second, rfl, .lead hopen, (admits second).2 hsecond⟩
    | three _ bounds' | four _ bounds' => omega
  | [lead, second, third] =>
    obtain ⟨bounds, hsecond, hthird, hfloor, hnumber⟩ := encodeChar_eq_three_iff.1 hbytes
    have hrange : 0xC2 ≤ lead.toNat ∧ lead.toNat ≤ 0xF4 := by omega
    obtain ⟨owed, low, high, value, hopen, hopened⟩ := exists_opened hrange
    cases hopened with
    | three howed _ hvalue admits =>
      obtain rfl : owed = 1 := howed
      simp only at hvalue
      have hadmits := (admits second).2 (by rw [extend_mk]; omega)
      exact ⟨[lead] ++ [second], 0x80, 0xBF, _, third, rfl, .more (.lead hopen) hadmits,
        admits_usual.2 hthird⟩
    | two _ bounds' | four _ bounds' => omega
  | [lead, second, third, fourth] =>
    obtain ⟨bounds, hsecond, hthird, hfourth, hfloor, hnumber⟩ := encodeChar_eq_four_iff.1 hbytes
    have hrange : 0xC2 ≤ lead.toNat ∧ lead.toNat ≤ 0xF4 := by omega
    obtain ⟨owed, low, high, value, hopen, hopened⟩ := exists_opened hrange
    cases hopened with
    | four howed _ hvalue admits =>
      obtain rfl : owed = 2 := howed
      simp only at hvalue
      have hadmits := (admits second).2 (by rw [extend_mk]; omega)
      exact ⟨[lead] ++ [second] ++ [third], 0x80, 0xBF, _, fourth, rfl,
        .more (.more (.lead hopen) hadmits) (admits_usual.2 hthird), admits_usual.2 hfourth⟩
    | two _ bounds' | three _ bounds' => omega

end

end Unfinished

end LoxScan.Utf8
