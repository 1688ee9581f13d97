import LoxScan.Proofs.Unfinished

/-!
# What is read from bytes

The machine that reads UTF-8 hands out a character exactly for the bytes that encode it, and an
ill-formed part for bytes that encode none. So strict reading undoes encoding and accepts nothing
else, and lossy reading makes no newline of bytes without one.
-/

namespace LoxScan.Utf8

open Unfinished (Begun)

/-- The parts that are read from bytes while a character is open, or none is. -/
def partsFrom (unfinished : Option Unfinished) (bytes : List UInt8) : List (Option Char) :=
  (bytes.foldl Decoder.feed ⟨#[], unfinished⟩).abandon.parts.toList

/-- The parts of a sequence are those that a decoder with nothing unfinished finds. -/
theorem partsFrom_none (bytes : List UInt8) : partsFrom none bytes = parts bytes := rfl

/-- The parts read so far have no influence on what is read next. -/
theorem feed_eq (decoder : Decoder) (byte : UInt8) : decoder.feed byte =
    ⟨decoder.parts ++ (Decoder.feed ⟨#[], decoder.unfinished⟩ byte).parts,
      (Decoder.feed ⟨#[], decoder.unfinished⟩ byte).unfinished⟩ := by
  have hbegin (decoder : Decoder) : decoder.begin byte =
      ⟨decoder.parts ++ (Decoder.begin ⟨#[], decoder.unfinished⟩ byte).parts,
        (Decoder.begin ⟨#[], decoder.unfinished⟩ byte).unfinished⟩ := by
    simp only [Decoder.begin]
    split
    · simp
    · split <;> simp
  obtain ⟨front, unfinished⟩ := decoder
  cases unfinished with
  | none => exact hbegin _
  | some open_ =>
    simp only [Decoder.feed]
    split
    · split <;> simp
    · rw [hbegin, hbegin (Decoder.abandon ⟨#[], some open_⟩)]
      simp [Decoder.abandon]

/-- Reading goes on behind the parts read so far. -/
theorem parts_foldl_feed (decoder : Decoder) (bytes : List UInt8) :
    (bytes.foldl Decoder.feed decoder).abandon.parts.toList =
      decoder.parts.toList ++ partsFrom decoder.unfinished bytes := by
  induction bytes generalizing decoder with
  | nil =>
    obtain ⟨front, unfinished⟩ := decoder
    cases unfinished <;> simp [partsFrom, Decoder.abandon]
  | cons byte bytes ih =>
    rw [partsFrom, List.foldl_cons, List.foldl_cons, ih, ih, feed_eq decoder]
    simp

section

variable {unfinished : Unfinished} {byte : UInt8} {bytes : List UInt8} {owed value : Nat}
  {low high : UInt8}

/-- A decoder finds the parts that the next byte completes, and those behind it. -/
theorem partsFrom_cons (found : Option Unfinished) (byte : UInt8) (bytes : List UInt8) :
    partsFrom found (byte :: bytes) = (Decoder.feed ⟨#[], found⟩ byte).parts.toList ++
      partsFrom (Decoder.feed ⟨#[], found⟩ byte).unfinished bytes :=
  parts_foldl_feed (Decoder.feed ⟨#[], found⟩ byte) bytes

/-- An ASCII byte is a character. -/
theorem parts_cons_ascii (h : byte < 0x80) :
    parts (byte :: bytes) = some (Char.ofUInt8 byte) :: parts bytes := by
  rw [← partsFrom_none, partsFrom_cons]
  simp [Decoder.feed, Decoder.begin, h, partsFrom_none]

/-- The first byte of several opens a character. -/
theorem parts_cons_lead (h : Unfinished.ofLead? byte = some unfinished) :
    parts (byte :: bytes) = partsFrom (some unfinished) bytes := by
  have hrange := Unfinished.ofLead?_isSome_iff.1 (Option.isSome_of_eq_some h)
  have hbyte : ¬ byte < 0x80 := by
    rw [UInt8.lt_iff_toNat_lt]
    simp only [UInt8.reduceToNat]
    omega
  rw [← partsFrom_none, partsFrom_cons]
  simp [Decoder.feed, Decoder.begin, hbyte, h]

/-- Any other byte is ill-formed where no character is open. -/
theorem parts_cons_stray (hbyte : ¬ byte < 0x80) (h : Unfinished.ofLead? byte = none) :
    parts (byte :: bytes) = none :: parts bytes := by
  rw [← partsFrom_none, partsFrom_cons]
  simp [Decoder.feed, Decoder.begin, hbyte, h, partsFrom_none]

/-- A character that is open at the end is ill-formed. -/
theorem partsFrom_some_nil : partsFrom (some unfinished) [] = [none] := rfl

/-- The last byte of an open character ends it. -/
theorem partsFrom_some_last (h : (Unfinished.mk 0 low high value).Admits byte) :
    partsFrom (some ⟨0, low, high, value⟩) (byte :: bytes) =
      some (Char.ofNat (value * 64 + (byte.toNat - 0x80))) :: parts bytes := by
  have hbounds : low ≤ byte ∧ byte ≤ high := h
  rw [partsFrom_cons]
  simp [Decoder.feed, hbounds, partsFrom_none]

/-- Every other byte of an open character leaves it open. -/
theorem partsFrom_some_more (h : (Unfinished.mk (owed + 1) low high value).Admits byte) :
    partsFrom (some ⟨owed + 1, low, high, value⟩) (byte :: bytes) =
      partsFrom (some ⟨owed, 0x80, 0xBF, value * 64 + (byte.toNat - 0x80)⟩) bytes := by
  have hbounds : low ≤ byte ∧ byte ≤ high := h
  rw [partsFrom_cons]
  simp [Decoder.feed, hbounds]

/-- A byte that does not go on with an open character leaves it ill-formed, and is read anew. -/
theorem partsFrom_some_abandon (h : ¬ unfinished.Admits byte) :
    partsFrom (some unfinished) (byte :: bytes) = none :: parts (byte :: bytes) := by
  have hbounds : ¬ (unfinished.low ≤ byte ∧ byte ≤ unfinished.high) := h
  have hfeed : Decoder.feed ⟨#[], some unfinished⟩ byte = Decoder.feed ⟨#[none], none⟩ byte := by
    simp [Decoder.feed, hbounds, Decoder.abandon]
  rw [partsFrom_cons, hfeed, feed_eq, ← partsFrom_none, partsFrom_cons]
  simp

end

/-- An ASCII character is encoded by its byte. -/
theorem encodeChar_ofUInt8 {byte : UInt8} (h : byte < 0x80) :
    String.utf8EncodeChar (Char.ofUInt8 byte) = [byte] := by
  have hbyte : byte.toNat < 0x80 := UInt8.lt_iff_toNat_lt.1 h
  have hnumber : (Char.ofUInt8 byte).toNat = byte.toNat := UInt8.toNat_toUInt32 byte
  rw [encodeChar_eq_cons, trail_of_ascii (by omega), List.cons.injEq, ← UInt8.toNat_inj,
    toNat_lead, if_pos (by omega)]
  exact ⟨hnumber, rfl⟩

/-- Parts stand for bytes: a character for its encoding, an ill-formed part for any bytes. -/
inductive Spells : List (Option Char) → List UInt8 → Prop where
  | nil : Spells [] []
  | char {parts : List (Option Char)} {bytes : List UInt8} (c : Char) (h : Spells parts bytes) :
      Spells (some c :: parts) (String.utf8EncodeChar c ++ bytes)
  | illFormed {parts : List (Option Char)} {bytes : List UInt8} (skipped : List UInt8)
      (h : Spells parts bytes) : Spells (none :: parts) (skipped ++ bytes)

/-- The parts read from bytes stand for these bytes, and for those seen of an open character. -/
theorem spells_partsFrom (bytes : List UInt8) : Spells (parts bytes) bytes ∧
    ∀ seen unfinished, Begun seen unfinished →
      Spells (partsFrom (some unfinished) bytes) (seen ++ bytes) := by
  induction bytes with
  | nil =>
    refine ⟨.nil, fun seen unfinished hbegun => ?_⟩
    rw [partsFrom_some_nil]
    exact .illFormed seen .nil
  | cons byte bytes ih =>
    obtain ⟨hparts, hopen⟩ := ih
    have hanew : Spells (parts (byte :: bytes)) (byte :: bytes) := by
      by_cases hbyte : byte < 0x80
      · have hspells := Spells.char (Char.ofUInt8 byte) hparts
        rw [encodeChar_ofUInt8 hbyte] at hspells
        rwa [parts_cons_ascii hbyte]
      · cases hlead : Unfinished.ofLead? byte with
        | none =>
          rw [parts_cons_stray hbyte hlead]
          exact .illFormed [byte] hparts
        | some unfinished =>
          rw [parts_cons_lead hlead]
          exact hopen [byte] unfinished (.lead hlead)
    refine ⟨hanew, fun seen unfinished hbegun => ?_⟩
    by_cases hadmits : unfinished.Admits byte
    · obtain ⟨owed, low, high, value⟩ := unfinished
      cases owed with
      | zero =>
        have hspells := Spells.char (Char.ofNat (value * 64 + (byte.toNat - 0x80))) hparts
        rw [hbegun.encodeChar_ofNat hadmits, List.append_assoc] at hspells
        rwa [partsFrom_some_last hadmits]
      | succ owed =>
        have hspells := hopen _ _ (.more hbegun hadmits)
        rw [List.append_assoc] at hspells
        rwa [partsFrom_some_more hadmits]
    · rw [partsFrom_some_abandon hadmits]
      exact .illFormed seen hanew

/-- The bytes of every character that is read are among those read. -/
theorem Spells.mem {parts : List (Option Char)} {bytes : List UInt8} {c : Char} {byte : UInt8}
    (h : Spells parts bytes) (hc : some c ∈ parts) (hbyte : byte ∈ String.utf8EncodeChar c) :
    byte ∈ bytes := by
  induction h with
  | nil => simp at hc
  | char d h ih =>
    rcases List.mem_cons.1 hc with heq | hc
    · cases heq
      exact List.mem_append_left _ hbyte
    · exact List.mem_append_right _ (ih hc)
  | illFormed skipped h ih =>
    rcases List.mem_cons.1 hc with heq | hc
    · cases heq
    · exact List.mem_append_right _ (ih hc)

/-- Parts that are all characters stand for their encoding. -/
theorem Spells.eq_encode {text : List Char} {bytes : List UInt8}
    (h : Spells (text.map some) bytes) : bytes = encode text := by
  induction text generalizing bytes with
  | nil =>
    cases h
    rfl
  | cons c text ih =>
    cases h with
    | char _ h => rw [ih h, encode_cons]

/-- Bytes seen of a character leave it open. -/
theorem parts_begun {seen : List UInt8} {unfinished : Unfinished} (h : Begun seen unfinished)
    (bytes : List UInt8) : parts (seen ++ bytes) = partsFrom (some unfinished) bytes := by
  induction h generalizing bytes with
  | lead h => exact parts_cons_lead h
  | more h hadmits ih =>
    rw [List.append_assoc, ih, List.singleton_append, partsFrom_some_more hadmits]

/-- The encoding of a character is read as that character. -/
theorem parts_encodeChar (c : Char) (bytes : List UInt8) :
    parts (String.utf8EncodeChar c ++ bytes) = some c :: parts bytes := by
  by_cases hc : c.toNat < 128
  · have hlead : lead c < 0x80 := by
      rw [UInt8.lt_iff_toNat_lt, toNat_lead, if_pos (by omega)]
      simpa using hc
    rw [encodeChar_eq_cons, trail_of_ascii hc, List.singleton_append, parts_cons_ascii hlead,
      ofUInt8_lead hc]
  · obtain ⟨seen, low, high, value, byte, hbytes, hbegun, hadmits⟩ :=
      Unfinished.exists_begun (Nat.le_of_not_lt hc)
    have hchar : Char.ofNat (value * 64 + (byte.toNat - 0x80)) = c := by
      have hencode : encode [Char.ofNat (value * 64 + (byte.toNat - 0x80))] = encode [c] := by
        simp [hbegun.encodeChar_ofNat hadmits, hbytes]
      exact List.singleton_inj.1 (encode_injective hencode)
    rw [hbytes, List.append_assoc, parts_begun hbegun, List.singleton_append,
      partsFrom_some_last hadmits, hchar]

/-- A text that was encoded is found character by character. -/
theorem parts_encode (text : List Char) : parts (encode text) = text.map some := by
  induction text with
  | nil => rfl
  | cons c text ih => rw [encode_cons, parts_encodeChar, ih, List.map_cons]

/-- Strict reading takes parts that are all characters. -/
theorem mapM_id_eq_some_iff {parts : List (Option Char)} {text : List Char} :
    parts.mapM id = some text ↔ parts = text.map some := by
  induction parts generalizing text with
  | nil => cases text <;> simp
  | cons part parts ih =>
    cases part with
    | none => cases text <;> simp [List.mapM_cons]
    | some c => cases text <;> simp [List.mapM_cons, Option.bind_eq_some_iff, ih, and_comm]

/-- Strict reading accepts exactly encodings, and undoes them. -/
theorem decode?_eq_some_iff {bytes : List UInt8} {text : List Char} :
    decode? bytes = some text ↔ bytes = encode text := by
  rw [decode?, mapM_id_eq_some_iff]
  constructor
  · intro h
    have hspells := (spells_partsFrom bytes).1
    rw [h] at hspells
    exact hspells.eq_encode
  · rintro rfl
    exact parts_encode text

/-- Lossy reading undoes encoding. -/
theorem decodeLossy_encode (text : List Char) : decodeLossy (encode text) = text := by
  rw [decodeLossy, parts_encode, List.map_map]
  exact List.map_id text

/-- Lossy reading makes no newline of bytes without one. -/
theorem newline_mem_of_mem_decodeLossy {bytes : List UInt8} (h : '\n' ∈ decodeLossy bytes) :
    '\n'.toUInt8 ∈ bytes := by
  obtain ⟨part, hpart, hchar⟩ := List.mem_map.1 h
  cases part with
  | none => cases hchar
  | some c =>
    obtain rfl : c = '\n' := hchar
    exact (spells_partsFrom bytes).1.mem hpart (by decide)

end LoxScan.Utf8
