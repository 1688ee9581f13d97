import LoxScan.Proofs.Decoding
import Mathlib.Data.List.Induction

/-!
# Bytes that encode no text

How bytes are read as a text, said without a machine: where a character is encoded it is read, and
elsewhere the longest run of bytes that begins the encoding of some character is skipped, or one
byte if none does. A replacement character stands for each such run. Bytes can be read so in one way
only, and this is what the machine reads.
-/

namespace LoxScan.Utf8

open Unfinished (Begun)

/-- Whether the encoding of some character begins with these bytes. -/
def BeginsCharacter (bytes : List UInt8) : Prop := ∃ c : Char, bytes <+: String.utf8EncodeChar c

/-- The maximal ill-formed subpart at the front of bytes, and what is behind it. -/
structure MaximalSubpart (part rest : List UInt8) : Prop where
  ne_nil : part ≠ []
  illFormed : ∀ c : Char, ¬ String.utf8EncodeChar c <+: part ++ rest
  begins : BeginsCharacter part ∨ part.length = 1
  longest : ∀ other, other <+: part ++ rest → BeginsCharacter other → other.length ≤ part.length

/-- The text that is read from bytes, with a replacement character for each maximal ill-formed
subpart. -/
inductive Lossy : List UInt8 → List Char → Prop where
  | nil : Lossy [] []
  | char {bytes : List UInt8} {text : List Char} (c : Char) (h : Lossy bytes text) :
      Lossy (String.utf8EncodeChar c ++ bytes) (c :: text)
  | illFormed {part bytes : List UInt8} {text : List Char} (hpart : MaximalSubpart part bytes)
      (h : Lossy bytes text) : Lossy (part ++ bytes) ('\uFFFD' :: text)

namespace Unfinished

section

variable {seen : List UInt8} {owed value : Nat} {low high byte : UInt8}

/-- Some byte goes on with an open character. -/
theorem Begun.low_le (h : Begun seen ⟨owed, low, high, value⟩) : low ≤ high := by
  generalize hopen : Unfinished.mk owed low high value = unfinished at h
  cases h with
  | lead h =>
    subst hopen
    simp only [ofLead?] at h
    split_ifs at h <;> cases h <;> decide
  | more =>
    cases hopen
    decide

/-- Bytes seen of an open character begin the encoding of one. -/
theorem Begun.beginsCharacter (h : Begun seen ⟨owed, low, high, value⟩) : BeginsCharacter seen := by
  have hadmits : (mk owed low high value).Admits low := ⟨UInt8.le_refl low, h.low_le⟩
  induction owed generalizing seen low high value with
  | zero => exact ⟨_, _, (h.encodeChar_ofNat hadmits).symm⟩
  | succ owed ih =>
    have hmore := Begun.more h hadmits
    obtain ⟨c, hc⟩ := ih hmore ⟨UInt8.le_refl _, hmore.low_le⟩
    exact ⟨c, (List.prefix_append seen [low]).trans hc⟩

/-- So do they with a byte that goes on with it. -/
theorem Begun.beginsCharacter_of_admits (h : Begun seen ⟨owed, low, high, value⟩)
    (hadmits : (mk owed low high value).Admits byte) : BeginsCharacter (seen ++ [byte]) := by
  cases owed with
  | zero =>
    rw [← h.encodeChar_ofNat hadmits]
    exact ⟨_, List.prefix_rfl⟩
  | succ owed => exact (Begun.more h hadmits).beginsCharacter

/-- The first bytes of an open character leave it open. -/
theorem Begun.exists_of_prefix {unfinished : Unfinished} (h : Begun seen unfinished)
    {front : List UInt8} (hfront : front <+: seen) (hne : front ≠ []) :
    ∃ unfinished, Begun front unfinished := by
  induction h generalizing front with
  | lead h =>
    have hlead : front <+: [] ++ [_] := hfront
    rcases List.prefix_concat_iff.1 hlead with rfl | hnil
    · exact ⟨_, .lead h⟩
    · exact absurd (List.prefix_nil.1 hnil) hne
  | more h hadmits ih =>
    rcases List.prefix_concat_iff.1 hfront with rfl | hfront
    · exact ⟨_, .more h hadmits⟩
    · exact ih hfront hne

/-- Bytes that begin the encoding of a character and are not all of it leave it open. -/
theorem exists_begun_of_prefix {c : Char} (h : seen <+: String.utf8EncodeChar c) (hne : seen ≠ [])
    (hpart : seen ≠ String.utf8EncodeChar c) : ∃ unfinished, Begun seen unfinished := by
  obtain ⟨front, byte, hbytes, hopen⟩ : ∃ front byte, String.utf8EncodeChar c = front ++ [byte] ∧
      (front = [] ∨ ∃ unfinished, Begun front unfinished) := by
    by_cases hc : c.toNat < 128
    · exact ⟨[], lead c, by rw [encodeChar_eq_cons, trail_of_ascii hc]; rfl, Or.inl rfl⟩
    · obtain ⟨front, low, high, value, byte, hbytes, hbegun, -⟩ :=
        exists_begun (Nat.le_of_not_lt hc)
      exact ⟨front, byte, hbytes, Or.inr ⟨_, hbegun⟩⟩
  rw [hbytes] at h hpart
  have hfront := (List.prefix_concat_iff.1 h).resolve_left hpart
  rcases hopen with rfl | ⟨unfinished, hbegun⟩
  · exact absurd (List.prefix_nil.1 hfront) hne
  · exact hbegun.exists_of_prefix hfront hne

end

end Unfinished

/-- A maximal ill-formed subpart is read as one. -/
theorem MaximalSubpart.parts_append {part rest : List UInt8} (h : MaximalSubpart part rest) :
    parts (part ++ rest) = none :: parts rest := by
  by_cases hbegins : BeginsCharacter part
  · obtain ⟨c, hc⟩ := hbegins
    have hpart : part ≠ String.utf8EncodeChar c := by
      rintro rfl
      exact h.illFormed c (List.prefix_append _ rest)
    obtain ⟨⟨owed, low, high, value⟩, hbegun⟩ := Unfinished.exists_begun_of_prefix hc h.ne_nil hpart
    rw [parts_begun hbegun]
    cases rest with
    | nil => rfl
    | cons byte rest =>
      -- A byte that goes on with the character would make the subpart longer.
      refine partsFrom_some_abandon fun hadmits => ?_
      have hlonger := h.longest (part ++ [byte]) ⟨rest, by simp⟩
        (hbegun.beginsCharacter_of_admits hadmits)
      rw [List.length_append, List.length_singleton] at hlonger
      omega
  · obtain ⟨byte, rfl⟩ := List.length_eq_one_iff.1 (h.begins.resolve_left hbegins)
    refine parts_cons_stray (fun hbyte => ?_) ?_
    · have hencode := encodeChar_ofUInt8 hbyte
      exact hbegins ⟨Char.ofUInt8 byte, hencode ▸ List.prefix_rfl⟩
    · by_contra hlead
      obtain ⟨⟨owed, low, high, value⟩, hopen⟩ := Option.ne_none_iff_exists'.1 hlead
      exact hbegins (Begun.lead hopen).beginsCharacter

/-- Of the prefixes with some property there is a longest one. -/
theorem exists_longest_prefix {property : List UInt8 → Prop} (hnil : property [])
    (bytes : List UInt8) :
    ∃ front, front <+: bytes ∧ property front ∧
      ∀ other, other <+: bytes → property other → other.length ≤ front.length := by
  induction bytes using List.reverseRecOn with
  | nil => exact ⟨[], List.prefix_rfl, hnil, fun other hother _ => hother.length_le⟩
  | append_singleton bytes byte ih =>
    by_cases hwhole : property (bytes ++ [byte])
    · exact ⟨_, List.prefix_rfl, hwhole, fun other hother _ => hother.length_le⟩
    · obtain ⟨front, hfront, hproperty, hlongest⟩ := ih
      refine ⟨front, hfront.trans (List.prefix_append _ _), hproperty, fun other hother h => ?_⟩
      rcases List.prefix_concat_iff.1 hother with rfl | hother
      · exact absurd h hwhole
      · exact hlongest other hother h

/-- Where no character is encoded there is a maximal ill-formed subpart. -/
theorem exists_maximalSubpart {bytes : List UInt8} (hne : bytes ≠ [])
    (h : ∀ c : Char, ¬ String.utf8EncodeChar c <+: bytes) :
    ∃ part rest, part ++ rest = bytes ∧ MaximalSubpart part rest := by
  have hnil : BeginsCharacter [] := ⟨default, List.nil_prefix⟩
  obtain ⟨front, ⟨rest, rfl⟩, hbegins, hlongest⟩ := exists_longest_prefix hnil bytes
  cases front with
  | cons byte front => exact ⟨_, rest, rfl, by simp, h, Or.inl hbegins, hlongest⟩
  | nil =>
    obtain ⟨byte, rest, rfl⟩ := List.exists_cons_of_ne_nil hne
    refine ⟨[byte], rest, rfl, by simp, h, Or.inr rfl, fun other hother hother' => ?_⟩
    exact Nat.le_trans (hlongest other hother hother') (Nat.zero_le _)

/-- Any bytes can be read as a text. -/
theorem exists_lossy (bytes : List UInt8) : ∃ text, Lossy bytes text := by
  induction hlength : bytes.length using Nat.strongRecOn generalizing bytes with
  | _ length ih =>
    have hrest {part rest : List UInt8} (hbytes : part ++ rest = bytes) (hne : part ≠ []) :
        ∃ text, Lossy rest text := by
      have hpos := List.length_pos_iff.2 hne
      rw [← hbytes, List.length_append] at hlength
      exact ih rest.length (by omega) rest rfl
    by_cases hnil : bytes = []
    · exact ⟨[], hnil ▸ .nil⟩
    · by_cases hchar : ∃ c : Char, String.utf8EncodeChar c <+: bytes
      · obtain ⟨c, rest, hbytes⟩ := hchar
        obtain ⟨text, htext⟩ := hrest hbytes (encodeChar_ne_nil c)
        exact ⟨c :: text, hbytes ▸ .char c htext⟩
      · obtain ⟨part, rest, hbytes, hpart⟩ := exists_maximalSubpart hnil (not_exists.1 hchar)
        obtain ⟨text, htext⟩ := hrest hbytes hpart.ne_nil
        exact ⟨'\uFFFD' :: text, hbytes ▸ .illFormed hpart htext⟩

/-- Lossy reading puts one replacement character for each maximal ill-formed subpart, and reads
everything else as it is encoded. -/
theorem lossy_iff {bytes : List UInt8} {text : List Char} :
    Lossy bytes text ↔ decodeLossy bytes = text := by
  have hreads {bytes : List UInt8} {text : List Char} (h : Lossy bytes text) :
      decodeLossy bytes = text := by
    induction h with
    | nil => rfl
    | char c h ih =>
      rw [← ih, decodeLossy, parts_encodeChar]
      rfl
    | illFormed hpart h ih =>
      rw [← ih, decodeLossy, hpart.parts_append]
      rfl
  refine ⟨hreads, ?_⟩
  rintro rfl
  obtain ⟨text, htext⟩ := exists_lossy bytes
  rwa [hreads htext]

section

variable {part front rest other bytes : List UInt8} {left right text : List Char} {c : Char}

/-- No character of several bytes is begun across an ASCII byte. -/
theorem not_beginsCharacter_append (hc : c.toNat < 128) (hpart : part ≠ []) :
    ¬ BeginsCharacter (part ++ lead c :: rest) := by
  rintro ⟨d, hd⟩
  have hmem : lead c ∈ String.utf8EncodeChar d := hd.subset (by simp)
  obtain rfl := (lead_mem_encodeChar_iff hc).1 hmem
  have hlength := hd.length_le
  have hpos := List.length_pos_iff.2 hpart
  rw [String.length_utf8EncodeChar, utf8Size_of_ascii hc, List.length_append,
    List.length_cons] at hlength
  omega

/-- Bytes that begin a character end in front of an ASCII byte. -/
theorem BeginsCharacter.prefix_of_append (h : BeginsCharacter other) (hc : c.toNat < 128)
    (hpart : part ≠ []) (hother : other <+: part ++ lead c :: rest) : other <+: part := by
  rcases List.prefix_or_prefix_of_prefix hother (List.prefix_append part _) with
    hwithin | ⟨tail, rfl⟩
  · exact hwithin
  · cases tail with
    | nil => simp
    | cons byte tail =>
      obtain ⟨rfl, -⟩ := List.cons_prefix_cons.1 ((List.prefix_append_right_inj part).1 hother)
      exact absurd h (not_beginsCharacter_append hc hpart)

/-- An ill-formed subpart is the same in front of an ASCII byte. -/
theorem MaximalSubpart.append_ascii (h : MaximalSubpart part front) (hc : c.toNat < 128) :
    MaximalSubpart part (front ++ lead c :: rest) := by
  have hne : part ++ front ≠ [] := List.append_ne_nil_of_left_ne_nil h.ne_nil front
  refine ⟨h.ne_nil, fun d hd => ?_, h.begins, fun other hother hbegins => ?_⟩
  · rw [← List.append_assoc] at hd
    have hbegins : BeginsCharacter (String.utf8EncodeChar d) := ⟨d, List.prefix_rfl⟩
    exact h.illFormed d (hbegins.prefix_of_append hc hne hd)
  · rw [← List.append_assoc] at hother
    exact h.longest other (hbegins.prefix_of_append hc hne hother) hbegins

/-- What is in front of an ASCII byte is read apart from what is behind it. -/
theorem Lossy.append_ascii (hleft : Lossy front left) (hc : c.toNat < 128)
    (hright : Lossy rest right) : Lossy (front ++ lead c :: rest) (left ++ c :: right) := by
  induction hleft with
  | nil =>
    have hchar := Lossy.char c hright
    rwa [encodeChar_eq_cons, trail_of_ascii hc] at hchar
  | char d h ih =>
    rw [List.append_assoc]
    exact .char d ih
  | illFormed hpart h ih =>
    rw [List.append_assoc]
    exact .illFormed (hpart.append_ascii hc) ih

/-- An ASCII byte is read as its character, whatever is in front. -/
theorem decodeLossy_append_ascii (hc : c.toNat < 128) (front rest : List UInt8) :
    decodeLossy (front ++ lead c :: rest) = decodeLossy front ++ c :: decodeLossy rest :=
  lossy_iff.1 ((lossy_iff.2 rfl).append_ascii hc (lossy_iff.2 rfl))

/-- An ASCII character at the end is read from its byte. -/
theorem Lossy.getLast? (h : Lossy bytes text) (hc : c.toNat < 128)
    (hlast : text.getLast? = some c) : bytes.getLast? = some (lead c) := by
  induction h with
  | nil => cases hlast
  | @char bytes text d h ih =>
    cases h with
    | nil =>
      obtain rfl : d = c := by simpa using hlast
      rw [encodeChar_eq_cons, trail_of_ascii hc]
      rfl
    | char | illFormed =>
      rw [List.getLast?_cons_cons] at hlast
      rw [List.getLast?_append, ih hlast, Option.some_or]
  | @illFormed part bytes text hpart h ih =>
    cases h with
    | nil =>
      obtain rfl : '\uFFFD' = c := by simpa using hlast
      exact absurd hc (by decide)
    | char | illFormed =>
      rw [List.getLast?_cons_cons] at hlast
      rw [List.getLast?_append, ih hlast, Option.some_or]

end

end LoxScan.Utf8
