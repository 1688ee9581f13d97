import LoxScan.Proofs.Buffer

/-!
# Where cursors stand

The operations lead a cursor to places between two characters and to places inside one, and every
such place is described by what of the text is in front of it. The bytes that are left of a
character begun are never ASCII, so a search for ASCII characters passes them over.
-/

namespace LoxScan.Cursor

open Utf8

/-- The cursors of a text: between two characters, or inside one of which a byte was passed. -/
inductive Stands (text : List Char) : Cursor → Prop
  | between {front rest : List Char} : text = front ++ rest →
    Stands text (between text (size front) rest)
  | inside {front rest : List Char} {c : Char} {passed pending : List UInt8} :
    text = front ++ c :: rest → trail c = passed ++ pending → pending ≠ [] →
    Stands text ⟨text, size front + 1 + passed.length, pending, rest⟩

variable {text : List Char} {cursor next : Cursor}

/-- A jump begins with what is left of a character begun. -/
theorem skipTo_eq (cursor : Cursor) (stop : Char → Bool) : cursor.skipTo stop =
    (between cursor.text (cursor.pos + cursor.pending.length) cursor.rest).skipTo stop := by
  simp [skipTo, between]

namespace Stands

/-- Behind some bytes of a character. -/
theorem of_trail {front rest : List Char} {c : Char} {passed pending : List UInt8}
    (htext : text = front ++ c :: rest) (htrail : trail c = passed ++ pending) :
    Stands text ⟨text, size front + 1 + passed.length, pending, rest⟩ := by
  by_cases hpending : pending = []
  · subst hpending
    have hsize : size front + 1 + passed.length = size (front ++ [c]) := by
      have hlength := length_trail c
      rw [htrail, List.append_nil] at hlength
      rw [size_append, size_cons, size_nil]
      omega
    rw [hsize]
    exact .between (by rw [htext, List.append_assoc, List.singleton_append])
  · exact .inside htext htrail hpending

/-- The first cursor of a source. -/
theorem cursor_source (source : Source) : Stands source.text source.cursor :=
  .between (List.nil_append source.text).symm

/-- A step stays in the text. -/
theorem step? {byte : UInt8} (h : Stands text cursor)
    (hstep : cursor.step? = some (byte, next)) : Stands text next := by
  cases h with
  | @between front rest htext =>
    cases rest with
    | nil => cases hstep
    | cons c rest =>
      rw [step?_between] at hstep
      cases hstep
      exact of_trail htext (List.nil_append (trail c)).symm
  | @inside front rest c passed pending htext htrail hpending =>
    cases pending with
    | nil => exact absurd rfl hpending
    | cons first pending =>
      cases hstep
      rw [← List.singleton_append, ← List.append_assoc] at htrail
      have hnext := of_trail htext htrail
      rwa [List.length_append, ← Nat.add_assoc] at hnext

/-- A jump from between two characters ends there. -/
theorem skipTo_between {front rest : List Char} (htext : text = front ++ rest)
    (stop : Char → Bool) : Stands text ((Cursor.between text (size front) rest).skipTo stop) := by
  rw [Cursor.skipTo_between, ← size_append]
  apply Stands.between
  rw [List.append_assoc, List.takeWhile_append_dropWhile, htext]

/-- A jump stays in the text. -/
theorem skipTo (h : Stands text cursor) (stop : Char → Bool) :
    Stands text (cursor.skipTo stop) := by
  cases h with
  | between htext => exact skipTo_between htext stop
  | @inside front rest c passed pending htext htrail hpending =>
    have hlength := length_trail c
    have hpos : size front + 1 + passed.length + pending.length = size (front ++ [c]) := by
      rw [htrail, List.length_append] at hlength
      rw [size_append, size_cons, size_nil]
      omega
    rw [skipTo_eq, hpos]
    exact skipTo_between (by rw [htext, List.append_assoc, List.singleton_append]) stop

/-- Standing in a text is kept by steps and jumps. -/
theorem kept : Kept (Stands text) := ⟨step?, fun stop h => h.skipTo stop⟩

/-- Operations lead to places in the text. -/
theorem of_visited {source : Source} (h : Visited source cursor) : Stands source.text cursor :=
  kept.visited (cursor_source source) h

/-- A cursor that stands in a text has this text. -/
theorem text_eq (h : Stands text cursor) : cursor.text = text := by
  cases h with
  | between | inside => rfl

/-- The characters ahead are the last ones of the text. -/
theorem exists_front (h : Stands text cursor) : ∃ front, text = front ++ cursor.rest := by
  cases h with
  | @between front rest htext => exact ⟨front, htext⟩
  | @inside front rest c passed pending htext htrail hpending =>
    exact ⟨front ++ [c], by rw [htext, List.append_assoc, List.singleton_append]⟩

/-- The bytes that are left of a character begun are not ASCII. -/
theorem le_toNat_of_mem_pending (h : Stands text cursor) {byte : UInt8}
    (hbyte : byte ∈ cursor.pending) : 128 ≤ byte.toNat := by
  cases h with
  | between => cases hbyte
  | @inside front rest c passed pending htext htrail hpending =>
    apply le_toNat_of_mem_trail (c := c)
    rw [htrail]
    exact List.mem_append_right passed hbyte

/-- With an ASCII character ahead, a cursor is between two characters. -/
theorem eq_between {c : Char} (h : Stands text cursor) (hc : c.toNat < 128)
    (hstep : cursor.step? = some (lead c, next)) :
    ∃ front rest, text = front ++ c :: rest ∧
      cursor = Cursor.between text (size front) (c :: rest) := by
  have hbytes := upcoming_of_step? hstep
  have hlead : (lead c).toNat < 128 := by
    rw [toNat_lead, if_pos (by omega)]
    exact hc
  cases hpending : cursor.pending with
  | cons byte pending =>
    rw [upcoming, hpending] at hbytes
    obtain ⟨rfl, -⟩ := List.cons.inj hbytes
    have hle := h.le_toNat_of_mem_pending (hpending ▸ List.mem_cons_self)
    omega
  | nil =>
    cases h with
    | @between front rest htext =>
      cases rest with
      | nil => cases hstep
      | cons d rest =>
        rw [step?_between] at hstep
        obtain ⟨hd, -⟩ := Prod.mk.inj (Option.some.inj hstep)
        obtain rfl := (lead_eq_lead_iff hc).1 hd
        exact ⟨front, rest, htext, rfl⟩
    | inside htext htrail hne => exact absurd hpending hne

end Stands

end LoxScan.Cursor
